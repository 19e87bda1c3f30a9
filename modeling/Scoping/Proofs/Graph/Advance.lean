import Scoping.Proofs.Graph.Regular

/-!
# What an analysis never undoes

Ids stay valid: a graph only grows, and a symbol keeps what it was created with. Its subtree stays
as well, unless it is a parameter, which may be given another default. `Graph.Advances` puts this
together and holds for every edit of an analysis. `Graph.Proceeds` holds for the edits other than
entering and leaving scopes, restricting members and copying members of traits: they leave the
activity of scopes alone, restrict no members, and the symbols that they add were declared in the
tree.
-/

namespace Scoping

/-- The symbol is a parameter, or it is no copy and its subtree is among the first `n` nodes. -/
def Symbol.DeclaredBelow (n : Nat) (s : Symbol) : Prop :=
  s.flags.isParam = true ∨ s.origin = none ∧ ∀ id, s.subtree? = some id → id.index < n

/-- How often the scope has been entered, and whether its members are withheld. -/
def Scope.usage (s : Scope) : Nat × Bool := (s.active, s.isRestricted)

namespace Graph

variable {g g' g'' : Graph} {types : Set SymbolId} {n : Nat} {p : ScopeId} {role : Role}
  {x : SymbolId}

/-- What no edit of an analysis undoes. -/
structure Advances (g g' : Graph) : Prop where
  scopes_le : g.scopes.size ≤ g'.scopes.size
  symbols_le : g.symbols.size ≤ g'.symbols.size
  endures : ∀ {x}, x.index < g.symbols.size → (g.symbol x).Endures (g'.symbol x)
  subtree? : ∀ {x}, x.index < g.symbols.size →
    (g.symbol x).flags.isParam = false ∨ (g.symbol x).origin ≠ none →
    (g'.symbol x).subtree? = (g.symbol x).subtree?
  regular : g.Regular → g'.Regular

namespace Advances

protected theorem refl : g.Advances g :=
  ⟨Nat.le_refl _, Nat.le_refl _, fun _ => .refl, fun _ _ => rfl, id⟩

protected theorem trans (h : g.Advances g') (h' : g'.Advances g'') : g.Advances g'' where
  scopes_le := Nat.le_trans h.scopes_le h'.scopes_le
  symbols_le := Nat.le_trans h.symbols_le h'.symbols_le
  endures hx := (h.endures hx).trans (h'.endures (Nat.lt_of_lt_of_le hx h.symbols_le))
  subtree? hx hs := by
    have hendures := h.endures hx
    refine (h'.subtree? (Nat.lt_of_lt_of_le hx h.symbols_le) ?_).trans (h.subtree? hx hs)
    rwa [hendures.isParam, hendures.origin]
  regular hg := h'.regular (h.regular hg)

theorem of_edits (h : Edits types g g') (hsubtree : ∀ {x}, x.index < g.symbols.size →
      (g.symbol x).flags.isParam = false ∨ (g.symbol x).origin ≠ none →
      (g'.symbol x).subtree? = (g.symbol x).subtree?) : g.Advances g' :=
  ⟨h.sprouts.size_le, h.symbols_le, h.endures, hsubtree, fun hg => h.regular hg⟩

end Advances

/-! ### Edits that are none of the special ones -/

/-- The edit leaves the activity of scopes alone and restricts no members. -/
structure Steady (g g' : Graph) : Prop where
  active : ∀ q, (g'.scope q).active = (g.scope q).active
  restricted : ∀ {q}, (g'.scope q).isRestricted = true → (g.scope q).isRestricted = true

namespace Steady

protected theorem refl : g.Steady g := ⟨fun _ => rfl, id⟩

protected theorem trans (h : g.Steady g') (h' : g'.Steady g'') : g.Steady g'' :=
  ⟨fun q => (h'.active q).trans (h.active q), fun hq => h.restricted (h'.restricted hq)⟩

theorem of_usage (h : ∀ q, (g'.scope q).usage = (g.scope q).usage) : g.Steady g' :=
  ⟨fun q => congrArg Prod.fst (h q), fun {q} hq => (congrArg Prod.snd (h q)).symm.trans hq⟩

end Steady

theorem usage_modifyMember {f : MemberInfo → MemberInfo}
    (hf : ∀ info, (f info).restricted = info.restricted) (q : ScopeId) :
    ((g.modifyMember p f).scope q).usage = (g.scope q).usage := by
  refine scope_modifyScope_congr Scope.usage _ _ fun s => ?_
  cases hmember : s.member <;> simp [Scope.usage, Scope.isRestricted, Scope.mapMember, hmember, hf]

theorem usage_putSlot (q : ScopeId) : ((g.putSlot p role x).scope q).usage = (g.scope q).usage :=
  usage_modifyMember (fun _ => by cases role <;> rfl) q

theorem usage_declareSlot (q : ScopeId) :
    ((g.declareSlot p role x).2.scope q).usage = (g.scope q).usage :=
  declareSlot_induction (P := fun g' => (g'.scope q).usage = (g.scope q).usage) rfl
    (fun _ h => (usage_putSlot q).trans h)
    fun _ _ h => (scope_modifyScope_congr Scope.usage p q (by exact fun _ => rfl)).trans h

theorem usage_declare (q : ScopeId) : ((g.declare p x).2.scope q).usage = (g.scope q).usage :=
  scope_declare_congr Scope.usage (fun _ _ _ _ => rfl) q

theorem usage_newScope (kind : ScopeKind) (parent : Option ScopeId) (q : ScopeId) :
    ((g.newScope kind parent).2.scope q).usage = (g.scope q).usage :=
  scope_newScope_congr g Scope.usage (fun _ _ _ _ _ => rfl) kind parent q

theorem usage_subModule (name : String) (q : ScopeId) :
    ((g.subModule p name).2.scope q).usage = (g.scope q).usage :=
  scope_subModule_congr Scope.usage (fun _ _ _ _ _ => rfl) (fun _ _ _ => rfl) p name q

/-- The members of a new type are not withheld. -/
theorem usage_allocType (s : Symbol) (q : ScopeId) :
    ((g.allocType p s).2.scope q).usage = (g.scope q).usage := by
  have hactive := scope_newMemberScope_congr g Scope.active (fun _ _ _ _ _ => rfl)
    (fun _ _ => rfl) ⟨g.symbols.size⟩ p q
  rw [scope_allocType, Scope.usage, Scope.usage, Scope.isRestricted, Scope.isRestricted, hactive,
    member_newMemberScope]
  split
  next hq =>
    rw [scope_of_size_le (Nat.le_of_eq hq.symm)]
    rfl
  next => rfl

/-- The edit is steady and adds only symbols that are declared by the first `n` nodes. -/
structure Proceeds (n : Nat) (g g' : Graph) : Prop extends Advances g g', Steady g g' where
  declared : ∀ {x}, g.symbols.size ≤ x.index → (g'.symbol x).DeclaredBelow n

/-- Edits that add no symbols and change no subtrees. -/
theorem Proceeds.of_edits (h : Edits types g g')
    (hsubtree : ∀ x, (g'.symbol x).subtree? = (g.symbol x).subtree?)
    (hsize : g'.symbols.size = g.symbols.size)
    (husage : ∀ q, (g'.scope q).usage = (g.scope q).usage) : g.Proceeds n g' :=
  ⟨.of_edits h fun _ _ => hsubtree _, .of_usage husage, fun hx => by
    rw [symbol_of_size_le (hsize ▸ hx)]
    exact .inr ⟨rfl, nofun⟩⟩

/-- Publishing leaves symbols alone. -/
theorem Publishes.proceeds (h : Publishes g g') : g.Proceeds n g' := by
  have hframe : (∀ x, g'.symbol x = g.symbol x) ∧ g'.symbols.size = g.symbols.size ∧
      ∀ q, (g'.scope q).usage = (g.scope q).usage := by
    induction h with
    | refl => exact ⟨fun _ => rfl, rfl, fun _ => rfl⟩
    | tail _ hlast ih =>
      obtain ⟨hsymbol, hsize, husage⟩ := ih
      cases hlast with
      | openModule name =>
        exact ⟨fun x => by rw [symbols_subModule, hsymbol],
          (size_symbols_subModule _ _).trans hsize,
          fun q => (usage_subModule name q).trans (husage q)⟩
      | enter =>
        exact ⟨hsymbol, hsize, fun q =>
          (scope_modifyScope_congr Scope.usage _ q (by exact fun _ => rfl)).trans (husage q)⟩
  have hedits : Edits ∅ g g' := h.edits
  exact .of_edits hedits (fun x => by rw [hframe.1]) hframe.2.1 hframe.2.2

/-! ### Parameters -/

theorem paramsOf_eq (g : Graph) (f : SymbolId) : g.paramsOf f = (g.symbol f).params := rfl

theorem length_allocAll (list : List Symbol) (g : Graph) :
    (g.allocAll list).1.length = list.length := by
  induction list generalizing g with
  | nil => rfl
  | cons s rest ih => exact congrArg (· + 1) (ih (g.alloc s).2)

theorem newScope_lt (g : Graph) (kind : ScopeKind) (parent : Option ScopeId) :
    (g.newScope kind parent).1.index < (g.newScope kind parent).2.scopes.size := by
  rw [newScope_fst, size_scopes_newScope]
  exact Nat.lt_add_of_pos_right (by split <;> decide)

theorem paramsOf_setParams_self {f : SymbolId} (hf : f.index < g.symbols.size)
    (hkind : (g.symbol f).kind = .fn) (params : List SymbolId) :
    (g.modifyData f (·.mapFn fun data => { data with params })).paramsOf f = params := by
  rw [paramsOf_eq, modifyData, symbol_modifySymbol_self hf]
  generalize g.symbol f = s at hkind
  cases s
  cases ‹SymbolData› with
  | fn => rfl
  | _ => cases hkind

end Graph

end Scoping
