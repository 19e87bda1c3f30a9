import Scoping.Proofs.Graph.Step
import Scoping.Proofs.Graph.Unmarked

/-!
# What searches find and note

A search finds symbols that a table lists or that are in a slot, and nothing else. All that it
changes are the notes about captured symbols.
-/

namespace Scoping

namespace Graph

variable {g : Graph} {types : Set SymbolId} {name : String}

/-! ### Captures -/

/-- Resolving a name takes steps. -/
theorem lookupPath_steps (start : ScopeId) (path : QualName) (ns : Namespace) :
    Steps types g (g.lookupPath start path ns).2 :=
  lookupPath_induction (P := Steps types g) start path ns .refl
    (fun {g} p f h => h.tail (.amendScope (.marks (g.scope p) _ (f (g.scope p)) _)))
    fun _ h => h.tail (.amendSymbol ⟨⟨rfl, rfl, id⟩, rfl, .inr rfl⟩)

/-! ### Roots of paths -/

theorem outward_rootOf (g : Graph) (p : ScopeId) : g.Outward (g.owner p) (g.rootOf p) := by
  unfold rootOf
  dsimp only
  split
  next r hr => exact outward_of_mem_enclosingWithin (List.mem_of_find?_eq_some hr)
  next =>
    cases hlast : (g.enclosing p).getLast? with
    | none => exact .refl
    | some last => exact outward_of_mem_enclosingWithin (List.mem_of_getLast? hlast)

theorem outward_of_mem_rootsWithin {root : ScopeId} : ∀ (fuel : Nat) {p : ScopeId},
    root ∈ g.rootsWithin fuel p → g.Outward (g.owner p) root
  | 0, _, h => by cases h
  | fuel + 1, p, h => by
    rw [rootsWithin] at h
    rcases List.mem_cons.mp h with rfl | h
    · exact outward_rootOf g p
    · split at h
      next parent hparent =>
        have hnext : g.outward? (g.rootOf p) = some (g.owner parent) := by
          rw [outward?, hparent, Option.map_some]
        exact (outward_rootOf g p).trans (.head hnext (outward_of_mem_rootsWithin fuel h))
      next => cases h

/-- Paths start at scopes further out. -/
theorem outward_of_mem_pathRoots {start root : ScopeId} {rooted : Bool}
    (h : root ∈ g.pathRoots start rooted) : g.Outward (g.owner start) root ∨ root = global := by
  refine (mem_pathRoots_iff.mp h).imp_left fun h => ?_
  split at h
  · exact outward_of_mem_enclosingWithin (List.mem_of_find?_eq_some (Option.mem_toList.mp h))
  · exact outward_of_mem_rootsWithin _ h

/-! ### What is found -/

/-- The symbol is listed by a table or in a slot. -/
def Held (g : Graph) (x : SymbolId) : Prop :=
  g.Listed x ∨ ∃ p role name, g.slot? p role name = some x

variable {ns : Option Namespace} {x : SymbolId} {q : ScopeId}

theorem held_of_get? {ns : Namespace} (h : (g.scope q).table.get? ns name = some x) : g.Held x :=
  .inl ⟨q, ns, name, h⟩

theorem exists_get?_of_find? {t : Table}
    (h : t.find? name ns = some x) : ∃ ns, t.get? ns name = some x := by
  cases ns with
  | some ns => exact ⟨ns, h⟩
  | none =>
    obtain ⟨ns, -, h⟩ := List.exists_of_findSome?_eq_some h
    exact ⟨ns, h⟩

theorem held_of_find? (h : (g.scope q).table.find? name ns = some x) : g.Held x := by
  obtain ⟨ns, h⟩ := exists_get?_of_find? h
  exact held_of_get? h

theorem exists_slot?_of_accessor? (h : (g.scope q).member.bind (accessor? · name ns) = some x) :
    ∃ role, g.slot? q role name = some x := by
  obtain ⟨info, hinfo, h⟩ := Option.bind_eq_some_iff.mp h
  have hslot : ∀ role, info.slot? role name = some x → ∃ role, g.slot? q role name = some x :=
    fun role hx => ⟨role, by rw [slot?, memberInfo?, hinfo]; exact hx⟩
  have haccess : (info.getters.find? name <|> info.setters.find? name) = some x := by
    rcases ns with - | (- | - | - | -) <;> first | exact h | cases h
  cases hget : info.getters.find? name with
  | some y =>
    rw [hget] at haccess
    cases haccess
    exact hslot .getter hget
  | none =>
    rw [hget] at haccess
    exact hslot .setter haccess

theorem held_of_accessor?
    (h : (g.scope q).member.bind (accessor? · name ns) = some x) : g.Held x := by
  obtain ⟨role, h⟩ := exists_slot?_of_accessor? h
  exact .inr ⟨q, role, name, h⟩

theorem symbol?_restrict (s : Scope) (x : SymbolId) : (restrict s x).symbol? = some x := by
  unfold restrict
  split <;> rfl

/-- What is found in a scope or in its partition is held by a table or a slot. -/
theorem held_of_searchOwn {id : ScopeId} {viaSuper : Bool}
    (h : (g.searchOwn id name ns viaSuper).symbol? = some x) : g.Held x := by
  have hsome : ∀ {found : SymbolId} {c : Bool} {s : Scope},
      (if c = true then Lookup.hidden found else restrict s found).symbol? = some x →
      found = x := by
    intro found c s h
    split at h
    · exact Option.some.inj h
    · rw [symbol?_restrict] at h
      exact Option.some.inj h
  unfold searchOwn at h
  dsimp only at h
  split at h
  next hfound =>
    rw [symbol?_restrict] at h
    cases h
    exact held_of_find? hfound
  next =>
    split at h
    next hfound =>
      cases hsome h
      obtain ⟨inner, -, hfound⟩ := Option.bind_eq_some_iff.mp hfound
      exact held_of_find? hfound
    next =>
      split at h
      next hfound =>
        cases hsome h
        exact held_of_accessor? hfound
      next => cases h

theorem held_of_itemIn {id : ScopeId} {ns : Namespace}
    (h : (g.itemIn id name ns).symbol? = some x) : g.Held x := by
  unfold itemIn at h
  dsimp only at h
  split at h
  next hfound =>
    cases h
    exact held_of_get? hfound
  next =>
    split at h
    next hfound =>
      obtain ⟨inner, -, hfound⟩ := Option.bind_eq_some_iff.mp hfound
      split at h <;> cases h <;> exact held_of_get? hfound
    next =>
      split at h
      next hfound =>
        split at hfound
        · cases h
          exact held_of_get? hfound
        · cases hfound
      next => cases h

/-- A search answers with symbols that some table or slot holds. -/
theorem answers_held (g : Graph) : Answers (fun a _ => ∀ x, a.symbol? = some x → g.Held x) g g
    (fun _ => True) (fun _ => True) (fun _ => True) fun _ => True :=
  .left nofun nofun (fun _ _ _ _ _ => held_of_searchOwn) (fun _ _ _ _ => held_of_itemIn)
    (fun _ _ => trivial) (fun _ _ => trivial) fun _ => trivial

end Graph

end Scoping
