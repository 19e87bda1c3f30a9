import Scoping.Proofs.Graph.Landing
import Scoping.Proofs.Graph.Search

/-!
# What searches notice of a declaration

A declaration that is carried out changes one table at one key, and one that is refused changes
none. So a search for another name, or in another namespace, answers what it answered before
(`Graph.declare_observed_at_key`). This needs that the new symbol is in no slot: its flags are
settled by the declaration, and searches look at the flags of accessors.
-/

namespace Scoping

namespace Table

variable {t : Table} {ns ns' : Namespace} {name name' : String} {id : SymbolId}

theorem get?_insert_of_ne (h : ¬ (ns' = ns ∧ name' = name)) :
    (t.insert ns name id).get? ns' name' = t.get? ns' name' := by
  by_cases hfree : t.get? ns name = none
  · rw [get?_insert hfree, if_neg h]
  · obtain ⟨y, hy⟩ := Option.ne_none_iff_exists'.mp hfree
    rw [insert_of_get? hy]

end Table

namespace Graph

variable {g : Graph} {target : ScopeId} {symbol : SymbolId} {name : String}
  {ns : Option Namespace}

/-! ### Declarations -/

/-- A search for the name in the namespace, or in any if none is given, comes upon the key of the
symbol. -/
def SeenAt (g : Graph) (symbol : SymbolId) (name : String) (ns : Option Namespace) : Prop :=
  name = (g.symbol symbol).name ∧ (ns = none ∨ ns = some (g.symbol symbol).ns)

/-- A declaration changes tables at the key of the symbol only. -/
theorem get?_declare_of_ne (hsymbol : symbol.index < g.symbols.size) {ns : Namespace}
    (hne : ¬ (ns = (g.symbol symbol).ns ∧ name = (g.symbol symbol).name)) (q : ScopeId) :
    ((g.declare target symbol).2.scope q).table.get? ns name = (g.scope q).table.get? ns name := by
  cases hv : g.verdict target symbol with
  | reject | keep => rw [declare_of_not_isLive (by rw [hv]; rfl), scope_stamp]
  | add shadows =>
    rw [table_declare_add hv hsymbol]
    split
    · exact Table.get?_insert_of_ne hne
    · rfl
  | replace old =>
    rw [table_declare_replace hv]
    split
    · rw [Table.get?_replace, if_neg hne]
    · rfl

/-- A table answers alike unless the declaration is carried out and its key is asked for. -/
theorem find?_declare (hsymbol : symbol.index < g.symbols.size)
    (hunseen : ¬ ((g.verdict target symbol).isLive = true ∧ g.SeenAt symbol name ns))
    (q : ScopeId) :
    ((g.declare target symbol).2.scope q).table.find? name ns =
      (g.scope q).table.find? name ns := by
  cases hlive : (g.verdict target symbol).isLive with
  | false => rw [declare_of_not_isLive hlive, scope_stamp]
  | true =>
    have hkey : ¬ g.SeenAt symbol name ns := fun hseen => hunseen ⟨hlive, hseen⟩
    cases ns with
    | some ns =>
      exact get?_declare_of_ne hsymbol (fun h => hkey ⟨h.2, .inr (by rw [h.1])⟩) q
    | none =>
      have hname : name ≠ (g.symbol symbol).name := fun h => hkey ⟨h, .inl rfl⟩
      have hget : (((g.declare target symbol).2.scope q).table.get? · name) =
          ((g.scope q).table.get? · name) :=
        funext fun ns => get?_declare_of_ne hsymbol (fun h => hname h.2) q
      rw [Table.find?, Table.find?, hget]

/-- One scope on the way of a search. -/
theorem searchOwn_declare (hsymbol : symbol.index < g.symbols.size) (hloose : ¬ g.Held symbol)
    (hunseen : ¬ ((g.verdict target symbol).isLive = true ∧ g.SeenAt symbol name ns))
    (q : ScopeId) (viaSuper : Bool) :
    (g.declare target symbol).2.searchOwn q name ns viaSuper =
      g.searchOwn q name ns viaSuper := by
  have hfind := find?_declare hsymbol hunseen
  have hinner : ((g.declare target symbol).2.scope q).inner = (g.scope q).inner :=
    scope_declare_congr Scope.inner (fun _ _ _ _ => rfl) q
  have hmember : ((g.declare target symbol).2.scope q).member = (g.scope q).member :=
    scope_declare_congr Scope.member (fun _ _ _ _ => rfl) q
  have hactive : ((g.declare target symbol).2.scope q).isActive = (g.scope q).isActive :=
    scope_declare_congr Scope.isActive (fun _ _ _ _ => rfl) q
  have hclosed : isClosed ((g.declare target symbol).2.scope q) = isClosed (g.scope q) := by
    funext viaSuper
    rw [isClosed, isClosed, hactive]
  have hrestrict : restrict ((g.declare target symbol).2.scope q) = restrict (g.scope q) := by
    funext x
    rw [restrict, restrict, Scope.isRestricted, Scope.isRestricted, hmember]
  simp only [searchOwn, hfind, hinner, hmember, hclosed, hrestrict]
  split
  · rfl
  · split
    · rfl
    · split
      next x hx =>
        have hne : x ≠ symbol := fun heq => hloose (heq ▸ held_of_accessor? hx)
        rw [symbol_declare_stamp Symbol.flags (fun _ _ _ => rfl), symbol_stamp_of_ne hne]
      · rfl

/-- What searches answer changes with a declaration only if it is carried out, and only for the key
of the new symbol. Otherwise not even a scope changes. -/
theorem declare_observed_at_key (target : ScopeId) (hsymbol : symbol.index < g.symbols.size)
    (hloose : ¬ g.Held symbol) :
    (∀ start name ns,
      ¬ ((g.declare target symbol).1.isLive = true ∧ g.SeenAt symbol name ns) →
      (g.declare target symbol).2.peek start name ns = g.peek start name ns ∧
      ∀ viaSuper, (g.declare target symbol).2.lookupMember start name ns viaSuper =
        g.lookupMember start name ns viaSuper) ∧
    ((g.declare target symbol).1.isLive = false →
      (∀ q, (g.declare target symbol).2.scope q = g.scope q) ∧
      ∀ start name ns,
        (g.declare target symbol).2.peek start name ns = g.peek start name ns ∧
        ∀ viaSuper, (g.declare target symbol).2.lookupMember start name ns viaSuper =
          g.lookupMember start name ns viaSuper) := by
  have hframe : ∀ start name ns,
      ¬ ((g.declare target symbol).1.isLive = true ∧ g.SeenAt symbol name ns) →
      (g.declare target symbol).2.peek start name ns = g.peek start name ns ∧
      ∀ viaSuper, (g.declare target symbol).2.lookupMember start name ns viaSuper =
        g.lookupMember start name ns viaSuper := by
    intro start name ns hunseen
    have hsearches : Searches Eq g (g.declare target symbol).2 (fun _ => True) (fun _ => True)
        name ns :=
      { passes := .eq
        own := fun {q} _ viaSuper => (searchOwn_declare hsymbol hloose hunseen q viaSuper).symm
        superScope? := fun _ => by
          rw [superScope?, superScope?, memberInfo?, memberInfo?,
            scope_declare_congr Scope.member fun _ _ _ _ => rfl]
        super := fun _ _ => trivial
        member := id
        sealed := fun _ => scope_declare_congr Scope.sealed (fun _ _ _ _ => rfl) _
        parent := fun _ => scope_declare_congr Scope.parent (fun _ _ _ _ => rfl) _
        delegate := fun _ => scope_declare_congr Scope.delegate (fun _ _ _ _ => rfl) _
        outward := fun _ _ => trivial }
    exact ⟨(hsearches.search _ trivial).symm, fun _ => (hsearches.searchMember _ trivial).symm⟩
  refine ⟨hframe, fun hdead => ⟨fun q => ?_, fun start name ns => hframe start name ns ?_⟩⟩
  · rw [declare_of_not_isLive hdead, scope_stamp]
  · rw [hdead]
    exact fun h => Bool.false_ne_true h.1

theorem not_held_forwardUnit : ¬ forwardUnit.Held ⟨1⟩ := by
  rintro (⟨q, ns, name, hq⟩ | ⟨p, role, name, hp⟩)
  · have hdetached : (forwardUnit.symbol ⟨1⟩).scope = none := by decide
    exact built_forwardUnit.agreement.ne_of_detached hdetached hq rfl
  · have hmember : (forwardUnit.scope p).member = none := by
      rcases Nat.lt_or_ge p.index forwardUnit.scopes.size with hlt | hge
      · have hall : ∀ i < 4, (forwardUnit.scope ⟨i⟩).member = none := by decide
        exact hall p.index hlt
      · rw [scope_of_size_le hge]
        rfl
    rw [slot?, memberInfo?, hmember] at hp
    cases hp

/-- When the forward declaration in the unit is completed, searches for values of its name go to
the new symbol, and those for types still find nothing. -/
theorem declare_observed_at_key_forwardUnit :
    (forwardUnit.declare ⟨1⟩ ⟨1⟩).1 = .replace ⟨0⟩ ∧
      forwardUnit.peek ⟨3⟩ "f" (some .value) = .hidden ⟨0⟩ ∧
      (forwardUnit.declare ⟨1⟩ ⟨1⟩).2.peek ⟨3⟩ "f" (some .value) = .hidden ⟨1⟩ ∧
      ¬ forwardUnit.SeenAt ⟨1⟩ "f" (some .type) ∧
      (forwardUnit.declare ⟨1⟩ ⟨1⟩).2.peek ⟨3⟩ "f" (some .type) = .notFound := by
  have hunseen : ¬ forwardUnit.SeenAt ⟨1⟩ "f" (some .type) := fun h => absurd h.2 (by decide)
  refine ⟨by decide +kernel, by decide +kernel, by decide +kernel, hunseen, ?_⟩
  have hsame := (declare_observed_at_key ⟨1⟩ (by decide) not_held_forwardUnit).1 ⟨3⟩ "f"
    (some .type) fun h => hunseen h.2
  exact hsame.1.trans (by decide +kernel)

end Graph

end Scoping
