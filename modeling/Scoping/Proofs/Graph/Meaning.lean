import Scoping.Proofs.Graph.Outline
import Scoping.Proofs.Graph.Unmarked

/-!
# What names mean while types are resolved

Resolving types fills in much of a graph, but of what it fills in a look-up reads only the links
between member scopes, and it reads these only from inside a type. So what a name means in a root
scope is settled by the outline of the graph (`Graph.meaning_congr_of_isRoot`), and what it means
inside of a type depends, beyond the outline, on the superclasses of this type
(`Graph.Concur.meaning_eq`). Neither look-up notes a capture, since no function is around.
-/

namespace Scoping

namespace Graph

/-! ### Look-ups in the outline -/

section Readers

variable (g : Graph)

@[simp]
theorem isActive_outline (s : Scope) : s.outline.isActive = s.isActive := rfl

@[simp]
theorem isClosed_outline (s : Scope) : isClosed s.outline = isClosed s := rfl

@[simp]
theorem isRestricted_outline (s : Scope) : s.outline.isRestricted = s.isRestricted := by
  simp only [Scope.isRestricted, Scope.outline_member]
  cases s.member <;> rfl

@[simp]
theorem restrict_outline (s : Scope) : restrict s.outline = restrict s := by
  funext x
  simp [restrict]

@[simp]
theorem isRoot_outline : g.outline.isRoot = g.isRoot := by
  funext p
  simp [isRoot]

@[simp]
theorem rootOf_outline : g.outline.rootOf = g.rootOf := by
  funext p
  simp [rootOf]

@[simp]
theorem unitOf?_outline : g.outline.unitOf? = g.unitOf? := by
  funext p
  simp [unitOf?]

@[simp]
theorem pathRoots_outline : g.outline.pathRoots = g.pathRoots := by
  have hwithin : ∀ fuel p, g.outline.rootsWithin fuel p = g.rootsWithin fuel p := by
    intro fuel
    induction fuel with
    | zero => intro p; rfl
    | succ fuel ih => intro p; simp [rootsWithin, ih]
  funext start rooted
  simp [pathRoots, hwithin]

@[simp]
theorem visibleImport?_outline : g.outline.visibleImport? = g.visibleImport? := by
  funext q name skip
  simp [visibleImport?]

@[simp]
theorem itemIn_outline : g.outline.itemIn = g.itemIn := by
  funext q name ns
  simp [itemIn]

@[simp]
theorem searchOwn_outline : g.outline.searchOwn = g.searchOwn := by
  funext q name ns viaSuper
  have haccessor : ((g.scope q).outline.member.bind (accessor? · name ns)) =
      (g.scope q).member.bind (accessor? · name ns) := by
    rw [Scope.outline_member]
    cases (g.scope q).member with
    | none => rfl
    | some info => cases ns <;> rfl
  have hprivate : ∀ s : Symbol, s.outline.flags.isPrivate = s.flags.isPrivate := by
    intro s
    simp only [Symbol.outline]
    split <;> rfl
  simp only [searchOwn, scope_outline, symbol_outline, haccessor, hprivate, restrict_outline,
    isClosed_outline, Scope.outline_table, Scope.outline_inner]

end Readers

variable {g g' : Graph} {q : ScopeId}

/-- Whatever the outline tells is the same in both graphs. -/
theorem congr_of_outline {β : Type} (π : Graph → β) (hπ : ∀ g, π g.outline = π g)
    (h : g'.outline = g.outline) : π g' = π g := by
  rw [← hπ, h, hπ]

theorem scope_congr_of_outline {β : Type} (π : Scope → β) (hπ : ∀ s : Scope, π s.outline = π s)
    (h : g'.outline = g.outline) (q : ScopeId) : π (g'.scope q) = π (g.scope q) :=
  congr_of_outline (fun g => π (g.scope q)) (fun g => by rw [scope_outline, hπ]) h

/-! ### Scopes around which there are only roots -/

/-- A root, or the members of a type that is declared in one. -/
structure Level (g : Graph) (q : ScopeId) : Prop where
  kind : (g.scope q).kind ≠ .function
  parent : ∀ p, (g.scope q).parent = some p → (g.scope p).kind.isRoot = true

theorem Level.of_isRoot (hg : g.Nested) (h : (g.scope q).kind.isRoot = true) : g.Level q where
  kind hkind := by
    rw [hkind] at h
    cases h
  parent _ hp := hg.isRoot_parent hp h

theorem isRoot_of_isAncestorWithin (hg : g.Nested) {ancestor : ScopeId} : ∀ {fuel p},
    (g.scope p).kind.isRoot = true → g.isAncestorWithin ancestor fuel (some p) = true →
    (g.scope ancestor).kind.isRoot = true
  | 0, _, _, h => by cases h
  | fuel + 1, p, hp, h => by
    rcases Bool.or_eq_true_iff.mp h with heq | h
    · rwa [← beq_iff_eq.mp heq]
    · cases hparent : (g.scope p).parent with
      | none =>
        rw [hparent] at h
        cases fuel <;> cases h
      | some p' =>
        rw [hparent] at h
        exact isRoot_of_isAncestorWithin hg (hg.isRoot_parent hparent hp) h

/-- No local symbol of a function can be meant there. -/
theorem Level.capture_eq (h : g.Level q) (hg : g.Nested) (x : SymbolId) : g.capture q x = g := by
  unfold capture
  split
  · rfl
  next owner _ =>
    refine if_neg fun hcond => ?_
    simp only [Bool.and_eq_true, Bool.or_eq_true, beq_iff_eq] at hcond
    obtain ⟨⟨hkind, -⟩, hancestor⟩ := hcond
    unfold isAncestor at hancestor
    cases hparent : (g.scope q).parent with
    | none =>
      rw [hparent] at hancestor
      cases hancestor
    | some p =>
      rw [hparent] at hancestor
      have hroot := isRoot_of_isAncestorWithin hg (h.parent p hparent) hancestor
      rcases hkind with hkind | hkind <;> rw [hkind] at hroot <;> cases hroot

/-- What a path means as the name of a type. -/
def meaning (g : Graph) (q : ScopeId) (path : QualName) : Lookup := (g.lookupPath q path .type).1

theorem Level.lookupPath_eq (h : g.Level q) (hg : g.Nested) (path : QualName) :
    g.lookupPath q path .type = (g.meaning q path, g) := by
  refine Prod.ext rfl ?_
  rcases lookupPath_snd g q path .type with heq | ⟨x, heq⟩
  · exact heq
  · exact heq.trans (h.capture_eq hg x)

/-! ### The same meaning in two graphs -/

section Congr

variable (h : g'.outline = g.outline)

include h

theorem member_eq_none_of_outline (hmember : (g.scope q).member = none) :
    (g'.scope q).member = none := by
  have hsame := congrArg (fun g : Graph => (g.scope q).member) h
  simp only [scope_outline, Scope.outline_member, hmember] at hsame
  exact Option.map_eq_none_iff.mp hsame

theorem superScope?_of_isRoot (hg : g.Nested) (hq : (g.scope q).kind.isRoot = true) :
    g.superScope? q = none ∧ g'.superScope? q = none := by
  have hmember := hg.member_of_isRoot hq
  simp only [superScope?, memberInfo?, hmember, member_eq_none_of_outline h hmember]
  exact ⟨rfl, rfl⟩

theorem Nested.of_outline (hg : g.Nested) : g'.Nested := by
  refine hg.congr (scope_congr_of_outline Scope.links (fun _ => rfl) h)
    (fun q hq => hg.kind_of_member fun hnone => hq (member_eq_none_of_outline h hnone))
    fun p name m hm => .inl ?_
  rwa [← scope_congr_of_outline Scope.modules (fun _ => rfl) h p]

theorem Level.of_outline (hq : g.Level q) : g'.Level q := by
  have hkind := scope_congr_of_outline Scope.kind (fun _ => rfl) h
  refine ⟨by rw [hkind]; exact hq.kind, fun p hp => ?_⟩
  rw [scope_congr_of_outline Scope.parent (fun _ => rfl) h q] at hp
  rw [hkind]
  exact hq.parent p hp

/-- Inside of a type a search depends on the superclasses, and in a root scope on the outline
only. -/
theorem answers_of_outline (links : Set ScopeId) (hg : g.Nested) (hinged : g.Hinged)
    (hsuper : ∀ q ∈ links, g'.superScope? q = g.superScope? q)
    (hlinks : ∀ q ∈ links, ∀ p, g.superScope? q = some p → p ∈ links) :
    Answers Eq g g' (fun p => g.Level p ∧ (p ∈ links ∨ (g.scope p).kind.isRoot = true))
      (fun p => p ∈ links ∨ (g.scope p).kind.isRoot = true) (fun _ => True) fun _ => True where
  search name ns :=
    { passes := .eq
      own := fun {p} _ viaSuper =>
        (congr_of_outline (·.searchOwn p name ns viaSuper) (by simp) h).symm
      superScope? := fun {p} hp => hp.elim (hsuper p) fun hroot => by
        rw [(superScope?_of_isRoot h hg hroot).1, (superScope?_of_isRoot h hg hroot).2]
      super := fun {p q} hp hq => .inl <| hp.elim (hlinks p · q hq) fun hroot => by
        rw [(superScope?_of_isRoot h hg hroot).1] at hq
        cases hq
      member := And.right
      sealed := fun _ => scope_congr_of_outline Scope.sealed (fun _ => rfl) h _
      parent := fun _ => scope_congr_of_outline Scope.parent (fun _ => rfl) h _
      delegate := fun _ => scope_congr_of_outline Scope.delegate (fun _ => rfl) h _
      outward := fun {p q} hp hq => by
        rcases hq with hparent | hdelegate
        · have hroot := hp.1.parent q hparent
          exact ⟨.of_isRoot hg hroot, .inr hroot⟩
        · -- only functions have delegates
          exact absurd (hinged p (by simp [hdelegate])) hp.1.kind }
  item {p} _ name ns := (congr_of_outline (·.itemIn p name ns) (by simp) h).symm
  onPath _ := trivial
  modules := scope_congr_of_outline Scope.modules (fun _ => rfl) h
  imported? x := congr_of_outline (fun g => (g.symbol x).imported?)
    (by simp [Symbol.imported?_outline]) h
  home x := congr_of_outline (fun g => (g.symbol x).scope.bind g.unitOf?)
    (fun g => by rw [symbol_outline, unitOf?_outline]; rfl) h
  pathRoots := congr_of_outline pathRoots pathRoots_outline h
  visible _ q skip := congr_of_outline (·.visibleImport? q _ skip) (by simp) h
  imports _ _ _ := trivial

/-- In a root scope a path means the same in all graphs with one outline. -/
theorem meaning_congr_of_isRoot (hg : g.Nested) (hinged : g.Hinged)
    (hq : (g.scope q).kind.isRoot = true) (path : QualName) :
    g'.meaning q path = g.meaning q path :=
  ((answers_of_outline h ∅ hg hinged nofun nofun).lookupPath ⟨.of_isRoot hg hq, .inr hq⟩
    (fun _ _ => trivial) .type).symm

/-- Inside of a type it depends on the superclasses as well. -/
theorem meaning_congr (links : Set ScopeId) (hg : g.Nested) (hinged : g.Hinged)
    (hsuper : ∀ q ∈ links, g'.superScope? q = g.superScope? q)
    (hlinks : ∀ q ∈ links, ∀ p, g.superScope? q = some p → p ∈ links) (hmem : q ∈ links)
    (hq : g.Level q) (path : QualName) : g'.meaning q path = g.meaning q path :=
  ((answers_of_outline h links hg hinged hsuper hlinks).lookupPath ⟨hq, .inl hmem⟩
    (fun _ _ => trivial) .type).symm

theorem Hinged.of_outline (hinged : g.Hinged) : g'.Hinged := by
  intro q hq
  rw [scope_congr_of_outline Scope.delegate (fun _ => rfl) h q] at hq
  rw [scope_congr_of_outline Scope.kind (fun _ => rfl) h q]
  exact hinged q hq

end Congr

/-- Inside of types on which two graphs agree a path means the same in both. -/
theorem Concur.meaning_eq {root : Option SymbolId} {types : Set SymbolId}
    (h : Concur root types g g') (hg : g.Nested) (hinged : g.Hinged) {t : SymbolId} (ht : t ∈ types)
    (hm : (g.symbol t).members? = some q) (hq : g.Level q) (path : QualName) :
    g'.meaning q path = g.meaning q path := by
  refine meaning_congr h.outline {p | ∃ u ∈ types, (g.symbol u).members? = some p} hg hinged
    ?_ ?_ ⟨t, ht, hm⟩ hq path
  · rintro p ⟨u, hu, hp⟩
    exact h.superScope u hu p hp
  · rintro p ⟨u, hu, hp⟩ r hr
    exact h.chain u hu p r hp hr

end Graph

end Scoping
