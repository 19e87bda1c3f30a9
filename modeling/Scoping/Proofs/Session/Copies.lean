import Scoping.Proofs.Session.Balance

/-!
# Copies of trait members in a session

A symbol remembers the node that declares it, but not the tree that the node belongs to. When a
member of a trait is copied, this node is looked for in the tree of the unit at hand. The copy is
faithful to whatever is found there (`Analysis.Copying.faithful`). This is the declaration of the
member if the member comes from the same unit; if it comes from an earlier unit, the copy is
faithful to the declaration exactly if the two trees happen to have the same subtree at this node
(`Analysis.Copying.faithful_iff`).
-/

namespace Scoping

/-- A symbol of a unit is a faithful copy of another symbol: it is of the same kind, and its subtree
is like the one that the other symbol has in the tree of its own unit. -/
structure Faithful (home : Tree) (source : Symbol) (t : Tree) (copy : Symbol) : Prop where
  kind : copy.kind = source.kind
  of_none : source.subtree? = none → copy.subtree? = none
  of_some : ∀ id, source.subtree? = some id →
    ∃ id', copy.subtree? = some id' ∧ home.Alike t id id'

namespace Analysis.Copying

variable {root s : Analysis} (k : Copying root s)

/-- The member as it was when it was copied. -/
def source : Symbol := k.before.graph.symbol k.member

theorem root_before : root.Advances k.before := k.root_offer.trans k.offer_before

variable (hroot : root.Intact)

include hroot

theorem copiedMember : Hierarchy.CopiedMember k.before k.after k.member k.copy :=
  Hierarchy.copiedMember_of_copyMember (k.root_before.intact hroot) k.run

theorem before_after : k.before.Advances k.after := (k.copiedMember hroot).advances

variable (hparam : (s.graph.symbol k.copy).flags.isParam = false)

include hparam

/-- The copy keeps its subtree. -/
theorem subtree?_copy :
    (s.graph.symbol k.copy).subtree? = (k.after.graph.symbol k.copy).subtree? := by
  have hlt := (k.copiedMember hroot).lt_size
  have hisParam := (k.after_end.graph.endures hlt).isParam
  exact k.after_end.graph.subtree? hlt (.inl (hisParam.symm.trans hparam))

/-- The subtree of the copy is like the one that was found at the node of the member. -/
theorem exists_alike {id : NodeId} (hid : k.source.subtree? = some id) :
    ∃ id', (s.graph.symbol k.copy).subtree? = some id' ∧ k.before.tree.Alike s.tree id id' := by
  obtain ⟨id', hid', halike⟩ := (k.copiedMember hroot).of_some id hid
  exact ⟨id', (k.subtree?_copy hroot hparam).trans hid', halike.extends_right k.after_end.tree⟩

/-- What was found at the node of the member is still there. -/
theorem alike_self {id : NodeId} (hid : k.source.subtree? = some id) :
    k.before.tree.Alike s.tree id id := by
  obtain ⟨id', -, halike⟩ := k.exists_alike hroot hparam hid
  have hbefore := (k.before_after hroot).tree.trans k.after_end.tree
  exact (halike.trans halike.symm).extends_right hbefore

/-- A copy is faithful to the declaration of the member, in whatever tree this is, exactly if the
tree at hand has the same subtree at the node of the declaration. -/
theorem faithful_iff (home : Tree) :
    Faithful home k.source s.tree (s.graph.symbol k.copy) ↔
      ∀ id, k.source.subtree? = some id → home.Alike s.tree id id := by
  have hendures := k.after_end.graph.endures (k.copiedMember hroot).lt_size
  constructor
  · intro h id hid
    obtain ⟨id', hid', halike⟩ := h.of_some id hid
    obtain ⟨top, htop, hcopied⟩ := k.exists_alike hroot hparam hid
    cases hid'.symm.trans htop
    exact (halike.trans hcopied.symm).trans (k.alike_self hroot hparam hid)
  · intro h
    refine ⟨hendures.kind.trans (k.copiedMember hroot).kind, fun hnone => ?_, fun id hid => ?_⟩
    · rw [k.subtree?_copy hroot hparam]
      exact (k.copiedMember hroot).of_none hnone
    · obtain ⟨id', hid', hcopied⟩ := k.exists_alike hroot hparam hid
      exact ⟨id', hid', ((h id hid).trans (k.alike_self hroot hparam hid).symm).trans hcopied⟩

/-- A copy is faithful to what the tree at hand has at the node of the member. -/
theorem faithful : Faithful s.tree k.source s.tree (s.graph.symbol k.copy) :=
  (k.faithful_iff hroot hparam s.tree).mpr fun _ hid =>
    (k.alike_self hroot hparam hid).symm.trans (k.alike_self hroot hparam hid)

end Analysis.Copying

namespace Session

open Analysis

variable {s s' : Session} {t t' : Tree} {r : UnitReport}

/-- All copies in a unit are made by copying members that a trait offers. A copy is faithful to what
the tree of this unit has at the node of the member, and so it is faithful to the declaration of the
member, in the tree of another unit perhaps, exactly if the two trees are alike there. No copy of a
member of this unit reads a node outside of the arena. -/
theorem copies_of_analyze {config : Config} {reducer : Reducer} {loader : Loader}
    (hs : Continues (startWith config reducer loader) s) (ht : t.validate = .ok ())
    (hadmits : s.Admits t) (h : s.analyze t = .ok (r, t', s')) :
    ∃ final : Analysis, final.tree = t' ∧ final.graph = s'.graph ∧
      (∀ c, s.graph.symbols.size ≤ c.index → (s'.graph.symbol c).flags.isParam = false →
        (s'.graph.symbol c).origin.isSome = true → ∃ k : Copying (s.opening t) final, k.copy = c) ∧
      (∀ k : Copying (s.opening t) final, (s'.graph.symbol k.copy).flags.isParam = false →
        Faithful t' k.source t' (s'.graph.symbol k.copy) ∧
        ∀ home, Faithful home k.source t' (s'.graph.symbol k.copy) ↔
          ∀ id, k.source.subtree? = some id → home.Alike t' id id) ∧
      ∀ a a' member trait name flags halt, (s.opening t).Advances a →
        s.graph.symbols.size ≤ member.index → (a.graph.symbol member).flags.isParam = false →
        Hierarchy.copyMember member trait name flags a = .error halt a' → halt = .exhausted := by
  have hbalanced := balanced_of_continues hs
  have hroot := (startable_opening hbalanced ht hadmits).toIntact
  obtain ⟨unit, final, declared, resolved, bound, hpassed, -, rfl, hgraph⟩ :=
    exists_passed_of_analyze hbalanced ht hadmits h
  rw [hgraph]
  refine ⟨final, rfl, rfl, fun c hc hparam horigin => ?_, fun k hparam => ⟨?_, fun home => ?_⟩,
    fun a a' member trait name flags halt ha hmember hparam hrun => ?_⟩
  · exact hpassed.unfolds.copied hc hparam horigin
  · exact k.faithful hroot hparam
  · exact k.faithful_iff hroot hparam home
  · have hlt := (ha.subtree_lt hmember).resolve_left (Bool.eq_false_iff.mp hparam)
    exact Hierarchy.eq_exhausted_of_copyMember (ha.intact hroot).closed hlt hrun

/-! ### A trait in the same unit and in an earlier one -/

/-- A trait with a function, and a class that uses it. -/
def traitWithHost : Tree :=
  { file := "a.phs"
    nodes := #[{ kind := .block [] },
      { kind := .fnDecl { name := some "m", mods := [.visible], body := some ⟨0⟩ } },
      { kind := .traitDecl { name := "T", mods := [.visible], members := [⟨1⟩] } },
      { kind := .classDecl { name := "H", uses := [{ path := .single "T" }] } },
      { kind := .unit [⟨2⟩, ⟨3⟩] }]
    root := ⟨4⟩ }

/-- The trait alone. -/
def traitAlone : Tree :=
  { file := "a.phs"
    nodes := #[{ kind := .block [] },
      { kind := .fnDecl { name := some "m", mods := [.visible], body := some ⟨0⟩ } },
      { kind := .traitDecl { name := "T", mods := [.visible], members := [⟨1⟩] } },
      { kind := .unit [⟨2⟩] }]
    root := ⟨3⟩ }

/-- The class alone. -/
def hostAlone : Tree :=
  { file := "b.phs"
    nodes := #[{ kind := .classDecl { name := "H", uses := [{ path := .single "T" }] } },
      { kind := .unit [⟨0⟩] }]
    root := ⟨1⟩ }

/-- In one unit, the class gets a faithful copy of the function of the trait. -/
theorem copies_traitWithHost :
    ∃ r t' s', (start {}).analyze traitWithHost = .ok (r, t', s') ∧ r.canGenerate = true ∧
      (s'.graph.symbol ⟨3⟩).origin = some ⟨0⟩ ∧ (s'.graph.symbol ⟨3⟩).subtree? = some ⟨6⟩ ∧
      ∃ final, ∃ k : Copying ((start {}).opening traitWithHost) final, k.copy = ⟨3⟩ ∧
        Faithful t' k.source t' (s'.graph.symbol ⟨3⟩) := by
  have hend : (start {}).yields traitWithHost (fun r _ s' => r.canGenerate && decide (
      (s'.graph.symbol ⟨3⟩).flags.isParam = false ∧ (s'.graph.symbol ⟨3⟩).origin = some ⟨0⟩ ∧
      (s'.graph.symbol ⟨3⟩).subtree? = some ⟨6⟩)) = true := by decide +kernel
  obtain ⟨r, t', s', h, hr⟩ := exists_of_yields hend
  rw [Bool.and_eq_true, decide_eq_true_iff] at hr
  obtain ⟨hr, hparam, horigin, hsubtree⟩ := hr
  have hs : Continues (startWith {} Reduce.node (.counting [])) (start {}) := .refl
  obtain ⟨final, -, -, hcopies, hfaithful, -⟩ :=
    copies_of_analyze hs rfl (admits_of_all (by decide)) h
  obtain ⟨k, hk⟩ := hcopies ⟨3⟩ (Nat.zero_le _) hparam (by rw [horigin]; rfl)
  refine ⟨r, t', s', h, hr, horigin, hsubtree, final, k, hk, ?_⟩
  rw [← hk] at hparam ⊢
  exact (hfaithful k hparam).1

/-- In a later unit, the class gets a copy of whatever its own unit has at the node of the function:
this is the unit itself. Nothing is reported. -/
theorem not_faithful_hostAlone :
    ∃ r₁ home s r t' s', (start {}).analyze traitAlone = .ok (r₁, home, s) ∧
      s.analyze hostAlone = .ok (r, t', s') ∧ r.canGenerate = true ∧
      (s.graph.symbol ⟨0⟩).kind = .trait ∧ ⟨1⟩ ∈ s.graph.memberIds ⟨0⟩ ∧
      (s'.graph.symbol ⟨3⟩).name = "m" ∧ (s'.graph.symbol ⟨3⟩).origin = some ⟨0⟩ ∧
      ¬ Faithful home (s.graph.symbol ⟨1⟩) t' (s'.graph.symbol ⟨3⟩) := by
  have hend : (start {}).yields traitAlone (fun _ home s => s.yields hostAlone fun r t' s' =>
      r.canGenerate && decide ((s.graph.symbol ⟨0⟩).kind = .trait ∧
        ⟨1⟩ ∈ s.graph.memberIds ⟨0⟩ ∧ (s'.graph.symbol ⟨3⟩).name = "m" ∧
        (s'.graph.symbol ⟨3⟩).origin = some ⟨0⟩ ∧ (s.graph.symbol ⟨1⟩).subtree? = some ⟨1⟩ ∧
        (s'.graph.symbol ⟨3⟩).subtree? = some ⟨3⟩ ∧
        (home.node? ⟨1⟩).map (·.kind.shape) ≠ (t'.node? ⟨3⟩).map (·.kind.shape))) = true := by
    decide +kernel
  obtain ⟨r₁, home, s, hfirst, hrest⟩ := exists_of_yields hend
  obtain ⟨r, t', s', hsecond, hr⟩ := exists_of_yields hrest
  rw [Bool.and_eq_true, decide_eq_true_iff] at hr
  obtain ⟨hr, htrait, hmember, hname, horigin, hsource, hcopy, hshape⟩ := hr
  refine ⟨r₁, home, s, r, t', s', hfirst, hsecond, hr, htrait, hmember, hname, horigin,
    fun hfaithful => hshape ?_⟩
  obtain ⟨id', hid', halike⟩ := hfaithful.of_some ⟨1⟩ hsource
  cases hcopy.symm.trans hid'
  cases halike with
  | node hnode hnode' _ hkinds => rw [hnode, hnode', Option.map_some, Option.map_some, hkinds]

end Session

end Scoping
