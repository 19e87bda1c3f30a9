import Scoping.Proofs.Change.Basic
import Scoping.Proofs.Graph.Residence

/-!
# Computations that make changes

A computation `Analysis.Obeys` from a state if what it does since an earlier state `s₀` is within a
relation `R`, such as `Analysis.Changes`. The earlier state is there because changes come in
portions of several operations: these are carried out one by one, which moves the current state
only, and where a portion is complete it is accounted for (`Obeys.settle`). What is not bound to a
relation is stated of the result and the final state.

`Analysis.Aim` says what may be relied on. With `fine`, the links of the tree lead somewhere; with
`home`, the subtrees of all symbols are in the tree of the unit at hand as well, which is so in the
first unit of a session, and then no computation halts for want of a node. With `noted`, the notes
on declarations can be relied on (`Analysis.Sorted`), which is so if the tree comes without notes.
-/

namespace Scoping

namespace Analysis

variable {α β : Type} {id : NodeId}

variable {aim : Aim} {types : Set SymbolId} {s₀ s s' s'' : Analysis}

/-- Notes speak of symbols that there are, and symbols live where they are entered. -/
structure Sorted (s : Analysis) : Prop where
  backed : s.Backed
  resident : s.graph.Resident

/-- A state from which the walks go on. -/
structure Proper (aim : Aim) (s : Analysis) : Prop where
  coherent : s.graph.Coherent
  intact : aim.fine → s.Intact
  cited : aim.home → ∀ id, s.graph.Cites id → id.index < s.tree.size
  sorted : aim.noted → s.Sorted

/-- The node is in the tree, as far as that matters. -/
def Known (aim : Aim) (s : Analysis) (id : NodeId) : Prop := aim.home → id.index < s.tree.size

/-- A relation `R` that stretches of an analysis belong to, and what is known of them. -/
class Track (fine : outParam Prop) (types : outParam (Set SymbolId))
    (Known : outParam (Analysis → Analysis → Prop)) (R : Analysis → Analysis → Prop) : Prop where
  refl : ∀ s, R s s
  trans : ∀ {s s' s''}, R s s' → R s' s'' → R s s''
  log : ∀ {s : Analysis} {log : Log}, s.log.Grows log → R s { s with log }
  known : ∀ {s s'}, R s s' → s.graph.Coherent → (fine → s.Intact) → Known s s'
  known_trans : ∀ {s s' s''}, Known s s' → Known s' s'' → Known s s''
  onward : ∀ {s s'}, Known s s' → Onward fine types s s'

instance (fine : Prop) (area : Set NodeId) :
    Track fine ∅ (Onward fine ∅) (Declares fine area) :=
  ⟨fun _ => .refl, .trans, .log, Declares.onward, .trans, fun h => h⟩

instance (aim : Aim) (types : Set SymbolId) :
    Track aim.fine types (Onward aim.fine types) (Changes aim types) :=
  ⟨fun _ => .refl, .trans, .log, Changes.onward, .trans, fun h => h⟩

namespace Onward

theorem proper (h : Onward aim.fine types s s') (hs : s.Proper aim) : s'.Proper aim := by
  refine ⟨h.after.1, h.after.2, fun hhome id ⟨x, hid⟩ => ?_, fun hnoted =>
    ⟨h.backed (aim.fine_of_noted hnoted) (hs.sorted hnoted).backed,
      h.steps.resident h.coherent (hs.sorted hnoted).resident⟩⟩
  have hfine := aim.fine_of_home hhome
  exact (h.hands hfine x id hid).elim (fun hcited => Nat.lt_of_lt_of_le (hs.cited hhome id hcited)
    (h.advances hfine).tree.size_le) fun hlt => hlt

theorem known {id : NodeId} (h : Onward aim.fine types s s') (hid : s.Known aim id) :
    s'.Known aim id := fun hhome =>
  Nat.lt_of_lt_of_le (hid hhome) (h.advances (aim.fine_of_home hhome)).tree.size_le

theorem site {fine : Prop} {p : ScopeId} (h : Onward fine ∅ s s') (hp : s.graph.Site p) :
    s'.graph.Site p :=
  hp.steps h.coherent h.steps

end Onward

theorem At.onward {fine : Prop} {kind : NodeKind} (h : Onward fine types s s') (hfine : fine)
    (hid : At id kind s) : At id kind s' :=
  lasting_at id kind (h.advances hfine) hid

theorem known_of_node? {node : Node} (hnode : s.tree.node? id = some node) : s.Known aim id :=
  fun _ => Tree.lt_size_of_node? hnode

namespace Proper

theorem child_lt (hs : s.Proper aim) {id c : NodeId} {node : Node}
    (hnode : s.tree.node? id = some node) (hc : c ∈ node.kind.children) (hfine : aim.fine) :
    c.index < s.tree.size :=
  (hs.intact hfine).closed hnode c hc

theorem known_child (hs : s.Proper aim) {id c : NodeId} {node : Node}
    (hnode : s.tree.node? id = some node) (hc : c ∈ node.kind.children) : s.Known aim c :=
  fun hhome => hs.child_lt hnode hc (aim.fine_of_home hhome)

end Proper

/-! ### Computations -/

/-- From the state `s` on, the computation keeps within `R`, counted from `s₀`, and `Q` holds of its
result. Where `home` is set, it halts only if its budget is exhausted. -/
structure Obeys (aim : Aim) (R : Analysis → Analysis → Prop) (s₀ s : Analysis) (x : AnalysisM α)
    (Q : α → Analysis → Prop := fun _ _ => True) : Prop where
  ok : ∀ {a s'}, s₀.Proper aim → x s = .ok a s' → R s₀ s' ∧ Q a s'
  error : ∀ {halt s'}, s₀.Proper aim → aim.home → x s = .error halt s' → halt = .exhausted

namespace Obeys

variable {R : Analysis → Analysis → Prop} {x : AnalysisM α} {P Q : α → Analysis → Prop}
  {k : α → AnalysisM β} {Q' : β → Analysis → Prop} {s₁ : Analysis} {f : Annotation → Annotation}
  {id : NodeId}

theorem of_proper (h : s₀.Proper aim → Obeys aim R s₀ s x Q) : Obeys aim R s₀ s x Q :=
  ⟨fun hs => (h hs).ok hs, fun hs => (h hs).error hs⟩

theorem imp (hx : Obeys aim R s₀ s x P) (h : ∀ a s', P a s' → Q a s') : Obeys aim R s₀ s x Q :=
  ⟨fun hs hrun => (hx.ok hs hrun).imp_right (h _ _), hx.error⟩

theorem anyway (hx : Obeys aim R s₀ s x P) : Obeys aim R s₀ s x fun _ _ => True :=
  hx.imp fun _ _ _ => trivial

theorem map (f : α → β) (hx : Obeys aim R s₀ s x P) (h : ∀ a s', P a s' → Q' (f a) s') :
    Obeys aim R s₀ s (f <$> x) Q' where
  ok hs hrun := by
    obtain ⟨a, hx', rfl⟩ := ok_map hrun
    exact (hx.ok hs hx').imp_right (h _ _)
  error hs hhome hrun := hx.error hs hhome (error_map hrun)

theorem exhausted : Obeys aim R s₀ s (throw .exhausted) Q where
  ok _ hrun := nomatch hrun
  error _ _ hrun := by
    cases hrun
    rfl

theorem ite {c : Prop} [Decidable c] {y : AnalysisM α} (hx : c → Obeys aim R s₀ s x Q)
    (hy : ¬ c → Obeys aim R s₀ s y Q) : Obeys aim R s₀ s (if c then x else y) Q := by
  split
  next hc => exact hx hc
  next hc => exact hy hc

/-- The computation is done. -/
theorem done {a : α} (hrun : x s = .ok a s₁) (hR : s₀.Proper aim → R s₀ s₁) (hQ : Q a s₁) :
    Obeys aim R s₀ s x Q where
  ok hs h := by
    rw [hrun] at h
    cases h
    exact ⟨hR hs, hQ⟩
  error _ _ h := by
    rw [hrun] at h
    cases h

/-- An operation is carried out. -/
theorem next {a : α} (hrun : x s = .ok a s₁) (hk : Obeys aim R s₀ s₁ (k a) Q') :
    Obeys aim R s₀ s (x >>= k) Q' where
  ok hs h := by
    obtain ⟨b, s₂, hx, h⟩ := ok_bind h
    rw [hrun] at hx
    cases hx
    exact hk.ok hs h
  error hs hhome h := by
    rcases error_bind h with h | ⟨b, s₂, hx, h⟩
    · rw [hrun] at h
      cases h
    · rw [hrun] at hx
      cases hx
      exact hk.error hs hhome h

/-- A computation is taken as a whole. -/
theorem run_bind (hok : ∀ a s', s₀.Proper aim → x s = .ok a s' → Obeys aim R s₀ s' (k a) Q')
    (herror : ∀ halt s', s₀.Proper aim → aim.home → x s = .error halt s' → halt = .exhausted) :
    Obeys aim R s₀ s (x >>= k) Q' where
  ok hs h := by
    obtain ⟨a, s₁, hrun, hrest⟩ := ok_bind h
    exact (hok a s₁ hs hrun).ok hs hrest
  error hs hhome h := by
    rcases error_bind h with h | ⟨a, s₁, hrun, hrest⟩
    · exact herror _ _ hs hhome h
    · exact (hok a s₁ hs hrun).error hs hhome hrest

theorem get_bind {f : Analysis → AnalysisM α} (h : Obeys aim R s₀ s (f s) Q) :
    Obeys aim R s₀ s (get >>= f) Q := ⟨h.ok, h.error⟩

theorem currentGraph_bind {f : Graph → AnalysisM α} (h : Obeys aim R s₀ s (f s.graph) Q) :
    Obeys aim R s₀ s (currentGraph >>= f) Q := ⟨h.ok, h.error⟩

theorem symbol_bind {x : SymbolId} {f : Symbol → AnalysisM α}
    (h : Obeys aim R s₀ s (f (s.graph.symbol x)) Q) :
    Obeys aim R s₀ s (symbol x >>= f) Q := ⟨h.ok, h.error⟩

theorem onGraph_bind {f : Graph → α × Graph}
    (h : Obeys aim R s₀ { s with graph := (f s.graph).2 } (k (f s.graph).1) Q') :
    Obeys aim R s₀ s (onGraph f >>= k) Q' := ⟨h.ok, h.error⟩

theorem modifyGraph_bind {f : Graph → Graph} {k : Unit → AnalysisM β}
    (h : Obeys aim R s₀ { s with graph := f s.graph } (k ()) Q') :
    Obeys aim R s₀ s (modifyGraph f >>= k) Q' := ⟨h.ok, h.error⟩

/-! ### The tree -/

theorem run_read {node : Node} (h : s.tree.node? id = some node) :
    Analysis.read id s = .ok node s := by
  have hget : ∀ f : Analysis → AnalysisM Node, (MonadState.get >>= f) s = f s s := fun _ => rfl
  simp only [Analysis.read, hget, h]
  rfl

theorem read_bind (hid : s.Known aim id) {f : Node → AnalysisM α}
    (hf : ∀ node, s.tree.node? id = some node → Obeys aim R s₀ s (f node) Q) :
    Obeys aim R s₀ s (Analysis.read id >>= f) Q where
  ok hs h := by
    obtain ⟨node, s₁, hread, h⟩ := ok_bind h
    obtain ⟨hnode, rfl⟩ := ok_read hread
    exact (hf node hnode).ok hs h
  error hs hhome h := by
    obtain ⟨node, hnode⟩ := Tree.exists_node? (hid hhome)
    exact (next (run_read hnode) (hf node hnode)).error hs hhome h

theorem annotate_bind (hid : s.Known aim id) {k : Unit → AnalysisM β}
    (hk : ∀ node, s.tree.node? id = some node →
      Obeys aim R s₀ { s with tree := s.tree.annotate id f } (k ()) Q') :
    Obeys aim R s₀ s (Analysis.annotate id f >>= k) Q' := by
  rw [Analysis.annotate, bind_assoc]
  exact read_bind hid fun node hnode => ⟨(hk node hnode).ok, (hk node hnode).error⟩

theorem annotate (hid : s.Known aim id) {Q : Unit → Analysis → Prop}
    (hk : ∀ node, s.tree.node? id = some node →
      (s₀.Proper aim → R s₀ { s with tree := s.tree.annotate id f }) ∧
        Q () { s with tree := s.tree.annotate id f }) :
    Obeys aim R s₀ s (Analysis.annotate id f) Q :=
  read_bind hid fun node hnode => .done rfl (hk node hnode).1 (hk node hnode).2

theorem onTree {f : Tree → Except Halt (α × Tree)}
    (hok : s₀.Proper aim → ∀ a tree, f s.tree = .ok (a, tree) → R s₀ { s with tree } ∧
      Q a { s with tree })
    (herror : s₀.Proper aim → aim.home → ∀ halt, f s.tree = .error halt → halt = .exhausted) :
    Obeys aim R s₀ s (Analysis.onTree f) Q where
  ok hs h := by
    obtain ⟨tree, hf, rfl⟩ := ok_onTree h
    exact hok hs _ _ hf
  error hs hhome h := herror hs hhome _ (error_onTree h)

/-! ### Stretches -/

variable {K : Analysis → Analysis → Prop} [htrack : Track aim.fine types K R]

include htrack

theorem known_refl (hs : s.Proper aim) : K s s :=
  Track.known (Track.refl (R := R) s) hs.coherent hs.intact

/-- The operations since `s₀` are accounted for. -/
theorem settle (hR : s₀.Proper aim → R s₀ s)
    (hx : s₀.Proper aim → K s₀ s → Obeys aim R s s x Q) : Obeys aim R s₀ s x Q := by
  refine of_proper fun hs => ?_
  have hknown := Track.known (hR hs) hs.coherent hs.intact
  have hproper := (Track.onward R hknown).proper hs
  have hx := hx hs hknown
  exact ⟨fun _ h => (hx.ok hproper h).imp_left (Track.trans (hR hs)), fun _ => hx.error hproper⟩

theorem pure {a : α} (hQ : Q a s) : Obeys aim R s s (pure a) Q :=
  done rfl (fun _ => Track.refl s) hQ

/-- What follows is counted from where the computation began. -/
theorem bind_since (hx : Obeys aim R s₀ s x P)
    (hk : ∀ a s', R s₀ s' → K s₀ s' → P a s' → Obeys aim R s₀ s' (k a) Q') :
    Obeys aim R s₀ s (x >>= k) Q' where
  ok hs h := by
    obtain ⟨a, s₁, hrun, hrest⟩ := ok_bind h
    obtain ⟨hfirst, hp⟩ := hx.ok hs hrun
    exact (hk a s₁ hfirst (Track.known hfirst hs.coherent hs.intact) hp).ok hs hrest
  error hs hhome h := by
    rcases error_bind h with h | ⟨a, s₁, hrun, hrest⟩
    · exact hx.error hs hhome h
    · obtain ⟨hfirst, hp⟩ := hx.ok hs hrun
      exact (hk a s₁ hfirst (Track.known hfirst hs.coherent hs.intact) hp).error hs hhome hrest

theorem bind (hx : Obeys aim R s s x P)
    (hk : ∀ a s', K s s' → P a s' → Obeys aim R s' s' (k a) Q') :
    Obeys aim R s s (x >>= k) Q' :=
  hx.bind_since fun a s' hR h hp => settle (fun _ => hR) fun _ _ => hk a s' h hp

/-- What is known of the whole stretch is known of the final state. -/
theorem keep (hx : Obeys aim R s s x Q) :
    Obeys aim R s s x fun a s' => K s s' ∧ Q a s' :=
  ⟨fun hs h => (hx.ok hs h).imp_right fun hq =>
    ⟨Track.known (hx.ok hs h).1 hs.coherent hs.intact, hq⟩, hx.error⟩

/-- A computation that may be left out before the next one. -/
theorem optionally {c : Prop} [Decidable c] {x : AnalysisM Unit} {f : Unit → AnalysisM α}
    (hx : Obeys aim R s s x) (hf : ∀ s', K s s' → Obeys aim R s' s' (f ()) Q) :
    Obeys aim R s s (if c then x >>= f else f ()) Q :=
  .ite (fun _ => hx.bind fun _ s' h _ => hf s' h)
    fun _ => of_proper fun hs => hf s (known_refl (R := R) hs)

/-- Each round attains something for its item, which later rounds leave alone. -/
theorem forM {f : α → AnalysisM Unit} {F : α → Analysis → Prop} {items : List α}
    (hf : ∀ a ∈ items, ∀ s', K s s' → Obeys aim R s' s' (f a) fun _ => F a)
    (hF : ∀ a ∈ items, ∀ {s' s''}, K s s' → K s' s'' → F a s' → F a s'') :
    Obeys aim R s s (items.forM f) fun _ s' => ∀ a ∈ items, F a s' := by
  refine of_proper fun hs => ?_
  have hrest : ∀ rest ⊆ items, ∀ s', K s s' →
      Obeys aim R s' s' (rest.forM f) fun _ s'' => ∀ a ∈ rest, F a s'' := by
    intro rest
    induction rest with
    | nil => exact fun _ _ _ => .pure nofun
    | cons a rest ih =>
      intro hsub s' h
      obtain ⟨ha, hsub⟩ := List.cons_subset.mp hsub
      refine (hf a ha s' h).bind fun _ s₁ h₁ hfirst => ?_
      have hknown := Track.known_trans R h h₁
      refine (ih hsub s₁ hknown).keep.imp fun _ s₂ ⟨h₂, hlast⟩ => ?_
      exact List.forall_mem_cons.mpr ⟨hF a ha hknown h₂ hfirst, hlast⟩
  exact hrest items (List.Subset.refl _) s (known_refl (R := R) hs)

theorem forM_since {f : α → AnalysisM Unit} {items : List α}
    (hf : ∀ a ∈ items, ∀ s', R s s' → K s s' → Obeys aim R s s' (f a)) :
    Obeys aim R s s (items.forM f) := by
  have hrest : ∀ rest ⊆ items, ∀ s', R s s' → K s s' → Obeys aim R s s' (rest.forM f) := by
    intro rest
    induction rest with
    | nil => exact fun _ _ hR _ => .done rfl (fun _ => hR) trivial
    | cons a rest ih =>
      intro hsub s' hR h
      obtain ⟨ha, hsub⟩ := List.cons_subset.mp hsub
      exact (hf a ha s' hR h).bind_since fun _ s₁ hR₁ h₁ _ => ih hsub s₁ hR₁ h₁
  exact of_proper fun hs =>
    hrest items (List.Subset.refl _) s (Track.refl s) (known_refl (R := R) hs)

theorem forM_ {f : α → AnalysisM Unit} {items : List α}
    (hf : ∀ a ∈ items, ∀ s', K s s' → Obeys aim R s' s' (f a)) :
    Obeys aim R s s (items.forM f) :=
  (forM (F := fun _ _ => True) hf fun _ _ _ _ _ _ h => h).anyway

/-! ### The log -/

theorem modifyLog {f : Log → Log} {Q : Unit → Analysis → Prop} (hlog : s.log.Grows (f s.log))
    (hQ : Q () { s with log := f s.log }) : Obeys aim R s s (modifyLog f) Q :=
  done rfl (fun _ => Track.log hlog) hQ

/-- After a problem has been reported, the log is not clean. -/
theorem report (span : Span) (p : Problem) :
    Obeys aim R s s (report span p) fun _ s' => ¬ s'.log.Clean :=
  modifyLog .push (Log.not_clean_problem _ _ _)

theorem reportWithPrevious (span : Span) (p : Problem) (previous : Span) (note : String) :
    Obeys aim R s s (reportWithPrevious span p previous note) :=
  modifyLog .push trivial

end Obeys

/-! ### Widening -/

/-- A computation that keeps within one relation keeps within a wider one. -/
theorem Obeys.widen {R R' : Analysis → Analysis → Prop} {x : AnalysisM α}
    {Q : α → Analysis → Prop} (hR : ∀ {s'}, R s s' → R' s s') (hx : Obeys aim R s s x Q) :
    Obeys aim R' s s x Q :=
  ⟨fun hs h => (hx.ok hs h).imp_left hR, hx.error⟩

end Analysis

end Scoping
