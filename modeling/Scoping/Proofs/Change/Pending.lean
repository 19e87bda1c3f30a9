import Scoping.Proofs.Change.Remark

/-!
# Engine constants that are put off

A node becomes pending only when it is also noted for later, and what is noted for later is taken up
at the end: every pending node is on the list (`Analysis.Turn.listed`), and binding all that is on
the list leaves no node pending (`Analysis.unawaited_of_bindLate`). Besides, a pending node can only
become bound to a text, and stays so (`Analysis.Turns.decided`).
-/

namespace Scoping

namespace Analysis

variable {aim : Aim} {s s' : Analysis} {id : NodeId}

/-- The node is pending. -/
def Awaits (s : Analysis) (id : NodeId) : Prop := s.tree.binding? id = some .pending

/-- The node is bound to a text. -/
def Texted (s : Analysis) (id : NodeId) : Prop :=
  ∃ text, s.tree.binding? id = some (.bound (.str text))

/-! ### Steps -/

/-- One step of an analysis, as far as bindings and what is put off are concerned. -/
inductive Turn : Analysis → Analysis → Prop where
  | keep {s s' : Analysis} : s.tree.Extends s'.tree →
    (∀ id, s'.tree.binding? id = s.tree.binding? id) → s'.late = s.late → Turn s s'
  | bind {s : Analysis} {id : NodeId} {which : EngineConst} (text : String) :
    At id (.engineConst which) s →
    Turn s
      { s with
        tree := s.tree.annotate id fun note => { note with binding := some (.bound (.str text)) } }
  | defer {s : Analysis} (late : LateBinding) {which : EngineConst} :
    At late.node (.engineConst which) s →
    Turn s
      { s with
        tree := s.tree.annotate late.node fun note => { note with binding := some .pending }
        late := s.late ++ [late] }

/-- Any number of steps, between which the list of what is put off may be emptied. -/
def Turns : Analysis → Analysis → Prop :=
  Relation.ReflTransGen fun s s' => s.Turn s' ∨ s' = { s with late := [] }

theorem Turns.of_turn (h : Relation.ReflTransGen Turn s s') : s.Turns s' :=
  h.lift (fun s => s) fun _ _ hturn => .inl hturn

theorem Remark.turn (h : Remark aim s s') : s.Turn s' := by
  cases h with
  | keep htree hbinding _ hledger => exact .keep htree hbinding (congrArg Prod.fst hledger)
  | constant text hid => exact .bind text hid
  | defer late hlate => exact .defer late hlate
  | require =>
    exact .keep (extends_answered _) (Tree.noted?_annotate_of_eq fun _ _ => rfl) rfl

/-! ### Pending nodes are on the list -/

theorem Turn.at {kind : NodeKind} (h : s.Turn s') (hid : At id kind s) : At id kind s' := by
  have hextends : s.tree.Extends s'.tree := by
    cases h with
    | keep h => exact h
    | bind | defer =>
      dsimp only
      exact .annotate _ _
  obtain ⟨node, hnode, rfl⟩ := hid
  obtain ⟨node', hnode', hkind, -⟩ := hextends.node? hnode
  exact ⟨node', hnode', hkind⟩

/-- Only engine constants are put off. -/
def Deferring (s : Analysis) : Prop := ∀ late ∈ s.late, ∃ which, At late.node (.engineConst which) s

theorem Turn.deferring (h : s.Turn s') (hs : s.Deferring) : s'.Deferring := by
  intro late hmem
  have hold : ∀ {late}, late ∈ s.late → ∃ which, At late.node (.engineConst which) s' :=
    fun hmem => (hs _ hmem).imp fun _ => h.at
  cases h with
  | keep _ _ hlate => exact hold (hlate ▸ hmem)
  | bind => exact hold hmem
  | defer other hother =>
    rcases List.mem_append.mp hmem with hmem | hmem
    · exact hold hmem
    · obtain rfl := List.mem_singleton.mp hmem
      exact ⟨_, Turn.at (.defer late hother) hother⟩

/-- Every pending node is on the list of what is put off. -/
def Listed (s : Analysis) : Prop := ∀ id, s.Awaits id → ∃ late ∈ s.late, late.node = id

theorem Turn.listed (h : s.Turn s') (hs : s.Listed) : s'.Listed := by
  intro id hid
  change Tree.noted? _ Annotation.binding id = _ at hid
  cases h with
  | keep _ hbinding hlate =>
    rw [hlate]
    exact hs id ((hbinding id).symm.trans hid)
  | @bind q which text hq =>
    by_cases hne : id = q
    · obtain ⟨node, hnode, -⟩ := hq
      rw [hne, Tree.noted?_annotate_self hnode] at hid
      cases hid
    · rw [Tree.noted?_annotate_of_ne hne] at hid
      exact hs id hid
  | defer late =>
    by_cases hne : id = late.node
    · exact ⟨late, List.mem_append_right _ (List.mem_singleton_self late), hne.symm⟩
    · rw [Tree.noted?_annotate_of_ne hne] at hid
      obtain ⟨other, hmem, hnode⟩ := hs id hid
      exact ⟨other, List.mem_append_left _ hmem, hnode⟩

theorem turn_induction {P : Analysis → Prop} (hstep : ∀ {s s'}, Turn s s' → P s → P s')
    (h : Remarks aim s s') (hs : P s) : P s' :=
  Remarks.induct h (fun hremark => hstep hremark.turn) hs

/-! ### Pending nodes become bound to a text -/

/-- The node is pending or bound to a text. -/
def Decided (s : Analysis) (id : NodeId) : Prop := s.Awaits id ∨ s.Texted id

theorem Turn.decided (h : s.Turn s') (hid : s.Decided id) : s'.Decided id := by
  have hcongr : s'.tree.binding? id = s.tree.binding? id → s'.Decided id := fun heq => by
    rwa [Decided, Awaits, Texted, heq]
  cases h with
  | keep _ hbinding => exact hcongr (hbinding id)
  | @bind q which text hq =>
    by_cases hne : id = q
    · obtain ⟨node, hnode, -⟩ := hq
      subst hne
      exact .inr ⟨text, Tree.noted?_annotate_self hnode⟩
    · exact hcongr (Tree.noted?_annotate_of_ne hne)
  | defer late hlate =>
    by_cases hne : id = late.node
    · obtain ⟨node, hnode, -⟩ := hlate
      subst hne
      exact .inl (Tree.noted?_annotate_self hnode)
    · exact hcongr (Tree.noted?_annotate_of_ne hne)

theorem Turns.decided (h : s.Turns s') (hid : s.Decided id) : s'.Decided id := by
  induction h with
  | refl => exact hid
  | tail _ hlast ih =>
    rcases hlast with hturn | rfl
    · exact hturn.decided ih
    · exact ih

/-! ### Taking up what was put off -/

/-- An engine constant that is taken up is bound to a text. -/
theorem bindLater_ok {late : LateBinding} {which : EngineConst} {u : Unit}
    (hlate : At late.node (.engineConst which) s) (h : Reference.bindLater late s = .ok u s') :
    s.Turn s' ∧ ∀ id, s'.Awaits id → s.Awaits id ∧ id ≠ late.node := by
  -- whatever the text is
  have hbind : ∀ {text : String}, Reference.bindConstant late.node text s = .ok u s' →
      s.Turn s' ∧ ∀ id, s'.Awaits id → s.Awaits id ∧ id ≠ late.node := by
    intro text h
    obtain ⟨node, hnode, rfl⟩ := ok_annotate h
    refine ⟨.bind text hlate, fun id hid => ?_⟩
    change Tree.noted? _ Annotation.binding id = _ at hid
    by_cases hne : id = late.node
    · rw [hne, Tree.noted?_annotate_self hnode] at hid
      cases hid
    · rw [Tree.noted?_annotate_of_ne hne] at hid
      exact ⟨hid, hne⟩
  obtain ⟨node, hnode, hkind⟩ := hlate
  obtain ⟨node', s₁, hread, h⟩ := ok_bind h
  obtain ⟨hnode', rfl⟩ := ok_read hread
  cases hnode.symm.trans hnode'
  rw [hkind] at h
  obtain ⟨g, s₁, hg, h⟩ := ok_bind h
  obtain ⟨rfl, rfl⟩ := ok_currentGraph hg
  cases hvalue : which.value s.graph (some late.host) (some late.function)
      ((s.graph.symbol late.host).scope.getD Graph.global) with
  | ok text | error text =>
    simp only [hvalue] at h
    exact hbind h

/-- If all pending nodes are on a list of engine constants, none is left once they are bound. -/
theorem unawaited_of_forM : ∀ {list : List LateBinding} {s : Analysis} {u : Unit},
    (∀ late ∈ list, ∃ which, At late.node (.engineConst which) s) →
    (∀ id, s.Awaits id → ∃ late ∈ list, late.node = id) →
    list.forM Reference.bindLater s = .ok u s' → ∀ id, ¬ s'.Awaits id
  | [], _, _, _, hlisted, h, id, hid => by
    obtain ⟨-, rfl⟩ := ok_pure h
    obtain ⟨late, hmem, -⟩ := hlisted id hid
    cases hmem
  | late :: rest, s, _, hlist, hlisted, h, id, hid => by
    obtain ⟨_, s₁, hfirst, h⟩ := ok_bind h
    obtain ⟨which, hlate⟩ := hlist late List.mem_cons_self
    obtain ⟨hturn, hleft⟩ := bindLater_ok hlate hfirst
    refine unawaited_of_forM (fun other hother => ?_) (fun other hother => ?_) h id hid
    · exact (hlist other (List.mem_cons_of_mem _ hother)).imp fun _ => hturn.at
    · obtain ⟨hawaits, hne⟩ := hleft other hother
      obtain ⟨entry, hmem, rfl⟩ := hlisted other hawaits
      rcases List.mem_cons.mp hmem with rfl | hmem
      · exact absurd rfl hne
      · exact ⟨entry, hmem, rfl⟩

/-! ### Whole passes -/

section

variable {env : Environment} {root declared resolved bound : Analysis} {unit : ScopeId}
  (h : Passed env root s unit declared resolved bound) (hroot : root.Startable env)

include h hroot

/-- The states after the second walk and after the last pass are on the way. -/
theorem Passed.turns :
    Relation.ReflTransGen Turn root resolved ∧ resolved.Turns s := by
  obtain ⟨hbefore, hafter⟩ := h.remarks hroot
  exact ⟨hbefore.lift (fun s => s) fun _ _ => Remark.turn,
    .head (.inr rfl) (hafter.lift (fun s => s) fun _ _ hremark => .inl hremark.turn)⟩

/-- All that was put off in a unit is taken up before the unit ends. -/
theorem Passed.unawaited (hlate : root.late = [])
    (hfresh : ∀ id, root.tree.binding? id ≠ some .pending) (id : NodeId) : ¬ s.Awaits id := by
  have hbefore := (h.remarks hroot).1
  have hlisted : resolved.Listed := turn_induction Turn.listed hbefore
    fun id hid => absurd hid (hfresh id)
  have hdeferring : resolved.Deferring := turn_induction Turn.deferring hbefore
    fun late hmem => by
      rw [hlate] at hmem
      cases hmem
  obtain ⟨log, -, hrun⟩ := run_publish unit bound
  have hpublish := h.publish
  rw [hrun] at hpublish
  cases hpublish
  have hbinds := h.late
  rw [Reference.bindLate_eq] at hbinds
  exact unawaited_of_forM (s := { resolved with late := [] }) hdeferring hlisted hbinds id

end

end Analysis

end Scoping
