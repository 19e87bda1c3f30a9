import Scoping.Proofs.Change.Place

/-!
# The course of the second walk

The second walk over a unit makes changes, notes on nodes what they refer to, binds engine constants
and hands requests to the loader: this is `Analysis.Course`. It enters and leaves scopes, and
withholds the members of a class while the arguments of a call of the parent constructor are
visited. Both come in pairs around a part of the walk (`Analysis.Bracket`), so that the walk as a
whole leaves every scope as active as it was, never leaves a scope that it did not enter, and gives
all members back.
-/

namespace Scoping

namespace Analysis

variable {fine : Prop} {aim : Aim} {given : Tree} {root s s' s'' s₁ s₂ : Analysis} {id : NodeId}

/-! ### Brackets -/

/-- Only the marks of scopes change, and the log. -/
structure Marks (s s' : Analysis) : Prop where
  tree : s'.tree = s.tree
  symbol : ∀ x, s'.graph.symbol x = s.graph.symbol x
  size_eq : s'.graph.symbols.size = s.graph.symbols.size
  ledger : s'.ledger = s.ledger
  advances : s.Advances s'
  steps : Graph.Steps ∅ s.graph s'.graph
  edits : Graph.Edits ∅ s.graph s'.graph
  reports : s.log.diagnostics ⊆ s'.log.diagnostics

theorem Marks.modifyScope {q : ScopeId} {f : Scope → Scope}
    (hstep : s.graph.AmendsScope q (s.graph.scope q) (f (s.graph.scope q)))
    (hedit : Graph.Edit ∅ s.graph (s.graph.modifyScope q f)) :
    s.Marks { s with graph := s.graph.modifyScope q f } where
  tree := rfl
  symbol _ := rfl
  size_eq := rfl
  ledger := rfl
  advances := .of_graph (.of_edits (.single hedit) fun _ _ => rfl) subtree_lt_blank
  steps := .single (.amendScope hstep)
  edits := .single hedit
  reports := List.Subset.refl _

theorem Marks.log {log : Log} (hclean : log.Clean → s.log.Clean)
    (hreports : s.log.diagnostics ⊆ log.diagnostics) : s.Marks { s with log } :=
  ⟨rfl, fun _ => rfl, rfl, rfl, .of_log rfl rfl hclean, .refl, .refl, hreports⟩

theorem Marks.abort (span : Span) (message : String) :
    s.Marks { s with log := s.log.abort span message } :=
  .log Log.clean_of_push (List.subset_append_left _ _)

theorem Marks.none : s.Marks s := .log (fun h => h) (List.Subset.refl _)

theorem Marks.backed (h : s.Marks s') (hs : s.Backed) : s'.Backed :=
  hs.advances h.advances (fun _ => by rw [h.tree]) fun _ => by rw [h.tree]

theorem Marks.firm (h : s.Marks s') (hs : s.graph.Coherent) : s.Firm s' where
  toAdvances := h.advances
  frames hnode _ hx := by rw [h.tree, Tree.noted?_of_node? hnode, hx]
  lodges := h.steps.lodges hs

theorem Marks.settles (h : s.Marks s') : s.graph.Settles s'.graph :=
  h.edits.settles nofun

theorem Marks.stands {ctx : Reference.Context} (h : s.Marks s') (hs : s.graph.Coherent)
    (hid : s.Stands aim ctx id) : s'.Stands aim ctx id :=
  ⟨fun hhome => h.tree ▸ hid.1 hhome, fun hnoted => (hid.2 hnoted).firm (h.firm hs)⟩

theorem Marks.suited (h : s.Marks s') (hs : s.graph.Coherent) (hsuited : s.Suited aim given) :
    s'.Suited aim given :=
  hsuited.spares (h.firm hs) h.settles (.of_noted fun _ => by rw [h.tree])

theorem Marks.proper (h : s.Marks s') (hs : s.Proper aim) : s'.Proper aim where
  coherent := hs.coherent.steps h.steps
  intact hfine := h.advances.intact (hs.intact hfine)
  cited hhome id := by
    rintro ⟨x, hx⟩
    rw [h.symbol] at hx
    rw [h.tree]
    exact hs.cited hhome id ⟨x, hx⟩
  sorted hnoted := ⟨h.backed (hs.sorted hnoted).backed,
    h.steps.resident hs.coherent (hs.sorted hnoted).resident⟩

theorem Marks.ready {env : Environment} {busy : Set SymbolId} (h : s.Marks s')
    (hs : Ready env busy s.graph) : Ready env busy s'.graph := by
  refine ⟨fun x hx => ?_, fun r hr => ?_⟩ <;> rw [h.symbol]
  · exact hs.resolving x hx
  · exact hs.root r hr

/-- The marks made after a part of an analysis, from `s₂` to `s'`, take back those made before it,
from `s` to `s₁`. -/
structure Bracket (s s₁ s₂ s' : Analysis) : Prop where
  active : (∀ q, (s₂.graph.scope q).active = (s₁.graph.scope q).active) →
    ∀ q, (s'.graph.scope q).active = (s.graph.scope q).active
  restricted : ∀ q, (s'.graph.scope q).isRestricted = true →
    (s₂.graph.scope q).isRestricted = true ∧
      ((s₁.graph.scope q).isRestricted = true → (s.graph.scope q).isRestricted = true)
  aborted : (∀ q, (s₂.graph.scope q).active = (s₁.graph.scope q).active) →
    s₂.log.aborted = s₁.log.aborted → s'.log.aborted = s.log.aborted

theorem Bracket.unfolds (h : Bracket s s₁ s₂ s') (hfirst : s.Marks s₁) (hlast : s₂.Marks s')
    (hunfolds : Unfolds root s₁ s₂) : Unfolds root s s' :=
  .within hfirst.advances hfirst.size_eq hunfolds hlast.advances hlast.symbol
    ⟨h.active hunfolds.active, fun hq =>
      (h.restricted _ hq).2 (hunfolds.restricted (h.restricted _ hq).1)⟩
    (h.aborted hunfolds.active hunfolds.aborted)

/-! ### The course -/

/-- A request of a node has been handed to the loader and the node noted with the answer. -/
def answered (s : Analysis) (id : NodeId) (r : ImportRequest) (value : Value) : Analysis :=
  let handle := (s.loader.register r).1
  { s with
    tree := s.tree.annotate id fun note => { note with handle := some handle, value := some value }
    loader := (s.loader.register r).2
    requests := Import.note s.requests r
    inquiries := s.inquiries ++ [⟨id, r, handle⟩] }

theorem extends_answered (s : Analysis) {r : ImportRequest} {value : Value} :
    s.tree.Extends (s.answered id r value).tree := by
  dsimp only [answered]
  exact .annotate id _

/-- What the second walk does. It resolves no type again while it is being resolved. -/
inductive Course (aim : Aim) : Analysis → Analysis → Prop where
  | refl {s : Analysis} : Course aim s s
  | trans {s s' s'' : Analysis} : Course aim s s' → Course aim s' s'' → Course aim s s''
  | changes {s s' : Analysis} : Changes aim s.graph.stalledᶜ s s' → Course aim s s'
  | refer {s : Analysis} {id : NodeId} {log : Log} (kind : NodeKind) (x : SymbolId) :
    s.log.Grows log →
    (aim.fine → kind.isReference = true ∧ At id kind s ∧ kind.Suits aim { s with log } id x) →
    Course aim s
      { s with tree := s.tree.annotate id fun note => { note with symbol := some x }, log }
  | constant {s : Analysis} {id : NodeId} {which : EngineConst} (text : String) :
    At id (.engineConst which) s →
    Course aim s
      { s with
        tree := s.tree.annotate id fun note => { note with binding := some (.bound (.str text)) } }
  | require {s : Analysis} {id path : NodeId} {r : ImportRequest} {value : Value} {raw : String} :
    (aim.fine → At id (.require path r.foreign) s) → value.str? = some raw →
    r.path = Import.resolve aim.env.config (UnixPath.mk s.tree.file).directory r.foreign raw →
    Course aim s (s.answered id r value)
  | within {s s₁ s₂ s' : Analysis} : s.Marks s₁ → Course aim s₁ s₂ → s₂.Marks s' →
    (aim.fine → Bracket s s₁ s₂ s') → Course aim s s'

theorem Onward.within (hs : s.graph.Coherent) (hintact : fine → s.Intact) (hfirst : s.Marks s₁)
    (h : Onward fine ∅ᶜ s₁ s₂) (hlast : s₂.Marks s') (hbracket : fine → Bracket s s₁ s₂ s') :
    Onward fine ∅ᶜ s s' where
  coherent := hs
  intact := hintact
  steps := (hfirst.steps.mono (Set.empty_subset _)).trans
    (h.steps.trans (hlast.steps.mono (Set.empty_subset _)))
  edits := (hfirst.edits.mono (Set.empty_subset _)).trans
    (h.edits.trans (hlast.edits.mono (Set.empty_subset _)))
  unfolds hfine root hroot :=
    (hbracket hfine).unfolds hfirst hlast (h.unfolds hfine root (hroot.next hfirst.advances))
  hands hfine x id hid := by
    rw [hlast.symbol] at hid
    rw [hlast.tree]
    exact (h.hands hfine x id hid).imp_left fun ⟨y, hy⟩ => ⟨y, hfirst.symbol y ▸ hy⟩
  reports := List.Subset.trans hfirst.reports (List.Subset.trans h.reports hlast.reports)
  backed hfine hbacked := hlast.backed (h.backed hfine (hfirst.backed hbacked))

/-- A reference is bound, and perhaps something reported. -/
theorem onward_refer {log : Log} {kind : NodeKind} (x : SymbolId) (hs : s.graph.Coherent)
    (hintact : aim.fine → s.Intact) (hlog : s.log.Grows log)
    (hid : aim.fine → kind.isReference = true ∧ At id kind s) :
    Onward aim.fine ∅ᶜ s
      { s with tree := s.tree.annotate id fun note => { note with symbol := some x }, log } := by
  have hreport : Onward aim.fine ∅ᶜ s { s with log } := .of_log hs hintact hlog
  refine hreport.trans ?_
  refine .annotate (s := { s with log }) hs hreport.after.2 (fun _ _ h => .inl h) (fun _ h => h)
    (fun hfine other hother _ => ?_) fun hfine other hother _ hframe => ?_
  all_goals
    obtain ⟨hkind, node, hnode, rfl⟩ := hid hfine
    cases hnode.symm.trans hother
  · exact NodeKind.fits_of_isReference hkind _ x
  · rw [(NodeKind.isFrame_of_isReference hkind).1] at hframe
    cases hframe

theorem firm_refer {log : Log} {kind : NodeKind} (x : SymbolId) (hs : s.graph.Coherent)
    (hintact : s.Intact) (hfine : aim.fine) (hlog : s.log.Grows log)
    (hkind : kind.isReference = true) (hat : At id kind s) :
    s.Firm
      { s with tree := s.tree.annotate id fun note => { note with symbol := some x }, log } := by
  have honward := onward_refer x hs (fun _ => hintact) hlog fun _ : aim.fine => ⟨hkind, hat⟩
  refine ⟨honward.advances hfine, fun {q node y} hnode hframe hy => ?_, honward.steps.lodges hs⟩
  obtain ⟨other, hother, rfl⟩ := hat
  have hq : q ≠ id := by
    rintro rfl
    cases hnode.symm.trans hother
    rw [(NodeKind.isFrame_of_isReference hkind).1] at hframe
    cases hframe
  rw [Tree.noted?_annotate_of_ne hq, Tree.noted?_of_node? hnode, hy]

theorem Course.onward (h : Course aim s s') (hs : s.graph.Coherent)
    (hintact : aim.fine → s.Intact) : Onward aim.fine ∅ᶜ s s' := by
  induction h with
  | refl => exact .refl hs hintact
  | trans _ _ ih ih' =>
    have hfirst := ih hs hintact
    exact hfirst.trans (ih' hfirst.after.1 hfirst.after.2)
  | changes h => exact (h.onward hs hintact).mono fun _ _ => nofun
  | refer _ x hlog hid =>
    exact onward_refer x hs hintact hlog fun hfine => (hid hfine).imp_right And.left
  | constant => exact .remark hs hintact _ _ (fun _ => rfl) fun _ => rfl
  | @require s id _ r value =>
    have hnote : Onward aim.fine ∅ᶜ s { s with tree := (s.answered id r value).tree } := by
      dsimp only [answered]
      exact .remark hs hintact id _ (fun _ => rfl) fun _ => rfl
    exact hnote.trans (.of_unfolds hnote.after.1 hnote.after.2 rfl (List.Subset.refl _)
      (fun _ h => h) fun _ _ => .of_log rfl rfl (fun h => h) rfl)
  | within hfirst _ hlast hbracket ih =>
    exact .within hs hintact hfirst (ih (hs.steps hfirst.steps)
      fun hfine => hfirst.advances.intact (hintact hfine)) hlast hbracket

theorem Course.settles (h : Course aim s s') (hs : s.graph.Coherent)
    (hintact : aim.fine → s.Intact) : s.graph.Settles s'.graph := by
  induction h with
  | trans hfirst _ ih ih' =>
    have hafter := (hfirst.onward hs hintact).after
    exact (ih hs hintact).trans (ih' hafter.1 hafter.2)
  | changes h => exact (h.onward hs hintact).edits.settles fun _ hx => hx
  | within hfirst _ hlast _ ih =>
    exact hfirst.settles.trans ((ih (hs.steps hfirst.steps)
      fun hfine => hfirst.advances.intact (hintact hfine)).trans hlast.settles)
  | _ => exact .refl

/-- The second walk keeps the frames, and the references that it binds meet their conditions. -/
theorem Course.keeps (given : Tree) (h : Course aim s s') (hs : s.graph.Coherent)
    (hfine : aim.fine) (hintact : s.Intact) :
    s.Firm s' ∧ (s.Suited aim given → s'.Suited aim given) := by
  -- what binds no reference
  have hspared : ∀ {s s' : Analysis}, Course aim s s' → s.graph.Coherent → s.Intact →
      s.Spares s.blank s' → s.Firm s' ∧ (s.Suited aim given → s'.Suited aim given) := by
    intro s s' h hs hintact hspares
    have hfirm := (h.onward hs fun _ => hintact).firm hfine hspares
    exact ⟨hfirm, fun hsuited => hsuited.spares hfirm (h.settles hs fun _ => hintact) hspares⟩
  induction h with
  | refl => exact hspared .refl hs hintact (.of_noted fun _ => rfl)
  | trans hfirst _ ih ih' =>
    have hafter := (hfirst.onward hs fun _ => hintact).after
    obtain ⟨hfirm, hsuited⟩ := ih hs hintact
    obtain ⟨hfirm', hsuited'⟩ := ih' hafter.1 (hafter.2 hfine)
    exact ⟨hfirm.trans hfirm', fun h => hsuited' (hsuited h)⟩
  | changes h => exact hspared (.changes h) hs hintact (h.spares hs hfine hintact)
  | @refer s id log kind x hlog hid =>
    obtain ⟨hkind, hat, hx⟩ := hid hfine
    have hfirm := firm_refer x hs hintact hfine hlog hkind hat
    refine ⟨hfirm, fun hsuited q node' y hnode' hkind' hy => ?_⟩
    have hnode := hnode'
    dsimp only at hnode
    rw [Tree.node?_annotate] at hnode
    split at hnode
    next hq =>
      subst hq
      obtain ⟨node, hhere, rfl⟩ := Option.map_eq_some_iff.mp hnode
      have hreport : Onward aim.fine ∅ᶜ s { s with log } := .of_log hs (fun _ => hintact) hlog
      have hlast := firm_refer (s := { s with log }) x hs (hreport.after.2 hfine) hfine .refl
        hkind hat
      obtain ⟨other, hother, rfl⟩ := hat
      cases hhere.symm.trans hother
      obtain rfl := Option.some.inj hy
      exact .inr (Suits.firm hlast .refl hx)
    next => exact (hsuited q node' y hnode hkind' hy).imp_right (Suits.firm hfirm .refl)
  | constant text hid =>
    exact hspared (.constant text hid) hs hintact
      (.of_noted (Tree.noted?_annotate_of_eq fun _ _ => rfl))
  | require hid hvalue hpath =>
    exact hspared (.require hid hvalue hpath) hs hintact
      (.of_noted (Tree.noted?_annotate_of_eq fun _ _ => rfl))
  | within hfirst hcourse hlast _ ih =>
    have hcoherent := hs.steps hfirst.steps
    have hbegun := hfirst.advances.intact hintact
    have hafter := (hcourse.onward hcoherent fun _ => hbegun).after
    obtain ⟨hfirm, hsuited⟩ := ih hcoherent hbegun
    exact ⟨(hfirst.firm hs).trans (hfirm.trans (hlast.firm hafter.1)), fun h =>
      hlast.suited hafter.1 (hsuited (hfirst.suited hs h))⟩

theorem Course.heads (h : Course aim s s') (hs : s.graph.Coherent)
    (hintact : aim.fine → s.Intact) : Heads aim s s' :=
  ⟨h.onward hs hintact, fun hfine => (h.keeps s.tree hs hfine (hintact hfine)).1⟩

instance (aim : Aim) : Track aim.fine ∅ᶜ (Heads aim) (Course aim) :=
  ⟨fun _ => .refl, .trans, fun h => .changes (.log h), Course.heads, .trans, Heads.toOnward⟩

/-- A computation between marks that are made before it and taken back after it. -/
theorem Obeys.within {before x after : AnalysisM Unit} {P : Analysis → Prop}
    (hbefore : before s = .ok () s₁) (hfirst : s.Marks s₁)
    (hx : Obeys aim (Course aim) s₁ s₁ x fun _ => P)
    (hafter : ∀ s₂, ∃ s', after s₂ = .ok () s' ∧ s₂.Marks s' ∧
      (aim.fine → Bracket s s₁ s₂ s')) :
    Obeys aim (Course aim) s s (do before; x; after)
      fun _ s' => ∃ s₂, P s₂ ∧ s₂.Advances s' := by
  refine .of_proper fun hs => .next hbefore ⟨fun _ h => ?_, fun _ hhome h => ?_⟩
  · obtain ⟨u, s₂, hrun, h⟩ := ok_bind h
    obtain ⟨hcourse, hp⟩ := hx.ok (hfirst.proper hs) hrun
    obtain ⟨s', hlast, hmarks, hbracket⟩ := hafter s₂
    rw [hlast] at h
    cases h
    exact ⟨.within hfirst hcourse hmarks hbracket, s₂, hp, hmarks.advances⟩
  · rcases error_bind h with h | ⟨u, s₂, hrun, h⟩
    · exact hx.error (hfirst.proper hs) hhome h
    · obtain ⟨s', hlast, -⟩ := hafter s₂
      rw [hlast] at h
      cases h

end Analysis

namespace Reference

open Analysis

variable {aim : Aim} {s s' s₁ s₂ : Analysis} {x : AnalysisM Unit} {P : Analysis → Prop} {g : Graph}
  {q : ScopeId}

/-! ### Active scopes -/

theorem active_enter (hq : q.index < g.scopes.size) (p : ScopeId) :
    ((g.enter q).scope p).active = (g.scope p).active + if p = q then 1 else 0 := by
  rw [Graph.enter, Graph.scope_modifyScope]
  by_cases hp : p = q
  · rw [if_pos ⟨hp, hq⟩, if_pos hp]
  · rw [if_neg fun h => hp h.1, if_neg hp, Nat.add_zero]

theorem isRestricted_setActive (g : Graph) (q p : ScopeId) (f : Scope → Nat) :
    ((g.modifyScope q fun s => { s with active := f s }).scope p).isRestricted =
      (g.scope p).isRestricted :=
  Graph.scope_modifyScope_congr Scope.isRestricted q p fun _ => rfl

theorem setActive_marks (s : Analysis) (q : ScopeId) (f : Scope → Nat) :
    s.Marks { s with graph := s.graph.modifyScope q fun s => { s with active := f s } } :=
  .modifyScope (.marks _ _ _ _) (.amendScope ⟨rfl, rfl, rfl, .inl rfl, rfl, .inl rfl⟩)

theorem run_currentGraph_bind {α : Type} (f : Graph → AnalysisM α) :
    (currentGraph >>= f) s = f s.graph s := rfl

theorem run_leave_of_isActive (h : s.graph.isActive q = true) (span : Span) :
    leave q span s = .ok () { s with
      graph := s.graph.modifyScope q fun scope => { scope with active := scope.active - 1 } } := by
  have hleave : s.graph.leave? q = some
      (s.graph.modifyScope q fun scope => { scope with active := scope.active - 1 }) := by
    rw [Graph.leave?, if_pos h]
  simp only [leave, run_currentGraph_bind, hleave]
  rfl

theorem run_leave_of_not_isActive (h : s.graph.isActive q ≠ true) (span : Span) :
    leave q span s = .ok () { s with log := s.log.abort span (Graph.underflowMessage q) } := by
  have hleave : s.graph.leave? q = none := by rw [Graph.leave?, if_neg h]
  simp only [leave, run_currentGraph_bind, hleave]
  rfl

/-- A scope that is left where it was entered is active all the time, so that leaving it cannot
fail. -/
theorem isActive_entered (hq : Open q s)
    (h : ∀ p, (s₂.graph.scope p).active = ((s.graph.enter q).scope p).active) :
    s₂.graph.isActive q = true := by
  rw [Graph.isActive, Scope.isActive, h, active_enter hq, if_pos rfl]
  exact decide_eq_true (Nat.succ_pos _)

/-- Leaving a scope takes back the mark made on entering it. -/
theorem leave_bracket (span : Span) (hopen : aim.fine → Open q s) (s₂ : Analysis) :
    ∃ s', leave q span s₂ = .ok () s' ∧ s₂.Marks s' ∧
      (aim.fine → Bracket s { s with graph := s.graph.enter q } s₂ s') := by
  by_cases hactive : s₂.graph.isActive q = true
  · refine ⟨_, run_leave_of_isActive hactive span, setActive_marks _ _ _, fun hfine =>
      ⟨fun hsame p => ?_, fun p hp => ⟨?_, fun hp => ?_⟩, fun _ habort => habort⟩⟩
    · dsimp only
      rw [Graph.apply_scope_modifyScope Scope.active]
      dsimp only
      rw [hsame, active_enter (hopen hfine)]
      by_cases hp : p = q
      · have hlt : p.index < s₂.graph.scopes.size := by
          rw [hp]
          exact Graph.scope_lt_size fun hscope => by
            rw [Graph.isActive, hscope] at hactive
            cases hactive
        rw [if_pos ⟨hp, hlt⟩, if_pos hp, Nat.add_sub_cancel]
      · rw [if_neg fun h => hp h.1, if_neg hp, Nat.add_zero]
    all_goals exact (isRestricted_setActive _ _ _ _).symm.trans hp
  · refine ⟨_, run_leave_of_not_isActive hactive span, .abort _ _, fun hfine =>
      ⟨fun hsame => ?_, fun p hp => ⟨hp, fun hp => ?_⟩, fun hsame => ?_⟩⟩
    · exact absurd (isActive_entered (hopen hfine) hsame) hactive
    · exact (isRestricted_setActive _ _ _ _).symm.trans hp
    · exact absurd (isActive_entered (hopen hfine) hsame) hactive

/-- A computation inside a scope, which is entered before and left after it. -/
def inScope (q : ScopeId) (span : Span) (x : AnalysisM Unit) : AnalysisM Unit := do
  enter q
  x
  leave q span

theorem inScope_obeys (span : Span) (hopen : aim.fine → Open q s)
    (hx : s.Marks { s with graph := s.graph.enter q } →
      Obeys aim (Course aim) { s with graph := s.graph.enter q }
        { s with graph := s.graph.enter q } x fun _ => P) :
    Obeys aim (Course aim) s s (inScope q span x)
      fun _ s' => ∃ s₂, P s₂ ∧ s₂.Advances s' :=
  .within rfl (setActive_marks s q (·.active + 1)) (hx (setActive_marks s q (·.active + 1)))
    (leave_bracket span hopen)

/-! ### Withheld members -/

theorem restricted_modifyMember {p : ScopeId} {restricted : Bool}
    (h : ((g.modifyMember q fun info => { info with restricted }).scope p).isRestricted = true) :
    (p = q → restricted = true) ∧ (p ≠ q → (g.scope p).isRestricted = true) := by
  rw [Graph.modifyMember, Graph.scope_modifyScope] at h
  split at h
  next hp =>
    refine ⟨fun _ => ?_, fun hne => absurd hp.1 hne⟩
    rw [Scope.isRestricted, Scope.mapMember] at h
    cases hmember : (g.scope p).member with
    | none => simp [hmember] at h
    | some info => simpa [hmember] using h
  next hp =>
    refine ⟨fun heq => ?_, fun _ => h⟩
    rw [Graph.scope_of_size_le (Nat.le_of_not_lt fun hlt => hp ⟨heq, heq ▸ hlt⟩)] at h
    cases h

theorem restrict_marks (s : Analysis) (q : ScopeId) (restricted : Bool) :
    s.Marks { s with graph := s.graph.modifyMember q fun info => { info with restricted } } := by
  refine .modifyScope (.mapMember _ (fun _ role _ => ?_) fun _ => rfl)
    (.mapMember fun _ => .restrict restricted)
  cases role <;> rfl

/-- A computation while the members of a class, if there is one, are withheld. -/
def withheld (members : Option ScopeId) (x : AnalysisM Unit) : AnalysisM Unit := do
  setRestricted members true
  x
  setRestricted members false

theorem withheld_obeys (members : Option ScopeId)
    (hx : ∀ s₁, s.Marks s₁ → Obeys aim (Course aim) s₁ s₁ x fun _ => P) :
    Obeys aim (Course aim) s s (withheld members x)
      fun _ s' => ∃ s₂, P s₂ ∧ s₂.Advances s' := by
  cases members with
  | none =>
    refine .within rfl .none (hx s .none) fun s₂ =>
      ⟨s₂, rfl, .none, fun _ => ⟨fun h => h, fun _ h => ⟨h, fun h => h⟩, fun _ h => h⟩⟩
  | some q =>
    refine .within rfl (restrict_marks s q true) (hx _ (restrict_marks s q true))
      fun s₂ => ⟨_, rfl, restrict_marks s₂ q false, fun _ => ⟨fun hsame p => ?_, fun p hp => ?_,
        fun _ h => h⟩⟩
    · have hset : ∀ (g : Graph) restricted,
          ((g.modifyMember q fun info => { info with restricted }).scope p).active =
            (g.scope p).active := fun g _ =>
        Graph.scope_modifyScope_congr Scope.active q p fun _ => rfl
      exact (hset s₂.graph false).trans ((hsame p).trans (hset s.graph true))
    · obtain ⟨heq, hne⟩ := restricted_modifyMember hp
      have hpq : p ≠ q := fun hpq => Bool.noConfusion (heq hpq)
      exact ⟨hne hpq, fun h => (restricted_modifyMember h).2 hpq⟩

end Reference

end Scoping
