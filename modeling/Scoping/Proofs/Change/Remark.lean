import Scoping.Proofs.Change.Passes

/-!
# Remarks on nodes

Apart from scopes and symbols, nodes are noted with the bindings of engine constants and with the
answers to requests. `Analysis.Remark` says when this happens: an engine constant is bound or put
off, or a request is handed to the loader, and nothing else touches these notes or the ledger.
-/

namespace Scoping

namespace Analysis

variable {fine : Prop} {aim : Aim} {types : Set SymbolId} {s s' : Analysis} {id : NodeId}

/-- One step of an analysis, as far as remarks on nodes and the ledger are concerned. -/
inductive Remark (aim : Aim) : Analysis → Analysis → Prop where
  | keep {s s' : Analysis} : s.tree.Extends s'.tree →
    (∀ id, s'.tree.binding? id = s.tree.binding? id) →
    (∀ id, s'.tree.noted? (·.answer?) id = s.tree.noted? (·.answer?) id) →
    s'.ledger = s.ledger → Remark aim s s'
  | constant {s : Analysis} {id : NodeId} {which : EngineConst} (text : String) :
    At id (.engineConst which) s →
    Remark aim s
      { s with
        tree := s.tree.annotate id fun note => { note with binding := some (.bound (.str text)) } }
  | defer {s : Analysis} (late : LateBinding) {which : EngineConst} :
    At late.node (.engineConst which) s →
    Remark aim s
      { s with
        tree := s.tree.annotate late.node fun note => { note with binding := some .pending }
        late := s.late ++ [late] }
  | require {s : Analysis} {id path : NodeId} {r : ImportRequest} {value : Value} {raw : String} :
    At id (.require path r.foreign) s → value.str? = some raw →
    r.path = Import.resolve aim.env.config (UnixPath.mk s.tree.file).directory r.foreign raw →
    Remark aim s (s.answered id r value)

/-- Any number of steps. -/
abbrev Remarks (aim : Aim) : Analysis → Analysis → Prop := Relation.ReflTransGen (Remark aim)

theorem Remarks.induct {P : Analysis → Prop} (h : Remarks aim s s')
    (hstep : ∀ {s s'}, Remark aim s s' → P s → P s') (hs : P s) : P s' := by
  induction h with
  | refl => exact hs
  | tail _ hlast ih => exact hstep hlast ih

theorem Remark.of_tree (htree : s'.tree = s.tree) (hledger : s'.ledger = s.ledger) :
    Remark aim s s' :=
  .keep (htree ▸ .refl) (fun _ => by rw [htree]) (fun _ => by rw [htree]) hledger

theorem Remark.of_annotate {f : Annotation → Annotation}
    (hf : ∀ note, (f note).binding = note.binding ∧ (f note).answer? = note.answer?) :
    Remark aim s { s with tree := s.tree.annotate id f } :=
  .keep (.annotate id f) (Tree.noted?_annotate_of_eq fun node _ => (hf node.note).1)
    (Tree.noted?_annotate_of_eq fun node _ => (hf node.note).2) rfl

theorem Declares.remarks {area : Set NodeId} (aim : Aim) (h : Declares fine area s s') :
    Remarks aim s s' := by
  induction h with
  | refl => exact .refl
  | trans _ _ ih ih' => exact ih.trans ih'
  | graph | log => exact .single (.of_tree rfl rfl)
  | setScope => exact .single (.of_annotate fun _ => ⟨rfl, rfl⟩)
  | note _ _ _ _ _ _ hkeeps => exact .single (.of_annotate hkeeps)

theorem remark_of_copyMember {trait member copy : SymbolId} {name : String} {flags : Flags}
    {g : Graph} (hs : s.Intact) (h : Hierarchy.copyMember member trait name flags s = .ok copy s') :
    Remark aim s { s' with graph := g } := by
  have hcopied := Hierarchy.copiedMember_of_copyMember hs h
  exact .keep hcopied.advances.tree (hcopied.noted rfl) (hcopied.noted rfl) hcopied.ledger

theorem Changes.remarks (h : Changes aim types s s') (hs : s.graph.Coherent) (hfine : aim.fine)
    (hintact : s.Intact) : Remarks aim s s' := by
  induction h with
  | refl => exact .refl
  | trans hfirst _ ih ih' =>
    have hafter := (hfirst.onward hs fun _ => hintact).after
    exact (ih hs hintact).trans (ih' hafter.1 (hafter.2 hfine))
  | declare h => exact h.remarks aim
  | graph | conclude => exact .single (.of_tree rfl rfl)
  | adopt => exact .single (.of_annotate fun _ => ⟨rfl, rfl⟩)
  | defer late hlate => exact .single (.defer late hlate)
  | copyEntry _ hfirst hcopy _ ih | copySlot _ _ hfirst hcopy _ ih =>
    have hafter := (hfirst.onward hs fun _ => hintact).after
    exact (ih hs hintact).tail (remark_of_copyMember (hafter.2 hfine) hcopy)

theorem Course.remarks (h : Course aim s s') (hs : s.graph.Coherent) (hfine : aim.fine)
    (hintact : s.Intact) : Remarks aim s s' := by
  induction h with
  | refl => exact .refl
  | trans hfirst _ ih ih' =>
    have hafter := (hfirst.onward hs fun _ => hintact).after
    exact (ih hs hintact).trans (ih' hafter.1 (hafter.2 hfine))
  | changes h => exact h.remarks hs hfine hintact
  | @refer s id log =>
    have hreport : Remark aim s { s with log } := .of_tree rfl rfl
    exact .tail (.single hreport) (.of_annotate fun _ => ⟨rfl, rfl⟩)
  | constant text hid => exact .single (.constant text hid)
  | require hid hvalue hpath => exact .single (.require (hid hfine) hvalue hpath)
  | within hfirst _ hlast _ ih =>
    exact .head (.of_tree hfirst.tree hfirst.ledger) ((ih (hs.steps hfirst.steps)
      (hfirst.advances.intact hintact)).tail (.of_tree hlast.tree hlast.ledger))

/-- The states after the second walk and after the last pass are on the way. -/
theorem Passed.remarks {env : Environment} {root declared resolved bound : Analysis}
    {unit : ScopeId} (h : Passed env root s unit declared resolved bound)
    (hroot : root.Startable env) :
    Remarks (.whole env root.Sorted) root resolved ∧
      Remarks (.whole env root.Sorted) { resolved with late := [] } s := by
  have hdeclared := h.declares.onward hroot.coherent fun _ => hroot.toIntact
  have hresolved := h.resolves.onward hdeclared.after.1 hdeclared.after.2
  obtain ⟨hcoherent, hintact⟩ := hresolved.after
  have hemptied : Onward True ∅ᶜ resolved { resolved with late := [] } :=
    onward_late [] hcoherent hintact
  obtain ⟨log, -, hrun⟩ := run_publish unit bound
  have hpublish := h.publish
  rw [hrun] at hpublish
  cases hpublish
  exact ⟨(h.declares.remarks _).trans
      (h.resolves.remarks hdeclared.after.1 trivial (hdeclared.after.2 trivial)),
    (h.binds.remarks hemptied.after.1 trivial (hemptied.after.2 trivial)).tail (.of_tree rfl rfl)⟩

end Analysis

end Scoping
