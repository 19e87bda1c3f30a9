import Scoping.Proofs.Unfold.Basic

/-!
# Computations that only the graph decides

`Analysis.Acts` says what a computation does in every state with a given graph: which result it has,
which graph it leaves and what it reports. The checks of a class are of this kind. They leave
everything as it is exactly if no function of the class is abstract and the class has implemented
all that it owes (`Hierarchy.checkClass_acts`).
-/

namespace Scoping

/-- The log with more diagnostics at its end. -/
def Log.extend (log : Log) (diagnostics : List Diagnostic) : Log :=
  { log with diagnostics := log.diagnostics ++ diagnostics }

theorem Log.extend_nil (log : Log) : log.extend [] = log := by
  rw [extend, List.append_nil]

theorem Log.Grows.extend (log : Log) (diagnostics : List Diagnostic) :
    log.Grows (log.extend diagnostics) := by
  refine ⟨fun h => ?_, rfl, List.subset_append_left _ _⟩
  simp only [Log.Clean, Log.extend, Diagnostics.hasErrors, List.any_append,
    Bool.or_eq_false_iff] at h
  exact h.1

theorem Log.extend_extend (log : Log) (first second : List Diagnostic) :
    (log.extend first).extend second = log.extend (first ++ second) := by
  simp only [extend, List.append_assoc]

namespace Analysis

variable {α β : Type} {g g₁ g' : Graph} {ds ds' : List Diagnostic}

/-- The state after a change of the graph and a report. -/
def after (s : Analysis) (g : Graph) (ds : List Diagnostic) : Analysis :=
  { s with graph := g, log := s.log.extend ds }

/-- In every state with the graph `g` the computation has the result `a`, leaves the graph `g'` and
reports `ds`. -/
def Acts (x : AnalysisM α) (g : Graph) (a : α) (g' : Graph) (ds : List Diagnostic) : Prop :=
  ∀ s : Analysis, s.graph = g → x s = .ok a (s.after g' ds)

namespace Acts

theorem pure (a : α) : Acts (pure a) g a g [] := by
  rintro s rfl
  show EStateM.Result.ok a s = _
  rw [after, Log.extend_nil]

theorem bind {x : AnalysisM α} {f : α → AnalysisM β} {a : α} {b : β} (hx : Acts x g a g₁ ds)
    (hf : Acts (f a) g₁ b g' ds') : Acts (x >>= f) g b g' (ds ++ ds') := by
  intro s hs
  show EStateM.bind x f s = _
  rw [EStateM.bind, hx s hs]
  dsimp only
  rw [hf (s.after g₁ ds) rfl]
  simp only [after, Log.extend_extend]

/-- A first computation that reports nothing. -/
theorem bind_quiet {x : AnalysisM α} {f : α → AnalysisM β} {a : α} {b : β}
    (hx : Acts x g a g₁ []) (hf : Acts (f a) g₁ b g' ds) : Acts (x >>= f) g b g' ds :=
  hx.bind hf

theorem currentGraph : Acts currentGraph g g g [] := by
  rintro s rfl
  exact pure s.graph s rfl

theorem symbol (x : SymbolId) : Acts (symbol x) g (g.symbol x) g [] := by
  rintro s rfl
  exact pure (s.graph.symbol x) s rfl

theorem modifyGraph (f : Graph → Graph) : Acts (modifyGraph f) g () (f g) [] := by
  rintro s rfl
  show EStateM.Result.ok () { s with graph := f s.graph } = _
  rw [after, Log.extend_nil]

theorem onGraph (f : Graph → α × Graph) : Acts (onGraph f) g (f g).1 (f g).2 [] := by
  rintro s rfl
  show EStateM.Result.ok (f s.graph).1 { s with graph := (f s.graph).2 } = _
  rw [after, Log.extend_nil]

theorem report (span : Span) (p : Problem) :
    Acts (report span p) g () g [Log.errorDiagnostic p.kind span p.message] := by
  rintro s rfl
  rfl

theorem reportWithPrevious (span : Span) (p : Problem) (previous : Span) (note : String) :
    Acts (reportWithPrevious span p previous note) g () g
      [(Log.errorDiagnostic p.kind span p.message).addLabel previous note] := by
  rintro s rfl
  rfl

/-- A list of computations that leave the graph alone. -/
theorem forM_same {f : α → AnalysisM Unit} {report : α → List Diagnostic}
    (hf : ∀ a, Acts (f a) g () g (report a)) : ∀ items : List α,
    Acts (items.forM f) g () g (items.flatMap report)
  | [] => pure ()
  | a :: rest => (hf a).bind (forM_same hf rest)

end Acts

end Analysis

namespace Hierarchy

open Analysis

variable {env : Environment} {c : SymbolId} {g : Graph}

/-! ### The checks of a class -/

/-- The checks of a class. -/
def checkClass (env : Environment) (id : SymbolId) : AnalysisM Unit := do
  markAbstract id
  verifyContracts env id

/-- The graph with a class made abstract if it should be. -/
def abstracted (g : Graph) (c : SymbolId) (should : Bool) : Graph :=
  if should then makeAbstract g c else g

/-- Does a class have an abstract function of its own? -/
def hasAbstract (g : Graph) (c : SymbolId) : Bool := (g.memberFunctions c).any g.isAbstract

/-- Does a class leave something that it owes? -/
def leavesUnmet (env : Environment) (g : Graph) (c : SymbolId) : Bool :=
  (g.obligations env.rootObject c).any fun f => g.standing c f != .met

/-- What is reported about a class that is abstract and final. -/
def finalReport (s : Symbol) : List Diagnostic :=
  if s.flags.isAbstract && s.flags.isFinal then
    [Log.errorDiagnostic (Problem.abstractAndFinal s.name).kind s.span
      (Problem.abstractAndFinal s.name).message]
  else []

/-- What is reported about one function that a class owes. -/
def standingReport (g : Graph) (f : SymbolId) : Standing → List Diagnostic
  | .broken i why =>
    let problem := Problem.brokenContract (g.symbolPath i) (g.symbolPath f) why.message
    [(Log.errorDiagnostic problem.kind (g.symbol i).span problem.message).addLabel
      (g.symbol f).span "required by this declaration"]
  | _ => []

theorem reportStanding_acts {g₁ : Graph} (f : SymbolId) (standing : Standing) :
    Acts (reportStanding g f standing) g₁ () g₁ (standingReport g f standing) := by
  cases standing with
  | broken i why => exact .reportWithPrevious _ _ _ _
  | _ => exact .pure ()

theorem markAbstract_acts (hforeign : (g.symbol c).flags.isForeign = false) :
    Acts (markAbstract c) g () (abstracted g c (hasAbstract g c))
      (finalReport ((abstracted g c (hasAbstract g c)).symbol c)) := by
  refine Acts.currentGraph.bind_quiet ?_
  rw [if_neg (by rw [hforeign]; exact Bool.false_ne_true)]
  have hreport : ∀ g₁ : Graph, Acts (do
      let symbol ← Analysis.symbol c
      if symbol.flags.isAbstract && symbol.flags.isFinal then
        Analysis.report symbol.span (.abstractAndFinal symbol.name)) g₁ () g₁
      (finalReport (g₁.symbol c)) := by
    intro g₁
    refine (Acts.symbol c).bind_quiet ?_
    unfold finalReport
    split
    · exact .report _ _
    · exact .pure ()
  unfold abstracted hasAbstract
  split
  · exact (Acts.modifyGraph (makeAbstract · c)).bind_quiet (hreport _)
  · exact hreport g

theorem verifyContracts_acts (hforeign : (g.symbol c).flags.isForeign = false) :
    Acts (verifyContracts env c) g () (abstracted g c (leavesUnmet env g c))
      ((g.obligations env.rootObject c).flatMap fun f => standingReport g f (g.standing c f)) := by
  refine Acts.currentGraph.bind_quiet ?_
  rw [if_neg (by rw [hforeign]; exact Bool.false_ne_true)]
  have hreports := Acts.forM_same (g := g)
    (fun f => reportStanding_acts (g := g) f (g.standing c f)) (g.obligations env.rootObject c)
  rw [← List.append_nil (List.flatMap _ _)]
  refine hreports.bind ?_
  unfold abstracted leavesUnmet
  split
  · exact .modifyGraph _
  · exact .pure ()

/-- The graph after the checks of a class. -/
def checked (env : Environment) (g : Graph) (c : SymbolId) : Graph :=
  if (g.symbol c).flags.isForeign then g
  else
    let marked := abstracted g c (hasAbstract g c)
    abstracted marked c (leavesUnmet env marked c)

/-- What the checks of a class report. -/
def checkReport (env : Environment) (g : Graph) (c : SymbolId) : List Diagnostic :=
  if (g.symbol c).flags.isForeign then []
  else
    let marked := abstracted g c (hasAbstract g c)
    finalReport (marked.symbol c) ++
      (marked.obligations env.rootObject c).flatMap fun f =>
        standingReport marked f (marked.standing c f)

/-- The checks of a class may make it abstract and change nothing else. -/
theorem checked_induction (env : Environment) (c : SymbolId) {P : Graph → Prop} (hg : P g)
    (hmark : ∀ g₁, P g₁ → P (makeAbstract g₁ c)) : P (checked env g c) := by
  have habstracted : ∀ g₁ should, P g₁ → P (abstracted g₁ c should) := by
    intro g₁ should hg₁
    unfold abstracted
    split
    · exact hmark g₁ hg₁
    · exact hg₁
  unfold checked
  split
  · exact hg
  · exact habstracted _ _ (habstracted _ _ hg)

theorem data_makeAbstract (x : SymbolId) :
    ((makeAbstract g c).symbol x).data = (g.symbol x).data :=
  Graph.symbol_modifySymbol_congr Symbol.data _ _ fun _ => rfl

theorem data_checked (x : SymbolId) : ((checked env g c).symbol x).data = (g.symbol x).data :=
  checked_induction env c (P := fun g₁ => (g₁.symbol x).data = (g.symbol x).data) rfl
    fun _ h => (data_makeAbstract x).trans h

theorem isForeign_abstracted (x : SymbolId) (should : Bool) :
    ((abstracted g c should).symbol x).flags.isForeign = (g.symbol x).flags.isForeign := by
  unfold abstracted
  split
  · exact Graph.symbol_modifySymbol_congr (fun s => s.flags.isForeign) _ _ fun _ => rfl
  · rfl

theorem checkClass_acts (env : Environment) (g : Graph) (c : SymbolId) :
    Acts (checkClass env c) g () (checked env g c) (checkReport env g c) := by
  unfold checked checkReport
  cases hforeign : (g.symbol c).flags.isForeign with
  | true =>
    have hfirst : Acts (markAbstract c) g () g [] := by
      refine Acts.currentGraph.bind_quiet ?_
      rw [if_pos hforeign]
      exact .pure ()
    have hsecond : Acts (verifyContracts env c) g () g [] := by
      refine Acts.currentGraph.bind_quiet ?_
      rw [if_pos hforeign]
      exact .pure ()
    exact hfirst.bind_quiet hsecond
  | false =>
    refine (markAbstract_acts hforeign).bind (verifyContracts_acts ?_)
    rw [isForeign_abstracted, hforeign]

theorem isAbstract_abstracted (hc : c.index < g.symbols.size) (should : Bool) :
    (abstracted g c should).isAbstract c = (should || g.isAbstract c) := by
  unfold abstracted
  cases should with
  | false => rfl
  | true =>
    rw [if_pos rfl, Graph.isAbstract, makeAbstract, Graph.symbol_modifySymbol_self hc]
    rfl

theorem size_symbols_abstracted (should : Bool) :
    (abstracted g c should).symbols.size = g.symbols.size := by
  unfold abstracted
  split
  · exact Graph.size_symbols_modifySymbol _ _ _
  · rfl

/-- A class is not abstract after its checks if it was not before, has no abstract function and
leaves nothing that it owes. -/
theorem isAbstract_checked_iff (hc : c.index < g.symbols.size)
    (hforeign : (g.symbol c).flags.isForeign = false) :
    (checked env g c).isAbstract c = false ↔
      g.isAbstract c = false ∧ hasAbstract g c = false ∧ leavesUnmet env g c = false := by
  have hsize := (size_symbols_abstracted (g := g) (c := c) (hasAbstract g c)).symm ▸ hc
  rw [checked, if_neg (by rw [hforeign]; exact Bool.false_ne_true), isAbstract_abstracted hsize,
    isAbstract_abstracted hc]
  cases hown : hasAbstract g c with
  | true => simp
  | false =>
    simp only [Bool.false_or, Bool.or_eq_false_iff, true_and]
    exact And.comm

/-- The checks of such a class change and report nothing. -/
theorem checked_eq_self (habstract : g.isAbstract c = false) (hown : hasAbstract g c = false)
    (hmet : leavesUnmet env g c = false) : checked env g c = g ∧ checkReport env g c = [] := by
  have hmarked : abstracted g c (hasAbstract g c) = g := by
    rw [hown]
    rfl
  have hfinal : finalReport (g.symbol c) = [] := by
    unfold finalReport
    rw [if_neg]
    have hsymbol : (g.symbol c).flags.isAbstract = false := habstract
    rw [hsymbol]
    exact Bool.false_ne_true
  have hreports : (g.obligations env.rootObject c).flatMap
      (fun f => standingReport g f (g.standing c f)) = [] := by
    refine List.flatMap_eq_nil_iff.mpr fun f hf => ?_
    have hstanding : g.standing c f = .met := by
      simpa using List.any_eq_false.mp hmet f hf
    rw [hstanding]
    rfl
  unfold checked checkReport
  dsimp only
  rw [hmarked, hmet, hfinal, hreports]
  refine ⟨?_, ?_⟩
  · split <;> rfl
  · split <;> rfl

end Hierarchy

/-- The state after the checks of a class, with which its resolution ends. -/
def Analysis.concluded (env : Environment) (c : SymbolId) (s : Analysis) : Analysis :=
  { s with
    graph := (Hierarchy.checked env s.graph c).modifyData c (·.setResolution .resolved)
    log := s.log.extend (Hierarchy.checkReport env s.graph c) }

end Scoping
