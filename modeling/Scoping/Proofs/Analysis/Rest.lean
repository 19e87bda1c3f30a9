import Scoping.Proofs.Graph.Activity

/-!
# Computations that do not look at walks

Private symbols are found only in scopes that a walk is inside of. So a run goes in the same way
while more scopes are active, unless a private symbol is refused in it or a path leads through a
private import of one of these scopes (`Analysis.Consistent`). Nothing but looking names up depends
on where walks are: declaring a function again that has been copied, copying the members of a trait
and checking contracts do not.
-/

namespace Scoping

/-! ### Reports -/

theorem Log.count_le_count_push (log : Log) (d : Diagnostic) (kind : ErrorKind) :
    log.count kind ≤ (log.push d).count kind := by
  simp [Log.count, Log.push, Diagnostics.withCode]

theorem Log.count_lt_count_problem (log : Log) (p : Problem) (span : Span) :
    log.count p.kind < (log.problem p span).count p.kind := by
  simp [Log.count, Log.problem, Log.error, Log.push, Log.errorDiagnostic, Diagnostics.withCode]

namespace Analysis

variable {α β : Type} {names : Set String} {s s' t : Analysis}

/-! ### Computations that do not look at walks -/

/-- The state as if no walk were inside any scope. -/
def atRest (s : Analysis) : Analysis := { s with graph := s.graph.atRest }

/-- The state in which a run ends, by a halt or not. -/
def endOf : EStateM.Result Halt Analysis α → Analysis
  | .ok _ s => s
  | .error _ s => s

/-- The end of a run as if no walk were inside any scope. -/
def restOf : EStateM.Result Halt Analysis α → EStateM.Result Halt Analysis α
  | .ok a s => .ok a s.atRest
  | .error halt s => .error halt s.atRest

/-- What the graph keeps, and refusals stay reported. -/
structure Keeps (s s' : Analysis) : Prop where
  graph : s.graph.Keeps s'.graph
  refusals : s.log.count .privateAccess ≤ s'.log.count .privateAccess

protected theorem Keeps.refl {s : Analysis} : s.Keeps s := ⟨.refl, Nat.le_refl _⟩

protected theorem Keeps.trans {s s' s'' : Analysis} (h : s.Keeps s') (h' : s'.Keeps s'') :
    s.Keeps s'' :=
  ⟨h.graph.trans h'.graph, Nat.le_trans h.refusals h'.refusals⟩

theorem endOf_restOf (r : EStateM.Result Halt Analysis α) :
    endOf (restOf r) = (endOf r).atRest := by
  cases r <;> rfl

theorem endOf_bind (x : AnalysisM α) (f : α → AnalysisM β) (s : Analysis) :
    endOf ((x >>= f) s) = match x s with
      | .ok a t => endOf (f a t)
      | .error _ t => t := by
  change endOf (EStateM.bind x f s) = _
  unfold EStateM.bind
  cases x s <;> rfl

/-- What both parts of a run keep, the run keeps. -/
theorem keeps_bind {x : AnalysisM α} {f : α → AnalysisM β}
    (hx : ∀ s : Analysis, s.Keeps (endOf (x s)))
    (hf : ∀ a (s : Analysis), s.Keeps (endOf (f a s))) (s : Analysis) :
    s.Keeps (endOf ((x >>= f) s)) := by
  have hfirst := hx s
  rw [endOf_bind]
  cases hrun : x s with
  | ok a t =>
    rw [hrun] at hfirst
    exact hfirst.trans (hf a t)
  | error halt t =>
    rw [hrun] at hfirst
    exact hfirst

theorem eq_ok_of_restOf {r : EStateM.Result Halt Analysis α} {a : α} {t : Analysis}
    (h : restOf r = restOf (.ok a t)) : ∃ t', r = .ok a t' ∧ t'.atRest = t.atRest := by
  cases r with
  | ok b t' =>
    injection h with hb ht
    exact ⟨t', by rw [hb], ht⟩
  | error => nomatch h

theorem eq_error_of_restOf {r : EStateM.Result Halt Analysis α} {halt : Halt} {t : Analysis}
    (h : restOf r = restOf (.error halt t)) : ∃ t', r = .error halt t' ∧ t'.atRest = t.atRest := by
  cases r with
  | ok => nomatch h
  | error halt' t' =>
    injection h with hhalt ht
    exact ⟨t', by rw [hhalt], ht⟩

/-- The second state is the first one with walks inside more scopes. -/
structure Entered (s s' : Analysis) : Prop where
  atRest : s'.atRest = s.atRest
  isActive : ∀ q, s.graph.isActive q = true → s'.graph.isActive q = true

/-- A run from `s` to `t` has been refused nothing. Paths lead through the given names only, and
none of these is the name of a private import of a scope that is active in `s'` and not in `s`. -/
structure Undisturbed (names : Set String) (s s' t : Analysis) : Prop where
  refusals : t.log.count .privateAccess ≤ s.log.count .privateAccess
  mentions : ∀ name, t.graph.Mentions name → name ∈ names
  imports : ∀ q, s.graph.isActive q = false → s'.graph.isActive q = true →
    ∀ name ∈ names, ¬ t.graph.PrivateImport q name

/-- The state with one more walk inside a scope. -/
def entering (s : Analysis) (q : ScopeId) : Analysis := { s with graph := s.graph.enter q }

theorem Entered.entering (s : Analysis) (q : ScopeId) : s.Entered (s.entering q) where
  atRest := congrArg (fun graph => { s with graph }) (s.graph.atRest_enter q)
  isActive _ hp := Graph.isActive_enter.mpr (.inr hp)

theorem Entered.graph (h : s.Entered s') : s.graph.Entered s'.graph :=
  ⟨congrArg Analysis.graph h.atRest, h.isActive⟩

/-- Conditions on the end of a run hold for the first part of it. -/
theorem Undisturbed.first {e : Analysis} (h : Undisturbed names s s' e) (hkeeps : t.Keeps e) :
    Undisturbed names s s' t where
  refusals := Nat.le_trans hkeeps.refusals h.refusals
  mentions name hname := h.mentions name (hkeeps.graph.mentions hname)
  imports q hq hq' name hname himport :=
    h.imports q hq hq' name hname (hkeeps.graph.privateImport himport)

/-- Conditions on the end of a run hold for the rest of it. -/
theorem Undisturbed.rest {e t' : Analysis} (h : Undisturbed names s s' e) (hkeeps : s.Keeps t)
    (hkeeps' : s'.Keeps t') : Undisturbed names t t' e where
  refusals := Nat.le_trans h.refusals hkeeps.refusals
  mentions := h.mentions
  imports q hq hq' := by
    rw [hkeeps.graph.isActive_eq] at hq
    rw [hkeeps'.graph.isActive_eq] at hq'
    exact h.imports q hq hq'

theorem Entered.keeps {t' : Analysis} (h : s.Entered s') (hkeeps : s.Keeps t)
    (hkeeps' : s'.Keeps t') (hrest : t'.atRest = t.atRest) : t.Entered t' := by
  refine ⟨hrest, fun q hq => ?_⟩
  rw [hkeeps.graph.isActive_eq] at hq
  rw [hkeeps'.graph.isActive_eq]
  exact h.isActive q hq

/-- A name is resolved in the same way, or the answer is a refusal. -/
theorem Entered.lookupPath (h : s.Entered s') (hkeeps : s.graph.Keeps t.graph)
    (hend : Undisturbed names s s' t) (start : ScopeId) {path : QualName}
    (hpath : ∀ name ∈ path.waypoints, name ∈ names) (ns : Namespace) :
    Graph.AgreesOn (s.graph.lookupPath start path ns) (s'.graph.lookupPath start path ns) := by
  have hclear : ∀ name ∈ names, s.graph.Clear s'.graph name := fun name hname =>
    h.graph.clear fun q hq hq' himport =>
      hend.imports q hq hq' name hname (hkeeps.privateImport himport)
  refine h.graph.lookupPath (fun link data hdata name hname => hclear name ?_) start
    (fun name hname => hclear name (hpath name hname)) ns
  refine hend.mentions name (hkeeps.mentions ⟨link, ?_⟩)
  cases hlink : (s.graph.symbol link).data with
  | imported d =>
    simp only [Symbol.imported?, hlink, Option.some.injEq] at hdata
    subst hdata
    exact List.mem_append_right _ hname
  | _ => simp [Symbol.imported?, hlink] at hdata

/-- If `P` is true, the computation does the same while more scopes are active, in runs that are not
disturbed. In any case it takes nothing back. -/
structure Consistent (names : Set String) (P : Prop) (x : AnalysisM α) : Prop where
  keeps : ∀ s : Analysis, s.Keeps (endOf (x s))
  agrees : P → ∀ {s s' : Analysis}, s.Entered s' → Undisturbed names s s' (endOf (x s)) →
    restOf (x s') = restOf (x s)

namespace Consistent

variable {P : Prop}

theorem pure (a : α) : Consistent names P (pure a) :=
  ⟨fun _ => .refl, fun _ {_ _} h _ => congrArg (EStateM.Result.ok a) h.atRest⟩

theorem throw (halt : Halt) : Consistent names P (throw halt : AnalysisM α) :=
  ⟨fun _ => .refl, fun _ {_ _} h _ => congrArg (EStateM.Result.error halt) h.atRest⟩

theorem weaken {Q : Prop} {x : AnalysisM α} (hPQ : P → Q) (hx : Consistent names Q x) :
    Consistent names P x :=
  ⟨hx.keeps, fun hp => hx.agrees (hPQ hp)⟩

theorem bind {x : AnalysisM α} {f : α → AnalysisM β} (hx : Consistent names P x)
    (hf : ∀ a, Consistent names P (f a)) : Consistent names P (x >>= f) where
  keeps := keeps_bind hx.keeps fun a => (hf a).keeps
  agrees hp {s s'} h hend := by
    have hagrees := hx.agrees hp h
    rw [endOf_bind] at hend
    change restOf (EStateM.bind x f s') = restOf (EStateM.bind x f s)
    unfold EStateM.bind
    cases hrun : x s with
    | ok a t =>
      -- what holds at the end of the run holds after `x`, so that `x` does the same in both runs
      have hkeeps : s.Keeps t := by
        have h := hx.keeps s
        rwa [hrun] at h
      simp only [hrun] at hend hagrees
      obtain ⟨t', hrun', hrest⟩ := eq_ok_of_restOf (hagrees (hend.first ((hf a).keeps t)))
      have hkeeps' : s'.Keeps t' := by
        have h := hx.keeps s'
        rwa [hrun'] at h
      rw [hrun']
      exact (hf a).agrees hp (h.keeps hkeeps hkeeps' hrest) (hend.rest hkeeps hkeeps')
    | error halt t =>
      simp only [hrun] at hend hagrees
      obtain ⟨t', hrun', hrest⟩ := eq_error_of_restOf (hagrees hend)
      rw [hrun']
      exact congrArg (EStateM.Result.error halt) hrest

theorem map {x : AnalysisM α} (f : α → β) (hx : Consistent names P x) :
    Consistent names P (f <$> x) := by
  rw [map_eq_pure_bind]
  exact .bind hx fun a => .pure (f a)

theorem ite {c : Prop} [Decidable c] {x y : AnalysisM α} (hx : Consistent names P x)
    (hy : Consistent names P y) : Consistent names P (if c then x else y) := by
  split
  · exact hx
  · exact hy

/-- A computation that may be left out before the next one. -/
theorem optionally {c : Prop} [Decidable c] {x : AnalysisM Unit} {f : Unit → AnalysisM α}
    (hx : Consistent names P x) (hf : ∀ u, Consistent names P (f u)) :
    Consistent names P (if c then x >>= f else f ()) :=
  .ite (.bind hx hf) (hf ())

theorem forM {f : α → AnalysisM Unit} : ∀ {items : List α},
    (∀ a ∈ items, Consistent names P (f a)) → Consistent names P (items.forM f)
  | [], _ => .pure ()
  | a :: _, hf => .bind (hf a List.mem_cons_self) fun _ =>
      .forM fun b hb => hf b (List.mem_cons_of_mem _ hb)

/-- The state is read, but not where walks are. -/
theorem get_bind {f : Analysis → AnalysisM α} (hf : ∀ s : Analysis, f s.atRest = f s)
    (h : ∀ s, Consistent names P (f s)) : Consistent names P (get >>= f) where
  keeps s := (h s).keeps s
  agrees hp {s s'} hentered hend := by
    change restOf (f s' s') = restOf (f s s)
    rw [← hf s', hentered.atRest, hf]
    exact (h s).agrees hp hentered hend

theorem currentGraph_bind {f : Graph → AnalysisM α} (hf : ∀ g, f (g.veiled .rest) = f g)
    (h : ∀ g, Consistent names P (f g)) : Consistent names P (currentGraph >>= f) :=
  .get_bind (f := fun s => f s.graph) (fun s => hf s.graph) fun s => h s.graph

/-- What a symbol mentions is mentioned in the end, too. -/
theorem symbol_bind {x : SymbolId} {f : Symbol → AnalysisM α}
    (h : ∀ a, Consistent names (P ∧ ∀ name ∈ a.data.waypoints, name ∈ names) (f a)) :
    Consistent names P (symbol x >>= f) where
  keeps s := (h (s.graph.symbol x)).keeps s
  agrees hp {s s'} hentered hend := by
    change restOf (f (s'.graph.symbol x) s') = restOf (f (s.graph.symbol x) s)
    rw [hentered.graph.symbol_eq]
    refine (h _).agrees ⟨hp, fun name hname => hend.mentions name ?_⟩ hentered hend
    exact ((h _).keeps s).graph.mentions ⟨x, hname⟩

/-- A name is resolved. If the answer is a refusal, it is reported in the end. -/
theorem lookupPath_bind {start : ScopeId} {path : QualName} {ns : Namespace}
    {k : Lookup → AnalysisM α} (hk : ∀ a, Consistent names P (k a))
    (hrefused : ∀ x (s : Analysis),
      s.log.count .privateAccess < (endOf (k (.hidden x) s)).log.count .privateAccess) :
    Consistent names (P ∧ ∀ name ∈ path.waypoints, name ∈ names)
      (onGraph (·.lookupPath start path ns) >>= k) := by
  have hfirst : ∀ s : Analysis,
      s.Keeps { s with graph := (s.graph.lookupPath start path ns).2 } :=
    fun s => ⟨.lookupPath start path ns, Nat.le_refl _⟩
  refine ⟨keeps_bind hfirst fun a => (hk a).keeps, fun hp {s s'} hentered hend => ?_⟩
  change Undisturbed names s s' (endOf (k (s.graph.lookupPath start path ns).1
    { s with graph := (s.graph.lookupPath start path ns).2 })) at hend
  change restOf (k (s'.graph.lookupPath start path ns).1
      { s' with graph := (s'.graph.lookupPath start path ns).2 }) =
    restOf (k (s.graph.lookupPath start path ns).1
      { s with graph := (s.graph.lookupPath start path ns).2 })
  have hkeeps := (hfirst s).trans ((hk (s.graph.lookupPath start path ns).1).keeps _)
  rcases hentered.lookupPath hkeeps.graph hend start hp.2 ns with ⟨x, hx⟩ | ⟨heq, hgraph⟩
  · -- the rest of the run would report the refusal
    rw [hx] at hend
    have hlt := hrefused x { s with graph := (s.graph.lookupPath start path ns).2 }
    exact absurd hend.refusals (Nat.not_le_of_lt hlt)
  · rw [heq]
    refine (hk _).agrees hp.1 ?_ (hend.rest (hfirst s) (hfirst s'))
    refine hentered.keeps (hfirst s) (hfirst s') ?_
    have hrest : { s'.atRest with graph := (s'.graph.lookupPath start path ns).2.atRest } =
        { s.atRest with graph := (s.graph.lookupPath start path ns).2.atRest } := by
      rw [hentered.atRest, hgraph.atRest]
    exact hrest

theorem modify {f : Analysis → Analysis} (hf : ∀ s : Analysis, f s.atRest = (f s).atRest)
    (h : ∀ s : Analysis, s.Keeps (f s)) : Consistent names P (modify f) where
  keeps s := h s
  agrees _ {s s'} hentered _ := by
    change EStateM.Result.ok _ (f s').atRest = .ok _ (f s).atRest
    rw [← hf, hentered.atRest, hf]

theorem modifyGraph {f : Graph → Graph} (hf : ∀ g, f (g.veiled .rest) = (f g).veiled .rest)
    (h : ∀ g : Graph, g.Keeps (f g)) : Consistent names P (modifyGraph f) :=
  .modify (fun s => congrArg (fun graph => { s with graph }) (hf s.graph))
    fun s => ⟨h s.graph, Nat.le_refl _⟩

theorem onGraph {f : Graph → α × Graph}
    (hf : ∀ g, f (g.veiled .rest) = ((f g).1, (f g).2.veiled .rest))
    (h : ∀ g : Graph, g.Keeps (f g).2) : Consistent names P (onGraph f) where
  keeps s := ⟨h s.graph, Nat.le_refl _⟩
  agrees _ {s s'} hentered _ := by
    have hrun : ∀ s : Analysis, restOf (Analysis.onGraph f s) = Analysis.onGraph f s.atRest := by
      intro s
      change EStateM.Result.ok (f s.graph).1 { s with graph := (f s.graph).2.veiled .rest } =
        .ok (f (s.graph.veiled .rest)).1 { s with graph := (f (s.graph.veiled .rest)).2 }
      rw [hf]
    rw [hrun, hrun, hentered.atRest]

theorem modifyLog {f : Log → Log} (hf : ∀ log, ∃ d, f log = log.push d) :
    Consistent names P (modifyLog f) :=
  .modify (fun _ => rfl) fun s => ⟨.refl, by
    obtain ⟨d, hd⟩ := hf s.log
    change s.log.count _ ≤ (f s.log).count _
    rw [hd]
    exact s.log.count_le_count_push d _⟩

theorem report (span : Span) (p : Problem) : Consistent names P (report span p) :=
  .modifyLog fun _ => ⟨_, rfl⟩

theorem reportWithPrevious (span : Span) (p : Problem) (previous : Span) (note : String) :
    Consistent names P (reportWithPrevious span p previous note) :=
  .modifyLog fun _ => ⟨_, rfl⟩

theorem warn (span : Span) (message : String) : Consistent names P (warn span message) :=
  .modifyLog fun _ => ⟨_, rfl⟩

/-! ### The tree -/

theorem read (id : NodeId) : Consistent names P (read id) := by
  refine .get_bind (fun _ => rfl) fun s => ?_
  split
  · exact .pure _
  · exact .throw _

theorem annotate (id : NodeId) (f : Annotation → Annotation) : Consistent names P (annotate id f) :=
  .bind (.read id) fun _ => .modify (fun _ => rfl) fun _ => ⟨.refl, Nat.le_refl _⟩

theorem setScope (id : NodeId) (scope : ScopeId) : Consistent names P (setScope id scope) :=
  .annotate id _

theorem bindNode (id : NodeId) (x : SymbolId) : Consistent names P (Analysis.bind id x) :=
  .annotate id _

theorem onTree (f : Tree → Except Halt (α × Tree)) : Consistent names P (onTree f) := by
  refine .get_bind (fun _ => rfl) fun s => ?_
  split
  · exact .bind (.modify (fun _ => rfl) fun _ => ⟨.refl, Nat.le_refl _⟩) fun _ => .pure _
  · exact .throw _

/-! ### Declarations -/

theorem alloc (s : Symbol) : Consistent names P (Analysis.onGraph (·.alloc s)) :=
  .onGraph (fun _ => Graph.rest_alloc s) fun _ => .alloc .refl s

theorem declare (scope : ScopeId) (x : SymbolId) : Consistent names P (declare scope x) := by
  refine .bind (.onGraph (fun _ => Graph.veiled_declare scope x) fun _ => .declare scope x)
    fun decision => ?_
  have hreject : ∀ reason existing, Consistent names P (reportRejection x reason existing) := by
    intro reason existing
    refine .modify (fun s => ?_) fun s => ⟨.refl, s.log.count_le_count_push _ _⟩
    change { s.atRest with log := s.log.rejection (s.graph.veiled .rest) x reason existing } =
      { s.atRest with log := s.log.rejection s.graph x reason existing }
    rw [Log.rejection, Log.rejection, Graph.ofRejection_veiled]
    rfl
  split
  · exact .bind (hreject _ _) fun _ => .pure _
  · exact .pure _

end Consistent

end Analysis

/-! ### Declaring the contents of a copied function -/

namespace Declaration

open Analysis

variable {names : Set String} {P : Prop} (ctx : Context)

theorem hostKind_rest (g : Graph) : ctx.hostKind (g.veiled .rest) = ctx.hostKind g := rfl

theorem isMember_rest (g : Graph) : ctx.isMember (g.veiled .rest) = ctx.isMember g := by
  simp [Context.isMember]

theorem variableFlags_rest (g : Graph) (mods : List Modifier) (isEnum : Bool) :
    variableFlags ctx (g.veiled .rest) mods isEnum = variableFlags ctx g mods isEnum := by
  rw [variableFlags, variableFlags, isMember_rest]
  rfl

/-- The walk does the same wherever other walks are. -/
def Walk.Consistent (names : Set String) (P : Prop) (visit : Walk) : Prop :=
  ∀ ctx id, Analysis.Consistent names P (visit ctx id)

theorem openBlock_consistent (id : NodeId) : Consistent names P (openBlock ctx id) :=
  .bind (.onGraph (fun _ => Graph.veiled_newScope _ _) fun _ => .newScope .refl _ _) fun scope =>
    .bind (.setScope id scope) fun _ => .pure _

variable {visit : Walk}

theorem visitModule_consistent (hvisit : visit.Consistent names P) (ctx : Context) (id : NodeId)
    (name : Option QualName) (body : List NodeId) :
    Consistent names P (visitModule visit ctx id name body) :=
  .bind (.onGraph (fun _ => Graph.veiled_openModule _ _) fun _ => .openModule .refl _ _)
    fun scope => .bind (.setScope id scope) fun _ => .forM fun id _ => hvisit _ id

theorem visitUse_consistent (id : NodeId) (span : Span) (path : QualName) (rename : Option String)
    (isPublic : Bool) : Consistent names P (visitUse ctx id span path rename isPublic) :=
  .bind (.alloc _) fun x => .bind (.bindNode id x) fun _ => .map _ (.declare ctx.scope x)

theorem visitType_consistent (hvisit : visit.Consistent names P) (ctx : Context) (id : NodeId)
    (s : Symbol) (members : List NodeId) : Consistent names P (visitType visit ctx id s members) :=
  .bind (.onGraph (fun _ => Graph.veiled_allocType _ _) fun _ => .allocType .refl _ _) fun _ =>
    .bind (.annotate id _) fun _ => .bind (.map _ (.declare _ _)) fun _ =>
      .forM fun id _ => hvisit _ id

theorem visitBody_consistent (hvisit : visit.Consistent names P) (ctx : Context)
    (function : SymbolId) (decl : FnDecl) (scope : ScopeId) :
    Consistent names P (visitBody visit ctx function decl scope) := by
  refine .currentGraph_bind (fun _ => rfl) fun g => ?_
  refine .bind (.forM fun param _ => .map _ (.declare scope param)) fun _ => ?_
  refine .bind (.forM fun id _ => hvisit _ id) fun _ => ?_
  split
  · exact .pure ()
  · refine .bind (.read _) fun node => ?_
    split
    · exact .bind (.setScope _ _) fun _ => .forM fun id _ => hvisit _ id
    · exact hvisit _ _

theorem openFunction_consistent (id : NodeId) (function : SymbolId) (parent : ScopeId)
    (delegate : Option ScopeId) :
    Consistent names P (openFunction id function parent delegate) := by
  refine .bind (.onGraph (fun _ => Graph.veiled_newScope _ _) fun _ => .newScope .refl _ _)
    fun scope => .bind (.modifyGraph (fun g => ?_) fun g => ?_) fun _ =>
      .bind (.setScope id scope) fun _ => .bind (.modifyGraph (fun _ => rfl) fun g => ?_) fun _ =>
        .pure scope
  · exact Graph.veiled_modifyScope scope _ fun _ => rfl
  · exact .modifyScope .refl fun _ => .of_eq rfl rfl rfl
  · exact .modifyData .refl fun data => by cases data <;> rfl

theorem declareSlot_consistent (scope : ScopeId) (role : Role) (x : SymbolId) :
    Consistent names P (declareSlot scope role x) := by
  refine .bind (.onGraph (fun _ => Graph.veiled_declareSlot _ _ _) fun _ => .declareSlot _ _ _)
    fun outcome => .currentGraph_bind (fun _ => rfl) fun g => ?_
  split
  · exact .pure ()
  · exact .pure ()
  · exact .warn _ _
  · exact .report _ _

theorem declareFunction_consistent (place : FnPlace) (role : Role) (span : Span)
    (function : SymbolId) : Consistent names P (declareFunction ctx place role span function) := by
  refine .ite (.pure ()) (.ite (.map _ (.declare _ _)) (.ite ?_ ?_))
  · exact declareSlot_consistent _ _ _
  · exact .bind (.report _ _) fun _ => .map _ (.declare _ _)

theorem visitFunction_consistent (hvisit : visit.Consistent names P) (ctx : Context) (id : NodeId)
    (span : Span) (decl : FnDecl) (isExpr : Bool) :
    Consistent names P (visitFunction visit ctx id span decl isExpr) := by
  refine .currentGraph_bind (fun g => by simp only [isMember_rest, hostKind_rest]) fun g => ?_
  refine .bind (.alloc _) fun function => .bind (.bindNode id function) fun _ => ?_
  refine .bind (declareFunction_consistent _ _ _ _ _) fun _ => ?_
  refine .bind (.onGraph (fun _ => Graph.veiled_allocAll _) fun _ => .allocAll .refl _)
    fun params => .bind (.modifyGraph (fun _ => rfl) fun _ => ?_) fun _ => .ite (.pure ()) ?_
  · exact .modifyData .refl fun data => by cases data <;> rfl
  · exact .bind (openFunction_consistent _ _ _ _) fun scope =>
      visitBody_consistent hvisit _ _ _ _

theorem visitVariables_consistent (hvisit : visit.Consistent names P) (ctx : Context) (id : NodeId)
    (span : Span) (mods : List Modifier) (items : List VarItem) (isEnum : Bool) :
    Consistent names P (visitVariables visit ctx id span mods items isEnum) := by
  refine .currentGraph_bind (fun g => by
    simp only [isMember_rest, variableFlags_rest]) fun g => ?_
  refine .bind (.onGraph (fun _ => Graph.veiled_allocAll _) fun _ => .allocAll .refl _)
    fun symbols => .bind (.annotate id _) fun _ => ?_
  exact .bind (.forM fun x _ => .map _ (.declare _ x)) fun _ => .forM fun id _ => hvisit ctx id

theorem visitNode_consistent (hvisit : visit.Consistent names P) :
    (visitNode visit).Consistent names P := by
  intro ctx id
  refine .bind (.read id) fun node => ?_
  split
  · exact .bind (.setScope _ _) fun _ => .forM fun id _ => hvisit _ id
  · exact visitModule_consistent hvisit _ _ _ _
  · exact visitUse_consistent _ _ _ _ _ _
  · exact visitType_consistent hvisit _ _ _ _
  · exact visitType_consistent hvisit _ _ _ _
  · exact visitType_consistent hvisit _ _ _ _
  · exact visitFunction_consistent hvisit _ _ _ _ _
  · exact visitFunction_consistent hvisit _ _ _ _ _
  · exact visitVariables_consistent hvisit _ _ _ _ _ _
  · exact visitVariables_consistent hvisit _ _ _ _ _ _
  · exact .bind (openBlock_consistent _ _) fun _ => .forM fun id _ => hvisit _ id
  · exact .bind (openBlock_consistent _ _) fun _ => .forM fun id _ => hvisit _ id
  · refine .bind (hvisit _ _) fun _ => .bind (openBlock_consistent _ _) fun inside =>
      .bind (.forM fun ident _ => ?_) fun _ => hvisit _ _
    exact .bind (.alloc _) fun x => .map _ (.declare _ x)
  · exact .forM fun id _ => hvisit _ id

theorem walk_consistent : walk.Consistent names P := by
  have hvisit : ∀ fuel, (visit fuel).Consistent names P := by
    intro fuel
    induction fuel with
    | zero => exact fun _ _ => .throw _
    | succ fuel ih => exact visitNode_consistent ih
  exact fun ctx id => .get_bind (fun _ => rfl) fun s => hvisit _ ctx id

theorem copiedFunction_consistent (function : SymbolId) (id : NodeId) (parent : ScopeId)
    (delegate : Option ScopeId) :
    Consistent names P (copiedFunction function id parent delegate) := by
  refine .bind (.read id) fun node => ?_
  split
  · refine .bind (.bindNode _ _) fun _ => .ite ?_ (.pure ())
    refine .bind (openFunction_consistent _ _ _ _) fun scope => .bind ?_ fun _ =>
      visitBody_consistent walk_consistent _ _ _ _
    exact .modifyGraph (fun _ => Graph.veiled_copyDefaults _ _) fun _ => .copyDefaults _ _
  · exact .pure ()

end Declaration

/-! ### Copying members and checking contracts -/

namespace Hierarchy

open Analysis

variable {names : Set String} {P : Prop}

theorem copyNode_consistent : ∀ id : Option NodeId, Consistent names P (copyNode id)
  | none => .pure none
  | some _ => .get_bind (fun _ => rfl) fun _ => .map _ (.onTree _)

theorem copyMember_consistent (member trait : SymbolId) (name : String) (flags : Flags) :
    Consistent names P (copyMember member trait name flags) := by
  refine .currentGraph_bind (fun _ => rfl) fun g => ?_
  dsimp only
  split
  · exact .bind (.onGraph (fun _ => Graph.veiled_allocAll _) fun _ => .allocAll .refl _) fun _ =>
      .bind (copyNode_consistent _) fun _ => .alloc _
  · exact .bind (copyNode_consistent _) fun _ => .alloc _
  · exact .alloc _

theorem deferConstants_consistent (host function : SymbolId) (id : NodeId) :
    Consistent names P (deferConstants host function id) := by
  refine .get_bind (fun _ => rfl) fun _ => .bind (.onTree _) fun ids => .forM fun id _ => ?_
  refine .bind (.read id) fun node => ?_
  split
  · exact .bind (.annotate _ _) fun _ => .modify (fun _ => rfl) fun _ => ⟨.refl, Nat.le_refl _⟩
  · exact .pure ()

theorem declareCopy_consistent (m : Mixin) (copy : SymbolId) :
    Consistent names P (declareCopy m copy) := by
  refine .currentGraph_bind (fun _ => rfl) fun g => ?_
  dsimp only
  split
  · exact .ite (.bind (Declaration.copiedFunction_consistent _ _ _ _) fun _ =>
      deferConstants_consistent _ _ _) (.pure ())
  · exact .pure ()

theorem copyInto_consistent (m : Mixin) (usage : TraitUsage) (member : SymbolId) :
    Consistent names P (copyInto m usage member) := by
  refine .currentGraph_bind (fun g => by
    simp only [Graph.symbol_rest, Graph.lookupHere?_veiled]) fun g => ?_
  refine .ite (.bind (copyMember_consistent _ _ _ _) fun copy => ?_) (.pure ())
  exact .bind (.declare _ _) fun _ => .ite (declareCopy_consistent _ _) (.pure ())

theorem copyIntoSlot_consistent (m : Mixin) (role : Role) (member : SymbolId) :
    Consistent names P (copyIntoSlot m role member) :=
  .symbol_bind fun _ => .bind (copyMember_consistent _ _ _ _) fun _ =>
    .bind (.modifyGraph (fun _ => Graph.veiled_putSlot _ _ _) fun _ => .putSlot .refl _ _ _)
      fun _ => declareCopy_consistent _ _

theorem copyMembers_consistent (m : Mixin) (usage : TraitUsage) :
    Consistent names P (copyMembers m usage) := by
  have hslots : Consistent names P (copySlots m) := by
    refine .currentGraph_bind (fun g => by simp only [Graph.memberInfo?_veiled]) fun g => ?_
    split
    · exact .pure ()
    · exact .forM fun slot _ => copyIntoSlot_consistent m slot.1 slot.2
  refine .currentGraph_bind (fun g => by
    simp only [Graph.memberIds_veiled, Graph.lookupHere?_veiled]) fun g => ?_
  split
  · exact .bind (.forM fun member _ => copyInto_consistent m usage member) fun _ => hslots
  · split
    · exact copyInto_consistent m usage _
    · exact .report _ _

theorem flatten_consistent (host trait : SymbolId) (usage : TraitUsage) :
    Consistent names P (flatten host trait usage) := by
  refine .currentGraph_bind (fun _ => rfl) fun g => ?_
  split
  · exact copyMembers_consistent _ _
  · exact .pure ()

theorem makeAbstract_consistent (x : SymbolId) :
    Consistent names P (modifyGraph (makeAbstract · x)) :=
  .modifyGraph (fun _ => rfl) fun _ => .modifySymbol .refl rfl

theorem markAbstract_consistent (x : SymbolId) : Consistent names P (markAbstract x) := by
  refine .currentGraph_bind (fun g => by
    simp only [Graph.symbol_rest, Graph.memberFunctions_veiled, Graph.isAbstract_veiled])
    fun g => .ite (.pure ()) (.optionally (makeAbstract_consistent x) fun _ => ?_)
  exact .symbol_bind fun _ => .ite (.report _ _) (.pure ())

theorem verifyContracts_consistent (env : Environment) (x : SymbolId) :
    Consistent names P (verifyContracts env x) := by
  have hstanding : ∀ g obligation standing,
      Consistent names P (reportStanding g obligation standing) := by
    intro g obligation standing
    cases standing with
    | broken => exact .reportWithPrevious _ _ _ _
    | _ => exact .pure ()
  have hview : ∀ g : Graph, reportStanding (g.veiled .rest) = reportStanding g := by
    intro g
    funext obligation standing
    simp only [reportStanding, Graph.symbol_rest, Graph.symbolPath_veiled]
  refine .currentGraph_bind (fun g => by
    simp only [Graph.symbol_rest, Graph.obligations_veiled, Graph.standing_veiled, hview])
    fun g => .ite (.pure ()) ?_
  exact .bind (.forM fun _ _ => hstanding _ _ _) fun _ =>
    .ite (makeAbstract_consistent x) (.pure ())

theorem setResolution_consistent (x : SymbolId) (resolution : Resolution) :
    Consistent names P (setResolution x resolution) :=
  .modifyGraph (fun _ => rfl) fun _ => .modifyData .refl fun data => by cases data <;> rfl

end Hierarchy

end Scoping
