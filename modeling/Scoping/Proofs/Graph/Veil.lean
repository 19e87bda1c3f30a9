import Mathlib.Tactic.Simps.Basic
import Scoping.Hierarchy.Resolve
import Scoping.Proofs.Graph.View

/-!
# What the graph says in passing

Scopes count the walks that are inside them, and searches look at private partitions only where
there is one. A search that succeeds notes the use of the symbol, on the symbol and on scopes.
Hardly anything depends on the counts and on the notes: a `Veil` hides some of them, and the
functions below do the same to the graph behind it as to the graph itself. `Graph.atRest` hides the
counts and `Graph.unmarked` hides the notes.
-/

namespace Scoping

/-- The scope as if no walk were inside. -/
def Scope.atRest (s : Scope) : Scope := { s with active := 0 }

/-- The scope without notes about uses. -/
def Scope.unmarked (s : Scope) : Scope := { s with captured := [] }

/-- The symbol without notes about its use. -/
def Symbol.unmarked (s : Symbol) : Symbol := { s with captured := false }

/-- What is shown in place of the counts and the notes. Where nothing is counted or noted, nothing
is to be hidden. -/
structure Veil where
  active : Nat → Nat
  notes : List SymbolId → List SymbolId
  isNoted : Bool → Bool
  symbols : Array Symbol → Array Symbol
  active_zero : active 0 = 0
  notes_nil : notes [] = []
  isNoted_false : isNoted false = false
  symbols_eq : ∀ xs, symbols xs = xs.map fun s => { s with captured := isNoted s.captured }

namespace Veil

@[simps]
def scope (v : Veil) (s : Scope) : Scope :=
  { s with active := v.active s.active, captured := v.notes s.captured }

@[simps]
def symbol (v : Veil) (s : Symbol) : Symbol := { s with captured := v.isNoted s.captured }

/-- Hides the counts. -/
def rest : Veil :=
  ⟨fun _ => 0, id, id, fun xs => xs, rfl, rfl, rfl, fun xs => xs.map_id.symm⟩

/-- Hides the notes. -/
def unmarking : Veil :=
  ⟨id, fun _ => [], fun _ => false, (·.map Symbol.unmarked), rfl, rfl, rfl, fun _ => rfl⟩

variable {v : Veil}

theorem scope_eq_self {s : Scope} (hactive : s.active = 0) (hnotes : s.captured = []) :
    v.scope s = s := by
  cases s
  cases hactive
  cases hnotes
  simp [scope, v.active_zero, v.notes_nil]

@[simp]
theorem kind_symbol (s : Symbol) : (v.symbol s).kind = s.kind := rfl

@[simp]
theorem rest_symbol (s : Symbol) : rest.symbol s = s := rfl

end Veil

namespace Graph

variable {v : Veil} (g : Graph)

/-- The graph as if no walk were inside any scope. -/
def atRest : Graph := { g with scopes := g.scopes.map Scope.atRest }

/-- The graph without notes about uses. -/
def unmarked : Graph :=
  { scopes := g.scopes.map Scope.unmarked, symbols := g.symbols.map Symbol.unmarked }

/-- The graph behind the veil. -/
def veiled (v : Veil) : Graph :=
  { scopes := g.scopes.map v.scope, symbols := v.symbols g.symbols }

variable (q : ScopeId) (x : SymbolId)

@[simp]
theorem size_scopes_veiled : (g.veiled v).scopes.size = g.scopes.size := Array.size_map

@[simp]
theorem size_symbols_veiled : (g.veiled v).symbols.size = g.symbols.size := by
  simp [veiled, v.symbols_eq]

@[simp]
theorem scope_veiled : (g.veiled v).scope q = v.scope (g.scope q) := by
  by_cases hq : q.index < g.scopes.size
  · simp [scope, veiled, hq]
  · simp [scope, veiled, hq]
    exact (Veil.scope_eq_self rfl rfl).symm

@[simp]
theorem symbol_veiled : (g.veiled v).symbol x = v.symbol (g.symbol x) := by
  by_cases hx : x.index < g.symbols.size
  · simp [symbol, veiled, hx, v.symbols_eq, Veil.symbol]
  · simp [symbol, veiled, hx, v.symbols_eq, Veil.symbol, Symbol.blank, Symbol.mkDetached,
      v.isNoted_false]

section Congr

variable {g g' : Graph} (h : g'.veiled v = g.veiled v)

include h

/-- Whatever does not look behind the veil is the same for the two graphs. -/
theorem congr_of_veiled {β : Type} (π : Graph → β) (hπ : ∀ g, π (g.veiled v) = π g) :
    π g' = π g := by
  rw [← hπ, h, hπ]

theorem scope_congr_of_veiled {β : Type} (π : Scope → β) (hπ : ∀ s, π (v.scope s) = π s)
    (q : ScopeId) : π (g'.scope q) = π (g.scope q) :=
  congr_of_veiled h (fun g => π (g.scope q)) fun g => by rw [scope_veiled, hπ]

theorem symbol_congr_of_veiled {β : Type} (π : Symbol → β) (hπ : ∀ s, π (v.symbol s) = π s)
    (x : SymbolId) : π (g'.symbol x) = π (g.symbol x) :=
  congr_of_veiled h (fun g => π (g.symbol x)) fun g => by rw [symbol_veiled, hπ]

/-- An edit that does not look behind the veil keeps the two graphs alike. -/
theorem veiled_congr {f : Graph → Graph} (hf : ∀ g, f (g.veiled v) = (f g).veiled v) :
    (f g').veiled v = (f g).veiled v := by
  rw [← hf, h, hf]

theorem veiled_snd_congr {α : Type} {f : Graph → α × Graph}
    (hf : ∀ g, f (g.veiled v) = ((f g).1, (f g).2.veiled v)) :
    (f g').2.veiled v = (f g).2.veiled v :=
  veiled_congr h (f := fun g => (f g).2) fun g => by rw [hf]

end Congr

/-! ### Enclosing scopes -/

@[simp]
theorem owner_veiled : (g.veiled v).owner = g.owner := by
  funext p
  simp [owner]

@[simp]
theorem isRoot_veiled : (g.veiled v).isRoot = g.isRoot := by
  funext p
  simp [isRoot]

@[simp]
theorem superScope?_veiled : (g.veiled v).superScope? = g.superScope? := by
  funext p
  simp [superScope?, memberInfo?]

@[simp]
theorem outward?_veiled : (g.veiled v).outward? = g.outward? := by
  funext p
  simp [outward?]

@[simp]
theorem enclosing_veiled : (g.veiled v).enclosing = g.enclosing := by
  have hwithin : ∀ fuel q, (g.veiled v).enclosingWithin fuel q = g.enclosingWithin fuel q := by
    intro fuel
    induction fuel with
    | zero => intro q; rfl
    | succ fuel ih => intro q; simp [enclosingWithin, ih]
  funext p
  simp [enclosing, hwithin]

@[simp]
theorem rootOf_veiled : (g.veiled v).rootOf = g.rootOf := by
  funext p
  simp [rootOf]

@[simp]
theorem unitOf?_veiled : (g.veiled v).unitOf? = g.unitOf? := by
  funext p
  simp [unitOf?]

@[simp]
theorem pathRoots_veiled : (g.veiled v).pathRoots = g.pathRoots := by
  have hwithin : ∀ fuel p, (g.veiled v).rootsWithin fuel p = g.rootsWithin fuel p := by
    intro fuel
    induction fuel with
    | zero => intro p; rfl
    | succ fuel ih => intro p; simp [rootsWithin, ih]
  funext start rooted
  simp [pathRoots, hwithin]

/-! ### Decisions -/

@[simp]
theorem effectiveFlags_veiled : (g.veiled v).effectiveFlags = g.effectiveFlags := by
  funext q flags
  simp [effectiveFlags]

@[simp]
theorem reach_veiled : (g.veiled v).reach = g.reach := by
  funext target
  refine reach_congr (by simp) (fun q => ?_) (fun q => ?_) (fun q => ?_) ?_ <;> simp

@[simp]
theorem decide_veiled : (g.veiled v).decide = g.decide := by
  have hmanaged : (g.veiled v).managedIn? = g.managedIn? := by
    funext x name q
    simp [managedIn?]
  have hoccupant : (g.veiled v).occupant? = g.occupant? := by
    funext reach ns name
    simp [occupant?]
  funext target x
  simp [decide, decideAgainst, hmanaged, hoccupant]

@[simp]
theorem placeFor_veiled : (g.veiled v).placeFor = g.placeFor := by
  funext target flags
  simp [placeFor]

/-! ### Edits -/

variable {g}

theorem veiled_modifyScope (f : Scope → Scope) (hf : ∀ s, f (v.scope s) = v.scope (f s)) :
    (g.veiled v).modifyScope q f = (g.modifyScope q f).veiled v := by
  refine ext_of_view (by simp) (by simp) (fun p => ?_) fun y => by simp
  simp only [scope_modifyScope, scope_veiled, size_scopes_veiled]
  split
  · exact hf _
  · rfl

theorem veiled_modifySymbol (f : Symbol → Symbol) (hf : ∀ s, f (v.symbol s) = v.symbol (f s)) :
    (g.veiled v).modifySymbol x f = (g.modifySymbol x f).veiled v := by
  refine ext_of_view (by simp) (by simp) (fun p => by simp) fun y => ?_
  simp only [symbol_modifySymbol, symbol_veiled, size_symbols_veiled]
  split
  · exact hf _
  · rfl

/-- An edit behind the veil does not show. -/
theorem modifyScope_veiled {f : Scope → Scope} (hf : ∀ s, v.scope (f s) = v.scope s) :
    (g.modifyScope q f).veiled v = g.veiled v := by
  refine ext_of_view (by simp) (by simp) (fun p => ?_) fun y => by simp
  rw [scope_veiled, scope_veiled]
  exact scope_modifyScope_congr v.scope _ _ hf

theorem modifySymbol_veiled {f : Symbol → Symbol} (hf : ∀ s, v.symbol (f s) = v.symbol s) :
    (g.modifySymbol x f).veiled v = g.veiled v := by
  refine ext_of_view (by simp) (by simp) (fun p => by simp) fun y => ?_
  rw [symbol_veiled, symbol_veiled]
  exact symbol_modifySymbol_congr v.symbol _ _ hf

theorem veiled_pushScope {s : Scope} (hactive : s.active = 0) (hnotes : s.captured = []) :
    (g.veiled v).pushScope s = ((g.pushScope s).1, (g.pushScope s).2.veiled v) := by
  simp [pushScope, veiled, Veil.scope_eq_self hactive hnotes]

theorem veiled_newScope (kind : ScopeKind) (parent : Option ScopeId) :
    (g.veiled v).newScope kind parent =
      ((g.newScope kind parent).1, (g.newScope kind parent).2.veiled v) := by
  unfold newScope
  split
  · simp only [size_scopes_veiled, veiled_pushScope]
  · exact veiled_pushScope rfl rfl

theorem veiled_newMemberScope (host : SymbolId) (parent : ScopeId) :
    (g.veiled v).newMemberScope host parent =
      ((g.newMemberScope host parent).1, (g.newMemberScope host parent).2.veiled v) := by
  simp only [newMemberScope, veiled_newScope]
  rw [veiled_modifyScope]
  exact fun _ => rfl

theorem veiled_alloc (s : Symbol) :
    (g.veiled v).alloc (v.symbol s) = ((g.alloc s).1, (g.alloc s).2.veiled v) := by
  simp [alloc, veiled, v.symbols_eq, Veil.symbol]

theorem veiled_place : (g.veiled v).place q x = (g.place q x).veiled v := by
  simp only [place, symbol_veiled]
  rw [veiled_modifyScope, veiled_modifySymbol]
  · rfl
  all_goals exact fun _ => rfl

theorem veiled_complete (old : SymbolId) :
    (g.veiled v).complete x old = (g.complete x old).veiled v := by
  simp only [complete, symbol_veiled, Veil.symbol_scope]
  split
  · rw [veiled_modifySymbol]
    exact fun _ => rfl
  · rw [veiled_modifyScope, veiled_modifySymbol, owner_veiled, veiled_modifyScope,
      veiled_modifySymbol]
    · rfl
    all_goals exact fun _ => rfl

theorem veiled_declare (target : ScopeId) (x : SymbolId) :
    (g.veiled v).declare target x =
      ((g.declare target x).1, (g.declare target x).2.veiled v) := by
  have happly : ∀ (g : Graph) (target : ScopeId) (decision : Decision),
      (g.veiled v).apply target x decision = (g.apply target x decision).veiled v := by
    intro g target decision
    cases decision with
    | add shadows =>
      simp only [apply, placeFor_veiled, symbol_veiled, veiled_place, Veil.symbol_flags]
      split
      · exact veiled_modifyScope target _ fun _ => rfl
      · rfl
    | replace old => exact veiled_complete x old
    | keep => rfl
    | reject => rfl
  simp only [declare, owner_veiled, symbol_veiled, effectiveFlags_veiled, Veil.symbol_flags]
  rw [veiled_modifySymbol, decide_veiled, happly]
  exact fun _ => rfl

/-! ### Members -/

section Members

variable (g)

theorem symbol_rest : (g.veiled .rest).symbol x = g.symbol x := rfl

@[simp]
theorem memberInfo?_veiled : (g.veiled .rest).memberInfo? = g.memberInfo? := by
  funext p
  simp [memberInfo?]

@[simp]
theorem modulePath_veiled : (g.veiled .rest).modulePath = g.modulePath := by
  funext p
  simp [modulePath, moduleNames]

@[simp]
theorem symbolPath_veiled : (g.veiled .rest).symbolPath = g.symbolPath := by
  have hwithin : ∀ fuel x,
      (g.veiled .rest).symbolPathWithin fuel x = g.symbolPathWithin fuel x := by
    intro fuel
    induction fuel with
    | zero => intro x; rfl
    | succ fuel ih => intro x; simp [symbolPathWithin, ih]
  funext x
  simp [symbolPath, hwithin]

@[simp]
theorem isAncestor_veiled : (g.veiled .rest).isAncestor = g.isAncestor := by
  have hwithin : ∀ ancestor fuel start, (g.veiled .rest).isAncestorWithin ancestor fuel start =
      g.isAncestorWithin ancestor fuel start := by
    intro ancestor fuel
    induction fuel with
    | zero => intro start; rfl
    | succ fuel ih =>
      intro start
      cases start <;> simp [isAncestorWithin, ih]
  funext ancestor p
  simp [isAncestor, hwithin]

@[simp]
theorem captureRange_veiled (owner : ScopeId) (fuel : Nat) (p : ScopeId) :
    (g.veiled .rest).captureRange owner fuel p = g.captureRange owner fuel p := by
  induction fuel generalizing p with
  | zero => rfl
  | succ fuel ih => simp [captureRange, ih]

@[simp]
theorem membersOf?_veiled : (g.veiled .rest).membersOf? = g.membersOf? := rfl

@[simp]
theorem isAbstract_veiled : (g.veiled .rest).isAbstract = g.isAbstract := rfl

@[simp]
theorem paramsOf_veiled : (g.veiled .rest).paramsOf = g.paramsOf := rfl

@[simp]
theorem lookupHere?_veiled : (g.veiled .rest).lookupHere? = g.lookupHere? := by
  funext q name ns
  simp [lookupHere?]

@[simp]
theorem memberIds_veiled : (g.veiled .rest).memberIds = g.memberIds := by
  funext host
  simp [memberIds]

@[simp]
theorem memberFunctions_veiled : (g.veiled .rest).memberFunctions = g.memberFunctions := by
  funext host
  simp [memberFunctions, slotIds]

@[simp]
theorem obligations_veiled : (g.veiled .rest).obligations = g.obligations := by
  have hinterface : ∀ fuel, (g.veiled .rest).addInterface fuel = g.addInterface fuel := by
    intro fuel
    induction fuel with
    | zero => rfl
    | succ fuel ih =>
      funext duties x
      simp [addInterface, superInterfaces, ih]
  have hclass : (g.veiled .rest).addClass = g.addClass := by
    funext isFirst x data duties
    simp [addClass, hinterface]
  have hclasses : ∀ root fuel, (g.veiled .rest).addClasses root fuel = g.addClasses root fuel := by
    intro root fuel
    induction fuel with
    | zero => rfl
    | succ fuel ih =>
      funext isFirst duties next
      cases next with
      | none => rfl
      | some x => simp [addClasses, hclass, superclass?, ih]
  funext root x
  simp [obligations, hclasses]

@[simp]
theorem standing_veiled : (g.veiled .rest).standing = g.standing := by
  have hfrom : ∀ name fuel q,
      (g.veiled .rest).implementationFrom? name fuel q = g.implementationFrom? name fuel q := by
    intro name fuel
    induction fuel with
    | zero => intro q; rfl
    | succ fuel ih =>
      intro q
      cases q <;> simp [implementationFrom?, ih]
  funext x obligation
  simp [standing, implementation?, hfrom, mismatch?]

@[simp]
theorem ofRejection_veiled : Problem.ofRejection (g.veiled .rest) = Problem.ofRejection g := by
  funext x reason existing
  simp [Problem.ofRejection]

@[simp]
theorem declaringScope_veiled :
    Hierarchy.declaringScope (g.veiled .rest) = Hierarchy.declaringScope g := by
  funext x
  simp [Hierarchy.declaringScope]

end Members

theorem veiled_modifyMember (f : MemberInfo → MemberInfo) :
    (g.veiled .rest).modifyMember q f = (g.modifyMember q f).veiled .rest :=
  veiled_modifyScope q (·.mapMember f) fun _ => rfl

theorem rest_modifySymbol (f : Symbol → Symbol) :
    (g.veiled .rest).modifySymbol x f = (g.modifySymbol x f).veiled .rest := rfl

theorem veiled_modifyData (f : SymbolData → SymbolData) :
    (g.veiled .rest).modifyData x f = (g.modifyData x f).veiled .rest := rfl

theorem rest_alloc (s : Symbol) :
    (g.veiled .rest).alloc s = ((g.alloc s).1, (g.alloc s).2.veiled .rest) := rfl

theorem veiled_allocAll (symbols : List Symbol) :
    (g.veiled .rest).allocAll symbols =
      ((g.allocAll symbols).1, (g.allocAll symbols).2.veiled .rest) := by
  induction symbols generalizing g with
  | nil => rfl
  | cons s rest ih => simp only [allocAll, rest_alloc, ih]

theorem veiled_allocType (parent : ScopeId) (s : Symbol) :
    (g.veiled .rest).allocType parent s =
      ((g.allocType parent s).1, (g.allocType parent s).2.veiled .rest) := by
  simp only [allocType, rest_alloc, veiled_newMemberScope, veiled_modifyData]

theorem veiled_subModule (parent : ScopeId) (name : String) :
    (g.veiled .rest).subModule parent name =
      ((g.subModule parent name).1, (g.subModule parent name).2.veiled .rest) := by
  simp only [subModule, scope_veiled, Veil.scope_modules]
  split
  · rfl
  · rw [veiled_newScope]
    dsimp only
    rw [veiled_modifyScope, veiled_modifyScope]
    all_goals exact fun _ => rfl

theorem veiled_openModule (name : Option QualName) : (g.veiled .rest).openModule q name =
      ((g.openModule q name).1, (g.openModule q name).2.veiled .rest) := by
  have hopen : ∀ (names : List String) (g : Graph) (start : ScopeId),
      (g.veiled .rest).openModules start names =
        ((g.openModules start names).1, (g.openModules start names).2.veiled .rest) := by
    intro names
    induction names with
    | nil => intro g start; rfl
    | cons name rest ih =>
      intro g start
      simp only [openModules, List.foldl_cons] at ih ⊢
      rw [veiled_subModule]
      exact ih _ _
  unfold openModule
  cases name with
  | none => simp
  | some path => simp only [unitOf?_veiled, rootOf_veiled, hopen]

theorem veiled_putSlot (role : Role) (x : SymbolId) :
    (g.veiled .rest).putSlot q role x = (g.putSlot q role x).veiled .rest := by
  simp only [putSlot, symbol_rest, veiled_modifyMember, rest_modifySymbol]

theorem veiled_declareSlot (role : Role) (x : SymbolId) : (g.veiled .rest).declareSlot q role x =
      ((g.declareSlot q role x).1, (g.declareSlot q role x).2.veiled .rest) := by
  simp only [declareSlot, effectiveFlags_veiled, rest_modifySymbol, memberInfo?_veiled,
    symbol_rest]
  split
  · rfl
  · split
    · rw [veiled_putSlot]
    · split
      · rw [veiled_putSlot, drop, rest_modifySymbol, veiled_modifyScope]
        · rfl
        · exact fun _ => rfl
      · rfl

theorem veiled_capture (start : ScopeId) (x : SymbolId) :
    (g.veiled .rest).capture start x = (g.capture start x).veiled .rest := by
  have hmark : ∀ (range : List ScopeId) (g : Graph),
      range.foldl (·.markCaptured x) (g.veiled .rest) =
        (range.foldl (·.markCaptured x) g).veiled .rest := by
    intro range
    induction range with
    | nil => intro g; rfl
    | cons q rest ih =>
      intro g
      rw [List.foldl_cons, List.foldl_cons, ← ih, markCaptured, markCaptured, veiled_modifyScope]
      intro s
      rw [apply_ite Veil.rest.scope]
      rfl
  simp only [capture, symbol_rest, scope_veiled, Veil.scope_kind, isAncestor_veiled,
    captureRange_veiled, size_scopes_veiled, hmark, rest_modifySymbol]
  split
  · rfl
  · split
    · split <;> rfl
    · rfl

theorem veiled_linkSuper (members : ScopeId) (super : SymbolId) :
    Hierarchy.linkSuper (g.veiled .rest) x members super =
      (Hierarchy.linkSuper g x members super).veiled .rest := by
  simp only [Hierarchy.linkSuper, membersOf?_veiled, veiled_modifyMember, veiled_modifyData]

theorem veiled_copyDefaults (params : List Param) :
    Declaration.copyDefaults (g.veiled .rest) x params =
      (Declaration.copyDefaults g x params).veiled .rest := by
  unfold Declaration.copyDefaults
  rw [paramsOf_veiled]
  generalize (g.paramsOf x).zip params = pairs
  induction pairs generalizing g with
  | nil => rfl
  | cons pair rest ih =>
    rw [List.foldl_cons, List.foldl_cons, ← ih]
    rfl

/-- What every default value that is given keeps. -/
theorem copyDefaults_induction {P : Graph → Prop} {f : SymbolId} {params : List Param} (h : P g)
    (setInit : ∀ g' x, x ∈ g.paramsOf f → ∀ param ∈ params, P g' →
      P (g'.modifyData x (·.mapVar fun v => { v with init := param.default }))) :
    P (Declaration.copyDefaults g f params) :=
  List.foldlRecOn _ _ h fun g' hg' pair hpair =>
    setInit g' pair.1 (List.of_mem_zip hpair).1 pair.2 (List.of_mem_zip hpair).2 hg'

end Graph

end Scoping
