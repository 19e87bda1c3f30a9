import Scoping.Proofs.Graph.Answer
import Scoping.Proofs.Graph.Veil

/-!
# Searches without notes

A search that succeeds notes the use of the symbol. No search reads these notes: `Graph.unmarked`
forgets them, and a search gives the same answer without them. So noting one use changes the answer
to no later search.
-/

namespace Scoping

namespace Graph

section Unmarked

variable (g : Graph)

@[simp]
theorem isRestricted_unmarking (s : Scope) :
    (Veil.unmarking.scope s).isRestricted = s.isRestricted := rfl

@[simp]
theorem isActive_unmarking (s : Scope) : (Veil.unmarking.scope s).isActive = s.isActive := rfl

@[simp]
theorem isClosed_unmarking (s : Scope) : isClosed (Veil.unmarking.scope s) = isClosed s := rfl

@[simp]
theorem restrict_unmarking (s : Scope) : restrict (Veil.unmarking.scope s) = restrict s := rfl

@[simp]
theorem searchOwn_unmarking : (g.veiled .unmarking).searchOwn = g.searchOwn := by
  funext q name ns viaSuper
  simp [searchOwn]

@[simp]
theorem visibleImport?_unmarking : (g.veiled .unmarking).visibleImport? = g.visibleImport? := by
  funext q name skip
  simp [visibleImport?]

@[simp]
theorem itemIn_unmarking : (g.veiled .unmarking).itemIn = g.itemIn := by
  funext q name ns
  simp [itemIn]

end Unmarked

variable {g g' : Graph} {P : Graph → Prop}

/-! ### Searches leave everything but notes alone -/

variable (start : ScopeId)

/-- What holds of a graph and outlasts every note holds after the use of a symbol is noted. -/
theorem capture_induction (x : SymbolId) (hg : P g)
    (hscope : ∀ {g : Graph} (p : ScopeId) (f : Scope → List SymbolId), P g →
      P (g.modifyScope p fun s => { s with captured := f s }))
    (hsymbol : ∀ {g : Graph}, P g → P (g.modifySymbol x fun s => { s with captured := true })) :
    P (g.capture start x) := by
  have hmark : ∀ {g : Graph} (p : ScopeId), P g → P (g.markCaptured x p) := by
    intro g p h
    have heq : g.markCaptured x p = g.modifyScope p fun s =>
        { s with captured := if x ∈ s.captured then s.captured else s.captured ++ [x] } := by
      unfold markCaptured
      congr 1
      funext s
      split <;> rfl
    exact heq ▸ hscope p _ h
  have hrange : ∀ (range : List ScopeId) (g : Graph), P g →
      P (range.foldl (·.markCaptured x) g) := by
    intro range
    induction range with
    | nil => exact fun _ h => h
    | cons p rest ih => exact fun g h => ih _ (hmark p h)
  unfold capture
  split
  · exact hg
  · dsimp only
    split
    · split
      · exact hg
      · exact hsymbol (hrange _ g hg)
    · exact hg

theorem unmarked_capture (x : SymbolId) : (g.capture start x).unmarked = g.unmarked := by
  refine capture_induction (P := fun g' => g'.unmarked = g.unmarked) start x rfl
    (fun p _ h => Eq.trans (modifyScope_veiled (v := .unmarking) p ?_) h)
    fun h => Eq.trans (modifySymbol_veiled (v := .unmarking) x ?_) h
  all_goals exact fun _ => rfl

/-- Noting the use of a symbol touches nothing but the notes about uses. -/
theorem capture_congr (y : SymbolId) :
    (∀ {β : Type} (π : Scope → β), (∀ s captured, π { s with captured } = π s) →
      ∀ q, π ((g.capture start y).scope q) = π (g.scope q)) ∧
    ∀ {β : Type} (π : Symbol → β), (∀ s captured, π { s with captured } = π s) →
      ∀ x, π ((g.capture start y).symbol x) = π (g.symbol x) := by
  have h : (g.capture start y).veiled .unmarking = g.veiled .unmarking := unmarked_capture start y
  exact ⟨fun π hπ => scope_congr_of_veiled h π fun s => hπ s _,
    fun π hπ => symbol_congr_of_veiled h π fun s => hπ s _⟩

/-- Noting the use of a name does not change what it stands for. -/
theorem lookup_fst (name : String) (ns : Option Namespace) :
    (g.lookup start name ns).1 = g.peek start name ns := by
  unfold lookup
  dsimp only
  split <;> rfl

theorem unmarked_lookup (name : String) (ns : Option Namespace) :
    (g.lookup start name ns).2.unmarked = g.unmarked := by
  unfold lookup
  dsimp only
  split
  · exact unmarked_capture start _
  · rfl

/-- Resolving a name notes the use that one search for it notes, or none. -/
theorem lookupPath_snd_eq (path : QualName) (ns : Namespace) : (g.lookupPath start path ns).2 = g ∨
      ∃ ns', (g.lookupPath start path ns).2 = (g.lookup start path.last ns').2 := by
  unfold lookupPath
  split
  · exact .inl rfl
  · split
    · refine .inr ?_
      unfold lookupSingle
      dsimp only
      split
      · split
        all_goals split <;> exact ⟨_, rfl⟩
      · exact ⟨_, rfl⟩
    · exact .inl rfl

/-- All that resolving a name changes are notes about its use. -/
theorem lookupPath_snd (g : Graph) (start : ScopeId) (path : QualName) (ns : Namespace) :
    (g.lookupPath start path ns).2 = g ∨
      ∃ x, (g.lookupPath start path ns).2 = g.capture start x := by
  rcases lookupPath_snd_eq (g := g) start path ns with heq | ⟨ns', heq⟩
  · exact .inl heq
  · rw [heq]
    unfold lookup
    dsimp only
    split
    · exact .inr ⟨_, rfl⟩
    · exact .inl rfl

/-- What outlasts every note holds after a name is resolved. -/
theorem lookupPath_induction (path : QualName) (ns : Namespace) (hg : P g)
    (hscope : ∀ {g : Graph} (p : ScopeId) (f : Scope → List SymbolId), P g →
      P (g.modifyScope p fun s => { s with captured := f s }))
    (hsymbol : ∀ {g : Graph} (x : SymbolId), P g →
      P (g.modifySymbol x fun s => { s with captured := true })) :
    P (g.lookupPath start path ns).2 := by
  rcases lookupPath_snd g start path ns with heq | ⟨x, heq⟩
  · rwa [heq]
  · rw [heq]
    exact capture_induction start x hg hscope (hsymbol x)

theorem unmarked_lookupPath (path : QualName) (ns : Namespace) :
    (g.lookupPath start path ns).2.unmarked = g.unmarked := by
  rcases lookupPath_snd g start path ns with heq | ⟨x, heq⟩
  · rw [heq]
  · rw [heq, unmarked_capture]

section Congr

variable (h : g'.unmarked = g.unmarked)

include h

theorem size_symbols_congr : g'.symbols.size = g.symbols.size :=
  congr_of_veiled (v := .unmarking) h (·.symbols.size) size_symbols_veiled

theorem answers_of_unmarked : Answers Eq g g' (fun _ => True) (fun _ => True) (fun _ => True)
    fun _ => True := by
  have h : g'.veiled .unmarking = g.veiled .unmarking := h
  exact {
    search := fun name ns =>
      { passes := .eq
        own := fun {p} _ viaSuper => (congr_of_veiled h (·.searchOwn p name ns viaSuper)
          (by simp)).symm
        superScope? := fun {p} _ => congr_of_veiled h (·.superScope? p) (by simp)
        super := fun _ _ => trivial
        member := id
        sealed := fun _ => scope_congr_of_veiled h Scope.sealed (fun _ => rfl) _
        parent := fun _ => scope_congr_of_veiled h Scope.parent (fun _ => rfl) _
        delegate := fun _ => scope_congr_of_veiled h Scope.delegate (fun _ => rfl) _
        outward := fun _ _ => trivial }
    item := fun {p} _ name ns => (congr_of_veiled h (·.itemIn p name ns) (by simp)).symm
    onPath := fun _ => trivial
    modules := scope_congr_of_veiled h Scope.modules fun _ => rfl
    imported? := symbol_congr_of_veiled h Symbol.imported? fun _ => rfl
    home := fun x => congr_of_veiled h (fun g => (g.symbol x).scope.bind g.unitOf?) (by simp)
    pathRoots := congr_of_veiled h Graph.pathRoots pathRoots_veiled
    visible := fun _ q skip => congr_of_veiled h (·.visibleImport? q _ skip) (by simp)
    imports := fun _ _ _ => trivial }

theorem peek_congr : g'.peek = g.peek := by
  funext start name ns
  exact (((answers_of_unmarked h).search name ns).search _ trivial).symm

end Congr

/-- The answers of the searches for a plain name, one after the other. -/
theorem lookupSingle_fst (name : String) (ns : Namespace) :
    (g.lookupSingle start name ns).1 = (g.peek start name (some ns)).orElse fun _ =>
      (if ns = .value then g.peek start name (some .internal) else .notFound).orElse fun _ =>
        (g.peek start name (some .imported)).through (g.followImport · ns 1) := by
  unfold lookupSingle
  simp only [lookup_fst]
  cases hdirect : g.peek start name (some ns) with
  | notFound =>
    have hbuiltin : (if ns = .value then g.lookup start name (some .internal)
        else g.lookup start name (some ns)).1 =
        if ns = .value then g.peek start name (some .internal) else .notFound := by
      split
      · exact lookup_fst ..
      · rw [lookup_fst, hdirect]
    simp only [hbuiltin, Lookup.orElse]
    cases hinternal : (if ns = .value then g.peek start name (some .internal)
        else Lookup.notFound) with
    | notFound =>
      cases himport : g.peek start name (some .imported) with
      | found link =>
        exact ((answers_of_unmarked (unmarked_lookup ..)).followImport link ns 1).symm
      | _ => exact (lookup_fst ..).trans himport
    | _ => exact hbuiltin.trans hinternal
  | _ => exact (lookup_fst ..).trans hdirect

/-- Names, plain or qualified. -/
theorem Answers.lookupPath {R : Lookup → Lookup → Prop} {S M T : ScopeId → Prop} {C : String → Prop}
    (h : Answers R g g' S M T C) {start : ScopeId} (hstart : S start) {path : QualName}
    (hpath : ∀ name ∈ path.segments, C name) (ns : Namespace) :
    R (g.lookupPath start path ns).1 (g'.lookupPath start path ns).1 := by
  have hpeek : ∀ ns, R (g.peek start path.last ns) (g'.peek start path.last ns) :=
    fun ns => (h.search _ ns).search _ hstart
  unfold Graph.lookupPath
  split
  · exact h.passes.notFound
  · split
    · rw [lookupSingle_fst, lookupSingle_fst]
      refine h.passes.orElse (hpeek _) (h.passes.orElse ?_ ?_)
      · split
        · exact hpeek _
        · exact h.passes.notFound
      · exact h.passes.through (hpeek _) fun link => h.followImport link ns 1
    · exact h.qualified hpath start path.rooted

/-- What a name stands for does not depend on the notes. -/
theorem lookupPath_congr (h : g'.unmarked = g.unmarked) (start : ScopeId) (path : QualName)
    (ns : Namespace) : (g'.lookupPath start path ns).1 = (g.lookupPath start path ns).1 :=
  ((answers_of_unmarked h).lookupPath trivial (fun _ _ => trivial) ns).symm

end Graph

end Scoping
