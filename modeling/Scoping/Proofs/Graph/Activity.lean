import Scoping.Proofs.Graph.Privacy
import Scoping.Proofs.Graph.Veil

/-!
# Searches and active scopes

A scope that is active shows its private symbols, so that the answer to a search depends on the
scopes that are active. `Graph.Entered.lookupPath` says how little: if more scopes are active, the
answer is the same unless it was the refusal of a private symbol, or a private import of one of
these scopes is among the names that the path leads through.

`Graph.Keeps` says what the resolution of types never undoes, so that conditions on its end hold all
along.
-/

namespace Scoping

/-! ### Paths -/

/-- The names that a path leads through. A plain name is searched for in another way. -/
def QualName.waypoints (q : QualName) : List String := if q.isSingle then [] else q.segments

/-- The paths that are written in a declaration, imports aside. -/
def SymbolData.paths : SymbolData → List QualName
  | .fn _ => []
  | .var data =>
    match data.hint with
    | some (.named path _) => [.parse path]
    | _ => []
  | .cls data => (data.super.toList ++ data.interfaces).map TypeRef.path ++
      data.traits.map (·.trait.path)
  | .trait data => data.traits.map (·.trait.path)
  | .iface data => data.interfaces.map TypeRef.path
  | .imported _ => []

/-- The names that the paths of a declaration lead through. -/
def SymbolData.waypoints (data : SymbolData) : List String :=
  data.paths.flatMap QualName.waypoints ++
    match data with
    | .imported data => data.path.segments
    | _ => []

theorem SymbolData.mem_waypoints {data : SymbolData} {path : QualName} (hpath : path ∈ data.paths)
    {name : String} (hname : name ∈ path.waypoints) : name ∈ data.waypoints :=
  List.mem_append_left _ (List.mem_flatMap_of_mem hpath hname)

namespace Graph

/-- A path that is written somewhere leads through the name. -/
def Mentions (g : Graph) (name : String) : Prop := ∃ x, name ∈ (g.symbol x).data.waypoints

theorem mentions_iff {g : Graph} {name : String} :
    g.Mentions name ↔ ∃ s ∈ g.symbols.toList, name ∈ s.data.waypoints := by
  constructor
  · rintro ⟨x, hname⟩
    cases hs : g.symbols[x.index]? with
    | none =>
      have hx : g.symbol x = .blank := by simp [symbol, hs]
      have hblank : Symbol.blank.data.waypoints = [] := rfl
      simp [hx, hblank] at hname
    | some s =>
      have hx : g.symbol x = s := by simp [symbol, hs]
      exact ⟨s, Array.mem_toList_iff.mpr (Array.mem_of_getElem? hs), hx ▸ hname⟩
  · rintro ⟨s, hs, hname⟩
    obtain ⟨i, hi⟩ := Array.getElem?_of_mem (Array.mem_toList_iff.mp hs)
    have hx : g.symbol ⟨i⟩ = s := by simp [symbol, hi]
    exact ⟨⟨i⟩, hx ▸ hname⟩

instance (g : Graph) (name : String) : Decidable (g.Mentions name) :=
  decidable_of_iff _ mentions_iff.symm

/-- The partition of the scope lists an import of that name. -/
def PrivateImport (g : Graph) (q : ScopeId) (name : String) : Prop :=
  ∃ inner, (g.scope q).inner = some inner ∧ (g.scope inner).table.get? .imported name ≠ none

end Graph

/-! ### What is never undone -/

/-- Walks stay where they are, the partition stays, and names stay taken. -/
structure Scope.Keeps (s s' : Scope) : Prop where
  active : s'.active = s.active
  inner : ∀ {p}, s.inner = some p → s'.inner = some p
  listed : ∀ {ns name}, s'.table.get? ns name = none → s.table.get? ns name = none

namespace Scope.Keeps

variable {s s' s'' : Scope}

protected theorem refl : s.Keeps s := ⟨rfl, id, id⟩

protected theorem trans (h : s.Keeps s') (h' : s'.Keeps s'') : s.Keeps s'' :=
  ⟨h'.active.trans h.active, fun hp => h'.inner (h.inner hp),
    fun hfree => h.listed (h'.listed hfree)⟩

theorem of_eq (hactive : s'.active = s.active) (hinner : s'.inner = s.inner)
    (htable : s'.table = s.table) : s.Keeps s' :=
  ⟨hactive, fun hp => hinner.trans hp, fun hfree => by rwa [htable] at hfree⟩

end Scope.Keeps

namespace Graph

theorem data_lookupPath (g : Graph) (start : ScopeId) (path : QualName) (ns : Namespace)
    (x : SymbolId) : ((g.lookupPath start path ns).2.symbol x).data = (g.symbol x).data := by
  rcases lookupPath_snd g start path ns with heq | ⟨y, heq⟩
  · rw [heq]
  · rw [heq]
    exact (capture_congr start y).2 Symbol.data (fun _ _ => rfl) x

variable {g : Graph}

/-- An edit of a symbol is determined by what it makes of that symbol. -/
theorem modifyData_congr {x : SymbolId} {f f' : SymbolData → SymbolData}
    (h : f (g.symbol x).data = f' (g.symbol x).data) : g.modifyData x f = g.modifyData x f' := by
  unfold modifyData modifySymbol
  congr 1
  refine Array.ext_getElem? fun i => ?_
  rw [Array.getElem?_modify, Array.getElem?_modify]
  by_cases hi : x.index = i
  · subst hi
    cases hs : g.symbols[x.index]? with
    | none => rfl
    | some s =>
      have hx : g.symbol x = s := by simp [symbol, hs]
      rw [hx] at h
      simp [h]
  · rw [if_neg hi, if_neg hi]

/-- Walks stay where they are, partitions stay, names stay taken, and paths stay written. -/
structure Keeps (g g' : Graph) : Prop where
  scope : ∀ q, (g.scope q).Keeps (g'.scope q)
  waypoints : ∀ {x name}, name ∈ (g.symbol x).data.waypoints → name ∈ (g'.symbol x).data.waypoints

namespace Keeps

variable {g g' g'' : Graph}

protected theorem refl : g.Keeps g := ⟨fun _ => .refl, id⟩

protected theorem trans (h : g.Keeps g') (h' : g'.Keeps g'') : g.Keeps g'' :=
  ⟨fun q => (h.scope q).trans (h'.scope q), fun hname => h'.waypoints (h.waypoints hname)⟩

variable (h : g.Keeps g')

include h

theorem isActive_eq (q : ScopeId) : g'.isActive q = g.isActive q := by
  rw [isActive, isActive, Scope.isActive, Scope.isActive, (h.scope q).active]

theorem mentions {name : String} (hname : g.Mentions name) : g'.Mentions name :=
  hname.imp fun _ => h.waypoints

variable {q : ScopeId}

theorem privateImport {name : String} (hq : g.PrivateImport q name) : g'.PrivateImport q name := by
  obtain ⟨inner, hinner, hlisted⟩ := hq
  exact ⟨inner, (h.scope q).inner hinner, fun hfree => hlisted ((h.scope inner).listed hfree)⟩

theorem modifyScope {f : Scope → Scope}
    (hf : ∀ s : Scope, s.Keeps (f s)) : g.Keeps (g'.modifyScope q f) :=
  h.trans ⟨scope_modifyScope_rel Scope.Keeps (fun _ => .refl) (hf _), id⟩

theorem modifyMember {f : MemberInfo → MemberInfo} : g.Keeps (g'.modifyMember q f) :=
  h.modifyScope fun _ => .of_eq rfl rfl rfl

theorem modifySymbol {x : SymbolId} {f : Symbol → Symbol}
    (hf : (f (g'.symbol x)).data.waypoints = (g'.symbol x).data.waypoints) :
    g.Keeps (g'.modifySymbol x f) := by
  refine h.trans ⟨fun _ => .refl, fun {y name} hname => ?_⟩
  exact symbol_modifySymbol_rel
    (fun s s' => name ∈ s.data.waypoints → name ∈ s'.data.waypoints) (fun _ => id)
    (fun hname => by rwa [hf]) y hname

theorem modifyData {x : SymbolId} {f : SymbolData → SymbolData}
    (hf : ∀ data : SymbolData, (f data).waypoints = data.waypoints) : g.Keeps (g'.modifyData x f) :=
  h.modifySymbol (hf _)

theorem pushScope {s : Scope} (hs : Scope.blank.Keeps s) : g.Keeps (g'.pushScope s).2 := by
  refine h.trans ⟨fun q => ?_, id⟩
  rw [scope_pushScope]
  split
  next hq =>
    rw [scope_of_size_le (Nat.le_of_eq hq.symm)]
    exact hs
  next => exact .refl

theorem newScope (kind : ScopeKind) (parent : Option ScopeId) :
    g.Keeps (g'.newScope kind parent).2 := by
  have hblank : ∀ kind parent inner sealed outer,
      Scope.blank.Keeps { kind, parent, inner, sealed, outer } :=
    fun _ _ _ _ _ => ⟨rfl, (fun h => nomatch h), id⟩
  unfold Graph.newScope
  split
  · exact (h.pushScope (hblank _ _ _ _ _)).pushScope (hblank _ _ _ _ _)
  · exact h.pushScope (hblank _ _ _ _ _)

theorem newMemberScope (host : SymbolId) (parent : ScopeId) :
    g.Keeps (g'.newMemberScope host parent).2 :=
  (h.newScope .member (some parent)).modifyScope fun _ => .of_eq rfl rfl rfl

theorem alloc (s : Symbol) : g.Keeps (g'.alloc s).2 := by
  refine h.trans ⟨fun _ => .refl, fun {x name} hname => ?_⟩
  rw [symbol_alloc]
  split
  next hx =>
    -- a symbol that was never allocated mentions nothing
    rw [symbol_of_size_le (Nat.le_of_eq hx.symm)] at hname
    cases hname
  next => exact hname

theorem allocAll (symbols : List Symbol) : g.Keeps (g'.allocAll symbols).2 := by
  induction symbols generalizing g' with
  | nil => exact h
  | cons s rest ih => exact ih (h.alloc s)

theorem allocType (parent : ScopeId) (s : Symbol) : g.Keeps (g'.allocType parent s).2 :=
  ((h.alloc s).newMemberScope ⟨g'.symbols.size⟩ parent).modifyData fun data => by
    cases data <;> rfl

theorem subModule (parent : ScopeId) (name : String) : g.Keeps (g'.subModule parent name).2 := by
  simp only [Graph.subModule]
  split
  · exact h
  · refine .modifyScope (.modifyScope (h.newScope .module (some parent)) ?_) ?_
    all_goals exact fun _ => .of_eq rfl rfl rfl

theorem openModule (q : ScopeId) (name : Option QualName) : g.Keeps (g'.openModule q name).2 :=
  openModule_induction q name h fun _ start name h => h.subModule start name

theorem putSlot (q : ScopeId) (role : Role) (x : SymbolId) : g.Keeps (g'.putSlot q role x) :=
  h.modifyMember.modifySymbol rfl

omit h

theorem declareSlot (q : ScopeId) (role : Role) (x : SymbolId) :
    g.Keeps (g.declareSlot q role x).2 where
  scope p := .of_eq (scope_declareSlot_congr Scope.active (fun _ _ _ => rfl) p)
    (scope_declareSlot_congr Scope.inner (fun _ _ _ => rfl) p)
    (scope_declareSlot_congr Scope.table (fun _ _ _ => rfl) p)
  waypoints hname := by rwa [data_declareSlot]

theorem declare (target : ScopeId) (x : SymbolId) : g.Keeps (g.declare target x).2 := by
  refine declare_induction (P := g.Keeps) ?_ (fun g' p f hf h => ?_) (fun _ _ h => ?_)
    fun _ _ h => ?_
  · exact .modifySymbol .refl rfl
  · refine h.modifyScope fun s => ?_
    obtain ⟨table, dropped, shadowed, heq⟩ := (hf s).rest
    exact ⟨by rw [heq], fun hp => by rw [heq, hp], (hf s).listed⟩
  all_goals exact .modifySymbol h rfl

theorem capture (start : ScopeId) (x : SymbolId) : g.Keeps (g.capture start x) := by
  obtain ⟨hscope, hsymbol⟩ := capture_congr (g := g) start x
  refine ⟨fun q => .of_eq (hscope Scope.active (fun _ _ => rfl) q)
    (hscope Scope.inner (fun _ _ => rfl) q) (hscope Scope.table (fun _ _ => rfl) q),
    fun hname => ?_⟩
  rwa [hsymbol Symbol.data fun _ _ => rfl]

theorem lookupPath (start : ScopeId) (path : QualName) (ns : Namespace) :
    g.Keeps (g.lookupPath start path ns).2 := by
  rcases lookupPath_snd g start path ns with heq | ⟨x, heq⟩
  · rw [heq]
    exact .refl
  · rw [heq]
    exact .capture start x

theorem linkSuper (x : SymbolId) (members : ScopeId) (super : SymbolId) :
    g.Keeps (Hierarchy.linkSuper g x members super) := by
  simp only [Hierarchy.linkSuper]
  refine .modifyData (.modifyMember .refl) fun data => ?_
  cases data with
  | cls data =>
    cases hsuper : data.super <;>
      simp [SymbolData.waypoints, SymbolData.paths, SymbolData.mapClass, hsuper]
  | _ => rfl

theorem copyDefaults (x : SymbolId) (params : List Param) :
    g.Keeps (Declaration.copyDefaults g x params) := by
  refine copyDefaults_induction (P := g.Keeps) .refl fun _ _ _ _ _ h => .modifyData h fun data => ?_
  cases data <;> rfl

end Keeps

theorem map_setTarget {β : Type} {target : SymbolId} (f : TypeRef → β)
    (hf : ∀ ref : TypeRef, f { ref with target := some target } = f ref) (refs : List TypeRef)
    (index : Nat) : (Hierarchy.setTarget refs index target).map f = refs.map f := by
  refine List.ext_getElem? fun i => ?_
  simp only [Hierarchy.setTarget, List.getElem?_map, List.getElem?_modify]
  cases refs[i]? with
  | none => rfl
  | some ref =>
    simp only [Option.map_some]
    split
    · exact congrArg some (hf ref)
    · rfl

/-! ### Walks in more scopes -/

/-- At rest it does not show that a walk has entered a scope. -/
theorem atRest_enter (g : Graph) (q : ScopeId) : (g.enter q).atRest = g.atRest :=
  modifyScope_veiled (v := .rest) q fun _ => rfl

theorem isActive_enter {p q : ScopeId} : (g.enter q).isActive p = true ↔
    (p = q ∧ q.index < g.scopes.size) ∨ g.isActive p = true := by
  rw [enter, isActive, isActive, scope_modifyScope]
  split
  · rename_i hp
    simp [Scope.isActive, hp]
  · rename_i hp
    simp [hp]

/-- The second graph is the first one with walks inside more scopes. -/
structure Entered (g g' : Graph) : Prop where
  atRest : g'.atRest = g.atRest
  isActive : ∀ q, g.isActive q = true → g'.isActive q = true

/-- No scope shows an import of that name in one of the graphs only. -/
def Clear (g g' : Graph) (name : String) : Prop :=
  ∀ q skip, g'.visibleImport? q name skip = g.visibleImport? q name skip

end Graph

/-- The second answer is the first one, unless that was a refusal. -/
def Lookup.Agrees (a a' : Lookup) : Prop := (∃ x, a = .hidden x) ∨ a' = a

theorem Lookup.Agrees.rfl {a : Lookup} : a.Agrees a := .inr (Eq.refl a)

theorem Lookup.passes_agrees : Lookup.Passes Lookup.Agrees where
  notFound := .rfl
  failed := .rfl
  orElse {_ a' _ _} ha hb := by
    rcases ha with ⟨x, rfl⟩ | rfl
    · exact .inl ⟨x, rfl⟩
    · cases a' with
      | notFound => exact hb
      | _ => exact .rfl
  through {_ a' _ _} ha hf := by
    rcases ha with ⟨x, rfl⟩ | rfl
    · exact .inl ⟨x, rfl⟩
    · cases a' with
      | found x => exact hf x
      | _ => exact .rfl

namespace Graph

namespace Entered

variable {g g' : Graph}

/-- Edits that do not look at walks keep the graphs alike. -/
theorem map {f : Graph → Graph} (hrest : ∀ g, f (g.veiled .rest) = (f g).veiled .rest)
    (hkeeps : ∀ g : Graph, g.Keeps (f g)) (h : g.Entered g') : (f g).Entered (f g') where
  atRest := veiled_congr (v := .rest) h.atRest hrest
  isActive q hq := by
    rw [(hkeeps g).isActive_eq] at hq
    rw [(hkeeps g').isActive_eq]
    exact h.isActive q hq

theorem capture (h : g.Entered g') (start : ScopeId) (x : SymbolId) :
    (g.capture start x).Entered (g'.capture start x) :=
  h.map (f := (·.capture start x)) (fun _ => veiled_capture start x) fun _ => .capture start x

variable (h : g.Entered g')

include h

/-- Whatever does not look at walks is the same for the two graphs. -/
theorem view_eq {β : Type} (π : Graph → β) (hπ : ∀ g, π (g.veiled .rest) = π g) : π g' = π g :=
  congr_of_veiled (v := .rest) h.atRest π hπ

theorem symbol_eq (x : SymbolId) : g'.symbol x = g.symbol x :=
  h.view_eq (·.symbol x) fun _ => rfl

theorem scope_eq {β : Type} (π : Scope → β) (hπ : ∀ s, π (Veil.rest.scope s) = π s) (q : ScopeId) :
    π (g'.scope q) = π (g.scope q) :=
  scope_congr_of_veiled (v := .rest) h.atRest π hπ q

theorem table_eq (q : ScopeId) : (g'.scope q).table = (g.scope q).table :=
  h.scope_eq Scope.table (fun _ => rfl) q

theorem inner_eq (q : ScopeId) : (g'.scope q).inner = (g.scope q).inner :=
  h.scope_eq Scope.inner (fun _ => rfl) q

/-- One scope on the way of a search. -/
theorem searchOwn (q : ScopeId) (name : String) (ns : Option Namespace) (viaSuper : Bool) :
    (g.searchOwn q name ns viaSuper).Agrees (g'.searchOwn q name ns viaSuper) := by
  have hmember : (g'.scope q).member = (g.scope q).member :=
    h.scope_eq Scope.member (fun _ => rfl) q
  have hrestrict : ∀ x, restrict (g'.scope q) x = restrict (g.scope q) x := fun x => by
    rw [restrict, restrict, Scope.isRestricted, Scope.isRestricted, hmember]
  -- a partition that is closed in the second graph is closed in the first
  have hopen : isClosed (g.scope q) viaSuper = false → isClosed (g'.scope q) viaSuper = false := by
    intro hopen
    simp only [isClosed, Bool.or_eq_false_iff, Bool.not_eq_false'] at hopen ⊢
    exact ⟨hopen.1, h.isActive q hopen.2⟩
  simp only [Graph.searchOwn, h.table_eq, h.inner_eq, hmember, hrestrict, h.symbol_eq]
  split
  · exact .rfl
  · split
    next x _ =>
      cases hclosed : isClosed (g.scope q) viaSuper with
      | true => exact .inl ⟨x, by simp⟩
      | false => exact .inr (by simp [hopen hclosed])
    next =>
      split
      next x _ =>
        cases hclosed : isClosed (g.scope q) viaSuper with
        | false => exact .inr (by simp [hopen hclosed])
        | true =>
          cases hprivate : (g.symbol x).flags.isPrivate with
          | true => exact .inl ⟨x, by simp⟩
          | false => exact .inr (by simp)
      next => exact .rfl

/-- Plain names. -/
theorem searches (name : String) (ns : Option Namespace) :
    Searches Lookup.Agrees g g' (fun _ => True) (fun _ => True) name ns where
  passes := Lookup.passes_agrees
  own {q} _ := h.searchOwn q name ns
  superScope? {q} _ := h.view_eq (·.superScope? q) fun g => by rw [superScope?_veiled]
  super _ _ := trivial
  member := id
  sealed _ := h.scope_eq Scope.sealed (fun _ => rfl) _
  parent _ := h.scope_eq Scope.parent (fun _ => rfl) _
  delegate _ := h.scope_eq Scope.delegate (fun _ => rfl) _
  outward _ _ := trivial

theorem itemIn (q : ScopeId) (name : String) (ns : Namespace) :
    (g.itemIn q name ns).Agrees (g'.itemIn q name ns) := by
  simp only [Graph.itemIn, h.table_eq, h.inner_eq]
  split
  · exact .rfl
  · split
    next x _ =>
      cases hactive : (g.scope q).isActive with
      | false => exact .inl ⟨x, by simp⟩
      | true =>
        have hactive' : (g'.scope q).isActive = true := h.isActive q hactive
        exact .inr (by simp [hactive'])
    next => exact .rfl

/-- Imports that stay out of sight in neither or both of the graphs. -/
theorem clear {name : String} (hname : ∀ q, g.isActive q = false → g'.isActive q = true →
    ¬ g.PrivateImport q name) : g.Clear g' name := by
  intro q skip
  simp only [visibleImport?, h.table_eq, h.inner_eq]
  cases hactive : (g.scope q).isActive with
  | true =>
    have hactive' : (g'.scope q).isActive = true := h.isActive q hactive
    rw [hactive']
  | false =>
    cases hactive' : (g'.scope q).isActive with
    | false => rfl
    | true =>
      -- only the second graph looks into the partition, and in vain
      have hnone : ((g.scope q).inner.bind fun inner =>
          (g.scope inner).table.get? .imported name) = none := by
        rw [Option.bind_eq_none_iff]
        intro inner hinner
        by_contra hlisted
        exact hname q hactive hactive' ⟨inner, hinner, hlisted⟩
      simp [hnone]

/-- Searches in the two graphs, unless a private import comes into sight. -/
theorem answers (himports : ∀ link data, (g.symbol link).imported? = some data →
      ∀ name ∈ data.path.segments, g.Clear g' name) :
    Answers Lookup.Agrees g g' (fun _ => True) (fun _ => True) (fun _ => True) (g.Clear g') where
  search := h.searches
  item {q} _ name ns := h.itemIn q name ns
  onPath _ := trivial
  modules := h.scope_eq Scope.modules fun _ => rfl
  imported? x := by rw [h.symbol_eq]
  home x := by rw [h.symbol_eq, h.view_eq unitOf? unitOf?_veiled]
  pathRoots := h.view_eq Graph.pathRoots pathRoots_veiled
  visible hclear := hclear
  imports hdata := himports _ _ hdata

end Entered

/-! ### Names -/

/-- The second answer is the first one and the graphs stay alike, unless the first is a refusal. -/
def AgreesOn (r r' : Lookup × Graph) : Prop :=
  (∃ x, r.1 = .hidden x) ∨ r'.1 = r.1 ∧ r.2.Entered r'.2

/-- A second try where the first finds nothing. -/
theorem AgreesOn.orElse {r r' k k' : Lookup × Graph} (hr : AgreesOn r r') (hk : AgreesOn k k') :
    AgreesOn (match r.1 with | .notFound => k | _ => r)
      (match r'.1 with | .notFound => k' | _ => r') := by
  rcases hr with ⟨x, hx⟩ | ⟨heq, hentered⟩
  · refine .inl ⟨x, ?_⟩
    rw [hx]
    exact hx
  · rw [heq]
    split
    · exact hk
    · exact .inr ⟨heq, hentered⟩

variable {g g' : Graph}

theorem Entered.lookup (h : g.Entered g') (start : ScopeId) (name : String)
    (ns : Option Namespace) : AgreesOn (g.lookup start name ns) (g'.lookup start name ns) := by
  have hfst : ∀ g : Graph, (g.lookup start name ns).1 = g.peek start name ns :=
    fun g => lookup_fst start name ns
  rcases (h.searches name ns).search (maxDepth + 1) trivial with ⟨x, hx⟩ | heq
  · exact .inl ⟨x, (hfst g).trans hx⟩
  · refine .inr ⟨by rw [hfst, hfst]; exact heq, ?_⟩
    have hpeek : g'.peek start name ns = g.peek start name ns := heq
    unfold Graph.lookup
    dsimp only
    rw [hpeek]
    split
    · exact h.capture start _
    · exact h

theorem visibleImport?_capture (g : Graph) (start : ScopeId) (x : SymbolId) :
    (g.capture start x).visibleImport? = g.visibleImport? := by
  obtain ⟨hscope, -⟩ := capture_congr (g := g) start x
  funext q name skip
  simp only [visibleImport?, hscope Scope.table fun _ _ => rfl, hscope Scope.inner fun _ _ => rfl,
    hscope Scope.isActive fun _ _ => rfl]

/-- A plain name. If it is an import, the import is followed in the graph that notes its use. -/
theorem Entered.lookupSingle (h : g.Entered g')
    (himports : ∀ link data, (g.symbol link).imported? = some data →
      ∀ name ∈ data.path.segments, g.Clear g' name) (start : ScopeId) (name : String)
    (ns : Namespace) : AgreesOn (g.lookupSingle start name ns) (g'.lookupSingle start name ns) := by
  have hfollow : ∀ x link, ((g.capture start x).followImport link ns 1).Agrees
      ((g'.capture start x).followImport link ns 1) := by
    intro x link
    refine ((h.capture start x).answers fun link data hdata name hname q skip => ?_).followImport
      link ns 1
    rw [(capture_congr (g := g) start x).2 Symbol.imported? fun _ _ => rfl] at hdata
    rw [visibleImport?_capture, visibleImport?_capture]
    exact himports link data hdata name hname q skip
  refine .orElse (h.lookup start name (some ns)) (.orElse ?_ ?_)
  · split
    · exact h.lookup start name (some .internal)
    · exact h.lookup start name (some ns)
  · dsimp only
    rcases h.lookup start name (some .imported) with ⟨x, hx⟩ | ⟨heq, hentered⟩
    · refine .inl ⟨x, ?_⟩
      rw [hx]
      exact hx
    · rw [heq]
      split
      next link hlink =>
        -- the search has noted the use of the import, and nothing else
        have hnoted : ∀ g : Graph, (g.lookup start name (some .imported)).1 = .found link →
            (g.lookup start name (some .imported)).2 = g.capture start link := by
          intro g hfound
          rw [lookup_fst] at hfound
          simp only [Graph.lookup, hfound]
        rw [hnoted g hlink, hnoted g' (heq.trans hlink)]
        rcases hfollow link link with ⟨x, hx⟩ | hsame
        · exact .inl ⟨x, hx⟩
        · exact .inr ⟨hsame, h.capture start link⟩
      next => exact .inr ⟨heq, hentered⟩

/-- Names, plain or qualified. -/
theorem Entered.lookupPath (h : g.Entered g')
    (himports : ∀ link data, (g.symbol link).imported? = some data →
      ∀ name ∈ data.path.segments, g.Clear g' name) (start : ScopeId) {path : QualName}
    (hpath : ∀ name ∈ path.waypoints, g.Clear g' name)
    (ns : Namespace) : AgreesOn (g.lookupPath start path ns) (g'.lookupPath start path ns) := by
  unfold Graph.lookupPath
  split
  · exact .inr ⟨rfl, h⟩
  · split
    · exact h.lookupSingle himports start path.last ns
    next hsingle =>
      rw [QualName.waypoints, if_neg hsingle] at hpath
      rcases (h.answers himports).qualified hpath start path.rooted with ⟨x, hx⟩ | heq
      · exact .inl ⟨x, hx⟩
      · exact .inr ⟨heq, h⟩

end Graph

end Scoping
