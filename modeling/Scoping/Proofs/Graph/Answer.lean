import Scoping.Graph.Path

/-!
# The answers of searches in two graphs

A search asks scope by scope, and its answer is put together from theirs. So if two graphs lead
searches the same way and what their scopes answer is related, what they answer is related too:
`Graph.Searches` says so for plain names and `Graph.Answers` for paths. The relation may be
equality, or it may look at the first answer alone, as a property of all answers in one graph.
-/

namespace Scoping

/-- What is found leads on to another answer. -/
def Lookup.through (a : Lookup) (f : SymbolId → Lookup) : Lookup :=
  match a with
  | found x => f x
  | _ => a

/-- A relation between answers that passes on from the parts of a search to the whole. -/
structure Lookup.Passes (R : Lookup → Lookup → Prop) : Prop where
  notFound : R .notFound .notFound
  failed : R .failed .failed
  orElse : ∀ {a a' : Lookup} {b b' : Unit → Lookup}, R a a' → R (b ()) (b' ()) →
    R (a.orElse b) (a'.orElse b')
  through : ∀ {a a' : Lookup} {f f' : SymbolId → Lookup}, R a a' → (∀ x, R (f x) (f' x)) →
    R (a.through f) (a'.through f')

namespace Lookup.Passes

theorem eq : Passes Eq where
  notFound := rfl
  failed := rfl
  orElse {a _ _ _} ha hb := by
    subst ha
    cases a with
    | notFound => exact hb
    | _ => rfl
  through {a _ _ _} ha hf := by
    subst ha
    cases a with
    | found x => exact hf x
    | _ => rfl

/-- A property of the first answer. -/
theorem left {P : Lookup → Prop} (notFound : P .notFound) (failed : P .failed) :
    Passes fun a _ => P a where
  notFound := notFound
  failed := failed
  orElse {a _ _ _} ha hb := by
    cases a with
    | notFound => exact hb
    | _ => exact ha
  through {a _ _ _} ha hf := by
    cases a with
    | found x => exact hf x
    | _ => exact ha

end Lookup.Passes

namespace Graph

variable {R : Lookup → Lookup → Prop} {g g' : Graph} {S M T : ScopeId → Prop} {C : String → Prop}
  {name : String}

/-! ### Plain names -/

/-- A search that goes outward through the scopes of `S`, and from each of them up through those of
`M`, goes the same way in both graphs. -/
structure Searches (R : Lookup → Lookup → Prop) (g g' : Graph) (S M : ScopeId → Prop)
    (name : String) (ns : Option Namespace) : Prop where
  passes : Lookup.Passes R
  own : ∀ {p}, M p → ∀ viaSuper,
    R (g.searchOwn p name ns viaSuper) (g'.searchOwn p name ns viaSuper)
  superScope? : ∀ {p}, M p → g'.superScope? p = g.superScope? p
  super : ∀ {p q}, M p → g.superScope? p = some q → M q
  member : ∀ {p}, S p → M p
  sealed : ∀ {p}, S p → (g'.scope p).sealed = (g.scope p).sealed
  parent : ∀ {p}, S p → (g'.scope p).parent = (g.scope p).parent
  delegate : ∀ {p}, S p → (g'.scope p).delegate = (g.scope p).delegate
  outward : ∀ {p q}, S p → (g.scope p).parent = some q ∨ (g.scope p).delegate = some q → S q

namespace Searches

variable {ns : Option Namespace} (h : Searches R g g' S M name ns)

include h

theorem searchMember : ∀ (fuel : Nat) {p : ScopeId} {viaSuper : Bool}, M p →
    R (g.searchMember name ns fuel p viaSuper) (g'.searchMember name ns fuel p viaSuper)
  | 0, _, _, _ => h.passes.failed
  | fuel + 1, p, viaSuper, hp => by
    refine h.passes.orElse (h.own hp viaSuper) ?_
    rw [h.superScope? hp]
    split
    next q hq => exact searchMember fuel (h.super hp hq)
    next => exact h.passes.notFound

theorem search : ∀ (fuel : Nat) {p : ScopeId}, S p →
    R (g.search name ns fuel p) (g'.search name ns fuel p)
  | 0, _, _ => h.passes.failed
  | fuel + 1, p, hp => by
    refine h.passes.orElse (h.searchMember _ (h.member hp)) (h.passes.orElse ?_ ?_)
    · rw [h.sealed hp, h.parent hp]
      split
      next q hq =>
        split at hq
        · cases hq
        · exact search fuel (h.outward hp (.inl hq))
      next => exact h.passes.notFound
    · rw [h.delegate hp]
      split
      next q hq => exact search fuel (h.outward hp (.inr hq))
      next => exact h.passes.notFound

end Searches

/-! ### Paths -/

theorem mem_pathRoots_iff {start root : ScopeId} {rooted : Bool} :
    root ∈ g.pathRoots start rooted ↔
      root ∈ (if rooted = true then (g.unitOf? start).toList
        else g.rootsWithin (g.scopes.size + 1) start) ∨ root = global := by
  unfold pathRoots
  generalize (if rooted = true then (g.unitOf? start).toList
    else g.rootsWithin (g.scopes.size + 1) start) = roots
  dsimp only
  split
  next hglobal => exact ⟨.inl, fun h => h.elim id fun h => h ▸ hglobal⟩
  next => rw [List.mem_append, List.mem_singleton]

/-- A scope that paths come to: they start at a root or at a unit and lead through modules. -/
inductive OnPath (g : Graph) : ScopeId → Prop where
  | root {start root : ScopeId} {rooted : Bool} : root ∈ g.pathRoots start rooted → OnPath g root
  | unit {p unit : ScopeId} : g.unitOf? p = some unit → OnPath g unit
  | module {p q : ScopeId} {name : String} : (g.scope p).modules.find? name = some q → OnPath g q

/-- Paths lead through scopes of `T` in both graphs, and as long as their names are in `C`, they
come upon the same imports. -/
structure Answers (R : Lookup → Lookup → Prop) (g g' : Graph) (S M T : ScopeId → Prop)
    (C : String → Prop) : Prop where
  search : ∀ name ns, Searches R g g' S M name ns
  item : ∀ {p}, T p → ∀ name ns, R (g.itemIn p name ns) (g'.itemIn p name ns)
  onPath : ∀ {p}, g.OnPath p → T p
  modules : ∀ p, (g'.scope p).modules = (g.scope p).modules
  imported? : ∀ x, (g'.symbol x).imported? = (g.symbol x).imported?
  home : ∀ x, (g'.symbol x).scope.bind g'.unitOf? = (g.symbol x).scope.bind g.unitOf?
  pathRoots : g'.pathRoots = g.pathRoots
  visible : ∀ {name}, C name → ∀ q skip,
    g'.visibleImport? q name skip = g.visibleImport? q name skip
  imports : ∀ {x data}, (g.symbol x).imported? = some data → ∀ name ∈ data.path.segments, C name

/-- What all scopes of one graph answer. -/
theorem Answers.left {P : Lookup → Prop} (hnotFound : P .notFound) (hfailed : P .failed)
    (hown : ∀ {p}, S p → ∀ name ns viaSuper, P (g.searchOwn p name ns viaSuper))
    (hitem : ∀ {p}, T p → ∀ name ns, P (g.itemIn p name ns))
    (hsuper : ∀ {p q}, S p → g.superScope? p = some q → S q)
    (houtward : ∀ {p q}, S p → (g.scope p).parent = some q ∨ (g.scope p).delegate = some q → S q)
    (honPath : ∀ {p}, g.OnPath p → T p) : Answers (fun a _ => P a) g g S S T fun _ => True where
  search name ns :=
    { passes := .left hnotFound hfailed
      own := fun hp => hown hp name ns
      superScope? := fun _ => rfl
      super := hsuper
      member := id
      sealed := fun _ => rfl
      parent := fun _ => rfl
      delegate := fun _ => rfl
      outward := houtward }
  item := hitem
  onPath := honPath
  modules _ := rfl
  imported? _ := rfl
  home _ := rfl
  pathRoots := rfl
  visible _ _ _ := rfl
  imports _ _ _ := trivial

/-- The modules of a path lead to a scope of `T`, with names of `C`. -/
def Descent.Stays (T : ScopeId → Prop) (C : String → Prop) : Descent → Prop
  | .item q name => T q ∧ C name
  | .detour _ rest => ∀ name ∈ rest, C name
  | .lost => True

namespace Answers

variable (h : Answers R g g' S M T C) {ns : Namespace}

include h

theorem passes : Lookup.Passes R := (h.search "" none).passes

theorem outermost : T global := by
  have hroot : global ∈ g.pathRoots global true := mem_pathRoots_iff.mpr (.inr rfl)
  exact h.onPath (.root hroot)

theorem descend (skip : Option SymbolId) : ∀ (segments : List String) {root : ScopeId}, T root →
    (∀ name ∈ segments, C name) →
    g'.descend skip root segments = g.descend skip root segments ∧
      (g.descend skip root segments).Stays T C
  | [], _, _, _ => ⟨rfl, trivial⟩
  | [last], _, hroot, hnames => ⟨rfl, hroot, hnames last List.mem_cons_self⟩
  | segment :: next :: rest, root, _, hnames => by
    obtain ⟨hsegment, hrest⟩ := List.forall_mem_cons.mp hnames
    simp only [Graph.descend, h.modules, h.visible hsegment]
    split
    next m hm => exact descend skip (next :: rest) (h.onPath (.module hm)) hrest
    next =>
      split
      · exact ⟨rfl, hrest⟩
      · exact ⟨rfl, trivial⟩

theorem followWith {resolve resolve' : ScopeId → List String → Lookup}
    (hresolve : ∀ root segments, T root → (∀ name ∈ segments, C name) →
      R (resolve root segments) (resolve' root segments)) (link : SymbolId) :
    R (g.followWith resolve link) (g'.followWith resolve' link) := by
  simp only [Graph.followWith, h.imported?, h.home]
  split
  · exact h.passes.notFound
  next data hdata =>
    refine h.passes.orElse (hresolve _ _ ?_ (h.imports hdata)) ?_
    · cases hunit : (g.symbol link).scope.bind g.unitOf? with
      | none => exact h.outermost
      | some unit =>
        obtain ⟨p, -, hunit⟩ := Option.bind_eq_some_iff.mp hunit
        exact h.onPath (.unit hunit)
    · split
      · exact h.passes.notFound
      · exact hresolve _ _ h.outermost (h.imports hdata)

/-- Paths are answered alike if single names are, import by import. -/
theorem resolveFrom : ∀ (fuel : Nat) {skip : Option SymbolId} {root : ScopeId}
    {segments : List String}, T root → (∀ name ∈ segments, C name) →
    R (g.resolveFrom ns fuel skip root segments) (g'.resolveFrom ns fuel skip root segments)
  | 0, _, _, _, _, _ => h.passes.failed
  | fuel + 1, skip, root, segments, hroot, hnames => by
    obtain ⟨hsame, hstays⟩ := h.descend skip segments hroot hnames
    rw [Graph.resolveFrom, Graph.resolveFrom, hsame]
    cases hdescend : g.descend skip root segments with
    | lost => exact h.passes.notFound
    | detour link rest =>
      rw [hdescend] at hstays
      simp only [h.imported?]
      split
      · exact h.passes.notFound
      next data hdata =>
        -- the path goes on with that of the import, and with what was left of its own
        exact resolveFrom fuel hroot (List.forall_mem_append.mpr ⟨h.imports hdata, hstays⟩)
    | item q name =>
      rw [hdescend] at hstays
      refine h.passes.orElse (h.item hstays.1 name ns) ?_
      rw [h.visible hstays.2]
      split
      · exact h.passes.notFound
      · split
        · exact h.passes.failed
        · exact h.followWith (fun _ _ => resolveFrom fuel) _

theorem followImport (link : SymbolId) (ns : Namespace) (hops : Nat) :
    R (g.followImport link ns hops) (g'.followImport link ns hops) := by
  unfold Graph.followImport
  split
  · exact h.passes.failed
  · exact h.followWith (fun _ _ => h.resolveFrom _) link

theorem resolveFirst {segments : List String} (hnames : ∀ name ∈ segments, C name) :
    ∀ roots : List ScopeId, (∀ root ∈ roots, T root) →
      R (g.resolveFirst ns segments roots) (g'.resolveFirst ns segments roots)
  | [], _ => h.passes.notFound
  | root :: rest, hroots =>
    h.passes.orElse (h.resolveFrom _ (hroots root List.mem_cons_self) hnames)
      (resolveFirst hnames rest fun r hr => hroots r (List.mem_cons_of_mem _ hr))

/-- A qualified name. -/
theorem qualified {segments : List String} (hnames : ∀ name ∈ segments, C name) (start : ScopeId)
    (rooted : Bool) : R (g.resolveFirst ns segments (g.pathRoots start rooted))
      (g'.resolveFirst ns segments (g'.pathRoots start rooted)) := by
  rw [h.pathRoots]
  exact h.resolveFirst hnames _ fun _ hroot => h.onPath (.root hroot)

end Answers

end Graph

end Scoping
