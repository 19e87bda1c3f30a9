import Mathlib.Data.Option.Basic
import Scoping.Proofs.Graph.Elaborate
import Scoping.Proofs.Unfold.Basic

/-!
# Copies of trait members

A copy has the kind of the member that it is a copy of, and a subtree of its own that is a copy of
the subtree of the member, as it is found in the tree of the unit at hand. `Graph.Copies` is what
this comes to in the graph: steps and an edit.
-/

namespace Scoping

/-! ### Copies in the graph -/

namespace Graph

variable {g g' : Graph} {member trait copy : SymbolId}

/-- The symbol that a usage of a trait makes of a member. -/
def copyOf (g : Graph) (member trait : SymbolId) (name : String) (flags : Flags) : Symbol :=
  { (g.symbol member).detached with
    name
    flags := (g.symbol member).flags.override flags
    origin := (g.symbol member).origin <|> some trait }

/-- A copy of a member is taken into the arena, after copies of its parameters. -/
inductive Copies (member trait : SymbolId) (g : Graph) : SymbolId → Graph → Prop where
  | fn {data : FunctionData} (name : String) (flags : Flags) (node : Option NodeId) :
    (g.symbol member).data = .fn data →
    Copies member trait g
      ⟨(g.allocAll (data.params.map fun param => (g.symbol param).detached)).2.symbols.size⟩
      ((g.allocAll (data.params.map fun param => (g.symbol param).detached)).2.alloc
        { g.copyOf member trait name flags with
          node
          data := .fn
            { data with
              params := (g.allocAll (data.params.map fun param => (g.symbol param).detached)).1
              bodyScope := none } }).2
  | var {data : VariableData} (name : String) (flags : Flags) (init : Option NodeId) :
    (g.symbol member).data = .var data →
    Copies member trait g ⟨g.symbols.size⟩
      (g.alloc { g.copyOf member trait name flags with data := .var { data with init } }).2
  | other (name : String) (flags : Flags) : (g.symbol member).fn? = none →
    (g.symbol member).subtree? = none →
    Copies member trait g ⟨g.symbols.size⟩ (g.alloc (g.copyOf member trait name flags)).2

theorem origin_copyOf (name : String) (flags : Flags) :
    (g.copyOf member trait name flags).origin ≠ none := by
  unfold copyOf
  cases (g.symbol member).origin <;> simp

/-- A copy that has just been made waits for its declaration, and its parameters for theirs. -/
structure Copied (g : Graph) (copy : SymbolId) : Prop where
  fresh : g.Fresh copy
  latest : g.Latest copy
  origin : (g.symbol copy).origin ≠ none
  params : g.Pending (g.paramsOf copy)
  older : ∀ x ∈ g.paramsOf copy, x.index < copy.index

/-- A symbol with an origin that is taken into the arena is a copy, once its parameters are
there. -/
theorem copied_alloc {s : Symbol} (hg : g.Coherent) (hs : g.Admissible s)
    (horigin : s.origin ≠ none)
    (hparams : g.Pending ((s.fn?.map (·.params)).getD [])) :
    (g.alloc s).2.Copied (g.alloc s).1 := by
  have hspares := spares_alloc (g := g) hs.detached
  have hgrows := grows_alloc (g := g) s
  have hsymbol : (g.alloc s).2.symbol (g.alloc s).1 = s := by
    rw [alloc_fst, symbol_alloc, if_pos rfl]
  have hparamsOf : (g.alloc s).2.paramsOf (g.alloc s).1 = (s.fn?.map (·.params)).getD [] := by
    rw [paramsOf, hsymbol]
  refine ⟨hg.fresh_alloc hs, hspares.latest hg hgrows (hg.latest_of_le (Nat.le_refl _)),
    by rwa [hsymbol], ?_, ?_⟩
  · rw [hparamsOf]
    exact hparams.spares hg hspares hgrows
  · rw [hparamsOf]
    exact fun x hx => (hparams.fresh x hx).lt_size

theorem Copies.steps (hg : g.Coherent) (h : Copies member trait g copy g') :
    Steps ∅ g g' ∧ g'.Copied copy := by
  cases h with
  | @fn data name flags node =>
    have hlist : ∀ s ∈ data.params.map fun param => (g.symbol param).detached, g.Admissible s := by
      intro s hs
      obtain ⟨param, -, rfl⟩ := List.mem_map.mp hs
      exact ⟨rfl, rfl, fun m hm => ⟨param, hm⟩, fun m hm => hg.typed hm⟩
    obtain ⟨hsteps, -, -⟩ := allocAll_spec ∅ _ hg hlist
    refine ⟨.tail hsteps (.alloc (.of_members?_eq_none rfl rfl rfl)), ?_⟩
    exact copied_alloc (hg.steps hsteps) (.of_members?_eq_none rfl rfl rfl)
      (origin_copyOf name flags)
      (pending_allocAll hg hlist)
  | var name flags init =>
    exact ⟨.single (.alloc (.of_members?_eq_none rfl rfl rfl)),
      copied_alloc hg (.of_members?_eq_none rfl rfl rfl) (origin_copyOf name flags) .nil⟩
  | other name flags hfn =>
    have hs : g.Admissible (g.copyOf member trait name flags) :=
      ⟨rfl, rfl, fun m hm => ⟨member, hm⟩, fun m hm => hg.typed hm⟩
    refine ⟨.single (.alloc hs), copied_alloc hg hs (origin_copyOf name flags) ?_⟩
    change g.Pending (((g.symbol member).fn?.map (·.params)).getD [])
    rw [hfn]
    exact .nil

/-- Parameters of a copy wait while the copy itself is entered. -/
theorem Copied.declare {copy : SymbolId} {target : ScopeId} (hg : g.Coherent)
    (hplace : g.Place target) (h : g.Copied copy) :
    (g.declare target copy).2.Pending ((g.declare target copy).2.paramsOf copy) := by
  have hparams : (g.declare target copy).2.paramsOf copy = g.paramsOf copy := by
    rw [paramsOf, paramsOf, Symbol.fn?, Symbol.fn?,
      symbol_declare_congr Symbol.data fun _ _ _ _ => rfl]
  rw [hparams]
  refine ⟨fun x hx => ?_, fun x hx => ?_, h.params.sorted⟩
  · refine hg.fresh_declare hplace h.fresh (h.params.fresh x hx) ?_
    rintro rfl
    exact Nat.lt_irrefl _ (h.older x hx)
  · exact hg.latest_declare hplace h.fresh (h.params.latest x hx) (.inr h.origin)

theorem Copied.putSlot {scope : ScopeId} {role : Role} (hg : g.Coherent) (h : g.Copied copy) :
    (g.putSlot scope role copy).Pending ((g.putSlot scope role copy).paramsOf copy) := by
  have hparams : (g.putSlot scope role copy).paramsOf copy = g.paramsOf copy := by
    rw [paramsOf, paramsOf, Symbol.fn?, Symbol.fn?, Graph.putSlot,
      symbol_modifySymbol_congr Symbol.data]
    · rfl
    · exact fun _ => rfl
  rw [hparams]
  refine ⟨fun x hx => (h.params.fresh x hx).putSlot fun hne => ?_, fun x hx => ?_, h.params.sorted⟩
  · exact Nat.lt_irrefl _ (hne ▸ h.older x hx)
  · rintro y ⟨q, ns, name, hy⟩
    rw [table_putSlot] at hy
    rw [grows_putSlot.origin (hg.entry hy).1]
    exact h.params.latest x hx y ⟨q, ns, name, hy⟩

/-- A copy has the links and the members of the original. -/
theorem novel_copyOf (name : String) (flags : Flags) (hfn : (g.symbol member).fn? = none) :
    g.Novel (g.copyOf member trait name flags) where
  interfaces t ht := ⟨member, ht⟩
  super? t ht := ⟨member, ht⟩
  params := by
    change (((g.symbol member).fn?.map (·.params)).getD []) = []
    rw [hfn]
    rfl
  members m hm := ⟨origin_copyOf name flags, member, hm, rfl⟩
  ns h := absurd h (origin_copyOf name flags)

theorem Copies.edit {types : Set SymbolId} (h : Copies member trait g copy g') :
    Edit types g g' := by
  cases h with
  | fn name flags node hdata =>
    exact .copyFunction (by rw [Symbol.fn?, hdata]) (origin_copyOf name flags) rfl
  | var name flags init =>
    refine .alloc ⟨fun t ht => ?_, fun t ht => ?_, rfl, fun m hm => ?_, fun h => ?_⟩
    · cases ht
    · cases ht
    · cases hm
    · exact absurd h (origin_copyOf name flags)
  | other name flags hfn => exact .alloc (novel_copyOf name flags hfn)

/-- What was there is left alone, and scopes are. -/
theorem Copies.frame (h : Copies member trait g copy g') : g'.scopes = g.scopes ∧
    g.symbols.size ≤ copy.index ∧ copy.index < g'.symbols.size ∧
      ∀ x : SymbolId, x.index < g.symbols.size → g'.symbol x = g.symbol x := by
  cases h with
  | @fn data name flags node =>
    have hle : g.symbols.size ≤
        (g.allocAll (data.params.map fun param => (g.symbol param).detached)).2.symbols.size := by
      rw [size_symbols_allocAll]
      exact Nat.le_add_right _ _
    refine ⟨scopes_allocAll _ g, hle, ?_, fun x hx => ?_⟩
    · rw [size_symbols_alloc]
      exact Nat.lt_succ_self _
    · rw [symbol_alloc, if_neg (Nat.ne_of_lt (Nat.lt_of_lt_of_le hx hle)),
        symbol_allocAll_of_lt _ hx]
  | var | other =>
    refine ⟨rfl, Nat.le_refl _, ?_, fun x hx => ?_⟩
    · rw [size_symbols_alloc]
      exact Nat.lt_succ_self _
    · rw [symbol_alloc, if_neg (Nat.ne_of_lt hx)]

/-- New are the copy and copies of its parameters. -/
theorem Copies.new (h : Copies member trait g copy g') {x : SymbolId}
    (hx : g.symbols.size ≤ x.index) : x = copy ∨ g'.symbol x = .blank ∨
      ∃ param ∈ g.paramsOf member, g'.symbol x = (g.symbol param).detached := by
  have heq : ∀ {n : Nat}, x.index = n → x = ⟨n⟩ := fun h => congrArg SymbolId.mk h
  cases h with
  | @fn data name flags node hdata =>
    rw [symbol_alloc]
    split
    next hcopy => exact .inl (heq hcopy)
    next =>
      refine .inr ((symbol_allocAll_of_le _ hx).symm.imp_right fun hmem => ?_)
      obtain ⟨param, hparam, hsymbol⟩ := List.mem_map.mp hmem
      refine ⟨param, ?_, hsymbol.symm⟩
      rw [paramsOf, Symbol.fn?, hdata]
      exact hparam
  | var | other =>
    rw [symbol_alloc]
    split
    next hcopy => exact .inl (heq hcopy)
    next => exact .inr (.inl (symbol_of_size_le hx))

theorem Copies.kind (h : Copies member trait g copy g') :
    (g'.symbol copy).kind = (g.symbol member).kind := by
  cases h with
  | fn name flags node hdata =>
    rw [symbol_alloc, if_pos rfl]
    exact (congrArg SymbolData.kind hdata).symm
  | var name flags init hdata =>
    rw [symbol_alloc, if_pos rfl]
    exact (congrArg SymbolData.kind hdata).symm
  | other =>
    rw [symbol_alloc, if_pos rfl]
    rfl

/-- Copies of parameters have the subtrees of the originals, and the copy one of its own. -/
theorem Copies.hands {held : NodeId → Prop} (h : Copies member trait g copy g')
    (hheld : ∀ id, (g'.symbol copy).subtree? = some id → held id) : Hands held g g' := by
  intro x id hid
  by_cases hx : x.index < g.symbols.size
  · exact .inl ⟨x, h.frame.2.2.2 x hx ▸ hid⟩
  · rcases h.new (Nat.le_of_not_lt hx) with rfl | hblank | ⟨param, -, heq⟩
    · exact .inr (hheld id hid)
    · rw [hblank] at hid
      cases hid
    · rw [heq] at hid
      exact .inl ⟨param, hid⟩

end Graph

namespace Hierarchy

open Analysis

variable {s s' : Analysis} {flags : Flags} {g : Graph} {halt : Halt} {ns : Namespace}
  {r source : Option NodeId} {name : String} {copy member trait : SymbolId}

/-! ### Subtrees -/

theorem ok_copyNode (h : copyNode source s = .ok r s') :
    (source = none ∧ r = none ∧ s' = s) ∨ ∃ id top tree, source = some id ∧ r = some top ∧
      s' = { s with tree } ∧ s.tree.copySubtree id s.spare = .ok (top, tree) := by
  cases source with
  | none =>
    obtain ⟨rfl, rfl⟩ := ok_pure h
    exact .inl ⟨rfl, rfl, rfl⟩
  | some id =>
    obtain ⟨s₁, s₂, hget, h⟩ := ok_bind h
    obtain ⟨rfl, rfl⟩ := ok_get hget
    obtain ⟨top, hrun, rfl⟩ := ok_map h
    obtain ⟨tree, hcopy, rfl⟩ := ok_onTree hrun
    exact .inr ⟨id, top, tree, rfl, rfl, rfl, hcopy⟩

/-- What copying the subtree of a node, if there is one, comes to. -/
structure CopiedNode (t t' : Tree) (source copy : Option NodeId) : Prop where
  advances : ∀ {s : Analysis}, s.tree = t → s.Advances { s with tree := t' }
  of_none : source = none → copy = none
  of_some : ∀ id, source = some id → ∃ top, copy = some top ∧ t.Alike t' id top
  fresh : ∀ top, copy = some top → top.index < t'.size ∧ ∃ area, t'.Untouched top area
  noted : ∀ {α : Type} {part : Annotation → Option α}, part {} = none →
    ∀ id, t'.noted? part id = t.noted? part id

theorem copiedNode_none {t : Tree} : CopiedNode t t none none :=
  ⟨fun ht => ht ▸ .refl, fun _ => rfl, nofun, nofun, fun _ _ => rfl⟩

theorem copiedNode_of_copyNode {copy : Option NodeId} (h : copyNode source s = .ok copy s') :
    ∃ tree, s' = { s with tree } ∧ (s.tree.Closed → CopiedNode s.tree tree source copy) := by
  obtain ⟨rfl, rfl, rfl⟩ | ⟨id, top, tree, rfl, rfl, rfl, hcopy⟩ := ok_copyNode h
  · exact ⟨s'.tree, rfl, fun _ => copiedNode_none⟩
  · refine ⟨tree, rfl, fun hs => ?_⟩
    have hcopied := Tree.copied_of_copySubtree hs hcopy
    refine ⟨fun ht => .of_copied (ht ▸ hcopied), nofun, ?_, ?_, hcopied.noted?⟩
    · rintro _ ⟨⟩
      exact ⟨top, rfl, hcopied.alike 0 id top rfl rfl⟩
    · rintro _ ⟨⟩
      have htop := List.mem_singleton_self top
      exact ⟨(hcopied.lt_size top htop).2, hcopied.untouched htop⟩

/-! ### Members -/

/-- The copy of a declaration that a function has for its node has no notes yet. -/
def Unvisited (copy : SymbolId) (s : Analysis) : Prop :=
  ∀ id, (s.graph.symbol copy).fn?.isSome = true → (s.graph.symbol copy).node = some id →
    ∃ area, s.tree.Untouched id area

theorem Unvisited.congr (h : Unvisited copy s) (htree : s'.tree = s.tree)
    (hfn : (s'.graph.symbol copy).fn? = (s.graph.symbol copy).fn?)
    (hnode : (s'.graph.symbol copy).node = (s.graph.symbol copy).node) : Unvisited copy s' := by
  intro id hid hid'
  rw [htree]
  exact h id (hfn ▸ hid) (hnode ▸ hid')

/-- What copying a member comes to: the copy is the last symbol that is allocated, of the same kind
as the member, and its subtree is a copy of that of the member. Apart from parameters, it is the
only new symbol with an origin. -/
structure CopiedMember (s s' : Analysis) (member copy : SymbolId) : Prop where
  advances : s.Advances s'
  scope : ∀ q, s'.graph.scope q = s.graph.scope q
  log : s'.log = s.log
  fresh : s.graph.symbols.size ≤ copy.index
  lt_size : copy.index < s'.graph.symbols.size
  kind : (s'.graph.symbol copy).kind = (s.graph.symbol member).kind
  of_none : (s.graph.symbol member).subtree? = none → (s'.graph.symbol copy).subtree? = none
  of_some : ∀ id, (s.graph.symbol member).subtree? = some id →
    ∃ id', (s'.graph.symbol copy).subtree? = some id' ∧ s.tree.Alike s'.tree id id'
  subtree_lt : ∀ id, (s'.graph.symbol copy).subtree? = some id → id.index < s'.tree.size
  unvisited : Unvisited copy s'
  ledger : s'.ledger = s.ledger
  noted : ∀ {α : Type} {part : Annotation → Option α}, part {} = none →
    ∀ id, s'.tree.noted? part id = s.tree.noted? part id
  only : ∀ {c}, s.graph.symbols.size ≤ c.index → (s'.graph.symbol c).flags.isParam = false →
    (s'.graph.symbol c).origin.isSome = true → c = copy

/-- Copying a member changes the graph and the tree. -/
theorem copyMember_spec (h : copyMember member trait name flags s = .ok copy s') :
    s.graph.Copies member trait copy s'.graph ∧
      s' = { s with graph := s'.graph, tree := s'.tree } ∧
      (s.tree.Closed → CopiedNode s.tree s'.tree (s.graph.symbol member).subtree?
        (s'.graph.symbol copy).subtree?) := by
  obtain ⟨g, s₁, hg, h⟩ := ok_bind h
  obtain ⟨rfl, rfl⟩ := ok_currentGraph hg
  have hnew : ∀ {g : Graph} (copy : Symbol), (g.alloc copy).2.symbol ⟨g.symbols.size⟩ = copy := by
    intro g copy
    rw [Graph.symbol_alloc, if_pos rfl]
  cases hdata : (s.graph.symbol member).data with
  | fn data =>
    have hsource : (s.graph.symbol member).subtree? = (s.graph.symbol member).node := by
      rw [Symbol.subtree?, hdata]
    simp only [hdata] at h
    obtain ⟨params, s₁, hparams, h⟩ := ok_bind h
    obtain ⟨rfl, rfl⟩ := ok_onGraph hparams
    obtain ⟨node, s₂, hnode, h⟩ := ok_bind h
    obtain ⟨rfl, rfl⟩ := ok_onGraph h
    obtain ⟨tree, rfl, hcopied⟩ := copiedNode_of_copyNode hnode
    exact ⟨.fn name flags node hdata, rfl, fun hs =>
      hsource ▸ (congrArg Symbol.subtree? (hnew _)).symm ▸ hcopied hs⟩
  | var data =>
    have hsource : (s.graph.symbol member).subtree? = data.init := by rw [Symbol.subtree?, hdata]
    simp only [hdata] at h
    obtain ⟨init, s₁, hinit, h⟩ := ok_bind h
    obtain ⟨rfl, rfl⟩ := ok_onGraph h
    obtain ⟨tree, rfl, hcopied⟩ := copiedNode_of_copyNode hinit
    exact ⟨.var name flags init hdata, rfl, fun hs =>
      hsource ▸ (congrArg Symbol.subtree? (hnew _)).symm ▸ hcopied hs⟩
  | _ =>
    have hsource : (s.graph.symbol member).subtree? = none := by rw [Symbol.subtree?, hdata]
    simp only [hdata] at h
    obtain ⟨rfl, rfl⟩ := ok_onGraph h
    refine ⟨.other name flags (by rw [Symbol.fn?, hdata]) hsource, rfl, fun _ => ?_⟩
    have hcopy : ((s.graph.alloc (s.graph.copyOf member trait name flags)).2.symbol
        ⟨s.graph.symbols.size⟩).subtree? = none := (congrArg Symbol.subtree? (hnew _)).trans hsource
    rw [hsource]
    exact Eq.subst (motive := CopiedNode s.tree s.tree none) hcopy.symm copiedNode_none

/-- What copying a member comes to in the graph. -/
theorem copyMember_copies (h : copyMember member trait name flags s = .ok copy s') :
    s.graph.Copies member trait copy s'.graph ∧ s'.log = s.log := by
  obtain ⟨hcopies, heq, -⟩ := copyMember_spec h
  exact ⟨hcopies, by rw [heq]⟩

/-- What copying a member of a trait leaves behind: the copy, its parameters and its own subtree,
all of them new. -/
theorem copiedMember_of_copyMember (hs : s.Intact)
    (h : copyMember member trait name flags s = .ok copy s') : CopiedMember s s' member copy := by
  obtain ⟨hcopies, heq, hnode⟩ := copyMember_spec h
  have hnode := hnode hs.closed
  obtain ⟨hscopes, hfresh, hlt, hold⟩ := hcopies.frame
  have hnew : ∀ {x : SymbolId}, s.graph.symbols.size ≤ x.index → x = copy ∨
      s'.graph.symbol x = .blank ∨ (s'.graph.symbol x).flags.isParam = true := by
    intro x hx
    refine (hcopies.new hx).imp_right fun h => h.imp_right ?_
    rintro ⟨param, hparam, hsymbol⟩
    rw [hsymbol]
    exact (hs.regular.param hparam).2.isParam
  have hsubtree : ∀ id, (s'.graph.symbol copy).subtree? = some id → id.index < s'.tree.size :=
    fun id hid => (hnode.fresh id hid).1
  refine
    { advances := ?_, scope := fun q => by rw [Graph.scope, Graph.scope, hscopes],
      log := by rw [heq]
      fresh := hfresh, lt_size := hlt, kind := hcopies.kind, of_none := hnode.of_none
      of_some := hnode.of_some, subtree_lt := hsubtree, unvisited := fun id hisFn hid => ?_
      ledger := by rw [heq]; rfl, noted := hnode.noted
      only := fun {c} hc hparam horigin => ?_ }
  · have hedits : Graph.Edits ∅ s.graph s'.graph := .single hcopies.edit
    rw [heq]
    refine (hnode.advances rfl).trans (.of_graph (s := { s with tree := s'.tree })
      (.of_edits hedits fun hx _ => by rw [hold _ hx]) fun hx => ?_)
    rcases hnew hx with rfl | hblank | hparam
    · exact .inr hsubtree
    · rw [hblank]
      refine .inr fun id hid => ?_
      cases hid
    · exact .inl hparam
  · refine (hnode.fresh id (Eq.trans ?_ hid)).2
    rw [Symbol.fn?] at hisFn
    rw [Symbol.subtree?]
    split at hisFn
    next hdata => rw [hdata]
    next => cases hisFn
  · rcases hnew hc with hcopy | hblank | hisParam
    · exact hcopy
    · rw [hblank] at horigin
      cases horigin
    · cases hisParam.symm.trans hparam

/-- Copying a member that a trait offers is a part of an analysis. -/
theorem CopiedMember.unfolds {root : Analysis} (h : CopiedMember s s' member copy)
    (hcopying : ∃ k : Copying root s', k.copy = copy) : Unfolds root s s' where
  toAdvances := h.advances
  toSteady := ⟨fun q => by rw [h.scope], fun hq => by rwa [h.scope] at hq⟩
  aborted := by rw [h.log]
  copied hc hparam horigin := h.only hc hparam horigin ▸ hcopying

/-- A node of the arena is copied, unless a chain of nodes is too long. -/
theorem eq_exhausted_of_copyNode (hs : s.tree.Closed)
    (hsource : ∀ id, source = some id → id.index < s.tree.size)
    (h : copyNode source s = .error halt s') : halt = .exhausted := by
  cases source with
  | none => cases h
  | some id =>
    rcases error_bind h with h | ⟨s₁, s₂, hget, h⟩
    · cases h
    obtain ⟨rfl, rfl⟩ := ok_get hget
    exact Tree.eq_exhausted_of_copySubtree hs (hsource id rfl) (error_onTree (error_map h))

/-- A member whose subtree is in the arena is copied, unless a chain of nodes is too long. -/
theorem eq_exhausted_of_copyMember (hs : s.tree.Closed)
    (hmember : ∀ id, (s.graph.symbol member).subtree? = some id → id.index < s.tree.size)
    (h : copyMember member trait name flags s = .error halt s') : halt = .exhausted := by
  rcases error_bind h with h | ⟨g, s₁, hg, h⟩
  · cases h
  obtain ⟨rfl, rfl⟩ := ok_currentGraph hg
  cases hdata : (s.graph.symbol member).data with
  | fn data =>
    have hsource : (s.graph.symbol member).subtree? = (s.graph.symbol member).node := by
      rw [Symbol.subtree?, hdata]
    simp only [hdata] at h
    rw [hsource] at hmember
    rcases error_bind h with h | ⟨params, s₁, hparams, h⟩
    · cases h
    · obtain ⟨-, rfl⟩ := ok_onGraph hparams
      rcases error_bind h with h | ⟨node, s₂, -, h⟩
      · refine eq_exhausted_of_copyNode ?_ ?_ h
        · exact hs
        · exact hmember
      · cases h
  | var data =>
    have hsource : (s.graph.symbol member).subtree? = data.init := by rw [Symbol.subtree?, hdata]
    simp only [hdata] at h
    rw [hsource] at hmember
    rcases error_bind h with h | ⟨init, s₁, -, h⟩
    · exact eq_exhausted_of_copyNode hs hmember h
    · cases h
  | _ =>
    simp only [hdata] at h
    cases h

/-! ### What a usage asks for -/

theorem mem_ids_of_get? {t : Table} {x : SymbolId} (h : t.get? ns name = some x) : x ∈ t.ids := by
  have hns : ns ∈ Namespace.all := by cases ns <;> decide
  exact List.mem_flatMap.mpr ⟨ns, hns, List.mem_map.mpr ⟨(name, x),
    NameMap.mem_entries_of_find? h, rfl⟩⟩

theorem mem_memberIds_of_lookupHere? {members : ScopeId}
    (hmembers : g.membersOf? trait = some members)
    (h : g.lookupHere? members name (some ns) = some member) : member ∈ g.memberIds trait := by
  rw [Graph.memberIds, hmembers]
  rw [Graph.lookupHere?, Option.orElse_eq_some] at h
  refine List.mem_append.mpr (h.imp mem_ids_of_get? fun h => ?_)
  obtain ⟨inner, hinner, hfound⟩ := Option.bind_eq_some_iff.mp h.2
  rw [hinner]
  exact mem_ids_of_get? hfound

theorem mem_slots_of_missingSlots {info : MemberInfo} {host : Option MemberInfo} {role : Role}
    (h : (role, member) ∈ info.missingSlots host) : member ∈ info.slots := by
  obtain ⟨⟨role', name, member'⟩, hslot, heq⟩ := List.mem_map.mp h
  cases heq
  have hslot := List.mem_of_mem_filter hslot
  simp only [List.mem_append, List.mem_map, Prod.mk.injEq] at hslot
  simp only [MemberInfo.slots, NameMap.values, List.mem_append, List.mem_map]
  rcases hslot with ((⟨x, hx, -, -, rfl⟩ | ⟨x, hx, -, -, rfl⟩) | ⟨entry, hentry, -, -, rfl⟩) |
    ⟨entry, hentry, -, -, rfl⟩
  · exact .inl (.inl (.inl hx))
  · exact .inl (.inl (.inr hx))
  · exact .inl (.inr ⟨entry, hentry, rfl⟩)
  · exact .inr ⟨entry, hentry, rfl⟩

end Hierarchy

end Scoping
