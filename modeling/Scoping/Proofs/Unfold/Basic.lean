import Scoping.Proofs.Graph.Advance
import Scoping.Proofs.Tree.Copy

/-!
# Parts of an analysis

`Analysis.Advances` is what an analysis never undoes: besides what the graph keeps, nodes keep their
payloads, notes on scopes and declarations stay, and an error that was reported stays reported.
`Analysis.Unfolds` says more about a part of an analysis that runs to its end: scopes are as active
as before, no members are withheld that were not, and whatever is copied from a trait is copied by
`Hierarchy.copyMember`.
-/

namespace Scoping

/-! ### Logs -/

/-- No error has been reported. -/
def Log.Clean (log : Log) : Prop := log.diagnostics.hasErrors = false

theorem Log.clean_of_push {log : Log} {d : Diagnostic} (h : (log.push d).Clean) : log.Clean := by
  simp only [Clean, push, Diagnostics.hasErrors, List.any_append, Bool.or_eq_false_iff] at h
  exact h.1

theorem Log.not_clean_problem (log : Log) (p : Problem) (span : Span) :
    ¬ (log.problem p span).Clean := by
  simp [Clean, problem, error, push, errorDiagnostic, Diagnostics.hasErrors, Severity.isFatal]

/-- A log goes on: errors stay reported, and the analysis does not fail. -/
structure Log.Grows (log log' : Log) : Prop where
  clean : log'.Clean → log.Clean
  aborted : log'.aborted = log.aborted
  diagnostics : log.diagnostics ⊆ log'.diagnostics

namespace Log.Grows

variable {log log' log'' : Log}

protected theorem refl : log.Grows log := ⟨id, rfl, List.Subset.refl _⟩

protected theorem trans (h : log.Grows log') (h' : log'.Grows log'') : log.Grows log'' :=
  ⟨fun hclean => h.clean (h'.clean hclean), h'.aborted.trans h.aborted,
    List.Subset.trans h.diagnostics h'.diagnostics⟩

theorem push {d : Diagnostic} : log.Grows (log.push d) :=
  ⟨clean_of_push, rfl, List.subset_append_left _ _⟩

end Log.Grows

/-! ### Notes -/

/-- The note on the symbol of a node is what a walk over the declared tree relies on: a function is
there with all its parameters, a list of variables begins somewhere. -/
def NodeKind.Fits (g : Graph) (note : Option SymbolId) : NodeKind → Prop
  | .fnDecl decl | .fnExpr decl =>
    ∃ f, note = some f ∧ decl.params.length ≤ (g.paramsOf f).length
  | .varDecl _ items | .enumDecl _ items => items = [] ∨ note.isSome = true
  | _ => note.isSome = true

theorem Graph.Advances.le_params {g g' : Graph} (h : g.Advances g') {k : Nat} {f : SymbolId}
    (hf : k ≤ (g.paramsOf f).length) : k ≤ (g'.paramsOf f).length := by
  rw [Graph.paramsOf_eq] at hf ⊢
  by_cases hlt : f.index < g.symbols.size
  · rcases (h.endures hlt).params with heq | hnil
    · rwa [heq]
    · rw [hnil] at hf
      exact Nat.le_trans hf (Nat.zero_le _)
  · rw [Graph.symbol_of_size_le (Nat.le_of_not_lt hlt)] at hf
    exact Nat.le_trans hf (Nat.zero_le _)

theorem NodeKind.Fits.advances {g g' : Graph} (h : g.Advances g') {note : Option SymbolId}
    {kind : NodeKind} (hfits : kind.Fits g note) : kind.Fits g' note := by
  cases kind with
  | fnDecl | fnExpr =>
    obtain ⟨f, hnote, hparams⟩ := hfits
    exact ⟨f, hnote, h.le_params hparams⟩
  | _ => exact hfits

/-- A member of a trait that a usage of the trait may copy. -/
def Graph.Offers (g : Graph) (trait member : SymbolId) : Prop :=
  (g.symbol trait).kind = .trait ∧ ∃ members, g.membersOf? trait = some members ∧
    (member ∈ g.memberIds trait ∨ ∃ info, g.memberInfo? members = some info ∧ member ∈ info.slots)

namespace Analysis

variable {α β : Type} {s s' s'' root : Analysis} {node : Node} {id : NodeId}

/-- What is put off, and what is asked for. -/
def ledger (s : Analysis) : List LateBinding × Loader × List ImportRequest × List Inquiry :=
  (s.late, s.loader, s.requests, s.inquiries)

/-- The node has a note on the scope that it opens. -/
def Opens (s : Analysis) (id : NodeId) : Prop :=
  ∃ node, s.tree.node? id = some node ∧ node.note.scope.isSome = true

/-- The node has a note on its symbol. -/
def Noted (s : Analysis) (id : NodeId) : Prop :=
  ∃ node, s.tree.node? id = some node ∧ node.kind.Fits s.graph node.note.symbol

theorem Opens.exists_scope (h : s.Opens id) (hnode : s.tree.node? id = some node) :
    ∃ q, node.note.scope = some q := by
  obtain ⟨other, hother, hsome⟩ := h
  cases hnode.symm.trans hother
  exact Option.isSome_iff_exists.mp hsome

theorem Noted.fits (h : s.Noted id) (hnode : s.tree.node? id = some node) :
    node.kind.Fits s.graph node.note.symbol := by
  obtain ⟨other, hother, hfits⟩ := h
  cases hnode.symm.trans hother
  exact hfits

/-- The graph is regular, and all links of the tree, and those from the tree to scopes, lead
somewhere. -/
structure Intact (s : Analysis) : Prop where
  regular : s.graph.Regular
  closed : s.tree.Closed
  scope_lt : ∀ {id node p}, s.tree.node? id = some node → node.note.scope = some p →
    p.index < s.graph.scopes.size

/-! ### What is never undone -/

/-- What an analysis never undoes. -/
structure Advances (s s' : Analysis) : Prop where
  graph : s.graph.Advances s'.graph
  tree : s.tree.Extends s'.tree
  clean : s'.log.Clean → s.log.Clean
  opens : ∀ {id}, s.Opens id → s'.Opens id
  noted : ∀ {id}, s.Noted id → s'.Noted id
  subtree_lt : ∀ {x}, s.graph.symbols.size ≤ x.index →
    (s'.graph.symbol x).flags.isParam = true ∨
      ∀ id, (s'.graph.symbol x).subtree? = some id → id.index < s'.tree.size
  intact : s.Intact → s'.Intact

theorem subtree_lt_blank {x : SymbolId} {g : Graph} {n : Nat} (hx : g.symbols.size ≤ x.index) :
    (g.symbol x).flags.isParam = true ∨
      ∀ id, (g.symbol x).subtree? = some id → id.index < n := by
  rw [Graph.symbol_of_size_le hx]
  exact .inr nofun

namespace Advances

protected theorem refl : s.Advances s :=
  ⟨.refl, .refl, id, id, id, subtree_lt_blank, id⟩

protected theorem trans (h : s.Advances s') (h' : s'.Advances s'') : s.Advances s'' where
  graph := h.graph.trans h'.graph
  tree := h.tree.trans h'.tree
  clean hclean := h.clean (h'.clean hclean)
  opens hid := h'.opens (h.opens hid)
  noted hid := h'.noted (h.noted hid)
  subtree_lt {x} hx := by
    by_cases hlt : x.index < s'.graph.symbols.size
    · have hendures := h'.graph.endures hlt
      by_cases hparam : (s'.graph.symbol x).flags.isParam = true
      · exact .inl (hendures.isParam.trans hparam)
      · refine .inr fun id hid => ?_
        rw [h'.graph.subtree? hlt (.inl (Bool.not_eq_true _ ▸ hparam))] at hid
        exact Nat.lt_of_lt_of_le ((h.subtree_lt hx).resolve_left hparam id hid) h'.tree.size_le
    · exact h'.subtree_lt (Nat.le_of_not_lt hlt)
  intact hs := h'.intact (h.intact hs)

/-- Edits of the graph. -/
theorem of_graph {g : Graph} (h : s.graph.Advances g)
    (hsubtree : ∀ {x}, s.graph.symbols.size ≤ x.index → (g.symbol x).flags.isParam = true ∨
      ∀ id, (g.symbol x).subtree? = some id → id.index < s.tree.size) :
    s.Advances { s with graph := g } where
  graph := h
  tree := .refl
  clean := id
  opens := id
  noted := fun ⟨node, hnode, hfits⟩ => ⟨node, hnode, hfits.advances h⟩
  subtree_lt := hsubtree
  intact hs := ⟨h.regular hs.regular, hs.closed, fun hnode hp =>
    Nat.lt_of_lt_of_le (hs.scope_lt hnode hp) h.scopes_le⟩

/-- Edits of the log and of what is left for later. -/
theorem of_log (hgraph : s'.graph = s.graph) (htree : s'.tree = s.tree)
    (hclean : s'.log.Clean → s.log.Clean) : s.Advances s' where
  graph := hgraph ▸ .refl
  tree := htree ▸ .refl
  clean := hclean
  opens := by
    unfold Opens
    rw [htree]
    exact id
  noted := by
    unfold Noted
    rw [htree, hgraph]
    exact id
  subtree_lt hx := subtree_lt_blank (hgraph ▸ hx)
  intact hs := ⟨hgraph ▸ hs.regular, htree ▸ hs.closed, by
    rw [htree, hgraph]
    exact hs.scope_lt⟩

/-- Edits of the notes on a node. -/
theorem of_annotate {id : NodeId} {f : Annotation → Annotation}
    (hscope : ∀ note p, (f note).scope = some p → note.scope = some p ∨
      p.index < s.graph.scopes.size)
    (hopens : ∀ note, note.scope.isSome = true → (f note).scope.isSome = true)
    (hnoted : ∀ node, s.tree.node? id = some node →
      node.kind.Fits s.graph node.note.symbol → node.kind.Fits s.graph (f node.note).symbol) :
    s.Advances { s with tree := s.tree.annotate id f } where
  graph := .refl
  tree := .annotate id f
  clean := fun h => h
  opens := by
    rintro q ⟨node, hnode, hsome⟩
    refine ⟨_, Tree.node?_annotate_of_some hnode, ?_⟩
    split
    · exact hopens _ hsome
    · exact hsome
  noted := by
    rintro q ⟨node, hnode, hfits⟩
    refine ⟨_, Tree.node?_annotate_of_some hnode, ?_⟩
    split
    next hq => exact hnoted node (hq ▸ hnode) hfits
    next => exact hfits
  subtree_lt := subtree_lt_blank
  intact hs := by
    refine ⟨hs.regular, fun {q node} hnode c hc => ?_, fun {q node p} hnode hp => ?_⟩
    · rw [Tree.size_annotate]
      rw [Tree.node?_annotate] at hnode
      split at hnode
      · obtain ⟨old, hold, rfl⟩ := Option.map_eq_some_iff.mp hnode
        exact hs.closed hold c hc
      · exact hs.closed hnode c hc
    · rw [Tree.node?_annotate] at hnode
      split at hnode
      · obtain ⟨old, hold, rfl⟩ := Option.map_eq_some_iff.mp hnode
        exact (hscope _ p hp).elim (fun hp => hs.scope_lt hold hp) fun hlt => hlt
      · exact hs.scope_lt hnode hp

/-- A copy of a subtree is appended. -/
theorem of_copied {t : Tree} {id top : NodeId} (h : s.tree.Copied t [id] [top]) :
    s.Advances { s with tree := t } where
  graph := .refl
  tree := h.grows.extends
  clean := fun h => h
  opens := fun ⟨node, hnode, hsome⟩ => ⟨node, h.grows.node?_eq_some hnode, hsome⟩
  noted := fun ⟨node, hnode, hfits⟩ => ⟨node, h.grows.node?_eq_some hnode, hfits⟩
  subtree_lt := subtree_lt_blank
  intact hs := by
    refine ⟨hs.regular, h.closed hs.closed, fun {q node p} hnode hp => ?_⟩
    by_cases hlt : q.index < s.tree.size
    · rw [h.grows.node? hlt] at hnode
      exact hs.scope_lt hnode hp
    · rw [(h.fresh (Nat.le_of_not_lt hlt) hnode).1] at hp
      cases hp

end Advances

/-! ### Parts of an analysis -/

/-- A member of a trait that is copied in the course of an analysis: it is found among the members
of the trait when a usage of the trait is carried out, and copied some time after. -/
structure Copying (root s : Analysis) where
  trait : SymbolId
  member : SymbolId
  copy : SymbolId
  name : String
  flags : Flags
  /-- The state in which the members of the trait are looked at. -/
  offer : Analysis
  before : Analysis
  after : Analysis
  root_offer : root.Advances offer
  offers : offer.graph.Offers trait member
  offer_before : offer.Advances before
  run : Hierarchy.copyMember member trait name flags before = .ok copy after
  after_end : after.Advances s

/-- The copy, seen later on. -/
def Copying.later (k : Copying root s) (h : s.Advances s') : Copying root s' :=
  { k with after_end := k.after_end.trans h }

/-- A part of an analysis that has started in the state `root`. -/
structure Unfolds (root s s' : Analysis) : Prop
    extends Advances s s', Graph.Steady s.graph s'.graph where
  aborted : s'.log.aborted = s.log.aborted
  copied : ∀ {c}, s.graph.symbols.size ≤ c.index → (s'.graph.symbol c).flags.isParam = false →
    (s'.graph.symbol c).origin.isSome = true → ∃ k : Copying root s', k.copy = c

namespace Unfolds

/-- Edits that add no symbols. -/
theorem of_advances (h : s.Advances s') (hsize : s'.graph.symbols.size = s.graph.symbols.size)
    (hsteady : s.graph.Steady s'.graph) (haborted : s'.log.aborted = s.log.aborted) :
    Unfolds root s s' :=
  ⟨h, hsteady, haborted, fun {c} hc _ horigin => by
    rw [Graph.symbol_of_size_le (by omega)] at horigin
    cases horigin⟩

protected theorem refl : Unfolds root s s :=
  of_advances .refl rfl .refl rfl

protected theorem trans (h : Unfolds root s s') (h' : Unfolds root s' s'') :
    Unfolds root s s'' where
  toAdvances := h.toAdvances.trans h'.toAdvances
  toSteady := h.toSteady.trans h'.toSteady
  aborted := h'.aborted.trans h.aborted
  copied {c} hc hparam horigin := by
    by_cases hlt : c.index < s'.graph.symbols.size
    · have hendures := h'.graph.endures hlt
      obtain ⟨k, hk⟩ := h.copied hc (hendures.isParam ▸ hparam) (hendures.origin ▸ horigin)
      exact ⟨k.later h'.toAdvances, hk⟩
    · exact h'.copied (Nat.le_of_not_lt hlt) hparam horigin

theorem of_graph {g : Graph} (h : s.graph.Proceeds s.tree.size g) :
    Unfolds root s { s with graph := g } where
  toAdvances := .of_graph h.toAdvances fun hx => (h.declared hx).imp_right And.right
  toSteady := h.toSteady
  aborted := rfl
  copied {c} hc hparam horigin := by
    rcases h.declared hc with hdeclared | ⟨hnone, -⟩
    · exact absurd (hdeclared.symm.trans hparam) Bool.noConfusion
    · rw [show (g.symbol c).origin = none from hnone] at horigin
      cases horigin

theorem of_log (hgraph : s'.graph = s.graph) (htree : s'.tree = s.tree)
    (hclean : s'.log.Clean → s.log.Clean) (haborted : s'.log.aborted = s.log.aborted) :
    Unfolds root s s' :=
  of_advances (.of_log hgraph htree hclean) (by rw [hgraph]) (hgraph ▸ .refl) haborted

/-- A part of an analysis between two edits that leave the symbols alone. -/
theorem within {s₁ s₂ : Analysis} (hfirst : s.Advances s₁)
    (hsize : s₁.graph.symbols.size = s.graph.symbols.size) (h : Unfolds root s₁ s₂)
    (hlast : s₂.Advances s') (hsymbol : ∀ x, s'.graph.symbol x = s₂.graph.symbol x)
    (hsteady : s.graph.Steady s'.graph) (haborted : s'.log.aborted = s.log.aborted) :
    Unfolds root s s' where
  toAdvances := (hfirst.trans h.toAdvances).trans hlast
  toSteady := hsteady
  aborted := haborted
  copied {c} hc hparam horigin := by
    rw [hsymbol] at hparam horigin
    obtain ⟨k, hk⟩ := h.copied (hsize ▸ hc) hparam horigin
    exact ⟨k.later hlast, hk⟩

end Unfolds

/-! ### Runs -/

section Runs

variable {a : α} {b : β} {halt : Halt} {id : NodeId}

theorem ok_bind {x : AnalysisM α} {f : α → AnalysisM β} (h : (x >>= f) s = .ok b s') :
    ∃ a s₁, x s = .ok a s₁ ∧ f a s₁ = .ok b s' := by
  change EStateM.bind x f s = .ok b s' at h
  unfold EStateM.bind at h
  split at h
  next a s₁ hx => exact ⟨a, s₁, hx, h⟩
  next => cases h

theorem error_bind {x : AnalysisM α} {f : α → AnalysisM β} (h : (x >>= f) s = .error halt s') :
    x s = .error halt s' ∨ ∃ a s₁, x s = .ok a s₁ ∧ f a s₁ = .error halt s' := by
  change EStateM.bind x f s = .error halt s' at h
  unfold EStateM.bind at h
  split at h
  next a s₁ hx => exact .inr ⟨a, s₁, hx, h⟩
  next halt' s₁ hx =>
    cases h
    exact .inl hx

theorem ok_pure {a' : α} (h : (pure a : AnalysisM α) s = .ok a' s') : a = a' ∧ s = s' := by
  cases h
  exact ⟨rfl, rfl⟩

theorem ok_map {x : AnalysisM α} {f : α → β} (h : (f <$> x) s = .ok b s') :
    ∃ a, x s = .ok a s' ∧ f a = b := by
  change EStateM.map f x s = .ok b s' at h
  unfold EStateM.map at h
  split at h
  next a _ hx =>
    cases h
    exact ⟨a, hx, rfl⟩
  next => cases h

theorem ok_get {r : Analysis} (h : (get : AnalysisM Analysis) s = .ok r s') : s = r ∧ s = s' := by
  cases h
  exact ⟨rfl, rfl⟩

theorem ok_modify {f : Analysis → Analysis} {u : PUnit}
    (h : (modify f : AnalysisM PUnit) s = .ok u s') : s' = f s := by
  cases h
  rfl

theorem ok_currentGraph {g : Graph} (h : currentGraph s = .ok g s') : s.graph = g ∧ s = s' := by
  cases h
  exact ⟨rfl, rfl⟩

theorem ok_onGraph {f : Graph → α × Graph} (h : onGraph f s = .ok a s') :
    (f s.graph).1 = a ∧ s' = { s with graph := (f s.graph).2 } := by
  cases h
  exact ⟨rfl, rfl⟩

theorem ok_read {node : Node} (h : read id s = .ok node s') :
    s.tree.node? id = some node ∧ s = s' := by
  obtain ⟨r, s₁, hget, h⟩ := ok_bind h
  obtain ⟨rfl, rfl⟩ := ok_get hget
  cases hfound : s.tree.node? id with
  | none =>
    rw [hfound] at h
    cases h
  | some found =>
    rw [hfound] at h
    obtain ⟨rfl, rfl⟩ := ok_pure h
    exact ⟨rfl, rfl⟩

theorem ok_annotate {f : Annotation → Annotation} {u : Unit} (h : annotate id f s = .ok u s') :
    ∃ node, s.tree.node? id = some node ∧
      s' = { s with tree := s.tree.annotate id f } := by
  obtain ⟨node, s₁, hread, h⟩ := ok_bind h
  obtain ⟨hnode, rfl⟩ := ok_read hread
  exact ⟨node, hnode, ok_modify h⟩

theorem ok_onTree {f : Tree → Except Halt (α × Tree)} (h : onTree f s = .ok a s') :
    ∃ tree, f s.tree = .ok (a, tree) ∧ s' = { s with tree } := by
  obtain ⟨r, s₁, hget, h⟩ := ok_bind h
  obtain ⟨rfl, rfl⟩ := ok_get hget
  cases hf : f s.tree with
  | error halt =>
    rw [hf] at h
    cases h
  | ok result =>
    rw [hf] at h
    obtain ⟨u, s₂, hmodify, h⟩ := ok_bind h
    obtain ⟨rfl, rfl⟩ := ok_pure h
    exact ⟨result.2, rfl, ok_modify hmodify⟩

theorem error_map {x : AnalysisM α} {f : α → β} (h : (f <$> x) s = .error halt s') :
    x s = .error halt s' := by
  change EStateM.map f x s = .error halt s' at h
  unfold EStateM.map at h
  split at h
  next => cases h
  next hx =>
    cases h
    exact hx

theorem error_onTree {f : Tree → Except Halt (α × Tree)} (h : onTree f s = .error halt s') :
    f s.tree = .error halt := by
  rcases error_bind h with h | ⟨r, s₁, hget, h⟩
  · cases h
  obtain ⟨rfl, rfl⟩ := ok_get hget
  cases hf : f s.tree with
  | error halt' =>
    rw [hf] at h
    cases h
    rfl
  | ok result =>
    rw [hf] at h
    cases h

end Runs

/-! ### Computations -/

/-- The state belongs to an analysis that has started in the state `root`. -/
structure Follows (root s : Analysis) : Prop where
  intact : root.Intact
  advances : root.Advances s

theorem Follows.now (h : Follows root s) : s.Intact := h.advances.intact h.intact

theorem Follows.next (h : Follows root s) (h' : s.Advances s') : Follows root s' :=
  ⟨h.intact, h.advances.trans h'⟩

/-- The property stays true as an analysis goes on. -/
def Lasting (P : Analysis → Prop) : Prop := ∀ ⦃s s'⦄, s.Advances s' → P s → P s'

/-- The scope is in the arena. -/
def Open (q : ScopeId) (s : Analysis) : Prop := q.index < s.graph.scopes.size

theorem lasting_open (q : ScopeId) : Lasting (Open q) :=
  fun _ _ h hq => Nat.lt_of_lt_of_le hq h.graph.scopes_le

/-- The node has the given payload. -/
def At (id : NodeId) (kind : NodeKind) (s : Analysis) : Prop :=
  ∃ node, s.tree.node? id = some node ∧ node.kind = kind

theorem lasting_at (id : NodeId) (kind : NodeKind) : Lasting (At id kind) := by
  rintro s s' h ⟨node, hnode, rfl⟩
  obtain ⟨node', hnode', hkind, -⟩ := h.tree.node? hnode
  exact ⟨node', hnode', hkind⟩

end Analysis

end Scoping
