import Scoping.Proofs.Order.Ground

/-!
# Types may be resolved in any order

Two computations commute in a graph if each may come first: the graph is the same in the end, and so
is what is reported, but for the order (`Analysis.Slides`). Resolving a type commutes with changes
of other types that are being resolved and are not referred to (`Hierarchy.resolveWithin_slides`),
and therefore with resolving another type (`Hierarchy.resolveWithin_commutes`). A type that has been
resolved is left alone. So the order in which types are resolved makes no difference
(`Hierarchy.resolveTypes_order`).
-/

namespace Scoping

namespace Graph

theorem modifySymbol_comm {g : Graph} {x y : SymbolId} (h : x ≠ y) (f f' : Symbol → Symbol) :
    (g.modifySymbol y f').modifySymbol x f = (g.modifySymbol x f).modifySymbol y f' := by
  refine ext_of_view rfl (by simp) (fun _ => rfl) fun z => ?_
  simp only [symbol_modifySymbol, size_symbols_modifySymbol]
  grind

theorem modifySymbol_congr {g : Graph} {x : SymbolId} {f f' : Symbol → Symbol}
    (hf : f' (g.symbol x) = f (g.symbol x)) : g.modifySymbol x f' = g.modifySymbol x f := by
  refine ext_of_view rfl (by simp) (fun _ => rfl) fun y => ?_
  rw [symbol_modifySymbol, symbol_modifySymbol]
  split
  next hy => rw [hy.1, hf]
  next => rfl

theorem modifyScope_comm {g : Graph} {q p : ScopeId} (h : q ≠ p) (f f' : Scope → Scope) :
    (g.modifyScope p f').modifyScope q f = (g.modifyScope q f).modifyScope p f' := by
  refine ext_of_view (by simp) rfl (fun r => ?_) fun _ => rfl
  simp only [scope_modifyScope, size_scopes_modifyScope]
  grind

end Graph

/-- There is fuel for a chain of all symbols. -/
theorem Analysis.size_lt_budget (s : Analysis) : s.graph.symbols.size < s.budget := by
  have hlt : s.graph.symbols.size < s.graph.symbols.size + s.tree.size + 2 := by omega
  exact hlt.trans_le ((Nat.le_mul_self _).trans (Nat.le_add_right _ _))

/-! ### Computations that change places -/

namespace Analysis

variable {α β : Type} {κ : AnalysisM Unit} {x x' : AnalysisM α} {g : Graph}
  {Q : α → Graph → Prop}

/-- The graph decides what a computation does. -/
theorem Acts.unique {a a' : α} {g₁ g₂ : Graph} {ds ds' : List Diagnostic} (h : Acts x g a g₁ ds)
    (h' : Acts x g a' g₂ ds') : g₁ = g₂ ∧ ds = ds' := by
  have heq := (h { graph := g, tree := default } rfl).symm.trans (h' _ rfl)
  simp only [EStateM.Result.ok.injEq, after, Analysis.mk.injEq, Log.extend, Log.mk.injEq,
    List.nil_append] at heq
  exact ⟨heq.2.1, heq.2.2.2.1.1⟩

/-- `κ` may come before or after another computation, which goes like `x` if `κ` comes after it and
like `x'` if `κ` comes before it. -/
def Slides (κ : AnalysisM Unit) (x x' : AnalysisM α) (g : Graph) (Q : α → Graph → Prop) : Prop :=
  ∀ g' k, Acts κ g () g' k → ∃ a g₁ g₁' ds ds' k₁, Acts x g a g₁ ds ∧ Acts x' g' a g₁' ds' ∧
    Acts κ g₁ () g₁' k₁ ∧ (ds ++ k₁).Perm (k ++ ds') ∧ Q a g₁

namespace Slides

theorem mono {R : α → Graph → Prop} (h : Slides κ x x' g Q) (hr : ∀ a g₁, Q a g₁ → R a g₁) :
    Slides κ x x' g R := by
  intro g' k hκ
  obtain ⟨a, g₁, g₁', ds, ds', k₁, hx, hx', hκ₁, hperm, hq⟩ := h g' k hκ
  exact ⟨a, g₁, g₁', ds, ds', k₁, hx, hx', hκ₁, hperm, hr a g₁ hq⟩

theorem bind {f f' : α → AnalysisM β} {R : β → Graph → Prop} (hx : Slides κ x x' g Q)
    (hf : ∀ a g₁, Q a g₁ → Slides κ (f a) (f' a) g₁ R) : Slides κ (x >>= f) (x' >>= f') g R := by
  intro g' k hκ
  obtain ⟨a, g₁, g₁', ds, ds', k₁, hx, hx', hκ₁, hperm, hq⟩ := hx g' k hκ
  obtain ⟨b, g₂, g₂', es, es', k₂, hf, hf', hκ₂, hperm', hr⟩ := hf a g₁ hq g₁' k₁ hκ₁
  refine ⟨b, g₂, g₂', ds ++ es, ds' ++ es', k₂, hx.bind hf, hx'.bind hf', hκ₂, ?_, hr⟩
  rw [List.append_assoc, ← List.append_assoc k]
  refine (hperm'.append_left ds).trans ?_
  rw [← List.append_assoc]
  exact hperm.append_right es'

theorem forM {f f' : β → AnalysisM Unit} {P : Graph → Prop} {items : List β}
    (hf : ∀ b ∈ items, ∀ g, P g → Slides κ (f b) (f' b) g fun _ => P) (h : P g) :
    Slides κ (items.forM f) (items.forM f') g fun _ => P := by
  induction items generalizing g with
  | nil => exact fun g' k hκ => ⟨(), g, g', [], [], k, .pure (), .pure (), hκ, by simp, h⟩
  | cons b rest ih =>
    exact (hf b List.mem_cons_self g h).bind fun _ g₁ h₁ =>
      ih (fun b hb => hf b (List.mem_cons_of_mem _ hb)) h₁

/-- It is the same whether `κ` slides past `x` or `x` past `κ`. -/
theorem flip {x : AnalysisM Unit} {Q R : Unit → Graph → Prop} {g₁ : Graph} {ds : List Diagnostic}
    (hx : Acts x g () g₁ ds) (hr : R () g₁) (h : Slides x κ κ g Q) : Slides κ x x g R := by
  intro g' k hκ
  obtain ⟨_, g₂, g₂', es, es', k₁, hκ', hκ₁, hx', hperm, -⟩ := h g₁ ds hx
  obtain ⟨rfl, rfl⟩ := hκ.unique hκ'
  exact ⟨(), g₁, g₂', ds, k₁, es', hx, hx', hκ₁, hperm.symm, hr⟩

end Slides

end Analysis

namespace Hierarchy

open Analysis Scoping.Graph

variable {env : Environment} {g₀ g g' start : Graph} {types : Set SymbolId}
  {busy : Finset SymbolId} {t u y : SymbolId} {m : ScopeId} {κ : AnalysisM Unit}
  {e e' : Graph → Graph}

/-! ### Changes of a type -/

/-- Changes of what belongs to a type. -/
inductive Edit (g₀ : Graph) (t : SymbolId) : (Graph → Graph) → Prop
  | refl : Edit g₀ t id
  | symbol {x : SymbolId} {f : Symbol → Symbol} (hx : Owns g₀ t x)
    (hf : ∀ s, (f s).outline = s.outline) : Edit g₀ t (·.modifySymbol x f)
  | scope {m : ScopeId} {f : Scope → Scope} (hm : (g₀.symbol t).members? = some m)
    (hf : ∀ s, (f s).outline = s.outline) : Edit g₀ t (·.modifyScope m f)
  | comp {e e' : Graph → Graph} : Edit g₀ t e → Edit g₀ t e' → Edit g₀ t (e' ∘ e)

theorem Edit.touches (he : Edit g₀ t e) (g : Graph) : Touches g₀ {t} g (e g) := by
  induction he generalizing g with
  | refl => exact .refl
  | symbol hx hf => exact .modifySymbol hx (hf _)
  | scope hm hf => exact .modifyScope hm (hf _)
  | comp _ _ ih ih' => exact (ih g).trans (ih' _)

/-- A change that makes sense for the symbol in one graph only. -/
theorem Edit.replace {x : SymbolId} {f : Symbol → Symbol} (hx : Owns g₀ t x)
    (hf : (f (g.symbol x)).outline = (g.symbol x).outline) :
    ∃ e, Edit g₀ t e ∧ ∀ g₁ : Graph, g₁.symbol x = g.symbol x → g₁.modifySymbol x f = e g₁ := by
  classical
  refine ⟨_, .symbol hx (f := fun s => if s = g.symbol x then f s else s) fun s => ?_,
    fun g₁ h₁ => modifySymbol_congr (if_pos h₁).symm⟩
  split
  next heq => rw [heq, hf]
  next => rfl

/-- Changes of different types commute. -/
theorem Edit.comm (hg : Ground env types g₀) (ht : t ∈ types) (hu : u ∈ types) (hne : u ≠ t)
    (he : Edit g₀ t e) (he' : Edit g₀ u e') (g : Graph) : e (e' g) = e' (e g) := by
  obtain ⟨m', hm'⟩ := hg.exists_members? hu
  induction he generalizing g with
  | refl => rfl
  | comp _ _ ih ih' => rw [Function.comp, ih, ih']; rfl
  | symbol hx _ =>
    induction he' generalizing g with
    | refl => rfl
    | comp _ _ ih ih' => rw [Function.comp, ih', ih]; rfl
    | symbol hy _ =>
      exact modifySymbol_comm (by rintro rfl; exact hne (hg.owns_unique ht hm' hx hy)) _ _
    | scope hm _ => rfl
  | scope hm _ =>
    induction he' generalizing g with
    | refl => rfl
    | comp _ _ ih ih' => rw [Function.comp, ih', ih]; rfl
    | symbol hy _ => rfl
    | scope hm'' _ =>
      exact modifyScope_comm (by rintro rfl; exact hne (hg.own t ht u _ hm hm'')) _ _

/-- A computation that keeps away from `t` and from types that are ready. -/
structure Aside (types : Set SymbolId) (g₀ : Graph) (busy : Finset SymbolId) (t : SymbolId)
    (κ : AnalysisM Unit) : Prop where
  sight : ∀ {g g' k}, Stage types g₀ busy g → Acts κ g () g' k → Sight types g₀ busy t g g'
  edit : ∀ {g g' k e}, Edit g₀ t e → Stage types g₀ busy g → Acts κ g () g' k →
    ∃ k', k.Perm k' ∧ Acts κ (e g) () (e g') k'

section Aside

variable {α : Type} {x z : AnalysisM α} {Q : α → Graph → Prop}

/-- A computation that changes `t` in a way that depends on what `t` sees. -/
theorem Aside.slides (hκ : Aside types g₀ busy t κ) (h : Stage types g₀ busy g) {a : α}
    {r : List Diagnostic} (he : Edit g₀ t e)
    (hx : ∀ g₁, Sight types g₀ busy t g g₁ → Acts x g₁ a (e g₁) r) (hq : Q a (e g)) :
    Slides κ x x g Q := by
  intro g' k hrun
  obtain ⟨k', hperm, hrun'⟩ := hκ.edit he h hrun
  exact ⟨a, e g, e g', r, r, k', hx g (h.sight t), hx g' (hκ.sight h hrun), hrun',
    List.perm_append_comm.trans (hperm.symm.append_right r), hq⟩

/-- A computation that reads what `t` sees. -/
theorem Aside.read {β : Type} (hκ : Aside types g₀ busy t κ) (h : Stage types g₀ busy g) {b : β}
    {r : AnalysisM β} {f f' : β → AnalysisM α}
    (hr : ∀ g₁, Sight types g₀ busy t g g₁ → Acts r g₁ b g₁ []) (hf : Slides κ (f b) (f' b) g Q) :
    Slides κ (r >>= f) (r >>= f') g Q := by
  refine Slides.bind (Q := fun b' g₁ => b' = b ∧ g₁ = g) (hκ.slides h .refl hr ⟨rfl, rfl⟩) ?_
  rintro _ _ ⟨rfl, rfl⟩
  exact hf

theorem Aside.symbol (hκ : Aside types g₀ busy t κ) (h : Stage types g₀ busy g) {y : SymbolId}
    {s : Symbol} {f f' : Symbol → AnalysisM α}
    (hs : ∀ g₁, Sight types g₀ busy t g g₁ → g₁.symbol y = s) (hf : Slides κ (f s) (f' s) g Q) :
    Slides κ (symbol y >>= f) (symbol y >>= f') g Q :=
  hκ.read h (fun g₁ h₁ => by rw [← hs g₁ h₁]; exact .symbol y) hf

theorem Aside.modifyGraph (hκ : Aside types g₀ busy t κ) (h : Stage types g₀ busy g)
    (he : Edit g₀ t e) {f : Graph → Graph} {Q : Unit → Graph → Prop}
    (hf : ∀ g₁, Sight types g₀ busy t g g₁ → f g₁ = e g₁) (hq : Q () (e g)) :
    Slides κ (modifyGraph f) (modifyGraph f) g Q := by
  refine hκ.slides (r := []) h he (fun g₁ hs => ?_) hq
  rw [← hf g₁ hs]
  exact .modifyGraph f

theorem Aside.modifySymbol (hκ : Aside types g₀ busy t κ) (hg : Ground env types g₀)
    (h : Stage types g₀ busy g) (ht : t ∈ busy) {y : SymbolId} (hy : Owns g₀ t y)
    {f : Symbol → Symbol} {Q : Unit → Graph → Prop}
    (hf : (f (g.symbol y)).outline = (g.symbol y).outline) (hq : Q () (g.modifySymbol y f)) :
    Slides κ (Analysis.modifyGraph (·.modifySymbol y f)) (Analysis.modifyGraph (·.modifySymbol y f))
      g Q := by
  obtain ⟨m, hm⟩ := hg.exists_members? (h.subset t ht)
  obtain ⟨e, he, hsame⟩ := Edit.replace hy hf
  refine hκ.modifyGraph h he (fun g₁ hs => hsame g₁ ?_) (hsame g rfl ▸ hq)
  exact (Stage.eq_of_sight hg hs hm (.inl rfl)).1 y hy

/-- A computation that goes on with what it reads in the graph. -/
theorem Aside.graph (hκ : Aside types g₀ busy t κ) (h : Stage types g₀ busy g)
    {f f' : Graph → AnalysisM α}
    (hf : ∀ g₁, Sight types g₀ busy t g g₁ → f g₁ = f g ∧ f' g₁ = f' g)
    (hq : Slides κ (f g) (f' g) g Q) : Slides κ (currentGraph >>= f) (currentGraph >>= f') g Q := by
  intro g' k hrun
  obtain ⟨a, g₁, g₁', ds, ds', k₁, hx, hx', hrest⟩ := hq g' k hrun
  rw [← (hf g' (hκ.sight h hrun)).2] at hx'
  exact ⟨a, g₁, g₁', ds, ds', k₁, Acts.currentGraph.bind_quiet hx, Acts.currentGraph.bind_quiet hx',
    hrest⟩

end Aside

/-! ### Progress -/

/-- From `start` to `g` only types have changed that `t` leads to and that were not ready. -/
structure Headway (types : Set SymbolId) (g₀ : Graph) (busy : Finset SymbolId) (t : SymbolId)
    (start g : Graph) : Prop where
  stage : Stage types g₀ busy g
  touches : Touches g₀ {u | u ∈ types ∧ Relation.ReflTransGen (RefersWithin types g₀) t u ∧
    ¬ Ready types busy start u} start g

/-- So it is when `t` has been resolved. -/
def Arrives (types : Set SymbolId) (g₀ : Graph) (busy : Finset SymbolId) (t : SymbolId)
    (start : Graph) (_ : Unit) (g : Graph) : Prop :=
  Headway types g₀ busy t start g ∧ Ready types busy g t

section Headway

variable (hg : Ground env types g₀)

include hg

theorem Headway.ready (hstart : Stage types g₀ busy start) (h : Headway types g₀ busy t start g)
    (hu : Ready types busy start u) : Ready types busy g u :=
  hstart.ready_of_touches hg h.touches (fun _ hv => hv.1) (fun hv => hv.2.2 hu) hu

/-- What `t` refers to is resolved on the way. -/
theorem Headway.tail (hstart : Stage types g₀ busy start) (h : Headway types g₀ busy t start g)
    (hy : RefersWithin types g₀ t y) (h' : Headway types g₀ busy y g g') :
    Headway types g₀ busy t start g' :=
  ⟨h'.stage, h.touches.trans <| h'.touches.mono fun _ hu =>
    ⟨hu.1, hu.2.1.head hy, fun hready => hu.2.2 (h.ready hg hstart hready)⟩⟩

variable (ht : t ∈ busy) (h : Headway types g₀ busy t start g)

omit hg in
include ht h in
theorem Headway.touch (htouch : Touches g₀ {t} g g') (hstage : Stage types g₀ busy g') :
    Headway types g₀ busy t start g' := by
  refine ⟨hstage, h.touches.trans (htouch.mono ?_)⟩
  rintro u rfl
  have hmem := hstage.subset u ht
  exact ⟨hmem, .refl, fun hready => (hready.2 hmem).1 ht⟩

include ht h

theorem Headway.modifySymbol {f : Symbol → Symbol}
    (hf : (f (g.symbol t)).outline = (g.symbol t).outline)
    (hleads : ∀ v ∈ (f (g.symbol t)).leads, v ∈ (g.symbol t).leads ∨ Ready types busy g v) :
    Headway types g₀ busy t start (g.modifySymbol t f) := by
  have htouch : Touches g₀ {t} g (g.modifySymbol t f) := .modifySymbol (.inl rfl) hf
  have hlt : t.index < g.symbols.size := by
    obtain ⟨m, hm⟩ := hg.exists_members? (h.stage.subset t ht)
    rw [← h.stage.members?_eq] at hm
    exact lt_size_of_members? hm
  have hself := symbol_modifySymbol_self hlt f
  refine h.touch ht htouch (h.stage.touch hg ht htouch ?_ fun _ _ _ => .inl)
  rwa [hself]

end Headway

/-! ### What a type refers to -/

section References

variable {place : ScopeId} {path : QualName}

theorem lookupPath_acts (hg : g.Nested) (hq : g.Level place) (path : QualName) :
    Acts (onGraph (·.lookupPath place path .type)) g (g.meaning place path) g [] := by
  have hrun := Acts.onGraph (g := g) (·.lookupPath place path .type)
  rwa [hq.lookupPath_eq hg] at hrun

/-- The type that a reference is accepted to mean. -/
def acceptRef (place : ScopeId) (kind : SymbolKind) (ref : TypeRef) :
    AnalysisM (Except Problem SymbolId) := do
  let result ← onGraph (·.lookupPath place ref.path .type)
  return acceptType (← currentGraph) ref.path kind result

/-- What is made of the answer. -/
def requireAccepted (resolve : SymbolId → AnalysisM Unit) (ref : TypeRef) :
    Except Problem SymbolId → AnalysisM (Option SymbolId)
  | .ok id => do
    resolve id
    return some id
  | .error problem => do
    report ref.span problem
    return none

theorem found_of_acceptType {kind : SymbolKind} {result : Lookup}
    (h : acceptType g path kind result = .ok y) :
    result = .found y ∧ (g.symbol y).kind = kind := by
  cases result with
  | found id =>
    simp only [acceptType] at h
    split at h
    · cases h
    next hkind =>
      split at h
      · cases h
      · cases h
        exact ⟨rfl, not_not.mp hkind⟩
  | _ => cases h

theorem requireType_eq (resolve : SymbolId → AnalysisM Unit) (kind : SymbolKind) (ref : TypeRef) :
    requireType resolve place kind ref = (do
      let answer ← acceptRef place kind ref
      requireAccepted resolve ref answer) := by
  simp only [requireType, acceptRef, bind_assoc, pure_bind]
  refine bind_congr fun result => bind_congr fun g => ?_
  cases acceptType g ref.path kind result <;> rfl

/-- While `t` is being resolved, `resolve` and `resolve'` resolve what it refers to. -/
structure Nested (types : Set SymbolId) (g₀ : Graph) (busy : Finset SymbolId) (t : SymbolId)
    (κ : AnalysisM Unit) (resolve resolve' : SymbolId → AnalysisM Unit) : Prop where
  free : ∀ y, RefersWithin types g₀ t y → y ∉ busy
  skip : ∀ {y g}, (g.symbol y).data.resolution? = some .resolved →
    Acts (resolve y) g () g [] ∧ Acts (resolve' y) g () g []
  run : ∀ {y g}, RefersWithin types g₀ t y → Stage types g₀ busy g →
    Slides κ (resolve y) (resolve' y) g (Arrives types g₀ busy y g)

end References

section Body

variable (hg : Ground env types g₀) (ht : t ∈ busy) (hstart : Stage types g₀ busy start)
  (hκ : Aside types g₀ busy t κ)
  {resolve resolve' : SymbolId → AnalysisM Unit} (hres : Nested types g₀ busy t κ resolve resolve')
  {kind : SymbolKind} {ref : TypeRef}

section Accept

variable (href : (kind, ref.path) ∈ (references (g₀.symbol t).data).map fun e => (e.1, e.2.path))

include href in
theorem refers_of_meaning (hmeaning : g₀.meaning (declaringScope g₀ t) ref.path = .found y)
    (hkind : (g₀.symbol y).kind = kind) : Refers g₀ t y := by
  obtain ⟨⟨kind', ref'⟩, hmem, heq⟩ := List.mem_map.mp href
  simp only [Prod.mk.injEq] at heq
  obtain ⟨rfl, hpath⟩ := heq
  exact ⟨kind', ref', hmem, by rwa [hpath], hkind⟩

include hg ht hres

/-- What a type refers to is not being resolved. -/
theorem resolution_ne (h : Stage types g₀ busy g) {g₁ : Graph}
    (hs : Sight types g₀ busy t g g₁) (hy : Refers g₀ t y) :
    (g₁.symbol y).data.resolution? ≠ some .resolving := by
  intro hresolving
  by_cases hmem : y ∈ types
  · exact hres.free y ⟨h.subset t ht, hmem, hy⟩ (hs.resolving y hmem hresolving)
  · obtain ⟨m, hm⟩ := exists_members?_of_isType (isType_of_refers hy)
    have htouch := h.touches.trans (hs.touches.mono fun _ hv => hv.1)
    rw [(htouch.eq_of_notMem hg subset_rfl hm hmem).1 y (.inl rfl),
      (hg.outside t (h.subset t ht) y hy).resolve_left hmem] at hresolving
    cases hresolving

include href

/-- A reference is accepted to mean the same in all graphs that look the same for the type. -/
theorem acceptRef_acts (h : Stage types g₀ busy g) {g₁ : Graph}
    (hs : Sight types g₀ busy t g g₁) :
    Acts (acceptRef (declaringScope g₀ t) kind ref) g₁
      (acceptType g ref.path kind (g₀.meaning (declaringScope g₀ t) ref.path)) g₁ [] := by
  have hmem := h.subset t ht
  have hnested := hg.coherent.nested
  have houtline := hs.touches.outline.trans h.outline
  refine (lookupPath_acts (hnested.of_outline houtline)
    ((Level.of_isRoot hnested (hg.place t hmem)).of_outline houtline) ref.path).bind_quiet ?_
  refine Acts.currentGraph.bind_quiet ?_
  rw [meaning_congr_of_isRoot houtline hnested hg.hinged (hg.place t hmem)]
  have hsame : acceptType g₁ ref.path kind (g₀.meaning (declaringScope g₀ t) ref.path) =
      acceptType g ref.path kind (g₀.meaning (declaringScope g₀ t) ref.path) := by
    cases hmeaning : g₀.meaning (declaringScope g₀ t) ref.path with
    | found y =>
      have hkind₁ := Symbol.kind_of_outline (outline_symbol_eq houtline y)
      have hkind₂ := Symbol.kind_of_outline (outline_symbol_eq h.outline y)
      by_cases hkind : (g₀.symbol y).kind = kind
      · have hrefers := refers_of_meaning href hmeaning hkind
        have hne₁ := resolution_ne hg ht hres h hs hrefers
        have hne₂ := resolution_ne hg ht hres h (h.sight t) hrefers
        simp only [acceptType, hkind₁, hkind₂, if_neg hne₁, if_neg hne₂]
      · simp only [acceptType, hkind₁, hkind₂, ne_eq, hkind, not_false_eq_true, if_true]
    | _ => rfl
  rw [hsame]
  exact .pure _

include hstart hκ

/-- A type that another one asks for is resolved on the way, on either side of the change. -/
theorem requireType_slides (h : Headway types g₀ busy t start g) :
    Slides κ (requireType resolve (declaringScope g₀ t) kind ref)
      (requireType resolve' (declaringScope g₀ t) kind ref) g fun a g₁ =>
        Headway types g₀ busy t start g₁ ∧ ∀ y ∈ a, Ready types busy g₁ y := by
  rw [requireType_eq, requireType_eq]
  refine hκ.read h.stage (fun g₁ hs => acceptRef_acts hg ht hres href h.stage hs) ?_
  cases haccept : acceptType g ref.path kind (g₀.meaning (declaringScope g₀ t) ref.path) with
  | error problem =>
    exact hκ.slides h.stage .refl (fun g₁ _ => (Acts.report _ _).bind (.pure none))
      ⟨h, fun y hy => by cases hy⟩
  | ok y =>
    have hy : Refers g₀ t y := by
      obtain ⟨hmeaning, hkind⟩ := found_of_acceptType haccept
      refine refers_of_meaning href hmeaning ?_
      rw [← hkind, Symbol.kind_of_outline (outline_symbol_eq h.stage.outline y)]
    refine Slides.bind
      (Q := fun _ g₁ => Headway types g₀ busy t start g₁ ∧ Ready types busy g₁ y) ?_
      fun _ g₁ h₁ => hκ.slides h₁.1.stage .refl (fun _ _ => .pure (some y))
        ⟨h₁.1, fun z hz => Option.some.inj hz ▸ h₁.2⟩
    by_cases hmem : y ∈ types
    · have hwithin : RefersWithin types g₀ t y := ⟨h.stage.subset t ht, hmem, hy⟩
      exact (hres.run hwithin h.stage).mono fun _ g₁ h₁ =>
        ⟨h.tail hg hstart hwithin h₁.1, h₁.2⟩
    · obtain ⟨m, hm⟩ := exists_members?_of_isType (isType_of_refers hy)
      have hsame := fun {g₁} (htouch : Touches g₀ types g₀ g₁) =>
        (htouch.eq_of_notMem hg subset_rfl hm hmem).1 y (.inl rfl)
      have hresolved := (hg.outside t (h.stage.subset t ht) y hy).resolve_left hmem
      intro g' k hrun
      have htouch := h.stage.touches.trans
        ((hκ.sight h.stage hrun).touches.mono fun _ hv => hv.1)
      refine ⟨(), g, g', [], [], k, (hres.skip ?_).1, (hres.skip ?_).2, hrun, by simp, h, ?_⟩
      · rw [hsame h.stage.touches, hresolved]
      · rw [hsame htouch, hresolved]
      · exact ⟨⟨m, (h.stage.members?_eq y).trans hm⟩, fun hin => absurd hin hmem⟩

end Accept

/-! ### Links -/

/-- The change of a payload adds at most a link to `y`. -/
structure Links (y : SymbolId) (f : SymbolData → SymbolData) : Prop where
  outline : ∀ data, (f data).outline = data.outline
  leads : ∀ s : Symbol, ∀ v ∈ Symbol.leads { s with data := f s.data }, v ∈ s.leads ∨ v = y

theorem links_super (y : SymbolId) : Links y (·.mapClass fun data =>
    { data with super := data.super.map fun ref => { ref with target := some y } }) where
  outline data := by
    cases data with
    | cls data =>
      simp only [SymbolData.mapClass, SymbolData.outline, Option.map_map]
      rfl
    | _ => rfl
  leads s v hv := by
    rcases List.mem_append.mp hv with hv | hv
    · refine .inl (List.mem_append_left _ ?_)
      cases s
      cases ‹SymbolData› <;> exact hv
    · cases s
      cases ‹SymbolData› with
      | cls data =>
        obtain ⟨_ | ref, interfaces, traits, m, r⟩ := data
        · cases hv
        · exact .inr (List.mem_singleton.mp hv)
      | _ => cases hv

theorem links_interface (index : Nat) (y : SymbolId) :
    Links y (·.mapClass fun d => { d with interfaces := setTarget d.interfaces index y }) ∧
      Links y (·.mapInterface fun d =>
        { d with interfaces := setTarget d.interfaces index y }) := by
  have hunlinked : ∀ refs : List TypeRef,
      (setTarget refs index y).map TypeRef.unlinked = refs.map TypeRef.unlinked :=
    fun refs => map_setTarget TypeRef.unlinked (fun _ => rfl) refs index
  have hmem : ∀ {refs : List TypeRef} {s : Symbol} {v : SymbolId},
      s.interfaces = refs.filterMap TypeRef.target →
      v ∈ (setTarget refs index y).filterMap TypeRef.target → v ∈ s.leads ∨ v = y := by
    intro refs s v hs hv
    refine (mem_setTarget hv).imp_left fun hold => List.mem_append_left _ ?_
    rwa [hs]
  refine ⟨⟨fun data => ?_, fun s v hv => ?_⟩, ⟨fun data => ?_, fun s v hv => ?_⟩⟩
  case refine_1 | refine_3 =>
    cases data <;> simp [SymbolData.mapClass, SymbolData.mapInterface, SymbolData.outline,
      hunlinked]
  all_goals
    rcases List.mem_append.mp hv with hv | hv
    · cases s
      cases ‹SymbolData› <;> first | exact hmem rfl hv | exact .inl (List.mem_append_left _ hv)
    · refine .inl (List.mem_append_right _ ?_)
      cases s
      cases ‹SymbolData› <;> exact hv

include hg ht in
theorem Headway.link (h : Headway types g₀ busy t start g) {f : SymbolData → SymbolData}
    (hf : Links y f) (hy : Ready types busy g y) :
    Headway types g₀ busy t start (g.modifyData t f) :=
  h.modifySymbol hg ht (Symbol.outline_of_data (hf.outline _))
    fun v hv => (hf.leads _ v hv).imp_right (by rintro rfl; exact hy)

include hg ht hstart hκ hres in
/-- So it is for the superclass, which may not be one that is being resolved. -/
theorem requireSuper_slides (h : Headway types g₀ busy t start g) {super : Option TypeRef}
    (href : ∀ ref ∈ super, (SymbolKind.cls, ref.path) ∈
      (references (g₀.symbol t).data).map fun e => (e.1, e.2.path)) :
    Slides κ (requireSuper env resolve (declaringScope g₀ t) t super)
      (requireSuper env resolve' (declaringScope g₀ t) t super) g fun a g₁ =>
        Headway types g₀ busy t start g₁ ∧ ∀ y ∈ a, Ready types busy g₁ y := by
  cases super with
  | none =>
    exact hκ.slides h.stage .refl (fun _ _ => .pure _)
      ⟨h, fun r hr => h.stage.ready_root hg (Option.filter_eq_some_iff.mp hr).1⟩
  | some ref =>
    refine (requireType_slides hg ht hstart hκ hres (href ref rfl) h).bind fun a g₁ h₁ => ?_
    cases a with
    | none => exact hκ.slides h₁.1.stage .refl (fun _ _ => .pure none) h₁
    | some base =>
      have hfinal : ∀ g₂, Sight types g₀ busy t g₁ g₂ →
          (g₂.symbol base).flags.isFinal = (g₁.symbol base).flags.isFinal ∧
            (g₂.symbol base).span = (g₁.symbol base).span := by
        intro g₂ hs
        have houtline := outline_symbol_eq hs.touches.outline base
        exact ⟨(openness_of_flags (Symbol.flags_of_outline houtline)).2.2.1,
          Symbol.span_of_outline houtline⟩
      let problem := Problem.finalSuper ref.path
      refine hκ.slides (r := if (g₁.symbol base).flags.isFinal then
        [(Log.errorDiagnostic problem.kind ref.span problem.message).addLabel
          (g₁.symbol base).span "declared final here"] else []) h₁.1.stage .refl
        (fun g₂ hs => (Acts.symbol base).bind_quiet ?_) h₁
      dsimp only
      rw [(hfinal g₂ hs).1, (hfinal g₂ hs).2]
      split
      · exact (Acts.reportWithPrevious _ _ _ _).bind (.pure (some base))
      · exact .pure (some base)

include hg ht hκ in
/-- The superclass is linked, if one has been found. -/
theorem linkFound_slides (h : Headway types g₀ busy t start g)
    (hm : (g₀.symbol t).members? = some m) {base : Option SymbolId}
    (hbase : ∀ y ∈ base, Ready types busy g y) :
    Slides κ (linkFound t m base) (linkFound t m base) g fun _ =>
      Headway types g₀ busy t start := by
  cases base with
  | none => exact hκ.slides h.stage .refl (fun _ _ => .pure ()) h
  | some super =>
    let f : Scope → Scope := (·.mapMember fun info => { info with super := g.membersOf? super })
    have hf : ∀ s, (f s).outline = s.outline := by
      intro s
      unfold f Scope.outline Scope.mapMember
      cases s.member <;> rfl
    have htouch : Touches g₀ {t} g (g.modifyScope m f) := .modifyScope hm (hf _)
    have hready := hbase super rfl
    have hlinked : Headway types g₀ busy t start (g.modifyScope m f) := by
      refine h.touch ht htouch (h.stage.touch hg ht htouch (fun _ => .inl)
        fun m' p hm' hp => ?_)
      rw [← modifyMember, superScope?_linkSuper] at hp
      split at hp
      · exact .inr ⟨super, hready, hp⟩
      · exact .inl hp
    rw [linkFound]
    have hlinks := links_super super
    refine hκ.modifyGraph h.stage (.comp (.scope hm hf)
      (.symbol (.inl rfl) fun _ => Symbol.outline_of_data (hlinks.outline _))) (fun g₁ hs => ?_)
      (hlinked.link hg ht hlinks hready)
    have hmembers : g₁.membersOf? super = g.membersOf? super :=
      Symbol.members?_of_outline (outline_symbol_eq hs.touches.outline super)
    simp only [linkSuper, hmembers]
    rfl

include hg ht hstart hκ hres in
/-- The interfaces of a type are linked one after the other. -/
theorem linkInterfaces_slides (h : Headway types g₀ busy t start g) {refs : List TypeRef}
    (href : ∀ ref ∈ refs, (SymbolKind.iface, ref.path) ∈
      (references (g₀.symbol t).data).map fun e => (e.1, e.2.path))
    {put : Nat → SymbolId → SymbolData → SymbolData} (hput : ∀ i y, Links y (put i y)) :
    Slides κ
      (linkInterfaces resolve (declaringScope g₀ t) (fun i y g => g.modifyData t (put i y)) refs)
      (linkInterfaces resolve' (declaringScope g₀ t) (fun i y g => g.modifyData t (put i y)) refs)
      g fun _ => Headway types g₀ busy t start := by
  refine Slides.forM (fun ⟨ref, i⟩ hmem g h => ?_) h
  refine (requireType_slides hg ht hstart hκ hres
    (href ref (List.fst_mem_of_mem_zipIdx hmem)) h).bind fun a g₁ h₁ => ?_
  cases a with
  | none => exact hκ.slides h₁.1.stage .refl (fun _ _ => .pure ()) h₁.1
  | some y =>
    exact hκ.modifySymbol hg h₁.1.stage ht (.inl rfl)
      (Symbol.outline_of_data ((hput i y).outline _))
      (h₁.1.link hg ht (hput i y) (h₁.2 y rfl))

/-! ### Hints -/

section Hints

variable (hm : (g₀.symbol t).members? = some m)

include hg ht hκ hm

/-- The hint of a parameter is looked up past a change that keeps the outline of the graph. -/
theorem resolveHint_slides (h : Headway types g₀ busy t start g) {p : SymbolId}
    (hp : p ∈ paramList g₀ t) : Slides κ (resolveHint m p) (resolveHint m p) g fun _ =>
      Headway types g₀ busy t start := by
  have hmem := h.stage.subset t ht
  have hsymbol : ∀ g₁, Sight types g₀ busy t g g₁ → g₁.symbol p = g.symbol p := fun g₁ hs =>
    (Stage.eq_of_sight hg hs hm (.inl rfl)).1 p (.inr hp)
  have hlookup : ∀ g₁, Sight types g₀ busy t g g₁ → ∀ path,
      Acts (onGraph (·.lookupPath m path .type)) g₁ (g.meaning m path) g₁ [] := by
    intro g₁ hs path
    have hnested := hg.coherent.nested.of_outline h.stage.outline
    have hlevel := (hg.level t hmem m hm).of_outline h.stage.outline
    rw [← (h.stage.concur hg hmem hs).meaning_eq hnested (hg.hinged.of_outline h.stage.outline)
      (.inl rfl) ((h.stage.members?_eq t).trans hm) hlevel path]
    exact lookupPath_acts (hnested.of_outline hs.touches.outline)
      (hlevel.of_outline hs.touches.outline) path
  refine hκ.symbol h.stage hsymbol ?_
  split
  next path hhint =>
    refine hκ.read h.stage (fun g₁ hs => hlookup g₁ hs _) ?_
    split
    next target _ =>
      let f : Symbol → Symbol := fun s =>
        { s with data := s.data.mapVar fun v =>
          { v with hint := some (.named path (some target)) } }
      have hf : (f (g.symbol p)).outline = (g.symbol p).outline := by
        refine Symbol.outline_of_data ?_
        obtain ⟨v, hvar, hv⟩ := Option.bind_eq_some_iff.mp hhint
        unfold Symbol.var? at hvar
        cases hdata : (g.symbol p).data with
        | var v' =>
          rw [hdata] at hvar
          cases hvar
          simp [SymbolData.mapVar, SymbolData.outline, hv, TypeHint.unlinked]
        | _ =>
          rw [hdata] at hvar
          cases hvar
      refine hκ.modifySymbol hg h.stage ht (.inr hp) hf ?_
      have htouch : Touches g₀ {t} g (g.modifySymbol p f) := .modifySymbol (.inr hp) hf
      have hself : (g.modifySymbol p f).symbol t = g.symbol t :=
        symbol_modifySymbol_of_ne (by rintro rfl; exact hg.not_mem_paramList hm hp) f
      refine h.touch ht htouch (h.stage.touch hg ht htouch (fun v hv => ?_) fun _ _ _ => .inl)
      exact .inl (hself ▸ hv)
    · exact hκ.slides h.stage .refl (fun _ _ => .report _ _) h
    · exact hκ.slides h.stage .refl (fun _ _ => .report _ _) h
  · exact hκ.slides h.stage .refl (fun _ _ => .pure ()) h

/-- The hints of a type are looked up, which changes the parameters of its functions. -/
theorem resolveMemberHints_slides (h : Headway types g₀ busy t start g) :
    Slides κ (resolveMemberHints t) (resolveMemberHints t) g fun _ =>
      Headway types g₀ busy t start := by
  have hsees : ∀ {g₁ : Graph}, g₁.outline = g₀.outline →
      g₁.membersOf? t = some m ∧ g₁.memberFunctions t = g₀.memberFunctions t := fun houtline =>
    ⟨(Symbol.members?_of_outline (outline_symbol_eq houtline t)).trans hm,
      by rw [memberFunctions_congr houtline]⟩
  obtain ⟨hmembers, hfunctions⟩ := hsees h.stage.outline
  refine hκ.graph h.stage (fun g₁ hs => ?_) ?_
  · obtain ⟨hmembers', hfunctions'⟩ := hsees (hs.touches.outline.trans h.stage.outline)
    rw [hmembers, hmembers', hfunctions, hfunctions']
    exact ⟨rfl, rfl⟩
  rw [hmembers, hfunctions]
  refine Slides.forM (fun f hf g h => ?_) h
  have hsame : ∀ g₁, Sight types g₀ busy t g g₁ → g₁.symbol f = g₀.symbol f := fun g₁ hs =>
    symbol_eq_of_kind (hs.touches.outline.trans h.stage.outline) (kind_of_mem_memberFunctions hf)
  refine hκ.symbol h.stage hsame ?_
  split
  next data hdata =>
    refine Slides.forM (fun p hp g h => resolveHint_slides hg ht hκ hm h
      (List.mem_flatMap.mpr ⟨f, hf, ?_⟩)) h
    rwa [Symbol.params, hdata]
  · exact hκ.slides h.stage .refl (fun _ _ => .pure ()) h

end Hints

/-! ### Checks -/

include hg ht hκ in
/-- A class may be made abstract. -/
theorem abstracted_slides (h : Headway types g₀ busy t start g) (hkind : (g₀.symbol t).kind = .cls)
    {x : AnalysisM Unit} (should : Bool) {r : List Diagnostic}
    (hx : ∀ g₁, Sight types g₀ busy t g g₁ → Acts x g₁ () (abstracted g₁ t should) r) :
    Slides κ x x g fun _ => Headway types g₀ busy t start := by
  cases should with
  | false => exact hκ.slides h.stage .refl hx h
  | true =>
    have hmem := h.stage.subset t ht
    obtain ⟨m, hm⟩ := hg.exists_members? hmem
    have hsame := outline_symbol_eq h.stage.outline t
    have hmark : (g.symbol t).isMarkable = true := by
      rw [← Symbol.isMarkable_outline, hsame, Symbol.isMarkable_outline, Symbol.isMarkable,
        (hg.unresolved t hmem).ns, hkind]
      rfl
    let f : Symbol → Symbol := fun s => { s with flags := { s.flags with isAbstract := true } }
    have hf : (f (g.symbol t)).outline = (g.symbol t).outline := by
      have hmark' : (f (g.symbol t)).isMarkable = true := hmark
      simp only [Symbol.outline, hmark, hmark', if_true]
      rfl
    obtain ⟨e, he, hedit⟩ := Edit.replace (x := t) (f := f) (.inl rfl) hf
    refine hκ.slides (a := ()) (r := r) h.stage he (fun g₁ hs => ?_) ?_
    · rw [← hedit g₁ ((Stage.eq_of_sight hg hs hm (.inl rfl)).1 t (.inl rfl))]
      exact hx g₁ hs
    · rw [← hedit g rfl]
      exact h.modifySymbol hg ht hf fun _ => .inl

include hg ht hκ in
/-- The checks of a class read what its relatives have become, and these are ready. -/
theorem checkClass_slides (h : Headway types g₀ busy t start g)
    (hkind : (g₀.symbol t).kind = .cls) :
    Slides κ (checkClass env t) (checkClass env t) g fun _ => Headway types g₀ busy t start := by
  have hmem := h.stage.subset t ht
  obtain ⟨m, hm⟩ := hg.exists_members? hmem
  have hself : ∀ {g g₁ : Graph}, Sight types g₀ busy t g g₁ → g₁.symbol t = g.symbol t := fun hs =>
    (Stage.eq_of_sight hg hs hm (.inl rfl)).1 t (.inl rfl)
  refine Slides.bind (Q := fun _ => Headway types g₀ busy t start) ?_ fun _ g h => ?_
  · by_cases hforeign : (g.symbol t).flags.isForeign = true
    · refine hκ.slides (a := ()) (r := []) h.stage .refl
        (fun g₁ hs => Acts.currentGraph.bind_quiet ?_) h
      rw [hself hs, if_pos hforeign]
      exact .pure ()
    · refine abstracted_slides hg ht hκ h hkind (hasAbstract g t)
        (r := finalReport ((abstracted g t (hasAbstract g t)).symbol t)) fun g₁ hs => ?_
      have hacts := markAbstract_acts (g := g₁) (c := t)
        (by rw [hself hs]; exact Bool.eq_false_iff.mpr hforeign)
      have hsymbol : (abstracted g₁ t (hasAbstract g t)).symbol t =
          (abstracted g t (hasAbstract g t)).symbol t := by
        unfold abstracted makeAbstract
        split
        · rw [symbol_modifySymbol, symbol_modifySymbol, hself hs,
            size_symbols_of_outline hs.touches.outline]
        · exact hself hs
      rwa [hasAbstract_congr hs.touches.outline, hsymbol] at hacts
  · by_cases hforeign : (g.symbol t).flags.isForeign = true
    · refine hκ.slides (a := ()) (r := []) h.stage .refl
        (fun g₁ hs => Acts.currentGraph.bind_quiet ?_) h
      rw [hself hs, if_pos hforeign]
      exact .pure ()
    · refine abstracted_slides hg ht hκ h hkind (leavesUnmet env g t)
        (r := (g.obligations env.rootObject t).flatMap fun f => standingReport g f (g.standing t f))
        fun g₁ hs => ?_
      have hown : (g₁.symbol t).flags.isForeign = false := by
        rw [hself hs]
        exact Bool.eq_false_iff.mpr hforeign
      have hacts : Acts (verifyContracts env t) g₁ _ _ _ := verifyContracts_acts hown
      obtain ⟨hunmet, hreports⟩ := standings_congr hg.coherent h.stage.outline
        (h.stage.concur hg hmem hs) (.inl rfl)
      rwa [hunmet, hreports] at hacts

/-! ### The run of one type -/

theorem references_congr {data data' : SymbolData} (h : data'.outline = data.outline) :
    ((references data').map fun e => (e.1, e.2.path)) =
      (references data).map fun e => (e.1, e.2.path) := by
  have hsame := congrArg (fun d => (references d).map fun e => (e.1, e.2.path)) h
  simp only [references_outline, List.map_map] at hsame
  exact hsame

include hg ht hstart hκ hres in
/-- The superclass, the interfaces and the traits of a type are looked up one after another, and the
change in question moves past each of them. -/
theorem prepareBody_slides (h : Headway types g₀ busy t start g) {data : SymbolData}
    (hdata : data.outline = (g₀.symbol t).data.outline) :
    Slides κ (prepareBody env resolve t data) (prepareBody env resolve' t data) g fun _ =>
      Headway types g₀ busy t start := by
  have hmem := h.stage.subset t ht
  have hrefs := references_congr hdata
  have hsame := Symbol.outline_of_data hdata
  have hm : (g₀.symbol t).members? = data.members? := (Symbol.members?_of_outline hsame).symm
  have hkind : data.kind = (g₀.symbol t).data.kind := Symbol.kind_of_outline hsame
  have hstep : ∀ g₁, Sight types g₀ busy t g g₁ → declaringScope g₁ t = declaringScope g t :=
    fun g₁ hs => declaringScope_congr hs.touches.outline t
  cases data with
  | cls data =>
    have hplain : data.traits = [] := by
      cases hold : (g₀.symbol t).data with
      | cls old =>
        rw [hold] at hdata
        simp only [SymbolData.outline, SymbolData.cls.injEq, ClassData.mk.injEq] at hdata
        rw [hdata.2.2.1]
        exact hg.plain t hmem old (by rw [Symbol.class?, hold])
      | _ =>
        rw [hold] at hkind
        cases hkind
    refine hκ.graph h.stage (fun g₁ hs => by simp only [hstep g₁ hs, and_self]) ?_
    simp only [declaringScope_congr h.stage.outline, hplain]
    refine (requireSuper_slides hg ht hstart hκ hres h fun ref href => ?_).bind fun base g₁ h₁ => ?_
    · rw [← hrefs, references]
      refine List.mem_map_of_mem (f := fun e : SymbolKind × TypeRef => (e.1, e.2.path))
        (List.mem_append_left _ (List.mem_map_of_mem (Option.mem_toList.mpr href)))
    refine (linkFound_slides hg ht hκ h₁.1 hm h₁.2).bind fun _ g₂ h₂ => ?_
    refine (linkInterfaces_slides hg ht hstart hκ hres h₂ (fun ref href => ?_)
      fun i y => (links_interface i y).1).bind fun _ g₃ h₃ => ?_
    · rw [← hrefs, references]
      refine List.mem_map_of_mem (f := fun e : SymbolKind × TypeRef => (e.1, e.2.path))
        (List.mem_append_right _ (List.mem_map_of_mem href))
    exact Slides.bind (Q := fun _ => Headway types g₀ busy t start)
      (hκ.slides h₃.stage .refl (fun _ _ => .pure ()) h₃)
      fun _ g₄ h₄ => resolveMemberHints_slides hg ht hκ hm h₄
  | iface data =>
    refine hκ.graph h.stage (fun g₁ hs => by simp only [hstep g₁ hs, and_self]) ?_
    rw [declaringScope_congr h.stage.outline]
    refine (linkInterfaces_slides hg ht hstart hκ hres h (fun ref href => ?_)
      fun i y => (links_interface i y).2).bind fun _ g₁ h₁ =>
        resolveMemberHints_slides hg ht hκ hm h₁
    rw [← hrefs, references]
    exact List.mem_map_of_mem (f := fun e : SymbolKind × TypeRef => (e.1, e.2.path))
      (List.mem_map_of_mem href)
  | _ =>
    rcases hg.kind t hmem with hcls | hcls <;> rw [Symbol.kind, ← hkind] at hcls <;> cases hcls

include hg ht hκ in
theorem finishBody_slides (h : Headway types g₀ busy t start g) {data : SymbolData}
    (hkind : data.kind = (g₀.symbol t).kind) :
    Slides κ (finishBody env t data) (finishBody env t data) g fun _ =>
      Headway types g₀ busy t start := by
  cases data with
  | cls data => exact checkClass_slides hg ht hκ h hkind.symm
  | _ => exact hκ.slides h.stage .refl (fun _ _ => .pure ()) h

include hg ht hκ in
theorem setResolution_slides (h : Headway types g₀ busy t start g) (r : Resolution) :
    Slides κ (setResolution t r) (setResolution t r) g fun _ g₁ =>
      Headway types g₀ busy t start g₁ ∧ (g₁.symbol t).data.resolution? = some r := by
  have htype : (g.symbol t).kind.isType = true := by
    rw [Symbol.kind_of_outline (outline_symbol_eq h.stage.outline t)]
    exact hg.isType (h.stage.subset t ht)
  refine hκ.modifySymbol hg h.stage ht (.inl rfl) (outline_setResolution _ r)
    ⟨h.modifySymbol hg ht (outline_setResolution _ r) fun v hv => .inl ?_,
      resolution?_modifyData htype⟩
  revert hv
  generalize g.symbol t = s
  cases s
  cases ‹SymbolData› <;> exact id

end Body

/-- A type that has been resolved is left alone. -/
theorem resolveStep_skip {resolve : SymbolId → AnalysisM Unit}
    (h : (g.symbol t).data.resolution? = some .resolved) :
    Acts (resolveStep env resolve t) g () g [] := by
  rw [resolveStep_eq]
  refine (Acts.symbol t).bind_quiet ?_
  rw [h, if_neg (fun heq => by cases heq)]
  exact .pure ()

/-- Resolving a type, while those that it refers to are resolved on the way. -/
theorem resolveStep_slides (hg : Ground env types g₀) (ht : t ∈ types) (hbusy : t ∉ busy)
    (hκ : Aside types g₀ (insert t busy) t κ)
    (hkeep : ∀ {g' k}, Ready types busy g t → Acts κ g () g' k → g'.symbol t = g.symbol t)
    {resolve resolve' : SymbolId → AnalysisM Unit}
    (hres : Nested types g₀ (insert t busy) t κ resolve resolve') (h : Stage types g₀ busy g) :
    Slides κ (resolveStep env resolve t) (resolveStep env resolve' t) g
      (Arrives types g₀ busy t g) := by
  obtain ⟨m, hm⟩ := hg.exists_members? ht
  have hsame := outline_symbol_eq h.outline t
  have hmembers := (h.members?_eq t).trans hm
  by_cases hready : Ready types busy g t
  · intro g' k hrun
    have hresolved := (hready.2 ht).2
    exact ⟨(), g, g', [], [], k, resolveStep_skip hresolved,
      resolveStep_skip (by rw [hkeep hready hrun, hresolved]), hrun, by simp, ⟨h, .refl⟩, hready⟩
  have hopen : (g.symbol t).data.resolution? = some .unresolved := by
    obtain ⟨r, hr⟩ := isType_iff.mp ((Symbol.kind_of_outline hsame).symm ▸ hg.isType ht)
    cases r with
    | unresolved => exact hr
    | resolving => exact absurd (h.resolving t ht hr) hbusy
    | resolved => exact absurd ⟨⟨m, hmembers⟩, fun _ => ⟨hbusy, hr⟩⟩ hready
  have hin : t ∈ insert t busy := Finset.mem_insert_self t busy
  have hstart := h.insert_busy ht hready
  rw [resolveStep_eq, resolveStep_eq]
  refine hκ.symbol hstart
    (fun g₁ hs => (Stage.eq_of_sight hg hs hm (.inl rfl)).1 t (.inl rfl)) ?_
  rw [if_pos hopen, if_pos hopen]
  refine (setResolution_slides hg hin hκ ⟨hstart, .refl⟩ .resolving).bind fun _ g₁ h₁ => ?_
  refine (prepareBody_slides hg hin hstart hκ hres h₁.1 (congrArg Symbol.data hsame)).bind
    fun _ g₂ h₂ => ?_
  refine (finishBody_slides hg hin hκ h₂ (Symbol.kind_of_outline hsame)).bind fun _ g₃ h₃ => ?_
  refine (setResolution_slides hg hin hκ h₃ .resolved).mono fun _ g₄ h₄ => ?_
  obtain ⟨⟨hstage, htouches⟩, hresolved⟩ := h₄
  exact ⟨⟨hstage.of_insert_busy hresolved, htouches.mono fun u hu =>
      ⟨hu.1, hu.2.1, fun hu' => hu.2.2 (hu'.insert_busy hready)⟩⟩,
    ⟨m, (hstage.members?_eq t).trans hm⟩, fun _ => ⟨hbusy, hresolved⟩⟩

/-! ### Fuel -/

/-- No type that is being resolved can be reached from `t`. -/
def Clear (types : Set SymbolId) (g₀ : Graph) (busy : Finset SymbolId) (t : SymbolId) : Prop :=
  ∀ u ∈ busy, ¬ Relation.ReflTransGen (RefersWithin types g₀) t u

section Runs

variable (hg : Ground env types g₀)

include hg

/-- Types are not more than there are symbols. -/
theorem Ground.card_le (hsub : ∀ u ∈ busy, u ∈ types) : busy.card ≤ g₀.symbols.size := by
  rw [← Finset.card_range g₀.symbols.size]
  refine Finset.card_le_card_of_injOn SymbolId.index (fun u hu => ?_) fun u _ v _ heq => ?_
  · obtain ⟨m, hm⟩ := hg.exists_members? (hsub u hu)
    exact Finset.mem_coe.mpr (Finset.mem_range.mpr (lt_size_of_members? hm))
  · cases u
    cases v
    exact congrArg SymbolId.mk heq

variable {fuel fuel' : Nat}

/-- The step of the induction on fuel: the type is marked, prepared, checked and marked again, and
the change moves past each of these. -/
theorem resolveWithin_succ (ht : t ∈ types) (hfuel : g₀.symbols.size < fuel + 1 + busy.card)
    (hfuel' : g₀.symbols.size < fuel' + 1 + busy.card) (hclear : Clear types g₀ busy t)
    (hκ : Aside types g₀ (insert t busy) t κ)
    (hkeep : ∀ {g' k}, Ready types busy g t → Acts κ g () g' k → g'.symbol t = g.symbol t)
    (hrun : ∀ {y g}, RefersWithin types g₀ t y → Clear types g₀ (insert t busy) y →
      Stage types g₀ (insert t busy) g → Slides κ (resolveWithin env fuel y)
        (resolveWithin env fuel' y) g (Arrives types g₀ (insert t busy) y g))
    (h : Stage types g₀ busy g) :
    Slides κ (resolveWithin env (fuel + 1) t) (resolveWithin env (fuel' + 1) t) g
      (Arrives types g₀ busy t g) := by
  have hbusy : t ∉ busy := fun hin => hclear t hin .refl
  have hsub : ∀ u ∈ insert t busy, u ∈ types := fun u hu =>
    (Finset.mem_insert.mp hu).elim (· ▸ ht) (h.subset u)
  have hcard := hg.card_le hsub
  rw [Finset.card_insert_of_notMem hbusy] at hcard
  obtain ⟨fuel, rfl⟩ : ∃ n, fuel = n + 1 := ⟨fuel - 1, by omega⟩
  obtain ⟨fuel', rfl⟩ : ∃ n, fuel' = n + 1 := ⟨fuel' - 1, by omega⟩
  have hnext : ∀ y, RefersWithin types g₀ t y → Clear types g₀ (insert t busy) y := by
    intro y hy u hu hpath
    rcases Finset.mem_insert.mp hu with rfl | hu
    · exact hg.acyclic u (Relation.TransGen.head' hy hpath)
    · exact hclear u hu (hpath.head hy)
  exact resolveStep_slides hg ht hbusy hκ hkeep
    ⟨fun y hy hin => hnext y hy y hin .refl,
      fun hy => ⟨resolveStep_skip hy, resolveStep_skip hy⟩, fun hy => hrun hy (hnext _ hy)⟩ h

/-- A type is resolved in the same way whatever happens aside. -/
theorem resolveWithin_slides (ht : t ∈ types) (hfuel : g₀.symbols.size < fuel + busy.card)
    (hfuel' : g₀.symbols.size < fuel' + busy.card) (hclear : Clear types g₀ busy t)
    (hκ : ∀ u busy', busy ⊆ busy' → Relation.ReflTransGen (RefersWithin types g₀) t u →
      Aside types g₀ busy' u κ) (h : Stage types g₀ busy g) :
    Slides κ (resolveWithin env fuel t) (resolveWithin env fuel' t) g
      (Arrives types g₀ busy t g) := by
  induction fuel generalizing fuel' busy t g with
  | zero =>
    have hcard := hg.card_le h.subset
    omega
  | succ fuel ih =>
    have hcard := hg.card_le h.subset
    obtain ⟨fuel', rfl⟩ : ∃ n, fuel' = n + 1 := ⟨fuel' - 1, by omega⟩
    have hsub := Finset.subset_insert t busy
    have hcard' := Finset.card_insert_of_notMem fun hin => hclear t hin .refl
    refine resolveWithin_succ hg ht hfuel hfuel' hclear (hκ t _ hsub .refl) (fun _ hrun => ?_)
      (fun {y g} hy hclear h => ?_) h
    · obtain ⟨m, hm⟩ := hg.exists_members? ht
      have hs := (hκ t busy subset_rfl .refl).sight h hrun
      exact (Stage.eq_of_sight hg hs hm (.inl rfl)).1 t (.inl rfl)
    · exact ih hy.2.1 (by omega) (by omega) hclear
        (fun u busy' hsub' hpath => hκ u busy' (hsub.trans hsub') (hpath.head hy)) h

/-- A type can be resolved, with whatever fuel is enough. -/
theorem resolveWithin_acts (ht : t ∈ types) (hfuel : g₀.symbols.size < fuel + busy.card)
    (hfuel' : g₀.symbols.size < fuel' + busy.card) (hclear : Clear types g₀ busy t)
    (h : Stage types g₀ busy g) : ∃ g₁ ds ds', Acts (resolveWithin env fuel t) g () g₁ ds ∧
      Acts (resolveWithin env fuel' t) g () g₁ ds' ∧ ds.Perm ds' ∧
      Arrives types g₀ busy t g () g₁ := by
  have hidle : ∀ u busy', busy ⊆ busy' → Relation.ReflTransGen (RefersWithin types g₀) t u →
      Aside types g₀ busy' u (pure ()) := by
    refine fun u busy' _ _ => ⟨fun {g g' k} h hrun => ?_, fun {g g' k e} _ _ hrun => ?_⟩
    · obtain ⟨rfl, -⟩ := hrun.unique (.pure ())
      exact h.sight u
    · obtain ⟨rfl, rfl⟩ := hrun.unique (.pure ())
      exact ⟨[], .refl _, .pure ()⟩
  obtain ⟨_, g₁, g₁', ds, ds', k, hacts, hacts', hidle, hperm, hend⟩ :=
    resolveWithin_slides hg ht hfuel hfuel' hclear hidle h g [] (.pure ())
  obtain ⟨rfl, rfl⟩ := hidle.unique (.pure ())
  rw [List.append_nil, List.nil_append] at hperm
  exact ⟨g₁', ds, ds', hacts, hacts', hperm, hend⟩

/-- Resolving a type keeps away from types that it does not lead to. -/
theorem resolveWithin_aside {c : SymbolId} (hc : c ∈ types) (ht : t ∈ busy)
    (hfuel : g₀.symbols.size < fuel + busy.card) (hclear : Clear types g₀ busy c) :
    Aside types g₀ busy t (resolveWithin env fuel c) := by
  refine ⟨fun {g g' k} h hrun => ?_, fun {g g' k e} he h hrun => ?_⟩
  · obtain ⟨g₁, ds, -, hacts, -, -, hend, -⟩ := resolveWithin_acts hg hc hfuel hfuel hclear h
    obtain ⟨rfl, -⟩ := hrun.unique hacts
    refine ⟨hend.touches.mono fun u hu => ⟨hu.1, ?_, hu.2.2⟩, hend.stage.resolving⟩
    rintro rfl
    exact hclear u ht hu.2.1
  · have hmem := h.subset t ht
    have hedit : ∀ u busy', busy ⊆ busy' → Relation.ReflTransGen (RefersWithin types g₀) c u →
        Aside types g₀ busy' u (modifyGraph e) := by
      intro u busy' hsub hpath
      have hne : t ≠ u := by
        rintro rfl
        exact hclear t ht hpath
      refine ⟨fun {g g' k} h hrun => ?_, fun {g g' k e'} he' h hrun => ?_⟩
      · obtain ⟨rfl, -⟩ := hrun.unique (.modifyGraph e)
        refine ⟨(he.touches g).mono ?_, fun v hv hr => ?_⟩
        · rintro v rfl
          exact ⟨hmem, hne, fun hready => (hready.2 hmem).1 (hsub ht)⟩
        · by_cases heq : v = t
          · exact heq ▸ hsub ht
          · obtain ⟨m, hm⟩ := hg.exists_members? hv
            rw [((he.touches g).eq_of_notMem hg (Set.singleton_subset_iff.mpr hmem) hm heq).1 v
              (.inl rfl)] at hr
            exact h.resolving v hv hr
      · obtain ⟨rfl, rfl⟩ := hrun.unique (.modifyGraph e)
        have hu : u ∈ types := by
          rcases hpath.cases_tail with rfl | ⟨v, -, hlast⟩
          · exact hc
          · exact hlast.2.1
        refine ⟨[], .refl _, ?_⟩
        rw [he'.comm hg hu hmem hne he]
        exact .modifyGraph e
    obtain ⟨_, g₁, g₁', ds, ds', k₁, hacts, hacts', hmodify, hperm, -⟩ :=
      resolveWithin_slides hg hc hfuel hfuel hclear hedit h _ [] (.modifyGraph e)
    obtain ⟨rfl, rfl⟩ := hrun.unique hacts
    obtain ⟨rfl, rfl⟩ := hmodify.unique (.modifyGraph e)
    exact ⟨ds', by simpa using hperm, hacts'⟩

/-- Two types may be resolved in either order. -/
theorem resolveWithin_commutes {c : SymbolId} (ht : t ∈ types) (hc : c ∈ types)
    (hfuel : g₀.symbols.size < fuel + busy.card) (hfuel' : g₀.symbols.size < fuel' + busy.card)
    (hclear : Clear types g₀ busy t) (hclear' : Clear types g₀ busy c)
    (h : Stage types g₀ busy g) :
    Slides (resolveWithin env fuel' c) (resolveWithin env fuel t) (resolveWithin env fuel t) g
      (Arrives types g₀ busy t g) := by
  obtain ⟨n, hn⟩ : ∃ n, fuel + fuel' = n := ⟨_, rfl⟩
  induction n using Nat.strong_induction_on generalizing fuel fuel' busy t c g with
  | h n ih =>
    -- `t` is resolved step by step if `c` does not lead to it
    have hside : ∀ {fuel fuel' t c}, fuel + fuel' = n → t ∈ types → c ∈ types →
        g₀.symbols.size < fuel + busy.card → g₀.symbols.size < fuel' + busy.card →
        Clear types g₀ busy t → Clear types g₀ busy c →
        ¬ Relation.ReflTransGen (RefersWithin types g₀) c t →
        Slides (resolveWithin env fuel' c) (resolveWithin env fuel t) (resolveWithin env fuel t) g
          (Arrives types g₀ busy t g) := by
      intro fuel fuel' t c hn ht hc hfuel hfuel' hclear hclear' hpath
      have hcard := hg.card_le h.subset
      obtain ⟨fuel, rfl⟩ : ∃ n, fuel = n + 1 := ⟨fuel - 1, by omega⟩
      have hcard' := Finset.card_insert_of_notMem fun hin => hclear t hin .refl
      have hclear'' : Clear types g₀ (insert t busy) c := by
        intro u hu
        rcases Finset.mem_insert.mp hu with rfl | hu
        · exact hpath
        · exact hclear' u hu
      refine resolveWithin_succ hg ht hfuel hfuel hclear
        (resolveWithin_aside hg hc (Finset.mem_insert_self t busy) (by omega) hclear'')
        (fun hready hrun => ?_) (fun {y g} hy hnext h => ?_) h
      · obtain ⟨m, hm⟩ := hg.exists_members? ht
        obtain ⟨g₁, _, _, hacts, -, -, hend, -⟩ := resolveWithin_acts hg hc hfuel' hfuel' hclear' h
        obtain ⟨rfl, -⟩ := hrun.unique hacts
        exact (hend.touches.eq_of_notMem hg (fun _ hu => hu.1) hm fun hu => hu.2.2 hready).1 t
          (.inl rfl)
      · exact ih (fuel + fuel') (by omega) hy.2.1 hc (by omega) (by omega) hnext hclear'' h rfl
    obtain ⟨g₁, ds, ds', hacts, hacts', hperm, hend⟩ :=
      resolveWithin_acts hg ht hfuel hfuel' hclear h
    by_cases hpath : Relation.ReflTransGen (RefersWithin types g₀) c t
    · rcases Relation.reflTransGen_iff_eq_or_transGen.mp hpath with rfl | hpath
      · -- a type is resolved once
        intro g' k hrun
        obtain ⟨rfl, rfl⟩ := hrun.unique hacts'
        have hcard := hg.card_le h.subset
        obtain ⟨fuel, rfl⟩ : ∃ n, fuel = n + 1 := ⟨fuel - 1, by omega⟩
        obtain ⟨fuel', rfl⟩ : ∃ n, fuel' = n + 1 := ⟨fuel' - 1, by omega⟩
        have hresolved := (hend.2.2 ht).2
        exact ⟨(), g', g', ds, [], [], hacts, resolveStep_skip hresolved,
          resolveStep_skip hresolved, by simpa using hperm, hend⟩
      · refine Slides.flip hacts hend (hside (by omega) hc ht hfuel' hfuel hclear' hclear
          fun hback => hg.acyclic c (hpath.trans_left hback))
    · exact hside hn ht hc hfuel hfuel' hclear hclear' hpath

/-! ### Any order -/

variable {order order' : List SymbolId} {s : Analysis}

/-- Resolving some of the types, one after the other. -/
theorem resolveTypes_acts (horder : ∀ t ∈ order, t ∈ types) (h : Stage types g₀ ∅ s.graph) :
    ∃ g ds, Acts (order.forM (resolveWithin env s.budget)) s.graph () g ds ∧
      order.forM (resolveType env) s = .ok () (s.after g ds) ∧
      (∀ u, Ready types ∅ s.graph u → Ready types ∅ g u) ∧ ∀ t ∈ order, Ready types ∅ g t := by
  induction order generalizing s with
  | nil => exact ⟨s.graph, [], .pure (), Acts.pure () s rfl, fun _ => id, nofun⟩
  | cons t rest ih =>
    have hfuel : g₀.symbols.size < s.budget + (∅ : Finset SymbolId).card := by
      rw [← size_symbols_of_outline h.outline]
      exact s.size_lt_budget
    obtain ⟨g₁, ds, -, hacts, -, -, hend, hready⟩ := resolveWithin_acts hg
      (horder t List.mem_cons_self) hfuel hfuel (fun _ hu => absurd hu (Finset.notMem_empty _)) h
    have hbudget : (s.after g₁ ds).budget = s.budget := by
      have hsize := size_symbols_of_outline hend.touches.outline
      simp only [budget, after, hsize]
    obtain ⟨g, ds', hrest, hrun, hkeep, hall⟩ :=
      ih (s := s.after g₁ ds) (fun u hu => horder u (List.mem_cons_of_mem t hu)) hend.stage
    rw [hbudget] at hrest
    refine ⟨g, ds ++ ds', hacts.bind hrest, ?_, fun u hu => hkeep u (hend.ready hg h hu), ?_⟩
    · have hfirst : resolveType env t s = .ok () (s.after g₁ ds) := hacts s rfl
      show EStateM.bind (resolveType env t) (fun _ => rest.forM (resolveType env)) s = _
      rw [EStateM.bind, hfirst]
      dsimp only
      rw [hrun]
      simp only [after, Log.extend_extend]
    · rintro u (_ | ⟨_, hu⟩)
      · exact hkeep t hready
      · exact hall u hu

/-- In whichever order the types are resolved, and however often, the graph is the same in the end,
and so is what is reported, but for the order. -/
theorem resolveTypes_order (horder : ∀ t ∈ order, t ∈ types) (hsame : ∀ t, t ∈ order' ↔ t ∈ order)
    (hs : s.graph = g₀) : ∃ g ds ds',
    order.forM (resolveType env) s = .ok () (s.after g ds) ∧
      order'.forM (resolveType env) s = .ok () (s.after g ds') ∧ ds.Perm ds' := by
  have hstart : Stage types g₀ ∅ s.graph := hs ▸ hg.stage
  have horder' : ∀ t ∈ order', t ∈ types := fun t ht => horder t ((hsame t).mp ht)
  have hfuel : g₀.symbols.size < s.budget + (∅ : Finset SymbolId).card := hs ▸ s.size_lt_budget
  have hclear : ∀ u, Clear types g₀ ∅ u := fun _ _ hu => absurd hu (Finset.notMem_empty _)
  -- each type commutes with a list of them, and so do two lists
  have hone : ∀ c ∈ types, ∀ g, Stage types g₀ ∅ g → Slides (resolveWithin env s.budget c)
      (order.forM (resolveWithin env s.budget)) (order.forM (resolveWithin env s.budget)) g
      fun _ => Stage types g₀ ∅ := fun c hc g h =>
    Slides.forM (fun t ht g h => (resolveWithin_commutes hg (horder t ht) hc hfuel hfuel (hclear t)
      (hclear c) h).mono fun _ _ hend => hend.1.stage) h
  have hboth : Slides (order.forM (resolveWithin env s.budget))
      (order'.forM (resolveWithin env s.budget)) (order'.forM (resolveWithin env s.budget)) s.graph
      fun _ => Stage types g₀ ∅ := by
    refine Slides.forM (fun c hc g h => ?_) hstart
    have hmem := horder' c hc
    obtain ⟨g₁, ds, -, hacts, -, -, hend⟩ := resolveWithin_acts hg hmem hfuel hfuel (hclear c) h
    exact Slides.flip hacts hend.1.stage (hone c hmem g h)
  -- what has been resolved is left alone by the other list
  have hskip : ∀ {g} {items : List SymbolId}, (∀ t ∈ items, t ∈ types) →
      (∀ t ∈ items, Ready types ∅ g t) →
      Acts (items.forM (resolveWithin env s.budget)) g () g [] := by
    intro g items hitems hready
    obtain ⟨n, hn⟩ : ∃ n, s.budget = n + 1 := ⟨s.budget - 1, by simp at hfuel; omega⟩
    rw [hn]
    induction items with
    | nil => exact .pure ()
    | cons t rest ih =>
      refine Acts.bind_quiet (resolveStep_skip ((hready t List.mem_cons_self).2
        (hitems t List.mem_cons_self)).2) (ih (fun u hu => hitems u (List.mem_cons_of_mem t hu))
          fun u hu => hready u (List.mem_cons_of_mem t hu))
  obtain ⟨g, ds, hacts, hrun, -, hall⟩ := resolveTypes_acts hg horder hstart
  obtain ⟨g', ds', hacts', hrun', -, hall'⟩ := resolveTypes_acts hg horder' hstart
  obtain ⟨_, g₁, g₂, es, es', k, hfirst, hsecond, hthird, hperm, -⟩ := hboth g ds hacts
  obtain ⟨rfl, rfl⟩ := hacts'.unique hfirst
  obtain ⟨rfl, rfl⟩ := hsecond.unique (hskip horder' fun t ht => hall t ((hsame t).mp ht))
  obtain ⟨rfl, rfl⟩ := hthird.unique (hskip horder fun t ht => hall' t ((hsame t).mpr ht))
  rw [List.append_nil, List.append_nil] at hperm
  exact ⟨_, ds, ds', hrun, hrun', hperm.symm⟩

end Runs

end Hierarchy

end Scoping
