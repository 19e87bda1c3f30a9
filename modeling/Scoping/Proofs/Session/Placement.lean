import Scoping.Proofs.Graph.Visibility
import Scoping.Proofs.Session.Dropped
import Scoping.Proofs.Session.Privacy

/-!
# Where symbols are placed

A unit, a module and the members of a type have a partition for what is private to them. At every
point of a session the partition holds private symbols and nothing else, the scope itself holds none
of them, and no name is in both (`Session.partition_placement`). Every symbol that a table holds has
a visibility, and only members are protected.
-/

namespace Scoping

namespace Graph

variable {g g' : Graph} {types : Set SymbolId}

/-- What a partition holds is private. -/
structure Secluded (g : Graph) : Prop where
  entry : ∀ {q ns name x}, (g.scope q).table.get? ns name = some x → (g.scope q).outer ≠ none →
    (g.symbol x).flags.isPrivate = true

/-- Only a private symbol is entered into a partition. -/
theorem Entering.isPrivate (hg : g.Coherent) (hs : g.Secluded) {target p : ScopeId}
    {symbol : SymbolId} (hsymbol : g.Fresh symbol) (h : g.Entering target symbol p)
    (houter : (g.scope p).outer ≠ none) :
    ((g.declare target symbol).2.symbol symbol).flags.isPrivate = true := by
  cases h with
  | add =>
    rw [flags_declare hsymbol.lt_size]
    have howner := hg.nested.partitioned.outer_owner target
    simp only [landing, placeFor] at houter
    split at houter
    · split at houter
      next hprivate => exact hprivate
      next => exact absurd howner houter
    · exact absurd howner houter
  | replace hv hold =>
    -- the symbol that is completed is private, since it is there
    rw [flags_declare_replace hv hg.nested.partitioned hsymbol.lt_size]
    exact hs.entry (hg.home_of_replace hv hold).2 houter

theorem Step.secluded (hg : g.Coherent) (h : Step types g g') (hs : g.Secluded) : g'.Secluded := by
  refine ⟨fun {q ns name x} hx houter => ?_⟩
  rcases h.entry_cases hg hx with hx | ⟨hin, -, target, -, hsymbol, -, hdeclare, hp⟩
  · rw [h.grows.outer (lt_size_of_get? hx)] at houter
    rw [h.isPrivate_eq (hg.entry hx).1 fun hfresh => hfresh.not_listed ⟨q, ns, name, hx⟩]
    exact hs.entry hx houter
  · rw [h.grows.outer hin.lt_size] at houter
    exact hdeclare ▸ hp.isPrivate hg hs hsymbol houter

theorem Steps.secluded (hg : g.Coherent) (h : Steps types g g') (hs : g.Secluded) :
    g'.Secluded := by
  induction h with
  | refl => exact hs
  | tail hfirst hstep ih => exact hstep.secluded (hg.steps hfirst) ih

/-- Nothing is published in a partition. -/
theorem Publishing.secluded (h : g.Publishing g') (hs : g.Secluded) (hd : g'.Discreet) :
    g'.Secluded := by
  refine ⟨fun {q ns name x} hx houter => ?_⟩
  have hold := (h.entry hx).resolve_right
    fun hout => hout.1.not_inside (hd.sheltered.partition hx houter)
  rw [h.outer (lt_size_of_get? hold)] at houter
  rw [h.symbol]
  exact hs.entry hold houter

/-- A symbol that a scope with a partition holds is not private. -/
theorem Discreet.isPrivate_eq_false (hd : g.Discreet) (hg : g.Coherent) {p : ScopeId}
    (hp : (g.scope p).kind.isPartitioned = true) {ns : Namespace} {name : String} {x : SymbolId}
    (hx : (g.scope p).table.get? ns name = some x) : (g.symbol x).flags.isPrivate = false := by
  refine Bool.eq_false_iff.mpr fun hprivate => ?_
  have houter : (g.scope p).outer = none :=
    hg.nested.outer_of_kind fun hkind => by rw [hkind] at hp; cases hp
  exact hd.linked.inner hp (hd.sheltered.entry hx hprivate houter).2

/-- No name is both in a scope and in its partition. -/
theorem Succession.disjoint (hs : g.Succession) (hg : g.Coherent) (hd : g.Discreet)
    {p q : ScopeId} (hq : (g.scope p).inner = some q) (ns : Namespace) (name : String) :
    (g.scope p).table.get? ns name = none ∨ (g.scope q).table.get? ns name = none := by
  have houter := hg.nested.partitioned.outer_of_inner hq
  have howner : g.owner q = g.owner p := by
    have hself := hg.nested.partitioned.owner_owner q
    rw [owner_of_outer_eq_some houter] at hself ⊢
    exact hself.symm
  cases hx : (g.scope p).table.get? ns name with
  | none => exact .inl rfl
  | some x =>
    refine .inr (Option.eq_none_iff_forall_ne_some.mpr fun y hy => ?_)
    have hinside : g.Inside q :=
      hd.sheltered.partition hy (by rw [houter]; exact Option.some_ne_none p)
    have heq := hs.sole (hinside.of_owner_eq howner.symm) howner hx hy
    exact absurd (hg.nested.inner_gt hq) (by rw [heq]; exact Nat.lt_irrefl _)

/-! ### Before the first unit -/

/-- All symbols are public and none is protected. -/
structure Overt (g : Graph) : Prop where
  isPublic : ∀ {x}, x.index < g.symbols.size → (g.symbol x).flags.isPublic = true
  isProtected : ∀ x, (g.symbol x).flags.isProtected = false

theorem overt_initial : initial.Overt := by
  have hblank : ∀ x, initial.symbol x = .blank := fun x => symbol_of_size_le (Nat.zero_le _)
  refine ⟨fun hx => absurd hx (Nat.not_lt_zero _), fun x => ?_⟩
  rw [hblank]
  rfl

namespace Overt

variable (hg : g.Overt)

include hg

theorem modifyScope (p : ScopeId) (f : Scope → Scope) : (g.modifyScope p f).Overt :=
  ⟨hg.isPublic, hg.isProtected⟩

/-- One more symbol, wherever it has come from. -/
theorem of_symbol {g' : Graph} {s : Symbol} (hsize : g'.symbols.size = g.symbols.size + 1)
    (hsymbol : ∀ x, g'.symbol x = if x.index = g.symbols.size then s else g.symbol x)
    (hpublic : s.flags.isPublic = true) (hprotected : s.flags.isProtected = false) :
    g'.Overt := by
  refine ⟨fun {x} hx => ?_, fun x => ?_⟩ <;> rw [hsymbol] <;> split
  · exact hpublic
  next hne => exact hg.isPublic (by omega)
  · exact hprotected
  · exact hg.isProtected x

/-- A managed declaration keeps all symbols public. -/
theorem declareManaged {symbol : SymbolId} (hsymbol : symbol.index < g.symbols.size)
    (target : ScopeId) (ns : Namespace) : (g.declareManaged target symbol ns).2.Overt := by
  have hvisible : (g.symbol symbol).flags.hasVisibility = true := by
    rw [Flags.hasVisibility, hg.isPublic hsymbol]
    rfl
  have hmanage : ∀ x, ((g.manage symbol ns).symbol x).flags = (g.symbol x).flags := by
    intro x
    by_cases hx : x = symbol
    · rw [hx, Graph.manage, symbol_modifySymbol_self hsymbol]
      exact if_pos hvisible
    · rw [Graph.manage, symbol_modifySymbol_of_ne hx]
  have hsize : (g.manage symbol ns).symbols.size = g.symbols.size :=
    size_symbols_modifySymbol g _ _
  -- the declaration settles the visibility of the symbol, which is public
  have hflags : ∀ x, ((g.declareManaged target symbol ns).2.symbol x).flags = (g.symbol x).flags ∨
      ((g.declareManaged target symbol ns).2.symbol x).flags =
        (g.manage symbol ns).effectiveFlags ((g.manage symbol ns).owner target)
          (g.symbol x).flags := by
    intro x
    rw [declareManaged_eq]
    by_cases hx : x = symbol
    · rw [hx, flags_declare (by rwa [hsize]), hmanage]
      exact .inr rfl
    · rw [symbol_declare_stamp Symbol.flags fun _ _ _ => rfl, symbol_stamp_of_ne hx, hmanage]
      exact .inl rfl
  refine ⟨fun {x} hx => ?_, fun x => ?_⟩
  · rw [declareManaged_eq, size_symbols_declare, hsize] at hx
    rcases hflags x with h | h
    · rw [h, hg.isPublic hx]
    · rw [h, isPublic_effectiveFlags, hg.isPublic hx]
  · rcases hflags x with h | h
    · rw [h, hg.isProtected]
    · rw [h]
      refine Bool.eq_false_iff.mpr fun hprotected => ?_
      have htrue := (isProtected_effectiveFlags hprotected).1
      rw [hg.isProtected] at htrue
      cases htrue

end Overt

/-- Before the first unit all entries are public. -/
theorem Founding.visible (hg : g.Founding) (hovert : g.Overt) : g.Visible := by
  refine ⟨fun {q ns name x} hx => ⟨?_, fun hprotected => ?_⟩⟩
  · rw [Flags.hasVisibility, hovert.isPublic (symbol_lt_size (hg.agreement.entry hx).1)]
    rfl
  · rw [hovert.isProtected] at hprotected
    cases hprotected

end Graph

namespace Session

open Scoping.Graph

variable {config : Config} {reducer : Reducer} {loader : Loader} {s : Session} {g : Graph}

theorem overt_addIntrinsic (hg : g.Overt) (name : String) : (addIntrinsic g name).Overt := by
  have halloc := hg.of_symbol (size_symbols_alloc g _) (symbol_alloc g (Symbol.mkDetached name {}
    { isPublic := true } (.fn { hasBody := true }))) rfl rfl
  refine halloc.declareManaged ?_ _ _
  rw [size_symbols_alloc]
  exact Nat.lt_succ_self _

theorem overt_addRootObject (hg : g.Overt) (name : String) : (addRootObject g name).2.Overt := by
  have htype := hg.of_symbol (size_symbols_allocType global (rootSymbol name))
    (symbol_allocType global (rootSymbol name)) rfl rfl
  rw [addRootObject_snd]
  exact (htype.modifyScope _ _).declareManaged (by simp [size_symbols_allocType]) _ _

theorem overt_start (config : Config) : (start config).graph.Overt :=
  start_induction config (fun _ => overt_initial) (fun _ => overt_addRootObject overt_initial _)
    fun name hg => overt_addIntrinsic hg name

/-- Every symbol that a table holds has a visibility, and only members are protected. -/
theorem Moment.visible (hg : s.Moment g) (hs : Reaches (startWith config reducer loader) s) :
    g.Visible :=
  hg.induction ((founding_start config).visible (overt_start config))
    (fun hg hv h => h.visible hg hv) (fun hg hv h => (h.spec hg).2.visible hg hv) hs

theorem Moment.secluded (hg : s.Moment g) (hs : Reaches (startWith config reducer loader) s) :
    g.Secluded := by
  have hf := founding_start config
  refine (hg.induction (P := fun g => g.Discreet ∧ g.Secluded) ⟨hf.discreet, ⟨?_⟩⟩
    (fun hg hp h => ⟨h.discreet hg hp.1, h.secluded hg hp.2⟩) (fun hg hp h => ?_) hs).2
  · intro q ns name x hx houter
    rw [(hf.owner (hf.agreement.entry hx).1).1] at houter
    exact absurd hf.nested.outer_global houter
  · have hdiscreet := h.discreet hg hp.1
    exact ⟨hdiscreet, (h.spec hg).2.secluded hp.2 hdiscreet⟩

/-- Symbols are where their visibility says. -/
theorem partition_placement (hs : Reaches (startWith config reducer loader) s) (hg : s.Moment g) :
    (∀ p, (g.scope p).kind.isPartitioned = true → ∃ q, (g.scope p).inner = some q ∧
      (∀ ns name x, (g.scope q).table.get? ns name = some x →
        (g.symbol x).flags.isPrivate = true) ∧
      (∀ ns name x, (g.scope p).table.get? ns name = some x →
        (g.symbol x).flags.isPrivate = false) ∧
      ∀ ns name, (g.scope p).table.get? ns name = none ∨ (g.scope q).table.get? ns name = none) ∧
    ∀ q ns name x, (g.scope q).table.get? ns name = some x →
      (g.symbol x).flags.hasVisibility = true ∧
      ((g.symbol x).flags.isProtected = true → (g.scope (g.owner q)).kind = .member) := by
  have hcoherent := hg.coherent (sound_of_reaches hs)
  have hdiscreet := hg.discreet hs
  have hsecluded := hg.secluded hs
  have hsuccession := hg.succession hs
  refine ⟨fun p hp => ?_, fun q ns name x hx => (hg.visible hs).entry hx⟩
  obtain ⟨q, hq⟩ := Option.ne_none_iff_exists'.mp (hdiscreet.linked.inner hp)
  have houter := hcoherent.nested.partitioned.outer_of_inner hq
  exact ⟨q, hq,
    fun ns name x hx => hsecluded.entry hx (by rw [houter]; exact Option.some_ne_none p),
    fun ns name x hx => hdiscreet.isPrivate_eq_false hcoherent hp hx,
    hsuccession.disjoint hcoherent hdiscreet hq⟩

/-! ### Members that are copied with another visibility -/

/-- A class that has a public method and takes a public one of a trait twice, as a protected and as
a private one. -/
def overriddenMember : Tree :=
  { file := "a.phs"
    nodes := #[{ kind := .block [] },
      { kind := .fnDecl { name := some "m", mods := [.visible], body := some ⟨0⟩ } },
      { kind := .traitDecl { name := "T", members := [⟨1⟩] } },
      { kind := .block [] },
      { kind := .fnDecl { name := some "f", mods := [.visible], body := some ⟨3⟩ } },
      { kind := .classDecl
          { name := "C"
            members := [⟨4⟩]
            uses := [
              { path := .single "T"
                items := some [{ name := "m", rename := some "k", mods := [.guarded] },
                  { name := "m", rename := some "h", mods := [.hidden] }] }] } },
      { kind := .unit [⟨2⟩, ⟨5⟩] }]
    root := ⟨6⟩ }

/-- The protected copy is with the public method, and the private one is in the partition. -/
theorem partition_placement_overriddenMember :
    ∃ reports s, (start {}).analyzeAll [overriddenMember] = .ok (reports, s) ∧
      (s.graph.scope ⟨5⟩).kind = .member ∧ (s.graph.scope ⟨5⟩).inner = some ⟨6⟩ ∧
      (s.graph.scope ⟨5⟩).table.get? .value "k" = some ⟨4⟩ ∧
      (s.graph.scope ⟨6⟩).table.get? .value "h" = some ⟨5⟩ ∧
      (s.graph.symbol ⟨4⟩).flags.isProtected = true ∧
      (s.graph.symbol ⟨4⟩).flags.isPrivate = false ∧
      (s.graph.symbol ⟨5⟩).flags.isPrivate = true ∧
      (s.graph.scope ⟨5⟩).table.get? .value "h" = none ∧
      (s.graph.scope (s.graph.owner ⟨5⟩)).kind = .member := by
  have hend : endsWith [overriddenMember] (fun _ g => decide ((g.scope ⟨5⟩).kind = .member ∧
      (g.scope ⟨5⟩).inner = some ⟨6⟩ ∧ (g.scope ⟨5⟩).table.get? .value "k" = some ⟨4⟩ ∧
      (g.scope ⟨6⟩).table.get? .value "h" = some ⟨5⟩ ∧
      (g.symbol ⟨4⟩).flags.isProtected = true)) = true := by decide +kernel
  obtain ⟨reports, s, hs, hg⟩ := exists_of_endsWith hend
  obtain ⟨hkind, hinner, hk, hh, hprotected⟩ := of_decide_eq_true hg
  have hreaches : Reaches (startWith {} Reduce.node (.counting [])) s := reaches_of_analyzeAll hs
  obtain ⟨hpartition, hvisible⟩ := partition_placement hreaches (moment_graph s)
  obtain ⟨q, hq, hprivate, hown, hdisjoint⟩ := hpartition ⟨5⟩ (by rw [hkind]; rfl)
  cases hq.symm.trans hinner
  refine ⟨reports, s, hs, hkind, hinner, hk, hh, hprotected, hown _ _ _ hk, hprivate _ _ _ hh, ?_,
    (hvisible _ _ _ _ hk).2 hprotected⟩
  exact (hdisjoint .value "h").resolve_right fun hnone => by
    rw [hh] at hnone
    cases hnone

end Session

end Scoping
