import Scoping.Proofs.Graph.Dropped

/-!
# Final symbols

A final symbol is not to be declared again further in, nor in a subclass. Each declaration is
checked against the first symbol of its name along the reach of its scope, as the graph is at that
moment. That is enough as long as the final symbol is declared first: what is found between a
declaration and a final symbol further out was itself declared before the final one
(`Graph.Step.guarded`).
-/

namespace Scoping

namespace Graph

variable {g g' : Graph} {types : Set SymbolId} {p q : ScopeId} {x : SymbolId}

/-! ### The reach of a scope without superclasses -/

theorem reachSupers_none (g : Graph) (fuel : Nat) (seen : List ScopeId) :
    g.reachSupers fuel seen none = seen := by
  cases fuel <;> rfl

theorem mem_withInner : q ∈ g.withInner p ↔ q = p ∨ (g.scope p).inner = some q := by
  simp [withInner, Option.mem_toList]

/-- Without superclasses the reach consists of the enclosing scopes and their partitions. -/
theorem reachWithin_of_unlinked (hg : g.Nested) : ∀ (fuel : Nat) (seen : List ScopeId)
    (id : ScopeId), g.Unlinked id → (∀ q ∈ seen, id.index < q.index) →
    g.reachWithin fuel seen (some id) = seen ++ (g.enclosingWithin fuel id).flatMap g.withInner
  | 0, seen, id, _, _ => by simp [reachWithin, enclosingWithin]
  | fuel + 1, seen, id, hunlinked, hseen => by
    have hid : id ∉ seen := fun h => Nat.lt_irrefl _ (hseen id h)
    rw [reachWithin, if_neg hid, hunlinked id .refl]
    dsimp only
    rw [reachSupers_none, enclosingWithin, List.flatMap_cons]
    cases hnext : g.outward? id with
    | none => cases fuel <;> simp [reachWithin]
    | some next =>
      have hlt := hg.outward?_lt hnext
      rw [reachWithin_of_unlinked hg fuel _ next, List.append_assoc]
      · exact fun q hq => hunlinked q (.head hnext hq)
      · intro q hq
        rcases List.mem_append.mp hq with hq | hq
        · exact Nat.lt_trans hlt (hseen q hq)
        · rcases mem_withInner.mp hq with rfl | hinner
          · exact hlt
          · exact Nat.lt_trans hlt (hg.inner_gt hinner)

/-- A walk outward that is to find something in a scope further out finds something at the latest
there. -/
theorem findSome?_enclosingWithin {α : Type} {φ : ScopeId → Option α} (hg : g.Nested) :
    ∀ {fuel : Nat} {id a r : ScopeId}, id.index < fuel → g.Outward id a → r ∈ g.withInner a →
      φ r ≠ none →
      ∃ b q e, g.Outward id b ∧ g.Outward b a ∧ q ∈ g.withInner b ∧ φ q = some e ∧
        ((g.enclosingWithin fuel id).flatMap g.withInner).findSome? φ = some e
  | 0, _, _, _, hfuel, _, _, _ => absurd hfuel (Nat.not_lt_zero _)
  | fuel + 1, id, a, r, hfuel, hout, hr, hφ => by
    rw [enclosingWithin, List.flatMap_cons, List.findSome?_append]
    cases hfirst : (g.withInner id).findSome? φ with
    | some e =>
      obtain ⟨q, hq, he⟩ := List.exists_of_findSome?_eq_some hfirst
      exact ⟨id, q, e, .refl, hout, hq, he, rfl⟩
    | none =>
      rcases Relation.ReflTransGen.cases_head hout with rfl | ⟨next, hnext, hrest⟩
      · exact absurd (List.findSome?_eq_none_iff.mp hfirst r hr) hφ
      · rw [hnext]
        have hlt : next.index < fuel :=
          Nat.lt_of_lt_of_le (hg.outward?_lt hnext) (Nat.le_of_lt_succ hfuel)
        obtain ⟨b, q, e, hb, hfound⟩ := findSome?_enclosingWithin hg hlt hrest hr hφ
        exact ⟨b, q, e, .head hnext hb, hfound⟩

section

variable {target : ScopeId} (hg : g.Nested) (htarget : g.Place target)
  (hunlinked : g.Unlinked target) {q : ScopeId}

include hg htarget hunlinked

theorem reach_of_unlinked :
    g.reach target = (g.enclosingWithin g.scopes.size target).flatMap g.withInner := by
  rw [reach, htarget.owner_eq, reachWithin_of_unlinked hg _ _ _ hunlinked
    fun _ h => absurd h List.not_mem_nil, List.nil_append]

theorem mem_reach_of_unlinked (hq : g.Outward target (g.owner q)) : q ∈ g.reach target := by
  rw [reach_of_unlinked hg htarget hunlinked, List.mem_flatMap]
  exact ⟨g.owner q, hg.mem_enclosingWithin htarget.inside.lt_size hq,
    mem_withInner.mpr (hg.partitioned.eq_or_inner_of_owner rfl)⟩

theorem occupant?_reach_of_unlinked {ns : Namespace} {name : String} {f : SymbolId}
    (hq : g.Outward target (g.owner q)) (hf : (g.scope q).table.get? ns name = some f) :
    ∃ r e, g.Outward (g.owner r) (g.owner q) ∧ (g.scope r).table.get? ns name = some e ∧
      g.occupant? (g.reach target) ns name = some e := by
  obtain ⟨b, r, e, hb, hba, hr, he, hfound⟩ :=
    findSome?_enclosingWithin hg htarget.inside.lt_size hq
      (mem_withInner.mpr (hg.partitioned.eq_or_inner_of_owner rfl))
      (φ := fun p => (g.scope p).table.get? ns name) (by rw [hf]; exact Option.some_ne_none f)
  refine ⟨r, e, ?_, he, by rw [occupant?, reach_of_unlinked hg htarget hunlinked, hfound]⟩
  have howner : g.owner r = b := by
    rcases mem_withInner.mp hr with rfl | hinner
    · exact owner_of_outer_eq_none (hg.outer_of_outward hb htarget.outer_eq_none)
    · exact hg.partitioned.owner_inner hinner
  rwa [howner]

end

/-! ### Clashes -/

/-- The symbol is held by the table of its own scope. -/
structure AtHome (g : Graph) (x : SymbolId) (p : ScopeId) : Prop where
  scope : (g.symbol x).scope = some p
  get? : (g.scope p).table.get? (g.symbol x).ns (g.symbol x).name = some x

instance (g : Graph) (x : SymbolId) (p : ScopeId) : Decidable (g.AtHome x p) :=
  decidable_of_iff
    ((g.symbol x).scope = some p ∧
      (g.scope p).table.get? (g.symbol x).ns (g.symbol x).name = some x)
    ⟨fun h => ⟨h.1, h.2⟩, fun h => ⟨h.scope, h.get?⟩⟩

/-- The symbol `s` of `p` has the name of the final symbol `f` of `q`. -/
structure Redeclares (g : Graph) (s f : SymbolId) (p q : ScopeId) : Prop where
  home : g.AtHome s p
  home_final : g.AtHome f q
  ne : s ≠ f
  ns_eq : (g.symbol s).ns = (g.symbol f).ns
  name_eq : (g.symbol s).name = (g.symbol f).name
  isFinal : (g.symbol f).flags.isFinal = true
  complete : (g.symbol f).flags.isIncomplete = false

instance (g : Graph) (s f : SymbolId) (p q : ScopeId) : Decidable (g.Redeclares s f p q) :=
  decidable_of_iff
    (g.AtHome s p ∧ g.AtHome f q ∧ s ≠ f ∧ (g.symbol s).ns = (g.symbol f).ns ∧
      (g.symbol s).name = (g.symbol f).name ∧ (g.symbol f).flags.isFinal = true ∧
      (g.symbol f).flags.isIncomplete = false)
    ⟨fun ⟨hs, hf, hne, hns, hname, hfinal, hcomplete⟩ =>
        ⟨hs, hf, hne, hns, hname, hfinal, hcomplete⟩,
      fun h => ⟨h.home, h.home_final, h.ne, h.ns_eq, h.name_eq, h.isFinal, h.complete⟩⟩

/-- The scope `b` encloses the scope `a`. -/
def Beneath (g : Graph) (a b : ScopeId) : Prop :=
  Relation.TransGen (fun a b => g.outward? a = some b) a b

theorem Nested.beneath_lt (hg : g.Nested) {a b : ScopeId} (h : g.Beneath a b) :
    b.index < a.index := by
  obtain ⟨r, hr, hout⟩ := Relation.TransGen.head'_iff.mp h
  exact Nat.lt_of_le_of_lt (hg.outward_le hout) (hg.outward?_lt hr)

/-- The scope `b` is on the chain of superclasses of `a`. -/
def Inherits (g : Graph) (a b : ScopeId) : Prop :=
  Relation.TransGen (fun a b => g.superScope? a = some b) a b

/-- No final symbol is declared again further in or in a subclass. -/
structure FinalProtected (g : Graph) : Prop where
  lexical : ∀ {s f p q}, g.Redeclares s f p q → ¬ g.Beneath (g.owner p) (g.owner q)
  inherited : ∀ {s f p q}, g.Redeclares s f p q → ¬ g.Inherits (g.owner p) (g.owner q)

/-- The symbol `d` was declared before `f`, or it is the copy of a member of a trait. -/
def Precedes (g : Graph) (d f : SymbolId) : Prop :=
  d.index < f.index ∨ (g.symbol d).origin ≠ none

/-- The symbol `s` of `p` was not checked against `f`: it precedes `f`, it completes a declaration
that does, or it is in the body of a function that was copied from a trait. -/
inductive Early (g : Graph) (s f : SymbolId) (p : ScopeId) : Prop where
  | symbol : g.Precedes s f → Early g s f p
  | declaration {d : SymbolId} : d ∈ (g.scope (g.owner p)).dropped →
    (g.symbol d).ns = (g.symbol s).ns → (g.symbol d).name = (g.symbol s).name →
    g.Precedes d f → Early g s f p
  | delegated : g.Delegated (g.owner p) → Early g s f p

/-- Wherever a final symbol is declared again further in, that was done early somewhere. -/
def Guarded (g : Graph) : Prop :=
  ∀ ⦃s f p q⦄, g.Redeclares s f p q → g.Beneath (g.owner p) (g.owner q) →
    ∃ s' p', g.Redeclares s' f p' q ∧ g.Beneath (g.owner p') (g.owner q) ∧ g.Early s' f p'

theorem AtHome.lt_size (h : g.AtHome x p) : x.index < g.symbols.size :=
  symbol_lt_size h.scope

theorem AtHome.scope_lt_size (h : g.AtHome x p) : p.index < g.scopes.size :=
  lt_size_of_get? h.get?

section

variable {s f : SymbolId} {p q : ScopeId} (hgrows : g.Grows g')

include hgrows

theorem Grows.redeclares_iff (hs : g.AtHome s p) (hf : g.AtHome f q) (hs' : g'.AtHome s p)
    (hf' : g'.AtHome f q) : g'.Redeclares s f p q ↔ g.Redeclares s f p q := by
  constructor
  · rintro ⟨-, -, hne, hns, hname, hfinal, hcomplete⟩
    rw [hgrows.ns hs.lt_size, hgrows.ns hf.lt_size] at hns
    rw [hgrows.name hs.lt_size, hgrows.name hf.lt_size] at hname
    rw [hgrows.isFinal hf.lt_size] at hfinal
    rw [hgrows.isIncomplete hf.lt_size] at hcomplete
    exact ⟨hs, hf, hne, hns, hname, hfinal, hcomplete⟩
  · rintro ⟨-, -, hne, hns, hname, hfinal, hcomplete⟩
    rw [← hgrows.ns hs.lt_size, ← hgrows.ns hf.lt_size] at hns
    rw [← hgrows.name hs.lt_size, ← hgrows.name hf.lt_size] at hname
    rw [← hgrows.isFinal hf.lt_size] at hfinal
    rw [← hgrows.isIncomplete hf.lt_size] at hcomplete
    exact ⟨hs', hf', hne, hns, hname, hfinal, hcomplete⟩

theorem Grows.precedes {d : SymbolId} (hd : d.index < g.symbols.size) (h : g.Precedes d f) :
    g'.Precedes d f := by
  rwa [Precedes, hgrows.origin hd]

variable (hg : g.Coherent)

include hg

theorem Grows.beneath_owner_iff (hp : p.index < g.scopes.size) (hq : q.index < g.scopes.size) :
    g'.Beneath (g'.owner p) (g'.owner q) ↔ g.Beneath (g.owner p) (g.owner q) := by
  rw [hgrows.owner_eq hp, hgrows.owner_eq hq]
  have howner := Nat.lt_of_le_of_lt (hg.nested.owner_le p) hp
  simp only [Beneath, Relation.TransGen.head'_iff, hgrows.outward?_eq hg.nested howner]
  refine exists_congr fun r => and_congr_right fun hr => ?_
  exact hgrows.outward_iff hg.nested (Nat.lt_trans (hg.nested.outward?_lt hr) howner)

theorem Grows.delegated (hp : p.index < g.scopes.size) (h : g.Delegated p) : g'.Delegated p := by
  obtain ⟨r, hr, hdelegate⟩ := h
  exact ⟨r, (hgrows.outward_iff hg.nested hp).mpr hr, hgrows.delegate hdelegate⟩

theorem Grows.early (hs : g.AtHome s p) (h : g.Early s f p) :
    g'.Early s f p := by
  have howner := hgrows.owner_eq hs.scope_lt_size
  cases h with
  | symbol h => exact .symbol (hgrows.precedes hs.lt_size h)
  | @declaration d hd hns hname h =>
    have hlt := (hg.dropped hd).1
    refine .declaration (d := d) ?_ ?_ ?_ (hgrows.precedes hlt h)
    · rw [howner]
      exact hgrows.dropped hd
    · rw [hgrows.ns hlt, hgrows.ns hs.lt_size, hns]
    · rw [hgrows.name hlt, hgrows.name hs.lt_size, hname]
  | delegated h =>
    refine .delegated ?_
    rw [howner]
    exact hgrows.delegated hg (Nat.lt_of_le_of_lt (hg.nested.owner_le p) hs.scope_lt_size) h

/-- A graph in which the same symbols are at home is guarded if the old one is. -/
theorem Grows.guarded (hguarded : g.Guarded)
    (hhome : ∀ {x p}, g'.AtHome x p ↔ g.AtHome x p) : g'.Guarded := by
  intro s f p q hr hbeneath
  have hs := hhome.mp hr.home
  have hf := hhome.mp hr.home_final
  have hbeneath := (hgrows.beneath_owner_iff hg hs.scope_lt_size hf.scope_lt_size).mp hbeneath
  obtain ⟨s', p', hr', hbeneath', hearly⟩ :=
    hguarded ((hgrows.redeclares_iff hs hf hr.home hr.home_final).mp hr) hbeneath
  refine ⟨s', p', ?_, ?_, hgrows.early hg hr'.home hearly⟩
  · exact (hgrows.redeclares_iff hr'.home hf (hhome.mpr hr'.home) hr.home_final).mpr hr'
  · exact (hgrows.beneath_owner_iff hg hr'.home.scope_lt_size hf.scope_lt_size).mpr hbeneath'

end

/-! ### Steps -/

theorem Calm.atHome_iff (hg : g.Coherent) (hgrows : g.Grows g') (h : g.Calm g') :
    g'.AtHome x p ↔ g.AtHome x p := by
  constructor
  · rintro ⟨hscope, hx⟩
    rw [h.get?] at hx
    have hlt := (hg.entry hx).1
    rw [h.scope ⟨p, _, _, hx⟩] at hscope
    rw [hgrows.ns hlt, hgrows.name hlt] at hx
    exact ⟨hscope, hx⟩
  · intro hx
    refine ⟨?_, ?_⟩
    · rw [h.scope ⟨p, _, _, hx.get?⟩, hx.scope]
    · rw [h.get?, hgrows.ns hx.lt_size, hgrows.name hx.lt_size, hx.get?]

section Enters

variable {symbol : SymbolId} {r : ScopeId} (hsymbol : g.Fresh symbol) (hgrows : g.Grows g')
  (h : g.Enters g' r symbol) {p q : ScopeId} {f : SymbolId}

include hsymbol hgrows h

/-- Who is at home where after an entry: the symbol in its scope, and all others but its rival. -/
theorem Enters.atHome_iff {x : SymbolId} : g'.AtHome x p ↔
    x = symbol ∧ p = r ∨ x ≠ symbol ∧ g.rival? r symbol ≠ some x ∧ g.AtHome x p := by
  constructor
  · rintro ⟨hscope, hx⟩
    rw [h.scope] at hscope
    split at hscope
    next hsym => exact .inl ⟨hsym, (Option.some.inj hscope).symm⟩
    next hne =>
      split at hscope
      · cases hscope
      next hrival =>
        rw [hgrows.ns (symbol_lt_size hscope), hgrows.name (symbol_lt_size hscope), h.get?] at hx
        split at hx
        · exact absurd (Option.some.inj hx).symm hne
        · exact .inr ⟨hne, hrival, hscope, hx⟩
  · rintro (⟨rfl, rfl⟩ | ⟨hne, hrival, hx⟩)
    · refine ⟨?_, ?_⟩
      · rw [h.scope, if_pos rfl]
      · rw [hgrows.ns hsymbol.lt_size, hgrows.name hsymbol.lt_size, h.get?, if_pos ⟨rfl, rfl, rfl⟩]
    · refine ⟨?_, ?_⟩
      · rw [h.scope, if_neg hne, if_neg hrival, hx.scope]
      · rw [hgrows.ns hx.lt_size, hgrows.name hx.lt_size, h.get?, if_neg, hx.get?]
        rintro ⟨rfl, hns, hname⟩
        have hget := hx.get?
        rw [hns, hname] at hget
        exact hrival hget

variable {target : ScopeId} (hg : g.Coherent) (htarget : g.Place target)
  (hentering : g.Entering target symbol r)

include hg htarget hentering

/-- Final symbols stay at home. -/
theorem Enters.atHome_of_complete (hf : g.AtHome f q)
    (hcomplete : (g.symbol f).flags.isIncomplete = false) : g'.AtHome f q := by
  refine (h.atHome_iff hsymbol hgrows).mpr
    (.inr ⟨hsymbol.ne_of_scope hf.scope, fun hrival => ?_, hf⟩)
  have hv := hg.replace_of_rival? htarget hsymbol hentering hrival
  have hincomplete := (met?_of_verdict_eq_replace hg.nested.partitioned hv).2.2.1
  rw [hcomplete] at hincomplete
  cases hincomplete

/-- What was done early remains so, even if the early symbol is completed now. -/
theorem Enters.early {s : SymbolId} (hr : g.Redeclares s f p q) (hearly : g.Early s f p) :
    ∃ s', g'.Redeclares s' f p q ∧ g'.Early s' f p := by
  have hf := h.atHome_of_complete hsymbol hgrows hg htarget hentering hr.home_final hr.complete
  by_cases hrival : g.rival? r symbol = some s
  · obtain ⟨-, hns, hname⟩ := hg.entry hrival
    obtain rfl : r = p := by
      have hscope := hg.home h.inside hrival
      rw [hr.home.scope] at hscope
      exact (Option.some.inj hscope).symm
    have hkey : (g'.symbol symbol).ns = (g.symbol s).ns ∧
        (g'.symbol symbol).name = (g.symbol s).name := by
      rw [hgrows.ns hsymbol.lt_size, hgrows.name hsymbol.lt_size]
      exact ⟨hns.symm, hname.symm⟩
    refine ⟨symbol, ⟨(h.atHome_iff hsymbol hgrows).mpr (.inl ⟨rfl, rfl⟩), hf,
      (hsymbol.ne_of_scope hr.home_final.scope).symm, ?_, ?_, ?_, ?_⟩, ?_⟩
    · rw [hkey.1, hgrows.ns hr.home_final.lt_size, hr.ns_eq]
    · rw [hkey.2, hgrows.name hr.home_final.lt_size, hr.name_eq]
    · rw [hgrows.isFinal hr.home_final.lt_size, hr.isFinal]
    · rw [hgrows.isIncomplete hr.home_final.lt_size, hr.complete]
    · cases hgrows.early hg hr.home hearly with
      | symbol hprec =>
        refine .declaration (d := s) ?_ ?_ ?_ hprec
        · rw [hgrows.owner_eq h.inside.lt_size]
          exact h.drops s hrival
        · rw [hkey.1, hgrows.ns hr.home.lt_size]
        · rw [hkey.2, hgrows.name hr.home.lt_size]
      | @declaration d hd hdns hdname hprec =>
        rw [hgrows.ns hr.home.lt_size] at hdns
        rw [hgrows.name hr.home.lt_size] at hdname
        exact .declaration hd (hdns.trans hkey.1.symm) (hdname.trans hkey.2.symm) hprec
      | delegated hdelegated => exact .delegated hdelegated
  · have hs : g'.AtHome s p := (h.atHome_iff hsymbol hgrows).mpr
      (.inr ⟨hsymbol.ne_of_scope hr.home.scope, hrival, hr.home⟩)
    exact ⟨s, (hgrows.redeclares_iff hr.home hr.home_final hs hf).mpr hr,
      hgrows.early hg hr.home hearly⟩

end Enters

/-- A declaration is checked against the nearest symbol of its name. If that is not the final one
further out, then it stands between the two. -/
theorem Coherent.exists_between (hg : g.Coherent) (hs : g.Succession) {target : ScopeId}
    {symbol f : SymbolId} {shadows : Option SymbolId} (htarget : g.Place target)
    (hsymbol : g.Fresh symbol) (hunlinked : g.Unlinked target)
    (hv : g.verdict target symbol = .add shadows) (hf : g.AtHome f q)
    (hns : (g.symbol symbol).ns = (g.symbol f).ns)
    (hname : (g.symbol symbol).name = (g.symbol f).name)
    (hfinal : (g.symbol f).flags.isFinal = true)
    (hcomplete : (g.symbol f).flags.isIncomplete = false) (hq : g.Outward target (g.owner q)) :
    ∃ e r, g.Redeclares e f r q ∧ g.Beneath (g.owner r) (g.owner q) := by
  obtain ⟨hfree, hmet, hother⟩ := met?_of_verdict_eq_add hg.nested.partitioned hv
  rw [htarget.owner_eq] at hfree hmet
  have hget : (g.scope q).table.get? (g.symbol symbol).ns (g.symbol symbol).name = some f := by
    rw [hns, hname, hf.get?]
  have hinside : g.Inside q := by
    refine (hg.managed hf.scope).resolve_right fun hmanaged => ?_
    rw [hfree.managed_eq_false (mem_reach_of_unlinked hg.nested htarget hunlinked hq)
      (hsymbol.ne_of_get? hget) hget] at hmanaged
    cases hmanaged
  obtain ⟨r, e, hr, he, hoccupant⟩ :=
    occupant?_reach_of_unlinked hg.nested htarget hunlinked hq hget
  have hrinside : g.Inside r := by
    obtain ⟨unit, hunit, hkind⟩ := hinside
    exact ⟨unit, hr.trans hunit, hkind⟩
  have hnotfinal : (g.symbol e).flags.isFinal = false := by
    rw [met?, hoccupant, Option.filter_some, if_pos (by simpa using hsymbol.ne_of_get? he)] at hmet
    exact (hother e hmet.symm).2.1
  obtain ⟨-, hens, hename⟩ := hg.entry he
  have hne : e ≠ f := by
    rintro rfl
    rw [hfinal] at hnotfinal
    cases hnotfinal
  refine ⟨e, r, ⟨⟨hg.home hrinside he, ?_⟩, hf, hne, ?_, ?_, hfinal, hcomplete⟩, ?_⟩
  · rw [hens, hename, he]
  · rw [hens, hns]
  · rw [hename, hname]
  · rcases Relation.reflTransGen_iff_eq_or_transGen.mp hr with heq | hbeneath
    · obtain rfl := hs.sole hinside heq.symm hget he
      rw [hget] at he
      exact absurd (Option.some.inj he).symm hne
    · exact hbeneath

/-- A step declares nothing over a final symbol further out, but early or by way of a delegate. -/
theorem Step.guarded (hg : g.Coherent) (hs : g.Succession) (hguarded : g.Guarded)
    (h : Step types g g') : g'.Guarded := by
  have hgrows := h.grows
  obtain hcalm | ⟨target, symbol, r, htarget, hsymbol, hlatest, hfree, rfl, henters, hentering⟩ :=
    h.cases hg
  · exact hgrows.guarded hg hguarded (hcalm.atHome_iff hg hgrows)
  intro s f p q hr hbeneath
  rcases (henters.atHome_iff hsymbol hgrows).mp hr.home_final with ⟨rfl, rfl⟩ | ⟨hne, -, hf⟩
  · -- the final symbol is the new one
    refine ⟨s, p, hr, hbeneath, .symbol ?_⟩
    obtain ⟨rfl, -⟩ | ⟨-, -, hhome⟩ := (henters.atHome_iff hsymbol hgrows).mp hr.home
    · exact absurd rfl hr.ne
    · exact hgrows.precedes hhome.lt_size (hlatest s ⟨p, _, _, hhome.get?⟩)
  -- an old clash has an early one, which is still there
  have hold : ∀ {s p}, g.Redeclares s f p q → g.Beneath (g.owner p) (g.owner q) →
      ∃ s' p', (g.declare target symbol).2.Redeclares s' f p' q ∧
        (g.declare target symbol).2.Beneath ((g.declare target symbol).2.owner p')
          ((g.declare target symbol).2.owner q) ∧ (g.declare target symbol).2.Early s' f p' := by
    intro s p hr hbeneath
    obtain ⟨s', p', hr', hbeneath', hearly⟩ := hguarded hr hbeneath
    obtain ⟨s'', hr'', hearly'⟩ :=
      henters.early hsymbol hgrows hg htarget hentering hr' hearly
    exact ⟨s'', p', hr'', (hgrows.beneath_owner_iff hg hr'.home.scope_lt_size
      hf.scope_lt_size).mpr hbeneath', hearly'⟩
  rcases (henters.atHome_iff hsymbol hgrows).mp hr.home with ⟨rfl, rfl⟩ | ⟨-, -, hhome⟩
  · -- the new symbol is the one further in
    have hns := hr.ns_eq
    have hname := hr.name_eq
    have hfinal := hr.isFinal
    have hcomplete := hr.complete
    rw [hgrows.ns hsymbol.lt_size, hgrows.ns hf.lt_size] at hns
    rw [hgrows.name hsymbol.lt_size, hgrows.name hf.lt_size] at hname
    rw [hgrows.isFinal hf.lt_size] at hfinal
    rw [hgrows.isIncomplete hf.lt_size] at hcomplete
    have hbeneath₀ :=
      (hgrows.beneath_owner_iff hg henters.inside.lt_size hf.scope_lt_size).mp hbeneath
    cases hentering with
    | add hv =>
      have howner : g.owner (g.landing target s) = target := by
        rw [owner_landing hg.nested.partitioned, htarget.owner_eq]
      rw [howner] at hbeneath₀
      obtain hunlinked | hdelegated | horigin := hfree
      · obtain ⟨e, r, hr', hbeneath'⟩ := hg.exists_between hs htarget hsymbol hunlinked hv hf hns
          hname hfinal hcomplete hbeneath₀.to_reflTransGen
        exact hold hr' hbeneath'
      · refine ⟨s, _, hr, hbeneath, .delegated ?_⟩
        rw [hgrows.owner_eq henters.inside.lt_size, howner]
        exact hgrows.delegated hg htarget.inside.lt_size hdelegated
      · exact ⟨s, _, hr, hbeneath, .symbol (hgrows.precedes hsymbol.lt_size (.inr horigin))⟩
    | @replace old _ hv hscope =>
      obtain ⟨-, -, hons, honame⟩ := hg.listed_of_replace hv
      have hincomplete := (met?_of_verdict_eq_replace hg.nested.partitioned hv).2.2.1
      have hne' : old ≠ f := by
        rintro rfl
        rw [hcomplete] at hincomplete
        cases hincomplete
      refine hold ⟨⟨hscope, ?_⟩, hf, hne', hons.trans hns, honame.trans hname, hfinal, hcomplete⟩
        hbeneath₀
      rw [hons, honame]
      exact (hg.home_of_replace hv hscope).2
  · exact hold ((hgrows.redeclares_iff hhome hf hr.home hr.home_final).mp hr)
      ((hgrows.beneath_owner_iff hg hhome.scope_lt_size hf.scope_lt_size).mp hbeneath)

theorem Steps.guarded (hg : g.Coherent) (hs : g.Succession) (hguarded : g.Guarded)
    (h : Steps types g g') : g'.Guarded := by
  induction h with
  | refl => exact hguarded
  | tail hsteps hstep ih =>
    exact hstep.guarded (hg.steps hsteps) (Steps.succession hg hs hsteps) ih

/-! ### Publishing -/

theorem Publishing.atHome_iff (hg : g.Coherent) (h : g.Publishing g') :
    g'.AtHome x p ↔ g.AtHome x p := by
  constructor
  · rintro ⟨hscope, hx⟩
    rw [h.symbol] at hscope hx
    rcases h.entry hx with hx | ⟨hp, src, hsrc, hx⟩
    · exact ⟨hscope, hx⟩
    · -- a symbol that is published now is at home in its unit
      rw [hg.home hsrc.inside hx] at hscope
      obtain rfl := Option.some.inj hscope
      exact absurd (h.inside hg.nested hsrc.inside) hp.not_inside
  · rintro ⟨hscope, hx⟩
    refine ⟨?_, ?_⟩
    · rw [h.symbol, hscope]
    · rw [h.symbol]
      exact h.keeps hx

theorem Publishing.guarded (hg : g.Coherent) (hguarded : g.Guarded) (h : g.Publishing g') :
    g'.Guarded :=
  h.toGrows.guarded hg hguarded (h.atHome_iff hg)

end Graph

end Scoping
