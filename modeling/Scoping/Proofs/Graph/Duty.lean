import Mathlib.Data.List.Nodup
import Mathlib.Data.List.Perm.Subperm
import Scoping.Proofs.Graph.Regular

/-!
# What a class owes

`Graph.Owes` says without any search which functions a class has to implement: those of every
interface that it or an abstract class right above it can be reached from, and the abstract ones of
the abstract classes right above it. The functions that `Graph.obligations` gathers with one list of
types that it has been to are exactly these (`Graph.mem_obligations_iff`). For each of them
`Graph.standing` says whether the class has a function that fits (`Graph.standing_eq_met_iff`).
-/

namespace Scoping

namespace Graph

variable {g : Graph} {root : Option SymbolId} {c : SymbolId} {data : ClassData} {d : Duties}
  {s : Symbol} {f id x : SymbolId}

/-! ### Owed functions -/

/-- The interface `i` extends the interface `j`. -/
def Refines (g : Graph) (i j : SymbolId) : Prop := j ∈ g.superInterfaces i

/-- The class `b` is abstract and the superclass of `a`. -/
def Topped (g : Graph) (root : Option SymbolId) (a b : SymbolId) : Prop :=
  g.superclass? root a = some b ∧ g.isAbstract b = true

/-- The class `c` has to implement the function `f`. -/
inductive Owes (g : Graph) (root : Option SymbolId) (c f : SymbolId) : Prop where
  /-- A function of an interface of the class or of an abstract class right above it. -/
  | interface {a i j : SymbolId} : Relation.ReflTransGen (g.Topped root) c a →
    i ∈ (g.symbol a).interfaces → Relation.ReflTransGen g.Refines i j →
    f ∈ g.memberFunctions j → Owes g root c f
  /-- An abstract function of an abstract class right above it. -/
  | ancestor {a : SymbolId} : Relation.TransGen (g.Topped root) c a →
    f ∈ g.memberFunctions a → g.isAbstract f = true → Owes g root c f

theorem superInterfaces_subset (i : SymbolId) :
    g.superInterfaces i ⊆ (g.symbol i).interfaces := by
  unfold superInterfaces Symbol.interfaces
  cases (g.symbol i).data with
  | iface data => exact fun _ h => h
  | _ => exact List.nil_subset _

theorem lt_size_of_symbol_kind {kind : SymbolKind} (h : (g.symbol x).kind = kind)
    (hkind : kind ≠ .var) : x.index < g.symbols.size := by
  refine Nat.lt_of_not_le fun hle => hkind ?_
  rw [← h, symbol_of_size_le hle]
  rfl

/-! ### The list of types -/

/-- The types that have been looked at are different symbols of the arena, so there are no more of
them than symbols. -/
structure Fit (g : Graph) (d : Duties) : Prop where
  nodup : d.seen.Nodup
  lt_size : ∀ x ∈ d.seen, x.index < g.symbols.size

theorem Fit.length_le (h : g.Fit d) : d.seen.length ≤ g.symbols.size := by
  have hnodup : (d.seen.map SymbolId.index).Nodup :=
    List.Nodup.map (fun x y hxy => congrArg SymbolId.mk hxy) h.nodup
  have hsubset : d.seen.map SymbolId.index ⊆ List.range g.symbols.size := by
    intro n hn
    obtain ⟨x, hx, rfl⟩ := List.mem_map.mp hn
    exact List.mem_range.mpr (h.lt_size x hx)
  simpa using (hnodup.subperm hsubset).length_le

/-- One more type. -/
theorem Fit.cons {d : Duties} (h : g.Fit d) {x : SymbolId} (hx : x ∉ d.seen)
    (hlt : x.index < g.symbols.size) (functions : List SymbolId) :
    g.Fit { functions, seen := x :: d.seen } where
  nodup := List.nodup_cons.mpr ⟨hx, h.nodup⟩
  lt_size y hy := (List.mem_cons.mp hy).elim (fun heq => heq ▸ hlt) (h.lt_size y)

/-! ### Interfaces -/

/-- What going through some interfaces does to the duties: all that is new is a whole interface, and
with an interface come those that it extends. -/
structure Gathers (g : Graph) (starts : List SymbolId) (d d' : Duties) : Prop where
  fit : g.Fit d'
  functions : d.functions ⊆ d'.functions
  seen : d.seen ⊆ d'.seen
  reached : starts ⊆ d'.seen
  added : ∀ j ∈ d'.seen, j ∉ d.seen → (g.symbol j).kind = .iface ∧
    g.memberFunctions j ⊆ d'.functions ∧ g.superInterfaces j ⊆ d'.seen
  sound : ∀ f ∈ d'.functions, f ∈ d.functions ∨
    ∃ i ∈ starts, ∃ j, Relation.ReflTransGen g.Refines i j ∧ f ∈ g.memberFunctions j

namespace Gathers

variable {d d₁ d' : Duties} {i : SymbolId} {starts : List SymbolId}

theorem length_le (h : g.Gathers starts d d') (hd : g.Fit d) : d.seen.length ≤ d'.seen.length :=
  (hd.nodup.subperm h.seen).length_le

protected theorem nil (hd : g.Fit d) : g.Gathers [] d d where
  fit := hd
  functions := List.Subset.refl _
  seen := List.Subset.refl _
  reached := List.nil_subset _
  added _ hj hnew := absurd hj hnew
  sound _ hf := .inl hf

/-- An interface that has been looked at before adds nothing. -/
protected theorem seen_before (hd : g.Fit d) (hi : i ∈ d.seen) : g.Gathers [i] d d :=
  { Gathers.nil hd with
    reached := fun _ hj => List.mem_singleton.mp hj ▸ hi
    sound := fun _ hf => .inl hf }

protected theorem cons (hfirst : g.Gathers [i] d d₁) (hrest : g.Gathers starts d₁ d') :
    g.Gathers (i :: starts) d d' where
  fit := hrest.fit
  functions := List.Subset.trans hfirst.functions hrest.functions
  seen := List.Subset.trans hfirst.seen hrest.seen
  reached j hj := by
    rcases List.mem_cons.mp hj with rfl | hj
    · exact hrest.seen (hfirst.reached (List.mem_singleton_self j))
    · exact hrest.reached hj
  added j hj hnew := by
    by_cases hmid : j ∈ d₁.seen
    · obtain ⟨hkind, hwhole, hclosed⟩ := hfirst.added j hmid hnew
      exact ⟨hkind, List.Subset.trans hwhole hrest.functions, List.Subset.trans hclosed hrest.seen⟩
    · exact hrest.added j hj hmid
  sound f hf := by
    rcases hrest.sound f hf with hf | ⟨k, hk, hreach⟩
    · rcases hfirst.sound f hf with hf | ⟨k, hk, hreach⟩
      · exact .inl hf
      · exact .inr ⟨k, List.mem_cons.mpr (.inl (List.mem_singleton.mp hk)), hreach⟩
    · exact .inr ⟨k, List.mem_cons_of_mem _ hk, hreach⟩

/-- An interface is added before those that it extends. -/
protected theorem visit (hkind : (g.symbol i).kind = .iface)
    (h : g.Gathers (g.superInterfaces i)
      { functions := d.functions ++ g.memberFunctions i, seen := i :: d.seen } d') :
    g.Gathers [i] d d' where
  fit := h.fit
  functions := List.Subset.trans (List.subset_append_left _ _) h.functions
  seen := List.Subset.trans (List.subset_cons_self _ _) h.seen
  reached j hj := h.seen (List.mem_cons.mpr (.inl (List.mem_singleton.mp hj)))
  added j hj hnew := by
    by_cases hi : j = i
    · subst hi
      exact ⟨hkind, List.Subset.trans (List.subset_append_right _ _) h.functions, h.reached⟩
    · exact h.added j hj fun hmem => (List.mem_cons.mp hmem).elim hi hnew
  sound f hf := by
    rcases h.sound f hf with hf | ⟨k, hk, j, hreach, hf⟩
    · rcases List.mem_append.mp hf with hf | hf
      · exact .inl hf
      · exact .inr ⟨i, List.mem_singleton_self i, i, .refl, hf⟩
    · exact .inr ⟨i, List.mem_singleton_self i, j, .head hk hreach, hf⟩

end Gathers

/-- Going through a list of interfaces gathers, if going through one of them does. The bound on the
rounds carries over, since types are never taken off the list. -/
theorem foldl_gathers {fuel : Nat} {starts : List SymbolId}
    (hkinds : ∀ i ∈ starts, (g.symbol i).kind = .iface)
    (hadd : ∀ {d i}, g.Fit d → g.symbols.size < fuel + d.seen.length → (g.symbol i).kind = .iface →
      g.Gathers [i] d (g.addInterface fuel d i))
    (hd : g.Fit d) (hfuel : g.symbols.size < fuel + d.seen.length) :
    g.Gathers starts d (starts.foldl (g.addInterface fuel) d) := by
  induction starts generalizing d with
  | nil => exact .nil hd
  | cons i rest ih =>
    have hfirst := hadd hd hfuel (hkinds i List.mem_cons_self)
    have hlength := hfirst.length_le hd
    exact .cons hfirst (ih (fun j hj => hkinds j (List.mem_cons_of_mem i hj)) hfirst.fit (by omega))

/-- Going through an interface gathers it and all that it extends. -/
theorem addInterface_gathers (hg : g.Regular) (fuel : Nat) : ∀ {d i}, g.Fit d →
    g.symbols.size < fuel + d.seen.length → (g.symbol i).kind = .iface →
    g.Gathers [i] d (g.addInterface fuel d i) := by
  induction fuel with
  | zero =>
    intro d i hd hfuel
    have hlength := hd.length_le
    omega
  | succ fuel ih =>
    intro d i hd hfuel hkind
    rw [addInterface]
    split
    next hseen => exact .seen_before hd hseen
    next hseen =>
      have hkinds : ∀ k ∈ g.superInterfaces i, (g.symbol k).kind = .iface := fun k hk =>
        hg.interfaces (superInterfaces_subset i hk)
      have hlt := lt_size_of_symbol_kind hkind (by decide)
      refine .visit hkind (foldl_gathers hkinds ih (hd.cons hseen hlt _) ?_)
      rw [List.length_cons]
      omega

/-! ### Classes -/

/-- The duties of `c` when the classes from `next` upward are left. -/
structure Gathering (g : Graph) (root : Option SymbolId) (c : SymbolId) (next : Option SymbolId)
    (d : Duties) : Prop where
  fit : g.Fit d
  iface : ∀ j ∈ d.seen, (g.symbol j).kind = .iface →
    g.memberFunctions j ⊆ d.functions ∧ g.superInterfaces j ⊆ d.seen
  cls : ∀ a ∈ d.seen, (g.symbol a).kind = .cls → (g.symbol a).interfaces ⊆ d.seen ∧
    (a ≠ c → ∀ f ∈ g.memberFunctions a, g.isAbstract f = true → f ∈ d.functions) ∧
    ∀ b, g.Topped root a b → b ∈ d.seen ∨ next = some b
  sound : ∀ f ∈ d.functions, g.Owes root c f

theorem class?_eq_some (h : s.class? = some data) : s.data = .cls data := by
  unfold Symbol.class? at h
  split at h
  next hdata =>
    cases h
    exact hdata
  next => cases h

theorem kind_of_class? (h : s.class? = some data) : s.kind = .cls := by
  rw [Symbol.kind, class?_eq_some h]
  rfl

theorem class?_of_kind (h : s.kind = .cls) : ∃ data, s.class? = some data := by
  cases s
  cases ‹SymbolData› with
  | cls data => exact ⟨data, rfl⟩
  | _ => cases h

/-- The interfaces of a class, gathered after its own functions. -/
theorem addClass_gathers (hg : g.Regular) (first : Bool) (hdata : (g.symbol id).class? = some data)
    (hid : id ∉ d.seen) (hd : g.Fit d) :
    g.Gathers (g.symbol id).interfaces
      { functions := d.functions ++
          if first = true then [] else (g.memberFunctions id).filter g.isAbstract
        seen := id :: d.seen }
      (g.addClass first id data d) := by
  have hinterfaces : (g.symbol id).interfaces = data.interfaces.filterMap TypeRef.target := by
    rw [Symbol.interfaces, class?_eq_some hdata]
  have hlt := lt_size_of_symbol_kind (kind_of_class? hdata) (by decide)
  rw [addClass, ← hinterfaces]
  refine foldl_gathers (fun i hi => hg.interfaces hi) (addInterface_gathers hg _)
    (hd.cons hid hlt _) ?_
  omega

/-- A class is added to the duties of `c`. -/
theorem Gathering.addClass (hg : g.Regular) (first : Bool)
    (hdata : (g.symbol id).class? = some data) (hid : id ∉ d.seen)
    (hreach : Relation.ReflTransGen (g.Topped root) c id)
    (hfirst : first = true ∧ id = c ∨ first = false ∧ Relation.TransGen (g.Topped root) c id)
    (hd : g.Gathering root c (some id) d) :
    g.Gathering root c (g.superclass? root id) (g.addClass first id data d) := by
  have hkind := kind_of_class? hdata
  have h := addClass_gathers hg first hdata hid hd.fit
  have hseen : d.seen ⊆ (g.addClass first id data d).seen := fun x hx =>
    h.seen (List.mem_cons_of_mem _ hx)
  have hfunctions : d.functions ⊆ (g.addClass first id data d).functions := fun x hx =>
    h.functions (List.mem_append_left _ hx)
  refine ⟨h.fit, fun j hj hjkind => ?_, fun a ha hakind => ?_, fun f hf => ?_⟩
  · -- an interface is an old one or a gathered one
    by_cases hmem : j ∈ id :: d.seen
    · have hold : j ∈ d.seen := (List.mem_cons.mp hmem).resolve_left fun heq => by
        rw [heq, hkind] at hjkind
        cases hjkind
      obtain ⟨hwhole, hclosed⟩ := hd.iface j hold hjkind
      exact ⟨List.Subset.trans hwhole hfunctions, List.Subset.trans hclosed hseen⟩
    · exact (h.added j hj hmem).2
  · -- a class is an old one or the added one
    have hmem : a ∈ id :: d.seen := by
      by_contra hnew
      cases hakind.symm.trans (h.added a ha hnew).1
    rcases List.mem_cons.mp hmem with rfl | hold
    · refine ⟨h.reached, fun hac f hf habstract => ?_, fun b hb => .inr hb.1⟩
      have hnot : first = false := hfirst.elim (fun hc => absurd hc.2 hac) And.left
      refine h.functions (List.mem_append_right _ ?_)
      rw [hnot]
      exact List.mem_filter.mpr ⟨hf, habstract⟩
    · obtain ⟨hlinked, hown, habove⟩ := hd.cls a hold hakind
      refine ⟨List.Subset.trans hlinked hseen, fun hac f hf habstract =>
        hfunctions (hown hac f hf habstract), fun b hb => .inl ?_⟩
      rcases habove b hb with hb | hb
      · exact hseen hb
      · cases hb
        exact h.seen List.mem_cons_self
  · rcases h.sound f hf with hf | ⟨i, hi, j, hreaches, hf⟩
    · rcases List.mem_append.mp hf with hf | hf
      · exact hd.sound f hf
      · rcases hfirst with ⟨rfl, -⟩ | ⟨rfl, habove⟩
        · cases hf
        · obtain ⟨hf, habstract⟩ := List.mem_filter.mp hf
          exact .ancestor habove hf habstract
    · exact .interface hreach hi hreaches hf

/-- Where the classes end, nothing is left. -/
theorem Gathering.finish {next : Option SymbolId} (hd : g.Gathering root c next d)
    (hnext : ∀ b, next = some b → g.isAbstract b = true → b ∈ d.seen) : g.Gathering root c none d :=
  { hd with
    cls := fun a ha hakind => (hd.cls a ha hakind).imp_right <| And.imp_right fun habove b hb =>
      .inl ((habove b hb).elim id fun hnextb => hnext b hnextb hb.2) }

variable (hg : g.Regular) (hroot : ∀ r, root = some r → (g.symbol r).kind = .cls)

include hg hroot

/-- The superclass of a class is a class. -/
theorem kind_superclass? {a b : SymbolId} (h : g.superclass? root a = some b) :
    (g.symbol b).kind = .cls := by
  unfold superclass? at h
  obtain ⟨data, hdata, h⟩ := Option.bind_eq_some_iff.mp h
  split at h
  next ref href =>
    refine hg.super? (x := a) ?_
    rw [Symbol.super?, hdata, Option.bind_some, href, Option.bind_some, h]
  next => exact hroot b (Option.eq_some_of_filter_eq_some h)

/-- Going through the classes above gathers all that they pass on. -/
theorem addClasses_gathering (fuel : Nat) :
    ∀ {next d a}, g.Gathering root c next d → g.symbols.size < fuel + d.seen.length →
      Relation.ReflTransGen (g.Topped root) c a → g.superclass? root a = next →
      ∃ d', g.addClasses root fuel false d next = d' ∧ g.Gathering root c none d' ∧
        d.seen ⊆ d'.seen := by
  induction fuel with
  | zero =>
    intro next d a hd hfuel
    have hlength := hd.fit.length_le
    omega
  | succ fuel ih =>
    intro next d a hd hfuel hreach hsuper
    cases next with
    | none => exact ⟨d, rfl, hd, List.Subset.refl _⟩
    | some id =>
      have hkind := kind_superclass? hg hroot hsuper
      obtain ⟨data, hdata⟩ := class?_of_kind hkind
      simp only [addClasses, hdata]
      split
      next hstop =>
        refine ⟨d, rfl, hd.finish fun b hb habstract => ?_, List.Subset.refl _⟩
        cases hb
        simpa [habstract] using hstop
      next hgo =>
        have hid : id ∉ d.seen := fun hmem => hgo (by simp [hmem])
        have habstract : g.isAbstract id = true := by simpa [hid] using hgo
        have hstep : g.Topped root a id := ⟨hsuper, habstract⟩
        have habove : Relation.TransGen (g.Topped root) c id := .tail' hreach hstep
        have hadded := hd.addClass hg false hdata hid habove.to_reflTransGen (.inr ⟨rfl, habove⟩)
        have hgathers := addClass_gathers hg false hdata hid hd.fit
        have hlength := hgathers.length_le
          (hd.fit.cons hid (lt_size_of_symbol_kind hkind (by decide)) _)
        rw [List.length_cons] at hlength
        obtain ⟨d', hd', hgathering, hsubset⟩ :=
          ih hadded (by omega) habove.to_reflTransGen rfl
        exact ⟨d', hd', hgathering, fun x hx =>
          hsubset (hgathers.seen (List.mem_cons_of_mem _ hx))⟩

/-- All that a class that is not abstract owes has been gathered. -/
theorem Gathering.complete (hd : g.Gathering root c none d)
    (hkind : (g.symbol c).kind = .cls) (hc : c ∈ d.seen) (habstract : g.isAbstract c = false)
    (hf : g.Owes root c f) : f ∈ d.functions := by
  -- the classes above are on the list, and classes
  have hclasses : ∀ {a}, Relation.ReflTransGen (g.Topped root) c a →
      a ∈ d.seen ∧ (g.symbol a).kind = .cls := by
    intro a ha
    induction ha with
    | refl => exact ⟨hc, hkind⟩
    | tail _ hstep ih =>
      obtain ⟨hmem, hakind⟩ := ih
      refine ⟨((hd.cls _ hmem hakind).2.2 _ hstep).resolve_right (by rintro ⟨⟩), ?_⟩
      exact kind_superclass? hg hroot hstep.1
  cases hf with
  | @interface a i j ha hi hij hf =>
    obtain ⟨hmem, hakind⟩ := hclasses ha
    have hinterfaces : j ∈ d.seen ∧ (g.symbol j).kind = .iface := by
      clear hf
      induction hij with
      | refl => exact ⟨(hd.cls a hmem hakind).1 hi, hg.interfaces hi⟩
      | tail _ hstep ih =>
        obtain ⟨hjmem, hjkind⟩ := ih
        exact ⟨(hd.iface _ hjmem hjkind).2 hstep, hg.interfaces (superInterfaces_subset _ hstep)⟩
    exact (hd.iface j hinterfaces.1 hinterfaces.2).1 hf
  | @ancestor a ha hf hfabstract =>
    obtain ⟨hmem, hakind⟩ := hclasses ha.to_reflTransGen
    have hne : a ≠ c := by
      rintro rfl
      obtain ⟨b, -, hstep⟩ := Relation.TransGen.tail'_iff.mp ha
      rw [hstep.2] at habstract
      cases habstract
    exact (hd.cls a hmem hakind).2.1 hne f hf hfabstract

/-- The functions that are gathered for a class that is not abstract are those that it owes. -/
theorem mem_obligations_iff (hkind : (g.symbol c).kind = .cls)
    (habstract : g.isAbstract c = false) : f ∈ g.obligations root c ↔ g.Owes root c f := by
  obtain ⟨data, hdata⟩ := class?_of_kind hkind
  have hempty : g.Gathering root c (some c) {} :=
    ⟨⟨List.nodup_nil, by rintro _ ⟨⟩⟩, by rintro _ ⟨⟩, by rintro _ ⟨⟩, by rintro _ ⟨⟩⟩
  have hfirst := hempty.addClass hg true hdata (by rintro ⟨⟩) .refl (.inl ⟨rfl, rfl⟩)
  have hgathers := addClass_gathers hg true (d := {}) hdata (by rintro ⟨⟩) hempty.fit
  have hc : c ∈ (g.addClass true c data {}).seen := hgathers.seen List.mem_cons_self
  have hlength : 0 < (g.addClass true c data {}).seen.length := List.length_pos_of_mem hc
  obtain ⟨d, hd, hgathering, hsubset⟩ := addClasses_gathering hg hroot g.symbols.size hfirst
    (by omega) .refl rfl
  have hobligations : g.obligations root c = d.functions := by
    rw [← hd, obligations, addClasses, hdata]
    rfl
  rw [hobligations]
  exact ⟨hgathering.sound f, hgathering.complete hg hroot hkind (hsubset hc) habstract⟩

omit hg hroot

/-! ### Functions that fit -/

theorem kind_of_mem_memberFunctions (h : f ∈ g.memberFunctions x) : (g.symbol f).kind = .fn :=
  beq_iff_eq.mp (List.mem_filter.mp h).2

theorem Owes.kind (h : g.Owes root c f) : (g.symbol f).kind = .fn := by
  cases h with
  | interface _ _ _ hf | ancestor _ hf _ => exact kind_of_mem_memberFunctions hf

theorem fn?_of_kind (h : s.kind = .fn) : ∃ data, s.fn? = some data := by
  cases s
  cases ‹SymbolData› with
  | fn data => exact ⟨data, rfl⟩
  | _ => cases h

theorem fn?_eq_none (h : s.kind ≠ .fn) : s.fn? = none := by
  cases s
  cases ‹SymbolData› with
  | fn data => exact absurd rfl h
  | _ => rfl

theorem var?_of_kind (h : s.kind = .var) : ∃ data, s.var? = some data := by
  cases s
  cases ‹SymbolData› with
  | var data => exact ⟨data, rfl⟩
  | _ => cases h

/-- Optional hints that ask for the same type: the same builtin type, the same target where both
have one, the same path otherwise. -/
inductive HintsMatch : Option TypeHint → Option TypeHint → Prop where
  | absent : HintsMatch none none
  | builtin (name : String) : HintsMatch (some (.builtin name)) (some (.builtin name))
  | target (a b : String) (t : SymbolId) :
    HintsMatch (some (.named a (some t))) (some (.named b (some t)))
  | path (a : String) {t t' : Option SymbolId} : t = none ∨ t' = none →
    HintsMatch (some (.named a t)) (some (.named a t'))

theorem agree_iff {a b : Option TypeHint} : TypeHint.agree a b = true ↔ HintsMatch a b := by
  constructor
  · intro h
    match a, b, h with
    | none, none, _ => exact .absent
    | some (.builtin a), some (.builtin b), h =>
      obtain rfl : a = b := beq_iff_eq.mp h
      exact .builtin a
    | some (.named a (some t)), some (.named b (some t')), h =>
      obtain rfl : t = t' := beq_iff_eq.mp h
      exact .target a b t
    | some (.named a none), some (.named b t'), h =>
      obtain rfl : a = b := beq_iff_eq.mp h
      exact .path a (.inl rfl)
    | some (.named a (some t)), some (.named b none), h =>
      obtain rfl : a = b := beq_iff_eq.mp h
      exact .path a (.inr rfl)
  · intro h
    cases h with
    | absent => rfl
    | builtin name => exact beq_self_eq_true name
    | target a b t => exact beq_self_eq_true t
    | @path a t t' h =>
      match t, t', h with
      | none, _, _ => exact beq_self_eq_true a
      | some _, none, _ => exact beq_self_eq_true a

/-- The parameter `q` has the form of the parameter `p`. -/
def ParamFits (g : Graph) (p q : SymbolId) : Prop :=
  ∃ a b, (g.symbol p).var? = some a ∧ (g.symbol q).var? = some b ∧ a.byRef = b.byRef ∧
    a.rest = b.rest ∧ a.optional = b.optional ∧ HintsMatch a.hint b.hint

/-- The symbol `i` is a function of the shape of the function `f`: it is as static and can be seen
as far, and has as many parameters, of the same form. -/
structure Fits (g : Graph) (f i : SymbolId) : Prop where
  kind : (g.symbol i).kind = .fn
  isStatic : (g.symbol i).flags.isStatic = (g.symbol f).flags.isStatic
  openness : (g.symbol f).flags.openness ≤ (g.symbol i).flags.openness
  params : List.Forall₂ g.ParamFits (g.symbol f).params (g.symbol i).params

/-- No mismatch is found exactly where one parameter fits the other. -/
theorem paramMismatch?_eq_none_iff {p q : SymbolId} (hp : (g.symbol p).kind = .var)
    (hq : (g.symbol q).kind = .var) :
    paramMismatch? (g.symbol p) (g.symbol q) = none ↔ g.ParamFits p q := by
  obtain ⟨a, ha⟩ := var?_of_kind hp
  obtain ⟨b, hb⟩ := var?_of_kind hq
  have hfits : g.ParamFits p q ↔ a.byRef = b.byRef ∧ a.rest = b.rest ∧
      a.optional = b.optional ∧ HintsMatch a.hint b.hint := by
    simp [ParamFits, ha, hb]
  rw [hfits, ← agree_iff]
  simp only [paramMismatch?, ha, hb]
  split
  next hform =>
    simp only [Bool.or_eq_true, bne_iff_ne, ne_eq] at hform
    constructor
    · intro h
      cases h
    · rintro ⟨hbyRef, hrest, hoptional, -⟩
      rcases hform with (hform | hform) | hform
      · exact absurd hbyRef hform
      · exact absurd hrest hform
      · exact absurd hoptional hform
  next hform =>
    simp only [Bool.or_eq_true, bne_iff_ne, ne_eq, not_or, Decidable.not_not] at hform
    obtain ⟨⟨hbyRef, hrest⟩, hoptional⟩ := hform
    split
    next hagree => exact iff_of_true rfl ⟨hbyRef, hrest, hoptional, hagree⟩
    next hagree => exact iff_of_false (by rintro ⟨⟩) fun h => hagree h.2.2.2

/-- Parameters fit pairwise if no pair is a mismatch. -/
theorem forall₂_paramFits_iff {ps qs : List SymbolId}
    (hps : ∀ p ∈ ps, (g.symbol p).kind = .var) (hqs : ∀ q ∈ qs, (g.symbol q).kind = .var)
    (hlength : ps.length = qs.length) :
    (∀ pq ∈ ps.zip qs, paramMismatch? (g.symbol pq.1) (g.symbol pq.2) = none) ↔
      List.Forall₂ g.ParamFits ps qs := by
  rw [List.forall₂_iff_zip]
  constructor
  · refine fun h => ⟨hlength, fun {p q} hmem => ?_⟩
    have hpq := List.of_mem_zip hmem
    exact (paramMismatch?_eq_none_iff (hps p hpq.1) (hqs q hpq.2)).mp (h (p, q) hmem)
  · rintro ⟨-, h⟩ ⟨p, q⟩ hmem
    have hpq := List.of_mem_zip hmem
    exact (paramMismatch?_eq_none_iff (hps p hpq.1) (hqs q hpq.2)).mpr (h hmem)

/-- There is no mismatch exactly where the shape fits. -/
theorem mismatch?_eq_none_iff (hg : g.Regular) {i : SymbolId} (hf : (g.symbol f).kind = .fn) :
    g.mismatch? f i = none ↔ g.Fits f i := by
  obtain ⟨a, ha⟩ := fn?_of_kind hf
  by_cases hi : (g.symbol i).kind = .fn
  · obtain ⟨b, hb⟩ := fn?_of_kind hi
    have hwanted : (g.symbol f).params = a.params := by rw [Symbol.params, ha]; rfl
    have hfound : (g.symbol i).params = b.params := by rw [Symbol.params, hb]; rfl
    simp only [mismatch?, ha, hb]
    split
    next hstatic =>
      exact iff_of_false (by rintro ⟨⟩) fun h => bne_iff_ne.mp hstatic h.isStatic.symm
    next hstatic =>
      split
      next hopen => exact iff_of_false (by rintro ⟨⟩) fun h => Nat.not_lt_of_le h.openness hopen
      next hopen =>
        split
        next harity =>
          refine iff_of_false (by rintro ⟨⟩) fun h => bne_iff_ne.mp harity ?_
          rw [← hwanted, ← hfound, h.params.length_eq]
        next harity =>
          have hlength : a.params.length = b.params.length := by simpa using harity
          have hpairs := forall₂_paramFits_iff (fun p hp => (hg.param (hwanted ▸ hp)).2.kind)
            (fun q hq => (hg.param (hfound ▸ hq)).2.kind) hlength
          refine (List.findSome?_eq_none_iff.trans hpairs).trans ?_
          rw [← hwanted, ← hfound]
          refine ⟨fun h => ⟨hi, ?_, Nat.le_of_not_lt hopen, h⟩, Fits.params⟩
          have hsame : (g.symbol f).flags.isStatic = (g.symbol i).flags.isStatic := by
            simpa using hstatic
          exact hsame.symm
  · simp only [mismatch?, ha, fn?_eq_none hi]
    exact iff_of_false (by rintro ⟨⟩) fun h => hi h.kind

/-- The class has, under the name of the function `f`, another one that is not abstract and fits. -/
def Implements (g : Graph) (c f : SymbolId) : Prop :=
  ∃ i, g.implementation? c (g.symbol f).name = some i ∧ i ≠ f ∧ g.isAbstract i = false ∧ g.Fits f i

theorem standing_eq_met_iff (hg : g.Regular) (hf : (g.symbol f).kind = .fn) :
    g.standing c f = .met ↔ g.Implements c f := by
  unfold standing Implements
  cases himpl : g.implementation? c (g.symbol f).name with
  | none => exact iff_of_false (by rintro ⟨⟩) (by rintro ⟨_, ⟨⟩, _⟩)
  | some i =>
    simp only [Option.some.injEq, exists_eq_left']
    split
    next hunmet =>
      refine iff_of_false (by rintro ⟨⟩) fun h => ?_
      simp [h.1, h.2.1] at hunmet
    next hunmet =>
      simp only [Bool.or_eq_true, decide_eq_true_eq, not_or, Bool.not_eq_true] at hunmet
      rw [← mismatch?_eq_none_iff hg hf]
      cases g.mismatch? f i with
      | none => exact iff_of_true rfl ⟨hunmet.1, hunmet.2, rfl⟩
      | some why => exact iff_of_false (by rintro ⟨⟩) fun h => by cases h.2.2

end Graph

end Scoping
