import Mathlib.Data.Nat.ModEq
import Scoping.Proofs.Graph.Qualifier
import Scoping.Proofs.Graph.Unmarked

/-!
# Chains of imported names

An imported name may stand for another imported name of the same unit. Such a chain is followed from
link to link, each with one hop less to go, and the answer at its end is the answer to its first
name if there are no more than sixteen links. A longer chain, or a circle, is a failure and not
merely a name that is not found (`Graph.lookupPath_importChain`): no fallback takes its place on the
way back.
-/

namespace Scoping

namespace Graph

variable {g : Graph} {unit : ScopeId} {ns : Namespace} {k : Nat} {a : Nat → String}
  {link : Nat → SymbolId} {q : ScopeId} {name : String}

/-- A unit directly below the global scope while a walk is inside. -/
structure OpenUnit (g : Graph) (unit : ScopeId) : Prop where
  kind : (g.scope unit).kind = .unit
  active : (g.scope unit).isActive = true
  outer : (g.scope unit).outer = none
  parent : (g.scope unit).parent = some global
  parent_global : (g.scope global).parent = none
  member : ∀ q ∈ [unit, global], (g.scope q).member = none
  delegate : ∀ q ∈ [unit, global], (g.scope q).delegate = none

/-- The unit imports names `a 0`, …, `a (k - 1)`, each standing for the next one, and declares none
of them otherwise. -/
structure ImportChain (g : Graph) (unit : ScopeId) (ns : Namespace) (k : Nat) (a : Nat → String)
    (link : Nat → SymbolId) : Prop where
  held : ∀ i < k, g.lookupHere? unit (a i) (some .imported) = some (link i)
  home : ∀ i < k, (g.symbol (link i)).scope.map g.owner = some unit
  path : ∀ i < k, (g.symbol (link i)).imported?.map (·.path.segments) = some [a (i + 1)]
  free : ∀ i < k, ∀ q ∈ [unit, global], g.lookupHere? q (a i) (some ns) = none ∧
    g.lookupHere? q (a i) (some .internal) = none
  inj : ∀ i < k, ∀ j < k, a i = a j → i = j

/-! ### One scope -/

theorem lookupHere?_eq_none (h : g.lookupHere? q name (some ns) = none) :
    (g.scope q).table.get? ns name = none ∧
      ((g.scope q).inner.bind fun inner => (g.scope inner).table.get? ns name) = none :=
  Option.or_eq_none_iff.mp (Option.orElse_eq_or.symm.trans h)

theorem lookupHere?_eq_some {x : SymbolId} (h : g.lookupHere? q name (some ns) = some x) :
    (g.scope q).table.get? ns name = some x ∨
      (g.scope q).table.get? ns name = none ∧
        ((g.scope q).inner.bind fun inner => (g.scope inner).table.get? ns name) = some x :=
  Option.or_eq_some_iff.mp (Option.orElse_eq_or.symm.trans h)

theorem itemIn_eq_notFound (h : g.lookupHere? unit name (some ns) = none)
    (hinternal : g.lookupHere? unit name (some .internal) = none) :
    g.itemIn unit name ns = .notFound := by
  obtain ⟨htable, hinner⟩ := lookupHere?_eq_none h
  simp only [itemIn, htable, hinner, (lookupHere?_eq_none hinternal).1, ite_self]

namespace OpenUnit

variable (hunit : g.OpenUnit unit) {name : String} {x : SymbolId}

include hunit

/-- A plain name that neither the unit nor the global scope declares. -/
theorem peek_eq_notFound (h : ∀ q ∈ [unit, global], g.lookupHere? q name (some ns) = none) :
    g.peek unit name (some ns) = .notFound := by
  have hmember : ∀ fuel, ∀ q ∈ [unit, global],
      g.searchMember name (some ns) (fuel + 1) q false = .notFound := fun fuel q hq => by
    obtain ⟨htable, hinner⟩ := lookupHere?_eq_none (h q hq)
    simp only [searchMember, searchOwn, Table.find?, htable, hinner, superScope?, memberInfo?,
      hunit.member q hq, Option.bind_none, Lookup.orElse]
  have houter : g.search name (some ns) (4095 + 1) global = .notFound := by
    simp only [search, hmember _ global (by simp), hunit.parent_global,
      hunit.delegate global (by simp), ite_self]
    rfl
  show g.search name (some ns) (4095 + 1 + 1) unit = .notFound
  rw [search]
  simp only [hmember _ unit (by simp), hunit.parent, hunit.delegate unit (by simp)]
  cases (g.scope unit).sealed with
  | true => rfl
  | false => simp only [Bool.false_eq_true, if_false, houter, Lookup.orElse]

theorem peek_of_lookupHere? (h : g.lookupHere? unit name (some ns) = some x) :
    g.peek unit name (some ns) = .found x := by
  have hrestrict : restrict (g.scope unit) x = .found x := by
    rw [restrict, Scope.isRestricted, hunit.member unit (by simp)]
    rfl
  have hown : g.searchOwn unit name (some ns) false = .found x := by
    rcases lookupHere?_eq_some h with htable | ⟨htable, hinner⟩
    · simp only [searchOwn, Table.find?, htable, hrestrict]
    · simp only [searchOwn, Table.find?, htable, hinner, isClosed, hunit.active, hrestrict]
      rfl
  rw [peek, search, searchMember, hown]
  rfl

theorem itemIn_of_lookupHere? (h : g.lookupHere? unit name (some ns) = some x) :
    g.itemIn unit name ns = .found x := by
  rcases lookupHere?_eq_some h with htable | ⟨htable, hinner⟩
  · simp only [itemIn, htable]
  · simp only [itemIn, htable, hinner, hunit.active]
    rfl

theorem visibleImport?_of_lookupHere? {skip : Option SymbolId}
    (h : g.lookupHere? unit name (some .imported) = some x) (hskip : some x ≠ skip) :
    g.visibleImport? unit name skip = some x := by
  have hfound : ((g.scope unit).table.get? .imported name <|>
      (g.scope unit).inner.bind fun inner => (g.scope inner).table.get? .imported name) =
        some x := h
  simp only [visibleImport?, hunit.active, if_true, hfound]
  rw [Option.filter_some, if_pos (bne_iff_ne.mpr hskip)]

theorem unitOf?_eq {p : ScopeId} (hp : g.owner p = unit) : g.unitOf? p = some unit := by
  have hsize : unit.index < g.scopes.size := lt_size_of_kind (by rw [hunit.kind]; decide)
  obtain ⟨n, hn⟩ : ∃ n, g.scopes.size = n + 1 := ⟨g.scopes.size - 1, by omega⟩
  rw [unitOf?, enclosing, hp, hn, enclosingWithin, List.find?_cons_of_pos]
  rw [hunit.kind]
  rfl

end OpenUnit

/-! ### From link to link -/

/-- What an import stands for, if fewer than `fuel` imports are followed. -/
def followLink (g : Graph) (ns : Namespace) (link : SymbolId) (fuel : Nat) : Lookup :=
  g.followWith (g.resolveFrom ns fuel (some link)) link

/-- The first `m` imports of a sequence stand for names in their unit, and all but the last of these
names lead to the next import. -/
structure Relay (g : Graph) (unit : ScopeId) (ns : Namespace) (m : Nat) (a : Nat → String)
    (link : Nat → SymbolId) : Prop where
  home : ∀ i < m, (g.symbol (link i)).scope.map g.owner = some unit
  path : ∀ i < m, (g.symbol (link i)).imported?.map (·.path.segments) = some [a (i + 1)]
  item : ∀ i, i + 1 < m → g.itemIn unit (a (i + 1)) ns = .notFound
  shown : ∀ i, i + 1 < m →
    g.visibleImport? unit (a (i + 1)) (some (link i)) = some (link (i + 1))

namespace Relay

variable {m : Nat} (hunit : g.OpenUnit unit) (h : g.Relay unit ns m a link) {i : Nat}

include hunit h

/-- An answer in the unit is not given up for one in the global scope. -/
theorem followLink_eq {fuel : Nat} {answer : Lookup} (hi : i < m)
    (hanswer : g.resolveFrom ns fuel (some (link i)) unit [a (i + 1)] = answer)
    (hne : answer ≠ .notFound) : g.followLink ns (link i) fuel = answer := by
  obtain ⟨data, hdata, hpath⟩ := Option.map_eq_some_iff.mp (h.path i hi)
  obtain ⟨p, hp, howner⟩ := Option.map_eq_some_iff.mp (h.home i hi)
  rw [followLink, followWith]
  simp only [hdata, hpath, hp, Option.bind_some, hunit.unitOf?_eq howner, Option.getD_some, hanswer]
  exact Lookup.orElse_of_ne hne

omit hunit in
theorem resolveFrom_eq (hi : i + 1 < m) (fuel : Nat) :
    g.resolveFrom ns (fuel + 1) (some (link i)) unit [a (i + 1)] =
      if fuel = 0 then .failed else g.followLink ns (link (i + 1)) fuel := by
  simp only [resolveFrom, descend, h.item i hi, h.shown i hi]
  rfl

/-- The hops run out on the way. -/
theorem followLink_eq_failed (fuel : Nat) : ∀ i, i + fuel + 1 < m →
    g.followLink ns (link i) (fuel + 1) = .failed := by
  induction fuel with
  | zero =>
    exact fun i hi => h.followLink_eq hunit (by omega) (h.resolveFrom_eq hi 0) (by decide)
  | succ fuel ih =>
    intro i hi
    have hanswer := h.resolveFrom_eq (i := i) (by omega) (fuel + 1)
    rw [if_neg (Nat.succ_ne_zero fuel), ih (i + 1) (by omega)] at hanswer
    exact h.followLink_eq hunit (by omega) hanswer (by decide)

/-- The last name is reached before the hops run out. -/
theorem followLink_eq_found {x : SymbolId} (hlast : g.itemIn unit (a m) ns = .found x)
    (fuel : Nat) : ∀ i < m, m ≤ i + fuel + 1 → g.followLink ns (link i) (fuel + 1) = .found x := by
  have hend : ∀ i fuel, i + 1 = m → g.followLink ns (link i) (fuel + 1) = .found x := by
    rintro i fuel rfl
    have hanswer : g.resolveFrom ns (fuel + 1) (some (link i)) unit [a (i + 1)] = .found x := by
      simp only [resolveFrom, descend, hlast]
      rfl
    exact h.followLink_eq hunit (by omega) hanswer (by simp)
  induction fuel with
  | zero => exact fun i hi hm => hend i 0 (by omega)
  | succ fuel ih =>
    intro i hi hm
    rcases Nat.eq_or_lt_of_le (Nat.succ_le_of_lt hi) with heq | hlt
    · exact hend i (fuel + 1) heq
    · have hanswer := h.resolveFrom_eq hlt (fuel + 1)
      rw [if_neg (Nat.succ_ne_zero fuel), ih (i + 1) hlt (by omega)] at hanswer
      exact h.followLink_eq hunit hi hanswer (by simp)

end Relay

/-! ### Chains and circles -/

namespace ImportChain

variable (hunit : g.OpenUnit unit) (h : g.ImportChain unit ns k a link) {i : Nat}

include hunit h

/-- The first name leads to the first import. -/
theorem lookupPath_eq (hk : 0 < k) :
    (g.lookupPath unit (.single (a 0)) ns).1 = g.followLink ns (link 0) 16 := by
  have hfree := h.free 0 hk
  have hdirect := hunit.peek_eq_notFound fun q hq => (hfree q hq).1
  have hinternal := hunit.peek_eq_notFound fun q hq => (hfree q hq).2
  have himport := hunit.peek_of_lookupHere? (h.held 0 hk)
  show (g.lookupSingle unit (a 0) ns).1 = _
  rw [lookupSingle_fst, hdirect, hinternal, himport, ite_self]
  rfl

omit hunit in
theorem item (hi : i < k) : g.itemIn unit (a i) ns = .notFound :=
  itemIn_eq_notFound (h.free i hi unit (by simp)).1 (h.free i hi unit (by simp)).2

omit hunit in
/-- An import stands for one name only. -/
theorem name_eq {j : Nat} (hi : i < k) (hj : j < k) (heq : link i = link j) :
    a (i + 1) = a (j + 1) := by
  have hpath := h.path i hi
  rw [heq, h.path j hj, Option.some.injEq, List.singleton_inj] at hpath
  exact hpath.symm

theorem relay (hlast : ∀ i < k, a i ≠ a k) : g.Relay unit ns k a link where
  home := h.home
  path := h.path
  item i hi := h.item hi
  shown i hi := by
    refine hunit.visibleImport?_of_lookupHere? (h.held _ hi) fun heq => ?_
    have hpath := h.name_eq (by omega) hi (Option.some.inj heq).symm
    rcases Nat.lt_or_ge (i + 1 + 1) k with hlt | hge
    · exact absurd (h.inj _ hi _ hlt hpath) (by omega)
    · obtain rfl : k = i + 1 + 1 := by omega
      exact hlast _ hi hpath

omit hunit h in
/-- Around the circle, the name after the last one is the first one. -/
theorem name_succ (hk : 0 < k) (hcircle : a k = a 0) (i : Nat) :
    a (i % k + 1) = a ((i + 1) % k) := by
  have hlt := Nat.mod_lt i hk
  rw [← Nat.mod_add_mod i k 1]
  rcases Nat.eq_or_lt_of_le (Nat.succ_le_of_lt hlt) with heq | hlt'
  · rw [show i % k + 1 = k from heq, Nat.mod_self, hcircle]
  · rw [Nat.mod_eq_of_lt hlt']

theorem relay_circle (hk : 2 ≤ k) (hcircle : a k = a 0) (m : Nat) :
    g.Relay unit ns m (fun i => a (i % k)) fun i => link (i % k) := by
  have hlt : ∀ i, i % k < k := fun i => Nat.mod_lt i (by omega)
  have hname := name_succ (by omega) hcircle
  refine ⟨fun i _ => h.home _ (hlt i), fun i _ => ?_, fun i _ => h.item (hlt _), fun i _ => ?_⟩
  · rw [← hname]
    exact h.path _ (hlt i)
  · refine hunit.visibleImport?_of_lookupHere? (h.held _ (hlt _)) fun heq => ?_
    have hpath := h.name_eq (hlt i) (hlt (i + 1)) (Option.some.inj heq).symm
    rw [hname, hname] at hpath
    have hmod : i + 1 ≡ i + 1 + 1 [MOD k] := h.inj _ (hlt _) _ (hlt _) hpath
    have hone : k ∣ 1 := (Nat.modEq_iff_dvd' (by omega)).mp hmod |>.trans (by simp)
    exact absurd (Nat.le_of_dvd Nat.one_pos hone) (by omega)

end ImportChain

/-- The first name of a chain of imports in a unit stands for what its last name stands for if the
chain has no more than sixteen links, and is a failure otherwise. So is every name of a circle. -/
theorem lookupPath_importChain (hunit : g.OpenUnit unit) (h : g.ImportChain unit ns k a link)
    (hk : 0 < k) :
    (∀ x, g.lookupHere? unit (a k) (some ns) = some x →
      (k ≤ 16 → (g.lookupPath unit (.single (a 0)) ns).1 = .found x) ∧
      (16 < k → (g.lookupPath unit (.single (a 0)) ns).1 = .failed)) ∧
    (2 ≤ k → a k = a 0 → (g.lookupPath unit (.single (a 0)) ns).1 = .failed) := by
  rw [h.lookupPath_eq hunit hk]
  refine ⟨fun x hx => ?_, fun hk hcircle => ?_⟩
  · have hrelay := h.relay hunit fun i hi heq => by
      rw [← heq, (h.free i hi unit (by simp)).1] at hx
      cases hx
    exact ⟨fun hle => hrelay.followLink_eq_found hunit (hunit.itemIn_of_lookupHere? hx) 15 0 hk
      (by omega), fun hlt => hrelay.followLink_eq_failed hunit 15 0 (by omega)⟩
  · exact (h.relay_circle hunit hk hcircle 17).followLink_eq_failed hunit 15 0 (by omega)

/-- The name with the given number in a chain. -/
def chainName (i : Nat) : String := String.ofList (List.replicate (i + 1) 'a')

/-- A unit with a variable and `k` imports, each standing for the name with the number that follows
its own. -/
def importingUnit (k : Nat) (next : Nat → Nat) : Graph :=
  let g := (initial.newScope .unit (some global)).2.enter ⟨1⟩
  let g := (g.alloc (.mkDetached (chainName k) {} {} (.var {}))).2
  (List.range k).foldl (fun g i =>
    let link := Symbol.mkDetached (chainName i) {} {}
      (.imported { path := .single (chainName (next i)) })
    ((g.alloc link).2.declare ⟨1⟩ ⟨i + 1⟩).2) (g.declare ⟨1⟩ ⟨0⟩).2

theorem importChain_importingUnit (hk : k = 16 ∨ k = 17) :
    (importingUnit k (· + 1)).OpenUnit ⟨1⟩ ∧
      (importingUnit k (· + 1)).ImportChain ⟨1⟩ .value k chainName fun i => ⟨i + 1⟩ := by
  rcases hk with rfl | rfl <;> constructor <;> constructor <;> decide +kernel

theorem importChain_circle :
    (importingUnit 2 (1 - ·)).OpenUnit ⟨1⟩ ∧
      (importingUnit 2 (1 - ·)).ImportChain ⟨1⟩ .value 2 (fun i => chainName (i % 2))
        fun i => ⟨i + 1⟩ := by
  constructor <;> constructor <;> decide +kernel

/-- Sixteen imports lead to the variable, and seventeen do not. Nor do two that stand for each
other. -/
theorem lookupPath_importChain_importingUnit :
    ((importingUnit 16 (· + 1)).lookupPath ⟨1⟩ (.single (chainName 0)) .value).1 = .found ⟨0⟩ ∧
      ((importingUnit 17 (· + 1)).lookupPath ⟨1⟩ (.single (chainName 0)) .value).1 = .failed ∧
      ((importingUnit 2 (1 - ·)).lookupPath ⟨1⟩ (.single (chainName 0)) .value).1 = .failed := by
  have hlast : ∀ k, k = 16 ∨ k = 17 →
      (importingUnit k (· + 1)).lookupHere? ⟨1⟩ (chainName k) (some .value) = some ⟨0⟩ := by
    rintro k (rfl | rfl) <;> decide +kernel
  refine ⟨?_, ?_, ?_⟩
  · obtain ⟨hunit, hchain⟩ := importChain_importingUnit (.inl rfl)
    exact ((lookupPath_importChain hunit hchain (by decide)).1 _ (hlast 16 (.inl rfl))).1
      (by decide)
  · obtain ⟨hunit, hchain⟩ := importChain_importingUnit (.inr rfl)
    exact ((lookupPath_importChain hunit hchain (by decide)).1 _ (hlast 17 (.inr rfl))).2
      (by decide)
  · obtain ⟨hunit, hchain⟩ := importChain_circle
    exact (lookupPath_importChain hunit hchain (by decide)).2 (by decide) rfl

end Graph

end Scoping
