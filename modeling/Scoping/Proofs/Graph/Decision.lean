import Scoping.Proofs.Graph.Partition

/-!
# What a decision says and does

`Graph.decide` compares a new symbol with the one that it *meets*: the first symbol of its namespace
and name along the reach of the target, other than itself. The reach starts with the target and its
private partition, so a symbol that meets nothing, or something further away, finds its own slot
free. The second half describes `Graph.declare` through the two views: which table changes, which
symbol moves, and that nothing else does.
-/

namespace Scoping

namespace Graph

variable {g : Graph} {flags : Flags} {ns : Namespace} {shadows : Option SymbolId} {p : ScopeId}
  {new : Symbol} {e old : SymbolId}

/-! ### The reach -/

theorem prefix_reachSupers (g : Graph) : ∀ (fuel : Nat) (seen : List ScopeId)
    (next : Option ScopeId), seen <+: g.reachSupers fuel seen next
  | 0, seen, _ => List.prefix_rfl
  | _ + 1, seen, none => List.prefix_rfl
  | fuel + 1, seen, some id => by
    rw [reachSupers]
    split
    · exact List.prefix_rfl
    · exact (List.prefix_append _ _).trans (prefix_reachSupers g fuel _ _)

theorem prefix_reachWithin (g : Graph) : ∀ (fuel : Nat) (seen : List ScopeId)
    (next : Option ScopeId), seen <+: g.reachWithin fuel seen next
  | 0, seen, _ => List.prefix_rfl
  | _ + 1, seen, none => List.prefix_rfl
  | fuel + 1, seen, some id => by
    rw [reachWithin]
    split
    · exact List.prefix_rfl
    · exact (List.prefix_append _ _).trans
        ((prefix_reachSupers g _ _ _).trans (prefix_reachWithin g fuel _ _))

variable {target : ScopeId} {symbol : SymbolId}

/-- The reach of a scope starts with its owner and the private partition of that. -/
theorem withInner_prefix_reach (target : ScopeId) (h : 0 < g.scopes.size) :
    g.withInner (g.owner target) <+: g.reach target := by
  have hstart : ∀ (fuel : Nat) (id : ScopeId), 0 < fuel →
      g.withInner id <+: g.reachWithin fuel [] (some id) := by
    intro fuel id hfuel
    cases fuel with
    | zero => exact absurd hfuel (Nat.lt_irrefl 0)
    | succ n =>
      simp only [reachWithin, List.not_mem_nil, if_false, List.nil_append]
      exact (prefix_reachSupers g _ _ _).trans (prefix_reachWithin g _ _ _)
  exact hstart _ _ h

/-! ### Decisions -/

/-- The symbol that a new one meets: the first of its namespace and name along the reach. -/
def met? (g : Graph) (target : ScopeId) (symbol : SymbolId) : Option SymbolId :=
  (g.occupant? (g.reach target) (g.symbol symbol).ns (g.symbol symbol).name).filter (· != symbol)

/-- Is the name of a symbol free of entries of the session along the reach? -/
def Unmanaged (g : Graph) (target : ScopeId) (symbol : SymbolId) : Prop :=
  (g.reach target).findSome? (g.managedIn? symbol (g.symbol symbol).name) = none

theorem exists_of_met? (h : g.met? target symbol = some e) :
    e ≠ symbol ∧ ∃ p ∈ g.reach target,
      (g.scope p).table.get? (g.symbol symbol).ns (g.symbol symbol).name = some e := by
  obtain ⟨hocc, hne⟩ := Option.filter_eq_some_iff.mp h
  exact ⟨by simpa using hne, List.exists_of_findSome?_eq_some hocc⟩

/-- A symbol of the session along the reach would have been noticed. -/
theorem Unmanaged.managed_eq_false (h : g.Unmanaged target symbol) (hp : p ∈ g.reach target)
    (hne : e ≠ symbol) (he : (g.scope p).table.get? ns (g.symbol symbol).name = some e) :
    (g.symbol e).managed = false := by
  have hnone := List.findSome?_eq_none_iff.mp h p hp
  rw [managedIn?, List.find?_eq_none] at hnone
  have hmem : e ∈ Namespace.all.filterMap fun ns =>
      (g.scope p).table.get? ns (g.symbol symbol).name :=
    List.mem_filterMap.mpr ⟨ns, by cases ns <;> simp [Namespace.all], he⟩
  simpa [hne] using hnone e hmem

private theorem decideAgainst_eq_add (h : g.decideAgainst target new flags e = .add shadows) :
    shadows = some e ∧ (g.symbol e).flags.isIncomplete = false ∧
      (g.symbol e).flags.isFinal = false ∧ (g.symbol e).scope.map g.owner ≠ some target := by
  simp only [decideAgainst] at h
  split at h
  · split at h
    · cases h
    · split at h
      · cases h
      · split at h <;> cases h
  · split at h
    · cases h
    · split at h
      · split at h <;> cases h
      · cases h
        simp_all

private theorem decideAgainst_eq_replace (h : g.decideAgainst target new flags e = .replace old) :
    old = e ∧ (g.symbol e).flags.isIncomplete = true ∧ (g.symbol e).kind = new.kind ∧
      flags.isIncomplete = false ∧ { (g.symbol e).flags with isIncomplete := false } = flags := by
  simp only [decideAgainst] at h
  split at h
  · split at h
    · cases h
    · split at h
      · cases h
      · split at h
        · cases h
          simp_all
        · cases h
  · split at h
    · cases h
    · split at h
      · split at h <;> cases h
      · cases h

/-- A symbol is added if what it meets is complete, not final, and at home in another scope. -/
theorem met?_of_decide_eq_add (h : g.decide target symbol = .add shadows) :
    g.Unmanaged (g.owner target) symbol ∧ g.met? (g.owner target) symbol = shadows ∧
      ∀ e ∈ shadows, (g.symbol e).flags.isIncomplete = false ∧
        (g.symbol e).flags.isFinal = false ∧
        (g.symbol e).scope.map g.owner ≠ some (g.owner target) := by
  simp only [decide] at h
  split at h
  · cases h
  next hfree =>
    refine ⟨hfree, ?_⟩
    split at h
    next hmet =>
      cases h
      exact ⟨hmet, by simp⟩
    next e hmet =>
      obtain ⟨rfl, hrest⟩ := decideAgainst_eq_add h
      exact ⟨hmet, by simpa using hrest⟩

/-- A symbol replaces what it meets if that is a forward declaration of the same kind with the
same modifiers. -/
theorem met?_of_decide_eq_replace (h : g.decide target symbol = .replace old) :
    g.Unmanaged (g.owner target) symbol ∧ g.met? (g.owner target) symbol = some old ∧
      (g.symbol old).flags.isIncomplete = true ∧ (g.symbol old).kind = (g.symbol symbol).kind ∧
      (g.effectiveFlags (g.owner target) (g.symbol symbol).flags).isIncomplete = false ∧
      { (g.symbol old).flags with isIncomplete := false } =
        g.effectiveFlags (g.owner target) (g.symbol symbol).flags := by
  simp only [decide] at h
  split at h
  · cases h
  next hfree =>
    refine ⟨hfree, ?_⟩
    split at h
    · cases h
    next e hmet =>
      obtain ⟨rfl, hrest⟩ := decideAgainst_eq_replace h
      exact ⟨hmet, hrest⟩

/-- The first entry at a key among a scope and its partition is the first along the reach. -/
theorem occupant?_reach_of_owner (hg : g.Partitioned) (hsize : 0 < g.scopes.size) {name : String}
    (hp : g.owner p = g.owner target) (htaken : (g.scope p).table.get? ns name ≠ none) :
    ∃ q e, g.owner q = g.owner target ∧ (g.scope q).table.get? ns name = some e ∧
      g.occupant? (g.reach (g.owner target)) ns name = some e := by
  obtain ⟨rest, hreach⟩ := withInner_prefix_reach (g.owner target) hsize
  rw [hg.owner_owner] at hreach
  rw [← hreach]
  simp only [occupant?, withInner, List.cons_append, List.findSome?_cons]
  cases hown : (g.scope (g.owner target)).table.get? ns name with
  | some e => exact ⟨_, e, hg.owner_owner target, hown, rfl⟩
  | none =>
    rcases hg.eq_or_inner_of_owner hp with rfl | hinner
    · exact absurd hown htaken
    · obtain ⟨e, he⟩ := Option.ne_none_iff_exists'.mp htaken
      exact ⟨p, e, hp, he, by simp [hinner, he]⟩

/-! ### Carrying out -/

/-- The default rule decides about visibility only. -/
theorem effectiveFlags_spec (g : Graph) (p : ScopeId) (flags : Flags) :
    ∃ isProtected isPrivate, g.effectiveFlags p flags = { flags with isProtected, isPrivate } := by
  simp only [effectiveFlags]
  split <;> split <;> exact ⟨_, _, rfl⟩

/-- The default rule has nothing left to do once it has been applied. -/
theorem effectiveFlags_idem (g : Graph) (p : ScopeId) (flags : Flags) :
    g.effectiveFlags p (g.effectiveFlags p flags) = g.effectiveFlags p flags := by
  simp only [effectiveFlags]
  grind [Flags.hasVisibility]

/-- The graph in which a declaration is decided: the flags of the symbol are settled. -/
def stamp (g : Graph) (target : ScopeId) (symbol : SymbolId) : Graph :=
  g.modifySymbol symbol fun s =>
    { s with flags := g.effectiveFlags (g.owner target) (g.symbol symbol).flags }

/-- What is decided about a declaration. -/
def verdict (g : Graph) (target : ScopeId) (symbol : SymbolId) : Decision :=
  (g.declare target symbol).1

theorem verdict_eq : g.verdict target symbol =
    (g.stamp target symbol).decide (g.owner target) symbol := rfl

theorem declare_snd : (g.declare target symbol).2 =
    (g.stamp target symbol).apply (g.owner target) symbol (g.verdict target symbol) := rfl

@[simp]
theorem scope_stamp (q : ScopeId) : (g.stamp target symbol).scope q = g.scope q := rfl

@[simp]
theorem owner_stamp (q : ScopeId) : (g.stamp target symbol).owner q = g.owner q := rfl

@[simp]
theorem scopes_stamp : (g.stamp target symbol).scopes = g.scopes := rfl

@[simp]
theorem size_symbols_stamp : (g.stamp target symbol).symbols.size = g.symbols.size := by
  simp [stamp]

theorem symbol_stamp_of_ne {x : SymbolId} (h : x ≠ symbol) :
    (g.stamp target symbol).symbol x = g.symbol x :=
  symbol_modifySymbol_of_ne h _

variable {β : Type}

/-- Only the flags of the new symbol are settled. -/
theorem symbol_stamp_congr (π : Symbol → β) (h : ∀ s flags, π { s with flags } = π s)
    (x : SymbolId) : π ((g.stamp target symbol).symbol x) = π (g.symbol x) :=
  symbol_modifySymbol_congr π _ _ fun s => h s _

theorem ns_stamp (x : SymbolId) : ((g.stamp target symbol).symbol x).ns = (g.symbol x).ns :=
  symbol_stamp_congr Symbol.ns (fun _ _ => rfl) x

theorem name_stamp (x : SymbolId) : ((g.stamp target symbol).symbol x).name = (g.symbol x).name :=
  symbol_stamp_congr Symbol.name (fun _ _ => rfl) x

private theorem reach_stamp (q : ScopeId) : (g.stamp target symbol).reach q = g.reach q :=
  reach_congr rfl (fun _ => rfl) (fun _ => rfl) (fun _ => rfl) rfl

private theorem met?_stamp (q : ScopeId) :
    (g.stamp target symbol).met? q symbol = g.met? q symbol := by
  rw [met?, met?, ns_stamp, name_stamp, reach_stamp]
  rfl

private theorem Unmanaged.of_stamp {q : ScopeId} (h : (g.stamp target symbol).Unmanaged q symbol) :
    g.Unmanaged q symbol := by
  have hmanaged : ∀ x, ((g.stamp target symbol).symbol x).managed = (g.symbol x).managed :=
    symbol_stamp_congr Symbol.managed fun _ _ => rfl
  have hin : (g.stamp target symbol).managedIn? symbol = g.managedIn? symbol := by
    funext name p
    simp only [managedIn?, scope_stamp, hmanaged]
  rwa [Unmanaged, name_stamp, reach_stamp, hin] at h

/-- A symbol is added if what it meets is complete, not final, and at home in another scope. -/
theorem met?_of_verdict_eq_add (hg : g.Partitioned) (hv : g.verdict target symbol = .add shadows) :
    g.Unmanaged (g.owner target) symbol ∧ g.met? (g.owner target) symbol = shadows ∧
      ∀ e ∈ shadows, (g.symbol e).flags.isIncomplete = false ∧
        (g.symbol e).flags.isFinal = false ∧
        (g.symbol e).scope.map g.owner ≠ some (g.owner target) := by
  obtain ⟨hfree, hmet, hother⟩ := met?_of_decide_eq_add (verdict_eq ▸ hv)
  rw [owner_stamp, hg.owner_owner] at hfree hmet hother
  rw [met?_stamp] at hmet
  refine ⟨hfree.of_stamp, hmet, fun e he => ?_⟩
  have hne : e ≠ symbol := (exists_of_met? (hmet.trans he)).1
  have hrest := hother e he
  rwa [symbol_stamp_of_ne hne] at hrest

/-- A symbol replaces what it meets if that is a forward declaration of the same kind with the
same modifiers. -/
theorem met?_of_verdict_eq_replace (hg : g.Partitioned)
    (hv : g.verdict target symbol = .replace old) :
    g.Unmanaged (g.owner target) symbol ∧ g.met? (g.owner target) symbol = some old ∧
      (g.symbol old).flags.isIncomplete = true ∧ (g.symbol old).kind = (g.symbol symbol).kind := by
  obtain ⟨hfree, hmet, hincomplete, hkind, -, -⟩ := met?_of_decide_eq_replace (verdict_eq ▸ hv)
  rw [owner_stamp, hg.owner_owner, met?_stamp] at hmet
  rw [owner_stamp, hg.owner_owner] at hfree
  have hne : old ≠ symbol := (exists_of_met? hmet).1
  have hkinds : ∀ x, ((g.stamp target symbol).symbol x).kind = (g.symbol x).kind :=
    symbol_stamp_congr Symbol.kind fun _ _ => rfl
  rw [symbol_stamp_of_ne hne] at hincomplete
  rw [hkinds, hkinds] at hkind
  exact ⟨hfree.of_stamp, hmet, hincomplete, hkind⟩

/-- A symbol that is added finds its key free in the target and in the private partition, provided
that the entries there are at home. -/
theorem free_of_verdict_eq_add (hg : g.Partitioned) (hsize : 0 < g.scopes.size)
    (hv : g.verdict target symbol = .add shadows)
    (hhome : ∀ p e, g.owner p = g.owner target →
      (g.scope p).table.get? (g.symbol symbol).ns (g.symbol symbol).name = some e →
        e ≠ symbol ∧ (g.symbol e).scope = some p)
    (hp : g.owner p = g.owner target) :
    (g.scope p).table.get? (g.symbol symbol).ns (g.symbol symbol).name = none := by
  obtain ⟨-, hmet, hother⟩ := met?_of_verdict_eq_add hg hv
  refine Option.eq_none_iff_forall_ne_some.mpr fun e' he' => ?_
  have htaken : (g.scope p).table.get? (g.symbol symbol).ns (g.symbol symbol).name ≠ none := by
    simp [he']
  obtain ⟨q, e, hq, he, hocc⟩ := occupant?_reach_of_owner hg hsize hp htaken
  obtain ⟨hne, hscope⟩ := hhome q e hq he
  have hshadows : shadows = some e := by
    rw [← hmet, met?, hocc, Option.filter_some, if_pos (by simpa using hne)]
  refine (hother e hshadows).2.2 ?_
  rw [hscope, Option.map_some, hq]

/-- What a declaration does to a scope: it lists a symbol, or notes one as dropped or shadowed. -/
structure Enlists (s s' : Scope) : Prop where
  rest : ∃ table dropped shadowed, s' = { s with table, dropped, shadowed }
  listed : ∀ {ns name}, s'.table.get? ns name = none → s.table.get? ns name = none

/-- What holds once the flags are settled and outlasts every edit of a declaration holds after
it. -/
theorem declare_induction {P : Graph → Prop} (hstamp : P (g.stamp target symbol))
    (hscope : ∀ g' p f, (∀ s, Enlists s (f s)) → P g' → P (g'.modifyScope p f))
    (hmove : ∀ g' p, P g' → P (g'.modifySymbol symbol fun s => { s with scope := some p }))
    (hclear : ∀ g' old, P g' →
      P (g'.modifySymbol old fun s => { s with scope := none, reachable := false })) :
    P (g.declare target symbol).2 := by
  have hplace : ∀ p, P ((g.stamp target symbol).place p symbol) := fun p =>
    hmove _ p (hscope _ p _ (fun _ => ⟨⟨_, _, _, rfl⟩, Table.get?_eq_none_of_insert⟩) hstamp)
  rw [declare_snd]
  cases g.verdict target symbol with
  | reject | keep => exact hstamp
  | add shadows =>
    cases shadows with
    | none => exact hplace _
    | some old => exact hscope _ _ _ (fun _ => ⟨⟨_, _, _, rfl⟩, id⟩) (hplace _)
  | replace old =>
    refine hclear _ old ?_
    split
    · exact hstamp
    · refine hscope _ _ _ (fun _ => ⟨⟨_, _, _, rfl⟩, id⟩) (hmove _ _ (hscope _ _ _ ?_ hstamp))
      exact fun _ => ⟨⟨_, _, _, rfl⟩, Table.get?_eq_none_of_replace⟩

/-- Declaring touches tables, and the lists of dropped and shadowed symbols, and nothing else of a
scope. -/
theorem scope_declare_congr (π : Scope → β)
    (h : ∀ s table dropped shadowed, π { s with table, dropped, shadowed } = π s) (q : ScopeId) :
    π ((g.declare target symbol).2.scope q) = π (g.scope q) := by
  refine declare_induction (P := fun g' => π (g'.scope q) = π (g.scope q)) rfl
    (fun g' p f hf ih => ?_) (fun _ _ ih => ih) fun _ _ ih => ih
  refine (scope_modifyScope_congr π p q fun s => ?_).trans ih
  obtain ⟨table, dropped, shadowed, heq⟩ := (hf s).rest
  rw [heq, h]

/-- Carrying a decision out touches owning scope and reachability, and nothing else of a symbol. -/
theorem symbol_declare_stamp (π : Symbol → β)
    (h : ∀ s scope reachable, π { s with scope, reachable } = π s) (x : SymbolId) :
    π ((g.declare target symbol).2.symbol x) = π ((g.stamp target symbol).symbol x) :=
  declare_induction (P := fun g' => π (g'.symbol x) = π ((g.stamp target symbol).symbol x)) rfl
    (fun _ _ _ _ ih => ih)
    (fun _ _ ih => (symbol_modifySymbol_congr π _ _ fun s => h s _ s.reachable).trans ih)
    fun _ _ ih => (symbol_modifySymbol_congr π _ _ fun s => h s none false).trans ih

/-- Declaring touches flags, owning scope and reachability, and nothing else of a symbol. -/
theorem symbol_declare_congr (π : Symbol → β)
    (h : ∀ s flags scope reachable, π { s with flags, scope, reachable } = π s) (x : SymbolId) :
    π ((g.declare target symbol).2.symbol x) = π (g.symbol x) :=
  (symbol_declare_stamp π (fun s => h s s.flags) x).trans
    (symbol_stamp_congr π (fun s flags => h s flags s.scope s.reachable) x)

theorem Partitioned.declare (hg : g.Partitioned) (target : ScopeId) (symbol : SymbolId) :
    (g.declare target symbol).2.Partitioned :=
  hg.congr (scope_declare_congr Scope.pairing fun _ _ _ _ => rfl)

/-! ### Tables and owners after a declaration -/

/-- The scope that a declared symbol goes to if it is added. -/
def landing (g : Graph) (target : ScopeId) (symbol : SymbolId) : ScopeId :=
  g.placeFor (g.owner target) (g.effectiveFlags (g.owner target) (g.symbol symbol).flags)

theorem owner_landing (hg : g.Partitioned) :
    g.owner (g.landing target symbol) = g.owner target := by
  simp only [landing, placeFor]
  split
  next hinner =>
    split
    · exact hg.owner_inner hinner
    · exact hg.owner_owner target
  next => exact hg.owner_owner target

theorem landing_lt_size (hg : g.Partitioned) (htarget : target.index < g.scopes.size) :
    (g.landing target symbol).index < g.scopes.size := by
  simp only [landing, placeFor]
  split
  next hinner =>
    split
    · exact hg.inner_lt_size hinner
    · exact hg.owner_lt_size htarget
  next => exact hg.owner_lt_size htarget

/-- A refused or repeated declaration leaves the scopes alone and settles the flags only. -/
theorem declare_of_not_isLive (h : (g.verdict target symbol).isLive = false) :
    (g.declare target symbol).2 = g.stamp target symbol := by
  rw [declare_snd]
  cases hv : g.verdict target symbol with
  | reject => rfl
  | keep => rfl
  | add | replace => simp [hv, Decision.isLive] at h

theorem flags_stamp_self (hsymbol : symbol.index < g.symbols.size) :
    ((g.stamp target symbol).symbol symbol).flags =
      g.effectiveFlags (g.owner target) (g.symbol symbol).flags := by
  rw [stamp, symbol_modifySymbol_self hsymbol]

private theorem placeFor_stamp (hsymbol : symbol.index < g.symbols.size) :
    (g.stamp target symbol).placeFor (g.owner target)
      ((g.stamp target symbol).symbol symbol).flags = g.landing target symbol := by
  rw [flags_stamp_self hsymbol]
  rfl

section Add

variable {shadows : Option SymbolId} (hv : g.verdict target symbol = .add shadows)

include hv

/-- An added symbol changes the table that it goes to and no other. -/
theorem table_declare_add (hsymbol : symbol.index < g.symbols.size) (q : ScopeId) :
    ((g.declare target symbol).2.scope q).table =
      if q = g.landing target symbol ∧ q.index < g.scopes.size then
        (g.scope q).table.insert (g.symbol symbol).ns (g.symbol symbol).name symbol
      else (g.scope q).table := by
  have hplace : (((g.stamp target symbol).place (g.landing target symbol) symbol).scope q).table
      = if q = g.landing target symbol ∧ q.index < g.scopes.size then
          (g.scope q).table.insert (g.symbol symbol).ns (g.symbol symbol).name symbol
        else (g.scope q).table := by
    simp only [place, scope_modifySymbol, ns_stamp, name_stamp]
    exact apply_scope_modifyScope Scope.table _ _ q
  rw [declare_snd, hv, ← hplace]
  cases shadows with
  | none => simp only [apply, placeFor_stamp hsymbol]
  | some old =>
    simp only [apply, placeFor_stamp hsymbol]
    rw [scope_modifyScope_congr Scope.table]
    exact fun _ => rfl

theorem dropped_declare_add (q : ScopeId) :
    ((g.declare target symbol).2.scope q).dropped = (g.scope q).dropped := by
  have hplace : ∀ (g' : Graph) p, ((g'.place p symbol).scope q).dropped = (g'.scope q).dropped := by
    intro g' p
    simp only [place, scope_modifySymbol]
    rw [scope_modifyScope_congr Scope.dropped]
    exact fun _ => rfl
  rw [declare_snd, hv]
  cases shadows with
  | none => exact hplace _ _
  | some old =>
    simp only [apply]
    rw [scope_modifyScope_congr Scope.dropped, hplace]
    · rfl
    · exact fun _ => rfl

/-- An added symbol is owned by the scope that it goes to, and no other symbol changes. -/
theorem symbol_declare_add (hsymbol : symbol.index < g.symbols.size) (x : SymbolId) :
    (g.declare target symbol).2.symbol x =
      if x = symbol then
        { (g.stamp target symbol).symbol symbol with scope := some (g.landing target symbol) }
      else g.symbol x := by
  have hplace : ((g.stamp target symbol).place (g.landing target symbol) symbol).symbol x =
      if x = symbol then
        { (g.stamp target symbol).symbol symbol with scope := some (g.landing target symbol) }
      else g.symbol x := by
    simp only [place, symbol_modifySymbol, symbol_modifyScope, size_symbols_modifyScope,
      size_symbols_stamp, hsymbol, and_true]
    by_cases hx : x = symbol
    · simp [hx]
    · simp [hx, symbol_stamp_of_ne hx]
  rw [declare_snd, hv, ← hplace]
  cases shadows with
  | none => simp only [apply, placeFor_stamp hsymbol]
  | some old => simp only [apply, placeFor_stamp hsymbol, symbol_modifyScope]

/-- An added symbol occupies one key of the table that it goes to. -/
theorem get?_declare_add (hsymbol : symbol.index < g.symbols.size)
    (hland : (g.landing target symbol).index < g.scopes.size)
    (hfree : (g.scope (g.landing target symbol)).table.get? (g.symbol symbol).ns
      (g.symbol symbol).name = none) (q : ScopeId) (ns : Namespace) (name : String) :
    ((g.declare target symbol).2.scope q).table.get? ns name =
      if q = g.landing target symbol ∧ ns = (g.symbol symbol).ns ∧ name = (g.symbol symbol).name
      then some symbol else (g.scope q).table.get? ns name := by
  rw [table_declare_add hv hsymbol]
  by_cases hq : q = g.landing target symbol
  · subst hq
    simp only [hland, and_self, if_true, true_and]
    exact Table.get?_insert hfree ns name
  · simp [hq]

theorem scope_declare_add (hsymbol : symbol.index < g.symbols.size) (x : SymbolId) :
    ((g.declare target symbol).2.symbol x).scope =
      if x = symbol then some (g.landing target symbol) else (g.symbol x).scope := by
  rw [symbol_declare_add hv hsymbol]
  split <;> rfl

end Add

section Replace

variable {old : SymbolId} (hv : g.verdict target symbol = .replace old)

include hv

/-- The symbol that is replaced is another one. -/
theorem ne_of_verdict_eq_replace : old ≠ symbol :=
  (exists_of_met? (met?_of_decide_eq_replace (verdict_eq ▸ hv)).2.1).1

private theorem scope_stamp_old :
    ((g.stamp target symbol).symbol old).scope = (g.symbol old).scope := by
  rw [symbol_stamp_of_ne (ne_of_verdict_eq_replace hv)]

/-- A symbol that completes a forward declaration has the flags of the declaration. -/
theorem flags_declare_replace (hg : g.Partitioned) (hsymbol : symbol.index < g.symbols.size) :
    ((g.declare target symbol).2.symbol symbol).flags =
      { (g.symbol old).flags with isIncomplete := false } := by
  obtain ⟨-, -, -, -, -, hflags⟩ := met?_of_decide_eq_replace (verdict_eq ▸ hv)
  rw [symbol_stamp_of_ne (ne_of_verdict_eq_replace hv), flags_stamp_self hsymbol, owner_stamp,
    hg.owner_owner] at hflags
  rw [symbol_declare_stamp Symbol.flags fun _ _ _ => rfl, flags_stamp_self hsymbol, hflags]
  exact (effectiveFlags_idem g (g.owner target) _).symm

/-- A completed declaration changes the table of its owner, whatever the target was. -/
theorem table_declare_replace (q : ScopeId) :
    ((g.declare target symbol).2.scope q).table =
      if (g.symbol old).scope = some q ∧ q.index < g.scopes.size then
        (g.scope q).table.replace (g.symbol symbol).ns (g.symbol symbol).name symbol
      else (g.scope q).table := by
  rw [declare_snd, hv]
  simp only [apply, complete, scope_modifySymbol, scope_stamp_old hv, ns_stamp, name_stamp]
  cases hold : (g.symbol old).scope with
  | none => simp
  | some p =>
    simp only [Option.some.injEq, eq_comm (a := p)]
    rw [scope_modifyScope_congr Scope.table, scope_modifySymbol]
    · exact apply_scope_modifyScope Scope.table _ _ q
    · exact fun _ => rfl

/-- The forward declaration is dropped where it was owned. -/
theorem dropped_declare_replace (q : ScopeId) :
    ((g.declare target symbol).2.scope q).dropped =
      if (g.symbol old).scope.map g.owner = some q ∧ q.index < g.scopes.size then
        (g.scope q).dropped ++ [old]
      else (g.scope q).dropped := by
  rw [declare_snd, hv]
  simp only [apply, complete, scope_modifySymbol, scope_stamp_old hv]
  cases hold : (g.symbol old).scope with
  | none => simp
  | some p =>
    -- entering the new symbol changes neither owners nor lists of dropped symbols
    have hlist : ∀ (f : Scope → Scope) (h : Symbol → Symbol), (∀ s, (f s).dropped = s.dropped) →
        ((((g.stamp target symbol).modifyScope p f).modifySymbol symbol h).scope q).dropped =
          (g.scope q).dropped := by
      intro f h hf
      rw [scope_modifySymbol, scope_modifyScope_congr Scope.dropped _ _ hf]
      rfl
    have howner : ∀ (f : Scope → Scope) (h : Symbol → Symbol), (∀ s, (f s).outer = s.outer) →
        (((g.stamp target symbol).modifyScope p f).modifySymbol symbol h).owner p = g.owner p := by
      intro f h hf
      simp only [owner, scope_modifySymbol]
      rw [scope_modifyScope_congr Scope.outer _ _ hf]
      rfl
    simp only [Option.map_some, Option.some.injEq, eq_comm (a := g.owner p)]
    rw [apply_scope_modifyScope Scope.dropped]
    simp only [hlist, howner, size_scopes_modifySymbol, size_scopes_modifyScope, scopes_stamp,
      implies_true]

/-- The new symbol takes over the owner of the forward declaration, which is detached. -/
theorem symbol_declare_replace (hsymbol : symbol.index < g.symbols.size)
    (hold : old.index < g.symbols.size) (x : SymbolId) :
    (g.declare target symbol).2.symbol x =
      if x = old then { g.symbol old with scope := none, reachable := false }
      else if x = symbol then
        { (g.stamp target symbol).symbol symbol with
          scope := (g.symbol old).scope.or (g.symbol symbol).scope }
      else g.symbol x := by
  have hne := ne_of_verdict_eq_replace hv
  rw [declare_snd, hv]
  simp only [apply, complete, scope_stamp_old hv]
  cases hscope : (g.symbol old).scope with
  | none =>
    simp only [symbol_modifySymbol, size_symbols_stamp, hold, and_true, Option.none_or]
    by_cases hx : x = old
    · subst hx
      simp [symbol_stamp_of_ne hne]
    · by_cases hxs : x = symbol
      · have hkeep : ((g.stamp target symbol).symbol symbol).scope = (g.symbol symbol).scope :=
          symbol_stamp_congr Symbol.scope (fun _ _ => rfl) symbol
        simp [hxs, Ne.symm hne, ← hkeep]
      · simp [hx, hxs, symbol_stamp_of_ne hxs]
  | some p =>
    simp only [symbol_modifySymbol, symbol_modifyScope, size_symbols_modifyScope,
      size_symbols_modifySymbol, size_symbols_stamp, hold, hsymbol, and_true, Option.some_or]
    by_cases hx : x = old
    · subst hx
      simp [hne, symbol_stamp_of_ne hne]
    · by_cases hxs : x = symbol
      · simp [hxs, Ne.symm hne]
      · simp [hx, hxs, symbol_stamp_of_ne hxs]

section Home

variable {p : ScopeId} (hold : (g.symbol old).scope = some p)

include hold

/-- A completing symbol takes over one key of the table that owns the forward declaration. -/
theorem get?_declare_replace (hp : p.index < g.scopes.size) (q : ScopeId) (ns : Namespace)
    (name : String) :
    ((g.declare target symbol).2.scope q).table.get? ns name =
      if q = p ∧ ns = (g.symbol symbol).ns ∧ name = (g.symbol symbol).name
      then some symbol else (g.scope q).table.get? ns name := by
  rw [table_declare_replace hv, hold]
  by_cases hq : q = p
  · simp [hq, hp, Table.get?_replace]
  · simp [hq, Ne.symm hq]

theorem scope_declare_replace (hsymbol : symbol.index < g.symbols.size) (x : SymbolId) :
    ((g.declare target symbol).2.symbol x).scope =
      if x = old then none else if x = symbol then some p else (g.symbol x).scope := by
  rw [symbol_declare_replace hv hsymbol (symbol_lt_size hold), hold]
  split
  · rfl
  · split <;> rfl

end Home

end Replace

end Graph

end Scoping
