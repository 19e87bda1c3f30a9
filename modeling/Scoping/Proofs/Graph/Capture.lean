import Mathlib.Data.Set.Insert
import Scoping.Proofs.Graph.Activity

/-!
# Captured symbols

A search notes the use of a local symbol of an enclosing function on every scope between the use and
the declaration. `Graph.Explored` are the graphs that arise from new scopes, links, declarations and
searches in any order, and `Graph.Captures` says what the notes in such a graph look like: a symbol
that is captured in a scope is local to an enclosing function or block, and captured in all scopes
on the way there.
-/

namespace Scoping

namespace Graph

variable {g g' : Graph}

/-! ### The way from a use to the declaration -/

/-- `o` is the parent of `s`, or the parent of its parent, and so on. -/
def Under (g : Graph) (s o : ScopeId) : Prop :=
  Relation.TransGen (fun a b => (g.scope a).parent = some b) s o

/-- `q` is on the way from `s` through the parents, before `o` and before the first root. -/
def Between (g : Graph) (s o q : ScopeId) : Prop :=
  Relation.ReflTransGen (fun a b => a ≠ o ∧ g.isRoot a = false ∧ (g.scope a).parent = some b) s q ∧
    q ≠ o ∧ g.isRoot q = false

/-- Parents are there before the scopes inside them, and partitions hang from their owners. -/
structure Ordered (g : Graph) : Prop where
  parent_lt : ∀ {p q}, (g.scope q).parent = some p → p.index < q.index
  parent_of_outer : ∀ {p q}, (g.scope q).outer = some p → (g.scope q).parent = some p

theorem Ordered.congr (hg : g.Ordered) (h : ∀ q, (g'.scope q).links = (g.scope q).links) :
    g'.Ordered where
  parent_lt {_ q} hp := hg.parent_lt ((congrArg (·.2.1) (h q)).symm.trans hp)
  parent_of_outer {_ q} hp := (congrArg (·.2.1) (h q)).trans
    (hg.parent_of_outer ((congrArg (·.2.2.2.1) (h q)).symm.trans hp))

variable {s o q : ScopeId} {x : SymbolId}

theorem Under.lt_size (h : g.Under s o) : s.index < g.scopes.size := by
  obtain ⟨p, hparent, -⟩ := Relation.TransGen.head'_iff.mp h
  exact lt_size_of_parent hparent

theorem Ordered.lt_of_under (hg : g.Ordered) (h : g.Under s o) : o.index < s.index := by
  induction h with
  | single hparent => exact hg.parent_lt hparent
  | tail _ hparent ih => exact Nat.lt_trans (hg.parent_lt hparent) ih

/-- Scopes have one parent, so what is above a scope is also above those on the way. -/
theorem Under.of_between (h : g.Under s o) (hq : g.Between s o q) : g.Under q o := by
  obtain ⟨hpath, hne, -⟩ := hq
  have habove : Relation.ReflTransGen (fun a b => (g.scope a).parent = some b) q o := by
    clear hne
    induction hpath with
    | refl => exact h.to_reflTransGen
    | @tail a b _ hstep ih =>
      obtain ⟨hne, -, hparent⟩ := hstep
      rcases ih.cases_head with heq | ⟨p, hp, hrest⟩
      · exact absurd heq hne
      · cases hp.symm.trans hparent
        exact hrest
  rcases Relation.reflTransGen_iff_eq_or_transGen.mp habove with heq | hunder
  · exact absurd heq.symm hne
  · exact hunder

theorem Between.trans {r : ScopeId} (h : g.Between s o q) (h' : g.Between q o r) :
    g.Between s o r :=
  ⟨h.1.trans h'.1, h'.2⟩

theorem under_of_isAncestor (h : g.isAncestor o s = true) : g.Under s o := by
  have hwithin : ∀ (fuel : Nat) (s : ScopeId),
      g.isAncestorWithin o fuel (g.scope s).parent = true → g.Under s o := by
    intro fuel
    induction fuel with
    | zero => exact fun _ h => nomatch h
    | succ fuel ih =>
      intro s h
      cases hparent : (g.scope s).parent with
      | none =>
        rw [hparent] at h
        cases h
      | some p =>
        rw [hparent, isAncestorWithin, Bool.or_eq_true, beq_iff_eq] at h
        rcases h with rfl | h
        · exact .single hparent
        · exact .head hparent (ih p h)
  exact hwithin _ s h

/-- The way starts with `s` and goes on from its parent, unless it ends before `s`. -/
theorem between_iff : g.Between s o q ↔ (s ≠ o ∧ g.isRoot s = false) ∧
    (q = s ∨ ∃ p, (g.scope s).parent = some p ∧ g.Between p o q) := by
  constructor
  · rintro ⟨hpath, hend⟩
    rcases hpath.cases_head with rfl | ⟨p, ⟨hne, hroot, hparent⟩, hrest⟩
    · exact ⟨hend, .inl rfl⟩
    · exact ⟨⟨hne, hroot⟩, .inr ⟨p, hparent, hrest, hend⟩⟩
  · rintro ⟨hs, rfl | ⟨p, hparent, hrest, hend⟩⟩
    · exact ⟨.refl, hs⟩
    · exact ⟨.head ⟨hs.1, hs.2, hparent⟩ hrest, hend⟩

/-- The scopes on which a use is noted are those on the way, if the walk is long enough. -/
theorem mem_captureRange_iff (hg : g.Ordered) (o q : ScopeId) {fuel : Nat}
    (hs : s.index < fuel) : q ∈ g.captureRange o fuel s ↔ g.Between s o q := by
  induction fuel generalizing s with
  | zero => exact absurd hs (Nat.not_lt_zero _)
  | succ fuel ih =>
    rw [captureRange, between_iff]
    split
    next hstop =>
      simp only [Bool.or_eq_true, decide_eq_true_eq] at hstop
      refine iff_of_false List.not_mem_nil fun hbetween => ?_
      obtain ⟨⟨hne, hroot⟩, -⟩ := hbetween
      rcases hstop with heq | heq
      · exact hne heq
      · cases hroot.symm.trans heq
    next hgo =>
      have hgo : s ≠ o ∧ g.isRoot s = false := by simpa using hgo
      rw [List.mem_cons, and_iff_right hgo]
      refine or_congr_right ?_
      cases hparent : (g.scope s).parent with
      | none => simp
      | some p =>
        have hp : p.index < fuel := by
          have := hg.parent_lt hparent
          omega
        simpa using ih hp

/-! ### What the notes look like -/

/-- The ways to build a scope graph and to search it. -/
inductive Operation where
  | newScope (kind : ScopeKind) (parent : Option ScopeId)
  | newMemberScope (host : SymbolId) (parent : ScopeId)
  | setSuper (scope : ScopeId) (super : Option ScopeId)
  | setDelegate (scope : ScopeId) (delegate : Option ScopeId)
  | alloc (symbol : Symbol)
  | declare (target : ScopeId) (symbol : SymbolId)
  | lookup (start : ScopeId) (name : String) (ns : Option Namespace)
  | lookupPath (start : ScopeId) (path : QualName) (ns : Namespace)

namespace Operation

/-- The graph after an operation. -/
def run (g : Graph) : Operation → Graph
  | newScope kind parent => (g.newScope kind parent).2
  | newMemberScope host parent => (g.newMemberScope host parent).2
  | setSuper scope super => g.modifyMember scope fun info => { info with super }
  | setDelegate scope delegate => g.modifyScope scope fun s => { s with delegate }
  | alloc symbol => (g.alloc symbol).2
  | declare target symbol => (g.declare target symbol).2
  | lookup start name ns => (g.lookup start name ns).2
  | lookupPath start path ns => (g.lookupPath start path ns).2

/-- The answer of a search. -/
def answer? (g : Graph) : Operation → Option Lookup
  | lookup start name ns => some (g.lookup start name ns).1
  | lookupPath start path ns => some (g.lookupPath start path ns).1
  | _ => none

/-- Scopes are created inside scopes that are there, and each symbol is declared at most once: it
has to be among those that were not declared yet. -/
def Allowed (pending : Set SymbolId) (g : Graph) : Operation → Prop
  | newScope _ parent => ∀ p ∈ parent, p.index < g.scopes.size
  | newMemberScope _ parent => parent.index < g.scopes.size
  | alloc symbol => symbol.scope = none ∧ symbol.captured = false
  | declare target symbol => target.index < g.scopes.size ∧ symbol ∈ pending
  | _ => True

/-- The symbols that were not declared yet, after an operation. -/
def pending (pending : Set SymbolId) (g : Graph) : Operation → Set SymbolId
  | alloc symbol => insert (g.alloc symbol).1 pending
  | declare _ symbol => pending \ {symbol}
  | _ => pending

end Operation

/-- The graphs that operations lead to, with the symbols that were not declared yet. -/
inductive Explored : Set SymbolId → Graph → Prop where
  | initial : Explored ∅ .initial
  | step {pending : Set SymbolId} {g : Graph} (op : Operation) : op.Allowed pending g →
    Explored pending g → Explored (op.pending pending g) (op.run g)

/-- The notes about uses agree with the scopes of the captured symbols. -/
structure Captures (pending : Set SymbolId) (g : Graph) : Prop where
  ordered : g.Ordered
  of_mem : ∀ x o s, (g.symbol x).scope = some o → x ∈ (g.scope s).captured →
    ((g.scope o).kind = .function ∨ (g.scope o).kind = .block) ∧ g.Under s o ∧
      ∀ q, g.Between s o q → x ∈ (g.scope q).captured
  captured_iff : ∀ x, (g.symbol x).captured = true ↔ ∃ s, x ∈ (g.scope s).captured
  pending : ∀ {x}, x ∈ pending → x.index < g.symbols.size ∧ (g.symbol x).scope = none ∧
    ∀ s, x ∉ (g.scope s).captured

/-! ### Growth -/

theorem Extends.isRoot_eq (h : g.Extends g') (hg : g.Ordered)
    (hq : q.index < g.scopes.size) : g'.isRoot q = g.isRoot q := by
  have howner : (g.owner q).index < g.scopes.size := by
    cases houter : (g.scope q).outer with
    | none => rwa [owner_of_outer_eq_none houter]
    | some p =>
      rw [owner_of_outer_eq_some houter]
      exact Nat.lt_trans (hg.parent_lt (hg.parent_of_outer houter)) hq
  rw [isRoot, isRoot, h.owner_eq hq, h.kind howner]

theorem Extends.under (h : g.Extends g') (hs : g.Under s o) : g'.Under s o := by
  refine Relation.TransGen.mono (fun a b hab => ?_) _ _ hs
  rw [h.parent (lt_size_of_parent hab), hab]

theorem Extends.between (h : g.Extends g') (hg : g.Ordered) (hs : s.index < g.scopes.size)
    (hq : g'.Between s o q) : g.Between s o q := by
  obtain ⟨hpath, hne, hroot⟩ := hq
  have hold : Relation.ReflTransGen
      (fun a b => a ≠ o ∧ g.isRoot a = false ∧ (g.scope a).parent = some b) s q ∧
      q.index < g.scopes.size := by
    clear hne hroot
    induction hpath with
    | refl => exact ⟨.refl, hs⟩
    | @tail a b _ hstep ih =>
      obtain ⟨hpath, ha⟩ := ih
      obtain ⟨hne, hroot, hparent⟩ := hstep
      rw [h.isRoot_eq hg ha] at hroot
      rw [h.parent ha] at hparent
      exact ⟨hpath.tail ⟨hne, hroot, hparent⟩, Nat.lt_trans (hg.parent_lt hparent) ha⟩
  exact ⟨hold.1, hne, by rwa [h.isRoot_eq hg hold.2] at hroot⟩

theorem lt_size_of_mem_captured (h : x ∈ (g.scope s).captured) : s.index < g.scopes.size :=
  scope_lt_size fun hb => by simp [hb, Scope.blank] at h

/-- A declaration moves no symbol but its own. -/
theorem scope_of_declare {target : ScopeId} {symbol : SymbolId}
    (h : ((g.declare target symbol).2.symbol x).scope = some o) :
    x = symbol ∨ (g.symbol x).scope = some o := by
  by_cases hx : x = symbol
  · exact .inl hx
  refine .inr (declare_induction (P := fun g' => (g'.symbol x).scope = some o →
    (g.symbol x).scope = some o) ?_ (fun _ _ _ _ ih => ih) (fun _ _ ih => ?_)
    (fun _ _ ih hscope => ?_) h)
  · rw [symbol_stamp_of_ne hx]
    exact id
  · rwa [symbol_modifySymbol_of_ne hx]
  · -- the symbol that is completed loses its scope
    rw [symbol_modifySymbol] at hscope
    split at hscope
    · cases hscope
    · exact ih hscope

namespace Captures

variable {pending pending' : Set SymbolId}

theorem initial : Captures ∅ .initial := by
  have hnone : ∀ x s, x ∉ (Graph.initial.scope s).captured := by
    intro x s
    obtain ⟨kind, active, hs⟩ := scope_initial s
    simp [hs]
  refine ⟨⟨fun {p q} h => ?_, fun {p q} h => ?_⟩, fun _ _ _ _ h => absurd h (hnone _ _),
    fun x => ?_, fun h => nomatch h⟩
  · obtain ⟨kind, active, hq⟩ := scope_initial q
    simp [hq] at h
  · obtain ⟨kind, active, hq⟩ := scope_initial q
    simp [hq] at h
  · have hflag : (Graph.initial.symbol x).captured = false := rfl
    simp [hflag, hnone]

variable (h : Captures pending g)

include h

/-- Edits that spare the notes keep them true: no captured symbol moves. -/
theorem extend (hext : g.Extends g') (hordered : g'.Ordered)
    (hcaptured : ∀ q, (g'.scope q).captured = (g.scope q).captured)
    (hflag : ∀ x, (g'.symbol x).captured = (g.symbol x).captured)
    (hscope : ∀ {x o}, (g'.symbol x).scope = some o → (g.symbol x).scope = some o ∨ x ∈ pending)
    (hpending : ∀ {x}, x ∈ pending' → x.index < g'.symbols.size ∧ (g'.symbol x).scope = none ∧
      ∀ s, x ∉ (g.scope s).captured) : Captures pending' g' := by
  refine ⟨hordered, fun x o s hx hs => ?_, fun x => ?_, fun hx => ?_⟩
  · rw [hcaptured] at hs
    have hx := (hscope hx).resolve_right fun hx => (h.pending hx).2.2 s hs
    obtain ⟨hkind, hunder, hway⟩ := h.of_mem x o s hx hs
    refine ⟨?_, hext.under hunder, fun q hq => ?_⟩
    · rwa [hext.kind (Nat.lt_trans (h.ordered.lt_of_under hunder) hunder.lt_size)]
    · rw [hcaptured]
      exact hway q (hext.between h.ordered (lt_size_of_mem_captured hs) hq)
  · simp only [hflag, hcaptured, h.captured_iff]
  · simpa only [hcaptured] using hpending hx

/-- Edits of scopes that spare links, notes and symbols. -/
theorem amend (hsize : g'.scopes.size = g.scopes.size)
    (hscope : ∀ {β : Type} (π : Scope → β), (∀ s delegate member,
      π { s with delegate, member } = π s) → ∀ q, π (g'.scope q) = π (g.scope q))
    (hsymbols : g'.symbols = g.symbols) : Captures pending g' := by
  have hsymbol : ∀ x, g'.symbol x = g.symbol x := by
    intro x
    rw [symbol, symbol, hsymbols]
  have hlinks := hscope Scope.links fun _ _ _ => rfl
  refine h.extend (.of_eq hsize hlinks) (h.ordered.congr hlinks)
    (hscope Scope.captured fun _ _ _ => rfl) (fun x => by rw [hsymbol]) (fun {x o} hx => ?_)
    fun {x} hx => ?_
  · rw [hsymbol] at hx
    exact .inl hx
  · rw [hsymbol, hsymbols]
    exact h.pending hx

theorem modifyMember (p : ScopeId) (f : MemberInfo → MemberInfo) :
    Captures pending (g.modifyMember p f) := by
  refine h.amend (size_scopes_modifyScope ..) (fun π hπ q => ?_) rfl
  exact scope_modifyScope_congr π _ _ fun s => hπ s s.delegate _

theorem setDelegate (p : ScopeId) (delegate : Option ScopeId) :
    Captures pending (g.modifyScope p fun s => { s with delegate }) := by
  refine h.amend (by simp) (fun π hπ q => ?_) rfl
  exact scope_modifyScope_congr π _ _ fun s => hπ s _ s.member

/-- A new scope has captured nothing. -/
theorem newScope (kind : ScopeKind) {parent : Option ScopeId}
    (hparent : ∀ p ∈ parent, p.index < g.scopes.size) :
    Captures pending (g.newScope kind parent).2 := by
  refine h.extend (.newScope kind parent) ⟨fun {p q} hp => ?_, fun {p q} hp => ?_⟩
    (scope_newScope_congr g Scope.captured (fun _ _ _ _ _ => rfl) kind parent)
    (fun x => by rw [symbol_newScope]) (fun {x o} hx => .inl ?_) fun {x} hx => ?_
  · rw [scope_newScope] at hp
    split at hp
    next hq =>
      have := hparent p hp
      omega
    next =>
      split at hp
      next hq =>
        cases hp
        exact Nat.lt_of_lt_of_eq (Nat.lt_succ_self _) hq.2.symm
      next => exact h.ordered.parent_lt hp
  · rw [scope_newScope] at hp ⊢
    split at hp
    next => cases hp
    next hq =>
      rw [if_neg hq]
      split at hp
      next hq =>
        rw [if_pos hq]
        exact hp
      next hq =>
        rw [if_neg hq]
        exact h.ordered.parent_of_outer hp
  · rwa [symbol_newScope] at hx
  · rw [symbol_newScope, symbols_newScope]
    exact h.pending hx

theorem newMemberScope (host : SymbolId) {parent : ScopeId}
    (hparent : parent.index < g.scopes.size) :
    Captures pending (g.newMemberScope host parent).2 := by
  have hnew : Captures pending (g.newScope .member (some parent)).2 :=
    h.newScope .member fun p hp => by
      cases hp
      exact hparent
  refine hnew.amend (size_scopes_modifyScope ..) (fun π hπ q => ?_) rfl
  exact scope_modifyScope_congr π _ _ fun s => hπ s s.delegate _

/-- A symbol that is captured is in the arena. -/
theorem lt_size {x : SymbolId} {s : ScopeId} (hs : x ∈ (g.scope s).captured) :
    x.index < g.symbols.size :=
  lt_size_of (P := (·.captured = true)) ((h.captured_iff x).mpr ⟨s, hs⟩) nofun

theorem alloc {s : Symbol} (hs : s.scope = none) (hflag : s.captured = false) :
    Captures (insert (g.alloc s).1 pending) (g.alloc s).2 := by
  refine h.extend (.of_eq rfl fun _ => rfl) (h.ordered.congr fun _ => rfl) (fun _ => rfl)
    (fun x => ?_) (fun {x o} hx => .inl ?_) fun {x} hx => ?_
  · rw [symbol_alloc]
    split
    next hx =>
      rw [hflag, symbol_of_size_le (Nat.le_of_eq hx.symm)]
      rfl
    next => rfl
  · rw [symbol_alloc] at hx
    split at hx
    · rw [hs] at hx
      cases hx
    · exact hx
  · rw [size_symbols_alloc, symbol_alloc]
    rcases hx with rfl | hx
    · refine ⟨by simp, by simpa using hs, fun q hq => ?_⟩
      have hlt := h.lt_size hq
      simp at hlt
    · obtain ⟨hlt, hnone, hfree⟩ := h.pending hx
      exact ⟨by omega, by rwa [if_neg (by omega)], hfree⟩

theorem declare {symbol : SymbolId} (target : ScopeId) (hsymbol : symbol ∈ pending) :
    Captures (pending \ {symbol}) (g.declare target symbol).2 := by
  have hlinks : ∀ q, ((g.declare target symbol).2.scope q).links = (g.scope q).links :=
    scope_declare_congr Scope.links fun _ _ _ _ => rfl
  refine h.extend (.of_eq size_scopes_declare hlinks) (h.ordered.congr hlinks)
    (scope_declare_congr Scope.captured fun _ _ _ _ => rfl)
    (symbol_declare_congr Symbol.captured fun _ _ _ _ => rfl) (fun {x o} hx => ?_)
    fun {x} hx => ?_
  · rcases scope_of_declare hx with rfl | hx
    · exact .inr hsymbol
    · exact .inl hx
  · obtain ⟨hlt, hnone, hfree⟩ := h.pending hx.1
    refine ⟨by rwa [size_symbols_declare], Option.eq_none_iff_forall_ne_some.mpr fun o ho => ?_,
      hfree⟩
    rcases scope_of_declare ho with heq | ho
    · exact hx.2 heq
    · rw [hnone] at ho
      cases ho

end Captures

/-! ### Notes of a search -/

/-- A use adds the symbol to the scopes in the range and to no other. -/
theorem mem_captured_foldl {y : SymbolId} : ∀ (range : List ScopeId) (g : Graph),
    (∀ p ∈ range, p.index < g.scopes.size) →
    (x ∈ ((range.foldl (·.markCaptured y) g).scope q).captured ↔
      x ∈ (g.scope q).captured ∨ x = y ∧ q ∈ range)
  | [], g, _ => by simp
  | p :: rest, g, hrange => by
    have hp : p.index < g.scopes.size := hrange p List.mem_cons_self
    have hmark : x ∈ ((g.markCaptured y p).scope q).captured ↔
        x ∈ (g.scope q).captured ∨ x = y ∧ q = p := by
      by_cases hq : q = p
      · subst hq
        rw [markCaptured, scope_modifyScope_self hp]
        split
        next hmem =>
          refine ⟨.inl, ?_⟩
          rintro (hx | ⟨rfl, -⟩)
          · exact hx
          · exact hmem
        next => simp
      · rw [markCaptured, scope_modifyScope_of_ne hq]
        simp [hq]
    rw [List.foldl_cons, mem_captured_foldl rest, hmark, List.mem_cons]
    · grind
    · intro p' hp'
      rw [markCaptured, size_scopes_modifyScope]
      exact hrange p' (List.mem_cons_of_mem _ hp')

theorem symbols_foldl_markCaptured (x : SymbolId) (range : List ScopeId) (g : Graph) :
    (range.foldl (·.markCaptured x) g).symbols = g.symbols := by
  induction range generalizing g with
  | nil => rfl
  | cons p rest ih => exact ih _

theorem symbol_capture_of_ne {y : SymbolId} (h : y ≠ x) (start : ScopeId) :
    (g.capture start x).symbol y = g.symbol y := by
  unfold capture
  split
  · rfl
  · dsimp only
    split
    · split
      · rfl
      · rw [symbol_modifySymbol_of_ne h, symbol, symbols_foldl_markCaptured, symbol]
    · rfl

/-- What one use notes. -/
inductive Notes (g : Graph) (start : ScopeId) (x : SymbolId) (g' : Graph) : Prop where
  | nothing : g' = g → Notes g start x g'
  /-- The symbol is local to an enclosing function, and the scopes on the way note its use. -/
  | way (o : ScopeId) : (g.symbol x).scope = some o →
    (g.scope o).kind = .function ∨ (g.scope o).kind = .block → g.Under start o →
    g.Between start o start →
    (∀ y q, y ∈ (g'.scope q).captured ↔ y ∈ (g.scope q).captured ∨ y = x ∧ g.Between start o q) →
    (∀ y, (g'.symbol y).captured = true ↔ y = x ∨ (g.symbol y).captured = true) →
    Notes g start x g'

/-- A use notes nothing, or it notes the symbol in all scopes on the way to its own. -/
theorem notes_capture (hg : g.Ordered) (start : ScopeId) (x : SymbolId) :
    g.Notes start x (g.capture start x) := by
  unfold capture
  split
  · exact .nothing rfl
  next o ho =>
    dsimp only
    split
    next hlocal =>
      simp only [Bool.and_eq_true, Bool.or_eq_true, beq_iff_eq] at hlocal
      obtain ⟨⟨hkind, -⟩, hancestor⟩ := hlocal
      have hunder := under_of_isAncestor hancestor
      have hmem : ∀ q, q ∈ g.captureRange o g.scopes.size start ↔ g.Between start o q :=
        fun q => mem_captureRange_iff hg o q hunder.lt_size
      split
      · exact .nothing rfl
      next hrange =>
        obtain ⟨q, hq⟩ := List.exists_mem_of_ne_nil _ (by simpa using hrange)
        have hstart : g.Between start o start :=
          between_iff.mpr ⟨(between_iff.mp ((hmem q).mp hq)).1, .inl rfl⟩
        have hlt : ∀ p ∈ g.captureRange o g.scopes.size start, p.index < g.scopes.size :=
          fun p hp => (hunder.of_between ((hmem p).mp hp)).lt_size
        refine .way o ho hkind hunder hstart (fun y q => ?_) fun y => ?_
        · rw [scope_modifySymbol, mem_captured_foldl _ g hlt, hmem]
        · by_cases hy : y = x
          · subst hy
            have hlt : y.index < ((g.captureRange o g.scopes.size start).foldl
                (·.markCaptured y) g).symbols.size := by
              rw [symbols_foldl_markCaptured]
              exact symbol_lt_size ho
            simp [symbol_modifySymbol_self hlt]
          · rw [symbol_modifySymbol_of_ne hy, symbol, symbols_foldl_markCaptured, ← symbol]
            simp [hy]
    · exact .nothing rfl

namespace Captures

variable {pending : Set SymbolId} (h : Captures pending g)

include h

/-- A use notes a capture in every scope between it and the scope of the symbol, so that the notes
agree with the scopes. -/
theorem capture (start : ScopeId) (y : SymbolId) : Captures pending (g.capture start y) := by
  obtain ⟨hscope, hsymbol⟩ := capture_congr (g := g) start y
  rcases notes_capture h.ordered start y with hsame | ⟨o, ho, hkind, hunder, hstart, hmem, hflag⟩
  · rwa [hsame]
  have hparent : ∀ q, ((g.capture start y).scope q).parent = (g.scope q).parent :=
    hscope Scope.parent fun _ _ => rfl
  have houter : ∀ q, ((g.capture start y).scope q).outer = (g.scope q).outer :=
    hscope Scope.outer fun _ _ => rfl
  have hkinds : ∀ q, ((g.capture start y).scope q).kind = (g.scope q).kind :=
    hscope Scope.kind fun _ _ => rfl
  have hplace : ∀ x, ((g.capture start y).symbol x).scope = (g.symbol x).scope :=
    hsymbol Symbol.scope fun _ _ => rfl
  have hroot : ∀ q, (g.capture start y).isRoot q = g.isRoot q := by
    intro q
    rw [isRoot, isRoot, owner, owner, houter, hkinds]
  have hunders : ∀ {s o}, (g.capture start y).Under s o ↔ g.Under s o := by
    simp only [Under, hparent, implies_true]
  have hbetween : ∀ {s o q}, (g.capture start y).Between s o q ↔ g.Between s o q := by
    simp only [Between, hparent, hroot, implies_true]
  refine ⟨h.ordered.congr (hscope Scope.links fun _ _ => rfl), fun x p s hx hs => ?_, fun x => ?_,
    fun {x} hx => ?_⟩
  · rw [hplace] at hx
    simp only [hkinds, hunders, hbetween, hmem]
    rcases (hmem x s).mp hs with hold | ⟨rfl, hway⟩
    · obtain ⟨hkind, hunder, hway⟩ := h.of_mem x p s hx hold
      exact ⟨hkind, hunder, fun q hq => .inl (hway q hq)⟩
    · cases ho.symm.trans hx
      exact ⟨hkind, hunder.of_between hway, fun q hq => .inr ⟨rfl, hway.trans hq⟩⟩
  · rw [hflag, h.captured_iff]
    constructor
    · rintro (rfl | ⟨s, hs⟩)
      · exact ⟨start, (hmem _ _).mpr (.inr ⟨rfl, hstart⟩)⟩
      · exact ⟨s, (hmem _ _).mpr (.inl hs)⟩
    · rintro ⟨s, hs⟩
      rcases (hmem x s).mp hs with hs | ⟨rfl, -⟩
      · exact .inr ⟨s, hs⟩
      · exact .inl rfl
  · obtain ⟨hlt, hnone, hfree⟩ := h.pending hx
    have hne : x ≠ y := by
      rintro rfl
      rw [hnone] at ho
      cases ho
    refine ⟨?_, by rw [hplace, hnone], fun s hs => ?_⟩
    · rwa [size_symbols_congr (unmarked_capture start y)]
    · rcases (hmem x s).mp hs with hs | ⟨heq, -⟩
      · exact hfree s hs
      · exact hne heq

theorem lookup (start : ScopeId) (name : String) (ns : Option Namespace) :
    Captures pending (g.lookup start name ns).2 := by
  unfold Graph.lookup
  dsimp only
  split
  · exact h.capture start _
  · exact h

theorem lookupPath (start : ScopeId) (path : QualName) (ns : Namespace) :
    Captures pending (g.lookupPath start path ns).2 := by
  rcases lookupPath_snd g start path ns with heq | ⟨x, heq⟩
  · rwa [heq]
  · rw [heq]
    exact h.capture start x

end Captures

/-- What one operation does to the notes. -/
theorem Captures.run {pending : Set SymbolId} (h : Captures pending g) {op : Operation}
    (hop : op.Allowed pending g) : Captures (op.pending pending g) (op.run g) := by
  cases op with
  | newScope kind parent => exact h.newScope kind hop
  | newMemberScope host parent => exact h.newMemberScope host hop
  | setSuper scope super => exact h.modifyMember scope _
  | setDelegate scope delegate => exact h.setDelegate scope delegate
  | alloc symbol => exact h.alloc hop.1 hop.2
  | declare target symbol => exact h.declare target hop.2
  | lookup start name ns => exact h.lookup start name ns
  | lookupPath start path ns => exact h.lookupPath start path ns

/-- The notes are true after every sequence of operations. -/
theorem Explored.captures {pending : Set SymbolId} (h : Explored pending g) :
    Captures pending g := by
  induction h with
  | initial => exact .initial
  | step op hop _ ih => exact ih.run hop

/-! ### Operations without notes -/

theorem Operation.unmarked_run (h : g'.unmarked = g.unmarked) (op : Operation) :
    (op.run g').unmarked = (op.run g).unmarked := by
  have hveiled : g'.veiled .unmarking = g.veiled .unmarking := h
  cases op with
  | newScope kind parent =>
    exact veiled_snd_congr (f := (·.newScope kind parent)) hveiled fun _ => veiled_newScope ..
  | newMemberScope host parent =>
    exact veiled_snd_congr (f := (·.newMemberScope host parent)) hveiled fun _ =>
      veiled_newMemberScope ..
  | setSuper scope super | setDelegate scope delegate =>
    exact veiled_congr (f := (·.modifyScope scope _)) hveiled fun _ =>
      veiled_modifyScope scope _ fun _ => rfl
  | alloc symbol =>
    have halloc : ∀ g : Graph, (g.alloc symbol).2.unmarked =
        ((g.veiled .unmarking).alloc (Veil.unmarking.symbol symbol)).2 :=
      fun g => by rw [veiled_alloc]; rfl
    rw [run, run, halloc, hveiled, halloc]
  | declare target symbol =>
    exact veiled_snd_congr (f := (·.declare target symbol)) hveiled fun _ => veiled_declare ..
  | lookup start name ns => simp only [run, unmarked_lookup, h]
  | lookupPath start path ns => simp only [run, unmarked_lookupPath, h]

theorem Operation.answer?_congr (h : g'.unmarked = g.unmarked) (op : Operation) :
    op.answer? g' = op.answer? g := by
  cases op with
  | lookup start name ns => simp only [answer?, lookup_fst, peek_congr h]
  | lookupPath start path ns => simp only [answer?, lookupPath_congr h]
  | _ => rfl

theorem unmarked_foldl_run (h : g'.unmarked = g.unmarked) (ops : List Operation) :
    (ops.foldl Operation.run g').unmarked = (ops.foldl Operation.run g).unmarked := by
  induction ops generalizing g g' with
  | nil => exact h
  | cons op rest ih => exact ih (op.unmarked_run h)

/-! ### The marked symbol -/

theorem symbol_lookup_of_ne {start : ScopeId} {name : String} {ns : Option Namespace}
    (hx : (g.peek start name ns).found? ≠ some x) :
    (g.lookup start name ns).2.symbol x = g.symbol x := by
  unfold lookup
  dsimp only
  split
  next y hy =>
    refine symbol_capture_of_ne (fun heq => hx ?_) start
    rw [hy, heq]
    rfl
  next => rfl

/-- A captured symbol is local to a function or block around the use, and captured on the whole way
there, as far as the first root. It says itself that it is captured. A search answers as `peek`
does, and whatever is done next, every later answer is the one that would have been given without
it: all that it changes are the notes, and the only symbol that it marks is the one it found. -/
theorem Explored.capture_closed {pending : Set SymbolId} (h : Explored pending g) :
    (∀ x o s, (g.symbol x).scope = some o → x ∈ (g.scope s).captured →
      ((g.scope o).kind = .function ∨ (g.scope o).kind = .block) ∧ g.Under s o ∧
        ∀ q, g.Between s o q → x ∈ (g.scope q).captured) ∧
    (∀ x, (g.symbol x).captured = true ↔ ∃ s, x ∈ (g.scope s).captured) ∧
    (∀ start name ns, (g.lookup start name ns).1 = g.peek start name ns ∧
      (g.lookup start name ns).2.unmarked = g.unmarked ∧
      (∀ x, (g.peek start name ns).found? ≠ some x →
        (g.lookup start name ns).2.symbol x = g.symbol x) ∧
      ∀ (ops : List Operation) (op : Operation),
        op.answer? (ops.foldl Operation.run (g.lookup start name ns).2) =
          op.answer? (ops.foldl Operation.run g)) ∧
    ∀ start path ns, (g.lookupPath start path ns).2.unmarked = g.unmarked ∧
      (∃ ns', ∀ x, (g.peek start path.last ns').found? ≠ some x →
        (g.lookupPath start path ns).2.symbol x = g.symbol x) ∧
      ∀ (ops : List Operation) (op : Operation),
        op.answer? (ops.foldl Operation.run (g.lookupPath start path ns).2) =
          op.answer? (ops.foldl Operation.run g) := by
  have hnotes := h.captures
  refine ⟨hnotes.of_mem, hnotes.captured_iff, fun start name ns => ?_, fun start path ns => ?_⟩
  · have hsame := unmarked_lookup (g := g) start name ns
    exact ⟨lookup_fst .., hsame, fun x hx => symbol_lookup_of_ne hx, fun ops op =>
      op.answer?_congr (unmarked_foldl_run hsame ops)⟩
  · have hsame := unmarked_lookupPath (g := g) start path ns
    refine ⟨hsame, ?_, fun ops op => op.answer?_congr (unmarked_foldl_run hsame ops)⟩
    rcases lookupPath_snd_eq (g := g) start path ns with heq | ⟨ns', heq⟩
    · exact ⟨none, fun x _ => by rw [heq]⟩
    · refine ⟨ns', fun x hx => ?_⟩
      rw [heq]
      exact symbol_lookup_of_ne hx

/-- A variable of a function that is used in a block and in a function inside that block. -/
theorem capture_closed_two_levels : ∃ pending g, Explored pending g ∧
    (g.symbol ⟨0⟩).scope = some ⟨3⟩ ∧ ⟨0⟩ ∈ (g.scope ⟨5⟩).captured ∧ g.Under ⟨5⟩ ⟨3⟩ ∧
    ∀ q, g.Between ⟨5⟩ ⟨3⟩ q → ⟨0⟩ ∈ (g.scope q).captured := by
  have hnew : ∀ {pending g} (kind : ScopeKind) {p : ScopeId}, p.index < g.scopes.size →
      Explored pending g → Explored pending (g.newScope kind (some p)).2 := by
    intro pending g kind p hp
    refine .step (.newScope kind (some p)) fun q hq => ?_
    cases hq
    exact hp
  have hscopes : Explored _ _ := hnew (p := ⟨4⟩) .function (by decide +kernel) <|
    hnew (p := ⟨3⟩) .block (by decide +kernel) <| hnew (p := ⟨1⟩) .function (by decide +kernel) <|
    hnew (p := global) .unit (by decide +kernel) .initial
  have hdeclared : Explored _ _ := .step (.declare ⟨3⟩ ⟨0⟩) ⟨by decide +kernel, .inl rfl⟩ <|
    .step (.alloc (.mkDetached "x" {} {} (.var {}))) ⟨rfl, rfl⟩ hscopes
  have hused : Explored _ _ := .step (.lookup ⟨5⟩ "x" (some .value)) trivial hdeclared
  refine ⟨_, _, hused, by decide +kernel, by decide +kernel, ?_⟩
  exact (hused.capture_closed.1 ⟨0⟩ ⟨3⟩ ⟨5⟩ (by decide +kernel) (by decide +kernel)).2

end Graph

end Scoping
