import Scoping.Proofs.Session.Balance
import Scoping.Proofs.Session.Instant

/-!
# What references are bound to

An object is only made of a class that is not abstract, and this does not change in later units
(`Session.new_of_canGenerate`). The keyword `this` is bound in a class only, and in static functions
only where another function stands in between (`Session.this_placed`).
-/

namespace Scoping.Session

open Analysis

variable {config : Config} {reducer : Reducer} {loader : Loader} {s s' s'' : Session} {t t' : Tree}
  {r : UnitReport} {id : NodeId} {node : Node} {x : SymbolId}

/-! ### New objects -/

/-- If `this` is bound anywhere in a valid tree, also in a copy, it is bound to the class in which
it stands, and the innermost function around it there that is not an expression is not static,
unless the tree came with the node bound already. The notes that the tree comes with, if there are
any, must be handles of the session. -/
theorem this_placed (hs : Continues (startWith config reducer loader) s)
    (ht : t.validate = .ok ()) (hadmits : s.Admits t) (hbacked : (s.opening t).Backed)
    (h : s.analyze t = .ok (r, t', s')) (hnode : t'.node? id = some node)
    (hthis : node.kind = .this) (hx : node.note.symbol = some x) :
    t.noted? (·.symbol) id = some x ∨ ∃ functions, t'.Placed s'.graph (some x) functions id ∧
      ∀ f, s'.graph.named? functions = some f → (s'.graph.symbol f).flags.isStatic = false := by
  have hbalanced := balanced_of_continues hs
  have hreaches : Reaches (startWith config reducer loader) s :=
    Relation.ReflTransGen.mono (fun _ _ ⟨t, r, t', _, h⟩ => ⟨t, r, t', h⟩) _ _ hs
  obtain ⟨unit, a, declared, resolved, bound, hpassed, -, rfl, hgraph⟩ :=
    exists_passed_of_analyze hbalanced ht hadmits h
  have hbound := hpassed.suited (startable_opening hbalanced ht hadmits) id node x hnode
    (hthis ▸ rfl) hx
  rw [hthis] at hbound
  rw [hgraph]
  exact hbound.imp_right fun hbound =>
    hbound ⟨hbacked, (moment_graph s).resident hreaches⟩

/-- A static function of a class with a function inside, in which `this` stands. -/
def thisInInner : Tree :=
  { file := "a.phs"
    nodes := #[{ kind := .this }, { kind := .exprStmt ⟨0⟩ }, { kind := .block [⟨1⟩] },
      { kind := .fnDecl { name := some "g", body := some ⟨2⟩ } }, { kind := .block [⟨3⟩] },
      { kind := .fnDecl { name := some "m", mods := [.static], body := some ⟨4⟩ } },
      { kind := .classDecl { name := "C", members := [⟨5⟩] } }, { kind := .unit [⟨6⟩] }]
    root := ⟨7⟩ }

theorem backed_opening_of_all
    (h : t.nodes.toList.all (fun node => node.note.symbol.isNone) = true) :
    (s.opening t).Backed := by
  intro id node hnode _ x hx
  have hnone := List.all_eq_true.mp h node (Array.mem_toList_iff.mpr (Array.mem_of_getElem? hnode))
  rw [hx] at hnone
  cases hnone

/-- The node `this` is bound there, so that it stands in an instance function of the class. -/
theorem this_placed_thisInInner : ∃ r t' s' node x,
    (start {}).analyze thisInInner = .ok (r, t', s') ∧ t'.node? ⟨0⟩ = some node ∧
      node.kind = .this ∧ node.note.symbol = some x ∧
      ∃ functions, t'.Placed s'.graph (some x) functions ⟨0⟩ ∧
        ∀ f, s'.graph.named? functions = some f →
          (s'.graph.symbol f).flags.isStatic = false := by
  have hend : (start {}).yields thisInInner (fun _ t' _ => (t'.node? ⟨0⟩).any fun node =>
      decide (node.kind = .this) && node.note.symbol.isSome) = true := by decide +kernel
  obtain ⟨r, t', s', h, hr⟩ := exists_of_yields hend
  obtain ⟨node, hnode, hbound⟩ := (Option.any_eq_true _ _).mp hr
  rw [Bool.and_eq_true, decide_eq_true_iff] at hbound
  obtain ⟨x, hx⟩ := Option.isSome_iff_exists.mp hbound.2
  have hs : Continues (startWith {} Reduce.node (.counting [])) (start {}) := .refl
  exact ⟨r, t', s', node, x, h, hnode, hbound.1, hx, (this_placed hs rfl
    (admits_of_all (by decide)) (backed_opening_of_all (by decide)) h hnode hbound.1
      hx).resolve_left nofun⟩

/-- The node `this` is bound there without an error, in the class, in the inner function, which is
not static, and so in the static one. -/
theorem this_in_static_thisInInner : ∃ r t' s' node,
    (start {}).analyze thisInInner = .ok (r, t', s') ∧ r.canGenerate = true ∧
      t'.node? ⟨0⟩ = some node ∧ node.kind = .this ∧ node.note.symbol = some ⟨0⟩ ∧
      t'.Placed s'.graph (some ⟨0⟩) [⟨2⟩, ⟨1⟩] ⟨0⟩ ∧
      (s'.graph.symbol ⟨1⟩).flags.isStatic = true := by
  have hend : (start {}).yields thisInInner (fun r t' s' => decide (r.canGenerate = true ∧
      t'.root = ⟨7⟩ ∧ t'.nodes.toList.map (fun node => (node.kind, node.note.symbol)) =
        (thisInInner.nodes.toList.map (·.kind)).zip
          [some ⟨0⟩, none, none, some ⟨2⟩, none, some ⟨1⟩, some ⟨0⟩, none] ∧
      2 < s'.graph.symbols.size ∧ (s'.graph.symbol ⟨1⟩).flags.isStatic = true)) = true := by
    decide +kernel
  obtain ⟨r, t', s', h, hr⟩ := exists_of_yields hend
  obtain ⟨hclean, hroot, hnodes, hsize, hstatic⟩ := of_decide_eq_true hr
  have hat : ∀ i kind x, ((thisInInner.nodes.toList.map (·.kind)).zip
        [some ⟨0⟩, none, none, some ⟨2⟩, none, some ⟨1⟩, some ⟨0⟩, none])[i]? = some (kind, x) →
      ∃ node, t'.node? ⟨i⟩ = some node ∧ node.kind = kind ∧ node.note.symbol = x := by
    intro i kind x hi
    rw [← hnodes, List.getElem?_map, Array.getElem?_toList] at hi
    obtain ⟨node, hnode, hpair⟩ := Option.map_eq_some_iff.mp hi
    exact ⟨node, hnode, congrArg Prod.fst hpair, congrArg Prod.snd hpair⟩
  obtain ⟨this, hthis, hkind, hbound⟩ := hat 0 _ _ rfl
  obtain ⟨_, hstatement, hkind₁, -⟩ := hat 1 _ _ rfl
  obtain ⟨_, hbody, hkind₂, -⟩ := hat 2 _ _ rfl
  obtain ⟨_, hinner, hkind₃, hsymbol₃⟩ := hat 3 _ _ rfl
  obtain ⟨_, hblock, hkind₄, -⟩ := hat 4 _ _ rfl
  obtain ⟨_, houter, hkind₅, hsymbol₅⟩ := hat 5 _ _ rfl
  obtain ⟨_, hclass, hkind₆, hsymbol₆⟩ := hat 6 _ _ rfl
  obtain ⟨_, hunit, hkind₇, -⟩ := hat 7 _ _ rfl
  have hplaced : t'.Placed s'.graph none [] ⟨7⟩ := hroot ▸ .root
  have hplaced : t'.Placed s'.graph (some ⟨0⟩) [] ⟨5⟩ :=
    .member (.child hplaced hunit (hkind₇ ▸ rfl) (hkind₇ ▸ by decide)) hclass hkind₆ hsymbol₆
      (by decide)
  have hplaced : t'.Placed s'.graph (some ⟨0⟩) [⟨1⟩] ⟨3⟩ :=
    .child (.inside hplaced houter (.inl hkind₅) hsymbol₅ (Nat.lt_of_succ_lt hsize)
      (hkind₅ ▸ by decide)) hblock (hkind₄ ▸ rfl) (hkind₄ ▸ by decide)
  have hplaced : t'.Placed s'.graph (some ⟨0⟩) [⟨2⟩, ⟨1⟩] ⟨1⟩ :=
    .child (.inside hplaced hinner (.inl hkind₃) hsymbol₃ hsize (hkind₃ ▸ by decide)) hbody
      (hkind₂ ▸ rfl) (hkind₂ ▸ by decide)
  exact ⟨r, t', s', this, h, hclean, hthis, hkind, hbound,
    .child hplaced hstatement (hkind₁ ▸ rfl) (hkind₁ ▸ by decide), hstatic⟩

end Scoping.Session
