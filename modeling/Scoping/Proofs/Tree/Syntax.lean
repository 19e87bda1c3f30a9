import Mathlib.Data.List.Basic
import Scoping.Tree.Syntax

/-!
# Child slots

`NodeKind.withChildren` fills the child slots of a payload. Given as many ids as there are slots, it
fills all of them in order and changes nothing else; `NodeKind.shape` is what it does not change.
-/

namespace Scoping

namespace NodeKind

variable {ids : List NodeId} {kind : NodeKind}

/-- The payload without the ids of its children. -/
def shape (kind : NodeKind) : NodeKind := kind.withChildren (kind.children.map fun _ => ⟨0⟩)

/-! ### Slots -/

theorem fillSlot_of_length {slot : Option NodeId} (h : slot.toList.length ≤ ids.length) :
    (fillSlot slot ids).1.toList ++ (fillSlot slot ids).2 = ids ∧
      (fillSlot slot ids).1.isSome = slot.isSome ∧
      (fillSlot slot ids).2.length = ids.length - slot.toList.length := by
  cases slot with
  | none => exact ⟨rfl, rfl, rfl⟩
  | some old =>
    cases ids with
    | nil => simp at h
    | cons id rest => exact ⟨rfl, rfl, rfl⟩

/-- What a slot holds before it is filled does not matter. -/
theorem fillSlot_congr {slot slot' : Option NodeId} (h : slot.toList.length ≤ ids.length)
    (hsome : slot'.isSome = slot.isSome) : fillSlot slot' ids = fillSlot slot ids := by
  cases slot with
  | none =>
    cases slot' with
    | none => rfl
    | some _ => simp at hsome
  | some old =>
    cases slot' with
    | none => simp at hsome
    | some _ =>
      cases ids with
      | nil => simp at h
      | cons id rest => rfl

theorem fillOne_congr (old old' : NodeId) (h : 0 < ids.length) :
    fillOne old' ids = fillOne old ids := by
  cases ids with
  | nil => simp at h
  | cons id rest => rfl

/-! ### Parameters and items -/

theorem fillParams_of_length : ∀ {params : List Param} {ids : List NodeId},
    (params.filterMap Param.default).length ≤ ids.length →
    (fillParams params ids).1.filterMap Param.default ++ (fillParams params ids).2 = ids ∧
      ((fillParams params ids).1.filterMap Param.default).length =
        (params.filterMap Param.default).length
  | [], ids, _ => ⟨rfl, rfl⟩
  | p :: ps, ids, h => by
    cases hdefault : p.default with
    | none =>
      rw [List.filterMap_cons_none hdefault] at h ⊢
      simpa [fillParams, fillSlot, hdefault] using fillParams_of_length h
    | some old =>
      rw [List.filterMap_cons_some hdefault] at h ⊢
      cases ids with
      | nil => simp at h
      | cons id rest =>
        have hrest : (ps.filterMap Param.default).length ≤ rest.length := by simpa using h
        simpa [fillParams, fillSlot, hdefault] using fillParams_of_length hrest

theorem fillParams_fillParams : ∀ {params : List Param} {ids ids' : List NodeId},
    (params.filterMap Param.default).length ≤ ids.length →
    (params.filterMap Param.default).length ≤ ids'.length →
    fillParams (fillParams params ids).1 ids' = fillParams params ids'
  | [], ids, ids', _, _ => rfl
  | p :: ps, ids, ids', h, h' => by
    cases hdefault : p.default with
    | none =>
      rw [List.filterMap_cons_none hdefault] at h h'
      simp [fillParams, fillSlot, hdefault, fillParams_fillParams h h']
    | some old =>
      rw [List.filterMap_cons_some hdefault] at h h'
      cases ids with
      | nil => simp at h
      | cons id rest =>
        cases ids' with
        | nil => simp at h'
        | cons id' rest' =>
          have hrest : (ps.filterMap Param.default).length ≤ rest.length := by simpa using h
          have hrest' : (ps.filterMap Param.default).length ≤ rest'.length := by simpa using h'
          simp [fillParams, fillSlot, hdefault, fillParams_fillParams hrest hrest']

theorem fillItems_of_length : ∀ {items : List VarItem} {ids : List NodeId},
    ids.length = (items.filterMap VarItem.init).length →
    (fillItems items ids).filterMap VarItem.init = ids
  | [], ids, h => (List.eq_nil_of_length_eq_zero h).symm
  | item :: items, ids, h => by
    cases hinit : item.init with
    | none =>
      rw [List.filterMap_cons_none hinit] at h
      simpa [fillItems, fillSlot, hinit] using fillItems_of_length h
    | some old =>
      rw [List.filterMap_cons_some hinit] at h
      cases ids with
      | nil => simp at h
      | cons id rest =>
        have hrest : rest.length = (items.filterMap VarItem.init).length := by simpa using h
        simpa [fillItems, fillSlot, hinit] using fillItems_of_length hrest

theorem fillItems_fillItems : ∀ {items : List VarItem} {ids ids' : List NodeId},
    ids.length = (items.filterMap VarItem.init).length → ids'.length = ids.length →
    fillItems (fillItems items ids) ids' = fillItems items ids'
  | [], ids, ids', _, _ => rfl
  | item :: items, ids, ids', h, h' => by
    cases hinit : item.init with
    | none =>
      rw [List.filterMap_cons_none hinit] at h
      simp [fillItems, fillSlot, hinit, fillItems_fillItems h h']
    | some old =>
      rw [List.filterMap_cons_some hinit] at h
      cases ids with
      | nil => simp at h
      | cons id rest =>
        cases ids' with
        | nil => simp at h'
        | cons id' rest' =>
          have hrest : rest.length = (items.filterMap VarItem.init).length := by simpa using h
          have hrest' : rest'.length = rest.length := by simpa using h'
          simp [fillItems, fillSlot, hinit, fillItems_fillItems hrest hrest']

/-! ### Functions -/

theorem children_fillFn {decl : FnDecl}
    (h : ids.length = (decl.params.filterMap Param.default ++ decl.body.toList).length) :
    (fillFn decl ids).params.filterMap Param.default ++ (fillFn decl ids).body.toList = ids := by
  rw [List.length_append] at h
  obtain ⟨hparams, hlength⟩ := fillParams_of_length
    (show (decl.params.filterMap Param.default).length ≤ ids.length by omega)
  have hrest : (fillParams decl.params ids).2.length = decl.body.toList.length := by
    have := congrArg List.length hparams
    rw [List.length_append] at this
    omega
  have hbody : (fillSlot decl.body (fillParams decl.params ids).2).1.toList =
      (fillParams decl.params ids).2 := by
    generalize (fillParams decl.params ids).2 = rest at hrest
    cases hslot : decl.body with
    | none =>
      rw [hslot] at hrest
      exact (List.eq_nil_of_length_eq_zero hrest).symm
    | some old =>
      rw [hslot] at hrest
      obtain ⟨id, rfl⟩ := List.length_eq_one_iff.mp hrest
      rfl
  exact (congrArg _ hbody).trans hparams

theorem fillFn_fillFn {decl : FnDecl} {ids' : List NodeId}
    (h : ids.length = (decl.params.filterMap Param.default ++ decl.body.toList).length)
    (h' : ids'.length = ids.length) : fillFn (fillFn decl ids) ids' = fillFn decl ids' := by
  rw [List.length_append] at h
  have hparams := fillParams_fillParams
    (show (decl.params.filterMap Param.default).length ≤ ids.length by omega)
    (show (decl.params.filterMap Param.default).length ≤ ids'.length by omega)
  have hrest : ∀ ids : List NodeId,
      ids.length = (decl.params.filterMap Param.default).length + decl.body.toList.length →
      decl.body.toList.length ≤ (fillParams decl.params ids).2.length := by
    intro ids hids
    obtain ⟨hsplit, hlength⟩ := fillParams_of_length
      (show (decl.params.filterMap Param.default).length ≤ ids.length by omega)
    have := congrArg List.length hsplit
    rw [List.length_append] at this
    omega
  have hsome := (fillSlot_of_length (hrest ids h)).2.1
  simp only [fillFn, hparams, fillSlot_congr (hrest ids' (h'.trans h)) hsome]

/-! ### Payloads -/

/-- Every slot is filled, in order. -/
theorem children_withChildren (h : ids.length = kind.children.length) :
    (kind.withChildren ids).children = ids := by
  cases kind with
  | fnDecl decl | fnExpr decl => exact children_fillFn h
  | varDecl mods items | enumDecl mods items => exact fillItems_of_length h
  | unit | moduleDecl | classDecl | traitDecl | interfaceDecl | block | new => rfl
  | useDecl | name | literal | this | selfRef | super | engineConst =>
    exact (List.eq_nil_of_length_eq_zero h).symm
  | require | exprStmt | unary | member =>
    obtain ⟨a, rfl⟩ := List.length_eq_one_iff.mp h
    rfl
  | whileLoop | binary | assign | index | forIn =>
    obtain ⟨a, b, rfl⟩ := List.length_eq_two.mp h
    rfl
  | call =>
    obtain ⟨a, rest, rfl⟩ := List.exists_cons_of_length_eq_add_one h
    rfl
  | ret value =>
    cases value with
    | none => exact (List.eq_nil_of_length_eq_zero h).symm
    | some _ =>
      obtain ⟨a, rfl⟩ := List.length_eq_one_iff.mp h
      rfl
  | ifElse cond thenPart otherwise =>
    cases otherwise with
    | none =>
      obtain ⟨a, b, rfl⟩ := List.length_eq_two.mp h
      rfl
    | some _ =>
      obtain ⟨a, b, c, rfl⟩ := List.length_eq_three.mp h
      rfl
  | forLoop init test step body =>
    simp only [children, List.length_append, List.length_singleton] at h
    obtain ⟨hinit, -, hlength⟩ := fillSlot_of_length (show init.toList.length ≤ ids.length by omega)
    obtain ⟨htest, -, hlength'⟩ := fillSlot_of_length
      (show test.toList.length ≤ (fillSlot init ids).2.length by omega)
    obtain ⟨hstep, -, hlength''⟩ := fillSlot_of_length
      (show step.toList.length ≤ (fillSlot test (fillSlot init ids).2).2.length by omega)
    obtain ⟨a, hbody⟩ := List.length_eq_one_iff.mp
      (show (fillSlot step (fillSlot test (fillSlot init ids).2).2).2.length = 1 by omega)
    rw [hbody] at hstep
    simp only [withChildren, children, hbody, fillOne]
    rw [List.append_assoc, List.append_assoc, hstep, htest, hinit]

/-- Filling the slots changes nothing else. -/
theorem withChildren_withChildren {ids' : List NodeId} (h : ids.length = kind.children.length)
    (h' : ids'.length = ids.length) :
    (kind.withChildren ids).withChildren ids' = kind.withChildren ids' := by
  cases kind with
  | fnDecl decl => exact congrArg fnDecl (fillFn_fillFn h h')
  | fnExpr decl => exact congrArg fnExpr (fillFn_fillFn h h')
  | varDecl mods items => exact congrArg (varDecl mods) (fillItems_fillItems h h')
  | enumDecl mods items => exact congrArg (enumDecl mods) (fillItems_fillItems h h')
  | unit | moduleDecl | classDecl | traitDecl | interfaceDecl | block | new => rfl
  | useDecl | name | literal | this | selfRef | super | engineConst => rfl
  | require | exprStmt | unary | member =>
    obtain ⟨a, rfl⟩ := List.length_eq_one_iff.mp (h'.trans h)
    rfl
  | whileLoop | binary | assign | index | forIn =>
    obtain ⟨a, b, rfl⟩ := List.length_eq_two.mp (h'.trans h)
    rfl
  | call =>
    obtain ⟨a, rest, rfl⟩ := List.exists_cons_of_length_eq_add_one (h'.trans h)
    rfl
  | ret value =>
    simp only [children] at h
    obtain ⟨-, hsome, -⟩ := fillSlot_of_length (Nat.le_of_eq h.symm)
    exact congrArg ret (congrArg Prod.fst (fillSlot_congr (Nat.le_of_eq (h'.trans h).symm) hsome))
  | ifElse cond thenPart otherwise =>
    cases otherwise with
    | none =>
      obtain ⟨a, b, rfl⟩ := List.length_eq_two.mp (h'.trans h)
      rfl
    | some _ =>
      obtain ⟨a, b, c, rfl⟩ := List.length_eq_three.mp h
      obtain ⟨a', b', c', rfl⟩ := List.length_eq_three.mp h'
      rfl
  | forLoop init test step body =>
    simp only [children, List.length_append, List.length_singleton] at h
    -- the three optional slots keep whether they are in use, and every slot gets its id
    have hslots : ∀ ids : List NodeId,
        ids.length = init.toList.length + test.toList.length + step.toList.length + 1 →
        init.toList.length ≤ ids.length ∧
        test.toList.length ≤ (fillSlot init ids).2.length ∧
        step.toList.length ≤ (fillSlot test (fillSlot init ids).2).2.length ∧
        0 < (fillSlot step (fillSlot test (fillSlot init ids).2).2).2.length := by
      intro ids hids
      obtain ⟨-, -, hinit⟩ := fillSlot_of_length (show init.toList.length ≤ ids.length by omega)
      obtain ⟨-, -, htest⟩ := fillSlot_of_length
        (show test.toList.length ≤ (fillSlot init ids).2.length by omega)
      obtain ⟨-, -, hstep⟩ := fillSlot_of_length
        (show step.toList.length ≤ (fillSlot test (fillSlot init ids).2).2.length by omega)
      omega
    obtain ⟨hinit, htest, hstep, -⟩ := hslots ids h
    obtain ⟨hinit', htest', hstep', hbody'⟩ := hslots ids' (h'.trans h)
    simp only [withChildren, fillSlot_congr hinit' (fillSlot_of_length hinit).2.1,
      fillSlot_congr htest' (fillSlot_of_length htest).2.1,
      fillSlot_congr hstep' (fillSlot_of_length hstep).2.1, fillOne_congr body _ hbody']

theorem shape_withChildren (h : ids.length = kind.children.length) :
    (kind.withChildren ids).shape = kind.shape := by
  rw [shape, children_withChildren h, withChildren_withChildren h (by simp), shape]
  congr 1
  exact List.ext_getElem (by simpa using h) (by simp)

end NodeKind

end Scoping
