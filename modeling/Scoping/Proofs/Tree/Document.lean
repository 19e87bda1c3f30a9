import Scoping.Tree.Encode
import Scoping.Tree.Decode
import Scoping.Proofs.Json.RoundTrip

/-!
# Trees survive their documents

Decoding the document of a tree gives the tree back, without its annotations, whatever the kinds of
its nodes.
-/

namespace Scoping

/-! ### Sizes of numbers -/

/-- Positions have 64 bits. -/
structure Position.Fits (p : Position) : Prop where
  line : p.line < Nat.pow 2 64
  column : p.column < Nat.pow 2 64
  offset : p.offset < Nat.pow 2 64

instance (p : Position) : Decidable p.Fits :=
  decidable_of_iff (p.line < Nat.pow 2 64 ∧ p.column < Nat.pow 2 64 ∧ p.offset < Nat.pow 2 64)
    ⟨fun h => ⟨h.1, h.2.1, h.2.2⟩, fun h => ⟨h.line, h.column, h.offset⟩⟩

structure Span.Fits (s : Span) : Prop where
  start : s.start.Fits
  stop : s.stop.Fits
  file : s.file.index < Nat.pow 2 64

instance (s : Span) : Decidable s.Fits :=
  decidable_of_iff (s.start.Fits ∧ s.stop.Fits ∧ s.file.index < Nat.pow 2 64)
    ⟨fun h => ⟨h.1, h.2.1, h.2.2⟩, fun h => ⟨h.start, h.stop, h.file⟩⟩

/-- Ids have 32 bits. -/
def NodeId.Fits (id : NodeId) : Prop := id.index < Nat.pow 2 32

instance (id : NodeId) : Decidable id.Fits := inferInstanceAs (Decidable (_ < _))

/-- Integers have 64 bits, signed. -/
def Literal.fits : Literal → Bool
  | int i => Value.fits i
  | _ => true

def Literal.isFloat : Literal → Bool
  | float _ => true
  | _ => false

def TraitUse.spans (use : TraitUse) : List Span :=
  use.span :: (use.items.getD []).map TraitUseItem.span

namespace NodeKind

/-- The spans inside a payload. -/
def spans : NodeKind → List Span
  | classDecl decl => decl.uses.flatMap TraitUse.spans
  | traitDecl decl => decl.uses.flatMap TraitUse.spans
  | fnDecl decl => decl.params.map Param.span
  | fnExpr decl => decl.params.map Param.span
  | varDecl _ items => items.map VarItem.span
  | enumDecl _ items => items.map VarItem.span
  | forIn key value _ _ => key.toList.map Ident.span ++ [value.span]
  | _ => []

def literal? : NodeKind → Option Literal
  | literal value => some value
  | _ => none

end NodeKind

/-- A node whose numbers have the sizes of their fields. -/
structure Node.Fits (node : Node) : Prop where
  ids : ∀ id ∈ node.kind.children, id.Fits
  spans : ∀ span ∈ node.span :: node.kind.spans, span.Fits
  literal : ∀ value ∈ node.kind.literal?, value.fits

instance (node : Node) : Decidable node.Fits :=
  decidable_of_iff ((∀ id ∈ node.kind.children, id.Fits) ∧
      (∀ span ∈ node.span :: node.kind.spans, span.Fits) ∧
        ∀ value ∈ node.kind.literal?, value.fits)
    ⟨fun h => ⟨h.1, h.2.1, h.2.2⟩, fun h => ⟨h.ids, h.spans, h.literal⟩⟩

/-- A node that is not a floating-point literal. -/
def Node.FloatFree (node : Node) : Prop := ∀ value ∈ node.kind.literal?, value.isFloat = false

instance (node : Node) : Decidable node.FloatFree := inferInstanceAs (Decidable (∀ _ ∈ _, _))

/-- A node without its annotation. -/
def Node.bare (node : Node) : Node := { node with note := {} }

namespace Tree.Decode

open Json Json.Reader

variable {α β : Type} {n : Nat} {name : String} {decode : Decoder α} {v : Json}
  {fields : List (String × Json)} {k : Nat} {node : Node} {p : Position} {s : Span}

/-- A value is read back where `n` levels are left, and a decoder finds `a` in it. -/
structure Carries (n : Nat) (decode : Decoder α) (v : Json) (a : α) : Prop where
  readable : Readable n .all v
  decoded : decode v = some a
  ne_null : v ≠ null

/-! ### Fields -/

/-- The value of a field is read back, and `get` finds `a` in any object that has the field. -/
structure Takes (n : Nat) (name : String) (get : Decoder α) (v : Json) (a : α) : Prop where
  readable : Readable n .all v
  taken : ∀ j, j.field? name = some v → get j = some a

theorem Carries.required {a : α} (h : Carries n decode v a) :
    Takes n name (Decode.required name decode) v a where
  readable := h.readable
  taken j hj := by simp [Decode.required, hj, h.decoded]

theorem Carries.defaulted {a d : α} (h : Carries n decode v a) :
    Takes n name (Decode.defaulted name d decode) v a where
  readable := h.readable
  taken j hj := by simp [Decode.defaulted, hj, h.decoded]

theorem takes_optional {encode : α → Json} {o : Option α}
    (h : ∀ a ∈ o, Carries n decode (encode a) a) :
    Takes n name (Decode.optional name decode) (ofOption encode o) o := by
  cases o with
  | none => exact ⟨.null, fun j hj => by simp [Decode.optional, hj, ofOption]⟩
  | some a =>
    have ha := h a rfl
    have hnull : encode a = null → False := ha.ne_null
    exact ⟨ha.readable, fun j hj => by simp [Decode.optional, hj, ofOption, ha.decoded]⟩

/-- An object has the given fields, among others. -/
def Holds (j : Json) (fields : List (String × Json)) : Prop :=
  ∀ field ∈ fields, j.field? field.1 = some field.2

/-- Fields are read back, and a decoder finds `a` in any object that has them. -/
structure Conveys (n : Nat) (fields : List (String × Json)) (decode : Decoder α) (a : α) :
    Prop where
  readable : ∀ field ∈ fields, Readable n .all field.2
  decoded : ∀ j, Holds j fields → decode j = some a

theorem conveys_nil (a : α) : Conveys n [] (fun _ => pure a) a :=
  ⟨fun _ h => absurd h List.not_mem_nil, fun _ _ => rfl⟩

/-- A decoder that takes one field and goes on with the others. -/
theorem Takes.cons {get : Decoder β} {v : Json} {b : β} {rest : β → Decoder α} {a : α}
    {fields : List (String × Json)} (h : Takes n name get v b)
    (hrest : Conveys n fields (rest b) a) :
    Conveys n ((name, v) :: fields) (fun j => get j >>= fun b => rest b j) a where
  readable := List.forall_mem_cons.2 ⟨h.readable, hrest.readable⟩
  decoded j hj := by
    obtain ⟨hfield, hfields⟩ := List.forall_mem_cons.1 hj
    simp [h.taken j hfield, hrest.decoded j hfields]

theorem Conveys.map {a : α} (h : Conveys n fields decode a) (f : α → β) :
    Conveys n fields (fun j => do pure (f (← decode j))) (f a) where
  readable := h.readable
  decoded j hj := by simp [h.decoded j hj]

theorem holds_obj (h : (fields.map Prod.fst).Nodup) : Holds (obj fields) fields := by
  induction fields with
  | nil => exact fun _ h => absurd h List.not_mem_nil
  | cons first fields ih =>
    obtain ⟨key, value⟩ := first
    obtain ⟨hkey, hnodup⟩ := List.nodup_cons.1 h
    refine List.forall_mem_cons.2 ⟨List.lookup_cons_self, fun field hfield => ?_⟩
    have hne : field.1 ≠ key := by
      have hmem : field.1 ∈ fields.map Prod.fst := List.mem_map_of_mem hfield
      rintro rfl
      exact hkey hmem
    simpa [field?, List.lookup_cons, beq_false_of_ne hne] using ih hnodup field hfield

/-- An object without doubled keys carries what its fields convey. -/
theorem Conveys.carries {a : α} (h : Conveys n fields decode a)
    (hkeys : (fields.map Prod.fst).Nodup) : Carries (n + 1) decode (obj fields) a where
  readable := readable_obj fun field hfield => ⟨.all, rfl, h.readable field hfield⟩
  decoded := h.decoded _ (holds_obj hkeys)
  ne_null h := by cases h

theorem Conveys.carriesObject {a : α} (h : Conveys n fields decode a)
    (hkeys : (fields.map Prod.fst).Nodup) :
    Carries (n + 1) (fun j => object j >>= decode) (obj fields) a :=
  ⟨(h.carries hkeys).readable, (h.carries hkeys).decoded, (h.carries hkeys).ne_null⟩

/-! ### Leaves -/

theorem list_arr {encode : α → Json} {l : List α} (h : ∀ a ∈ l, decode (encode a) = some a) :
    list decode (arr (l.map encode)) = some l := by
  simp only [list, arr?, Option.bind_eq_bind, Option.bind_some]
  induction l with
  | nil => rfl
  | cons a l ih =>
    rw [List.map_cons, List.mapM_cons, h a (by simp),
      ih fun b hb => h b (List.mem_cons_of_mem _ hb)]
    rfl

theorem carries_list {encode : α → Json} {l : List α}
    (h : ∀ a ∈ l, Carries n decode (encode a) a) :
    Carries (n + 1) (list decode) (arr (l.map encode)) l where
  readable := .arr fun item hitem => by
    obtain ⟨a, ha, rfl⟩ := List.mem_map.1 hitem
    exact (h a ha).readable
  decoded := list_arr fun a ha => (h a ha).decoded
  ne_null h := by cases h

theorem carries_str (s : String) : Carries n str? (str s) s :=
  ⟨.str s, rfl, fun h => by cases h⟩

theorem carries_bool (b : Bool) : Carries n bool? (bool b) b :=
  ⟨.bool b, rfl, fun h => by cases h⟩

theorem carries_nat {bound : Nat} (hbound : bound ≤ Nat.pow 2 64) (hk : k < bound) :
    Carries n (natBelow? bound) (nat k) k where
  readable := .int ⟨by omega, by omega⟩
  decoded := by
    have : (k : Int) < bound := by omega
    simp [nat, natBelow?, this]
  ne_null h := by cases h

theorem carries_count (h : k < Nat.pow 2 64) : Carries n count (nat k) k :=
  carries_nat (Nat.le_of_eq rfl) h

theorem carries_id {id : NodeId} (h : id.Fits) : Carries n nodeId id.toJson id := by
  have hindex : Carries n (natBelow? (Nat.pow 2 32)) (nat id.index) id.index :=
    carries_nat (by decide) h
  exact ⟨hindex.readable, congrArg (Option.map NodeId.mk) hindex.decoded, hindex.ne_null⟩

theorem carries_ids {ids : List NodeId} (h : ∀ id ∈ ids, id.Fits) :
    Carries (n + 1) (list nodeId) (NodeId.listJson ids) ids :=
  carries_list fun id hid => carries_id (h id hid)

/-- A word is found again in the list that it is from. -/
theorem carries_word {ofWord? : String → Option α} {text : String} {a : α}
    (h : ofWord? text = some a) : Carries n (word ofWord?) (str text) a :=
  ⟨.str _, h, fun h => by cases h⟩

theorem carries_modifiers (mods : List Modifier) :
    Carries (n + 1) modifiers (Modifier.listJson mods) mods :=
  carries_list fun m _ => carries_word (by cases m <;> decide)

theorem carries_position (h : p.Fits) : Carries (n + 1) position p.toJson p := by
  refine Conveys.carries ?_ (by simp)
  refine (carries_count h.line).required.cons ?_
  refine (carries_count h.column).required.cons ?_
  refine (carries_count h.offset).defaulted.cons ?_
  exact conveys_nil p

theorem carries_span (h : s.Fits) : Carries (n + 2) span s.toJson s := by
  refine Conveys.carries ?_ (by simp)
  refine (carries_position h.start).required.cons ?_
  refine (carries_position h.stop).required.cons ?_
  refine (carries_count h.file).defaulted.cons ?_
  exact conveys_nil s

theorem carries_qualName (q : QualName) : Carries (n + 2) qualName q.toJson q := by
  refine Conveys.carries ?_ (by simp)
  refine (carries_list fun s _ => carries_str s).required.cons ?_
  refine (carries_bool q.rooted).defaulted.cons ?_
  exact conveys_nil q

theorem carries_paths (paths : List QualName) :
    Carries (n + 3) (list qualName) (arr (paths.map QualName.toJson)) paths :=
  carries_list fun q _ => carries_qualName q

/-- An object with one key that says what its value is. -/
theorem carries_tagged {tag : String} {a : α} (h : Readable n .all v)
    (hdecoded : decode (obj [(tag, v)]) = some a) : Carries (n + 1) decode (obj [(tag, v)]) a :=
  ⟨readable_obj (by simpa using ⟨.all, rfl, h⟩), hdecoded, fun h => by cases h⟩

theorem carries_hint (hint : HintSyntax) : Carries (n + 3) Decode.hint hint.toJson hint := by
  cases hint with
  | builtin name => exact carries_tagged (.str name) rfl
  | named path =>
    have hpath := carries_qualName (n := n) path
    exact carries_tagged hpath.readable (congrArg (Option.map HintSyntax.named) hpath.decoded)

theorem carries_literal {l : Literal} (hfits : l.fits) (hfloat : l.isFloat = false) :
    Carries (n + 1) literal l.toJson l := by
  cases l with
  | null => exact ⟨.str _, rfl, fun h => by cases h⟩
  | bool b => exact carries_tagged (.bool b) rfl
  | int i =>
    have hi : Value.fits i := hfits
    obtain ⟨hlower, hupper⟩ : -(Nat.pow 2 63 : Int) ≤ i ∧ i < Nat.pow 2 63 := by
      simpa only [Value.fits, Bool.and_eq_true, decide_eq_true_eq] using hi
    have hexact : Exact i := ⟨hlower, by rw [pow_63] at hupper; rw [pow_64]; omega⟩
    exact carries_tagged (.int hexact) (by simp [literal, int64, hi])
  | float x => cases hfloat
  | str s => exact carries_tagged (.str s) rfl

/-! ### Parts of declarations -/

theorem carries_param {p : Param} (hspan : p.span.Fits) (hdefault : ∀ id ∈ p.default, id.Fits) :
    Carries (n + 4) param p.toJson p := by
  refine Conveys.carriesObject ?_ (by simp)
  refine (carries_str p.name).defaulted.cons ?_
  refine (carries_span hspan).defaulted.cons ?_
  refine (carries_modifiers p.mods).defaulted.cons ?_
  refine (takes_optional fun h _ => carries_hint h).cons ?_
  refine (carries_bool p.byRef).defaulted.cons ?_
  refine (carries_bool p.rest).defaulted.cons ?_
  refine (takes_optional fun id hid => carries_id (hdefault id hid)).cons ?_
  refine (carries_bool p.thisBound).defaulted.cons ?_
  exact conveys_nil p

theorem carries_traitUseItem {i : TraitUseItem} (hspan : i.span.Fits) :
    Carries (n + 3) traitUseItem i.toJson i := by
  refine Conveys.carriesObject ?_ (by simp)
  refine (carries_str i.name).defaulted.cons ?_
  refine (takes_optional fun s _ => carries_str s).cons ?_
  refine (carries_modifiers i.mods).defaulted.cons ?_
  refine (carries_span hspan).defaulted.cons ?_
  exact conveys_nil i

theorem carries_traitUse {u : TraitUse} (hspans : ∀ s ∈ u.spans, s.Fits) :
    Carries (n + 5) traitUse u.toJson u := by
  have hspan : u.span.Fits := hspans u.span (by simp [TraitUse.spans])
  have hitems : ∀ items ∈ u.items, ∀ i ∈ items, i.span.Fits := by
    intro items hitems i hi
    refine hspans i.span ?_
    rw [TraitUse.spans, Option.mem_def.1 hitems]
    exact List.mem_cons_of_mem _ (List.mem_map_of_mem hi)
  refine Conveys.carriesObject ?_ (by simp)
  refine (carries_qualName u.path).defaulted.cons ?_
  refine (carries_span hspan).defaulted.cons ?_
  refine (takes_optional fun items hmem =>
    carries_list fun i hi => carries_traitUseItem (hitems items hmem i hi)).cons ?_
  exact conveys_nil u

theorem carries_uses {uses : List TraitUse} (h : ∀ s ∈ uses.flatMap TraitUse.spans, s.Fits) :
    Carries (n + 6) (list traitUse) (arr (uses.map TraitUse.toJson)) uses :=
  carries_list fun u hu =>
    carries_traitUse fun s hs => h s (List.mem_flatMap.2 ⟨u, hu, hs⟩)

theorem carries_varItem {i : VarItem} (hspan : i.span.Fits) (hinit : ∀ id ∈ i.init, id.Fits) :
    Carries (n + 3) varItem i.toJson i := by
  refine Conveys.carriesObject ?_ (by simp)
  refine (carries_str i.name).defaulted.cons ?_
  refine (carries_span hspan).defaulted.cons ?_
  refine (takes_optional fun id hid => carries_id (hinit id hid)).cons ?_
  exact conveys_nil i

theorem carries_items {items : List VarItem} (hspans : ∀ s ∈ items.map VarItem.span, s.Fits)
    (hinits : ∀ id ∈ items.filterMap VarItem.init, id.Fits) :
    Carries (n + 4) (list varItem) (arr (items.map VarItem.toJson)) items :=
  carries_list fun i hi => carries_varItem (hspans _ (List.mem_map_of_mem hi)) fun id hid =>
    hinits id (List.mem_filterMap.2 ⟨i, hi, hid⟩)

theorem carries_ident {i : Ident} (hspan : i.span.Fits) : Carries (n + 3) ident i.toJson i := by
  refine Conveys.carriesObject ?_ (by simp)
  refine (carries_str i.name).defaulted.cons ?_
  refine (carries_span hspan).defaulted.cons ?_
  exact conveys_nil i

/-! ### Payloads -/

theorem conveys_fnDecl {d : FnDecl} (hspans : ∀ s ∈ d.params.map Param.span, s.Fits)
    (hids : ∀ id ∈ d.params.filterMap Param.default ++ d.body.toList, id.Fits) :
    Conveys (n + 5) d.fields fnDecl d := by
  have hparam : ∀ p ∈ d.params, ∀ id ∈ p.default, id.Fits := fun p hp id hid =>
    hids id (List.mem_append_left _ (List.mem_filterMap.2 ⟨p, hp, hid⟩))
  have hbody : ∀ id ∈ d.body, id.Fits := fun id hid =>
    hids id (List.mem_append_right _ (Option.mem_toList.2 hid))
  have hrole : Role.ofWord? d.role.word = some d.role := by cases d.role <;> decide
  refine (carries_word hrole).defaulted.cons ?_
  refine (carries_modifiers d.mods).defaulted.cons ?_
  refine (takes_optional fun s _ => carries_str s).cons ?_
  refine (carries_list fun p hp =>
    carries_param (hspans _ (List.mem_map_of_mem hp)) (hparam p hp)).defaulted.cons ?_
  refine (takes_optional fun id hid => carries_id (hbody id hid)).cons ?_
  exact conveys_nil d

theorem conveys_classDecl {d : ClassDecl} (hspans : ∀ s ∈ d.uses.flatMap TraitUse.spans, s.Fits)
    (hids : ∀ id ∈ d.members, id.Fits) : Conveys (n + 6) d.fields classDecl d := by
  refine (carries_modifiers d.mods).defaulted.cons ?_
  refine (carries_str d.name).defaulted.cons ?_
  refine (carries_bool d.incomplete).defaulted.cons ?_
  refine (takes_optional fun q _ => carries_qualName q).cons ?_
  refine (carries_paths d.implements).defaulted.cons ?_
  refine (carries_uses hspans).defaulted.cons ?_
  refine (carries_ids hids).defaulted.cons ?_
  exact conveys_nil d

theorem conveys_traitDecl {d : TraitDecl} (hspans : ∀ s ∈ d.uses.flatMap TraitUse.spans, s.Fits)
    (hids : ∀ id ∈ d.members, id.Fits) : Conveys (n + 6) d.fields traitDecl d := by
  refine (carries_modifiers d.mods).defaulted.cons ?_
  refine (carries_str d.name).defaulted.cons ?_
  refine (carries_bool d.incomplete).defaulted.cons ?_
  refine (carries_uses hspans).defaulted.cons ?_
  refine (carries_ids hids).defaulted.cons ?_
  exact conveys_nil d

theorem conveys_interfaceDecl {d : InterfaceDecl} (hids : ∀ id ∈ d.members, id.Fits) :
    Conveys (n + 3) d.fields interfaceDecl d := by
  refine (carries_modifiers d.mods).defaulted.cons ?_
  refine (carries_str d.name).defaulted.cons ?_
  refine (carries_bool d.incomplete).defaulted.cons ?_
  refine (carries_paths d.supers).defaulted.cons ?_
  refine (carries_ids hids).defaulted.cons ?_
  exact conveys_nil d

/-- Every payload is found again by the decoder of its name. -/
theorem exists_conveys {kind : NodeKind} (hids : ∀ id ∈ kind.children, id.Fits)
    (hspans : ∀ span ∈ kind.spans, span.Fits) (hliteral : ∀ value ∈ kind.literal?, value.fits)
    (hfloat : ∀ value ∈ kind.literal?, value.isFloat = false) :
    ∃ decode, payloads.lookup kind.word = some decode ∧
      Conveys (n + 6) kind.fields decode kind := by
  cases kind with
  | unit body => exact ⟨_, rfl, (carries_ids hids).required.cons (conveys_nil _)⟩
  | moduleDecl name body =>
    exact ⟨_, rfl, (takes_optional fun q _ => carries_qualName q).cons
      ((carries_ids hids).defaulted.cons (conveys_nil _))⟩
  | useDecl path rename isPublic =>
    exact ⟨_, rfl, (carries_qualName path).required.cons
      ((takes_optional fun s _ => carries_str s).cons
        ((carries_bool isPublic).defaulted.cons (conveys_nil _)))⟩
  | require path foreign =>
    exact ⟨_, rfl, (carries_id (hids path (by simp [NodeKind.children]))).required.cons
      ((carries_bool foreign).defaulted.cons (conveys_nil _))⟩
  | classDecl decl => exact ⟨_, rfl, (conveys_classDecl hspans hids).map _⟩
  | traitDecl decl => exact ⟨_, rfl, (conveys_traitDecl hspans hids).map _⟩
  | interfaceDecl decl => exact ⟨_, rfl, (conveys_interfaceDecl hids).map _⟩
  | fnDecl decl | fnExpr decl => exact ⟨_, rfl, (conveys_fnDecl hspans hids).map _⟩
  | varDecl mods items | enumDecl mods items =>
    exact ⟨_, rfl, (carries_modifiers mods).defaulted.cons
      ((carries_items hspans hids).required.cons (conveys_nil _))⟩
  | block body => exact ⟨_, rfl, (carries_ids hids).defaulted.cons (conveys_nil _)⟩
  | ifElse cond thenPart otherwise =>
    simp only [NodeKind.children, List.forall_mem_cons, Option.mem_toList] at hids
    obtain ⟨hcond, hthen, hotherwise⟩ := hids
    exact ⟨_, rfl, (carries_id hcond).required.cons ((carries_id hthen).required.cons
      ((takes_optional fun id hid => carries_id (hotherwise id hid)).cons (conveys_nil _)))⟩
  | whileLoop cond body =>
    simp only [NodeKind.children, List.forall_mem_cons] at hids
    obtain ⟨hcond, hbody, -⟩ := hids
    exact ⟨_, rfl, (carries_id hcond).required.cons
      ((carries_id hbody).required.cons (conveys_nil _))⟩
  | forLoop init test step body =>
    simp only [NodeKind.children, List.forall_mem_append, List.forall_mem_cons,
      Option.mem_toList] at hids
    obtain ⟨⟨⟨hinit, htest⟩, hstep⟩, hbody, -⟩ := hids
    exact ⟨_, rfl, (takes_optional fun id hid => carries_id (hinit id hid)).cons
      ((takes_optional fun id hid => carries_id (htest id hid)).cons
        ((takes_optional fun id hid => carries_id (hstep id hid)).cons
          ((carries_id hbody).required.cons (conveys_nil _))))⟩
  | forIn key value iter body =>
    simp only [NodeKind.children, List.forall_mem_cons] at hids
    simp only [NodeKind.spans, List.forall_mem_append, List.forall_mem_cons, List.forall_mem_map,
      Option.mem_toList] at hspans
    obtain ⟨hiter, hbody, -⟩ := hids
    obtain ⟨hkey, hvalue, -⟩ := hspans
    exact ⟨_, rfl, (takes_optional fun i hi => carries_ident (hkey i hi)).cons
      ((carries_ident hvalue).required.cons ((carries_id hiter).required.cons
        ((carries_id hbody).required.cons (conveys_nil _))))⟩
  | ret value =>
    simp only [NodeKind.children, Option.mem_toList] at hids
    exact ⟨_, rfl, (takes_optional fun id hid => carries_id (hids id hid)).cons (conveys_nil _)⟩
  | exprStmt expr =>
    exact ⟨_, rfl, (carries_id (hids expr (by simp [NodeKind.children]))).required.cons
      (conveys_nil _)⟩
  | name path => exact ⟨_, rfl, (carries_qualName path).required.cons (conveys_nil _)⟩
  | literal value =>
    exact ⟨_, rfl,
      (carries_literal (hliteral value rfl) (hfloat value rfl)).required.cons (conveys_nil _)⟩
  | unary op operand =>
    exact ⟨_, rfl, (carries_str op).required.cons
      ((carries_id (hids operand (by simp [NodeKind.children]))).required.cons (conveys_nil _))⟩
  | binary op lhs rhs =>
    simp only [NodeKind.children, List.forall_mem_cons] at hids
    obtain ⟨hlhs, hrhs, -⟩ := hids
    exact ⟨_, rfl, (carries_str op).required.cons ((carries_id hlhs).required.cons
      ((carries_id hrhs).required.cons (conveys_nil _)))⟩
  | assign op target value =>
    simp only [NodeKind.children, List.forall_mem_cons] at hids
    obtain ⟨htarget, hvalue, -⟩ := hids
    exact ⟨_, rfl, (carries_str op).defaulted.cons ((carries_id htarget).required.cons
      ((carries_id hvalue).required.cons (conveys_nil _)))⟩
  | call callee args =>
    simp only [NodeKind.children, List.forall_mem_cons] at hids
    exact ⟨_, rfl, (carries_id hids.1).required.cons
      ((carries_ids hids.2).defaulted.cons (conveys_nil _))⟩
  | new host args =>
    exact ⟨_, rfl, (carries_qualName host).required.cons
      ((carries_ids hids).defaulted.cons (conveys_nil _))⟩
  | member object field =>
    exact ⟨_, rfl, (carries_id (hids object (by simp [NodeKind.children]))).required.cons
      ((carries_str field).required.cons (conveys_nil _))⟩
  | index object position =>
    simp only [NodeKind.children, List.forall_mem_cons] at hids
    obtain ⟨hobject, hposition, -⟩ := hids
    exact ⟨_, rfl, (carries_id hobject).required.cons
      ((carries_id hposition).required.cons (conveys_nil _))⟩
  | this | selfRef | super => exact ⟨_, rfl, conveys_nil _⟩
  | engineConst which =>
    have hword : EngineConst.ofWord? which.word = some which := by cases which <;> decide
    exact ⟨_, rfl, (carries_word hword).required.cons (conveys_nil _)⟩

/-! ### Nodes and trees -/

/-- The keys of a node are distinct. -/
theorem nodup_keys (kind : NodeKind) : ("kind" :: kind.fields.map Prod.fst ++ ["span"]).Nodup := by
  cases kind <;> simp [NodeKind.fields, ClassDecl.fields, TraitDecl.fields, InterfaceDecl.fields,
    FnDecl.fields]

theorem node_toJson (h : node.Fits) (hfloat : node.FloatFree) :
    Decode.node node.toJson = some node.bare := by
  obtain ⟨hspan, hspans⟩ := List.forall_mem_cons.1 h.spans
  obtain ⟨decode, hlookup, hkind⟩ := exists_conveys (n := 0) h.ids hspans h.literal hfloat
  have hkeys := nodup_keys node.kind
  have hholds : Holds node.toJson
      (("kind", str node.kind.word) :: node.kind.fields ++ [("span", node.span.toJson)]) :=
    holds_obj (by simpa using hkeys)
  simp only [Holds, List.cons_append, List.forall_mem_cons, List.forall_mem_append] at hholds
  obtain ⟨hword, hfields, hplace, -⟩ := hholds
  have hplace : defaulted "span" {} span node.toJson = some node.span :=
    (carries_span (n := 0) hspan).defaulted.taken _ hplace
  have hobject : object node.toJson = some node.toJson := rfl
  simp [Decode.node, hobject, required, hword, payload?, hlookup, hkind.decoded _ hfields, hplace,
    Node.bare]

theorem readable_position (h : p.Fits) : Readable (n + 1) positionInterest p.toJson := by
  refine readable_obj ?_
  simp only [List.forall_mem_cons]
  exact ⟨⟨_, rfl, (carries_count h.line).readable⟩, ⟨_, rfl, (carries_count h.column).readable⟩,
    ⟨_, rfl, (carries_count h.offset).readable⟩, List.forall_mem_nil _⟩

theorem readable_span (h : s.Fits) : Readable (n + 2) spanInterest s.toJson := by
  refine readable_obj ?_
  simp only [List.forall_mem_cons]
  exact ⟨⟨_, rfl, readable_position h.start⟩, ⟨_, rfl, readable_position h.stop⟩,
    ⟨_, rfl, (carries_count h.file).readable⟩, List.forall_mem_nil _⟩

theorem readable_node (h : node.Fits) (hfloat : node.FloatFree) :
    Readable (n + 7) nodeInterest node.toJson := by
  obtain ⟨hspan, hspans⟩ := List.forall_mem_cons.1 h.spans
  obtain ⟨decode, -, hkind⟩ := exists_conveys (n := n) h.ids hspans h.literal hfloat
  have hkeys := nodup_keys node.kind
  refine readable_obj ?_
  simp only [List.cons_append, List.forall_mem_cons, List.forall_mem_append]
  refine ⟨⟨_, rfl, .str _⟩, fun field hfield => ⟨.all, ?_, hkind.readable field hfield⟩,
    ⟨_, rfl, readable_span hspan⟩, List.forall_mem_nil _⟩
  have hmem : field.1 ∈ "kind" :: node.kind.fields.map Prod.fst :=
    List.mem_cons_of_mem _ (List.mem_map_of_mem hfield)
  have hne : field.1 ≠ "span" := (List.nodup_append.1 hkeys).2.2 _ hmem _ (by simp)
  simp [nodeInterest, Interest.field?, List.lookup_cons, beq_false_of_ne hne]

end Tree.Decode

namespace Tree

open Json Json.Reader Decode

/-- A tree without its annotations. -/
def bare (t : Tree) : Tree := { t with nodes := t.nodes.map Node.bare }

/-- A tree whose numbers have the sizes of their fields. -/
structure Fits (t : Tree) : Prop where
  root : t.root.Fits
  nodes : ∀ node ∈ t.nodes, node.Fits

/-- A tree without floating-point literals. -/
def FloatFree (t : Tree) : Prop := ∀ node ∈ t.nodes, node.FloatFree

instance (t : Tree) : Decidable t.FloatFree :=
  inferInstanceAs (Decidable (∀ node ∈ t.nodes, node.FloatFree))

variable {t : Tree}

theorem readable_toJson (h : t.Fits) (hfloat : t.FloatFree) {n : Nat} :
    Readable (n + 9) interest t.toJson := by
  have hnodes : ∀ item ∈ t.nodes.toList.map Node.toJson, Readable (n + 7) nodeInterest item := by
    intro item hitem
    obtain ⟨node, hnode, rfl⟩ := List.mem_map.1 hitem
    have hnode := Array.mem_toList_iff.1 hnode
    exact readable_node (h.nodes node hnode) (hfloat node hnode)
  have hsource : Takes (n + 8) "source" (optional "source" str?) (ofOption str t.source) t.source :=
    takes_optional fun s _ => carries_str s
  refine readable_obj ?_
  simp only [List.forall_mem_cons]
  exact ⟨⟨_, rfl, .str _⟩, ⟨_, rfl, hsource.readable⟩, ⟨_, rfl, .arr hnodes⟩,
    ⟨_, rfl, (carries_id h.root).readable⟩, List.forall_mem_nil _⟩

theorem ofJson?_toJson (h : t.Fits) (hfloat : t.FloatFree) : ofJson? t.toJson = some t.bare := by
  have hnodes : list node (arr (t.nodes.toList.map Node.toJson))
      = some (t.nodes.toList.map Node.bare) := by
    -- A document says nothing of annotations, so it is also the document of the bare nodes.
    have hbare :
        t.nodes.toList.map Node.toJson = (t.nodes.toList.map Node.bare).map Node.toJson := by
      rw [List.map_map]
      rfl
    rw [hbare]
    refine list_arr fun bare hmem => ?_
    obtain ⟨node, hnode, rfl⟩ := List.mem_map.1 hmem
    have hnode := Array.mem_toList_iff.1 hnode
    show Decode.node node.toJson = some node.bare
    exact node_toJson (h.nodes node hnode) (hfloat node hnode)
  have hobject : object t.toJson = some t.toJson := rfl
  have hfile : required "file" str? t.toJson = some t.file := rfl
  have hsource : optional "source" str? t.toJson = some t.source :=
    (takes_optional (n := 0) fun s _ => carries_str s).taken _ rfl
  have hlist : required "nodes" (list node) t.toJson = some (t.nodes.toList.map Node.bare) := hnodes
  have hroot : required "root" nodeId t.toJson = some t.root :=
    (carries_id (n := 0) h.root).required.taken _ rfl
  have harray : (t.nodes.toList.map Node.bare).toArray = t.nodes.map Node.bare := by
    rw [← Array.toList_map, Array.toArray_toList]
  simp [ofJson?, hobject, hfile, hsource, hlist, hroot, bare, harray]

theorem node?_bare (t : Tree) (id : NodeId) : t.bare.node? id = (t.node? id).map Node.bare := by
  simp [node?, bare]

theorem size_bare (t : Tree) : t.bare.size = t.size := by simp [size, bare]

theorem missingChild?_bare (t : Tree) : t.bare.missingChild? = t.missingChild? := by
  have hnodes : t.bare.nodes.toList = t.nodes.toList.map Node.bare := by simp [bare]
  simp only [missingChild?, size_bare, hnodes, List.zipIdx_map, List.findSome?_map]
  rfl

theorem validate_bare (t : Tree) : t.bare.validate = t.validate := by
  have hroot : t.bare.root = t.root := rfl
  unfold validate
  rw [hroot, node?_bare, missingChild?_bare, size_bare]
  cases t.node? t.root with
  | none => rfl
  | some node => rfl

/-- The document of a valid tree is read back as the tree, without its annotations. -/
theorem parse?_render (h : t.validate = .ok ()) (hfits : t.Fits) (hfloat : t.FloatFree)
    (pretty : Bool) :
    Tree.parse? (render pretty 0 t.toJson) = some t.bare ∧ t.bare.validate = .ok () := by
  refine ⟨?_, (validate_bare t).trans h⟩
  rw [Tree.parse?, parseOnly, maxDepth, parseWithin_render (readable_toJson hfits hfloat)]
  exact ofJson?_toJson hfits hfloat

/-- A trait with a method, a class that uses it, and a loop, with texts that need escapes and the
least integer there is. One node has been annotated. -/
def sampleTree : Tree where
  file := "dir\\a \"b\".phs"
  source := some "let\tx;\n"
  nodes := #[
    { kind := .literal (.int (-9223372036854775808)) },
    { kind := .engineConst .method, note := { binding := some .pending } },
    { kind := .fnDecl
        { mods := [.visible, .static], name := some "m\x01é",
          params :=
            [{ name := "p", hint := some (.named ⟨["a", "B"], true⟩), default := some ⟨0⟩ }],
          body := some ⟨1⟩ } },
    { kind := .traitDecl { name := "T", members := [⟨2⟩] },
      span := ⟨⟨1, 2, 3⟩, ⟨4, 5, 18446744073709551615⟩, ⟨7⟩⟩ },
    { kind := .classDecl
        { name := "C", super := some ⟨["B"], false⟩,
          uses :=
            [{ path := ⟨["T"], false⟩, items := some [{ name := "m", rename := some "" }] }] } },
    { kind := .name ⟨["xs"], false⟩ },
    { kind := .block [] },
    { kind := .forIn none { name := "x", span := ⟨⟨1, 1, 0⟩, ⟨1, 2, 1⟩, ⟨0⟩⟩ } ⟨5⟩ ⟨6⟩ },
    { kind := .unit [⟨3⟩, ⟨4⟩, ⟨7⟩] }]
  root := ⟨8⟩

theorem parse?_render_sampleTree :
    Tree.parse? (compact sampleTree.toJson) = some sampleTree.bare ∧
      sampleTree.bare.validate = .ok () :=
  parse?_render rfl ⟨by decide, by decide⟩ (by decide) false

end Tree

end Scoping
