import Mathlib.Data.List.DropRight
import Scoping.Json.Printer
import Scoping.Json.Reader

/-!
# Documents are read back as they were written

The reader inverts the printer, compact or pretty, on the documents that it can represent: without
floating-point numbers, with integers of 64 bits, and nested no deeper than it may go. Each part
is read with any text behind it, so that the parts of a document can be put together.
-/

namespace Scoping.Json

namespace Reader

variable {c : Char} {b rest : List Char}

theorem cons_ne {d : Char} (h : c ≠ d) (s r : List Char) : c :: s = d :: r → False :=
  fun hcons => h (List.cons.inj hcons).1

/-! ### Blanks -/

/-- Nothing but blanks. -/
def Blank (s : List Char) : Prop := ∀ c ∈ s, isBlank c = true

theorem blank_nil : Blank [] := fun _ h => absurd h List.not_mem_nil

theorem blank_newline (n : Nat) : Blank ('\n' :: List.replicate n ' ') := by
  intro c hc
  rcases List.mem_cons.1 hc with rfl | hc
  · rfl
  · rw [List.eq_of_mem_replicate hc]
    rfl

theorem skipBlanks_append (hb : Blank b) (s : List Char) : skipBlanks (b ++ s) = skipBlanks s :=
  List.dropWhile_append_of_pos hb

theorem skipBlanks_cons (hc : isBlank c = false) (s : List Char) :
    skipBlanks (c :: s) = c :: s := by
  rw [skipBlanks, List.dropWhile_cons_of_neg (by simp [hc])]

/-! ### Numbers -/

/-- A text that no numeral goes on in. -/
def Ends (s : List Char) : Prop :=
  ∀ c ∈ s.head?, isDigit c = false ∧ c ≠ '.' ∧ c ≠ 'e' ∧ c ≠ 'E'

theorem ends_nil : Ends [] := fun _ h => absurd h (by simp)

theorem ends_cons {s : List Char} (h : isDigit c = false ∧ c ≠ '.' ∧ c ≠ 'e' ∧ c ≠ 'E') :
    Ends (c :: s) := by
  intro d hd
  obtain rfl : c = d := by simpa using hd
  exact h

theorem ends_blank {s : List Char} (hb : Blank b)
    (hc : isDigit c = false ∧ c ≠ '.' ∧ c ≠ 'e' ∧ c ≠ 'E') : Ends (b ++ c :: s) := by
  cases b with
  | nil => exact ends_cons hc
  | cons d b =>
    have hd : isBlank d = true := hb d (by simp)
    refine ends_cons ?_
    simp only [isBlank, Bool.or_eq_true, beq_iff_eq] at hd
    rcases hd with ((rfl | rfl) | rfl) | rfl <;> decide

theorem isDigit_of_mem_toDigits {n : Nat} (h : c ∈ Nat.toDigits 10 n) : isDigit c = true :=
  Nat.isDigit_of_mem_toDigits (by decide) (by decide) h

theorem decimal_toDigits (n : Nat) : decimal (Nat.toDigits 10 n) = n := by
  have h := Nat.ofDigitChars_ten_toDigits (n := n)
  simpa [decimal, Nat.ofDigitChars, digitValue, Nat.mul_comm] using h

theorem digitChar_ne_zero : ∀ n < 10, n.digitChar = '0' → n = 0 := by decide

/-- Only zero is written with a zero in front. -/
theorem eq_zero_of_head_toDigits (n : Nat) (h : (Nat.toDigits 10 n).head? = some '0') : n = 0 := by
  induction n using Nat.strongRecOn with
  | ind n ih =>
    by_cases hn : n < 10
    · rw [Nat.toDigits_of_lt_base hn] at h
      exact digitChar_ne_zero n hn (by simpa using h)
    · rw [Nat.toDigits_of_base_le (by decide) (Nat.le_of_not_lt hn),
        List.head?_append, List.head?_eq_some_head Nat.toDigits_ne_nil] at h
      have := ih (n / 10) (by omega) (by rw [List.head?_eq_some_head Nat.toDigits_ne_nil]; exact h)
      omega

theorem digits_toDigits (n : Nat) (hrest : Ends rest) :
    digits (Nat.toDigits 10 n ++ rest) = some (Nat.toDigits 10 n, rest) := by
  have hall : ∀ c ∈ Nat.toDigits 10 n, isDigit c = true := fun _ => isDigit_of_mem_toDigits
  obtain ⟨htake, hdrop⟩ : rest.takeWhile isDigit = [] ∧ rest.dropWhile isDigit = rest := by
    cases rest with
    | nil => exact ⟨rfl, rfl⟩
    | cons c s => simp [(hrest c (by simp)).1]
  rw [digits, List.takeWhile_append_of_pos hall, List.dropWhile_append_of_pos hall, htake, hdrop,
    List.append_nil]
  split
  · next h => exact absurd h Nat.toDigits_ne_nil
  · rfl

theorem wholePart_toDigits (n : Nat) (hrest : Ends rest) :
    wholePart (Nat.toDigits 10 n ++ rest) = some (Nat.toDigits 10 n, rest) := by
  rw [wholePart, digits_toDigits n hrest]
  simp only [Option.bind_eq_bind, Option.bind_some]
  split
  · next c s h =>
    have hn := eq_zero_of_head_toDigits n (by rw [h]; rfl)
    rw [hn, Nat.toDigits_zero] at h
    cases h
  · rfl

theorem fractionPart_of_ends (hrest : Ends rest) : fractionPart rest = some (none, rest) := by
  unfold fractionPart
  split
  · exact absurd rfl (hrest '.' (by simp)).2.1
  · rfl

theorem exponentPart_of_ends (hrest : Ends rest) : exponentPart rest = some (none, rest) := by
  cases rest with
  | nil => rfl
  | cons c s =>
    have hc := (hrest c (by simp)).2.2
    simp [exponentPart, hc.1, hc.2]

/-- The text of an integer: its sign, if it has one, and its digits. -/
def intChars (i : Int) : List Char :=
  (if i < 0 then ['-'] else []) ++ Nat.toDigits 10 i.natAbs

theorem toList_toString_int (i : Int) : (toString i).toList = intChars i := by
  cases i with
  | ofNat n =>
    have : (toString (Int.ofNat n)) = Nat.repr n := rfl
    rw [this, intChars]
    simp [Nat.repr]
  | negSucc n =>
    have : (toString (Int.negSucc n)) = "-" ++ Nat.repr (n + 1) := rfl
    rw [this, intChars]
    simp [Nat.repr, Int.negSucc_lt_zero]

theorem numeral_intChars (i : Int) (hrest : Ends rest) :
    numeral (intChars i ++ rest)
      = some (⟨decide (i < 0), Nat.toDigits 10 i.natAbs, none, none⟩, rest) := by
  have hwhole := wholePart_toDigits i.natAbs hrest
  have hfraction := fractionPart_of_ends hrest
  have hexponent := exponentPart_of_ends hrest
  by_cases hi : i < 0
  · simp [numeral, intChars, hi, hwhole, hfraction, hexponent]
  · -- Without a sign, the text starts with a digit.
    obtain ⟨c, s, hcs⟩ := List.exists_cons_of_ne_nil (Nat.toDigits_ne_nil (b := 10) (n := i.natAbs))
    have hc : c ≠ '-' := by
      rintro rfl
      exact absurd (isDigit_of_mem_toDigits (n := i.natAbs) (c := '-') (by simp [hcs])) (by decide)
    have htext : intChars i ++ rest = c :: (s ++ rest) := by simp [intChars, hi, hcs]
    have hsign (r : List Char) := cons_ne hc (s ++ rest) r
    rw [hcs, List.cons_append] at hwhole
    simp [htext, numeral, hwhole, hfraction, hexponent, hcs, hi]

theorem pow_63 : Nat.pow 2 63 = 9223372036854775808 := rfl

theorem pow_64 : Nat.pow 2 64 = 18446744073709551616 := rfl

/-- The integers that are read back as integers. -/
def Exact (i : Int) : Prop := -(Nat.pow 2 63 : Int) ≤ i ∧ i < Nat.pow 2 64

theorem value?_intChars {i : Int} (h : Exact i) :
    Numeral.value? ⟨decide (i < 0), Nat.toDigits 10 i.natAbs, none, none⟩ = some (int i) := by
  simp only [Numeral.value?, decimal_toDigits, Option.isSome_none, Bool.or_self,
    Bool.false_eq_true, if_false]
  obtain ⟨hlower, hupper⟩ := h
  by_cases hi : i < 0
  · have hsize : 0 < i.natAbs ∧ i.natAbs ≤ Nat.pow 2 63 := by omega
    simp only [hi, decide_true, if_true, hsize, Bool.and_self, Option.some.injEq, int.injEq]
    omega
  · have hsize : i.natAbs < Nat.pow 2 64 := by omega
    simp only [hi, decide_false, Bool.false_eq_true, if_false, hsize, if_true, Option.some.injEq,
      int.injEq]
    omega

/-! ### Strings -/

theorem hex2_eq : ∀ n < 0x20, hex2 n = [(n / 16).digitChar, (n % 16).digitChar] := by decide

theorem hexValue?_digitChar : ∀ d < 16, hexValue? d.digitChar = some d := by decide

/-- A control character is read back from its escape. -/
theorem unicodeEscape_hex2 {n : Nat} (hn : n < 0x20) (rest : List Char) :
    unicodeEscape ('0' :: '0' :: (hex2 n ++ rest)) = some (Char.ofNat n, rest) := by
  have hzero : hexValue? '0' = some 0 := by decide
  have hhex : hex4 ('0' :: '0' :: (hex2 n ++ rest)) = some (n, rest) := by
    rw [hex2_eq n hn]
    simp only [List.cons_append, List.nil_append, hex4, hzero,
      hexValue?_digitChar (n / 16) (by omega), hexValue?_digitChar (n % 16) (by omega),
      Option.bind_eq_bind, Option.bind_some, Option.some.injEq, Prod.mk.injEq, and_true]
    omega
  have hscalar : scalar? n = some (Char.ofNat n) := by
    have : n < 0xd800 := by omega
    simp [scalar?, this]
  have hhigh : ¬ 0xd800 ≤ n := by omega
  simp [unicodeEscape, hhex, hscalar, hhigh]

/-- One character of a string is read back from the way it is written. -/
theorem stringBody_escapeChar (fuel : Nat) (done : List Char) (c : Char) (rest : List Char) :
    stringBody (fuel + 1) done (escapeChar c ++ rest) = stringBody fuel (c :: done) rest := by
  unfold escapeChar
  split
  iterate 7 · simp [stringBody, simpleEscape?]
  · next hquote hback _ _ _ _ _ =>
    split
    · next hc => simp [stringBody, unicodeEscape_hex2 hc rest, Char.ofNat_toNat]
    · next hc =>
      have hclosing (r : List Char) := cons_ne hquote rest r
      have hsimple (d : Char) (r : List Char) := cons_ne hback rest (d :: r)
      have hcode (r : List Char) := cons_ne hback rest ('u' :: r)
      simp [stringBody, hc, show c ≠ '\\' from hback]

theorem length_le_flatMap_escapeChar (s : List Char) :
    s.length ≤ (s.flatMap escapeChar).length := by
  have hpos (c : Char) : 1 ≤ (escapeChar c).length := by
    unfold escapeChar
    split <;> try simp
    split <;> simp
  induction s with
  | nil => simp
  | cons c s ih =>
    have := hpos c
    simp only [List.flatMap_cons, List.length_append, List.length_cons]
    omega

theorem stringBody_escape {fuel : Nat} (s done rest : List Char) (hfuel : s.length < fuel) :
    stringBody fuel done (s.flatMap escapeChar ++ '"' :: rest)
      = some (String.ofList (done.reverse ++ s), rest) := by
  induction s generalizing fuel done with
  | nil =>
    obtain ⟨fuel, rfl⟩ : ∃ n, fuel = n + 1 := ⟨fuel - 1, by simp at hfuel; omega⟩
    simp [stringBody]
  | cons c s ih =>
    obtain ⟨fuel, rfl⟩ : ∃ n, fuel = n + 1 := ⟨fuel - 1, by simp at hfuel; omega⟩
    rw [List.flatMap_cons, List.append_assoc, stringBody_escapeChar, ih _ (by simpa using hfuel)]
    simp

/-- The rest of a quoted text after its opening quote. -/
def quoteTail (s : String) : List Char := s.toList.flatMap escapeChar ++ ['"']

theorem toList_quote (s : String) : (quote s).toList = '"' :: quoteTail s := by
  simp [quote, quoteTail]

/-- A quoted text is read back after its opening quote. -/
theorem stringBody_quoteTail (s : String) (rest : List Char) :
    stringBody ((quoteTail s ++ rest).length + 1) [] (quoteTail s ++ rest) = some (s, rest) := by
  have hlength := length_le_flatMap_escapeChar s.toList
  rw [quoteTail, List.append_assoc, List.singleton_append,
    stringBody_escape s.toList [] rest (by simp only [List.length_append]; omega)]
  simp

/-! ### Values -/

/-- What the reader gives back as it was written: integers of 64 bits, no floating-point numbers,
no more nesting than `depth`, and only fields that are of interest. -/
inductive Readable : Nat → Interest → Json → Prop where
  | null {depth : Nat} {interest : Interest} : Readable depth interest null
  | bool {depth : Nat} {interest : Interest} (b : Bool) : Readable depth interest (bool b)
  | int {depth : Nat} {interest : Interest} {i : Int} (h : Exact i) :
      Readable depth interest (int i)
  | str {depth : Nat} {interest : Interest} (s : String) : Readable depth interest (str s)
  | arr {depth : Nat} {interest : Interest} {items : List Json}
      (hitems : ∀ item ∈ items, Readable depth interest.item item) :
      Readable (depth + 1) interest (arr items)
  | obj {depth : Nat} {interest : Interest} {fields : List (String × Json)}
      (inner : String → Interest)
      (hinner : ∀ field ∈ fields, interest.field? field.1 = some (inner field.1))
      (hfields : ∀ field ∈ fields, Readable depth (inner field.1) field.2) :
      Readable (depth + 1) interest (obj fields)

theorem readable_obj {depth : Nat} {interest : Interest} {fields : List (String × Json)}
    (h : ∀ field ∈ fields, ∃ inner, interest.field? field.1 = some inner ∧
      Readable depth inner field.2) : Readable (depth + 1) interest (obj fields) := by
  refine .obj (fun key => (interest.field? key).getD .all) (fun field hfield => ?_)
    fun field hfield => ?_
  · obtain ⟨inner, hinner, -⟩ := h field hfield
    simp [hinner]
  · obtain ⟨inner, hinner, hread⟩ := h field hfield
    simpa [hinner] using hread

/-- A text that is read as a value, after blanks and in front of anything that cannot go on a
numeral. The length of the text is fuel enough. -/
def Reads (depth : Nat) (interest : Interest) (text : List Char) (j : Json) : Prop :=
  ∀ (fuel : Nat) (b rest : List Char), text.length ≤ fuel → Blank b → Ends rest →
    value fuel depth interest (b ++ (text ++ rest)) = some (j, rest)

variable {depth : Nat} {interest : Interest} {gap close : List Char}

theorem items_of_reads {text : Json → List Char} (hgap : Blank gap) (hclose : Blank close)
    (fuel : Nat) (item : Json) (more done : List Json) (b tail : List Char)
    (hreads : ∀ j ∈ item :: more, Reads depth interest (text j) j) (hb : Blank b)
    (hfuel : (text item).length + (more.flatMap fun j => ',' :: (gap ++ text j)).length < fuel) :
    items fuel depth interest done
      (b ++ (text item ++
        ((more.flatMap fun j => ',' :: (gap ++ text j)) ++ (close ++ ']' :: tail))))
      = some (arr (done.reverse ++ item :: more), tail) := by
  induction more generalizing item done b fuel with
  | nil =>
    obtain ⟨fuel, rfl⟩ : ∃ n, fuel = n + 1 := ⟨fuel - 1, by omega⟩
    have hvalue := hreads item (by simp) fuel b (close ++ ']' :: tail) (by simp at hfuel; omega) hb
      (ends_blank hclose (by decide))
    simp [items, hvalue, skipBlanks_append hclose, skipBlanks_cons (c := ']') (by decide)]
  | cons next more ih =>
    obtain ⟨fuel, rfl⟩ : ∃ n, fuel = n + 1 := ⟨fuel - 1, by omega⟩
    simp only [List.flatMap_cons, List.length_append, List.length_cons] at hfuel
    have hvalue := hreads item (by simp) fuel b
      (',' :: (gap ++ (text next ++ ((more.flatMap fun j => ',' :: (gap ++ text j))
        ++ (close ++ ']' :: tail))))) (by omega) hb (ends_cons (by decide))
    have hrest := ih fuel next (item :: done) gap
      (fun j hj => hreads j (List.mem_cons_of_mem _ hj)) hgap (by omega)
    simp only [List.flatMap_cons, List.cons_append, List.append_assoc, items, hvalue,
      Option.bind_eq_bind, Option.bind_some, skipBlanks_cons (c := ',') (by decide), hrest]
    simp

/-- The text of a field. -/
def fieldText (colon : List Char) (text : Json → List Char) (field : String × Json) : List Char :=
  '"' :: (quoteTail field.1 ++ ':' :: (colon ++ text field.2))

theorem field_of_reads {key : String} {inner : Interest} {text : List Char} {j : Json}
    (hkey : interest.field? key = some inner) (hreads : Reads depth inner text j) (fuel : Nat)
    (done : List (String × Json)) (hb : Blank b) (hrest : Ends rest) (hfuel : text.length < fuel) :
    field fuel depth (interest.field? key) key done (b ++ (text ++ rest))
      = some ((key, j) :: done, rest) := by
  obtain ⟨fuel, rfl⟩ : ∃ n, fuel = n + 1 := ⟨fuel - 1, by omega⟩
  simp [hkey, field, hreads fuel b rest (by omega) hb hrest]

/-- The fields of an object are read back one by one if the text of each is. -/
theorem fields_of_reads {text : Json → List Char} {colon : List Char} {inner : String → Interest}
    (hgap : Blank gap) (hclose : Blank close) (hcolon : Blank colon)
    (fuel : Nat) (entry : String × Json) (more done : List (String × Json)) (b tail : List Char)
    (hinner : ∀ e ∈ entry :: more, interest.field? e.1 = some (inner e.1))
    (hreads : ∀ e ∈ entry :: more, Reads depth (inner e.1) (text e.2) e.2) (hb : Blank b)
    (hfuel : (fieldText colon text entry).length
      + (more.flatMap fun e => ',' :: (gap ++ fieldText colon text e)).length < fuel) :
    fields fuel depth interest done
      (b ++ (fieldText colon text entry ++ ((more.flatMap fun e =>
        ',' :: (gap ++ fieldText colon text e)) ++ (close ++ '\x7d' :: tail))))
      = some (obj (done.reverse ++ entry :: more), tail) := by
  induction more generalizing entry done b fuel with
  | nil =>
    obtain ⟨fuel, rfl⟩ : ∃ n, fuel = n + 1 := ⟨fuel - 1, by omega⟩
    have hfield := field_of_reads (hinner entry (by simp)) (hreads entry (by simp)) fuel done hcolon
      (ends_blank (s := tail) hclose (c := '\x7d') (by decide))
      (by simp [fieldText] at hfuel; omega)
    simp only [fields, fieldText, skipBlanks_append hb, List.cons_append, List.append_assoc]
    rw [skipBlanks_cons (by decide)]
    simp only [stringBody_quoteTail, Option.bind_eq_bind, Option.bind_some]
    rw [skipBlanks_cons (by decide)]
    simp [hfield, skipBlanks_append hclose, skipBlanks_cons (c := '\x7d') (by decide)]
  | cons next more ih =>
    obtain ⟨fuel, rfl⟩ : ∃ n, fuel = n + 1 := ⟨fuel - 1, by omega⟩
    simp only [List.flatMap_cons, List.length_append, List.length_cons] at hfuel
    have hfield := field_of_reads (hinner entry (by simp)) (hreads entry (by simp)) fuel done hcolon
      (ends_cons (s := gap ++ (fieldText colon text next ++ ((more.flatMap fun e =>
        ',' :: (gap ++ fieldText colon text e)) ++ (close ++ '\x7d' :: tail)))) (c := ',')
        (by decide)) (by simp [fieldText] at hfuel; omega)
    have hrest := ih fuel next (entry :: done) gap
      (fun e he => hinner e (List.mem_cons_of_mem _ he))
      (fun e he => hreads e (List.mem_cons_of_mem _ he)) hgap (by omega)
    rw [fieldText]
    simp only [fields, skipBlanks_append hb, List.flatMap_cons, List.cons_append, List.append_assoc]
    rw [skipBlanks_cons (by decide)]
    simp only [stringBody_quoteTail, Option.bind_eq_bind, Option.bind_some]
    rw [skipBlanks_cons (by decide)]
    simp only [hfield, Option.bind_some]
    rw [skipBlanks_cons (by decide)]
    simp only [hrest]
    simp

end Reader

/-! ### Layout -/

/-- What stands between the parts of a document at a given indentation. -/
def gap (pretty : Bool) (indent : Nat) : List Char :=
  if pretty then '\n' :: List.replicate (2 * indent) ' ' else []

/-- What stands between the colon of a field and its value. -/
def colonGap (pretty : Bool) : List Char := if pretty then [' '] else []

theorem blank_gap (pretty : Bool) (indent : Nat) : Reader.Blank (gap pretty indent) := by
  cases pretty with
  | false => exact Reader.blank_nil
  | true => exact Reader.blank_newline _

theorem blank_colonGap (pretty : Bool) : Reader.Blank (colonGap pretty) := by
  cases pretty <;> simp [colonGap, Reader.Blank, Reader.isBlank]

theorem intercalate_cons (sep part : List Char) (parts : List (List Char)) :
    sep.intercalate (part :: parts) = part ++ parts.flatMap (sep ++ ·) := by
  induction parts generalizing part with
  | nil => simp
  | cons next parts ih => rw [List.intercalate_cons_cons, ih]; simp

theorem toList_bracket (pretty : Bool) (indent : Nat) (opening closing part : String)
    (parts : List String) :
    (bracket pretty indent opening closing (part :: parts)).toList
      = opening.toList ++ (gap pretty (indent + 1) ++ (part.toList
        ++ ((parts.flatMap fun p => ',' :: (gap pretty (indent + 1) ++ p.toList))
          ++ (gap pretty indent ++ closing.toList)))) := by
  cases pretty with
  | false | true =>
    simp [bracket, gap, String.toList_intercalate, intercalate_cons, List.flatMap_map]

theorem renderItems_eq (pretty : Bool) (indent : Nat) (items : List Json) :
    renderItems pretty indent items = items.map (render pretty indent) := by
  induction items with
  | nil => rfl
  | cons item items ih => exact congrArg (render pretty indent item :: ·) ih

theorem renderFields_eq (pretty : Bool) (indent : Nat) (fields : List (String × Json)) :
    renderFields pretty indent fields = fields.map fun field =>
      quote field.1 ++ (if pretty then ": " else ":") ++ render pretty indent field.2 := by
  induction fields with
  | nil => rfl
  | cons field fields ih => exact congrArg (_ :: ·) ih

/-- The characters of a value. -/
def chars (pretty : Bool) (indent : Nat) (j : Json) : List Char := (render pretty indent j).toList

section

variable (pretty : Bool) (indent : Nat)

theorem chars_int (i : Int) : chars pretty indent (int i) = Reader.intChars i :=
  Reader.toList_toString_int i

theorem chars_str (s : String) : chars pretty indent (str s) = '"' :: Reader.quoteTail s :=
  Reader.toList_quote s

theorem chars_arr_nil : chars pretty indent (arr []) = ['[', ']'] := by
  have hrender : render pretty indent (arr []) = "[" ++ "]" := rfl
  simp [chars, hrender]

theorem chars_obj_nil : chars pretty indent (obj []) = ['\x7b', '\x7d'] := by
  have hrender : render pretty indent (obj []) = "\x7b" ++ "\x7d" := rfl
  simp [chars, hrender]

end

theorem chars_arr_cons (pretty : Bool) (indent : Nat) (item : Json) (items : List Json) :
    chars pretty indent (arr (item :: items))
      = '[' :: (gap pretty (indent + 1) ++ (chars pretty (indent + 1) item
        ++ ((items.flatMap fun j => ',' :: (gap pretty (indent + 1) ++ chars pretty (indent + 1) j))
          ++ (gap pretty indent ++ [']'])))) := by
  have hrender : render pretty indent (arr (item :: items))
      = bracket pretty indent "[" "]" (renderItems pretty (indent + 1) (item :: items)) := rfl
  simp [chars, hrender, renderItems_eq, toList_bracket, List.flatMap_map]

theorem toList_field (pretty : Bool) (indent : Nat) (field : String × Json) :
    (quote field.1 ++ (if pretty then ": " else ":") ++ render pretty indent field.2).toList
      = Reader.fieldText (colonGap pretty) (chars pretty indent) field := by
  cases pretty <;> simp [Reader.fieldText, Reader.toList_quote, colonGap, chars]

theorem chars_obj_cons (pretty : Bool) (indent : Nat) (field : String × Json)
    (fields : List (String × Json)) :
    chars pretty indent (obj (field :: fields))
      = '\x7b' :: (gap pretty (indent + 1)
        ++ (Reader.fieldText (colonGap pretty) (chars pretty (indent + 1)) field
        ++ ((fields.flatMap fun e => ',' :: (gap pretty (indent + 1)
            ++ Reader.fieldText (colonGap pretty) (chars pretty (indent + 1)) e))
          ++ (gap pretty indent ++ ['\x7d'])))) := by
  have hrender : render pretty indent (obj (field :: fields))
      = bracket pretty indent "\x7b" "\x7d" (renderFields pretty (indent + 1) (field :: fields)) :=
    rfl
  rw [chars, hrender, renderFields_eq, List.map_cons, toList_bracket, toList_field]
  simp only [List.flatMap_map, toList_field]
  rfl

namespace Reader

variable {j : Json}

/-- An integer starts with a sign or a digit. -/
theorem exists_intChars (i : Int) :
    ∃ c s, intChars i = c :: s ∧ (c = '-' ∨ isDigit c = true) := by
  by_cases hi : i < 0
  · exact ⟨'-', Nat.toDigits 10 i.natAbs, by simp [intChars, hi], .inl rfl⟩
  · obtain ⟨c, s, hcs⟩ := List.exists_cons_of_ne_nil (Nat.toDigits_ne_nil (b := 10) (n := i.natAbs))
    exact ⟨c, s, by simp [intChars, hi, hcs],
      .inr (isDigit_of_mem_toDigits (n := i.natAbs) (by simp [hcs]))⟩

/-- A character that starts a number starts nothing else. -/
theorem numeric_ne {c : Char} (hc : c = '-' ∨ isDigit c = true) {d : Char}
    (hd : d ≠ '-' ∧ isDigit d = false) : c ≠ d := by
  rintro rfl
  rcases hc with hc | hc
  · exact hd.1 hc
  · exact absurd (hd.2.symm.trans hc) (by decide)

theorem isBlank_of_numeric {c : Char} (hc : c = '-' ∨ isDigit c = true) : isBlank c = false := by
  simp [isBlank, numeric_ne hc (d := ' ') (by decide), numeric_ne hc (d := '\n') (by decide),
    numeric_ne hc (d := '\t') (by decide), numeric_ne hc (d := '\r') (by decide)]

theorem value_skipBlanks (fuel depth : Nat) (interest : Interest) (s : List Char) :
    value fuel depth interest (skipBlanks s) = value fuel depth interest s := by
  have hskip : skipBlanks (skipBlanks s) = skipBlanks s := List.dropWhile_idempotent _ _
  cases fuel with
  | zero => simp only [value]
  | succ fuel => simp only [value, hskip]

/-- Elements are read after the opening bracket, since none starts with a closing one. -/
theorem value_of_items {fuel depth : Nat} {interest : Interest} {s : List Char}
    {r : Json × List Char} (h : items fuel depth interest.item [] s = some r) :
    value (fuel + 1) (depth + 1) interest ('[' :: s) = some r := by
  cases fuel with
  | zero => simp [items] at h
  | succ fuel =>
    simp only [items, ← value_skipBlanks fuel depth interest.item s] at h
    simp only [value, skipBlanks_cons (c := '[') (by decide)]
    split
    next rest hclosing =>
      rw [hclosing] at h
      cases fuel <;> simp [value, skipBlanks, isBlank, numeral, wholePart, digits, isDigit] at h
    next => simpa only [items] using h

theorem value_intChars {i : Int} (hi : Exact i) {rest : List Char} (hrest : Ends rest)
    (fuel depth : Nat) (interest : Interest) :
    value (fuel + 1) depth interest (intChars i ++ rest) = some (int i, rest) := by
  obtain ⟨c, s, hcs, hc⟩ := exists_intChars i
  have hnumeral := numeral_intChars i hrest
  rw [hcs, List.cons_append] at hnumeral ⊢
  have hstring : c = '"' → False := numeric_ne hc (by decide)
  have harray : c = '[' → False := numeric_ne hc (by decide)
  have hobject : c = '\x7b' → False := numeric_ne hc (by decide)
  simp [value, skipBlanks_cons (isBlank_of_numeric hc), hnumeral, value?_intChars hi,
    numeric_ne hc (d := 't') (by decide), numeric_ne hc (d := 'f') (by decide),
    numeric_ne hc (d := 'n') (by decide)]

/-- Blanks in front and a first step of fuel need no attention. -/
theorem reads_of_value {text : List Char} (hne : text ≠ [])
    (h : ∀ fuel rest, text.length ≤ fuel + 1 → Ends rest →
      value (fuel + 1) depth interest (text ++ rest) = some (j, rest)) :
    Reads depth interest text j := by
  intro fuel b rest hfuel hb hrest
  have hpos : 0 < text.length := List.length_pos_iff.2 hne
  obtain ⟨fuel, rfl⟩ : ∃ n, fuel = n + 1 := ⟨fuel - 1, by omega⟩
  rw [← value_skipBlanks, skipBlanks_append hb, value_skipBlanks]
  exact h fuel rest hfuel hrest

variable (pretty : Bool) {indent : Nat}

theorem isPrefixOf?_append (word rest : List Char) :
    word.isPrefixOf? (word ++ rest) = some rest := by
  induction word with
  | nil => rfl
  | cons c word ih =>
    have hstep : (c :: word).isPrefixOf? (c :: (word ++ rest))
        = if c == c then word.isPrefixOf? (word ++ rest) else none := rfl
    rw [List.cons_append, hstep, beq_self_eq_true, if_pos rfl, ih]

theorem skipWord_append (word : String) (rest : List Char) :
    skipWord word (word.toList ++ rest) = some rest :=
  isPrefixOf?_append ..

/-- A word is read as the value that it stands for. -/
theorem reads_word (word : String) (hne : word.toList ≠ [])
    (h : ∀ fuel rest, value (fuel + 1) depth interest (word.toList ++ rest) =
      keyword word j (word.toList ++ rest)) : Reads depth interest word.toList j := by
  refine reads_of_value hne fun fuel rest _ _ => ?_
  rw [h, keyword, skipWord_append, Option.map_some]

theorem reads_bool (b : Bool) : Reads depth interest (chars pretty indent (bool b)) (bool b) := by
  cases b with
  | false => exact reads_word "false" (by simp) fun _ _ => by simp [value, skipBlanks, isBlank]
  | true => exact reads_word "true" (by simp) fun _ _ => by simp [value, skipBlanks, isBlank]

theorem reads_null : Reads depth interest (chars pretty indent null) null :=
  reads_word "null" (by simp) fun _ _ => by simp [value, skipBlanks, isBlank]

theorem reads_str (s : String) : Reads depth interest (chars pretty indent (str s)) (str s) := by
  rw [chars_str]
  refine reads_of_value (by simp) fun fuel rest _ _ => ?_
  simp only [List.cons_append, value, skipBlanks_cons (c := '"') (by decide), stringBody_quoteTail]
  rfl

theorem reads_arr {items : List Json}
    (hreads : ∀ j ∈ items, Reads depth interest.item (chars pretty (indent + 1) j) j) :
    Reads (depth + 1) interest (chars pretty indent (arr items)) (arr items) := by
  cases items with
  | nil =>
    rw [chars_arr_nil]
    refine reads_of_value (by simp) fun fuel rest _ _ => ?_
    simp [value, skipBlanks, isBlank]
  | cons item items =>
    rw [chars_arr_cons]
    refine reads_of_value (by simp) fun fuel rest hfuel _ => ?_
    simp only [List.length_cons, List.length_append, List.length_nil] at hfuel
    have hgap := blank_gap pretty (indent + 1)
    have hitems := items_of_reads hgap (blank_gap pretty indent) fuel item items [] _ rest hreads
      hgap (by omega)
    simpa using value_of_items hitems

theorem reads_obj {fields : List (String × Json)} {inner : String → Interest}
    (hinner : ∀ field ∈ fields, interest.field? field.1 = some (inner field.1))
    (hreads : ∀ field ∈ fields,
      Reads depth (inner field.1) (chars pretty (indent + 1) field.2) field.2) :
    Reads (depth + 1) interest (chars pretty indent (obj fields)) (obj fields) := by
  cases fields with
  | nil =>
    rw [chars_obj_nil]
    refine reads_of_value (by simp) fun fuel rest _ _ => ?_
    simp [value, skipBlanks, isBlank]
  | cons field fields =>
    rw [chars_obj_cons]
    refine reads_of_value (by simp) fun fuel rest hfuel _ => ?_
    simp only [List.length_cons, List.length_append, List.length_nil] at hfuel
    have hfields := fields_of_reads (blank_gap pretty (indent + 1)) (blank_gap pretty indent)
      (blank_colonGap pretty) fuel field fields [] [] rest hinner hreads blank_nil (by omega)
    simp only [List.nil_append, fieldText, List.cons_append] at hfields
    simp only [List.cons_append, List.append_assoc, List.nil_append, fieldText, value,
      skipBlanks_cons (c := '\x7b') (by decide), skipBlanks_append (blank_gap pretty (indent + 1)),
      skipBlanks_cons (c := '"') (by decide)]
    simpa using hfields

/-- The reader inverts the printer. -/
theorem reads_chars (h : Readable depth interest j) (indent : Nat) :
    Reads depth interest (chars pretty indent j) j := by
  induction h generalizing indent with
  | null => exact reads_null pretty
  | bool b => exact reads_bool pretty b
  | @int depth interest i hi =>
    rw [chars_int]
    obtain ⟨c, s, hcs, -⟩ := exists_intChars i
    exact reads_of_value (by simp [hcs]) fun fuel rest _ hrest => value_intChars hi hrest ..
  | str s => exact reads_str pretty s
  | arr _ ih => exact reads_arr pretty fun j hj => ih j hj _
  | obj inner hinner hfields ih =>
    exact reads_obj pretty hinner fun field hfield => ih field hfield _

end Reader

/-- A document is read back as it was written, on one line or on many. -/
theorem parseWithin_render {depth : Nat} {interest : Interest} {j : Json}
    (h : Reader.Readable depth interest j) (pretty : Bool) :
    parseWithin depth interest (render pretty 0 j) = some j := by
  have hreads := Reader.reads_chars pretty h 0 (3 * (chars pretty 0 j).length + 3) [] [] (by omega)
    Reader.blank_nil Reader.ends_nil
  rw [List.nil_append, List.append_nil, chars] at hreads
  simp [parseWithin, hreads, Reader.skipBlanks]

end Scoping.Json
