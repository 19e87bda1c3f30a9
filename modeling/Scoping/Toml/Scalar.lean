/-!
# Numbers, truth values and dates

Recognizers for the scalar values that carry no setting. They only decide whether a word is well
formed.
-/

namespace Scoping.Toml.Scalar

def isDigit (c : Char) : Bool := '0' ≤ c && c ≤ '9'

def isHexDigit (c : Char) : Bool :=
  isDigit c || ('a' ≤ c && c ≤ 'f') || ('A' ≤ c && c ≤ 'F')

def isOctDigit (c : Char) : Bool := '0' ≤ c && c ≤ '7'

def isBinDigit (c : Char) : Bool := c == '0' || c == '1'

/-- Digits with single underscores between them: the digits alone, or nothing. -/
def grouped? (ok : Char → Bool) : List Char → Option (List Char)
  | [] => none
  | [c] => if ok c then some [c] else none
  | c :: '_' :: rest => if ok c then (grouped? ok rest).map (c :: ·) else none
  | c :: rest => if ok c then (grouped? ok rest).map (c :: ·) else none

def valueIn (base : Nat) (digits : List Char) : Nat :=
  digits.foldl
    (fun n c =>
      let d :=
        if isDigit c then c.toNat - '0'.toNat
        else if 'a' ≤ c then c.toNat - 'a'.toNat + 10
        else c.toNat - 'A'.toNat + 10
      n * base + d) 0

/-- Strips a sign; the first part tells whether it was a minus. -/
def unsigned : List Char → Bool × List Char
  | '-' :: rest => (true, rest)
  | '+' :: rest => (false, rest)
  | s => (false, s)

/-- Decimal digits without a leading zero. -/
def plainDigits? (s : List Char) : Option (List Char) :=
  match grouped? isDigit s with
  | some ('0' :: _ :: _) => none
  | found => found

/-- Is the word an integer of 64 bits? -/
def isInteger (s : List Char) : Bool :=
  match s with
  | '0' :: 'x' :: rest => (grouped? isHexDigit rest).any fun d => valueIn 16 d < Nat.pow 2 63
  | '0' :: 'o' :: rest => (grouped? isOctDigit rest).any fun d => valueIn 8 d < Nat.pow 2 63
  | '0' :: 'b' :: rest => (grouped? isBinDigit rest).any fun d => valueIn 2 d < Nat.pow 2 63
  | _ =>
    let (negative, rest) := unsigned s
    (plainDigits? rest).any fun d => valueIn 10 d < Nat.pow 2 63 + if negative then 1 else 0

/-- Numbers round to infinity from half a step above the largest finite floating-point number on. -/
def infinityBound : Nat := (Nat.pow 2 54 - 1) * Nat.pow 2 970

/-- Does `significand * 10 ^ exponent` round to infinity? The number of digits alone decides it for
all but numbers of 309 digits before the point. -/
def roundsToInfinity (significand : Nat) (exponent : Int) : Bool :=
  let whole : Int := (Nat.toDigits 10 significand).length + exponent
  if significand = 0 || whole < 309 then false
  else if 309 < whole then true
  else infinityBound * Nat.pow 10 (-exponent).toNat ≤ significand * Nat.pow 10 exponent.toNat

/-- The parts of a number with a fraction or an exponent. -/
structure Numeral where
  negative : Bool
  whole : List Char
  fraction : List Char
  exponent : Int

def isExponentMark (c : Char) : Bool := c == 'e' || c == 'E'

/-- The exponent at the end of a number, if it has one. -/
def exponent? : List Char → Option Int
  | [] => some 0
  | _ :: s =>
    let (negative, digits) := unsigned s
    (grouped? isDigit digits).map fun d =>
      if negative then -(valueIn 10 d : Int) else valueIn 10 d

/-- The fraction of a number, if it has one. -/
def fraction? : List Char → Option (List Char)
  | [] => some []
  | _ :: s => grouped? isDigit s

/-- A number with a fraction or an exponent. -/
def numeral? (s : List Char) : Option Numeral := do
  let (negative, body) := unsigned s
  let mantissa := body.takeWhile fun c => !isExponentMark c
  let whole ← plainDigits? (mantissa.takeWhile (· != '.'))
  let fraction ← fraction? (mantissa.dropWhile (· != '.'))
  let exponent ← exponent? (body.dropWhile fun c => !isExponentMark c)
  if body.any fun c => c == '.' || isExponentMark c then
    some { negative, whole, fraction, exponent }
  else none

/-- Is the number too large for a floating-point number? Only positive numbers are refused. -/
def Numeral.isTooLarge (n : Numeral) : Bool :=
  !n.negative &&
    roundsToInfinity (valueIn 10 (n.whole ++ n.fraction)) (n.exponent - n.fraction.length)

/-- Is the word a number with a fraction or an exponent, or a special one? -/
def isFloat (s : List Char) : Bool :=
  let body := (unsigned s).2
  body == ['i', 'n', 'f'] || body == ['n', 'a', 'n'] || (numeral? s).any fun n => !n.isTooLarge

/-- A number of exactly `width` digits. -/
def fixed? (width : Nat) (s : List Char) : Option (Nat × List Char) :=
  let digits := s.take width
  if digits.length = width && digits.all isDigit then some (valueIn 10 digits, s.drop width)
  else none

def daysIn (year month : Nat) : Nat :=
  if month = 2 then
    if (year % 4 = 0 && year % 100 ≠ 0) || year % 400 = 0 then 29 else 28
  else if month = 4 || month = 6 || month = 9 || month = 11 then 30
  else 31

/-- A calendar date in front of the rest. -/
def date? (s : List Char) : Option (List Char) := do
  let (year, s) ← fixed? 4 s
  let (month, s) ← match s with
    | '-' :: s => fixed? 2 s
    | _ => none
  let (day, s) ← match s with
    | '-' :: s => fixed? 2 s
    | _ => none
  if 1 ≤ month && month ≤ 12 && 1 ≤ day && day ≤ daysIn year month then some s else none

/-- A time of day in front of the rest. -/
def time? (s : List Char) : Option (List Char) := do
  let (hour, s) ← fixed? 2 s
  let (minute, s) ← match s with
    | ':' :: s => fixed? 2 s
    | _ => none
  let (second, s) ← match s with
    | ':' :: s => fixed? 2 s
    | _ => none
  let s ← match s with
    | '.' :: c :: s => if isDigit c then some (s.dropWhile isDigit) else none
    | _ => some s
  if hour ≤ 23 && minute ≤ 59 && second ≤ 60 then some s else none

/-- The offset at the end of a date and time. -/
def isOffset (s : List Char) : Bool :=
  match s with
  | [] => true
  | ['Z'] => true
  | ['z'] => true
  | c :: rest =>
    (c == '+' || c == '-') &&
      match fixed? 2 rest with
      | some (hour, ':' :: rest) =>
        match fixed? 2 rest with
        | some (minute, []) => hour ≤ 23 && minute ≤ 59
        | _ => false
      | _ => false

/-- Is the word a date, a time, or both? -/
def isDateTime (s : List Char) : Bool :=
  match time? s with
  | some [] => true
  | _ =>
    match date? s with
    | some [] => true
    | some (c :: rest) =>
      (c == 'T' || c == 't' || c == ' ') && (time? rest).any isOffset
    | none => false

/-- Is the word a number or a truth value? -/
def isScalar (s : List Char) : Bool :=
  s == ['t', 'r', 'u', 'e'] || s == ['f', 'a', 'l', 's', 'e'] || isInteger s || isFloat s

end Scoping.Toml.Scalar
