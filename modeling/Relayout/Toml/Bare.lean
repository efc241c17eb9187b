import Relayout.Toml.Characters
import Relayout.Toml.Value

/-!
# Values without quotes

Truth values, whole numbers in four bases, numbers with fractions or exponents, dates and times.
What kind of value a text is shows at its beginning. Underscores stand between digits, and a decimal
number does not begin with a zero that more digits follow. Whether what is written as a whole number
is one only matters to who reads the number.
-/

namespace Relayout.Toml.Bare

def number (base : Nat) (digits : Text) : Nat :=
  digits.foldl (fun n c => base * n + (Text.hexValue? c).getD 0) 0

def isDigitIn (base : Nat) (c : Char) : Bool := (Text.hexValue? c).any (· < base)

/-- Whether underscores have a digit on both sides. After the last one only the first character is
looked at, and a single character before the first one may be a sign. -/
def areUnderscoresPlaced (isDigit : Char → Bool) (s : Text) : Bool :=
  match Text.pieces '_' s with
  | first :: second :: others =>
    (first.length = 1 || first.getLast?.any isDigit)
      && (second :: others).all (·.head?.any isDigit)
      && (second :: others).dropLast.all (·.getLast?.any isDigit)
  | _ => true

def withoutUnderscores (s : Text) : Text := s.filter (· ≠ '_')

def sign : Text → Bool × Text
  | '-' :: s => (true, s)
  | '+' :: s => (false, s)
  | s => (false, s)

def inBase? (base : Nat) (digits : Text) : Option Nat :=
  if digits ≠ [] ∧ digits.all (isDigitIn base) then some (number base digits) else none

def decimal? (s : Text) : Option Int :=
  let (negative, digits) := sign s
  (inBase? 10 digits).map fun n => if negative then -(n : Int) else n

/-- A whole number after the mark for its base; the digits may be missing. -/
def radixed? (base : Nat) (s : Text) : Option Value :=
  if (withoutUnderscores s).all (isDigitIn base) ∧ areUnderscoresPlaced (isDigitIn base) s then
    some (.integer ((inBase? base (withoutUnderscores s)).map Int.ofNat))
  else none

def integer? (s unsigned : Text) : Option Value :=
  if unsigned.length > 1 ∧ unsigned.head? = some '0' then none
  else if areUnderscoresPlaced (isDigitIn 16) s then
    some (.integer (decimal? (withoutUnderscores s)))
  else none

/-- Whether `digits` times ten to the power of `exponent` is less than what is rounded to more
than the greatest number of double precision. -/
def isInRange (digits : Nat) (exponent : Int) : Bool :=
  let count := (Nat.toDigits 10 digits).length
  if digits = 0 ∨ count + exponent < 300 then true
  else if count + exponent > 400 then false
  else if 0 ≤ exponent then digits * Nat.pow 10 exponent.toNat < Nat.pow 2 1024 - Nat.pow 2 970
  else digits < (Nat.pow 2 1024 - Nat.pow 2 970) * Nat.pow 10 (-exponent).toNat

/-- The digits at the front of a text, among which underscores may stand, and the text after
them. -/
def readDigits? (zeroInFront : Bool) (s : Text) : Option (Text × Text) :=
  let run := s.takeWhile fun c => c.isDigit || c = '_'
  let digits := withoutUnderscores run
  if digits = [] ∨ (¬ zeroInFront ∧ digits.length > 1 ∧ run.head? = some '0') then none
  else some (digits, s.drop run.length)

def readFraction? : Text → Option (Text × Text)
  | '.' :: s => readDigits? true s
  | s => some ([], s)

def readExponent? : Text → Option (Int × Text)
  | [] => some (0, [])
  | c :: s =>
    if c = 'e' ∨ c = 'E' then
      let (negative, s) := sign s
      (readDigits? true s).map fun (digits, s) =>
        (if negative then -(number 10 digits : Int) else number 10 digits, s)
    else some (0, c :: s)

def float? (s unsigned : Text) : Option Value := do
  let (whole, rest) ← readDigits? false unsigned
  let (fraction, rest) ← readFraction? rest
  let (exponent, rest) ← readExponent? rest
  if rest = [] ∧ areUnderscoresPlaced (isDigitIn 10) s then
    return .float (isInRange (number 10 (whole ++ fraction)) (exponent - fraction.length))
  else none

def fixed? (n : Nat) (s : Text) : Option (Nat × Text) :=
  let digits := s.take n
  if digits.length = n ∧ digits.all Char.isDigit then some (number 10 digits, s.drop n) else none

def isLeapYear (year : Nat) : Bool :=
  year % 4 = 0 && (year % 100 ≠ 0 || year % 400 = 0)

def daysIn (year month : Nat) : Nat :=
  match month with
  | 2 => if isLeapYear year then 29 else 28
  | 4 | 6 | 9 | 11 => 30
  | _ => 31

def afterDate? (s : Text) : Option Text := do
  let (year, s) ← fixed? 4 s
  let '-' :: s := s | none
  let (month, s) ← fixed? 2 s
  let '-' :: s := s | none
  let (day, s) ← fixed? 2 s
  if 1 ≤ month ∧ month ≤ 12 ∧ 1 ≤ day ∧ day ≤ daysIn year month then return s else none

def afterMinutes? (s : Text) : Option Text := do
  let (hour, s) ← fixed? 2 s
  let ':' :: s := s | none
  let (minute, s) ← fixed? 2 s
  if hour ≤ 23 ∧ minute ≤ 59 then return s else none

/-- The text after a time, whose seconds may be left out. -/
def afterTime? (s : Text) : Option Text := do
  let s ← afterMinutes? s
  match s with
  | ':' :: s => do
    let (second, s) ← fixed? 2 s
    if second > 60 then none
    match s with
    | '.' :: s => do
      let fraction := s.takeWhile Char.isDigit
      if fraction = [] then none
      return s.drop fraction.length
    | s => return s
  | s => return s

def afterOffset? : Text → Option Text
  | 'Z' :: s | 'z' :: s => some s
  | '+' :: s | '-' :: s => afterMinutes? s
  | s => some s

def isMoment (s : Text) : Bool :=
  match afterDate? s with
  | some [] => true
  | some (c :: s) =>
    (c = 'T' || c = 't' || c = ' ') && ((afterTime? s).bind afterOffset?) = some []
  | none => afterTime? s = some []

def numeric? (s unsigned : Text) : Option Value :=
  let rest := unsigned.dropWhile Char.isDigit
  match rest with
  | '-' :: _ | ':' :: _ => if isMoment s then some .moment else none
  | rest =>
    if rest.any fun c => c = '.' || c = 'e' || c = 'E' then float? s unsigned
    else if rest = [] ∨ rest.head? = some '_' then integer? s unsigned
    else none

def value? (s : Text) : Option Value :=
  if s = "true".toList then some (.boolean true)
  else if s = "false".toList then some (.boolean false)
  else
    let unsigned := (sign s).2
    if unsigned = "inf".toList ∨ unsigned = "nan".toList then some (.float true)
    else match s, unsigned with
      | '0' :: 'x' :: digits, _ => radixed? 16 digits
      | '0' :: 'o' :: digits, _ => radixed? 8 digits
      | '0' :: 'b' :: digits, _ => radixed? 2 digits
      | '_' :: _, _ => none
      | _, c :: _ => if c.isDigit ∨ c = '_' then numeric? s unsigned else none
      | _, [] => none

def isPart (c : Char) : Bool :=
  !([' ', '\t', '\r', '\n', '#', '=', ',', '[', ']', '\x7b', '\x7d'].contains c)

/-- Reads a value without quotes. A date and a time may be separated by a space. -/
def read? (s : Text) : Option (Value × Text) :=
  let part := s.takeWhile isPart
  let rest := s.dropWhile isPart
  match rest with
  | ' ' :: c :: after =>
    if c.isDigit ∧ afterDate? part = some [] then
      let time := (c :: after).takeWhile isPart
      (value? (part ++ ' ' :: time)).map fun v => (v, (c :: after).dropWhile isPart)
    else (value? part).map fun v => (v, rest)
  | _ => (value? part).map fun v => (v, rest)

end Relayout.Toml.Bare
