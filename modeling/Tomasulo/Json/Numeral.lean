import Tomasulo.Digits
import Tomasulo.Json.Reader

/-!
# Json/Numeral — numbers as they are written

A `Numeral` keeps the digits of a number.  `Numeral.scan` reads one by the grammar alone,
`Numeral.read` also refuses a number too large for a double.  Only a plain run of digits is a
natural number (`Numeral.toNat?`): a sign, a fraction or an exponent makes it something else,
whatever its value.
-/

namespace Tomasulo.Json

/-- A number's digits; there is a point if and only if there is a fraction. -/
structure Numeral where
  negative : Bool := false
  whole : List Char
  fraction : List Char := []
  exponent : Option Int := none
deriving DecidableEq, Repr

namespace Numeral

/-- The numeral of a natural number. -/
def ofNat (n : Nat) : Numeral :=
  { whole := Nat.toDigits 10 n }

/-- The number a plain run of digits stands for. -/
def toNat? (n : Numeral) : Option Nat :=
  if n.negative || !n.fraction.isEmpty || n.exponent.isSome then
    none
  else
    some (Nat.ofDigitChars 10 n.whole 0)

/-- The characters of a numeral. -/
def chars (n : Numeral) : List Char :=
  (if n.negative then ['-'] else []) ++ n.whole ++
    (if n.fraction.isEmpty then [] else '.' :: n.fraction) ++
    (match n.exponent with
      | none => []
      | some e => 'e' :: (toString e).toList)

/-- A natural number is read off its own numeral. -/
@[simp] theorem toNat?_ofNat (n : Nat) : (ofNat n).toNat? = some n := by
  simp [toNat?, ofNat]

/-! ## Size -/

/-- Appends digits to a significand for as long as it fits 64 bits; the digits that do not fit are
left over. -/
def absorb (significand : Nat) : List Char → Nat × List Char
  | [] => (significand, [])
  | d :: ds =>
    let grown := significand * 10 + (d.toNat - '0'.toNat)
    if grown < UInt64.size then absorb grown ds else (significand, d :: ds)

/-- The numeral as a 64-bit significand and a power of ten.  Whole digits that do not fit raise the
power, fraction digits that do not fit are dropped. -/
def scaled (n : Numeral) : Nat × Int :=
  let (s, left) := absorb 0 n.whole
  let (s, dropped) := absorb s n.fraction
  (s, (left.length : Int) - (n.fraction.length - dropped.length : Nat) + n.exponent.getD 0)

/-- The numeral fits a double: rounding its significand and its power of ten to doubles first, their
product rounds to a finite one. -/
def isFinite (n : Numeral) : Bool :=
  let (s, e) := n.scaled
  let limit := Nat.pow 2 1024 - Nat.pow 2 970
  s == 0 || e < 0 || e ≤ 308 && nearestDouble s * nearestDouble (Nat.pow 10 e.toNat) < limit

/-! ## Reading -/

/-- The digits at the front of the text. -/
def digits : Reader (List Char) := fun cs =>
  .ok (cs.takeWhile Char.isDigit, cs.dropWhile Char.isDigit)

/-- At least one digit. -/
def someDigits : Reader (List Char) := do
  let ds ← digits
  if ds.isEmpty then
    throw (if (← get).isEmpty then .truncated else .malformed)
  return ds

/-- Whether the text goes on with one of these characters, which is then taken. -/
def taking (cs : List Char) : Reader Bool := do
  match (← get).head? with
  | none => return false
  | some c =>
    if cs.contains c then
      Reader.advance
      return true
    else
      return false

/-- The digits before the point; a zero stands alone. -/
def wholePart : Reader (List Char) := do
  let ds ← someDigits
  if ds.head? = some '0' && 1 < ds.length then
    throw .malformed
  return ds

/-- A point and the digits after it, or nothing. -/
def fractionPart : Reader (List Char) := do
  if ← taking ['.'] then someDigits else return []

/-- A power of ten, or nothing. -/
def exponentPart : Reader (Option Int) := do
  if ← taking ['e', 'E'] then
    let negative ← taking ['-']
    unless negative do
      let _ ← taking ['+']
    let n := Nat.ofDigitChars 10 (← someDigits) 0
    return some (if negative then -(n : Int) else n)
  else
    return none

/-- A number of any size. -/
def scan : Reader Numeral := do
  let negative ← taking ['-']
  let whole ← wholePart
  let fraction ← fractionPart
  let exponent ← exponentPart
  return { negative, whole, fraction, exponent }

/-- **A number that fits a double.** -/
def read : Reader Numeral := do
  let n ← scan
  if n.isFinite then return n else throw .malformed

/-- Takes a number that nobody wants: it may have any size, and all that is wrong with it makes the
text malformed. -/
def skip : Reader Unit := fun cs =>
  match scan cs with
  | .ok (_, rest) => .ok ((), rest)
  | .error _ => .error .malformed

end Numeral

end Tomasulo.Json
