/-!
# Digits — numbers as text: hexadecimal words and fixed decimal places

Natural numbers print in base ten by `Nat.repr`.  What the reports need beyond that is here:
hexadecimal words, and doubles cut to a fixed number of decimal places, a half going to the even
neighbour (`roundDiv`).
-/

namespace Tomasulo

/-! ## Integers -/

/-- A word in lower-case hexadecimal after `0x`, with no leading zeros. -/
def hex (n : Nat) : String :=
  "0x" ++ String.ofList (Nat.toDigits 16 n)

/-- **Rounded division**: the integer nearest to `num / den`, the even one of two equally near. -/
def roundDiv (num den : Nat) : Nat :=
  let q := num / den
  let r := num % den
  if 2 * r < den then q
  else if den < 2 * r then q + 1
  else if q % 2 = 0 then q
  else q + 1

/-- A natural number rounded to 53 significant bits, the double nearest to it. -/
def nearestDouble (n : Nat) : Nat :=
  let unit := Nat.pow 2 (n.log2 - 52)
  roundDiv n unit * unit

/-! ## Fixed places -/

/-- `n` units of the `places`-th decimal place: the last `places` digits stand after the point. -/
def decimalPlaces (places n : Nat) : String :=
  let unit := Nat.pow 10 places
  let fraction := (Nat.toDigits 10 (n % unit)).leftpad places '0'
  s!"{n / unit}." ++ String.ofList fraction

/-- The significand of a nonnegative finite double, counted in units of `2 ^ exponentOf - 1075`. -/
def significandOf (bits : UInt64) : Nat :=
  let hidden := Nat.pow 2 52
  let fraction := bits.toNat % hidden
  if bits.toNat / hidden % Nat.pow 2 11 = 0 then fraction else fraction + hidden

/-- The biased exponent of a double; subnormal numbers share the exponent of the smallest normal
ones. -/
def exponentOf (bits : UInt64) : Nat :=
  max 1 (bits.toNat / Nat.pow 2 52 % Nat.pow 2 11)

/-- **A nonnegative finite double to fixed places**: its exact binary value, rounded once. -/
def fixedPlaces (places : Nat) (x : Float) : String :=
  let bits := x.toBits
  let numerator := significandOf bits * Nat.pow 2 (exponentOf bits) * Nat.pow 10 places
  decimalPlaces places (roundDiv numerator (Nat.pow 2 1075))

end Tomasulo
