import Tomasulo.Json.Reader

/-!
# Json/Text — strings between quotes

A string holds any characters but quotes, backslashes and controls, which are escaped.  `Text.read`
understands every escape, pairs of surrogates included; `Text.skip` only looks for the closing quote
and lets surrogates stand alone. `Text.quote` writes a string with the shortest escapes.
-/

namespace Tomasulo.Json.Text

/-! ## Escapes -/

/-- The value of a hexadecimal digit. -/
def hexValue? (c : Char) : Option Nat :=
  if '0' ≤ c ∧ c ≤ '9' then some (c.toNat - '0'.toNat)
  else if 'a' ≤ c ∧ c ≤ 'f' then some (c.toNat - 'a'.toNat + 10)
  else if 'A' ≤ c ∧ c ≤ 'F' then some (c.toNat - 'A'.toNat + 10)
  else none

/-- Four hexadecimal digits.  A text with fewer than four bytes left has ended too early. -/
def hexUnit : Reader Nat := fun cs =>
  if ((cs.take 4).map Char.utf8Size).foldl (· + ·) 0 < 4 then .error .truncated
  else
    match (cs.take 4).mapM hexValue? with
    | some ds => .ok (ds.foldl (fun n d => n * 16 + d) 0, cs.drop 4)
    | none => .error .malformed

/-- The first half of a surrogate pair. -/
def isLeading (unit : Nat) : Bool :=
  0xD800 ≤ unit && unit ≤ 0xDBFF

/-- The second half of a surrogate pair. -/
def isTrailing (unit : Nat) : Bool :=
  0xDC00 ≤ unit && unit ≤ 0xDFFF

/-- The character of an escape by number; a surrogate needs its other half. -/
def numbered : Reader Char := do
  let first ← hexUnit
  if isTrailing first then
    throw .malformed
  unless isLeading first do
    return Char.ofNat first
  Reader.literal ['\\', 'u']
  let second ← hexUnit
  unless isTrailing second do
    throw .malformed
  return Char.ofNat (0x10000 + (first - 0xD800) * 0x400 + (second - 0xDC00))

/-- The characters with an escape of their own, and its letter. -/
def letters : List (Char × Char) :=
  [('"', '"'), ('\\', '\\'), ('/', '/'), ('\x08', 'b'), ('\x0c', 'f'), ('\n', 'n'), ('\r', 'r'),
   ('\t', 't')]

/-- What a backslash stands for, by the characters after it; `ofNumber` reads an escape by number.
-/
def escape (ofNumber : Reader Char) : Reader Char := do
  let c ← Reader.next
  if c = 'u' then
    ofNumber
  else
    match letters.find? (·.2 == c) with
    | some (meant, _) => return meant
    | none => throw .malformed

/-! ## Reading -/

/-- The rest of a string after its opening quote; `sofar` is what has been read, last character
first. -/
def restOf (ofNumber : Reader Char) : (fuel : Nat) → (sofar : List Char) → Reader String
  | 0, _ => throw .truncated
  | fuel + 1, sofar => do
    let c ← Reader.next
    if c = '"' then
      return String.ofList sofar.reverse
    else if c = '\\' then
      restOf ofNumber fuel ((← escape ofNumber) :: sofar)
    else if c.toNat < 0x20 then
      throw .malformed
    else
      restOf ofNumber fuel (c :: sofar)

/-- **The string after an opening quote.** -/
def read : Reader String := fun cs =>
  restOf numbered (cs.length + 1) [] cs

/-- Takes a string that nobody wants, after its opening quote. -/
def skip : Reader Unit := do
  let _ ← fun cs => restOf (Char.ofNat <$> hexUnit) (cs.length + 1) [] cs

/-! ## Writing -/

/-- A character inside a string. -/
def quoteChar (c : Char) : List Char :=
  if c = '"' ∨ c = '\\' ∨ c.toNat < 0x20 then
    match letters.find? (·.1 == c) with
    | some (_, letter) => ['\\', letter]
    | none => ['\\', 'u'] ++ (Nat.toDigits 16 c.toNat).leftpad 4 '0'
  else [c]

/-- **A string between quotes.** -/
def quote (s : String) : List Char :=
  '"' :: s.toList.flatMap quoteChar ++ ['"']

end Tomasulo.Json.Text
