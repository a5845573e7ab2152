import Tomasulo.Json.Skip
import Tomasulo.Json.Value

/-!
# Json/Read — reading values of a wanted kind

Readers for single values (`token`, `natural`, `nullable`, `oneOf`), for arrays (`items`, `exactly`)
and for a value of any kind (`value`).  A value of the wrong kind is refused as mismatched, but only
after its own token has been read: a defect inside the token comes first.
-/

namespace Tomasulo.Json.Read

variable {α : Type}

/-! ## Single values -/

/-- A value without parts. -/
def scalar : Reader Value := do
  match ← Reader.peek with
  | none => throw .truncated
  | some 'n' =>
    Reader.literal ['n', 'u', 'l', 'l']
    return .null
  | some 't' =>
    Reader.literal ['t', 'r', 'u', 'e']
    return .bool true
  | some 'f' =>
    Reader.literal ['f', 'a', 'l', 's', 'e']
    return .bool false
  | some '"' =>
    Reader.advance
    return .string (← Text.read)
  | some c =>
    if c = '-' || c.isDigit then return .number (← Numeral.read) else throw .malformed

/-- A value without parts where one with parts is refused. -/
def token : Reader Value := do
  match ← Reader.peek with
  | some '[' | some '\x7b' => throw .mismatched
  | _ => scalar

/-- A natural number below `bound`. -/
def natural (bound : Nat) : Reader Nat := do
  match ← token with
  | .number n =>
    match n.toNat? with
    | some k => if k < bound then return k else throw .mismatched
    | none => throw .mismatched
  | _ => throw .mismatched

/-- A natural number of 64 bits. -/
def natural64 : Reader Nat :=
  natural UInt64.size

/-- A value or null. -/
def nullable (r : Reader α) : Reader (Option α) := do
  if (← Reader.peek) = some 'n' then
    Reader.literal ['n', 'u', 'l', 'l']
    return none
  else
    return some (← r)

/-! ## Arrays -/

/-- The bracket that opens an array. -/
def openArray : Reader Unit := do
  if (← Reader.peek) = some '[' then
    Reader.advance
  else
    let _ ← token
    throw .mismatched

/-- Whether the array has another item, which is then next.  The closing bracket stays. -/
def anotherItem (first : Bool) : Reader Bool := do
  match ← Reader.peek with
  | none => throw .truncated
  | some ']' => return false
  | some c =>
    if first then
      return true
    else if c = ',' then
      Reader.advance
      match ← Reader.peek with
      | none => throw .truncated
      | some ']' => throw .malformed
      | some _ => return true
    else
      throw .malformed

/-- The bracket that closes an array. -/
def closeArray : Reader Unit := do
  match ← Reader.peek with
  | none => throw .truncated
  | some ']' => Reader.advance
  | some _ => throw .malformed

/-- Items up to the closing bracket, which is taken. -/
def itemsFrom (item : Reader α) :
    (fuel : Nat) → (first : Bool) → (sofar : Array α) → Reader (Array α)
  | 0, _, _ => throw .truncated
  | fuel + 1, first, sofar => do
    if ← anotherItem first then
      itemsFrom item fuel false (sofar.push (← item))
    else
      Reader.advance
      return sofar

/-- Items after an opening bracket. -/
def itemsRest (item : Reader α) : Reader (List α) := fun cs => do
  let (found, rest) ← itemsFrom item (cs.length + 1) true #[] cs
  return (found.toList, rest)

/-- **An array of any length.** -/
def items (item : Reader α) : Reader (List α) := do
  openArray
  itemsRest item

/-- So many items and the closing bracket. -/
def exactlyFrom (item : Reader α) : (count : Nat) → (first : Bool) → Reader (List α)
  | 0, _ => do
    closeArray
    return []
  | count + 1, first => do
    if ← anotherItem first then
      let a ← item
      return a :: (← exactlyFrom item count false)
    else
      throw .mismatched

/-- **An array of a fixed length**: too few items are a mismatch, too many are malformed. -/
def exactly (count : Nat) (item : Reader α) : Reader (List α) := do
  openArray
  exactlyFrom item count true

/-! ## Keys -/

/-- Whether the object has another member, whose key is then next.  The closing bracket stays. -/
def anotherKey (first : Bool) : Reader Bool := do
  match ← Reader.peek with
  | none => throw .truncated
  | some '\x7d' => return false
  | some '"' => if first then return true else throw .malformed
  | some ',' =>
    if first then
      throw .malformed
    else
      Reader.advance
      match ← Reader.peek with
      | none => throw .truncated
      | some '"' => return true
      | some _ => throw .malformed
  | some _ => throw .malformed

/-- A key that is known to be next. -/
def key : Reader String := do
  Reader.advance
  Text.read

/-! ## Values of any kind -/

/-- Members up to the closing bracket, which is taken. -/
def membersFrom (member : Reader α) :
    (fuel : Nat) → (first : Bool) → (sofar : Array (String × α)) → Reader (Array (String × α))
  | 0, _, _ => throw .truncated
  | fuel + 1, first, sofar => do
    if ← anotherKey first then
      let k ← key
      Skip.colon
      membersFrom member fuel false (sofar.push (k, ← member))
    else
      Reader.advance
      return sofar

/-- Members after an opening bracket. -/
def membersRest (member : Reader α) : Reader (List (String × α)) := fun cs => do
  let (found, rest) ← membersFrom member (cs.length + 1) true #[] cs
  return (found.toList, rest)

/-- **A value of any kind** with brackets nested at most `depth` deep; deeper ones are malformed. -/
def value : (depth : Nat) → Reader Value
  | 0 => do
    match ← Reader.peek with
    | some '[' | some '\x7b' => throw .malformed
    | _ => scalar
  | depth + 1 => do
    match ← Reader.peek with
    | some '[' =>
      Reader.advance
      return .array (← itemsRest (value depth))
    | some '\x7b' =>
      Reader.advance
      return .object (← membersRest (value depth))
    | _ => scalar

/-! ## Names -/

/-- The meaning of a name. -/
def named (names : List (String × α)) (name : String) : Reader α :=
  match names.lookup name with
  | some a => return a
  | none => throw .mismatched

/-- **One of several names**, as a string, or as the only key of an object with the value null.
Anything else where the key should stand is malformed. -/
def oneOf (names : List (String × α)) : Reader α := do
  match ← Reader.peek with
  | none => throw .truncated
  | some '"' =>
    named names (← key)
  | some '\x7b' =>
    Reader.advance
    if ← anotherKey true then
      let a ← named names (← key)
      Skip.colon
      match ← token with
      | .null =>
        match ← Reader.peek with
        | none => throw .truncated
        | some '\x7d' =>
          Reader.advance
          return a
        | some _ => throw .malformed
      | _ => throw .mismatched
    else
      throw .malformed
  | some _ => throw .malformed

end Tomasulo.Json.Read
