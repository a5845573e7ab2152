import Tomasulo.Json.Numeral
import Tomasulo.Json.Text

/-!
# Json/Skip — passing over a value that nobody wants

A skipped value must be JSON, but numbers may have any size, surrogates may stand alone and brackets
may nest without limit: the brackets still open are kept in a list.
-/

namespace Tomasulo.Json.Skip

/-- A bracket still open. -/
inductive Bracket where
  | array
  | object
deriving DecidableEq, Repr

/-- The colon between a key and its value. -/
def colon : Reader Unit := do
  match ← Reader.peek with
  | none => throw .truncated
  | some ':' => Reader.advance
  | some _ => throw .malformed

/-- A key and its colon. -/
def key : Reader Unit := do
  match ← Reader.peek with
  | none => throw .truncated
  | some '"' =>
    Reader.advance
    Text.skip
    colon
  | some _ => throw .malformed

/-- Goes on after a value: closes brackets until a comma asks for another value inside those that
remain, or until none is open. -/
def afterValue : (stack : List Bracket) → Reader (Option (List Bracket))
  | [] => return none
  | bracket :: stack => do
    match bracket, ← Reader.peek with
    | _, none => throw .truncated
    | .array, some ']' =>
      Reader.advance
      afterValue stack
    | .object, some '\x7d' =>
      Reader.advance
      afterValue stack
    | .array, some ',' =>
      Reader.advance
      return some (.array :: stack)
    | .object, some ',' =>
      Reader.advance
      key
      return some (.object :: stack)
    | _, some _ => throw .malformed

/-- Takes one token at the place of a value.  An opened bracket that does not close at once is put
on the list; the answer is the list inside which another value is due, if one is. -/
def token (stack : List Bracket) : Reader (Option (List Bracket)) := do
  match ← Reader.peek with
  | none => throw .truncated
  | some 'n' =>
    Reader.literal ['n', 'u', 'l', 'l']
    afterValue stack
  | some 't' =>
    Reader.literal ['t', 'r', 'u', 'e']
    afterValue stack
  | some 'f' =>
    Reader.literal ['f', 'a', 'l', 's', 'e']
    afterValue stack
  | some '"' =>
    Reader.advance
    Text.skip
    afterValue stack
  | some '[' =>
    Reader.advance
    if (← Reader.peek) = some ']' then
      Reader.advance
      afterValue stack
    else
      return some (.array :: stack)
  | some '\x7b' =>
    Reader.advance
    if (← Reader.peek) = some '\x7d' then
      Reader.advance
      afterValue stack
    else
      key
      return some (.object :: stack)
  | some c =>
    if c = '-' || c.isDigit then
      Numeral.skip
      afterValue stack
    else
      throw .malformed

/-- Takes tokens until no value is due. -/
def tokens : (fuel : Nat) → (stack : List Bracket) → Reader Unit
  | 0, _ => throw .truncated
  | fuel + 1, stack => do
    match ← token stack with
    | none => return
    | some stack => tokens fuel stack

/-- **Passes over one value.** -/
def value : Reader Unit := fun cs =>
  tokens (cs.length + 1) [] cs

end Tomasulo.Json.Skip
