import Tomasulo.Json.Numeral
import Tomasulo.Json.Text

/-!
# Json/Value — JSON values and how they are written

A `Value` is written in a `Style`: `Style.compact` puts nothing between tokens, `Style.indented`
gives every item a line of its own.  Members keep their order.
-/

namespace Tomasulo.Json

/-- A JSON value; objects keep the order of their members. -/
inductive Value where
  | null
  | bool (b : Bool)
  | number (n : Numeral)
  | string (s : String)
  | array (items : List Value)
  | object (members : List (String × Value))

namespace Value

/-- A natural number. -/
def nat (n : Nat) : Value :=
  .number (Numeral.ofNat n)

/-- A natural number or null. -/
def nat? : Option Nat → Value
  | none => .null
  | some n => nat n

/-- Slots as an array. -/
def nats? (slots : List (Option Nat)) : Value :=
  .array (slots.map nat?)

end Value

/-- What is written between the tokens of a value. -/
structure Style where
  /-- Before an item at this depth, and before the bracket that closes it. -/
  lead : Nat → List Char
  /-- After the colon of a member. -/
  gap : List Char

namespace Style

/-- Nothing between tokens. -/
def compact : Style where
  lead _ := []
  gap := []

/-- Every item on a line of its own, indented by two blanks for each level. -/
def indented : Style where
  lead depth := '\n' :: List.replicate (2 * depth) ' '
  gap := [' ']

end Style

mutual

/-- The characters of a value that stands at this depth. -/
def Value.chars (style : Style) (depth : Nat) : Value → List Char
  | .null => ['n', 'u', 'l', 'l']
  | .bool true => ['t', 'r', 'u', 'e']
  | .bool false => ['f', 'a', 'l', 's', 'e']
  | .number n => n.chars
  | .string s => Text.quote s
  | .array [] => ['[', ']']
  | .array (v :: vs) =>
    '[' :: style.lead (depth + 1) ++ Value.chars style (depth + 1) v ++
      moreItems style (depth + 1) vs ++ style.lead depth ++ [']']
  | .object [] => ['\x7b', '\x7d']
  | .object ((key, v) :: ms) =>
    '\x7b' :: style.lead (depth + 1) ++ Text.quote key ++ ':' :: style.gap ++
      Value.chars style (depth + 1) v ++ moreMembers style (depth + 1) ms ++
      style.lead depth ++ ['\x7d']

/-- The items after the first, each after a comma. -/
def moreItems (style : Style) (depth : Nat) : List Value → List Char
  | [] => []
  | v :: vs => ',' :: style.lead depth ++ Value.chars style depth v ++ moreItems style depth vs

/-- The members after the first, each after a comma. -/
def moreMembers (style : Style) (depth : Nat) : List (String × Value) → List Char
  | [] => []
  | (key, v) :: ms =>
    ',' :: style.lead depth ++ Text.quote key ++ ':' :: style.gap ++ Value.chars style depth v ++
      moreMembers style depth ms

end

/-- **The text of a value.** -/
def Value.text (style : Style) (v : Value) : String :=
  String.ofList (v.chars style 0)

end Tomasulo.Json
