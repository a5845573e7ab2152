/-!
# Json/Reader — reading JSON text from left to right

A `Reader` takes characters off the front of a text and gives a value or the first `Defect`.
Reading is typed: a reader asks for the shape it wants, and the text may fail it by ending too
early, by not being JSON, or by being JSON of another shape, whichever shows first.
-/

namespace Tomasulo.Json

/-- What can be wrong with a text. -/
inductive Defect where
  /-- The text ends before the value does. -/
  | truncated
  /-- The text is not JSON. -/
  | malformed
  /-- The text is JSON, but not the value that is wanted. -/
  | mismatched
deriving DecidableEq, Repr

/-- An action on the characters still to be read. -/
abbrev Reader := StateT (List Char) (Except Defect)

/-- Characters that may stand between tokens. -/
def isBlank (c : Char) : Bool :=
  c == ' ' || c == '\t' || c == '\n' || c == '\r'

namespace Reader

/-- The first character that is not blank; it stays. -/
def peek : Reader (Option Char) := do
  modify (·.dropWhile isBlank)
  return (← get).head?

/-- Takes one character, which is known to be there. -/
def advance : Reader Unit :=
  modify List.tail

/-- Takes the next character, blank or not. -/
def next : Reader Char := do
  match ← get with
  | [] => throw .truncated
  | c :: rest =>
    set rest
    return c

/-- Takes these characters and no others. -/
def literal : List Char → Reader Unit
  | [] => return
  | c :: cs => do
    if (← next) = c then literal cs else throw .malformed

/-- **Reads a whole text**; only blanks may follow the value. -/
def run {α : Type} (r : Reader α) (text : String) : Except Defect α := do
  let (a, rest) ← StateT.run r text.toList
  if rest.all isBlank then return a else throw .malformed

end Reader

end Tomasulo.Json
