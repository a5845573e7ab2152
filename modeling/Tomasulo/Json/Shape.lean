import Tomasulo.Json.Read

/-!
# Json/Shape — objects with known members

A `Shape` lists the members that make up a value of type `σ`, each with a reader that puts it into a
draft of the value. The value may be written as an object, its members in any order, or as an array
of the members in the order of the list. In an object a known key may stand only once; an unknown
key is passed over, or refused if the shape is closed.  What a missing member means is its
`Absence`.
-/

namespace Tomasulo.Json

/-- What it means that a member is not there. -/
inductive Absence where
  /-- The value is refused. -/
  | refused
  /-- In an object the draft stays as it is; an array must not end before the member. -/
  | null
  /-- The draft stays as it is. -/
  | default
deriving DecidableEq, Repr

/-- A member of an object, to be put into a draft of type `σ`. -/
structure Member (σ : Type) where
  key : String
  absence : Absence
  read : σ → Reader σ

/-- The members of an object. -/
structure Shape (σ : Type) where
  members : List (Member σ)
  /-- No other keys are allowed. -/
  closed : Bool := false

namespace Shape

variable {σ : Type}

/-- The member of a key. -/
def find? (shape : Shape σ) (key : String) : Option (Member σ) :=
  shape.members.find? (·.key == key)

/-- No member that must be there is missing. -/
def isComplete (shape : Shape σ) (seen : List String) : Bool :=
  shape.members.all fun m => m.absence != .refused || seen.contains m.key

/-- The members of an object up to the closing bracket, which is taken; `seen` holds the known keys
that have been read. -/
def membersFrom (shape : Shape σ) :
    (fuel : Nat) → (first : Bool) → (seen : List String) → (draft : σ) → Reader σ
  | 0, _, _, _ => throw .truncated
  | fuel + 1, first, seen, draft => do
    if ← Read.anotherKey first then
      let key ← Read.key
      match shape.find? key with
      | some m =>
        if seen.contains key then
          throw .mismatched
        Skip.colon
        let draft ← m.read draft
        membersFrom shape fuel false (key :: seen) draft
      | none =>
        if shape.closed then
          throw .mismatched
        Skip.colon
        Skip.value
        membersFrom shape fuel false seen draft
    else
      Reader.advance
      if shape.isComplete seen then return draft else throw .mismatched

/-- The members in order as the items of an array, up to the closing bracket, which is taken. -/
def itemsFrom : (members : List (Member σ)) → (first : Bool) → (draft : σ) → Reader σ
  | [], _, draft => do
    Read.closeArray
    return draft
  | m :: ms, first, draft => do
    if ← Read.anotherItem first then
      let draft ← m.read draft
      itemsFrom ms false draft
    else if (m :: ms).all (·.absence == .default) then
      Reader.advance
      return draft
    else
      throw .mismatched

/-- **Reads a value of this shape** into a draft. -/
def read (shape : Shape σ) (draft : σ) : Reader σ := do
  match ← Reader.peek with
  | some '\x7b' =>
    Reader.advance
    fun cs => membersFrom shape (cs.length + 1) true [] draft cs
  | some '[' =>
    Reader.advance
    itemsFrom shape.members true draft
  | _ =>
    let _ ← Read.scalar
    throw .mismatched

end Shape

end Tomasulo.Json
