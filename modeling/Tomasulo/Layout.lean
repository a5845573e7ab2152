/-!
# Layout — columns and lines of plain text
-/

namespace Tomasulo

/-- `text` at the right edge of a column; longer text keeps its length. -/
def alignRight (width : Nat) (text : String) : String :=
  String.ofList (text.toList.leftpad width ' ')

/-- `text` at the left edge of a column; longer text keeps its length. -/
def alignLeft (width : Nat) (text : String) : String :=
  String.ofList (text.toList.rightpad width ' ')

/-- Lines as one text, each ended by a line feed. -/
def unlines (lines : List String) : String :=
  String.join (lines.map (· ++ "\n"))

end Tomasulo
