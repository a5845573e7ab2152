import Tomasulo.Digits
import Tomasulo.Layout
import Tomasulo.Stats

/-!
# Trace/Timeline — the stage cycles of every instruction as a table

One line for the titles, then one for every record that takes part in scheduling, in program order.
Columns have a least width and stand one blank apart; a stage not entered shows as a dash.
-/

namespace Tomasulo.Timeline

/-- A column of the table. -/
structure Column where
  title : String
  align : String → String

/-- The columns from left to right. -/
def columns : List Column :=
  [⟨"inst", alignRight 6⟩, ⟨"pc", alignRight 10⟩, ⟨"class", alignLeft 11⟩] ++
    Stage.all.map fun stage => ⟨stage.name, alignRight 8⟩

/-- A line of the table. -/
def line (cells : List String) : String :=
  " ".intercalate (List.zipWith Column.align columns cells)

/-- A stage's cycle, or a dash. -/
def cycleText : Option Nat → String
  | none => "-"
  | some cycle => toString cycle

/-- What the table shows of a record of class `op`. -/
def cells (r : Record) (op : OpClass) : List String :=
  [toString r.index, hex r.pc.toNat, op.label] ++
    Stage.all.map fun stage => cycleText (r.stamps.cycleOf stage)

/-- The lines of the table. -/
def lines (trace : Trace) : List String :=
  line (columns.map (·.title)) ::
    trace.toList.filterMap fun r => r.scheduledClass?.map fun op => line (cells r op)

/-- **The timeline of a trace.** -/
def text (trace : Trace) : String :=
  unlines (lines trace)

end Tomasulo.Timeline
