import Tomasulo.Digits
import Tomasulo.Layout
import Tomasulo.Stats

/-!
# Stats/Report — statistics in sections of plain text

A report has up to three sections, chosen by name; no choice means all of them, and a name that no
section bears chooses nothing.  Counts stand in one column after the labels.  Rates have four
places, means and percentages two.
-/

namespace Tomasulo.Report

/-- A part of the report. -/
inductive Part where
  | summary
  | mix
  | stalls
deriving DecidableEq, Repr

namespace Part

/-- The parts in the order they are printed. -/
def all : List Part := [.summary, .mix, .stalls]

/-- The name a part is chosen by. -/
def name : Part → String
  | .summary => "summary"
  | .mix => "instruction_mix"
  | .stalls => "stalls"

end Part

/-- The line around the report. -/
def border : String :=
  String.ofList (List.replicate 58 '=')

/-- The line below a section. -/
def rule : String :=
  String.ofList (List.replicate 58 '-')

/-- A label and what it stands for. -/
def row (label value : String) : String :=
  alignLeft 25 label ++ value

/-- One class's count and share of all instructions. -/
def shareRow (s : Stats) (label : String) (count : Nat) : String :=
  let percent := count.toFloat / (max s.instructions 1).toFloat * 100.0
  row s!"  {label}" s!"{count} ({fixedPlaces 2 percent}%)"

/-- A wait's sum and mean. -/
def waitRow (label : String) (sum : Nat) (mean : Float) : String :=
  row s!"  {label}" s!"{sum} (avg {fixedPlaces 2 mean})"

/-- The lines of a part. -/
def Part.lines (s : Stats) : Part → List String
  | .summary =>
    ["", border, "TOMASULO SCHEDULING STATISTICS", border,
     row "sim_cycles" (toString s.cycles),
     row "sim_insts" (toString s.instructions),
     row "sim_traps" (toString s.traps),
     row "sim_ipc" (fixedPlaces 4 s.ipc),
     row "sim_cpi" (fixedPlaces 4 s.cpi),
     rule]
  | .mix =>
    ["INSTRUCTION MIX",
     shareRow s "op.load" s.loads,
     shareRow s "op.store" s.stores,
     shareRow s "op.int" s.ints,
     shareRow s "op.fp" s.fps,
     shareRow s "op.branch" s.branches,
     rule]
  | .stalls =>
    ["STALLS",
     waitRow "stalls.dispatch" s.queueWait s.meanQueueWait,
     waitRow "stalls.issue" s.stationWait s.meanStationWait,
     waitRow "stalls.cdb" s.busWait s.meanBusWait,
     rule]

/-- The parts that a choice of names selects. -/
def chosen (names : List String) : List Part :=
  Part.all.filter fun part => names.isEmpty || names.contains part.name

/-- **The report**: the chosen parts in their fixed order, then a closing border. -/
def text (s : Stats) (names : List String) : String :=
  unlines ((chosen names).flatMap (Part.lines s) ++ [border])

end Tomasulo.Report
