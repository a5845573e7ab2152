/-!
# Fault — assertions of the machine

A `Fault` is the cause of a stop that no trace should be able to bring about: a stage cycle stamped
twice, two results on the bus, a slot used against its state.  The machine checks for each of them
and `Fault.message` gives the wording.
-/

namespace Tomasulo

/-- The stages whose cycle a record is stamped with. -/
inductive Stage where
  | dispatch
  | issue
  | execute
  | cdb
deriving DecidableEq, Repr

namespace Stage

/-- The four stages in the order a record passes them. -/
def all : List Stage := [.dispatch, .issue, .execute, .cdb]

/-- The stage as messages and JSON texts write it. -/
def name : Stage → String
  | .dispatch => "dispatch"
  | .issue => "issue"
  | .execute => "execute"
  | .cdb => "cdb"

end Stage

/-- A broken assertion. -/
inductive Fault where
  /-- A register, station, unit or trace position does not exist. -/
  | outOfBounds
  /-- A record already holds a cycle for the stage. -/
  | stampedTwice (stage : Stage) (old new : Nat)
  /-- Another result is still on the bus. -/
  | busOccupied (old new : Nat)
  /-- A station to be vacated holds nothing. -/
  | stationFree (slot : Nat)
  /-- A unit to be started is running. -/
  | unitBusy (slot : Nat)
  /-- The fetch queue has no room. -/
  | queueFull
  /-- The station vacated for a result held another record. -/
  | strayRelease
deriving DecidableEq, Repr

/-- What a fault says. -/
def Fault.message : Fault → String
  | .outOfBounds => "index out of bounds"
  | .stampedTwice stage old new => s!"{stage.name} cycle written twice (was Some({old}), now {new})"
  | .busOccupied old new => s!"CDB already carries Some(InstIndex({old})) while broadcasting #{new}"
  | .stationFree slot => s!"released reservation station {slot} which was already free"
  | .unitBusy slot => s!"functional unit {slot} is busy"
  | .queueFull => "IFQ overflow"
  | .strayRelease => "freed station is not the CDB winner"

end Tomasulo
