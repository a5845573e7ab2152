import Tomasulo.Record

/-!
# Event — what the machine reports while it runs

Every step of a cycle that does something logs an `Event`; the whole cycle and the whole run log one
more each. `Event.line` is the log's wording: level, message, then the values by name.
-/

namespace Tomasulo

/-- One entry of the log. -/
inductive Event where
  /-- A result left the bus and woke the records waiting for it. -/
  | retired (now index : Nat)
  /-- A finished store gave up its station and unit. -/
  | storeCompleted (now index : Nat)
  /-- A finished record won the bus. -/
  | broadcast (now index : Nat) (pool : Pool)
  /-- A record started on a unit. -/
  | started (now index : Nat) (pool : Pool) (unit : Nat)
  /-- A jump or branch left the fetch queue. -/
  | resolved (now index : Nat)
  /-- The head of the fetch queue found no free station. -/
  | stalled (now index : Nat) (pool : Pool)
  /-- A record took a station. -/
  | issued (now index : Nat) (pool : Pool) (station : Nat)
  /-- A trap was passed over. -/
  | trapSkipped (now index : Nat)
  /-- A record entered the fetch queue. -/
  | fetched (now index : Nat) (op : OpClass)
  /-- A cycle ended with these many records queued and in stations, and this result on the bus. -/
  | cycleCompleted (now queued : Nat) (stationed : ByPool Nat) (bus : Option Nat)
  /-- A run ended. -/
  | runCompleted (cycles records : Nat)
deriving DecidableEq, Repr

namespace Event

/-- The content of the bus as the log writes it. -/
def busText : Option Nat → String
  | none => "None"
  | some index => s!"Some(InstIndex({index}))"

/-- **The line of an event.** -/
def line : Event → String
  | retired now index => s!"TRACE RT  retired from CDB cycle={now} inst={indexLabel index}"
  | storeCompleted now index =>
    s!"TRACE WB  store complete, resources freed cycle={now} inst={indexLabel index}"
  | broadcast now index pool =>
    s!"TRACE WB  broadcast on CDB cycle={now} inst={indexLabel index} pool={pool.label}"
  | started now index pool unit =>
    s!"TRACE EX  start cycle={now} inst={indexLabel index} pool={pool.label} unit={unit}"
  | resolved now index => s!"TRACE IS  branch resolved cycle={now} inst={indexLabel index}"
  | stalled now index pool =>
    s!"TRACE IS  stall, no free station cycle={now} inst={indexLabel index} pool={pool.label}"
  | issued now index pool station =>
    s!"TRACE IS  dispatched cycle={now} inst={indexLabel index} pool={pool.label} station={station}"
  | trapSkipped now index => s!"TRACE FE  skipped trap cycle={now} inst={indexLabel index}"
  | fetched now index op =>
    s!"TRACE FE  fetched cycle={now} inst={indexLabel index} class={op.label}"
  | cycleCompleted now queued stationed bus =>
    s!"DEBUG cycle complete cycle={now} ifq={queued}" ++
      s!" rs_int={stationed .int} rs_fp={stationed .fp} cdb={busText bus}"
  | runCompleted cycles records =>
    s!"INFO simulation complete cycles={cycles} instructions={records}"

end Event

end Tomasulo
