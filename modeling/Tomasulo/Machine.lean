import Tomasulo.Config
import Tomasulo.Event
import Tomasulo.InFlight
import Tomasulo.RegisterMap
import Tomasulo.Trace

/-!
# Machine — the state a cycle works on

A `Machine` holds the records in flight; a `Core` adds the trace they belong to and the log.
Everything a cycle decides by looking is here as a function of the core: which records run, which of
them have finished, who wins the bus, who may start next.  `Tomasulo.Cycle` does the writing.
-/

namespace Tomasulo

/-- The records in flight and the registers they will write. -/
structure Machine where
  queue : FetchQueue
  registers : RegisterMap
  stations : ByPool Stations
  units : ByPool Units
  bus : ResultBus
  /-- The trace position fetched next. -/
  cursor : Nat
deriving DecidableEq, Repr

/-- A record on a unit. -/
structure Running where
  pool : Pool
  unit : Nat
  station : Nat
  record : InFlight
deriving DecidableEq, Repr

namespace Machine

/-- A machine that holds nothing. -/
def idle (c : Config) : Machine where
  queue := FetchQueue.empty c.queue
  registers := Slots.empty c.registers
  stations := ByPool.of fun p => Slots.empty (c.pools p).stations
  units := ByPool.of fun p => Units.idle (c.pools p).units (c.pools p).latency
  bus := ResultBus.idle
  cursor := 0

/-- The records in stations, pool by pool. -/
def stationed (m : Machine) : List InFlight :=
  Pool.all.flatMap fun p => (m.stations p).occupied.map (·.2)

/-- The records on the units of a pool. -/
def running (m : Machine) (p : Pool) : List Running :=
  (m.units p).running.occupied.filterMap fun (unit, station) =>
    ((m.stations p).get station).map fun e => ⟨p, unit, station, e⟩

/-- How many stations of each pool are taken. -/
def stationCounts (m : Machine) : ByPool Nat :=
  ByPool.of fun p => (m.stations p).occupied.length

/-- Nothing is in flight. -/
def isEmpty (m : Machine) : Bool :=
  m.queue.entries.isEmpty && m.bus.carried.isNone &&
    Pool.all.all fun p => (m.stations p).isClear && (m.units p).running.isClear

end Machine

/-- A machine at work on a trace. -/
structure Core where
  machine : Machine
  trace : Trace
  log : Array Event := #[]
deriving DecidableEq, Repr

/-- Why a core stops. -/
inductive Halt where
  /-- Fetch reached a record the machine cannot take. -/
  | rejected (reason : Rejection)
  /-- An assertion broke. -/
  | fault (cause : Fault)
  /-- A run spent its cycle budget. -/
  | overrun
deriving DecidableEq, Repr

namespace Core

/-- **Everything is drained**: the whole trace has been fetched and nothing is in flight. -/
def isDrained (c : Core) : Bool :=
  c.machine.isEmpty && c.trace.size ≤ c.machine.cursor

/-- A running record has started and the latency of its unit has passed. -/
def hasFinished (c : Core) (now : Nat) (r : Running) (add : Nat → Nat → Nat := wordAdd) : Bool :=
  (c.trace[r.record.index]?.bind (·.stamps.execute)).any fun start =>
    (c.machine.units r.pool).hasFinished start now add

/-- The stores of a pool that have finished, in unit order. -/
def finishedStores (c : Core) (now : Nat) (p : Pool) (add : Nat → Nat → Nat := wordAdd) :
    List Running :=
  (c.machine.running p).filter fun r => r.record.op == .store && c.hasFinished now r add

/-- The finished records of both pools that want the bus. -/
def contenders (c : Core) (now : Nat) (add : Nat → Nat → Nat := wordAdd) : List Running :=
  Pool.all.flatMap fun p =>
    (c.machine.running p).filter fun r => r.record.op.broadcasts && c.hasFinished now r add

/-- **The oldest contender wins the bus.** -/
def winner? (c : Core) (now : Nat) (add : Nat → Nat → Nat := wordAdd) : Option Running :=
  (c.contenders now add).minOn? (·.record.index)

/-- The record of a station waits for nothing but a unit: every source is there, it has been in its
station since an earlier cycle, and it has not started. -/
def isReady (c : Core) (now : Nat) (e : InFlight) : Bool :=
  c.trace[e.index]?.any fun r =>
    !r.isWaiting && r.stamps.issue.any (· < now) && r.stamps.execute.isNone

/-- **The oldest ready record of a pool** with its station. -/
def oldestReady? (c : Core) (now : Nat) (p : Pool) : Option (Nat × InFlight) :=
  ((c.machine.stations p).occupied.filter fun (_, e) => c.isReady now e).minOn? (·.2.index)

end Core

end Tomasulo
