import Tomasulo.Config
import Tomasulo.Trace
import Tomasulo.Word

/-!
# Stats — counts, waits and ratios of an annotated trace

`Stats.collect` reads everything off the stamps of a trace, whether its run is over or not: how many
records there are of each class, and how many cycles they spent in the fetch queue, in a station
before they started, and on a unit after they had finished.  A record that has not passed both ends
of a wait does not count towards it.
-/

namespace Tomasulo

/-! ## Waits of one record -/

namespace Stamps

/-- The cycles from one stage to another, when both have been entered. -/
def between (s : Stamps) (first last : Stage) : Option Nat :=
  (s.cycleOf first).bind fun a => (s.cycleOf last).map fun b => b - a

/-- Cycles in the fetch queue. -/
def queueWait (s : Stamps) : Option Nat :=
  s.between .dispatch .issue

/-- Cycles in a station before the start. -/
def stationWait (s : Stamps) : Option Nat :=
  s.between .issue .execute

/-- Cycles on a unit after the latency had passed; a result cannot wait less than no cycle.  The
latency is added to the start as a unit does it. -/
def busWait (s : Stamps) (latency : Nat) (add : Nat → Nat → Nat := wordAdd) : Option Nat :=
  s.execute.bind fun start => s.cdb.map fun cycle => cycle - add start latency

end Stamps

namespace Record

/-- The class of a record that takes part in scheduling: known and not a trap. -/
def scheduledClass? (r : Record) : Option OpClass :=
  r.class?.filter (· != .trap)

/-- The latency of the pool a record of this class runs in. -/
def latency (config : Config) (r : Record) : Nat :=
  (config.pools ((r.class?.bind OpClass.pool).getD .int)).latency

end Record

/-! ## A trace summed up -/

/-- Counts and summed waits of a trace. -/
structure Stats where
  cycles : Nat := 0
  /-- Records that take part in scheduling. -/
  instructions : Nat := 0
  traps : Nat := 0
  loads : Nat := 0
  stores : Nat := 0
  ints : Nat := 0
  fps : Nat := 0
  /-- Jumps and branches. -/
  branches : Nat := 0
  queueWait : Nat := 0
  stationWait : Nat := 0
  busWait : Nat := 0
  /-- Records that have started on a unit. -/
  started : Nat := 0
  /-- Records whose result has been on the bus. -/
  broadcast : Nat := 0
deriving DecidableEq, Repr

namespace Stats

/-- The number of records of a class. -/
def countClass (records : List Record) (c : OpClass) : Nat :=
  records.countP (·.class? == some c)

/-- The sum of the waits that are known. -/
def total (waits : List (Option Nat)) : Nat :=
  (waits.filterMap id).foldl (· + ·) 0

/-- The number of the waits that are known. -/
def known (waits : List (Option Nat)) : Nat :=
  waits.countP (·.isSome)

/-- **The statistics of a trace** after this many cycles. -/
def collect (trace : Trace) (cycles : Nat) (config : Config)
    (add : Nat → Nat → Nat := wordAdd) : Stats :=
  let records := trace.toList
  let scheduled := records.filter (·.scheduledClass?.isSome)
  let queueWaits := scheduled.map (·.stamps.queueWait)
  let stationWaits := scheduled.map (·.stamps.stationWait)
  let busWaits := scheduled.map fun r => r.stamps.busWait (r.latency config) add
  { cycles
    instructions := scheduled.length
    traps := countClass records .trap
    loads := countClass records .load
    stores := countClass records .store
    ints := countClass records .int
    fps := countClass records .fp
    branches := countClass records .jump + countClass records .branch
    queueWait := total queueWaits
    stationWait := total stationWaits
    busWait := total busWaits
    started := known stationWaits
    broadcast := known busWaits }

/-! ## Ratios -/

/-- `a` for each `b`, where nothing counts as one. -/
def ratio (a b : Nat) : Float :=
  a.toFloat / (max b 1).toFloat

/-- Instructions per cycle. -/
def ipc (s : Stats) : Float :=
  ratio s.instructions s.cycles

/-- Cycles per instruction. -/
def cpi (s : Stats) : Float :=
  ratio s.cycles s.instructions

/-- Instructions that go through a station: all but jumps and branches. -/
def stationed (s : Stats) : Nat :=
  s.instructions - s.branches

/-- Mean wait in the fetch queue over the instructions that go through a station. -/
def meanQueueWait (s : Stats) : Float :=
  ratio s.queueWait s.stationed

/-- Mean wait in a station over the instructions that have started. -/
def meanStationWait (s : Stats) : Float :=
  ratio s.stationWait s.started

/-- Mean wait for the bus over the instructions that have been on it. -/
def meanBusWait (s : Stats) : Float :=
  ratio s.busWait s.broadcast

end Stats

end Tomasulo
