import Tomasulo.Cycle
import Tomasulo.Stats

/-!
# Simulation — a trace run on a machine from the first cycle to the last

`Simulation.ofTrace` puts an unscheduled trace on an idle machine, `Simulation.tick` runs one cycle
and `Simulation.run` repeats it until everything is drained.  A run has a cycle budget
(`Simulation.budget`) that every trace of acceptable records stays within, so running is total;
`schedule` is a whole run from a trace to its annotated trace.

The counter is a natural number.  One of 64 bits would start again after `2 ^ 64` ticks; `next` is
there to state that no shorter run can tell the two apart.
-/

namespace Tomasulo

/-- A machine at work, its parameters and the cycles it has run. -/
structure Simulation where
  config : Config
  core : Core
  cycle : Nat := 0
deriving DecidableEq, Repr

namespace Simulation

/-- Cycle 0 of a trace on the machine of `config`; a schedule the trace carries is dropped. -/
def ofTrace (trace : Trace) (config : Config) : Except InvalidConfig Simulation := do
  config.check
  return { config, core := { machine := Machine.idle config, trace := trace.unscheduled } }

/-- **Done** once a cycle has run and everything is drained. -/
def isDone (s : Simulation) : Bool :=
  0 < s.cycle && s.core.isDrained

/-- Runs the next cycle, which counts even if it stops. -/
def tick (add : Nat → Nat → Nat := wordAdd) (next : Nat → Nat := (· + 1)) :
    EStateM Halt Simulation Unit := fun s =>
  match (Step.cycle (next s.cycle) add).run s.core with
  | .ok _ core => .ok () { s with core, cycle := next s.cycle }
  | .error halt core => .error halt { s with core, cycle := next s.cycle }

/-- The statistics of the cycles that have been run. -/
def stats (s : Simulation) (add : Nat → Nat → Nat := wordAdd) : Stats :=
  Stats.collect s.core.trace s.cycle s.config add

/-- Cycles enough for any run: no record needs more than its latency and a few cycles of its own. -/
def budget (s : Simulation) : Nat :=
  (s.core.trace.size + 1) * (s.config.longestLatency + 4)

/-- Runs until done, for at most `fuel` cycles; the cycle count at the end. -/
def runWithin (fuel : Nat) (add : Nat → Nat → Nat := wordAdd) (next : Nat → Nat := (· + 1)) :
    EStateM Halt Simulation Nat := do
  match fuel with
  | 0 => throw .overrun
  | fuel + 1 =>
    let s ← get
    if s.isDone then
      set { s with core.log := s.core.log.push (.runCompleted s.cycle s.core.trace.size) }
      return s.cycle
    else
      tick add next
      runWithin fuel add next

/-- **Runs until done**; the cycle count at the end. -/
def run (add : Nat → Nat → Nat := wordAdd) (next : Nat → Nat := (· + 1)) :
    EStateM Halt Simulation Nat := fun s =>
  (runWithin (s.budget + 1) add next).run s

end Simulation

/-- Why a trace could not be scheduled. -/
inductive ScheduleError where
  | invalidConfig (reason : InvalidConfig)
  /-- The run stopped in this cycle. -/
  | halted (cycle : Nat) (halt : Halt)
deriving DecidableEq, Repr

/-- A simulation that has run until done. -/
def simulate (trace : Trace) (config : Config) : Except ScheduleError Simulation := do
  let s ← (Simulation.ofTrace trace config).mapError .invalidConfig
  match Simulation.run.run s with
  | .ok _ s => return s
  | .error halt s => throw (.halted s.cycle halt)

/-- **The schedule of a trace**: the cycle count of its run and the annotated trace. -/
def schedule (trace : Trace) (config : Config) : Except ScheduleError (Nat × Trace) := do
  let s ← simulate trace config
  return (s.cycle, s.core.trace)

end Tomasulo
