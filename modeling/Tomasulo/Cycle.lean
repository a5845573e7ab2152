import Tomasulo.Machine

/-!
# Cycle — what happens in one clock cycle

The five steps of a cycle run against the flow of the records, so that whatever a step gives up a
later step of the same cycle can take:

* `wake` — the result on the bus reaches the registers and the stations waiting for it;
* `complete` — finished stores leave, and the oldest finished result takes the bus;
* `start` — in each pool the oldest ready records take the idle units;
* `issue` — the head of the fetch queue is renamed into a station, or leaves if it is a jump or
  branch;
* `fetch` — the next record of the trace enters the queue, traps being passed over.

A step that stops keeps what it has written so far.
-/

namespace Tomasulo

/-- An action on a core. -/
abbrev Step := EStateM Halt Core

namespace Step

instance : MonadLift (Except Fault) Step where
  monadLift
    | .ok a => pure a
    | .error cause => throw (.fault cause)

instance : MonadLift (Except Rejection) Step where
  monadLift
    | .ok a => pure a
    | .error reason => throw (.rejected reason)

/-! ## Elementary actions -/

/-- Adds an event to the log. -/
def emit (e : Event) : Step Unit :=
  modify fun c => { c with log := c.log.push e }

/-- The machine as it stands. -/
def machine : Step Machine :=
  return (← get).machine

/-- Changes the machine. -/
def onMachine (f : Machine → Machine) : Step Unit :=
  modify fun c => { c with machine := f c.machine }

/-- The record at a trace position. -/
def record (index : Nat) : Step Record := do
  (← get).trace.read index

/-- Changes the record at a trace position. -/
def amend (index : Nat) (f : Record → Record) : Step Unit := do
  let _ ← record index
  modify fun c => { c with trace := c.trace.modify index f }

/-- Stamps the record at a trace position with a stage's cycle. -/
def stamp (stage : Stage) (now index : Nat) : Step Unit := do
  let r ← (← record index).stamp stage now
  amend index fun _ => r

/-! What an elementary action leaves. -/

@[simp] theorem run_emit (e : Event) (c : Core) :
    (emit e).run c = .ok () { c with log := c.log.push e } := rfl

@[simp] theorem run_machine (c : Core) : machine.run c = .ok c.machine c := rfl

@[simp] theorem run_onMachine (f : Machine → Machine) (c : Core) :
    (onMachine f).run c = .ok () { c with machine := f c.machine } := rfl

@[simp] theorem run_record {c : Core} {index : Nat} {r : Record} (h : c.trace[index]? = some r) :
    (record index).run c = .ok r c := by
  simp only [record, EStateM.run_bind, EStateM.run_get, Trace.read, h]
  rfl

@[simp] theorem run_amend {c : Core} {index : Nat} {r : Record} (h : c.trace[index]? = some r)
    (f : Record → Record) :
    (amend index f).run c = .ok () { c with trace := c.trace.modify index f } := by
  simp [amend, h]

/-! ## Wake -/

/-- Ends the claim of `done` on a register. -/
def forget (done register : Nat) : Step Unit := do
  let registers ← (← machine).registers.forget done register
  onMachine ({ · with registers })

/-- The result on the bus becomes available: its registers lose their writer unless a later one has
claimed them, and the stations waiting for it stop waiting. -/
def wake (now : Nat) : Step Unit := do
  match (← machine).bus.carried with
  | none => return
  | some done =>
    onMachine ({ · with bus := .idle })
    (← record done).writes.forM (forget done)
    (← machine).stationed.forM fun e => amend e.index (·.resolve done)
    emit (.retired now done)

/-! ## Complete -/

/-- Idles a unit and vacates the station it ran; the record that leaves, if the unit ran any. -/
def release (pool : Pool) (unit : Nat) : Step (Option InFlight) := do
  let m ← machine
  let (station?, units) ← (m.units pool).release unit
  onMachine ({ · with units := m.units.set pool units })
  match station? with
  | none => return none
  | some station =>
    let (e, stations) ← (m.stations pool).vacate station
    onMachine ({ · with stations := m.stations.set pool stations })
    return some e

/-- Finished stores of a pool leave; they have nothing to publish. -/
def completeStores (now : Nat) (pool : Pool) (add : Nat → Nat → Nat := wordAdd) : Step Unit := do
  ((← get).finishedStores now pool add).forM fun r => do
    if let some e ← release r.pool r.unit then
      emit (.storeCompleted now e.index)

/-- Finished stores leave both pools, then the oldest finished result of either pool takes the bus
and leaves.  Other finished results stay on their units. -/
def complete (now : Nat) (add : Nat → Nat → Nat := wordAdd) : Step Unit := do
  Pool.all.forM fun pool => completeStores now pool add
  match (← get).winner? now add with
  | none => return
  | some r =>
    stamp .cdb now r.record.index
    let bus ← (← machine).bus.broadcast r.record.index
    onMachine ({ · with bus })
    let freed ← release r.pool r.unit
    if freed.map (·.index) ≠ some r.record.index then
      throw (.fault .strayRelease)
    emit (.broadcast now r.record.index r.pool)

/-! ## Start -/

/-- The oldest ready record of a pool starts on the first of `idle`, the next one on the second, and
so on until units or records run out. -/
def startOn (now : Nat) (pool : Pool) : (idle : List Nat) → Step Unit
  | [] => return
  | unit :: idle => do
    match (← get).oldestReady? now pool with
    | none => return
    | some (station, e) =>
      stamp .execute now e.index
      let m ← machine
      let units ← (m.units pool).assign unit station
      onMachine ({ · with units := m.units.set pool units })
      emit (.started now e.index pool unit)
      startOn now pool idle

/-- In each pool the oldest ready records take the idle units, lowest unit first. -/
def start (now : Nat) : Step Unit :=
  Pool.all.forM fun pool => do
    startOn now pool ((← machine).units pool).running.vacant

/-! ## Issue -/

/-- Renames a record: its sources wait for the pending writers of their registers, then the record
claims its own destinations if it will publish a result.  Reading comes first, so no record waits
for itself. -/
def rename (e : InFlight) : Step Unit := do
  let r ← record e.index
  let producers ← (← machine).registers.sources r.inputs
  amend e.index ({ · with producers })
  if e.op.broadcasts then
    let registers ← (← machine).registers.claim r.outputs r.index
    onMachine ({ · with registers })

/-- The head of the fetch queue leaves it: a jump or branch at once, any other record into the
lowest free station of its pool.  With all stations taken it stays and holds up the queue. -/
def issue (now : Nat) : Step Unit := do
  let m ← machine
  match m.queue.front with
  | none => return
  | some e =>
    if e.op.isControl then
      onMachine ({ · with queue := m.queue.pop })
      emit (.resolved now e.index)
    else
      match e.op.pool with
      | none => return
      | some pool =>
        match (m.stations pool).place e with
        | none => emit (.stalled now e.index pool)
        | some (station, stations) =>
          onMachine ({ · with queue := m.queue.pop, stations := m.stations.set pool stations })
          stamp .issue now e.index
          rename e
          emit (.issued now e.index pool station)

/-! ## Fetch -/

/-- Takes the first record from the cursor on that is no trap, with `left` records left to look at.
Every record looked at must pass `Record.check`. -/
def fetchNext (now : Nat) : (left : Nat) → Step Unit
  | 0 => return
  | left + 1 => do
    let m ← machine
    let r ← record m.cursor
    let op ← r.check m.registers.size
    onMachine ({ · with cursor := m.cursor + 1 })
    if op = .trap then
      emit (.trapSkipped now r.index)
      fetchNext now left
    else
      stamp .dispatch now m.cursor
      let queue ← m.queue.push ⟨r.index, op⟩
      onMachine ({ · with queue })
      emit (.fetched now r.index op)

/-- The next record that is no trap enters the fetch queue, if there is room. -/
def fetch (now : Nat) : Step Unit := do
  let c ← get
  if c.machine.queue.isFull then
    return
  fetchNext now (c.trace.size - c.machine.cursor)

/-! ## The whole cycle -/

/-- **One clock cycle.** -/
def cycle (now : Nat) (add : Nat → Nat → Nat := wordAdd) : Step Unit := do
  wake now
  complete now add
  start now
  issue now
  fetch now
  let m ← machine
  emit (.cycleCompleted now m.queue.entries.length m.stationCounts m.bus.carried)

end Step

end Tomasulo
