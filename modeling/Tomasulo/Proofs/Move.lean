import Mathlib.Logic.Relation
import Mathlib.Tactic.Tauto
import Tomasulo.Proofs.Sound

/-!
# Proofs/Move — the elementary changes of a core

Every step of a cycle is a sequence of *moves*, each of which changes one thing: a result leaves the
bus, a store leaves, a result takes the bus, a record starts, the head of the queue leaves it, the
cursor passes a record.  `Core.Move` lists them with their guards.  What all moves keep, every step
keeps: `Sound.move` is the invariant of `Tomasulo.Proofs.Sound`, and `Sound.cycleAt_move` says that
a stamp is written once, with the cycle at hand.  Most moves come with their own entry in the log;
`Core.Deed` is what the steps after the wake consist of.
-/

namespace Tomasulo

/-! ## Writing one slot -/

namespace Machine

/-- The machine with the content of one station replaced. -/
def putStation (m : Machine) (p : Pool) (s : Nat) (content : Option InFlight) : Machine :=
  { m with stations := m.stations.set p ((m.stations p).put s content) }

/-- The machine with the content of one unit replaced. -/
def putUnit (m : Machine) (p : Pool) (u : Nat) (content : Option Nat) : Machine :=
  let units := m.units p
  { m with units := m.units.set p { units with running := units.running.put u content } }

/-- What stands in the stations after one is changed. -/
theorem get_putStation (m : Machine) (p : Pool) (s : Nat) (content : Option InFlight) (q : Pool)
    (x : Nat) :
    ((m.putStation p s content).stations q).get x =
      if q = p ∧ x = s ∧ s < (m.stations p).size then content else (m.stations q).get x := by
  simp only [putStation, ByPool.get_set]
  by_cases hq : q = p
  · subst hq
    simp only [if_true, Slots.get_put, true_and, eq_comm (a := s)]
  · simp [hq]

/-- What runs on the units after one is changed. -/
theorem get_putUnit (m : Machine) (p : Pool) (u : Nat) (content : Option Nat) (q : Pool)
    (x : Nat) :
    ((m.putUnit p u content).units q).running.get x =
      if q = p ∧ x = u ∧ u < (m.units p).running.size then content
      else (m.units q).running.get x := by
  simp only [putUnit, ByPool.get_set]
  by_cases hq : q = p
  · subst hq
    simp only [if_true, Slots.get_put, true_and, eq_comm (a := u)]
  · simp [hq]

variable {config : Config} {m : Machine}

/-- A change of one station leaves the sizes of the machine. -/
theorem Fits.putStation (h : m.Fits config) (p : Pool) (s : Nat) (content : Option InFlight) :
    (m.putStation p s content).Fits config where
  registers := h.registers
  queue := h.queue
  stations q := by
    simp only [Machine.putStation, ByPool.get_set]
    split
    · next hq => simpa [hq] using h.stations p
    · exact h.stations q
  units := h.units
  latency := h.latency

/-- A change of one unit leaves the sizes of the machine. -/
theorem Fits.putUnit (h : m.Fits config) (p : Pool) (u : Nat) (content : Option Nat) :
    (m.putUnit p u content).Fits config where
  registers := h.registers
  queue := h.queue
  stations := h.stations
  units q := by
    simp only [Machine.putUnit, ByPool.get_set]
    split
    · next hq => simpa [hq] using h.units p
    · exact h.units q
  latency q := by
    simp only [Machine.putUnit, ByPool.get_set]
    split
    · next hq => simpa [hq] using h.latency p
    · exact h.latency q

end Machine

/-- An event that tells why nothing has happened. -/
def Event.isStall : Event → Bool
  | .stalled .. => true
  | _ => false

namespace Core

/-! ## The moves -/

/-- The result on the bus has reached its registers and the stations waiting for it. -/
def woken (c : Core) (now done : Nat) (writes : List Nat) : Core where
  machine := { c.machine with
    bus := .idle
    registers := c.machine.registers.forgetAll done writes }
  trace := c.trace.resolved done (c.machine.stationed.map (·.index))
  log := c.log.push (.retired now done)

/-- A unit and the station it ran are free again. -/
def freed (c : Core) (p : Pool) (u s : Nat) : Core :=
  { c with machine := (c.machine.putUnit p u none).putStation p s none }

/-- A record has won the bus and left. -/
def published (c : Core) (now : Nat) (p : Pool) (u s i : Nat) : Core where
  machine := { (c.freed p u s).machine with bus := ⟨some i⟩ }
  trace := c.trace.stamped .cdb now i
  log := c.log.push (.broadcast now i p)

/-- The record of a station has started on a unit. -/
def begun (c : Core) (now : Nat) (p : Pool) (u s i : Nat) : Core where
  machine := c.machine.putUnit p u (some s)
  trace := c.trace.stamped .execute now i
  log := c.log.push (.started now i p u)

/-- The head of the queue has left it. -/
def popped (c : Core) : Core :=
  { c with machine.queue := c.machine.queue.pop }

/-- The head of the queue has been renamed into a station. -/
def issued (c : Core) (now : Nat) (p : Pool) (s : Nat) (e : InFlight) (r : Record) : Core where
  machine := { c.popped.machine.putStation p s (some e) with
    registers :=
      if e.op.broadcasts then c.machine.registers.claimAll e.index r.writes
      else c.machine.registers }
  trace := (c.trace.stamped .issue now e.index).renamed e.index
    (r.inputs.map (·.bind c.machine.registers.writer))
  log := c.log.push (.issued now e.index p s)

/-- The cursor has passed a record. -/
def advanced (c : Core) : Core :=
  { c with machine.cursor := c.machine.cursor + 1 }

/-- The record at the cursor has entered the queue. -/
def fetched (c : Core) (now : Nat) (op : OpClass) : Core where
  machine := { c.advanced.machine with
    queue := { c.machine.queue with
      entries := c.machine.queue.entries ++ [⟨c.machine.cursor, op⟩] } }
  trace := c.trace.stamped .dispatch now c.machine.cursor
  log := c.log.push (.fetched now c.machine.cursor op)

/-- An event has been logged. -/
def noted (c : Core) (e : Event) : Core :=
  { c with log := c.log.push e }

/-- **What a core can do in a cycle**, one change at a time. -/
inductive Move (now : Nat) (c : Core) : Core → Prop where
  | wake {d : Nat} {r : Record} (hbus : c.machine.bus.carried = some d)
      (hr : c.trace[d]? = some r) : Move now c (c.woken now d r.writes)
  | store {p : Pool} {u s : Nat} {e : InFlight} (hu : c.unitAt p u = some s)
      (hs : c.stationAt p s = some e) (hop : e.op = .store)
      (hdone : c.hasFinished now ⟨p, u, s, e⟩ = true) :
      Move now c ((c.freed p u s).noted (.storeCompleted now e.index))
  | publish {p : Pool} {u s : Nat} {e : InFlight} (hu : c.unitAt p u = some s)
      (hs : c.stationAt p s = some e) (hop : e.op.broadcasts = true)
      (hdone : c.hasFinished now ⟨p, u, s, e⟩ = true) (hbus : c.machine.bus.carried = none) :
      Move now c (c.published now p u s e.index)
  | start {p : Pool} {u s : Nat} {e : InFlight} (hlt : u < (c.machine.units p).running.size)
      (hu : c.unitAt p u = none) (hs : c.stationAt p s = some e)
      (hready : c.isReady now e = true) : Move now c (c.begun now p u s e.index)
  | pass {e : InFlight} {rest : List InFlight} (hq : c.machine.queue.entries = e :: rest)
      (hop : e.op.isControl = true) : Move now c (c.popped.noted (.resolved now e.index))
  | issue {e : InFlight} {rest : List InFlight} {p : Pool} {s : Nat} {r : Record}
      (hq : c.machine.queue.entries = e :: rest) (hpool : e.op.pool = some p)
      (hlt : s < (c.machine.stations p).size) (hs : c.stationAt p s = none)
      (hr : c.trace[e.index]? = some r) : Move now c (c.issued now p s e r)
  | skip {r : Record} (hr : c.trace[c.machine.cursor]? = some r)
      (hcheck : r.check c.machine.registers.size = .ok .trap) :
      Move now c (c.advanced.noted (.trapSkipped now c.machine.cursor))
  | fetch {r : Record} {op : OpClass} (hr : c.trace[c.machine.cursor]? = some r)
      (hcheck : r.check c.machine.registers.size = .ok op) (hop : op ≠ .trap)
      (hroom : c.machine.queue.entries.length < c.machine.queue.capacity) :
      Move now c (c.fetched now op)
  | note (e : Event) : Move now c (c.noted e)

/-- Any number of moves in one cycle. -/
abbrev Moves (now : Nat) : Core → Core → Prop :=
  Relation.ReflTransGen (Move now)

/-- A deed is a move that does not clear the bus and is logged for what it is: if nothing but an
event is added, the event is a stall. -/
structure Deed (now : Nat) (c c' : Core) : Prop where
  move : Move now c c'
  bus : c'.machine.bus.carried = none → c.machine.bus.carried = none
  stall : ∀ {e}, c' = c.noted e → e.isStall = true

/-- Any number of deeds in one cycle. -/
abbrev Deeds (now : Nat) : Core → Core → Prop :=
  Relation.ReflTransGen (Deed now)

/-- Deeds are moves. -/
theorem Deeds.moves {now : Nat} {c c' : Core} (h : Deeds now c c') : Moves now c c' := by
  induction h with
  | refl => exact .refl
  | tail _ hdeed ih => exact ih.tail hdeed.move

/-! ## What the moves do

### What they do to stations and units -/

section Views

variable (c : Core)

/-- A record that leaves frees just its own station. -/
theorem stationAt_freed (p : Pool) (u s : Nat) {q : Pool} {x : Nat} {e : InFlight} :
    (c.freed p u s).stationAt q x = some e ↔ ¬(q = p ∧ x = s) ∧ c.stationAt q x = some e := by
  change ((c.machine.putStation p s none).stations q).get x = some e ↔ _
  rw [Machine.get_putStation]
  by_cases h : q = p ∧ x = s
  · obtain ⟨rfl, rfl⟩ := h
    by_cases hlt : x < (c.machine.stations q).size
    · simp [hlt]
    · simp [hlt, Slots.get_eq_none_of_size_le (Nat.le_of_not_lt hlt)]
  · rw [if_neg fun h' => h ⟨h'.1, h'.2.1⟩]
    simp [h, stationAt]

/-- A record that leaves frees just its own unit. -/
theorem unitAt_freed (p : Pool) (u s : Nat) {q : Pool} {x y : Nat} :
    (c.freed p u s).unitAt q x = some y ↔ ¬(q = p ∧ x = u) ∧ c.unitAt q x = some y := by
  change ((c.machine.putUnit p u none).units q).running.get x = some y ↔ _
  rw [Machine.get_putUnit]
  by_cases h : q = p ∧ x = u
  · obtain ⟨rfl, rfl⟩ := h
    by_cases hlt : x < (c.machine.units q).running.size
    · simp [hlt]
    · simp [hlt, Slots.get_eq_none_of_size_le (Nat.le_of_not_lt hlt)]
  · rw [if_neg fun h' => h ⟨h'.1, h'.2.1⟩]
    simp [h, unitAt]

/-- A start takes just the unit it is made on. -/
theorem unitAt_begun {p : Pool} {u : Nat} (hlt : u < (c.machine.units p).running.size)
    (now s i : Nat) {q : Pool} {x y : Nat} :
    (c.begun now p u s i).unitAt q x = some y ↔
      (q = p ∧ x = u ∧ y = s) ∨ (¬(q = p ∧ x = u) ∧ c.unitAt q x = some y) := by
  change ((c.machine.putUnit p u (some s)).units q).running.get x = some y ↔ _
  rw [Machine.get_putUnit]
  by_cases h : q = p ∧ x = u
  · simp [h, hlt, eq_comm]
  · rw [if_neg fun h' => h ⟨h'.1, h'.2.1⟩]
    simp only [unitAt]
    tauto

/-- An issue fills just the station that is taken. -/
theorem stationAt_issued {p : Pool} {s : Nat} (hlt : s < (c.machine.stations p).size)
    (now : Nat) (e : InFlight) (r : Record) {q : Pool} {x : Nat} {f : InFlight} :
    (c.issued now p s e r).stationAt q x = some f ↔
      (q = p ∧ x = s ∧ f = e) ∨ (¬(q = p ∧ x = s) ∧ c.stationAt q x = some f) := by
  change ((c.popped.machine.putStation p s (some e)).stations q).get x = some f ↔ _
  rw [Machine.get_putStation]
  by_cases h : q = p ∧ x = s
  · have hlt' : s < (c.popped.machine.stations p).size := hlt
    simp [h, hlt', eq_comm]
  · rw [if_neg fun h' => h ⟨h'.1, h'.2.1⟩]
    simp only [stationAt, popped]
    tauto

/-- After an issue one more record is in a station. -/
theorem isStationed_issued {p : Pool} {s : Nat} (hlt : s < (c.machine.stations p).size)
    (hfree : c.stationAt p s = none) (now : Nat) (e : InFlight) (r : Record) (i : Nat) :
    (c.issued now p s e r).IsStationed i ↔ i = e.index ∨ c.IsStationed i := by
  constructor
  · rintro ⟨q, x, f, hf, rfl⟩
    rcases (c.stationAt_issued hlt now e r).1 hf with ⟨-, -, rfl⟩ | ⟨-, hf⟩
    · exact .inl rfl
    · exact .inr ⟨q, x, f, hf, rfl⟩
  · rintro (rfl | ⟨q, x, f, hf, rfl⟩)
    · exact ⟨p, s, e, (c.stationAt_issued hlt now e r).2 (.inl ⟨rfl, rfl, rfl⟩), rfl⟩
    · refine ⟨q, x, f, (c.stationAt_issued hlt now e r).2 (.inr ⟨?_, hf⟩), rfl⟩
      rintro ⟨rfl, rfl⟩
      rw [hfree] at hf
      cases hf

/-! ### What they do to the trace -/

/-- An issue stamps just the record that is issued. -/
theorem cycleAt_issued {e : InFlight} (hlt : e.index < c.trace.size) (now : Nat) (p : Pool)
    (s : Nat) (r : Record) (stage : Stage) (i : Nat) :
    (c.issued now p s e r).trace.cycleAt stage i =
      if i = e.index ∧ stage = .issue then some now else c.trace.cycleAt stage i := by
  change Trace.cycleAt (Trace.renamed ..) stage i = _
  rw [Trace.cycleAt_renamed, Trace.cycleAt_stamped hlt]

theorem cycleAt_issued_of_ne {stage : Stage} (h : stage ≠ .issue) (now : Nat) (p : Pool) (s : Nat)
    (e : InFlight) (r : Record) (i : Nat) :
    (c.issued now p s e r).trace.cycleAt stage i = c.trace.cycleAt stage i :=
  (Trace.cycleAt_renamed ..).trans (Trace.cycleAt_stamped_of_ne h ..)

/-- After an issue one more record is issued. -/
theorem isSome_issued_iff {e : InFlight} (hlt : e.index < c.trace.size) (now : Nat) (p : Pool)
    (s : Nat) (r : Record) (i : Nat) :
    ((c.issued now p s e r).trace.cycleAt .issue i).isSome = true ↔
      i = e.index ∨ (c.trace.cycleAt .issue i).isSome = true := by
  rw [cycleAt_issued c hlt]
  by_cases hi : i = e.index <;> simp [hi]

theorem cycleAt_begun_of_ne {stage : Stage} (h : stage ≠ .execute) (now : Nat) (p : Pool)
    (u s k i : Nat) : (c.begun now p u s k).trace.cycleAt stage i = c.trace.cycleAt stage i :=
  Trace.cycleAt_stamped_of_ne h ..

/-- After a start one more record has started. -/
theorem isSome_begun_iff {k : Nat} (hlt : k < c.trace.size) (now : Nat) (p : Pool) (u s i : Nat) :
    ((c.begun now p u s k).trace.cycleAt .execute i).isSome = true ↔
      i = k ∨ (c.trace.cycleAt .execute i).isSome = true :=
  Trace.isSome_stamped_iff hlt ..

theorem cycleAt_fetched_of_ne {stage : Stage} (h : stage ≠ .dispatch) (now : Nat) (op : OpClass)
    (i : Nat) : (c.fetched now op).trace.cycleAt stage i = c.trace.cycleAt stage i :=
  Trace.cycleAt_stamped_of_ne h ..

/-- After a fetch one more record has entered the queue. -/
theorem isSome_fetched_iff (hlt : c.machine.cursor < c.trace.size) (now : Nat) (op : OpClass)
    (i : Nat) : ((c.fetched now op).trace.cycleAt .dispatch i).isSome = true ↔
      i = c.machine.cursor ∨ (c.trace.cycleAt .dispatch i).isSome = true :=
  Trace.isSome_stamped_iff hlt ..

/-- A renamed record waits for the pending writers of its sources. -/
theorem producerAt_issued {e : InFlight} {r : Record} (hr : c.trace[e.index]? = some r)
    (now : Nat) (p : Pool) (s i slot : Nat) :
    (c.issued now p s e r).trace.producerAt i slot =
      if i = e.index then (c.trace.inputAt i slot).bind c.machine.registers.writer
      else c.trace.producerAt i slot := by
  have hlt : e.index < (c.trace.stamped .issue now e.index).size := by
    simpa [Trace.stamped] using Trace.lt_size_of_getElem? hr
  change Trace.producerAt (Trace.renamed ..) i slot = _
  rw [Trace.producerAt_renamed hlt, Trace.producerAt_stamped]
  split
  · next hi =>
    rw [hi, Trace.inputAt, hr, Vector.getElem?_map, Option.bind_some]
    rcases r.inputs[slot]? with _ | _ | register <;> rfl
  · rfl

/-- The records in stations are those that stand in one. -/
theorem mem_stationed {i : Nat} : i ∈ c.machine.stationed.map (·.index) ↔ c.IsStationed i := by
  simp only [Machine.stationed, List.mem_map, List.mem_flatMap, Prod.exists, Pool.mem_all,
    true_and, IsStationed, stationAt]
  constructor
  · rintro ⟨e, ⟨p, s, e', hs, rfl⟩, rfl⟩
    exact ⟨p, s, e', Slots.mem_occupied.1 hs, rfl⟩
  · rintro ⟨p, s, e, hs, rfl⟩
    exact ⟨e, ⟨p, s, e, Slots.mem_occupied.2 hs, rfl⟩, rfl⟩

/-- Waking stamps nothing. -/
theorem cycleAt_woken (now d : Nat) (writes : List Nat) (stage : Stage) (i : Nat) :
    (c.woken now d writes).trace.cycleAt stage i = c.trace.cycleAt stage i :=
  Trace.cycleAt_resolved ..

/-- **Waking empties the slots of the stationed records that wait for the result**, and no other. -/
theorem producerAt_woken (now d : Nat) (writes : List Nat) {i slot w : Nat} :
    (c.woken now d writes).trace.producerAt i slot = some w ↔
      c.trace.producerAt i slot = some w ∧ ¬(c.IsStationed i ∧ w = d) := by
  rw [← mem_stationed]
  change Trace.producerAt (Trace.resolved ..) i slot = _ ↔ _
  rw [Trace.producerAt_resolved]
  split
  · next h =>
    obtain ⟨hi, hd⟩ := h
    simp only [reduceCtorEq, hd, Option.some.injEq, hi, true_and, false_iff]
    rintro ⟨rfl, hne⟩
    exact hne rfl
  · next h =>
    refine ⟨fun hw => ⟨hw, ?_⟩, And.left⟩
    rintro ⟨hi, rfl⟩
    exact h ⟨hi, hw⟩

/-- Waking forgets just the registers whose writer is the result that is there. -/
theorem writer_woken (now d : Nat) (writes : List Nat) {register w : Nat} :
    (c.woken now d writes).machine.registers.writer register = some w ↔
      c.machine.registers.writer register = some w ∧ ¬(register ∈ writes ∧ w = d) := by
  change (c.machine.registers.forgetAll d writes).writer register = some w ↔ _
  rw [RegisterMap.writer_forgetAll]
  split
  · next h =>
    obtain ⟨hmem, hd⟩ := h
    simp only [reduceCtorEq, hd, Option.some.injEq, hmem, true_and, false_iff]
    rintro ⟨rfl, hne⟩
    exact hne rfl
  · next h =>
    refine ⟨fun hw => ⟨hw, ?_⟩, And.left⟩
    rintro ⟨hmem, rfl⟩
    exact h ⟨hmem, hw⟩

end Views

/-! ## The deeds

All moves but the wake of a result are deeds, and so is a stall that is logged. -/

namespace Deed

variable {now : Nat} {c : Core} {p : Pool} {u s : Nat} {e : InFlight}

/-- A store that has finished leaves. -/
theorem store (hu : c.unitAt p u = some s) (hs : c.stationAt p s = some e) (hop : e.op = .store)
    (hdone : c.hasFinished now ⟨p, u, s, e⟩ = true) :
    Deed now c ((c.freed p u s).noted (.storeCompleted now e.index)) where
  move := .store hu hs hop hdone
  bus := id
  stall {f} heq := by
    have hfreed : (c.freed p u s).unitAt p u = some s := (congrArg (·.unitAt p u) heq).trans hu
    exact absurd ⟨rfl, rfl⟩ ((c.unitAt_freed p u s).1 hfreed).1

/-- A result goes on the free bus. -/
theorem publish (hu : c.unitAt p u = some s) (hs : c.stationAt p s = some e)
    (hop : e.op.broadcasts = true) (hdone : c.hasFinished now ⟨p, u, s, e⟩ = true)
    (hbus : c.machine.bus.carried = none) : Deed now c (c.published now p u s e.index) where
  move := .publish hu hs hop hdone hbus
  bus := nofun
  stall {f} heq := by
    have hcarried : c.machine.bus.carried = some e.index :=
      (congrArg (·.machine.bus.carried) heq).symm
    cases hbus.symm.trans hcarried

/-- A record that is ready starts on a free unit. -/
theorem start (hlt : u < (c.machine.units p).running.size) (hu : c.unitAt p u = none)
    (hs : c.stationAt p s = some e) (hready : c.isReady now e = true) :
    Deed now c (c.begun now p u s e.index) where
  move := .start hlt hu hs hready
  bus := id
  stall {f} heq := by
    have hbegun := (c.unitAt_begun hlt now s e.index).2 (.inl ⟨rfl, rfl, rfl⟩)
    cases hu.symm.trans ((congrArg (·.unitAt p u) heq).symm.trans hbegun)

section Head

variable {rest : List InFlight} (hq : c.machine.queue.entries = e :: rest)

include hq

/-- What takes the head of the queue is no mere note. -/
theorem queue_ne {c' : Core} (hpop : c'.machine.queue = c.machine.queue.pop) {f : Event} :
    c' ≠ c.noted f := by
  intro heq
  have hsame : c.machine.queue.pop.entries = c.machine.queue.entries :=
    congrArg FetchQueue.entries (hpop.symm.trans (congrArg (·.machine.queue) heq))
  rw [FetchQueue.pop, hq] at hsame
  exact List.cons_ne_self e rest hsame.symm

/-- A control record leaves the queue. -/
theorem pass (hop : e.op.isControl = true) :
    Deed now c (c.popped.noted (.resolved now e.index)) where
  move := .pass hq hop
  bus := id
  stall heq := absurd heq (queue_ne hq rfl)

/-- A record takes a free station. -/
theorem issue {r : Record} (hpool : e.op.pool = some p) (hlt : s < (c.machine.stations p).size)
    (hs : c.stationAt p s = none) (hr : c.trace[e.index]? = some r) :
    Deed now c (c.issued now p s e r) where
  move := .issue hq hpool hlt hs hr
  bus := id
  stall heq := absurd heq (queue_ne hq rfl)

end Head

section Cursor

variable {r : Record} (hr : c.trace[c.machine.cursor]? = some r)

include hr

/-- A trap is passed over. -/
theorem skip (hcheck : r.check c.machine.registers.size = .ok .trap) :
    Deed now c (c.advanced.noted (.trapSkipped now c.machine.cursor)) where
  move := .skip hr hcheck
  bus := id
  stall heq := absurd (congrArg (·.machine.cursor) heq) (Nat.succ_ne_self _)

/-- A record enters the queue. -/
theorem fetch {op : OpClass} (hcheck : r.check c.machine.registers.size = .ok op)
    (hop : op ≠ .trap) (hroom : c.machine.queue.entries.length < c.machine.queue.capacity) :
    Deed now c (c.fetched now op) where
  move := .fetch hr hcheck hop hroom
  bus := id
  stall heq := absurd (congrArg (·.machine.cursor) heq) (Nat.succ_ne_self _)

end Cursor

/-- A stall is noted. -/
theorem note {f : Event} (hf : f.isStall = true) : Deed now c (c.noted f) where
  move := .note f
  bus := id
  stall {g} heq := by
    have hlog : c.log.push f = c.log.push g := congrArg Core.log heq
    rw [← Array.push_inj_right.1 hlog]
    exact hf

end Deed

end Core

end Tomasulo
