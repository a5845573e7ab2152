import Mathlib.Tactic.ByContra
import Tomasulo.Machine
import Tomasulo.Proofs.Columns
import Tomasulo.Proofs.Registers

/-!
# Proofs/Sound — where a record can be

`Core.Sound` ties the machine to the trace it works on.  The queue holds the youngest of the fetched
records; a record that has been issued is in one station of its pool until it is finished; a record
that has started is on one unit as long as it is in its station.  Every step of a cycle keeps these
facts, whatever the order of the steps (`Tomasulo.Proofs.Move`).
-/

namespace Tomasulo

/-- The machine has the sizes and latencies of a configuration. -/
structure Machine.Fits (config : Config) (m : Machine) : Prop where
  registers : m.registers.size = config.registers
  queue : m.queue.capacity = config.queue
  stations : ∀ p, (m.stations p).size = (config.pools p).stations
  units : ∀ p, (m.units p).running.size = (config.pools p).units
  latency : ∀ p, (m.units p).latency = (config.pools p).latency

theorem Machine.fits_idle (config : Config) : (Machine.idle config).Fits config where
  registers := Slots.size_empty _
  queue := rfl
  stations p := by simp [idle]
  units p := by simp [idle, Units.idle]
  latency p := by simp [idle, Units.idle]

namespace Core

/-! ## Looking into a core -/

/-- What a station of a pool holds. -/
def stationAt (c : Core) (p : Pool) (s : Nat) : Option InFlight :=
  (c.machine.stations p).get s

/-- The station whose record a unit of a pool runs. -/
def unitAt (c : Core) (p : Pool) (u : Nat) : Option Nat :=
  (c.machine.units p).running.get u

/-- The indices in the fetch queue, the oldest first. -/
def queued (c : Core) : List Nat :=
  c.machine.queue.entries.map (·.index)

/-- A record is in a station. -/
def IsStationed (c : Core) (i : Nat) : Prop :=
  ∃ p s e, c.stationAt p s = some e ∧ e.index = i

/-- A unit runs the record of a station. -/
def Runs (c : Core) (r : Running) : Prop :=
  c.unitAt r.pool r.unit = some r.station ∧ c.stationAt r.pool r.station = some r.record

/-- A record is on a unit. -/
def IsRunning (c : Core) (i : Nat) : Prop :=
  ∃ r, c.Runs r ∧ r.record.index = i

/-- What runs is listed with its pool. -/
theorem mem_running {c : Core} {p : Pool} {r : Running} :
    r ∈ c.machine.running p ↔ r.pool = p ∧ c.Runs r := by
  obtain ⟨q, u, s, e⟩ := r
  simp only [Machine.running, List.mem_filterMap, Option.map_eq_some_iff, Prod.exists,
    Slots.mem_occupied, Running.mk.injEq, Runs, unitAt, stationAt]
  constructor
  · rintro ⟨u', s', hu, e', hs, rfl, rfl, rfl, rfl⟩
    exact ⟨rfl, hu, hs⟩
  · rintro ⟨rfl, hu, hs⟩
    exact ⟨u, s, hu, e, hs, rfl, rfl, rfl, rfl⟩

/-- The records on the units of a pool are on different units. -/
theorem pairwise_running (c : Core) (p : Pool) :
    (c.machine.running p).Pairwise (·.unit < ·.unit) := by
  refine List.Pairwise.filterMap _ (fun x y hxy r hr r' hr' => ?_)
    (c.machine.units p).running.pairwise_occupied
  obtain ⟨e, -, rfl⟩ := Option.map_eq_some_iff.1 hr
  obtain ⟨e', -, rfl⟩ := Option.map_eq_some_iff.1 hr'
  exact hxy

/-- The front end: what has been fetched, and the queue. -/
structure FrontSound (config : Config) (program : Trace) (c : Core) : Prop where
  fits : c.machine.Fits config
  /-- A run writes the schedule only. -/
  frame : c.trace.unscheduled = program
  numbered : program.Numbered
  /-- What has been fetched has passed the check. -/
  accepted : ∀ {i}, i < c.machine.cursor →
    ∃ r op, program[i]? = some r ∧ r.check config.registers = .ok op
  /-- The queue holds the youngest of the fetched records. -/
  queue : c.queued <:+ program.scheduledBelow c.machine.cursor
  queue_class : ∀ e ∈ c.machine.queue.entries, program.classAt e.index = some e.op
  queue_room : c.machine.queue.entries.length ≤ config.queue
  dispatched : ∀ {i}, (c.trace.cycleAt .dispatch i).isSome = true ↔
    i < c.machine.cursor ∧ program.isScheduled i = true
  issued : ∀ {i}, (c.trace.cycleAt .issue i).isSome = true ↔
    i < c.machine.cursor ∧ (program.poolAt i).isSome = true ∧ i ∉ c.queued

/-- The back end: stations, units and the bus. -/
structure BackSound (program : Trace) (c : Core) : Prop where
  station_class : ∀ {p s e}, c.stationAt p s = some e →
    program.classAt e.index = some e.op ∧ e.op.pool = some p
  station_stamps : ∀ {p s e}, c.stationAt p s = some e →
    (c.trace.cycleAt .issue e.index).isSome = true ∧ c.trace.cycleAt .cdb e.index = none
  station_inj : ∀ {p s s' e e'}, c.stationAt p s = some e → c.stationAt p s' = some e' →
    e.index = e'.index → s = s'
  unit_station : ∀ {p u s}, c.unitAt p u = some s →
    ∃ e, c.stationAt p s = some e ∧ (c.trace.cycleAt .execute e.index).isSome = true
  unit_inj : ∀ {p u u' s}, c.unitAt p u = some s → c.unitAt p u' = some s → u = u'
  running : ∀ {p s e}, c.stationAt p s = some e →
    (c.trace.cycleAt .execute e.index).isSome = true → ∃ u, c.unitAt p u = some s
  started : ∀ {i}, (c.trace.cycleAt .execute i).isSome = true →
    (c.trace.cycleAt .issue i).isSome = true
  broadcast : ∀ {i}, (c.trace.cycleAt .cdb i).isSome = true →
    program.publishes i = true ∧ (c.trace.cycleAt .execute i).isSome = true
  /-- A record that has left its station is finished. -/
  left : ∀ {i}, (c.trace.cycleAt .issue i).isSome = true → ¬ c.IsStationed i →
    (c.trace.cycleAt .execute i).isSome = true ∧
      (program.publishes i = true → (c.trace.cycleAt .cdb i).isSome = true)
  bus : ∀ {d}, c.machine.bus.carried = some d → (c.trace.cycleAt .cdb d).isSome = true

/-- **The machine and the trace agree** on what the program is and where its records are. -/
structure Sound (config : Config) (program : Trace) (c : Core) : Prop extends
    FrontSound config program c, BackSound program c

section Congr

variable {config : Config} {program : Trace} {c d : Core}

/-- The front end reads the queue, the cursor and two columns. -/
theorem FrontSound.congr (h : c.FrontSound config program) (hfits : d.machine.Fits config)
    (hframe : d.trace.unscheduled = program) (hqueue : d.machine.queue = c.machine.queue)
    (hcursor : d.machine.cursor = c.machine.cursor)
    (hdispatch : ∀ i, d.trace.cycleAt .dispatch i = c.trace.cycleAt .dispatch i)
    (hissue : ∀ i, d.trace.cycleAt .issue i = c.trace.cycleAt .issue i) :
    d.FrontSound config program := by
  have hqueued : d.queued = c.queued := by rw [queued, hqueue, queued]
  constructor
  case fits => exact hfits
  case frame => exact hframe
  case numbered => exact h.numbered
  case accepted => rw [hcursor]; exact h.accepted
  case queue => rw [hqueued, hcursor]; exact h.queue
  case queue_class => rw [hqueue]; exact h.queue_class
  case queue_room => rw [hqueue]; exact h.queue_room
  case dispatched => intro i; rw [hdispatch, hcursor]; exact h.dispatched
  case issued => intro i; rw [hissue, hcursor, hqueued]; exact h.issued

/-- The back end reads stations, units, the bus and three columns; it does not mind an idle bus. -/
theorem BackSound.congr (h : c.BackSound program) (hstation : d.stationAt = c.stationAt)
    (hunit : d.unitAt = c.unitAt)
    (hbus : ∀ w, d.machine.bus.carried = some w → c.machine.bus.carried = some w)
    (hcycle : ∀ stage i, stage ≠ .dispatch → d.trace.cycleAt stage i = c.trace.cycleAt stage i) :
    d.BackSound program := by
  have hissue (i : Nat) := hcycle .issue i (by decide)
  have hexecute (i : Nat) := hcycle .execute i (by decide)
  have hcdb (i : Nat) := hcycle .cdb i (by decide)
  constructor
  case station_class => rw [hstation]; exact h.station_class
  case station_stamps => simpa only [hstation, hissue, hcdb] using @h.station_stamps
  case station_inj => rw [hstation]; exact h.station_inj
  case unit_station => simpa only [hstation, hunit, hexecute] using @h.unit_station
  case unit_inj => rw [hunit]; exact h.unit_inj
  case running => simpa only [hstation, hunit, hexecute] using @h.running
  case started => simpa only [hissue, hexecute] using @h.started
  case broadcast => simpa only [hexecute, hcdb] using @h.broadcast
  case left => simpa only [IsStationed, hstation, hissue, hexecute, hcdb] using @h.left
  case bus => intro w hw; rw [hcdb]; exact h.bus (hbus w hw)

end Congr

/-! ## Before the first cycle -/

/-- A trace without a schedule on an idle machine. -/
def start (config : Config) (program : Trace) : Core :=
  { machine := Machine.idle config, trace := program }

end Core

namespace Trace

theorem cycleAt_unscheduled (t : Trace) (stage : Stage) (i : Nat) :
    t.unscheduled.cycleAt stage i = none := by
  simp only [cycleAt, getElem?_unscheduled]
  rcases t[i]? with _ | r
  · rfl
  · exact Stamps.cycleOf_blank stage

theorem producerAt_unscheduled (t : Trace) (i slot : Nat) :
    t.unscheduled.producerAt i slot = none := by
  simp only [producerAt, getElem?_unscheduled]
  rcases t[i]? with _ | r
  · rfl
  · simp only [Option.map_some, Option.bind_some, Record.unscheduled, Operands.empty,
      Vector.getElem?_replicate]
    split <;> rfl

end Trace

namespace Core

/-- The first core is sound. -/
theorem sound_start (config : Config) {program : Trace} (hprogram : program.unscheduled = program)
    (hnumbered : program.Numbered) : (start config program).Sound config program := by
  have hcycle (stage : Stage) (i : Nat) : (start config program).trace.cycleAt stage i = none := by
    change program.cycleAt stage i = none
    rw [← hprogram]
    exact program.cycleAt_unscheduled stage i
  have hstation (p : Pool) (s : Nat) : (start config program).stationAt p s = none := by
    simp [stationAt, start, Machine.idle]
  have hunit (p : Pool) (u : Nat) : (start config program).unitAt p u = none := by
    simp [unitAt, start, Machine.idle, Units.idle]
  have hcursor : (start config program).machine.cursor = 0 := rfl
  have hentries : (start config program).machine.queue.entries = [] := rfl
  have hbus : (start config program).machine.bus.carried = none := rfl
  refine ⟨⟨Machine.fits_idle config, hprogram, hnumbered, ?_, List.nil_suffix, ?_, ?_, ?_, ?_⟩, ?_⟩
  case refine_6 => constructor <;> simp [hcycle, hstation, hunit, hbus]
  all_goals simp [hcycle, hcursor, hentries]

/-! ## Reading the invariant -/

section Reading

variable {config : Config} {program : Trace} {c : Core}

theorem Sound.size_trace (h : c.Sound config program) : c.trace.size = program.size :=
  Trace.size_eq_of_unscheduled h.frame

/-- No more is fetched than there is. -/
theorem Sound.cursor_le (h : c.Sound config program) : c.machine.cursor ≤ program.size := by
  refine Nat.le_of_not_lt fun hlt => ?_
  obtain ⟨r, op, hr, -⟩ := h.accepted hlt
  exact Nat.lt_irrefl _ (Trace.lt_size_of_getElem? hr)

/-- The record of the trace at a numbered position. -/
theorem Sound.index_eq (h : c.Sound config program) {i : Nat} {r : Record}
    (hr : c.trace[i]? = some r) : r.index = i :=
  h.numbered i r.unscheduled (Trace.getElem?_of_unscheduled h.frame hr)

/-- The check looks at the program only. -/
theorem Sound.check_eq (h : c.Sound config program) {i : Nat} {r : Record}
    (hr : c.trace[i]? = some r) :
    program[i]? = some r.unscheduled ∧ r.unscheduled.check config.registers =
      r.check c.machine.registers.size := by
  refine ⟨Trace.getElem?_of_unscheduled h.frame hr, ?_⟩
  rw [h.fits.registers]
  rfl

/-- The columns of the program can be read off the trace. -/
theorem Sound.classAt_trace (h : c.Sound config program) : c.trace.classAt = program.classAt := by
  rw [← h.frame, Trace.classAt_unscheduled]

theorem Sound.poolAt_trace (h : c.Sound config program) : c.trace.poolAt = program.poolAt := by
  rw [← h.frame, Trace.poolAt_unscheduled]

theorem Sound.publishes_trace (h : c.Sound config program) :
    c.trace.publishes = program.publishes := by
  rw [← h.frame, Trace.publishes_unscheduled]

/-- The scheduled records are those of the program. -/
theorem Sound.scheduledBelow_trace (h : c.Sound config program) (bound : Nat) :
    c.trace.scheduledBelow bound = program.scheduledBelow bound := by
  rw [Trace.scheduledBelow, ← Trace.isScheduled_unscheduled, h.frame, Trace.scheduledBelow]

theorem Sound.order_trace (h : c.Sound config program) : c.trace.order = program.order := by
  rw [Trace.order, h.size_trace, h.scheduledBelow_trace, Trace.order]

/-- A fetched record that is no trap uses registers that exist. -/
theorem Sound.lt_size_registers (h : c.Sound config program) {i : Nat} {r : Record}
    (hi : i < c.machine.cursor) (hsched : program.isScheduled i = true)
    (hr : c.trace[i]? = some r) :
    ∀ register ∈ r.writes ++ r.reads, register < c.machine.registers.size := by
  obtain ⟨r', op, hr', hcheck⟩ := h.accepted hi
  obtain rfl := Option.some.inj (hr'.symm.trans (h.check_eq hr).1)
  obtain ⟨op', hop', hne⟩ := Trace.isScheduled_iff.1 hsched
  have hclass : program.classAt i = some op := by
    rw [Trace.classAt, hr']
    exact Record.class?_eq_of_check hcheck
  obtain rfl := Option.some.inj (hop'.symm.trans hclass)
  rw [h.fits.registers]
  exact Record.lt_of_check hcheck hne

/-- What has been issued has a pool. -/
theorem Sound.exists_poolAt_of_issued (h : c.Sound config program) {i : Nat}
    (hi : (c.trace.cycleAt .issue i).isSome = true) : ∃ p, c.trace.poolAt i = some p := by
  rw [h.poolAt_trace]
  exact Option.isSome_iff_exists.1 (h.issued.1 hi).2.1

/-- What has a pool is scheduled. -/
theorem Sound.isScheduled_of_poolAt (h : c.Sound config program) {i : Nat} {p : Pool}
    (hp : c.trace.poolAt i = some p) : program.isScheduled i = true := by
  rw [h.poolAt_trace] at hp
  exact Trace.isScheduled_of_poolAt hp

/-- What is queued has been fetched. -/
theorem Sound.mem_queued (h : c.Sound config program) {i : Nat} (hi : i ∈ c.queued) :
    i < c.machine.cursor ∧ program.isScheduled i = true :=
  Trace.mem_scheduledBelow.1 (h.queue.subset hi)

/-- The queue is in program order. -/
theorem Sound.pairwise_queued (h : c.Sound config program) : c.queued.Pairwise (· < ·) :=
  (program.pairwise_scheduledBelow _).sublist h.queue.sublist

/-- **The queue holds the youngest**: what has been fetched and is not in the queue is older. -/
theorem Sound.lt_of_not_mem_queued (h : c.Sound config program) {i j : Nat}
    (hi : i < c.machine.cursor) (hsched : program.isScheduled i = true) (hiq : i ∉ c.queued)
    (hj : j ∈ c.queued) : i < j := by
  obtain ⟨gone, hgone⟩ := h.queue
  have hmem : i ∈ gone ++ c.queued := by
    rw [hgone]
    exact Trace.mem_scheduledBelow.2 ⟨hi, hsched⟩
  have hsorted : (gone ++ c.queued).Pairwise (· < ·) := by
    rw [hgone]
    exact program.pairwise_scheduledBelow _
  have hi' : i ∈ gone := (List.mem_append.1 hmem).resolve_right hiq
  exact (List.pairwise_append.1 hsorted).2.2 i hi' j hj

theorem Sound.poolAt_station (h : c.Sound config program) {p : Pool} {s : Nat} {e : InFlight}
    (hs : c.stationAt p s = some e) : program.poolAt e.index = some p :=
  Trace.poolAt_eq_some_iff.2 ⟨e.op, h.station_class hs⟩

/-- **A record is in its station when it has been issued and is not finished.** -/
theorem Sound.isStationed_of_publishes (h : c.Sound config program) {i : Nat}
    (hi : program.publishes i = true) :
    c.IsStationed i ↔
      (c.trace.cycleAt .issue i).isSome = true ∧ c.trace.cycleAt .cdb i = none := by
  constructor
  · rintro ⟨p, s, e, hs, rfl⟩
    exact h.station_stamps hs
  · rintro ⟨hissue, hcdb⟩
    by_contra hnot
    have := (h.left hissue hnot).2 hi
    rw [hcdb] at this
    exact Bool.noConfusion this

/-- A record that has not started is in its station from its issue on. -/
theorem Sound.isStationed_of_not_started (h : c.Sound config program) {i : Nat}
    (hissue : (c.trace.cycleAt .issue i).isSome = true)
    (hexecute : c.trace.cycleAt .execute i = none) : c.IsStationed i := by
  by_contra hnot
  have := (h.left hissue hnot).1
  rw [hexecute] at this
  exact Bool.noConfusion this

/-- **A record runs while it is in its station and has started.** -/
theorem Sound.isRunning_iff (h : c.Sound config program) {i : Nat} :
    c.IsRunning i ↔ c.IsStationed i ∧ (c.trace.cycleAt .execute i).isSome = true := by
  constructor
  · rintro ⟨⟨p, u, s, e⟩, ⟨hu, hs⟩, rfl⟩
    obtain ⟨e', hs', hexec⟩ := h.unit_station hu
    obtain rfl := Option.some.inj (hs.symm.trans hs')
    exact ⟨⟨p, s, e, hs, rfl⟩, hexec⟩
  · rintro ⟨⟨p, s, e, hs, rfl⟩, hexec⟩
    obtain ⟨u, hu⟩ := h.running hs hexec
    exact ⟨⟨p, u, s, e⟩, ⟨hu, hs⟩, rfl⟩

end Reading

/-! ## What a core decides by looking -/

/-- A record has finished when its start and the latency, as words, make a cycle that has come. -/
theorem hasFinished_iff {c : Core} {now : Nat} {p : Pool} {u s : Nat} {e : InFlight} :
    c.hasFinished now ⟨p, u, s, e⟩ = true ↔
      ∃ n, c.trace.cycleAt .execute e.index = some n ∧
        wordAdd n (c.machine.units p).latency ≤ now := by
  simp [hasFinished, Trace.cycleAt, Units.hasFinished, Option.any_eq_true, Stamps.cycleOf]

/-- A record that waits for nothing has no producers left. -/
theorem isWaiting_eq_false_iff {r : Record} :
    r.isWaiting = false ↔ ∀ slot : Nat, r.producers[slot]?.join = none := by
  simp only [Record.isWaiting, Vector.any_eq_false]
  constructor
  · intro h slot
    by_cases hslot : slot < maxInputs
    · simpa [hslot] using h slot hslot
    · simp [hslot]
  · intro h slot hslot
    simpa [hslot] using h slot

/-- **Ready is**: nothing to wait for, in its station since an earlier cycle, and not started. -/
theorem isReady_iff {c : Core} {now : Nat} {e : InFlight} (hlt : e.index < c.trace.size) :
    c.isReady now e = true ↔
      (∀ slot, c.trace.producerAt e.index slot = none) ∧
      (∃ n, c.trace.cycleAt .issue e.index = some n ∧ n < now) ∧
      c.trace.cycleAt .execute e.index = none := by
  obtain ⟨r, hr⟩ := Trace.exists_getElem? hlt
  simp [isReady, Trace.producerAt, Trace.cycleAt, hr, ← isWaiting_eq_false_iff, Stamps.cycleOf,
    Option.any_eq_true, and_assoc]

end Core

end Tomasulo
