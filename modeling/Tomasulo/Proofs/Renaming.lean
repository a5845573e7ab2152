import Tomasulo.Proofs.Invariant
import Tomasulo.Proofs.Schedule

/-!
# Proofs/Renaming — who waits for whom, read off the program

The register map and the producers of a record are caches: both can be computed from the program,
the issue stamps and the results that have been on the bus.  `Core.Renamed` says so, exactly, and
every move keeps it (`Renamed.move`), whatever comes first when a result is published, retired and
renamed away in one cycle.  What follows from it: a record waits for older records only, and each of
them is still on its way (`Renamed.onItsWay`).
-/

namespace Tomasulo

namespace Core

/-- A record has retired: its result has been on the bus and has left it. -/
def IsRetired (c : Core) (i : Nat) : Prop :=
  (c.trace.cycleAt .cdb i).isSome = true ∧ c.machine.bus.carried ≠ some i

/-- A record has been issued. -/
def IsIssued (c : Core) (i : Nat) : Prop :=
  (c.trace.cycleAt .issue i).isSome = true

/-- **Exact renaming.**  The register map and the producers name the latest writers that have not
retired. -/
structure Renamed (program : Trace) (c : Core) : Prop where
  writer : ∀ {register w}, c.machine.registers.writer register = some w ↔
    program.IsLatestWriter c.IsIssued register w ∧ ¬ c.IsRetired w
  producer : ∀ {i}, c.IsStationed i → ∀ {slot w}, c.trace.producerAt i slot = some w ↔
    (∃ register, program.inputAt i slot = some register ∧
      program.IsLatestWriter (· < i) register w) ∧ ¬ c.IsRetired w
  /-- Who is in no station waits for nothing. -/
  elsewhere : ∀ {i}, ¬ c.IsStationed i → ∀ slot, c.trace.producerAt i slot = none
  /-- Who has started waits for nothing. -/
  started : ∀ {i}, (c.trace.cycleAt .execute i).isSome = true →
    ∀ slot, c.trace.producerAt i slot = none

variable {config : Config} {program : Trace} {c c' : Core} {now : Nat}

/-- Only the register map, the producers and the retired records matter, if the same records have
been issued and started and are in stations. -/
theorem Renamed.congr (h : c.Renamed program)
    (hwriter : ∀ r, c'.machine.registers.writer r = c.machine.registers.writer r)
    (hproducer : ∀ i slot, c'.trace.producerAt i slot = c.trace.producerAt i slot)
    (hretired : ∀ i, c'.IsRetired i ↔ c.IsRetired i) (hissued : ∀ i, c'.IsIssued i ↔ c.IsIssued i)
    (hstationed : ∀ i, c'.IsStationed i → c.IsStationed i)
    (hgone : ∀ i, c.IsStationed i → ¬ c'.IsStationed i →
      ∀ slot, c.trace.producerAt i slot = none)
    (hstarted : ∀ i, (c'.trace.cycleAt .execute i).isSome = true →
      (c.trace.cycleAt .execute i).isSome = true ∨ ∀ slot, c.trace.producerAt i slot = none) :
    c'.Renamed program := by
  constructor
  case writer =>
    intro register w
    rw [hwriter, h.writer, hretired, Trace.IsLatestWriter.congr fun j _ => hissued j]
  case producer =>
    intro i hi slot w
    rw [hproducer, h.producer (hstationed i hi), hretired]
  case elsewhere =>
    intro i hi slot
    rw [hproducer]
    by_cases hst : c.IsStationed i
    · exact hgone i hst hi slot
    · exact h.elsewhere hst slot
  case started =>
    intro i hi slot
    rw [hproducer]
    rcases hstarted i hi with hexec | hnone
    · exact h.started hexec slot
    · exact hnone slot

/-- The registers of a record of the trace are those of the program. -/
theorem Sound.writes_eq (h : c.Sound config program) {i : Nat} {r : Record}
    (hr : c.trace[i]? = some r) : r.writes = program.writesAt i := by
  rw [← h.frame, Trace.writesAt_unscheduled, Trace.writesAt, hr]
  rfl

/-! ## A result retires -/

/-- **The result that leaves the bus has retired.** -/
theorem Sound.isRetired_woken (h : c.Sound config program) {d : Nat}
    (hbus : c.machine.bus.carried = some d) (now : Nat) (writes : List Nat) (w : Nat) :
    (c.woken now d writes).IsRetired w ↔ w = d ∨ c.IsRetired w := by
  have hidle : (c.woken now d writes).machine.bus.carried = none := rfl
  rw [IsRetired, IsRetired, cycleAt_woken, hbus, hidle]
  by_cases hw : w = d
  · simp [hw, h.bus hbus]
  · simp [hw, Ne.symm hw]

theorem Renamed.woken (h : c.Renamed program) (hs : c.Sound config program) {d : Nat} {r : Record}
    (hbus : c.machine.bus.carried = some d) (hr : c.trace[d]? = some r) :
    (c.woken now d r.writes).Renamed program := by
  have hcycle := c.cycleAt_woken now d r.writes
  have hissued (i : Nat) : (c.woken now d r.writes).IsIssued i ↔ c.IsIssued i := by
    rw [IsIssued, hcycle, IsIssued]
  have hretired (w : Nat) : (c.woken now d r.writes).IsRetired w ↔ c.IsRetired w ∨ w = d :=
    (hs.isRetired_woken hbus now r.writes w).trans or_comm
  constructor
  case writer =>
    intro register w
    rw [writer_woken, h.writer, hretired, Trace.IsLatestWriter.congr fun j _ => hissued j]
    constructor
    · rintro ⟨⟨hw, hnot⟩, hd⟩
      refine ⟨hw, not_or.2 ⟨hnot, ?_⟩⟩
      rintro rfl
      exact hd ⟨hs.writes_eq hr ▸ hw.writes, rfl⟩
    · rintro ⟨hw, hnot⟩
      rw [not_or] at hnot
      exact ⟨⟨hw, hnot.1⟩, fun hd => hnot.2 hd.2⟩
  case producer =>
    intro i hi slot w
    have hst : c.IsStationed i := hi
    rw [producerAt_woken, h.producer hst, hretired, not_or, and_assoc]
    simp [hst]
  case elsewhere =>
    intro i hi slot
    refine Option.eq_none_iff_forall_ne_some.2 fun w hw => ?_
    rw [producerAt_woken, h.elsewhere hi] at hw
    cases hw.1
  case started =>
    intro i hi slot
    rw [hcycle] at hi
    refine Option.eq_none_iff_forall_ne_some.2 fun w hw => ?_
    rw [producerAt_woken, h.started hi] at hw
    cases hw.1

/-! ## A record is renamed -/

/-- The head of the queue becomes the writer of what it writes, if it publishes. -/
theorem Sound.writer_issued (h : c.Sound config program) {e : InFlight} {rest : List InFlight}
    (hq : c.machine.queue.entries = e :: rest) {r : Record} (hr : c.trace[e.index]? = some r)
    (p : Pool) (s register : Nat) :
    (c.issued now p s e r).machine.registers.writer register =
      if program.publishes e.index = true ∧ register ∈ program.writesAt e.index
      then some e.index else c.machine.registers.writer register := by
  have hmem := h.mem_queued (head_mem_queued hq)
  have hrange : ∀ register ∈ r.writes, register < c.machine.registers.size :=
    fun register hreg => h.lt_size_registers hmem.1 hmem.2 hr register
      (List.mem_append_left _ hreg)
  have hpublishes : program.publishes e.index = e.op.broadcasts := by
    simp [Trace.publishes, h.classAt_head hq]
  rw [hpublishes, ← h.writes_eq hr]
  change RegisterMap.writer (if _ then _ else _) register = _
  by_cases hb : e.op.broadcasts = true
  · rw [if_pos hb, RegisterMap.writer_claimAll hrange]
    simp [hb]
  · simp [hb]

/-- An issue renames its record: what has been issued by now is what comes before the head. -/
theorem Renamed.issue (h : c.Renamed program) (hs : c.Sound config program) {e : InFlight}
    {rest : List InFlight} (hq : c.machine.queue.entries = e :: rest) {p : Pool} {s : Nat}
    {r : Record} (hlt : s < (c.machine.stations p).size) (hfree : c.stationAt p s = none)
    (hr : c.trace[e.index]? = some r) :
    (c.issued now p s e r).Renamed program := by
  have hsize := Trace.lt_size_of_getElem? hr
  have hproducer := c.producerAt_issued hr now p s
  have hstationed := c.isStationed_issued hlt hfree now e r
  have hnew := hs.not_issued_head hq
  have hissued : ∀ i, (c.issued now p s e r).IsIssued i ↔ i = e.index ∨ c.IsIssued i :=
    c.isSome_issued_iff hsize now p s r
  have hretired (i : Nat) : (c.issued now p s e r).IsRetired i ↔ c.IsRetired i := by
    rw [IsRetired, cycleAt_issued_of_ne _ (by decide), IsRetired]
    rfl
  have hunretired : ¬ c.IsRetired e.index := fun hret => hnew (hs.started (hs.broadcast hret.1).2)
  have holder {j : Nat} (hj : c.IsIssued j) : j < e.index := by
    obtain ⟨p, hp⟩ := Option.isSome_iff_exists.1 (hs.issued.1 hj).2.1
    exact (hs.issued_iff_lt hq hp).1 hj
  constructor
  case writer =>
    intro register w
    rw [hs.writer_issued hq hr, hretired, Trace.IsLatestWriter.iff_of_youngest hissued holder]
    split
    · constructor
      · rintro ⟨⟩
        exact ⟨rfl, hunretired⟩
      · rintro ⟨rfl, -⟩
        rfl
    · exact h.writer
  case producer =>
    intro i hi slot w
    rw [hproducer, hretired]
    split
    · next heq =>
      have hbelow (j : Nat) (hj : program.publishes j = true) : c.IsIssued j ↔ j < i := by
        obtain ⟨q, hjq⟩ := Trace.exists_poolAt_of_publishes hj
        rw [heq]
        exact hs.issued_iff_lt hq hjq
      rw [← hs.frame, Trace.inputAt_unscheduled, hs.frame, Option.bind_eq_some_iff]
      simp only [h.writer, Trace.IsLatestWriter.congr hbelow, ← and_assoc, exists_and_right]
    · next hne => exact h.producer (((hstationed i).1 hi).resolve_left hne)
  case elsewhere =>
    intro i hi slot
    rw [hstationed, not_or] at hi
    rw [hproducer, if_neg hi.1]
    exact h.elsewhere hi.2 slot
  case started =>
    intro i hi slot
    rw [cycleAt_issued_of_ne _ (by decide)] at hi
    have hne : i ≠ e.index := by
      rintro rfl
      exact hnew (hs.started hi)
    rw [hproducer, if_neg hne]
    exact h.started hi slot

/-! ## The other moves -/

/-- Who leaves its station on its unit has started, and so waits for nothing. -/
theorem Renamed.gone (h : c.Renamed program) (hs : c.Sound config program) {p : Pool} {u s : Nat}
    (hu : c.unitAt p u = some s) {i : Nat} :
    ((c.freed p u s).IsStationed i → c.IsStationed i) ∧
      (c.IsStationed i → ¬ (c.freed p u s).IsStationed i →
        ∀ slot, c.trace.producerAt i slot = none) := by
  obtain ⟨e, he, hexec⟩ := hs.unit_station hu
  rw [hs.isStationed_freed he]
  refine ⟨And.left, fun hi hnot => ?_⟩
  rw [not_and_not_right] at hnot
  rw [hnot hi]
  exact h.started hexec

theorem Renamed.freed (h : c.Renamed program) (hs : c.Sound config program) {p : Pool} {u s : Nat}
    (hu : c.unitAt p u = some s) : (c.freed p u s).Renamed program :=
  h.congr (fun _ => rfl) (fun _ _ => rfl) (fun _ => .rfl) (fun _ => .rfl)
    (fun _ => (h.gone hs hu).1) (fun _ => (h.gone hs hu).2) fun _ => .inl

theorem Renamed.published (h : c.Renamed program) (hs : c.Sound config program) {p : Pool}
    {u s : Nat} {e : InFlight} (hu : c.unitAt p u = some s) (hst : c.stationAt p s = some e)
    (hbus : c.machine.bus.carried = none) : (c.published now p u s e.index).Renamed program := by
  have hlt := hs.lt_size_of_station hst
  have hcdb := (hs.station_stamps hst).2
  refine h.congr (fun _ => rfl) (c.trace.producerAt_stamped .cdb now e.index) ?_ ?_
    (fun _ => (h.gone hs hu).1) (fun _ => (h.gone hs hu).2) ?_
  · intro i
    have hcarried : (c.published now p u s e.index).machine.bus.carried = some e.index := rfl
    change ((c.trace.stamped .cdb now e.index).cycleAt .cdb i).isSome = true ∧ _ ↔ _
    rw [Trace.isSome_stamped_iff hlt, hcarried, IsRetired, hbus]
    by_cases hi : i = e.index
    · simp [hi, hcdb]
    · simp [hi, Ne.symm hi]
  · intro i
    change ((c.trace.stamped .cdb now e.index).cycleAt .issue i).isSome = true ↔ _
    rw [Trace.cycleAt_stamped_of_ne (by decide)]
    rfl
  · intro i hi
    change ((c.trace.stamped .cdb now e.index).cycleAt .execute i).isSome = true at hi
    rw [Trace.cycleAt_stamped_of_ne (by decide)] at hi
    exact .inl hi

theorem Renamed.begun (h : c.Renamed program) (hs : c.Sound config program) {p : Pool}
    {u s : Nat} {e : InFlight} (hst : c.stationAt p s = some e) (hready : c.isReady now e = true) :
    (c.begun now p u s e.index).Renamed program := by
  have hlt := hs.lt_size_of_station hst
  refine h.congr (fun _ => rfl) (c.trace.producerAt_stamped .execute now e.index) ?_ ?_
    (fun _ hi => hi) (fun _ hi hnot => absurd hi hnot) ?_
  · intro i
    rw [IsRetired, cycleAt_begun_of_ne _ (by decide), IsRetired]
    rfl
  · intro i
    rw [IsIssued, cycleAt_begun_of_ne _ (by decide), IsIssued]
  · intro i hi
    rcases (c.isSome_begun_iff hlt now p u s i).1 hi with rfl | hi
    · exact .inr ((isReady_iff hlt).1 hready).1
    · exact .inl hi

theorem Renamed.fetched (h : c.Renamed program) (op : OpClass) :
    (c.fetched now op).Renamed program := by
  refine h.congr (fun _ => rfl) (c.trace.producerAt_stamped .dispatch now c.machine.cursor) ?_ ?_
    (fun _ hi => hi) (fun _ hi hnot => absurd hi hnot) ?_
  · intro i
    rw [IsRetired, cycleAt_fetched_of_ne _ (by decide), IsRetired]
    rfl
  · intro i
    rw [IsIssued, cycleAt_fetched_of_ne _ (by decide), IsIssued]
  · intro i hi
    rw [cycleAt_fetched_of_ne _ (by decide)] at hi
    exact .inl hi

/-- Neither the queue nor the cursor nor the log matters. -/
theorem Renamed.of_eq (h : c.Renamed program)
    (hregisters : c'.machine.registers = c.machine.registers)
    (hstations : c'.machine.stations = c.machine.stations) (hbus : c'.machine.bus = c.machine.bus)
    (htrace : c'.trace = c.trace) : c'.Renamed program := by
  have hst (i : Nat) : c'.IsStationed i ↔ c.IsStationed i := by
    simp only [IsStationed, stationAt, hstations]
  refine h.congr ?_ ?_ ?_ ?_ (fun i => (hst i).1) (fun i hi hnot => absurd ((hst i).2 hi) hnot) ?_
  · intro r
    rw [hregisters]
  · intro i slot
    rw [htrace]
  · intro i
    rw [IsRetired, htrace, hbus, IsRetired]
  · intro i
    rw [IsIssued, htrace, IsIssued]
  · intro i hi
    rw [htrace] at hi
    exact .inl hi

/-! ## All moves -/

/-- **Every move keeps the renaming exact.** -/
theorem Renamed.move (h : c.Renamed program) (hs : c.Sound config program)
    (hmove : Move now c c') : c'.Renamed program := by
  cases hmove with
  | wake hbus hr => exact h.woken hs hbus hr
  | store hu hst hop hdone => exact (h.freed hs hu).of_eq rfl rfl rfl rfl
  | publish hu hst hop hdone hbus => exact h.published hs hu hst hbus
  | start hlt hu hst hready => exact h.begun hs hst hready
  | pass hq hop => exact h.of_eq rfl rfl rfl rfl
  | issue hq hpool hlt hfree hr => exact h.issue hs hq hlt hfree hr
  | skip hr hcheck => exact h.of_eq rfl rfl rfl rfl
  | fetch hr hcheck hop hroom => exact h.fetched _
  | note e => exact h.of_eq rfl rfl rfl rfl

theorem Renamed.moves (h : c.Renamed program) (hs : c.Sound config program)
    (hmoves : Moves now c c') : c'.Renamed program := by
  induction hmoves with
  | refl => exact h
  | tail hmoves hmove ih => exact ih.move (hs.moves hmoves) hmove

/-- Before the first cycle nothing has been issued and nothing waits. -/
theorem renamed_start (config : Config) {program : Trace}
    (hprogram : program.unscheduled = program) : (start config program).Renamed program := by
  have hcycle (stage : Stage) (i : Nat) : (start config program).trace.cycleAt stage i = none := by
    change program.cycleAt stage i = none
    rw [← hprogram]
    exact program.cycleAt_unscheduled stage i
  have hproducer (i slot : Nat) : (start config program).trace.producerAt i slot = none := by
    change program.producerAt i slot = none
    rw [← hprogram]
    exact program.producerAt_unscheduled i slot
  constructor
  case writer =>
    intro register w
    have hempty : (start config program).machine.registers.writer register = none :=
      Slots.get_empty ..
    rw [hempty]
    refine ⟨nofun, fun h => ?_⟩
    have hmem := h.1.mem
    rw [IsIssued, hcycle] at hmem
    exact Bool.noConfusion hmem
  case producer =>
    rintro i ⟨p, s, e, he, -⟩
    simp [stationAt, start, Machine.idle] at he
  case elsewhere => exact fun _ _ => hproducer _ _
  case started => exact fun _ _ => hproducer _ _

/-! ## Reading the renaming -/

section Reading

variable (h : c.Renamed program) (hs : c.Sound config program)

include h in
/-- Whatever a record waits for is older. -/
theorem Renamed.lt_of_producer {i slot w : Nat} (hw : c.trace.producerAt i slot = some w) :
    w < i := by
  by_cases hi : c.IsStationed i
  · obtain ⟨⟨register, -, hlatest⟩, -⟩ := (h.producer hi).1 hw
    exact hlatest.mem
  · rw [h.elsewhere hi] at hw
    cases hw

include hs in
/-- A publishing record that has been issued and has not retired is in a station or on the bus. -/
theorem Sound.onItsWay_of_issued {w : Nat} (hpub : program.publishes w = true)
    (hissued : c.IsIssued w) (hret : ¬ c.IsRetired w) :
    c.IsStationed w ∨ c.machine.bus.carried = some w := by
  rw [hs.isStationed_of_publishes hpub]
  by_contra hnot
  rw [not_or, not_and] at hnot
  exact hret ⟨Option.isSome_iff_ne_none.2 (hnot.1 hissued), hnot.2⟩

include h hs in
/-- **No lost wakeup**: whatever a record waits for is in a station or on the bus. -/
theorem Renamed.onItsWay {i slot w : Nat} (hw : c.trace.producerAt i slot = some w) :
    c.IsStationed w ∨ c.machine.bus.carried = some w := by
  by_cases hi : c.IsStationed i
  · obtain ⟨⟨register, -, hlatest⟩, hret⟩ := (h.producer hi).1 hw
    obtain ⟨p, s, e, he, rfl⟩ := hi
    obtain ⟨hcur, hpool, hq⟩ := hs.issued.1 (hs.station_stamps he).1
    obtain ⟨q, hwq⟩ := Trace.exists_poolAt_of_publishes hlatest.publishes
    refine hs.onItsWay_of_issued hlatest.publishes (hs.issued.2 ⟨?_, by simp [hwq], ?_⟩) hret
    · exact Nat.lt_trans hlatest.mem hcur
    · -- The queue holds the youngest, and an older record than `w` is none of them.
      intro hwqueued
      have hsched := Trace.isScheduled_of_poolAt (hs.poolAt_station he)
      exact Nat.lt_asymm hlatest.mem (hs.lt_of_not_mem_queued hcur hsched hq hwqueued)
  · rw [h.elsewhere hi] at hw
    cases hw

include h hs in
/-- With all stations empty and the bus idle, no register has a pending writer and no record waits.
-/
theorem Renamed.clear (hempty : ∀ i, ¬ c.IsStationed i) (hbus : c.machine.bus.carried = none) :
    (∀ register, c.machine.registers.writer register = none) ∧
      ∀ i slot, c.trace.producerAt i slot = none := by
  refine ⟨fun register => Option.eq_none_iff_forall_ne_some.2 fun w hw => ?_,
    fun i => h.elsewhere (hempty i)⟩
  obtain ⟨hlatest, hret⟩ := h.writer.1 hw
  rcases hs.onItsWay_of_issued hlatest.publishes hlatest.mem hret with hst | hcarried
  · exact hempty w hst
  · rw [hbus] at hcarried
    cases hcarried

end Reading

end Core

end Tomasulo
