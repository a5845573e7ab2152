import Mathlib.Order.Bounds.Basic
import Tomasulo.Proofs.Rearrangement

/-!
# Proofs/Twins — a cycle does the same to machines that differ in slot numbers only

Stations and units are chosen by their numbers, and stores leave in the order of their units, so the
steps of a cycle may place records differently in two equivalent machines.  Who is picked depends on
age alone: every step takes `Core.Twins` to twins, with any number for the cycle.  The numbers of
slots have no influence on the schedule (`cycle_of_equivalent`).
-/

namespace Tomasulo

/-- The least key of a list. -/
theorem map_minOn?_eq_some_iff {α : Type} {xs : List α} {f : α → Nat} {i : Nat} :
    (xs.minOn? f).map f = some i ↔ IsLeast { j | ∃ x ∈ xs, f x = j } i := by
  constructor
  · intro h
    obtain ⟨m, hm, rfl⟩ := Option.map_eq_some_iff.1 h
    refine ⟨⟨m, List.minOn?_mem hm, rfl⟩, ?_⟩
    rintro j ⟨x, hx, rfl⟩
    have hle := List.apply_get_minOn?_le_of_mem (f := f) hx
    simpa [hm] using hle
  · rintro ⟨⟨x, hx, rfl⟩, hleast⟩
    obtain ⟨m, hm⟩ := Option.isSome_iff_exists.1
      (List.isSome_minOn?_iff.2 (List.ne_nil_of_mem hx) : (xs.minOn? f).isSome = true)
    have hle := List.apply_get_minOn?_le_of_mem (f := f) hx
    rw [hm, Option.map_some]
    exact congrArg some (Nat.le_antisymm (by simpa [hm] using hle)
      (hleast ⟨m, List.minOn?_mem hm, rfl⟩))

/-- Numbers below a bound with any property can be listed. -/
theorem exists_nodup_list (property : Nat → Prop) {bound : Nat}
    (hbound : ∀ i, property i → i < bound) :
    ∃ is : List Nat, is.Nodup ∧ ∀ i, i ∈ is ↔ property i := by
  classical
  refine ⟨(List.range bound).filter property, List.nodup_range.filter _, fun i => ?_⟩
  rw [List.mem_filter, List.mem_range, decide_eq_true_iff]
  exact and_iff_right_of_imp (hbound i)

namespace Core

variable {config : Config} {program : Trace} {c c' d d' : Core} {now : Nat}

/-- **Who is in a station when the finished stores have left**: a record that publishes stays, any
other one stays until it is done. -/
theorem Sound.isStationed_of_stores (h : c.Sound config program) (hmoves : Moves now c c')
    (hvac : Vacated c c') (hstore : ∀ {p s e f}, c'.stationAt p s = some e → e.op = .store →
      c.trace.doneAt config.wordSum e.index = some f → now < f) (i : Nat) :
    c'.IsStationed i ↔ c.IsStationed i ∧
      (program.publishes i = true ∨ ∀ f, c.trace.doneAt config.wordSum i = some f → now < f) := by
  have h' := h.moves hmoves
  constructor
  · rintro ⟨p, s, e, hs, rfl⟩
    refine ⟨⟨p, s, e, hvac.station hs, rfl⟩, ?_⟩
    obtain ⟨hclass, hpool⟩ := h'.station_class hs
    rw [Trace.publishes, hclass]
    cases hop : e.op with
    | store => exact .inr fun f hf => hstore hs hop hf
    | load | int | fp => exact .inl rfl
    | jump | branch | trap =>
      rw [hop] at hpool
      cases hpool
  · rintro ⟨hst, hpub | hlate⟩
    · rw [h'.isStationed_of_publishes hpub, hvac.trace]
      exact (h.isStationed_of_publishes hpub).1 hst
    · by_contra hnot
      have hissue : (c'.trace.cycleAt .issue i).isSome = true := by
        obtain ⟨p, s, e, hs, rfl⟩ := hst
        rw [hvac.trace]
        exact (h.station_stamps hs).1
      rcases h.left_moves hmoves hissue hnot with ⟨-, hnot⟩ | ⟨f, hf, hle⟩
      · exact hnot hst
      · rw [hvac.trace] at hf
        exact Nat.not_lt.2 hle (hlate f hf)

/-- An action ends in the same way on two cores and leaves twins. -/
def EndAlike (config : Config) (program : Trace) (action : Step Unit) (c d : Core) : Prop :=
  (∃ c' d', action.run c = .ok () c' ∧ action.run d = .ok () d' ∧ Twins config program c' d') ∨
  ∃ halt c' d', action.run c = .error halt c' ∧ action.run d = .error halt d' ∧
    Twins config program c' d'

namespace Twins

/-- Moves that leave two twins alike make twins of them again. -/
theorem moves (h : Twins config program c d) (hc : Moves now c c') (hd : Moves now d d')
    (hqueued : d'.queued = c'.queued) (hcursor : d'.machine.cursor = c'.machine.cursor)
    (hbus : d'.machine.bus.carried = c'.machine.bus.carried)
    (hcycle : ∀ stage i, d'.trace.cycleAt stage i = c'.trace.cycleAt stage i)
    (hstationed : ∀ i, d'.IsStationed i ↔ c'.IsStationed i) : Twins config program c' d' where
  sound₁ := h.sound₁.moves hc
  sound₂ := h.sound₂.moves hd
  renamed₁ := h.renamed₁.moves h.sound₁ hc
  renamed₂ := h.renamed₂.moves h.sound₂ hd
  queued := hqueued
  cursor := hcursor
  bus := congrArg ResultBus.mk hbus
  cycleAt := hcycle
  stationed := hstationed

variable (h : Twins config program c d)

include h

/-! ## What twins look at -/

theorem isRunning (i : Nat) : d.IsRunning i ↔ c.IsRunning i := by
  rw [h.sound₂.isRunning_iff, h.sound₁.isRunning_iff, h.stationed, h.cycleAt]

/-- As many units are idle. -/
theorem length_vacant (p : Pool) : (d.machine.units p).running.vacant.length =
    (c.machine.units p).running.vacant.length := by
  obtain ⟨is, hnodup, hmem⟩ :=
    exists_nodup_list (fun i => c.IsRunning i ∧ program.poolAt i = some p)
      fun i hi => Trace.lt_size_of_poolAt hi.2
  rw [h.sound₁.length_vacant hnodup hmem]
  refine h.sound₂.length_vacant hnodup fun i => ?_
  rw [h.isRunning]
  exact hmem i

/-- As many stations are taken. -/
theorem hasRoom (p : Pool) : d.hasRoom p = c.hasRoom p := by
  obtain ⟨is, hnodup, hmem⟩ :=
    exists_nodup_list (fun i => c.IsStationed i ∧ program.poolAt i = some p)
      fun i hi => Trace.lt_size_of_poolAt hi.2
  have hlength : (d.machine.stations p).occupied.length = is.length := by
    refine h.sound₂.length_stations hnodup fun i => ?_
    rw [h.stationed]
    exact hmem i
  rw [Core.hasRoom, hlength, ← h.sound₁.length_stations hnodup hmem, h.sound₂.fits.stations,
    ← h.sound₁.fits.stations, Core.hasRoom]

/-- The same record leaves the queue. -/
theorem leaving : d.leaving = c.leaving := by
  have hroom : d.hasRoom = c.hasRoom := funext h.hasRoom
  rw [Core.leaving, h.queued, h.trace_eq, hroom, Core.leaving]

/-- The same record is the oldest that wants the bus. -/
theorem winner (now : Nat) : (d.winner? now).map (·.record.index) =
    (c.winner? now).map (·.record.index) := by
  refine Option.ext fun i => ?_
  simp only [winner?, map_minOn?_eq_some_iff (f := fun r : Running => r.record.index),
    h.sound₁.exists_contender_iff, h.sound₂.exists_contender_iff, h.trace_eq]

/-! ## The back end -/

theorem awoken (now : Nat) : Twins config program (c.awoken now) (d.awoken now) := by
  have hc := c.awoken_awoken now
  have hd := d.awoken_awoken now
  have hstationed (c : Core) (i : Nat) : (c.awoken now).IsStationed i ↔ c.IsStationed i := by
    unfold Core.awoken
    split <;> exact Iff.rfl
  refine h.moves (h.sound₁.run_wake now).2 (h.sound₂.run_wake now).2 ?_ ?_ ?_ ?_ ?_
  · rw [Core.queued, hd.queue, Core.queued, hc.queue]
    exact h.queued
  · rw [hd.cursor, hc.cursor, h.cursor]
  · rw [hd.bus, hc.bus]
  · intro stage i
    rw [hd.cycleAt, hc.cycleAt, h.cycleAt]
  · intro i
    rw [hstationed, hstationed, h.stationed]

/-- The same finished stores leave. -/
theorem run_stores (now : Nat) :
    ∃ c' d', (Pool.all.forM (Step.completeStores now)).run c = .ok () c' ∧
      (Pool.all.forM (Step.completeStores now)).run d = .ok () d' ∧
      c'.machine.bus = c.machine.bus ∧ Twins config program c' d' := by
  obtain ⟨c', hrunc, hdeedsc, hvacc, hstorec⟩ := h.sound₁.run_stores now
  obtain ⟨d', hrund, hdeedsd, hvacd, hstored⟩ := h.sound₂.run_stores now
  refine ⟨c', d', hrunc, hrund, hvacc.bus,
    h.moves hdeedsc.moves hdeedsd.moves ?_ ?_ ?_ ?_ fun i => ?_⟩
  · rw [Core.queued, hvacd.queue, Core.queued, hvacc.queue]
    exact h.queued
  · rw [hvacd.cursor, hvacc.cursor, h.cursor]
  · rw [hvacd.bus, hvacc.bus, h.bus]
  · intro stage i
    rw [hvacd.trace, hvacc.trace, h.cycleAt]
  · rw [h.sound₂.isStationed_of_stores hdeedsd.moves hvacd hstored,
      h.sound₁.isStationed_of_stores hdeedsc.moves hvacc hstorec, h.stationed, h.trace_eq]

/-- Publishing the same record leaves twins. -/
theorem published {r r' : Running} (hr : c.Runs r) (hr' : d.Runs r')
    (hindex : r'.record.index = r.record.index)
    (hmove : Move now c (c.published now r.pool r.unit r.station r.record.index))
    (hmove' : Move now d (d.published now r'.pool r'.unit r'.station r'.record.index)) :
    Twins config program (c.published now r.pool r.unit r.station r.record.index)
      (d.published now r'.pool r'.unit r'.station r'.record.index) := by
  refine h.moves (.single hmove) (.single hmove') h.queued h.cursor (congrArg some hindex) ?_ ?_
  · intro stage i
    change (d.trace.stamped .cdb now r'.record.index).cycleAt stage i =
      (c.trace.stamped .cdb now r.record.index).cycleAt stage i
    rw [hindex, h.trace_eq]
  · intro i
    have hgone := h.sound₁.isStationed_freed (u := r.unit) hr.2 i
    have hgone' := h.sound₂.isStationed_freed (u := r'.unit) hr'.2 i
    rw [hindex, h.stationed] at hgone'
    exact hgone'.trans hgone.symm

/-- **Complete publishes the same record.** -/
theorem run_complete (hbus : c.machine.bus.carried = none) (now : Nat) :
    ∃ c' d', (Step.complete now).run c = .ok () c' ∧ (Step.complete now).run d = .ok () d' ∧
      Twins config program c' d' := by
  obtain ⟨c₂, d₂, hrunc, hrund, hsame, h₂⟩ := h.run_stores now
  rw [run_complete_of_stores hrunc, run_complete_of_stores hrund]
  have hidle : c₂.machine.bus.carried = none := by rw [hsame, hbus]
  have hidle' : d₂.machine.bus.carried = none := by rw [h₂.bus, hidle]
  have hwinner := h₂.winner now
  cases hc : c₂.winner? now with
  | none =>
    rw [hc, Option.map_none, Option.map_eq_none_iff] at hwinner
    rw [hwinner]
    exact ⟨c₂, d₂, rfl, rfl, h₂⟩
  | some r =>
    rw [hc] at hwinner
    obtain ⟨r', hd, hindex⟩ := Option.map_eq_some_iff.1 hwinner
    obtain ⟨hruns, hop, hdone⟩ := mem_contenders.1 (List.minOn?_mem hc)
    obtain ⟨hruns', hop', hdone'⟩ := mem_contenders.1 (List.minOn?_mem hd)
    rw [hd]
    exact ⟨_, _, h₂.sound₁.run_publish hruns hidle, h₂.sound₂.run_publish hruns' hidle',
      h₂.published hruns hruns' hindex (.publish hruns.1 hruns.2 hop hdone hidle)
        (.publish hruns'.1 hruns'.2 hop' hdone' hidle')⟩

/-- **The same records start**; a record without a pool never does. -/
theorem run_start (now : Nat) :
    ∃ c' d', (Step.start now).run c = .ok () c' ∧ (Step.start now).run d = .ok () d' ∧
      Twins config program c' d' := by
  obtain ⟨c', hrunc, hc⟩ := h.sound₁.run_start now
  obtain ⟨d', hrund, hd⟩ := h.sound₂.run_start now
  have hsoundc := h.sound₁.moves hc.moves
  have hsoundd := h.sound₂.moves hd.moves
  have hstationed {c c' : Core} (hsame : c'.machine.stations = c.machine.stations) (i : Nat) :
      c'.IsStationed i ↔ c.IsStationed i := by
    simp only [IsStationed, stationAt, hsame]
  have hnone {c : Core} (hs : c.Sound config program) {i : Nat} (hp : program.poolAt i = none) :
      c.trace.cycleAt .execute i = none := by
    refine Option.not_isSome_iff_eq_none.1 fun hi => ?_
    have hpool := (hs.issued.1 (hs.started hi)).2.1
    rw [hp] at hpool
    cases hpool
  refine ⟨c', d', hrunc, hrund, h.moves hc.moves hd.moves ?_ ?_ ?_ ?_ fun i => ?_⟩
  · rw [Core.queued, hd.queue, Core.queued, hc.queue]
    exact h.queued
  · rw [hd.cursor, hc.cursor, h.cursor]
  · rw [hd.bus, hc.bus, h.bus]
  · intro stage i
    by_cases hstage : stage = .execute
    · subst hstage
      cases hp : program.poolAt i with
      | none => rw [hnone hsoundc hp, hnone hsoundd hp]
      | some p =>
        rw [hc.execute (h.sound₁.poolAt_trace ▸ hp), hd.execute (h.sound₂.poolAt_trace ▸ hp),
          h.trace_eq, h.length_vacant]
    · rw [hc.other stage i hstage, hd.other stage i hstage, h.cycleAt]
  · rw [hstationed hd.stations, hstationed hc.stations, h.stationed]

/-! ## The front end -/

/-- **The same record leaves the queue.** -/
theorem run_issue (now : Nat) :
    ∃ c' d', (Step.issue now).run c = .ok () c' ∧ (Step.issue now).run d = .ok () d' ∧
      Twins config program c' d' := by
  obtain ⟨c', hrunc, hc⟩ := h.sound₁.run_issue now
  obtain ⟨d', hrund, hd⟩ := h.sound₂.run_issue now
  refine ⟨c', d', hrunc, hrund, h.moves hc.moves hd.moves ?_ ?_ ?_ ?_ fun i => ?_⟩
  · rw [hd.queued, hc.queued, h.leaving, h.queued]
  · rw [hd.cursor, hc.cursor, h.cursor]
  · rw [hd.bus, hc.bus, h.bus]
  · intro stage i
    rw [hd.cycleAt, hc.cycleAt, h.leaving, h.trace_eq]
  · rw [hd.stationed, hc.stationed, h.leaving, h.trace_eq, h.stationed]

omit h in
/-- **Fetch looks at the same records** and ends at the same one. -/
theorem run_fetchNext (h : Twins config program c d) (hroom : c.machine.queue.isFull = false)
    {left : Nat} (hleft : c.trace.size - c.machine.cursor = left) :
    EndAlike config program (Step.fetchNext now left) c d := by
  induction left generalizing c d with
  | zero => exact .inl ⟨c, d, rfl, rfl, h⟩
  | succ left ih =>
    obtain ⟨r, hr⟩ := Trace.exists_getElem? (t := c.trace) (i := c.machine.cursor) (by omega)
    have hr' : d.trace[d.machine.cursor]? = some r := by rw [h.trace_eq, h.cursor, hr]
    have hroom' : d.machine.queue.isFull = false := by rw [h.queue_eq, hroom]
    cases hcheck : r.check c.machine.registers.size with
    | error reason =>
      have hcheck' : r.check d.machine.registers.size = .error reason := by
        rw [h.registers_eq, hcheck]
      exact .inr ⟨.rejected reason, c, d, run_fetchNext_refused hr hcheck left,
        run_fetchNext_refused hr' hcheck' left, h⟩
    | ok op =>
      have hcheck' : r.check d.machine.registers.size = .ok op := by rw [h.registers_eq, hcheck]
      have hcursor : d.machine.cursor + 1 = c.machine.cursor + 1 := congrArg _ h.cursor
      by_cases hop : op = .trap
      · subst hop
        rw [EndAlike, h.sound₁.run_fetchNext_skip hr hcheck,
          h.sound₂.run_fetchNext_skip hr' hcheck']
        have hskip : Move now c _ := .skip hr hcheck
        have hskipped := h.moves (.single hskip) (.single (.skip hr' hcheck')) h.queued hcursor
          (congrArg _ h.bus) h.cycleAt h.stationed
        exact ih hskipped hroom (by change c.trace.size - (c.machine.cursor + 1) = left; omega)
      · refine .inl ⟨_, _, h.sound₁.run_fetchNext_push hr hcheck hop hroom left,
          h.sound₂.run_fetchNext_push hr' hcheck' hop hroom' left, ?_⟩
        have hlength : c.machine.queue.entries.length < c.machine.queue.capacity := by
          simpa [FetchQueue.isFull] using hroom
        refine h.moves (.single (.fetch hr hcheck hop hlength))
          (.single (.fetch hr' hcheck' hop (h.queue_eq ▸ hlength))) ?_ hcursor (congrArg _ h.bus) ?_
          h.stationed
        · simp only [Core.queued, fetched, h.queue_eq, h.cursor]
        · intro stage i
          simp only [fetched, h.trace_eq, h.cursor]

theorem endAlike_fetch (now : Nat) : EndAlike config program (Step.fetch now) c d := by
  cases hfull : c.machine.queue.isFull with
  | true =>
    have hfull' : d.machine.queue.isFull = true := by rw [h.queue_eq, hfull]
    exact .inl ⟨c, d, run_fetch_of_full hfull now, run_fetch_of_full hfull' now, h⟩
  | false =>
    have hroom' : d.machine.queue.isFull = false := by rw [h.queue_eq, hfull]
    have hnext : EndAlike config program
        (Step.fetchNext now (c.trace.size - c.machine.cursor)) c d := h.run_fetchNext hfull rfl
    rw [EndAlike] at hnext ⊢
    rw [run_fetch_of_room hfull, run_fetch_of_room hroom', h.trace_eq, h.cursor]
    exact hnext

/-! ## The whole cycle -/

/-- What is in the logs does not matter. -/
theorem noted (f g : Event) : Twins config program (c.noted f) (d.noted g) := by
  have hnote : Move 0 c (c.noted f) := .note f
  exact h.moves (.single hnote) (.single (.note g)) h.queued h.cursor (congrArg _ h.bus) h.cycleAt
    h.stationed

/-- **A cycle ends in the same way on twins and leaves twins.** -/
theorem endAlike_cycle (now : Nat) : EndAlike config program (Step.cycle now) c d := by
  have h₁ := h.awoken now
  obtain ⟨c₂, d₂, hc₂, hd₂, h₂⟩ := h₁.run_complete (c.awoken_awoken now).bus now
  obtain ⟨c₃, d₃, hc₃, hd₃, h₃⟩ := h₂.run_start now
  obtain ⟨c₄, d₄, hc₄, hd₄, h₄⟩ := h₃.run_issue now
  rw [EndAlike, run_cycle_of_phases (h.sound₁.run_wake now).1 hc₂ hc₃ hc₄,
    run_cycle_of_phases (h.sound₂.run_wake now).1 hd₂ hd₃ hd₄]
  rcases h₄.endAlike_fetch now with ⟨c₅, d₅, hc₅, hd₅, h₅⟩ | ⟨halt, c₅, d₅, hc₅, hd₅, h₅⟩
  · exact .inl ⟨_, _, run_conclude_of_ok hc₅, run_conclude_of_ok hd₅, h₅.noted _ _⟩
  · exact .inr ⟨halt, c₅, d₅, run_conclude_of_error hc₅, run_conclude_of_error hd₅, h₅⟩

end Twins

end Core

/-- **The numbers of stations and units have no influence on the schedule.**  Let a core have the
trace of a state of a run, and a machine that differs from the state's in the numbers of its
stations and units only.  A cycle with any number returns on both, or stops on both for the same
reason; it leaves the same trace, and again machines that differ in these numbers only. -/
theorem cycle_of_equivalent {rs : List Record} {config : Config} {s₀ : Simulation}
    (hs : Simulation.ofTrace (Trace.ofList rs) config = .ok s₀) {n : Nat} {d : Core}
    (hmachine : (s₀.after n).core.machine.Equivalent d.machine)
    (htrace : d.trace = (s₀.after n).core.trace) (now : Nat) :
    (∃ c' d', (Step.cycle now).run (s₀.after n).core = .ok () c' ∧
      (Step.cycle now).run d = .ok () d' ∧
      d'.trace = c'.trace ∧ c'.machine.Equivalent d'.machine) ∨
    ∃ halt c' d', (Step.cycle now).run (s₀.after n).core = .error halt c' ∧
      (Step.cycle now).run d = .error halt d' ∧
      d'.trace = c'.trace ∧ c'.machine.Equivalent d'.machine := by
  have hvalid := Simulation.valid_after hs n
  have htwins := Core.twins_of_equivalent hvalid.sound hvalid.renamed hmachine htrace
  rcases htwins.endAlike_cycle now with ⟨c', d', hc, hd, h⟩ | ⟨halt, c', d', hc, hd, h⟩
  · exact .inl ⟨c', d', hc, hd, h.trace_eq, h.equivalent⟩
  · exact .inr ⟨halt, c', d', hc, hd, h.trace_eq, h.equivalent⟩

/-- A machine with two stations and two units in each pool. -/
def pairedMachine : Config :=
  { queue := 2, pools := ⟨⟨2, 2, 4⟩, ⟨2, 2, 7⟩⟩ }

/-- After five cycles on the paired machine one `fp` record runs and another one is ready.  With the
stations and the units of their pool exchanged, the next cycle goes as without. -/
theorem cycle_of_equivalent_sample :
    ∃ s₀ d, Simulation.ofTrace (Trace.ofList meetingProgram) pairedMachine = .ok s₀ ∧
      (s₀.after 5).core.unitAt .fp 0 = some 0 ∧ d.unitAt .fp 1 = some 1 ∧
      ∃ c' d', (Step.cycle 6).run (s₀.after 5).core = .ok () c' ∧
        (Step.cycle 6).run d = .ok () d' ∧ d'.trace = c'.trace ∧
        c'.machine.Equivalent d'.machine := by
  let s₀ := Simulation.start pairedMachine meetingProgram
  have hs : Simulation.ofTrace (Trace.ofList meetingProgram) pairedMachine = .ok s₀ :=
    Simulation.ofTrace_start (by decide) _
  let c := (s₀.after 5).core
  let d : Core := { machine := c.machine.exchanged .fp 0 1 0 1, trace := c.trace }
  have hmachine : c.machine.Equivalent d.machine :=
    c.machine.equivalent_exchanged (by decide +kernel) (by decide +kernel) (by decide +kernel)
      (by decide +kernel)
  have hreturns : (Call.cycle 6).halt? c = none := by decide +kernel
  refine ⟨s₀, d, hs, by decide +kernel, by decide +kernel, ?_⟩
  refine (cycle_of_equivalent hs hmachine rfl 6).resolve_right ?_
  rintro ⟨halt, c', d', hc, -⟩
  cases hreturns.symm.trans (Call.halt?_eq_some_iff.2 ⟨c', hc⟩)

end Tomasulo
