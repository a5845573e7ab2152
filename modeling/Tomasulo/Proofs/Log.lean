import Tomasulo.Proofs.Milestones
import Tomasulo.Proofs.Run

/-!
# Proofs/Log — the log and the schedule tell the same story

Every cycle that returns is a wake, deeds and a report, so it keeps the log in agreement with the
core (`Recorded.cycle`).  At the end of a run all records have passed all milestones of their class
(`Sound.passed_iff_of_drained`).  Hence the log of a run reports each of them once, with the cycle
that the annotated trace has for it, and sums up the cycles in order (`log_of_run`).
-/

namespace Tomasulo

/-- A key that is there once picks one element. -/
theorem exists_filter_eq_singleton {α β : Type} [BEq β] [LawfulBEq β] {xs : List α}
    {key : α → Option β} (hnodup : (xs.filterMap key).Nodup) {b : β}
    (hb : b ∈ xs.filterMap key) : ∃ a ∈ xs, xs.filter (key · == some b) = [a] := by
  have hlength : (xs.filter (key · == some b)).length = 1 := by
    rw [← List.countP_eq_length_filter, ← List.count_filterMap]
    exact List.count_eq_one_of_mem hnodup hb
  obtain ⟨a, ha⟩ := List.length_eq_one_iff.1 hlength
  have hmem : a ∈ xs.filter (key · == some b) := by simp [ha]
  exact ⟨a, List.mem_of_mem_filter hmem, ha⟩

/-- **A log tells the story of a schedule**: it reports every milestone of every record once, as the
schedule has it and with a record taking as long as `d` says, and no other one; and it sums up every
cycle, one after the other, and at last the run. -/
structure Trace.IsToldBy (d : Timing) (t : Trace) (T : Nat) (log : List Event) : Prop where
  once : ∀ m i, t.passes m i = true →
    ∃ f, log.filter (·.milestone? == some (m, i)) = [f] ∧ f.Holds d t
  never : ∀ m i, t.passes m i = false → log.filter (·.milestone? == some (m, i)) = []
  summaries : log.filterMap Event.summary? = (List.range' 1 T).map .cycle ++ [.run T t.size]
  last : log.getLast? = some (.runCompleted T t.size)

namespace Core

variable {config : Config} {program : Trace} {c c' : Core} {n : Nat}

/-! ## A cycle -/

/-- **A cycle that returns is a wake, deeds and a report.** -/
theorem Valid.deeds_of_cycle (h : c.Valid config program n)
    (hrun : (Step.cycle (n + 1)).run c = .ok () c') :
    ∃ d, Deeds (n + 1) (c.awoken (n + 1)) d ∧ c' = d.reported (n + 1) := by
  obtain ⟨c₂, c₃, c₄, hrun₁, hrun₂, hrun₃, hrun₄, h₄, hp⟩ := h.run_phases
  rw [run_cycle_of_phases hrun₁ hrun₂ hrun₃ hrun₄] at hrun
  rcases h₄.run_fetch (n + 1) with ⟨c₅, hrun₅, hfetched⟩ | ⟨reason, c₅, hrun₅, -⟩
  · rw [run_conclude_of_ok hrun₅] at hrun
    cases hrun
    exact ⟨c₅, hp.completed.deeds.trans
      (hp.begun.deeds.trans (hp.issued.deeds.trans hfetched.deeds)), rfl⟩
  · rw [run_conclude_of_error hrun₅] at hrun
    cases hrun

/-- **A cycle is recorded and summed up.** -/
theorem Recorded.cycle (h : c.Recorded config program) (hvalid : c.Valid config program n)
    (hset : c.Settled config n) (hrun : (Step.cycle (n + 1)).run c = .ok () c')
    (hstay : c'.StartsStay (n + 1)) : c'.Recorded config program ∧
      c'.log.toList.filterMap Event.summary? =
        c.log.toList.filterMap Event.summary? ++ [.cycle (n + 1)] := by
  have hs := hvalid.sound
  have hwake := (hs.run_wake (n + 1)).2
  have hwoken := hs.moves hwake
  obtain ⟨d, hdeeds, rfl⟩ := hvalid.deeds_of_cycle hrun
  obtain ⟨hrecorded, hsame⟩ := h.awoken hs hset
  have htimed := (hvalid.timed.mono (Nat.le_succ n)).moves hs (Nat.succ_pos n) hwake
    (hwoken.startsStay_of_moves (Deeds.moves hdeeds) hstay)
  obtain ⟨hrecorded, hsame'⟩ := hrecorded.deeds hwoken htimed hdeeds hstay
    fun hst hop hf => hs.store_later hwake (Nat.le_succ n) hset.store hst hop hf
  refine ⟨hrecorded.noted (hwoken.moves (Deeds.moves hdeeds)) rfl trivial, ?_⟩
  rw [reported, Core.noted, Array.toList_push, List.filterMap_append, hsame', hsame]
  rfl

/-! ## The end of a run -/

/-- **A drained core has passed every milestone** that its records have. -/
theorem Sound.passed_iff_of_drained (h : c.Sound config program) (hdrained : c.isDrained = true)
    (m : Milestone) (i : Nat) : c.Passed program (m, i) ↔ program.passes m i = true := by
  obtain ⟨hqueue, hbus, hstations, -, hcursor⟩ := isDrained_iff.1 hdrained
  have hqueued : c.queued = [] := by rw [queued, hqueue, List.map_nil]
  have hnot (j : Nat) : ¬ c.IsStationed j := by
    rintro ⟨p, s, e, hs, -⟩
    cases (hstations p s).symm.trans hs
  have hfetched {op : OpClass} (hop : program.classAt i = some op) : i < c.machine.cursor := by
    rw [h.size_trace] at hcursor
    exact (Trace.lt_size_of_classAt hop).trans_le hcursor
  have hissue : (c.trace.cycleAt .issue i).isSome = true ↔ (program.poolAt i).isSome = true := by
    rw [h.issued, hqueued]
    refine ⟨fun hi => hi.2.1, fun hpool => ⟨?_, hpool, List.not_mem_nil⟩⟩
    obtain ⟨p, hp⟩ := Option.isSome_iff_exists.1 hpool
    obtain ⟨op, hop, -⟩ := Trace.poolAt_eq_some_iff.1 hp
    exact hfetched hop
  have hexecute : (c.trace.cycleAt .execute i).isSome = true ↔ (program.poolAt i).isSome = true :=
    ⟨fun hi => hissue.1 (h.started hi), fun hpool => (h.left (hissue.2 hpool) (hnot i)).1⟩
  have hcdb : (c.trace.cycleAt .cdb i).isSome = true ↔ program.publishes i = true := by
    refine ⟨fun hi => (h.broadcast hi).1, fun hpub => ?_⟩
    obtain ⟨p, hp⟩ := Trace.exists_poolAt_of_publishes hpub
    exact (h.left (hissue.2 (Option.isSome_of_eq_some hp)) (hnot i)).2 hpub
  have hpool {m : Milestone} (hm : m.isOf = fun op => op.pool.isSome) :
      program.passes m i = (program.poolAt i).isSome := by
    rw [Trace.passes, Trace.poolAt, hm]
    cases program.classAt i <;> rfl
  cases m with
  | reached stage =>
    cases stage with
    | dispatch =>
      refine h.dispatched.trans (and_iff_right_of_imp fun hi => ?_)
      obtain ⟨op, hop, -⟩ := Trace.isScheduled_iff.1 hi
      exact hfetched hop
    | issue =>
      rw [hpool rfl]
      exact hissue
    | execute =>
      rw [hpool rfl]
      exact hexecute
    | cdb => exact hcdb
  | skipped =>
    refine and_iff_left_of_imp fun hi => ?_
    obtain ⟨op, hop, -⟩ := Trace.passes_iff.1 hi
    exact hfetched hop
  | resolved =>
    refine and_iff_left_of_imp fun hi => ⟨?_, hqueued ▸ List.not_mem_nil⟩
    obtain ⟨op, hop, -⟩ := Trace.passes_iff.1 hi
    exact hfetched hop
  | completed =>
    refine and_iff_left_of_imp fun hi => ⟨hissue.2 ?_, hnot i⟩
    obtain ⟨op, hop, hstore⟩ := Trace.passes_iff.1 hi
    obtain rfl : op = .store := by simpa [Milestone.isOf] using hstore
    rw [Trace.poolAt_of_store hop]
    rfl
  | retired =>
    rw [Passed, IsRetired, hcdb, hbus]
    exact and_iff_left (Option.some_ne_none i).symm

end Core

/-! ## Runs -/

namespace Simulation

/-- A tick that returns is a cycle that returns. -/
theorem cycle_of_tick {s s' : Simulation} (h : tick.run s = .ok () s') :
    (Step.cycle (s.cycle + 1)).run s.core = .ok () s'.core := by
  cases hcycle : (Step.cycle (s.cycle + 1)).run s.core with
  | ok u c => cases h.symm.trans (tick_of_ok hcycle).1; rfl
  | error halt c => cases h.symm.trans (tick_of_error hcycle).1

section Run

variable {rs : List Record} {config : Config} {s₀ : Simulation}
  (hs : ofTrace (Trace.ofList rs) config = .ok s₀)

include hs

/-- **After every tick the log is up to date.** -/
theorem recorded_after (haccepted : (Trace.ofList rs).Accepted config.registers) (n : Nat) :
    (s₀.after n).core.Recorded config (Trace.ofList rs) ∧
      (s₀.after n).core.log.toList.filterMap Event.summary? = (List.range' 1 n).map .cycle := by
  induction n with
  | zero =>
    rw [after_zero, (ofTrace_eq_ok_iff.1 hs).2, Trace.unscheduled_ofList]
    exact ⟨Core.recorded_start config (Trace.unscheduled_ofList rs), rfl⟩
  | succ n ih =>
    obtain ⟨htick, heffect⟩ := tick_ok hs haccepted n
    have hcycle := cycle_of_tick htick
    rw [cycle_eq hs] at hcycle
    obtain ⟨hrecorded, hsummaries⟩ :=
      ih.1.cycle (valid_after hs n) (settled_after hs n) hcycle heffect.stays
    refine ⟨hrecorded, ?_⟩
    rw [hsummaries, ih.2, List.range'_concat, List.map_append, Nat.one_mul, Nat.add_comm 1]
    rfl

end Run

end Simulation

/-- What a log says of the milestones that records pass is as the latencies say, if the sums fit a
word. -/
theorem Trace.FitsWord.holds_nominal {config : Config} {t : Trace} (hfits : t.FitsWord config)
    (hlatency : ∀ p, 0 < (config.pools p).latency) {m : Milestone} {i : Nat} {f : Event}
    (hreport : f.milestone? = some (m, i)) (hpasses : t.passes m i = true)
    (hf : f.Holds config.timing t) : f.Holds config.nominal t := by
  cases f with
  | storeCompleted now k =>
    cases hreport
    obtain ⟨op, hop, hstore⟩ := passes_iff.1 hpasses
    obtain rfl : op = .store := by simpa [Milestone.isOf] using hstore
    obtain ⟨n, hn, hnow⟩ := hf
    exact ⟨n, hn, hnow.trans (hfits.timing_eq hlatency (poolAt_of_store hop) hn)⟩
  | _ => exact hf

/-- **The log and the annotated trace tell the same story**, whatever the sums are. -/
theorem isToldBy_of_run {rs : List Record} {config : Config} {s₀ s : Simulation} {T : Nat}
    (hs : Simulation.ofTrace (Trace.ofList rs) config = .ok s₀)
    (hrun : Simulation.run.run s₀ = .ok T s) :
    s.core.trace.IsToldBy config.timing T s.core.log.toList := by
  obtain ⟨n, hdone, rfl, rfl⟩ := Simulation.done_of_runWithin hrun
  rw [Simulation.isDone, Bool.and_eq_true] at hdone
  have haccepted := Simulation.accepted_of_drained hs hdone.2
  have hsound := (Simulation.valid_after hs n).sound
  obtain ⟨hrecorded, hsummaries⟩ := Simulation.recorded_after hs haccepted n
  have hcycle := Simulation.cycle_eq hs n
  have hend := hrecorded.noted (f := .runCompleted (s₀.after n).cycle (s₀.after n).core.trace.size)
    hsound rfl trivial
  have hmem (m : Milestone) (i : Nat) :
      (m, i) ∈ (s₀.after n).ended.core.log.toList.filterMap Event.milestone? ↔
        (s₀.after n).core.trace.passes m i = true := by
    rw [Trace.passes, hsound.classAt_trace]
    exact (hend.mem (m, i)).trans (hsound.passed_iff_of_drained hdone.2 m i)
  constructor
  case once =>
    intro m i hi
    obtain ⟨f, hf, hfilter⟩ := exists_filter_eq_singleton hend.nodup ((hmem m i).2 hi)
    exact ⟨f, hfilter, hend.holds f hf⟩
  case never =>
    intro m i hi
    refine List.filter_eq_nil_iff.2 fun f hf hreport => ?_
    have hpassed := (hmem m i).1 (List.mem_filterMap.2 ⟨f, hf, beq_iff_eq.1 hreport⟩)
    exact Bool.noConfusion (hi.symm.trans hpassed)
  case summaries =>
    rw [Simulation.ended, Core.noted, Array.toList_push, List.filterMap_append, hsummaries, hcycle]
    rfl
  case last =>
    rw [Simulation.ended, Core.noted, Array.toList_push, List.getLast?_concat]

end Tomasulo
