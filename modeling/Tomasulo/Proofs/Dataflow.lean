import Tomasulo.Proofs.Run

/-!
# Proofs/Dataflow — who waits for whom, and for how long

In every state of a run the register map and the producers are what the program says they are.  On
the schedule a run leaves, this becomes a law for every cycle and pool: the records that start are
the oldest of those whose sources have been on the bus, as many as there are units
(`Simulation.started_eq`).  So no record starts before its operands are there, and none waits for
anything but its operands and a unit.
-/

namespace Tomasulo

namespace Core

variable {config : Config} {program : Trace} {c : Core} {n i : Nat}

/-- Not to have retired is to have no result yet, or to be on the bus. -/
theorem not_isRetired_iff : ¬ c.IsRetired i ↔
    c.trace.cycleAt .cdb i = none ∨ c.machine.bus.carried = some i := by
  rw [IsRetired, not_and_or, Option.not_isSome_iff_eq_none, Ne, not_not]

/-- In a drained core every record of a pool has been issued and is finished. -/
theorem Valid.gone_of_drained (h : c.Valid config program n) (hset : c.Settled config n)
    (hdrained : c.isDrained = true) {p : Pool} (hp : c.trace.poolAt i = some p) :
    (c.trace.cycleAt .issue i).isSome = true ∧
      ∃ f, c.trace.finishAt config.timing i = some f ∧ f ≤ n := by
  obtain ⟨hqueue, -, hstations, -, hcursor⟩ := isDrained_iff.1 hdrained
  have hissue : (c.trace.cycleAt .issue i).isSome = true := by
    refine h.sound.issued.2 ⟨Nat.lt_of_lt_of_le (Trace.lt_size_of_poolAt hp) hcursor, ?_, ?_⟩
    · rw [← h.sound.poolAt_trace, hp]
      rfl
    · rw [queued, hqueue]
      exact List.not_mem_nil
  have hgone : ¬ c.IsStationed i := by
    rintro ⟨q, s, e, hs, -⟩
    rw [hstations] at hs
    cases hs
  rw [h.sound.isStationed_iff_unfinished h.timed hset hissue] at hgone
  push Not at hgone
  exact ⟨hissue, hgone⟩

/-- **In a drained core every record of a pool has been through all its stages.** -/
theorem Valid.finished_of_drained (h : c.Valid config program n) (hset : c.Settled config n)
    (hdrained : c.isDrained = true) {p : Pool} (hp : c.trace.poolAt i = some p) :
    ∃ a b f, c.trace.cycleAt .issue i = some a ∧ c.trace.cycleAt .execute i = some b ∧
      c.trace.finishAt config.timing i = some f ∧ a < b ∧ config.timing p b ≤ f := by
  obtain ⟨hissue, f, hf, -⟩ := h.gone_of_drained hset hdrained hp
  obtain ⟨d, hd, hle⟩ := h.timed.done_of_finished hf
  obtain ⟨q, b, hq, hb, rfl⟩ := Trace.doneAt_eq_some_iff.1 hd
  obtain rfl := Option.some.inj (hp.symm.trans hq)
  obtain ⟨a, ha⟩ := Option.isSome_iff_exists.1 hissue
  exact ⟨a, b, f, ha, hb, hf, h.timed.issue_lt ha hb, hle⟩

end Core

/-! ## Renaming in every state -/

/-- **Exact renaming and no lost wakeup.**  After any number of ticks the register map names, for
each register, the latest issued writer unless it has retired; the producers of a record in a
station are the latest earlier writers of its sources unless they have retired, and these are on
their way; no other record waits for anything.  A drained machine has forgotten all of it. -/
theorem renaming_exact {rs : List Record} {config : Config} {s₀ : Simulation}
    (hs : Simulation.ofTrace (Trace.ofList rs) config = .ok s₀) (n : Nat) :
    (∀ register w, (s₀.after n).core.machine.registers.writer register = some w ↔
      (Trace.ofList rs).IsLatestWriter
        (fun j => ((s₀.after n).core.trace.cycleAt .issue j).isSome = true) register w ∧
      ((s₀.after n).core.trace.cycleAt .cdb w = none ∨
        (s₀.after n).core.machine.bus.carried = some w)) ∧
    (∀ i, (s₀.after n).core.IsStationed i → ∀ slot w,
      (s₀.after n).core.trace.producerAt i slot = some w ↔
        (∃ register, (Trace.ofList rs).inputAt i slot = some register ∧
          (Trace.ofList rs).IsLatestWriter (· < i) register w) ∧
        ((s₀.after n).core.trace.cycleAt .cdb w = none ∨
          (s₀.after n).core.machine.bus.carried = some w)) ∧
    (∀ i slot w, (s₀.after n).core.trace.producerAt i slot = some w →
      ((s₀.after n).core.IsStationed w ∨ (s₀.after n).core.machine.bus.carried = some w) ∧ w < i) ∧
    (∀ i, ¬ (s₀.after n).core.IsStationed i → ∀ slot,
      (s₀.after n).core.trace.producerAt i slot = none) ∧
    ((s₀.after n).core.isDrained = true →
      (∀ register, (s₀.after n).core.machine.registers.writer register = none) ∧
        ∀ i slot, (s₀.after n).core.trace.producerAt i slot = none) := by
  have hvalid := Simulation.valid_after hs n
  have hrenamed := hvalid.renamed
  refine ⟨fun register w => ?_, fun i hi slot w => ?_, fun i slot w hw => ?_,
    fun i hi => hrenamed.elsewhere hi, fun hdrained => ?_⟩
  · rw [hrenamed.writer, Core.not_isRetired_iff]
    rfl
  · rw [hrenamed.producer hi, Core.not_isRetired_iff]
  · exact ⟨hrenamed.onItsWay hvalid.sound hw, hrenamed.lt_of_producer hw⟩
  · obtain ⟨-, hbus, hstations, -, -⟩ := Core.isDrained_iff.1 hdrained
    refine hrenamed.clear hvalid.sound ?_ hbus
    rintro i ⟨p, s, e, hs', -⟩
    rw [hstations] at hs'
    cases hs'

/-- After six cycles on the baseline machine the store of the small program waits for the second
`fp` record and for the integer record, which overwrites what the first `fp` record will write. -/
theorem renaming_exact_sample :
    ∃ s₀, Simulation.ofTrace (Trace.ofList sampleProgram) Config.baseline = .ok s₀ ∧
      (s₀.after 6).core.trace.producerAt 5 0 = some 4 ∧
      (s₀.after 6).core.trace.producerAt 5 1 = some 2 ∧
      ((s₀.after 6).core.IsStationed 2 ∨ (s₀.after 6).core.machine.bus.carried = some 2) ∧
      (s₀.after 6).core.machine.registers.writer 33 = some 2 := by
  let s₀ := Simulation.start Config.baseline sampleProgram
  have hs : Simulation.ofTrace (Trace.ofList sampleProgram) Config.baseline = .ok s₀ :=
    Simulation.ofTrace_start (by decide) _
  have hfirst : (s₀.after 6).core.trace.producerAt 5 0 = some 4 := by decide +kernel
  have hsecond : (s₀.after 6).core.trace.producerAt 5 1 = some 2 := by decide +kernel
  have hwriter : (s₀.after 6).core.machine.registers.writer 33 = some 2 := by decide +kernel
  obtain ⟨-, -, hway, -, -⟩ := renaming_exact hs 6
  exact ⟨s₀, hs, hfirst, hsecond, (hway 5 1 2 hsecond).1, hwriter⟩

/-! ## The execute law -/

/-- On the trace of a drained state the oldest waiting records take the free units. -/
theorem Simulation.started_eq {rs : List Record} {config : Config} {s₀ : Simulation} {T : Nat}
    (hs : ofTrace (Trace.ofList rs) config = .ok s₀)
    (haccepted : (Trace.ofList rs).Accepted config.registers)
    (hdrained : (s₀.after T).core.isDrained = true) (cycle : Nat) (p : Pool) :
    (s₀.after T).core.trace.started cycle p = ((s₀.after T).core.trace.waiting cycle p).take
      ((config.pools p).units - ((s₀.after T).core.trace.busy config.timing cycle p).length) := by
  cases cycle with
  | zero =>
    have hwaiting : (s₀.after T).core.trace.waiting 0 p = [] := by
      rw [List.eq_nil_iff_forall_not_mem]
      intro i hi
      obtain ⟨-, ⟨a, -, ha⟩, -⟩ := Trace.mem_waiting.1 hi
      exact Nat.not_lt_zero a ha
    rw [hwaiting, List.take_nil, List.eq_nil_iff_forall_not_mem]
    intro i hi
    exact Nat.lt_irrefl 0 ((valid_after hs T).timed.cycle_pos (Trace.mem_started.1 hi).2)
  | succ n =>
    have hagrees := agrees_drained hs hdrained (n + 1)
    rw [← hagrees.started (Nat.le_refl _), ← hagrees.waiting (Nat.le_succ _),
      ← hagrees.busy config (Nat.le_refl _)]
    exact (tick_ok hs haccepted n).2.execute p

end Tomasulo
