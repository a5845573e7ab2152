import Tomasulo.Proofs.Run

/-!
# Proofs/Rerun — a schedule leaves no trace in the next run

A run writes stamps and producers and nothing else, so in every state the trace still holds the
program it began with (`Trace.SameProgram`).  A simulation starts from the program alone
(`simulate_of_sameProgram`), and so does one over the records collected again, for they are numbered
as they were (`Trace.ofList_toList`).  Hence what a run has left behind, whether it is finished,
failed or abandoned, makes no difference to the next one, on any machine.
-/

namespace Tomasulo

namespace Trace

variable {t u : Trace}

/-- **Two traces hold the same program**: as many records, and at every position the same index,
program counter, flags and registers.  Their schedules may differ. -/
structure SameProgram (t u : Trace) : Prop where
  size : t.size = u.size
  record : ∀ {i : Nat} {r s : Record}, t[i]? = some r → u[i]? = some s →
    r.index = s.index ∧ r.pc = s.pc ∧ r.op = s.op ∧ r.outputs = s.outputs ∧ r.inputs = s.inputs

/-- The program of a trace is the trace without its schedule. -/
theorem sameProgram_iff : t.SameProgram u ↔ t.unscheduled = u.unscheduled := by
  constructor
  · rintro ⟨hsize, hrecord⟩
    refine ext_getElem? fun i => ?_
    rw [getElem?_unscheduled, getElem?_unscheduled]
    by_cases hi : i < t.size
    · obtain ⟨r, hr⟩ := exists_getElem? hi
      obtain ⟨s, hs⟩ := exists_getElem? (hsize ▸ hi)
      obtain ⟨hindex, hpc, hop, houtputs, hinputs⟩ := hrecord hr hs
      rw [hr, hs, Option.map_some, Option.map_some, Record.unscheduled, Record.unscheduled, hindex,
        hpc, hop, houtputs, hinputs]
    · rw [getElem?_eq_none hi, getElem?_eq_none (hsize ▸ hi)]
  · intro h
    have hsize : t.size = u.size := by rw [← size_unscheduled, h, size_unscheduled]
    refine ⟨hsize, fun {i r s} hr hs => ?_⟩
    have hprogram := getElem?_of_unscheduled h hr
    rw [getElem?_unscheduled, hs, Option.map_some, Option.some.injEq, Record.unscheduled,
      Record.unscheduled, Record.mk.injEq] at hprogram
    obtain ⟨hindex, hpc, hop, houtputs, hinputs, -⟩ := hprogram
    exact ⟨hindex.symm, hpc.symm, hop.symm, houtputs.symm, hinputs.symm⟩

/-- **Records collected again make the program they are from**, if they are numbered by position. -/
theorem ofList_toList (h : t.Numbered) : ofList t.toList = t.unscheduled := by
  refine ext_getElem? fun i => ?_
  have hget : t.toList[i]? = t[i]? := Array.getElem?_toList ..
  rw [getElem?_ofList, getElem?_unscheduled, hget]
  cases hr : t[i]? with
  | none => rfl
  | some r =>
    obtain rfl := h i r hr
    rfl

/-- Numbers are part of the program. -/
theorem SameProgram.numbered (h : t.SameProgram u) (hu : u.Numbered) : t.Numbered := by
  intro i r hr
  obtain ⟨s, hs⟩ := exists_getElem? (h.size ▸ lt_size_of_getElem? hr)
  exact (h.record hr hs).1.trans (hu i s hs)

end Trace

/-- **A simulation knows the program of a trace only**: neither its result nor its log depends on
the schedule the trace carries. -/
theorem simulate_of_sameProgram {t u : Trace} (h : t.SameProgram u) (config : Config) :
    simulate t config = simulate u config := by
  rw [simulate, simulate, Simulation.ofTrace, Simulation.ofTrace, Trace.sameProgram_iff.1 h]

/-- Every state of a run holds the program the run began with. -/
theorem Simulation.sameProgram_after {rs : List Record} {config : Config} {s₀ : Simulation}
    (hs : ofTrace (Trace.ofList rs) config = .ok s₀) (n : Nat) :
    (s₀.after n).core.trace.SameProgram (Trace.ofList rs) := by
  rw [Trace.sameProgram_iff, Trace.unscheduled_ofList]
  exact (valid_after hs n).sound.frame

/-- **Runs write the schedule only, and reruns start afresh.**  After any number of ticks, also
failed ones, the trace holds the program it was built with.  A trace that holds this program, with
any producers and stamps whatever, has the same schedule as the unannotated one on every machine or
fails in the same way, and so has the trace collected from its records. -/
theorem rerun_of_sameProgram {rs : List Record} {config : Config} {s₀ : Simulation}
    (hs : Simulation.ofTrace (Trace.ofList rs) config = .ok s₀) :
    (∀ n, (s₀.after n).core.trace.SameProgram (Trace.ofList rs)) ∧
      ∀ t : Trace, t.SameProgram (Trace.ofList rs) → ∀ config' : Config,
        schedule t config' = schedule (Trace.ofList rs) config' ∧
        schedule (Trace.ofList t.toList) config' = schedule (Trace.ofList rs) config' := by
  refine ⟨Simulation.sameProgram_after hs, fun t ht config' => ?_⟩
  have hcollected : (Trace.ofList t.toList).SameProgram (Trace.ofList rs) := by
    rw [Trace.sameProgram_iff, Trace.ofList_toList (ht.numbered (Trace.numbered_ofList rs)),
      Trace.unscheduled_unscheduled]
    exact Trace.sameProgram_iff.1 ht
  exact ⟨by rw [schedule, schedule, simulate_of_sameProgram ht],
    by rw [schedule, schedule, simulate_of_sameProgram hcollected]⟩

/-- After eight ticks on the small machine the last record of the small program waits for one that
has just started.  Given up there, the trace has the schedule of the program on the baseline
machine. -/
theorem rerun_of_sameProgram_sample :
    ∃ s₀, Simulation.ofTrace (Trace.ofList sampleProgram) smallMachine = .ok s₀ ∧
      (s₀.after 8).core.trace.producerAt 5 0 = some 4 ∧
      (s₀.after 8).core.trace.cycleAt .execute 4 = some 7 ∧
      (s₀.after 8).core.trace.SameProgram (Trace.ofList sampleProgram) ∧
      schedule (s₀.after 8).core.trace Config.baseline =
        schedule (Trace.ofList sampleProgram) Config.baseline ∧
      schedule (Trace.ofList (s₀.after 8).core.trace.toList) Config.baseline =
        schedule (Trace.ofList sampleProgram) Config.baseline := by
  let s₀ := Simulation.start smallMachine sampleProgram
  have hs : Simulation.ofTrace (Trace.ofList sampleProgram) smallMachine = .ok s₀ :=
    Simulation.ofTrace_start (by decide) _
  have hproducer : (s₀.after 8).core.trace.producerAt 5 0 = some 4 := by decide +kernel
  have hexecute : (s₀.after 8).core.trace.cycleAt .execute 4 = some 7 := by decide +kernel
  obtain ⟨hsame, hrerun⟩ := rerun_of_sameProgram hs
  exact ⟨s₀, hs, hproducer, hexecute, hsame 8, hrerun _ (hsame 8) Config.baseline⟩

end Tomasulo
