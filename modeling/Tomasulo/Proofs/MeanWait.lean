import Tomasulo.Proofs.Balance

/-!
# Proofs/MeanWait — what the mean wait in the queue is taken over

`Stats.meanQueueWait` adds up the waits of the records that have been issued and divides by
`Stats.stationed`, which counts the records that go through a station some time, issued or not.  So
it is the mean over the issued records when all have been issued, as they are when a run is over,
and in general not before (`stationed_of_run`, `stationed_ne_issued`).
-/

namespace Tomasulo

namespace Trace

variable {config : Config} {t : Trace} {n : Nat}

/-- The instructions that go through a station are the records of a pool. -/
theorem stationed_collect (t : Trace) (cycles : Nat) (config : Config) :
    (Stats.collect t cycles config).stationed = (t.ofClass (·.pool.isSome)).card := by
  obtain ⟨hscheduled, hpooled, -⟩ := Stats.card_instructions t cycles config
  rw [Stats.stationed, t.instructions_collect, hscheduled, hpooled, Nat.add_sub_cancel]

/-- What has been issued is of a pool. -/
theorem reached_issue_subset
    (hissued : ∀ {i m}, t.cycleAt .issue i = some m → ∃ p, t.poolAt i = some p) :
    t.reached .issue ⊆ t.ofClass (·.pool.isSome) := by
  intro i hi
  obtain ⟨m, hm⟩ := Option.isSome_iff_exists.1 (mem_reached.1 hi)
  obtain ⟨p, hp⟩ := hissued hm
  obtain ⟨op, hop, hpool⟩ := poolAt_eq_some_iff.1 hp
  exact mem_ofClass.2 ⟨op, hop, Option.isSome_of_eq_some hpool⟩

end Trace

/-- **What the waits in the queue are divided by.**  In every state the waits that are known are
those of the issued records, and the divisor counts the records of a pool, of which these are a
part.  It is the number of issued records, or one if there are none, exactly if all records of a
pool have been issued or there is one at most; so when a run is over. -/
theorem stationed_of_run {rs : List Record} {config : Config} {s₀ : Simulation}
    (hs : Simulation.ofTrace (Trace.ofList rs) config = .ok s₀) :
    (∀ n t, (s₀.after n).core.trace = t →
      Stats.known ((t.toList.filter (·.scheduledClass?.isSome)).map (·.stamps.queueWait)) =
        (t.reached .issue).card ∧
      (s₀.after n).stats.stationed = (t.ofClass (·.pool.isSome)).card ∧
      t.reached .issue ⊆ t.ofClass (·.pool.isSome) ∧
      (max (s₀.after n).stats.stationed 1 = max (t.reached .issue).card 1 ↔
        t.reached .issue = t.ofClass (·.pool.isSome) ∨
          (t.ofClass (·.pool.isSome)).card ≤ 1)) ∧
    ∀ n T s, Simulation.run.run (s₀.after n) = .ok T s →
      s.stats.stationed = (s.core.trace.reached .issue).card := by
  refine ⟨?_, fun n T s hrun => ?_⟩
  · rintro n t rfl
    set t := (s₀.after n).core.trace
    have hsubset := t.reached_issue_subset (Simulation.exists_poolAt_of_issue hs)
    have hstationed := t.stationed_collect n config
    rw [← Simulation.stats_after hs] at hstationed
    refine ⟨?_, hstationed, hsubset, ?_⟩
    · exact (t.queueWait_collect (Simulation.ordered_after hs n)
        (Simulation.exists_poolAt_of_issue hs) n config).2
    · rw [hstationed]
      have hle := Finset.card_le_card hsubset
      constructor
      · intro heq
        by_cases hone : (t.ofClass (·.pool.isSome)).card ≤ 1
        · exact .inr hone
        · exact .inl (Finset.eq_of_subset_of_card_le hsubset (by omega))
      · rintro (heq | hone)
        · rw [heq]
        · omega
  · obtain ⟨m, hdone, -, rfl⟩ := Simulation.done_of_runWithin hrun
    rw [Simulation.after_add] at hdone ⊢
    have hissue := Trace.reached_eq_pooled (Simulation.ordered_after hs (n + m))
      (Simulation.complete_of_done hs hdone) (Simulation.exists_poolAt_of_issue hs) (.inl rfl)
    have hstationed := (s₀.after (n + m)).core.trace.stationed_collect (n + m) config
    rw [← Simulation.stats_after hs, ← hissue] at hstationed
    exact hstationed

/-- The meeting program on the narrow machine: after three ticks two of its four records have been
issued, at the end all of them have. -/
theorem stationed_of_run_sample :
    ∃ s₀ s, Simulation.ofTrace (Trace.ofList meetingProgram) narrowMachine = .ok s₀ ∧
      ((s₀.after 3).core.trace.reached .issue).card = 2 ∧
      (s₀.after 3).stats.stationed =
        ((s₀.after 3).core.trace.ofClass (·.pool.isSome)).card ∧
      Simulation.run.run (s₀.after 3) = .ok 21 s ∧
      s.stats.stationed = (s.core.trace.reached .issue).card := by
  let s₀ := Simulation.start narrowMachine meetingProgram
  have hs : Simulation.ofTrace (Trace.ofList meetingProgram) narrowMachine = .ok s₀ :=
    Simulation.ofTrace_start (by decide) _
  have haccepted : (Trace.ofList meetingProgram).Accepted narrowMachine.registers := by
    decide +kernel
  have hrun : Simulation.run.run (s₀.after 3) = .ok (3 + 18) (s₀.after (3 + 18)).ended :=
    Simulation.run_after_eq_ok hs haccepted (by decide +kernel) (by decide +kernel)
      (by decide +kernel)
  obtain ⟨hstates, hend⟩ := stationed_of_run hs
  obtain ⟨-, hstationed, -⟩ := hstates 3 _ rfl
  exact ⟨s₀, _, hs, by decide +kernel, hstationed, hrun, hend 3 21 _ hrun⟩

/-- **Before the end the divisor is not the number of issued records**: of two `int` records on the
baseline machine one has been issued after two ticks, and its wait is divided by two. -/
theorem stationed_ne_issued :
    ∃ s₀, Simulation.ofTrace (Trace.ofList (List.replicate 2 { op := OpClass.int.word }))
        Config.baseline = .ok s₀ ∧
      ((s₀.after 2).core.trace.reached .issue).card = 1 ∧
      max (s₀.after 2).stats.stationed 1 = 2 ∧
      max (s₀.after 2).stats.stationed 1 ≠
        max ((s₀.after 2).core.trace.reached .issue).card 1 := by
  refine ⟨_, Simulation.ofTrace_eq_ok_iff.2 ⟨by decide, rfl⟩, ?_, ?_, ?_⟩
  all_goals decide +kernel

end Tomasulo
