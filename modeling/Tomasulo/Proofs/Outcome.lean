import Tomasulo.Proofs.Progress

/-!
# Proofs/Outcome — how a run ends

A run ends in one of two ways: it is done, or a tick fails.  `Simulation.verdict?` is what a state
knows of the end.  Some state of every run knows it, whatever the records are (`exists_verdict`),
and the first that does decides the schedule (`schedule_eq_of_verdict`).
-/

namespace Tomasulo

namespace Simulation

/-- **How the run ends in a state**, if it does: with a schedule when it is done, with the halt of
the next tick when that fails. -/
def verdict? (s : Simulation) : Option (Except ScheduleError (Nat × Trace)) :=
  if s.isDone then some (.ok (s.cycle, s.core.trace))
  else
    match tick.run s with
    | .ok _ _ => none
    | .error halt s' => some (.error (.halted s'.cycle halt))

section State

variable {s : Simulation}

theorem verdict?_of_done (h : s.isDone = true) :
    s.verdict? = some (.ok (s.cycle, s.core.trace)) :=
  if_pos h

theorem verdict?_of_error (h : s.isDone = false) {halt : Halt} {s' : Simulation}
    (hfail : tick.run s = .error halt s') :
    s.verdict? = some (.error (.halted s'.cycle halt)) := by
  rw [verdict?, h, if_neg Bool.false_ne_true, hfail]

/-- A state without a verdict is followed by another one. -/
theorem verdict?_eq_none_iff :
    s.verdict? = none ↔ s.isDone = false ∧ tick.run s = .ok () s.next := by
  cases hdone : s.isDone with
  | true => simp [verdict?_of_done hdone]
  | false =>
    cases htick : tick.run s with
    | error halt s' => simp [verdict?_of_error hdone htick]
    | ok _ s' =>
      have hnext : s.next = s' := by rw [next, htick]
      rw [verdict?, hdone, if_neg Bool.false_ne_true, htick, hnext]
      simp

end State

section Run

variable {rs : List Record} {config : Config} {s₀ : Simulation}
  (hs : ofTrace (Trace.ofList rs) config = .ok s₀)

include hs

/-- After a tick that has succeeded the cursor is at the end unless the queue holds something, so
the machine alone tells whether the run is done. -/
theorem isDone_of_tick {n : Nat} (htick : tick.run (s₀.after n) = .ok () (s₀.after (n + 1))) :
    (s₀.after (n + 1)).isDone = (s₀.after (n + 1)).core.machine.isEmpty := by
  rw [isDone_after_succ hs, Core.isDrained]
  cases hempty : (s₀.after (n + 1)).core.machine.isEmpty with
  | false => rfl
  | true =>
    have hqueued : (s₀.after (n + 1)).core.queued = [] := by
      simp only [Machine.isEmpty, Bool.and_eq_true, List.isEmpty_iff] at hempty
      rw [Core.queued, hempty.1.1, List.map_nil]
    have hcursor := (effect_of_ok hs htick).cursor_of_queued_nil
      (Config.check_eq_ok_iff.1 (ofTrace_eq_ok_iff.1 hs).1 .queue) hqueued
    rw [hcursor, Bool.true_and, decide_eq_true (Nat.le_refl _)]

/-- **Every run ends within the horizon**, if only at a record that the machine refuses. -/
theorem exists_verdict :
    ∃ n ≤ (Trace.ofList rs).horizon config, (s₀.after n).verdict? ≠ none := by
  by_contra! hall
  have hnone (n : Nat) (hn : n ≤ (Trace.ofList rs).horizon config) :=
    verdict?_eq_none_iff.1 (hall n hn)
  have := debt_add_le hs (fun n hn => (hnone n hn).2) fun n hn => (hnone (n + 1) hn).1
  omega

/-- The first verdict is within the budget. -/
theorem lt_budget_of_first {n : Nat} (hfirst : ∀ m < n, (s₀.after m).verdict? = none) :
    n < s₀.budget + 1 := by
  obtain ⟨k, hk, hsome⟩ := exists_verdict hs
  have hle : n ≤ k := Nat.le_of_not_lt fun hlt => hsome (hfirst k hlt)
  exact Nat.lt_succ_of_le ((hle.trans hk).trans (horizon_le_budget hs))

/-- A run whose first verdict is a tick that fails stops there. -/
theorem run_eq_error {n : Nat} (hfirst : ∀ m < n, (s₀.after m).verdict? = none)
    (hnot : (s₀.after n).isDone = false) {halt : Halt} {s : Simulation}
    (hfail : tick.run (s₀.after n) = .error halt s) : run.run s₀ = .error halt s := by
  refine runWithin_eq_error hfail (fun m hm => ?_)
    (fun m hm => (verdict?_eq_none_iff.1 (hfirst m hm)).2) (lt_budget_of_first hs hfirst)
  rcases Nat.lt_or_eq_of_le hm with hlt | rfl
  · exact (verdict?_eq_none_iff.1 (hfirst m hlt)).1
  · exact hnot

/-- **The first verdict of a run is its schedule.** -/
theorem schedule_eq_of_verdict {n : Nat} {outcome : Except ScheduleError (Nat × Trace)}
    (hfirst : ∀ m < n, (s₀.after m).verdict? = none)
    (hverdict : (s₀.after n).verdict? = some outcome) :
    schedule (Trace.ofList rs) config = outcome := by
  cases hdone : (s₀.after n).isDone with
  | true =>
    have hrun := runWithin_eq_ok hdone (fun m hm => (verdict?_eq_none_iff.1 (hfirst m hm)).1)
      (fun m hm => (verdict?_eq_none_iff.1 (hfirst m hm)).2) (lt_budget_of_first hs hfirst)
    obtain rfl := Option.some.inj ((verdict?_of_done hdone).symm.trans hverdict)
    rw [schedule, simulate_eq_ok_iff.2 ⟨s₀, _, hs, hrun⟩]
    rfl
  | false =>
    cases htick : tick.run (s₀.after n) with
    | ok _ s =>
      rw [verdict?, hdone, if_neg Bool.false_ne_true, htick] at hverdict
      cases hverdict
    | error halt s =>
      obtain rfl := Option.some.inj ((verdict?_of_error hdone htick).symm.trans hverdict)
      rw [schedule, simulate_eq_error hs (run_eq_error hs hfirst hdone htick)]
      rfl

/-- **Every run has a first verdict**, and that is its schedule. -/
theorem exists_first_verdict : ∃ n, (∀ m < n, (s₀.after m).verdict? = none) ∧
    (s₀.after n).verdict? = some (schedule (Trace.ofList rs) config) := by
  have hexists : ∃ n, (s₀.after n).verdict? ≠ none := (exists_verdict hs).imp fun _ h => h.2
  have hfirst (m : Nat) (hm : m < Nat.find hexists) : (s₀.after m).verdict? = none :=
    not_not.1 (Nat.find_min hexists hm)
  obtain ⟨outcome, houtcome⟩ := Option.ne_none_iff_exists'.1 (Nat.find_spec hexists)
  rw [schedule_eq_of_verdict hs hfirst houtcome]
  exact ⟨_, hfirst, houtcome⟩

end Run

end Simulation

/-- **A run ends with a schedule or at a record that the machine refuses.** -/
theorem schedule_cases {config : Config} (hconfig : config.check = .ok ()) (rs : List Record) :
    (∃ T t, schedule (Trace.ofList rs) config = .ok (T, t)) ∨
    ∃ n reason, schedule (Trace.ofList rs) config = .error (.halted n (.rejected reason)) ∧
      (Trace.ofList rs).Refused config.registers reason := by
  obtain ⟨s₀, hs⟩ := Simulation.exists_ofTrace hconfig (Trace.ofList rs)
  obtain ⟨n, -, hverdict⟩ := Simulation.exists_first_verdict hs
  cases hdone : (s₀.after n).isDone with
  | true =>
    rw [Simulation.verdict?_of_done hdone] at hverdict
    exact .inl ⟨_, _, (Option.some.inj hverdict).symm⟩
  | false =>
    have hvalid := Simulation.valid_at hs n
    rcases Simulation.tick_cases hvalid with ⟨htick, -⟩ | ⟨reason, htick, -⟩
    · rw [Simulation.verdict?_eq_none_iff.2 ⟨hdone, htick⟩] at hverdict
      cases hverdict
    · rw [Simulation.verdict?_of_error hdone htick] at hverdict
      obtain ⟨_, heq, -, hrefused⟩ := Simulation.refused_of_error hvalid htick
      cases heq
      exact .inr ⟨_, reason, (Option.some.inj hverdict).symm, hrefused⟩

/-- Whatever a run stops at is refused. -/
theorem refused_of_schedule {rs : List Record} {config : Config} {n : Nat} {reason : Rejection}
    (hconfig : config.check = .ok ())
    (h : schedule (Trace.ofList rs) config = .error (.halted n (.rejected reason))) :
    (Trace.ofList rs).Refused config.registers reason := by
  rcases schedule_cases hconfig rs with ⟨T, t, hok⟩ | ⟨m, reason', herror, hrefused⟩
  · cases h.symm.trans hok
  · cases h.symm.trans herror
    exact hrefused

end Tomasulo
