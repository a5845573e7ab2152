import Tomasulo.Proofs.Mirror
import Tomasulo.Proofs.Outcome

/-!
# Proofs/Lockstep — a program and the same program without its traps

Up to fetch the steps of a cycle on a core repeat those on the core it copies
(`Tomasulo.Proofs.Mirror`).  Fetch looks at the program, so here the two programs come in:
`Trace.OmitsTraps φ full thin` says that `thin` is `full` less its traps and that `φ` tells where
its records were.  With room in the queue fetch passes over the traps in front of the record that it
takes, or refuses, in the other program.  So a tick does the same on both machines, a state of one
run is done when that of the other is, and the two runs end in the same way.
-/

namespace Tomasulo

/-- **A program is another one less its traps**, whose other records are found at the positions
that `φ` gives. -/
structure Trace.OmitsTraps (φ : Nat → Nat) (full thin : Trace) : Prop where
  ascending : StrictMono φ
  lt_size : ∀ j, φ j < full.size ↔ j < thin.size
  record : ∀ {j r}, thin[j]? = some r → full[φ j]? = some (r.renumber φ)
  kept : ∀ j, thin.classAt j ≠ some .trap
  omitted : ∀ {i}, i < full.size → (∀ j, φ j ≠ i) → full.classAt i = some .trap

namespace Core

variable {config : Config} {φ : Nat → Nat} {full thin : Trace} {c d : Core}

/-- **Two actions do the same**, one on the copy and one on the original: they succeed, or they stop
at the same record. -/
def InStep (φ : Nat → Nat) (bound : Nat) (x y : Step Unit) (c d : Core) : Prop :=
  (∃ c' d', x.run c = .ok () c' ∧ y.run d = .ok () d' ∧ c'.Copies φ bound d') ∨
    ∃ reason c' d', x.run c = .error (.rejected (reason.renumber φ)) c' ∧
      y.run d = .error (.rejected reason) d' ∧ c'.Copies φ bound d'

/-- The check of a copied record says the same. -/
theorem Copies.check_renumber {bound : Nat} (h : c.Copies φ bound d) (r : Record) :
    (r.renumber φ).check c.machine.registers.size =
      (r.check d.machine.registers.size).mapError (·.renumber φ) := by
  rw [r.check_renumber, h.machine.registers, Slots.size_map]

/-- Taking corresponding records keeps copy and original. -/
theorem Copies.fetched {bound : Nat} (h : c.Copies φ bound d) (hφ : StrictMono φ)
    (hcursor : c.machine.cursor = φ d.machine.cursor) (hlt : d.machine.cursor < bound)
    (now : Nat) (op : OpClass) : (c.fetched now op).Copies φ bound (d.fetched now op) := by
  have hstamped := h.modify hφ.injective
    (f := fun r => { r with stamps := r.stamps.set .dispatch (some now) })
    (g := fun r => { r with stamps := r.stamps.set .dispatch (some now) })
    (fun _ => rfl) d.machine.cursor
  rw [← hcursor] at hstamped
  refine ⟨{ h.machine with queue := ?_, cursor := fun j => ?_, queue_lt := fun e he => ?_ },
    hstamped.size, hstamped.record⟩
  · simp [Core.fetched, h.machine.queue, FetchQueue.renumber, InFlight.renumber, hcursor]
  · change φ j < c.machine.cursor + 1 ↔ j < d.machine.cursor + 1
    rw [hcursor, Nat.lt_succ_iff, Nat.lt_succ_iff, hφ.le_iff_le]
  · rcases List.mem_append.1 he with he | he
    · exact h.machine.queue_lt e he
    · rw [List.mem_singleton.1 he]
      exact hlt

section Fetch

variable (ht : Trace.OmitsTraps φ full thin) (hc : c.Sound config full)
  (h : c.Copies φ thin.size d)

include ht hc h

/-- What is neither behind the cursor nor the next record of the other program is a trap. -/
theorem Copies.check_cursor (hcursor : c.machine.cursor ≠ φ d.machine.cursor) {r : Record}
    (hr : c.trace[c.machine.cursor]? = some r) :
    r.check c.machine.registers.size = .ok .trap ∧ ∀ j, φ j ≠ c.machine.cursor := by
  have hnone (j : Nat) : φ j ≠ c.machine.cursor := by
    intro hj
    have hge : d.machine.cursor ≤ j := Nat.le_of_not_lt fun hlt =>
      Nat.ne_of_lt ((h.machine.cursor j).2 hlt) hj
    rcases Nat.lt_or_eq_of_le hge with hlt | rfl
    · have hpassed : φ d.machine.cursor < c.machine.cursor := hj ▸ ht.ascending hlt
      exact Nat.lt_irrefl _ ((h.machine.cursor _).1 hpassed)
    · exact hcursor hj.symm
  have hlt : c.machine.cursor < full.size := hc.size_trace ▸ Trace.lt_size_of_getElem? hr
  have hclass := ht.omitted hlt hnone
  rw [← hc.classAt_trace, Trace.classAt, hr, Option.bind_some] at hclass
  exact ⟨Record.check_eq_ok_iff.2 ⟨hclass, fun hne => absurd rfl hne⟩, hnone⟩

/-- **Fetch passes over traps** until it comes to the next record of the other program or to the
end. -/
theorem Copies.run_fetchNext (now : Nat) {left : Nat}
    (hleft : c.trace.size - c.machine.cursor = left) :
    ∃ c', (Step.fetchNext now left).run c =
        (Step.fetchNext now (c'.trace.size - c'.machine.cursor)).run c' ∧
      c'.Sound config full ∧ c'.Copies φ thin.size d ∧
      c'.machine.queue = c.machine.queue ∧
      (full.size ≤ c'.machine.cursor ∨ c'.machine.cursor = φ d.machine.cursor) := by
  induction left generalizing c with
  | zero =>
    have hcursor : full.size ≤ c.machine.cursor := by
      rw [← hc.size_trace]
      omega
    exact ⟨c, by rw [hleft], hc, h, rfl, .inl hcursor⟩
  | succ left ih =>
    by_cases hcursor : c.machine.cursor = φ d.machine.cursor
    · exact ⟨c, by rw [hleft], hc, h, rfl, .inr hcursor⟩
    obtain ⟨r, hr⟩ := Trace.exists_getElem? (t := c.trace) (i := c.machine.cursor) (by omega)
    obtain ⟨hcheck, hnone⟩ := h.check_cursor ht hc hcursor hr
    have hpassed : (c.advanced.noted (.trapSkipped now c.machine.cursor)).Copies φ thin.size d := by
      refine ⟨{ h.machine with cursor := fun j => ?_ }, h.size, h.record⟩
      rw [← h.machine.cursor j]
      have := hnone j
      change φ j < c.machine.cursor + 1 ↔ φ j < c.machine.cursor
      omega
    have hleft' : c.trace.size - (c.machine.cursor + 1) = left := by omega
    obtain ⟨c', hrun, hrest⟩ := ih (hc.move (.skip hr hcheck)) hpassed hleft'
    exact ⟨c', (hc.run_fetchNext_skip hr hcheck left).trans hrun, hrest⟩

/-- At the next record of both programs fetch does the same. -/
theorem Copies.inStep_fetchNext (hd : d.Sound config thin)
    (hroom : d.machine.queue.isFull = false)
    (hcursor : full.size ≤ c.machine.cursor ∨ c.machine.cursor = φ d.machine.cursor) (now : Nat) :
    InStep φ thin.size (Step.fetchNext now (c.trace.size - c.machine.cursor))
      (Step.fetchNext now (d.trace.size - d.machine.cursor)) c d := by
  have hsizec : c.trace.size = full.size := hc.size_trace
  have hsized : d.trace.size = thin.size := hd.size_trace
  have hlt := ht.lt_size d.machine.cursor
  have hpassed := h.machine.cursor d.machine.cursor
  rcases Nat.lt_or_ge d.machine.cursor thin.size with hd' | hd'
  · have hcursor' : c.machine.cursor = φ d.machine.cursor := by omega
    obtain ⟨left, hleft⟩ : ∃ left, c.trace.size - c.machine.cursor = left + 1 :=
      Nat.exists_eq_add_one_of_ne_zero (by omega)
    obtain ⟨left', hleft'⟩ : ∃ left, d.trace.size - d.machine.cursor = left + 1 :=
      Nat.exists_eq_add_one_of_ne_zero (by omega)
    obtain ⟨r, hr, hrc⟩ := h.getElem? hd'
    rw [← hcursor'] at hrc
    rw [hleft, hleft']
    have hroomc : c.machine.queue.isFull = false := by
      rw [h.machine.queue, FetchQueue.isFull_renumber, hroom]
    have hcheckc := h.check_renumber r
    cases hcheck : r.check d.machine.registers.size with
    | error reason =>
      rw [hcheck] at hcheckc
      exact .inr ⟨reason, c, d, run_fetchNext_refused hrc hcheckc left,
        run_fetchNext_refused hr hcheck left', h⟩
    | ok op =>
      rw [hcheck] at hcheckc
      have hop : op ≠ .trap := by
        rintro rfl
        exact ht.kept _ (hd.class_cursor hr hcheck)
      exact .inl ⟨_, _, hc.run_fetchNext_push hrc hcheckc hop hroomc left,
        hd.run_fetchNext_push hr hcheck hop hroom left',
        h.fetched ht.ascending hcursor' hd' now op⟩
  · have hleft : c.trace.size - c.machine.cursor = 0 := by omega
    have hleft' : d.trace.size - d.machine.cursor = 0 := by omega
    rw [hleft, hleft']
    exact .inl ⟨c, d, rfl, rfl, h⟩

/-- **Fetch does the same on both machines.** -/
theorem Copies.inStep_fetch (hd : d.Sound config thin) (now : Nat) :
    InStep φ thin.size (Step.fetch now) (Step.fetch now) c d := by
  have hfull : c.machine.queue.isFull = d.machine.queue.isFull := by
    rw [h.machine.queue, FetchQueue.isFull_renumber]
  cases hroom : d.machine.queue.isFull with
  | true =>
    exact .inl ⟨c, d, run_fetch_of_full (hfull.trans hroom) now, run_fetch_of_full hroom now, h⟩
  | false =>
    obtain ⟨c', hrun, hc', h', -, hcursor⟩ := h.run_fetchNext ht hc now rfl
    have hstep := h'.inStep_fetchNext ht hc' hd hroom hcursor now
    rw [InStep, ← hrun, ← run_fetch_of_room (hfull.trans hroom),
      ← run_fetch_of_room hroom] at hstep
    exact hstep

end Fetch

/-! ## The whole cycle -/

/-- **Up to fetch a cycle does the same on both machines.** -/
theorem Copies.run_cycle (hφ : StrictMono φ) {n bound : Nat} (hc : c.Valid config full n)
    (hd : d.Valid config thin n) (h : c.Copies φ bound d) :
    ∃ c' d', (Step.cycle (n + 1)).run c = (conclude (n + 1)).run c' ∧
      (Step.cycle (n + 1)).run d = (conclude (n + 1)).run d' ∧
      c'.Sound config full ∧ d'.Sound config thin ∧ c'.Copies φ bound d' := by
  obtain ⟨c₂, c₃, c₄, hc₁, hc₂, hc₃, hc₄, hsoundc, -⟩ := hc.run_phases
  obtain ⟨d₂, d₃, d₄, hd₁, hd₂, hd₃, hd₄, hsoundd, -⟩ := hd.run_phases
  obtain ⟨_, _, hwake, -, h₁⟩ := Step.Mirrors.wake hφ.injective _ h hd₁
  cases hc₁.symm.trans hwake
  obtain ⟨_, _, hcomplete, -, h₂⟩ := Step.Mirrors.complete hφ _ h₁ hd₂
  cases hc₂.symm.trans hcomplete
  obtain ⟨_, _, hstart, -, h₃⟩ := Step.Mirrors.start hφ _ h₂ hd₃
  cases hc₃.symm.trans hstart
  obtain ⟨_, _, hissue, -, h₄⟩ := Step.Mirrors.issue hφ.injective _ h₃ hd₄
  cases hc₄.symm.trans hissue
  exact ⟨c₄, d₄, run_cycle_of_phases hc₁ hc₂ hc₃ hc₄, run_cycle_of_phases hd₁ hd₂ hd₃ hd₄,
    hsoundc, hsoundd, h₄⟩

/-- **A cycle does the same on both machines.** -/
theorem Copies.inStep_cycle (ht : Trace.OmitsTraps φ full thin) {n : Nat}
    (hc : c.Valid config full n) (hd : d.Valid config thin n) (h : c.Copies φ thin.size d) :
    InStep φ thin.size (Step.cycle (n + 1)) (Step.cycle (n + 1)) c d := by
  obtain ⟨c₄, d₄, hcycle, hcycle', hsoundc, hsoundd, h₄⟩ := h.run_cycle ht.ascending hc hd
  rw [InStep, hcycle, hcycle']
  rcases h₄.inStep_fetch ht hsoundc hsoundd (n + 1) with
    ⟨c₅, d₅, hfetch, hfetch', h₅⟩ | ⟨reason, c₅, d₅, hfetch, hfetch', h₅⟩
  · exact .inl ⟨_, _, run_conclude_of_ok hfetch, run_conclude_of_ok hfetch', h₅.machine, h₅.size,
      h₅.record⟩
  · exact .inr ⟨reason, c₅, d₅, run_conclude_of_error hfetch, run_conclude_of_error hfetch', h₅⟩

end Core

/-! ## Runs -/

namespace Simulation

/-- Simulations whose cycles do the same tick alike. -/
theorem next_of_inStep {s s' : Simulation} {φ : Nat → Nat} {bound : Nat}
    (h : Core.InStep φ bound (Step.cycle (s.cycle + 1)) (Step.cycle (s'.cycle + 1)) s.core
      s'.core) :
    s.next.core.Copies φ bound s'.next.core ∧
      ((tick.run s = .ok () s.next ∧ tick.run s' = .ok () s'.next) ∨
      ∃ reason, tick.run s = .error (.rejected (reason.renumber φ)) s.next ∧
        tick.run s' = .error (.rejected reason) s'.next) := by
  rcases h with ⟨c, d, hc, hd, h⟩ | ⟨reason, c, d, hc, hd, h⟩
  · obtain ⟨htick, hnext⟩ := tick_of_ok hc
    obtain ⟨htick', hnext'⟩ := tick_of_ok hd
    rw [hnext, hnext']
    exact ⟨h, .inl ⟨htick, htick'⟩⟩
  · obtain ⟨htick, hnext⟩ := tick_of_error hc
    obtain ⟨htick', hnext'⟩ := tick_of_error hd
    rw [hnext, hnext']
    exact ⟨h, .inr ⟨reason, htick, htick'⟩⟩

section Run

variable {rs ss : List Record} {config : Config} {s s' : Simulation} {φ : Nat → Nat}
  (hs : ofTrace (Trace.ofList rs) config = .ok s) (hs' : ofTrace (Trace.ofList ss) config = .ok s')
  (ht : Trace.OmitsTraps φ (Trace.ofList rs) (Trace.ofList ss))

include hs hs' ht

theorem inStep_of_copies {n : Nat}
    (h : (s.after n).core.Copies φ (Trace.ofList ss).size (s'.after n).core) :
    Core.InStep φ (Trace.ofList ss).size (Step.cycle ((s.after n).cycle + 1))
      (Step.cycle ((s'.after n).cycle + 1)) (s.after n).core (s'.after n).core := by
  rw [cycle_eq hs, cycle_eq hs']
  exact h.inStep_cycle ht (valid_after hs n) (valid_after hs' n)

/-- **The two runs go in step**: after every tick, also one that has failed, the one machine holds a
copy of what the other one holds. -/
theorem copies_after (n : Nat) :
    (s.after n).core.Copies φ (Trace.ofList ss).size (s'.after n).core := by
  induction n with
  | zero =>
    rw [after_zero, after_zero, (ofTrace_eq_ok_iff.1 hs).2, (ofTrace_eq_ok_iff.1 hs').2,
      Trace.unscheduled_ofList, Trace.unscheduled_ofList]
    exact ⟨Machine.copies_idle config φ _, rfl, ht.record⟩
  | succ n ih => exact (next_of_inStep (inStep_of_copies hs hs' ht ih)).1

/-- **The two runs are done in the same cycle**, if no tick has failed. The cursors need not be
compared: with an empty queue they are at the end after the tick. -/
theorem isDone_eq {n : Nat} (hticks : ∀ m < n,
      tick.run (s.after m) = .ok () (s.after (m + 1)) ∧
      tick.run (s'.after m) = .ok () (s'.after (m + 1))) :
    (s.after n).isDone = (s'.after n).isDone := by
  cases n with
  | zero => rw [isDone, isDone, cycle_eq hs, cycle_eq hs']; rfl
  | succ n =>
    obtain ⟨htick, htick'⟩ := hticks n (Nat.lt_succ_self n)
    rw [isDone_of_tick hs htick, isDone_of_tick hs' htick']
    exact (copies_after hs hs' ht (n + 1)).machine.isEmpty

/-- The two runs end in corresponding ways. -/
theorem verdicts_cases {n : Nat}
    (hnone : ∀ m < n, (s.after m).verdict? = none ∧ (s'.after m).verdict? = none) :
    ((s.after n).verdict? = none ∧ (s'.after n).verdict? = none) ∨
    ((s.after n).verdict? = some (.ok (n, (s.after n).core.trace)) ∧
      (s'.after n).verdict? = some (.ok (n, (s'.after n).core.trace))) ∨
    ∃ reason, (s.after n).verdict? =
        some (.error (.halted (n + 1) (.rejected (reason.renumber φ)))) ∧
      (s'.after n).verdict? = some (.error (.halted (n + 1) (.rejected reason))) := by
  have hdone := isDone_eq hs hs' ht fun m hm =>
    ⟨(verdict?_eq_none_iff.1 (hnone m hm).1).2, (verdict?_eq_none_iff.1 (hnone m hm).2).2⟩
  cases hdone' : (s'.after n).isDone with
  | true =>
    rw [hdone'] at hdone
    rw [verdict?_of_done hdone, verdict?_of_done hdone', cycle_eq hs, cycle_eq hs']
    exact .inr (.inl ⟨rfl, rfl⟩)
  | false =>
    rw [hdone'] at hdone
    have hstep := inStep_of_copies hs hs' ht (copies_after hs hs' ht n)
    rcases (next_of_inStep hstep).2 with ⟨htick, htick'⟩ | ⟨reason, htick, htick'⟩
    · exact .inl ⟨verdict?_eq_none_iff.2 ⟨hdone, htick⟩, verdict?_eq_none_iff.2 ⟨hdone', htick'⟩⟩
    · rw [verdict?_of_error hdone htick, verdict?_of_error hdone' htick', cycle_next, cycle_next,
        cycle_eq hs, cycle_eq hs']
      exact .inr (.inr ⟨reason, rfl, rfl⟩)

end Run

end Simulation

/-- **A program and the same program without its traps end alike**: in the same cycle, with the same
schedule of the records they share, or at the same record. -/
theorem schedules_cases {rs ss : List Record} {config : Config} {φ : Nat → Nat}
    (hconfig : config.check = .ok ())
    (ht : Trace.OmitsTraps φ (Trace.ofList rs) (Trace.ofList ss)) :
    (∃ T t t', schedule (Trace.ofList rs) config = .ok (T, t) ∧
      schedule (Trace.ofList ss) config = .ok (T, t') ∧
      ∀ j < ss.length, ∃ r, t'[j]? = some r ∧ t[φ j]? = some (r.renumber φ)) ∨
    ∃ n reason, schedule (Trace.ofList rs) config =
        .error (.halted n (.rejected (reason.renumber φ))) ∧
      schedule (Trace.ofList ss) config = .error (.halted n (.rejected reason)) := by
  obtain ⟨s, hs⟩ := Simulation.exists_ofTrace hconfig (Trace.ofList rs)
  obtain ⟨s', hs'⟩ := Simulation.exists_ofTrace hconfig (Trace.ofList ss)
  obtain ⟨N, hfirst', hverdict'⟩ := Simulation.exists_first_verdict hs'
  have hnone (n : Nat) (hn : n < N) :
      (s.after n).verdict? = none ∧ (s'.after n).verdict? = none := by
    induction n using Nat.strong_induction_on with
    | h n ih =>
      have hnone' := hfirst' n hn
      rcases Simulation.verdicts_cases hs hs' ht fun m hm => ih m hm (hm.trans hn) with
        h | ⟨-, h⟩ | ⟨reason, -, h⟩
      · exact h
      · cases hnone'.symm.trans h
      · cases hnone'.symm.trans h
  have hfirst (m : Nat) (hm : m < N) := (hnone m hm).1
  rcases Simulation.verdicts_cases hs hs' ht hnone with ⟨-, h'⟩ | ⟨h, h'⟩ | ⟨reason, h, h'⟩
  · cases hverdict'.symm.trans h'
  · exact .inl ⟨_, _, _, Simulation.schedule_eq_of_verdict hs hfirst h,
      Simulation.schedule_eq_of_verdict hs' hfirst' h',
      fun j hj => (Simulation.copies_after hs hs' ht _).getElem? (by simpa using hj)⟩
  · exact .inr ⟨_, reason, Simulation.schedule_eq_of_verdict hs hfirst h,
      Simulation.schedule_eq_of_verdict hs' hfirst' h'⟩

end Tomasulo
