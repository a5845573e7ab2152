import Tomasulo.Proofs.Effect
import Tomasulo.Simulation

/-!
# Proofs/Run — the states of a run

`Simulation.after` is the state after any number of ticks, whether they succeed or not.  Every such
state is `Core.Valid` and `Core.Settled`, and earlier states agree with later ones on the stamps
written by then.  If all records are acceptable, every tick succeeds and has the `Core.Effect` of a
whole cycle.
-/

namespace Tomasulo

/-! ## Nothing happens to a drained core -/

namespace Core

variable {c c' : Core} {now : Nat}

/-- Drained means that nothing is anywhere and everything has been fetched. -/
theorem isDrained_iff : c.isDrained = true ↔
    c.machine.queue.entries = [] ∧ c.machine.bus.carried = none ∧
      (∀ p s, c.stationAt p s = none) ∧ (∀ p u, c.unitAt p u = none) ∧
        c.trace.size ≤ c.machine.cursor := by
  simp only [isDrained, Machine.isEmpty, Bool.and_eq_true, List.isEmpty_iff,
    Option.isNone_iff_eq_none, List.all_eq_true, Slots.isClear_iff, Pool.mem_all, forall_const,
    decide_eq_true_eq, stationAt, unitAt]
  constructor
  · rintro ⟨⟨⟨hq, hb⟩, hp⟩, hle⟩
    exact ⟨hq, hb, fun p => (hp p).1, fun p => (hp p).2, hle⟩
  · rintro ⟨hq, hb, hst, hu, hle⟩
    exact ⟨⟨⟨hq, hb⟩, fun p => ⟨hst p, hu p⟩⟩, hle⟩

/-- The only move left is to log. -/
theorem Move.of_drained (hdrained : c.isDrained = true) (hmove : Move now c c') :
    c'.machine = c.machine ∧ c'.trace = c.trace := by
  obtain ⟨hqueue, hbus, hstations, hunits, hcursor⟩ := isDrained_iff.1 hdrained
  have hend {r : Record} : c.trace[c.machine.cursor]? ≠ some r := fun hr =>
    Nat.not_lt.2 hcursor (Trace.lt_size_of_getElem? hr)
  cases hmove with
  | wake hb hr => exact absurd (hbus.symm.trans hb) nofun
  | store hu hs hop hdone => exact absurd ((hunits _ _).symm.trans hu) nofun
  | publish hu hs hop hdone hb => exact absurd ((hunits _ _).symm.trans hu) nofun
  | start hlt hu hs hready => exact absurd ((hstations _ _).symm.trans hs) nofun
  | pass hq hop => exact absurd (hqueue.symm.trans hq) nofun
  | issue hq hpool hlt hs hr => exact absurd (hqueue.symm.trans hq) nofun
  | skip hr hcheck => exact absurd hr hend
  | fetch hr hcheck hop hroom => exact absurd hr hend
  | note e => exact ⟨rfl, rfl⟩

/-- Once a core is drained nothing moves. -/
theorem Moves.of_drained (hdrained : c.isDrained = true) (hmoves : Moves now c c') :
    c'.machine = c.machine ∧ c'.trace = c.trace := by
  induction hmoves with
  | refl => exact ⟨rfl, rfl⟩
  | @tail d d' hmoves hmove ih =>
    have hd : d.isDrained = true := by
      rw [isDrained, ih.1, ih.2]
      exact hdrained
    have hstep := hmove.of_drained hd
    exact ⟨hstep.1.trans ih.1, hstep.2.trans ih.2⟩

end Core

namespace Simulation

/-- The state after the next tick, which may have failed. -/
def next (s : Simulation) : Simulation :=
  match tick.run s with
  | .ok _ s' => s'
  | .error _ s' => s'

/-- The state after a number of ticks. -/
def after (s : Simulation) : Nat → Simulation
  | 0 => s
  | n + 1 => (s.after n).next

@[simp] theorem after_zero (s : Simulation) : s.after 0 = s := rfl

/-- One cycle more comes at the end. -/
theorem after_succ (s : Simulation) (n : Nat) : s.after (n + 1) = (s.after n).next := rfl

/-- One cycle more comes at the beginning. -/
theorem after_next (s : Simulation) (n : Nat) : s.next.after n = s.after (n + 1) := by
  induction n with
  | zero => rfl
  | succ n ih => rw [after_succ, ih, ← after_succ]

/-- Cycles add up. -/
theorem after_add (s : Simulation) (m n : Nat) : (s.after m).after n = s.after (m + n) := by
  induction n with
  | zero => rfl
  | succ n ih => rw [after_succ, ih, ← after_succ, Nat.add_assoc]

/-- What is done is drained. -/
theorem isDrained_of_isDone {s : Simulation} (h : s.isDone = true) : s.core.isDrained = true := by
  rw [isDone, Bool.and_eq_true] at h
  exact h.2

/-! ## One tick -/

section Tick

variable {s : Simulation} {c : Core} {halt : Halt}

/-- A tick of a cycle that succeeds. -/
theorem tick_of_ok (h : (Step.cycle (s.cycle + 1)).run s.core = .ok () c) :
    tick.run s = .ok () { s with core := c, cycle := s.cycle + 1 } ∧
      s.next = { s with core := c, cycle := s.cycle + 1 } := by
  have hrun : tick.run s = .ok () { s with core := c, cycle := s.cycle + 1 } := by
    rw [EStateM.run] at h ⊢
    simp only [tick, EStateM.run, h]
  refine ⟨hrun, ?_⟩
  rw [next, hrun]

/-- A tick of a cycle that stops. -/
theorem tick_of_error (h : (Step.cycle (s.cycle + 1)).run s.core = .error halt c) :
    tick.run s = .error halt { s with core := c, cycle := s.cycle + 1 } ∧
      s.next = { s with core := c, cycle := s.cycle + 1 } := by
  have hrun : tick.run s = .error halt { s with core := c, cycle := s.cycle + 1 } := by
    rw [EStateM.run] at h ⊢
    simp only [tick, EStateM.run, h]
  refine ⟨hrun, ?_⟩
  rw [next, hrun]

end Tick

@[simp] theorem cycle_next (s : Simulation) : s.next.cycle = s.cycle + 1 := by
  cases h : (Step.cycle (s.cycle + 1)).run s.core with
  | ok _ c => rw [(tick_of_ok h).2]
  | error halt c => rw [(tick_of_error h).2]

@[simp] theorem cycle_after (s : Simulation) (n : Nat) : (s.after n).cycle = s.cycle + n := by
  induction n with
  | zero => rfl
  | succ n ih => rw [after_succ, cycle_next, ih, Nat.add_assoc]

theorem config_next (s : Simulation) : s.next.config = s.config := by
  cases h : (Step.cycle (s.cycle + 1)).run s.core with
  | ok _ c => rw [(tick_of_ok h).2]
  | error halt c => rw [(tick_of_error h).2]

@[simp] theorem config_after (s : Simulation) (n : Nat) : (s.after n).config = s.config := by
  induction n with
  | zero => rfl
  | succ n ih => rw [after_succ, config_next, ih]

/-- A simulation can be made of any trace on a machine that can be used. -/
theorem ofTrace_eq_ok_iff {t : Trace} {config : Config} {s : Simulation} :
    ofTrace t config = .ok s ↔
      config.check = .ok () ∧ s = { config, core := Core.start config t.unscheduled } := by
  unfold ofTrace
  cases h : config.check with
  | error e => simp [bind, Except.bind]
  | ok u => simp [bind, Except.bind, pure, Except.pure, Core.start, eq_comm]

/-- A program on the idle machine, before the first cycle. -/
def start (config : Config) (rs : List Record) : Simulation :=
  { config, core := Core.start config (Trace.ofList rs).unscheduled }

theorem ofTrace_start {config : Config} (h : config.check = .ok ()) (rs : List Record) :
    ofTrace (Trace.ofList rs) config = .ok (start config rs) :=
  ofTrace_eq_ok_iff.2 ⟨h, rfl⟩

theorem exists_ofTrace {config : Config} (h : config.check = .ok ()) (t : Trace) :
    ∃ s, ofTrace t config = .ok s :=
  ⟨_, ofTrace_eq_ok_iff.2 ⟨h, rfl⟩⟩

/-- The latencies of an accepted configuration are positive. -/
theorem latency_pos {config : Config} (h : config.check = .ok ()) (p : Pool) :
    0 < (config.pools p).latency :=
  Config.check_eq_ok_iff.1 h (.latency p)

/-! ## A tick of a valid core -/

section Valid

variable {s : Simulation} {config : Config} {program : Trace}
  (hvalid : s.core.Valid config program s.cycle)

include hvalid

/-- A tick is a whole cycle, or fetch gets stuck. -/
theorem tick_cases :
    (tick.run s = .ok () s.next ∧ Core.Effect config (s.cycle + 1) s.core s.next.core) ∨
    ∃ reason, tick.run s = .error (.rejected reason) s.next ∧
      Core.Ticked config (s.cycle + 1) s.core s.next.core ∧ s.next.core.Stuck reason := by
  rcases hvalid.run_cycle with ⟨c, hrun, heffect⟩ | ⟨reason, c, hrun, hticked, hstuck⟩
  · obtain ⟨htick, hnext⟩ := tick_of_ok hrun
    rw [hnext]
    exact .inl ⟨htick, heffect⟩
  · obtain ⟨htick, hnext⟩ := tick_of_error hrun
    rw [hnext]
    exact .inr ⟨reason, htick, hticked, hstuck⟩

/-- What a tick has done, whether it has succeeded or not. -/
theorem ticked_next : Core.Ticked config (s.cycle + 1) s.core s.next.core := by
  rcases tick_cases hvalid with ⟨-, heffect⟩ | ⟨-, -, hticked, -⟩
  · exact heffect.toTicked
  · exact hticked

/-- A cycle is a sequence of moves, whether it stops or not. -/
theorem moves_next : Core.Moves (s.cycle + 1) s.core s.next.core :=
  (ticked_next hvalid).moves

/-- A cycle keeps the core valid, whether it stops or not. -/
theorem valid_next : s.next.core.Valid config program s.next.cycle := by
  rw [cycle_next]
  exact (hvalid.mono (Nat.le_succ _)).moves (Nat.succ_pos _) (moves_next hvalid)
    (ticked_next hvalid).stays

/-- A tick that fails has come to a refused record. -/
theorem refused_of_error {halt : Halt} (hfail : tick.run s = .error halt s.next) :
    ∃ reason, halt = .rejected reason ∧ s.next.core.Stuck reason ∧
      program.Refused config.registers reason := by
  rcases tick_cases hvalid with ⟨htick, -⟩ | ⟨reason, htick, -, hstuck⟩
  · cases hfail.symm.trans htick
  · cases hfail.symm.trans htick
    obtain ⟨r, hr, hcheck⟩ := (valid_next hvalid).sound.refused_of_stuck hstuck
    exact ⟨reason, rfl, hstuck, r, Trace.mem_toList_of_getElem? hr, hcheck⟩

/-- **With acceptable records every tick succeeds** and has the effect of a whole cycle. -/
theorem tick_of_accepted (haccepted : program.Accepted config.registers) :
    tick.run s = .ok () s.next ∧ Core.Effect config (s.cycle + 1) s.core s.next.core := by
  rcases tick_cases hvalid with hok | ⟨reason, hfail, -⟩
  · exact hok
  · obtain ⟨reason, -, -, hrefused⟩ := refused_of_error hvalid hfail
    exact absurd hrefused (haccepted.not_refused reason)

/-- **Once drained, drained for ever**: machine and trace stay as they are. -/
theorem after_of_drained (hdrained : s.core.isDrained = true) (n : Nat) :
    (s.after n).core.Valid config program (s.after n).cycle ∧
      (s.after n).core.machine = s.core.machine ∧ (s.after n).core.trace = s.core.trace := by
  induction n with
  | zero => exact ⟨hvalid, rfl, rfl⟩
  | succ n ih =>
    obtain ⟨hn, hmachine, htrace⟩ := ih
    have hstill : (s.after n).core.isDrained = true := by
      rw [Core.isDrained, hmachine, htrace]
      exact hdrained
    have hstep := (moves_next hn).of_drained hstill
    exact ⟨valid_next hn, hstep.1.trans hmachine, hstep.2.trans htrace⟩

/-- **A machine that is done rests**: every further tick succeeds and changes nothing but the cycle
count and the log. -/
theorem rests_of_done (haccepted : program.Accepted config.registers) (hdone : s.isDone = true)
    (n : Nat) :
    tick.run (s.after n) = .ok () (s.after (n + 1)) ∧ (s.after n).isDone = true ∧
      (s.after n).core.machine = s.core.machine ∧ (s.after n).core.trace = s.core.trace := by
  rw [isDone, Bool.and_eq_true, decide_eq_true_eq] at hdone
  obtain ⟨hn, hmachine, htrace⟩ := after_of_drained hvalid hdone.2 n
  refine ⟨(tick_of_accepted hn haccepted).1, ?_, hmachine, htrace⟩
  rw [isDone, Core.isDrained, hmachine, htrace, cycle_after, Bool.and_eq_true, decide_eq_true_eq]
  exact ⟨Nat.add_pos_left hdone.1 n, hdone.2⟩

end Valid

/-! ## All ticks -/

section Run

variable {rs : List Record} {config : Config} {s₀ : Simulation}
  (hs : ofTrace (Trace.ofList rs) config = .ok s₀)

include hs

theorem config_eq : s₀.config = config := by
  rw [(ofTrace_eq_ok_iff.1 hs).2]

theorem cycle_eq (n : Nat) : (s₀.after n).cycle = n := by
  rw [cycle_after, (ofTrace_eq_ok_iff.1 hs).2]
  exact Nat.zero_add n

/-- **Every state of a run is valid**, also after a tick that failed. -/
theorem valid_at (n : Nat) :
    (s₀.after n).core.Valid config (Trace.ofList rs) (s₀.after n).cycle := by
  induction n with
  | zero =>
    rw [after_zero, (ofTrace_eq_ok_iff.1 hs).2, Trace.unscheduled_ofList]
    exact Core.valid_start config (Trace.unscheduled_ofList rs) (Trace.numbered_ofList rs) 0
  | succ n ih => exact valid_next ih

/-- The core is valid after any number of cycles. -/
theorem valid_after (n : Nat) : (s₀.after n).core.Valid config (Trace.ofList rs) n := by
  have h := valid_at hs n
  rwa [cycle_eq hs n] at h

/-- Every tick of a run, whether it succeeds or not. -/
theorem ticked_after (n : Nat) :
    Core.Ticked config (n + 1) (s₀.after n).core (s₀.after (n + 1)).core := by
  have hticked := ticked_next (valid_at hs n)
  rwa [cycle_eq hs n] at hticked

/-- **After every tick the structures are settled**, also after one that has failed. -/
theorem settled_after (n : Nat) : (s₀.after n).core.Settled config n := by
  cases n with
  | zero =>
    rw [after_zero, (ofTrace_eq_ok_iff.1 hs).2, Trace.unscheduled_ofList]
    exact Core.settled_start config (Trace.unscheduled_ofList rs) 0
  | succ n => exact (ticked_after hs n).settled

/-- **A stamp is for ever**: states agree up to the earlier of their cycles. -/
theorem agrees_after {m n : Nat} (hle : m ≤ n) :
    Trace.AgreesUpTo m (s₀.after m).core.trace (s₀.after n).core.trace := by
  induction n, hle using Nat.le_induction with
  | base => exact .refl _ _
  | succ n hle ih =>
    exact ih.trans (((valid_after hs n).agrees (ticked_after hs n).moves).mono hle)

/-- A drained run has seen every record, so all were acceptable. -/
theorem accepted_of_drained {n : Nat} (hdrained : (s₀.after n).core.isDrained = true) :
    (Trace.ofList rs).Accepted config.registers := by
  have hsound := (valid_after hs n).sound
  obtain ⟨-, -, -, -, hcursor⟩ := Core.isDrained_iff.1 hdrained
  rw [hsound.size_trace] at hcursor
  intro r hr
  obtain ⟨i, hi⟩ := List.getElem?_of_mem hr
  have hr' : (Trace.ofList rs)[i]? = some r := by
    rw [← hi]
    exact (Array.getElem?_toList ..).symm
  obtain ⟨r', op, hr'', hcheck⟩ :=
    hsound.accepted (Nat.lt_of_lt_of_le (Trace.lt_size_of_getElem? hr') hcursor)
  obtain rfl := Option.some.inj (hr'.symm.trans hr'')
  exact ⟨op, hcheck⟩

/-- **The trace of a drained state is the last word**: every state agrees with it on its past. -/
theorem agrees_drained {T : Nat} (hdrained : (s₀.after T).core.isDrained = true) (n : Nat) :
    Trace.AgreesUpTo n (s₀.after n).core.trace (s₀.after T).core.trace := by
  rcases Nat.le_total n T with hle | hle
  · exact agrees_after hs hle
  · obtain ⟨k, rfl⟩ := Nat.exists_eq_add_of_le hle
    have htrace := (after_of_drained (valid_at hs T) hdrained k).2.2
    rw [← after_add, htrace]
    exact .refl _ _

/-- A tick that succeeds is a whole cycle. -/
theorem effect_of_ok {n : Nat} (htick : tick.run (s₀.after n) = .ok () (s₀.after (n + 1))) :
    Core.Effect config (n + 1) (s₀.after n).core (s₀.after (n + 1)).core := by
  rcases tick_cases (valid_at hs n) with ⟨-, heffect⟩ | ⟨reason, hfail, -⟩
  · rwa [cycle_eq hs n] at heffect
  · cases htick.symm.trans hfail

variable (haccepted : (Trace.ofList rs).Accepted config.registers)

include haccepted

/-- Tick by tick, a run of acceptable records. -/
theorem tick_ok (n : Nat) : tick.run (s₀.after n) = .ok () (s₀.after (n + 1)) ∧
    Core.Effect config (n + 1) (s₀.after n).core (s₀.after (n + 1)).core := by
  have hok := tick_of_accepted (valid_at hs n) haccepted
  rwa [cycle_eq hs n] at hok

end Run

/-! ## Running until done -/

section Until

variable {s : Simulation} {add : Nat → Nat → Nat} {count : Nat → Nat}

/-- The state in which a run that is done stops: the end of the run is logged. -/
def ended (s : Simulation) : Simulation :=
  { s with core := s.core.noted (.runCompleted s.cycle s.core.trace.size) }

/-- A run that is over gives its cycles. -/
theorem runWithin_of_done (h : s.isDone = true) (fuel : Nat) :
    (runWithin (fuel + 1) add count).run s = .ok s.cycle s.ended := by
  change (if s.isDone then _ else _ : EStateM Halt Simulation Nat).run s = _
  rw [h]
  rfl

/-- A run that is not over ticks first. -/
theorem runWithin_of_not_done (h : s.isDone = false) (fuel : Nat) :
    (runWithin (fuel + 1) add count).run s =
      match (tick add count).run s with
      | .ok _ s' => (runWithin fuel add count).run s'
      | .error halt s' => .error halt s' := by
  change (if s.isDone then _ else (tick add count >>= fun _ => runWithin fuel add count) :
    EStateM Halt Simulation Nat).run s = _
  rw [h, if_neg Bool.false_ne_true, EStateM.run_bind]
  cases (tick add count).run s <;> rfl

/-- Ticks that succeed before the run is done can be taken off a run. -/
theorem runWithin_after {n : Nat} (hfirst : ∀ m < n, (s.after m).isDone = false)
    (hticks : ∀ m < n, (tick add count).run (s.after m) = .ok () (s.after (m + 1)))
    (fuel : Nat) :
    (runWithin (n + fuel) add count).run s = (runWithin fuel add count).run (s.after n) := by
  induction n generalizing s with
  | zero => rw [Nat.zero_add, after_zero]
  | succ n ih =>
    have hnot : s.isDone = false := hfirst 0 (Nat.succ_pos n)
    have htick : (tick add count).run s = .ok () s.next := hticks 0 (Nat.succ_pos n)
    have hafter := after_next s
    rw [Nat.succ_add, runWithin_of_not_done hnot, htick, ← hafter]
    refine ih (fun m hm => ?_) fun m hm => ?_
    · rw [hafter]
      exact hfirst (m + 1) (Nat.succ_lt_succ hm)
    · rw [hafter, hafter]
      exact hticks (m + 1) (Nat.succ_lt_succ hm)

/-- **A run that succeeds tick by tick stops when it is done for the first time.** -/
theorem runWithin_eq_ok {T fuel : Nat} (hdone : (s.after T).isDone = true)
    (hfirst : ∀ n < T, (s.after n).isDone = false)
    (hticks : ∀ n < T, (tick add count).run (s.after n) = .ok () (s.after (n + 1)))
    (hfuel : T < fuel) :
    (runWithin fuel add count).run s = .ok (s.after T).cycle (s.after T).ended := by
  obtain ⟨k, rfl⟩ := Nat.exists_eq_add_of_lt hfuel
  rw [Nat.add_assoc, runWithin_after hfirst hticks]
  exact runWithin_of_done hdone k

/-- A run stops at the first tick that fails. -/
theorem runWithin_eq_error {n fuel : Nat} {halt : Halt} {s' : Simulation}
    (hfail : tick.run (s.after n) = .error halt s')
    (hfirst : ∀ m ≤ n, (s.after m).isDone = false)
    (hticks : ∀ m < n, tick.run (s.after m) = .ok () (s.after (m + 1))) (hfuel : n < fuel) :
    (runWithin fuel).run s = .error halt s' := by
  obtain ⟨k, rfl⟩ := Nat.exists_eq_add_of_lt hfuel
  rw [Nat.add_assoc, runWithin_after (fun m hm => hfirst m (Nat.le_of_lt hm)) hticks,
    runWithin_of_not_done (hfirst n (Nat.le_refl n)), hfail]

/-- A run that succeeds has stopped in a state that is done. -/
theorem done_of_runWithin {T fuel : Nat} {s' : Simulation}
    (h : (runWithin fuel).run s = .ok T s') :
    ∃ n, (s.after n).isDone = true ∧ T = (s.after n).cycle ∧ s' = (s.after n).ended := by
  induction fuel generalizing s with
  | zero => cases h
  | succ fuel ih =>
    cases hdone : s.isDone with
    | true =>
      rw [runWithin_of_done hdone] at h
      cases h
      exact ⟨0, hdone, rfl, rfl⟩
    | false =>
      rw [runWithin_of_not_done hdone] at h
      cases htick : tick.run s with
      | error halt s₁ =>
        rw [htick] at h
        cases h
      | ok u s₁ =>
        rw [htick] at h
        obtain ⟨n, hn⟩ := ih h
        have hnext : s.next = s₁ := by rw [next, htick]
        rw [← hnext, after_next] at hn
        exact ⟨n + 1, hn⟩

end Until

section Accepted

variable {rs : List Record} {config : Config} {s₀ : Simulation}
  (hs : ofTrace (Trace.ofList rs) config = .ok s₀)
  (haccepted : (Trace.ofList rs).Accepted config.registers)

include hs haccepted

/-- **A run of acceptable records goes on from any tick** until it is done for the first time. -/
theorem run_after_eq_ok {n m : Nat} (hdone : (s₀.after (n + m)).isDone = true)
    (hfirst : ∀ k < m, (s₀.after (n + k)).isDone = false) (hbudget : m ≤ (s₀.after n).budget) :
    run.run (s₀.after n) = .ok (n + m) (s₀.after (n + m)).ended := by
  have hticks (k : Nat) (_ : k < m) :
      tick.run ((s₀.after n).after k) = .ok () ((s₀.after n).after (k + 1)) := by
    rw [after_add, after_add]
    exact (tick_ok hs haccepted (n + k)).1
  have hrun := runWithin_eq_ok (s := s₀.after n) (by rwa [after_add])
    (fun k hk => by rw [after_add, hfirst k hk]) hticks (Nat.lt_succ_of_le hbudget)
  rwa [after_add, cycle_eq hs] at hrun

/-- Such a run from its first cycle on. -/
theorem run_eq_ok {T : Nat} (hdone : (s₀.after T).isDone = true)
    (hfirst : ∀ n < T, (s₀.after n).isDone = false) (hbudget : T ≤ s₀.budget) :
    run.run s₀ = .ok T (s₀.after T).ended := by
  have hrun := run_after_eq_ok hs haccepted (n := 0) (m := T)
  simp only [Nat.zero_add, after_zero] at hrun
  exact hrun hdone hfirst hbudget

end Accepted

end Simulation

/-! ## Small programs

The first has an `fp` result that a younger record overwrites before it is there; on the small
machine its second `fp` record waits in front of the only station. -/

/-- Six records, of every class but load and jump. -/
def sampleProgram : List Record :=
  [{ op := OpClass.fp.word, outputs := #v[some 33, none], inputs := #v[some 32, none, none] },
   { op := OpClass.trap.word },
   { op := OpClass.int.word, outputs := #v[some 33, some 33], inputs := #v[some 1, some 2, none] },
   { op := OpClass.branch.word },
   { op := OpClass.fp.word, outputs := #v[some 34, none], inputs := #v[some 33, some 34, none] },
   { op := OpClass.store.word, inputs := #v[some 34, some 33, none] }]

/-- A machine with one station and one unit in each pool. -/
def smallMachine : Config :=
  { queue := 2, pools := ⟨⟨1, 1, 1⟩, ⟨1, 1, 3⟩⟩ }

/-- Four records; on a narrow machine the load and the first `fp` record are done in the same cycle.
-/
def meetingProgram : List Record :=
  [{ op := OpClass.int.word, outputs := #v[some 1, none] },
   { op := OpClass.load.word, outputs := #v[some 2, none], inputs := #v[some 1, none, none] },
   { op := OpClass.fp.word, outputs := #v[some 33, none] },
   { op := OpClass.fp.word, outputs := #v[some 34, none] }]

/-- A machine with one unit in each pool and a few stations. -/
def narrowMachine : Config :=
  { queue := 2, pools := ⟨⟨3, 1, 4⟩, ⟨2, 1, 7⟩⟩ }

/-- A store and an integer record. -/
def storingProgram : List Record :=
  [{ op := OpClass.store.word }, { op := OpClass.int.word }]

/-- A machine with the longest integer latency a word can hold.  What starts on an integer unit is
done, by a sum of words, in the cycle before. -/
def wrappingMachine : Config :=
  { pools := ⟨⟨1, 1, UInt64.size - 1⟩, ⟨1, 1, 1⟩⟩ }

/-- Four records that use one register again and again. -/
def reusingProgram : List Record :=
  [{ op := OpClass.int.word, outputs := #v[some 1, none] },
   { op := OpClass.fp.word, outputs := #v[some 1, none], inputs := #v[some 1, none, none] },
   { op := OpClass.load.word, outputs := #v[some 1, none] },
   { op := OpClass.store.word, inputs := #v[some 1, some 1, none] }]

/-- The same with a register for every result. -/
def renamedProgram : List Record :=
  [{ op := OpClass.int.word, outputs := #v[some 0, none] },
   { op := OpClass.fp.word, outputs := #v[none, some 1], inputs := #v[none, some 0, none] },
   { op := OpClass.load.word, outputs := #v[some 2, some 2] },
   { op := OpClass.store.word, inputs := #v[none, none, some 2] }]

/-- A result, four branches behind it, and a trap. -/
def branchingProgram : List Record :=
  { op := OpClass.int.word, outputs := #v[some 1, none] } ::
    (List.replicate 4 { op := OpClass.branch.word } ++ [{ op := OpClass.trap.word }])

/-! ## Schedules -/

/-- A simulation that has run until done has a run from the first cycle behind it. -/
theorem simulate_eq_ok_iff {t : Trace} {config : Config} {s : Simulation} :
    simulate t config = .ok s ↔ ∃ s₀ T, Simulation.ofTrace t config = .ok s₀ ∧
      Simulation.run.run s₀ = .ok T s := by
  unfold simulate
  cases hs : Simulation.ofTrace t config with
  | error e => simp [Except.mapError, bind, Except.bind]
  | ok s₀ =>
    cases hrun : Simulation.run.run s₀ with
    | error halt s' =>
      simp [Except.mapError, bind, Except.bind, hrun, throw, throwThe, MonadExceptOf.throw]
    | ok T s' => simp [Except.mapError, bind, Except.bind, hrun, pure, Except.pure]

/-- A simulation whose run stops is halted in the cycle it has come to. -/
theorem simulate_eq_error {t : Trace} {config : Config} {s₀ s : Simulation} {halt : Halt}
    (hs : Simulation.ofTrace t config = .ok s₀) (hrun : Simulation.run.run s₀ = .error halt s) :
    simulate t config = .error (.halted s.cycle halt) := by
  simp [simulate, hs, hrun, Except.mapError, bind, Except.bind, throw, throwThe,
    MonadExceptOf.throw]

/-- **A schedule is the trace of a state that is done**, and every state of its run agrees with it
on the past. -/
theorem schedule_eq_ok {rs : List Record} {config : Config} {T : Nat} {t : Trace}
    (h : schedule (Trace.ofList rs) config = .ok (T, t)) :
    ∃ s₀, Simulation.ofTrace (Trace.ofList rs) config = .ok s₀ ∧
      (Trace.ofList rs).Accepted config.registers ∧ (s₀.after T).core.isDrained = true ∧
      t = (s₀.after T).core.trace ∧ ∀ n, Trace.AgreesUpTo n (s₀.after n).core.trace t := by
  unfold schedule at h
  cases hsim : simulate (Trace.ofList rs) config with
  | error e =>
    rw [hsim] at h
    cases h
  | ok s =>
    rw [hsim] at h
    cases h
    obtain ⟨s₀, T, hs, hrun⟩ := simulate_eq_ok_iff.1 hsim
    obtain ⟨n, hdone, -, rfl⟩ := Simulation.done_of_runWithin hrun
    have hcycle : (s₀.after n).ended.cycle = n := Simulation.cycle_eq hs n
    have hdrained := Simulation.isDrained_of_isDone hdone
    rw [hcycle]
    exact ⟨s₀, hs, Simulation.accepted_of_drained hs hdrained, hdrained, rfl,
      Simulation.agrees_drained hs hdrained⟩

/-- A schedule is one of an accepted configuration. -/
theorem latency_pos_of_schedule {rs : List Record} {config : Config} {T : Nat} {t : Trace}
    (h : schedule (Trace.ofList rs) config = .ok (T, t)) (p : Pool) :
    0 < (config.pools p).latency := by
  obtain ⟨s₀, hs, -⟩ := schedule_eq_ok h
  exact Simulation.latency_pos (Simulation.ofTrace_eq_ok_iff.1 hs).1 p

/-- A run whose number of cycles is known has a schedule. -/
theorem exists_schedule_of_cycles {trace : Trace} {config : Config} {T : Nat}
    (h : (schedule trace config).toOption.map Prod.fst = some T) :
    ∃ t, schedule trace config = .ok (T, t) := by
  cases hschedule : schedule trace config with
  | error e =>
    rw [hschedule] at h
    cases h
  | ok x =>
    rw [hschedule] at h
    obtain rfl := Option.some.inj h
    exact ⟨x.2, rfl⟩

/-- A run about whose schedule something is known has one. -/
theorem exists_schedule_of_any (trace : Trace) (config : Config) (P : Nat × Trace → Prop)
    [DecidablePred P] (h : (schedule trace config).toOption.any (decide <| P ·) = true) :
    ∃ T t, schedule trace config = .ok (T, t) ∧ P (T, t) := by
  cases hschedule : schedule trace config with
  | error e =>
    rw [hschedule] at h
    cases h
  | ok x =>
    rw [hschedule] at h
    exact ⟨x.1, x.2, rfl, of_decide_eq_true h⟩

end Tomasulo
