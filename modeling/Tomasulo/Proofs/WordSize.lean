import Tomasulo.Proofs.Balance

/-!
# Proofs/WordSize — a run whose cycle numbers fit a word

A machine adds a latency to a start in words of 64 bits, and so do the statistics; the counter of
its cycles is a word too.  Within the horizon of a program that fits a word nothing of this wraps.

Two inputs.  A record that starts has owed the longest latency in the cycle before, so it is due
within the horizon (`due_lt_horizon`).  A cycle looks at its sums when it completes and at no other
time (`Sound.run_cycle_eq`), so an addition that is right for all sums that fit a word makes no
difference (`runsAlike`).  The addition of natural numbers is one and that of words is another
(`run_fits_word`).
-/

namespace Tomasulo

/-! ## Additions -/

/-- An addition that is right for all sums below a bound.  What it makes of the others is open: it
may wrap, stick at the bound or give anything else. -/
def IsExactBelow (bound : Nat) (add : Nat → Nat → Nat) : Prop :=
  ∀ a b, a + b < bound → add a b = a + b

theorem isExactBelow_add (bound : Nat) : IsExactBelow bound (· + ·) := fun _ _ _ => rfl

theorem isExactBelow_wordAdd : IsExactBelow UInt64.size wordAdd := fun _ _ => wordAdd_of_lt

/-! ## A cycle by another addition -/

namespace Core

variable {config : Config} {program : Trace} {c c' : Core} {now : Nat}

/-- Waking changes nothing about when a record is done. -/
theorem Sound.doneAt_awoken (h : c.Sound config program) (now : Nat) (d : Timing) :
    (c.awoken now).trace.doneAt d = c.trace.doneAt d := by
  have hpool : (c.awoken now).trace.poolAt = c.trace.poolAt := by
    rw [(h.moves (h.run_wake now).2).poolAt_trace, h.poolAt_trace]
  funext i
  rw [Trace.doneAt, Trace.doneAt, hpool, (c.awoken_awoken now).cycleAt]

/-- The latency of a unit after the start of its record is when the record is due. -/
theorem Sound.doneAt_of_runs (h : c.Sound config program) {r : Running} (hr : c.Runs r)
    {start : Nat} (hstart : c.trace.cycleAt .execute r.record.index = some start) :
    c.trace.doneAt config.nominal r.record.index =
      some (start + (c.machine.units r.pool).latency) := by
  rw [Trace.doneAt_eq_some_iff, h.poolAt_trace, h.fits.latency]
  exact ⟨r.pool, start, h.poolAt_station hr.2, hstart, rfl⟩

section Cycle

variable {add : Nat → Nat → Nat} (h : c.Sound config program)
  (hadd : IsExactBelow UInt64.size add) (hfits : c.trace.FitsWord config)

include h hadd hfits

/-- Whether a running record has finished does not depend on the addition. -/
theorem Sound.hasFinished_eq {r : Running} (hr : c.Runs r) (now : Nat) :
    c.hasFinished now r add = c.hasFinished now r := by
  rw [hasFinished, hasFinished]
  cases hstart : c.trace[r.record.index]?.bind (·.stamps.execute) with
  | none => rfl
  | some start =>
    have hsum := hfits _ _ (h.doneAt_of_runs hr hstart)
    rw [Option.any_some, Option.any_some, Units.hasFinished, Units.hasFinished, hadd _ _ hsum,
      wordAdd_of_lt hsum]

/-- The same stores have finished. -/
theorem Sound.finishedStores_eq (now : Nat) (p : Pool) :
    c.finishedStores now p add = c.finishedStores now p :=
  List.filter_congr fun _ hr => by rw [h.hasFinished_eq hadd hfits (mem_running.1 hr).2]

/-- The same record gets the bus. -/
theorem Sound.winner?_eq (now : Nat) : c.winner? now add = c.winner? now := by
  have hcontenders : c.contenders now add = c.contenders now := by
    refine List.flatMap_congr fun p _ => List.filter_congr fun r hr => ?_
    rw [h.hasFinished_eq hadd hfits (mem_running.1 hr).2]
  rw [winner?, hcontenders, winner?]

/-- The same stores are completed. -/
theorem Sound.run_completeStores_eq (now : Nat) (p : Pool) :
    (Step.completeStores now p add).run c = (Step.completeStores now p).run c := by
  refine (Step.run_bind_ok (EStateM.run_get c) _).trans ?_
  rw [h.finishedStores_eq hadd hfits]
  rfl

/-- Pool by pool the same stores leave. -/
theorem Sound.run_stores_eq (now : Nat) (ps : List Pool) :
    (ps.forM fun p => Step.completeStores now p add).run c =
      (ps.forM fun p => Step.completeStores now p).run c := by
  induction ps generalizing c with
  | nil => rfl
  | cons p ps ih =>
    obtain ⟨c', hrun, hdeeds, hvac, -⟩ := h.run_completeStores now p
    have hrun' := (h.run_completeStores_eq hadd hfits now p).trans hrun
    rw [Step.run_forM_cons (f := fun p => Step.completeStores now p add) hrun',
      Step.run_forM_cons (f := fun p => Step.completeStores now p) hrun]
    exact ih (h.moves hdeeds.moves) (hvac.trace ▸ hfits)

/-- **The same records complete.** -/
theorem Sound.run_complete_eq (now : Nat) :
    (Step.complete now add).run c = (Step.complete now).run c := by
  obtain ⟨c', hstores, hdeeds, hvac, -⟩ := h.run_stores now
  have hstores' := (h.run_stores_eq hadd hfits now Pool.all).trans hstores
  rw [run_complete_of_stores hstores,
    ← (h.moves hdeeds.moves).winner?_eq hadd (hvac.trace ▸ hfits)]
  exact (Step.run_bind_ok hstores' _).trans (Step.run_bind_ok (EStateM.run_get c') _)

/-- **A cycle by another addition is a cycle**, if that addition is right for whatever has started.
-/
theorem Sound.run_cycle_eq (now : Nat) :
    (Step.cycle now add).run c = (Step.cycle now).run c := by
  obtain ⟨hwake, hmoves⟩ := h.run_wake now
  have hawoken : (c.awoken now).trace.FitsWord config := by
    rw [Trace.FitsWord, h.doneAt_awoken]
    exact hfits
  refine (Step.run_bind_ok hwake _).trans (.trans ?_ (Step.run_bind_ok hwake _).symm)
  rw [EStateM.run_bind, EStateM.run_bind, (h.moves hmoves).run_complete_eq hadd hawoken]

end Cycle

end Core

/-! ## Statistics by another addition -/

section Statistics

variable {add : Nat → Nat → Nat} {latency : Nat} (hadd : IsExactBelow UInt64.size add)

include hadd

/-- A wait for the bus is the same by every addition that is exact below the sum. -/
theorem Stamps.busWait_eq {s : Stamps}
    (hsum : ∀ {start}, s.execute = some start → start + latency < UInt64.size) :
    s.busWait latency add = s.busWait latency := by
  rw [busWait, busWait]
  refine Option.bind_congr fun start hstart => ?_
  rw [hadd _ _ (hsum hstart), wordAdd_of_lt (hsum hstart)]

/-- The statistics agree if the addition is right for every record that has started. -/
theorem Stats.collect_eq {config : Config} {t : Trace}
    (hsum : ∀ {r start}, r ∈ t.toList → r.stamps.execute = some start →
      start + r.latency config < UInt64.size) (cycles : Nat) :
    collect t cycles config add = collect t cycles config := by
  have hwaits : (t.toList.filter (·.scheduledClass?.isSome)).map
        (fun r => r.stamps.busWait (r.latency config) add) =
      (t.toList.filter (·.scheduledClass?.isSome)).map
        fun r => r.stamps.busWait (r.latency config) :=
    List.map_congr_left fun r hr =>
      Stamps.busWait_eq hadd fun hstart => hsum (List.mem_of_mem_filter hr) hstart
  simp only [collect, hwaits]

end Statistics

/-! ## A run by another addition -/

namespace Simulation

/-- **A run whose cycle numbers stay below a bound.** -/
structure StaysBelow (config : Config) (bound T : Nat) (s₀ : Simulation) : Prop where
  /-- Every tick of the run counts to a number below the bound. -/
  counter : ∀ n < T, (s₀.after n).cycle + 1 < bound
  /-- Every stamp is below the bound. -/
  stamp : ∀ {n stage i m}, (s₀.after n).core.trace.cycleAt stage i = some m → m < bound
  /-- In every core that a tick comes through, whatever is on a unit is due below the bound. -/
  due : ∀ {n c}, Core.Moves (n + 1) (s₀.after n).core c →
    Core.Moves (n + 1) c (s₀.after (n + 1)).core → ∀ {p r start}, r ∈ c.machine.running p →
      c.trace.cycleAt .execute r.record.index = some start →
        start + (c.machine.units p).latency < bound
  /-- So is everything the statistics look at. -/
  collected : ∀ {n r start}, r ∈ (s₀.after n).core.trace.toList →
    r.stamps.execute = some start → start + r.latency config < bound

/-- **A run of `T` cycles by another addition and another counter**: it goes through the same states
and ends in the same one, and in each the statistics are the same. -/
structure RunsAlike (add : Nat → Nat → Nat) (count : Nat → Nat) (T : Nat) (s₀ s : Simulation) :
    Prop where
  tick : ∀ n < T, (tick add count).run (s₀.after n) = .ok () (s₀.after (n + 1))
  stats : ∀ n, (s₀.after n).stats add = (s₀.after n).stats
  run : ∀ fuel, T < fuel → (runWithin fuel add count).run s₀ = .ok T s

/-- A tick by another addition is a tick, if that addition is right for whatever has started and the
counter goes up by one. -/
theorem tick_eq {s : Simulation} {config : Config} {program : Trace} {add : Nat → Nat → Nat}
    {count : Nat → Nat} (hsound : s.core.Sound config program)
    (hfits : s.core.trace.FitsWord config) (hadd : IsExactBelow UInt64.size add)
    (hcount : count s.cycle = s.cycle + 1) : (tick add count).run s = tick.run s := by
  change tick add count s = tick wordAdd (· + 1) s
  unfold tick
  rw [hcount, hsound.run_cycle_eq hadd hfits]

section Run

variable {rs : List Record} {config : Config} {s₀ : Simulation} {bound T n i m : Nat}
  (hs : ofTrace (Trace.ofList rs) config = .ok s₀)

include hs

/-- A stamp is no later than the end of the run. -/
theorem cycleAt_le (hdrained : (s₀.after T).core.isDrained = true) {stage : Stage}
    (hm : (s₀.after n).core.trace.cycleAt stage i = some m) : m ≤ T :=
  (valid_after hs T).timed.cycle_le (((agrees_drained hs hdrained n).cycleAt
    ((valid_after hs n).timed.cycle_le hm)).1 hm)

/-- In the cycle before its start a record owes its longest latency and two cycles more. -/
theorem owed_before_start (hexecute : (s₀.after n).core.trace.cycleAt .execute i = some m) :
    ∃ k, m = k + 2 ∧ i ∈ (s₀.after (k + 1)).core.trace.order ∧
      (s₀.after (k + 1)).core.owed config (k + 1) i = config.longestLatency + 2 := by
  have hvalid := valid_after hs n
  obtain ⟨issue, hissue⟩ :=
    Option.isSome_iff_exists.1 (hvalid.sound.started (Option.isSome_of_eq_some hexecute))
  have hlt := hvalid.timed.issue_lt hissue hexecute
  have hpos := hvalid.timed.cycle_pos hissue
  have hle := hvalid.timed.cycle_le hexecute
  obtain ⟨k, rfl⟩ : ∃ k, m = k + 2 := ⟨m - 2, by omega⟩
  have hbefore := valid_after hs (k + 1)
  have hagrees := agrees_after hs (show k + 1 ≤ n by omega)
  have hissue' : ((s₀.after (k + 1)).core.trace.cycleAt .issue i).isSome = true :=
    Option.isSome_of_eq_some ((hagrees.cycleAt (by omega)).2 hissue)
  have hnone : (s₀.after (k + 1)).core.trace.cycleAt .execute i = none := by
    refine Option.eq_none_iff_forall_ne_some.2 fun b hb => ?_
    have hble := hbefore.timed.cycle_le hb
    have heq := Option.some.inj (((hagrees.cycleAt hble).1 hb).symm.trans hexecute)
    omega
  obtain ⟨p, hp⟩ := hbefore.sound.exists_poolAt_of_issued hissue'
  exact ⟨k, rfl, Trace.mem_order.2 (Trace.isScheduled_of_poolAt hp),
    hbefore.owed_of_waiting hissue' hnone⟩

variable (haccepted : (Trace.ofList rs).Accepted config.registers)

include haccepted

/-- **Whatever starts is due within the horizon.** -/
theorem due_lt_horizon {f : Nat} (hf : (s₀.after n).core.trace.doneAt config.nominal i = some f) :
    f < (Trace.ofList rs).horizon config := by
  obtain ⟨p, m, -, hm, rfl⟩ := Trace.doneAt_eq_some_iff.1 hf
  obtain ⟨k, rfl, horder, howed⟩ := owed_before_start hs hm
  have hnot (j : Nat) (hj : j < k) : (s₀.after (j + 1)).isDone = false := by
    refine Bool.eq_false_iff.2 fun hdone => ?_
    have hle := cycleAt_le hs (isDrained_of_isDone hdone) hm
    omega
  have hdebt := debt_add_le hs (fun j _ => (tick_ok hs haccepted j).1) hnot
  have howes : (s₀.after (k + 1)).core.owed config (k + 1) i ≤
      (s₀.after (k + 1)).core.debt config (k + 1) :=
    List.le_sum_of_mem (List.mem_map_of_mem horder)
  have hlatency := config.latency_le p
  rw [Config.nominal]
  omega

/-- So no sum wraps, if the horizon fits a word. -/
theorem fitsWord_after (hhorizon : (Trace.ofList rs).horizon config ≤ UInt64.size) (n : Nat) :
    (s₀.after n).core.trace.FitsWord config :=
  fun _ _ hf => (due_lt_horizon hs haccepted hf).trans_le hhorizon

variable (hdrained : (s₀.after T).core.isDrained = true)
  (hT : T ≤ (Trace.ofList rs).horizon config) (hbound : (Trace.ofList rs).horizon config < bound)

include hdrained hT hbound

/-- **A run stays below any bound beyond its horizon.** -/
theorem staysBelow : s₀.StaysBelow config bound T where
  counter n hn := by
    rw [cycle_eq hs]
    exact (Nat.succ_le_of_lt hn).trans_lt (hT.trans_lt hbound)
  stamp hm := (cycleAt_le hs hdrained hm).trans_lt (hT.trans_lt hbound)
  due := by
    intro n c hbefore hafter p r start hr hstart
    obtain ⟨rfl, hruns⟩ := Core.mem_running.1 hr
    have hsound := (valid_after hs n).sound.moves hbefore
    exact (due_lt_horizon hs haccepted
      (hsound.doneAt_moves hafter (hsound.doneAt_of_runs hruns hstart))).trans hbound
  collected := by
    intro n r start hr hstart
    obtain ⟨i, hi⟩ := List.getElem?_of_mem hr
    have hr' : (s₀.after n).core.trace[i]? = some r := by
      rw [← hi]
      exact (Array.getElem?_toList ..).symm
    have hexecute : (s₀.after n).core.trace.cycleAt .execute i = some start :=
      (Trace.cycleAt_of_getElem? hr' _).trans hstart
    have hsound := (valid_after hs n).sound
    obtain ⟨p, hp⟩ := hsound.exists_poolAt_of_issued
      (hsound.started (Option.isSome_of_eq_some hexecute))
    rw [Trace.latency_of_poolAt hr' hp]
    exact (due_lt_horizon hs haccepted
      (Trace.doneAt_eq_some_iff.2 ⟨p, start, hp, hexecute, rfl⟩)).trans hbound

end Run

/-- **An addition and a counter that are right for all words do not change a run within a word.** -/
theorem runsAlike {rs : List Record} {config : Config} {s₀ : Simulation} {T : Nat}
    (hs : ofTrace (Trace.ofList rs) config = .ok s₀)
    (haccepted : (Trace.ofList rs).Accepted config.registers)
    (hfirst : ∀ n < T, (s₀.after n).isDone = false) (hdone : (s₀.after T).isDone = true)
    (hstays : s₀.StaysBelow config UInt64.size T)
    (hfits : ∀ n, (s₀.after n).core.trace.FitsWord config) {add : Nat → Nat → Nat}
    {count : Nat → Nat} (hadd : IsExactBelow UInt64.size add)
    (hcount : ∀ n, n + 1 < UInt64.size → count n = n + 1) :
    s₀.RunsAlike add count T (s₀.after T).ended := by
  have hticks (n : Nat) (hn : n < T) :
      (Simulation.tick add count).run (s₀.after n) = .ok () (s₀.after (n + 1)) :=
    (tick_eq (valid_after hs n).sound (hfits n) hadd (hcount _ (hstays.counter n hn))).trans
      (tick_ok hs haccepted n).1
  refine ⟨hticks, fun n => ?_, fun fuel hfuel => ?_⟩
  · rw [Simulation.stats, config_after, config_eq hs, cycle_eq hs, stats_after hs]
    exact Stats.collect_eq hadd hstays.collected n
  · have hrun := runWithin_eq_ok hdone hfirst hticks hfuel
    rwa [cycle_eq hs] at hrun

/-- Beyond the horizon the runs part: by the addition of words a single record is through in five
cycles, by that of natural numbers it takes its latency. -/
example : (ofTrace (Trace.ofList [{ op := OpClass.int.word }]) wrappingMachine).toOption.any
    (fun s₀ => match (runWithin 9).run s₀, (runWithin 9 (· + ·)).run s₀ with
      | .ok T _, .error .overrun _ => T = 5
      | _, _ => false) = true := by
  decide +kernel

end Simulation

/-- A schedule within the horizon of its program is one whose sums fit a word. -/
theorem fitsWord_of_schedule {rs : List Record} {config : Config} {T : Nat} {t : Trace}
    (h : schedule (Trace.ofList rs) config = .ok (T, t))
    (hhorizon : (Trace.ofList rs).horizon config ≤ UInt64.size) : t.FitsWord config := by
  obtain ⟨s₀, hs, haccepted, -, rfl, -⟩ := schedule_eq_ok h
  exact Simulation.fitsWord_after hs haccepted hhorizon T

/-- **Within the horizon no cycle number wraps.**  If the horizon of acceptable records fits a word
of 64 bits, the counter, the stamps and every cycle in which a record is due stay below `2 ^ 64`
from the first tick to the end.  The run is the same by the addition of natural numbers, and it is
the same with words for the sums and for the counter. -/
theorem run_fits_word {rs : List Record} {config : Config} (hconfig : config.check = .ok ())
    (haccepted : (Trace.ofList rs).Accepted config.registers)
    (hhorizon :
      1 + (Trace.ofList rs).order.length * (config.longestLatency + 3) ≤ 2 ^ 64 - 1) :
    ∃ s₀ T s, Simulation.ofTrace (Trace.ofList rs) config = .ok s₀ ∧
      Simulation.run.run s₀ = .ok T s ∧ s₀.StaysBelow config (2 ^ 64) T ∧
        s₀.RunsAlike (· + ·) (· + 1) T s ∧ s₀.RunsAlike wordAdd (wordAdd · 1) T s := by
  obtain ⟨s₀, hs⟩ := Simulation.exists_ofTrace hconfig (Trace.ofList rs)
  obtain ⟨T, -, hle, hfirst, hdone, hrun⟩ := Simulation.exists_end hs haccepted
  have hbound : (Trace.ofList rs).horizon config < 2 ^ 64 := hhorizon.trans_lt (by decide)
  have hstays :=
    Simulation.staysBelow hs haccepted (Simulation.isDrained_of_isDone hdone) hle hbound
  have hfits := Simulation.fitsWord_after hs haccepted (Nat.le_of_lt hbound)
  have halike {add : Nat → Nat → Nat} {count : Nat → Nat} (hadd : IsExactBelow (2 ^ 64) add)
      (hcount : ∀ n, n + 1 < 2 ^ 64 → count n = n + 1) :=
    Simulation.runsAlike hs haccepted hfirst hdone hstays hfits hadd hcount
  exact ⟨s₀, T, _, hs, hrun, hstays, halike (isExactBelow_add _) fun _ _ => rfl,
    halike isExactBelow_wordAdd fun _ => wordAdd_of_lt⟩

/-- A machine on which the horizon of the meeting program is just within a word. -/
def lastingMachine : Config :=
  { queue := 2, pools := ⟨⟨3, 1, 2 ^ 62 - 4⟩, ⟨2, 1, 7⟩⟩ }

/-- The horizon is `2 ^ 64 - 3`; one cycle more of latency would bring it beyond a word. -/
theorem run_fits_word_lasting :
    lastingMachine.check = .ok () ∧
      (Trace.ofList meetingProgram).Accepted lastingMachine.registers ∧
      (Trace.ofList meetingProgram).horizon lastingMachine = 2 ^ 64 - 3 ∧
      ∃ s₀ T s, Simulation.ofTrace (Trace.ofList meetingProgram) lastingMachine = .ok s₀ ∧
        Simulation.run.run s₀ = .ok T s ∧ s₀.StaysBelow lastingMachine (2 ^ 64) T ∧
          s₀.RunsAlike (· + ·) (· + 1) T s ∧ s₀.RunsAlike wordAdd (wordAdd · 1) T s := by
  have hconfig : lastingMachine.check = .ok () := by decide
  have haccepted : (Trace.ofList meetingProgram).Accepted lastingMachine.registers := by
    decide +kernel
  exact ⟨hconfig, haccepted, by decide +kernel,
    run_fits_word hconfig haccepted (by decide +kernel)⟩

end Tomasulo
