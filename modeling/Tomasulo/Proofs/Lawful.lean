import Tomasulo.Proofs.Arbitration
import Tomasulo.Proofs.ProgramOrder
import Tomasulo.Proofs.Progress

/-!
# Proofs/Lawful — the laws of a schedule

A schedule is `Trace.Lawful` when the bus, the units and the stations go to whom the law of each
says, and `Trace.Fetched` when a bounded queue explains its dispatch stamps.  The schedule of a run
is both, and the run is over as soon as its schedule is (`exists_lawful`).  What is said of lawful
schedules from then on needs no machine.
-/

namespace Tomasulo

/-! ## What leaves a queue -/

theorem passes_succ_iff {f : Nat → Nat} {k n : Nat} :
    Passes f k (n + 1) ↔ f n = k ∧ f (n + 1) = k + 1 := by
  constructor
  · rintro ⟨m, hm, hk⟩
    obtain rfl := Nat.succ.inj hm
    exact hk
  · exact fun hk => ⟨n, rfl, hk⟩

/-- **What leaves a queue**: nothing in the first cycle, in every later one the next in order if it
is ready.  The room in the queue does not matter. -/
structure Leaves (total : Nat) (ready : Nat → Nat → Prop) (left : Nat → Nat) : Prop where
  zero : left 0 = 0
  succ : ∀ n,
    left (n + 1) = left n ∧ (0 < n → left n < total → ¬ ready (left n) (n + 1)) ∨
      left (n + 1) = left n + 1 ∧ 0 < n ∧ left n < total ∧ ready (left n) (n + 1)

namespace Leaves

variable {total k : Nat} {ready : Nat → Nat → Prop} {left : Nat → Nat}
  (h : Leaves total ready left)

include h

theorem counts : Counts left where
  zero := h.zero
  succ n := (h.succ n).imp And.left And.left

theorem le_total (n : Nat) : left n ≤ total := by
  induction n with
  | zero =>
    rw [h.zero]
    exact Nat.zero_le total
  | succ n ih =>
    rcases h.succ n with ⟨heq, -⟩ | ⟨heq, -, hlt, -⟩ <;> omega

/-- Nothing leaves in the first cycle. -/
theorem one : left 1 = 0 := by
  rcases h.succ 0 with ⟨heq, -⟩ | ⟨-, hpos, -⟩
  · exact heq.trans h.zero
  · exact absurd hpos (Nat.lt_irrefl 0)

/-- In every other cycle one leaves at most. -/
theorem succ_le (n : Nat) : left (n + 1) ≤ n := by
  induction n with
  | zero => exact h.one.le
  | succ n ih =>
    have := h.counts.succ (n + 1)
    omega

/-- What is ready leaves when it is its turn. -/
theorem passes_of_ready {n : Nat} (hn : 0 < n) (hleft : left n = k) (hlt : k < total)
    (hready : ready k (n + 1)) : Passes left k (n + 1) := by
  refine ⟨n, rfl, hleft, ?_⟩
  rcases h.succ n with ⟨-, hnot⟩ | ⟨heq, -⟩
  · rw [hleft] at hnot
    exact absurd hready (hnot hn hlt)
  · rw [heq, hleft]

/-- What leaves is ready. -/
theorem ready_of_passes {c : Nat} (hpass : Passes left k c) : ready k c := by
  obtain ⟨n, rfl, rfl, hn⟩ := hpass
  rcases h.succ n with ⟨heq, -⟩ | ⟨-, -, -, hready⟩
  · omega
  · exact hready

end Leaves

namespace QueueRun

variable {total room n : Nat} {ready : Nat → Nat → Prop} {entered left : Nat → Nat}
  (h : QueueRun total room ready entered left)

include h

/-- No more enters than there is. -/
theorem entered_le (n : Nat) : entered n ≤ total := by
  induction n with
  | zero =>
    rw [h.entered_zero]
    exact Nat.zero_le total
  | succ n ih =>
    have := h.entered_succ n
    omega

/-- What leaves has entered before. -/
theorem left_succ_le (n : Nat) : left (n + 1) ≤ entered n := by
  induction n with
  | zero =>
    have hentered := h.entered_zero
    have hleft := h.left_zero
    rcases h.left_succ 0 with ⟨heq, -⟩ | ⟨heq, hlt, -⟩ <;> omega
  | succ n ih =>
    have hle : entered n ≤ entered (n + 1) := h.counts_entered.mono (Nat.le_succ n)
    rcases h.left_succ (n + 1) with ⟨heq, -⟩ | ⟨heq, hlt, -⟩ <;> omega

/-- After the first cycle the queue is empty only if nothing is left. -/
theorem left_lt_entered_iff (hroom : 0 < room) (n : Nat) :
    left (n + 1) < entered (n + 1) ↔ left (n + 1) < total := by
  have hle := h.entered_le (n + 1)
  have hleft := h.left_succ_le n
  have := h.entered_succ n
  omega

/-- **The room in a queue does not show in what leaves it.** -/
theorem leaves (hroom : 0 < room) : Leaves total ready left where
  zero := h.left_zero
  succ n := by
    cases n with
    | zero =>
      have hzero := h.left_zero
      have := h.left_succ_le 0
      have := h.entered_zero
      exact .inl ⟨by omega, fun hlt => absurd hlt (Nat.lt_irrefl 0)⟩
    | succ n =>
      have hiff := h.left_lt_entered_iff hroom n
      rcases h.left_succ (n + 1) with ⟨heq, hnot⟩ | ⟨heq, hlt, hready⟩
      · exact .inl ⟨heq, fun _ hlt => hnot (hiff.2 hlt)⟩
      · exact .inr ⟨heq, Nat.succ_pos n, hiff.1 hlt, hready⟩

end QueueRun

namespace Trace

variable {config : Config} {t : Trace} {entered left : Nat → Nat} {cycle i n : Nat}

/-! ## Laws -/

/-- **The laws of a schedule**: in every cycle the oldest record that wants the bus has it, the
oldest records that want a unit start, as many as there are free units, and the next record in
program order leaves the queue if its pool has room.  No stamp has another reason. -/
structure Lawful (config : Config) (t : Trace) (left : Nat → Nat) : Prop where
  cycle_pos : ∀ {stage i n}, t.cycleAt stage i = some n → 0 < n
  cdb : ∀ {i n}, t.cycleAt .cdb i = some n ↔ IsLeast {j | j ∈ t.contending config.timing n} i
  pooled : ∀ {i n}, t.cycleAt .execute i = some n → ∃ p, t.poolAt i = some p
  started : ∀ n p, t.started n p =
    (t.waiting n p).take ((config.pools p).units - (t.busy config.timing n p).length)
  leaves : Leaves t.order.length (t.MayLeave config) left
  issue : ∀ {i n}, t.cycleAt .issue i = some n ↔
    (∃ p, t.poolAt i = some p) ∧ ∃ k, t.order[k]? = some i ∧ Passes left k n

/-- **A bounded queue explains when a record is dispatched.** -/
structure Fetched (config : Config) (t : Trace) (entered left : Nat → Nat) : Prop where
  queue : QueueRun t.order.length config.queue (t.MayLeave config) entered left
  dispatch : ∀ {i n}, t.cycleAt .dispatch i = some n ↔
    ∃ k, t.order[k]? = some i ∧ Passes entered k n

/-- **A schedule is over in a cycle** when everything has left the queue, every record of a pool is
finished and nobody has the bus. -/
structure IsOver (config : Config) (t : Trace) (left : Nat → Nat) (n : Nat) : Prop where
  left : left n = t.order.length
  finished : ∀ {i p}, t.poolAt i = some p → ∃ f, t.finishAt config.timing i = some f ∧ f ≤ n
  bus : ∀ i, t.cycleAt .cdb i ≠ some n

section SamePools

variable {config' : Config} (hpools : config'.pools = config.pools)

include hpools

/-- The laws are about the pools: the registers and the room in the queue do not matter. -/
theorem Lawful.congr (h : t.Lawful config' left) : t.Lawful config left := by
  obtain ⟨registers, queue, pools⟩ := config
  obtain ⟨registers', queue', pools'⟩ := config'
  obtain rfl : pools' = pools := hpools
  exact ⟨h.cycle_pos, h.cdb, h.pooled, h.started, h.leaves, h.issue⟩

theorem Fetched.congr (hqueue : config'.queue = config.queue)
    (h : t.Fetched config' entered left) : t.Fetched config entered left := by
  obtain ⟨registers, queue, pools⟩ := config
  obtain ⟨registers', queue', pools'⟩ := config'
  obtain rfl : pools' = pools := hpools
  obtain rfl : queue' = queue := hqueue
  exact ⟨h.queue, h.dispatch⟩

theorem IsOver.congr (h : t.IsOver config' left n) : t.IsOver config left n := by
  obtain ⟨registers, queue, pools⟩ := config
  obtain ⟨registers', queue', pools'⟩ := config'
  obtain rfl : pools' = pools := hpools
  exact ⟨h.left, h.finished, h.bus⟩

end SamePools

/-! ### What the laws say of a record -/

namespace Lawful

variable (h : t.Lawful config left)

include h

/-- Nothing is stamped with cycle 0. -/
theorem cycleAt_ne_zero (stage : Stage) (i : Nat) : t.cycleAt stage i ≠ some 0 :=
  fun hzero => Nat.lt_irrefl 0 (h.cycle_pos hzero)

/-- A record is issued before it starts. -/
theorem issue_lt (hn : t.cycleAt .execute i = some n) :
    ∃ m, t.cycleAt .issue i = some m ∧ m < n := by
  obtain ⟨p, hp⟩ := h.pooled hn
  have hmem := mem_started.2 ⟨hp, hn⟩
  rw [h.started] at hmem
  exact (mem_waiting.1 (List.mem_of_mem_take hmem)).2.1

/-- A finished record has been done. -/
theorem done_of_finished {f : Nat} (hf : t.finishAt config.timing i = some f) :
    ∃ d, t.doneAt config.timing i = some d ∧ d ≤ f := by
  rw [finishAt] at hf
  split at hf
  · exact (mem_contending.1 (h.cdb.1 hf).1).2.1
  · exact ⟨f, hf, Nat.le_refl f⟩

/-- A record waits for a unit or holds one in a station of its own. -/
theorem in_station_of_mem {p : Pool} (hi : i ∈ t.waiting cycle p ++ t.busy config.timing cycle p) :
    t.poolAt i = some p ∧ (∃ m, t.cycleAt .issue i = some m ∧ m < cycle) ∧
      ∀ f, t.finishAt config.timing i = some f → cycle < f := by
  rcases List.mem_append.1 hi with hi | hi
  · obtain ⟨hp, hissue, hexecute, -⟩ := mem_waiting.1 hi
    refine ⟨hp, hissue, fun f hf => ?_⟩
    obtain ⟨d, hd, hle⟩ := h.done_of_finished hf
    obtain ⟨q, b, -, hb, rfl⟩ := doneAt_eq_some_iff.1 hd
    exact ((hexecute b hb).trans_lt (config.lt_timing q b)).trans_le hle
  · obtain ⟨hp, ⟨b, hb, hlt⟩, hfinish⟩ := mem_busy.1 hi
    obtain ⟨m, hm, hmb⟩ := h.issue_lt hb
    exact ⟨hp, ⟨m, hm, hmb.trans hlt⟩, hfinish⟩

/-- **The records that wait for a unit or hold one are no more than there are stations**: when the
youngest of them was issued, the others had a station. -/
theorem length_le_stations (cycle : Nat) (p : Pool) :
    (t.waiting cycle p).length + (t.busy config.timing cycle p).length ≤
      (config.pools p).stations := by
  rw [← List.length_append]
  have hstation {i : Nat} (hi : i ∈ t.waiting cycle p ++ t.busy config.timing cycle p) :=
    h.in_station_of_mem hi
  have hnodup := nodup_waiting_append_busy config.timing t cycle p
  set is := t.waiting cycle p ++ t.busy config.timing cycle p
  by_cases hempty : is = []
  · rw [hempty]
    exact Nat.zero_le _
  obtain ⟨k, hmax⟩ := Option.ne_none_iff_exists'.1 (mt List.max?_eq_none_iff.1 hempty)
  obtain ⟨hk, hle⟩ := List.max?_eq_some_iff.1 hmax
  obtain ⟨hp, ⟨e, he, hlt⟩, -⟩ := hstation hk
  obtain ⟨-, l, hl, hpass⟩ := h.issue.1 he
  have hroom := (mayLeave_iff_of_pool hl hp e).1 (h.leaves.ready_of_passes hpass)
  have hsubset : is.erase k ⊆ t.unfinishedBelow config.timing e p k := by
    intro i hi
    obtain ⟨hne, hi⟩ := hnodup.mem_erase_iff.1 hi
    obtain ⟨hp', -, hfinish⟩ := hstation hi
    exact mem_unfinishedBelow.2 ⟨Nat.lt_of_le_of_ne (hle i hi) hne, hp',
      fun f hf => hlt.trans (hfinish f hf)⟩
  calc is.length = (is.erase k).length + 1 := (List.length_erase_add_one hk).symm
    _ ≤ (t.unfinishedBelow config.timing e p k).length + 1 :=
      Nat.succ_le_succ ((hnodup.erase k).subperm hsubset).length_le
    _ ≤ (config.pools p).stations := hroom

/-- With a unit for every station nobody waits for one. -/
theorem started_eq_waiting {p : Pool}
    (hunits : (config.pools p).stations ≤ (config.pools p).units) (cycle : Nat) :
    t.started cycle p = t.waiting cycle p := by
  have hlength := h.length_le_stations cycle p
  rw [h.started, List.take_of_length_le]
  omega

end Lawful

end Trace

/-! ## The schedule of a run -/

namespace Simulation

variable {rs : List Record} {config : Config} {s₀ : Simulation} {T n : Nat}
  (hs : ofTrace (Trace.ofList rs) config = .ok s₀)
  (haccepted : (Trace.ofList rs).Accepted config.registers)
  (hdrained : (s₀.after T).core.isDrained = true)

include hs haccepted hdrained

/-- **The schedule of a run is lawful.** -/
theorem lawful : (s₀.after T).core.trace.Lawful config fun n => (s₀.after n).core.exited := by
  have hvalid := valid_after hs T
  have hroom : 0 < config.queue := Config.check_eq_ok_iff.1 (ofTrace_eq_ok_iff.1 hs).1 .queue
  have horder := hvalid.sound.order_trace
  refine ⟨hvalid.timed.cycle_pos, fun {i n} => ?_, fun hn => ?_,
    started_eq hs haccepted hdrained, ?_, fun {i n} => ?_⟩
  · rw [contending_head? hs haccepted hdrained,
      Trace.head?_eq_some_iff_isLeast (Trace.pairwise_contending ..)]
  · exact hvalid.sound.exists_poolAt_of_issued (hvalid.sound.started (Option.isSome_of_eq_some hn))
  · rw [horder]
    exact (queueRun hs haccepted hdrained).leaves hroom
  · rw [horder]
    constructor
    · intro hn
      obtain ⟨p, hp⟩ := hvalid.sound.exists_poolAt_of_issued (Option.isSome_of_eq_some hn)
      have hmem : i ∈ (Trace.ofList rs).order :=
        horder ▸ Trace.mem_order.2 (Trace.isScheduled_of_poolAt hp)
      obtain ⟨k, hk⟩ := List.getElem?_of_mem hmem
      obtain ⟨d, e, hpass⟩ := exists_passes hs haccepted hdrained k
      obtain ⟨-, he⟩ := hpass (List.getElem?_eq_some_iff.1 hk).1
      have hstamp := issue_of_passes hs haccepted hdrained hk (Option.isSome_of_eq_some hp) he
      obtain rfl := Option.some.inj (hstamp.symm.trans hn)
      exact ⟨⟨p, hp⟩, k, hk, he⟩
    · rintro ⟨⟨p, hp⟩, k, hk, hpass⟩
      exact issue_of_passes hs haccepted hdrained hk (Option.isSome_of_eq_some hp) hpass

/-- The counts of a run are those its trace gives. -/
theorem fetched : (s₀.after T).core.trace.Fetched config (fun n => (s₀.after n).core.entered)
    fun n => (s₀.after n).core.exited := by
  have hsound := (valid_after hs T).sound
  refine ⟨hsound.order_trace ▸ queueRun hs haccepted hdrained, fun {i n} => ?_⟩
  rw [hsound.order_trace]
  constructor
  · intro hn
    have hmem : i ∈ (Trace.ofList rs).order :=
      Trace.mem_order.2 (hsound.dispatched.1 (Option.isSome_of_eq_some hn)).2
    obtain ⟨k, hk⟩ := List.getElem?_of_mem hmem
    obtain ⟨d, e, hpass⟩ := exists_passes hs haccepted hdrained k
    obtain ⟨hd, -⟩ := hpass (List.getElem?_eq_some_iff.1 hk).1
    have hstamp := dispatch_of_passes hs haccepted hdrained hk hd
    obtain rfl := Option.some.inj (hstamp.symm.trans hn)
    exact ⟨k, hk, hd⟩
  · rintro ⟨k, hk, hpass⟩
    exact dispatch_of_passes hs haccepted hdrained hk hpass

/-- **After the first cycle a run is drained when its schedule is over.** -/
theorem isDrained_iff_isOver (hn : 0 < n) : (s₀.after n).core.isDrained = true ↔
    (s₀.after T).core.trace.IsOver config (fun n => (s₀.after n).core.exited) n := by
  obtain ⟨n, rfl⟩ := Nat.exists_eq_succ_of_ne_zero (Nat.ne_of_gt hn)
  have hvalid := valid_after hs (n + 1)
  have hset := settled_after hs (n + 1)
  have hagrees := agrees_drained hs hdrained (n + 1)
  have horder := (valid_after hs T).sound.order_trace
  constructor
  · intro hnow
    refine ⟨?_, fun {i p} hp => ?_, fun i hi => ?_⟩
    · rw [horder]
      exact (hvalid.sound.counts_of_drained hnow).2
    · obtain ⟨-, f, hf, hle⟩ := hvalid.gone_of_drained hset hnow (hagrees.poolAt ▸ hp)
      exact ⟨f, (hagrees.finishAt hle).1 hf, hle⟩
    · have hbus := (hset.bus i).2 ((hagrees.cycleAt (Nat.le_refl _)).2 hi)
      rw [(Core.isDrained_iff.1 hnow).2.1] at hbus
      cases hbus
  · rintro ⟨hleft, hfinished, hbus⟩
    have hfinished' {i : Nat} {p : Pool} (hp : (s₀.after (n + 1)).core.trace.poolAt i = some p) :
        ∃ f, (s₀.after (n + 1)).core.trace.finishAt config.timing i = some f ∧ f ≤ n + 1 := by
      obtain ⟨f, hf, hle⟩ := hfinished (hagrees.poolAt ▸ hp)
      exact ⟨f, (hagrees.finishAt hle).2 hf, hle⟩
    have hqueue : (s₀.after (n + 1)).core.queued = [] := by
      rw [← List.length_eq_zero_iff]
      have hsum := hvalid.sound.exited_add_length
      have hentered := hvalid.sound.entered_le
      have hexited : (s₀.after (n + 1)).core.exited = (Trace.ofList rs).order.length :=
        horder ▸ hleft
      omega
    have hroom : 0 < config.queue := Config.check_eq_ok_iff.1 (ofTrace_eq_ok_iff.1 hs).1 .queue
    refine hvalid.isDrained_of_idle hset (fun {j e} hj => ?_) (fun {j} hj hnot => ?_) ?_ hqueue
      ((tick_ok hs haccepted n).2.cursor_of_queued_nil hroom hqueue)
    · obtain ⟨p, hp⟩ := hvalid.sound.exists_poolAt_of_issued
        (hvalid.sound.started (Option.isSome_of_eq_some hj))
      exact hfinished' hp
    · obtain ⟨p, hp⟩ := hvalid.sound.exists_poolAt_of_issued hj
      obtain ⟨f, hf, -⟩ := hfinished' hp
      obtain ⟨d, hd, -⟩ := hvalid.timed.done_of_finished hf
      obtain ⟨-, e, -, he, -⟩ := Trace.doneAt_eq_some_iff.1 hd
      rw [hnot] at he
      cases he
    · refine Option.eq_none_iff_forall_ne_some.2 fun d hd => ?_
      exact hbus d ((hagrees.cycleAt (Nat.le_refl _)).1 ((hset.bus d).1 hd))

end Simulation

/-- **A run of acceptable records has a schedule, which is lawful, and it takes as many cycles as
its schedule needs to be over.** -/
theorem exists_lawful {rs : List Record} {config : Config} (hconfig : config.check = .ok ())
    (haccepted : (Trace.ofList rs).Accepted config.registers) :
    ∃ T t entered left, schedule (Trace.ofList rs) config = .ok (T, t) ∧
      t.unscheduled = Trace.ofList rs ∧ t.Lawful config left ∧ t.Fetched config entered left ∧
        IsLeast {n | 0 < n ∧ t.IsOver config left n} T := by
  have hs := Simulation.ofTrace_start hconfig rs
  set s₀ := Simulation.start config rs
  obtain ⟨T, hpos, -, hfirst, hdone, hrun⟩ := Simulation.exists_end hs haccepted
  have hsimulate : simulate (Trace.ofList rs) config = .ok (s₀.after T).ended :=
    simulate_eq_ok_iff.2 ⟨s₀, T, hs, hrun⟩
  have hdrained := Simulation.isDrained_of_isDone hdone
  refine ⟨T, (s₀.after T).core.trace, _, _, ?_, (Simulation.valid_after hs T).sound.frame,
    Simulation.lawful hs haccepted hdrained, Simulation.fetched hs haccepted hdrained, ?_⟩
  · have hcycle : (s₀.after T).ended.cycle = T := Simulation.cycle_eq hs T
    rw [schedule, hsimulate]
    exact congrArg (fun n => Except.ok (n, (s₀.after T).core.trace)) hcycle
  · refine ⟨⟨hpos, (Simulation.isDrained_iff_isOver hs haccepted hdrained hpos).1 hdrained⟩, ?_⟩
    rintro n ⟨hn, hover⟩
    refine Nat.le_of_not_lt fun hlt => Bool.eq_false_iff.1 (hfirst n hlt) ?_
    rw [Simulation.isDone, Simulation.cycle_eq hs, decide_eq_true hn, Bool.true_and]
    exact (Simulation.isDrained_iff_isOver hs haccepted hdrained hn).2 hover

/-- Every schedule is the one of such a run. -/
theorem lawful_of_schedule {rs : List Record} {config : Config} {T : Nat} {t : Trace}
    (h : schedule (Trace.ofList rs) config = .ok (T, t)) :
    ∃ entered left, config.check = .ok () ∧ t.unscheduled = Trace.ofList rs ∧
      t.Lawful config left ∧ t.Fetched config entered left ∧
        IsLeast {n | 0 < n ∧ t.IsOver config left n} T := by
  obtain ⟨s₀, hs, haccepted, -⟩ := schedule_eq_ok h
  have hconfig := (Simulation.ofTrace_eq_ok_iff.1 hs).1
  obtain ⟨T', t', entered, left, h', hlawful⟩ := exists_lawful hconfig haccepted
  cases h.symm.trans h'
  exact ⟨entered, left, hconfig, hlawful⟩

end Tomasulo
