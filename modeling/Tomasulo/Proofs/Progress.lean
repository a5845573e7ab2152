import Mathlib.Algebra.Order.BigOperators.Group.List
import Mathlib.Algebra.Order.Ring.Nat
import Tomasulo.Proofs.Run

/-!
# Proofs/Progress — every cycle brings the end nearer

A record owes a number of cycles (`Core.owed`): what it may still take, at most, before the machine
has forgotten it.  No cycle raises what any record owes, and every cycle that does not find the
machine drained lowers what one of them owes (`Effect.exists_owed_lt`): the record on the bus, one
that runs, the oldest that wants a unit, or the head of the queue.  So a run of acceptable records
is done after at most as many cycles as its records owe in the beginning.
-/

namespace Tomasulo

/-- No latency exceeds the longest. -/
theorem Config.latency_le (config : Config) (p : Pool) :
    (config.pools p).latency ≤ config.longestLatency := by
  cases p
  · exact Nat.le_max_left ..
  · exact Nat.le_max_right ..

namespace Core

variable {config : Config} {program : Trace} {c c' : Core} {now n i : Nat}

/-! ## What a record owes -/

/-- The cycles that a record may still take: in front of the stations its longest latency and three
more, in a station one less; once started what is left of its latency, and two until it has
finished; on the bus one. -/
def owed (config : Config) (now : Nat) (c : Core) (i : Nat) : Nat :=
  if c.machine.cursor ≤ i ∨ i ∈ c.queued then config.longestLatency + 3
  else if c.trace.poolAt i = none then 0
  else match c.trace.doneAt config.timing i with
    | none => config.longestLatency + 2
    | some f =>
      if (c.trace.finishAt config.timing i).all (now < ·) then max 2 (f + 1 - now)
      else if c.machine.bus.carried = some i then 1
      else 0

/-- What all records owe together. -/
def debt (config : Config) (now : Nat) (c : Core) : Nat :=
  (c.trace.order.map (c.owed config now)).sum

theorem owed_of_ahead (hi : c.machine.cursor ≤ i ∨ i ∈ c.queued) :
    c.owed config now i = config.longestLatency + 3 :=
  if_pos hi

theorem owed_of_control (hi : i < c.machine.cursor) (hq : i ∉ c.queued)
    (hpool : c.trace.poolAt i = none) : c.owed config now i = 0 := by
  rw [owed, if_neg (by simp [hi, hq]), if_pos hpool]

section Owed

variable (h : c.Valid config program now)

include h

/-- An issued record has left the queue and has a pool. -/
theorem Valid.behind_of_issued (hi : (c.trace.cycleAt .issue i).isSome = true) :
    ¬ (c.machine.cursor ≤ i ∨ i ∈ c.queued) ∧ c.trace.poolAt i ≠ none := by
  obtain ⟨hlt, hpool, hq⟩ := h.sound.issued.1 hi
  rw [← h.sound.poolAt_trace] at hpool
  refine ⟨?_, fun hnone => by simp [hnone] at hpool⟩
  rintro (hle | hmem)
  · exact Nat.not_lt.2 hle hlt
  · exact hq hmem

theorem Valid.owed_of_waiting (hi : (c.trace.cycleAt .issue i).isSome = true)
    (hexecute : c.trace.cycleAt .execute i = none) :
    c.owed config now i = config.longestLatency + 2 := by
  obtain ⟨hbehind, hpool⟩ := h.behind_of_issued hi
  have hdone : c.trace.doneAt config.timing i = none := by
    rw [Option.eq_none_iff_forall_ne_some]
    intro f hf
    obtain ⟨p, m, -, hm, -⟩ := Trace.doneAt_eq_some_iff.1 hf
    rw [hexecute] at hm
    cases hm
  rw [owed, if_neg hbehind, if_neg hpool, hdone]

/-- Whatever is done or will be has been issued. -/
theorem Valid.issued_of_doneAt {f : Nat} (hf : c.trace.doneAt config.timing i = some f) :
    (c.trace.cycleAt .issue i).isSome = true := by
  obtain ⟨p, m, -, hm, -⟩ := Trace.doneAt_eq_some_iff.1 hf
  exact h.sound.started (Option.isSome_of_eq_some hm)

theorem Valid.owed_of_running {f : Nat} (hf : c.trace.doneAt config.timing i = some f)
    (hrunning : ∀ m, c.trace.finishAt config.timing i = some m → now < m) :
    c.owed config now i = max 2 (f + 1 - now) := by
  obtain ⟨hbehind, hpool⟩ := h.behind_of_issued (h.issued_of_doneAt hf)
  have hall : (c.trace.finishAt config.timing i).all (now < ·) = true := by
    simpa [Option.all_eq_true] using hrunning
  rw [owed, if_neg hbehind, if_neg hpool, hf]
  exact if_pos hall

theorem Valid.owed_of_finished {m : Nat} (hm : c.trace.finishAt config.timing i = some m)
    (hle : m ≤ now) :
    c.owed config now i = if c.machine.bus.carried = some i then 1 else 0 := by
  obtain ⟨f, hf, -⟩ := h.timed.done_of_finished hm
  obtain ⟨hbehind, hpool⟩ := h.behind_of_issued (h.issued_of_doneAt hf)
  have hall : ¬ (c.trace.finishAt config.timing i).all (now < ·) = true := by
    simp [hm, hle]
  rw [owed, if_neg hbehind, if_neg hpool, hf]
  exact if_neg hall

/-- Nothing that has started is done later than after the longest latency, or a cycle. -/
theorem Valid.doneAt_le {f : Nat} (hf : c.trace.doneAt config.timing i = some f) :
    f ≤ now + max 1 config.longestLatency := by
  obtain ⟨p, m, -, hm, rfl⟩ := Trace.doneAt_eq_some_iff.1 hf
  exact (config.timing_le p m).trans
    (Nat.add_le_add (h.timed.cycle_le hm) (max_le_max_left 1 (config.latency_le p)))

/-- **Where a record behind the queue is**: a jump or branch is gone; any other waits in a station,
runs or is finished. -/
theorem Valid.behind_cases (hi : i < c.machine.cursor) (hq : i ∉ c.queued) :
    c.trace.poolAt i = none ∨
      (c.trace.cycleAt .issue i).isSome = true ∧ (c.trace.cycleAt .execute i = none ∨
        ∃ f, c.trace.doneAt config.timing i = some f ∧
          ((∀ m, c.trace.finishAt config.timing i = some m → now < m) ∨
            ∃ m, c.trace.finishAt config.timing i = some m ∧ m ≤ now)) := by
  cases hpool : c.trace.poolAt i with
  | none => exact .inl rfl
  | some p =>
    have hissue : (c.trace.cycleAt .issue i).isSome = true := by
      refine h.sound.issued.2 ⟨hi, ?_, hq⟩
      rw [← h.sound.poolAt_trace, hpool]
      rfl
    refine .inr ⟨hissue, ?_⟩
    cases hx : c.trace.cycleAt .execute i with
    | none => exact .inl rfl
    | some e =>
      refine .inr ⟨_, Trace.doneAt_eq_some_iff.2 ⟨p, e, hpool, hx, rfl⟩, ?_⟩
      by_cases hall : ∀ m, c.trace.finishAt config.timing i = some m → now < m
      · exact .inl hall
      · push Not at hall
        exact .inr hall

theorem Valid.owed_le_of_behind (hi : i < c.machine.cursor) (hq : i ∉ c.queued) :
    c.owed config now i ≤ config.longestLatency + 2 := by
  rcases h.behind_cases hi hq with hpool | ⟨hissue, hx | ⟨f, hf, hrun | ⟨m, hm, hle⟩⟩⟩
  · rw [owed_of_control hi hq hpool]
    exact Nat.zero_le _
  · rw [h.owed_of_waiting hissue hx]
  · rw [h.owed_of_running hf hrun]
    have := h.doneAt_le hf
    omega
  · rw [h.owed_of_finished hm hle]
    split <;> omega

theorem Valid.owed_le (i : Nat) : c.owed config now i ≤ config.longestLatency + 3 := by
  by_cases hahead : c.machine.cursor ≤ i ∨ i ∈ c.queued
  · rw [owed_of_ahead hahead]
  · rw [not_or, Nat.not_le] at hahead
    exact Nat.le_succ_of_le (h.owed_le_of_behind hahead.1 hahead.2)

end Owed

/-! ## No cycle raises what is owed -/

section Cycle

variable (h : c.Valid config program n) (heffect : Effect config (n + 1) c c')

include h heffect

/-- What has been fetched is fetched for good, and is not fetched again. -/
theorem Effect.fetched_stays (hi : i < c.machine.cursor) (hsched : program.isScheduled i = true) :
    i < c'.machine.cursor ∧ c.incoming config (n + 1) c'.trace ≠ some i := by
  obtain ⟨m, hm⟩ := Option.isSome_iff_exists.1 (h.sound.dispatched.2 ⟨hi, hsched⟩)
  have hm' := heffect.stamp_stays h hm
  refine ⟨((heffect.valid h).sound.dispatched.1 (Option.isSome_of_eq_some hm')).1, fun hin => ?_⟩
  have hnow := Option.some.inj (hm'.symm.trans ((heffect.dispatch i).2 hin))
  have hle := h.timed.cycle_le hm
  omega

/-- What is behind the queue stays behind it. -/
theorem Effect.behind_stays (hi : i < c.machine.cursor) (hsched : program.isScheduled i = true)
    (hq : i ∉ c.queued) : i < c'.machine.cursor ∧ i ∉ c'.queued := by
  obtain ⟨hi', hin⟩ := heffect.fetched_stays h hi hsched
  refine ⟨hi', ?_⟩
  rw [heffect.queued, List.mem_append, not_or, Option.mem_toList, remaining]
  refine ⟨?_, hin⟩
  split
  · exact fun hmem => hq (List.mem_of_mem_tail hmem)
  · exact hq

/-- A record that has finished has done so for good, and is not on the bus. -/
theorem Effect.finished_stays {m : Nat} (hm : c.trace.finishAt config.timing i = some m)
    (hle : m ≤ n) :
    c'.trace.finishAt config.timing i = some m ∧ c'.machine.bus.carried ≠ some i := by
  have hm' := ((heffect.agrees h).finishAt hle).1 hm
  refine ⟨hm', fun hbus => ?_⟩
  have hcdb := (heffect.settled.bus i).1 hbus
  have hpub := ((heffect.valid h).sound.broadcast (Option.isSome_of_eq_some hcdb)).1
  rw [← (heffect.valid h).sound.publishes_trace] at hpub
  rw [Trace.finishAt, if_pos hpub, hcdb] at hm'
  have hnow := Option.some.inj hm'
  omega

/-- When a record is done is settled when it starts. -/
theorem Effect.doneAt_stays {f : Nat} (hf : c.trace.doneAt config.timing i = some f) :
    c'.trace.doneAt config.timing i = some f := by
  obtain ⟨p, m, hp, hm, hsum⟩ := Trace.doneAt_eq_some_iff.1 hf
  refine Trace.doneAt_eq_some_iff.2 ⟨p, m, ?_, heffect.stamp_stays h hm, hsum⟩
  rw [← (heffect.agrees h).poolAt]
  exact hp

/-- **No record owes more after a cycle.** -/
theorem Effect.owed_le (hsched : program.isScheduled i = true) :
    c'.owed config (n + 1) i ≤ c.owed config n i := by
  have h' := heffect.valid h
  by_cases hahead : c.machine.cursor ≤ i ∨ i ∈ c.queued
  · rw [owed_of_ahead hahead]
    exact h'.owed_le i
  rw [not_or, Nat.not_le] at hahead
  obtain ⟨hi', hq'⟩ := heffect.behind_stays h hahead.1 hsched hahead.2
  rcases h.behind_cases hahead.1 hahead.2 with hpool | ⟨hissue, hx | ⟨f, hf, hrun | ⟨m, hm, hle⟩⟩⟩
  · have hpool' : c'.trace.poolAt i = none := by rw [← (heffect.agrees h).poolAt, hpool]
    rw [owed_of_control hi' hq' hpool']
    exact Nat.zero_le _
  · rw [h.owed_of_waiting hissue hx]
    exact h'.owed_le_of_behind hi' hq'
  · have hf' := heffect.doneAt_stays h hf
    rw [h.owed_of_running hf hrun]
    by_cases hrun' : ∀ m, c'.trace.finishAt config.timing i = some m → n + 1 < m
    · rw [h'.owed_of_running hf' hrun']
      omega
    · push Not at hrun'
      obtain ⟨m, hm, hle⟩ := hrun'
      rw [h'.owed_of_finished hm hle]
      split <;> omega
  · obtain ⟨hm', hbus⟩ := heffect.finished_stays h hm hle
    rw [h'.owed_of_finished hm' (Nat.le_succ_of_le hle), if_neg hbus]
    exact Nat.zero_le _

/-! ## Every cycle lowers what some record owes -/

theorem Effect.owed_lt_of_bus {d : Nat} (hset : c.Settled config n)
    (hbus : c.machine.bus.carried = some d) :
    c'.owed config (n + 1) d < c.owed config n d := by
  have hcdb := (hset.bus d).1 hbus
  have hpub := (h.sound.broadcast (Option.isSome_of_eq_some hcdb)).1
  rw [← h.sound.publishes_trace] at hpub
  have hfinish : c.trace.finishAt config.timing d = some n := by
    rw [Trace.finishAt, if_pos hpub, hcdb]
  obtain ⟨hfinish', hbus'⟩ := heffect.finished_stays h hfinish (Nat.le_refl n)
  rw [h.owed_of_finished hfinish (Nat.le_refl n), if_pos hbus,
    (heffect.valid h).owed_of_finished hfinish' (Nat.le_succ n), if_neg hbus']
  exact Nat.one_pos

/-- The record that takes the bus had run before: it is done by now, so it started in an earlier
cycle. -/
theorem Effect.owed_lt_of_taken {d : Nat} (hcdb : c'.trace.cycleAt .cdb d = some (n + 1)) :
    c'.owed config (n + 1) d < c.owed config n d := by
  have h' := heffect.valid h
  have hpub := (h'.sound.broadcast (Option.isSome_of_eq_some hcdb)).1
  rw [← h'.sound.publishes_trace] at hpub
  have hfinish' : c'.trace.finishAt config.timing d = some (n + 1) := by
    rw [Trace.finishAt, if_pos hpub, hcdb]
  obtain ⟨f, hf', hle⟩ := h'.timed.done_le hcdb
  obtain ⟨p, m, hp, hm, rfl⟩ := Trace.doneAt_eq_some_iff.1 hf'
  have hm₀ : m ≤ n := Nat.le_of_lt_succ ((config.lt_timing p m).trans_le hle)
  have hf : c.trace.doneAt config.timing d = some (config.timing p m) := by
    refine Trace.doneAt_eq_some_iff.2 ⟨p, m, ?_, ((heffect.agrees h).cycleAt hm₀).2 hm, rfl⟩
    rw [(heffect.agrees h).poolAt, hp]
  have hrun : ∀ k, c.trace.finishAt config.timing d = some k → n < k := by
    intro k hk
    rw [Trace.finishAt, (heffect.agrees h).publishes, if_pos hpub] at hk
    have hk' := heffect.stamp_stays h hk
    have := Option.some.inj (hk'.symm.trans hcdb)
    omega
  rw [h.owed_of_running hf hrun, h'.owed_of_finished hfinish' (Nat.le_refl _)]
  split <;> omega

/-- While any record contends for the bus one of them takes it. -/
theorem Effect.exists_owed_lt_of_contending
    (hi : i ∈ c'.trace.contending config.timing (n + 1)) :
    ∃ d, program.isScheduled d = true ∧ c'.owed config (n + 1) d < c.owed config n d := by
  obtain ⟨d, hd⟩ := Option.isSome_iff_exists.1 (List.isSome_head?.2 (List.ne_nil_of_mem hi))
  refine ⟨d, ?_, heffect.owed_lt_of_taken h ((heffect.cdb d).2 hd)⟩
  have hpub := (Trace.mem_contending.1 (List.mem_of_head? hd)).1
  obtain ⟨p, hp⟩ := Trace.exists_poolAt_of_publishes hpub
  exact (heffect.valid h).sound.isScheduled_of_poolAt hp

/-- A running record that does not contend for the bus gets on: it is not done yet or, being a
store, finishes when it is. -/
theorem Effect.owed_lt_of_running {f : Nat} (hf : c.trace.doneAt config.timing i = some f)
    (hrun : ∀ m, c.trace.finishAt config.timing i = some m → n < m)
    (hnot : ¬ (f ≤ n + 1 ∧ c.trace.publishes i = true)) :
    c'.owed config (n + 1) i < c.owed config n i := by
  have h' := heffect.valid h
  have hf' := heffect.doneAt_stays h hf
  rw [h.owed_of_running hf hrun]
  by_cases hrun' : ∀ m, c'.trace.finishAt config.timing i = some m → n + 1 < m
  · have hlt : n + 1 < f := by
      by_contra hle
      have hpub : c'.trace.publishes i = false := by
        rw [← (heffect.agrees h).publishes]
        exact Bool.eq_false_iff.2 fun hpub => hnot ⟨Nat.le_of_not_lt hle, hpub⟩
      exact hle (hrun' f (by simp [Trace.finishAt, hpub, hf']))
    rw [h'.owed_of_running hf' hrun']
    omega
  · push Not at hrun'
    obtain ⟨m, hm, hle⟩ := hrun'
    rw [h'.owed_of_finished hm hle]
    split <;> omega

/-- While anything runs, either the record that runs gets on or another takes the bus. -/
theorem Effect.exists_owed_lt_of_running {f : Nat}
    (hf : c.trace.doneAt config.timing i = some f)
    (hrun : ∀ m, c.trace.finishAt config.timing i = some m → n < m) :
    ∃ d, program.isScheduled d = true ∧ c'.owed config (n + 1) d < c.owed config n d := by
  by_cases hcontends : f ≤ n + 1 ∧ c.trace.publishes i = true
  · obtain ⟨hle, hpub⟩ := hcontends
    refine heffect.exists_owed_lt_of_contending h (i := i) (Trace.mem_contending.2
      ⟨?_, ⟨f, heffect.doneAt_stays h hf, hle⟩, fun m hm => Nat.le_of_not_lt fun hlt => ?_⟩)
    · rw [← (heffect.agrees h).publishes, hpub]
    · have hm₀ := ((heffect.agrees h).cycleAt (Nat.le_of_lt_succ hlt)).2 hm
      have := hrun m (by rw [Trace.finishAt, if_pos hpub, hm₀])
      omega
  · obtain ⟨p, hp⟩ := h.sound.exists_poolAt_of_issued (h.issued_of_doneAt hf)
    exact ⟨i, h.sound.isScheduled_of_poolAt hp, heffect.owed_lt_of_running h hf hrun hcontends⟩

/-- A record that starts owes less. -/
theorem Effect.owed_lt_of_started (hlatency : ∀ p, 0 < (config.pools p).latency) {p : Pool}
    (hi : i ∈ c'.trace.started (n + 1) p) :
    c'.owed config (n + 1) i < c.owed config n i := by
  have h' := heffect.valid h
  obtain ⟨hp, hx'⟩ := Trace.mem_started.1 hi
  have hx : c.trace.cycleAt .execute i = none := by
    rw [Option.eq_none_iff_forall_ne_some]
    intro m hm
    have hm' := Option.some.inj ((heffect.stamp_stays h hm).symm.trans hx')
    have := h.timed.cycle_le hm
    omega
  have hissue : (c.trace.cycleAt .issue i).isSome = true := by
    obtain ⟨m, hm⟩ :=
      Option.isSome_iff_exists.1 (h'.sound.started (Option.isSome_of_eq_some hx'))
    have hle := Nat.le_of_lt_succ (h'.timed.issue_lt hm hx')
    exact Option.isSome_of_eq_some (((heffect.agrees h).cycleAt hle).2 hm)
  have hf' : c'.trace.doneAt config.timing i = some (config.timing p (n + 1)) :=
    Trace.doneAt_eq_some_iff.2 ⟨p, n + 1, hp, hx', rfl⟩
  have hrun : ∀ m, c'.trace.finishAt config.timing i = some m → n + 1 < m := by
    intro m hm
    obtain ⟨f, hf, hle⟩ := h'.timed.done_of_finished hm
    obtain rfl := Option.some.inj (hf.symm.trans hf')
    exact (config.lt_timing p (n + 1)).trans_le hle
  rw [h.owed_of_waiting hissue hx, h'.owed_of_running hf' hrun]
  have hpos := hlatency p
  have hle := config.latency_le p
  have htiming := config.timing_le p (n + 1)
  omega

variable (hidle : ∀ {j e}, c.trace.cycleAt .execute j = some e →
  ∃ m, c.trace.finishAt config.timing j = some m ∧ m ≤ n)

include hidle

/-- While nothing runs all units are free. -/
theorem Effect.busy_eq_nil (p : Pool) : c'.trace.busy config.timing (n + 1) p = [] := by
  rw [List.eq_nil_iff_forall_not_mem]
  intro j hj
  obtain ⟨-, ⟨e, he, hlt⟩, hall⟩ := Trace.mem_busy.1 hj
  obtain ⟨m, hm, hle⟩ := hidle (((heffect.agrees h).cycleAt (Nat.le_of_lt_succ hlt)).2 he)
  have := hall m (heffect.finished_stays h hm hle).1
  omega

/-- While nothing runs the oldest record that has not started waits for a unit only: what it reads
has been written by older records, which have finished. -/
theorem Effect.mem_waiting_of_oldest (hissue : (c.trace.cycleAt .issue i).isSome = true)
    (hx : c.trace.cycleAt .execute i = none)
    (holdest : ∀ j < i, (c.trace.cycleAt .issue j).isSome = true →
      c.trace.cycleAt .execute j ≠ none) :
    ∃ p, i ∈ c'.trace.waiting (n + 1) p := by
  have hagrees := heffect.agrees h
  obtain ⟨hlt, hpool, hq⟩ := h.sound.issued.1 hissue
  obtain ⟨p, hp⟩ := Option.isSome_iff_exists.1 hpool
  refine ⟨p, Trace.mem_waiting.2 ⟨?_, ?_, fun m hm => ?_, fun slot w hw => ?_⟩⟩
  · rw [← hagrees.poolAt, h.sound.poolAt_trace, hp]
  · obtain ⟨m, hm⟩ := Option.isSome_iff_exists.1 hissue
    exact ⟨m, heffect.stamp_stays h hm, Nat.lt_succ_of_le (h.timed.cycle_le hm)⟩
  · refine Nat.le_of_not_lt fun hlt => ?_
    rw [(hagrees.cycleAt (Nat.le_of_lt_succ hlt)).2 hm] at hx
    cases hx
  · rw [← hagrees.sourceAt] at hw
    obtain ⟨register, -, hwriter⟩ := Trace.sourceAt_eq_some_iff.1 hw
    have hwi : w < i := hwriter.mem
    have hissued : (c.trace.cycleAt .issue w).isSome = true := by
      obtain ⟨q, hwpool⟩ := Trace.exists_poolAt_of_publishes hwriter.publishes
      rw [h.sound.poolAt_trace] at hwpool
      refine h.sound.issued.2
        ⟨Nat.lt_trans hwi hlt, Option.isSome_of_eq_some hwpool, fun hmem => ?_⟩
      have hsched := Trace.isScheduled_of_poolAt hp
      exact Nat.lt_asymm hwi (h.sound.lt_of_not_mem_queued hlt hsched hq hmem)
    obtain ⟨e, he⟩ := Option.ne_none_iff_exists'.1 (holdest w hwi hissued)
    obtain ⟨m, hm, hle⟩ := hidle he
    rw [Trace.finishAt, if_pos hwriter.publishes] at hm
    exact ⟨m, heffect.stamp_stays h hm, Nat.lt_succ_of_le hle⟩

/-- **While nothing runs a waiting record starts**, be it the oldest or another. -/
theorem Effect.exists_owed_lt_of_waiting (hlatency : ∀ p, 0 < (config.pools p).latency)
    (hunits : ∀ p, 0 < (config.pools p).units)
    (hissue : (c.trace.cycleAt .issue i).isSome = true)
    (hx : c.trace.cycleAt .execute i = none) :
    ∃ d, program.isScheduled d = true ∧ c'.owed config (n + 1) d < c.owed config n d := by
  have hsome : ∃ i, (c.trace.cycleAt .issue i).isSome = true ∧ c.trace.cycleAt .execute i = none :=
    ⟨i, hissue, hx⟩
  obtain ⟨hissue₀, hx₀⟩ := Nat.find_spec hsome
  obtain ⟨p, hwaiting⟩ := heffect.mem_waiting_of_oldest h hidle hissue₀ hx₀
    fun j hj hissue hx => Nat.find_min hsome hj ⟨hissue, hx⟩
  obtain ⟨d, rest, hcons⟩ := List.exists_cons_of_ne_nil (List.ne_nil_of_mem hwaiting)
  have hstarted : d ∈ c'.trace.started (n + 1) p := by
    obtain ⟨units, hsucc⟩ := Nat.exists_eq_succ_of_ne_zero (Nat.ne_of_gt (hunits p))
    rw [heffect.execute, heffect.busy_eq_nil h hidle, hcons, List.length_nil, Nat.sub_zero, hsucc,
      List.take_succ_cons]
    exact List.mem_cons_self ..
  refine ⟨d, ?_, heffect.owed_lt_of_started h hlatency hstarted⟩
  exact (heffect.valid h).sound.isScheduled_of_poolAt (Trace.mem_started.1 hstarted).1

/-- **While everything issued has finished the head of the queue leaves it.** -/
theorem Effect.owed_lt_of_head {rest : List Nat}
    (hstations : ∀ p, 0 < (config.pools p).stations)
    (hstarted : ∀ {j}, (c.trace.cycleAt .issue j).isSome = true →
      c.trace.cycleAt .execute j ≠ none)
    (hqueue : c.queued = i :: rest) :
    c'.owed config (n + 1) i < c.owed config n i := by
  have h' := heffect.valid h
  have hmem : i ∈ c.queued := hqueue ▸ List.mem_cons_self ..
  obtain ⟨hlt, hsched⟩ := h.sound.mem_queued hmem
  have hsorted := h.sound.pairwise_queued
  rw [hqueue, List.pairwise_cons] at hsorted
  have hfree (p : Pool) : c'.trace.unfinishedBelow config.timing (n + 1) p i = [] := by
    rw [List.eq_nil_iff_forall_not_mem]
    intro j hj
    obtain ⟨hji, hp, hall⟩ := Trace.mem_unfinishedBelow.1 hj
    rw [h'.sound.poolAt_trace] at hp
    have hissued : (c.trace.cycleAt .issue j).isSome = true := by
      refine h.sound.issued.2 ⟨Nat.lt_trans hji hlt, Option.isSome_of_eq_some hp, ?_⟩
      rw [hqueue, List.mem_cons, not_or]
      exact ⟨Nat.ne_of_lt hji, fun hrest => Nat.lt_asymm hji (hsorted.1 j hrest)⟩
    obtain ⟨e, he⟩ := Option.ne_none_iff_exists'.1 (hstarted hissued)
    obtain ⟨m, hm, hle⟩ := hidle he
    have := hall m (heffect.finished_stays h hm hle).1
    omega
  have hdeparting : c.departing config (n + 1) c'.trace = some i := by
    rw [departing, hqueue, List.head?_cons, Option.filter_eq_some_iff, Option.all_eq_true]
    refine ⟨rfl, fun p _ => ?_⟩
    rw [hfree, decide_eq_true_eq, List.length_nil]
    exact hstations p
  obtain ⟨hlt', hin⟩ := heffect.fetched_stays h hlt hsched
  have hgone : i ∉ c'.queued := by
    rw [heffect.queued, List.mem_append, not_or, remaining, hdeparting, Option.isSome_some,
      if_pos rfl, hqueue, List.tail_cons, Option.mem_toList]
    exact ⟨fun hrest => Nat.lt_irrefl i (hsorted.1 i hrest), hin⟩
  rw [owed_of_ahead (.inr hmem)]
  exact Nat.lt_succ_of_le (h'.owed_le_of_behind hlt' hgone)

end Cycle

/-! ## The debt of a core -/

/-- **With nothing left on its way a core is drained.** -/
theorem Valid.isDrained_of_idle (h : c.Valid config program n) (hset : c.Settled config n)
    (hidle : ∀ {j e}, c.trace.cycleAt .execute j = some e →
      ∃ m, c.trace.finishAt config.timing j = some m ∧ m ≤ n)
    (hstarted : ∀ {j}, (c.trace.cycleAt .issue j).isSome = true →
      c.trace.cycleAt .execute j ≠ none)
    (hbus : c.machine.bus.carried = none) (hqueue : c.queued = [])
    (hcursor : c.machine.cursor = c.trace.size) : c.isDrained = true := by
  have hstation (p : Pool) (s : Nat) : c.stationAt p s = none := by
    rw [Option.eq_none_iff_forall_ne_some]
    intro e hs
    have hissue := (h.sound.station_stamps hs).1
    obtain ⟨k, hk⟩ := Option.ne_none_iff_exists'.1 (hstarted hissue)
    obtain ⟨m, hm, hle⟩ := hidle hk
    have hlt := (h.sound.isStationed_iff_unfinished h.timed hset hissue).1 ⟨p, s, e, hs, rfl⟩ m hm
    exact Nat.not_le.2 hlt hle
  refine isDrained_iff.2 ⟨List.map_eq_nil_iff.1 hqueue, hbus, hstation, fun p u => ?_,
    Nat.le_of_eq hcursor.symm⟩
  rw [Option.eq_none_iff_forall_ne_some]
  intro s hu
  obtain ⟨e, hs, -⟩ := h.sound.unit_station hu
  rw [hstation] at hs
  cases hs

/-- **In a cycle that does not find the core drained some record gets on.** -/
theorem Effect.exists_owed_lt (h : c.Valid config program n) (hset : c.Settled config n)
    (hconfig : config.check = .ok ()) (heffect : Effect config (n + 1) c c')
    (hcursor : c.queued = [] → c.machine.cursor = c.trace.size)
    (hdrained : c.isDrained = false) :
    ∃ d, program.isScheduled d = true ∧ c'.owed config (n + 1) d < c.owed config n d := by
  have hpos := Config.check_eq_ok_iff.1 hconfig
  have hlatency (p : Pool) : 0 < (config.pools p).latency := hpos (.latency p)
  cases hbus : c.machine.bus.carried with
  | some d =>
    have hpub := (h.sound.broadcast (h.sound.bus hbus)).1
    obtain ⟨p, hp⟩ := Trace.exists_poolAt_of_publishes hpub
    exact ⟨d, Trace.isScheduled_of_poolAt hp, heffect.owed_lt_of_bus h hset hbus⟩
  | none =>
    by_cases hrunning : ∃ i f, c.trace.doneAt config.timing i = some f ∧
        ∀ m, c.trace.finishAt config.timing i = some m → n < m
    · obtain ⟨i, f, hf, hrun⟩ := hrunning
      exact heffect.exists_owed_lt_of_running h hf hrun
    push Not at hrunning
    have hidle {j e : Nat} (hj : c.trace.cycleAt .execute j = some e) :
        ∃ m, c.trace.finishAt config.timing j = some m ∧ m ≤ n := by
      obtain ⟨q, hq⟩ :=
        h.sound.exists_poolAt_of_issued (h.sound.started (Option.isSome_of_eq_some hj))
      exact hrunning j _ (Trace.doneAt_eq_some_iff.2 ⟨q, e, hq, hj, rfl⟩)
    by_cases hwaiting : ∃ i, (c.trace.cycleAt .issue i).isSome = true ∧
        c.trace.cycleAt .execute i = none
    · obtain ⟨i, hissue, hx⟩ := hwaiting
      exact heffect.exists_owed_lt_of_waiting h hidle hlatency (fun p => hpos (.units p)) hissue hx
    push Not at hwaiting
    cases hqueue : c.queued with
    | cons i rest =>
      have hmem : i ∈ c.queued := hqueue ▸ List.mem_cons_self ..
      exact ⟨i, (h.sound.mem_queued hmem).2, heffect.owed_lt_of_head h hidle
        (fun p => hpos (.stations p)) (hwaiting _) hqueue⟩
    | nil =>
      have := h.isDrained_of_idle hset hidle (hwaiting _) hbus hqueue (hcursor hqueue)
      rw [hdrained] at this
      cases this

/-- The debt is never more than what all records owe in front of the stations. -/
theorem Valid.debt_le (h : c.Valid config program now) :
    c.debt config now ≤ program.order.length * (config.longestLatency + 3) := by
  have hsum := List.sum_le_card_nsmul (program.order.map (c.owed config now))
    (config.longestLatency + 3) (by simpa using fun i _ => h.owed_le i)
  rw [debt, h.sound.order_trace]
  rwa [List.length_map, nsmul_eq_mul, Nat.cast_id] at hsum

/-- **A cycle that does not find the core drained lowers its debt.** -/
theorem Effect.debt_lt (h : c.Valid config program n) (hset : c.Settled config n)
    (hconfig : config.check = .ok ()) (heffect : Effect config (n + 1) c c')
    (hcursor : c.queued = [] → c.machine.cursor = c.trace.size)
    (hdrained : c.isDrained = false) :
    c'.debt config (n + 1) < c.debt config n := by
  obtain ⟨d, hd, hlt⟩ := heffect.exists_owed_lt h hset hconfig hcursor hdrained
  rw [debt, debt, (heffect.valid h).sound.order_trace, h.sound.order_trace]
  exact List.sum_lt_sum _ _ (fun i hi => heffect.owed_le h (Trace.mem_order.1 hi))
    ⟨d, Trace.mem_order.2 hd, hlt⟩

/-- After a cycle the queue is empty only if nothing is left to fetch. -/
theorem Effect.cursor_of_queued_nil (heffect : Effect config now c c') (hroom : 0 < config.queue)
    (hqueue : c'.queued = []) : c'.machine.cursor = c'.trace.size := by
  rw [heffect.queued, List.append_eq_nil_iff, Option.toList_eq_nil_iff] at hqueue
  refine heffect.exhausted ?_ hqueue.2
  rw [hqueue.1]
  exact hroom

end Core

/-! ## The end of a run -/

/-- The cycles within which a machine is done with a trace. -/
def Trace.horizon (config : Config) (t : Trace) : Nat :=
  1 + t.order.length * (config.longestLatency + 3)

namespace Simulation

/-- Every further tick succeeds and changes nothing but the cycle count and the log. -/
def Rests (s : Simulation) : Prop :=
  ∀ k, tick.run (s.after k) = .ok () (s.after (k + 1)) ∧ (s.after k).isDone = true ∧
    (s.after k).core.machine = s.core.machine ∧ (s.after k).core.trace = s.core.trace

section Run

variable {rs : List Record} {config : Config} {s₀ : Simulation}
  (hs : ofTrace (Trace.ofList rs) config = .ok s₀)

include hs

theorem isDone_after_succ (n : Nat) :
    (s₀.after (n + 1)).isDone = (s₀.after (n + 1)).core.isDrained := by
  rw [isDone, cycle_eq hs, decide_eq_true (Nat.succ_pos n), Bool.true_and]

/-- The budget is enough for the horizon. -/
theorem horizon_le_budget : (Trace.ofList rs).horizon config ≤ s₀.budget := by
  have hsize : s₀.core.trace.size = (Trace.ofList rs).size := (valid_after hs 0).sound.size_trace
  have hlength : (Trace.ofList rs).order.length ≤ (Trace.ofList rs).size := by
    simpa [Trace.order, Trace.scheduledBelow] using List.length_filter_le
      (Trace.ofList rs).isScheduled (List.range (Trace.ofList rs).size)
  rw [Trace.horizon, budget, config_eq hs, hsize, Nat.succ_mul, Nat.add_comm 1]
  exact Nat.add_le_add (Nat.mul_le_mul hlength (Nat.le_succ _)) (Nat.le_add_left ..)

/-- **Every cycle after the first that leaves the run unfinished pays for itself.** -/
theorem debt_add_le {n : Nat}
    (hticks : ∀ m ≤ n, tick.run (s₀.after m) = .ok () (s₀.after (m + 1)))
    (hnot : ∀ m < n, (s₀.after (m + 1)).isDone = false) :
    (s₀.after (n + 1)).core.debt config (n + 1) + (n + 1) ≤ (Trace.ofList rs).horizon config := by
  induction n with
  | zero =>
    have hle := (valid_after hs (0 + 1)).debt_le
    rw [Trace.horizon]
    omega
  | succ n ih =>
    have hdrained := hnot n (Nat.lt_succ_self n)
    rw [isDone_after_succ hs] at hdrained
    have hconfig := (ofTrace_eq_ok_iff.1 hs).1
    have heffect (m : Nat) (hm : m ≤ n + 1) := effect_of_ok hs (hticks m hm)
    have hlt := (heffect (n + 1) (Nat.le_refl _)).debt_lt (valid_after hs (n + 1))
      (settled_after hs (n + 1)) hconfig
      ((heffect n (Nat.le_succ n)).cursor_of_queued_nil (Config.check_eq_ok_iff.1 hconfig .queue))
      hdrained
    have := ih (fun m hm => hticks m (Nat.le_succ_of_le hm)) fun m hm =>
      hnot m (Nat.lt_succ_of_lt hm)
    omega

variable (haccepted : (Trace.ofList rs).Accepted config.registers)

include haccepted

/-- **A run of acceptable records is done within the horizon.** -/
theorem exists_done : ∃ T, (s₀.after T).isDone = true ∧ T ≤ (Trace.ofList rs).horizon config := by
  by_contra hall
  push Not at hall
  have hnot : ∀ m < (Trace.ofList rs).horizon config, (s₀.after (m + 1)).isDone = false :=
    fun m hm => Bool.eq_false_iff.2 fun hdone => Nat.not_lt.2 hm (hall (m + 1) hdone)
  have := debt_add_le hs (fun n _ => (tick_ok hs haccepted n).1) hnot
  omega

/-- **A run of acceptable records ends** where it is done for the first time, within the horizon. -/
theorem exists_end : ∃ T, 0 < T ∧ T ≤ (Trace.ofList rs).horizon config ∧
    (∀ n < T, (s₀.after n).isDone = false) ∧ (s₀.after T).isDone = true ∧
      run.run s₀ = .ok T (s₀.after T).ended := by
  obtain ⟨k, hk, hle⟩ := exists_done hs haccepted
  have hexists : ∃ T, (s₀.after T).isDone = true := ⟨k, hk⟩
  have hdone := Nat.find_spec hexists
  have hfirst (n : Nat) (hn : n < Nat.find hexists) : (s₀.after n).isDone = false :=
    Bool.eq_false_iff.2 (Nat.find_min hexists hn)
  have hhorizon := (Nat.find_min' hexists hk).trans hle
  have hrun := run_eq_ok hs haccepted hdone hfirst (hhorizon.trans (horizon_le_budget hs))
  refine ⟨Nat.find hexists, ?_, hhorizon, hfirst, hdone, hrun⟩
  rw [isDone, Bool.and_eq_true, decide_eq_true_eq, cycle_eq hs] at hdone
  exact hdone.1

/-- What is done rests, also when the end of the run has been logged. -/
theorem rests_after {T : Nat} (hdone : (s₀.after T).isDone = true) :
    (s₀.after T).Rests ∧ (s₀.after T).ended.Rests := by
  have hvalid := valid_at hs T
  exact ⟨rests_of_done hvalid haccepted hdone,
    rests_of_done (s := (s₀.after T).ended) (hvalid.noted _) haccepted hdone⟩

end Run

end Simulation

/-- **A run of acceptable records on an accepted machine ends**, after at least one cycle and within
the horizon, when it is done for the first time.  From then on nothing changes. -/
theorem run_terminates {rs : List Record} {config : Config} (hconfig : config.check = .ok ())
    (haccepted : (Trace.ofList rs).Accepted config.registers) :
    ∃ s₀ T s, Simulation.ofTrace (Trace.ofList rs) config = .ok s₀ ∧
      Simulation.run.run s₀ = .ok T s ∧
      s.core.machine = (s₀.after T).core.machine ∧ s.core.trace = (s₀.after T).core.trace ∧
      1 ≤ T ∧ T ≤ 1 + (Trace.ofList rs).order.length * (config.longestLatency + 3) ∧
      (∀ n, Simulation.tick.run (s₀.after n) = .ok () (s₀.after (n + 1))) ∧
      (∀ n < T, (s₀.after n).isDone = false) ∧
      (s₀.after T).isDone = true ∧ (s₀.after T).Rests ∧ s.Rests := by
  obtain ⟨s₀, hs⟩ := Simulation.exists_ofTrace hconfig (Trace.ofList rs)
  obtain ⟨T, hpos, hle, hfirst, hdone, hrun⟩ := Simulation.exists_end hs haccepted
  obtain ⟨hrests, hrests'⟩ := Simulation.rests_after hs haccepted hdone
  exact ⟨s₀, T, _, hs, hrun, rfl, rfl, hpos, hle, fun n => (Simulation.tick_ok hs haccepted n).1,
    hfirst, hdone, hrests, hrests'⟩

/-- The small program has five records that take part and ends on the small machine. -/
theorem run_terminates_sample :
    smallMachine.check = .ok () ∧ (Trace.ofList sampleProgram).Accepted smallMachine.registers ∧
      ∃ s₀ T s, Simulation.ofTrace (Trace.ofList sampleProgram) smallMachine = .ok s₀ ∧
        Simulation.run.run s₀ = .ok T s ∧ 1 ≤ T ∧ T ≤ 31 ∧ s.Rests := by
  have hconfig : smallMachine.check = .ok () := by decide
  have haccepted : (Trace.ofList sampleProgram).Accepted smallMachine.registers := by decide +kernel
  obtain ⟨s₀, T, s, hs, hrun, -, -, hpos, hle, -, -, -, -, hrests⟩ :=
    run_terminates hconfig haccepted
  exact ⟨hconfig, haccepted, s₀, T, s, hs, hrun, hpos, hle, hrests⟩

end Tomasulo
