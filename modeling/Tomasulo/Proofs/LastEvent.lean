import Mathlib.Order.Lattice.Nat
import Tomasulo.Proofs.Lawful

/-!
# Proofs/LastEvent — how long a run takes, read off its schedule

A run is over when the last thing it does is over.  A result is on the bus in the cycle of its stamp
and gone in the next one, a store is gone when it is done, and the fetch queue is empty
when the last record of the program order has left it.  That record may be a jump or branch, which
has no stamp for it, but leaves one cycle after the record before it (`Trace.leaveAt`).
-/

namespace Tomasulo

namespace Trace

variable {config : Config} {t : Trace} {entered left : Nat → Nat} {i k n T : Nat}

/-! ## Leaving the queue -/

/-- When the record at a place of the program order leaves the fetch queue: in the cycle of its
issue, or, if it has no pool, one cycle after what was in front of it. -/
def leaveAfter (t : Trace) (before k : Nat) : Nat :=
  match t.order[k]? with
  | none => before
  | some i => if (t.poolAt i).isSome then (t.cycleAt .issue i).getD before else before + 1

/-- **When the record at a place of the program order leaves the fetch queue.** -/
def leaveAt (t : Trace) : Nat → Nat
  | 0 => t.leaveAfter 1 0
  | k + 1 => t.leaveAfter (t.leaveAt k) (k + 1)

theorem leaveAt_eq (t : Trace) (k : Nat) : t.leaveAt k = t.leaveAfter (headFrom t.leaveAt k) k := by
  cases k <;> rfl

/-- A record with a pool leaves with its issue. -/
theorem leaveAt_of_issue {p : Pool} (hi : t.order[k]? = some i) (hp : t.poolAt i = some p)
    (hn : t.cycleAt .issue i = some n) : t.leaveAt k = n := by
  simp [leaveAt_eq, leaveAfter, hi, hp, hn]

/-- A jump or branch leaves one cycle after the record before it. -/
theorem leaveAt_of_control (hi : t.order[k]? = some i) (hp : t.poolAt i = none) :
    t.leaveAt k = headFrom t.leaveAt k + 1 := by
  simp [leaveAt_eq t k, leaveAfter, hi, hp]

/-- When a schedule is over every record of a pool has been through issue and start. -/
theorem Lawful.stamps_of_isOver (h : t.Lawful config left) (hover : t.IsOver config left T)
    {p : Pool} (hp : t.poolAt i = some p) :
    ∃ a b, t.cycleAt .issue i = some a ∧ t.cycleAt .execute i = some b := by
  obtain ⟨f, hf, -⟩ := hover.finished hp
  obtain ⟨d, hd, -⟩ := h.done_of_finished hf
  obtain ⟨-, b, -, hb, -⟩ := doneAt_eq_some_iff.1 hd
  obtain ⟨a, ha, -⟩ := h.issue_lt hb
  exact ⟨a, b, ha, hb⟩

/-- A record whose turn has come leaves when the stamps say. -/
theorem Lawful.passes_of_turn (h : t.Lawful config left) (hover : t.IsOver config left T)
    (hk : k < t.order.length) (hpos : 0 < headFrom t.leaveAt k)
    (hturn : left (headFrom t.leaveAt k) = k) : Passes left k (t.leaveAt k) := by
  obtain ⟨i, hi⟩ : ∃ i, t.order[k]? = some i := ⟨_, List.getElem?_eq_getElem hk⟩
  cases hp : t.poolAt i with
  | none =>
    rw [leaveAt_of_control hi hp]
    exact h.leaves.passes_of_ready hpos hturn hk (mayLeave_of_control hi hp _)
  | some p =>
    obtain ⟨a, -, ha, -⟩ := h.stamps_of_isOver hover hp
    obtain ⟨-, l, hl, hpass⟩ := h.issue.1 ha
    obtain rfl := (List.getElem?_inj hk t.pairwise_order.nodup).1 (hi.trans hl.symm)
    rwa [leaveAt_of_issue hi hp ha]

/-- **Every record leaves the queue when the stamps say.** -/
theorem Lawful.passes_leaveAt (h : t.Lawful config left) (hover : t.IsOver config left T)
    (hk : k < t.order.length) : Passes left k (t.leaveAt k) := by
  induction k with
  | zero => exact h.passes_of_turn hover hk Nat.zero_lt_one h.leaves.one
  | succ k ih =>
    obtain ⟨n, hn, -, hleft⟩ := ih (Nat.lt_of_succ_lt hk)
    have hhead : headFrom t.leaveAt (k + 1) = n + 1 := hn
    exact h.passes_of_turn hover hk (hhead ▸ Nat.succ_pos n) (hhead ▸ hleft)

/-! ## The last event -/

/-- **What a run lasts for**: one cycle at least, until the bus is idle after a result, until the
a store is done, and until the last record in program order has left the queue. -/
inductive LastsUntil (d : Timing) (t : Trace) : Nat → Prop where
  | start : LastsUntil d t 1
  | bus {i c : Nat} (hi : t.publishes i = true) (hc : t.cycleAt .cdb i = some c) :
      LastsUntil d t (c + 1)
  | store {i b : Nat} (hi : t.classAt i = some .store) (hb : t.cycleAt .execute i = some b) :
      LastsUntil d t (d .int b)
  | queue {k : Nat} (hk : t.order.length = k + 1) : LastsUntil d t (t.leaveAt k)

/-- Only what the timing says of stores matters. -/
theorem LastsUntil.congr {d e : Timing} (hde : ∀ {i b}, t.classAt i = some .store →
    t.cycleAt .execute i = some b → d .int b = e .int b) (h : t.LastsUntil d n) :
    t.LastsUntil e n := by
  cases h with
  | start => exact .start
  | bus hi hc => exact .bus hi hc
  | store hi hb =>
    rw [hde hi hb]
    exact .store hi hb
  | queue hk => exact .queue hk

/-- If the sums fit a word a store lasts until its latency has passed. -/
theorem FitsWord.lastsUntil_iff (h : t.FitsWord config)
    (hlatency : ∀ p, 0 < (config.pools p).latency) :
    t.LastsUntil config.nominal n ↔ t.LastsUntil config.timing n :=
  ⟨.congr fun hi hb => (h.timing_eq hlatency (poolAt_of_store hi) hb).symm,
    .congr fun hi hb => h.timing_eq hlatency (poolAt_of_store hi) hb⟩

section Over

variable (h : t.Lawful config left) (hover : t.IsOver config left T)

include h hover

/-- **A schedule is over when nothing lasts longer.** -/
theorem Lawful.isOver_iff_mem_upperBounds : (0 < n ∧ t.IsOver config left n) ↔
    n ∈ upperBounds {m | t.LastsUntil config.timing m} := by
  constructor
  · rintro ⟨hpos, hn⟩ m (_ | ⟨hi, hc⟩ | ⟨hi, hb⟩ | hk)
    · exact hpos
    · obtain ⟨p, hp⟩ := exists_poolAt_of_publishes hi
      obtain ⟨f, hf, hle⟩ := hn.finished hp
      rw [finishAt_of_publishes hi, hc] at hf
      obtain rfl := Option.some.inj hf
      exact Nat.succ_le_of_lt (Nat.lt_of_le_of_ne hle fun heq => hn.bus _ (heq ▸ hc))
    · obtain ⟨f, hf, hle⟩ := hn.finished (poolAt_of_store hi)
      rw [finishAt_of_store hi, hb] at hf
      exact (Option.some.inj hf).trans_le hle
    · have hlt := Nat.lt_of_lt_of_eq (Nat.lt_succ_self _) hk.symm
      rw [← h.leaves.counts.lt_iff (h.passes_leaveAt hover hlt), hn.left]
      exact hlt
  · intro hn
    refine ⟨hn .start, ?_, fun {i p} hp => ?_, fun i hi => ?_⟩
    · refine Nat.le_antisymm (h.leaves.le_total n) ?_
      cases hlength : t.order.length with
      | zero => exact Nat.zero_le _
      | succ k =>
        have hlt := Nat.lt_of_lt_of_eq (Nat.lt_succ_self k) hlength.symm
        exact (h.leaves.counts.lt_iff (h.passes_leaveAt hover hlt)).2 (hn (.queue hlength))
    · obtain ⟨f, hf, -⟩ := hover.finished hp
      refine ⟨f, hf, ?_⟩
      by_cases hpub : t.publishes i = true
      · rw [finishAt_of_publishes hpub] at hf
        exact Nat.le_of_succ_le (hn (.bus hpub hf))
      · obtain ⟨hstore, -⟩ := store_of_not_publishes hp hpub
        rw [finishAt_of_store hstore] at hf
        obtain ⟨b, hb, rfl⟩ := Option.map_eq_some_iff.1 hf
        exact hn (.store hstore hb)
    · have hpub := (mem_contending.1 (h.cdb.1 hi).1).1
      exact absurd (hn (.bus hpub hi)) (Nat.not_succ_le_self n)

end Over

/-- **The first cycle in which a schedule is over is the last one in which something ends.** -/
theorem Lawful.isGreatest_of_isLeast (h : t.Lawful config left)
    (hleast : IsLeast {n | 0 < n ∧ t.IsOver config left n} T) :
    IsGreatest {n | t.LastsUntil config.timing n} T := by
  have hbounds : {n | 0 < n ∧ t.IsOver config left n} =
      upperBounds {m | t.LastsUntil config.timing m} :=
    Set.ext fun n => h.isOver_iff_mem_upperBounds hleast.1.2
  have hlub : IsLUB {n | t.LastsUntil config.timing n} T := by
    rwa [hbounds] at hleast
  refine ⟨?_, hlub.1⟩
  rw [← hlub.csSup_eq ⟨1, .start⟩]
  exact Nat.sSup_mem ⟨1, .start⟩ ⟨T, hlub.1⟩

end Trace

end Tomasulo
