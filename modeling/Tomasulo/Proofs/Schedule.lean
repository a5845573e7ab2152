import Mathlib.Data.List.Perm.Subperm
import Mathlib.Data.List.Sort
import Tomasulo.Config
import Tomasulo.Proofs.Columns
import Tomasulo.Word

/-!
# Proofs/Schedule — reading a schedule

What a schedule says beyond its columns, in terms of the program, the stamps and the configuration:
who writes a register last before a record reads it, when a record is done and when it gives up its
station, and which records want a unit, the bus or a station in a cycle.  The laws of a run are
stated in these words.

When a record is done is a `Timing`.  `Config.nominal` adds the latency to the start; a machine goes
by `Config.timing`, which is the same unless the sum is beyond a word.
-/

namespace Tomasulo

/-! ## When a record is done -/

/-- The cycle in which a record is done, by the pool of its unit and the cycle of its start. -/
abbrev Timing := Pool → Nat → Nat

namespace Config

variable {config : Config} {p : Pool} {start now : Nat}

/-- As the latencies say: a latency after the start. -/
def nominal (config : Config) : Timing := fun p start =>
  start + (config.pools p).latency

/-- As a unit computes it: the sum is one of words. -/
def wordSum (config : Config) : Timing := fun p start =>
  wordAdd start (config.pools p).latency

/-- As a machine has it: no unit is asked in the cycle in which its record starts, nor before. -/
def timing (config : Config) : Timing := fun p start =>
  max (start + 1) (config.wordSum p start)

/-- Nothing is done in the cycle of its start. -/
theorem lt_timing (config : Config) (p : Pool) (start : Nat) : start < config.timing p start :=
  Nat.lt_of_succ_le (Nat.le_max_left ..)

/-- A sum of words is never late. -/
theorem wordSum_le_timing (config : Config) (p : Pool) (start : Nat) :
    config.wordSum p start ≤ config.timing p start :=
  Nat.le_max_right ..

/-- **A record is done when its unit says so**, from the cycle after the start on. -/
theorem timing_le_iff (h : start < now) :
    config.timing p start ≤ now ↔ config.wordSum p start ≤ now := by
  rw [timing, Nat.max_le]
  exact and_iff_right (Nat.succ_le_of_lt h)

/-- No record takes longer than its latency, or a cycle. -/
theorem timing_le (config : Config) (p : Pool) (start : Nat) :
    config.timing p start ≤ start + max 1 (config.pools p).latency :=
  Nat.max_le.2 ⟨Nat.add_le_add_left (Nat.le_max_left ..) start,
    (wordAdd_le ..).trans (Nat.add_le_add_left (Nat.le_max_right ..) start)⟩

/-- **A record takes its latency**, if the sum fits a word. -/
theorem timing_eq_nominal (hlatency : 0 < (config.pools p).latency)
    (hfits : config.nominal p start < UInt64.size) :
    config.timing p start = config.nominal p start := by
  rw [timing, wordSum, wordAdd_of_lt hfits]
  exact Nat.max_eq_right (Nat.add_le_add_left hlatency start)

end Config

namespace Trace

/-! ## Latest writers -/

/-- `w` is the youngest publishing record of a set that writes a register. -/
structure IsLatestWriter (t : Trace) (among : Nat → Prop) (register w : Nat) : Prop where
  mem : among w
  publishes : t.publishes w = true
  writes : register ∈ t.writesAt w
  latest : ∀ {j}, among j → t.publishes j = true → register ∈ t.writesAt j → j ≤ w

namespace IsLatestWriter

variable {t : Trace} {among among' : Nat → Prop} {register w : Nat}

/-- Only which publishing records are in the set matters. -/
theorem congr (h : ∀ j, t.publishes j = true → (among j ↔ among' j)) :
    t.IsLatestWriter among register w ↔ t.IsLatestWriter among' register w :=
  ⟨fun ⟨hm, hp, hw, hl⟩ => ⟨(h w hp).1 hm, hp, hw, fun hj hpj => hl ((h _ hpj).2 hj) hpj⟩,
    fun ⟨hm, hp, hw, hl⟩ => ⟨(h w hp).2 hm, hp, hw, fun hj hpj => hl ((h _ hpj).1 hj) hpj⟩⟩

/-- A register has one latest writer at most. -/
theorem unique {v : Nat} (hw : t.IsLatestWriter among register w)
    (hv : t.IsLatestWriter among register v) : w = v :=
  Nat.le_antisymm (hv.latest hw.mem hw.publishes hw.writes)
    (hw.latest hv.mem hv.publishes hv.writes)

/-- A youngest record added to the set is the latest writer of what it writes. -/
theorem iff_of_youngest {i : Nat} (hadd : ∀ j, among' j ↔ j = i ∨ among j)
    (hold : ∀ {j}, among j → j < i) :
    t.IsLatestWriter among' register w ↔
      if t.publishes i = true ∧ register ∈ t.writesAt i then w = i
      else t.IsLatestWriter among register w := by
  split
  · next hi =>
    constructor
    · intro h
      have hle := h.latest ((hadd i).2 (.inl rfl)) hi.1 hi.2
      rcases (hadd w).1 h.mem with rfl | hw
      · rfl
      · exact absurd (hold hw) (Nat.not_lt.2 hle)
    · rintro rfl
      refine ⟨(hadd w).2 (.inl rfl), hi.1, hi.2, fun hj _ _ => ?_⟩
      rcases (hadd _).1 hj with rfl | hj
      · exact Nat.le_refl _
      · exact Nat.le_of_lt (hold hj)
  · next hi =>
    constructor
    · rintro ⟨hm, hp, hw, hl⟩
      refine ⟨((hadd w).1 hm).resolve_left ?_, hp, hw, fun hj => hl ((hadd _).2 (.inr hj))⟩
      rintro rfl
      exact hi ⟨hp, hw⟩
    · rintro ⟨hm, hp, hw, hl⟩
      refine ⟨(hadd w).2 (.inr hm), hp, hw, fun hj hpj hwj => ?_⟩
      rcases (hadd _).1 hj with rfl | hj
      · exact absurd ⟨hpj, hwj⟩ hi
      · exact hl hj hpj hwj

end IsLatestWriter

/-- The last of a sorted list is the greatest. -/
theorem getLast?_eq_some_iff_of_pairwise {is : List Nat} (hsorted : is.Pairwise (· < ·))
    {w : Nat} : is.getLast? = some w ↔ w ∈ is ∧ ∀ j ∈ is, j ≤ w := by
  constructor
  · intro hlast
    obtain ⟨init, rfl⟩ := List.getLast?_eq_some_iff.1 hlast
    refine ⟨by simp, fun j hj => ?_⟩
    rcases List.mem_append.1 hj with hj | hj
    · exact Nat.le_of_lt ((List.pairwise_append.1 hsorted).2.2 j hj w (List.mem_singleton_self w))
    · exact Nat.le_of_eq (List.mem_singleton.1 hj)
  · rintro ⟨hw, hle⟩
    obtain ⟨v, hv⟩ : ∃ v, is.getLast? = some v :=
      Option.isSome_iff_exists.1 (List.getLast?_isSome.2 (List.ne_nil_of_mem hw))
    obtain ⟨init, rfl⟩ := List.getLast?_eq_some_iff.1 hv
    rcases List.mem_append.1 hw with hmem | hmem
    · have hlt := (List.pairwise_append.1 hsorted).2.2 w hmem v (List.mem_singleton_self v)
      exact absurd (hle v (by simp)) (Nat.not_le.2 hlt)
    · rw [hv, List.mem_singleton.1 hmem]

/-- The youngest publishing record before a position that writes a register. -/
def latestWriter (t : Trace) (i register : Nat) : Option Nat :=
  ((List.range i).filter fun w => t.publishes w && decide (register ∈ t.writesAt w)).getLast?

/-- The latest writer is what it is said to be. -/
theorem latestWriter_eq_some_iff {t : Trace} {i register w : Nat} :
    t.latestWriter i register = some w ↔ t.IsLatestWriter (· < i) register w := by
  rw [latestWriter, getLast?_eq_some_iff_of_pairwise (List.pairwise_lt_range.filter _)]
  simp only [List.mem_filter, List.mem_range, Bool.and_eq_true, decide_eq_true_eq]
  exact ⟨fun ⟨⟨hlt, hp, hw⟩, hle⟩ => ⟨hlt, hp, hw, fun hj hpj hwj => hle _ ⟨hj, hpj, hwj⟩⟩,
    fun ⟨hlt, hp, hw, hle⟩ => ⟨⟨hlt, hp, hw⟩, fun j ⟨hj, hpj, hwj⟩ => hle hj hpj hwj⟩⟩

/-- The record that a source slot of the record at a position depends on. -/
def sourceAt (t : Trace) (i slot : Nat) : Option Nat :=
  (t.inputAt i slot).bind (t.latestWriter i)

/-- The source of a slot is the latest earlier writer of its register. -/
theorem sourceAt_eq_some_iff {t : Trace} {i slot w : Nat} :
    t.sourceAt i slot = some w ↔
      ∃ register, t.inputAt i slot = some register ∧ t.IsLatestWriter (· < i) register w := by
  simp [sourceAt, Option.bind_eq_some_iff, latestWriter_eq_some_iff]

theorem sourceAt_eq_none_of_le {t : Trace} {i slot : Nat} (h : maxInputs ≤ slot) :
    t.sourceAt i slot = none := by
  rw [sourceAt, inputAt]
  rcases t[i]? with _ | r
  · rfl
  · simp [Nat.not_lt.2 h]

/-- Latest writers belong to the program. -/
theorem latestWriter_unscheduled (t : Trace) : t.unscheduled.latestWriter = t.latestWriter := by
  funext i register
  rw [latestWriter, publishes_unscheduled, writesAt_unscheduled, latestWriter]

/-- Sources belong to the program. -/
theorem sourceAt_unscheduled (t : Trace) : t.unscheduled.sourceAt = t.sourceAt := by
  funext i slot
  rw [sourceAt, inputAt_unscheduled, latestWriter_unscheduled, sourceAt]

/-- Everything the record at a position depends on has been on the bus before a cycle. -/
def sourcesBefore (t : Trace) (cycle i : Nat) : Bool :=
  (List.range maxInputs).all fun slot =>
    (t.sourceAt i slot).all fun w => (t.cycleAt .cdb w).any (· < cycle)

/-- The sources of a record have all published before a cycle. -/
theorem sourcesBefore_iff {t : Trace} {cycle i : Nat} :
    t.sourcesBefore cycle i = true ↔
      ∀ slot w, t.sourceAt i slot = some w → ∃ n, t.cycleAt .cdb w = some n ∧ n < cycle := by
  simp only [sourcesBefore, List.all_eq_true, List.mem_range, Option.all_eq_true,
    Option.any_eq_true, decide_eq_true_eq]
  refine ⟨fun h slot w hw => h slot (Nat.lt_of_not_le fun hle => ?_) w hw,
    fun h slot _ w hw => h slot w hw⟩
  rw [sourceAt_eq_none_of_le hle] at hw
  cases hw

/-! ## Records of a pool -/

/-- The records of a pool, in program order. -/
def inPool (t : Trace) (p : Pool) : List Nat :=
  (List.range t.size).filter fun i => t.poolAt i = some p

/-- A pool lists its records. -/
theorem mem_inPool {t : Trace} {p : Pool} {i : Nat} : i ∈ t.inPool p ↔ t.poolAt i = some p := by
  simp only [inPool, List.mem_filter, List.mem_range, decide_eq_true_eq]
  exact and_iff_right_of_imp lt_size_of_poolAt

/-- A pool lists no record twice. -/
theorem nodup_inPool (t : Trace) (p : Pool) : (t.inPool p).Nodup :=
  List.nodup_range.filter _

theorem inPool_unscheduled (t : Trace) : t.unscheduled.inPool = t.inPool := by
  funext p
  rw [inPool, size_unscheduled, poolAt_unscheduled, inPool]

/-- Records of a pool, listed once each, are no more than the pool has. -/
theorem length_le_inPool {t : Trace} {p : Pool} {is : List Nat} (hnodup : is.Nodup)
    (his : ∀ i ∈ is, t.poolAt i = some p) : is.length ≤ (t.inPool p).length :=
  (hnodup.subperm fun i hi => mem_inPool.2 (his i hi)).length_le

/-! ## Being done -/

/-- The cycle in which a record is done: with `d p n`, if it starts in cycle `n` on a unit of pool
`p`. -/
def doneAt (d : Timing) (t : Trace) (i : Nat) : Option Nat :=
  (t.poolAt i).bind fun p => (t.cycleAt .execute i).map (d p)

/-- The cycle in which a record gives up its station and its unit: with the bus if it publishes, and
as soon as it is done if it is a store. -/
def finishAt (d : Timing) (t : Trace) (i : Nat) : Option Nat :=
  if t.publishes i then t.cycleAt .cdb i else t.doneAt d i

/-- A record is done when its start and its pool say so. -/
theorem doneAt_eq_some_iff {d : Timing} {t : Trace} {i f : Nat} :
    t.doneAt d i = some f ↔
      ∃ p n, t.poolAt i = some p ∧ t.cycleAt .execute i = some n ∧ d p n = f := by
  simp only [doneAt, Option.bind_eq_some_iff, Option.map_eq_some_iff]
  constructor
  · rintro ⟨p, hp, n, hn, hf⟩
    exact ⟨p, n, hp, hn, hf⟩
  · rintro ⟨p, n, hp, hn, hf⟩
    exact ⟨p, hp, n, hn, hf⟩

/-- A record that publishes finishes with the bus. -/
theorem finishAt_of_publishes {t : Trace} {i : Nat} (h : t.publishes i = true) (d : Timing) :
    t.finishAt d i = t.cycleAt .cdb i :=
  if_pos h

/-- A store finishes when it is done. -/
theorem finishAt_of_store {t : Trace} {i : Nat} (h : t.classAt i = some .store) (d : Timing) :
    t.finishAt d i = (t.cycleAt .execute i).map (d .int) := by
  rw [finishAt, if_neg (not_publishes_of_store h), doneAt, poolAt_of_store h, Option.bind_some]

theorem lt_size_of_finishAt {d : Timing} {t : Trace} {i f : Nat}
    (h : t.finishAt d i = some f) : i < t.size := by
  rw [finishAt] at h
  split at h
  · exact lt_size_of_cycleAt h
  · obtain ⟨p, n, hp, -⟩ := doneAt_eq_some_iff.1 h
    exact lt_size_of_poolAt hp

/-- When a record finishes is a matter of two of its stamps. -/
theorem finishAt_congr {d : Timing} {t u : Trace} {i : Nat}
    (hprogram : t.unscheduled = u.unscheduled)
    (hexecute : t.cycleAt .execute i = u.cycleAt .execute i)
    (hcdb : t.cycleAt .cdb i = u.cycleAt .cdb i) : t.finishAt d i = u.finishAt d i := by
  have hpool : t.poolAt = u.poolAt := by
    rw [← poolAt_unscheduled, hprogram, poolAt_unscheduled]
  have hpublishes : t.publishes = u.publishes := by
    rw [← publishes_unscheduled, hprogram, publishes_unscheduled]
  rw [finishAt, finishAt, doneAt, doneAt, hpool, hpublishes, hexecute, hcdb]

/-- The publishing records that want the bus in a cycle, the oldest first: they are done by then and
have not had the bus before. -/
def contending (d : Timing) (t : Trace) (cycle : Nat) : List Nat :=
  (List.range t.size).filter fun i =>
    t.publishes i && (t.doneAt d i).any (· ≤ cycle) && (t.cycleAt .cdb i).all (cycle ≤ ·)

/-- Who contends for the bus is done and has not had it before. -/
theorem mem_contending {d : Timing} {t : Trace} {cycle i : Nat} :
    i ∈ t.contending d cycle ↔
      t.publishes i = true ∧ (∃ f, t.doneAt d i = some f ∧ f ≤ cycle) ∧
        ∀ n, t.cycleAt .cdb i = some n → cycle ≤ n := by
  simp only [contending, List.mem_filter, List.mem_range, Bool.and_eq_true, Option.any_eq_true,
    decide_eq_true_eq, Option.all_eq_true, and_assoc]
  refine and_iff_right_of_imp fun h => ?_
  obtain ⟨p, hp⟩ := exists_poolAt_of_publishes h.1
  exact lt_size_of_poolAt hp

/-- Some cycle by which a record is done, by one timing and by another. -/
theorem exists_doneAt_iff {d e : Timing} {t : Trace} {cycle i : Nat}
    (h : ∀ p n, t.cycleAt .execute i = some n → (d p n ≤ cycle ↔ e p n ≤ cycle)) :
    (∃ f, t.doneAt d i = some f ∧ f ≤ cycle) ↔ ∃ f, t.doneAt e i = some f ∧ f ≤ cycle := by
  have key (d e : Timing)
      (h : ∀ p n, t.cycleAt .execute i = some n → d p n ≤ cycle → e p n ≤ cycle) :
      (∃ f, t.doneAt d i = some f ∧ f ≤ cycle) → ∃ f, t.doneAt e i = some f ∧ f ≤ cycle := by
    rintro ⟨f, hf, hle⟩
    obtain ⟨p, n, hp, hn, rfl⟩ := doneAt_eq_some_iff.1 hf
    exact ⟨_, doneAt_eq_some_iff.2 ⟨p, n, hp, hn, rfl⟩, h p n hn hle⟩
  exact ⟨key d e fun p n hn => (h p n hn).1, key e d fun p n hn => (h p n hn).2⟩

/-- Units are right about who is done, except in the cycle of the start. -/
theorem doneAt_wordSum_iff {config : Config} {t : Trace} {cycle i : Nat}
    (hpast : ∀ n, t.cycleAt .execute i = some n → n < cycle) :
    (∃ f, t.doneAt config.wordSum i = some f ∧ f ≤ cycle) ↔
      ∃ f, t.doneAt config.timing i = some f ∧ f ≤ cycle :=
  exists_doneAt_iff fun _ n hn => (Config.timing_le_iff (hpast n hn)).symm

/-- By sums of words the same records contend, if the latest cycle comes after every start. -/
theorem contending_wordSum {config : Config} {t : Trace} {cycle : Nat}
    (hpast : ∀ {i n}, t.cycleAt .execute i = some n → n < cycle) :
    t.contending config.wordSum cycle = t.contending config.timing cycle := by
  refine (List.pairwise_lt_range.filter _).eq_of_mem_iff (List.pairwise_lt_range.filter _)
    fun i => ?_
  exact mem_contending.trans ((and_congr_right' (and_congr_left'
    (doneAt_wordSum_iff fun _ hn => hpast hn))).trans mem_contending.symm)

/-- Contenders are listed by index. -/
theorem pairwise_contending (d : Timing) (t : Trace) (cycle : Nat) :
    (t.contending d cycle).Pairwise (· < ·) :=
  List.pairwise_lt_range.filter _

/-- The records of a pool that wait for nothing but a unit, the oldest first. -/
def ready (t : Trace) (now : Nat) (p : Pool) : List Nat :=
  (List.range t.size).filter fun i =>
    t.poolAt i = some p && (List.range maxInputs).all (fun slot => (t.producerAt i slot).isNone) &&
      (t.cycleAt .issue i).any (· < now) && (t.cycleAt .execute i).isNone

theorem producerAt_eq_none_of_le {t : Trace} {i slot : Nat} (h : maxInputs ≤ slot) :
    t.producerAt i slot = none := by
  simp only [producerAt]
  rcases t[i]? with _ | r
  · rfl
  · simp [Nat.not_lt.2 h]

/-- Ready to start is who is issued, waits for nothing and has not started. -/
theorem mem_ready {t : Trace} {now : Nat} {p : Pool} {i : Nat} :
    i ∈ t.ready now p ↔ t.poolAt i = some p ∧ (∀ slot, t.producerAt i slot = none) ∧
      (∃ n, t.cycleAt .issue i = some n ∧ n < now) ∧ t.cycleAt .execute i = none := by
  have hslots : (∀ slot < maxInputs, t.producerAt i slot = none) ↔
      ∀ slot, t.producerAt i slot = none := by
    refine ⟨fun h slot => ?_, fun h slot _ => h slot⟩
    by_cases hslot : slot < maxInputs
    · exact h slot hslot
    · exact producerAt_eq_none_of_le (Nat.le_of_not_lt hslot)
  simp only [ready, List.mem_filter, List.mem_range, Bool.and_eq_true, decide_eq_true_eq,
    List.all_eq_true, Option.isNone_iff_eq_none, Option.any_eq_true, and_assoc, hslots]
  exact and_iff_right_of_imp fun h => lt_size_of_poolAt h.1

/-- Who is ready is listed by index. -/
theorem pairwise_ready (t : Trace) (now : Nat) (p : Pool) : (t.ready now p).Pairwise (· < ·) :=
  List.pairwise_lt_range.filter _

/-- What is ready is a matter of four columns. -/
theorem ready_congr {t u : Trace} {now : Nat} {p : Pool} (hpool : t.poolAt = u.poolAt)
    (hproducer : ∀ i slot, t.producerAt i slot = u.producerAt i slot)
    (hissue : ∀ i, t.cycleAt .issue i = u.cycleAt .issue i)
    (hexecute : ∀ i, u.poolAt i = some p → t.cycleAt .execute i = u.cycleAt .execute i) :
    t.ready now p = u.ready now p := by
  refine List.Pairwise.eq_of_mem_iff (t.pairwise_ready now p) (u.pairwise_ready now p) fun i => ?_
  rw [mem_ready, mem_ready, hpool]
  refine and_congr_right fun hp => ?_
  simp only [hproducer, hissue, hexecute i hp]

/-- When the oldest ready record starts, the others are ready still. -/
theorem ready_stamped {t : Trace} {now : Nat} {p : Pool} {i : Nat} {rest : List Nat}
    (h : t.ready now p = i :: rest) : (t.stamped .execute now i).ready now p = rest := by
  have hsorted := t.pairwise_ready now p
  rw [h, List.pairwise_cons] at hsorted
  refine List.Pairwise.eq_of_mem_iff (pairwise_ready _ now p) hsorted.2 fun j => ?_
  have hi : i ∈ t.ready now p := h ▸ List.mem_cons_self ..
  have hj : j ∈ t.ready now p ↔ j = i ∨ j ∈ rest := by rw [h, List.mem_cons]
  have hpool : (t.stamped .execute now i).poolAt = t.poolAt := by
    rw [← poolAt_unscheduled, unscheduled_stamped, poolAt_unscheduled]
  have hcycle := cycleAt_stamped (lt_size_of_poolAt (mem_ready.1 hi).1) .execute now
  rw [mem_ready, hpool, hcycle, hcycle]
  simp only [producerAt_stamped, reduceCtorEq, and_false, if_false, and_true]
  by_cases hji : j = i
  · subst hji
    have hnot : j ∉ rest := fun hmem => Nat.lt_irrefl _ (hsorted.1 j hmem)
    simp [hnot]
  · rw [if_neg hji, ← mem_ready, hj]
    simp [hji]

/-! ## Units and stations of a cycle -/

/-- The records of a pool that start in a cycle. -/
def started (t : Trace) (cycle : Nat) (p : Pool) : List Nat :=
  (List.range t.size).filter fun i => t.poolAt i = some p && t.cycleAt .execute i == some cycle

/-- The records of a pool that want a unit in a cycle: they have been in a station since an earlier
cycle, have not started before, and their sources have been on the bus before. -/
def waiting (t : Trace) (cycle : Nat) (p : Pool) : List Nat :=
  (List.range t.size).filter fun i =>
    t.poolAt i = some p && (t.cycleAt .issue i).any (· < cycle) &&
      (t.cycleAt .execute i).all (cycle ≤ ·) && t.sourcesBefore cycle i

/-- The records of a pool that hold a unit when those of a cycle start. -/
def busy (d : Timing) (t : Trace) (cycle : Nat) (p : Pool) : List Nat :=
  (List.range t.size).filter fun i =>
    t.poolAt i = some p && (t.cycleAt .execute i).any (· < cycle) &&
      (t.finishAt d i).all (cycle < ·)

/-- The records of a pool before a position that are not finished in a cycle. -/
def unfinishedBelow (d : Timing) (t : Trace) (cycle : Nat) (p : Pool) (bound : Nat) :
    List Nat :=
  (List.range bound).filter fun i =>
    t.poolAt i = some p && (t.finishAt d i).all (cycle < ·)

/-- Who starts in a cycle is stamped with it. -/
theorem mem_started {t : Trace} {cycle : Nat} {p : Pool} {i : Nat} :
    i ∈ t.started cycle p ↔ t.poolAt i = some p ∧ t.cycleAt .execute i = some cycle := by
  simp only [started, List.mem_filter, List.mem_range, Bool.and_eq_true, decide_eq_true_eq,
    beq_iff_eq]
  exact and_iff_right_of_imp fun h => lt_size_of_poolAt h.1

/-- Waiting is who is issued, has not started before, and whose sources are all there. -/
theorem mem_waiting {t : Trace} {cycle : Nat} {p : Pool} {i : Nat} :
    i ∈ t.waiting cycle p ↔ t.poolAt i = some p ∧ (∃ n, t.cycleAt .issue i = some n ∧ n < cycle) ∧
      (∀ n, t.cycleAt .execute i = some n → cycle ≤ n) ∧
      ∀ slot w, t.sourceAt i slot = some w → ∃ n, t.cycleAt .cdb w = some n ∧ n < cycle := by
  simp only [waiting, List.mem_filter, List.mem_range, Bool.and_eq_true, decide_eq_true_eq,
    Option.any_eq_true, Option.all_eq_true, sourcesBefore_iff, and_assoc]
  exact and_iff_right_of_imp fun h => lt_size_of_poolAt h.1

/-- Busy is who has started before and is not finished. -/
theorem mem_busy {d : Timing} {t : Trace} {cycle : Nat} {p : Pool} {i : Nat} :
    i ∈ t.busy d cycle p ↔ t.poolAt i = some p ∧
      (∃ n, t.cycleAt .execute i = some n ∧ n < cycle) ∧
      ∀ n, t.finishAt d i = some n → cycle < n := by
  simp only [busy, List.mem_filter, List.mem_range, Bool.and_eq_true, decide_eq_true_eq,
    Option.any_eq_true, Option.all_eq_true, and_assoc]
  exact and_iff_right_of_imp fun h => lt_size_of_poolAt h.1

/-- Unfinished below a bound is who is not finished by the cycle. -/
theorem mem_unfinishedBelow {d : Timing} {t : Trace} {cycle : Nat} {p : Pool}
    {bound i : Nat} : i ∈ t.unfinishedBelow d cycle p bound ↔
      i < bound ∧ t.poolAt i = some p ∧ ∀ n, t.finishAt d i = some n → cycle < n := by
  simp [unfinishedBelow, Option.all_eq_true]

/-- Who starts is listed by index. -/
theorem pairwise_started (t : Trace) (cycle : Nat) (p : Pool) :
    (t.started cycle p).Pairwise (· < ·) :=
  List.pairwise_lt_range.filter _

/-- Who waits is listed by index. -/
theorem pairwise_waiting (t : Trace) (cycle : Nat) (p : Pool) :
    (t.waiting cycle p).Pairwise (· < ·) :=
  List.pairwise_lt_range.filter _

theorem pairwise_busy (d : Timing) (t : Trace) (cycle : Nat) (p : Pool) :
    (t.busy d cycle p).Pairwise (· < ·) :=
  List.pairwise_lt_range.filter _

/-- Who waits for a unit holds none. -/
theorem nodup_waiting_append_busy (d : Timing) (t : Trace) (cycle : Nat) (p : Pool) :
    (t.waiting cycle p ++ t.busy d cycle p).Nodup := by
  refine (pairwise_waiting ..).nodup.append (pairwise_busy ..).nodup fun i hw hb => ?_
  obtain ⟨-, -, hexecute, -⟩ := mem_waiting.1 hw
  obtain ⟨-, ⟨b, hb, hlt⟩, -⟩ := mem_busy.1 hb
  exact Nat.not_le.2 hlt (hexecute b hb)

theorem pairwise_unfinishedBelow (d : Timing) (t : Trace) (cycle : Nat) (p : Pool)
    (bound : Nat) : (t.unfinishedBelow d cycle p bound).Pairwise (· < ·) :=
  List.pairwise_lt_range.filter _

/-! ## Schedules whose sums fit a word -/

/-- A latency after its start every record is in a cycle that fits a word of 64 bits. -/
def FitsWord (config : Config) (t : Trace) : Prop :=
  ∀ i f, t.doneAt config.nominal i = some f → f < UInt64.size

/-- Whether all sums fit a word can be decided record by record. -/
theorem fitsWord_iff {config : Config} {t : Trace} : t.FitsWord config ↔
    ∀ i < t.size, (t.doneAt config.nominal i).all (decide <| · < UInt64.size) = true := by
  simp only [FitsWord, Option.all_eq_true, decide_eq_true_eq]
  refine forall_congr' fun i => ⟨fun h _ => h, fun h f hf => h ?_ f hf⟩
  obtain ⟨p, n, hp, -⟩ := doneAt_eq_some_iff.1 hf
  exact lt_size_of_poolAt hp

instance (config : Config) (t : Trace) : Decidable (t.FitsWord config) :=
  decidable_of_iff _ fitsWord_iff.symm

namespace FitsWord

variable {config : Config} {t : Trace} (h : t.FitsWord config)
  (hlatency : ∀ p, 0 < (config.pools p).latency)

include h hlatency

/-- **Then a record takes its latency.** -/
theorem timing_eq {i n : Nat} {p : Pool} (hp : t.poolAt i = some p)
    (hn : t.cycleAt .execute i = some n) : config.timing p n = n + (config.pools p).latency :=
  Config.timing_eq_nominal (hlatency p) (h i _ (doneAt_eq_some_iff.2 ⟨p, n, hp, hn, rfl⟩))

/-- A record that has started is done its latency later. -/
theorem doneAt_of_start {i n : Nat} {p : Pool} (hp : t.poolAt i = some p)
    (hn : t.cycleAt .execute i = some n) :
    t.doneAt config.timing i = some (n + (config.pools p).latency) :=
  doneAt_eq_some_iff.2 ⟨p, n, hp, hn, h.timing_eq hlatency hp hn⟩

/-- So all that depends on when a record is done is as the latencies say. -/
theorem doneAt_eq : t.doneAt config.nominal = t.doneAt config.timing := by
  funext i
  rw [doneAt, doneAt]
  cases hp : t.poolAt i with
  | none => rfl
  | some p => exact Option.map_congr fun n hn => (h.timing_eq hlatency hp hn).symm

/-- If all sums fit, records finish when their latency has passed. -/
theorem finishAt_eq : t.finishAt config.nominal = t.finishAt config.timing := by
  funext i
  rw [finishAt, finishAt, h.doneAt_eq hlatency]

/-- If all sums fit, those contend whose latency has passed. -/
theorem contending_eq : t.contending config.nominal = t.contending config.timing := by
  funext cycle
  rw [contending, contending, h.doneAt_eq hlatency]

theorem busy_eq : t.busy config.nominal = t.busy config.timing := by
  funext cycle p
  rw [busy, busy, h.finishAt_eq hlatency]

theorem unfinishedBelow_eq :
    t.unfinishedBelow config.nominal = t.unfinishedBelow config.timing := by
  funext cycle p bound
  rw [unfinishedBelow, unfinishedBelow, h.finishAt_eq hlatency]

end FitsWord

end Trace

end Tomasulo
