import Mathlib.Algebra.Order.BigOperators.Group.Finset
import Mathlib.Algebra.BigOperators.Ring.Finset
import Mathlib.Tactic.Linarith
import Mathlib.Tactic.Ring
import Tomasulo.Proofs.Lawful
import Tomasulo.Proofs.Tally

/-!
# Proofs/Balance — the statistics of a run add up

In every state of a run the counts of the classes add up to the instructions and no difference of
stamps is taken the wrong way round (`Stats.Balances`).  When the run is over every record is
counted everywhere it belongs, and the waits and the latencies of a record are all there is between
its first stamp and its last (`Stats.Closes`).  The results overtake each other on the bus at most
once for every pair, which is the law of the bus.  All of this is so as long as the sums fit a word.
-/

namespace Tomasulo

/-! ## Waiting for the bus -/

/-- Numbers of which each is at most its rank add up to at most the number of pairs. -/
theorem two_mul_sum_le {q : Nat → Bool} {wait : Nat → Nat}
    (hwait : ∀ i, q i = true → wait i ≤ ((Finset.range i).filter fun j => q j).card) (n : Nat) :
    2 * ∑ i ∈ (Finset.range n).filter (fun j => q j), wait i ≤
      ((Finset.range n).filter fun j => q j).card *
        (((Finset.range n).filter fun j => q j).card - 1) := by
  induction n with
  | zero => simp
  | succ n ih =>
    rw [Finset.range_add_one, Finset.filter_insert]
    split
    · next hn =>
      have hnot : n ∉ (Finset.range n).filter fun j => q j := by simp
      rw [Finset.sum_insert hnot, Finset.card_insert_of_notMem hnot]
      have hle := hwait n hn
      set rank := ((Finset.range n).filter fun j => q j).card
      cases hrank : rank with
      | zero =>
        rw [hrank] at ih hle
        omega
      | succ k =>
        rw [hrank] at ih hle
        simp only [Nat.add_sub_cancel] at ih ⊢
        nlinarith
    · exact ih

namespace Trace

variable {config : Config} {d : Timing} {t : Trace} {left : Nat → Nat} {i n T : Nat}

/-- **A result waits no longer than there are older results**: while it waits it contends, so the
oldest that does is older. -/
theorem Lawful.busWait_le (h : t.Lawful config left) {f : Nat}
    (hf : t.doneAt config.timing i = some f) (hn : t.cycleAt .cdb i = some n) :
    n - f ≤ (t.publishersBelow i).length := by
  refine wait_le_length fun cycle hle hlt => ?_
  have hmem : i ∈ t.contending config.timing cycle := by
    refine mem_contending.2 ⟨(mem_contending.1 (h.cdb.1 hn).1).1, ⟨f, hf, hle⟩, fun m hm => ?_⟩
    obtain rfl := Option.some.inj (hn.symm.trans hm)
    exact Nat.le_of_lt hlt
  obtain ⟨j, rest, hcons⟩ := List.exists_cons_of_ne_nil (List.ne_nil_of_mem hmem)
  have hleast : IsLeast {k | k ∈ t.contending config.timing cycle} j :=
    (head?_eq_some_iff_isLeast (t.pairwise_contending config.timing cycle)).1 (by rw [hcons]; rfl)
  have hj := h.cdb.2 hleast
  have hlt' : j < i := by
    refine Nat.lt_of_le_of_ne (hleast.2 hmem) ?_
    rintro rfl
    exact Nat.ne_of_lt hlt (Option.some.inj (hj.symm.trans hn))
  exact ⟨j, List.mem_filter.2 ⟨List.mem_range.2 hlt', (mem_contending.1 hleast.1).1⟩, hj⟩

/-! ## Who has entered a stage -/

/-- What has been on the bus is of a class that publishes. -/
theorem Ordered.reached_cdb_subset (h : t.Ordered d n) :
    t.reached .cdb ⊆ t.ofClass OpClass.broadcasts := by
  intro i hi
  obtain ⟨m, hm⟩ := Option.isSome_iff_exists.1 (mem_reached.1 hi)
  obtain ⟨p, -, hp, -⟩ := h.cdb hm
  have hpublishes : t.publishes i = true := by
    refine Decidable.byContradiction fun hnot => ?_
    have hnone := h.store (store_of_not_publishes hp hnot).1
    rw [hm] at hnone
    cases hnone
  exact mem_ofClass.2 (publishes_iff.1 hpublishes)

/-- Nothing enters a stage that has not been through the stages before. -/
theorem Ordered.reached_subset (h : t.Ordered d n) :
    t.reached .cdb ⊆ t.reached .execute ∧ t.reached .execute ⊆ t.reached .issue ∧
      t.reached .issue ⊆ t.reached .dispatch := by
  refine ⟨fun i hi => ?_, fun i hi => ?_, fun i hi => ?_⟩
  all_goals
    obtain ⟨b, hb⟩ := Option.isSome_iff_exists.1 (mem_reached.1 hi)
    refine mem_reached.2 ?_
  · obtain ⟨-, a, -, ha, -⟩ := h.cdb hb
    exact Option.isSome_of_eq_some ha
  · obtain ⟨a, ha, -⟩ := h.execute hb
    exact Option.isSome_of_eq_some ha
  · obtain ⟨a, ha, -⟩ := h.issue hb
    exact Option.isSome_of_eq_some ha

theorem Ordered.dispatch_lt_issue (h : t.Ordered d n) (hi : i ∈ t.reached .issue) :
    t.cycle .dispatch i < t.cycle .issue i := by
  obtain ⟨b, hb⟩ := Option.isSome_iff_exists.1 (mem_reached.1 hi)
  obtain ⟨a, ha, hlt⟩ := h.issue hb
  rwa [cycle_eq ha, cycle_eq hb]

theorem Ordered.issue_lt_execute (h : t.Ordered d n) (hi : i ∈ t.reached .execute) :
    t.cycle .issue i < t.cycle .execute i := by
  obtain ⟨b, hb⟩ := Option.isSome_iff_exists.1 (mem_reached.1 hi)
  obtain ⟨a, ha, hlt⟩ := h.execute hb
  rwa [cycle_eq ha, cycle_eq hb]

theorem Ordered.done_le_cdb (h : t.Ordered config.nominal n) (hi : i ∈ t.reached .cdb) :
    t.cycle .execute i + t.latencyAt config i ≤ t.cycle .cdb i := by
  obtain ⟨b, hb⟩ := Option.isSome_iff_exists.1 (mem_reached.1 hi)
  obtain ⟨p, a, hp, ha, hle⟩ := h.cdb hb
  rwa [cycle_eq ha, cycle_eq hb, latencyAt_of_poolAt hp]

section Complete

variable (h : t.Ordered d n) (hcomplete : t.Complete d n)
  (hissued : ∀ {i m}, t.cycleAt .issue i = some m → ∃ p, t.poolAt i = some p)

include h hcomplete

theorem reached_cdb_eq : t.reached .cdb = t.ofClass OpClass.broadcasts := by
  refine h.reached_cdb_subset.antisymm fun i hi => ?_
  obtain ⟨op, hop, hb⟩ := mem_ofClass.1 hi
  obtain ⟨w, hw, -⟩ := hcomplete.cdb hop hb
  exact mem_reached.2 (Option.isSome_of_eq_some hw)

include hissued

/-- Over a complete schedule the stages of a station have been entered by all records of a pool. -/
theorem reached_eq_pooled {stage : Stage} (hstage : stage = .issue ∨ stage = .execute) :
    t.reached stage = t.ofClass (·.pool.isSome) := by
  ext i
  constructor
  · intro hi
    have hne : stage ≠ .dispatch := by
      rintro rfl
      simp at hstage
    obtain ⟨p, hp⟩ := t.exists_poolAt_of_reached h hissued hne hi
    obtain ⟨op, hop, hpool⟩ := poolAt_eq_some_iff.1 hp
    exact mem_ofClass.2 ⟨op, hop, Option.isSome_of_eq_some hpool⟩
  · intro hi
    obtain ⟨op, hop, hpool⟩ := mem_ofClass.1 hi
    obtain ⟨m, b, hm, hb⟩ := hcomplete.execute hop hpool
    rcases hstage with rfl | rfl
    · exact mem_reached.2 (Option.isSome_of_eq_some hm)
    · exact mem_reached.2 (Option.isSome_of_eq_some hb)

end Complete

end Trace

/-! ## Balances -/

namespace Stats

/-- **Statistics that balance.**  No stamp is later than the one it is taken off, none so late that
a result would wait less than no cycle, so the waits are sums of differences that nothing cuts off;
the classes add up. -/
structure Balances (config : Config) (t : Trace) (s : Stats) : Prop where
  stages : t.reached .cdb ⊆ t.reached .execute ∧ t.reached .execute ⊆ t.reached .issue ∧
    t.reached .issue ⊆ t.reached .dispatch
  dispatch_le : ∀ i ∈ t.reached .issue, t.cycle .dispatch i ≤ t.cycle .issue i
  issue_le : ∀ i ∈ t.reached .execute, t.cycle .issue i ≤ t.cycle .execute i
  done_le : ∀ i ∈ t.reached .cdb, t.cycle .execute i + t.latencyAt config i ≤ t.cycle .cdb i
  queueWait : (s.queueWait : ℤ) =
    ∑ i ∈ t.reached .issue, ((t.cycle .issue i : ℤ) - t.cycle .dispatch i)
  stationWait : (s.stationWait : ℤ) =
    ∑ i ∈ t.reached .execute, ((t.cycle .execute i : ℤ) - t.cycle .issue i)
  busWait : (s.busWait : ℤ) =
    ∑ i ∈ t.reached .cdb, ((t.cycle .cdb i : ℤ) - t.cycle .execute i - t.latencyAt config i)
  instructions : s.instructions = s.loads + s.stores + s.ints + s.fps + s.branches
  broadcast_le : s.broadcast ≤ s.loads + s.ints + s.fps
  started_le : s.started ≤ s.stationWait

/-- **Statistics that close.**  Every record is counted, every record of a pool has started and
every result has been on the bus.  Waits and latencies together are the time from the first stamp
to the last. -/
structure Closes (config : Config) (t : Trace) (s : Stats) : Prop extends s.Balances config t where
  size : s.instructions + s.traps = t.size
  started : s.started = s.loads + s.stores + s.ints + s.fps
  broadcast : s.broadcast = s.loads + s.ints + s.fps
  started_le_queueWait : s.started ≤ s.queueWait
  busWait_le : s.busWait ≤ s.broadcast * (s.broadcast - 1) / 2
  total : (s.queueWait + s.stationWait + s.busWait +
      (config.pools .int).latency * (s.loads + s.ints) + (config.pools .fp).latency * s.fps : ℤ) =
    ∑ i ∈ t.ofClass OpClass.broadcasts, ((t.cycle .cdb i : ℤ) - t.cycle .dispatch i) +
      ∑ i ∈ t.ofClass (· == .store), ((t.cycle .execute i : ℤ) - t.cycle .dispatch i)

section Collect

variable {config : Config} {t : Trace} {left : Nat → Nat} {cycles i n : Nat}

/-- Counted by class: all instructions, those of a pool and those that publish. -/
theorem card_instructions (t : Trace) (cycles : Nat) (config : Config) :
    let s := collect t cycles config
    (t.ofClass (· != .trap)).card = s.loads + s.stores + s.ints + s.fps + s.branches ∧
      (t.ofClass (·.pool.isSome)).card = s.loads + s.stores + s.ints + s.fps ∧
      (t.ofClass OpClass.broadcasts).card = s.loads + s.ints + s.fps := by
  simp only [Trace.card_ofClass, OpClass.all, List.map_cons, List.map_nil, List.sum_cons,
    List.sum_nil, collect]
  refine ⟨?_, ?_, ?_⟩
  all_goals simp [OpClass.pool, OpClass.broadcasts]; omega

/-- The latencies of the results, by class. -/
theorem sum_latencyAt (t : Trace) (cycles : Nat) (config : Config) :
    let s := collect t cycles config
    ∑ i ∈ t.ofClass OpClass.broadcasts, (t.latencyAt config i : ℤ) =
      (config.pools .int).latency * (s.loads + s.ints) + (config.pools .fp).latency * s.fps := by
  have hpool {p : OpClass → Bool} {q : Pool} (hp : ∀ c, p c = true → c.pool = some q) :
      ∑ i ∈ t.ofClass p, (t.latencyAt config i : ℤ) =
        (config.pools q).latency * (t.ofClass p).card := by
    rw [Finset.sum_congr rfl fun i hi => ?_, Finset.sum_const, nsmul_eq_mul, mul_comm]
    obtain ⟨c, hc, hpc⟩ := Trace.mem_ofClass.1 hi
    rw [Trace.latencyAt_of_poolAt (Trace.poolAt_eq_some_iff.2 ⟨c, hc, hp c hpc⟩)]
  have hsplit : OpClass.broadcasts = fun c => (c == .load || c == .int) || c == .fp := by
    funext c
    cases c <;> rfl
  have hint (c : OpClass) : (c == .load || c == .int) = true → c.pool = some .int := by
    cases c <;> simp [OpClass.pool]
  have hfp (c : OpClass) : (c == .fp) = true → c.pool = some .fp := by
    cases c <;> simp [OpClass.pool]
  have hapart (c : OpClass) : (c == .load || c == .int) = true → (c == .fp) = false := by
    cases c <;> simp
  rw [hsplit, Trace.sum_ofClass_or hapart, hpool hint, hpool hfp, Trace.card_ofClass,
    Trace.card_ofClass]
  simp [OpClass.all, collect]

variable (hfits : t.FitsWord config) (h : t.Ordered config.nominal n)
  (hissued : ∀ {i m}, t.cycleAt .issue i = some m → ∃ p, t.poolAt i = some p)

include hfits h hissued

/-- The sums that statistics take off the stamps of the bus fit a word. -/
theorem busWait_eq_sum (cycles : Nat) : (collect t cycles config).busWait =
    ∑ i ∈ t.reached .cdb, (t.cycle .cdb i - (t.cycle .execute i + t.latencyAt config i)) := by
  rw [(t.busWait_collect h hissued cycles config).1]
  refine Finset.sum_congr rfl fun i hi => ?_
  obtain ⟨m, hm⟩ := Option.isSome_iff_exists.1 (Trace.mem_reached.1 hi)
  obtain ⟨p, b, hp, hb, -⟩ := h.cdb hm
  have hsum := hfits i _ (Trace.doneAt_eq_some_iff.2 ⟨p, b, hp, hb, rfl⟩)
  rw [Trace.cycle_eq hb, Trace.latencyAt_of_poolAt hp, wordAdd_of_lt hsum]

/-- **The statistics of a schedule in order balance.** -/
theorem balances_collect (cycles : Nat) : (collect t cycles config).Balances config t := by
  obtain ⟨hstation, hstarted⟩ := t.stationWait_collect h hissued cycles config
  have hbroadcast := (t.busWait_collect h hissued cycles config).2
  obtain ⟨hscheduled, -, hpublishing⟩ := card_instructions t cycles config
  constructor
  case stages => exact h.reached_subset
  case dispatch_le => exact fun i hi => Nat.le_of_lt (h.dispatch_lt_issue hi)
  case issue_le => exact fun i hi => Nat.le_of_lt (h.issue_lt_execute hi)
  case done_le => exact fun i hi => h.done_le_cdb hi
  case queueWait =>
    rw [(t.queueWait_collect h hissued cycles config).1, Nat.cast_sum]
    refine Finset.sum_congr rfl fun i hi => ?_
    exact Nat.cast_sub (Nat.le_of_lt (h.dispatch_lt_issue hi))
  case stationWait =>
    rw [hstation, Nat.cast_sum]
    refine Finset.sum_congr rfl fun i hi => ?_
    exact Nat.cast_sub (Nat.le_of_lt (h.issue_lt_execute hi))
  case busWait =>
    rw [busWait_eq_sum hfits h hissued, Nat.cast_sum]
    refine Finset.sum_congr rfl fun i hi => ?_
    have hle := h.done_le_cdb hi
    omega
  case instructions => rw [t.instructions_collect, hscheduled]
  case broadcast_le =>
    rw [hbroadcast, ← hpublishing]
    exact Finset.card_le_card h.reached_cdb_subset
  case started_le =>
    rw [hstarted, hstation, Finset.card_eq_sum_ones]
    refine Finset.sum_le_sum fun i hi => ?_
    exact Nat.sub_pos_of_lt (h.issue_lt_execute hi)

variable (hlatency : ∀ p, 0 < (config.pools p).latency) (hcomplete : t.Complete config.nominal n)
  (hlawful : t.Lawful config left)

include hlatency hcomplete hlawful

/-- **All waits for the bus together**: every result waits for each other one in a cycle at most,
and for older ones only. -/
theorem busWait_collect_le (cycles : Nat) : (collect t cycles config).busWait ≤
    (collect t cycles config).broadcast * ((collect t cycles config).broadcast - 1) / 2 := by
  have hbroadcast := (t.busWait_collect h hissued cycles config).2
  have hcdb := Trace.reached_cdb_eq h hcomplete
  rw [busWait_eq_sum hfits h hissued, hbroadcast, hcdb, Nat.le_div_iff_mul_le two_pos, Nat.mul_comm]
  refine two_mul_sum_le (fun i hi => ?_) t.size
  obtain ⟨op, hop, hb⟩ := Trace.publishes_iff.1 hi
  obtain ⟨w, hw, -⟩ := hcomplete.cdb hop hb
  obtain ⟨p, a, hp, ha, hle⟩ := h.cdb hw
  have hwait := hlawful.busWait_le (hfits.doneAt_of_start hlatency hp ha) hw
  rw [Trace.cycle_eq hw, Trace.cycle_eq ha, Trace.latencyAt_of_poolAt hp]
  refine hwait.trans (Nat.le_of_eq ?_)
  rw [Trace.publishersBelow, ← List.toFinset_card_of_nodup (List.nodup_range.filter _),
    List.toFinset_filter, List.toFinset_range]
  rfl

/-- **The statistics of a complete schedule close.** -/
theorem closes_collect (cycles : Nat) : (collect t cycles config).Closes config t := by
  have hbalances := balances_collect hfits h hissued cycles
  obtain ⟨hscheduled, hpooled, hpublishing⟩ := card_instructions t cycles config
  have hissue := Trace.reached_eq_pooled h hcomplete hissued (.inl rfl)
  have hexecute := Trace.reached_eq_pooled h hcomplete hissued (.inr rfl)
  have hcdb := Trace.reached_cdb_eq h hcomplete
  have hstarted := (t.stationWait_collect h hissued cycles config).2
  have hbroadcast := (t.busWait_collect h hissued cycles config).2
  constructor
  case toBalances => exact hbalances
  case size =>
    have hall : t.ofClass (fun _ => true) = Finset.range t.size := by
      ext i
      rw [Trace.mem_ofClass, Finset.mem_range]
      constructor
      · rintro ⟨op, hop, -⟩
        exact Trace.lt_size_of_classAt hop
      · intro hi
        obtain ⟨op, hop⟩ := hcomplete.classified i hi
        exact ⟨op, hop, rfl⟩
    have hcard := congrArg Finset.card hall
    rw [Trace.card_ofClass, Finset.card_range] at hcard
    rw [t.instructions_collect, hscheduled, ← hcard]
    simp only [OpClass.all, collect, List.map_cons, List.map_nil, List.sum_cons, List.sum_nil,
      if_true]
    omega
  case started => exact hstarted.trans (hexecute ▸ hpooled)
  case broadcast => exact hbroadcast.trans (hcdb ▸ hpublishing)
  case started_le_queueWait =>
    rw [(t.queueWait_collect h hissued cycles config).1, hstarted, hexecute, hissue,
      Finset.card_eq_sum_ones]
    exact Finset.sum_le_sum fun i hi => Nat.sub_pos_of_lt (h.dispatch_lt_issue (hissue ▸ hi))
  case busWait_le => exact busWait_collect_le hfits h hissued hlatency hcomplete hlawful cycles
  case total =>
    have hsplit : (fun c : OpClass => c.pool.isSome) = fun c => c.broadcasts || c == .store := by
      funext c
      cases c <;> rfl
    have hapart (c : OpClass) : c.broadcasts = true → (c == .store) = false := by
      cases c <;> simp [OpClass.broadcasts]
    have hlatencies := sum_latencyAt t cycles config
    rw [hbalances.queueWait, hbalances.stationWait, hbalances.busWait, hissue, hexecute, hcdb,
      hsplit, Trace.sum_ofClass_or hapart, Trace.sum_ofClass_or hapart, add_assoc,
      ← hlatencies]
    simp only [Finset.sum_sub_distrib]
    ring

end Collect

end Stats

/-! ## The statistics of a run -/

namespace Simulation

variable {rs : List Record} {config : Config} {s₀ : Simulation}
  (hs : ofTrace (Trace.ofList rs) config = .ok s₀)

include hs

theorem stats_after (n : Nat) :
    (s₀.after n).stats = Stats.collect (s₀.after n).core.trace n config := by
  rw [stats, config_after, config_eq hs, cycle_eq hs]

/-- What has been issued has a pool, in every state. -/
theorem exists_poolAt_of_issue {n i m : Nat}
    (hm : (s₀.after n).core.trace.cycleAt .issue i = some m) :
    ∃ p, (s₀.after n).core.trace.poolAt i = some p :=
  (valid_after hs n).sound.exists_poolAt_of_issued (Option.isSome_of_eq_some hm)

/-- When a run is done its statistics close. -/
theorem closes_of_done {n : Nat} (hdone : (s₀.after n).isDone = true)
    (hfits : (s₀.after n).core.trace.FitsWord config) :
    (s₀.after n).stats.Closes config (s₀.after n).core.trace := by
  have hdrained := isDrained_of_isDone hdone
  have hlatency := latency_pos (ofTrace_eq_ok_iff.1 hs).1
  rw [stats_after hs]
  exact Stats.closes_collect hfits (hfits.ordered hlatency (ordered_after hs n))
    (exists_poolAt_of_issue hs) hlatency (hfits.complete hlatency (complete_of_done hs hdone))
    (lawful hs (accepted_of_drained hs hdrained) hdrained) n

end Simulation

end Tomasulo
