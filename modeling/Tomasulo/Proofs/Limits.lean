import Mathlib.Combinatorics.Enumerative.DoubleCounting
import Tomasulo.Proofs.LastEvent

/-!
# Proofs/Limits — what no schedule can beat

How long a program takes at least, read off the program alone (`Trace.Limits`): a chain of
dependences runs one latency after the other, with a cycle in between for the bus; the units of a
pool have to give every record of the pool its latency; the bus takes one result in a cycle.  No
record starts before cycle 3.  That no run is shorter follows from the laws (`limits_of_schedule`),
as long as the cycles in which its records are done fit a word; a run in which one does not is over
before it could have been (`limits_of_schedule_wrapped`).
-/

namespace Tomasulo

namespace Trace

variable {config : Config} {t : Trace} {left : Nat → Nat} {b i n k T : Nat} {p : Pool}

/-! ## The limits of a program -/

/-- The cycles that the record at a position needs on a unit. -/
def latencyAt (config : Config) (t : Trace) (i : Nat) : Nat :=
  ((t.poolAt i).map fun p => (config.pools p).latency).getD 0

/-- The records that publish a result, in program order. -/
def publishing (t : Trace) : List Nat :=
  (List.range t.size).filter t.publishes

/-- **The limits of a program on a machine**: `T` cycles are enough for every chain of dependences,
for the units of each pool and for the bus. -/
structure Limits (config : Config) (t : Trace) (T : Nat) : Prop where
  /-- Behind what is fetched before it, a chain takes its latencies and a cycle for every link; the
  result at its end, if any, is one more cycle on the bus. -/
  chain : ∀ {i is}, (∀ j ∈ i :: is, (t.poolAt j).isSome = true) →
    (i :: is).IsChain (fun w j => t.DependsOn j w) →
      (t.scheduledBelow i).length + 3 + ((i :: is).map (t.latencyAt config)).sum + is.length +
        (if t.publishes ((i :: is).getLast (List.cons_ne_nil i is)) = true then 1 else 0) ≤ T
  /-- The units of a pool are there from cycle 3 on. -/
  units : ∀ {p}, 0 < (t.inPool p).length →
    (t.inPool p).length * (config.pools p).latency ≤ (config.pools p).units * (T - 3)
  /-- The first result is on the bus after the shortest latency, and the last one for a cycle. -/
  bus : ∀ {m}, (t.publishing.map (t.latencyAt config)).min? = some m →
    3 + m + t.publishing.length ≤ T

theorem latencyAt_of_poolAt (hp : t.poolAt i = some p) (config : Config) :
    t.latencyAt config i = (config.pools p).latency := by
  rw [latencyAt, hp]
  rfl

theorem latencyAt_unscheduled (config : Config) (t : Trace) :
    t.unscheduled.latencyAt config = t.latencyAt config := by
  funext i
  rw [latencyAt, poolAt_unscheduled, latencyAt]

theorem mem_publishing : i ∈ t.publishing ↔ t.publishes i = true := by
  rw [publishing, List.mem_filter, List.mem_range]
  refine and_iff_right_of_imp fun hi => ?_
  obtain ⟨p, hp⟩ := exists_poolAt_of_publishes hi
  exact lt_size_of_poolAt hp

theorem nodup_publishing (t : Trace) : t.publishing.Nodup :=
  List.nodup_range.filter _

/-- The limits do not depend on the schedule. -/
theorem limits_unscheduled (h : t.Limits config T) : t.unscheduled.Limits config T where
  chain := by
    intro i is
    have hbelow : t.unscheduled.scheduledBelow i = t.scheduledBelow i := by
      rw [scheduledBelow, isScheduled_unscheduled, scheduledBelow]
    simp only [poolAt_unscheduled, DependsOn, sourceAt_unscheduled, hbelow, latencyAt_unscheduled,
      publishes_unscheduled]
    exact h.chain
  units := by
    rw [inPool_unscheduled]
    exact h.units
  bus := by
    rw [latencyAt_unscheduled, publishing, size_unscheduled, publishes_unscheduled]
    exact h.bus

/-- A record has as many records before it in program order as are scheduled before it. -/
theorem getElem?_order_of_isScheduled (hi : t.isScheduled i = true) :
    t.order[(t.scheduledBelow i).length]? = some i := by
  obtain ⟨rest, hrest⟩ := t.scheduledBelow_initial (Nat.succ_le_of_lt (lt_size_of_isScheduled hi))
  rw [← hrest, scheduledBelow_succ, if_pos hi, List.append_assoc,
    List.getElem?_append_right (Nat.le_refl _), Nat.sub_self]
  rfl

namespace Lawful

variable (h : t.Lawful config left)

include h

/-! ## One record after the other -/

/-- What is scheduled before a record leaves the queue before it, and nothing in the first cycle. -/
theorem scheduledBelow_lt_issue (hn : t.cycleAt .issue i = some n) :
    (t.scheduledBelow i).length + 1 < n := by
  obtain ⟨⟨p, hp⟩, k, hk, m, rfl, -, hm⟩ := h.issue.1 hn
  have hplace := getElem?_order_of_isScheduled (isScheduled_of_poolAt hp)
  obtain rfl := (List.getElem?_inj (List.getElem?_eq_some_iff.1 hk).1 t.pairwise_order.nodup).1
    (hk.trans hplace.symm)
  have := h.leaves.succ_le m
  omega

theorem scheduledBelow_lt_execute (hb : t.cycleAt .execute i = some b) :
    (t.scheduledBelow i).length + 3 ≤ b := by
  obtain ⟨a, ha, hlt⟩ := h.issue_lt hb
  have := h.scheduledBelow_lt_issue ha
  omega

/-- A record starts behind the results it depends on, each of which was on the bus when it was done
or later. -/
theorem done_lt_of_dependsOn {w d : Nat} (hb : t.cycleAt .execute i = some b)
    (hdepends : t.DependsOn i w) (hd : t.doneAt config.timing w = some d) : d < b := by
  obtain ⟨p, hp⟩ := h.pooled hb
  have hmem := mem_started.2 ⟨hp, hb⟩
  rw [h.started] at hmem
  obtain ⟨-, -, -, hsources⟩ := mem_waiting.1 (List.mem_of_mem_take hmem)
  obtain ⟨slot, hw⟩ := hdepends
  obtain ⟨c, hc, hlt⟩ := hsources slot w hw
  obtain ⟨-, ⟨d', hd', hle⟩, -⟩ := mem_contending.1 (h.cdb.1 hc).1
  obtain rfl := Option.some.inj (hd.symm.trans hd')
  exact hle.trans_lt hlt

section Fits

variable (hfits : t.FitsWord config) (hlatency : ∀ p, 0 < (config.pools p).latency)

include hfits hlatency

/-- **A chain of dependences takes its latencies and a cycle for every link.** -/
theorem chain_le (hover : t.IsOver config left T) {is : List Nat} {d : Nat}
    (hpool : ∀ j ∈ i :: is, (t.poolAt j).isSome = true)
    (hchain : (i :: is).IsChain (fun w j => t.DependsOn j w)) (hb : t.cycleAt .execute i = some b)
    (hd : t.doneAt config.timing ((i :: is).getLast (List.cons_ne_nil i is)) = some d) :
    b + ((i :: is).map (t.latencyAt config)).sum + is.length ≤ d := by
  obtain ⟨p, hp⟩ := Option.isSome_iff_exists.1 (hpool i (List.mem_cons_self ..))
  have hdone : t.doneAt config.timing i = some (b + t.latencyAt config i) :=
    latencyAt_of_poolAt hp config ▸ hfits.doneAt_of_start hlatency hp hb
  induction is generalizing i b p with
  | nil =>
    obtain rfl := Option.some.inj (hdone.symm.trans hd)
    simp
  | cons j js ih =>
    obtain ⟨hdepends, hchain⟩ := List.isChain_cons_cons.1 hchain
    replace hpool : ∀ k ∈ j :: js, (t.poolAt k).isSome = true :=
      fun k hk => hpool k (List.mem_cons_of_mem i hk)
    obtain ⟨q, hq⟩ := Option.isSome_iff_exists.1 (hpool j (List.mem_cons_self ..))
    obtain ⟨-, b', -, hb'⟩ := h.stamps_of_isOver hover hq
    have hlt := h.done_lt_of_dependsOn hb' hdepends hdone
    have hrest := ih hpool hchain hb' (by simpa using hd) q hq
      (latencyAt_of_poolAt hq config ▸ hfits.doneAt_of_start hlatency hq hb')
    simp only [List.map_cons, List.sum_cons, List.length_cons] at hrest ⊢
    omega

end Fits

/-- A schedule is over when every record is done, and the result of the record has left the bus. -/
theorem done_le_of_isOver (hover : t.IsOver config left T) (hp : t.poolAt i = some p) :
    ∃ d, t.doneAt config.timing i = some d ∧ d + (if t.publishes i = true then 1 else 0) ≤ T := by
  obtain ⟨f, hf, hle⟩ := hover.finished hp
  obtain ⟨d, hd, hdf⟩ := h.done_of_finished hf
  refine ⟨d, hd, ?_⟩
  split
  · next hpublishes =>
    rw [finishAt_of_publishes hpublishes] at hf
    have hne : f ≠ T := by
      rintro rfl
      exact hover.bus i hf
    omega
  · omega

/-! ## The units of a pool -/

/-- **The units of a pool are never oversubscribed**: who holds one has held it in the cycle before
or got it in that cycle. -/
theorem length_busy_add_length_started_le (n : Nat) (p : Pool) :
    (t.busy config.timing n p).length + (t.started n p).length ≤ (config.pools p).units := by
  have hbusy : (t.busy config.timing n p).length ≤ (config.pools p).units := by
    induction n with
    | zero =>
      have hnone : t.busy config.timing 0 p = [] := List.eq_nil_iff_forall_not_mem.2 fun i hi => by
        obtain ⟨-, ⟨b, -, hlt⟩, -⟩ := mem_busy.1 hi
        exact Nat.not_lt_zero b hlt
      rw [hnone]
      exact Nat.zero_le _
    | succ n ih =>
      have hsubset : t.busy config.timing (n + 1) p ⊆
          t.busy config.timing n p ++ t.started n p := by
        intro i hi
        obtain ⟨hp, ⟨b, hb, hlt⟩, hfinish⟩ := mem_busy.1 hi
        rw [List.mem_append, mem_busy, mem_started]
        rcases Nat.lt_or_eq_of_le (Nat.le_of_lt_succ hlt) with hlt | rfl
        · exact .inl ⟨hp, ⟨b, hb, hlt⟩, fun f hf => (Nat.lt_succ_self n).trans (hfinish f hf)⟩
        · exact .inr ⟨hp, hb⟩
      have hle := ((pairwise_busy ..).nodup.subperm hsubset).length_le
      rw [List.length_append, h.started, List.length_take] at hle
      omega
  rw [h.started, List.length_take]
  omega

section Fits

variable (hfits : t.FitsWord config) (hlatency : ∀ p, 0 < (config.pools p).latency)

include hfits hlatency

/-- A record is on a unit for as many cycles as its pool has latency, none before cycle 3. -/
theorem latency_le_card (hover : t.IsOver config left T) (hp : t.poolAt i = some p) :
    (config.pools p).latency ≤
      ((Finset.Ico 3 T).filter fun n => i ∈ t.busy config.timing n p ++ t.started n p).card := by
  obtain ⟨-, b, -, hb⟩ := h.stamps_of_isOver hover hp
  have hd := hfits.doneAt_of_start hlatency hp hb
  have hthree := h.scheduledBelow_lt_execute hb
  obtain ⟨d, hd', hdT⟩ := h.done_le_of_isOver hover hp
  obtain rfl := Option.some.inj (hd.symm.trans hd')
  have hsubset : Finset.Ico b (b + (config.pools p).latency) ⊆
      (Finset.Ico 3 T).filter fun n => i ∈ t.busy config.timing n p ++ t.started n p := by
    intro n hn
    obtain ⟨hbn, hnd⟩ := Finset.mem_Ico.1 hn
    rw [Finset.mem_filter, Finset.mem_Ico, List.mem_append, mem_busy, mem_started]
    refine ⟨⟨by omega, by omega⟩, ?_⟩
    rcases Nat.lt_or_eq_of_le hbn with hlt | rfl
    · refine .inl ⟨hp, ⟨b, hb, hlt⟩, fun f hf => ?_⟩
      obtain ⟨d, hd', hle⟩ := h.done_of_finished hf
      obtain rfl := Option.some.inj (hd.symm.trans hd')
      exact hnd.trans_le hle
    · exact .inr ⟨hp, hb⟩
  calc (config.pools p).latency = (Finset.Ico b (b + (config.pools p).latency)).card := by simp
    _ ≤ _ := Finset.card_le_card hsubset

/-- **The units give every record of the pool its latency**: pairs of a record and a cycle in which
it is on a unit, counted both ways. -/
theorem length_inPool_mul_latency_le (hover : t.IsOver config left T) (p : Pool) :
    (t.inPool p).length * (config.pools p).latency ≤ (config.pools p).units * (T - 3) := by
  have hcard : (t.inPool p).toFinset.card = (t.inPool p).length :=
    List.toFinset_card_of_nodup (t.nodup_inPool p)
  have hcount := Finset.card_mul_le_card_mul (s := (t.inPool p).toFinset) (t := Finset.Ico 3 T)
    (m := (config.pools p).latency) (n := (config.pools p).units)
    (fun i n => i ∈ t.busy config.timing n p ++ t.started n p)
    (fun i hi => h.latency_le_card hfits hlatency hover (mem_inPool.1 (List.mem_toFinset.1 hi)))
    fun n _ => ?_
  · rwa [hcard, Nat.card_Ico, Nat.mul_comm (T - 3)] at hcount
  · calc _ ≤ (t.busy config.timing n p ++ t.started n p).toFinset.card :=
          Finset.card_le_card fun i hi => List.mem_toFinset.2 (Finset.mem_filter.1 hi).2
      _ ≤ (t.busy config.timing n p ++ t.started n p).length := List.toFinset_card_le _
      _ ≤ (config.pools p).units := by
        rw [List.length_append]
        exact h.length_busy_add_length_started_le n p

/-! ## The bus -/

/-- **One result in a cycle**, none before the shortest latency has passed. -/
theorem bus_le (hover : t.IsOver config left T) {m : Nat}
    (hm : (t.publishing.map (t.latencyAt config)).min? = some m) :
    3 + m + t.publishing.length ≤ T := by
  obtain ⟨hmem, hle⟩ := List.min?_eq_some_iff.1 hm
  have hstamp {i : Nat} (hi : i ∈ t.publishing) :
      ∃ c, t.cycleAt .cdb i = some c ∧ 3 + m ≤ c ∧ c < T := by
    have hpublishes := mem_publishing.1 hi
    obtain ⟨p, hp⟩ := exists_poolAt_of_publishes hpublishes
    obtain ⟨c, hc, hcT⟩ := hover.finished hp
    obtain ⟨d, hd, hdc⟩ := h.done_of_finished hc
    obtain ⟨q, b, hq, hb, rfl⟩ := doneAt_eq_some_iff.1 hd
    rw [hfits.timing_eq hlatency hq hb] at hdc
    have hshortest := hle _ (List.mem_map_of_mem hi)
    rw [latencyAt_of_poolAt hq] at hshortest
    have hthree := h.scheduledBelow_lt_execute hb
    rw [finishAt_of_publishes hpublishes] at hc
    refine ⟨c, hc, by omega, Nat.lt_of_le_of_ne hcT ?_⟩
    rintro rfl
    exact hover.bus i hc
  obtain ⟨w, hw, -⟩ := List.mem_map.1 hmem
  obtain ⟨c, -, hc, hcT⟩ := hstamp hw
  have hcard : t.publishing.toFinset.card ≤ (Finset.Ico (3 + m) T).card := by
    refine Finset.card_le_card_of_injOn (fun i => (t.cycleAt .cdb i).getD 0) (fun i hi => ?_) ?_
    · obtain ⟨c, hc, hbounds⟩ := hstamp (List.mem_toFinset.1 hi)
      simpa [hc] using hbounds
    · intro i hi j hj hij
      obtain ⟨c, hc, -⟩ := hstamp (List.mem_toFinset.1 hi)
      obtain ⟨c', hc', -⟩ := hstamp (List.mem_toFinset.1 hj)
      obtain rfl : c = c' := by simpa [hc, hc'] using hij
      exact (h.cdb.1 hc).unique (h.cdb.1 hc')
  rw [List.toFinset_card_of_nodup t.nodup_publishing, Nat.card_Ico] at hcard
  have : t.publishing.length ≤ T - (3 + m) := hcard
  omega

/-- **No lawful schedule beats the limits of its program.** -/
theorem limits (hover : t.IsOver config left T) : t.Limits config T where
  chain := by
    intro i is hpool hchain
    obtain ⟨p, hp⟩ := Option.isSome_iff_exists.1 (hpool i (List.mem_cons_self ..))
    obtain ⟨-, b, -, hb⟩ := h.stamps_of_isOver hover hp
    obtain ⟨q, hq⟩ :=
      Option.isSome_iff_exists.1 (hpool _ (List.getLast_mem (List.cons_ne_nil i is)))
    obtain ⟨d, hd, hdT⟩ := h.done_le_of_isOver hover hq
    have hthree := h.scheduledBelow_lt_execute hb
    have hlength := h.chain_le hfits hlatency hover hpool hchain hb hd
    omega
  units _ := h.length_inPool_mul_latency_le hfits hlatency hover _
  bus := h.bus_le hfits hlatency hover

end Fits

end Lawful

end Trace

end Tomasulo
