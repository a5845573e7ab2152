import Tomasulo.Proofs.Schedule

/-!
# Proofs/Agreement — schedules with the same stamps up to a cycle

Which records want the bus, a unit or a station in a cycle is a matter of the stamps before it.
`Trace.Follows` compares the schedule of a trace with that of a longer one that begins like it: the
records they share want the same, as far as their stamps agree.  How far that is may differ from
stage to stage, for in a cycle the bus comes before the units and these before the stations.
`Trace.AgreesUpTo` is the case of two schedules of one program.
-/

namespace Tomasulo

namespace Trace

variable {config : Config} {t u : Trace} {cycle i : Nat} {p : Pool}

/-- What an ascending list has below a bound. -/
theorem filter_lt_eq {is js : List Nat} (his : is.Pairwise (· < ·)) (hjs : js.Pairwise (· < ·))
    {bound : Nat} (hlt : ∀ i ∈ js, i < bound) (hmem : ∀ i < bound, (i ∈ is ↔ i ∈ js)) :
    is.filter (· < bound) = js := by
  refine (his.filter _).eq_of_mem_iff hjs fun i => ?_
  rw [List.mem_filter, decide_eq_true_eq]
  constructor
  · rintro ⟨hi, hb⟩
    exact (hmem i hb).1 hi
  · intro hi
    exact ⟨(hmem i (hlt i hi)).2 hi, hlt i hi⟩

/-! ## Traces that begin alike -/

/-- The record at a position reads what another one writes. -/
def DependsOn (t : Trace) (i w : Nat) : Prop :=
  ∃ slot, t.sourceAt i slot = some w

/-- The slots that exist are all that count for a dependence. -/
theorem dependsOn_iff {w : Nat} :
    t.DependsOn i w ↔ ∃ slot < maxInputs, t.sourceAt i slot = some w := by
  refine exists_congr fun slot => (and_iff_right_of_imp fun hw => ?_).symm
  by_contra hle
  rw [sourceAt_eq_none_of_le (Nat.le_of_not_lt hle)] at hw
  cases hw

instance (t : Trace) (i w : Nat) : Decidable (t.DependsOn i w) :=
  decidable_of_iff _ dependsOn_iff.symm

/-- Dependences point backwards. -/
theorem DependsOn.lt {w : Nat} (h : t.DependsOn i w) : w < i := by
  obtain ⟨slot, hw⟩ := h
  obtain ⟨register, -, hlatest⟩ := sourceAt_eq_some_iff.1 hw
  exact hlatest.mem

/-- What holds of all sources holds of all that a record depends on. -/
theorem forall_sourceAt_iff {P : Nat → Prop} :
    (∀ slot w, t.sourceAt i slot = some w → P w) ↔ ∀ w, t.DependsOn i w → P w :=
  ⟨fun h w ⟨slot, hw⟩ => h slot w hw, fun h slot w hw => h w ⟨slot, hw⟩⟩

/-- Over the length of `t` the records of `u` are of the same classes, and those of a pool depend on
the same records.  Which registers they use does not matter. -/
structure BeginsLike (u t : Trace) : Prop where
  size_le : t.size ≤ u.size
  classAt : ∀ {i}, i < t.size → u.classAt i = t.classAt i
  dependsOn : ∀ {i p}, t.poolAt i = some p → ∀ w, u.DependsOn i w ↔ t.DependsOn i w

namespace BeginsLike

variable (h : u.BeginsLike t)

include h

theorem poolAt (hi : i < t.size) : u.poolAt i = t.poolAt i := by
  rw [Trace.poolAt, h.classAt hi, Trace.poolAt]

theorem publishes (hi : i < t.size) : u.publishes i = t.publishes i := by
  rw [Trace.publishes, h.classAt hi, Trace.publishes]

theorem isScheduled (hi : i < t.size) : u.isScheduled i = t.isScheduled i := by
  rw [Trace.isScheduled, h.classAt hi, Trace.isScheduled]

/-- Traces of the same size begin alike either way. -/
theorem symm (hsize : u.size = t.size) : t.BeginsLike u where
  size_le := Nat.le_of_eq hsize
  classAt hi := (h.classAt (hsize ▸ hi)).symm
  dependsOn hp w :=
    (h.dependsOn ((h.poolAt (hsize ▸ lt_size_of_poolAt hp)).symm.trans hp) w).symm

/-- The program order begins alike. -/
theorem order_initial : t.order <+: u.order := by
  have hbelow : t.order = u.scheduledBelow t.size :=
    List.filter_congr fun i hi => (h.isScheduled (List.mem_range.1 hi)).symm
  rw [hbelow]
  exact u.scheduledBelow_initial h.size_le

end BeginsLike

/-- Only the programs matter. -/
theorem BeginsLike.of_unscheduled {t' u' : Trace} (hu : u.unscheduled = u')
    (ht : t.unscheduled = t') (h : u'.BeginsLike t') : u.BeginsLike t where
  size_le := by
    rw [size_eq_of_unscheduled hu, size_eq_of_unscheduled ht]
    exact h.size_le
  classAt hi := by
    rw [← classAt_unscheduled u, hu, ← classAt_unscheduled t, ht]
    exact h.classAt (size_eq_of_unscheduled ht ▸ hi)
  dependsOn hp w := by
    rw [← poolAt_unscheduled t, ht] at hp
    rw [DependsOn, DependsOn, ← sourceAt_unscheduled u, hu, ← sourceAt_unscheduled t, ht]
    exact h.dependsOn hp w

/-! ## A schedule that follows another -/

/-- `u` begins like `t`, and the records of `t` have the same stamps in both, for each stage up to a
cycle of its own. -/
structure Follows (u : Trace) (upTo : Stage → Nat) (t : Trace) : Prop extends
    BeginsLike u t where
  cycleAt : ∀ {stage i n}, i < t.size → n ≤ upTo stage →
    (u.cycleAt stage i = some n ↔ t.cycleAt stage i = some n)

namespace Follows

variable {upTo : Stage → Nat} {f : Nat} {stage : Stage}

/-- A follower enters a stage before a cycle if the other does. -/
theorem exists_lt_iff (h : u.Follows upTo t) (hi : i < t.size) (hle : cycle ≤ upTo stage + 1) :
    (∃ n, u.cycleAt stage i = some n ∧ n < cycle) ↔
      ∃ n, t.cycleAt stage i = some n ∧ n < cycle :=
  exists_congr fun _ => and_congr_left fun hlt =>
    h.cycleAt hi (Nat.le_of_lt_succ (hlt.trans_le hle))

/-- A follower enters a stage no earlier than a cycle if the other does not. -/
theorem forall_le_iff (h : u.Follows upTo t) (hi : i < t.size) (hle : cycle ≤ upTo stage + 1) :
    (∀ n, u.cycleAt stage i = some n → cycle ≤ n) ↔
      ∀ n, t.cycleAt stage i = some n → cycle ≤ n := by
  have hiff := not_congr (h.exists_lt_iff hi hle)
  push Not at hiff
  exact hiff

/-- A record that is done started in an earlier cycle. -/
theorem doneAt_iff (h : u.Follows upTo t) (hi : i < t.size) (hf : f ≤ upTo .execute + 1) :
    u.doneAt config.timing i = some f ↔ t.doneAt config.timing i = some f := by
  simp only [doneAt_eq_some_iff, h.poolAt hi]
  refine exists_congr fun p => exists_congr fun n => and_congr_right fun _ => ?_
  refine and_congr_left fun hn => h.cycleAt hi (Nat.le_of_lt_succ ?_)
  exact ((config.lt_timing p n).trans_eq hn).trans_le hf

/-- A follower finishes when the other does. -/
theorem finishAt_iff (h : u.Follows upTo t) (hi : i < t.size)
    (hexecute : f ≤ upTo .execute + 1) (hcdb : f ≤ upTo .cdb) :
    u.finishAt config.timing i = some f ↔ t.finishAt config.timing i = some f := by
  rw [Trace.finishAt, Trace.finishAt, h.publishes hi]
  split
  · exact h.cycleAt hi hcdb
  · exact h.doneAt_iff hi hexecute

section Wants

variable (h : u.Follows upTo t)

include h

/-- What is finished is the same. -/
theorem unfinished_iff (hi : i < t.size) (hexecute : cycle ≤ upTo .execute + 1)
    (hcdb : cycle ≤ upTo .cdb) :
    (∀ n, u.finishAt config.timing i = some n → cycle < n) ↔
      ∀ n, t.finishAt config.timing i = some n → cycle < n := by
  have hfinish {f : Nat} (hf : f ≤ cycle) :
      u.finishAt config.timing i = some f ↔ t.finishAt config.timing i = some f :=
    h.finishAt_iff hi (hf.trans hexecute) (hf.trans hcdb)
  constructor
  · exact fun hall n hn => Nat.lt_of_not_le fun hle =>
      Nat.not_le.2 (hall n ((hfinish hle).2 hn)) hle
  · exact fun hall n hn => Nat.lt_of_not_le fun hle =>
      Nat.not_le.2 (hall n ((hfinish hle).1 hn)) hle

/-- **Who wants the bus** was settled in the cycles before. -/
theorem filter_contending (hexecute : cycle ≤ upTo .execute + 1) (hcdb : cycle ≤ upTo .cdb + 1) :
    (u.contending config.timing cycle).filter (· < t.size) = t.contending config.timing cycle := by
  refine filter_lt_eq (pairwise_contending ..) (pairwise_contending ..) (fun i hi => ?_)
    fun i hi => ?_
  · obtain ⟨p, hp⟩ := exists_poolAt_of_publishes (mem_contending.1 hi).1
    exact lt_size_of_poolAt hp
  · have hdone : (∃ f, u.doneAt config.timing i = some f ∧ f ≤ cycle) ↔
        ∃ f, t.doneAt config.timing i = some f ∧ f ≤ cycle :=
      exists_congr fun f => and_congr_left fun hf =>
        h.doneAt_iff hi (hf.trans hexecute)
    rw [mem_contending, mem_contending, h.publishes hi, hdone, h.forall_le_iff hi hcdb]

/-- Who starts has a stamp that says so. -/
theorem filter_started (hexecute : cycle ≤ upTo .execute) (p : Pool) :
    (u.started cycle p).filter (· < t.size) = t.started cycle p := by
  refine filter_lt_eq (u.pairwise_started cycle p) (t.pairwise_started cycle p)
    (fun i hi => lt_size_of_poolAt (mem_started.1 hi).1) fun i hi => ?_
  rw [mem_started, mem_started, h.poolAt hi, h.cycleAt hi hexecute]

/-- **Who wants a unit** was settled in the cycles before. -/
theorem filter_waiting (hissue : cycle ≤ upTo .issue + 1) (hexecute : cycle ≤ upTo .execute + 1)
    (hcdb : cycle ≤ upTo .cdb + 1) (p : Pool) :
    (u.waiting cycle p).filter (· < t.size) = t.waiting cycle p := by
  refine filter_lt_eq (u.pairwise_waiting cycle p) (t.pairwise_waiting cycle p)
    (fun i hi => lt_size_of_poolAt (mem_waiting.1 hi).1) fun i hi => ?_
  rw [mem_waiting, mem_waiting, h.poolAt hi]
  refine and_congr_right fun hp => ?_
  have hsources : (∀ slot w, u.sourceAt i slot = some w →
        ∃ n, u.cycleAt .cdb w = some n ∧ n < cycle) ↔
      ∀ slot w, t.sourceAt i slot = some w → ∃ n, t.cycleAt .cdb w = some n ∧ n < cycle := by
    rw [forall_sourceAt_iff, forall_sourceAt_iff]
    refine forall_congr' fun w => ?_
    rw [h.dependsOn hp]
    exact imp_congr_right fun hw => h.exists_lt_iff (hw.lt.trans hi) hcdb
  rw [h.exists_lt_iff hi hissue, h.forall_le_iff hi hexecute, hsources]

/-- **Who holds a unit** is known once the bus is. -/
theorem filter_busy (hexecute : cycle ≤ upTo .execute + 1) (hcdb : cycle ≤ upTo .cdb) (p : Pool) :
    (u.busy config.timing cycle p).filter (· < t.size) = t.busy config.timing cycle p := by
  refine filter_lt_eq (pairwise_busy ..) (pairwise_busy ..)
    (fun i hi => lt_size_of_poolAt (mem_busy.1 hi).1) fun i hi => ?_
  rw [mem_busy, mem_busy, h.poolAt hi, h.exists_lt_iff hi hexecute,
    h.unfinished_iff hi hexecute hcdb]

/-- **Who is unfinished** is known once the bus is. -/
theorem filter_unfinishedBelow (hexecute : cycle ≤ upTo .execute + 1) (hcdb : cycle ≤ upTo .cdb)
    (p : Pool) (bound : Nat) :
    (u.unfinishedBelow config.timing cycle p bound).filter (· < t.size) =
      t.unfinishedBelow config.timing cycle p bound := by
  refine filter_lt_eq (u.pairwise_unfinishedBelow config.timing cycle p bound)
    (t.pairwise_unfinishedBelow config.timing cycle p bound)
    (fun i hi => lt_size_of_poolAt (mem_unfinishedBelow.1 hi).2.1) fun i hi => ?_
  rw [mem_unfinishedBelow, mem_unfinishedBelow, h.poolAt hi, h.unfinished_iff hi hexecute hcdb]

end Wants

end Follows

/-! ## Schedules of one program -/

/-- Two schedules of one program have the same stamps up to a cycle. -/
structure AgreesUpTo (now : Nat) (t u : Trace) : Prop where
  program : t.unscheduled = u.unscheduled
  cycleAt : ∀ {stage i n}, n ≤ now → (t.cycleAt stage i = some n ↔ u.cycleAt stage i = some n)

namespace AgreesUpTo

variable {now : Nat}

/-- A trace agrees with itself. -/
theorem refl (now : Nat) (t : Trace) : AgreesUpTo now t t :=
  ⟨rfl, fun _ => .rfl⟩

/-- Agreement passes on. -/
theorem trans {v : Trace} (h : AgreesUpTo now t u) (h' : AgreesUpTo now u v) :
    AgreesUpTo now t v :=
  ⟨h.program.trans h'.program, fun hn => (h.cycleAt hn).trans (h'.cycleAt hn)⟩

/-- Agreement up to a cycle is agreement up to any earlier one. -/
theorem mono {earlier : Nat} (h : AgreesUpTo now t u) (hle : earlier ≤ now) :
    AgreesUpTo earlier t u :=
  ⟨h.program, fun hn => h.cycleAt (hn.trans hle)⟩

/-- Traces that agree have the same length. -/
theorem size (h : AgreesUpTo now t u) : t.size = u.size := by
  rw [← size_unscheduled, h.program, size_unscheduled]

theorem classAt (h : AgreesUpTo now t u) : t.classAt = u.classAt := by
  rw [← classAt_unscheduled, h.program, classAt_unscheduled]

theorem poolAt (h : AgreesUpTo now t u) : t.poolAt = u.poolAt := by
  rw [← poolAt_unscheduled, h.program, poolAt_unscheduled]

theorem publishes (h : AgreesUpTo now t u) : t.publishes = u.publishes := by
  rw [← publishes_unscheduled, h.program, publishes_unscheduled]

theorem order (h : AgreesUpTo now t u) : t.order = u.order := by
  rw [Trace.order, Trace.order, scheduledBelow, scheduledBelow, h.size, ← isScheduled_unscheduled,
    h.program, isScheduled_unscheduled]

theorem sourceAt (h : AgreesUpTo now t u) : t.sourceAt = u.sourceAt := by
  rw [← sourceAt_unscheduled, h.program, sourceAt_unscheduled]

/-- Of two traces that agree, each follows the other. -/
theorem follows (h : AgreesUpTo now t u) : u.Follows (fun _ => now) t where
  size_le := Nat.le_of_eq h.size
  classAt _ := congrFun h.classAt.symm _
  dependsOn _ w := by rw [DependsOn, DependsOn, h.sourceAt]
  cycleAt _ hn := (h.cycleAt hn).symm

/-- Traces that agree finish the same records up to their cycle. -/
theorem finishAt (h : AgreesUpTo now t u) {f : Nat} (hf : f ≤ now) :
    t.finishAt config.timing i = some f ↔ u.finishAt config.timing i = some f := by
  have hiff (hi : i < t.size) :
      u.finishAt config.timing i = some f ↔ t.finishAt config.timing i = some f :=
    h.follows.finishAt_iff hi (Nat.le_succ_of_le hf) hf
  constructor
  · exact fun hm => (hiff (lt_size_of_finishAt hm)).2 hm
  · exact fun hm => (hiff (h.size ▸ lt_size_of_finishAt hm)).1 hm

/-- With nothing beyond the size, what two lists share is all of them. -/
theorem eq_of_filter (h : AgreesUpTo now t u) {is js : List Nat} (hlt : ∀ i ∈ js, i < u.size)
    (heq : js.filter (· < t.size) = is) : is = js := by
  rw [← heq, List.filter_eq_self]
  exact fun i hi => decide_eq_true (h.size ▸ hlt i hi)

/-- In traces that agree the same records contend. -/
theorem contending (h : AgreesUpTo now t u) (config : Config) (hle : cycle ≤ now + 1) :
    t.contending config.timing cycle = u.contending config.timing cycle := by
  refine h.eq_of_filter (fun i hi => ?_) (h.follows.filter_contending hle hle)
  obtain ⟨p, hp⟩ := exists_poolAt_of_publishes (mem_contending.1 hi).1
  exact lt_size_of_poolAt hp

/-- In traces that agree the same records start. -/
theorem started (h : AgreesUpTo now t u) (hle : cycle ≤ now) (p : Pool) :
    t.started cycle p = u.started cycle p :=
  h.eq_of_filter (fun _ hi => lt_size_of_poolAt (mem_started.1 hi).1)
    (h.follows.filter_started hle p)

/-- In traces that agree the same records wait. -/
theorem waiting (h : AgreesUpTo now t u) (hle : cycle ≤ now + 1) (p : Pool) :
    t.waiting cycle p = u.waiting cycle p :=
  h.eq_of_filter (fun _ hi => lt_size_of_poolAt (mem_waiting.1 hi).1)
    (h.follows.filter_waiting hle hle hle p)

/-- In traces that agree the same records hold units. -/
theorem busy (h : AgreesUpTo now t u) (config : Config) (hle : cycle ≤ now) (p : Pool) :
    t.busy config.timing cycle p = u.busy config.timing cycle p :=
  h.eq_of_filter (fun _ hi => lt_size_of_poolAt (mem_busy.1 hi).1)
    (h.follows.filter_busy (Nat.le_succ_of_le hle) hle p)

/-- In traces that agree the same records are unfinished. -/
theorem unfinishedBelow (h : AgreesUpTo now t u) (config : Config) (hle : cycle ≤ now) (p : Pool)
    (bound : Nat) :
    t.unfinishedBelow config.timing cycle p bound = u.unfinishedBelow config.timing cycle p bound :=
  h.eq_of_filter (fun _ hi => lt_size_of_poolAt (mem_unfinishedBelow.1 hi).2.1)
    (h.follows.filter_unfinishedBelow (Nat.le_succ_of_le hle) hle p bound)

end AgreesUpTo

end Trace

end Tomasulo
