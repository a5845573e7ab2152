import Tomasulo.Proofs.Lawful

/-!
# Proofs/Comparison — two lawful schedules compared

The laws leave nothing open: two lawful schedules of programs that begin alike have the same stamps
on the records they share, cycle by cycle and stage by stage, unless a record that only one of them
has holds a unit for which an older one waits (`Trace.Lawful.follows`).  So what a run does is a
matter of the classes of its records and of who depends on whom (`schedule_of_dependences`).
-/

namespace Tomasulo

/-! ## A queue that goes on -/

section GoesOn

variable {total total' n k : Nat} {ready ready' : Nat → Nat → Prop} {left left' : Nat → Nat}

/-- When a program goes on after its end, nothing changes for what leaves the queue before. -/
theorem Leaves.succ_eq_min (h : Leaves total ready left) (h' : Leaves total' ready' left')
    (htotal : total ≤ total') (hready : ∀ k < total, ready' k (n + 1) ↔ ready k (n + 1))
    (hn : left n = min (left' n) total) : left (n + 1) = min (left' (n + 1)) total := by
  rcases Nat.lt_or_ge (left' n) total with hlt | hge
  · have heq : left n = left' n := by omega
    have hiff := hready (left' n) hlt
    have hstep := h.succ n
    rw [heq, ← hiff] at hstep
    rcases hstep with ⟨hstay, hnot⟩ | ⟨hgo, hpos, -, hr⟩ <;>
      rcases h'.succ n with ⟨hstay', hnot'⟩ | ⟨hgo', hpos', -, hr'⟩
    · omega
    · exact absurd hr' (hnot hpos' hlt)
    · exact absurd hr (hnot' hpos (hlt.trans_le htotal))
    · omega
  · have hstep := h.succ n
    have hmono : left' n ≤ left' (n + 1) := h'.counts.mono (Nat.le_succ n)
    omega

theorem QueueRun.succ_eq_min {room : Nat} {entered entered' : Nat → Nat}
    (h : QueueRun total room ready entered left) (h' : QueueRun total' room ready' entered' left')
    (htotal : total ≤ total') (hleft : left (n + 1) = min (left' (n + 1)) total)
    (hn : entered n = min (entered' n) total) :
    entered (n + 1) = min (entered' (n + 1)) total := by
  have hstep := h.entered_succ n
  have hstep' := h'.entered_succ n
  have hle := h'.left_succ_le n
  omega

end GoesOn

namespace Trace

variable {config : Config} {t u : Trace} {left left' entered entered' : Nat → Nat}
  {f : Stage → Nat} {cycle i k n : Nat}

/-! ## What an ascending list has below a bound -/

theorem isLeast_filter_lt {is : List Nat} {bound : Nat} (hi : i < bound) :
    IsLeast {j | j ∈ is.filter (· < bound)} i ↔ IsLeast {j | j ∈ is} i := by
  have hmem {j : Nat} : j ∈ is.filter (· < bound) ↔ j ∈ is ∧ j < bound := by
    rw [List.mem_filter, decide_eq_true_eq]
  constructor
  · rintro ⟨hmi, hle⟩
    refine ⟨(hmem.1 hmi).1, fun j hj => ?_⟩
    rcases Nat.lt_or_ge j bound with hlt | hge
    · exact hle (hmem.2 ⟨hj, hlt⟩)
    · exact Nat.le_of_lt (hi.trans_le hge)
  · rintro ⟨hmi, hle⟩
    exact ⟨hmem.2 ⟨hmi, hi⟩, fun j hj => hle (hmem.1 hj).1⟩

theorem filter_lt_take {is : List Nat} (hsorted : is.Pairwise (· < ·)) (bound m : Nat) :
    (is.take m).filter (· < bound) = (is.filter (· < bound)).take m := by
  induction is generalizing m with
  | nil => simp
  | cons i is ih =>
    cases m with
    | zero => simp
    | succ m =>
      obtain ⟨hlt, hsorted⟩ := List.pairwise_cons.1 hsorted
      rcases Nat.lt_or_ge i bound with hi | hi
      · simp [hi, ih hsorted]
      · -- Nothing after `i` is below the bound either.
        have hnone : (i :: is).filter (· < bound) = [] := by
          rw [List.filter_eq_nil_iff]
          intro j hj
          rw [decide_eq_true_eq, Nat.not_lt]
          rcases List.mem_cons.1 hj with rfl | hj
          · exact hi
          · exact hi.trans (Nat.le_of_lt (hlt j hj))
        rw [hnone, List.take_nil, List.filter_eq_nil_iff]
        exact fun j hj => List.filter_eq_nil_iff.1 hnone j (List.mem_of_mem_take hj)

/-- Places in the program order are the same as long as the programs are. -/
theorem BeginsLike.getElem?_order_iff (h : u.BeginsLike t) (hi : i < t.size) :
    u.order[k]? = some i ↔ t.order[k]? = some i := by
  have hinitial {l j : Nat} (hj : t.order[l]? = some j) : u.order[l]? = some j := by
    obtain ⟨rest, hrest⟩ := h.order_initial
    rw [← hrest, List.getElem?_append_left (List.getElem?_eq_some_iff.1 hj).1, hj]
  refine ⟨fun hk => ?_, hinitial⟩
  have hmem : i ∈ t.order := by
    rw [mem_order, ← h.isScheduled hi, ← mem_order]
    exact List.mem_of_getElem? hk
  obtain ⟨l, hl⟩ := List.getElem?_of_mem hmem
  have hnodup : u.order.Nodup := u.pairwise_order.imp Nat.ne_of_lt
  obtain rfl := (List.getElem?_inj (List.getElem?_eq_some_iff.1 hk).1 hnodup).1
    (hk.trans (hinitial hl).symm)
  exact hl

/-- What passes the counters of both in the same cycle. -/
theorem BeginsLike.exists_passes_iff (h : u.BeginsLike t) (hleft' : Counts left')
    (hn : left n = min (left' n) t.order.length)
    (hsucc : left (n + 1) = min (left' (n + 1)) t.order.length) (hi : i < t.size) :
    (∃ k, u.order[k]? = some i ∧ Passes left' k (n + 1)) ↔
      ∃ k, t.order[k]? = some i ∧ Passes left k (n + 1) := by
  refine exists_congr fun k => ?_
  rw [h.getElem?_order_iff hi, passes_succ_iff, passes_succ_iff]
  refine and_congr_right fun hk => ?_
  have hlt : k < t.order.length := (List.getElem?_eq_some_iff.1 hk).1
  have := hleft'.succ n
  omega

/-! ## One cycle of two schedules

`u` follows `t`: in a cycle first the bus, then the units and then the stations go to the same
records in both. -/

/-- A record holds a unit in a cycle in which another one waits for a unit of the pool and gets
none. -/
def Blocks (config : Config) (t : Trace) (cycle j i : Nat) : Prop :=
  ∃ p, j ∈ t.busy config.timing cycle p ∧ i ∈ t.waiting cycle p ∧ i ∉ t.started cycle p

theorem Blocks.lt_size {j : Nat} (h : t.Blocks config cycle j i) : j < t.size := by
  obtain ⟨p, hbusy, -⟩ := h
  exact lt_size_of_poolAt (mem_busy.1 hbusy).1

/-- One more cycle of a stage is the same in both. -/
theorem Follows.stamp (h : u.Follows f t) (stage : Stage)
    (hnew : ∀ {i}, i < t.size → (u.cycleAt stage i = some (f stage + 1) ↔
      t.cycleAt stage i = some (f stage + 1))) :
    u.Follows (Function.update f stage (f stage + 1)) t where
  toBeginsLike := h.toBeginsLike
  cycleAt {s i n} hi hn := by
    by_cases hs : s = stage
    · subst hs
      rw [Function.update_self] at hn
      rcases Nat.lt_or_eq_of_le hn with hlt | rfl
      · exact h.cycleAt hi (Nat.le_of_lt_succ hlt)
      · exact hnew hi
    · rw [Function.update_of_ne hs] at hn
      exact h.cycleAt hi hn

theorem Follows.mono {g : Stage → Nat} (h : u.Follows f t) (hle : ∀ stage, g stage ≤ f stage) :
    u.Follows g t where
  toBeginsLike := h.toBeginsLike
  cycleAt hi hn := h.cycleAt hi (hn.trans (hle _))

/-- The pool of a record that both have is as full in one as in the other. -/
theorem Follows.mayLeave_iff (h : u.Follows f t)
    (hexecute : cycle ≤ f .execute + 1) (hcdb : cycle ≤ f .cdb)
    (hk : k < t.order.length) : u.MayLeave config k cycle ↔ t.MayLeave config k cycle := by
  obtain ⟨i, hi⟩ : ∃ i, t.order[k]? = some i := ⟨_, List.getElem?_eq_getElem hk⟩
  have hsize : i < t.size := lt_size_of_isScheduled (mem_order.1 (List.mem_of_getElem? hi))
  have hi' := (h.getElem?_order_iff hsize).2 hi
  cases hp : t.poolAt i with
  | none =>
    exact iff_of_true (mayLeave_of_control hi' ((h.poolAt hsize).trans hp) cycle)
      (mayLeave_of_control hi hp cycle)
  | some p =>
    have hsame : u.unfinishedBelow config.timing cycle p i =
        t.unfinishedBelow config.timing cycle p i := by
      rw [← h.filter_unfinishedBelow hexecute hcdb, eq_comm, List.filter_eq_self]
      exact fun j hj => decide_eq_true ((mem_unfinishedBelow.1 hj).1.trans hsize)
    rw [mayLeave_iff_of_pool hi' ((h.poolAt hsize).trans hp), mayLeave_iff_of_pool hi hp, hsame]

/-- If the same leaves the queues, the same enters them. -/
theorem Fetched.entered_eq_min (hu : u.Fetched config entered' left')
    (ht : t.Fetched config entered left) (h : u.BeginsLike t)
    (hleft : ∀ n, left n = min (left' n) t.order.length) (n : Nat) :
    entered n = min (entered' n) t.order.length := by
  induction n with
  | zero => rw [ht.queue.entered_zero, hu.queue.entered_zero, Nat.zero_min]
  | succ n ih =>
    exact ht.queue.succ_eq_min hu.queue h.order_initial.length_le (hleft (n + 1)) ih

namespace Lawful

section Cycle

variable (hu : u.Lawful config left') (ht : t.Lawful config left) (h : u.Follows f t)

include hu ht h

/-- **The bus goes to the same record.** -/
theorem cdb_iff (hexecute : cycle ≤ f .execute + 1) (hcdb : cycle ≤ f .cdb + 1) (hi : i < t.size) :
    u.cycleAt .cdb i = some cycle ↔ t.cycleAt .cdb i = some cycle := by
  rw [hu.cdb, ht.cdb, ← h.filter_contending hexecute hcdb,
    isLeast_filter_lt hi]

/-- **The same records start**: if a record that only `u` has holds a unit, then for none of the
others the units run short. -/
theorem filter_started (hissue : cycle ≤ f .issue + 1) (hexecute : cycle ≤ f .execute + 1)
    (hcdb : cycle ≤ f .cdb) (hfree : ∀ i < t.size, ∀ j ≥ t.size, ¬ u.Blocks config cycle j i)
    (p : Pool) : (u.started cycle p).filter (· < t.size) = t.started cycle p := by
  have hwaiting := h.filter_waiting hissue hexecute (Nat.le_succ_of_le hcdb) p
  have hbusy : (u.busy config.timing cycle p).filter (· < t.size) = t.busy config.timing cycle p :=
    h.filter_busy hexecute hcdb p
  by_cases hyounger : ∃ j ∈ u.busy config.timing cycle p, t.size ≤ j
  · obtain ⟨j, hj, hge⟩ := hyounger
    have hall : (u.started cycle p).filter (· < t.size) = t.waiting cycle p := by
      rw [← hwaiting]
      refine ((pairwise_started u cycle p).filter _).eq_of_mem_iff
        ((pairwise_waiting u cycle p).filter _) fun i => ?_
      rw [List.mem_filter, List.mem_filter, decide_eq_true_eq]
      refine and_congr_left fun hi => ⟨fun hs => ?_, fun hw => ?_⟩
      · rw [hu.started] at hs
        exact List.mem_of_mem_take hs
      · by_contra hs
        exact hfree i hi j hge ⟨p, hj, hw, hs⟩
    have hlength : (t.waiting cycle p).length ≤
        (config.pools p).units - (t.busy config.timing cycle p).length :=
      calc (t.waiting cycle p).length
          = ((u.started cycle p).filter (· < t.size)).length := by rw [hall]
        _ ≤ (u.started cycle p).length := List.length_filter_le ..
        _ ≤ (config.pools p).units - (u.busy config.timing cycle p).length := by
          rw [hu.started]
          exact List.length_take_le ..
        _ ≤ (config.pools p).units - (t.busy config.timing cycle p).length :=
          Nat.sub_le_sub_left (hbusy ▸ List.length_filter_le ..) _
    rw [hall, ht.started, List.take_of_length_le hlength]
  · push Not at hyounger
    have hsame : t.busy config.timing cycle p = u.busy config.timing cycle p := by
      rw [← hbusy, List.filter_eq_self]
      exact fun j hj => decide_eq_true (hyounger j hj)
    rw [hu.started, ht.started, filter_lt_take (pairwise_waiting u cycle p), hwaiting, hsame]

theorem execute_iff (hissue : cycle ≤ f .issue + 1) (hexecute : cycle ≤ f .execute + 1)
    (hcdb : cycle ≤ f .cdb) (hfree : ∀ i < t.size, ∀ j ≥ t.size, ¬ u.Blocks config cycle j i)
    (hi : i < t.size) :
    u.cycleAt .execute i = some cycle ↔ t.cycleAt .execute i = some cycle := by
  have hstarted (p : Pool) : i ∈ u.started cycle p ↔ i ∈ t.started cycle p := by
    rw [← filter_started hu ht h hissue hexecute hcdb hfree p, List.mem_filter,
      decide_eq_true_eq, and_iff_left hi]
  constructor
  · intro hn
    obtain ⟨p, hp⟩ := hu.pooled hn
    exact (mem_started.1 ((hstarted p).1 (mem_started.2 ⟨hp, hn⟩))).2
  · intro hn
    obtain ⟨p, hp⟩ := ht.pooled hn
    exact (mem_started.1 ((hstarted p).2 (mem_started.2 ⟨hp, hn⟩))).2

end Cycle

/-! ## All cycles of two schedules -/

section Run

variable (hu : u.Lawful config left') (ht : t.Lawful config left) (hbegins : u.BeginsLike t)
  (hfree : ∀ cycle, ∀ i < t.size, ∀ j ≥ t.size, ¬ u.Blocks config cycle j i)

include hu ht hbegins hfree

/-- **Behind the queue the schedules are the same**, and up to the end of the shorter program as
much has left the queue. -/
theorem follows (n : Nat) :
    u.Follows (Function.update (fun _ => n) .dispatch 0) t ∧
      left n = min (left' n) t.order.length := by
  induction n with
  | zero =>
    refine ⟨⟨hbegins, fun {stage i n} _ hn => ?_⟩, ?_⟩
    · have hzero : n = 0 := by
        rw [Function.update_apply, ite_self] at hn
        exact Nat.le_zero.1 hn
      subst hzero
      exact iff_of_false (hu.cycleAt_ne_zero stage i) (ht.cycleAt_ne_zero stage i)
    · rw [ht.leaves.zero, hu.leaves.zero, Nat.zero_min]
  | succ n ih =>
    obtain ⟨h, hleft⟩ := ih
    have h₁ := h.stamp .cdb fun hi =>
      cdb_iff hu ht h (Nat.le_refl _) (Nat.le_refl _) hi
    have h₂ := h₁.stamp .execute fun hi =>
      execute_iff hu ht h₁ (Nat.le_refl _) (Nat.le_refl _) (Nat.le_refl _)
        (hfree (n + 1)) hi
    have hsucc := ht.leaves.succ_eq_min hu.leaves hbegins.order_initial.length_le
      (fun k hk => h₂.mayLeave_iff (Nat.le_succ _) (Nat.le_refl _) hk) hleft
    have h₃ := h₂.stamp .issue fun hi => by
      rw [hu.issue, ht.issue, hbegins.poolAt hi]
      exact and_congr_right fun _ =>
        hbegins.exists_passes_iff hu.leaves.counts hleft hsucc hi
    refine ⟨h₃.mono fun stage => ?_, hsucc⟩
    cases stage <;> exact Nat.le_refl _

/-- On the records they share the schedules are the same, from the stations on. -/
theorem cycleAt_eq_of_ne {stage : Stage} (hstage : stage ≠ .dispatch) (hi : i < t.size) :
    u.cycleAt stage i = t.cycleAt stage i := by
  refine Option.ext fun n => (follows hu ht hbegins hfree n).1.cycleAt hi ?_
  rw [Function.update_of_ne hstage]

/-- If the queues have the same room, also in front of them. -/
theorem cycleAt_eq (hfu : u.Fetched config entered' left') (hft : t.Fetched config entered left)
    (stage : Stage) (hi : i < t.size) : u.cycleAt stage i = t.cycleAt stage i := by
  by_cases hstage : stage = .dispatch
  · subst hstage
    refine Option.ext fun n => ?_
    cases n with
    | zero => exact iff_of_false (hu.cycleAt_ne_zero .dispatch i) (ht.cycleAt_ne_zero .dispatch i)
    | succ n =>
      have hfollows := follows hu ht hbegins hfree
      have hentered := hfu.entered_eq_min hft hbegins fun n => (hfollows n).2
      rw [hfu.dispatch, hft.dispatch]
      exact hbegins.exists_passes_iff hfu.queue.counts_entered (hentered n) (hentered (n + 1)) hi
  · exact cycleAt_eq_of_ne hu ht hbegins hfree hstage hi

/-- **The shorter program is over first.** -/
theorem isOver_of_isOver (hover : u.IsOver config left' n) : t.IsOver config left n := by
  have hfollows := follows hu ht hbegins hfree
  refine ⟨?_, fun {i p} hp => ?_, fun i hi => ?_⟩
  · rw [(hfollows n).2, hover.left]
    exact Nat.min_eq_right hbegins.order_initial.length_le
  · have hsize := lt_size_of_poolAt hp
    obtain ⟨f, hf, hle⟩ := hover.finished ((hbegins.poolAt hsize).trans hp)
    exact ⟨f, ((hfollows f).1.finishAt_iff hsize (Nat.le_succ f) (Nat.le_refl f)).1
      hf, hle⟩
  · exact hover.bus i (((hfollows n).1.cycleAt (lt_size_of_cycleAt hi) (Nat.le_refl n)).2 hi)

end Run

end Lawful

end Trace

/-! ## Two runs -/

/-- **A run that begins like a shorter one** on machines with the same queue and pools gives the
records of the shorter one the same stamps and takes no fewer cycles, unless one of its further
records blocks one of them. -/
theorem schedule_follows {rs rs' : List Record} {config config' : Config} {T T' : Nat}
    {t t' : Trace} (hqueue : config'.queue = config.queue) (hpools : config'.pools = config.pools)
    (h : schedule (Trace.ofList rs) config = .ok (T, t))
    (h' : schedule (Trace.ofList rs') config' = .ok (T', t'))
    (hbegins : (Trace.ofList rs').BeginsLike (Trace.ofList rs))
    (hfree : ∀ cycle, ∀ i < rs.length, ∀ j ≥ rs.length, ¬ t'.Blocks config cycle j i) :
    (∀ stage, ∀ i < rs.length, t'.cycleAt stage i = t.cycleAt stage i) ∧ T ≤ T' := by
  obtain ⟨entered, left, -, hprogram, hlawful, hfetched, hleast⟩ := lawful_of_schedule h
  obtain ⟨entered', left', -, hprogram', hlawful', hfetched', hleast'⟩ := lawful_of_schedule h'
  replace hlawful' := hlawful'.congr hpools
  replace hfetched' := hfetched'.congr hpools hqueue
  replace hbegins := hbegins.of_unscheduled hprogram' hprogram
  rw [← Trace.size_ofList, ← Trace.size_eq_of_unscheduled hprogram] at hfree ⊢
  refine ⟨fun stage i hi => Trace.Lawful.cycleAt_eq hlawful' hlawful hbegins hfree
    hfetched' hfetched stage hi, ?_⟩
  obtain ⟨⟨hpos, hover⟩, -⟩ := hleast'
  exact hleast.2 ⟨hpos, Trace.Lawful.isOver_of_isOver hlawful' hlawful hbegins hfree
    (hover.congr hpools)⟩

/-! ## Only dependences matter -/

/-- **Only true dependences matter.**  Two programs of the same length, with the same classes and in
which the records of a pool depend on the same records, take the same number of cycles on machines
that differ in the size of the register map only, and every record has the same stamps.  Which
registers carry the dependences, and how often they are used again, does not show. -/
theorem schedule_of_dependences {rs rs' : List Record} {config config' : Config}
    (hconfig : config.check = .ok ()) (hconfig' : config'.check = .ok ())
    (hqueue : config'.queue = config.queue) (hpools : config'.pools = config.pools)
    (haccepted : (Trace.ofList rs).Accepted config.registers)
    (haccepted' : (Trace.ofList rs').Accepted config'.registers)
    (hlength : rs'.length = rs.length)
    (hclass : ∀ i < rs.length, (Trace.ofList rs').classAt i = (Trace.ofList rs).classAt i)
    (hdepends : ∀ i p, (Trace.ofList rs).poolAt i = some p →
      ∀ w, (Trace.ofList rs').DependsOn i w ↔ (Trace.ofList rs).DependsOn i w) :
    ∃ T t t', schedule (Trace.ofList rs) config = .ok (T, t) ∧
      schedule (Trace.ofList rs') config' = .ok (T, t') ∧
      ∀ stage i, t'.cycleAt stage i = t.cycleAt stage i := by
  obtain ⟨T, t, -, -, h, hprogram, -⟩ := exists_lawful hconfig haccepted
  obtain ⟨T', t', -, -, h', hprogram', -⟩ := exists_lawful hconfig' haccepted'
  have hsize : t.size = rs.length := by
    rw [Trace.size_eq_of_unscheduled hprogram, Trace.size_ofList]
  have hsize' : t'.size = rs.length := by
    rw [Trace.size_eq_of_unscheduled hprogram', Trace.size_ofList, hlength]
  have hbegins : (Trace.ofList rs').BeginsLike (Trace.ofList rs) :=
    ⟨by simp [hlength], fun hi => hclass _ (by simpa using hi), fun hp => hdepends _ _ hp⟩
  obtain ⟨hcycle, hle⟩ := schedule_follows hqueue hpools h h' hbegins fun _ _ _ j hj hblocks =>
    Nat.not_lt.2 hj (hsize' ▸ hblocks.lt_size)
  obtain ⟨-, hge⟩ := schedule_follows hqueue.symm hpools.symm h' h
    (hbegins.symm (by simp [hlength])) fun _ _ _ j hj hblocks =>
      Nat.not_lt.2 (hlength ▸ hj) (hsize ▸ hblocks.lt_size)
  obtain rfl := Nat.le_antisymm hle hge
  refine ⟨T, t, t', h, h', fun stage i => ?_⟩
  by_cases hi : i < rs.length
  · exact hcycle stage i hi
  · rw [Trace.cycleAt, Trace.getElem?_eq_none (hsize' ▸ hi), Trace.cycleAt,
      Trace.getElem?_eq_none (hsize ▸ hi)]

/-- The load overtakes the `fp` record whose result it overwrites, on a register map of 70 registers
as on one of three. -/
theorem schedule_of_dependences_sample :
    ∃ T t t', schedule (Trace.ofList reusingProgram) smallMachine = .ok (T, t) ∧
      schedule (Trace.ofList renamedProgram) { smallMachine with registers := 3 } = .ok (T, t') ∧
      ∀ stage i, t'.cycleAt stage i = t.cycleAt stage i := by
  have hbelow : ∀ i < 4, ∀ w < 4, (Trace.ofList renamedProgram).DependsOn i w ↔
      (Trace.ofList reusingProgram).DependsOn i w := by decide +kernel
  refine schedule_of_dependences (by decide) (by decide) rfl rfl (by decide +kernel)
    (by decide +kernel) rfl (by decide +kernel) fun i p hp w => ?_
  have hi : i < 4 := Trace.lt_size_of_poolAt hp
  exact ⟨fun h => (hbelow i hi w (h.lt.trans hi)).1 h, fun h => (hbelow i hi w (h.lt.trans hi)).2 h⟩

end Tomasulo
