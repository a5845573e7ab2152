import Mathlib.Order.Bounds.Basic
import Tomasulo.Proofs.Run

/-!
# Proofs/ProgramOrder — the front end in program order

Records enter and leave the fetch queue in program order, so all there is to know of the queue is
how many have entered and how many have left.  `QueueRun` is a bounded queue as two counters; what
its counters pass when follows from their steps alone.  A run of the machine is such a queue
(`Simulation.queueRun`), and its recurrence is the law of the front end.
-/

namespace Tomasulo

/-! ## Counters -/

/-- The counter passes `k` in cycle `c`. -/
def Passes (f : Nat → Nat) (k c : Nat) : Prop :=
  ∃ n, c = n + 1 ∧ f n = k ∧ f (n + 1) = k + 1

/-- The counter starts at zero and goes up by at most one in a cycle. -/
structure Counts (f : Nat → Nat) : Prop where
  zero : f 0 = 0
  succ : ∀ n, f (n + 1) = f n ∨ f (n + 1) = f n + 1

namespace Counts

variable {f : Nat → Nat} {k l c d m n : Nat}

theorem mono (h : Counts f) (hle : m ≤ n) : f m ≤ f n := by
  induction n, hle using Nat.le_induction with
  | base => exact Nat.le_refl _
  | succ n hle ih =>
    have := h.succ n
    omega

/-- A counter is beyond what it passes from that cycle on. -/
theorem lt_iff (h : Counts f) (hpass : Passes f k c) : k < f n ↔ c ≤ n := by
  obtain ⟨m, rfl, hm, hm'⟩ := hpass
  constructor
  · intro hlt
    by_contra hle
    have := h.mono (Nat.le_of_lt_succ (Nat.lt_of_not_le hle))
    omega
  · intro hle
    have := h.mono hle
    omega

/-- A counter passes everything below its values. -/
theorem exists_passes (h : Counts f) (hlt : k < f n) : ∃ c, Passes f k c := by
  induction n with
  | zero =>
    rw [h.zero] at hlt
    exact absurd hlt (Nat.not_lt_zero k)
  | succ n ih =>
    by_cases hn : k < f n
    · exact ih hn
    · have := h.succ n
      exact ⟨n + 1, n, rfl, by omega, by omega⟩

/-- A counter passes one number after the other. -/
theorem passes_lt (h : Counts f) (hlt : k < l) (hk : Passes f k c) (hl : Passes f l d) : c < d := by
  obtain ⟨n, rfl, hn, -⟩ := hl
  exact Nat.lt_succ_of_le ((h.lt_iff hk).1 (hn ▸ hlt))

theorem passes_le (h : Counts f) (hle : k ≤ l) (hk : Passes f k c) (hl : Passes f l d) :
    c ≤ d := by
  have hlt := (h.lt_iff hl).2 (Nat.le_refl d)
  exact (h.lt_iff hk).1 (Nat.lt_of_le_of_lt hle hlt)

theorem passes_unique (h : Counts f) (hc : Passes f k c) (hd : Passes f k d) : c = d :=
  Nat.le_antisymm (h.passes_le (Nat.le_refl k) hc hd) (h.passes_le (Nat.le_refl k) hd hc)

end Counts

/-! ## A bounded queue -/

/-- From which cycle on what enters at place `k` is at the head of the queue: when the one before it
has left; the first, when it has entered. -/
def headFrom (leave : Nat → Nat) : Nat → Nat
  | 0 => 1
  | k + 1 => leave k

/-- **A bounded queue as two counters.**  In every cycle the head leaves if it is ready, then one
more enters if there is one and the queue has room. -/
structure QueueRun (total room : Nat) (ready : Nat → Nat → Prop) (entered left : Nat → Nat) :
    Prop where
  entered_zero : entered 0 = 0
  left_zero : left 0 = 0
  entered_succ : ∀ n,
    entered (n + 1) = entered n ∧ (entered n < total → left (n + 1) + room ≤ entered n) ∨
      entered (n + 1) = entered n + 1 ∧ entered n < total ∧ entered n < left (n + 1) + room
  left_succ : ∀ n,
    left (n + 1) = left n ∧ (left n < entered n → ¬ ready (left n) (n + 1)) ∨
      left (n + 1) = left n + 1 ∧ left n < entered n ∧ ready (left n) (n + 1)

namespace QueueRun

variable {total room k d e : Nat} {ready : Nat → Nat → Prop} {entered left : Nat → Nat}
  (h : QueueRun total room ready entered left)

include h

theorem counts_entered : Counts entered where
  zero := h.entered_zero
  succ n := by
    have := h.entered_succ n
    omega

theorem counts_left : Counts left where
  zero := h.left_zero
  succ n := by
    rcases h.left_succ n with ⟨heq, -⟩ | ⟨heq, -⟩
    · exact .inl heq
    · exact .inr heq

/-- Nothing leaves in the cycle in which it enters. -/
theorem enters_lt_leaves (hd : Passes entered k d) (he : Passes left k e) : d < e := by
  obtain ⟨n, rfl, hn, hn'⟩ := he
  refine Nat.lt_succ_of_le ((h.counts_entered.lt_iff hd).1 ?_)
  rcases h.left_succ n with ⟨heq, -⟩ | ⟨-, hlt, -⟩
  · omega
  · rwa [hn] at hlt

/-- The first enters in the first cycle. -/
theorem enters_zero (hroom : 0 < room) (htotal : 0 < total) : Passes entered 0 1 := by
  refine ⟨0, rfl, h.entered_zero, ?_⟩
  have hzero := h.entered_zero
  have hentered := h.entered_succ 0
  have hleft : left 1 = 0 := by
    rcases h.left_succ 0 with ⟨heq, -⟩ | ⟨-, hlt, -⟩
    · rw [heq, h.left_zero]
    · omega
  rw [Nat.zero_add] at hentered ⊢
  omega

/-- **When the next enters**: one cycle later, or as soon as there is room. -/
theorem enters_succ {d' : Nat} (hd : Passes entered k d) (hd' : Passes entered (k + 1) d')
    (he : room ≤ k + 1 → Passes left (k + 1 - room) e) :
    d' = max (d + 1) (if room ≤ k + 1 then e else 0) := by
  apply Nat.le_antisymm
  · -- By then the queue has had room for it.
    by_contra hlate
    rw [Nat.not_le, Nat.max_lt] at hlate
    obtain ⟨n, rfl, hn, hn'⟩ := hd'
    obtain ⟨m, hm⟩ : ∃ m, n = m + 1 := ⟨n - 1, by omega⟩
    subst hm
    have hdm := (h.counts_entered.lt_iff (n := m) hd).2 (by omega)
    have hle := h.counts_entered.mono (Nat.le_succ m)
    have hroom : room ≤ k + 1 → k + 1 - room < left (m + 1) := fun hr =>
      (h.counts_left.lt_iff (he hr)).2 (by rw [if_pos hr] at hlate; omega)
    have htotal := h.entered_succ (m + 1)
    have hstep := h.entered_succ m
    omega
  · obtain ⟨n, rfl, hn, hn'⟩ := hd'
    refine Nat.max_le.2 ⟨?_, ?_⟩
    · exact Nat.succ_le_succ ((h.counts_entered.lt_iff hd).1 (by omega))
    · split
      · next hr =>
        refine (h.counts_left.lt_iff (he hr)).1 ?_
        have := h.entered_succ n
        omega
      · exact Nat.zero_le _

/-- The next has entered before the head leaves. -/
theorem enters_le_leaves {d' : Nat} (hroom : 0 < room) (hd' : Passes entered (k + 1) d')
    (he : Passes left k e) : d' ≤ e := by
  have hk : k < entered d' :=
    Nat.lt_of_succ_lt ((h.counts_entered.lt_iff hd').2 (Nat.le_refl d'))
  obtain ⟨d, hd⟩ := h.counts_entered.exists_passes hk
  have hlt := h.enters_lt_leaves hd he
  by_cases hr : room ≤ k + 1
  · have hleft : k + 1 - room < left e :=
      Nat.lt_of_le_of_lt (by omega) ((h.counts_left.lt_iff he).2 (Nat.le_refl e))
    obtain ⟨c, hc⟩ := h.counts_left.exists_passes hleft
    have hce := h.counts_left.passes_le (by omega) hc he
    have := h.enters_succ hd hd' fun _ => hc
    rw [if_pos hr] at this
    omega
  · have := h.enters_succ (e := 0) hd hd' fun hr' => absurd hr' hr
    rw [if_neg hr] at this
    omega

/-- The next is at the head from when the one before it has left. -/
theorem head_succ_iff {d' : Nat} (hroom : 0 < room) (hd' : Passes entered (k + 1) d')
    (he : Passes left k e) (n : Nat) : e ≤ n ↔ d' ≤ n ∧ k + 1 ≤ left n := by
  have hle := h.enters_le_leaves hroom hd' he
  have hiff := h.counts_left.lt_iff (n := n) he
  omega

/-- **When the head leaves**: in the first cycle after the one before it has left in which it is
ready. -/
theorem leaves_isLeast {before : Nat} (hd : Passes entered k d) (he : Passes left k e)
    (hbefore : ∀ n, before ≤ n ↔ d ≤ n ∧ k ≤ left n) :
    IsLeast {c | before + 1 ≤ c ∧ ready k c} e := by
  constructor
  · obtain ⟨n, rfl, hn, hn'⟩ := he
    rcases h.left_succ n with ⟨heq, -⟩ | ⟨-, hlt, hready⟩
    · omega
    · rw [hn] at hlt hready
      exact ⟨Nat.succ_le_succ ((hbefore n).2
        ⟨(h.counts_entered.lt_iff hd).1 hlt, Nat.le_of_eq hn.symm⟩), hready⟩
  · rintro c ⟨hc, hready⟩
    obtain ⟨n, rfl⟩ : ∃ n, c = n + 1 := ⟨c - 1, by omega⟩
    by_contra hlate
    have hstill : ¬ k < left (n + 1) := fun hlt => hlate ((h.counts_left.lt_iff he).1 hlt)
    obtain ⟨hdn, hkn⟩ := (hbefore n).1 (Nat.le_of_succ_le_succ hc)
    have hkd := (h.counts_entered.lt_iff hd).2 hdn
    have hmono : left n ≤ left (n + 1) := h.counts_left.mono (Nat.le_succ n)
    have hk : left n = k := by omega
    rcases h.left_succ n with ⟨-, hnot⟩ | ⟨heq, -⟩
    · rw [hk] at hnot
      exact hnot hkd hready
    · omega

/-! ### The recurrence -/

section Law

variable (hroom : 0 < room) {dispatch leave : Nat → Nat}
  (hpass : ∀ k < total, Passes entered k (dispatch k) ∧ Passes left k (leave k))

include hroom hpass

theorem dispatch_eq (hk : k < total) : dispatch k =
    if k = 0 then 1 else
      max (dispatch (k - 1) + 1) (if room ≤ k then leave (k - room) else 0) := by
  cases k with
  | zero => exact h.counts_entered.passes_unique (hpass 0 hk).1 (h.enters_zero hroom hk)
  | succ j =>
    rw [if_neg (Nat.succ_ne_zero j)]
    exact h.enters_succ (hpass j (Nat.lt_of_succ_lt hk)).1 (hpass (j + 1) hk).1 fun _ =>
      (hpass (j + 1 - room) (Nat.lt_of_le_of_lt (Nat.sub_le ..) hk)).2

theorem leave_isLeast (hk : k < total) :
    IsLeast {c | headFrom leave k + 1 ≤ c ∧ ready k c} (leave k) := by
  refine h.leaves_isLeast (hpass k hk).1 (hpass k hk).2 fun n => ?_
  cases k with
  | zero =>
    rw [h.counts_entered.passes_unique (hpass 0 hk).1 (h.enters_zero hroom hk)]
    exact (and_iff_left (Nat.zero_le _)).symm
  | succ j => exact h.head_succ_iff hroom (hpass (j + 1) hk).1 (hpass j (Nat.lt_of_succ_lt hk)).2 n

end Law

end QueueRun

/-! ## The fetch queue -/

/-- The record at place `k` of the program order need not wait in front of its pool: it goes to
none, or fewer older records of the pool are unfinished than the pool has stations. -/
def Trace.MayLeave (config : Config) (t : Trace) (k cycle : Nat) : Prop :=
  ∀ i p, t.order[k]? = some i → t.poolAt i = some p →
    (t.unfinishedBelow config.timing cycle p i).length < (config.pools p).stations

theorem Trace.mayLeave_of_control {config : Config} {t : Trace} {k i : Nat}
    (hi : t.order[k]? = some i) (hpool : t.poolAt i = none) (cycle : Nat) :
    t.MayLeave config k cycle := by
  intro j p hj hp
  obtain rfl := Option.some.inj (hi.symm.trans hj)
  rw [hpool] at hp
  cases hp

theorem Trace.mayLeave_iff_of_pool {config : Config} {t : Trace} {k i : Nat} {p : Pool}
    (hi : t.order[k]? = some i) (hpool : t.poolAt i = some p) (cycle : Nat) :
    t.MayLeave config k cycle ↔
      (t.unfinishedBelow config.timing cycle p i).length < (config.pools p).stations := by
  refine ⟨fun h => h i p hi hpool, fun h j q hj hq => ?_⟩
  obtain rfl := Option.some.inj (hi.symm.trans hj)
  obtain rfl := Option.some.inj (hpool.symm.trans hq)
  exact h

theorem Trace.AgreesUpTo.mayLeave_iff {now : Nat} {t u : Trace} (h : AgreesUpTo now t u)
    (config : Config) {k cycle : Nat} (hle : cycle ≤ now) :
    t.MayLeave config k cycle ↔ u.MayLeave config k cycle := by
  simp only [MayLeave, h.order, h.poolAt, h.unfinishedBelow config hle]

namespace Core

variable {config : Config} {program : Trace} {c c' : Core} {n k i : Nat}

/-- The number of records that have entered the queue. -/
def entered (c : Core) : Nat :=
  (c.trace.scheduledBelow c.machine.cursor).length

/-- The number of records that have left the queue. -/
def exited (c : Core) : Nat :=
  c.entered - c.queued.length

theorem Sound.exited_add_length (h : c.Sound config program) :
    c.exited + c.queued.length = c.entered := by
  have hle := h.queue.length_le
  rw [← h.scheduledBelow_trace] at hle
  exact Nat.sub_add_cancel hle

/-- **The queue is a stretch of the program.** -/
theorem Sound.queued_eq (h : c.Sound config program) :
    c.queued = (program.order.take c.entered).drop c.exited := by
  have htake := List.prefix_iff_eq_take.1 (program.scheduledBelow_initial h.cursor_le)
  rw [exited, entered, h.scheduledBelow_trace, ← htake]
  exact List.suffix_iff_eq_drop.1 h.queue

theorem Sound.entered_le (h : c.Sound config program) :
    c.entered ≤ program.order.length := by
  rw [entered, h.scheduledBelow_trace]
  exact (program.scheduledBelow_initial h.cursor_le).length_le

/-- A record of the program is in the queue when it has entered and not left. -/
theorem Sound.mem_queued_iff (h : c.Sound config program)
    (hi : program.order[k]? = some i) :
    i ∈ c.queued ↔ c.exited ≤ k ∧ k < c.entered := by
  have hnodup : program.order.Nodup := program.pairwise_order.imp Nat.ne_of_lt
  rw [h.queued_eq, List.mem_iff_getElem?]
  constructor
  · rintro ⟨m, hm⟩
    rw [List.getElem?_drop, List.getElem?_take] at hm
    split at hm
    · next hlt =>
      have hk : k = c.exited + m := by
        obtain ⟨hk, -⟩ := List.getElem?_eq_some_iff.1 hi
        exact (List.getElem?_inj hk hnodup).1 (hi.trans hm.symm)
      omega
    · cases hm
  · rintro ⟨hle, hlt⟩
    refine ⟨k - c.exited, ?_⟩
    rw [List.getElem?_drop, List.getElem?_take, Nat.add_sub_cancel' hle, if_pos hlt, hi]

/-- The head of the queue is the next record that has not left. -/
theorem Sound.head?_queued (h : c.Sound config program) :
    c.queued.head? =
      if c.exited < c.entered then program.order[c.exited]? else none := by
  rw [h.queued_eq, List.head?_drop, List.getElem?_take]

section Cycle

variable (h : c.Valid config program n) (heffect : Effect config (n + 1) c c')

include h heffect

theorem Effect.entered_eq : c'.entered =
    c.entered + (c.incoming config (n + 1) c'.trace).toList.length := by
  rw [entered, heffect.passed, List.length_append, (heffect.valid h).sound.scheduledBelow_trace,
    entered, h.sound.scheduledBelow_trace]

theorem Effect.exited_eq : c'.exited =
    c.exited + (c.departing config (n + 1) c'.trace).toList.length := by
  have hlength := congrArg List.length heffect.queued
  have hsum := h.sound.exited_add_length
  have hsum' := (heffect.valid h).sound.exited_add_length
  have hentered := heffect.entered_eq h
  rw [List.length_append] at hlength
  have hremaining : (c.remaining config (n + 1) c'.trace).length +
      (c.departing config (n + 1) c'.trace).toList.length = c.queued.length := by
    rw [remaining]
    cases hd : c.departing config (n + 1) c'.trace with
    | none => rfl
    | some i =>
      obtain ⟨hhead, -⟩ := Option.filter_eq_some_iff.1 hd
      obtain ⟨rest, hcons⟩ := List.head?_eq_some_iff.1 hhead
      rw [hcons]
      rfl
  omega

/-- Who enters the queue is the next record of the program. -/
theorem Effect.getElem?_entered (hi : c.incoming config (n + 1) c'.trace = some i) :
    program.order[c.entered]? = some i := by
  have htake := List.prefix_iff_eq_take.1
    (program.scheduledBelow_initial (heffect.valid h).sound.cursor_le)
  have hpassed := heffect.passed
  rw [(heffect.valid h).sound.scheduledBelow_trace,
    (heffect.valid h).sound.scheduledBelow_trace, hi, Option.toList_some] at hpassed
  have hget : (program.scheduledBelow c'.machine.cursor)[c.entered]? = some i := by
    rw [hpassed, entered, h.sound.scheduledBelow_trace]
    exact List.getElem?_concat_length ..
  rw [htake, List.getElem?_take] at hget
  split at hget
  · exact hget
  · cases hget

theorem Effect.length_remaining :
    c'.exited + (c.remaining config (n + 1) c'.trace).length = c.entered := by
  have hlength := congrArg List.length heffect.queued
  have hsum := (heffect.valid h).sound.exited_add_length
  have hentered := heffect.entered_eq h
  rw [List.length_append] at hlength
  omega

/-- **What the tail of the queue does**: one more enters if there is one and the queue has room. -/
theorem Effect.entered_cases :
    c'.entered = c.entered ∧ (c.entered < program.order.length →
        c'.exited + config.queue ≤ c.entered) ∨
      c'.entered = c.entered + 1 ∧ c.entered < program.order.length ∧
        c.entered < c'.exited + config.queue := by
  have hremaining := heffect.length_remaining h
  have hentered := heffect.entered_eq h
  cases hin : c.incoming config (n + 1) c'.trace with
  | none =>
    rw [hin] at hentered
    refine .inl ⟨hentered, fun hlt => ?_⟩
    by_contra hroom
    have hcursor := heffect.exhausted (by omega) hin
    rw [entered, hcursor, ← Trace.order, (heffect.valid h).sound.order_trace] at hentered
    exact Nat.lt_irrefl _ (hentered ▸ hlt)
  | some i =>
    have hget := heffect.getElem?_entered h hin
    rw [hin] at hentered
    refine .inr ⟨hentered, (List.getElem?_eq_some_iff.1 hget).1, ?_⟩
    rw [incoming] at hin
    split at hin
    · cases hin
    · omega

/-- **What the head of the queue does**: it leaves if its pool has room. -/
theorem Effect.exited_cases :
    c'.exited = c.exited ∧
        (c.exited < c.entered → ¬ c'.trace.MayLeave config c.exited (n + 1)) ∨
      c'.exited = c.exited + 1 ∧ c.exited < c.entered ∧
        c'.trace.MayLeave config c.exited (n + 1) := by
  have hexited := heffect.exited_eq h
  have hhead := h.sound.head?_queued
  have horder := (heffect.valid h).sound.order_trace
  cases hd : c.departing config (n + 1) c'.trace with
  | none =>
    rw [hd] at hexited
    refine .inl ⟨hexited, fun hlt hmay => ?_⟩
    rw [if_pos hlt] at hhead
    obtain ⟨i, hi⟩ : ∃ i, program.order[c.exited]? = some i :=
      ⟨_, List.getElem?_eq_getElem (Nat.lt_of_lt_of_le hlt h.sound.entered_le)⟩
    rw [departing, hhead, hi, Option.filter_some, ite_eq_right_iff] at hd
    have hall := fun p hp => decide_eq_true (hmay i p (horder ▸ hi) hp)
    cases hd ((Option.all_eq_true _ _).2 hall)
  | some i =>
    rw [hd] at hexited
    obtain ⟨hi, hall⟩ := Option.filter_eq_some_iff.1 hd
    rw [hhead] at hi
    split at hi
    · next hlt =>
      refine .inr ⟨hexited, hlt, fun j p hj hp => ?_⟩
      rw [horder, hi] at hj
      obtain rfl := Option.some.inj hj
      exact of_decide_eq_true ((Option.all_eq_true _ _).1 hall p hp)
    · cases hi

/-- Who enters the queue is stamped. -/
theorem Effect.dispatch_of_entered (hi : program.order[c.entered]? = some i)
    (hentered : c'.entered = c.entered + 1) : c'.trace.cycleAt .dispatch i = some (n + 1) := by
  rw [heffect.entered_eq h] at hentered
  cases hin : c.incoming config (n + 1) c'.trace with
  | none =>
    rw [hin] at hentered
    exact absurd hentered.symm (Nat.succ_ne_self _)
  | some j =>
    obtain rfl := Option.some.inj (hi.symm.trans (heffect.getElem?_entered h hin))
    exact (heffect.dispatch i).2 hin

/-- Who leaves the queue for a pool is stamped. -/
theorem Effect.issue_of_exited (hi : program.order[c.exited]? = some i)
    (hpool : (c'.trace.poolAt i).isSome = true) (hexited : c'.exited = c.exited + 1) :
    c'.trace.cycleAt .issue i = some (n + 1) := by
  rw [heffect.exited_eq h] at hexited
  cases hd : c.departing config (n + 1) c'.trace with
  | none =>
    rw [hd] at hexited
    exact absurd hexited.symm (Nat.succ_ne_self _)
  | some j =>
    have hhead := (Option.filter_eq_some_iff.1 hd).1
    rw [h.sound.head?_queued] at hhead
    split at hhead
    · obtain rfl := Option.some.inj (hi.symm.trans hhead)
      exact (heffect.issue i).2 ⟨hd, hpool⟩
    · cases hhead

end Cycle

/-- In a drained core everything has entered the queue and left it. -/
theorem Sound.counts_of_drained (h : c.Sound config program) (hdrained : c.isDrained = true) :
    c.entered = program.order.length ∧ c.exited = program.order.length := by
  obtain ⟨hqueue, -, -, -, hcursor⟩ := isDrained_iff.1 hdrained
  have hend : c.machine.cursor = program.size :=
    Nat.le_antisymm h.cursor_le (h.size_trace ▸ hcursor)
  have hentered : c.entered = program.order.length := by
    rw [entered, h.scheduledBelow_trace, hend, ← Trace.order]
  refine ⟨hentered, ?_⟩
  rw [exited, hentered, queued, hqueue]
  rfl

end Core

/-! ## The front end of a run -/

namespace Simulation

variable {rs : List Record} {config : Config} {s₀ : Simulation} {T : Nat}
  (hs : ofTrace (Trace.ofList rs) config = .ok s₀)
  (haccepted : (Trace.ofList rs).Accepted config.registers)
  (hdrained : (s₀.after T).core.isDrained = true)

include hs haccepted hdrained

/-- **The fetch queue of a run is a bounded queue**: its head is ready when its pool has room. -/
theorem queueRun : QueueRun (Trace.ofList rs).order.length config.queue
    ((s₀.after T).core.trace.MayLeave config) (fun n => (s₀.after n).core.entered)
    (fun n => (s₀.after n).core.exited) := by
  have hstart : (s₀.after 0).core.entered = 0 := by
    rw [after_zero, (ofTrace_eq_ok_iff.1 hs).2]
    rfl
  refine ⟨hstart, ?_, fun n => ?_, fun n => ?_⟩
  · have hle : (s₀.after 0).core.exited ≤ (s₀.after 0).core.entered := Nat.sub_le ..
    exact Nat.le_zero.1 (hle.trans_eq hstart)
  · exact (tick_ok hs haccepted n).2.entered_cases (valid_after hs n)
  · have hcases := (tick_ok hs haccepted n).2.exited_cases (valid_after hs n)
    rwa [(agrees_drained hs hdrained (n + 1)).mayLeave_iff config (Nat.le_refl _)] at hcases

/-- What passes the counters is stamped. -/
theorem dispatch_of_passes {k i d : Nat} (hi : (Trace.ofList rs).order[k]? = some i)
    (hd : Passes (fun n => (s₀.after n).core.entered) k d) :
    (s₀.after T).core.trace.cycleAt .dispatch i = some d := by
  obtain ⟨n, rfl, rfl, hn⟩ := hd
  have hstamp := (tick_ok hs haccepted n).2.dispatch_of_entered (valid_after hs n) hi hn
  exact ((agrees_drained hs hdrained (n + 1)).cycleAt (Nat.le_refl _)).1 hstamp

theorem issue_of_passes {k i e : Nat} (hi : (Trace.ofList rs).order[k]? = some i)
    (hpool : ((s₀.after T).core.trace.poolAt i).isSome = true)
    (he : Passes (fun n => (s₀.after n).core.exited) k e) :
    (s₀.after T).core.trace.cycleAt .issue i = some e := by
  obtain ⟨n, rfl, rfl, hn⟩ := he
  have hagrees := agrees_drained hs hdrained (n + 1)
  have hstamp := (tick_ok hs haccepted n).2.issue_of_exited (valid_after hs n) hi
    (hagrees.poolAt ▸ hpool) hn
  exact (hagrees.cycleAt (Nat.le_refl _)).1 hstamp

/-- Every record that takes part passes both counters. -/
theorem exists_passes (k : Nat) : ∃ d e, k < (Trace.ofList rs).order.length →
    Passes (fun n => (s₀.after n).core.entered) k d ∧
      Passes (fun n => (s₀.after n).core.exited) k e := by
  by_cases hk : k < (Trace.ofList rs).order.length
  · have hrun := queueRun hs haccepted hdrained
    obtain ⟨hentered, hexited⟩ := (valid_after hs T).sound.counts_of_drained hdrained
    obtain ⟨d, hd⟩ := hrun.counts_entered.exists_passes (n := T) (hentered.symm ▸ hk)
    obtain ⟨e, he⟩ := hrun.counts_left.exists_passes (n := T) (hexited.symm ▸ hk)
    exact ⟨d, e, fun _ => ⟨hd, he⟩⟩
  · exact ⟨0, 0, fun hk' => absurd hk' hk⟩

end Simulation

end Tomasulo
