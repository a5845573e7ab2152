import Tomasulo.Proofs.Dataflow
import Tomasulo.Proofs.Placement

/-!
# Proofs/Stamps — the stamps of a record are in order

A record passes its stages one after the other, so in every state of a run its stamps are those of
an initial stretch of its stages, each later than the one before (`Trace.Ordered`).  Which stages
there are is a matter of its class.  When the run is done nothing is missing, and everything is over
by then (`Trace.Complete`).
-/

namespace Tomasulo

namespace Trace

/-- **The stamps of a schedule after some cycles are in order**, with a timing for when a record is
done. -/
structure Ordered (d : Timing) (now : Nat) (t : Trace) : Prop where
  bounds : ∀ {stage i n}, t.cycleAt stage i = some n → 1 ≤ n ∧ n ≤ now
  issue : ∀ {i n}, t.cycleAt .issue i = some n → ∃ d, t.cycleAt .dispatch i = some d ∧ d < n
  execute : ∀ {i n}, t.cycleAt .execute i = some n → ∃ m, t.cycleAt .issue i = some m ∧ m < n
  cdb : ∀ {i n}, t.cycleAt .cdb i = some n → ∃ p b, t.poolAt i = some p ∧
    t.cycleAt .execute i = some b ∧ d p b ≤ n
  /-- The class decides which stages there are. -/
  trap : ∀ {i}, t.classAt i = some .trap → ∀ stage, t.cycleAt stage i = none
  control : ∀ {i op}, t.classAt i = some op → op.isControl = true →
    ∀ stage, stage ≠ .dispatch → t.cycleAt stage i = none
  store : ∀ {i}, t.classAt i = some .store → t.cycleAt .cdb i = none

/-- **The stamps of a schedule that is over in a cycle are complete**: every record has those of its
class, and is through with its last stage. -/
structure Complete (d : Timing) (now : Nat) (t : Trace) : Prop where
  classified : ∀ i < t.size, ∃ op, t.classAt i = some op
  dispatch : ∀ {i op}, t.classAt i = some op → op ≠ .trap →
    ∃ d, t.cycleAt .dispatch i = some d ∧ d < now
  execute : ∀ {i op}, t.classAt i = some op → op.pool.isSome = true →
    ∃ m b, t.cycleAt .issue i = some m ∧ t.cycleAt .execute i = some b
  store : ∀ {i b}, t.classAt i = some .store → t.cycleAt .execute i = some b →
    d .int b ≤ now
  cdb : ∀ {i op}, t.classAt i = some op → op.broadcasts = true →
    ∃ w, t.cycleAt .cdb i = some w ∧ w < now

section FitsWord

variable {config : Config} {t : Trace} {now : Nat} (hfits : t.FitsWord config)
  (hlatency : ∀ p, 0 < (config.pools p).latency)

include hfits hlatency

/-- If the sums fit a word the stamps are in order by the latencies. -/
theorem FitsWord.ordered (h : t.Ordered config.timing now) : t.Ordered config.nominal now :=
  { h with
    cdb := by
      intro i n hn
      obtain ⟨p, b, hp, hb, hle⟩ := h.cdb hn
      exact ⟨p, b, hp, hb, (hfits.timing_eq hlatency hp hb).symm.trans_le hle⟩ }

theorem FitsWord.complete (h : t.Complete config.timing now) : t.Complete config.nominal now :=
  { h with
    store := fun hi hb =>
      (hfits.timing_eq hlatency (poolAt_of_store hi) hb).symm.trans_le (h.store hi hb) }

end FitsWord

end Trace

namespace Core

variable {config : Config} {program : Trace} {c : Core} {n : Nat}

/-- Only what takes part is stamped, and beyond dispatch only what has a pool. -/
theorem Sound.isScheduled_of_cycleAt (h : c.Sound config program) {stage : Stage} {i m : Nat}
    (hm : c.trace.cycleAt stage i = some m) :
    program.isScheduled i = true ∧ (stage ≠ .dispatch → ∃ p, c.trace.poolAt i = some p) := by
  rcases h.issued_of_cycleAt (Option.isSome_of_eq_some hm) with rfl | hissued
  · exact ⟨(h.dispatched.1 (Option.isSome_of_eq_some hm)).2, fun hne => absurd rfl hne⟩
  · exact ⟨(h.not_queued_of_issued hissued).2.1, fun _ => h.exists_poolAt_of_issued hissued⟩

/-- **The stamps of a valid core are in order**, but for those of the front end, which the fetch
queue keeps apart. -/
theorem Valid.ordered (h : c.Valid config program n)
    (hissue : ∀ {i m}, c.trace.cycleAt .issue i = some m →
      ∃ d, c.trace.cycleAt .dispatch i = some d ∧ d < m) : c.trace.Ordered config.timing n where
  bounds hm := ⟨h.timed.cycle_pos hm, h.timed.cycle_le hm⟩
  issue := hissue
  execute {i m} hm := by
    obtain ⟨a, ha⟩ := Option.isSome_iff_exists.1 (h.sound.started (Option.isSome_of_eq_some hm))
    exact ⟨a, ha, h.timed.issue_lt ha hm⟩
  cdb {i m} hm := by
    obtain ⟨f, hf, hle⟩ := h.timed.done_le hm
    obtain ⟨p, b, hp, hb, rfl⟩ := Trace.doneAt_eq_some_iff.1 hf
    exact ⟨p, b, hp, hb, hle⟩
  trap {i} hi stage := by
    refine Option.eq_none_iff_forall_ne_some.2 fun m hm => ?_
    have hscheduled := (h.sound.isScheduled_of_cycleAt hm).1
    rw [Trace.isScheduled, ← h.sound.classAt_trace, hi] at hscheduled
    cases hscheduled
  control {i op} hi hop stage hstage := by
    refine Option.eq_none_iff_forall_ne_some.2 fun m hm => ?_
    obtain ⟨p, hp⟩ := (h.sound.isScheduled_of_cycleAt hm).2 hstage
    rw [Trace.poolAt, hi] at hp
    cases op <;> simp_all [OpClass.isControl, OpClass.pool]
  store {i} hi := by
    refine Option.eq_none_iff_forall_ne_some.2 fun m hm => ?_
    have hpublishes := (h.sound.broadcast (Option.isSome_of_eq_some hm)).1
    rw [← h.sound.publishes_trace] at hpublishes
    exact Trace.not_publishes_of_store hi hpublishes

/-- **The stamps of a drained core are complete**, if what has just been dispatched would be in the
queue. -/
theorem Valid.complete (h : c.Valid config program n) (hset : c.Settled config n)
    (hqueued : ∀ {i}, c.trace.cycleAt .dispatch i = some n → i ∈ c.queued)
    (hdrained : c.isDrained = true) : c.trace.Complete config.timing n := by
  obtain ⟨hqueue, hbus, -, -, hcursor⟩ := isDrained_iff.1 hdrained
  constructor
  case classified =>
    intro i hi
    obtain ⟨r, op, hr, hcheck⟩ := h.sound.accepted (hi.trans_le hcursor)
    refine ⟨op, ?_⟩
    rw [h.sound.classAt_trace, Trace.classAt, hr]
    exact Record.class?_eq_of_check hcheck
  case dispatch =>
    intro i op hi hop
    have hcursor' := (Trace.lt_size_of_classAt hi).trans_le hcursor
    rw [h.sound.classAt_trace] at hi
    obtain ⟨d, hd⟩ := Option.isSome_iff_exists.1
      (h.sound.dispatched.2 ⟨hcursor', Trace.isScheduled_iff.2 ⟨op, hi, hop⟩⟩)
    refine ⟨d, hd, Nat.lt_of_le_of_ne (h.timed.cycle_le hd) ?_⟩
    rintro rfl
    have hmem := hqueued hd
    rw [queued, hqueue] at hmem
    cases hmem
  case execute =>
    intro i op hi hop
    obtain ⟨p, hp⟩ := Option.isSome_iff_exists.1 hop
    obtain ⟨a, b, -, ha, hb, -⟩ :=
      h.finished_of_drained hset hdrained (Trace.poolAt_eq_some_iff.2 ⟨op, hi, hp⟩)
    exact ⟨a, b, ha, hb⟩
  case store =>
    intro i b hi hb
    obtain ⟨-, f, hf, hle⟩ := h.gone_of_drained hset hdrained (Trace.poolAt_of_store hi)
    rw [Trace.finishAt_of_store hi, hb] at hf
    exact (Option.some.inj hf).trans_le hle
  case cdb =>
    intro i op hi hop
    have hpublishes := Trace.publishes_iff.2 ⟨op, hi, hop⟩
    obtain ⟨p, hp⟩ := Trace.exists_poolAt_of_publishes hpublishes
    obtain ⟨-, w, hw, hle⟩ := h.gone_of_drained hset hdrained hp
    rw [Trace.finishAt_of_publishes hpublishes] at hw
    refine ⟨w, hw, Nat.lt_of_le_of_ne hle ?_⟩
    rintro rfl
    rw [(hset.bus i).2 hw] at hbus
    cases hbus

end Core

/-! ## The stamps of a run -/

namespace Simulation

variable {rs : List Record} {config : Config} {s₀ : Simulation}
  (hs : ofTrace (Trace.ofList rs) config = .ok s₀)

include hs

/-- A stamp stays as it is. -/
theorem stamp_stays {m n : Nat} (hle : m ≤ n) {stage : Stage} {i k : Nat}
    (hk : (s₀.after m).core.trace.cycleAt stage i = some k) :
    (s₀.after n).core.trace.cycleAt stage i = some k :=
  ((agrees_after hs hle).cycleAt ((valid_after hs m).timed.cycle_le hk)).1 hk

/-- **A stamp is there from its cycle on**, and nothing else has been there before. -/
theorem stamp_iff {n : Nat} {stage : Stage} {i k : Nat}
    (hk : (s₀.after n).core.trace.cycleAt stage i = some k) (m : Nat) {l : Nat} :
    (s₀.after m).core.trace.cycleAt stage i = some l ↔ l = k ∧ k ≤ m := by
  constructor
  · intro hl
    have hle := (valid_after hs m).timed.cycle_le hl
    have heq : l = k := by
      rcases Nat.le_total m n with hmn | hmn
      · exact Option.some.inj ((stamp_stays hs hmn hl).symm.trans hk)
      · exact Option.some.inj (hl.symm.trans (stamp_stays hs hmn hk))
    exact ⟨heq, heq ▸ hle⟩
  · rintro ⟨rfl, hle⟩
    rcases Nat.le_total m n with hmn | hmn
    · exact ((agrees_after hs hmn).cycleAt hle).2 hk
    · exact stamp_stays hs hmn hk

theorem isSome_stamp_iff {n : Nat} {stage : Stage} {i k : Nat}
    (hk : (s₀.after n).core.trace.cycleAt stage i = some k) (m : Nat) :
    ((s₀.after m).core.trace.cycleAt stage i).isSome = true ↔ k ≤ m := by
  simp only [Option.isSome_iff_exists, stamp_iff hs hk, exists_and_right, exists_eq, true_and]

/-- **A record is issued after the cycle of its dispatch**: the queue has held it at the end of some
cycle in between. -/
theorem dispatch_lt_issue {n i m : Nat}
    (hm : (s₀.after n).core.trace.cycleAt .issue i = some m) :
    ∃ d, (s₀.after n).core.trace.cycleAt .dispatch i = some d ∧ d < m := by
  have hle := (valid_after hs n).timed.cycle_le hm
  obtain ⟨k, rfl⟩ := Nat.exists_eq_add_one_of_ne_zero
    (Nat.ne_of_gt ((valid_after hs n).timed.cycle_pos hm))
  have hk := ((agrees_after hs hle).cycleAt (Nat.le_refl _)).2 hm
  have hsound := (valid_after hs k).sound
  obtain ⟨d, hd⟩ := Option.isSome_iff_exists.1
    (hsound.dispatched.2 (hsound.mem_queued ((ticked_after hs k).queued_of_issue hk)))
  exact ⟨d, stamp_stays hs (Nat.le_of_succ_le hle) hd,
    Nat.lt_succ_of_le ((valid_after hs k).timed.cycle_le hd)⟩

theorem ordered_after (n : Nat) : (s₀.after n).core.trace.Ordered config.timing n :=
  (valid_after hs n).ordered (dispatch_lt_issue hs)

/-- When a run is done its stamps are complete. -/
theorem complete_of_done {n : Nat} (hdone : (s₀.after n).isDone = true) :
    (s₀.after n).core.trace.Complete config.timing n := by
  rw [isDone, Bool.and_eq_true, decide_eq_true_eq, cycle_eq hs] at hdone
  obtain ⟨k, rfl⟩ := Nat.exists_eq_add_one_of_ne_zero (Nat.ne_of_gt hdone.1)
  exact (valid_after hs (k + 1)).complete (settled_after hs (k + 1))
    (ticked_after hs k).queued_of_dispatch hdone.2

end Simulation

end Tomasulo
