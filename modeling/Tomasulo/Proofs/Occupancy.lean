import Tomasulo.Proofs.Stamps

/-!
# Proofs/Occupancy — the machine is a function of the stamps

In every state of a run the stamps tell who is on a unit, in a station, on the bus and in the fetch
queue (`Core.Resident`).  A record comes with a stamp and goes with a stamp, except for a store,
which has no last stage: its station and its unit are free again in the cycle in which it is done.
-/

namespace Tomasulo

/-- **A record is finished**: it has been on the bus, or it is a store and done. -/
def Trace.IsFinished (d : Timing) (now : Nat) (t : Trace) (i : Nat) : Prop :=
  (t.publishes i = true ∧ (t.cycleAt .cdb i).isSome = true) ∨
    t.classAt i = some .store ∧ ∃ b, t.cycleAt .execute i = some b ∧ d .int b ≤ now

/-- If the sums fit a word a store is finished when its latency has passed. -/
theorem Trace.FitsWord.isFinished_eq {config : Config} {t : Trace} (h : t.FitsWord config)
    (hlatency : ∀ p, 0 < (config.pools p).latency) (now : Nat) :
    t.IsFinished config.nominal now = t.IsFinished config.timing now := by
  funext i
  refine propext (or_congr_right (and_congr_right fun hstore =>
    exists_congr fun b => and_congr_right fun hb => ?_))
  rw [h.timing_eq hlatency (poolAt_of_store hstore) hb, Config.nominal]

namespace Core

variable {config : Config} {program : Trace} {c : Core} {now i : Nat} {p : Pool}

/-- A record is on a unit of a pool. -/
def RunsIn (c : Core) (i : Nat) (p : Pool) : Prop :=
  ∃ r, c.Runs r ∧ r.pool = p ∧ r.record.index = i

/-- **Where the records are is a matter of their stamps.** -/
structure Resident (d : Timing) (now : Nat) (c : Core) : Prop where
  unit : ∀ i p, c.RunsIn i p ↔ c.trace.poolAt i = some p ∧
    (c.trace.cycleAt .execute i).isSome = true ∧ ¬ c.trace.IsFinished d now i
  station : ∀ i p, (∃ s, c.Occupies i p s) ↔ c.trace.poolAt i = some p ∧
    (c.trace.cycleAt .issue i).isSome = true ∧ ¬ c.trace.IsFinished d now i
  bus : ∀ i, c.machine.bus.carried = some i ↔ c.trace.cycleAt .cdb i = some now
  queue : ∀ i, (c.trace.poolAt i).isSome = true → (i ∈ c.queued ↔
    (c.trace.cycleAt .dispatch i).isSome = true ∧ c.trace.cycleAt .issue i = none)

/-- If the sums fit a word, stores leave when their latencies have passed. -/
theorem Resident.nominal (h : c.Resident config.timing now) (hfits : c.trace.FitsWord config)
    (hlatency : ∀ p, 0 < (config.pools p).latency) : c.Resident config.nominal now := by
  refine ⟨?_, ?_, h.bus, h.queue⟩ <;> rw [hfits.isFinished_eq hlatency]
  · exact h.unit
  · exact h.station

section Reading

variable (h : c.Valid config program now)

include h

/-- To be finished is to have given up its station by then. -/
theorem Valid.isFinished_iff : c.trace.IsFinished config.timing now i ↔
    ∃ f, c.trace.finishAt config.timing i = some f ∧ f ≤ now := by
  constructor
  · rintro (⟨hpub, hcdb⟩ | ⟨hstore, b, hb, hle⟩)
    · obtain ⟨f, hf⟩ := Option.isSome_iff_exists.1 hcdb
      exact ⟨f, (Trace.finishAt_of_publishes hpub _).trans hf, h.timed.cycle_le hf⟩
    · refine ⟨_, ?_, hle⟩
      rw [Trace.finishAt_of_store hstore, hb, Option.map_some]
  · rintro ⟨f, hf, hle⟩
    by_cases hpub : c.trace.publishes i = true
    · rw [Trace.finishAt_of_publishes hpub] at hf
      exact .inl ⟨hpub, Option.isSome_of_eq_some hf⟩
    · rw [Trace.finishAt, if_neg hpub] at hf
      obtain ⟨p, b, hp, hb, rfl⟩ := Trace.doneAt_eq_some_iff.1 hf
      obtain ⟨hstore, rfl⟩ := Trace.store_of_not_publishes hp hpub
      exact .inr ⟨hstore, b, hb, hle⟩

variable (hset : c.Settled config now)

include hset

/-- **A record is in a station when it has been issued and is not finished.** -/
theorem Valid.isStationed_iff : c.IsStationed i ↔
    (c.trace.cycleAt .issue i).isSome = true ∧ ¬ c.trace.IsFinished config.timing now i := by
  rw [h.isFinished_iff]
  push Not
  constructor
  · intro hst
    have hissue := h.sound.issued_of_stationed hst
    exact ⟨hissue, (h.sound.isStationed_iff_unfinished h.timed hset hissue).1 hst⟩
  · rintro ⟨hissue, hunfinished⟩
    exact (h.sound.isStationed_iff_unfinished h.timed hset hissue).2 hunfinished

/-- **A record is on a unit when it has started and is not finished.** -/
theorem Valid.isRunning_iff : c.IsRunning i ↔
    (c.trace.cycleAt .execute i).isSome = true ∧ ¬ c.trace.IsFinished config.timing now i := by
  rw [h.sound.isRunning_iff, h.isStationed_iff hset]
  constructor
  · rintro ⟨⟨-, hunfinished⟩, hexecute⟩
    exact ⟨hexecute, hunfinished⟩
  · rintro ⟨hexecute, hunfinished⟩
    exact ⟨⟨h.sound.started hexecute, hunfinished⟩, hexecute⟩

theorem Valid.resident : c.Resident config.timing now where
  unit i p := by
    rw [← h.isRunning_iff hset]
    constructor
    · rintro ⟨r, hr, rfl, rfl⟩
      exact ⟨h.sound.poolAt_trace ▸ h.sound.poolAt_station hr.2, r, hr, rfl⟩
    · rintro ⟨hp, r, hr, rfl⟩
      rw [h.sound.poolAt_trace, h.sound.poolAt_station hr.2] at hp
      exact ⟨r, hr, Option.some.inj hp, rfl⟩
  station i p := by
    rw [← h.isStationed_iff hset]
    constructor
    · rintro ⟨s, e, he, rfl⟩
      exact ⟨h.sound.poolAt_trace ▸ h.sound.poolAt_station he, p, s, e, he, rfl⟩
    · rintro ⟨hp, q, s, e, he, rfl⟩
      rw [h.sound.poolAt_trace, h.sound.poolAt_station he] at hp
      obtain rfl := Option.some.inj hp
      exact ⟨s, e, he, rfl⟩
  bus := hset.bus
  queue i hp := by
    rw [h.sound.poolAt_trace] at hp
    rw [h.sound.dispatched, ← Option.not_isSome_iff_eq_none, h.sound.issued]
    constructor
    · intro hmem
      exact ⟨h.sound.mem_queued hmem, fun hissued => hissued.2.2 hmem⟩
    · rintro ⟨⟨hcursor, -⟩, hnot⟩
      by_contra hmem
      exact hnot ⟨hcursor, hp, hmem⟩

end Reading

end Core

namespace Simulation

variable {rs : List Record} {config : Config} {s₀ : Simulation}
  (hs : ofTrace (Trace.ofList rs) config = .ok s₀)

include hs

theorem resident_after (n : Nat) : (s₀.after n).core.Resident config.timing n :=
  (valid_after hs n).resident (settled_after hs n)

section Store

variable {n i a b : Nat} (hstore : (Trace.ofList rs).classAt i = some .store)
  (ha : (s₀.after n).core.trace.cycleAt .issue i = some a)
  (hb : (s₀.after n).core.trace.cycleAt .execute i = some b)

include hstore hb

/-- A store is finished as soon as it is done. -/
theorem isFinished_iff_of_store (m : Nat) :
    (s₀.after m).core.trace.IsFinished config.timing m i ↔ config.timing .int b ≤ m := by
  rw [← (valid_after hs m).sound.classAt_trace] at hstore
  constructor
  · rintro (⟨hpub, -⟩ | ⟨-, b', hb', hle⟩)
    · exact absurd hpub (Trace.not_publishes_of_store hstore)
    · obtain rfl := ((stamp_iff hs hb m).1 hb').1
      exact hle
  · intro hle
    exact .inr ⟨hstore, b, (stamp_iff hs hb m).2 ⟨rfl, (config.lt_timing .int b).le.trans hle⟩, hle⟩

/-- **A store is on its unit from its start until it is done.** -/
theorem isRunning_iff_of_store (m : Nat) :
    (s₀.after m).core.IsRunning i ↔ b ≤ m ∧ m < config.timing .int b := by
  rw [(valid_after hs m).isRunning_iff (settled_after hs m),
    isFinished_iff_of_store hs hstore hb, isSome_stamp_iff hs hb, Nat.not_le]

include ha

/-- **A store is in its station from its issue until it is done.** -/
theorem isStationed_iff_of_store (m : Nat) :
    (s₀.after m).core.IsStationed i ↔ a ≤ m ∧ m < config.timing .int b := by
  rw [(valid_after hs m).isStationed_iff (settled_after hs m),
    isFinished_iff_of_store hs hstore hb, isSome_stamp_iff hs ha, Nat.not_le]

end Store

end Simulation

end Tomasulo
