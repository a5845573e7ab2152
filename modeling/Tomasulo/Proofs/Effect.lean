import Tomasulo.Proofs.Agreement
import Tomasulo.Proofs.FrontEnd
import Tomasulo.Proofs.Renaming
import Tomasulo.Proofs.Residency

/-!
# Proofs/Effect — what a whole cycle does

`Valid.run_cycle` puts the five steps together.  A cycle fails only when fetch gets stuck, and by
then its other steps are complete (`Core.Ticked`).  The effect of any other cycle can be read off
the schedule it leaves (`Core.Effect`): which record has taken the bus, which have started, which
has left the queue and which has entered it.  Nothing is said about slots, registers or producers
any more.
-/

namespace Tomasulo

namespace Core

/-! ## The front end read off the schedule -/

/-- The record that leaves the queue in a cycle: the head, unless as many older records of its pool
are unfinished as the pool has stations. -/
def departing (config : Config) (now : Nat) (t : Trace) (c : Core) : Option Nat :=
  c.queued.head?.filter fun i => (t.poolAt i).all fun p =>
    (t.unfinishedBelow config.timing now p i).length < (config.pools p).stations

/-- What is left in the queue then. -/
def remaining (config : Config) (now : Nat) (t : Trace) (c : Core) : List Nat :=
  if (c.departing config now t).isSome = true then c.queued.tail else c.queued

/-- The record that enters the queue in a cycle: the next one that is no trap, if there is room. -/
def incoming (config : Config) (now : Nat) (t : Trace) (c : Core) : Option Nat :=
  if config.queue ≤ (c.remaining config now t).length then none
  else t.order.find? (c.machine.cursor ≤ ·)

/-- All that is known of a core after some cycles. -/
structure Valid (config : Config) (program : Trace) (now : Nat) (c : Core) : Prop where
  sound : c.Sound config program
  renamed : c.Renamed program
  timed : c.Timed config now

/-- What a cycle has done in any case, also when it has failed. -/
structure Ticked (config : Config) (now : Nat) (c c' : Core) : Prop where
  moves : Moves now c c'
  /-- What starts is not done before the next cycle. -/
  stays : c'.StartsStay now
  settled : c'.Settled config now
  /-- Only what was in the queue before the cycle is issued. -/
  queued_of_issue : ∀ {i}, c'.trace.cycleAt .issue i = some now → i ∈ c.queued
  /-- What is dispatched is in the queue after the cycle. -/
  queued_of_dispatch : ∀ {i}, c'.trace.cycleAt .dispatch i = some now → i ∈ c'.queued

/-- **What a cycle does**, read off the schedule it leaves. -/
structure Effect (config : Config) (now : Nat) (c c' : Core) : Prop extends
    Ticked config now c c' where
  cdb : ∀ i, c'.trace.cycleAt .cdb i = some now ↔
    (c'.trace.contending config.timing now).head? = some i
  execute : ∀ p, c'.trace.started now p =
    (c'.trace.waiting now p).take
      ((config.pools p).units - (c'.trace.busy config.timing now p).length)
  issue : ∀ i, c'.trace.cycleAt .issue i = some now ↔
    c.departing config now c'.trace = some i ∧ (c'.trace.poolAt i).isSome = true
  dispatch : ∀ i, c'.trace.cycleAt .dispatch i = some now ↔
    c.incoming config now c'.trace = some i
  queued : c'.queued =
    c.remaining config now c'.trace ++ (c.incoming config now c'.trace).toList
  passed : c'.trace.scheduledBelow c'.machine.cursor =
    c'.trace.scheduledBelow c.machine.cursor ++ (c.incoming config now c'.trace).toList
  exhausted : (c.remaining config now c'.trace).length < config.queue →
    c.incoming config now c'.trace = none → c'.machine.cursor = c'.trace.size

variable {config : Config} {program : Trace} {c c' : Core} {now : Nat} {t : Trace}

/-- Moves keep a core valid. -/
theorem Valid.moves (h : c.Valid config program now) (hnow : 0 < now) (hmoves : Moves now c c')
    (hstay : c'.StartsStay now) : c'.Valid config program now where
  sound := h.sound.moves hmoves
  renamed := h.renamed.moves h.sound hmoves
  timed := h.timed.moves h.sound hnow hmoves hstay

/-- A valid core is valid in any later cycle. -/
theorem Valid.mono (h : c.Valid config program now) {later : Nat} (hle : now ≤ later) :
    c.Valid config program later :=
  ⟨h.sound, h.renamed, h.timed.mono hle⟩

/-- The log does not matter. -/
theorem Valid.noted (h : c.Valid config program now) (e : Event) :
    (c.noted e).Valid config program now := by
  have hmoves : Moves now c (c.noted e) := .single (.note e)
  exact ⟨h.sound.moves hmoves, h.renamed.moves h.sound hmoves,
    ⟨h.timed.cycle_pos, h.timed.cycle_le, h.timed.issue_lt, h.timed.done_le, h.timed.left⟩⟩

/-- The first core is valid. -/
theorem valid_start (config : Config) (hprogram : program.unscheduled = program)
    (hnumbered : program.Numbered) (now : Nat) :
    (start config program).Valid config program now :=
  ⟨sound_start config hprogram hnumbered, renamed_start config hprogram,
    timed_start config hprogram now⟩

/-! ## Start, read off the schedule -/

section Start

variable (h : c.Valid config program now) (hset : c.Settled config now)
  (hprogram : t.unscheduled = program)
  (hcdb : ∀ i, t.cycleAt .cdb i = c.trace.cycleAt .cdb i)
  (hissue : ∀ {i n}, c.trace.cycleAt .issue i = some n ↔ t.cycleAt .issue i = some n ∧ n < now)
  (hexecute : ∀ {i n},
    c.trace.cycleAt .execute i = some n ↔ t.cycleAt .execute i = some n ∧ n < now)

include h hset hcdb in
/-- To have retired is to have been on the bus in an earlier cycle. -/
theorem Valid.isRetired_iff (w : Nat) :
    c.IsRetired w ↔ ∃ n, t.cycleAt .cdb w = some n ∧ n < now := by
  rw [IsRetired, Ne, hset.bus, hcdb]
  constructor
  · rintro ⟨hsome, hne⟩
    obtain ⟨n, hn⟩ := Option.isSome_iff_exists.1 hsome
    refine ⟨n, hn, Nat.lt_of_le_of_ne (h.timed.cycle_le hn) ?_⟩
    rintro rfl
    exact hne hn
  · rintro ⟨n, hn, hlt⟩
    refine ⟨Option.isSome_of_eq_some hn, fun hnow => ?_⟩
    exact Nat.ne_of_lt hlt (Option.some.inj (hn.symm.trans hnow))

include h hset hprogram hcdb hissue hexecute in
/-- **Ready is to have all sources on the bus before**: nothing else keeps a record waiting. While
the record is in its station its producers are its sources that have not retired. -/
theorem Valid.ready_eq_waiting (p : Pool) : c.trace.ready now p = t.waiting now p := by
  refine (Trace.pairwise_ready ..).eq_of_mem_iff (Trace.pairwise_waiting ..) fun i => ?_
  have hpool : c.trace.poolAt = t.poolAt := by
    rw [h.sound.poolAt_trace, ← hprogram, Trace.poolAt_unscheduled]
  have hnew : c.trace.cycleAt .execute i = none ↔
      ∀ n, t.cycleAt .execute i = some n → now ≤ n := by
    rw [Option.eq_none_iff_forall_ne_some]
    refine forall_congr' fun n => ?_
    rw [Ne, hexecute, not_and, Nat.not_lt]
  have hpast : (∃ n, c.trace.cycleAt .issue i = some n ∧ n < now) ↔
      ∃ n, t.cycleAt .issue i = some n ∧ n < now :=
    exists_congr fun n => by rw [hissue, and_assoc, and_self]
  rw [Trace.mem_ready, Trace.mem_waiting, hpool, hnew, hpast, and_comm (a := ∀ _, _), and_assoc]
  refine and_congr_right fun _ => and_congr_right fun hi => and_congr_right fun hx => ?_
  obtain ⟨n, hn, -⟩ := hpast.2 hi
  have hst := h.sound.isStationed_of_not_started (Option.isSome_of_eq_some hn) (hnew.2 hx)
  simp only [Option.eq_none_iff_forall_ne_some, Ne, h.renamed.producer hst, ← hprogram,
    ← Trace.sourceAt_eq_some_iff, Trace.sourceAt_unscheduled, not_and_not_right,
    h.isRetired_iff hset hcdb]

include h hset hprogram hcdb hexecute in
/-- The units that start finds idle are those that no record holds. -/
theorem Valid.length_vacant_eq (p : Pool) :
    (c.machine.units p).running.vacant.length =
      (config.pools p).units - (t.busy config.timing now p).length := by
  refine h.sound.length_vacant (Trace.pairwise_busy ..).nodup fun i => ?_
  have hstarted : (c.trace.cycleAt .execute i).isSome = true ↔
      ∃ n, t.cycleAt .execute i = some n ∧ n < now := by
    simp only [Option.isSome_iff_exists, hexecute]
  rw [Trace.mem_busy, ← hstarted, h.sound.isRunning_iff, ← hprogram, Trace.poolAt_unscheduled]
  rw [and_comm (b := t.poolAt i = some p)]
  refine and_congr_right fun _ => ?_
  rw [and_comm]
  refine and_congr_left fun hs => ?_
  have hfinish : t.finishAt config.timing i = c.trace.finishAt config.timing i := by
    obtain ⟨n, hn⟩ := Option.isSome_iff_exists.1 hs
    refine Trace.finishAt_congr (hprogram.trans h.sound.frame.symm) ?_ (hcdb i)
    rw [hn, (hexecute.1 hn).1]
  rw [hfinish, h.sound.isStationed_iff_unfinished h.timed hset (h.sound.started hs)]

include h hset hprogram hcdb hissue hexecute in
/-- **The oldest waiting records take the idle units.** -/
theorem Valid.started_eq (hbegun : Begun now c c')
    (hafter : ∀ i, t.cycleAt .execute i = c'.trace.cycleAt .execute i) (p : Pool) :
    t.started now p = (t.waiting now p).take
      ((config.pools p).units - (t.busy config.timing now p).length) := by
  have hpool : c.trace.poolAt = t.poolAt := by
    rw [h.sound.poolAt_trace, ← hprogram, Trace.poolAt_unscheduled]
  rw [← h.ready_eq_waiting hset hprogram hcdb hissue hexecute,
    ← h.length_vacant_eq hset hprogram hcdb hexecute]
  refine (Trace.pairwise_started ..).eq_of_mem_iff
    ((Trace.pairwise_ready ..).sublist (List.take_sublist ..)) fun i => ?_
  rw [Trace.mem_started]
  constructor
  · rintro ⟨hp, hi⟩
    rw [hafter, hbegun.execute (hpool ▸ hp)] at hi
    split at hi
    · next hmem => exact hmem
    · exact absurd (hexecute.1 hi).2 (Nat.lt_irrefl _)
  · intro hmem
    have hp := (Trace.mem_ready.1 (List.mem_of_mem_take hmem)).1
    refine ⟨hpool ▸ hp, ?_⟩
    rw [hafter, hbegun.execute hp, if_pos hmem]

end Start

/-! ## Issue and fetch, read off the schedule -/

/-- The pool of the head has room when fewer older records are unfinished than it has stations. -/
theorem Valid.leaving_eq (h : c.Valid config program now) (hset : c.Settled config now)
    (hprogram : t.unscheduled = program)
    (hcdb : ∀ i, t.cycleAt .cdb i = c.trace.cycleAt .cdb i)
    (hexecute : ∀ i, t.cycleAt .execute i = c.trace.cycleAt .execute i) :
    c.leaving = c.departing config now t := by
  have hpool : c.trace.poolAt = t.poolAt := by
    rw [h.sound.poolAt_trace, ← hprogram, Trace.poolAt_unscheduled]
  cases hq : c.machine.queue.entries with
  | nil => simp [leaving, departing, queued, hq]
  | cons e rest =>
    rw [leaving_of_entries hq, departing, queued_of_entries hq, List.head?_cons, hpool]
    cases hp : t.poolAt e.index with
    | none => simp [hp, Option.filter]
    | some p =>
      have hlength : (c.machine.stations p).occupied.length =
          (t.unfinishedBelow config.timing now p e.index).length := by
        refine h.sound.length_stations (Trace.pairwise_unfinishedBelow ..).nodup fun i => ?_
        rw [Trace.mem_unfinishedBelow, ← hprogram, Trace.poolAt_unscheduled,
          Trace.finishAt_congr (hprogram.trans h.sound.frame.symm) (hexecute i) (hcdb i),
          and_left_comm, and_comm (b := t.poolAt i = some p)]
        refine and_congr_right fun hi => ?_
        have hissued := h.sound.issued_iff_lt hq (j := i) (by
          rw [← h.sound.poolAt_trace, hpool, hi])
        rw [← hissued]
        constructor
        · rintro ⟨hissue, hall⟩
          exact (h.sound.isStationed_iff_unfinished h.timed hset hissue).2 hall
        · intro hst
          obtain ⟨q, s, f, hs, rfl⟩ := hst
          have hissue := (h.sound.station_stamps hs).1
          refine ⟨hissue, ?_⟩
          exact (h.sound.isStationed_iff_unfinished h.timed hset hissue).1 ⟨q, s, f, hs, rfl⟩
      simp [hp, hasRoom, hlength, h.sound.fits.stations, Option.filter]

/-! ## The whole cycle -/

/-- Complete leaves the bus and the stores up to date. -/
theorem Completed.settled {c₁ c₂ : Core} (h₁ : c₁.Sound config program)
    (hpast : ∀ {i n}, c₁.trace.cycleAt .cdb i = some n → n < now)
    (hcompleted : Completed config now c₁ c₂) : c₂.Settled config now where
  bus d := by
    rw [hcompleted.bus, hcompleted.cycleAt]
    constructor
    · intro hd
      rw [if_pos ⟨rfl, hd⟩]
    · intro hd
      split at hd
      · next hhead => exact hhead.2
      · exact absurd (hpast hd) (Nat.lt_irrefl _)
  store {p s e f} hs hop hf := by
    have h₂ := h₁.moves hcompleted.moves
    obtain ⟨q, n, hq, hn, rfl⟩ := Trace.doneAt_eq_some_iff.1 hf
    rw [hcompleted.cycleAt, if_neg (by simp)] at hn
    refine (hcompleted.store hs hop (Trace.doneAt_eq_some_iff.2 ⟨q, n, ?_, hn, rfl⟩)).trans_le
      (config.wordSum_le_timing q n)
    rw [h₁.poolAt_trace, ← h₂.poolAt_trace]
    exact hq

/-- What has been stamped before stays, and nothing is stamped later. -/
theorem Valid.agrees {n : Nat} (h : c.Valid config program n) (hmoves : Moves (n + 1) c c') :
    Trace.AgreesUpTo n c.trace c'.trace where
  program := h.sound.frame.trans (h.sound.moves hmoves).frame.symm
  cycleAt {stage i m} hm := by
    rcases h.sound.cycleAt_moves hmoves stage i with heq | ⟨hnone, hnow⟩
    · rw [heq]
    · rw [hnone, hnow]
      simp only [reduceCtorEq, Option.some.injEq, false_iff]
      omega

/-- The cores between the steps of a cycle up to fetch. -/
structure Phases (config : Config) (now : Nat) (c c₂ c₃ c₄ : Core) : Prop where
  woken : Moves now c (c.awoken now)
  completed : Completed config now (c.awoken now) c₂
  begun : Begun now c₂ c₃
  issued : Issued now c₃ c₄

/-- Fetch stamps its own stage only. -/
theorem Fetched.other (h : Fetched now c c') {stage : Stage} (hstage : stage ≠ .dispatch)
    (i : Nat) : c'.trace.cycleAt stage i = c.trace.cycleAt stage i := by
  rw [h.cycleAt, if_neg fun hd => hstage hd.1]

namespace Phases

variable {n : Nat} {c₂ c₃ c₄ c₅ : Core}

/-- The phases are moves. -/
theorem moves (hp : Phases config now c c₂ c₃ c₄) : Moves now c c₄ :=
  hp.woken.trans (hp.completed.moves.trans (hp.begun.moves.trans hp.issued.moves))

/-- Each stage is stamped by one step only. -/
theorem cdb_eq (hp : Phases config now c c₂ c₃ c₄) (i : Nat) :
    c₄.trace.cycleAt .cdb i = c₂.trace.cycleAt .cdb i ∧
      c₄.trace.cycleAt .cdb i = c₃.trace.cycleAt .cdb i := by
  have h₃ := hp.begun.other .cdb i (by decide)
  have h₄ := hp.issued.cycleAt .cdb i
  rw [if_neg (by simp)] at h₄
  exact ⟨h₄.trans h₃, h₄⟩

/-- Nothing starts while the head is issued. -/
theorem execute_eq (hp : Phases config now c c₂ c₃ c₄) (i : Nat) :
    c₄.trace.cycleAt .execute i = c₃.trace.cycleAt .execute i := by
  rw [hp.issued.cycleAt, if_neg (by simp)]

/-- Before its own step a stage is as it was before the cycle. -/
theorem before (hp : Phases config now c c₂ c₃ c₄) (stage : Stage) (i : Nat) :
    (stage ≠ .cdb → c₂.trace.cycleAt stage i = c.trace.cycleAt stage i) ∧
      (stage ≠ .cdb → stage ≠ .execute → c₃.trace.cycleAt stage i = c.trace.cycleAt stage i) := by
  have h₂ (hcdb : stage ≠ .cdb) : c₂.trace.cycleAt stage i = c.trace.cycleAt stage i := by
    rw [hp.completed.cycleAt, if_neg fun h => hcdb h.1, (c.awoken_awoken now).cycleAt]
  exact ⟨h₂, fun hcdb hexecute => (hp.begun.other stage i hexecute).trans (h₂ hcdb)⟩

/-- The queue is untouched until issue. -/
theorem queued_eq (hp : Phases config now c c₂ c₃ c₄) : c₃.queued = c.queued := by
  rw [queued, hp.begun.queue, hp.completed.queue, (c.awoken_awoken now).queue, queued]

/-- Nothing is fetched before the last phase. -/
theorem cursor_eq (hp : Phases config now c c₂ c₃ c₄) :
    c₄.machine.cursor = c.machine.cursor := by
  rw [hp.issued.cursor, hp.begun.cursor, hp.completed.cursor, (c.awoken_awoken now).cursor]

/-! ### Up to fetch -/

variable (h : c.Valid config program n) (hp : Phases config (n + 1) c c₂ c₃ c₄)

include h in

/-- What is stamped when the cycle begins is stamped with an earlier one. -/
theorem past {stage : Stage} {i m : Nat}
    (hm : (c.awoken (n + 1)).trace.cycleAt stage i = some m) : m < n + 1 := by
  rw [(c.awoken_awoken (n + 1)).cycleAt] at hm
  exact Nat.lt_succ_of_le (h.timed.cycle_le hm)

include h hp in
/-- Nothing starts before start. -/
theorem stays₂ : c₂.StartsStay (n + 1) := fun i hi => by
  rw [(hp.before .execute i).1 (by decide)] at hi
  exact absurd (h.timed.cycle_le hi) (Nat.not_succ_le_self n)

include h hp in

/-- The core is valid after the stage of completion. -/
theorem valid₂ : c₂.Valid config program (n + 1) :=
  (h.mono (Nat.le_succ n)).moves (Nat.succ_pos n) (hp.woken.trans hp.completed.moves)
    (stays₂ h hp)

include h hp in

/-- The core has settled after the stage of completion. -/
theorem settled₂ : c₂.Settled config (n + 1) :=
  hp.completed.settled (h.sound.moves hp.woken) (past h)

include h hp in
/-- What starts was ready in its station, and start leaves the stations alone. -/
theorem stays₃ : c₃.StartsStay (n + 1) := by
  have h₂ := (valid₂ h hp).sound
  have hstationed {i : Nat} (hst : c₂.IsStationed i) : c₃.IsStationed i := by
    obtain ⟨p, s, e, hs, rfl⟩ := hst
    exact ⟨p, s, e, by rwa [stationAt, hp.begun.stations], rfl⟩
  intro i hi
  obtain ⟨p, hpool⟩ := (h₂.moves hp.begun.moves).exists_poolAt_of_issued
    ((h₂.moves hp.begun.moves).started (Option.isSome_of_eq_some hi))
  rw [(h₂.moves hp.begun.moves).poolAt_trace, ← h₂.poolAt_trace] at hpool
  rw [hp.begun.execute hpool] at hi
  split at hi
  · next hready =>
    obtain ⟨-, -, ⟨m, hm, -⟩, hnew⟩ := Trace.mem_ready.1 (List.mem_of_mem_take hready)
    exact hstationed (h₂.isStationed_of_not_started (Option.isSome_of_eq_some hm) hnew)
  · exact hstationed (stays₂ h hp i hi)

include h hp in

/-- The core is valid after the starts. -/
theorem valid₃ : c₃.Valid config program (n + 1) :=
  (valid₂ h hp).moves (Nat.succ_pos n) hp.begun.moves (stays₃ h hp)

include h hp in

/-- No start of this cycle is taken back by the issue. -/
theorem stays₄ : c₄.StartsStay (n + 1) :=
  (stays₃ h hp).of_eq hp.execute_eq fun i hi => (hp.issued.stationed i).2 (.inr hi)

include h hp in

/-- The core is valid after the issue. -/
theorem valid₄ : c₄.Valid config program (n + 1) :=
  (valid₃ h hp).moves (Nat.succ_pos n) hp.issued.moves (stays₄ h hp)

include h hp in

/-- The core has settled after the starts. -/
theorem settled₃ : c₃.Settled config (n + 1) :=
  (settled₂ h hp).later (valid₂ h hp).sound hp.begun.moves hp.begun.bus
    fun i => hp.begun.other .cdb i (by decide)

include h hp in
/-- Issue stamps the head of the queue, which has been there since an earlier cycle. -/
theorem queued_of_issue {i : Nat} (hi : c₄.trace.cycleAt .issue i = some (n + 1)) :
    i ∈ c.queued := by
  rw [hp.issued.cycleAt] at hi
  split at hi
  · next hleaving =>
    rw [← hp.queued_eq]
    exact List.mem_of_head? (Option.filter_eq_some_iff.1 hleaving.2.1).1
  · rw [(hp.before .issue i).2 (by decide) (by decide)] at hi
    exact absurd (h.timed.cycle_le hi) (Nat.not_succ_le_self n)

include h hp in
/-- Nothing is dispatched before fetch. -/
theorem not_dispatched {i : Nat} : c₄.trace.cycleAt .dispatch i ≠ some (n + 1) := by
  rw [hp.issued.cycleAt, if_neg (by simp), (hp.before .dispatch i).2 (by decide) (by decide)]
  exact fun hi => absurd (h.timed.cycle_le hi) (Nat.not_succ_le_self n)

include h hp in
/-- Fetch leaves the stations alone. -/
theorem stays₅ (hstations : c₅.machine.stations = c₄.machine.stations)
    (hexecute : ∀ i, c₅.trace.cycleAt .execute i = c₄.trace.cycleAt .execute i) :
    c₅.StartsStay (n + 1) := by
  refine (stays₄ h hp).of_eq hexecute ?_
  rintro i ⟨p, s, e, hs, rfl⟩
  exact ⟨p, s, e, by rwa [stationAt, hstations], rfl⟩

include h hp in
/-- **What a cycle has done in any case**: whatever fetch does, it leaves the bus and the later
stages alone. -/
theorem ticked (hmoves : Moves (n + 1) c₄ c₅) (hbus : c₅.machine.bus = c₄.machine.bus)
    (hstations : c₅.machine.stations = c₄.machine.stations)
    (hother : ∀ {stage}, stage ≠ .dispatch → ∀ i,
      c₅.trace.cycleAt stage i = c₄.trace.cycleAt stage i)
    (hdispatch : ∀ {i}, c₅.trace.cycleAt .dispatch i = some (n + 1) → i ∈ c₅.queued) :
    Ticked config (n + 1) c c₅ where
  moves := hp.moves.trans hmoves
  stays := stays₅ h hp hstations (hother (by decide))
  settled := by
    refine (settled₂ h hp).later (valid₂ h hp).sound
      (hp.begun.moves.trans (hp.issued.moves.trans hmoves)) ?_ fun i => ?_
    · rw [hbus, hp.issued.bus, hp.begun.bus]
    · rw [hother (by decide), (hp.cdb_eq i).1]
  queued_of_issue {i} hi := by
    rw [hother (by decide)] at hi
    exact queued_of_issue h hp hi
  queued_of_dispatch := hdispatch

include h hp in
/-- A cycle that fails is complete but for fetch. -/
theorem ticked_of_stopped {reason : Rejection} (hs : Stopped (n + 1) reason c₄ c₅) :
    Ticked config (n + 1) c c₅ := by
  refine ticked h hp hs.moves ?_ ?_ (fun _ i => ?_) fun hi => ?_
  · rw [hs.machine]
  · rw [hs.machine]
  · rw [hs.trace]
  · rw [hs.trace] at hi
    exact absurd hi (not_dispatched h hp)

/-! ### With fetch -/

variable (hf : Fetched (n + 1) c₄ c₅)

include h hp hf in

/-- The core is valid after the fetch. -/
theorem valid₅ : c₅.Valid config program (n + 1) :=
  (valid₄ h hp).moves (Nat.succ_pos n) hf.moves
    (stays₅ h hp hf.stations (hf.other (by decide)))

include hp hf in

/-- Results are published in the stage of completion only. -/
theorem cdb_eq₅ (i : Nat) :
    c₅.trace.cycleAt .cdb i = c₂.trace.cycleAt .cdb i ∧
      c₅.trace.cycleAt .cdb i = c₃.trace.cycleAt .cdb i := by
  rw [hf.other (by decide)]
  exact hp.cdb_eq i

include hp hf in

/-- Records start in the stage of starts only. -/
theorem execute_eq₅ (i : Nat) :
    c₅.trace.cycleAt .execute i = c₃.trace.cycleAt .execute i :=
  (hf.other (by decide) i).trans (hp.execute_eq i)

include h hp hf in
/-- The stamps before this cycle are those that were there before it. -/
theorem stamp_before {stage : Stage} {i m : Nat} : c.trace.cycleAt stage i = some m ↔
    c₅.trace.cycleAt stage i = some m ∧ m < n + 1 := by
  have hagrees := h.agrees (hp.moves.trans hf.moves)
  constructor
  · intro hm
    have hle := h.timed.cycle_le hm
    exact ⟨(hagrees.cycleAt hle).1 hm, Nat.lt_succ_of_le hle⟩
  · exact fun ⟨hm, hlt⟩ => (hagrees.cycleAt (Nat.le_of_lt_succ hlt)).2 hm

include h hp hf in

/-- No stamp names a cycle to come. -/
theorem not_stamped {stage : Stage} {i : Nat} : c.trace.cycleAt stage i ≠ some (n + 1) :=
  fun hm => Nat.lt_irrefl _ ((stamp_before h hp hf).1 hm).2

include h hp hf in

/-- Who leaves the queue can be read off the trace. -/
theorem leaving_eq : c₃.leaving = c.departing config (n + 1) c₅.trace := by
  rw [(valid₃ h hp).leaving_eq (settled₃ h hp) (valid₅ h hp hf).sound.frame
    (fun i => (hp.cdb_eq₅ hf i).2) (hp.execute_eq₅ hf), departing, hp.queued_eq, departing]

include h hp hf in

/-- Who remains in the queue can be read off the trace. -/
theorem remaining_eq : c₄.queued = c.remaining config (n + 1) c₅.trace := by
  rw [hp.issued.queued, leaving_eq h hp hf, hp.queued_eq, remaining]

include h hp hf in

/-- Who enters the queue can be read off the trace. -/
theorem arriving_eq : c₄.arriving = c.incoming config (n + 1) c₅.trace := by
  have h₄ := (valid₄ h hp).sound
  have hfull : c₄.machine.queue.isFull =
      decide (config.queue ≤ (c.remaining config (n + 1) c₅.trace).length) := by
    rw [FetchQueue.isFull, h₄.fits.queue, ← remaining_eq h hp hf, queued, List.length_map]
  have horder : c₄.trace.order = c₅.trace.order := by
    rw [h₄.order_trace, (valid₅ h hp hf).sound.order_trace]
  simp only [arriving, incoming, hfull, decide_eq_true_eq, hp.cursor_eq, horder]

include h hp hf in
/-- **The five steps together.** -/
theorem effect : Effect config (n + 1) c c₅ := by
  have hawoken := c.awoken_awoken (n + 1)
  have h₄ := (valid₄ h hp).sound
  have h₅ := (valid₅ h hp hf).sound
  have hframe : c₅.trace.unscheduled = program := h₅.frame
  have hagrees := h.agrees (hp.moves.trans hf.moves)
  constructor
  case toTicked =>
    refine ticked h hp hf.moves hf.bus hf.stations hf.other fun {i} hi => ?_
    rw [hf.cycleAt] at hi
    split at hi
    · next harriving =>
      rw [hf.queued, harriving.2]
      exact List.mem_append_right _ (List.mem_singleton_self i)
    · exact absurd hi (not_dispatched h hp)
  case cdb =>
    intro i
    have hawakes : Trace.AgreesUpTo n (c.awoken (n + 1)).trace c.trace := by
      refine ⟨(h.sound.moves hp.woken).frame.trans h.sound.frame.symm, fun _ => ?_⟩
      rw [hawoken.cycleAt]
    rw [← hagrees.contending config (Nat.le_refl _),
      ← hawakes.contending config (Nat.le_refl _), ← Trace.contending_wordSum (past h),
      (hp.cdb_eq₅ hf i).1, hp.completed.cycleAt]
    split
    · next hhead => simp [hhead.2]
    · next hhead =>
      refine ⟨fun hm => absurd (past h hm) (Nat.lt_irrefl _), fun hi => absurd ⟨rfl, hi⟩ hhead⟩
  case execute =>
    refine fun p => (valid₂ h hp).started_eq (settled₂ h hp) hframe
      (fun i => (hp.cdb_eq₅ hf i).1) ?_ ?_ hp.begun (hp.execute_eq₅ hf) p
    · intro i m
      rw [(hp.before .issue i).1 (by decide)]
      exact stamp_before h hp hf
    · intro i m
      rw [(hp.before .execute i).1 (by decide)]
      exact stamp_before h hp hf
  case issue =>
    intro i
    have hpool : c₃.trace.poolAt = c₅.trace.poolAt := by
      rw [(valid₃ h hp).sound.poolAt_trace, h₅.poolAt_trace]
    rw [hf.other (by decide), hp.issued.cycleAt, leaving_eq h hp hf, hpool]
    split
    · next hi => simpa using hi.2
    · next hi =>
      rw [(hp.before .issue i).2 (by decide) (by decide)]
      exact ⟨fun hm => absurd hm (not_stamped h hp hf), fun hi' => absurd ⟨rfl, hi'⟩ hi⟩
  case dispatch =>
    intro i
    rw [hf.cycleAt, arriving_eq h hp hf]
    split
    · next hi => simpa using hi.2
    · next hi =>
      exact ⟨fun hm => absurd hm (not_dispatched h hp), fun hi' => absurd ⟨rfl, hi'⟩ hi⟩
  case queued =>
    rw [hf.queued, remaining_eq h hp hf, arriving_eq h hp hf]
  case passed =>
    rw [h₅.scheduledBelow_trace, ← h₄.scheduledBelow_trace, hf.passed, hp.cursor_eq,
      arriving_eq h hp hf, h₄.scheduledBelow_trace, h₅.scheduledBelow_trace]
  case exhausted =>
    intro hroom hnone
    have hfull : c₄.machine.queue.isFull = false := by
      rw [FetchQueue.isFull, h₄.fits.queue, decide_eq_false_iff_not, Nat.not_le]
      rw [← remaining_eq h hp hf, queued, List.length_map] at hroom
      exact hroom
    rw [hf.exhausted hfull ((arriving_eq h hp hf).trans hnone), h₄.size_trace,
      h₅.size_trace]

end Phases

/-- The log does not matter. -/
theorem Effect.noted (h : Effect config now c c') (e : Event) :
    Effect config now c (c'.noted e) :=
  ⟨⟨h.moves.tail (.note e), h.stays, ⟨h.settled.bus, h.settled.store⟩, h.queued_of_issue,
    h.queued_of_dispatch⟩, h.cdb, h.execute, h.issue, h.dispatch, h.queued, h.passed, h.exhausted⟩

/-! ## What a cycle keeps -/

section Keeps

variable {n : Nat} (h : c.Valid config program n) (heffect : Effect config (n + 1) c c')

include h heffect

/-- The core is valid after the cycle. -/
theorem Effect.valid : c'.Valid config program (n + 1) :=
  (h.mono (Nat.le_succ n)).moves (Nat.succ_pos n) heffect.moves heffect.stays

/-- A cycle changes nothing about the earlier ones. -/
theorem Effect.agrees : Trace.AgreesUpTo n c.trace c'.trace :=
  h.agrees heffect.moves

/-- A stamp that is there stays. -/
theorem Effect.stamp_stays {stage : Stage} {i m : Nat} (hm : c.trace.cycleAt stage i = some m) :
    c'.trace.cycleAt stage i = some m :=
  ((heffect.agrees h).cycleAt (h.timed.cycle_le hm)).1 hm

end Keeps

/-! ## Running a cycle -/

/-- What is left of a cycle after issue. -/
def conclude (now : Nat) : Step Unit := do
  Step.fetch now
  let m ← Step.machine
  Step.emit (.cycleCompleted now m.queue.entries.length m.stationCounts m.bus.carried)

/-- The end of a cycle has been logged. -/
def reported (c : Core) (now : Nat) : Core :=
  c.noted (.cycleCompleted now c.machine.queue.entries.length c.machine.stationCounts
    c.machine.bus.carried)

/-- If the fetch succeeds the cycle is reported. -/
theorem run_conclude_of_ok (h : (Step.fetch now).run c = .ok () c') :
    (conclude now).run c = .ok () (c'.reported now) :=
  (Step.run_bind_ok h _).trans rfl

/-- If the fetch fails so does the cycle. -/
theorem run_conclude_of_error {halt : Halt} (h : (Step.fetch now).run c = .error halt c') :
    (conclude now).run c = .error halt c' :=
  Step.run_bind_error h _

/-- What is left of a cycle when its first four steps are done. -/
theorem run_cycle_of_phases {c₁ c₂ c₃ c₄ : Core} (hwake : (Step.wake now).run c = .ok () c₁)
    (hcomplete : (Step.complete now).run c₁ = .ok () c₂)
    (hstart : (Step.start now).run c₂ = .ok () c₃) (hissue : (Step.issue now).run c₃ = .ok () c₄) :
    (Step.cycle now).run c = (conclude now).run c₄ := by
  refine (Step.run_bind_ok hwake _).trans ?_
  refine (Step.run_bind_ok hcomplete _).trans ?_
  refine (Step.run_bind_ok hstart _).trans ?_
  exact Step.run_bind_ok hissue _

/-- **A valid core comes as far as fetch.** -/
theorem Valid.run_phases {n : Nat} (h : c.Valid config program n) :
    ∃ c₂ c₃ c₄, (Step.wake (n + 1)).run c = .ok () (c.awoken (n + 1)) ∧
      (Step.complete (n + 1)).run (c.awoken (n + 1)) = .ok () c₂ ∧
      (Step.start (n + 1)).run c₂ = .ok () c₃ ∧ (Step.issue (n + 1)).run c₃ = .ok () c₄ ∧
      c₄.Sound config program ∧ Phases config (n + 1) c c₂ c₃ c₄ := by
  obtain ⟨hrun₁, hwoken⟩ := h.sound.run_wake (n + 1)
  have h₁ := h.sound.moves hwoken
  obtain ⟨c₂, hrun₂, hcompleted⟩ :=
    h₁.run_complete (c.awoken_awoken (n + 1)).bus (Phases.past h)
  have h₂ := h₁.moves hcompleted.moves
  obtain ⟨c₃, hrun₃, hbegun⟩ := h₂.run_start (n + 1)
  have h₃ := h₂.moves hbegun.moves
  obtain ⟨c₄, hrun₄, hissued⟩ := h₃.run_issue (n + 1)
  exact ⟨c₂, c₃, c₄, hrun₁, hrun₂, hrun₃, hrun₄, h₃.moves hissued.moves, hwoken, hcompleted, hbegun,
    hissued⟩

/-- **A cycle fails only when fetch gets stuck**, after everything else has been done. -/
theorem Valid.run_cycle {n : Nat} (h : c.Valid config program n) :
    (∃ c', (Step.cycle (n + 1)).run c = .ok () c' ∧ Effect config (n + 1) c c') ∨
      ∃ reason c', (Step.cycle (n + 1)).run c = .error (.rejected reason) c' ∧
        Ticked config (n + 1) c c' ∧ c'.Stuck reason := by
  obtain ⟨c₂, c₃, c₄, hrun₁, hrun₂, hrun₃, hrun₄, h₄, hp⟩ := h.run_phases
  rw [run_cycle_of_phases hrun₁ hrun₂ hrun₃ hrun₄]
  rcases h₄.run_fetch (n + 1) with ⟨c₅, hrun₅, hfetched⟩ | ⟨reason, c₅, hrun₅, hstopped⟩
  · exact .inl ⟨_, run_conclude_of_ok hrun₅, (Phases.effect h hp hfetched).noted _⟩
  · exact .inr ⟨reason, c₅, run_conclude_of_error hrun₅,
      Phases.ticked_of_stopped h hp hstopped, hstopped.stuck⟩

end Core

end Tomasulo
