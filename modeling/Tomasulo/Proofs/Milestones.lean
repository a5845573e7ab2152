import Tomasulo.Proofs.Effect

/-!
# Proofs/Milestones — what is logged of a record, and when

A record passes a few milestones, each of them once: it reaches the stages of its schedule, or is
skipped, and at last it is gone.  Whether it has passed one can be seen in the core
(`Core.Passed`), also for those that leave no stamp.  A deed that takes a record past a milestone
logs it, and no other deed does (`Deed.exists_logged`); so the log of a core lists the milestones
passed, once each, and every event in it is true of the schedule (`Core.Recorded`).
-/

namespace Tomasulo

/-! ## Milestones -/

/-- What can happen to a record, once only. -/
inductive Milestone where
  /-- It has a stamp of the stage. -/
  | reached (stage : Stage)
  /-- It was passed over as a trap. -/
  | skipped
  /-- It left the fetch queue as a jump or branch. -/
  | resolved
  /-- It gave up its station as a store. -/
  | completed
  /-- Its result left the bus. -/
  | retired
deriving DecidableEq, Repr

/-- The milestones that the records of a class pass. -/
def Milestone.isOf : Milestone → OpClass → Bool
  | .reached .dispatch, op => op != .trap
  | .reached .issue, op | .reached .execute, op => op.pool.isSome
  | .reached .cdb, op | .retired, op => op.broadcasts
  | .skipped, op => op == .trap
  | .resolved, op => op.isControl
  | .completed, op => op == .store

/-- The record at a position passes a milestone. -/
def Trace.passes (t : Trace) (m : Milestone) (i : Nat) : Bool :=
  (t.classAt i).any m.isOf

/-- A record passes the milestones of its class. -/
theorem Trace.passes_iff {t : Trace} {m : Milestone} {i : Nat} :
    t.passes m i = true ↔ ∃ op, t.classAt i = some op ∧ m.isOf op = true := by
  rw [passes, Option.any_eq_true]

namespace Event

/-- The milestone that an event reports, and the record. -/
def milestone? : Event → Option (Milestone × Nat)
  | .fetched _ i _ => some (.reached .dispatch, i)
  | .issued _ i .. => some (.reached .issue, i)
  | .started _ i .. => some (.reached .execute, i)
  | .broadcast _ i _ => some (.reached .cdb, i)
  | .trapSkipped _ i => some (.skipped, i)
  | .resolved _ i => some (.resolved, i)
  | .storeCompleted _ i => some (.completed, i)
  | .retired _ i => some (.retired, i)
  | .stalled .. | .cycleCompleted .. | .runCompleted .. => none

/-- **An event is true of a schedule**: its cycle is the one that is stamped or follows from the
stamps, if a record takes as long as `d` says, and its class or pool is that of the record. -/
def Holds (d : Timing) (t : Trace) : Event → Prop
  | .fetched now i op => t.cycleAt .dispatch i = some now ∧ t.classAt i = some op
  | .issued now i p _ => t.cycleAt .issue i = some now ∧ t.poolAt i = some p
  | .started now i p _ => t.cycleAt .execute i = some now ∧ t.poolAt i = some p
  | .broadcast now i p => t.cycleAt .cdb i = some now ∧ t.poolAt i = some p
  | .retired now i => ∃ n, t.cycleAt .cdb i = some n ∧ now = n + 1
  | .storeCompleted now i => ∃ n, t.cycleAt .execute i = some n ∧ now = d .int n
  | .trapSkipped .. | .resolved .. | .stalled .. | .cycleCompleted .. | .runCompleted .. => True

/-- An event that sums up a cycle or a run. -/
inductive Summary where
  | cycle (now : Nat)
  | run (cycles records : Nat)
deriving DecidableEq, Repr

/-- What an event sums up. -/
def summary? : Event → Option Summary
  | .cycleCompleted now .. => some (.cycle now)
  | .runCompleted cycles records => some (.run cycles records)
  | _ => none

end Event

namespace Core

variable {config : Config} {program : Trace} {c c' : Core} {now : Nat} {f : Event}

/-- A record has passed a milestone. -/
def Passed (program : Trace) (c : Core) : Milestone × Nat → Prop
  | (.reached stage, i) => (c.trace.cycleAt stage i).isSome = true
  | (.skipped, i) => program.passes .skipped i = true ∧ i < c.machine.cursor
  | (.resolved, i) => program.passes .resolved i = true ∧ i < c.machine.cursor ∧ i ∉ c.queued
  | (.completed, i) => program.passes .completed i = true ∧
    (c.trace.cycleAt .issue i).isSome = true ∧ ¬ c.IsStationed i
  | (.retired, i) => c.IsRetired i

/-! ## Deeds and their events -/

/-- **One event has been logged**, and it reports the milestone that has been passed, if any. -/
structure Logged (program : Trace) (c c' : Core) (f : Event) : Prop where
  log : c'.log = c.log.push f
  passed : ∀ x, c'.Passed program x ↔ f.milestone? = some x ∨ c.Passed program x
  fresh : ∀ x, f.milestone? = some x → ¬ c.Passed program x

/-- A milestone that is not reported has been passed before or not at all. -/
theorem passed_unreported {x : Milestone × Nat} (hne : f.milestone? ≠ some x)
    (hsame : c'.Passed program x ↔ c.Passed program x) :
    c'.Passed program x ↔ f.milestone? = some x ∨ c.Passed program x :=
  hsame.trans (or_iff_right hne).symm

/-- A milestone that is reported for one record only. -/
theorem passed_reported {m : Milestone} {k i : Nat} (hreport : f.milestone? = some (m, k))
    (hnew : c'.Passed program (m, i) ↔ i = k ∨ c.Passed program (m, i)) :
    c'.Passed program (m, i) ↔ f.milestone? = some (m, i) ∨ c.Passed program (m, i) := by
  rw [hnew, hreport, Option.some.injEq, Prod.mk.injEq, and_iff_right rfl, eq_comm]

/-- A stamp takes one record to one stage. -/
theorem passed_stamped {stage : Stage} {k : Nat} (hlt : k < c.trace.size)
    (htrace : ∀ stage' i, c'.trace.cycleAt stage' i =
      (c.trace.stamped stage now k).cycleAt stage' i)
    (hreport : f.milestone? = some (.reached stage, k)) (stage' : Stage) (i : Nat) :
    c'.Passed program (.reached stage', i) ↔
      f.milestone? = some (.reached stage', i) ∨ c.Passed program (.reached stage', i) := by
  change (c'.trace.cycleAt stage' i).isSome = true ↔ _ ∨ (c.trace.cycleAt stage' i).isSome = true
  rw [htrace, Trace.cycleAt_stamped hlt, hreport]
  simp only [Option.some.injEq, Prod.mk.injEq, Milestone.reached.injEq, eq_comm (b := i),
    eq_comm (b := stage')]
  by_cases hi : i = k <;> by_cases hstage : stage' = stage <;> simp [hi, hstage]

/-- A result that is taken off the bus is logged. -/
theorem Sound.logged_woken (h : c.Sound config program) {d : Nat}
    (hbus : c.machine.bus.carried = some d) (now : Nat) (writes : List Nat) :
    Logged program c (c.woken now d writes) (.retired now d) where
  log := rfl
  fresh := by
    rintro x ⟨⟩
    exact fun hretired => hretired.2 hbus
  passed := by
    have hcycle := c.cycleAt_woken now d writes
    rintro ⟨m, i⟩
    cases m with
    | reached stage =>
      refine passed_unreported (by simp [Event.milestone?]) ?_
      rw [Passed, hcycle, Passed]
    | skipped | resolved => exact passed_unreported (by simp [Event.milestone?]) Iff.rfl
    | completed =>
      refine passed_unreported (by simp [Event.milestone?]) ?_
      rw [Passed, hcycle]
      rfl
    | retired => exact passed_reported rfl (h.isRetired_woken hbus now writes i)

section Station

variable {p : Pool} {u s : Nat} {e : InFlight}

theorem Sound.passes_station (h : c.Sound config program) (hs : c.stationAt p s = some e)
    (m : Milestone) : program.passes m e.index = m.isOf e.op := by
  rw [Trace.passes, (h.station_class hs).1, Option.any_some]

/-- A store that leaves is logged. -/
theorem Sound.logged_store (h : c.Sound config program) (hs : c.stationAt p s = some e)
    (hop : e.op = .store) :
    Logged program c ((c.freed p u s).noted (.storeCompleted now e.index))
      (.storeCompleted now e.index) where
  log := rfl
  fresh := by
    rintro x ⟨⟩
    exact fun hgone => hgone.2.2 ⟨p, s, e, hs, rfl⟩
  passed := by
    rintro ⟨m, i⟩
    cases m with
    | reached stage | skipped | resolved | retired =>
      exact passed_unreported (by simp [Event.milestone?]) Iff.rfl
    | completed =>
      refine passed_reported rfl ?_
      change program.passes .completed i = true ∧ (c.trace.cycleAt .issue i).isSome = true ∧
        ¬ (c.freed p u s).IsStationed i ↔ _
      rw [h.isStationed_freed hs, Passed]
      by_cases hi : i = e.index
      · simp [hi, h.passes_station hs, hop, (h.station_stamps hs).1, Milestone.isOf]
      · simp [hi]

/-- A result that is published is logged. -/
theorem Sound.logged_published (h : c.Sound config program) (hs : c.stationAt p s = some e)
    (hop : e.op.broadcasts = true) (hbus : c.machine.bus.carried = none) :
    Logged program c (c.published now p u s e.index) (.broadcast now e.index p) where
  log := rfl
  fresh := by
    rintro x ⟨⟩
    rw [Passed, (h.station_stamps hs).2]
    exact Bool.noConfusion
  passed := by
    have hlt := h.lt_size_of_station hs
    rintro ⟨m, i⟩
    cases m with
    | reached stage => exact passed_stamped hlt (fun _ _ => rfl) rfl stage i
    | skipped | resolved => exact passed_unreported (by simp [Event.milestone?]) Iff.rfl
    | completed =>
      refine passed_unreported (by simp [Event.milestone?]) ?_
      have hissue : (c.published now p u s e.index).trace.cycleAt .issue i =
          c.trace.cycleAt .issue i := Trace.cycleAt_stamped_of_ne (by decide) ..
      have hstationed : (c.published now p u s e.index).IsStationed i ↔
          c.IsStationed i ∧ i ≠ e.index := h.isStationed_freed (u := u) hs i
      rw [Passed, hissue, hstationed, Passed]
      by_cases hi : i = e.index
      · have hstore : program.passes .completed e.index = false := by
          rw [h.passes_station hs]
          cases hclass : e.op <;> simp_all [OpClass.broadcasts, Milestone.isOf]
        simp [hi, hstore]
      · simp [hi]
    | retired =>
      refine passed_unreported (by simp [Event.milestone?]) ?_
      change ((c.trace.stamped .cdb now e.index).cycleAt .cdb i).isSome = true ∧
        some e.index ≠ some i ↔ (c.trace.cycleAt .cdb i).isSome = true ∧ _
      rw [Trace.cycleAt_stamped hlt, hbus]
      by_cases hi : i = e.index
      · simp [hi, (h.station_stamps hs).2]
      · simp [hi, Ne.symm hi]

/-- A start is logged. -/
theorem Sound.logged_begun (h : c.Sound config program) (hs : c.stationAt p s = some e)
    (hnew : c.trace.cycleAt .execute e.index = none) :
    Logged program c (c.begun now p u s e.index) (.started now e.index p u) where
  log := rfl
  fresh := by
    rintro x ⟨⟩
    rw [Passed, hnew]
    exact Bool.noConfusion
  passed := by
    rintro ⟨m, i⟩
    cases m with
    | reached stage =>
      exact passed_stamped (h.lt_size_of_station hs) (fun _ _ => rfl) rfl stage i
    | skipped | resolved => exact passed_unreported (by simp [Event.milestone?]) Iff.rfl
    | completed =>
      refine passed_unreported (by simp [Event.milestone?]) ?_
      rw [Passed, cycleAt_begun_of_ne _ (by decide)]
      rfl
    | retired =>
      refine passed_unreported (by simp [Event.milestone?]) ?_
      rw [Passed, IsRetired, cycleAt_begun_of_ne _ (by decide)]
      rfl

end Station

section Head

variable {e : InFlight} {rest : List InFlight}

theorem Sound.passes_head (h : c.Sound config program)
    (hq : c.machine.queue.entries = e :: rest) (m : Milestone) :
    program.passes m e.index = m.isOf e.op := by
  rw [Trace.passes, h.classAt_head hq, Option.any_some]

/-- A control record that leaves the queue is logged. -/
theorem Sound.logged_passed (h : c.Sound config program)
    (hq : c.machine.queue.entries = e :: rest) (hop : e.op.isControl = true) :
    Logged program c (c.popped.noted (.resolved now e.index)) (.resolved now e.index) where
  log := rfl
  fresh := by
    rintro x ⟨⟩
    exact fun hgone => hgone.2.2 (head_mem_queued hq)
  passed := by
    rintro ⟨m, i⟩
    cases m with
    | reached stage | skipped | completed | retired =>
      exact passed_unreported (by simp [Event.milestone?]) Iff.rfl
    | resolved =>
      refine passed_reported rfl ?_
      change program.passes .resolved i = true ∧ i < c.machine.cursor ∧ i ∉ c.popped.queued ↔ _
      rw [h.mem_queued_popped hq, Passed]
      by_cases hi : i = e.index
      · simp [hi, h.passes_head hq, Milestone.isOf, hop, (h.mem_queued (head_mem_queued hq)).1]
      · simp [hi]

/-- An issue is logged. -/
theorem Sound.logged_issued (h : c.Sound config program)
    (hq : c.machine.queue.entries = e :: rest) {p : Pool} {s : Nat} {r : Record}
    (hpool : e.op.pool = some p) (hlt : s < (c.machine.stations p).size)
    (hs : c.stationAt p s = none) (hr : c.trace[e.index]? = some r) :
    Logged program c (c.issued now p s e r) (.issued now e.index p s) where
  log := rfl
  fresh := by
    rintro x ⟨⟩
    exact h.not_issued_head hq
  passed := by
    have hsize := Trace.lt_size_of_getElem? hr
    rintro ⟨m, i⟩
    cases m with
    | reached stage =>
      exact passed_stamped hsize (fun _ _ => Trace.cycleAt_renamed ..) rfl stage i
    | skipped => exact passed_unreported (by simp [Event.milestone?]) Iff.rfl
    | resolved =>
      refine passed_unreported (by simp [Event.milestone?]) ?_
      change program.passes .resolved i = true ∧ i < c.machine.cursor ∧ i ∉ c.popped.queued ↔ _
      rw [h.mem_queued_popped hq, Passed]
      by_cases hi : i = e.index
      · have hcontrol : program.passes .resolved e.index = false := by
          rw [h.passes_head hq]
          cases hclass : e.op <;> simp_all [OpClass.pool, OpClass.isControl, Milestone.isOf]
        simp [hi, hcontrol]
      · simp [hi]
    | completed =>
      refine passed_unreported (by simp [Event.milestone?]) ?_
      rw [Passed, isSome_issued_iff _ hsize, isStationed_issued _ hlt hs, Passed]
      by_cases hi : i = e.index
      · simp [hi, h.not_issued_head hq]
      · simp [hi]
    | retired =>
      refine passed_unreported (by simp [Event.milestone?]) ?_
      rw [Passed, IsRetired, cycleAt_issued_of_ne _ (by decide)]
      rfl

end Head

section Cursor

variable {r : Record} {op : OpClass}

theorem Sound.passes_cursor (h : c.Sound config program)
    (hr : c.trace[c.machine.cursor]? = some r)
    (hcheck : r.check c.machine.registers.size = .ok op) (m : Milestone) :
    program.passes m c.machine.cursor = m.isOf op := by
  rw [Trace.passes, h.class_cursor hr hcheck, Option.any_some]

/-- A trap that is passed over is logged. -/
theorem Sound.logged_skipped (h : c.Sound config program)
    (hr : c.trace[c.machine.cursor]? = some r)
    (hcheck : r.check c.machine.registers.size = .ok .trap) :
    Logged program c (c.advanced.noted (.trapSkipped now c.machine.cursor))
      (.trapSkipped now c.machine.cursor) where
  log := rfl
  fresh := by
    rintro x ⟨⟩
    exact fun hgone => Nat.lt_irrefl _ hgone.2
  passed := by
    rintro ⟨m, i⟩
    cases m with
    | reached stage | completed | retired =>
      exact passed_unreported (by simp [Event.milestone?]) Iff.rfl
    | skipped =>
      refine passed_reported rfl ?_
      change program.passes .skipped i = true ∧ i < c.machine.cursor + 1 ↔ _
      rw [Nat.lt_succ_iff_lt_or_eq, Passed]
      by_cases hi : i = c.machine.cursor
      · simp [hi, h.passes_cursor hr hcheck, Milestone.isOf]
      · simp [hi]
    | resolved =>
      refine passed_unreported (by simp [Event.milestone?]) ?_
      change program.passes .resolved i = true ∧ i < c.machine.cursor + 1 ∧ i ∉ c.queued ↔ _
      rw [Nat.lt_succ_iff_lt_or_eq, Passed]
      by_cases hi : i = c.machine.cursor
      · simp [hi, h.passes_cursor hr hcheck, Milestone.isOf, OpClass.isControl]
      · simp [hi]

/-- A fetch is logged. -/
theorem Sound.logged_fetched (h : c.Sound config program)
    (hr : c.trace[c.machine.cursor]? = some r)
    (hcheck : r.check c.machine.registers.size = .ok op) (hop : op ≠ .trap) :
    Logged program c (c.fetched now op) (.fetched now c.machine.cursor op) where
  log := rfl
  fresh := by
    rintro x ⟨⟩
    exact fun hi => Nat.lt_irrefl _ (h.dispatched.1 hi).1
  passed := by
    have hqueued : (c.fetched now op).queued = c.queued ++ [c.machine.cursor] := by
      simp [queued, Core.fetched]
    rintro ⟨m, i⟩
    cases m with
    | reached stage =>
      exact passed_stamped (Trace.lt_size_of_getElem? hr) (fun _ _ => rfl) rfl stage i
    | skipped =>
      refine passed_unreported (by simp [Event.milestone?]) ?_
      change program.passes .skipped i = true ∧ i < c.machine.cursor + 1 ↔ _
      rw [Nat.lt_succ_iff_lt_or_eq, Passed]
      by_cases hi : i = c.machine.cursor
      · simp [hi, h.passes_cursor hr hcheck, Milestone.isOf, hop]
      · simp [hi]
    | resolved =>
      refine passed_unreported (by simp [Event.milestone?]) ?_
      change program.passes .resolved i = true ∧ i < c.machine.cursor + 1 ∧
        i ∉ (c.fetched now op).queued ↔ _
      rw [Nat.lt_succ_iff_lt_or_eq, hqueued, Passed]
      by_cases hi : i = c.machine.cursor
      · simp [hi]
      · simp [hi]
    | completed =>
      refine passed_unreported (by simp [Event.milestone?]) ?_
      rw [Passed, cycleAt_fetched_of_ne _ (by decide)]
      rfl
    | retired =>
      refine passed_unreported (by simp [Event.milestone?]) ?_
      rw [Passed, IsRetired, cycleAt_fetched_of_ne _ (by decide)]
      rfl

end Cursor

/-- An event that reports no milestone changes nothing. -/
theorem logged_noted (hf : f.milestone? = none) : Logged program c (c.noted f) f where
  log := rfl
  passed x := passed_unreported (by simp [hf]) (by rcases x with ⟨_ | _, _⟩ <;> exact Iff.rfl)
  fresh x hx := by simp [hf] at hx

/-- **A deed logs one event, which is true afterwards** and sums up nothing.  A store that leaves
must not be overdue, nor have started in the cycle at hand. -/
theorem Sound.exists_logged (h : c.Sound config program) (ht : c.Timed config now)
    (hdeed : Deed now c c') (hstay : c'.StartsStay now)
    (hstore : ∀ {p s e f}, c.stationAt p s = some e → e.op = .store →
      c.trace.doneAt config.timing e.index = some f → now ≤ f) :
    ∃ f, Logged program c c' f ∧ f.Holds config.timing c'.trace ∧ f.summary? = none := by
  have h' := h.move hdeed.move
  have hpoolAt {p : Pool} {i : Nat} (hp : program.poolAt i = some p) :
      c'.trace.poolAt i = some p := by
    rw [h'.poolAt_trace, hp]
  have hstamped {stage : Stage} {i : Nat} (hlt : i < c.trace.size) :
      (c.trace.stamped stage now i).cycleAt stage i = some now := by
    rw [Trace.cycleAt_stamped hlt, if_pos ⟨rfl, rfl⟩]
  cases hdeed.move with
  | wake hbus hr => exact absurd ((hdeed.bus rfl).symm.trans hbus) nofun
  | @store p u s e hu hs hop hdone =>
    refine ⟨_, h.logged_store hs hop, ?_, rfl⟩
    have hpast (n : Nat) (hn : c.trace.cycleAt .execute e.index = some n) : n < now := by
      refine Nat.lt_of_le_of_ne (ht.cycle_le hn) ?_
      rintro rfl
      exact ((h.isStationed_freed hs e.index).1 (hstay e.index hn)).2 rfl
    obtain ⟨d, hd, hle⟩ :=
      (Trace.doneAt_wordSum_iff hpast).1 ((h.hasFinished_iff_doneAt hs).1 hdone)
    obtain ⟨q, n, hq, hn, hsum⟩ := Trace.doneAt_eq_some_iff.1 hd
    have hint : c.trace.poolAt e.index = some .int := by
      rw [h.poolAt_trace, Trace.poolAt, (h.station_class hs).1, hop]
      rfl
    obtain rfl := Option.some.inj (hq.symm.trans hint)
    exact ⟨n, hn, hsum ▸ Nat.le_antisymm (hstore hs hop hd) hle⟩
  | publish hu hs hop hdone hbus =>
    exact ⟨_, h.logged_published hs hop hbus,
      ⟨hstamped (h.lt_size_of_station hs), hpoolAt (h.poolAt_station hs)⟩, rfl⟩
  | start hlt hu hs hready =>
    have hsize := h.lt_size_of_station hs
    exact ⟨_, h.logged_begun hs ((isReady_iff hsize).1 hready).2.2,
      ⟨hstamped hsize, hpoolAt (h.poolAt_station hs)⟩, rfl⟩
  | pass hq hop => exact ⟨_, h.logged_passed hq hop, trivial, rfl⟩
  | issue hq hpool hlt hs hr =>
    have hsize := Trace.lt_size_of_getElem? hr
    refine ⟨_, h.logged_issued hq hpool hlt hs hr, ⟨?_, hpoolAt ?_⟩, rfl⟩
    · rw [c.cycleAt_issued hsize, if_pos ⟨rfl, rfl⟩]
    · rw [Trace.poolAt, h.classAt_head hq]
      exact hpool
  | skip hr hcheck => exact ⟨_, h.logged_skipped hr hcheck, trivial, rfl⟩
  | fetch hr hcheck hop hroom =>
    refine ⟨_, h.logged_fetched hr hcheck hop, ⟨hstamped (Trace.lt_size_of_getElem? hr), ?_⟩, rfl⟩
    rw [h'.classAt_trace, h.class_cursor hr hcheck]
  | note f =>
    have hstall := hdeed.stall rfl
    cases f with
    | stalled now i p => exact ⟨_, logged_noted rfl, trivial, rfl⟩
    | _ => cases hstall

/-! ## The log of a core -/

/-- What is true of a schedule stays true. -/
theorem Sound.holds_moves (h : c.Sound config program) (hmoves : Moves now c c') {d : Timing}
    (hf : f.Holds d c.trace) : f.Holds d c'.trace := by
  have h' := h.moves hmoves
  have hclass : c'.trace.classAt = c.trace.classAt := h'.classAt_trace.trans h.classAt_trace.symm
  have hpool : c'.trace.poolAt = c.trace.poolAt := h'.poolAt_trace.trans h.poolAt_trace.symm
  have hcycle {stage : Stage} {i n : Nat} (hn : c.trace.cycleAt stage i = some n) :
      c'.trace.cycleAt stage i = some n := by
    rcases h.cycleAt_moves hmoves stage i with heq | ⟨hnone, -⟩
    · rw [heq, hn]
    · rw [hn] at hnone
      cases hnone
  cases f with
  | fetched now i op => exact ⟨hcycle hf.1, hclass ▸ hf.2⟩
  | issued now i p s => exact ⟨hcycle hf.1, hpool ▸ hf.2⟩
  | started now i p u => exact ⟨hcycle hf.1, hpool ▸ hf.2⟩
  | broadcast now i p => exact ⟨hcycle hf.1, hpool ▸ hf.2⟩
  | retired now i => exact hf.imp fun n hn => ⟨hcycle hn.1, hn.2⟩
  | storeCompleted now i => exact hf.imp fun n hn => ⟨hcycle hn.1, hn.2⟩
  | _ => trivial

/-- **The log tells the story of the core**: the milestones that have been passed, once each, and
nothing that is not true. -/
structure Recorded (config : Config) (program : Trace) (c : Core) : Prop where
  nodup : (c.log.toList.filterMap Event.milestone?).Nodup
  mem : ∀ x, x ∈ c.log.toList.filterMap Event.milestone? ↔ c.Passed program x
  holds : ∀ f ∈ c.log.toList, f.Holds config.timing c.trace

/-- Nothing has happened and nothing is logged at first. -/
theorem recorded_start (config : Config) (hprogram : program.unscheduled = program) :
    (start config program).Recorded config program where
  nodup := List.nodup_nil
  mem x := by
    have hcycle (stage : Stage) (i : Nat) :
        (start config program).trace.cycleAt stage i = none := by
      change program.cycleAt stage i = none
      rw [← hprogram]
      exact program.cycleAt_unscheduled stage i
    refine iff_of_false List.not_mem_nil ?_
    obtain ⟨m, i⟩ := x
    cases m with
    | reached stage =>
      rw [Passed, hcycle]
      exact Bool.noConfusion
    | skipped => exact fun hx => Nat.not_lt_zero _ hx.2
    | resolved => exact fun hx => Nat.not_lt_zero _ hx.2.1
    | completed =>
      rw [Passed, hcycle]
      exact fun hx => Bool.noConfusion hx.2.1
    | retired =>
      rw [Passed, IsRetired, hcycle]
      exact fun hx => Bool.noConfusion hx.1
  holds := nofun

/-- A new event that is true and reports what is new. -/
theorem Recorded.logged (h : c.Recorded config program) (hs : c.Sound config program)
    (hmove : Move now c c') (hlogged : Logged program c c' f)
    (hf : f.Holds config.timing c'.trace) : c'.Recorded config program := by
  have hlist : c'.log.toList.filterMap Event.milestone? =
      c.log.toList.filterMap Event.milestone? ++ f.milestone?.toList := by
    rw [hlogged.log, Array.toList_push, List.filterMap_append]
    cases hm : f.milestone? <;> simp [hm]
  constructor
  case nodup =>
    rw [hlist, List.nodup_append']
    refine ⟨h.nodup, by cases f.milestone? <;> simp, fun x hx hnew => ?_⟩
    exact hlogged.fresh x (Option.mem_toList.1 hnew) ((h.mem x).1 hx)
  case mem =>
    intro x
    rw [hlist, List.mem_append, h.mem, hlogged.passed, Option.mem_toList, or_comm]
  case holds =>
    intro g hg
    rw [hlogged.log, Array.toList_push, List.mem_append, List.mem_singleton] at hg
    rcases hg with hg | rfl
    · exact hs.holds_moves (.single hmove) (h.holds g hg)
    · exact hf

theorem Recorded.noted (h : c.Recorded config program) (hs : c.Sound config program)
    (hf : f.milestone? = none) (hholds : f.Holds config.timing c.trace) :
    (c.noted f).Recorded config program := by
  have hmove : Move 0 c (c.noted f) := .note f
  exact h.logged hs hmove (logged_noted hf) hholds

/-- **A wake is recorded**, if the record on the bus has been stamped in the cycle before. -/
theorem Recorded.awoken (h : c.Recorded config program) (hs : c.Sound config program) {n : Nat}
    (hset : c.Settled config n) : (c.awoken (n + 1)).Recorded config program ∧
      (c.awoken (n + 1)).log.toList.filterMap Event.summary? =
        c.log.toList.filterMap Event.summary? := by
  unfold Core.awoken
  split
  · exact ⟨h, rfl⟩
  · next d hbus =>
    have hn := (hset.bus d).1 hbus
    obtain ⟨r, hr⟩ := Trace.exists_getElem? (Trace.lt_size_of_cycleAt hn)
    have hmove : Move (n + 1) c (c.woken (n + 1) d r.writes) := .wake hbus hr
    rw [show c.trace.writesAt d = r.writes by simp [Trace.writesAt, hr]]
    refine ⟨h.logged hs hmove (hs.logged_woken hbus (n + 1) r.writes) ⟨n, ?_, rfl⟩, ?_⟩
    · rw [cycleAt_woken, hn]
    · rw [woken, Array.toList_push, List.filterMap_append]
      exact List.append_nil _

/-- **Deeds are recorded**, if no store is overdue and what starts stays. -/
theorem Recorded.deeds (h : c.Recorded config program) (hs : c.Sound config program) {n : Nat}
    (ht : c.Timed config (n + 1)) (hdeeds : Deeds (n + 1) c c') (hstay : c'.StartsStay (n + 1))
    (hstore : ∀ {p s e f}, c.stationAt p s = some e → e.op = .store →
      c.trace.doneAt config.timing e.index = some f → n < f) : c'.Recorded config program ∧
      c'.log.toList.filterMap Event.summary? = c.log.toList.filterMap Event.summary? := by
  induction hdeeds with
  | refl => exact ⟨h, rfl⟩
  | tail hdeeds hdeed ih =>
    have hmoves := Deeds.moves hdeeds
    have hd := hs.moves hmoves
    have hstay' := hd.startsStay_of_moves (.single hdeed.move) hstay
    obtain ⟨f, hlogged, hholds, hsummary⟩ :=
      hd.exists_logged (ht.moves hs (Nat.succ_pos n) hmoves hstay') hdeed hstay fun hst hop hf =>
        hs.store_later hmoves (Nat.le_succ n) hstore hst hop hf
    have ih := ih hstay'
    refine ⟨ih.1.logged hd hdeed.move hlogged hholds, ?_⟩
    rw [hlogged.log, Array.toList_push, List.filterMap_append, ih.2]
    simp [hsummary]

end Core

end Tomasulo
