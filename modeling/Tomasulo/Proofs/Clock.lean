import Tomasulo.Proofs.Invariant
import Tomasulo.Proofs.Schedule

/-!
# Proofs/Clock — the stamps against the clock

A stamp is written once, with the cycle at hand (`Sound.cycleAt_move`), and who has left its station
never comes back (`Sound.isStationed_moves`).  On top of that `Core.Timed` orders the stamps of one
record: it starts after the cycle of its issue, it takes the bus no earlier than it is done, and it
gives up its station no earlier either.

A unit whose sum has wrapped may say in the very cycle of the start that its record is done.  Moves
come in any order, so these facts are kept by the moves that leave what has started now where it is
(`Core.StartsStay`), as those of a cycle do.
-/

namespace Tomasulo

namespace Core

variable {config : Config} {program : Trace} {c c' : Core} {now : Nat}

/-! ## A stamp is written once -/

/-- A unit says that its record is done by the sum it computes. -/
theorem Sound.hasFinished_iff_doneAt (h : c.Sound config program) {p : Pool} {u s : Nat}
    {e : InFlight} (hs : c.stationAt p s = some e) :
    c.hasFinished now ⟨p, u, s, e⟩ = true ↔
      ∃ f, c.trace.doneAt config.wordSum e.index = some f ∧ f ≤ now := by
  have hpool : c.trace.poolAt e.index = some p := by
    rw [h.poolAt_trace]
    exact h.poolAt_station hs
  rw [hasFinished_iff, h.fits.latency]
  simp [Trace.doneAt_eq_some_iff, hpool, Config.wordSum]

/-- What lets a record enter a stage. -/
def Admits (config : Config) (now : Nat) (c : Core) : Stage → Nat → Prop
  | .dispatch, i => i = c.machine.cursor
  | .issue, i => c.queued.head? = some i
  | .execute, i => ∃ m, c.trace.cycleAt .issue i = some m ∧ m < now
  | .cdb, i => ∃ f, c.trace.doneAt config.wordSum i = some f ∧ f ≤ now

/-- **A move keeps every stamp and writes at most one**, with the cycle at hand, on a record that
may enter the stage. -/
theorem Sound.cycleAt_move (h : c.Sound config program) (hmove : Move now c c') (stage : Stage)
    (i : Nat) : c'.trace.cycleAt stage i = c.trace.cycleAt stage i ∨
      c.trace.cycleAt stage i = none ∧ c'.trace.cycleAt stage i = some now ∧
        c.Admits config now stage i := by
  have hstamped {st : Stage} {k : Nat} (hlt : k < c.trace.size)
      (hnew : c.trace.cycleAt st k = none) (hadmits : c.Admits config now st k) :
      (c.trace.stamped st now k).cycleAt stage i = c.trace.cycleAt stage i ∨
        c.trace.cycleAt stage i = none ∧
          (c.trace.stamped st now k).cycleAt stage i = some now ∧
            c.Admits config now stage i := by
    rw [Trace.cycleAt_stamped hlt]
    split
    · next hk =>
      obtain ⟨rfl, rfl⟩ := hk
      exact .inr ⟨hnew, rfl, hadmits⟩
    · exact .inl rfl
  cases hmove with
  | wake hbus hr => exact .inl (c.cycleAt_woken ..)
  | store hu hs hop hdone => exact .inl rfl
  | publish hu hs hop hdone hbus =>
    exact hstamped (h.lt_size_of_station hs) (h.station_stamps hs).2
      ((h.hasFinished_iff_doneAt hs).1 hdone)
  | start hlt hu hs hready =>
    have hsize := h.lt_size_of_station hs
    obtain ⟨-, hissue, hnew⟩ := (isReady_iff hsize).1 hready
    exact hstamped hsize hnew hissue
  | pass hq hop => exact .inl rfl
  | @issue e rest p s r hq hpool hlt hs hr =>
    have hhead : c.queued.head? = some e.index := by simp [queued_of_entries hq]
    have hnew : c.trace.cycleAt .issue e.index = none :=
      Option.not_isSome_iff_eq_none.1 fun hi => (h.issued.1 hi).2.2 (List.mem_of_head? hhead)
    rw [show (c.issued now p s e r).trace.cycleAt stage i =
      (c.trace.stamped .issue now e.index).cycleAt stage i from Trace.cycleAt_renamed ..]
    exact hstamped (Trace.lt_size_of_getElem? hr) hnew hhead
  | skip hr hcheck => exact .inl rfl
  | fetch hr hcheck hop hroom =>
    have hnew : c.trace.cycleAt .dispatch c.machine.cursor = none :=
      Option.not_isSome_iff_eq_none.1 fun hi => Nat.lt_irrefl _ (h.dispatched.1 hi).1
    exact hstamped (Trace.lt_size_of_getElem? hr) hnew rfl
  | note e => exact .inl rfl

/-- Any number of moves in one cycle keep every stamp and write theirs with the cycle. -/
theorem Sound.cycleAt_moves (h : c.Sound config program) (hmoves : Moves now c c') (stage : Stage)
    (i : Nat) : c'.trace.cycleAt stage i = c.trace.cycleAt stage i ∨
      c.trace.cycleAt stage i = none ∧ c'.trace.cycleAt stage i = some now := by
  induction hmoves with
  | refl => exact .inl rfl
  | tail hmoves hmove ih =>
    rcases (h.moves hmoves).cycleAt_move hmove stage i with heq | ⟨hnone, hnow, -⟩
    · rw [heq]
      exact ih
    · rw [hnone] at ih
      rcases ih with heq | ⟨-, hsome⟩
      · exact .inr ⟨heq.symm, hnow⟩
      · cases hsome

/-! ## No record comes back -/

theorem Sound.isStationed_move (h : c.Sound config program) (hmove : Move now c c') {i : Nat}
    (hi : (c.trace.cycleAt .issue i).isSome = true) (hst : c'.IsStationed i) :
    c.IsStationed i := by
  have hfreed {p u s} (hst : (c.freed p u s).IsStationed i) : c.IsStationed i := by
    obtain ⟨q, x, f, hf, rfl⟩ := hst
    exact ⟨q, x, f, ((c.stationAt_freed p u s).1 hf).2, rfl⟩
  cases hmove with
  | wake hbus hr => exact hst
  | store hu hs hop hdone => exact hfreed hst
  | publish hu hs hop hdone hbus => exact hfreed hst
  | start hlt hu hs hready => exact hst
  | pass hq hop => exact hst
  | issue hq hpool hlt hs hr =>
    rcases (c.isStationed_issued hlt hs now _ _ i).1 hst with rfl | hst
    · exact absurd hi (h.not_issued_head hq)
    · exact hst
  | skip hr hcheck => exact hst
  | fetch hr hcheck hop hroom => exact hst
  | note e => exact hst

/-- **Who has left its station never comes back.** -/
theorem Sound.isStationed_moves (h : c.Sound config program) (hmoves : Moves now c c') {i : Nat}
    (hi : (c.trace.cycleAt .issue i).isSome = true) (hst : c'.IsStationed i) :
    c.IsStationed i := by
  induction hmoves with
  | refl => exact hst
  | tail hmoves hmove ih =>
    refine ih ((h.moves hmoves).isStationed_move hmove ?_ hst)
    rcases h.cycleAt_moves hmoves .issue i with heq | ⟨hnone, -⟩
    · rwa [heq]
    · rw [hnone] at hi
      exact Bool.noConfusion hi

/-! ## The order of the stamps -/

/-- The stamps up to a cycle are in order. -/
structure Timed (config : Config) (now : Nat) (c : Core) : Prop where
  cycle_pos : ∀ {stage i n}, c.trace.cycleAt stage i = some n → 0 < n
  cycle_le : ∀ {stage i n}, c.trace.cycleAt stage i = some n → n ≤ now
  /-- A record stays in its station for a cycle before it starts. -/
  issue_lt : ∀ {i m n}, c.trace.cycleAt .issue i = some m → c.trace.cycleAt .execute i = some n →
    m < n
  done_le : ∀ {i n}, c.trace.cycleAt .cdb i = some n →
    ∃ f, c.trace.doneAt config.timing i = some f ∧ f ≤ n
  /-- A station is kept until its record is done. -/
  left : ∀ {i}, (c.trace.cycleAt .issue i).isSome = true → ¬ c.IsStationed i →
    ∃ f, c.trace.doneAt config.timing i = some f ∧ f ≤ now

/-- What holds at a cycle holds later. -/
theorem Timed.mono (h : c.Timed config now) {later : Nat} (hle : now ≤ later) :
    c.Timed config later where
  cycle_pos := h.cycle_pos
  cycle_le hn := Nat.le_trans (h.cycle_le hn) hle
  issue_lt := h.issue_lt
  done_le := h.done_le
  left hi hnot := by
    obtain ⟨f, hf, hle'⟩ := h.left hi hnot
    exact ⟨f, hf, Nat.le_trans hle' hle⟩

/-- A finished record has been done. -/
theorem Timed.done_of_finished (h : c.Timed config now) {i m : Nat}
    (hm : c.trace.finishAt config.timing i = some m) :
    ∃ f, c.trace.doneAt config.timing i = some f ∧ f ≤ m := by
  rw [Trace.finishAt] at hm
  split at hm
  · exact h.done_le hm
  · exact ⟨m, hm, Nat.le_refl m⟩

theorem timed_start (config : Config) {program : Trace} (hprogram : program.unscheduled = program)
    (now : Nat) : (start config program).Timed config now := by
  have hcycle (stage : Stage) (i : Nat) : (start config program).trace.cycleAt stage i = none := by
    change program.cycleAt stage i = none
    rw [← hprogram]
    exact program.cycleAt_unscheduled stage i
  constructor <;> simp [hcycle]

/-- A record that has started keeps the cycle in which it is done. -/
theorem Sound.doneAt_moves (h : c.Sound config program) (hmoves : Moves now c c') {d : Timing}
    {i f : Nat} (hf : c.trace.doneAt d i = some f) : c'.trace.doneAt d i = some f := by
  obtain ⟨p, n, hp, hn, hsum⟩ := Trace.doneAt_eq_some_iff.1 hf
  refine Trace.doneAt_eq_some_iff.2 ⟨p, n, ?_, ?_, hsum⟩
  · rw [(h.moves hmoves).poolAt_trace, ← h.poolAt_trace]
    exact hp
  · rcases h.cycleAt_moves hmoves .execute i with heq | ⟨hnone, -⟩
    · rw [heq]
      exact hn
    · rw [hnone] at hn
      cases hn

/-- A move keeps an issued record in its station unless its unit says that it is done. -/
theorem Sound.left_move (h : c.Sound config program) (hmove : Move now c c') {i : Nat}
    (hi : (c'.trace.cycleAt .issue i).isSome = true) (hnot : ¬ c'.IsStationed i) :
    ((c.trace.cycleAt .issue i).isSome = true ∧ ¬ c.IsStationed i) ∨
      ∃ f, c.trace.doneAt config.wordSum i = some f ∧ f ≤ now := by
  have hfreed {p u s e} (hs : c.stationAt p s = some e)
      (hdone : c.hasFinished now ⟨p, u, s, e⟩ = true)
      (hissue : (c.trace.cycleAt .issue i).isSome = true)
      (hnot : ¬ (c.freed p u s).IsStationed i) :
      ((c.trace.cycleAt .issue i).isSome = true ∧ ¬ c.IsStationed i) ∨
        ∃ f, c.trace.doneAt config.wordSum i = some f ∧ f ≤ now := by
    rw [h.isStationed_freed hs, not_and_not_right] at hnot
    by_cases hst : c.IsStationed i
    · rw [hnot hst]
      exact .inr ((h.hasFinished_iff_doneAt hs).1 hdone)
    · exact .inl ⟨hissue, hst⟩
  have hother {st k} (hst : .issue ≠ st)
      (hi : ((c.trace.stamped st now k).cycleAt .issue i).isSome = true) :
      (c.trace.cycleAt .issue i).isSome = true := by
    rwa [Trace.cycleAt_stamped_of_ne hst] at hi
  cases hmove with
  | wake hbus hr =>
    rw [cycleAt_woken] at hi
    exact .inl ⟨hi, hnot⟩
  | store hu hs hop hdone => exact hfreed hs hdone hi hnot
  | publish hu hs hop hdone hbus =>
    exact hfreed hs hdone (hother (by decide) hi) hnot
  | start hlt hu hs hready =>
    exact .inl ⟨hother (by decide) hi, hnot⟩
  | pass hq hop => exact .inl ⟨hi, hnot⟩
  | issue hq hpool hlt hs hr =>
    rw [cycleAt_issued _ (Trace.lt_size_of_getElem? hr)] at hi
    rw [isStationed_issued _ hlt hs, not_or] at hnot
    rw [if_neg fun hk => hnot.1 hk.1] at hi
    exact .inl ⟨hi, hnot.2⟩
  | skip hr hcheck => exact .inl ⟨hi, hnot⟩
  | fetch hr hcheck hop hroom =>
    exact .inl ⟨hother (by decide) hi, hnot⟩
  | note e => exact .inl ⟨hi, hnot⟩

theorem Sound.left_moves (h : c.Sound config program) (hmoves : Moves now c c') {i : Nat}
    (hi : (c'.trace.cycleAt .issue i).isSome = true) (hnot : ¬ c'.IsStationed i) :
    ((c.trace.cycleAt .issue i).isSome = true ∧ ¬ c.IsStationed i) ∨
      ∃ f, c'.trace.doneAt config.wordSum i = some f ∧ f ≤ now := by
  induction hmoves with
  | refl => exact .inl ⟨hi, hnot⟩
  | tail hmoves hmove ih =>
    have hd := h.moves hmoves
    have hkept {f : Nat} (hf : _ = some f) :=
      hd.doneAt_moves (.single hmove) (d := config.wordSum) (i := i) hf
    rcases hd.left_move hmove hi hnot with ⟨hi, hnot⟩ | ⟨f, hf, hle⟩
    · exact (ih hi hnot).imp_right fun ⟨f, hf, hle⟩ => ⟨f, hkept hf, hle⟩
    · exact .inr ⟨f, hkept hf, hle⟩

/-- What has started in the cycle at hand is in its station still. -/
def StartsStay (now : Nat) (c : Core) : Prop :=
  ∀ i, c.trace.cycleAt .execute i = some now → c.IsStationed i

/-- With no record coming back, what stays to the end has stayed so far. -/
theorem Sound.startsStay_of_moves (h : c.Sound config program) (hmoves : Moves now c c')
    (hstay : c'.StartsStay now) : c.StartsStay now := by
  intro i hi
  refine h.isStationed_moves hmoves (h.started (Option.isSome_of_eq_some hi)) (hstay i ?_)
  rcases h.cycleAt_moves hmoves .execute i with heq | ⟨hnone, -⟩
  · rwa [heq]
  · rw [hnone] at hi
    cases hi

/-- What starts nothing and frees no station lets the starts stay. -/
theorem StartsStay.of_eq (h : c.StartsStay now)
    (hexecute : ∀ i, c'.trace.cycleAt .execute i = c.trace.cycleAt .execute i)
    (hstationed : ∀ i, c.IsStationed i → c'.IsStationed i) : c'.StartsStay now :=
  fun i hi => hstationed i (h i ((hexecute i).symm.trans hi))

/-- **Every move of the cycle at hand keeps the stamps in order**, if what starts now stays. Who is
not in its station has started in an earlier cycle, so its unit is right. -/
theorem Timed.move (h : c.Timed config now) (hs : c.Sound config program) (hnow : 0 < now)
    (hmove : Move now c c') (hstay : c'.StartsStay now) : c'.Timed config now := by
  have hcycle := hs.cycleAt_move hmove
  have hdone {i f : Nat} (hf : c.trace.doneAt config.timing i = some f) :=
    hs.doneAt_moves (.single hmove) hf
  have hgone {i : Nat} (hnot : ¬ c'.IsStationed i)
      (hsum : ∃ f, c.trace.doneAt config.wordSum i = some f ∧ f ≤ now) :
      ∃ f, c'.trace.doneAt config.timing i = some f ∧ f ≤ now := by
    have hpast : ∀ n, c.trace.cycleAt .execute i = some n → n < now := by
      refine fun n hn => Nat.lt_of_le_of_ne (h.cycle_le hn) ?_
      rintro rfl
      rcases hcycle .execute i with heq | ⟨hnone, -⟩
      · exact hnot (hstay i (heq.trans hn))
      · rw [hnone] at hn
        cases hn
    obtain ⟨f, hf, hle⟩ := (Trace.doneAt_wordSum_iff hpast).1 hsum
    exact ⟨f, hdone hf, hle⟩
  constructor
  case cycle_pos =>
    intro stage i n hn
    rcases hcycle stage i with heq | ⟨-, hnew, -⟩
    · exact h.cycle_pos (heq ▸ hn)
    · obtain rfl := Option.some.inj (hnew.symm.trans hn)
      exact hnow
  case cycle_le =>
    intro stage i n hn
    rcases hcycle stage i with heq | ⟨-, hnew, -⟩
    · exact h.cycle_le (heq ▸ hn)
    · obtain rfl := Option.some.inj (hnew.symm.trans hn)
      exact Nat.le_refl _
  case issue_lt =>
    intro i m n hm hn
    rcases hcycle .execute i with heq | ⟨-, hnew, m', hm', hlt⟩
    · rw [heq] at hn
      rcases hcycle .issue i with heq | ⟨hnone, -, -⟩
      · exact h.issue_lt (heq ▸ hm) hn
      · -- A record that is issued now cannot have started.
        have hissued := hs.started (Option.isSome_of_eq_some hn)
        rw [hnone] at hissued
        exact Bool.noConfusion hissued
    · obtain rfl := Option.some.inj (hnew.symm.trans hn)
      rcases hcycle .issue i with heq | ⟨hnone, -, -⟩
      · rw [heq, hm'] at hm
        exact Option.some.inj hm ▸ hlt
      · rw [hnone] at hm'
        cases hm'
  case done_le =>
    intro i n hn
    rcases hcycle .cdb i with heq | ⟨-, hnew, hsum⟩
    · obtain ⟨f, hf, hle⟩ := h.done_le (heq ▸ hn)
      exact ⟨f, hdone hf, hle⟩
    · obtain rfl := Option.some.inj (hnew.symm.trans hn)
      refine hgone ?_ hsum
      rintro ⟨p, s, e, hst, rfl⟩
      rw [((hs.move hmove).station_stamps hst).2] at hn
      cases hn
  case left =>
    intro i hi hnot
    rcases hs.left_move hmove hi hnot with ⟨hi, hnot⟩ | hsum
    · obtain ⟨f, hf, hle⟩ := h.left hi hnot
      exact ⟨f, hdone hf, hle⟩
    · exact hgone hnot hsum

theorem Timed.moves (h : c.Timed config now) (hs : c.Sound config program) (hnow : 0 < now)
    (hmoves : Moves now c c') (hstay : c'.StartsStay now) : c'.Timed config now := by
  induction hmoves with
  | refl => exact h
  | tail hmoves hmove ih =>
    have hd := hs.moves hmoves
    exact (ih (hd.startsStay_of_moves (.single hmove) hstay)).move hd hnow hmove hstay

end Core

end Tomasulo
