import Tomasulo.Proofs.Lockstep
import Tomasulo.Proofs.Placement

/-!
# Proofs/Refusal — a record that the machine refuses

Fetch looks at a record when its turn has come and there is room in the queue.  If the machine
refuses the record, fetch is stuck at it (`Core.Stuck`) and every later tick fails for the same
reason, while the other steps go on with what is in flight.  So the machine does with the records in
front of it what it does when they are the whole program, tick by tick (`Core.Copies` under the
indices that they have), and knows nothing of the records behind it.
-/

namespace Tomasulo

/-- The record that a rejection is about. -/
def Rejection.index : Rejection → Nat
  | .unknownClass index _ => index
  | .registerOutOfRange index _ _ => index

/-- A check that fails names the record. -/
theorem Record.index_of_check {r : Record} {registers : Nat} {reason : Rejection}
    (h : r.check registers = .error reason) : reason.index = r.index := by
  unfold check at h
  split at h
  · cases h
    rfl
  · cases h
  · split at h
    · cases h
      rfl
    · cases h

/-! ## Being stuck -/

namespace Core

variable {config : Config} {program : Trace} {c c' : Core} {n k : Nat} {r : Record}
  {reason reason' : Rejection}

/-- A refused record is never behind the cursor. -/
theorem Sound.cursor_le_of_refused (h : c.Sound config program) (hr : program[k]? = some r)
    (hcheck : r.check config.registers = .error reason) : c.machine.cursor ≤ k := by
  refine Nat.le_of_not_lt fun hlt => ?_
  obtain ⟨r', op, hr', hop⟩ := h.accepted hlt
  obtain rfl := Option.some.inj (hr.symm.trans hr')
  cases hcheck.symm.trans hop

/-- **Fetch gets stuck at the first refused record**: the one it has come to is no later than any
other. -/
theorem Sound.eq_of_stuck (h : c.Sound config program) (hstuck : c.Stuck reason)
    (hle : k ≤ c.machine.cursor) (hr : program[k]? = some r)
    (hcheck : r.check config.registers = .error reason') : reason = reason' := by
  obtain ⟨s, hs, hcheck'⟩ := h.refused_of_stuck hstuck
  obtain rfl := Nat.le_antisymm hle (h.cursor_le_of_refused hr hcheck)
  obtain rfl := Option.some.inj (hr.symm.trans hs)
  exact Except.error.inj (hcheck'.symm.trans hcheck)

/-- With room in the queue a cycle that succeeds passes the next record. -/
theorem Effect.cursor_lt (heffect : Effect config (n + 1) c c') (h : c.Valid config program n)
    (hroom : c.machine.queue.isFull = false) (hlt : c.machine.cursor < c.trace.size) :
    c.machine.cursor < c'.machine.cursor := by
  have hremaining : (c.remaining config (n + 1) c'.trace).length < config.queue := by
    have hlength : c.queued.length < config.queue := by
      rw [Core.queued, List.length_map, ← h.sound.fits.queue]
      simpa [FetchQueue.isFull] using hroom
    refine Nat.lt_of_le_of_lt ?_ hlength
    rw [Core.remaining]
    split
    · rw [List.length_tail]
      exact Nat.sub_le ..
    · exact Nat.le_refl _
  cases hin : c.incoming config (n + 1) c'.trace with
  | none =>
    rw [heffect.exhausted hremaining hin, (heffect.valid h).sound.size_trace,
      ← h.sound.size_trace]
    exact hlt
  | some i =>
    have hmem : i ∈ c'.trace.scheduledBelow c'.machine.cursor := by
      rw [heffect.passed, hin]
      exact List.mem_append_right _ (List.mem_singleton_self i)
    rw [Core.incoming, if_neg (Nat.not_le.2 hremaining)] at hin
    have hle : c.machine.cursor ≤ i := by simpa using List.find?_some hin
    exact hle.trans_lt (Trace.mem_scheduledBelow.1 hmem).1

end Core

namespace Simulation

/-- **Fetch that is stuck stays stuck**: the next tick fails for the same reason. -/
theorem tick_of_stuck {s : Simulation} {config : Config} {program : Trace} {reason : Rejection}
    (hvalid : s.core.Valid config program s.cycle) (hstuck : s.core.Stuck reason) :
    tick.run s = .error (.rejected reason) s.next ∧ s.next.core.Stuck reason := by
  have hnext := valid_next hvalid
  obtain ⟨r, hr, hcheck⟩ := hvalid.sound.refused_of_stuck hstuck
  rcases tick_cases hvalid with ⟨-, heffect⟩ | ⟨reason', htick, -, hstuck'⟩
  · have hlt : s.core.machine.cursor < s.core.trace.size := by
      rw [hvalid.sound.size_trace]
      exact Trace.lt_size_of_getElem? hr
    have hadvanced := heffect.cursor_lt hvalid hstuck.room hlt
    exact absurd (hnext.sound.cursor_le_of_refused hr hcheck) (Nat.not_le.2 hadvanced)
  · obtain ⟨r', hr', hcheck'⟩ := hnext.sound.refused_of_stuck hstuck'
    obtain rfl := hvalid.sound.eq_of_stuck hstuck (hnext.sound.cursor_le_of_refused hr hcheck) hr'
      hcheck'
    exact ⟨htick, hstuck'⟩

section Run

variable {rs : List Record} {config : Config} {s₀ e : Simulation} {halt : Halt} {m n : Nat}
  (hs : ofTrace (Trace.ofList rs) config = .ok s₀)

include hs

/-- A tick that fails leaves fetch stuck. -/
theorem stuck_of_error (hfail : tick.run (s₀.after n) = .error halt e) :
    ∃ reason, halt = .rejected reason ∧ (s₀.after (n + 1)).core.Stuck reason := by
  rcases tick_cases (valid_at hs n) with ⟨htick, -⟩ | ⟨reason, htick, -, hstuck⟩
  · cases hfail.symm.trans htick
  · cases hfail.symm.trans htick
    exact ⟨reason, rfl, hstuck⟩

/-- **Once a tick has failed, every later one fails for the same reason.** -/
theorem error_stays (hfail : tick.run (s₀.after n) = .error halt e) (hle : n ≤ m) :
    tick.run (s₀.after m) = .error halt (s₀.after (m + 1)) := by
  obtain ⟨reason, rfl, hstuck⟩ := stuck_of_error hs hfail
  suffices hall : tick.run (s₀.after m) = .error (.rejected reason) (s₀.after (m + 1)) ∧
      (s₀.after (m + 1)).core.Stuck reason from hall.1
  induction m, hle using Nat.le_induction with
  | base =>
    refine ⟨?_, hstuck⟩
    have hnext : (s₀.after n).next = e := by rw [next, hfail]
    rw [after_succ, hnext, hfail]
  | succ m hle ih => exact tick_of_stuck (valid_at hs (m + 1)) ih.2

end Run

end Simulation

/-! ## The records in front of it -/

/-- **A program up to the first record that the machine refuses**, and what it is refused for. -/
structure Trace.Breaks (registers : Nat) (reason : Rejection) (full front : Trace) : Prop where
  record : ∀ {i : Nat} {r : Record}, front[i]? = some r → full[i]? = some r
  accepted : front.Accepted registers
  refused : ∃ r, full[front.size]? = some r ∧ r.check registers = .error reason

/-- The records in front of one that is refused are such a program. -/
theorem Trace.breaks_ofList {config : Config} {pre rest : List Record} {bad : Record}
    {reason : Rejection} (hpre : ∀ r ∈ pre, ∃ op, r.check config.registers = .ok op)
    (hbad : { bad with index := pre.length }.check config.registers = .error reason) :
    Breaks config.registers reason (ofList (pre ++ bad :: rest)) (ofList pre) where
  record {i r} hr := by
    have hi : i < pre.length := by
      rw [← size_ofList]
      exact lt_size_of_getElem? hr
    rw [← hr, getElem?_ofList, getElem?_ofList, List.getElem?_append_left hi]
  accepted := accepted_ofList_iff.2 hpre
  refused := by
    refine ⟨{ bad.unscheduled with index := pre.length }, ?_, hbad⟩
    rw [size_ofList, getElem?_ofList, List.getElem?_append_right (Nat.le_refl _), Nat.sub_self]
    rfl

namespace Core

variable {config : Config} {full front : Trace} {reason : Rejection} {c d : Core} {n : Nat}

/-- **Two actions do the same, or the first one stops** for `reason` when it has done it. -/
def InStepOrStops (reason : Rejection) (bound : Nat) (x y : Step Unit) (c d : Core) : Prop :=
  ∃ c' d', (x.run c = .ok () c' ∨ x.run c = .error (.rejected reason) c') ∧
    y.run d = .ok () d' ∧ c'.Copies id bound d'

variable (hb : Trace.Breaks config.registers reason full front)

include hb

/-- The cursor does not get past the refused record. -/
theorem Sound.cursor_le_of_breaks (h : c.Sound config full) : c.machine.cursor ≤ front.size := by
  obtain ⟨r, hr, hcheck⟩ := hb.refused
  exact h.cursor_le_of_refused hr hcheck

/-- Fetch gets stuck at the refused record and nowhere else. -/
theorem Sound.stuck_eq_of_breaks (h : c.Sound config full) {reason' : Rejection}
    (hstuck : c.Stuck reason') : reason' = reason := by
  obtain ⟨bad, hbad, hrefused⟩ := hb.refused
  refine h.eq_of_stuck hstuck (Nat.le_of_not_lt fun hlt => ?_) hbad hrefused
  obtain ⟨r, hr, hcheck⟩ := h.refused_of_stuck hstuck
  obtain ⟨s, hs⟩ := Trace.exists_getElem? hlt
  obtain ⟨op, hop⟩ := hb.accepted s (Trace.mem_toList_of_getElem? hs)
  obtain rfl := Option.some.inj (hr.symm.trans (hb.record hs))
  cases hcheck.symm.trans hop

/-- When all of the front has been fetched, fetch is refused the next record. -/
theorem Sound.run_fetchNext_of_breaks (hc : c.Sound config full)
    (hcursor : c.machine.cursor = front.size) (now : Nat) :
    (Step.fetchNext now (c.trace.size - c.machine.cursor)).run c = .error (.rejected reason) c := by
  obtain ⟨bad, hbad, hrefused⟩ := hb.refused
  have hlt : c.machine.cursor < c.trace.size := by
    rw [hcursor, hc.size_trace]
    exact Trace.lt_size_of_getElem? hbad
  obtain ⟨r, hr⟩ := Trace.exists_getElem? hlt
  obtain ⟨hfull, hcheck⟩ := hc.check_eq hr
  rw [hcursor] at hfull
  obtain rfl := Option.some.inj (hfull.symm.trans hbad)
  obtain ⟨left, hleft⟩ := Nat.exists_eq_add_one_of_ne_zero (Nat.sub_ne_zero_of_lt hlt)
  rw [hleft]
  exact run_fetchNext_refused hr (hcheck.symm.trans hrefused) left

/-- **Fetch does with the records in front what it does when they are all**, except that it stops
where they end. -/
theorem Copies.run_fetchNext_of_breaks (hc : c.Sound config full) (hd : d.Sound config front)
    (h : c.Copies id front.size d) (hroom : d.machine.queue.isFull = false) (now : Nat) {left : Nat}
    (hleft : d.trace.size - d.machine.cursor = left) :
    InStepOrStops reason front.size (Step.fetchNext now (c.trace.size - c.machine.cursor))
      (Step.fetchNext now left) c d := by
  induction left generalizing c d with
  | zero =>
    have hcursor : c.machine.cursor = front.size := by
      have hle := hd.cursor_le
      have hsize := hd.size_trace
      rw [h.machine.eq]
      omega
    exact ⟨c, d, .inr (hc.run_fetchNext_of_breaks hb hcursor now), rfl, h⟩
  | succ left ih =>
    have hlt : d.machine.cursor < front.size := by
      rw [← hd.size_trace]
      omega
    obtain ⟨r, hr, hrc⟩ := h.getElem? hlt
    have hcursor : c.machine.cursor = d.machine.cursor := congrArg Machine.cursor h.machine.eq
    rw [r.renumber_id, id, ← hcursor] at hrc
    obtain ⟨hfront, hcheck⟩ := hd.check_eq hr
    obtain ⟨op, hop⟩ := hb.accepted _ (Trace.mem_toList_of_getElem? hfront)
    rw [hcheck] at hop
    have hopc : r.check c.machine.registers.size = .ok op := h.machine.eq ▸ hop
    have hl : c.trace.size - c.machine.cursor = c.trace.size - (c.machine.cursor + 1) + 1 := by
      have := Trace.lt_size_of_getElem? hrc
      omega
    rw [hl]
    by_cases htrap : op = .trap
    · subst htrap
      rw [InStepOrStops, hc.run_fetchNext_skip hrc hopc, hd.run_fetchNext_skip hr hop]
      refine ih (hc.move (.skip hrc hopc)) (hd.move (.skip hr hop))
        ⟨{ h.machine with cursor := fun j => ?_ }, h.size, h.record⟩ hroom ?_
      · change j < c.machine.cursor + 1 ↔ j < d.machine.cursor + 1
        rw [hcursor]
      · change d.trace.size - (d.machine.cursor + 1) = left
        omega
    · have hroomc : c.machine.queue.isFull = false := h.machine.eq ▸ hroom
      exact ⟨_, _, .inl (hc.run_fetchNext_push hrc hopc htrap hroomc _),
        hd.run_fetchNext_push hr hop htrap hroom _, h.fetched strictMono_id hcursor hlt now op⟩

theorem Copies.run_fetch_of_breaks (hc : c.Sound config full) (hd : d.Sound config front)
    (h : c.Copies id front.size d) (now : Nat) :
    InStepOrStops reason front.size (Step.fetch now) (Step.fetch now) c d := by
  have hfull : c.machine.queue.isFull = d.machine.queue.isFull := by rw [h.machine.eq]
  cases hroom : d.machine.queue.isFull with
  | true =>
    exact ⟨c, d, .inl (run_fetch_of_full (hfull.trans hroom) now), run_fetch_of_full hroom now, h⟩
  | false =>
    rw [InStepOrStops, run_fetch_of_room (hfull.trans hroom), run_fetch_of_room hroom]
    exact h.run_fetchNext_of_breaks hb hc hd hroom now rfl

/-- **A cycle does with the records in front what it does when they are all**, and then stops. -/
theorem Copies.run_cycle_of_breaks (hc : c.Valid config full n) (hd : d.Valid config front n)
    (h : c.Copies id front.size d) :
    InStepOrStops reason front.size (Step.cycle (n + 1)) (Step.cycle (n + 1)) c d := by
  obtain ⟨c₄, d₄, hcycle, hcycle', hc₄, hd₄, h₄⟩ := h.run_cycle strictMono_id hc hd
  obtain ⟨c₅, d₅, hfetch, hfetch', h₅⟩ := h₄.run_fetch_of_breaks hb hc₄ hd₄ (n + 1)
  rw [InStepOrStops, hcycle, hcycle']
  have hok := run_conclude_of_ok hfetch'
  rcases hfetch with hfetch | hfetch
  · exact ⟨_, _, .inl (run_conclude_of_ok hfetch), hok, h₅.machine, h₅.size, h₅.record⟩
  · exact ⟨_, _, .inr (run_conclude_of_error hfetch), hok, h₅.machine, h₅.size, h₅.record⟩

end Core

/-! ## Runs -/

namespace Simulation

/-- What two cycles leave is what the two ticks leave, also where the first one stops. -/
theorem copies_next {s s' : Simulation} {reason : Rejection} {bound : Nat}
    (h : Core.InStepOrStops reason bound (Step.cycle (s.cycle + 1)) (Step.cycle (s'.cycle + 1))
      s.core s'.core) : s.next.core.Copies id bound s'.next.core := by
  obtain ⟨c, d, hc | hc, hd, h⟩ := h
  · rw [(tick_of_ok hc).2, (tick_of_ok hd).2]
    exact h
  · rw [(tick_of_error hc).2, (tick_of_ok hd).2]
    exact h

section Run

variable {rs front : List Record} {config : Config} {reason : Rejection} {s s' : Simulation}
  (hs : ofTrace (Trace.ofList rs) config = .ok s)
  (hs' : ofTrace (Trace.ofList front) config = .ok s')
  (hb : Trace.Breaks config.registers reason (Trace.ofList rs) (Trace.ofList front))

/-- **How a simulation stops at a refused record**: it holds what the simulation of the first `k`
records alone holds, tick by tick, and from the tick after cycle `N` on every tick fails. -/
structure StopsAt (s s' : Simulation) (reason : Rejection) (k N : Nat) : Prop where
  /-- The rejection names the record. -/
  index : reason.index = k
  succeeds : ∀ {n}, n < N → tick.run (s.after n) = .ok () (s.after (n + 1))
  fails : ∀ {n}, N ≤ n → tick.run (s.after n) = .error (.rejected reason) (s.after (n + 1))
  /-- The run stops with the first tick that fails. -/
  run : run.run s = .error (.rejected reason) (s.after (N + 1))
  not_done : ∀ n, (s.after n).isDone = false
  /-- The machines are equal, their cursors included. -/
  machine : ∀ n, (s.after n).core.machine = (s'.after n).core.machine
  record : ∀ n {i}, i < k → (s.after n).core.trace[i]? = (s'.after n).core.trace[i]?
  /-- The refused record and those behind it have no stamps, wait for nothing and are nowhere. -/
  untouched : ∀ n {i}, k ≤ i → (s.after n).core.IsUntouched i

include hs hb

/-- A tick can fail for one reason only. -/
theorem tick_cases_of_breaks (n : Nat) : tick.run (s.after n) = .ok () (s.after (n + 1)) ∨
    tick.run (s.after n) = .error (.rejected reason) (s.after (n + 1)) := by
  rcases tick_cases (valid_at hs n) with ⟨htick, -⟩ | ⟨reason', htick, -, hstuck⟩
  · exact .inl htick
  · obtain rfl := (valid_after hs (n + 1)).sound.stuck_eq_of_breaks hb hstuck
    exact .inr htick

/-- **A program with a refused record is never done.** -/
theorem isDone_of_breaks (n : Nat) : (s.after n).isDone = false := by
  refine Bool.eq_false_iff.2 fun hdone => ?_
  obtain ⟨bad, hbad, hrefused⟩ := hb.refused
  exact (accepted_of_drained hs (isDrained_of_isDone hdone)).not_refused reason
    ⟨bad, Trace.mem_toList_of_getElem? hbad, hrefused⟩

/-- **Some tick fails first**, and that is the verdict of the run. -/
theorem exists_first_error : ∃ N, (∀ m < N, (s.after m).verdict? = none) ∧
    tick.run (s.after N) = .error (.rejected reason) (s.after (N + 1)) := by
  obtain ⟨N, hfirst, hverdict⟩ := exists_first_verdict hs
  refine ⟨N, hfirst, (tick_cases_of_breaks hs hb N).resolve_left fun htick => ?_⟩
  rw [verdict?_eq_none_iff.2 ⟨isDone_of_breaks hs hb N, htick⟩] at hverdict
  cases hverdict

/-- The refused record and those behind it stay as they are. -/
theorem untouched_of_breaks (n : Nat) {i : Nat} (hi : front.length ≤ i) :
    (s.after n).core.IsUntouched i := by
  have hvalid := valid_after hs n
  refine hvalid.sound.isUntouched hvalid.renamed fun ⟨hlt, _⟩ => ?_
  have hle := hvalid.sound.cursor_le_of_breaks hb
  rw [Trace.size_ofList] at hle
  omega

include hs'

/-- **The two runs go in step** for ever. -/
theorem copies_of_breaks (n : Nat) :
    (s.after n).core.Copies id (Trace.ofList front).size (s'.after n).core := by
  induction n with
  | zero =>
    rw [after_zero, after_zero, (ofTrace_eq_ok_iff.1 hs).2, (ofTrace_eq_ok_iff.1 hs').2,
      Trace.unscheduled_ofList, Trace.unscheduled_ofList]
    exact ⟨Machine.copies_idle config id _, rfl, fun hr => by
      rw [Record.renumber_id]
      exact hb.record hr⟩
  | succ n ih =>
    have hstep : Core.InStepOrStops reason (Trace.ofList front).size
        (Step.cycle ((s.after n).cycle + 1)) (Step.cycle ((s'.after n).cycle + 1))
        (s.after n).core (s'.after n).core := by
      rw [cycle_eq hs, cycle_eq hs']
      exact ih.run_cycle_of_breaks hb (valid_after hs n) (valid_after hs' n)
    exact copies_next hstep

/-- The records in front are the same in both runs. -/
theorem record_eq_of_breaks (n : Nat) {i : Nat} (hi : i < front.length) :
    (s.after n).core.trace[i]? = (s'.after n).core.trace[i]? := by
  obtain ⟨r, hr', hr⟩ := (copies_of_breaks hs hs' hb n).getElem? (by rwa [Trace.size_ofList])
  rw [r.renumber_id] at hr
  exact hr.trans hr'.symm

/-- **A simulation stops at the first refused record**, and its run with it. -/
theorem stopsAt_of_breaks : ∃ N, s.StopsAt s' reason front.length N ∧
    schedule (Trace.ofList rs) config = .error (.halted (N + 1) (.rejected reason)) := by
  obtain ⟨N, hfirst, hfail⟩ := exists_first_error hs hb
  have hnot := isDone_of_breaks hs hb N
  obtain ⟨bad, hbad, hcheck⟩ := hb.refused
  rw [Trace.size_ofList] at hbad
  have hindex : reason.index = front.length :=
    (Record.index_of_check hcheck).trans (Trace.numbered_ofList rs _ _ hbad)
  refine ⟨N, ⟨hindex, fun {n} hn => ?_, fun {n} hn => error_stays hs hfail hn,
    run_eq_error hs hfirst hnot hfail, isDone_of_breaks hs hb, fun n => ?_,
    record_eq_of_breaks hs hs' hb, untouched_of_breaks hs hb⟩, ?_⟩
  · rw [after_succ]
    exact (verdict?_eq_none_iff.1 (hfirst n hn)).2
  · exact (copies_of_breaks hs hs' hb n).machine.eq
  · refine schedule_eq_of_verdict hs hfirst ?_
    rw [verdict?_of_error hnot hfail, cycle_eq hs]

end Run

end Simulation

/-- **A program has a schedule if and only if the machine accepts its configuration and its
records.** -/
theorem exists_schedule_iff {rs : List Record} {config : Config} :
    (∃ T t, schedule (Trace.ofList rs) config = .ok (T, t)) ↔
      config.check = .ok () ∧ ∀ r ∈ rs, ∃ op, r.check config.registers = .ok op := by
  constructor
  · rintro ⟨T, t, h⟩
    obtain ⟨s, hs, haccepted, -⟩ := schedule_eq_ok h
    exact ⟨(Simulation.ofTrace_eq_ok_iff.1 hs).1, Trace.accepted_ofList_iff.1 haccepted⟩
  · rintro ⟨hconfig, haccepted⟩
    refine (schedule_cases hconfig rs).resolve_right fun ⟨_, reason, _, hrefused⟩ => ?_
    exact (Trace.accepted_ofList_iff.2 haccepted).not_refused reason hrefused

/-- **Refused records stop a run at once, for good, and alone.**  The run fails for the first one,
under the index that is its position; every tick after that fails too; what is in front of the
record goes on as if it were the whole program, and nothing happens to the record and those behind
it.  So a program has a schedule if and only if none of its records is refused. -/
theorem refusal_isolated (config : Config) :
    (config.check = .ok () → ∀ (pre rest : List Record) (bad : Record) (reason₀ : Rejection),
      (∀ r ∈ pre, ∃ op, r.check config.registers = .ok op) →
      bad.check config.registers = .error reason₀ →
      ∃ s s' reason N,
        Simulation.ofTrace (Trace.ofList (pre ++ bad :: rest)) config = .ok s ∧
        Simulation.ofTrace (Trace.ofList pre) config = .ok s' ∧
        { bad with index := pre.length }.check config.registers = .error reason ∧
        s.StopsAt s' reason pre.length N ∧
        schedule (Trace.ofList (pre ++ bad :: rest)) config =
          .error (.halted (N + 1) (.rejected reason))) ∧
    ∀ rs : List Record, (∃ T t, schedule (Trace.ofList rs) config = .ok (T, t)) ↔
      config.check = .ok () ∧ ∀ r ∈ rs, ∃ op, r.check config.registers = .ok op := by
  refine ⟨fun hconfig pre rest bad reason₀ hpre hbad => ?_, fun rs => exists_schedule_iff⟩
  obtain ⟨s, hs⟩ := Simulation.exists_ofTrace hconfig (Trace.ofList (pre ++ bad :: rest))
  obtain ⟨s', hs'⟩ := Simulation.exists_ofTrace hconfig (Trace.ofList pre)
  cases hcheck : { bad with index := pre.length }.check config.registers with
  | ok op => cases hbad.symm.trans ((Trace.check_at_eq_ok_iff pre.length).1 hcheck)
  | error reason =>
    obtain ⟨N, hstops, hschedule⟩ :=
      Simulation.stopsAt_of_breaks hs hs' (Trace.breaks_ofList hpre hcheck)
    exact ⟨s, s', reason, N, hs, hs', rfl, hstops, hschedule⟩

/-- On the small machine fetch comes to a record of no class behind two rounds of the small program
in cycle 14.  The rounds still take their 21 cycles, with a result on the bus in cycle 19. -/
theorem refusal_isolated_sample :
    smallMachine.check = .ok () ∧
    (∀ r ∈ sampleProgram ++ sampleProgram, ∃ op, r.check smallMachine.registers = .ok op) ∧
    unknownRecord.check smallMachine.registers = .error (.unknownClass 0 ⟨0⟩) ∧
    (∃ s s',
      Simulation.ofTrace (Trace.ofList (sampleProgram ++ sampleProgram ++ unknownRecord ::
        sampleProgram)) smallMachine = .ok s ∧
      Simulation.ofTrace (Trace.ofList (sampleProgram ++ sampleProgram)) smallMachine = .ok s' ∧
      s.StopsAt s' (.unknownClass 12 ⟨0⟩) 12 13 ∧
      (s.after 21).core.trace.cycleAt .cdb 10 = some 19 ∧ (s'.after 21).isDone = true) ∧
    ∃ T t, schedule (Trace.ofList (sampleProgram ++ sampleProgram)) smallMachine = .ok (T, t) := by
  have hconfig : smallMachine.check = .ok () := by decide
  have hpre : ∀ r ∈ sampleProgram ++ sampleProgram,
      ∃ op, r.check smallMachine.registers = .ok op :=
    Trace.accepted_ofList_iff.1 (by decide +kernel)
  have hbad : unknownRecord.check smallMachine.registers = .error (.unknownClass 0 ⟨0⟩) := by decide
  obtain ⟨hstop, hschedule⟩ := refusal_isolated smallMachine
  obtain ⟨s, s', reason, N, hs, hs', hcheck, hstops, herror⟩ :=
    hstop hconfig (sampleProgram ++ sampleProgram) sampleProgram unknownRecord _ hpre hbad
  have hrounds : (Simulation.ofTrace (Trace.ofList (sampleProgram ++ sampleProgram))
      smallMachine).toOption.any (fun s' => (s'.after 21).isDone ∧
        (s'.after 21).core.trace.cycleAt .cdb 10 = some 19) = true := by decide +kernel
  simp only [hs', Except.toOption, Option.any_some, decide_eq_true_eq] at hrounds
  obtain ⟨hdone, hcdb⟩ := hrounds
  have hhalt : schedule (Trace.ofList (sampleProgram ++ sampleProgram ++ unknownRecord ::
      sampleProgram)) smallMachine =
        .error (.halted 14 (.rejected (.unknownClass 12 ⟨0⟩))) := by decide +kernel
  cases herror.symm.trans hhalt
  refine ⟨hconfig, hpre, hbad, ⟨s, s', hs, hs', hstops, ?_, hdone⟩,
    (hschedule _).2 ⟨hconfig, hpre⟩⟩
  rw [← hcdb, Trace.cycleAt, hstops.record 21 (by decide), Trace.cycleAt]

end Tomasulo
