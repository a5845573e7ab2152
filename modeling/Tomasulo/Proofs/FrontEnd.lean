import Tomasulo.Proofs.BackEnd

/-!
# Proofs/FrontEnd — what issue and fetch do to a sound core

Both work on one record.  Issue lets `Core.leaving` out of the queue, that is the head unless its
pool is full; fetch lets `Core.arriving` in, that is the next record that is no trap unless the
queue is full.  Issue cannot fail on a sound core, and fetch fails only at a record that the
machine cannot take.
-/

namespace Tomasulo

namespace Core

variable {config : Config} {program : Trace} {c : Core} {now : Nat}

/-! ## Issue -/

/-- A pool has a station to give. -/
def hasRoom (c : Core) (p : Pool) : Bool :=
  (c.machine.stations p).occupied.length < (c.machine.stations p).size

/-- The record that issue lets out of the queue: the head, unless its pool is full. -/
def leaving (c : Core) : Option Nat :=
  c.queued.head?.filter fun i => (c.trace.poolAt i).all c.hasRoom

/-- There is room in a pool when some station of it is vacant. -/
theorem hasRoom_eq_false_iff {p : Pool} :
    c.hasRoom p = false ↔ (c.machine.stations p).vacant = [] := by
  have hlength := (c.machine.stations p).length_vacant_add_length_occupied
  rw [hasRoom, decide_eq_false_iff_not, ← List.length_eq_zero_iff]
  omega

/-- **What issue has done**: the record that leaves has left, and is stamped if it has a pool. -/
structure Issued (now : Nat) (c c' : Core) : Prop where
  deeds : Deeds now c c'
  cursor : c'.machine.cursor = c.machine.cursor
  bus : c'.machine.bus = c.machine.bus
  units : c'.machine.units = c.machine.units
  queued : c'.queued = if c.leaving.isSome = true then c.queued.tail else c.queued
  cycleAt : ∀ stage i, c'.trace.cycleAt stage i =
    if stage = .issue ∧ c.leaving = some i ∧ (c.trace.poolAt i).isSome = true then some now
    else c.trace.cycleAt stage i
  stationed : ∀ i, c'.IsStationed i ↔
    c.leaving = some i ∧ (c.trace.poolAt i).isSome = true ∨ c.IsStationed i

theorem Issued.moves {c' : Core} (h : Issued now c c') : Moves now c c' :=
  h.deeds.moves

/-- Renaming works on a numbered record whose registers exist. -/
theorem run_rename {e : InFlight} {r : Record} (hr : c.trace[e.index]? = some r)
    (hindex : r.index = e.index)
    (hrange : ∀ register ∈ r.writes ++ r.reads, register < c.machine.registers.size) :
    (Step.rename e).run c = .ok () { c with
      machine.registers :=
        if e.op.broadcasts then c.machine.registers.claimAll e.index r.writes
        else c.machine.registers
      trace := c.trace.renamed e.index (r.inputs.map (·.bind c.machine.registers.writer)) } := by
  let producers := r.inputs.map (·.bind c.machine.registers.writer)
  let waiting : Core := { c with trace := c.trace.renamed e.index producers }
  have hsources : c.machine.registers.sources r.inputs = .ok producers :=
    RegisterMap.sources_eq_ok fun register hreg => hrange register (List.mem_append_right _ hreg)
  have hclaim : waiting.machine.registers.claim r.outputs r.index =
      .ok (c.machine.registers.claimAll e.index r.writes) := by
    rw [hindex]
    exact RegisterMap.claim_eq_ok (fun register hreg =>
      hrange register (List.mem_append_left _ hreg)) e.index
  refine (Step.run_bind_ok (Step.run_record hr) _).trans ?_
  refine (Step.run_bind_ok (Step.run_machine c) _).trans ?_
  refine (Step.run_bind_ok (Step.run_lift_ok hsources c) _).trans ?_
  refine (Step.run_bind_ok (Step.run_amend hr _ : _ = EStateM.Result.ok () waiting) _).trans ?_
  split
  · refine (Step.run_bind_ok (Step.run_machine waiting) _).trans ?_
    exact (Step.run_bind_ok (Step.run_lift_ok hclaim waiting) _).trans rfl
  · rfl

section Head

variable {e : InFlight} {rest : List InFlight}

/-- The head of the queue has the pool of its class. -/
theorem Sound.poolAt_head (h : c.Sound config program)
    (hq : c.machine.queue.entries = e :: rest) : c.trace.poolAt e.index = e.op.pool := by
  rw [h.poolAt_trace, Trace.poolAt, h.classAt_head hq]
  rfl

theorem leaving_of_entries (hq : c.machine.queue.entries = e :: rest) :
    c.leaving = if (c.trace.poolAt e.index).all c.hasRoom = true then some e.index else none := by
  simp [leaving, queued_of_entries hq, Option.filter]

/-- A jump or branch leaves. -/
theorem Sound.run_issue_control (h : c.Sound config program)
    (hq : c.machine.queue.entries = e :: rest) (hop : e.op.isControl = true) :
    (Step.issue now).run c = .ok () (c.popped.noted (.resolved now e.index)) ∧
      Issued now c (c.popped.noted (.resolved now e.index)) := by
  have hpool : c.trace.poolAt e.index = none := by
    rw [h.poolAt_head hq]
    cases he : e.op <;> simp_all [OpClass.isControl, OpClass.pool]
  have hleaving : c.leaving = some e.index := by
    rw [leaving_of_entries hq, hpool]
    rfl
  have hfront : c.machine.queue.front = some e := by rw [FetchQueue.front, hq, List.head?_cons]
  have hnot {i : Nat} : ¬ (c.leaving = some i ∧ (c.trace.poolAt i).isSome = true) := by
    rw [hleaving]
    rintro ⟨hi, hsome⟩
    rw [← Option.some.inj hi, hpool] at hsome
    exact Bool.noConfusion hsome
  refine ⟨?_, .single (.pass hq hop), rfl, rfl, rfl, ?_, ?_, fun i => ?_⟩
  · refine (Step.run_bind_ok (Step.run_machine c) _).trans ?_
    simp only [hfront, hop, if_true]
    exact (Step.run_bind_ok (Step.run_onMachine _ c) _).trans rfl
  · rw [hleaving, queued_of_entries hq]
    exact queued_popped hq
  · intro stage i
    rw [if_neg fun h => hnot h.2]
    rfl
  · rw [or_iff_right hnot]
    rfl

/-- A record whose pool is full stays. -/
theorem Sound.run_issue_stalled (h : c.Sound config program)
    (hq : c.machine.queue.entries = e :: rest) {p : Pool} (hpool : e.op.pool = some p)
    (hroom : c.hasRoom p = false) :
    (Step.issue now).run c = .ok () (c.noted (.stalled now e.index p)) ∧
      Issued now c (c.noted (.stalled now e.index p)) := by
  have hcontrol : e.op.isControl = false := by
    cases he : e.op <;> simp_all [OpClass.isControl, OpClass.pool]
  have hleaving : c.leaving = none := by
    rw [leaving_of_entries hq, h.poolAt_head hq, hpool, Option.all_some, hroom]
    rfl
  have hfront : c.machine.queue.front = some e := by rw [FetchQueue.front, hq, List.head?_cons]
  have hplace : (c.machine.stations p).place e = none := by
    rw [Stations.place, hasRoom_eq_false_iff.1 hroom]
    rfl
  refine ⟨?_, .single (.note rfl), rfl, rfl, rfl, ?_, ?_, fun i => ?_⟩
  · refine (Step.run_bind_ok (Step.run_machine c) _).trans ?_
    simp only [hfront, hcontrol, hpool, hplace]
    rfl
  · rw [hleaving]
    rfl
  · intro stage i
    rw [hleaving, if_neg (by simp)]
    rfl
  · rw [hleaving, or_iff_right (by simp)]
    rfl

/-- Any other record takes the lowest free station of its pool. -/
theorem Sound.run_issue_placed (h : c.Sound config program)
    (hq : c.machine.queue.entries = e :: rest) {p : Pool} (hpool : e.op.pool = some p)
    (hroom : c.hasRoom p = true) :
    ∃ c', (Step.issue now).run c = .ok () c' ∧ Issued now c c' := by
  have hcontrol : e.op.isControl = false := by
    cases he : e.op <;> simp_all [OpClass.isControl, OpClass.pool]
  have hleaving : c.leaving = some e.index := by
    rw [leaving_of_entries hq, h.poolAt_head hq, hpool, Option.all_some, hroom]
    rfl
  have hfront : c.machine.queue.front = some e := by rw [FetchQueue.front, hq, List.head?_cons]
  obtain ⟨s, hs⟩ : ∃ s, (c.machine.stations p).vacant.head? = some s := by
    refine Option.ne_none_iff_exists'.1 fun hnone => ?_
    rw [hasRoom_eq_false_iff.2 (List.head?_eq_none_iff.1 hnone)] at hroom
    exact Bool.noConfusion hroom
  have hplace : (c.machine.stations p).place e =
      some (s, (c.machine.stations p).put s (some e)) := by
    rw [Stations.place, hs]
    rfl
  obtain ⟨hlt, hfree⟩ := Slots.mem_vacant.1 (List.mem_of_head? hs)
  have hmem := head_mem_queued hq
  obtain ⟨hcursor, hsched⟩ := h.mem_queued hmem
  have hsize : e.index < c.trace.size := by
    rw [h.size_trace]
    exact Trace.lt_size_of_isScheduled hsched
  obtain ⟨r, hr⟩ := Trace.exists_getElem? hsize
  have hdeed : Deed now c (c.issued now p s e r) := .issue hq hpool hlt hfree hr
  have hnew : c.trace.cycleAt .issue e.index = none :=
    Option.not_isSome_iff_eq_none.1 fun hi => (h.issued.1 hi).2.2 hmem
  refine ⟨_, ?_, .single hdeed, rfl, rfl, rfl, ?_, ?_, fun i => ?_⟩
  · let placed : Core := { c with machine := c.popped.machine.putStation p s (some e) }
    let stamped : Core := { placed with trace := c.trace.stamped .issue now e.index }
    have hstamp : (Step.stamp .issue now e.index).run placed = .ok () stamped :=
      run_stamp (c := placed) hsize hnew now
    have hr' : stamped.trace[e.index]? =
        some { r with stamps := r.stamps.set .issue (some now) } := by
      change (c.trace.modify e.index _)[e.index]? = _
      rw [Trace.getElem?_modify, if_pos rfl, hr, Option.map_some]
    refine (Step.run_bind_ok (Step.run_machine c) _).trans ?_
    simp only [hfront, hcontrol, hpool, hplace]
    refine (Step.run_bind_ok (Step.run_onMachine _ c) _).trans ?_
    refine (Step.run_bind_ok hstamp _).trans ?_
    have hindex := h.index_eq hr
    have hrange := h.lt_size_registers hcursor hsched hr
    exact (Step.run_bind_ok (run_rename hr' hindex hrange) _).trans rfl
  · rw [hleaving, queued_of_entries hq]
    exact queued_popped hq
  · intro stage i
    rw [c.cycleAt_issued hsize, hleaving]
    by_cases hi : i = e.index
    · subst hi
      simp [h.poolAt_head hq, hpool]
    · simp [hi, Ne.symm hi]
  · rw [c.isStationed_issued hlt hfree, hleaving, Option.some.injEq]
    refine or_congr_left ⟨?_, fun hi => hi.1.symm⟩
    rintro rfl
    exact ⟨rfl, by rw [h.poolAt_head hq, hpool]; rfl⟩

end Head

/-- **Issue cannot fail.** -/
theorem Sound.run_issue (h : c.Sound config program) (now : Nat) :
    ∃ c', (Step.issue now).run c = .ok () c' ∧ Issued now c c' := by
  cases hq : c.machine.queue.entries with
  | nil =>
    have hleaving : c.leaving = none := by simp [leaving, queued, hq]
    have hfront : c.machine.queue.front = none := by rw [FetchQueue.front, hq, List.head?_nil]
    refine ⟨c, ?_, .refl, rfl, rfl, rfl, by simp [hleaving], by simp [hleaving],
      by simp [hleaving]⟩
    refine (Step.run_bind_ok (Step.run_machine c) _).trans ?_
    simp only [hfront]
    rfl
  | cons e rest =>
    obtain ⟨op, hop, hne⟩ := Trace.isScheduled_iff.1 (h.mem_queued (head_mem_queued hq)).2
    obtain rfl := Option.some.inj ((h.classAt_head hq).symm.trans hop)
    cases hpool : e.op.pool with
    | none =>
      have hcontrol : e.op.isControl = true := by
        cases he : e.op <;> simp_all [OpClass.pool, OpClass.isControl]
      exact ⟨_, h.run_issue_control hq hcontrol⟩
    | some p =>
      cases hroom : c.hasRoom p with
      | false => exact ⟨_, h.run_issue_stalled hq hpool hroom⟩
      | true => exact h.run_issue_placed hq hpool hroom

/-! ## Fetch -/

/-- The record that fetch lets into the queue: the next one that is no trap, unless the queue is
full. -/
def arriving (c : Core) : Option Nat :=
  if c.machine.queue.isFull then none
  else c.trace.order.find? (c.machine.cursor ≤ ·)

/-- A member of an ascending list is the first from itself on. -/
theorem find?_le_eq_some {is : List Nat} (hsorted : is.Pairwise (· < ·)) {i : Nat} (hi : i ∈ is) :
    is.find? (i ≤ ·) = some i := by
  induction is with
  | nil => cases hi
  | cons j js ih =>
    obtain ⟨hlt, hsorted⟩ := List.pairwise_cons.1 hsorted
    rcases List.mem_cons.1 hi with rfl | hi
    · simp
    · rw [List.find?_cons_of_neg (by simpa using hlt i hi)]
      exact ih hsorted hi

/-- At a trap the next record is looked for behind it. -/
theorem find?_succ_le {is : List Nat} {i : Nat} (hi : i ∉ is) :
    is.find? (i + 1 ≤ ·) = is.find? (i ≤ ·) := by
  induction is with
  | nil => rfl
  | cons j js ih =>
    rw [List.mem_cons, not_or] at hi
    have hle : (i + 1 ≤ j) = (i ≤ j) := by
      rw [eq_iff_iff]
      omega
    rw [List.find?_cons, List.find?_cons, ih hi.2]
    simp only [hle]

/-- **What fetch has done**: the record that arrives is stamped and at the tail of the queue. -/
structure Fetched (now : Nat) (c c' : Core) : Prop where
  deeds : Deeds now c c'
  bus : c'.machine.bus = c.machine.bus
  stations : c'.machine.stations = c.machine.stations
  units : c'.machine.units = c.machine.units
  queued : c'.queued = c.queued ++ c.arriving.toList
  passed : c.trace.scheduledBelow c'.machine.cursor =
    c.trace.scheduledBelow c.machine.cursor ++ c.arriving.toList
  cycleAt : ∀ stage i, c'.trace.cycleAt stage i =
    if stage = .dispatch ∧ c.arriving = some i then some now else c.trace.cycleAt stage i
  /-- With room in the queue and nothing to come, everything has been fetched. -/
  exhausted : c.machine.queue.isFull = false → c.arriving = none →
    c'.machine.cursor = c.trace.size

theorem Fetched.moves {c' : Core} (h : Fetched now c c') : Moves now c c' :=
  h.deeds.moves

/-- **Fetch is stuck**: it has room, but the machine refuses the record that comes next. -/
structure Stuck (reason : Rejection) (c : Core) : Prop where
  room : c.machine.queue.isFull = false
  refused : ∃ r, c.trace[c.machine.cursor]? = some r ∧
    r.check c.machine.registers.size = .error reason

/-- **What fetch has done when it stops**: it has passed over traps, no more, and is stuck. -/
structure Stopped (now : Nat) (reason : Rejection) (c c' : Core) : Prop where
  moves : Moves now c c'
  machine : c'.machine = { c.machine with cursor := c'.machine.cursor }
  trace : c'.trace = c.trace
  stuck : c'.Stuck reason

/-- The record that fetch is stuck at is one of the program. -/
theorem Sound.refused_of_stuck (h : c.Sound config program) {reason : Rejection}
    (hstuck : c.Stuck reason) : ∃ r, program[c.machine.cursor]? = some r ∧
      r.check config.registers = .error reason := by
  obtain ⟨r, hr, hcheck⟩ := hstuck.refused
  obtain ⟨hprogram, heq⟩ := h.check_eq hr
  exact ⟨_, hprogram, heq.trans hcheck⟩

theorem run_push {r : Record} {op : OpClass} (hlt : c.machine.cursor < c.trace.size)
    (hnew : c.trace.cycleAt .dispatch c.machine.cursor = none)
    (hindex : r.index = c.machine.cursor) (hroom : c.machine.queue.isFull = false) :
    (do
      Step.stamp .dispatch now c.machine.cursor
      let queue ← c.machine.queue.push ⟨r.index, op⟩
      Step.onMachine ({ · with queue })
      Step.emit (.fetched now r.index op) : Step Unit).run c.advanced =
      .ok () (c.fetched now op) := by
  let stamped : Core := { c.advanced with trace := c.trace.stamped .dispatch now c.machine.cursor }
  have hstamp : (Step.stamp .dispatch now c.machine.cursor).run c.advanced = .ok () stamped :=
    run_stamp (c := c.advanced) hlt hnew now
  have hpush : c.machine.queue.push ⟨r.index, op⟩ =
      .ok { c.machine.queue with
        entries := c.machine.queue.entries ++ [⟨c.machine.cursor, op⟩] } := by
    rw [FetchQueue.push, hroom, hindex]
    rfl
  refine (Step.run_bind_ok hstamp _).trans ?_
  refine (Step.run_bind_ok (Step.run_lift_ok hpush stamped) _).trans ?_
  refine (Step.run_bind_ok (Step.run_onMachine _ stamped) _).trans ?_
  rw [hindex]
  rfl

section Next

variable {r : Record}

/-- Past a trap fetch goes on as if the trap were not there. -/
theorem Fetched.skip (h : c.Sound config program) (hr : c.trace[c.machine.cursor]? = some r)
    (hcheck : r.check c.machine.registers.size = .ok .trap) {c' : Core}
    (hf : Fetched now (c.advanced.noted (.trapSkipped now c.machine.cursor)) c') :
    Fetched now c c' := by
  have hsched : c.trace.isScheduled c.machine.cursor = false := by
    rw [Trace.isScheduled, h.classAt_trace, h.class_cursor hr hcheck]
    rfl
  have hnot : c.machine.cursor ∉ c.trace.order := by
    simp [Trace.mem_order, hsched]
  have harriving :
      (c.advanced.noted (.trapSkipped now c.machine.cursor)).arriving = c.arriving := by
    unfold arriving
    rw [← find?_succ_le hnot]
    rfl
  refine ⟨.head (.skip hr hcheck) hf.deeds, hf.bus, hf.stations, hf.units, ?_, ?_, ?_, ?_⟩
  · rw [hf.queued, harriving]
    rfl
  · refine hf.passed.trans ?_
    change c.trace.scheduledBelow (c.machine.cursor + 1) ++ _ = _
    rw [Trace.scheduledBelow_succ, if_neg (by simp [hsched]), List.append_nil, harriving]
  · intro stage i
    rw [hf.cycleAt, harriving]
    rfl
  · exact fun hfull hnone => hf.exhausted hfull (harriving ▸ hnone)

/-- A record that is no trap is the one that arrives. -/
theorem Fetched.push (h : c.Sound config program) (hr : c.trace[c.machine.cursor]? = some r)
    {op : OpClass} (hcheck : r.check c.machine.registers.size = .ok op) (hop : op ≠ .trap)
    (hroom : c.machine.queue.isFull = false) : Fetched now c (c.fetched now op) := by
  have hlt := Trace.lt_size_of_getElem? hr
  have hlength : c.machine.queue.entries.length < c.machine.queue.capacity := by
    simpa [FetchQueue.isFull] using hroom
  have hsched : c.trace.isScheduled c.machine.cursor = true := by
    rw [Trace.isScheduled, h.classAt_trace, h.class_cursor hr hcheck]
    simpa using hop
  have hmem : c.machine.cursor ∈ c.trace.order := Trace.mem_order.2 hsched
  have harriving : c.arriving = some c.machine.cursor := by
    rw [arriving, if_neg (by simp [hroom])]
    exact find?_le_eq_some c.trace.pairwise_order hmem
  refine ⟨.single (.fetch hr hcheck hop hlength), rfl, rfl, rfl, ?_, ?_, ?_, ?_⟩
  · rw [harriving]
    simp [Core.queued, Core.fetched]
  · change c.trace.scheduledBelow (c.machine.cursor + 1) = _
    rw [Trace.scheduledBelow_succ, if_pos hsched, harriving]
    rfl
  · intro stage i
    change (c.trace.stamped .dispatch now c.machine.cursor).cycleAt stage i = _
    rw [Trace.cycleAt_stamped hlt, harriving]
    simp only [Option.some.injEq, and_comm, eq_comm (a := i)]
  · rw [harriving]
    exact fun _ hnone => absurd hnone (Option.some_ne_none _)

/-- An accepted record is passed over or takes the last place of the queue. -/
theorem run_fetchNext_succ (hr : c.trace[c.machine.cursor]? = some r) {op : OpClass}
    (hcheck : r.check c.machine.registers.size = .ok op) (left : Nat) :
    (Step.fetchNext now (left + 1)).run c =
      (if op = .trap then do
        Step.emit (.trapSkipped now r.index)
        Step.fetchNext now left
      else do
        Step.stamp .dispatch now c.machine.cursor
        let queue ← c.machine.queue.push ⟨r.index, op⟩
        Step.onMachine ({ · with queue })
        Step.emit (.fetched now r.index op) : Step Unit).run c.advanced := by
  refine (Step.run_bind_ok (Step.run_machine c) _).trans ?_
  refine (Step.run_bind_ok (Step.run_record hr) _).trans ?_
  rw [hcheck]
  rfl

/-- A record that fails the check stops fetch. -/
theorem run_fetchNext_refused (hr : c.trace[c.machine.cursor]? = some r) {reason : Rejection}
    (hcheck : r.check c.machine.registers.size = .error reason) (left : Nat) :
    (Step.fetchNext now (left + 1)).run c = .error (.rejected reason) c := by
  refine (Step.run_bind_ok (Step.run_machine c) _).trans ?_
  refine (Step.run_bind_ok (Step.run_record hr) _).trans ?_
  rw [hcheck]
  rfl

/-- A trap is passed over. -/
theorem Sound.run_fetchNext_skip (h : c.Sound config program)
    (hr : c.trace[c.machine.cursor]? = some r)
    (hcheck : r.check c.machine.registers.size = .ok .trap) (left : Nat) :
    (Step.fetchNext now (left + 1)).run c =
      (Step.fetchNext now left).run (c.advanced.noted (.trapSkipped now c.machine.cursor)) := by
  rw [run_fetchNext_succ hr hcheck, if_pos rfl, h.index_eq hr]
  exact Step.run_bind_ok (Step.run_emit _ _) _

/-- Any other record takes the last place of the queue. -/
theorem Sound.run_fetchNext_push (h : c.Sound config program)
    (hr : c.trace[c.machine.cursor]? = some r) {op : OpClass}
    (hcheck : r.check c.machine.registers.size = .ok op) (hop : op ≠ .trap)
    (hroom : c.machine.queue.isFull = false) (left : Nat) :
    (Step.fetchNext now (left + 1)).run c = .ok () (c.fetched now op) := by
  have hnew : c.trace.cycleAt .dispatch c.machine.cursor = none :=
    Option.not_isSome_iff_eq_none.1 fun hi => Nat.lt_irrefl _ (h.dispatched.1 hi).1
  rw [run_fetchNext_succ hr hcheck, if_neg hop]
  exact run_push (Trace.lt_size_of_getElem? hr) hnew (h.index_eq hr) hroom

end Next

theorem Sound.run_fetchNext (h : c.Sound config program) (hroom : c.machine.queue.isFull = false)
    {left : Nat} (hleft : c.trace.size - c.machine.cursor = left) :
    (∃ c', (Step.fetchNext now left).run c = .ok () c' ∧ Fetched now c c') ∨
      ∃ reason c', (Step.fetchNext now left).run c = .error (.rejected reason) c' ∧
        Stopped now reason c c' := by
  induction left generalizing c with
  | zero =>
    have hcursor : c.machine.cursor = c.trace.size := by
      have := h.cursor_le
      rw [← h.size_trace] at this
      omega
    have harriving : c.arriving = none := by
      simp only [arriving, hroom, Bool.false_eq_true, if_false, List.find?_eq_none,
        decide_eq_true_eq, Nat.not_le, hcursor]
      exact fun i hi => (Trace.mem_scheduledBelow.1 hi).1
    refine .inl ⟨c, rfl, .refl, rfl, rfl, rfl, ?_, ?_, ?_, fun _ _ => hcursor⟩
    · simp [harriving]
    · simp [harriving]
    · simp [harriving]
  | succ left ih =>
    obtain ⟨r, hr⟩ := Trace.exists_getElem? (t := c.trace) (i := c.machine.cursor) (by omega)
    cases hcheck : r.check c.machine.registers.size with
    | error reason =>
      exact .inr ⟨reason, c, run_fetchNext_refused hr hcheck left, .refl, rfl, rfl, hroom, r, hr,
        hcheck⟩
    | ok op =>
      by_cases hop : op = .trap
      · subst hop
        have hmove : Move now c _ := .skip hr hcheck
        have hleft' : c.trace.size - (c.machine.cursor + 1) = left := by omega
        rw [h.run_fetchNext_skip hr hcheck]
        rcases ih (h.move hmove) hroom hleft' with ⟨c', hrun, hf⟩ | ⟨reason, c', hrun, hstop⟩
        · exact .inl ⟨c', hrun, .skip h hr hcheck hf⟩
        · exact .inr ⟨reason, c', hrun, .head hmove hstop.moves, hstop.machine, hstop.trace,
            hstop.stuck⟩
      · exact .inl ⟨_, h.run_fetchNext_push hr hcheck hop hroom left, .push h hr hcheck hop hroom⟩

theorem run_fetch_of_full (hfull : c.machine.queue.isFull = true) (now : Nat) :
    (Step.fetch now).run c = .ok () c := by
  refine (Step.run_bind_ok (EStateM.run_get c) _).trans ?_
  rw [hfull]
  rfl

theorem run_fetch_of_room (hroom : c.machine.queue.isFull = false) (now : Nat) :
    (Step.fetch now).run c =
      (Step.fetchNext now (c.trace.size - c.machine.cursor)).run c := by
  refine (Step.run_bind_ok (EStateM.run_get c) _).trans ?_
  rw [hroom]
  rfl

/-- **Fetch fails only at a record that the machine refuses.** -/
theorem Sound.run_fetch (h : c.Sound config program) (now : Nat) :
    (∃ c', (Step.fetch now).run c = .ok () c' ∧ Fetched now c c') ∨
      ∃ reason c', (Step.fetch now).run c = .error (.rejected reason) c' ∧
        Stopped now reason c c' := by
  cases hfull : c.machine.queue.isFull with
  | true =>
    have harriving : c.arriving = none := by rw [arriving, hfull, if_pos rfl]
    refine .inl ⟨c, run_fetch_of_full hfull now, .refl, rfl, rfl, rfl, ?_, ?_, ?_, ?_⟩
    · simp [harriving]
    · simp [harriving]
    · simp [harriving]
    · rw [hfull]
      exact fun hfull => Bool.noConfusion hfull
  | false =>
    rw [run_fetch_of_room hfull]
    exact h.run_fetchNext hfull rfl

end Core

end Tomasulo
