import Tomasulo.Proofs.Move

/-!
# Proofs/Invariant — every move keeps a sound core sound

One lemma per move.  Most moves touch the front end or the back end only, and the other half of
`Core.Sound` is carried over; in the half that is touched, each field is one case analysis on the
slot or the record the move writes.
-/

namespace Tomasulo

namespace Core

variable {config : Config} {program : Trace} {c : Core} {now : Nat}

/-! ## The bus and the log -/

/-- A note keeps a core sound. -/
theorem Sound.noted (h : c.Sound config program) (e : Event) :
    (c.noted e).Sound config program where
  toFrontSound := h.toFrontSound.congr h.fits h.frame rfl rfl (fun _ => rfl) fun _ => rfl
  toBackSound := h.toBackSound.congr rfl rfl (fun _ hw => hw) fun _ _ _ => rfl

/-- Waking keeps a core sound. -/
theorem Sound.woken (h : c.Sound config program) (d : Nat) (writes : List Nat) :
    (c.woken now d writes).Sound config program where
  toFrontSound := by
    refine h.toFrontSound.congr ?_ ?_ rfl rfl ?_ ?_
    · exact { h.fits with
        registers := (RegisterMap.size_forgetAll _ _ _).trans h.fits.registers }
    · exact (Trace.unscheduled_resolved ..).trans h.frame
    · exact c.cycleAt_woken now d writes .dispatch
    · exact c.cycleAt_woken now d writes .issue
  toBackSound := by
    refine h.toBackSound.congr rfl rfl ?_ fun stage i _ => c.cycleAt_woken now d writes stage i
    rintro w ⟨⟩

/-! ## Leaving a station -/

/-- A record that leaves is the only one that no longer stands in a station. -/
theorem Sound.isStationed_freed (h : c.Sound config program) {p : Pool} {u s : Nat} {e : InFlight}
    (hs : c.stationAt p s = some e) (i : Nat) :
    (c.freed p u s).IsStationed i ↔ c.IsStationed i ∧ i ≠ e.index := by
  constructor
  · rintro ⟨q, x, f, hf, rfl⟩
    rw [stationAt_freed] at hf
    refine ⟨⟨q, x, f, hf.2, rfl⟩, fun heq => hf.1 ?_⟩
    have hpool := h.poolAt_station hf.2
    rw [heq, h.poolAt_station hs] at hpool
    obtain rfl := Option.some.inj hpool
    exact ⟨rfl, h.station_inj hf.2 hs heq⟩
  · rintro ⟨⟨q, x, f, hf, rfl⟩, hne⟩
    refine ⟨q, x, f, (stationAt_freed c p u s).2 ⟨?_, hf⟩, rfl⟩
    rintro ⟨rfl, rfl⟩
    exact hne (congrArg InFlight.index (Option.some.inj (hf.symm.trans hs)))

/-- A unit and its station can be freed together with a stamp on the bus, if that is the way the
record of the station ends. -/
theorem Sound.leave (h : c.Sound config program) {p : Pool} {u s : Nat} {e : InFlight}
    (hu : c.unitAt p u = some s) (hs : c.stationAt p s = some e) {t : Trace} {bus : ResultBus}
    {log : Array Event} (hframe : t.unscheduled = program)
    (hother : ∀ stage i, stage ≠ .cdb ∨ i ≠ e.index → t.cycleAt stage i = c.trace.cycleAt stage i)
    (hown : (t.cycleAt .cdb e.index).isSome = true ↔ program.publishes e.index = true)
    (hbus : ∀ d, bus.carried = some d → (t.cycleAt .cdb d).isSome = true) :
    Sound config program
      { machine := { (c.freed p u s).machine with bus }, trace := t, log } := by
  have hissue (i : Nat) : t.cycleAt .issue i = c.trace.cycleAt .issue i :=
    hother _ _ (.inl (by decide))
  have hexecute (i : Nat) : t.cycleAt .execute i = c.trace.cycleAt .execute i :=
    hother _ _ (.inl (by decide))
  have hstarted : (c.trace.cycleAt .execute e.index).isSome = true := by
    obtain ⟨f, hf, hexec⟩ := h.unit_station hu
    obtain rfl := Option.some.inj (hs.symm.trans hf)
    exact hexec
  have hstation {q x f} (hf : (c.freed p u s).stationAt q x = some f) :
      c.stationAt q x = some f ∧ f.index ≠ e.index := by
    have hst : (c.freed p u s).IsStationed f.index := ⟨q, x, f, hf, rfl⟩
    exact ⟨((stationAt_freed c p u s).1 hf).2, ((h.isStationed_freed hs f.index).1 hst).2⟩
  refine { toFrontSound := ?_, toBackSound := ?_ }
  · refine h.toFrontSound.congr ?_ hframe rfl rfl (fun i => hother _ _ (.inl (by decide))) hissue
    exact { (h.fits.putUnit p u none).putStation p s none with }
  constructor
  case bus => exact hbus _
  case started =>
    intro i hi
    rw [hexecute] at hi
    rw [hissue]
    exact h.started hi
  case station_class => exact fun hf => h.station_class (hstation hf).1
  case station_stamps =>
    intro q x f hf
    obtain ⟨hf, hne⟩ := hstation hf
    rw [hissue, hother .cdb f.index (.inr hne)]
    exact h.station_stamps hf
  case station_inj => exact fun hf hf' => h.station_inj (hstation hf).1 (hstation hf').1
  case unit_station =>
    intro q x y hx
    obtain ⟨hne, hy⟩ := (unitAt_freed c p u s).1 hx
    obtain ⟨f, hf, hexec⟩ := h.unit_station hy
    refine ⟨f, (stationAt_freed c p u s).2 ⟨?_, hf⟩, by rwa [hexecute]⟩
    rintro ⟨rfl, rfl⟩
    exact hne ⟨rfl, h.unit_inj hy hu⟩
  case unit_inj =>
    intro q x x' y hx hx'
    exact h.unit_inj ((unitAt_freed c p u s).1 hx).2 ((unitAt_freed c p u s).1 hx').2
  case running =>
    intro q x f hf hexec
    rw [hexecute] at hexec
    obtain ⟨hne, hx⟩ := (stationAt_freed c p u s).1 hf
    obtain ⟨v, hv⟩ := h.running hx hexec
    refine ⟨v, (unitAt_freed c p u s).2 ⟨?_, hv⟩⟩
    rintro ⟨rfl, rfl⟩
    exact hne ⟨rfl, Option.some.inj (hv.symm.trans hu)⟩
  case broadcast =>
    intro i hi
    rw [hexecute]
    by_cases hie : i = e.index
    · subst hie
      exact ⟨hown.1 hi, hstarted⟩
    · rw [hother .cdb i (.inr hie)] at hi
      exact h.broadcast hi
  case left =>
    intro i hi hnot
    rw [hissue] at hi
    rw [hexecute]
    by_cases hie : i = e.index
    · subst hie
      exact ⟨hstarted, hown.2⟩
    · rw [hother .cdb i (.inr hie)]
      refine h.left hi fun hst => hnot ?_
      exact (h.isStationed_freed hs i).2 ⟨hst, hie⟩

/-- A store that leaves keeps a core sound. -/
theorem Sound.stored (h : c.Sound config program) {p : Pool} {u s : Nat} {e : InFlight}
    (hu : c.unitAt p u = some s) (hs : c.stationAt p s = some e) (hop : e.op = .store) :
    (c.freed p u s).Sound config program := by
  refine h.leave hu hs h.frame (fun _ _ _ => rfl) ?_ (fun _ hd => h.bus hd)
  rw [(h.station_stamps hs).2]
  simp [Trace.publishes, (h.station_class hs).1, hop, OpClass.broadcasts]

/-- A result that is published keeps a core sound. -/
theorem Sound.published (h : c.Sound config program) {p : Pool} {u s : Nat} {e : InFlight}
    (hu : c.unitAt p u = some s) (hs : c.stationAt p s = some e)
    (hop : e.op.broadcasts = true) :
    (c.published now p u s e.index).Sound config program := by
  have hlt : e.index < c.trace.size := by
    rw [h.size_trace]
    exact Trace.lt_size_of_poolAt (h.poolAt_station hs)
  refine h.leave hu hs ((Trace.unscheduled_stamped ..).trans h.frame) ?_ ?_ ?_
  · intro stage i hne
    rw [Trace.cycleAt_stamped hlt, if_neg]
    tauto
  · rw [Trace.cycleAt_stamped hlt]
    simpa using Trace.publishes_iff.2 ⟨e.op, (h.station_class hs).1, hop⟩
  · rintro d ⟨⟩
    simp [Trace.cycleAt_stamped hlt]

/-! ## Starting -/

theorem Sound.lt_size_of_station (h : c.Sound config program) {p : Pool} {s : Nat}
    {e : InFlight} (hs : c.stationAt p s = some e) : e.index < c.trace.size := by
  rw [h.size_trace]
  exact Trace.lt_size_of_poolAt (h.poolAt_station hs)

/-- A start keeps a core sound: nothing ran the station before, since its record had not started. -/
theorem Sound.begun (h : c.Sound config program) {p : Pool} {u s : Nat} {e : InFlight}
    (hlt : u < (c.machine.units p).running.size) (hu : c.unitAt p u = none)
    (hs : c.stationAt p s = some e) (hnew : c.trace.cycleAt .execute e.index = none) :
    (c.begun now p u s e.index).Sound config program := by
  have hexecute := c.isSome_begun_iff (h.lt_size_of_station hs) now p u s
  have hother (stage : Stage) (hstage : stage ≠ .execute) :=
    c.cycleAt_begun_of_ne hstage now p u s e.index
  have hunit {q : Pool} {x y : Nat} := c.unitAt_begun hlt now s e.index (q := q) (x := x) (y := y)
  have hidle {x : Nat} (hx : c.unitAt p x = some s) : False := by
    obtain ⟨f, hf, hexec⟩ := h.unit_station hx
    obtain rfl := Option.some.inj (hs.symm.trans hf)
    rw [hnew] at hexec
    exact Bool.noConfusion hexec
  refine { toFrontSound := ?_, toBackSound := ?_ }
  · exact h.toFrontSound.congr (h.fits.putUnit p u _)
      ((Trace.unscheduled_stamped ..).trans h.frame) rfl rfl (hother .dispatch (by decide))
      (hother .issue (by decide))
  constructor
  case station_class => exact h.station_class
  case station_inj => exact h.station_inj
  case station_stamps =>
    intro q x f hf
    rw [hother .issue (by decide), hother .cdb (by decide)]
    exact h.station_stamps hf
  case bus =>
    intro d hd
    rw [hother .cdb (by decide)]
    exact h.bus hd
  case unit_station =>
    intro q x y hx
    rcases hunit.1 hx with ⟨rfl, rfl, rfl⟩ | ⟨-, hx⟩
    · exact ⟨e, hs, (hexecute _).2 (.inl rfl)⟩
    · obtain ⟨f, hf, hexec⟩ := h.unit_station hx
      exact ⟨f, hf, (hexecute _).2 (.inr hexec)⟩
  case unit_inj =>
    intro q x x' y hx hx'
    rcases hunit.1 hx with ⟨rfl, rfl, rfl⟩ | ⟨-, hold⟩ <;>
      rcases hunit.1 hx' with ⟨hq, hu', hy⟩ | ⟨-, hold'⟩
    · exact hu'.symm
    · exact (hidle hold').elim
    · rw [hq, hy] at hold
      exact (hidle hold).elim
    · exact h.unit_inj hold hold'
  case running =>
    intro q x f hf hexec
    rcases (hexecute _).1 hexec with heq | hexec
    · have hpool := h.poolAt_station hf
      rw [heq, h.poolAt_station hs] at hpool
      obtain rfl := Option.some.inj hpool
      exact ⟨u, hunit.2 (.inl ⟨rfl, rfl, h.station_inj hf hs heq⟩)⟩
    · obtain ⟨v, hv⟩ := h.running hf hexec
      refine ⟨v, hunit.2 (.inr ⟨?_, hv⟩)⟩
      rintro ⟨rfl, rfl⟩
      rw [hu] at hv
      cases hv
  case started =>
    intro i hi
    rw [hother .issue (by decide)]
    rcases (hexecute i).1 hi with rfl | hi
    · exact (h.station_stamps hs).1
    · exact h.started hi
  case broadcast =>
    intro i hi
    rw [hother .cdb (by decide)] at hi
    obtain ⟨hpub, hexec⟩ := h.broadcast hi
    exact ⟨hpub, (hexecute i).2 (.inr hexec)⟩
  case left =>
    intro i hi hnot
    rw [hother .issue (by decide)] at hi
    rw [hother .cdb (by decide)]
    obtain ⟨hexec, hcdb⟩ := h.left hi hnot
    exact ⟨(hexecute i).2 (.inr hexec), hcdb⟩

/-! ## Leaving the queue -/

section Queue

variable {e : InFlight} {rest : List InFlight}

theorem queued_of_entries (hq : c.machine.queue.entries = e :: rest) :
    c.queued = e.index :: rest.map (·.index) := by
  simp [queued, hq]

theorem head_mem_queued (hq : c.machine.queue.entries = e :: rest) : e.index ∈ c.queued := by
  simp [queued_of_entries hq]

/-- The head of the queue carries its class. -/
theorem Sound.classAt_head (h : c.Sound config program)
    (hq : c.machine.queue.entries = e :: rest) : program.classAt e.index = some e.op :=
  h.queue_class e (by simp [hq])

/-- It has not been issued. -/
theorem Sound.not_issued_head (h : c.Sound config program)
    (hq : c.machine.queue.entries = e :: rest) :
    ¬ (c.trace.cycleAt .issue e.index).isSome = true :=
  fun hi => (h.issued.1 hi).2.2 (head_mem_queued hq)

theorem queued_popped (hq : c.machine.queue.entries = e :: rest) :
    c.popped.queued = rest.map (·.index) := by
  simp [queued, popped, FetchQueue.pop, hq]

/-- **Only the head leaves the queue.** -/
theorem Sound.mem_queued_popped (h : c.Sound config program)
    (hq : c.machine.queue.entries = e :: rest) (i : Nat) :
    i ∈ c.popped.queued ↔ i ∈ c.queued ∧ i ≠ e.index := by
  have hsorted := h.pairwise_queued
  rw [queued_of_entries hq, List.pairwise_cons] at hsorted
  rw [queued_popped hq, queued_of_entries hq, List.mem_cons]
  constructor
  · intro hi
    exact ⟨.inr hi, Nat.ne_of_gt (hsorted.1 i hi)⟩
  · rintro ⟨rfl | hi, hne⟩
    · exact absurd rfl hne
    · exact hi

/-- **Issue is in program order**: of the records with a pool, those before the head of the queue
have been issued, and no others. -/
theorem Sound.issued_iff_lt (h : c.Sound config program)
    (hq : c.machine.queue.entries = e :: rest) {j : Nat} {p : Pool}
    (hj : program.poolAt j = some p) :
    (c.trace.cycleAt .issue j).isSome = true ↔ j < e.index := by
  have hmem := head_mem_queued hq
  have hsorted := h.pairwise_queued
  rw [queued_of_entries hq, List.pairwise_cons] at hsorted
  rw [h.issued, hj]
  constructor
  · rintro ⟨hlt, -, hjq⟩
    exact h.lt_of_not_mem_queued hlt (Trace.isScheduled_of_poolAt hj) hjq hmem
  · intro hlt
    refine ⟨Nat.lt_trans hlt (h.mem_queued hmem).1, rfl, fun hjq => ?_⟩
    rw [queued_of_entries hq, List.mem_cons] at hjq
    rcases hjq with rfl | hjq
    · exact Nat.lt_irrefl _ hlt
    · exact Nat.lt_asymm hlt (hsorted.1 j hjq)

theorem Sound.queue_popped (h : c.Sound config program)
    (hq : c.machine.queue.entries = e :: rest) :
    c.popped.queued <:+ program.scheduledBelow c.machine.cursor := by
  refine List.IsSuffix.trans ?_ h.queue
  rw [queued_popped hq, queued_of_entries hq]
  exact List.suffix_cons ..

theorem Sound.class_popped (h : c.Sound config program) :
    ∀ f ∈ c.popped.machine.queue.entries, program.classAt f.index = some f.op := by
  intro f hf
  refine h.queue_class f (List.mem_of_mem_tail ?_)
  simpa [popped, FetchQueue.pop] using hf

theorem Sound.room_popped (h : c.Sound config program) :
    c.popped.machine.queue.entries.length ≤ config.queue := by
  refine Nat.le_trans ?_ h.queue_room
  simp [popped, FetchQueue.pop]

/-- A jump or branch leaves the queue and the machine. -/
theorem Sound.passed (h : c.Sound config program) (hq : c.machine.queue.entries = e :: rest)
    (hop : e.op.isControl = true) : c.popped.Sound config program := by
  have hclass := h.classAt_head hq
  have hpool : program.poolAt e.index = none := by
    rw [Trace.poolAt, hclass]
    cases he : e.op <;> simp_all [OpClass.isControl, OpClass.pool]
  refine { toFrontSound := ?_, toBackSound := ?_ }
  case refine_2 => exact h.toBackSound.congr rfl rfl (fun _ hw => hw) fun _ _ _ => rfl
  constructor
  case fits => exact { h.fits with }
  case frame => exact h.frame
  case numbered => exact h.numbered
  case accepted => exact h.accepted
  case queue => exact h.queue_popped hq
  case queue_class => exact h.class_popped
  case queue_room => exact h.room_popped
  case dispatched => exact h.dispatched
  case issued =>
    intro i
    refine h.issued.trans ?_
    rw [h.mem_queued_popped hq]
    by_cases hi : i = e.index
    · simp [hi, hpool]
    · simp [hi, popped]

section Issued

variable {p : Pool} {s : Nat} {r : Record}

theorem Sound.lt_size_of_entries (h : c.Sound config program)
    (hq : c.machine.queue.entries = e :: rest) : e.index < c.trace.size := by
  rw [h.size_trace]
  exact Trace.lt_size_of_classAt (h.classAt_head hq)

/-- The head leaves the queue with an issue stamp. -/
theorem Sound.front_issue (h : c.Sound config program) (hq : c.machine.queue.entries = e :: rest)
    (hpool : e.op.pool = some p) : (c.issued now p s e r).FrontSound config program := by
  have hsize := h.lt_size_of_entries hq
  constructor
  case fits =>
    have hpopped : c.popped.machine.Fits config := { h.fits with }
    have hfits := hpopped.putStation p s (some e)
    refine { hfits with registers := ?_ }
    change Slots.size (if _ then _ else _) = _
    split
    · exact (RegisterMap.size_claimAll ..).trans h.fits.registers
    · exact h.fits.registers
  case frame =>
    refine (Trace.unscheduled_renamed ..).trans ?_
    exact (Trace.unscheduled_stamped ..).trans h.frame
  case numbered => exact h.numbered
  case accepted => exact h.accepted
  case queue => exact h.queue_popped hq
  case queue_class => exact h.class_popped
  case queue_room => exact h.room_popped
  case dispatched =>
    intro i
    rw [cycleAt_issued_of_ne _ (by decide)]
    exact h.dispatched
  case issued =>
    intro i
    have hqueued : (c.issued now p s e r).queued = c.popped.queued := rfl
    have hcursor : (c.issued now p s e r).machine.cursor = c.machine.cursor := rfl
    rw [isSome_issued_iff _ hsize, h.issued, hqueued, hcursor, h.mem_queued_popped hq]
    by_cases hi : i = e.index
    · subst hi
      have hpoolAt : program.poolAt e.index = some p :=
        Trace.poolAt_eq_some_iff.2 ⟨e.op, h.classAt_head hq, hpool⟩
      simpa [hpoolAt] using (h.mem_queued (head_mem_queued hq)).1
    · simp [hi]

/-- The head is new to the back end, which finds it in a free station. -/
theorem Sound.back_issue (h : c.Sound config program) (hq : c.machine.queue.entries = e :: rest)
    (hpool : e.op.pool = some p) (hlt : s < (c.machine.stations p).size)
    (hs : c.stationAt p s = none) : (c.issued now p s e r).BackSound program := by
  have hsize := h.lt_size_of_entries hq
  have hissue := c.isSome_issued_iff hsize now p s r
  have hother (stage : Stage) (hstage : stage ≠ .issue) :=
    c.cycleAt_issued_of_ne hstage now p s e r
  have hnew := h.not_issued_head hq
  have hnotstarted : ¬ (c.trace.cycleAt .execute e.index).isSome = true := fun hi =>
    hnew (h.started hi)
  have hstation {q : Pool} {x : Nat} {f : InFlight} :=
    c.stationAt_issued hlt now e r (q := q) (x := x) (f := f)
  have hkept {q : Pool} {x : Nat} {f : InFlight} (hf : c.stationAt q x = some f) :
      (c.issued now p s e r).stationAt q x = some f := by
    refine hstation.2 (.inr ⟨?_, hf⟩)
    rintro ⟨rfl, rfl⟩
    rw [hs] at hf
    cases hf
  constructor
  case station_class =>
    intro q x f hf
    rcases hstation.1 hf with ⟨rfl, rfl, rfl⟩ | ⟨-, hf⟩
    · exact ⟨h.classAt_head hq, hpool⟩
    · exact h.station_class hf
  case station_stamps =>
    intro q x f hf
    rw [hissue, hother .cdb (by decide)]
    rcases hstation.1 hf with ⟨rfl, rfl, rfl⟩ | ⟨-, hf⟩
    · refine ⟨.inl rfl, Option.not_isSome_iff_eq_none.1 fun hcdb => ?_⟩
      exact hnotstarted (h.broadcast hcdb).2
    · exact ⟨.inr (h.station_stamps hf).1, (h.station_stamps hf).2⟩
  case station_inj =>
    intro q x x' f f' hf hf' heq
    rcases hstation.1 hf with ⟨rfl, hx, rfl⟩ | ⟨-, hold⟩ <;>
      rcases hstation.1 hf' with ⟨-, hx', rfl⟩ | ⟨-, hold'⟩
    · exact hx.trans hx'.symm
    · exact absurd (heq ▸ (h.station_stamps hold').1) hnew
    · exact absurd (heq ▸ (h.station_stamps hold).1) hnew
    · exact h.station_inj hold hold' heq
  case unit_station =>
    intro q x y hx
    rw [show (c.issued now p s e r).unitAt q x = c.unitAt q x from rfl] at hx
    obtain ⟨f, hf, hexec⟩ := h.unit_station hx
    exact ⟨f, hkept hf, by rwa [hother .execute (by decide)]⟩
  case unit_inj => exact h.unit_inj
  case running =>
    intro q x f hf hexec
    rw [hother .execute (by decide)] at hexec
    rcases hstation.1 hf with ⟨rfl, rfl, rfl⟩ | ⟨-, hf⟩
    · exact absurd hexec hnotstarted
    · exact h.running hf hexec
  case started =>
    intro i hi
    rw [hother .execute (by decide)] at hi
    exact (hissue i).2 (.inr (h.started hi))
  case broadcast =>
    intro i hi
    rw [hother .cdb (by decide)] at hi
    rw [hother .execute (by decide)]
    exact h.broadcast hi
  case left =>
    intro i hi hnot
    rw [hother .execute (by decide), hother .cdb (by decide)]
    rcases (hissue i).1 hi with rfl | hi
    · exact absurd ⟨p, s, e, hstation.2 (.inl ⟨rfl, rfl, rfl⟩), rfl⟩ hnot
    · refine h.left hi ?_
      rintro ⟨q, x, f, hf, rfl⟩
      exact hnot ⟨q, x, f, hkept hf, rfl⟩
  case bus =>
    intro d hd
    rw [hother .cdb (by decide)]
    exact h.bus hd

/-- The head of the queue takes a station of its pool. -/
theorem Sound.issue (h : c.Sound config program) (hq : c.machine.queue.entries = e :: rest)
    (hpool : e.op.pool = some p) (hlt : s < (c.machine.stations p).size)
    (hs : c.stationAt p s = none) : (c.issued now p s e r).Sound config program :=
  ⟨h.front_issue hq hpool, h.back_issue hq hpool hlt hs⟩

end Issued

end Queue

/-! ## Passing a record -/

/-- What the check of the record at the cursor says about the program. -/
theorem Sound.class_cursor (h : c.Sound config program) {r : Record} {op : OpClass}
    (hr : c.trace[c.machine.cursor]? = some r)
    (hcheck : r.check c.machine.registers.size = .ok op) :
    program.classAt c.machine.cursor = some op := by
  obtain ⟨hprogram, -⟩ := h.check_eq hr
  rw [Trace.classAt, hprogram]
  exact Record.class?_eq_of_check hcheck

theorem Sound.accepted_cursor (h : c.Sound config program) {r : Record} {op : OpClass}
    (hr : c.trace[c.machine.cursor]? = some r)
    (hcheck : r.check c.machine.registers.size = .ok op) {i : Nat}
    (hi : i < c.machine.cursor + 1) :
    ∃ r op, program[i]? = some r ∧ r.check config.registers = .ok op := by
  rcases Nat.lt_succ_iff_lt_or_eq.1 hi with hi | rfl
  · exact h.accepted hi
  · obtain ⟨hprogram, heq⟩ := h.check_eq hr
    exact ⟨_, op, hprogram, heq.trans hcheck⟩

/-- A trap is passed over. -/
theorem Sound.skipped (h : c.Sound config program) {r : Record}
    (hr : c.trace[c.machine.cursor]? = some r)
    (hcheck : r.check c.machine.registers.size = .ok .trap) :
    c.advanced.Sound config program := by
  have hclass := h.class_cursor hr hcheck
  have hsched : program.isScheduled c.machine.cursor = false := by
    simp [Trace.isScheduled, hclass]
  have hpool : program.poolAt c.machine.cursor = none := by
    simp [Trace.poolAt, hclass, OpClass.pool]
  have hlt (i : Nat) :
      i < c.advanced.machine.cursor ↔ i < c.machine.cursor ∨ i = c.machine.cursor :=
    Nat.lt_succ_iff_lt_or_eq
  refine { toFrontSound := ?_, toBackSound := ?_ }
  case refine_2 => exact h.toBackSound.congr rfl rfl (fun _ hw => hw) fun _ _ _ => rfl
  constructor
  case fits => exact { h.fits with }
  case frame => exact h.frame
  case numbered => exact h.numbered
  case accepted => exact fun hi => h.accepted_cursor hr hcheck hi
  case queue =>
    change c.queued <:+ program.scheduledBelow (c.machine.cursor + 1)
    rw [Trace.scheduledBelow_succ, hsched]
    simpa using h.queue
  case queue_class => exact h.queue_class
  case queue_room => exact h.queue_room
  case dispatched =>
    intro i
    refine h.dispatched.trans ?_
    rw [hlt]
    by_cases hi : i = c.machine.cursor
    · simp [hi, hsched]
    · simp [hi]
  case issued =>
    intro i
    refine h.issued.trans ?_
    rw [hlt]
    by_cases hi : i = c.machine.cursor
    · simp [hi, hpool]
    · simp [hi, queued, advanced]

/-- A record that is no trap enters the queue. -/
theorem Sound.fetched (h : c.Sound config program) {r : Record} {op : OpClass}
    (hr : c.trace[c.machine.cursor]? = some r)
    (hcheck : r.check c.machine.registers.size = .ok op) (hop : op ≠ .trap)
    (hroom : c.machine.queue.entries.length < c.machine.queue.capacity) :
    (c.fetched now op).Sound config program := by
  have hclass := h.class_cursor hr hcheck
  have hsched : program.isScheduled c.machine.cursor = true :=
    Trace.isScheduled_iff.2 ⟨op, hclass, hop⟩
  have hlt (i : Nat) : i < (c.fetched now op).machine.cursor ↔
      i < c.machine.cursor ∨ i = c.machine.cursor :=
    Nat.lt_succ_iff_lt_or_eq
  have hqueued : (c.fetched now op).queued = c.queued ++ [c.machine.cursor] := by
    simp [queued, Core.fetched]
  refine { toFrontSound := ?_, toBackSound := ?_ }
  case refine_2 =>
    exact h.toBackSound.congr rfl rfl (fun _ hw => hw) fun _ i hstage =>
      c.cycleAt_fetched_of_ne hstage now op i
  constructor
  case fits => exact { h.fits with }
  case frame => exact (Trace.unscheduled_stamped ..).trans h.frame
  case numbered => exact h.numbered
  case accepted => exact fun hi => h.accepted_cursor hr hcheck hi
  case queue =>
    change (c.fetched now op).queued <:+ program.scheduledBelow (c.machine.cursor + 1)
    obtain ⟨gone, hgone⟩ := h.queue
    rw [Trace.scheduledBelow_succ, hsched, hqueued, ← hgone]
    exact ⟨gone, by simp⟩
  case queue_class =>
    intro f hf
    rcases List.mem_append.1 hf with hf | hf
    · exact h.queue_class f hf
    · rw [List.mem_singleton.1 hf]
      exact hclass
  case queue_room =>
    have hlength : (c.fetched now op).machine.queue.entries.length =
        c.machine.queue.entries.length + 1 := by simp [Core.fetched]
    rw [hlength, ← h.fits.queue]
    exact hroom
  case dispatched =>
    intro i
    rw [isSome_fetched_iff _ (Trace.lt_size_of_getElem? hr), hlt, h.dispatched]
    by_cases hi : i = c.machine.cursor
    · simp [hi, hsched]
    · simp [hi]
  case issued =>
    intro i
    rw [cycleAt_fetched_of_ne _ (by decide), hlt, hqueued, h.issued]
    by_cases hi : i = c.machine.cursor
    · simp [hi]
    · simp [hi]

/-! ## All moves -/

/-- **Every move keeps a sound core sound.** -/
theorem Sound.move {c' : Core} (h : c.Sound config program) (hmove : Move now c c') :
    c'.Sound config program := by
  cases hmove with
  | wake hbus hr => exact h.woken _ _
  | store hu hs hop hdone => exact (h.stored hu hs hop).noted _
  | publish hu hs hop hdone hbus => exact h.published hu hs hop
  | start hlt hu hs hready =>
    exact h.begun hlt hu hs ((isReady_iff (h.lt_size_of_station hs)).1 hready).2.2
  | pass hq hop => exact (h.passed hq hop).noted _
  | issue hq hpool hlt hs hr => exact h.issue hq hpool hlt hs
  | skip hr hcheck => exact (h.skipped hr hcheck).noted _
  | fetch hr hcheck hop hroom => exact h.fetched hr hcheck hop hroom
  | note e => exact h.noted e

/-- **Whatever the moves, a sound core stays sound.** -/
theorem Sound.moves {c' : Core} (h : c.Sound config program) (hmoves : Moves now c c') :
    c'.Sound config program := by
  induction hmoves with
  | refl => exact h
  | tail _ hmove ih => exact ih.move hmove

end Core

end Tomasulo
