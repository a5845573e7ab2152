import Tomasulo.Proofs.Calls

/-!
# Proofs/Placement — where every record is

`Core.Sound` is the invariant that is easy to keep; this is what it says.  In every core that calls
lead to, in any order, a record that has been fetched and is no trap is in the queue, in one station
of its pool, or gone (`Core.Placed`), and its stamps tell which.  What is not there yet, and what
has gone, nobody refers to.
-/

namespace Tomasulo

namespace Core

variable {config : Config} {program : Trace} {c : Core}

/-! ## Places -/

/-- A record is in a station of a pool. -/
def Occupies (c : Core) (i : Nat) (p : Pool) (s : Nat) : Prop :=
  ∃ e, c.stationAt p s = some e ∧ e.index = i

/-- A record has been fetched and is neither in the queue nor in a station any more. -/
def IsGone (c : Core) (i : Nat) : Prop :=
  i < c.machine.cursor ∧ i ∉ c.queued ∧ ¬ c.IsStationed i

/-- Neither the register map nor any record waits for a record. -/
def IsAwaited (c : Core) (i : Nat) : Prop :=
  (∃ register, c.machine.registers.writer register = some i) ∨
    ∃ j slot, c.trace.producerAt j slot = some i

/-- A record is nowhere in the machine and has no stamp. -/
structure IsUntouched (c : Core) (i : Nat) : Prop where
  queue : i ∉ c.queued
  station : ¬ c.IsStationed i
  bus : c.machine.bus.carried ≠ some i
  cycleAt : ∀ stage, c.trace.cycleAt stage i = none
  producerAt : ∀ slot, c.trace.producerAt i slot = none
  awaited : ¬ c.IsAwaited i

/-- **Where the records of a core are.** -/
structure Placed (config : Config) (c : Core) : Prop where
  /-- The queue holds fetched records in program order, with their classes and without traps. -/
  queue_ascending : c.queued.Pairwise (· < ·)
  queue_fetched : ∀ i ∈ c.queued, i < c.machine.cursor
  queue_room : c.machine.queue.entries.length ≤ config.queue
  queue_class : ∀ e ∈ c.machine.queue.entries,
    c.trace.classAt e.index = some e.op ∧ e.op ≠ .trap
  queue_stamps : ∀ i ∈ c.queued, ∀ stage,
    (c.trace.cycleAt stage i).isSome = true ↔ stage = .dispatch
  /-- A fetched record that is no trap is in exactly one of three places. -/
  place : ∀ {i}, i < c.machine.cursor → c.trace.isScheduled i = true →
    (i ∈ c.queued ∧ ¬ c.IsStationed i) ∨
    (i ∉ c.queued ∧ ∃ p s, c.trace.poolAt i = some p ∧ ∀ q x, c.Occupies i q x ↔ q = p ∧ x = s) ∨
    c.IsGone i
  /-- What has not been fetched, and a trap, is nowhere. -/
  untouched : ∀ {i}, c.machine.cursor ≤ i ∨ c.trace.isScheduled i = false → c.IsUntouched i
  /-- A busy unit runs the record of a taken station of its pool, which no other unit runs. -/
  unit_station : ∀ {p u s}, c.unitAt p u = some s → ∃ e, c.stationAt p s = some e
  unit_inj : ∀ {p u u' s}, c.unitAt p u = some s → c.unitAt p u' = some s → u = u'
  /-- A record in a station has been issued, has not been on the bus, and runs once it has started.
  -/
  station_class : ∀ {p s e}, c.stationAt p s = some e →
    c.trace.classAt e.index = some e.op ∧ e.op.pool = some p
  station_stamps : ∀ {p s e}, c.stationAt p s = some e →
    (c.trace.cycleAt .dispatch e.index).isSome = true ∧
    (c.trace.cycleAt .issue e.index).isSome = true ∧ c.trace.cycleAt .cdb e.index = none ∧
    ((c.trace.cycleAt .execute e.index).isSome = true ↔ ∃! u, c.unitAt p u = some s)
  /-- The result on the bus is that of a record that is gone. -/
  bus : ∀ {d}, c.machine.bus.carried = some d →
    c.IsGone d ∧ c.trace.publishes d = true ∧ (c.trace.cycleAt .cdb d).isSome = true
  /-- A record that is gone has passed every stage of its class. -/
  gone_stamps : ∀ {i}, c.IsGone i → c.trace.isScheduled i = true →
    (c.trace.cycleAt .dispatch i).isSome = true ∧
    (c.trace.cycleAt .issue i).isSome = (c.trace.poolAt i).isSome ∧
    (c.trace.cycleAt .execute i).isSome = (c.trace.poolAt i).isSome ∧
    (c.trace.cycleAt .cdb i).isSome = c.trace.publishes i
  /-- Nobody waits for a record that is gone and whose result is not on the bus. -/
  gone_awaited : ∀ {i}, c.IsGone i → c.machine.bus.carried ≠ some i → ¬ c.IsAwaited i

/-! ## Reading the places off the invariant -/

section Reading

variable (h : c.Sound config program)

include h

/-- A record that has been issued is a fetched one that is not in the queue. -/
theorem Sound.not_queued_of_issued {i : Nat} (hi : c.IsIssued i) :
    i < c.machine.cursor ∧ program.isScheduled i = true ∧ i ∉ c.queued := by
  obtain ⟨hcursor, hpool, hqueue⟩ := h.issued.1 hi
  obtain ⟨p, hp⟩ := Option.isSome_iff_exists.1 hpool
  exact ⟨hcursor, Trace.isScheduled_of_poolAt hp, hqueue⟩

theorem Sound.issued_of_stationed {i : Nat} (hi : c.IsStationed i) : c.IsIssued i := by
  obtain ⟨p, s, e, he, rfl⟩ := hi
  exact (h.station_stamps he).1

/-- No stage without the ones before it. -/
theorem Sound.issued_of_cycleAt {stage : Stage} {i : Nat}
    (hi : (c.trace.cycleAt stage i).isSome = true) : stage = .dispatch ∨ c.IsIssued i := by
  cases stage with
  | dispatch => exact .inl rfl
  | issue => exact .inr hi
  | execute => exact .inr (h.started hi)
  | cdb => exact .inr (h.started (h.broadcast hi).2)

/-- Whoever is waited for is in a station or on the bus. -/
theorem Sound.onItsWay_of_awaited (hr : c.Renamed program) {i : Nat} (hi : c.IsAwaited i) :
    c.IsStationed i ∨ c.machine.bus.carried = some i := by
  rcases hi with ⟨register, hw⟩ | ⟨j, slot, hw⟩
  · obtain ⟨hlatest, hret⟩ := hr.writer.1 hw
    exact h.onItsWay_of_issued hlatest.publishes hlatest.mem hret
  · exact hr.onItsWay h hw

theorem Sound.isGone_of_bus {d : Nat} (hd : c.machine.bus.carried = some d) : c.IsGone d := by
  have hcdb := h.bus hd
  obtain ⟨hpub, hexecute⟩ := h.broadcast hcdb
  obtain ⟨hcursor, -, hqueue⟩ := h.not_queued_of_issued (h.started hexecute)
  refine ⟨hcursor, hqueue, fun hst => ?_⟩
  rw [((h.isStationed_of_publishes hpub).1 hst).2] at hcdb
  cases hcdb

/-- What is not fetched or a trap has nothing to do with the machine. -/
theorem Sound.isUntouched (hr : c.Renamed program) {i : Nat}
    (hi : ¬ (i < c.machine.cursor ∧ program.isScheduled i = true)) : c.IsUntouched i := by
  have hissued : ¬ c.IsIssued i := fun hissued =>
    hi ⟨(h.not_queued_of_issued hissued).1, (h.not_queued_of_issued hissued).2.1⟩
  have hstation : ¬ c.IsStationed i := fun hst => hissued (h.issued_of_stationed hst)
  have hbus : c.machine.bus.carried ≠ some i := fun hd =>
    hissued (h.started (h.broadcast (h.bus hd)).2)
  refine ⟨fun hq => hi (h.mem_queued hq), hstation, hbus, fun stage => ?_,
    hr.elsewhere hstation, fun hawaited => ?_⟩
  · rw [← Option.not_isSome_iff_eq_none]
    intro hstamp
    rcases h.issued_of_cycleAt hstamp with rfl | hstamp
    · exact hi (h.dispatched.1 hstamp)
    · exact hissued hstamp
  · rcases h.onItsWay_of_awaited hr hawaited with hst | hd
    · exact hstation hst
    · exact hbus hd

/-- A record is in one station at most, and that is one of its pool. -/
theorem Sound.occupies_iff {p : Pool} {s : Nat} {e : InFlight} (he : c.stationAt p s = some e)
    (q : Pool) (x : Nat) : c.Occupies e.index q x ↔ q = p ∧ x = s := by
  constructor
  · rintro ⟨f, hf, hindex⟩
    have hpool := h.poolAt_station hf
    rw [hindex, h.poolAt_station he] at hpool
    obtain rfl := Option.some.inj hpool
    exact ⟨rfl, h.station_inj hf he hindex⟩
  · rintro ⟨rfl, rfl⟩
    exact ⟨e, he, rfl⟩

/-- **A record in a station has started when exactly one unit runs it.** -/
theorem Sound.started_iff {p : Pool} {s : Nat} {e : InFlight} (he : c.stationAt p s = some e) :
    (c.trace.cycleAt .execute e.index).isSome = true ↔ ∃! u, c.unitAt p u = some s := by
  constructor
  · intro hexecute
    obtain ⟨u, hu⟩ := h.running he hexecute
    exact ⟨u, hu, fun v hv => h.unit_inj hv hu⟩
  · rintro ⟨u, hu, -⟩
    obtain ⟨f, hf, hexecute⟩ := h.unit_station hu
    obtain rfl := Option.some.inj (he.symm.trans hf)
    exact hexecute

/-- **A record that is gone has passed every stage of its class.** -/
theorem Sound.stamps_of_gone {i : Nat} (hi : c.IsGone i) :
    (c.trace.cycleAt .issue i).isSome = (program.poolAt i).isSome ∧
      (c.trace.cycleAt .execute i).isSome = (program.poolAt i).isSome ∧
      (c.trace.cycleAt .cdb i).isSome = program.publishes i := by
  obtain ⟨hcursor, hqueue, hstation⟩ := hi
  have hissue : (c.trace.cycleAt .issue i).isSome = true ↔ (program.poolAt i).isSome = true :=
    h.issued.trans ⟨fun hi => hi.2.1, fun hp => ⟨hcursor, hp, hqueue⟩⟩
  have hleft (hp : (program.poolAt i).isSome = true) := h.left (hissue.2 hp) hstation
  refine ⟨Bool.eq_iff_iff.2 hissue, Bool.eq_iff_iff.2 ⟨fun he => ?_, fun hp => (hleft hp).1⟩,
    Bool.eq_iff_iff.2 ⟨fun hcdb => (h.broadcast hcdb).1, fun hpub => ?_⟩⟩
  · exact hissue.1 (h.started he)
  · obtain ⟨p, hp⟩ := Trace.exists_poolAt_of_publishes hpub
    exact (hleft (Option.isSome_of_eq_some hp)).2 hpub

end Reading

/-- **The places are as they should be.** -/
theorem Coherent.placed (h : c.Coherent config) : c.Placed config := by
  obtain ⟨hs, hr⟩ := h
  have hclass : c.trace.unscheduled.classAt = c.trace.classAt := Trace.classAt_unscheduled _
  have hpool : c.trace.unscheduled.poolAt = c.trace.poolAt := Trace.poolAt_unscheduled _
  have hsched : c.trace.unscheduled.isScheduled = c.trace.isScheduled :=
    Trace.isScheduled_unscheduled _
  have hpublishes : c.trace.unscheduled.publishes = c.trace.publishes :=
    Trace.publishes_unscheduled _
  constructor
  case queue_ascending => exact hs.pairwise_queued
  case queue_fetched => exact fun i hi => (hs.mem_queued hi).1
  case queue_room => exact hs.queue_room
  case queue_class =>
    intro e he
    rw [← hclass]
    refine ⟨hs.queue_class e he, ?_⟩
    obtain ⟨op, hop, hne⟩ :=
      Trace.isScheduled_iff.1 (hs.mem_queued (List.mem_map_of_mem he)).2
    obtain rfl := Option.some.inj ((hs.queue_class e he).symm.trans hop)
    exact hne
  case queue_stamps =>
    intro i hi stage
    constructor
    · intro hstamp
      refine (hs.issued_of_cycleAt hstamp).resolve_right fun hissued => ?_
      exact (hs.not_queued_of_issued hissued).2.2 hi
    · rintro rfl
      exact hs.dispatched.2 (hs.mem_queued hi)
  case place =>
    intro i hcursor hi
    by_cases hqueue : i ∈ c.queued
    · refine .inl ⟨hqueue, fun hst => ?_⟩
      exact (hs.not_queued_of_issued (hs.issued_of_stationed hst)).2.2 hqueue
    · by_cases hst : c.IsStationed i
      · obtain ⟨p, s, e, he, rfl⟩ := hst
        exact .inr (.inl ⟨hqueue, p, s, hpool ▸ hs.poolAt_station he, hs.occupies_iff he⟩)
      · exact .inr (.inr ⟨hcursor, hqueue, hst⟩)
  case untouched =>
    rintro i hi
    refine hs.isUntouched hr fun ⟨hcursor, hscheduled⟩ => ?_
    rcases hi with hle | htrap
    · exact Nat.not_lt.2 hle hcursor
    · rw [hsched, htrap] at hscheduled
      cases hscheduled
  case unit_station =>
    intro p u s hu
    obtain ⟨e, he, -⟩ := hs.unit_station hu
    exact ⟨e, he⟩
  case unit_inj => exact hs.unit_inj
  case station_class =>
    rw [← hclass]
    exact hs.station_class
  case station_stamps =>
    intro p s e he
    obtain ⟨hissue, hcdb⟩ := hs.station_stamps he
    obtain ⟨hcursor, hscheduled, -⟩ := hs.not_queued_of_issued hissue
    exact ⟨hs.dispatched.2 ⟨hcursor, hscheduled⟩, hissue, hcdb, hs.started_iff he⟩
  case bus =>
    intro d hd
    rw [← hpublishes]
    exact ⟨hs.isGone_of_bus hd, (hs.broadcast (hs.bus hd)).1, hs.bus hd⟩
  case gone_stamps =>
    intro i hi hscheduled
    rw [← hpool, ← hpublishes]
    exact ⟨hs.dispatched.2 ⟨hi.1, hsched ▸ hscheduled⟩, hs.stamps_of_gone hi⟩
  case gone_awaited =>
    intro i hi hbus hawaited
    rcases hs.onItsWay_of_awaited hr hawaited with hst | hd
    · exact hi.2.2 hst
    · exact hbus hd

end Core

/-- **Every record is in its place**, in every core that calls lead to, whatever their order. -/
theorem reachable_placed {config : Config} {program : Trace} {c : Core}
    (hprogram : program.unscheduled = program) (hnumbered : program.Numbered)
    (h : c.Reachable config program) : c.Placed config :=
  (h.coherent hprogram hnumbered).placed

/-- A record of no class. -/
def unknownRecord : Record :=
  { op := ⟨0⟩ }

/-- The steps out of order: some before there is anything to do, some with earlier cycles than the
ones before, two in a row that complete, and one that fetches the record of no class. -/
def disorderlyCalls : List Call :=
  [.start 0, .fetch 1, .fetch 1, .fetch 1, .issue 0, .issue 5, .complete 3, .start 6, .fetch 1,
   .complete 2, .complete 10, .append { op := OpClass.jump.word }, .fetch 1, .issue 3, .fetch 2,
   .issue 3, .fetch 3, .complete 4]

/-- After such calls the small program has a record in the queue, one in the station of either pool,
one of them on a unit, and one on the bus; the appended record and the one of no class are nowhere.
-/
theorem reachable_placed_sample :
    ∃ c, (Core.start smallMachine (Trace.ofList (sampleProgram ++ [unknownRecord]))).play
        disorderlyCalls = some c ∧ c.Placed smallMachine ∧
      c.queued = [5] ∧ c.unitAt .int 0 = some 0 ∧ c.stationAt .int 0 = some ⟨2, .int⟩ ∧
      c.stationAt .fp 0 = some ⟨4, .fp⟩ ∧ c.machine.bus.carried = some 0 ∧
      c.machine.cursor = 6 ∧ c.trace.size = 8 := by
  have hfacts : ((Core.start smallMachine (Trace.ofList (sampleProgram ++ [unknownRecord]))).play
      disorderlyCalls).any (fun c =>
        c.queued = [5] ∧ c.unitAt .int 0 = some 0 ∧ c.stationAt .int 0 = some ⟨2, .int⟩ ∧
        c.stationAt .fp 0 = some ⟨4, .fp⟩ ∧ c.machine.bus.carried = some 0 ∧
        c.machine.cursor = 6 ∧ c.trace.size = 8) = true := by decide +kernel
  obtain ⟨c, hplay, hc⟩ := (Option.any_eq_true ..).1 hfacts
  have hplaced := reachable_placed (Trace.unscheduled_ofList _) (Trace.numbered_ofList _)
    (Core.Reachable.start.play hplay)
  exact ⟨c, hplay, hplaced, of_decide_eq_true hc⟩

end Tomasulo
