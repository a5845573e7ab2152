import Tomasulo.Proofs.Clock

/-!
# Proofs/Residency — the machine agrees with the schedule

Once complete has run, the rest of a cycle finds the machine where the schedule says it is: the bus
carries the record stamped in this cycle, and no store is kept that is done (`Core.Settled`).  Then
a record is in its station exactly from its issue until it is finished
(`Sound.isStationed_iff_unfinished`), so the taken stations and units of a pool can be counted in
the schedule.
-/

namespace Tomasulo

namespace Core

variable {config : Config} {program : Trace} {c c' : Core} {now : Nat}

/-- The bus and the stores are up to date with a cycle. -/
structure Settled (config : Config) (now : Nat) (c : Core) : Prop where
  bus : ∀ d, c.machine.bus.carried = some d ↔ c.trace.cycleAt .cdb d = some now
  store : ∀ {p s e f}, c.stationAt p s = some e → e.op = .store →
    c.trace.doneAt config.timing e.index = some f → now < f

theorem settled_start (config : Config) (hprogram : program.unscheduled = program) (now : Nat) :
    (start config program).Settled config now where
  bus d := by
    have hcycle : (start config program).trace.cycleAt .cdb d = none := by
      change program.cycleAt .cdb d = none
      rw [← hprogram]
      exact program.cycleAt_unscheduled .cdb d
    rw [hcycle]
    exact iff_of_false nofun nofun
  store {p s e f} hs := by simp [stationAt, start, Machine.idle] at hs

/-! ## Stores leave in time -/

/-- No store becomes overdue: one that starts now is done later. -/
theorem Sound.store_later (h : c.Sound config program) (hmoves : Moves now c c') {bound : Nat}
    (hle : bound ≤ now) (hstore : ∀ {p s e f}, c.stationAt p s = some e → e.op = .store →
      c.trace.doneAt config.timing e.index = some f → bound < f) {p : Pool} {s : Nat} {e : InFlight}
    {f : Nat} (hs : c'.stationAt p s = some e) (hop : e.op = .store)
    (hf : c'.trace.doneAt config.timing e.index = some f) : bound < f := by
  obtain ⟨q, n, hq, hn, rfl⟩ := Trace.doneAt_eq_some_iff.1 hf
  rcases h.cycleAt_moves hmoves .execute e.index with heq | ⟨-, hnow⟩
  · -- It has started before, so it was in its station before.
    rw [heq] at hn
    have hissue := h.started (Option.isSome_of_eq_some hn)
    have hst : c.IsStationed e.index :=
      h.isStationed_moves hmoves hissue ⟨p, s, e, hs, rfl⟩
    obtain ⟨p', s', e', hs', heq'⟩ := hst
    have hclass := ((h.moves hmoves).station_class hs).1
    have hop' : e'.op = .store := by
      rw [← heq', (h.station_class hs').1, hop] at hclass
      exact Option.some.inj hclass
    refine hstore hs' hop' (Trace.doneAt_eq_some_iff.2 ⟨q, n, ?_, ?_, rfl⟩)
    · rw [heq', h.poolAt_trace, ← (h.moves hmoves).poolAt_trace]
      exact hq
    · rw [heq']
      exact hn
  · obtain rfl := Option.some.inj (hnow.symm.trans hn)
    exact hle.trans_lt (config.lt_timing q _)

/-- What follows complete in its cycle keeps the core settled. -/
theorem Settled.later (hset : c.Settled config now) (h : c.Sound config program)
    (hmoves : Moves now c c') (hbus : c'.machine.bus = c.machine.bus)
    (hcdb : ∀ i, c'.trace.cycleAt .cdb i = c.trace.cycleAt .cdb i) : c'.Settled config now where
  bus d := by rw [hbus, hcdb, hset.bus]
  store := h.store_later hmoves (Nat.le_refl now) hset.store

/-! ## Where a record is -/

/-- **A record is in its station from its issue until it is finished.** -/
theorem Sound.isStationed_iff_unfinished (h : c.Sound config program) (ht : c.Timed config now)
    (hset : c.Settled config now) {i : Nat} (hi : (c.trace.cycleAt .issue i).isSome = true) :
    c.IsStationed i ↔ ∀ f, c.trace.finishAt config.timing i = some f → now < f := by
  rw [Trace.finishAt, h.publishes_trace]
  by_cases hpub : program.publishes i = true
  · rw [if_pos hpub, h.isStationed_of_publishes hpub]
    constructor
    · rintro ⟨-, hnone⟩ f hf
      rw [hnone] at hf
      cases hf
    · intro hall
      refine ⟨hi, Option.eq_none_iff_forall_ne_some.2 fun f hf => ?_⟩
      exact Nat.not_le.2 (hall f hf) (ht.cycle_le hf)
  · rw [if_neg hpub]
    constructor
    · rintro ⟨p, s, e, hs, rfl⟩ f hf
      obtain ⟨hclass, hpool⟩ := h.station_class hs
      have hop : e.op = .store := by
        rw [Trace.publishes, hclass] at hpub
        cases he : e.op <;> simp_all [OpClass.broadcasts, OpClass.pool]
      exact hset.store hs hop hf
    · intro hall
      by_contra hnot
      obtain ⟨f, hf, hle⟩ := ht.left hi hnot
      exact Nat.not_le.2 (hall f hf) hle

/-! ## How many stations and units are taken -/

/-- The taken stations of a pool hold as many records as there are in stations of the pool. -/
theorem Sound.length_stations (h : c.Sound config program) {p : Pool} {is : List Nat}
    (hnodup : is.Nodup) (hmem : ∀ i, i ∈ is ↔ c.IsStationed i ∧ program.poolAt i = some p) :
    (c.machine.stations p).occupied.length = is.length := by
  let indices := (c.machine.stations p).occupied.map (·.2.index)
  have hindices : indices.Nodup := by
    refine (c.machine.stations p).nodup_occupied.map_on ?_
    rintro ⟨s, e⟩ hs ⟨s', e'⟩ hs' heq
    rw [Slots.mem_occupied] at hs hs'
    obtain rfl := h.station_inj hs hs' heq
    obtain rfl := Option.some.inj (hs.symm.trans hs')
    rfl
  have hperm : indices.Perm is := by
    rw [List.perm_ext_iff_of_nodup hindices hnodup]
    intro i
    simp only [hmem, indices, List.mem_map, Prod.exists, Slots.mem_occupied]
    constructor
    · rintro ⟨s, e, hs, rfl⟩
      exact ⟨⟨p, s, e, hs, rfl⟩, h.poolAt_station hs⟩
    · rintro ⟨⟨q, s, e, hs, rfl⟩, hp⟩
      rw [h.poolAt_station hs] at hp
      obtain rfl := Option.some.inj hp
      exact ⟨s, e, hs, rfl⟩
  rw [← hperm.length_eq, List.length_map]

/-- The taken units of a pool run as many records as there are on units of the pool. -/
theorem Sound.length_units (h : c.Sound config program) {p : Pool} {is : List Nat}
    (hnodup : is.Nodup) (hmem : ∀ i, i ∈ is ↔ c.IsRunning i ∧ program.poolAt i = some p) :
    (c.machine.units p).running.occupied.length = is.length := by
  let indices := (c.machine.running p).map (·.record.index)
  have hindices : indices.Nodup := by
    have hrunning : (c.machine.running p).Nodup := by
      refine (c.pairwise_running p).imp ?_
      rintro r r' hlt rfl
      exact Nat.lt_irrefl _ hlt
    refine hrunning.map_on fun r hr r' hr' heq => ?_
    obtain ⟨q, u, s, e⟩ := r
    obtain ⟨q', u', s', e'⟩ := r'
    obtain ⟨hp, hu, hs⟩ := mem_running.1 hr
    obtain ⟨hp', hu', hs'⟩ := mem_running.1 hr'
    dsimp only at hp hp' hu hu' hs hs' heq
    subst hp hp'
    obtain rfl := h.station_inj hs hs' heq
    obtain rfl := h.unit_inj hu hu'
    obtain rfl := Option.some.inj (hs.symm.trans hs')
    rfl
  have hperm : indices.Perm is := by
    rw [List.perm_ext_iff_of_nodup hindices hnodup]
    intro i
    simp only [hmem, indices, List.mem_map, mem_running]
    constructor
    · rintro ⟨r, ⟨rfl, hr⟩, rfl⟩
      exact ⟨⟨r, hr, rfl⟩, h.poolAt_station hr.2⟩
    · rintro ⟨⟨r, hr, rfl⟩, hp⟩
      rw [h.poolAt_station hr.2] at hp
      exact ⟨r, ⟨Option.some.inj hp, hr⟩, rfl⟩
  have hlength : (c.machine.running p).length =
      (c.machine.units p).running.occupied.length := by
    rw [Machine.running, List.length_filterMap_eq_countP, List.countP_eq_length]
    rintro ⟨u, s⟩ hus
    obtain ⟨e, he, -⟩ := h.unit_station (Slots.mem_occupied.1 hus)
    rw [stationAt] at he
    simp [he]
  rw [← hperm.length_eq, List.length_map, hlength]

/-- **The idle units of a pool** are those that no running record takes. -/
theorem Sound.length_vacant (h : c.Sound config program) {p : Pool} {is : List Nat}
    (hnodup : is.Nodup) (hmem : ∀ i, i ∈ is ↔ c.IsRunning i ∧ program.poolAt i = some p) :
    (c.machine.units p).running.vacant.length = (config.pools p).units - is.length := by
  have hlength := (c.machine.units p).running.length_vacant_add_length_occupied
  rw [h.length_units hnodup hmem, h.fits.units] at hlength
  omega

end Core

end Tomasulo
