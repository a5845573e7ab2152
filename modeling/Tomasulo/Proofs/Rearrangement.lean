import Mathlib.Logic.Equiv.Fintype
import Tomasulo.Proofs.Calls
import Tomasulo.Proofs.Renumbering

/-!
# Proofs/Rearrangement — machines that differ in slot numbers only

Two machines are `Machine.Equivalent` when a permutation of the stations and one of the units of
each pool carry what the one holds to what the other holds.  The numbers of stations and units are
not part of what a core *is*: two coherent cores are equivalent as soon as they are `Core.Twins`,
that is, agree on the queue, the bus, the cursor, the stamps and on who is in a station
(`Twins.equivalent`, `twins_of_equivalent`).  Even their traces are equal then.
-/

namespace Tomasulo

/-! ## Permuted slots -/

namespace Slots

variable {α : Type} {s t : Slots α} {σ : Equiv.Perm Nat}

/-- A permutation of the slots carries the contents of one bank to those of another one. -/
structure Rearranged (σ : Equiv.Perm Nat) (s t : Slots α) : Prop where
  size : t.size = s.size
  lt : ∀ {i}, i < s.size → σ i < s.size
  get : ∀ i, t.get (σ i) = s.get i

/-- What a slot holds comes from the slot that is carried to it. -/
theorem Rearranged.get_eq (h : s.Rearranged σ t) (j : Nat) : t.get j = s.get (σ.symm j) := by
  rw [← h.get, σ.apply_symm_apply]

theorem get_map_eq_some_iff {s : Slots Nat} {i a : Nat} :
    (s.map σ).get i = some a ↔ s.get i = some (σ.symm a) := by
  rw [get_map, Option.map_eq_some_iff]
  constructor
  · rintro ⟨b, hb, rfl⟩
    rwa [σ.symm_apply_apply]
  · exact fun ha => ⟨_, ha, σ.apply_symm_apply a⟩

theorem Rearranged.refl (s : Slots α) : s.Rearranged (.refl Nat) s :=
  ⟨rfl, id, fun _ => rfl⟩

/-- The bank with the contents of two slots exchanged. -/
def exchanged (s : Slots α) (a b : Nat) : Slots α :=
  (s.put a (s.get b)).put b (s.get a)

theorem rearranged_exchanged (s : Slots α) {a b : Nat} (ha : a < s.size) (hb : b < s.size) :
    s.Rearranged (Equiv.swap a b) (s.exchanged a b) where
  size := by rw [exchanged, size_put, size_put]
  lt {i} hi := by
    rw [Equiv.swap_apply_def]
    split
    · exact hb
    · split
      · exact ha
      · exact hi
  get i := by
    rw [exchanged, get_put, get_put, size_put, Equiv.swap_apply_def]
    by_cases hia : i = a
    · simp [hia, hb]
    · by_cases hib : i = b
      · by_cases hab : b = a <;> simp [hib, hab, ha]
      · simp [hia, hib, Ne.symm hia, Ne.symm hib]

/-- **Banks that hold the same values, each of them once, are permutations of each other.** -/
theorem exists_rearranged (hsize : t.size = s.size)
    (hs : ∀ {i j a}, s.get i = some a → s.get j = some a → i = j)
    (ht : ∀ {i j a}, t.get i = some a → t.get j = some a → i = j)
    (hsame : ∀ a, (∃ i, s.get i = some a) ↔ ∃ j, t.get j = some a) :
    ∃ σ : Equiv.Perm Nat, s.Rearranged σ t := by
  have hexists (i : { i : Fin s.size // (s.get i).isSome = true }) :
      ∃ j : Fin s.size, t.get j = s.get i.1 := by
    obtain ⟨⟨i, -⟩, hi⟩ := i
    obtain ⟨a, ha⟩ := Option.isSome_iff_exists.1 hi
    obtain ⟨j, hj⟩ := (hsame a).1 ⟨i, ha⟩
    exact ⟨⟨j, hsize ▸ lt_size_of_get hj⟩, hj.trans ha.symm⟩
  choose g hg using hexists
  have hinjective : Function.Injective g := by
    intro i j hij
    obtain ⟨a, ha⟩ := Option.isSome_iff_exists.1 i.2
    have hj : s.get j.1 = some a := by rw [← hg j, ← hij, hg i, ha]
    exact Subtype.ext (Fin.ext (hs ha hj))
  obtain ⟨σ, hσ⟩ := Equiv.Perm.exists_extending_pair Subtype.val g Subtype.val_injective hinjective
  have hget (i : Fin s.size) : t.get (σ i) = s.get i := by
    cases hi : s.get i with
    | some a =>
      have heq := hσ ⟨i, Option.isSome_of_eq_some hi⟩
      rw [heq, hg, hi]
    | none =>
      refine Option.eq_none_iff_forall_ne_some.2 fun a ha => ?_
      obtain ⟨j, hj⟩ := (hsame a).2 ⟨_, ha⟩
      have hlt := lt_size_of_get hj
      have heq : σ ⟨j, hlt⟩ = g ⟨⟨j, hlt⟩, Option.isSome_of_eq_some hj⟩ := hσ ⟨⟨j, hlt⟩, _⟩
      have hj' : t.get (σ ⟨j, hlt⟩) = some a := by rw [heq, hg, hj]
      obtain rfl : i = ⟨j, hlt⟩ := σ.injective (Fin.ext (ht ha hj'))
      cases hi.symm.trans hj
  have happly {i : Nat} (hi : i < s.size) :
      σ.extendDomain Fin.equivSubtype i = σ ⟨i, hi⟩ :=
    σ.extendDomain_apply_subtype Fin.equivSubtype hi
  refine ⟨σ.extendDomain Fin.equivSubtype, hsize, fun hi => ?_, fun i => ?_⟩
  · rw [happly hi]
    exact (σ ⟨_, hi⟩).2
  · by_cases hi : i < s.size
    · rw [happly hi, hget]
    · rw [σ.extendDomain_apply_not_subtype Fin.equivSubtype hi,
        get_eq_none_of_size_le (Nat.le_of_not_lt hi),
        get_eq_none_of_size_le (hsize ▸ Nat.le_of_not_lt hi)]

end Slots

namespace Machine

variable {σ τ : Pool → Equiv.Perm Nat} {m n : Machine}

/-- For each pool a permutation `σ` of the stations and one `τ` of the units carry the stations of
one machine to those of another, and its units to units that point to the renamed stations.
Everything else is equal. -/
structure Rearranged (σ τ : Pool → Equiv.Perm Nat) (m n : Machine) : Prop where
  queue : n.queue = m.queue
  registers : n.registers = m.registers
  bus : n.bus = m.bus
  cursor : n.cursor = m.cursor
  stations : ∀ p, (m.stations p).Rearranged (σ p) (n.stations p)
  units : ∀ p, ((m.units p).running.map (σ p)).Rearranged (τ p) (n.units p).running
  latency : ∀ p, (n.units p).latency = (m.units p).latency

/-- **The machines differ in the numbers of their slots only.** -/
def Equivalent (m n : Machine) : Prop :=
  ∃ σ τ, m.Rearranged σ τ n

/-- The machine with two stations and two units of a pool exchanged. -/
def exchanged (m : Machine) (p : Pool) (a b u v : Nat) : Machine :=
  let units := m.units p
  { m with
    stations := m.stations.set p ((m.stations p).exchanged a b)
    units := m.units.set p
      { units with running := (units.running.map (Equiv.swap a b)).exchanged u v } }

/-- **An exchange changes the numbers of slots only.** -/
theorem equivalent_exchanged (m : Machine) {p : Pool} {a b u v : Nat}
    (ha : a < (m.stations p).size) (hb : b < (m.stations p).size)
    (hu : u < (m.units p).running.size) (hv : v < (m.units p).running.size) :
    m.Equivalent (m.exchanged p a b u v) := by
  refine ⟨Function.update (fun _ => .refl Nat) p (Equiv.swap a b),
    Function.update (fun _ => .refl Nat) p (Equiv.swap u v), rfl, rfl, rfl, rfl, fun q => ?_,
    fun q => ?_, fun q => ?_⟩
  · by_cases hq : q = p
    · subst hq
      simpa [exchanged] using Slots.rearranged_exchanged _ ha hb
    · simpa [exchanged, hq] using Slots.Rearranged.refl _
  · by_cases hq : q = p
    · subst hq
      rw [← Slots.size_map (Equiv.swap a b)] at hu hv
      simpa [exchanged] using Slots.rearranged_exchanged _ hu hv
    · have hsame : (m.units q).running.map id = (m.units q).running :=
        Slots.ext_get (Slots.size_map ..) fun i => by simp
      simpa [exchanged, hq, hsame] using Slots.Rearranged.refl _
  · by_cases hq : q = p
    · subst hq
      simp [exchanged]
    · simp [exchanged, hq]

end Machine

namespace Core

variable {config : Config} {program : Trace} {c d : Core} {σ τ : Pool → Equiv.Perm Nat}

/-! ## Cores that look alike -/

/-- **Twins** are coherent cores that agree on all that has no slot number: what has been fetched,
what is on the bus, the stamps, and who is in a station. -/
structure Twins (config : Config) (program : Trace) (c d : Core) : Prop where
  sound₁ : c.Sound config program
  sound₂ : d.Sound config program
  renamed₁ : c.Renamed program
  renamed₂ : d.Renamed program
  queued : d.queued = c.queued
  cursor : d.machine.cursor = c.machine.cursor
  bus : d.machine.bus = c.machine.bus
  cycleAt : ∀ stage i, d.trace.cycleAt stage i = c.trace.cycleAt stage i
  stationed : ∀ i, d.IsStationed i ↔ c.IsStationed i

/-- The entries of the queue are determined by their indices. -/
theorem Sound.entries_eq (h : c.Sound config program) : c.machine.queue.entries =
    c.queued.filterMap fun i => (program.classAt i).map (InFlight.mk i) := by
  have hentry : ∀ e ∈ c.machine.queue.entries,
      ((program.classAt e.index).map (InFlight.mk e.index)) = some e := by
    intro e he
    rw [h.queue_class e he]
    rfl
  rw [queued, List.filterMap_map]
  exact ((List.filterMap_congr hentry).trans List.filterMap_some).symm

/-- The record of a station is known by its index. -/
theorem Sound.exists_stationAt_iff (h : c.Sound config program) {p : Pool} {e : InFlight} :
    (∃ s, c.stationAt p s = some e) ↔
      c.IsStationed e.index ∧ program.classAt e.index = some e.op ∧ e.op.pool = some p := by
  constructor
  · rintro ⟨s, hs⟩
    exact ⟨⟨p, s, e, hs, rfl⟩, h.station_class hs⟩
  · rintro ⟨⟨q, s, f, hs, hindex⟩, hclass, hpool⟩
    obtain ⟨hclass', hpool'⟩ := h.station_class hs
    rw [hindex, hclass] at hclass'
    have hop : e.op = f.op := Option.some.inj hclass'
    rw [← hop, hpool] at hpool'
    obtain rfl := Option.some.inj hpool'
    refine ⟨s, hs.trans (congrArg some ?_)⟩
    cases e
    cases f
    cases hindex
    cases hop
    rfl

/-- The units point to the stations whose records have started. -/
theorem Sound.exists_unitAt_iff (h : c.Sound config program) {p : Pool} {s : Nat} :
    (∃ u, c.unitAt p u = some s) ↔
      ∃ e, c.stationAt p s = some e ∧ (c.trace.cycleAt .execute e.index).isSome = true :=
  ⟨fun ⟨_, hu⟩ => h.unit_station hu, fun ⟨_, hs, hexecute⟩ => h.running hs hexecute⟩

/-- The register map is its view. -/
theorem Sound.registers_eq (h₁ : c.Sound config program) (h₂ : d.Sound config program)
    (hwriter : ∀ register, d.machine.registers.writer register =
      c.machine.registers.writer register) : d.machine.registers = c.machine.registers :=
  Slots.ext_get (h₂.fits.registers.trans h₁.fits.registers.symm) hwriter

namespace Twins

variable (h : Twins config program c d)

include h

theorem isIssued : d.IsIssued = c.IsIssued := by
  funext i
  rw [IsIssued, h.cycleAt, IsIssued]

theorem isRetired (i : Nat) : d.IsRetired i ↔ c.IsRetired i := by
  rw [IsRetired, h.cycleAt, h.bus, IsRetired]

theorem queue_eq : d.machine.queue = c.machine.queue := by
  have hentries : d.machine.queue.entries = c.machine.queue.entries := by
    rw [h.sound₂.entries_eq, h.queued, h.sound₁.entries_eq]
  have hcapacity : d.machine.queue.capacity = c.machine.queue.capacity :=
    h.sound₂.fits.queue.trans h.sound₁.fits.queue.symm
  cases hd : d.machine.queue
  cases hc : c.machine.queue
  rw [hd, hc] at hentries hcapacity
  obtain rfl := hentries
  obtain rfl := hcapacity
  rfl

/-- Renaming is exact, so the register maps are equal. -/
theorem registers_eq : d.machine.registers = c.machine.registers := by
  refine h.sound₁.registers_eq h.sound₂ fun register => Option.ext fun w => ?_
  rw [h.renamed₂.writer, h.renamed₁.writer, h.isIssued, h.isRetired]

theorem producerAt (i slot : Nat) : d.trace.producerAt i slot = c.trace.producerAt i slot := by
  by_cases hst : c.IsStationed i
  · refine Option.ext fun w => ?_
    rw [h.renamed₂.producer ((h.stationed i).2 hst), h.renamed₁.producer hst, h.isRetired]
  · rw [h.renamed₂.elsewhere (mt (h.stationed i).1 hst), h.renamed₁.elsewhere hst]

/-- **The traces of twins are equal**, the producers included. -/
theorem trace_eq : d.trace = c.trace :=
  Trace.ext_columns (h.sound₂.frame.trans h.sound₁.frame.symm) h.cycleAt h.producerAt

/-- **Twins differ in the numbers of their slots only.** -/
theorem equivalent : c.machine.Equivalent d.machine := by
  have hstations (p : Pool) :
      ∃ σ : Equiv.Perm Nat, (c.machine.stations p).Rearranged σ (d.machine.stations p) := by
    refine Slots.exists_rearranged
      ((h.sound₂.fits.stations p).trans (h.sound₁.fits.stations p).symm)
      (fun hs hs' => h.sound₁.station_inj hs hs' rfl)
      (fun hs hs' => h.sound₂.station_inj hs hs' rfl) fun e => ?_
    have hiff := h.sound₂.exists_stationAt_iff (p := p) (e := e)
    rw [h.stationed] at hiff
    exact h.sound₁.exists_stationAt_iff.trans hiff.symm
  choose σ hσ using hstations
  have hunits (p : Pool) : ∃ τ : Equiv.Perm Nat,
      ((c.machine.units p).running.map (σ p)).Rearranged τ (d.machine.units p).running := by
    refine Slots.exists_rearranged ?_ (fun {u u' s} hu hu' => ?_)
      (fun hu hu' => h.sound₂.unit_inj hu hu') fun s => ?_
    · rw [h.sound₂.fits.units, Slots.size_map, h.sound₁.fits.units]
    · rw [Slots.get_map_eq_some_iff] at hu hu'
      exact h.sound₁.unit_inj hu hu'
    · simp only [Slots.get_map_eq_some_iff]
      refine h.sound₁.exists_unitAt_iff.trans (Iff.trans ?_ h.sound₂.exists_unitAt_iff.symm)
      simp only [h.cycleAt, stationAt, (hσ p).get_eq]
  choose τ hτ using hunits
  exact ⟨σ, τ, h.queue_eq, h.registers_eq, h.bus, h.cursor, hσ, hτ, fun p =>
    (h.sound₂.fits.latency p).trans (h.sound₁.fits.latency p).symm⟩

end Twins

/-! ## Cores with equivalent machines -/

section Rearranged

variable (hr : c.machine.Rearranged σ τ d.machine)

include hr

theorem stationAt_rearranged (p : Pool) (s : Nat) :
    d.stationAt p s = c.stationAt p ((σ p).symm s) :=
  (hr.stations p).get_eq s

theorem unitAt_rearranged {p : Pool} {u s : Nat} :
    d.unitAt p u = some s ↔ c.unitAt p ((τ p).symm u) = some ((σ p).symm s) := by
  rw [unitAt, (hr.units p).get_eq, Slots.get_map_eq_some_iff]
  rfl

theorem isStationed_rearranged (i : Nat) : d.IsStationed i ↔ c.IsStationed i := by
  constructor
  · rintro ⟨p, s, e, hs, rfl⟩
    rw [stationAt_rearranged hr] at hs
    exact ⟨p, _, e, hs, rfl⟩
  · rintro ⟨p, s, e, hs, rfl⟩
    refine ⟨p, σ p s, e, ?_, rfl⟩
    rw [stationAt_rearranged hr, (σ p).symm_apply_apply]
    exact hs

theorem fits_rearranged (h : c.machine.Fits config) : d.machine.Fits config where
  registers := hr.registers ▸ h.registers
  queue := hr.queue ▸ h.queue
  stations p := (hr.stations p).size.trans (h.stations p)
  units p := by rw [(hr.units p).size, Slots.size_map, h.units]
  latency p := (hr.latency p).trans (h.latency p)

variable (htrace : d.trace = c.trace)

include htrace

/-- **Soundness does not look at the numbers of slots.** -/
theorem Sound.rearranged (h : c.Sound config program) : d.Sound config program where
  toFrontSound := h.toFrontSound.congr (fits_rearranged hr h.fits) (htrace ▸ h.frame) hr.queue
    hr.cursor (fun i => by rw [htrace]) fun i => by rw [htrace]
  toBackSound := by
    have hstation := stationAt_rearranged hr
    have hunit {p : Pool} {u s : Nat} := unitAt_rearranged hr (p := p) (u := u) (s := s)
    have hstationed := isStationed_rearranged hr
    constructor
    case station_class =>
      intro p s e hs
      exact h.station_class (hstation p s ▸ hs)
    case station_stamps =>
      intro p s e hs
      rw [htrace]
      exact h.station_stamps (hstation p s ▸ hs)
    case station_inj =>
      intro p s s' e e' hs hs' heq
      rw [hstation] at hs hs'
      exact (σ p).symm.injective (h.station_inj hs hs' heq)
    case unit_station =>
      intro p u s hu
      rw [hstation, htrace]
      exact h.unit_station (hunit.1 hu)
    case unit_inj =>
      intro p u u' s hu hu'
      exact (τ p).symm.injective (h.unit_inj (hunit.1 hu) (hunit.1 hu'))
    case running =>
      intro p s e hs hexecute
      rw [hstation] at hs
      rw [htrace] at hexecute
      obtain ⟨u, hu⟩ := h.running hs hexecute
      refine ⟨τ p u, hunit.2 ?_⟩
      rwa [(τ p).symm_apply_apply]
    case started =>
      rw [htrace]
      exact h.started
    case broadcast =>
      rw [htrace]
      exact h.broadcast
    case left =>
      intro i
      rw [htrace, hstationed]
      exact h.left
    case bus =>
      rw [htrace, hr.bus]
      exact h.bus

theorem Renamed.rearranged (h : c.Renamed program) : d.Renamed program := by
  have hretired (i : Nat) : d.IsRetired i ↔ c.IsRetired i := by
    rw [IsRetired, htrace, hr.bus, IsRetired]
  have hissued : d.IsIssued = c.IsIssued := by
    funext i
    rw [IsIssued, htrace, IsIssued]
  have hstationed := isStationed_rearranged hr
  constructor
  case writer =>
    intro register w
    rw [hr.registers, hissued, hretired]
    exact h.writer
  case producer =>
    intro i hi slot w
    rw [htrace, hretired]
    exact h.producer ((hstationed i).1 hi)
  case elsewhere =>
    intro i hi
    rw [htrace]
    exact h.elsewhere (mt (hstationed i).2 hi)
  case started =>
    rw [htrace]
    exact h.started

end Rearranged

/-- **A core with an equivalent machine is a twin.** -/
theorem twins_of_equivalent (hsound : c.Sound config program) (hrenamed : c.Renamed program)
    (hmachine : c.machine.Equivalent d.machine) (htrace : d.trace = c.trace) :
    Twins config program c d := by
  obtain ⟨σ, τ, hr⟩ := hmachine
  exact {
    sound₁ := hsound
    sound₂ := hsound.rearranged hr htrace
    renamed₁ := hrenamed
    renamed₂ := hrenamed.rearranged hr htrace
    queued := by rw [queued, hr.queue, queued]
    cursor := hr.cursor
    bus := hr.bus
    cycleAt := fun stage i => by rw [htrace]
    stationed := isStationed_rearranged hr }

end Core

end Tomasulo
