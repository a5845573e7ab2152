import Mathlib.Data.List.Basic
import Mathlib.Order.Monotone.Basic
import Tomasulo.Cycle
import Tomasulo.Proofs.Columns

/-!
# Proofs/Renumbering — one machine's records under other indices

The machine never asks what the index of a record is.  It compares indices with each other and looks
records up by them, so if the records of a core are renumbered by an ascending `φ` it does the same
things again.  `Machine.Copies` and `Core.Copies` say that a core holds what another one holds,
under the indices that `φ` gives; its trace may have more records, at positions that are no `φ j`.
-/

namespace Tomasulo

/-! ## The parts of a machine -/

namespace Slots

variable {α β : Type} (f : α → β) (s : Slots α)

/-- The bank with every content replaced. -/
def map : Slots β :=
  ⟨s.cells.map (Option.map f)⟩

@[simp] theorem size_map : (s.map f).size = s.size := by
  simp [map, size]

@[simp] theorem get_map (i : Nat) : (s.map f).get i = (s.get i).map f := by
  simp only [map, get, Array.getElem?_map]
  rcases s.cells[i]? with _ | _ | a <;> rfl

theorem map_empty (n : Nat) : (empty n : Slots α).map f = empty n :=
  ext_get (by simp) fun i => by simp

/-- Contents can be changed before or after they are put. -/
theorem map_put (i : Nat) (content : Option α) :
    (s.put i content).map f = (s.map f).put i (content.map f) := by
  refine ext_get (by simp) fun j => ?_
  simp only [get_map, get_put, size_map, apply_ite (Option.map f)]

/-- What a written bank holds was written or has been there. -/
theorem eq_or_get_of_put {s : Slots α} {i j : Nat} {content : Option α} {a : α}
    (h : (s.put i content).get j = some a) : content = some a ∨ s.get j = some a := by
  rw [get_put] at h
  split at h
  · exact .inl h
  · exact .inr h

@[simp] theorem occupied_map : (s.map f).occupied = s.occupied.map fun x => (x.1, f x.2) := by
  simp only [occupied, size_map, get_map, List.map_filterMap, Option.map_map]
  rfl

@[simp] theorem vacant_map : (s.map f).vacant = s.vacant := by
  simp [vacant]

@[simp] theorem isClear_map : (s.map f).isClear = s.isClear := by
  rw [Bool.eq_iff_iff, isClear_iff, isClear_iff]
  simp

@[simp] theorem reach_map (i : Nat) : (s.map f).reach i = s.reach i := by
  simp [reach]

end Slots

variable (φ : Nat → Nat)

/-- A record inside the machine under its new index. -/
def InFlight.renumber (e : InFlight) : InFlight :=
  { e with index := φ e.index }

/-- A record on a unit under its new index. -/
def Running.renumber (r : Running) : Running :=
  { r with record := r.record.renumber φ }

/-- A queue whose records have new indices. -/
def FetchQueue.renumber (q : FetchQueue) : FetchQueue :=
  { q with entries := q.entries.map (·.renumber φ) }

/-- A bus whose result has a new index. -/
def ResultBus.renumber (b : ResultBus) : ResultBus :=
  ⟨b.carried.map φ⟩

/-- A record that goes, and waits for others, under new indices. -/
def Record.renumber (r : Record) : Record :=
  { r with index := φ r.index, producers := r.producers.map (Option.map φ) }

/-- A rejection of the record that has a new index. -/
def Rejection.renumber : Rejection → Rejection
  | .unknownClass index op => .unknownClass (φ index) op
  | .registerOutOfRange index register limit => .registerOutOfRange (φ index) register limit

/-! ## What they are asked -/

/-- What succeeds has succeeded in both halves. -/
theorem bind_eq_ok {ε α β : Type} {x : Except ε α} {f : α → Except ε β} {b : β} :
    x >>= f = .ok b ↔ ∃ a, x = .ok a ∧ f a = .ok b := by
  cases x with
  | error e => simp [bind, Except.bind]
  | ok a => simp [bind, Except.bind]

section Parts

variable {φ}

/-- A queue is full whatever its records are called. -/
@[simp] theorem FetchQueue.isFull_renumber (q : FetchQueue) :
    (q.renumber φ).isFull = q.isFull := by
  simp [isFull, renumber]

/-- The front of a queue is renumbered with it. -/
theorem FetchQueue.front_renumber (q : FetchQueue) :
    (q.renumber φ).front = q.front.map (·.renumber φ) := by
  simp [front, renumber]

theorem FetchQueue.pop_renumber (q : FetchQueue) : (q.renumber φ).pop = q.pop.renumber φ := by
  simp [pop, renumber]

/-- Records are placed in the same slots under other numbers. -/
theorem Stations.place_renumber (s : Stations) (e : InFlight) :
    Stations.place (Slots.map (·.renumber φ) s) (e.renumber φ) =
      (s.place e).map fun x => (x.1, Slots.map (·.renumber φ) x.2) := by
  simp only [place, Slots.vacant_map, Option.map_map]
  congr 1
  funext slot
  exact congrArg (slot, ·) (Slots.map_put (InFlight.renumber φ) s slot (some e)).symm

/-- A station that has been vacated held the record. -/
theorem Stations.vacate_eq_ok_iff {s s' : Stations} {slot : Nat} {e : InFlight} :
    s.vacate slot = .ok (e, s') ↔ s.get slot = some e ∧ s' = s.put slot none := by
  constructor
  · intro h
    obtain ⟨_, -, h⟩ := bind_eq_ok.1 h
    cases hget : s.get slot with
    | none => rw [hget] at h; cases h
    | some f => rw [hget] at h; cases h; exact ⟨rfl, rfl⟩
  · rintro ⟨hget, rfl⟩
    refine bind_eq_ok.2 ⟨(), Slots.reach_eq_ok (Slots.lt_size_of_get hget), ?_⟩
    rw [hget]
    rfl

/-- What leaves a station is renumbered with it. -/
theorem Stations.vacate_renumber {s s' : Stations} {slot : Nat} {e : InFlight}
    (h : s.vacate slot = .ok (e, s')) :
    Stations.vacate (Slots.map (·.renumber φ) s) slot =
      .ok (e.renumber φ, Slots.map (·.renumber φ) s') := by
  obtain ⟨hget, rfl⟩ := vacate_eq_ok_iff.1 h
  exact vacate_eq_ok_iff.2 ⟨by simp [hget], Slots.map_put ..⟩

/-- Placing a record adds it, vacating a station adds nothing. -/
theorem Stations.get_of_place {s s' : Stations} {e f : InFlight} {slot x : Nat}
    (h : s.place e = some (slot, s')) (hf : s'.get x = some f) : f = e ∨ s.get x = some f := by
  obtain ⟨_, -, heq⟩ := Option.map_eq_some_iff.1 h
  cases heq
  exact (Slots.eq_or_get_of_put hf).imp_left fun he => (Option.some.inj he).symm

/-- A station that is vacated puts nothing into another. -/
theorem Stations.get_of_vacate {s s' : Stations} {e f : InFlight} {slot x : Nat}
    (h : s.vacate slot = .ok (e, s')) (hf : s'.get x = some f) : s.get x = some f := by
  obtain ⟨-, rfl⟩ := vacate_eq_ok_iff.1 h
  exact (Slots.eq_or_get_of_put hf).resolve_left nofun

/-- The bus takes a result under another number. -/
theorem ResultBus.broadcast_renumber {b b' : ResultBus} {index : Nat}
    (h : b.broadcast index = .ok b') :
    (b.renumber φ).broadcast (φ index) = .ok (b'.renumber φ) := by
  obtain ⟨_ | old⟩ := b
  · cases h
    rfl
  · cases h

theorem RegisterMap.reach_map (m : RegisterMap) : (Slots.map φ m).reach = m.reach :=
  funext (Slots.reach_map φ m)

/-- Sources are found under other numbers. -/
theorem RegisterMap.sources_renumber {m : RegisterMap} {inputs producers : Operands maxInputs}
    (h : m.sources inputs = .ok producers) :
    RegisterMap.sources (Slots.map φ m) inputs = .ok (producers.map (Option.map φ)) := by
  obtain ⟨_, hreach, h⟩ := bind_eq_ok.1 h
  obtain rfl := Except.ok.inj h
  refine bind_eq_ok.2 ⟨(), m.reach_map ▸ hreach, congrArg Except.ok ?_⟩
  rw [Vector.map_map]
  congr 1
  funext source
  cases source <;> simp [writer]

/-- Registers are claimed under other numbers. -/
theorem RegisterMap.claim_renumber {m m' : RegisterMap} {outputs : Operands maxOutputs}
    {index : Nat} (h : m.claim outputs index = .ok m') :
    RegisterMap.claim (Slots.map φ m) outputs (φ index) = .ok (Slots.map φ m') := by
  obtain ⟨_, hreach, h⟩ := bind_eq_ok.1 h
  obtain rfl := Except.ok.inj h
  refine bind_eq_ok.2 ⟨(), m.reach_map ▸ hreach, congrArg Except.ok ?_⟩
  exact List.foldl_hom (Slots.map φ) fun m register =>
    (Slots.map_put φ m register (some index)).symm

/-- A register is forgotten under another number, if numbers stay apart. -/
theorem RegisterMap.forget_renumber (hφ : φ.Injective) {m m' : RegisterMap}
    {done register : Nat} (h : m.forget done register = .ok m') :
    RegisterMap.forget (Slots.map φ m) (φ done) register = .ok (Slots.map φ m') := by
  have hwriter : writer (Slots.map φ m) register = some (φ done) ↔
      writer m register = some done := by
    simp [writer, hφ.eq_iff]
  obtain ⟨_, hreach, h⟩ := bind_eq_ok.1 h
  obtain rfl := Except.ok.inj h
  refine bind_eq_ok.2 ⟨(), m.reach_map ▸ hreach, congrArg Except.ok ?_⟩
  by_cases hdone : writer m register = some done
  · rw [if_pos hdone, if_pos (hwriter.2 hdone), Slots.map_put]
    rfl
  · rw [if_neg hdone, if_neg (hdone ∘ hwriter.1)]

/-! ## The records of a trace -/

/-- A record waits whatever its producers are called. -/
@[simp] theorem Record.isWaiting_renumber (r : Record) :
    (r.renumber φ).isWaiting = r.isWaiting := by
  simp [isWaiting, renumber, Vector.any_map]

/-- A slot is resolved under another number, if numbers stay apart. -/
theorem Record.resolve_renumber (hφ : φ.Injective) (done : Nat) (r : Record) :
    (r.renumber φ).resolve (φ done) = (r.resolve done).renumber φ := by
  simp only [resolve, renumber, Vector.map_map]
  congr 2
  funext producer
  cases producer with
  | none => simp
  | some w => by_cases hw : w = done <;> simp [hw, hφ.eq_iff]

/-- A stamp does not depend on numbers. -/
theorem Record.stamp_renumber {stage : Stage} {now : Nat} {r r' : Record}
    (h : r.stamp stage now = .ok r') : (r.renumber φ).stamp stage now = .ok (r'.renumber φ) := by
  obtain ⟨stamps, hstamps, h⟩ := bind_eq_ok.1 h
  obtain rfl := Except.ok.inj h
  exact bind_eq_ok.2 ⟨stamps, hstamps, rfl⟩

/-- **The check does not mind the index**: what it accepts it accepts under any. -/
theorem Record.check_renumber (r : Record) (registers : Nat) :
    (r.renumber φ).check registers = (r.check registers).mapError (·.renumber φ) := by
  have hclass : (r.renumber φ).class? = r.class? := rfl
  have hregisters : (r.renumber φ).writes ++ (r.renumber φ).reads = r.writes ++ r.reads := rfl
  unfold check
  rw [hclass, hregisters]
  cases r.class? with
  | none => rfl
  | some op => cases (r.writes ++ r.reads).find? (registers ≤ ·) <;> cases op <;> rfl

end Parts

/-! ## Indices that stay

What is renumbered by the identity is as it was. -/

section Id

theorem Slots.map_id {α : Type} (s : Slots α) : s.map id = s :=
  ext_get (by simp) fun i => by simp

theorem FetchQueue.renumber_id (q : FetchQueue) : q.renumber id = q :=
  congrArg (fun entries => { q with entries }) (List.map_id _)

theorem ResultBus.renumber_id (b : ResultBus) : b.renumber id = b :=
  congrArg ResultBus.mk Option.map_id_apply

theorem Record.renumber_id (r : Record) : r.renumber id = r := by
  simp [renumber]

end Id

/-! ## Machines and cores -/

section Copies

variable (bound : Nat)

/-- **A machine holds what another one holds**, under other indices.  The cursor has passed the
same records.  What waits in the original is below `bound`. -/
structure Machine.Copies (m n : Machine) : Prop where
  queue : m.queue = n.queue.renumber φ
  registers : m.registers = Slots.map φ n.registers
  stations : ∀ p, m.stations p = Slots.map (·.renumber φ) (n.stations p)
  units : ∀ p, m.units p = n.units p
  bus : m.bus = n.bus.renumber φ
  cursor : ∀ j, φ j < m.cursor ↔ j < n.cursor
  queue_lt : ∀ e ∈ n.queue.entries, e.index < bound
  station_lt : ∀ {p s e}, (n.stations p).get s = some e → e.index < bound

/-- **A core holds what another one holds**, under other indices.  The original has `bound` records.
-/
structure Core.Copies (c d : Core) : Prop where
  machine : c.machine.Copies φ bound d.machine
  size : d.trace.size = bound
  record : ∀ {j r}, d.trace[j]? = some r → c.trace[φ j]? = some (r.renumber φ)

end Copies

variable {φ} {bound : Nat}

/-- The element of least index is moved along by a function that renumbers indices. -/
theorem minOn?_map (hφ : StrictMono φ) {α β : Type} (f : α → β) (key : α → Nat) {key' : β → Nat}
    (hkey : ∀ a, key' (f a) = φ (key a)) (xs : List α) :
    (xs.map f).minOn? key' = (xs.minOn? key).map f := by
  cases xs with
  | nil => rfl
  | cons a as =>
    simp only [List.map_cons, List.minOn?, List.foldl_map, Option.map_some]
    refine congrArg some (List.foldl_hom f fun a b => ?_)
    simp only [minOn, hkey, hφ.le_iff_le, apply_ite f]

namespace Machine

variable {m n : Machine}

/-- Copies run the same records on the same units. -/
theorem Copies.running (h : m.Copies φ bound n) (p : Pool) :
    m.running p = (n.running p).map (·.renumber φ) := by
  simp only [Machine.running, h.units, h.stations, Slots.get_map, List.map_filterMap,
    Option.map_map]
  rfl

/-- Copies hold the same records in their stations. -/
theorem Copies.stationed (h : m.Copies φ bound n) :
    m.stationed = n.stationed.map (·.renumber φ) := by
  simp only [Machine.stationed, h.stations, Slots.occupied_map, List.map_flatMap, List.map_map]
  rfl

/-- Copies are empty together. -/
theorem Copies.isEmpty (h : m.Copies φ bound n) : m.isEmpty = n.isEmpty := by
  simp [Machine.isEmpty, h.queue, h.bus, h.stations, h.units, FetchQueue.renumber,
    ResultBus.renumber]

section Set

variable {m' n' : Machine} (h : m.Copies φ bound n) (h' : m'.Copies φ bound n') (p : Pool)

include h h'

/-- Units that have been read off the two machines are changed alike and written back. -/
theorem Copies.set_units (units : Units) :
    Copies φ bound { m' with units := m.units.set p units }
      { n' with units := n.units.set p units } := by
  refine { h' with units := fun q => ?_ }
  rw [ByPool.get_set, ByPool.get_set, h.units]

/-- The same for stations. -/
theorem Copies.set_stations {stations : Stations}
    (hlt : ∀ {x e}, stations.get x = some e → e.index < bound) :
    Copies φ bound { m' with stations := m.stations.set p (Slots.map (·.renumber φ) stations) }
      { n' with stations := n.stations.set p stations } := by
  refine { h' with stations := fun q => ?_, station_lt := fun {q x e} he => ?_ }
  · rw [ByPool.get_set, ByPool.get_set, apply_ite (Slots.map _), h.stations]
  · rw [ByPool.get_set] at he
    split at he
    · exact hlt he
    · exact h.station_lt he

end Set

/-- A copy under the same indices is equal. -/
theorem Copies.eq (h : m.Copies id bound n) : m = n := by
  have hcursor : m.cursor = n.cursor := by
    have hm := h.cursor m.cursor
    have hn := h.cursor n.cursor
    simp only [id] at hm hn
    omega
  have hstations : m.stations = n.stations :=
    ByPool.ext_get fun p => (h.stations p).trans (Slots.map_id _)
  have hunits : m.units = n.units := ByPool.ext_get h.units
  have hqueue := h.queue.trans n.queue.renumber_id
  have hregisters := h.registers.trans n.registers.map_id
  have hbus := h.bus.trans n.bus.renumber_id
  obtain ⟨_, _, _, _, _, _⟩ := m
  obtain ⟨_, _, _, _, _, _⟩ := n
  simp_all

/-- Idle machines are copies of each other. -/
theorem copies_idle (config : Config) (φ : Nat → Nat) (bound : Nat) :
    (idle config).Copies φ bound (idle config) where
  queue := rfl
  registers := (Slots.map_empty φ config.registers).symm
  stations p := by simp [idle, Slots.map_empty]
  units _ := rfl
  bus := rfl
  cursor j := by simp [idle]
  queue_lt := by simp [idle, FetchQueue.empty]
  station_lt := by simp [idle]

end Machine

namespace Core

variable {c d : Core}

/-- What corresponding changes of corresponding records leave. -/
theorem Copies.modify (h : c.Copies φ bound d) (hφ : φ.Injective) {f g : Record → Record}
    (hf : ∀ r, f (r.renumber φ) = (g r).renumber φ) (j : Nat) :
    Copies φ bound { c with trace := c.trace.modify (φ j) f }
      { d with trace := d.trace.modify j g } := by
  refine ⟨h.machine, (Trace.size_modify ..).trans h.size, fun {k r} hr => ?_⟩
  rw [Trace.getElem?_modify] at hr ⊢
  by_cases hk : j = k
  · subst hk
    rw [if_pos rfl, Option.map_eq_some_iff] at hr
    obtain ⟨s, hs, rfl⟩ := hr
    rw [if_pos rfl, h.record hs, Option.map_some, hf]
  · rw [if_neg hk] at hr
    rw [if_neg fun heq => hk (hφ heq), h.record hr]

/-- What runs does so for its station. -/
theorem mem_running_station {p : Pool} {r : Running} (hr : r ∈ d.machine.running p) :
    r.pool = p ∧ (d.machine.stations p).get r.station = some r.record := by
  simp only [Machine.running, List.mem_filterMap, Option.map_eq_some_iff] at hr
  obtain ⟨⟨u, s⟩, -, e, hs, rfl⟩ := hr
  exact ⟨rfl, hs⟩

/-- A record of the original has its copy. -/
theorem Copies.getElem? (h : c.Copies φ bound d) {j : Nat} (hj : j < bound) :
    ∃ r, d.trace[j]? = some r ∧ c.trace[φ j]? = some (r.renumber φ) := by
  obtain ⟨r, hr⟩ := Trace.exists_getElem? (h.size.symm ▸ hj)
  exact ⟨r, hr, h.record hr⟩

/-- A record and its copy finish together. -/
theorem Copies.hasFinished (h : c.Copies φ bound d) (now : Nat) {p : Pool} {r : Running}
    (hr : r ∈ d.machine.running p) : c.hasFinished now (r.renumber φ) = d.hasFinished now r := by
  obtain ⟨rfl, hs⟩ := mem_running_station hr
  obtain ⟨s, hd, hc⟩ := h.getElem? (h.machine.station_lt hs)
  have hindex : (r.renumber φ).record.index = φ r.record.index := rfl
  have hpool : (r.renumber φ).pool = r.pool := rfl
  rw [Core.hasFinished, Core.hasFinished, hindex, hc, hd, hpool, h.machine.units]
  rfl

/-- Copies of the finished stores are the stores that have finished. -/
theorem Copies.finishedStores (h : c.Copies φ bound d) (now : Nat) (p : Pool) :
    c.finishedStores now p = (d.finishedStores now p).map (·.renumber φ) := by
  rw [Core.finishedStores, Core.finishedStores, h.machine.running, List.filter_map]
  congr 1
  exact List.filter_congr fun r hr => congrArg (r.record.op == .store && ·) (h.hasFinished now hr)

/-- The bus goes to the copy of the record that it goes to. -/
theorem Copies.winner? (h : c.Copies φ bound d) (hφ : StrictMono φ) (now : Nat) :
    c.winner? now = (d.winner? now).map (·.renumber φ) := by
  have hcontenders : c.contenders now = (d.contenders now).map (·.renumber φ) := by
    simp only [Core.contenders, h.machine.running, List.map_flatMap, List.filter_map]
    refine List.flatMap_congr fun p _ => congrArg (List.map _) ?_
    exact List.filter_congr fun r hr =>
      congrArg (r.record.op.broadcasts && ·) (h.hasFinished now hr)
  rw [Core.winner?, hcontenders]
  exact minOn?_map hφ (Running.renumber φ) (·.record.index) (fun _ => rfl) _

/-- A record and its copy are ready together. -/
theorem Copies.isReady (h : c.Copies φ bound d) (now : Nat) {e : InFlight}
    (he : e.index < bound) : c.isReady now (e.renumber φ) = d.isReady now e := by
  obtain ⟨r, hd, hc⟩ := h.getElem? he
  have hindex : (e.renumber φ).index = φ e.index := rfl
  rw [Core.isReady, Core.isReady, hindex, hc, hd, Option.any_some, Option.any_some,
    Record.isWaiting_renumber]
  rfl

/-- The oldest that is ready is the copy of the oldest that is ready. -/
theorem Copies.oldestReady? (h : c.Copies φ bound d) (hφ : StrictMono φ) (now : Nat) (p : Pool) :
    c.oldestReady? now p = (d.oldestReady? now p).map fun x => (x.1, x.2.renumber φ) := by
  have hready : ∀ x ∈ (d.machine.stations p).occupied,
      c.isReady now (x.2.renumber φ) = d.isReady now x.2 := fun x hx =>
    h.isReady now (h.machine.station_lt (Slots.mem_occupied.1 hx))
  rw [Core.oldestReady?, h.machine.stations, Slots.occupied_map, List.filter_map, Core.oldestReady?]
  refine (minOn?_map hφ (fun x : Nat × InFlight => (x.1, x.2.renumber φ)) (·.2.index)
    (fun _ => rfl) _).trans ?_
  exact congrArg (fun xs => (List.minOn? (·.2.index) xs).map _) (List.filter_congr hready)

end Core

end Tomasulo
