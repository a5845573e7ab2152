import Tomasulo.Fault

/-!
# Slots — a fixed number of numbered places, each empty or holding one value

Register maps, stations and units are all banks of slots.  The view of a bank is `Slots.get`; every
other operation is described through it (`get_put`, `mem_occupied`, `mem_vacant`, `isClear_iff`),
and two banks of one size with one view are equal (`ext_get`).
-/

namespace Tomasulo

/-- A bank of slots. -/
structure Slots (α : Type) where
  cells : Array (Option α)
deriving DecidableEq, Repr

namespace Slots

variable {α : Type}

/-- A bank that holds nothing. -/
def empty (size : Nat) : Slots α :=
  ⟨Array.replicate size none⟩

/-- The number of slots. -/
def size (s : Slots α) : Nat :=
  s.cells.size

/-- What a slot holds; a slot that does not exist holds nothing. -/
def get (s : Slots α) (i : Nat) : Option α :=
  s.cells[i]?.join

/-- The bank with the content of one slot replaced. -/
def put (s : Slots α) (i : Nat) (content : Option α) : Slots α :=
  ⟨s.cells.setIfInBounds i content⟩

/-- The slots in use with their contents, in slot order. -/
def occupied (s : Slots α) : List (Nat × α) :=
  (List.range s.size).filterMap fun i => (s.get i).map (i, ·)

/-- The slots not in use, in slot order. -/
def vacant (s : Slots α) : List Nat :=
  (List.range s.size).filter fun i => (s.get i).isNone

/-- No slot is in use. -/
def isClear (s : Slots α) : Bool :=
  s.cells.all (·.isNone)

/-- Refuses a slot that does not exist. -/
def reach (s : Slots α) (i : Nat) : Except Fault Unit :=
  if i < s.size then .ok () else .error .outOfBounds

/-! ## The view -/

@[simp] theorem size_empty (n : Nat) : (empty n : Slots α).size = n := by
  simp [empty, size]

@[simp] theorem size_put (s : Slots α) (i : Nat) (content : Option α) :
    (s.put i content).size = s.size := by
  simp [put, size]

@[simp] theorem get_empty (n i : Nat) : (empty n : Slots α).get i = none := by
  simp only [empty, get, Array.getElem?_replicate]
  split <;> rfl

theorem get_eq_none_of_size_le {s : Slots α} {i : Nat} (h : s.size ≤ i) : s.get i = none := by
  simp [get, Array.getElem?_eq_none h]

theorem lt_size_of_get {s : Slots α} {i : Nat} {a : α} (h : s.get i = some a) : i < s.size := by
  refine Nat.lt_of_not_le fun hi => ?_
  simp [get_eq_none_of_size_le hi] at h

/-- **A write is read back from its own slot only.** -/
theorem get_put (s : Slots α) (i j : Nat) (content : Option α) :
    (s.put i content).get j = if i = j ∧ i < s.size then content else s.get j := by
  simp only [put, get, size, Array.getElem?_setIfInBounds]
  by_cases hij : i = j
  · subst hij
    by_cases hi : i < s.cells.size <;> simp [hi]
  · simp [hij]

@[simp] theorem mem_occupied {s : Slots α} {i : Nat} {a : α} :
    (i, a) ∈ s.occupied ↔ s.get i = some a := by
  simp only [occupied, List.mem_filterMap, List.mem_range, Option.map_eq_some_iff, Prod.mk.injEq]
  constructor
  · rintro ⟨k, -, b, hb, rfl, rfl⟩
    exact hb
  · intro h
    exact ⟨i, lt_size_of_get h, a, h, rfl, rfl⟩

@[simp] theorem mem_vacant {s : Slots α} {i : Nat} :
    i ∈ s.vacant ↔ i < s.size ∧ s.get i = none := by
  simp [vacant]

/-- The slots in use are listed once each. -/
theorem pairwise_occupied (s : Slots α) : s.occupied.Pairwise (·.1 < ·.1) := by
  refine List.Pairwise.filterMap _ (fun i j hij a ha b hb => ?_) List.pairwise_lt_range
  obtain ⟨x, -, rfl⟩ := Option.map_eq_some_iff.1 ha
  obtain ⟨y, -, rfl⟩ := Option.map_eq_some_iff.1 hb
  exact hij

theorem nodup_occupied (s : Slots α) : s.occupied.Nodup := by
  refine s.pairwise_occupied.imp ?_
  rintro a b hlt rfl
  exact Nat.lt_irrefl _ hlt

/-- A slot is in use or it is not. -/
theorem length_vacant_add_length_occupied (s : Slots α) :
    s.vacant.length + s.occupied.length = s.size := by
  have hoccupied : s.occupied.length =
      (List.range s.size).countP fun i => ¬ (s.get i).isNone = true := by
    rw [occupied, List.length_filterMap_eq_countP]
    congr 1
    funext i
    cases s.get i <;> rfl
  rw [vacant, hoccupied, ← List.countP_eq_length_filter, ← List.length_eq_countP_add_countP,
    List.length_range]

/-- **A bank is clear when every slot holds nothing.** -/
theorem isClear_iff {s : Slots α} : s.isClear = true ↔ ∀ i, s.get i = none := by
  simp only [isClear, Array.all_eq_true_iff_forall_mem, Option.isNone_iff_eq_none, get]
  constructor
  · intro h i
    cases hi : s.cells[i]? with
    | none => rfl
    | some c => simp [h c (Array.mem_of_getElem? hi)]
  · intro h c hc
    obtain ⟨i, hi, rfl⟩ := Array.mem_iff_getElem.1 hc
    simpa [hi] using h i

/-- **Two banks of one size with one view are equal.** -/
theorem ext_get {s t : Slots α} (hsize : s.size = t.size) (hget : ∀ i, s.get i = t.get i) :
    s = t := by
  obtain ⟨a⟩ := s
  obtain ⟨b⟩ := t
  congr 1
  refine Array.ext hsize fun i hi hi' => ?_
  simpa [get, hi, hi'] using hget i

theorem reach_eq_ok {s : Slots α} {i : Nat} (h : i < s.size) : s.reach i = .ok () := by
  simp [reach, h]

end Slots

end Tomasulo
