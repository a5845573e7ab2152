import Tomasulo.RegisterMap

/-!
# Proofs/Registers — what claiming and forgetting leave in the register map

The operations of `RegisterMap` refuse registers that do not exist.  On registers that do they are
total functions, and each is described by the pending writers it leaves.
-/

namespace Tomasulo

namespace RegisterMap

/-- The map after `done` has let go of a register. -/
def forgotten (done : Nat) (m : RegisterMap) (register : Nat) : RegisterMap :=
  if writer m register = some done then m.put register none else m

/-- The map after `done` has let go of registers. -/
def forgetAll (m : RegisterMap) (done : Nat) (registers : List Nat) : RegisterMap :=
  registers.foldl (forgotten done) m

/-- The map after `index` has claimed registers. -/
def claimAll (m : RegisterMap) (index : Nat) (registers : List Nat) : RegisterMap :=
  registers.foldl (fun m register => m.put register (some index)) m

@[simp] theorem size_forgotten (done : Nat) (m : RegisterMap) (register : Nat) :
    (forgotten done m register).size = m.size := by
  unfold forgotten
  split <;> simp

@[simp] theorem size_forgetAll (m : RegisterMap) (done : Nat) (registers : List Nat) :
    (m.forgetAll done registers).size = m.size := by
  induction registers generalizing m with
  | nil => rfl
  | cons register registers ih => exact (ih _).trans (size_forgotten done m register)

@[simp] theorem size_claimAll (m : RegisterMap) (index : Nat) (registers : List Nat) :
    (m.claimAll index registers).size = m.size := by
  induction registers generalizing m with
  | nil => rfl
  | cons register registers ih => exact (ih _).trans (Slots.size_put m register _)

/-! ## The operations on registers that exist -/

theorem forget_eq_ok {m : RegisterMap} {register : Nat} (h : register < m.size) (done : Nat) :
    m.forget done register = .ok (forgotten done m register) := by
  rw [forget, Slots.reach_eq_ok h]
  rfl

theorem forM_reach_eq_ok {m : RegisterMap} {registers : List Nat}
    (h : ∀ register ∈ registers, register < m.size) : registers.forM m.reach = .ok () := by
  induction registers with
  | nil => rfl
  | cons register registers ih =>
    obtain ⟨hhead, htail⟩ := List.forall_mem_cons.1 h
    change (m.reach register >>= fun _ => registers.forM m.reach) = _
    rw [Slots.reach_eq_ok hhead]
    exact ih htail

theorem claim_eq_ok {m : RegisterMap} {outputs : Operands maxOutputs}
    (h : ∀ register ∈ outputs.held, register < m.size) (index : Nat) :
    m.claim outputs index = .ok (m.claimAll index outputs.held) := by
  rw [claim, forM_reach_eq_ok h]
  rfl

theorem sources_eq_ok {m : RegisterMap} {inputs : Operands maxInputs}
    (h : ∀ register ∈ inputs.held, register < m.size) :
    m.sources inputs = .ok (inputs.map (·.bind m.writer)) := by
  rw [sources, forM_reach_eq_ok h]
  rfl

/-! ## The pending writers -/

theorem writer_put (m : RegisterMap) (register : Nat) (content : Option Nat) (r : Nat) :
    writer (m.put register content) r =
      if register = r ∧ register < m.size then content else m.writer r :=
  Slots.get_put m register r content

theorem lt_size_of_writer {m : RegisterMap} {r w : Nat} (h : m.writer r = some w) : r < m.size :=
  Slots.lt_size_of_get h

theorem writer_forgotten (done : Nat) (m : RegisterMap) (register r : Nat) :
    (forgotten done m register).writer r =
      if r = register ∧ m.writer r = some done then none else m.writer r := by
  unfold forgotten
  by_cases hw : m.writer register = some done
  · rw [if_pos hw, writer_put]
    have hlt := lt_size_of_writer hw
    by_cases hr : r = register
    · simp [hr, hw, hlt]
    · simp [hr, Ne.symm hr]
  · rw [if_neg hw, if_neg]
    rintro ⟨rfl, hr⟩
    exact hw hr

/-- **Forgetting frees exactly the registers still claimed by `done`.** -/
theorem writer_forgetAll (m : RegisterMap) (done : Nat) (registers : List Nat) (r : Nat) :
    (m.forgetAll done registers).writer r =
      if r ∈ registers ∧ m.writer r = some done then none else m.writer r := by
  induction registers generalizing m with
  | nil => simp [forgetAll]
  | cons register registers ih =>
    have hstep : m.forgetAll done (register :: registers) =
        (forgotten done m register).forgetAll done registers := rfl
    rw [hstep, ih, writer_forgotten]
    by_cases hr : r = register <;> by_cases hw : m.writer r = some done <;>
      by_cases hrs : r ∈ registers <;> simp_all

/-- **Claiming makes `index` the writer of every claimed register.** -/
theorem writer_claimAll {m : RegisterMap} {registers : List Nat}
    (h : ∀ register ∈ registers, register < m.size) (index r : Nat) :
    (m.claimAll index registers).writer r =
      if r ∈ registers then some index else m.writer r := by
  induction registers generalizing m with
  | nil => simp [claimAll]
  | cons register registers ih =>
    obtain ⟨hhead, htail⟩ := List.forall_mem_cons.1 h
    have hstep : m.claimAll index (register :: registers) =
        claimAll (m.put register (some index)) index registers := rfl
    rw [hstep, ih (by simpa using htail), writer_put]
    by_cases hrs : r ∈ registers <;> by_cases hr : r = register <;> simp_all [Ne.symm]

end RegisterMap

end Tomasulo
