import Tomasulo.Fault
import Tomasulo.Op

/-!
# Record — one instruction of a trace and its schedule

A `Record` has a decoded part, fixed when the trace is built (program counter, flag word, register
slots), and a schedule that the machine writes: the pending producer of each source and the cycle of
each stage (`Stamps`).

* `Record.check` decides whether the machine can take the record: its class is known and, unless it
  is a trap, all its registers are in range.
* `Stamps.stamp` writes a stage's cycle once and only once.
-/

namespace Tomasulo

/-! ## Register slots -/

/-- A fixed number of operand slots, each empty or holding a number. -/
abbrev Operands (n : Nat) := Vector (Option Nat) n

namespace Operands

/-- Slots that hold nothing. -/
def empty {n : Nat} : Operands n := Vector.replicate n none

/-- The numbers held, in slot order. -/
def held {n : Nat} (slots : Operands n) : List Nat :=
  slots.toList.filterMap id

@[simp] theorem mem_held {n : Nat} {slots : Operands n} {r : Nat} :
    r ∈ slots.held ↔ some r ∈ slots := by
  simp [held]

end Operands

/-- Destination slots of a record. -/
def maxOutputs : Nat := 2

/-- Source slots of a record. -/
def maxInputs : Nat := 3

/-! ## Stage cycles -/

/-- The cycle in which a record entered each stage. -/
structure Stamps where
  dispatch : Option Nat := none
  issue : Option Nat := none
  execute : Option Nat := none
  cdb : Option Nat := none
deriving DecidableEq, Repr

namespace Stamps

/-- No stage entered. -/
def blank : Stamps := {}

/-- The cycle of a stage. -/
def cycleOf (s : Stamps) : Stage → Option Nat
  | .dispatch => s.dispatch
  | .issue => s.issue
  | .execute => s.execute
  | .cdb => s.cdb

/-- The stamps with the cycle of one stage replaced. -/
def set (s : Stamps) (stage : Stage) (cycle : Option Nat) : Stamps :=
  match stage with
  | .dispatch => { s with dispatch := cycle }
  | .issue => { s with issue := cycle }
  | .execute => { s with execute := cycle }
  | .cdb => { s with cdb := cycle }

@[simp] theorem cycleOf_blank (stage : Stage) : blank.cycleOf stage = none := by
  cases stage <;> rfl

@[simp] theorem cycleOf_set (s : Stamps) (a b : Stage) (cycle : Option Nat) :
    (s.set a cycle).cycleOf b = if b = a then cycle else s.cycleOf b := by
  cases a <;> cases b <;> rfl

/-- **Stamps are equal when they agree on every stage.** -/
theorem ext_cycleOf {s t : Stamps} (h : ∀ stage, s.cycleOf stage = t.cycleOf stage) : s = t := by
  obtain ⟨d, i, e, c⟩ := s
  obtain ⟨d', i', e', c'⟩ := t
  simp only [mk.injEq]
  exact ⟨h .dispatch, h .issue, h .execute, h .cdb⟩

/-- Writes the cycle of a stage that has none yet. -/
def stamp (stage : Stage) (now : Nat) (s : Stamps) : Except Fault Stamps :=
  match s.cycleOf stage with
  | none => .ok (s.set stage (some now))
  | some old => .error (.stampedTwice stage old now)

end Stamps

/-! ## Records -/

/-- A record's index as logs write it. -/
def indexLabel (index : Nat) : String :=
  s!"#{index}"

/-- One instruction of a trace. -/
structure Record where
  /-- Position in program order. -/
  index : Nat := 0
  /-- Program counter, for reports only. -/
  pc : UInt64 := 0
  /-- Decoder flags. -/
  op : OpWord
  /-- Destination registers. -/
  outputs : Operands maxOutputs := Operands.empty
  /-- Source registers. -/
  inputs : Operands maxInputs := Operands.empty
  /-- The record each source still waits for. -/
  producers : Operands maxInputs := Operands.empty
  /-- The cycle each stage was entered. -/
  stamps : Stamps := Stamps.blank
deriving DecidableEq, Repr

/-- Why the machine refuses a record. -/
inductive Rejection where
  /-- No rule of `OpWord.precedence` meets the flags. -/
  | unknownClass (index : Nat) (op : OpWord)
  /-- The register map has only `limit` registers. -/
  | registerOutOfRange (index register limit : Nat)
deriving DecidableEq, Repr

/-- What a rejection says. -/
def Rejection.message : Rejection → String
  | .unknownClass index op => s!"instruction {index}: unknown opcode class (flags {op.text})"
  | .registerOutOfRange index register limit =>
    s!"instruction {index}: register {register} out of range (map table holds {limit})"

namespace Record

/-- The class of a record's flags. -/
def class? (r : Record) : Option OpClass :=
  r.op.class?

/-- The registers a record writes. -/
def writes (r : Record) : List Nat :=
  r.outputs.held

/-- The registers a record reads. -/
def reads (r : Record) : List Nat :=
  r.inputs.held

/-- **The class of an acceptable record**: the flags must make a class and, traps apart, every
register must be below `registers`.  Destinations are looked at before sources. -/
def check (r : Record) (registers : Nat) : Except Rejection OpClass :=
  match r.class? with
  | none => .error (.unknownClass r.index r.op)
  | some .trap => .ok .trap
  | some c =>
    match (r.writes ++ r.reads).find? (registers ≤ ·) with
    | some register => .error (.registerOutOfRange r.index register registers)
    | none => .ok c

/-- The record as the decoder produced it. -/
def unscheduled (r : Record) : Record :=
  { r with producers := Operands.empty, stamps := Stamps.blank }

/-- Some source still waits. -/
def isWaiting (r : Record) : Bool :=
  r.producers.any (·.isSome)

/-- Sources waiting for `done` wait no longer. -/
def resolve (done : Nat) (r : Record) : Record :=
  { r with producers := r.producers.map fun p => if p = some done then none else p }

/-- Writes a stage's cycle into the record. -/
def stamp (stage : Stage) (now : Nat) (r : Record) : Except Fault Record := do
  return { r with stamps := ← r.stamps.stamp stage now }

@[simp] theorem unscheduled_unscheduled (r : Record) :
    r.unscheduled.unscheduled = r.unscheduled := rfl

/-- **A record is what the decoder produced, its stamps and its producers.** -/
theorem ext_unscheduled {r s : Record} (hprogram : r.unscheduled = s.unscheduled)
    (hstamps : ∀ stage, r.stamps.cycleOf stage = s.stamps.cycleOf stage)
    (hproducers : ∀ slot : Nat, r.producers[slot]?.join = s.producers[slot]?.join) : r = s := by
  obtain ⟨index, pc, op, outputs, inputs, producers, stamps⟩ := r
  obtain ⟨index', pc', op', outputs', inputs', producers', stamps'⟩ := s
  obtain rfl : producers = producers' := Vector.ext fun slot hslot => by
    simpa [hslot] using hproducers slot
  obtain rfl : stamps = stamps' := Stamps.ext_cycleOf hstamps
  simp_all [Record.unscheduled]

/-- The accepted class is the class of the flags. -/
theorem class?_eq_of_check {r : Record} {registers : Nat} {c : OpClass}
    (h : r.check registers = .ok c) : r.class? = some c := by
  unfold check at h
  split at h <;> try split at h
  all_goals simp_all

/-- The registers of an accepted record exist, unless it is a trap. -/
theorem lt_of_check {r : Record} {registers : Nat} {c : OpClass}
    (h : r.check registers = .ok c) (hc : c ≠ .trap) :
    ∀ register ∈ r.writes ++ r.reads, register < registers := by
  have hclass := class?_eq_of_check h
  have hnone : (r.writes ++ r.reads).find? (registers ≤ ·) = none := by
    unfold check at h
    split at h <;> try split at h
    all_goals simp_all
  intro register hmem
  simpa using List.find?_eq_none.1 hnone register hmem

/-- **A record is accepted when its flags make a class and, traps apart, its registers exist.** -/
theorem check_eq_ok_iff {r : Record} {registers : Nat} {c : OpClass} :
    r.check registers = .ok c ↔
      r.class? = some c ∧ (c ≠ .trap → ∀ register ∈ r.writes ++ r.reads, register < registers) := by
  refine ⟨fun h => ⟨class?_eq_of_check h, lt_of_check h⟩, fun ⟨hclass, hlt⟩ => ?_⟩
  unfold check
  rw [hclass]
  split
  · next h => cases h
  · next h => cases h; rfl
  · next c' hne h =>
    cases h
    have hnone : (r.writes ++ r.reads).find? (registers ≤ ·) = none := by
      rw [List.find?_eq_none]
      simpa using hlt (fun htrap => hne (by rw [htrap]))
    rw [hnone]

end Record

end Tomasulo
