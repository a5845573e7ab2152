import Tomasulo.Json.Shape
import Tomasulo.Record

/-!
# Record/Json — records as JSON

A record is an object with all its fields, the schedule included; reading one needs every field.
Absent registers, producers and cycles are null.
-/

namespace Tomasulo

open Json

/-! ## Names -/

/-- The name of a pool in JSON. -/
def Pool.name : Pool → String
  | .int => "Int"
  | .fp => "Fp"

/-- The name of a class in JSON. -/
def OpClass.name : OpClass → String
  | .load => "Load"
  | .store => "Store"
  | .int => "IntCompute"
  | .fp => "FpCompute"
  | .jump => "UncondCtrl"
  | .branch => "CondCtrl"
  | .trap => "Trap"

/-- The pools by name. -/
def Pool.names : List (String × Pool) :=
  Pool.all.map fun p => (p.name, p)

/-- The classes by name. -/
def OpClass.names : List (String × OpClass) :=
  OpClass.all.map fun c => (c.name, c)

/-- A class is found by its name. -/
@[simp] theorem OpClass.lookup_name (c : OpClass) : OpClass.names.lookup c.name = some c := by
  cases c <;> decide

/-! ## Operands and flags -/

/-- Numbers packed into slots from the first on; the rest stays empty. -/
def Operands.ofList {n : Nat} (numbers : List (Option Nat)) : Operands n :=
  Vector.ofFn fun i => numbers[i.val]?.join

/-- Slots as an array of numbers and nulls. -/
def Operands.toJson {n : Nat} (slots : Operands n) : Value :=
  .nats? slots.toList

/-- An array with one number or null for each slot. -/
def Operands.read (n : Nat) : Reader (Operands n) := do
  return Operands.ofList (← Read.exactly n (Read.nullable Read.natural64))

/-- Flags as a number. -/
def OpWord.toJson (w : OpWord) : Value :=
  .nat w.bits.toNat

/-- A number of 32 bits as flags. -/
def OpWord.read : Reader OpWord := do
  return ⟨UInt32.ofNat (← Read.natural UInt32.size)⟩

/-! ## Stage cycles -/

namespace Stamps

/-- The cycles under the names of their stages; one that is not written is null. -/
def shape : Shape Stamps where
  members := Stage.all.map fun stage =>
    ⟨stage.name, .null, fun s => do return s.set stage (← Read.nullable Read.natural64)⟩

/-- **Stage cycles as an object.** -/
def toJson (s : Stamps) : Value :=
  .object (Stage.all.map fun stage => (stage.name, .nat? (s.cycleOf stage)))

end Stamps

/-! ## Records -/

namespace Record

/-- Every field of a record. -/
def shape : Shape Record where
  members :=
    [⟨"index", .refused, fun r => do return { r with index := ← Read.natural64 }⟩,
     ⟨"pc", .refused, fun r => do return { r with pc := UInt64.ofNat (← Read.natural64) }⟩,
     ⟨"op", .refused, fun r => do return { r with op := ← OpWord.read }⟩,
     ⟨"outputs", .refused, fun r => do return { r with outputs := ← Operands.read maxOutputs }⟩,
     ⟨"inputs", .refused, fun r => do return { r with inputs := ← Operands.read maxInputs }⟩,
     ⟨"producers", .refused, fun r => do return { r with producers := ← Operands.read maxInputs }⟩,
     ⟨"cycles", .refused, fun r => do return { r with stamps := ← Stamps.shape.read Stamps.blank }⟩]

/-- **Reads a record.** -/
def ofJson (text : String) : Except Defect Record :=
  (shape.read { op := ⟨0⟩ }).run text

/-- **A record as an object.** -/
def toJson (r : Record) : Value :=
  .object
    [("index", .nat r.index),
     ("pc", .nat r.pc.toNat),
     ("op", r.op.toJson),
     ("outputs", r.outputs.toJson),
     ("inputs", r.inputs.toJson),
     ("producers", r.producers.toJson),
     ("cycles", r.stamps.toJson)]

end Record

end Tomasulo
