import Tomasulo.File
import Tomasulo.Record.Json
import Tomasulo.Trace

/-!
# Trace/Json — traces as JSON

A trace is written as an array of entries.  An entry gives the flags, as a number or by the name of
a class, and may give the program counter and the registers; nothing else.  The whole text is read
before the registers are counted, so a defect anywhere in it comes before too many registers
(`Trace.ofJson`).
-/

namespace Tomasulo

open Json

/-! ## Reading an entry -/

/-- One entry of a trace text. -/
structure TraceEntry where
  pc : UInt64 := 0
  op : OpWord
  outputs : List (Option Nat) := []
  inputs : List (Option Nat) := []
deriving DecidableEq, Repr

/-- The flags that a value gives: a number of 32 bits, or a class, by its name alone or as the only
key of an object with the value null. -/
def OpWord.ofValue? : Value → Option OpWord
  | .number n => (n.toNat?.filter (· < UInt32.size)).map fun bits => ⟨UInt32.ofNat bits⟩
  | .string name => (OpClass.names.lookup name).map OpClass.word
  | .object [(name, .null)] => (OpClass.names.lookup name).map OpClass.word
  | _ => none

namespace TraceEntry

/-- How deep the brackets of a text may nest where its values are kept. -/
def nesting : Nat := 127

/-- Flags or a class.  The value is read before it is looked at, two brackets deep in the text. -/
def readOp : Reader OpWord := do
  match OpWord.ofValue? (← Read.value (nesting - 2)) with
  | some op => return op
  | none => throw .mismatched

/-- Registers or nulls, as many as are written. -/
def readRegisters : Reader (List (Option Nat)) :=
  Read.items (Read.nullable Read.natural64)

/-- The members of an entry; there are no others. -/
def shape : Shape TraceEntry where
  members :=
    [⟨"pc", .default, fun e => do return { e with pc := UInt64.ofNat (← Read.natural64) }⟩,
     ⟨"op", .refused, fun e => do return { e with op := ← readOp }⟩,
     ⟨"outputs", .default, fun e => do return { e with outputs := ← readRegisters }⟩,
     ⟨"inputs", .default, fun e => do return { e with inputs := ← readRegisters }⟩]
  closed := true

end TraceEntry

/-! ## From entries to records -/

/-- The two sides of a record's registers. -/
inductive Side where
  | output
  | input
deriving DecidableEq, Repr

/-- The side as messages write it. -/
def Side.label : Side → String
  | .output => "output"
  | .input => "input"

/-- An entry lists more registers on one side than a record has slots. -/
structure TooManyOperands where
  index : Nat
  side : Side
  count : Nat
  limit : Nat
deriving DecidableEq, Repr

/-- What an entry with too many registers is told. -/
def TooManyOperands.message (e : TooManyOperands) : String :=
  s!"trace entry {e.index}: {e.count} {e.side.label} registers exceeds the limit of {e.limit}"

namespace TraceEntry

/-- Registers packed into as many slots as there are on one side. -/
def pack (index : Nat) (side : Side) (limit : Nat) (registers : List (Option Nat)) :
    Except TooManyOperands (Operands limit) :=
  if registers.length ≤ limit then .ok (Operands.ofList registers)
  else .error ⟨index, side, registers.length, limit⟩

/-- The record of an entry; its outputs are counted before its inputs. -/
def toRecord (index : Nat) (e : TraceEntry) : Except TooManyOperands Record := do
  let outputs ← pack index .output maxOutputs e.outputs
  let inputs ← pack index .input maxInputs e.inputs
  return { pc := e.pc, op := e.op, outputs, inputs }

end TraceEntry

/-! ## Reading a trace -/

/-- Why a trace could not be loaded. -/
inductive LoadError where
  | file (e : FileError)
  | text (d : Defect)
  | operands (e : TooManyOperands)
deriving DecidableEq, Repr

namespace Trace

/-- **Reads a trace**: first every entry, then the operands of each. -/
def ofJson (text : String) : Except LoadError Trace := do
  let entries ← ((Read.items (TraceEntry.shape.read { op := ⟨0⟩ })).run text).mapError .text
  let records ← (entries.zipIdx.mapM fun (e, i) => TraceEntry.toRecord i e).mapError .operands
  return Trace.ofList records

/-- Reads a trace from what a file holds. -/
def load (file : Except FileError String) : Except LoadError Trace := do
  Trace.ofJson (← file.mapError .file)

/-- **A trace as an array of records.** -/
def toJson (t : Trace) : Value :=
  .array (t.toList.map Record.toJson)

end Trace

end Tomasulo
