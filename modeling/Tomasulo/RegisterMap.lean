import Tomasulo.Record
import Tomasulo.Slots

/-!
# RegisterMap — which record will write a register next

Renaming reads before it writes: `RegisterMap.sources` turns the source registers of a record into
the records that will produce them, then `RegisterMap.claim` makes the record itself the writer of
its destinations.  A writer that is done lets go of a register with `RegisterMap.forget`, which
leaves the claim of a later writer alone.
-/

namespace Tomasulo

/-- For every register, the record that will write it, or nothing when its value is there. -/
abbrev RegisterMap := Slots Nat

namespace RegisterMap

/-- The pending writer of a register. -/
def writer (m : RegisterMap) (register : Nat) : Option Nat :=
  m.get register

/-- The pending writer of a register that must exist. -/
def lookup (m : RegisterMap) (register : Nat) : Except Fault (Option Nat) := do
  m.reach register
  return writer m register

/-- The pending writer of every source; an empty slot has none. -/
def sources (m : RegisterMap) (inputs : Operands maxInputs) :
    Except Fault (Operands maxInputs) := do
  inputs.held.forM m.reach
  return inputs.map (·.bind (writer m))

/-- Makes `index` the pending writer of every destination. -/
def claim (m : RegisterMap) (outputs : Operands maxOutputs) (index : Nat) :
    Except Fault RegisterMap := do
  outputs.held.forM m.reach
  return outputs.held.foldl (fun m register => m.put register (some index)) m

/-- Ends the claim of `done` on a register; another writer's claim stays. -/
def forget (m : RegisterMap) (done register : Nat) : Except Fault RegisterMap := do
  m.reach register
  return if writer m register = some done then m.put register none else m

end RegisterMap

end Tomasulo
