import Tomasulo.Record

/-!
# Trace — the records of a program in the order they were decoded

A `Trace` only grows.  `Trace.append` numbers the new record by its position and drops any schedule
it carries, so in every trace that was built by appending the index of a record is its position.
-/

namespace Tomasulo

/-- Records in program order. -/
structure Trace where
  records : Array Record := #[]
deriving DecidableEq, Repr

namespace Trace

/-- A trace without records. -/
def empty : Trace := {}

/-- The number of records. -/
def size (t : Trace) : Nat :=
  t.records.size

instance : GetElem? Trace Nat Record (fun t i => i < t.records.size) where
  getElem t i h := t.records[i]
  getElem? t i := t.records[i]?

/-- The record at a position that must exist. -/
def read (t : Trace) (i : Nat) : Except Fault Record :=
  match t[i]? with
  | some r => .ok r
  | none => .error .outOfBounds

/-- The trace with one record changed; a position beyond the end changes nothing. -/
def modify (t : Trace) (i : Nat) (f : Record → Record) : Trace :=
  ⟨t.records.modify i f⟩

/-- Appends a record under the next index, without its schedule. -/
def append (t : Trace) (r : Record) : Trace :=
  ⟨t.records.push { r.unscheduled with index := t.size }⟩

/-- Appends records one after the other to an empty trace. -/
def ofList (rs : List Record) : Trace :=
  rs.foldl append empty

/-- The records in program order. -/
def toList (t : Trace) : List Record :=
  t.records.toList

/-- The trace without any schedule. -/
def unscheduled (t : Trace) : Trace :=
  ⟨t.records.map Record.unscheduled⟩

/-! ## The records of a trace -/

@[simp] theorem size_empty : empty.size = 0 := rfl

@[simp] theorem size_append (t : Trace) (r : Record) : (t.append r).size = t.size + 1 := by
  simp [append, size]

@[simp] theorem size_modify (t : Trace) (i : Nat) (f : Record → Record) :
    (t.modify i f).size = t.size := by
  simp [modify, size]

@[simp] theorem size_unscheduled (t : Trace) : t.unscheduled.size = t.size := by
  simp [unscheduled, size]

@[simp] theorem toList_append (t : Trace) (r : Record) :
    (t.append r).toList = t.toList ++ [{ r.unscheduled with index := t.size }] := by
  simp [append, toList]

theorem getElem?_modify (t : Trace) (i j : Nat) (f : Record → Record) :
    (t.modify i f)[j]? = if i = j then t[j]?.map f else t[j]? := by
  change (t.records.modify i f)[j]? = if i = j then t.records[j]?.map f else t.records[j]?
  exact Array.getElem?_modify

@[simp] theorem getElem?_unscheduled (t : Trace) (i : Nat) :
    t.unscheduled[i]? = t[i]?.map Record.unscheduled := by
  change (t.records.map Record.unscheduled)[i]? = t.records[i]?.map Record.unscheduled
  simp

@[simp] theorem unscheduled_unscheduled (t : Trace) :
    t.unscheduled.unscheduled = t.unscheduled := by
  simp [unscheduled, Function.comp_def]

end Trace

end Tomasulo
