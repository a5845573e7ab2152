import Tomasulo.Slots
import Tomasulo.Op
import Tomasulo.Word

/-!
# InFlight — records inside the machine: the fetch queue, the stations, the units, the bus

Outside the trace a record travels as an `InFlight`, its index and class.  It waits in the
`FetchQueue`, then in one of the `Stations` of its pool, runs on one of the `Units` while it keeps
the station, and at last its index stands on the `ResultBus` for one cycle.
-/

namespace Tomasulo

/-- A record inside the machine. -/
structure InFlight where
  index : Nat
  op : OpClass
deriving DecidableEq, Repr

/-! ## Fetch queue -/

/-- A bounded queue of fetched records, the oldest first. -/
structure FetchQueue where
  entries : List InFlight := []
  capacity : Nat
deriving DecidableEq, Repr

namespace FetchQueue

/-- A queue without entries. -/
def empty (capacity : Nat) : FetchQueue :=
  { capacity }

/-- No room is left. -/
def isFull (q : FetchQueue) : Bool :=
  q.capacity ≤ q.entries.length

/-- Adds a record at the tail. -/
def push (q : FetchQueue) (e : InFlight) : Except Fault FetchQueue :=
  if q.isFull then .error .queueFull else .ok { q with entries := q.entries ++ [e] }

/-- The oldest record. -/
def front (q : FetchQueue) : Option InFlight :=
  q.entries.head?

/-- The queue without its oldest record. -/
def pop (q : FetchQueue) : FetchQueue :=
  { q with entries := q.entries.tail }

end FetchQueue

/-! ## Stations -/

/-- The reservation stations of a pool. -/
abbrev Stations := Slots InFlight

namespace Stations

/-- Places a record in the lowest free station; nothing when all are taken. -/
def place (s : Stations) (e : InFlight) : Option (Nat × Stations) :=
  s.vacant.head?.map fun slot => (slot, s.put slot (some e))

/-- What a station that must exist holds. -/
def look (s : Stations) (slot : Nat) : Except Fault (Option InFlight) := do
  s.reach slot
  return s.get slot

/-- Empties a station that must hold a record. -/
def vacate (s : Stations) (slot : Nat) : Except Fault (InFlight × Stations) := do
  s.reach slot
  match s.get slot with
  | some e => return (e, s.put slot none)
  | none => throw (.stationFree slot)

end Stations

/-! ## Units -/

/-- The functional units of a pool: each is idle or runs the record of one station, and all take the
same time. -/
structure Units where
  running : Slots Nat
  latency : Nat
deriving DecidableEq, Repr

namespace Units

/-- Units that run nothing. -/
def idle (size latency : Nat) : Units :=
  { running := Slots.empty size, latency }

/-- Starts the record of `station` on an idle unit. -/
def assign (u : Units) (unit station : Nat) : Except Fault Units := do
  u.running.reach unit
  match u.running.get unit with
  | none => return { u with running := u.running.put unit (some station) }
  | some _ => throw (.unitBusy unit)

/-- Idles a unit and tells the station it ran. -/
def release (u : Units) (unit : Nat) : Except Fault (Option Nat × Units) := do
  u.running.reach unit
  return (u.running.get unit, { u with running := u.running.put unit none })

/-- A record started in cycle `start` is done by cycle `now`.  The sum is one of words, so after a
very long latency it may be a cycle before the start. -/
def hasFinished (u : Units) (start now : Nat) (add : Nat → Nat → Nat := wordAdd) : Bool :=
  add start u.latency ≤ now

end Units

/-! ## Result bus -/

/-- The bus carries at most one result. -/
structure ResultBus where
  carried : Option Nat := none
deriving DecidableEq, Repr

namespace ResultBus

/-- A bus that carries nothing. -/
def idle : ResultBus := {}

/-- Puts a result on a bus that carries none. -/
def broadcast (b : ResultBus) (index : Nat) : Except Fault ResultBus :=
  match b.carried with
  | none => .ok ⟨some index⟩
  | some old => .error (.busOccupied old index)

end ResultBus

end Tomasulo
