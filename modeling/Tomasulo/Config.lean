import Tomasulo.Pool

/-!
# Config — the parameters of a machine

A machine has eight parameters.  `Parameter` names them one by one, with the key each is written
under, so that reading, writing and checking a configuration all go through the same list.  A
configuration is usable when no parameter is zero (`Config.check`): an empty queue or pool would
never drain a trace.
-/

namespace Tomasulo

/-- The parameters of one pool. -/
structure PoolConfig where
  stations : Nat
  units : Nat
  latency : Nat
deriving DecidableEq, Repr

/-- The parameters of a machine; the defaults are the baseline machine. -/
structure Config where
  /-- Registers of the register map. -/
  registers : Nat := 70
  /-- Room in the fetch queue. -/
  queue : Nat := 16
  pools : ByPool PoolConfig := ⟨⟨5, 3, 5⟩, ⟨3, 1, 7⟩⟩
deriving DecidableEq, Repr

/-- The name of one parameter. -/
inductive Parameter where
  | registers
  | queue
  | stations (pool : Pool)
  | units (pool : Pool)
  | latency (pool : Pool)
deriving DecidableEq, Repr

namespace Parameter

/-- The parameters of the pipeline, in the order they are written. -/
def pipeline : List Parameter :=
  .queue :: Pool.all.map .stations ++ Pool.all.map .units ++ Pool.all.map .latency

/-- Every parameter, in the order they are written. -/
def all : List Parameter :=
  .registers :: pipeline

/-- The key a parameter is written under. -/
def key : Parameter → String
  | .registers => "num_registers"
  | .queue => "ifq_size"
  | .stations p => "rs_" ++ p.label
  | .units p => "fu_" ++ p.label
  | .latency p => "latency_" ++ p.label

theorem mem_all (p : Parameter) : p ∈ all := by
  rcases p with _ | _ | p | p | p <;> try cases p
  all_goals decide

/-- The parameter written under a key. -/
def ofKey? (key : String) : Option Parameter :=
  all.find? (·.key == key)

/-- **A parameter is found again by its key**, so no two share one. -/
@[simp] theorem ofKey?_key (p : Parameter) : ofKey? p.key = some p := by
  rcases p with _ | _ | p | p | p <;> try cases p
  all_goals decide

end Parameter

/-- A configuration no machine can be built from, with the first parameter at fault. -/
structure InvalidConfig where
  parameter : Parameter
deriving DecidableEq, Repr

/-- What an invalid configuration is told. -/
def InvalidConfig.message (e : InvalidConfig) : String :=
  match e.parameter with
  | .latency _ => "invalid configuration: functional unit latencies must be at least 1 cycle"
  | p => s!"invalid configuration: {p.key} must be at least 1"

namespace Config

/-- The baseline machine. -/
def baseline : Config := {}

/-- The value of a parameter. -/
def get (c : Config) : Parameter → Nat
  | .registers => c.registers
  | .queue => c.queue
  | .stations p => (c.pools p).stations
  | .units p => (c.pools p).units
  | .latency p => (c.pools p).latency

/-- Gives a parameter another value. -/
def set (c : Config) (parameter : Parameter) (value : Nat) : Config :=
  match parameter with
  | .registers => { c with registers := value }
  | .queue => { c with queue := value }
  | .stations p => { c with pools := c.pools.set p { c.pools p with stations := value } }
  | .units p => { c with pools := c.pools.set p { c.pools p with units := value } }
  | .latency p => { c with pools := c.pools.set p { c.pools p with latency := value } }

/-- **Accepts a configuration in which every parameter is at least one**, else names the first that
is zero. -/
def check (c : Config) : Except InvalidConfig Unit :=
  match Parameter.all.find? (c.get · = 0) with
  | none => .ok ()
  | some p => .error ⟨p⟩

/-- The longer of the two latencies. -/
def longestLatency (c : Config) : Nat :=
  max (c.pools .int).latency (c.pools .fp).latency

@[simp] theorem get_set (c : Config) (p q : Parameter) (value : Nat) :
    (c.set p value).get q = if q = p then value else c.get q := by
  rcases p with _ | _ | p | p | p <;> rcases q with _ | _ | q | q | q <;>
    (try cases p) <;> (try cases q) <;> rfl

/-- **Configurations with the same parameters are equal.** -/
theorem ext_get {c d : Config} (h : ∀ p, c.get p = d.get p) : c = d := by
  obtain ⟨r, q, ps⟩ := c
  obtain ⟨r', q', ps'⟩ := d
  rw [mk.injEq]
  refine ⟨h .registers, h .queue, ByPool.ext_get fun p => ?_⟩
  have hs := h (.stations p)
  have hu := h (.units p)
  have hl := h (.latency p)
  simp only [get] at hs hu hl
  cases hp : ps p
  cases hp' : ps' p
  simp_all

/-- **A configuration is accepted when no parameter is zero.** -/
theorem check_eq_ok_iff {c : Config} : c.check = .ok () ↔ ∀ p, 1 ≤ c.get p := by
  have hnone : c.check = .ok () ↔ Parameter.all.find? (c.get · = 0) = none := by
    unfold check
    split <;> simp_all
  rw [hnone, List.find?_eq_none]
  constructor
  · intro h p
    have := h p (Parameter.mem_all p)
    simp only [decide_eq_true_eq] at this
    omega
  · intro h p _
    have := h p
    simp only [decide_eq_true_eq]
    omega

end Config

end Tomasulo
