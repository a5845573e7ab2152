/-!
# Pool — the integer and the floating-point side of the machine

Stations, units and their parameters come in two pools.  `ByPool α` holds one `α` for each and is
read by applying it to a pool.
-/

namespace Tomasulo

/-- The two pools of stations and units. -/
inductive Pool where
  | int
  | fp
deriving DecidableEq, Repr

namespace Pool

/-- Both pools, in the order the machine serves them. -/
def all : List Pool := [.int, .fp]

/-- The pool as logs and parameter keys write it. -/
def label : Pool → String
  | .int => "int"
  | .fp => "fp"

@[simp] theorem mem_all (p : Pool) : p ∈ all := by
  cases p <;> simp [all]

end Pool

/-- One value for each pool. -/
structure ByPool (α : Type) where
  int : α
  fp : α
deriving DecidableEq, Repr

namespace ByPool

variable {α : Type}

/-- The value of a pool. -/
def get (b : ByPool α) : Pool → α
  | .int => b.int
  | .fp => b.fp

instance : CoeFun (ByPool α) fun _ => Pool → α := ⟨get⟩

/-- The values that a function gives. -/
def of (f : Pool → α) : ByPool α :=
  ⟨f .int, f .fp⟩

/-- Replaces the value of one pool. -/
def set (b : ByPool α) (p : Pool) (a : α) : ByPool α :=
  match p with
  | .int => { b with int := a }
  | .fp => { b with fp := a }

@[simp] theorem get_of (f : Pool → α) (p : Pool) : (of f) p = f p := by
  cases p <;> rfl

@[simp] theorem get_set (b : ByPool α) (p q : Pool) (a : α) :
    (b.set p a) q = if q = p then a else b q := by
  cases p <;> cases q <;> rfl

/-- **Equal values for both pools make equal pairs.** -/
theorem ext_get {b c : ByPool α} (h : ∀ p : Pool, b p = c p) : b = c := by
  obtain ⟨i, f⟩ := b
  obtain ⟨i', f'⟩ := c
  rw [mk.injEq]
  exact ⟨h .int, h .fp⟩

end ByPool

end Tomasulo
