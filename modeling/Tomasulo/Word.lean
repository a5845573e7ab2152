/-!
# Word — sums of cycle numbers

Cycle numbers are natural numbers, but the cycle in which a result is there is a sum made in a word
of 64 bits: beyond `UInt64.size - 1` it wraps (`wordAdd`).  Nothing keeps a latency away from that
bound.  The functions that make such a sum take the addition as their last argument, so that what
wrapping changes can be stated; `wordAdd` is what they use by default.
-/

namespace Tomasulo

/-- The sum of two numbers in a word of 64 bits. -/
def wordAdd (a b : Nat) : Nat :=
  (UInt64.ofNat a + UInt64.ofNat b).toNat

theorem wordAdd_eq_mod (a b : Nat) : wordAdd a b = (a + b) % UInt64.size := by
  rw [wordAdd, UInt64.toNat_add, UInt64.toNat_ofNat', UInt64.toNat_ofNat', ← Nat.add_mod]

/-- A sum that fits a word is the sum. -/
theorem wordAdd_of_lt {a b : Nat} (h : a + b < UInt64.size) : wordAdd a b = a + b := by
  rw [wordAdd_eq_mod, Nat.mod_eq_of_lt h]

/-- Wrapping only makes a sum smaller. -/
theorem wordAdd_le (a b : Nat) : wordAdd a b ≤ a + b := by
  rw [wordAdd_eq_mod]
  exact Nat.mod_le ..

example : wordAdd (UInt64.size - 1) 3 = 2 := by decide

end Tomasulo
