import Mathlib.Data.List.Perm.Subperm
import Mathlib.Order.Bounds.Basic
import Tomasulo.Proofs.Dataflow

/-!
# Proofs/Arbitration — who has the bus, and how long a result waits for it

In every cycle of a run the oldest of the records that want the bus has it
(`Simulation.contending_head?`).  So a result that waits is overtaken by older records only, by
another one in every cycle, and the wait is no longer than there are older records that publish.
-/

namespace Tomasulo

namespace Trace

variable {config : Config} {t : Trace} {cycle i n : Nat}

/-- The head of an ascending list is its least member. -/
theorem head?_eq_some_iff_isLeast {is : List Nat} (hsorted : is.Pairwise (· < ·)) :
    is.head? = some i ↔ IsLeast {j | j ∈ is} i := by
  cases is with
  | nil => exact iff_of_false nofun fun h => List.not_mem_nil h.1
  | cons j js =>
    obtain ⟨hlt, -⟩ := List.pairwise_cons.1 hsorted
    have hleast : IsLeast {k | k ∈ j :: js} j := by
      refine ⟨List.mem_cons_self .., fun k hk => ?_⟩
      rcases List.mem_cons.1 hk with rfl | hk
      · exact Nat.le_refl _
      · exact Nat.le_of_lt (hlt k hk)
    rw [List.head?_cons, Option.some.injEq]
    exact ⟨fun h => h ▸ hleast, fun h => hleast.unique h⟩

/-- Nobody wants the bus in cycle 0. -/
theorem contending_zero (config : Config) (t : Trace) : t.contending config.timing 0 = [] := by
  rw [List.eq_nil_iff_forall_not_mem]
  intro i hi
  obtain ⟨-, ⟨f, hf, hle⟩, -⟩ := mem_contending.1 hi
  obtain ⟨p, e, -, -, rfl⟩ := doneAt_eq_some_iff.1 hf
  exact Nat.not_lt_zero e ((config.lt_timing p e).trans_le hle)

/-- The older records that publish. -/
def publishersBelow (t : Trace) (i : Nat) : List Nat :=
  (List.range i).filter t.publishes

/-- **A wait in which every cycle belongs to another older record is no longer than there are older
records.** -/
theorem wait_le_length {f : Nat}
    (hwait : ∀ cycle, f ≤ cycle → cycle < n →
      ∃ j ∈ t.publishersBelow i, t.cycleAt .cdb j = some cycle) :
    n - f ≤ (t.publishersBelow i).length := by
  let taken := (t.publishersBelow i).filterMap (t.cycleAt .cdb)
  have hsubset : List.range' f (n - f) ⊆ taken := by
    intro cycle hcycle
    rw [List.mem_range'_1] at hcycle
    exact List.mem_filterMap.2 (hwait cycle hcycle.1 (by omega))
  have hnodup : (List.range' f (n - f)).Nodup := List.nodup_range'
  calc n - f = (List.range' f (n - f)).length := List.length_range'.symm
    _ ≤ taken.length := (hnodup.subperm hsubset).length_le
    _ ≤ (t.publishersBelow i).length := List.length_filterMap_le ..

end Trace

/-! ## The bus in a run -/

/-- On the trace of a drained state the oldest contending record has the bus. -/
theorem Simulation.contending_head? {rs : List Record} {config : Config} {s₀ : Simulation} {T : Nat}
    (hs : ofTrace (Trace.ofList rs) config = .ok s₀)
    (haccepted : (Trace.ofList rs).Accepted config.registers)
    (hdrained : (s₀.after T).core.isDrained = true) (cycle i : Nat) :
    (s₀.after T).core.trace.cycleAt .cdb i = some cycle ↔
      ((s₀.after T).core.trace.contending config.timing cycle).head? = some i := by
  cases cycle with
  | zero =>
    rw [Trace.contending_zero]
    exact iff_of_false
      (fun h => Nat.lt_irrefl 0 ((valid_after hs T).timed.cycle_pos h)) nofun
  | succ n =>
    have hagrees := agrees_drained hs hdrained (n + 1)
    rw [← hagrees.cycleAt (Nat.le_refl _), ← hagrees.contending config (Nat.le_succ _)]
    exact (tick_ok hs haccepted n).2.cdb i

end Tomasulo
