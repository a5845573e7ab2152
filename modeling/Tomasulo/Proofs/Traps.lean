import Mathlib.Tactic.IntervalCases
import Tomasulo.Proofs.Lockstep
import Tomasulo.Proofs.Placement

/-!
# Proofs/Traps — traps cost nothing

Taking the traps out of a program changes neither the length of its run nor the cycles of its other
records, and if the run fails it fails in the same cycle at the same record.  Only the indices
differ: `keptBefore` counts the records in front of a position that stay, and `placeOf` is its
inverse.
-/

namespace Tomasulo

/-- A program with its traps taken out. -/
def withoutTraps (rs : List Record) : List Record :=
  rs.filter fun r => r.class? ≠ some .trap

/-- The records in front of a position that are no traps; so many are in front of its record when
the traps are gone. -/
def keptBefore (rs : List Record) (i : Nat) : Nat :=
  (withoutTraps (rs.take i)).length

/-- Where the records that are no traps were; beyond the end the positions go on. -/
def placeOf : List Record → Nat → Nat
  | [], j => j
  | r :: rs, j =>
    if r.class? = some .trap then placeOf rs j + 1
    else
      match j with
      | 0 => 0
      | j + 1 => placeOf rs j + 1

/-! ## Positions with and without traps -/

section Positions

variable {r : Record} (rs : List Record)

theorem withoutTraps_cons_trap (h : r.class? = some .trap) :
    withoutTraps (r :: rs) = withoutTraps rs :=
  List.filter_cons_of_neg (by simpa using h)

theorem withoutTraps_cons (h : r.class? ≠ some .trap) :
    withoutTraps (r :: rs) = r :: withoutTraps rs :=
  List.filter_cons_of_pos (by simpa using h)

theorem placeOf_cons_trap (h : r.class? = some .trap) (j : Nat) :
    placeOf (r :: rs) j = placeOf rs j + 1 := by
  cases j <;> rw [placeOf, if_pos h]

theorem placeOf_cons_zero (h : r.class? ≠ some .trap) : placeOf (r :: rs) 0 = 0 := by
  rw [placeOf, if_neg h]

theorem placeOf_cons_succ (h : r.class? ≠ some .trap) (j : Nat) :
    placeOf (r :: rs) (j + 1) = placeOf rs j + 1 := by
  rw [placeOf, if_neg h]

theorem strictMono_placeOf : StrictMono (placeOf rs) := by
  refine strictMono_nat_of_lt_succ fun j => ?_
  induction rs generalizing j with
  | nil => exact Nat.lt_succ_self j
  | cons r rs ih =>
    by_cases h : r.class? = some .trap
    · rw [placeOf_cons_trap rs h, placeOf_cons_trap rs h]
      exact Nat.succ_lt_succ (ih j)
    · rw [placeOf_cons_succ rs h]
      cases j with
      | zero => rw [placeOf_cons_zero rs h]; exact Nat.succ_pos _
      | succ j => rw [placeOf_cons_succ rs h]; exact Nat.succ_lt_succ (ih j)

/-- **What is left has come from its place.** -/
theorem getElem?_placeOf (j : Nat) : rs[placeOf rs j]? = (withoutTraps rs)[j]? := by
  induction rs generalizing j with
  | nil => rfl
  | cons r rs ih =>
    by_cases h : r.class? = some .trap
    · rw [placeOf_cons_trap rs h, withoutTraps_cons_trap rs h, List.getElem?_cons_succ, ih]
    · rw [withoutTraps_cons rs h]
      cases j with
      | zero => rw [placeOf_cons_zero rs h, List.getElem?_cons_zero, List.getElem?_cons_zero]
      | succ j =>
        rw [placeOf_cons_succ rs h, List.getElem?_cons_succ, List.getElem?_cons_succ, ih]

theorem placeOf_lt_length (j : Nat) :
    placeOf rs j < rs.length ↔ j < (withoutTraps rs).length := by
  rw [← not_iff_not, Nat.not_lt, Nat.not_lt, ← List.getElem?_eq_none_iff,
    ← List.getElem?_eq_none_iff, getElem?_placeOf]

variable {rs}

/-- **Every record that is no trap is at its place**, in front of which so many have been kept. -/
theorem placeOf_keptBefore {i : Nat} (hr : rs[i]? = some r) (h : r.class? ≠ some .trap) :
    placeOf rs (keptBefore rs i) = i := by
  induction rs generalizing i with
  | nil => cases hr
  | cons x rs ih =>
    cases i with
    | zero =>
      obtain rfl := Option.some.inj hr
      exact placeOf_cons_zero rs h
    | succ i =>
      have hi := ih hr
      by_cases hx : x.class? = some .trap
      · have hkept : keptBefore (x :: rs) (i + 1) = keptBefore rs i := by
          rw [keptBefore, List.take_succ_cons, withoutTraps_cons_trap _ hx, keptBefore]
        rw [hkept, placeOf_cons_trap rs hx, hi]
      · have hkept : keptBefore (x :: rs) (i + 1) = keptBefore rs i + 1 := by
          rw [keptBefore, List.take_succ_cons, withoutTraps_cons _ hx, List.length_cons, keptBefore]
        rw [hkept, placeOf_cons_succ rs hx, hi]

theorem keptBefore_placeOf {j : Nat} (hr : (withoutTraps rs)[j]? = some r) :
    keptBefore rs (placeOf rs j) = j := by
  have hkept : r.class? ≠ some .trap := by
    simpa using (List.mem_filter.1 (List.mem_of_getElem? hr)).2
  exact (strictMono_placeOf rs).injective
    (placeOf_keptBefore ((getElem?_placeOf rs j).trans hr) hkept)

end Positions

/-- The traces of a program and of the program without its traps. -/
theorem omitsTraps_ofList (rs : List Record) :
    Trace.OmitsTraps (placeOf rs) (Trace.ofList rs) (Trace.ofList (withoutTraps rs)) where
  ascending := strictMono_placeOf rs
  lt_size j := by
    rw [Trace.size_ofList, Trace.size_ofList, placeOf_lt_length]
  record {j r} hr := by
    rw [Trace.getElem?_ofList, Option.map_eq_some_iff] at hr
    obtain ⟨s, hs, rfl⟩ := hr
    rw [Trace.getElem?_ofList, getElem?_placeOf, hs]
    simp [Record.renumber, Record.unscheduled, Operands.empty]
  kept j hclass := by
    rw [Trace.classAt_ofList, Option.bind_eq_some_iff] at hclass
    obtain ⟨r, hr, htrap⟩ := hclass
    simpa [htrap] using (List.mem_filter.1 (List.mem_of_getElem? hr)).2
  omitted {i} hi hnone := by
    rw [Trace.size_ofList] at hi
    obtain ⟨r, hr⟩ : ∃ r, rs[i]? = some r := ⟨rs[i], List.getElem?_eq_getElem hi⟩
    rw [Trace.classAt_ofList, hr, Option.bind_some]
    by_contra htrap
    exact hnone _ (placeOf_keptBefore hr htrap)

/-! ## Runs with and without traps -/

section Runs

variable {rs : List Record} {config : Config}

/-- A trap has no part in the schedule. -/
theorem untouched_of_trap {T i : Nat} {t : Trace} {r : Record}
    (h : schedule (Trace.ofList rs) config = .ok (T, t)) (hr : rs[i]? = some r)
    (htrap : r.class? = some .trap) :
    (∀ stage, t.cycleAt stage i = none) ∧ ∀ slot, t.producerAt i slot = none := by
  obtain ⟨s₀, hs, -, -, rfl, -⟩ := schedule_eq_ok h
  have hvalid := Simulation.valid_after hs T
  have hsched : (Trace.ofList rs).isScheduled i = false := by
    rw [Trace.isScheduled, Trace.classAt_ofList, hr, Option.bind_some, htrap]
    rfl
  have huntouched := hvalid.sound.isUntouched hvalid.renamed (i := i) (by simp [hsched])
  exact ⟨huntouched.cycleAt, huntouched.producerAt⟩

/-- **Traps are free.**  With acceptable records a program takes as many cycles as it does without
its traps, every other record enters every stage in the same cycle, and a trap enters none and waits
for nothing.  With a record that the machine refuses both runs stop in the same cycle at the same
record. -/
theorem schedule_withoutTraps (hconfig : config.check = .ok ()) :
    ((∀ r ∈ rs, r.class? ≠ some .trap → ∃ op, r.check config.registers = .ok op) →
      ∃ T t t', schedule (Trace.ofList rs) config = .ok (T, t) ∧
        schedule (Trace.ofList (withoutTraps rs)) config = .ok (T, t') ∧
        ∀ i r, rs[i]? = some r →
          (r.class? ≠ some .trap →
            ∀ stage, t.cycleAt stage i = t'.cycleAt stage (keptBefore rs i)) ∧
          (r.class? = some .trap →
            (∀ stage, t.cycleAt stage i = none) ∧ ∀ slot, t.producerAt i slot = none)) ∧
    ((∃ r ∈ rs, ∃ reason, r.check config.registers = .error reason) →
      ∃ n i r reason reason', rs[i]? = some r ∧ (withoutTraps rs)[keptBefore rs i]? = some r ∧
        { r with index := i }.check config.registers = .error reason ∧
        { r with index := keptBefore rs i }.check config.registers = .error reason' ∧
        schedule (Trace.ofList rs) config = .error (.halted n (.rejected reason)) ∧
        schedule (Trace.ofList (withoutTraps rs)) config =
          .error (.halted n (.rejected reason'))) := by
  have ht := omitsTraps_ofList rs
  refine ⟨fun hvalid => ?_, fun ⟨r, hr, reason, hinvalid⟩ => ?_⟩
  · have haccepted : (Trace.ofList (withoutTraps rs)).Accepted config.registers :=
      Trace.accepted_ofList_iff.2 fun r hr =>
        hvalid r (List.mem_of_mem_filter hr) (by simpa using (List.mem_filter.1 hr).2)
    rcases schedules_cases hconfig ht with ⟨T, t, t', h, h', hrecord⟩ | ⟨n, reason, -, h'⟩
    · refine ⟨T, t, t', h, h', fun i r hr => ⟨fun hkept stage => ?_, untouched_of_trap h hr⟩⟩
      have hplace := placeOf_keptBefore hr hkept
      have hlt : keptBefore rs i < (withoutTraps rs).length := by
        rw [← placeOf_lt_length, hplace]
        exact (List.getElem?_eq_some_iff.1 hr).1
      obtain ⟨s, hs', hs⟩ := hrecord _ hlt
      rw [hplace] at hs
      rw [Trace.cycleAt_of_getElem? hs, Trace.cycleAt_of_getElem? hs']
      rfl
    · exact absurd (refused_of_schedule hconfig h') (haccepted.not_refused reason)
  · rcases schedules_cases hconfig ht with ⟨T, t, t', h, -⟩ | ⟨n, reason', h, h'⟩
    · obtain ⟨-, -, haccepted, -⟩ := schedule_eq_ok h
      obtain ⟨op, hop⟩ := Trace.accepted_ofList_iff.1 haccepted r hr
      cases hinvalid.symm.trans hop
    · obtain ⟨j, s, hs, hcheck⟩ :=
        Trace.refused_ofList_iff.1 (refused_of_schedule hconfig h')
      have hplace : rs[placeOf rs j]? = some s := (getElem?_placeOf rs j).trans hs
      have hcheck' := Record.check_renumber (φ := placeOf rs) { s with index := j } config.registers
      rw [hcheck] at hcheck'
      have hkept := keptBefore_placeOf hs
      exact ⟨n, placeOf rs j, s, _, reason', hplace, hkept.symm ▸ hs, hcheck', hkept.symm ▸ hcheck,
        h, h'⟩

/-- The small program has a trap at position 1; what has no class stops both runs. -/
theorem schedule_withoutTraps_sample :
    smallMachine.check = .ok () ∧
    (∃ T t t', schedule (Trace.ofList sampleProgram) smallMachine = .ok (T, t) ∧
      schedule (Trace.ofList (withoutTraps sampleProgram)) smallMachine = .ok (T, t') ∧
      (∀ stage, t.cycleAt stage 1 = none) ∧ ∀ stage, t.cycleAt stage 5 = t'.cycleAt stage 4) ∧
    ∃ n, schedule (Trace.ofList (sampleProgram ++ [unknownRecord])) smallMachine =
        .error (.halted n (.rejected (.unknownClass 6 ⟨0⟩))) ∧
      schedule (Trace.ofList (withoutTraps (sampleProgram ++ [unknownRecord]))) smallMachine =
        .error (.halted n (.rejected (.unknownClass 5 ⟨0⟩))) := by
  have hconfig : smallMachine.check = .ok () := by decide
  refine ⟨hconfig, ?_, ?_⟩
  · have haccepted := Trace.accepted_ofList_iff.1
      (show (Trace.ofList sampleProgram).Accepted smallMachine.registers by decide +kernel)
    obtain ⟨T, t, t', h, h', hcycles⟩ :=
      (schedule_withoutTraps hconfig).1 fun r hr _ => haccepted r hr
    exact ⟨T, t, t', h, h', ((hcycles 1 _ rfl).2 (by decide)).1, (hcycles 5 _ rfl).1 (by decide)⟩
  · obtain ⟨n, i, r, reason, reason', hr, -, hc, hc', h, h'⟩ :=
      (@schedule_withoutTraps (sampleProgram ++ [unknownRecord]) _ hconfig).2
        ⟨unknownRecord, by simp, .unknownClass 0 ⟨0⟩, by decide⟩
    have hi : i < 7 := (List.getElem?_eq_some_iff.1 hr).1
    have hlast : i = 6 := by
      by_contra hne
      have hlt : i < 6 := by omega
      interval_cases i <;> cases hr <;> cases hc
    subst hlast
    cases hr
    cases hc
    cases hc'
    exact ⟨n, h, h'⟩

end Runs

end Tomasulo
