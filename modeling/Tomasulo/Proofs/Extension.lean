import Tomasulo.Proofs.Comparison

/-!
# Proofs/Extension — a program that goes on

What records appended to a program do to those before them.  Stations are given out in program order
and the bus goes to the oldest, so younger records get in the way of older ones at the units only: a
unit that has been taken is not given back before its record is finished.  With a unit for every
station, or none of the pool among the appended records, the older records do not notice
(`schedule_append_of_uncontended`).  Otherwise their schedule may change, and it may even end
earlier (`schedule_append_shorter`), but then an appended record has held a unit for which an older
one waited (`schedule_append_singleton`).
-/

namespace Tomasulo

/-- A program begins like what it is continued to. -/
theorem Trace.beginsLike_append (rs ss : List Record) :
    (ofList (rs ++ ss)).BeginsLike (ofList rs) := by
  have hget {i : Nat} (hi : i < rs.length) : (ofList (rs ++ ss))[i]? = (ofList rs)[i]? := by
    rw [getElem?_ofList, getElem?_ofList, List.getElem?_append_left hi]
  have hclass {i : Nat} (hi : i < rs.length) :
      (ofList (rs ++ ss)).classAt i = (ofList rs).classAt i := by
    rw [classAt, hget hi, classAt]
  refine ⟨by simp, fun hi => hclass (by simpa using hi), fun {i p} hp w => ?_⟩
  have hi : i < rs.length := by simpa using lt_size_of_poolAt hp
  have hlatest : (ofList (rs ++ ss)).latestWriter i = (ofList rs).latestWriter i := by
    funext register
    rw [latestWriter, latestWriter]
    refine congrArg List.getLast? (List.filter_congr fun j hj => ?_)
    have hj' : j < rs.length := (List.mem_range.1 hj).trans hi
    rw [publishes, hclass hj', publishes, writesAt, hget hj', writesAt]
  have hsource (slot : Nat) :
      (ofList (rs ++ ss)).sourceAt i slot = (ofList rs).sourceAt i slot := by
    rw [sourceAt, inputAt, hget hi, hlatest, sourceAt, inputAt]
  simp only [DependsOn, hsource]

section Append

variable {rs ss : List Record} {config : Config}

/-- A continued program is accepted if what it is continued by is. -/
theorem Trace.Accepted.append {registers : Nat} (h : (Trace.ofList rs).Accepted registers)
    (hss : ∀ r ∈ ss, ∃ op, r.check registers = .ok op) :
    (Trace.ofList (rs ++ ss)).Accepted registers := by
  rw [Trace.accepted_ofList_iff] at h ⊢
  intro r hr
  rcases List.mem_append.1 hr with hr | hr
  · exact h r hr
  · exact hss r hr

/-- **Without contention for the units, younger records do not disturb older ones.**  If the pools
of all appended records have a unit for every station, the records before them have the same stamps
as without them, and the run takes no fewer cycles. -/
theorem schedule_append_of_uncontended (hconfig : config.check = .ok ())
    (haccepted : (Trace.ofList rs).Accepted config.registers)
    (hss : ∀ r ∈ ss, ∃ op, r.check config.registers = .ok op)
    (huncontended : ∀ p, (config.pools p).stations ≤ (config.pools p).units ∨
      ∀ r ∈ ss, r.class?.bind OpClass.pool ≠ some p) :
    ∃ T t T' t', schedule (Trace.ofList rs) config = .ok (T, t) ∧
      schedule (Trace.ofList (rs ++ ss)) config = .ok (T', t') ∧
      (∀ stage, ∀ i < rs.length, t'.cycleAt stage i = t.cycleAt stage i) ∧ T ≤ T' := by
  obtain ⟨T, t, -, -, h, -⟩ := exists_lawful hconfig haccepted
  obtain ⟨T', t', -, left', h', hprogram', hlawful', -⟩ :=
    exists_lawful hconfig (haccepted.append hss)
  refine ⟨T, t, T', t', h, h', schedule_follows rfl rfl h h' (Trace.beginsLike_append rs ss) ?_⟩
  rintro cycle i hi j hj ⟨p, hbusy, hwaiting, hstarted⟩
  rcases huncontended p with hunits | hpool
  · rw [hlawful'.started_eq_waiting hunits] at hstarted
    exact hstarted hwaiting
  · have hp := (Trace.mem_busy.1 hbusy).1
    rw [← Trace.poolAt_unscheduled, hprogram', Trace.poolAt, Trace.classAt_ofList,
      List.getElem?_append_right hj] at hp
    cases hr : ss[j - rs.length]? with
    | none =>
      rw [hr] at hp
      cases hp
    | some r =>
      rw [hr] at hp
      exact hpool r (List.mem_of_getElem? hr) hp

/-- An integer record that depends on nothing. -/
def latecomer : Record :=
  { op := OpClass.int.word, outputs := #v[some 3, none] }

/-- A machine with a unit for every station of the integer pool, but not of the other. -/
def wideMachine : Config :=
  { queue := 2, pools := ⟨⟨2, 2, 4⟩, ⟨2, 1, 7⟩⟩ }

/-- On the wide machine the latecomer and a branch leave the four records alone. -/
theorem schedule_append_of_uncontended_sample :
    ∃ T t T' t', schedule (Trace.ofList meetingProgram) wideMachine = .ok (T, t) ∧
      schedule (Trace.ofList (meetingProgram ++ [latecomer, { op := OpClass.branch.word }]))
        wideMachine = .ok (T', t') ∧
      (∀ stage, ∀ i < 4, t'.cycleAt stage i = t.cycleAt stage i) ∧ T ≤ T' := by
  refine schedule_append_of_uncontended (by decide) (by decide +kernel) ?_ fun p => ?_
  · simp only [List.mem_cons, List.not_mem_nil, or_false, forall_eq_or_imp, forall_eq]
    exact ⟨⟨.int, by decide⟩, ⟨.branch, by decide⟩⟩
  · cases p with
    | int => exact .inl (by decide)
    | fp => exact .inr (by decide)

/-- **Only a unit held in front of a waiting record shortens a run.**  A run to which one more
record is appended takes no fewer cycles, unless the new record holds a unit in a cycle in which an
older record of its pool waits for one and gets none. -/
theorem schedule_append_singleton {r : Record} (hconfig : config.check = .ok ())
    (haccepted : (Trace.ofList rs).Accepted config.registers)
    (hr : ∃ op, r.check config.registers = .ok op) :
    ∃ T t T' t', schedule (Trace.ofList rs) config = .ok (T, t) ∧
      schedule (Trace.ofList (rs ++ [r])) config = .ok (T', t') ∧
      (T ≤ T' ∨ ∃ cycle, ∃ i < rs.length, t'.Blocks config cycle rs.length i) := by
  have haccepted' : (Trace.ofList (rs ++ [r])).Accepted config.registers :=
    haccepted.append (by simpa using hr)
  obtain ⟨T, t, -, -, h, -⟩ := exists_lawful hconfig haccepted
  obtain ⟨T', t', -, -, h', hprogram', -⟩ := exists_lawful hconfig haccepted'
  refine ⟨T, t, T', t', h, h', or_iff_not_imp_right.2 fun hnone => ?_⟩
  refine (schedule_follows rfl rfl h h' (Trace.beginsLike_append rs [r]) ?_).2
  intro cycle i hi j hj hblocks
  have hsize : t'.size = rs.length + 1 := by
    rw [Trace.size_eq_of_unscheduled hprogram', Trace.size_ofList, List.length_append]
    rfl
  have hlt := hblocks.lt_size
  obtain rfl : j = rs.length := by omega
  exact hnone ⟨cycle, i, hi, hblocks⟩

/-- On the narrow machine the run with the latecomer takes 20 cycles instead of 21; the latecomer
has held the only integer unit while an older record waited for it. -/
theorem schedule_append_singleton_sample :
    ∃ t', schedule (Trace.ofList (meetingProgram ++ [latecomer])) narrowMachine = .ok (20, t') ∧
      ∃ cycle, ∃ i < 4, t'.Blocks narrowMachine cycle 4 i := by
  have hcycles : (schedule (Trace.ofList meetingProgram) narrowMachine).toOption.map Prod.fst =
      some 21 := by decide +kernel
  have hcycles' : (schedule (Trace.ofList (meetingProgram ++ [latecomer]))
      narrowMachine).toOption.map Prod.fst = some 20 := by decide +kernel
  obtain ⟨T, t, T', t', h, h', hblocks⟩ := @schedule_append_singleton meetingProgram narrowMachine
    latecomer (by decide) (by decide +kernel) ⟨.int, by decide⟩
  rw [h] at hcycles
  rw [h'] at hcycles'
  obtain rfl : T = 21 := Option.some.inj hcycles
  obtain rfl : T' = 20 := Option.some.inj hcycles'
  exact ⟨t', h', hblocks.resolve_left (by decide)⟩

/-- **A longer program may take fewer cycles.**  On the narrow machine the latecomer takes the only
integer unit before the load is ready.  So the load is done later, the first `fp` record does not
have to let it have the bus first, and the second one ends earlier. -/
theorem schedule_append_shorter :
    narrowMachine.check = .ok () ∧
      (Trace.ofList meetingProgram).Accepted narrowMachine.registers ∧
      latecomer.check narrowMachine.registers = .ok .int ∧
      (∃ t, schedule (Trace.ofList meetingProgram) narrowMachine = .ok (21, t)) ∧
      ∃ t', schedule (Trace.ofList (meetingProgram ++ [latecomer])) narrowMachine = .ok (20, t') :=
  ⟨by decide, by decide +kernel, by decide, exists_schedule_of_cycles (by decide +kernel),
    exists_schedule_of_cycles (by decide +kernel)⟩

end Append

end Tomasulo
