import Mathlib.Data.List.Induction
import Tomasulo.Trace

/-!
# Proofs/Columns — a trace read column by column

A run never changes what a record *is*, only its schedule.  The program of a trace is the trace
without its schedule; its columns (`classAt`, `writesAt`, `inputAt`) are constants of a run.  The
columns of the schedule (`cycleAt`, `producerAt`) change in three ways only: a stage is stamped, the
sources of a record are renamed, a producer is resolved.
-/

namespace Tomasulo

namespace Trace

/-! ## The program -/

/-- The class of the record at a position. -/
def classAt (t : Trace) (i : Nat) : Option OpClass :=
  t[i]?.bind Record.class?

/-- The pool of the record at a position. -/
def poolAt (t : Trace) (i : Nat) : Option Pool :=
  (t.classAt i).bind OpClass.pool

/-- The record at a position publishes a result on the bus. -/
def publishes (t : Trace) (i : Nat) : Bool :=
  (t.classAt i).any OpClass.broadcasts

/-- The record at a position takes part in scheduling: its class is known and it is no trap. -/
def isScheduled (t : Trace) (i : Nat) : Bool :=
  (t.classAt i).any (· != .trap)

/-- The registers that the record at a position writes. -/
def writesAt (t : Trace) (i : Nat) : List Nat :=
  (t[i]?.map Record.writes).getD []

/-- The register in a source slot of the record at a position. -/
def inputAt (t : Trace) (i slot : Nat) : Option Nat :=
  t[i]?.bind (·.inputs[slot]?.join)

/-- The index of every record is its position. -/
def Numbered (t : Trace) : Prop :=
  ∀ (i : Nat) (r : Record), t[i]? = some r → r.index = i

/-- Every record passes the check of a machine with this many registers. -/
def Accepted (t : Trace) (registers : Nat) : Prop :=
  ∀ r ∈ t.toList, ∃ op, r.check registers = .ok op

/-- Some record fails the check of a machine with this many registers, for this reason. -/
def Refused (t : Trace) (registers : Nat) (reason : Rejection) : Prop :=
  ∃ r ∈ t.toList, r.check registers = .error reason

/-- The positions below a bound whose records take part in scheduling, in program order. -/
def scheduledBelow (t : Trace) (bound : Nat) : List Nat :=
  (List.range bound).filter t.isScheduled

/-- The positions of the records that take part in scheduling, in program order. -/
def order (t : Trace) : List Nat :=
  t.scheduledBelow t.size

instance (t : Trace) (registers : Nat) : Decidable (t.Accepted registers) :=
  decidable_of_iff (t.toList.all fun r => (r.check registers).isOk) <| by
    rw [List.all_eq_true]
    refine forall₂_congr fun r _ => ?_
    cases r.check registers <;> simp [Except.isOk, Except.toBool]

/-- A trace whose records are all accepted is refused for no reason. -/
theorem Accepted.not_refused {t : Trace} {registers : Nat} (h : t.Accepted registers)
    (reason : Rejection) : ¬ t.Refused registers reason := by
  rintro ⟨r, hr, hcheck⟩
  obtain ⟨op, hop⟩ := h r hr
  rw [hop] at hcheck
  cases hcheck

theorem mem_toList_of_getElem? {t : Trace} {i : Nat} {r : Record} (h : t[i]? = some r) :
    r ∈ t.toList :=
  Array.mem_toList_iff.2 (Array.mem_of_getElem? h)

/-- The pool of a record is the pool of its class. -/
theorem poolAt_eq_some_iff {t : Trace} {i : Nat} {p : Pool} :
    t.poolAt i = some p ↔ ∃ op, t.classAt i = some op ∧ op.pool = some p := by
  simp [poolAt, Option.bind_eq_some_iff]

/-- A record publishes if its class does. -/
theorem publishes_iff {t : Trace} {i : Nat} :
    t.publishes i = true ↔ ∃ op, t.classAt i = some op ∧ op.broadcasts = true := by
  simp [publishes, Option.any_eq_true]

/-- Scheduled is what has a class other than trap. -/
theorem isScheduled_iff {t : Trace} {i : Nat} :
    t.isScheduled i = true ↔ ∃ op, t.classAt i = some op ∧ op ≠ .trap := by
  simp [isScheduled, Option.any_eq_true]

/-- A record with a pool takes part in scheduling. -/
theorem isScheduled_of_poolAt {t : Trace} {i : Nat} {p : Pool} (h : t.poolAt i = some p) :
    t.isScheduled i = true := by
  obtain ⟨op, hop, hp⟩ := poolAt_eq_some_iff.1 h
  refine isScheduled_iff.2 ⟨op, hop, ?_⟩
  rintro rfl
  simp [OpClass.pool] at hp

/-- A publishing record has a pool. -/
theorem exists_poolAt_of_publishes {t : Trace} {i : Nat} (h : t.publishes i = true) :
    ∃ p, t.poolAt i = some p := by
  obtain ⟨op, hop, hb⟩ := publishes_iff.1 h
  obtain ⟨p, hp⟩ := Option.isSome_iff_exists.1 (OpClass.isSome_pool_of_broadcasts hb)
  exact ⟨p, poolAt_eq_some_iff.2 ⟨op, hop, hp⟩⟩

/-- Stores wait in the integer pool. -/
theorem poolAt_of_store {t : Trace} {i : Nat} (h : t.classAt i = some .store) :
    t.poolAt i = some .int :=
  poolAt_eq_some_iff.2 ⟨.store, h, rfl⟩

/-- Stores publish nothing. -/
theorem not_publishes_of_store {t : Trace} {i : Nat} (h : t.classAt i = some .store) :
    ¬ t.publishes i = true := by
  rw [publishes, h]
  exact Bool.noConfusion

/-- What has a pool publishes, unless it is a store. -/
theorem store_of_not_publishes {t : Trace} {i : Nat} {p : Pool} (hp : t.poolAt i = some p)
    (hi : ¬ t.publishes i = true) : t.classAt i = some .store ∧ p = .int := by
  obtain ⟨op, hop, hpool⟩ := poolAt_eq_some_iff.1 hp
  rw [publishes, hop] at hi
  cases op <;> simp_all [OpClass.broadcasts, OpClass.pool]

/-- The scheduled records below a bound are just those. -/
theorem mem_scheduledBelow {t : Trace} {bound i : Nat} :
    i ∈ t.scheduledBelow bound ↔ i < bound ∧ t.isScheduled i = true := by
  simp [scheduledBelow]

/-- Scheduled records are listed by index. -/
theorem pairwise_scheduledBelow (t : Trace) (bound : Nat) :
    (t.scheduledBelow bound).Pairwise (· < ·) :=
  List.pairwise_lt_range.filter _

/-- One more index adds its record at the end, if that is scheduled. -/
theorem scheduledBelow_succ (t : Trace) (bound : Nat) :
    t.scheduledBelow (bound + 1) =
      t.scheduledBelow bound ++ if t.isScheduled bound then [bound] else [] := by
  rw [scheduledBelow, List.range_succ, List.filter_append]
  congr 1
  by_cases h : t.isScheduled bound = true <;> simp [h]

/-- A record of known class is there. -/
theorem lt_size_of_classAt {t : Trace} {i : Nat} {op : OpClass} (h : t.classAt i = some op) :
    i < t.size := by
  obtain ⟨r, hr, -⟩ := Option.bind_eq_some_iff.1 h
  exact (Array.getElem?_eq_some_iff.1 hr).1

/-- Only records of the trace have a pool. -/
theorem lt_size_of_poolAt {t : Trace} {i : Nat} {p : Pool} (h : t.poolAt i = some p) :
    i < t.size := by
  obtain ⟨op, hop, -⟩ := poolAt_eq_some_iff.1 h
  exact lt_size_of_classAt hop

/-- Only records of the trace are scheduled. -/
theorem lt_size_of_isScheduled {t : Trace} {i : Nat} (h : t.isScheduled i = true) :
    i < t.size := by
  obtain ⟨op, hop, -⟩ := isScheduled_iff.1 h
  exact lt_size_of_classAt hop

/-- The order lists every record that takes part. -/
theorem mem_order {t : Trace} {i : Nat} : i ∈ t.order ↔ t.isScheduled i = true :=
  mem_scheduledBelow.trans (and_iff_right_of_imp lt_size_of_isScheduled)

/-- Program order is the order of the indices. -/
theorem pairwise_order (t : Trace) : t.order.Pairwise (· < ·) :=
  t.pairwise_scheduledBelow t.size

/-- What lies below a bound comes first. -/
theorem scheduledBelow_initial (t : Trace) {bound : Nat} (hle : bound ≤ t.size) :
    t.scheduledBelow bound <+: t.order := by
  have htake : List.range bound = (List.range t.size).take bound := by
    rw [List.take_range, Nat.min_eq_left hle]
  rw [order, scheduledBelow, scheduledBelow, htake]
  have hinitial : (List.range t.size).take bound <+: List.range t.size := List.take_prefix ..
  exact hinitial.filter _

theorem lt_size_of_getElem? {t : Trace} {i : Nat} {r : Record} (h : t[i]? = some r) :
    i < t.size :=
  (Array.getElem?_eq_some_iff.1 h).1

theorem exists_getElem? {t : Trace} {i : Nat} (h : i < t.size) : ∃ r, t[i]? = some r :=
  ⟨t.records[i], Array.getElem?_eq_getElem h⟩

theorem getElem?_eq_none {t : Trace} {i : Nat} (h : ¬ i < t.size) : t[i]? = none :=
  Array.getElem?_eq_none (Nat.le_of_not_lt h)

/-! ## The schedule -/

/-- The cycle in which the record at a position entered a stage. -/
def cycleAt (t : Trace) (stage : Stage) (i : Nat) : Option Nat :=
  t[i]?.bind (·.stamps.cycleOf stage)

/-- The record that a source slot of the record at a position waits for. -/
def producerAt (t : Trace) (i slot : Nat) : Option Nat :=
  t[i]?.bind (·.producers[slot]?.join)

/-- The trace with a stage of one record stamped. -/
def stamped (t : Trace) (stage : Stage) (now i : Nat) : Trace :=
  t.modify i fun r => { r with stamps := r.stamps.set stage (some now) }

/-- The trace with the producers of one record replaced. -/
def renamed (t : Trace) (i : Nat) (producers : Operands maxInputs) : Trace :=
  t.modify i ({ · with producers })

/-- The trace in which these records wait for `done` no longer. -/
def resolved (t : Trace) (done : Nat) (waiting : List Nat) : Trace :=
  waiting.foldl (fun t i => t.modify i (Record.resolve done)) t

/-! ### What stays -/

/-- Traces with the same record at each index are the same. -/
theorem ext_getElem? {t u : Trace} (h : ∀ i : Nat, t[i]? = u[i]?) : t = u := by
  obtain ⟨a⟩ := t
  obtain ⟨b⟩ := u
  congr 1
  exact Array.ext_getElem? h

/-- **A trace is its program and its schedule.** -/
theorem ext_columns {t u : Trace} (hprogram : t.unscheduled = u.unscheduled)
    (hcycle : ∀ stage i, t.cycleAt stage i = u.cycleAt stage i)
    (hproducer : ∀ i slot, t.producerAt i slot = u.producerAt i slot) : t = u := by
  refine ext_getElem? fun i => ?_
  have hrecord : t[i]?.map Record.unscheduled = u[i]?.map Record.unscheduled := by
    rw [← getElem?_unscheduled, hprogram, getElem?_unscheduled]
  have hstamps (stage : Stage) := hcycle stage i
  have hproducers (slot : Nat) := hproducer i slot
  simp only [cycleAt, producerAt] at hstamps hproducers
  cases ht : t[i]? <;> cases hu : u[i]? <;> simp_all
  exact Record.ext_unscheduled hrecord hstamps hproducers

/-- A change that leaves the program part of a record leaves that of the trace. -/
theorem unscheduled_modify (t : Trace) (i : Nat) {f : Record → Record}
    (hf : ∀ r, (f r).unscheduled = r.unscheduled) :
    (t.modify i f).unscheduled = t.unscheduled := by
  refine ext_getElem? fun j => ?_
  rw [getElem?_unscheduled, getElem?_unscheduled, getElem?_modify]
  split
  · cases t[j]? <;> simp [hf]
  · rfl

@[simp] theorem unscheduled_stamped (t : Trace) (stage : Stage) (now i : Nat) :
    (t.stamped stage now i).unscheduled = t.unscheduled :=
  unscheduled_modify t i fun _ => rfl

@[simp] theorem unscheduled_renamed (t : Trace) (i : Nat) (producers : Operands maxInputs) :
    (t.renamed i producers).unscheduled = t.unscheduled :=
  unscheduled_modify t i fun _ => rfl

@[simp] theorem unscheduled_resolved (t : Trace) (done : Nat) (waiting : List Nat) :
    (t.resolved done waiting).unscheduled = t.unscheduled := by
  induction waiting generalizing t with
  | nil => rfl
  | cons i is ih => exact (ih _).trans (unscheduled_modify t i fun _ => rfl)

/-- A trace is as long as its program. -/
theorem size_eq_of_unscheduled {t u : Trace} (h : t.unscheduled = u) : t.size = u.size := by
  rw [← h, size_unscheduled]

/-- The record of the program behind the record of a trace. -/
theorem getElem?_of_unscheduled {t u : Trace} (h : t.unscheduled = u) {i : Nat} {r : Record}
    (hr : t[i]? = some r) : u[i]? = some r.unscheduled := by
  rw [← h, getElem?_unscheduled, hr]
  rfl

/-- Classes belong to the program. -/
theorem classAt_unscheduled (t : Trace) : t.unscheduled.classAt = t.classAt := by
  funext i
  simp only [classAt, getElem?_unscheduled]
  cases t[i]? <;> rfl

theorem poolAt_unscheduled (t : Trace) : t.unscheduled.poolAt = t.poolAt := by
  funext i
  rw [poolAt, classAt_unscheduled, poolAt]

theorem publishes_unscheduled (t : Trace) : t.unscheduled.publishes = t.publishes := by
  funext i
  rw [publishes, classAt_unscheduled, publishes]

theorem isScheduled_unscheduled (t : Trace) : t.unscheduled.isScheduled = t.isScheduled := by
  funext i
  rw [isScheduled, classAt_unscheduled, isScheduled]

theorem writesAt_unscheduled (t : Trace) : t.unscheduled.writesAt = t.writesAt := by
  funext i
  simp only [writesAt, getElem?_unscheduled]
  cases t[i]? <;> rfl

theorem inputAt_unscheduled (t : Trace) : t.unscheduled.inputAt = t.inputAt := by
  funext i slot
  simp only [inputAt, getElem?_unscheduled]
  cases t[i]? <;> rfl

/-! ### What changes -/

/-- The cycle of a record stands in its stamps. -/
theorem cycleAt_of_getElem? {t : Trace} {i : Nat} {r : Record} (h : t[i]? = some r)
    (stage : Stage) : t.cycleAt stage i = r.stamps.cycleOf stage := by
  simp [cycleAt, h]

/-- Only records of the trace are stamped. -/
theorem lt_size_of_cycleAt {t : Trace} {stage : Stage} {i n : Nat}
    (h : t.cycleAt stage i = some n) : i < t.size := by
  obtain ⟨r, hr, -⟩ := Option.bind_eq_some_iff.1 h
  exact lt_size_of_getElem? hr

/-- A change that leaves the stamps of a record leaves those of the trace. -/
theorem cycleAt_modify {t : Trace} {i : Nat} {f : Record → Record}
    (hf : ∀ r, (f r).stamps = r.stamps) (stage : Stage) (j : Nat) :
    (t.modify i f).cycleAt stage j = t.cycleAt stage j := by
  simp only [cycleAt, getElem?_modify]
  split
  · cases t[j]? <;> simp [hf]
  · rfl

/-- **A stamp shows at its own stage and record only.** -/
theorem cycleAt_stamped {t : Trace} {i : Nat} (h : i < t.size) (stage : Stage) (now : Nat)
    (stage' : Stage) (j : Nat) :
    (t.stamped stage now i).cycleAt stage' j =
      if j = i ∧ stage' = stage then some now else t.cycleAt stage' j := by
  simp only [cycleAt, stamped, getElem?_modify]
  by_cases hj : i = j
  · subst hj
    obtain ⟨r, hr⟩ := exists_getElem? h
    simp [hr]
  · simp [hj, Ne.symm hj]

/-- A stamp for one stage leaves the others as they are. -/
theorem cycleAt_stamped_of_ne {stage stage' : Stage} (h : stage' ≠ stage) (t : Trace)
    (now i j : Nat) : (t.stamped stage now i).cycleAt stage' j = t.cycleAt stage' j := by
  simp only [cycleAt, stamped, getElem?_modify]
  split
  · cases t[j]? <;> simp [h]
  · rfl

/-- After a stamp just one more record may have passed the stage. -/
theorem isSome_stamped_iff {t : Trace} {i : Nat} (h : i < t.size) (stage : Stage) (now j : Nat) :
    ((t.stamped stage now i).cycleAt stage j).isSome = true ↔
      j = i ∨ (t.cycleAt stage j).isSome = true := by
  rw [cycleAt_stamped h]
  by_cases hj : j = i <;> simp [hj]

@[simp] theorem cycleAt_renamed (t : Trace) (i : Nat) (producers : Operands maxInputs)
    (stage : Stage) (j : Nat) :
    (t.renamed i producers).cycleAt stage j = t.cycleAt stage j :=
  cycleAt_modify (f := ({ · with producers })) (fun _ => rfl) stage j

@[simp] theorem cycleAt_resolved (t : Trace) (done : Nat) (waiting : List Nat)
    (stage : Stage) (j : Nat) :
    (t.resolved done waiting).cycleAt stage j = t.cycleAt stage j := by
  induction waiting generalizing t with
  | nil => rfl
  | cons i is ih =>
    exact (ih _).trans (cycleAt_modify (f := Record.resolve done) (fun _ => rfl) stage j)

@[simp] theorem producerAt_stamped (t : Trace) (stage : Stage) (now i j slot : Nat) :
    (t.stamped stage now i).producerAt j slot = t.producerAt j slot := by
  simp only [producerAt, stamped, getElem?_modify]
  split
  · cases t[j]? <;> rfl
  · rfl

/-- **A renaming shows at its own record only.** -/
theorem producerAt_renamed {t : Trace} {i : Nat} (h : i < t.size)
    (producers : Operands maxInputs) (j slot : Nat) :
    (t.renamed i producers).producerAt j slot =
      if j = i then producers[slot]?.join else t.producerAt j slot := by
  simp only [producerAt, renamed, getElem?_modify]
  by_cases hj : i = j
  · subst hj
    obtain ⟨r, hr⟩ := exists_getElem? h
    simp [hr]
  · simp [hj, Ne.symm hj]

/-- Where a record is resolved, its slots forget the result that is there. -/
theorem producerAt_modify_resolve (t : Trace) (done i j slot : Nat) :
    (t.modify i (Record.resolve done)).producerAt j slot =
      if j = i ∧ t.producerAt j slot = some done then none else t.producerAt j slot := by
  simp only [producerAt, getElem?_modify]
  by_cases hj : i = j
  · subst hj
    by_cases hi : i < t.size
    · obtain ⟨r, hr⟩ := exists_getElem? hi
      simp only [hr, if_true, Option.map_some, Option.bind_some, Record.resolve,
        Vector.getElem?_map, true_and]
      rcases r.producers[slot]? with _ | q <;> simp
    · simp [getElem?_eq_none hi]
  · simp [hj, Ne.symm hj]

/-- **Resolving a producer empties exactly the slots that wait for it.** -/
theorem producerAt_resolved (t : Trace) (done : Nat) (waiting : List Nat) (j slot : Nat) :
    (t.resolved done waiting).producerAt j slot =
      if j ∈ waiting ∧ t.producerAt j slot = some done then none else t.producerAt j slot := by
  induction waiting generalizing t with
  | nil => simp [resolved]
  | cons i is ih =>
    have hstep : t.resolved done (i :: is) = (t.modify i (Record.resolve done)).resolved done is :=
      rfl
    rw [hstep, ih, producerAt_modify_resolve]
    by_cases hj : j = i <;> by_cases hd : t.producerAt j slot = some done <;>
      by_cases his : j ∈ is <;> simp_all

/-! ## Appended traces -/

/-- An appended record is the last one. -/
theorem getElem?_append (t : Trace) (r : Record) (i : Nat) : (t.append r)[i]? =
    if i = t.size then some { r.unscheduled with index := t.size } else t[i]? := by
  change (t.records.push _)[i]? = if i = t.records.size then _ else t.records[i]?
  exact Array.getElem?_push

theorem ofList_append (rs : List Record) (r : Record) :
    ofList (rs ++ [r]) = (ofList rs).append r := by
  simp [ofList]

@[simp] theorem size_ofList (rs : List Record) : (ofList rs).size = rs.length := by
  induction rs using List.reverseRecOn with
  | nil => rfl
  | append_singleton rs r ih => rw [ofList_append, size_append, ih, List.length_append]; rfl

/-- The records of an appended trace. -/
theorem getElem?_ofList (rs : List Record) (i : Nat) :
    (ofList rs)[i]? = rs[i]?.map fun r => { r.unscheduled with index := i } := by
  induction rs using List.reverseRecOn with
  | nil => rfl
  | append_singleton rs r ih =>
    rw [ofList_append, getElem?_append, size_ofList]
    split
    · next hi => simp [hi]
    · next hi =>
      rw [ih]
      rcases Nat.lt_or_gt_of_ne hi with hlt | hgt
      · rw [List.getElem?_append_left hlt]
      · rw [List.getElem?_eq_none (Nat.le_of_lt hgt),
          List.getElem?_eq_none (by rw [List.length_append]; exact hgt)]

/-- An appended trace is its own program. -/
@[simp] theorem unscheduled_ofList (rs : List Record) : (ofList rs).unscheduled = ofList rs := by
  refine ext_getElem? fun i => ?_
  rw [getElem?_unscheduled, getElem?_ofList, Option.map_map]
  rfl

/-- Whether the machine takes a record does not depend on where it is. -/
theorem check_at_eq_ok_iff {r : Record} {registers : Nat} {op : OpClass} (i : Nat) :
    { r.unscheduled with index := i }.check registers = .ok op ↔ r.check registers = .ok op := by
  rw [Record.check_eq_ok_iff, Record.check_eq_ok_iff]
  rfl

/-- So a program is accepted if its records are. -/
theorem accepted_ofList_iff {rs : List Record} {registers : Nat} :
    (ofList rs).Accepted registers ↔ ∀ r ∈ rs, ∃ op, r.check registers = .ok op := by
  constructor
  · intro h r hr
    obtain ⟨i, hi⟩ := List.getElem?_of_mem hr
    have hget := (getElem?_ofList rs i).trans (congrArg _ hi)
    obtain ⟨op, hop⟩ := h _ (mem_toList_of_getElem? hget)
    exact ⟨op, (check_at_eq_ok_iff i).1 hop⟩
  · intro h x hx
    obtain ⟨i, hi⟩ := Array.getElem?_of_mem (Array.mem_toList_iff.1 hx)
    obtain ⟨r, hr, rfl⟩ := Option.map_eq_some_iff.1 ((getElem?_ofList rs i).symm.trans hi)
    obtain ⟨op, hop⟩ := h r (List.mem_of_getElem? hr)
    exact ⟨op, (check_at_eq_ok_iff i).2 hop⟩

/-- A program is refused for one of its records under the index that is its position. -/
theorem refused_ofList_iff {rs : List Record} {registers : Nat} {reason : Rejection} :
    (ofList rs).Refused registers reason ↔
      ∃ (i : Nat) (r : Record), rs[i]? = some r ∧
        { r with index := i }.check registers = .error reason := by
  constructor
  · rintro ⟨s, hs, hcheck⟩
    obtain ⟨i, hi⟩ := List.getElem?_of_mem hs
    have hget : (ofList rs)[i]? = some s := by
      rw [← hi]
      exact (Array.getElem?_toList ..).symm
    rw [getElem?_ofList, Option.map_eq_some_iff] at hget
    obtain ⟨r, hr, rfl⟩ := hget
    exact ⟨i, r, hr, hcheck⟩
  · rintro ⟨i, r, hr, hcheck⟩
    exact ⟨_, mem_toList_of_getElem? ((getElem?_ofList rs i).trans (congrArg _ hr)), hcheck⟩

/-- The classes of a trace are those of its records. -/
theorem classAt_ofList (rs : List Record) (i : Nat) :
    (ofList rs).classAt i = rs[i]?.bind Record.class? := by
  rw [classAt, getElem?_ofList]
  cases rs[i]? <;> rfl

/-- **The records of an appended trace are numbered by position.** -/
theorem numbered_ofList (rs : List Record) : (ofList rs).Numbered := by
  intro i r h
  rw [getElem?_ofList] at h
  obtain ⟨r, -, rfl⟩ := Option.map_eq_some_iff.1 h
  rfl

end Trace

end Tomasulo
