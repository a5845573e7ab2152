import Mathlib.Algebra.BigOperators.Group.Finset.Piecewise
import Tomasulo.Proofs.Limits
import Tomasulo.Proofs.Stamps
import Tomasulo.Stats

/-!
# Proofs/Tally — statistics read off the columns of a trace

`Stats.collect` goes through the records one by one.  Here its counts become the sizes of sets of
positions and its waits sums over such sets: the records of some classes (`Trace.ofClass`) and those
that have entered a stage (`Trace.reached`).  For a schedule in order (`Trace.Ordered`) the sums are
those of the differences of stamps, and every difference is taken the right way round.
-/

namespace Tomasulo

/-! ## Sums over a list of records -/

namespace Stats

theorem total_filter_map (p : Record → Bool) (wait : Record → Option Nat)
    (records : List Record) : total ((records.filter p).map wait) =
      (records.map fun r => if p r then (wait r).getD 0 else 0).sum := by
  rw [total, ← List.sum_eq_foldl]
  induction records with
  | nil => rfl
  | cons r rs ih =>
    rw [List.map_cons, List.sum_cons, ← ih]
    cases hp : p r with
    | false => simp [hp]
    | true => cases hw : wait r <;> simp [hp, hw]

theorem known_filter_map (p : Record → Bool) (wait : Record → Option Nat)
    (records : List Record) : known ((records.filter p).map wait) =
      records.countP fun r => p r && (wait r).isSome := by
  simp only [known, List.countP_map, List.countP_filter, Function.comp_def, Bool.and_comm]

/-- **Records of some classes are counted class by class.** -/
theorem countP_any_class (p : OpClass → Bool) (records : List Record) :
    records.countP (fun r => r.class?.any p) =
      (OpClass.all.map fun c => if p c then countClass records c else 0).sum := by
  induction records with
  | nil => simp [countClass]
  | cons r rs ih =>
    simp only [OpClass.all, countClass, List.map_cons, List.map_nil, List.sum_cons,
      List.sum_nil, List.countP_cons] at ih ⊢
    rw [ih]
    rcases r.class? with _ | c
    · simp
    · cases hp : p c <;> cases c <;> simp [hp] <;> omega

end Stats

namespace Trace

variable {config : Config} {t : Trace} {i n : Nat}

/-! ## Sums over positions -/

/-- The records of some classes. -/
def ofClass (t : Trace) (p : OpClass → Bool) : Finset Nat :=
  (Finset.range t.size).filter fun i => (t.classAt i).any p

/-- The records that have entered a stage. -/
def reached (t : Trace) (stage : Stage) : Finset Nat :=
  (Finset.range t.size).filter fun i => (t.cycleAt stage i).isSome

/-- The cycle in which the record at a position entered a stage, and 0 if it has not. -/
def cycle (t : Trace) (stage : Stage) (i : Nat) : Nat :=
  (t.cycleAt stage i).getD 0

theorem mem_ofClass {p : OpClass → Bool} :
    i ∈ t.ofClass p ↔ ∃ op, t.classAt i = some op ∧ p op = true := by
  rw [ofClass, Finset.mem_filter, Finset.mem_range, Option.any_eq_true]
  refine and_iff_right_of_imp ?_
  rintro ⟨op, hop, -⟩
  exact lt_size_of_classAt hop

theorem mem_reached {stage : Stage} :
    i ∈ t.reached stage ↔ (t.cycleAt stage i).isSome = true := by
  rw [reached, Finset.mem_filter, Finset.mem_range]
  refine and_iff_right_of_imp fun hi => ?_
  obtain ⟨n, hn⟩ := Option.isSome_iff_exists.1 hi
  exact lt_size_of_cycleAt hn

theorem cycle_eq {stage : Stage} (h : t.cycleAt stage i = some n) : t.cycle stage i = n := by
  rw [cycle, h, Option.getD_some]

/-- What is read off the records is read off the positions. -/
theorem map_toList {β : Type} {g : Record → β} {f : Nat → β}
    (h : ∀ {i : Nat} {r : Record}, t[i]? = some r → g r = f i) :
    t.toList.map g = (List.range t.size).map f := by
  refine List.ext_getElem? fun i => ?_
  have hget : t.toList[i]? = t[i]? := Array.getElem?_toList ..
  rw [List.getElem?_map, List.getElem?_map, hget]
  by_cases hi : i < t.size
  · obtain ⟨r, hr⟩ := exists_getElem? hi
    rw [hr, List.getElem?_range hi, Option.map_some, Option.map_some, h hr]
  · rw [getElem?_eq_none hi, List.getElem?_eq_none (by simpa using hi), Option.map_none,
      Option.map_none]

theorem sum_toList {g : Record → Nat} {f : Nat → Nat}
    (h : ∀ {i : Nat} {r : Record}, t[i]? = some r → g r = f i) :
    (t.toList.map g).sum = ∑ i ∈ Finset.range t.size, f i := by
  rw [map_toList h]
  rfl

theorem countP_toList {p : Record → Bool} {q : Nat → Bool}
    (h : ∀ {i : Nat} {r : Record}, t[i]? = some r → p r = q i) :
    t.toList.countP p = ((Finset.range t.size).filter fun i => q i).card := by
  have hcount : t.toList.countP p = (List.range t.size).countP q := by
    have hmap := congrArg (List.countP id) (map_toList h)
    rwa [List.countP_map, List.countP_map] at hmap
  rw [hcount, List.countP_eq_length_filter,
    ← List.toFinset_card_of_nodup (List.nodup_range.filter _), List.toFinset_filter,
    List.toFinset_range]

/-- **The classes of a set of records add up to its size.** -/
theorem card_ofClass (t : Trace) (p : OpClass → Bool) : (t.ofClass p).card =
    (OpClass.all.map fun c => if p c then Stats.countClass t.toList c else 0).sum := by
  rw [← Stats.countP_any_class, ofClass]
  refine (countP_toList fun {i r} hr => ?_).symm
  rw [classAt, hr]
  rfl

/-- The records of two sets of classes, when no class is in both. -/
theorem sum_ofClass_or {p q : OpClass → Bool} (hpq : ∀ c, p c = true → q c = false) (t : Trace)
    (f : Nat → ℤ) : ∑ i ∈ t.ofClass (fun c => p c || q c), f i =
      ∑ i ∈ t.ofClass p, f i + ∑ i ∈ t.ofClass q, f i := by
  have hunion : t.ofClass (fun c => p c || q c) = t.ofClass p ∪ t.ofClass q := by
    ext i
    simp only [Finset.mem_union, mem_ofClass, Bool.or_eq_true, and_or_left, exists_or]
  have hdisjoint : Disjoint (t.ofClass p) (t.ofClass q) := by
    refine Finset.disjoint_left.2 fun i hi hi' => ?_
    obtain ⟨c, hc, hp⟩ := mem_ofClass.1 hi
    obtain ⟨c', hc', hq⟩ := mem_ofClass.1 hi'
    obtain rfl := Option.some.inj (hc.symm.trans hc')
    rw [hpq c hp] at hq
    cases hq
  rw [hunion, Finset.sum_union hdisjoint]

theorem isSome_scheduledClass? {r : Record} (hr : t[i]? = some r) :
    r.scheduledClass?.isSome = t.isScheduled i := by
  rw [isScheduled, classAt, hr, Option.bind_some, Record.scheduledClass?]
  rcases r.class? with _ | c
  · rfl
  · cases c <;> rfl

/-- **The waits for a stage are summed over the records that have entered it**, and counted by
them. -/
theorem total_wait {stage : Stage} {wait : Record → Option Nat} {f : Nat → Nat}
    (hscheduled : ∀ i ∈ t.reached stage, t.isScheduled i = true)
    (hwait : ∀ {i : Nat} {r : Record}, t[i]? = some r →
      wait r = if i ∈ t.reached stage then some (f i) else none) :
    Stats.total ((t.toList.filter (·.scheduledClass?.isSome)).map wait) =
        ∑ i ∈ t.reached stage, f i ∧
      Stats.known ((t.toList.filter (·.scheduledClass?.isSome)).map wait) =
        (t.reached stage).card := by
  have hsum {i : Nat} {r : Record} (hr : t[i]? = some r) :
      (if r.scheduledClass?.isSome = true then (wait r).getD 0 else 0) =
        if i ∈ t.reached stage then f i else 0 := by
    rw [isSome_scheduledClass? hr, hwait hr]
    by_cases hi : i ∈ t.reached stage
    · rw [if_pos (hscheduled i hi), if_pos hi, if_pos hi, Option.getD_some]
    · simp [hi]
  have hcount {i : Nat} {r : Record} (hr : t[i]? = some r) :
      (r.scheduledClass?.isSome && (wait r).isSome) = decide (i ∈ t.reached stage) := by
    rw [isSome_scheduledClass? hr, hwait hr]
    by_cases hi : i ∈ t.reached stage
    · rw [hscheduled i hi, if_pos hi, Option.isSome_some, decide_eq_true hi, Bool.and_true]
    · simp [hi]
  have hfilter : (Finset.range t.size).filter (· ∈ t.reached stage) = t.reached stage :=
    Finset.filter_mem_eq_inter.trans (Finset.inter_eq_right.2 (Finset.filter_subset ..))
  constructor
  · rw [Stats.total_filter_map, sum_toList hsum, ← Finset.sum_filter, hfilter]
  · rw [Stats.known_filter_map, countP_toList hcount]
    simp only [decide_eq_true_eq, hfilter]

/-- A wait, whatever it is of two stamps, is known when its end is, if nothing ends that has not
begun. -/
theorem between_eq (first last : Stage) (wait : Nat → Nat → Nat) {r : Record} (hr : t[i]? = some r)
    (hfirst : ∀ {b}, t.cycleAt last i = some b → ∃ a, t.cycleAt first i = some a) :
    ((r.stamps.cycleOf first).bind fun a => (r.stamps.cycleOf last).map (wait a)) =
      if i ∈ t.reached last then some (wait (t.cycle first i) (t.cycle last i)) else none := by
  rw [← cycleAt_of_getElem? hr, ← cycleAt_of_getElem? hr]
  cases hb : t.cycleAt last i with
  | none =>
    have hi : i ∉ t.reached last := fun hi => by
      rw [mem_reached, hb] at hi
      cases hi
    cases t.cycleAt first i <;> simp [hi]
  | some b =>
    obtain ⟨a, ha⟩ := hfirst hb
    have hi : i ∈ t.reached last := mem_reached.2 (Option.isSome_of_eq_some hb)
    rw [if_pos hi, cycle_eq hb, cycle_eq ha, ha]
    rfl

/-- Known traps apart, the instructions are the records of known class. -/
theorem instructions_collect (t : Trace) (cycles : Nat) (config : Config) :
    (Stats.collect t cycles config).instructions = (t.ofClass (· != .trap)).card := by
  have hcount : (Stats.collect t cycles config).instructions =
      t.toList.countP (·.scheduledClass?.isSome) := List.countP_eq_length_filter.symm
  rw [hcount, countP_toList isSome_scheduledClass?]
  rfl

/-- The latency that statistics take for a record of a pool. -/
theorem latency_of_poolAt {r : Record} {p : Pool} (hr : t[i]? = some r) (hp : t.poolAt i = some p) :
    r.latency config = (config.pools p).latency := by
  have hpool : r.class?.bind OpClass.pool = some p := by
    rw [poolAt, classAt, hr] at hp
    exact hp
  rw [Record.latency, hpool, Option.getD_some]

section Ordered

variable {d : Timing} (h : t.Ordered d n)
  (hissued : ∀ {i m}, t.cycleAt .issue i = some m → ∃ p, t.poolAt i = some p)

include h hissued

/-- What is beyond the fetch queue has a pool. -/
theorem exists_poolAt_of_reached {stage : Stage} (hstage : stage ≠ .dispatch)
    (hi : i ∈ t.reached stage) : ∃ p, t.poolAt i = some p := by
  obtain ⟨m, hm⟩ := Option.isSome_iff_exists.1 (mem_reached.1 hi)
  cases stage with
  | dispatch => exact absurd rfl hstage
  | issue => exact hissued hm
  | execute =>
    obtain ⟨b, hb, -⟩ := h.execute hm
    exact hissued hb
  | cdb =>
    obtain ⟨p, -, hp, -⟩ := h.cdb hm
    exact ⟨p, hp⟩

theorem isScheduled_of_reached {stage : Stage} (hstage : stage ≠ .dispatch) :
    ∀ i ∈ t.reached stage, t.isScheduled i = true := fun i hi => by
  obtain ⟨p, hp⟩ := t.exists_poolAt_of_reached h hissued hstage hi
  exact isScheduled_of_poolAt hp

/-- **The wait in the queue, summed**, and the records whose wait that is. -/
theorem queueWait_collect (cycles : Nat) (config : Config) :
    (Stats.collect t cycles config).queueWait =
      ∑ i ∈ t.reached .issue, (t.cycle .issue i - t.cycle .dispatch i) ∧
    Stats.known ((t.toList.filter (·.scheduledClass?.isSome)).map (·.stamps.queueWait)) =
      (t.reached .issue).card := by
  refine total_wait (t.isScheduled_of_reached h hissued (by decide)) fun {i r} hr => ?_
  refine between_eq .dispatch .issue (fun a b => b - a) hr fun hb => ?_
  obtain ⟨a, ha, -⟩ := h.issue hb
  exact ⟨a, ha⟩

/-- **The wait in a station, summed**, and the records that have started. -/
theorem stationWait_collect (cycles : Nat) (config : Config) :
    (Stats.collect t cycles config).stationWait =
      ∑ i ∈ t.reached .execute, (t.cycle .execute i - t.cycle .issue i) ∧
    (Stats.collect t cycles config).started = (t.reached .execute).card := by
  refine total_wait (t.isScheduled_of_reached h hissued (by decide)) fun {i r} hr => ?_
  refine between_eq .issue .execute (fun a b => b - a) hr fun hb => ?_
  obtain ⟨a, ha, -⟩ := h.execute hb
  exact ⟨a, ha⟩

/-- **The wait for the bus, summed**, and the records that have been on it. -/
theorem busWait_collect (cycles : Nat) (config : Config) :
    (Stats.collect t cycles config).busWait =
      ∑ i ∈ t.reached .cdb,
        (t.cycle .cdb i - wordAdd (t.cycle .execute i) (t.latencyAt config i)) ∧
    (Stats.collect t cycles config).broadcast = (t.reached .cdb).card := by
  refine total_wait (t.isScheduled_of_reached h hissued (by decide)) fun {i r} hr => ?_
  have hwait : r.stamps.busWait (r.latency config) = if i ∈ t.reached .cdb
      then some (t.cycle .cdb i - wordAdd (t.cycle .execute i) (r.latency config)) else none := by
    refine between_eq .execute .cdb (fun a b => b - wordAdd a (r.latency config)) hr fun hb => ?_
    obtain ⟨-, a, -, ha, -⟩ := h.cdb hb
    exact ⟨a, ha⟩
  rw [hwait]
  split
  · next hi =>
    obtain ⟨p, hp⟩ := t.exists_poolAt_of_reached h hissued (by decide) hi
    rw [latencyAt_of_poolAt hp, latency_of_poolAt hr hp]
  · rfl

end Ordered

end Trace

end Tomasulo
