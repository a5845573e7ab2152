import Tomasulo.Proofs.Comparison

/-!
# Proofs/Capacity — the room in the fetch queue

A record is issued when it is its turn and its pool has a station.  Whether it has waited for that
in the queue or in front of it makes no difference, so the room in the queue moves the dispatch
stamps and nothing else (`schedule_of_room`): a longer queue takes a record in earlier, if at all,
and neither the other stamps nor the length of the run change.
-/

namespace Tomasulo

/-! ## Two queues that the same leaves -/

section Queues

variable {total room room' k c : Nat} {ready ready' : Nat → Nat → Prop}
  {entered entered' left f g : Nat → Nat}

/-- What has left a queue has entered it. -/
theorem QueueRun.left_le (h : QueueRun total room ready entered left) (n : Nat) :
    left n ≤ entered n := by
  cases n with
  | zero => rw [h.left_zero, h.entered_zero]
  | succ n => exact (h.left_succ_le n).trans (h.counts_entered.mono (Nat.le_succ n))

/-- With more room, as much has entered or more. -/
theorem QueueRun.entered_mono (h : QueueRun total room ready entered left)
    (h' : QueueRun total room' ready' entered' left) (hroom : room ≤ room') (n : Nat) :
    entered n ≤ entered' n := by
  induction n with
  | zero => rw [h.entered_zero, h'.entered_zero]
  | succ n ih =>
    have hstep := h.entered_succ n
    have hstep' := h'.entered_succ n
    omega

/-- A counter that is ahead passes everything first. -/
theorem Counts.exists_passes_le (hf : Counts f) (hg : Counts g) (hle : ∀ n, f n ≤ g n)
    (hpass : Passes f k c) : ∃ d ≤ c, Passes g k d := by
  have hlt : k < g c := ((hf.lt_iff hpass).2 (Nat.le_refl c)).trans_le (hle c)
  obtain ⟨d, hd⟩ := hg.exists_passes hlt
  exact ⟨d, (hg.lt_iff hd).1 hlt, hd⟩

end Queues

namespace Trace

variable {config config' : Config} {t u : Trace} {left entered entered' : Nat → Nat} {i d T : Nat}

theorem BeginsLike.refl (t : Trace) : t.BeginsLike t :=
  ⟨Nat.le_refl _, fun _ => rfl, fun _ _ => .rfl⟩

/-- **With more room no record is dispatched later.** -/
theorem Fetched.exists_dispatch_le (h : t.Fetched config entered left)
    (h' : u.Fetched config' entered' left) (horder : u.order = t.order)
    (hroom : config.queue ≤ config'.queue) (hd : t.cycleAt .dispatch i = some d) :
    ∃ d' ≤ d, u.cycleAt .dispatch i = some d' := by
  obtain ⟨k, hk, hpass⟩ := h.dispatch.1 hd
  obtain ⟨d', hle, hpass'⟩ := h.queue.counts_entered.exists_passes_le h'.queue.counts_entered
    (h.queue.entered_mono (horder ▸ h'.queue) hroom) hpass
  exact ⟨d', hle, h'.dispatch.2 ⟨k, horder ▸ hk, hpass'⟩⟩

/-- When a schedule is over, all of the program order has been dispatched. -/
theorem Fetched.isSome_dispatch_iff (h : t.Fetched config entered left)
    (hover : t.IsOver config left T) : (t.cycleAt .dispatch i).isSome ↔ i ∈ t.order := by
  rw [Option.isSome_iff_exists]
  constructor
  · rintro ⟨d, hd⟩
    obtain ⟨k, hk, -⟩ := h.dispatch.1 hd
    exact List.mem_of_getElem? hk
  · intro hi
    obtain ⟨k, hk⟩ := List.getElem?_of_mem hi
    have hlt : k < entered T :=
      calc k < t.order.length := (List.getElem?_eq_some_iff.1 hk).1
        _ = left T := hover.left.symm
        _ ≤ entered T := h.queue.left_le T
    obtain ⟨d, hpass⟩ := h.queue.counts_entered.exists_passes hlt
    exact ⟨d, h.dispatch.2 ⟨k, hk, hpass⟩⟩

/-- A record that both schedules dispatch is dispatched no later with more room. -/
theorem Fetched.rel_dispatch (h : t.Fetched config entered left)
    (h' : u.Fetched config' entered' left) (horder : u.order = t.order)
    (hroom : config.queue ≤ config'.queue) (hover : t.IsOver config left T)
    (hover' : u.IsOver config' left T) (i : Nat) :
    Option.Rel (· ≤ ·) (u.cycleAt .dispatch i) (t.cycleAt .dispatch i) := by
  cases hd : t.cycleAt .dispatch i with
  | some d =>
    obtain ⟨d', hle, hd'⟩ := h.exists_dispatch_le h' horder hroom hd
    rw [hd']
    exact .some hle
  | none =>
    have hnot : i ∉ t.order := by
      rw [← h.isSome_dispatch_iff hover, hd]
      exact Bool.false_ne_true
    rw [← horder, ← h'.isSome_dispatch_iff hover', Option.not_isSome_iff_eq_none] at hnot
    rw [hnot]
    exact .none

/-! ## Two schedules of one program

Each begins like the other and neither has a record that the other one lacks, so what is said of a
program and a longer one holds both ways. -/

/-- Nothing beyond the end blocks anything. -/
theorem not_blocks_of_size_le (h : u.size ≤ t.size) (cycle : Nat) :
    ∀ i < t.size, ∀ j ≥ t.size, ¬ u.Blocks config cycle j i :=
  fun _ _ _ hj hblocks => Nat.not_lt.2 (h.trans hj) hblocks.lt_size

theorem BeginsLike.order_eq (h : u.BeginsLike t) (hsize : u.size = t.size) : u.order = t.order :=
  h.order_initial.eq_of_length_le (h.symm hsize).order_initial.length_le |>.symm

namespace Lawful

variable {left' : Nat → Nat} (hu : u.Lawful config left') (ht : t.Lawful config left)
  (hbegins : u.BeginsLike t) (hsize : u.size = t.size)

include hu ht hbegins hsize

/-- As much leaves both queues. -/
theorem left_eq : left' = left := by
  funext n
  have hle := (follows hu ht hbegins (not_blocks_of_size_le hsize.le) n).2
  have hge := (follows ht hu (hbegins.symm hsize) (not_blocks_of_size_le hsize.ge) n).2
  omega

/-- From the stations on the schedules are the same. -/
theorem cycleAt_eq_of_size_eq {stage : Stage} (hstage : stage ≠ .dispatch) (i : Nat) :
    u.cycleAt stage i = t.cycleAt stage i := by
  by_cases hi : i < t.size
  · exact cycleAt_eq_of_ne hu ht hbegins (not_blocks_of_size_le hsize.le) hstage hi
  · rw [cycleAt, getElem?_eq_none (hsize ▸ hi), cycleAt, getElem?_eq_none hi]

/-- They are over in the same cycles. -/
theorem isOver_iff : u.IsOver config left' T ↔ t.IsOver config left T :=
  ⟨isOver_of_isOver hu ht hbegins (not_blocks_of_size_le hsize.le),
    isOver_of_isOver ht hu (hbegins.symm hsize) (not_blocks_of_size_le hsize.ge)⟩

end Lawful

end Trace

/-! ## Two runs -/

/-- **The room in the fetch queue moves dispatch only.**  On machines that differ in the room of
their queues a program takes the same number of cycles, and every record has the same stamps but for
dispatch; the machine with more room dispatches the same records, none of them later. -/
theorem schedule_of_room {rs : List Record} {config config' : Config}
    (hconfig : config.check = .ok ()) (hconfig' : config'.check = .ok ())
    (hregisters : config'.registers = config.registers) (hpools : config'.pools = config.pools)
    (hroom : config.queue ≤ config'.queue)
    (haccepted : (Trace.ofList rs).Accepted config.registers) :
    ∃ T t t', schedule (Trace.ofList rs) config = .ok (T, t) ∧
      schedule (Trace.ofList rs) config' = .ok (T, t') ∧
      (∀ stage ≠ .dispatch, ∀ i, t'.cycleAt stage i = t.cycleAt stage i) ∧
      ∀ i, Option.Rel (· ≤ ·) (t'.cycleAt .dispatch i) (t.cycleAt .dispatch i) := by
  obtain ⟨T, t, entered, left, h, hprogram, hlawful, hfetched, hleast⟩ :=
    exists_lawful hconfig haccepted
  obtain ⟨T', t', entered', left', h', hprogram', hlawful', hfetched', hleast'⟩ :=
    exists_lawful hconfig' (hregisters ▸ haccepted)
  replace hlawful' := hlawful'.congr hpools
  have hbegins : t'.BeginsLike t :=
    (Trace.BeginsLike.refl (Trace.ofList rs)).of_unscheduled hprogram' hprogram
  have hsize : t'.size = t.size := by
    rw [Trace.size_eq_of_unscheduled hprogram', Trace.size_eq_of_unscheduled hprogram]
  have hover (n : Nat) : t'.IsOver config' left' n ↔ t.IsOver config left n :=
    ⟨fun hn => (hlawful'.isOver_iff hlawful hbegins hsize).1 (hn.congr hpools),
      fun hn => ((hlawful'.isOver_iff hlawful hbegins hsize).2 hn).congr hpools.symm⟩
  simp only [hover] at hleast'
  obtain rfl : T' = T := hleast'.unique hleast
  obtain rfl : left' = left := hlawful'.left_eq hlawful hbegins hsize
  refine ⟨T', t, t', h, h', fun stage hstage i => ?_, fun i => ?_⟩
  · exact hlawful'.cycleAt_eq_of_size_eq hlawful hbegins hsize hstage i
  · exact hfetched.rel_dispatch hfetched' (hbegins.order_eq hsize) hroom hleast.1.2
      ((hover T').2 hleast.1.2) i

/-- With room for one record instead of two the store of the small program is dispatched in cycle 6
instead of 5. -/
theorem schedule_of_room_sample :
    ∃ T t t', schedule (Trace.ofList sampleProgram) { smallMachine with queue := 1 } = .ok (T, t) ∧
      schedule (Trace.ofList sampleProgram) smallMachine = .ok (T, t') ∧
      (∀ stage ≠ .dispatch, ∀ i, t'.cycleAt stage i = t.cycleAt stage i) ∧
      ∀ i, Option.Rel (· ≤ ·) (t'.cycleAt .dispatch i) (t.cycleAt .dispatch i) :=
  schedule_of_room (by decide) (by decide) rfl rfl (by decide) (by decide +kernel)

end Tomasulo
