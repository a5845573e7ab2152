import Tomasulo.Proofs.Run

/-!
# Proofs/Calls — the steps of a cycle, called in any order

`Core.Sound` and `Core.Renamed` say nothing of the clock, and every move keeps them whenever it is
made.  So they hold in every core that calls of the steps lead to (`Core.Reachable`), in any order,
with any cycle, also after fetch has refused a record, and with records appended in between.  In
such a core nothing can break but one assertion: complete may find the bus occupied.
-/

namespace Tomasulo

/-! ## An appended record -/

namespace Trace

variable {t : Trace} {r : Record} {i : Nat}

/-- The program grows with its trace. -/
theorem unscheduled_append (t : Trace) (r : Record) :
    (t.append r).unscheduled = t.unscheduled.append r := by
  refine ext_getElem? fun i => ?_
  rw [getElem?_unscheduled, getElem?_append, getElem?_append, size_unscheduled,
    getElem?_unscheduled]
  split <;> rfl

/-- An appended record has no stamps. -/
theorem cycleAt_append (t : Trace) (r : Record) (stage : Stage) (i : Nat) :
    (t.append r).cycleAt stage i = t.cycleAt stage i := by
  rw [cycleAt, getElem?_append, cycleAt]
  split
  · next hi =>
    rw [getElem?_eq_none (Nat.not_lt.2 (Nat.le_of_eq hi.symm))]
    exact Stamps.cycleOf_blank stage
  · rfl

/-- An appended record waits for nothing. -/
theorem producerAt_append (t : Trace) (r : Record) (i slot : Nat) :
    (t.append r).producerAt i slot = t.producerAt i slot := by
  rw [producerAt, getElem?_append, producerAt]
  split
  · next hi =>
    rw [getElem?_eq_none (Nat.not_lt.2 (Nat.le_of_eq hi.symm))]
    simp only [Option.bind_some, Record.unscheduled, Operands.empty, Vector.getElem?_replicate]
    split <;> rfl
  · rfl

/-- A record that is appended gets the next number. -/
theorem Numbered.append (h : t.Numbered) (r : Record) : (t.append r).Numbered := by
  intro i s hs
  rw [getElem?_append] at hs
  split at hs
  · next hi =>
    obtain rfl := Option.some.inj hs
    exact hi.symm
  · exact h i s hs

/-- The records before an appended one stay. -/
theorem getElem?_append_of_lt (hi : i < t.size) : (t.append r)[i]? = t[i]? := by
  rw [getElem?_append, if_neg (Nat.ne_of_lt hi)]

theorem classAt_append (hi : i < t.size) : (t.append r).classAt i = t.classAt i := by
  rw [classAt, getElem?_append_of_lt hi, classAt]

theorem poolAt_append (hi : i < t.size) : (t.append r).poolAt i = t.poolAt i := by
  rw [poolAt, classAt_append hi, poolAt]

theorem publishes_append (hi : i < t.size) : (t.append r).publishes i = t.publishes i := by
  rw [publishes, classAt_append hi, publishes]

theorem isScheduled_append (hi : i < t.size) : (t.append r).isScheduled i = t.isScheduled i := by
  rw [isScheduled, classAt_append hi, isScheduled]

theorem writesAt_append (hi : i < t.size) : (t.append r).writesAt i = t.writesAt i := by
  rw [writesAt, getElem?_append_of_lt hi, writesAt]

theorem inputAt_append (hi : i < t.size) (slot : Nat) :
    (t.append r).inputAt i slot = t.inputAt i slot := by
  rw [inputAt, getElem?_append_of_lt hi, inputAt]

/-- What is appended is not below the old end. -/
theorem scheduledBelow_append {bound : Nat} (hle : bound ≤ t.size) :
    (t.append r).scheduledBelow bound = t.scheduledBelow bound :=
  List.filter_congr fun _ hi => isScheduled_append ((List.mem_range.1 hi).trans_le hle)

/-- An appended record is no writer for those before it. -/
theorem isLatestWriter_append {among : Nat → Prop} (hamong : ∀ j, among j → j < t.size)
    {register w : Nat} : (t.append r).IsLatestWriter among register w ↔
      t.IsLatestWriter among register w := by
  constructor
  · rintro ⟨hm, hp, hw, hl⟩
    have hlt := hamong w hm
    refine ⟨hm, publishes_append hlt ▸ hp, writesAt_append hlt ▸ hw, fun {j} hj hpj hwj => ?_⟩
    have hlt := hamong j hj
    exact hl hj ((publishes_append hlt).trans hpj) ((writesAt_append hlt).symm ▸ hwj)
  · rintro ⟨hm, hp, hw, hl⟩
    have hlt := hamong w hm
    refine ⟨hm, (publishes_append hlt).trans hp, (writesAt_append hlt).symm ▸ hw,
      fun {j} hj hpj hwj => ?_⟩
    have hlt := hamong j hj
    exact hl hj (publishes_append hlt ▸ hpj) (writesAt_append hlt ▸ hwj)

end Trace

namespace Core

variable {config : Config} {program : Trace} {c c' : Core} {now : Nat}

/-- A record has been appended to the trace. -/
def appended (c : Core) (r : Record) : Core :=
  { c with trace := c.trace.append r }

/-- What has been issued is a record of the program. -/
theorem Sound.lt_size_of_issued (h : c.Sound config program) {i : Nat} (hi : c.IsIssued i) :
    i < program.size := by
  obtain ⟨p, hp⟩ := Option.isSome_iff_exists.1 (h.issued.1 hi).2.1
  exact Trace.lt_size_of_poolAt hp

/-- **An appended record does not disturb the others.** -/
theorem Sound.appended (h : c.Sound config program) (r : Record) :
    (c.appended r).Sound config (program.append r) := by
  have hcycle (stage : Stage) (i : Nat) :
      (c.appended r).trace.cycleAt stage i = c.trace.cycleAt stage i :=
    Trace.cycleAt_append ..
  have hclass {i : Nat} {op : OpClass} (hi : program.classAt i = some op) :
      (program.append r).classAt i = some op := by
    rw [Trace.classAt_append (Trace.lt_size_of_classAt hi), hi]
  have hcursor {i : Nat} (hi : i < c.machine.cursor) : i < program.size := hi.trans_le h.cursor_le
  refine ⟨?front, ?back⟩
  case front =>
    constructor
    case fits => exact h.fits
    case frame => exact (Trace.unscheduled_append ..).trans (congrArg (·.append r) h.frame)
    case numbered => exact h.numbered.append r
    case accepted =>
      intro i hi
      rw [Trace.getElem?_append_of_lt (hcursor hi)]
      exact h.accepted hi
    case queue =>
      change c.queued <:+ (program.append r).scheduledBelow c.machine.cursor
      rw [Trace.scheduledBelow_append h.cursor_le]
      exact h.queue
    case queue_class => exact fun e he => hclass (h.queue_class e he)
    case queue_room => exact h.queue_room
    case dispatched =>
      intro i
      rw [hcycle]
      refine h.dispatched.trans (and_congr_right fun hi => ?_)
      rw [Trace.isScheduled_append (hcursor hi)]
    case issued =>
      intro i
      rw [hcycle]
      refine h.issued.trans (and_congr_right fun hi => ?_)
      rw [Trace.poolAt_append (hcursor hi)]
      rfl
  case back =>
    have hpublishes {i : Nat} (hi : c.IsIssued i) :
        (program.append r).publishes i = program.publishes i :=
      Trace.publishes_append (h.lt_size_of_issued hi)
    have hback : (c.appended r).BackSound program :=
      h.toBackSound.congr rfl rfl (fun _ hd => hd) fun stage i _ => hcycle stage i
    refine { hback with station_class := ?_, broadcast := ?_, left := ?_ }
    · exact fun hs => ⟨hclass (h.station_class hs).1, (h.station_class hs).2⟩
    · intro i hi
      obtain ⟨hpub, hexecute⟩ := hback.broadcast hi
      have hissued : c.IsIssued i := by
        rw [IsIssued, ← hcycle]
        exact hback.started hexecute
      exact ⟨(hpublishes hissued).trans hpub, hexecute⟩
    · intro i hi hnot
      rw [hcycle] at hi
      rw [hpublishes hi]
      exact hback.left ((hcycle ..).symm ▸ hi) hnot

/-- A record that is appended changes no producers. -/
theorem Renamed.appended (h : c.Renamed program) (hs : c.Sound config program) (r : Record) :
    (c.appended r).Renamed (program.append r) := by
  have hcycle (stage : Stage) (i : Nat) :
      (c.appended r).trace.cycleAt stage i = c.trace.cycleAt stage i :=
    Trace.cycleAt_append ..
  have hproducer (i slot : Nat) :
      (c.appended r).trace.producerAt i slot = c.trace.producerAt i slot :=
    Trace.producerAt_append ..
  have hretired (w : Nat) : (c.appended r).IsRetired w ↔ c.IsRetired w := by
    rw [IsRetired, hcycle]
    rfl
  have hissued : (c.appended r).IsIssued = c.IsIssued := by
    funext i
    rw [IsIssued, hcycle, IsIssued]
  constructor
  case writer =>
    intro register w
    rw [hissued, hretired, Trace.isLatestWriter_append fun j hj => hs.lt_size_of_issued hj]
    exact h.writer
  case producer =>
    intro i hi slot w
    have hlt : i < program.size := by
      obtain ⟨p, s, e, he, rfl⟩ := hi
      exact Trace.lt_size_of_poolAt (hs.poolAt_station he)
    rw [hproducer, hretired, Trace.inputAt_append hlt]
    simp only [Trace.isLatestWriter_append fun j (hj : j < i) => hj.trans hlt]
    exact h.producer hi
  case elsewhere =>
    intro i hi slot
    rw [hproducer]
    exact h.elsewhere hi slot
  case started =>
    intro i hi slot
    rw [hcycle] at hi
    rw [hproducer]
    exact h.started hi slot

/-! ## Complete on any bus -/

/-- A broken assertion stops a step. -/
theorem run_lift_error {α : Type} {x : Except Fault α} {cause : Fault} (h : x = .error cause)
    (c : Core) : (liftM x : Step α).run c = .error (.fault cause) c := by
  rw [h]
  rfl

/-- There is no room for a second result. -/
theorem Sound.run_publish_occupied (h : c.Sound config program) (now : Nat) {r : Running}
    (hr : c.Runs r) {old : Nat} (hbus : c.machine.bus.carried = some old) :
    ∃ c', (publish now r).run c = .error (.fault (.busOccupied old r.record.index)) c' := by
  let stamped : Core := { c with trace := c.trace.stamped .cdb now r.record.index }
  have hbroadcast : stamped.machine.bus.broadcast r.record.index =
      .error (.busOccupied old r.record.index) := by
    have hoccupied : stamped.machine.bus.carried = some old := hbus
    rw [ResultBus.broadcast, hoccupied]
  refine ⟨stamped, ?_⟩
  refine (Step.run_bind_ok (run_stamp (h.lt_size_of_station hr.2) (h.station_stamps hr.2).2 now)
    _).trans ?_
  refine (Step.run_bind_ok (Step.run_machine stamped) _).trans ?_
  exact Step.run_bind_error (run_lift_error hbroadcast stamped) _

/-- **Complete fails when there is a result on the bus and another one that wants it**, and only
then. -/
theorem Sound.run_complete_cases (h : c.Sound config program) (now : Nat) :
    (∃ c', (Step.complete now).run c = .ok () c' ∧ Moves now c c' ∧
      (c.machine.bus.carried = none ∨ c.contenders now = [])) ∨
    ∃ old r c', (Step.complete now).run c = .error (.fault (.busOccupied old r.record.index)) c' ∧
      c.machine.bus.carried = some old ∧ r ∈ c.contenders now := by
  obtain ⟨c₂, hstores, hdeeds, hvac, -⟩ := h.run_stores now
  have hmoves := hdeeds.moves
  have h₂ := h.moves hmoves
  have hsame (i : Nat) : (∃ r ∈ c.contenders now, r.record.index = i) ↔
      ∃ r ∈ c₂.contenders now, r.record.index = i := by
    rw [h.exists_contender_iff, h₂.exists_contender_iff, hvac.trace]
  rw [run_complete_of_stores hstores]
  cases hwinner : c₂.winner? now with
  | none =>
    have hnil : c₂.contenders now = [] := by
      by_contra hne
      have hsome : (c₂.winner? now).isSome = true := List.isSome_minOn?_iff.2 hne
      rw [hwinner] at hsome
      cases hsome
    refine .inl ⟨c₂, rfl, hmoves, .inr (List.eq_nil_iff_forall_not_mem.2 fun r hr => ?_)⟩
    obtain ⟨r₂, hr₂, -⟩ := (hsame r.record.index).1 ⟨r, hr, rfl⟩
    rw [hnil] at hr₂
    cases hr₂
  | some r₂ =>
    have hmem : r₂ ∈ c₂.contenders now := List.minOn?_mem hwinner
    obtain ⟨hruns, hop, hdone⟩ := mem_contenders.1 hmem
    cases hbus : c.machine.bus.carried with
    | none =>
      have hidle : c₂.machine.bus.carried = none := by rw [hvac.bus, hbus]
      have hmove : Move now c₂ (c₂.published now r₂.pool r₂.unit r₂.station r₂.record.index) :=
        .publish hruns.1 hruns.2 hop hdone hidle
      exact .inl ⟨_, h₂.run_publish hruns hidle, hmoves.tail hmove, .inl rfl⟩
    | some old =>
      obtain ⟨r, hr, hindex⟩ := (hsame r₂.record.index).2 ⟨r₂, hmem, rfl⟩
      obtain ⟨c', hrun⟩ := h₂.run_publish_occupied now hruns (hvac.bus ▸ hbus)
      exact .inr ⟨old, r, c', hindex ▸ hrun, rfl, hr⟩

/-- **A whole cycle begins with an idle bus**, so it fails only at a record that the machine
refuses. -/
theorem Sound.run_cycle_cases (h : c.Sound config program) (now : Nat) :
    (∃ c', (Step.cycle now).run c = .ok () c' ∧ Moves now c c') ∨
      ∃ reason c', (Step.cycle now).run c = .error (.rejected reason) c' ∧ Moves now c c' := by
  obtain ⟨hrun₁, hwoken⟩ := h.run_wake now
  have h₁ := h.moves hwoken
  have hbus := (c.awoken_awoken now).bus
  obtain ⟨c₂, hrun₂, hmoves₂, -⟩ | ⟨old, -, -, -, hoccupied, -⟩ := h₁.run_complete_cases now
  case inr =>
    rw [hbus] at hoccupied
    cases hoccupied
  have h₂ := h₁.moves hmoves₂
  obtain ⟨c₃, hrun₃, hbegun⟩ := h₂.run_start now
  obtain ⟨c₄, hrun₄, hissued⟩ := (h₂.moves hbegun.moves).run_issue now
  have hmoves₄ : Moves now c c₄ :=
    hwoken.trans (hmoves₂.trans (hbegun.moves.trans hissued.moves))
  rw [run_cycle_of_phases hrun₁ hrun₂ hrun₃ hrun₄]
  rcases (h.moves hmoves₄).run_fetch now with
    ⟨c₅, hrun₅, hfetched⟩ | ⟨reason, c₅, hrun₅, hmoves₅, -⟩
  · exact .inl ⟨_, run_conclude_of_ok hrun₅, (hmoves₄.trans hfetched.moves).tail (.note _)⟩
  · exact .inr ⟨reason, c₅, run_conclude_of_error hrun₅, hmoves₄.trans hmoves₅⟩

end Core

/-! ## Calls -/

/-- What can be called on a core: a step of a cycle or a whole cycle, with any number for the cycle,
and the append of a record to the trace. -/
inductive Call where
  | wake (now : Nat)
  | complete (now : Nat)
  | start (now : Nat)
  | issue (now : Nat)
  | fetch (now : Nat)
  | cycle (now : Nat)
  | append (r : Record)
deriving DecidableEq, Repr

/-- What a call does. -/
def Call.step : Call → Step Unit
  | .wake now => Step.wake now
  | .complete now => Step.complete now
  | .start now => Step.start now
  | .issue now => Step.issue now
  | .fetch now => Step.fetch now
  | .cycle now => Step.cycle now
  | .append r => modify fun c => { c with trace := c.trace.append r }

/-- Why a call stops, if it does. -/
def Call.halt? (call : Call) (c : Core) : Option Halt :=
  match call.step.run c with
  | .ok _ _ => none
  | .error halt _ => some halt

theorem Call.halt?_eq_some_iff {call : Call} {c : Core} {halt : Halt} :
    call.halt? c = some halt ↔ ∃ c', call.step.run c = .error halt c' := by
  rw [halt?]
  cases call.step.run c <;> simp

namespace Core

variable {config : Config} {program : Trace} {c c' : Core}

/-- What moves and appended records keep, with the program read off the trace. -/
structure Coherent (config : Config) (c : Core) : Prop where
  sound : c.Sound config c.trace.unscheduled
  renamed : c.Renamed c.trace.unscheduled

/-- Moves keep a core coherent. -/
theorem Coherent.moves {now : Nat} (h : c.Coherent config) (hmoves : Moves now c c') :
    c'.Coherent config := by
  have hsound := h.sound.moves hmoves
  exact ⟨hsound.frame ▸ hsound, hsound.frame ▸ h.renamed.moves h.sound hmoves⟩

/-- A record that is appended keeps a core coherent. -/
theorem Coherent.appended (h : c.Coherent config) (r : Record) :
    (c.appended r).Coherent config := by
  have hsound := h.sound.appended r
  exact ⟨hsound.frame ▸ hsound, hsound.frame ▸ h.renamed.appended h.sound r⟩

/-- The first core is coherent. -/
theorem coherent_start (config : Config) (hprogram : program.unscheduled = program)
    (hnumbered : program.Numbered) : (start config program).Coherent config := by
  have hframe : (start config program).trace.unscheduled = program := hprogram
  refine ⟨?_, ?_⟩
  · rw [hframe]
    exact sound_start config hprogram hnumbered
  · rw [hframe]
    exact renamed_start config hprogram

/-- **What a call can come to**: it returns, or fetch refuses a record, or complete finds the bus
occupied. -/
theorem Coherent.call_cases (h : c.Coherent config) (call : Call) :
    (∃ c', call.step.run c = .ok () c' ∧ c'.Coherent config) ∨
    (∃ now reason c', (call = .fetch now ∨ call = .cycle now) ∧
      call.step.run c = .error (.rejected reason) c' ∧ c'.Coherent config) ∨
    ∃ now old r c', call = .complete now ∧
      call.step.run c = .error (.fault (.busOccupied old r.record.index)) c' ∧
      c.machine.bus.carried = some old ∧ r ∈ c.contenders now := by
  cases call with
  | wake now =>
    obtain ⟨hrun, hmoves⟩ := h.sound.run_wake now
    exact .inl ⟨_, hrun, h.moves hmoves⟩
  | complete now =>
    rcases h.sound.run_complete_cases now with ⟨c', hrun, hmoves, -⟩ | ⟨old, r, c', hrun, hbusy⟩
    · exact .inl ⟨c', hrun, h.moves hmoves⟩
    · exact .inr (.inr ⟨now, old, r, c', rfl, hrun, hbusy⟩)
  | start now =>
    obtain ⟨c', hrun, hbegun⟩ := h.sound.run_start now
    exact .inl ⟨c', hrun, h.moves hbegun.moves⟩
  | issue now =>
    obtain ⟨c', hrun, hissued⟩ := h.sound.run_issue now
    exact .inl ⟨c', hrun, h.moves hissued.moves⟩
  | fetch now =>
    rcases h.sound.run_fetch now with ⟨c', hrun, hfetched⟩ | ⟨reason, c', hrun, hmoves, -⟩
    · exact .inl ⟨c', hrun, h.moves hfetched.moves⟩
    · exact .inr (.inl ⟨now, reason, c', .inl rfl, hrun, h.moves hmoves⟩)
  | cycle now =>
    rcases h.sound.run_cycle_cases now with ⟨c', hrun, hmoves⟩ | ⟨reason, c', hrun, hmoves⟩
    · exact .inl ⟨c', hrun, h.moves hmoves⟩
    · exact .inr (.inl ⟨now, reason, c', .inr rfl, hrun, h.moves hmoves⟩)
  | append r => exact .inl ⟨c.appended r, rfl, h.appended r⟩

/-- A call that returns keeps a core coherent. -/
theorem Coherent.of_returned (h : c.Coherent config) {call : Call}
    (hrun : call.step.run c = .ok () c') : c'.Coherent config := by
  rcases h.call_cases call with ⟨d, hd, hcoherent⟩ | ⟨_, _, _, _, hd, _⟩ | ⟨_, _, _, _, _, hd, _⟩
  · obtain ⟨⟩ := hrun.symm.trans hd
    exact hcoherent
  · cases hrun.symm.trans hd
  · cases hrun.symm.trans hd

/-- A call that refuses a record keeps a core coherent. -/
theorem Coherent.of_refused (h : c.Coherent config) {call : Call} {reason : Rejection}
    (hrun : call.step.run c = .error (.rejected reason) c') : c'.Coherent config := by
  rcases h.call_cases call with ⟨d, hd, _⟩ | ⟨_, _, d, _, hd, hcoherent⟩ | ⟨_, _, _, _, _, hd, _⟩
  · cases hrun.symm.trans hd
  · obtain ⟨⟩ := hrun.symm.trans hd
    exact hcoherent
  · cases hrun.symm.trans hd

/-! ## What calls lead to -/

/-- **The cores that calls lead to**, in any order and with any arguments, as long as no assertion
breaks; a record that fetch refuses is no obstacle. -/
inductive Reachable (config : Config) (program : Trace) : Core → Prop where
  | start : Reachable config program (Core.start config program)
  | returned {c c' : Core} {call : Call} (h : Reachable config program c)
      (hrun : call.step.run c = .ok () c') : Reachable config program c'
  | refused {c c' : Core} {call : Call} {reason : Rejection} (h : Reachable config program c)
      (hrun : call.step.run c = .error (.rejected reason) c') : Reachable config program c'

/-- The core after a list of calls, unless an assertion breaks. -/
def play (c : Core) (calls : List Call) : Option Core :=
  calls.foldlM (fun c call =>
    match call.step.run c with
    | .ok _ c' | .error (.rejected _) c' => some c'
    | .error _ _ => none) c

/-- Calls lead from a reachable core to one. -/
theorem Reachable.play {calls : List Call} (h : c.Reachable config program)
    (hplay : c.play calls = some c') : c'.Reachable config program := by
  induction calls generalizing c with
  | nil =>
    obtain rfl := Option.some.inj hplay
    exact h
  | cons call calls ih =>
    rw [Core.play, List.foldlM_cons, Option.bind_eq_bind, Option.bind_eq_some_iff] at hplay
    obtain ⟨c₁, hcall, hplay⟩ := hplay
    refine ih ?_ hplay
    split at hcall
    · next hrun =>
      obtain rfl := Option.some.inj hcall
      exact h.returned hrun
    · next hrun =>
      obtain rfl := Option.some.inj hcall
      exact h.refused hrun
    · cases hcall

/-- **Every reachable core is coherent.** -/
theorem Reachable.coherent (h : c.Reachable config program)
    (hprogram : program.unscheduled = program) (hnumbered : program.Numbered) :
    c.Coherent config := by
  induction h with
  | start => exact coherent_start config hprogram hnumbered
  | returned h hrun ih => exact ih.of_returned hrun
  | refused h hrun ih => exact ih.of_refused hrun

end Core

end Tomasulo
