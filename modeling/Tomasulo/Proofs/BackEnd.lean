import Tomasulo.Cycle
import Tomasulo.Proofs.Clock

/-!
# Proofs/BackEnd — what wake, complete and start do to a sound core

None of the three can fail on a sound core, and each is a sequence of moves.  `run_wake` computes
its result.  For the other two it is enough to know which records they pick: the oldest of
`Trace.contending` takes the bus (`Core.Completed`), and the oldest of `Trace.ready` take the idle
units (`Core.Begun`).
-/

namespace Tomasulo

/-! ## The oldest of a list -/

/-- The least key of a list heads any ascending list of its keys. -/
theorem map_minOn?_eq_head? {α : Type} {xs : List α} {key : α → Nat} {keys : List Nat}
    (hsorted : keys.Pairwise (· < ·)) (hkeys : ∀ i, i ∈ keys ↔ ∃ x ∈ xs, key x = i) :
    (xs.minOn? key).map key = keys.head? := by
  cases keys with
  | nil =>
    have hnil : xs = [] := List.eq_nil_iff_forall_not_mem.2 fun x hx => by
      simpa using (hkeys (key x)).2 ⟨x, hx, rfl⟩
    simp [hnil]
  | cons i is =>
    obtain ⟨x, hx, hxi⟩ := (hkeys i).1 (List.mem_cons_self ..)
    obtain ⟨m, hm⟩ := Option.isSome_iff_exists.1
      (List.isSome_minOn?_iff.2 (List.ne_nil_of_mem hx) : (xs.minOn? key).isSome = true)
    have hmem : key m ∈ i :: is := (hkeys _).2 ⟨m, List.minOn?_mem hm, rfl⟩
    have hle : key m ≤ i := by
      have := List.apply_get_minOn?_le_of_mem (f := key) hx
      simpa [hm, hxi] using this
    rw [hm, Option.map_some, List.head?_cons, Option.some.injEq]
    rcases List.mem_cons.1 hmem with heq | htail
    · exact heq
    · exact absurd ((List.pairwise_cons.1 hsorted).1 _ htail) (Nat.not_lt.2 hle)

/-- What follows an action goes on where the action stops. -/
theorem Step.run_bind_ok {α β : Type} {x : Step α} {a : α} {c c' : Core}
    (h : x.run c = .ok a c') (f : α → Step β) : (x >>= f).run c = (f a).run c' := by
  rw [EStateM.run_bind, h]

/-- What follows an action that stops is not run. -/
theorem Step.run_bind_error {α β : Type} {x : Step α} {halt : Halt} {c c' : Core}
    (h : x.run c = .error halt c') (f : α → Step β) : (x >>= f).run c = .error halt c' := by
  rw [EStateM.run_bind, h]

theorem Step.run_lift_ok {α : Type} {x : Except Fault α} {a : α} (h : x = .ok a) (c : Core) :
    (liftM x : Step α).run c = .ok a c := by
  rw [h]
  rfl

/-- A loop goes on where its first round stops. -/
theorem Step.run_forM_cons {α : Type} {f : α → Step Unit} {x : α} {c c' : Core}
    (h : (f x).run c = .ok () c') (xs : List α) :
    ((x :: xs).forM f).run c = (xs.forM f).run c' :=
  run_bind_ok h fun _ => xs.forM f

namespace Core

variable {config : Config} {program : Trace} {c : Core} {now : Nat}

/-! ## Wake -/

theorem run_forget {c : Core} {register : Nat} (h : register < c.machine.registers.size)
    (done : Nat) : (Step.forget done register).run c =
      .ok () { c with machine.registers := c.machine.registers.forgotten done register } := by
  simp only [Step.forget, EStateM.run_bind, Step.run_machine]
  rw [RegisterMap.forget_eq_ok h]
  rfl

theorem run_forgets {c : Core} {registers : List Nat}
    (h : ∀ register ∈ registers, register < c.machine.registers.size) (done : Nat) :
    (registers.forM (Step.forget done)).run c =
      .ok () { c with machine.registers := c.machine.registers.forgetAll done registers } := by
  induction registers generalizing c with
  | nil => rfl
  | cons register registers ih =>
    obtain ⟨hhead, htail⟩ := List.forall_mem_cons.1 h
    rw [Step.run_forM_cons (run_forget hhead done)]
    exact ih (by simpa using htail)

theorem run_resolves {c : Core} {es : List InFlight} (h : ∀ e ∈ es, e.index < c.trace.size)
    (done : Nat) : (es.forM fun e => Step.amend e.index (·.resolve done)).run c =
      .ok () { c with trace := c.trace.resolved done (es.map (·.index)) } := by
  induction es generalizing c with
  | nil => rfl
  | cons e es ih =>
    obtain ⟨hhead, htail⟩ := List.forall_mem_cons.1 h
    obtain ⟨r, hr⟩ := Trace.exists_getElem? hhead
    have hstep : (Step.amend e.index (·.resolve done)).run c =
        .ok () { c with trace := c.trace.modify e.index (·.resolve done) } := Step.run_amend hr _
    rw [Step.run_forM_cons (f := fun e : InFlight => Step.amend e.index (·.resolve done)) hstep]
    exact ih (by simpa using htail)

/-- A core after its wake. -/
def awoken (c : Core) (now : Nat) : Core :=
  match c.machine.bus.carried with
  | none => c
  | some d => c.woken now d (c.trace.writesAt d)

/-- **Waking is one move, if there is anything to wake.** -/
theorem Sound.run_wake (h : c.Sound config program) (now : Nat) :
    (Step.wake now).run c = .ok () (c.awoken now) ∧ Moves now c (c.awoken now) := by
  simp only [Step.wake, EStateM.run_bind, Step.run_machine, awoken]
  cases hbus : c.machine.bus.carried with
  | none => exact ⟨rfl, .refl⟩
  | some d =>
    obtain ⟨n, hn⟩ := Option.isSome_iff_exists.1 (h.bus hbus)
    obtain ⟨r, hr⟩ := Trace.exists_getElem? (Trace.lt_size_of_cycleAt hn)
    have hwrites : c.trace.writesAt d = r.writes := by simp [Trace.writesAt, hr]
    obtain ⟨hcursor, hpool, -⟩ := h.issued.1 (h.started (h.broadcast (h.bus hbus)).2)
    obtain ⟨p, hp⟩ := Option.isSome_iff_exists.1 hpool
    have hrange : ∀ register ∈ r.writes, register < c.machine.registers.size := fun register hreg =>
      h.lt_size_registers hcursor (Trace.isScheduled_of_poolAt hp) hr register
        (List.mem_append_left _ hreg)
    have hstationed : ∀ e ∈ c.machine.stationed, e.index < c.trace.size := by
      intro e he
      obtain ⟨q, s, f, hs, heq⟩ := c.mem_stationed.1 (List.mem_map_of_mem he)
      exact heq ▸ h.lt_size_of_station hs
    dsimp only
    rw [hwrites]
    refine ⟨?_, .single (.wake hbus hr)⟩
    let idle : Core := { c with machine.bus := .idle }
    let forgotten : Core :=
      { idle with machine.registers := c.machine.registers.forgetAll d r.writes }
    have hread : (Step.record d).run idle = .ok r idle := Step.run_record hr
    have hforget : (r.writes.forM (Step.forget d)).run idle = .ok () forgotten :=
      run_forgets (c := idle) hrange d
    have hresolve := run_resolves (c := forgotten) hstationed d
    refine (Step.run_bind_ok (Step.run_onMachine _ c) _).trans ?_
    refine (Step.run_bind_ok hread _).trans ?_
    refine (Step.run_bind_ok hforget _).trans ?_
    refine (Step.run_bind_ok (Step.run_machine forgotten) _).trans ?_
    refine (Step.run_bind_ok hresolve _).trans ?_
    rfl

/-- Waking touches the bus, the register map and the producers only. -/
structure Awoken (c c' : Core) : Prop where
  queue : c'.machine.queue = c.machine.queue
  cursor : c'.machine.cursor = c.machine.cursor
  bus : c'.machine.bus.carried = none
  cycleAt : ∀ stage i, c'.trace.cycleAt stage i = c.trace.cycleAt stage i

theorem awoken_awoken (c : Core) (now : Nat) : Awoken c (c.awoken now) := by
  unfold awoken
  split
  · next hbus => exact ⟨rfl, rfl, hbus, fun _ _ => rfl⟩
  · exact ⟨rfl, rfl, rfl, c.cycleAt_woken _ _ _⟩

/-! ## Complete

### Releasing -/

theorem run_release {p : Pool} {u s : Nat} {e : InFlight} (hu : c.unitAt p u = some s)
    (hs : c.stationAt p s = some e) : (Step.release p u).run c = .ok (some e) (c.freed p u s) := by
  have hrelease : (c.machine.units p).release u =
      .ok (some s, { c.machine.units p with
        running := (c.machine.units p).running.put u none }) := by
    rw [Units.release, Slots.reach_eq_ok (Slots.lt_size_of_get hu)]
    rw [unitAt] at hu
    simp [hu]
  have hvacate : (c.machine.stations p).vacate s =
      .ok (e, (c.machine.stations p).put s none) := by
    rw [stationAt] at hs
    simp [Stations.vacate, Slots.reach_eq_ok (Slots.lt_size_of_get hs), hs]
  refine (Step.run_bind_ok (Step.run_machine c) _).trans ?_
  refine (Step.run_bind_ok (Step.run_lift_ok hrelease c) _).trans ?_
  refine (Step.run_bind_ok (Step.run_onMachine _ c) _).trans ?_
  refine (Step.run_bind_ok (Step.run_lift_ok hvacate _) _).trans ?_
  rfl

/-! ### Finished stores -/

/-- A core some of whose stations and units have been given up. -/
structure Vacated (c c' : Core) : Prop where
  trace : c'.trace = c.trace
  queue : c'.machine.queue = c.machine.queue
  cursor : c'.machine.cursor = c.machine.cursor
  bus : c'.machine.bus = c.machine.bus
  station : ∀ {p s e}, c'.stationAt p s = some e → c.stationAt p s = some e

theorem Vacated.trans {c c' c'' : Core} (h : Vacated c c') (h' : Vacated c' c'') :
    Vacated c c'' where
  trace := h'.trace.trans h.trace
  queue := h'.queue.trans h.queue
  cursor := h'.cursor.trans h.cursor
  bus := h'.bus.trans h.bus
  station hs := h.station (h'.station hs)

/-- One round of `Step.completeStores`. -/
def releaseStore (now : Nat) (r : Running) : Step Unit := do
  if let some e ← Step.release r.pool r.unit then
    Step.emit (.storeCompleted now e.index)

/-- Stores on different units leave one after the other. -/
theorem Sound.run_release_stores (h : c.Sound config program) {rs : List Running} {p : Pool}
    (hrs : ∀ r ∈ rs, r.pool = p ∧ c.Runs r ∧ r.record.op = .store ∧ c.hasFinished now r = true)
    (hunits : rs.Pairwise (·.unit < ·.unit)) :
    ∃ c', (rs.forM (releaseStore now)).run c = .ok () c' ∧ Deeds now c c' ∧ Vacated c c' ∧
      ∀ r ∈ rs, c'.stationAt r.pool r.station = none := by
  induction rs generalizing c with
  | nil => exact ⟨c, rfl, .refl, ⟨rfl, rfl, rfl, rfl, id⟩, by simp⟩
  | cons r rs ih =>
    obtain ⟨hhead, htail⟩ := List.forall_mem_cons.1 hrs
    obtain ⟨hlt, hunits⟩ := List.pairwise_cons.1 hunits
    obtain ⟨rfl, ⟨hu, hs⟩, hop, hdone⟩ := hhead
    let c₁ := (c.freed r.pool r.unit r.station).noted (.storeCompleted now r.record.index)
    have hdeed : Deed now c c₁ := .store hu hs hop hdone
    have hround : (releaseStore now r).run c = .ok () c₁ :=
      Step.run_bind_ok (run_release hu hs) _
    have hstation {q x e} : c₁.stationAt q x = some e ↔
        ¬(q = r.pool ∧ x = r.station) ∧ c.stationAt q x = some e := c.stationAt_freed ..
    have hvacated : Vacated c c₁ := ⟨rfl, rfl, rfl, rfl, fun hx => (hstation.1 hx).2⟩
    have hrest : ∀ r' ∈ rs, r'.pool = r.pool ∧ c₁.Runs r' ∧ r'.record.op = .store ∧
        c₁.hasFinished now r' = true := by
      intro r' hr'
      obtain ⟨hpool, ⟨hu', hs'⟩, hop', hdone'⟩ := htail r' hr'
      have hne : r'.unit ≠ r.unit := Nat.ne_of_gt (hlt r' hr')
      have hs₁ : c₁.stationAt r'.pool r'.station = some r'.record := by
        refine hstation.2 ⟨?_, hs'⟩
        rintro ⟨-, hx⟩
        rw [hpool, hx] at hu'
        exact hne (h.unit_inj hu' hu)
      have hu₁ : c₁.unitAt r'.pool r'.unit = some r'.station :=
        (c.unitAt_freed ..).2 ⟨fun hx => hne hx.2, hu'⟩
      refine ⟨hpool, ⟨hu₁, hs₁⟩, hop', ?_⟩
      rw [(h.move hdeed.move).hasFinished_iff_doneAt hs₁]
      exact (h.hasFinished_iff_doneAt hs').1 hdone'
    obtain ⟨c', hrun, hdeeds, hvac, hgone⟩ := ih (h.move hdeed.move) hrest hunits
    refine ⟨c', ?_, .head hdeed hdeeds, hvacated.trans hvac, List.forall_mem_cons.2 ⟨?_, hgone⟩⟩
    · rw [Step.run_forM_cons hround]
      exact hrun
    · refine Option.eq_none_iff_forall_ne_some.2 fun e he => ?_
      exact (hstation.1 (hvac.station he)).1 ⟨rfl, rfl⟩

/-- A store that is done runs, so it is among those the machine completes. -/
theorem Sound.run_completeStores (h : c.Sound config program) (now : Nat) (p : Pool) :
    ∃ c', (Step.completeStores now p).run c = .ok () c' ∧ Deeds now c c' ∧ Vacated c c' ∧
      ∀ {s e f}, c'.stationAt p s = some e → e.op = .store →
        c.trace.doneAt config.wordSum e.index = some f → now < f := by
  have hrs : ∀ r ∈ c.finishedStores now p,
      r.pool = p ∧ c.Runs r ∧ r.record.op = .store ∧ c.hasFinished now r = true := by
    intro r hr
    simp only [finishedStores, List.mem_filter, mem_running, Bool.and_eq_true, beq_iff_eq] at hr
    exact ⟨hr.1.1, hr.1.2, hr.2.1, hr.2.2⟩
  obtain ⟨c', hrun, hdeeds, hvac, hgone⟩ :=
    h.run_release_stores hrs ((c.pairwise_running p).filter _)
  refine ⟨c', hrun, hdeeds, hvac, fun {s e f} hs hop hf => Nat.lt_of_not_le fun hle => ?_⟩
  have hs' := hvac.station hs
  obtain ⟨q', n, -, hn, -⟩ := Trace.doneAt_eq_some_iff.1 hf
  obtain ⟨⟨q, u, s', e'⟩, ⟨hu, he⟩, heq⟩ :=
    h.isRunning_iff.2 ⟨⟨p, s, e, hs', rfl⟩, Option.isSome_of_eq_some hn⟩
  have hqp : q = p := by
    have hpool := h.poolAt_station he
    rw [heq, h.poolAt_station hs'] at hpool
    exact (Option.some.inj hpool).symm
  subst hqp
  obtain rfl := h.station_inj he hs' heq
  obtain rfl := Option.some.inj (he.symm.trans hs')
  have hmem : (⟨q, u, s', e'⟩ : Running) ∈ c.finishedStores now q := by
    simp only [finishedStores, List.mem_filter, mem_running, Bool.and_eq_true, beq_iff_eq]
    exact ⟨⟨trivial, hu, he⟩, hop, (h.hasFinished_iff_doneAt he).2 ⟨f, hf, hle⟩⟩
  rw [hgone _ hmem] at hs
  cases hs

/-! ### The bus -/

/-- A stage that has no stamp yet can be stamped. -/
theorem run_stamp {stage : Stage} {i : Nat} (hlt : i < c.trace.size)
    (hnew : c.trace.cycleAt stage i = none) (now : Nat) :
    (Step.stamp stage now i).run c = .ok () { c with trace := c.trace.stamped stage now i } := by
  obtain ⟨r, hr⟩ := Trace.exists_getElem? hlt
  have hstamp : r.stamp stage now =
      .ok { r with stamps := r.stamps.set stage (some now) } := by
    rw [Trace.cycleAt_of_getElem? hr] at hnew
    simp [Record.stamp, Stamps.stamp, hnew]
  have hmodify : (c.trace.modify i fun _ => { r with stamps := r.stamps.set stage (some now) }) =
      c.trace.stamped stage now i := by
    refine Trace.ext_getElem? fun j => ?_
    rw [Trace.stamped, Trace.getElem?_modify, Trace.getElem?_modify]
    split
    · next hij => rw [← hij, hr]; rfl
    · rfl
  refine (Step.run_bind_ok (Step.run_record hr) _).trans ?_
  refine (Step.run_bind_ok (Step.run_lift_ok hstamp c) _).trans ?_
  rw [Step.run_amend hr, hmodify]

theorem mem_contenders {r : Running} : r ∈ c.contenders now ↔
    c.Runs r ∧ r.record.op.broadcasts = true ∧ c.hasFinished now r = true := by
  simp [contenders, mem_running]

/-- Who wants the bus publishes, has not been on it, and is done. -/
theorem Sound.exists_contender_iff (h : c.Sound config program) (now i : Nat) :
    (∃ r ∈ c.contenders now, r.record.index = i) ↔
      program.publishes i = true ∧ c.trace.cycleAt .cdb i = none ∧
        ∃ f, c.trace.doneAt config.wordSum i = some f ∧ f ≤ now := by
  constructor
  · rintro ⟨r, hr, rfl⟩
    obtain ⟨⟨hu, hs⟩, hop, hdone⟩ := mem_contenders.1 hr
    exact ⟨Trace.publishes_iff.2 ⟨_, (h.station_class hs).1, hop⟩, (h.station_stamps hs).2,
      (h.hasFinished_iff_doneAt hs).1 hdone⟩
  · rintro ⟨hpub, hcdb, f, hf, hle⟩
    obtain ⟨p, n, -, hn, -⟩ := Trace.doneAt_eq_some_iff.1 hf
    have hissue := h.started (Option.isSome_of_eq_some hn)
    obtain ⟨r, hr, rfl⟩ := h.isRunning_iff.2
      ⟨(h.isStationed_of_publishes hpub).2 ⟨hissue, hcdb⟩, Option.isSome_of_eq_some hn⟩
    have hop : r.record.op.broadcasts = true := by
      simpa [Trace.publishes, (h.station_class hr.2).1] using hpub
    exact ⟨r, mem_contenders.2 ⟨hr, hop, (h.hasFinished_iff_doneAt hr.2).2 ⟨f, hf, hle⟩⟩, rfl⟩

/-- In a cycle after all stamps on the bus these are the contending ones. -/
theorem Sound.mem_contending_iff (h : c.Sound config program)
    (hpast : ∀ {i n}, c.trace.cycleAt .cdb i = some n → n < now) (i : Nat) :
    i ∈ c.trace.contending config.wordSum now ↔ ∃ r ∈ c.contenders now, r.record.index = i := by
  have hnone : (∀ n, c.trace.cycleAt .cdb i = some n → now ≤ n) ↔
      c.trace.cycleAt .cdb i = none := by
    rw [Option.eq_none_iff_forall_ne_some]
    exact ⟨fun hcdb n hn => Nat.not_le.2 (hpast hn) (hcdb n hn),
      fun hcdb n hn => absurd hn (hcdb n)⟩
  rw [Trace.mem_contending, h.publishes_trace, h.exists_contender_iff, hnone,
    and_comm (b := _ = none)]

/-- **What complete has done**: the oldest contending record has taken the bus, and no finished
store is left in a station. -/
structure Completed (config : Config) (now : Nat) (c c' : Core) : Prop where
  deeds : Deeds now c c'
  queue : c'.machine.queue = c.machine.queue
  cursor : c'.machine.cursor = c.machine.cursor
  bus : c'.machine.bus.carried = (c.trace.contending config.wordSum now).head?
  cycleAt : ∀ stage i, c'.trace.cycleAt stage i =
    if stage = .cdb ∧ (c.trace.contending config.wordSum now).head? = some i then some now
    else c.trace.cycleAt stage i
  store : ∀ {p s e f}, c'.stationAt p s = some e → e.op = .store →
    c.trace.doneAt config.wordSum e.index = some f → now < f

theorem Completed.moves {c' : Core} (h : Completed config now c c') : Moves now c c' :=
  h.deeds.moves

/-- What `Step.complete` does with the winner of the bus. -/
def publish (now : Nat) (r : Running) : Step Unit := do
  Step.stamp .cdb now r.record.index
  let bus ← (← Step.machine).bus.broadcast r.record.index
  Step.onMachine ({ · with bus })
  let freed ← Step.release r.pool r.unit
  if freed.map (·.index) ≠ some r.record.index then
    throw (.fault .strayRelease)
  Step.emit (.broadcast now r.record.index r.pool)

/-- The winner of the bus is stamped and leaves. -/
theorem Sound.run_publish (h : c.Sound config program) {r : Running} (hr : c.Runs r)
    (hbus : c.machine.bus.carried = none) :
    (publish now r).run c =
      .ok () (c.published now r.pool r.unit r.station r.record.index) := by
  let stamped : Core := { c with trace := c.trace.stamped .cdb now r.record.index }
  let carrying : Core := { stamped with machine.bus := ⟨some r.record.index⟩ }
  have hbroadcast : stamped.machine.bus.broadcast r.record.index =
      .ok ⟨some r.record.index⟩ := by
    have hidle : stamped.machine.bus.carried = none := hbus
    rw [ResultBus.broadcast, hidle]
  have hrelease : (Step.release r.pool r.unit).run carrying =
      .ok (some r.record) (carrying.freed r.pool r.unit r.station) := run_release hr.1 hr.2
  refine (Step.run_bind_ok (run_stamp (h.lt_size_of_station hr.2) (h.station_stamps hr.2).2 now)
    _).trans ?_
  refine (Step.run_bind_ok (Step.run_machine stamped) _).trans ?_
  refine (Step.run_bind_ok (Step.run_lift_ok hbroadcast stamped) _).trans ?_
  refine (Step.run_bind_ok (Step.run_onMachine _ stamped) _).trans ?_
  refine (Step.run_bind_ok hrelease _).trans ?_
  rw [Option.map_some, if_neg (fun hne => hne rfl)]
  rfl

/-- Finished stores leave both pools. -/
theorem Sound.run_stores (h : c.Sound config program) (now : Nat) :
    ∃ c', (Pool.all.forM (Step.completeStores now)).run c = .ok () c' ∧ Deeds now c c' ∧
      Vacated c c' ∧ ∀ {p s e f}, c'.stationAt p s = some e → e.op = .store →
        c.trace.doneAt config.wordSum e.index = some f → now < f := by
  obtain ⟨c₁, hrun₁, hdeeds₁, hvac₁, hstore₁⟩ := h.run_completeStores now .int
  obtain ⟨c₂, hrun₂, hdeeds₂, hvac₂, hstore₂⟩ :=
    (h.moves hdeeds₁.moves).run_completeStores now .fp
  refine ⟨c₂, ?_, hdeeds₁.trans hdeeds₂, hvac₁.trans hvac₂, fun {p s e f} hs hop hf => ?_⟩
  · let stores (p : Pool) : Step Unit := Step.completeStores now p
    refine (Step.run_forM_cons (f := stores) hrun₁ _).trans ?_
    exact (Step.run_forM_cons (f := stores) hrun₂ _).trans rfl
  · cases p with
    | int => exact hstore₁ (hvac₂.station hs) hop hf
    | fp => exact hstore₂ hs hop (by rwa [hvac₁.trace])

/-- After the stores the bus goes to the winner. -/
theorem run_complete_of_stores {c' : Core}
    (hstores : (Pool.all.forM (Step.completeStores now)).run c = .ok () c') :
    (Step.complete now).run c =
      (match c'.winner? now with
        | none => return
        | some r => publish now r : Step Unit).run c' :=
  (Step.run_bind_ok hstores _).trans (Step.run_bind_ok (EStateM.run_get c') _)

/-- **Complete cannot fail**, if the bus is idle. -/
theorem Sound.run_complete (h : c.Sound config program) (hbus : c.machine.bus.carried = none)
    (hpast : ∀ {i n}, c.trace.cycleAt .cdb i = some n → n < now) :
    ∃ c', (Step.complete now).run c = .ok () c' ∧ Completed config now c c' := by
  obtain ⟨c₂, hstores, hdeeds, hvac, hstore⟩ := h.run_stores now
  have h₂ := h.moves hdeeds.moves
  have hhead : (c₂.winner? now).map (·.record.index) =
      (c.trace.contending config.wordSum now).head? := by
    rw [← hvac.trace] at hpast ⊢
    exact map_minOn?_eq_head? (Trace.pairwise_contending ..) (h₂.mem_contending_iff hpast)
  rw [run_complete_of_stores hstores]
  cases hwinner : c₂.winner? now with
  | none =>
    rw [hwinner] at hhead
    refine ⟨c₂, rfl, hdeeds, hvac.queue, hvac.cursor, ?_, ?_, hstore⟩
    · rw [hvac.bus, hbus, ← hhead]
      rfl
    · intro stage i
      rw [hvac.trace, ← hhead, if_neg (by simp)]
  | some r =>
    obtain ⟨hruns, hop, hdone⟩ := mem_contenders.1 (List.minOn?_mem hwinner)
    have hidle : c₂.machine.bus.carried = none := by rw [hvac.bus, hbus]
    have hdeed : Deed now c₂ (c₂.published now r.pool r.unit r.station r.record.index) :=
      .publish hruns.1 hruns.2 hop hdone hidle
    rw [hwinner, Option.map_some] at hhead
    refine ⟨_, h₂.run_publish hruns hidle, hdeeds.tail hdeed, hvac.queue, hvac.cursor, hhead, ?_,
      ?_⟩
    · intro stage i
      change (c₂.trace.stamped .cdb now r.record.index).cycleAt stage i = _
      rw [Trace.cycleAt_stamped (h₂.lt_size_of_station hruns.2), ← hhead, hvac.trace]
      simp only [Option.some.injEq, and_comm, eq_comm (a := i)]
    · intro p s e f hs
      exact hstore ((c₂.stationAt_freed ..).1 hs).2

/-! ## Start -/

/-- The oldest ready record of a pool heads the ready ones. -/
theorem Sound.oldestReady?_eq_head? (h : c.Sound config program) (now : Nat) (p : Pool) :
    (c.oldestReady? now p).map (·.2.index) = (c.trace.ready now p).head? := by
  refine map_minOn?_eq_head? (Trace.pairwise_ready ..) fun i => ?_
  simp only [List.mem_filter, Prod.exists, Slots.mem_occupied]
  rw [Trace.mem_ready, h.poolAt_trace]
  constructor
  · rintro ⟨hp, hproducer, ⟨n, hn, hlt⟩, hnew⟩
    obtain ⟨q, s, e, hs, rfl⟩ := h.isStationed_of_not_started (Option.isSome_of_eq_some hn) hnew
    rw [h.poolAt_station hs] at hp
    obtain rfl := Option.some.inj hp
    refine ⟨s, e, ⟨hs, ?_⟩, rfl⟩
    exact (isReady_iff (h.lt_size_of_station hs)).2 ⟨hproducer, ⟨n, hn, hlt⟩, hnew⟩
  · rintro ⟨s, e, ⟨hs, hready⟩, rfl⟩
    exact ⟨h.poolAt_station hs, (isReady_iff (h.lt_size_of_station hs)).1 hready⟩

/-- **What start has done in one pool**: the oldest ready records have taken the idle units. -/
structure Started (now : Nat) (p : Pool) (idle : Nat) (c c' : Core) : Prop where
  deeds : Deeds now c c'
  queue : c'.machine.queue = c.machine.queue
  cursor : c'.machine.cursor = c.machine.cursor
  bus : c'.machine.bus = c.machine.bus
  stations : c'.machine.stations = c.machine.stations
  units : ∀ q, q ≠ p → c'.machine.units q = c.machine.units q
  producerAt : ∀ i slot, c'.trace.producerAt i slot = c.trace.producerAt i slot
  cycleAt : ∀ stage i, c'.trace.cycleAt stage i =
    if stage = .execute ∧ i ∈ (c.trace.ready now p).take idle then some now
    else c.trace.cycleAt stage i

/-- A record starts on an idle unit. -/
theorem Sound.run_begin (h : c.Sound config program) {p : Pool} {u s : Nat} {e : InFlight}
    (hlt : u < (c.machine.units p).running.size) (hu : c.unitAt p u = none)
    (hs : c.stationAt p s = some e) (hnew : c.trace.cycleAt .execute e.index = none)
    (next : Step Unit) :
    (do
      Step.stamp .execute now e.index
      let m ← Step.machine
      let units ← (m.units p).assign u s
      Step.onMachine ({ · with units := m.units.set p units })
      Step.emit (.started now e.index p u)
      next : Step Unit).run c = next.run (c.begun now p u s e.index) := by
  let stamped : Core := { c with trace := c.trace.stamped .execute now e.index }
  have hassign : (stamped.machine.units p).assign u s =
      .ok { c.machine.units p with running := (c.machine.units p).running.put u (some s) } := by
    rw [unitAt] at hu
    change (c.machine.units p).assign u s = _
    simp [Units.assign, Slots.reach_eq_ok hlt, hu]
  refine (Step.run_bind_ok (run_stamp (h.lt_size_of_station hs) hnew now) _).trans ?_
  refine (Step.run_bind_ok (Step.run_machine stamped) _).trans ?_
  refine (Step.run_bind_ok (Step.run_lift_ok hassign stamped) _).trans ?_
  refine (Step.run_bind_ok (Step.run_onMachine _ stamped) _).trans ?_
  exact (Step.run_bind_ok (Step.run_emit _ _) _).trans rfl

/-- **Start cannot fail** on units that are idle. -/
theorem Sound.run_startOn (h : c.Sound config program) (now : Nat) {p : Pool} {idle : List Nat}
    (hidle : ∀ u ∈ idle, u < (c.machine.units p).running.size ∧ c.unitAt p u = none)
    (hnodup : idle.Nodup) :
    ∃ c', (Step.startOn now p idle).run c = .ok () c' ∧ Started now p idle.length c c' := by
  induction idle generalizing c with
  | nil => exact ⟨c, rfl, .refl, rfl, rfl, rfl, rfl, fun _ _ => rfl, fun _ _ => rfl, by simp⟩
  | cons u idle ih =>
    obtain ⟨⟨hlt, hu⟩, hrest⟩ := List.forall_mem_cons.1 hidle
    obtain ⟨hnot, hnodup⟩ := List.nodup_cons.1 hnodup
    have hhead := h.oldestReady?_eq_head? now p
    cases holdest : c.oldestReady? now p with
    | none =>
      rw [holdest, Option.map_none] at hhead
      have hnil : c.trace.ready now p = [] := List.head?_eq_none_iff.1 hhead.symm
      refine ⟨c, ?_, .refl, rfl, rfl, rfl, rfl, fun _ _ => rfl, fun _ _ => rfl, by simp [hnil]⟩
      refine (Step.run_bind_ok (EStateM.run_get c) _).trans ?_
      rw [holdest]
      rfl
    | some found =>
      obtain ⟨s, e⟩ := found
      rw [holdest] at hhead
      change some e.index = _ at hhead
      have hmem := List.minOn?_mem holdest
      simp only [List.mem_filter, Slots.mem_occupied] at hmem
      obtain ⟨hs, hready⟩ := hmem
      have hnew := ((isReady_iff (h.lt_size_of_station hs)).1 hready).2.2
      have hdeed : Deed now c (c.begun now p u s e.index) := .start hlt hu hs hready
      obtain ⟨rest, hcons⟩ := List.head?_eq_some_iff.1 hhead.symm
      have hsize : ((c.begun now p u s e.index).machine.units p).running.size =
          (c.machine.units p).running.size := by
        rw [(h.move hdeed.move).fits.units, h.fits.units]
      have hidle' : ∀ v ∈ idle, v < ((c.begun now p u s e.index).machine.units p).running.size ∧
          (c.begun now p u s e.index).unitAt p v = none := by
        intro v hv
        obtain ⟨hvlt, hvnone⟩ := hrest v hv
        refine ⟨hsize ▸ hvlt, Option.eq_none_iff_forall_ne_some.2 fun y hy => ?_⟩
        rcases (c.unitAt_begun hlt now s e.index).1 hy with ⟨-, rfl, -⟩ | ⟨-, hy⟩
        · exact hnot hv
        · rw [hvnone] at hy
          cases hy
      obtain ⟨c', hrun, hstarted⟩ := ih (h.move hdeed.move) hidle' hnodup
      have hready' : (c.begun now p u s e.index).trace.ready now p = rest :=
        Trace.ready_stamped hcons
      have hcycle := Trace.cycleAt_stamped (h.lt_size_of_station hs) .execute now
      refine ⟨c', ?_, .head hdeed hstarted.deeds, hstarted.queue, hstarted.cursor, hstarted.bus,
        hstarted.stations, ?_, ?_, ?_⟩
      · refine (Step.run_bind_ok (EStateM.run_get c) _).trans ?_
        rw [holdest]
        exact (h.run_begin hlt hu hs hnew _).trans hrun
      · intro q hq
        refine (hstarted.units q hq).trans ?_
        change (c.machine.units.set p _) q = _
        rw [ByPool.get_set, if_neg hq]
      · intro i slot
        exact (hstarted.producerAt i slot).trans (Trace.producerAt_stamped ..)
      · intro stage i
        rw [hstarted.cycleAt, hready', hcons]
        simp only [List.length_cons, List.take_succ_cons]
        change (if _ then _ else (c.trace.stamped .execute now e.index).cycleAt stage i) = _
        rw [hcycle]
        by_cases hi : i = e.index <;> by_cases hst : stage = .execute <;> simp [hi, hst]

/-- **What start has done**: in each pool the oldest ready records have taken the idle units. -/
structure Begun (now : Nat) (c c' : Core) : Prop where
  deeds : Deeds now c c'
  queue : c'.machine.queue = c.machine.queue
  cursor : c'.machine.cursor = c.machine.cursor
  bus : c'.machine.bus = c.machine.bus
  stations : c'.machine.stations = c.machine.stations
  execute : ∀ {p i}, c.trace.poolAt i = some p → c'.trace.cycleAt .execute i =
    if i ∈ (c.trace.ready now p).take (c.machine.units p).running.vacant.length then some now
    else c.trace.cycleAt .execute i
  other : ∀ stage i, stage ≠ .execute → c'.trace.cycleAt stage i = c.trace.cycleAt stage i

theorem Begun.moves {c' : Core} (h : Begun now c c') : Moves now c c' :=
  h.deeds.moves

theorem Sound.run_start (h : c.Sound config program) (now : Nat) :
    ∃ c', (Step.start now).run c = .ok () c' ∧ Begun now c c' := by
  have hvacant (c : Core) (p : Pool) : ∀ u ∈ (c.machine.units p).running.vacant,
      u < (c.machine.units p).running.size ∧ c.unitAt p u = none := fun u hu =>
    Slots.mem_vacant.1 hu
  have hnodup (c : Core) (p : Pool) : (c.machine.units p).running.vacant.Nodup :=
    List.nodup_range.filter _
  obtain ⟨c₁, hrun₁, h₁⟩ := h.run_startOn now (hvacant c .int) (hnodup c .int)
  have hs₁ := h.moves h₁.deeds.moves
  obtain ⟨c₂, hrun₂, h₂⟩ := hs₁.run_startOn now (hvacant c₁ .fp) (hnodup c₁ .fp)
  have hnot {p q : Pool} {t : Trace} {n i : Nat} (hi : t.poolAt i = some q) (hne : p ≠ q) :
      i ∉ (t.ready now p).take n := by
    intro hmem
    rw [(Trace.mem_ready.1 (List.mem_of_mem_take hmem)).1] at hi
    exact hne (Option.some.inj hi)
  have hready : c₁.trace.ready now .fp = c.trace.ready now .fp := by
    refine Trace.ready_congr (by rw [hs₁.poolAt_trace, h.poolAt_trace]) h₁.producerAt ?_ ?_
    · intro i
      rw [h₁.cycleAt, if_neg (by simp)]
    · intro i hi
      rw [h₁.cycleAt, if_neg fun hmem => hnot hi (by decide) hmem.2]
  refine ⟨c₂, ?_, h₁.deeds.trans h₂.deeds, h₂.queue.trans h₁.queue, h₂.cursor.trans h₁.cursor,
    h₂.bus.trans h₁.bus, h₂.stations.trans h₁.stations, ?_, ?_⟩
  · have hint : (do Step.startOn now .int ((← Step.machine).units .int).running.vacant :
        Step Unit).run c = .ok () c₁ := (Step.run_bind_ok (Step.run_machine c) _).trans hrun₁
    have hfp : (do Step.startOn now .fp ((← Step.machine).units .fp).running.vacant :
        Step Unit).run c₁ = .ok () c₂ := (Step.run_bind_ok (Step.run_machine c₁) _).trans hrun₂
    let round (p : Pool) : Step Unit := do
      Step.startOn now p ((← Step.machine).units p).running.vacant
    refine (Step.run_forM_cons (f := round) hint _).trans ?_
    exact (Step.run_forM_cons (f := round) hfp _).trans rfl
  · intro p i hi
    rw [h₂.cycleAt, h₁.cycleAt, hready, h₁.units .fp (by decide)]
    cases p with
    | int => simp [hnot hi (p := .fp) (by decide)]
    | fp => simp [hnot hi (p := .int) (by decide)]
  · intro stage i hst
    rw [h₂.cycleAt, h₁.cycleAt, if_neg fun h => hst h.1, if_neg fun h => hst h.1]

end Core

end Tomasulo
