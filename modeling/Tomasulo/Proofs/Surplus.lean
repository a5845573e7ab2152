import Tomasulo.Proofs.Capacity

/-!
# Proofs/Surplus — stations and units that a program cannot use

A program never fills more stations of a pool than it has records for it, and never keeps more units
busy than it fills stations.  What a machine has beyond that is inert: a program cannot tell apart
two machines of which it can use the same (`schedule_of_usable`), so the surplus can be cut off
(`schedule_trimmed`).
-/

namespace Tomasulo

/-! ## The usable part of a machine -/

namespace PoolConfig

variable {pool : PoolConfig}

/-- What so many records can use of a pool. -/
def usable (pool : PoolConfig) (records : Nat) : PoolConfig where
  stations := min pool.stations records
  units := min pool.units (min pool.stations records)
  latency := pool.latency

/-- The pool without what so many records cannot use, but with one station and one unit at least. -/
def trimmed (pool : PoolConfig) (records : Nat) : PoolConfig where
  stations := max 1 (min pool.stations records)
  units := max 1 (min pool.units (min pool.stations records))
  latency := pool.latency

/-- Trimming takes nothing away that can be used. -/
theorem usable_trimmed (hstations : 1 ≤ pool.stations) (hunits : 1 ≤ pool.units) (records : Nat) :
    (pool.trimmed records).usable records = pool.usable records := by
  simp only [usable, trimmed, mk.injEq, and_true]
  omega

end PoolConfig

/-- **The machine without what a program cannot use.** -/
def Config.trimmed (config : Config) (t : Trace) : Config :=
  { config with pools := ByPool.of fun p => (config.pools p).trimmed (t.inPool p).length }

theorem Config.check_trimmed {config : Config} (h : config.check = .ok ()) (t : Trace) :
    (config.trimmed t).check = .ok () := by
  rw [check_eq_ok_iff] at h ⊢
  rintro (_ | _ | p | p | p)
  case registers => exact h .registers
  case queue => exact h .queue
  case stations => simp [get, trimmed, PoolConfig.trimmed]
  case units => simp [get, trimmed, PoolConfig.trimmed]
  case latency => simpa [get, trimmed, PoolConfig.trimmed] using h (.latency p)

namespace Trace

variable {config config' : Config} {t : Trace} {left entered : Nat → Nat} {n : Nat}

/-! ## Laws of the usable part -/

/-- A program can use the same of both machines. -/
def UsesAlike (t : Trace) (config config' : Config) : Prop :=
  ∀ p, (config'.pools p).usable (t.inPool p).length = (config.pools p).usable (t.inPool p).length

namespace UsesAlike

variable (h : t.UsesAlike config config')

include h

theorem symm : t.UsesAlike config' config := fun p => (h p).symm

theorem stations (p : Pool) : min (config'.pools p).stations (t.inPool p).length =
    min (config.pools p).stations (t.inPool p).length :=
  (congrArg PoolConfig.stations (h p) :)

theorem timing : config'.timing = config.timing := by
  funext p start
  have hlatency : (config'.pools p).latency = (config.pools p).latency :=
    (congrArg PoolConfig.latency (h p) :)
  rw [Config.timing, Config.wordSum, hlatency, Config.timing, Config.wordSum]

theorem units (p : Pool) :
    min (config'.pools p).units (min (config'.pools p).stations (t.inPool p).length) =
      min (config.pools p).units (min (config.pools p).stations (t.inPool p).length) :=
  (congrArg PoolConfig.units (h p) :)

/-- **No record waits for a station that the program cannot fill**: with the others of its pool it
would be one more than there are. -/
theorem mayLeave_eq : t.MayLeave config' = t.MayLeave config := by
  funext k cycle
  refine propext (forall₂_congr fun i p => imp_congr_right fun _ => imp_congr_right fun hp => ?_)
  have hlength : (i :: t.unfinishedBelow config.timing cycle p i).length ≤ (t.inPool p).length := by
    refine length_le_inPool (List.nodup_cons.2 ⟨fun hi => ?_, (pairwise_unfinishedBelow ..).nodup⟩)
      fun j hj => ?_
    · exact Nat.lt_irrefl i (mem_unfinishedBelow.1 hi).1
    · rcases List.mem_cons.1 hj with rfl | hj
      · exact hp
      · exact (mem_unfinishedBelow.1 hj).2.1
  have hstations := h.stations p
  rw [List.length_cons] at hlength
  rw [h.timing]
  omega

/-- **No record takes a unit that the program cannot keep busy**: who waits for a unit and who holds
one is a record of the pool and in a station. -/
theorem take_waiting (hlawful : t.Lawful config left) (cycle : Nat) (p : Pool) :
    (t.waiting cycle p).take ((config'.pools p).units - (t.busy config.timing cycle p).length) =
      (t.waiting cycle p).take
        ((config.pools p).units - (t.busy config.timing cycle p).length) := by
  have hfits := hlawful.length_le_stations cycle p
  have hlength : (t.waiting cycle p ++ t.busy config.timing cycle p).length ≤ (t.inPool p).length :=
    length_le_inPool (nodup_waiting_append_busy ..) fun i hi =>
      (hlawful.in_station_of_mem hi).1
  have hstations := h.stations p
  have hunits := h.units p
  rw [List.length_append] at hlength
  rw [List.take_eq_take_iff]
  omega

/-- **The laws hold on the one machine when they hold on the other.** -/
theorem lawful (hlawful : t.Lawful config left) :
    t.Lawful config' left where
  cycle_pos := hlawful.cycle_pos
  cdb := by
    intro i n
    rw [h.timing]
    exact hlawful.cdb
  pooled := hlawful.pooled
  started n p := by
    rw [h.timing, h.take_waiting hlawful, hlawful.started]
  leaves := h.mayLeave_eq ▸ hlawful.leaves
  issue := hlawful.issue

theorem fetched (hqueue : config'.queue = config.queue) (hfetched : t.Fetched config entered left) :
    t.Fetched config' entered left where
  queue := by
    rw [hqueue, h.mayLeave_eq]
    exact hfetched.queue
  dispatch := hfetched.dispatch

theorem isOver (hover : t.IsOver config left n) : t.IsOver config' left n where
  left := hover.left
  finished := by
    rw [h.timing]
    exact hover.finished
  bus := hover.bus

end UsesAlike

end Trace

/-! ## Two runs -/

/-- At the end of a run nothing waits for anything. -/
theorem producerAt_of_schedule {rs : List Record} {config : Config} {T : Nat} {t : Trace}
    (h : schedule (Trace.ofList rs) config = .ok (T, t)) (i slot : Nat) :
    t.producerAt i slot = none := by
  obtain ⟨s₀, hs, -, hdrained, rfl, -⟩ := schedule_eq_ok h
  obtain ⟨-, -, hstations, -⟩ := Core.isDrained_iff.1 hdrained
  refine (Simulation.valid_after hs T).renamed.elsewhere ?_ slot
  rintro ⟨p, s, e, he, -⟩
  rw [hstations] at he
  cases he

/-- **Machines of which a program can use the same give it the same schedule**, down to the
annotated trace: the schedule on the one is one for the other, and there is only one. -/
theorem schedule_of_usable {rs : List Record} {config config' : Config}
    (hconfig : config.check = .ok ()) (hconfig' : config'.check = .ok ())
    (hregisters : config'.registers = config.registers) (hqueue : config'.queue = config.queue)
    (huses : (Trace.ofList rs).UsesAlike config config')
    (haccepted : (Trace.ofList rs).Accepted config.registers) :
    ∃ T t, schedule (Trace.ofList rs) config = .ok (T, t) ∧
      schedule (Trace.ofList rs) config' = .ok (T, t) := by
  obtain ⟨T, t, entered, left, h, hprogram, hlawful, hfetched, hleast⟩ :=
    exists_lawful hconfig haccepted
  obtain ⟨T', t', entered', left', h', hprogram', hlawful', hfetched', hleast'⟩ :=
    exists_lawful hconfig' (hregisters ▸ haccepted)
  have huses' : t'.UsesAlike config' config := by
    rw [Trace.UsesAlike, ← Trace.inPool_unscheduled, hprogram']
    exact huses.symm
  replace hlawful' := huses'.lawful hlawful'
  replace hfetched' := huses'.fetched hqueue.symm hfetched'
  have hbegins : t'.BeginsLike t :=
    (Trace.BeginsLike.refl (Trace.ofList rs)).of_unscheduled hprogram' hprogram
  have hsize : t'.size = t.size := by
    rw [Trace.size_eq_of_unscheduled hprogram', Trace.size_eq_of_unscheduled hprogram]
  have hover (n : Nat) : t'.IsOver config' left' n ↔ t.IsOver config left n :=
    ⟨fun hn => (hlawful'.isOver_iff hlawful hbegins hsize).1 (huses'.isOver hn),
      fun hn => huses'.symm.isOver ((hlawful'.isOver_iff hlawful hbegins hsize).2 hn)⟩
  simp only [hover] at hleast'
  obtain rfl : T' = T := hleast'.unique hleast
  refine ⟨T', t, h, ?_⟩
  rw [h', Trace.ext_columns (hprogram'.trans hprogram.symm) (fun stage i => ?_) fun i slot => ?_]
  · by_cases hi : i < t.size
    · exact hlawful'.cycleAt_eq hlawful hbegins (Trace.not_blocks_of_size_le hsize.le)
        hfetched' hfetched stage hi
    · rw [Trace.cycleAt, Trace.getElem?_eq_none (hsize ▸ hi), Trace.cycleAt,
        Trace.getElem?_eq_none hi]
  · rw [producerAt_of_schedule h', producerAt_of_schedule h]

/-- **Surplus is inert.**  Cutting the stations of every pool down to the records of the program,
and the units down to the stations that are left, changes neither the length of the run nor a
stamp. -/
theorem schedule_trimmed {rs : List Record} {config : Config} (hconfig : config.check = .ok ())
    (haccepted : (Trace.ofList rs).Accepted config.registers) :
    ∃ T t, schedule (Trace.ofList rs) config = .ok (T, t) ∧
      schedule (Trace.ofList rs) (config.trimmed (Trace.ofList rs)) = .ok (T, t) := by
  refine schedule_of_usable hconfig (Config.check_trimmed hconfig _) rfl rfl (fun p => ?_) haccepted
  have hpositive := Config.check_eq_ok_iff.1 hconfig
  rw [Config.trimmed, ByPool.get_of]
  exact PoolConfig.usable_trimmed (hpositive (.stations p)) (hpositive (.units p)) _

/-- Three `int` records and one `fp` record leave two stations of each pool of the baseline machine
empty. -/
theorem schedule_trimmed_sample :
    Config.baseline.trimmed (Trace.ofList reusingProgram) =
        { Config.baseline with pools := ⟨⟨3, 3, 5⟩, ⟨1, 1, 7⟩⟩ } ∧
      ∃ T t, schedule (Trace.ofList reusingProgram) Config.baseline = .ok (T, t) ∧
        schedule (Trace.ofList reusingProgram)
          (Config.baseline.trimmed (Trace.ofList reusingProgram)) = .ok (T, t) :=
  ⟨by decide +kernel, schedule_trimmed (by decide) (by decide +kernel)⟩

end Tomasulo
