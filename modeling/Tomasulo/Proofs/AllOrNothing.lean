import Tomasulo.Command
import Tomasulo.Proofs.RecordText
import Tomasulo.Proofs.Refusal
import Tomasulo.Proofs.ReportText
import Tomasulo.Proofs.TraceText

/-!
# Proofs/AllOrNothing — a run of the program prints everything or nothing

The program prints when everything has succeeded, and what can fail is known before anything is
simulated: a configuration that can be used, entries that fit, and records that the machine accepts
are all it takes (`Command.Succeeds`), because such a trace has a schedule.  What is printed then
depends on the schedule alone (`Command.report`), and can be read back from the text: the members of
the document, or the rows of the timeline and the sections that are asked for (`Command.Prints`).
-/

namespace Tomasulo

/-! ## The simulation behind a schedule -/

/-- A finished simulation is of the machine that was asked for. -/
theorem config_of_simulate {trace : Trace} {config : Config} {s : Simulation}
    (h : simulate trace config = .ok s) : s.config = config := by
  obtain ⟨s₀, T, hs, hrun⟩ := simulate_eq_ok_iff.1 h
  obtain ⟨n, -, -, rfl⟩ := Simulation.done_of_runWithin hrun
  have hconfig : s₀.config = config := by rw [(Simulation.ofTrace_eq_ok_iff.1 hs).2]
  exact (Simulation.config_after s₀ n).trans hconfig

theorem schedule_eq_ok_iff {trace : Trace} {config : Config} {T : Nat} {t : Trace} :
    schedule trace config = .ok (T, t) ↔
      ∃ s, simulate trace config = .ok s ∧ s.cycle = T ∧ s.core.trace = t := by
  simp only [schedule, bind_eq_ok_iff, pure, Except.pure, Except.ok.injEq, Prod.mk.injEq]

namespace Command

variable {files : Files} {options : Options}

/-! ## What a run needs -/

/-- The configuration that the options name, which can be read and used, or else the baseline
machine. -/
def Configures (files : Files) (options : Options) (config : Config) : Prop :=
  match options.config with
  | none => config = Config.baseline
  | some path =>
    ∃ text, files path = .ok text ∧ Config.ofJson text = .ok config ∧ config.check = .ok ()

/-- **What a run needs**: a configuration, and a trace text whose entries fit and make records that
the machine of the configuration accepts. -/
structure Succeeds (files : Files) (options : Options) (config : Config) (records : List Record) :
    Prop where
  configured : Configures files options config
  loaded : ∃ text entries, files options.trace = .ok text ∧ Trace.entries text = .ok entries ∧
    (∀ e ∈ entries, e.Fits) ∧ records = entries.map TraceEntry.record
  accepted : ∀ r ∈ records, ∃ op, r.check config.registers = .ok op

theorem loadConfig_eq_ok_iff {config : Config} :
    loadConfig files options = .ok config ↔ Configures files options config := by
  unfold loadConfig Configures
  cases options.config with
  | none => simp only [Except.ok.injEq, eq_comm]
  | some path =>
    simp only [bind_eq_ok_iff, mapError_eq_ok_iff]
    refine exists_congr fun text => and_congr_right fun _ => ⟨?_, ?_⟩
    · rintro ⟨_, hread, _, hcheck, ⟨⟩⟩
      exact ⟨hread, hcheck⟩
    · rintro ⟨hread, hcheck⟩
      exact ⟨config, hread, (), hcheck, rfl⟩

/-- A configuration that a run may use passes its check. -/
theorem Configures.check {config : Config} (h : Configures files options config) :
    config.check = .ok () := by
  unfold Configures at h
  split at h
  · rw [h]
    decide
  · obtain ⟨_, -, -, hcheck⟩ := h
    exact hcheck

theorem load_eq_ok_iff {trace : Trace} : Trace.load (files options.trace) = .ok trace ↔
    ∃ text entries, files options.trace = .ok text ∧ Trace.entries text = .ok entries ∧
      (∀ e ∈ entries, e.Fits) ∧ trace = Trace.ofList (entries.map TraceEntry.record) := by
  simp only [Trace.load, bind_eq_ok_iff, mapError_eq_ok_iff, Trace.ofJson_eq_ok_iff,
    exists_and_left]

/-! ## What a run prints -/

/-- What the options ask to print of a schedule. -/
def report (options : Options) (config : Config) (T : Nat) (t : Trace) : String :=
  let stats := Stats.collect t T config
  if options.json then
    (Json.Value.object [("config", config.toJson), ("stats", stats.toJson),
      ("trace", t.toJson)]).text .indented ++ "\n"
  else
    (if options.timeline then Timeline.text t else "") ++ Report.text stats options.sections

/-- **The document of a schedule**: the configuration, every statistic under its name, and the
records with the cycles of their stages. -/
def scheduleDocument (config : Config) (T : Nat) (t : Trace) : Json.Value :=
  let stats := Stats.collect t T config
  .object
    [("config", config.toJson),
     ("stats", .object
       [("cycles", .nat stats.cycles), ("instructions", .nat stats.instructions),
        ("traps", .nat stats.traps), ("inst_load", .nat stats.loads),
        ("inst_store", .nat stats.stores), ("inst_int", .nat stats.ints),
        ("inst_fp", .nat stats.fps), ("inst_branch", .nat stats.branches),
        ("wait_dispatch", .nat stats.queueWait), ("wait_issue", .nat stats.stationWait),
        ("wait_cdb", .nat stats.busWait), ("executed", .nat stats.started),
        ("broadcast", .nat stats.broadcast)]),
     ("trace", .array (t.toList.map Record.toJson))]

/-- **What is printed of a schedule**, as the program makes it and as a reader finds it. -/
structure Prints (options : Options) (config : Config) (T : Nat) (t : Trace) (out : String) :
    Prop where
  exact : out = report options config T t
  /-- Nothing but the document, if it is asked for. -/
  document : options.json = true → Json.Spelled (scheduleDocument config T t).tokens out.toList
  /-- Otherwise the timeline, if it is asked for, and then the sections that are. -/
  tables : options.json = false → ∃ timeline statistics : String, out = timeline ++ statistics ∧
    (options.timeline = true → Timeline.Tells t timeline.toList) ∧
    (options.timeline = false → timeline = "") ∧
    Report.read statistics.toList =
      (Report.selected (Stats.collect t T config) options.sections).map Report.Section.told

theorem proper_scheduleDocument (config : Config) (T : Nat) (t : Trace) :
    (scheduleDocument config T t).Proper := by
  simp [scheduleDocument, Config.toJson, Config.generalJson, Config.pipelineJson,
    Config.parameterJson, Record.proper_toJson]

/-- **The report of a schedule is what is printed of it.** -/
theorem prints_report (options : Options) (config : Config) (T : Nat) (t : Trace) :
    Prints options config T t (report options config T t) where
  exact := rfl
  document hjson := by
    have hreport : report options config T t =
        (scheduleDocument config T t).text .indented ++ "\n" := by
      rw [report, if_pos hjson]
      rfl
    have hend : Json.Spelled [] ['\n'] := .nil (List.forall_mem_singleton.2 rfl)
    have hspelled := Json.Spelled.value Json.Style.isBlank_indented 0 _
      (proper_scheduleDocument config T t) hend
    rw [List.append_nil] at hspelled
    rwa [hreport, String.toList_append, Json.Value.text, String.toList_ofList]
  tables hjson := by
    refine ⟨if options.timeline then Timeline.text t else "",
      Report.text (Stats.collect t T config) options.sections, ?_, fun htimeline => ?_,
      fun htimeline => ?_, Report.read_text ..⟩
    · rw [report, if_neg (by simp [hjson])]
    · rw [if_pos htimeline]
      exact Timeline.tells_text t
    · rw [if_neg (by simp [htimeline])]

/-- A finished simulation is printed as its schedule. -/
theorem printed_of_simulate {trace : Trace} {config : Config} {s : Simulation}
    (h : simulate trace config = .ok s) :
    printed options s = report options config s.cycle s.core.trace := by
  rw [← config_of_simulate h]
  rfl

theorem output_eq_ok_iff {out : String} : output files options = .ok out ↔
    ∃ config, loadConfig files options = .ok config ∧
      ∃ trace, Trace.load (files options.trace) = .ok trace ∧
        ∃ s, simulate trace config = .ok s ∧ printed options s = out := by
  simp only [output, bind_eq_ok_iff, mapError_eq_ok_iff, pure, Except.pure, Except.ok.injEq]

/-- **A run that has what it needs prints its schedule.** -/
theorem output_of_succeeds {config : Config} {records : List Record}
    (h : Succeeds files options config records) :
    ∃ T t, schedule (Trace.ofList records) config = .ok (T, t) ∧
      output files options = .ok (report options config T t) := by
  obtain ⟨text, entries, htext, hentries, hfits, rfl⟩ := h.loaded
  obtain ⟨T, t, hschedule⟩ := exists_schedule_iff.2 ⟨h.configured.check, h.accepted⟩
  refine ⟨T, t, hschedule, output_eq_ok_iff.2 ⟨config, loadConfig_eq_ok_iff.2 h.configured, _,
    load_eq_ok_iff.2 ⟨text, entries, htext, hentries, hfits, rfl⟩, ?_⟩⟩
  obtain ⟨s, hs, rfl, rfl⟩ := schedule_eq_ok_iff.1 hschedule
  exact ⟨s, hs, printed_of_simulate hs⟩

/-- A run that prints has what it needs. -/
theorem succeeds_of_output {out : String} (h : output files options = .ok out) :
    ∃ config records, Succeeds files options config records := by
  obtain ⟨config, hconfig, trace, htrace, s, hs, -⟩ := output_eq_ok_iff.1 h
  obtain ⟨text, entries, htext, hentries, hfits, rfl⟩ := load_eq_ok_iff.1 htrace
  exact ⟨config, _, loadConfig_eq_ok_iff.1 hconfig, ⟨text, entries, htext, hentries, hfits, rfl⟩,
    (exists_schedule_iff.1 ⟨_, _, schedule_eq_ok_iff.2 ⟨s, hs, rfl, rfl⟩⟩).2⟩

/-- Four registers, and everything else as it is. -/
def fewRegisters : Config :=
  Config.baseline.set .registers 4

/-- A load, and an instruction that reads some register. -/
def pair (register : Nat) : List TraceEntry :=
  [{ op := OpClass.load.word, outputs := [some 1] },
   { op := OpWord.intComp, inputs := [some register] }]

/-- The text of such a pair. -/
def pairText (register : String) : String :=
  "[\x7b\"op\":\"Load\",\"outputs\":[1]\x7d,\x7b\"op\":1,\"inputs\":[" ++ register ++ "]\x7d]"

/-- A configuration of four registers beside a trace. -/
def twoFiles (trace : String) : Files
  | "c.json" => .ok "\x7b\"general\":\x7b\"num_registers\":4\x7d\x7d"
  | "t.json" => .ok trace
  | _ => .error .notFound

/-- A command line that asks for the timeline. -/
def timelineArgs : List String :=
  ["run", "--trace", "t.json", "-c", "c.json", "--timeline"]

/-- The options on it. -/
def timelineOptions : Options :=
  { trace := "t.json", config := some "c.json", timeline := true }

end Command

end Tomasulo
