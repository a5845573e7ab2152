import Tomasulo.Proofs.Calls

/-!
# Proofs/Safety — the assertions hold

The machine asserts that a stage is stamped once, that a station to be vacated is taken and a unit
to be started idle, that the queue has room, that the station vacated for a result is its own, and
that whatever is looked up exists.  In a core that calls lead to, none of these can break; the bus
alone can be found occupied, by a call of complete that no wake came before
(`breaks_only_on_occupied_bus`).  A whole cycle starts with a wake, so a simulation breaks nothing
at all.
-/

namespace Tomasulo

namespace Core

variable {config : Config} {program : Trace} {c c' : Core} {now : Nat}

/-- **Whatever a core refers to exists**: the trace has the records that the queue, the stations,
the bus and the cursor name, under their own index; the units run stations that are taken; and the
registers of the fetched records are in the register map. -/
structure InBounds (c : Core) : Prop where
  cursor : c.machine.cursor ≤ c.trace.size
  numbered : ∀ {i : Nat} {r : Record}, c.trace[i]? = some r → r.index = i
  queued : ∀ e ∈ c.machine.queue.entries, e.index < c.trace.size
  stationed : ∀ {p s e}, c.stationAt p s = some e → e.index < c.trace.size
  unit : ∀ {p u s}, c.unitAt p u = some s →
    s < (c.machine.stations p).size ∧ (c.stationAt p s).isSome = true
  bus : ∀ {d}, c.machine.bus.carried = some d → d < c.trace.size
  registers : ∀ {i : Nat} {r : Record}, i < c.machine.cursor → c.trace.isScheduled i = true →
    c.trace[i]? = some r → ∀ register ∈ r.writes ++ r.reads, register < c.machine.registers.size

theorem Sound.inBounds (h : c.Sound config program) : c.InBounds where
  cursor := h.size_trace ▸ h.cursor_le
  numbered := h.index_eq
  queued e he := by
    have hsched := (h.mem_queued (List.mem_map_of_mem he)).2
    rw [h.size_trace]
    exact Trace.lt_size_of_isScheduled hsched
  stationed := h.lt_size_of_station
  unit hu := by
    obtain ⟨e, he, -⟩ := h.unit_station hu
    exact ⟨Slots.lt_size_of_get he, Option.isSome_of_eq_some he⟩
  bus hd := by
    obtain ⟨n, hn⟩ := Option.isSome_iff_exists.1 (h.bus hd)
    exact Trace.lt_size_of_cycleAt hn
  registers hi hsched hr := by
    rw [Trace.isScheduled, h.classAt_trace] at hsched
    exact h.lt_size_registers hi hsched hr

end Core

/-! ## Simulations -/

namespace Simulation

variable {config : Config} {program : Trace} {s : Simulation}
  (hprogram : program.unscheduled = program) (hnumbered : program.Numbered)
  (hs : s.core.Reachable config program)

include hprogram hnumbered hs

/-- **A tick succeeds or is refused a record**, and goes on from there. -/
theorem tick_of_reachable : s.next.core.Reachable config program ∧
    (tick.run s = .ok () s.next ∨ ∃ reason, tick.run s = .error (.rejected reason) s.next) := by
  have hcoherent := hs.coherent hprogram hnumbered
  rcases hcoherent.call_cases (.cycle (s.cycle + 1)) with
    ⟨c, hrun, -⟩ | ⟨-, reason, c, -, hrun, -⟩ | ⟨_, _, _, _, hcall, _⟩
  · obtain ⟨htick, hnext⟩ := tick_of_ok hrun
    rw [htick, hnext]
    exact ⟨hs.returned hrun, .inl rfl⟩
  · obtain ⟨htick, hnext⟩ := tick_of_error hrun
    rw [htick, hnext]
    exact ⟨hs.refused hrun, .inr ⟨reason, rfl⟩⟩
  · cases hcall

theorem runWithin_ne_fault (fuel : Nat) (cause : Fault) (s' : Simulation) :
    (runWithin fuel).run s ≠ .error (.fault cause) s' := by
  induction fuel generalizing s with
  | zero => exact nofun
  | succ fuel ih =>
    obtain ⟨hnext, htick⟩ := tick_of_reachable hprogram hnumbered hs
    cases hdone : s.isDone with
    | true =>
      rw [runWithin_of_done hdone]
      exact nofun
    | false =>
      rw [runWithin_of_not_done hdone]
      rcases htick with htick | ⟨reason, htick⟩
      · rw [htick]
        exact ih hnext
      · rw [htick]
        exact nofun

end Simulation

/-! ## No other assertion -/

/-- **Nothing breaks but the bus.**  In every core that calls lead to, in any order and with any
arguments, a call stops at a record that fetch refuses, or it is a call of complete that finds a
result on the bus and another finished one that wants it; no other assertion breaks, and whatever is
looked up on the way exists.  A simulation is such a core at every time, also after a tick that
failed, and neither a tick nor a run of it breaks any assertion. -/
theorem breaks_only_on_occupied_bus {config : Config} {program : Trace}
    (hprogram : program.unscheduled = program) (hnumbered : program.Numbered) :
    (∀ c : Core, c.Reachable config program →
      (∀ call halt c', (Call.step call).run c = .error halt c' →
        (∃ now reason, (call = .fetch now ∨ call = .cycle now) ∧ halt = .rejected reason) ∨
        ∃ now old r, call = .complete now ∧ halt = .fault (.busOccupied old r.record.index) ∧
          c.machine.bus.carried = some old ∧ c.Runs r ∧ r.record.op.broadcasts = true ∧
            c.hasFinished now r = true) ∧
      ∀ now c', Core.Moves now c c' → c'.InBounds) ∧
    (∀ s, Simulation.ofTrace program config = .ok s → s.core.Reachable config program) ∧
    ∀ s : Simulation, s.core.Reachable config program →
      s.next.core.Reachable config program ∧
      (∀ cause s', Simulation.tick.run s ≠ .error (.fault cause) s') ∧
      ∀ cause s', Simulation.run.run s ≠ .error (.fault cause) s' := by
  refine ⟨fun c hc => ?_, fun s hs => ?_, fun s hs => ?_⟩
  · have hcoherent := hc.coherent hprogram hnumbered
    refine ⟨fun call halt c' hrun => ?_, fun now c' hmoves => ?_⟩
    · rcases hcoherent.call_cases call with ⟨d, hd, -⟩ | ⟨now, reason, d, hcall, hd, -⟩ |
        ⟨now, old, r, d, hcall, hd, hbus, hr⟩
      · cases hrun.symm.trans hd
      · obtain ⟨⟩ := hrun.symm.trans hd
        exact .inl ⟨now, reason, hcall, rfl⟩
      · obtain ⟨⟩ := hrun.symm.trans hd
        exact .inr ⟨now, old, r, hcall, rfl, hbus, Core.mem_contenders.1 hr⟩
    · exact (hcoherent.sound.moves hmoves).inBounds
  · rw [(Simulation.ofTrace_eq_ok_iff.1 hs).2, hprogram]
    exact .start
  · obtain ⟨hnext, htick⟩ := Simulation.tick_of_reachable hprogram hnumbered hs
    refine ⟨hnext, fun cause s' hfault => ?_,
      Simulation.runWithin_ne_fault hprogram hnumbered hs (s.budget + 1)⟩
    rcases htick with htick | ⟨reason, htick⟩
    · cases htick.symm.trans hfault
    · cases htick.symm.trans hfault

/-- Calls after which two results of the small program are finished, and one of them has the bus. -/
def twoResults : List Call :=
  [.fetch 1, .issue 1, .fetch 2, .issue 2, .start 3, .complete 9]

/-- Completed again without a wake, the small machine finds the `fp` result on the bus that the
integer result wants. -/
theorem breaks_only_on_occupied_bus_sample :
    ∃ c c', (Core.start smallMachine (Trace.ofList sampleProgram)).play twoResults = some c ∧
      (Step.complete 9).run c = .error (.fault (.busOccupied 0 2)) c' ∧
      c.machine.bus.carried = some 0 ∧
      ∃ r, r.record.index = 2 ∧ c.Runs r ∧ r.record.op.broadcasts = true ∧
        c.hasFinished 9 r = true := by
  have hfacts : ((Core.start smallMachine (Trace.ofList sampleProgram)).play twoResults).any
      (fun c => (Call.complete 9).halt? c = some (.fault (.busOccupied 0 2))) = true := by
    decide +kernel
  obtain ⟨c, hplay, hc⟩ := (Option.any_eq_true ..).1 hfacts
  obtain ⟨c', hrun⟩ := Call.halt?_eq_some_iff.1 (of_decide_eq_true hc)
  have hreachable := Core.Reachable.start.play hplay
  rcases ((breaks_only_on_occupied_bus (Trace.unscheduled_ofList sampleProgram)
    (Trace.numbered_ofList sampleProgram)).1 c hreachable).1 (.complete 9) _ c' hrun with
    ⟨_, _, _, hhalt⟩ | ⟨now, old, r, hcall, hhalt, hbus, hr⟩
  · cases hhalt
  · obtain rfl : 9 = now := Call.complete.inj hcall
    obtain ⟨rfl, hindex⟩ := Fault.busOccupied.inj (Halt.fault.inj hhalt)
    exact ⟨c, c', hplay, hrun, hbus, r, hindex.symm, hr⟩

end Tomasulo
