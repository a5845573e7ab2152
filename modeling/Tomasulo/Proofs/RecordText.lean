import Tomasulo.Command
import Tomasulo.Proofs.Json.Ignored
import Tomasulo.Proofs.Json.Members
import Tomasulo.Proofs.Json.Written

/-!
# Proofs/RecordText — a record is read back as it is written

Reading a record fills a draft key by key (`Record.put?`), and the keys of a written record fill all
of it.  So a record whose numbers have 64 bits is read back from its text, however the text is laid
out, the layout of the report included (`Record.ofJson_toJson`).
-/

namespace Tomasulo

open Json

/-! ## Values under the keys of a record -/

/-- A stage is found by its name. -/
theorem Stage.find?_name (stage : Stage) : all.find? (·.name == stage.name) = some stage := by
  cases stage <;> decide

/-- A number or null. -/
def slot? : Value → Option (Option Nat) :=
  Read.nullable? (Read.natural? UInt64.size)

theorem slot_decodes : (Read.nullable Read.natural64).Decodes slot? :=
  Read.nullable_decodes (Read.natural_decodes le_rfl)

/-- Flags as a number. -/
def OpWord.ofNumber? (v : Value) : Option OpWord :=
  (Read.natural? UInt32.size v).map fun n => ⟨UInt32.ofNat n⟩

theorem OpWord.read_decodes : OpWord.read.Decodes OpWord.ofNumber? :=
  (Read.natural_decodes (by decide)).map _

/-- Slots as an array of numbers and nulls. -/
def Operands.ofValue? (n : Nat) (v : Value) : Option (Operands n) :=
  (Read.exactly? n slot? v).map Operands.ofList

theorem Operands.read_decodes (n : Nat) : (Operands.read n).Decodes (Operands.ofValue? n) :=
  (Read.exactly_decodes slot_decodes n).map _

namespace Stamps

/-- What a value under a key changes in the stage cycles. -/
def put? (key : String) (s : Stamps) (v : Value) : Option Stamps :=
  (Stage.all.find? (·.name == key)).bind fun stage => (slot? v).map (s.set stage)

theorem puts_put? : shape.Puts put? := by
  intro m hm draft
  obtain ⟨stage, -, rfl⟩ := List.mem_map.1 hm
  have hput : put? stage.name draft = fun v => (slot? v).map (draft.set stage) := by
    funext v
    rw [put?, stage.find?_name, Option.bind_some]
  rw [hput]
  exact slot_decodes.map _

theorem shape_decodes (draft : Stamps) :
    (shape.read draft).Decodes (shape.value? put? draft) :=
  Shape.read_decodes puts_put? (fun _ => Skip.value_decodes) draft

end Stamps

namespace Record

/-- What a value under a key changes in a record. -/
def put? (key : String) (r : Record) (v : Value) : Option Record :=
  match key with
  | "index" => (Read.natural? UInt64.size v).map fun n => { r with index := n }
  | "pc" => (Read.natural? UInt64.size v).map fun n => { r with pc := UInt64.ofNat n }
  | "op" => (OpWord.ofNumber? v).map fun op => { r with op }
  | "outputs" => (Operands.ofValue? maxOutputs v).map fun outputs => { r with outputs }
  | "inputs" => (Operands.ofValue? maxInputs v).map fun inputs => { r with inputs }
  | "producers" => (Operands.ofValue? maxInputs v).map fun producers => { r with producers }
  | "cycles" =>
    (Stamps.shape.value? Stamps.put? Stamps.blank v).map fun stamps => { r with stamps }
  | _ => none

theorem puts_put? : shape.Puts put? := by
  intro m hm draft
  simp only [shape, List.mem_cons, List.not_mem_nil, or_false] at hm
  rcases hm with rfl | rfl | rfl | rfl | rfl | rfl | rfl
  · exact (Read.natural_decodes le_rfl).map _
  · exact (Read.natural_decodes le_rfl).map _
  · exact OpWord.read_decodes.map _
  · exact (Operands.read_decodes maxOutputs).map _
  · exact (Operands.read_decodes maxInputs).map _
  · exact (Operands.read_decodes maxInputs).map _
  · exact (Stamps.shape_decodes Stamps.blank).map _

end Record

/-! ## Written records -/

theorem OpWord.ofNumber?_toJson (op : OpWord) : ofNumber? op.toJson = some op := by
  have hbits : op.bits.toNat < UInt32.size := op.bits.toNat_lt
  rw [ofNumber?, toJson, Read.natural?_nat hbits, Option.map_some, UInt32.ofNat_toNat]

/-- Slots are packed as they were. -/
theorem Operands.ofList_toList {n : Nat} (slots : Operands n) : ofList slots.toList = slots := by
  refine Vector.ext fun i hi => ?_
  simp [ofList]

theorem Operands.ofValue?_toJson {n : Nat} {slots : Operands n}
    (h : ∀ k ∈ slots.held, k < UInt64.size) : ofValue? n slots.toJson = some slots := by
  have hslots : (slots.toList.map Value.nat?).mapM slot? = some slots.toList := by
    refine Read.mapM_nat? fun slot hslot k hk => h k (mem_held.2 ?_)
    rwa [← hk, ← Vector.mem_toList_iff]
  have hlength : (slots.toList.map Value.nat?).length = n := by simp
  rw [ofValue?, toJson, Value.nats?, Read.exactly?, if_pos hlength, hslots, Option.map_some,
    ofList_toList]

/-- Every stage is set to its own cycle: the stages are in the order of the members. -/
theorem Stamps.value?_toJson {s : Stamps} (h : ∀ stage, ∀ k ∈ s.cycleOf stage, k < UInt64.size) :
    shape.value? put? blank s.toJson = some s := by
  have hslot (stage : Stage) : slot? (.nat? (s.cycleOf stage)) = some (s.cycleOf stage) :=
    Read.nullable?_nat? (h stage)
  have hput (stage : Stage) (draft : Stamps) : put? stage.name draft (.nat? (s.cycleOf stage)) =
      some (draft.set stage (s.cycleOf stage)) := by
    rw [put?, stage.find?_name, Option.bind_some, hslot, Option.map_some]
  have hknown : ∀ m ∈ Stage.all.map fun stage => (stage.name, Value.nat? (s.cycleOf stage)),
      (shape.find? m.1).isSome = true := by
    intro m hm
    obtain ⟨stage, -, rfl⟩ := List.mem_map.1 hm
    cases stage <;> rfl
  refine (Shape.object?_eq_some_iff hknown [] blank s).2 ⟨⟨?_, ?_, ?_⟩, ?_⟩
  · rw [List.map_map]
    exact (by decide : (Stage.all.map Stage.name).Nodup)
  · exact fun _ _ => List.not_mem_nil
  · intro m hm hrefused
    obtain ⟨stage, -, rfl⟩ := List.mem_map.1 hm
    cases hrefused
  · simp only [Shape.fill?, Stage.all, List.map_cons, List.map_nil, List.foldl_cons, List.foldl_nil,
      Option.bind_some, hput]
    rfl

namespace Record

/-- **Every number of the record has 64 bits.** -/
structure Bounded (r : Record) : Prop where
  index : r.index < UInt64.size
  outputs : ∀ k ∈ r.outputs.held, k < UInt64.size
  inputs : ∀ k ∈ r.inputs.held, k < UInt64.size
  producers : ∀ k ∈ r.producers.held, k < UInt64.size
  stamps : ∀ stage, ∀ k ∈ r.stamps.cycleOf stage, k < UInt64.size

theorem value?_toJson {r : Record} (h : r.Bounded) :
    shape.value? put? { op := ⟨0⟩ } r.toJson = some r := by
  have hpc : r.pc.toNat < UInt64.size := r.pc.toNat_lt
  change shape.object? put? [] { op := ⟨0⟩ } _ = some r
  simp [Shape.object?, shape, Shape.find?, put?, Shape.isComplete,
    Read.natural?_nat h.index, Read.natural?_nat hpc, OpWord.ofNumber?_toJson,
    Operands.ofValue?_toJson h.outputs, Operands.ofValue?_toJson h.inputs,
    Operands.ofValue?_toJson h.producers, Stamps.value?_toJson h.stamps]

/-! ## Texts of a record -/

/-- **How a record is written**: on one line, or over several where it stands at some depth. -/
inductive Writes (r : Record) : String → Prop where
  | compact : r.Writes (r.toJson.text .compact)
  | indented (depth : Nat) : r.Writes (String.ofList (r.toJson.chars .indented depth))

theorem proper_toJson (r : Record) : r.toJson.Proper := by
  simp [toJson, OpWord.toJson, Operands.toJson, Stamps.toJson]

/-- A record is spelled as it is written. -/
theorem Writes.spelled {r : Record} {text : String} (h : r.Writes text) :
    Spelled r.toJson.tokens text.toList := by
  rcases h with _ | depth
  · exact Value.spelled_text Style.isBlank_compact r.proper_toJson
  · rw [String.toList_ofList]
    exact Value.spelled_chars Style.isBlank_indented depth r.proper_toJson

/-- **A written record is read back.** -/
theorem Writes.ofJson {r : Record} {text : String} (h : r.Bounded) (htext : r.Writes text) :
    Record.ofJson text = .ok r := by
  have hdecodes := Shape.read_decodes puts_put? (fun _ => Skip.value_decodes) { op := ⟨0⟩ }
  rcases hdecodes.run htext.spelled with ⟨r', hr', hrun⟩ | ⟨hnone, -⟩
  · rw [value?_toJson h, Option.some_inj] at hr'
    rwa [hr']
  · rw [value?_toJson h] at hnone
    cases hnone

/-- The document of a simulation holds the texts of its records. -/
theorem infix_document {s : Simulation} {stats : Stats} {i : Nat} {r : Record}
    (h : s.core.trace[i]? = some r) : r.toJson.chars .indented 2 <:+:
      ((Command.document s stats).text .indented).toList := by
  have hrecord : r.toJson ∈ s.core.trace.toList.map Record.toJson :=
    List.mem_map_of_mem (Array.mem_toList_iff.2 (Array.mem_of_getElem? h))
  have htrace : ("trace", s.core.trace.toJson) ∈ [("config", s.config.toJson),
      ("stats", stats.toJson), ("trace", s.core.trace.toJson)] := by simp
  rw [Value.text, String.toList_ofList]
  exact (Value.chars_infix_array hrecord).trans (Value.chars_infix_object htrace)

/-- **Records are written without loss.**  A record is read back from either of its texts, one of
which the document of a simulation holds for each of its records.  Records with a text in common are
the same. -/
theorem ofJson_toJson {r : Record} (h : r.Bounded) :
    (∀ text, r.Writes text → Record.ofJson text = .ok r) ∧
      (∀ (s : Simulation) (i : Nat), s.core.trace[i]? = some r → r.toJson.chars .indented 2 <:+:
        ((Command.document s s.stats).text .indented).toList) ∧
      ∀ (r' : Record) (text : String), r'.Bounded → r.Writes text → r'.Writes text → r' = r := by
  refine ⟨fun text htext => htext.ofJson h, fun s i hi => infix_document hi,
    fun r' text h' htext htext' => ?_⟩
  have hread := htext.ofJson h
  rw [htext'.ofJson h', Except.ok.injEq] at hread
  exact hread

/-- A record of the largest numbers, some slots of which are empty. -/
def extreme : Record where
  index := UInt64.size - 1
  pc := UInt64.ofNat (UInt64.size - 1)
  op := ⟨UInt32.ofNat (UInt32.size - 1)⟩
  outputs := #v[none, some (UInt64.size - 1)]
  inputs := #v[some 0, none, some (UInt64.size - 1)]
  producers := #v[some (UInt64.size - 1), none, none]
  stamps := { issue := some (UInt64.size - 1) }

theorem bounded_extreme : extreme.Bounded where
  index := by decide
  outputs := by decide
  inputs := by decide
  producers := by decide
  stamps stage := by cases stage <;> decide

theorem ofJson_toJson_extreme : extreme.Bounded ∧
    Record.ofJson (extreme.toJson.text .compact) = .ok extreme ∧
    Record.ofJson (String.ofList (extreme.toJson.chars .indented 2)) = .ok extreme ∧
    (∃ s : Simulation, s.core.trace[0]? = some extreme ∧ extreme.toJson.chars .indented 2 <:+:
      ((Command.document s s.stats).text .indented).toList) ∧
    { extreme with index := 0 }.toJson.text .compact ≠ extreme.toJson.text .compact := by
  obtain ⟨hread, hdocument, hsame⟩ := ofJson_toJson bounded_extreme
  have hbounded : { extreme with index := 0 }.Bounded := { bounded_extreme with index := by decide }
  let s : Simulation :=
    { config := .baseline, core := { machine := .idle .baseline, trace := ⟨#[extreme]⟩ } }
  refine ⟨bounded_extreme, hread _ .compact, hread _ (.indented 2),
    ⟨s, rfl, hdocument s 0 rfl⟩, fun htext => ?_⟩
  have hindex := congrArg Record.index (hsame _ _ hbounded .compact (htext ▸ .compact))
  exact absurd hindex (by decide)

end Record

end Tomasulo
