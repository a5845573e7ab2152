import Mathlib.Data.Finset.Dedup
import Mathlib.Data.Finset.Insert
import Tomasulo.Config.Json
import Tomasulo.Proofs.Json.Objects
import Tomasulo.Proofs.Json.Written

/-!
# Proofs/ConfigText — what a configuration text is read as

A configuration text is an object with two parts, and each part is an object that gives parameters
their values.  Reading a text puts the named parameters over the baseline machine
(`Config.overlay`), one key after the other.  Since every key changes parameters of its own, neither
the order of the keys nor what stands under other keys makes a difference
(`Config.ofJson_overrides`).
-/

namespace Tomasulo

open Json

/-! ## Parts -/

namespace Parameter

/-- The key of the part that a parameter belongs to. -/
def part : Parameter → String
  | .registers => "general"
  | _ => "pipeline"

/-- The keys of the parts. -/
def parts : List String := ["general", "pipeline"]

/-- The parameters of a part, in the order they are written. -/
def ofPart (part : String) : List Parameter :=
  all.filter (·.part == part)

@[simp] theorem mem_ofPart {p : Parameter} {part : String} : p ∈ ofPart part ↔ p.part = part := by
  simp [ofPart, mem_all]

theorem part_mem_parts (p : Parameter) : p.part ∈ parts := by
  cases p <;> simp [part, parts]

/-- No two parameters share a key. -/
theorem key_injective : Function.Injective key := by
  intro p q h
  have hfound := ofKey?_key p
  rw [h, ofKey?_key q] at hfound
  exact (Option.some.inj hfound).symm

end Parameter

namespace Config

variable {c d : Config} {named : Finset Parameter} {part : String}

/-! ## Parameters put over others -/

/-- `d` with the values of `c` for some of the parameters. -/
def overlay (c : Config) (P : Parameter → Prop) [DecidablePred P] (d : Config) : Config :=
  Parameter.all.foldl (fun d p => if P p then d.set p (c.get p) else d) d

/-- **Each parameter has the value of `c` or keeps its own.** -/
@[simp] theorem get_overlay (c : Config) (P : Parameter → Prop) [DecidablePred P] (d : Config)
    (q : Parameter) : (c.overlay P d).get q = if P q then c.get q else d.get q := by
  have hfold : ∀ (ps : List Parameter) (d : Config),
      (ps.foldl (fun d p => if P p then d.set p (c.get p) else d) d).get q =
        if q ∈ ps ∧ P q then c.get q else d.get q := by
    intro ps
    induction ps with
    | nil => simp
    | cons p ps ih =>
      intro d
      rw [List.foldl_cons, ih]
      by_cases hq : q = p
      · subst hq
        by_cases hP : P q <;> simp [hP]
      · by_cases hP : P p <;> simp [hP, hq]
  rw [overlay, hfold]
  simp [Parameter.mem_all]

/-- One key after the other. -/
theorem get_after (c : Config) (P : String → Parameter → Prop) [∀ key, DecidablePred (P key)]
    (keys : List String) (d : Config) (q : Parameter) :
    (Shape.after (fun key => c.overlay (P key)) keys d).get q =
      if ∃ key ∈ keys, P key q then c.get q else d.get q := by
  induction keys generalizing d with
  | nil => simp [Shape.after]
  | cons key keys ih =>
    rw [Shape.after, List.foldl_cons]
    refine (ih _).trans ?_
    by_cases hlater : ∃ key ∈ keys, P key q <;> by_cases hnow : P key q <;> simp [hlater, hnow]

/-! ## Texts -/

/-- **The members of a part** that names parameters: each of them stands there once under its key,
with its value in `c`, and what stands under other keys is well-formed. -/
structure PartMembers (c : Config) (named : Finset Parameter) (part : String)
    (ms : List (String × List Char)) : Prop where
  value : ∀ p, p.part = part → ∀ m ∈ ms, m.1 = p.key → Spelled (Value.nat (c.get p)).tokens m.2
  once : ∀ p, p.part = part → (ms.map (·.1)).count p.key = if p ∈ named then 1 else 0
  other : ∀ m ∈ ms, (∀ p : Parameter, p.part = part → m.1 ≠ p.key) → WellFormed m.2

/-- An object with such members. -/
def PartText (c : Config) (named : Finset Parameter) (part : String) (text : List Char) : Prop :=
  ∃ ms, ObjectText ms text ∧ c.PartMembers named part ms

/-- **The members of a text** that names parameters: its parts name them; a part may be left out if
none of its parameters is named. -/
structure TextMembers (c : Config) (named : Finset Parameter) (ms : List (String × List Char)) :
    Prop where
  part : ∀ m ∈ ms, m.1 ∈ Parameter.parts → c.PartText named m.1 m.2
  once : ∀ part ∈ Parameter.parts, (ms.map (·.1)).count part ≤ 1
  other : ∀ m ∈ ms, m.1 ∉ Parameter.parts → WellFormed m.2
  named : ∀ p ∈ named, p.part ∈ ms.map (·.1)

/-- **A text that gives the parameters in `named` their values in `c`** and names no others.  The
keys may be in any order, and there may be keys that mean nothing. -/
def Writes (c : Config) (named : Finset Parameter) (text : List Char) : Prop :=
  ∃ ms, ObjectText ms text ∧ c.TextMembers named ms

/-! ## Reading -/

/-- The parameters of a part as a shape. -/
def partShape (part : String) : Shape Config where
  members := (Parameter.ofPart part).map member

theorem find?_partShape {key : String} {m : Member Config}
    (h : (partShape part).find? key = some m) :
    ∃ p : Parameter, p.part = part ∧ m = member p ∧ p.key = key := by
  have hkey : m.key = key := by simpa using List.find?_some h
  obtain ⟨p, hp, rfl⟩ := List.mem_map.1 (List.mem_of_find?_eq_some h)
  exact ⟨p, Parameter.mem_ofPart.1 hp, rfl, hkey⟩

theorem find?_partShape_eq_none {key : String} (h : (partShape part).find? key = none)
    (p : Parameter) (hp : p.part = part) : key ≠ p.key := by
  rintro rfl
  have hm : member p ∈ (partShape part).members :=
    List.mem_map.2 ⟨p, Parameter.mem_ofPart.2 hp, rfl⟩
  simpa [member] using List.find?_eq_none.1 h (member p) hm

section Part

variable {ms : List (String × List Char)}

/-- **A member of a part** sets the parameter of its key, if there is one, and no other has this
key. -/
theorem PartMembers.steps (hc : ∀ p, c.get p < UInt64.size) (h : c.PartMembers named part ms)
    {m : String × List Char} (hm : m ∈ ms) :
    (partShape part).Steps (fun key => c.overlay fun p => p.part = part ∧ p.key = key) m where
  known {member} hfind draft := by
    obtain ⟨p, hp, rfl, hkey⟩ := find?_partShape hfind
    have hset : draft.set p (c.get p) =
        c.overlay (fun q => q.part = part ∧ q.key = m.1) draft := by
      refine ext_get fun q => ?_
      have hiff : q = p ↔ q.part = part ∧ q.key = m.1 := by
        rw [← hkey, Parameter.key_injective.eq_iff]
        exact ⟨fun h => ⟨h ▸ hp, h⟩, And.right⟩
      simp only [get_set, get_overlay, ← hiff]
      split_ifs with hq
      · rw [hq]
      · rfl
    rw [← hset]
    exact (Read.natural_takes le_rfl (hc p) (h.value p hp m hm hkey.symm)).map _
  other hfind := by
    have hunknown := find?_partShape_eq_none hfind
    refine ⟨h.other m hm hunknown, fun draft => ext_get fun q => ?_⟩
    rw [get_overlay, if_neg fun hq => hunknown q hq.1 hq.2.symm]

/-- No known key of a part comes twice. -/
theorem PartMembers.count_le_one (h : c.PartMembers named part ms) {key : String}
    (hkey : ((partShape part).find? key).isSome = true) : (ms.map (·.1)).count key ≤ 1 := by
  obtain ⟨m, hm⟩ := Option.isSome_iff_exists.1 hkey
  obtain ⟨p, hp, -, rfl⟩ := find?_partShape hm
  rw [h.once p hp]
  split_ifs <;> omega

/-- The parameters under the keys of a part are those it names. -/
theorem PartMembers.mem_keys_iff (h : c.PartMembers named part ms) (p : Parameter) :
    (∃ key ∈ ms.map (·.1), p.part = part ∧ p.key = key) ↔ p.part = part ∧ p ∈ named := by
  simp only [exists_and_left, exists_eq_right', and_left_comm]
  refine and_congr_right fun hp => ?_
  rw [← List.count_pos_iff, h.once p hp]
  split_ifs with hnamed <;> simp [hnamed]

/-- **A part is read** as the parameters it names, whatever else stands there. -/
theorem partShape_takes (hc : ∀ p, c.get p < UInt64.size) {text : List Char}
    (h : c.PartText named part text) (draft : Config) : ((partShape part).read draft).Takes text
      (c.overlay (fun p => p.part = part ∧ p ∈ named) draft) := by
  obtain ⟨ms, htext, hms⟩ := h
  have hoptional : ∀ m ∈ (partShape part).members, m.absence ≠ .refused := by
    intro m hm
    obtain ⟨p, -, rfl⟩ := List.mem_map.1 hm
    exact nofun
  have hread := Shape.read_takes rfl hoptional htext (fun _ hm => hms.steps hc hm)
    (fun _ hkey => hms.count_le_one hkey) draft
  convert hread using 1
  refine ext_get fun p => ?_
  rw [get_after, get_overlay]
  simp only [hms.mem_keys_iff]

end Part

theorem find?_shape {key : String} {m : Member Config} (h : shape.find? key = some m) :
    key ∈ Parameter.parts ∧ m.read = (partShape key).read := by
  have hkey : m.key = key := by simpa using List.find?_some h
  have hm : m ∈ shape.members := List.mem_of_find?_eq_some h
  simp only [shape, List.mem_cons, List.not_mem_nil, or_false] at hm
  rcases hm with rfl | rfl <;> obtain rfl := hkey
  · exact ⟨by decide, rfl⟩
  · exact ⟨by decide, rfl⟩

section Text

variable {ms : List (String × List Char)}

/-- **A part of a text** sets the parameters it names. -/
theorem TextMembers.steps (hc : ∀ p, c.get p < UInt64.size) (h : c.TextMembers named ms)
    {m : String × List Char} (hm : m ∈ ms) :
    shape.Steps (fun key => c.overlay fun p => p.part = key ∧ p ∈ named) m where
  known {member} hfind draft := by
    obtain ⟨hkey, hread⟩ := find?_shape hfind
    rw [hread]
    exact partShape_takes hc (h.part m hm hkey) draft
  other hfind := by
    have hunknown : m.1 ∉ Parameter.parts := by
      have hnot : ∀ member ∈ shape.members, ¬ (member.key == m.1) = true :=
        List.find?_eq_none.1 hfind
      simp only [shape, List.forall_mem_cons, beq_iff_eq] at hnot
      simpa [Parameter.parts] using ⟨Ne.symm hnot.1, Ne.symm hnot.2.1⟩
    refine ⟨h.other m hm hunknown, fun draft => ext_get fun q => ?_⟩
    rw [get_overlay, if_neg]
    rintro ⟨hq, -⟩
    exact hunknown (hq ▸ q.part_mem_parts)

/-- Every named parameter stands in a part of the text. -/
theorem TextMembers.mem_keys_iff (h : c.TextMembers named ms) (p : Parameter) :
    (∃ key ∈ ms.map (·.1), p.part = key ∧ p ∈ named) ↔ p ∈ named := by
  constructor
  · rintro ⟨key, -, -, hp⟩
    exact hp
  · exact fun hp => ⟨p.part, h.named p hp, rfl, hp⟩

/-- **A text is read** as the parameters it names, put over the others. -/
theorem shape_takes (hc : ∀ p, c.get p < UInt64.size) {text : List Char}
    (h : c.Writes named text) (draft : Config) :
    (shape.read draft).Takes text (c.overlay (· ∈ named) draft) := by
  obtain ⟨ms, htext, hms⟩ := h
  have hkeys : ∀ key, (shape.find? key).isSome = true → (ms.map (·.1)).count key ≤ 1 := by
    intro key hkey
    obtain ⟨m, hm⟩ := Option.isSome_iff_exists.1 hkey
    exact hms.once key (find?_shape hm).1
  have hread := Shape.read_takes rfl (by simp [shape]) htext (fun _ hm => hms.steps hc hm) hkeys
    draft
  convert hread using 1
  refine ext_get fun p => ?_
  rw [get_after, get_overlay]
  simp only [hms.mem_keys_iff]

end Text

/-! ## Configurations as they are written -/

/-- A part with all its parameters names them all. -/
theorem partText_of_spelled {text : List Char}
    (h : Spelled (c.parameterJson (Parameter.ofPart part)).tokens text) :
    c.PartText Parameter.all.toFinset part text := by
  obtain ⟨ms, htext, hkeys, hms⟩ := h.objectText
  have hmember : ∀ m ∈ ms, ∃ p : Parameter, p.part = part ∧ m.1 = p.key ∧
      Spelled (Value.nat (c.get p)).tokens m.2 := by
    intro m hm
    obtain ⟨m', hm', hkey, hvalue⟩ := hms m hm
    obtain ⟨p, hp, rfl⟩ := List.mem_map.1 hm'
    exact ⟨p, Parameter.mem_ofPart.1 hp, hkey, hvalue⟩
  have honce (p : Parameter) (hp : p.part = part) : (ms.map (·.1)).count p.key = 1 := by
    have hnodup : (Parameter.ofPart part).Nodup := List.Nodup.filter _ (by decide)
    rw [hkeys, List.map_map]
    exact List.count_eq_one_of_mem (hnodup.map Parameter.key_injective)
      (List.mem_map_of_mem (Parameter.mem_ofPart.2 hp))
  refine ⟨ms, htext, fun p hp m hm hkey => ?_, fun p hp => ?_, fun m hm hunknown => ?_⟩
  · obtain ⟨q, hq, hkey', hvalue⟩ := hmember m hm
    obtain rfl := Parameter.key_injective (hkey.symm.trans hkey')
    exact hvalue
  · rw [honce p hp, if_pos (List.mem_toFinset.2 p.mem_all)]
  · obtain ⟨q, hq, hkey, -⟩ := hmember m hm
    exact absurd hkey (hunknown q hq)

/-- **A configuration that is written names every parameter.** -/
theorem writes_toJson {style : Style} (hstyle : style.IsBlank) (c : Config) :
    c.Writes Parameter.all.toFinset (c.toJson.text style).toList := by
  have hproper : c.toJson.Proper := by
    simp [toJson, generalJson, pipelineJson, parameterJson]
  obtain ⟨ms, htext, hkeys, hms⟩ := (Value.spelled_text hstyle hproper).objectText
  have hparts : ms.map (·.1) = Parameter.parts := hkeys
  have hnodup : Parameter.parts.Nodup := by decide
  refine ⟨ms, htext, fun m hm _ => ?_, fun part _ => ?_, fun m hm hunknown => ?_, fun p _ => ?_⟩
  · obtain ⟨m', hm', hkey, hvalue⟩ := hms m hm
    rw [hkey]
    simp only [List.mem_cons, List.not_mem_nil, or_false] at hm'
    rcases hm' with rfl | rfl
    · exact partText_of_spelled hvalue
    · exact partText_of_spelled hvalue
  · rw [hparts]
    exact List.nodup_iff_count_le_one.1 hnodup part
  · exact absurd (hparts ▸ List.mem_map_of_mem hm) hunknown
  · rw [hparts]
    exact p.part_mem_parts

/-- **A configuration text is read exactly.**  A configuration that is written is read back.  A text
that names some of the parameters, in any order and among keys that mean nothing, is read as these
parameters put over the baseline machine. -/
theorem ofJson_overrides (hc : ∀ p, c.get p < UInt64.size) :
    Config.ofJson (c.toJson.text .compact) = .ok c ∧
      ∀ (named : Finset Parameter) (text : String), c.Writes named text.toList →
        ∃ d, Config.ofJson text = .ok d ∧
          ∀ p, d.get p = if p ∈ named then c.get p else baseline.get p := by
  constructor
  · have hread := (shape_takes hc (writes_toJson Style.isBlank_compact c) baseline).run
    have hall : c.overlay (· ∈ Parameter.all.toFinset) baseline = c :=
      ext_get fun p => by simp [p.mem_all]
    rw [hall] at hread
    exact hread
  · intro named text htext
    exact ⟨_, (shape_takes hc htext baseline).run, fun p => get_overlay ..⟩

/-- No registers, and as many units as can be written. -/
def extreme : Config :=
  (baseline.set .registers 0).set (.units .int) (UInt64.size - 1)

/-- Half a surrogate pair between quotes. -/
def halfPair : List Char :=
  ['"', '\\', 'u', 'd', '8', '0', '0', '"']

/-- The units of the extreme machine. -/
def unitsText : List Char :=
  '\x7b' :: (Text.quote "fu_int" ++ ':' :: ((Value.nat (UInt64.size - 1)).chars .compact 0 ++
    (',' :: Text.quote "note" ++ ':' :: (halfPair ++ ['\x7d']))))

/-- A text that names the units and no registers, with keys that mean nothing. -/
def noteText : List Char :=
  '\x7b' :: (Text.quote "note" ++ ':' :: (halfPair ++
    (',' :: Text.quote "pipeline" ++ ':' :: (unitsText ++ ['\x7d']))))

theorem wellFormed_halfPair : WellFormed halfPair := by
  have hunit : Text.SpellsUnit 0xD800 ['d', '8', '0', '0'] := ⟨rfl, _, rfl, rfl⟩
  have hword : Token.SpellsLoosely (.string "") halfPair := .string (.unit hunit .nil)
  exact ⟨.string "", .token hword (.done [])⟩

theorem writes_noteText : extreme.Writes {Parameter.units .int} noteText := by
  have hkey (first : Bool) (key : String) : Spelled (separator first ++ [.string key])
      ((if first then [] else [',']) ++ Text.quote key) := by
    have hend : Spelled [] [] := .nil nofun
    have hstring := hend.string key
    rw [List.append_nil] at hstring
    cases first
    · exact hstring.mark .comma
    · exact hstring
  have hnote (p : Parameter) : p.key ≠ "note" := by
    rcases p with _ | _ | p | p | p <;> try cases p
    all_goals decide
  have hclose : Spelled [.mark .closeObject] ['\x7d'] := .mark .closeObject (.nil nofun)
  have hunits : extreme.PartText {Parameter.units .int} "pipeline" unitsText := by
    refine ⟨_, ⟨[], _, nofun, .cons (hkey true "fu_int") (.cons (hkey false "note") (.nil hclose)),
      rfl⟩, fun p _ m hm hkey => ?_, fun p _ => ?_, fun m hm hunknown => ?_⟩
    · simp only [List.mem_cons, List.not_mem_nil, or_false] at hm
      rcases hm with rfl | rfl
      · obtain rfl : p = .units .int := Parameter.key_injective hkey.symm
        exact Value.spelled_chars Style.isBlank_compact 0 (Value.proper_nat _)
      · exact absurd hkey.symm (hnote p)
    · rcases p with _ | _ | p | p | p <;> try cases p
      all_goals decide
    · simp only [List.mem_cons, List.not_mem_nil, or_false] at hm
      rcases hm with rfl | rfl
      · exact absurd rfl (hunknown (.units .int) rfl)
      · exact wellFormed_halfPair
  refine ⟨_, ⟨[], _, nofun, .cons (hkey true "note") (.cons (hkey false "pipeline") (.nil hclose)),
    rfl⟩, fun m hm hpart => ?_, fun part _ => ?_, fun m hm hunknown => ?_, fun p hp => ?_⟩
  · simp only [List.mem_cons, List.not_mem_nil, or_false] at hm
    rcases hm with rfl | rfl
    · exact absurd hpart (by decide)
    · exact hunits
  · have hnodup : ["note", "pipeline"].Nodup := by decide
    exact List.nodup_iff_count_le_one.1 hnodup part
  · simp only [List.mem_cons, List.not_mem_nil, or_false] at hm
    rcases hm with rfl | rfl
    · exact wellFormed_halfPair
    · exact absurd (by decide) hunknown
  · obtain rfl := Finset.mem_singleton.1 hp
    decide

/-- The extreme machine is read back as it is written; from its units alone, the baseline machine
with these units is read. -/
theorem ofJson_overrides_sample :
    (∀ p, extreme.get p < UInt64.size) ∧ extreme.Writes {Parameter.units .int} noteText ∧
      Config.ofJson (extreme.toJson.text .compact) = .ok extreme ∧
      ∃ d, Config.ofJson (String.ofList noteText) = .ok d ∧
        d.get (.units .int) = UInt64.size - 1 ∧ d.get .registers = 70 := by
  have hrange (p : Parameter) : extreme.get p < UInt64.size := by
    rcases p with _ | _ | p | p | p <;> try cases p
    all_goals decide
  have hwrites : extreme.Writes {Parameter.units .int} (String.ofList noteText).toList := by
    rw [String.toList_ofList]
    exact writes_noteText
  obtain ⟨hback, hover⟩ := ofJson_overrides hrange
  obtain ⟨d, hread, hget⟩ := hover _ _ hwrites
  refine ⟨hrange, writes_noteText, hback, d, hread, ?_, ?_⟩
  · rw [hget, if_pos (by decide)]
    rfl
  · rw [hget, if_neg (by decide)]
    rfl

end Config

end Tomasulo
