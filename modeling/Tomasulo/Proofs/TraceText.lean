import Tomasulo.Proofs.Columns
import Tomasulo.Proofs.Json.Members
import Tomasulo.Proofs.Json.Written
import Tomasulo.Trace.Json

/-!
# Proofs/TraceText — what a trace text is read as

An array of entries is read in two passes.  The first makes an entry of every value and fails if one
of them is none (`TraceEntry.ofValue?`, `TraceEntry.shape_decodes`); only the second counts
registers, entry by entry, the outputs first (`TraceEntry.records_eq_error`).  So whatever is
written for the records, in any order of keys and with any blanks, comes out as written, or else the
first entry with too many registers is named (`Trace.ofJson_of_spelled`).
-/

namespace Tomasulo

open Json

namespace TraceEntry

/-! ## Values that are entries -/

/-- The keys of an entry, in the order in which an array gives their values. -/
def keys : List String := ["pc", "op", "outputs", "inputs"]

/-- Numbers and nulls. -/
def registers? : Value → Option (List (Option Nat)) :=
  Read.items? (Read.nullable? (Read.natural? UInt64.size))

/-- What stands under a key, or what its absence means. -/
def field? {α : Type} (ms : List (String × Value)) (key : String) (f : Value → Option α)
    (absent : Option α) : Option α :=
  match ms.lookup key with
  | some v => f v
  | none => absent

/-- The entry that these members make: each key is known and comes once, the flags are there, and
every value is of the kind that its key wants. -/
def ofMembers? (ms : List (String × Value)) : Option TraceEntry :=
  if (ms.map (·.1)).Nodup ∧ ∀ m ∈ ms, m.1 ∈ keys then do
    let pc ← field? ms "pc" (Read.natural? UInt64.size) (some 0)
    let op ← field? ms "op" OpWord.ofValue? none
    let outputs ← field? ms "outputs" registers? (some [])
    let inputs ← field? ms "inputs" registers? (some [])
    return { pc := UInt64.ofNat pc, op, outputs, inputs }
  else none

/-- **The entry that a value is**: an object, or an array of the values of the first few keys. -/
def ofValue? : Value → Option TraceEntry
  | .object ms => ofMembers? ms
  | .array vs => if vs.length ≤ keys.length then ofMembers? (keys.zip vs) else none
  | _ => none

/-! ## Entries are read as such -/

/-- What a value under a key changes in an entry. -/
def put? (key : String) (e : TraceEntry) (v : Value) : Option TraceEntry :=
  match key with
  | "pc" => (Read.natural? UInt64.size v).map fun n => { e with pc := UInt64.ofNat n }
  | "op" => (OpWord.ofValue? v).map fun op => { e with op }
  | "outputs" => (registers? v).map fun outputs => { e with outputs }
  | "inputs" => (registers? v).map fun inputs => { e with inputs }
  | _ => none

/-- A value that gives flags nests no deeper than one bracket. -/
theorem fits_of_ofValue? {v : Value} {op : OpWord} (h : OpWord.ofValue? v = some op) (depth : Nat) :
    Read.fits (depth + 1) v = true := by
  unfold OpWord.ofValue? at h
  split at h
  · next n =>
    obtain ⟨k, hk, -⟩ := Option.map_eq_some_iff.1 h
    obtain ⟨hk, hlt⟩ := Option.filter_eq_some_iff.1 hk
    exact Numeral.isFinite_of_toNat? hk ((of_decide_eq_true hlt).trans (by decide))
  · rfl
  · simp [Read.fits]
  · cases h

/-- Flags, as a number or by the name of a class. -/
theorem readOp_decodes : readOp.Decodes OpWord.ofValue? := by
  intro v rest cs hends h
  have hkept : OpWord.ofValue? v = (Read.kept? (nesting - 2) v).bind OpWord.ofValue? := by
    cases hv : OpWord.ofValue? v with
    | none =>
      rw [Read.kept?]
      split <;> simp [hv]
    | some op =>
      have hfits : Read.fits (nesting - 2) v = true := fits_of_ofValue? hv (nesting - 3)
      rw [Read.kept?, if_pos hfits, Option.bind_some, hv]
  rw [hkept]
  refine (Read.value_decodes (nesting - 2) hends h).bind fun {a cs'} hrest => ?_
  cases OpWord.ofValue? a with
  | none => exact .defect _
  | some op => exact .value hrest

/-- A list of registers is what its reader decodes. -/
theorem readRegisters_decodes : readRegisters.Decodes registers? :=
  Read.items_decodes (Read.nullable_decodes (Read.natural_decodes le_rfl))

theorem puts_put? : shape.Puts put? := by
  intro m hm draft
  simp only [shape, List.mem_cons, List.not_mem_nil, or_false] at hm
  rcases hm with rfl | rfl | rfl | rfl
  · exact (Read.natural_decodes le_rfl).map _
  · exact readOp_decodes.map _
  · exact readRegisters_decodes.map _
  · exact readRegisters_decodes.map _

/-- The members of an entry may come in any order, since different keys change different fields. -/
theorem independent_put? : Shape.Independent put? := by
  intro k k' hne draft v v'
  unfold put?
  split <;> split <;>
    simp only [Option.map_eq_bind, Option.bind_assoc, Function.comp_apply, Option.bind_some,
      Option.bind_none, Option.bind_fun_none]
  all_goals first | exact absurd rfl hne | exact Option.bind_comm ..

/-- The members put together are the entry of a value. There are four keys, so an array of up to
four values gives the first of them. -/
theorem value?_eq_ofValue? (v : Value) : shape.value? put? { op := ⟨0⟩ } v = ofValue? v := by
  cases v with
  | object ms =>
    have hkeys : (shape.members.map (·.key)).Nodup := by decide
    rw [Shape.value?, Shape.object?_of_closed independent_put? hkeys rfl, ofValue?, ofMembers?]
    refine if_congr Iff.rfl ?_ rfl
    simp only [Shape.found?, shape, List.foldl, field?]
    cases ms.lookup "pc" <;> cases ms.lookup "op" <;> cases ms.lookup "outputs" <;>
      cases ms.lookup "inputs" <;> simp [put?, Option.map_eq_bind, Option.bind_assoc]
  | array vs =>
    rw [Shape.value?, ofValue?]
    rcases vs with _ | ⟨v₁, _ | ⟨v₂, _ | ⟨v₃, _ | ⟨v₄, _ | ⟨v₅, vs⟩⟩⟩⟩⟩
    all_goals simp [Shape.items?, shape, ofMembers?, keys, field?, put?, List.lookup_cons,
      Option.map_eq_bind, Option.bind_assoc]
  | _ => rfl

/-- **Entries are read as such.** -/
theorem shape_decodes : (shape.read { op := ⟨0⟩ }).Decodes ofValue? := by
  intro v rest cs hends h
  rw [← value?_eq_ofValue?]
  exact Shape.read_decodes puts_put? nofun { op := ⟨0⟩ } hends h

end TraceEntry

/-! ## Records of entries -/

section Computations

variable {α β ε ε' : Type} {l : List α}

/-- A computation succeeds if its parts do. -/
theorem bind_eq_ok_iff {x : Except ε α} {f : α → Except ε β} {b : β} :
    (x >>= f) = .ok b ↔ ∃ a, x = .ok a ∧ f a = .ok b := by
  cases x with
  | error e => exact iff_of_false nofun (by simp)
  | ok a => exact ⟨fun h => ⟨a, rfl, h⟩, fun ⟨_, ha, h⟩ => Except.ok.inj ha ▸ h⟩

@[simp] theorem mapError_eq_ok_iff {f : ε → ε'} {x : Except ε α} {a : α} :
    x.mapError f = .ok a ↔ x = .ok a := by
  cases x <;> simp [Except.mapError]

/-- One failure is a failure of all. -/
theorem mapM_eq_none_iff {f : α → Option β} : l.mapM f = none ↔ ∃ a ∈ l, f a = none := by
  induction l with
  | nil => simp
  | cons a l ih =>
    rw [List.exists_mem_cons_iff, ← ih, List.mapM_cons]
    cases f a <;> cases l.mapM f <;> simp

/-- If every step gives a result, so do all together. -/
theorem mapM_eq_ok {f : α → Except ε β} {g : α → β} (h : ∀ a ∈ l, f a = .ok (g a)) :
    l.mapM f = .ok (l.map g) := by
  induction l with
  | nil => rfl
  | cons a l ih =>
    rw [List.forall_mem_cons] at h
    rw [List.mapM_cons, h.1, ih h.2]
    rfl

/-- If all together give a result, so does every step. -/
theorem exists_of_mapM_eq_ok {f : α → Except ε β} {bs : List β} (h : l.mapM f = .ok bs) :
    ∀ a ∈ l, ∃ b, f a = .ok b := by
  induction l generalizing bs with
  | nil => simp
  | cons a l ih =>
    rw [List.mapM_cons] at h
    obtain ⟨b, ha, h⟩ := bind_eq_ok_iff.1 h
    obtain ⟨bs', hl, -⟩ := bind_eq_ok_iff.1 h
    exact List.forall_mem_cons.2 ⟨⟨b, ha⟩, ih hl⟩

/-- The first error is the error of the whole. -/
theorem mapM_eq_error {f : α → Except ε β} {i : Nat} {a : α} {e : ε} (hi : l[i]? = some a)
    (ha : f a = .error e) (hbefore : ∀ j b, j < i → l[j]? = some b → ∃ c, f b = .ok c) :
    l.mapM f = .error e := by
  induction l generalizing i with
  | nil => simp at hi
  | cons b l ih =>
    rw [List.mapM_cons]
    cases i with
    | zero =>
      obtain rfl : b = a := by simpa using hi
      rw [ha]
      rfl
    | succ i =>
      obtain ⟨c, hc⟩ := hbefore 0 b (Nat.succ_pos i) rfl
      have hrest := ih (i := i) (by simpa using hi) fun j b hj hb =>
        hbefore (j + 1) b (Nat.succ_lt_succ hj) (by simpa using hb)
      rw [hc, hrest]
      rfl

end Computations

namespace TraceEntry

/-- An entry with no more registers than there are slots. -/
def Fits (e : TraceEntry) : Prop :=
  e.outputs.length ≤ 2 ∧ e.inputs.length ≤ 3

/-- The record of an entry that fits. -/
def record (e : TraceEntry) : Record where
  pc := e.pc
  op := e.op
  outputs := Operands.ofList e.outputs
  inputs := Operands.ofList e.inputs

/-- An entry that fits makes its record. -/
theorem toRecord_of_fits {e : TraceEntry} (h : e.Fits) (i : Nat) : e.toRecord i = .ok e.record := by
  have houtputs : e.outputs.length ≤ maxOutputs := h.1
  have hinputs : e.inputs.length ≤ maxInputs := h.2
  rw [toRecord, pack, if_pos houtputs, pack, if_pos hinputs]
  rfl

/-- Too many outputs are refused. -/
theorem toRecord_of_outputs {e : TraceEntry} (h : 2 < e.outputs.length) (i : Nat) :
    e.toRecord i = .error ⟨i, .output, e.outputs.length, 2⟩ := by
  have houtputs : ¬ e.outputs.length ≤ maxOutputs := Nat.not_le.2 h
  rw [toRecord, pack, if_neg houtputs]
  rfl

/-- Too many inputs are refused, if the outputs fit. -/
theorem toRecord_of_inputs {e : TraceEntry} (houtputs : e.outputs.length ≤ 2)
    (h : 3 < e.inputs.length) (i : Nat) :
    e.toRecord i = .error ⟨i, .input, e.inputs.length, 3⟩ := by
  have houtputs' : e.outputs.length ≤ maxOutputs := houtputs
  have hinputs : ¬ e.inputs.length ≤ maxInputs := Nat.not_le.2 h
  rw [toRecord, pack, if_pos houtputs', pack, if_neg hinputs]
  rfl

/-- An entry that has a record fits. -/
theorem fits_of_toRecord {e : TraceEntry} {i : Nat} {r : Record} (h : e.toRecord i = .ok r) :
    e.Fits := by
  have houtputs : e.outputs.length ≤ 2 := Nat.le_of_not_lt fun houtputs => by
    cases h.symm.trans (toRecord_of_outputs houtputs i)
  refine ⟨houtputs, Nat.le_of_not_lt fun hinputs => ?_⟩
  cases h.symm.trans (toRecord_of_inputs houtputs hinputs i)

/-- The records of entries in order. -/
def records (entries : List TraceEntry) : Except TooManyOperands (List Record) :=
  entries.zipIdx.mapM fun (e, i) => toRecord i e

variable {entries : List TraceEntry}

/-- Entries that fit make their records. -/
theorem records_of_fits (h : ∀ e ∈ entries, e.Fits) :
    records entries = .ok (entries.map record) := by
  have heach : ∀ p ∈ entries.zipIdx, toRecord p.2 p.1 = .ok p.1.record := fun p hp =>
    toRecord_of_fits (h p.1 (List.fst_mem_of_mem_zipIdx hp)) p.2
  have hrecords : (entries.zipIdx.map Prod.fst).map record =
      entries.zipIdx.map fun p => p.1.record := List.map_map
  rw [records, mapM_eq_ok heach, ← hrecords, List.zipIdx_map_fst]

/-- **Entries have records if and only if they fit.** -/
theorem records_eq_ok_iff {rs : List Record} :
    records entries = .ok rs ↔ (∀ e ∈ entries, e.Fits) ∧ rs = entries.map record := by
  constructor
  · intro h
    have hfits : ∀ e ∈ entries, e.Fits := by
      intro e he
      obtain ⟨i, hi⟩ := List.mem_iff_getElem?.1 he
      obtain ⟨r, hr⟩ := exists_of_mapM_eq_ok h (e, i) (List.mk_mem_zipIdx_iff_getElem?.2 hi)
      exact fits_of_toRecord hr
    rw [records_of_fits hfits] at h
    exact ⟨hfits, (Except.ok.inj h).symm⟩
  · rintro ⟨hfits, rfl⟩
    exact records_of_fits hfits

/-- The first entry that does not fit stops the loading. -/
theorem records_eq_error {i : Nat} {e : TraceEntry} {d : TooManyOperands}
    (hi : entries[i]? = some e) (he : e.toRecord i = .error d)
    (hbefore : ∀ j e', j < i → entries[j]? = some e' → e'.Fits) : records entries = .error d := by
  have hget (j : Nat) : entries.zipIdx[j]? = entries[j]?.map fun e => (e, j) := by
    rw [List.getElem?_zipIdx, Nat.zero_add]
  refine mapM_eq_error (a := (e, i)) (by rw [hget, hi]; rfl) he fun j p hj hp => ?_
  rw [hget, Option.map_eq_some_iff] at hp
  obtain ⟨e', he', rfl⟩ := hp
  exact ⟨_, toRecord_of_fits (hbefore j e' hj he') j⟩

end TraceEntry

/-- Registers are packed in order from the first slot on. -/
theorem Operands.toList_ofList {n : Nat} {registers : List (Option Nat)}
    (h : registers.length ≤ n) : (Operands.ofList registers : Operands n).toList =
      registers ++ List.replicate (n - registers.length) none := by
  refine List.ext_getElem (by simp; omega) fun i hi hi' => ?_
  simp only [Operands.ofList, Vector.getElem_toList, Vector.getElem_ofFn, List.getElem_append,
    List.getElem_replicate]
  split
  · next hlt => rw [List.getElem?_eq_getElem hlt, Option.join_some]
  · next hge => rw [List.getElem?_eq_none (Nat.le_of_not_lt hge), Option.join_none]

/-! ## What is written for a record -/

/-- How the flags are written. -/
inductive OpText where
  | flags (word : OpWord)
  | named (op : OpClass)

namespace OpText

/-- The flags meant: those given, or those a decoder reports for the class. -/
def word : OpText → OpWord
  | .flags word => word
  | .named op => op.word

/-- A number or a name. -/
def toJson : OpText → Value
  | .flags word => .nat word.bits.toNat
  | .named op => .string op.name

/-- Flags are read back from each way to write them. -/
theorem ofValue?_toJson (op : OpText) : OpWord.ofValue? op.toJson = some op.word := by
  cases op with
  | flags word =>
    have hlt : word.bits.toNat < UInt32.size := word.bits.toNat_lt
    simp [toJson, Value.nat, OpWord.ofValue?, hlt, OpText.word]
  | named op => simp [toJson, OpWord.ofValue?, OpText.word]

end OpText

/-- What is written for a record; all but the flags may be left out. -/
structure EntryText where
  pc : Option UInt64 := none
  op : OpText
  outputs : Option (List (Option UInt64)) := none
  inputs : Option (List (Option UInt64)) := none

namespace EntryText

/-- Registers as numbers. -/
def numbers (registers : List (Option UInt64)) : List (Option Nat) :=
  registers.map (·.map UInt64.toNat)

/-- The members of an entry. -/
def members (e : EntryText) : List (String × Value) :=
  (e.pc.map fun n => ("pc", Value.nat n.toNat)).toList ++ ("op", e.op.toJson) ::
    ((e.outputs.map fun rs => ("outputs", Value.nats? (numbers rs))).toList ++
      (e.inputs.map fun rs => ("inputs", Value.nats? (numbers rs))).toList)

/-- **An object writes an entry** if it has its members, in any order. -/
def Writes (e : EntryText) (v : Value) : Prop :=
  ∃ ms, v = .object ms ∧ ms.Perm e.members

/-- Whatever writes an entry can be written. -/
theorem Writes.proper {e : EntryText} {v : Value} (h : e.Writes v) : v.Proper := by
  obtain ⟨ms, rfl, hperm⟩ := h
  have hmembers : ∀ m ∈ e.members, m.2.Proper := by
    obtain ⟨pc, op, outputs, inputs⟩ := e
    have hop : op.toJson.Proper := by cases op <;> simp [OpText.toJson]
    cases pc <;> cases outputs <;> cases inputs <;> simp [members, hop]
  exact Value.proper_object.2 fun m hm => hmembers m (hperm.mem_iff.1 hm)

/-- The entry that is meant. -/
def entry (e : EntryText) : TraceEntry where
  pc := e.pc.getD 0
  op := e.op.word
  outputs := numbers (e.outputs.getD [])
  inputs := numbers (e.inputs.getD [])

end EntryText

namespace TraceEntry

theorem registers?_nats? (registers : List (Option UInt64)) :
    registers? (.nats? (EntryText.numbers registers)) = some (EntryText.numbers registers) := by
  refine Read.mapM_nat? fun n hn k hk => ?_
  obtain ⟨r, -, rfl⟩ := List.mem_map.1 hn
  obtain ⟨r, -, rfl⟩ := Option.map_eq_some_iff.1 hk
  exact r.toNat_lt

/-- A field does not depend on the order of the members. -/
theorem field?_perm {ms ms' : List (String × Value)} (h : ms.Perm ms')
    (hnodup : (ms.map (·.1)).Nodup) {α : Type} (key : String) (f : Value → Option α)
    (absent : Option α) : field? ms key f absent = field? ms' key f absent := by
  have hlookup : ms.lookup key = ms'.lookup key := by
    refine Option.ext fun v => ?_
    rw [Shape.lookup_eq_some_iff_mem hnodup,
      Shape.lookup_eq_some_iff_mem ((h.map (·.1)).nodup_iff.1 hnodup), h.mem_iff]
  rw [field?, hlookup, field?]

/-- The order of the members does not matter. -/
theorem ofMembers?_perm {ms ms' : List (String × Value)} (h : ms.Perm ms') :
    ofMembers? ms = ofMembers? ms' := by
  have hkeys : ((ms.map (·.1)).Nodup ∧ ∀ m ∈ ms, m.1 ∈ keys) ↔
      (ms'.map (·.1)).Nodup ∧ ∀ m ∈ ms', m.1 ∈ keys :=
    and_congr (h.map (·.1)).nodup_iff (forall_congr' fun m => by rw [h.mem_iff])
  by_cases hms : (ms.map (·.1)).Nodup ∧ ∀ m ∈ ms, m.1 ∈ keys
  · simp only [ofMembers?, if_pos hms, if_pos (hkeys.1 hms), field?_perm h hms.1]
  · rw [ofMembers?, if_neg hms, ofMembers?, if_neg (mt hkeys.2 hms)]

/-- **What is written is read.** -/
theorem ofValue?_of_writes {e : EntryText} {v : Value} (h : e.Writes v) :
    ofValue? v = some e.entry := by
  obtain ⟨ms, rfl, hperm⟩ := h
  rw [ofValue?, ofMembers?_perm hperm]
  obtain ⟨pc, op, outputs, inputs⟩ := e
  have hpc (n : UInt64) : Read.natural? UInt64.size (.nat n.toNat) = some n.toNat :=
    Read.natural?_nat n.toNat_lt
  have hnone : EntryText.numbers [] = [] := rfl
  cases pc <;> cases outputs <;> cases inputs <;>
    simp [ofMembers?, EntryText.members, EntryText.entry, keys, field?, List.lookup_cons, hpc,
      OpText.ofValue?_toJson, registers?_nats?, hnone]

end TraceEntry

/-- **The record that an entry asks for** at its place: what is written, its registers in the first
slots, and no schedule. -/
structure EntryText.Makes (e : EntryText) (i : Nat) (r : Record) : Prop where
  index : r.index = i
  pc : r.pc = e.pc.getD 0
  op : r.op = e.op.word
  outputs : r.outputs.toList = e.entry.outputs ++ List.replicate (2 - e.entry.outputs.length) none
  inputs : r.inputs.toList = e.entry.inputs ++ List.replicate (3 - e.entry.inputs.length) none
  producers : r.producers = Operands.empty
  stamps : r.stamps = Stamps.blank

/-- The first written entry that does not fit stops the loading. -/
theorem EntryText.records_eq_error {es : List EntryText} {i : Nat} {e : EntryText}
    {d : TooManyOperands} (hi : es[i]? = some e) (he : e.entry.toRecord i = .error d)
    (hbefore : ∀ (j : Nat) e', j < i → es[j]? = some e' → e'.entry.Fits) :
    TraceEntry.records (es.map entry) = .error d := by
  refine TraceEntry.records_eq_error (by rw [List.getElem?_map, hi]; rfl) he
    fun j written hj hwritten => ?_
  rw [List.getElem?_map, Option.map_eq_some_iff] at hwritten
  obtain ⟨e', he', rfl⟩ := hwritten
  exact hbefore j e' hj he'

/-- A written entry that fits makes its record at its place. -/
theorem EntryText.makes_record {e : EntryText} (h : e.entry.Fits) (i : Nat) :
    e.Makes i { e.entry.record.unscheduled with index := i } where
  index := rfl
  pc := rfl
  op := rfl
  outputs := Operands.toList_ofList h.1
  inputs := Operands.toList_ofList h.2
  producers := rfl
  stamps := rfl

/-! ## Reading a trace -/

namespace Trace

variable {vs : List Value} {text : String}

/-- The entries of a text: the first of the two passes. -/
def entries (text : String) : Except Defect (List TraceEntry) :=
  (Read.items (TraceEntry.shape.read { op := ⟨0⟩ })).run text

/-- A trace is made of the entries of its text. -/
theorem ofJson_of_entries {es : List TraceEntry} (h : entries text = .ok es) :
    Trace.ofJson text = ((TraceEntry.records es).mapError .operands).map ofList := by
  rw [Trace.ofJson, ← entries, h]
  rfl

/-- **Entries come first, records after them.** -/
theorem ofJson_eq (htext : Spelled (Value.array vs).tokens text.toList) :
    (vs.mapM TraceEntry.ofValue? = none ∧ ∃ d, Trace.ofJson text = .error (.text d)) ∨
      ∃ entries, vs.mapM TraceEntry.ofValue? = some entries ∧
        Trace.ofJson text = ((TraceEntry.records entries).mapError .operands).map ofList := by
  rcases (Read.items_decodes TraceEntry.shape_decodes).run htext with
    ⟨entries, hentries, hrun⟩ | ⟨hnone, d, hrun⟩
  · exact .inr ⟨entries, hentries, ofJson_of_entries hrun⟩
  · refine .inl ⟨hnone, d, ?_⟩
    rw [Trace.ofJson, hrun]
    rfl

/-- **A text is a trace if it holds entries that fit.** -/
theorem ofJson_eq_ok_iff {t : Trace} : Trace.ofJson text = .ok t ↔ ∃ es, entries text = .ok es ∧
    (∀ e ∈ es, e.Fits) ∧ t = ofList (es.map TraceEntry.record) := by
  rw [Trace.ofJson, bind_eq_ok_iff]
  refine exists_congr fun es => ?_
  rw [mapError_eq_ok_iff, bind_eq_ok_iff, ← entries]
  refine and_congr_right fun _ => ⟨fun ⟨rs, hrs, ht⟩ => ?_, fun ⟨hfits, ht⟩ => ?_⟩
  · obtain ⟨hfits, rfl⟩ := TraceEntry.records_eq_ok_iff.1 (mapError_eq_ok_iff.1 hrs)
    exact ⟨hfits, (Except.ok.inj ht).symm⟩
  · exact ⟨_, mapError_eq_ok_iff.2 (TraceEntry.records_of_fits hfits), congrArg Except.ok ht.symm⟩

/-- Written entries are read back one by one. -/
theorem mapM_of_writes {es : List EntryText} (h : List.Forall₂ EntryText.Writes es vs) :
    vs.mapM TraceEntry.ofValue? = some (es.map EntryText.entry) := by
  induction h with
  | nil => rfl
  | cons hv _ ih =>
    rw [List.mapM_cons, TraceEntry.ofValue?_of_writes hv, ih]
    rfl

/-- An array of written entries is read as these entries. -/
theorem ofJson_of_writes (htext : Spelled (Value.array vs).tokens text.toList)
    {es : List EntryText} (hes : List.Forall₂ EntryText.Writes es vs) : Trace.ofJson text =
      ((TraceEntry.records (es.map EntryText.entry)).mapError .operands).map ofList := by
  have hwritten := mapM_of_writes hes
  obtain ⟨hnone, -⟩ | ⟨entries, hentries, hload⟩ := ofJson_eq htext
  · rw [hwritten] at hnone
    cases hnone
  · obtain rfl : es.map EntryText.entry = entries := Option.some.inj (hwritten.symm.trans hentries)
    exact hload

/-- **A trace text is read exactly.**  Of an array of objects that write entries, with their keys in
any order, it makes a trace of the records that the entries ask for; if some entry has more
registers than there are slots, the first such entry is named, its outputs before its inputs.  An
array with a value that is no entry is a defect of the text, whatever the other values are, and no
other array is. -/
theorem ofJson_of_spelled (htext : Spelled (Value.array vs).tokens text.toList) :
    (∀ es : List EntryText, List.Forall₂ EntryText.Writes es vs →
      ((∀ e ∈ es, e.entry.Fits) → ∃ t, Trace.ofJson text = .ok t ∧ t.size = es.length ∧
        ∀ (i : Nat) e, es[i]? = some e → ∃ r, t[i]? = some r ∧ e.Makes i r) ∧
      ∀ (i : Nat) e, es[i]? = some e →
        (∀ (j : Nat) e', j < i → es[j]? = some e' → e'.entry.Fits) →
          (2 < e.entry.outputs.length →
            Trace.ofJson text = .error (.operands ⟨i, .output, e.entry.outputs.length, 2⟩)) ∧
          (e.entry.outputs.length ≤ 2 → 3 < e.entry.inputs.length →
            Trace.ofJson text = .error (.operands ⟨i, .input, e.entry.inputs.length, 3⟩))) ∧
    ((∃ v ∈ vs, TraceEntry.ofValue? v = none) ↔ ∃ d, Trace.ofJson text = .error (.text d)) := by
  refine ⟨fun es hes => ?_, ?_⟩
  · have hload := ofJson_of_writes htext hes
    refine ⟨fun hfits => ?_, fun i e hi hbefore => ⟨fun houtputs => ?_, fun houtputs hinputs => ?_⟩⟩
    · have hrecords : TraceEntry.records (es.map EntryText.entry) =
          .ok ((es.map EntryText.entry).map TraceEntry.record) :=
        TraceEntry.records_of_fits (List.forall_mem_map.2 hfits)
      have hloaded : Trace.ofJson text =
          .ok (ofList ((es.map EntryText.entry).map TraceEntry.record)) := by
        rw [hload, hrecords]
        rfl
      refine ⟨_, hloaded, by simp, fun i e hi => ⟨_, ?_,
        EntryText.makes_record (hfits e (List.mem_of_getElem? hi)) i⟩⟩
      rw [getElem?_ofList, List.getElem?_map, List.getElem?_map, hi]
      rfl
    · have hrecords := TraceEntry.toRecord_of_outputs houtputs i
      rw [hload, EntryText.records_eq_error hi hrecords hbefore]
      rfl
    · have hrecords := TraceEntry.toRecord_of_inputs houtputs hinputs i
      rw [hload, EntryText.records_eq_error hi hrecords hbefore]
      rfl
  · rw [← mapM_eq_none_iff]
    rcases ofJson_eq htext with ⟨hnone, d, hd⟩ | ⟨entries, hentries, hload⟩
    · exact iff_of_true hnone ⟨d, hd⟩
    · refine iff_of_false (by simp [hentries]) ?_
      rintro ⟨d, hd⟩
      rw [hload] at hd
      cases hrecords : TraceEntry.records entries <;> rw [hrecords] at hd <;> cases hd

end Trace

/-- An entry with everything written out. -/
def EntryText.full : EntryText where
  pc := some 4096
  op := .named .load
  outputs := some [some 2]
  inputs := some [none, some 29]

/-- An entry with more registers than there are slots, on both sides. -/
def EntryText.wide : EntryText where
  op := .flags ⟨1⟩
  outputs := some [some 1, none, some 3]
  inputs := some [some 1, some 2, some 3, some 4]

/-- The keys of `full` in the reverse order make the same record; behind it `wide` is the first
entry with too many registers, for its outputs or, without them, for its inputs; and a key that
means nothing is found even behind `wide`. -/
theorem Trace.ofJson_of_spelled_sample :
    (∃ t, Trace.ofJson ((Value.array [.object EntryText.full.members.reverse]).text .indented) =
        .ok t ∧ t.size = 1 ∧ ∃ r, t[0]? = some r ∧ EntryText.full.Makes 0 r) ∧
      Trace.ofJson ((Value.array [.object EntryText.full.members.reverse,
        .object EntryText.wide.members]).text .indented) = .error (.operands ⟨1, .output, 3, 2⟩) ∧
      Trace.ofJson ((Value.array [.object EntryText.full.members.reverse,
        .object { EntryText.wide with outputs := none }.members]).text .indented) =
          .error (.operands ⟨1, .input, 4, 3⟩) ∧
      ∃ d, Trace.ofJson ((Value.array [.object EntryText.wide.members,
        .object [("op", .nat 1), ("cycle", .null)]]).text .compact) = .error (.text d) := by
  have hfull : EntryText.full.Writes (.object EntryText.full.members.reverse) :=
    ⟨_, rfl, List.reverse_perm _⟩
  have hwide : EntryText.wide.Writes (.object EntryText.wide.members) := ⟨_, rfl, .refl _⟩
  have hnarrow : { EntryText.wide with outputs := none }.Writes
      (.object { EntryText.wide with outputs := none }.members) := ⟨_, rfl, .refl _⟩
  have hfits : EntryText.full.entry.Fits := ⟨by decide, by decide⟩
  have htext {vs : List Value} (hvs : ∀ v ∈ vs, v.Proper) (style : Style) (hstyle : style.IsBlank) :
      Spelled (Value.array vs).tokens ((Value.array vs).text style).toList :=
    Value.spelled_text hstyle (Value.proper_array.2 hvs)
  have hbefore {e : EntryText} (j : Nat) (e' : EntryText) (hj : j < 1)
      (he' : [EntryText.full, e][j]? = some e') : e'.entry.Fits := by
    obtain rfl : j = 0 := Nat.lt_one_iff.1 hj
    obtain rfl := Option.some.inj he'
    exact hfits
  refine ⟨?_, ?_, ?_, ?_⟩
  · have hread := Trace.ofJson_of_spelled
      (htext (List.forall_mem_singleton.2 hfull.proper) _ Style.isBlank_indented)
    obtain ⟨t, ht, hsize, hrecords⟩ :=
      (hread.1 [EntryText.full] (.cons hfull .nil)).1 (List.forall_mem_singleton.2 hfits)
    exact ⟨t, ht, hsize, hrecords 0 _ rfl⟩
  · have hread := Trace.ofJson_of_spelled (htext (List.forall_mem_cons.2
      ⟨hfull.proper, List.forall_mem_singleton.2 hwide.proper⟩) _ Style.isBlank_indented)
    exact ((hread.1 _ (.cons hfull (.cons hwide .nil))).2 1 _ rfl hbefore).1 (by decide)
  · have hread := Trace.ofJson_of_spelled (htext (List.forall_mem_cons.2
      ⟨hfull.proper, List.forall_mem_singleton.2 hnarrow.proper⟩) _ Style.isBlank_indented)
    exact ((hread.1 _ (.cons hfull (.cons hnarrow .nil))).2 1 _ rfl hbefore).2 (by decide)
      (by decide)
  · have hbad : (Value.object [("op", .nat 1), ("cycle", .null)]).Proper := by simp
    have hread := Trace.ofJson_of_spelled (htext (List.forall_mem_cons.2
      ⟨hwide.proper, List.forall_mem_singleton.2 hbad⟩) _ Style.isBlank_compact)
    exact hread.2.1 ⟨_, List.mem_cons_of_mem _ (List.mem_singleton.2 rfl),
      by simp [TraceEntry.ofValue?, TraceEntry.ofMembers?, TraceEntry.keys]⟩

end Tomasulo
