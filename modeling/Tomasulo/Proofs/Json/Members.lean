import Mathlib.Data.List.Nodup
import Tomasulo.Json.Shape
import Tomasulo.Proofs.Json.Decode

/-!
# Proofs/Json/Members — objects with known members

The reader of a shape decodes what the readers of its members decode together: `Shape.object?` for
an object, `Shape.items?` for an array (`Shape.read_decodes`).  In an object the order of the
members does not matter if different members fill different parts of the draft; then what an object
leaves there is found by looking the known keys up (`Shape.object?_eq_found?`).
-/

namespace Tomasulo.Json

variable {σ : Type}

/-! ## The end of a fixed list of items -/

namespace Read

variable {rest : List Token} {cs : List Char} {v : Value}

theorem closeArray_close (h : Spelled (.mark .closeArray :: rest) cs) :
    ∃ cs', closeArray cs = .ok ((), cs') ∧ Spelled rest cs' := by
  obtain ⟨cs', hpeek, hrest⟩ := h.peek_mark
  refine ⟨cs', ?_, hrest⟩
  rw [closeArray, Reader.bind_ok hpeek]
  rfl

/-- One more item is an error. -/
theorem closeArray_item (first : Bool) (h : Spelled (separator first ++ (v.tokens ++ rest)) cs) :
    ∃ d, closeArray cs = .error d := by
  cases first with
  | true =>
    obtain ⟨c, word, cs', hpeek, hword, -⟩ := Spelled.peek_value h
    have hc : c ≠ ']' := hword.ne_char v.opens_first (m := .closeArray) rfl
    refine ⟨.malformed, ?_⟩
    rw [closeArray, Reader.bind_ok hpeek]
    refine congrFun (?_ : _ = (throw .malformed : Reader Unit)) _
    simp
  | false =>
    obtain ⟨cs', hcomma, -⟩ := Spelled.peek_mark h
    exact ⟨.malformed, Reader.bind_ok hcomma _⟩

/-- The items of an array, if each of them is one and there are so many. -/
def exactly? {α : Type} (count : Nat) (f : Value → Option α) : Value → Option (List α)
  | .array vs => if vs.length = count then vs.mapM f else none
  | _ => none

/-- **So many items and the closing bracket.** -/
theorem gives_exactlyFrom {α : Type} {item : Reader α} {f : Value → Option α}
    (hitem : item.Decodes f) : ∀ (count : Nat) (vs : List Value) {first : Bool} {cs : List Char},
      Spelled (itemTokens first vs ++ .mark .closeArray :: rest) cs →
        Gives rest (exactlyFrom item count first cs)
          (if vs.length = count then vs.mapM f else none)
  | 0, [], _, _, h => by
    obtain ⟨cs', hclose, hrest⟩ := closeArray_close h
    rw [exactlyFrom, Reader.bind_ok hclose]
    change Gives rest (.ok ([], cs')) (some [])
    exact .value hrest
  | 0, v :: vs, first, _, h => by
    rw [itemTokens, List.append_assoc, List.append_assoc] at h
    obtain ⟨d, hclose⟩ := closeArray_item first h
    have hmany : ¬ (v :: vs).length = 0 := by simp
    rw [exactlyFrom, Reader.bind_error hclose, if_neg hmany]
    exact .defect d
  | count + 1, [], first, _, h => by
    obtain ⟨cs', hanother, -⟩ := anotherItem_close first h
    have hfew : ¬ ([] : List Value).length = count + 1 := by simp
    rw [exactlyFrom, Reader.bind_ok hanother, if_neg hfew]
    exact .defect _
  | count + 1, v :: vs, first, _, h => by
    rw [itemTokens, List.append_assoc, List.append_assoc] at h
    obtain ⟨cs', hanother, hvalue⟩ := anotherItem_value first h
    have hfound : (if (v :: vs).length = count + 1 then (v :: vs).mapM f else none) =
        (f v).bind fun a => (if vs.length = count then vs.mapM f else none).map (a :: ·) := by
      simp only [List.length_cons, Nat.add_right_cancel_iff, List.mapM_cons]
      split_ifs
      · cases f v with
        | none => rfl
        | some a => cases vs.mapM f <;> rfl
      · cases f v <;> rfl
    rw [exactlyFrom, Reader.bind_ok hanother, if_pos rfl, hfound]
    exact (hitem (ends_itemTokens vs _ rest) hvalue).bind fun hrest =>
      (gives_exactlyFrom hitem count vs hrest).map _

/-- **An array of a fixed length.** -/
theorem exactly_decodes {α : Type} {item : Reader α} {f : Value → Option α}
    (hitem : item.Decodes f) (count : Nat) : (exactly count item).Decodes (exactly? count f) := by
  intro v rest cs hends h
  cases v with
  | array vs =>
    obtain ⟨cs', hopen, hrest⟩ := openArray_array h
    rw [exactly, Reader.bind_ok hopen]
    exact gives_exactlyFrom hitem count vs hrest
  | null | bool b | number n | string s | object ms =>
    obtain ⟨d, hopen⟩ := openArray_error (by simp) hends h
    rw [exactly, Reader.bind_error hopen]
    exact .defect d
end Read

namespace Shape

/-! ## What a shape decodes -/

section Semantics

variable (shape : Shape σ) (put : String → σ → Value → Option σ)

/-- What the members of an object leave in the draft; `seen` holds the known keys that have been
met. -/
def object? : (seen : List String) → (draft : σ) → List (String × Value) → Option σ
  | seen, draft, [] => if shape.isComplete seen then some draft else none
  | seen, draft, (key, v) :: ms =>
    if (shape.find? key).isSome then
      if seen.contains key then none
      else (put key draft v).bind fun draft => object? (key :: seen) draft ms
    else if shape.closed then none
    else object? seen draft ms

/-- What the items of an array leave in the draft. -/
def items? : (members : List (Member σ)) → (draft : σ) → List Value → Option σ
  | [], draft, [] => some draft
  | [], _, _ :: _ => none
  | m :: ms, draft, [] => if (m :: ms).all (·.absence == .default) then some draft else none
  | m :: ms, draft, v :: vs => (put m.key draft v).bind fun draft => items? ms draft vs

/-- **What a value leaves in the draft.** -/
def value? (draft : σ) : Value → Option σ
  | .object ms => shape.object? put [] draft ms
  | .array vs => items? put shape.members draft vs
  | _ => none

/-- Every member puts values into the draft as `put` does under its key. -/
def Puts : Prop :=
  ∀ m ∈ shape.members, ∀ draft, (m.read draft).Decodes (put m.key draft)

end Semantics

section Reading

variable {shape : Shape σ} {put : String → σ → Value → Option σ} {rest : List Token}
  {cs : List Char}

/-- **Members up to the closing bracket.** -/
theorem gives_membersFrom (hput : shape.Puts put)
    (hskip : shape.closed = false → Skip.value.Decodes fun _ => some ())
    (ms : List (String × Value)) {fuel : Nat} (hfuel : ms.length < fuel) (first : Bool)
    (seen : List String) (draft : σ)
    (h : Spelled (memberTokens first ms ++ .mark .closeObject :: rest) cs) :
    Gives rest (shape.membersFrom fuel first seen draft cs) (shape.object? put seen draft ms) := by
  induction ms generalizing fuel first seen draft cs with
  | nil =>
    obtain ⟨fuel, rfl⟩ := Nat.exists_eq_add_one_of_ne_zero (Nat.ne_of_gt hfuel)
    obtain ⟨cs', hanother, hrest⟩ := Read.anotherKey_close first h
    rw [membersFrom, Reader.bind_ok hanother, object?]
    change Gives rest ((if shape.isComplete seen then pure draft else throw .mismatched :
      Reader σ) cs') _
    split
    · exact .value hrest
    · exact .defect _
  | cons m ms ih =>
    obtain ⟨key, v⟩ := m
    obtain ⟨fuel, rfl⟩ := Nat.exists_eq_add_one_of_ne_zero (Nat.ne_of_gt (Nat.zero_lt_of_lt hfuel))
    rw [memberTokens, List.append_assoc, List.cons_append, List.cons_append, List.append_assoc] at h
    obtain ⟨cs₁, cs₂, cs', hanother, hkey, hcolon, hrest⟩ := Read.anotherKey_member first h
    have hends := Read.ends_memberTokens ms .closeObject rest
    rw [membersFrom, Reader.bind_ok hanother, if_pos rfl, Reader.bind_ok hkey, object?]
    cases hfind : shape.find? key with
    | some m =>
      have hm : m ∈ shape.members := List.mem_of_find?_eq_some hfind
      have hmkey : m.key = key := by simpa using List.find?_some hfind
      simp only [Option.isSome_some, if_true]
      by_cases hseen : seen.contains key = true
      · rw [if_pos hseen, if_pos hseen]
        exact .defect _
      · rw [if_neg hseen, if_neg hseen, Reader.bind_ok hcolon, ← hmkey]
        exact (hput m hm draft hends hrest).bind fun hrest' =>
          ih (Nat.lt_of_succ_lt_succ hfuel) false _ _ hrest'
    | none =>
      simp only [Option.isSome_none, Bool.false_eq_true, if_false]
      cases hclosed : shape.closed with
      | true => exact .defect _
      | false =>
        have hskipped : Gives (memberTokens false ms ++ .mark .closeObject :: rest)
            (Skip.value cs') (some ()) := hskip hclosed hends hrest
        simp only [Bool.false_eq_true, if_false]
        rw [Reader.bind_ok hcolon]
        exact hskipped.bind fun hrest' => ih (Nat.lt_of_succ_lt_succ hfuel) false _ _ hrest'

/-- **Items up to the closing bracket.** -/
theorem gives_itemsFrom (members : List (Member σ))
    (hput : ∀ m ∈ members, ∀ draft, (m.read draft).Decodes (put m.key draft)) (vs : List Value)
    (first : Bool) (draft : σ)
    (h : Spelled (itemTokens first vs ++ .mark .closeArray :: rest) cs) :
    Gives rest (itemsFrom members first draft cs) (items? put members draft vs) := by
  induction members generalizing vs first draft cs with
  | nil =>
    cases vs with
    | nil =>
      obtain ⟨cs', hclose, hrest⟩ := Read.closeArray_close h
      rw [itemsFrom, Reader.bind_ok hclose]
      exact .value hrest
    | cons v vs =>
      rw [itemTokens, List.append_assoc, List.append_assoc] at h
      obtain ⟨d, hclose⟩ := Read.closeArray_item first h
      rw [itemsFrom, Reader.bind_error hclose]
      exact .defect d
  | cons m members ih =>
    cases vs with
    | nil =>
      obtain ⟨cs', hanother, hrest⟩ := Read.anotherItem_close first h
      rw [itemsFrom, Reader.bind_ok hanother, if_neg Bool.false_ne_true, items?]
      split
      · exact .value hrest
      · exact .defect _
    | cons v vs =>
      rw [itemTokens, List.append_assoc, List.append_assoc] at h
      obtain ⟨cs', hanother, hrest⟩ := Read.anotherItem_value first h
      rw [itemsFrom, Reader.bind_ok hanother, if_pos rfl, items?]
      have hm := hput m (List.mem_cons_self ..) draft (Read.ends_itemTokens vs _ rest) hrest
      exact hm.bind fun hrest' =>
        ih (fun m' hm' => hput m' (List.mem_cons_of_mem _ hm')) vs false _ hrest'

/-- **The reader of a shape decodes it.** -/
theorem read_decodes (hput : shape.Puts put)
    (hskip : shape.closed = false → Skip.value.Decodes fun _ => some ()) (draft : σ) :
    (shape.read draft).Decodes (shape.value? put draft) := by
  intro v rest cs hends h
  cases v with
  | object ms =>
    rw [Read.tokens_object] at h
    obtain ⟨cs', hpeek, hrest⟩ := h.peek_mark
    rw [read, Reader.bind_ok hpeek]
    exact gives_membersFrom hput hskip ms (Read.length_lt_of_members hrest) true [] draft hrest
  | array vs =>
    rw [Read.tokens_array] at h
    obtain ⟨cs', hpeek, hrest⟩ := h.peek_mark
    rw [read, Reader.bind_ok hpeek]
    exact gives_itemsFrom shape.members hput vs true draft hrest
  | _ =>
    obtain ⟨c, cs', hpeek, harray, hobject, hscalar⟩ :=
      Read.gives_scalar (by rintro _ ⟨⟩) hends h
    have hread : shape.read draft cs =
        (do let _ ← Read.scalar; throw .mismatched : Reader σ) cs' := by
      rw [read, Reader.bind_ok hpeek]
      refine congrFun ?_ cs'
      simp [harray, hobject]
    have hrefused : Gives rest ((do let _ ← Read.scalar; throw .mismatched : Reader σ) cs')
        ((Read.scalar? _).bind fun _ => none) := hscalar.bind fun _ => .defect _
    rw [Option.bind_fun_none] at hrefused
    rw [hread]
    exact hrefused

end Reading

/-! ## The order of the members -/

section Order

variable {shape : Shape σ} {put : String → σ → Value → Option σ} {ms : List (String × Value)}

/-- Values under different keys go to different parts of the draft. -/
def Independent (put : String → σ → Value → Option σ) : Prop :=
  ∀ {k k' : String}, k ≠ k' → ∀ (draft : σ) (v v' : Value),
    ((put k draft v).bind fun draft => put k' draft v') =
      (put k' draft v').bind fun draft => put k draft v

/-- The values put into the draft one after the other. -/
def fill? (put : String → σ → Value → Option σ) (draft : Option σ) (ms : List (String × Value)) :
    Option σ :=
  ms.foldl (fun draft m => draft.bind fun draft => put m.1 draft m.2) draft

/-- **What the known keys leave in the draft**, looked up in the order of the shape. -/
def found? (put : String → σ → Value → Option σ) (draft : Option σ) (ms : List (String × Value))
    (members : List (Member σ)) : Option σ :=
  members.foldl (fun draft m => draft.bind fun draft =>
    match ms.lookup m.key with
    | some v => put m.key draft v
    | none => if m.absence == .refused then none else some draft) draft

@[simp] theorem fill?_none (ms : List (String × Value)) : fill? put none ms = none := by
  induction ms with
  | nil => rfl
  | cons m ms ih => exact ih

@[simp] theorem found?_none (members : List (Member σ)) : found? put none ms members = none := by
  induction members with
  | nil => rfl
  | cons m members ih => exact ih

/-- Keys that may follow those seen: none comes twice, and none that must come is left out. -/
structure Accepts (shape : Shape σ) (seen keys : List String) : Prop where
  nodup : keys.Nodup
  fresh : ∀ k ∈ keys, k ∉ seen
  complete : ∀ m ∈ shape.members, m.absence = .refused → m.key ∈ keys ∨ m.key ∈ seen

theorem accepts_nil {seen : List String} :
    shape.Accepts seen [] ↔ shape.isComplete seen = true := by
  have hcomplete : shape.isComplete seen = true ↔
      ∀ m ∈ shape.members, m.absence = .refused → m.key ∈ seen := by
    simp only [isComplete, List.all_eq_true, Bool.or_eq_true, bne_iff_ne, List.contains_eq_mem,
      decide_eq_true_eq, ← Decidable.imp_iff_not_or, ne_eq]
  rw [hcomplete]
  refine ⟨fun h m hm habsence => ?_, fun h => ⟨.nil, nofun, fun m hm habsence => ?_⟩⟩
  · exact (h.complete m hm habsence).resolve_left List.not_mem_nil
  · exact .inr (h m hm habsence)

theorem accepts_cons {seen keys : List String} {key : String} :
    shape.Accepts seen (key :: keys) ↔ key ∉ seen ∧ shape.Accepts (key :: seen) keys := by
  constructor
  · rintro ⟨hnodup, hfresh, hcomplete⟩
    obtain ⟨hkey, hkeys⟩ := List.nodup_cons.1 hnodup
    refine ⟨hfresh key (List.mem_cons_self ..), hkeys, fun k hk hseen => ?_,
      fun m hm habsence => ?_⟩
    · rcases List.mem_cons.1 hseen with rfl | hseen
      · exact hkey hk
      · exact hfresh k (List.mem_cons_of_mem _ hk) hseen
    · have := hcomplete m hm habsence
      simp only [List.mem_cons] at this ⊢
      tauto
  · rintro ⟨hkey, hnodup, hfresh, hcomplete⟩
    refine ⟨List.nodup_cons.2 ⟨fun hmem => ?_, hnodup⟩, fun k hk => ?_, fun m hm habsence => ?_⟩
    · exact hfresh key hmem (List.mem_cons_self ..)
    · rcases List.mem_cons.1 hk with rfl | hk
      · exact hkey
      · exact fun hseen => hfresh k hk (List.mem_cons_of_mem _ hseen)
    · have := hcomplete m hm habsence
      simp only [List.mem_cons] at this ⊢
      tauto

theorem isSome_find? {key : String} :
    (shape.find? key).isSome = true ↔ key ∈ shape.members.map (·.key) := by
  simp [find?]

/-- An object whose keys are all known. -/
theorem object?_eq_some_iff (hknown : ∀ m ∈ ms, (shape.find? m.1).isSome = true)
    (seen : List String) (draft result : σ) : shape.object? put seen draft ms = some result ↔
      shape.Accepts seen (ms.map (·.1)) ∧ fill? put (some draft) ms = some result := by
  induction ms generalizing seen draft with
  | nil =>
    rw [object?, List.map_nil, accepts_nil]
    simp [fill?]
  | cons m ms ih =>
    obtain ⟨key, v⟩ := m
    have hfill : fill? put (some draft) ((key, v) :: ms) = fill? put (put key draft v) ms := rfl
    rw [List.forall_mem_cons] at hknown
    rw [object?, if_pos hknown.1, hfill, List.map_cons, accepts_cons]
    by_cases hseen : key ∈ seen
    · simp [hseen]
    · rw [if_neg (by simpa using hseen)]
      cases put key draft v with
      | none => simp
      | some draft' => simp [ih hknown.2, hseen]

/-- A closed shape refuses an object with an unknown key. -/
theorem object?_eq_none (hclosed : shape.closed = true)
    (hunknown : ∃ m ∈ ms, shape.find? m.1 = none) (seen : List String) (draft : σ) :
    shape.object? put seen draft ms = none := by
  induction ms generalizing seen draft with
  | nil => simp at hunknown
  | cons m ms ih =>
    obtain ⟨key, v⟩ := m
    rw [List.exists_mem_cons_iff] at hunknown
    rw [object?]
    by_cases hkey : (shape.find? key).isSome = true
    · have hms := hunknown.resolve_left (by simpa [Option.isSome_iff_ne_none] using hkey)
      simp [hkey, ih hms]
    · simp [hkey, hclosed]

/-- A key that comes once is found with its value. -/
theorem lookup_eq_some_iff_mem (hnodup : (ms.map (·.1)).Nodup) {key : String} {v : Value} :
    ms.lookup key = some v ↔ (key, v) ∈ ms := by
  have hmem {v : Value} (h : ms.lookup key = some v) : (key, v) ∈ ms := by
    obtain ⟨front, back, rfl, -⟩ := List.lookup_eq_some_iff.1 h
    simp
  refine ⟨hmem, fun h => ?_⟩
  obtain ⟨v', hv'⟩ := Option.isSome_iff_exists.1
    (List.lookup_isSome_iff.2 ⟨(key, v), h, beq_self_eq_true key⟩)
  have hsame := List.inj_on_of_nodup_map hnodup (hmem hv') h rfl
  rw [hv', (Prod.mk.inj hsame).2]

/-- Members with different keys may be put into the draft in any order. -/
theorem fill?_perm (hput : Independent put) {ms' : List (String × Value)} (h : ms.Perm ms')
    (hnodup : (ms.map (·.1)).Nodup) (draft : Option σ) :
    fill? put draft ms = fill? put draft ms' := by
  refine h.foldl_eq' (fun m hm m' hm' draft => ?_) draft
  cases draft with
  | none => rfl
  | some draft =>
    by_cases hkey : m.1 = m'.1
    · rw [List.inj_on_of_nodup_map hnodup hm hm' hkey]
    · exact hput hkey draft m.2 m'.2

/-- If a member that must be there is missing, nothing is found. -/
theorem found?_eq_none {members : List (Member σ)} {m : Member σ} (hm : m ∈ members)
    (hrefused : m.absence = .refused) (hmissing : ms.lookup m.key = none) (draft : Option σ) :
    found? put draft ms members = none := by
  obtain ⟨before, after, rfl⟩ := List.append_of_mem hm
  have hnone : found? put (found? put draft ms before) ms (m :: after) = none := by
    rw [found?, List.foldl_cons]
    generalize found? put draft ms before = reached
    rw [hmissing, hrefused]
    cases reached <;> exact found?_none after
  rwa [found?, List.foldl_append]

/-- The members of an object in the order of the shape. -/
theorem perm_lookup (hnodup : (ms.map (·.1)).Nodup) {keys : List String} (hkeys : keys.Nodup)
    (hknown : ∀ m ∈ ms, m.1 ∈ keys) :
    ms.Perm (keys.filterMap fun key => (ms.lookup key).map (key, ·)) := by
  have hsorted : (keys.filterMap fun key => (ms.lookup key).map (key, ·)).Nodup := by
    refine hkeys.filterMap fun key key' m hm hm' => ?_
    obtain ⟨v, -, rfl⟩ := Option.mem_map.1 hm
    obtain ⟨v', -, h⟩ := Option.mem_map.1 hm'
    exact (Prod.mk.inj h).1.symm
  refine (List.perm_ext_iff_of_nodup hnodup.of_map hsorted).2 fun m => ?_
  simp only [List.mem_filterMap, Option.map_eq_some_iff, lookup_eq_some_iff_mem hnodup]
  constructor
  · exact fun hm => ⟨m.1, hknown m hm, m.2, hm, rfl⟩
  · rintro ⟨key, -, v, hm, rfl⟩
    exact hm

/-- **An object of known keys, each at most once**, leaves what is found under the keys. -/
theorem object?_eq_found? (hput : Independent put) (hkeys : (shape.members.map (·.key)).Nodup)
    (hnodup : (ms.map (·.1)).Nodup) (hknown : ∀ m ∈ ms, m.1 ∈ shape.members.map (·.key))
    (draft : σ) : shape.object? put [] draft ms = found? put (some draft) ms shape.members := by
  have hiff (result : σ) : shape.object? put [] draft ms = some result ↔
      shape.Accepts [] (ms.map (·.1)) ∧ fill? put (some draft) ms = some result :=
    object?_eq_some_iff (fun m hm => isSome_find?.2 (hknown m hm)) [] draft result
  by_cases hcomplete : ∀ m ∈ shape.members, m.absence = .refused → m.key ∈ ms.map (·.1)
  · have haccepts : shape.Accepts [] (ms.map (·.1)) :=
      ⟨hnodup, fun _ _ => List.not_mem_nil, fun m hm habsence => .inl (hcomplete m hm habsence)⟩
    have hfill : shape.object? put [] draft ms = fill? put (some draft) ms :=
      Option.ext fun result => (hiff result).trans (and_iff_right haccepts)
    rw [hfill, fill?_perm hput (perm_lookup hnodup hkeys hknown) hnodup, fill?, found?,
      List.foldl_filterMap, List.foldl_map]
    refine List.foldl_ext _ _ _ fun reached m hm => ?_
    cases hlookup : ms.lookup m.key with
    | some v => rfl
    | none =>
      have hnot : m.key ∉ ms.map (·.1) := by
        intro hmem
        obtain ⟨m', hm', hkey⟩ := List.mem_map.1 hmem
        exact absurd (List.lookup_eq_none_iff.1 hlookup m' hm') (by simp [hkey])
      have hallowed : m.absence ≠ .refused := fun habsence => hnot (hcomplete m hm habsence)
      cases reached <;> simp [hallowed]
  · push Not at hcomplete
    obtain ⟨m, hm, hrefused, hmissing⟩ := hcomplete
    have hlookup : ms.lookup m.key = none := by
      refine List.lookup_eq_none_iff.2 fun m' hm' => ?_
      simpa using fun hkey => hmissing (List.mem_map.2 ⟨m', hm', hkey.symm⟩)
    rw [found?_eq_none hm hrefused hlookup]
    refine Option.eq_none_iff_forall_ne_some.2 fun result hresult => hmissing ?_
    exact (((hiff result).1 hresult).1.complete m hm hrefused).resolve_right List.not_mem_nil

/-- **An object of a closed shape**: known keys only, each at most once. -/
theorem object?_of_closed (hput : Independent put) (hkeys : (shape.members.map (·.key)).Nodup)
    (hclosed : shape.closed = true) (ms : List (String × Value)) (draft : σ) :
    shape.object? put [] draft ms =
      if (ms.map (·.1)).Nodup ∧ ∀ m ∈ ms, m.1 ∈ shape.members.map (·.key) then
        found? put (some draft) ms shape.members
      else none := by
  by_cases hknown : ∀ m ∈ ms, m.1 ∈ shape.members.map (·.key)
  · by_cases hnodup : (ms.map (·.1)).Nodup
    · rw [if_pos ⟨hnodup, hknown⟩, object?_eq_found? hput hkeys hnodup hknown]
    · rw [if_neg fun h => hnodup h.1]
      refine Option.eq_none_iff_forall_ne_some.2 fun result hresult => hnodup ?_
      exact ((object?_eq_some_iff (fun m hm => isSome_find?.2 (hknown m hm)) ..).1 hresult).1.nodup
  · rw [if_neg fun h => hknown h.2]
    push Not at hknown
    obtain ⟨m, hm, hunknown⟩ := hknown
    refine object?_eq_none hclosed ⟨m, hm, ?_⟩ [] draft
    simpa using mt isSome_find?.1 hunknown

end Order

end Shape

end Tomasulo.Json
