import Mathlib.Tactic.IntervalCases
import Tomasulo.Proofs.Json.Grammar

/-!
# Proofs/Json/Written — a value is spelled as it is written

Whatever is written between the tokens, as long as it is blank, `Value.chars` spells the tokens of
the value (`Value.spelled_text`).  So what is said of texts that spell a value holds of the texts
this project writes, in either style.
-/

namespace Tomasulo.Json

/-! ## Numbers -/

/-- Only the digits of zero begin with a zero. -/
theorem toDigits_of_head?_eq {n : Nat} (h : (Nat.toDigits 10 n).head? = some '0') :
    Nat.toDigits 10 n = ['0'] := by
  induction n using Nat.strongRecOn with
  | ind n ih =>
    by_cases hn : n < 10
    · rw [Nat.toDigits_of_lt_base hn] at h ⊢
      rw [Option.some.inj h]
    · rw [Nat.toDigits_of_base_le (by decide) (Nat.le_of_not_lt hn),
        List.head?_append, Option.or_of_isSome (by simp [Nat.toDigits_ne_nil])] at h
      have hfront := ih (n / 10) (by omega) h
      have hzero : n / 10 = 0 := by
        rw [← Nat.ofDigitChars_ten_toDigits (n := n / 10), hfront]
        decide
      omega

theorem isDigits_toDigits (n : Nat) : Numeral.IsDigits (Nat.toDigits 10 n) :=
  ⟨Nat.toDigits_ne_nil, fun _ hd => Nat.isDigit_of_mem_toDigits (by decide) (by decide) hd⟩

/-- A natural number can be written. -/
theorem Numeral.proper_ofNat (n : Nat) : (Numeral.ofNat n).Proper where
  whole := isDigits_toDigits n
  zero := toDigits_of_head?_eq
  fraction := nofun

/-- An exponent is spelled by its sign and digits. -/
theorem Numeral.spellsExponent_toString (e : Int) :
    SpellsExponent (some e) ('e' :: (toString e).toList) := by
  have hvalue (k : Nat) : Nat.ofDigitChars 10 (Nat.toDigits 10 k) 0 = k :=
    Nat.ofDigitChars_ten_toDigits
  rw [Int.toString_eq_repr, Int.repr_eq_if]
  by_cases he : 0 ≤ e
  · have hplain := SpellsExponent.plain (.inl rfl) (isDigits_toDigits e.toNat)
    rw [hvalue, Int.toNat_of_nonneg he] at hplain
    rw [if_pos he, Nat.toList_repr]
    exact hplain
  · have hminus := SpellsExponent.minus (.inl rfl) (isDigits_toDigits (-e).toNat)
    rw [hvalue, Int.toNat_of_nonneg (by omega), Int.neg_neg] at hminus
    rw [if_neg he, String.toList_append, Nat.toList_repr]
    exact hminus

/-- **A number is spelled as it is written.** -/
theorem Numeral.Proper.spells {n : Numeral} (h : n.Proper) : n.Spells n.chars := by
  cases he : n.exponent with
  | none => exact ⟨h, [], he ▸ .none, by simp [chars, front, he]⟩
  | some e => exact ⟨h, _, he ▸ spellsExponent_toString e, by simp [chars, front, he]⟩

/-! ## Strings -/

namespace Text

/-- Controls are escaped by their numbers. -/
theorem spellsUnit_of_lt {n : Nat} (h : n < 0x20) :
    SpellsUnit n ((Nat.toDigits 16 n).leftpad 4 '0') := by
  have hall : ∀ n < 0x20, ((Nat.toDigits 16 n).leftpad 4 '0').length = 4 ∧
      ∃ ds, ((Nat.toDigits 16 n).leftpad 4 '0').mapM hexValue? = some ds ∧
        ds.foldl (fun n d => n * 16 + d) 0 = n := by
    intro n hn
    interval_cases n <;> exact ⟨rfl, _, rfl, rfl⟩
  exact ⟨(hall n h).1, (hall n h).2⟩

theorem spellsChar_quoteChar (c : Char) : SpellsChar c (quoteChar c) := by
  rw [quoteChar]
  split
  · next hescaped =>
    cases hfind : letters.find? (·.1 == c) with
    | some found =>
      obtain ⟨meant, letter⟩ := found
      have hmeant : meant = c := by simpa using List.find?_some hfind
      subst hmeant
      exact .letter (List.mem_of_find?_eq_some hfind)
    | none =>
      refine .unit (spellsUnit_of_lt ?_)
      rcases hescaped with rfl | rfl | hcontrol
      · cases hfind
      · cases hfind
      · exact hcontrol
  · next hplain =>
    simp only [not_or, Nat.not_lt] at hplain
    exact .plain hplain.1 hplain.2.1 hplain.2.2

/-- **A string is spelled as it is written.** -/
theorem spellsChars_quoteChar (s : List Char) : SpellsChars s (s.flatMap quoteChar) := by
  induction s with
  | nil => exact .nil
  | cons c s ih => exact .cons (spellsChar_quoteChar c) ih

end Text

/-! ## Values -/

/-- The numbers of a value can be written. -/
def Value.Proper (v : Value) : Prop :=
  ∀ n, Token.number n ∈ v.tokens → n.Proper

namespace Value

/-- The numbers of items are those of their values. -/
theorem number_mem_itemTokens {n : Numeral} {first : Bool} {vs : List Value} :
    Token.number n ∈ itemTokens first vs ↔ ∃ v ∈ vs, Token.number n ∈ v.tokens := by
  induction vs generalizing first with
  | nil => simp [itemTokens]
  | cons v vs ih => cases first <;> simp [itemTokens, separator, ih]

/-- The numbers of members are those of their values. -/
theorem number_mem_memberTokens {n : Numeral} {first : Bool} {ms : List (String × Value)} :
    Token.number n ∈ memberTokens first ms ↔ ∃ m ∈ ms, Token.number n ∈ m.2.tokens := by
  induction ms generalizing first with
  | nil => simp [memberTokens]
  | cons m ms ih => cases first <;> simp [memberTokens, separator, ih]

@[simp] theorem proper_null : Value.null.Proper := by simp [Proper, tokens]

@[simp] theorem proper_string (s : String) : (Value.string s).Proper := by simp [Proper, tokens]

@[simp] theorem proper_number {n : Numeral} : (Value.number n).Proper ↔ n.Proper := by
  simp [Proper, tokens]

@[simp] theorem proper_nat (n : Nat) : (Value.nat n).Proper :=
  proper_number.2 (Numeral.proper_ofNat n)

@[simp] theorem proper_nat? (n : Option Nat) : (Value.nat? n).Proper := by
  cases n with
  | none => exact proper_null
  | some k => exact proper_nat k

@[simp] theorem proper_array {vs : List Value} : (Value.array vs).Proper ↔ ∀ v ∈ vs, v.Proper := by
  simp only [Proper, tokens, List.mem_cons, List.mem_append, number_mem_itemTokens]
  grind

@[simp] theorem proper_object {ms : List (String × Value)} :
    (Value.object ms).Proper ↔ ∀ m ∈ ms, m.2.Proper := by
  simp only [Proper, tokens, List.mem_cons, List.mem_append, number_mem_memberTokens]
  grind

@[simp] theorem proper_nats? (slots : List (Option Nat)) : (Value.nats? slots).Proper := by
  rw [nats?, proper_array]
  intro v hv
  obtain ⟨slot, -, rfl⟩ := List.mem_map.1 hv
  exact proper_nat? slot

end Value

/-- What stands between the tokens is blank. -/
structure Style.IsBlank (style : Style) : Prop where
  lead : ∀ depth, ∀ c ∈ style.lead depth, isBlank c = true
  gap : ∀ c ∈ style.gap, isBlank c = true

theorem Style.isBlank_compact : compact.IsBlank :=
  ⟨nofun, nofun⟩

theorem Style.isBlank_indented : indented.IsBlank where
  lead depth := by
    simp only [indented, List.mem_cons, List.mem_replicate]
    rintro c (rfl | ⟨-, rfl⟩) <;> rfl
  gap := by
    simp only [indented, List.mem_singleton]
    rintro c rfl
    rfl

section Values

variable {rest : List Token} {cs : List Char}

/-- A mark is spelled by its character. -/
theorem Spelled.mark (m : Mark) (h : Spelled rest cs) : Spelled (.mark m :: rest) (m.char :: cs) :=
  .token (.mark m) h

/-- A string is spelled as it is quoted. -/
theorem Spelled.string (s : String) (h : Spelled rest cs) :
    Spelled (.string s :: rest) (Text.quote s ++ cs) :=
  .token (.string (Text.spellsChars_quoteChar s.toList)) h

mutual

/-- A value, whatever comes after it. -/
theorem Spelled.value {style : Style} (hstyle : style.IsBlank) (depth : Nat) :
    (v : Value) → v.Proper → ∀ {rest : List Token} {cs : List Char}, Spelled rest cs →
      Spelled (v.tokens ++ rest) (v.chars style depth ++ cs)
  | .null, _, _, _, h => .token .null h
  | .bool true, _, _, _, h => .token .yes h
  | .bool false, _, _, _, h => .token .no h
  | .number n, hv, _, _, h => .token (.number (Value.proper_number.1 hv).spells) h
  | .string s, _, _, _, h => .string s h
  | .array [], _, _, _, h => .mark .openArray (.mark .closeArray h)
  | .array (v :: vs), hv, _, _, h => by
    rw [Value.proper_array, List.forall_mem_cons] at hv
    have hclose := (h.mark .closeArray).blanks_append (hstyle.lead depth)
    have hitems := Spelled.items hstyle (depth + 1) vs hv.2 hclose
    have hvalue := Spelled.value hstyle (depth + 1) v hv.1 hitems
    have hopen := (hvalue.blanks_append (hstyle.lead (depth + 1))).mark .openArray
    simpa [Value.tokens, itemTokens, separator, Value.chars, Mark.char] using hopen
  | .object [], _, _, _, h => .mark .openObject (.mark .closeObject h)
  | .object ((key, v) :: ms), hv, _, _, h => by
    rw [Value.proper_object, List.forall_mem_cons] at hv
    have hclose := (h.mark .closeObject).blanks_append (hstyle.lead depth)
    have hmembers := Spelled.members hstyle (depth + 1) ms hv.2 hclose
    have hvalue := Spelled.value hstyle (depth + 1) v hv.1 hmembers
    have hkey := ((hvalue.blanks_append hstyle.gap).mark .colon).string key
    have hopen := (hkey.blanks_append (hstyle.lead (depth + 1))).mark .openObject
    simpa [Value.tokens, memberTokens, separator, Value.chars, Mark.char] using hopen

/-- The items after the first. -/
theorem Spelled.items {style : Style} (hstyle : style.IsBlank) (depth : Nat) :
    (vs : List Value) → (∀ v ∈ vs, v.Proper) →
      ∀ {rest : List Token} {cs : List Char}, Spelled rest cs →
        Spelled (itemTokens false vs ++ rest) (moreItems style depth vs ++ cs)
  | [], _, _, _, h => h
  | v :: vs, hvs, _, _, h => by
    rw [List.forall_mem_cons] at hvs
    have hitems := Spelled.items hstyle depth vs hvs.2 h
    have hvalue := Spelled.value hstyle depth v hvs.1 hitems
    have hcomma := (hvalue.blanks_append (hstyle.lead depth)).mark .comma
    simpa [itemTokens, separator, moreItems, Mark.char] using hcomma

/-- The members after the first. -/
theorem Spelled.members {style : Style} (hstyle : style.IsBlank) (depth : Nat) :
    (ms : List (String × Value)) → (∀ m ∈ ms, m.2.Proper) →
      ∀ {rest : List Token} {cs : List Char}, Spelled rest cs →
        Spelled (memberTokens false ms ++ rest) (moreMembers style depth ms ++ cs)
  | [], _, _, _, h => h
  | (key, v) :: ms, hms, _, _, h => by
    rw [List.forall_mem_cons] at hms
    have hmembers := Spelled.members hstyle depth ms hms.2 h
    have hvalue := Spelled.value hstyle depth v hms.1 hmembers
    have hkey := ((hvalue.blanks_append hstyle.gap).mark .colon).string key
    have hcomma := (hkey.blanks_append (hstyle.lead depth)).mark .comma
    simpa [memberTokens, separator, moreMembers, Mark.char] using hcomma

end

/-- **A value is spelled as it is written**, at any depth. -/
theorem Value.spelled_chars {style : Style} (hstyle : style.IsBlank) (depth : Nat) {v : Value}
    (hv : v.Proper) : Spelled v.tokens (v.chars style depth) := by
  have hend : Spelled [] [] := .nil nofun
  have h := Spelled.value hstyle depth v hv hend
  rwa [List.append_nil, List.append_nil] at h

/-- The text of a value spells it. -/
theorem Value.spelled_text {style : Style} (hstyle : style.IsBlank) {v : Value} (hv : v.Proper) :
    Spelled v.tokens (v.text style).toList := by
  rw [text, String.toList_ofList]
  exact spelled_chars hstyle 0 hv

end Values

/-! ## Parts of a written value -/

section Parts

variable {style : Style} {depth : Nat} {v : Value}

theorem chars_infix_moreItems : {vs : List Value} → v ∈ vs →
    v.chars style depth <:+: moreItems style depth vs
  | w :: vs, h => by
    rw [moreItems]
    rcases List.mem_cons.1 h with rfl | h
    · exact List.infix_append _ _ _
    · exact (chars_infix_moreItems h).trans (List.suffix_append _ _).isInfix

theorem chars_infix_moreMembers {key : String} : {ms : List (String × Value)} → (key, v) ∈ ms →
    v.chars style depth <:+: moreMembers style depth ms
  | m :: ms, h => by
    rw [moreMembers]
    rcases List.mem_cons.1 h with rfl | h
    · exact List.infix_append _ _ _
    · exact (chars_infix_moreMembers h).trans (List.suffix_append _ _).isInfix

/-- An item is written inside its array. -/
theorem Value.chars_infix_array {vs : List Value} (h : v ∈ vs) :
    v.chars style (depth + 1) <:+: (Value.array vs).chars style depth := by
  obtain ⟨w, ws, rfl⟩ := List.exists_cons_of_ne_nil (List.ne_nil_of_mem h)
  rw [chars, List.append_assoc]
  rcases List.mem_cons.1 h with rfl | h
  · rw [List.append_assoc]
    exact List.infix_append _ _ _
  · exact (chars_infix_moreItems h).trans (List.infix_append _ _ _)

/-- The value of a member is written inside its object. -/
theorem Value.chars_infix_object {key : String} {ms : List (String × Value)} (h : (key, v) ∈ ms) :
    v.chars style (depth + 1) <:+: (Value.object ms).chars style depth := by
  obtain ⟨m, ms, rfl⟩ := List.exists_cons_of_ne_nil (List.ne_nil_of_mem h)
  rw [chars, List.append_assoc]
  rcases List.mem_cons.1 h with rfl | h
  · rw [List.append_assoc]
    exact List.infix_append _ _ _
  · exact (chars_infix_moreMembers h).trans (List.infix_append _ _ _)

end Parts

end Tomasulo.Json
