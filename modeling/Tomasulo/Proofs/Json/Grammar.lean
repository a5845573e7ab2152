import Tomasulo.Json.Value

/-!
# Proofs/Json/Grammar — which texts spell a value

A value is a list of tokens (`Value.tokens`) and every token has its spellings (`Token.Spells`): a
character of a string may stand for itself or be escaped, the power of ten of a number may be
written with either letter.  A text spells tokens when it is their spellings one after the other,
with blanks anywhere between them (`Spelled`).  Readers are specified on such texts, so nothing
depends on who has written a text and how.
-/

namespace Tomasulo.Json

/-! ## Numbers -/

namespace Numeral

/-- Digits, at least one of them. -/
structure IsDigits (ds : List Char) : Prop where
  ne_nil : ds ≠ []
  all : ∀ d ∈ ds, d.isDigit = true

/-- **A numeral that can be written**: a zero before the point stands alone. -/
structure Proper (n : Numeral) : Prop where
  whole : IsDigits n.whole
  zero : n.whole.head? = some '0' → n.whole = ['0']
  fraction : ∀ d ∈ n.fraction, d.isDigit = true

/-- What is written of a number before its power of ten. -/
def front (n : Numeral) : List Char :=
  (if n.negative then ['-'] else []) ++
    (n.whole ++ if n.fraction.isEmpty then [] else '.' :: n.fraction)

/-- A power of ten as it is written after a number. -/
inductive SpellsExponent : Option Int → List Char → Prop where
  | none : SpellsExponent none []
  | plain {e : Char} {ds : List Char} (he : e = 'e' ∨ e = 'E') (hds : IsDigits ds) :
    SpellsExponent (some (Nat.ofDigitChars 10 ds 0)) (e :: ds)
  | plus {e : Char} {ds : List Char} (he : e = 'e' ∨ e = 'E') (hds : IsDigits ds) :
    SpellsExponent (some (Nat.ofDigitChars 10 ds 0)) (e :: '+' :: ds)
  | minus {e : Char} {ds : List Char} (he : e = 'e' ∨ e = 'E') (hds : IsDigits ds) :
    SpellsExponent (some (-(Nat.ofDigitChars 10 ds 0 : Int))) (e :: '-' :: ds)

/-- The spellings of a number. -/
structure Spells (n : Numeral) (word : List Char) : Prop where
  proper : n.Proper
  parts : ∃ power, SpellsExponent n.exponent power ∧ word = n.front ++ power

end Numeral

/-! ## Strings -/

namespace Text

/-- Four hexadecimal digits and their value. -/
structure SpellsUnit (unit : Nat) (word : List Char) : Prop where
  length : word.length = 4
  digits : ∃ ds, word.mapM hexValue? = some ds ∧ ds.foldl (fun n d => n * 16 + d) 0 = unit

/-- **The spellings of a character inside a string**: itself, a letter after a backslash, its
number, or its number as a pair of surrogates. -/
inductive SpellsChar : Char → List Char → Prop where
  | plain {c : Char} (hquote : c ≠ '"') (hslash : c ≠ '\\') (hcontrol : 0x20 ≤ c.toNat) :
    SpellsChar c [c]
  | letter {c l : Char} (h : (c, l) ∈ letters) : SpellsChar c ['\\', l]
  | unit {c : Char} {word : List Char} (h : SpellsUnit c.toNat word) :
    SpellsChar c ('\\' :: 'u' :: word)
  | pair {c : Char} {first second : Nat} {v w : List Char} (hv : SpellsUnit first v)
    (hw : SpellsUnit second w) (hfirst : isLeading first = true)
    (hsecond : isTrailing second = true)
    (hc : c.toNat = 0x10000 + (first - 0xD800) * 0x400 + (second - 0xDC00)) :
    SpellsChar c ('\\' :: 'u' :: (v ++ '\\' :: 'u' :: w))

/-- The spellings of characters one after the other. -/
inductive SpellsChars : List Char → List Char → Prop where
  | nil : SpellsChars [] []
  | cons {c : Char} {s v w : List Char} (hc : SpellsChar c v) (hs : SpellsChars s w) :
    SpellsChars (c :: s) (v ++ w)

end Text

/-! ## Tokens -/

/-- Characters that are tokens by themselves. -/
inductive Mark where
  | openArray
  | closeArray
  | openObject
  | closeObject
  | comma
  | colon
deriving DecidableEq, Repr

/-- The character of a mark. -/
def Mark.char : Mark → Char
  | .openArray => '['
  | .closeArray => ']'
  | .openObject => '\x7b'
  | .closeObject => '\x7d'
  | .comma => ','
  | .colon => ':'

/-- What a text consists of, blanks apart. -/
inductive Token where
  | mark (m : Mark)
  | null
  | bool (b : Bool)
  | number (n : Numeral)
  | string (s : String)

namespace Token

/-- The spellings of a token. -/
inductive Spells : Token → List Char → Prop where
  | mark (m : Mark) : Spells (.mark m) [m.char]
  | null : Spells .null ['n', 'u', 'l', 'l']
  | yes : Spells (.bool true) ['t', 'r', 'u', 'e']
  | no : Spells (.bool false) ['f', 'a', 'l', 's', 'e']
  | number {n : Numeral} {word : List Char} (h : n.Spells word) : Spells (.number n) word
  | string {s : String} {word : List Char} (h : Text.SpellsChars s.toList word) :
    Spells (.string s) ('"' :: (word ++ ['"']))

/-- What a value may begin with. -/
def opens : Token → Bool
  | .mark .openArray | .mark .openObject => true
  | .mark _ => false
  | _ => true

end Token

/-- What stands before an item: a comma, unless it is the first. -/
def separator (first : Bool) : List Token :=
  if first then [] else [.mark .comma]

mutual

/-- **The tokens of a value.** -/
def Value.tokens : Value → List Token
  | .null => [.null]
  | .bool b => [.bool b]
  | .number n => [.number n]
  | .string s => [.string s]
  | .array vs => .mark .openArray :: (itemTokens true vs ++ [.mark .closeArray])
  | .object ms => .mark .openObject :: (memberTokens true ms ++ [.mark .closeObject])

/-- The tokens of items, with a comma before each but the first. -/
def itemTokens (first : Bool) : List Value → List Token
  | [] => []
  | v :: vs => separator first ++ (v.tokens ++ itemTokens false vs)

/-- The tokens of members, with a comma before each but the first. -/
def memberTokens (first : Bool) : List (String × Value) → List Token
  | [] => []
  | (key, v) :: ms =>
    separator first ++ .string key :: .mark .colon :: (v.tokens ++ memberTokens false ms)

end

/-! ## Texts -/

/-- **A text that spells tokens**: their spellings in order, with any blanks before each and at the
end. -/
inductive Spelled : List Token → List Char → Prop where
  | nil {blanks : List Char} (hblanks : ∀ b ∈ blanks, isBlank b = true) : Spelled [] blanks
  | cons {t : Token} {ts : List Token} {blanks word rest : List Char}
    (hblanks : ∀ b ∈ blanks, isBlank b = true) (hword : t.Spells word) (hrest : Spelled ts rest) :
    Spelled (t :: ts) (blanks ++ (word ++ rest))

/-- Nothing or a mark comes next, so a number that stands before it has ended. -/
def Ends (ts : List Token) : Prop :=
  ∀ t ∈ ts.head?, ∃ m, t = .mark m

/-! ## First characters -/

theorem isBlank_eq_false_of_isDigit {c : Char} (h : c.isDigit = true) : isBlank c = false := by
  rw [Bool.eq_false_iff]
  intro hblank
  simp only [isBlank, Bool.or_eq_true, beq_iff_eq] at hblank
  rcases hblank with ((rfl | rfl) | rfl) | rfl <;> cases h

@[simp] theorem Mark.isBlank_char (m : Mark) : isBlank m.char = false := by
  cases m <;> rfl

@[simp] theorem Mark.isDigit_char (m : Mark) : m.char.isDigit = false := by
  cases m <;> rfl

theorem Mark.char_inj {m m' : Mark} (h : m.char = m'.char) : m = m' := by
  cases m <;> cases m' <;> first | rfl | cases h

/-- A number begins with a minus or a digit. -/
theorem Numeral.Spells.head {n : Numeral} {word : List Char} (h : n.Spells word) :
    ∃ c rest, word = c :: rest ∧ (c = '-' ∨ c.isDigit = true) := by
  obtain ⟨hproper, power, -, rfl⟩ := h
  obtain ⟨d, ds, hwhole⟩ := List.exists_cons_of_ne_nil hproper.whole.ne_nil
  rw [front, hwhole]
  by_cases hneg : n.negative = true
  · exact ⟨'-', _, by rw [if_pos hneg]; rfl, .inl rfl⟩
  · refine ⟨d, _, by rw [if_neg hneg]; rfl, .inr (hproper.whole.all d ?_)⟩
    rw [hwhole]
    exact List.mem_cons_self ..

namespace Token

/-- **No token begins with a blank.** -/
theorem Spells.head {t : Token} {word : List Char} (h : t.Spells word) :
    ∃ c rest, word = c :: rest ∧ isBlank c = false := by
  cases h with
  | mark m => exact ⟨_, _, rfl, m.isBlank_char⟩
  | number h =>
    obtain ⟨c, rest, rfl, hc⟩ := h.head
    refine ⟨c, rest, rfl, ?_⟩
    rcases hc with rfl | hc
    · rfl
    · exact isBlank_eq_false_of_isDigit hc
  | _ => exact ⟨_, _, rfl, rfl⟩

/-- What begins with the character of a mark is that mark. -/
theorem Spells.eq_mark {t : Token} {m : Mark} {word : List Char} (h : t.Spells (m.char :: word)) :
    t = .mark m := by
  generalize hw : m.char :: word = w at h
  cases h with
  | mark m' => rw [Mark.char_inj (List.cons.inj hw).1]
  | number h =>
    obtain ⟨c, rest, rfl, hc⟩ := h.head
    obtain ⟨rfl, -⟩ := List.cons.inj hw
    rcases hc with hc | hc
    · cases m <;> cases hc
    · rw [m.isDigit_char] at hc
      cases hc
  | _ => cases m <;> cases hw

/-- What can begin a value does not begin with a mark that cannot. -/
theorem Spells.ne_char {t : Token} {c : Char} {word : List Char} (h : t.Spells (c :: word))
    (ht : t.opens = true) {m : Mark} (hm : (Token.mark m).opens = false) : c ≠ m.char := by
  rintro rfl
  rw [h.eq_mark, hm] at ht
  cases ht

/-- What begins like null is null. -/
theorem Spells.eq_null {t : Token} {word : List Char} (h : t.Spells ('n' :: word)) : t = .null := by
  generalize hw : 'n' :: word = w at h
  cases h with
  | mark m => cases m <;> cases hw
  | null => rfl
  | number h =>
    obtain ⟨c, rest, rfl, hc⟩ := h.head
    obtain ⟨rfl, -⟩ := List.cons.inj hw
    rcases hc with hc | hc <;> cases hc
  | _ => cases hw

end Token

namespace Value

/-- The token that a value begins with. -/
def first : Value → Token
  | .null => .null
  | .bool b => .bool b
  | .number n => .number n
  | .string s => .string s
  | .array _ => .mark .openArray
  | .object _ => .mark .openObject

theorem exists_tokens (v : Value) : ∃ ts, v.tokens = v.first :: ts := by
  cases v <;> exact ⟨_, rfl⟩

theorem opens_first (v : Value) : v.first.opens = true := by
  cases v <;> rfl

end Value

/-! ## The front of a text -/

namespace Spelled

variable {t : Token} {ts : List Token} {cs : List Char}

/-- A token without blanks before it. -/
theorem token {word : List Char} (hword : t.Spells word) (h : Spelled ts cs) :
    Spelled (t :: ts) (word ++ cs) := by
  have hnone : ∀ b ∈ ([] : List Char), isBlank b = true := nofun
  exact .cons hnone hword h

/-- Every token takes a character. -/
theorem length_le (h : Spelled ts cs) : ts.length ≤ cs.length := by
  induction h with
  | nil => exact Nat.zero_le _
  | cons hblanks hword hrest ih =>
    obtain ⟨c, word, rfl, -⟩ := hword.head
    simp only [List.length_append, List.length_cons]
    omega

theorem length_le_left {rest : List Token} (h : Spelled (ts ++ rest) cs) :
    ts.length ≤ cs.length := by
  have := h.length_le
  rw [List.length_append] at this
  omega

/-- Blanks may stand before the first token. -/
theorem blanks_append {blanks : List Char} (hblanks : ∀ b ∈ blanks, isBlank b = true)
    (h : Spelled ts cs) : Spelled ts (blanks ++ cs) := by
  have hall {others : List Char} (hothers : ∀ b ∈ others, isBlank b = true) :
      ∀ b ∈ blanks ++ others, isBlank b = true := fun b hb =>
    (List.mem_append.1 hb).elim (hblanks b) (hothers b)
  cases h with
  | nil hend => exact .nil (hall hend)
  | cons hlead hword hrest =>
    rw [← List.append_assoc]
    exact .cons (hall hlead) hword hrest

/-- A token at the front, the blanks before it dropped. -/
theorem dropWhile_isBlank (h : Spelled (t :: ts) cs) : ∃ c word rest,
    cs.dropWhile isBlank = c :: (word ++ rest) ∧ t.Spells (c :: word) ∧ Spelled ts rest := by
  cases h with
  | cons hblanks hword hrest =>
    obtain ⟨c, word, rfl, hc⟩ := hword.head
    refine ⟨c, word, _, ?_, hword, hrest⟩
    rw [List.dropWhile_append_of_pos hblanks, List.cons_append, List.dropWhile_cons_of_neg]
    simp [hc]

/-- **Behind the end of a number** stands nothing that would belong to it. -/
theorem head_of_ends (h : Spelled ts cs) (hends : Ends ts) :
    ∀ c ∈ cs.head?, isBlank c = true ∨ ∃ m : Mark, c = m.char := by
  intro c hc
  cases h with
  | nil hblanks => exact .inl (hblanks c (List.mem_of_mem_head? hc))
  | @cons t ts blanks word rest hblanks hword hrest =>
    cases blanks with
    | cons b bs =>
      obtain rfl := Option.some.inj hc
      exact .inl (hblanks b (List.mem_cons_self ..))
    | nil =>
      obtain ⟨m, rfl⟩ := hends t rfl
      cases hword
      exact .inr ⟨m, (Option.some.inj hc).symm⟩

end Spelled

end Tomasulo.Json
