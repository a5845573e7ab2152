import Mathlib.Algebra.Order.BigOperators.Group.List
import Mathlib.Tactic.IntervalCases
import Tomasulo.Json.Read
import Tomasulo.Proofs.Json.Grammar

/-!
# Proofs/Json/Scan — numbers and strings are read as they are spelled

`Numeral.scan` gives back the number that is spelled at the front of a text and stops where it ends,
`Text.read` does so for the string after a quote, whichever escapes have been used.  Both leave the
rest of the text alone.
-/

namespace Tomasulo.Json

/-! ## Running a reader -/

namespace Reader

variable {α β : Type} {r : Reader α} {cs cs' : List Char} {a : α} {d : Defect}

theorem bind_ok (h : r cs = .ok (a, cs')) (f : α → Reader β) : (r >>= f) cs = f a cs' := by
  change (r cs >>= fun x => f x.1 x.2) = f a cs'
  rw [h]
  rfl

theorem bind_error (h : r cs = .error d) (f : α → Reader β) : (r >>= f) cs = .error d := by
  change (r cs >>= fun x => f x.1 x.2) = .error d
  rw [h]
  rfl

theorem peek_eq (cs : List Char) :
    peek cs = .ok ((cs.dropWhile isBlank).head?, cs.dropWhile isBlank) := rfl

theorem literal_append (word rest : List Char) : literal word (word ++ rest) = .ok ((), rest) := by
  induction word with
  | nil => rfl
  | cons c word ih =>
    have hnext : next (c :: (word ++ rest)) = .ok (c, word ++ rest) := rfl
    rw [List.cons_append, literal, bind_ok hnext, if_pos rfl, ih]

end Reader

/-! ## Numbers -/

/-- The characters that a number can begin with. -/
theorem mem_of_begins {c : Char} (h : c = '-' ∨ c.isDigit = true) :
    c ∈ ['-', '0', '1', '2', '3', '4', '5', '6', '7', '8', '9'] := by
  rcases h with rfl | h
  · decide
  · simp only [Char.isDigit, Bool.and_eq_true, decide_eq_true_eq, ge_iff_le] at h
    have hlow : 48 ≤ c.toNat := h.1
    have hhigh : c.toNat ≤ 57 := h.2
    rw [← Char.ofNat_toNat c]
    generalize c.toNat = n at hlow hhigh
    interval_cases n <;> decide

namespace Numeral

variable {n : Numeral} {ds word rest : List Char}

/-- Nothing that would belong to a number comes next. -/
def Stops (rest : List Char) : Prop :=
  ∀ c ∈ rest.head?, c.isDigit = false ∧ c ≠ '.' ∧ c ≠ 'e' ∧ c ≠ 'E'

theorem digits_append (hds : ∀ d ∈ ds, d.isDigit = true)
    (hrest : ∀ c ∈ rest.head?, c.isDigit = false) : digits (ds ++ rest) = .ok (ds, rest) := by
  have htake : rest.takeWhile Char.isDigit = [] ∧ rest.dropWhile Char.isDigit = rest := by
    cases rest with
    | nil => exact ⟨rfl, rfl⟩
    | cons c cs =>
      have hc : ¬ c.isDigit = true := by simp [hrest c rfl]
      exact ⟨List.takeWhile_cons_of_neg hc, List.dropWhile_cons_of_neg hc⟩
  rw [digits, List.takeWhile_append_of_pos hds, List.dropWhile_append_of_pos hds, htake.1, htake.2,
    List.append_nil]

theorem someDigits_append (hds : IsDigits ds) (hrest : ∀ c ∈ rest.head?, c.isDigit = false) :
    someDigits (ds ++ rest) = .ok (ds, rest) := by
  rw [someDigits, Reader.bind_ok (digits_append hds.all hrest)]
  cases ds with
  | nil => exact absurd rfl hds.ne_nil
  | cons d ds => rfl

theorem taking_cons {cs : List Char} {c : Char} (h : cs.contains c = true) (rest : List Char) :
    taking cs (c :: rest) = .ok (true, rest) := by
  have hget : (get : Reader (List Char)) (c :: rest) = .ok (c :: rest, c :: rest) := rfl
  rw [taking, Reader.bind_ok hget, List.head?_cons]
  simp only [h, if_true]
  rfl

theorem taking_of_not_contains {cs : List Char} (h : ∀ c ∈ rest.head?, cs.contains c = false) :
    taking cs rest = .ok (false, rest) := by
  have hget : (get : Reader (List Char)) rest = .ok (rest, rest) := rfl
  rw [taking, Reader.bind_ok hget]
  cases rest with
  | nil => rfl
  | cons c rest =>
    simp only [List.head?_cons, h c rfl]
    rfl

/-- A power of ten is read as it is written. -/
theorem exponentPart_append {exponent : Option Int} (h : SpellsExponent exponent word)
    (hrest : Stops rest) : exponentPart (word ++ rest) = .ok (exponent, rest) := by
  have hdigit (c : Char) (hc : c ∈ rest.head?) : c.isDigit = false := (hrest c hc).1
  have hmark {e : Char} (he : e = 'e' ∨ e = 'E') : ['e', 'E'].contains e = true := by
    rcases he with rfl | rfl <;> rfl
  have hsign {ds : List Char} (hds : IsDigits ds) {s : Char} (hs : s.isDigit = false) :
      ∀ c ∈ (ds ++ rest).head?, [s].contains c = false := by
    obtain ⟨d, ds, rfl⟩ := List.exists_cons_of_ne_nil hds.ne_nil
    rintro c ⟨⟩
    have hd := hds.all d (List.mem_cons_self ..)
    simp only [List.contains_eq_mem, List.mem_singleton, decide_eq_false_iff_not]
    rintro rfl
    rw [hs] at hd
    cases hd
  cases h with
  | none =>
    have hnot : ∀ c ∈ rest.head?, ['e', 'E'].contains c = false := fun c hc => by
      simp [(hrest c hc).2.2.1, (hrest c hc).2.2.2]
    rw [List.nil_append, exponentPart, Reader.bind_ok (taking_of_not_contains hnot)]
    rfl
  | plain he hds =>
    rw [List.cons_append, exponentPart, Reader.bind_ok (taking_cons (hmark he) _), if_pos rfl,
      Reader.bind_ok (taking_of_not_contains (hsign hds rfl)), if_neg Bool.false_ne_true,
      Reader.bind_ok (taking_of_not_contains (hsign hds rfl))]
    exact (Reader.bind_ok (someDigits_append hds hdigit) _).trans rfl
  | @plus e ds he hds =>
    have hminus : ∀ c ∈ ('+' :: (ds ++ rest)).head?, ['-'].contains c = false := by
      rintro c ⟨⟩
      rfl
    rw [List.cons_append, List.cons_append, exponentPart,
      Reader.bind_ok (taking_cons (hmark he) _), if_pos rfl,
      Reader.bind_ok (taking_of_not_contains hminus), if_neg Bool.false_ne_true,
      Reader.bind_ok (taking_cons rfl _)]
    exact (Reader.bind_ok (someDigits_append hds hdigit) _).trans rfl
  | minus he hds =>
    rw [List.cons_append, List.cons_append, exponentPart,
      Reader.bind_ok (taking_cons (hmark he) _), if_pos rfl, Reader.bind_ok (taking_cons rfl _),
      if_pos rfl]
    exact (Reader.bind_ok (someDigits_append hds hdigit) _).trans rfl

/-- Neither a power of ten nor what comes after a number begins with a digit or a point. -/
theorem SpellsExponent.head {exponent : Option Int} (h : SpellsExponent exponent word)
    (hrest : Stops rest) : ∀ c ∈ (word ++ rest).head?, c.isDigit = false ∧ c ≠ '.' := by
  have hmark {e : Char} (he : e = 'e' ∨ e = 'E') : e.isDigit = false ∧ e ≠ '.' := by
    rcases he with rfl | rfl <;> decide
  intro c hc
  cases h with
  | none => exact ⟨(hrest c hc).1, (hrest c hc).2.1⟩
  | plain he _ | plus he _ | minus he _ =>
    obtain rfl := Option.some.inj hc
    exact hmark he

theorem wholePart_append (h : n.Proper) (hrest : ∀ c ∈ rest.head?, c.isDigit = false) :
    wholePart (n.whole ++ rest) = .ok (n.whole, rest) := by
  rw [wholePart, Reader.bind_ok (someDigits_append h.whole hrest)]
  have hzero : (n.whole.head? = some '0' && 1 < n.whole.length) = false := by
    simp only [Bool.and_eq_false_iff, decide_eq_false_iff_not]
    by_cases hhead : n.whole.head? = some '0'
    · exact .inr (by simp [h.zero hhead])
    · exact .inl hhead
  simp only [hzero]
  rfl

theorem fractionPart_append (hfraction : ∀ d ∈ n.fraction, d.isDigit = true)
    (hrest : ∀ c ∈ rest.head?, c.isDigit = false ∧ c ≠ '.') :
    fractionPart ((if n.fraction.isEmpty then [] else '.' :: n.fraction) ++ rest) =
      .ok (n.fraction, rest) := by
  cases hn : n.fraction with
  | nil =>
    have hnot : ∀ c ∈ rest.head?, ['.'].contains c = false := fun c hc => by
      simp [(hrest c hc).2]
    change fractionPart rest = _
    rw [fractionPart, Reader.bind_ok (taking_of_not_contains hnot)]
    rfl
  | cons d ds =>
    rw [hn] at hfraction
    change fractionPart ('.' :: (d :: ds ++ rest)) = _
    rw [fractionPart, Reader.bind_ok (taking_cons rfl _), if_pos rfl]
    exact someDigits_append ⟨List.cons_ne_nil d ds, hfraction⟩ fun c hc => (hrest c hc).1

/-- **A number is read as it is spelled**, whatever its size: what comes after the whole part and
after the fraction begins with no digit. -/
theorem scan_append (h : n.Spells word) (hrest : Stops rest) :
    scan (word ++ rest) = .ok (n, rest) := by
  obtain ⟨hproper, power, hpower, rfl⟩ := h
  obtain ⟨d, ds, hwhole⟩ := List.exists_cons_of_ne_nil hproper.whole.ne_nil
  have hd : d.isDigit = true := hproper.whole.all d (by rw [hwhole]; exact List.mem_cons_self ..)
  set point := if n.fraction.isEmpty then [] else '.' :: n.fraction
  have hpoint := hpower.head hrest
  have hdigit : ∀ c ∈ (point ++ (power ++ rest)).head?, c.isDigit = false := by
    intro c hc
    by_cases hfraction : n.fraction.isEmpty = true
    · rw [show point = [] from if_pos hfraction] at hc
      exact (hpoint c hc).1
    · rw [show point = '.' :: n.fraction from if_neg hfraction] at hc
      obtain rfl := Option.some.inj hc
      rfl
  have hsign : taking ['-'] ((if n.negative then ['-'] else []) ++
      (n.whole ++ (point ++ (power ++ rest)))) =
        .ok (n.negative, n.whole ++ (point ++ (power ++ rest))) := by
    cases n.negative with
    | true => exact taking_cons rfl _
    | false =>
      refine taking_of_not_contains ?_
      rw [hwhole]
      rintro c ⟨⟩
      simp only [List.contains_eq_mem, List.mem_singleton, decide_eq_false_iff_not]
      rintro rfl
      cases hd
  rw [front, List.append_assoc, List.append_assoc, List.append_assoc, scan, Reader.bind_ok hsign,
    Reader.bind_ok (wholePart_append hproper hdigit),
    Reader.bind_ok (fractionPart_append hproper.fraction hpoint),
    Reader.bind_ok (exponentPart_append hpower hrest)]
  rfl

/-! ### Small numbers fit a double -/

theorem roundDiv_le (n den : Nat) : roundDiv n den ≤ n / den + 1 := by
  simp only [roundDiv]
  split_ifs <;> omega

theorem nearestDouble_le (n : Nat) : nearestDouble n ≤ 2 * n + 1 := by
  have hunit : Nat.pow 2 (n.log2 - 52) ≤ n + 1 := by
    by_cases hn : n = 0
    · subst hn
      decide
    · exact (Nat.pow_le_pow_right Nat.two_pos (Nat.sub_le ..)).trans
        ((Nat.log2_self_le hn).trans (Nat.le_succ n))
  rw [nearestDouble]
  set unit := Nat.pow 2 (n.log2 - 52)
  calc roundDiv n unit * unit ≤ (n / unit + 1) * unit :=
        Nat.mul_le_mul_right unit (roundDiv_le n unit)
    _ = n / unit * unit + unit := by rw [Nat.add_mul, Nat.one_mul]
    _ ≤ n + (n + 1) := Nat.add_le_add (Nat.div_mul_le_self n unit) hunit
    _ = 2 * n + 1 := by omega

theorem le_ofDigitChars (ds : List Char) (s : Nat) : s ≤ Nat.ofDigitChars 10 ds s := by
  induction ds generalizing s with
  | nil => exact Nat.le_refl s
  | cons d ds ih =>
    rw [Nat.ofDigitChars_cons]
    exact (by omega : s ≤ 10 * s + (d.toNat - '0'.toNat)).trans (ih _)

/-- Digits are taken in as long as the number they make has 64 bits. -/
theorem absorb_eq {s : Nat} (h : Nat.ofDigitChars 10 ds s < UInt64.size) :
    absorb s ds = (Nat.ofDigitChars 10 ds s, []) := by
  induction ds generalizing s with
  | nil => rfl
  | cons d ds ih =>
    rw [Nat.ofDigitChars_cons] at h ⊢
    have hgrown : s * 10 + (d.toNat - '0'.toNat) = 10 * s + (d.toNat - '0'.toNat) := by
      rw [Nat.mul_comm]
    rw [absorb, hgrown, if_pos ((le_ofDigitChars ds _).trans_lt h), ih h]

theorem le_pow_sub_pow {a b : Nat} (ha : 66 ≤ a) (hab : a < b) :
    2 * UInt64.size + 1 ≤ Nat.pow 2 b - Nat.pow 2 a := by
  have hlarge : 2 ^ 66 ≤ 2 ^ a := Nat.pow_le_pow_right Nat.two_pos ha
  have hdouble : 2 ^ (a + 1) ≤ 2 ^ b := Nat.pow_le_pow_right Nat.two_pos hab
  have hsize : 2 * UInt64.size + 1 ≤ 2 ^ 66 := by decide
  change _ ≤ 2 ^ b - 2 ^ a
  omega

/-- **A natural number of 64 bits fits a double.** -/
theorem isFinite_of_toNat? {k : Nat} (hk : n.toNat? = some k) (hlt : k < UInt64.size) :
    n.isFinite = true := by
  rw [toNat?] at hk
  split at hk
  · cases hk
  · next hplain =>
    simp only [Bool.or_eq_true, not_or, Bool.not_eq_true, Bool.not_eq_false', List.isEmpty_iff,
      Option.isSome_eq_false_iff, Option.isNone_iff_eq_none] at hplain
    obtain ⟨⟨-, hfraction⟩, hexponent⟩ := hplain
    obtain rfl := Option.some.inj hk
    have hscaled : n.scaled = (Nat.ofDigitChars 10 n.whole 0, 0) := by
      simp [scaled, absorb_eq hlt, hfraction, hexponent, absorb]
    have hone : nearestDouble (Nat.pow 10 (0 : Int).toNat) = 1 := by decide
    have hround := nearestDouble_le (Nat.ofDigitChars 10 n.whole 0)
    rw [isFinite, hscaled]
    simp only [hone, Nat.mul_one, Bool.or_eq_true, Bool.and_eq_true, decide_eq_true_eq]
    generalize ha : 970 = a
    generalize hb : 1024 = b
    have hlimit := le_pow_sub_pow (a := a) (b := b) (by omega) (by omega)
    exact .inr ⟨by decide, by omega⟩

end Numeral

/-! ## Strings -/

namespace Text

variable {c : Char} {s v w : List Char}

theorem hexUnit_append {unit : Nat} (h : SpellsUnit unit w) (rest : List Char) :
    hexUnit (w ++ rest) = .ok (unit, rest) := by
  obtain ⟨hlength, ds, hds, rfl⟩ := h
  have htake : (w ++ rest).take 4 = w := List.take_left' hlength
  have hdrop : (w ++ rest).drop 4 = rest := List.drop_left' hlength
  have hbytes : ¬ (w.map Char.utf8Size).foldl (· + ·) 0 < 4 := by
    have hone : ∀ n ∈ w.map Char.utf8Size, 1 ≤ n := by
      simp only [List.mem_map, forall_exists_index, and_imp]
      rintro n d - rfl
      exact d.utf8Size_pos
    rw [← List.sum_eq_foldl]
    have := List.length_le_sum_of_one_le _ hone
    rw [List.length_map, hlength] at this
    omega
  rw [hexUnit, htake, if_neg hbytes, hds, hdrop]

/-- A character is no surrogate. -/
theorem not_surrogate (c : Char) : isTrailing c.toNat = false ∧ isLeading c.toNat = false := by
  have hvalid := c.valid
  simp only [UInt32.isValidChar, Nat.isValidChar] at hvalid
  simp only [isTrailing, isLeading, Char.toNat, Bool.and_eq_false_iff, decide_eq_false_iff_not]
  omega

theorem not_trailing_of_leading {unit : Nat} (h : isLeading unit = true) :
    isTrailing unit = false := by
  simp only [isLeading, isTrailing, Bool.and_eq_true, decide_eq_true_eq, Bool.and_eq_false_iff,
    decide_eq_false_iff_not] at h ⊢
  omega

/-- What a backslash stands for is read as it is spelled. -/
theorem escape_append (h : SpellsChar c ('\\' :: w)) (rest : List Char) :
    escape numbered (w ++ rest) = .ok (c, rest) := by
  have hnext (d : Char) (ds : List Char) : Reader.next (d :: ds) = .ok (d, ds) := rfl
  cases h with
  | plain hquote hslash hcontrol => exact absurd rfl hslash
  | @letter l hl =>
    have hfind : l ≠ 'u' ∧ letters.find? (·.2 == l) = some (c, l) := by
      simp only [letters, List.mem_cons, Prod.mk.injEq, List.not_mem_nil, or_false] at hl
      rcases hl with ⟨rfl, rfl⟩ | ⟨rfl, rfl⟩ | ⟨rfl, rfl⟩ | ⟨rfl, rfl⟩ | ⟨rfl, rfl⟩ | ⟨rfl, rfl⟩ |
        ⟨rfl, rfl⟩ | ⟨rfl, rfl⟩ <;> decide
    rw [List.singleton_append, escape, Reader.bind_ok (hnext ..), if_neg hfind.1, hfind.2]
    rfl
  | unit hunit =>
    rw [List.cons_append, escape, Reader.bind_ok (hnext ..), if_pos rfl, numbered,
      Reader.bind_ok (hexUnit_append hunit rest)]
    simp only [(not_surrogate c).1, (not_surrogate c).2, Bool.false_eq_true, if_false,
      Char.ofNat_toNat]
    rfl
  | @pair first second v w hv hw hfirst hsecond hc =>
    rw [List.cons_append, escape, Reader.bind_ok (hnext ..), if_pos rfl, numbered,
      List.append_assoc, Reader.bind_ok (hexUnit_append hv _)]
    simp only [not_trailing_of_leading hfirst, hfirst, Bool.false_eq_true, if_false, if_true]
    have hescape : Reader.literal ['\\', 'u'] ('\\' :: 'u' :: w ++ rest) = .ok ((), w ++ rest) :=
      Reader.literal_append ['\\', 'u'] (w ++ rest)
    rw [Reader.bind_ok hescape, Reader.bind_ok (hexUnit_append hw rest), if_pos hsecond, ← hc,
      Char.ofNat_toNat]
    rfl

/-- The rest of a string is read as it is spelled, up to the closing quote. -/
theorem restOf_append (h : SpellsChars s w) {fuel : Nat} (hfuel : w.length < fuel)
    (sofar rest : List Char) : restOf numbered fuel sofar (w ++ '"' :: rest) =
      .ok (String.ofList (sofar.reverse ++ s), rest) := by
  have hnext (d : Char) (ds : List Char) : Reader.next (d :: ds) = .ok (d, ds) := rfl
  induction h generalizing fuel sofar with
  | nil =>
    obtain ⟨fuel, rfl⟩ := Nat.exists_eq_add_one_of_ne_zero (Nat.ne_of_gt hfuel)
    rw [List.nil_append, restOf, Reader.bind_ok (hnext ..), if_pos rfl, List.append_nil]
    rfl
  | @cons c s v w hc hs ih =>
    obtain ⟨fuel, rfl⟩ := Nat.exists_eq_add_one_of_ne_zero (Nat.ne_of_gt (Nat.zero_lt_of_lt hfuel))
    rw [List.length_append] at hfuel
    have hrest (hv : 0 < v.length) : restOf numbered fuel (c :: sofar) (w ++ '"' :: rest) =
        .ok (String.ofList (sofar.reverse ++ c :: s), rest) := by
      rw [ih (by omega), List.reverse_cons, List.append_assoc, List.singleton_append]
    rw [List.append_assoc]
    by_cases hslash : ∃ u, v = '\\' :: u
    · obtain ⟨u, rfl⟩ := hslash
      rw [List.cons_append, restOf, Reader.bind_ok (hnext ..), if_neg (by decide), if_pos rfl,
        Reader.bind_ok (escape_append hc _)]
      exact hrest (Nat.succ_pos _)
    · cases hc with
      | plain hquote hbackslash hcontrol =>
        rw [List.singleton_append, restOf, Reader.bind_ok (hnext ..), if_neg hquote,
          if_neg hbackslash, if_neg (Nat.not_lt.2 hcontrol)]
        exact hrest Nat.one_pos
      | _ => exact absurd ⟨_, rfl⟩ hslash

/-- **A string is read as it is spelled**, from the opening quote to the closing one. -/
theorem read_append {str : String} (h : SpellsChars str.toList w) (rest : List Char) :
    read (w ++ '"' :: rest) = .ok (str, rest) := by
  have hlength : w.length < (w ++ '"' :: rest).length + 1 := by
    rw [List.length_append]
    omega
  rw [read, restOf_append h hlength, List.reverse_nil, List.nil_append, String.ofList_toList]

end Text

end Tomasulo.Json
