import Tomasulo.Proofs.Json.Decode

/-!
# Proofs/Json/Ignored — a value that nobody wants is passed over

What is passed over is looked at less closely than what is read: in a string only the escapes have
to be whole, so that half a surrogate pair may stand alone (`Text.SpellsLoosely`).  A text is
well-formed if it spells the tokens of some value in this sense (`WellFormed`), and this is all that
`Skip.value` asks for, whatever the size of the numbers and the depth of the brackets
(`Skip.value_takes`).
-/

namespace Tomasulo.Json

/-! ## Well-formed texts -/

namespace Text

/-- **Characters between quotes**, each standing for itself or escaped; the number of an escape need
not be the number of a character. -/
inductive SpellsLoosely : List Char → Prop where
  | nil : SpellsLoosely []
  | plain {c : Char} {w : List Char} (hquote : c ≠ '"') (hslash : c ≠ '\\')
    (hcontrol : 0x20 ≤ c.toNat) (hw : SpellsLoosely w) : SpellsLoosely (c :: w)
  | letter {c l : Char} {w : List Char} (hl : (c, l) ∈ letters) (hw : SpellsLoosely w) :
    SpellsLoosely ('\\' :: l :: w)
  | unit {n : Nat} {v w : List Char} (hv : SpellsUnit n v) (hw : SpellsLoosely w) :
    SpellsLoosely ('\\' :: 'u' :: (v ++ w))

/-- Whatever spells characters does. -/
theorem SpellsChars.loosely {s w : List Char} (h : SpellsChars s w) : SpellsLoosely w := by
  induction h with
  | nil => exact .nil
  | cons hc _ ih =>
    cases hc with
    | plain hquote hslash hcontrol => exact .plain hquote hslash hcontrol ih
    | letter hl => exact .letter hl ih
    | unit hv => exact .unit hv ih
    | pair hv hw =>
      have hpair := SpellsLoosely.unit hv (.unit hw ih)
      simpa only [List.cons_append, List.append_assoc] using hpair

end Text

/-- The spellings of a token that nobody reads: any string will do for another. -/
inductive Token.SpellsLoosely : Token → List Char → Prop where
  | exact {t : Token} {word : List Char} (h : t.Spells word) : t.SpellsLoosely word
  | string {s : String} {word : List Char} (h : Text.SpellsLoosely word) :
    Token.SpellsLoosely (.string s) ('"' :: (word ++ ['"']))

/-- **A text that spells tokens loosely** and then goes on with `tail`. -/
inductive Outlined (tail : List Char) : List Token → List Char → Prop where
  | nil {blanks : List Char} (hblanks : ∀ b ∈ blanks, isBlank b = true) :
    Outlined tail [] (blanks ++ tail)
  | cons {t : Token} {ts : List Token} {blanks word rest : List Char}
    (hblanks : ∀ b ∈ blanks, isBlank b = true) (hword : t.SpellsLoosely word)
    (hrest : Outlined tail ts rest) : Outlined tail (t :: ts) (blanks ++ (word ++ rest))

/-- **A text that holds one value** and nothing else. -/
def WellFormed (text : List Char) : Prop :=
  ∃ v : Value, Outlined [] v.tokens text

namespace Token

variable {t : Token} {word : List Char}

/-- No token begins with a blank. -/
theorem SpellsLoosely.head (h : t.SpellsLoosely word) :
    ∃ c rest, word = c :: rest ∧ isBlank c = false := by
  cases h with
  | exact h => exact h.head
  | string _ => exact ⟨_, _, rfl, rfl⟩

/-- Apart from strings nothing is loose. -/
theorem SpellsLoosely.spells (h : t.SpellsLoosely word) (ht : ∀ s, t ≠ .string s) :
    t.Spells word := by
  cases h with
  | exact h => exact h
  | string _ => exact absurd rfl (ht _)

/-- A string stands between quotes. -/
theorem SpellsLoosely.quoted {s : String} (h : Token.SpellsLoosely (.string s) word) :
    ∃ body, word = '"' :: (body ++ ['"']) ∧ Text.SpellsLoosely body := by
  cases h with
  | exact h =>
    cases h with
    | string hbody => exact ⟨_, rfl, hbody.loosely⟩
  | string hbody => exact ⟨_, rfl, hbody⟩

/-- What can begin a value does not begin with a mark that cannot. -/
theorem SpellsLoosely.ne_char {c : Char} (h : t.SpellsLoosely (c :: word)) (ht : t.opens = true)
    {m : Mark} (hm : (Token.mark m).opens = false) : c ≠ m.char := by
  cases h with
  | exact h => exact h.ne_char ht hm
  | string _ => cases m <;> decide

end Token

/-- Neither a blank nor a mark belongs to a number. -/
theorem Numeral.stops_cons {c : Char} {cs : List Char}
    (hc : isBlank c = true ∨ ∃ m : Mark, c = m.char) : Stops (c :: cs) := by
  rintro d ⟨⟩
  rcases hc with hblank | ⟨m, rfl⟩
  · simp only [isBlank, Bool.or_eq_true, beq_iff_eq] at hblank
    rcases hblank with ((rfl | rfl) | rfl) | rfl <;> decide
  · cases m <;> decide

theorem Numeral.Stops.blanks_append {blanks tail : List Char} (htail : Stops tail)
    (hblanks : ∀ b ∈ blanks, isBlank b = true) : Stops (blanks ++ tail) := by
  match blanks with
  | [] => exact htail
  | b :: _ => exact stops_cons (.inl (hblanks b (List.mem_cons_self ..)))

/-- Peeking does not make a text longer. -/
theorem Reader.length_of_peek {cs cs' : List Char} {o : Option Char} (h : peek cs = .ok (o, cs')) :
    cs'.length ≤ cs.length := by
  obtain ⟨-, rfl⟩ := Prod.mk.inj (Except.ok.inj h)
  exact (List.dropWhile_sublist _).length_le

namespace Outlined

variable {t : Token} {ts rest : List Token} {tail cs : List Char}

/-- What comes behind the tokens. -/
theorem done (tail : List Char) : Outlined tail [] tail := by
  have hnone : ∀ b ∈ ([] : List Char), isBlank b = true := nofun
  exact .nil hnone

/-- A token without blanks before it. -/
theorem token {word : List Char} (hword : t.SpellsLoosely word) (h : Outlined tail ts cs) :
    Outlined tail (t :: ts) (word ++ cs) := by
  have hnone : ∀ b ∈ ([] : List Char), isBlank b = true := nofun
  exact .cons hnone hword h

/-- A text that spells tokens spells them loosely, up to any place. -/
theorem of_spelled : ∀ {ts : List Token} {cs : List Char}, Spelled (ts ++ rest) cs →
    ∃ tail, Spelled rest tail ∧ Outlined tail ts cs
  | [], cs, h => ⟨cs, h, .done cs⟩
  | _ :: _, _, .cons hblanks hword hrest =>
    let ⟨tail, htail, houtlined⟩ := of_spelled hrest
    ⟨tail, htail, .cons hblanks (.exact hword) houtlined⟩

/-- Another text may follow. -/
theorem append (h : Outlined [] ts cs) (tail : List Char) : Outlined tail ts (cs ++ tail) := by
  induction h with
  | nil hblanks =>
    rw [List.append_nil]
    exact .nil hblanks
  | cons hblanks hword _ ih =>
    rw [List.append_assoc, List.append_assoc]
    exact .cons hblanks hword ih

/-- The next token shows its first character. -/
theorem peek (h : Outlined tail (t :: ts) cs) : ∃ c word cs',
    Reader.peek cs = .ok (some c, c :: (word ++ cs')) ∧ t.SpellsLoosely (c :: word) ∧
      Outlined tail ts cs' := by
  cases h with
  | cons hblanks hword hrest =>
    obtain ⟨c, word, rfl, hc⟩ := hword.head
    refine ⟨c, word, _, ?_, hword, hrest⟩
    rw [Reader.peek_eq, List.dropWhile_append_of_pos hblanks, List.cons_append,
      List.dropWhile_cons_of_neg (by simp [hc]), List.head?_cons]

/-- Peeking drops blanks and nothing else. -/
theorem dropped (h : Outlined tail (t :: ts) cs) {o : Option Char} {cs' : List Char}
    (hpeek : Reader.peek cs = .ok (o, cs')) : Outlined tail (t :: ts) cs' := by
  obtain ⟨c, word, rest, hpeek', hword, hrest⟩ := h.peek
  obtain ⟨-, rfl⟩ := Prod.mk.inj (Except.ok.inj (hpeek.symm.trans hpeek'))
  exact .token hword hrest

/-- A mark is its character. -/
theorem peek_mark {m : Mark} (h : Outlined tail (.mark m :: ts) cs) : ∃ cs',
    Reader.peek cs = .ok (some m.char, m.char :: cs') ∧ cs'.length < cs.length ∧
      Outlined tail ts cs' := by
  obtain ⟨c, word, cs', hpeek, hword, hrest⟩ := h.peek
  cases hword.spells (by rintro s ⟨⟩)
  exact ⟨cs', hpeek, Reader.length_of_peek hpeek, hrest⟩

/-- A string begins with a quote and ends with the next one. -/
theorem peek_string {s : String} (h : Outlined tail (.string s :: ts) cs) : ∃ body cs',
    Reader.peek cs = .ok (some '"', '"' :: (body ++ '"' :: cs')) ∧ Text.SpellsLoosely body ∧
      Outlined tail ts cs' := by
  obtain ⟨c, word, cs', hpeek, hword, hrest⟩ := h.peek
  obtain ⟨body, hquoted, hbody⟩ := hword.quoted
  obtain ⟨rfl, rfl⟩ := List.cons.inj hquoted
  refine ⟨body, cs', ?_, hbody, hrest⟩
  rw [hpeek, List.append_assoc, List.singleton_append]

/-- A value shows the first character of its first token, and stays. -/
theorem peek_value {v : Value} (h : Outlined tail (v.tokens ++ ts) cs) : ∃ c word cs',
    Reader.peek cs = .ok (some c, cs') ∧ v.first.SpellsLoosely (c :: word) ∧
      Outlined tail (v.tokens ++ ts) cs' := by
  obtain ⟨rest, htokens⟩ := v.exists_tokens
  rw [htokens, List.cons_append] at h ⊢
  obtain ⟨c, word, cs', hpeek, hword, -⟩ := h.peek
  exact ⟨c, word, _, hpeek, hword, h.dropped hpeek⟩

/-- Where a number may end, nothing follows that would belong to it. -/
theorem stops (h : Outlined tail ts cs) (hends : Ends ts) (htail : Numeral.Stops tail) :
    Numeral.Stops cs := by
  cases h with
  | nil hblanks => exact htail.blanks_append hblanks
  | @cons t ts blanks word cs' hblanks hword hrest =>
    rcases blanks with _ | ⟨b, blanks⟩
    · obtain ⟨m, rfl⟩ := hends t rfl
      cases hword.spells (by rintro s ⟨⟩)
      exact Numeral.stops_cons (.inr ⟨m, rfl⟩)
    · exact Numeral.stops_cons (.inl (hblanks b (List.mem_cons_self ..)))

end Outlined

/-! ## Strings and numbers -/

/-- **The reader takes a word**: on a text that begins with it and does not go on with what would
belong to a number, it gives `a` and leaves the rest, blanks apart. -/
def Reader.Takes {α : Type} (r : Reader α) (word : List Char) (a : α) : Prop :=
  ∀ ⦃tail : List Char⦄, Numeral.Stops tail →
    ∃ blanks : List Char, (∀ b ∈ blanks, isBlank b = true) ∧
      r (word ++ tail) = .ok (a, blanks ++ tail)

theorem Reader.bind_congr {α β : Type} {r r' : Reader α} {cs cs' : List Char} (h : r cs = r' cs')
    (f : α → Reader β) : (r >>= f) cs = (r' >>= f) cs' := by
  change (r cs >>= fun x => f x.1 x.2) = (r' cs' >>= fun x => f x.1 x.2)
  rw [h]

/-- What is taken is put into another form. -/
theorem Reader.Takes.map {α β : Type} {r : Reader α} {word : List Char} {a : α}
    (h : r.Takes word a) (g : α → β) : Reader.Takes (do return g (← r)) word (g a) := by
  intro tail htail
  obtain ⟨blanks, hblanks, hread⟩ := h htail
  exact ⟨blanks, hblanks, Reader.bind_ok hread _⟩

/-- **A whole text is taken.** -/
theorem Reader.Takes.run {α : Type} {r : Reader α} {text : String} {a : α}
    (h : r.Takes text.toList a) : r.run text = .ok a := by
  have hend : Numeral.Stops [] := nofun
  obtain ⟨blanks, hblanks, hread⟩ := h hend
  rw [List.append_nil, List.append_nil] at hread
  change (r text.toList >>= fun x => if x.2.all isBlank then pure x.1 else throw .malformed) = _
  rw [hread]
  exact if_pos (List.all_eq_true.2 hblanks)

/-- A string is passed over up to its closing quote. -/
theorem Text.restOf_append_loosely {w : List Char} (h : SpellsLoosely w) {fuel : Nat}
    (hfuel : w.length < fuel) (sofar rest : List Char) :
    ∃ s, restOf (Char.ofNat <$> hexUnit) fuel sofar (w ++ '"' :: rest) = .ok (s, rest) := by
  have hnext (d : Char) (ds : List Char) : Reader.next (d :: ds) = .ok (d, ds) := rfl
  induction h generalizing fuel sofar with
  | nil =>
    obtain ⟨fuel, rfl⟩ := Nat.exists_eq_add_one_of_ne_zero (Nat.ne_of_gt hfuel)
    exact ⟨_, rfl⟩
  | @plain c w hquote hslash hcontrol _ ih =>
    obtain ⟨fuel, rfl⟩ := Nat.exists_eq_add_one_of_ne_zero (Nat.ne_of_gt (Nat.zero_lt_of_lt hfuel))
    rw [List.cons_append, restOf, Reader.bind_ok (hnext ..), if_neg hquote, if_neg hslash,
      if_neg (Nat.not_lt.2 hcontrol)]
    exact ih (Nat.lt_of_succ_lt_succ hfuel) (c :: sofar)
  | @letter c l w hl _ ih =>
    obtain ⟨fuel, rfl⟩ := Nat.exists_eq_add_one_of_ne_zero (Nat.ne_of_gt (Nat.zero_lt_of_lt hfuel))
    have hescape : ∃ d, escape (Char.ofNat <$> hexUnit) (l :: (w ++ '"' :: rest)) =
        .ok (d, w ++ '"' :: rest) := by
      simp only [letters, List.mem_cons, Prod.mk.injEq, List.not_mem_nil, or_false] at hl
      rcases hl with ⟨-, rfl⟩ | ⟨-, rfl⟩ | ⟨-, rfl⟩ | ⟨-, rfl⟩ | ⟨-, rfl⟩ | ⟨-, rfl⟩ | ⟨-, rfl⟩ |
        ⟨-, rfl⟩ <;> exact ⟨_, rfl⟩
    obtain ⟨d, hd⟩ := hescape
    rw [List.cons_append, List.cons_append, restOf, Reader.bind_ok (hnext ..),
      if_neg (by decide), if_pos rfl, Reader.bind_ok hd]
    simp only [List.length_cons] at hfuel
    exact ih (by omega) (d :: sofar)
  | @unit n v w hv _ ih =>
    obtain ⟨fuel, rfl⟩ := Nat.exists_eq_add_one_of_ne_zero (Nat.ne_of_gt (Nat.zero_lt_of_lt hfuel))
    have hescape : escape (Char.ofNat <$> hexUnit) ('u' :: (v ++ (w ++ '"' :: rest))) =
        .ok (Char.ofNat n, w ++ '"' :: rest) := by
      rw [escape, Reader.bind_ok (hnext ..), if_pos rfl]
      change (hexUnit >>= fun n => pure (Char.ofNat n)) (v ++ (w ++ '"' :: rest)) = _
      rw [Reader.bind_ok (hexUnit_append hv _)]
      rfl
    rw [List.cons_append, List.cons_append, List.append_assoc, restOf, Reader.bind_ok (hnext ..),
      if_neg (by decide), if_pos rfl, Reader.bind_ok hescape]
    simp only [List.length_cons, List.length_append] at hfuel
    exact ih (by omega) (Char.ofNat n :: sofar)

theorem Text.skip_append {w : List Char} (h : SpellsLoosely w) (rest : List Char) :
    skip (w ++ '"' :: rest) = .ok ((), rest) := by
  have hlength : w.length < (w ++ '"' :: rest).length + 1 := by
    rw [List.length_append]
    omega
  obtain ⟨s, hs⟩ := restOf_append_loosely h hlength [] rest
  exact Reader.bind_ok
    (r := fun cs => restOf (Char.ofNat <$> hexUnit) (cs.length + 1) [] cs) hs _

/-- A number of any size is passed over. -/
theorem Numeral.skip_append {n : Numeral} {word rest : List Char} (h : n.Spells word)
    (hrest : Stops rest) : skip (word ++ rest) = .ok ((), rest) := by
  rw [skip, scan_append h hrest]

/-! ## Values -/

namespace Skip

variable {tail cs cs' : List Char} {ts : List Token} {stack : List Bracket} {fuel : Nat}

/-- What is left to do behind a value inside these brackets. -/
def resume (fuel : Nat) (stack : List Bracket) : Reader Unit := do
  match ← afterValue stack with
  | none => return
  | some stack => tokens fuel stack

/-- **What remains to be done** is to go on behind a value, at a text that outlines the tokens `ts`,
with fuel for all of it. -/
def Remains (tail : List Char) (ts : List Token) (stack : List Bracket)
    (result : Except Defect (Unit × List Char)) : Prop :=
  ∃ cs fuel, Outlined tail ts cs ∧ cs.length < fuel ∧ result = resume fuel stack cs

theorem tokens_of_done (h : token stack cs = afterValue stack cs') :
    tokens (fuel + 1) stack cs = resume fuel stack cs' := by
  rw [tokens, resume]
  exact Reader.bind_congr h _

theorem tokens_of_opened {inner : List Bracket} (h : token stack cs = .ok (some inner, cs')) :
    tokens (fuel + 1) stack cs = tokens fuel inner cs' := by
  rw [tokens, Reader.bind_ok h]

theorem resume_of_closed {bracket : Bracket}
    (h : afterValue (bracket :: stack) cs = afterValue stack cs') :
    resume fuel (bracket :: stack) cs = resume fuel stack cs' := by
  rw [resume, resume]
  exact Reader.bind_congr h _

theorem resume_of_comma {inner : List Bracket} (h : afterValue stack cs = .ok (some inner, cs')) :
    resume fuel stack cs = tokens fuel inner cs' := by
  rw [resume, Reader.bind_ok h]

/-- Where a number begins, a number is passed over. -/
theorem token_of_peek_number {c : Char} (hc : c = '-' ∨ c.isDigit = true)
    (hpeek : Reader.peek cs = .ok (some c, cs')) :
    token stack cs = (do Numeral.skip; afterValue stack : Reader _) cs' := by
  have hmem := mem_of_begins hc
  rw [token, Reader.bind_ok hpeek]
  simp only [List.mem_cons, List.not_mem_nil, or_false] at hmem
  rcases hmem with rfl | rfl | rfl | rfl | rfl | rfl | rfl | rfl | rfl | rfl | rfl <;> rfl

/-- A key and its colon are passed over. -/
theorem key_outlined {s : String} (h : Outlined tail (.string s :: .mark .colon :: ts) cs) :
    ∃ cs', key cs = .ok ((), cs') ∧ cs'.length < cs.length ∧ Outlined tail ts cs' := by
  obtain ⟨body, cs₁, hpeek, hbody, hcolon⟩ := h.peek_string
  obtain ⟨cs₂, hpeek', hshorter', hrest⟩ := hcolon.peek_mark
  refine ⟨cs₂, ?_, ?_, hrest⟩
  · rw [key, Reader.bind_ok hpeek]
    change (Reader.advance >>= fun _ => Text.skip >>= fun _ => colon : Reader Unit)
      ('"' :: (body ++ '"' :: cs₁)) = _
    rw [Reader.bind_ok (advance_cons ..), Reader.bind_ok (Text.skip_append hbody cs₁), colon,
      Reader.bind_ok hpeek']
    rfl
  · have hshorter := Reader.length_of_peek hpeek
    simp only [List.length_cons, List.length_append] at hshorter
    omega

/-- A value without parts. -/
theorem remains_scalar {v : Value} (hv : ∀ m, v.first ≠ .mark m) (hends : Ends ts)
    (htail : Numeral.Stops tail) (h : Outlined tail (v.tokens ++ ts) cs)
    (hfuel : cs.length < fuel) : Remains tail ts stack (tokens fuel stack cs) := by
  obtain ⟨fuel, rfl⟩ := Nat.exists_eq_add_one_of_ne_zero (Nat.ne_of_gt (Nat.zero_lt_of_lt hfuel))
  have hdone {c : Char} {word cs' : List Char} (hrest : Outlined tail ts cs')
      (hpeek : Reader.peek cs = .ok (some c, c :: (word ++ cs')))
      (htoken : token stack cs = afterValue stack cs') :
      Remains tail ts stack (tokens (fuel + 1) stack cs) := by
    have hshorter := Reader.length_of_peek hpeek
    simp only [List.length_cons, List.length_append] at hshorter
    exact ⟨cs', fuel, hrest, by omega, tokens_of_done htoken⟩
  have hliteral (word : List Char) {cs' : List Char} :
      (do Reader.literal word; afterValue stack : Reader _) (word ++ cs') = afterValue stack cs' :=
    Reader.bind_ok (Reader.literal_append word cs') _
  match v with
  | .null =>
    obtain ⟨c, word, cs', hpeek, hword, hrest⟩ := h.peek
    cases hword.spells (by rintro s ⟨⟩)
    refine hdone hrest hpeek ?_
    rw [token, Reader.bind_ok hpeek]
    exact hliteral ['n', 'u', 'l', 'l']
  | .bool b =>
    obtain ⟨c, word, cs', hpeek, hword, hrest⟩ := h.peek
    refine hdone hrest hpeek ?_
    rw [token, Reader.bind_ok hpeek]
    cases hword.spells (by rintro s ⟨⟩) with
    | yes => exact hliteral ['t', 'r', 'u', 'e']
    | no => exact hliteral ['f', 'a', 'l', 's', 'e']
  | .number n =>
    obtain ⟨c, word, cs', hpeek, hword, hrest⟩ := h.peek
    refine hdone hrest hpeek ?_
    have hspelled := hword.spells (by rintro s ⟨⟩)
    generalize hw : c :: word = w at hspelled
    cases hspelled with
    | number hspells =>
      obtain ⟨c', rest', hw', hc⟩ := hspells.head
      obtain ⟨rfl, -⟩ := List.cons.inj (hw.trans hw')
      rw [token_of_peek_number hc hpeek, ← List.cons_append, hw]
      exact Reader.bind_ok (Numeral.skip_append hspells (hrest.stops hends htail)) _
  | .string s =>
    obtain ⟨body, cs', hpeek, hbody, hrest⟩ := Outlined.peek_string h
    have hpeek' : Reader.peek cs = .ok (some '"', '"' :: ((body ++ ['"']) ++ cs')) := by
      rw [hpeek, List.append_assoc, List.singleton_append]
    refine hdone hrest hpeek' ?_
    rw [token, Reader.bind_ok hpeek]
    change (Reader.advance >>= fun _ => Text.skip >>= fun _ => afterValue stack : Reader _)
      ('"' :: (body ++ '"' :: cs')) = _
    rw [Reader.bind_ok (advance_cons ..), Reader.bind_ok (Text.skip_append hbody cs')]
  | .array _ => exact absurd rfl (hv .openArray)
  | .object _ => exact absurd rfl (hv .openObject)

mutual

/-- A value inside brackets: it is passed over, and what is inside its own brackets with it. A key
is taken with the bracket before it, so it leaves the list of brackets as it is. -/
theorem remains_value (htail : Numeral.Stops tail) : (v : Value) → (stack : List Bracket) →
    ∀ {ts : List Token} {cs : List Char} {fuel : Nat}, Ends ts →
      Outlined tail (v.tokens ++ ts) cs → cs.length < fuel →
        Remains tail ts stack (tokens fuel stack cs)
  | .null, _, _, _, _, hends, h, hfuel | .bool _, _, _, _, _, hends, h, hfuel
  | .number _, _, _, _, _, hends, h, hfuel | .string _, _, _, _, _, hends, h, hfuel =>
    remains_scalar (by rintro m ⟨⟩) hends htail h hfuel
  | .array vs, stack, ts, cs, fuel, _, h, hfuel => by
    obtain ⟨fuel, rfl⟩ := Nat.exists_eq_add_one_of_ne_zero (Nat.ne_of_gt (Nat.zero_lt_of_lt hfuel))
    rw [Read.tokens_array] at h
    obtain ⟨cs₁, hpeek, hshorter, hinside⟩ := h.peek_mark
    have htoken : token stack cs = (do
        if (← Reader.peek) = some ']' then
          Reader.advance
          afterValue stack
        else
          return some (.array :: stack) : Reader _) cs₁ := by
      rw [token, Reader.bind_ok hpeek]
      exact Reader.bind_ok (advance_cons ..) _
    match vs with
    | [] =>
      obtain ⟨cs₂, hclose, hshorter', hrest⟩ := Outlined.peek_mark hinside
      rw [Reader.bind_ok hclose] at htoken
      exact ⟨cs₂, fuel, hrest, by omega, tokens_of_done htoken⟩
    | v :: vs =>
      rw [itemTokens, List.append_assoc, List.append_assoc] at hinside
      obtain ⟨c, word, cs₂, hpeek', hword, hvalue⟩ := Outlined.peek_value hinside
      have hc : c ≠ ']' := hword.ne_char v.opens_first (m := .closeArray) rfl
      have hshorter' := Reader.length_of_peek hpeek'
      rw [Reader.bind_ok hpeek', if_neg (by simpa using hc)] at htoken
      have hless : cs₂.length < fuel := by omega
      obtain ⟨cs', fuel', hrest, hfuel', hfirst⟩ := remains_value htail v (.array :: stack)
        (Read.ends_itemTokens vs .closeArray ts) hvalue hless
      rw [tokens_of_opened htoken, hfirst]
      exact remains_items htail vs hrest hfuel'
  | .object ms, stack, ts, cs, fuel, _, h, hfuel => by
    obtain ⟨fuel, rfl⟩ := Nat.exists_eq_add_one_of_ne_zero (Nat.ne_of_gt (Nat.zero_lt_of_lt hfuel))
    rw [Read.tokens_object] at h
    obtain ⟨cs₁, hpeek, hshorter, hinside⟩ := h.peek_mark
    have htoken : token stack cs = (do
        if (← Reader.peek) = some '\x7d' then
          Reader.advance
          afterValue stack
        else
          key
          return some (.object :: stack) : Reader _) cs₁ := by
      rw [token, Reader.bind_ok hpeek]
      exact Reader.bind_ok (advance_cons ..) _
    match ms with
    | [] =>
      obtain ⟨cs₂, hclose, hshorter', hrest⟩ := Outlined.peek_mark hinside
      rw [Reader.bind_ok hclose] at htoken
      exact ⟨cs₂, fuel, hrest, by omega, tokens_of_done htoken⟩
    | (k, v) :: ms =>
      rw [memberTokens, List.append_assoc, List.cons_append, List.cons_append,
        List.append_assoc] at hinside
      obtain ⟨body, cs₂, hpeek', -, -⟩ := Outlined.peek_string hinside
      have hshorter' := Reader.length_of_peek hpeek'
      obtain ⟨cs₃, hkey, hlength, hvalue⟩ := key_outlined (Outlined.dropped hinside hpeek')
      rw [Reader.bind_ok hpeek', if_neg (by decide), Reader.bind_ok hkey] at htoken
      have hless : cs₃.length < fuel := by omega
      obtain ⟨cs', fuel', hrest, hfuel', hfirst⟩ := remains_value htail v (.object :: stack)
        (Read.ends_memberTokens ms .closeObject ts) hvalue hless
      rw [tokens_of_opened htoken, hfirst]
      exact remains_members htail ms hrest hfuel'

/-- The items after the first, up to the closing bracket. -/
theorem remains_items (htail : Numeral.Stops tail) : (vs : List Value) →
    ∀ {ts : List Token} {cs : List Char} {stack : List Bracket} {fuel : Nat},
      Outlined tail (itemTokens false vs ++ .mark .closeArray :: ts) cs → cs.length < fuel →
        Remains tail ts stack (resume fuel (.array :: stack) cs)
  | [], ts, cs, stack, fuel, h, hfuel => by
    obtain ⟨cs', hpeek, hshorter, hrest⟩ := Outlined.peek_mark h
    have hclosed : afterValue (.array :: stack) cs = afterValue stack cs' := by
      rw [afterValue, Reader.bind_ok hpeek]
      rfl
    exact ⟨cs', fuel, hrest, by omega, resume_of_closed hclosed⟩
  | v :: vs, ts, cs, stack, fuel, h, hfuel => by
    rw [itemTokens, List.append_assoc, List.append_assoc] at h
    obtain ⟨cs', hpeek, hshorter, hrest⟩ := Outlined.peek_mark h
    have hcomma : afterValue (.array :: stack) cs = .ok (some (.array :: stack), cs') := by
      rw [afterValue, Reader.bind_ok hpeek]
      rfl
    have hless : cs'.length < fuel := by omega
    obtain ⟨cs'', fuel', hrest', hfuel', hvalue⟩ := remains_value htail v (.array :: stack)
      (Read.ends_itemTokens vs .closeArray ts) hrest hless
    rw [resume_of_comma hcomma, hvalue]
    exact remains_items htail vs hrest' hfuel'

/-- The members after the first, up to the closing bracket. -/
theorem remains_members (htail : Numeral.Stops tail) : (ms : List (String × Value)) →
    ∀ {ts : List Token} {cs : List Char} {stack : List Bracket} {fuel : Nat},
      Outlined tail (memberTokens false ms ++ .mark .closeObject :: ts) cs → cs.length < fuel →
        Remains tail ts stack (resume fuel (.object :: stack) cs)
  | [], ts, cs, stack, fuel, h, hfuel => by
    obtain ⟨cs', hpeek, hshorter, hrest⟩ := Outlined.peek_mark h
    have hclosed : afterValue (.object :: stack) cs = afterValue stack cs' := by
      rw [afterValue, Reader.bind_ok hpeek]
      rfl
    exact ⟨cs', fuel, hrest, by omega, resume_of_closed hclosed⟩
  | (k, v) :: ms, ts, cs, stack, fuel, h, hfuel => by
    rw [memberTokens, List.append_assoc, List.cons_append, List.cons_append, List.append_assoc] at h
    obtain ⟨cs₁, hpeek, hshorter, hkeyed⟩ := Outlined.peek_mark h
    obtain ⟨cs₂, hkey, hlength, hvalue⟩ := key_outlined hkeyed
    have hcomma : afterValue (.object :: stack) cs = .ok (some (.object :: stack), cs₂) := by
      rw [afterValue, Reader.bind_ok hpeek]
      change (Reader.advance >>= fun _ => key >>= fun _ => return some (.object :: stack) :
        Reader _) (',' :: cs₁) = _
      rw [Reader.bind_ok (advance_cons ..), Reader.bind_ok hkey]
      rfl
    have hless : cs₂.length < fuel := by omega
    obtain ⟨cs', fuel', hrest, hfuel', hfirst⟩ := remains_value htail v (.object :: stack)
      (Read.ends_memberTokens ms .closeObject ts) hvalue hless
    rw [resume_of_comma hcomma, hfirst]
    exact remains_members htail ms hrest hfuel'

end

/-- **A value is passed over**, whatever comes behind it. -/
theorem value_of_outlined {v : Value} (htail : Numeral.Stops tail) (h : Outlined tail v.tokens cs) :
    ∃ blanks : List Char, (∀ b ∈ blanks, isBlank b = true) ∧
      value cs = .ok ((), blanks ++ tail) := by
  rw [← List.append_nil v.tokens] at h
  have hends : Ends [] := nofun
  obtain ⟨cs', fuel, hrest, -, hvalue⟩ :=
    remains_value htail v [] hends h (Nat.lt_succ_self cs.length)
  cases hrest with
  | nil hblanks => exact ⟨_, hblanks, hvalue⟩

/-- **Every well-formed text is passed over.** -/
theorem value_takes {text : List Char} (h : WellFormed text) : value.Takes text () := by
  obtain ⟨v, hv⟩ := h
  exact fun tail htail => value_of_outlined htail (hv.append tail)

/-- Whatever value is spelled, it is passed over. -/
theorem value_decodes : value.Decodes fun _ => some () := by
  intro v rest cs hends h
  obtain ⟨tail, hspelled, houtlined⟩ := Outlined.of_spelled h
  obtain ⟨blanks, hblanks, hvalue⟩ := value_of_outlined (hspelled.stops hends) houtlined
  rw [hvalue]
  exact .value (hspelled.blanks_append hblanks)

end Skip

end Tomasulo.Json
