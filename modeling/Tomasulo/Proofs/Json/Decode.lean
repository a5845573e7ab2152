import Tomasulo.Proofs.Json.Scan

/-!
# Proofs/Json/Decode — readers decode values

A reader is specified by a partial function on values: on every text that spells a value it gives
what the function makes of the value, and some defect if that is nothing (`Reader.Decodes`).  Such
specifications compose as readers do (`Gives.bind`), so blanks, escapes and fuel are dealt with
once.
-/

namespace Tomasulo.Json

/-! ## What a reader gives -/

/-- **What a reader gives**: the value that is wanted, with these tokens left over, or some defect
if nothing is wanted. -/
inductive Gives {α : Type} (rest : List Token) :
    Except Defect (α × List Char) → Option α → Prop where
  | value {a : α} {cs : List Char} (h : Spelled rest cs) : Gives rest (.ok (a, cs)) (some a)
  | defect (d : Defect) : Gives rest (.error d) none

/-- **The reader decodes values** by a partial function, whatever comes after them. -/
def Reader.Decodes {α : Type} (r : Reader α) (f : Value → Option α) : Prop :=
  ∀ ⦃v : Value⦄ ⦃rest : List Token⦄ ⦃cs : List Char⦄, Ends rest → Spelled (v.tokens ++ rest) cs →
    Gives rest (r cs) (f v)

section Gives

variable {α β : Type} {rest mid : List Token} {cs : List Char}

theorem Gives.bind {r : Reader α} {g : α → Reader β} {o : Option α} {f : α → Option β}
    (h : Gives mid (r cs) o)
    (hg : ∀ {a : α} {cs' : List Char}, Spelled mid cs' → Gives rest (g a cs') (f a)) :
    Gives rest ((r >>= g) cs) (o.bind f) := by
  generalize hr : r cs = result at h
  cases h with
  | value hmid =>
    rw [Reader.bind_ok hr]
    exact hg hmid
  | defect d =>
    rw [Reader.bind_error hr]
    exact .defect d

/-- A result is put into another form. -/
theorem Gives.map {r : Reader α} {o : Option α} (h : Gives rest (r cs) o) (g : α → β) :
    Gives rest ((do return g (← r) : Reader β) cs) (o.map g) := by
  rw [Option.map_eq_bind]
  exact h.bind fun hrest => .value hrest

/-- So is what a reader decodes. -/
theorem Reader.Decodes.map {r : Reader α} {f : Value → Option α} (h : r.Decodes f) (g : α → β) :
    Reader.Decodes (do return g (← r)) fun v => (f v).map g :=
  fun _ _ _ hends hv => (h hends hv).map g

/-- **A whole text**: a reader gives what it makes of the value that is spelled, or some defect. -/
theorem Reader.Decodes.run {r : Reader α} {f : Value → Option α} (h : r.Decodes f) {v : Value}
    {text : String} (hv : Spelled v.tokens text.toList) :
    (∃ a, f v = some a ∧ r.run text = .ok a) ∨ f v = none ∧ ∃ d, r.run text = .error d := by
  have hgives : Gives [] (r text.toList) (f v) := h nofun (by rwa [List.append_nil])
  generalize hread : r text.toList = result at hgives
  generalize f v = wanted at hgives
  have hrun : r.run text = result.bind fun read =>
      if read.2.all isBlank then .ok read.1 else .error .malformed := by
    rw [← hread]
    rfl
  cases hgives with
  | @value a cs hrest =>
    cases hrest with
    | nil hblanks =>
      refine .inl ⟨a, rfl, ?_⟩
      rw [hrun]
      exact if_pos (List.all_eq_true.2 hblanks)
  | defect d => exact .inr ⟨rfl, d, hrun⟩

end Gives

/-! ## Tokens -/

section Tokens

variable {t : Token} {rest : List Token} {cs : List Char}

/-- The next token shows its first character. -/
theorem Spelled.peek (h : Spelled (t :: rest) cs) :
    ∃ c word cs', Reader.peek cs = .ok (some c, c :: (word ++ cs')) ∧ t.Spells (c :: word) ∧
      Spelled rest cs' := by
  obtain ⟨c, word, cs', hdrop, hword, hrest⟩ := h.dropWhile_isBlank
  refine ⟨c, word, cs', ?_, hword, hrest⟩
  rw [Reader.peek_eq, hdrop, List.head?_cons]

/-- A value shows the first character of its first token, and stays. -/
theorem Spelled.peek_value {v : Value} (h : Spelled (v.tokens ++ rest) cs) : ∃ c word cs',
    Reader.peek cs = .ok (some c, cs') ∧ v.first.Spells (c :: word) ∧
      Spelled (v.tokens ++ rest) cs' := by
  obtain ⟨ts, htokens⟩ := v.exists_tokens
  rw [htokens, List.cons_append] at h ⊢
  obtain ⟨c, word, cs', hpeek, hword, hrest⟩ := h.peek
  exact ⟨c, word, _, hpeek, hword, .token hword hrest⟩

/-- A mark is its character. -/
theorem Spelled.peek_mark {m : Mark} (h : Spelled (.mark m :: rest) cs) : ∃ cs',
    Reader.peek cs = .ok (some m.char, m.char :: cs') ∧ Spelled rest cs' := by
  obtain ⟨c, word, cs', hpeek, hword, hrest⟩ := h.peek
  cases hword
  exact ⟨cs', hpeek, hrest⟩

theorem advance_cons (c : Char) (cs : List Char) : Reader.advance (c :: cs) = .ok ((), cs) := rfl

/-- The text after a number goes on with nothing that would belong to it. -/
theorem Spelled.stops (h : Spelled rest cs) (hends : Ends rest) : Numeral.Stops cs := by
  intro c hc
  rcases h.head_of_ends hends c hc with hblank | ⟨m, rfl⟩
  · simp only [isBlank, Bool.or_eq_true, beq_iff_eq] at hblank
    rcases hblank with ((rfl | rfl) | rfl) | rfl <;> decide
  · cases m <;> decide

end Tokens

namespace Read

variable {α : Type} {rest : List Token} {cs : List Char} {v : Value}

/-! ## Single values -/

/-- What is kept of a value without parts: a number has to fit a double. -/
def scalar? : Value → Option Value
  | .array _ | .object _ => none
  | .number n => if n.isFinite then some (.number n) else none
  | v => some v

/-- A number is read, if it is finite. -/
theorem gives_number {n : Numeral} {word : List Char} (h : n.Spells word) (hends : Ends rest)
    (hrest : Spelled rest cs) :
    Gives rest ((do return Value.number (← Numeral.read) : Reader Value) (word ++ cs))
      (scalar? (.number n)) := by
  have hscan := Numeral.scan_append h (hrest.stops hends)
  have hread : Gives rest (Numeral.read (word ++ cs)) (if n.isFinite then some n else none) := by
    rw [Numeral.read, Reader.bind_ok hscan]
    cases n.isFinite with
    | true => exact .value hrest
    | false => exact .defect _
  have hmap := hread.map Value.number
  rw [scalar?]
  cases hfinite : n.isFinite <;> simpa [hfinite] using hmap

/-- Where a number begins, a number is read. -/
theorem scalar_of_peek_number {c : Char} (hc : c = '-' ∨ c.isDigit = true) {cs' : List Char}
    (hpeek : Reader.peek cs = .ok (some c, cs')) :
    scalar cs = (do return Value.number (← Numeral.read) : Reader Value) cs' := by
  have hmem := mem_of_begins hc
  rw [scalar, Reader.bind_ok hpeek]
  simp only [List.mem_cons, List.not_mem_nil, or_false] at hmem
  rcases hmem with rfl | rfl | rfl | rfl | rfl | rfl | rfl | rfl | rfl | rfl | rfl <;> rfl

/-- **Values without parts.** -/
theorem scalar_decodes : scalar.Decodes scalar? := by
  intro v rest cs hends h
  have hliteral (word : List Char) {tail : List Char} (value : Value) (hrest : Spelled rest tail) :
      Gives rest ((do Reader.literal word; return value : Reader Value) (word ++ tail))
        (some value) := by
    rw [Reader.bind_ok (Reader.literal_append word tail)]
    exact .value hrest
  cases v with
  | null =>
    obtain ⟨c, word, cs', hpeek, hword, hrest⟩ := h.peek
    cases hword
    rw [scalar, Reader.bind_ok hpeek]
    exact hliteral ['n', 'u', 'l', 'l'] .null hrest
  | bool b =>
    obtain ⟨c, word, cs', hpeek, hword, hrest⟩ := h.peek
    rw [scalar, Reader.bind_ok hpeek]
    cases hword with
    | yes => exact hliteral ['t', 'r', 'u', 'e'] (.bool true) hrest
    | no => exact hliteral ['f', 'a', 'l', 's', 'e'] (.bool false) hrest
  | number n =>
    obtain ⟨c, word, cs', hpeek, hword, hrest⟩ := h.peek
    generalize hw : c :: word = w at hword
    cases hword with
    | number hspells =>
      obtain ⟨c', rest', hw', hc⟩ := hspells.head
      obtain ⟨rfl, -⟩ := List.cons.inj (hw.trans hw')
      rw [scalar_of_peek_number hc hpeek, ← List.cons_append, hw]
      exact gives_number hspells hends hrest
  | string s =>
    obtain ⟨c, word, cs', hpeek, hword, hrest⟩ := h.peek
    cases hword with
    | @string _ body hspells =>
      rw [List.append_assoc, List.singleton_append] at hpeek
      rw [scalar, Reader.bind_ok hpeek]
      change Gives rest ((Reader.advance >>= fun _ => do return Value.string (← Text.read) :
        Reader Value) ('"' :: (body ++ '"' :: cs'))) _
      rw [Reader.bind_ok (advance_cons ..), Reader.bind_ok (Text.read_append hspells cs')]
      exact .value hrest
  | array vs =>
    obtain ⟨cs', hpeek, -⟩ := h.peek_mark
    rw [scalar, Reader.bind_ok hpeek]
    exact .defect _
  | object ms =>
    obtain ⟨cs', hpeek, -⟩ := h.peek_mark
    rw [scalar, Reader.bind_ok hpeek]
    exact .defect _

/-- A value without parts shows no bracket, and is read. -/
theorem gives_scalar (hv : ∀ m, v.first ≠ .mark m) (hends : Ends rest)
    (h : Spelled (v.tokens ++ rest) cs) : ∃ c cs', Reader.peek cs = .ok (some c, cs') ∧
      c ≠ '[' ∧ c ≠ '\x7b' ∧ Gives rest (scalar cs') (scalar? v) := by
  obtain ⟨c, word, cs', hpeek, hword, hrest⟩ := h.peek_value
  refine ⟨c, cs', hpeek, ?_, ?_, scalar_decodes hends hrest⟩
  · rintro rfl
    exact hv .openArray hword.eq_mark
  · rintro rfl
    exact hv .openObject hword.eq_mark

theorem token_decodes : token.Decodes scalar? := by
  intro v rest cs hends h
  cases v with
  | array vs | object ms =>
    obtain ⟨c, word, cs', hpeek, hword, -⟩ := h.peek_value
    cases hword
    rw [token, Reader.bind_ok hpeek]
    exact .defect _
  | _ =>
    obtain ⟨c, cs', hpeek, harray, hobject, hscalar⟩ := gives_scalar (by rintro _ ⟨⟩) hends h
    have htoken : token cs = scalar cs' := by
      rw [token, Reader.bind_ok hpeek]
      refine congrFun ?_ cs'
      simp [harray, hobject]
    rw [htoken]
    exact hscalar

/-- The natural number below a bound that a value is. -/
def natural? (bound : Nat) : Value → Option Nat
  | .number n => n.toNat?.filter (· < bound)
  | _ => none

theorem natural?_nat {bound n : Nat} (h : n < bound) : natural? bound (.nat n) = some n := by
  simp [Value.nat, natural?, h]

/-- **Natural numbers of at most 64 bits.** -/
theorem natural_decodes {bound : Nat} (hbound : bound ≤ UInt64.size) :
    (natural bound).Decodes (natural? bound) := by
  intro v rest cs hends h
  have hscalar : natural? bound v = (scalar? v).bind (natural? bound) := by
    cases v with
    | number n =>
      rw [scalar?, natural?]
      cases hk : n.toNat? with
      | none => split <;> simp [natural?, hk]
      | some k =>
        by_cases hlt : k < bound
        · rw [if_pos (Numeral.isFinite_of_toNat? hk (hlt.trans_le hbound))]
          simp [natural?, hk]
        · split <;> simp [natural?, hk, Nat.le_of_not_lt hlt]
    | _ => rfl
  rw [hscalar]
  refine (token_decodes hends h).bind fun {a cs'} hrest => ?_
  cases a with
  | number n =>
    rw [natural?]
    cases hk : n.toNat? with
    | none =>
      simp only [hk]
      exact .defect _
    | some k =>
      simp only [hk, Option.filter_some]
      by_cases hlt : k < bound
      · rw [if_pos hlt, if_pos (decide_eq_true hlt)]
        exact .value hrest
      · rw [if_neg hlt, if_neg (by simpa using hlt)]
        exact .defect _
  | _ => exact .defect _

/-- A value or null. -/
def nullable? (f : Value → Option α) : Value → Option (Option α)
  | .null => some none
  | v => (f v).map some

/-- **A value or null.** -/
theorem nullable_decodes {r : Reader α} {f : Value → Option α} (hr : r.Decodes f) :
    (nullable r).Decodes (nullable? f) := by
  intro v rest cs hends h
  cases v with
  | null =>
    obtain ⟨c, word, cs', hpeek, hword, hrest⟩ := Spelled.peek h
    cases hword
    have hliteral : Reader.literal ['n', 'u', 'l', 'l'] ('n' :: (['u', 'l', 'l'] ++ cs')) =
        .ok ((), cs') := Reader.literal_append ['n', 'u', 'l', 'l'] cs'
    rw [nullable, Reader.bind_ok hpeek, if_pos rfl, Reader.bind_ok hliteral]
    exact .value hrest
  | bool b | number n | string s | array vs | object ms =>
    obtain ⟨c, word, cs', hpeek, hword, hv⟩ := h.peek_value
    have hc : ¬ some c = some 'n' := by
      rintro ⟨⟩
      cases hword.eq_null
    rw [nullable, Reader.bind_ok hpeek, if_neg hc]
    exact (hr hends hv).map some

theorem nullable?_nat? {bound : Nat} {n : Option Nat} (h : ∀ k ∈ n, k < bound) :
    nullable? (natural? bound) (.nat? n) = some n := by
  cases n with
  | none => rfl
  | some k => exact congrArg (Option.map some) (natural?_nat (h k rfl))

/-- What undoes a function on each item undoes it on a list. -/
theorem mapM_map {β γ : Type} {f : γ → Option β} {g : β → γ} :
    {bs : List β} → (∀ b ∈ bs, f (g b) = some b) → (bs.map g).mapM f = some bs
  | [], _ => rfl
  | b :: bs, h => by
    rw [List.forall_mem_cons] at h
    rw [List.map_cons, List.mapM_cons, h.1, mapM_map h.2]
    rfl

theorem mapM_nat? {bound : Nat} {ns : List (Option Nat)} (h : ∀ n ∈ ns, ∀ k ∈ n, k < bound) :
    (ns.map Value.nat?).mapM (nullable? (natural? bound)) = some ns :=
  mapM_map fun n hn => nullable?_nat? (h n hn)

/-! ## Arrays -/

theorem ends_mark (m : Mark) (rest : List Token) : Ends (.mark m :: rest) := by
  rintro t ⟨⟩
  exact ⟨m, rfl⟩

/-- Behind an item comes a comma or the closing bracket. -/
theorem ends_itemTokens (vs : List Value) (m : Mark) (rest : List Token) :
    Ends (itemTokens false vs ++ .mark m :: rest) := by
  cases vs with
  | nil => exact ends_mark m rest
  | cons v vs => exact ends_mark .comma _

/-- At the closing bracket there is no other item. -/
theorem anotherItem_close (first : Bool) (h : Spelled (.mark .closeArray :: rest) cs) :
    ∃ cs', anotherItem first cs = .ok (false, ']' :: cs') ∧ Spelled rest cs' := by
  obtain ⟨cs', hpeek, hrest⟩ := h.peek_mark
  refine ⟨cs', ?_, hrest⟩
  rw [anotherItem, Reader.bind_ok hpeek]
  rfl

/-- Otherwise the next item follows, after a comma unless it is the first. -/
theorem anotherItem_value (first : Bool)
    (h : Spelled (separator first ++ (v.tokens ++ rest)) cs) :
    ∃ cs', anotherItem first cs = .ok (true, cs') ∧ Spelled (v.tokens ++ rest) cs' := by
  cases first with
  | true =>
    obtain ⟨c, word, cs', hpeek, hword, hv⟩ := Spelled.peek_value h
    have hc : c ≠ ']' := hword.ne_char v.opens_first (m := .closeArray) rfl
    refine ⟨cs', ?_, hv⟩
    rw [anotherItem, Reader.bind_ok hpeek]
    refine congrFun (?_ : _ = (pure true : Reader Bool)) _
    simp
  | false =>
    obtain ⟨cs₁, hcomma, hrest⟩ := Spelled.peek_mark h
    obtain ⟨c, word, cs', hpeek, hword, hv⟩ := Spelled.peek_value hrest
    have hc : c ≠ ']' := hword.ne_char v.opens_first (m := .closeArray) rfl
    refine ⟨cs', ?_, hv⟩
    rw [anotherItem, Reader.bind_ok hcomma]
    change (Reader.advance >>= _ : Reader Bool) (',' :: cs₁) = _
    rw [Reader.bind_ok (advance_cons ..), Reader.bind_ok hpeek]
    refine congrFun (?_ : _ = (pure true : Reader Bool)) _
    simp

/-- One more result is found in front of the others. -/
theorem map_mapM_cons {γ δ : Type} (f : γ → Option δ) (c : γ) (l : List γ) (sofar : Array δ) :
    ((c :: l).mapM f).map (fun found => sofar ++ found.toArray) =
      (f c).bind fun d => (l.mapM f).map fun found => sofar.push d ++ found.toArray := by
  rw [List.mapM_cons]
  cases f c with
  | none => rfl
  | some d => cases l.mapM f <;> simp

/-- What has been found is given as a list. -/
theorem gives_toList {γ : Type} {result : Except Defect (Array γ × List Char)}
    {o : Option (List γ)} (h : Gives rest result (o.map fun found => #[] ++ found.toArray)) :
    Gives rest (result.bind fun found => .ok (found.1.toList, found.2)) o := by
  cases o with
  | none =>
    cases h
    exact .defect _
  | some found =>
    cases h with
    | value hrest =>
      change Gives rest (.ok ((#[] ++ found.toArray).toList, _)) (some found)
      rw [Array.empty_append]
      exact .value hrest

/-- **Items up to the closing bracket.** -/
theorem gives_itemsFrom {item : Reader α} {f : Value → Option α} (hitem : item.Decodes f)
    (vs : List Value) {fuel : Nat} (hfuel : vs.length < fuel) (first : Bool)
    (sofar : Array α) (h : Spelled (itemTokens first vs ++ .mark .closeArray :: rest) cs) :
    Gives rest (itemsFrom item fuel first sofar cs)
      ((vs.mapM f).map fun found => sofar ++ found.toArray) := by
  induction vs generalizing fuel first sofar cs with
  | nil =>
    obtain ⟨fuel, rfl⟩ := Nat.exists_eq_add_one_of_ne_zero (Nat.ne_of_gt hfuel)
    obtain ⟨cs', hanother, hrest⟩ := anotherItem_close first h
    rw [itemsFrom, Reader.bind_ok hanother]
    change Gives rest (.ok (sofar, cs')) (some (sofar ++ #[]))
    rw [Array.append_empty]
    exact .value hrest
  | cons v vs ih =>
    obtain ⟨fuel, rfl⟩ := Nat.exists_eq_add_one_of_ne_zero (Nat.ne_of_gt (Nat.zero_lt_of_lt hfuel))
    rw [itemTokens, List.append_assoc, List.append_assoc] at h
    obtain ⟨cs', hanother, hrest⟩ := anotherItem_value first h
    rw [itemsFrom, Reader.bind_ok hanother, if_pos rfl]
    rw [map_mapM_cons]
    exact (hitem (ends_itemTokens vs _ rest) hrest).bind fun hrest' =>
      ih (Nat.lt_of_succ_lt_succ hfuel) false _ hrest'

theorem length_le_itemTokens (vs : List Value) (first : Bool) :
    vs.length ≤ (itemTokens first vs).length := by
  induction vs generalizing first with
  | nil => exact Nat.zero_le _
  | cons v vs ih =>
    obtain ⟨ts, htokens⟩ := v.exists_tokens
    have := ih false
    rw [itemTokens, htokens]
    simp only [List.length_append, List.length_cons]
    omega

/-- There are no more items than characters. -/
theorem length_lt_of_items {vs : List Value} (h : Spelled (itemTokens true vs ++ rest) cs) :
    vs.length < cs.length + 1 :=
  Nat.lt_succ_of_le ((length_le_itemTokens vs true).trans h.length_le_left)

/-- **Items after the opening bracket.** -/
theorem gives_itemsRest {item : Reader α} {f : Value → Option α} (hitem : item.Decodes f)
    (vs : List Value)
    (h : Spelled (itemTokens true vs ++ .mark .closeArray :: rest) cs) :
    Gives rest (itemsRest item cs) (vs.mapM f) :=
  gives_toList (gives_itemsFrom hitem vs (length_lt_of_items h) true #[] h)

theorem tokens_array (vs : List Value) (rest : List Token) : (Value.array vs).tokens ++ rest =
    .mark .openArray :: (itemTokens true vs ++ .mark .closeArray :: rest) := by
  simp [Value.tokens]

/-- Where an array is wanted, anything else is refused. -/
theorem openArray_error (hv : ∀ vs, v ≠ .array vs) (hends : Ends rest)
    (h : Spelled (v.tokens ++ rest) cs) : ∃ d, openArray cs = .error d := by
  obtain ⟨c, word, cs', hpeek, hword, hrest⟩ := h.peek_value
  have hc : c ≠ '[' := by
    rintro rfl
    have hfirst := hword.eq_mark (m := .openArray)
    cases v with
    | array vs => exact hv vs rfl
    | _ => cases hfirst
  have htoken := token_decodes hends hrest
  rw [openArray, Reader.bind_ok hpeek, if_neg (by simpa using hc)]
  generalize hresult : token cs' = result at htoken
  generalize scalar? v = wanted at htoken
  cases htoken with
  | value _ => exact ⟨_, Reader.bind_ok hresult _⟩
  | defect d => exact ⟨d, Reader.bind_error hresult _⟩

/-- The bracket of an array is taken. -/
theorem openArray_array {vs : List Value} (h : Spelled ((Value.array vs).tokens ++ rest) cs) :
    ∃ cs', openArray cs = .ok ((), cs') ∧
      Spelled (itemTokens true vs ++ .mark .closeArray :: rest) cs' := by
  rw [tokens_array] at h
  obtain ⟨cs', hpeek, hrest⟩ := h.peek_mark
  refine ⟨cs', ?_, hrest⟩
  rw [openArray, Reader.bind_ok hpeek]
  rfl

/-- The items of an array, if each of them is one. -/
def items? (f : Value → Option α) : Value → Option (List α)
  | .array vs => vs.mapM f
  | _ => none

/-- **An array of any length.** -/
theorem items_decodes {item : Reader α} {f : Value → Option α} (hitem : item.Decodes f) :
    (items item).Decodes (items? f) := by
  intro v rest cs hends h
  cases v with
  | array vs =>
    obtain ⟨cs', hopen, hrest⟩ := openArray_array h
    rw [items, Reader.bind_ok hopen]
    exact gives_itemsRest hitem vs hrest
  | null | bool b | number n | string s | object ms =>
    obtain ⟨d, hopen⟩ := openArray_error (by simp) hends h
    rw [items, Reader.bind_error hopen]
    exact .defect d

/-! ## Objects -/

theorem tokens_object (ms : List (String × Value)) (rest : List Token) :
    (Value.object ms).tokens ++ rest =
      .mark .openObject :: (memberTokens true ms ++ .mark .closeObject :: rest) := by
  simp [Value.tokens]

theorem ends_memberTokens (ms : List (String × Value)) (m : Mark) (rest : List Token) :
    Ends (memberTokens false ms ++ .mark m :: rest) := by
  cases ms with
  | nil => exact ends_mark m rest
  | cons member ms => exact ends_mark .comma _

/-- At the closing bracket there is no other member. -/
theorem anotherKey_close (first : Bool) (h : Spelled (.mark .closeObject :: rest) cs) :
    ∃ cs', anotherKey first cs = .ok (false, '\x7d' :: cs') ∧ Spelled rest cs' := by
  obtain ⟨cs', hpeek, hrest⟩ := h.peek_mark
  refine ⟨cs', ?_, hrest⟩
  rw [anotherKey, Reader.bind_ok hpeek]
  rfl

/-- Otherwise the next key follows, after a comma unless it is the first, and then its colon. -/
theorem anotherKey_member (first : Bool) {k : String}
    (h : Spelled (separator first ++ .string k :: .mark .colon :: rest) cs) :
    ∃ cs₁ cs₂ cs', anotherKey first cs = .ok (true, cs₁) ∧ key cs₁ = .ok (k, cs₂) ∧
      Skip.colon cs₂ = .ok ((), cs') ∧ Spelled rest cs' := by
  have hkey {cs : List Char} (h : Spelled (.string k :: .mark .colon :: rest) cs) :
      ∃ cs₁ cs₂ cs', Reader.peek cs = .ok (some '"', cs₁) ∧ key cs₁ = .ok (k, cs₂) ∧
        Skip.colon cs₂ = .ok ((), cs') ∧ Spelled rest cs' := by
    obtain ⟨c, word, cs₂, hpeek, hword, hcolon⟩ := h.peek
    obtain ⟨cs', hpeek', hrest⟩ := hcolon.peek_mark
    cases hword with
    | @string _ body hspells =>
      rw [List.append_assoc, List.singleton_append] at hpeek
      refine ⟨_, cs₂, cs', hpeek, ?_, ?_, hrest⟩
      · rw [key, Reader.bind_ok (advance_cons ..), Text.read_append hspells]
      · rw [Skip.colon, Reader.bind_ok hpeek']
        rfl
  cases first with
  | true =>
    obtain ⟨cs₁, cs₂, cs', hpeek, hnext⟩ := hkey h
    refine ⟨cs₁, cs₂, cs', ?_, hnext⟩
    rw [anotherKey, Reader.bind_ok hpeek]
    rfl
  | false =>
    obtain ⟨cs₀, hcomma, hrest⟩ := Spelled.peek_mark h
    obtain ⟨cs₁, cs₂, cs', hpeek, hnext⟩ := hkey hrest
    refine ⟨cs₁, cs₂, cs', ?_, hnext⟩
    rw [anotherKey, Reader.bind_ok hcomma]
    change (Reader.advance >>= _ : Reader Bool) (',' :: cs₀) = _
    rw [Reader.bind_ok (advance_cons ..), Reader.bind_ok hpeek]
    rfl

theorem length_le_memberTokens (ms : List (String × Value)) (first : Bool) :
    ms.length ≤ (memberTokens first ms).length := by
  induction ms generalizing first with
  | nil => exact Nat.zero_le _
  | cons member ms ih =>
    have := ih false
    rw [memberTokens]
    simp only [List.length_append, List.length_cons]
    omega

/-- There are no more members than characters. -/
theorem length_lt_of_members {ms : List (String × Value)}
    (h : Spelled (memberTokens true ms ++ rest) cs) : ms.length < cs.length + 1 :=
  Nat.lt_succ_of_le ((length_le_memberTokens ms true).trans h.length_le_left)

/-- **Members up to the closing bracket.** -/
theorem gives_membersFrom {member : Reader α} {f : Value → Option α} (hmember : member.Decodes f)
    (ms : List (String × Value)) {fuel : Nat} (hfuel : ms.length < fuel) (first : Bool)
    (sofar : Array (String × α))
    (h : Spelled (memberTokens first ms ++ .mark .closeObject :: rest) cs) :
    Gives rest (membersFrom member fuel first sofar cs)
      ((ms.mapM fun m => (f m.2).map (m.1, ·)).map fun found => sofar ++ found.toArray) := by
  induction ms generalizing fuel first sofar cs with
  | nil =>
    obtain ⟨fuel, rfl⟩ := Nat.exists_eq_add_one_of_ne_zero (Nat.ne_of_gt hfuel)
    obtain ⟨cs', hanother, hrest⟩ := anotherKey_close first h
    rw [membersFrom, Reader.bind_ok hanother]
    change Gives rest (.ok (sofar, cs')) (some (sofar ++ #[]))
    rw [Array.append_empty]
    exact .value hrest
  | cons m ms ih =>
    obtain ⟨k, v⟩ := m
    obtain ⟨fuel, rfl⟩ := Nat.exists_eq_add_one_of_ne_zero (Nat.ne_of_gt (Nat.zero_lt_of_lt hfuel))
    rw [memberTokens, List.append_assoc, List.cons_append, List.cons_append, List.append_assoc] at h
    obtain ⟨cs₁, cs₂, cs', hanother, hkey, hcolon, hrest⟩ := anotherKey_member first h
    rw [membersFrom, Reader.bind_ok hanother, if_pos rfl, Reader.bind_ok hkey,
      Reader.bind_ok hcolon, map_mapM_cons, Option.bind_map]
    exact (hmember (ends_memberTokens ms _ rest) hrest).bind fun hrest' =>
      ih (Nat.lt_of_succ_lt_succ hfuel) false _ hrest'

/-- **Members after the opening bracket.** -/
theorem gives_membersRest {member : Reader α} {f : Value → Option α}
    (hmember : member.Decodes f) (ms : List (String × Value))
    (h : Spelled (memberTokens true ms ++ .mark .closeObject :: rest) cs) :
    Gives rest (membersRest member cs) (ms.mapM fun m => (f m.2).map (m.1, ·)) :=
  gives_toList (gives_membersFrom hmember ms (length_lt_of_members h) true #[] h)

/-! ## Values of any kind -/

/-- A value whose brackets nest at most this deep and whose numbers fit a double. -/
def fits : (depth : Nat) → Value → Bool
  | 0, .array _ | 0, .object _ => false
  | depth + 1, .array vs => vs.all (fits depth)
  | depth + 1, .object ms => ms.all fun m => fits depth m.2
  | _, .number n => n.isFinite
  | _, _ => true

/-- A value that can be kept. -/
def kept? (depth : Nat) (v : Value) : Option Value :=
  if fits depth v then some v else none

theorem mapM_kept? (depth : Nat) (vs : List Value) :
    vs.mapM (kept? depth) = if vs.all (fits depth) then some vs else none := by
  induction vs with
  | nil => rfl
  | cons v vs ih =>
    rw [List.mapM_cons, ih, kept?, List.all_cons]
    cases fits depth v <;> cases vs.all (fits depth) <;> rfl

theorem mapM_kept?_members (depth : Nat) (ms : List (String × Value)) :
    ms.mapM (fun m => (kept? depth m.2).map (m.1, ·)) =
      if ms.all fun m => fits depth m.2 then some ms else none := by
  induction ms with
  | nil => rfl
  | cons m ms ih =>
    rw [List.mapM_cons, ih, kept?, List.all_cons]
    cases fits depth m.2 <;> cases ms.all fun m => fits depth m.2 <;> rfl

/-- A value without parts, at any depth. -/
theorem gives_value_scalar (depth : Nat) (hv : ∀ m, v.first ≠ .mark m) (hends : Ends rest)
    (h : Spelled (v.tokens ++ rest) cs) : Gives rest (value depth cs) (scalar? v) := by
  obtain ⟨c, cs', hpeek, harray, hobject, hscalar⟩ := gives_scalar hv hends h
  have hvalue : value depth cs = scalar cs' := by
    cases depth <;> rw [value, Reader.bind_ok hpeek] <;>
    · refine congrFun ?_ cs'
      simp [harray, hobject]
  rw [hvalue]
  exact hscalar

theorem kept?_array (depth : Nat) (vs : List Value) :
    kept? (depth + 1) (.array vs) = (vs.mapM (kept? depth)).map .array := by
  rw [mapM_kept?, kept?, fits]
  cases vs.all (fits depth) <;> rfl

theorem kept?_object (depth : Nat) (ms : List (String × Value)) :
    kept? (depth + 1) (.object ms) =
      (ms.mapM fun m => (kept? depth m.2).map (m.1, ·)).map .object := by
  rw [mapM_kept?_members, kept?, fits]
  cases ms.all fun m => fits depth m.2 <;> rfl

/-- **A value of any kind.** -/
theorem value_decodes (depth : Nat) : (value depth).Decodes (kept? depth) := by
  induction depth with
  | zero =>
    intro v rest cs hends h
    cases v with
    | array vs | object ms =>
      obtain ⟨c, word, cs', hpeek, hword, -⟩ := h.peek_value
      cases hword
      rw [value, Reader.bind_ok hpeek]
      exact .defect _
    | _ => exact gives_value_scalar 0 (by rintro _ ⟨⟩) hends h
  | succ depth ih =>
    intro v rest cs hends h
    cases v with
    | array vs =>
      rw [tokens_array] at h
      obtain ⟨cs', hpeek, hrest⟩ := h.peek_mark
      rw [value, Reader.bind_ok hpeek, kept?_array]
      exact (gives_itemsRest ih vs hrest).map _
    | object ms =>
      rw [tokens_object] at h
      obtain ⟨cs', hpeek, hrest⟩ := h.peek_mark
      rw [value, Reader.bind_ok hpeek, kept?_object]
      exact (gives_membersRest ih ms hrest).map _
    | _ => exact gives_value_scalar _ (by rintro _ ⟨⟩) hends h

end Read

end Tomasulo.Json
