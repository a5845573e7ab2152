import Tomasulo.Json.Shape
import Tomasulo.Proofs.Json.Ignored

/-!
# Proofs/Json/Objects — an object is read member by member

`ObjectText` takes the text of an object apart into keys and the texts of their values.  A shape
that allows other keys reads such a text from left to right: every known key makes a step on the
draft, every other key is passed over with its value, and what comes out is the draft after all
steps (`Shape.read_takes`).
-/

namespace Tomasulo.Json

/-! ## Texts of objects -/

/-- The members of an object, each a key and the text of its value, up to the closing bracket. -/
inductive MemberText : (first : Bool) → List (String × List Char) → List Char → Prop where
  | nil {first : Bool} {close : List Char} (hclose : Spelled [.mark .closeObject] close) :
    MemberText first [] close
  | cons {first : Bool} {key : String} {front word rest : List Char}
    {ms : List (String × List Char)} (hfront : Spelled (separator first ++ [.string key]) front)
    (hrest : MemberText false ms rest) :
    MemberText first ((key, word) :: ms) (front ++ ':' :: (word ++ rest))

/-- **A text that is an object** with these members. -/
def ObjectText (ms : List (String × List Char)) (text : List Char) : Prop :=
  ∃ blanks body, (∀ b ∈ blanks, isBlank b = true) ∧ MemberText true ms body ∧
    text = blanks ++ '\x7b' :: body

namespace Spelled

variable {t : Token} {ts : List Token} {cs : List Char}

/-- A text splits where its tokens do. -/
theorem split : ∀ {ts : List Token} {rest : List Token} {cs : List Char}, Spelled (ts ++ rest) cs →
    ∃ front back, cs = front ++ back ∧ Spelled ts front ∧ Spelled rest back
  | [], _, cs, h => ⟨[], cs, rfl, .nil nofun, h⟩
  | _ :: _, _, _, .cons hblanks hword hrest =>
    let ⟨front, back, hcs, hfront, hback⟩ := split hrest
    ⟨_, back, by rw [hcs, List.append_assoc, List.append_assoc], .cons hblanks hword hfront, hback⟩

/-- Blanks may stand behind the last token. -/
theorem append_blanks {blanks : List Char} (hblanks : ∀ b ∈ blanks, isBlank b = true)
    (h : Spelled ts cs) : Spelled ts (cs ++ blanks) := by
  induction h with
  | nil hend =>
    exact .nil fun b hb => (List.mem_append.1 hb).elim (hend b) (hblanks b)
  | cons hlead hword _ ih =>
    rw [List.append_assoc, List.append_assoc]
    exact .cons hlead hword ih

/-- The next token shows its first character, whatever stands behind the last. -/
theorem peek_append (h : Spelled (t :: ts) cs) (tail : List Char) : ∃ c word rest,
    Reader.peek (cs ++ tail) = .ok (some c, c :: (word ++ (rest ++ tail))) ∧
      t.Spells (c :: word) ∧ Spelled ts rest := by
  obtain ⟨c, word, rest, hdrop, hword, hrest⟩ := h.dropWhile_isBlank
  refine ⟨c, word, rest, ?_, hword, hrest⟩
  rw [Reader.peek_eq, List.dropWhile_append, hdrop, if_neg (by simp), List.head?_append,
    List.head?_cons, Option.some_or, List.cons_append, List.append_assoc]

/-- A mark is its character. -/
theorem peek_mark_append {m : Mark} (h : Spelled (.mark m :: ts) cs) (tail : List Char) : ∃ rest,
    Reader.peek (cs ++ tail) = .ok (some m.char, m.char :: (rest ++ tail)) ∧ Spelled ts rest := by
  obtain ⟨c, word, rest, hpeek, hword, hrest⟩ := h.peek_append tail
  cases hword
  exact ⟨rest, hpeek, hrest⟩

/-- The members of an object that is spelled, with the texts of their values. -/
theorem memberText : ∀ {ms : List (String × Value)} {first : Bool} {cs : List Char},
    Spelled (memberTokens first ms ++ [.mark .closeObject]) cs →
      ∃ words, MemberText first words cs ∧ words.map (·.1) = ms.map (·.1) ∧
        ∀ w ∈ words, ∃ m ∈ ms, w.1 = m.1 ∧ Spelled m.2.tokens w.2
  | [], _, _, h => ⟨[], .nil h, rfl, nofun⟩
  | (key, v) :: ms, first, cs, h => by
    have htokens : memberTokens first ((key, v) :: ms) ++ [.mark .closeObject] =
        (separator first ++ [.string key]) ++ .mark .colon ::
          (v.tokens ++ (memberTokens false ms ++ [.mark .closeObject])) := by
      simp [memberTokens]
    rw [htokens] at h
    obtain ⟨front, back, rfl, hfront, hback⟩ := h.split
    cases hback with
    | cons hblanks hcolon hrest =>
      cases hcolon
      obtain ⟨word, rest, rfl, hword, hmembers⟩ := hrest.split
      obtain ⟨words, hwords, hkeys, hall⟩ := memberText hmembers
      have hcons : MemberText first ((key, word) :: words) _ :=
        .cons (hfront.append_blanks hblanks) hwords
      rw [List.append_assoc] at hcons
      refine ⟨_, hcons, congrArg (key :: ·) hkeys, List.forall_mem_cons.2 ⟨?_, fun w hw => ?_⟩⟩
      · exact ⟨_, List.mem_cons_self .., rfl, hword⟩
      · obtain ⟨m, hm, hspelled⟩ := hall w hw
        exact ⟨m, List.mem_cons_of_mem _ hm, hspelled⟩

/-- An object that is spelled is a text of its members. -/
theorem objectText {ms : List (String × Value)} (h : Spelled (Value.object ms).tokens cs) :
    ∃ words, ObjectText words cs ∧ words.map (·.1) = ms.map (·.1) ∧
      ∀ w ∈ words, ∃ m ∈ ms, w.1 = m.1 ∧ Spelled m.2.tokens w.2 := by
  rw [Value.tokens] at h
  cases h with
  | cons hblanks hopen hrest =>
    cases hopen
    obtain ⟨words, hwords, hmembers⟩ := memberText hrest
    exact ⟨words, ⟨_, _, hblanks, hwords, rfl⟩, hmembers⟩

end Spelled

namespace MemberText

variable {first : Bool} {ms : List (String × List Char)} {cs : List Char}

/-- There are no more members than characters. -/
theorem length_le (h : MemberText first ms cs) : ms.length ≤ cs.length := by
  induction h with
  | nil _ => exact Nat.zero_le _
  | cons _ _ ih =>
    simp only [List.length_append, List.length_cons]
    omega

theorem blanks_append {blanks : List Char} (hblanks : ∀ b ∈ blanks, isBlank b = true)
    (h : MemberText first ms cs) : MemberText first ms (blanks ++ cs) := by
  cases h with
  | nil hclose => exact .nil (hclose.blanks_append hblanks)
  | cons hfront hrest =>
    rw [← List.append_assoc]
    exact .cons (hfront.blanks_append hblanks) hrest

/-- Behind a member nothing follows that would belong to a number. -/
theorem stops (h : MemberText false ms cs) (tail : List Char) : Numeral.Stops (cs ++ tail) := by
  have hmark {m : Mark} {ts : List Token} {front : List Char}
      (hfront : Spelled (.mark m :: ts) front) (tail : List Char) :
      Numeral.Stops (front ++ tail) := by
    have hhead := hfront.head_of_ends (Read.ends_mark m ts)
    match front with
    | [] => exact absurd hfront.length_le (by simp)
    | c :: front => exact Numeral.stops_cons (hhead c rfl)
  cases h with
  | nil hclose => exact hmark hclose tail
  | cons hfront _ =>
    rw [List.append_assoc]
    exact hmark hfront _

end MemberText

/-! ## Readers on such texts -/

namespace Read

/-- A number that fits a double is taken. Its token is looked at twice: once for a bracket, then
again for what it is. -/
theorem number_takes {n : Numeral} (hfinite : n.isFinite = true) {word : List Char}
    (h : Spelled [.number n] word) : token.Takes word (.number n) := by
  intro tail htail
  obtain ⟨c, w, rest, hpeek, hword, hrest⟩ := h.peek_append tail
  cases hrest with
  | nil hblanks =>
    refine ⟨rest, hblanks, ?_⟩
    generalize hw : c :: w = number at hword
    cases hword with
    | number hspells =>
      obtain ⟨c', w', hw', hc⟩ := hspells.head
      obtain ⟨rfl, rfl⟩ := List.cons.inj (hw.trans hw')
      have hnot : c ≠ '[' ∧ c ≠ '\x7b' ∧ isBlank c = false := by
        rcases hc with rfl | hc
        · decide
        · refine ⟨?_, ?_, isBlank_eq_false_of_isDigit hc⟩ <;> rintro rfl <;> cases hc
      have hpeek' : Reader.peek (c :: (w ++ (rest ++ tail))) =
          .ok (some c, c :: (w ++ (rest ++ tail))) := by
        rw [Reader.peek_eq, List.dropWhile_cons_of_neg (by simp [hnot.2.2]), List.head?_cons]
      have htoken : token (word ++ tail) = scalar (c :: (w ++ (rest ++ tail))) := by
        rw [token, Reader.bind_ok hpeek]
        refine congrFun ?_ (c :: (w ++ (rest ++ tail)))
        simp [hnot.1, hnot.2.1]
      have hread : Numeral.read (c :: (w ++ (rest ++ tail))) = .ok (n, rest ++ tail) := by
        rw [← List.cons_append, hw, Numeral.read, Reader.bind_ok
          (Numeral.scan_append hspells (htail.blanks_append hblanks)), if_pos hfinite]
        rfl
      rw [htoken, scalar_of_peek_number hc hpeek', Reader.bind_ok hread]
      rfl

/-- **A natural number is taken**, whatever comes behind it. -/
theorem natural_takes {bound n : Nat} (hbound : bound ≤ UInt64.size) (hn : n < bound)
    {word : List Char} (h : Spelled (Value.nat n).tokens word) : (natural bound).Takes word n := by
  intro tail htail
  have hfinite : (Numeral.ofNat n).isFinite = true :=
    Numeral.isFinite_of_toNat? (Numeral.toNat?_ofNat n) (hn.trans_le hbound)
  obtain ⟨blanks, hblanks, htoken⟩ := number_takes hfinite h htail
  refine ⟨blanks, hblanks, ?_⟩
  rw [natural, Reader.bind_ok htoken]
  simp only [Numeral.toNat?_ofNat, if_pos hn]
  rfl

/-- The next key is found, whatever comes behind it. -/
theorem anotherKey_append (first : Bool) {k : String} {front : List Char}
    (h : Spelled (separator first ++ [.string k]) front) (tail : List Char) :
    ∃ cs₁ blanks, (∀ b ∈ blanks, isBlank b = true) ∧
      anotherKey first (front ++ tail) = .ok (true, cs₁) ∧ key cs₁ = .ok (k, blanks ++ tail) := by
  have hkey {front : List Char} (h : Spelled [.string k] front) : ∃ cs₁ blanks,
      (∀ b ∈ blanks, isBlank b = true) ∧ Reader.peek (front ++ tail) = .ok (some '"', cs₁) ∧
        key cs₁ = .ok (k, blanks ++ tail) := by
    obtain ⟨c, w, rest, hpeek, hword, hrest⟩ := h.peek_append tail
    cases hrest with
    | nil hblanks =>
      cases hword with
      | @string _ body hspells =>
        rw [List.append_assoc, List.singleton_append] at hpeek
        refine ⟨_, _, hblanks, hpeek, ?_⟩
        rw [key, Reader.bind_ok (advance_cons ..), Text.read_append hspells]
  cases first with
  | true =>
    obtain ⟨cs₁, blanks, hblanks, hpeek, hread⟩ := hkey h
    refine ⟨cs₁, blanks, hblanks, ?_, hread⟩
    rw [anotherKey, Reader.bind_ok hpeek]
    rfl
  | false =>
    obtain ⟨rest, hcomma, hrest⟩ := Spelled.peek_mark_append h tail
    obtain ⟨cs₁, blanks, hblanks, hpeek, hread⟩ := hkey hrest
    refine ⟨cs₁, blanks, hblanks, ?_, hread⟩
    rw [anotherKey, Reader.bind_ok hcomma]
    change (Reader.advance >>= _ : Reader Bool) (',' :: (rest ++ tail)) = _
    rw [Reader.bind_ok (advance_cons ..), Reader.bind_ok hpeek]
    rfl

/-- At the closing bracket there is no other key. -/
theorem anotherKey_end (first : Bool) {close : List Char}
    (h : Spelled [.mark .closeObject] close) (tail : List Char) :
    ∃ blanks : List Char, (∀ b ∈ blanks, isBlank b = true) ∧
      anotherKey first (close ++ tail) = .ok (false, '\x7d' :: (blanks ++ tail)) := by
  obtain ⟨rest, hpeek, hrest⟩ := Spelled.peek_mark_append h tail
  cases hrest with
  | nil hblanks =>
    refine ⟨rest, hblanks, ?_⟩
    rw [anotherKey, Reader.bind_ok hpeek]
    rfl

end Read

theorem Skip.colon_append {blanks : List Char} (hblanks : ∀ b ∈ blanks, isBlank b = true)
    (rest : List Char) : colon (blanks ++ ':' :: rest) = .ok ((), rest) := by
  have hpeek : Reader.peek (blanks ++ ':' :: rest) = .ok (some ':', ':' :: rest) := by
    rw [Reader.peek_eq, List.dropWhile_append_of_pos hblanks,
      List.dropWhile_cons_of_neg (by decide), List.head?_cons]
  rw [colon, Reader.bind_ok hpeek]
  rfl

/-! ## Open shapes -/

namespace Shape

variable {σ : Type} {shape : Shape σ} {step : String → σ → σ} {ms : List (String × List Char)}
  {cs : List Char}

/-- **What a member does to the draft**: under a known key its reader takes the text and makes the
step of the key; under any other key the text is well-formed, and the step is none. -/
structure Steps (shape : Shape σ) (step : String → σ → σ) (m : String × List Char) : Prop where
  known : ∀ {member : Member σ}, shape.find? m.1 = some member →
    ∀ draft, (member.read draft).Takes m.2 (step m.1 draft)
  other : shape.find? m.1 = none → WellFormed m.2 ∧ ∀ draft, step m.1 draft = draft

/-- The draft after the steps of these keys. -/
def after (step : String → σ → σ) (keys : List String) (draft : σ) : σ :=
  keys.foldl (fun draft key => step key draft) draft

/-- **Members up to the closing bracket.** What stands under an unknown key is passed over, and its
step is none. -/
theorem membersFrom_takes (hopen : shape.closed = false)
    (hoptional : ∀ m ∈ shape.members, m.absence ≠ .refused) {first : Bool}
    (h : MemberText first ms cs) (hsteps : ∀ m ∈ ms, shape.Steps step m) {seen : List String}
    (honce : ∀ key, (shape.find? key).isSome = true → (ms.map (·.1) ++ seen).count key ≤ 1)
    {fuel : Nat} (hfuel : ms.length < fuel) (draft : σ) (tail : List Char) :
    ∃ blanks : List Char, (∀ b ∈ blanks, isBlank b = true) ∧
      shape.membersFrom fuel first seen draft (cs ++ tail) =
        .ok (after step (ms.map (·.1)) draft, blanks ++ tail) := by
  induction ms generalizing first cs seen fuel draft with
  | nil =>
    obtain ⟨fuel, rfl⟩ := Nat.exists_eq_add_one_of_ne_zero (Nat.ne_of_gt hfuel)
    have hcomplete : shape.isComplete seen = true :=
      List.all_eq_true.2 fun m hm => by simp [hoptional m hm]
    cases h with
    | nil hclose =>
      obtain ⟨blanks, hblanks, hanother⟩ := Read.anotherKey_end first hclose tail
      refine ⟨blanks, hblanks, ?_⟩
      rw [membersFrom, Reader.bind_ok hanother, if_neg Bool.false_ne_true,
        Reader.bind_ok (advance_cons ..), if_pos hcomplete]
      rfl
  | cons m ms ih =>
    obtain ⟨fuel, rfl⟩ := Nat.exists_eq_add_one_of_ne_zero (Nat.ne_of_gt (Nat.zero_lt_of_lt hfuel))
    rw [List.forall_mem_cons] at hsteps
    cases h with
    | @cons _ key front word rest _ hfront hrest =>
      have htext : front ++ ':' :: (word ++ rest) ++ tail =
          front ++ ':' :: (word ++ (rest ++ tail)) := by simp
      obtain ⟨cs₁, blanks, hblanks, hanother, hkey⟩ :=
        Read.anotherKey_append first hfront (':' :: (word ++ (rest ++ tail)))
      have hcolon := Skip.colon_append hblanks (word ++ (rest ++ tail))
      rw [htext, membersFrom, Reader.bind_ok hanother, if_pos rfl, Reader.bind_ok hkey]
      cases hfind : shape.find? key with
      | some member =>
        have hfresh : seen.contains key = false := by
          have hcount := honce key (by rw [hfind]; rfl)
          rw [List.map_cons, List.cons_append, List.count_cons_self, List.count_append] at hcount
          have hzero : seen.count key = 0 := by omega
          simpa using List.count_eq_zero.1 hzero
        obtain ⟨blanks', hblanks', hread⟩ := hsteps.1.known hfind draft (hrest.stops tail)
        simp only [hfresh, Bool.false_eq_true, if_false]
        rw [Reader.bind_ok hcolon, Reader.bind_ok hread, ← List.append_assoc]
        refine ih (hrest.blanks_append hblanks') hsteps.2 (fun k hk => ?_)
          (Nat.lt_of_succ_lt_succ hfuel) (step key draft)
        have hperm : (ms.map (·.1) ++ key :: seen).Perm (((key, word) :: ms).map (·.1) ++ seen) :=
          List.perm_middle
        rw [hperm.count_eq]
        exact honce k hk
      | none =>
        obtain ⟨hwell, hstep⟩ := hsteps.1.other hfind
        obtain ⟨blanks', hblanks', hskip⟩ := Skip.value_takes hwell (hrest.stops tail)
        simp only [hopen, Bool.false_eq_true, if_false]
        rw [Reader.bind_ok hcolon, Reader.bind_ok hskip, ← List.append_assoc]
        have hafter : after step (((key, word) :: ms).map (·.1)) draft =
            after step (ms.map (·.1)) draft := congrArg (after step (ms.map (·.1))) (hstep draft)
        rw [hafter]
        refine ih (hrest.blanks_append hblanks') hsteps.2 (fun k hk => ?_)
          (Nat.lt_of_succ_lt_succ hfuel) draft
        have hle : (ms.map (·.1) ++ seen).count k ≤
            (((key, word) :: ms).map (·.1) ++ seen).count k :=
          (List.sublist_cons_self key _).count_le k
        exact hle.trans (honce k hk)

/-- **An open shape reads an object member by member.** -/
theorem read_takes (hopen : shape.closed = false)
    (hoptional : ∀ m ∈ shape.members, m.absence ≠ .refused) (h : ObjectText ms cs)
    (hsteps : ∀ m ∈ ms, shape.Steps step m)
    (honce : ∀ key, (shape.find? key).isSome = true → (ms.map (·.1)).count key ≤ 1) (draft : σ) :
    (shape.read draft).Takes cs (after step (ms.map (·.1)) draft) := by
  intro tail _
  obtain ⟨blanks, body, hblanks, hbody, rfl⟩ := h
  have hpeek : Reader.peek (blanks ++ '\x7b' :: body ++ tail) =
      .ok (some '\x7b', '\x7b' :: (body ++ tail)) := by
    rw [List.append_assoc, List.cons_append, Reader.peek_eq, List.dropWhile_append_of_pos hblanks,
      List.dropWhile_cons_of_neg (by decide), List.head?_cons]
  have hfuel : ms.length < (body ++ tail).length + 1 := by
    have := hbody.length_le
    rw [List.length_append]
    omega
  rw [read, Reader.bind_ok hpeek]
  exact membersFrom_takes hopen hoptional hbody hsteps (by simpa using honce) hfuel draft tail

end Shape

end Tomasulo.Json
