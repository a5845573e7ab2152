import Mathlib.Data.List.Basic
import Tomasulo.Proofs.Json.Decode
import Tomasulo.Proofs.Json.Written
import Tomasulo.Trace.Timeline

/-!
# Proofs/TimelineText — the timeline can be read back

A column pads a cell with blanks but never cuts it, and columns stand one blank apart.  So splitting
a line at its blanks gives its cells, however long they are (`Timeline.words_line`), and each cell
of a record is read back as the number, the class or the cycle it shows
(`Timeline.Row.ofWords?_cells`).  Together: the table tells all it shows of a trace
(`Timeline.text_lossless`).
-/

namespace Tomasulo

/-! ## Lines -/

/-- Lines without line feeds are what splitting at line feeds gives; nothing follows the last. -/
theorem splitOn_unlines : {lines : List String} → (∀ line ∈ lines, '\n' ∉ line.toList) →
    (unlines lines).toList.splitOn '\n' = lines.map String.toList ++ [[]]
  | [], _ => rfl
  | line :: lines, h => by
    rw [List.forall_mem_cons] at h
    have htext : (unlines (line :: lines)).toList =
        line.toList ++ '\n' :: (unlines lines).toList := by
      simp [unlines]
    have hline : ∀ c ∈ line.toList, (c == '\n') = false := fun c hc =>
      beq_false_of_ne fun hfeed => h.1 (hfeed ▸ hc)
    rw [htext, List.splitOn_eq_splitOnP,
      List.splitOnP_append_cons_of_forall_mem hline '\n' rfl, ← List.splitOn_eq_splitOnP,
      splitOn_unlines h.2, List.map_cons, List.cons_append]

namespace Timeline

/-! ## Words -/

/-- What stands between the blanks of a line. -/
def words (line : List Char) : List (List Char) :=
  (line.splitOn ' ').filter (· ≠ [])

/-- A text in which no word or line ends. -/
structure IsWord (word : List Char) : Prop where
  ne_nil : word ≠ []
  blank : ' ' ∉ word
  feed : '\n' ∉ word

instance : DecidablePred IsWord := fun word =>
  decidable_of_iff (word ≠ [] ∧ ' ' ∉ word ∧ '\n' ∉ word)
    ⟨fun ⟨hne, hblank, hfeed⟩ => ⟨hne, hblank, hfeed⟩,
      fun ⟨hne, hblank, hfeed⟩ => ⟨hne, hblank, hfeed⟩⟩

theorem words_nil : words [] = [] := by
  simp [words]

/-- A blank ends a word. -/
theorem words_append_blank (front back : List Char) :
    words (front ++ ' ' :: back) = words front ++ words back := by
  simp only [words, List.splitOn_eq_splitOnP]
  rw [List.splitOnP_append_cons front back rfl, List.filter_append]

/-- A word is all there is of its words. -/
theorem IsWord.words {word : List Char} (h : IsWord word) : words word = [word] := by
  have hblank : ∀ c ∈ word, (c == ' ') = false := fun c hc =>
    beq_false_of_ne fun hblank => h.blank (hblank ▸ hc)
  rw [Timeline.words, List.splitOn_eq_splitOnP, List.splitOnP_eq_singleton hblank]
  simp [h.ne_nil]

/-- Blanks before a text add no words. -/
theorem words_blanks_append (n : Nat) (text : List Char) :
    words (List.replicate n ' ' ++ text) = words text := by
  induction n with
  | zero => rfl
  | succ n ih => rw [List.replicate_succ, List.cons_append, ← List.nil_append (' ' :: _),
      words_append_blank, words_nil, ih, List.nil_append]

/-- Blanks after a text add no words. -/
theorem words_append_blanks (n : Nat) (text : List Char) :
    words (text ++ List.replicate n ' ') = words text := by
  cases n with
  | zero => rw [List.replicate_zero, List.append_nil]
  | succ n =>
    have hblanks := words_blanks_append n []
    rw [List.append_nil, words_nil] at hblanks
    rw [List.replicate_succ, words_append_blank, hblanks, List.append_nil]

/-- Words of texts that stand one blank apart. -/
theorem words_intercalate : (texts : List (List Char)) →
    words ([' '].intercalate texts) = texts.flatMap words
  | [] => words_nil
  | [text] => by simp
  | text :: next :: texts => by
    rw [List.intercalate_cons_cons, List.append_assoc, List.singleton_append, words_append_blank,
      words_intercalate (next :: texts), ← List.flatMap_cons]

/-! ## Columns -/

/-- A column puts blanks around a text. -/
def Column.Pads (column : Column) : Prop :=
  ∀ text, ∃ before after, (column.align text).toList =
    List.replicate before ' ' ++ text.toList ++ List.replicate after ' '

/-- **No column cuts a text.** -/
theorem pads_of_mem_columns : ∀ column ∈ columns, column.Pads := by
  have hright (title : String) (width : Nat) : Column.Pads ⟨title, alignRight width⟩ := fun text =>
    ⟨width - text.toList.length, 0, by simp [alignRight, List.leftpad]⟩
  have hleft (title : String) (width : Nat) : Column.Pads ⟨title, alignLeft width⟩ := fun text =>
    ⟨0, width - text.toList.length, by simp [alignLeft, List.rightpad]⟩
  simp only [columns, Stage.all, List.map_cons, List.map_nil, List.cons_append, List.nil_append,
    List.forall_mem_cons]
  exact ⟨hright _ 6, hright _ 10, hleft _ 11, hright _ 8, hright _ 8, hright _ 8, hright _ 8, nofun⟩

/-- A cell is the only word in its column. -/
theorem Column.Pads.words {column : Column} (h : column.Pads) {text : String}
    (htext : IsWord text.toList) : words (column.align text).toList = [text.toList] := by
  obtain ⟨before, after, halign⟩ := h text
  rw [halign, words_append_blanks, words_blanks_append, htext.words]

theorem Column.Pads.feed {column : Column} (h : column.Pads) {text : String}
    (htext : IsWord text.toList) : '\n' ∉ (column.align text).toList := by
  obtain ⟨before, after, halign⟩ := h text
  simp [halign, htext.feed]

/-- The words of aligned cells are the cells. -/
theorem flatMap_words_align : {cs : List Column} → {cells : List String} →
    (∀ c ∈ cs, c.Pads) → (∀ cell ∈ cells, IsWord cell.toList) → cells.length ≤ cs.length →
      (List.zipWith Column.align cs cells).flatMap (words ·.toList) = cells.map String.toList
  | [], [], _, _, _ => rfl
  | _ :: _, [], _, _, _ => rfl
  | [], _ :: _, _, _, hlength => absurd hlength (Nat.not_succ_le_zero _)
  | c :: cs, cell :: cells, hcs, hcells, hlength => by
    rw [List.forall_mem_cons] at hcs hcells
    rw [List.zipWith_cons_cons, List.flatMap_cons, hcs.1.words hcells.1,
      flatMap_words_align hcs.2 hcells.2 (Nat.le_of_succ_le_succ hlength), List.map_cons,
      List.singleton_append]

/-- **Splitting a line at its blanks gives its cells.** -/
theorem words_line {cells : List String} (hcells : ∀ cell ∈ cells, IsWord cell.toList)
    (hlength : cells.length ≤ columns.length) :
    words (line cells).toList = cells.map String.toList := by
  have hblank : " ".toList = [' '] := rfl
  rw [line, String.toList_intercalate, hblank, words_intercalate, List.flatMap_map]
  exact flatMap_words_align pads_of_mem_columns hcells hlength

/-- What stands in texts one blank apart is a blank or stands in one of them. -/
theorem mem_intercalate {c : Char} : {texts : List (List Char)} →
    c ∈ [' '].intercalate texts → c = ' ' ∨ ∃ text ∈ texts, c ∈ text
  | [], h => by simp at h
  | [text], h => .inr ⟨text, List.mem_singleton_self text, by simpa using h⟩
  | text :: next :: texts, h => by
    rw [List.intercalate_cons_cons, List.mem_append, List.mem_append, List.mem_singleton] at h
    rcases h with (h | rfl) | h
    · exact .inr ⟨text, List.mem_cons_self .., h⟩
    · exact .inl rfl
    · refine (mem_intercalate h).imp_right fun ⟨text', htext', hc⟩ => ?_
      exact ⟨text', List.mem_cons_of_mem _ htext', hc⟩

/-- A line holds no line feed. -/
theorem feed_notMem_line {cells : List String} (hcells : ∀ cell ∈ cells, IsWord cell.toList) :
    '\n' ∉ (line cells).toList := by
  rw [line, String.toList_intercalate, ← List.map_uncurry_zip_eq_zipWith]
  intro h
  rcases mem_intercalate h with h | ⟨_, htext, h⟩
  · exact absurd h (by decide)
  · obtain ⟨_, haligned, rfl⟩ := List.mem_map.1 htext
    obtain ⟨⟨column, cell⟩, hzip, rfl⟩ := List.mem_map.1 haligned
    obtain ⟨hcolumn, hcell⟩ := List.of_mem_zip hzip
    exact (pads_of_mem_columns column hcolumn).feed (hcells cell hcell) h

/-! ## Rows -/

/-- What a line tells of a record. -/
structure Row where
  index : Nat
  pc : Nat
  op : OpClass
  stamps : Stamps
deriving DecidableEq, Repr

/-- The number in decimal digits. -/
def decimal? (word : List Char) : Option Nat :=
  if !word.isEmpty && word.all Char.isDigit then some (Nat.ofDigitChars 10 word 0) else none

/-- The number in hexadecimal digits after `0x`. -/
def hexadecimal? : List Char → Option Nat
  | '0' :: 'x' :: digits =>
    (digits.mapM Json.Text.hexValue?).map fun ds => ds.foldl (fun n d => n * 16 + d) 0
  | _ => none

/-- The class with this label. -/
def labelled? (word : List Char) : Option OpClass :=
  OpClass.all.find? (·.label.toList == word)

/-- The cycle; a dash, and nothing else, stands for none. -/
def cycle? (word : List Char) : Option (Option Nat) :=
  if word = ['-'] then some none else (decimal? word).map some

/-- **Reads the seven words of a line.** -/
def Row.ofWords? : List (List Char) → Option Row
  | [index, pc, op, dispatch, issue, execute, cdb] => do
    let stamps : Stamps :=
      { dispatch := ← cycle? dispatch
        issue := ← cycle? issue
        execute := ← cycle? execute
        cdb := ← cycle? cdb }
    return { index := ← decimal? index, pc := ← hexadecimal? pc, op := ← labelled? op, stamps }
  | _ => none

/-- What the table tells of a record of class `op`. -/
def Row.of (r : Record) (op : OpClass) : Row :=
  { index := r.index, pc := r.pc.toNat, op, stamps := r.stamps }

/-- The rows of a trace: one for each record whose class is known and no trap. -/
def rows (trace : Trace) : List Row :=
  trace.toList.filterMap fun r => (r.class?.filter (· ≠ .trap)).map (Row.of r)

/-- Decimal digits are read back. -/
theorem decimal?_toDigits (n : Nat) : decimal? (Nat.toDigits 10 n) = some n := by
  have hdigits := Json.isDigits_toDigits n
  have hall : (!(Nat.toDigits 10 n).isEmpty && (Nat.toDigits 10 n).all Char.isDigit) = true := by
    simpa [List.all_eq_true] using hdigits.all
  rw [decimal?, if_pos hall, Nat.ofDigitChars_ten_toDigits]

/-- Hexadecimal digits and their values: the last digit is written behind those of the quotient. -/
theorem exists_map_digitChar (n : Nat) : ∃ ds : List Nat,
    Nat.toDigits 16 n = ds.map Nat.digitChar ∧ (∀ d ∈ ds, d < 16) ∧
      ds.foldl (fun n d => n * 16 + d) 0 = n := by
  induction n using Nat.strongRecOn with
  | ind n ih =>
    rcases Nat.lt_or_ge n 16 with hn | hn
    · exact ⟨[n], Nat.toDigits_of_lt_base hn, by simpa using hn, by simp⟩
    · obtain ⟨ds, hds, hlt, hvalue⟩ := ih (n / 16) (by omega)
      refine ⟨ds ++ [n % 16], ?_, ?_, ?_⟩
      · rw [Nat.toDigits_of_base_le (by decide) hn, hds, List.map_append, List.map_singleton]
      · exact List.forall_mem_append.2 ⟨hlt, by simpa using Nat.mod_lt n (by decide : 0 < 16)⟩
      · rw [List.foldl_append, hvalue, List.foldl_cons, List.foldl_nil, Nat.div_add_mod' n 16]

/-- A hexadecimal number is its mark and its digits. -/
theorem toList_hex (n : Nat) : (hex n).toList = '0' :: 'x' :: Nat.toDigits 16 n := by
  simp [hex]

/-- Hexadecimal digits are read back. -/
theorem hexadecimal?_hex (n : Nat) : hexadecimal? (hex n).toList = some n := by
  have hdigit : ∀ d < 16, Json.Text.hexValue? d.digitChar = some d := by decide
  obtain ⟨ds, hds, hlt, hvalue⟩ := exists_map_digitChar n
  rw [toList_hex, hexadecimal?, hds, Json.Read.mapM_map fun d hd => hdigit d (hlt d hd),
    Option.map_some, hvalue]

/-- A class is found by its label. -/
theorem labelled?_label (op : OpClass) : labelled? op.label.toList = some op := by
  cases op <;> decide

/-- A cycle or a dash is read back: no number is written as a dash. -/
theorem cycle?_cycleText (cycle : Option Nat) :
    cycle? (cycleText cycle).toList = some cycle := by
  cases cycle with
  | none => rfl
  | some n =>
    have htext : (cycleText (some n)).toList = Nat.toDigits 10 n := by simp [cycleText]
    have hdash : Nat.toDigits 10 n ≠ ['-'] := fun h =>
      absurd ((Json.isDigits_toDigits n).all '-' (by simp [h])) (by decide)
    rw [htext, cycle?, if_neg hdash, decimal?_toDigits, Option.map_some]

/-- **The cells of a record are read back.** -/
theorem Row.ofWords?_cells (r : Record) (op : OpClass) :
    Row.ofWords? ((cells r op).map String.toList) = some (Row.of r op) := by
  simp [cells, Stage.all, Row.ofWords?, decimal?_toDigits, hexadecimal?_hex, labelled?_label,
    cycle?_cycleText, Row.of, Stamps.cycleOf]

theorem isWord_toDigits (n : Nat) : IsWord (Nat.toDigits 10 n) where
  ne_nil := Nat.toDigits_ne_nil
  blank h := absurd ((Json.isDigits_toDigits n).all ' ' h) (by decide)
  feed h := absurd ((Json.isDigits_toDigits n).all '\n' h) (by decide)

/-- A hexadecimal number is a word. -/
theorem isWord_hex (n : Nat) : IsWord (hex n).toList := by
  have hother : ∀ c, (∀ d < 16, d.digitChar ≠ c) → c ∉ Nat.toDigits 16 n := by
    obtain ⟨ds, hds, hlt, -⟩ := exists_map_digitChar n
    intro c hc h
    rw [hds] at h
    obtain ⟨d, hd, hchar⟩ := List.mem_map.1 h
    exact hc d (hlt d hd) hchar
  rw [toList_hex]
  refine ⟨List.cons_ne_nil _ _, ?_, ?_⟩
  · simpa using hother ' ' (by decide)
  · simpa using hother '\n' (by decide)

/-- The cells of a row are words. -/
theorem isWord_cells (r : Record) (op : OpClass) : ∀ cell ∈ cells r op, IsWord cell.toList := by
  have hcycle (cycle : Option Nat) : IsWord (cycleText cycle).toList := by
    cases cycle with
    | none => decide
    | some n => simpa [cycleText] using isWord_toDigits n
  have hlabel : IsWord op.label.toList := by cases op <;> decide
  simp [cells, Stage.all, hcycle, hlabel, isWord_toDigits, isWord_hex]

theorem isWord_titles : ∀ title ∈ columns.map (·.title), IsWord title.toList := by
  decide

/-! ## The table -/

/-- The table is its lines, each ended by a feed. -/
theorem lines_text (trace : Trace) : (text trace).toList.splitOn '\n' =
    (lines trace).map String.toList ++ [[]] := by
  refine splitOn_unlines fun text htext => ?_
  rcases List.mem_cons.1 htext with rfl | hrow
  · exact feed_notMem_line isWord_titles
  · obtain ⟨r, -, hline⟩ := List.mem_filterMap.1 hrow
    obtain ⟨op, -, rfl⟩ := Option.map_eq_some_iff.1 hline
    exact feed_notMem_line (isWord_cells r op)

/-- The lines below the titles are read back. -/
theorem map_ofWords?_lines (trace : Trace) : ((lines trace).tail.map fun text =>
    Row.ofWords? (words text.toList)) = (rows trace).map some := by
  have hrow (r : Record) (op : OpClass) :
      Row.ofWords? (words (line (cells r op)).toList) = some (Row.of r op) := by
    rw [words_line (isWord_cells r op) le_rfl, Row.ofWords?_cells]
  have hclass (r : Record) : r.class?.filter (· ≠ .trap) = r.scheduledClass? := by
    rw [Record.scheduledClass?]
    congr 1
    funext op
    cases op <;> rfl
  simp only [lines, List.tail_cons, rows, List.map_filterMap, Option.map_map, Function.comp_def,
    hrow, hclass]

/-- A text from which the rows of a trace are read: a line of titles, and one line for each row that
falls apart into the words of the row. -/
def Tells (trace : Trace) (text : List Char) : Prop :=
  ∃ titles lines, text.splitOn '\n' = titles :: (lines ++ [[]]) ∧
    words titles = columns.map (·.title.toList) ∧
    lines.map (fun line => Row.ofWords? (words line)) = (rows trace).map some

/-- The rows of a trace are read from its table. -/
theorem tells_text (trace : Trace) : Tells trace (text trace).toList := by
  refine ⟨(line (columns.map (·.title))).toList, (lines trace).tail.map String.toList,
    ?_, ?_, ?_⟩
  · exact lines_text trace
  · rw [words_line isWord_titles (by simp), List.map_map]
    rfl
  · rw [List.map_map]
    exact map_ofWords?_lines trace

/-- **The timeline tells all it shows of a trace.**  It consists of a line of titles and one line
for each row of the trace, and splitting such a line at its blanks gives seven words that read back
as the row.  So traces with the same timeline have the same rows. -/
theorem text_lossless (trace : Trace) :
    (∃ titles lines, (text trace).toList.splitOn '\n' = titles :: (lines ++ [[]]) ∧
      words titles = columns.map (·.title.toList) ∧
      lines.map (fun line => Row.ofWords? (words line)) = (rows trace).map some) ∧
    ∀ trace' : Trace, text trace' = text trace → rows trace' = rows trace := by
  refine ⟨tells_text trace, fun trace' htext => ?_⟩
  have hlines : lines trace' = lines trace := by
    have hsplit := lines_text trace'
    rw [htext, lines_text trace, List.append_cancel_right_eq] at hsplit
    exact (List.map_injective_iff.2 (fun _ _ => String.toList_injective) hsplit).symm
  have hrows := map_ofWords?_lines trace'
  rw [hlines, map_ofWords?_lines] at hrows
  exact (List.map_injective_iff.2 (Option.some_injective _) hrows).symm

end Timeline

end Tomasulo
