import Tomasulo.Proofs.TimelineText
import Tomasulo.Stats.Report

/-!
# Proofs/ReportText — a report can be read back

A reader of a report goes by the lines alone (`Report.read`): what is drawn with `=` frames the
report, what is drawn with `-` ends a section, the first line of a section is its title and each of
the others, split at its blanks, a row.  The engine is that no row looks like a frame or a rule,
whatever stands in it (`Report.readLines_part`).  So a report has the sections that are asked for,
in their order, and they carry the statistics (`Report.read_text`).
-/

namespace Tomasulo

open Timeline (words IsWord)

namespace Report

variable {s : Stats} {label value : String} {c : Char}

/-! ## What a report tells -/

/-- What a section tells: the name it is asked for by, its title, and the words of each row. -/
structure Section where
  name : String
  title : String
  rows : List (List String)
deriving DecidableEq, Repr

/-- The cycles, the instructions and their ratios. -/
def summarySection (s : Stats) : Section where
  name := "summary"
  title := "TOMASULO SCHEDULING STATISTICS"
  rows :=
    [["sim_cycles", toString s.cycles], ["sim_insts", toString s.instructions],
     ["sim_traps", toString s.traps],
     ["sim_ipc", fixedPlaces 4 (Stats.ratio s.instructions s.cycles)],
     ["sim_cpi", fixedPlaces 4 (Stats.ratio s.cycles s.instructions)]]

/-- The instructions of each class and their share. -/
def mixSection (s : Stats) : Section where
  name := "instruction_mix"
  title := "INSTRUCTION MIX"
  rows :=
    [("op.load", s.loads), ("op.store", s.stores), ("op.int", s.ints), ("op.fp", s.fps),
     ("op.branch", s.branches)].map fun (label, count) =>
      let percent := Stats.ratio count s.instructions * 100.0
      [label, toString count, "(" ++ fixedPlaces 2 percent ++ "%)"]

/-- The cycles that instructions have waited, and the mean over those that have. -/
def stallsSection (s : Stats) : Section where
  name := "stalls"
  title := "STALLS"
  rows :=
    [("stalls.dispatch", s.queueWait, s.instructions - s.branches),
     ("stalls.issue", s.stationWait, s.started),
     ("stalls.cdb", s.busWait, s.broadcast)].map fun (label, sum, count) =>
      [label, toString sum, "(avg", fixedPlaces 2 (Stats.ratio sum count) ++ ")"]

/-- **What there is to tell of statistics.** -/
def sections (s : Stats) : List Section :=
  [summarySection s, mixSection s, stallsSection s]

/-- A section as it is read. -/
def Section.told (x : Section) : List Char × List (List (List Char)) :=
  (x.title.toList, x.rows.map (·.map String.toList))

/-! ## Reading a report -/

/-- A line of nothing but one character, if of any. -/
def isDrawn (c : Char) (line : List Char) : Bool :=
  line.all (· == c)

/-- The title of a section, and its rows taken apart. -/
def readSection : List (List Char) → Option (List Char × List (List (List Char)))
  | [] => none
  | title :: rows => some (title, rows.map words)

/-- Reads the lines of a report. -/
def readLines (lines : List (List Char)) : List (List Char × List (List (List Char))) :=
  ((lines.filter (!isDrawn '=' ·)).splitOnP (isDrawn '-')).filterMap readSection

/-- **Reads a report.** -/
def read (text : List Char) : List (List Char × List (List (List Char))) :=
  readLines (text.splitOn '\n')

/-! ## Rows -/

theorem toList_row (label value : String) : (row label value).toList =
    label.toList ++ List.replicate (25 - label.length) ' ' ++ value.toList := by
  simp [row, alignLeft, List.rightpad, String.length_toList]

/-- A label that does not fill its column is followed by a blank. -/
theorem exists_toList_row (hlabel : label.length < 25) (value : String) : ∃ k,
    (row label value).toList =
      label.toList ++ ' ' :: (List.replicate k ' ' ++ value.toList) := by
  obtain ⟨k, hk⟩ : ∃ k, 25 - label.length = k + 1 := ⟨24 - label.length, by omega⟩
  refine ⟨k, ?_⟩
  rw [toList_row, hk, List.replicate_succ, List.append_assoc, List.cons_append]

/-- **No row is a frame or a rule.** -/
theorem isDrawn_row (hc : c ≠ ' ') (hlabel : label.length < 25) :
    isDrawn c (row label value).toList = false := by
  obtain ⟨k, hrow⟩ := exists_toList_row hlabel value
  have hblank : (' ' == c) = false := beq_false_of_ne hc.symm
  rw [isDrawn, hrow, List.all_append, List.all_cons, hblank, Bool.false_and, Bool.and_false]

/-- The words of a row are those of its label and of its value. -/
theorem words_row (hlabel : label.length < 25) (value : String) :
    words (row label value).toList = words label.toList ++ words value.toList := by
  obtain ⟨k, hrow⟩ := exists_toList_row hlabel value
  rw [hrow, Timeline.words_append_blank, Timeline.words_blanks_append]

/-- A fraction is written as its whole part, a point and its places. -/
theorem toList_decimalPlaces (places n : Nat) : (decimalPlaces places n).toList =
    Nat.toDigits 10 (n / 10 ^ places) ++
      '.' :: (Nat.toDigits 10 (n % 10 ^ places)).leftpad places '0' := by
  simp [decimalPlaces]
  rfl

/-- A fraction in decimal places is a word. -/
theorem isWord_decimalPlaces (places n : Nat) : IsWord (decimalPlaces places n).toList := by
  have hdigit {n : Nat} {c : Char} (hc : c ∈ Nat.toDigits 10 n) : c.isDigit = true :=
    (Json.isDigits_toDigits n).all c hc
  have hall : ∀ c ∈ (decimalPlaces places n).toList, c.isDigit = true ∨ c = '.' := by
    intro c hc
    simp only [toList_decimalPlaces, List.leftpad, List.mem_append, List.mem_cons,
      List.mem_replicate] at hc
    rcases hc with hc | rfl | ⟨-, rfl⟩ | hc
    · exact .inl (hdigit hc)
    · exact .inr rfl
    · exact .inl rfl
    · exact .inl (hdigit hc)
  exact ⟨by simp [toList_decimalPlaces], fun h => absurd (hall ' ' h) (by decide),
    fun h => absurd (hall '\n' h) (by decide)⟩

theorem isWord_fixedPlaces (places : Nat) (x : Float) : IsWord (fixedPlaces places x).toList :=
  isWord_decimalPlaces ..

/-- A word stays one with something around it that no word or line ends in. -/
theorem isWord_around {word : List Char} (h : IsWord word) (before after : List Char)
    (hblank : ' ' ∉ before ++ after) (hfeed : '\n' ∉ before ++ after) :
    IsWord (before ++ word ++ after) := by
  rw [List.mem_append, not_or] at hblank hfeed
  exact ⟨by simp [h.ne_nil], by simp [hblank, h.blank], by simp [hfeed, h.feed]⟩

/-- Two words, a blank between them. -/
theorem words_pair {first second : List Char} (hfirst : IsWord first) (hsecond : IsWord second) :
    words (first ++ ' ' :: second) = [first, second] := by
  rw [Timeline.words_append_blank, hfirst.words, hsecond.words]
  rfl

theorem isWord_toString (n : Nat) : IsWord (toString n).toList := by
  simpa using Timeline.isWord_toDigits n

/-- A word stays one behind an indent. -/
theorem words_indented (h : IsWord label.toList) :
    words ("  " ++ label).toList = [label.toList] := by
  have hindent : ("  " ++ label).toList = List.replicate 2 ' ' ++ label.toList := by simp
  rw [hindent, Timeline.words_blanks_append, h.words]

/-- A row of two words. -/
theorem words_entry (hlabel : IsWord label.toList) (hlength : label.length < 25)
    (hvalue : IsWord value.toList) :
    words (row label value).toList = [label, value].map String.toList := by
  rw [words_row hlength, hlabel.words, hvalue.words]
  rfl

/-- A row of the mix. -/
theorem words_shareRow (s : Stats) (hlabel : IsWord label.toList) (hlength : label.length < 23)
    (count : Nat) : words (shareRow s label count).toList =
      [label, toString count,
        "(" ++ fixedPlaces 2 (Stats.ratio count s.instructions * 100.0) ++ "%)"].map
        String.toList := by
  set share := fixedPlaces 2 (Stats.ratio count s.instructions * 100.0)
  have hshare : IsWord ("(" ++ share ++ "%)").toList := by
    rw [String.toList_append, String.toList_append]
    exact isWord_around (isWord_fixedPlaces ..) ['('] ['%', ')'] (by decide) (by decide)
  have hvalue : (toString count ++ " (" ++ share ++ "%)").toList =
      (toString count).toList ++ ' ' :: ("(" ++ share ++ "%)").toList := by simp
  change words (row ("  " ++ label) (toString count ++ " (" ++ share ++ "%)")).toList = _
  rw [words_row (by rw [String.length_append]; exact Nat.add_lt_add_left hlength 2),
    words_indented hlabel, hvalue, words_pair (isWord_toString count) hshare]
  rfl

/-- A row of the stalls. -/
theorem words_waitRow (hlabel : IsWord label.toList) (hlength : label.length < 23) (sum : Nat)
    (mean : Float) : words (waitRow label sum mean).toList =
      [label, toString sum, "(avg", fixedPlaces 2 mean ++ ")"].map String.toList := by
  set text := fixedPlaces 2 mean
  have hmean : IsWord (text ++ ")").toList := by
    rw [String.toList_append]
    exact isWord_around (isWord_fixedPlaces ..) [] [')'] (by decide) (by decide)
  have hvalue : (toString sum ++ " (avg " ++ text ++ ")").toList =
      (toString sum).toList ++ ' ' :: ("(avg".toList ++ ' ' :: (text ++ ")").toList) := by simp
  change words (row ("  " ++ label) (toString sum ++ " (avg " ++ text ++ ")")).toList = _
  rw [words_row (by rw [String.length_append]; exact Nat.add_lt_add_left hlength 2),
    words_indented hlabel, hvalue, Timeline.words_append_blank, (isWord_toString sum).words,
    words_pair (by decide) hmean]
  rfl

/-! ## The report -/

/-- What a part of the report tells. -/
def Part.contents (s : Stats) : Part → Section
  | .summary => summarySection s
  | .mix => mixSection s
  | .stalls => stallsSection s

/-- The rows of a part. -/
def Part.rows (s : Stats) : Part → List String
  | .summary =>
    [row "sim_cycles" (toString s.cycles), row "sim_insts" (toString s.instructions),
     row "sim_traps" (toString s.traps), row "sim_ipc" (fixedPlaces 4 s.ipc),
     row "sim_cpi" (fixedPlaces 4 s.cpi)]
  | .mix =>
    [shareRow s "op.load" s.loads, shareRow s "op.store" s.stores, shareRow s "op.int" s.ints,
     shareRow s "op.fp" s.fps, shareRow s "op.branch" s.branches]
  | .stalls =>
    [waitRow "stalls.dispatch" s.queueWait s.meanQueueWait,
     waitRow "stalls.issue" s.stationWait s.meanStationWait,
     waitRow "stalls.cdb" s.busWait s.meanBusWait]

/-- Frames apart, a part is its title, its rows and a rule. -/
theorem filter_lines (s : Stats) (p : Part) :
    ((p.lines s).map String.toList).filter (!isDrawn '=' ·) =
      ((p.contents s).title :: p.rows s).map String.toList ++ [rule.toList] := by
  have hrule : isDrawn '=' rule.toList = false := by decide
  cases p <;>
    simp (disch := decide) [Part.lines, Part.rows, Part.contents, summarySection, mixSection,
      stallsSection, isDrawn_row, shareRow, waitRow, hrule]

/-- Neither the title of a part nor a row of it is a rule. -/
theorem isDrawn_line (s : Stats) (p : Part) :
    ∀ line ∈ ((p.contents s).title :: p.rows s).map String.toList, isDrawn '-' line = false := by
  cases p <;>
    simp (disch := decide) [Part.rows, Part.contents, summarySection, mixSection, stallsSection,
      isDrawn_row, shareRow, waitRow] <;> decide

/-- The rows of a part fall apart into those of its section. -/
theorem words_rows (s : Stats) (p : Part) :
    (p.rows s).map (words ·.toList) = (p.contents s).rows.map (·.map String.toList) := by
  cases p with
  | summary =>
    have hcount {label : String} (hlabel : IsWord label.toList ∧ label.length < 25) (n : Nat) :
        words (row label (toString n)).toList = [label, toString n].map String.toList :=
      words_entry hlabel.1 hlabel.2 (isWord_toString n)
    have hratio {label : String} (hlabel : IsWord label.toList ∧ label.length < 25) (x : Float) :
        words (row label (fixedPlaces 4 x)).toList = [label, fixedPlaces 4 x].map String.toList :=
      words_entry hlabel.1 hlabel.2 (isWord_fixedPlaces 4 x)
    simp (disch := decide) only [Part.rows, List.map_cons, hcount, hratio]
    rfl
  | mix =>
    simp (disch := decide) only [Part.rows, List.map_cons, words_shareRow]
    rfl
  | stalls =>
    simp (disch := decide) only [Part.rows, List.map_cons, words_waitRow]
    rfl

/-- **A part is read as its section.** -/
theorem readLines_part (s : Stats) (p : Part) (rest : List (List Char)) :
    readLines ((p.lines s).map String.toList ++ rest) = (p.contents s).told :: readLines rest := by
  rw [readLines, List.filter_append, filter_lines, List.append_assoc, List.singleton_append,
    List.splitOnP_append_cons_of_forall_mem (isDrawn_line s p) rule.toList (by decide),
    List.map_cons, List.filterMap_cons, readSection, List.map_map, Section.told, ← words_rows]
  rfl

theorem feed_notMem_line (s : Stats) (p : Part) : ∀ line ∈ p.lines s, '\n' ∉ line.toList := by
  have hcount (n : Nat) : '\n' ∉ Nat.toDigits 10 n := (Timeline.isWord_toDigits n).feed
  have hratio (places : Nat) (x : Float) : '\n' ∉ (fixedPlaces places x).toList :=
    (isWord_fixedPlaces places x).feed
  have hborder : '\n' ∉ border.toList := by decide
  have hrule : '\n' ∉ rule.toList := by decide
  have htext (text : String) : toString text = text := rfl
  cases p <;>
    simp [Part.lines, shareRow, waitRow, toList_row, hcount, hratio, hborder, hrule, htext]

/-- Parts are read as their sections. -/
theorem readLines_parts (s : Stats) (ps : List Part) :
    readLines ((ps.flatMap (Part.lines s) ++ [border]).map String.toList ++ [[]]) =
      ps.map fun p => (p.contents s).told := by
  induction ps with
  | nil =>
    change readLines [border.toList, []] = []
    decide
  | cons p ps ih =>
    rw [List.flatMap_cons, List.append_assoc, List.map_append, List.append_assoc, readLines_part,
      ih, List.map_cons]

/-- The sections that are asked for by name; no name asks for all. -/
def selected (s : Stats) (names : List String) : List Section :=
  (sections s).filter fun x => names.isEmpty || names.contains x.name

/-- **A report tells what is asked for.**  A reader finds in it the sections whose names are among
those given, all of them if none is, in their order and with their rows, and nothing else. -/
theorem read_text (s : Stats) (names : List String) :
    read (text s names).toList = (selected s names).map Section.told := by
  have hname (p : Part) : (p.contents s).name = p.name := by cases p <;> rfl
  have hsections : sections s = Part.all.map (Part.contents s) := rfl
  rw [read, text, splitOn_unlines, readLines_parts, selected, hsections, List.filter_map,
    List.map_map]
  · simp only [chosen, Function.comp_def, hname]
  · intro line hline
    rw [List.mem_append, List.mem_flatMap, List.mem_singleton] at hline
    rcases hline with ⟨p, -, hline⟩ | rfl
    · exact feed_notMem_line s p line hline
    · decide

end Report

end Tomasulo
