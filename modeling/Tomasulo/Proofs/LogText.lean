import Tomasulo.Event
import Tomasulo.Proofs.TimelineText

/-!
# Proofs/LogText — a line of the log tells its event

A line is the heading of its kind, the cycle, and the named values of the event (`Event.line_eq`).
No heading begins another, and no value holds the blank that stands before the next name, so a line
falls apart in one way only and no two events share one (`Event.line_injective`).
-/

namespace Tomasulo.Event

/-! ## The parts of a line -/

/-- What the line of an event begins with: the level, the message and the name of the cycle. -/
def heading : Event → String
  | retired .. => "TRACE RT  retired from CDB cycle="
  | storeCompleted .. => "TRACE WB  store complete, resources freed cycle="
  | broadcast .. => "TRACE WB  broadcast on CDB cycle="
  | started .. => "TRACE EX  start cycle="
  | resolved .. => "TRACE IS  branch resolved cycle="
  | stalled .. => "TRACE IS  stall, no free station cycle="
  | issued .. => "TRACE IS  dispatched cycle="
  | trapSkipped .. => "TRACE FE  skipped trap cycle="
  | fetched .. => "TRACE FE  fetched cycle="
  | cycleCompleted .. => "DEBUG cycle complete cycle="
  | runCompleted .. => "INFO simulation complete cycles="

/-- The cycle of an event; of the end of a run, the cycles it took. -/
def cycle : Event → Nat
  | retired now _ | storeCompleted now _ | broadcast now .. | started now .. | resolved now _
  | stalled now .. | issued now .. | trapSkipped now _ | fetched now .. | cycleCompleted now ..
  | runCompleted now _ => now

/-- The values of an event, each behind its name. -/
def fields : Event → List (String × String)
  | retired _ index | storeCompleted _ index | resolved _ index | trapSkipped _ index =>
    [(" inst=", indexLabel index)]
  | broadcast _ index pool | stalled _ index pool =>
    [(" inst=", indexLabel index), (" pool=", pool.label)]
  | started _ index pool unit =>
    [(" inst=", indexLabel index), (" pool=", pool.label), (" unit=", toString unit)]
  | issued _ index pool station =>
    [(" inst=", indexLabel index), (" pool=", pool.label), (" station=", toString station)]
  | fetched _ index op => [(" inst=", indexLabel index), (" class=", op.label)]
  | cycleCompleted _ queued stationed bus =>
    [(" ifq=", toString queued), (" rs_int=", toString (stationed .int)),
     (" rs_fp=", toString (stationed .fp)), (" cdb=", busText bus)]
  | runCompleted _ records => [(" instructions=", toString records)]

/-- Names and values as they are written. -/
def written : List (String × String) → String
  | [] => ""
  | (name, value) :: rest => name ++ value ++ written rest

/-- **What a line says**: what has happened, in which cycle, and with which values. -/
theorem line_eq (e : Event) : e.line = e.heading ++ toString e.cycle ++ written e.fields := by
  cases e with
  | cycleCompleted now queued stationed bus =>
    have hline : (cycleCompleted now queued stationed bus).line =
        "DEBUG cycle complete cycle=" ++ toString now ++ " ifq=" ++ toString queued ++
          (" rs_int=" ++ toString (stationed .int) ++ " rs_fp=" ++ toString (stationed .fp) ++
            " cdb=" ++ busText bus) := rfl
    rw [hline]
    simp only [heading, cycle, fields, written, String.append_empty, ← String.append_assoc]
  | _ =>
    simp only [fields, written, String.append_empty, ← String.append_assoc]
    rfl

/-! ## Taking a line apart -/

/-- What may stand behind a value. -/
def Continues (text : List Char) : Prop :=
  ∀ c ∈ text.head?, c = ' '

/-- A value ends at the first blank. -/
theorem takeWhile_value {value rest : List Char} (hvalue : ' ' ∉ value) (hrest : Continues rest) :
    (value ++ rest).takeWhile (· ≠ ' ') = value := by
  have hstop : rest.takeWhile (· ≠ ' ') = [] := by
    cases rest with
    | nil => rfl
    | cons c rest => simp [hrest c (by simp)]
  rw [List.takeWhile_append_of_pos (by simpa using fun c hc => ne_of_mem_of_not_mem hc hvalue),
    hstop, List.append_nil]

/-- **Values come off a text in one way.** -/
theorem value_inj {value value' rest rest' : List Char} (hvalue : ' ' ∉ value)
    (hvalue' : ' ' ∉ value') (hrest : Continues rest) (hrest' : Continues rest')
    (h : value ++ rest = value' ++ rest') : value = value' ∧ rest = rest' := by
  have heq : value = value' := by
    rw [← takeWhile_value hvalue hrest, h, takeWhile_value hvalue' hrest']
  exact ⟨heq, List.append_cancel_left (heq ▸ h)⟩

/-- A name begins with a blank, and a value holds none. -/
def IsField (field : String × String) : Prop :=
  field.1.toList.head? = some ' ' ∧ ' ' ∉ field.2.toList

/-- What is written behind a value never goes on with it. -/
theorem continues_written : {fs : List (String × String)} → (∀ f ∈ fs, IsField f) →
    Continues (written fs).toList
  | [], _ => by simp [written, Continues]
  | (name, value) :: fs, h => by
    have hname : name.toList.head? = some ' ' := (h _ List.mem_cons_self).1
    simp [written, Continues, List.head?_append, hname, eq_comm]

/-- Values under the same names are written in the same way only if they are the same. -/
theorem written_inj : {fs gs : List (String × String)} → (∀ f ∈ fs, IsField f) →
    (∀ g ∈ gs, IsField g) → fs.map Prod.fst = gs.map Prod.fst → written fs = written gs → fs = gs
  | [], [], _, _, _, _ => rfl
  | (name, value) :: fs, (name', value') :: gs, hfs, hgs, hnames, h => by
    obtain ⟨hname, hnames'⟩ := List.cons.inj hnames
    obtain rfl : name = name' := hname
    have hfs' := (List.forall_mem_cons.1 hfs).2
    have hgs' := (List.forall_mem_cons.1 hgs).2
    have htext : value.toList ++ (written fs).toList = value'.toList ++ (written gs).toList := by
      simpa [written, ← String.toList_inj] using h
    obtain ⟨hvalue, hrest⟩ : value.toList = value'.toList ∧ _ :=
      value_inj (hfs _ List.mem_cons_self).2 (hgs _ List.mem_cons_self).2
        (continues_written hfs') (continues_written hgs') htext
    rw [String.toList_inj.1 hvalue, written_inj hfs' hgs' hnames' (String.toList_inj.1 hrest)]

/-! ## The event of a line -/

theorem blank_notMem_toString (n : Nat) : ' ' ∉ (toString n).toList := by
  simpa using (Timeline.isWord_toDigits n).blank

/-- The names and values of an event are told apart. -/
theorem isField_fields (e : Event) : ∀ f ∈ e.fields, IsField f := by
  have hlabel (index : Nat) : ' ' ∉ (indexLabel index).toList := by
    change ' ' ∉ ("#" ++ toString index).toList
    simp [-Nat.toString_eq_repr, blank_notMem_toString index]
  have hpool (p : Pool) : ' ' ∉ p.label.toList := by cases p <;> decide
  have hclass (op : OpClass) : ' ' ∉ op.label.toList := by cases op <;> decide
  have hbus (bus : Option Nat) : ' ' ∉ (busText bus).toList := by
    cases bus with
    | none => decide
    | some index =>
      change ' ' ∉ ("Some(InstIndex(" ++ toString index ++ "))").toList
      simp [-Nat.toString_eq_repr, blank_notMem_toString index]
  cases e <;>
    simp [fields, IsField, hlabel, hpool, hclass, hbus, blank_notMem_toString,
      -Nat.toString_eq_repr]

/-- All headings. -/
def headings : List String :=
  [heading (.retired 0 0), heading (.storeCompleted 0 0), heading (.broadcast 0 0 .int),
   heading (.started 0 0 .int 0), heading (.resolved 0 0), heading (.stalled 0 0 .int),
   heading (.issued 0 0 .int 0), heading (.trapSkipped 0 0), heading (.fetched 0 0 .int),
   heading (.cycleCompleted 0 0 ⟨0, 0⟩ none), heading (.runCompleted 0 0)]

theorem heading_mem_headings (e : Event) : e.heading ∈ headings := by
  cases e <;> simp [heading, headings]

/-- **No heading begins another.** -/
theorem heading_eq_of_begins : ∀ a ∈ headings, ∀ b ∈ headings, a.toList <+: b.toList → a = b := by
  decide +kernel

/-- Events of one kind name the same values. -/
theorem names_eq {e f : Event} (h : e.heading = f.heading) :
    e.fields.map Prod.fst = f.fields.map Prod.fst := by
  cases e <;> cases f <;> first | rfl | simp [heading] at h

/-- A heading and what stands behind it come off a line in one way. -/
theorem heading_inj {e f : Event} {text text' : String}
    (h : e.heading ++ text = f.heading ++ text') : e.heading = f.heading ∧ text = text' := by
  have hlist : e.heading.toList ++ text.toList = f.heading.toList ++ text'.toList := by
    rw [← String.toList_append, h, String.toList_append]
  have heq : e.heading = f.heading := by
    have he := heading_mem_headings e
    have hf := heading_mem_headings f
    rcases List.prefix_or_prefix_of_prefix (List.prefix_append e.heading.toList text.toList)
      (hlist ▸ List.prefix_append f.heading.toList text'.toList) with hle | hle
    · exact heading_eq_of_begins _ he _ hf hle
    · exact (heading_eq_of_begins _ hf _ he hle).symm
  exact ⟨heq, String.toList_inj.1 (List.append_cancel_left (heq ▸ hlist))⟩

theorem toString_inj {m n : Nat} : toString m = toString n ↔ m = n := by
  refine ⟨fun h => ?_, congrArg toString⟩
  have hread := congrArg (fun text => Timeline.decimal? text.toList) h
  simpa [Timeline.decimal?_toDigits] using hread

/-- A record is known by its label. -/
theorem indexLabel_inj {m n : Nat} : indexLabel m = indexLabel n ↔ m = n := by
  rw [← @toString_inj m n]
  exact String.append_right_inj "#"

/-- The content of the bus is known by its text. -/
theorem busText_inj {bus bus' : Option Nat} : busText bus = busText bus' ↔ bus = bus' := by
  have htext (n : Nat) : busText (some n) = "Some(InstIndex(" ++ toString n ++ "))" := rfl
  have hother (n : Nat) : busText none ≠ busText (some n) := by
    rw [htext]
    intro h
    have hhead := congrArg (·.toList.head?) h
    simp [busText] at hhead
  cases bus with
  | none => cases bus' <;> simp [hother]
  | some n =>
    cases bus' with
    | none => simp [(hother n).symm]
    | some n' =>
      rw [htext, htext, String.append_left_inj, String.append_right_inj, toString_inj,
        Option.some_inj]

/-- An event is its kind, its cycle and its values. -/
theorem eq_of_parts {e f : Event} (hheading : e.heading = f.heading) (hcycle : e.cycle = f.cycle)
    (hfields : e.fields = f.fields) : e = f := by
  have hpool {p q : Pool} : p.label = q.label ↔ p = q := by
    cases p <;> cases q <;> simp [Pool.label]
  have hclass {op op' : OpClass} : op.label = op'.label ↔ op = op' := by
    cases op <;> cases op' <;> simp [OpClass.label]
  have hboth {b b' : ByPool Nat} : b = b' ↔ b .int = b' .int ∧ b .fp = b' .fp :=
    ⟨fun h => h ▸ ⟨rfl, rfl⟩, fun ⟨hint, hfp⟩ => ByPool.ext_get fun p => by cases p <;> assumption⟩
  cases e <;> cases f <;> first
    | simp [heading] at hheading; done
    | simpa [cycle, fields, toString_inj, indexLabel_inj, busText_inj, hpool, hclass, hboth,
        and_assoc, -Nat.toString_eq_repr] using And.intro hcycle hfields

/-- **No two events have the same line.** -/
theorem line_injective : Function.Injective line := by
  intro e f h
  rw [line_eq, line_eq, String.append_assoc, String.append_assoc] at h
  obtain ⟨hheading, hbehind⟩ := heading_inj h
  have hbehind' : (toString e.cycle).toList ++ (written e.fields).toList =
      (toString f.cycle).toList ++ (written f.fields).toList := by
    rw [← String.toList_append, hbehind, String.toList_append]
  obtain ⟨hcycle, hfields⟩ := value_inj (blank_notMem_toString _) (blank_notMem_toString _)
    (continues_written (isField_fields e)) (continues_written (isField_fields f)) hbehind'
  exact eq_of_parts hheading (toString_inj.1 (String.toList_inj.1 hcycle))
    (written_inj (isField_fields e) (isField_fields f) (names_eq hheading)
      (String.toList_inj.1 hfields))

end Tomasulo.Event
