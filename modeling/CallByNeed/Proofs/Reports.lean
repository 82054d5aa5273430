import CallByNeed.Report.Console

/-!
# Reports of errors

A template is made of texts and slots (`Piece`), and it can be filled when there is a
subject for each slot.  So the notices of the language can always be printed, and their
errors reported.
-/

variable {pcs : List Piece} {tx : List Char}

namespace CallByNeed

open Text

namespace Text

/-! ### Templates -/

/-- A piece of a template. -/
inductive Piece where
  | text (chs : List Char)
  | slot

/-- A piece as a template holds it: the braces of a text are doubled. -/
def Piece.written : Piece → List Char
  | .text chs =>
    chs.flatMap fun ch => if ch = '{' || ch = '}' then [ch, ch] else [ch]
  | .slot => ['{', '}']

/-- A template of pieces. -/
def written (pcs : List Piece) : List Char := pcs.flatMap Piece.written

/-- The pieces with a subject in each slot, if there are enough subjects. -/
def assembled : List String → List Piece → Option (List Char)
  | _, [] => some []
  | subjs, .text chs :: pcs => (assembled subjs pcs).map (chs ++ ·)
  | subj :: subjs, .slot :: pcs =>
    (assembled subjs pcs).map (subj.toList ++ ·)
  | [], .slot :: _ => none

/-- The numbering after so many slots in order. -/
def numberingAfter : Nat → Numbering
  | 0 => .undecided
  | k + 1 => .ordered (k + 1)

section Filling

variable (parts : Parts) (subjs : List String) (numbering : Numbering)

/-- A character of a text stands for itself, a brace when it is doubled. -/
theorem filled_char (ch : Char) (rest : List Char) :
    filled parts subjs 1 numbering
        ((if ch = '{' || ch = '}' then [ch, ch] else [ch]) ++ rest) =
      (filled parts subjs 1 numbering rest).map fun found => (ch :: found.1, found.2) := by
  by_cases opening : ch = '{'
  · subst opening
    simp only [decide_true, Bool.true_or, if_true, List.cons_append, List.nil_append]
    rw [filled]
    rfl
  · by_cases closing : ch = '}'
    · subst closing
      simp only [decide_true, Bool.or_true, if_true, List.cons_append, List.nil_append]
      rw [filled]
      rfl
    · simp only [opening, closing, decide_false, Bool.or_self, Bool.false_eq_true, if_false,
        List.cons_append, List.nil_append]
      rw [filled]
      · rfl
      all_goals simp_all

theorem filled_text (chs rest : List Char) :
    filled parts subjs 1 numbering ((Piece.text chs).written ++ rest) =
      (filled parts subjs 1 numbering rest).map fun found => (chs ++ found.1, found.2) := by
  induction chs with
  | nil =>
    rw [Piece.written, List.flatMap_nil, List.nil_append]
    cases filled parts subjs 1 numbering rest with
    | error ft => rfl
    | ok found => rfl
  | cons ch chs ih =>
    rw [Piece.written, List.flatMap_cons, List.append_assoc, filled_char]
    rw [Piece.written] at ih
    rw [ih]
    cases filled parts subjs 1 numbering rest with
    | error ft => rfl
    | ok found => rfl

end Filling

theorem filled_slot (parts : Parts) (fr : List String) (subj : String) (bk : List String)
    (rest : List Char) :
    filled parts (fr ++ subj :: bk) 1 (numberingAfter fr.length) ('{' :: '}' :: rest) =
      (filled parts (fr ++ subj :: bk) 1 (numberingAfter (fr.length + 1)) rest).map
        fun found => (subj.toList ++ found.1, found.2) := by
  have cut : cutSlot ('}' :: rest) = .ok (⟨[], none, []⟩, rest) := rfl
  have numbered : (numberingAfter fr.length).slot [] =
      .ok (fr.length, numberingAfter (fr.length + 1)) := by
    cases fr with
    | nil => rfl
    | cons fst fr => rfl
  have named : Slot.subject ⟨[], none, []⟩ parts (fr ++ subj :: bk) (numberingAfter fr.length) =
      .ok (.ofText subj.toList, numberingAfter (fr.length + 1)) := by
    simp [Slot.subject, numbered, follow, bind, Except.bind]
  rw [filled]
  · simp only [List.isEmpty_cons, Bool.false_eq_true, if_false]
    split
    · simp_all
    · rename_i slot aft found
      rw [cut] at found
      cases found
      rw [named]
      rfl
  all_goals simp_all

theorem filled_written (parts : Parts) (fr : List String) {bk : List String}
    (enough : assembled bk pcs = some tx) :
    ∃ numbering, filled parts (fr ++ bk) 1 (numberingAfter fr.length) (written pcs) =
      .ok (tx, numbering) := by
  induction pcs generalizing fr bk tx with
  | nil =>
    cases enough
    simp [written, filled]
  | cons piece pcs ih =>
    rw [written, List.flatMap_cons]
    cases piece with
    | text chs =>
      rw [assembled] at enough
      obtain ⟨os, more, rfl⟩ := Option.map_eq_some_iff.mp enough
      obtain ⟨numbering, done⟩ := ih fr more
      rw [written] at done
      rw [filled_text, done]
      exact ⟨numbering, rfl⟩
    | slot =>
      cases bk with
      | nil => cases enough
      | cons subj bk =>
        rw [assembled] at enough
        obtain ⟨os, more, rfl⟩ := Option.map_eq_some_iff.mp enough
        obtain ⟨numbering, done⟩ := ih (fr ++ [subj]) more
        rw [List.append_assoc, List.singleton_append, List.length_append,
          List.length_singleton, written] at done
        rw [Piece.written, List.cons_append, List.singleton_append, filled_slot, done]
        exact ⟨numbering, rfl⟩

/-- A template is filled when there is a subject for each of its slots. -/
theorem fill_written {template : String} (shape : template.toList = written pcs)
    (parts : Parts) (paint : String → String) {subjs : List String}
    (enough : assembled (subjs.map paint) pcs = some tx) :
    fill parts paint template subjs = .ok (String.ofList tx) := by
  obtain ⟨numbering, done⟩ := filled_written parts [] enough
  rw [List.nil_append] at done
  rw [List.length_nil, numberingAfter] at done
  rw [fill, shape, done]
  rfl

/-- A text that is written as a template is one piece. -/
theorem toList_literal (tx : String) : (literal tx).toList = (Piece.text tx.toList).written := by
  rw [literal, String.toList_ofList]
  rfl

theorem written_of_plain (plain : chs.all fun ch => ch != '{' && ch != '}') :
    (Piece.text chs).written = chs := by
  induction chs with
  | nil => rfl
  | cons ch chs ih =>
    rw [List.all_cons, Bool.and_eq_true, Bool.and_eq_true, bne_iff_ne, bne_iff_ne] at plain
    obtain ⟨⟨noOpening, noClosing⟩, os⟩ := plain
    have same := ih os
    rw [Piece.written] at same
    rw [Piece.written, List.flatMap_cons, same]
    simp [noOpening, noClosing]

end Text

/-! ### Notices -/

/-- A notice that can be printed: its template can be filled, and so can its diagnosis if it
has one. -/
structure Notice.Printable (nt : Notice) : Prop where
  filled : ∀ style, ∃ tx, nt.message style = .ok tx
  diagnosed : ∀ style colour, ∃ tx, nt.diagnose style colour = .ok tx

/-- A notice about texts is printable when its slots have their subjects. -/
theorem Notice.printable_of_written {nt : Notice}
    (shape : nt.template.toList = written pcs)
    (enough : ∀ paint, (assembled (nt.subjects.map paint) pcs).isSome)
    (tx : nt.subjectKind = .text) (whole : nt.stretchFault = none) : nt.Printable where
  filled style := by
    obtain ⟨chs, found⟩ := Option.isSome_iff_exists.mp (enough id)
    obtain ⟨more, painted⟩ := Option.isSome_iff_exists.mp (enough (style.bold none))
    rw [message, plain, fill_written shape style.parts id found]
    exact ⟨_, fill_written shape style.parts _ painted⟩
  diagnosed style colour := by simp_all [diagnose]

/-- The template of a message about a source line: its text is free of slots. -/
theorem Notice.ofSyntax_shape (msg src : String) (st0 stop : Int) :
    (ofSyntax msg src st0 stop).template.toList =
      written [.text msg.toList, .text " in '".toList, .slot, .text "'".toList] := by
  simp only [ofSyntax, String.toList_append, toList_literal, written, List.flatMap_cons]
  rfl

theorem Notice.ofLoad_shape (mid0 reason : String) :
    (ofLoad mid0 reason).template.toList =
      written [.text "module '".toList, .slot, .text "' ".toList, .text reason.toList] := by
  simp only [ofLoad, String.toList_append, toList_literal, written, List.flatMap_cons,
    List.flatMap_nil, List.append_nil]
  rfl

theorem EvalError.notice_printable (er : EvalError) : er.notice.Printable := by
  have oneSlot : ∀ (template fr bk subj : String),
      template.toList = written [.text fr.toList, .slot, .text bk.toList] →
      Notice.Printable { template, subjects := [subj] } :=
    fun _ _ _ _ shape => Notice.printable_of_written shape (fun _ => rfl) rfl rfl
  cases er with
  | unbound x =>
    exact oneSlot "'\x7b\x7d' is not bound" "'" "' is not bound" x (by decide)
  | notAFunction v =>
    exact oneSlot "'\x7b\x7d' cannot be applied" "'" "' cannot be applied" v (by decide)
  | cyclic lb =>
    exact oneSlot "value of '\x7b\x7d' depends on itself" "value of '" "' depends on itself"
      lb (by decide)
  | stepLimit lim =>
    exact oneSlot "no result within \x7b\x7d steps" "no result within " " steps"
      (toString lim) (by decide)

namespace Console

variable {nt : Notice} (printable : nt.Printable)

include printable

/-- Printing a notice succeeds and adds a text, which is the same for all consoles with the
same colours. -/
theorem printNotice_ok (colours : Style) (colour : Colour) (introduction : String) :
    ∃ tx, ∀ cs : Console, cs.colours = colours →
      cs.printNotice colour introduction nt =
        (.ok (), { cs with printed := cs.printed ++ tx }) := by
  obtain ⟨tx, painted⟩ := printable.filled colours
  obtain ⟨diagnosis, diagnosed⟩ := printable.diagnosed colours colour
  by_cases shown : nt.isDiagnosed = true
  · refine ⟨introduction ++ tx ++ "\n" ++ (diagnosis ++ "\n"), ?_⟩
    simp_all [printNotice, print, write, String.append_assoc]
  · refine ⟨introduction ++ tx ++ "\n", ?_⟩
    simp_all [printNotice, print, write]

theorem warn_ok (cs : Console) :
    ∃ tx, cs.warn nt = (.ok (), { cs with printed := cs.printed ++ tx }) := by
  obtain ⟨tx, told⟩ := printNotice_ok printable cs.colours .magenta
    (cs.location ++ cs.colours.bold (some .magenta) "warning: ")
  exact ⟨tx, told cs rfl⟩

theorem report_ok (cs : Console) (tr : List String) :
    ∃ tx, cs.report nt tr = (.ok (), { cs with printed := cs.printed ++ tx }) := by
  obtain ⟨tx, told⟩ := printNotice_ok printable cs.colours .red _
  exact ⟨tx, told cs rfl⟩

/-- An error that can be reported ends the program only if it is fatal. -/
theorem throw_ok (cs : Console) (tr : List String) (fatal : Bool) : ∃ tx, cs.throw nt tr fatal =
      if fatal then (.error (.exit 1), { cs with printed := cs.printed ++ tx })
      else (.ok (), { cs with printed := cs.printed ++ tx, traceback := [] }) := by
  obtain ⟨tx, told⟩ := report_ok printable cs tr
  refine ⟨tx, ?_⟩
  rw [throw, told]

end Console

theorem Console.throw_evaluation (cs : Console) (er : EvalError) (tr : List String) :
    (cs.throw er.notice tr false).1 = .ok () := by
  obtain ⟨tx, told⟩ := throw_ok er.notice_printable cs tr false
  rw [told]
  rfl

end CallByNeed
