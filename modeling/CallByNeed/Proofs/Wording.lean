import Mathlib
import CallByNeed.Proofs.Reports
import CallByNeed.Report.Asked

/-!
# The wording of notices

A message about a source line and the reason why a module could not be had are any texts,
which may have braces of their own.  They are written into a template with every brace
doubled, and filling the template gives them back.
-/

namespace CallByNeed

open Text

namespace Notice

section Filling

variable (parts : Parts) (paint : String → String) (message reason subject : String)

theorem fill_ofSyntax (source : String) (start stop : Int) :
    fill parts paint (ofSyntax message source start stop).template [subject] =
      .ok (message ++ " in '" ++ paint subject ++ "'") := by
  refine (fill_written (ofSyntax_shape message source start stop) parts paint rfl).trans ?_
  congr 1
  apply String.toList_injective
  simp

theorem fill_ofLoad (moduleId : String) :
    fill parts paint (ofLoad moduleId reason).template [subject] =
      .ok ("module '" ++ paint subject ++ "' " ++ reason) := by
  refine (fill_written (ofLoad_shape moduleId reason) parts paint rfl).trans ?_
  congr 1
  apply String.toList_injective
  simp

end Filling

/-- A notice about one text can be had when its template can be filled. -/
theorem about_text {notice : Notice} {subject text : String}
    (filled : fill parts id notice.template [subject] = .ok text) :
    notice.about (.text subject) parts = .ok ({ notice with
      subjects := [subject]
      subjectKind := .text
      stop := some (notice.stop.getD subject.length) }, .text subject) := by
  have printed : Notice.plain { notice with subjects := [subject] } parts = .ok text := filled
  have writable : [Datum.text subject].all Datum.isWritable = true := by
    simp [Datum.isWritable]
  have shown : [Datum.text subject].map Datum.shown = [subject] := rfl
  simp only [about, subjectsOf, Except.mapError, bind, Except.bind, writable, shown, printed,
    Bool.not_true, Bool.false_eq_true, if_false]
  cases notice.stop <;> rfl

end Notice

namespace NoticeKind

theorem ask_ok {kind : NoticeKind} {arguments : Arguments}
    {bound : List (String × Datum)} {asked : Asked} (fits : arguments.bind kind = .ok bound)
    (had : kind.notice bound parts = .ok asked) :
    kind.ask arguments parts =
      .ok { asked with repeated := bound.filter fun entry => isRepeated entry.1 entry.2 } := by
  simp only [ask, fits, had, bind, Except.bind]
  rfl

theorem ask_parse (parts : Parts) (message source : String) (number : Datum) :
    parse.ask ⟨[.text message, .text source, number], []⟩ parts = .ok
      { kind := parse
        notice := .ofSyntax message source 0 1
        subject := .text source
        detail := .line number } := by
  have had : parse.notice
      [("msg", .text message), ("line_text", .text source), ("line_num", number)] parts =
      .ok { kind := parse, notice := .ofSyntax message source 0 1, subject := .text source,
            detail := .line number } := by
    show ((Notice.ofSyntax message "" 0 1).about (.text source) parts).map _ = _
    rw [Notice.about_text (Notice.fill_ofSyntax parts id message source "" 0 1)]
    rfl
  exact ask_ok rfl had

theorem ask_load (parts : Parts) (moduleId reason : String) :
    load.ask ⟨[.text moduleId, .text reason], []⟩ parts = .ok
      { kind := load
        notice := { Notice.ofLoad moduleId reason with stop := some moduleId.length }
        subject := .text moduleId
        detail := .none } := by
  have had : load.notice [("module_id", .text moduleId), ("reason", .text reason)] parts =
      .ok { kind := load
            notice := { Notice.ofLoad moduleId reason with stop := some moduleId.length }
            subject := .text moduleId
            detail := .none } := by
    show ((Notice.ofLoad "" reason).about (.text moduleId) parts).map _ = _
    rw [Notice.about_text (Notice.fill_ofLoad parts id reason moduleId "")]
    rfl
  exact ask_ok rfl had

end NoticeKind

/-- Any text is printed as it was given, whatever braces it has: the message about a source
line before that line, and the reason why a module cannot be had behind its name.  Both notices
can always be had, from the program itself and on request.  In every style the line or the name
is in bold, and the rest is as before. -/
theorem notice_texts (message source moduleId reason : String) (start stop : Int)
    (number : Datum) (style : Style) :
    (∃ asked, NoticeKind.parse.ask ⟨[.text message, .text source, number], []⟩ style.parts =
        .ok asked ∧
      ∀ notice ∈ [asked.notice, .ofSyntax message source start stop],
        notice.plain style.parts = .ok (message ++ " in '" ++ source ++ "'") ∧
        notice.painted style = .ok (message ++ " in '" ++ style.bold none source ++ "'")) ∧
    ∃ asked, NoticeKind.load.ask ⟨[.text moduleId, .text reason], []⟩ style.parts = .ok asked ∧
      ∀ notice ∈ [asked.notice, .ofLoad moduleId reason],
        notice.plain style.parts = .ok ("module '" ++ moduleId ++ "' " ++ reason) ∧
        notice.painted style =
          .ok ("module '" ++ style.bold none moduleId ++ "' " ++ reason) := by
  refine ⟨⟨_, NoticeKind.ask_parse style.parts message source number, fun notice listed => ?_⟩,
    ⟨_, NoticeKind.ask_load style.parts moduleId reason, fun notice listed => ?_⟩⟩
  · simp only [List.mem_cons, List.not_mem_nil, or_false] at listed
    obtain rfl | rfl := listed
    all_goals exact ⟨Notice.fill_ofSyntax style.parts id .., Notice.fill_ofSyntax ..⟩
  · simp only [List.mem_cons, List.not_mem_nil, or_false] at listed
    obtain rfl | rfl := listed
    all_goals exact ⟨Notice.fill_ofLoad style.parts id reason moduleId moduleId,
      Notice.fill_ofLoad style.parts (style.bold none) reason moduleId moduleId⟩

end CallByNeed
