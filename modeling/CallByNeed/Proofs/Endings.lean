import CallByNeed.CommandLine.Run
import CallByNeed.Proofs.Entries
import CallByNeed.Proofs.ReadingLimits
import CallByNeed.Proofs.References

/-!
# How the program ends

The program loads a file and tells of its bindings one after the other.  An error of an
evaluation is reported where it occurs, and the next binding follows; any other failure is
reported by the guarded block around the whole program, which ends it with status 1.  So
there are three endings: status 0, if every binding has a line, status 1, and want of fuel,
which a bound on the steps rules out.

What is reported of a binding does not depend on those before it: whenever a binding is
begun, no other line is being worked on (`Traceback.Idle`).
-/

variable {mid : Session} {fa : Failure} {op : Options} {ph : String} {w : World}

namespace CallByNeed

open Files Source Text

/-! ### Lines that are being worked on -/

namespace Traceback

variable {tb : Traceback} {ln : String} {mark : Mark} {num : LineNumber}

/-- No line is being worked on. -/
structure Idle (tb : Traceback) : Prop where
  distinct : (tb.map Prod.fst).Nodup
  clear : ∀ en ∈ tb, en.2.line = none

theorem distinct_register (dst : (tb.map Prod.fst).Nodup) (ph : String) (mark : Mark) :
    ((tb.register ph mark).map Prod.fst).Nodup := by
  unfold register
  split
  · grind
  grind

theorem mem_register {en : String × Mark} (mem : en ∈ tb.register ph mark) :
    en = (ph, mark) ∨ en ∈ tb ∧ en.1 ≠ ph := by grind [register]

theorem Idle.done (idle : tb.Idle) (ph : String) (mark : Mark) :
    ((tb.register ph mark).register ph .clear).Idle where
  distinct := distinct_register (distinct_register idle.distinct ph mark) ph .clear
  clear := by
    intro en mem
    rcases mem_register mem with rfl | ⟨listed, o⟩
    · rfl
    · rcases mem_register listed with rfl | ⟨old, _⟩
      · exact absurd rfl o
      · exact idle.clear en old

theorem Idle.register_clear (idle : tb.Idle) (ph : String) : (tb.register ph .clear).Idle where
  distinct := distinct_register idle.distinct ph .clear
  clear := by
    intro en mem
    rcases mem_register mem with rfl | ⟨old, _⟩
    · rfl
    · exact idle.clear en old

theorem register_mem (tb : Traceback) (ph : String) (mark : Mark) :
    (ph, mark) ∈ tb.register ph mark := by grind [register]

/-- The lines that are being worked on. -/
def marked (tb : Traceback) : Traceback := tb.filter fun en => en.2.line.isSome

/-- The line that is begun is the only one. -/
theorem Idle.marked_register (idle : tb.Idle) (ph ln : String) (num : LineNumber) :
    (tb.register ph ⟨some ln, num⟩).marked = [(ph, ⟨some ln, num⟩)] := by
  have only : ∀ en ∈ (tb.register ph ⟨some ln, num⟩).marked, en = (ph, ⟨some ln, num⟩) := by
    intro en mem
    obtain ⟨listed, works⟩ := List.mem_filter.mp mem
    refine (mem_register listed).resolve_right fun ⟨old, _⟩ => ?_
    simp [idle.clear en old] at works
  have there : (ph, ⟨some ln, num⟩) ∈
      (tb.register ph ⟨some ln, num⟩).marked := List.mem_filter.mpr ⟨register_mem tb ph _, rfl⟩
  have once := (distinct_register idle.distinct ph ⟨some ln, num⟩).of_map.filter
    fun en => en.2.line.isSome
  change Traceback.marked _ |>.Nodup at once
  rw [List.eq_replicate_of_mem only, List.nodup_replicate] at once
  have some := List.length_pos_of_mem there
  rw [List.eq_replicate_of_mem only, show (marked _).length = 1 by omega]
  rfl

end Traceback

namespace Console

variable {cs o : Console} {nt : Notice}

/-- Consoles on which the same is being worked. -/
structure Alike (cs o : Console) : Prop where
  colours : o.colours = cs.colours
  marked : o.traceback.marked = cs.traceback.marked

theorem worked_eq (cs : Console) :
    cs.worked = ({ cs with traceback := cs.traceback.marked } : Console).worked := by
  grind [worked, Traceback.marked, List.filterMap_filter]

/-- A warning is the same as on a console that is alike and was not printed to. -/
theorem Alike.warn (alike : cs.Alike o) (blank : o.printed = "") (printable : nt.Printable) :
    cs.warn nt = (.ok (), { cs with printed := cs.printed ++ (o.warn nt).2.printed }) := by
  have same : o.location = cs.location := by
    have marked := alike.marked
    unfold Traceback.marked at marked
    simp only [location, alike.colours, marked]
  obtain ⟨tx, told⟩ := printNotice_ok printable cs.colours .magenta
    (cs.location ++ cs.colours.bold (some .magenta) "warning: ")
  rw [Console.warn, Console.warn, same, alike.colours, told cs rfl, told o alike.colours,
    blank, String.empty_append]

theorem Alike.report (alike : cs.Alike o) (blank : o.printed = "")
    (printable : nt.Printable) (tr : List String) :
    cs.report nt tr = (.ok (),
      { cs with printed := cs.printed ++ (o.report nt tr).2.printed }) := by
  have same : o.tracebackText = cs.tracebackText := by
    have marked := congrArg (fun tb => ({ cs with traceback := tb } : Console).worked) alike.marked
    have worked : o.worked = cs.worked := by
      rw [o.worked_eq, cs.worked_eq]
      exact marked
    simp only [tracebackText, worked]
  obtain ⟨tx, told⟩ := printNotice_ok printable cs.colours .red _
  simp only [Console.report, same, alike.colours]
  rw [told cs rfl, told o alike.colours, blank, String.empty_append]

end Console

/-! ### Reading files -/

namespace Files

/-- Reading changes nothing but the lines of a console, and leaves none if it succeeds. -/
def Tidy {α : Type} (ac : Reading α) : Prop :=
  ∀ ⦃sh aft : Shelf⦄ ⦃r : Except Failure α⦄, ac sh = (r, aft) →
    ∃ tb, aft.console = { sh.console with traceback := tb } ∧
      ∀ v, r = .ok v → sh.console.traceback.Idle → tb.Idle

namespace Tidy

variable {α β : Type}

theorem same {ac : Reading α} (keeps : ∀ sh, (ac sh).2.console = sh.console) : Tidy ac := by
  intro sh aft r perf
  refine ⟨sh.console.traceback, ?_, fun _ _ => id⟩
  have kept := keeps sh
  rwa [perf] at kept

theorem lift (ans : Except Failure α) : Tidy (liftM ans : Reading α) := by
  cases ans <;> exact same fun _ => rfl

theorem bind {ac : Reading α} {next : α → Reading β} (fst : Tidy ac) (rest : ∀ v, Tidy (next v)) :
    Tidy (ac >>= next) := by
  intro sh aft r perf
  rcases Action.bind_cases perf with ⟨stop, rfl, stopped⟩ | ⟨v, mid, began, late⟩
  · obtain ⟨tb, kept, _⟩ := fst stopped
    simp_all
  · obtain ⟨_, kept, idle⟩ := fst began
    obtain ⟨tb, keptLater, idleLater⟩ := rest v late
    simp_all

theorem clear (ph : String) : Tidy (onConsole (·.clear ph)) := by
  intro sh aft r perf
  cases perf
  exact ⟨_, rfl, fun _ _ idle => idle.register_clear ph⟩

theorem readNew (pls : Places) (ph : String) : Tidy (readNew pls ph) := by
  refine (clear ph).bind fun _ => (lift _).bind fun tx => ?_
  cases parseModule tx ph ph with
  | error ft =>
    intro sh aft r perf
    cases perf
    exact ⟨_, rfl, by simp⟩
  | ok pd =>
    refine (lift _).bind fun ims => ?_
    exact (same fun _ => rfl).bind fun _ => (clear ph).bind fun _ => same fun _ => rfl

theorem collectPending (pls : Places) (n : Nat) (pending : List String) (coll : Sources) :
    Tidy (collectPending pls n pending coll) := by
  induction n generalizing pending coll with
  | zero => cases pending <;> exact same fun _ => rfl
  | succ n ih =>
    cases pending with
    | nil => exact same fun _ => rfl
    | cons id pending =>
      by_cases known : id ∈ coll.ids
      · grind [collectPending_known]
      · rw [collectPending_new known]
        have reads : Tidy (readModule pls id) := by
          refine (show Tidy (get : Reading Shelf) from same fun _ => rfl).bind fun sh => ?_
          split
          · exact same fun _ => rfl
          · exact readNew pls id
        exact reads.bind fun src => ih _ _

theorem collect (pls : Places) (n : Nat) (ph : String) : Tidy (collect pls n ph) :=
  (lift _).bind fun rt => collectPending pls n [rt] []

end Tidy

end Files

/-! ### Failures that end the program -/

namespace Console

variable {cs : Console} {nt : Notice}

theorem suppress_fatal (fatal : cs.fatal = true) (printable : nt.Printable) (tr : List String) :
    (cs.suppress nt tr).1 = .escaped (.exit 1) := by
  obtain ⟨tx, told⟩ := throw_ok printable cs tr true
  rw [suppress, fatal, told, if_pos rfl]

theorem passOn_fatal (fatal : cs.fatal = true) (printable : nt.Printable) (fa : Failure) :
    (cs.passOn nt fa).1 = .escaped (.exit 1) := by
  obtain ⟨tx, told⟩ := throw_ok printable cs [] true
  rw [passOn, fatal, told, if_pos rfl]

end Console

namespace Notice

/-- A text without braces. -/
def isPlain (tx : String) : Bool := tx.toList.all fun ch => ch != '{' && ch != '}'

theorem isPlain_append (fr bk : String) : isPlain (fr ++ bk) = (isPlain fr && isPlain bk) := by
  simp [isPlain]

theorem isPlain_digits (num : Nat) : isPlain (toString num) := by
  simp only [isPlain, List.all_eq_true]
  intro ch mem
  have digit : ch.isDigit :=
    Nat.isDigit_of_mem_toDigits (by decide) (Nat.le_refl 10) (by simpa using mem)
  simp only [Char.isDigit, Bool.and_eq_true, decide_eq_true_eq] at digit
  simp only [Bool.and_eq_true, bne_iff_ne]
  constructor
  · rintro rfl
    simp_all
  · rintro rfl
    simp_all

theorem isPlain_hexadecimal (byte : UInt8) : isPlain (hexadecimal 2 byte.toNat) := by
  have all : ∀ num : Fin 256, isPlain (hexadecimal 2 num.val) := by decide +kernel
  exact all ⟨byte.toNat, byte.toNat_lt⟩

theorem isPlain_utf8 (ft : Utf8Fault) : isPlain ft.text := by
  have reason : isPlain ft.reason.text := by
    cases ft.reason <;> decide +kernel
  unfold Utf8Fault.text
  split <;> simp only [isPlain_append, isPlain_digits, isPlain_hexadecimal, reason,
    Bool.and_true] <;> decide +kernel

/-- The text of an error without braces is a template that stands for itself. -/
theorem unknown_shape {kd tx : String} (plain : isPlain kd) (plainText : isPlain tx) :
    (unknown kd tx).template.toList = written [.text (unknown kd tx).template.toList] := by
  have whole : isPlain ("unknown error: '" ++ kd ++ ": " ++ tx ++ "'") = true := by
    rw [isPlain_append, isPlain_append, isPlain_append, isPlain_append, plain, plainText]
    decide +kernel
  rw [written, List.flatMap_singleton]
  exact (written_of_plain whole).symm

theorem unknown_printable {kd tx : String} (plain : isPlain kd) (plainText : isPlain tx) :
    (unknown kd tx).Printable :=
  printable_of_written (unknown_shape plain plainText) (by simp [assembled]) rfl rfl

theorem ofSyntax_printable (msg src : String) (st0 stop : Int) :
    (ofSyntax msg src st0 stop).Printable :=
  printable_of_written (ofSyntax_shape msg src st0 stop) (by simp [assembled, ofSyntax]) rfl rfl

theorem ofLoad_printable (mid0 reason : String) : (ofLoad mid0 reason).Printable :=
  printable_of_written (ofLoad_shape mid0 reason) (by simp [assembled, ofLoad]) rfl rfl

theorem duplicate_printable (x mid0 : String) : (duplicate x mid0).Printable := by
  have shape : (duplicate x mid0).template.toList =
      written [.text "'".toList, .slot, .text "' is already bound in module '".toList, .slot,
        .text "'".toList] := by
    show "'\x7b\x7d' is already bound in module '\x7b\x7d'".toList = _
    decide
  exact printable_of_written shape (by simp [assembled, duplicate]) rfl rfl

theorem cyclicImport_printable (cycle : List String) : (cyclicImport cycle).Printable := by
  have shape : (cyclicImport cycle).template.toList =
      written [.text "cyclic import: ".toList, .slot] := by
    show "cyclic import: \x7b\x7d".toList = _
    decide
  exact printable_of_written shape (by simp [assembled, cyclicImport]) rfl rfl

end Notice

/-- The failures that end the program. -/
inductive Failure.Fatal : Failure → Prop
  | loading {fa : Failure} (loading : OfLoading fa) : Fatal fa
  | noDirectory : Fatal .noDirectory
  | unwritable : Fatal .unwritable

theorem Failure.Fatal.leave (isFatal : fa.Fatal) {cs : Console}
    (fatal : cs.fatal = true) : (cs.leave (some fa)).1 = .escaped (.exit 1) := by
  cases isFatal with
  | noDirectory =>
    exact cs.passOn_fatal fatal (Notice.unknown_printable (by decide +kernel) (by decide +kernel)) _
  | unwritable =>
    exact Console.passOn_fatal fatal
      (Notice.unknown_printable (by decide +kernel) (by decide +kernel)) _
  | loading loading =>
    cases loading with
    | duplicate x mid0 =>
      exact Console.suppress_fatal fatal (Notice.duplicate_printable x mid0) []
    | cyclicImport cycle =>
      exact Console.suppress_fatal fatal (Notice.cyclicImport_printable cycle) []
    | unbound x =>
      exact Console.suppress_fatal fatal (EvalError.notice_printable (.unbound x)) []
    | reading reading =>
      cases reading with
      | load ph reason =>
        exact Console.suppress_fatal fatal (Notice.ofLoad_printable ph reason.text) []
      | parse ft =>
        exact Console.suppress_fatal fatal (Notice.ofSyntax_printable ..) []
      | undecodable ft =>
        exact Console.passOn_fatal fatal
          (Notice.unknown_printable (by decide +kernel) (Notice.isPlain_utf8 ft)) _

/-! ### Failures of a binding -/

/-- A bound on steps that lets a number be counted which is too large to be written. -/
def Limit.Ample (lim : Limit) : Prop :=
  ∀ bound, lim = some bound → bound ≠ 0 → Nat.pow 10 Number.mostDigits ≤ bound.toNat + 1

/-- A bound on steps, if there is one, that so much fuel does not last for. -/
def Limit.Outlasts (lim : Limit) (n : Nat) : Prop :=
  ∀ bound, lim = some bound → bound ≠ 0 → n < 2 * bound.toNat + 2

/-- What a binding can fail with when so many steps were made: an error of its evaluation,
unless fuel is wanting or a number is too large, which takes as many steps to be counted. -/
inductive Failure.OfBinding (lim : Limit) (n steps : Nat) : Failure → Prop
  | evaluation (er : EvalError) (tr : List String) : OfBinding lim n steps (.evaluation er tr)
  | outOfFuel (outlasts : lim.Outlasts n) : OfBinding lim n steps .outOfFuel
  | unwritable (ample : lim.Ample) (long : Nat.pow 10 Number.mostDigits ≤ steps) :
      OfBinding lim n steps .unwritable

theorem ReachedUnder.reached {admitted : Settings → Prop} {st0 : Store}
    (reached : ReachedUnder admitted st0 s) : Reached st0 s := by
  induction reached with
  | start => exact .start
  | request _ _ perf ended ih => exact .request ih trivial perf ended

section Program

variable {ms : Modules} {s : Store} {a : Address}

/-- A binding of a program is in a realm, in which it is evaluated. -/
theorem Program.realm (pg : Program ms s) (owned : Owned ms a) :
    ∃ rm : Realm, rm.counted = none ∧ Rests s rm s ∧
      rm.Answers s fun cfg n => force cfg n (some a) :=
  ⟨ms.realm s a (fun _ => 0) False fun _ => True, rfl,
    pg.rests owned False.elim fun _ _ _ _ _ => trivial,
    answers_force rfl (Modules.level_realm .refl)⟩

/-- A request for a binding of a program fails with an error of its evaluation, or by counting
for too long. -/
theorem Program.fails (pg : Program ms s) (owned : Owned ms a) {wanted : Wanted}
    {er : Raised} (fails : Fails s (fun cfg n => force cfg n (some a)) wanted taken er) :
    (∃ cause tr, er = .evaluation cause tr) ∨
      wanted = .number ∧ er = .unwritable ∧ Nat.pow 10 Number.mostDigits ≤ taken := by
  obtain ⟨rm, uncounted, rests, answers⟩ := pg.realm owned
  refine (answers.faults rests uncounted fails).imp_left fun faults => ?_
  cases faults with
  | limited | unbound | cyclic | refused => exact ⟨_, _, rfl⟩
  | unwritable counting => simp [uncounted] at counting

variable (pg : Program ms s) (owned : Owned ms a) {lim : Limit}
  {n : Nat} {e mid later aft : Engine} {stop : Stop} {v : Value}
  (reached : Reached s e.store)

include pg owned reached

theorem force_ofBinding (forced : force ⟨countingHost, lim⟩ n (some a) e = (.error stop, aft)) :
    stop.failure.OfBinding lim n aft.tally.steps := by
  cases stop with
  | outOfFuel =>
    refine .outOfFuel fun bound same nonzero => Nat.lt_of_not_le fun enough => ?_
    rw [same] at forced
    exact (force_bounds unlimited_countingHost (Limit.stops nonzero) (by omega) forced).ended rfl
  | raised er =>
    rcases pg.fails owned (.value reached forced) with ⟨cause, tr, rfl⟩ | ⟨num, _⟩
    · exact .evaluation cause tr
    · cases num

variable {fst : Limit} {most : Nat}
  (requested : force ⟨countingHost, fst⟩ most (some a) e = (.ok v, mid))
  (further : Reached mid.store later.store)

include requested further

/-- Counting fails as a binding can, and so does writing the number in digits. -/
theorem number_ofBinding {r : Except Stop (Option Datum)}
    (numbered : number ⟨countingHost, lim⟩ n v later = (r, aft))
    (failed : (r.mapError Stop.failure).bind Session.digits = .error fa) :
    fa.OfBinding lim n aft.tally.steps := by
  have ample : later.tally.steps + Nat.pow 10 Number.mostDigits ≤ aft.tally.steps →
      r ≠ .error .outOfFuel → lim.Ample := by
    intro long ended bound same nonzero
    rw [same] at numbered
    have few := (number_bounds unlimited_countingHost (Limit.stops nonzero) (.inr ended)
      numbered).2
    omega
  cases r with
  | error stop =>
    cases failed
    cases stop with
    | outOfFuel =>
      refine .outOfFuel fun bound same nonzero => Nat.lt_of_not_le fun enough => ?_
      rw [same] at numbered
      exact (number_bounds unlimited_countingHost (Limit.stops nonzero) (.inl (by omega))
        numbered).1 rfl
    | raised er =>
      rcases pg.fails owned (.number reached requested further numbered) with
        ⟨cause, tr, rfl⟩ | ⟨_, rfl, long⟩
      · exact .evaluation cause tr
      · have positive : ∀ k, 0 < Nat.pow 10 k := fun k => Nat.pow_pos (by decide)
        have some := positive Number.mostDigits
        exact .unwritable (ample (by omega) (by simp)) (by omega)
  | ok found =>
    cases found with
    | none => cases failed
    | some datum =>
      have written : (if datum.isWritable then .ok (some datum.shown)
        else .error .unwritable : Except Failure (Option String)) = .error fa := failed
      split at written
      · cases written
      · rename_i large
        cases written
        obtain ⟨rm, uncounted, rests, answers⟩ := pg.realm owned
        obtain ⟨o, few, top, within, rests, inside⟩ :=
          answers.value rests uncounted reached requested further
        have long := steps_of_number (within.pure uncounted) rests inside succeeds_countingHost
          numbered (by simpa using large)
        exact .unwritable (ample long (by simp)) (by omega)

theorem normalize_ofBinding
    (normalized : normalize ⟨countingHost, lim⟩ n v later = (.error stop, aft)) :
    stop.failure.OfBinding lim n aft.tally.steps := by
  cases stop with
  | outOfFuel =>
    refine .outOfFuel fun bound same nonzero => Nat.lt_of_not_le fun enough => ?_
    rw [same] at normalized
    exact (performAll_bounds unlimited_countingHost (Limit.stops nonzero)
      (by simp [Closed, Task.isThunk]) (by omega) (by simp) (le_refl _) (by omega) normalized).1 rfl
  | raised er =>
    rcases pg.fails owned (.normalForm reached requested further normalized) with
      ⟨cause, tr, rfl⟩ | ⟨num, _⟩
    · exact .evaluation cause tr
    · cases num

end Program

/-! ### What is told of a binding -/

namespace Session

variable {α : Type} {fst ss last : Session} {lk : Module} {lim : Limit} {n : Nat}
  {x : Name}

/-- A request leaves a console alone that prints no steps. -/
theorem answered_quiet (quiet : ss.console.verbose = false) (e : Engine) :
    (ss.answered e).console = ss.console := by
  have silent : ∀ evs : List CallByNeed.Event, evs.foldl
      (fun cs ev => cs.showStep ev.kind.word ev.label) ss.console =
      ss.console := by
    intro evs
    induction evs with
    | nil => rfl
    | cons ev evs ih => simpa [Console.showStep, quiet] using ih
  rw [answered, showEvents, ← Array.foldl_toList, silent]

/-- A session of a program, after requests for its bindings. -/
structure Serves (fst ss : Session) (lk : Module) : Prop where
  fresh : fst.Fresh
  main : fst.main? = some lk
  later : fst.Later ss
  quiet : ss.console.verbose = false

theorem Serves.settings_eq (serves : fst.Serves ss lk) :
    ss.settings = ⟨countingHost, fst.settings.limit⟩ := by
  rw [serves.later.settings, ← serves.fresh.host]

theorem Serves.showReduced (serves : fst.Serves ss lk) (owned : Owned fst.modules a)
    {mid : Engine} (reached : Reached fst.engine.store e.store)
    (requested : force ss.settings n (some a) e = (.ok v, mid))
    (further : Reached mid.store ss.engine.store) {r : Except Failure String}
    (shown : showReduced n v ss = (r, last)) :
    last.console = ss.console ∧
      ∀ fa, r = .error fa → fa.OfBinding fst.settings.limit n last.engine.tally.steps := by
  rw [serves.settings_eq] at requested
  have normalizes : ∀ o : Session, o.console = ss.console →
      o.settings = ss.settings → Reached mid.store o.engine.store →
      ∀ {r last}, (CallByNeed.Session.request (fun cfg => normalize cfg n v)
        >>= fun t => pure t.display : Act String) o = (r, last) →
      last.console = ss.console ∧
        ∀ fa, r = .error fa → fa.OfBinding fst.settings.limit n last.engine.tally.steps := by
    intro o cs cfg further r last normalized
    rcases ran : normalize o.settings n v o.engine with ⟨oc, aft⟩
    have asked : request (fun cfg => normalize cfg n v) o =
        (oc.mapError Stop.failure, o.answered aft) := request_eq ran
    have quiet := (answered_quiet (cs ▸ serves.quiet) aft).trans cs
    cases oc with
    | error stop =>
      rw [Action.bind_error asked] at normalized
      cases normalized
      rw [cfg, serves.settings_eq] at ran
      refine ⟨quiet, ?_⟩
      rintro _ ⟨⟩
      have failing :=
        normalize_ofBinding serves.fresh.program owned reached requested further ran
      exact failing
    | ok t =>
      rw [Action.bind_ok asked] at normalized
      cases normalized
      exact ⟨quiet, by simp⟩
  rw [CallByNeed.Session.showReduced] at shown
  cases numerals : ss.numerals with
  | false =>
    rw [Action.bind_ok (numberText_of_terms numerals n v)] at shown
    exact normalizes ss rfl rfl further shown
  | true =>
    rcases numbered : number ss.settings n v ss.engine with ⟨oc, aft⟩
    have texts := numberText_of_numerals numerals numbered
    have quiet := answered_quiet serves.quiet aft
    cases written : (oc.mapError Stop.failure).bind digits with
    | error fa =>
      rw [written] at texts
      rw [Action.bind_error texts] at shown
      cases shown
      rw [serves.settings_eq] at numbered
      refine ⟨quiet, ?_⟩
      rintro _ ⟨⟩
      have failing :=
        number_ofBinding serves.fresh.program owned reached requested further numbered written
      exact failing
    | ok text =>
      rw [written] at texts
      rw [Action.bind_ok texts] at shown
      cases text with
      | some text =>
        cases shown
        exact ⟨quiet, by simp⟩
      | none =>
        obtain ⟨found, rfl⟩ : ∃ found, oc = .ok found := by
          cases oc with
          | error stop => cases written
          | ok found => exact ⟨found, rfl⟩
        have later := Continues.request (.number v) (fun _ _ => rfl) (request_eq numbered)
          (by simp [Except.mapError])
        exact normalizes (ss.answered aft) quiet rfl (further.trans later.reached.reached) shown

/-- The line of a binding was told: it fails as a binding can, or it shows a value, perhaps
after a warning that there is no normal form. -/
def Lined (ss : Session) (lim : Limit) (n : Nat) (x : Name)
    (oc : Except Failure String × Session) : Prop :=
  (∃ fa, oc.1 = .error fa ∧ fa.OfBinding lim n oc.2.engine.tally.steps ∧
    oc.2.console = ss.console) ∨
  (∃ tx, oc.1 = .ok (x ++ " = " ++ tx) ∧ oc.2.console = ss.console) ∨
  ∃ v bound, oc.1 = .ok (x ++ " = " ++ v.text) ∧
    ss.console.warn (noNormalForm v bound) = (.ok (), oc.2.console)

theorem noNormalForm_printable (v : Value) (bound : Int) : (noNormalForm v bound).Printable := by
  have shape : (noNormalForm v bound).template.toList =
      written [.text "'".toList, .slot, .text "' has no normal form within ".toList, .slot,
        .text " steps".toList] := by
    show "'\x7b\x7d' has no normal form within \x7b\x7d steps".toList = _
    decide
  exact Notice.printable_of_written shape (by simp [assembled, noNormalForm]) rfl rfl

theorem Serves.lined (serves : fst.Serves ss lk) (n : Nat) (x : Name) :
    ss.Lined fst.settings.limit n x (line n x ss) := by
  have main : ss.main? = some lk := by
    rw [main?, serves.later.main, serves.later.modules]
    exact serves.main
  cases found : ss.engine.store.find x (ss.scopeOf none).env with
  | none =>
    rw [line, Action.bind_error (evaluate_of_lost found n)]
    exact .inl ⟨_, rfl, .evaluation _ _, rfl⟩
  | some a =>
    have owned : Owned fst.modules a := by
      have listed : lk ∈ fst.modules :=
        List.mem_of_find?_eq_some (Option.bind_eq_some_iff.mp serves.main).choose_spec.2
      rw [Store.find_congr serves.later.reached.tables, scopeOf, main] at found
      exact serves.fresh.program.wired.owned_of_find listed found
    rcases forced : force ss.settings n (some a) ss.engine with ⟨oc, aft⟩
    have evd := evaluate_of_found found n
    rw [request_eq forced] at evd
    have quiet := answered_quiet serves.quiet aft
    cases oc with
    | error stop =>
      rw [line, Action.bind_error evd]
      rw [serves.settings_eq] at forced
      have failing := force_ofBinding serves.fresh.program owned
        serves.later.reached.reached forced
      exact .inl ⟨_, rfl, failing, quiet⟩
    | ok v =>
      let mid := ss.answered aft
      have later : ss.Later mid := Continues.evaluate n x none evd (by simp [Except.mapError])
      have next : fst.Serves mid lk :=
        ⟨serves.fresh, serves.main, serves.later.trans later, by rw [quiet]; exact serves.quiet⟩
      rcases shown : CallByNeed.Session.showReduced n v mid with ⟨r, last⟩
      obtain ⟨cs, ofBinding⟩ := next.showReduced owned
        serves.later.reached.reached forced .start shown
      have cs := cs.trans quiet
      have lns : line n x ss = (render n v >>= fun tx => pure (x ++ " = " ++ tx)) mid :=
        Action.bind_ok evd _
      rw [lns]
      cases r with
      | ok tx =>
        have rendered : render n v mid = (.ok tx, last) := by
          rw [render, shown]
        rw [Action.bind_ok rendered]
        exact .inr (.inl ⟨tx, rfl, cs⟩)
      | error fa =>
        by_cases limited : ∃ bound tr, fa = .evaluation (.stepLimit bound) tr
        · obtain ⟨bound, tr, rfl⟩ := limited
          obtain ⟨tx, told⟩ := Console.warn_ok (noNormalForm_printable v bound) last.console
          have warned : warn (noNormalForm v bound) last = (.ok (), { last with
              console := (last.console.warn (noNormalForm v bound)).2 }) := by
            rw [CallByNeed.Session.warn, told]
          have rendered : render n v mid = (.ok v.text, { last with
              console := (last.console.warn (noNormalForm v bound)).2 }) := by
            rw [render, shown]
            exact Action.bind_ok warned _
          rw [Action.bind_ok rendered]
          refine .inr (.inr ⟨v, bound, rfl, ?_⟩)
          rw [← show last.console = ss.console from cs]
          exact Prod.ext (by rw [told]) rfl
        · have rendered : render n v mid = (.error fa, last) := by grind [render]
          rw [Action.bind_error rendered]
          exact .inl ⟨fa, rfl, ofBinding fa rfl, cs⟩

/-- A binding as the line that is being worked on. -/
def bindingMark (lk : Module) (x : Name) : Mark :=
  ⟨some x, ((lk.declaration? x).map fun d => .known d.line).getD .unknown⟩

theorem registered_console (ss : Session) (lk : Module) (x : Name) :
    (ss.registered lk x).console = ss.console.register lk.id (bindingMark lk x) := by
  grind [registered, bindingMark]

/-- A console that was not printed to, on which nothing but a binding is being worked. -/
def aside (colours : Style) (lk : Module) (x : Name) : Console :=
  (Console.fresh true false colours).register lk.id (bindingMark lk x)

theorem alike_aside (idle : ss.console.traceback.Idle) (lk : Module) (x : Name) :
    (ss.registered lk x).console.Alike (aside ss.console.colours lk x) := by
  have none : Traceback.Idle [] := ⟨by simp, by simp⟩
  rw [registered_console]
  exact ⟨rfl, (none.marked_register _ _ _).trans (idle.marked_register _ _ _).symm⟩

/-- What is told of a binding, and the text of it: a line, perhaps after a warning, or the
report of an error. -/
inductive Told (colours : Style) (lk : Module) (x : Name) :
    Except Failure String × String → Prop
  | line (tx : String) : Told colours lk x (.ok (x ++ " = " ++ tx), x ++ " = " ++ tx ++ "\n")
  | warned (v : Value) (bound : Int) :
      Told colours lk x (.ok (x ++ " = " ++ v.text),
        ((aside colours lk x).warn (noNormalForm v bound)).2.printed ++
          (x ++ " = " ++ v.text ++ "\n"))
  | reported (er : EvalError) (tr : List String) :
      Told colours lk x (.error (.evaluation er tr),
        ((aside colours lk x).report er.notice tr).2.printed)

/-- A session after something was told, with no line that is being worked on. -/
def Tells (ss last : Session) (tx : String) : Prop :=
  ∃ tb, tb.Idle ∧ last.console =
    { ss.console with traceback := tb, printed := ss.console.printed ++ tx }

/-- An error of the evaluation of a binding is reported. -/
theorem answer_of_evaluation {er : EvalError}
    (failed : line n x (ss.registered lk x) = (.error (.evaluation er tr), mid)) :
    answer n lk x ss = (.ok (.error (.evaluation er tr)), { mid with
      console := (mid.console.throw er.notice tr false).2 }) := by
  have throws : reportEvaluation er tr mid = (.ok (), { mid with
      console := (mid.console.throw er.notice tr false).2 }) := by
    rw [reportEvaluation, ← mid.console.throw_evaluation er tr]
  rw [answer, failed]
  exact Action.bind_ok throws _

/-- A binding is told of, or fails with what is not an error of its evaluation. -/
theorem Serves.answer (serves : fst.Serves ss lk) (idle : ss.console.traceback.Idle) (n : Nat)
    (x : Name) :
    (∃ fa last, answer n lk x ss = (.error fa, last) ∧
      fa.OfBinding fst.settings.limit n last.engine.tally.steps ∧
      (∀ er tr, fa ≠ .evaluation er tr) ∧
      last.console.fatal = ss.console.fatal) ∨
    ∃ piece last, answer n lk x ss = (.ok piece.1, last) ∧
      Told ss.console.colours lk x piece ∧ ss.Tells last piece.2 := by
  have alike := alike_aside idle lk x
  have begins := registered_console ss lk x
  have starts : fst.Serves (ss.registered lk x) lk :=
    ⟨serves.fresh, serves.main, serves.later.trans (.print ss _), serves.quiet⟩
  have lined := starts.lined n x
  have printed : ∀ {mid : Session} {tx ln : String},
      CallByNeed.Session.line n x (ss.registered lk x) = (.ok ln, mid) →
      mid.console = { (ss.registered lk x).console with
        printed := ss.console.printed ++ tx } →
      ∃ last, CallByNeed.Session.answer n lk x ss = (.ok (.ok ln), last) ∧
        ss.Tells last (tx ++ (ln ++ "\n")) := by
    intro mid tx ln told cs
    refine ⟨{ mid with console := (mid.console.print ln).clear lk.id }, ?_,
      _, idle.done lk.id (bindingMark lk x), ?_⟩
    · rw [CallByNeed.Session.answer, told]
      rfl
    · rw [cs, begins, ← String.append_assoc]
      rfl
  rcases told : CallByNeed.Session.line n x (ss.registered lk x) with ⟨r, mid⟩
  rw [told] at lined
  rcases lined with ⟨fa, rfl, ofBinding, cs⟩ | ⟨tx, rfl, cs⟩ | ⟨v, bound, rfl, warned⟩
  · by_cases evaluation : ∃ er tr, fa = .evaluation er tr
    · obtain ⟨er, tr, rfl⟩ := evaluation
      have reports := alike.report rfl er.notice_printable tr
      rw [← show mid.console = _ from cs] at reports
      refine .inr ⟨_, _, answer_of_evaluation told, .reported er tr, [],
        ⟨by simp, by simp⟩, ?_⟩
      simp only [Console.throw, reports]
      rw [show mid.console = _ from cs, begins]
      rfl
    · push Not at evaluation
      refine .inl ⟨fa, mid, ?_, ofBinding, evaluation, ?_⟩
      · grind [CallByNeed.Session.answer]
      · rw [show mid.console = _ from cs, begins]
        rfl
  · obtain ⟨last, answered, tells⟩ := @printed mid "" _ told (by
      rw [show mid.console = _ from cs, String.append_empty, begins]
      rfl)
    rw [String.empty_append] at tells
    exact .inr ⟨_, last, answered, .line tx, tells⟩
  · have warns := alike.warn rfl (noNormalForm_printable v bound)
    rw [warned] at warns
    obtain ⟨last, answered, tells⟩ := printed told (congrArg Prod.snd warns)
    exact .inr ⟨_, last, answered, .warned v bound, tells⟩

theorem Tells.trans {fr bk : String} (early : ss.Tells mid fr)
    (late : mid.Tells last bk) : ss.Tells last (fr ++ bk) := by
  obtain ⟨_, _, cs⟩ := early
  obtain ⟨tb, idle, consoleLater⟩ := late
  refine ⟨tb, idle, ?_⟩
  grind

theorem Serves.answers (serves : fst.Serves ss lk) (idle : ss.console.traceback.Idle) (n : Nat)
    (xs : List Name) :
    (∃ fa last, answers n lk xs ss = (.error fa, last) ∧
      fa.OfBinding fst.settings.limit n last.engine.tally.steps ∧
      (∀ er tr, fa ≠ .evaluation er tr) ∧
      last.console.fatal = ss.console.fatal) ∨
    ∃ pcs last, answers n lk xs ss = (.ok (pcs.map Prod.fst), last) ∧
      List.Forall₂ (Told ss.console.colours lk) xs pcs ∧
      ss.Tells last (String.join (pcs.map Prod.snd)) := by
  induction xs generalizing ss with
  | nil => exact .inr ⟨[], ss, rfl, .nil, _, idle, by simp⟩
  | cons x xs ih =>
    rcases serves.answer idle n x with ⟨fa, last, failed, rest⟩ |
      ⟨piece, mid, answered, told, tells⟩
    · exact .inl ⟨fa, last, Action.bind_error failed _, rest⟩
    · obtain ⟨tb, idleLater, cs⟩ := id tells
      have next : fst.Serves mid lk :=
        ⟨serves.fresh, serves.main, (serves.later.answer answered).2.1,
          by rw [cs]; exact serves.quiet⟩
      rcases ih next (by rw [cs]; exact idleLater) with
        ⟨fa, last, failed, ofBinding, os, fatal⟩ | ⟨pcs, last, rest, toldRest, tellsRest⟩
      · refine .inl ⟨fa, last, ?_, ofBinding, os, by rw [fatal, cs]⟩
        exact (Action.bind_ok answered _).trans (Action.bind_error failed _)
      · refine .inr ⟨piece :: pcs, last,
          (Action.bind_ok answered _).trans (Action.bind_ok rest _), .cons told ?_, ?_⟩
        · simp_all
        · simpa using tells.trans tellsRest

/-! ### The session that a file is loaded into -/

/-- Loading prints warnings, and leaves no line that is being worked on if it succeeds. -/
theorem load_console {r : Except Failure Module} (loaded : load n ph ss = (r, last)) :
    ∃ tb printed, last.console = { ss.console with traceback := tb, printed } ∧
      ∀ lk, r = .ok lk → ss.console.traceback.Idle → tb.Idle := by
  cases named : ss.places.rootId ph with
  | error fa =>
    rw [load_of_rootId_error named] at loaded
    cases loaded
    grind
  | ok id =>
    rcases read : collect ss.places n id ⟨ss.sources, ss.console⟩ with ⟨result, sh⟩
    obtain ⟨tb, cs, idle⟩ := Tidy.collect _ _ _ read
    cases result with
    | error fa =>
      cases (load_unread named read).symm.trans loaded
      exact ⟨tb, _, cs, by simp⟩
    | ok coll =>
      rw [load_outcome named read] at loaded
      cases rsd : resolve coll ss.modules ss.engine.store with
      | error er =>
        rw [rsd] at loaded
        cases loaded
        exact ⟨tb, _, cs, by simp⟩
      | ok linked =>
        obtain ⟨added, s⟩ := linked
        obtain ⟨tx, printed⟩ := sh.console.extends_warned (unboundNotices_printable s added)
        rw [rsd, outcome] at loaded
        split at loaded
        · cases loaded
          exact ⟨tb, _, printed.trans (by rw [cs]), by simp⟩
        · cases loaded
          exact ⟨tb, _, printed.trans (by rw [cs]), fun _ _ => idle _ rfl⟩

/-- A session that has loaded a file serves its module. -/
theorem serves_of_load (op : SessionOptions) (quiet : op.trace = false) (rooted : op.places.Rooted) (loaded : load n ph (.start op) = (.ok lk, last)) :
    last.Serves last lk ∧ last.console.traceback.Idle ∧
      last.console.fatal = op.fatal ∧ last.console.colours = op.colours ∧
      last.settings.limit = op.limit := by
  have idle : (Session.start op).console.traceback.Idle :=
    ⟨by simp [Session.start, Console.fresh, Console.clear, Console.register, Traceback.register],
      by simp [Session.start, Console.fresh, Console.clear, Console.register, Traceback.register,
        Mark.clear]⟩
  obtain ⟨tb, printed, cs, idleLater⟩ := load_console loaded
  have oc := (load_loaded (show (Session.start op).places.Rooted from rooted)
    (by simp [Places.Said, Session.start]) ph).2 n (by rw [loaded]; simp)
  rw [loaded] at oc
  cases oc with
  | linked collection rsd found =>
    refine ⟨⟨⟨?_, rfl⟩, ?_, .print _ _, ?_⟩, ?_, ?_, ?_, rfl⟩
    · have pg : Program (Session.start op).modules (Session.start op).engine.store :=
        .addTable .empty
      have lk := pg.resolve rsd
      rwa [insertAll_resolved rsd] at lk
    · have same : lk.id = absolute (Session.start op).places.working ph := by
        simpa using List.find?_some found
      show Modules.find _ lk.id = some lk
      rw [same]
      exact found
    · rw [cs]
      exact quiet
    · simp_all
    · rw [cs]
      rfl
    · rw [cs]
      rfl

theorem guarded_fatal {ac : Act α} (failed : ac ss = (.error fa, last))
    (isFatal : fa.Fatal) (fatal : last.console.fatal = true) :
    (guarded ac ss).1 = .error (.exit 1) := by
  have leaves := isFatal.leave fatal
  simp only [guarded, failed]
  grind

end Session

/-! ### The program -/

namespace CommandLine

open Session

/-- The file of the command line is loaded. -/
structure Loads (n : Nat) (w : World) (op : Options) (file : String)
    (lk : Module) (loaded : Session) : Prop where
  directories : none ∉ op.directories
  loaded : load n file (session w op) = (.ok lk, loaded)

/-- What the program comes to when it prints bindings of a file. -/
inductive ComesTo (n : Nat) (w : World) (op : Options) (file : String) :
    Except Failure Int × Session → Prop
  | exhausted {last : Session}
      (short : (load n file (session w op)).1 = .error .outOfFuel ∨
        Limit.Outlasts op.maxSteps n) :
      ComesTo n w op file (.error .outOfFuel, last)
  | unloaded {fa : Failure} {last : Session} (isFatal : fa.Fatal)
      (fatal : last.console.fatal = true)
      (unloaded : ∀ lk loaded, ¬ Loads n w op file lk loaded) :
      ComesTo n w op file (.error fa, last)
  | tooLarge {lk : Module} {loaded last : Session} (loads : Loads n w op file lk loaded)
      (answered : answers n lk (asked op.bindings) loaded = (.error .unwritable, last))
      (fatal : last.console.fatal = true) (ample : Limit.Ample op.maxSteps)
      (long : Nat.pow 10 Number.mostDigits ≤ last.engine.tally.steps) :
      ComesTo n w op file (.error .unwritable, last)
  | told {lk : Module} {loaded last : Session} {pcs : List (Except Failure String × String)}
      (loads : Loads n w op file lk loaded)
      (answered : answers n lk (asked op.bindings) loaded = (.ok (pcs.map Prod.fst), last))
      (told : List.Forall₂ (Session.Told w.colours lk) (asked op.bindings) pcs)
      (tells : loaded.Tells last (String.join (pcs.map Prod.snd))) :
      ComesTo n w op file (.ok (if (pcs.map Prod.fst).all Except.isOk then 0 else 1), last)

theorem program_eq_runFile
    (named : op.file = some file) (directories : none ∉ op.directories) (n : Nat) :
    program n w op = runFile n op file := by
  simp [program, directories, named]

theorem program_comesTo (named : op.file = some file)
    (printing : op.check = false) (quiet : op.trace = false) (rooted : (session w op).places.Rooted)
    (n : Nat) : ComesTo n w op file (program n w op (session w op)) := by
  by_cases directories : none ∈ op.directories
  · have refused : program n w op (session w op) = (.error .noDirectory, session w op) := by
      simp [program, directories]
      rfl
    rw [refused]
    exact .unloaded .noDirectory rfl fun _ _ loads => loads.directories directories
  · rw [program_eq_runFile named directories, runFile, printing]
    rcases oc : load n file (session w op) with ⟨r, loaded⟩
    have unloaded : ∀ fa, r = .error fa → ∀ lk loaded, ¬ Loads n w op file lk loaded := by
      rintro fa rfl lk o ⟨_, loads⟩
      grind
    cases r with
    | error fa =>
      rw [Action.bind_error oc]
      by_cases exh : fa = .outOfFuel
      · subst exh
        exact .exhausted (.inl (by rw [oc]))
      · obtain ⟨_, _, cs, _⟩ := load_console oc
        have loads := (load_loaded rooted (by simp [Places.Said, session, Session.start])
          file).2 n (by simpa [oc] using exh)
        rw [oc] at loads
        cases loads with
        | failed ofLoading _ =>
          exact .unloaded (.loading ofLoading) (by rw [cs]; rfl) (unloaded _ rfl)
    | ok lk =>
      obtain ⟨serves, idle, fatal, colours, lim⟩ := serves_of_load _ quiet rooted oc
      have loads : Loads n w op file lk loaded := ⟨directories, oc⟩
      have bns := run_eq serves.main n op.bindings
      rw [Action.bind_ok oc, if_neg Bool.false_ne_true]
      rcases serves.answers idle n (asked op.bindings) with
        ⟨fa, last, answered, ofBinding, os, fatalLater⟩ |
        ⟨pcs, last, answered, told, tells⟩
      · have failed : Session.run n op.bindings loaded = (.error fa, last) := by
          rw [bns, Action.map_eq, answered]
          rfl
        rw [Action.bind_error failed]
        rw [lim] at ofBinding
        cases ofBinding with
        | evaluation er tr => exact absurd rfl (os er tr)
        | outOfFuel outlasts => exact .exhausted (.inr outlasts)
        | unwritable ample long =>
          exact .tooLarge loads answered (fatalLater.trans fatal) ample long
      · have done : Session.run n op.bindings loaded =
            (.ok ((pcs.map Prod.fst).all Except.isOk), last) := by
          rw [bns, Action.map_eq, answered]
          rfl
        rw [Action.bind_ok done]
        rw [colours] at told
        exact .told loads answered told tells

section Run

variable {args : List String} {file : String} {n : Nat} {last : Session}

section

variable (pd : parse (some defaultLimit) args = .ok op)

include pd

theorem run_of_ok {code : Int} (done : program n w op (session w op) = (.ok code, last)) :
    run n w args = ⟨.status code, last.console.printed, ""⟩ := by
  simp only [run, pd, guarded, done, ending]

theorem run_of_exhausted (failed : program n w op (session w op) = (.error .outOfFuel, last)) :
    (run n w args).ending = .failure .outOfFuel := by
  simp only [run, pd, guarded, failed, Console.leave, ending]

theorem run_of_fatal (isFatal : fa.Fatal) (fatal : last.console.fatal = true)
    (failed : program n w op (session w op) = (.error fa, last)) :
    (run n w args).ending = .status 1 := by
  have leaves := guarded_fatal failed isFatal fatal
  simp only [run, pd]
  generalize guarded (program n w op) (session w op) = oc at leaves
  obtain ⟨r, aft⟩ := oc
  cases leaves
  rfl

end

/-- The program prints bindings of a file.  It ends, if the steps are bounded, and whenever it
ends it does so with status 0 or 1: with status 0 exactly if the file is loaded and no binding
that is asked for fails.  When the file is loaded, what the program prints then is told of the
bindings in their order, of each one a line or the report of its error, whatever became of the
others.  Only a number of more digits than can be written stops this, which takes as many
steps to be counted. -/
theorem run_status (pd : parse (some defaultLimit) args = .ok op)
    (named : op.file = some file) (printing : op.check = false)
    (quiet : op.trace = false) (absolute : isAbsolute w.working)
    (clean : '\x00' ∉ w.working.toList) :
    ((∃ bound, op.maxSteps = some bound ∧ bound ≠ 0) → ∃ enough, ∀ n, enough ≤ n →
      (run n w args).ending ≠ .failure .outOfFuel) ∧
    ∀ n, (run n w args).ending ≠ .failure .outOfFuel →
      ((run n w args).ending = .status 0 ∨
        (run n w args).ending = .status 1) ∧
      ((run n w args).ending = .status 0 ↔
        ∃ lk loaded given last, Loads n w op file lk loaded ∧
          answers n lk (asked op.bindings) loaded = (.ok given, last) ∧
          ∀ told ∈ given, told.isOk) ∧
      ∀ lk loaded, Loads n w op file lk loaded →
        (∃ pcs last,
          answers n lk (asked op.bindings) loaded = (.ok (pcs.map Prod.fst), last) ∧
          List.Forall₂ (Session.Told w.colours lk) (asked op.bindings) pcs ∧
          (run n w args).output = loaded.console.printed ++ String.join (pcs.map Prod.snd)) ∨
        Limit.Ample op.maxSteps ∧ ∃ last,
          answers n lk (asked op.bindings) loaded = (.error .unwritable, last) ∧
          Nat.pow 10 Number.mostDigits ≤ last.engine.tally.steps := by
  have rooted : (session w op).places.Rooted := ⟨absolute, clean⟩
  have comes := program_comesTo named printing quiet rooted
  constructor
  · rintro ⟨bound, limited, nonzero⟩
    obtain ⟨enough, loads⟩ := (load_loaded rooted (by simp [Places.Said, session, Session.start])
      file).1
    refine ⟨max enough (2 * bound.toNat + 2), fun n large => ?_⟩
    have known := comes n
    generalize came : program n w op (session w op) = oc at known
    cases known with
    | exhausted short =>
      rcases short with exh | outlasts
      · simp_all
      · exact absurd ((Nat.le_max_right ..).trans large)
          (Nat.not_le_of_lt (outlasts bound limited nonzero))
    | unloaded isFatal fatal _ => simp [run_of_fatal pd isFatal fatal came]
    | tooLarge _ _ fatal _ _ => simp [run_of_fatal pd .unwritable fatal came]
    | told => simp [run_of_ok pd came]
  · intro n ended
    have known := comes n
    generalize came : program n w op (session w op) = oc at known
    cases known with
    | exhausted => exact absurd (run_of_exhausted pd came) ended
    | unloaded isFatal fatal unloaded =>
      rw [run_of_fatal pd isFatal fatal came]
      simp_all
    | tooLarge loads answered fatal ample long =>
      rw [run_of_fatal pd .unwritable fatal came]
      refine ⟨.inr rfl, ⟨by simp, ?_⟩, fun lk loaded again => ?_⟩
      · rintro ⟨lk, loaded, given, last, again, gave, _⟩
        cases loads.loaded.symm.trans again.loaded
        grind
      · cases loads.loaded.symm.trans again.loaded
        exact .inr ⟨ample, _, answered, long⟩
    | @told lk loaded last pcs loads answered told tells =>
      rw [run_of_ok pd came]
      refine ⟨?_, ?_, fun o ss again => ?_⟩
      · grind
      · constructor
        · grind
        · rintro ⟨o, ss, given, fi, again, gave, all⟩
          cases loads.loaded.symm.trans again.loaded
          cases answered.symm.trans gave
          rw [if_pos (List.all_eq_true.mpr all)]
      · cases loads.loaded.symm.trans again.loaded
        obtain ⟨tb, _, cs⟩ := tells
        exact .inl ⟨pcs, last, answered, told, by rw [cs]⟩

end Run

/-- A file with a binding that has a value and one that needs its own. -/
def mixedWorld : World :=
  ⟨[(["m.lc"], .holding "I = x => x; Bad = Bad;")], "/library", "/", [], .plain⟩

/-- Both bindings are asked for. -/
def mixedOptions : Options :=
  { file := some "m.lc", bindings := ["I", "Bad"], maxSteps := some defaultLimit }

/-- What is read of the file. -/
def mixedShelf : Except Failure Sources × Shelf :=
  collect (session mixedWorld mixedOptions).places 12 "/m.lc"
    ⟨(session mixedWorld mixedOptions).sources, (session mixedWorld mixedOptions).console⟩

/-- What loading the file comes to. -/
def mixedLoaded : Except Failure Module × Session :=
  (session mixedWorld mixedOptions).outcome "/m.lc" mixedShelf.2
    (linkInOrder (mixedShelf.1.toOption.getD []) ["/m.lc"] [] []
      (session mixedWorld mixedOptions).engine.store)

theorem mixed_loads : Loads 12 mixedWorld mixedOptions "m.lc"
    (mixedLoaded.1.toOption.getD default) mixedLoaded.2 := by
  have named : (session mixedWorld mixedOptions).places.rootId "m.lc" = .ok "/m.lc" := by
    decide +kernel
  have read : mixedShelf.1.toOption = some (mixedShelf.1.toOption.getD []) := by decide +kernel
  have ordered : dependencyOrder (mixedShelf.1.toOption.getD []) [] = .ok ["/m.lc"] :=
    dependencyOrder_of_within 4 (by decide +kernel)
  have loaded : load 12 "m.lc" (session mixedWorld mixedOptions) = _ :=
    load_ordered named rfl read ordered
  rw [← mixedShelf] at loaded
  change _ = mixedLoaded at loaded
  have given : mixedLoaded.1.toOption.isSome := by decide +kernel
  refine ⟨by simp [mixedOptions], loaded.trans (Prod.ext ?_ rfl)⟩
  cases oc : mixedLoaded.1 with
  | ok linked => rfl
  | error failure =>
    rw [oc] at given
    cases given

/-- One binding is printed and the other one is reported, so that the status is 1. -/
theorem run_status_mixed :
    let linked := mixedLoaded.1.toOption.getD default
    let ran := run 12 mixedWorld ["m.lc", "I", "Bad"]
    parse (some defaultLimit) ["m.lc", "I", "Bad"] = .ok mixedOptions ∧
    Loads 12 mixedWorld mixedOptions "m.lc" linked mixedLoaded.2 ∧
    ran.ending = .status 1 ∧
    ∃ pieces, pieces.map Prod.fst =
        [.ok "I = x => x", .error (.evaluation (.cyclic "Bad") ["Bad"])] ∧
      List.Forall₂ (Session.Told .plain linked) ["I", "Bad"] pieces ∧
      ran.output = String.join (pieces.map Prod.snd) := by
  intro linked ran
  have parsed : parse (some defaultLimit) ["m.lc", "I", "Bad"] = .ok mixedOptions := by
    decide +kernel
  have rooted : (session mixedWorld mixedOptions).places.Rooted := ⟨by decide, by decide⟩
  have loads := mixed_loads
  let mid := (answer 12 linked "I" mixedLoaded.2).2
  have first : (answer 12 linked "I" mixedLoaded.2).1 = .ok (.ok "I = x => x") := by
    decide +kernel
  have second : (line 12 "Bad" (mid.registered linked "Bad")).1 =
      .error (.evaluation (.cyclic "Bad") ["Bad"]) := by decide +kernel
  have answered : ∃ last, answers 12 linked ["I", "Bad"] mixedLoaded.2 =
      (.ok [.ok "I = x => x", .error (.evaluation (.cyclic "Bad") ["Bad"])], last) := by
    have reported := answer_of_evaluation (Prod.ext second rfl)
    exact ⟨_, (Action.bind_ok (Prod.ext first rfl) _).trans (Action.bind_ok
      (Action.bind_ok reported _) _)⟩
  obtain ⟨last, answered⟩ := answered
  have main := (serves_of_load _ rfl rooted loads.loaded).1.main
  have done : program 12 mixedWorld mixedOptions (session mixedWorld mixedOptions) =
      (.ok 1, last) := by
    have failing : Session.run 12 ["I", "Bad"] mixedLoaded.2 = (.ok false, last) := by
      rw [run_eq main, Action.map_eq, show answers 12 _ (asked ["I", "Bad"]) _ = _ from answered]
      rfl
    rw [program_eq_runFile rfl loads.directories, runFile, Action.bind_ok loads.loaded]
    exact Action.bind_ok failing _
  have status : ran.ending = .status 1 := congrArg Outcome.ending (run_of_ok parsed done)
  have known := (run_status parsed rfl rfl rfl rooted.absolute rooted.clean).2 12
    (by rw [show (run 12 mixedWorld _).ending = _ from status]; simp)
  rcases known.2.2 _ _ loads with ⟨pieces, _, gave, told, output⟩ | ⟨_, _, large, _⟩
  · have quiet : mixedLoaded.2.console.printed = "" := by decide +kernel
    rw [quiet, String.empty_append] at output
    refine ⟨parsed, loads, status, pieces, ?_, told, output⟩
    exact Except.ok.inj (congrArg Prod.fst (gave.symm.trans answered))
  · cases large.symm.trans answered

end CommandLine

end CallByNeed
