import CallByNeed.Proofs.Recognition
import CallByNeed.Proofs.Scanning
import CallByNeed.Report.Failure

/-!
# Syntax errors point at their source

A parser objects to the next token or to the mark behind the last one, so a
fault names a stretch of a line of the text.  `faults_point` is the main
statement: whichever function reports the fault, it lies on a line of the text
and covers a token, a stray character or the place behind the last character,
and its diagnosis shows the line with that stretch marked.
-/

namespace CallByNeed.Source

variable {fi : Token} {toks rest : List Token} {α β : Type} {bound : Nat}

/-- A parser that fails objects to one of its tokens or to the mark behind
them. -/
def Blames (fi : Token) (toks : List Token) (r : Except Objection α) : Prop :=
  ∀ objection, r = .error objection → objection.token ∈ toks ∨ objection.token = fi

namespace Blames

theorem ok (v : α) : Blames fi toks (.ok v) := nofun

theorem head (complaint : Complaint) (tok : Token) :
    Blames (α := α) fi (tok :: toks) (.error ⟨complaint, tok⟩) := by
  rintro _ ⟨⟩
  simp

theorem next (complaint : Complaint) :
    Blames (α := α) fi [] (.error (objection fi [] complaint)) := by
  rintro _ ⟨⟩
  exact .inr rfl

theorem mono {r : Except Objection α} (blames : Blames fi rest r) (suf : rest <:+ toks) :
    Blames fi toks r := by
  intro objection failed
  exact (blames objection failed).imp (fun mem => suf.subset mem) id

theorem bind {fst : Except Objection α} {next : α → Except Objection β} (head : Blames fi toks fst)
    (tail : ∀ v, fst = .ok v → Blames fi toks (next v)) : Blames fi toks (fst >>= next) := by
  cases r : fst with
  | error objection =>
    rintro _ ⟨⟩
    exact head objection r
  | ok v => exact tail v r

theorem map {fst : Except Objection α} {f : α → β} (head : Blames fi toks fst) :
    Blames fi toks (fst.map f) := by
  cases r : fst with
  | error objection =>
    rintro _ ⟨⟩
    exact head objection r
  | ok v => exact ok _

end Blames

/-- What a parser leaves is an end of what it was given. -/
def Leaves (toks : List Token) (parse : Parse α bound) : Prop :=
  ∀ pd, parse = .ok pd → pd.rest <:+ toks

theorem Leaves.of_sound {clause : List Token → α → Prop}
    (sound : ∀ v rest, Yields parse v rest → ∃ fr, toks = fr ++ rest ∧ clause fr v) :
    Leaves toks parse := by
  intro pd done
  obtain ⟨fr, split, _⟩ := sound pd.value pd.rest ⟨pd.shorter, done⟩
  simp_all

theorem expect_leaves (fi : Token) (kd : TokenKind) (what : Wanted) (toks : List Token) :
    Leaves toks (expect fi kd what toks) := fun pd done =>
    ⟨[pd.value], (yields_expect_cases ⟨pd.shorter, done⟩).1.symm⟩

theorem expect_blames (fi : Token) (kd : TokenKind) (what : Wanted) (toks : List Token) :
    Blames fi toks (expect fi kd what toks) := by
  cases toks with
  | nil => exact .next _
  | cons tok rest =>
    rw [expect]
    split
    · exact .ok _
    · exact .head _ tok

theorem expectFrom_blames (fi : Token) (toks : List Token) :
    Blames fi toks (expectFrom fi toks) := by
  cases toks with
  | nil => exact .next _
  | cons tok rest =>
    rw [expectFrom]
    split
    · exact .ok _
    · exact .head _ tok

mutual

theorem expression_blames (fi : Token) (toks : List Token) :
    Blames fi toks (expression fi toks) := by
  rw [expression]
  split
  · rename_i xs b found
    have smaller := length_lt_of_heading? found
    obtain ⟨fr, split, _⟩ := heading?_sound found
    exact ((expression_blames fi b).mono ⟨fr, split.symm⟩).bind fun _ _ => .ok _
  · refine (operand_blames fi toks).bind fun f fst => ?_
    have smaller := f.shorter
    have l := Leaves.of_sound (fun _ _ => operand_sound) f fst
    exact ((operands_blames fi f.value f.rest).mono l).bind fun _ _ => .ok _
termination_by 2 * toks.length + 1

theorem operands_blames (fi : Token) (f : Term) (toks : List Token) :
    Blames fi toks (operands fi f toks) := by
  rw [operands]
  split
  · rename_i xs b found
    have smaller := length_lt_of_heading? found
    obtain ⟨fr, split, _⟩ := heading?_sound found
    exact ((expression_blames fi b).mono ⟨fr, split.symm⟩).bind fun _ _ => .ok _
  · split
    · refine (operand_blames fi toks).bind fun arg next => ?_
      have smaller := arg.shorter
      have l := Leaves.of_sound (fun _ _ => operand_sound) arg next
      exact ((operands_blames fi _ arg.rest).mono l).bind fun _ _ => .ok _
    · exact .ok _
termination_by 2 * toks.length + 1

theorem operand_blames (fi : Token) (toks : List Token) : Blames fi toks (operand fi toks) := by
  match toks with
  | [] =>
    rw [operand]
    exact .next _
  | tok :: rest =>
    have later := List.suffix_cons tok rest
    rw [operand]
    split
    · exact .ok _
    · split
      · refine ((expression_blames fi rest).mono later).bind fun inn pd => ?_
        have l := Leaves.of_sound (fun _ _ => expression_sound) inn pd
        exact ((expect_blames fi _ _ inn.rest).mono (l.trans later)).bind fun _ _ => .ok _
      · exact .head _ tok
termination_by 2 * toks.length

end

theorem importItem_blames (fi : Token) (toks : List Token) :
    Blames fi toks (importItem fi toks) := by
  refine (expect_blames fi .name .name toks).bind fun x fst => ?_
  have l := expect_leaves _ _ _ _ x fst
  split
  · exact .ok _
  · rename_i tok os split
    rw [split] at l
    have later := (List.suffix_cons tok os).trans l
    split
    · exact ((expect_blames fi .name .name os).mono later).bind fun _ _ => .ok _
    · exact .ok _

theorem importItems_blames (fi : Token) (toks : List Token) :
    Blames fi toks (importItems fi toks) := by
  rw [importItems]
  refine (importItem_blames fi toks).bind fun itm fst => ?_
  have l := Leaves.of_sound (fun _ _ => importItem_sound) itm fst
  have smaller := itm.shorter
  split
  · exact .ok _
  · rename_i tok os split
    rw [split] at l smaller
    have fewer : os.length < toks.length := Nat.lt_of_succ_lt smaller
    have later := (List.suffix_cons tok os).trans l
    split
    · exact ((importItems_blames fi os).mono later).bind fun _ _ => .ok _
    · exact .ok _
termination_by toks.length

theorem importBody_blames (fi : Token) (ln : Nat) (toks : List Token) :
    Blames fi toks (importBody fi ln toks) := by
  refine (expect_blames fi _ _ toks).bind fun opening fst => ?_
  have afterOpening := expect_leaves _ _ _ _ opening fst
  refine ((importItems_blames fi opening.rest).mono afterOpening).bind fun its snd => ?_
  have afterItems := (Leaves.of_sound (fun _ _ => importItems_sound) its snd).trans afterOpening
  refine ((expect_blames fi _ _ its.rest).mono afterItems).bind fun closing thd => ?_
  have afterClosing := (expect_leaves _ _ _ _ closing thd).trans afterItems
  refine ((expectFrom_blames fi closing.rest).mono afterClosing).bind fun word fourth => ?_
  have afterWord : word.rest <:+ closing.rest :=
    ⟨[word.value], (yields_expectFrom_cases ⟨word.shorter, fourth⟩).1.symm⟩
  exact ((expect_blames fi _ _ word.rest).mono (afterWord.trans afterClosing)).bind fun _ _ => .ok _

theorem bindingBody_blames (fi x : Token) (toks : List Token) :
    Blames fi toks (bindingBody fi x toks) := by
  refine (expect_blames fi _ _ toks).bind fun equals fst => ?_
  have l := expect_leaves _ _ _ _ equals fst
  exact ((expression_blames fi equals.rest).mono l).bind fun _ _ => .ok _

theorem terminated_blames (fi : Token) (pd : Parsed α bound) :
    Blames fi pd.rest (terminated fi pd) := (expect_blames fi _ _ pd.rest).bind fun _ _ => .ok _

theorem statement_blames (fi : Token) (toks : List Token) : Blames fi toks (statement fi toks) := by
  match toks with
  | [] => exact .next _
  | fst :: rest =>
    have later := List.suffix_cons fst rest
    rw [statement]
    split
    · rename_i starts
      refine ((importBody_blames fi fst.line rest).mono later).bind fun pd b => ?_
      have word : fst.isKeyword "import" ∨ fst.isKeyword "use" := by
        simpa [startsImport] using starts
      have l := Leaves.of_sound (fun _ _ => importBody_sound word) pd b
      exact ((terminated_blames fi pd).mono (l.trans later)).bind fun _ _ => .ok _
    · split
      · refine ((bindingBody_blames fi fst rest).mono later).bind fun pd b => ?_
        have isName : fst.kind = .name := by
          cases rest <;> simp_all [startsBinding]
        have l := Leaves.of_sound (fun _ _ => bindingBody_sound isName) pd b
        exact ((terminated_blames fi pd).mono (l.trans later)).bind fun _ _ => .ok _
      · exact .head _ fst

theorem statements_blames (fi : Token) (toks : List Token) :
    Blames fi toks (statements fi toks) := by
  fun_induction statements fi toks with
  | case1 => exact .ok _
  | case2 fst rest ih =>
    refine (statement_blames fi (fst :: rest)).bind fun head pd => ?_
    have l : head.rest <:+ fst :: rest := by
      obtain ⟨fr, semi, split, _⟩ := statement_sound ⟨head.shorter, pd⟩
      exact ⟨fr ++ [semi], by simp [split]⟩
    exact ((ih head).mono l).bind fun _ _ => .ok _

theorem expectEnd_blames (fi : Token) (toks : List Token) : Blames fi toks (expectEnd toks) := by
  cases toks with
  | nil => exact .ok _
  | cons tok _ => exact .head _ tok

theorem entryBody_blames (fi : Token) (toks : List Token) : Blames fi toks (entryBody fi toks) := by
  match toks with
  | [] => exact (expression_blames fi []).map
  | fst :: rest =>
    have later := List.suffix_cons fst rest
    rw [entryBody]
    split
    · exact ((importBody_blames fi fst.line rest).mono later).map
    · split
      · exact ((bindingBody_blames fi fst rest).mono later).map
      · exact (expression_blames fi (fst :: rest)).map

/-! ### Stretches of a line -/

theorem between_eq (src : String) (st0 stop : Nat) :
    Text.between src st0 stop = String.ofList ((src.toList.take stop).drop st0) := by
  grind [Text.position, Text.between, List.drop_eq_nil_of_le]

theorem between_split (src : String) {st0 stop : Nat} (ordered : st0 ≤ stop) :
    Text.between src 0 st0 ++ Text.between src st0 stop
      ++ Text.between src stop src.length = src := by
  have fst : src.toList.take st0 = (src.toList.take stop).take st0 := by grind
  have zero := between_eq src 0 st0
  grind [between_eq, List.take_append_drop, String.length_toList, String.ofList_toList]

variable {ft : ParseFault} {tx : String}

/-- The diagnosis of a fault without colours: its line, and a line that points at the
stretch. -/
theorem diagnose_fault (ordered : ft.start < ft.stop) (colour : Text.Colour) :
    ft.notice.diagnose .plain colour =
      .ok ("  " ++ ft.source ++ "\n" ++ Text.copies (ft.start + 2) ' ' ++ "^"
        ++ Text.copies (ft.stop - ft.start - 1) '~') := by
  have finish : max (ft.stop : Int) (ft.start + 1) = ft.stop := by omega
  have indent : Text.copies (ft.start + 2) ' ' = "  " ++ Text.copies ft.start ' ' := by
    apply String.toList_injective
    simp only [Text.copies, String.toList_append, String.toList_ofList, Int.toNat_natCast,
      show ((ft.start : Int) + 2).toNat = ft.start + 2 by omega]
    rfl
  have whole := between_split ft.source ordered.le
  simp only [Notice.diagnose, ParseFault.notice, Notice.ofSyntax, Notice.marked, Notice.finish,
    Notice.subject, Text.Style.plain, Option.getD_some, List.headD_cons, finish, if_true, indent]
  grind

/-! ### Faults -/

/-- A fault over a token of the text, to which a parser objects. -/
def AtToken (tx : String) (ft : ParseFault) : Prop :=
  ∃ scn complaint tok, scan tx = .ok scn ∧ tok ∈ scn.tokens ∧
    ft = Objection.fault (Text.lines tx) ⟨complaint, tok⟩ ∧
    Text.between ft.source ft.start ft.stop = tok.text

/-- A fault over a single character, at which scanning ends. -/
def AtCharacter (tx : String) (ft : ParseFault) : Prop :=
  ∃ stray ch, scan tx = .error stray ∧ ft = stray.fault ∧
    Text.between ft.source ft.start ft.stop = String.ofList [ch]

/-- A fault behind the last character. -/
def AtEnd (tx : String) (ft : ParseFault) : Prop :=
  ft.line = (Text.lines tx).length ∧ ft.start = ft.source.length ∧ ft.stop = ft.start + 1

/-- A fault lies on a line of the text. -/
structure PointsInto (tx : String) (ft : ParseFault) : Prop where
  line : 1 ≤ ft.line ∧ ft.line ≤ (Text.lines tx).length
  source : (Text.lines tx)[ft.line - 1]? = some ft.source
  start : ft.start ≤ ft.source.length
  stretch : AtToken tx ft ∨ AtCharacter tx ft ∨ AtEnd tx ft

theorem TiledLines.place (tiled : TiledLines num lns toks) (mem : tok ∈ toks) :
    num ≤ tok.line ∧ ∃ src, lns[tok.line - num]? = some src ∧
      tok.column + tok.text.length ≤ src.toList.length ∧
      Foremost tok.kind tok.text.toList (src.toList.drop tok.column) := by
  induction tiled with
  | nil => simp at mem
  | @cons num ln lns toks os fst _ ih =>
    rcases List.mem_append.1 mem with here | later
    · unfold TiledLine at fst
      split at fst
      · simp [fst] at here
      · obtain ⟨onLine, _, fits, foremost⟩ := fst.placed tok here
        simp_all
    grind

theorem Spelling.ne_nil (spelling : Spelling kd chs) :
    chs ≠ [] := by
  cases spelling <;> simp

theorem token_points {scn : Scanned} (done : scan tx = .ok scn) (complaint : Complaint) (mem : tok ∈ scn.tokens) :
    PointsInto tx (Objection.fault (Text.lines tx) ⟨complaint, tok⟩) := by
  obtain ⟨lns, tiled⟩ := tiledLines_of_scan done
  obtain ⟨fst, src, found, fits, foremost⟩ := (lns ▸ tiled).place mem
  have same : (Text.lines tx).getD (tok.line - 1) "" = src := by simp_all
  obtain ⟨inside, _⟩ := List.getElem?_eq_some_iff.1 found
  have visible : 1 ≤ tok.text.length := by
    exact List.length_pos_iff.2 foremost.spelling.ne_nil
  refine ⟨⟨fst, by simp [Objection.fault]; omega⟩, ?_, ?_, .inl ?_⟩
  · simpa only [Objection.fault, same] using found
  · grind [Objection.fault, String.length_toList]
  · refine ⟨scn, complaint, tok, done, mem, rfl, ?_⟩
    obtain ⟨rest, split⟩ := foremost.front
    grind [Objection.fault, max_eq_left, between_eq, String.length_toList, String.ofList_toList]

theorem stray_points (failed : scan tx = .error stray) :
    PointsInto tx stray.fault := by
  have fst := firstStray_of_scan failed
  obtain ⟨bef, aft, split, pl, _⟩ := fst.split
  obtain ⟨ch, rest, here, _⟩ := fst.stuck
  have inside : stray.column < stray.source.toList.length := by
    by_contra past
    grind [List.drop_eq_nil_of_le]
  refine ⟨?_, ?_, ?_, .inr (.inl ⟨stray, ch, failed, rfl, ?_⟩)⟩
  · grind [StrayCharacter.fault]
  · grind [StrayCharacter.fault]
  · exact inside.le
  grind [StrayCharacter.fault, between_eq]

theorem lines_ne_nil (tx : String) : Text.lines tx ≠ [] := by
  unfold Text.lines
  cases tx.toList with
  | nil => simp [Text.splitAt]
  | cons ch rest => grind [Text.splitAt]

theorem end_points (tx : String) (complaint : Complaint) :
    PointsInto tx (Objection.fault (Text.lines tx) ⟨complaint, endMark (Text.lines tx)⟩) := by
  have some := lines_ne_nil tx
  have length := List.length_pos_iff.2 some
  have last : (Text.lines tx)[(Text.lines tx).length - 1]? =
      Option.some ((Text.lines tx).getLastD "") := by grind
  have same : (Text.lines tx).getD ((Text.lines tx).length - 1) "" =
      (Text.lines tx).getLastD "" := by simp_all
  refine ⟨⟨length, le_rfl⟩, ?_, ?_, .inr (.inr ⟨rfl, ?_, rfl⟩)⟩ <;>
    simp only [Objection.fault, endMark, same, last, le_refl]

theorem parseText_points {parser : Token → List Token → Except Objection α}
    (blames : ∀ fi toks, Blames fi toks (parser fi toks))
    (failed : parseText parser tx = .error ft) : PointsInto tx ft := by
  unfold parseText at failed
  split at failed
  · grind [stray_points]
  · rename_i scn done
    have lns := (tiledLines_of_scan done).1
    cases pd : parser scn.final scn.tokens with
    | ok v =>
      rw [pd] at failed
      cases failed
    | error objection =>
      rw [pd] at failed
      cases failed
      rw [lns]
      rcases blames _ _ objection pd with mem | last
      · exact token_points done objection.complaint mem
      · have points := end_points tx objection.complaint
        rwa [← lns, ← Scanned.final, ← last, lns] at points

/-- A fault is reported for a text: by scanning it, or by parsing it as an
expression, an entry or a module. -/
def Reported (tx : String) (ft : ParseFault) : Prop :=
  (∃ stray, scan tx = .error stray ∧ stray.fault = ft) ∨ parseTerm tx = .error ft ∨
    parseEntry tx = .error ft ∨ ∃ id ph, parseModule tx id ph = .error ft

theorem Reported.points (reported : Reported tx ft) : PointsInto tx ft := by
  rcases reported with ⟨stray, failed, rfl⟩ | failed | failed | ⟨id, ph, failed⟩
  · exact stray_points failed
  · refine parseText_points (fun fi toks => ?_) failed
    refine (expression_blames fi toks).bind fun pd done => ?_
    have l := Leaves.of_sound (fun _ _ => expression_sound) pd done
    exact ((expectEnd_blames fi pd.rest).mono l).bind fun _ _ => .ok _
  · refine parseText_points (fun fi toks => ?_) failed
    refine (entryBody_blames fi toks).bind fun pd done => ?_
    obtain ⟨fr, split, _⟩ := entryBody_sound done
    have l : skipSemicolon pd.2 <:+ pd.2 := by
      cases pd.2 with
      | nil => exact List.suffix_rfl
      | cons tok rest => grind [skipSemicolon]
    exact ((expectEnd_blames fi _).mono (l.trans ⟨fr, split.symm⟩)).bind fun _ _ => .ok _
  · unfold parseModule at failed
    cases pd : parseText statements tx with
    | error o =>
      rw [pd] at failed
      cases failed
      exact parseText_points statements_blames pd
    | ok v =>
      rw [pd] at failed
      cases failed

theorem PointsInto.ordered (points : PointsInto tx ft) : ft.start < ft.stop := by
  rcases points.stretch with ⟨_, _, _, _, _, rfl, _⟩ | ⟨_, _, _, rfl, _⟩ | ⟨_, _, stop⟩
  · simp only [Objection.fault]
    omega
  · exact Nat.lt_succ_self _
  · omega

/-- Every syntax error points at real source, and its diagnosis shows the line with the
stretch underlined. -/
theorem faults_point {tx : String} {ft : ParseFault} (reported : Reported tx ft) :
    PointsInto tx ft ∧ ∀ colour, ft.notice.diagnose .plain colour =
      .ok ("  " ++ ft.source ++ "\n" ++ Text.copies (ft.start + 2) ' ' ++ "^"
        ++ Text.copies (ft.stop - ft.start - 1) '~') :=
  ⟨reported.points, diagnose_fault reported.points.ordered⟩

theorem scan_digit : scan "x 1" = .error ⟨"x 1", 1, 2⟩ := by
  have ln : scanLine 1 0 ['x', ' ', '1'] = .error 2 := by
    simp [scanLine, lexeme?, Text.isBlank, Text.blankRanges, startsName, markKind?, continuesName,
      Bind.bind, Except.bind]
  have comment : isComment "x 1" = false := by decide +kernel
  have lns : Text.lines "x 1" = ["x 1"] := by decide +kernel
  grind [scan, scanLines, Except.map]

theorem faults_point_digit :
    PointsInto "x 1" ⟨"unexpected character", "x 1", 1, 2, 3⟩ ∧
      Notice.diagnose .plain .red (ParseFault.notice ⟨"unexpected character", "x 1", 1, 2, 3⟩) =
        .ok "  x 1\n    ^" := by
  have points := faults_point (.inl ⟨_, scan_digit, rfl⟩)
  exact ⟨points.1, points.2 .red⟩

end CallByNeed.Source
