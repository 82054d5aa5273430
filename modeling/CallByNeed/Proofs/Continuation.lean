import CallByNeed.Proofs.Paths
import CallByNeed.Proofs.Recognition
import CallByNeed.Proofs.Requests
import CallByNeed.Proofs.Scanning
import CallByNeed.Shell

/-!
# Entries of several lines

The shell joins the lines of an entry with blanks, where a file has newlines.
`Reads` is what scanning gives but for the places of the tokens.  Joined lines
read as the lines do one after the other, and the grammar does not ask where a
token stands, so the entry is the same (`split_entry_same`).
-/

variable {pending : String} {en : Entry}

namespace CallByNeed.Source

/-- The kind and the text of a token. -/
def Token.shape (tok : Token) : TokenKind × String := (tok.kind, tok.text)

/-- A text is cut into tokens of these shapes. -/
inductive Reads : List Char → List (TokenKind × String) → Prop where
  | nil : Reads [] []
  | blank {ch : Char} {rest : List Char} {shapes : List (TokenKind × String)}
      (isBlank : Text.isBlank ch) (os : Reads rest shapes) : Reads (ch :: rest) shapes
  | token {kd : TokenKind} {chs rest : List Char} {shapes : List (TokenKind × String)}
      (cuts : Cuts kd chs rest) (os : Reads rest shapes) :
      Reads (chs ++ rest) ((kd, String.ofList chs) :: shapes)

variable {ch : Char} {kd : TokenKind} {tx chs fr bk rest : List Char}
  {fst snd shapes : List (TokenKind × String)} {ln col : Nat} {toks : List Token}

theorem reads_of_scanLine (scn : scanLine ln col tx = .ok toks) :
    Reads tx (toks.map Token.shape) := by
  fun_induction scanLine ln col tx generalizing toks with
  | case1 =>
    cases scn
    exact .nil
  | case2 col ch rest blank ih => exact .blank blank (ih scn)
  | case3 => cases scn
  | case4 col ch rest visible lexeme found ih =>
    obtain ⟨os, pd, same⟩ := ok_of_bind scn
    cases same
    obtain ⟨whole, cuts⟩ := lexeme?_cuts found
    have reads := Reads.token cuts (ih pd)
    rwa [← whole] at reads

theorem not_isBlank_of_continuesName (continues : continuesName ch) : Text.isBlank ch = false := by
  simp only [continuesName, Char.isAlphanum, Char.isDigit, Char.isAlpha, Char.isUpper,
    Char.isLower, Bool.or_eq_true, Bool.and_eq_true, decide_eq_true_eq, ge_iff_le,
    UInt32.le_iff_toNat_le, List.contains_eq_mem, List.mem_cons, List.not_mem_nil,
    or_false] at continues
  have bound : 33 ≤ ch.toNat ∧ ch.toNat ≤ 122 := by
    rcases continues with ((⟨low, high⟩ | ⟨low, high⟩) | ⟨low, high⟩) | rfl | rfl | rfl | rfl
    all_goals first | decide | (simp at low high; omega)
  simp [Text.isBlank, Text.blankRanges]
  omega

/-- A token neither starts nor ends with a blank. -/
theorem Spelling.visible (spelling : Spelling kd chs) :
    (∀ ch ∈ chs.head?, Text.isBlank ch = false) ∧ ∀ ch ∈ chs.getLast?, Text.isBlank ch = false := by
  cases spelling with
  | @word fst rest starts continues =>
    have visible : ∀ ch ∈ fst :: rest, Text.isBlank ch = false := by
      simp_all [not_isBlank_of_startsName, not_isBlank_of_continuesName]
    grind
  | quoted =>
    rw [List.getLast?_concat]
    constructor <;> simp <;> decide
  | arrow => constructor <;> simp <;> decide
  | mark isMark => constructor <;> simpa using not_isBlank_of_mark isMark

theorem Cuts.scanLine (cuts : Cuts kd chs rest)
    (scn : scanLine ln (col + chs.length) rest = .ok toks) :
    Source.scanLine ln col (chs ++ rest) = .ok (⟨kd, String.ofList chs, ln, col⟩ :: toks) := by
  have visible := cuts.spelling.visible.1
  obtain ⟨lexeme, found, sameKind, sameChars, sameRest⟩ := cuts.found
  cases chs with
  | nil => cases cuts
  | cons fst os => simp_all [scanLine_lexeme]

theorem Reads.scanned (reads : Reads tx shapes) (ln col : Nat) :
    ∃ toks, scanLine ln col tx = .ok toks ∧ toks.map Token.shape = shapes := by
  induction reads generalizing col with
  | nil => exact ⟨[], by rw [scanLine], rfl⟩
  | @blank ch rest shapes isBlank _ ih =>
    rw [scanLine_blank isBlank]
    exact ih (col + 1)
  | @token kd chs rest shapes cuts _ ih =>
    obtain ⟨toks, scn, rfl⟩ := ih (col + chs.length)
    exact ⟨_, cuts.scanLine scn, rfl⟩

/-- A token is cut off in the same way before an end that starts with a blank. -/
theorem Cuts.append_iff (apart : ∀ ch ∈ bk.head?, Text.isBlank ch) :
    Cuts kd chs (rest ++ bk) ↔ Cuts kd chs rest := by
  have head : ∀ ch, ch ∈ (rest ++ bk).head? → ch ∈ rest.head? ∨ rest = [] ∧ Text.isBlank ch := by
    cases rest with
    | nil => exact fun ch fst => .inr ⟨rfl, apart ch fst⟩
    | cons => exact fun ch fst => .inl fst
  have bk : ∀ ch, ch ∈ rest.head? → ch ∈ (rest ++ bk).head? := by
    cases rest <;> simp
  constructor
  · intro cuts
    cases cuts with
    | word starts continues delimits =>
      exact .word starts continues fun ch fst => delimits ch (bk ch fst)
    | quoted plain => exact .quoted plain
    | arrow => exact .arrow
    | mark isMark noArrow => exact .mark isMark fun same fst => noArrow same (bk _ fst)
  · intro cuts
    cases cuts with
    | word starts continues delimits =>
      refine .word starts continues fun ch fst => ?_
      rcases head ch fst with inside | ⟨_, blank⟩
      · exact delimits ch inside
      · by_contra continues
        simp_all [not_isBlank_of_continuesName]
    | quoted plain => exact .quoted plain
    | arrow => exact .arrow
    | mark isMark noArrow =>
      refine .mark isMark fun same fst => ?_
      rcases head '>' fst with inside | ⟨_, blank⟩
      · simp_all
      · cases blank

theorem Reads.append (reads : Reads fr fst) (follows : Reads bk snd)
    (apart : ∀ ch ∈ bk.head?, Text.isBlank ch) : Reads (fr ++ bk) (fst ++ snd) := by
  induction reads with
  | nil => exact follows
  | blank isBlank _ ih => exact .blank isBlank ih
  | @token kd chs rest shapes cuts _ ih =>
    rw [List.append_assoc, List.cons_append]
    exact .token ((Cuts.append_iff apart).2 cuts) ih

theorem Reads.of_blank (reads : Reads (ch :: rest) shapes) (isBlank : Text.isBlank ch) :
    Reads rest shapes := by
  generalize whole : ch :: rest = tx at reads
  cases reads with
  | nil => cases whole
  | blank _ os => simp_all
  | @token kd chs _ _ cuts os =>
    cases chs with
    | nil => cases cuts
    | cons fst more =>
      cases whole
      rw [cuts.spelling.visible.1 ch rfl] at isBlank
      cases isBlank

theorem Reads.trimLeft (reads : Reads tx shapes) : Reads (Text.trimLeft tx) shapes := by
  unfold Text.trimLeft
  induction tx with
  | nil => exact reads
  | cons ch rest ih =>
    rw [List.dropWhile_cons]
    split
    · rename_i blank
      exact ih (reads.of_blank blank)
    · exact reads

theorem Reads.of_concat (reads : Reads (tx ++ [ch]) shapes) (isBlank : Text.isBlank ch) :
    Reads tx shapes := by
  generalize whole : tx ++ [ch] = all at reads
  have apart : ∀ o ∈ [ch].head?, Text.isBlank o := by simpa using isBlank
  induction reads generalizing tx with
  | nil => simp at whole
  | @blank fst rest shapes leads os ih =>
    cases tx with
    | nil => simp_all
    | cons fst tx =>
      cases whole
      exact .blank leads (ih rfl)
  | @token kd chs rest shapes cuts os ih =>
    rcases List.append_eq_append_iff.1 whole with ⟨more, rfl, split⟩ | ⟨more, rfl, rfl⟩
    · rcases List.append_eq_singleton_iff.1 split.symm with ⟨rfl, rfl⟩ | ⟨rfl, rfl⟩
      · rw [List.append_nil] at cuts ⊢
        have alone := (Cuts.append_iff apart).1 (show Cuts kd tx ([] ++ [ch]) from cuts)
        have tok := Reads.token alone (os.of_blank isBlank)
        grind
      · have last := cuts.spelling.visible.2 ch (by simp)
        grind
    · exact .token ((Cuts.append_iff apart).1 cuts) (ih rfl)

theorem Reads.trimRight (reads : Reads tx shapes) : Reads (Text.trimRight tx) shapes := by
  induction tx using List.reverseRecOn with
  | nil => exact reads
  | append_singleton tx ch ih =>
    unfold Text.trimRight
    rw [List.reverse_append, List.reverse_singleton, List.singleton_append, List.dropWhile_cons]
    split
    · rename_i blank
      exact ih (reads.of_concat blank)
    simp_all

theorem Reads.eq_nil (reads : Reads [] shapes) : shapes = [] := by
  generalize whole : ([] : List Char) = tx at reads
  cases reads with
  | nil => rfl
  | blank => cases whole
  | token cuts =>
    obtain ⟨rfl, _⟩ := List.append_eq_nil_iff.1 whole.symm
    cases cuts

theorem reads_joinPending {next : String} (reads : Reads pending.toList fst)
    (follows : Reads next.toList snd) :
    Reads (Shell.joinPending pending next).toList (fst ++ snd) := by
  unfold Shell.joinPending
  split
  · rename_i empty
    rw [String.isEmpty_iff.1 empty] at reads
    rwa [reads.eq_nil]
  · have spaced : Reads (' ' :: next.toList) snd := .blank (by decide) follows
    have joined := reads.append spaced (by simp; decide)
    have trimmed := joined.trimLeft.trimRight
    simp_all [Text.trimmed, Text.trim]

/-! ### Tokens without their places -/

section Places

variable {os : List Token} {xs : List Name} {t : Term}

/-- The same tokens at other places. -/
def Alike (os toks : List Token) : Prop := os.map Token.shape = toks.map Token.shape

theorem Alike.cons (alike : Alike os (tok :: toks)) :
    ∃ o rest, os = o :: rest ∧ o.kind = tok.kind ∧ o.text = tok.text ∧ Alike rest toks := by
  obtain ⟨o, rest, rfl, shape, same⟩ := List.map_eq_cons_iff.1 alike
  obtain ⟨kd, tx⟩ := Prod.mk.inj shape
  exact ⟨o, rest, rfl, kd, tx, same⟩

theorem Alike.nil (alike : Alike os []) : os = [] := List.map_eq_nil_iff.1 alike

theorem Alike.append {fr bk : List Token} (alike : Alike os (fr ++ bk)) :
    ∃ l r, os = l ++ r ∧ Alike l fr ∧ Alike r bk := by
  grind [Alike, List.map_eq_append_iff]

theorem Alike.isKeyword {o tok : Token} (kd : o.kind = tok.kind) (tx : o.text = tok.text)
    (word : String) : o.isKeyword word = tok.isKeyword word := by
  simp only [Token.isKeyword, kd, tx]

theorem Parameters.alike (pars : Parameters toks xs) (alike : Alike os toks) :
    Parameters os xs := by
  induction pars generalizing os with
  | single x =>
    obtain ⟨_, _, rfl, kd, tx, alike⟩ := alike.cons
    obtain rfl := alike.nil
    exact tx ▸ .single (kd.trans x)
  | more x comma _ ih =>
    obtain ⟨_, _, rfl, kd, tx, alike⟩ := alike.cons
    obtain ⟨_, _, rfl, mark, _, alike⟩ := alike.cons
    exact tx ▸ .more (kd.trans x) (mark.trans comma) (ih alike)

mutual

theorem Expression.alike {toks os : List Token} {t : Term} (alike : Alike os toks) :
    Expression toks t → Expression os t
  | .row row => .row (row.alike alike)
  | .abstraction abstraction => .abstraction (abstraction.alike alike)
  | .applied row last => by
    obtain ⟨_, _, rfl, fst, snd⟩ := alike.append
    exact .applied (row.alike fst) (last.alike snd)

theorem Row.alike {toks os : List Token} {t : Term} (alike : Alike os toks) :
    Row toks t → Row os t
  | .single opd => .single (opd.alike alike)
  | .more row opd => by
    obtain ⟨_, _, rfl, fst, snd⟩ := alike.append
    exact .more (row.alike fst) (opd.alike snd)

theorem Abstraction.alike {toks os : List Token} {t : Term}
    (alike : Alike os toks) : Abstraction toks t → Abstraction os t
  | .plain x isArrow inn => by
    obtain ⟨_, _, rfl, kd, tx, alike⟩ := alike.cons
    obtain ⟨_, _, rfl, arrow, _, alike⟩ := alike.cons
    exact tx ▸ .plain (kd.trans x) (arrow.trans isArrow) (inn.alike alike)
  | .list opens pars closes isArrow inn => by
    obtain ⟨_, _, rfl, opening, _, alike⟩ := alike.cons
    obtain ⟨_, _, rfl, listed, alike⟩ := alike.append
    obtain ⟨_, _, rfl, closing, _, alike⟩ := alike.cons
    obtain ⟨_, _, rfl, arrow, _, alike⟩ := alike.cons
    exact .list (opening.trans opens) (pars.alike listed) (closing.trans closes)
      (arrow.trans isArrow) (inn.alike alike)

theorem Operand.alike {toks os : List Token} {t : Term} (alike : Alike os toks) :
    Operand toks t → Operand os t
  | .name x => by
    obtain ⟨_, _, rfl, kd, tx, alike⟩ := alike.cons
    obtain rfl := alike.nil
    exact tx ▸ .name (kd.trans x)
  | .parenthesised opens inn closes => by
    obtain ⟨_, _, rfl, opening, _, alike⟩ := alike.cons
    obtain ⟨_, _, rfl, b, alike⟩ := alike.append
    obtain ⟨_, _, rfl, closing, _, alike⟩ := alike.cons
    obtain rfl := alike.nil
    exact .parenthesised (opening.trans opens) (inn.alike b) (closing.trans closes)

end

theorem Item.alike (listed : Item toks itm) (alike : Alike os toks) :
    Item os itm := by
  cases listed with
  | plain x =>
    obtain ⟨_, _, rfl, kd, tx, alike⟩ := alike.cons
    obtain rfl := alike.nil
    exact tx ▸ .plain (kd.trans x)
  | renamed x isAs otherName =>
    obtain ⟨_, _, rfl, kd, tx, alike⟩ := alike.cons
    obtain ⟨_, _, rfl, wordKind, word, alike⟩ := alike.cons
    obtain ⟨_, _, rfl, otherKind, otherText, alike⟩ := alike.cons
    obtain rfl := alike.nil
    rw [← Alike.isKeyword wordKind word] at isAs
    exact tx ▸ otherText ▸ .renamed (kd.trans x) isAs (otherKind.trans otherName)

theorem Items.alike (listed : Items toks its) (alike : Alike os toks) :
    Items os its := by
  induction listed generalizing os with
  | single only => exact .single (only.alike alike)
  | more fst comma _ ih =>
    obtain ⟨_, _, rfl, itm, alike⟩ := alike.append
    obtain ⟨_, _, rfl, mark, _, alike⟩ := alike.cons
    exact .more (fst.alike itm) (mark.trans comma) (ih alike)

/-- An entry without the number of its line. -/
def Entry.unnumbered : Entry → Entry
  | .imports stm => .imports { stm with line := 0 }
  | .binds bn => .binds { bn with line := 0 }
  | .expression t => .expression t

theorem EntryClause.alike (clause : EntryClause toks en) (alike : Alike os toks) :
    ∃ o, EntryClause os o ∧ o.unnumbered = en.unnumbered := by
  cases clause with
  | imports clause =>
    obtain ⟨starts, opens, listed, closes, isFrom, quoted⟩ := clause
    obtain ⟨_, _, rfl, wordKind, word, alike⟩ := alike.cons
    obtain ⟨_, _, rfl, opening, _, alike⟩ := alike.cons
    obtain ⟨_, _, rfl, its, alike⟩ := alike.append
    obtain ⟨_, _, rfl, closing, _, alike⟩ := alike.cons
    obtain ⟨_, _, rfl, jointKind, joint, alike⟩ := alike.cons
    obtain ⟨_, _, rfl, pathKind, ph, alike⟩ := alike.cons
    obtain rfl := alike.nil
    rw [← Alike.isKeyword wordKind word, ← Alike.isKeyword wordKind word] at starts
    rw [← Alike.isKeyword jointKind joint] at isFrom
    refine ⟨_, .imports (.clause starts (opening.trans opens) (listed.alike its)
      (closing.trans closes) isFrom (pathKind.trans quoted)), ?_⟩
    simp only [Entry.unnumbered, ph]
  | binds clause =>
    obtain ⟨isName, isEquals, bound⟩ := clause
    obtain ⟨_, _, rfl, kd, tx, alike⟩ := alike.cons
    obtain ⟨_, _, rfl, equals, _, alike⟩ := alike.cons
    refine ⟨_, .binds (.clause (kd.trans isName) (equals.trans isEquals) (bound.alike alike)), ?_⟩
    simp only [Entry.unnumbered, tx]
  | expression clause => exact ⟨_, .expression (clause.alike alike), rfl⟩

theorem EntryText.alike (tx : EntryText toks en) (alike : Alike os toks) :
    ∃ o, EntryText os o ∧ o.unnumbered = en.unnumbered := by
  cases tx with
  | bare clause =>
    obtain ⟨o, clause, same⟩ := clause.alike alike
    exact ⟨o, .bare clause, same⟩
  | ended clause ends =>
    obtain ⟨_, _, rfl, fr, alike⟩ := alike.append
    obtain ⟨_, _, rfl, kd, _, alike⟩ := alike.cons
    obtain rfl := alike.nil
    obtain ⟨o, clause, same⟩ := clause.alike fr
    exact ⟨o, .ended clause (kd.trans ends), same⟩

/-- Both texts are the same entry but for the numbers of lines, or neither is one. -/
def SameEntry (tx o : String) : Prop :=
  (parseEntry tx).toOption.map Entry.unnumbered = (parseEntry o).toOption.map Entry.unnumbered

theorem parseEntry_alike {tx o : String} {scn again : Scanned} (fst : scan tx = .ok scn)
    (snd : scan o = .ok again) (alike : Alike again.tokens scn.tokens)
    (pd : parseEntry tx = .ok en) : ∃ r, parseEntry o = .ok r ∧ r.unnumbered = en.unnumbered := by
  obtain ⟨_, found, clause⟩ := (parseEntry_decides.accepts tx en).1 pd
  cases fst.symm.trans found
  obtain ⟨r, derived, same⟩ := clause.alike alike
  exact ⟨r, (parseEntry_decides.accepts o r).2 ⟨again, snd, derived⟩, same⟩

theorem sameEntry_of_alike {tx o : String} {scn again : Scanned} (fst : scan tx = .ok scn)
    (snd : scan o = .ok again) (alike : Alike again.tokens scn.tokens) : SameEntry tx o := by
  unfold SameEntry
  cases pd : parseEntry tx with
  | ok en => grind [parseEntry_alike, Except.toOption]
  | error ft =>
    cases done : parseEntry o with
    | error => rfl
    | ok r =>
      obtain ⟨_, again, _⟩ := parseEntry_alike snd fst alike.symm done
      simp_all

end Places

/-! ### Lines and texts -/

/-- Lines are read one after the other. -/
inductive ReadsLines : List String → List (TokenKind × String) → Prop where
  | nil : ReadsLines [] []
  | cons {ln : String} {lns : List String} {fst snd : List (TokenKind × String)}
      (newline : '\n' ∉ ln.toList) (reads : Reads ln.toList fst)
      (rest : ReadsLines lns snd) : ReadsLines (ln :: lns) (fst ++ snd)

theorem ReadsLines.scanned (reads : ReadsLines lns shapes) (num : Nat) :
    ∃ toks, scanLines num lns = .ok toks ∧ toks.map Token.shape = shapes := by
  induction reads generalizing num with
  | nil => exact ⟨[], rfl, rfl⟩
  | cons _ reads _ ih =>
    obtain ⟨toks, done, rfl⟩ := reads.scanned num 0
    obtain ⟨os, later, rfl⟩ := ih (num + 1)
    grind [scanLines, isComment_of_scanLine, Except.map]

/-- What lines that are joined by newlines are scanned as. -/
theorem ReadsLines.scan (reads : ReadsLines lns shapes) (some : lns ≠ []) :
    ∃ scn, scan (String.intercalate "\n" lns) = .ok scn ∧
      scn.tokens.map Token.shape = shapes := by
  have newline : ∀ ln ∈ lns, '\n' ∉ ln.toList := by
    clear some
    induction reads with
    | nil => simp
    | cons newline _ _ ih => simpa using ⟨newline, ih⟩
  have cut : Text.lines (String.intercalate "\n" lns) = lns := by
    have pcs : Text.splitAt '\n' (['\n'].intercalate (lns.map String.toList)) =
        lns.map String.toList :=
      Text.splitAt_intercalate (by simpa using some) (by simpa using newline)
    simp [Text.lines, String.toList_intercalate, pcs]
  obtain ⟨toks, done, same⟩ := reads.scanned 1
  simp_all [Source.scan, Except.map]

end CallByNeed.Source

namespace CallByNeed.Shell

open Source

variable {shl : Shell} {ln : String} {lns : List String}

/-- Adds an entry to the session, with the number of the last line, and prints its
results. -/
def submit (n : Nat) (tx : String) : ShellAct Unit := do
  let shl ← get
  onSession (Session.add n tx (.known shl.lineNumber))
  printResults

/-- The shell after a line that the entry goes on behind. -/
def held (ln : String) (shl : Shell) : Shell :=
  { shl with
    pending := joinPending shl.pending ln
    lineNumber := shl.lineNumber + 1
    prompt := secondaryPrompt }

/-- The shell after the last line of an entry, before the entry is added. -/
def cleared (shl : Shell) : Shell :=
  { shl with pending := "", lineNumber := shl.lineNumber + 1, prompt := primaryPrompt }

theorem takeLine_eq (n : Nat) (ln : String) (shl : Shell) : takeLine n ln shl =
      if continues (joinPending shl.pending ln) then (.ok (), shl.held ln)
      else submit n (joinPending shl.pending ln) shl.cleared := by
  change (if continues (joinPending shl.pending ln) then _ else _ : ShellAct Unit)
    { shl with lineNumber := shl.lineNumber + 1 } = _
  split <;> rfl

/-- An action that changes nothing of the shell but its session. -/
def Steady {α : Type} (ac : ShellAct α) : Prop :=
  ∀ shl, ∃ ss, (ac shl).2 = { shl with session := ss }

theorem Steady.bind {α β : Type} {ac : ShellAct α} {next : α → ShellAct β} (fst : Steady ac)
    (snd : ∀ v, Steady (next v)) : Steady (ac >>= next) := by
  intro shl
  obtain ⟨ss, aft⟩ := fst shl
  rcases r : ac shl with ⟨fa | v, mid⟩
  · rw [Action.bind_error r]
    simp_all
  · rw [Action.bind_ok r]
    rw [r] at aft
    subst aft
    exact snd v _

theorem steady_onSession {α : Type} (ac : Act α) : Steady (onSession ac) :=
  fun shl => ⟨(ac shl.session).2, rfl⟩

theorem steady_printResults : Steady printResults := by
  refine .bind (fun shl => ⟨shl.session, rfl⟩) fun shl => ?_
  refine .bind ?_ fun _ shl => ⟨_, rfl⟩
  induction shl.session.results with
  | nil => exact fun shl => ⟨shl.session, rfl⟩
  | cons r rss ih =>
    rw [List.forIn_cons]
    exact ((steady_onSession _).bind fun _ shl => ⟨shl.session, rfl⟩).bind fun step => by
      cases step with
      | done => exact fun shl => ⟨shl.session, rfl⟩
      | yield => exact ih

theorem steady_submit (n : Nat) (tx : String) : Steady (submit n tx) :=
  .bind (fun shl => ⟨shl.session, rfl⟩) fun _ =>
    .bind (steady_onSession _) fun _ => steady_printResults

/-- The line that the lines of an entry are joined to. -/
def accumulated (lns : List String) : String :=
  lns.foldl joinPending ""

theorem enter_of_continues (n : Nat) (unfinished : continues (joinPending shl.pending ln)) :
    enter n ln shl = (.ok (), shl.held ln) := by
  simp only [enter, takeLine_eq, unfinished, if_true]

/-- Takes lines of entries one by one. -/
def enterAll (n : Nat) : List String → ShellAct Unit
  | [] => pure ()
  | ln :: lns => do
      enter n ln
      enterAll n lns

/-- Lines of an entry that goes on are kept, and nothing else changes. -/
theorem enterAll_of_continues (n : Nat)
    (unfinished : ∀ fr, fr <+: lns → fr ≠ [] → continues (fr.foldl joinPending shl.pending)) :
    ∃ prompt, enterAll n lns shl = (.ok (), { shl with
      pending := lns.foldl joinPending shl.pending
      lineNumber := shl.lineNumber + lns.length
      prompt }) := by
  induction lns generalizing shl with
  | nil => exact ⟨shl.prompt, rfl⟩
  | cons ln lns ih =>
    have entered := enter_of_continues n (unfinished [ln] (by simp) (by simp))
    have still : ∀ fr, fr <+: lns → fr ≠ [] →
        continues (fr.foldl joinPending (shl.held ln).pending) :=
      fun fr leads _ => unfinished (ln :: fr) (by simpa using leads) (by simp)
    obtain ⟨prompt, later⟩ := ih still
    refine ⟨prompt, ?_⟩
    rw [enterAll, Action.bind_ok entered, later]
    simp [held, Nat.add_assoc, Nat.add_comm 1]

theorem enter_of_complete (n : Nat)
    (complete : continues (joinPending shl.pending ln) = false) :
    (enter n ln shl).2.pending = "" ∧
      (enter n ln shl).2.prompt = primaryPrompt := by
  obtain ⟨ss, aft⟩ := steady_submit n (joinPending shl.pending ln) shl.cleared
  have taken : takeLine n ln shl = submit n (joinPending shl.pending ln) shl.cleared := by
    rw [takeLine_eq, complete]
    rfl
  rw [← taken] at aft
  unfold enter
  split
  · rename_i next r
    rw [r] at aft
    obtain rfl := show next = _ from aft
    exact ⟨rfl, rfl⟩
  · rename_i fa next r
    rw [r] at aft
    obtain rfl := show next = _ from aft
    split <;> exact ⟨rfl, rfl⟩

theorem enterAll_concat (n : Nat) {fr : List String} {mid : Shell}
    (entered : enterAll n fr shl = (.ok (), mid)) (last : String) :
    enterAll n (fr ++ [last]) shl = enter n last mid := by
  induction fr generalizing shl with
  | nil =>
    cases entered
    change (enter n last >>= fun _ => pure ()) _ = _
    rw [bind_pure_unit]
  | cons ln fr ih =>
    rw [enterAll] at entered
    rcases fst : enter n ln shl with ⟨fa | _, next⟩
    · grind [Action.bind_error]
    · rw [Action.bind_ok fst] at entered
      rw [List.cons_append, enterAll, Action.bind_ok fst]
      exact ih entered

/-! ### Joined lines -/

theorem scanLine_of_scan {scn : Scanned} (newline : '\n' ∉ ln.toList)
    (visible : isComment ln = false) (done : scan ln = .ok scn) :
    scanLine 1 0 ln.toList = .ok scn.tokens := by
  have lns : Text.lines ln = [ln] := by
    simp [Text.lines, splitAt_of_notMem newline]
  cases r : scanLine 1 0 ln.toList with
  | error col => simp [scan, lns, scanLines, visible, r, Except.map] at done
  | ok toks =>
    simp only [scan, lns, scanLines, visible, r, Except.map, Bool.false_eq_true, if_false,
      List.append_nil, Except.ok.injEq] at done
    rw [← done]

theorem readsLines_of_scan (plain : ∀ ln ∈ lns, '\n' ∉ ln.toList ∧ isComment ln = false ∧
    ∃ scn, scan ln = .ok scn) : ∃ shapes, ReadsLines lns shapes := by
  induction lns with
  | nil => exact ⟨[], .nil⟩
  | cons ln lns ih =>
    obtain ⟨newline, visible, scn, done⟩ := plain ln List.mem_cons_self
    obtain ⟨shapes, reads⟩ := ih fun o mem => plain o (List.mem_cons_of_mem _ mem)
    have here := reads_of_scanLine (scanLine_of_scan newline visible done)
    exact ⟨_, .cons newline here reads⟩

theorem notMem_joinPending (fst : '\n' ∉ pending.toList) (snd : '\n' ∉ ln.toList) :
    '\n' ∉ (joinPending pending ln).toList := by
  have whole : '\n' ∉ (pending ++ " " ++ ln).toList := by simp [fst, snd]
  unfold joinPending
  split
  · exact snd
  · rw [Text.trimmed, String.toList_ofList]
    intro mem
    have inside := (List.dropWhile_sublist Text.isBlank).subset (List.mem_reverse.1 mem)
    exact whole ((List.dropWhile_sublist Text.isBlank).subset (List.mem_reverse.1 inside))

theorem reads_foldl {fst snd : List (TokenKind × String)} (newline : '\n' ∉ pending.toList)
    (reads : Reads pending.toList fst) (follows : ReadsLines lns snd) :
    '\n' ∉ (lns.foldl joinPending pending).toList ∧
      Reads (lns.foldl joinPending pending).toList (fst ++ snd) := by
  induction follows generalizing pending fst with
  | nil => simpa using ⟨newline, reads⟩
  | cons absent next _ ih => grind [notMem_joinPending, reads_joinPending]

/-- Joined lines are the entry that the lines are in a file. -/
theorem sameEntry_accumulated (some : lns ≠ [])
    (plain : ∀ ln ∈ lns, '\n' ∉ ln.toList ∧ isComment ln = false ∧
      ∃ scn, scan ln = .ok scn) :
    SameEntry (accumulated lns) (String.intercalate "\n" lns) := by
  obtain ⟨shapes, reads⟩ := readsLines_of_scan plain
  have empty : Reads "".toList [] := .nil
  obtain ⟨newline, joined⟩ := reads_foldl (by simp) empty reads
  have single : ReadsLines [accumulated lns] (shapes ++ []) := .cons newline joined .nil
  obtain ⟨scn, done, same⟩ := single.scan (by simp)
  obtain ⟨again, o, alike⟩ := reads.scan some
  refine sameEntry_of_alike (by simpa using done) o ?_
  rw [Alike, alike, same, List.append_nil]

/-- An entry split over several lines is the entry that the lines are in a file.  All lines
but the last leave the session alone; the last one adds their joined text to the session, and
whether or not that fails, the shell waits for a new entry then. -/
theorem split_entry_same (some : lns ≠ [])
    (plain : ∀ ln ∈ lns, '\n' ∉ ln.toList ∧ isComment ln = false ∧
      ∃ scn, scan ln = .ok scn)
    (unfinished : ∀ fr, fr <+: lns → fr ≠ [] → fr ≠ lns →
      continues (accumulated fr))
    (complete : continues (accumulated lns) = false) (n : Nat) (idle : shl.pending = "") :
    SameEntry (accumulated lns) (String.intercalate "\n" lns) ∧
    ∃ fr last waiting, lns = fr ++ [last] ∧
      enterAll n fr shl = (.ok (), waiting) ∧ waiting.session = shl.session ∧
      waiting.lineNumber = shl.lineNumber + fr.length ∧
      takeLine n last waiting = submit n (accumulated lns) waiting.cleared ∧
      enterAll n lns shl = enter n last waiting ∧
      (enterAll n lns shl).2.pending = "" ∧
      (enterAll n lns shl).2.prompt = primaryPrompt := by
  refine ⟨sameEntry_accumulated some plain, ?_⟩
  obtain ⟨fr, last, rfl⟩ := List.eq_nil_or_concat' lns |>.resolve_left some
  have going : ∀ st0, st0 <+: fr → st0 ≠ [] →
      continues (st0.foldl joinPending shl.pending) := by
    intro st0 leads nonempty
    rw [idle]
    refine unfinished st0 (leads.trans (List.prefix_append fr [last])) nonempty ?_
    rintro rfl
    simpa using leads.length_le
  obtain ⟨prompt, entered⟩ := enterAll_of_continues n going
  have closed : continues (joinPending (fr.foldl joinPending shl.pending) last) = false := by
    rw [idle]
    simpa [accumulated] using complete
  have whole := enterAll_concat n entered last
  refine ⟨fr, last, _, rfl, entered, rfl, rfl, ?_, whole, ?_⟩
  · rw [takeLine_eq, closed]
    simp [accumulated, idle]
  · rw [whole]
    exact enter_of_complete n closed

theorem scan_ok_of_isSome {tx : String} (some : (scan tx).toOption.isSome) :
    ∃ scn, scan tx = .ok scn := by
  cases r : scan tx with
  | error => simp [r, Except.toOption] at some
  | ok scn => exact ⟨scn, rfl⟩

/-- A shell in which nothing was entered. -/
def fresh : Shell :=
  start (.start ⟨⟨[], "/library", "/", []⟩, none, false, false, false, false⟩)

theorem split_entry_same_parenthesis :
    SameEntry "I ( x)" "I (\nx)" ∧ (enterAll 1 ["I (", "x)"] fresh).2.pending = "" ∧
      (enterAll 1 ["I (", "x)"] fresh).2.prompt = "> " := by
  have joined : accumulated ["I (", "x)"] = "I ( x)" := by decide +kernel
  have file : String.intercalate "\n" ["I (", "x)"] = "I (\nx)" := by decide +kernel
  have some : ["I (", "x)"] ≠ [] := by simp
  have idle : fresh.pending = "" := rfl
  obtain ⟨same, _, _, _, _, _, _, _, _, _, pending, prompt⟩ := split_entry_same some
    (by
      intro ln mem
      simp only [List.mem_cons, List.not_mem_nil, or_false] at mem
      rcases mem with rfl | rfl <;>
        exact ⟨by decide +kernel, by decide +kernel, scan_ok_of_isSome (by decide +kernel)⟩)
    (by
      rintro fr ⟨rest, split⟩ nonempty proper
      rcases fr with _ | ⟨fst, _ | ⟨snd, fr⟩⟩
      · simp_all
      · cases split
        decide
      · obtain ⟨rfl, rfl, rfl, rfl⟩ : fst = "I (" ∧ snd = "x)" ∧ fr = [] ∧ rest = [] := by
          simpa using split
        exact absurd rfl proper)
    (by decide +kernel) 1 idle
  rw [joined, file] at same
  exact ⟨same, pending, prompt⟩

end CallByNeed.Shell
