import Mathlib
import CallByNeed.Source.Statement
import CallByNeed.Term.Display
import CallByNeed.Proofs.Grammar

/-!
# Printed terms are read back

`Source.parseTerm_display` says that the text of a term parses as that term,
provided its names can be written.  A printed part of a term is related to the
grammar by `Spells`: it stands on one line and is cut into tokens of the
grammar's shape, whatever text follows that does not lengthen its last word.
-/

variable {xs : List Name} {fst x : Name} {t : Term}

namespace CallByNeed

/-- All names of a term: its variables and its parameters. -/
def Term.names : Term → List Name
  | var name => [name]
  | lam parameter body => parameter :: body.names
  | app function argument => function.names ++ argument.names

variable {ch : Char} {kd : TokenKind} {tx : String}

namespace Source

/-- Whether a word is a name: a letter or underscore, then letters, digits and
the marks of a name, and no keyword. -/
def isName (word : Name) : Bool :=
  match word.toList with
  | [] => false
  | fst :: rest => startsName fst && rest.all continuesName && !keywords.contains word

theorem isName_iff {word : Name} :
    isName word ↔ ∃ fst rest, word.toList = fst :: rest ∧ startsName fst ∧
      (∀ ch ∈ rest, continuesName ch) ∧ wordKind word = .name := by
  unfold isName wordKind
  grind

/-! ### Characters -/

theorem not_isBlank_of_startsName (starts : startsName ch) : Text.isBlank ch = false := by
  simp only [startsName, Char.isAlpha, Char.isUpper, Char.isLower, Bool.or_eq_true,
    Bool.and_eq_true, decide_eq_true_eq, ge_iff_le, UInt32.le_iff_toNat_le] at starts
  have code : ch.toNat = ch.val.toNat := rfl
  have bound : 65 ≤ ch.toNat ∧ ch.toNat ≤ 122 := by
    rcases starts with (⟨low, high⟩ | ⟨low, high⟩) | rfl
    · grind
    · grind
    · decide
  simp [Text.isBlank, Text.blankRanges]
  omega

theorem lexeme?_of_startsName (starts : startsName ch) (rest : List Char) :
    ∃ shorter, lexeme? (ch :: rest) =
      some ⟨wordKind (String.ofList (ch :: rest.takeWhile continuesName)),
        ch :: rest.takeWhile continuesName, rest.dropWhile continuesName, shorter⟩ := by
  refine ⟨Nat.lt_succ_of_le (List.dropWhile_suffix continuesName).length_le, ?_⟩
  rw [lexeme?.eq_4, if_pos starts]
  · rintro rest rfl rfl
    simp [startsName] at starts
  · rintro rfl
    simp [startsName] at starts

theorem not_startsName_of_mark (mark : markKind? ch = some kd) : startsName ch = false := by
  unfold markKind? at mark
  split at mark <;> first | rfl | cases mark

theorem lexeme?_of_mark (mark : markKind? ch = some kd) (notEquals : kd ≠ .equals)
    (rest : List Char) :
    lexeme? (ch :: rest) = some ⟨kd, [ch], rest, Text.length_lt_of_cons ch rest⟩ := by
  rw [lexeme?.eq_4, not_startsName_of_mark mark, mark]
  · rfl
  · rintro rest rfl rfl
    cases mark
    exact notEquals rfl
  · rintro rfl
    cases mark

theorem lexeme?_arrow (rest : List Char) :
    lexeme? ('=' :: '>' :: rest) = some ⟨.arrow, ['=', '>'], rest,
      Nat.lt_succ_of_lt (Text.length_lt_of_cons '>' rest)⟩ := rfl

theorem not_isBlank_of_mark (mark : markKind? ch = some kd) : Text.isBlank ch = false := by
  unfold markKind? at mark
  split at mark <;> first | rfl | cases mark

/-! ### Scanning -/

theorem scanLine_blank (blank : Text.isBlank ch) (ln col : Nat) (rest : List Char) :
    scanLine ln col (ch :: rest) = scanLine ln (col + 1) rest := by
  rw [scanLine, if_pos blank]

theorem scanLine_lexeme {rest : List Char} {lexeme : Lexeme (ch :: rest)}
    (visible : Text.isBlank ch = false) (found : lexeme? (ch :: rest) = some lexeme) {ln col : Nat}
    {os : List Token} (scn : scanLine ln (col + lexeme.chars.length) lexeme.rest = .ok os) :
    scanLine ln col (ch :: rest) =
      .ok (⟨lexeme.kind, String.ofList lexeme.chars, ln, col⟩ :: os) := by
  rw [scanLine]
  simp only [visible, found, scn]
  rfl

/-- The line of a comment is not cut into tokens. -/
theorem isComment_of_scanLine {ln col : Nat} {toks : List Token}
    (scn : scanLine ln col tx.toList = .ok toks) : isComment tx = false := by
  unfold isComment Text.trimLeft
  rw [decide_eq_false_iff_not]
  generalize tx.toList = chs at scn ⊢
  induction chs generalizing col with
  | nil => simp
  | cons ch rest ih =>
    by_cases blank : Text.isBlank ch
    · rw [scanLine_blank blank] at scn
      simpa [blank] using ih scn
    · rintro hash
      simp only [List.dropWhile_cons, blank, Bool.false_eq_true, if_false,
        List.head?_cons, Option.some.injEq] at hash
      subst hash
      have nothing : lexeme? ('#' :: rest) = none := rfl
      grind [scanLine]

/-- The next character does not lengthen a word. -/
def Delimits (tx : List Char) : Prop := ∀ ch ∈ tx.head?, continuesName ch = false

/-- A text on one line that is cut into tokens of a shape, whatever follows that
does not lengthen its last word. -/
structure Spells (tx : List Char) (shape : List Token → Prop) : Prop where
  newline : '\n' ∉ tx
  scanned (ln col : Nat) {rest : List Char} (delimits : Delimits rest) :
    ∃ toks, shape toks ∧
      ∀ os, scanLine ln (col + tx.length) rest = .ok os →
        scanLine ln col (tx ++ rest) = .ok (toks ++ os)

namespace Spells

variable {fr bk : List Char} {fst snd : List Token → Prop}

theorem imp (spells : Spells fr fst) (implies : ∀ toks, fst toks → snd toks) : Spells fr snd where
  newline := spells.newline
  scanned ln col _ delimits := by
    obtain ⟨toks, shape, scans⟩ := spells.scanned ln col delimits
    grind

theorem append (spells : Spells fr fst) (follows : Spells bk snd)
    (delimits : ∀ rest, Delimits rest → Delimits (bk ++ rest)) :
    Spells (fr ++ bk) fun toks => ∃ l r, fst l ∧ snd r ∧ toks = l ++ r where
  newline := by simp [spells.newline, follows.newline]
  scanned ln col rest ots := by
    obtain ⟨l, firstShape, scansFirst⟩ := spells.scanned ln col (delimits rest ots)
    obtain ⟨r, secondShape, scansSecond⟩ := follows.scanned ln (col + fr.length) ots
    refine ⟨l ++ r, ⟨l, r, firstShape, secondShape, rfl⟩, ?_⟩
    simp_all [Nat.add_assoc]

theorem blank (spells : Spells fr fst) : Spells (' ' :: fr) fst where
  newline := by simp [spells.newline]
  scanned ln col rest ots := by
    obtain ⟨toks, shape, scans⟩ := spells.scanned ln (col + 1) ots
    refine ⟨toks, shape, ?_⟩
    intro os scn
    rw [List.cons_append, scanLine_blank rfl]
    grind

theorem mark (isMark : markKind? ch = some kd) (notEquals : kd ≠ .equals) (spells : Spells fr fst) :
    Spells (ch :: fr) fun toks => ∃ tok rest, tok.kind = kd ∧ fst rest ∧ toks = tok :: rest where
  newline := by
    have visible : ch ≠ '\n' := by
      rintro rfl
      cases isMark
    simp [spells.newline, visible.symm]
  scanned ln col rest ots := by
    obtain ⟨toks, shape, scans⟩ := spells.scanned ln (col + 1) ots
    refine ⟨⟨kd, String.ofList [ch], ln, col⟩ :: toks, ⟨_, toks, rfl, shape, rfl⟩, ?_⟩
    intro os scn
    apply scanLine_lexeme (not_isBlank_of_mark isMark) (lexeme?_of_mark isMark notEquals _)
    apply scans
    grind

theorem arrow (spells : Spells fr fst) :
    Spells ('=' :: '>' :: fr)
      fun toks => ∃ tok rest, tok.kind = .arrow ∧ fst rest ∧ toks = tok :: rest where
  newline := by simp [spells.newline]
  scanned ln col rest ots := by
    obtain ⟨toks, shape, scans⟩ := spells.scanned ln (col + 2) ots
    refine ⟨⟨.arrow, String.ofList ['=', '>'], ln, col⟩ :: toks, ⟨_, toks, rfl, shape, rfl⟩, ?_⟩
    intro os scn
    apply scanLine_lexeme rfl (lexeme?_arrow (fr ++ rest))
    apply scans
    grind

theorem nil : Spells [] (· = []) where
  newline := by simp
  scanned ln col rest ots := ⟨[], rfl, fun os scans => scans⟩

end Spells

theorem delimits_of_head (delimits : continuesName ch = false) (tx rest : List Char)
    (_ : Delimits rest) : Delimits (ch :: tx ++ rest) := by
  rintro o same
  simp_all

theorem spells_name (legal : isName x) :
    Spells x.toList fun toks => ∃ tok, tok.kind = .name ∧ tok.text = x ∧ toks = [tok] := by
  obtain ⟨fst, os, tx, starts, continues, kd⟩ := isName_iff.1 legal
  have spelled : String.ofList (fst :: os) = x := by
    rw [← tx, String.ofList_toList]
  constructor
  · rw [tx]
    rintro (_ | _)
    · cases starts
    · have := continues '\n' ‹_›
      cases this
  · intro ln col rest ots
    refine ⟨[⟨.name, x, ln, col⟩], ⟨_, rfl, rfl, rfl⟩, ?_⟩
    intro toks scans
    -- the word ends where the name does, since what follows delimits it
    have taken : (os ++ rest).takeWhile continuesName = os := by
      rw [List.takeWhile_append_of_pos continues]
      cases rest with
      | nil => simp
      | cons ch rest => simp [ots ch rfl]
    have dropped : (os ++ rest).dropWhile continuesName = rest := by simp_all
    obtain ⟨shorter, found⟩ := lexeme?_of_startsName starts (os ++ rest)
    have scn := @scanLine_lexeme _ _ _ (not_isBlank_of_startsName starts) found ln col toks
    grind

/-! ### Printed terms -/

theorem spells_parenthesised (inn : Spells tx.toList (Expression · t)) :
    Spells (Term.parenthesised tx).toList (Operand · t) := by
  have closing := Spells.nil.mark (show markKind? ')' = some .closeParen from rfl) (by simp)
  have closed := inn.append closing (delimits_of_head rfl [])
  have whole := closed.mark (show markKind? '(' = some .openParen from rfl) (by simp)
  have shown : (Term.parenthesised tx).toList = '(' :: (tx.toList ++ [')']) := by
    simp [Term.parenthesised, String.toList_append]
  rw [shown]
  apply whole.imp
  rintro _ ⟨opening, _, opens, ⟨toks, _, expr, ⟨closing, _, closes, rfl, rfl⟩, rfl⟩, rfl⟩
  exact .parenthesised opens expr closes

/-- The names of a parameter list, with commas between them. -/
theorem spells_parameters (legal : ∀ x ∈ fst :: xs, isName x) :
    Spells (String.intercalate ", " (fst :: xs)).toList (Parameters · (fst :: xs)) := by
  rw [String.toList_intercalate]
  induction xs generalizing fst with
  | nil =>
    rw [List.map_singleton, List.intercalate_singleton]
    apply (spells_name (legal fst (by simp))).imp
    rintro _ ⟨tok, x, rfl, rfl⟩
    exact .single x
  | cons snd xs ih =>
    have os := ih fun x mem => legal x (List.mem_cons_of_mem fst mem)
    have separated := os.blank.mark (show markKind? ',' = some .comma from rfl) (by simp)
    have whole := (spells_name (legal fst (by simp))).append separated (delimits_of_head rfl _)
    apply whole.imp
    rintro _ ⟨_, _, ⟨tok, x, rfl, rfl⟩, ⟨sep, toks, comma, rest, rfl⟩, rfl⟩
    exact .more x comma rest

/-- A parameter list with its arrow, before the body it binds. -/
theorem spells_heading {b : List Char}
    (legal : ∀ x ∈ fst :: xs, isName x) (inn : Spells b (Expression · t)) :
    Spells ((Term.heading (fst :: xs)).toList ++ b) (Abstraction · (.lambdas (fst :: xs) t)) := by
  have pointed := inn.blank.arrow.blank
  cases xs with
  | nil =>
    have whole := (spells_name (legal fst (by simp))).append pointed (delimits_of_head rfl _)
    have shown : (Term.heading [fst]).toList ++ b =
        fst.toList ++ ' ' :: '=' :: '>' :: ' ' :: b := by
      simp [Term.heading, String.toList_append]
    rw [shown]
    apply whole.imp
    rintro _ ⟨_, _, ⟨tok, x, rfl, rfl⟩, ⟨arrow, toks, isArrow, expr, rfl⟩, rfl⟩
    exact .plain x isArrow expr
  | cons snd xs =>
    have closed := pointed.mark (show markKind? ')' = some .closeParen from rfl) (by simp)
    have listed := (spells_parameters legal).append closed (delimits_of_head rfl _)
    have whole := listed.mark (show markKind? '(' = some .openParen from rfl) (by simp)
    have shown : (Term.heading (fst :: snd :: xs)).toList ++ b =
        '(' :: ((String.intercalate ", " (fst :: snd :: xs)).toList ++
          ')' :: ' ' :: '=' :: '>' :: ' ' :: b) := by
      simp [Term.heading, String.toList_append]
    rw [shown]
    apply whole.imp
    rintro _ ⟨opening, _, opens, ⟨toks, _, pars,
      ⟨closing, _, closes, ⟨arrow, b, isArrow, expr, rfl⟩, rfl⟩, rfl⟩, rfl⟩
    exact .list opens pars closes isArrow expr

theorem spells_application {fr bk : String} {f arg : Term} (row : Spells fr.toList (Row · f))
    (last : Spells bk.toList fun toks =>
      Operand toks arg ∨ Abstraction toks arg) :
    Spells (fr ++ " " ++ bk).toList (Expression · (.app f arg)) := by
  have whole := row.append last.blank (delimits_of_head rfl _)
  have shown : (fr ++ " " ++ bk).toList = fr.toList ++ ' ' :: bk.toList := by
    simp [String.toList_append]
  rw [shown]
  apply whole.imp
  rintro _ ⟨_, _, row, opd | abstraction, rfl⟩
  · exact .row (.more row opd)
  · exact .applied row abstraction

/-- What each printer writes: a whole text, under parameters, and in the three
places of a row. -/
structure Printed (t : Term) : Prop where
  whole : Spells t.display.toList (Expression · t)
  under {fst : Name} {xs : List Name} (legal : ∀ x ∈ fst :: xs, isName x) :
    Spells (t.displayUnder (fst :: xs)).toList (Abstraction · (.lambdas (fst :: xs) t))
  row : Spells t.displayRow.toList (Row · t)
  inner : Spells t.displayInner.toList (Operand · t)
  last : Spells t.displayLast.toList fun toks => Operand toks t ∨ Abstraction toks t

theorem Printed.var (legal : isName x) : Printed (.var x) := by
  have opd : Spells x.toList (Operand · (.var x)) := by
    apply (spells_name legal).imp
    rintro _ ⟨tok, isName, rfl, rfl⟩
    exact .name isName
  constructor
  · rw [Term.display, Term.displayUnder, Term.heading, String.empty_append]
    exact opd.imp fun _ opd => .row (.single opd)
  · intro fst xs pars
    rw [Term.displayUnder, String.toList_append]
    exact spells_heading pars (opd.imp fun _ opd => .row (.single opd))
  · exact opd.imp fun _ opd => .single opd
  · exact opd
  · exact opd.imp fun _ opd => .inl opd

theorem Printed.lam {p : Name} {b : Term} (legal : isName p) (printed : Printed b) :
    Printed (.lam p b) := by
  have abstraction := @Printed.under _ printed p [] (by simpa using legal)
  have opd : Spells (Term.parenthesised (b.displayUnder [p])).toList (Operand · (.lam p b)) :=
    spells_parenthesised (abstraction.imp fun _ abstraction => .abstraction abstraction)
  constructor
  · exact abstraction.imp fun _ abstraction => .abstraction abstraction
  · intro fst xs pars
    have all : ∀ x ∈ fst :: (xs ++ [p]), isName x := by grind
    have nested : Term.lambdas (fst :: xs) (.lam p b) = Term.lambdas (fst :: (xs ++ [p])) b := by
      simp [Term.lambdas]
    rw [Term.displayUnder, nested]
    exact printed.under all
  · exact opd.imp fun _ opd => .single opd
  · exact opd
  · exact abstraction.imp fun _ abstraction => .inr abstraction

theorem Printed.app {f arg : Term} (fst : Printed f) (snd : Printed arg) :
    Printed (.app f arg) := by
  have application := spells_application fst.row snd.last
  have opd := spells_parenthesised application
  constructor
  · rw [Term.display, Term.displayUnder, Term.heading, String.empty_append]
    exact application
  · simp_all [Term.displayUnder, spells_heading]
  · have whole := fst.row.append snd.inner.blank (delimits_of_head rfl _)
    have shown : (Term.app f arg).displayRow.toList =
        f.displayRow.toList ++ ' ' :: arg.displayInner.toList := by
      simp [Term.displayRow, String.toList_append]
    rw [shown]
    apply whole.imp
    rintro _ ⟨_, _, row, opd, rfl⟩
    exact .more row opd
  · exact opd
  · exact opd.imp fun _ opd => .inl opd

theorem printed (term : Term) (legal : ∀ name ∈ term.names, isName name) : Printed term := by
  induction term with
  | var name => exact .var (legal name (by simp [Term.names]))
  | lam parameter body ih => simp_all [Printed.lam, Term.names]
  | app function argument ihFunction ihArgument => grind [Printed.app, Term.names]

/-! ### Whole texts -/

theorem splitAt_of_notMem {sep : Char} {tx : List Char} (absent : sep ∉ tx) :
    Text.splitAt sep tx = [tx] := by
  induction tx with
  | nil => rfl
  | cons ch rest ih =>
    rw [List.mem_cons, not_or] at absent
    simp [Text.splitAt, Ne.symm absent.1, ih absent.2]

/-- A text that is spelt is scanned as its one line. -/
theorem Spells.scan {shape : List Token → Prop} (spells : Spells tx.toList shape) :
    ∃ toks, shape toks ∧ Source.scan tx = .ok ⟨[tx], toks⟩ := by
  obtain ⟨toks, r, scans⟩ := @Spells.scanned _ _ spells 1 0 [] (by simp [Delimits])
  have scn : scanLine 1 0 tx.toList = .ok toks := by grind [scanLine]
  have lns : Text.lines tx = [tx] := by
    simp [Text.lines, splitAt_of_notMem spells.newline]
  refine ⟨toks, r, ?_⟩
  simp [Source.scan, lns, scanLines, isComment_of_scanLine scn, scn, Except.map]

/-- A printed term whose names can be written is read back as itself. -/
theorem parseTerm_display (t : Term) (legal : ∀ x ∈ t.names, isName x) :
    parseTerm t.display = .ok t := by
  obtain ⟨toks, expr, scn⟩ := (printed t legal).whole.scan
  have stops : Stops (Scanned.final ⟨[t.display], toks⟩) [] := rfl
  have yields := expr.parsed stops
  rw [List.append_nil] at yields
  obtain ⟨shorter, pd⟩ := yields
  simp [parseTerm, parseText, scn, pd, expectEnd, bind, Except.bind, Except.mapError]

/-- `(f, g') => f (x? => g' (x? f)) (_ => f) g'`, with operands of every kind. -/
def nestedTerm : Term :=
  .lambdas ["f", "g'"] (.apply (.var "f")
    [.lam "x?" (.app (.var "g'") (.app (.var "x?") (.var "f"))), .lam "_" (.var "f"), .var "g'"])

theorem parseTerm_display_nestedTerm :
    (∀ name ∈ nestedTerm.names, isName name) ∧
      parseTerm nestedTerm.display = .ok nestedTerm :=
  have legal : ∀ name ∈ nestedTerm.names, isName name := by decide
  ⟨legal, parseTerm_display nestedTerm legal⟩

end Source

end CallByNeed
