import CallByNeed.Proofs.Brackets

/-!
# Commands and first tokens

The shell tells a command by the letters, digits and underscores that a line starts with.
The names of the language have more characters, so the first token of a line can go on where
the word of a command ends (`Command.Opens`).  Such a line is taken for the command; every
other line that starts with a name, a keyword or a parenthesis is taken as an entry.
-/

namespace CallByNeed

open Source Text

variable {tx : String} {kd : TokenKind} {tok : String} {chs rest : List Char}

/-! ### The first token -/

namespace Source

/-- The first token of lines, if the first character that is neither blank nor in a comment
starts one. -/
def firstToken? : List String → Option (TokenKind × String)
  | [] => none
  | ln :: lns =>
    if isComment ln || (trimLeft ln.toList).isEmpty then firstToken? lns
    else (lexeme? (trimLeft ln.toList)).map fun lexeme =>
      (lexeme.kind, String.ofList lexeme.chars)

end Source

/-! ### The front of a line -/

/-- A text starts, behind blanks, with a comment or with a token. -/
def Fronted (kd : TokenKind) (tok : String) (tx : List Char) : Prop :=
  tx.head? = some '#' ∨ ∃ rest, tx = tok.toList ++ rest ∧ Cuts kd tok.toList rest

theorem fronted_of_firstToken? (fst : firstToken? (lines tx) = some (kd, tok)) :
    Fronted kd tok (trimLeft tx.toList) := by
  have general : ∀ pcs : List (List Char), firstToken? (pcs.map String.ofList) = some (kd, tok) →
      Fronted kd tok (trimLeft (['\n'].intercalate pcs)) := by
    intro pcs
    induction pcs with
    | nil => simp [firstToken?]
    | cons piece pcs ih =>
      -- What follows the first line starts with a newline, which is blank.
      obtain ⟨more, whole, apart, blank⟩ : ∃ more, ['\n'].intercalate (piece :: pcs) =
          piece ++ more ∧ (∀ ch ∈ more.head?, isBlank ch) ∧
          (trimLeft more = trimLeft (['\n'].intercalate pcs)) := by
        cases pcs with
        | nil => exact ⟨[], by simp⟩
        | cons snd pcs =>
          refine ⟨'\n' :: ['\n'].intercalate (snd :: pcs), by
            simp [List.intercalate_cons_cons], by simp; decide, ?_⟩
          rfl
      intro fst
      rw [List.map_cons, firstToken?, isComment, String.toList_ofList] at fst
      rw [whole, trimLeft, List.dropWhile_append]
      cases fr : piece.dropWhile isBlank with
      | nil =>
        simp only [trimLeft, fr, List.isEmpty_nil, Bool.or_true, if_true] at fst
        rw [List.isEmpty_nil, if_pos rfl]
        exact Eq.mpr (congrArg _ blank) (ih fst)
      | cons ch os =>
        rw [trimLeft, fr] at fst
        simp only [List.head?_cons, Option.some.injEq, List.isEmpty_cons, Bool.or_false,
          decide_eq_true_eq] at fst
        rw [List.isEmpty_cons, if_neg (by simp)]
        split at fst
        · rename_i comment
          exact .inl (by simp [comment])
        · obtain ⟨lexeme, found, same⟩ := Option.map_eq_some_iff.1 fst
          cases same
          obtain ⟨split, cuts⟩ := lexeme?_cuts found
          refine .inr ⟨lexeme.rest ++ more, ?_, ?_⟩
          · rw [String.toList_ofList, ← List.append_assoc, ← split]
          · rw [String.toList_ofList]
            exact (Cuts.append_iff apart).2 cuts
  have cut := general (splitAt '\n' tx.toList) fst
  rwa [intercalate_splitAt] at cut

/-! ### The word of a command -/

theorem continuesName_of_isCommandChar (inWord : isCommandChar ch) :
    continuesName ch := by
  simp only [isCommandChar, continuesName, Bool.or_eq_true, decide_eq_true_eq] at inWord ⊢
  grind

theorem isCommandChar_eq_false (ots : continuesName ch = false) :
    isCommandChar ch = false := by
  by_contra inWord
  simp_all [continuesName_of_isCommandChar]

theorem isCommandChar_of_isBlank (blank : isBlank ch) : isCommandChar ch = false := by
  by_contra inWord
  simp_all [not_isBlank_of_continuesName, continuesName_of_isCommandChar]

theorem takeWhile_trimRight (chs : List Char) :
    (trimRight chs).takeWhile isCommandChar = chs.takeWhile isCommandChar := by
  have whole : trimRight chs ++ (chs.reverse.takeWhile isBlank).reverse = chs := by
    grind [trimRight, List.takeWhile_append_dropWhile]
  conv_rhs => rw [← whole]
  refine (takeWhile_append_of_head? fun ch fst => isCommandChar_of_isBlank ?_).symm
  grind [List.mem_takeWhile_imp]

theorem head?_trimRight (visible : isBlank ch = false) (rest : List Char) :
    (trimRight (ch :: rest)).head? = some ch := by
  rw [trimRight, List.head?_reverse, List.reverse_cons, List.dropWhile_append]
  split
  · simp [visible]
  · simp

/-- The word by which a command is asked for. -/
def Command.word : Command → String
  | .names => "names"
  | .help => "help"
  | .endOfInput => "EOF"
  | .exit => "exit"

theorem Command.ofWord?_eq_some_iff {known : Command} :
    Command.ofWord? tok = some known ↔ tok = known.word := by
  unfold Command.ofWord?
  constructor
  · intro found
    split_ifs at found <;> cases found <;> assumption
  · rintro rfl
    cases known <;> rfl

/-- A name starts with the word of a command and goes on with a character that no command
has. -/
def Command.Opens (known : Command) (x : String) : Prop :=
  ∃ mark ∈ ['\'', '?', '!'], ∃ rest, x.toList = known.word.toList ++ mark :: rest

namespace Fronted

theorem head? (fronted : Fronted kd tok chs) :
    ∃ ch rest, chs = ch :: rest ∧ isBlank ch = false ∧ ch ≠ '?' ∧ ch ≠ '!' := by
  rcases fronted with comment | ⟨rest, rfl, cuts⟩
  · obtain ⟨os, rfl⟩ := List.head?_eq_some_iff.1 comment
    exact ⟨_, _, rfl, by decide⟩
  · have visible := cuts.spelling.visible.1
    generalize tok.toList = chs at cuts visible
    cases cuts with
    | @word fst os _ starts =>
      refine ⟨fst, os ++ rest, rfl, visible fst rfl, ?_⟩
      constructor <;> rintro rfl <;> cases starts
    | quoted => exact ⟨_, _, rfl, by decide⟩
    | arrow => exact ⟨_, _, rfl, by decide⟩
    | @mark ch _ _ isMark =>
      refine ⟨ch, rest, rfl, visible ch rfl, ?_⟩
      constructor <;> rintro rfl <;> cases isMark

/-- A word that a line starts with is the front of its first token. -/
theorem word (fronted : Fronted kd tok chs) (some : chs.takeWhile isCommandChar ≠ []) :
    chs.takeWhile isCommandChar = tok.toList.takeWhile isCommandChar ∧
      kd = wordKind tok ∧ ∀ ch ∈ tok.toList, continuesName ch := by
  rcases fronted with comment | ⟨rest, rfl, cuts⟩
  · obtain ⟨os, rfl⟩ := List.head?_eq_some_iff.1 comment
    exact absurd rfl some
  · generalize spelled : tok.toList = chs at cuts some
    cases cuts with
    | @word fst os _ starts continues delimits =>
      refine ⟨takeWhile_append_of_head? fun ch next =>
        isCommandChar_eq_false (delimits ch next), by rw [← spelled, String.ofList_toList], ?_⟩
      rintro ch (_ | ⟨_, later⟩)
      · simp only [startsName, continuesName, Char.isAlphanum, Bool.or_eq_true] at starts ⊢
        grind
      · exact continues ch later
    | quoted => exact absurd rfl some
    | arrow => exact absurd rfl some
    | mark isMark =>
      refine absurd ?_ some
      unfold markKind? at isMark
      split at isMark <;> first | rfl | cases isMark

theorem ofLine (fronted : Fronted kd tok (trimLeft tx.toList)) :
    Input.ofLine tx =
      (Command.ofWord? (String.ofList ((trimLeft tx.toList).takeWhile isCommandChar))).elim
        (.entry (trimmed tx)) .command := by
  obtain ⟨ch, rest, fr, visible, noQuestion, noCall⟩ := fronted.head?
  have fst := head?_trimRight visible rest
  grind [takeWhile_trimRight, Input.ofLine, trimmed, trim]

end Fronted

/-- A word of the language that starts with the word of a command is the command, or a name
that goes on behind it. -/
theorem eq_or_opens {known : Command} (continues : ∀ ch ∈ tok.toList, continuesName ch)
    (starts : tok.toList.takeWhile isCommandChar = known.word.toList) :
    tok = known.word ∨ known.Opens tok := by
  have whole := List.takeWhile_append_dropWhile (p := isCommandChar) (l := tok.toList)
  rw [starts] at whole
  cases lf : tok.toList.dropWhile isCommandChar with
  | nil => grind [String.toList_injective]
  | cons mark rest =>
    rw [lf] at whole
    have ots := List.head?_dropWhile_not isCommandChar tok.toList
    rw [lf] at ots
    have inside := continues mark (whole ▸ by simp)
    refine .inr ⟨mark, ?_, rest, whole.symm⟩
    grind [isCommandChar, continuesName]

namespace Shell

/-- A line is taken as an entry of its own: it is held back when it has to go on, and added to
the session otherwise. -/
structure Taken (n : Nat) (tx : String) (shl : Shell) : Prop where
  entered : line n tx shl = (do enter n (trimmed tx); pure .nothing : ShellAct Reply) shl
  stays : ∀ aft, line n tx shl ≠ (.ok .leave, aft)
  added : takeLine n (trimmed tx) shl =
    if continues (trimmed tx) then
      (.ok (), { shl with
        pending := trimmed tx, lineNumber := shl.lineNumber + 1, prompt := secondaryPrompt })
    else submit n (trimmed tx) shl.cleared

variable {shl : Shell} {n : Nat}

theorem taken_of_entry (idle : shl.pending = "")
    (isEntry : Input.ofLine tx = .entry (trimmed tx)) : Taken n tx shl where
  entered := by rw [line, isEntry]
  stays aft l := by
    have entered : (do enter n (trimmed tx); pure .nothing : ShellAct Reply) shl =
        (.ok .leave, aft) := by rw [← l, line, isEntry]
    rw [Action.bind_eq] at entered
    split at entered <;> cases entered
  added := by
    have same : joinPending shl.pending (trimmed tx) = trimmed tx := by
      simp [joinPending, idle]
    rw [takeLine_eq, held, same]

/-- A line that starts with a name other than the words of commands, with a keyword or with a
parenthesis is taken as an entry, unless its first token is a name that starts with the word of
a command and goes on with a quote, a question mark or an exclamation mark.  The command is
then run. -/
theorem line_taken (n : Nat) (idle : shl.pending = "")
    (fst : firstToken? (Text.lines tx) = some (kd, tok))
    (begins : kd = .keyword ∨ kd = .openParen ∨
      kd = .name ∧ ∀ known : Command, tok ≠ known.word) :
    ((∀ known : Command, known.Opens tok → isComment tx) → Taken n tx shl) ∧
      ∀ known : Command, known.Opens tok → isComment tx = false →
        line n tx shl = command known shl := by
  have fronted := fronted_of_firstToken? fst
  have pd := fronted.ofLine
  constructor
  · intro commented
    apply taken_of_entry idle
    rw [pd]
    cases found : Command.ofWord? _ with
    | none => rfl
    | some known =>
      have starts := congrArg String.toList (Command.ofWord?_eq_some_iff.1 found)
      rw [String.toList_ofList] at starts
      have some : (trimLeft tx.toList).takeWhile isCommandChar ≠ [] := by
        rw [starts]
        cases known <;> decide
      obtain ⟨same, isWord, continues⟩ := fronted.word some
      rcases eq_or_opens continues (same.symm.trans starts) with rfl | opens
      · have named : wordKind known.word = .name := by cases known <;> rfl
        grind
      · obtain ⟨rest, fr⟩ := List.head?_eq_some_iff.1 (of_decide_eq_true (commented known opens))
        exact absurd (by rw [fr]; rfl) some
  · rintro known ⟨mark, isMark, rest, spelled⟩ visible
    obtain ⟨behind, fr, _⟩ := fronted.resolve_left (of_decide_eq_false visible)
    have ots : isCommandChar mark = false := by
      simp only [List.mem_cons, List.not_mem_nil, or_false] at isMark
      rcases isMark with rfl | rfl | rfl <;> rfl
    have whole : known.word.toList.takeWhile isCommandChar = known.word.toList := by
      cases known <;> rfl
    rw [fr, spelled, List.append_assoc, List.cons_append,
      takeWhile_append_of_head? (by simpa using ots), whole, String.ofList_toList,
      Command.ofWord?_eq_some_iff.2 rfl] at pd
    rw [line, pd]
    rfl

/-- A name that only begins like a command is held back until its parenthesis is closed. -/
theorem line_taken_exits :
    firstToken? (Text.lines "exits (x") = some (.name, "exits") ∧
      (line 1 "exits (x" fresh).2.pending = "exits (x" ∧
      (line 1 "exits (x" fresh).2.prompt = ". " := by
  have fst : firstToken? (Text.lines "exits (x") = some (.name, "exits") := by decide +kernel
  have plain : ∀ known : Command, ¬ known.Opens "exits" := by
    rintro known ⟨mark, isMark, rest, spelled⟩
    cases known <;> simp [Command.word] at spelled
    grind
  have idle : fresh.pending = "" := rfl
  have taken := (line_taken 1 idle fst
    (.inr (.inr ⟨rfl, fun known => by cases known <;> decide⟩))).1
    fun known opens => absurd opens (plain known)
  have same : trimmed "exits (x" = "exits (x" := by decide +kernel
  have goesOn : continues "exits (x" := by decide +kernel
  have held := taken.added
  rw [same, goesOn, if_pos rfl] at held
  have done := taken.entered
  rw [same, Action.bind_eq, enter, held] at done
  rw [done]
  exact ⟨fst, rfl, rfl⟩

/-- The shell is left by a line that binds a name. -/
theorem binding_leaves :
    firstToken? (Text.lines "exit' = x => x") = some (.name, "exit'") ∧
      parseEntry "exit' = x => x" = .ok (.binds ⟨"exit'", .lam "x" (.var "x"), 1⟩) ∧
      line 1 "exit' = x => x" fresh = (.ok .leave, fresh) := by
  have command : Input.ofLine "exit' = x => x" = .command .exit := by decide +kernel
  refine ⟨by decide +kernel, parseEntry_of_toOption (by decide +kernel), ?_⟩
  rfl

end Shell

end CallByNeed
