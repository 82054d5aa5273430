import CallByNeed.Proofs.RoundTrip

/-!
# Tokens and the text they are cut from

`Spelling` says which texts are tokens of which kind, and `Foremost` that a
token is the longest one at its place.  `Tiles` is the law of one line: tokens
stand at their columns, one behind the other, and what they leave uncovered is
blank.  A line is scanned as far as it can be tiled.

`scan_tiles` is the main statement: a text that is accepted is tiled line by
line, and a text that is refused is tiled up to the character that is named.
-/

namespace CallByNeed.Source

/-- The texts of tokens. -/
inductive Spelling : TokenKind → List Char → Prop where
  | word {fst : Char} {rest : List Char} (starts : startsName fst)
      (continues : ∀ ch ∈ rest, continuesName ch) :
      Spelling (wordKind (String.ofList (fst :: rest))) (fst :: rest)
  | quoted {inside : List Char} (plain : '"' ∉ inside) : Spelling .string ('"' :: inside ++ ['"'])
  | arrow : Spelling .arrow ['=', '>']
  | mark {ch : Char} {kd : TokenKind} (isMark : markKind? ch = some kd) : Spelling kd [ch]

/-- The longest token that a text starts with.  What follows it does not go on
with a word, and does not make an arrow of an equals sign. -/
structure Foremost (kd : TokenKind) (chs tx : List Char) : Prop where
  spelling : Spelling kd chs
  front : chs <+: tx
  longest : ∀ o longer, Spelling o longer → longer <+: tx → longer.length ≤ chs.length
  apart : ∀ ch ∈ (tx.drop chs.length).head?,
    (kd = .name ∨ kd = .keyword → continuesName ch = false) ∧ (kd = .equals → ch ≠ '>')

/-- A text whose first character is neither blank nor the start of a token. -/
def Stray (tx : List Char) : Prop :=
  ∃ ch rest, tx = ch :: rest ∧ Text.isBlank ch = false ∧ ∀ kd chs, Spelling kd chs → ¬ chs <+: tx

variable {ch : Char} {kd : TokenKind} {chs tx rest : List Char} {ln col : Nat}
  {toks : List Token}

/-! ### The longest token -/

/-- A token and a text behind it that does not lengthen it. -/
inductive Cuts : TokenKind → List Char → List Char → Prop where
  | word {fst : Char} {os rest : List Char} (starts : startsName fst)
      (continues : ∀ ch ∈ os, continuesName ch) (delimits : Delimits rest) :
      Cuts (wordKind (String.ofList (fst :: os))) (fst :: os) rest
  | quoted {inside rest : List Char} (plain : '"' ∉ inside) :
      Cuts .string ('"' :: inside ++ ['"']) rest
  | arrow {rest : List Char} : Cuts .arrow ['=', '>'] rest
  | mark {ch : Char} {kd : TokenKind} {rest : List Char} (isMark : markKind? ch = some kd)
      (noArrow : ch = '=' → rest.head? ≠ some '>') : Cuts kd [ch] rest

theorem Cuts.spelling (cuts : Cuts kd chs rest) : Spelling kd chs := by
  cases cuts with
  | word starts continues => exact .word starts continues
  | quoted plain => exact .quoted plain
  | arrow => exact .arrow
  | mark isMark => exact .mark isMark

theorem Cuts.apart (cuts : Cuts kd chs rest) (ch : Char) (next : ch ∈ rest.head?) :
    (kd = .name ∨ kd = .keyword → continuesName ch = false) ∧ (kd = .equals → ch ≠ '>') := by
  cases cuts with
  | word _ _ delimits =>
    refine ⟨fun _ => delimits ch next, ?_⟩
    unfold wordKind
    split <;> simp
  | quoted => simp
  | arrow => simp
  | @mark sign _ _ isMark noArrow =>
    unfold markKind? at isMark
    split at isMark <;> cases isMark <;> simp
    simp_all

theorem delimits_dropWhile (tx : List Char) : Delimits (tx.dropWhile continuesName) := by
  intro ch fst
  grind [List.head?_dropWhile_not]

theorem lexeme?_cuts {lexeme : Lexeme tx} (found : lexeme? tx = some lexeme) :
    tx = lexeme.chars ++ lexeme.rest ∧ Cuts lexeme.kind lexeme.chars lexeme.rest := by
  unfold lexeme? at found
  split at found
  · cases found
  · cases found
    exact ⟨rfl, .arrow⟩
  · rename_i rest
    split at found
    · cases found
    · rename_i quote aft split
      cases found
      have closing : quote = '"' := by grind [List.head?_dropWhile_not]
      have cut := List.takeWhile_append_dropWhile (p := (· ≠ '"')) (l := rest)
      rw [split, closing] at cut
      refine ⟨by simpa using cut.symm, .quoted ?_⟩
      grind [List.mem_takeWhile_imp]
  · rename_i ch rest noArrow _
    split at found
    · rename_i starts
      cases found
      refine ⟨by simp, .word starts ?_ (delimits_dropWhile rest)⟩
      exact fun ch inside => List.mem_takeWhile_imp inside
    · obtain ⟨kd, isMark, rfl⟩ := Option.map_eq_some_iff.1 found
      refine ⟨rfl, .mark isMark ?_⟩
      grind [List.head?_eq_some_iff]

/-- Where a run of characters of one class ends. -/
theorem span_eq (stays : Char → Bool) (inside : ∀ ch ∈ chs, stays ch)
    (ots : ∀ ch ∈ rest.head?, stays ch = false) :
    (chs ++ rest).takeWhile stays = chs ∧ (chs ++ rest).dropWhile stays = rest := by
  rw [List.takeWhile_append_of_pos inside, List.dropWhile_append_of_pos inside]
  cases rest with
  | nil => simp
  | cons ch rest => simp [ots ch rfl]

theorem Cuts.found (cuts : Cuts kd chs rest) :
    ∃ lexeme, lexeme? (chs ++ rest) = some lexeme ∧ lexeme.kind = kd ∧
      lexeme.chars = chs ∧ lexeme.rest = rest := by
  cases cuts with
  | @word fst os _ starts continues delimits =>
    obtain ⟨_, found⟩ := lexeme?_of_startsName starts (os ++ rest)
    obtain ⟨taken, l⟩ := span_eq continuesName continues delimits
    simp_all
  | @quoted inside _ plain =>
    have o : ∀ ch ∈ inside, decide (ch ≠ '"') = true :=
      fun ch mem => by simpa using ne_of_mem_of_not_mem mem plain
    have closing : ∀ ch ∈ ('"' :: rest).head?, decide (ch ≠ '"') = false := by simp
    obtain ⟨taken, l⟩ := span_eq (· ≠ '"') o closing
    have whole : '"' :: inside ++ ['"'] ++ rest = '"' :: (inside ++ '"' :: rest) := by simp
    rw [whole, lexeme?.eq_3]
    split
    · simp_all
    grind
  | arrow => exact ⟨_, rfl, rfl, rfl, rfl⟩
  | @mark ch _ _ isMark noArrow =>
    rw [List.singleton_append, lexeme?.eq_4, not_startsName_of_mark isMark, isMark]
    · simp
    · grind
    · rintro rfl
      cases isMark

theorem Spelling.found (spelling : Spelling kd chs) (rest : List Char) :
    ∃ lexeme, lexeme? (chs ++ rest) = some lexeme ∧ chs.length ≤ lexeme.chars.length := by
  cases spelling with
  | @word fst os starts continues =>
    obtain ⟨_, found⟩ := lexeme?_of_startsName starts (os ++ rest)
    simp_all
  | quoted plain =>
    obtain ⟨_, found, _, same, _⟩ := (Cuts.quoted plain).found
    exact ⟨_, found, by rw [same]⟩
  | arrow => exact ⟨_, lexeme?_arrow rest, le_rfl⟩
  | @mark ch _ isMark =>
    by_cases arrow : ch = '=' ∧ rest.head? = some '>'
    · grind [List.head?_eq_some_iff, lexeme?_arrow]
    · obtain ⟨_, found, _, same, _⟩ := (Cuts.mark isMark (not_and.1 arrow)).found
      simp_all

theorem lexeme?_foremost {lexeme : Lexeme tx} (found : lexeme? tx = some lexeme) :
    Foremost lexeme.kind lexeme.chars tx where
  spelling := (lexeme?_cuts found).2.spelling
  front := ⟨lexeme.rest, (lexeme?_cuts found).1.symm⟩
  longest o longer spelling := by
    rintro ⟨rest, rfl⟩
    obtain ⟨again, same, bound⟩ := spelling.found rest
    simp_all
  apart ch next := by
    obtain ⟨whole, cuts⟩ := lexeme?_cuts found
    have l := congrArg (List.drop lexeme.chars.length) whole
    rw [List.drop_left] at l
    rw [l] at next
    exact cuts.apart ch next

theorem stray_of_lexeme? (visible : Text.isBlank ch = false)
    (nothing : lexeme? (ch :: rest) = none) : Stray (ch :: rest) := by
  refine ⟨ch, rest, rfl, visible, ?_⟩
  rintro kd chs spelling ⟨os, same⟩
  rw [← same] at nothing
  obtain ⟨_, found, _⟩ := spelling.found os
  simp_all

/-! ### Lines -/

/-- Tokens of a line that stand between two columns and leave nothing but blanks
uncovered there. -/
structure Tiles (ln : Nat) (src : List Char) (st0 stop : Nat) (toks : List Token) :
    Prop where
  placed : ∀ tok ∈ toks, tok.line = ln ∧ st0 ≤ tok.column ∧
    tok.column + tok.text.length ≤ stop ∧
    Foremost tok.kind tok.text.toList (src.drop tok.column)
  ordered : toks.Pairwise fun ely later =>
    ely.column + ely.text.length ≤ later.column
  blank : ∀ pl ch, st0 ≤ pl → pl < stop → src[pl]? = some ch →
    (∀ tok ∈ toks, ¬ (tok.column ≤ pl ∧ pl < tok.column + tok.text.length)) →
    Text.isBlank ch

namespace Tiles

variable {src fr : List Char} {st0 stop : Nat}

theorem nil : Tiles ln src st0 st0 [] where
  placed := by simp
  ordered := .nil
  blank := by omega

theorem skip (isBlank : ∀ ch ∈ src[st0]?, Text.isBlank ch)
    (tiles : Tiles ln src (st0 + 1) stop toks) : Tiles ln src st0 stop toks where
  placed tok mem := by
    obtain ⟨onLine, aft, bef, foremost⟩ := tiles.placed tok mem
    grind
  ordered := tiles.ordered
  blank pl ch aft bef here ots := by
    by_cases fst : pl = st0
    · simp_all
    · exact tiles.blank pl ch (by omega) bef here ots

theorem cons (foremost : Foremost kd chs (src.drop st0)) (fits : st0 + chs.length ≤ stop)
    (tiles : Tiles ln src (st0 + chs.length) stop toks) :
    Tiles ln src st0 stop (⟨kd, String.ofList chs, ln, st0⟩ :: toks) where
  placed := by
    rintro tok (_ | ⟨_, mem⟩)
    · simp_all
    · obtain ⟨onLine, aft, bef, os⟩ := tiles.placed tok mem
      grind
  ordered := by
    refine .cons ?_ tiles.ordered
    intro tok mem
    simpa using (tiles.placed tok mem).2.1
  blank pl ch aft bef here ots := by
    have past := ots _ List.mem_cons_self
    simp only [String.length_ofList] at past
    refine tiles.blank pl ch (by omega) bef here ?_
    simp_all

end Tiles

/-- A line that is tiled from a column on, whole or up to a character that starts
no token. -/
def TiledBy (ln : Nat) (src : List Char) (st0 : Nat) : Except Nat (List Token) → Prop
  | .ok toks => Tiles ln src st0 src.length toks
  | .error stop =>
    st0 ≤ stop ∧ Stray (src.drop stop) ∧ ∃ toks, Tiles ln src st0 stop toks

theorem scanLine_tiles (ln : Nat) (fr tx : List Char) :
    TiledBy ln (fr ++ tx) fr.length (scanLine ln fr.length tx) := by
  generalize pl : fr.length = col
  fun_induction scanLine ln col tx generalizing fr with
  | case1 col => simpa [TiledBy, ← pl] using Tiles.nil
  | case2 col ch rest blank ih =>
    have tiled := ih (fr ++ [ch]) (by simp [pl])
    rw [List.append_assoc, List.singleton_append] at tiled
    have here : ∀ o ∈ (fr ++ ch :: rest)[col]?, Text.isBlank o := by simp_all
    cases r : scanLine ln (col + 1) rest with
    | ok toks =>
      rw [r] at tiled
      exact tiled.skip here
    | error stop =>
      rw [r] at tiled
      obtain ⟨aft, stray, toks, tiles⟩ := tiled
      exact ⟨by omega, stray, toks, tiles.skip here⟩
  | case3 col ch rest visible nothing =>
    rw [← pl]
    refine ⟨le_rfl, ?_, [], .nil⟩
    rw [List.drop_left]
    exact stray_of_lexeme? (by simpa using visible) nothing
  | case4 col ch rest visible lexeme found ih =>
    have whole := (lexeme?_cuts found).1
    have tiled := ih (fr ++ lexeme.chars) (by simp [pl])
    rw [List.append_assoc, ← whole] at tiled
    have foremost : Foremost lexeme.kind lexeme.chars ((fr ++ ch :: rest).drop col) := by
      grind [lexeme?_foremost]
    cases r : scanLine ln (col + lexeme.chars.length) lexeme.rest with
    | ok toks =>
      rw [r] at tiled
      refine tiled.cons foremost ?_
      simp_all
    | error stop =>
      rw [r] at tiled
      obtain ⟨aft, stray, toks, tiles⟩ := tiled
      exact ⟨by omega, stray, _, tiles.cons foremost aft⟩

/-! ### Texts -/

/-- A line with its number and its tokens. -/
def TiledLine (num : Nat) (ln : String) (toks : List Token) : Prop :=
  if isComment ln then toks = [] else Tiles num ln.toList 0 ln.toList.length toks

/-- Lines from a number on, each with its tokens. -/
inductive TiledLines : Nat → List String → List Token → Prop where
  | nil {num : Nat} : TiledLines num [] []
  | cons {num : Nat} {ln : String} {lns : List String} {toks os : List Token}
      (fst : TiledLine num ln toks) (rest : TiledLines (num + 1) lns os) :
      TiledLines num (ln :: lns) (toks ++ os)

/-- The first character of lines that starts no token. -/
structure FirstStray (num : Nat) (lns : List String) (stray : StrayCharacter) : Prop where
  split : ∃ before aft, lns = before ++ stray.source :: aft ∧
    stray.line = num + before.length ∧ ∃ toks, TiledLines num before toks
  visible : isComment stray.source = false
  stuck : Stray (stray.source.toList.drop stray.column)
  before : ∃ toks, Tiles stray.line stray.source.toList 0 stray.column toks

theorem FirstStray.behind {ln : String}
    (later : FirstStray (num + 1) lns stray) (fst : TiledLine num ln toks) :
    FirstStray num (ln :: lns) stray where
  split := by
    obtain ⟨bef, aft, rfl, pl, os, tiled⟩ := later.split
    exact ⟨ln :: bef, aft, rfl, by simp [pl]; omega, _, .cons fst tiled⟩
  visible := later.visible
  stuck := later.stuck
  before := later.before

theorem scanLines_tiles (num : Nat) (lns : List String) :
    match scanLines num lns with
    | .ok toks => TiledLines num lns toks
    | .error stray => FirstStray num lns stray := by
  induction lns generalizing num with
  | nil => exact .nil
  | cons ln lns ih =>
    have later := ih (num + 1)
    have here := scanLine_tiles num [] ln.toList
    rw [List.nil_append, List.length_nil] at here
    rw [scanLines]
    by_cases comment : isComment ln
    · have fst : TiledLine num ln [] := by simp [TiledLine, comment]
      rw [if_pos comment]
      cases scn : scanLines (num + 1) lns with
      | ok toks =>
        rw [scn] at later
        exact .cons fst later
      | error stray =>
        rw [scn] at later
        exact later.behind fst
    · rw [if_neg comment]
      cases fst : scanLine num 0 ln.toList with
      | error col =>
        rw [fst] at here
        exact ⟨⟨[], lns, rfl, rfl, [], .nil⟩, by simpa using comment, here.2.1, here.2.2⟩
      | ok toks =>
        rw [fst] at here
        have fst : TiledLine num ln toks := by
          simpa [TiledLine, TiledBy, comment] using here
        cases scn : scanLines (num + 1) lns with
        | ok os =>
          rw [scn] at later
          exact .cons fst later
        | error stray =>
          rw [scn] at later
          exact later.behind fst

theorem TiledLines.spelling (tiled : TiledLines num lns toks) :
    ∀ tok ∈ toks, Spelling tok.kind tok.text.toList := by
  induction tiled with
  | nil => simp
  | @cons num ln lns toks os fst _ ih =>
    intro tok mem
    rcases List.mem_append.1 mem with here | later
    · unfold TiledLine at fst
      split at fst
      · simp [fst] at here
      · exact (fst.placed tok here).2.2.2.spelling
    · exact ih tok later

theorem startsName_of_keyword (keyword : String.ofList (ch :: rest) ∈ keywords) :
    startsName ch := by
  simp only [keywords, List.mem_cons, List.not_mem_nil, or_false] at keyword
  rcases keyword with same | same | same | same <;>
  · have chs := congrArg String.toList same
    rw [String.toList_ofList] at chs
    cases chs
    decide

theorem kind_ne_of_mark (isMark : markKind? ch = some kd) :
    kd ≠ .keyword ∧ kd ≠ .string ∧ kd ≠ .endOfInput := by
  unfold markKind? at isMark
  grind

/-- Keywords are told from names by their text alone. -/
theorem Spelling.keyword_iff (spelling : Spelling kd chs) :
    kd = .keyword ↔ String.ofList chs ∈ keywords := by
  cases spelling with
  | word =>
    unfold wordKind
    split <;> simp_all
  | quoted => exact ⟨nofun, fun mem => absurd (startsName_of_keyword mem) (by decide)⟩
  | arrow => exact ⟨nofun, fun mem => absurd (startsName_of_keyword mem) (by decide)⟩
  | mark isMark =>
    constructor
    · grind [kind_ne_of_mark]
    · intro mem
      have starts := startsName_of_keyword mem
      grind [not_startsName_of_mark]

theorem Spelling.ne_endOfInput (spelling : Spelling kd chs) : kd ≠ .endOfInput := by
  cases spelling with
  | word =>
    unfold wordKind
    split <;> simp
  | quoted => simp
  | arrow => simp
  | mark isMark => exact (kind_ne_of_mark isMark).2.2

theorem tiledLines_of_scan {tx : String} {scn : Scanned} (done : scan tx = .ok scn) :
    scn.lines = Text.lines tx ∧ TiledLines 1 scn.lines scn.tokens := by
  grind [scanLines_tiles, scan, Except.map]

theorem firstStray_of_scan {tx : String}
    (failed : scan tx = .error stray) : FirstStray 1 (Text.lines tx) stray := by
  grind [scanLines_tiles, scan, Except.map]

/-- The tokens of a text with the mark at its end. -/
def Scanned.all (scn : Scanned) : List Token := scn.tokens ++ [scn.final]

/-- Scanning loses and invents nothing.  The tokens of an accepted text tile its
lines and end with the mark behind the last line; a refused text is tiled up to
the first character that is neither blank nor the start of a token. -/
theorem scan_tiles (tx : String) :
    match scan tx with
    | .ok scn => ∃ toks last, scn.all = toks ++ [last] ∧
        TiledLines 1 (Text.lines tx) toks ∧
        (∀ tok ∈ toks, tok.kind ≠ .endOfInput ∧
          (tok.kind = .keyword ↔ tok.text ∈ ["import", "use", "from", "as"])) ∧
        last = ⟨.endOfInput, "", (Text.lines tx).length, ((Text.lines tx).getLastD "").length⟩
    | .error stray => FirstStray 1 (Text.lines tx) stray := by
  cases scn : scan tx with
  | error stray => exact firstStray_of_scan scn
  | ok r =>
    obtain ⟨lns, tiled⟩ := tiledLines_of_scan scn
    refine ⟨r.tokens, _, rfl, lns ▸ tiled, ?_, ?_⟩
    · intro tok mem
      have spelling := tiled.spelling tok mem
      have keyword := spelling.keyword_iff
      rw [String.ofList_toList] at keyword
      exact ⟨spelling.ne_endOfInput, keyword⟩
    · rw [Scanned.final, lns]
      rfl

end CallByNeed.Source
