import CallByNeed.Proofs.RoundTrip
import CallByNeed.Proofs.Recognition

/-!
# Names that can be written

All names of a parsed term are names of the source language, so that the term
can be written again.
-/

namespace CallByNeed

open Source

/-- All names of a term can be written. -/
def Term.Legible (t : Term) : Prop := ∀ x ∈ t.names, isName x

variable {x : Name} {toks : List Token} {tx : String} {t : Term}

namespace Term

theorem legible_var : (var x).Legible ↔ isName x := by
  simp [Legible, names]

theorem legible_lam : (lam p b).Legible ↔ isName p ∧ b.Legible := by
  simp [Legible, names]

theorem legible_app {f arg : Term} : (app f arg).Legible ↔ f.Legible ∧ arg.Legible := by
  grind [Legible, names]

theorem Legible.lambdas {pars : List Name} (legal : ∀ x ∈ pars, isName x)
    (legible : b.Legible) : (Term.lambdas pars b).Legible := by
  induction pars with
  | nil => exact legible
  | cons p pars ih =>
    apply legible_lam.mpr
    exact ⟨legal p List.mem_cons_self, ih fun x mem => legal x (List.mem_cons_of_mem _ mem)⟩

theorem Legible.apply {f : Term} {args : List Term} (legible : f.Legible)
    (all : ∀ arg ∈ args, arg.Legible) : (f.apply args).Legible := by
  induction args generalizing f with
  | nil => exact legible
  | cons arg args ih =>
    apply ih (legible_app.mpr ⟨legible, all arg List.mem_cons_self⟩)
    simp_all

end Term

namespace Source

/-! ### Parsed terms -/

theorem markKind?_ne_name : markKind? ch ≠ some .name := by
  unfold markKind?
  split <;> simp

theorem isName_of_lexeme? {tx : List Char} {lexeme : Lexeme tx} (found : lexeme? tx = some lexeme)
    (x : lexeme.kind = .name) : isName (String.ofList lexeme.chars) := by
  unfold lexeme? at found
  split at found
  · cases found
  · grind
  · grind
  · rename_i ch rest _ _
    split at found
    · rename_i starts
      cases found
      refine isName_iff.mpr ⟨ch, rest.takeWhile continuesName, by simp, starts, ?_, x⟩
      grind [List.mem_takeWhile_imp]
    grind [Option.map_eq_some_iff, markKind?_ne_name]

/-- The tokens that are names can be written. -/
def LegibleTokens (toks : List Token) : Prop := ∀ tok ∈ toks, tok.kind = .name → isName tok.text

theorem legible_of_scanLine {tx : List Char} {ln : Nat} (scn : scanLine ln col tx = .ok toks) :
    LegibleTokens toks := by
  induction size : tx.length using Nat.strong_induction_on generalizing tx col toks with
  | _ length ih =>
    subst size
    cases tx with
    | nil => grind [scanLine, LegibleTokens]
    | cons ch rest =>
      rw [scanLine] at scn
      split at scn
      · grind
      · split at scn
        · cases scn
        · rename_i lexeme found
          obtain ⟨os, rescanned, same⟩ := ok_of_bind scn
          cases same
          intro tok mem x
          rcases List.mem_cons.mp mem with rfl | later
          · exact isName_of_lexeme? found x
          · exact ih lexeme.rest.length lexeme.shorter rescanned rfl tok later x

theorem legible_of_scanLines (scn : scanLines num lns = .ok toks) :
    LegibleTokens toks := by
  induction lns generalizing num toks with
  | nil =>
    cases scn
    simp [LegibleTokens]
  | cons ln lns ih =>
    rw [scanLines] at scn
    split at scn
    · exact ih scn
    · split at scn
      · cases scn
      · rename_i fst found
        cases rest : scanLines (num + 1) lns with
        | error stray =>
          rw [rest] at scn
          cases scn
        | ok os =>
          rw [rest] at scn
          cases scn
          intro tok mem x
          rcases List.mem_append.mp mem with early | later
          · exact legible_of_scanLine found tok early x
          · exact ih rest tok later x

theorem legible_of_scan {scn : Scanned} (done : scan tx = .ok scn) : LegibleTokens scn.tokens := by
  simp only [scan] at done
  cases lns : scanLines 1 (Text.lines tx) with
  | error stray =>
    rw [lns] at done
    cases done
  | ok toks =>
    rw [lns] at done
    cases done
    exact legible_of_scanLines lns

theorem Parameters.legible (pars : Parameters toks xs)
    (legal : LegibleTokens toks) : ∀ x ∈ xs, isName x := by
  induction pars with
  | single isName => simpa using legal _ List.mem_cons_self isName
  | more isName _ _ ih =>
    intro x mem
    rcases List.mem_cons.mp mem with rfl | later
    · exact legal _ List.mem_cons_self isName
    · refine ih (fun tok listed => legal tok ?_) x later
      simp_all

mutual

theorem Expression.legible {toks : List Token} {t : Term} (legal : LegibleTokens toks) :
    Expression toks t → t.Legible
  | .row row => row.legible legal
  | .abstraction abstraction => abstraction.legible legal
  | .applied row last => Term.legible_app.mpr
      ⟨row.legible fun tok mem => legal tok (List.mem_append_left _ mem),
        last.legible fun tok mem => legal tok (List.mem_append_right _ mem)⟩

theorem Row.legible {toks : List Token} {t : Term} (legal : LegibleTokens toks) :
    Row toks t → t.Legible
  | .single opd => opd.legible legal
  | .more row opd => Term.legible_app.mpr
      ⟨row.legible fun tok mem => legal tok (List.mem_append_left _ mem),
        opd.legible fun tok mem => legal tok (List.mem_append_right _ mem)⟩

theorem Abstraction.legible {toks : List Token} {t : Term}
    (legal : LegibleTokens toks) : Abstraction toks t → t.Legible
  | .plain isName _ inn => Term.legible_lam.mpr
      ⟨legal _ List.mem_cons_self isName, inn.legible fun tok mem => legal tok (by simp [mem])⟩
  | .list _ pars _ _ inn =>
    .lambdas (pars.legible fun tok mem => legal tok (by simp [mem]))
      (inn.legible fun tok mem => legal tok (by simp [mem]))

theorem Operand.legible {toks : List Token} {t : Term} (legal : LegibleTokens toks) :
    Operand toks t → t.Legible
  | .name isName => Term.legible_var.mpr (legal _ List.mem_cons_self isName)
  | .parenthesised _ inn _ => inn.legible fun tok mem => legal tok (by simp [mem])

end

theorem BindingClause.legible (clause : BindingClause toks bn)
    (legal : LegibleTokens toks) : bn.term.Legible := by
  cases clause with
  | clause _ _ bound => exact bound.legible fun tok mem => legal tok (by simp [mem])

theorem ModuleText.legible (tx : ModuleText toks ims bns)
    (legal : LegibleTokens toks) : ∀ bn ∈ bns, bn.term.Legible := by
  induction tx with
  | nil => simp
  | imports _ _ _ ih => exact ih fun tok mem => legal tok (by simp [mem])
  | binds fst _ _ ih =>
    intro bn mem
    rcases List.mem_cons.mp mem with rfl | later
    · exact fst.legible fun tok mem => legal tok (by simp [mem])
    · exact ih (fun tok mem => legal tok (by simp [mem])) bn later

theorem legible_of_parseTerm (pd : parseTerm tx = .ok t) : t.Legible := by
  obtain ⟨scn, done, expr⟩ := (parseTerm_decides.accepts tx t).mp pd
  exact expr.legible (legible_of_scan done)

theorem legible_of_parseModule {id ph : String} {src : ParsedModule}
    (pd : parseModule tx id ph = .ok src) : ∀ bn ∈ src.bindings, bn.term.Legible := by
  obtain ⟨scn, done, clause⟩ := ((parseModule_decides id ph).accepts tx src).mp pd
  exact clause.text.legible (legible_of_scan done)

theorem entryClause_of_parseEntry {en : Entry} (pd : parseEntry tx = .ok en) :
    ∃ toks, LegibleTokens toks ∧ EntryClause toks en := by
  obtain ⟨scn, done, derived⟩ := (parseEntry_decides.accepts tx en).mp pd
  have legal := legible_of_scan done
  generalize scn.2 = toks at derived legal
  cases derived with
  | bare clause => exact ⟨_, legal, clause⟩
  | ended clause _ => exact ⟨_, fun tok mem => legal tok (by simp [mem]), clause⟩

theorem legible_of_binds (pd : parseEntry tx = .ok (.binds bn)) :
    bn.term.Legible := by
  obtain ⟨toks, legal, clause⟩ := entryClause_of_parseEntry pd
  cases clause with
  | binds clause => exact clause.legible legal

theorem legible_of_expression (pd : parseEntry tx = .ok (.expression t)) : t.Legible := by
  obtain ⟨toks, legal, clause⟩ := entryClause_of_parseEntry pd
  cases clause with
  | expression clause => exact clause.legible legal

/-- A text of a term whose names can be written is an entry of the shell. -/
theorem parseEntry_display (legible : t.Legible) : parseEntry t.display = .ok (.expression t) := by
  obtain ⟨toks, expr, scn⟩ := (printed t legible).whole.scan
  exact (parseEntry_decides.accepts _ _).mpr ⟨_, scn, .bare (.expression expr)⟩

/-! ### Fresh names -/

/-- A mark is added to a name, and it is no keyword. -/
theorem isName_prime (legal : isName x) : isName (x ++ "'") := by
  obtain ⟨fst, rest, tx, starts, continues, _⟩ := isName_iff.mp legal
  have spelled : (x ++ "'").toList = fst :: (rest ++ ['\'']) := by
    simp [String.toList_append, tx]
  refine isName_iff.mpr ⟨fst, rest ++ ['\''], spelled, starts, ?_, ?_⟩
  · intro ch mem
    rcases List.mem_append.mp mem with old | last
    · simp_all
    · cases List.mem_singleton.mp last
      rfl
  · have last : (x ++ "'").toList.getLast? = some '\'' := by simp
    unfold wordKind
    rw [if_neg]
    intro keyword
    simp only [keywords, List.contains_eq_mem, List.mem_cons, List.not_mem_nil, or_false,
      decide_eq_true_eq] at keyword
    rcases keyword with same | same | same | same <;> rw [same] at last <;> simp at last

theorem isName_freshName (legal : isName x) (us : List Name) : isName (freshName x us) := by
  fun_induction freshName x us with
  | case1 x us taken ih => exact ih (isName_prime legal)
  | case2 x us free => exact legal

end Source

end CallByNeed
