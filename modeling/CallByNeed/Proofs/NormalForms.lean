import CallByNeed.Proofs.Adequacy
import CallByNeed.Proofs.Reading

/-!
# Reading back gives normal forms

A value is read back under binders, whose variables are opened with fresh
names.  What is read has no other free names, is in normal form, binds no name
twice on a path, and is a reduct of what the value stands for.  A variable is
found by its name alone; it is the right one because the names of the binders
around it are distinct, and because reduction does not bring in variables of
other binders.
-/

namespace CallByNeed

variable {x : Name} {a : Address}
variable {f b r : Term} {args ts : List Term} {rl : Roles}
  {e aft : Engine} {n st0 : Nat} {tks : List Task}

namespace Term

theorem mem_freeNames_apply :
    x ∈ (f.apply args).freeNames ↔ x ∈ f.freeNames ∨ ∃ arg ∈ args, x ∈ arg.freeNames := by
  induction args generalizing f with
  | nil => simp [apply]
  | cons arg args ih =>
    have rest : x ∈ ((app f arg).apply args).freeNames ↔ _ := ih
    rw [show f.apply (arg :: args) = (app f arg).apply args from rfl, rest, mem_freeNames_app]
    simp [or_assoc]

theorem nameless_apply (mn : Name → Nameless) (bds : List Name) (f : Term) (args : List Term) :
    (f.apply args).nameless mn bds =
      (f.nameless mn bds).apply (args.map (Term.nameless mn bds)) := by
  induction args generalizing f with
  | nil => rfl
  | cons arg args ih => exact ih (app f arg)

end Term

/-- The binders around what is read back, outermost first, with their
variables. -/
abbrev Scope := List (Name × Address)

variable {sc : Scope}

namespace Scope

/-- The names of binders. -/
def names (sc : Scope) : List Name := sc.map Prod.fst

/-- What names stand for under binders. -/
def meaning (sc : Scope) (x : Name) : Nameless :=
  match sc.lookup x with
  | some a => .free a
  | none => .missing x

/-- Binders with distinct names, of variables that have these names. -/
structure Valid (rl : Roles) (sc : Scope) : Prop where
  distinct : sc.names.Nodup
  opened : ∀ {x a}, (x, a) ∈ sc → rl a = some (.opened x)

theorem Valid.grow {o : Roles} (valid : sc.Valid rl) (grow : rl.Grow size o) :
    sc.Valid o :=
  ⟨valid.distinct, fun mem => grow.keeps (valid.opened mem)⟩

theorem names_append (sc : Scope) (x : Name) (a : Address) :
    (sc ++ [(x, a)]).names = sc.names ++ [x] := by
  simp [names]

theorem nodup_append (dst : sc.names.Nodup) (fresh : x ∉ sc.names) (a : Address) :
    (sc ++ [(x, a)]).names.Nodup := by grind [names]

theorem Valid.opens (valid : sc.Valid rl) (unused : rl a = none) (fresh : x ∉ sc.names) :
    (sc ++ [(x, a)]).Valid (rl.add a (.opened x)) := by
  refine ⟨nodup_append valid.distinct fresh a, fun {binder o} mem => ?_⟩
  rcases List.mem_append.mp mem with old | new
  · exact (Marks.grow_add unused _).keeps (valid.opened old)
  simp_all

theorem closedAt_meaning (sc : Scope) (x : Name) : (sc.meaning x).ClosedAt 0 := by
  unfold meaning
  split <;> trivial

theorem mem_of_lookup (found : sc.lookup x = some a) : (x, a) ∈ sc := by
  grind [List.lookup_eq_some_iff]

theorem mem_of_occurs (occurs : (sc.meaning x).Occurs a) : (x, a) ∈ sc := by
  unfold meaning at occurs
  split at occurs
  · rename_i found
    exact occurs ▸ mem_of_lookup found
  · exact occurs.elim

theorem lookup_of_mem (dst : sc.names.Nodup) (mem : (x, a) ∈ sc) : sc.lookup x = some a := by
  induction sc with
  | nil => cases mem
  | cons binder sc ih => grind [names]

theorem meaning_of_mem (dst : sc.names.Nodup) (mem : (x, a) ∈ sc) : sc.meaning x = .free a := by
  rw [meaning, lookup_of_mem dst mem]

theorem meaning_append {o : Name} (a : Address) (differ : o ≠ x) :
    (sc ++ [(x, a)]).meaning o = sc.meaning o := by grind [meaning]

/-- What stands under a new binder, with the variable of the binder closed. -/
theorem close_nameless (valid : sc.Valid rl) (fresh : x ∉ sc.names) (unused : rl a = none)
    (t : Term) :
    (t.nameless (sc ++ [(x, a)]).meaning []).close a 0 = t.nameless sc.meaning [x] := by
  refine Term.nameless_close ?_ (fun o differ => meaning_append _ differ)
    (closedAt_meaning _) ?_ [] t
  · exact meaning_of_mem (nodup_append valid.distinct fresh _) (by simp)
  · intro o differ occurs
    rw [meaning_append _ differ] at occurs
    have known := valid.opened (mem_of_occurs occurs)
    simp [unused] at known

end Scope

/-- A term that reading back gives for what a value stands for: a reduct of it,
with no free names but those of binders in scope. -/
structure ReadAs (lk : Store) (sc : Scope) (mn : Nameless) (t : Term) :
    Prop where
  reduces : Reduces lk.definitions mn (t.nameless sc.meaning [])
  bound : ∀ x ∈ t.freeNames, x ∈ sc.names

/-- A term whose variables without a value belong to binders in scope. -/
def Nameless.Within (lk : Store) (sc : Scope) (mn : Nameless) : Prop :=
  ∀ a, mn.Occurs a → (∃ x, (x, a) ∈ sc) ∨ (lk.definitions a).isSome

theorem Nameless.Within.steps {lk : Store} (wlk : lk.Linked) {mn : Nameless} {k : Nat}
    (within : mn.Within lk sc) (sts : HeadSteps lk.definitions k mn reduced) :
    reduced.Within lk sc := by
  intro a occurs
  rcases sts.occurs wlk.selfContained occurs with bef | defined
  · exact within a bef
  · exact .inr defined

section ReadBack

variable {lk : Store} {cfg : Settings}

/-- The body of an abstraction belongs to the scope with a binder more. -/
theorem Nameless.Within.opens {mn : Name → Nameless}
    (sound : Sound lk rl s) (gives : Gives lk rl env mn)
    (within : (Nameless.lam (b.nameless mn [p])).Within lk sc) (x : Name) :
    (b.nameless (Term.assign mn p (.free s.size)) []).Within lk (sc ++ [(x, s.size)]) := by
  intro a occurs
  rw [← Term.nameless_instantiate (sound.gives_closed gives)
    (show (Nameless.free s.size).ClosedAt 0 from trivial) p [] b] at occurs
  rcases occurs.instantiate with old | new
  · rcases within a old with ⟨binder, mem⟩ | defined
    · exact .inl ⟨binder, List.mem_append_left _ mem⟩
    · exact .inr defined
  · exact .inl ⟨x, by simp [show s.size = a from new]⟩

/-- What is read under a new binder is read as an abstraction. -/
theorem ReadAs.lam {mn : Name → Nameless} {k : Nat}
    {r : Nameless} (wlk : lk.Linked) (sound : Sound lk rl s) (gives : Gives lk rl env mn)
    (valid : sc.Valid rl) (fresh : x ∉ sc.names)
    (sts : HeadSteps lk.definitions k (b.nameless (Term.assign mn p (.free s.size)) []) r)
    (read : ReadAs lk (sc ++ [(x, s.size)]) r t) :
    ReadAs lk sc (.lam (b.nameless mn [p])) (.lam x t) := by
  have unused : ∀ {a}, (rl a).isSome → a ≠ s.size := by
    rintro a known rfl
    simp [sound.fresh] at known
  have undefined : lk.definitions s.size = none := by
    cases defined : lk.definitions s.size with
    | none => rfl
    | some definition =>
      have bound := wlk.definitions_isSome.mp (Option.isSome_of_eq_some defined)
      exact absurd rfl (unused (by simp [sound.declared bound]))
  have new : ¬ (b.nameless mn [p]).Occurs s.size := fun occurs =>
    unused (sound.term_occurs gives occurs) rfl
  have opened := Term.nameless_instantiate (sound.gives_closed gives)
    (show (Nameless.free s.size).ClosedAt 0 from trivial) p [] b
  have inn : Reduces lk.definitions (b.nameless mn [p]) (t.nameless sc.meaning [x]) := by
    have closed := Reduces.close wlk.selfContained undefined (sts.reduces.trans read.reduces) 0
    rw [← opened] at closed
    rw [Scope.close_nameless valid fresh sound.fresh] at closed
    simpa [Nameless.close_instantiate new] using closed
  refine ⟨inn.lam, fun o free => ?_⟩
  simp only [Term.freeNames, List.mem_filter, decide_eq_true_eq] at free
  have inScope := read.bound o free.1
  simpa [Scope.names, free.2] using inScope

/-- A variable that is applied is read with what its arguments are read as. -/
theorem ReadAs.neutral (wlk : lk.Linked) (sound : Sound lk rl s)
    (valid : sc.Valid rl) (opened : rl a = some (.opened x))
    (within : ((Nameless.free a).apply mns).Within lk sc)
    (read : List.Forall₂ (ReadAs lk sc) mns ts) :
    ReadAs lk sc ((Nameless.free a).apply mns) ((Term.var x).apply ts) := by
  have mem : (x, a) ∈ sc := by
    rcases within a (Nameless.occurs_apply.mpr (.inl rfl)) with ⟨o, mem⟩ | defined
    · have same := (valid.opened mem).symm.trans opened
      simp_all
    · have bound := wlk.definitions_isSome.mp defined
      simp [sound.declared bound] at opened
  have each : ∀ t ∈ ts, ∃ mn, ReadAs lk sc mn t := by
    clear within
    induction read with
    | nil => simp
    | cons fst _ ih => simpa using ⟨⟨_, fst⟩, ih⟩
  constructor
  · rw [Term.nameless_apply, Term.nameless_var, Scope.meaning_of_mem valid.distinct mem]
    refine Reduces.apply .refl ?_
    rw [List.forall₂_map_right_iff]
    exact read.imp fun _ _ read => read.reduces
  · intro o free
    rcases Term.mem_freeNames_apply.mp free with head | ⟨t, listed, inside⟩
    · simp only [Term.freeNames, List.mem_singleton] at head
      subst head
      exact List.mem_map.mpr ⟨_, mem, rfl⟩
    · obtain ⟨_, read⟩ := each t listed
      exact read.bound o inside

mutual

/-- A value is read back as a reduct of what it stands for. -/
theorem Quotes.reads (wlk : lk.Linked) {e later : Engine} {v : Value} {us : List Name}
    {t : Term} :
    Quotes cfg e v us t later → ∀ (rl : Roles) (sc : Scope) (mn : Nameless), us = sc.names →
    Sound lk rl e.store → sc.Valid rl → Denotes lk rl v mn → mn.Within lk sc →
    ∃ o : Roles, rl.Grow 0 o ∧ Sound lk o later.store ∧ ReadAs lk sc mn t
  | @Quotes.closure _ e _ _ _ _ _ p b _ env _ form opened read => by
    have body := Quotes.reads wlk read
    rintro rl sc mn rfl sound valid denotes within
    cases denotes with
    | neutral o _ _ => simp [form] at o
    | closure same gives =>
      cases form.symm.trans same
      let x := freshName p sc.names
      have fresh : x ∉ sc.names := freshName_notMem p sc.names
      have grow := Marks.grow_add sound.fresh (.opened x)
      have means : Roles.meaning? (rl.add e.store.size (.opened x)) e.store.size =
          some (.free e.store.size) := by
        simp [Roles.meaning?, Role.meaning]
      have starts : Means lk (rl.add e.store.size (.opened x)) []
          ⟨some (b, .layer p (some e.store.size) env), Value.absent, [],
            e.store.withVariable x⟩ _ _ :=
        ⟨_, _, _, .term (gives_layer (gives.grow grow) means p), .base, rfl⟩
      obtain ⟨o, sts, reduced, further, soundMiddle, reaches, denotes⟩ :=
        starts.returned (sound.withVariable x) (reaches_of_evaluate opened)
      obtain ⟨last, more, soundLast, read⟩ := body o (sc ++ [(x, e.store.size)]) reduced
        (sc.names_append x _).symm soundMiddle ((valid.opens sound.fresh fresh).grow further)
        denotes ((within.opens sound gives x).steps wlk reaches)
      exact ⟨last, (grow.trans further).trans more, soundLast,
        .lam wlk sound gives valid fresh reaches read⟩
  | .neutral form read => by
    have each := QuotesAll.reads wlk read
    rintro rl sc mn rfl sound valid denotes within
    cases denotes with
    | closure o _ => simp [form] at o
    | @neutral _ _ a mns same opened given =>
      cases form.symm.trans same
      have inn : ∀ mn ∈ mns, mn.Within lk sc := fun mn mem a occurs =>
        within a (Nameless.occurs_apply.mpr (.inr ⟨mn, mem, occurs⟩))
      obtain ⟨o, grow, soundLast, read⟩ := each rl sc mns rfl sound valid given inn
      exact ⟨o, grow, soundLast, .neutral wlk sound valid opened within read⟩
  | .constant form _ => by
    intro rl sc mn _ _ _ denotes
    cases denotes <;> simp_all
  | .primitive form => by
    intro rl sc mn _ _ _ denotes
    cases denotes <;> simp_all

/-- Thunks are read back as reducts of what they stand for, one after the other. -/
theorem QuotesAll.reads (wlk : lk.Linked) {e later : Engine} {args : List (Option Address)}
    {us : List Name} {ts : List Term} :
    QuotesAll cfg e args us ts later → ∀ (rl : Roles) (sc : Scope) (mns : List Nameless),
    us = sc.names → Sound lk rl e.store → sc.Valid rl →
    List.Forall₂ (fun arg mn => arg.bind rl.meaning? = some mn) args mns →
    (∀ mn ∈ mns, mn.Within lk sc) →
    ∃ o : Roles, rl.Grow 0 o ∧ Sound lk o later.store ∧ List.Forall₂ (ReadAs lk sc) mns ts
  | .nil => by
    rintro rl sc mns rfl sound valid ⟨⟩ _
    exact ⟨rl, .refl _ _, sound, .nil⟩
  | .cons forced fst rest => by
    have one := Quotes.reads wlk fst
    have os := QuotesAll.reads wlk rest
    rintro rl sc mns rfl sound valid given within
    cases given with
    | @cons _ mn _ mns means given =>
      obtain ⟨a, rfl, means⟩ := Option.bind_eq_some_iff.mp means
      have counted : Sound lk rl (Engine.countStep _).store := sound
      obtain ⟨wt, asks⟩ := counted.asks wlk means
      obtain ⟨mid, sts, reduced, grow, soundMiddle, reaches, denotes⟩ :=
        asks.returned counted (reaches_of_force forced "" (.root 0))
      obtain ⟨next, more, soundNext, read⟩ := one mid sc reduced rfl soundMiddle
        (valid.grow grow) denotes ((within mn List.mem_cons_self).steps wlk reaches)
      have grown := grow.trans more
      obtain ⟨o, further, soundLast, each⟩ := os next sc mns rfl soundNext (valid.grow grown)
        (given.imp fun _ _ means => grown.bind_meaning? means)
        fun o mem => within o (List.mem_cons_of_mem _ mem)
      exact ⟨o, grown.trans further, soundLast,
        .cons ⟨reaches.reduces.trans read.reduces, read.bound⟩ each⟩

end

/-- What a request reads back from a value without variables is a reduct of what
the value stands for, and closed. -/
theorem normalize_reads (wlk : lk.Linked) {mn : Nameless} (sound : Sound lk rl e.store)
    (denotes : Denotes lk rl v mn) (within : mn.Within lk [])
    (normalizes : normalize cfg n v e = (.ok r, aft)) : ReadAs lk [] mn r := by
  have counted : Sound lk rl e.countStep.store := sound
  obtain ⟨_, _, _, read⟩ := (quotes_of_normalize normalizes).reads wlk rl [] mn rfl counted
    ⟨by simp [Scope.names], by simp⟩ denotes within
  exact read

end ReadBack

/-- The normal form that is read back from the value of a term is closed, is in
normal form, has no binder with the name of one around it, and is a reduct of
the term: whatever was asked of the engine before the evaluation, or between it
and the reading, and whatever the bounds on steps. -/
theorem normalize_sound {ms : Modules} {s : Store} (pg : Program ms s)
    {e evd later aft : Engine} (reached : Reached s e.store)
    {cfg bds : Settings} {n enough : Nat} (lk : Module) {t r : Term}
    {v : Value}
    (evaluates : evaluate cfg n t lk.env e = (.ok v, evd))
    (between : Reached evd.store later.store)
    (normalizes : normalize bds enough v later = (.ok r, aft)) :
    r.freeNames = [] ∧ r.isNormal ∧ r.isUnshadowed [] ∧
      Reduces s.definitions (s.source lk.env t) (r.nameless .missing []) := by
  obtain ⟨rl, sound⟩ := reached.sound pg.linked
  obtain ⟨wt, means⟩ := sound.evaluates pg.linked lk.table t
  obtain ⟨mid, sts, mn, _, soundMiddle, reaches, denotes⟩ :=
    means.returned sound (reaches_of_evaluate evaluates)
  obtain ⟨o, grow, soundLater⟩ := between.keeps soundMiddle
  have within : mn.Within s [] := by
    intro a occurs
    right
    rcases reaches.occurs pg.linked.selfContained occurs with src | defined
    · exact pg.linked.definitions_isSome.mpr (pg.linked.occurs_source src)
    · exact defined
  have read := normalize_reads pg.linked soundLater (denotes.grow grow) within normalizes
  obtain ⟨normal, unshadowed⟩ := (quotes_of_normalize normalizes).normal
  refine ⟨?_, normal, unshadowed, reaches.reduces.trans read.reduces⟩
  exact List.eq_nil_iff_forall_not_mem.mpr fun x free => by
    simpa [Scope.names] using read.bound x free

/-- `x => (y => x => y) x`, in which a binder is to be renamed. -/
def shadowing : Term :=
  .lam "x" (.app (.lam "y" (.lam "x" (.var "y"))) (.var "x"))

/-- Its value in the main module of the identity program. -/
def shadowingValue : Value :=
  ⟨.closure "x" (.app (.lam "y" (.lam "x" (.var "y"))) (.var "x")) (.root 1), 1⟩

def shadowingEngine : Engine := ⟨{ identityStore with built := 1 }, ⟨2, 0, 0⟩, #[]⟩

theorem evaluate_shadowing :
    evaluate ⟨countingHost, none⟩ 9 shadowing (.root 1) (.fresh identityStore) =
      (.ok shadowingValue, shadowingEngine) := rfl

theorem normalize_shadowing : ∃ aft,
    normalize ⟨countingHost, none⟩ 9 shadowingValue shadowingEngine =
      (.ok (.lam "x" (.lam "x'" (.var "x"))), aft) :=
  ⟨_, Prod.ext (by decide +kernel) rfl⟩

/-- The inner binder is renamed when its name is taken. -/
theorem normalize_sound_shadowing : ∃ aft,
    evaluate ⟨countingHost, none⟩ 9 shadowing (.root 1) (.fresh identityStore) =
      (.ok shadowingValue, shadowingEngine) ∧
    normalize ⟨countingHost, none⟩ 9 shadowingValue shadowingEngine =
      (.ok (.lam "x" (.lam "x'" (.var "x"))), aft) ∧
    Reduces identityStore.definitions (identityStore.source (.root 1) shadowing)
      (.lam (.lam (.bound 1))) := by
  obtain ⟨aft, normalized⟩ := normalize_shadowing
  exact ⟨aft, evaluate_shadowing, normalized,
    (normalize_sound program_identity .start ⟨"main", some "main", 1, []⟩ evaluate_shadowing
      .start normalized).2.2.2⟩

end CallByNeed
