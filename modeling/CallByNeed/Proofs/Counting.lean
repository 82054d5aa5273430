import CallByNeed.Proofs.Iteration
import CallByNeed.Proofs.Realms

/-!
# Counting

To find its number, a value is applied to a successor and a zero of the host.
The machine then evaluates the argument of each successor that it comes to,
whereas reduction stops at a variable.  A count is compared with reduction by
putting variables in the place of the successor and of zero: a number stands
for a term that applies the one to the other that many times.

`Counting.move` follows one transition, above a base of the stack: it is one of
those that `Means.move` knows, or a successor is called, and what follows is a
count above its frame.  A count that ends has found the number of its term
(`Counting.arrives`), and the count of a term with a number ends
(`Counting.completes`).
-/

variable {mn : Nameless} {a : Address} {cnt sts : Nat}

namespace CallByNeed

/-- The thunks of a successor and a zero that are variables without a value. -/
structure Counter (lk : Store) (rl : Roles) (sc og : Address) : Prop where
  apart : sc ≠ og
  opened : ∃ x, rl sc = some (.opened x)
  undefinedSuccessor : lk.definitions sc = none
  undefinedOrigin : lk.definitions og = none

/-- What a value of a count stands for.  Each of them stands for what another
value denotes, in which variables are in the place of the host's values. -/
inductive Counts (lk : Store) (rl : Roles) (sc og : Address) (v : Value) :
    Nameless → Prop where
  /-- A value of a program, which the counter does not occur in the front of. -/
  | plain {r} (denotes : Denotes lk rl v r)
      (notSuccessor : r.head ≠ .free sc) (notOrigin : r.head ≠ .free og) :
      Counts lk rl sc og v r
  | successor {shadow} (form : v.form = .primitive successorName)
      (denotes : Denotes lk rl shadow (.free sc)) :
      Counts lk rl sc og v (.free sc)
  | number {cnt : Nat} {shadow r} (form : v.form = .constant (.int cnt))
      (denotes : Denotes lk rl shadow r)
      (iterates : Iterates lk.definitions sc og cnt r) :
      Counts lk rl sc og v r
  /-- The successor of what is no number. -/
  | spoilt {shadow arg} (form : v.form = .constant .nothing)
      (denotes : Denotes lk rl shadow (.app (.free sc) arg))
      (uncounted : ∀ cnt, ¬ Iterates lk.definitions sc og cnt arg) :
      Counts lk rl sc og v (.app (.free sc) arg)

/-- A thunk of a count agrees with the thunk that follows it: it holds the same
term, or a value of what the thunk stands for. -/
inductive Conforms (lk : Store) (rl : Roles) (sc og : Address)
    (mn : Nameless) (th shadow : Thunk) : Prop where
  | code (notForced : th.phase ≠ .forced) (phase : shadow.phase = th.phase)
      (ct : shadow.content = th.content)
  | value {sts r} (forced : th.phase = .forced) (reaches : HeadSteps lk.definitions sts mn r)
      (counts : Counts lk rl sc og th.value r)

/-- A store of a count, and one in which variables are in the place of the
host's values. -/
structure Shadowed (lk : Store) (rl : Roles) (sc og : Address)
    (s shadow : Store) : Prop where
  sound : Sound lk rl shadow
  size : s.size = shadow.size
  tables : s.tables = shadow.tables
  agrees : ∀ {a role}, rl a = some role → ∃ th o,
    s.thunk? a = some th ∧ shadow.thunk? a = some o ∧
      Conforms lk rl sc og (role.meaning a) th o

/-- What a configuration of a count stands for, down to a base of its stack. -/
inductive Counting (lk : Store) (rl : Roles) (sc og : Address)
    (base : List Frame) : Configuration → (wt : Nat) → Nameless → Prop where
  | term {control v k s wt total} (means : Means lk rl base ⟨some control, v, k, s⟩ wt total) :
      Counting lk rl sc og base ⟨some control, v, k, s⟩ wt total
  | value {v k s r total} (counts : Counts lk rl sc og v r)
      (waits : Waits lk rl base 0 r k total) :
      Counting lk rl sc og base ⟨none, v, k, s⟩ k.length total

variable {lk : Store} {rl o : Roles} {sc og : Address}

/-! ### Values -/

theorem Denotes.of_form {same : Value} {r : Nameless} (denotes : Denotes lk rl v r)
    (form : same.form = v.form) : Denotes lk rl same r := by
  cases denotes with
  | closure known gives => exact .closure (form.trans known) gives
  | neutral known opened given => exact .neutral (form.trans known) opened given

variable {size : Nat} {env : Env} {dt : Datum}

theorem Counter.grow (ctr : Counter lk rl sc og) (grow : rl.Grow size o) : Counter lk o sc og := by
  obtain ⟨apart, ⟨x, opened⟩, noSuc, noOrg⟩ := ctr
  exact ⟨apart, ⟨x, grow.keeps opened⟩, noSuc, noOrg⟩

namespace Counts

variable {v : Value} {r : Nameless}

theorem grow {size : Nat} (counts : Counts lk rl sc og v r) (grow : rl.Grow size o) :
    Counts lk o sc og v r := by
  cases counts with
  | plain denotes notSuccessor notOrigin =>
    exact .plain (denotes.grow grow) notSuccessor notOrigin
  | successor form denotes => exact .successor form (denotes.grow grow)
  | number form denotes iterates => exact .number form (denotes.grow grow) iterates
  | spoilt form denotes uncounted => exact .spoilt form (denotes.grow grow) uncounted

theorem shadow (counts : Counts lk rl sc og v r) : ∃ shadow, Denotes lk rl shadow r := by
  cases counts with
  | plain denotes _ _ => exact ⟨_, denotes⟩
  | successor _ denotes => exact ⟨_, denotes⟩
  | number _ denotes _ => exact ⟨_, denotes⟩
  | spoilt _ denotes _ => exact ⟨_, denotes⟩

theorem of_closure {mn : Name → Nameless} (form : v.form = .closure p b env)
    (gives : Gives lk rl env mn) : Counts lk rl sc og v (.lam (b.nameless mn [p])) :=
  .plain (.closure form gives) (by simp [Nameless.head]) (by simp [Nameless.head])

/-- A variable other than those of the counter makes no number, and neither does
an abstraction. -/
theorem plain_not_iterates (wlk : lk.Linked) (sound : Sound lk rl s) (ctr : Counter lk rl sc og)
    (denotes : Denotes lk rl v r) (notSuccessor : r.head ≠ .free sc)
    (notOrigin : r.head ≠ .free og) : ¬ Iterates lk.definitions sc og cnt r := by
  intro iterates
  cases denotes with
  | closure form gives => exact iterates.not_lam
  | neutral form opened given =>
    rw [Nameless.head_apply] at notSuccessor notOrigin
    rcases iterates.of_variable ctr.undefinedSuccessor ctr.undefinedOrigin
      (sound.undefined wlk opened) with ⟨_, rfl, _⟩ | ⟨_, _, _, rfl, _⟩
    · exact notOrigin rfl
    · exact notSuccessor rfl

/-- The value of a term that makes a number is the number. -/
theorem number_iff (wlk : lk.Linked) (sound : Sound lk rl s) (ctr : Counter lk rl sc og)
    (counts : Counts lk rl sc og v r) :
    v.form = .constant (.int cnt) ↔ Iterates lk.definitions sc og cnt r := by
  constructor
  · intro same
    cases counts with
    | plain denotes _ _ => cases denotes <;> simp_all
    | successor form _ => simp [same] at form
    | number form _ iterates => simp_all
    | spoilt form _ _ => simp [same] at form
  · intro iterates
    cases counts with
    | plain denotes notSuccessor notOrigin => grind [plain_not_iterates]
    | successor _ _ =>
      have unapplied : Iterates lk.definitions sc og cnt ((Nameless.free sc).apply []) := iterates
      rcases unapplied.of_variable ctr.undefinedSuccessor ctr.undefinedOrigin
        ctr.undefinedSuccessor with ⟨_, same, _⟩ | ⟨_, _, _, _, impossible, _⟩
      · exact absurd same ctr.apart
      · cases impossible
    | number form _ known =>
      rw [form, known.unique ctr.undefinedSuccessor ctr.undefinedOrigin ctr.apart iterates]
    | @spoilt _ arg _ _ uncounted =>
      have applied : Iterates lk.definitions sc og cnt ((Nameless.free sc).apply [arg]) := iterates
      rcases applied.of_variable ctr.undefinedSuccessor ctr.undefinedOrigin
        ctr.undefinedSuccessor with ⟨_, _, impossible⟩ | ⟨less, _, _, _, same, inn⟩
      · cases impossible
      simp_all

theorem integer_natural (counts : Counts lk rl sc og v r) (integer : v.integer? = some dt) :
    ∃ cnt : Nat, dt = .int cnt ∧ v.form = .constant (.int cnt) := by
  unfold Value.integer? at integer
  cases counts with
  | plain denotes _ _ => cases denotes <;> simp_all
  | successor form _ => simp [form] at integer
  | @number cnt _ _ form _ _ => grind
  | spoilt form _ _ => simp [form, Datum.int?] at integer

/-- The only primitive of a count is the successor. -/
theorem of_primitive (counts : Counts lk rl sc og v r) (prim : v.form = .primitive x) :
    x = successorName ∧ r = .free sc := by
  cases counts with
  | plain denotes _ _ => cases denotes <;> simp_all
  | number form _ _ | spoilt form _ _ => simp [prim] at form
  | successor form _ =>
    cases prim.symm.trans form
    exact ⟨rfl, rfl⟩

/-- The host's successor of a value stands for the successor of its term. -/
theorem increment (wlk : lk.Linked) (sound : Sound lk rl s) (ctr : Counter lk rl sc og)
    (means : rl.meaning? a = some mn) (reaches : HeadSteps lk.definitions sts mn r)
    (counts : Counts lk rl sc og v r) : Counts lk rl sc og (increment v) (.app (.free sc) mn) := by
  obtain ⟨x, opened⟩ := ctr.opened
  have denotes : Denotes lk rl ⟨.neutral x [some a], 0⟩ ((Nameless.free sc).apply [mn]) :=
    .neutral rfl opened (.cons means .nil)
  by_cases counted : ∃ cnt, Iterates lk.definitions sc og cnt r
  · obtain ⟨cnt, iterates⟩ := counted
    have form := (counts.number_iff wlk sound ctr).mpr iterates
    refine .number ?_ denotes (.succ (.refl _) (iterates.head reaches))
    simp [CallByNeed.increment, form, Datum.int?, Value.given]
  · refine .spoilt ?_ denotes fun cnt iterates => counted ⟨cnt,
      iterates.steps ctr.undefinedSuccessor ctr.undefinedOrigin reaches⟩
    cases counts with
    | plain denotes _ _ => cases denotes <;> simp_all [CallByNeed.increment, Value.given]
    | successor form _ => simp [CallByNeed.increment, form, Value.given]
    | number form _ iterates => exact absurd ⟨_, iterates⟩ counted
    | spoilt form _ _ => simp [CallByNeed.increment, form, Datum.int?, Value.given]

end Counts

/-! ### Stores -/

theorem Conforms.grow {shadow : Thunk} (agrees : Conforms lk rl sc og mn th shadow)
    (grow : rl.Grow size o) : Conforms lk o sc og mn th shadow := by
  cases agrees with
  | code notForced phase ct => exact .code notForced phase ct
  | value forced reaches counts => exact .value forced reaches (counts.grow grow)

namespace Shadowed

variable {s shadow : Store}

section

variable (shadowed : Shadowed lk rl sc og s shadow)

include shadowed

theorem find (x : Name) (env : Env) : s.find x env = shadow.find x env :=
  Store.find_congr shadowed.tables x env

variable {th : Thunk}

/-- A thunk that is not evaluated is followed by one with the same term. -/
theorem unforced (means : rl.meaning? a = some mn) (held : s.thunk? a = some th)
    (unforced : th.phase = .unforced) :
    ∃ follows control, shadow.thunk? a = some follows ∧ follows.phase = .unforced ∧
      follows.code? = some control ∧ th.code? = some control := by
  obtain ⟨role, given, _⟩ := Option.map_eq_some_iff.mp means
  obtain ⟨found, follows, there, followed, agrees⟩ := shadowed.agrees given
  cases held.symm.trans there
  cases agrees with
  | code _ phase ct =>
    obtain ⟨again, same, holds⟩ := shadowed.sound.holds given
    cases followed.symm.trans same
    obtain ⟨t, env, _, code, _⟩ := holds.code (phase.trans unforced)
    grind [Thunk.code?]
  | value forced _ _ => simp [unforced] at forced

theorem forced (means : rl.meaning? a = some mn) (held : s.thunk? a = some th)
    (forced : th.phase = .forced) :
    ∃ sts r, HeadSteps lk.definitions sts mn r ∧ Counts lk rl sc og th.value r := by
  obtain ⟨role, given, rfl⟩ := Option.map_eq_some_iff.mp means
  obtain ⟨found, follows, there, followed, agrees⟩ := shadowed.agrees given
  cases held.symm.trans there
  cases agrees with
  | code notForced _ _ => exact absurd forced notForced
  | value _ reaches counts => exact ⟨_, _, reaches, counts⟩

theorem present (means : rl.meaning? a = some mn) : ∃ th, s.thunk? a = some th := by
  obtain ⟨role, given, _⟩ := Option.map_eq_some_iff.mp means
  obtain ⟨th, _, held, _⟩ := shadowed.agrees given
  exact ⟨th, held⟩

theorem regrow (grow : rl.Grow size o) (full : shadow.size ≤ size) (sound : Sound lk o shadow) :
    Shadowed lk o sc og s shadow := by
  refine ⟨sound, shadowed.size, shadowed.tables, fun {a role} given => ?_⟩
  have old : rl a = some role := by
    rcases grow.adds given with old | new
    · exact old
    · exact absurd (sound.lt given) (Nat.not_lt.mpr (Nat.le_trans full new))
  obtain ⟨th, follows, held, followed, agrees⟩ := shadowed.agrees old
  exact ⟨th, follows, held, followed, agrees.grow grow⟩

theorem build (form : Form) : Shadowed lk rl sc og (s.build form).2 shadow :=
  ⟨shadowed.sound, by simpa using shadowed.size, shadowed.tables, shadowed.agrees⟩

theorem begin (means : rl.meaning? a = some mn) (held : s.thunk? a = some th)
    (unforced : th.phase = .unforced) :
    Shadowed lk rl sc og (s.update a Thunk.begin) (shadow.update a Thunk.begin) := by
  obtain ⟨follows, _, followed, still, _⟩ := shadowed.unforced means held unforced
  refine ⟨shadowed.sound.begin followed still, by simpa using shadowed.size, shadowed.tables,
    fun {pl role} given => ?_⟩
  obtain ⟨found, beside, there, besides, agrees⟩ := shadowed.agrees given
  by_cases same : a = pl
  · subst same
    cases held.symm.trans there
    refine ⟨th.begin, beside.begin, by simp [there], by simp [besides], ?_⟩
    cases agrees with
    | code _ _ ct => exact .code (by simp) rfl ct
    | value forced _ _ => simp [unforced] at forced
  simp_all

theorem memoize (means : rl.meaning? a = some mn) {r : Nameless}
    (reaches : HeadSteps lk.definitions sts mn r) (counts : Counts lk rl sc og v r) :
    ∃ aft, Shadowed lk rl sc og (s.update a (·.memoize v)) aft := by
  obtain ⟨known, given, rfl⟩ := Option.map_eq_some_iff.mp means
  obtain ⟨follows, denotes⟩ := counts.shadow
  refine ⟨shadow.update a (·.memoize follows), shadowed.sound.memoize ?_,
    by simpa using shadowed.size, shadowed.tables, fun {pl role} held => ?_⟩
  · grind
  · obtain ⟨found, beside, there, besides, agrees⟩ := shadowed.agrees held
    by_cases same : a = pl
    · subst same
      cases given.symm.trans held
      exact ⟨found.memoize v, beside.memoize follows, by simp [there], by simp [besides],
        .value rfl reaches counts⟩
    simp_all

theorem delay_fst (arg : Term) (env : Env) : (s.delay arg env).1 = (shadow.delay arg env).1 := by
  cases arg with
  | var x =>
    simp only [Store.delay, shadowed.find x env]
    cases shadow.find x env with
    | none => exact shadowed.size
    | some a => rfl
  | lam p b => exact shadowed.size
  | app f arg => exact shadowed.size

theorem delay_new {arg : Term} (new : shadow.size ≤ a) {follows : Thunk}
    (followed : (shadow.delay arg env).2.thunk? a = some follows) :
    ∃ th, (s.delay arg env).2.thunk? a = some th ∧
      ((th = .suspended arg env none ∧ follows = th) ∨
        ∃ v shade p b, th = .evaluated v none ∧
          follows = .evaluated shade none ∧ v.form = .closure p b env ∧ v.form = shade.form) := by
  have fresh : ∀ {th}, shadow.thunk? a ≠ some th := by
    intro th held
    exact absurd (Store.thunk?_lt held) (Nat.not_lt.mpr new)
  rcases shadow.delay_cases arg env with ⟨_, _, _, _, delayed⟩ |
    ⟨unbound, notLam, delayed⟩ | ⟨p, b, rfl, delayed⟩
  · simp_all
  · rw [delayed, Store.thunk?_alloc] at followed
    split at followed
    · next same =>
        subst same
        cases followed
        rcases s.delay_cases arg env with ⟨x, _, rfl, bound, _⟩ |
          ⟨_, _, delayedStore⟩ | ⟨p, b, rfl, _⟩
        · rw [shadowed.find, unbound x rfl] at bound
          cases bound
        · exact ⟨_, by rw [delayedStore]; simp [shadowed.size], .inl ⟨rfl, rfl⟩⟩
        · simp_all
    simp_all
  · rw [delayed, Store.thunk?_alloc] at followed
    split at followed
    · next same =>
        cases followed
        refine ⟨.evaluated (s.build (.closure p b env)).1 none, ?_,
          .inr ⟨_, _, p, b, rfl, rfl, rfl, rfl⟩⟩
        simp only [Store.size_build] at same
        simp [Store.delay, same, shadowed.size]
    simp_all

theorem delay {arg : Term} (grow : rl.Grow shadow.size o)
    (sound : Sound lk o (shadow.delay arg env).2) :
    Shadowed lk o sc og (s.delay arg env).2 (shadow.delay arg env).2 := by
  refine ⟨sound, ?_, by simpa using shadowed.tables, fun {a role} given => ?_⟩
  · cases arg with
    | var x =>
      simp only [Store.delay, shadowed.find x env]
      cases shadow.find x env with
      | none => simpa using shadowed.size
      | some a => exact shadowed.size
    | lam p b => simpa [Store.delay] using shadowed.size
    | app f arg => simpa [Store.delay] using shadowed.size
  · rcases grow.adds given with old | new
    · obtain ⟨th, follows, held, followed, agrees⟩ := shadowed.agrees old
      exact ⟨th, follows, Store.thunk?_delay held _ _, Store.thunk?_delay followed _ _,
        agrees.grow grow⟩
    · obtain ⟨follows, followed, holds⟩ := sound.holds given
      obtain ⟨th, held, ⟨rfl, rfl⟩ | ⟨v, shade, p, b, rfl, rfl, form, same⟩⟩ :=
        shadowed.delay_new new followed
      · exact ⟨_, _, held, followed, .code (by simp [Thunk.suspended]) rfl rfl⟩
      · obtain ⟨sts, r, reaches, denotes⟩ := holds.value rfl
        have own : Denotes lk o v r := denotes.of_form same
        refine ⟨_, _, held, followed, .value rfl reaches ?_⟩
        cases own with
        | closure known gives => exact .of_closure known gives
        | neutral known _ _ => simp [form] at known

end

end Shadowed

/-! ### Transitions -/

namespace Waits

variable {base k : List Frame} {least : Nat} {t total : Nameless}

theorem length_le (waits : Waits lk rl base least t k total) : base.length ≤ k.length := by
  induction waits with
  | base => exact Nat.le_refl _
  | argument _ _ ih => exact Nat.le_succ_of_le ih
  | update _ _ _ _ ih => exact Nat.le_succ_of_le ih

theorem at_base (waits : Waits lk rl base least t base total) : t = total := by
  generalize above : base = k at waits
  cases waits with
  | base => rfl
  | argument _ rest | update _ _ _ rest =>
    have shorter := rest.length_le
    simp_all

/-- A thunk that is to be updated stands for a term that was reduced to the one
in front, applied to the first of the arguments that wait. -/
theorem updated_front (waits : Waits lk rl base least t k total) (mem : .update a ∈ k)
    (ots : .update a ∉ base) :
    ∃ st0 cnt fr bk, rl.meaning? a = some st0 ∧
      HeadSteps lk.definitions cnt st0 (t.apply fr) ∧ total = t.apply (fr ++ bk) := by
  induction waits with
  | base => exact absurd mem ots
  | @argument _ _ _ given _ _ _ _ ih =>
    rcases List.mem_cons.mp mem with impossible | later
    · cases impossible
    · obtain ⟨st0, cnt, fr, bk, means, sts, rfl⟩ := ih later
      exact ⟨st0, cnt, given :: fr, bk, means, sts, rfl⟩
  | @update _ cnt _ _ st0 _ _ means sts _ rest ih =>
    rcases List.mem_cons.mp mem with same | later
    · cases same
      obtain ⟨args, rfl⟩ := rest.applied
      exact ⟨st0, cnt, [], args, means, sts, rfl⟩
    · exact ih later

end Waits

/-- Where one transition of a count leads: on above the same base, or to the
argument of a successor, which is counted above the frame of its call. -/
inductive Counting.Next (lk : Store) (rl : Roles) (sc og : Address)
    (base : List Frame) (bef aft : Configuration) (wt : Nat) (total : Nameless) :
    Prop where
  | goes {o shadow sts r lighter} (grow : rl.Grow 0 o)
      (shadowed : Shadowed lk o sc og aft.store shadow)
      (reaches : HeadSteps lk.definitions sts total r)
      (counting : Counting lk o sc og base aft lighter r)
      (progress : 0 < sts ∨ lighter < wt)
  | calls {a mn k shadow sts inn own} (means : rl.meaning? a = some mn)
      (waits : Waits lk rl base 0 (.app (.free sc) mn) k total)
      (lighter : k.length < wt)
      (shadowed : Shadowed lk rl sc og aft.store shadow)
      (reaches : HeadSteps lk.definitions sts mn inn)
      (counting : Counting lk rl sc og (.call successorName :: k) aft own inn)

variable {v : Value} {k : List Frame} {s : Store} {r : Nameless}

namespace Counting

variable {base : List Frame} {bef aft : Configuration} {wt : Nat} {total : Nameless}
  {host : Host} {shadow : Store}

/-- A term in focus is evaluated as if there were variables. -/
theorem move_term {control : Term × Env} (shadowed : Shadowed lk rl sc og s shadow)
    (means : Means lk rl base ⟨some control, v, k, s⟩ wt total)
    (move : Move host ⟨some control, v, k, s⟩ aft) :
    Next lk rl sc og base ⟨some control, v, k, s⟩ aft wt total := by
  have stands : Means lk rl base ⟨some control, v, k, shadow⟩ wt total := means
  obtain ⟨least, own, t, fr, waits, rfl⟩ := means
  cases move with
  | @reuse x env _ _ _ a th found held forced =>
    cases fr with
    | @term _ _ _ mn gives =>
      rw [shadowed.find, shadowed.sound.find] at found
      obtain ⟨sts, r, reaches, counts⟩ := shadowed.forced (gives.found found) held forced
      rw [Term.nameless_var] at waits
      obtain ⟨reduced, further, rest⟩ := waits.advance reaches
      refine .goes (.refl _ _) shadowed further
        (.value counts (rest.weaken (Nat.zero_le _))) (.inr ?_)
      simp only
      omega
  | @enter x env _ _ _ a th found held unforced =>
    cases fr with
    | @term _ _ _ mn gives =>
      rw [shadowed.find] at found
      have bound := found
      rw [shadowed.sound.find] at bound
      have known := gives.found bound
      obtain ⟨follows, control, followed, still, coded, code⟩ :=
        shadowed.unforced known held unforced
      have follow : Move host ⟨some (.var x, env), v, k, shadow⟩ _ := .enter found followed still
      obtain ⟨o, sts, r, lighter, grow, sound, reaches, further, progress⟩ :=
        stands.move shadowed.sound (by simp) follow
      have begun := (shadowed.begin known held unforced).regrow grow (by simp) sound
      rw [coded] at further
      rw [code]
      exact .goes grow.weaken begun reaches (.term further) progress
  | @close p b env =>
    cases fr with
    | term gives =>
      refine .goes (.refl _ _) (shadowed.build (.closure p b env)) (.refl total)
        (.value (.of_closure rfl gives) (waits.weaken (Nat.zero_le _))) (.inr ?_)
      simp only
      omega
  | @postpone f arg env =>
    have follow : Move host ⟨some (.app f arg, env), v, k, shadow⟩ _ := .postpone
    obtain ⟨o, sts, r, lighter, grow, sound, reaches, further, progress⟩ :=
      stands.move shadowed.sound (by simp) follow
    rw [← shadowed.delay_fst] at further
    exact .goes grow.weaken (shadowed.delay grow sound) reaches (.term further) progress

/-- A value is used as if there were variables, or a successor is called. -/
theorem move_value (shadowed : Shadowed lk rl sc og s shadow) (counts : Counts lk rl sc og v r)
    (waits : Waits lk rl base 0 r k total) (inside : k ≠ base)
    (move : Move host ⟨none, v, k, s⟩ aft) :
    Next lk rl sc og base ⟨none, v, k, s⟩ aft k.length total := by
  cases move with
  | @memoize _ a k _ =>
    cases waits with
    | base => exact absurd rfl inside
    | update means reaches _ rest =>
      obtain ⟨later, updated⟩ := shadowed.memoize means reaches counts
      exact .goes (.refl _ _) updated (.refl total) (.value counts rest) (.inr (by simp))
  | @bind _ arg k _ p b env closure =>
    cases counts with
    | plain denotes _ _ =>
      have stands : Means lk rl base
          ⟨none, v, .argument arg :: k, shadow⟩ _ total := ⟨_, _, _, .value denotes, waits, rfl⟩
      have follow : Move host ⟨none, v, .argument arg :: k, shadow⟩ _ := .bind closure
      obtain ⟨o, sts, r, lighter, grow, sound, reaches, further, progress⟩ :=
        stands.move shadowed.sound (fun _ => inside) follow
      exact .goes grow.weaken (shadowed.regrow grow (Nat.le_refl _) sound) reaches
        (.term further) (progress.imp_right fun less => by simpa using less)
    | successor form _ | number form _ _ | spoilt form _ _ => simp [closure] at form
  | @extend _ arg k _ x args neutral =>
    cases counts with
    | plain denotes notSuccessor notOrigin =>
      cases denotes with
      | closure form _ => simp [neutral] at form
      | @neutral _ _ a mns form opened given =>
        cases neutral.symm.trans form
        cases waits with
        | base => exact absurd rfl inside
        | @argument _ _ pl last _ _ means rest =>
          rw [Nameless.head_apply] at notSuccessor notOrigin
          have more : Denotes lk rl (s.build (.neutral x (args ++ [some pl]))).1
              ((Nameless.free a).apply (mns ++ [last])) :=
            .neutral rfl opened (List.rel_append given (.cons means .nil))
          have waits : Waits lk rl base 0 ((Nameless.free a).apply (mns ++ [last])) k total := by
            rw [Nameless.apply_append]
            exact rest
          have built := shadowed.build (.neutral x (args ++ [some pl]))
          exact .goes (.refl _ _) built (.refl total)
            (.value (.plain more (by rwa [Nameless.head_apply])
              (by rwa [Nameless.head_apply])) waits) (.inr (by simp))
    | successor form _ | number form _ _ | spoilt form _ _ => simp [neutral] at form
  | @supply _ a k _ x th prim held forced =>
    obtain ⟨rfl, rfl⟩ := counts.of_primitive prim
    cases waits with
    | base => exact absurd rfl inside
    | argument means rest =>
      obtain ⟨sts, inn, reaches, counted⟩ := shadowed.forced means held forced
      exact .calls means rest (by simp) shadowed reaches (.value counted .base)
  | @demand _ a k _ x th prim held unforced =>
    obtain ⟨rfl, rfl⟩ := counts.of_primitive prim
    cases waits with
    | base => exact absurd rfl inside
    | argument means rest =>
      obtain ⟨follows, control, followed, still, coded, code⟩ :=
        shadowed.unforced means held unforced
      obtain ⟨sts, inn, own, reaches, stands, _⟩ := Waits.enter shadowed.sound .base
        means followed still v (s.update a Thunk.begin)
      rw [coded] at stands
      rw [code]
      exact .calls means rest (by simp) (shadowed.begin means held unforced) reaches (.term stands)
  | call computed =>
    cases waits
    exact absurd rfl inside

theorem move (shadowed : Shadowed lk rl sc og bef.store shadow)
    (counting : Counting lk rl sc og base bef wt total)
    (inside : bef.focus = none → bef.stack ≠ base) (move : Move host bef aft) :
    Next lk rl sc og base bef aft wt total := by
  cases counting with
  | term means => exact move_term shadowed means move
  | value counts waits => exact move_value shadowed counts waits (inside rfl) move

theorem called (wlk : lk.Linked) (succeeds : host.Succeeds) (ctr : Counter lk rl sc og)
    (means : rl.meaning? a = some mn) (waits : Waits lk rl base 0 (.app (.free sc) mn) k total)
    (grow : rl.Grow 0 o) (reaches : HeadSteps lk.definitions sts mn r)
    (shadowed : Shadowed lk o sc og s shadow) (counts : Counts lk o sc og v r) :
    Move host ⟨none, v, .call successorName :: k, s⟩
        ⟨none, increment v, k, s⟩ ∧ Counting lk o sc og base ⟨none, increment v, k, s⟩
        k.length total :=
  ⟨.call (succeeds v), .value (counts.increment wlk shadowed.sound
    (ctr.grow grow) (grow.meaning? means) reaches) (waits.grow grow)⟩

theorem length_le (counting : Counting lk rl sc og base bef wt total) :
    base.length ≤ bef.stack.length := by
  cases counting with
  | term means =>
    obtain ⟨_, _, _, _, waits, _⟩ := means
    exact waits.length_le
  | value _ waits => exact waits.length_le

end Counting

/-! ### Runs -/

/-- A count has come to the value of a term, and to the base of its stack. -/
structure Counted (lk : Store) (rl : Roles) (sc og : Address)
    (base : List Frame) (c : Configuration) (r : Nameless) : Prop where
  noFocus : c.focus = none
  atBase : c.stack = base
  shadowed : ∃ shadow, Shadowed lk rl sc og c.store shadow
  counts : Counts lk rl sc og c.value r

namespace Counting

variable {base : List Frame} {st0 last : Configuration} {wt moved : Nat}
  {total : Nameless} {host : Host} {shadow : Store}

theorem counted (shadowed : Shadowed lk rl sc og st0.store shadow)
    (counting : Counting lk rl sc og base st0 wt total) (noFocus : st0.focus = none)
    (atBase : st0.stack = base) : Counted lk rl sc og base st0 total := by
  cases counting with
  | term means => cases noFocus
  | value counts waits =>
    cases atBase
    rw [waits.at_base] at counts
    exact ⟨rfl, rfl, ⟨shadow, shadowed⟩, counts⟩

/-- A count that ends has come to a value of its term before. -/
theorem arrives (wlk : lk.Linked) (succeeds : host.Succeeds) (ctr : Counter lk rl sc og)
    (shadowed : Shadowed lk rl sc og st0.store shadow)
    (counting : Counting lk rl sc og base st0 wt total) (moves : Moves host moved st0 last)
    (noFocus : last.focus = none) (noFrames : last.stack = []) :
    ∃ (l : Nat) (mid : Configuration) (o : Roles) (sts : Nat) (r : Nameless),
      l ≤ moved ∧ Moves host l mid last ∧ rl.Grow 0 o ∧ HeadSteps lk.definitions sts total r ∧
      Counted lk o sc og base mid r := by
  induction moved using Nat.strong_induction_on generalizing st0 rl shadow base wt total with
  | _ moved ih =>
    by_cases ended : st0.focus = none ∧ st0.stack = base
    · exact ⟨moved, st0, rl, 0, total, Nat.le_refl _, moves, .refl _ _, .refl _,
        counting.counted shadowed ended.1 ended.2⟩
    · have inside : st0.focus = none → st0.stack ≠ base := fun free same =>
        ended ⟨free, same⟩
      cases moves with
      | refl =>
        have short := counting.length_le
        simp_all
      | @step less _ next _ move rest =>
        cases counting.move shadowed inside move with
        | goes grow shadowed reaches counting _ =>
          obtain ⟨l, mid, o, sts, r, few, later, further, more, counted⟩ :=
            ih less (Nat.lt_succ_self _) (ctr.grow grow) shadowed counting rest
          exact ⟨l, mid, o, _, r, by omega, later, grow.trans further, reaches.trans more, counted⟩
        | @calls a mn k _ _ inn _ means waits _ shadowed reaches counting =>
          obtain ⟨l, ⟨_, v, _, s⟩, between, sts, r, few, later, grow, more,
              ⟨rfl, rfl, ⟨mid, shadowed⟩, counts⟩⟩ :=
            ih less (Nat.lt_succ_self _) ctr shadowed counting rest
          obtain ⟨call, counting⟩ := called wlk succeeds ctr means waits grow
            (reaches.trans more) shadowed counts
          have resumed : Shadowed lk between sc og
              (Configuration.mk none (increment v) k s).store mid := shadowed
          -- the frame of the call is left, so that the count has not ended
          cases later with
          | refl => cases noFrames
          | @step fewer _ _ _ again rest =>
            cases call.determines again
            obtain ⟨l, mid, o, sts, r, fewest, later, further, counted⟩ :=
              ih fewer (by omega) (ctr.grow grow) resumed counting rest
            exact ⟨l, mid, o, sts, r, by omega, later, grow.trans further, counted⟩

/-- The thunks that a stack is to update stand for larger numbers. -/
def Outer (lk : Store) (rl : Roles) (sc og : Address) (cnt : Nat) (k : List Frame) : Prop :=
  ∀ a, .update a ∈ k → ∃ mn more,
    rl.meaning? a = some mn ∧ cnt < more ∧ Iterates lk.definitions sc og more mn

theorem Outer.grow (out : Outer lk rl sc og cnt k) (grow : rl.Grow size o) :
    Outer lk o sc og cnt k := by
  intro a mem
  obtain ⟨mn, more, means, less, iterates⟩ := out a mem
  exact ⟨mn, more, grow.meaning? means, less, iterates⟩

/-- The argument of a successor stands for a smaller number than all thunks that
are to be updated. -/
theorem Outer.argument (ctr : Counter lk rl sc og)
    (waits : Waits lk rl base least (.app (.free sc) mn) k total)
    (iterates : Iterates lk.definitions sc og cnt total) (out : Outer lk rl sc og cnt base) :
    ∃ less, cnt = less + 1 ∧ Iterates lk.definitions sc og less mn ∧ Outer lk rl sc og less k := by
  obtain ⟨args, rfl⟩ := waits.applied
  have applied : Iterates lk.definitions sc og cnt
    ((Nameless.free sc).apply (mn :: args)) := iterates
  rcases applied.of_variable ctr.undefinedSuccessor ctr.undefinedOrigin
    ctr.undefinedSuccessor with ⟨_, _, impossible⟩ | ⟨less, _, rfl, _, same, inn⟩
  · cases impossible
  · cases same
    refine ⟨less, rfl, inn, fun a mem => ?_⟩
    by_cases below : .update a ∈ base
    · obtain ⟨st0, more, means, larger, o⟩ := out a below
      grind
    · obtain ⟨st0, sts, fr, bk, means, reaches, whole⟩ := waits.updated_front mem below
      have larger := (Nameless.app (.free sc) mn).size_apply (fr ++ bk)
      rw [← whole, Nameless.apply_nil, List.length_append] at larger
      have none : fr = [] := List.length_eq_zero_iff.mp (by omega)
      subst none
      exact ⟨st0, less + 1, means, Nat.lt_succ_self _, iterates.head reaches⟩

section Failing

variable {er : Raised} (ctr : Counter lk rl sc og)
  (shadowed : Shadowed lk rl sc og s shadow)
  (iterates : Iterates lk.definitions sc og cnt total) (out : Outer lk rl sc og cnt base)

include ctr shadowed iterates out

theorem not_raise_term {control : Term × Env}
    (means : Means lk rl base ⟨some control, v, k, s⟩ wt total)
    (marked : Configuration.Marked ⟨some control, v, k, s⟩) :
    ¬ Raise host ⟨some control, v, k, s⟩ er := by
  intro raise
  obtain ⟨least, own, t, fr, waits, _⟩ := means
  obtain ⟨args, same⟩ := waits.applied
  cases raise with
  | @unbound x env _ _ _ lost =>
    cases fr with
    | term gives =>
      rw [shadowed.find, shadowed.sound.find] at lost
      refine iterates.head_ne_missing ctr.undefinedSuccessor ctr.undefinedOrigin (.refl total) x ?_
      rw [same, Nameless.head_apply, Term.nameless_var, gives.lost lost]
      rfl
  | dangling found empty =>
    cases fr with
    | term gives =>
      rw [shadowed.find, shadowed.sound.find] at found
      obtain ⟨th, held⟩ := shadowed.present (gives.found found)
      simp [empty] at held
  | @cyclic x env _ _ _ a th found held forcing =>
    cases fr with
    | term gives =>
      have there : .update a ∈ k :=
        mem_updates.mp (marked.forcing_iff.mp (by simp [Store.phase?, held, forcing]))
      rw [shadowed.find, shadowed.sound.find] at found
      have bound : lk.isBound env (.var x) = true := by simp [Store.isBound, found]
      rw [Term.nameless_var] at same
      by_cases below : .update a ∈ base
      · -- a larger number would need this one, which is its own
        obtain ⟨mn, more, means, larger, known⟩ := out a below
        cases (gives.found found).symm.trans means
        obtain ⟨_, equal⟩ := known.of_apply ctr.undefinedSuccessor
          ctr.undefinedOrigin ctr.apart (same ▸ iterates)
        omega
      · rw [Term.nameless_var, bound] at waits
        obtain ⟨sts, ending, reaches, ends⟩ :=
          iterates.ends ctr.undefinedSuccessor ctr.undefinedOrigin
        exact (waits.diverges there below (gives.found found)).not_final reaches ends

theorem not_raise_value (counts : Counts lk rl sc og v r) (waits : Waits lk rl base 0 r k total)
    (inside : k ≠ base) (marked : Configuration.Marked ⟨none, v, k, s⟩) :
    ¬ Raise host ⟨none, v, k, s⟩ er := by
  intro raise
  cases raise with
  | @refused _ arg k _ refuses =>
    cases waits with
    | base => exact inside rfl
    | @argument _ _ a given _ _ means rest =>
      obtain ⟨args, rfl⟩ := rest.applied
      cases counts with
      | plain denotes _ _ => cases denotes <;> simp_all [Form.isApplicable]
      | successor form _ => simp [form, Form.isApplicable] at refuses
      | number _ _ known =>
        have applied : Iterates lk.definitions sc og cnt (r.apply (given :: args)) := iterates
        cases (known.of_apply ctr.undefinedSuccessor ctr.undefinedOrigin ctr.apart applied).1
      | @spoilt _ inn _ _ _ =>
        have applied : Iterates lk.definitions sc og cnt
          ((Nameless.free sc).apply (inn :: given :: args)) := iterates
        rcases applied.of_variable ctr.undefinedSuccessor ctr.undefinedOrigin
          ctr.undefinedSuccessor with ⟨_, _, impossible⟩ | ⟨_, _, _, _, impossible, _⟩
        · cases impossible
        · cases impossible
  | unsupplied prim empty =>
    cases waits with
    | base => exact inside rfl
    | argument means rest =>
      obtain ⟨th, held⟩ := shadowed.present means
      simp [held] at empty
  | @cyclicArgument _ a k _ x th prim held forcing =>
    obtain ⟨rfl, rfl⟩ := counts.of_primitive prim
    cases waits with
    | base => exact inside rfl
    | argument means rest =>
      have there : .update a ∈ Frame.argument (some a) :: k :=
        mem_updates.mp (marked.forcing_iff.mp (by simp [Store.phase?, held, forcing]))
      obtain ⟨less, rfl, inn, larger⟩ := Outer.argument ctr rest iterates out
      obtain ⟨mn, more, again, above, known⟩ := larger a (by simpa using there)
      cases means.symm.trans again
      have equal := inn.unique ctr.undefinedSuccessor ctr.undefinedOrigin ctr.apart known
      omega
  | host failed =>
    cases waits
    exact inside rfl

end Failing

/-- The count of a term that makes a number does not fail. -/
theorem moves_on (ctr : Counter lk rl sc og) (shadowed : Shadowed lk rl sc og st0.store shadow)
    (counting : Counting lk rl sc og base st0 wt total)
    (iterates : Iterates lk.definitions sc og cnt total) (out : Outer lk rl sc og cnt base)
    (marked : st0.Marked) (inside : st0.focus = none → st0.stack ≠ base) :
    ∃ next, Move host st0 next := by
  by_contra halted
  push Not at halted
  rcases Configuration.halted halted with ⟨noFocus, noFrames⟩ | ⟨er, raise⟩
  · have short := counting.length_le
    simp_all
  · cases counting with
    | term means => exact not_raise_term ctr shadowed iterates out means marked raise
    | value counts waits =>
      exact not_raise_value ctr shadowed iterates out counts waits (inside rfl) marked raise

/-- The count of a term that makes a number comes to a value of the term. -/
theorem completes (wlk : lk.Linked) (succeeds : host.Succeeds) (ctr : Counter lk rl sc og)
    (shadowed : Shadowed lk rl sc og st0.store shadow)
    (counting : Counting lk rl sc og base st0 wt total)
    (iterates : Iterates lk.definitions sc og cnt total) (out : Outer lk rl sc og cnt base)
    (marked : st0.Marked) :
    ∃ (moved : Nat) (last : Configuration) (o : Roles) (sts : Nat) (r : Nameless),
      Moves host moved st0 last ∧ rl.Grow 0 o ∧ HeadSteps lk.definitions sts total r ∧
      Counted lk o sc og base last r := by
  -- The arguments of successors make smaller numbers.  Of one term, the reduction comes to
  -- an end, and between its steps the weight falls.
  induction cnt using Nat.strong_induction_on generalizing st0 rl shadow base wt total with
  | _ cnt smaller =>
    obtain ⟨length, ending, reaches, ends⟩ :=
      iterates.ends ctr.undefinedSuccessor ctr.undefinedOrigin
    induction length using Nat.strong_induction_on generalizing st0 rl shadow wt total with
    | _ length shorter =>
      induction wt using Nat.strong_induction_on generalizing st0 rl shadow total with
      | _ wt lighter =>
        by_cases ended : st0.focus = none ∧ st0.stack = base
        · exact ⟨0, st0, rl, 0, total, .refl _, .refl _ _, .refl _,
            counting.counted shadowed ended.1 ended.2⟩
        have inside : st0.focus = none → st0.stack ≠ base := fun free same =>
          ended ⟨free, same⟩
        obtain ⟨next, move⟩ : ∃ next, Move host st0 next :=
          counting.moves_on ctr shadowed iterates out marked inside
        cases counting.move shadowed inside move with
        | @goes o _ taken r less grow shadowed further counting progress =>
          obtain ⟨atMost, rest⟩ := reaches.final further ends
          have reduced := iterates.steps ctr.undefinedSuccessor ctr.undefinedOrigin further
          have later : ∃ (moved : Nat) (last : Configuration) (fi : Roles) (sts : Nat)
              (ended : Nameless), Moves host moved next last ∧ o.Grow 0 fi ∧
              HeadSteps lk.definitions sts r ended ∧
              Counted lk fi sc og base last ended := by
            rcases Nat.eq_zero_or_pos taken with none | some
            · subst none
              exact lighter less (by omega) (ctr.grow grow) shadowed counting reduced
                (out.grow grow) (marked.move move) rest
            · exact shorter (length - taken) (by omega) (ctr.grow grow) shadowed counting
                reduced (out.grow grow) (marked.move move) rest
          obtain ⟨moved, last, fi, sts, v, moves, more, onwards, counted⟩ := later
          exact ⟨moved + 1, last, fi, _, v, .step move moves, grow.trans more,
            further.trans onwards, counted⟩
        | @calls a mn k _ _ inn _ means waits light shadowed further counting =>
          obtain ⟨fewer, rfl, num, larger⟩ := Outer.argument ctr waits iterates out
          have above : Outer lk rl sc og fewer
              (.call successorName :: k) := fun a mem => larger a (by simpa using mem)
          obtain ⟨early, ⟨_, v, _, s⟩, between, sts, r, moves, grow, more,
              ⟨rfl, rfl, ⟨mid, shadowed⟩, counts⟩⟩ :=
            smaller fewer (Nat.lt_succ_self _) ctr shadowed counting
              (num.steps ctr.undefinedSuccessor ctr.undefinedOrigin further) above
              (marked.move move)
          obtain ⟨call, counting⟩ := called wlk succeeds ctr means waits grow
            (further.trans more) shadowed counts
          have resumed : Shadowed lk between sc og
              (Configuration.mk none (increment v) k s).store mid := shadowed
          have markedThen := (moves.preserves Configuration.Marked (marked.move move)
            fun _ _ marked move => marked.move move).move call
          obtain ⟨late, last, fi, taken, found, onwards, grown, rest, counted⟩ :=
            lighter k.length light (ctr.grow grow) resumed counting iterates
              (out.grow grow) markedThen reaches
          exact ⟨_, last, fi, taken, found,
            (Moves.step move moves).trans (.step call onwards), grow.trans grown, rest, counted⟩

end Counting

/-! ### Numbers -/

theorem Sound.head_lt (sound : Sound lk rl s) (denotes : Denotes lk rl v r)
    (head : r.head = .free a) : a < s.size := by
  cases denotes with
  | closure form gives => cases head
  | neutral form opened given =>
    rw [Nameless.head_apply] at head
    cases head
    exact sound.lt opened

/-- The roles of a count, with variables for the successor and for zero. -/
def Roles.withCounter (rl : Roles) (size : Nat) : Roles :=
  (rl.add size (.opened "s")).add (size + 1) (.opened "z")

section Start

variable (sound : Sound lk rl s)

include sound

theorem Sound.grow_withCounter : rl.Grow 0 (rl.withCounter s.size) := by
  have fst := Marks.grow_add sound.fresh (.opened "s")
  have snd := Marks.grow_add (sound.withVariable "s").fresh (.opened "z")
  simp only [Store.withVariable, Store.size_alloc, Store.size_build] at snd
  exact fst.trans snd

theorem Sound.counter (wlk : lk.Linked) :
    Counter lk (rl.withCounter s.size) s.size (s.size + 1) := by
  have undefined : ∀ {a}, s.size ≤ a → lk.definitions a = none := by
    intro a large
    rw [← Option.not_isSome_iff_eq_none, wlk.definitions_isSome]
    intro small
    exact absurd (sound.lt (sound.declared small)) (Nat.not_lt.mpr large)
  exact ⟨by simp, ⟨"s", by simp [Roles.withCounter, Marks.add]⟩, undefined (Nat.le_refl _),
    undefined (Nat.le_succ _)⟩

/-- A count starts with its successor and its zero in the place of variables. -/
theorem Sound.shadowed :
    Shadowed lk (rl.withCounter s.size) s.size (s.size + 1) s.withCounter
      ((s.withVariable "s").withVariable "z") := by
  have grow := sound.grow_withCounter
  have opened := (sound.withVariable "s").withVariable "z"
  simp only [Store.withVariable, Store.size_alloc, Store.size_build] at opened
  refine ⟨opened, by simp [Store.withCounter, Store.withVariable], rfl, fun {a role} given => ?_⟩
  rcases Nat.lt_trichotomy a s.size with old | rfl | new
  · have fst : a ≠ s.size := Nat.ne_of_lt old
    have snd : a ≠ s.size + 1 := Nat.ne_of_lt (Nat.lt_succ_of_lt old)
    have known : rl a = some role := by
      simpa [Roles.withCounter, Marks.add_of_ne, fst, snd] using given
    obtain ⟨th, held, holds⟩ := sound.holds known
    refine ⟨th, th, by simp [Store.withCounter, fst, snd, held],
      by simp [Store.withVariable, fst, snd, held], ?_⟩
    by_cases forced : th.phase = .forced
    · obtain ⟨sts, r, reaches, denotes⟩ := holds.value forced
      refine .value forced reaches (.plain (denotes.grow grow) ?_ ?_)
      · intro head
        exact absurd (sound.head_lt denotes head) (Nat.lt_irrefl _)
      · intro head
        exact absurd (sound.head_lt denotes head) (Nat.not_lt.mpr (Nat.le_succ _))
    · exact .code forced rfl rfl
  · have named : role = .opened "s" := by
      simpa [Roles.withCounter, Marks.add, eq_comm] using given
    subst named
    have denotes : Denotes lk (rl.withCounter s.size) ⟨.neutral "s" [], 0⟩
        ((Nameless.free s.size).apply []) := .neutral rfl given .nil
    exact ⟨_, _, by simp [Store.withCounter]; rfl, by simp [Store.withVariable]; rfl,
      .value rfl (.refl _) (.successor rfl denotes)⟩
  · have last : a = s.size + 1 := by
      have bound := opened.lt given
      grind [Store.size_alloc, Store.size_build]
    subst last
    have named : role = .opened "z" := by
      simpa [Roles.withCounter, eq_comm] using given
    subst named
    have denotes : Denotes lk (rl.withCounter s.size) ⟨.neutral "z" [], 0⟩
        ((Nameless.free (s.size + 1)).apply []) := .neutral rfl given .nil
    have form : (Thunk.evaluated (.given (.constant (.int 0))) none).value.form =
        .constant (.int (0 : Nat)) := rfl
    exact ⟨_, _, by simp [Store.withCounter], by simp [Store.withVariable]; rfl,
      .value rfl (.refl _) (.number form denotes (.zero (.refl _)))⟩

end Start

/-- A number comes from a count that returns it. -/
theorem number_inv {aft : Engine}
    (found : number cfg n v e = (.ok (some dt), aft)) :
    ∃ r, count cfg n v e = (.ok r, aft) ∧ r.integer? = some dt := by
  rcases number_cases cfg n found with
    ⟨r, counted, integer⟩ | ⟨_, _, _, ⟨⟩⟩ | ⟨_, _, ⟨⟩, _⟩
  exact ⟨r, counted, (Except.ok.inj integer).symm⟩

section Numbers

variable {cfg : Settings} {n : Nat} {e aft : Engine} (wlk : lk.Linked)
  (succeeds : cfg.host.Succeeds)

/-- A count starts with a value that is applied to two variables. -/
theorem Sound.counting (sound : Sound lk rl e.store) (denotes : Denotes lk rl v mn) :
    Counting lk (rl.withCounter e.store.size) e.store.size (e.store.size + 1) []
      ⟨none, v, [some e.store.size, some (e.store.size + 1)].map .argument,
        e.store.withCounter⟩ 2
      (.app (.app mn (.free e.store.size)) (.free (e.store.size + 1))) := by
  have grow := sound.grow_withCounter
  have fst : (rl.withCounter e.store.size).meaning? e.store.size = some (.free e.store.size) := by
    simp [Roles.meaning?, Roles.withCounter, Marks.add, Role.meaning]
  have snd : (rl.withCounter e.store.size).meaning? (e.store.size + 1) =
      some (.free (e.store.size + 1)) := by
    simp [Roles.meaning?, Roles.withCounter, Role.meaning]
  refine .value (.plain (denotes.grow grow) ?_ ?_) (.argument fst (.argument snd .base))
  · intro head
    exact absurd (sound.head_lt denotes head) (Nat.lt_irrefl _)
  · intro head
    exact absurd (sound.head_lt denotes head) (Nat.not_lt.mpr (Nat.le_succ _))

include wlk succeeds

/-- The number that is found is the one that the term makes. -/
theorem Sound.number_iterates (sound : Sound lk rl e.store) (denotes : Denotes lk rl v mn)
    (found : number cfg n v e = (.ok (some dt), aft)) :
    ∃ cnt : Nat, dt = .int cnt ∧
      Iterates lk.definitions e.store.size (e.store.size + 1) cnt
        (.app (.app mn (.free e.store.size)) (.free (e.store.size + 1))) := by
  obtain ⟨fi, counted, integer⟩ := number_inv found
  rw [count_eq, apply] at counted
  have ctr := sound.counter wlk
  obtain ⟨moved, last, moves, _, ending⟩ := run_spec cfg n 0
    ⟨none, v, [some e.store.size, some (e.store.size + 1)].map .argument,
      { e with store := e.store.withCounter }⟩
  rw [counted] at ending
  rcases ending with ⟨_, exh⟩ | ⟨_, _, ending⟩
  · cases exh
  · obtain ⟨_, noFocus, noFrames, rfl, _⟩ := ending.of_ok
    obtain ⟨l, mid, o, sts, r, _, rest, grow, reaches, arrived⟩ :=
      (sound.counting denotes).arrives wlk succeeds ctr sound.shadowed moves noFocus noFrames
    obtain ⟨rfl, _⟩ := rest.eq_of_halted fun _ move =>
      move.stack_ne_nil arrived.noFocus arrived.atBase
    obtain ⟨shadow, shadowed⟩ := arrived.shadowed
    obtain ⟨cnt, same, form⟩ := arrived.counts.integer_natural integer
    have iterates := (arrived.counts.number_iff wlk shadowed.sound (ctr.grow grow)).mp form
    exact ⟨cnt, same, iterates.head reaches⟩

/-- The number that a term makes is found. -/
theorem Resting.number_found (unb : ∀ sts, cfg.limit.exceeded sts = false)
    (resting : Resting lk rl e.store) (denotes : Denotes lk rl v mn)
    (iterates : Iterates lk.definitions e.store.size (e.store.size + 1) cnt
      (.app (.app mn (.free e.store.size)) (.free (e.store.size + 1)))) :
    ∃ n aft, number cfg n v e = (.ok (some (.int cnt)), aft) := by
  have ctr := resting.sound.counter wlk
  have settled : e.store.withCounter.Settled := by
    obtain ⟨settled, _⟩ := (kept_settles ⟨countingHost, none⟩).withCounter e.store
      resting.settled resting.writable
    exact settled
  let st0 : State := ⟨none, v, [some e.store.size, some (e.store.size + 1)].map .argument,
    { e with store := e.store.withCounter }⟩
  have noFrames : ∀ a, Frame.update a ∉ st0.configuration.stack := by
    simp [st0, State.configuration]
  have underway : Underway e.store.withCounter st0.configuration := .start settled noFrames
  obtain ⟨moved, last, o, sts, r, moves, grow, reaches, arrived⟩ :=
    (resting.sound.counting denotes).completes wlk succeeds ctr resting.sound.shadowed
      iterates (fun _ mem => by cases mem) underway.marked
  obtain ⟨shadow, shadowed⟩ := arrived.shadowed
  have form := (arrived.counts.number_iff wlk shadowed.sound (ctr.grow grow)).mpr
    (iterates.steps ctr.undefinedSuccessor ctr.undefinedOrigin reaches)
  have starts : st0.configuration = _ := rfl
  obtain ⟨fi, rfl, _, continues⟩ := run_of_moves moves starts (unb (0 + moved))
  have returned : CallByNeed.count cfg (1 + moved) v e = (.ok fi.value, fi.engine.countStep) := by
    rw [count_eq]
    exact (continues 1).trans (run_returned (unb _) arrived.noFocus arrived.atBase)
  have same : fi.value.integer? = some (.int cnt) := by
    have form : fi.value.form = .constant (.int cnt) := form
    simp [Value.integer?, form, Datum.int?]
  exact ⟨_, _, same ▸ number_of_ok cfg _ returned⟩

end Numbers

end CallByNeed
