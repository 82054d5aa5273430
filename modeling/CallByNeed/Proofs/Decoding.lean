import CallByNeed.Proofs.Clients
import CallByNeed.Proofs.Counting

/-!
# Numbers and what is read back

There are two ways to look at a value that may be a number.  `number` lets it
count with a strict successor of the host, and reading back applies it to
variables, whose arguments are evaluated only when they are read.  Both find the
same: a number is returned if and only if the value, applied to variables `s`
and `z`, is read back as `s (s (… z))` with that many applications.
-/

namespace CallByNeed

namespace Term

theorem apply_eq_var {o : Name} {args : List Term} (same : (var x).apply args = var o) :
    x = o ∧ args = [] := by
  cases args using List.reverseRecOn with
  | nil =>
    cases same
    exact ⟨rfl, rfl⟩
  | append_singleton fr last => simp [apply] at same

theorem apply_eq_app {o : Name} {arg : Term} {args : List Term}
    (same : (var x).apply args = app (var o) arg) : x = o ∧ args = [arg] := by
  cases args using List.reverseRecOn with
  | nil => cases same
  | append_singleton fr last =>
    simp only [apply, List.foldl_append, List.foldl_cons, List.foldl_nil, app.injEq] at same
    obtain ⟨rfl, rfl⟩ := apply_eq_var same.1
    simp_all

end Term

theorem Denotes.closed {lk : Store} (wlk : lk.Linked) (sound : Sound lk rl s) {mn : Nameless} (denotes : Denotes lk rl v mn) (within : mn.Within lk []) :
    mn.ClosedAt 0 := by
  cases denotes with
  | @closure p b _ _ form gives =>
    exact Term.closedAt_nameless (sound.gives_closed gives) [p] b
  | neutral form opened given =>
    rcases within _ (Nameless.occurs_apply.mpr (.inl rfl)) with ⟨_, mem⟩ | defined
    · cases mem
    · simp [sound.undefined wlk opened] at defined

section Reading

variable {lk : Store} {rl : Roles} {cfg : Settings} {e later : Engine}
  {v : Value} {mn : Nameless} {k : Nat} {s z : Name} {sc og : Address}
  (wlk : lk.Linked) (openedSuccessor : rl sc = some (.opened s))
  (openedOrigin : rl og = some (.opened z))

include wlk openedSuccessor openedOrigin

/-- A number is read back as the applications that it makes. -/
theorem Iterates.quotes (unb : ∀ sts, cfg.limit.exceeded sts = false)
    (resting : Resting lk rl e.store) (denotes : Denotes lk rl v mn)
    (iterates : Iterates lk.definitions sc og k mn) (us : List Name) :
    ∃ later, Quotes cfg e v us (Nat.repeat (Term.app (.var s)) k (.var z)) later := by
  induction k generalizing rl e v mn with
  | zero =>
    have noSuc := resting.sound.undefined wlk openedSuccessor
    have noOrg := resting.sound.undefined wlk openedOrigin
    cases denotes with
    | closure form gives => exact absurd iterates Iterates.not_lam
    | neutral form opened given =>
      rcases iterates.of_variable noSuc noOrg
        (resting.sound.undefined wlk opened) with ⟨_, rfl, rfl⟩ | ⟨_, _, impossible, _⟩
      · cases opened.symm.trans openedOrigin
        cases given
        exact ⟨_, .neutral form .nil⟩
      · cases impossible
  | succ k ih =>
    have noSuc := resting.sound.undefined wlk openedSuccessor
    have noOrg := resting.sound.undefined wlk openedOrigin
    cases denotes with
    | closure form gives => exact absurd iterates Iterates.not_lam
    | neutral form opened given =>
      rcases iterates.of_variable noSuc noOrg (resting.sound.undefined wlk opened) with
        ⟨impossible, _⟩ | ⟨less, inn, same, rfl, rfl, rest⟩
      · cases impossible
      · cases same
        cases opened.symm.trans openedSuccessor
        cases given with
        | cons means none =>
          cases none
          obtain ⟨a, rfl, means⟩ := Option.bind_eq_some_iff.mp means
          obtain ⟨sts, ending, reaches, ends⟩ := rest.ends noSuc noOrg
          have counted : Resting lk rl e.countStep.store := resting
          obtain ⟨n, arg, mid, o, forced, grow, rests, denotes⟩ :=
            counted.forces wlk unb means reaches ends (rest.head_ne_missing noSuc noOrg reaches)
          obtain ⟨later, read⟩ := ih (grow.keeps openedSuccessor)
            (grow.keeps openedOrigin) rests denotes (rest.steps noSuc noOrg reaches)
          exact ⟨_, .neutral form (.cons forced read .nil)⟩

/-- A variable of a term over two variables is known by its name. -/
theorem Nameless.Within.variable {st : Store} (sound : Sound lk rl st)
    (opened : rl a = some (.opened x))
    (within : ((Nameless.free a).apply mns).Within lk [(s, sc), (z, og)]) :
    (x = s ∧ a = sc) ∨ (x = z ∧ a = og) := by
  rcases within a (Nameless.occurs_apply.mpr (.inl rfl)) with ⟨o, mem⟩ | defined
  · grind
  · simp [sound.undefined wlk opened] at defined

/-- What is read back as applications of one variable to another makes a number. -/
theorem Quotes.iterates (apart : s ≠ z) (resting : Resting lk rl e.store)
    (denotes : Denotes lk rl v mn) (within : mn.Within lk [(s, sc), (z, og)])
    (read : Quotes cfg e v us (Nat.repeat (Term.app (.var s)) k (.var z)) later) :
    Iterates lk.definitions sc og k mn := by
  induction k generalizing rl e v mn later with
  | zero =>
    generalize whole : Nat.repeat (Term.app (.var s)) 0 (.var z) = t at read
    cases read with
    | closure => cases whole
    | constant form _ => cases denotes <;> simp_all
    | primitive form => cases denotes <;> simp_all
    | neutral form read =>
      obtain ⟨rfl, rfl⟩ := Term.apply_eq_var whole.symm
      cases read
      cases denotes with
      | closure o _ => simp [form] at o
      | neutral same opened given =>
        cases form.symm.trans same
        cases given
        rcases within.variable wlk openedSuccessor openedOrigin resting.sound opened
          with ⟨clash, _⟩ | ⟨_, rfl⟩
        · simp_all
        · exact .zero (.refl _)
  | succ k ih =>
    generalize whole : Nat.repeat (Term.app (.var s)) (k + 1) (.var z) = t at read
    cases read with
    | closure => cases whole
    | constant form _ => cases denotes <;> simp_all
    | primitive form => cases denotes <;> simp_all
    | neutral form read =>
      obtain ⟨rfl, rfl⟩ := Term.apply_eq_app whole.symm
      cases read with
      | cons forced fst none =>
        cases none
        cases denotes with
        | closure o _ => simp [form] at o
        | neutral same opened given =>
          cases form.symm.trans same
          cases given with
          | @cons _ inn _ _ means none =>
            cases none
            obtain ⟨a, rfl, means⟩ := Option.bind_eq_some_iff.mp means
            have counted : Resting lk rl e.countStep.store := resting
            obtain ⟨o, sts, r, grow, rests, reaches, denotes⟩ := counted.forced wlk means forced
            have inside : inn.Within lk [(_, sc), (z, og)] := fun a occurs => within a (.inr occurs)
            have rest := ih (grow.keeps openedSuccessor) (grow.keeps openedOrigin) rests
              denotes (inside.steps wlk reaches) fst
            rcases within.variable wlk openedSuccessor openedOrigin
              resting.sound opened with ⟨_, rfl⟩ | ⟨clash, _⟩
            · exact .succ (.refl _) (rest.head reaches)
            simp_all

end Reading

/-- A value, applied to thunks, returns a value that is read back as a term. -/
def Value.AppliedReads (cfg : Settings) (e : Engine) (v : Value)
    (args : List (Option Address)) (t : Term) : Prop :=
  ∃ (n enough : Nat) (r : Value) (mid aft : Engine),
    apply cfg n v args e = (.ok r, mid) ∧
    normalize cfg enough r mid = (.ok t, aft)

section Decoding

variable {lk : Store} {rl : Roles} {cfg : Settings} {e : Engine}
  {v : Value} {mn : Nameless} {s z : Name} {sc og : Address}

/-- A value makes a number of two variables if and only if it is read back so. -/
theorem Resting.appliedReads_iff (wlk : lk.Linked) (unb : ∀ sts, cfg.limit.exceeded sts = false)
    (resting : Resting lk rl e.store) (denotes : Denotes lk rl v mn) (within : mn.Within lk [])
    (openedSuccessor : rl sc = some (.opened s)) (openedOrigin : rl og = some (.opened z))
    (apart : s ≠ z) (k : Nat) :
    v.AppliedReads cfg e [some sc, some og] (Nat.repeat (Term.app (.var s)) k (.var z)) ↔
      Iterates lk.definitions sc og k (.app (.app mn (.free sc)) (.free og)) := by
  have given : List.Forall₂ (fun a mn => rl.meaning? a = some mn)
      [sc, og] [.free sc, .free og] := by
    simp [Roles.meaning?, openedSuccessor, openedOrigin, Role.meaning]
  have noSuc := resting.sound.undefined wlk openedSuccessor
  have noOrg := resting.sound.undefined wlk openedOrigin
  constructor
  · rintro ⟨n, enough, r, mid, aft, applied, normalized⟩
    obtain ⟨o, sts, reduced, grow, rests, reaches, reads⟩ := resting.applied denotes given applied
    have counted : Resting lk o mid.countStep.store := rests
    have inside : (mn.apply [.free sc, .free og]).Within lk [(s, sc), (z, og)] := by
      refine Nameless.Within.apply ?_ ?_
      · intro a occurs
        exact .inr ((within a occurs).resolve_left (by simp))
      · rintro arg mem
        simp only [List.mem_cons, List.not_mem_nil, or_false] at mem
        rcases mem with rfl | rfl
        · rintro a rfl
          simp
        · rintro a rfl
          simp
    exact (Quotes.iterates wlk (grow.keeps openedSuccessor) (grow.keeps openedOrigin)
      apart counted reads (inside.steps wlk reaches) (quotes_of_normalize normalized)).head reaches
  · intro iterates
    obtain ⟨sts, ending, reaches, ends⟩ := iterates.ends noSuc noOrg
    obtain ⟨n, r, mid, o, applied, grow, rests, reads⟩ :=
      resting.applies denotes given wlk unb reaches ends
        (iterates.head_ne_missing noSuc noOrg reaches)
    have counted : Resting lk o mid.countStep.store := rests
    obtain ⟨later, read⟩ := Iterates.quotes wlk (grow.keeps openedSuccessor)
      (grow.keeps openedOrigin) unb counted reads (iterates.steps noSuc noOrg reaches) []
    obtain ⟨enough, normalized⟩ := read.normalizes unb
    exact ⟨n, enough, r, mid, later, applied, normalized enough (Nat.le_refl _)⟩

section Number

variable (wlk : lk.Linked) (succeeds : cfg.host.Succeeds)
  (resting : Resting lk rl e.store) (denotes : Denotes lk rl v mn)
  (within : mn.Within lk []) (noSuc : lk.definitions sc = none)
  (noOrg : lk.definitions og = none) (apart : sc ≠ og)

include wlk succeeds resting denotes within

/-- What `number` returns is a number that the value makes of any two variables. -/
theorem Resting.number_natural {aft : Engine}
    (found : number cfg n v e = (.ok (some dt), aft)) (fst snd : Address) :
    ∃ k : Nat, dt = .int k ∧ Iterates lk.definitions fst snd k
      (.app (.app mn (.free fst)) (.free snd)) := by
  obtain ⟨k, same, iterates⟩ := resting.sound.number_iterates wlk succeeds denotes found
  have ctr := resting.sound.counter wlk
  exact ⟨k, same, iterates.rename wlk.selfContained (denotes.closed wlk resting.sound within)
    (fun a occurs => (within a occurs).resolve_left (by simp))
    ctr.undefinedSuccessor ctr.undefinedOrigin ctr.apart fst snd⟩

include noSuc noOrg apart

theorem Resting.number_iff (unb : ∀ sts, cfg.limit.exceeded sts = false) (k : Nat) :
    (∃ n aft, number cfg n v e = (.ok (some (.int k)), aft)) ↔
      Iterates lk.definitions sc og k (.app (.app mn (.free sc)) (.free og)) := by
  constructor
  · rintro ⟨n, aft, found⟩
    obtain ⟨o, same, iterates⟩ := resting.number_natural wlk succeeds denotes within found sc og
    simp_all
  · intro iterates
    refine resting.number_found wlk succeeds unb denotes ?_
    exact iterates.rename wlk.selfContained (denotes.closed wlk resting.sound within)
      (fun a occurs => (within a occurs).resolve_left (by simp)) noSuc noOrg apart _ _

end Number

end Decoding

/-- Decoding a number is reading it back.  Whatever a client did before, and without a bound on
the steps, a natural number is found for a value of a program if and only if the value, applied
to variables `s` and `z`, returns what is read back as `s (s (… z))` with that many applications.
Nothing but such a number is ever found. -/
theorem number_iff_numeral_read {ms : Modules} {st : Store}
    (pg : Program ms st) {e : Engine} {held : Holdings}
    (obtained : Obtained st e.store held) {v : Value} (mem : v ∈ held.values)
    {s z : Name} {sc og : Address} (memberSuccessor : (s, sc) ∈ held.unknowns)
    (memberOrigin : (z, og) ∈ held.unknowns) (apart : s ≠ z) {cfg : Settings}
    (unb : ∀ sts, cfg.limit.exceeded sts = false)
    (succeeds : cfg.host.Succeeds) :
    (∀ k : Nat,
      (∃ n aft, number cfg n v e = (.ok (some (.int k)), aft)) ↔
        v.AppliedReads cfg e [some sc, some og] (Nat.repeat (Term.app (.var s)) k (.var z))) ∧
    ∀ n dt aft, number cfg n v e = (.ok (some dt), aft) →
      ∃ k : Nat, dt = .int k ∧
        v.AppliedReads cfg e [some sc, some og]
          (Nat.repeat (Term.app (.var s)) k (.var z)) := by
  obtain ⟨rl, resting, sourced⟩ := obtained.sourced pg.linked
  obtain ⟨mn, denotes, within⟩ := sourced.values v mem
  have openedSuccessor := sourced.opened _ memberSuccessor
  have openedOrigin := sourced.opened _ memberOrigin
  have differ : sc ≠ og := by grind
  have reads := resting.appliedReads_iff pg.linked unb denotes within openedSuccessor
    openedOrigin apart
  constructor
  · intro k
    rw [reads k]
    exact resting.number_iff pg.linked succeeds denotes within
      (resting.sound.undefined pg.linked openedSuccessor)
      (resting.sound.undefined pg.linked openedOrigin) differ unb k
  · intro n dt aft found
    obtain ⟨k, same, iterates⟩ := resting.number_natural pg.linked succeeds denotes
      within found sc og
    simp_all

/-- The value of the identity that is applied to itself, and the engine after its
evaluation. -/
def mainValue : Value := ⟨.closure "x" (.var "x") (.root 0), 1⟩

def mainEngine : Engine :=
  (evaluate ⟨countingHost, none⟩ 20 (.var "Main") (.root 1) (.fresh identityStore)).2

/-- The engine with thunks for variables `s` and `z`. -/
def openedEngine : Engine :=
  { mainEngine with
    store := ((mainEngine.store.alloc (.evaluated (.given (.neutral "s" [])) none)).2.alloc
      (.evaluated (.given (.neutral "z" [])) none)).2 }

theorem obtained_openedEngine :
    Obtained identityStore openedEngine.store ⟨[mainValue], [], [("z", 3), ("s", 2)]⟩ := by
  have nothing : Obtained identityStore (Engine.fresh identityStore).store ⟨[], [], []⟩ := .start
  have evd : evaluate ⟨countingHost, none⟩ 20 (.var "Main") (.root 1)
      (.fresh identityStore) = (.ok mainValue, mainEngine) := rfl
  exact .opened (.opened (.evaluated nothing evd) rfl) rfl

/-- The identity is the number one, and is read back as `s z`. -/
theorem identity_number_iff_read : Program identityModules identityStore ∧
    Obtained identityStore openedEngine.store ⟨[mainValue], [], [("z", 3), ("s", 2)]⟩ ∧
    (∃ aft, number ⟨countingHost, none⟩ 20 mainValue openedEngine =
      (.ok (some (.int 1)), aft)) ∧
    mainValue.AppliedReads ⟨countingHost, none⟩ openedEngine [some 2, some 3]
      (.app (.var "s") (.var "z")) := by
  have found : ∃ aft, number ⟨countingHost, none⟩ 20 mainValue openedEngine =
      (.ok (some (.int 1)), aft) := ⟨_, rfl⟩
  have sc : ("s", 2) ∈ ([("z", 3), ("s", 2)] : List (Name × Address)) := by simp
  have og : ("z", 3) ∈ ([("z", 3), ("s", 2)] : List (Name × Address)) := by simp
  have unb : ∀ sts, (Settings.mk countingHost none).limit.exceeded sts = false := fun _ => rfl
  have decodes := number_iff_numeral_read program_identity obtained_openedEngine
    List.mem_cons_self sc og (by decide) unb fun _ => rfl
  obtain ⟨aft, found⟩ := found
  exact ⟨program_identity, obtained_openedEngine, ⟨aft, found⟩,
    (decodes.1 1).mp ⟨20, aft, found⟩⟩

end CallByNeed
