import CallByNeed.Proofs.NormalOrder

/-!
# What a client of an engine holds

A client obtains values and thunks of a program from an engine, and makes
variables of its own.  It may ask the engine for anything in between, with any
values of the host.  `Obtained` lists what leads to something that it goes on to
use as a part of the program.

Values of the host stay out of the reach of what is obtained: it stands for
terms in which nothing but the names of modules occurs (`Obtained.sourced`).
-/

variable {mn : Nameless} {ads : List Address} {s : Store} {a : Address} {t : Term}
  {mns : List Nameless} {sc : Scope} {x : Name}

namespace CallByNeed

/-- What a client holds: values and thunks of a program, and the thunks of
variables with their names. -/
structure Holdings where
  values : List Value
  thunks : List Address
  unknowns : List (Name × Address)

/-- The holdings that a client of an engine can come to, with the engine's
store. -/
inductive Obtained (lk : Store) : Store → Holdings → Prop where
  | start : Obtained lk lk ⟨[], [], []⟩
  /-- Anything is asked, and nothing of it is kept. -/
  | request {cfg n rq e aft held} {r : Except Stop Answer} (ely : Obtained lk e.store held)
      (perf : Request.perform cfg n rq e = (r, aft))
      (ended : r ≠ .error .outOfFuel) : Obtained lk aft.store held
  /-- The thunk of a name that a module declares. -/
  | declared {s held a} (ely : Obtained lk s held) (dcd : a < lk.size) :
      Obtained lk s { held with thunks := a :: held.thunks }
  /-- A thunk for a term over a module, which is not one of its names. -/
  | suspended {s held t num lb} (ely : Obtained lk s held)
      (notBound : lk.isBound (.root num) t = false) :
      Obtained lk (s.alloc (.suspended t (.root num) lb)).2
        { held with thunks := s.size :: held.thunks }
  /-- A thunk that a closure needs. -/
  | captured {s held v p b env x a} (ely : Obtained lk s held) (mem : v ∈ held.values)
      (form : v.form = .closure p b env)
      (free : x ∈ (Term.lam p b).freeNames)
      (found : s.find x env = some a) :
      Obtained lk s { held with thunks := a :: held.thunks }
  | evaluated {cfg n t num e aft held v} (ely : Obtained lk e.store held)
      (evd : evaluate cfg n t (.root num) e = (.ok v, aft)) :
      Obtained lk aft.store { held with values := v :: held.values }
  | forced {cfg n a e aft held v} (ely : Obtained lk e.store held) (mem : a ∈ held.thunks)
      (forced : force cfg n (some a) e = (.ok v, aft)) :
      Obtained lk aft.store { held with values := v :: held.values }
  | applied {cfg n f e aft held v} {ads : List Address}
      (ely : Obtained lk e.store held) (mem : f ∈ held.values)
      (members : ∀ a ∈ ads, a ∈ held.thunks)
      (applied : apply cfg n f (ads.map some) e = (.ok v, aft)) :
      Obtained lk aft.store { held with values := v :: held.values }
  /-- A thunk that holds a variable without a value. -/
  | opened {s held v x lb} (ely : Obtained lk s held) (form : v.form = .neutral x []) :
      Obtained lk (s.alloc (.evaluated v lb)).2
        { held with unknowns := (x, s.size) :: held.unknowns }

/-- What is held stands for terms in which only names of modules occur; the
variables are variables. -/
structure Holdings.Sourced (lk : Store) (rl : Roles) (held : Holdings) : Prop where
  values : ∀ v ∈ held.values, ∃ mn, Denotes lk rl v mn ∧ mn.Within lk []
  thunks : ∀ a ∈ held.thunks, ∃ mn, rl.meaning? a = some mn ∧ mn.Within lk []
  opened : ∀ en ∈ held.unknowns, rl en.2 = some (.opened en.1)

variable {lk : Store} {rl o : Roles} {held : Holdings}

/-! ### Terms over a module -/

theorem Term.occurs_nameless_of_mem {mn : Name → Nameless}
    (free : x ∈ t.freeNames) (unbound : x ∉ bds) (occurs : (mn x).Occurs a) :
    (t.nameless mn bds).Occurs a := by
  induction t generalizing bds with
  | var o =>
    cases List.mem_singleton.mp free
    simpa [nameless, unbound] using occurs
  | lam p b ih =>
    simp only [freeNames, List.mem_filter, decide_eq_true_eq] at free
    exact ih free.1 (by simp [free.2, unbound])
  | app f arg ihF ihA =>
    rcases mem_freeNames_app.mp free with l | r
    · exact .inl (ihF l unbound)
    · exact .inr (ihA r unbound)

theorem Store.Linked.source_within (wlk : lk.Linked) (num : Nat) (t : Term) :
    (lk.source (.root num) t).Within lk [] :=
  fun _ occurs => .inr (wlk.definitions_isSome.mpr (wlk.occurs_source occurs))

theorem Nameless.Within.app {f arg : Nameless} (l : f.Within lk sc)
    (r : arg.Within lk sc) : (Nameless.app f arg).Within lk sc := by
  rintro a (inside | inside)
  · exact l a inside
  · exact r a inside

theorem Nameless.Within.apply {f : Nameless} {args : List Nameless}
    (fr : f.Within lk sc) (each : ∀ arg ∈ args, arg.Within lk sc) :
    (f.apply args).Within lk sc := by
  induction args generalizing f with
  | nil => exact fr
  | cons arg args ih =>
    exact ih (fr.app (each arg List.mem_cons_self)) fun o mem => each o (List.mem_cons_of_mem _ mem)

/-! ### Answers -/

theorem Waits.arguments
    (given : List.Forall₂ (fun a mn => rl.meaning? a = some mn) ads mns) (t : Nameless) :
    Waits lk rl [] 0 t ((ads.map some).map .argument) (t.apply mns) := by
  induction given generalizing t with
  | nil => exact .base
  | cons means _ ih => exact .argument means (ih _)

theorem Denotes.arguments {f : Value} (denotes : Denotes lk rl f mn)
    (given : List.Forall₂ (fun a mn => rl.meaning? a = some mn) ads mns) :
    ∃ wt, Means lk rl [] ⟨none, f, (ads.map some).map .argument, s⟩ wt (mn.apply mns) :=
  ⟨_, _, _, _, .value denotes, .arguments given mn, rfl⟩

namespace Resting

variable {cfg : Settings} {n : Nat} {e aft : Engine} {v : Value}

theorem evaluated (resting : Resting lk rl e.store) {mn : Name → Nameless}
    (gives : Gives lk rl env mn) (evd : evaluate cfg n t env e = (.ok v, aft)) :
    ∃ (o : Roles) (sts : Nat) (r : Nameless), rl.Grow 0 o ∧
      Resting lk o aft.store ∧ HeadSteps lk.definitions sts (t.nameless mn []) r ∧
      Denotes lk o v r := by
  have means : Means lk rl [] ⟨some (t, env), Value.absent, [], e.store⟩ _ _ :=
    ⟨_, _, _, .term gives, .base, rfl⟩
  obtain ⟨o, sts, r, grow, sound, reaches, denotes⟩ :=
    means.returned resting.sound (reaches_of_evaluate evd)
  exact ⟨o, sts, r, grow,
    resting.settles ((kept_settles cfg).evaluate evd (by simp)) sound, reaches, denotes⟩

theorem forced (wlk : lk.Linked) (resting : Resting lk rl e.store) (means : rl.meaning? a = some mn)
    (forced : force cfg n (some a) e = (.ok v, aft)) :
    ∃ (o : Roles) (sts : Nat) (r : Nameless), rl.Grow 0 o ∧
      Resting lk o aft.store ∧ HeadSteps lk.definitions sts mn r ∧
      Denotes lk o v r := by
  obtain ⟨wt, asks⟩ := resting.sound.asks wlk means
  obtain ⟨o, sts, r, grow, sound, reaches, denotes⟩ :=
    asks.returned resting.sound (reaches_of_force forced "" (.root 0))
  exact ⟨o, sts, r, grow,
    resting.settles ((kept_settles cfg).force forced (by simp)) sound, reaches, denotes⟩

section Apply

variable (resting : Resting lk rl e.store) {f : Value} (denotes : Denotes lk rl f mn)
  (given : List.Forall₂ (fun a mn => rl.meaning? a = some mn) ads mns)

include resting denotes given

theorem applied (applied : apply cfg n f (ads.map some) e = (.ok v, aft)) :
    ∃ (o : Roles) (sts : Nat) (r : Nameless), rl.Grow 0 o ∧
      Resting lk o aft.store ∧ HeadSteps lk.definitions sts (mn.apply mns) r ∧
      Denotes lk o v r := by
  obtain ⟨wt, means⟩ := denotes.arguments given
  obtain ⟨o, sts, r, grow, sound, reaches, denotes⟩ :=
    means.returned resting.sound (reaches_of_apply applied)
  exact ⟨o, sts, r, grow,
    resting.settles ((kept_settles cfg).apply applied (by simp)) sound, reaches, denotes⟩

theorem applies (wlk : lk.Linked) (unb : ∀ sts, cfg.limit.exceeded sts = false) {sts : Nat}
    {ending : Nameless} (reaches : HeadSteps lk.definitions sts (mn.apply mns) ending)
    (ends : Final lk.definitions ending) (present : ∀ x, ending.head ≠ .missing x) :
    ∃ (n : Nat) (v : Value) (aft : Engine) (o : Roles),
      apply cfg n f (ads.map some) e = (.ok v, aft) ∧
      rl.Grow 0 o ∧ Resting lk o aft.store ∧
      Denotes lk o v ending := by
  obtain ⟨wt, means⟩ := denotes.arguments given
  obtain ⟨v, _, o, ⟨k, moves⟩, grow, sound, denotes⟩ :=
    means.comes wlk resting.settled (by simp) resting.sound reaches ends present
  obtain ⟨aft, applied, rfl, _⟩ := run_of_moves_returned
    (State.mk none f ((ads.map some).map .argument) e) moves (unb _) (Nat.lt_succ_self k)
  exact ⟨_, v, aft, o, applied, grow,
    resting.settles ((kept_settles cfg).apply applied (by simp)) sound, denotes⟩

end Apply

theorem suspended (wlk : lk.Linked) (resting : Resting lk rl s)
    (notBound : lk.isBound (.root num) t = false) (lb : Option Name) :
    Resting lk (rl.add s.size (.delayed (lk.source (.root num) t)))
      (s.alloc (.suspended t (.root num) lb)).2 := by
  have gives := resting.sound.gives_root wlk num
  have grow := Marks.grow_add resting.sound.fresh (.delayed (lk.source (.root num) t))
  refine ⟨resting.sound.add (.delayed (by simp [Thunk.suspended]) rfl (gives.grow grow) notBound)
    (Term.closedAt_nameless (resting.sound.gives_closed gives) [] t) ?_, ?_, ?_⟩
  · intro a occurs
    obtain ⟨role, known⟩ := Option.isSome_iff_exists.mp (resting.sound.term_occurs gives occurs)
    simp [grow.keeps known]
  · intro a forcing
    by_cases same : a = s.size
    · simp [Store.phase?, same, Thunk.suspended] at forcing
    · exact resting.settled a (by simpa [Store.phase?, same] using forcing)
  · intro a th found notForced
    by_cases same : a = s.size
    · simp only [Store.thunk?_alloc, same, if_true, Option.some.injEq] at found
      subst found
      cases lb <;> rfl
    · exact resting.writable a th (by simpa [same] using found) notForced

theorem opened (resting : Resting lk rl s) {v : Value} (form : v.form = .neutral x [])
    (lb : Option Name) : Resting lk (rl.add s.size (.opened x)) (s.alloc (.evaluated v lb)).2 := by
  refine ⟨resting.sound.add (.kept rfl rfl (.refl _) (.neutral form (by simp) .nil)) trivial ?_,
    ?_, ?_⟩
  · rintro a rfl
    simp
  · intro a forcing
    by_cases same : a = s.size
    · simp [Store.phase?, same, Thunk.evaluated] at forcing
    · exact resting.settled a (by simpa [Store.phase?, same] using forcing)
  · intro a th found notForced
    by_cases same : a = s.size
    · simp only [Store.thunk?_alloc, same, if_true, Option.some.injEq] at found
      subst found
      exact absurd rfl notForced
    · exact resting.writable a th (by simpa [same] using found) notForced

end Resting

/-! ### Histories -/

namespace Holdings.Sourced

section

variable (sourced : held.Sourced lk rl)

include sourced

theorem grow (grow : rl.Grow size o) : held.Sourced lk o := by
  constructor
  · intro v mem
    obtain ⟨mn, denotes, within⟩ := sourced.values v mem
    exact ⟨mn, denotes.grow grow, within⟩
  · intro a mem
    obtain ⟨mn, means, within⟩ := sourced.thunks a mem
    exact ⟨mn, grow.meaning? means, within⟩
  · exact fun en mem => grow.keeps (sourced.opened en mem)

theorem addValue (denotes : Denotes lk rl v mn) (within : mn.Within lk []) :
    Sourced lk rl { held with values := v :: held.values } :=
  ⟨List.forall_mem_cons.mpr ⟨⟨mn, denotes, within⟩, sourced.values⟩, sourced.thunks, sourced.opened⟩

theorem addThunk (means : rl.meaning? a = some mn) (within : mn.Within lk []) :
    Sourced lk rl { held with thunks := a :: held.thunks } :=
  ⟨sourced.values, List.forall_mem_cons.mpr ⟨⟨mn, means, within⟩, sourced.thunks⟩, sourced.opened⟩

theorem meanings (members : ∀ a ∈ ads, a ∈ held.thunks) :
    ∃ mns, List.Forall₂ (fun a mn => rl.meaning? a = some mn)
      ads mns ∧ ∀ mn ∈ mns, mn.Within lk [] := by
  induction ads with
  | nil => exact ⟨[], .nil, by simp⟩
  | cons a ads ih =>
    obtain ⟨fst, os⟩ := List.forall_mem_cons.mp members
    obtain ⟨mn, means, within⟩ := sourced.thunks a fst
    obtain ⟨mns, given, each⟩ := ih os
    exact ⟨mn :: mns, .cons means given, List.forall_mem_cons.mpr ⟨within, each⟩⟩

end

end Holdings.Sourced

/-- What a client holds is out of the reach of the host's values. -/
theorem Obtained.sourced (wlk : lk.Linked) (obtained : Obtained lk s held) :
    ∃ rl, Resting lk rl s ∧ held.Sourced lk rl := by
  induction obtained with
  | start =>
    exact ⟨_, ⟨.start wlk, wlk.settled, wlk.writable⟩, ⟨by simp, by simp, by simp⟩⟩
  | @request cfg n rq e aft held r _ perf ended ih =>
    obtain ⟨rl, resting, sourced⟩ := ih
    obtain ⟨o, grow, sound⟩ := (kept_sound lk cfg).perform perf ended rl resting.sound
    obtain ⟨settled, wr, _⟩ :=
      (kept_settles cfg).perform perf ended resting.settled resting.writable
    exact ⟨o, ⟨sound, settled, wr⟩, sourced.grow grow⟩
  | @declared _ _ a _ dcd ih =>
    obtain ⟨rl, resting, sourced⟩ := ih
    have means : rl.meaning? a = some (.free a) := by
      simp [Roles.meaning?, resting.sound.declared dcd, Role.meaning]
    refine ⟨rl, resting, sourced.addThunk means ?_⟩
    rintro a rfl
    exact .inr (wlk.definitions_isSome.mpr dcd)
  | @suspended _ _ t num _ _ notBound ih =>
    obtain ⟨rl, resting, sourced⟩ := ih
    exact ⟨_, resting.suspended wlk notBound _,
      (sourced.grow (Marks.grow_add resting.sound.fresh _)).addThunk
        (by simp [Roles.meaning?, Role.meaning]) (wlk.source_within num t)⟩
  | captured _ mem form free found ih =>
    obtain ⟨rl, resting, sourced⟩ := ih
    obtain ⟨_, denotes, within⟩ := sourced.values _ mem
    cases denotes with
    | neutral o _ _ => simp [form] at o
    | closure same gives =>
      cases form.symm.trans same
      rw [resting.sound.find] at found
      refine ⟨rl, resting, sourced.addThunk (gives.found found) fun a occurs => ?_⟩
      simp only [Term.freeNames, List.mem_filter, decide_eq_true_eq] at free
      exact within a (Term.occurs_nameless_of_mem free.1 (by simp [free.2]) occurs)
  | @evaluated _ _ t num _ _ _ _ _ evd ih =>
    obtain ⟨rl, resting, sourced⟩ := ih
    obtain ⟨o, _, _, grow, rests, reaches, denotes⟩ := resting.evaluated
      (resting.sound.gives_root wlk num) evd
    exact ⟨o, rests, (sourced.grow grow).addValue denotes
      (.steps wlk (wlk.source_within num t) reaches)⟩
  | forced _ mem forced ih =>
    obtain ⟨rl, resting, sourced⟩ := ih
    obtain ⟨mn, means, within⟩ := sourced.thunks _ mem
    obtain ⟨o, _, _, grow, rests, reaches, denotes⟩ := resting.forced wlk means forced
    exact ⟨o, rests, (sourced.grow grow).addValue denotes (within.steps wlk reaches)⟩
  | @applied _ _ f ads _ _ _ _ _ mem members applied ih =>
    obtain ⟨rl, resting, sourced⟩ := ih
    obtain ⟨mn, denotes, within⟩ := sourced.values f mem
    obtain ⟨mns, given, each⟩ := sourced.meanings members
    obtain ⟨o, _, _, grow, rests, reaches, denotes⟩ := resting.applied denotes given applied
    exact ⟨o, rests, (sourced.grow grow).addValue denotes ((within.apply each).steps wlk reaches)⟩
  | @opened _ _ _ x _ _ form ih =>
    obtain ⟨rl, resting, sourced⟩ := ih
    have grown := sourced.grow (Marks.grow_add resting.sound.fresh (.opened x))
    exact ⟨_, resting.opened form _, grown.values, grown.thunks,
      List.forall_mem_cons.mpr ⟨by simp, grown.opened⟩⟩

end CallByNeed
