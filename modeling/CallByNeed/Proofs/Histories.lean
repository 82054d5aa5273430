import CallByNeed.Proofs.Meaning

/-!
# What requests leave behind

Any requests may have been made of an engine, with any values of the host and
any outcome.  The thunks of the program, and those that stand for terms of the
program, still hold what they stand for: a computation with values of the host
evaluates such thunks on their own, and keeps what it adds apart from them.
-/

namespace CallByNeed

variable {k : List Frame} {a : Address} {host : Host} {bef aft : Configuration}
  {lk s : Store} {rl : Roles}

section Hosted

variable {α : Type} {marks o : Marks α}

/-- A stack of a computation with values of the host: it updates no thunk that is
marked. -/
def Hosted (marks : Marks α) (s : Store) (k : List Frame) : Prop :=
  ∀ a, .update a ∈ k → marks a = none ∧ a < s.size

theorem Hosted.grow {bef aft : Store} (hosted : Hosted marks bef k) (grow : marks.Grow bef.size o)
    (le : bef.size ≤ aft.size) : Hosted o aft k := by
  intro a mem
  obtain ⟨free, bound⟩ := hosted a mem
  refine ⟨?_, Nat.lt_of_lt_of_le bound le⟩
  cases given : o a with
  | none => rfl
  | some mark =>
    rcases grow.adds given with known | beyond
    · simp [free] at known
    grind

/-- A marked thunk is entered from a computation with values of the host. -/
structure Enters (marks : Marks α) (bef aft : Configuration) (a : Address)
    (th : Thunk) (k : List Frame) : Prop where
  given : (marks a).isSome
  held : bef.store.thunk? a = some th
  unforced : th.phase = .unforced
  entered : aft = ⟨th.code?, bef.value, .update a :: k, bef.store.update a Thunk.begin⟩
  below : Hosted marks aft.store k

theorem Hosted.enter (bef : Configuration) (hosted : Hosted marks bef.store k)
    (held : bef.store.thunk? a = some th) (unforced : th.phase = .unforced) :
    Hosted marks (bef.store.update a Thunk.begin) (.update a :: k) ∨
      Enters marks bef ⟨th.code?, bef.value, .update a :: k,
        bef.store.update a Thunk.begin⟩ a th k := by
  have same : Hosted marks (bef.store.update a Thunk.begin) k := hosted.grow (.refl _ _) (by simp)
  cases given : marks a with
  | none =>
    left
    intro o mem
    rcases List.mem_cons.mp mem with fst | later
    · simp_all [Store.thunk?_lt]
    · exact same o later
  | some mark => exact .inr ⟨by simp [given], held, unforced, rfl, same⟩

/-- A computation with values of the host goes on without updating marked thunks,
until it enters one of them. -/
theorem Hosted.move (hosted : Hosted marks bef.store bef.stack) (move : Move host bef aft) :
    Hosted marks aft.store aft.stack ∨ ∃ a th k, Enters marks bef aft a th k := by
  have grown : Hosted marks aft.store bef.stack := hosted.grow (.refl _ _) move.size_le
  cases move with
  | reuse _ _ _ => exact .inl hosted
  | enter found held unforced =>
    exact (hosted.enter _ held unforced).imp_right fun enters => ⟨_, _, _, enters⟩
  | close => exact .inl grown
  | postpone => exact .inl fun a mem => grown a (by simpa using mem)
  | memoize | bind _ | extend _ | call _ =>
    exact .inl fun a mem => grown a (List.mem_cons_of_mem _ mem)
  | supply _ _ _ => exact .inl fun a mem => grown a (by simpa using mem)
  | @demand v a k s x th prim held unforced =>
    have below : Hosted marks s (.call x :: k) := fun a mem =>
      hosted a (by simpa using mem)
    exact (below.enter ⟨none, v, .argument (some a) :: k, s⟩ held
      unforced).imp_right fun enters => ⟨_, _, _, enters⟩

theorem Move.tables (move : Move host bef aft) : aft.store.tables = bef.store.tables := by
  cases move with
  | postpone => exact Store.tables_delay _ _ _
  | reuse | enter | close | memoize | bind | extend | supply | demand | call => rfl

theorem Hosted.steady (hosted : Hosted marks bef.store bef.stack) (move : Move host bef aft)
    {mark : α} (given : marks a = some mark) : bef.store.Steady aft.store a := by
  intro th held
  rcases move.effect with ⟨begun, o, there, unforced, same, _⟩ | ⟨kept, v, same, fs⟩ | ⟨grows, _⟩
  · rw [same]
    exact Store.steady_begin there unforced a held
  · have mem : kept ∈ updates bef.stack := by simp [fs]
    have differ : kept ≠ a := by
      rintro rfl
      simp [(hosted kept (mem_updates.mp mem)).1] at given
    simp_all
  · exact ⟨th, grows.keeps held, rfl, Iff.rfl⟩

section Guards

variable {W : Type} {marks : W → Marks α} {good : W → Store → Prop}
  {inside : W → List Frame → Configuration → Prop} {later : W → W → Prop} {w : W}

/-- What can be kept of marked thunks.  It is kept while they hold what they hold, and by a
computation that enters one of them and then stays inside, above the base of its stack. -/
structure Guards (host : Host) (marks : W → Marks α) (good : W → Store → Prop)
    (inside : W → List Frame → Configuration → Prop) (later : W → W → Prop) : Prop where
  refl : ∀ w, later w w
  trans : ∀ {fst snd thd}, later fst snd → later snd thd → later fst thd
  steady : ∀ {w bef aft}, good w bef → aft.tables = bef.tables →
    (∀ {a mark}, marks w a = some mark → bef.Steady aft a) → good w aft
  enter : ∀ {w bef aft a th k}, good w bef.store → Enters (marks w) bef aft a th k →
    inside w k aft
  move : ∀ {w base bef aft}, good w bef.store → inside w base bef →
    (bef.focus = none → bef.stack ≠ base) → Move host bef aft →
    ∃ o, later w o ∧ (marks w).Grow bef.store.size (marks o) ∧ good o aft.store ∧
      inside o base aft

/-- What holds at every transition, whatever is computed: marked thunks are
evaluated apart from what has no mark. -/
inductive Apart (marks : W → Marks α) (inside : W → List Frame → Configuration → Prop)
    (w : W) (c : Configuration) : Prop where
  | outside (hosted : Hosted (marks w) c.store c.stack)
  | within {base} (hosted : Hosted (marks w) c.store base) (within : inside w base c)

namespace Guards

section

variable (guards : Guards host marks good inside later)

include guards

theorem outside (kept : good w bef.store) (hosted : Hosted (marks w) bef.store bef.stack)
    (move : Move host bef aft) : ∃ o, later w o ∧ good o aft.store ∧ Apart marks inside o aft := by
  refine ⟨w, guards.refl w,
    guards.steady kept move.tables fun given => hosted.steady move given, ?_⟩
  rcases hosted.move move with ots | ⟨a, th, k, enters⟩
  · exact .outside ots
  · exact .within enters.below (guards.enter kept enters)

theorem step (kept : good w bef.store) (apart : Apart marks inside w bef)
    (move : Move host bef aft) : ∃ o, later w o ∧ good o aft.store ∧ Apart marks inside o aft := by
  cases apart with
  | outside hosted => exact guards.outside kept hosted move
  | @within base hosted within =>
    by_cases above : bef.focus = none → bef.stack ≠ base
    · obtain ⟨o, more, grow, kept, within⟩ := guards.move kept within above move
      exact ⟨o, more, kept, .within (hosted.grow grow move.size_le) within⟩
    · push Not at above
      rw [← above.2] at hosted
      exact guards.outside kept hosted move

theorem moves {k : Nat} {st0 last : Configuration} (kept : good w st0.store)
    (apart : Apart marks inside w st0) (moves : Moves host k st0 last) :
    ∃ o, later w o ∧ good o last.store := by
  induction moves generalizing w with
  | refl => exact ⟨w, guards.refl w, kept⟩
  | step move _ ih =>
    obtain ⟨mid, early, kept, apart⟩ := guards.step kept apart move
    obtain ⟨o, late, kept⟩ := ih kept apart
    exact ⟨o, guards.trans early late, kept⟩

end

/-- Whatever is asked of an engine, it is kept. -/
theorem kept (guards : Guards cfg.host marks good inside later) :
    Kept cfg (· = .outOfFuel) fun bef aft => ∀ w, good w bef → ∃ o, later w o ∧ good o aft := by
  apply Kept.of_moves
  · exact fun s w kept => ⟨w, guards.refl w, kept⟩
  · intro fst snd thd early late w kept
    obtain ⟨mid, ely, kept⟩ := early w kept
    obtain ⟨o, more, kept⟩ := late mid kept
    exact ⟨o, guards.trans ely more, kept⟩
  · exact fun s v w kept => ⟨w, guards.refl w, guards.steady kept rfl fun _ _ held =>
      ⟨_, Store.thunk?_alloc_of_some held _, rfl, Iff.rfl⟩⟩
  · exact fun s form w kept => ⟨w, guards.refl w, guards.steady kept rfl fun _ _ held =>
      ⟨_, held, rfl, Iff.rfl⟩⟩
  · intro st0 last k noFrames moves w kept
    exact guards.moves kept (.outside fun a mem => absurd mem (noFrames a)) moves
  · intro bef st er kept w begun
    obtain ⟨o, more, kept⟩ := kept w begun
    refine ⟨o, more, ?_⟩
    rcases st.abandon_engine er with same | same
    · rw [same]
      exact guards.steady kept st.unwind_tables fun _ => st.steady_unwind _
    simp_all

end Guards

end Guards

end Hosted

/-- Thunks with a role are evaluated apart from what has none. -/
theorem guards_sound (lk : Store) (host : Host) :
    Guards host (fun rl : Roles => rl) (Sound lk)
      (fun rl base c => ∃ wt total, Means lk rl base c wt total) (Marks.Grow 0) where
  refl := .refl 0
  trans early late := early.trans late
  steady sound tbs steady := sound.steady tbs steady
  enter := by
    rintro rl bef _ a th k sound ⟨given, held, unforced, rfl, _⟩
    obtain ⟨role, given⟩ := Option.isSome_iff_exists.mp given
    have means : rl.meaning? a = some (role.meaning a) := by
      simp [Roles.meaning?, given]
    obtain ⟨_, total, wt, _, stands, _⟩ := Waits.enter sound .base means held unforced
      bef.value (bef.store.update a Thunk.begin)
    exact ⟨wt, total, stands⟩
  move := by
    rintro rl base bef aft sound ⟨wt, total, means⟩ above move
    obtain ⟨o, _, _, _, grow, sound, _, stands, _⟩ := means.move sound above move
    exact ⟨o, grow.weaken, grow, sound, _, _, stands⟩

/-- Whatever is asked of an engine, its thunks keep holding what fits their
roles. -/
theorem kept_sound (lk : Store) (cfg : Settings) :
    Kept cfg (· = .outOfFuel) fun bef aft => ∀ rl,
      Sound lk rl bef → ∃ o, rl.Grow 0 o ∧ Sound lk o aft := (guards_sound lk cfg.host).kept

theorem Reached.keeps {st0 : Store} (reached : Reached st0 s) (sound : Sound lk rl st0) :
    ∃ o, rl.Grow 0 o ∧ Sound lk o s :=
  Kept.reached (kept_sound lk ⟨countingHost, none⟩).refl
    (fun cfg _ => kept_sound lk cfg) reached rl sound

/-- After any requests the thunks of a program stand for its terms. -/
theorem Reached.sound (wlk : lk.Linked) (reached : Reached lk s) : ∃ rl, Sound lk rl s := by
  obtain ⟨rl, _, sound⟩ := reached.keeps (Sound.start wlk)
  grind

/-- After any requests no thunk is being evaluated, and the labels of those that
can be evaluated can be shown. -/
theorem Reached.settled (wlk : lk.Linked) (reached : Reached lk s) : s.Settled ∧ s.Writable := by
  obtain ⟨settled, wr, _⟩ :=
    Kept.reached (kept_settles ⟨countingHost, none⟩).refl
      (fun cfg _ => kept_settles cfg) reached wlk.settled wlk.writable
  simp_all

end CallByNeed
