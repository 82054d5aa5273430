import CallByNeed.Proofs.Independence
import CallByNeed.Proofs.Reports
import CallByNeed.Session

/-!
# Bindings of a session

A session evaluates its bindings one after the other, with one engine.  What it
shows for a binding is what it would show if nothing had been asked before, as
long as no bound on the steps cuts that short.
-/

variable {given : Except Failure String} {later : Session} {β : Type} {o : Value}

namespace CallByNeed

/-- A failure that is not due to a bound on the steps, or to want of fuel. -/
def Failure.isDecisive : Failure → Bool
  | .evaluation (.stepLimit _) _ => false
  | .outOfFuel => false
  | _ => true

/-- What an action of a session gives that is not cut short. -/
def Conclusive {α : Type} (r : Except Failure α) : Prop := ∀ fa, r = .error fa → fa.isDecisive

theorem Stop.isDecisive_failure (stop : Stop) : stop.failure.isDecisive = stop.isDecisive := by
  cases stop with
  | outOfFuel => rfl
  | raised er =>
    cases er with
    | evaluation cause tr => cases cause <;> rfl
    | _ => rfl

variable {α : Type} {ss fst : Session} {x : Name} {n : Nat} {lk : Module}

theorem Coincide.eq {ε : Type} {r oc : Except ε α} (coincide : Coincide Eq r oc) : r = oc := by
  cases coincide with
  | value related => rw [related]
  | stop reason => rfl

theorem Coincide.mapError {rel : α → β → Prop} {r : Except Stop α} {oc : Except Stop β}
    (coincide : Coincide rel r oc) :
    Coincide rel (r.mapError Stop.failure) (oc.mapError Stop.failure) := by
  cases coincide with
  | value related => exact .value related
  | stop reason => exact .stop reason.failure

namespace Session

theorem request_eq {ac : Settings → Eval α} {r : Except Stop α}
    (ran : ac ss.settings ss.engine = (r, e)) :
    request ac ss = (r.mapError Stop.failure,
      { ss with
        console := showEvents ss.console e.events
        engine := { e with events := #[] } }) := by
  simp only [request, ran]

/-- The module in which a name is looked up. -/
def scopeOf (ss : Session) (lk : Option Module) : Module := (lk.or ss.main?).getD ss.shell

theorem evaluate_of_found {lk : Option Module}
    (found : ss.engine.store.find x (ss.scopeOf lk).env = some a) (n : Nat) :
    evaluate n x lk ss = request (fun cfg => force cfg n (some a)) ss := by
  have looked : lookup (ss.scopeOf lk) x ss = (.ok a, ss) := by
    rw [lookup, Action.get_bind, found]
    rfl
  rw [evaluate, Action.get_bind]
  exact Action.bind_ok looked _

theorem evaluate_of_lost {lk : Option Module}
    (lost : ss.engine.store.find x (ss.scopeOf lk).env = none) (n : Nat) :
    evaluate n x lk ss = (.error (.evaluation (.unbound x) []), ss) := by
  have looked : lookup (ss.scopeOf lk) x ss = (.error (.evaluation (.unbound x) []), ss) := by
    rw [lookup, Action.get_bind, lost]
    rfl
  rw [evaluate, Action.get_bind]
  exact Action.bind_error looked _

/-- The text of a binding's value, or why there is none. -/
def shown (n : Nat) (x : Name) (lk : Option Module) : Act String := do
  let v ← evaluate n x lk
  showReduced n v

/-- Sessions with one program, of which the right one may have more values. -/
structure Twins (lk : Store) (pr : Pairing) (l r : Session) : Prop where
  uniform : l.settings.host.Uniform
  settings : r.settings = l.settings
  numerals : r.numerals = l.numerals
  main : r.main? = l.main?
  shell : r.shell = l.shell
  peers : Peers l.settings.host lk pr l.engine.store r.engine.store

/-- The second action does to the right session what the first one does to the
left session. -/
def Accord (lk : Store) {α β : Type} (rel : Pairing → α → β → Prop)
    (pr : Pairing) (fst : Act α) (snd : Act β) : Prop :=
  ∀ ⦃l rt : Session⦄ ⦃r : Except Failure α⦄ ⦃aft : Session⦄,
    Twins lk pr l rt → fst l = (r, aft) → Conclusive r →
    ∃ oc last more, snd rt = (oc, last) ∧ pr.Extends more ∧
      Twins lk more aft last ∧ Coincide (rel more) r oc

namespace Accord

variable {lk : Store} {pr : Pairing} {γ δ : Type} {rel : Pairing → α → β → Prop}
  {related : Pairing → γ → δ → Prop}

theorem pure {v : α} {o : β} (same : rel pr v o) : Accord lk rel pr (pure v) (pure o) := by
  intro l r rs aft twins returned _
  cases returned
  exact ⟨_, r, pr, rfl, fun _ _ => id, twins, .value same⟩

theorem lift (ans : Except Failure γ) :
    Accord lk (fun _ => Eq) pr (liftM ans : Act γ) (liftM ans) := by
  intro l r rs aft twins returned _
  cases ans with
  | error fault =>
    cases returned
    exact ⟨_, r, pr, rfl, fun _ _ => id, twins, .stop _⟩
  | ok found =>
    cases returned
    exact ⟨_, r, pr, rfl, fun _ _ => id, twins, .value rfl⟩

theorem bind {fst : Act α} {snd : Act β} {next : α → Act γ} {following : β → Act δ}
    (accord : Accord lk rel pr fst snd)
    (continues : ∀ {more v o}, pr.Extends more → rel more v o →
      Accord lk related more (next v) (following o)) :
    Accord lk related pr (fst >>= next) (snd >>= following) := by
  intro l rt r aft twins ran conclusive
  rcases Action.bind_cases ran with ⟨fa, rfl, stopped⟩ | ⟨v, mid, began, ran⟩
  · have sooner : Conclusive (Except.error fa : Except Failure α) := by
      intro o same
      cases same
      exact conclusive fa rfl
    obtain ⟨oc, last, more, same, grows, later, coincide⟩ := accord twins stopped sooner
    cases coincide
    exact ⟨_, last, more, Action.bind_error same _, grows, later, .stop fa⟩
  · obtain ⟨oc, between, more, same, grows, later, coincide⟩ :=
      accord twins began (by simp [Conclusive])
    cases coincide with
    | value matched =>
      obtain ⟨oc, last, further, rest, growsMore, last, coincide⟩ :=
        continues grows matched later ran conclusive
      exact ⟨oc, _, further, (Action.bind_ok same _).trans rest,
        grows.trans growsMore, last, coincide⟩

theorem request {fst : Settings → Eval α} {snd : Settings → Eval β}
    (mirrors : ∀ {cfg : Settings}, cfg.host.Uniform →
      Mirrors cfg.host lk rel pr (fst cfg) (snd cfg)) :
    Accord lk rel pr (request fst) (request snd) := by
  intro l r rs aft twins requested conclusive
  rcases ran : fst l.settings l.engine with ⟨early, e⟩
  rw [request_eq ran] at requested
  cases requested
  have decided : Decided early := by
    rintro stop rfl
    rw [← stop.isDecisive_failure]
    exact conclusive _ rfl
  obtain ⟨oc, last, more, same, proceeds, coincide⟩ := mirrors twins.uniform twins.peers ran decided
  have there : snd r.settings r.engine = (oc, last) := by
    rw [twins.settings, same]
  exact ⟨_, _, more, request_eq there, proceeds.grows, ⟨twins.uniform, twins.settings,
    twins.numerals, twins.main, twins.shell, proceeds.peers⟩, coincide.mapError⟩

theorem evaluate (n : Nat) (x : Name) (own : Option Module) :
    Accord lk Value.Matches pr (evaluate n x own) (evaluate n x own) := by
  intro l r rs aft twins evd conclusive
  have scs : r.scopeOf own = l.scopeOf own := by
    rw [scopeOf, scopeOf, twins.main, twins.shell]
  obtain ⟨lg, fits, agrees⟩ := twins.peers.agree
  rcases agrees.find (.root (l.scopeOf own).table) x with
    ⟨lost, lostRight⟩ | ⟨a, pl, found, foundRight, given⟩
  · rw [evaluate_of_lost lost] at evd
    cases evd
    rw [evaluate_of_lost (by rw [scs]; exact lostRight)]
    exact ⟨_, r, pr, rfl, fun _ _ => id, twins, .stop _⟩
  · rw [evaluate_of_found found] at evd
    rw [evaluate_of_found (by rw [scs]; exact foundRight)]
    refine Accord.request (fun uniform => ?_) twins evd conclusive
    exact Mirrors.force uniform ⟨a, pl, rfl, rfl, given⟩

theorem numberText (n : Nat) (same : Value.Matches pr v o) :
    Accord lk (fun _ => Eq) pr (numberText n v) (numberText n o) := by
  intro l rt r aft twins counted conclusive
  rw [Session.numberText, Action.get_bind] at counted ⊢
  rw [twins.numerals]
  by_cases numerals : l.numerals = true
  · have rq : Accord lk (fun _ => Eq) pr
        (Session.request fun cfg => number cfg n v) (Session.request fun cfg => number cfg n o) :=
      Accord.request fun uniform => Mirrors.number uniform same
    rw [if_pos numerals] at counted ⊢
    exact rq.bind (fun _ found => found ▸ .lift _) twins counted conclusive
  · have nothing : Accord lk (fun _ => Eq) pr (Pure.pure none : Act (Option String))
        (Pure.pure none) := .pure rfl
    rw [if_neg numerals] at counted ⊢
    exact nothing twins counted conclusive

theorem showReduced (n : Nat) (same : Value.Matches pr v o) :
    Accord lk (fun _ => Eq) pr (showReduced n v) (showReduced n o) := by
  refine (Accord.numberText n same).bind fun {more tx across} grows found => ?_
  cases found
  cases tx with
  | some tx => exact .pure rfl
  | none =>
    have rq : Accord lk (fun _ => Eq) more (Session.request fun cfg => normalize cfg n v)
        (Session.request fun cfg => normalize cfg n o) :=
      Accord.request fun uniform => Mirrors.normalize uniform (same.extend grows)
    exact rq.bind fun _ ts => .pure (congrArg _ ts)

theorem shown (n : Nat) (x : Name) (own : Option Module) :
    Accord lk (fun _ => Eq) pr (shown n x own) (shown n x own) :=
  (Accord.evaluate n x own).bind fun _ same => Accord.showReduced n same

end Accord

/-- Modules are linked, and nothing is evaluated yet. -/
structure Fresh (ss : Session) : Prop where
  program : Program ss.modules ss.engine.store
  host : ss.settings.host = countingHost

/-- A session after any requests to its engine, each of them with its own bound
on the steps. -/
structure Later (fst later : Session) : Prop where
  settings : later.settings = fst.settings
  numerals : later.numerals = fst.numerals
  modules : later.modules = fst.modules
  main : later.main = fst.main
  shell : later.shell = fst.shell
  reached : ReachedBy fst.settings.host fst.engine.store later.engine.store

theorem Fresh.shown (fresh : fst.Fresh) (aft : fst.Later later) (n : Nat)
    (x : Name) (own : Option Module) (conclusive : Conclusive (Session.shown n x own fst).1) :
    (Session.shown n x own later).1 = (Session.shown n x own fst).1 := by
  obtain ⟨pr, peers, _⟩ := Peers.start fresh.program.linked aft.reached
  have twins : Twins fst.engine.store pr fst later := by
    refine ⟨?_, aft.settings, aft.numerals, ?_, aft.shell, peers⟩
    · rw [fresh.host]
      exact countingHost_uniform
    · rw [main?, main?, aft.main, aft.modules]
  obtain ⟨oc, last, more, same, _, _, coincide⟩ :=
    Accord.shown n x own twins Prod.mk.eta.symm conclusive
  rw [same]
  exact coincide.eq.symm

/-- The line that is printed for a binding of the main module. -/
def line (n : Nat) (x : Name) : Act String := do
  let v ← evaluate n x none
  let tx ← render n v
  pure (x ++ " = " ++ tx)

/-- A value that is shown within the bound is printed as it is shown. -/
theorem line_eq_shown (conclusive : Conclusive (shown n x none ss).1) :
    (line n x ss).1 = (shown n x none ss).1.map fun tx => x ++ " = " ++ tx := by
  rcases evd : evaluate n x none ss with ⟨r, mid⟩
  cases r with
  | error fa =>
    rw [line, shown, Action.bind_error evd, Action.bind_error evd]
    rfl
  | ok v =>
    rw [line, Action.bind_ok evd]
    rw [shown, Action.bind_ok evd] at conclusive ⊢
    rcases reduced : showReduced n v mid with ⟨r, last⟩
    rw [reduced] at conclusive
    have rendered : render n v mid = (r, last) := by
      unfold render
      rw [reduced]
      split
      · rename_i limited
        cases limited
        exact absurd (conclusive _ rfl) (by simp [Failure.isDecisive])
      · rfl
    cases r with
    | ok tx =>
      rw [Action.bind_ok rendered]
      rfl
    | error fa =>
      rw [Action.bind_error rendered]
      rfl

theorem Fresh.line (fresh : fst.Fresh) (aft : fst.Later later)
    (conclusive : Conclusive (Session.shown n x none fst).1) :
    (Session.line n x later).1 = (Session.line n x fst).1 := by
  have same := fresh.shown aft n x none conclusive
  grind [line_eq_shown]

/-- The session with a binding as the line that it works on. -/
def registered (ss : Session) (lk : Module) (x : Name) : Session :=
  let num := match lk.declaration? x with
    | some d => LineNumber.known d.line
    | none => .unknown
  { ss with console := ss.console.register lk.id ⟨some x, num⟩ }

/-- Evaluates and prints one binding of the main module, and gives what was
printed or reported. -/
def answer (n : Nat) (lk : Module) (x : Name) : Act (Except Failure String) := fun ss =>
    match line n x (ss.registered lk x) with
    | (.error (.evaluation er tr), ss) =>
      (do reportEvaluation er tr
          pure (.error (.evaluation er tr)) : Act (Except Failure String)) ss
    | (.error fa, ss) => (.error fa, ss)
    | (.ok tx, ss) =>
      (do onConsole (·.print tx)
          onConsole (·.clear lk.id)
          pure (.ok tx) : Act (Except Failure String)) ss

/-- Evaluates and prints bindings one after the other, and gives what was printed
or reported for each of them. -/
def answers (n : Nat) (lk : Module) : List Name → Act (List (Except Failure String))
  | [] => pure []
  | x :: xs => do
      let fst ← answer n lk x
      let os ← answers n lk xs
      pure (fst :: os)

theorem printBinding_eq (n : Nat) (x : Name) :
    printBinding n x = (line n x >>= fun tx => onConsole (·.print tx)) := by
  simp [printBinding, line]

theorem runBinding_eq (n : Nat) (lk : Module) (x : Name) :
    runBinding n lk x = Except.isOk <$> answer n lk x := by
  funext ss
  have started : runBinding n lk x ss = _ :=
    Action.bind_ok (show onConsole _ ss = (.ok (), ss.registered lk x) from rfl) _
  rw [started, printBinding_eq, Action.map_eq, answer]
  rcases lined : line n x (ss.registered lk x) with ⟨r, aft⟩
  cases r with
  | ok tx =>
    rw [Action.bind_ok lined]
    rfl
  | error fa =>
    rw [Action.bind_error lined]
    cases fa with
    | evaluation er tr =>
      show _ = ((_ : Except Failure (Except Failure String)).map Except.isOk, _)
      rw [← Action.map_eq, map_bind]
      rfl
    | _ => rfl

theorem runBindings_eq (n : Nat) (lk : Module) (xs : List Name) :
    runBindings n lk xs = (fun given => given.all Except.isOk) <$> answers n lk xs := by
  induction xs with
  | nil => simp [runBindings, answers]
  | cons x xs ih => simp [runBindings, answers, runBinding_eq, ih]

/-- An action that only asks the engine of a session, or prints. -/
def Continues {α : Type} (ac : Act α) : Prop :=
  ∀ ⦃ss : Session⦄ ⦃r : Except Failure α⦄ ⦃aft : Session⦄,
    ac ss = (r, aft) → r ≠ .error .outOfFuel → ss.Later aft

theorem Later.print (ss : Session) (cs : Console) : ss.Later { ss with console := cs } :=
  ⟨rfl, rfl, rfl, rfl, rfl, .start⟩

theorem Later.trans {snd thd : Session} (early : fst.Later snd) (late : snd.Later thd) :
    fst.Later thd := by
  refine ⟨late.settings.trans early.settings, late.numerals.trans early.numerals,
    late.modules.trans early.modules, late.main.trans early.main, late.shell.trans early.shell, ?_⟩
  have further := late.reached
  rw [early.settings] at further
  exact early.reached.trans further

namespace Continues

theorem printing {ac : Act α} (prints : ∀ ss, ∃ r cs, ac ss = (r, { ss with console := cs })) :
    Continues ac := by
  intro ss r aft ran _
  obtain ⟨_, cs, same⟩ := prints ss
  rw [same] at ran
  cases ran
  exact .print ss cs

theorem pure (v : α) : Continues (pure v) := printing fun ss => ⟨_, ss.console, rfl⟩

theorem lift (ans : Except Failure α) : Continues (liftM ans : Act α) := by
  cases ans <;> exact printing fun ss => ⟨_, ss.console, rfl⟩

theorem bind {ac : Act α} {next : α → Act β} (fst : Continues ac) (rest : ∀ v, Continues (next v)) :
    Continues (ac >>= next) := by
  intro ss r aft ran ended
  rcases Action.bind_cases ran with ⟨fa, rfl, stopped⟩ | ⟨v, mid, began, ran⟩
  · exact fst stopped (by simpa using ended)
  · exact (fst began (by simp)).trans (rest v ran ended)

theorem request (asked : Request) {n : Nat} {ac : Settings → Eval α} {ans : α → Answer}
    (performs : ∀ cfg e, asked.perform cfg n e = ((ac cfg e).1.map ans, (ac cfg e).2)) :
    Continues (request ac) := by
  intro ss r aft requested ended
  rcases ran : ac ss.settings ss.engine with ⟨early, e⟩
  have perf : asked.perform ss.settings n ss.engine = (early.map ans, e) := by rw [performs, ran]
  rw [request_eq ran] at requested
  cases requested
  have answered : early.map ans ≠ .error .outOfFuel := by
    intro failed
    cases early with
    | ok v => cases failed
    | error stop =>
      cases failed
      exact ended rfl
  have reached : ReachedBy ss.settings.host ss.engine.store e.store :=
    .request .start rfl perf answered
  exact ⟨rfl, rfl, rfl, rfl, rfl, reached⟩

theorem evaluate (n : Nat) (x : Name) (own : Option Module) : Continues (evaluate n x own) := by
  intro ss r aft evd ended
  cases found : ss.engine.store.find x (ss.scopeOf own).env with
  | none =>
    rw [evaluate_of_lost found] at evd
    cases evd
    exact .print ss ss.console
  | some a =>
    rw [evaluate_of_found found] at evd
    exact request (.force (some a)) (fun _ _ => rfl) evd ended

theorem showReduced (n : Nat) (v : Value) : Continues (showReduced n v) := by
  have reads : Continues (get : Act Session) := printing fun ss => ⟨_, ss.console, rfl⟩
  have nums : Continues (numberText n v) := by
    refine reads.bind fun ss => ?_
    split
    · exact (request (.number v) fun _ _ => rfl).bind fun _ => .lift _
    · exact .pure none
  refine nums.bind fun tx => ?_
  cases tx with
  | some tx => exact .pure tx
  | none => exact (request (.normalize v) fun _ _ => rfl).bind fun _ => .pure _

theorem render (n : Nat) (v : Value) : Continues (render n v) := by
  intro ss r aft rendered ended
  rcases reduced : Session.showReduced n v ss with ⟨early, mid⟩
  unfold Session.render at rendered
  rw [reduced] at rendered
  split at rendered
  · rename_i limited
    cases limited
    have fst := Continues.showReduced n v reduced (by simp)
    have warns : ∀ nt, Continues (warn nt) := fun nt => printing fun _ => ⟨_, _, rfl⟩
    exact fst.trans ((warns _).bind (fun _ => .pure _) rendered ended)
  · cases rendered
    exact Continues.showReduced n v reduced ended

theorem line (n : Nat) (x : Name) : Continues (line n x) :=
  (Continues.evaluate n x none).bind fun v =>
    (Continues.render n v).bind fun _ => .pure _

end Continues

/-- What is printed or reported is the line of a binding or its error. -/
theorem answer_ok {aft : Session}
    (answered : answer n lk x ss = (.ok given, aft)) :
    ∃ mid cs, line n x (ss.registered lk x) = (given, mid) ∧
      given ≠ .error .outOfFuel ∧ aft = { mid with console := cs } := by
  rcases lined : line n x (ss.registered lk x) with ⟨oc, mid⟩
  rw [answer, lined] at answered
  cases oc with
  | ok tx =>
    cases answered
    exact ⟨mid, _, rfl, by simp, rfl⟩
  | error fa =>
    cases fa with
    | evaluation er tr =>
      obtain ⟨_, last, reported, told⟩ := Action.of_bind_ok answered
      have printed : last = { mid with
          console := (mid.console.throw er.notice tr false).2 } :=
        (congrArg Prod.snd reported).symm
      cases told
      exact ⟨mid, _, rfl, by simp, printed⟩
    | _ => cases answered

/-- A failure that is reported, so that the next binding can be evaluated. -/
def Reported {α : Type} (r : Except Failure α) : Prop :=
  ∀ fa, r = .error fa → ∃ er tr, fa = .evaluation er tr

theorem Reported.map {r : Except Failure α} (reported : Reported r) (change : α → β) :
    Reported (r.map change) := by
  intro fa failed
  cases r with
  | ok v => cases failed
  | error o =>
    cases failed
    exact reported _ rfl

theorem answer_of_reported (reported : Reported (line n x (ss.registered lk x)).1) :
    ∃ aft, answer n lk x ss = (.ok (line n x (ss.registered lk x)).1, aft) := by
  rcases lined : line n x (ss.registered lk x) with ⟨oc, mid⟩
  rw [lined] at reported
  rw [answer, lined]
  cases oc with
  | ok tx => exact ⟨_, rfl⟩
  | error fa =>
    obtain ⟨er, tr, rfl⟩ := reported fa rfl
    have told : reportEvaluation er tr mid = (.ok (), { mid with
        console := (mid.console.throw er.notice tr false).2 }) := by
      rw [reportEvaluation, ← mid.console.throw_evaluation er tr]
    exact ⟨_, Action.bind_ok told _⟩

section Answers

variable {last : Session} {xs : List Name}

theorem Later.answer (aft : fst.Later ss)
    (answered : Session.answer n lk x ss = (.ok given, last)) :
    fst.Later (ss.registered lk x) ∧ fst.Later last ∧
      (Session.line n x (ss.registered lk x)).1 = given := by
  obtain ⟨mid, cs, lined, ended, rfl⟩ := answer_ok answered
  have st0 : fst.Later (ss.registered lk x) := aft.trans (.print ss _)
  have whole := st0.trans ((Continues.line n x lined ended).trans (.print mid cs))
  simp_all

/-- What is told of bindings that are evaluated one after the other is what would
be told of each of them alone. -/
theorem Fresh.answers (fresh : fst.Fresh) (aft : fst.Later ss)
    {given : List (Except Failure String)}
    (answered : Session.answers n lk xs ss = (.ok given, last)) :
    List.Forall₂ (fun x told => Conclusive (Session.shown n x none fst).1 →
      told = (Session.line n x fst).1) xs given := by
  induction xs generalizing ss given with
  | nil =>
    cases answered
    exact .nil
  | cons x xs ih =>
    obtain ⟨told, mid, began, rest⟩ := Action.of_bind_ok answered
    obtain ⟨os, fi, continued, ended⟩ := Action.of_bind_ok rest
    cases ended
    obtain ⟨st0, whole, same⟩ := aft.answer began
    refine .cons (fun conclusive => ?_) (ih whole continued)
    rw [← same]
    exact fresh.line st0 conclusive

/-- Bindings that alone are printed or reported all are. -/
theorem Fresh.answers_of_reported (fresh : fst.Fresh) (aft : fst.Later ss)
    (alone : ∀ x ∈ xs, Conclusive (Session.shown n x none fst).1 ∧
      Reported (Session.shown n x none fst).1) :
    ∃ last, Session.answers n lk xs ss =
      (.ok (xs.map fun x => (Session.line n x fst).1), last) := by
  induction xs generalizing ss with
  | nil => exact ⟨ss, rfl⟩
  | cons x xs ih =>
    obtain ⟨conclusive, reported⟩ := alone x List.mem_cons_self
    have st0 : fst.Later (ss.registered lk x) := aft.trans (.print ss _)
    have same := fresh.line st0 conclusive
    have told : Reported (Session.line n x (ss.registered lk x)).1 := by
      rw [same, line_eq_shown conclusive]
      exact reported.map _
    obtain ⟨mid, answered⟩ := answer_of_reported told
    rw [same] at answered
    obtain ⟨last, os⟩ := ih (aft.answer answered).2.1
      fun o mem => alone o (List.mem_cons_of_mem x mem)
    exact ⟨last, (Action.bind_ok answered _).trans (Action.bind_ok os _)⟩

end Answers

/-- The bindings that a run evaluates. -/
def asked (xs : List Name) : List Name :=
  if xs.isEmpty then [defaultBinding] else xs

theorem run_eq (main : ss.main? = some lk) (n : Nat) (xs : List Name) :
    run n xs ss = ((fun given => given.all Except.isOk) <$> answers n lk (asked xs)) ss := by
  rw [run, Action.get_bind, main, ← runBindings_eq]
  rfl

/-- Requests do not influence each other.  After any requests, each with its own
bound on steps, a binding of a program has the same text or fails with the same
error as in the program of which nothing was evaluated, unless a bound was reached
there.  So a run prints or reports for each of its bindings what it would print or
report for that binding alone. -/
theorem requests_independent {fst : Session} (fresh : fst.Fresh) (n : Nat) :
    (∀ later, fst.Later later → ∀ x own, Conclusive (shown n x own fst).1 →
      (shown n x own later).1 = (shown n x own fst).1) ∧
    ∀ lk xs, fst.main? = some lk →
      run n xs fst = ((fun given => given.all Except.isOk) <$> answers n lk (asked xs)) fst ∧
      (∀ given last, answers n lk (asked xs) fst = (.ok given, last) →
        List.Forall₂ (fun x told => Conclusive (shown n x none fst).1 →
          told = (line n x fst).1) (asked xs) given) ∧
      ((∀ x ∈ asked xs, Conclusive (shown n x none fst).1 ∧
          Reported (shown n x none fst).1) →
        ∃ last, answers n lk (asked xs) fst =
          (.ok ((asked xs).map fun x => (line n x fst).1), last)) := by
  have st0 : fst.Later fst := .print fst fst.console
  constructor
  · intro later aft x own conclusive
    exact fresh.shown aft n x own conclusive
  · intro lk xs main
    refine ⟨run_eq main n xs, ?_, fresh.answers_of_reported st0⟩
    intro given last answered
    exact fresh.answers st0 answered

/-- The two modules of the identity, linked beside the empty table of a shell. -/
def identityLinked : Store :=
  ⟨#[.suspended (.lam "x" (.var "x")) (.root 1) (some "I"),
      .suspended (.app (.var "Id") (.var "Id")) (.root 2) (some "Main")],
    #[[], [("I", some 0)], [("Id", some 0), ("Main", some 1)]], 0⟩

def identityMain : Module :=
  ⟨"main", some "main", 2, [⟨"Main", 1, .app (.var "Id") (.var "Id"), 2⟩]⟩

/-- A session that has loaded the two modules of the identity. -/
def identitySession : Session :=
  { Session.start ⟨⟨[], "/", "/", []⟩, none, false, false, false, false⟩ with
    engine := .fresh identityLinked
    modules := [⟨"base", some "base", 1, [⟨"I", 0, .lam "x" (.var "x"), 1⟩]⟩, identityMain]
    main := some "main" }

theorem fresh_identitySession : identitySession.Fresh :=
  ⟨.resolve (.addTable .empty) (resolve_of_order order_identity), rfl⟩

/-- The identity applied to itself is shown as the identity. -/
theorem shown_identitySession : (shown 9 "Main" none identitySession).1 = .ok "x => x" := by
  decide +kernel

/-- The identity is shown as before when it was shown, and a run that asks for
it twice prints the same line twice. -/
theorem requests_independent_identity :
    identitySession.Fresh ∧ (shown 9 "Main" none identitySession).1 = .ok "x => x" ∧
    (∃ later, identitySession.Later later ∧ later = (shown 9 "Main" none identitySession).2 ∧
      (shown 9 "Main" none later).1 = .ok "x => x") ∧
    ∃ last, answers 9 identityMain ["Main", "Main"] identitySession =
      (.ok [.ok "Main = x => x", .ok "Main = x => x"], last) := by
  have tx := shown_identitySession
  have conclusive : Conclusive (shown 9 "Main" none identitySession).1 := by
    simp [tx, Conclusive]
  have reported : Reported (shown 9 "Main" none identitySession).1 := by
    simp [tx, Reported]
  have ln : (line 9 "Main" identitySession).1 = .ok "Main = x => x" := by
    rw [line_eq_shown conclusive, tx]
    decide +kernel
  have aft : identitySession.Later (shown 9 "Main" none identitySession).2 := by
    have continues : Continues (shown 9 "Main" none) :=
      (Continues.evaluate 9 "Main" none).bind fun v => Continues.showReduced 9 v
    exact continues Prod.mk.eta.symm (by simp [tx])
  obtain ⟨alone, together⟩ := requests_independent fresh_identitySession 9
  obtain ⟨_, _, answered⟩ := together identityMain ["Main", "Main"] rfl
  refine ⟨fresh_identitySession, tx, ⟨_, aft, rfl, ?_⟩, ?_⟩
  · rw [alone _ aft "Main" none conclusive, tx]
  · have both := answered (by simp [asked, conclusive, reported])
    simpa [asked, ln] using both

end Session

end CallByNeed
