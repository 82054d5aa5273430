import Mathlib
import CallByNeed.Machine.Run

/-!
# Laws of the store

What each operation of the store does to the thunk at an address.  Names are
looked up in tables alone, so that operations on thunks do not change what an
environment gives to a name.
-/

namespace CallByNeed

variable {s : Store} {a : Address} {th : Thunk}

namespace Store

/-- The number of thunks, which is the address of the next one. -/
def size (s : Store) : Nat := s.thunks.size

/-- How far the evaluation of the thunk at an address has come. -/
def phase? (s : Store) (a : Address) : Option Phase := (s.thunk? a).map Thunk.phase

theorem thunk?_lt (held : s.thunk? a = some th) : a < s.size := by
  obtain ⟨bound, _⟩ := Array.getElem?_eq_some_iff.mp held
  exact bound

theorem thunk?_of_lt (bound : a < s.size) : ∃ th, s.thunk? a = some th :=
  ⟨s.thunks[a], Array.getElem?_eq_getElem bound⟩

theorem thunk?_of_le (beyond : s.size ≤ a) : s.thunk? a = none := Array.getElem?_eq_none beyond

theorem thunk?_size (s : Store) : s.thunk? s.size = none := by
  simp [thunk?, size]

@[simp] theorem alloc_fst (s : Store) (th : Thunk) : (s.alloc th).1 = s.size := rfl

@[simp] theorem size_alloc (s : Store) (th : Thunk) : (s.alloc th).2.size = s.size + 1 := by
  simp [alloc, size]

@[simp] theorem thunk?_alloc (s : Store) (th : Thunk) (a : Address) :
    (s.alloc th).2.thunk? a = if a = s.size then some th else s.thunk? a := by
  show (s.thunks.push th)[a]? = _
  rw [Array.getElem?_push]
  rfl

theorem thunk?_alloc_of_some (held : s.thunk? a = some th) (added : Thunk) :
    (s.alloc added).2.thunk? a = some th := by
  rw [thunk?_alloc, if_neg (Nat.ne_of_lt (thunk?_lt held)), held]

@[simp] theorem tables_alloc (s : Store) (th : Thunk) : (s.alloc th).2.tables = s.tables := rfl

@[simp] theorem build_fst_form (s : Store) (form : Form) : (s.build form).1.form = form := rfl

@[simp] theorem size_build (s : Store) (form : Form) : (s.build form).2.size = s.size := rfl

@[simp] theorem thunk?_build (s : Store) (form : Form) (a : Address) :
    (s.build form).2.thunk? a = s.thunk? a := rfl

@[simp] theorem tables_build (s : Store) (form : Form) : (s.build form).2.tables = s.tables := rfl

@[simp] theorem size_update (s : Store) (a : Address) (change : Thunk → Thunk) :
    (s.update a change).size = s.size := by
  simp [update, size]

@[simp] theorem thunk?_update (s : Store) (changed : Address) (change : Thunk → Thunk)
    (a : Address) : (s.update changed change).thunk? a =
      if changed = a then (s.thunk? a).map change
      else s.thunk? a := by
  simp [update, thunk?, Array.getElem?_modify]

@[simp] theorem tables_update (s : Store) (a : Address) (change : Thunk → Thunk) :
    (s.update a change).tables = s.tables := rfl

theorem find_congr {o : Store} (same : o.tables = s.tables) (x : Name) (env : Env) :
    o.find x env = s.find x env := by
  induction env with
  | root num => simp [find, table, same]
  | layer bound th parent ih => simp [find, ih]

/-- An argument is passed on by the thunk of a bound name, suspended, or its
own value. -/
theorem delay_cases (s : Store) (t : Term) (env : Env) :
    (∃ x a, t = .var x ∧ s.find x env = some a ∧
        s.delay t env = (a, s)) ∨
      ((∀ x, t = .var x → s.find x env = none) ∧
        (∀ p b, t ≠ .lam p b) ∧
        s.delay t env = s.alloc (.suspended t env none)) ∨
      ∃ p b, t = .lam p b ∧
        s.delay t env =
          (s.build (.closure p b env)).2.alloc
            (.evaluated (s.build (.closure p b env)).1 none) := by
  cases t with
  | var x => grind [delay]
  | lam p b => exact .inr (.inr ⟨p, b, rfl, rfl⟩)
  | app f arg => exact .inr (.inl ⟨by simp, by simp, rfl⟩)

@[simp] theorem tables_delay (s : Store) (t : Term) (env : Env) :
    (s.delay t env).2.tables = s.tables := by
  obtain ⟨_, _, _, _, delayed⟩ | ⟨_, _, delayed⟩ | ⟨_, _, _, delayed⟩ :=
    s.delay_cases t env <;> simp [delayed]

theorem thunk?_delay (held : s.thunk? a = some th) (t : Term) (env : Env) :
    (s.delay t env).2.thunk? a = some th := by
  obtain ⟨_, _, _, _, delayed⟩ | ⟨_, _, delayed⟩ | ⟨_, _, _, delayed⟩ := s.delay_cases t env
  · rw [delayed, held]
  · rw [delayed]
    exact thunk?_alloc_of_some held _
  · rw [delayed]
    exact thunk?_alloc_of_some (by simpa using held) _

theorem size_le_delay (s : Store) (t : Term) (env : Env) : s.size ≤ (s.delay t env).2.size := by
  obtain ⟨_, _, _, _, delayed⟩ | ⟨_, _, delayed⟩ | ⟨_, _, _, delayed⟩ :=
    s.delay_cases t env <;> simp [delayed]

/-- A thunk that delaying an argument adds is not being evaluated, and has a
term unless it has its value. -/
theorem delay_thunk?_new (held : (s.delay t env).2.thunk? a = some th)
    (new : s.thunk? a = none) : th = .suspended t env none ∨ ∃ v, th = .evaluated v none := by
  obtain ⟨_, _, _, _, delayed⟩ | ⟨_, _, delayed⟩ | ⟨_, _, _, delayed⟩ := s.delay_cases t env
  · simp_all
  · simp_all
  · rw [delayed, thunk?_alloc] at held
    split at held
    · grind
    · simp [new] at held

end Store

namespace Thunk

@[simp] theorem phase_begin (th : Thunk) : th.begin.phase = .forcing := rfl

@[simp] theorem content_begin (th : Thunk) : th.begin.content = th.content := rfl

@[simp] theorem name_begin (th : Thunk) : th.begin.name = th.name := rfl

@[simp] theorem phase_memoize (th : Thunk) (v : Value) : (th.memoize v).phase = .forced := rfl

@[simp] theorem content_memoize (th : Thunk) (v : Value) : (th.memoize v).content = .value v := rfl

@[simp] theorem name_memoize (th : Thunk) (v : Value) : (th.memoize v).name = th.name := rfl

@[simp] theorem content_reset (th : Thunk) : th.reset.content = th.content := by
  unfold reset
  split <;> rfl

@[simp] theorem name_reset (th : Thunk) : th.reset.name = th.name := by
  unfold reset
  split <;> rfl

theorem phase_reset (th : Thunk) : th.reset.phase ≠ .forcing := by grind [reset]

theorem phase_reset_eq_forced : th.reset.phase = .forced ↔ th.phase = .forced := by
  grind [reset]

end Thunk

end CallByNeed
