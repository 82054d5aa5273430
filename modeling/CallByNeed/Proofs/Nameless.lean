import Mathlib
import CallByNeed.Machine.Store

/-!
# Terms without bound names

A nameless term refers to its binders by their distance, so that terms that
differ in the names of bound variables are equal.  Names that are bound in a
module, and variables that have no value, are referred to by the address of
their thunk.  `Term.nameless` gives the nameless form of a term.
-/

namespace CallByNeed

/-- A term in which no name is bound. -/
inductive Nameless where
  /-- The variable of an enclosing binder, counted from the innermost one. -/
  | bound (i : Nat)
  /-- What the thunk at an address stands for. -/
  | free (a : Address)
  /-- A name that is bound nowhere. -/
  | missing (x : Name)
  | lam (b : Nameless)
  | app (f arg : Nameless)
deriving DecidableEq, Repr

variable {a : Address} {t : Nameless} {dp lv : Nat} {mn : Name → Nameless}

namespace Nameless

/-- Makes room for a binder outside the innermost `depth` ones. -/
def lift : (dp : Nat) → Nameless → Nameless
  | dp, bound i => if i < dp then bound i else bound (i + 1)
  | _, free a => free a
  | _, missing x => missing x
  | dp, lam b => lam (b.lift (dp + 1))
  | dp, app f arg => app (f.lift dp) (arg.lift dp)

/-- Replaces the variable of the binder outside the innermost `depth` ones, and
removes the binder. -/
def instantiate : Nameless → (dp : Nat) → (repl : Nameless) → Nameless
  | bound i, dp, repl =>
    if i < dp then bound i
    else if i = dp then repl else bound (i - 1)
  | free a, _, _ => free a
  | missing x, _, _ => missing x
  | lam b, dp, repl =>
    lam (b.instantiate (dp + 1) (repl.lift 0))
  | app f arg, dp, repl =>
    app (f.instantiate dp repl) (arg.instantiate dp repl)

/-- Makes a free variable that of a new binder outside the innermost `depth`
ones. -/
def close (a : Address) : (dp : Nat) → Nameless → Nameless
  | dp, bound i => if i < dp then bound i else bound (i + 1)
  | dp, free o => if o = a then bound dp else free o
  | _, missing x => missing x
  | dp, lam b => lam (b.close a (dp + 1))
  | dp, app f arg =>
    app (f.close a dp) (arg.close a dp)

/-- All binders that a term refers to are in it or among `depth` further ones. -/
def ClosedAt : (dp : Nat) → Nameless → Prop
  | dp, bound i => i < dp
  | _, free _ => True
  | _, missing _ => True
  | dp, lam b => b.ClosedAt (dp + 1)
  | dp, app f arg => f.ClosedAt dp ∧ arg.ClosedAt dp

/-- A term refers to the thunk at an address. -/
def Occurs (a : Address) : Nameless → Prop
  | bound _ => False
  | free o => o = a
  | missing _ => False
  | lam b => b.Occurs a
  | app f arg => f.Occurs a ∨ arg.Occurs a

/-- The number of binders and applications. -/
def size : Nameless → Nat
  | bound _ => 0
  | free _ => 0
  | missing _ => 0
  | lam b => b.size + 1
  | app f arg => f.size + arg.size + 1

/-- A term applied to arguments, from left to right. -/
def apply (f : Nameless) (args : List Nameless) : Nameless := args.foldl app f

@[simp] theorem apply_nil (f : Nameless) : f.apply [] = f := rfl

@[simp] theorem apply_cons (f arg : Nameless) (args : List Nameless) :
    f.apply (arg :: args) = (app f arg).apply args := rfl

theorem apply_append (f : Nameless) (fr bk : List Nameless) :
    f.apply (fr ++ bk) = (f.apply fr).apply bk := List.foldl_append

theorem size_apply (f : Nameless) (args : List Nameless) :
    f.size + args.length ≤ (f.apply args).size := by
  induction args generalizing f with
  | nil => simp
  | cons arg args ih => grind [apply_cons, size]

theorem occurs_apply {f : Nameless} {args : List Nameless} :
    (f.apply args).Occurs a ↔ f.Occurs a ∨ ∃ arg ∈ args, arg.Occurs a := by
  induction args generalizing f with
  | nil => simp
  | cons arg args ih => simp [ih, Occurs, or_assoc]

theorem ClosedAt.mono (closed : t.ClosedAt few) (le : few ≤ many) :
    t.ClosedAt many := by
  induction t generalizing few many with
  | bound i => exact Nat.lt_of_lt_of_le closed le
  | free a => trivial
  | missing x => trivial
  | lam b ih => exact ih closed (Nat.succ_le_succ le)
  | app f arg ihF ihA =>
    exact ⟨ihF closed.1 le, ihA closed.2 le⟩

theorem lift_of_closedAt (closed : t.ClosedAt dp) (le : dp ≤ lv) : t.lift lv = t := by
  induction t generalizing dp lv with
  | bound i => grind [ClosedAt, lift]
  | free a => rfl
  | missing x => rfl
  | lam b ih => simp only [lift, ih closed (Nat.succ_le_succ le)]
  | app f arg ihF ihA =>
    simp only [lift, ihF closed.1 le, ihA closed.2 le]

theorem instantiate_of_closedAt (closed : t.ClosedAt dp) (le : dp ≤ lv) (repl : Nameless) :
    t.instantiate lv repl = t := by
  induction t generalizing dp lv repl with
  | bound i =>
    simp only [ClosedAt] at closed
    simp only [instantiate, if_pos (Nat.lt_of_lt_of_le closed le)]
  | free a => rfl
  | missing x => rfl
  | lam b ih => simp only [instantiate, ih closed (Nat.succ_le_succ le)]
  | app f arg ihF ihA =>
    simp only [instantiate, ihF closed.1 le, ihA closed.2 le]

theorem close_of_closedAt (closed : t.ClosedAt dp) (le : dp ≤ lv) (fresh : ¬ t.Occurs a) :
    t.close a lv = t := by
  induction t generalizing dp lv with
  | bound i => grind [ClosedAt, close]
  | free o => exact if_neg fresh
  | missing x => rfl
  | lam b ih => simp only [close, ih closed (Nat.succ_le_succ le) fresh]
  | app f arg ihF ihA =>
    simp only [Occurs, not_or] at fresh
    simp only [close, ihF closed.1 le fresh.1, ihA closed.2 le fresh.2]

/-- Closing undoes an instantiation by a variable that is new to a term. -/
theorem close_instantiate (fresh : ¬ t.Occurs a) (dp : Nat) :
    (t.instantiate dp (free a)).close a dp = t := by
  induction t generalizing dp with
  | bound i =>
    simp only [instantiate]
    split
    · simp only [close]
      rw [if_pos (by assumption)]
    · split
      · rename_i same
        simp [close, same]
      · simp only [close]
        rw [if_neg (by omega)]
        congr 1
        omega
  | free o => exact if_neg fresh
  | missing x => rfl
  | lam b ih =>
    simp only [instantiate, close, lift]
    rw [ih fresh]
  | app f arg ihF ihA =>
    simp only [Occurs, not_or] at fresh
    simp only [instantiate, close, ihF fresh.1, ihA fresh.2]

theorem close_lift (t : Nameless) (a : Address) (le : lv ≤ dp) :
    (t.lift lv).close a (dp + 1) = (t.close a dp).lift lv := by
  induction t generalizing lv dp with
  | bound i => grind [lift, close]
  | free o => grind [lift, close]
  | missing x => rfl
  | lam b ih => simp only [lift, close, ih (Nat.succ_le_succ le)]
  | app f arg ihF ihA =>
    simp only [lift, close, ihF le, ihA le]

/-- Closing a variable goes through an instantiation. -/
theorem close_instantiate_comm (t repl : Nameless) (a : Address) (le : lv ≤ dp) :
    (t.instantiate lv repl).close a dp = (t.close a (dp + 1)).instantiate lv (repl.close a dp) := by
  induction t generalizing repl lv dp with
  | bound i =>
    simp only [instantiate, close]
    split_ifs <;> simp only [instantiate, close] <;> split_ifs <;>
      first | rfl | omega | (congr 1; omega)
  | free o =>
    simp only [instantiate, close]
    split_ifs
    · simp only [instantiate]
      rw [if_neg (by omega), if_neg (by omega)]
      rfl
    · rfl
  | missing x => rfl
  | lam b ih =>
    simp only [instantiate, close, ih _ (Nat.succ_le_succ le), close_lift repl a (Nat.zero_le dp)]
  | app f arg ihF ihA =>
    simp only [instantiate, close, ihF _ le, ihA _ le]

theorem occurs_lift : (t.lift lv).Occurs a ↔ t.Occurs a := by
  induction t generalizing lv with
  | bound i =>
    simp only [lift]
    split <;> simp only [Occurs]
  | free o => rfl
  | missing x => rfl
  | lam b ih => exact ih
  | app f arg ihF ihA =>
    simp only [lift, Occurs, ihF, ihA]

theorem Occurs.instantiate (occurs : (t.instantiate lv repl).Occurs a) :
    t.Occurs a ∨ repl.Occurs a := by
  induction t generalizing repl lv with
  | bound i =>
    simp only [Nameless.instantiate] at occurs
    split at occurs
    · exact occurs.elim
    · split at occurs
      · exact .inr occurs
      · exact occurs.elim
  | free o => exact .inl occurs
  | missing x => exact .inl occurs
  | lam b ih =>
    rcases ih occurs with inside | lifted
    · exact .inl inside
    · exact .inr (occurs_lift.mp lifted)
  | app f arg ihF ihA =>
    rcases occurs with l | r
    · exact (ihF l).imp_left .inl
    · exact (ihA r).imp_left .inr

end Nameless

namespace Term

/-- The nameless form of a term under binders, the innermost one first.  Other
names have the given meaning. -/
def nameless (mn : Name → Nameless) : (bds : List Name) → Term → Nameless
  | bds, var x =>
    if x ∈ bds then .bound (bds.idxOf x) else mn x
  | bds, lam p b => .lam (b.nameless mn (p :: bds))
  | bds, app f arg =>
    .app (f.nameless mn bds) (arg.nameless mn bds)

theorem nameless_var (mn : Name → Nameless) (x : Name) : (var x).nameless mn [] = mn x := by
  simp [nameless]

theorem closedAt_nameless (closed : ∀ x, (mn x).ClosedAt 0) (bds : List Name) (t : Term) :
    (t.nameless mn bds).ClosedAt bds.length := by
  induction t generalizing bds with
  | var x =>
    simp only [nameless]
    split
    · exact List.idxOf_lt_length_of_mem (by assumption)
    · exact (closed x).mono (Nat.zero_le _)
  | lam p b ih => exact ih (p :: bds)
  | app f arg ihF ihA =>
    exact ⟨ihF bds, ihA bds⟩

theorem mem_freeNames_app {f arg : Term} :
    x ∈ (app f arg).freeNames ↔ x ∈ f.freeNames ∨ x ∈ arg.freeNames := by grind [freeNames]

theorem occurs_nameless {t : Term} (occurs : (t.nameless mn bds).Occurs a) :
    ∃ x, (mn x).Occurs a := by
  induction t generalizing bds with
  | var x =>
    simp only [nameless] at occurs
    split at occurs
    · exact occurs.elim
    · exact ⟨x, occurs⟩
  | lam p b ih => exact ih occurs
  | app f arg ihF ihA =>
    rcases occurs with l | r
    · exact ihF l
    · exact ihA r

/-- The meaning of a name after it is bound to a term. -/
def assign (mn : Name → Nameless) (x : Name) (given : Nameless) : Name → Nameless :=
  fun o => if o = x then given else mn o

/-- Instantiating the outermost binder gives its name a meaning. -/
theorem nameless_instantiate {given : Nameless} (closed : ∀ x, (mn x).ClosedAt 0)
    (givenClosed : given.ClosedAt 0) (p : Name) (bds : List Name) (t : Term) :
    (t.nameless mn (bds ++ [p])).instantiate bds.length given =
      t.nameless (assign mn p given) bds := by
  induction t generalizing bds with
  | var x =>
    by_cases inn : x ∈ bds
    · have less := List.idxOf_lt_length_of_mem inn
      simp [nameless, inn, List.idxOf_append_of_mem inn, Nameless.instantiate, less]
    · by_cases same : x = p
      · subst same
        simp [nameless, inn, List.idxOf_append_of_notMem inn, Nameless.instantiate, assign]
      · simp only [nameless, List.mem_append, inn, List.mem_singleton, same, or_self,
          if_false, assign]
        exact Nameless.instantiate_of_closedAt (closed x) (Nat.zero_le _) given
  | lam inn b ih =>
    simp only [nameless, Nameless.instantiate]
    rw [Nameless.lift_of_closedAt givenClosed (Nat.le_refl 0)]
    exact congrArg Nameless.lam (ih (inn :: bds))
  | app f arg ihF ihA =>
    simp only [nameless, Nameless.instantiate, ihF, ihA]

/-- Closing the variable that a name means binds the name. -/
theorem nameless_close {o : Name → Nameless} {bound : Name} (named : mn bound = .free a)
    (same : ∀ x, x ≠ bound → mn x = o x) (closed : ∀ x, (mn x).ClosedAt 0)
    (fresh : ∀ x, x ≠ bound → ¬ (mn x).Occurs a) (bds : List Name) (t : Term) :
    (t.nameless mn bds).close a bds.length = t.nameless o (bds ++ [bound]) := by
  induction t generalizing bds with
  | var x =>
    by_cases inn : x ∈ bds
    · have less := List.idxOf_lt_length_of_mem inn
      simp [nameless, inn, List.idxOf_append_of_mem inn, Nameless.close, less]
    · by_cases equal : x = bound
      · subst equal
        simp [nameless, inn, List.idxOf_append_of_notMem inn, named, Nameless.close]
      · simp only [nameless, List.mem_append, inn, List.mem_singleton, equal, or_self, if_false]
        rw [Nameless.close_of_closedAt (closed x) (Nat.zero_le _) (fresh x equal), same x equal]
  | lam inn b ih =>
    simp only [nameless, Nameless.close]
    grind
  | app f arg ihF ihA =>
    simp only [nameless, Nameless.close, ihF, ihA]

end Term

end CallByNeed
