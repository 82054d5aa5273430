import CallByNeed.Module.Link
import CallByNeed.Proofs.HalfForced
import CallByNeed.Proofs.Reduction

/-!
# Linked programs

Modules that are linked, and not evaluated yet, are a program: each name that
one of them declares stands for its term, in the environment of its own module.
-/

variable {en : Name × Option Address} {last : Store}

namespace CallByNeed

variable {s : Store} {num : Nat} {a : Address} {th : Option Address}

open Source

namespace Store

/-- What the names of an environment stand for. -/
def globals (s : Store) (env : Env) (x : Name) : Nameless :=
  match s.find x env with
  | some a => .free a
  | none => .missing x

/-- The nameless form of a term in an environment. -/
def source (s : Store) (env : Env) (t : Term) : Nameless := t.nameless (s.globals env) []

/-- The terms of the thunks that are there. -/
def definitions (s : Store) : Definitions := fun a =>
  ((s.thunk? a).bind Thunk.code?).map fun code => s.source code.2 code.1

/-- A store that holds linked modules, of which nothing is evaluated. -/
structure Linked (s : Store) : Prop where
  declared : ∀ {a th}, s.thunk? a = some th →
    ∃ t num x, th = .suspended t (.root num) (some x)
  bounded : ∀ {num en a}, en ∈ s.table num →
    en.2 = some a → a < s.size

theorem Linked.settled (lk : s.Linked) : s.Settled := by
  intro a forcing
  obtain ⟨th, held, phase⟩ := Option.map_eq_some_iff.mp forcing
  obtain ⟨t, num, x, rfl⟩ := lk.declared held
  cases phase

theorem Linked.writable (lk : s.Linked) : s.Writable := by
  intro a th held _
  obtain ⟨t, num, x, rfl⟩ := lk.declared held
  rfl

theorem mem_table_of_find (found : s.find x (.root num) = some a) : (x, some a) ∈ s.table num := by
  grind [find, Table.find, Option.join_eq_some_iff, List.lookup_eq_some_iff]

theorem Linked.find_lt (lk : s.Linked) (found : s.find x (.root num) = some a) : a < s.size :=
  lk.bounded (mem_table_of_find found) rfl

theorem Linked.definitions_isSome (lk : s.Linked) : (s.definitions a).isSome ↔ a < s.size := by
  constructor
  · intro defined
    cases held : s.thunk? a with
    | none => simp [definitions, held] at defined
    | some th => exact thunk?_lt held
  · intro bound
    obtain ⟨th, held⟩ := thunk?_of_lt bound
    obtain ⟨t, num, x, rfl⟩ := lk.declared held
    simp [definitions, held, Thunk.code?, Thunk.suspended]

theorem closedAt_globals (s : Store) (env : Env) (x : Name) : (s.globals env x).ClosedAt 0 := by
  unfold globals
  split <;> trivial

theorem Linked.occurs_source (lk : s.Linked)
    (occurs : (s.source (.root num) t).Occurs a) : a < s.size := by
  obtain ⟨x, inside⟩ := Term.occurs_nameless occurs
  unfold globals at inside
  split at inside
  · rename_i found
    exact inside ▸ lk.find_lt found
  · exact inside.elim

/-- The names of linked modules stand for terms over names of linked modules. -/
theorem Linked.selfContained (lk : s.Linked) : s.definitions.SelfContained := by
  have code : ∀ {a t}, s.definitions a = some t → ∃ b num, t = s.source (.root num) b := by
    intro a t defined
    obtain ⟨⟨b, env⟩, held, rfl⟩ := Option.map_eq_some_iff.mp defined
    obtain ⟨th, there, suspended⟩ := Option.bind_eq_some_iff.mp held
    obtain ⟨_, num, _, rfl⟩ := lk.declared there
    cases suspended
    grind
  constructor
  · intro a t defined
    obtain ⟨b, num, rfl⟩ := code defined
    exact Term.closedAt_nameless (s.closedAt_globals _) [] b
  · intro a t defined o occurs
    obtain ⟨b, num, rfl⟩ := code defined
    exact lk.definitions_isSome.mpr (lk.occurs_source occurs)

end Store

/-- All declarations of modules stand in a store as they were written. -/
def Modules.Declared (ms : Modules) (s : Store) : Prop :=
  ∀ lk ∈ ms, ∀ d ∈ lk.declarations, s.thunk? d.thunk = some (.suspended d.term lk.env (some d.name))

/-- Modules that were linked into a store, some of them after others. -/
inductive Program : Modules → Store → Prop where
  | empty : Program [] .empty
  /-- A table without names is added, for a module that is no file. -/
  | addTable {ms s} (pg : Program ms s) : Program ms (s.addTable []).2
  | resolve {ms s srcs added aft} (pg : Program ms s)
      (rsd : resolve srcs ms s = .ok (added, aft)) :
      Program (added.foldl Modules.insert ms) aft

/-- Thunks that are there stay as they are. -/
def Store.Keeps (bef aft : Store) : Prop :=
  ∀ {a th}, bef.thunk? a = some th → aft.thunk? a = some th

variable {ms added : Modules} {aft : Store} {x : Name}

theorem Modules.Declared.keeps {bef : Store} (dcd : ms.Declared bef) (keeps : bef.Keeps aft) :
    ms.Declared aft :=
  fun lk mem d listed => keeps (dcd lk mem d listed)

theorem Modules.mem_insert {added lk : Module} (mem : lk ∈ ms.insert added) :
    lk ∈ ms ∨ lk = added := by grind [Modules.insert]

theorem Modules.Declared.insert {added : Module} (dcd : ms.Declared s)
    (new : Modules.Declared [added] s) : (ms.insert added).Declared s := by
  intro lk mem
  rcases Modules.mem_insert mem with listed | rfl
  · exact dcd lk listed
  · exact new lk (List.mem_singleton.mpr rfl)

theorem Modules.Declared.insertAll (dcd : ms.Declared s) (new : added.Declared s) :
    Modules.Declared (added.foldl Modules.insert ms) s := by
  induction added generalizing ms with
  | nil => exact dcd
  | cons fst rest ih =>
    have single : Modules.Declared [fst] s := by
      intro o mem
      rw [List.mem_singleton] at mem
      exact new o (mem ▸ List.mem_cons_self)
    exact ih (dcd.insert single) fun o mem => new o (List.mem_cons_of_mem fst mem)

theorem Modules.Declared.find {id : String} {lk : Module} (dcd : ms.Declared s)
    (found : ms.find id = some lk) : Modules.Declared [lk] s := by
  intro o mem
  rw [List.mem_singleton] at mem
  subst mem
  exact dcd o (List.mem_of_find?_eq_some found)

/-- What linking a part of a program does: the store is still one of linked
modules, and what was there is kept. -/
structure Store.Extends (bef aft : Store) : Prop where
  linked : aft.Linked
  keeps : bef.Keeps aft

namespace Store

theorem Linked.refl (lk : s.Linked) : s.Extends s := ⟨lk, id⟩

theorem Extends.trans {fst snd thd : Store} (early : fst.Extends snd) (late : snd.Extends thd) :
    fst.Extends thd :=
  ⟨late.linked, fun held => late.keeps (early.keeps held)⟩

theorem Linked.addTable (lk : s.Linked) : s.Extends (s.addTable []).2 := by
  refine ⟨⟨fun held => lk.declared held, fun {num en a} mem => ?_⟩, id⟩
  have old : en ∈ s.table num := by
    simp only [table, Store.addTable, Array.getD_eq_getD_getElem?, Array.getElem?_push] at mem ⊢
    grind
  exact lk.bounded old

theorem Linked.alloc (lk : s.Linked) (t : Term) (num : Nat) (x : Name) :
    s.Extends (s.alloc (.suspended t (.root num) (some x))).2 := by
  refine ⟨⟨fun {a th} held => ?_, fun {o en a} mem given => ?_⟩,
    fun held => thunk?_alloc_of_some held _⟩
  · rw [thunk?_alloc] at held
    split at held
    · grind
    · exact lk.declared held
  · rw [size_alloc]
    exact Nat.lt_succ_of_lt (lk.bounded mem given)

theorem mem_bind {table : Table} (mem : en ∈ table.bind x th) :
    en ∈ table ∨ en = (x, th) := by
  grind [Table.bind]

theorem mem_table_bind {o : Nat}
    (mem : en ∈ (s.bind num x th).table o) : en ∈ s.table o ∨ en = (x, th) := by
  simp only [table, Store.bind, Array.getD_eq_getD_getElem?, Array.getElem?_modify] at mem ⊢
  grind [mem_bind]

theorem Linked.bind (lk : s.Linked) (bounded : ∀ a, th = some a → a < s.size) (num : Nat)
    (x : Name) : s.Extends (s.bind num x th) := by
  refine ⟨⟨fun held => lk.declared held, fun {o en a} mem given => ?_⟩, id⟩
  rcases mem_table_bind mem with listed | rfl
  · exact lk.bounded listed given
  · exact bounded a given

end Store

section

variable (wlk : s.Linked)

include wlk

variable {lk : Module}

theorem Module.declare_extends (bounded : ∀ a, th = some a → a < s.size)
    (bound : lk.declare x th s = .ok aft) : s.Extends aft := by
  unfold Module.declare at bound
  split at bound
  · cases bound
  · cases bound
    exact wlk.bind bounded _ _

theorem Module.bindItems_extends {o : Module} (dcd : Modules.Declared [o] s)
    (bound : lk.bindItems o its s = .ok aft) : s.Extends aft := by
  induction its generalizing s with
  | nil =>
    cases bound
    exact wlk.refl
  | cons itm its ih =>
    rw [Module.bindItems] at bound
    obtain ⟨mid, fst, rest⟩ := ok_of_bind bound
    have bounded : ∀ a, (o.declaration? itm.name).map Declaration.thunk = some a → a < s.size := by
      intro a given
      obtain ⟨d, found, rfl⟩ := Option.map_eq_some_iff.mp given
      exact Store.thunk?_lt (dcd o (List.mem_singleton.mpr rfl) d (List.mem_of_find?_eq_some found))
    have step := Module.declare_extends wlk bounded fst
    exact step.trans (ih step.linked (dcd.keeps step.keeps) rest)

theorem linkImports_extends {ims : List Import} (dcd : ms.Declared s)
    (impd : linkImports lk ms ims s = .ok aft) : s.Extends aft := by
  induction ims generalizing s with
  | nil =>
    cases impd
    exact wlk.refl
  | cons stm stms ih =>
    rw [linkImports] at impd
    split at impd
    · cases impd
    · rename_i ex found
      obtain ⟨mid, fst, rest⟩ := ok_of_bind impd
      obtain ⟨_, _, bound⟩ := ok_of_bind fst
      have step := Module.bindItems_extends wlk (dcd.find found) bound
      exact step.trans (ih step.linked (dcd.keeps step.keeps) rest)

theorem Module.define_extends {aft : Module}
    (dcd : Modules.Declared [lk] s) (defined : lk.define bn s = .ok (a, aft, last)) :
    s.Extends last ∧ Modules.Declared [aft] last := by
  rw [Module.define] at defined
  obtain ⟨mid, bound, same⟩ := ok_of_bind defined
  cases same
  have added := wlk.alloc bn.term lk.table bn.name
  have bounded : ∀ a, some s.size = some a → a <
      (s.alloc (.suspended bn.term lk.env (some bn.name))).2.size := by
    simp
  have step := Module.declare_extends added.linked bounded bound
  refine ⟨added.trans step, fun o mem d listed => ?_⟩
  rw [List.mem_singleton] at mem
  subst mem
  rcases List.mem_append.mp listed with old | new
  · exact step.keeps (added.keeps (dcd lk (List.mem_singleton.mpr rfl) d old))
  · rw [List.mem_singleton] at new
    subst new
    exact step.keeps ((Store.thunk?_alloc _ _ _).trans (if_pos rfl))

theorem linkBindings_extends {aft : Module}
    (dcd : Modules.Declared [lk] s) (bound : linkBindings lk bns s = .ok (aft, last)) :
    s.Extends last ∧ Modules.Declared [aft] last := by
  induction bns generalizing lk s with
  | nil =>
    cases bound
    exact ⟨wlk.refl, dcd⟩
  | cons bn bns ih =>
    rw [linkBindings] at bound
    obtain ⟨⟨a, next, mid⟩, fst, rest⟩ := ok_of_bind bound
    obtain ⟨step, nextDeclared⟩ := Module.define_extends wlk dcd fst
    obtain ⟨sts, lastDeclared⟩ := ih step.linked nextDeclared rest
    exact ⟨step.trans sts, lastDeclared⟩

theorem link_extends (dcd : ms.Declared s)
    (done : link src ms s = .ok (lk, aft)) : s.Extends aft ∧ Modules.Declared [lk] aft := by
  rw [link] at done
  obtain ⟨mid, impd, bound⟩ := ok_of_bind done
  have table := wlk.addTable
  have ims := linkImports_extends table.linked (dcd.keeps table.keeps) impd
  have fresh : Modules.Declared [(Module.create src.id (some src.path) s).1]
      mid := by
    intro o mem d listed
    rw [List.mem_singleton] at mem
    subst mem
    cases listed
  obtain ⟨bns, linkedDeclared⟩ := linkBindings_extends ims.linked fresh bound
  exact ⟨(table.trans ims).trans bns, linkedDeclared⟩

theorem linkInOrder_extends {r : Modules} (dcd : ms.Declared s)
    (addedDeclared : added.Declared s) (done : linkInOrder srcs ids ms added s = .ok (r, aft)) :
    s.Extends aft ∧ r.Declared aft := by
  induction ids generalizing ms added s with
  | nil =>
    cases done
    exact ⟨wlk.refl, addedDeclared⟩
  | cons id ids ih =>
    rw [linkInOrder] at done
    split at done
    · cases done
    · obtain ⟨⟨lk, mid⟩, fst, rest⟩ := ok_of_bind done
      obtain ⟨step, new⟩ := link_extends wlk dcd fst
      obtain ⟨sts, resultDeclared⟩ := ih step.linked
        ((dcd.keeps step.keeps).insert new) ((addedDeclared.keeps step.keeps).insert new) rest
      exact ⟨step.trans sts, resultDeclared⟩

theorem resolve_extends (dcd : ms.Declared s)
    (rsd : resolve srcs ms s = .ok (added, aft)) : s.Extends aft ∧ added.Declared aft := by
  rw [resolve] at rsd
  obtain ⟨ord, _, done⟩ := ok_of_bind rsd
  exact linkInOrder_extends wlk dcd (fun _ mem => by cases mem) done

end

namespace Program

theorem linked_declared (pg : Program ms s) : s.Linked ∧ ms.Declared s := by
  induction pg with
  | empty => exact ⟨⟨by simp [Store.thunk?, Store.empty], by simp [Store.table, Store.empty]⟩,
      fun _ mem => by cases mem⟩
  | addTable _ ih => exact ⟨ih.1.addTable.linked, ih.2.keeps ih.1.addTable.keeps⟩
  | resolve _ rsd ih =>
    obtain ⟨step, new⟩ := resolve_extends ih.1 ih.2 rsd
    exact ⟨step.linked, (ih.2.keeps step.keeps).insertAll new⟩

theorem linked (pg : Program ms s) : s.Linked := pg.linked_declared.1

end Program

/-- Two modules: one declares the identity, and the other imports it under
another name. -/
def identitySources : Sources :=
  [⟨"base", "base", [], [⟨"I", .lam "x" (.var "x"), 1⟩]⟩,
    ⟨"main", "main", [⟨[⟨"I", "Id"⟩], "base", 1⟩], [⟨"Main", .app (.var "Id") (.var "Id"), 2⟩]⟩]

def identityStore : Store :=
  ⟨#[.suspended (.lam "x" (.var "x")) (.root 0) (some "I"),
      .suspended (.app (.var "Id") (.var "Id")) (.root 1) (some "Main")],
    #[[("I", some 0)], [("Id", some 0), ("Main", some 1)]], 0⟩

def identityModules : Modules :=
  [⟨"base", some "base", 0, [⟨"I", 0, .lam "x" (.var "x"), 1⟩]⟩,
    ⟨"main", some "main", 1, [⟨"Main", 1, .app (.var "Id") (.var "Id"), 2⟩]⟩]

/-- Modules are linked in the order of their imports. -/
theorem resolve_of_order {order : Except LinkError (List String)}
    (ordered : dependencyOrder srcs [] = order) :
    resolve srcs [] s = order >>= fun ids => linkInOrder srcs ids [] [] s := by
  have all : srcs.filter (fun src => !Modules.contains [] src.id) = srcs :=
    List.filter_eq_self.mpr fun _ _ => rfl
  simp only [resolve, all, List.map_nil, ordered]

theorem order_identity : dependencyOrder identitySources [] = .ok ["base", "main"] := by
  simp [dependencyOrder, visitAll, visitImports, identitySources, importedIds]
  rfl

theorem resolve_identity :
    resolve identitySources [] .empty = .ok (identityModules, identityStore) :=
  resolve_of_order order_identity

theorem program_identity : Program identityModules identityStore := .resolve .empty resolve_identity

end CallByNeed
