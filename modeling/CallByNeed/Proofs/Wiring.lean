import CallByNeed.Proofs.Completions
import CallByNeed.Proofs.ImportOrder
import CallByNeed.Proofs.Program

/-!
# How modules share thunks

Each declaration of a linked module has a thunk of its own, and each name of a
module stands for the thunk of a declaration: an imported name for the
exporter's.  `Wired` says so of modules in a store, whatever has been evaluated,
and linking more modules and evaluating keep it.
-/

namespace CallByNeed

open Source

/-! ### Tables -/

variable {x : Name} {a : Address} {s : Store} {num : Nat} {lk : Module}
  {its : List ImportItem} {ms : List Module} {added : Modules}

theorem Table.find_bind_of_new {table : Table} (new : x ∉ table.names) (th : Option Address)
    (o : Name) : (table.bind x th).find o = if o = x then th else table.find o := by
  have appended : table.bind x th = table ++ [(x, th)] := by
    simp [Table.bind, new]
  rw [appended, Table.find, List.lookup_append]
  by_cases same : o = x
  · subst same
    have absent : table.lookup o = none := by
      rw [List.lookup_eq_none_iff]
      intro en mem
      rw [bne_iff_ne]
      rintro rfl
      exact new (List.mem_map_of_mem mem)
    simp [absent]
  grind [Table.find]

theorem Table.mem_names_of_find {table : Table} (found : table.find x = some a) :
    x ∈ table.names := by
  grind [Table.find, Option.join_eq_some_iff, List.lookup_eq_some_iff, Table.names]

namespace Store

theorem table_addTable (s : Store) (num : Nat) : (s.addTable []).2.table num = s.table num := by
  simp only [table, addTable, Array.getD_eq_getD_getElem?, Array.getElem?_push]
  grind

theorem table_bind (placed : num < s.tables.size) (x : Name) (th : Option Address) (o : Nat) :
    (s.bind num x th).table o = if o = num then (s.table num).bind x th else s.table o := by
  simp only [table, bind, Array.getD_eq_getD_getElem?, Array.getElem?_modify]
  grind

theorem find_bind_of_new (placed : num < s.tables.size) (new : x ∉ (s.table num).names)
    (th : Option Address) (o : Name) (rt : Nat) :
    (s.bind num x th).find o (.root rt) = if rt = num ∧ o = x then th else s.find o (.root rt) := by
  grind [find, table_bind, Table.find_bind_of_new]

theorem size_tables_bind (s : Store) (num : Nat) (x : Name) (th : Option Address) :
    (s.bind num x th).tables.size = s.tables.size := by
  simp [bind]

end Store

/-! ### Modules in a store -/

/-- The declarations of modules hold their own thunks, and all names of the
modules stand for thunks of declarations. -/
structure Wired (ms : List Module) (s : Store) : Prop where
  placed : ∀ lk ∈ ms, lk.table < s.tables.size
  holds : ∀ lk ∈ ms, ∀ d ∈ lk.declarations,
    ∃ th, s.thunk? d.thunk = some th ∧
      th.name = some d.name ∧
      (th.phase ≠ .forced → th.content = .code d.term lk.env)
  own : ∀ lk ∈ ms, ∀ d ∈ lk.declarations, s.find d.name lk.env = some d.thunk
  shared : ∀ lk ∈ ms, ∀ en ∈ s.table lk.table,
    ∃ owner ∈ ms, ∃ d ∈ owner.declarations, en.2 = some d.thunk
  distinct : ((ms.flatMap Module.declarations).map Declaration.thunk).Nodup

/-- A module with one more declaration. -/
def Module.adding (lk : Module) (d : Declaration) : Module :=
  { lk with declarations := lk.declarations ++ [d] }

/-- A thunk is that of a declaration. -/
def Owned (ms : List Module) (a : Address) : Prop := ∃ own ∈ ms, ∃ d ∈ own.declarations, a = d.thunk

namespace Wired

variable {bef aft : Store}

theorem perm {o : List Module} (wired : Wired ms s) (same : ms.Perm o) : Wired o s where
  placed lk mem := wired.placed lk (same.mem_iff.mpr mem)
  holds lk mem := wired.holds lk (same.mem_iff.mpr mem)
  own lk mem := wired.own lk (same.mem_iff.mpr mem)
  shared lk mem en listed := by
    obtain ⟨owner, known, found⟩ := wired.shared lk (same.mem_iff.mpr mem) en listed
    grind
  distinct := by
    have ds := (same.flatMap_right Module.declarations).map Declaration.thunk
    exact ds.nodup_iff.mp wired.distinct

/-- Modules stay wired when their tables stay as they are and their thunks keep
their names and, as long as they are not forced, their terms. -/
theorem transport (wired : Wired ms bef) (size : bef.tables.size ≤ aft.tables.size)
    (tbs : ∀ lk ∈ ms, aft.table lk.table = bef.table lk.table)
    (held : ∀ {a th}, bef.thunk? a = some th →
      ∃ later, aft.thunk? a = some later ∧ later.name = th.name ∧
        (later.phase ≠ .forced → th.phase ≠ .forced ∧ later.content = th.content)) :
    Wired ms aft where
  placed lk mem := Nat.lt_of_lt_of_le (wired.placed lk mem) size
  holds lk mem d dcd := by
    obtain ⟨th, heldBefore, x, code⟩ := wired.holds lk mem d dcd
    grind
  own lk mem d dcd := by
    have found := wired.own lk mem d dcd
    grind [Module.env, Store.find]
  shared lk mem en listed := by
    rw [tbs lk mem] at listed
    exact wired.shared lk mem en listed
  distinct := wired.distinct

theorem keeps (wired : Wired ms bef) (size : bef.tables.size ≤ aft.tables.size)
    (tbs : ∀ lk ∈ ms, aft.table lk.table = bef.table lk.table) (keeps : bef.Keeps aft) :
    Wired ms aft :=
  wired.transport size tbs fun held => ⟨_, keeps held, rfl, fun unforced => ⟨unforced, rfl⟩⟩

theorem logs (wired : Wired ms bef) {log : List Address} (logs : bef.Logs log aft) :
    Wired ms aft := by
  refine wired.transport (by rw [logs.tables]) (fun lk _ => ?_) fun {a th} held => ?_
  · rw [Store.table, Store.table, logs.tables]
  · obtain ⟨later, heldAfter, x, same, ct, _⟩ := logs.held held
    grind

theorem lt_size (wired : Wired ms s) (owned : Owned ms a) : a < s.size := by
  obtain ⟨own, mem, d, dcd, rfl⟩ := owned
  obtain ⟨th, held, _⟩ := wired.holds own mem d dcd
  exact Store.thunk?_lt held

/-- A new name is none of those that declarations have in its table. -/
theorem ne_of_new (wired : Wired ms s) (new : x ∉ (s.table num).names) (mem : lk ∈ ms)
    {d : Declaration} (dcd : d ∈ lk.declarations) : ¬ (lk.table = num ∧ d.name = x) := by
  rintro ⟨rfl, rfl⟩
  exact new (Table.mem_names_of_find (wired.own lk mem d dcd))

theorem bind (wired : Wired ms s) (placed : num < s.tables.size) (new : x ∉ (s.table num).names)
    (owned : Owned ms a) : Wired ms (s.bind num x (some a)) where
  placed lk mem := by
    rw [Store.size_tables_bind]
    exact wired.placed lk mem
  holds := wired.holds
  own lk mem d dcd := by
    rw [Module.env, Store.find_bind_of_new placed new, if_neg (wired.ne_of_new new mem dcd)]
    exact wired.own lk mem d dcd
  shared lk mem en listed := by
    rcases Store.mem_table_bind listed with old | rfl
    · exact wired.shared lk mem en old
    · obtain ⟨owner, known, d, dcd, rfl⟩ := owned
      grind
  distinct := wired.distinct

theorem adding (wired : Wired (lk :: ms) s) {d : Declaration}
    (held : s.thunk? d.thunk = some (.suspended d.term lk.env (some d.name)))
    (unowned : ¬ Owned (lk :: ms) d.thunk) (new : d.name ∉ (s.table lk.table).names) :
    Wired (lk.adding d :: ms) (s.bind lk.table d.name (some d.thunk)) := by
  have placed : lk.table < s.tables.size := wired.placed lk List.mem_cons_self
  constructor
  · intro o mem
    rw [Store.size_tables_bind]
    rcases List.mem_cons.mp mem with rfl | later
    · exact placed
    · exact wired.placed o (List.mem_cons_of_mem _ later)
  · intro o mem former listed
    rcases List.mem_cons.mp mem with rfl | later
    · rcases List.mem_append.mp listed with old | last
      · exact wired.holds lk List.mem_cons_self former old
      · rw [List.mem_singleton] at last
        subst last
        exact ⟨_, held, rfl, fun _ => rfl⟩
    · exact wired.holds o (List.mem_cons_of_mem _ later) former listed
  · intro o mem former listed
    rw [Module.env, Store.find_bind_of_new placed new]
    rcases List.mem_cons.mp mem with rfl | later
    · rcases List.mem_append.mp listed with old | last
      · exact (if_neg (wired.ne_of_new new List.mem_cons_self old)).trans
          (wired.own lk List.mem_cons_self former old)
      · rw [List.mem_singleton] at last
        subst last
        exact if_pos ⟨rfl, rfl⟩
    · have ely := List.mem_cons_of_mem lk later
      rw [if_neg (wired.ne_of_new new ely listed)]
      exact wired.own o ely former listed
  · have known : ∀ o ∈ lk.adding d :: ms, ∃ former ∈ lk :: ms, o.table = former.table := by
      intro o mem
      rcases List.mem_cons.mp mem with rfl | later
      · exact ⟨lk, List.mem_cons_self, rfl⟩
      grind
    intro o mem en listed
    obtain ⟨former, there, same⟩ := known o mem
    rcases Store.mem_table_bind listed with old | rfl
    · rw [same] at old
      obtain ⟨own, knownOwner, fst, dcd, given⟩ := wired.shared former there en old
      rcases List.mem_cons.mp knownOwner with rfl | later
      · exact ⟨_, List.mem_cons_self, fst, List.mem_append_left _ dcd, given⟩
      grind
    · exact ⟨_, List.mem_cons_self, d, List.mem_append_right _ List.mem_cons_self, rfl⟩
  · have unused : d.thunk ∉ ((lk :: ms).flatMap Module.declarations).map Declaration.thunk := by
      intro mem
      obtain ⟨o, listed, same⟩ := List.mem_map.mp mem
      obtain ⟨own, known, dcd⟩ := List.mem_flatMap.mp listed
      exact unowned ⟨own, known, o, dcd, same.symm⟩
    refine List.Perm.nodup_iff ?_ |>.mp (List.nodup_cons.mpr ⟨unused, wired.distinct⟩)
    simp only [List.flatMap_cons, List.map_append, Module.adding, List.map_cons,
      List.append_assoc, List.singleton_append]
    exact List.perm_middle.symm

end Wired

/-! ### Linking -/

/-- Names are bound in one table, and thunks are added for declarations. -/
structure Store.Binds (num : Nat) (bef aft : Store) : Prop where
  keeps : bef.Keeps aft
  fresh : ∀ {a th}, bef.thunk? a = none → aft.thunk? a = some th →
    ∃ t env x, th = .suspended t env (some x)
  others : ∀ o, o ≠ num → aft.table o = bef.table o
  size : aft.tables.size = bef.tables.size

namespace Store.Binds

variable {fst snd thd : Store}

theorem refl (num : Nat) (s : Store) : Store.Binds num s s where
  keeps := id
  fresh new held := by simp [new] at held
  others _ _ := rfl
  size := rfl

theorem trans (early : Store.Binds num fst snd) (late : Store.Binds num snd thd) :
    Store.Binds num fst thd where
  keeps held := late.keeps (early.keeps held)
  fresh {a th} new held := by
    cases between : snd.thunk? a with
    | none => exact late.fresh between held
    | some mid =>
      have same := late.keeps between
      rw [held] at same
      cases same
      exact early.fresh new between
  others o apart := (late.others o apart).trans (early.others o apart)
  size := late.size.trans early.size

theorem bind (num : Nat) (s : Store) (x : Name) (th : Option Address) :
    Store.Binds num s (s.bind num x th) where
  keeps := id
  fresh new held := by
    rw [show (s.bind num x th).thunk? _ = s.thunk? _ from rfl, new] at held
    cases held
  others o apart := by
    simp [table, Store.bind, Array.getD_eq_getD_getElem?, Array.getElem?_modify, apart.symm]
  size := s.size_tables_bind num x th

theorem alloc (num : Nat) (s : Store) (t : Term) (env : Env) (x : Name) :
    Store.Binds num s (s.alloc (.suspended t env (some x))).2 where
  keeps held := thunk?_alloc_of_some held _
  fresh new held := by grind [thunk?_alloc]
  others _ _ := rfl
  size := rfl

end Store.Binds

namespace Module

variable {o : Module} {aft : Store}

theorem declare_eq {th : Option Address} (dcd : lk.declare x th s = .ok aft) :
    x ∉ (s.table lk.table).names ∧ aft = s.bind lk.table x th := by
  unfold declare at dcd
  split at dcd
  · cases dcd
  · rename_i new
    cases dcd
    refine ⟨fun mem => new ?_, rfl⟩
    rw [List.contains_iff_mem]
    exact mem

theorem declaration?_of_exports (exported : o.exports.contains x) :
    ∃ d, o.declaration? x = some d ∧ d ∈ o.declarations := by
  rw [List.contains_iff_mem, exports, List.mem_map] at exported
  obtain ⟨d, listed, same⟩ := exported
  cases found : o.declaration? x with
  | none =>
    have differs := List.find?_eq_none.mp found d listed
    simp [same] at differs
  | some fst => exact ⟨fst, rfl, List.mem_of_find?_eq_some found⟩

theorem checkItems_exports {given : List Name} (checked : lk.checkItems o s given its = .ok ()) :
    ∀ itm ∈ its, o.exports.contains itm.name := by
  induction its generalizing given with
  | nil => simp
  | cons itm its ih => grind [checkItems]

theorem bindItems_wired (wired : Wired ms s) (placed : lk.table < s.tables.size) (known : o ∈ ms)
    (exported : ∀ itm ∈ its, o.exports.contains itm.name) (bound : lk.bindItems o its s = .ok aft) :
    Wired ms aft ∧ Store.Binds lk.table s aft := by
  induction its generalizing s with
  | nil =>
    cases bound
    exact ⟨wired, .refl _ _⟩
  | cons itm its ih =>
    rw [bindItems] at bound
    obtain ⟨mid, fst, rest⟩ := ok_of_bind bound
    obtain ⟨d, found, listed⟩ := declaration?_of_exports (exported itm List.mem_cons_self)
    rw [found] at fst
    obtain ⟨new, rfl⟩ := declare_eq fst
    have step : Store.Binds lk.table s _ := .bind _ _ itm.localName (some d.thunk)
    have bound := wired.bind placed new ⟨o, known, d, listed, rfl⟩
    obtain ⟨last, sts⟩ := ih bound (by rw [step.size]; exact placed)
      (fun itm mem => exported itm (List.mem_cons_of_mem _ mem)) rest
    exact ⟨last, step.trans sts⟩

theorem importFrom_wired (wired : Wired ms s) (placed : lk.table < s.tables.size) (known : o ∈ ms)
    (impd : lk.importFrom o its s = .ok aft) : Wired ms aft ∧ Store.Binds lk.table s aft := by
  rw [importFrom] at impd
  obtain ⟨_, checked, bound⟩ := ok_of_bind impd
  grind [bindItems_wired, checkItems_exports]

theorem define_wired {bn : Binding} {next : Module} (wired : Wired (lk :: ms) s)
    (defined : lk.define bn s = .ok (a, next, aft)) :
    Wired (next :: ms) aft ∧ Store.Binds lk.table s aft ∧
      next.table = lk.table ∧ next.id = lk.id := by
  rw [define] at defined
  obtain ⟨mid, bound, same⟩ := ok_of_bind defined
  obtain ⟨new, rfl⟩ := declare_eq bound
  cases same
  have added := Store.Binds.alloc lk.table s bn.term lk.env bn.name
  have allocated : Wired (lk :: ms) (s.alloc (.suspended bn.term lk.env
      (some bn.name))).2 := wired.keeps (Nat.le_refl _) (fun _ _ => rfl) added.keeps
  have unowned : ¬ Owned (lk :: ms) s.size := fun owned =>
    Nat.lt_irrefl _ (wired.lt_size owned)
  have held : (s.alloc (.suspended bn.term lk.env (some bn.name))).2.thunk?
      s.size = some (.suspended bn.term lk.env (some bn.name)) :=
    (Store.thunk?_alloc _ _ _).trans (if_pos rfl)
  have dcd := @Wired.adding _ _ _ allocated ⟨bn.name, s.size, bn.term, bn.line⟩ held unowned new
  exact ⟨dcd, added.trans (.bind ..), rfl, rfl⟩

end Module

/-- Modules are added: their tables are new, and so are the thunks of their
declarations. -/
structure Store.Links (bef aft : Store) : Prop where
  keeps : bef.Keeps aft
  fresh : ∀ {a th}, bef.thunk? a = none → aft.thunk? a = some th →
    ∃ t env x, th = .suspended t env (some x)
  tables : ∀ num, num < bef.tables.size → aft.table num = bef.table num
  size : bef.tables.size ≤ aft.tables.size

namespace Store

theorem Links.refl (s : Store) : s.Links s where
  keeps := id
  fresh new held := by simp [new] at held
  tables _ _ := rfl
  size := Nat.le_refl _

theorem Links.trans {fst snd thd : Store} (early : fst.Links snd) (late : snd.Links thd) :
    fst.Links thd where
  keeps held := late.keeps (early.keeps held)
  fresh {a th} new held := by
    cases between : snd.thunk? a with
    | none => exact late.fresh between held
    | some mid =>
      have same := late.keeps between
      rw [held] at same
      cases same
      exact early.fresh new between
  tables num placed :=
    (late.tables num (Nat.lt_of_lt_of_le placed early.size)).trans (early.tables num placed)
  size := Nat.le_trans early.size late.size

/-- Binding names in a new table leaves the others as they are. -/
theorem Binds.links {aft : Store} (binds : Store.Binds s.tables.size (s.addTable []).2 aft) :
    s.Links aft where
  keeps held := binds.keeps held
  fresh new held := binds.fresh new held
  tables num placed := (binds.others num (Nat.ne_of_lt placed)).trans (s.table_addTable num)
  size := by
    rw [binds.size, addTable, Array.size_push]
    exact Nat.le_succ _

end Store

theorem Wired.links {bef aft : Store} (wired : Wired ms bef) (links : bef.Links aft) :
    Wired ms aft :=
  wired.keeps links.size (fun lk mem => links.tables lk.table (wired.placed lk mem)) links.keeps

theorem Wired.addTable (wired : Wired ms s) : Wired ms (s.addTable []).2 :=
  wired.keeps (by simp [Store.addTable]) (fun lk _ => s.table_addTable lk.table) id

theorem Wired.create (wired : Wired ms s) (id : String) (ph : Option String) :
    Wired ((Module.create id ph s).1 :: ms) (Module.create id ph s).2 := by
  have grown := wired.addTable
  constructor
  · intro lk mem
    rcases List.mem_cons.mp mem with rfl | later
    · simp [Module.create, Store.addTable]
    · exact grown.placed lk later
  · intro lk mem d dcd
    rcases List.mem_cons.mp mem with rfl | later
    · cases dcd
    · exact grown.holds lk later d dcd
  · intro lk mem d dcd
    rcases List.mem_cons.mp mem with rfl | later
    · cases dcd
    · exact grown.own lk later d dcd
  · intro lk mem en listed
    rcases List.mem_cons.mp mem with rfl | later
    · have empty : (s.addTable []).2.table s.tables.size = [] := by
        rw [s.table_addTable]
        simp [Store.table]
      exact absurd (empty ▸ listed : en ∈ []) List.not_mem_nil
    · obtain ⟨own, known, found⟩ := grown.shared lk later en listed
      grind
  · exact grown.distinct

section Linking

variable {ms : Modules} {known : List Module} {aft : Store}

theorem linkImports_wired {ims : List Import} (wired : Wired known s)
    (placed : lk.table < s.tables.size) (exporters : ∀ ex ∈ ms, ex ∈ known)
    (impd : linkImports lk ms ims s = .ok aft) : Wired known aft ∧ Store.Binds lk.table s aft := by
  induction ims generalizing s with
  | nil =>
    cases impd
    exact ⟨wired, .refl _ _⟩
  | cons stm stms ih =>
    rw [linkImports] at impd
    split at impd
    · cases impd
    · rename_i ex found
      obtain ⟨mid, fst, rest⟩ := ok_of_bind impd
      have mem := exporters ex (List.mem_of_find?_eq_some found)
      obtain ⟨wired, step⟩ := Module.importFrom_wired wired placed mem fst
      obtain ⟨wired, sts⟩ := ih wired (by rw [step.size]; exact placed) rest
      exact ⟨wired, step.trans sts⟩

theorem linkBindings_wired {last : Module} {bns : List Binding} (wired : Wired (lk :: known) s)
    (bound : linkBindings lk bns s = .ok (last, aft)) :
    Wired (last :: known) aft ∧ Store.Binds lk.table s aft ∧ last.id = lk.id := by
  induction bns generalizing lk s with
  | nil =>
    cases bound
    exact ⟨wired, .refl _ _, rfl⟩
  | cons bn bns ih =>
    rw [linkBindings] at bound
    obtain ⟨⟨a, next, mid⟩, fst, rest⟩ := ok_of_bind bound
    obtain ⟨wired, step, table, id⟩ := Module.define_wired wired fst
    obtain ⟨wired, sts, same⟩ := ih wired rest
    rw [table] at sts
    exact ⟨wired, step.trans sts, same.trans id⟩

theorem link_wired {src : ParsedModule} (wired : Wired known s) (exporters : ∀ ex ∈ ms, ex ∈ known)
    (done : link src ms s = .ok (lk, aft)) :
    Wired (lk :: known) aft ∧ s.Links aft ∧ lk.id = src.id := by
  rw [link] at done
  obtain ⟨mid, impd, bound⟩ := ok_of_bind done
  have created := wired.create src.id (some src.path)
  have placed := created.placed _ List.mem_cons_self
  obtain ⟨wired, ims⟩ := linkImports_wired created placed
    (fun ex mem => List.mem_cons_of_mem _ (exporters ex mem)) impd
  obtain ⟨wired, bns, id⟩ := linkBindings_wired wired bound
  exact ⟨wired, (ims.trans bns).links, id⟩

theorem Modules.insert_of_new {ms : Modules} {added : Module} (new : ∀ lk ∈ ms, lk.id ≠ added.id) :
    ms.insert added = ms ++ [added] := by
  grind [Modules.contains, Modules.find, Modules.insert]

/-- The modules that are linked in an order are wired, also when only the first
of them are kept. -/
theorem linkInOrder_wired {srcs : Sources} {ids : List String} {r : Modules} (wired : Wired known s)
    (exporters : ∀ ex ∈ ms, ex ∈ known) (nodup : ids.Nodup) (new : ∀ lk ∈ ms ++ added, lk.id ∉ ids)
    (done : linkInOrder srcs ids ms added s = .ok (r, aft)) :
    ∃ more, r = added ++ more ∧ more.map Module.id = ids ∧ s.Links aft ∧
      ∀ k, Wired (more.take k ++ known) aft := by
  induction ids generalizing ms added known s with
  | nil =>
    cases done
    exact ⟨[], by simp, rfl, .refl _, fun k => by simpa using wired⟩
  | cons id ids ih =>
    rw [linkInOrder] at done
    split at done
    · cases done
    · rename_i src found
      obtain ⟨⟨lk, mid⟩, fst, rest⟩ := ok_of_bind done
      obtain ⟨wiredNext, links, sameId⟩ := link_wired wired exporters fst
      have named : lk.id = id := by
        have listed := List.find?_some found
        grind
      rw [List.nodup_cons] at nodup
      have apart : ∀ o ∈ ms ++ added, o.id ≠ lk.id := by grind
      have continued : linkInOrder srcs ids (ms.insert lk) (added.insert lk)
          mid = .ok (r, aft) := rest
      rw [Modules.insert_of_new fun o mem =>
          apart o (List.mem_append_left _ mem),
        Modules.insert_of_new fun o mem =>
          apart o (List.mem_append_right _ mem)] at continued
      have exportersNext : ∀ ex ∈ ms ++ [lk], ex ∈ lk :: known := by grind
      have newNext : ∀ o ∈ (ms ++ [lk]) ++ (added ++ [lk]), o.id ∉ ids := by grind
      obtain ⟨more, rfl, xs, linksMore, kept⟩ :=
        ih wiredNext exportersNext nodup.2 newNext continued
      refine ⟨lk :: more, by simp, by simp [named, xs], links.trans linksMore, ?_⟩
      intro k
      cases k with
      | zero => exact wired.links (links.trans linksMore)
      | succ k => exact (kept k).perm List.perm_middle

theorem resolve_wired {srcs : Sources} (wired : Wired known s) (exporters : ∀ ex ∈ ms, ex ∈ known)
    (rsd : resolve srcs ms s = .ok (added, aft)) :
    s.Links aft ∧ (∀ k, Wired (added.take k ++ known) aft) ∧
      (added.map Module.id).Nodup ∧ ∀ lk ∈ added, lk.id ∉ ms.map Module.id := by
  rw [resolve] at rsd
  obtain ⟨ord, ordered, done⟩ := ok_of_bind rsd
  have topo := dependencyOrder_topological ordered
  have unlinked : ∀ id ∈ ord, id ∉ ms.map Module.id := fun id listed =>
    ((topo.mem_iff id).1 listed).2
  have new : ∀ lk ∈ ms ++ [], lk.id ∉ ord := by grind
  obtain ⟨more, rfl, xs, links, kept⟩ := linkInOrder_wired wired exporters topo.nodup new done
  refine ⟨links, kept, ?_, ?_⟩
  · exact xs ▸ topo.nodup
  grind

end Linking

theorem Modules.insertAll_of_new {ms : Modules} (nodup : (added.map Module.id).Nodup)
    (new : ∀ lk ∈ added, lk.id ∉ ms.map Module.id) :
    added.foldl Modules.insert ms = ms ++ added := by
  induction added generalizing ms with
  | nil => simp
  | cons fst rest ih =>
    rw [List.map_cons, List.nodup_cons] at nodup
    have absent : ∀ lk ∈ ms, lk.id ≠ fst.id := by grind
    grind [Modules.insert_of_new]

theorem Program.wired {ms : Modules} (pg : Program ms s) : Wired ms s := by
  induction pg with
  | empty => exact ⟨by simp, by simp, by simp, by simp, .nil⟩
  | addTable _ ih => exact ih.addTable
  | @resolve ms s srcs added aft _ rsd ih =>
    obtain ⟨_, kept, nodup, new⟩ := resolve_wired ih (fun _ mem => mem) rsd
    rw [Modules.insertAll_of_new nodup new]
    have all := kept added.length
    rw [List.take_length] at all
    exact all.perm List.perm_append_comm

end CallByNeed
