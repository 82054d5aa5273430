import CallByNeed.Proofs.Linking

/-!
# Modules that are built in place

A draft is a module while names are added to it.  Its exports, their terms and their lines are
dictionaries of their own, and what a call has done stays done when the call fails later.  The
functions on modules do what those on drafts do, and so a call that fails has done nothing.
-/

namespace CallByNeed

open Source

/-- Puts a value under a name.  A name that is there keeps its place. -/
def put {α : Type} (ents : List (Name × α)) (x : Name) (v : α) : List (Name × α) :=
  if (ents.map Prod.fst).contains x then
    ents.map fun en => if en.1 = x then (x, v) else en
  else ents ++ [(x, v)]

theorem nodup_snoc (dst : xs.Nodup) (new : x ∉ xs) :
    (xs ++ [x]).Nodup := by
  refine List.nodup_append.2 ⟨dst, List.nodup_singleton _, ?_⟩
  rintro _ mem _ (_ | ⟨_, ⟨⟩⟩) rfl
  exact new mem

/-- A module while names are added to it. -/
structure Draft where
  id : String
  table : Nat
  exports : List (Name × Address)
  terms : List (Name × Term)
  lines : List (Name × Nat)

namespace Draft

def declare (draft : Draft) (x : Name) (th : Option Address) (s : Store) :
    Except LinkError Unit × Store :=
  if (s.table draft.table).names.contains x then
    (.error (.duplicate x draft.id), s)
  else (.ok (), s.bind draft.table x th)

def adding (draft : Draft) (d : Declaration) : Draft :=
  { draft with
    exports := put draft.exports d.name d.thunk
    terms := put draft.terms d.name d.term
    lines := put draft.lines d.name d.line }

def define (draft : Draft) (bn : Binding) (s : Store) : Except LinkError Draft × Store :=
  let (th, s) := s.alloc (.suspended bn.term (.root draft.table) (some bn.name))
  match draft.declare bn.name th s with
  | (.error er, s) => (.error er, s)
  | (.ok (), s) => (.ok (draft.adding (bn.declaration th)), s)

def checkItems (draft o : Draft) (s : Store) : List Name → List ImportItem → Except LinkError Unit
  | _, [] => .ok ()
  | given, itm :: its =>
    if !(o.exports.map Prod.fst).contains itm.name then
      .error (.notExported o.id itm.name)
    else if given.contains itm.localName
        || (s.table draft.table).names.contains itm.localName then
      .error (.duplicate itm.localName draft.id)
    else checkItems draft o s (itm.localName :: given) its

/-- Binds the items one after the other, as far as they can be bound. -/
def bindItems (draft o : Draft) : List ImportItem → Store → Except LinkError Unit × Store
  | [], s => (.ok (), s)
  | itm :: its, s =>
    match o.exports.lookup itm.name with
    | none => (.error (.notExported o.id itm.name), s)
    | some th =>
      match draft.declare itm.localName (some th) s with
      | (.error er, s) => (.error er, s)
      | (.ok (), s) => bindItems draft o its s

def importFrom (draft o : Draft) (its : List ImportItem) (s : Store) :
    Except LinkError Unit × Store :=
  match draft.checkItems o s [] its with
  | .error er => (.error er, s)
  | .ok () => draft.bindItems o its s

/-- The dictionaries have the same names in the same order, and each exported name is bound to
the thunk that is exported. -/
structure Coherent (draft : Draft) (s : Store) : Prop where
  terms : draft.terms.map Prod.fst = draft.exports.map Prod.fst
  lines : draft.lines.map Prod.fst = draft.exports.map Prod.fst
  distinct : (draft.exports.map Prod.fst).Nodup
  names : (s.table draft.table).names.Nodup
  bound : ∀ en ∈ draft.exports, (s.table draft.table).find en.1 = some en.2

end Draft

/-! ### Calls -/

/-- A store and the drafts over its tables. -/
structure Workshop where
  store : Store
  drafts : List Draft

/-- A call, on drafts by their numbers. -/
inductive Call where
  | create (id : String)
  | declare (num : Nat) (x : Name) (th : Option Address)
  | define (num : Nat) (bn : Binding)
  | importFrom (num ex : Nat) (its : List ImportItem)

/-- Makes a call.  Nothing is called on a draft that does not exist. -/
def Call.perform (ws : Workshop) : Call → Except LinkError Unit × Workshop
  | .create id =>
    let (table, s) := ws.store.addTable []
    (.ok (), ⟨s, ws.drafts ++ [⟨id, table, [], [], []⟩]⟩)
  | .declare num x th =>
    match ws.drafts[num]? with
    | none => (.ok (), ws)
    | some draft =>
      let (r, s) := draft.declare x th ws.store
      (r, { ws with store := s })
  | .define num bn =>
    match ws.drafts[num]? with
    | none => (.ok (), ws)
    | some draft =>
      match draft.define bn ws.store with
      | (.error er, s) => (.error er, { ws with store := s })
      | (.ok next, s) => (.ok (), ⟨s, ws.drafts.set num next⟩)
  | .importFrom num ex its =>
    match ws.drafts[num]?, ws.drafts[ex]? with
    | some draft, some o =>
      let (r, s) := draft.importFrom o its ws.store
      (r, { ws with store := s })
    | _, _ => (.ok (), ws)

namespace Workshop

/-- What is there after calls, some of which may have failed. -/
def run (ws : Workshop) (calls : List Call) : Workshop :=
  calls.foldl (fun ws call => (call.perform ws).2) ws

/-- The drafts that calls build over a store. -/
def built (s : Store) (calls : List Call) : Workshop := run ⟨s, []⟩ calls

/-- Names that are bound or exported stay so, in their places. -/
def Keeps (bef aft : Workshop) : Prop :=
  ∀ (num : Nat) (draft : Draft), bef.drafts[num]? = some draft →
    ∃ later : Draft, aft.drafts[num]? = some later ∧ later.table = draft.table ∧
      draft.exports <+: later.exports ∧ bef.store.table draft.table <+: aft.store.table draft.table

/-- The drafts and the tables are as they were, and so are the thunks. -/
structure Unchanged (bef aft : Workshop) : Prop where
  drafts : aft.drafts = bef.drafts
  tables : aft.store.tables = bef.store.tables
  thunks : bef.store.Keeps aft.store

end Workshop

/-! ### Modules and drafts -/

/-- A part of each declaration, under its name. -/
def Module.keyed {α : Type} (lk : Module) (part : Declaration → α) : List (Name × α) :=
  lk.declarations.map fun d => (d.name, part d)

/-- The draft of a module. -/
def Module.draft (lk : Module) : Draft :=
  ⟨lk.id, lk.table, lk.keyed Declaration.thunk, lk.keyed Declaration.term,
    lk.keyed Declaration.line⟩

/-- The effect of a function that gives a new store, or fails and leaves the store as it is. -/
def allOrNothing (s : Store) : Except LinkError Store → Except LinkError Unit × Store
  | .ok aft => (.ok (), aft)
  | .error er => (.error er, s)

namespace Module

variable {lk o : Module} {s aft : Store} {its : List ImportItem} {x : Name} {α : Type}

theorem names_keyed (lk : Module) (part : Declaration → α) :
    (lk.keyed part).map Prod.fst = lk.exports := by
  simp [keyed, exports]

theorem put_keyed (new : d.name ∉ lk.exports) (part : Declaration → α) :
    put (lk.keyed part) d.name (part d) = (lk.adding d).keyed part := by
  rw [put, names_keyed, if_neg (by simpa using new), keyed, keyed, adding, List.map_append]
  rfl

theorem draft_adding (new : d.name ∉ lk.exports) :
    lk.draft.adding d = (lk.adding d).draft := by
  simp only [Draft.adding, draft, put_keyed new]
  rfl

theorem lookup_keyed (o : Module) (part : Declaration → α) (x : Name) :
    (o.keyed part).lookup x = (o.declaration? x).map part := by
  rw [keyed, declaration?]
  induction o.declarations with
  | nil => rfl
  | cons d ds ih =>
    rw [List.map_cons, List.lookup_cons, List.find?_cons, ih, BEq.comm]
    cases d.name == x <;> rfl

theorem draft_declare (lk : Module) (x : Name) (th : Option Address) (s : Store) :
    lk.draft.declare x th s = allOrNothing s (lk.declare x th s) := by
  rw [Draft.declare, declare]
  show (if (lk.names s).contains x then _ else _) = _
  split <;> rfl

theorem draft_checkItems (lk o : Module) (s : Store) (given : List Name) (its : List ImportItem) :
    lk.draft.checkItems o.draft s given its = lk.checkItems o s given its := by
  induction its generalizing given with
  | nil => rfl
  | cons itm its ih =>
    rw [Draft.checkItems, checkItems, ih, draft, draft, names_keyed]
    rfl

theorem draft_bindItems (exported : ∀ itm ∈ its, itm.name ∈ o.exports)
    (bound : lk.bindItems o its s = .ok aft) :
    lk.draft.bindItems o.draft its s = (.ok (), aft) := by
  induction its generalizing s with
  | nil =>
    cases bound
    rfl
  | cons itm its ih =>
    rw [bindItems] at bound
    obtain ⟨mid, fst, rest⟩ := ok_of_bind bound
    obtain ⟨d, found, _⟩ := declaration?_of_exports
      (List.contains_iff_mem.2 (exported itm List.mem_cons_self))
    rw [found, Option.map_some] at fst
    have given : o.draft.exports.lookup itm.name = some d.thunk := by
      rw [draft, lookup_keyed, found, Option.map_some]
    simp only [Draft.bindItems, given, draft_declare, fst, allOrNothing]
    exact ih (fun itm mem => exported itm (List.mem_cons_of_mem _ mem)) rest

/-- A module that was built: each name is bound once, and each declaration is bound to its own
thunk. -/
structure Coherent (lk : Module) (s : Store) : Prop where
  placed : lk.table < s.tables.size
  names : (lk.names s).Nodup
  exports : lk.exports.Nodup
  bound : ∀ d ∈ lk.declarations, (d.name, some d.thunk) ∈ s.table lk.table

section

variable (coherent : lk.Coherent s)

include coherent

/-- Once the first pass has succeeded the second one cannot fail. -/
theorem Coherent.draft_importFrom (o : Module) (its : List ImportItem) :
    lk.draft.importFrom o.draft its s = allOrNothing s (lk.importFrom o its s) := by
  rw [Draft.importFrom, draft_checkItems]
  cases checked : lk.checkItems o s [] its with
  | error er =>
    rw [importFrom, checked]
    rfl
  | ok done =>
    obtain ⟨exported, dst, free⟩ := checkItems_ok_iff.1 checked
    obtain ⟨aft, bound⟩ : ∃ aft, lk.bindItems o its s = .ok aft :=
      bindItems_isOk coherent.placed (List.nodup_append.2 ⟨coherent.names, dst, by grind⟩)
    rw [importFrom, checked]
    show lk.draft.bindItems o.draft its s = allOrNothing s (lk.bindItems o its s)
    rw [draft_bindItems exported bound, bound]
    rfl

theorem Coherent.not_exported (new : x ∉ lk.names s) : x ∉ lk.exports := by
  intro mem
  obtain ⟨d, listed, rfl⟩ := List.mem_map.1 mem
  exact new (List.mem_map.2 ⟨_, coherent.bound d listed, rfl⟩)

/-- A definition that fails leaves a thunk behind to which nothing points. -/
theorem Coherent.draft_define (bn : Binding) : lk.draft.define bn s =
      match lk.define bn s with
      | .ok (_, next, aft) => (.ok next.draft, aft)
      | .error er =>
        (.error er, (s.alloc (.suspended bn.term lk.env (some bn.name))).2) := by
  have rt : Env.root lk.draft.table = lk.env := rfl
  simp only [Draft.define, draft_declare, define, rt, bind, Except.bind]
  cases dcd : lk.declare bn.name (some (s.alloc (.suspended bn.term lk.env (some bn.name))).1)
      (s.alloc (.suspended bn.term lk.env (some bn.name))).2 with
  | error er => rfl
  | ok aft =>
    have new : (bn.declaration s.size).name ∉ lk.exports := coherent.not_exported (declare_eq dcd).1
    exact congrArg (fun draft => (Except.ok draft, aft)) (draft_adding new)

theorem Coherent.adds (adds : Store.Adds num ents s aft)
    (dst : ((s.table num).names ++ ents.names).Nodup) : lk.Coherent aft := by
  by_cases same : lk.table = num
  · subst same
    refine ⟨adds.placed coherent.placed, ?_, coherent.exports, fun d listed => ?_⟩
    · rw [names_adds adds]
      exact dst
    · rw [adds.table]
      exact List.mem_append_left _ (coherent.bound d listed)
  · have o := adds.binds.others _ same
    refine ⟨?_, ?_, coherent.exports, fun d listed => ?_⟩
    · rw [adds.binds.size]
      exact coherent.placed
    · rw [Module.names, o]
      exact coherent.names
    · rw [o]
      exact coherent.bound d listed

theorem Coherent.adding (new : d.name ∉ lk.exports)
    (bound : (d.name, some d.thunk) ∈ s.table lk.table) : (lk.adding d).Coherent s := by
  refine ⟨coherent.placed, coherent.names, ?_, fun o listed => ?_⟩
  · rw [Module.exports, Module.adding, List.map_append]
    exact nodup_snoc coherent.exports new
  · rcases List.mem_append.1 listed with early | last
    · exact coherent.bound o early
    · rw [List.mem_singleton.1 last]
      exact bound

theorem Coherent.draft : lk.draft.Coherent s where
  terms := (lk.names_keyed _).trans (lk.names_keyed _).symm
  lines := (lk.names_keyed _).trans (lk.names_keyed _).symm
  distinct := by
    rw [Module.draft, names_keyed]
    exact coherent.exports
  names := coherent.names
  bound en listed := by
    obtain ⟨d, there, rfl⟩ := List.mem_map.1 listed
    exact Table.find_of_mem coherent.names (coherent.bound d there)

end

end Module

/-! ### Runs -/

namespace Workshop

variable {ws aft : Workshop} {ms : List Module}

/-- The drafts are those of modules that were built. -/
structure Sound (ws : Workshop) (ms : List Module) : Prop where
  drafts : ws.drafts = ms.map Module.draft
  coherent : ∀ lk ∈ ms, lk.Coherent ws.store

theorem Keeps.refl (ws : Workshop) : ws.Keeps ws :=
  fun _ draft found => ⟨draft, found, rfl, List.prefix_rfl, List.prefix_rfl⟩

theorem Keeps.trans {fst snd thd : Workshop} (early : fst.Keeps snd) (late : snd.Keeps thd) :
    fst.Keeps thd := by
  intro num draft found
  obtain ⟨mid, foundMiddle, sameTable, exports, table⟩ := early num draft found
  obtain ⟨last, foundLast, lastTable, lastExports, lastTables⟩ := late num mid foundMiddle
  rw [sameTable] at lastTable lastTables
  exact ⟨last, foundLast, lastTable, exports.trans lastExports, table.trans lastTables⟩

/-- What a call leaves behind. -/
structure Next (ws : Workshop) (oc : Except LinkError Unit × Workshop) : Prop where
  sound : ∃ ms, Sound oc.2 ms
  keeps : ws.Keeps oc.2
  unchanged : ∀ er, oc.1 = .error er → ws.Unchanged oc.2

namespace Sound

variable (sound : Sound ws ms)

include sound

variable {num : Nat}

theorem found (found : ws.drafts[num]? = some draft) :
    ∃ lk, ms[num]? = some lk ∧ lk ∈ ms ∧ lk.draft = draft := by
  rw [sound.drafts, List.getElem?_map] at found
  obtain ⟨lk, there, same⟩ := Option.map_eq_some_iff.1 found
  exact ⟨lk, there, List.mem_of_getElem? there, same⟩

theorem adds (adds : Store.Adds num ents ws.store s)
    (dst : ((ws.store.table num).names ++ ents.names).Nodup) :
    Sound { ws with store := s } ms ∧ ws.Keeps { ws with store := s } := by
  refine ⟨⟨sound.drafts, fun lk mem => (sound.coherent lk mem).adds adds dst⟩,
    fun _ draft found => ⟨draft, found, rfl, List.prefix_rfl, ?_⟩⟩
  by_cases same : draft.table = num
  · rw [same]
    exact ⟨ents, adds.table.symm⟩
  · rw [adds.binds.others _ same]

theorem same (r : Except LinkError Unit) : Next ws (r, ws) :=
  ⟨⟨ms, sound⟩, .refl _, fun _ _ => ⟨rfl, rfl, id⟩⟩

/-- A function that gives a new store, or fails and leaves the store as it is. -/
theorem allOrNothing {oc : Except LinkError Store}
    (adds : ∀ aft, oc = .ok aft → ∃ ents, Store.Adds num ents ws.store aft ∧
      ((ws.store.table num).names ++ ents.names).Nodup) :
    Next ws ((CallByNeed.allOrNothing ws.store oc).1,
      { ws with store := (CallByNeed.allOrNothing ws.store oc).2 }) := by
  cases oc with
  | error er => exact sound.same _
  | ok aft =>
    obtain ⟨ents, added, dst⟩ := adds aft rfl
    obtain ⟨soundAfter, kept⟩ := sound.adds added dst
    exact ⟨⟨ms, soundAfter⟩, kept, fun _ failed => nomatch failed⟩

theorem create (id : String) : Next ws ((Call.create id).perform ws) := by
  have tbs := ws.store.table_addTable
  have more : (ws.store.addTable []).2.tables.size = ws.store.tables.size + 1 := Array.size_push _
  have empty : ws.store.table ws.store.tables.size = [] := by
    simp [Store.table]
  refine ⟨⟨ms ++ [⟨id, none, ws.store.tables.size, []⟩], ?_, ?_⟩, ?_,
    fun _ failed => by cases failed⟩
  · rw [List.map_append, ← sound.drafts]
    rfl
  · intro lk mem
    rcases List.mem_append.1 mem with early | last
    · have coherent := sound.coherent lk early
      refine ⟨?_, ?_, coherent.exports, fun d listed => ?_⟩
      · exact more ▸ Nat.lt_succ_of_lt coherent.placed
      · exact (congrArg (Table.names · |>.Nodup) (tbs lk.table)).mpr coherent.names
      · exact (tbs lk.table) ▸ coherent.bound d listed
    · rw [List.mem_singleton.1 last]
      refine ⟨more ▸ Nat.lt_succ_self _, ?_, List.nodup_nil, by simp⟩
      rw [Module.names]
      exact (congrArg (Table.names · |>.Nodup) ((tbs _).trans empty)).mpr List.nodup_nil
  · intro num draft found
    refine ⟨draft, ?_, rfl, List.prefix_rfl, ?_⟩
    · exact List.getElem?_append_left (List.getElem?_eq_some_iff.1 found).1 ▸ found
    · exact (tbs draft.table) ▸ List.prefix_rfl

theorem declare (num : Nat) (x : Name) (th : Option Address) :
    Next ws ((Call.declare num x th).perform ws) := by
  rw [Call.perform]
  split
  · exact sound.same _
  · rename_i draft found
    obtain ⟨lk, _, mem, rfl⟩ := sound.found found
    rw [lk.draft_declare]
    refine sound.allOrNothing fun aft dcd => ⟨_, Module.declare_adds
      (sound.coherent lk mem).placed dcd, ?_⟩
    exact nodup_snoc (sound.coherent lk mem).names (Module.declare_eq dcd).1

theorem importFrom (num ex : Nat) (its : List ImportItem) :
    Next ws ((Call.importFrom num ex its).perform ws) := by
  rw [Call.perform]
  split
  · rename_i draft o found foundOther
    obtain ⟨lk, _, mem, rfl⟩ := sound.found found
    obtain ⟨ex, _, _, rfl⟩ := sound.found foundOther
    have coherent := sound.coherent lk mem
    rw [coherent.draft_importFrom]
    refine sound.allOrNothing fun aft impd => ⟨_, Module.importFrom_adds coherent.placed impd, ?_⟩
    rw [Module.importEntries_names]
    exact ((Module.importFrom_isOk_iff coherent.placed coherent.names).1 ⟨aft, impd⟩).2
  · exact sound.same _

theorem define (num : Nat) (bn : Binding) : Next ws ((Call.define num bn).perform ws) := by
  rw [Call.perform]
  split
  · exact sound.same _
  · rename_i draft found
    obtain ⟨lk, pl, mem, rfl⟩ := sound.found found
    have coherent := sound.coherent lk mem
    rw [coherent.draft_define]
    cases defined : lk.define bn ws.store with
    | error er =>
      have added := Store.Binds.alloc lk.table ws.store bn.term lk.env bn.name
      obtain ⟨soundAfter, kept⟩ := sound.adds ⟨added, (List.append_nil _).symm⟩
        ((List.append_nil _).symm ▸ coherent.names)
      exact ⟨⟨ms, soundAfter⟩, kept, fun _ _ => ⟨rfl, rfl, added.keeps⟩⟩
    | ok r =>
      obtain ⟨a, next, aft⟩ := r
      obtain ⟨rfl, rfl, added, _⟩ := Module.define_adds coherent.placed defined
      have new : bn.name ∉ lk.names ws.store := Module.define_isOk_iff.1 ⟨_, defined⟩
      obtain ⟨soundAfter, kept⟩ := sound.adds added (nodup_snoc coherent.names new)
      have extended := (soundAfter.coherent lk mem).adding
        (coherent.not_exported new : (bn.declaration ws.store.size).name ∉ _)
        (by rw [added.table]; exact List.mem_append_right _ List.mem_cons_self)
      refine ⟨⟨ms.set num (lk.adding (bn.declaration ws.store.size)), ?_,
        fun o among => ?_⟩, fun o draft there => ?_, fun _ failed => nomatch failed⟩
      · rw [List.map_set, ← sound.drafts]
      · rcases List.mem_or_eq_of_mem_set among with early | rfl
        · exact soundAfter.coherent o early
        · exact extended
      · obtain ⟨later, foundLater, sameTable, exports, table⟩ := kept o draft there
        by_cases same : o = num
        · subst same
          rw [found] at there
          cases there
          refine ⟨_, List.getElem?_set_self (List.getElem?_eq_some_iff.1 found).1, rfl, ?_, table⟩
          exact ⟨[(bn.name, ws.store.size)], by
            simp [Module.draft, Module.keyed, Module.adding, Binding.declaration]⟩
        · exact ⟨later, (List.getElem?_set_ne (Ne.symm same)).trans foundLater, sameTable, exports,
            table⟩

theorem perform (call : Call) : Next ws (call.perform ws) := by
  cases call with
  | create id => exact sound.create id
  | declare num x th => exact sound.declare num x th
  | define num bn => exact sound.define num bn
  | importFrom num ex its => exact sound.importFrom num ex its

theorem run (calls : List Call) : (∃ ms, Sound (ws.run calls) ms) ∧ ws.Keeps (ws.run calls) := by
  induction calls generalizing ws ms with
  | nil => exact ⟨⟨ms, sound⟩, .refl _⟩
  | cons call calls ih =>
    obtain ⟨⟨later, soundLater⟩, kept, _⟩ := sound.perform call
    obtain ⟨last, keptLast⟩ := ih soundLater
    exact ⟨last, kept.trans keptLast⟩

/-- An import fails for a name that is not exported, or for a local name that is given twice or
bound already. -/
theorem import_fails_iff {ex : Nat} {o : Draft} (found : ws.drafts[num]? = some draft)
    (foundOther : ws.drafts[ex]? = some o) (its : List ImportItem) :
    (∃ er aft, (Call.importFrom num ex its).perform ws = (.error er, aft)) ↔
      (∃ itm ∈ its, itm.name ∉ o.exports.map Prod.fst) ∨ ¬ (its.map ImportItem.localName).Nodup ∨
      ∃ itm ∈ its, itm.localName ∈ (ws.store.table draft.table).names := by
  obtain ⟨lk, _, mem, rfl⟩ := sound.found found
  obtain ⟨exporting, _, _, rfl⟩ := sound.found foundOther
  have coherent := sound.coherent lk mem
  have allowed : (∃ aft, lk.importFrom exporting its ws.store = .ok aft) ↔ _ :=
    Module.importFrom_isOk_iff coherent.placed coherent.names
  have xs : (ws.store.table lk.draft.table).names = lk.names ws.store := rfl
  have exports : exporting.draft.exports.map Prod.fst = exporting.exports := exporting.names_keyed _
  simp only [Call.perform, found, foundOther, coherent.draft_importFrom, xs, exports]
  cases impd : lk.importFrom exporting its ws.store with
  | error er =>
    simp only [impd, reduceCtorEq, exists_false, false_iff, List.nodup_append] at allowed
    simp only [CallByNeed.allOrNothing]
    have := coherent.names
    grind
  | ok aft =>
    obtain ⟨exported, free⟩ := allowed.1 ⟨aft, impd⟩
    simp only [CallByNeed.allOrNothing]
    grind [List.nodup_append]

end Sound

/-- The functions on a module do what those on its draft do.  Only a definition that fails
leaves something behind, a thunk to which nothing points. -/
structure Agrees (ws : Workshop) (lk : Module) : Prop where
  declare : ∀ x th, lk.draft.declare x th ws.store =
    allOrNothing ws.store (lk.declare x th ws.store)
  define : ∀ bn, lk.draft.define bn ws.store =
    match lk.define bn ws.store with
    | .ok (_, next, aft) => (.ok next.draft, aft)
    | .error er =>
      (.error er, (ws.store.alloc (.suspended bn.term lk.env (some bn.name))).2)
  importFrom : ∀ (o : Module) its, lk.draft.importFrom o.draft its ws.store =
    allOrNothing ws.store (lk.importFrom o its ws.store)

end Workshop

/-- Modules that are built by any calls, of which any may fail, are coherent: their exports,
terms and lines have the same names in the same order, and each export is bound to its own
thunk.  Later calls bind no name again.  A call that fails leaves all modules as they were.
An import fails exactly when a name is not exported, or a local name is given twice or bound
already. -/
theorem built_coherent (s : Store) (calls : List Call) :
    (∀ draft ∈ (Workshop.built s calls).drafts, draft.Coherent (Workshop.built s calls).store) ∧
    (∀ later, (Workshop.built s calls).Keeps (Workshop.built s (calls ++ later))) ∧
    (∀ (call : Call) er aft, call.perform (Workshop.built s calls) = (.error er, aft) →
      (Workshop.built s calls).Unchanged aft) ∧
    (∀ num ex draft o its, (Workshop.built s calls).drafts[num]? = some draft →
      (Workshop.built s calls).drafts[ex]? = some o →
      ((∃ er aft, (Call.importFrom num ex its).perform (Workshop.built s calls) =
          (.error er, aft)) ↔
        (∃ itm ∈ its, itm.name ∉ o.exports.map Prod.fst) ∨
        ¬ (its.map ImportItem.localName).Nodup ∨
        ∃ itm ∈ its, itm.localName ∈ ((Workshop.built s calls).store.table draft.table).names)) ∧
    ∃ ms : List Module, (Workshop.built s calls).drafts = ms.map Module.draft ∧
      ∀ lk ∈ ms, (Workshop.built s calls).Agrees lk := by
  have st0 : Workshop.Sound ⟨s, []⟩ [] := ⟨rfl, by simp⟩
  obtain ⟨⟨ms, sound⟩, _⟩ := st0.run calls
  refine ⟨fun draft mem => ?_, fun later => ?_, fun call er aft failed => ?_,
    fun num ex draft o its found foundOther =>
      sound.import_fails_iff found foundOther its, ms, sound.drafts, fun lk mem =>
      ⟨fun x th => lk.draft_declare x th _,
        (sound.coherent lk mem).draft_define, (sound.coherent lk mem).draft_importFrom⟩⟩
  · have listed : draft ∈ ms.map Module.draft := sound.drafts ▸ mem
    obtain ⟨lk, there, rfl⟩ := List.mem_map.1 listed
    exact (sound.coherent lk there).draft
  · have split : Workshop.built s (calls ++ later) =
        (Workshop.built s calls).run later := List.foldl_append
    rw [split]
    exact (sound.run later).2
  · have next : (Workshop.built s calls).Next _ := sound.perform call
    rw [Workshop.built] at failed
    rw [failed] at next
    exact next.unchanged er rfl

end CallByNeed
