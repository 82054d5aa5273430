import CallByNeed.Module.Order
import Mathlib

/-!
# What the order of imports is

The modules that are not linked form a graph, in which a module points to the
modules that it imports.  `dependencyOrder` is a topological sort of the graph:
it gives an order when nothing is missing and there is no cycle, and otherwise
names a missing import or a cycle that is there.

The search keeps a path of modules whose imports are being visited and the
modules that are finished.  `ImportPath` and `Finished` are its two invariants.
-/

namespace CallByNeed

open Source

section Graph

variable (srcs : Sources) (lk : List String)

/-- A module that is not linked yet imports another one. -/
def Sources.Imports (importer impd : String) : Prop :=
  importer ∉ lk ∧ ∃ src, srcs.find importer = some src ∧ impd ∈ importedIds src

/-- Every import is of a module that is there or that is linked. -/
def Sources.Complete : Prop :=
  ∀ importer impd, srcs.Imports lk importer impd → impd ∈ srcs.ids ∨ impd ∈ lk

def Sources.Acyclic : Prop := ∀ id, ¬ Relation.TransGen (srcs.Imports lk) id id

/-- Each module that is not linked stands in the order once, after its imports. -/
structure TopologicalOrder (ord : List String) : Prop where
  nodup : ord.Nodup
  mem_iff : ∀ id, id ∈ ord ↔ id ∈ srcs.ids ∧ id ∉ lk
  after : ∀ fr id bk, ord = fr ++ id :: bk →
    ∀ impd, srcs.Imports lk id impd → impd ∉ lk → impd ∈ fr

/-- A list of modules that each import the next, and whose last one is the first. -/
structure ImportCycle (cycle : List String) : Prop where
  long : 2 ≤ cycle.length
  closes : cycle.head? = cycle.getLast?
  distinct : cycle.dropLast.Nodup
  chain : cycle.IsChain (srcs.Imports lk)

/-- What an error of the order says is so. -/
def LinkError.Genuine : LinkError → Prop
  | .cyclicImport cycle => ImportCycle srcs lk cycle
  | .notLoaded missing importer =>
    srcs.Imports lk importer missing ∧ missing ∉ srcs.ids ∧ missing ∉ lk
  | _ => False

end Graph

variable {id importer kid : String} {src : ParsedModule}
  {ph ord kids r : List String}

section Search

variable {srcs : Sources} {lk : List String}

theorem Sources.find_eq_none : srcs.find id = none ↔ id ∉ srcs.ids := by
  simp [Sources.find, Sources.ids]

theorem Sources.mem_ids_of_find (found : srcs.find id = some src) : id ∈ srcs.ids := by
  by_contra absent
  rw [Sources.find_eq_none.2 absent] at found
  cases found

/-! ### The steps of the search -/

section Steps

theorem visitImports_known (known : kid ∈ lk ∨ kid ∈ ord) :
    visitImports srcs lk importer ph ord (kid :: kids) =
      visitImports srcs lk importer ph ord kids := by
  rw [visitImports, if_pos (by simpa using known)]

theorem visitImports_cycle (unlinked : kid ∉ lk) (unfinished : kid ∉ ord) (onPath : kid ∈ ph) :
    visitImports srcs lk importer ph ord (kid :: kids) =
      .error (.cyclicImport (ph.dropWhile (· ≠ kid) ++ [kid])) := by grind [visitImports]

theorem visitImports_missing (unlinked : kid ∉ lk) (unfinished : kid ∉ ord)
    (offPath : kid ∉ ph) (missing : srcs.find kid = none) :
    visitImports srcs lk importer ph ord (kid :: kids) =
      .error (.notLoaded kid importer) := by grind [visitImports]

theorem visitImports_found (unlinked : kid ∉ lk) (unfinished : kid ∉ ord) (offPath : kid ∉ ph)
    (found : srcs.find kid = some src) :
    visitImports srcs lk importer ph ord (kid :: kids) =
      (visitImports srcs lk kid (ph ++ [kid]) ord (importedIds src) >>=
        fun ord => visitImports srcs lk importer ph (ord ++ [kid]) kids) := by
  grind [visitImports]

end Steps

/-! ### The search with a bound on its steps -/

section Within

variable (srcs lk)

/-- The visit of imports, if so many steps suffice for it. -/
def visitWithin : (n : Nat) → (importer : String) → (ph ord kids : List String) →
    Option (Except LinkError (List String))
  | _, _, _, ord, [] => some (.ok ord)
  | 0, _, _, _, _ :: _ => none
  | n + 1, importer, ph, ord, kid :: kids =>
    if kid ∈ lk ∨ kid ∈ ord then visitWithin n importer ph ord kids
    else if kid ∈ ph then some (.error (.cyclicImport (ph.dropWhile (· ≠ kid) ++ [kid])))
    else
      match srcs.find kid with
      | none => some (.error (.notLoaded kid importer))
      | some src =>
        match visitWithin n kid (ph ++ [kid]) ord (importedIds src) with
        | some (.ok ord) => visitWithin n importer ph (ord ++ [kid]) kids
        | stopped => stopped

def orderWithin (n : Nat) : (ord : List String) → (rest : Sources) →
    Option (Except LinkError (List String))
  | ord, [] => some (.ok ord)
  | ord, src :: rest =>
    if src.id ∈ lk ∨ src.id ∈ ord then orderWithin n ord rest
    else
      match visitWithin srcs lk n src.id [src.id] ord (importedIds src) with
      | some (.ok ord) => orderWithin n (ord ++ [src.id]) rest
      | stopped => stopped

variable {srcs lk} {n : Nat} {oc : Except LinkError (List String)}

theorem visitImports_of_within (done : visitWithin srcs lk n importer ph ord kids = some oc) :
    visitImports srcs lk importer ph ord kids = oc := by
  fun_induction visitWithin srcs lk n importer ph ord kids generalizing oc with
  | case1 => grind [visitImports]
  | case2 => cases done
  | case3 n importer ph ord kid kids known ih => rw [visitImports_known known, ih done]
  | case4 n importer ph ord kid kids unknown onPath =>
    rw [not_or] at unknown
    rw [visitImports_cycle unknown.1 unknown.2 onPath]
    exact Option.some.inj done
  | case5 n importer ph ord kid kids unknown offPath missing =>
    rw [not_or] at unknown
    rw [visitImports_missing unknown.1 unknown.2 offPath missing]
    exact Option.some.inj done
  | case6 n importer ph ord kid kids unknown offPath src found inner visited ihInner ih =>
    rw [not_or] at unknown
    rw [visitImports_found unknown.1 unknown.2 offPath found, ihInner visited]
    exact ih done
  | case7 n importer ph ord kid kids unknown offPath src found stopped ihInner =>
    rw [not_or] at unknown
    rw [visitImports_found unknown.1 unknown.2 offPath found, ihInner done]
    cases oc with
    | ok found => exact (stopped found done).elim
    | error er => rfl

theorem dependencyOrder_of_within (n : Nat) (done : orderWithin srcs lk n [] srcs = some oc) :
    dependencyOrder srcs lk = oc := by
  have visits : ∀ ord rest, orderWithin srcs lk n ord rest = some oc →
      visitAll srcs lk ord rest = oc := by
    intro ord rest done
    fun_induction orderWithin srcs lk n ord rest with
    | case1 => exact Option.some.inj done
    | case2 ord src rest known ih =>
      rw [visitAll, if_pos (by simpa using known)]
      exact ih done
    | case3 ord src rest unknown later visited ih =>
      rw [visitAll, if_neg (by simpa using unknown), visitImports_of_within visited]
      exact ih done
    | case4 ord src rest unknown stopped =>
      rw [visitAll, if_neg (by simpa using unknown), visitImports_of_within done]
      cases oc with
      | ok found => exact (stopped found done).elim
      | error er => rfl
  exact visits [] srcs done

end Within

/-! ### The invariants -/

/-- A path of modules that each import the next, up to the importer. -/
structure ImportPath (srcs : Sources) (lk : List String) (importer : String)
    (ph : List String) : Prop where
  nodup : ph.Nodup
  chain : ph.IsChain (srcs.Imports lk)
  last : ph.getLast? = some importer

theorem ImportPath.snoc (walk : ImportPath srcs lk importer ph) (ims : srcs.Imports lk importer kid)
    (off : kid ∉ ph) : ImportPath srcs lk kid (ph ++ [kid]) := by
  refine ⟨?_, ?_, ?_⟩
  · simpa [List.nodup_append] using ⟨walk.nodup, fun o mem same => off (same ▸ mem)⟩
  · apply List.IsChain.append walk.chain (List.isChain_singleton kid)
    intro last isLast next isNext
    rw [walk.last] at isLast
    simp_all
  · simp

/-- An import of a module on the path closes a cycle. -/
theorem ImportPath.cycle (walk : ImportPath srcs lk importer ph)
    (ims : srcs.Imports lk importer kid) (on : kid ∈ ph) :
    ImportCycle srcs lk (ph.dropWhile (· ≠ kid) ++ [kid]) := by
  obtain ⟨fr, bk, rfl, absent⟩ := List.eq_append_cons_of_mem on
  have cut : (fr ++ kid :: bk).dropWhile (· ≠ kid) = kid :: bk := by
    rw [List.dropWhile_append_of_pos fun o mem => by
      simpa using fun same : o = kid => absent (same ▸ mem)]
    simp
  rw [cut]
  have last : (kid :: bk).getLast? = some importer := by
    simpa [List.getLast?_append] using walk.last
  refine ⟨by simp, ?_, ?_, ?_⟩
  · rw [List.getLast?_concat]
    rfl
  · rw [List.dropLast_concat]
    exact (List.nodup_append.1 walk.nodup).2.1
  · apply walk.chain.right_of_append.append (List.isChain_singleton kid)
    intro fi isFinal next isNext
    rw [last] at isFinal
    cases isFinal
    cases isNext
    exact ims

/-- The modules that are finished: each one once, none of them on the path, and each one
after its imports. -/
structure Finished (srcs : Sources) (lk ph ord : List String) : Prop where
  nodup : ord.Nodup
  listed : ∀ id ∈ ord, id ∈ srcs.ids ∧ id ∉ lk
  apart : ∀ id ∈ ord, id ∉ ph
  after : ∀ fr id bk, ord = fr ++ id :: bk →
    ∀ impd, srcs.Imports lk id impd → impd ∈ lk ∨ impd ∈ fr

theorem Finished.enter (finished : Finished srcs lk ph ord) (new : id ∉ ord) :
    Finished srcs lk (ph ++ [id]) ord := by
  refine ⟨finished.nodup, finished.listed, fun o mem onPath => ?_, finished.after⟩
  rcases List.mem_append.1 onPath with early | last
  · exact finished.apart o mem early
  simp_all

theorem Finished.snoc (finished : Finished srcs lk (ph ++ [id]) ord) (there : id ∈ srcs.ids)
    (new : id ∉ lk) (off : id ∉ ph)
    (ims : ∀ impd, srcs.Imports lk id impd → impd ∈ lk ∨ impd ∈ ord) :
    Finished srcs lk ph (ord ++ [id]) := by
  have absent : id ∉ ord := fun mem => finished.apart id mem (by simp)
  constructor
  · simpa [List.nodup_append] using ⟨finished.nodup, fun o mem same => absent (same ▸ mem)⟩
  · intro o mem
    rcases List.mem_append.1 mem with old | last
    · exact finished.listed o old
    simp_all
  · intro o mem onPath
    rcases List.mem_append.1 mem with old | last
    · exact finished.apart o old (List.mem_append_left _ onPath)
    simp_all
  · intro fr o bk split
    rcases List.eq_nil_or_concat bk with rfl | ⟨bk, last, rfl⟩
    · simp_all
    · rw [List.concat_eq_append, ← List.cons_append, ← List.append_assoc] at split
      obtain ⟨rfl, _⟩ := List.append_inj' split rfl
      exact finished.after fr o bk rfl

/-- What a visit of modules comes to, from those that were finished before. -/
structure Visited (srcs : Sources) (lk ph ord kids r : List String) :
    Prop where
  finished : Finished srcs lk ph r
  kept : ord ⊆ r
  done : ∀ kid ∈ kids, kid ∈ lk ∨ kid ∈ r

theorem Visited.of_known (visited : Visited srcs lk ph ord kids r) (known : kid ∈ lk ∨ kid ∈ ord) :
    Visited srcs lk ph ord (kid :: kids) r := by
  refine ⟨visited.finished, visited.kept, fun o mem => ?_⟩
  rcases List.mem_cons.1 mem with rfl | later
  · exact known.imp id fun old => visited.kept old
  · exact visited.done o later

theorem Visited.of_next {mid : List String} (kept : ord ⊆ mid)
    (visited : Visited srcs lk ph (mid ++ [kid]) kids r) :
    Visited srcs lk ph ord (kid :: kids) r := by
  refine ⟨visited.finished, fun id mem => ?_, fun o mem => ?_⟩
  · exact visited.kept (List.mem_append_left _ (kept mem))
  · rcases List.mem_cons.1 mem with rfl | later
    · exact .inr (visited.kept (by simp))
    · exact visited.done o later

theorem Visited.close (visited : Visited srcs lk (ph ++ [kid]) ord (importedIds src) r)
    (found : srcs.find kid = some src) (unlinked : kid ∉ lk) (off : kid ∉ ph) :
    Finished srcs lk ph (r ++ [kid]) := by
  refine visited.finished.snoc (Sources.mem_ids_of_find found) unlinked off ?_
  rintro impd ⟨_, o, again, mem⟩
  rw [found] at again
  cases again
  exact visited.done impd mem

def Searched (srcs : Sources) (lk ph ord kids : List String) : Except LinkError (List String) → Prop
  | .ok r => Visited srcs lk ph ord kids r
  | .error er => er.Genuine srcs lk

theorem Searched.imp {path' order' children' : List String} {r : Except LinkError (List String)}
    (oc : Searched srcs lk ph ord kids r)
    (visited : ∀ fi, Visited srcs lk ph ord kids fi → Visited srcs lk path' order' children' fi) :
    Searched srcs lk path' order' children' r := by
  cases r with
  | ok fi => exact visited fi oc
  | error er => exact oc

theorem Searched.bind {path' order' children' : List String} {fst : Except LinkError (List String)}
    {next : List String → Except LinkError (List String)} (oc : Searched srcs lk ph ord kids fst)
    (continued : ∀ mid, Visited srcs lk ph ord kids mid →
      Searched srcs lk path' order' children' (next mid)) :
    Searched srcs lk path' order' children' (fst >>= next) := by
  cases fst with
  | ok mid => exact continued mid oc
  | error er => exact oc

/-- A visit of imports finishes them, or fails for a reason that is there. -/
theorem visitImports_searched (walk : ImportPath srcs lk importer ph)
    (finished : Finished srcs lk ph ord) (ims : ∀ kid ∈ kids, srcs.Imports lk importer kid) :
    Searched srcs lk ph ord kids (visitImports srcs lk importer ph ord kids) := by
  induction importer, ph, ord, kids using visitImports.induct srcs lk with
  | case1 importer ph ord =>
    rw [visitImports]
    exact ⟨finished, fun _ mem => mem, by simp⟩
  | case2 importer ph ord kid kids known ih =>
    simp only [Bool.or_eq_true, List.contains_iff_mem] at known
    rw [visitImports_known known]
    have os := ih walk finished fun o mem =>
      ims o (List.mem_cons_of_mem _ mem)
    exact os.imp fun _ visited => visited.of_known known
  | case3 importer ph ord kid kids unknown onPath =>
    simp only [Bool.or_eq_true, List.contains_iff_mem, not_or] at unknown onPath
    rw [visitImports_cycle unknown.1 unknown.2 onPath]
    exact walk.cycle (ims kid List.mem_cons_self) onPath
  | case4 importer ph ord kid kids unknown offPath missing =>
    simp only [Bool.or_eq_true, List.contains_iff_mem, not_or] at unknown offPath
    rw [visitImports_missing unknown.1 unknown.2 offPath missing]
    exact ⟨ims kid List.mem_cons_self, Sources.find_eq_none.1 missing, unknown.1⟩
  | case5 importer ph ord kid kids unknown offPath src found _ ihInner ihRest =>
    simp only [Bool.or_eq_true, List.contains_iff_mem, not_or] at unknown offPath
    rw [visitImports_found unknown.1 unknown.2 offPath found]
    have further := walk.snoc (ims kid List.mem_cons_self) offPath
    have inn := ihInner further (finished.enter unknown.2) fun o mem =>
      ⟨unknown.1, src, found, mem⟩
    apply inn.bind
    intro mid visited
    have os := ihRest mid walk (visited.close found unknown.1 offPath) fun o mem =>
      ims o (List.mem_cons_of_mem _ mem)
    exact os.imp fun _ rest => rest.of_next visited.kept

theorem Sources.find_of_new {fr bk : Sources} (new : src.id ∉ fr.ids) :
    (fr ++ src :: bk).find src.id = some src := by
  have nothing : fr.find? (fun o => o.id == src.id) = none := Sources.find_eq_none.2 new
  simp [Sources.find, List.find?_append, nothing]

/-- Modules are visited in turn, and those in front are linked or finished. -/
theorem visitAll_searched {fr bk : Sources} (split : srcs = fr ++ bk)
    (finished : Finished srcs lk [] ord) (bef : ∀ id ∈ fr.ids, id ∈ lk ∨ id ∈ ord) :
    Searched srcs lk [] ord bk.ids (visitAll srcs lk ord bk) := by
  induction bk generalizing fr ord with
  | nil => exact ⟨finished, fun _ mem => mem, by simp [Sources.ids]⟩
  | cons src rest ih =>
    have next : srcs = (fr ++ [src]) ++ rest := by simp [split]
    have beforeNext : ∀ {ord : List String}, (∀ id ∈ fr.ids, id ∈ lk ∨ id ∈ ord) →
        src.id ∈ lk ∨ src.id ∈ ord →
        ∀ id ∈ Sources.ids (fr ++ [src]), id ∈ lk ∨ id ∈ ord := by grind [Sources.ids]
    rw [visitAll]
    split
    · rename_i known
      simp only [Bool.or_eq_true, List.contains_iff_mem] at known
      exact (ih next finished (beforeNext bef known)).imp fun _ visited =>
        visited.of_known known
    · rename_i unknown
      simp only [Bool.or_eq_true, List.contains_iff_mem, not_or] at unknown
      have found : srcs.find src.id = some src := by grind [Sources.find_of_new]
      have st0 : ImportPath srcs lk src.id [src.id] :=
        ⟨List.nodup_singleton _, List.isChain_singleton _, rfl⟩
      have inn := visitImports_searched st0 (finished.enter unknown.2) fun o mem =>
        ⟨unknown.1, src, found, mem⟩
      apply inn.bind
      intro mid visited
      have later : ∀ id ∈ fr.ids, id ∈ lk ∨ id ∈ mid ++ [src.id] := fun id mem =>
        (bef id mem).imp_right fun old => List.mem_append_left _ (visited.kept old)
      have closed : Finished srcs lk [] (mid ++ [src.id]) := visited.close found unknown.1 (by simp)
      exact (ih next closed (beforeNext later (by simp))).imp fun _ rest =>
        rest.of_next visited.kept

theorem dependencyOrder_searched (srcs : Sources) (lk : List String) :
    Searched srcs lk [] [] srcs.ids (dependencyOrder srcs lk) :=
  visitAll_searched (List.nil_append srcs).symm ⟨.nil, by simp, by simp, by simp⟩
    (by simp [Sources.ids])

theorem dependencyOrder_topological (done : dependencyOrder srcs lk = .ok ord) :
    TopologicalOrder srcs lk ord := by
  have oc := dependencyOrder_searched srcs lk
  rw [done] at oc
  have visited : Visited srcs lk [] [] srcs.ids ord := oc
  refine ⟨visited.finished.nodup, fun id => ⟨visited.finished.listed id, ?_⟩, ?_⟩
  · rintro ⟨there, unlinked⟩
    exact (visited.done id there).resolve_left unlinked
  · intro fr id bk split impd ims unlinked
    exact (visited.finished.after fr id bk split impd ims).resolve_left unlinked

theorem dependencyOrder_genuine {er : LinkError} (failed : dependencyOrder srcs lk = .error er) :
    er.Genuine srcs lk := by
  have oc := dependencyOrder_searched srcs lk
  rw [failed] at oc
  exact oc

end Search

/-! ### When there is an order -/

section Existence

variable {srcs : Sources} {lk : List String}

theorem ImportCycle.not_acyclic (cyclic : ImportCycle srcs lk cycle) :
    ¬ srcs.Acyclic lk := by
  intro acyclic
  obtain ⟨long, closes, _, chain⟩ := cyclic
  match cycle with
  | [] | [_] => simp at long
  | fst :: snd :: rest =>
    rw [List.isChain_cons_cons] at chain
    have reached : ∀ id ∈ snd :: rest, Relation.TransGen (srcs.Imports lk) fst id :=
      chain.2.induction _ _ (fun _ _ ims ph => ph.tail ims) fun _ => .single chain.1
    have last : (snd :: rest).getLast? = some fst := by simpa using closes.symm
    exact acyclic fst (reached fst (List.mem_of_getLast? last))

namespace TopologicalOrder

section

variable (topo : TopologicalOrder srcs lk ord)

include topo

theorem mem_of_imports {impd : String} (ims : srcs.Imports lk importer impd) : importer ∈ ord := by
  obtain ⟨unlinked, src, found, _⟩ := ims
  exact (topo.mem_iff importer).2 ⟨Sources.mem_ids_of_find found, unlinked⟩

theorem complete : srcs.Complete lk := by
  intro importer impd ims
  by_cases known : impd ∈ lk
  · exact .inr known
  · obtain ⟨fr, bk, split⟩ := List.append_of_mem (topo.mem_of_imports ims)
    have early := topo.after fr importer bk split impd ims known
    have listed : impd ∈ ord := split ▸ List.mem_append_left _ early
    exact .inl ((topo.mem_iff impd).1 listed).1

theorem idxOf_lt {impd : String} (ims : srcs.Imports lk importer impd) (unlinked : impd ∉ lk) :
    ord.idxOf impd < ord.idxOf importer := by
  obtain ⟨fr, bk, split⟩ := List.append_of_mem (topo.mem_of_imports ims)
  have early := topo.after fr importer bk split impd ims unlinked
  have absent : importer ∉ fr := by grind [nodup, List.nodup_append]
  grind

theorem acyclic : srcs.Acyclic lk := by
  -- Along a path of imports the index falls, and no index falls back to itself.
  have falls : ∀ {fst last}, Relation.TransGen (srcs.Imports lk) fst last →
      last ∉ lk → ord.idxOf last < ord.idxOf fst := by
    intro fst last ph unlinked
    induction ph with
    | single ims => exact topo.idxOf_lt ims unlinked
    | tail _ ims ih => exact Nat.lt_trans (topo.idxOf_lt ims unlinked) (ih ims.1)
  intro id ph
  obtain ⟨next, ims, _⟩ := Relation.TransGen.head'_iff.1 ph
  exact Nat.lt_irrefl _ (falls ph ims.1)

end

end TopologicalOrder

theorem dependencyOrder_isOk_iff (srcs : Sources) (lk : List String) :
    (∃ ord, dependencyOrder srcs lk = .ok ord) ↔ srcs.Complete lk ∧ srcs.Acyclic lk := by
  constructor
  · rintro ⟨ord, done⟩
    have topo := dependencyOrder_topological done
    exact ⟨topo.complete, topo.acyclic⟩
  · rintro ⟨complete, acyclic⟩
    cases r : dependencyOrder srcs lk with
    | ok ord => exact ⟨ord, rfl⟩
    | error er =>
      have genuine := dependencyOrder_genuine r
      cases er with
      | cyclicImport cycle => exact absurd acyclic (ImportCycle.not_acyclic genuine)
      | notLoaded missing importer =>
        obtain ⟨ims, absent, unlinked⟩ := genuine
        exact absurd (complete importer missing ims) (by simp [absent, unlinked])
      | notExported | duplicate | notLinked => exact genuine.elim

theorem Sources.find_eq_some (dst : srcs.ids.Nodup) :
    srcs.find id = some src ↔ src ∈ srcs ∧ src.id = id := by
  constructor
  · intro found
    exact ⟨List.mem_of_find?_eq_some found, by simpa using List.find?_some found⟩
  · rintro ⟨mem, rfl⟩
    obtain ⟨fr, bk, rfl⟩ := List.append_of_mem mem
    grind [Sources.find_of_new, Sources.ids]

/-- The graph does not depend on how its modules are listed. -/
theorem Sources.imports_perm {o : Sources} (dst : srcs.ids.Nodup) (perm : o.Perm srcs) :
    o.Imports lk = srcs.Imports lk := by
  have distinctOther : o.ids.Nodup := (perm.map _).nodup_iff.2 dst
  grind [Sources.Imports, Sources.find_eq_some]

/-- The order of imports is a topological sort.  There is one exactly when every import is
there and no modules import each other, whatever order the modules are given in, and an
error names a missing import or a cycle. -/
theorem dependencyOrder_sorts (srcs : Sources) (lk : List String) :
    ((∃ ord, dependencyOrder srcs lk = .ok ord) ↔
      srcs.Complete lk ∧ srcs.Acyclic lk) ∧
    (∀ ord, dependencyOrder srcs lk = .ok ord →
      TopologicalOrder srcs lk ord) ∧
    (∀ er, dependencyOrder srcs lk = .error er →
      er.Genuine srcs lk) ∧
    (srcs.ids.Nodup → ∀ o, o.Perm srcs →
      ((∃ ord, dependencyOrder o lk = .ok ord) ↔
        ∃ ord, dependencyOrder srcs lk = .ok ord)) := by
  refine ⟨dependencyOrder_isOk_iff srcs lk, fun _ => dependencyOrder_topological,
    fun _ => dependencyOrder_genuine, fun dst o perm => ?_⟩
  have sameIds : ∀ id, id ∈ o.ids ↔ id ∈ srcs.ids := fun id => (perm.map _).mem_iff
  rw [dependencyOrder_isOk_iff, dependencyOrder_isOk_iff]
  simp only [Sources.Complete, Sources.Acyclic, Sources.imports_perm dst perm, sameIds]

end Existence

end CallByNeed
