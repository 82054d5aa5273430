import CallByNeed.Files.Tree
import CallByNeed.Proofs.RoundTrip

/-!
# Normal paths

The parts of a normal absolute path are names: none of them is empty or made of
dots.  So `normal` changes such a path no more (`normal_normal`), and a path that
can be followed leads where its normal form says (`Tree.follow_eq`).  A file of a
tree is therefore known by few normal paths, those of `Tree.ids`.
-/

variable {working : String}

namespace CallByNeed

open Text

/-! ### Cutting and joining -/

variable {ch : Char} {ph part : String} {slashes : Nat}

namespace Text

variable {sep : Char}

theorem notMem_of_mem_splitAt {tx piece : List Char} (mem : piece ∈ splitAt sep tx) :
    sep ∉ piece := by
  induction tx generalizing piece with
  | nil => grind [splitAt]
  | cons ch rest ih =>
    rw [splitAt] at mem
    grind

theorem mem_of_mem_splitAt {tx piece : List Char} (mem : piece ∈ splitAt sep tx)
    (inside : ch ∈ piece) : ch ∈ tx := by
  induction tx generalizing piece with
  | nil => grind [splitAt]
  | cons fst rest ih => grind [splitAt]

theorem splitAt_append {fr : List Char} (absent : sep ∉ fr) (rest : List Char) :
    splitAt sep (fr ++ sep :: rest) = fr :: splitAt sep rest := by
  induction fr with
  | nil => simp [splitAt]
  | cons ch fr ih =>
    rw [List.mem_cons, not_or] at absent
    grind [splitAt]

/-- Pieces without the separator are what a text is cut into that joins them. -/
theorem splitAt_intercalate {pcs : List (List Char)} (some : pcs ≠ [])
    (absent : ∀ piece ∈ pcs, sep ∉ piece) : splitAt sep ([sep].intercalate pcs) = pcs := by
  induction pcs with
  | nil => exact absurd rfl some
  | cons fst rest ih =>
    have missing := absent fst List.mem_cons_self
    cases rest with
    | nil =>
      rw [List.intercalate_singleton]
      exact Source.splitAt_of_notMem missing
    | cons snd rest => grind [List.intercalate_cons_cons, splitAt_append]

theorem intercalate_splitAt (sep : Char) (tx : List Char) :
    [sep].intercalate (splitAt sep tx) = tx := by
  induction tx with
  | nil => simp [splitAt]
  | cons ch rest ih =>
    have some : splitAt sep rest ≠ [] := by
      unfold splitAt
      grind
    obtain ⟨piece, pcs, cut⟩ := List.exists_cons_of_ne_nil some
    rw [splitAt, cut]
    rw [cut] at ih
    split
    · simp_all [List.intercalate_cons_cons]
    simp_all

theorem mem_of_mem_intercalate {pcs : List (List Char)} (mem : ch ∈ [sep].intercalate pcs) :
    ch = sep ∨ ∃ piece ∈ pcs, ch ∈ piece := by
  induction pcs with
  | nil => simp at mem
  | cons fst rest ih =>
    cases rest with
    | nil => simp_all
    | cons snd rest => grind [List.intercalate_cons_cons]

/-- What follows a text does not change the longest front of a class of characters when it
starts with another character. -/
theorem takeWhile_append_of_head? {rest : List Char} {stays : Char → Bool}
    (ots : ∀ ch ∈ rest.head?, stays ch = false) :
    (chs ++ rest).takeWhile stays = chs.takeWhile stays := by
  induction chs with
  | nil => cases rest <;> simp_all
  | cons ch chs ih => simp only [List.cons_append, List.takeWhile_cons, ih]

end Text

namespace Files

/-! ### Parts -/

theorem notMem_of_mem_parts (mem : part ∈ parts ph) : '/' ∉ part.toList := by
  obtain ⟨piece, cut, rfl⟩ := List.mem_map.mp mem
  rw [String.toList_ofList]
  exact notMem_of_mem_splitAt cut

theorem mem_of_mem_parts (mem : part ∈ parts ph) (inside : ch ∈ part.toList) : ch ∈ ph.toList := by
  obtain ⟨piece, cut, rfl⟩ := List.mem_map.mp mem
  rw [String.toList_ofList] at inside
  exact mem_of_mem_splitAt cut inside

theorem isAbsolute_iff : isAbsolute ph = true ↔ ∃ rest, ph.toList = '/' :: rest := by
  rw [isAbsolute, decide_eq_true_iff, List.head?_eq_some_iff]

/-- What a directory can have an entry for. -/
structure IsEntryName (part : String) : Prop where
  some : part ≠ ""
  notHere : part ≠ "."
  notAbove : part ≠ ".."
  whole : '/' ∉ part.toList

theorem IsEntryName.addPart (named : IsEntryName part) (rooted : Bool) (ph : List String) :
    addPart rooted ph part = ph ++ [part] := by
  simp [Files.addPart, named.some, named.notHere, named.notAbove]

theorem foldl_addPart_of_names {xs : List String} (named : ∀ x ∈ xs, IsEntryName x) (rooted : Bool)
    (ph : List String) : xs.foldl (addPart rooted) ph = ph ++ xs := by
  induction xs generalizing ph with
  | nil => simp
  | cons x xs ih =>
    rw [List.foldl_cons, (named x List.mem_cons_self).addPart,
      ih fun o mem => named o (List.mem_cons_of_mem _ mem), List.append_assoc,
      List.singleton_append]

theorem addPart_empty (rooted : Bool) (ph : List String) : addPart rooted ph "" = ph := by
  simp [addPart]

/-- Where a double dot is not, one takes away the last part, if there is one. -/
theorem addPart_above {ph : List String} (named : ∀ x ∈ ph, IsEntryName x) :
    addPart true ph ".." = ph.dropLast := by
  cases last : ph.getLast? with
  | none => grind [List.getLast?_eq_none_iff, addPart]
  | some x =>
    have below := (named x (List.mem_of_getLast? last)).notAbove
    simp [addPart, last, below]

/-- The parts of a normal absolute path are names. -/
theorem names_addPart {ph : List String} (named : ∀ x ∈ ph, IsEntryName x)
    (whole : '/' ∉ part.toList) : ∀ x ∈ addPart true ph part, IsEntryName x := by
  by_cases stays : part = "" ∨ part = "."
  · grind [addPart]
  · rw [not_or] at stays
    by_cases above : part = ".."
    · grind [addPart_above, List.mem_of_mem_dropLast]
    · have isName : IsEntryName part := ⟨stays.1, stays.2, above, whole⟩
      rw [isName.addPart]
      grind

theorem names_foldl_addPart {ph added : List String} (named : ∀ x ∈ ph, IsEntryName x)
    (whole : ∀ part ∈ added, '/' ∉ part.toList) :
    ∀ x ∈ added.foldl (addPart true) ph, IsEntryName x := by
  induction added generalizing ph with
  | nil => exact named
  | cons part added ih => grind [names_addPart, List.mem_cons_self]

theorem mem_foldl_addPart {rooted : Bool} {ph added : List String} {x : String}
    (mem : x ∈ added.foldl (addPart rooted) ph) : x ∈ ph ∨ x ∈ added := by
  induction added generalizing ph with
  | nil => exact .inl mem
  | cons part added ih =>
    rcases ih mem with early | late
    · have added : x ∈ ph ++ [part] := by
        unfold addPart at early
        split at early
        · simp_all
        · split at early
          · split at early
            · simp_all
            · split at early
              · exact early
              grind [List.mem_of_mem_dropLast]
          · exact early
      grind
    simp_all

theorem names_normalParts (rooted : isAbsolute ph) : ∀ x ∈ normalParts ph, IsEntryName x := by
  grind [normalParts, names_foldl_addPart, notMem_of_mem_parts]

/-! ### Absolute paths -/

/-- The absolute path of names, behind slashes. -/
def rootedPath (slashes : Nat) (xs : List String) : String :=
  copies slashes '/' ++ String.intercalate "/" xs

theorem toList_rootedPath (slashes : Nat) (xs : List String) :
    (rootedPath slashes xs).toList =
      List.replicate slashes '/' ++ ['/'].intercalate (xs.map String.toList) := by
  simp [rootedPath, copies, String.toList_append, String.toList_intercalate]

theorem leadingSlashes_of_isAbsolute (rooted : isAbsolute ph) :
    leadingSlashes ph = 1 ∨ leadingSlashes ph = 2 := by
  obtain ⟨rest, chs⟩ := isAbsolute_iff.mp rooted
  unfold leadingSlashes
  split
  · simp_all
  · exact .inr rfl
  · exact .inl rfl

theorem isAbsolute_rootedPath (some : 0 < slashes) (xs : List String) :
    isAbsolute (rootedPath slashes xs) := by
  obtain ⟨k, rfl⟩ := Nat.exists_eq_add_of_lt some
  simp [isAbsolute_iff, toList_rootedPath, List.replicate_succ]

theorem normal_eq (rooted : isAbsolute ph) :
    normal ph = rootedPath (leadingSlashes ph) (normalParts ph) := by
  have slashes : 0 < leadingSlashes ph := by
    rcases leadingSlashes_of_isAbsolute rooted with one | two <;> omega
  have some : (rootedPath (leadingSlashes ph) (normalParts ph)).isEmpty = false := by
    obtain ⟨rest, chs⟩ := isAbsolute_iff.mp (isAbsolute_rootedPath slashes (normalParts ph))
    rw [Bool.eq_false_iff]
    intro empty
    simp_all
  rw [normal]
  exact if_neg (by rw [Bool.not_eq_true]; exact some)

theorem isAbsolute_normal (rooted : isAbsolute ph) : isAbsolute (normal ph) := by
  rw [normal_eq rooted]
  apply isAbsolute_rootedPath
  rcases leadingSlashes_of_isAbsolute rooted with one | two <;> omega

section RootedPath

variable {xs : List String} (named : ∀ x ∈ xs, IsEntryName x)

include named

theorem head?_intercalate : ((['/'].intercalate (xs.map String.toList)).head? ≠ some '/') := by
  cases xs with
  | nil => simp
  | cons fst rest =>
    have isName := named fst List.mem_cons_self
    cases chs : fst.toList with
    | nil =>
      have empty : fst = "" := String.toList_eq_nil_iff.mp chs
      exact absurd empty isName.some
    | cons ch os =>
      have apart : ch ≠ '/' := by
        rintro rfl
        exact isName.whole (chs ▸ List.mem_cons_self)
      simp_all

theorem takeWhile_rootedPath (slashes : Nat) :
    (rootedPath slashes xs).toList.takeWhile (· = '/') = List.replicate slashes '/' := by
  have stops : (['/'].intercalate (xs.map String.toList)).takeWhile (· = '/') = [] := by
    grind [List.takeWhile_eq_nil_iff, head?_intercalate, List.head?_eq_getElem?]
  grind [toList_rootedPath, List.takeWhile_append_of_pos]

theorem parts_rootedPath (slashes : Nat) :
    parts (rootedPath slashes xs) =
      List.replicate slashes "" ++ (if xs = [] then [""] else xs) := by
  have cut : splitAt '/' (rootedPath slashes xs).toList =
      List.replicate slashes [] ++ (if xs = [] then [[]] else xs.map String.toList) := by
    rw [toList_rootedPath]
    induction slashes with
    | zero =>
      by_cases empty : xs = []
      · simp [empty, splitAt]
      · rw [if_neg empty, List.replicate_zero, List.replicate_zero, List.nil_append,
          List.nil_append]
        apply splitAt_intercalate
        · simpa using empty
        · intro piece mem
          obtain ⟨x, listed, rfl⟩ := List.mem_map.mp mem
          exact (named x listed).whole
    | succ slashes ih => grind [splitAt]
  rw [parts, cut, List.map_append, List.map_replicate]
  congr 1
  split
  · rfl
  simp

theorem normalParts_rootedPath (some : 0 < slashes) : normalParts (rootedPath slashes xs) = xs := by
  have skipped : ∀ k : Nat, (List.replicate k "").foldl (addPart true) [] = [] := by
    intro k
    induction k with
    | zero => rfl
    | succ k ih => rw [List.replicate_succ, List.foldl_cons, addPart_empty, ih]
  rw [normalParts, isAbsolute_rootedPath some, parts_rootedPath named, List.foldl_append, skipped]
  split
  · rename_i empty
    rw [empty]
    rfl
  · exact foldl_addPart_of_names named true []

theorem leadingSlashes_rootedPath (few : slashes = 1 ∨ slashes = 2) :
    leadingSlashes (rootedPath slashes xs) = slashes := by
  grind [leadingSlashes, takeWhile_rootedPath]

end RootedPath

/-- A normal absolute path is its own normal form. -/
theorem normal_normal (rooted : isAbsolute ph) : normal (normal ph) = normal ph := by
  have named := names_normalParts rooted
  have few := leadingSlashes_of_isAbsolute rooted
  have some : 0 < leadingSlashes ph := by omega
  rw [normal_eq (isAbsolute_normal rooted), normal_eq rooted, normalParts_rootedPath named some,
    leadingSlashes_rootedPath named few]

theorem mem_of_mem_normal (rooted : isAbsolute ph) (mem : ch ∈ (normal ph).toList) :
    ch ∈ ph.toList := by
  obtain ⟨rest, chs⟩ := isAbsolute_iff.mp rooted
  by_cases slash : ch = '/'
  · simp_all
  · rw [normal_eq rooted, toList_rootedPath, List.mem_append] at mem
    rcases mem with leading | inside
    · simp_all
    · obtain same | ⟨piece, listed, inside⟩ := mem_of_mem_intercalate inside
      · exact absurd same slash
      · obtain ⟨x, known, rfl⟩ := List.mem_map.mp listed
        rcases mem_foldl_addPart known with impossible | part
        · cases impossible
        · exact mem_of_mem_parts part inside

theorem isAbsolute_join {dir : String} (rooted : isAbsolute dir) :
    isAbsolute (join dir ph) := by grind [isAbsolute_iff, join, String.toList_append]

/-- The id of a module: a normal absolute path. -/
structure IsId (ph : String) : Prop where
  rooted : isAbsolute ph
  normal : normal ph = ph

theorem isId_absolute (rooted : isAbsolute working) (ph : String) : IsId (absolute working ph) :=
  ⟨isAbsolute_normal (isAbsolute_join rooted), normal_normal (isAbsolute_join rooted)⟩

/-- An id stands for itself, whatever directory it is seen from. -/
theorem IsId.absolute {id : String} (isId : IsId id) (working : String) :
    absolute working id = id := by
  rw [Files.absolute, join, if_pos isId.rooted, isId.normal]

/-! ### Files of a tree -/

namespace Tree

/-- A path that can be followed leads where its parts say. -/
theorem follow_eq {tree : Tree} {pl last route : List String} (named : ∀ x ∈ pl, IsEntryName x)
    (whole : ∀ part ∈ route, '/' ∉ part.toList) (followed : tree.follow pl route = some last) :
    last = route.foldl (addPart true) pl := by
  induction route generalizing pl with
  | nil =>
    cases followed
    rfl
  | cons part route ih =>
    have next := names_addPart named (whole part List.mem_cons_self)
    have rest := fun o mem => whole o (List.mem_cons_of_mem part mem)
    rw [follow] at followed
    rw [List.foldl_cons]
    refine ih next rest ?_
    split at followed
    · cases followed
    · by_cases stays : part = "" ∨ part = "."
      · grind [addPart]
      · rw [not_or] at stays
        by_cases above : part = ".."
        · grind [addPart_above]
        · have isName : IsEntryName part := ⟨stays.1, stays.2, above, whole part List.mem_cons_self⟩
          rw [isName.addPart]
          simp_all

/-- What an absolute path leads to stands in the tree at its normal parts. -/
theorem entry?_of_find {tree : Tree} {ph : String} {en : Entry} (rooted : isAbsolute ph)
    (found : tree.find working ph = some en) :
    isFollowable ph ∧ tree.entry? (normalParts ph) = some en := by
  unfold find at found
  by_cases followable : isFollowable ph = true
  · simp only [followable, rooted, Bool.not_true, Bool.false_eq_true, if_false, if_true] at found
    grind [Option.bind_eq_some_iff, normalParts, follow_eq, notMem_of_mem_parts]
  simp_all

/-- The ids that the files of a tree can have. -/
def ids (tree : Tree) : List String := tree.flatMap fun en => [rootedPath 1 en.1, rootedPath 2 en.1]

/-- A file is known by few ids. -/
theorem mem_ids_of_find {tree : Tree} {id : String} {bytes : List UInt8} (isId : IsId id)
    (found : tree.find working id = some (.file bytes)) : id ∈ tree.ids := by
  obtain ⟨_, held⟩ := entry?_of_find isId.rooted found
  have listed : tree.lookup (normalParts id) = some (.file bytes) := by
    rw [ entry?] at held
    split at held
    · cases held
    · exact held
  obtain ⟨fr, bk, split, _⟩ := List.lookup_eq_some_iff.mp listed
  refine List.mem_flatMap.mpr ⟨(normalParts id, .file bytes), by simp [split], ?_⟩
  rw [← isId.normal, normal_eq isId.rooted]
  rcases leadingSlashes_of_isAbsolute isId.rooted with one | two
  · simp [one, normalParts_rootedPath (names_normalParts isId.rooted)]
  · simp [two, normalParts_rootedPath (names_normalParts isId.rooted)]

end Tree

end Files

end CallByNeed
