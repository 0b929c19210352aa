import ModuleCompiler.FileTree
import ModuleCompiler.Proofs.Path.Pathname

/-!
# Following paths in a file tree

A path that can be followed leads to the place that its segments name one after the other, so the
place of a path, `placeOf`, does not depend on the files, and following is needed only to tell
whether the path leads anywhere at all (`eq_of_walk`). Both cut a path into its pieces, one segment
at a time or at any slash (`walk_cons_eq_ok_iff`, `walk_append_eq_ok_iff`).

Trees are ordered by what there is in them: `Extends` keeps every file and directory, but not what
the files hold. In a larger tree the same paths lead to the same places (`Extends.walk`), which is
all that the proofs about writing need. What is read is what stands at the place of the path
(`read_eq_ok_iff`).
-/

namespace ModuleCompiler.FileTree

open Path

variable {tree later : FileTree} {place found names : List Text} {name path text : Text}

/-! ## Places -/

/-- Where one segment leads. -/
def advance (place : List Text) (name : Text) : List Text :=
  if name = [] ∨ name = ['.'] then place
  else if name = ['.', '.'] then place.dropLast
  else place ++ [name]

/-- A name leads one step further down. -/
theorem advance_of_isName (h : IsName name) (place : List Text) :
    advance place name = place ++ [name] := by
  rw [advance, if_neg (not_or_intro h.nonempty h.ne_dot), if_neg h.ne_dots]

/-- Names lead further down, one after the other. -/
theorem foldl_advance_of_isName (h : ∀ name ∈ names, IsName name) (place : List Text) :
    names.foldl advance place = place ++ names := by
  induction names generalizing place with
  | nil => rw [List.foldl_nil, List.append_nil]
  | cons name rest ih =>
    obtain ⟨hname, hrest⟩ := List.forall_mem_cons.1 h
    rw [List.foldl_cons, advance_of_isName hname, ih hrest, List.append_assoc,
      List.singleton_append]

/-- Where a path starts. -/
def originOf (tree : FileTree) (path : Text) : List Text :=
  if isAbsolute path then [] else tree.home

/-- Where a path leads, if it can be followed. -/
def placeOf (tree : FileTree) (path : Text) : List Text :=
  (segments path).foldl advance (tree.originOf path)

/-- The path can name a file. -/
def Usable (path : Text) : Prop :=
  '\x00' ∉ path ∧ path ≠ [] ∧ Text.byteLength path < pathLimit

/-- A path that can name a file starts at the root or in the current directory, with its segments
still to be followed. -/
theorem start_eq_ok_iff {start : List Text × List Text} :
    tree.start path = .ok start ↔ Usable path ∧ start = (tree.originOf path, segments path) := by
  unfold FileTree.start
  split
  · simp [Usable, *]
  · rename_i hnul
    split
    · simp [Usable, *]
    · rename_i hnil
      split
      · simp only [reduceCtorEq, Usable, false_iff, not_and]
        omega
      · rename_i hlength
        rw [Except.ok.injEq, and_iff_right ⟨hnul, hnil, by omega⟩]
        exact eq_comm

/-! ## Following -/

/-- A segment leads somewhere from a directory. -/
def Opens (tree : FileTree) (place : List Text) (name : Text) : Prop :=
  name = [] ∨ name = ['.'] ∨ name = ['.', '.'] ∨
    Text.byteLength name ≤ nameLimit ∧
      ((tree.content? (place ++ [name])).isSome = true ∨ tree.isDirectory (place ++ [name]) = true)

/-- A segment that names nothing can always be followed. -/
theorem opens_of_blank (h : name = [] ∨ name = ['.']) : tree.Opens place name :=
  h.imp_right .inl

/-- A path leads somewhere from a place exactly if the place is a directory, the first segment can
be followed from it and the rest leads there from where that segment leads. -/
theorem walk_cons_eq_ok_iff {rest : List Text} :
    tree.walk place (name :: rest) = .ok found ↔
      tree.isDirectory place = true ∧ tree.Opens place name ∧
        tree.walk (advance place name) rest = .ok found := by
  rw [walk, advance]
  -- The cases are the kinds of segment, in the order in which following tells them apart: blank,
  -- up, too long for a name, and a name that is there or is not.
  by_cases hdir : tree.isDirectory place = true
  · rw [if_neg (by simp [hdir])]
    split
    · rename_i hblank
      have hopens : tree.Opens place name := opens_of_blank hblank
      simp [hdir, hopens]
    · rename_i hblank
      rw [not_or] at hblank
      split
      · rename_i hdots
        simp [hdir, Opens, hdots]
      · rename_i hdots
        split
        · rename_i hlong
          have hopens : ¬ tree.Opens place name := by
            simp only [Opens, hblank.1, hblank.2, hdots, false_or, not_and]
            omega
          simp [hopens]
        · rename_i hshort
          simp only [Bool.or_eq_true]
          split
          · rename_i hinner
            have hopens : tree.Opens place name := .inr (.inr (.inr ⟨by omega, hinner⟩))
            simp [hdir, hopens]
          · rename_i hinner
            have hopens : ¬ tree.Opens place name := by
              simp only [Opens, hblank.1, hblank.2, hdots, false_or, not_and]
              exact fun _ => hinner
            simp [hopens]
  · simp [hdir]

/-- Following a path leads to its place. -/
theorem eq_of_walk {pieces : List Text} (h : tree.walk place pieces = .ok found) :
    found = pieces.foldl advance place := by
  induction pieces generalizing place with
  | nil => exact (Except.ok.inj h).symm
  | cons piece rest ih => exact ih (walk_cons_eq_ok_iff.1 h).2.2

/-- A path of two parts is followed one part after the other. -/
theorem walk_append_eq_ok_iff {front back : List Text} :
    tree.walk place (front ++ back) = .ok found ↔
      ∃ middle, tree.walk place front = .ok middle ∧ tree.walk middle back = .ok found := by
  induction front generalizing place with
  | nil => simp [walk]
  | cons piece rest ih =>
    simp only [List.cons_append, walk_cons_eq_ok_iff, ih]
    constructor
    · rintro ⟨hdir, hopens, middle, hrest, hback⟩
      exact ⟨middle, ⟨hdir, hopens, hrest⟩, hback⟩
    · rintro ⟨middle, ⟨hdir, hopens, hrest⟩, hback⟩
      exact ⟨hdir, hopens, middle, hrest, hback⟩

/-- Segments that name nothing lead nowhere else, and can be followed from a directory. -/
theorem walk_blank_eq_ok_iff {blanks : List Text}
    (hblank : ∀ name ∈ blanks, name = [] ∨ name = ['.']) :
    tree.walk place blanks = .ok found ↔
      found = place ∧ (blanks ≠ [] → tree.isDirectory place = true) := by
  induction blanks with
  | nil =>
    rw [walk, Except.ok.injEq, eq_comm]
    simp
  | cons name rest ih =>
    obtain ⟨hname, hrest⟩ := List.forall_mem_cons.1 hblank
    rw [walk_cons_eq_ok_iff, advance, if_pos hname, ih hrest]
    constructor
    · rintro ⟨hdir, -, hfound, -⟩
      exact ⟨hfound, fun _ => hdir⟩
    · rintro ⟨hfound, hdir⟩
      have hdir := hdir (List.cons_ne_nil _ _)
      exact ⟨hdir, opens_of_blank hname, hfound, fun _ => hdir⟩

/-! ## Larger trees -/

/-- A tree has all files and directories of another, though the files may hold something else. -/
structure Extends (tree later : FileTree) : Prop where
  home : later.home = tree.home
  content : ∀ {names}, (tree.content? names).isSome = true → (later.content? names).isSome = true
  directory : ∀ {names}, tree.isDirectory names = true → later.isDirectory names = true

/-- A tree has all that is in it. -/
theorem Extends.refl (tree : FileTree) : tree.Extends tree :=
  ⟨rfl, id, id⟩

/-- A tree that has grown twice has grown. -/
theorem Extends.trans {last : FileTree} (h : tree.Extends later) (h' : later.Extends last) :
    tree.Extends last :=
  ⟨h'.home.trans h.home, fun hc => h'.content (h.content hc),
    fun hd => h'.directory (h.directory hd)⟩

/-- A segment that can be followed still can when there is more in the tree. -/
theorem Extends.opens (h : tree.Extends later) (hopens : tree.Opens place name) :
    later.Opens place name := by
  rcases hopens with hname | hname | hname | ⟨hlength, hinner⟩
  · exact .inl hname
  · exact .inr (.inl hname)
  · exact .inr (.inr (.inl hname))
  · exact .inr (.inr (.inr ⟨hlength, hinner.imp h.content h.directory⟩))

/-- What could be followed still can. -/
theorem Extends.walk {pieces : List Text} (h : tree.Extends later)
    (hwalk : tree.walk place pieces = .ok found) : later.walk place pieces = .ok found := by
  induction pieces generalizing place with
  | nil => exact hwalk
  | cons piece rest ih =>
    obtain ⟨hdir, hopens, hrest⟩ := walk_cons_eq_ok_iff.1 hwalk
    exact walk_cons_eq_ok_iff.2 ⟨h.directory hdir, h.opens hopens, ih hrest⟩

/-- The place of a path depends on the current directory alone. -/
theorem Extends.placeOf (h : tree.Extends later) (path : Text) :
    later.placeOf path = tree.placeOf path := by
  rw [FileTree.placeOf, FileTree.placeOf, originOf, originOf, h.home]

/-- A text is read when the path can be followed to a file that holds it. -/
theorem read_eq_ok_iff :
    tree.read path = .ok text ↔ Usable path ∧
      tree.walk (tree.originOf path) (segments path) = .ok (tree.placeOf path) ∧
      tree.content? (tree.placeOf path) = some (.text text) := by
  rw [read]
  rcases hstart : tree.start path with fault | ⟨place, pieces⟩
  · have husable : ¬ Usable path := by
      intro husable
      rw [start_eq_ok_iff.2 ⟨husable, rfl⟩] at hstart
      simp at hstart
    simp [bind, Except.bind, husable]
  · -- what is reached can only be the place of the path, so the file is looked up there
    obtain ⟨husable, heq⟩ := start_eq_ok_iff.1 hstart
    obtain ⟨rfl, rfl⟩ := Prod.mk.inj heq
    rcases hwalk : tree.walk (tree.originOf path) (segments path) with fault | reached
    · simp [bind, Except.bind, hwalk]
    · obtain rfl : reached = tree.placeOf path := eq_of_walk hwalk
      simp only [bind, Except.bind, hwalk, husable, true_and]
      split <;> simp_all

end ModuleCompiler.FileTree
