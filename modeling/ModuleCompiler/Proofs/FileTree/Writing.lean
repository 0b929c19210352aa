import Mathlib.Data.List.Infix
import Mathlib.Data.List.TakeWhile
import ModuleCompiler.Proofs.FileTree.Following

/-!
# Writing into a file tree

Writing creates the directories that are missing on the way and puts the text at the place of its
path. It takes no file or directory away, so what could be read before still can, unless it is the
file at that place.

The directories are made by `createFrom`, along the same segments that following a path takes, so
the induction of `of_createFrom` has the cases of `walk_cons_eq_ok_iff`. Between the directory that
is made and the path that is written there is one gap: the directory is the `container` of the path,
a text that drops blank segments. `exists_segments_container` closes it, and `of_write` puts both
together into `Stores`, the one record of what a write does to every place; what can be read
afterwards follows from that record alone.
-/

namespace ModuleCompiler.FileTree

open Path

variable {tree later : FileTree} {place found names : List Text} {name path text : Text}

/-! ## Making directories -/

/-- A place is a directory if it is on the way to the current directory, was made or is on the way
to a file. -/
theorem isDirectory_iff :
    tree.isDirectory names = true ↔ names <+: tree.home ∨
      (∃ dir ∈ tree.directories, names <+: dir) ∨
      ∃ file ∈ tree.files, names <+: file.1 ∧ names ≠ file.1 := by
  simp [isDirectory, or_assoc]

/-- What is above a directory is one. -/
theorem isDirectory_dropLast (h : tree.isDirectory names = true) :
    tree.isDirectory names.dropLast = true := by
  have hinitial : names.dropLast <+: names := List.dropLast_prefix names
  rw [isDirectory_iff] at h ⊢
  rcases h with hhome | ⟨dir, hmem, hdir⟩ | ⟨file, hmem, hfile, hne⟩
  · exact .inl (hinitial.trans hhome)
  · exact .inr (.inl ⟨dir, hmem, hinitial.trans hdir⟩)
  · refine .inr (.inr ⟨file, hmem, hinitial.trans hfile, fun heq => hne ?_⟩)
    exact hfile.eq_of_length_le (by rw [← heq]; exact hinitial.length_le)

/-- A tree has the files of another and at least its directories. -/
structure AddsDirectories (tree later : FileTree) : Prop where
  home : later.home = tree.home
  files : later.files = tree.files
  directories : ∀ dir ∈ tree.directories, dir ∈ later.directories

/-- A tree in which nothing is made has what it had. -/
theorem AddsDirectories.refl (tree : FileTree) : tree.AddsDirectories tree :=
  ⟨rfl, rfl, fun _ h => h⟩

/-- Directories can be made one after the other. -/
theorem AddsDirectories.trans {last : FileTree} (h : tree.AddsDirectories later)
    (h' : later.AddsDirectories last) : tree.AddsDirectories last :=
  ⟨h'.home.trans h.home, h'.files.trans h.files,
    fun dir hmem => h'.directories dir (h.directories dir hmem)⟩

/-- Making directories changes no file. -/
theorem AddsDirectories.content? (h : tree.AddsDirectories later) (names : List Text) :
    later.content? names = tree.content? names := by
  rw [FileTree.content?, FileTree.content?, h.files]

/-- A tree with more directories has grown. -/
theorem AddsDirectories.extends (h : tree.AddsDirectories later) : tree.Extends later where
  home := h.home
  content hsome := by rwa [h.content?]
  directory hdir := by
    rw [isDirectory_iff] at hdir ⊢
    rw [h.home, h.files]
    exact hdir.imp_right (.imp_left fun ⟨dir, hmem, hinitial⟩ =>
      ⟨dir, h.directories dir hmem, hinitial⟩)

/-- A name on the way of what is created is a directory already, or becomes one. -/
theorem exists_of_createFrom_name {rest : List Text} (hblank : ¬ (name = [] ∨ name = ['.']))
    (hdots : name ≠ ['.', '.']) (h : tree.createFrom place (name :: rest) = .ok (later, found)) :
    Text.byteLength name ≤ nameLimit ∧ ∃ middle, tree.AddsDirectories middle ∧
      middle.isDirectory (place ++ [name]) = true ∧
        middle.createFrom (place ++ [name]) rest = .ok (later, found) := by
  rw [createFrom, if_neg hblank, if_neg hdots] at h
  split at h
  · simp at h
  · rename_i hlength
    refine ⟨by omega, ?_⟩
    dsimp only at h
    split at h
    · simp at h
    · split at h
      · rename_i hinner
        exact ⟨tree, .refl tree, hinner, h⟩
      · refine ⟨{ tree with directories := (place ++ [name]) :: tree.directories },
          ⟨rfl, rfl, fun _ => List.mem_cons_of_mem _⟩, ?_, h⟩
        rw [isDirectory_iff]
        exact .inr (.inl ⟨_, List.mem_cons_self, List.prefix_rfl⟩)

/-- Creating directories from a directory makes a path that can be followed to a directory. -/
theorem of_createFrom {pieces : List Text} (hdir : tree.isDirectory place = true)
    (h : tree.createFrom place pieces = .ok (later, found)) :
    tree.AddsDirectories later ∧ later.walk place pieces = .ok found ∧
      later.isDirectory found = true := by
  -- On the segments, with the tree that has been made so far: what the rest of them needs is only
  -- that the place they start from is a directory.
  induction pieces generalizing tree place with
  | nil =>
    obtain ⟨rfl, rfl⟩ := Prod.mk.inj (Except.ok.inj h)
    exact ⟨.refl _, rfl, hdir⟩
  | cons name rest ih =>
    by_cases hblank : name = [] ∨ name = ['.']
    · rw [createFrom, if_pos hblank] at h
      obtain ⟨hadds, hwalk, hfound⟩ := ih hdir h
      rw [walk_cons_eq_ok_iff, advance, if_pos hblank]
      exact ⟨hadds, ⟨hadds.extends.directory hdir, opens_of_blank hblank, hwalk⟩, hfound⟩
    by_cases hdots : name = ['.', '.']
    · rw [createFrom, if_neg hblank, if_pos hdots] at h
      obtain ⟨hadds, hwalk, hfound⟩ := ih (isDirectory_dropLast hdir) h
      rw [walk_cons_eq_ok_iff, advance, if_neg hblank, if_pos hdots]
      exact ⟨hadds, ⟨hadds.extends.directory hdir, .inr (.inr (.inl hdots)), hwalk⟩, hfound⟩
    · obtain ⟨hlength, middle, hmiddle, hinner, hcreate⟩ :=
        exists_of_createFrom_name hblank hdots h
      obtain ⟨hadds, hwalk, hfound⟩ := ih hinner hcreate
      have hopens : later.Opens place name :=
        .inr (.inr (.inr ⟨hlength, .inr (hadds.extends.directory hinner)⟩))
      have hextends := hmiddle.trans hadds
      rw [walk_cons_eq_ok_iff, advance, if_neg hblank, if_neg hdots]
      exact ⟨hextends, ⟨hextends.extends.directory hdir, hopens, hwalk⟩, hfound⟩

/-- Making a path a directory makes it one that can be followed. -/
theorem of_createDirectories (h : tree.createDirectories path = .ok (later, found)) :
    Usable path ∧ tree.AddsDirectories later ∧
      later.walk (tree.originOf path) (segments path) = .ok found ∧
      later.isDirectory found = true := by
  rw [createDirectories] at h
  rcases hstart : tree.start path with fault | start
  · simp [hstart, bind, Except.bind] at h
  · obtain ⟨husable, rfl⟩ := start_eq_ok_iff.1 hstart
    refine ⟨husable, ?_⟩
    simp only [hstart, bind, Except.bind] at h
    split at h
    · rename_i reached hwalk
      split at h
      · rename_i hdir
        obtain ⟨rfl, rfl⟩ := Prod.mk.inj (Except.ok.inj h)
        exact ⟨.refl _, hwalk, hdir⟩
      · simp at h
    · rename_i hmissing
      refine of_createFrom ?_ h
      -- only a segment that is looked up in a directory can be missing there
      obtain ⟨first, rest, hsegments⟩ :=
        List.exists_cons_of_ne_nil (List.splitOn_ne_nil '/' path)
      change segments path = first :: rest at hsegments
      by_contra hdir
      rw [hsegments, walk, if_pos (by simpa using hdir)] at hmissing
      simp at hmissing
    · simp at h

/-! ## Writing -/

/-- The segment names nothing, so it leads nowhere else. -/
def isBlank (name : Text) : Bool :=
  name = [] ∨ name = ['.']

/-- The test tells the segments that name nothing. -/
theorem isBlank_iff : isBlank name = true ↔ name = [] ∨ name = ['.'] := by
  rw [isBlank, decide_eq_true_eq]

/-- What is left of a list without the blanks at its end: nothing, or something that does not end in
a blank. -/
theorem exists_of_dropWhile_isBlank (pieces : List Text) :
    ∃ blanks, pieces = (pieces.reverse.dropWhile isBlank).reverse ++ blanks ∧
      (∀ name ∈ blanks, name = [] ∨ name = ['.']) ∧
      ∀ name ∈ (pieces.reverse.dropWhile isBlank).reverse.getLast?,
        ¬ (name = [] ∨ name = ['.']) := by
  refine ⟨(pieces.reverse.takeWhile isBlank).reverse, ?_, fun name hmem => ?_, fun name hmem => ?_⟩
  · rw [← List.reverse_append, List.takeWhile_append_dropWhile, List.reverse_reverse]
  · exact isBlank_iff.1 (List.mem_takeWhile_imp (List.mem_reverse.1 hmem))
  · rw [List.getLast?_reverse] at hmem
    have hnot := List.head?_dropWhile_not isBlank pieces.reverse
    rw [hmem] at hnot
    rw [← isBlank_iff]
    simpa using hnot

/-- A path whose segments before the last all name nothing has the root or the current directory as
its directory. -/
theorem container_of_nil
    (h : ((segments path).dropLast.reverse.dropWhile isBlank).reverse = []) :
    container path = if isAbsolute path then ['/'] else ['.'] := by
  change ((segments path).dropLast.reverse.dropWhile fun name =>
    decide (name = [] ∨ name = ['.'])).reverse = [] at h
  simp only [container, h]

/-- Otherwise the directory is named by the segments up to the last one that names something. -/
theorem container_of_cons {first : Text} {rest : List Text}
    (h : ((segments path).dropLast.reverse.dropWhile isBlank).reverse = first :: rest) :
    container path = ofSegments (first :: rest) := by
  change ((segments path).dropLast.reverse.dropWhile fun name =>
    decide (name = [] ∨ name = ['.'])).reverse = first :: rest at h
  simp only [container, h]

/-- The directory of a path is reached by all segments but the last: what follows the last one that
names something is left out, and only a directory that nothing names is written in another way. -/
theorem exists_segments_container (path : Text) :
    ∃ kept blanks padding, (segments path).dropLast = kept ++ blanks ∧
      segments (container path) = kept ++ padding ∧
      (∀ name ∈ blanks, name = [] ∨ name = ['.']) ∧
      (∀ name ∈ padding, name = [] ∨ name = ['.']) ∧
      isAbsolute (container path) = isAbsolute path := by
  obtain ⟨blanks, hfront, hblanks, hlast⟩ := exists_of_dropWhile_isBlank (segments path).dropLast
  -- Either nothing is kept, and the directory is `/` or `.`, or the segments that are kept are the
  -- segments of the directory.
  rcases hkept : ((segments path).dropLast.reverse.dropWhile isBlank).reverse with _ | ⟨first, rest⟩
  · rw [hkept] at hfront
    refine ⟨[], blanks, segments (container path), hfront, rfl, hblanks, ?_⟩
    rw [container_of_nil hkept]
    cases isAbsolute path <;> decide
  · rw [hkept] at hfront hlast
    have hslash : ∀ piece ∈ first :: rest, '/' ∉ piece := by
      intro piece hmem
      have hmem' : piece ∈ (segments path).dropLast := by
        rw [hfront]
        exact List.mem_append_left _ hmem
      exact slash_not_mem_of_mem_segments (List.mem_of_mem_dropLast hmem')
    have hsegments : segments (container path) = first :: rest := by
      rw [container_of_cons hkept]
      exact segments_ofSegments (List.cons_ne_nil _ _) hslash
    refine ⟨first :: rest, blanks, [], hfront, by rw [hsegments, List.append_nil], hblanks,
      by simp, ?_⟩
    obtain ⟨front, hpath⟩ := segments_eq_concat path
    rw [hpath, List.dropLast_concat] at hfront
    rw [Bool.eq_iff_iff, isAbsolute_iff, isAbsolute_iff, hsegments, hpath, hfront]
    -- a path that is only the start of an absolute one would end in a blank
    have hne : first = [] → rest ≠ [] := by
      rintro rfl rfl
      exact hlast [] rfl (.inl rfl)
    constructor
    · rintro ⟨others, -, heq⟩
      exact ⟨rest ++ blanks ++ [lastSegment path], by simp, by rw [(List.cons.inj heq).1]; rfl⟩
    · rintro ⟨others, -, heq⟩
      have hfirst := (List.cons.inj heq).1
      exact ⟨rest, hne hfirst, by rw [hfirst]⟩

/-- Where the directory of a path leads, its segments but the last lead as well. -/
theorem walk_dropLast_segments
    (hwalk : later.walk (tree.originOf (container path)) (segments (container path)) = .ok found)
    (hdir : later.isDirectory found = true) :
    later.walk (tree.originOf path) (segments path).dropLast = .ok found := by
  obtain ⟨kept, blanks, padding, hfront, hcontainer, hblanks, hpadding, habsolute⟩ :=
    exists_segments_container path
  have horigin : tree.originOf (container path) = tree.originOf path := by
    rw [originOf, originOf, habsolute]
  rw [hcontainer, horigin, walk_append_eq_ok_iff] at hwalk
  obtain ⟨reached, hkept, hrest⟩ := hwalk
  obtain ⟨rfl, -⟩ := (walk_blank_eq_ok_iff hpadding).1 hrest
  rw [hfront, walk_append_eq_ok_iff]
  exact ⟨found, hkept, (walk_blank_eq_ok_iff hblanks).2 ⟨rfl, fun _ => hdir⟩⟩

/-- Removing what is stored at one place changes no other. -/
theorem lookup_filter_ne {other : List Text} (h : other ≠ names)
    (files : List (List Text × Content)) :
    (files.filter fun (stored, _) => stored ≠ names).lookup other = files.lookup other := by
  induction files with
  | nil => rfl
  | cons file rest ih => grind

/-- What is put at a place is all that changes. -/
theorem content?_put (tree : FileTree) (names other : List Text) (content : Content) :
    (tree.put names content).content? other =
      if other = names then some content else tree.content? other := by
  rw [put, content?, List.lookup_cons]
  split
  · rename_i heq
    rw [if_pos (eq_of_beq heq)]
  · rename_i heq
    have hne : other ≠ names := ne_of_beq_false heq
    rw [lookup_filter_ne hne, if_neg hne, content?]

/-- A file that is put somewhere takes nothing away. -/
theorem extends_put (tree : FileTree) (names : List Text) (content : Content) :
    tree.Extends (tree.put names content) where
  home := rfl
  content hsome := by
    rw [content?_put]
    split
    · rfl
    · exact hsome
  directory hdir := by
    rw [isDirectory_iff] at hdir ⊢
    rcases hdir with hhome | hadded | ⟨file, hmem, hinitial, hne⟩
    · exact .inl hhome
    · exact .inr (.inl hadded)
    · refine .inr (.inr ?_)
      by_cases heq : file.1 = names
      · exact ⟨(names, content), List.mem_cons_self, heq ▸ hinitial, heq ▸ hne⟩
      · have hkept : file ∈ tree.files.filter fun (other, _) => other ≠ names :=
          List.mem_filter.2 ⟨hmem, by simpa using heq⟩
        exact ⟨file, List.mem_cons_of_mem _ hkept, hinitial, hne⟩

/-- The file that is put into a directory is reached from there. -/
theorem walk_put (hdir : tree.isDirectory place = true) (hname : IsName name)
    (hlength : Text.byteLength name ≤ nameLimit) (content : Content) :
    (tree.put (place ++ [name]) content).walk place [name] = .ok (place ++ [name]) := by
  have hput := tree.extends_put (place ++ [name]) content
  rw [walk_cons_eq_ok_iff, advance_of_isName hname]
  refine ⟨hput.directory hdir, .inr (.inr (.inr ⟨hlength, .inl ?_⟩)), rfl⟩
  rw [content?_put, if_pos rfl]
  rfl

/-- What is written into a directory is put there under a name. -/
theorem of_writeIn (hslash : '/' ∉ name) (h : tree.writeIn place name text = .ok later) :
    IsName name ∧ Text.byteLength name ≤ nameLimit ∧
      later = tree.put (place ++ [name]) (.text text) := by
  rw [writeIn] at h
  split at h
  · simp at h
  · rename_i hname
    rw [not_or, not_or] at hname
    split at h
    · simp at h
    · rename_i hlength
      dsimp only at h
      split at h
      · simp at h
      · exact ⟨⟨hname.1, hname.2.1, hname.2.2, hslash⟩, by omega, (Except.ok.inj h).symm⟩

/-- What a write does: the path ends in a name and leads to the text, all else is as it was, and
what is missing on the way is made. -/
structure Stores (tree : FileTree) (path text : Text) (later : FileTree) : Prop where
  grows : tree.Extends later
  usable : Usable path
  named : IsName (lastSegment path)
  walk : later.walk (tree.originOf path) (segments path) = .ok (tree.placeOf path)
  content? : ∀ names, later.content? names =
    if names = tree.placeOf path then some (.text text) else tree.content? names

/-- A write that succeeds stores the text at the place of its path. -/
theorem of_write (h : tree.write path text = .ok later) : tree.Stores path text later := by
  -- Each stage can stop the write with a fault: what is left is the case in which none does.
  rw [write] at h
  rcases hcreate : tree.createDirectories (container path) with fault | ⟨middle, found⟩
  · simp [hcreate, bind, Except.bind] at h
  rcases hstart : middle.start path with fault | start
  · simp [hcreate, hstart, bind, Except.bind] at h
  obtain ⟨husable, rfl⟩ := start_eq_ok_iff.1 hstart
  simp only [hcreate, hstart, bind, Except.bind] at h
  change middle.writeIn found (lastSegment path) text = .ok later at h
  obtain ⟨hname, hlength, rfl⟩ := of_writeIn (slash_not_mem_lastSegment path) h
  obtain ⟨-, hadds, hwalk, hdir⟩ := of_createDirectories hcreate
  have hput := middle.extends_put (found ++ [lastSegment path]) (.text text)
  -- the way to the directory, and from there to the file
  have hwhole : (middle.put (found ++ [lastSegment path]) (.text text)).walk (tree.originOf path)
      (segments path) = .ok (found ++ [lastSegment path]) := by
    have hbefore := walk_dropLast_segments hwalk hdir
    obtain ⟨front, hsegments⟩ := segments_eq_concat path
    rw [hsegments, List.dropLast_concat] at hbefore
    rw [hsegments, walk_append_eq_ok_iff]
    exact ⟨found, hput.walk hbefore, walk_put hdir hname hlength (.text text)⟩
  have hplace : found ++ [lastSegment path] = tree.placeOf path := eq_of_walk hwhole
  refine ⟨hadds.extends.trans hput, husable, hname, hplace ▸ hwhole, fun names => ?_⟩
  rw [content?_put, hadds.content?, hplace]

/-- What is written can be read back by the same path. -/
theorem Stores.read (h : tree.Stores path text later) : later.read path = .ok text := by
  have horigin : later.originOf path = tree.originOf path := by
    rw [originOf, originOf, h.grows.home]
  rw [read_eq_ok_iff, h.grows.placeOf, horigin, h.content?, if_pos rfl]
  exact ⟨h.usable, h.walk, rfl⟩

/-- What a file at another place holds is still read there, and so is the same text at the same
place. -/
theorem Stores.read_of_ne {other kept : Text} (h : tree.Stores path text later)
    (hread : tree.read other = .ok kept)
    (hne : tree.placeOf other = tree.placeOf path → kept = text) : later.read other = .ok kept := by
  have horigin : later.originOf other = tree.originOf other := by
    rw [originOf, originOf, h.grows.home]
  rw [read_eq_ok_iff] at hread ⊢
  obtain ⟨husable, hwalk, hcontent⟩ := hread
  rw [h.grows.placeOf, horigin, h.content?]
  refine ⟨husable, h.grows.walk hwalk, ?_⟩
  split
  · rename_i hplace
    rw [hne hplace]
  · exact hcontent

end ModuleCompiler.FileTree
