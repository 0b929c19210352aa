import Mathlib.Data.List.Forall2
import Mathlib.Logic.Relation
import ModuleCompiler.Proofs.Compile.Induction

/-!
# Chains of imports

A compiled file carries what it requires, so the files below it are there to be walked. A chain
leads from a file down to one that it requires, directly or not; its frames are the trace under
which the last file is required when the chain starts at an entry. Files below a file are smaller
(`DependsOn.sizeOf_lt`), so no chain leads back to where it started.

What a compile under a trace makes of a file is `CompiledAlong`: the file of the source, with each
of its references answered under the trace that ends with the file. Its trace is not arbitrary. By
`Asks` it starts at an entry that was asked for, and each further frame comes from a reference of
the file before.
-/

namespace ModuleCompiler

namespace CompiledFile

/-! ## The files below a file -/

/-- The file requires the other one itself. -/
def Requires (file required : CompiledFile) : Prop :=
  .module required ∈ file.children

/-- The file requires the other one, directly or not. -/
def DependsOn : CompiledFile → CompiledFile → Prop :=
  Relation.TransGen Requires

/-- The frame of a file in a trace. -/
def frame (file : CompiledFile) : Frame :=
  ⟨file.pathname, file.scope⟩

/-- The second file is reached from the first through these frames, both files included. -/
inductive Chain : CompiledFile → Trace → CompiledFile → Prop
  | single (file : CompiledFile) : Chain file [file.frame] file
  | cons {file required last : CompiledFile} {frames : Trace} (head : file.Requires required)
      (tail : Chain required frames last) : Chain file (file.frame :: frames) last

variable {file required lower lowest : CompiledFile} {frames : Trace}

/-- A file carries what it requires, which is therefore smaller. -/
theorem Requires.sizeOf_lt (h : file.Requires required) : sizeOf required < sizeOf file := by
  have hmem := List.sizeOf_lt_of_mem h
  rw [Dependency.module.sizeOf_spec] at hmem
  rcases file with ⟨pathname, id, source, dependencies, children, flattened, scope⟩
  rw [CompiledFile.mk.sizeOf_spec]
  dsimp only at hmem
  omega

/-- What a file depends on is smaller. -/
theorem DependsOn.sizeOf_lt (h : file.DependsOn lower) : sizeOf lower < sizeOf file := by
  induction h with
  | single hrequires => exact hrequires.sizeOf_lt
  | tail _ hrequires ih => exact Nat.lt_trans hrequires.sizeOf_lt ih

/-- What is below a file below a file is below it. -/
theorem DependsOn.trans (h : file.DependsOn lower) (h' : lower.DependsOn lowest) :
    file.DependsOn lowest :=
  Relation.TransGen.trans h h'

/-- What is below a file is required by it or below one that it requires. -/
theorem dependsOn_iff :
    file.DependsOn lower ↔
      ∃ required, file.Requires required ∧ (lower = required ∨ required.DependsOn lower) := by
  constructor
  · intro h
    obtain ⟨required, hrequires, hbelow⟩ := Relation.TransGen.head'_iff.1 h
    refine ⟨required, hrequires, ?_⟩
    -- the first step leads to a required file; the others are none, or lead below it
    rcases Relation.reflTransGen_iff_eq_or_transGen.1 hbelow with heq | hdepends
    · exact .inl heq
    · exact .inr hdepends
  · rintro ⟨required, hrequires, rfl | hdepends⟩
    · exact .single hrequires
    · exact .head hrequires hdepends

/-- A chain ends in its first file or below it. -/
theorem Chain.eq_or_dependsOn (h : Chain file frames lower) :
    lower = file ∨ file.DependsOn lower := by
  induction h with
  | single => exact .inl rfl
  | cons hrequires _ ih => exact .inr (dependsOn_iff.2 ⟨_, hrequires, ih⟩)

end CompiledFile

/-! ## What a trace asks for -/

/-- The dependency is what the reference means to the files of a trace. -/
def Dependency.Answers (trace : Trace) (reference : Text) : Dependency CompiledFile → Prop
  | .module file => trace.target reference = .ok (some file.pathname)
  | .absent kept => trace.target reference = .ok none ∧ kept = reference

/-- The pathname of a dependency, if it has one, is what the reference means. -/
theorem Dependency.Answers.target_eq {dependency : Dependency CompiledFile} {trace : Trace}
    {reference : Text} (h : dependency.Answers trace reference) :
    trace.target reference = .ok (dependency.file?.map CompiledFile.pathname) := by
  cases dependency with
  | module file => exact h
  | absent kept => exact h.1

/-- The reference comes up under the trace, when entries are compiled from the files of a source: it
is the pathname of an entry under no files, or a reference of the last file of the trace. -/
inductive Asks (config : Config) (source : Text → Reading) (entries : List Text) :
    Trace → Text → Prop
  | entry {entry : Text} (mem : entry ∈ entries) :
      Asks config source entries [] (Compiler.entryPathname config entry)
  | dependency {trace : Trace} {reference pathname required : Text} {loaded : Compiler.LoadedFile}
      (asked : Asks config source entries trace reference)
      (target : trace.target reference = .ok (some pathname))
      (settled : settledFile config source pathname = .ok loaded)
      (mem : required ∈ loaded.dependencies) :
      Asks config source entries (trace ++ [⟨pathname, loaded.scope⟩]) required

/-- What a compile under `trace` makes of a file: the file of the source, each of its references
answered under the trace that ends with the file itself. The trace starts at one of the entries. -/
structure CompiledFile.CompiledAlong (config : Config) (source : Text → Reading)
    (entries : List Text) (trace : Trace) (file : CompiledFile) : Prop where
  asked : ∃ reference, Asks config source entries trace reference ∧
    trace.target reference = .ok (some file.pathname)
  settled : settledFile config source file.pathname =
    .ok ⟨file.pathname, file.source, file.scope, file.dependencies⟩
  id_eq : file.id = ModuleId.ofPathname config.base file.pathname
  answers : List.Forall₂ (Dependency.Answers (trace ++ [file.frame])) file.dependencies
    file.children
  flattened_eq : file.flattened = CompiledFile.flatten file.children

namespace CompiledFile.CompiledAlong

variable {config : Config} {source : Text → Reading} {entries : List Text} {trace other : Trace}
  {file found : CompiledFile} {required : Text}

/-- The references of a file come up below the trace under which it was compiled. -/
theorem asks (h : file.CompiledAlong config source entries trace)
    (hmem : required ∈ file.dependencies) :
    Asks config source entries (trace ++ [file.frame]) required := by
  obtain ⟨reference, hasks, htarget⟩ := h.asked
  exact .dependency hasks htarget h.settled hmem

/-- Each reference of a file is answered by one of its children. -/
theorem exists_child (h : file.CompiledAlong config source entries trace)
    (hmem : required ∈ file.dependencies) :
    ∃ child ∈ file.children, child.Answers (trace ++ [file.frame]) required := by
  obtain ⟨place, hplace, rfl⟩ := List.getElem_of_mem hmem
  have hchild : place < file.children.length := by rwa [← h.answers.length_eq]
  exact ⟨_, List.getElem_mem hchild, h.answers.get hplace hchild⟩

/-- What is read of a file depends only on its pathname. -/
theorem settled_eq (h : file.CompiledAlong config source entries trace)
    (h' : found.CompiledAlong config source entries other) (heq : file.pathname = found.pathname) :
    file.source = found.source ∧ file.scope = found.scope ∧
      file.dependencies = found.dependencies := by
  have hsettled := h.settled
  rw [heq, h'.settled] at hsettled
  obtain ⟨-, hsource, hscope, hdependencies⟩ :=
    Compiler.LoadedFile.mk.inj (Except.ok.inj hsettled)
  exact ⟨hsource.symm, hscope.symm, hdependencies.symm⟩

/-- What is made of a file depends only on its pathname and on its children. -/
theorem eq_of_children (h : file.CompiledAlong config source entries trace)
    (h' : found.CompiledAlong config source entries other) (heq : file.pathname = found.pathname)
    (hchildren : file.children = found.children) : file = found := by
  obtain ⟨hsource, hscope, hdependencies⟩ := h.settled_eq h' heq
  have hid : file.id = found.id := by rw [h.id_eq, h'.id_eq, heq]
  have hflattened : file.flattened = found.flattened := by
    rw [h.flattened_eq, h'.flattened_eq, hchildren]
  rcases file with ⟨⟩
  rcases found with ⟨⟩
  rw [CompiledFile.mk.injEq]
  exact ⟨heq, hid, hsource, hdependencies, hchildren, hflattened, hscope⟩

end CompiledFile.CompiledAlong

end ModuleCompiler
