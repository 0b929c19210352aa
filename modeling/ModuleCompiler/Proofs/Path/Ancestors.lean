import Mathlib.Data.List.Infix
import Mathlib.Data.List.Nodup
import ModuleCompiler.Proofs.Path.Normal

/-!
# The directories above a file

Climbing from a directory works on its text: its last segment is taken back and the path normalized.
On normal paths this drops one name after the other and stops at the root
(`parent?_directoryAt_concat`), so the directories above a file are those that the initial pieces of
its names lead to, and no directory comes up twice.
-/

namespace ModuleCompiler.Path

/-- The directories that some names lead through, from the last one down to the root. -/
def enclosing (names : List Text) : List Text :=
  (names.inits.map directoryAt).reverse

/-- No names lead through the root only. -/
@[simp] theorem enclosing_nil : enclosing [] = [['/']] := rfl

/-- A further name adds one directory in front. -/
theorem enclosing_concat (names : List Text) (name : Text) :
    enclosing (names ++ [name]) = directoryAt (names ++ [name]) :: enclosing names := by
  simp [enclosing, List.inits_append]

variable {path last : Text} {names : List Text}

/-! ## Directories of files -/

/-- The directory of a normal path is the one that its names lead to. -/
theorem directory_of_rooted (h : Rooted path names last) : directory path = directoryAt names := by
  obtain ⟨front, hfront⟩ := exists_directoryAt_eq names
  rw [h.eq, hfront, List.append_assoc, List.singleton_append]
  exact directory_append_slash front h.slash_not_mem

/-! ## Climbing -/

/-- A directory below a name is not the root. -/
theorem directoryAt_ne_root (names : List Text) {name : Text} (h : name ≠ []) :
    directoryAt (names ++ [name]) ≠ ['/'] := by
  rw [directoryAt_concat, ← slash_cons_ofSegments_concat]
  simpa using ofSegments_concat_ne_nil names h

/-- One step up drops the last name. -/
theorem parent?_directoryAt_concat {name : Text} (h : ∀ other ∈ names ++ [name], IsName other) :
    parent? (directoryAt (names ++ [name])) = some (directoryAt names) := by
  have hname : IsName name := h name (by simp)
  have hnames : ∀ other ∈ names, IsName other := fun other hmem => h other (by simp [hmem])
  have hrooted : Rooted (directoryAt names ++ name) names name := ⟨hnames, fun _ => hname, rfl⟩
  have hdrop : Text.dropTrailing '/' (directoryAt (names ++ [name])) =
      directoryAt names ++ name := by
    obtain ⟨front, c, hconcat⟩ := (List.eq_nil_or_concat' name).resolve_left hname.nonempty
    have hslash : c ≠ '/' := by
      rintro rfl
      exact hname.slash_not_mem (by simp [hconcat])
    rw [directoryAt_concat, Text.dropTrailing, hconcat]
    simp [hslash]
  -- the text that is normalized has a step up behind the name
  have hsegments : segments (directoryAt names ++ name ++ ("/../" : Text)) =
      ([] :: names ++ [name] ++ [['.', '.']]) ++ [[]] := by
    have happend := segments_append_slash' (directoryAt names ++ name) ("../" : Text)
    rw [segments_of_rooted hrooted] at happend
    rw [List.append_assoc _ [['.', '.']] [[]]]
    exact happend
  -- the step up takes the name back
  have hcollapse : collapse true ([] :: names ++ [name] ++ [['.', '.']]) = names := by
    rw [collapse_concat, List.cons_append, collapse_of_isName h, List.reverse_append]
    simp [collapseStep, hname.ne_dots]
  have hnormal := rooted_normalize (isAbsolute_directoryAt names _)
    (by rw [← List.append_assoc]; exact hsegments) fun hne => absurd rfl hne
  rw [hcollapse] at hnormal
  rw [parent?, if_neg, hdrop, List.append_assoc, hnormal.eq, List.append_nil]
  rw [not_or]
  exact ⟨directoryAt_ne_root names hname.nonempty, by simp [isAbsolute, directoryAt]⟩

/-- Enough steps lead through all directories. -/
theorem ancestorsWithin_directoryAt {steps : Nat} (h : ∀ name ∈ names, IsName name)
    (hsteps : names.length ≤ steps) :
    ancestorsWithin steps (directoryAt names) = enclosing names := by
  induction names using List.reverseRecOn generalizing steps with
  | nil => cases steps <;> rfl
  | append_singleton names name ih =>
    rw [List.length_append, List.length_singleton] at hsteps
    obtain ⟨fewer, rfl⟩ : ∃ fewer, steps = fewer + 1 := ⟨steps - 1, by omega⟩
    rw [ancestorsWithin, parent?_directoryAt_concat h]
    simp only
    rw [ih (fun other hmem => h other (by simp [hmem])) (by omega), enclosing_concat]

/-- The directories above a directory are those that its names lead through. -/
theorem ancestors_directoryAt (h : ∀ name ∈ names, IsName name) :
    ancestors (directoryAt names) = enclosing names := by
  have hrooted : Rooted (directoryAt names) names [] :=
    ⟨h, fun hne => absurd rfl hne, (List.append_nil _).symm⟩
  refine ancestorsWithin_directoryAt h ?_
  rw [segments_of_rooted hrooted]
  simp only [List.length_append, List.length_cons]
  omega

/-! ## No directory twice -/

/-- Directories get shorter on the way up. -/
theorem length_le_of_mem_enclosing {dir : Text} (h : dir ∈ enclosing names) :
    dir.length ≤ (directoryAt names).length := by
  induction names using List.reverseRecOn with
  | nil =>
    rw [enclosing_nil, List.mem_singleton] at h
    rw [h]
    exact Nat.le_refl _
  | append_singleton names name ih =>
    rw [enclosing_concat, List.mem_cons] at h
    rcases h with rfl | hmem
    · exact Nat.le_refl _
    · have hle := ih hmem
      rw [directoryAt_concat]
      simp only [List.length_append]
      omega

/-- No directory comes up twice. -/
theorem nodup_enclosing (names : List Text) : (enclosing names).Nodup := by
  induction names using List.reverseRecOn with
  | nil => exact List.nodup_singleton _
  | append_singleton names name ih =>
    rw [enclosing_concat, List.nodup_cons]
    refine ⟨fun hmem => ?_, ih⟩
    have hle := length_le_of_mem_enclosing hmem
    rw [directoryAt_concat] at hle
    simp only [List.length_append, List.length_singleton] at hle
    omega

end ModuleCompiler.Path
