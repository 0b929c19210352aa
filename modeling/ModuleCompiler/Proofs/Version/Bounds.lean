import Mathlib.Order.MinMax
import Mathlib.Order.OrderDual
import ModuleCompiler.Proofs.Version.Narrowing

/-!
# The bounds of an intersection

Narrowing moves a bound of an interval to the version of the constraint, and only when the
constraint asks for more than the bound does already. So after a whole list the lower bound is the
greatest version that some constraint asks to stay above, the upper bound is the least that one asks
to stay below, and an exact constraint counts for both. The bounds depend on which constraints there
are, and neither on their order nor on how often each occurs.

`bounded` is an interval with its bounds moved to those of some constraints, so the first of this
says that `narrow?`, and a whole list of narrowings, are `bounded` wherever they leave anything.
-/

namespace ModuleCompiler.Interval

/-- The versions of the constraints that admit no version below their own. -/
def lowerBounds (constraints : List Constraint) : List Version :=
  (constraints.filter (·.direction ≠ .atMost)).map Constraint.version

/-- The versions of the constraints that admit no version above their own. -/
def upperBounds (constraints : List Constraint) : List Version :=
  (constraints.filter (·.direction ≠ .atLeast)).map Constraint.version

/-- The interval with each bound moved inwards to the closest one of the constraints. -/
def bounded (interval : Interval) (constraints : List Constraint) : Interval where
  lower := Option.merge max interval.lower (lowerBounds constraints).max?
  upper := Option.merge min interval.upper (upperBounds constraints).min?

variable {interval narrowed : Interval} {constraint : Constraint}
  {constraints others : List Constraint}

/-! ## Bounds from one side

These are stated for greatest elements. In the reversed order they speak of least ones, which is how
they are used for upper bounds.
-/

section OneSide

variable {α : Type} [LinearOrder α] {bound : Option α} {v : α} {values same : List α}

/-- A bound that is closer already stays, any other is moved. -/
theorem merge_max_some {closer : Bool} (h : closer = false ↔ ∀ b ∈ bound, b ≤ v) :
    Option.merge max bound (some v) = if closer then bound else some v := by
  cases closer with
  | false =>
    have hle := h.1 rfl
    cases bound with
    | none => rfl
    | some b => simp [max_eq_right (hle b rfl)]
  | true =>
    cases bound with
    | none => simp at h
    | some b =>
      have hlt : v < b := by simpa using h
      simp [max_eq_left hlt.le]

/-- The greatest of some values and a bound may be taken one value after the other. -/
theorem merge_max?_cons (bound : Option α) (v : α) (values : List α) :
    Option.merge max bound (v :: values).max? =
      Option.merge max (Option.merge max bound (some v)) values.max? := by
  rw [List.max?_cons]
  cases bound <;> cases values.max? <;> simp [max_assoc]

/-- The greatest of some values depends only on which they are. -/
theorem max?_congr (h : ∀ v, v ∈ same ↔ v ∈ values) : same.max? = values.max? := by
  refine Option.ext fun v => ?_
  rw [List.max?_eq_some_iff, List.max?_eq_some_iff]
  simp only [h]

end OneSide

/-! ## One constraint -/

/-- A lower bound is moved up to the version unless the interval is above it. -/
theorem merge_lower_some (v : Version) :
    Option.merge max interval.lower (some v) =
      if interval.isAbove v then interval.lower else some v :=
  merge_max_some isAbove_eq_false_iff

/-- An upper bound is moved down to the version unless the interval is below it. -/
theorem merge_upper_some (v : Version) :
    Option.merge min interval.upper (some v) =
      if interval.isBelow v then interval.upper else some v :=
  merge_max_some (α := Versionᵒᵈ) isBelow_eq_false_iff

/-- A constraint moves the bounds of its sides to its version, and leaves a bound that is closer. -/
theorem bounded_singleton :
    interval.bounded [constraint] = match constraint.direction with
      | .exact =>
        ⟨if interval.isAbove constraint.version then interval.lower else some constraint.version,
          if interval.isBelow constraint.version then interval.upper else some constraint.version⟩
      | .atLeast =>
        ⟨if interval.isAbove constraint.version then interval.lower else some constraint.version,
          interval.upper⟩
      | .atMost =>
        ⟨interval.lower,
          if interval.isBelow constraint.version then interval.upper
          else some constraint.version⟩ := by
  obtain ⟨point, direction⟩ := constraint
  rw [← merge_lower_some, ← merge_upper_some]
  cases direction <;> simp [bounded, lowerBounds, upperBounds]

/-- What is left of an interval has the bounds of the constraint. -/
theorem eq_of_narrow? (h : interval.narrow? constraint = some narrowed) :
    narrowed = interval.bounded [constraint] := by
  rw [bounded_singleton]
  obtain ⟨point, direction⟩ := constraint
  -- each direction moves the bounds of its own sides, and an exact one is inside both
  cases direction with
  | exact =>
    simp only [narrow?, Option.ite_none_left_eq_some, Bool.not_eq_true, Bool.or_eq_false_iff,
      Option.some.injEq] at h
    obtain ⟨⟨habove, hbelow⟩, rfl⟩ := h
    simp [habove, hbelow]
  | atLeast =>
    simp only [narrow?, Option.ite_none_left_eq_some] at h
    obtain ⟨-, h⟩ := h
    cases habove : interval.isAbove point <;> simp_all
  | atMost =>
    simp only [narrow?, Option.ite_none_left_eq_some] at h
    obtain ⟨-, h⟩ := h
    cases hbelow : interval.isBelow point <;> simp_all

/-! ## All constraints of a list -/

/-- No constraint moves no bound. -/
@[simp] theorem bounded_nil : interval.bounded [] = interval := by
  simp [bounded, lowerBounds, upperBounds]

/-- Bounds may be moved by one constraint after the other. -/
theorem bounded_cons :
    interval.bounded (constraint :: constraints) =
      (interval.bounded [constraint]).bounded constraints := by
  have hlower := merge_max?_cons interval.lower constraint.version (lowerBounds constraints)
  have hupper := merge_max?_cons (α := Versionᵒᵈ) interval.upper constraint.version
    (upperBounds constraints)
  obtain ⟨point, direction⟩ := constraint
  cases direction with
  | exact => exact congrArg₂ Interval.mk hlower hupper
  | atLeast => exact congrArg₂ Interval.mk hlower (by simp [bounded, upperBounds])
  | atMost => exact congrArg₂ Interval.mk (by simp [bounded, lowerBounds]) hupper

/-- What all constraints leave of an interval has the closest of their bounds. -/
theorem eq_of_foldlM_narrow? (h : constraints.foldlM narrow? interval = some narrowed) :
    narrowed = interval.bounded constraints := by
  induction constraints generalizing interval with
  | nil =>
    obtain rfl : interval = narrowed := by simpa using h
    exact bounded_nil.symm
  | cons constraint rest ih =>
    rw [List.foldlM_cons] at h
    obtain ⟨first, hfirst, hrest⟩ := Option.bind_eq_some_iff.1 h
    rw [ih hrest, eq_of_narrow? hfirst, ← bounded_cons]

/-- The bounds of an intersection are the closest ones of the constraints. -/
theorem eq_of_intersectAll? (h : intersectAll? constraints = some interval) :
    interval = ⟨(lowerBounds constraints).max?, (upperBounds constraints).min?⟩ := by
  rw [eq_of_foldlM_narrow? h]
  simp [bounded, unbounded]

/-! ## Order and repetition -/

/-- The versions of all constraints but those of one direction depend only on which constraints
there are. -/
theorem mem_bounds_congr (h : ∀ constraint, constraint ∈ others ↔ constraint ∈ constraints)
    (free : Direction) (v : Version) :
    v ∈ (others.filter (·.direction ≠ free)).map Constraint.version ↔
      v ∈ (constraints.filter (·.direction ≠ free)).map Constraint.version := by
  simp only [List.mem_map, List.mem_filter, h]

/-- Lists of the same constraints, in any order and any number, have the same intersection. -/
theorem intersectAll?_congr (h : ∀ constraint, constraint ∈ others ↔ constraint ∈ constraints) :
    intersectAll? others = intersectAll? constraints := by
  have hsome : (intersectAll? others).isSome = (intersectAll? constraints).isSome := by
    rw [Bool.eq_iff_iff, isSome_intersectAll?_iff, isSome_intersectAll?_iff]
    simp only [Satisfiable, h]
  have hlower : (lowerBounds others).max? = (lowerBounds constraints).max? :=
    max?_congr (mem_bounds_congr h .atMost)
  have hupper : (upperBounds others).min? = (upperBounds constraints).min? :=
    max?_congr (α := Versionᵒᵈ) (mem_bounds_congr h .atLeast)
  -- both lists leave nothing, or both have an interval with the same bounds
  cases hothers : intersectAll? others with
  | none =>
    rw [hothers] at hsome
    exact (Option.not_isSome_iff_eq_none.1 (by simp [← hsome])).symm
  | some other =>
    rw [hothers] at hsome
    obtain ⟨interval, hinterval⟩ := Option.isSome_iff_exists.1 hsome.symm
    rw [hinterval, eq_of_intersectAll? hothers, eq_of_intersectAll? hinterval, hlower, hupper]

/-- For every list of constraints there is an interval exactly when some version satisfies all of
them, and it holds exactly the versions that do. Its lower bound is the greatest version of the
constraints that bound from below, its upper bound the least of those that bound from above, and
both are infinite without one. The same constraints in any order and any number have the same
interval. -/
theorem intersectAll?_exact (constraints : List Constraint) :
    ((intersectAll? constraints).isSome = true ↔
      ∃ v, ∀ constraint ∈ constraints, constraint.Admits v) ∧
    (∀ interval, intersectAll? constraints = some interval →
      (∀ v, interval.Contains v ↔ ∀ constraint ∈ constraints, constraint.Admits v) ∧
      interval.lower = (lowerBounds constraints).max? ∧
      interval.upper = (upperBounds constraints).min?) ∧
    ∀ others, (∀ constraint, constraint ∈ others ↔ constraint ∈ constraints) →
      intersectAll? others = intersectAll? constraints := by
  refine ⟨isSome_intersectAll?_iff, fun interval hinterval => ⟨fun v => ?_, ?_⟩,
    fun others => intersectAll?_congr⟩
  · rw [contains_foldlM_narrow?_iff hinterval]
    exact and_iff_right (contains_unbounded v)
  · rw [eq_of_intersectAll? hinterval]
    exact ⟨rfl, rfl⟩

/-- Of several constraints from each side the closest count, in whatever order they come and however
often. -/
theorem intersectAll?_exact_repeated :
    let c (major minor : UInt64) (direction : Direction) : Constraint :=
      ⟨⟨major, minor, 0⟩, direction⟩
    let constraints := [c 1 0 .atLeast, c 3 0 .atMost, c 1 5 .atLeast, c 4 0 .atMost]
    let others := [c 4 0 .atMost, c 1 5 .atLeast, c 1 5 .atLeast, c 3 0 .atMost, c 1 0 .atLeast]
    intersectAll? constraints = some ⟨some ⟨1, 5, 0⟩, some ⟨3, 0, 0⟩⟩ ∧
      (lowerBounds constraints).max? = some ⟨1, 5, 0⟩ ∧
      intersectAll? others = some ⟨some ⟨1, 5, 0⟩, some ⟨3, 0, 0⟩⟩ ∧
      ∃ v, ∀ constraint ∈ constraints, constraint.Admits v := by
  intro c constraints others
  have hinterval : intersectAll? constraints = some ⟨some ⟨1, 5, 0⟩, some ⟨3, 0, 0⟩⟩ := by
    decide
  obtain ⟨hsome, hbounds, hothers⟩ := intersectAll?_exact constraints
  have hsame : ∀ constraint, constraint ∈ others ↔ constraint ∈ constraints := by
    simp only [others, constraints, List.mem_cons, List.not_mem_nil, or_false]
    intro constraint
    tauto
  exact ⟨hinterval, (hbounds _ hinterval).2.1.symm, (hothers others hsame).trans hinterval,
    hsome.1 (by rw [hinterval]; rfl)⟩

end ModuleCompiler.Interval
