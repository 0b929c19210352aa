import Mathlib.Data.Prod.Lex
import Mathlib.Order.Lattice
import ModuleCompiler.Version.Interval

/-!
# Narrowing loses no version

Versions are linearly ordered. `Interval.narrow?` takes one constraint into account, and it neither
drops a version that satisfies the constraint nor keeps one that does not; it answers `none` only
when no version of the interval satisfies it. So the interval of a list of constraints holds exactly
the versions that satisfy all of them, whatever their order.

The second half of this needs some care. Intervals of versions may be empty without looking so, as
the one between two neighbours; what is left after narrowing has a version because the one that the
constraint names is left, or else every version of the interval (`exists_contains_narrow?`).
-/

namespace ModuleCompiler

namespace Version

/-! ## The order of versions -/

/-- The numbers of a version, ordered by the first of them that differs. -/
def key (v : Version) : ℕ ×ₗ ℕ ×ₗ ℕ :=
  toLex (v.major.toNat, toLex (v.minor.toNat, v.patch.toNat))

/-- A version is its numbers. -/
theorem key_injective : Function.Injective key := by
  rintro ⟨major, minor, patch⟩ ⟨major', minor', patch'⟩ h
  obtain ⟨hmajor, hminor, hpatch⟩ : major.toNat = major'.toNat ∧ minor.toNat = minor'.toNat ∧
      patch.toNat = patch'.toNat := by
    simpa [key] using h
  rw [UInt64.toNat_inj.1 hmajor, UInt64.toNat_inj.1 hminor, UInt64.toNat_inj.1 hpatch]

/-- Versions are compared as the triples of their numbers. -/
theorem lt_iff_key_lt {v w : Version} : v < w ↔ v.key < w.key := by
  simp only [key, Prod.Lex.toLex_lt_toLex, UInt64.toNat_inj, ← UInt64.lt_iff_toNat_lt]
  exact Iff.rfl

/-- So they are with equality allowed. -/
theorem le_iff_key_le {v w : Version} : v ≤ w ↔ v.key ≤ w.key := by
  rw [← not_lt, ← lt_iff_key_lt]
  exact Iff.rfl

instance : LinearOrder Version where
  le_refl v := le_iff_key_le.2 le_rfl
  le_trans _ _ _ h h' := le_iff_key_le.2 (le_trans (le_iff_key_le.1 h) (le_iff_key_le.1 h'))
  le_antisymm _ _ h h' := key_injective (le_antisymm (le_iff_key_le.1 h) (le_iff_key_le.1 h'))
  le_total v w := by
    rw [le_iff_key_le, le_iff_key_le]
    exact le_total v.key w.key
  lt_iff_le_not_ge v w := by
    rw [lt_iff_key_lt, le_iff_key_le, le_iff_key_le]
    exact lt_iff_le_not_ge
  toDecidableLE := inferInstance

end Version

/-- Some version satisfies all of the constraints. -/
def Satisfiable (constraints : List Constraint) : Prop :=
  ∃ v, ∀ constraint ∈ constraints, constraint.Admits v

/-- An exact constraint admits its own version only. -/
theorem Constraint.admits_iff_of_isExact {constraint : Constraint} (h : constraint.isExact = true)
    {v : Version} : constraint.Admits v ↔ v = constraint.version := by
  have hdirection : constraint.direction = .exact := by simpa [isExact] using h
  rw [Admits, hdirection]

namespace Interval

variable {interval narrowed : Interval} {constraint : Constraint}

/-! ## One constraint -/

/-- An interval is not above a version that its lower bound admits. -/
theorem isAbove_eq_false_iff {v : Version} :
    interval.isAbove v = false ↔ ∀ lower ∈ interval.lower, lower ≤ v := by
  cases hlower : interval.lower <;> simp [isAbove, hlower]

/-- An interval is not below a version that its upper bound admits. -/
theorem isBelow_eq_false_iff {v : Version} :
    interval.isBelow v = false ↔ ∀ upper ∈ interval.upper, v ≤ upper := by
  cases hupper : interval.upper <;> simp [isBelow, hupper]

/-- An interval has the versions that it is neither above nor below. -/
theorem contains_iff {v : Version} :
    interval.Contains v ↔ interval.isAbove v = false ∧ interval.isBelow v = false := by
  rw [isAbove_eq_false_iff, isBelow_eq_false_iff]
  exact Iff.rfl

/-- An interval above a version has only greater ones. -/
theorem lt_of_isAbove {v w : Version} (h : interval.isAbove v = true) (hw : interval.Contains w) :
    v < w := by
  cases hlower : interval.lower with
  | none => simp [isAbove, hlower] at h
  | some lower =>
    have hlt : v < lower := by simpa [isAbove, hlower] using h
    exact lt_of_lt_of_le hlt (hw.1 lower hlower)

/-- An interval below a version has only smaller ones. -/
theorem lt_of_isBelow {v w : Version} (h : interval.isBelow v = true) (hw : interval.Contains w) :
    w < v := by
  cases hupper : interval.upper with
  | none => simp [isBelow, hupper] at h
  | some upper =>
    have hlt : upper < v := by simpa [isBelow, hupper] using h
    exact lt_of_le_of_lt (hw.2 upper hupper) hlt

/-- What is left of an interval holds those of its versions that satisfy the constraint. -/
theorem contains_narrow?_iff (h : interval.narrow? constraint = some narrowed) {v : Version} :
    narrowed.Contains v ↔ interval.Contains v ∧ constraint.Admits v := by
  obtain ⟨point, direction⟩ := constraint
  cases direction with
  | exact =>
    simp only [narrow?, Option.ite_none_left_eq_some, Bool.not_eq_true, Bool.or_eq_false_iff,
      Option.some.injEq] at h
    obtain ⟨hpoint, rfl⟩ := h
    simp only [Contains, Option.mem_some_iff, forall_eq', ← le_antisymm_iff, Constraint.Admits]
    constructor
    · rintro rfl
      exact ⟨contains_iff.2 hpoint, rfl⟩
    · exact fun ⟨_, hv⟩ => hv.symm
  | atLeast =>
    simp only [narrow?, Option.ite_none_left_eq_some, Bool.not_eq_true] at h
    obtain ⟨-, h⟩ := h
    cases habove : interval.isAbove point with
    | true =>
      -- the interval lies above the bound already
      obtain rfl : interval = narrowed := by simpa [habove] using h
      exact ⟨fun hv => ⟨hv, (lt_of_isAbove habove hv).le⟩, And.left⟩
    | false =>
      obtain rfl : ⟨some point, interval.upper⟩ = narrowed := by simpa [habove] using h
      simp only [Contains, Option.mem_some_iff, forall_eq', Constraint.Admits]
      constructor
      · rintro ⟨hpoint, hupper⟩
        exact ⟨⟨fun lower hlower => (isAbove_eq_false_iff.1 habove lower hlower).trans hpoint,
          hupper⟩, hpoint⟩
      · exact fun ⟨⟨_, hupper⟩, hpoint⟩ => ⟨hpoint, hupper⟩
  | atMost =>
    simp only [narrow?, Option.ite_none_left_eq_some, Bool.not_eq_true] at h
    obtain ⟨-, h⟩ := h
    cases hbelow : interval.isBelow point with
    | true =>
      -- the interval lies below the bound already
      obtain rfl : interval = narrowed := by simpa [hbelow] using h
      exact ⟨fun hv => ⟨hv, (lt_of_isBelow hbelow hv).le⟩, And.left⟩
    | false =>
      obtain rfl : ⟨interval.lower, some point⟩ = narrowed := by simpa [hbelow] using h
      simp only [Contains, Option.mem_some_iff, forall_eq', Constraint.Admits]
      constructor
      · rintro ⟨hlower, hpoint⟩
        exact ⟨⟨hlower, fun upper hupper =>
          hpoint.trans (isBelow_eq_false_iff.1 hbelow upper hupper)⟩, hpoint⟩
      · exact fun ⟨⟨hlower, _⟩, hpoint⟩ => ⟨hlower, hpoint⟩

/-- Nothing is left only when no version of the interval satisfies the constraint. -/
theorem not_admits_of_narrow? (h : interval.narrow? constraint = none) {v : Version}
    (hv : interval.Contains v) : ¬ constraint.Admits v := by
  -- each direction refuses an interval that lies on its wrong side, where it admits nothing
  obtain ⟨point, direction⟩ := constraint
  intro hadmits
  cases direction with
  | exact =>
    obtain rfl : v = point := hadmits
    obtain ⟨habove, hbelow⟩ := contains_iff.1 hv
    simp [narrow?, habove, hbelow] at h
  | atLeast =>
    have hle : point ≤ v := hadmits
    cases hbelow : interval.isBelow point with
    | true => exact absurd (lt_of_isBelow hbelow hv) hle.not_gt
    | false => cases habove : interval.isAbove point <;> simp [narrow?, habove, hbelow] at h
  | atMost =>
    have hle : v ≤ point := hadmits
    cases habove : interval.isAbove point with
    | true => exact absurd (lt_of_isAbove habove hv) hle.not_gt
    | false => cases hbelow : interval.isBelow point <;> simp [narrow?, habove, hbelow] at h

/-- What is left of an interval with a version has a version: the one that the constraint names, if
that is in the interval, and otherwise any. -/
theorem exists_contains_narrow? (h : interval.narrow? constraint = some narrowed)
    (hinterval : ∃ v, interval.Contains v) : ∃ v, narrowed.Contains v := by
  -- the version that the constraint names will do, if the interval has it
  have hadmits : ∃ v, interval.Contains v ∧ constraint.Admits v := by
    obtain ⟨v, hv⟩ := hinterval
    obtain ⟨point, direction⟩ := constraint
    cases habove : interval.isAbove point with
    | true =>
      -- the interval lies above it, so a lower bound admits all of it and the others leave nothing
      have hlt : point < v := lt_of_isAbove habove hv
      cases direction with
      | atLeast => exact ⟨v, hv, hlt.le⟩
      | exact => simp [narrow?, habove] at h
      | atMost => simp [narrow?, habove] at h
    | false =>
      cases hbelow : interval.isBelow point with
      | true =>
        have hlt : v < point := lt_of_isBelow hbelow hv
        cases direction with
        | atMost => exact ⟨v, hv, hlt.le⟩
        | exact => simp [narrow?, hbelow] at h
        | atLeast => simp [narrow?, hbelow] at h
      | false =>
        refine ⟨point, contains_iff.2 ⟨habove, hbelow⟩, ?_⟩
        cases direction with
        | exact => rfl
        | atLeast => exact le_refl point
        | atMost => exact le_refl point
  obtain ⟨v, hv⟩ := hadmits
  exact ⟨v, (contains_narrow?_iff h).2 hv⟩

/-! ## All constraints of a list -/

variable {constraints : List Constraint}

/-- What all constraints leave of an interval holds those of its versions that satisfy them. -/
theorem contains_foldlM_narrow?_iff (h : constraints.foldlM narrow? interval = some narrowed)
    {v : Version} : narrowed.Contains v ↔
      interval.Contains v ∧ ∀ constraint ∈ constraints, constraint.Admits v := by
  induction constraints generalizing interval with
  | nil =>
    obtain rfl : interval = narrowed := by simpa using h
    simp
  | cons constraint rest ih =>
    rw [List.foldlM_cons] at h
    obtain ⟨first, hfirst, hrest⟩ := Option.bind_eq_some_iff.1 h
    rw [ih hrest, contains_narrow?_iff hfirst, List.forall_mem_cons, and_assoc]

/-- An interval with a version is left with one by all constraints together exactly when one of its
versions satisfies them. -/
theorem isSome_foldlM_narrow?_iff (hinterval : ∃ v, interval.Contains v) :
    (constraints.foldlM narrow? interval).isSome = true ↔
      ∃ v, interval.Contains v ∧ ∀ constraint ∈ constraints, constraint.Admits v := by
  induction constraints generalizing interval with
  | nil => simpa using hinterval
  | cons constraint rest ih =>
    rw [List.foldlM_cons]
    cases hfirst : interval.narrow? constraint with
    | none =>
      simp only [Option.bind_eq_bind, Option.bind_none, Option.isSome_none, Bool.false_eq_true,
        false_iff]
      rintro ⟨v, hv, hall⟩
      exact not_admits_of_narrow? hfirst hv (hall constraint List.mem_cons_self)
    | some first =>
      simp only [Option.bind_eq_bind, Option.bind_some, List.forall_mem_cons, ← and_assoc]
      rw [ih (exists_contains_narrow? hfirst hinterval)]
      simp only [contains_narrow?_iff hfirst]

/-- The unbounded interval has every version. -/
theorem contains_unbounded (v : Version) : unbounded.Contains v := by
  simp [Contains, unbounded]

/-- A list of constraints has an interval exactly when some version satisfies all of them. -/
theorem isSome_intersectAll?_iff :
    (intersectAll? constraints).isSome = true ↔ Satisfiable constraints := by
  rw [intersectAll?, isSome_foldlM_narrow?_iff ⟨⟨0, 0, 0⟩, contains_unbounded _⟩]
  simp only [contains_unbounded, true_and]
  exact Iff.rfl

end Interval

end ModuleCompiler
