import ModuleCompiler.Version.Constraint

/-!
# Intervals of versions

The versions that satisfy several constraints form an interval. `Interval.narrow?` takes one
constraint into account and `Interval.intersectAll?` a whole list; both answer `none` once no
version is left.
-/

namespace ModuleCompiler

/-- The versions between two bounds, which belong to it. A missing bound is infinite. -/
structure Interval where
  lower : Option Version
  upper : Option Version
deriving DecidableEq, Repr

namespace Interval

/-- The interval of all versions. -/
def unbounded : Interval :=
  ⟨none, none⟩

/-- The versions of an interval. -/
def Contains (interval : Interval) (v : Version) : Prop :=
  (∀ lower ∈ interval.lower, lower ≤ v) ∧ (∀ upper ∈ interval.upper, v ≤ upper)

/-- Whether a version lies below every version of the interval. -/
def isAbove (interval : Interval) (v : Version) : Bool :=
  interval.lower.any fun lower => v < lower

/-- Whether a version lies above every version of the interval. -/
def isBelow (interval : Interval) (v : Version) : Bool :=
  interval.upper.any fun upper => upper < v

/-- The part of the interval that satisfies a constraint, unless it is empty. -/
def narrow? (interval : Interval) (constraint : Constraint) : Option Interval :=
  let point := constraint.version
  match constraint.direction with
  | .exact =>
    if interval.isAbove point || interval.isBelow point then none
    else some ⟨some point, some point⟩
  | .atLeast =>
    if interval.isBelow point then none
    -- the bound that is there is stricter
    else if interval.isAbove point then some interval
    else some ⟨some point, interval.upper⟩
  | .atMost =>
    if interval.isAbove point then none
    else if interval.isBelow point then some interval
    else some ⟨interval.lower, some point⟩

/-- The interval of the versions that satisfy every constraint, unless there is none. -/
def intersectAll? (constraints : List Constraint) : Option Interval :=
  constraints.foldlM narrow? unbounded

end Interval

end ModuleCompiler
