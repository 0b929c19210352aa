import ModuleCompiler.Proofs.Version.Narrowing
import ModuleCompiler.Version.Resolution

/-!
# What the files of a trace make of a version

The files of a trace constrain the version of a package, and resolution settles a pathname inside
the package by these constraints alone: they conflict when no version satisfies all of them; where
one does, the exact ones among them all name the same version, and it satisfies the others
(`Satisfiable.admits_pin`). So it does not matter which file pins a version, although resolution
takes the nearest one, and neither does the order of the files.
-/

namespace ModuleCompiler

/-! ## Satisfiable constraints -/

section Constraints

variable {constraints others : List Constraint} {pin : Constraint}

/-- Whether some version satisfies all of them does not depend on their order. -/
theorem satisfiable_iff_of_perm (h : constraints.Perm others) :
    Satisfiable constraints ↔ Satisfiable others :=
  exists_congr fun _ => forall_congr' fun _ => imp_congr_left h.mem_iff

/-- The version of an exact constraint satisfies all, when some version does. -/
theorem Satisfiable.admits_pin (h : Satisfiable constraints) (hmem : pin ∈ constraints)
    (hexact : pin.isExact = true) : ∀ constraint ∈ constraints, constraint.Admits pin.version := by
  obtain ⟨v, hv⟩ := h
  obtain rfl : v = pin.version := (Constraint.admits_iff_of_isExact hexact).1 (hv pin hmem)
  exact hv

/-- All exact constraints name one version, when some version satisfies all. -/
theorem Satisfiable.pin_eq (h : Satisfiable constraints) {other : Constraint}
    (hmem : pin ∈ constraints) (hexact : pin.isExact = true) (hother : other ∈ constraints)
    (hother' : other.isExact = true) : pin.version = other.version :=
  (Constraint.admits_iff_of_isExact hother').1 (h.admits_pin hmem hexact other hother)

/-- No version is pinned without an exact constraint. -/
theorem nearestPin?_eq_none_iff :
    nearestPin? constraints = none ↔ ∀ constraint ∈ constraints, ¬ constraint.isExact = true := by
  simp [nearestPin?]

/-- Whichever exact constraint is picked, it names the pinned version. -/
theorem nearestPin?_eq_some (h : Satisfiable constraints) (hmem : pin ∈ constraints)
    (hexact : pin.isExact = true) : nearestPin? constraints = some pin.version := by
  cases hfind : constraints.reverse.find? Constraint.isExact with
  | none =>
    rw [List.find?_eq_none] at hfind
    exact absurd hexact (hfind pin (List.mem_reverse.2 hmem))
  | some nearest =>
    have hnearest : nearest ∈ constraints := List.mem_reverse.1 (List.mem_of_find?_eq_some hfind)
    rw [nearestPin?, hfind, Option.map_some,
      h.pin_eq hmem hexact hnearest (List.find?_some hfind)]

/-- The pinned version does not depend on the order of the constraints. -/
theorem nearestPin?_eq_of_perm (h : Satisfiable constraints) (hperm : constraints.Perm others) :
    nearestPin? others = nearestPin? constraints := by
  by_cases hpin : ∃ pin ∈ constraints, pin.isExact = true
  · obtain ⟨pin, hmem, hexact⟩ := hpin
    rw [nearestPin?_eq_some h hmem hexact,
      nearestPin?_eq_some ((satisfiable_iff_of_perm hperm).1 h) (hperm.mem_iff.1 hmem) hexact]
  · have hnone : ∀ constraint ∈ constraints, ¬ constraint.isExact = true :=
      fun constraint hmem hexact => hpin ⟨constraint, hmem, hexact⟩
    rw [nearestPin?_eq_none_iff.2 hnone,
      nearestPin?_eq_none_iff.2 fun constraint hmem => hnone constraint (hperm.mem_iff.2 hmem)]

end Constraints

/-! ## Resolution -/

section Resolution

variable {pathname : Text} {path : VersionedPath} {trace other : Trace}

/-- Constraints that no version satisfies are reported with all files of the trace. -/
theorem resolveVersion_of_conflict (hparse : VersionedPath.parse pathname = .ok (some path))
    (h : ¬ Satisfiable (trace.ambient path.package)) :
    resolveVersion pathname trace =
      .error (.versionConflict path.package (trace.sites path.package)) := by
  have hnone : (Interval.intersectAll? (trace.ambient path.package)).isNone = true := by
    rw [← Interval.isSome_intersectAll?_iff] at h
    simpa using h
  simp [resolveVersion, hparse, hnone]

/-- Otherwise an exact request is kept, and any other takes the pinned version. -/
theorem resolveVersion_of_satisfiable (hparse : VersionedPath.parse pathname = .ok (some path))
    (h : Satisfiable (trace.ambient path.package)) :
    resolveVersion pathname trace =
      .ok (if path.constraint.isExact then some (path.pinned path.constraint.version)
        else (nearestPin? (trace.ambient path.package)).map path.pinned) := by
  have hnone : (Interval.intersectAll? (trace.ambient path.package)).isNone = false := by
    rw [← Interval.isSome_intersectAll?_iff] at h
    simpa using h
  rw [resolveVersion, hparse]
  dsimp only
  rw [hnone, if_neg Bool.false_ne_true]
  split <;> rfl

/-- A resolution has an answer when the constraints can be satisfied, and only this one. -/
theorem resolveVersion_eq_ok_iff (hparse : VersionedPath.parse pathname = .ok (some path))
    {answer : Option Text} :
    resolveVersion pathname trace = .ok answer ↔
      Satisfiable (trace.ambient path.package) ∧
        answer = if path.constraint.isExact then some (path.pinned path.constraint.version)
          else (nearestPin? (trace.ambient path.package)).map path.pinned := by
  by_cases h : Satisfiable (trace.ambient path.package)
  · rw [resolveVersion_of_satisfiable hparse h, Except.ok.injEq, eq_comm]
    exact (and_iff_right h).symm
  · rw [resolveVersion_of_conflict hparse h]
    simp [h]

/-- A resolution reports a conflict when the constraints cannot be satisfied. -/
theorem resolveVersion_eq_conflict_iff (hparse : VersionedPath.parse pathname = .ok (some path)) :
    (∃ package chain, resolveVersion pathname trace = .error (.versionConflict package chain)) ↔
      ¬ Satisfiable (trace.ambient path.package) := by
  constructor
  · rintro ⟨package, chain, hconflict⟩ h
    rw [resolveVersion_of_satisfiable hparse h] at hconflict
    exact absurd hconflict (by simp)
  · exact fun h => ⟨_, _, resolveVersion_of_conflict hparse h⟩

/-- For every trace and every pathname inside a versioned package: the resolution reports a conflict
exactly when no version satisfies all constraints that the files declare for the package, and the
report lists all files, each with its constraint if it has one. Otherwise an exact request keeps its
version, and any other takes the version of the exact constraints, which all name the same one, that
satisfies all the others; without an exact constraint it stays open. In any order the files give the
same answers, and a conflict in the same cases. -/
theorem resolveVersion_settled (hparse : VersionedPath.parse pathname = .ok (some path))
    (trace : Trace) :
    let ambient := trace.ambient path.package
    ((∃ package chain, resolveVersion pathname trace = .error (.versionConflict package chain)) ↔
      ¬ ∃ v, ∀ constraint ∈ ambient, constraint.Admits v) ∧
    ((¬ ∃ v, ∀ constraint ∈ ambient, constraint.Admits v) →
      resolveVersion pathname trace = .error (.versionConflict path.package
        (trace.map fun frame =>
          ⟨frame.pathname, (frame.scope.versionFor path.package).map Constraint.toText⟩))) ∧
    ((∃ v, ∀ constraint ∈ ambient, constraint.Admits v) →
      (path.constraint.isExact = true →
        resolveVersion pathname trace = .ok (some (path.pinned path.constraint.version))) ∧
      (¬ path.constraint.isExact = true → (∃ pin ∈ ambient, pin.isExact = true) →
        ∃ v, (∀ pin ∈ ambient, pin.isExact = true → pin.version = v) ∧
          (∀ constraint ∈ ambient, constraint.Admits v) ∧
          resolveVersion pathname trace = .ok (some (path.pinned v))) ∧
      (¬ path.constraint.isExact = true → (∀ constraint ∈ ambient, ¬ constraint.isExact = true) →
        resolveVersion pathname trace = .ok none)) ∧
    ∀ other : Trace, trace.Perm other →
      (∀ answer, resolveVersion pathname other = .ok answer ↔
        resolveVersion pathname trace = .ok answer) ∧
      ((∃ package chain, resolveVersion pathname other = .error (.versionConflict package chain)) ↔
        ∃ package chain,
          resolveVersion pathname trace = .error (.versionConflict package chain)) := by
  intro ambient
  refine ⟨resolveVersion_eq_conflict_iff hparse, resolveVersion_of_conflict hparse, ?_, ?_⟩
  · -- satisfiable constraints: an exact request, a range with a pin, a range without one
    intro h
    have hresolve := resolveVersion_of_satisfiable hparse h
    refine ⟨fun hexact => ?_, fun hranged hpin => ?_, fun hranged hnone => ?_⟩
    · rw [hresolve, if_pos hexact]
    · -- any pin will do for the version, since all of them name the same one
      obtain ⟨pin, hmem, hexact⟩ := hpin
      refine ⟨pin.version, ?_, Satisfiable.admits_pin h hmem hexact, ?_⟩
      · exact fun other hother hother' => Satisfiable.pin_eq h hother hother' hmem hexact
      · have hnearest : nearestPin? (trace.ambient path.package) = some pin.version :=
          nearestPin?_eq_some h hmem hexact
        rw [hresolve, if_neg hranged, hnearest, Option.map_some]
    · have hnearest : nearestPin? (trace.ambient path.package) = none :=
        nearestPin?_eq_none_iff.2 hnone
      rw [hresolve, if_neg hranged, hnearest, Option.map_none]
  · -- the files of the other trace declare the same constraints in another order
    intro other hother
    have hperm : (trace.ambient path.package).Perm (other.ambient path.package) :=
      hother.filterMap _
    constructor
    · intro answer
      rw [resolveVersion_eq_ok_iff hparse, resolveVersion_eq_ok_iff hparse,
        satisfiable_iff_of_perm hperm]
      refine and_congr_right fun h => ?_
      rw [nearestPin?_eq_of_perm ((satisfiable_iff_of_perm hperm).2 h) hperm]
    · rw [resolveVersion_eq_conflict_iff hparse, resolveVersion_eq_conflict_iff hparse,
        satisfiable_iff_of_perm hperm]

/-- Three files, of which the last two pin a version that the first accepts. -/
def pinningChain : Trace :=
  let scope (constraint : Constraint) : Scope :=
    ⟨.empty, Table.empty.insert "/lib/x" constraint, none⟩
  [⟨"/app.js", scope ⟨⟨1, 0, 0⟩, .atLeast⟩⟩, ⟨"/a.js", scope ⟨⟨1, 1, 0⟩, .exact⟩⟩,
    ⟨"/b.js", scope ⟨⟨1, 1, 0⟩, .exact⟩⟩]

/-- A range is pinned to the version of the last two files, whatever their order. -/
theorem resolveVersion_settled_pinningChain :
    VersionedPath.parse "/lib/x/1.0.0+/x.js" =
      .ok (some ⟨"/lib/x", ⟨⟨1, 0, 0⟩, .atLeast⟩, "x.js"⟩) ∧
    resolveVersion "/lib/x/1.0.0+/x.js" pinningChain = .ok (some "/lib/x/1.1.0/x.js".toList) ∧
    resolveVersion "/lib/x/1.0.0+/x.js" pinningChain.reverse =
      .ok (some "/lib/x/1.1.0/x.js".toList) := by
  have hparse : VersionedPath.parse "/lib/x/1.0.0+/x.js" =
      .ok (some ⟨"/lib/x", ⟨⟨1, 0, 0⟩, .atLeast⟩, "x.js"⟩) := by decide +kernel
  obtain ⟨-, -, hsettled, hperm⟩ := resolveVersion_settled hparse pinningChain
  have hsatisfiable : ∃ v, ∀ constraint ∈ pinningChain.ambient "/lib/x", constraint.Admits v :=
    ⟨⟨1, 1, 0⟩, by decide +kernel⟩
  obtain ⟨v, hpins, -, hresolve⟩ := (hsettled hsatisfiable).2.1 (by decide)
    ⟨⟨⟨1, 1, 0⟩, .exact⟩, by decide +kernel, rfl⟩
  -- the version that is found is the one that both files pin
  obtain rfl : ⟨1, 1, 0⟩ = v := hpins ⟨⟨1, 1, 0⟩, .exact⟩ (by decide +kernel) rfl
  have hpinned : VersionedPath.pinned ⟨"/lib/x", ⟨⟨1, 0, 0⟩, .atLeast⟩, "x.js"⟩ ⟨1, 1, 0⟩ =
      "/lib/x/1.1.0/x.js".toList := by decide +kernel
  rw [hpinned] at hresolve
  refine ⟨hparse, hresolve, ?_⟩
  exact ((hperm _ (List.reverse_perm _).symm).1 _).2 hresolve

end Resolution

end ModuleCompiler
