import ModuleCompiler.Text.Basic

/-!
# Versions

A version is a triple of 64-bit numbers, ordered by the first of them that differs.
-/

namespace ModuleCompiler

/-- A version, from the most to the least significant number. -/
structure Version where
  major : UInt64
  minor : UInt64
  patch : UInt64
deriving DecidableEq, Repr

namespace Version

instance : LT Version where
  lt v w := v.major < w.major
    ∨ v.major = w.major ∧ (v.minor < w.minor ∨ v.minor = w.minor ∧ v.patch < w.patch)

instance : LE Version where
  le v w := ¬ w < v

instance (v w : Version) : Decidable (v < w) :=
  inferInstanceAs (Decidable (_ ∨ _))

instance (v w : Version) : Decidable (v ≤ w) :=
  inferInstanceAs (Decidable (¬ _))

/-- The version as it is written in a path. -/
def toText (v : Version) : Text :=
  Text.ofNat v.major.toNat ++ '.' :: Text.ofNat v.minor.toNat ++ '.' :: Text.ofNat v.patch.toNat

end Version

end ModuleCompiler
