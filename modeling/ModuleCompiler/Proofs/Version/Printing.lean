import ModuleCompiler.Proofs.Version.Splitting

/-!
# Printed versions

A version is printed by its three numbers in decimal, and reading the text gives it back: all
numbers of a version are below `2 ^ 64`, so none of them overflows. A printed version is made of
digits and dots, so it brings no other character into a path.
-/

namespace ModuleCompiler

open Unicode

/-- A printed number is read back. -/
theorem Text.toUInt64?_ofNat (n : UInt64) : Text.toUInt64? (Text.ofNat n.toNat) = some n := by
  have hne : Text.ofNat n.toNat ≠ [] := ne_nil_of_isDigitRun (isDigitRun_ofNat _)
  have hdigits : (Text.ofNat n.toNat).all Char.isDigit = true :=
    List.all_eq_true.2 fun _ hmem => Nat.isDigit_of_mem_toDigits (by decide) (by decide) hmem
  have hvalue : Nat.ofDigitChars 10 (Text.ofNat n.toNat) 0 = n.toNat :=
    Nat.ofDigitChars_toDigits (by decide) (by decide)
  rw [Text.toUInt64?, if_pos ⟨hne, hdigits⟩, hvalue]
  simp only
  rw [if_pos n.toNat_lt, UInt64.ofNat_toNat]

/-- A printed constraint is read back. -/
theorem Constraint.ofText?_toText (constraint : Constraint) :
    Constraint.ofText? constraint.toText = some constraint := by
  rw [Constraint.ofText?, Constraint.toText, VersionSegment.ofText?_toText]
  simp [Text.toUInt64?_ofNat]

/-- A printed version is read back as the constraint to exactly this version. -/
theorem Constraint.ofText?_version (version : Version) :
    Constraint.ofText? version.toText = some ⟨version, .exact⟩ := by
  have h := Constraint.ofText?_toText ⟨version, .exact⟩
  rwa [Constraint.toText, Direction.mark, List.append_nil] at h

/-- A printed version has no characters but digits and dots. -/
theorem Version.not_mem_toText (version : Version) {c : Char} (hc : isDecimalDigit c = false)
    (hdot : c ≠ '.') : c ∉ version.toText := by
  have hnumber : ∀ n, c ∉ Text.ofNat n := fun n => not_mem_of_isDigitRun (isDigitRun_ofNat n) hc
  simp [Version.toText, hnumber, hdot]

end ModuleCompiler
