import Mathlib.Data.Nat.Digits.Defs
import ModuleCompiler.Proofs.Version.Printing

/-!
# How constraints are spelled

A text denotes a constraint when it is made of three runs of ASCII digits with dots between them and
a mark, and each run denotes a number below `2 ^ 64`. Zeros in front of a number do not count, and
printing leaves them out; a number has one spelling without them (`Text.ofNat_placeValue`).

The number of a run is its `Text.placeValue`, where each digit counts by its place from the end. It
says nothing about the loop that reads a run, so `Text.toUInt64?_eq_some_iff` states what that loop
is to compute.
-/

namespace ModuleCompiler

/-! ## Numbers -/

namespace Text

variable {run : Text}

/-- The number that a run of ASCII digits denotes, where each digit counts by its place from the
end. -/
def placeValue (run : Text) : Nat :=
  Nat.ofDigits 10 (run.reverse.map fun c => c.toNat - '0'.toNat)

/-- The run from its first digit other than zero on, and the last zero of a run of zeros. -/
def withoutLeadingZeros (run : Text) : Text :=
  if dropLeading '0' run = [] then ['0'] else dropLeading '0' run

/-- A run of ASCII digits that denotes a number below `2 ^ 64`. -/
structure IsNumeral (run : Text) : Prop where
  ne_nil : run ≠ []
  isDigit : ∀ c ∈ run, c.isDigit = true
  placeValue_lt : run.placeValue < 2 ^ 64

/-- Reading digit by digit gives the value by places. -/
theorem ofDigitChars_eq_placeValue (run : Text) : Nat.ofDigitChars 10 run 0 = placeValue run := by
  rw [placeValue, Nat.ofDigits_eq_foldr, List.foldr_map, List.foldr_reverse,
    Nat.ofDigitChars_eq_foldl]
  simp only [Nat.cast_id, Nat.add_comm]

/-- A further digit moves the others up by one place. -/
theorem placeValue_concat (front : Text) (c : Char) :
    placeValue (front ++ [c]) = 10 * placeValue front + (c.toNat - '0'.toNat) := by
  rw [← ofDigitChars_eq_placeValue, Nat.ofDigitChars_append, ofDigitChars_eq_placeValue,
    Nat.ofDigitChars_cons, Nat.ofDigitChars_nil]

/-- Zeros in front of a run do not count. -/
theorem placeValue_dropLeading (run : Text) :
    placeValue (dropLeading '0' run) = placeValue run := by
  have hzeros : run.takeWhile (· == '0') = List.replicate (run.takeWhile (· == '0')).length '0' :=
    List.eq_replicate_of_mem fun c hmem => by simpa using List.mem_takeWhile_imp hmem
  rw [← ofDigitChars_eq_placeValue, ← ofDigitChars_eq_placeValue, dropLeading]
  conv_rhs => rw [← List.takeWhile_append_dropWhile (p := (· == '0')) (l := run)]
  rw [Nat.ofDigitChars_append, hzeros, Nat.ofDigitChars_replicate_zero, Nat.mul_zero]

/-- A run is read when it is a numeral, and then as the number it denotes. -/
theorem toUInt64?_eq_some_iff {n : UInt64} :
    toUInt64? run = some n ↔ IsNumeral run ∧ run.placeValue = n.toNat := by
  rw [toUInt64?, ofDigitChars_eq_placeValue, Option.ite_none_right_eq_some, List.all_eq_true]
  simp only [Option.ite_none_right_eq_some, Option.some.injEq]
  constructor
  · rintro ⟨⟨hne, hdigits⟩, hlt, rfl⟩
    exact ⟨⟨hne, hdigits, hlt⟩, (UInt64.toNat_ofNat_of_lt' hlt).symm⟩
  · rintro ⟨⟨hne, hdigits, hlt⟩, hvalue⟩
    exact ⟨⟨hne, hdigits⟩, hlt, by rw [hvalue, UInt64.ofNat_toNat]⟩

/-- A digit is printed as the digit of its value. -/
theorem digitChar_of_isDigit {c : Char} (h : c.isDigit = true) :
    c.toNat - '0'.toNat < 10 ∧ Nat.digitChar (c.toNat - '0'.toNat) = c := by
  simp only [Char.isDigit, Bool.and_eq_true, decide_eq_true_eq] at h
  have hlow : 48 ≤ c.toNat := UInt32.le_iff_toNat_le.1 h.1
  have hhigh : c.toNat ≤ 57 := UInt32.le_iff_toNat_le.1 h.2
  have hlt : c.toNat - '0'.toNat < 10 := by
    rw [show '0'.toNat = 48 from rfl]
    omega
  refine ⟨hlt, Char.toNat_inj.1 ?_⟩
  rw [Nat.toNat_digitChar_of_lt_ten hlt, show '0'.toNat = 48 from rfl]
  omega

/-- A run that does not start with a zero is the printed form of its number. -/
theorem ofNat_placeValue_of_head? (hne : run ≠ []) (hdigits : ∀ c ∈ run, c.isDigit = true)
    (hhead : run.head? ≠ some '0') : ofNat run.placeValue = run := by
  induction run using List.reverseRecOn with
  | nil => exact absurd rfl hne
  | append_singleton front c ih =>
    obtain ⟨hlt, hc⟩ := digitChar_of_isDigit (hdigits c (by simp))
    rw [placeValue_concat, ofNat]
    -- a single digit, or digits in front that are printed by induction
    rcases front with _ | ⟨first, digits⟩
    · rw [show placeValue [] = 0 from rfl, Nat.mul_zero, Nat.zero_add, Nat.toDigits_of_lt_base hlt,
        hc, List.nil_append]
    · have hfront : ofNat (placeValue (first :: digits)) = first :: digits :=
        ih (List.cons_ne_nil _ _) (fun d hmem => hdigits d (List.mem_append_left _ hmem)) hhead
      -- the digits in front denote no zero, so all of them are printed
      have hpos : 0 < placeValue (first :: digits) := by
        rw [Nat.pos_iff_ne_zero]
        intro hzero
        rw [hzero, ofNat, Nat.toDigits_zero] at hfront
        rw [← hfront] at hhead
        exact hhead rfl
      rw [← Nat.toDigits_append_toDigits (by decide) hpos hlt, Nat.toDigits_of_lt_base hlt, hc]
      rw [ofNat] at hfront
      rw [hfront]

/-- Printing the number of a run gives the run without leading zeros. -/
theorem ofNat_placeValue (hdigits : ∀ c ∈ run, c.isDigit = true) :
    ofNat run.placeValue = withoutLeadingZeros run := by
  rw [← placeValue_dropLeading, withoutLeadingZeros]
  split
  · -- a run of zeros only, of which one is printed
    rename_i hzeros
    rw [hzeros]
    rfl
  · rename_i hne
    refine ofNat_placeValue_of_head? hne (fun c hmem => hdigits c ?_) ?_
    · exact (List.dropWhile_suffix _).subset hmem
    · intro hhead
      have hfirst := List.head?_dropWhile_not (· == '0') run
      rw [dropLeading] at hhead
      rw [hhead] at hfirst
      simp at hfirst

end Text

/-! ## Constraints -/

namespace VersionSegment

/-- The segment as written. -/
def toText (parts : VersionSegment) : Text :=
  parts.major ++ '.' :: parts.minor ++ '.' :: parts.patch ++ parts.direction.mark

/-- A segment whose runs denote numbers below `2 ^ 64`. -/
structure IsNumeric (parts : VersionSegment) : Prop where
  major : parts.major.IsNumeral
  minor : parts.minor.IsNumeral
  patch : parts.patch.IsNumeral

/-- The segment with each number as it is printed. -/
def withoutLeadingZeros (parts : VersionSegment) : VersionSegment :=
  ⟨parts.major.withoutLeadingZeros, parts.minor.withoutLeadingZeros,
    parts.patch.withoutLeadingZeros, parts.direction⟩

/-- The numbers and the direction of the constraint are those of the segment. -/
structure Denotes (parts : VersionSegment) (constraint : Constraint) : Prop where
  major : parts.major.placeValue = constraint.version.major.toNat
  minor : parts.minor.placeValue = constraint.version.minor.toNat
  patch : parts.patch.placeValue = constraint.version.patch.toNat
  direction : parts.direction = constraint.direction

end VersionSegment

/-- A numeral is a run of digits. -/
theorem Text.IsNumeral.isDigitRun {run : Text} (h : run.IsNumeral) : isDigitRun run = true := by
  rw [ModuleCompiler.isDigitRun, Bool.and_eq_true, List.all_eq_true]
  refine ⟨by simpa using h.ne_nil, fun c hmem => ?_⟩
  exact Unicode.isDecimalDigit_of_isDigit (h.isDigit c hmem)

namespace Constraint

variable {text : Text} {constraint : Constraint} {parts : VersionSegment}

/-- A constraint is read from a numeric segment that denotes it. -/
theorem ofText?_eq_some_iff : ofText? text = some constraint ↔
    ∃ parts : VersionSegment, parts.toText = text ∧ parts.IsNumeric ∧ parts.Denotes constraint := by
  constructor
  · intro h
    simp only [ofText?, Option.bind_eq_bind, Option.bind_eq_some_iff] at h
    obtain ⟨parts, hparts, major, hmajor, minor, hminor, patch, hpatch, heq⟩ := h
    obtain rfl := Option.some.inj heq
    obtain ⟨-, -, -, htext⟩ := VersionSegment.ofText?_eq_some_iff.1 hparts
    obtain ⟨hmajor, hmajor'⟩ := Text.toUInt64?_eq_some_iff.1 hmajor
    obtain ⟨hminor, hminor'⟩ := Text.toUInt64?_eq_some_iff.1 hminor
    obtain ⟨hpatch, hpatch'⟩ := Text.toUInt64?_eq_some_iff.1 hpatch
    exact ⟨parts, htext.symm, ⟨hmajor, hminor, hpatch⟩, ⟨hmajor', hminor', hpatch', rfl⟩⟩
  · rintro ⟨parts, rfl, hnumeric, hdenotes⟩
    have hparts : VersionSegment.ofText? parts.toText = some parts :=
      VersionSegment.ofText?_eq_some_iff.2
        ⟨hnumeric.major.isDigitRun, hnumeric.minor.isDigitRun, hnumeric.patch.isDigitRun, rfl⟩
    rw [ofText?, hparts]
    simp only [Option.bind_eq_bind, Option.bind_some,
      Text.toUInt64?_eq_some_iff.2 ⟨hnumeric.major, hdenotes.major⟩,
      Text.toUInt64?_eq_some_iff.2 ⟨hnumeric.minor, hdenotes.minor⟩,
      Text.toUInt64?_eq_some_iff.2 ⟨hnumeric.patch, hdenotes.patch⟩, hdenotes.direction]
    rfl

/-- Every numeric segment denotes a constraint. -/
theorem exists_denotes (h : parts.IsNumeric) : ∃ constraint, parts.Denotes constraint :=
  ⟨⟨⟨.ofNat parts.major.placeValue, .ofNat parts.minor.placeValue, .ofNat parts.patch.placeValue⟩,
      parts.direction⟩,
    (UInt64.toNat_ofNat_of_lt' h.major.placeValue_lt).symm,
    (UInt64.toNat_ofNat_of_lt' h.minor.placeValue_lt).symm,
    (UInt64.toNat_ofNat_of_lt' h.patch.placeValue_lt).symm, rfl⟩

/-- Printing what a segment denotes leaves out the leading zeros. -/
theorem toText_of_denotes (hnumeric : parts.IsNumeric) (h : parts.Denotes constraint) :
    constraint.toText = parts.withoutLeadingZeros.toText := by
  rw [toText, Version.toText, ← h.major, ← h.minor, ← h.patch, ← h.direction,
    Text.ofNat_placeValue hnumeric.major.isDigit, Text.ofNat_placeValue hnumeric.minor.isDigit,
    Text.ofNat_placeValue hnumeric.patch.isDigit]
  rfl

/-- A printed constraint is read back. The texts that are read are those of the numeric segments,
every other text is refused as it stands, and what is read from a segment has its numbers and its
direction and is printed as the segment without leading zeros. -/
theorem parse_numeric_and_print :
    (∀ constraint : Constraint, parse constraint.toText = .ok constraint) ∧
      (∀ text, (∃ constraint, parse text = .ok constraint) ↔
        ∃ parts : VersionSegment, parts.toText = text ∧ parts.IsNumeric) ∧
      (∀ text, parse text = .error (.invalidVersion text) ↔
        ¬ ∃ parts : VersionSegment, parts.toText = text ∧ parts.IsNumeric) ∧
      ∀ parts : VersionSegment, parts.IsNumeric →
        ∃ constraint, parse parts.toText = .ok constraint ∧ parts.Denotes constraint ∧
          constraint.toText = parts.withoutLeadingZeros.toText := by
  -- what a numeric segment denotes is read from it, which is one direction of the other two parts
  have hparse : ∀ parts : VersionSegment, parts.IsNumeric →
      ∃ constraint, parse parts.toText = .ok constraint ∧ parts.Denotes constraint ∧
        constraint.toText = parts.withoutLeadingZeros.toText := by
    intro parts hnumeric
    obtain ⟨constraint, hdenotes⟩ := exists_denotes hnumeric
    exact ⟨constraint, parse_eq_ok_iff.2 (ofText?_eq_some_iff.2 ⟨parts, rfl, hnumeric, hdenotes⟩),
      hdenotes, toText_of_denotes hnumeric hdenotes⟩
  have hread : ∀ text, (∃ constraint, parse text = .ok constraint) ↔
      ∃ parts : VersionSegment, parts.toText = text ∧ parts.IsNumeric := by
    refine fun text => ⟨?_, ?_⟩
    · rintro ⟨constraint, hok⟩
      obtain ⟨parts, htext, hnumeric, -⟩ := ofText?_eq_some_iff.1 (parse_eq_ok_iff.1 hok)
      exact ⟨parts, htext, hnumeric⟩
    · rintro ⟨parts, rfl, hnumeric⟩
      obtain ⟨constraint, hok, -⟩ := hparse parts hnumeric
      exact ⟨constraint, hok⟩
  refine ⟨fun constraint => parse_eq_ok_iff.2 (ofText?_toText constraint), hread, fun text => ?_,
    hparse⟩
  rw [← hread, ← parse_eq_invalidVersion_iff]

/-- Numbers with zeros in front, the last of them the greatest that is read. -/
def paddedNumbers : VersionSegment :=
  ⟨"007", "000", "0018446744073709551615", .atLeast⟩

theorem parse_numeric_and_print_paddedNumbers :
    paddedNumbers.toText = "007.000.0018446744073709551615+" ∧ paddedNumbers.IsNumeric ∧
      (∃ constraint, parse paddedNumbers.toText = .ok constraint ∧
        paddedNumbers.Denotes constraint ∧
        constraint.toText = paddedNumbers.withoutLeadingZeros.toText) ∧
      paddedNumbers.withoutLeadingZeros.toText = "7.0.18446744073709551615+" ∧
      parse "7.0.18446744073709551616+" = .error (.invalidVersion "7.0.18446744073709551616+") ∧
      parse "7.0.٣+" = .error (.invalidVersion "7.0.٣+") := by
  have hnumeric : paddedNumbers.IsNumeric :=
    ⟨⟨by decide, List.all_eq_true.1 (by decide), by decide +kernel⟩,
      ⟨by decide, List.all_eq_true.1 (by decide), by decide +kernel⟩,
      ⟨by decide, List.all_eq_true.1 (by decide), by decide +kernel⟩⟩
  exact ⟨by decide +kernel, hnumeric, parse_numeric_and_print.2.2.2 paddedNumbers hnumeric,
    by decide +kernel, by decide +kernel, by decide +kernel⟩

end Constraint

end ModuleCompiler
