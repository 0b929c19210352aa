import ModuleCompiler.Path.Extension
import ModuleCompiler.Proofs.Path.Normal

/-!
# Extensions of normal paths

An extension belongs to the last segment of a path, so a path and its last segment have the same one
(`hasExtension_of_segments`), and a segment with an extension is a name that no normalizing takes
away (`isName_of_hasExtension`).
-/

namespace ModuleCompiler.Path

open Unicode

/-! ## What an extension is -/

/-- The letters of ASCII stand between `A` and `z`. -/
theorem toNat_of_isAlpha {c : Char} (h : c.isAlpha = true) : 65 ≤ c.toNat ∧ c.toNat ≤ 122 := by
  have hval : c.toNat = c.val.toNat := rfl
  change (decide (c.val ≥ 'A'.val ∧ c.val ≤ 'Z'.val) ||
    (decide (c.val ≥ 'a'.val) && decide (c.val ≤ 'z'.val))) = true at h
  simp only [Bool.or_eq_true, Bool.and_eq_true, decide_eq_true_eq, ge_iff_le,
    UInt32.le_iff_toNat_le] at h
  rw [hval]
  rcases h with ⟨hlow, hhigh⟩ | ⟨hlow, hhigh⟩
  · exact ⟨hlow, Nat.le_trans hhigh (by decide)⟩
  · exact ⟨Nat.le_trans (by decide) hlow, hhigh⟩

/-- An extension is made of word characters. -/
theorem isWordCharacter_of_mem_extension {name : Text} (h : isExtensionName name = true) :
    ∀ c ∈ name, isWordCharacter c = true := by
  rcases name with _ | ⟨first, rest⟩
  · simp
  · rw [isExtensionName, Bool.and_eq_true, List.all_eq_true] at h
    have hascii : first.toNat < 128 := Nat.lt_of_le_of_lt (toNat_of_isAlpha h.1).2 (by decide)
    have hfirst := isWordCharacter_of_ascii hascii (by simp [Char.isAlphanum, h.1])
    exact List.forall_mem_cons.2 ⟨hfirst, h.2⟩

/-- Other characters do not occur in an extension. -/
theorem not_mem_extension {name : Text} {c : Char} (h : isExtensionName name = true)
    (hc : isWordCharacter c = false) : c ∉ name := by
  intro hmem
  rw [isWordCharacter_of_mem_extension h c hmem] at hc
  exact Bool.noConfusion hc

/-- A path is divided at a dot with an extension behind it, which is the last dot then. -/
theorem splitExtension?_eq_some_iff {path stem name : Text} :
    splitExtension? path = some (stem, name) ↔
      path = stem ++ '.' :: name ∧ isExtensionName name = true := by
  constructor
  · intro h
    unfold splitExtension? at h
    split at h
    · simp at h
    · rename_i dot rest hdrop
      dsimp only at h
      split at h
      · rename_i hname
        obtain ⟨rfl, rfl⟩ := Prod.mk.inj (Option.some.inj h)
        have hdot : dot = '.' := by
          have hhead := List.head?_dropWhile_not (· != '.') path.reverse
          rw [hdrop] at hhead
          simpa using hhead
        -- reversed, the path is what stands behind the last dot, the dot, and the rest
        have hpath : path.reverse.takeWhile (· != '.') ++ path.reverse.dropWhile (· != '.') =
            path.reverse := List.takeWhile_append_dropWhile
        rw [hdrop, hdot] at hpath
        refine ⟨?_, hname⟩
        have hreverse := congrArg List.reverse hpath
        rw [List.reverse_append, List.reverse_cons, List.reverse_reverse, List.append_assoc,
          List.singleton_append] at hreverse
        exact hreverse.symm
      · simp at h
  · rintro ⟨rfl, hname⟩
    -- an extension has no dot, so the one in front of it is the last
    have hdot : '.' ∉ name := not_mem_extension hname (by decide)
    have hall : ∀ c ∈ name.reverse, (c != '.') = true := by
      intro c hmem
      rw [bne_iff_ne]
      rintro rfl
      exact hdot (List.mem_reverse.1 hmem)
    have hreverse : (stem ++ '.' :: name).reverse = name.reverse ++ '.' :: stem.reverse := by simp
    rw [splitExtension?, hreverse, List.dropWhile_append_of_pos hall,
      List.takeWhile_append_of_pos hall]
    simp [hname]

/-- A path has an extension when it ends in a dot and one. -/
theorem hasExtension_iff {path : Text} :
    hasExtension path = true ↔
      ∃ stem name, path = stem ++ '.' :: name ∧ isExtensionName name = true := by
  rw [hasExtension, Option.isSome_iff_exists]
  simp only [Prod.exists, splitExtension?_eq_some_iff]

/-! ## The last segment -/

/-- The extension of a path is one of its last segment. -/
theorem hasExtension_of_segments {path last : Text} {front : List Text}
    (hsegments : segments path = front ++ [last]) (h : hasExtension path = true) :
    hasExtension last = true := by
  obtain ⟨stem, name, hpath, hname⟩ := hasExtension_iff.1 h
  have hslash : '/' ∉ '.' :: name := by
    rw [List.mem_cons, not_or]
    exact ⟨by decide, not_mem_extension hname (by decide)⟩
  rw [hasExtension_iff]
  rcases eq_or_ne front [] with rfl | hfront
  · have hlast : path = last := by
      rw [← ofSegments_segments path, hsegments]
      simp [ofSegments, Text.joined]
    exact ⟨stem, name, hlast ▸ hpath, hname⟩
  · have hsplit : ofSegments front ++ '/' :: last = stem ++ '.' :: name := by
      rw [← ofSegments_concat hfront, ← hsegments, ofSegments_segments, hpath]
    -- the dot stands behind the last slash, since the extension has none
    rcases List.append_eq_append_iff.1 hsplit with ⟨rest, -, hrest⟩ | ⟨rest, -, hrest⟩
    · rcases rest with _ | ⟨c, inner⟩
      · simp at hrest
      · rw [List.cons_append] at hrest
        exact ⟨inner, name, (List.cons.inj hrest).2, hname⟩
    · rw [hrest] at hslash
      simp at hslash

/-- A segment with an extension is neither empty nor made of dots. -/
theorem isName_of_hasExtension {segment : Text} (hslash : '/' ∉ segment)
    (h : hasExtension segment = true) : IsName segment := by
  obtain ⟨stem, name, rfl, hname⟩ := hasExtension_iff.1 h
  have hne : name ≠ [] := by
    rintro rfl
    simp [isExtensionName] at hname
  have hdot : name ≠ ['.'] := by
    rintro rfl
    exact absurd hname (by decide)
  refine ⟨by simp, ?_, ?_, hslash⟩
  · intro heq
    rcases stem with _ | ⟨c, rest⟩ <;> simp_all
  · intro heq
    rcases stem with _ | ⟨c, _ | ⟨d, rest⟩⟩ <;> simp_all

end ModuleCompiler.Path
