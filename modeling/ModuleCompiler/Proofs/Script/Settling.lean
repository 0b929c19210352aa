import ModuleCompiler.Proofs.Lists
import ModuleCompiler.Script.Reference

/-!
# Settled references

Settling goes through the ids of a source one by one, so it succeeds when each of them settles
(`exists_of_settle`). What comes of an id is the absent id or a canonical one, whatever its scope
makes of its name.
-/

namespace ModuleCompiler.Script

variable {scope : Scope} {base pathname source id : Text} {settled : SettledSource}

/-- A source that settles has its ids settled one by one, and those that differ put in their
places. -/
theorem exists_of_settle (h : settle scope base pathname source = .ok settled) :
    ∃ ids, List.Forall₂ (fun span id => settleId scope base pathname span.id = .ok id)
        (scan source) ids ∧
      settled.source = splice source
        (((scan source).zip ids).filterMap fun (span, id) => span.edit? id) ∧
      settled.references = ((scan source).zip ids).map fun (span, id) => ⟨span.kind, id⟩ := by
  unfold settle at h
  rcases hids : (scan source).mapM fun span => settleId scope base pathname span.id
    with error | ids
  · simp [hids, bind, Except.bind] at h
  · simp only [hids, bind, Except.bind, pure, Except.pure, Except.ok.injEq] at h
    obtain rfl := h
    exact ⟨ids, mapM_eq_ok_iff.1 hids, rfl, rfl⟩

/-- An id stands for no module or for a canonical id. -/
theorem canonical_of_settleId {settledId : Text}
    (h : settleId scope base pathname id = .ok settledId) :
    settledId = ModuleId.absent ∨ ModuleId.isCanonical settledId = true := by
  -- an alias may lead to any id, so the reading of references is looked at first
  have hreference : ∀ reference : Text,
      ModuleId.ofReference base pathname reference = .ok settledId →
        settledId = ModuleId.absent ∨ ModuleId.isCanonical settledId = true := by
    intro reference hof
    unfold ModuleId.ofReference at hof
    split at hof
    · rename_i hplain
      obtain rfl := Except.ok.inj hof
      exact hplain
    · split at hof
      · split at hof
        · obtain rfl := Except.ok.inj hof
          exact .inr rfl
        · simp at hof
      · obtain rfl := Except.ok.inj hof
        exact .inr rfl
  unfold settleId at h
  split at h
  · rename_i hplain
    obtain rfl := Except.ok.inj h
    exact hplain
  · exact hreference _ h

/-- What a settled source requires is absent or canonical. -/
theorem canonical_of_mem_requiredIds (h : settle scope base pathname source = .ok settled)
    (hmem : id ∈ settled.requiredIds) :
    id = ModuleId.absent ∨ ModuleId.isCanonical id = true := by
  obtain ⟨ids, hids, -, hreferences⟩ := exists_of_settle h
  obtain ⟨reference, hreference, rfl⟩ := List.mem_map.1 hmem
  have hmember := List.mem_of_mem_filter hreference
  rw [hreferences] at hmember
  obtain ⟨⟨span, settledId⟩, hpair, rfl⟩ := List.mem_map.1 hmember
  exact canonical_of_settleId ((List.forall₂_iff_zip.1 hids).2 hpair)

end ModuleCompiler.Script
