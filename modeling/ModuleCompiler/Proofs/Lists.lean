import Mathlib.Data.List.Forall2

/-!
# Lists in pieces, and runs over lists

Sources, paths and logs are all taken apart as lists, so the same two questions come up under many
subjects: where one way to cut a list stands to another, and what a run over a list says of each of
its members.
-/

namespace ModuleCompiler

/-! ## Two ways to cut a list -/

/-- Of two ways to cut a list, where the second cuts in front of an element, the first cuts before
that element or behind it. -/
theorem append_eq_append_cons {α : Type} {front back before after : List α} {mid : α}
    (h : front ++ back = before ++ mid :: after) :
    (∃ more, before = front ++ more ∧ back = more ++ mid :: after) ∨
      ∃ more, front = before ++ mid :: more ∧ after = more ++ back := by
  rcases List.append_eq_append_iff.1 h with ⟨more, hbefore, hback⟩ | ⟨more, hfront, hafter⟩
  · exact .inl ⟨more, hbefore, hback⟩
  · -- the cut right in front of the element is the one case that both sides have
    rcases more with _ | ⟨first, more⟩
    · exact .inl ⟨[], by rw [hfront, List.append_nil, List.append_nil], hafter.symm⟩
    · obtain ⟨rfl, rfl⟩ := List.cons.inj hafter
      exact .inr ⟨more, hfront, rfl⟩

/-! ## Runs over a list -/

/-- A run over a list succeeds when it does on each of its inputs. -/
theorem mapM_eq_ok_iff {α β ε : Type} {f : α → Except ε β} {inputs : List α} {outputs : List β} :
    inputs.mapM f = .ok outputs ↔
      List.Forall₂ (fun input output => f input = .ok output) inputs outputs := by
  induction inputs generalizing outputs with
  | nil =>
    rw [List.forall₂_nil_left_iff]
    exact ⟨fun h => (Except.ok.inj h).symm, fun h => congrArg Except.ok h.symm⟩
  | cons input rest ih =>
    rw [List.mapM_cons, List.forall₂_cons_left_iff]
    constructor
    · intro h
      -- the first input that fails would have decided the run
      rcases hinput : f input with error | output
      · simp [hinput, bind, Except.bind] at h
      · rcases hrest : rest.mapM f with error | others
        · simp [hinput, hrest, bind, Except.bind] at h
        · simp only [hinput, hrest, bind, Except.bind, pure, Except.pure, Except.ok.injEq] at h
          exact ⟨output, others, rfl, ih.1 hrest, h.symm⟩
    · rintro ⟨output, others, hinput, hrest, rfl⟩
      rw [hinput, ih.2 hrest]
      rfl

/-- Two lists that answer the same list in turn are the same once each two answers are. -/
theorem eq_of_forall₂ {α β : Type} {R S : α → β → Prop} {inputs : List α} {values others : List β}
    (h : List.Forall₂ R inputs values) (h' : List.Forall₂ S inputs others)
    (heq : ∀ input ∈ inputs, ∀ value ∈ values, ∀ other ∈ others, R input value → S input other →
      value = other) : values = others := by
  induction h generalizing others with
  | nil =>
      cases h'
      rfl
  | cons hhead _ ih =>
      cases h' with
      | cons hhead' htail' =>
        have hvalue := heq _ List.mem_cons_self _ List.mem_cons_self _ List.mem_cons_self hhead
          hhead'
        have hvalues := ih htail' fun input hinput value hvalue other hother =>
          heq input (List.mem_cons_of_mem _ hinput) value (List.mem_cons_of_mem _ hvalue) other
            (List.mem_cons_of_mem _ hother)
        rw [hvalue, hvalues]

end ModuleCompiler
