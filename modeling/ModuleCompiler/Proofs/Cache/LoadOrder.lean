import Mathlib.Data.List.Induction
import ModuleCompiler.Proofs.Cache.Invariant

/-!
# Load order

The order in which everything below a file has to be loaded is put together from the orders of what
it requires, each pathname where it comes first. It lists every file below once, and each after all
that are below it.

What stands in the load order of a compiled file follows from `firstOccurrences` alone
(`mem_flattened_iff`, `nodup_flattened`). Where it stands is `Ordered`: an order may be continued by
what another one adds to it (`Ordered.append`), and `ordered_flattened` does this file by file.
-/

namespace ModuleCompiler

/-! ## First occurrences -/

/-- Leaving out repetitions leaves out no text. -/
theorem mem_firstOccurrences {texts : List Text} {text : Text} :
    text ∈ firstOccurrences texts ↔ text ∈ texts := by
  induction texts using List.reverseRecOn with
  | nil => exact Iff.rfl
  | append_singleton texts last ih =>
      rw [firstOccurrences, List.foldl_append, ← firstOccurrences]
      show text ∈ (if last ∈ firstOccurrences texts then firstOccurrences texts
        else firstOccurrences texts ++ [last]) ↔ _
      -- the last text is one of the others, or a new one
      by_cases hlast : last ∈ firstOccurrences texts
      · rw [if_pos hlast, List.mem_append, ← ih]
        constructor
        · exact .inl
        · rintro (hmem | hmem)
          · exact hmem
          · rwa [List.mem_singleton.1 hmem]
      · rw [if_neg hlast, List.mem_append, List.mem_append, ih]

/-- A text at the end is kept unless it has come before. -/
theorem firstOccurrences_concat (texts : List Text) (last : Text) :
    firstOccurrences (texts ++ [last]) =
      if last ∈ texts then firstOccurrences texts else firstOccurrences texts ++ [last] := by
  rw [firstOccurrences, List.foldl_append, ← firstOccurrences]
  exact if_congr mem_firstOccurrences rfl rfl

/-- Without its repetitions a list has none. -/
theorem nodup_firstOccurrences (texts : List Text) : (firstOccurrences texts).Nodup := by
  induction texts using List.reverseRecOn with
  | nil => exact List.nodup_nil
  | append_singleton texts last ih =>
      rw [firstOccurrences_concat]
      by_cases hlast : last ∈ texts
      · rw [if_pos hlast]
        exact ih
      · rw [if_neg hlast, List.nodup_append]
        rw [← mem_firstOccurrences] at hlast
        refine ⟨ih, List.pairwise_singleton _ _, ?_⟩
        rintro text hmem _ hsingle rfl
        rw [List.mem_singleton.1 hsingle] at hmem
        exact hlast hmem

/-- What comes later is kept as far as it has not come before. -/
theorem firstOccurrences_append (texts more : List Text) :
    firstOccurrences (texts ++ more) =
      firstOccurrences texts ++ (firstOccurrences more).filter (· ∉ texts) := by
  induction more using List.reverseRecOn with
  | nil => rw [List.append_nil]; exact (List.append_nil _).symm
  | append_singleton more last ih =>
      rw [← List.append_assoc, firstOccurrences_concat, firstOccurrences_concat, ih]
      -- the last text may have come among the later ones, or among the earlier ones, or not at all
      by_cases hmore : last ∈ more
      · rw [if_pos (List.mem_append_right _ hmore), if_pos hmore]
      · rw [if_neg hmore, List.filter_append, ← List.append_assoc]
        by_cases htexts : last ∈ texts
        · rw [if_pos (List.mem_append_left _ htexts)]
          simp [htexts]
        · rw [if_neg (by simp [htexts, hmore])]
          simp [htexts]

/-- A list without repetitions stays as it is. -/
theorem firstOccurrences_of_nodup {texts : List Text} (h : texts.Nodup) :
    firstOccurrences texts = texts := by
  induction texts using List.reverseRecOn with
  | nil => rfl
  | append_singleton texts last ih =>
      rw [List.nodup_append] at h
      rw [firstOccurrences_concat, if_neg, ih h.1]
      exact fun hmem => h.2.2 last hmem last (List.mem_singleton_self last) rfl

/-! ## The orders of some dependencies -/

namespace CompiledFile

/-- The load orders of the files among some dependencies, one after the other. -/
def loadOrders (children : List (Dependency CompiledFile)) : List Text :=
  (children.filterMap Dependency.file?).flatMap loadOrder

variable {file lower : CompiledFile} {pathname other : Text}
  {children : List (Dependency CompiledFile)}

/-- A load order lists what a file needs, and the file. -/
theorem mem_loadOrder :
    other ∈ file.loadOrder ↔ other ∈ file.flattened ∨ other = file.pathname := by
  rw [loadOrder, List.mem_append, List.mem_singleton]

/-- The load order of the first file comes first. -/
theorem loadOrders_module (child : CompiledFile) (rest : List (Dependency CompiledFile)) :
    loadOrders (.module child :: rest) = child.loadOrder ++ loadOrders rest := rfl

/-- A dependency without a file has nothing to load. -/
theorem loadOrders_absent (reference : Text) (rest : List (Dependency CompiledFile)) :
    loadOrders (.absent reference :: rest) = loadOrders rest := rfl

/-- The orders of some dependencies list what the order of one of them does. -/
theorem mem_loadOrders :
    other ∈ loadOrders children ↔ ∃ child, .module child ∈ children ∧ other ∈ child.loadOrder := by
  induction children with
  | nil => simp [loadOrders]
  | cons first rest ih =>
      rcases first with child | reference
      · rw [loadOrders_module, List.mem_append, ih]
        constructor
        · rintro (hmem | ⟨lower, hlower, hmem⟩)
          · exact ⟨child, by simp, hmem⟩
          · exact ⟨lower, by simp [hlower], hmem⟩
        · rintro ⟨lower, hlower, hmem⟩
          rcases List.mem_cons.1 hlower with heq | hlower
          · obtain rfl := Dependency.module.inj heq
            exact .inl hmem
          · exact .inr ⟨lower, hlower, hmem⟩
      · rw [loadOrders_absent, ih]
        simp

end CompiledFile

/-! ## What stands in a load order -/

section Stored

variable {config : Config} {source : Text → Reading} {entries : List Text} {session : Session}
  {file lower : CompiledFile} {pathname other : Text} {children : List (Dependency CompiledFile)}

namespace Session.Invariant

/-- The order of a compiled file is that of its children, without repetitions. -/
theorem flattened_eq (h : session.Invariant config source entries)
    (hget : session.compiled.get? pathname = some file) :
    file.flattened = firstOccurrences (CompiledFile.loadOrders file.children) := by
  obtain ⟨trace, halong⟩ := h.compiledAlong hget
  exact halong.flattened_eq

/-- No pathname stands twice in the order of a file. -/
theorem nodup_flattened (h : session.Invariant config source entries)
    (hget : session.compiled.get? pathname = some file) : file.flattened.Nodup := by
  rw [h.flattened_eq hget]
  exact nodup_firstOccurrences _

/-- The load order of a file lists exactly the pathnames of the files below it. -/
theorem mem_flattened_iff (h : session.Invariant config source entries)
    (hget : session.compiled.get? pathname = some file) :
    other ∈ file.flattened ↔ ∃ lower, file.DependsOn lower ∧ lower.pathname = other := by
  -- what a file requires is smaller than the file
  induction hsize : sizeOf file using Nat.strongRecOn generalizing file pathname with
  | _ size ih =>
      rw [h.flattened_eq hget, mem_firstOccurrences, CompiledFile.mem_loadOrders]
      constructor
      · rintro ⟨child, hchild, hmem⟩
        have hrequires : file.Requires child := hchild
        rcases CompiledFile.mem_loadOrder.1 hmem with hbelow | rfl
        · rw [ih _ (hsize ▸ hrequires.sizeOf_lt) (h.closed hget hrequires) rfl] at hbelow
          obtain ⟨lower, hdepends, heq⟩ := hbelow
          exact ⟨lower, .head hrequires hdepends, heq⟩
        · exact ⟨child, .single hrequires, rfl⟩
      · rintro ⟨lower, hdepends, rfl⟩
        obtain ⟨child, hrequires, hlower⟩ := CompiledFile.dependsOn_iff.1 hdepends
        refine ⟨child, hrequires, CompiledFile.mem_loadOrder.2 ?_⟩
        -- below the file are its children and what is below one of them
        rcases hlower with rfl | hbelow
        · exact .inr rfl
        · left
          rw [ih _ (hsize ▸ hrequires.sizeOf_lt) (h.closed hget hrequires) rfl]
          exact ⟨lower, hbelow, rfl⟩

/-- A file does not stand in its own load order. -/
theorem pathname_not_mem_flattened (h : session.Invariant config source entries)
    (hget : session.compiled.get? pathname = some file) : file.pathname ∉ file.flattened := by
  intro hmem
  obtain ⟨lower, hdepends, heq⟩ := (h.mem_flattened_iff hget).1 hmem
  exact h.pathname_ne_of_dependsOn hget hdepends heq

/-- Nor with the file behind it. -/
theorem nodup_loadOrder (h : session.Invariant config source entries)
    (hget : session.compiled.get? pathname = some file) : file.loadOrder.Nodup := by
  rw [CompiledFile.loadOrder, List.nodup_append]
  refine ⟨h.nodup_flattened hget, List.pairwise_singleton _ _, ?_⟩
  rintro other hmem _ hsingle rfl
  rw [List.mem_singleton.1 hsingle] at hmem
  exact h.pathname_not_mem_flattened hget hmem

/-- What has to be loaded before a file of a load order stands in that order: a pathname stands for
one file only. -/
theorem mem_flattened_of_mem_loadOrder (h : session.Invariant config source entries)
    (hget : session.compiled.get? pathname = some file)
    (hlower : session.compiled.get? lower.pathname = some lower)
    (hmem : lower.pathname ∈ file.loadOrder) (hother : other ∈ lower.flattened) :
    other ∈ file.flattened := by
  rcases CompiledFile.mem_loadOrder.1 hmem with hbelow | heq
  · -- the file below that has this pathname is the one given
    obtain ⟨found, hdepends, heq⟩ := (h.mem_flattened_iff hget).1 hbelow
    have hfound := h.get?_of_dependsOn hget hdepends
    rw [heq] at hfound
    obtain rfl := Table.eq_of_get?_of_le (Table.le_refl _) hlower hfound
    obtain ⟨lowest, hlowest, rfl⟩ := (h.mem_flattened_iff hlower).1 hother
    exact (h.mem_flattened_iff hget).2 ⟨lowest, hdepends.trans hlowest, rfl⟩
  · rw [heq, h.pathname_eq hget, hget] at hlower
    rwa [Option.some.inj hlower]

end Session.Invariant

/-! ## Where it stands -/

/-- Whatever has to be loaded before a file of the list stands before it. -/
def Session.Ordered (session : Session) (texts : List Text) : Prop :=
  ∀ before pathname, before ++ [pathname] <+: texts →
    ∀ file, session.compiled.get? pathname = some file → ∀ other ∈ file.flattened, other ∈ before

namespace Session.Ordered

variable {texts more : List Text}

/-- Nothing is out of order in an empty list. -/
theorem nil : session.Ordered [] := by
  intro before pathname hstart
  simp at hstart

/-- A list with one more pathname is ordered when all that this one needs is in the list. -/
theorem concat_iff :
    session.Ordered (texts ++ [pathname]) ↔
      session.Ordered texts ∧ ∀ file, session.compiled.get? pathname = some file →
        ∀ other ∈ file.flattened, other ∈ texts := by
  constructor
  · intro h
    refine ⟨fun before last hstart => ?_, h texts pathname (List.prefix_refl _)⟩
    exact h before last (hstart.trans (List.prefix_append _ _))
  · rintro ⟨h, hpathname⟩ before last hstart
    rcases List.prefix_concat_iff.1 hstart with heq | hshorter
    · obtain ⟨rfl, hlast⟩ := List.append_inj' heq rfl
      obtain rfl := List.singleton_injective hlast
      exact hpathname
    · exact h before last hshorter

/-- A list may be continued by what another one adds to it. -/
theorem append (h : session.Ordered texts) (hmore : session.Ordered more) :
    session.Ordered (texts ++ more.filter (· ∉ texts)) := by
  induction more using List.reverseRecOn with
  | nil => simpa using h
  | append_singleton more last ih =>
      obtain ⟨hbefore, hlast⟩ := concat_iff.1 hmore
      rw [List.filter_append]
      -- a pathname that has come before adds nothing; another one has all it needs in one of the
      -- lists
      by_cases hmem : last ∈ texts
      · rw [List.filter_cons_of_neg (by simp [hmem]), List.filter_nil, List.append_nil]
        exact ih hbefore
      · rw [List.filter_cons_of_pos (by simp [hmem]), List.filter_nil, ← List.append_assoc]
        refine concat_iff.2 ⟨ih hbefore, fun file hget other hother => ?_⟩
        have hother := hlast file hget other hother
        by_cases htexts : other ∈ texts
        · exact List.mem_append_left _ htexts
        · exact List.mem_append_right _ (List.mem_filter.2 ⟨hother, by simp [htexts]⟩)

/-- The orders of some files, one after the other, are ordered without their repetitions. -/
theorem firstOccurrences_loadOrders
    (h : ∀ child, .module child ∈ children →
      child.loadOrder.Nodup ∧ session.Ordered child.loadOrder) :
    session.Ordered (firstOccurrences (CompiledFile.loadOrders children)) := by
  induction children with
  | nil => exact nil
  | cons first rest ih =>
      have hrest := ih fun child hmem => h child (List.mem_cons_of_mem _ hmem)
      rcases first with child | reference
      · obtain ⟨hnodup, hchild⟩ := h child List.mem_cons_self
        rw [CompiledFile.loadOrders_module, firstOccurrences_append,
          firstOccurrences_of_nodup hnodup]
        exact hchild.append hrest
      · exact hrest

end Session.Ordered

namespace Session.Invariant

/-- The load order of a file is ordered, and so is the one that ends with the file. -/
theorem ordered_flattened (h : session.Invariant config source entries)
    (hget : session.compiled.get? pathname = some file) :
    session.Ordered file.flattened ∧ session.Ordered file.loadOrder := by
  induction hsize : sizeOf file using Nat.strongRecOn generalizing file pathname with
  | _ size ih =>
      -- the orders of the children are ordered by induction, and so is what is put together from
      -- them
      have hflattened : session.Ordered file.flattened := by
        rw [h.flattened_eq hget]
        refine Ordered.firstOccurrences_loadOrders fun child hchild => ?_
        have hrequires : file.Requires child := hchild
        have hstored := h.closed hget hrequires
        have hsmaller := hrequires.sizeOf_lt
        exact ⟨h.nodup_loadOrder hstored, (ih _ (hsize ▸ hsmaller) hstored rfl).2⟩
      refine ⟨hflattened, Ordered.concat_iff.2 ⟨hflattened, fun found hfound other hother => ?_⟩⟩
      rw [h.pathname_eq hget, hget] at hfound
      rwa [Option.some.inj hfound]

end Session.Invariant

end Stored

end ModuleCompiler
