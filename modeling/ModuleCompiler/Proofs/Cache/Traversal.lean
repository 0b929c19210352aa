import ModuleCompiler.Proofs.Cache.LoadOrder

/-!
# Load orders and depth-first traversals

`CompiledFile.visit` is one traversal of the files below a file, in declaration order and with a
single set of visited pathnames. It lists each file when it leaves it. The load order of a file, put
together from those of its children, is the list of the traversal that starts at the file.

The traversal shares its visited set between all children, while load orders are put together apart.
They agree because a traversal only meets finished files: below a file it walks to, a visited file
has everything below it visited (`FinishedBelow`). Then `Adds` describes what a traversal does with
a load order, and composes as load orders do.
-/

namespace ModuleCompiler

/-- A depth-first traversal: the pathnames it has entered, and those it has left, in order. -/
structure Traversal where
  visited : List Text
  listed : List Text

mutual

/-- Enters a file, unless it was visited before: walks what it requires, then lists it. -/
def CompiledFile.visit (traversal : Traversal) : CompiledFile → Traversal
  | ⟨pathname, _, _, _, children, _, _⟩ =>
    if pathname ∈ traversal.visited then traversal
    else
      let below :=
        Traversal.visitAll { traversal with visited := pathname :: traversal.visited } children
      { below with listed := below.listed ++ [pathname] }
termination_by structural file => file

/-- Walks dependencies one after the other. -/
def Traversal.visitAll (traversal : Traversal) : List (Dependency CompiledFile) → Traversal
  | [] => traversal
  | child :: rest => Traversal.visitAll (child.visit traversal) rest
termination_by structural children => children

/-- Walks the file of a dependency, if it has one. -/
def Dependency.visit (traversal : Traversal) : Dependency CompiledFile → Traversal
  | .module file => file.visit traversal
  | .absent _ => traversal
termination_by structural child => child

end

namespace CompiledFile

/-- The pathnames of a file and of all below it, in the order in which a depth-first traversal
leaves them. -/
def postorder (file : CompiledFile) : List Text :=
  (file.visit ⟨[], []⟩).listed

/-- A visited file is passed over. -/
theorem visit_of_mem {file : CompiledFile} {traversal : Traversal}
    (h : file.pathname ∈ traversal.visited) : file.visit traversal = traversal := by
  rcases file with ⟨pathname, id, source, dependencies, children, flattened, scope⟩
  exact if_pos h

/-- Another file is entered, its children are walked, and it is listed last. -/
theorem visit_of_not_mem {file : CompiledFile} {traversal : Traversal}
    (h : file.pathname ∉ traversal.visited) :
    file.visit traversal =
      let below := Traversal.visitAll
        { traversal with visited := file.pathname :: traversal.visited } file.children
      { below with listed := below.listed ++ [file.pathname] } := by
  rcases file with ⟨pathname, id, source, dependencies, children, flattened, scope⟩
  exact if_neg h

end CompiledFile

/-! ## What a traversal adds -/

/-- Between two states a traversal has listed, of the given pathnames, those that it had not visited
before, and has visited them all. -/
structure Traversal.Adds (order : List Text) (before after : Traversal) : Prop where
  listed_eq : after.listed = before.listed ++ order.filter (· ∉ before.visited)
  mem_visited : ∀ pathname, pathname ∈ after.visited ↔ pathname ∈ before.visited ∨ pathname ∈ order

namespace Traversal.Adds

variable {order more : List Text} {before between after : Traversal}

/-- Nothing is added by staying. -/
theorem refl (traversal : Traversal) : Adds [] traversal traversal where
  listed_eq := (List.append_nil _).symm
  mem_visited pathname := by simp

/-- One order after the other: the second adds what the first has not. -/
theorem trans (h : Adds order before between) (h' : Adds more between after) :
    Adds (order ++ more.filter (· ∉ order)) before after where
  listed_eq := by
    rw [h'.listed_eq, h.listed_eq, List.filter_append, List.filter_filter, List.append_assoc]
    -- what the second lists was visited neither before nor by the first
    congr 2
    refine List.filter_congr fun pathname _ => ?_
    simp only [h.mem_visited, not_or, Bool.decide_and]
  mem_visited pathname := by
    rw [h'.mem_visited, h.mem_visited, List.mem_append, List.mem_filter]
    by_cases hmem : pathname ∈ order
    · simp [hmem]
    · simp [hmem]

/-- An order that is visited throughout is not listed again. -/
theorem of_forall_mem {traversal : Traversal}
    (h : ∀ pathname ∈ order, pathname ∈ traversal.visited) :
    Adds order traversal traversal where
  listed_eq := by
    rw [List.filter_eq_nil_iff.2, List.append_nil]
    exact fun pathname hmem => by simpa using h pathname hmem
  mem_visited pathname := by
    constructor
    · exact .inl
    · rintro (hvisited | hmem)
      · exact hvisited
      · exact h pathname hmem

/-- A file that is entered, and left behind what its children add, adds their order and itself. -/
theorem leave {pathname : Text} (hnew : pathname ∉ before.visited) (hnot : pathname ∉ order)
    (h : Adds order { before with visited := pathname :: before.visited } after) :
    Adds (order ++ [pathname]) before { after with listed := after.listed ++ [pathname] } where
  listed_eq := by
    show after.listed ++ [pathname] = _
    rw [h.listed_eq, List.filter_append, List.filter_cons_of_pos (by simp [hnew]), List.filter_nil,
      List.append_assoc]
    congr 2
    -- the file is visited by now, but its children have no reason to list it
    refine List.filter_congr fun other hmem => ?_
    have hne : other ≠ pathname := by
      rintro rfl
      exact hnot hmem
    simp [hne]
  mem_visited other := by
    show other ∈ after.visited ↔ _
    rw [h.mem_visited, List.mem_cons, List.mem_append, List.mem_singleton]
    tauto

end Traversal.Adds

/-- Of the file and the files below it, those that are visited have everything below them
visited. -/
def CompiledFile.FinishedBelow (visited : List Text) (file : CompiledFile) : Prop :=
  ∀ lower, lower = file ∨ file.DependsOn lower → lower.pathname ∈ visited →
    ∀ other ∈ lower.flattened, other ∈ visited

namespace Session.Invariant

variable {config : Config} {source : Text → Reading} {entries : List Text} {session : Session}
  {file child : CompiledFile} {pathname : Text} {children : List (Dependency CompiledFile)}

/-- Entering a file keeps the files below it finished: the file itself is not one of them. -/
theorem finishedBelow_enter {visited : List Text} (h : session.Invariant config source entries)
    (hget : session.compiled.get? pathname = some file) (hrequires : file.Requires child)
    (hfinished : file.FinishedBelow visited) : child.FinishedBelow (file.pathname :: visited) := by
  intro lower hlower hmem other hother
  have hdepends : file.DependsOn lower := CompiledFile.dependsOn_iff.2 ⟨child, hrequires, hlower⟩
  rcases List.mem_cons.1 hmem with heq | hvisited
  · exact absurd heq (h.pathname_ne_of_dependsOn hget hdepends)
  · exact List.mem_cons_of_mem _ (hfinished lower (.inr hdepends) hvisited other hother)

/-- Walking to one file keeps another finished: a file that they share is finished with the one. -/
theorem finishedBelow_of_adds {before after : Traversal}
    (h : session.Invariant config source entries)
    (hchild : session.compiled.get? child.pathname = some child)
    (hget : session.compiled.get? pathname = some file)
    (hadds : Traversal.Adds child.loadOrder before after)
    (hfinished : file.FinishedBelow before.visited) : file.FinishedBelow after.visited := by
  intro lower hlower hmem other hother
  have hstored : session.compiled.get? lower.pathname = some lower := by
    rcases hlower with rfl | hdepends
    · rwa [h.pathname_eq hget]
    · exact h.get?_of_dependsOn hget hdepends
  rw [hadds.mem_visited] at hmem ⊢
  rcases hmem with hvisited | hadded
  · exact .inl (hfinished lower hlower hvisited other hother)
  · right
    refine CompiledFile.mem_loadOrder.2 (.inl ?_)
    exact h.mem_flattened_of_mem_loadOrder hchild hstored hadded hother

/-- Walking dependencies adds their orders, one after the other without repetitions, if walking each
of their files adds its order. -/
theorem adds_visitAll (h : session.Invariant config source entries)
    (hchildren : ∀ child, .module child ∈ children →
      session.compiled.get? child.pathname = some child ∧
        ∀ traversal : Traversal, child.FinishedBelow traversal.visited →
          Traversal.Adds child.loadOrder traversal (child.visit traversal))
    (traversal : Traversal)
    (hfinished : ∀ child, .module child ∈ children → child.FinishedBelow traversal.visited) :
    Traversal.Adds (firstOccurrences (CompiledFile.loadOrders children)) traversal
      (traversal.visitAll children) := by
  induction children generalizing traversal with
  | nil => exact .refl traversal
  | cons first rest ih =>
      have hrest : ∀ child, .module child ∈ rest → _ :=
        fun child hmem => hchildren child (List.mem_cons_of_mem _ hmem)
      -- the first child keeps the others finished, so the rest is walked as if it came first
      rcases first with child | reference
      · obtain ⟨hstored, hvisit⟩ := hchildren child List.mem_cons_self
        have hadds := hvisit traversal (hfinished child List.mem_cons_self)
        rw [CompiledFile.loadOrders_module, firstOccurrences_append,
          firstOccurrences_of_nodup (h.nodup_loadOrder hstored)]
        refine hadds.trans (ih hrest _ fun other hmem => ?_)
        have hother := hfinished other (List.mem_cons_of_mem _ hmem)
        exact h.finishedBelow_of_adds hstored (hrest other hmem).1 hadds hother
      · exact ih hrest _ fun other hmem => hfinished other (List.mem_cons_of_mem _ hmem)

/-- Walking to a compiled file adds its load order. -/
theorem adds_visit (h : session.Invariant config source entries)
    (hget : session.compiled.get? pathname = some file) (traversal : Traversal)
    (hfinished : file.FinishedBelow traversal.visited) :
    Traversal.Adds file.loadOrder traversal (file.visit traversal) := by
  -- what a file requires is smaller than the file
  induction hsize : sizeOf file using Nat.strongRecOn generalizing file pathname traversal with
  | _ size ih =>
      by_cases hmem : file.pathname ∈ traversal.visited
      · -- a visited file is passed over, and all below it are visited as well
        rw [CompiledFile.visit_of_mem hmem]
        refine .of_forall_mem fun other hother => ?_
        rcases CompiledFile.mem_loadOrder.1 hother with hbelow | rfl
        · exact hfinished file (.inl rfl) hmem other hbelow
        · exact hmem
      · have hchildren : ∀ child, .module child ∈ file.children →
            session.compiled.get? child.pathname = some child ∧
              ∀ traversal : Traversal, child.FinishedBelow traversal.visited →
                Traversal.Adds child.loadOrder traversal (child.visit traversal) := by
          intro child hchild
          have hrequires : file.Requires child := hchild
          have hstored := h.closed hget hrequires
          have hsmaller := hrequires.sizeOf_lt
          exact ⟨hstored, fun _ hbelow => ih _ (hsize ▸ hsmaller) hstored _ hbelow rfl⟩
        -- entering keeps the children finished, and they add the order below the file
        have hbelow := h.adds_visitAll hchildren
          { traversal with visited := file.pathname :: traversal.visited }
          fun child hchild => h.finishedBelow_enter hget hchild hfinished
        rw [← h.flattened_eq hget] at hbelow
        rw [CompiledFile.visit_of_not_mem hmem]
        exact hbelow.leave hmem (h.pathname_not_mem_flattened hget)

end Session.Invariant

namespace Compiler

/-- Whatever steps a compiler of a fixed set of files has performed: for each compiled file, the
depth-first traversal that starts there leaves what `flattened` lists, in this order, and the file
last. So `flattened` lists the pathname of every file below once, no other pathname and not that of
the file, and each after the pathnames of all below it. -/
theorem postorder_eq (config : Config) (files failures : Table Text) (steps : List Step)
    (pathname : Text) (file : CompiledFile)
    (hget : ((ofFiles config files failures).after steps).compiled.get? pathname = some file) :
    file.postorder = file.flattened ++ [file.pathname] ∧
      file.flattened.Nodup ∧ file.pathname ∉ file.flattened ∧
      (∀ other, other ∈ file.flattened ↔ ∃ lower, file.DependsOn lower ∧ lower.pathname = other) ∧
      ∀ lower lowest before after, file.DependsOn lower → lower.DependsOn lowest →
        file.flattened = before ++ lower.pathname :: after → lowest.pathname ∈ before := by
  have h := invariant_after (readsAlways_ofFiles config files failures).toReads
    (List.Subset.refl (steps.flatMap Step.entries))
  refine ⟨?_, h.nodup_flattened hget, h.pathname_not_mem_flattened hget,
    fun other => h.mem_flattened_iff hget, ?_⟩
  · have hadds := h.adds_visit hget ⟨[], []⟩ (by rintro lower - ⟨⟩)
    rw [CompiledFile.postorder, hadds.listed_eq, ← CompiledFile.loadOrder]
    simp
  · intro lower lowest before after hlower hlowest heq
    have hstored := h.get?_of_dependsOn hget hlower
    have hstart : before ++ [lower.pathname] <+: file.flattened := ⟨after, by rw [heq]; simp⟩
    refine (h.ordered_flattened hget).1 before lower.pathname hstart lower hstored _ ?_
    exact (h.mem_flattened_iff hstored).2 ⟨lowest, hlowest, rfl⟩

/-- A file that two others share. -/
def sharingFiles : Table Text := .ofList [
  ("/main.js", "require('#left'); require('#right');"),
  ("/left.js", "require('#shared');"),
  ("/right.js", "require('#shared');"),
  ("/shared.js", "")]

theorem postorder_sharingFiles :
    ∃ file, ((ofFiles .standard sharingFiles .empty).after [.compile "#main"]).compiled.get?
        "/main.js" = some file ∧
      file.postorder = ["/shared.js".toList, "/left.js".toList, "/right.js".toList,
        "/main.js".toList] := by
  have hlisted : (((ofFiles .standard sharingFiles .empty).after [.compile "#main"]).compiled.get?
        "/main.js").map (fun file => file.flattened ++ [file.pathname]) =
      some ["/shared.js".toList, "/left.js".toList, "/right.js".toList, "/main.js".toList] := by
    decide +kernel
  obtain ⟨file, hget, heq⟩ := Option.map_eq_some_iff.1 hlisted
  exact ⟨file, hget, (postorder_eq _ _ _ _ _ file hget).1.trans heq⟩

end Compiler

end ModuleCompiler
