import Mathlib.Data.List.Nodup
import ModuleCompiler.Proofs.Cache.Accounting

/-!
# Reported cycles

A compile that ends with a cycle reports the files it was in the middle of, from the entry down, and
then the pathname that it was led back to. The list is a chain of imports with one repetition, and
it does not depend on how much of the files around it was compiled before: what is left open at a
failure is such a chain whatever the session, and no module is asked for twice.
-/

namespace ModuleCompiler

namespace Compiler

/-- Whatever steps a compiler of a fixed set of files has performed: when a compile of an entry
fails with a cycle, the reported list starts with the pathname that the entry means; its last
pathname stands in it once more, and no other stands in it twice; and each file of the list imports
the one after it, where its reference is given a meaning by the files from the first down to it. -/
theorem circularDependency_imports (config : Config) (files failures : Table Text)
    (steps : List Step) (entry : Text) (cycle : List Text) (after : Session)
    (hexec : ((ofFiles config files failures).compile entry).exec
      ((ofFiles config files failures).after steps)
        = (.error (.failed (.circularDependency cycle)), after)) :
    ∃ (frames : Trace) (back : Text), cycle = frames.pathnames ++ [back] ∧
      frames.pathnames.Nodup ∧ cycle.count back = 2 ∧
      (∃ first, cycle.head? = some first ∧
        Trace.target [] (entryPathname config entry) = .ok (some first)) ∧
      ∀ place frame next, frames[place]? = some frame → cycle[place + 1]? = some next →
        Imports config (Loader.readFiles files failures) (frames.take place) frame next := by
  have hreads := readsAlways_ofFiles config files failures
  have h := invariant_after hreads.toReads
    (List.subset_cons_self entry (steps.flatMap Step.entries))
  obtain ⟨modules, hgains, -, hfailed⟩ := accounts_compile hreads List.mem_cons_self h hexec
  -- the files left open by the failure are the chain that is reported
  have hopen := hfailed _ rfl
  have hnodup : (after.uncompiled modules).Nodup := hgains.nodup.filter _
  generalize after.uncompiled modules = opened at hopen hnodup
  cases hopen with
  | @failed _ frames last opened descends fails =>
      obtain ⟨rfl, back, hback, htarget, rfl⟩ := fails.of_circular
      rw [List.nil_append] at hback htarget
      rw [List.append_nil] at hnodup
      have hcycle : Trace.cycleThrough ([] ++ frames) back = frames.pathnames ++ [back] := by
        rw [List.nil_append, Trace.cycleThrough]
      rw [hcycle]
      refine ⟨frames, back, rfl, hnodup, ?_, ?_, ?_⟩
      · have hcount : frames.pathnames.count back = 1 := List.count_eq_one_of_mem hnodup hback
        rw [List.count_append, hcount, List.count_singleton_self]
      · -- some file leads back, so the chain has a first one
        obtain ⟨first, hfirst⟩ : ∃ first, (frames.pathnames ++ [back]).head? = some first := by
          cases frames.pathnames <;> exact ⟨_, rfl⟩
        exact ⟨first, hfirst, descends.target_of_head htarget hfirst⟩
      · intro place frame next hframe hnext
        exact descends.imports htarget hframe hnext

/-- The cycle that is reported at the end of a compile. -/
def reportedCycle? {α : Type} : Except Halt α → Option (List Text)
  | .error (.failed (.circularDependency cycle)) => some cycle
  | _ => none

/-- A cycle that is read off a run is what the run has halted with. -/
theorem exec_eq_of_reportedCycle? {α : Type} {action : SessionM α} {session : Session}
    {cycle : List Text} (h : reportedCycle? (action.exec session).1 = some cycle) :
    ∃ after, action.exec session = (.error (.failed (.circularDependency cycle)), after) := by
  rcases hexec : action.exec session with ⟨outcome, after⟩
  rw [hexec] at h
  refine ⟨after, ?_⟩
  unfold reportedCycle? at h
  split at h
  · rename_i found houtcome
    have hfound : outcome = .error (.failed (.circularDependency found)) := houtcome
    rw [hfound, Option.some.inj h]
  · simp at h

/-- An entry above two files that import each other, and a file that it shares with them. -/
def loopingFiles : Table Text := .ofList [
  ("/main.js", "require('#shared'); require('#left');"),
  ("/left.js", "require('#shared'); require('./right');"),
  ("/right.js", "require('#left');"),
  ("/shared.js", "")]

theorem circularDependency_loopingFiles :
    ∃ after frames,
      ((ofFiles .standard loopingFiles .empty).compile "#main").exec
        ((ofFiles .standard loopingFiles .empty).after [.compile "#shared"])
          = (.error (.failed (.circularDependency ["/main.js".toList, "/left.js".toList,
              "/right.js".toList, "/left.js".toList])), after) ∧
      Trace.pathnames frames = ["/main.js".toList, "/left.js".toList, "/right.js".toList] ∧
      ∀ frame, frames[2]? = some frame →
        Imports .standard (Loader.readFiles loopingFiles .empty) (frames.take 2) frame
          "/left.js" := by
  have hreported : reportedCycle? (((ofFiles .standard loopingFiles .empty).compile "#main").exec
      ((ofFiles .standard loopingFiles .empty).after [.compile "#shared"])).1 =
      some ["/main.js".toList, "/left.js".toList, "/right.js".toList, "/left.js".toList] := by
    decide +kernel
  obtain ⟨after, hexec⟩ := exec_eq_of_reportedCycle? hreported
  obtain ⟨frames, back, hcycle, -, -, -, himports⟩ := circularDependency_imports .standard
    loopingFiles .empty [.compile "#shared"] "#main" _ after hexec
  have hframes := (List.append_inj' (show ["/main.js".toList, "/left.js".toList,
    "/right.js".toList] ++ ["/left.js".toList] = _ from hcycle) rfl).1
  exact ⟨after, frames, hexec, hframes.symm, fun frame hframe => himports 2 frame _ hframe rfl⟩

end Compiler

end ModuleCompiler
