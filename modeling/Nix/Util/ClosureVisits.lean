import Mathlib.Data.List.Perm.Basic
import Nix.Util.ClosureRuns

/-!
Every element of a closure is handed to `getEdges` once.
-/

set_option linter.dupNamespace false

namespace Nix.Util.Closure

open Lib.Transitions

variable {α ε : Type} [DecidableEq α] {maxConcurrent : Nat} {edges : α → List α}

/-- The element whose call of `getEdges` returns. -/
def Event.returned? : Event α ε → Option α
  | .returned elt => some elt
  | .next => none
  | .failed _ _ => none

namespace State

/-- The elements that were found are those that calls have returned for, and those that are left. -/
structure Visits (done : List α) (s : State α ε) : Prop where
  nodup : s.res.Nodup
  count : ∀ x, done.count x + s.todo.count x + s.workers.count x = s.res.count x

variable {s : State α ε} {done : List α}

theorem count_workers_post (task : Task α ε) (x : α) : (s.post task).workers.count x =
    s.workers.count x + (task.spawn?.toList.count x + task.call?.toList.count x) := by
  simp only [workers, post, filterMap_concat, List.count_append]
  omega

theorem count_cons_eq (a x : α) (l : List α) : (a :: l).count x = [a].count x + l.count x :=
  @List.count_append α _ x [a] l

theorem Visits.enqueue (h : s.Visits done) (elt : α) :
    (s.enqueue maxConcurrent elt).Visits done := by
  obtain ⟨heq, -⟩ | ⟨-, hnew, -, heq⟩ | ⟨-, hnew, -, heq⟩ := enqueue_cases maxConcurrent s elt
  · rw [heq]
    exact h
  · rw [heq]
    refine ⟨List.nodup_cons.mpr ⟨hnew, h.nodup⟩, fun x => ?_⟩
    have hcount := h.count x
    have hworkers : (s.post (.call elt)).workers.count x =
        s.workers.count x + (0 + [elt].count x) := count_workers_post _ x
    change done.count x + s.todo.count x + (s.post (.call elt)).workers.count x =
      (elt :: s.res).count x
    rw [hworkers, count_cons_eq elt x s.res]
    omega
  · rw [heq]
    refine ⟨List.nodup_cons.mpr ⟨hnew, h.nodup⟩, fun x => ?_⟩
    have hcount := h.count x
    change done.count x + (s.todo ++ [elt]).count x + s.workers.count x = (elt :: s.res).count x
    rw [List.count_append, count_cons_eq elt x s.res]
    omega

theorem Visits.enqueueAll (h : s.Visits done) (elts : List α) :
    (s.enqueueAll maxConcurrent elts).Visits done := by
  induction elts generalizing s with
  | nil => exact h
  | cons elt elts ih => exact ih (h.enqueue elt)

theorem Visits.finish {elt : α} (h : s.Visits done) (helt : elt ∈ s.running) :
    ({ s with running := s.running.erase elt } : State α ε).Visits (done ++ [elt]) := by
  refine ⟨h.nodup, fun x => ?_⟩
  have hcount := h.count x
  have hrunning : (s.running.erase elt).count x + [elt].count x = s.running.count x := by
    rw [← List.count_append, ((List.perm_cons_erase helt).trans
      (List.perm_append_singleton elt _).symm).count_eq]
  simp only [workers, List.count_append] at hcount ⊢
  omega

theorem Visits.onWorkDone (h : s.Visits done) (herror : s.error = none) :
    s.onWorkDone.Visits done := by
  rw [State.onWorkDone]
  dsimp only
  split
  next next rest htodo _ =>
    refine ⟨h.nodup, fun x => ?_⟩
    have hcount := h.count x
    have hworkers : (s.post (.spawnWorker next)).workers.count x =
        s.workers.count x + ([next].count x + 0) := count_workers_post _ x
    rw [htodo, count_cons_eq] at hcount
    change done.count x + rest.count x + (s.post (.spawnWorker next)).workers.count x =
      s.res.count x
    omega
  next =>
    have hworkers : ∀ x, (s.post (.handler none)).workers.count x = s.workers.count x :=
      fun x => count_workers_post _ x
    simp only [herror, Option.isSome_none, Bool.false_eq_true, if_false]
    split
    next =>
      refine ⟨h.nodup, fun x => ?_⟩
      change done.count x + s.todo.count x + (s.post (.handler none)).workers.count x =
        s.res.count x
      rw [hworkers]
      exact h.count x
    next => exact ⟨h.nodup, h.count⟩

theorem Visits.next {task : Task α ε} {posted : List (Task α ε)} (h : s.Visits done)
    (hposted : s.posted = task :: posted) :
    (run maxConcurrent { s with posted } task).Visits done := by
  have hworkers : ∀ x, s.workers.count x =
      ({ s with posted } : State α ε).workers.count x +
        (task.spawn?.toList.count x + task.call?.toList.count x) := by
    intro x
    simp only [workers, hposted, filterMap_head, List.count_append]
    omega
  have hcount := h.count
  cases task with
  | enqueue startElts =>
      have hstate : ({ s with posted } : State α ε).Visits done := by
        refine ⟨h.nodup, fun x => ?_⟩
        rw [← hcount x, hworkers x]
        rfl
      exact hstate.enqueueAll startElts
  | spawnWorker elt =>
      refine ⟨h.nodup, fun x => ?_⟩
      have hpost : (({ s with posted } : State α ε).post (.call elt)).workers.count x =
          ({ s with posted } : State α ε).workers.count x + (0 + [elt].count x) :=
        count_workers_post _ x
      have hhead : s.workers.count x =
          ({ s with posted } : State α ε).workers.count x + ([elt].count x + 0) := hworkers x
      change done.count x + s.todo.count x +
        (({ s with posted } : State α ε).post (.call elt)).workers.count x = s.res.count x
      rw [← hcount x, hpost, hhead]
      omega
  | call elt =>
      refine ⟨h.nodup, fun x => ?_⟩
      have hhead : s.workers.count x =
          ({ s with posted } : State α ε).workers.count x + (0 + [elt].count x) := hworkers x
      have hcount := hcount x
      rw [hhead] at hcount
      simp only [workers, List.count_append] at hcount
      simp only [run, workers, List.count_append]
      rw [count_cons_eq elt x s.running]
      omega
  | handler ex =>
      refine ⟨h.nodup, fun x => ?_⟩
      have hcount := hcount x
      rw [hworkers x] at hcount
      exact hcount

theorem Visits.step {s' : State α ε} {e : Event α ε} (h : s.Visits done) (herror : s.error = none)
    (hok : NoneFails s e) (hstep : step maxConcurrent edges s e = some s') :
    s'.Visits (done ++ e.returned?.toList) := by
  cases e with
  | next =>
      rw [Closure.step] at hstep
      split at hstep
      next => cases hstep
      next task posted hposted =>
        cases hstep
        rw [Event.returned?, Option.toList_none, List.append_nil]
        exact h.next hposted
  | returned elt =>
      rw [Closure.step] at hstep
      split at hstep
      next helt =>
        cases hstep
        refine Visits.onWorkDone ((h.finish helt).enqueueAll (edges elt)) ?_
        rw [error_enqueueAll]
        exact herror
      next => cases hstep
  | failed elt ex => exact hok.elim

theorem Visits.perm_done (h : s.Visits done) (hran : s.Ran) (hhandled : s.handled ≠ []) :
    done.Perm s.res := by
  obtain ⟨hrunning, hposted⟩ := hran.atEnd hhandled
  have hworkers : s.workers = [] := by
    rw [workers, hposted, hrunning]
    rfl
  have htodo : s.todo = [] := by
    by_contra hne
    have hpos := hran.counted.todo hne
    rw [hworkers] at hpos
    exact Nat.lt_irrefl 0 hpos
  refine List.perm_iff_count.mpr fun x => ?_
  have hcount := h.count x
  rw [htodo, hworkers] at hcount
  exact hcount

end State

omit [DecidableEq α] in
theorem error_onWorkDone {s : State α ε} : s.onWorkDone.error = s.error := by
  rw [State.onWorkDone]
  dsimp only
  split
  next => rfl
  next =>
    split
    all_goals
      split
      all_goals rfl

theorem error_step {s s' : State α ε} {e : Event α ε} (hok : NoneFails s e)
    (hstep : step maxConcurrent edges s e = some s') : s'.error = s.error := by
  cases e with
  | next =>
      rw [step] at hstep
      split at hstep
      next => cases hstep
      next task posted _ =>
        cases hstep
        cases task with
        | enqueue startElts => exact error_enqueueAll
        | spawnWorker elt => rfl
        | call elt => rfl
        | handler ex => rfl
  | returned elt =>
      rw [step] at hstep
      split at hstep
      next =>
        cases hstep
        rw [error_onWorkDone, error_enqueueAll]
      next => cases hstep
  | failed elt ex => exact hok.elim

theorem error_eq_none {startElts res : List α} {s : State α ε}
    (h : Reaches (step maxConcurrent edges) NoneFails (computeClosure startElts res) s) :
    s.error = none := by
  refine h.invariant ?_ fun s e s' hs hok hstep => (error_step hok hstep).trans hs
  rw [computeClosure]
  split <;> rfl

theorem stuck_of_handled {s : State α ε} (hran : s.Ran) (hhandled : s.handled ≠ [])
    (e : Event α ε) : step maxConcurrent edges s e = none := by
  obtain ⟨hrunning, hposted⟩ := hran.atEnd hhandled
  cases e with
  | next => rw [step, hposted]
  | returned elt => exact if_neg (by rw [hrunning]; exact List.not_mem_nil)
  | failed elt ex => exact if_neg (by rw [hrunning]; exact List.not_mem_nil)

end Nix.Util.Closure
