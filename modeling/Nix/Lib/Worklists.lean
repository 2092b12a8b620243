import Mathlib.Data.List.Basic
import Mathlib.Data.List.Nodup

/-!
Searches that visit every element once: a set of elements and a queue of those whose
successors have not been visited.
-/

namespace Nix.Lib.Worklists

variable {α : Type} [DecidableEq α]

structure Worklist (α : Type) where
  visited : List α := []
  todo : List α := []

namespace Worklist

def enqueue (w : Worklist α) (a : α) : Worklist α :=
  if a ∈ w.visited then w else ⟨a :: w.visited, w.todo ++ [a]⟩

def enqueueAll (w : Worklist α) (l : List α) : Worklist α :=
  l.foldl enqueue w

/-- The queue holds visited elements, each of them once. -/
structure Regular (w : Worklist α) : Prop where
  nodup : w.visited.Nodup
  todoNodup : w.todo.Nodup
  todo : ∀ a ∈ w.todo, a ∈ w.visited

theorem mem_visited_enqueueAll {w : Worklist α} {l : List α} {a : α} :
    a ∈ (w.enqueueAll l).visited ↔ a ∈ w.visited ∨ a ∈ l := by
  induction l generalizing w with
  | nil => simp [enqueueAll]
  | cons b l ih =>
      have hb : a ∈ (w.enqueue b).visited ↔ a ∈ w.visited ∨ a = b := by
        unfold enqueue
        split
        next hmem =>
          refine ⟨.inl, ?_⟩
          rintro (h | rfl)
          · exact h
          · exact hmem
        next => rw [List.mem_cons, or_comm]
      rw [show w.enqueueAll (b :: l) = (w.enqueue b).enqueueAll l from rfl, ih, hb,
        List.mem_cons, or_assoc]

theorem mem_todo_enqueueAll {w : Worklist α} {l : List α} {a : α} :
    a ∈ (w.enqueueAll l).todo ↔ a ∈ w.todo ∨ (a ∈ l ∧ a ∉ w.visited) := by
  induction l generalizing w with
  | nil => simp [enqueueAll]
  | cons b l ih =>
      rw [show w.enqueueAll (b :: l) = (w.enqueue b).enqueueAll l from rfl, ih]
      unfold enqueue
      split
      next hmem =>
        have hne : a ∉ w.visited → a ≠ b := by
          rintro hnew rfl
          exact hnew hmem
        rw [List.mem_cons]
        tauto
      next hnew =>
        rw [List.mem_append, List.mem_singleton, List.mem_cons, List.mem_cons]
        by_cases hab : a = b
        · subst hab
          simp [hnew]
        · simp [hab]

/-- What is visited anew is put into the queue. -/
theorem length_enqueueAll (w : Worklist α) (l : List α) :
    (w.enqueueAll l).visited.length + w.todo.length =
      w.visited.length + (w.enqueueAll l).todo.length := by
  induction l generalizing w with
  | nil => rfl
  | cons a l ih =>
      have henqueue : (w.enqueue a).visited.length + w.todo.length =
          w.visited.length + (w.enqueue a).todo.length := by
        unfold enqueue
        split
        next => rfl
        next =>
          rw [List.length_cons, List.length_append, List.length_singleton]
          omega
      have htail := ih (w.enqueue a)
      rw [show w.enqueueAll (a :: l) = (w.enqueue a).enqueueAll l from rfl]
      omega

theorem Regular.enqueue {w : Worklist α} (h : w.Regular) (a : α) : (w.enqueue a).Regular := by
  unfold Worklist.enqueue
  split
  next => exact h
  next hnew =>
    refine ⟨List.nodup_cons.mpr ⟨hnew, h.nodup⟩, ?_, fun b hb => ?_⟩
    · refine List.nodup_append.mpr ⟨h.todoNodup, List.nodup_singleton a, fun b hb c hc => ?_⟩
      rintro rfl
      rw [List.mem_singleton.mp hc] at hb
      exact hnew (h.todo a hb)
    · rcases List.mem_append.mp hb with hb | hb
      · exact List.mem_cons_of_mem a (h.todo b hb)
      · rw [List.mem_singleton.mp hb]
        exact List.mem_cons_self

theorem Regular.enqueueAll {w : Worklist α} (h : w.Regular) (l : List α) :
    (w.enqueueAll l).Regular := by
  induction l generalizing w with
  | nil => exact h
  | cons a l ih => exact ih (h.enqueue a)

omit [DecidableEq α] in
theorem Regular.tail {a : α} {visited todo : List α} (h : Regular ⟨visited, a :: todo⟩) :
    Regular ⟨visited, todo⟩ :=
  ⟨h.nodup, (List.nodup_cons.mp h.todoNodup).2, fun b hb => h.todo b (List.mem_cons_of_mem a hb)⟩

omit [DecidableEq α] in
theorem regular_singleton (a : α) : Regular ⟨[a], [a]⟩ :=
  ⟨List.nodup_singleton a, List.nodup_singleton a, fun _ h => h⟩

end Worklist

end Nix.Lib.Worklists
