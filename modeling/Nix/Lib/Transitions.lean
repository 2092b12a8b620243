import Mathlib.Data.List.Basic

/-!
Machines whose events may be disabled, and what all their runs preserve.
-/

namespace Nix.Lib.Transitions

variable {σ ε : Type}

/-- The states that runs of admissible events lead to. -/
inductive Reaches (step : σ → ε → Option σ) (ok : σ → ε → Prop) (start : σ) : σ → Prop
  | start : Reaches step ok start start
  | next {s s' : σ} {e : ε} (hs : Reaches step ok start s) (hok : ok s e)
      (h : step s e = some s') : Reaches step ok start s'

section Reaches

variable {step : σ → ε → Option σ} {ok : σ → ε → Prop} {start : σ}

theorem Reaches.invariant {I : σ → Prop} (hstart : I start)
    (hstep : ∀ s e s', I s → ok s e → step s e = some s' → I s') {s : σ}
    (h : Reaches step ok start s) : I s := by
  induction h with
  | start => exact hstart
  | next _ hok h ih => exact hstep _ _ _ ih hok h

/-- A run ends if some step is possible as long as it has not, and lowers a measure. -/
theorem Reaches.exists_ended {I ended : σ → Prop} (measure : σ → Nat)
    (hnext : ∀ s, I s → ¬ended s →
      ∃ e s', ok s e ∧ step s e = some s' ∧ I s' ∧ measure s' < measure s)
    {s : σ} (hs : Reaches step ok start s) (hi : I s) :
    ∃ s', Reaches step ok start s' ∧ I s' ∧ ended s' := by
  by_cases hended : ended s
  · exact ⟨s, hs, hi, hended⟩
  · obtain ⟨e, s', hok, hstep, hi', hlt⟩ := hnext s hi hended
    exact (hs.next hok hstep).exists_ended measure hnext hi'
termination_by measure s

variable [∀ s e, Decidable (ok s e)]

/-- The state after a sequence of events, if all of them are enabled and admissible. -/
def exec (step : σ → ε → Option σ) (ok : σ → ε → Prop) [∀ s e, Decidable (ok s e)] :
    σ → List ε → Option σ
  | s, [] => some s
  | s, e :: es => if ok s e then (step s e).bind fun s => exec step ok s es else none

theorem Reaches.exec {s s' : σ} {es : List ε} (hs : Reaches step ok start s)
    (h : exec step ok s es = some s') : Reaches step ok start s' := by
  induction es generalizing s with
  | nil =>
      cases h
      exact hs
  | cons e es ih =>
      rw [Transitions.exec] at h
      split at h
      next hok =>
        obtain ⟨t, ht, h⟩ := Option.bind_eq_some_iff.mp h
        exact ih (hs.next hok ht) h
      next => cases h

end Reaches

end Nix.Lib.Transitions

/-!
Deterministic machines that answer every operation, and the invariants of their runs.
-/

namespace Nix.Lib.Machine

variable {σ ω α : Type}

/-- What an operation answers, and the state it leaves. -/
abbrev Step (σ ω α : Type) := σ → ω → α × σ

/-- The state after a sequence of operations. -/
def run (step : Step σ ω α) : σ → List ω → σ
  | s, [] => s
  | s, o :: os => run step (step s o).2 os

/-- Every operation of a run is admissible in the state that it meets. -/
def Admits (step : Step σ ω α) (ok : σ → ω → Prop) : σ → List ω → Prop
  | _, [] => True
  | s, o :: os => ok s o ∧ Admits step ok (step s o).2 os

theorem admits_append {step : Step σ ω α} {ok : σ → ω → Prop} {s : σ} {os os' : List ω} :
    Admits step ok s (os ++ os') ↔
      Admits step ok s os ∧ Admits step ok (run step s os) os' := by
  induction os generalizing s with
  | nil => simp [Admits, run]
  | cons o os ih => simp only [List.cons_append, Admits, run, ih, and_assoc]

theorem admits_true {step : Step σ ω α} (s : σ) (os : List ω) :
    Admits step (fun _ _ => True) s os := by
  induction os generalizing s with
  | nil => trivial
  | cons o os ih => exact ⟨trivial, ih _⟩

section Invariant

variable {step : Step σ ω α} {ok : σ → ω → Prop} {I : σ → Prop}

/-- What admissible steps preserve holds after an admissible run. -/
theorem run_invariant (hstep : ∀ s o, I s → ok s o → I (step s o).2) {s : σ} {os : List ω}
    (hs : I s) (hok : Admits step ok s os) : I (run step s os) := by
  induction os generalizing s with
  | nil => exact hs
  | cons o os ih => exact ih (hstep s o hs hok.1) hok.2

/-- What the invariant gives for one answer holds for every answer of a run. -/
theorem answer_of_invariant {good : σ → ω → α → Prop}
    (hstep : ∀ s o, I s → ok s o → I (step s o).2)
    (hgood : ∀ s o, I s → ok s o → good s o (step s o).1) {s : σ} {os : List ω} {o : ω}
    (hs : I s) (hok : Admits step ok s (os ++ [o])) :
    good (run step s os) o (step (run step s os) o).1 := by
  obtain ⟨hos, ho⟩ := admits_append.mp hok
  exact hgood _ _ (run_invariant hstep hs hos) ho.1

end Invariant

end Nix.Lib.Machine
