import Mathlib.Data.List.Basic

/-!
Checks, which return nothing or fail, and the conditions that they decide.
-/

namespace Nix.Lib.Decisions

variable {α ε : Type} {expected : ε → Prop}

/-- The check passes if and only if the condition holds, and otherwise fails as expected. -/
structure Decides (expected : ε → Prop) (x : Except ε Unit) (P : Prop) : Prop where
  passes : x = .ok () ↔ P
  fails : ∀ e, x = .error e → expected e

variable {x y : Except ε Unit} {P Q : Prop}

theorem Decides.congr (h : Decides expected x P) (hiff : P ↔ Q) : Decides expected x Q :=
  ⟨h.passes.trans hiff, h.fails⟩

theorem decides_ok (h : P) : Decides expected (.ok ()) P :=
  ⟨iff_of_true rfl h, fun _ he => nomatch he⟩

theorem decides_error {e : ε} (he : expected e) (h : ¬P) : Decides expected (.error e) P := by
  refine ⟨iff_of_false nofun h, ?_⟩
  rintro e' heq
  cases heq
  exact he

/-- A check that fails under a condition passes without it. -/
theorem decides_guard {c : Prop} [Decidable c] {e : ε} (he : expected e) :
    Decides expected (if c then .error e else .ok ()) (¬c) := by
  split
  next h => exact decides_error he (not_not.mpr h)
  next h => exact decides_ok h

theorem Decides.bind (hx : Decides expected x P) (hy : P → Decides expected y Q) :
    Decides expected (x >>= fun _ => y) (P ∧ Q) := by
  cases x with
  | error e =>
    have hnot : ¬P := fun h => nomatch hx.passes.mpr h
    exact decides_error (hx.fails e rfl) fun h => hnot h.1
  | ok u =>
    have h := hx.passes.mp rfl
    exact (hy h).congr (and_iff_right h).symm

/-- A check may be left out where its condition holds. -/
theorem Decides.ite {c : Prop} [Decidable c] (hx : Decides expected x P) (h : ¬c → P) :
    Decides expected (if c then x else .ok ()) P := by
  split
  next => exact hx
  next hc => exact decides_ok (h hc)

theorem decides_elim {o : Option α} {f : α → Except ε Unit} {R : α → Prop}
    (h : ∀ a, o = some a → Decides expected (f a) (R a)) :
    Decides expected (o.elim (.ok ()) f) (∀ a, o = some a → R a) := by
  cases o with
  | none => exact decides_ok fun a ha => nomatch ha
  | some a => exact (h a rfl).congr ⟨fun hr b hb => Option.some.inj hb ▸ hr, fun hr => hr a rfl⟩

theorem decides_forM {l : List α} {f : α → Except ε Unit} {R : α → Prop}
    (h : ∀ a ∈ l, Decides expected (f a) (R a)) :
    Decides expected (l.forM f) (∀ a ∈ l, R a) := by
  induction l with
  | nil => exact decides_ok (List.forall_mem_nil R)
  | cons a l ih =>
    obtain ⟨ha, hl⟩ := List.forall_mem_cons.mp h
    exact (ha.bind fun _ => ih hl).congr List.forall_mem_cons.symm

end Nix.Lib.Decisions
