import Mathlib.Data.Fintype.Pigeonhole
import Mathlib.Data.List.Basic
import Mathlib.Logic.Relation

/-!
Reachability in graphs that are given by a relation.
-/

namespace Nix.Lib.Graphs

open Relation

variable {α : Type} {R S : α → α → Prop}

def Acyclic (R : α → α → Prop) : Prop :=
  ∀ a, ¬TransGen R a a

theorem Acyclic.mono (h : Acyclic S) (hRS : ∀ a b, R a b → S a b) : Acyclic R :=
  fun a ha => h a (TransGen.mono hRS a a ha)

/-- A path through two kinds of edges uses the first kind only, or some edge of the
second kind. -/
theorem transGen_or_exists {a b : α} (h : TransGen (fun a b => R a b ∨ S a b) a b) :
    TransGen R a b ∨ ∃ m n, S m n ∧ ReflTransGen (fun a b => R a b ∨ S a b) a m ∧
      ReflTransGen (fun a b => R a b ∨ S a b) n b := by
  induction h with
  | single hab =>
      rcases hab with hR | hS
      · exact .inl (.single hR)
      · exact .inr ⟨_, _, hS, .refl, .refl⟩
  | tail hab hbc ih =>
      rcases ih with hR | ⟨m, n, hS, ham, hnb⟩
      · rcases hbc with hR' | hS
        · exact .inl (hR.tail hR')
        · exact .inr ⟨_, _, hS, hab.to_reflTransGen, .refl⟩
      · exact .inr ⟨m, n, hS, ham, hnb.tail hbc⟩

/-- Edges of a second kind that lead back from none of their targets close no cycle. -/
theorem acyclic_or (h : Acyclic R)
    (hS : ∀ m n, S m n → ¬ReflTransGen (fun a b => R a b ∨ S a b) n m) :
    Acyclic fun a b => R a b ∨ S a b := by
  intro a ha
  rcases transGen_or_exists ha with hR | ⟨m, n, hmn, ham, hna⟩
  · exact h a hR
  · exact hS m n hmn (hna.trans ham)

/-- A graph in which the edges within a closed part `V` have no cycle, and the edges
that start outside it stay in `V` or lower a rank. -/
theorem acyclic_of_rank {V : α → Prop} {rank : α → Nat}
    (hV : ∀ a b, R a b → V a → V b) (hin : Acyclic fun a b => V a ∧ R a b)
    (hout : ∀ a b, R a b → ¬V a → V b ∨ rank b < rank a) : Acyclic R := by
  intro a ha
  have hpath : ∀ b, TransGen R a b →
      (V a → V b ∧ TransGen (fun a b => V a ∧ R a b) a b) ∧ (¬V b → rank b < rank a) := by
    intro b hb
    induction hb with
    | single hab =>
        refine ⟨fun hVa => ⟨hV _ _ hab hVa, .single ⟨hVa, hab⟩⟩, fun hVb => ?_⟩
        exact (hout _ _ hab fun hVa => hVb (hV _ _ hab hVa)).resolve_left hVb
    | tail hab hbc ih =>
        refine ⟨fun hVa => ?_, fun hVc => ?_⟩
        · obtain ⟨hVb, hpath⟩ := ih.1 hVa
          exact ⟨hV _ _ hbc hVb, hpath.tail ⟨hVb, hbc⟩⟩
        · have hVb : ¬V _ := fun hVb => hVc (hV _ _ hbc hVb)
          exact Nat.lt_trans ((hout _ _ hbc hVb).resolve_left hVc) (ih.2 hVb)
  by_cases hVa : V a
  · exact hin a ((hpath a ha).1 hVa).2
  · exact Nat.lt_irrefl _ ((hpath a ha).2 hVa)

/-- Below a point that reaches no cycle the edges lower a rank, which the number of
possible targets bounds. -/
theorem exists_rank_of_acyclic {a : α} {targets : List α} (htargets : ∀ b c, R b c → c ∈ targets)
    (h : ∀ b, ReflTransGen R a b → ¬TransGen R b b) :
    ∃ rank : α → Nat, (∀ b, rank b ≤ targets.length) ∧
      ∀ b c, ReflTransGen R a b → R b c → rank c < rank b := by
  classical
  let rank : α → Nat := fun b => (targets.filter fun c => decide (TransGen R b c)).length
  refine ⟨rank, fun b => List.length_filter_le _ _, fun b c hab hbc => ?_⟩
  have hsub : (targets.filter fun d => decide (TransGen R c d)).Sublist
      (targets.filter fun d => decide (TransGen R b d)) := by
    apply List.monotone_filter_right
    intro d hd
    exact decide_eq_true (TransGen.head hbc (of_decide_eq_true hd))
  refine Nat.lt_of_le_of_ne hsub.length_le fun heq => ?_
  have hmem : c ∈ targets.filter fun d => decide (TransGen R b d) :=
    List.mem_filter.mpr ⟨htargets b c hbc, decide_eq_true (.single hbc)⟩
  rw [← hsub.eq_of_length heq] at hmem
  exact h c (hab.tail hbc) (of_decide_eq_true (List.mem_filter.mp hmem).2)

/-- Where each element leads to another one, all lead to a cycle. -/
theorem exists_cycle {s : Finset α} (h : ∀ a ∈ s, ∃ b ∈ s, R a b) {a : α}
    (ha : a ∈ s) : ∃ c, ReflTransGen R a c ∧ TransGen R c c := by
  choose! next hnext using h
  have hmem : ∀ k, next^[k] a ∈ s := by
    intro k
    induction k with
    | zero => exact ha
    | succ k ih =>
        rw [Function.iterate_succ_apply']
        exact (hnext _ ih).1
  have hpath : ∀ j k, ReflTransGen R (next^[j] a) (next^[j + k] a) := by
    intro j k
    induction k with
    | zero => exact .refl
    | succ k ih =>
        rw [← Nat.add_assoc, Function.iterate_succ_apply']
        exact ih.tail (hnext _ (hmem _)).2
  have hcycle : ∀ i j, i < j → next^[i] a = next^[j] a →
      ∃ c, ReflTransGen R a c ∧ TransGen R c c := by
    intro i j hlt heq
    obtain ⟨k, rfl⟩ := Nat.exists_eq_add_of_lt hlt
    have hfirst := hpath 0 i
    rw [Nat.zero_add] at hfirst
    have hlast := (hnext _ (hmem (i + k))).2
    rw [← Function.iterate_succ_apply' next, ← heq] at hlast
    exact ⟨next^[i] a, hfirst, .tail' (hpath i k) hlast⟩
  -- the path comes back to where it was
  obtain ⟨i, j, hne, heq⟩ :=
    Finite.exists_ne_map_eq_of_infinite fun k => (⟨next^[k] a, hmem k⟩ : s)
  rcases Nat.lt_or_gt_of_ne hne with hlt | hlt
  · exact hcycle i j hlt (congrArg Subtype.val heq)
  · exact hcycle j i hlt (congrArg Subtype.val heq.symm)

end Nix.Lib.Graphs
