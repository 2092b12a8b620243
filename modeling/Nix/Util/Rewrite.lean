import Mathlib.Tactic
import Nix.Lib.MarkedWords
import Nix.Lib.SortedList
import Nix.Util.Types

set_option linter.dupNamespace false

namespace Nix.Util.Rewrite

open Util.Types Lib.SortedList

/-- `s.find(pat, j)`. -/
def find (pat s : Bytes) (j : Nat) : Option Nat :=
  (List.range' j (s.length + 1 - j)).find? fun i => pat.isPrefixOf (s.drop i)

/-- `s.replace(j, n, repl)`. -/
def replace (s : Bytes) (j n : Nat) (repl : Bytes) : Bytes :=
  s.take j ++ repl ++ s.drop (j + n)

/-- The inner loop of `rewriteStrings`, for as many rounds as `fuel` allows. The
set of matches is a sorted list. -/
def rewriteLoop (first second : Bytes) (offsetShift : Nat) :
    Nat → Nat → Bytes → List Nat → Except Error (Bytes × List Nat)
  | 0, _, _, _ => .error .diverges
  | fuel + 1, j, s, matchSet =>
      match find first s j with
      | none => .ok (s, matchSet)
      | some j =>
          rewriteLoop first second offsetShift fuel j (replace s j first.length second)
            (insertNew compare (j + offsetShift) matchSet)

/-- `rewriteStrings(s, rewrites, &matches, offsetShift)`. A rewrite that keeps
the length of the text is applied at most once at every position. -/
def rewriteStrings (s : Bytes) (rewrites : List (Bytes × Bytes)) (matchSet : List Nat)
    (offsetShift : Nat) : Except Error (Bytes × List Nat) :=
  rewrites.foldlM
    (fun r i =>
      if i.1 = i.2 then .ok r
      else rewriteLoop i.1 i.2 offsetShift (r.1.length + 1) 0 r.1 r.2)
    (s, matchSet)

theorem find_eq_some {pat s : Bytes} {j i : Nat} (h : find pat s j = some i) :
    j ≤ i ∧ i ≤ s.length ∧ pat <+: s.drop i ∧ ∀ k, j ≤ k → k < i → ¬pat <+: s.drop k := by
  obtain ⟨hpre, hmem, hfirst⟩ := List.find?_range'_eq_some.mp h
  rw [List.mem_range'_1] at hmem
  refine ⟨hmem.1, by omega, List.isPrefixOf_iff_prefix.mp hpre, fun k hjk hki hk => ?_⟩
  have hnot := hfirst k hjk hki
  rw [List.isPrefixOf_iff_prefix.mpr hk] at hnot
  cases hnot

theorem find_eq_none {pat s : Bytes} {j : Nat} (h : find pat s j = none) :
    ∀ k, j ≤ k → k ≤ s.length → ¬pat <+: s.drop k := by
  intro k hjk hk hpre
  refine List.find?_eq_none.mp h k ?_ (List.isPrefixOf_iff_prefix.mpr hpre)
  rw [List.mem_range'_1]
  omega

/-!
Rewrites of marked words: all of them are gone in the end, and the loop ends.
-/

open Lib.MarkedWords

variable {c : UInt8}

theorem Inert.ne {m z : Bytes} (h : Inert m z) (hz : z ≠ []) : m ≠ z := by
  rintro rfl
  refine h [] 0 (List.length_pos_of_ne_nil hz) ?_
  rw [List.append_nil, List.drop_zero]

/-- The loop, once it is past `a`. -/
theorem rewriteLoop_marked {first second z : Bytes} (hm : Marked c first) (hz : second = c :: z)
    (hinert : Inert first second) (offsetShift : Nat) {fuel : Nat} {a b : Bytes}
    (hfuel : b.length < fuel) {j : Nat} (hj : j ≤ a.length)
    (hpast : ∀ i, i < a.length → ¬first <+: (a ++ b).drop i) (matchSet : List Nat) :
    ∃ s' matchSet', rewriteLoop first second offsetShift fuel j (a ++ b) matchSet =
        .ok (s', matchSet') ∧ ¬first <:+: s' ∧
      ∀ k, Marked c k → Inert k second → ¬k <:+: a ++ b → ¬k <:+: s' := by
  induction fuel generalizing a b j matchSet with
  | zero => omega
  | succ fuel ih =>
    rw [rewriteLoop]
    cases hfind : find first (a ++ b) j with
    | none =>
      refine ⟨a ++ b, matchSet, rfl, ?_, fun k _ _ h => h⟩
      rw [infix_iff_drop]
      rintro ⟨i, hi, hpre⟩
      rcases Nat.lt_or_ge i j with hij | hij
      · exact hpast i (by omega) hpre
      · exact find_eq_none hfind i hij hi hpre
    | some i =>
      obtain ⟨hji, hi, ⟨y, hy⟩, hfirst⟩ := find_eq_some hfind
      have hai : a.length ≤ i := by
        by_contra hlt
        exact hpast i (by omega) ⟨y, hy⟩
      obtain ⟨u, hu, hlen⟩ : ∃ u, a ++ b = u ++ first ++ y ∧ u.length = i := by
        refine ⟨(a ++ b).take i, ?_, List.length_take_of_le hi⟩
        rw [List.append_assoc, hy, List.take_append_drop]
      have hreplace : replace (a ++ b) i first.length second = u ++ second ++ y := by
        rw [hu, replace, ← hlen, List.append_assoc u first y, List.take_left, ← List.drop_drop,
          List.drop_left, List.drop_left]
      have hpast' : ∀ i', i' < (u ++ second).length → ¬first <+: (u ++ second ++ y).drop i' := by
        intro i' hi'
        refine hm.not_prefix_replaced hinert hz (fun n hn hpre => ?_) hi'
        have hpre' : first <+: (a ++ b).drop n := by
          rw [hu, List.append_assoc, List.drop_append_of_le_length hn.le]
          exact hpre.trans (List.prefix_append _ _)
        rcases Nat.lt_or_ge n j with hnj | hnj
        · exact hpast n (by omega) hpre'
        · exact hfirst n hnj (by omega) hpre'
      have hshort : y.length < fuel := by
        have hlens := congrArg List.length hu
        obtain ⟨w, rfl, -⟩ := hm
        simp only [List.length_append, List.length_cons] at hlens
        omega
      obtain ⟨s', matchSet', hloop, hgone, hkeep⟩ := ih hshort
        (show i ≤ (u ++ second).length by rw [List.length_append]; omega) hpast'
        (insertNew compare (i + offsetShift) matchSet)
      refine ⟨s', matchSet', ?_, hgone, fun k hk hkinert h => hkeep k hk hkinert ?_⟩
      · rw [← hloop, ← hreplace]
      · rw [hu] at h
        exact hk.not_infix_replaced hkinert hz h

theorem rewriteStrings_marked {rewrites : List (Bytes × Bytes)}
    (hmarked : ∀ r ∈ rewrites, Marked c r.1) (hhead : ∀ r ∈ rewrites, ∃ z, r.2 = c :: z)
    (hinert : ∀ k ∈ rewrites, ∀ r ∈ rewrites, Inert k.1 r.2) (s : Bytes) (matchSet : List Nat)
    (offsetShift : Nat) :
    ∃ s' matchSet', rewriteStrings s rewrites matchSet offsetShift = .ok (s', matchSet') ∧
      (∀ r ∈ rewrites, ¬r.1 <:+: s') ∧
      ∀ k, Marked c k → (∀ r ∈ rewrites, Inert k r.2) → ¬k <:+: s → ¬k <:+: s' := by
  induction rewrites generalizing s matchSet with
  | nil => exact ⟨s, matchSet, rfl, by simp, fun _ _ _ h => h⟩
  | cons r rewrites ih =>
    obtain ⟨z, hz⟩ := hhead r (by simp)
    have hself := hinert r (by simp) r (by simp)
    obtain ⟨s₁, matchSet₁, hloop, hgone, hkeep⟩ := @rewriteLoop_marked c r.1 r.2 z
      (hmarked r (by simp)) hz hself offsetShift (s.length + 1) [] s (Nat.lt_succ_self _) 0
      (Nat.zero_le _) (by simp) matchSet
    obtain ⟨s', matchSet', hrest, hgone', hkeep'⟩ := ih (fun r hr => hmarked r (by simp [hr]))
      (fun r hr => hhead r (by simp [hr]))
      (fun k hk r hr => hinert k (by simp [hk]) r (by simp [hr])) s₁ matchSet₁
    have hrun : rewriteStrings s (r :: rewrites) matchSet offsetShift =
        rewriteStrings s₁ rewrites matchSet₁ offsetShift := by
      have hne : r.1 ≠ r.2 := Inert.ne hself (by rw [hz]; exact List.cons_ne_nil _ _)
      rw [rewriteStrings, List.foldlM_cons, if_neg hne]
      rw [List.nil_append] at hloop
      rw [hloop]
      rfl
    refine ⟨s', matchSet', hrun.trans hrest, fun q hq => ?_, fun k hk hkinert h => ?_⟩
    · rcases List.mem_cons.mp hq with rfl | hq
      · exact hkeep' _ (hmarked _ (by simp)) (fun r hr => hinert _ (by simp) r (by simp [hr])) hgone
      · exact hgone' q hq
    · refine hkeep' k hk (fun r hr => hkinert r (by simp [hr])) ?_
      exact hkeep k hk (hkinert r (by simp)) h

end Nix.Util.Rewrite
