import Mathlib.Data.List.Basic
import Mathlib.Data.Ordering.Basic

/-!
Lists that are compared element by element, where the shorter one is padded.
-/

namespace Nix.Lib.PaddedLists

variable {α κ : Type}

/-- Compare `n` elements. -/
def comparePrefix (cmp : α → α → Ordering) (pad : α) : Nat → List α → List α → Ordering
  | 0, _, _ => .eq
  | n + 1, as, bs => (cmp (as.headD pad) (bs.headD pad)).then (comparePrefix cmp pad n as.tail bs.tail)

def comparePadded (cmp : α → α → Ordering) (pad : α) (as bs : List α) : Ordering :=
  comparePrefix cmp pad (max as.length bs.length) as bs

variable {cmp : α → α → Ordering} {pad : α}

/-- Beyond the ends of both lists there is nothing more to compare. -/
theorem comparePrefix_of_le [Std.ReflCmp cmp] {n : Nat} {as bs : List α} (ha : as.length ≤ n)
    (hb : bs.length ≤ n) : comparePrefix cmp pad n as bs = comparePadded cmp pad as bs := by
  rw [comparePadded]
  induction n generalizing as bs with
  | zero =>
      rw [List.length_eq_zero_iff.mp (Nat.le_zero.mp ha), List.length_eq_zero_iff.mp (Nat.le_zero.mp hb)]
      rfl
  | succ n ih =>
      have htail := @ih as.tail bs.tail (by rw [List.length_tail]; omega)
        (by rw [List.length_tail]; omega)
      rw [List.length_tail, List.length_tail] at htail
      rw [comparePrefix, htail]
      rcases Nat.eq_zero_or_pos (max as.length bs.length) with hzero | hpos
      · have has : as = [] := List.length_eq_zero_iff.mp (by omega)
        have hbs : bs = [] := List.length_eq_zero_iff.mp (by omega)
        have hpad : cmp pad pad = .eq := Std.ReflCmp.compare_self
        rw [has, hbs, List.headD_nil, hpad]
        rfl
      · obtain ⟨m, hm⟩ : ∃ m, max as.length bs.length = m + 1 := ⟨_, (Nat.sub_add_cancel hpos).symm⟩
        have hpred : max (as.length - 1) (bs.length - 1) = m := by omega
        rw [hm, hpred, comparePrefix]

theorem comparePadded_eq_then [Std.ReflCmp cmp] (as bs : List α) :
    comparePadded cmp pad as bs =
      (cmp (as.headD pad) (bs.headD pad)).then (comparePadded cmp pad as.tail bs.tail) := by
  have ha : as.length ≤ max as.length bs.length := Nat.le_max_left _ _
  have hb : bs.length ≤ max as.length bs.length := Nat.le_max_right _ _
  have htail : comparePrefix cmp pad (max as.length bs.length) as.tail bs.tail =
      comparePadded cmp pad as.tail bs.tail :=
    comparePrefix_of_le (by rw [List.length_tail]; omega) (by rw [List.length_tail]; omega)
  rw [← comparePrefix_of_le (Nat.le_succ_of_le ha) (Nat.le_succ_of_le hb), comparePrefix, htail]

/-- Values are compared by what a function makes of them. -/
theorem transCmp_comp [Std.TransCmp cmp] (f : κ → α) :
    Std.TransCmp fun a b => cmp (f a) (f b) where
  eq_swap := Std.OrientedCmp.eq_swap
  isLE_trans := Std.TransCmp.isLE_trans

theorem transCmp_comparePrefix [Std.TransCmp cmp] (n : Nat) :
    Std.TransCmp (comparePrefix cmp pad n) := by
  induction n with
  | zero => exact { eq_swap := rfl, isLE_trans := fun _ _ => rfl }
  | succ n ih =>
      have hhead : Std.TransCmp fun as bs : List α => cmp (as.headD pad) (bs.headD pad) :=
        transCmp_comp fun as : List α => as.headD pad
      have htail : Std.TransCmp fun as bs : List α => comparePrefix cmp pad n as.tail bs.tail :=
        transCmp_comp List.tail
      exact inferInstanceAs (Std.TransCmp (compareLex _ _))

instance [Std.TransCmp cmp] : Std.TransCmp (comparePadded cmp pad) where
  eq_swap := by
    intro as bs
    have h : Std.TransCmp (comparePrefix cmp pad (max as.length bs.length)) :=
      transCmp_comparePrefix _
    rw [comparePadded, h.eq_swap, comparePadded, Nat.max_comm]
  isLE_trans := by
    intro as bs cs hab hbc
    have ha : as.length ≤ as.length + bs.length + cs.length := by omega
    have hb : bs.length ≤ as.length + bs.length + cs.length := by omega
    have hc : cs.length ≤ as.length + bs.length + cs.length := by omega
    rw [← comparePrefix_of_le ha hb] at hab
    rw [← comparePrefix_of_le hb hc] at hbc
    rw [← comparePrefix_of_le ha hc]
    exact (transCmp_comparePrefix _).isLE_trans hab hbc

end Nix.Lib.PaddedLists
