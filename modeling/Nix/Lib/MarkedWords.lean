import Mathlib.Data.List.Basic
import Mathlib.Data.List.Infix
import Mathlib.Tactic.Common

/-!
Words with a letter that is nowhere else in them: where such words can occur in a text that
is put together from parts.
-/

namespace Nix.Lib.MarkedWords

variable {α : Type} {c : α} {m z : List α}

/-- The letter `c` is at the front of the word and nowhere else in it. -/
def Marked (c : α) (m : List α) : Prop :=
  ∃ w, m = c :: w ∧ c ∉ w

/-- No occurrence of `m` starts in `z`, whatever follows. -/
def Inert (m z : List α) : Prop :=
  ∀ y i, i < z.length → ¬m <+: (z ++ y).drop i

theorem infix_iff_drop {s : List α} : m <:+: s ↔ ∃ i, i ≤ s.length ∧ m <+: s.drop i := by
  constructor
  · rintro ⟨x, y, rfl⟩
    refine ⟨x.length, by simp only [List.length_append]; omega, ?_⟩
    rw [List.append_assoc, List.drop_left]
    exact List.prefix_append _ _
  · rintro ⟨i, -, hpre⟩
    exact hpre.isInfix.trans (List.drop_suffix i s).isInfix

/-- A marked word that starts before the mark ends before it. -/
theorem Marked.le_of_prefix (hm : Marked c m) {x y : List α} {i : Nat} (hi : i < x.length)
    (h : m <+: (x ++ c :: y).drop i) : i + m.length ≤ x.length := by
  obtain ⟨w, rfl, hw⟩ := hm
  rw [List.drop_append_of_le_length hi.le] at h
  rcases List.prefix_or_prefix_of_prefix h (List.prefix_append (x.drop i) (c :: y)) with hle | hle
  · have hlen := hle.length_le
    rw [List.length_drop] at hlen
    omega
  · obtain ⟨t, ht⟩ := hle
    rw [← ht] at h ⊢
    have htail := (List.prefix_append_right_inj _).mp h
    cases t with
    | nil =>
      rw [List.append_nil, List.length_drop]
      omega
    | cons d t =>
      obtain rfl := (List.cons_prefix_cons.mp htail).1
      obtain ⟨e, u, hu⟩ : ∃ e u, x.drop i = e :: u := by
        cases hdrop : x.drop i with
        | nil =>
          have hzero := congrArg List.length hdrop
          simp only [List.length_drop, List.length_nil] at hzero
          omega
        | cons e u => exact ⟨e, u, rfl⟩
      rw [hu, List.cons_append] at ht
      obtain ⟨-, rfl⟩ := List.cons.inj ht
      exact absurd (by simp) hw

theorem prefix_drop_left {x y : List α} {i : Nat} (hle : i + m.length ≤ x.length)
    (h : m <+: (x ++ y).drop i) : m <+: x.drop i := by
  rw [List.drop_append_of_le_length (by omega)] at h
  refine List.prefix_of_prefix_length_le h (List.prefix_append _ _) ?_
  rw [List.length_drop]
  omega

/-- Where an occurrence is after a part of the text was replaced. -/
theorem Marked.not_prefix_replaced (hm : Marked c m) (hinert : Inert m z) {x y z' : List α}
    (hz : z = c :: z') (hx : ∀ i, i < x.length → ¬m <+: x.drop i) {i : Nat}
    (hi : i < (x ++ z).length) : ¬m <+: (x ++ z ++ y).drop i := by
  intro h
  rw [List.append_assoc] at h
  rcases Nat.lt_or_ge i x.length with hix | hix
  · have hle : i + m.length ≤ x.length := by
      rw [hz] at h
      exact hm.le_of_prefix hix h
    exact hx i hix (prefix_drop_left hle h)
  · rw [List.drop_append, List.drop_of_length_le hix, List.nil_append] at h
    refine hinert y (i - x.length) ?_ h
    rw [List.length_append] at hi
    omega

/-- A word that is neither in the text nor starts in `z` is not in the text with `z` in the
place of a part. -/
theorem Marked.not_infix_replaced (hm : Marked c m) (hinert : Inert m z) {z' : List α}
    (hz : z = c :: z') {x k y : List α} (h : ¬m <:+: x ++ k ++ y) : ¬m <:+: x ++ z ++ y := by
  rw [infix_iff_drop]
  rintro ⟨i, hi, hpre⟩
  rcases Nat.lt_or_ge i (x ++ z).length with hlt | hge
  · refine hm.not_prefix_replaced hinert hz (fun j hj hx => h ?_) hlt hpre
    exact (infix_iff_drop.mpr ⟨j, hj.le, hx⟩).trans
      ((List.prefix_append x (k ++ y)).isInfix.trans (by rw [List.append_assoc]))
  · rw [List.drop_append, List.drop_of_length_le hge, List.nil_append] at hpre
    refine h (infix_iff_drop.mpr ⟨(x ++ k).length + (i - (x ++ z).length), ?_, ?_⟩)
    · simp only [List.length_append] at hi hge ⊢
      omega
    · rw [List.drop_append, List.drop_of_length_le (Nat.le_add_right _ _), List.nil_append,
        Nat.add_sub_cancel_left]
      exact hpre

/-- A word does not start in a text that it is not in, if the text ends with a part that has
the mark only in front and a letter that the word does not have. -/
theorem Marked.inert (hm : Marked c m) {u t : List α} {d : α} (ht : c ∉ t) (hd : d ∈ t)
    (hdm : d ∉ m) (h : ¬m <:+: u ++ c :: t) : Inert m (u ++ c :: t) := by
  intro y i hi hpre
  rcases Nat.lt_or_ge (u ++ c :: t).length (i + m.length) with hlong | hshort
  · have hmark : i ≤ u.length := by
      by_contra hlt
      obtain ⟨w, rfl, -⟩ := hm
      obtain ⟨r, hr⟩ := hpre
      have hget : ((u ++ c :: t ++ y).drop i).head? = some c := by
        rw [← hr]
        rfl
      rw [List.head?_drop, List.append_assoc, List.getElem?_append_right (by omega)] at hget
      obtain ⟨n, hn⟩ : ∃ n, i - u.length = n + 1 := ⟨i - u.length - 1, by omega⟩
      simp only [List.length_append, List.length_cons] at hi
      rw [hn, List.cons_append, List.getElem?_cons_succ,
        List.getElem?_append_left (by omega)] at hget
      exact ht (List.mem_of_getElem? hget)
    -- The word goes past the end of the last part, and has its letters.
    rw [List.drop_append_of_le_length hi.le] at hpre
    have hpart : (u ++ c :: t).drop i <+: m := by
      refine List.prefix_of_prefix_length_le (List.prefix_append _ y) hpre ?_
      rw [List.length_drop]
      omega
    refine hdm (hpart.subset ?_)
    rw [List.drop_append_of_le_length hmark]
    exact List.mem_append_right _ (List.mem_cons_of_mem _ hd)
  · exact h (infix_iff_drop.mpr ⟨i, hi.le, prefix_drop_left hshort hpre⟩)

/-- A word does not start in a part that it is too long for, up to a letter that the word does
not have. -/
theorem Marked.not_infix_mark (hm : Marked c m) {u t t' : List α} {d : α} (ht : c ∉ t ++ d :: t')
    (hd : d ∉ m) (hlen : t.length + 1 < m.length) (h : ¬m <:+: u) :
    ¬m <:+: u ++ c :: (t ++ d :: t') := by
  rw [infix_iff_drop]
  rintro ⟨i, hi, hpre⟩
  obtain ⟨w, rfl, hw⟩ := id hm
  rcases Nat.lt_or_ge i u.length with hlt | hge
  · have hshort := prefix_drop_left (hm.le_of_prefix hlt hpre) hpre
    exact h (infix_iff_drop.mpr ⟨i, hlt.le, hshort⟩)
  · rw [List.drop_append, List.drop_of_length_le hge, List.nil_append] at hpre
    cases hn : i - u.length with
    | zero =>
      rw [hn, List.drop_zero] at hpre
      have htail := (List.cons_prefix_cons.mp hpre).2
      have hpart : t ++ [d] <+: w := by
        refine List.prefix_of_prefix_length_le ?_ htail ?_
        · exact ⟨t', by rw [List.append_assoc, List.singleton_append]⟩
        · rw [List.length_append, List.length_singleton]
          rw [List.length_cons] at hlen
          omega
      exact hd (List.mem_cons_of_mem c (hpart.subset (by simp)))
    | succ n =>
      rw [hn, List.drop_succ_cons] at hpre
      exact ht (List.mem_of_mem_drop (hpre.subset List.mem_cons_self))

end Nix.Lib.MarkedWords
