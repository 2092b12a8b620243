import Mathlib.Data.List.Basic
import Mathlib.Data.List.Infix
import Mathlib.Tactic.Common

/-!
Replacing the occurrences of a word from left to right, with the positions of
the replaced occurrences.
-/

namespace Nix.Lib.Rewriting

variable {α : Type} [DecidableEq α] (m z : List α)

/-- Replace every occurrence of `m` by `z`, from the left and without overlap.
The first element of `s` has position `off`. -/
def scan (off : Nat) (s : List α) : List α × List Nat :=
  if m ≠ [] ∧ m <+: s then
    let r := scan (off + m.length) (s.drop m.length)
    (z ++ r.1, off :: r.2)
  else
    match s with
    | [] => ([], [])
    | c :: s =>
        let r := scan (off + 1) s
        (c :: r.1, r.2)
termination_by s.length
decreasing_by
  · rename_i h
    have hm := List.length_pos_of_ne_nil h.1
    have hle := h.2.length_le
    rw [List.length_drop]
    omega
  · simp

variable {m z}

theorem scan_nil (off : Nat) : scan m z off [] = ([], []) := by
  rw [scan.eq_def, if_neg]
  rintro ⟨hm, hpre⟩
  exact hm (List.prefix_nil.mp hpre)

theorem scan_append_match (hm : m ≠ []) (off : Nat) (t : List α) :
    scan m z off (m ++ t) =
      (z ++ (scan m z (off + m.length) t).1, off :: (scan m z (off + m.length) t).2) := by
  rw [scan.eq_def, if_pos ⟨hm, List.prefix_append m t⟩, List.drop_left]

theorem scan_cons {c : α} {s : List α} (h : m ≠ [] → ¬m <+: c :: s) (off : Nat) :
    scan m z off (c :: s) = (c :: (scan m z (off + 1) s).1, (scan m z (off + 1) s).2) := by
  rw [scan.eq_def, if_neg fun h' => h h'.1 h'.2]

/-- Induction along the scan: an occurrence at the front, or an element without
one. -/
theorem scan_induction {motive : List α → Prop} (nil : motive [])
    (found : m ≠ [] → ∀ t, motive t → motive (m ++ t))
    (other : ∀ c s, (m ≠ [] → ¬m <+: c :: s) → motive s → motive (c :: s)) (s : List α) :
    motive s := by
  induction hn : s.length using Nat.strongRecOn generalizing s with
  | ind n ih =>
      by_cases h : m ≠ [] ∧ m <+: s
      · obtain ⟨hm, t, rfl⟩ := h
        have hpos := List.length_pos_of_ne_nil hm
        rw [List.length_append] at hn
        exact found hm t (ih t.length (by omega) t rfl)
      · cases s with
        | nil => exact nil
        | cons c s =>
            rw [List.length_cons] at hn
            exact other c s (fun hm hpre => h ⟨hm, hpre⟩) (ih s.length (by omega) s rfl)

theorem scan_length (hz : z.length = m.length) (off : Nat) (s : List α) :
    (scan m z off s).1.length = s.length := by
  induction s using scan_induction (m := m) generalizing off with
  | nil => rw [scan_nil]
  | found hm t ih => rw [scan_append_match hm, List.length_append, ih, hz, List.length_append]
  | other c s h ih => rw [scan_cons h, List.length_cons, ih, List.length_cons]

theorem scan_of_length_lt {s : List α} (h : s.length < m.length) (off : Nat) :
    scan m z off s = (s, []) := by
  induction s generalizing off with
  | nil => exact scan_nil off
  | cons c s ih =>
      have hpre : m ≠ [] → ¬m <+: c :: s := fun _ hpre => by
        have hle := hpre.length_le
        omega
      rw [scan_cons hpre, ih (by simp only [List.length_cons] at h; omega)]

theorem scan_nil_pattern (off : Nat) (s : List α) : scan [] z off s = (s, []) := by
  induction s generalizing off with
  | nil => exact scan_nil off
  | cons c s ih => rw [scan_cons (fun h => absurd rfl h), ih]

/-- Elements at which no occurrence starts stay. -/
theorem scan_append_of_no_match {u t : List α}
    (h : ∀ i < u.length, m ≠ [] → ¬m <+: (u ++ t).drop i) (off : Nat) :
    scan m z off (u ++ t) =
      (u ++ (scan m z (off + u.length) t).1, (scan m z (off + u.length) t).2) := by
  induction u generalizing off with
  | nil => simp
  | cons c u ih =>
      have htail : ∀ i < u.length, m ≠ [] → ¬m <+: (u ++ t).drop i := fun i hi =>
        h (i + 1) (by rw [List.length_cons]; omega)
      have hhead : m ≠ [] → ¬m <+: c :: (u ++ t) := h 0 (by simp)
      rw [List.cons_append, scan_cons hhead, ih htail, List.length_cons, Nat.add_assoc,
        Nat.add_comm 1]
      rfl

/-- No element of the replacement can start an occurrence. -/
def Fresh (m z : List α) : Prop :=
  ∀ c ∈ z, m.head? ≠ some c

omit [DecidableEq α] in
theorem Fresh.not_prefix (h : Fresh m z) {u t : List α} (hu : ∀ c ∈ u, c ∈ z) {i : Nat}
    (hi : i < u.length) (hm : m ≠ []) : ¬m <+: (u ++ t).drop i := by
  rw [List.drop_append_of_le_length hi.le, List.drop_eq_getElem_cons hi, List.cons_append]
  rintro ⟨r, hr⟩
  obtain ⟨a, m', rfl⟩ := List.exists_cons_of_ne_nil hm
  obtain ⟨rfl, -⟩ := List.cons.inj hr
  exact h _ (hu _ (List.getElem_mem hi)) rfl

theorem scan_append_fresh (h : Fresh m z) {u : List α} (hu : ∀ c ∈ u, c ∈ z) (t : List α)
    (off : Nat) :
    scan m z off (u ++ t) =
      (u ++ (scan m z (off + u.length) t).1, (scan m z (off + u.length) t).2) :=
  scan_append_of_no_match (fun _ hi hm => h.not_prefix hu hi hm) off

/-- How much of a scanned text may still be part of a later occurrence. -/
def keep (m s : List α) : Nat :=
  min s.length (m.length - 1)

/-- Scanning in two steps: of the text scanned first only the last elements have
to be scanned again. -/
theorem scan_append (hz : z.length = m.length) (hf : Fresh m z) (off : Nat) (s d : List α) :
    let r := scan m z off s
    let p := s.length - keep m s
    scan m z off (s ++ d) =
      (r.1.take p ++ (scan m z (off + p) (r.1.drop p ++ d)).1,
        r.2 ++ (scan m z (off + p) (r.1.drop p ++ d)).2) := by
  induction s using scan_induction (m := m) generalizing off with
  | nil => simp [scan_nil, keep]
  | found hm t ih =>
      have hpos := List.length_pos_of_ne_nil hm
      have hlen := scan_length hz (off + m.length) t
      rw [List.append_assoc, scan_append_match hm, scan_append_match hm, ih]
      simp only [keep, List.length_append]
      rcases Nat.lt_or_ge t.length (m.length - 1) with hlt | hge
      · have hp : t.length - min t.length (m.length - 1) = 0 := by omega
        have hp' : m.length + t.length - min (m.length + t.length) (m.length - 1) =
            t.length + 1 := by omega
        rw [hp, hp', List.take_append_of_le_length (by omega),
          List.drop_append_of_le_length (by omega), List.append_assoc,
          scan_append_fresh hf (fun c hc => List.mem_of_mem_drop hc)]
        have hoff : off + (t.length + 1) + (z.drop (t.length + 1)).length =
            off + m.length + 0 := by
          rw [List.length_drop]
          omega
        rw [hoff]
        simp only [List.take_zero, List.drop_zero, List.nil_append, List.cons_append]
        rw [← List.append_assoc (z.take _), List.take_append_drop]
      · have hp : m.length + t.length - min (m.length + t.length) (m.length - 1) =
            z.length + (t.length - min t.length (m.length - 1)) := by omega
        rw [hp, List.take_length_add_append, List.drop_length_add_append, hz, Nat.add_assoc]
        simp
  | other c s h ih =>
      rcases Nat.lt_or_ge (c :: s).length m.length with hlt | hge
      · have hp : (c :: s).length - keep m (c :: s) = 0 := by
          unfold keep
          omega
        rw [scan_of_length_lt hlt, hp]
        simp
      · have hp : (c :: s).length - keep m (c :: s) = (s.length - keep m s) + 1 := by
          simp only [keep, List.length_cons] at hge ⊢
          omega
        have hpre : m ≠ [] → ¬m <+: c :: (s ++ d) := by
          intro hm hpre
          refine h hm ?_
          rw [← List.cons_append] at hpre
          exact List.prefix_of_prefix_length_le hpre (List.prefix_append _ _) hge
        simp only [List.cons_append]
        rw [scan_cons hpre, scan_cons h, ih, hp]
        simp [Nat.add_assoc, Nat.add_comm 1]

/-! ### Positions -/

theorem scan_positions_bounds {off p : Nat} {s : List α} (h : p ∈ (scan m z off s).2) :
    off ≤ p ∧ p + m.length ≤ off + s.length := by
  induction s using scan_induction (m := m) generalizing off with
  | nil => simp [scan_nil] at h
  | found hm t ih =>
      rw [scan_append_match hm] at h
      rw [List.length_append]
      rcases List.mem_cons.mp h with rfl | h
      · omega
      · have hb := ih h
        omega
  | other c s hs ih =>
      rw [scan_cons hs] at h
      have hb := ih h
      rw [List.length_cons]
      omega

theorem scan_positions_sorted (off : Nat) (s : List α) :
    (scan m z off s).2.Pairwise (· < ·) := by
  induction s using scan_induction (m := m) generalizing off with
  | nil => simp [scan_nil]
  | found hm t ih =>
      rw [scan_append_match hm]
      refine List.pairwise_cons.mpr ⟨fun p hp => ?_, ih _⟩
      have hb := scan_positions_bounds hp
      have hpos := List.length_pos_of_ne_nil hm
      omega
  | other c s hs ih =>
      rw [scan_cons hs]
      exact ih _

theorem length_scan_positions_le (off : Nat) (s : List α) :
    (scan m z off s).2.length ≤ s.length := by
  induction s using scan_induction (m := m) generalizing off with
  | nil => simp [scan_nil]
  | found hm t ih =>
      have hpos := List.length_pos_of_ne_nil hm
      have hle := ih (off + m.length)
      rw [scan_append_match hm, List.length_cons, List.length_append]
      omega
  | other c s hs ih =>
      have hle := ih (off + 1)
      simp only [scan_cons hs, List.length_cons]
      omega

/-- The rewritten text and the positions determine the text. -/
theorem scan_injective (hz : z.length = m.length) {off : Nat} {s t : List α}
    (h : scan m z off s = scan m z off t) : s = t := by
  have hlen : s.length = t.length := by
    rw [← scan_length hz off s, h, scan_length hz]
  induction s using scan_induction (m := m) generalizing off t with
  | nil => exact (List.length_eq_zero_iff.mp hlen.symm).symm
  | found hm s ih =>
      rw [scan_append_match hm] at h
      have hpre : m <+: t := by
        by_contra hpre
        cases t with
        | nil => simp [scan_nil] at h
        | cons c t =>
            rw [scan_cons fun _ => hpre] at h
            have hmem : off ∈ (scan m z (off + 1) t).2 := by
              rw [← (Prod.ext_iff.mp h).2]
              simp
            have hb := scan_positions_bounds hmem
            omega
      obtain ⟨t, rfl⟩ := hpre
      rw [scan_append_match hm] at h
      obtain ⟨htext, hpos⟩ := Prod.ext_iff.mp h
      rw [ih (Prod.ext (List.append_cancel_left htext) (List.cons.inj hpos).2)
        (by simpa using hlen)]
  | other c s hs ih =>
      cases t with
      | nil => simp at hlen
      | cons c' t =>
          rw [scan_cons hs] at h
          have hpre : m ≠ [] → ¬m <+: c' :: t := by
            rintro hm ⟨r, hr⟩
            rw [← hr, scan_append_match hm] at h
            have hmem : off ∈ (scan m z (off + 1) s).2 := by
              rw [(Prod.ext_iff.mp h).2]
              simp
            have hb := scan_positions_bounds hmem
            omega
          rw [scan_cons hpre] at h
          obtain ⟨htext, hpos⟩ := Prod.ext_iff.mp h
          obtain ⟨rfl, htail⟩ := List.cons.inj htext
          rw [ih (Prod.ext htail hpos) (by simpa using hlen)]

/-- A text that ends with the element the replacement is made of keeps it. -/
theorem getLast?_scan {c : α} (hz : ∀ b ∈ z, b = c) (hne : m ≠ [] → z ≠ []) {off : Nat}
    {s : List α} (h : s.getLast? = some c) : (scan m z off s).1.getLast? = some c := by
  induction s using scan_induction (m := m) generalizing off with
  | nil => simp at h
  | found hm t ih =>
      rw [scan_append_match hm]
      rcases eq_or_ne t [] with rfl | ht
      · rw [scan_nil, List.append_nil, List.getLast?_eq_some_getLast (hne hm),
          hz _ (List.getLast_mem (hne hm))]
      · rw [List.getLast?_append_of_ne_nil m ht] at h
        rw [List.getLast?_append, ih h]
        rfl
  | other b s hs ih =>
      rw [scan_cons hs]
      rcases eq_or_ne s [] with rfl | hne'
      · rw [scan_nil]
        exact h
      · rw [List.getLast?_cons_of_ne_nil hne'] at h
        rw [List.getLast?_cons, ih h]
        rfl

/-- The offset only shifts the positions. -/
theorem scan_add (k off : Nat) (s : List α) :
    scan m z (off + k) s = ((scan m z off s).1, (scan m z off s).2.map (· + k)) := by
  induction s using scan_induction (m := m) generalizing off with
  | nil => simp [scan_nil]
  | found hm t ih =>
      have hoff : off + k + m.length = off + m.length + k := by omega
      rw [scan_append_match hm, scan_append_match hm, hoff, ih]
      rfl
  | other c s hs ih =>
      have hoff : off + k + 1 = off + 1 + k := by omega
      rw [scan_cons hs, scan_cons hs, hoff, ih]

/-- The positions do not depend on the replacement. -/
theorem scan_positions_eq (z' : List α) (off : Nat) (s : List α) :
    (scan m z off s).2 = (scan m z' off s).2 := by
  induction s using scan_induction (m := m) generalizing off with
  | nil => rw [scan_nil, scan_nil]
  | found hm t ih => rw [scan_append_match hm, scan_append_match hm, ih]
  | other c s hs ih => rw [scan_cons hs, scan_cons hs, ih]

theorem prefix_drop_of_mem_positions {off p : Nat} {s : List α} (h : p ∈ (scan m z off s).2) :
    ∃ q, p = off + q ∧ m <+: s.drop q := by
  induction s using scan_induction (m := m) generalizing off with
  | nil => simp [scan_nil] at h
  | found hm t ih =>
      rw [scan_append_match hm] at h
      rcases List.mem_cons.mp h with rfl | h
      · exact ⟨0, rfl, List.prefix_append m t⟩
      · obtain ⟨q, rfl, hq⟩ := ih h
        exact ⟨m.length + q, by omega, by rwa [List.drop_length_add_append]⟩
  | other c s hs ih =>
      rw [scan_cons hs] at h
      obtain ⟨q, rfl, hq⟩ := ih h
      exact ⟨q + 1, by omega, by rwa [List.drop_succ_cons]⟩

/-! ### Renaming the pattern -/

/-- No proper part at the front of the word is also at its end. -/
def Unbordered (n : List α) : Prop :=
  ∀ l, 0 < l → l < n.length → n.drop l ≠ n.take (n.length - l)

omit [DecidableEq α] in
/-- Two occurrences of an unbordered word do not overlap. -/
theorem Unbordered.not_prefix {n s : List α} (h : Unbordered n) {l : Nat} (hpos : 0 < l)
    (hlt : l < n.length) (hs : n.take (n.length - l) <+: s.drop l) : ¬n <+: s := by
  rintro ⟨r, rfl⟩
  rw [List.drop_append_of_le_length hlt.le] at hs
  have hpre : n.take (n.length - l) <+: n.drop l :=
    List.prefix_of_prefix_length_le hs (List.prefix_append _ _) (by simp)
  exact h l hpos hlt (hpre.eq_of_length (by simp)).symm

/-- A part of the rewritten text is as before, or a replacement starts in it. -/
theorem take_scan_or_replaced (k off : Nat) (s : List α) :
    (scan m z off s).1.take k = s.take k ∨ ∃ l < k, z <+: (scan m z off s).1.drop l := by
  induction s using scan_induction (m := m) generalizing k off with
  | nil => exact .inl (by rw [scan_nil])
  | found hm t ih =>
      rcases Nat.eq_zero_or_pos k with rfl | hk
      · exact .inl rfl
      · refine .inr ⟨0, hk, ?_⟩
        rw [scan_append_match hm]
        exact List.prefix_append z _
  | other c s hs ih =>
      rw [scan_cons hs]
      cases k with
      | zero => exact .inl rfl
      | succ k =>
          rcases ih k (off + 1) with heq | ⟨l, hl, hpre⟩
          · exact .inl (by rw [List.take_succ_cons, List.take_succ_cons, heq])
          · exact .inr ⟨l + 1, by omega, by rwa [List.drop_succ_cons]⟩

/-- The occurrences of the replacement are where the pattern was replaced, if the
text has no other ones. -/
theorem scan_scan {n : List α} (hn : n.length = m.length) (hb : Unbordered n) (off : Nat)
    {s : List α} (hs : ¬n <:+: s) : scan n z off (scan m n off s).1 = scan m z off s := by
  induction s using scan_induction (m := m) generalizing off with
  | nil => rw [scan_nil, scan_nil, scan_nil]
  | found hm t ih =>
      have hne : n ≠ [] := by
        rintro rfl
        exact hm (List.length_eq_zero_iff.mp hn.symm)
      have ht : ¬n <:+: t := fun h => hs (h.trans (List.suffix_append m t).isInfix)
      rw [scan_append_match hm, scan_append_match hm, scan_append_match hne, hn, ih _ ht]
  | other c s hno ih =>
      have ht : ¬n <:+: s := fun h => hs (h.trans (List.suffix_cons c s).isInfix)
      rw [scan_cons hno, scan_cons hno, scan_cons, ih _ ht]
      rintro hne hpre
      obtain ⟨k, hk⟩ : ∃ k, n.length = k + 1 :=
        ⟨n.length - 1, by have := List.length_pos_of_ne_nil hne; omega⟩
      rcases take_scan_or_replaced k (off + 1) s with heq | ⟨l, hl, hrepl⟩
      · refine hs (List.IsPrefix.isInfix ?_)
        have hwindow : n = (c :: s).take n.length := by
          rw [hk, List.take_succ_cons, ← heq, ← List.take_succ_cons, ← hk]
          exact List.prefix_iff_eq_take.mp hpre
        rw [hwindow]
        exact List.take_prefix _ _
      · refine hb.not_prefix (Nat.succ_pos l) (by omega) ?_ hpre
        rw [List.drop_succ_cons]
        exact (List.take_prefix _ _).trans hrepl

/-- Replacing an occurrence makes no new one that starts in the replacement. -/
def Undisturbed (m z s : List α) : Prop :=
  ∀ p t, s = p ++ (m ++ t) → p.length ∈ (scan m z 0 s).2 →
    ∀ i, 0 < i → i < z.length → ¬m <+: (z ++ t).drop i

theorem undisturbed_append_match (hm : m ≠ []) (t : List α) :
    Undisturbed m z (m ++ t) ↔
      (∀ i, 0 < i → i < z.length → ¬m <+: (z ++ t).drop i) ∧ Undisturbed m z t := by
  have hpos : (scan m z 0 (m ++ t)).2 = 0 :: (scan m z 0 t).2.map (· + m.length) := by
    rw [scan_append_match hm, scan_add]
  constructor
  · intro h
    refine ⟨h [] t rfl (by rw [hpos]; exact List.mem_cons_self), fun p t' ht hp => ?_⟩
    refine h (m ++ p) t' (by rw [ht, List.append_assoc]) ?_
    rw [hpos]
    refine List.mem_cons_of_mem _ (List.mem_map.mpr ⟨p.length, hp, ?_⟩)
    rw [List.length_append, Nat.add_comm]
  · rintro ⟨hhead, htail⟩ p t' ht hp
    rw [hpos] at hp
    rcases List.mem_cons.mp hp with hzero | hp
    · obtain rfl := List.length_eq_zero_iff.mp hzero
      rw [← List.append_cancel_left (show m ++ t = m ++ t' from ht)]
      exact hhead
    · obtain ⟨q, hq, hqp⟩ := List.mem_map.mp hp
      have hpre : m <+: p := List.prefix_of_prefix_length_le ⟨t, ht⟩
        (List.prefix_append p (m ++ t')) (by omega)
      obtain ⟨p, rfl⟩ := hpre
      rw [List.append_assoc] at ht
      refine htail p t' (List.append_cancel_left ht) ?_
      rw [List.length_append] at hqp
      obtain rfl : q = p.length := by omega
      exact hq

theorem undisturbed_cons {c : α} {s : List α} (h : m ≠ [] → ¬m <+: c :: s) :
    Undisturbed m z (c :: s) ↔ Undisturbed m z s := by
  have hpos : (scan m z 0 (c :: s)).2 = (scan m z 0 s).2.map (· + 1) := by
    rw [scan_cons h, scan_add]
  constructor
  · intro hs p t ht hp
    refine hs (c :: p) t (by rw [ht, List.cons_append]) ?_
    rw [hpos]
    exact List.mem_map.mpr ⟨p.length, hp, rfl⟩
  · intro hs p t ht hp
    rw [hpos] at hp
    obtain ⟨q, hq, hqp⟩ := List.mem_map.mp hp
    cases p with
    | nil => simp at hqp
    | cons d p =>
        refine hs p t (List.cons.inj ht).2 ?_
        obtain rfl : q = p.length := by simpa using hqp
        exact hq

end Nix.Lib.Rewriting
