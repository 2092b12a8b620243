import Mathlib.Data.List.Find
import Nix.Lib.MarkedWords
import Nix.Lib.Rewriting

/-!
Rewriting several words, one after the other over the whole text, and letter by letter while
the text arrives. The two agree where no replacement takes part in an occurrence of a word and
no word ends within a word that is replaced before it.
-/

namespace Nix.Lib.OnlineRewriting

open Lib.Rewriting Lib.MarkedWords

variable {α : Type}

/-! ### Words that meet -/

/-- An occurrence of `m` and one of `z` can share a position of a text. -/
def Overlaps (m z : List α) : Prop :=
  (∃ i < m.length, m.drop i <+: z ∨ z <+: m.drop i) ∨
    ∃ i < z.length, m <+: z.drop i ∨ z.drop i <+: m

/-- An occurrence of `m` can end within one of `w`, before the end of `w`. -/
def EndsWithin (m w : List α) : Prop :=
  (∃ i < m.length, m.length < i + w.length ∧ m.drop i <+: w) ∨
    ∃ i < w.length, i + m.length < w.length ∧ m <+: w.drop i

instance [DecidableEq α] (m z : List α) : Decidable (Overlaps m z) :=
  inferInstanceAs (Decidable (_ ∨ _))

instance [DecidableEq α] (m w : List α) : Decidable (EndsWithin m w) :=
  inferInstanceAs (Decidable (_ ∨ _))

theorem drop_prefix_drop {m s : List α} {i n : Nat} (hm : m <+: s.drop i) (hin : i ≤ n) :
    m.drop (n - i) <+: s.drop n := by
  have h := hm.drop (n - i)
  rwa [List.drop_drop, Nat.add_sub_cancel' hin] at h

theorem overlaps_of_drop {m z s : List α} {i n : Nat} (hm : m <+: s.drop i)
    (hz : z <+: s.drop n) (hi : i < n + z.length) (hn : n < i + m.length) : Overlaps m z := by
  rcases Nat.le_total i n with hin | hni
  · exact Or.inl ⟨n - i, by omega, List.prefix_or_prefix_of_prefix (drop_prefix_drop hm hin) hz⟩
  · exact Or.inr ⟨i - n, by omega, List.prefix_or_prefix_of_prefix hm (drop_prefix_drop hz hni)⟩

theorem endsWithin_of_drop {m w s : List α} {i n : Nat} (hm : m <+: s.drop i)
    (hw : w <+: s.drop n) (hn : n < i + m.length) (hlt : i + m.length < n + w.length) :
    EndsWithin m w := by
  rcases Nat.le_total i n with hin | hni
  · refine Or.inl ⟨n - i, by omega, by omega, ?_⟩
    refine List.prefix_of_prefix_length_le (drop_prefix_drop hm hin) hw ?_
    rw [List.length_drop]
    omega
  · refine Or.inr ⟨i - n, by omega, by omega, ?_⟩
    refine List.prefix_of_prefix_length_le hm (drop_prefix_drop hw hni) ?_
    rw [List.length_drop]
    omega

theorem inert_of_not_overlaps {m z : List α} (hm : m ≠ []) (h : ¬Overlaps m z) : Inert m z := by
  intro y i hi hpre
  have hpos := List.length_pos_of_ne_nil hm
  have hz : z <+: (z ++ y).drop 0 := List.prefix_append z y
  exact h (overlaps_of_drop hpre hz (by omega) (by omega))

/-- An occurrence that is over before the end of `x`. -/
theorem infix_of_prefix_drop {m x y : List α} {i : Nat} (h : m <+: (x ++ y).drop i)
    (hle : i + m.length ≤ x.length) : m <:+: x := by
  rw [List.drop_append_of_le_length (by omega)] at h
  have hpre : m <+: x.drop i :=
    List.prefix_of_prefix_length_le h (List.prefix_append _ _) (by rw [List.length_drop]; omega)
  exact hpre.isInfix.trans (List.drop_suffix i x).isInfix

/-! ### One word after the other -/

variable [DecidableEq α]

/-- The text of a scan. -/
def rewrite (r : List α × List α) (s : List α) : List α :=
  (scan r.1 r.2 0 s).1

theorem scan_fst (m z : List α) (off : Nat) (s : List α) :
    (scan m z off s).1 = rewrite (m, z) s := by
  have h := scan_add (m := m) (z := z) off 0 s
  rw [Nat.zero_add] at h
  rw [h, rewrite]

theorem rewrite_append_of_no_match {r : List α × List α} {u t : List α}
    (h : ∀ i < u.length, ¬r.1 <+: (u ++ t).drop i) : rewrite r (u ++ t) = u ++ rewrite r t := by
  rw [rewrite, scan_append_of_no_match fun i hi _ => h i hi]
  exact congrArg (u ++ ·) (scan_fst _ _ _ _)

theorem rewrite_append_match {m z : List α} (hm : m ≠ []) (t : List α) :
    rewrite (m, z) (m ++ t) = z ++ rewrite (m, z) t := by
  rw [rewrite, scan_append_match hm]
  exact congrArg (z ++ ·) (scan_fst _ _ _ _)

/-- All occurrences of the first word, then all those of the second, and so on. -/
def rewriteAll (rs : List (List α × List α)) (s : List α) : List α :=
  rs.foldl (fun s r => rewrite r s) s

theorem rewriteAll_cons (r : List α × List α) (rs : List (List α × List α)) (s : List α) :
    rewriteAll (r :: rs) s = rewriteAll rs (rewrite r s) := rfl

theorem rewriteAll_append (rs rs' : List (List α × List α)) (s : List α) :
    rewriteAll (rs ++ rs') s = rewriteAll rs' (rewriteAll rs s) :=
  List.foldl_append

theorem rewriteAll_keeps {rs : List (List α × List α)} {u : List α}
    (h : ∀ r ∈ rs, ∀ t, rewrite r (u ++ t) = u ++ rewrite r t) (t : List α) :
    rewriteAll rs (u ++ t) = u ++ rewriteAll rs t := by
  induction rs generalizing t with
  | nil => rfl
  | cons r rs ih =>
    rw [rewriteAll_cons, rewriteAll_cons, h r List.mem_cons_self,
      ih fun r' hr' => h r' (List.mem_cons_of_mem _ hr')]

/-! ### While the text arrives -/

/-- Replace the first of the words that ends at the new letter. -/
def step (rs : List (List α × List α)) (w : List α) (c : α) : List α :=
  match rs.find? fun r => r.1.isSuffixOf (w ++ [c]) with
  | none => w ++ [c]
  | some r => (w ++ [c]).take ((w ++ [c]).length - r.1.length) ++ r.2

/-- No word occurs in the text. -/
def Clean (rs : List (List α × List α)) (w : List α) : Prop :=
  ∀ r ∈ rs, ¬r.1 <:+: w

/-- No replacement takes part in an occurrence of a word, and no word ends within an earlier
one. -/
structure Separate (rs : List (List α × List α)) : Prop where
  ne_nil : ∀ r ∈ rs, r.1 ≠ []
  replaced : ∀ r ∈ rs, ∀ r' ∈ rs, ¬Overlaps r.1 r'.2
  ordered : rs.Pairwise fun r r' => ¬EndsWithin r'.1 r.1

/-- The two ways a letter arrives: no word ends at it, or the first one that does is
replaced. -/
theorem step_cases (rs : List (List α × List α)) (w : List α) (c : α) :
    ((∀ r ∈ rs, ¬r.1 <:+ w ++ [c]) ∧ step rs w c = w ++ [c]) ∨
      ∃ rs₁ r rs₂ v, rs = rs₁ ++ r :: rs₂ ∧ (∀ q ∈ rs₁, ¬q.1 <:+ w ++ [c]) ∧
        w ++ [c] = v ++ r.1 ∧ step rs w c = v ++ r.2 := by
  unfold step
  cases hfind : rs.find? fun r => r.1.isSuffixOf (w ++ [c]) with
  | none =>
    refine Or.inl ⟨fun r hr hsuf => ?_, rfl⟩
    exact List.find?_eq_none.mp hfind r hr (List.isSuffixOf_iff_suffix.mpr hsuf)
  | some r =>
    obtain ⟨hr, rs₁, rs₂, hrs, hfirst⟩ := List.find?_eq_some_iff_append.mp hfind
    obtain ⟨v, hv⟩ := List.isSuffixOf_iff_suffix.mp hr
    refine Or.inr ⟨rs₁, r, rs₂, v, hrs, fun q hq hsuf => ?_, hv.symm, ?_⟩
    · have hnot := hfirst q hq
      rw [List.isSuffixOf_iff_suffix.mpr hsuf] at hnot
      cases hnot
    · simp only [← hv, List.length_append, Nat.add_sub_cancel, List.take_left]

variable {rs : List (List α × List α)}

omit [DecidableEq α] in
theorem Clean.mono {w w' : List α} (hw : Clean rs w) (hinf : w' <:+: w) : Clean rs w' :=
  fun r hr h => hw r hr (List.IsInfix.trans h hinf)

omit [DecidableEq α] in
theorem Clean.not_prefix_drop {w t : List α} (hw : Clean rs w) {r : List α × List α} (hr : r ∈ rs)
    {i : Nat} (hi : i + r.1.length ≤ w.length) : ¬r.1 <+: (w ++ t).drop i :=
  fun h => hw r hr (infix_of_prefix_drop h hi)

theorem Clean.rewriteAll_eq {w : List α} (hw : Clean rs w) : rewriteAll rs w = w := by
  induction rs with
  | nil => rfl
  | cons r rs ih =>
    have hr : rewrite r (w ++ []) = w ++ rewrite r [] :=
      rewrite_append_of_no_match fun i hi h => by
        rw [List.append_nil] at h
        exact hw r List.mem_cons_self (h.isInfix.trans (List.drop_suffix i w).isInfix)
    rw [rewrite, rewrite, scan_nil, List.append_nil] at hr
    rw [rewriteAll_cons, rewrite, hr, ih fun q hq => hw q (List.mem_cons_of_mem _ hq)]

omit [DecidableEq α] in
/-- In a clean text with one more letter a word can occur at the end only. -/
theorem Clean.suffix_of_drop {w t : List α} {c : α} (hw : Clean rs w) {q : List α × List α}
    (hq : q ∈ rs) {i : Nat} (h : q.1 <+: (w ++ [c] ++ t).drop i)
    (hi : i + q.1.length ≤ (w ++ [c]).length) : q.1 <:+ w ++ [c] := by
  rw [List.drop_append_of_le_length (by omega)] at h
  have hpre : q.1 <+: (w ++ [c]).drop i :=
    List.prefix_of_prefix_length_le h (List.prefix_append _ _) (by rw [List.length_drop]; omega)
  have hlen : (w ++ [c]).length ≤ i + q.1.length := by
    by_contra hlt
    rw [List.length_append, List.length_singleton] at hlt
    exact hw.not_prefix_drop hq (by omega) hpre
  rw [hpre.eq_of_length_le (by rw [List.length_drop]; omega)]
  exact List.drop_suffix i _

section Replaced

variable {rs₁ rs₂ : List (List α × List α)} {r : List α × List α} {v w : List α} {c : α}

omit [DecidableEq α] in
theorem prefix_of_append_eq (hr : r.1 ≠ []) (hv : w ++ [c] = v ++ r.1) : v <+: w := by
  have hlen := congrArg List.length hv
  have hpos := List.length_pos_of_ne_nil hr
  rw [List.length_append, List.length_append, List.length_singleton] at hlen
  exact List.prefix_of_prefix_length_le (hv ▸ List.prefix_append v r.1)
    (List.prefix_append w [c]) (by omega)

/-- The words before `r` find nothing in front of the end of `r`. -/
theorem rewrite_before (hs : Separate (rs₁ ++ r :: rs₂)) (hw : Clean (rs₁ ++ r :: rs₂) w)
    (hfirst : ∀ q ∈ rs₁, ¬q.1 <:+ w ++ [c]) (hv : w ++ [c] = v ++ r.1)
    {q : List α × List α} (hq : q ∈ rs₁) (t : List α) :
    rewrite q (v ++ r.1 ++ t) = v ++ r.1 ++ rewrite q t := by
  refine rewrite_append_of_no_match fun i hi h => ?_
  rcases Nat.lt_or_ge (v ++ r.1).length (i + q.1.length) with hlt | hle
  · have hends := List.pairwise_append.mp hs.ordered
    have hr : r.1 <+: (v ++ r.1 ++ t).drop v.length := by
      rw [List.append_assoc, List.drop_left]
      exact List.prefix_append r.1 t
    rw [List.length_append] at hlt hi
    exact hends.2.2 q hq r List.mem_cons_self (endsWithin_of_drop hr h hi hlt)
  · rw [← hv] at h hle
    exact hfirst q hq (hw.suffix_of_drop (List.mem_append_left _ hq) h hle)

omit [DecidableEq α] in
/-- No word occurs in front of the end of a replacement. -/
theorem not_prefix_replaced (hs : Separate (rs₁ ++ r :: rs₂)) (hclean : Clean (rs₁ ++ r :: rs₂) v)
    {q : List α × List α} (hq : q ∈ rs₁ ++ r :: rs₂) (t : List α) {i : Nat}
    (hi : i < (v ++ r.2).length) : ¬q.1 <+: (v ++ r.2 ++ t).drop i := by
  intro h
  have hr : r ∈ rs₁ ++ r :: rs₂ := List.mem_append_right _ List.mem_cons_self
  rw [List.append_assoc] at h
  rcases Nat.lt_or_ge v.length (i + q.1.length) with hlt | hle
  · have hz : r.2 <+: (v ++ (r.2 ++ t)).drop v.length := by
      rw [List.drop_left]
      exact List.prefix_append r.2 t
    rw [List.length_append] at hi
    exact hs.replaced q hq r hr (overlaps_of_drop h hz hi hlt)
  · exact hclean.not_prefix_drop hq hle h

/-- The first word that ends at a new letter can be replaced before the rest of the text is
there. -/
theorem rewriteAll_replaced (hs : Separate (rs₁ ++ r :: rs₂)) (hw : Clean (rs₁ ++ r :: rs₂) w)
    (hfirst : ∀ q ∈ rs₁, ¬q.1 <:+ w ++ [c]) (hv : w ++ [c] = v ++ r.1) (t : List α) :
    rewriteAll (rs₁ ++ r :: rs₂) (w ++ [c] ++ t) =
      rewriteAll (rs₁ ++ r :: rs₂) (v ++ r.2 ++ t) := by
  have hmem : r ∈ rs₁ ++ r :: rs₂ := List.mem_append_right _ List.mem_cons_self
  have hr := hs.ne_nil r hmem
  have hclean := hw.mono (prefix_of_append_eq hr hv).isInfix
  have hlen := congrArg List.length hv
  rw [List.length_append, List.length_append, List.length_singleton] at hlen
  have hfound (t : List α) : rewrite r (v ++ (r.1 ++ t)) = v ++ rewrite r (r.1 ++ t) := by
    refine rewrite_append_of_no_match fun i hi h => ?_
    rw [← List.append_assoc, ← hv, List.append_assoc] at h
    exact hw.not_prefix_drop hmem (by omega) h
  have hreplaced : ∀ q ∈ rs₁ ++ r :: rs₂, ∀ t, rewrite q (v ++ r.2 ++ t) =
      v ++ r.2 ++ rewrite q t := fun q hq t =>
    rewrite_append_of_no_match fun _ hi => not_prefix_replaced hs hclean hq t hi
  calc rewriteAll (rs₁ ++ r :: rs₂) (w ++ [c] ++ t)
      = rewriteAll rs₂ (rewrite r (rewriteAll rs₁ (v ++ r.1 ++ t))) := by
        rw [rewriteAll_append, rewriteAll_cons, hv]
    _ = rewriteAll rs₂ (rewrite r (v ++ (r.1 ++ rewriteAll rs₁ t))) := by
        rw [rewriteAll_keeps fun q hq => rewrite_before hs hw hfirst hv hq, List.append_assoc]
    _ = rewriteAll rs₂ (v ++ r.2 ++ rewrite r (rewriteAll rs₁ t)) := by
        rw [hfound, show r = (r.1, r.2) from rfl, rewrite_append_match hr, List.append_assoc]
    _ = rewriteAll rs₂ (rewrite r (rewriteAll rs₁ (v ++ r.2 ++ t))) := by
        rw [rewriteAll_keeps fun q hq => hreplaced q (List.mem_append_left _ hq), hreplaced r hmem]
    _ = rewriteAll (rs₁ ++ r :: rs₂) (v ++ r.2 ++ t) := by
        rw [rewriteAll_append, rewriteAll_cons]

end Replaced

theorem step_clean (hs : Separate rs) {w : List α} (hw : Clean rs w) (c : α) :
    Clean rs (step rs w c) := by
  rcases step_cases rs w c with ⟨hno, hstep⟩ | ⟨rs₁, r, rs₂, v, rfl, -, hv, hstep⟩
  · intro q hq hinf
    rw [hstep] at hinf
    obtain ⟨i, hi, hpre⟩ := infix_iff_drop.mp hinf
    refine hno q hq (hw.suffix_of_drop (t := []) hq (by rwa [List.append_nil]) ?_)
    have hle := hpre.length_le
    rw [List.length_drop] at hle
    omega
  · intro q hq hinf
    rw [hstep] at hinf
    have hr := hs.ne_nil r (List.mem_append_right _ List.mem_cons_self)
    have hclean := hw.mono (prefix_of_append_eq hr hv).isInfix
    obtain ⟨i, hi, hpre⟩ := infix_iff_drop.mp hinf
    have hle := hpre.length_le
    have hpos := List.length_pos_of_ne_nil (hs.ne_nil q hq)
    rw [List.length_drop] at hle
    refine not_prefix_replaced hs hclean hq [] (i := i) (by omega) ?_
    rwa [List.append_nil]

theorem rewriteAll_step (hs : Separate rs) {w : List α} (hw : Clean rs w) (c : α) (t : List α) :
    rewriteAll rs (w ++ c :: t) = rewriteAll rs (step rs w c ++ t) := by
  rw [show w ++ c :: t = w ++ [c] ++ t by simp]
  rcases step_cases rs w c with ⟨-, hstep⟩ | ⟨rs₁, r, rs₂, v, rfl, hfirst, hv, hstep⟩
  · rw [hstep]
  · rw [hstep, rewriteAll_replaced hs hw hfirst hv]

/-- To rewrite one word after the other is to rewrite while the text arrives. -/
theorem rewriteAll_eq_foldl (hs : Separate rs) {w : List α} (hw : Clean rs w) (t : List α) :
    rewriteAll rs (w ++ t) = t.foldl (step rs) w := by
  induction t generalizing w with
  | nil => rw [List.append_nil, hw.rewriteAll_eq, List.foldl_nil]
  | cons c t ih => rw [rewriteAll_step hs hw, ih (step_clean hs hw c), List.foldl_cons]

theorem foldl_step_clean (hs : Separate rs) {w : List α} (hw : Clean rs w) (t : List α) :
    Clean rs (t.foldl (step rs) w) := by
  induction t generalizing w with
  | nil => exact hw
  | cons c t ih => exact ih (step_clean hs hw c)

theorem foldl_step_length (hlen : ∀ r ∈ rs, r.2.length = r.1.length) (w t : List α) :
    (t.foldl (step rs) w).length = w.length + t.length := by
  induction t generalizing w with
  | nil => rfl
  | cons c t ih =>
    have hstep : (step rs w c).length = w.length + 1 := by
      rcases step_cases rs w c with ⟨-, hstep⟩ | ⟨rs₁, r, rs₂, v, rfl, -, hv, hstep⟩
      · rw [hstep, List.length_append, List.length_singleton]
      · have h := congrArg List.length hv
        rw [List.length_append, List.length_append, List.length_singleton] at h
        rw [hstep, List.length_append, hlen r (by simp), h]
    rw [List.foldl_cons, ih, hstep, List.length_cons]
    omega

/-- Only the end of the text, shorter by one than the longest word, counts. -/
theorem step_append {p : List α} (hp : ∀ r ∈ rs, r.1.length ≤ p.length + 1) (u : List α) (c : α) :
    step rs (u ++ p) c = u ++ step rs p c := by
  have hsuf : ∀ r ∈ rs, r.1.isSuffixOf (u ++ p ++ [c]) = r.1.isSuffixOf (p ++ [c]) := by
    intro r hr
    have hle : r.1.length ≤ (p ++ [c]).length := by
      rw [List.length_append, List.length_singleton]
      exact hp r hr
    rw [Bool.eq_iff_iff, List.isSuffixOf_iff_suffix, List.isSuffixOf_iff_suffix, List.append_assoc]
    exact ⟨fun h => List.suffix_of_suffix_length_le h (List.suffix_append _ _) hle,
      fun h => h.trans (List.suffix_append _ _)⟩
  unfold step
  rw [List.find?_congr hsuf]
  cases hfind : rs.find? fun r => r.1.isSuffixOf (p ++ [c]) with
  | none => rw [List.append_assoc]
  | some r =>
    have hle := hp r (List.mem_of_find?_eq_some hfind)
    dsimp only
    rw [List.append_assoc, List.length_append, Nat.add_sub_assoc (by simpa using hle),
      List.take_length_add_append, List.append_assoc]

theorem foldl_step_append (hlen : ∀ r ∈ rs, r.2.length = r.1.length) {p : List α}
    (hp : ∀ r ∈ rs, r.1.length ≤ p.length + 1) (u t : List α) :
    t.foldl (step rs) (u ++ p) = u ++ t.foldl (step rs) p := by
  induction t generalizing p with
  | nil => rfl
  | cons c t ih =>
    have hstep := foldl_step_length hlen p [c]
    rw [List.foldl_cons, List.foldl_nil, List.length_singleton] at hstep
    rw [List.foldl_cons, List.foldl_cons, step_append hp, ih fun r hr => ?_]
    have hle := hp r hr
    omega

/-! ### All words at once -/

omit [DecidableEq α] in
/-- The occurrences of the words in a text are replaced, and nothing else is. -/
structure Simultaneous (rs : List (List α × List α)) (s t : List α) : Prop where
  length : t.length = s.length
  replaced : ∀ r ∈ rs, ∀ i, r.1 <+: s.drop i → r.2 <+: t.drop i
  kept : ∀ p, (∀ r ∈ rs, ∀ i ≤ p, p < i + r.1.length → ¬r.1 <+: s.drop i) → t[p]? = s[p]?

/-- The words meet neither one another nor themselves nor a replacement. -/
structure Apart (rs : List (List α × List α)) : Prop where
  words : rs.Pairwise fun r r' => ¬Overlaps r.1 r'.1
  self : ∀ r ∈ rs, Unbordered r.1
  replaced : ∀ r ∈ rs, ∀ r' ∈ rs, ¬Overlaps r.1 r'.2

omit [DecidableEq α] in
theorem overlaps_self {m : List α} (hm : m ≠ []) : Overlaps m m :=
  .inl ⟨0, List.length_pos_of_ne_nil hm, .inl (List.prefix_refl m)⟩

omit [DecidableEq α] in
theorem overlaps_comm {m z : List α} : Overlaps m z ↔ Overlaps z m := by
  simp only [Overlaps, or_comm]

omit [DecidableEq α] in
theorem Apart.tail {r : List α × List α} {rs : List (List α × List α)} (h : Apart (r :: rs)) :
    Apart rs where
  words := (List.pairwise_cons.mp h.words).2
  self := fun q hq => h.self q (List.mem_cons_of_mem _ hq)
  replaced := fun q hq q' hq' =>
    h.replaced q (List.mem_cons_of_mem _ hq) q' (List.mem_cons_of_mem _ hq')

omit [DecidableEq α] in
theorem Apart.perm {rs rs' : List (List α × List α)} (h : Apart rs) (hperm : rs'.Perm rs) :
    Apart rs' where
  words := (hperm.pairwise_iff fun {_ _} hne hover => hne (overlaps_comm.mp hover)).mpr h.words
  self := fun q hq => h.self q (hperm.mem_iff.mp hq)
  replaced := fun q hq q' hq' => h.replaced q (hperm.mem_iff.mp hq) q' (hperm.mem_iff.mp hq')

omit [DecidableEq α] in
theorem prefix_drop_iff {k s : List α} {i : Nat} :
    k <+: s.drop i ↔ ∀ n (h : n < k.length), s[i + n]? = some k[n] := by
  rw [List.prefix_iff_getElem?]
  simp only [List.getElem?_drop]

omit [DecidableEq α] in
/-- A word occurs where the texts agree. -/
theorem prefix_drop_of_agree {k s t : List α} {i : Nat}
    (h : ∀ p, i ≤ p → p < i + k.length → t[p]? = s[p]?) (hk : k <+: s.drop i) : k <+: t.drop i := by
  rw [prefix_drop_iff] at hk ⊢
  intro n hn
  rw [h (i + n) (Nat.le_add_right i n) (Nat.add_lt_add_left hn i), hk n hn]

omit [DecidableEq α] in
/-- The text is determined, so that the order of the words does not matter. -/
theorem Simultaneous.unique {rs rs' : List (List α × List α)} {s t t' : List α}
    (hrs : ∀ r, r ∈ rs ↔ r ∈ rs') (hlen : ∀ r ∈ rs, r.2.length = r.1.length)
    (h : Simultaneous rs s t) (h' : Simultaneous rs' s t') : t = t' := by
  apply List.ext_getElem?
  intro p
  by_cases hp : ∀ r ∈ rs, ∀ i ≤ p, p < i + r.1.length → ¬r.1 <+: s.drop i
  · rw [h.kept p hp, h'.kept p fun r hr => hp r ((hrs r).mpr hr)]
  · push Not at hp
    obtain ⟨r, hr, i, hi, hlt, hocc⟩ := hp
    obtain ⟨n, rfl⟩ := Nat.exists_eq_add_of_le hi
    have hn : n < r.2.length := by
      rw [hlen r hr]
      exact Nat.lt_of_add_lt_add_left hlt
    rw [prefix_drop_iff.mp (h.replaced r hr i hocc) n hn,
      prefix_drop_iff.mp (h'.replaced r ((hrs r).mp hr) i hocc) n hn]

omit [DecidableEq α] in
theorem simultaneous_nil (s : List α) : Simultaneous [] s s where
  length := rfl
  replaced := nofun
  kept := fun _ _ => rfl

section Scan

variable {m z : List α}

/-- Occurrences of an unbordered word are found one by one. -/
theorem mem_scan_positions (hm : m ≠ []) (hb : Unbordered m) {off p : Nat} {s : List α} :
    p ∈ (scan m z off s).2 ↔ ∃ q, p = off + q ∧ m <+: s.drop q := by
  constructor
  · exact prefix_drop_of_mem_positions
  · rintro ⟨q, rfl, hq⟩
    induction s using scan_induction (m := m) generalizing off q with
    | nil =>
      rw [List.drop_nil] at hq
      exact absurd (List.prefix_nil.mp hq) hm
    | found _ t ih =>
      rw [scan_append_match hm]
      rcases Nat.eq_zero_or_pos q with rfl | hpos
      · exact List.mem_cons_self
      · rcases Nat.lt_or_ge q m.length with hlt | hge
        · exfalso
          refine hb.not_prefix hpos hlt ?_ (List.prefix_append m t)
          exact (List.take_prefix _ _).trans hq
        · obtain ⟨n, rfl⟩ := Nat.exists_eq_add_of_le hge
          rw [List.drop_length_add_append] at hq
          rw [← Nat.add_assoc]
          exact List.mem_cons_of_mem _ (ih n hq)
    | other c s hno ih =>
      rw [scan_cons hno]
      cases q with
      | zero => exact absurd hq (hno hm)
      | succ q =>
        rw [List.drop_succ_cons] at hq
        rw [Nat.add_comm q 1, ← Nat.add_assoc]
        exact ih q hq

/-- The replaced occurrences of an unbordered word are all there are. -/
theorem simultaneous_scan (hm : m ≠ []) (hz : z.length = m.length) (hb : Unbordered m) (off : Nat)
    (s : List α) : Simultaneous [(m, z)] s (scan m z off s).1 where
  length := scan_length hz off s
  replaced := by
    intro r hr
    rw [List.mem_singleton.mp hr]
    intro i hi
    induction s using scan_induction (m := m) generalizing off i with
    | nil =>
      rw [List.drop_nil] at hi
      exact absurd (List.prefix_nil.mp hi) hm
    | found _ t ih =>
      rw [scan_append_match hm]
      rcases Nat.eq_zero_or_pos i with rfl | hpos
      · exact List.prefix_append z _
      · rcases Nat.lt_or_ge i m.length with hlt | hge
        · exfalso
          refine hb.not_prefix hpos hlt ?_ (List.prefix_append m t)
          exact (List.take_prefix _ _).trans hi
        · obtain ⟨n, rfl⟩ := Nat.exists_eq_add_of_le hge
          rw [List.drop_length_add_append] at hi
          dsimp only
          rw [← hz, List.drop_length_add_append]
          exact ih _ n hi
    | other c s hno ih =>
      rw [scan_cons hno]
      cases i with
      | zero => exact absurd hi (hno hm)
      | succ i =>
        rw [List.drop_succ_cons] at hi
        exact ih _ i hi
  kept := by
    intro p hp
    have hkept : ∀ i ≤ p, p < i + m.length → ¬m <+: s.drop i := hp _ List.mem_cons_self
    clear hp
    induction s using scan_induction (m := m) generalizing off p with
    | nil => rw [scan_nil]
    | found _ t ih =>
      rw [scan_append_match hm]
      rcases Nat.lt_or_ge p m.length with hlt | hge
      · exact absurd (List.prefix_append m t) (hkept 0 (Nat.zero_le p) (by omega))
      · obtain ⟨n, rfl⟩ := Nat.exists_eq_add_of_le hge
        dsimp only
        rw [List.getElem?_append_right (by omega), List.getElem?_append_right hge, hz]
        refine ih _ _ fun i hi hlt hpre => hkept (m.length + i) (by omega) (by omega) ?_
        rwa [List.drop_length_add_append]
    | other c s hno ih =>
      rw [scan_cons hno]
      cases p with
      | zero => rfl
      | succ p =>
        exact ih _ p fun i hi hlt hpre => hkept (i + 1) (by omega) (by omega) hpre

end Scan

section Compose

variable {r : List α × List α} {s t t' : List α}

omit [DecidableEq α] in
/-- Replacing one word neither makes nor unmakes an occurrence of another. -/
theorem Simultaneous.prefix_drop_iff (h : Simultaneous [r] s t) (hlen : r.2.length = r.1.length)
    {k : List α} (hk : ¬Overlaps r.1 k) (hkz : ¬Overlaps k r.2) (i : Nat) :
    k <+: t.drop i ↔ k <+: s.drop i := by
  have hagree : (k <+: s.drop i ∨ k <+: t.drop i) →
      ∀ p, i ≤ p → p < i + k.length → t[p]? = s[p]? := by
    intro hocc p hip hlt
    refine h.kept p fun q hq n hn hpn hpre => ?_
    rw [List.mem_singleton.mp hq] at hpn hpre
    rcases hocc with hocc | hocc
    · exact hk (overlaps_of_drop hpre hocc (by omega) (by omega))
    · have hz := h.replaced r List.mem_cons_self n hpre
      exact hkz (overlaps_of_drop hocc hz (by omega) (by omega))
  constructor
  · exact fun hocc => prefix_drop_of_agree (fun p hp hlt => (hagree (.inr hocc) p hp hlt).symm) hocc
  · exact fun hocc => prefix_drop_of_agree (hagree (.inl hocc)) hocc

omit [DecidableEq α] in
/-- One word, and then the others. -/
theorem Simultaneous.cons (h : Simultaneous [r] s t) (h' : Simultaneous rs t t')
    (hlen : ∀ q ∈ r :: rs, q.2.length = q.1.length) (hapart : Apart (r :: rs)) :
    Simultaneous (r :: rs) s t' := by
  have hr := hlen r List.mem_cons_self
  have hocc : ∀ q ∈ rs, ∀ i, q.1 <+: t.drop i ↔ q.1 <+: s.drop i := fun q hq i =>
    h.prefix_drop_iff hr ((List.pairwise_cons.mp hapart.words).1 q hq)
      (hapart.replaced q (List.mem_cons_of_mem _ hq) r List.mem_cons_self) i
  refine ⟨h'.length.trans h.length, fun q hq i hpre => ?_, fun p hp => ?_⟩
  · rcases List.mem_cons.mp hq with rfl | hq
    · have hz := h.replaced q List.mem_cons_self i hpre
      refine prefix_drop_of_agree (fun p hip hlt => ?_) hz
      refine h'.kept p fun q' hq' n hn hpn hpre' => ?_
      exact hapart.replaced q' (List.mem_cons_of_mem _ hq') q List.mem_cons_self
        (overlaps_of_drop hpre' hz (by omega) (by omega))
    · exact h'.replaced q hq i ((hocc q hq i).mpr hpre)
  · have hrest : t'[p]? = t[p]? := h'.kept p fun q hq i hi hlt hpre =>
      hp q (List.mem_cons_of_mem _ hq) i hi hlt ((hocc q hq i).mp hpre)
    have hfirst : t[p]? = s[p]? := by
      refine h.kept p fun q hq i hi hlt => ?_
      rw [List.mem_singleton.mp hq] at hlt ⊢
      exact hp r List.mem_cons_self i hi hlt
    exact hrest.trans hfirst

end Compose

end Nix.Lib.OnlineRewriting
