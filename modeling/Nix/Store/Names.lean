import Nix.Lib.PaddedLists
import Nix.Util.Strings

/-!
`names.cc`: how versions are compared.
-/

set_option linter.dupNamespace false

namespace Nix.Store.Names

open Util.Types Util.Strings Lib.PaddedLists

def isSeparator (c : UInt8) : Bool := c = 46 || c = 45

def nextComponent (p : Bytes) : Bytes × Bytes :=
  -- Skip any dots and dashes (component separators).
  match p.dropWhile isSeparator with
  | [] => ([], [])
  | c :: s =>
      if isDigit c then (c :: s.takeWhile isDigit, s.dropWhile isDigit)
      else
        (c :: s.takeWhile fun c => !isDigit c && !isSeparator c,
          s.dropWhile fun c => !isDigit c && !isSeparator c)

def componentsLT (c1 c2 : Bytes) : Bool :=
  match string2Int32 c1, string2Int32 c2 with
  | some n1, some n2 => n1 < n2
  | n1, n2 =>
      if c1 = [] ∧ n2.isSome then true
      else if c1 = str "pre" ∧ c2 ≠ str "pre" then true
      else if c2 = str "pre" then false
      -- Assume that `2.3a' < `2.3.1'.
      else if n2.isSome then true
      else if n1.isSome then false
      else compare c1 c2 = .lt

theorem length_nextComponent {p : Bytes} (h : p ≠ []) : (nextComponent p).2.length < p.length := by
  have hle := List.length_dropWhile_le isSeparator p
  have hpos := List.length_pos_of_ne_nil h
  unfold nextComponent
  split
  next => exact hpos
  next c s hskip =>
    rw [hskip, List.length_cons] at hle
    split
    · exact (Nat.lt_succ_of_le (List.length_dropWhile_le _ _)).trans_le hle
    · exact (Nat.lt_succ_of_le (List.length_dropWhile_le _ _)).trans_le hle

theorem nextComponent_nil : nextComponent [] = ([], []) := rfl

theorem length_nextComponent_le (p : Bytes) : (nextComponent p).2.length ≤ p.length := by
  rcases eq_or_ne p [] with rfl | hne
  · exact Nat.le_refl 0
  · exact Nat.le_of_lt (length_nextComponent hne)

def compareVersions (p1 p2 : Bytes) : Ordering :=
  if _h : p1 ≠ [] ∨ p2 ≠ [] then
    let c1 := (nextComponent p1).1
    let c2 := (nextComponent p2).1
    if componentsLT c1 c2 then .lt
    else if componentsLT c2 c1 then .gt
    else compareVersions (nextComponent p1).2 (nextComponent p2).2
  else .eq
termination_by p1.length + p2.length
decreasing_by
  have h1 := length_nextComponent_le p1
  have h2 := length_nextComponent_le p2
  rcases _h with hne | hne
  · have hlt := length_nextComponent hne
    omega
  · have hlt := length_nextComponent hne
    omega

/-- `pre` comes first, then what is not a number of an `int` in the order of its bytes, then the
numbers. -/
structure Rank where
  kind : Nat
  text : Bytes
  number : Int

def Rank.cmp : Rank → Rank → Ordering :=
  compareLex (compareOn Rank.kind) (compareLex (compareOn Rank.text) (compareOn Rank.number))

instance : Std.TransCmp Rank.cmp :=
  inferInstanceAs (Std.TransCmp (compareLex _ _))

def rank (c : Bytes) : Rank :=
  match string2Int32 c with
  | some n => ⟨2, [], n⟩
  | none => if c = str "pre" then ⟨0, [], 0⟩ else ⟨1, c, 0⟩

theorem string2Int32_pre : string2Int32 (str "pre") = none := by
  decide

theorem rank_of_eq_some {c : Bytes} {n : Int} (h : string2Int32 c = some n) :
    rank c = ⟨2, [], n⟩ := by
  rw [rank, h]

theorem rank_pre : rank (str "pre") = ⟨0, [], 0⟩ := by
  rw [rank, string2Int32_pre]
  exact if_pos rfl

theorem rank_of_eq_none {c : Bytes} (h : string2Int32 c = none) (hpre : c ≠ str "pre") :
    rank c = ⟨1, c, 0⟩ := by
  rw [rank, h]
  exact if_neg hpre

theorem componentsLT_eq (c1 c2 : Bytes) :
    componentsLT c1 c2 = decide (Rank.cmp (rank c1) (rank c2) = .lt) := by
  have hnumber : ∀ {c n}, string2Int32 c = some n → c ≠ str "pre" := by
    rintro c n h rfl
    rw [string2Int32_pre] at h
    cases h
  unfold componentsLT
  cases h1 : string2Int32 c1 with
  | some n1 =>
      rw [rank_of_eq_some h1]
      cases h2 : string2Int32 c2 with
      | some n2 =>
          rw [rank_of_eq_some h2]
          have hcmp : Rank.cmp ⟨2, [], n1⟩ ⟨2, [], n2⟩ = compare n1 n2 := rfl
          rw [hcmp]
          exact decide_eq_decide.mpr compare_lt_iff_lt.symm
      | none =>
          simp only [Option.isSome_none, Option.isSome_some, hnumber h1, and_false, false_and,
            if_false, Bool.false_eq_true, if_true]
          by_cases hpre : c2 = str "pre"
          · rw [hpre, rank_pre, if_pos rfl]
            rfl
          · rw [rank_of_eq_none h2 hpre, if_neg hpre]
            rfl
  | none =>
      cases h2 : string2Int32 c2 with
      | some n2 =>
          rw [rank_of_eq_some h2]
          simp only [Option.isSome_some, hnumber h2, if_true, if_false, ite_self]
          by_cases hpre : c1 = str "pre"
          · rw [hpre, rank_pre]
            rfl
          · rw [rank_of_eq_none h1 hpre]
            rfl
      | none =>
          simp only [Option.isSome_none, and_false, if_false, Bool.false_eq_true]
          by_cases hpre1 : c1 = str "pre"
          · rw [hpre1, rank_pre]
            by_cases hpre2 : c2 = str "pre"
            · rw [hpre2, rank_pre]
              decide
            · rw [rank_of_eq_none h2 hpre2, if_pos ⟨rfl, hpre2⟩]
              rfl
          · rw [rank_of_eq_none h1 hpre1, if_neg fun h => hpre1 h.1]
            by_cases hpre2 : c2 = str "pre"
            · rw [hpre2, rank_pre, if_pos rfl]
              rfl
            · rw [rank_of_eq_none h2 hpre2, if_neg hpre2]
              have hcmp : Rank.cmp ⟨1, c1, 0⟩ ⟨1, c2, 0⟩ = (compare c1 c2).then .eq := rfl
              rw [hcmp, Ordering.then_eq]

/-- The components, of which the last one is empty if a separator comes last. -/
def components (v : Bytes) : List Bytes :=
  if _h : v = [] then []
  else (nextComponent v).1 :: components (nextComponent v).2
termination_by v.length
decreasing_by exact length_nextComponent _h

theorem components_nil : components [] = [] := by
  rw [components, dif_pos rfl]

theorem headD_components (v : Bytes) : (components v).headD [] = (nextComponent v).1 := by
  rw [components]
  split
  next h =>
    rw [h]
    rfl
  next => rfl

theorem tail_components (v : Bytes) : (components v).tail = components (nextComponent v).2 := by
  rw [components]
  split
  next h => rw [h, nextComponent_nil, components_nil, List.tail_nil]
  next => rw [List.tail_cons]

def cmpComponents (c1 c2 : Bytes) : Ordering :=
  Rank.cmp (rank c1) (rank c2)

instance : Std.TransCmp cmpComponents :=
  transCmp_comp rank

theorem componentsLT_iff {c1 c2 : Bytes} : componentsLT c1 c2 = true ↔ cmpComponents c1 c2 = .lt := by
  rw [componentsLT_eq, decide_eq_true_iff]
  rfl

theorem componentsLT_iff_gt {c1 c2 : Bytes} :
    componentsLT c2 c1 = true ↔ cmpComponents c1 c2 = .gt := by
  rw [componentsLT_iff, Std.OrientedCmp.gt_iff_lt]

theorem compareVersions_eq (v1 v2 : Bytes) :
    compareVersions v1 v2 = comparePadded cmpComponents [] (components v1) (components v2) := by
  have hthen : ∀ p1 p2, comparePadded cmpComponents [] (components p1) (components p2) =
      (cmpComponents (nextComponent p1).1 (nextComponent p2).1).then
        (comparePadded cmpComponents [] (components (nextComponent p1).2)
          (components (nextComponent p2).2)) := by
    intro p1 p2
    rw [comparePadded_eq_then, headD_components, headD_components, tail_components, tail_components]
  induction v1, v2 using compareVersions.induct with
  | case1 p1 p2 hne c1 c2 hlt =>
      rw [compareVersions, dif_pos hne, hthen, componentsLT_iff.mp hlt]
      exact if_pos hlt
  | case2 p1 p2 hne c1 c2 hlt hgt =>
      rw [compareVersions, dif_pos hne, hthen, componentsLT_iff_gt.mp hgt]
      exact (if_neg hlt).trans (if_pos hgt)
  | case3 p1 p2 hne c1 c2 hlt hgt ih =>
      have heq : cmpComponents c1 c2 = .eq := by
        cases hcmp : cmpComponents c1 c2 with
        | lt => exact absurd (componentsLT_iff.mpr hcmp) hlt
        | eq => rfl
        | gt => exact absurd (componentsLT_iff_gt.mpr hcmp) hgt
      rw [compareVersions, dif_pos hne, hthen, heq, Ordering.eq_then, ← ih]
      exact (if_neg hlt).trans (if_neg hgt)
  | case4 p1 p2 hend =>
      obtain ⟨hp1, hp2⟩ := not_or.mp hend
      rw [compareVersions, dif_neg hend, not_not.mp hp1, not_not.mp hp2, components_nil]
      rfl

instance : Std.TransCmp compareVersions where
  eq_swap := by
    intro v1 v2
    rw [compareVersions_eq, compareVersions_eq]
    exact Std.OrientedCmp.eq_swap
  isLE_trans := by
    intro v1 v2 v3 h12 h23
    rw [compareVersions_eq] at h12 h23 ⊢
    exact Std.TransCmp.isLE_trans h12 h23

/-- Versions are totally preordered. -/
theorem compareVersions_preorder (a b c : Bytes) :
    compareVersions a a = .eq ∧ compareVersions b a = (compareVersions a b).swap ∧
      ((compareVersions a b).isLE → (compareVersions b c).isLE → (compareVersions a c).isLE) :=
  ⟨Std.ReflCmp.compare_self, Std.OrientedCmp.eq_swap, Std.TransCmp.isLE_trans⟩

example : compareVersions (str "2.3a") (str "2.3.1") = .lt := by decide +kernel

example : compareVersions (str "1.02") (str "1.2.") = .eq := by decide +kernel

/-!
Components of versions that are numbers.
-/

/-- A text of decimal digits. -/
structure Digits (s : Bytes) : Prop where
  ne_nil : s ≠ []
  digits : ∀ c ∈ s, isDigit c = true

def number (s : Bytes) : Nat :=
  s.foldl (fun n c => 10 * n + (c.toNat - 48)) 0

theorem not_isSeparator_of_isDigit {c : UInt8} (h : isDigit c = true) : isSeparator c = false := by
  rw [isSeparator, Bool.or_eq_false_iff, decide_eq_false_iff_not, decide_eq_false_iff_not]
  constructor
  · rintro rfl
    exact absurd h (by decide)
  · rintro rfl
    exact absurd h (by decide)

theorem Digits.string2Int32_eq {s : Bytes} (h : Digits s) :
    string2Int32 s = if number s < 2 ^ 31 then some (number s : Int) else none := by
  have hhead : ∀ {c}, s.head? = some c → isDigit c = true := fun hc =>
    h.digits _ (List.mem_of_head? hc)
  have hminus : s.head? ≠ some 45 := fun hc => absurd (hhead hc) (by decide)
  have hplus : s.head? ≠ some 43 := fun hc => absurd (hhead hc) (by decide)
  rw [string2Int32, if_neg (not_or.mpr ⟨hminus, hplus⟩)]
  dsimp only
  rw [if_pos ⟨h.ne_nil, List.all_eq_true.mpr h.digits⟩, if_neg hminus, ← number]
  by_cases hlt : number s < 2 ^ 31
  · rw [if_pos hlt, if_pos]
    omega
  · rw [if_neg hlt, if_neg]
    omega

theorem Digits.nextComponent_eq {s : Bytes} (h : Digits s) : nextComponent s = (s, []) := by
  obtain ⟨c, t, rfl⟩ := List.exists_cons_of_ne_nil h.ne_nil
  have hc := h.digits c List.mem_cons_self
  have ht : ∀ d ∈ t, isDigit d = true := fun d hd => h.digits d (List.mem_cons_of_mem c hd)
  have hskip : (c :: t).dropWhile isSeparator = c :: t := by
    rw [List.dropWhile_cons_of_neg]
    rw [not_isSeparator_of_isDigit hc]
    exact Bool.false_ne_true
  rw [nextComponent, hskip]
  dsimp only
  rw [if_pos hc, List.takeWhile_eq_self_iff.mpr ht, List.dropWhile_eq_nil_iff.mpr ht]

theorem takeWhile_append_dot {f : UInt8 → Bool} (hdot : f 46 = false) (s m : Bytes) :
    (s ++ 46 :: m).takeWhile f = s.takeWhile f ∧
      (s ++ 46 :: m).dropWhile f = s.dropWhile f ++ 46 :: m := by
  induction s with
  | nil =>
    rw [List.nil_append, List.takeWhile_cons_of_neg (by rw [hdot]; exact Bool.false_ne_true),
      List.dropWhile_cons_of_neg (by rw [hdot]; exact Bool.false_ne_true)]
    exact ⟨rfl, rfl⟩
  | cons c s ih =>
    rw [List.cons_append]
    cases hc : f c with
    | true =>
      rw [List.takeWhile_cons_of_pos hc, List.takeWhile_cons_of_pos hc,
        List.dropWhile_cons_of_pos hc, List.dropWhile_cons_of_pos hc, ih.1, ih.2]
      exact ⟨rfl, rfl⟩
    | false =>
      have hneg : ¬f c = true := by
        rw [hc]
        exact Bool.false_ne_true
      rw [List.takeWhile_cons_of_neg hneg, List.takeWhile_cons_of_neg hneg,
        List.dropWhile_cons_of_neg hneg, List.dropWhile_cons_of_neg hneg]
      exact ⟨rfl, rfl⟩

theorem nextComponent_append_dot {p : Bytes} (hp : p.dropWhile isSeparator ≠ []) (m : Bytes) :
    nextComponent (p ++ 46 :: m) = ((nextComponent p).1, (nextComponent p).2 ++ 46 :: m) := by
  have hskip : (p ++ 46 :: m).dropWhile isSeparator = p.dropWhile isSeparator ++ 46 :: m := by
    rw [List.dropWhile_append, List.isEmpty_eq_false_iff.mpr hp]
    rfl
  obtain ⟨c, s, hcs⟩ := List.exists_cons_of_ne_nil hp
  rw [nextComponent, nextComponent, hskip, hcs, List.cons_append]
  dsimp only
  split
  next =>
    obtain ⟨htake, hdrop⟩ := @takeWhile_append_dot isDigit (by decide) s m
    rw [htake, hdrop]
  next =>
    obtain ⟨htake, hdrop⟩ := @takeWhile_append_dot
      (fun c => !isDigit c && !isSeparator c) (by decide) s m
    rw [htake, hdrop]

theorem nextComponent_append_digits {p m : Bytes} (hp : p.dropWhile isSeparator = [])
    (hm : Digits m) : nextComponent (p ++ 46 :: m) = (m, []) := by
  have hskip : (p ++ 46 :: m).dropWhile isSeparator = m.dropWhile isSeparator := by
    rw [List.dropWhile_append, hp, List.isEmpty_nil, if_pos rfl, List.dropWhile_cons_of_pos]
    decide
  have hcomponent : nextComponent (p ++ 46 :: m) = nextComponent m := by
    rw [nextComponent, nextComponent, hskip]
  rw [hcomponent, hm.nextComponent_eq]

theorem componentsLT_self (c : Bytes) : componentsLT c c = false := by
  have hself : Rank.cmp (rank c) (rank c) = .eq := Std.ReflCmp.compare_self
  rw [componentsLT_eq, hself]
  rfl

theorem compareVersions_append_dot (p : Bytes) {m n : Bytes} (hm : Digits m) (hn : Digits n) :
    compareVersions (p ++ 46 :: m) (p ++ 46 :: n) =
      if componentsLT m n then .lt else if componentsLT n m then .gt else .eq := by
  induction hlen : p.length using Nat.strongRecOn generalizing p with
  | ind k ih =>
    have hne : p ++ 46 :: m ≠ [] ∨ p ++ 46 :: n ≠ [] := .inl (by simp)
    rw [compareVersions, dif_pos hne]
    dsimp only
    rcases eq_or_ne (p.dropWhile isSeparator) [] with hp | hp
    · rw [nextComponent_append_digits hp hm, nextComponent_append_digits hp hn]
      dsimp only
      rw [compareVersions, dif_neg (by simp)]
    · rw [nextComponent_append_dot hp, nextComponent_append_dot hp]
      dsimp only
      have hpne : p ≠ [] := by
        rintro rfl
        exact hp rfl
      rw [componentsLT_self, if_neg Bool.false_ne_true, if_neg Bool.false_ne_true]
      exact ih _ (hlen ▸ length_nextComponent hpne) _ rfl

theorem componentsLT_digits {m n : Bytes} (hm : Digits m) (hn : Digits n)
    (hlt : number m < number n) :
    componentsLT m n = true ↔
      number n < 2 ^ 31 ∨ (2 ^ 31 ≤ number m ∧ compare m n = .lt) := by
  have hpre : ∀ {s}, Digits s → s ≠ str "pre" := by
    rintro s hs rfl
    exact absurd (hs.digits 112 (by decide)) (by decide)
  rw [componentsLT, hm.string2Int32_eq, hn.string2Int32_eq]
  by_cases hsmall : number n < 2 ^ 31
  · rw [if_pos hsmall, if_pos (hlt.trans hsmall)]
    exact iff_of_true (decide_eq_true (Int.ofNat_lt.mpr hlt)) (.inl hsmall)
  · rw [if_neg hsmall]
    by_cases hsmall' : number m < 2 ^ 31
    · rw [if_pos hsmall']
      simp only [Option.isSome_none, Option.isSome_some, Bool.false_eq_true, and_false, if_false,
        if_true, hpre hm, hpre hn, false_and, false_iff]
      omega
    · rw [if_neg hsmall']
      simp only [Option.isSome_none, Bool.false_eq_true, and_false, if_false, hpre hm, hpre hn,
        false_and, decide_eq_true_eq]
      constructor
      · exact fun h => .inr ⟨by omega, h⟩
      · rintro (h | ⟨-, h⟩)
        · exact absurd h hsmall
        · exact h

/-- Numbers are compared as numbers if both are numbers of an `int`, and otherwise as texts if
neither of them is. -/
theorem compareVersions_numbers (p : Bytes) {m n : Bytes} (hm : Digits m) (hn : Digits n)
    (hlt : number m < number n) :
    compareVersions (p ++ str "." ++ m) (p ++ str "." ++ n) = .lt ↔
      number n < 2 ^ 31 ∨ (2 ^ 31 ≤ number m ∧ compare m n = .lt) := by
  have hdot : ∀ s : Bytes, p ++ str "." ++ s = p ++ 46 :: s := fun s => by
    rw [List.append_assoc]
    rfl
  rw [hdot, hdot, compareVersions_append_dot p hm hn, ← componentsLT_digits hm hn hlt]
  by_cases h : componentsLT m n = true
  · rw [if_pos h]
    exact iff_of_true rfl h
  · rw [if_neg h]
    refine iff_of_false ?_ h
    split_ifs
    · decide
    · decide

theorem compareVersions_numbers_dates :
    compareVersions (str "1.0" ++ str "." ++ str "99") (str "1.0" ++ str "." ++ str "20240101") =
      .lt := by
  have hdigits : ∀ s ∈ [str "99", str "20240101"], Digits s := by
    intro s hs
    rcases List.mem_pair.mp hs with rfl | rfl
    · exact ⟨by decide, List.all_eq_true.mp (by decide)⟩
    · exact ⟨by decide, List.all_eq_true.mp (by decide)⟩
  exact (compareVersions_numbers (str "1.0") (hdigits _ (by simp)) (hdigits _ (by simp))
    (by decide)).mpr (.inl (by decide))

/-- A time stamp with minutes is not a number of an `int`. -/
theorem compareVersions_timestamps :
    number (str "20240101") < number (str "202401010000") ∧
      compareVersions (str "1.0" ++ str "." ++ str "20240101")
        (str "1.0" ++ str "." ++ str "202401010000") = .gt := by
  decide +kernel

end Nix.Store.Names
