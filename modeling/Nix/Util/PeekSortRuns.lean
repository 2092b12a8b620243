import Nix.Lib.StableSorting
import Nix.Util.PeekSort

/-!
`peeksort` stays within its range, ends, and sorts stably.
-/

set_option linter.dupNamespace false

namespace Nix.Util.PeekSort

open Lib.StableSorting

variable {α : Type} {comp : α → α → Bool}

theorem bind_ok {β γ : Type} (b : β) (f : β → Except Fault γ) : ((Except.ok b) >>= f) = f b :=
  rfl

/-! ### Iterators -/

/-- Elements that were not moved from. -/
abbrev full (s : List α) : Cells α :=
  s.map some

theorem deref_at {cells u v : Cells α} {it : Nat} {a : α} (h : cells = u ++ some a :: v)
    (hit : it = u.length) : deref cells it = .ok a := by
  rw [deref, h, hit, List.getElem?_append_right (Nat.le_refl _), Nat.sub_self,
    List.getElem?_cons_zero]

theorem assign_at {cells u v : Cells α} {it : Nat} {o : Option α} (a : α)
    (h : cells = u ++ o :: v) (hit : it = u.length) :
    assign cells it a = .ok (u ++ some a :: v) := by
  have hlt : it < cells.length := by
    rw [h, hit, List.length_append, List.length_cons]
    omega
  rw [assign, if_pos hlt, h, hit, List.set_append_right _ _ (Nat.le_refl _), Nat.sub_self,
    List.set_cons_zero]

theorem moveOut_at {cells u v : Cells α} {it : Nat} {a : α} (h : cells = u ++ some a :: v)
    (hit : it = u.length) : moveOut cells it = .ok (a, u ++ none :: v) := by
  rw [moveOut, deref_at h hit, bind_ok, h, hit, List.set_append_right _ _ (Nat.le_refl _),
    Nat.sub_self, List.set_cons_zero]
  rfl

theorem swap_at {cells u v : Cells α} {it : Nat} {a b : α}
    (h : cells = u ++ some b :: some a :: v) (hit : it = u.length) :
    swap cells (it + 1) it = .ok (u ++ some a :: some b :: v) := by
  have h' : cells = (u ++ [some b]) ++ some a :: v := by rw [h, List.append_assoc]; rfl
  have hit' : it + 1 = (u ++ [some b]).length := by rw [List.length_append, hit]; rfl
  rw [swap, deref_at h' hit', bind_ok, deref_at h hit, bind_ok, assign_at b h' hit', bind_ok,
    assign_at a (List.append_assoc u [some b] (some b :: v)) hit]
  rfl

theorem distance_of_le {start stop : Nat} (h : start ≤ stop) :
    distance start stop = .ok (stop - start) :=
  if_pos h

theorem move_at {source target a s b c d e : Cells α} {start stop out : Nat}
    (hsource : source = a ++ s ++ b) (htarget : target = c ++ d ++ e) (hd : d.length = s.length)
    (hstart : start = a.length) (hstop : stop = a.length + s.length) (hout : out = c.length) :
    move source target start stop out =
      .ok (a ++ List.replicate s.length none ++ b, c ++ s ++ e, out + s.length) := by
  have hn : distance start stop = .ok s.length := by
    rw [distance, if_pos (by omega), hstart, hstop, Nat.add_sub_cancel_left]
  have hfits : stop ≤ source.length ∧ out + s.length ≤ target.length := by
    simp only [hsource, htarget, List.length_append]
    omega
  have hstart' : source.take start = a := by
    rw [hsource, hstart, List.append_assoc, List.take_left]
  have hstop' : source.take stop = a ++ s := by
    rw [hsource, hstop, ← List.length_append, List.take_left]
  have hbehind : source.drop stop = b := by
    rw [hsource, hstop, ← List.length_append, List.drop_left]
  have hout' : target.take out = c := by
    rw [htarget, hout, List.append_assoc, List.take_left]
  have hrest : target.drop (out + s.length) = e := by
    rw [htarget, hout, ← hd, ← List.length_append, List.drop_left]
  rw [move, hn, bind_ok, if_pos hfits, hstart', hstop', hbehind, hout', hrest, hstart,
    List.drop_left]
  rfl

theorem move_nothing {source target : Cells α} {it out : Nat} (hit : it ≤ source.length)
    (hout : out ≤ target.length) : move source target it it out = .ok (source, target, out) := by
  rw [move, distance_of_le (Nat.le_refl it), bind_ok, Nat.sub_self, if_pos ⟨hit, hout⟩,
    List.replicate_zero, List.append_nil, List.take_append_drop, Nat.add_zero,
    List.drop_eq_nil_of_le (List.length_take_le it source), List.append_nil,
    List.take_append_drop]
  rfl

theorem reverse_at {cells u s v : Cells α} {start stop : Nat} (h : cells = u ++ s ++ v)
    (hstart : start = u.length) (hstop : stop = u.length + s.length) :
    reverse cells start stop = .ok (u ++ s.reverse ++ v) := by
  have hfits : start ≤ stop ∧ stop ≤ cells.length := by
    simp only [h, List.length_append]
    omega
  have htake : cells.take stop = u ++ s := by
    rw [h, hstop, ← List.length_append, List.take_left]
  have hdrop : cells.drop stop = v := by
    rw [h, hstop, ← List.length_append, List.drop_left]
  rw [reverse, if_pos hfits, htake, hdrop, hstart, List.drop_left, h,
    List.append_assoc u s v, List.take_left]

theorem next_of_lt {length it : Nat} (h : it < length) : next length it = .ok (it + 1) :=
  if_pos h

theorem prev_succ (it : Nat) : prev (it + 1) = .ok it :=
  rfl

/-! ### What it is to sort -/

/-- `s'` has the elements of `s`. It is `s` sorted if the comparator is a strict weak ordering, as
far as what is assumed of `s` holds. -/
structure Sorts (comp : α → α → Bool) (assumed : Prop) (s s' : List α) : Prop where
  perm : s.Perm s'
  stable : StrictWeakOrder comp → assumed → StablySorts comp s s'

namespace Sorts

variable {P Q : Prop} {s s' : List α}

theorem mono (h : Sorts comp P s s') (hPQ : StrictWeakOrder comp → Q → P) : Sorts comp Q s s' :=
  ⟨h.perm, fun hcomp hQ => h.stable hcomp (hPQ hcomp hQ)⟩

theorem refl (s : List α) : Sorts comp (s.Pairwise (inOrder comp · ·)) s s :=
  ⟨.refl s, fun _ hs => StablySorts.refl hs⟩

theorem merge {l l' r r' : List α} (hl : Sorts comp P l l') (hr : Sorts comp Q r r') :
    Sorts comp (P ∧ Q) (l ++ r) (l'.merge r' (inOrder comp)) where
  perm := (hl.perm.append hr.perm).trans (List.merge_perm_append _).symm
  stable hcomp hPQ := (hl.stable hcomp hPQ.1).merge hcomp (hr.stable hcomp hPQ.2)

theorem of_part {x u u' y t : List α} (hu : Sorts comp True u u')
    (h : Sorts comp P (x ++ u' ++ y) t) : Sorts comp P (x ++ u ++ y) t where
  perm := ((hu.perm.append_left x).append_right y).trans h.perm
  stable hcomp hP :=
    .of_keeps (((Keeps.refl x).append (hu.stable hcomp trivial).keeps).append (Keeps.refl y))
      (h.stable hcomp hP)

end Sorts

/-! ### Insertion sort -/

theorem insertLoop_start (start : Nat) (cells : Cells α) :
    insertLoop comp start start cells = .ok cells := by
  cases start with
  | zero => rfl
  | succ start => exact if_pos rfl

variable (comp) in
theorem insertLoop_inserts (p : Cells α) (s : List α) (a : α) (q : Cells α) :
    ∃ s', insertLoop comp p.length (p.length + s.length) (p ++ full (s ++ [a]) ++ q) =
      .ok (p ++ full s' ++ q) ∧ Inserts comp a s s' := by
  induction s using List.reverseRecOn generalizing q with
  | nil => exact ⟨[a], insertLoop_start p.length _, .first⟩
  | append_singleton s b ih =>
    have hcells : p ++ full (s ++ [b] ++ [a]) ++ q = (p ++ full s) ++ some b :: some a :: q := by
      simp
    have hcells' : p ++ full (s ++ [b] ++ [a]) ++ q =
        (p ++ full s ++ [some b]) ++ some a :: q := by simp
    have hlen : p.length + (s ++ [b]).length = p.length + s.length + 1 := by simp; omega
    have hbefore : p.length + s.length = (p ++ full s).length := by simp
    rw [hlen, insertLoop, if_neg (by omega), deref_at hcells' (by simp; omega), bind_ok,
      deref_at hcells hbefore, bind_ok]
    cases hab : comp a b with
    | false =>
      rw [if_neg Bool.false_ne_true]
      exact ⟨s ++ [b] ++ [a], rfl, .stop hab⟩
    | true =>
      obtain ⟨s', hrun, hins⟩ := ih (some b :: q)
      refine ⟨s' ++ [b], ?_, .pass hab hins⟩
      have hswapped : (p ++ full s) ++ some a :: some b :: q =
          p ++ full (s ++ [a]) ++ some b :: q := by simp
      rw [if_pos rfl, swap_at hcells hbefore, bind_ok, hswapped, hrun]
      simp

variable (comp) in
theorem insertionsortLoop_sorts (p : Cells α) (sorted rest : List α) (q : Cells α) :
    ∃ s', insertionsortLoop comp p.length rest.length (p.length + sorted.length)
        (p ++ full (sorted ++ rest) ++ q) = .ok (p ++ full s' ++ q) ∧
      Sorts comp (sorted.Pairwise (inOrder comp · ·)) (sorted ++ rest) s' := by
  induction rest generalizing sorted with
  | nil =>
    rw [List.append_nil]
    exact ⟨sorted, rfl, Sorts.refl sorted⟩
  | cons a rest ih =>
    obtain ⟨s', hinsert, hins⟩ := insertLoop_inserts comp p sorted a (full rest ++ q)
    obtain ⟨t, hrun, ht⟩ := ih s'
    have hlen : p.length + s'.length = p.length + sorted.length + 1 := by
      rw [← hins.perm.length_eq, List.length_append]
      rfl
    have hcells : p ++ full (sorted ++ a :: rest) ++ q =
        p ++ full (sorted ++ [a]) ++ (full rest ++ q) := by simp
    have hcells' : p ++ full s' ++ (full rest ++ q) = p ++ full (s' ++ rest) ++ q := by simp
    refine ⟨t, ?_, ?_, ?_⟩
    · rw [List.length_cons, insertionsortLoop, hcells, hinsert, bind_ok, hcells', ← hlen, hrun]
    · rw [List.append_cons]
      exact (hins.perm.append_right rest).trans ht.perm
    · intro hcomp hsorted
      have hs' := hins.stablySorts hcomp hsorted
      rw [List.append_cons]
      exact .of_keeps (hs'.keeps.append (Keeps.refl rest)) (ht.stable hcomp hs'.sorted)

variable (comp) in
theorem insertionsort_sorts (p : Cells α) (s : List α) (q : Cells α) :
    ∃ s', insertionsort comp p.length (p.length + s.length) (p ++ full s ++ q) =
      .ok (p ++ full s' ++ q) ∧ Sorts comp True s s' := by
  cases s with
  | nil => exact ⟨[], if_pos rfl, (Sorts.refl []).mono fun _ _ => .nil⟩
  | cons a s =>
    obtain ⟨s', hrun, hs'⟩ := insertionsortLoop_sorts comp p [a] s q
    refine ⟨s', ?_, hs'.mono fun _ _ => List.pairwise_singleton _ a⟩
    have hlt : p.length < (p ++ full (a :: s) ++ q).length := by simp
    have hn : p.length + (a :: s).length - (p.length + 1) = s.length := by
      rw [List.length_cons]
      omega
    rw [insertionsort, if_neg (by simp), next_of_lt hlt, bind_ok,
      distance_of_le (by simp), bind_ok, hn]
    exact hrun

/-! ### Runs -/

/-- `s` stands from `start` on. -/
def Holds (cells : Cells α) (start : Nat) (s : List α) : Prop :=
  ∃ p q, cells = p ++ full s ++ q ∧ start = p.length

theorem Holds.deref {cells : Cells α} {start : Nat} {u v : List α} {a : α}
    (h : Holds cells start (u ++ a :: v)) : deref cells (start + u.length) = .ok a := by
  obtain ⟨p, q, rfl, rfl⟩ := h
  exact deref_at (u := p ++ full u) (v := full v ++ q) (by simp) (by simp)

theorem Holds.next {cells : Cells α} {start : Nat} {a : α} {s : List α}
    (h : Holds cells start (a :: s)) : next cells.length start = .ok (start + 1) := by
  obtain ⟨p, q, rfl, rfl⟩ := h
  exact next_of_lt (by simp)

theorem Holds.part {cells : Cells α} {start : Nat} {u v w : List α}
    (h : Holds cells start (u ++ v ++ w)) : Holds cells (start + u.length) v := by
  obtain ⟨p, q, rfl, rfl⟩ := h
  exact ⟨p ++ full u, full w ++ q, by simp, by simp⟩

variable (comp) in
theorem prefixLoop_run {cells : Cells α} {it : Nat} {c : α} {m : List α}
    (h : Holds cells it (c :: m)) :
    ∃ m₁ m₂, m = m₁ ++ m₂ ∧ (c :: m₁).IsChain (fun a b => comp b a = true) ∧
      prefixLoop comp cells m.length it = .ok (it + 1 + m₁.length) := by
  induction m generalizing c it with
  | nil => exact ⟨[], [], rfl, .singleton c, h.next⟩
  | cons a m ih =>
    have hsnd : deref cells (it + 1) = .ok a := Holds.deref (u := [c]) h
    have hfst : deref cells it = .ok c := Holds.deref (u := []) h
    have htail : Holds cells (it + 1) (a :: m) := by
      refine Holds.part (u := [c]) (w := []) ?_
      rwa [List.append_nil]
    rw [List.length_cons, prefixLoop, hsnd, bind_ok, hfst, bind_ok]
    cases hlt : comp a c with
    | false =>
      rw [if_neg Bool.false_ne_true]
      exact ⟨[], a :: m, rfl, .singleton c, h.next⟩
    | true =>
      obtain ⟨m₁, m₂, rfl, hchain, hrun⟩ := ih htail
      refine ⟨a :: m₁, m₂, rfl, .cons_cons hlt hchain, ?_⟩
      rw [if_pos rfl, hrun, List.length_cons]
      congr 1
      omega

variable (comp) in
theorem strictlyDecreasingPrefix_run {cells : Cells α} {start : Nat} {c : α} {m : List α}
    (h : Holds cells start (c :: m)) :
    ∃ m₁ m₂, m = m₁ ++ m₂ ∧ (c :: m₁).IsChain (fun a b => comp b a = true) ∧
      strictlyDecreasingPrefix comp cells start (start + 1 + m.length) =
        .ok (start + 1 + m₁.length) := by
  obtain ⟨m₁, m₂, hm, hchain, hrun⟩ := prefixLoop_run comp h
  refine ⟨m₁, m₂, hm, hchain, ?_⟩
  rw [strictlyDecreasingPrefix, if_neg (by omega), distance_of_le (by omega), bind_ok,
    Nat.add_sub_cancel_left, hrun]

variable (comp) in
theorem suffixLoop_run {cells : Cells α} {start : Nat} {m : List α} {c : α}
    (h : Holds cells start (m ++ [c])) :
    ∃ m₁ m₂, m = m₁ ++ m₂ ∧ (m₂ ++ [c]).IsChain (fun a b => comp b a = true) ∧
      suffixLoop comp cells start (start + m.length + 1) = .ok (start + m₁.length) := by
  induction m using List.reverseRecOn generalizing c with
  | nil => exact ⟨[], [], rfl, .singleton c, if_neg (Nat.lt_irrefl start)⟩
  | append_singleton m d ih =>
    have hlast : deref cells (start + (m ++ [d]).length) = .ok c := h.deref
    have hbefore : deref cells (start + (m ++ [d]).length - 1) = .ok d := by
      have hd : Holds cells start (m ++ d :: [c]) := by rwa [List.append_cons]
      rw [List.length_append, ← Nat.add_assoc]
      exact hd.deref
    have hinit : Holds cells start (m ++ [d]) := Holds.part (u := []) h
    rw [suffixLoop, if_pos (by simp), hlast, bind_ok, hbefore, bind_ok]
    cases hlt : comp c d with
    | false =>
      rw [if_neg Bool.false_ne_true]
      exact ⟨m ++ [d], [], (List.append_nil _).symm, .singleton c, rfl⟩
    | true =>
      obtain ⟨m₁, m₂, rfl, hchain, hrun⟩ := ih hinit
      refine ⟨m₁, m₂ ++ [d], (List.append_assoc _ _ _), ?_, ?_⟩
      · rw [← List.append_cons, List.isChain_split]
        exact ⟨hchain, .cons_cons hlt (.singleton c)⟩
      · rw [if_pos rfl, List.length_append, ← Nat.add_assoc]
        exact hrun

variable (comp) in
theorem strictlyDecreasingSuffix_run {cells : Cells α} {start : Nat} {m : List α} {c : α}
    (h : Holds cells start (m ++ [c])) :
    ∃ m₁ m₂, m = m₁ ++ m₂ ∧ (m₂ ++ [c]).IsChain (fun a b => comp b a = true) ∧
      strictlyDecreasingSuffix comp cells start (start + m.length + 1) =
        .ok (start + m₁.length) := by
  obtain ⟨m₁, m₂, hm, hchain, hrun⟩ := suffixLoop_run comp h
  refine ⟨m₁, m₂, hm, hchain, ?_⟩
  rw [strictlyDecreasingSuffix, if_neg (by omega), hrun]

theorem sorts_of_weaklyIncreasing {s : List α} (h : s.IsChain fun a b => notFn comp b a = true) :
    Sorts comp True s s := by
  refine (Sorts.refl s).mono fun hcomp _ => pairwise_of_weaklyIncreasing hcomp ?_
  exact h.imp fun a b hab => by rwa [notFn, Bool.not_eq_true'] at hab

theorem sorts_reverse {s : List α} (h : s.IsChain fun a b => comp b a = true) :
    Sorts comp True s s.reverse :=
  ⟨s.reverse_perm.symm, fun hcomp _ => stablySorts_reverse hcomp h⟩

theorem exists_split {s : List α} {n : Nat} (h : n ≤ s.length) :
    ∃ u v, s = u ++ v ∧ u.length = n :=
  ⟨s.take n, s.drop n, (List.take_append_drop n s).symm, List.length_take_of_le h⟩

theorem exists_parts {s : List α} {left middle right : Nat} (hleft : left < middle)
    (hmiddle : middle < right) (hright : right ≤ s.length) :
    ∃ A B c a C D, s = A ++ (B ++ c :: a :: C) ++ D ∧ left = A.length ∧
      middle = A.length + B.length + 1 ∧ right = A.length + B.length + 1 + (a :: C).length := by
  obtain ⟨A, t, rfl, hA⟩ := exists_split (s := s) (n := left) (by omega)
  rw [List.length_append] at hright
  obtain ⟨E, D, rfl, hE⟩ := exists_split (s := t) (n := right - left) (by omega)
  obtain ⟨B, F, rfl, hB⟩ := exists_split (s := E) (n := middle - 1 - left) (by omega)
  rw [List.length_append] at hE
  match F with
  | [] => simp at hE; omega
  | [c] => simp at hE; omega
  | c :: a :: C =>
    simp only [List.length_cons] at hE
    exact ⟨A, B, c, a, C, D, by rw [List.append_assoc A], hA.symm, by omega, by
      rw [List.length_cons]; omega⟩

variable (comp) in
/-- The run around `c` and `a` is found, and sorted. -/
theorem findMiddleRun_parts (p q : Cells α) (A B : List α) (c a : α) (C D : List α) :
    ∃ B₁ B₂ C₁ C₂ run, B = B₁ ++ B₂ ∧ a :: C = C₁ ++ C₂ ∧
      Sorts comp True (B₂ ++ c :: C₁) run ∧
      findMiddleRun comp (p ++ full (A ++ (B ++ c :: a :: C) ++ D) ++ q)
        (p.length + A.length + B.length + 1) (p.length + A.length)
        (p.length + A.length + B.length + 1 + (a :: C).length) =
          .ok (p ++ full (A ++ B₁ ++ run ++ (C₂ ++ D)) ++ q, p.length + A.length + B₁.length,
            p.length + A.length + B.length + 1 + C₁.length) := by
  have hrun : Holds (p ++ full (A ++ (B ++ c :: a :: C) ++ D) ++ q) (p.length + A.length)
      (B ++ c :: a :: C) := Holds.part ⟨p, q, rfl, rfl⟩
  have hbefore : Holds (p ++ full (A ++ (B ++ c :: a :: C) ++ D) ++ q) (p.length + A.length)
      (B ++ [c]) := by
    refine Holds.part (u := []) (w := a :: C) ?_
    rwa [List.nil_append, ← List.append_cons]
  have hbehind : Holds (p ++ full (A ++ (B ++ c :: a :: C) ++ D) ++ q)
      (p.length + A.length + B.length) (c :: a :: C) := by
    refine Holds.part (w := []) ?_
    rwa [List.append_nil]
  have hprev : deref (p ++ full (A ++ (B ++ c :: a :: C) ++ D) ++ q)
      (p.length + A.length + B.length) = .ok c := Holds.deref (u := []) hbehind
  have hmiddle : deref (p ++ full (A ++ (B ++ c :: a :: C) ++ D) ++ q)
      (p.length + A.length + B.length + 1) = .ok a := Holds.deref (u := [c]) hbehind
  rw [findMiddleRun, prev_succ, bind_ok, hmiddle, bind_ok, hprev, bind_ok]
  cases hlt : comp a c with
  | false =>
    obtain ⟨B₁, B₂, rfl, hsuffix, hi⟩ := strictlyDecreasingSuffix_run (notFn comp) hbefore
    obtain ⟨C₁, C₂, hC, hprefix, hj⟩ := strictlyDecreasingPrefix_run (notFn comp) hbehind
    have hchain : (B₂ ++ c :: C₁).IsChain fun a b => notFn comp b a = true :=
      List.isChain_split.mpr ⟨hsuffix, hprefix⟩
    refine ⟨B₁, B₂, C₁, C₂, B₂ ++ c :: C₁, rfl, hC, sorts_of_weaklyIncreasing hchain, ?_⟩
    rw [Bool.not_false, if_pos rfl, weaklyIncreasingSuffix, hi, bind_ok, weaklyIncreasingPrefix,
      hj, bind_ok, hC]
    simp only [List.append_assoc, List.cons_append]
    rfl
  | true =>
    obtain ⟨B₁, B₂, rfl, hsuffix, hi⟩ := strictlyDecreasingSuffix_run comp hbefore
    obtain ⟨C₁, C₂, hC, hprefix, hj⟩ := strictlyDecreasingPrefix_run comp hbehind
    have hchain : (B₂ ++ c :: C₁).IsChain fun a b => comp b a = true :=
      List.isChain_split.mpr ⟨hsuffix, hprefix⟩
    refine ⟨B₁, B₂, C₁, C₂, (B₂ ++ c :: C₁).reverse, rfl, hC, sorts_reverse hchain, ?_⟩
    have hcells : p ++ full (A ++ (B₁ ++ B₂ ++ c :: a :: C) ++ D) ++ q =
        (p ++ full (A ++ B₁)) ++ full (B₂ ++ c :: C₁) ++ (full (C₂ ++ D) ++ q) := by
      rw [hC]
      simp
    rw [Bool.not_true, if_neg Bool.false_ne_true, hi, bind_ok, hj, bind_ok,
      reverse_at hcells (by simp; omega) (by simp; omega), bind_ok]
    simp only [full, List.map_append, List.map_reverse, List.append_assoc]
    rfl

variable (comp) in
theorem findMiddleRun_sorts (p q : Cells α) {s : List α} {left middle right : Nat}
    (hleft : left < middle) (hmiddle : middle < right) (hright : right ≤ s.length) :
    ∃ x u y u', s = x ++ u ++ y ∧ left ≤ x.length ∧ x.length < middle ∧
      middle ≤ x.length + u.length ∧ x.length + u.length ≤ right ∧ Sorts comp True u u' ∧
      findMiddleRun comp (p ++ full s ++ q) (p.length + middle) (p.length + left)
        (p.length + right) = .ok (p ++ full (x ++ u' ++ y) ++ q, p.length + x.length,
          p.length + x.length + u.length) := by
  obtain ⟨A, B, c, a, C, D, rfl, rfl, rfl, rfl⟩ := exists_parts hleft hmiddle hright
  obtain ⟨B₁, B₂, C₁, C₂, run, rfl, hC, hsorts, hfind⟩ :=
    findMiddleRun_parts comp p q A B c a C D
  have hlen : (a :: C).length = C₁.length + C₂.length := by rw [hC, List.length_append]
  refine ⟨A ++ B₁, B₂ ++ c :: C₁, C₂ ++ D, run, ?_, ?_, ?_, ?_, ?_, hsorts, ?_⟩
  · rw [hC]
    simp
  · simp only [List.length_append]
    omega
  · simp only [List.length_append]
    omega
  · simp only [List.length_append, List.length_cons]
    omega
  · simp only [List.length_append, List.length_cons] at hlen ⊢
    omega
  · have hmid : p.length + (A.length + (B₁ ++ B₂).length + 1) =
        p.length + A.length + (B₁ ++ B₂).length + 1 := by omega
    have hright : p.length + (A.length + (B₁ ++ B₂).length + 1 + (a :: C).length) =
        p.length + A.length + (B₁ ++ B₂).length + 1 + (a :: C).length := by omega
    rw [hmid, hright, hfind]
    simp
    omega

/-! ### Merging -/

section Merging

variable {st : MergeState α} {workingMiddle workingEnd : Nat} {p q hole x y z : Cells α}

theorem moveRest_left {l : List α} (hrange : st.mem.range = p ++ hole ++ q)
    (hbuffer : st.mem.buffer = x ++ full l ++ y) (hhole : hole.length = l.length)
    (houtput : st.output = p.length) (hleft : st.workingLeft = x.length)
    (hmiddle : workingMiddle = x.length + l.length) (hright : st.workingRight = workingEnd)
    (hend : workingEnd ≤ st.mem.buffer.length) :
    ∃ buffer', moveRest workingMiddle workingEnd st = .ok ⟨p ++ full l ++ q, buffer'⟩ ∧
      buffer'.length = st.mem.buffer.length := by
  have hlen : (x ++ List.replicate (full l).length none ++ y).length = st.mem.buffer.length := by
    rw [hbuffer]
    simp
  refine ⟨x ++ List.replicate (full l).length none ++ y, ?_, hlen⟩
  rw [moveRest, move_at hbuffer hrange (by simpa using hhole) hleft (by simpa using hmiddle)
    houtput, bind_ok]
  show (move _ _ st.workingRight workingEnd st.output >>= _) = _
  rw [hright, move_nothing (hlen ▸ hend) (by simp [houtput])]
  rfl

theorem moveRest_right {r : List α} (hrange : st.mem.range = p ++ hole ++ q)
    (hbuffer : st.mem.buffer = x ++ full r ++ y) (hhole : hole.length = r.length)
    (houtput : st.output = p.length) (hleft : st.workingLeft = workingMiddle)
    (hmiddle : workingMiddle ≤ x.length) (hright : st.workingRight = x.length)
    (hend : workingEnd = x.length + r.length) :
    ∃ buffer', moveRest workingMiddle workingEnd st = .ok ⟨p ++ full r ++ q, buffer'⟩ ∧
      buffer'.length = st.mem.buffer.length := by
  refine ⟨x ++ List.replicate (full r).length none ++ y, ?_, by rw [hbuffer]; simp⟩
  rw [moveRest, hleft, move_nothing (by simp [hbuffer]; omega) (by simp [hrange, houtput]),
    bind_ok]
  show (move _ _ st.workingRight workingEnd st.output >>= _) = _
  rw [move_at hbuffer hrange (by simpa using hhole) hright (by simpa using hend) houtput]
  rfl

theorem mergeLoop_stops {fuel : Nat}
    (h : ¬(st.workingLeft ≠ workingMiddle ∧ st.workingRight ≠ workingEnd)) :
    mergeLoop comp workingMiddle workingEnd fuel st = .ok st := by
  rw [mergeLoop.eq_def]
  exact if_neg h

theorem mergeLoop_ends {fuel : Nat} {l r : List α} (hdone : l = [] ∨ r = [])
    (hhole : hole.length = l.length + r.length) (hrange : st.mem.range = p ++ hole ++ q)
    (hbuffer : st.mem.buffer = x ++ full l ++ y ++ full r ++ z) (houtput : st.output = p.length)
    (hleft : st.workingLeft = x.length) (hmiddle : workingMiddle = x.length + l.length)
    (hright : st.workingRight = x.length + l.length + y.length)
    (hend : workingEnd = x.length + l.length + y.length + r.length) :
    ∃ buffer', (mergeLoop comp workingMiddle workingEnd fuel st >>=
        moveRest workingMiddle workingEnd) =
          .ok ⟨p ++ full (l.merge r (inOrder comp)) ++ q, buffer'⟩ ∧
      buffer'.length = st.mem.buffer.length := by
  rcases hdone with rfl | rfl
  · rw [mergeLoop_stops (by simp [hleft, hmiddle]), bind_ok, List.nil_merge]
    exact moveRest_right hrange hbuffer (by simpa using hhole) houtput (by simp [hleft, hmiddle])
      (by simp [hmiddle]) (by simp [hright]) (by simp [hend])
  · rw [mergeLoop_stops (by simp [hright, hend]), bind_ok, List.merge_right]
    refine moveRest_left (y := y ++ z) hrange (by simp [hbuffer]) (by simpa using hhole) houtput
      hleft hmiddle (by simp [hright, hend]) ?_
    simp [hbuffer, hend]
    omega

theorem mergeLoop_merges {fuel : Nat} {l r : List α} (hfuel : l.length + r.length ≤ fuel)
    (hhole : hole.length = l.length + r.length) (hrange : st.mem.range = p ++ hole ++ q)
    (hbuffer : st.mem.buffer = x ++ full l ++ y ++ full r ++ z) (houtput : st.output = p.length)
    (hleft : st.workingLeft = x.length) (hmiddle : workingMiddle = x.length + l.length)
    (hright : st.workingRight = x.length + l.length + y.length)
    (hend : workingEnd = x.length + l.length + y.length + r.length) :
    ∃ buffer', (mergeLoop comp workingMiddle workingEnd fuel st >>=
        moveRest workingMiddle workingEnd) =
          .ok ⟨p ++ full (l.merge r (inOrder comp)) ++ q, buffer'⟩ ∧
      buffer'.length = st.mem.buffer.length := by
  induction fuel generalizing st p hole l r x y with
  | zero =>
    have hl : l = [] := List.eq_nil_of_length_eq_zero (by omega)
    exact mergeLoop_ends (.inl hl) hhole hrange hbuffer houtput hleft hmiddle hright hend
  | succ fuel ih =>
    match l, r, hole with
    | [], r, hole =>
      exact mergeLoop_ends (.inl rfl) hhole hrange hbuffer houtput hleft hmiddle hright hend
    | l, [], hole =>
      exact mergeLoop_ends (.inr rfl) hhole hrange hbuffer houtput hleft hmiddle hright hend
    | a :: l, b :: r, [] =>
      simp only [List.length_cons, List.length_nil] at hhole
      omega
    | a :: l, b :: r, o :: hole =>
      simp only [List.length_cons] at hfuel hhole hmiddle hright hend
      have hgoes : st.workingLeft ≠ workingMiddle ∧ st.workingRight ≠ workingEnd := by omega
      have hfst : st.mem.buffer = x ++ some a :: (full l ++ y ++ full (b :: r) ++ z) := by
        simp [hbuffer]
      have hsnd : st.mem.buffer = (x ++ full (a :: l) ++ y) ++ some b :: (full r ++ z) := by
        simp [hbuffer]
      have hrightAt : st.workingRight = (x ++ full (a :: l) ++ y).length := by
        simp [hright]
        omega
      have hout : st.mem.range = p ++ o :: (hole ++ q) := by simp [hrange]
      rw [mergeLoop, if_pos hgoes]
      show ∃ buffer', ((deref st.mem.buffer st.workingRight >>= _) >>= _) = _ ∧ _
      rw [deref_at hsnd hrightAt, bind_ok, deref_at hfst hleft, bind_ok, List.cons_merge_cons,
        inOrder]
      cases hlt : comp b a with
      | false =>
        rw [Bool.not_false, if_pos rfl, if_pos rfl, moveOut_at hfst hleft, bind_ok]
        show ∃ buffer', ((assign st.mem.range st.output a >>= _) >>= _) = _ ∧ _
        rw [assign_at a hout houtput, bind_ok]
        obtain ⟨buffer', hrun, hlen⟩ := @ih
          ⟨⟨p ++ some a :: (hole ++ q), x ++ none :: (full l ++ y ++ full (b :: r) ++ z)⟩,
            st.output + 1, st.workingLeft + 1, st.workingRight⟩
          (p ++ [some a]) hole (x ++ [none]) y l (b :: r) (by simp; omega)
          (by simp; omega) (by simp) (by simp) (by simp [houtput]) (by simp [hleft])
          (by simp [hmiddle]; omega) (by simp [hright]; omega) (by simp [hend]; omega)
        refine ⟨buffer', ?_, ?_⟩
        · rw [hrun]
          simp
        · rw [hlen, hfst]
          simp
      | true =>
        rw [Bool.not_true, if_neg Bool.false_ne_true, if_neg Bool.false_ne_true,
          moveOut_at hsnd hrightAt, bind_ok]
        show ∃ buffer', ((assign st.mem.range st.output b >>= _) >>= _) = _ ∧ _
        rw [assign_at b hout houtput, bind_ok]
        obtain ⟨buffer', hrun, hlen⟩ := @ih
          ⟨⟨p ++ some b :: (hole ++ q), (x ++ full (a :: l) ++ y) ++ none :: (full r ++ z)⟩,
            st.output + 1, st.workingLeft, st.workingRight + 1⟩
          (p ++ [some b]) hole x (y ++ [none]) (a :: l) r (by simp; omega)
          (by simp; omega) (by simp) (by simp) (by simp [houtput]) (by simp [hleft])
          (by simp [hmiddle]) (by simp [hright]; omega) (by simp [hend]; omega)
        refine ⟨buffer', ?_, ?_⟩
        · rw [hrun]
          simp
        · rw [hlen, hsnd]
          simp

end Merging

theorem mergeSortedRunsInPlace_merges {mem : Memory α} {p q : Cells α} {l r : List α}
    {start middle stop : Nat} (hrange : mem.range = p ++ full (l ++ r) ++ q)
    (hbuffer : l.length + r.length ≤ mem.buffer.length) (hstart : start = p.length)
    (hmiddle : middle = start + l.length) (hstop : stop = middle + r.length) :
    ∃ buffer', mergeSortedRunsInPlace comp start middle stop mem =
        .ok ⟨p ++ full (l.merge r (inOrder comp)) ++ q, buffer'⟩ ∧
      buffer'.length = mem.buffer.length := by
  obtain ⟨d, rest, hd, hdlen⟩ := exists_split (s := mem.buffer) (n := l.length) (by omega)
  obtain ⟨e, z, he, helen⟩ := exists_split (s := rest) (n := r.length) (by
    rw [hd, List.length_append] at hbuffer
    omega)
  have hleft : move mem.range mem.buffer start middle 0 =
      .ok (p ++ List.replicate (full l).length none ++ (full r ++ q), [] ++ full l ++ (e ++ z),
        0 + (full l).length) :=
    move_at (d := d) (by simp [hrange]) (by simp [hd, he]) (by simp [hdlen]) hstart
      (by simp [hmiddle, hstart]) rfl
  have hright : move (p ++ List.replicate (full l).length none ++ (full r ++ q))
      ([] ++ full l ++ (e ++ z)) middle stop (0 + (full l).length) =
        .ok (p ++ List.replicate (full l).length none ++ List.replicate (full r).length none ++ q,
          full l ++ full r ++ z, 0 + (full l).length + (full r).length) :=
    move_at (d := e) (by simp) (by simp) (by simp [helen]) (by simp [hmiddle, hstart])
      (by simp [hstop, hmiddle, hstart]) (by simp)
  rw [mergeSortedRunsInPlace, hleft, bind_ok]
  show ∃ buffer', (move _ _ middle stop _ >>= _) = _ ∧ _
  rw [hright, bind_ok]
  obtain ⟨buffer', hrun, hlen⟩ := @mergeLoop_merges α comp
    ⟨⟨p ++ List.replicate (full l).length none ++ List.replicate (full r).length none ++ q,
      full l ++ full r ++ z⟩, start, 0, 0 + (full l).length⟩ (0 + (full l).length)
    (0 + (full l).length + (full r).length) p q
    (List.replicate (full l).length none ++ List.replicate (full r).length none) [] [] z
    (0 + (full l).length + (full r).length + 1) l r (by simp) (by simp) (by simp) (by simp) hstart
    rfl (by simp) (by simp) (by simp)
  refine ⟨buffer', hrun, ?_⟩
  rw [hlen, hd, he]
  simp [hdlen, helen]

/-! ### Peeksort -/

def Presorted (comp : α → α → Bool) (left right : Nat) (s : List α) : Prop :=
  (s.take left).Pairwise (inOrder comp · ·) ∧ (s.drop right).Pairwise (inOrder comp · ·)

namespace Presorted

variable {left right : Nat} {x t : List α}

theorem front (h : Presorted comp left right (x ++ t)) (hleft : left ≤ x.length) :
    (x.take left).Pairwise (inOrder comp · ·) := by
  have hfront := h.1
  rwa [List.take_append_of_le_length hleft] at hfront

theorem back (h : Presorted comp left right (x ++ t)) (hright : x.length ≤ right) :
    (t.drop (right - x.length)).Pairwise (inOrder comp · ·) := by
  have hback := h.2
  rwa [List.drop_append, List.drop_eq_nil_of_le hright, List.nil_append] at hback

end Presorted

theorem Presorted.of_part {left right : Nat} {x u u' y : List α} (hlen : u.length = u'.length)
    (hx : left ≤ x.length) (hy : x.length + u.length ≤ right)
    (h : Presorted comp left right (x ++ u ++ y)) : Presorted comp left right (x ++ u' ++ y) := by
  constructor
  · rw [List.append_assoc] at h ⊢
    rw [List.take_append_of_le_length hx]
    exact h.front hx
  · have hback := h.back (by rwa [List.length_append])
    have hu' : (x ++ u').length = (x ++ u).length := by
      rw [List.length_append, List.length_append, hlen]
    rwa [List.drop_append, List.drop_eq_nil_of_le (by rw [hu', List.length_append]; exact hy),
      List.nil_append, hu']

theorem pairwise_of_length_le_one {s : List α} (h : s.length ≤ 1) :
    s.Pairwise (inOrder comp · ·) :=
  (StablySorts.of_length_le_one h).sorted

/-- A call that sorts `s`, which stands between `p` and `q`. -/
structure Call (mem : Memory α) (p : Cells α) (s : List α) (q : Cells α)
    (left right start stop leftRunEnd rightRunBegin : Nat) : Prop where
  range : mem.range = p ++ full s ++ q
  buffer : s.length ≤ mem.buffer.length
  left_le : left ≤ s.length
  right_le : right ≤ s.length
  apart : left ≤ right ∨ left = s.length ∨ right = 0
  start_eq : start = p.length
  stop_eq : stop = p.length + s.length
  leftRunEnd_eq : leftRunEnd = p.length + left
  rightRunBegin_eq : rightRunBegin = p.length + right

def Returns (comp : α → α → Bool) (mem : Memory α) (p : Cells α) (s : List α) (q : Cells α)
    (left right : Nat) (run : Except Fault (Memory α)) : Prop :=
  ∃ s' buffer', run = .ok ⟨p ++ full s' ++ q, buffer'⟩ ∧
    buffer'.length = mem.buffer.length ∧ Sorts comp (Presorted comp left right s) s s'

def SortsBelow (comp : α → α → Bool) (fuel : Nat) : Prop :=
  ∀ ⦃mem : Memory α⦄ ⦃p : Cells α⦄ ⦃s : List α⦄ ⦃q : Cells α⦄
    ⦃left right start stop leftRunEnd rightRunBegin : Nat⦄, s.length < fuel →
    Call mem p s q left right start stop leftRunEnd rightRunBegin →
    Returns comp mem p s q left right
      (peeksortImpl comp fuel start stop leftRunEnd rightRunBegin mem)

section Shapes

variable {fuel : Nat} {mem : Memory α} {p : Cells α} {s : List α} {q : Cells α}
  {left right start stop leftRunEnd rightRunBegin : Nat}
  (ih : SortsBelow comp fuel)
  (call : Call mem p s q left right start stop leftRunEnd rightRunBegin)
  (hfuel : s.length ≤ fuel) (hleft : left < s.length) (hright : 0 < right)

include ih call hfuel hleft hright

theorem returns_leftRun (hpos : 0 < left) :
    Returns comp mem p s q left right (do
      let afterRun ← next mem.range.length leftRunEnd
      let mem ← peeksortImpl comp fuel leftRunEnd stop afterRun rightRunBegin mem
      mergeSortedRunsInPlace comp start leftRunEnd stop mem) := by
  obtain ⟨hrange, hbuffer, -, hrightLe, hapart, rfl, rfl, rfl, rfl⟩ := call
  have hle : left ≤ right := by omega
  obtain ⟨l, r, rfl, rfl⟩ := exists_split (Nat.le_of_lt hleft)
  rw [List.length_append] at hfuel hleft hbuffer hrightLe hapart
  have hnext : next mem.range.length (p.length + l.length) = .ok (p.length + l.length + 1) :=
    next_of_lt (by rw [hrange]; simp; omega)
  obtain ⟨r', buffer₁, hrun, hlen₁, hsorts⟩ := @ih mem (p ++ full l) r q 1 (right - l.length)
    (p.length + l.length) (p.length + (l ++ r).length) (p.length + l.length + 1)
    (p.length + right) (by omega) ⟨by simp [hrange], by omega, by omega, by omega, by omega,
      by simp, by simp; omega, by simp, by simp; omega⟩
  obtain ⟨buffer₂, hmerge, hlen₂⟩ := @mergeSortedRunsInPlace_merges α comp
    ⟨p ++ full l ++ full r' ++ q, buffer₁⟩ p q l r' p.length (p.length + l.length)
    (p.length + (l ++ r).length) (by simp)
    (by rw [← hsorts.perm.length_eq]; exact hbuffer.trans_eq hlen₁.symm) rfl rfl
    (by rw [← hsorts.perm.length_eq]; simp; omega)
  refine ⟨l.merge r' (inOrder comp), buffer₂, ?_, hlen₂.trans hlen₁, ?_⟩
  · rw [hnext, bind_ok, hrun, bind_ok, hmerge]
  · refine ((Sorts.refl l).merge hsorts).mono fun _ h => ⟨?_, ?_, h.back hle⟩
    · have hl := h.front (Nat.le_refl _)
      rwa [List.take_length] at hl
    · exact pairwise_of_length_le_one (by rw [List.length_take]; omega)

theorem returns_rightRun (hlt : right < s.length) :
    Returns comp mem p s q left right (do
      let beforeRun ← prev rightRunBegin
      let mem ← peeksortImpl comp fuel start rightRunBegin leftRunEnd beforeRun mem
      mergeSortedRunsInPlace comp start rightRunBegin stop mem) := by
  obtain ⟨hrange, hbuffer, -, -, hapart, rfl, rfl, rfl, rfl⟩ := call
  have hle : left ≤ right := by omega
  obtain ⟨l, r, rfl, rfl⟩ := exists_split (Nat.le_of_lt hlt)
  rw [List.length_append] at hfuel hlt hbuffer
  obtain ⟨k, hk⟩ : ∃ k, l.length = k + 1 := ⟨l.length - 1, by omega⟩
  obtain ⟨l', buffer₁, hrun, hlen₁, hsorts⟩ := @ih mem p l (full r ++ q) left k
    p.length (p.length + l.length) (p.length + left) (p.length + k) (by omega)
    ⟨by simp [hrange], by omega, hle, by omega, by omega, rfl, rfl, rfl, rfl⟩
  obtain ⟨buffer₂, hmerge, hlen₂⟩ := @mergeSortedRunsInPlace_merges α comp
    ⟨p ++ full l' ++ (full r ++ q), buffer₁⟩ p q l' r p.length (p.length + l.length)
    (p.length + (l ++ r).length) (by simp)
    (by rw [← hsorts.perm.length_eq]; exact hbuffer.trans_eq hlen₁.symm) rfl
    (by rw [← hsorts.perm.length_eq]) (by simp; omega)
  refine ⟨l'.merge r (inOrder comp), buffer₂, ?_, hlen₂.trans hlen₁, ?_⟩
  · have hprev : prev (p.length + l.length) = .ok (p.length + k) := by
      rw [hk]
      exact prev_succ _
    rw [hprev, bind_ok, hrun, bind_ok, hmerge]
  · refine (hsorts.merge (Sorts.refl r)).mono fun _ h => ⟨⟨h.front hle, ?_⟩, ?_⟩
    · exact pairwise_of_length_le_one (by rw [List.length_drop]; omega)
    · have hr := h.back (Nat.le_refl _)
      rwa [Nat.sub_self, List.drop_zero] at hr

omit hleft hright

theorem returns_splitBefore {x u y : List α} (hs : s = x ++ u ++ y) (hu : Sorts comp True u u)
    (hx : left ≤ x.length) (hy : x.length + u.length ≤ right) (hpos : 0 < x.length)
    (hne : 0 < u.length) :
    Returns comp mem p s q left right (do
      let beforeRun ← prev (p.length + x.length)
      let mem ← peeksortImpl comp fuel start (p.length + x.length) leftRunEnd beforeRun mem
      let mem ← peeksortImpl comp fuel (p.length + x.length) stop
        (p.length + x.length + u.length) rightRunBegin mem
      mergeSortedRunsInPlace comp start (p.length + x.length) stop mem) := by
  obtain ⟨hrange, hbuffer, -, hrightLe, -, rfl, rfl, rfl, rfl⟩ := call
  obtain rfl := hs
  simp only [List.length_append] at hfuel hbuffer hrightLe
  obtain ⟨k, hk⟩ : ∃ k, x.length = k + 1 := ⟨x.length - 1, by omega⟩
  have hprev : prev (p.length + x.length) = .ok (p.length + k) := by
    rw [hk]
    exact prev_succ _
  obtain ⟨x', buffer₁, hrun₁, hlen₁, hsorts₁⟩ := @ih mem p x (full (u ++ y) ++ q) left k
    p.length (p.length + x.length) (p.length + left) (p.length + k) (by omega)
    ⟨by simp [hrange], by omega, hx, by omega, by omega, rfl, rfl, rfl, rfl⟩
  have hx' : x'.length = x.length := hsorts₁.perm.length_eq.symm
  obtain ⟨z, buffer₂, hrun₂, hlen₂, hsorts₂⟩ := @ih ⟨p ++ full x' ++ (full (u ++ y) ++ q), buffer₁⟩
    (p ++ full x') (u ++ y) q u.length (right - x.length)
    (p.length + x.length) (p.length + (x ++ u ++ y).length) (p.length + x.length + u.length)
    (p.length + right) (by simp; omega) ⟨by simp, by simp [hlen₁]; omega, by simp, by simp; omega,
      by omega, by simp [hx'], by simp [hx']; omega, by simp [hx'], by simp [hx']; omega⟩
  have hz : z.length = u.length + y.length := by
    rw [← hsorts₂.perm.length_eq, List.length_append]
  obtain ⟨buffer₃, hmerge, hlen₃⟩ := @mergeSortedRunsInPlace_merges α comp
    ⟨p ++ full x' ++ full z ++ q, buffer₂⟩ p q x' z p.length (p.length + x.length)
    (p.length + (x ++ u ++ y).length) (by simp) (by simp [hlen₂, hlen₁]; omega) rfl
    (by rw [hx']) (by simp [hz]; omega)
  refine ⟨x'.merge z (inOrder comp), buffer₃, ?_, hlen₃.trans (hlen₂.trans hlen₁), ?_⟩
  · rw [hprev, bind_ok, hrun₁, bind_ok, hrun₂, bind_ok, hmerge]
  · rw [List.append_assoc]
    refine (hsorts₁.merge hsorts₂).mono fun hcomp h => ⟨⟨h.front hx, ?_⟩, ?_, h.back (by omega)⟩
    · exact pairwise_of_length_le_one (by rw [List.length_drop]; omega)
    · rw [List.take_left]
      exact (hu.stable hcomp trivial).sorted

theorem returns_splitAfter {x u y : List α} (hs : s = x ++ u ++ y) (hu : Sorts comp True u u)
    (hx : left ≤ x.length) (hy : x.length + u.length ≤ right) (hpos : 0 < x.length + u.length)
    (hlt : 0 < y.length) :
    Returns comp mem p s q left right (do
      let mem ← peeksortImpl comp fuel start (p.length + x.length + u.length) leftRunEnd
        (p.length + x.length) mem
      let afterRun ← next mem.range.length (p.length + x.length + u.length)
      let mem ← peeksortImpl comp fuel (p.length + x.length + u.length) stop afterRun
        rightRunBegin mem
      mergeSortedRunsInPlace comp start (p.length + x.length + u.length) stop mem) := by
  obtain ⟨hrange, hbuffer, -, hrightLe, -, rfl, rfl, rfl, rfl⟩ := call
  obtain rfl := hs
  simp only [List.length_append] at hfuel hbuffer hrightLe
  obtain ⟨z, buffer₁, hrun₁, hlen₁, hsorts₁⟩ := @ih mem p (x ++ u) (full y ++ q) left x.length
    p.length (p.length + x.length + u.length) (p.length + left) (p.length + x.length)
    (by simp; omega) ⟨by simp [hrange], by simp; omega, by simp; omega, by simp, by omega, rfl,
      by simp; omega, rfl, rfl⟩
  have hz : z.length = x.length + u.length := by
    rw [← hsorts₁.perm.length_eq, List.length_append]
  have hnext : next (p ++ full z ++ (full y ++ q)).length (p.length + x.length + u.length) =
      .ok (p.length + x.length + u.length + 1) := next_of_lt (by simp [hz]; omega)
  obtain ⟨y', buffer₂, hrun₂, hlen₂, hsorts₂⟩ := @ih ⟨p ++ full z ++ (full y ++ q), buffer₁⟩
    (p ++ full z) y q 1 (right - (x.length + u.length))
    (p.length + x.length + u.length) (p.length + (x ++ u ++ y).length)
    (p.length + x.length + u.length + 1) (p.length + right) (by omega)
    ⟨by simp, by simp [hlen₁]; omega, by omega, by omega, by omega, by simp [hz]; omega,
      by simp [hz]; omega, by simp [hz]; omega, by simp [hz]; omega⟩
  have hy' : y'.length = y.length := hsorts₂.perm.length_eq.symm
  obtain ⟨buffer₃, hmerge, hlen₃⟩ := @mergeSortedRunsInPlace_merges α comp
    ⟨p ++ full z ++ full y' ++ q, buffer₂⟩ p q z y' p.length (p.length + x.length + u.length)
    (p.length + (x ++ u ++ y).length) (by simp) (by simp [hlen₂, hlen₁]; omega) rfl
    (by rw [hz]; omega) (by simp [hy']; omega)
  refine ⟨z.merge y' (inOrder comp), buffer₃, ?_, hlen₃.trans (hlen₂.trans hlen₁), ?_⟩
  · rw [hrun₁, bind_ok, hnext, bind_ok, hrun₂, bind_ok, hmerge]
  · refine (hsorts₁.merge hsorts₂).mono fun hcomp h => ⟨⟨?_, ?_⟩, ?_, ?_⟩
    · rw [List.append_assoc] at h
      rw [List.take_append_of_le_length hx]
      exact h.front hx
    · rw [List.drop_left]
      exact (hu.stable hcomp trivial).sorted
    · exact pairwise_of_length_le_one (by rw [List.length_take]; omega)
    · have hback := h.back (by rwa [List.length_append])
      rwa [List.length_append] at hback

end Shapes

theorem Returns.of_part {mem mem' : Memory α} {p q : Cells α} {x u u' y : List α}
    {left right : Nat} {run : Except Fault (Memory α)} (hu : Sorts comp True u u')
    (hx : left ≤ x.length) (hy : x.length + u.length ≤ right)
    (hbuffer : mem.buffer.length = mem'.buffer.length)
    (h : Returns comp mem' p (x ++ u' ++ y) q left right run) :
    Returns comp mem p (x ++ u ++ y) q left right run := by
  obtain ⟨s', buffer', hrun, hlen, hsorts⟩ := h
  exact ⟨s', buffer', hrun, hlen.trans hbuffer.symm, Sorts.of_part hu
    (hsorts.mono fun _ hs => hs.of_part hu.perm.length_eq hx hy)⟩

theorem returns_middleRun {fuel : Nat} {mem : Memory α} {p : Cells α} {s : List α} {q : Cells α}
    {left right start stop leftRunEnd rightRunBegin : Nat} (ih : SortsBelow comp fuel)
    (call : Call mem p s q left right start stop leftRunEnd rightRunBegin)
    (hfuel : s.length ≤ fuel) (hleft : left < s.length / 2) (hright : s.length / 2 < right) :
    Returns comp mem p s q left right (do
      let (range, i, j) ← findMiddleRun comp mem.range (start + s.length / 2) leftRunEnd
        rightRunBegin
      let mem : Memory α := { mem with range }
      if i = start ∧ j = stop then return mem
      else if ((start + s.length / 2 : Nat) : Int) - i <
          (j : Int) - (start + s.length / 2 : Nat) then do
        let beforeRun ← prev i
        let mem ← peeksortImpl comp fuel start i leftRunEnd beforeRun mem
        let mem ← peeksortImpl comp fuel i stop j rightRunBegin mem
        mergeSortedRunsInPlace comp start i stop mem
      else do
        let mem ← peeksortImpl comp fuel start j leftRunEnd i mem
        let afterRun ← next mem.range.length j
        let mem ← peeksortImpl comp fuel j stop afterRun rightRunBegin mem
        mergeSortedRunsInPlace comp start j stop mem) := by
  obtain ⟨x, u, y, u', hs, hx, hxm, hum, hy, hsorts, hfind⟩ :=
    findMiddleRun_sorts comp p q hleft hright call.right_le
  have hlen : u.length = u'.length := hsorts.perm.length_eq
  have hslen : s.length = x.length + u.length + y.length := by
    rw [hs, List.length_append, List.length_append]
  have hs' : (x ++ u ++ y).length = s.length := by rw [hs]
  have hslen' : (x ++ u' ++ y).length = s.length := by
    rw [hslen, hlen, List.length_append, List.length_append]
  have hsorted : Sorts comp True u' u' :=
    (Sorts.refl u').mono fun hcomp _ => (hsorts.stable hcomp trivial).sorted
  have hcall : Call ⟨p ++ full (x ++ u' ++ y) ++ q, mem.buffer⟩ p (x ++ u' ++ y) q left right start
      stop leftRunEnd rightRunBegin := by
    obtain ⟨-, hbuffer, hleftLe, hrightLe, hapart, hstart, hstop, hleftRun, hrightRun⟩ := call
    exact ⟨rfl, by rwa [hslen'], by rwa [hslen'], by rwa [hslen'], by rwa [hslen'], hstart,
      by rwa [hslen'], hleftRun, hrightRun⟩
  rw [call.leftRunEnd_eq, call.rightRunBegin_eq, call.range, call.start_eq, hfind, bind_ok, hs]
  rw [call.leftRunEnd_eq, call.rightRunBegin_eq, call.start_eq] at hcall
  refine @Returns.of_part α comp mem ⟨p ++ full (x ++ u' ++ y) ++ q, mem.buffer⟩ p q x u u' y left
    right _ hsorts hx hy rfl ?_
  dsimp only
  split
  next hall =>
    rw [call.stop_eq] at hall
    obtain rfl : x = [] := List.eq_nil_of_length_eq_zero (by omega)
    obtain rfl : y = [] := List.eq_nil_of_length_eq_zero (by omega)
    refine ⟨[] ++ u' ++ [], mem.buffer, rfl, rfl, ?_⟩
    rw [List.nil_append, List.append_nil]
    exact hsorted.mono fun _ _ => trivial
  next hpart =>
    rw [call.stop_eq] at hpart
    split
    next hbefore =>
      rw [hlen] at hbefore ⊢
      exact returns_splitBefore ih hcall (by omega) rfl hsorted hx (by omega) (by omega) (by omega)
    next hafter =>
      rw [hlen] at hafter ⊢
      exact returns_splitAfter ih hcall (by omega) rfl hsorted hx (by omega) (by omega) (by omega)

theorem peeksortImpl_sorts (comp : α → α → Bool) (fuel : Nat) : SortsBelow comp fuel := by
  induction fuel with
  | zero =>
    intro _ _ s _ _ _ _ _ _ _ h
    exact absurd h (Nat.not_lt_zero s.length)
  | succ fuel ih =>
    intro mem p s q left right start stop leftRunEnd rightRunBegin hfuel call
    have hfuel' : s.length ≤ fuel := Nat.le_of_lt_succ hfuel
    have hdistance : distance start stop = .ok s.length := by
      rw [call.start_eq, call.stop_eq, distance_of_le (Nat.le_add_right _ _),
        Nat.add_sub_cancel_left]
    rw [peeksortImpl]
    split
    next hdone =>
      -- one of the runs is everything
      rw [call.leftRunEnd_eq, call.rightRunBegin_eq, call.start_eq, call.stop_eq] at hdone
      refine ⟨s, mem.buffer, by rw [← call.range], rfl, ?_⟩
      refine (Sorts.refl s).mono fun _ h => ?_
      rcases hdone with hdone | hdone
      · have hs := h.1
        rwa [Nat.add_left_cancel hdone, List.take_length] at hs
      · have hs := h.2
        rwa [show right = 0 by omega, List.drop_zero] at hs
    next hgoes =>
      rw [call.leftRunEnd_eq, call.rightRunBegin_eq, call.start_eq, call.stop_eq] at hgoes
      have hleft : left < s.length := by have := call.left_le; omega
      have hright : 0 < right := by omega
      rw [hdistance, bind_ok]
      split
      next hsmall =>
        obtain ⟨s', hrun, hs'⟩ := insertionsort_sorts comp p s q
        refine ⟨s', mem.buffer, ?_, rfl, hs'.mono fun _ _ => trivial⟩
        rw [call.start_eq, call.stop_eq, call.range, hrun]
        rfl
      next hlarge =>
        rw [insertionsortThreshold, Nat.not_le] at hlarge
        dsimp only
        split
        next hlong =>
          rw [call.start_eq, call.leftRunEnd_eq] at hlong
          exact returns_leftRun ih call hfuel' hleft hright (by omega)
        next hshort =>
          rw [call.start_eq, call.leftRunEnd_eq] at hshort
          split
          next hlong =>
            rw [call.start_eq, call.rightRunBegin_eq] at hlong
            exact returns_rightRun ih call hfuel' hleft hright (by omega)
          next hshort' =>
            rw [call.start_eq, call.rightRunBegin_eq] at hshort'
            exact returns_middleRun ih call hfuel' (by omega) (by omega)

theorem peeksortImpl_full [Inhabited α] (comp : α → α → Bool) (s : List α) :
    ∃ s' buffer', peeksortImpl comp (s.length + 1) 0 s.length 0 s.length
        ⟨full s, List.replicate s.length (some default)⟩ = .ok ⟨full s', buffer'⟩ ∧
      Sorts comp True s s' := by
  have hcall : Call ⟨full s, List.replicate s.length (some default)⟩ [] s [] 0 s.length 0 s.length 0
      s.length := by
    refine ⟨by simp, by simp, Nat.zero_le _, Nat.le_refl _, .inl (Nat.zero_le _), rfl, ?_, rfl, ?_⟩
    · rw [List.length_nil, Nat.zero_add]
    · rw [List.length_nil, Nat.zero_add]
  obtain ⟨s', buffer', hrun, -, hsorts⟩ :=
    peeksortImpl_sorts comp (s.length + 1) (Nat.lt_succ_self _) hcall
  rw [List.nil_append, List.append_nil] at hrun
  refine ⟨s', buffer', hrun, hsorts.mono fun _ _ => ⟨?_, ?_⟩⟩
  · rw [List.take_zero]
    exact .nil
  · rw [List.drop_length]
    exact .nil

theorem peeksort_sorts [Inhabited α] (comp : α → α → Bool) (s : List α) :
    ∃ s', peeksort comp (full s) = .ok (full s') ∧ Sorts comp True s s' := by
  match s with
  | [] => exact ⟨[], rfl, (Sorts.refl []).mono fun _ _ => .nil⟩
  | [a] => exact ⟨[a], rfl, (Sorts.refl [a]).mono fun _ _ => List.pairwise_singleton _ a⟩
  | [a, b] =>
    show ∃ s', (if comp b a then swap (full [a, b]) 0 1 else .ok (full [a, b])) = _ ∧ _
    cases hlt : comp b a with
    | false =>
      have hchain : [a, b].IsChain fun a b => notFn comp b a = true :=
        .cons_cons (by rw [notFn, hlt, Bool.not_false]) (.singleton b)
      exact ⟨[a, b], rfl, sorts_of_weaklyIncreasing hchain⟩
    | true => exact ⟨[b, a], rfl, sorts_reverse (.cons_cons hlt (.singleton b))⟩
  | a :: b :: c :: s =>
    obtain ⟨s', buffer', hrun, hs'⟩ := peeksortImpl_full comp (a :: b :: c :: s)
    refine ⟨s', ?_, hs'⟩
    have hlen : (full (a :: b :: c :: s)).length = (a :: b :: c :: s).length := List.length_map _
    rw [peeksort, hlen]
    show (peeksortImpl comp _ 0 _ 0 _ _ >>= _) = _
    rw [hrun]
    rfl

/-- For every comparator, `peeksort` ends without leaving its range, and permutes it. For a strict
weak ordering, what is left is the one stable sort. -/
theorem peeksort_stablySorts [Inhabited α] (comp : α → α → Bool) (s : List α) :
    ∃ s', peeksort comp (s.map some) = .ok (s'.map some) ∧ s.Perm s' ∧
      (StrictWeakOrder comp → StablySorts comp s s' ∧ ∀ t, StablySorts comp s t → t = s') := by
  obtain ⟨s', hrun, hs'⟩ := peeksort_sorts comp s
  refine ⟨s', hrun, hs'.perm, fun hcomp => ?_⟩
  have hsorts := hs'.stable hcomp trivial
  exact ⟨hsorts, fun t ht => ht.unique hcomp hsorts⟩

theorem peeksort_stablySorts_tens :
    ∃ s', peeksort (fun a b : Nat => decide (a / 10 < b / 10)) ([21, 15, 20, 11].map some) =
      .ok (s'.map some) ∧
      StablySorts (fun a b : Nat => decide (a / 10 < b / 10)) [21, 15, 20, 11] s' := by
  have hcomp : StrictWeakOrder fun a b : Nat => decide (a / 10 < b / 10) := by
    refine ⟨fun a => ?_, fun a b c hab hbc => ?_, fun a b c hab hbc => ?_⟩
    · simp
    · simp only [decide_eq_true_eq] at hab hbc ⊢
      omega
    · simp only [equiv_iff, decide_eq_false_iff_not] at hab hbc ⊢
      omega
  obtain ⟨s', hrun, -, hs'⟩ :=
    peeksort_stablySorts (fun a b : Nat => decide (a / 10 < b / 10)) [21, 15, 20, 11]
  exact ⟨s', hrun, (hs' hcomp).1⟩

end Nix.Util.PeekSort
