import Mathlib.Data.List.Chain
import Mathlib.Data.List.Sort
import Mathlib.Tactic.Common

/-!
Stable sorting with a comparator: what it means, and how insertion, the reversal of a decreasing
run and the merge of two runs contribute to it.
-/

namespace Nix.Lib.StableSorting

variable {α : Type} (comp : α → α → Bool)

/-- Neither is less than the other. -/
def equiv (a b : α) : Bool :=
  !comp a b && !comp b a

/-- The second is not less than the first. -/
def inOrder (a b : α) : Bool :=
  !comp b a

structure StrictWeakOrder : Prop where
  irrefl : ∀ a, comp a a = false
  trans : ∀ a b c, comp a b = true → comp b c = true → comp a c = true
  equiv_trans : ∀ a b c, equiv comp a b = true → equiv comp b c = true → equiv comp a c = true

/-- Elements that are equivalent keep their order. -/
def Keeps (l l' : List α) : Prop :=
  ∀ a, l.filter (equiv comp a) = l'.filter (equiv comp a)

/-- `l'` is `l` sorted, with equivalent elements in their order. -/
structure StablySorts (l l' : List α) : Prop where
  sorted : l'.Pairwise (inOrder comp · ·)
  keeps : Keeps comp l l'

variable {comp}

theorem equiv_iff {a b : α} : equiv comp a b = true ↔ comp a b = false ∧ comp b a = false := by
  rw [equiv, Bool.and_eq_true, Bool.not_eq_true', Bool.not_eq_true']

theorem inOrder_iff {a b : α} : inOrder comp a b = true ↔ comp b a = false := by
  rw [inOrder, Bool.not_eq_true']

theorem equiv_of_lt {a b : α} (h : comp a b = true) : equiv comp a b = false := by
  rw [equiv, h, Bool.not_true, Bool.false_and]

theorem equiv_of_gt {a b : α} (h : comp b a = true) : equiv comp a b = false := by
  rw [equiv, h, Bool.not_true, Bool.and_false]

theorem equiv_symm {a b : α} (h : equiv comp a b = true) : equiv comp b a = true :=
  equiv_iff.mpr (equiv_iff.mp h).symm

namespace StrictWeakOrder

variable (h : StrictWeakOrder comp)

include h

theorem asymm {a b : α} (hab : comp a b = true) : comp b a = false := by
  by_contra hba
  have haa := h.trans a b a hab (by simpa using hba)
  rw [h.irrefl a] at haa
  cases haa

theorem total (a b : α) : (inOrder comp a b || inOrder comp b a) = true := by
  cases hab : comp b a with
  | false => rw [inOrder_iff.mpr hab, Bool.true_or]
  | true => rw [inOrder_iff.mpr (h.asymm hab), Bool.or_true]

theorem inOrder_trans {a b c : α} (hab : inOrder comp a b = true) (hbc : inOrder comp b c = true) :
    inOrder comp a c = true := by
  rw [inOrder_iff] at hab hbc ⊢
  by_contra hca
  rw [Bool.not_eq_false] at hca
  -- otherwise all three are equivalent
  have hab' : comp a b = false := by
    by_contra hlt
    rw [h.trans c a b hca (by simpa using hlt)] at hbc
    cases hbc
  have hbc' : comp b c = false := by
    by_contra hlt
    rw [h.trans b c a (by simpa using hlt) hca] at hab
    cases hab
  have hac := h.equiv_trans a b c (equiv_iff.mpr ⟨hab', hab⟩) (equiv_iff.mpr ⟨hbc', hbc⟩)
  rw [(equiv_iff.mp hac).2] at hca
  cases hca

theorem inOrder_of_lt {a b : α} (hab : comp a b = true) : inOrder comp a b = true :=
  inOrder_iff.mpr (h.asymm hab)

theorem lt_of_lt_of_inOrder {a b c : α} (hab : comp a b = true) (hbc : inOrder comp b c = true) :
    comp a c = true := by
  by_contra hac
  rw [Bool.not_eq_true] at hac
  have hba := inOrder_iff.mp (h.inOrder_trans hbc (inOrder_iff.mpr hac))
  rw [hab] at hba
  cases hba

end StrictWeakOrder

/-! ### Keeping the order of equivalent elements -/

theorem Keeps.refl (l : List α) : Keeps comp l l :=
  fun _ => rfl

theorem Keeps.trans {l l' l'' : List α} (h : Keeps comp l l') (h' : Keeps comp l' l'') :
    Keeps comp l l'' :=
  fun a => (h a).trans (h' a)

theorem Keeps.append {l l' r r' : List α} (h : Keeps comp l l') (h' : Keeps comp r r') :
    Keeps comp (l ++ r) (l' ++ r') := by
  intro a
  rw [List.filter_append, List.filter_append, h a, h' a]

theorem Keeps.cons (a : α) {l l' : List α} (h : Keeps comp l l') : Keeps comp (a :: l) (a :: l') :=
  (Keeps.refl [a]).append h

/-- An element may pass elements of other classes. -/
theorem keeps_move (h : StrictWeakOrder comp) {a : α} {l : List α}
    (hl : ∀ b ∈ l, equiv comp a b = false) (r : List α) :
    Keeps comp (l ++ a :: r) (a :: (l ++ r)) := by
  intro c
  rw [List.filter_append, List.filter_cons, List.filter_cons, List.filter_append]
  split
  next hca =>
    have hnone : l.filter (equiv comp c) = [] := by
      rw [List.filter_eq_nil_iff]
      intro b hb hcb
      have hab := h.equiv_trans a c b (equiv_symm hca) hcb
      rw [hl b hb] at hab
      cases hab
    rw [hnone, List.nil_append, List.nil_append]
  next => rfl

theorem keeps_moveBack (h : StrictWeakOrder comp) {a : α} {l : List α}
    (hl : ∀ b ∈ l, equiv comp a b = false) : Keeps comp (a :: l) (l ++ [a]) := by
  have hmove := keeps_move h hl []
  rw [List.append_nil] at hmove
  exact fun c => (hmove c).symm

theorem mem_of_keeps (h : StrictWeakOrder comp) {l l' : List α} (hk : Keeps comp l l') {a : α}
    (ha : a ∈ l) : a ∈ l' := by
  have hself : equiv comp a a = true := equiv_iff.mpr ⟨h.irrefl a, h.irrefl a⟩
  have hmem : a ∈ l.filter (equiv comp a) := List.mem_filter.mpr ⟨ha, hself⟩
  rw [hk a] at hmem
  exact (List.mem_filter.mp hmem).1

namespace StablySorts

theorem refl {l : List α} (hl : l.Pairwise (inOrder comp · ·)) : StablySorts comp l l :=
  ⟨hl, Keeps.refl l⟩

theorem of_length_le_one {l : List α} (hl : l.length ≤ 1) : StablySorts comp l l := by
  refine refl ?_
  match l, hl with
  | [], _ => exact List.Pairwise.nil
  | [a], _ => exact List.pairwise_singleton _ a

theorem of_keeps {l l' l'' : List α} (hk : Keeps comp l l') (h : StablySorts comp l' l'') :
    StablySorts comp l l'' :=
  ⟨h.sorted, hk.trans h.keeps⟩

/-- There is one way to sort a list stably. -/
theorem unique (h : StrictWeakOrder comp) {l l' l'' : List α} (h' : StablySorts comp l l')
    (h'' : StablySorts comp l l'') : l' = l'' := by
  have hk : Keeps comp l' l'' := fun a => (h'.keeps a).symm.trans (h''.keeps a)
  have hs' := h'.sorted
  have hs'' := h''.sorted
  clear h' h''
  induction l' generalizing l'' with
  | nil =>
    cases l'' with
    | nil => rfl
    | cons b t => cases mem_of_keeps h (fun a => (hk a).symm) (List.mem_cons_self (a := b))
  | cons a t ih =>
    cases l'' with
    | nil => cases mem_of_keeps h hk (List.mem_cons_self (a := a))
    | cons b u =>
      rw [List.pairwise_cons] at hs' hs''
      have hrefl : ∀ c : α, inOrder comp c c = true := fun c => inOrder_iff.mpr (h.irrefl c)
      have hab : inOrder comp a b = true := by
        rcases List.mem_cons.mp (mem_of_keeps h (fun c => (hk c).symm) List.mem_cons_self) with
          rfl | hb
        · exact hrefl _
        · exact hs'.1 b hb
      have hba : inOrder comp b a = true := by
        rcases List.mem_cons.mp (mem_of_keeps h hk List.mem_cons_self) with rfl | ha
        · exact hrefl _
        · exact hs''.1 a ha
      have hclass : equiv comp a b = true :=
        equiv_iff.mpr ⟨inOrder_iff.mp hba, inOrder_iff.mp hab⟩
      have hself : equiv comp a a = true := equiv_iff.mpr ⟨h.irrefl a, h.irrefl a⟩
      have hheads := hk a
      rw [List.filter_cons_of_pos hself, List.filter_cons_of_pos hclass, List.cons.injEq] at hheads
      obtain ⟨rfl, -⟩ := hheads
      have htails : Keeps comp t u := by
        intro c
        have hc := hk c
        rw [List.filter_cons, List.filter_cons] at hc
        split at hc
        · exact List.cons.inj hc |>.2
        · exact hc
      rw [ih htails hs'.2 hs''.2]

end StablySorts

/-! ### Runs -/

theorem pairwise_of_weaklyIncreasing (h : StrictWeakOrder comp) {l : List α}
    (hl : l.IsChain fun a b => comp b a = false) : l.Pairwise (inOrder comp · ·) := by
  have : Trans (inOrder comp · ·) (inOrder comp · ·) (inOrder comp · ·) := ⟨h.inOrder_trans⟩
  exact List.isChain_iff_pairwise.mp (hl.imp fun _ _ hab => inOrder_iff.mpr hab)

/-- A strictly decreasing run has no two elements of one class. -/
theorem stablySorts_reverse (h : StrictWeakOrder comp) {l : List α}
    (hl : l.IsChain fun a b => comp b a = true) : StablySorts comp l l.reverse := by
  have : Trans (fun a b => comp b a = true) (fun a b => comp b a = true)
      (fun a b => comp b a = true) := ⟨fun {a b c} hab hbc => h.trans c b a hbc hab⟩
  have hp : l.Pairwise fun a b => comp b a = true := List.isChain_iff_pairwise.mp hl
  refine ⟨List.pairwise_reverse.mpr (hp.imp fun hab => h.inOrder_of_lt hab), ?_⟩
  clear hl
  induction l with
  | nil => exact Keeps.refl []
  | cons a l ih =>
    rw [List.pairwise_cons] at hp
    rw [List.reverse_cons]
    refine (Keeps.cons a (ih hp.2)).trans (keeps_moveBack h ?_)
    intro b hb
    exact equiv_of_gt (hp.1 b (List.mem_reverse.mp hb))

/-! ### Insertion -/

/-- `a` goes back from the end of the list until it is not less than the element before it. -/
inductive Inserts (comp : α → α → Bool) (a : α) : List α → List α → Prop
  | first : Inserts comp a [] [a]
  | stop {l : List α} {b : α} : comp a b = false → Inserts comp a (l ++ [b]) (l ++ [b] ++ [a])
  | pass {l l' : List α} {b : α} :
      comp a b = true → Inserts comp a l l' → Inserts comp a (l ++ [b]) (l' ++ [b])

theorem Inserts.perm {a : α} {l l' : List α} (hi : Inserts comp a l l') : (l ++ [a]).Perm l' := by
  induction hi with
  | first => exact .refl _
  | stop => exact .refl _
  | @pass l l' b _ _ ih =>
    rw [List.append_assoc]
    exact (List.Perm.append_left l (List.Perm.swap a b [])).trans
      (by simpa using ih.append_right [b])

theorem Inserts.stablySorts (h : StrictWeakOrder comp) {a : α} {l l' : List α}
    (hi : Inserts comp a l l') (hl : l.Pairwise (inOrder comp · ·)) :
    StablySorts comp (l ++ [a]) l' := by
  induction hi with
  | first => exact StablySorts.of_length_le_one (Nat.le_refl 1)
  | @stop l b hlt =>
    refine StablySorts.refl (List.pairwise_append.mpr ⟨hl, List.pairwise_singleton _ a, ?_⟩)
    intro x hx y hy
    rw [List.mem_singleton.mp hy]
    have hba : inOrder comp b a = true := inOrder_iff.mpr hlt
    rcases List.mem_append.mp hx with hx | hx
    · exact h.inOrder_trans ((List.pairwise_append.mp hl).2.2 x hx b (List.mem_singleton_self b))
        hba
    · rwa [List.mem_singleton.mp hx]
  | @pass l l' b hlt hi ih =>
    obtain ⟨hpair, -, hlast⟩ := List.pairwise_append.mp hl
    have hsorts := ih hpair
    refine ⟨List.pairwise_append.mpr ⟨hsorts.sorted, List.pairwise_singleton _ b, ?_⟩, ?_⟩
    · intro x hx y hy
      rw [List.mem_singleton.mp hy]
      rcases List.mem_append.mp (hi.perm.mem_iff.mpr hx) with hx | hx
      · exact hlast x hx b (List.mem_singleton_self b)
      · rw [List.mem_singleton.mp hx]
        exact h.inOrder_of_lt hlt
    · have hswap : Keeps comp (l ++ [b] ++ [a]) (l ++ [a] ++ [b]) := by
        rw [List.append_assoc, List.append_assoc]
        refine (Keeps.refl l).append (keeps_moveBack h ?_)
        intro x hx
        rw [List.mem_singleton.mp hx]
        exact equiv_of_gt hlt
      exact hswap.trans (hsorts.keeps.append (Keeps.refl [b]))

/-! ### Merging -/

theorem keeps_merge (h : StrictWeakOrder comp) {l : List α} (r : List α)
    (hl : l.Pairwise (inOrder comp · ·)) : Keeps comp (l ++ r) (l.merge r (inOrder comp)) := by
  induction l generalizing r with
  | nil =>
    rw [List.nil_merge]
    exact Keeps.refl r
  | cons a l ih =>
    induction r with
    | nil =>
      rw [List.merge_right, List.append_nil]
      exact Keeps.refl _
    | cons b r ihr =>
      rw [List.cons_merge_cons]
      split
      next => exact Keeps.cons a (ih (b :: r) hl.tail)
      next hlt =>
        rw [inOrder_iff, Bool.not_eq_false] at hlt
        -- what is taken from the right is less than all that is left on the left
        refine (keeps_move h ?_ r).trans (Keeps.cons b ihr)
        intro x hx
        rcases List.mem_cons.mp hx with rfl | hx
        · exact equiv_of_lt hlt
        · exact equiv_of_lt (h.lt_of_lt_of_inOrder hlt ((List.pairwise_cons.mp hl).1 x hx))

theorem StablySorts.merge (h : StrictWeakOrder comp) {l l' r r' : List α}
    (hl : StablySorts comp l l') (hr : StablySorts comp r r') :
    StablySorts comp (l ++ r) (l'.merge r' (inOrder comp)) := by
  refine ⟨?_, (hl.keeps.append hr.keeps).trans (keeps_merge h r' hl.sorted)⟩
  exact @List.pairwise_merge α (inOrder comp) (fun _ _ _ => h.inOrder_trans) h.total l' r' hl.sorted
    hr.sorted

end Nix.Lib.StableSorting
