import Mathlib.Data.Finset.Card
import Mathlib.Data.List.Nodup
import Mathlib.Data.Set.Finite.Basic
import Mathlib.Tactic.Common

/-!
Breadth-first searches of elements that are told apart by their keys: the first element of a key
is kept, and its successors are found after everything that was found before.
-/

namespace Nix.Lib.BreadthFirst

variable {α κ : Type} [DecidableEq κ]

/-- The elements with new keys, and the first one only of each key. -/
def firsts (key : α → κ) : List κ → List α → List α
  | _, [] => []
  | seen, a :: l =>
      if key a ∈ seen then firsts key seen l else a :: firsts key (key a :: seen) l

section Firsts

variable {key : α → κ} {seen : List κ} {l l' : List α} {a : α}

/-- The keys that have been seen after a list. -/
def seenAfter (key : α → κ) (seen : List κ) (l : List α) : List κ :=
  ((firsts key seen l).map key).reverse ++ seen

theorem firsts_cons_of_mem (h : key a ∈ seen) : firsts key seen (a :: l) = firsts key seen l :=
  if_pos h

theorem firsts_cons_of_notMem (h : key a ∉ seen) :
    firsts key seen (a :: l) = a :: firsts key (key a :: seen) l :=
  if_neg h

theorem seenAfter_cons_of_mem (h : key a ∈ seen) :
    seenAfter key seen (a :: l) = seenAfter key seen l := by
  rw [seenAfter, firsts_cons_of_mem h]
  rfl

theorem seenAfter_cons_of_notMem (h : key a ∉ seen) :
    seenAfter key seen (a :: l) = seenAfter key (key a :: seen) l := by
  rw [seenAfter, firsts_cons_of_notMem h, List.map_cons, List.reverse_cons, List.append_assoc]
  rfl

theorem firsts_append : firsts key seen (l ++ l') =
    firsts key seen l ++ firsts key (seenAfter key seen l) l' := by
  induction l generalizing seen with
  | nil => rfl
  | cons a l ih =>
    by_cases h : key a ∈ seen
    · rw [List.cons_append, firsts_cons_of_mem h, firsts_cons_of_mem h, seenAfter_cons_of_mem h, ih]
    · rw [List.cons_append, firsts_cons_of_notMem h, firsts_cons_of_notMem h,
        seenAfter_cons_of_notMem h, ih]
      rfl

theorem seenAfter_append :
    seenAfter key seen (l ++ l') = seenAfter key (seenAfter key seen l) l' := by
  rw [seenAfter, firsts_append, List.map_append, List.reverse_append, List.append_assoc]
  rfl

/-- The keys that have been seen are the old ones and those of the list. -/
theorem mem_seenAfter {k : κ} :
    k ∈ seenAfter key seen l ↔ k ∈ seen ∨ ∃ a ∈ l, key a = k := by
  induction l generalizing seen with
  | nil => simp [seenAfter, firsts]
  | cons a l ih =>
    by_cases h : key a ∈ seen
    · rw [seenAfter_cons_of_mem h, ih, List.exists_mem_cons_iff]
      refine ⟨Or.imp_right .inr, ?_⟩
      rintro (hk | rfl | hk)
      · exact .inl hk
      · exact .inl h
      · exact .inr hk
    · rw [seenAfter_cons_of_notMem h, ih, List.exists_mem_cons_iff, List.mem_cons, or_assoc,
        or_left_comm, eq_comm]

theorem nodup_seenAfter (h : seen.Nodup) : (seenAfter key seen l).Nodup := by
  induction l generalizing seen with
  | nil => exact h
  | cons a l ih =>
    by_cases ha : key a ∈ seen
    · rw [seenAfter_cons_of_mem ha]
      exact ih h
    · rw [seenAfter_cons_of_notMem ha]
      exact ih (List.nodup_cons.mpr ⟨ha, h⟩)

theorem firsts_sublist : (firsts key seen l).Sublist l := by
  induction l generalizing seen with
  | nil => exact .refl _
  | cons a l ih =>
    by_cases h : key a ∈ seen
    · rw [firsts_cons_of_mem h]
      exact ih.cons a
    · rw [firsts_cons_of_notMem h]
      exact ih.cons_cons a

end Firsts

/-! ### The search -/

variable (key : α → κ) (next : α → List α)

/-- The elements that a queue leads to, in the order in which they are kept. -/
def explore : Nat → List κ → List α → Option (List α)
  | 0, _, _ => none
  | _ + 1, _, [] => some []
  | fuel + 1, seen, a :: queue =>
      if key a ∈ seen then explore fuel seen queue
      else (a :: ·) <$> explore fuel (key a :: seen) (queue ++ next a)

/-- The elements that are found after a number of steps. -/
def frontier (start : List α) : Nat → List α × List κ
  | 0 => (start, [])
  | n + 1 =>
      let (found, seen) := frontier start n
      ((firsts key seen found).flatMap next, seenAfter key seen found)

/-- All that is found in fewer steps, in breadth-first order. -/
def found (start : List α) (n : Nat) : List α :=
  (List.range n).flatMap fun i => (frontier key next start i).1

section Search

variable {key next} {start : List α}

theorem found_succ (n : Nat) :
    found key next start (n + 1) = found key next start n ++ (frontier key next start n).1 := by
  rw [found, List.range_succ, List.flatMap_append, List.flatMap_singleton]
  rfl

theorem seen_frontier (n : Nat) :
    (frontier key next start n).2 = seenAfter key [] (found key next start n) := by
  induction n with
  | zero => rfl
  | succ n ih =>
    rw [found_succ, seenAfter_append, ← ih]
    rfl

/-- What is at the head of the queue is kept, and its successors go to the end. -/
theorem explore_append (fuel : Nat) (seen : List κ) (l queue : List α) :
    explore key next (fuel + l.length) seen (l ++ queue) =
      (firsts key seen l ++ ·) <$>
        explore key next fuel (seenAfter key seen l)
          (queue ++ (firsts key seen l).flatMap next) := by
  induction l generalizing seen queue with
  | nil =>
    rw [firsts, List.flatMap_nil, List.append_nil]
    exact (id_map _).symm
  | cons a l ih =>
    rw [List.length_cons, ← Nat.add_assoc, List.cons_append, explore]
    by_cases h : key a ∈ seen
    · rw [if_pos h, firsts_cons_of_mem h, seenAfter_cons_of_mem h, ih]
    · rw [if_neg h, firsts_cons_of_notMem h, seenAfter_cons_of_notMem h, List.append_assoc, ih,
        List.flatMap_cons, List.append_assoc, ← comp_map]
      rfl

/-- The search goes from one set of elements to the next. -/
theorem explore_found (n fuel : Nat) :
    explore key next (fuel + (found key next start n).length) [] start =
      (firsts key [] (found key next start n) ++ ·) <$>
        explore key next fuel (frontier key next start n).2 (frontier key next start n).1 := by
  induction n generalizing fuel with
  | zero => exact (id_map _).symm
  | succ n ih =>
    have hstep := @explore_append α κ _ key next fuel (frontier key next start n).2
      (frontier key next start n).1 []
    rw [List.append_nil, List.nil_append] at hstep
    rw [found_succ, List.length_append, Nat.add_comm (found key next start n).length,
      ← Nat.add_assoc, ih, hstep, ← comp_map, firsts_append, ← seen_frontier]
    congr 1
    funext kept
    exact (List.append_assoc _ _ _).symm

theorem explore_eq_some {n : Nat} (h : (frontier key next start n).1 = []) (fuel : Nat) :
    explore key next (fuel + 1 + (found key next start n).length) [] start =
      some (firsts key [] (found key next start n)) := by
  rw [explore_found, h, explore]
  exact congrArg some (List.append_nil _)

/-- The keys that have been seen are those of the elements that are kept. -/
theorem seenAfter_nil (l : List α) :
    seenAfter key [] l = ((firsts key [] l).map key).reverse :=
  List.append_nil _

theorem nodup_firsts (l : List α) : ((firsts key [] l).map key).Nodup := by
  have h : (seenAfter key [] l).Nodup := nodup_seenAfter List.nodup_nil
  rw [seenAfter_nil] at h
  exact List.nodup_reverse.mp h

theorem mem_map_firsts {l : List α} {a : α} (h : a ∈ l) : key a ∈ (firsts key [] l).map key := by
  have hseen : key a ∈ seenAfter key [] l := mem_seenAfter.mpr (.inr ⟨a, h, rfl⟩)
  rw [seenAfter_nil] at hseen
  exact List.mem_reverse.mp hseen

theorem frontier_eq_nil {n m : Nat} (h : (frontier key next start n).1 = []) (hle : n ≤ m) :
    (frontier key next start m).1 = [] := by
  induction m, hle using Nat.le_induction with
  | base => exact h
  | succ m _ ih =>
    show (firsts key _ (frontier key next start m).1).flatMap next = []
    rw [ih]
    rfl

/-- Everything that is found has a key that is kept. -/
theorem mem_map_firsts_found {n m : Nat} (h : (frontier key next start n).1 = []) {a : α}
    (ha : a ∈ (frontier key next start m).1) :
    key a ∈ (firsts key [] (found key next start n)).map key := by
  refine mem_map_firsts (List.mem_flatMap.mpr ⟨m, List.mem_range.mpr ?_, ha⟩)
  by_contra hle
  rw [frontier_eq_nil h (Nat.le_of_not_lt hle)] at ha
  exact List.not_mem_nil ha

/-- Unless nothing new is found any more, one more key has been seen after each step. -/
theorem le_length_seen (h : ∀ n, (frontier key next start n).1 ≠ []) (n : Nat) :
    n ≤ (frontier key next start n).2.length := by
  induction n with
  | zero => exact Nat.zero_le _
  | succ n ih =>
    have hne : firsts key (frontier key next start n).2 (frontier key next start n).1 ≠ [] := by
      intro hnil
      refine h (n + 1) ?_
      show (firsts key _ (frontier key next start n).1).flatMap next = []
      rw [hnil]
      rfl
    have hpos := List.length_pos_of_ne_nil hne
    have hlen : (frontier key next start (n + 1)).2.length =
        (firsts key (frontier key next start n).2 (frontier key next start n).1).length +
          (frontier key next start n).2.length := by
      show (seenAfter key _ (frontier key next start n).1).length = _
      rw [seenAfter, List.length_append, List.length_reverse, List.length_map]
    omega

/-- A search that finds finitely many keys ends. -/
theorem exists_frontier_eq_nil
    (h : {k | ∃ n, ∃ a ∈ (frontier key next start n).1, key a = k}.Finite) :
    ∃ n, (frontier key next start n).1 = [] := by
  by_contra hnone
  have hlen := le_length_seen (fun n hn => hnone ⟨n, hn⟩) (h.toFinset.card + 1)
  have hnodup : (frontier key next start (h.toFinset.card + 1)).2.Nodup := by
    rw [seen_frontier]
    exact nodup_seenAfter List.nodup_nil
  have hsub : (frontier key next start (h.toFinset.card + 1)).2.toFinset ⊆ h.toFinset := by
    intro k hk
    rw [List.mem_toFinset, seen_frontier] at hk
    obtain ⟨a, ha, rfl⟩ := (mem_seenAfter.mp hk).resolve_left List.not_mem_nil
    obtain ⟨n, -, ha⟩ := List.mem_flatMap.mp ha
    exact h.mem_toFinset.mpr ⟨n, a, ha, rfl⟩
  have hcard := Finset.card_le_card hsub
  rw [List.toFinset_card_of_nodup hnodup] at hcard
  omega

/-! ### Reachability -/

/-- What any elements lead to, also those that are not kept. -/
inductive Reaches (next : α → List α) (start : List α) : α → Prop
  | start {a} (h : a ∈ start) : Reaches next start a
  | next {a b} (ha : Reaches next start a) (h : b ∈ next a) : Reaches next start b

theorem reaches_of_mem_frontier {n : Nat} {a : α} (h : a ∈ (frontier key next start n).1) :
    Reaches next start a := by
  induction n generalizing a with
  | zero => exact .start h
  | succ n ih =>
    obtain ⟨b, hb, ha⟩ := List.mem_flatMap.mp h
    exact .next (ih (firsts_sublist.subset hb)) ha

/-- An element is kept for every key that is found. -/
theorem exists_kept {n : Nat} {a : α} (h : a ∈ (frontier key next start n).1) :
    ∃ m, ∃ b ∈ firsts key (frontier key next start m).2 (frontier key next start m).1,
      key b = key a := by
  have hseen : ∀ n, ∀ k ∈ (frontier key next start n).2,
      ∃ m, ∃ b ∈ firsts key (frontier key next start m).2 (frontier key next start m).1,
        key b = k := by
    intro n
    induction n with
    | zero => exact fun k hk => absurd hk List.not_mem_nil
    | succ n ih =>
      intro k hk
      rcases List.mem_append.mp hk with hk | hk
      · obtain ⟨b, hb, rfl⟩ := List.mem_map.mp (List.mem_reverse.mp hk)
        exact ⟨n, b, hb, rfl⟩
      · exact ih k hk
  exact hseen (n + 1) (key a) (mem_seenAfter.mpr (.inr ⟨a, h, rfl⟩))

/-- If successors have the same keys whenever the elements have, every reachable key is found. -/
theorem exists_frontier_of_reaches
    (hnext : ∀ a b, Reaches next start a → Reaches next start b → key a = key b →
      ∀ a' ∈ next a, ∃ b' ∈ next b, key b' = key a')
    {a : α} (h : Reaches next start a) :
    ∃ n, ∃ b ∈ (frontier key next start n).1, key b = key a := by
  induction h with
  | start h => exact ⟨0, _, h, rfl⟩
  | @next a a' ha h ih =>
    obtain ⟨n, b, hb, hkey⟩ := ih
    obtain ⟨m, c, hc, hkey'⟩ := exists_kept hb
    have hreach : Reaches next start c := reaches_of_mem_frontier (firsts_sublist.subset hc)
    obtain ⟨c', hc', heq⟩ := hnext a c ha hreach (hkey'.trans hkey).symm a' h
    exact ⟨m + 1, c', List.mem_flatMap.mpr ⟨c, hc, hc'⟩, heq⟩

end Search

end Nix.Lib.BreadthFirst
