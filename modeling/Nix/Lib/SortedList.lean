import Mathlib.Data.List.Basic
import Mathlib.Data.List.Pairwise
import Mathlib.Order.Compare
import Mathlib.Tactic.Tauto

/-!
Ordered sets and maps over a comparison function, kept as strictly increasing
lists, so that two containers with the same members are equal.
-/

namespace Nix.Lib.SortedList

variable {α κ ν : Type}

/-- Strictly increasing with respect to a comparison function. -/
def StrictlySorted (cmp : α → α → Ordering) (l : List α) : Prop :=
  l.Pairwise fun a b => cmp a b = .lt

instance (cmp : α → α → Ordering) (l : List α) : Decidable (StrictlySorted cmp l) :=
  inferInstanceAs (Decidable (l.Pairwise fun a b => cmp a b = .lt))

/-- Adjacent elements decide. -/
theorem StrictlySorted.cons_cons_iff {cmp : α → α → Ordering} [Std.TransCmp cmp] {a b : α}
    {l : List α} :
    StrictlySorted cmp (a :: b :: l) ↔ cmp a b = .lt ∧ StrictlySorted cmp (b :: l) := by
  constructor
  · intro h
    obtain ⟨hab, hl⟩ := List.pairwise_cons.mp h
    exact ⟨hab b (by simp), hl⟩
  · rintro ⟨hab, hl⟩
    refine List.pairwise_cons.mpr ⟨?_, hl⟩
    intro c hc
    rcases List.mem_cons.mp hc with rfl | hc
    · exact hab
    · exact Std.TransCmp.lt_trans hab ((List.pairwise_cons.mp hl).1 c hc)

/-- Insert an element unless an equivalent one is already there. -/
def insertNew (cmp : α → α → Ordering) (a : α) : List α → List α
  | [] => [a]
  | b :: l =>
      match cmp a b with
      | .lt => a :: b :: l
      | .eq => b :: l
      | .gt => b :: insertNew cmp a l

/-- Insert an element in place of an equivalent one. -/
def insertOver (cmp : α → α → Ordering) (a : α) : List α → List α
  | [] => [a]
  | b :: l =>
      match cmp a b with
      | .lt => a :: b :: l
      | .eq => a :: l
      | .gt => b :: insertOver cmp a l

section Append

variable {cmp : α → α → Ordering}

theorem insertNew_eq_append {a : α} {l : List α} (h : ∀ b ∈ l, cmp a b = .gt) :
    insertNew cmp a l = l ++ [a] := by
  induction l with
  | nil => rfl
  | cons b l ih =>
      rw [insertNew, h b (by simp), ih fun c hc => h c (by simp [hc])]
      rfl

theorem insertOver_eq_append {a : α} {l : List α} (h : ∀ b ∈ l, cmp a b = .gt) :
    insertOver cmp a l = l ++ [a] := by
  induction l with
  | nil => rfl
  | cons b l ih =>
      rw [insertOver, h b (by simp), ih fun c hc => h c (by simp [hc])]
      rfl

variable [Std.OrientedCmp cmp]

theorem gt_of_sorted_append {acc l : List α} {a : α}
    (h : StrictlySorted cmp (acc ++ a :: l)) : ∀ b ∈ acc, cmp a b = .gt := by
  intro b hb
  have hlt := (List.pairwise_append.mp h).2.2 b hb a (by simp)
  exact Std.OrientedCmp.gt_iff_lt.mpr hlt

/-- Inserting the elements of a sorted list in order appends them. -/
theorem foldl_insertNew {acc l : List α} (h : StrictlySorted cmp (acc ++ l)) :
    l.foldl (fun m a => insertNew cmp a m) acc = acc ++ l := by
  induction l generalizing acc with
  | nil => simp
  | cons a l ih =>
      rw [List.foldl_cons, insertNew_eq_append (gt_of_sorted_append h),
        ih (by simpa using h)]
      simp

theorem foldl_insertOver {acc l : List α} (h : StrictlySorted cmp (acc ++ l)) :
    l.foldl (fun m a => insertOver cmp a m) acc = acc ++ l := by
  induction l generalizing acc with
  | nil => simp
  | cons a l ih =>
      rw [List.foldl_cons, insertOver_eq_append (gt_of_sorted_append h),
        ih (by simpa using h)]
      simp

end Append

section Sorted

variable {cmp : α → α → Ordering}

theorem mem_of_mem_insertNew {a b : α} {l : List α} (h : b ∈ insertNew cmp a l) :
    b = a ∨ b ∈ l := by
  induction l with
  | nil => simpa [insertNew] using h
  | cons c l ih =>
      rw [insertNew] at h
      split at h
      · simpa using h
      · exact .inr h
      · rcases List.mem_cons.mp h with rfl | h
        · simp
        · rcases ih h with rfl | h <;> simp [*]

theorem mem_of_mem_insertOver {a b : α} {l : List α} (h : b ∈ insertOver cmp a l) :
    b = a ∨ b ∈ l := by
  induction l with
  | nil => simpa [insertOver] using h
  | cons c l ih =>
      rw [insertOver] at h
      split at h
      · simpa using h
      · rcases List.mem_cons.mp h with rfl | h <;> simp [*]
      · rcases List.mem_cons.mp h with rfl | h
        · simp
        · rcases ih h with rfl | h <;> simp [*]

variable [Std.TransCmp cmp]

theorem StrictlySorted.insertNew {a : α} {l : List α} (h : StrictlySorted cmp l) :
    StrictlySorted cmp (insertNew cmp a l) := by
  induction l with
  | nil => simp [SortedList.insertNew, StrictlySorted]
  | cons b l ih =>
      obtain ⟨hb, hl⟩ := List.pairwise_cons.mp h
      rw [SortedList.insertNew]
      split
      next hab =>
        refine List.pairwise_cons.mpr ⟨fun c hc => ?_, h⟩
        rcases List.mem_cons.mp hc with rfl | hc
        · exact hab
        · exact Std.TransCmp.lt_trans hab (hb c hc)
      next => exact h
      next hab =>
        refine List.pairwise_cons.mpr ⟨fun c hc => ?_, ih hl⟩
        rcases mem_of_mem_insertNew hc with rfl | hc
        · exact Std.OrientedCmp.gt_iff_lt.mp hab
        · exact hb c hc

theorem StrictlySorted.insertOver {a : α} {l : List α} (h : StrictlySorted cmp l) :
    StrictlySorted cmp (insertOver cmp a l) := by
  induction l with
  | nil => simp [SortedList.insertOver, StrictlySorted]
  | cons b l ih =>
      obtain ⟨hb, hl⟩ := List.pairwise_cons.mp h
      rw [SortedList.insertOver]
      split
      next hab =>
        refine List.pairwise_cons.mpr ⟨fun c hc => ?_, h⟩
        rcases List.mem_cons.mp hc with rfl | hc
        · exact hab
        · exact Std.TransCmp.lt_trans hab (hb c hc)
      next hab =>
        refine List.pairwise_cons.mpr ⟨fun c hc => ?_, hl⟩
        exact Std.TransCmp.lt_of_eq_of_lt hab (hb c hc)
      next hab =>
        refine List.pairwise_cons.mpr ⟨fun c hc => ?_, ih hl⟩
        rcases mem_of_mem_insertOver hc with rfl | hc
        · exact Std.OrientedCmp.gt_iff_lt.mp hab
        · exact hb c hc

end Sorted

/-! ### Sets -/

section Lawful

variable {cmp : α → α → Ordering} [Std.LawfulEqCmp cmp]

theorem mem_insertNew {a b : α} {l : List α} :
    b ∈ insertNew cmp a l ↔ b = a ∨ b ∈ l := by
  refine ⟨mem_of_mem_insertNew, ?_⟩
  induction l with
  | nil => simp [insertNew]
  | cons c l ih =>
      rw [insertNew]
      split
      · simp
      next heq =>
        have hac : a = c := Std.LawfulEqCmp.eq_of_compare heq
        rintro (rfl | h)
        · simp [hac]
        · exact h
      · rintro (rfl | h)
        · simp [ih]
        · rcases List.mem_cons.mp h with rfl | h <;> simp [*]

end Lawful

theorem compare_self_ne_lt {cmp : α → α → Ordering} [Std.ReflCmp cmp] (a : α) :
    cmp a a ≠ .lt := by
  rw [show cmp a a = .eq from Std.ReflCmp.compare_self]
  decide

theorem StrictlySorted.nodup {cmp : α → α → Ordering} [Std.ReflCmp cmp] {l : List α}
    (h : StrictlySorted cmp l) : l.Nodup := by
  refine h.imp ?_
  rintro a _ hlt rfl
  exact compare_self_ne_lt a hlt

/-- Two sorted lists with the same members are equal. -/
theorem StrictlySorted.ext {cmp : α → α → Ordering} [Std.TransCmp cmp] {l l' : List α}
    (h : StrictlySorted cmp l) (h' : StrictlySorted cmp l') (hmem : ∀ a, a ∈ l ↔ a ∈ l') :
    l = l' := by
  have hperm : l.Perm l' := (List.perm_ext_iff_of_nodup h.nodup h'.nodup).mpr hmem
  refine hperm.eq_of_pairwise ?_ h h'
  intro a b _ _ hab hba
  exact absurd (Std.TransCmp.lt_trans hab hba) (compare_self_ne_lt a)

/-- `std::set`: a sorted list without duplicates. -/
structure SortedSet (cmp : α → α → Ordering) where
  elems : List α
  sorted : StrictlySorted cmp elems

namespace SortedSet

variable {cmp : α → α → Ordering}

instance : Membership α (SortedSet cmp) where
  mem s a := a ∈ s.elems

theorem mem_def {s : SortedSet cmp} {a : α} : a ∈ s ↔ a ∈ s.elems := Iff.rfl

instance [DecidableEq α] : DecidableEq (SortedSet cmp) := fun s t =>
  decidable_of_iff (s.elems = t.elems) (by cases s; cases t; simp)

instance [DecidableEq α] (s : SortedSet cmp) (a : α) : Decidable (a ∈ s) :=
  inferInstanceAs (Decidable (a ∈ s.elems))

@[ext] theorem ext [Std.TransCmp cmp] {s t : SortedSet cmp} (h : ∀ a, a ∈ s ↔ a ∈ t) : s = t := by
  obtain ⟨l, hl⟩ := s
  obtain ⟨m, hm⟩ := t
  congr
  exact hl.ext hm h

def empty : SortedSet cmp := ⟨[], .nil⟩

@[simp] theorem not_mem_empty (a : α) : a ∉ (empty : SortedSet cmp) := List.not_mem_nil

variable [Std.TransCmp cmp]

def insert (s : SortedSet cmp) (a : α) : SortedSet cmp :=
  ⟨insertNew cmp a s.elems, s.sorted.insertNew⟩

def ofList (l : List α) : SortedSet cmp :=
  l.foldl insert empty

variable [Std.LawfulEqCmp cmp]

@[simp] theorem mem_insert {s : SortedSet cmp} {a b : α} : b ∈ s.insert a ↔ b = a ∨ b ∈ s :=
  mem_insertNew

theorem mem_foldl_insert {l : List α} {s : SortedSet cmp} {b : α} :
    b ∈ l.foldl insert s ↔ b ∈ s ∨ b ∈ l := by
  induction l generalizing s with
  | nil => simp
  | cons a l ih =>
      rw [List.foldl_cons, ih, mem_insert, List.mem_cons]
      tauto

@[simp] theorem mem_ofList {l : List α} {b : α} : b ∈ (ofList l : SortedSet cmp) ↔ b ∈ l := by
  simp [ofList, mem_foldl_insert]

end SortedSet

theorem SortedSet.eq_of_elems {cmp : α → α → Ordering} {s t : SortedSet cmp}
    (h : s.elems = t.elems) : s = t := by
  cases s
  cases t
  cases h
  rfl

/-- Inserting the elements of a set one by one gives the set. -/
theorem SortedSet.foldl_insert_elems {cmp : α → α → Ordering} [Std.TransCmp cmp]
    (s : SortedSet cmp) : s.elems.foldl SortedSet.insert .empty = s := by
  have helems : ∀ (l : List α) (t : SortedSet cmp), (l.foldl SortedSet.insert t).elems =
      l.foldl (fun m a => insertNew cmp a m) t.elems := by
    intro l
    induction l with
    | nil => exact fun _ => rfl
    | cons a l ih => exact fun t => ih (t.insert a)
  apply SortedSet.eq_of_elems
  rw [helems]
  exact foldl_insertNew (show StrictlySorted cmp ([] ++ s.elems) from s.sorted)

theorem SortedSet.ofList_elems {cmp : α → α → Ordering} [Std.TransCmp cmp] (s : SortedSet cmp) :
    SortedSet.ofList s.elems = s :=
  SortedSet.foldl_insert_elems s

/-! ### Maps -/

/-- Compare entries of a map by their keys. -/
def byKey (cmp : κ → κ → Ordering) (a b : κ × ν) : Ordering :=
  cmp a.1 b.1

instance (cmp : κ → κ → Ordering) [Std.OrientedCmp cmp] :
    Std.OrientedCmp (byKey (ν := ν) cmp) where
  eq_swap := @fun a b => @Std.OrientedCmp.eq_swap κ cmp _ a.1 b.1

instance (cmp : κ → κ → Ordering) [Std.TransCmp cmp] :
    Std.TransCmp (byKey (ν := ν) cmp) where
  isLE_trans := @fun a b c => @Std.TransCmp.isLE_trans κ cmp _ a.1 b.1 c.1

/-- `std::map`: a sorted list without duplicate keys. -/
abbrev SortedMap (cmp : κ → κ → Ordering) (ν : Type) := SortedSet (byKey (ν := ν) cmp)

theorem strictlySorted_byKey {cmp : κ → κ → Ordering} {l : List (κ × ν)} :
    StrictlySorted (byKey cmp) l ↔ StrictlySorted cmp (l.map Prod.fst) := by
  simp only [StrictlySorted, byKey, List.pairwise_map]

namespace SortedMap

variable {cmp : κ → κ → Ordering}

def find? [DecidableEq κ] (m : SortedMap cmp ν) (k : κ) : Option ν :=
  (m.elems.find? (·.1 = k)).map Prod.snd

def contains [DecidableEq κ] (m : SortedMap cmp ν) (k : κ) : Bool :=
  m.elems.any (·.1 = k)

variable [Std.TransCmp cmp]

/-- `insert_or_assign`. -/
def assign (m : SortedMap cmp ν) (k : κ) (v : ν) : SortedMap cmp ν :=
  ⟨insertOver (byKey cmp) (k, v) m.elems, m.sorted.insertOver⟩

theorem foldl_assign_sublist {l : List (κ × ν)} (h : StrictlySorted (byKey cmp) l) :
    (l.foldl (fun (m : SortedMap cmp ν) e => m.assign e.1 e.2) .empty).elems = l := by
  have helems : ∀ (l : List (κ × ν)) (t : SortedMap cmp ν),
      (l.foldl (fun m e => m.assign e.1 e.2) t).elems =
        l.foldl (fun m a => insertOver (byKey cmp) a m) t.elems := by
    intro l
    induction l with
    | nil => exact fun _ => rfl
    | cons e l ih => exact fun t => ih (t.assign e.1 e.2)
  rw [helems]
  exact foldl_insertOver (show StrictlySorted (byKey cmp) ([] ++ l) from h)

/-- Assigning the entries of a map one by one gives the map. -/
theorem foldl_assign_elems (m : SortedMap cmp ν) :
    m.elems.foldl (fun m e => m.assign e.1 e.2) .empty = m :=
  SortedSet.eq_of_elems (foldl_assign_sublist m.sorted)

end SortedMap

end Nix.Lib.SortedList
