import Mathlib.Data.List.Dedup
import Mathlib.Data.List.Nodup
import Mathlib.Logic.Relation
import Nix.Util.Types

set_option linter.dupNamespace false

namespace Nix.Util.TopoSort

open Relation
open Util.Types

variable {α : Type}

structure Cycle (α : Type) where
  path : α
  parent : α
  deriving DecidableEq

/-- The locals that `dfsVisit` captures. -/
structure Search (α : Type) where
  sorted : List α := []
  visited : List α := []
  parents : List α := []

/-- Visit one item after the other, up to the first cycle. -/
def visitAll (visit : α → Search α → Except Error (Option (Cycle α) × Search α)) :
    List α → Search α → Except Error (Option (Cycle α) × Search α)
  | [], s => .ok (none, s)
  | i :: is, s =>
      match visit i s with
      | .ok (none, s) => visitAll visit is s
      | r => r

variable [DecidableEq α]

namespace Search

def enter (s : Search α) (path : α) : Search α :=
  { s with visited := path :: s.visited, parents := path :: s.parents }

def leave (s : Search α) (path : α) : Search α :=
  { s with sorted := s.sorted ++ [path], parents := s.parents.filter (· ≠ path) }

end Search

section Visit

variable (items : List α) (getChildren : α → List α)

/-- The references that are followed: items that do not exist in the starting
set are not traversed. -/
def followed (path : α) : List α :=
  (getChildren path).filter fun i => i ≠ path ∧ i ∈ items

/-- The first argument bounds the depth; an item is followed down once only. -/
def dfsVisit : Nat → Option α → α → Search α → Except Error (Option (Cycle α) × Search α)
  | 0, _, _, _ => .error .diverges
  | fuel + 1, parent, path, s =>
      if path ∈ s.parents then
        match parent with
        | some parent => .ok (some ⟨path, parent⟩, s)
        | none => .error (.assertion "parent")
      else if path ∈ s.visited then .ok (none, s)
      else
        match visitAll (dfsVisit fuel (some path)) (followed items getChildren path)
            (s.enter path) with
        | .ok (none, s) => .ok (none, s.leave path)
        | r => r

def topoSort : Except Error (List α ⊕ Cycle α) :=
  match visitAll (dfsVisit items getChildren (items.length + 1) none) items {} with
  | .ok (none, s) => .ok (.inl s.sorted.reverse)
  | .ok (some cycle, _) => .ok (.inr cycle)
  | .error e => .error e

end Visit

/-- What a visit without a cycle does to the sets. -/
structure Search.Extends (s s' : Search α) : Prop where
  visited : s.visited ⊆ s'.visited
  parents : ∀ i, i ∈ s'.parents ↔ i ∈ s.parents

/-- A visit ends, with a cycle or with the same parents. -/
def Ends (s : Search α) (r : Except Error (Option (Cycle α) × Search α)) : Prop :=
  ∃ c s', r = .ok (c, s') ∧ (c = none → s.Extends s')

def unvisited (items : List α) (s : Search α) : Nat :=
  (items.filter (· ∉ s.visited)).length

theorem unvisited_mono {items : List α} {s s' : Search α} (h : s.visited ⊆ s'.visited) :
    unvisited items s' ≤ unvisited items s := by
  apply List.Sublist.length_le
  apply List.monotone_filter_right
  intro i hi
  simp only [decide_eq_true_eq] at hi ⊢
  exact fun hs => hi (h hs)

theorem unvisited_cons {items : List α} {s s' : Search α} {i : α} (hi : i ∈ items)
    (hs : i ∉ s.visited) (hs' : s'.visited = i :: s.visited) :
    unvisited items s' < unvisited items s := by
  have hmono := @unvisited_mono α _ items s s' (by simp [hs'])
  refine Nat.lt_of_le_of_ne hmono fun heq => ?_
  have hsub : (items.filter (· ∉ s'.visited)).Sublist (items.filter (· ∉ s.visited)) := by
    apply List.monotone_filter_right
    intro j hj
    simp only [hs', List.mem_cons, not_or, decide_eq_true_eq] at hj ⊢
    exact hj.2
  have hmem : i ∈ items.filter (· ∉ s'.visited) := by
    rw [hsub.eq_of_length heq]
    simpa using ⟨hi, hs⟩
  simp [hs'] at hmem

omit [DecidableEq α] in
theorem ends_visitAll {is : List α} {s : Search α}
    {visit : α → Search α → Except Error (Option (Cycle α) × Search α)}
    (hvisit : ∀ i ∈ is, ∀ t : Search α, s.Extends t → Ends t (visit i t)) :
    Ends s (visitAll visit is s) := by
  induction is generalizing s with
  | nil => exact ⟨none, s, rfl, fun _ => ⟨List.Subset.refl _, fun _ => Iff.rfl⟩⟩
  | cons i is ih =>
      obtain ⟨c, s', hs', hext⟩ :=
        hvisit i (by simp) s ⟨List.Subset.refl _, fun _ => Iff.rfl⟩
      rw [visitAll, hs']
      cases c with
      | some c => exact ⟨some c, s', rfl, by simp⟩
      | none =>
          have h := hext rfl
          have htrans : ∀ t : Search α, s'.Extends t → s.Extends t := fun t ht =>
            ⟨fun _ hx => ht.visited (h.visited hx), fun j => (ht.parents j).trans (h.parents j)⟩
          obtain ⟨c, t, ht, hc⟩ := ih fun j hj t ht => hvisit j (by simp [hj]) t (htrans t ht)
          exact ⟨c, t, ht, fun hnone => htrans t (hc hnone)⟩

theorem extends_leave {s s' : Search α} {path : α} (hpath : path ∉ s.parents)
    (h : (s.enter path).Extends s') : s.Extends (s'.leave path) := by
  refine ⟨fun i hi => h.visited (List.mem_cons_of_mem _ hi), fun i => ?_⟩
  have hi : i ∈ s'.parents ↔ i = path ∨ i ∈ s.parents := by
    rw [h.parents i, Search.enter, List.mem_cons]
  rw [Search.leave, List.mem_filter, hi]
  constructor
  · rintro ⟨rfl | hmem, hne⟩
    · simp at hne
    · exact hmem
  · intro hmem
    refine ⟨.inr hmem, ?_⟩
    rw [decide_eq_true_eq]
    rintro rfl
    exact hpath hmem

theorem ends_dfsVisit {items : List α} {getChildren : α → List α} {fuel : Nat}
    {parent : Option α} {path : α} {s : Search α} (hpath : path ∈ items)
    (hparent : parent = none → path ∉ s.parents) (hfuel : unvisited items s < fuel) :
    Ends s (dfsVisit items getChildren fuel parent path s) := by
  induction fuel generalizing parent path s with
  | zero => omega
  | succ fuel ih =>
      unfold dfsVisit
      split
      next hmem =>
        cases parent with
        | none => exact absurd hmem (hparent rfl)
        | some parent => exact ⟨_, s, rfl, by simp⟩
      next hmem =>
        split
        next => exact ⟨none, s, rfl, fun _ => ⟨List.Subset.refl _, fun _ => Iff.rfl⟩⟩
        next hnew =>
          have hchild : ∀ i ∈ followed items getChildren path, ∀ t : Search α,
              (s.enter path).Extends t →
                Ends t (dfsVisit items getChildren fuel (some path) i t) := by
            intro i hi t ht
            have hi' : i ≠ path ∧ i ∈ items := by simpa using (List.mem_filter.mp hi).2
            have hlt : unvisited items (s.enter path) < unvisited items s :=
              unvisited_cons hpath hnew rfl
            have hle : unvisited items t ≤ unvisited items (s.enter path) :=
              unvisited_mono ht.visited
            exact ih hi'.2 (by simp) (by omega)
          obtain ⟨c, s', hs', hext⟩ := ends_visitAll hchild
          rw [hs']
          cases c with
          | some c => exact ⟨some c, s', rfl, by simp⟩
          | none => exact ⟨none, _, rfl, fun _ => extends_leave hmem (hext rfl)⟩

theorem topoSort_ok (items : List α) (getChildren : α → List α) :
    ∃ r, topoSort items getChildren = .ok r := by
  have hvisit : ∀ i ∈ items, ∀ t : Search α, Search.Extends {} t →
      Ends t (dfsVisit items getChildren (items.length + 1) none i t) := by
    intro i hi t ht
    refine ends_dfsVisit hi (fun _ hmem => ?_) ?_
    · exact absurd ((ht.parents i).mp hmem) List.not_mem_nil
    · exact Nat.lt_succ_of_le (List.length_filter_le _ _)
  obtain ⟨c, s, hs, -⟩ := ends_visitAll hvisit
  rw [topoSort, hs]
  cases c with
  | none => exact ⟨_, rfl⟩
  | some c => exact ⟨_, rfl⟩

section Settled

variable {items : List α} {getChildren : α → List α}

/-- The children of a sorted item come before it, and every visited item is sorted or
still on the path of the search. -/
structure Search.Settled (items : List α) (getChildren : α → List α) (s : Search α) : Prop where
  children : ∀ l a r, s.sorted = l ++ a :: r → ∀ c ∈ followed items getChildren a, c ∈ l
  visited : ∀ i ∈ s.visited, i ∈ s.sorted ∨ i ∈ s.parents

/-- What a visit without a cycle leaves behind. -/
structure Search.Finishes (items : List α) (getChildren : α → List α) (s s' : Search α) :
    Prop where
  settled : s'.Settled items getChildren
  sorted : s.sorted ⊆ s'.sorted
  parents : ∀ i, i ∈ s'.parents ↔ i ∈ s.parents

theorem Search.Finishes.trans {s t u : Search α} (h : s.Finishes items getChildren t)
    (h' : t.Finishes items getChildren u) : s.Finishes items getChildren u :=
  ⟨h'.settled, fun _ hx => h'.sorted (h.sorted hx), fun i => (h'.parents i).trans (h.parents i)⟩

theorem settled_enter {s : Search α} (h : s.Settled items getChildren) (path : α) :
    (s.enter path).Settled items getChildren := by
  refine ⟨h.children, fun i hi => ?_⟩
  rcases List.mem_cons.mp hi with rfl | hi
  · exact .inr List.mem_cons_self
  · exact (h.visited i hi).imp_right (List.mem_cons_of_mem path)

theorem finishes_visitAll {is : List α} {s s' : Search α}
    {visit : α → Search α → Except Error (Option (Cycle α) × Search α)}
    (hvisit : ∀ i ∈ is, ∀ t t' : Search α, t.Settled items getChildren →
      visit i t = .ok (none, t') → t.Finishes items getChildren t' ∧ i ∈ t'.sorted)
    (hs : s.Settled items getChildren) (h : visitAll visit is s = .ok (none, s')) :
    s.Finishes items getChildren s' ∧ ∀ i ∈ is, i ∈ s'.sorted := by
  induction is generalizing s with
  | nil =>
      cases h
      exact ⟨⟨hs, List.Subset.refl _, fun _ => Iff.rfl⟩, by simp⟩
  | cons i is ih =>
      rw [visitAll] at h
      rcases hi : visit i s with e | ⟨_ | c, t⟩
      · rw [hi] at h
        cases h
      · rw [hi] at h
        obtain ⟨hfin, hmem⟩ := hvisit i (by simp) s t hs hi
        obtain ⟨hfin', hmem'⟩ := ih (fun j hj => hvisit j (by simp [hj])) hfin.settled h
        refine ⟨hfin.trans hfin', fun j hj => ?_⟩
        rcases List.mem_cons.mp hj with rfl | hj
        · exact hfin'.sorted hmem
        · exact hmem' j hj
      · rw [hi] at h
        cases h

theorem finishes_leave {s s' : Search α} {path : α} (hpath : path ∉ s.parents)
    (h : (s.enter path).Finishes items getChildren s')
    (hchildren : ∀ c ∈ followed items getChildren path, c ∈ s'.sorted) :
    s.Finishes items getChildren (s'.leave path) := by
  have hparents : ∀ i, i ∈ s'.parents ↔ i = path ∨ i ∈ s.parents := fun i => by
    rw [h.parents i, Search.enter, List.mem_cons]
  refine ⟨⟨?_, ?_⟩, fun i hi => List.mem_append_left _ (h.sorted hi), fun i => ?_⟩
  · intro l a r hsplit c hc
    rcases List.append_eq_append_iff.mp hsplit with ⟨m, rfl, hm⟩ | ⟨m, hm, hr⟩
    · -- the item is the one just added
      cases m with
      | nil =>
          obtain rfl : path = a := (List.cons.inj hm).1
          simpa using hchildren c hc
      | cons b m => simp at hm
    · cases m with
      | nil =>
          obtain rfl : a = path := (List.cons.inj hr).1
          rw [List.append_nil] at hm
          rw [← hm]
          exact hchildren c hc
      | cons b m =>
          obtain ⟨rfl, -⟩ := List.cons.inj hr
          exact h.settled.children l a m hm c hc
  · intro i hi
    rcases eq_or_ne i path with rfl | hne
    · exact .inl (List.mem_append_right _ List.mem_cons_self)
    · rcases h.settled.visited i hi with hi | hi
      · exact .inl (List.mem_append_left _ hi)
      · exact .inr (List.mem_filter.mpr ⟨hi, by simpa using hne⟩)
  · rw [Search.leave, List.mem_filter, hparents]
    constructor
    · rintro ⟨rfl | hmem, hne⟩
      · simp at hne
      · exact hmem
    · intro hmem
      refine ⟨.inr hmem, ?_⟩
      rw [decide_eq_true_eq]
      rintro rfl
      exact hpath hmem

theorem dfsVisit_eq_none {fuel : Nat} {parent : Option α} {path : α} {s s' : Search α}
    (h : dfsVisit items getChildren (fuel + 1) parent path s = .ok (none, s')) :
    path ∉ s.parents ∧ (path ∈ s.visited ∧ s' = s ∨ path ∉ s.visited ∧
      ∃ t, visitAll (dfsVisit items getChildren fuel (some path))
        (followed items getChildren path) (s.enter path) = .ok (none, t) ∧ s' = t.leave path) := by
  unfold dfsVisit at h
  split at h
  · cases parent <;> cases h
  next hparents =>
    refine ⟨hparents, ?_⟩
    split at h
    next hvisited =>
      cases h
      exact .inl ⟨hvisited, rfl⟩
    next hvisited =>
      split at h
      next t hall =>
        cases h
        exact .inr ⟨hvisited, t, hall, rfl⟩
      next hnot => exact absurd h (hnot s')

theorem dfsVisit_eq_some {fuel : Nat} {parent : Option α} {path : α} {s s' : Search α}
    {c : Cycle α}
    (h : dfsVisit items getChildren (fuel + 1) parent path s = .ok (some c, s')) :
    (path ∈ s.parents ∧ ∃ p, parent = some p ∧ c = ⟨path, p⟩) ∨
      visitAll (dfsVisit items getChildren fuel (some path))
        (followed items getChildren path) (s.enter path) = .ok (some c, s') := by
  unfold dfsVisit at h
  split at h
  next hmem =>
    cases parent with
    | none => cases h
    | some p =>
        cases h
        exact .inl ⟨hmem, p, rfl, rfl⟩
  · split at h
    · cases h
    · split at h
      · cases h
      · exact .inr h

theorem topoSort_eq_inl {order : List α} (h : topoSort items getChildren = .ok (.inl order)) :
    ∃ s, visitAll (dfsVisit items getChildren (items.length + 1) none) items {} = .ok (none, s) ∧
      order = s.sorted.reverse := by
  unfold topoSort at h
  split at h
  next s hall =>
    cases h
    exact ⟨s, hall, rfl⟩
  next => cases h
  next => cases h

theorem topoSort_eq_inr {c : Cycle α} (h : topoSort items getChildren = .ok (.inr c)) :
    ∃ s, visitAll (dfsVisit items getChildren (items.length + 1) none) items {} =
      .ok (some c, s) := by
  unfold topoSort at h
  split at h
  next => cases h
  next cycle s hall =>
    cases h
    exact ⟨s, hall⟩
  next => cases h

theorem finishes_dfsVisit {fuel : Nat} {parent : Option α} {path : α} {s s' : Search α}
    (hs : s.Settled items getChildren)
    (h : dfsVisit items getChildren fuel parent path s = .ok (none, s')) :
    s.Finishes items getChildren s' ∧ path ∈ s'.sorted := by
  induction fuel generalizing parent path s s' with
  | zero => cases h
  | succ fuel ih =>
      obtain ⟨hparents, ⟨hvisited, rfl⟩ | ⟨-, t, hall, rfl⟩⟩ := dfsVisit_eq_none h
      · exact ⟨⟨hs, List.Subset.refl _, fun _ => Iff.rfl⟩,
          (hs.visited path hvisited).resolve_right hparents⟩
      · obtain ⟨hfin, hchildren⟩ := finishes_visitAll (fun i _ u u' hu hrun => ih hu hrun)
          (settled_enter hs path) hall
        exact ⟨finishes_leave hparents hfin hchildren,
          List.mem_append_right _ List.mem_cons_self⟩

theorem exists_rank_of_topoSort {order : List α}
    (h : topoSort items getChildren = .ok (.inl order)) :
    ∃ rank : α → Nat, ∀ a ∈ items, ∀ c ∈ followed items getChildren a, rank c < rank a := by
  obtain ⟨s, hall, -⟩ := topoSort_eq_inl h
  obtain ⟨hfin, hmem⟩ := finishes_visitAll (fun i _ u u' hu hrun => finishes_dfsVisit hu hrun)
    (show Search.Settled items getChildren {} from ⟨by simp, by simp⟩) hall
  refine ⟨s.sorted.idxOf, fun a ha c hc => ?_⟩
  obtain ⟨l, r, hsplit, hl⟩ := List.eq_append_cons_of_mem (hmem a ha)
  have hcl := hfin.settled.children l a r hsplit c hc
  show s.sorted.idxOf c < s.sorted.idxOf a
  rw [hsplit, List.idxOf_append_of_mem hcl, List.idxOf_append_of_notMem hl, List.idxOf_cons_self]
  exact Nat.lt_of_lt_of_le (List.idxOf_lt_length_of_mem hcl) (Nat.le_add_right _ _)

/-- Sorted items are different items whose visit has ended. -/
structure Search.Distinct (items : List α) (s : Search α) : Prop where
  nodup : s.sorted.Nodup
  ended : ∀ i ∈ s.sorted, i ∉ s.parents
  items : ∀ i ∈ s.sorted, i ∈ items
  sortedVisited : ∀ i ∈ s.sorted, i ∈ s.visited
  parentsVisited : ∀ i ∈ s.parents, i ∈ s.visited

omit [DecidableEq α] in
theorem distinct_visitAll {is : List α} {s s' : Search α}
    {visit : α → Search α → Except Error (Option (Cycle α) × Search α)}
    (hvisit : ∀ i ∈ is, ∀ t t' : Search α, t.Distinct items → visit i t = .ok (none, t') →
      t'.Distinct items ∧ ∀ j, j ∈ t'.parents ↔ j ∈ t.parents)
    (hs : s.Distinct items) (h : visitAll visit is s = .ok (none, s')) :
    s'.Distinct items ∧ ∀ j, j ∈ s'.parents ↔ j ∈ s.parents := by
  induction is generalizing s with
  | nil =>
      cases h
      exact ⟨hs, fun _ => Iff.rfl⟩
  | cons i is ih =>
      rw [visitAll] at h
      rcases hi : visit i s with e | ⟨_ | c, t⟩
      · rw [hi] at h
        cases h
      · rw [hi] at h
        obtain ⟨ht, hparents⟩ := hvisit i (by simp) s t hs hi
        obtain ⟨hs', hparents'⟩ := ih (fun j hj => hvisit j (by simp [hj])) ht h
        exact ⟨hs', fun j => (hparents' j).trans (hparents j)⟩
      · rw [hi] at h
        cases h

omit [DecidableEq α] in
theorem distinct_enter {s : Search α} {path : α} (hs : s.Distinct items)
    (hpath : path ∉ s.visited) : (s.enter path).Distinct items := by
  refine ⟨hs.nodup, fun i hi hmem => ?_, hs.items,
    fun i hi => List.mem_cons_of_mem _ (hs.sortedVisited i hi), fun i hi => ?_⟩
  · rcases List.mem_cons.mp hmem with rfl | hmem
    · exact hpath (hs.sortedVisited i hi)
    · exact hs.ended i hi hmem
  · rcases List.mem_cons.mp hi with rfl | hi
    · exact List.mem_cons_self
    · exact List.mem_cons_of_mem _ (hs.parentsVisited i hi)

theorem distinct_leave {s : Search α} {path : α} (hs : s.Distinct items)
    (hpath : path ∈ s.parents) (hitem : path ∈ items) : (s.leave path).Distinct items := by
  refine ⟨?_, fun i hi hmem => ?_, fun i hi => ?_, fun i hi => ?_,
    fun i hi => hs.parentsVisited i (List.mem_filter.mp hi).1⟩
  · refine List.nodup_append.mpr ⟨hs.nodup, List.pairwise_singleton _ _, fun i hi j hj => ?_⟩
    rintro rfl
    rw [List.mem_singleton.mp hj] at hi
    exact hs.ended path hi hpath
  · obtain ⟨hmem, hne⟩ := List.mem_filter.mp hmem
    rcases List.mem_append.mp hi with hi | hi
    · exact hs.ended i hi hmem
    · exact of_decide_eq_true hne (List.mem_singleton.mp hi)
  · rcases List.mem_append.mp hi with hi | hi
    · exact hs.items i hi
    · rwa [List.mem_singleton.mp hi]
  · rcases List.mem_append.mp hi with hi | hi
    · exact hs.sortedVisited i hi
    · rw [List.mem_singleton.mp hi]
      exact hs.parentsVisited path hpath

theorem distinct_dfsVisit {fuel : Nat} {parent : Option α} {path : α} {s s' : Search α}
    (hs : s.Distinct items) (hitem : path ∈ items)
    (h : dfsVisit items getChildren fuel parent path s = .ok (none, s')) :
    s'.Distinct items ∧ ∀ j, j ∈ s'.parents ↔ j ∈ s.parents := by
  induction fuel generalizing parent path s s' with
  | zero => cases h
  | succ fuel ih =>
      obtain ⟨hparents, ⟨-, rfl⟩ | ⟨hvisited, t, hall, rfl⟩⟩ := dfsVisit_eq_none h
      · exact ⟨hs, fun _ => Iff.rfl⟩
      · obtain ⟨ht, hsame⟩ := distinct_visitAll (fun i hi u u' hu hrun => by
            have hi' : i ≠ path ∧ i ∈ items := of_decide_eq_true (List.mem_filter.mp hi).2
            exact ih hu hi'.2 hrun)
          (distinct_enter hs hvisited) hall
        have hpath : path ∈ t.parents := (hsame path).mpr List.mem_cons_self
        refine ⟨distinct_leave ht hpath hitem, fun j => ?_⟩
        rw [Search.leave, List.mem_filter, hsame j, Search.enter, List.mem_cons]
        constructor
        · rintro ⟨rfl | hj, hne⟩
          · simp at hne
          · exact hj
        · intro hj
          refine ⟨.inr hj, ?_⟩
          rw [decide_eq_true_eq]
          rintro rfl
          exact hparents hj

theorem order_of_topoSort {order : List α} (h : topoSort items getChildren = .ok (.inl order)) :
    order.Nodup ∧ (∀ i, i ∈ order ↔ i ∈ items) ∧
      ∀ before i after, order = before ++ i :: after →
        ∀ a ∈ items, i ∈ followed items getChildren a → a ∈ before := by
  obtain ⟨s, hall, rfl⟩ := topoSort_eq_inl h
  obtain ⟨hfin, hmem⟩ := finishes_visitAll (fun i _ u u' hu hrun => finishes_dfsVisit hu hrun)
    (show Search.Settled items getChildren {} from ⟨by simp, by simp⟩) hall
  obtain ⟨hdistinct, -⟩ := distinct_visitAll
    (fun i hi u u' hu hrun => distinct_dfsVisit hu hi hrun)
    (show Search.Distinct items {} from ⟨by simp, by simp, by simp, by simp, by simp⟩) hall
  refine ⟨List.nodup_reverse.mpr hdistinct.nodup, fun i => ?_,
    fun before i after hsplit a ha hchild => ?_⟩
  · rw [List.mem_reverse]
    exact ⟨hdistinct.items i, hmem i⟩
  · have hsorted : s.sorted = after.reverse ++ i :: before.reverse := by
      rw [← List.reverse_reverse s.sorted, hsplit]
      simp
    have hne : i ≠ a := (of_decide_eq_true (List.mem_filter.mp hchild).2 : i ≠ a ∧ i ∈ items).1
    have hmem' := hmem a ha
    rw [hsorted, List.mem_append, List.mem_cons, List.mem_reverse, List.mem_reverse] at hmem'
    rcases hmem' with hafter | rfl | hbefore
    · -- the item would be sorted twice
      obtain ⟨l, r, hl⟩ := List.append_of_mem (List.mem_reverse.mpr hafter)
      have hil := hfin.settled.children l a (r ++ i :: before.reverse) (by rw [hsorted, hl]; simp) i hchild
      have hnodup := hdistinct.nodup
      rw [hsorted] at hnodup
      obtain ⟨-, -, hdisjoint⟩ := List.nodup_append.mp hnodup
      have hi' : i ∈ after.reverse := by
        rw [hl]
        exact List.mem_append_left _ hil
      exact absurd rfl (hdisjoint i hi' i List.mem_cons_self)
    · exact absurd rfl hne
    · exact hbefore

def Follows (items : List α) (getChildren : α → List α) (a c : α) : Prop :=
  c ∈ followed items getChildren a

omit [DecidableEq α] in
theorem cycle_of_visitAll {is : List α} {s s' : Search α} {c : Cycle α} {P : Search α → Prop}
    {Q : Cycle α → Prop} {visit : α → Search α → Except Error (Option (Cycle α) × Search α)}
    (hcycle : ∀ i ∈ is, ∀ t t' c, P t → visit i t = .ok (some c, t') → Q c)
    (hnone : ∀ i ∈ is, ∀ t t', P t → visit i t = .ok (none, t') → P t') (hs : P s)
    (h : visitAll visit is s = .ok (some c, s')) : Q c := by
  induction is generalizing s with
  | nil => cases h
  | cons i is ih =>
      rw [visitAll] at h
      rcases hi : visit i s with e | ⟨_ | c, t⟩
      · rw [hi] at h
        cases h
      · rw [hi] at h
        exact ih (fun j hj => hcycle j (by simp [hj])) (fun j hj => hnone j (by simp [hj]))
          (hnone i (by simp) s t hs hi) h
      · rw [hi] at h
        cases h
        exact hcycle i (by simp) s _ _ hs hi

/-- The edge from `parent` to `path` closes a cycle. -/
structure Cycle.Closes (items : List α) (getChildren : α → List α) (c : Cycle α) : Prop where
  child : Follows items getChildren c.parent c.path
  reaches : ReflTransGen (Follows items getChildren) c.path c.parent

theorem Cycle.Closes.transGen {c : Cycle α} (h : c.Closes items getChildren) :
    TransGen (Follows items getChildren) c.path c.path :=
  TransGen.tail' h.reaches h.child

/-- The item is visited from `parent`, and all items on the path of the search lead there. -/
def Search.LeadsTo (items : List α) (getChildren : α → List α) (s : Search α)
    (parent : Option α) (path : α) : Prop :=
  ∀ i ∈ s.parents, ∃ p, parent = some p ∧ Follows items getChildren p path ∧
    ReflTransGen (Follows items getChildren) i p

theorem closes_of_dfsVisit {fuel : Nat} {parent : Option α} {path : α} {s s' : Search α}
    {c : Cycle α} (hs : s.Settled items getChildren)
    (hparents : s.LeadsTo items getChildren parent path)
    (h : dfsVisit items getChildren fuel parent path s = .ok (some c, s')) :
    c.Closes items getChildren := by
  induction fuel generalizing parent path s s' c with
  | zero => cases h
  | succ fuel ih =>
      rcases dfsVisit_eq_some h with ⟨hmem, p', hparent, rfl⟩ | hall
      · obtain ⟨p, hp, hchild, hreaches⟩ := hparents path hmem
        obtain rfl := Option.some.inj (hparent.symm.trans hp)
        exact ⟨hchild, hreaches⟩
      · refine cycle_of_visitAll (P := fun t => t.Settled items getChildren ∧
            ∀ j, j ∈ t.parents ↔ j ∈ (s.enter path).parents) ?_ ?_
          ⟨settled_enter hs path, fun _ => Iff.rfl⟩ hall
        · intro i hi u u' d hu hrun
          refine ih hu.1 (fun j hj => ⟨path, rfl, hi, ?_⟩) hrun
          rcases List.mem_cons.mp ((hu.2 j).mp hj) with rfl | hj
          · exact .refl
          · obtain ⟨p, -, hchild, hreaches⟩ := hparents j hj
            exact hreaches.tail hchild
        · intro i hi u u' hu hrun
          obtain ⟨hfin, -⟩ := finishes_dfsVisit hu.1 hrun
          exact ⟨hfin.settled, fun j => (hfin.parents j).trans (hu.2 j)⟩

theorem closes_of_topoSort {c : Cycle α} (h : topoSort items getChildren = .ok (.inr c)) :
    c.Closes items getChildren := by
  obtain ⟨s, hall⟩ := topoSort_eq_inr h
  refine cycle_of_visitAll (P := fun t => t.Settled items getChildren ∧
      ∀ j, j ∈ t.parents ↔ j ∈ ({} : Search α).parents) ?_ ?_
    ⟨⟨by simp, by simp⟩, fun _ => Iff.rfl⟩ hall
  · intro i _ u u' d hu hrun
    refine closes_of_dfsVisit hu.1 (fun j hj => ?_) hrun
    exact absurd ((hu.2 j).mp hj) List.not_mem_nil
  · intro i _ u u' hu hrun
    obtain ⟨hfin, -⟩ := finishes_dfsVisit hu.1 hrun
    exact ⟨hfin.settled, fun j => (hfin.parents j).trans (hu.2 j)⟩

theorem mem_of_follows {a c : α} (h : Follows items getChildren a c) :
    c ∈ getChildren a ∧ c ≠ a ∧ c ∈ items := by
  obtain ⟨hchild, hfollowed⟩ := List.mem_filter.mp h
  exact ⟨hchild, of_decide_eq_true hfollowed⟩

theorem topoSort_of_acyclic (h : ∀ a ∈ items, ¬TransGen (Follows items getChildren) a a) :
    ∃ order, topoSort items getChildren = .ok (.inl order) := by
  obtain ⟨r, hr⟩ := topoSort_ok items getChildren
  cases r with
  | inl order => exact ⟨order, hr⟩
  | inr cycle =>
      have hcycle := (closes_of_topoSort hr).transGen
      obtain ⟨b, -, hb⟩ := TransGen.tail'_iff.mp hcycle
      exact absurd hcycle (h cycle.path (mem_of_follows hb).2.2)

theorem acyclic_of_topoSort {order : List α} (h : topoSort items getChildren = .ok (.inl order))
    {a : α} (ha : a ∈ items) : ¬TransGen (Follows items getChildren) a a := by
  obtain ⟨rank, hrank⟩ := exists_rank_of_topoSort h
  have hdown : ∀ {a c}, a ∈ items → TransGen (Follows items getChildren) a c → rank c < rank a := by
    intro a c ha hac
    induction hac with
    | single hac => exact hrank a ha _ hac
    | tail hab hbc ih =>
      obtain ⟨b, -, hb⟩ := TransGen.tail'_iff.mp hab
      exact Nat.lt_trans (hrank _ (mem_of_follows hb).2.2 _ hbc) ih
  exact fun hcycle => Nat.lt_irrefl _ (hdown ha hcycle)

/-- The sort returns an order in which every item comes before its children, or, if and only if
there is one, a cycle. -/
theorem topoSort_correct (items : List α) (getChildren : α → List α) :
    (∃ order, topoSort items getChildren = .ok (.inl order) ∧ order.Perm items.dedup ∧
        (∀ before i after, order = before ++ i :: after →
          ∀ a ∈ items, i ∈ getChildren a → i ≠ a → a ∈ before) ∧
        ∀ a ∈ items, ¬TransGen (Follows items getChildren) a a) ∨
      ∃ c, topoSort items getChildren = .ok (.inr c) ∧
        c.path ∈ getChildren c.parent ∧ c.path ≠ c.parent ∧
        c.path ∈ items ∧ c.parent ∈ items ∧
        ReflTransGen (Follows items getChildren) c.path c.parent := by
  obtain ⟨order | c, hr⟩ := topoSort_ok items getChildren
  · obtain ⟨hnodup, hmem, hbefore⟩ := order_of_topoSort hr
    refine .inl ⟨order, hr, ?_, ?_, fun a ha => acyclic_of_topoSort hr ha⟩
    · refine (List.perm_ext_iff_of_nodup hnodup items.nodup_dedup).mpr fun i => ?_
      rw [hmem, List.mem_dedup]
    · intro before i after hsplit a ha hchild hne
      have hi : i ∈ items := by
        rw [← hmem, hsplit]
        exact List.mem_append_right _ List.mem_cons_self
      exact hbefore before i after hsplit a ha
        (List.mem_filter.mpr ⟨hchild, decide_eq_true ⟨hne, hi⟩⟩)
  · have hcloses := closes_of_topoSort hr
    obtain ⟨hchild, hne, hitem⟩ := mem_of_follows hcloses.child
    refine .inr ⟨c, hr, hchild, hne, hitem, ?_, hcloses.reaches⟩
    rcases hcloses.reaches.cases_tail with heq | ⟨b, -, hb⟩
    · exact absurd heq.symm hne
    · exact (mem_of_follows hb).2.2

end Settled

end Nix.Util.TopoSort
