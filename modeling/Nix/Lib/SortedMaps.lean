import Mathlib.Data.List.Basic
import Mathlib.Data.List.Induction
import Mathlib.Data.List.Perm.Basic
import Nix.Lib.SortedList
import Nix.Lib.Table

/-!
Maps as sorted lists, read through their lookups.
-/

namespace Nix.Lib.SortedList

open Lib.Table

namespace SortedMap

variable {κ ν μ : Type} [DecidableEq κ] {cmp : κ → κ → Ordering}

theorem find?_eq_select (m : SortedMap cmp ν) (k : κ) :
    m.find? k = (select Prod.fst m.elems k).map Prod.snd := rfl

@[simp] theorem find?_empty (k : κ) :
    find? (SortedSet.empty : SortedMap cmp ν) k = none := rfl

theorem find?_eq_some [Std.TransCmp cmp] {m : SortedMap cmp ν} {k : κ} {v : ν} :
    m.find? k = some v ↔ (k, v) ∈ m.elems := by
  have hkeys : (m.elems.map Prod.fst).Nodup := (strictlySorted_byKey.mp m.sorted).nodup
  rw [find?_eq_select, Option.map_eq_some_iff]
  constructor
  · rintro ⟨e, he, rfl⟩
    rw [← key_of_select he]
    exact mem_of_select he
  · intro h
    exact ⟨(k, v), select_of_mem hkeys h, rfl⟩

theorem find?_eq_none {m : SortedMap cmp ν} {k : κ} :
    m.find? k = none ↔ k ∉ m.elems.map Prod.fst := by
  rw [find?_eq_select, Option.map_eq_none_iff, select_eq_none]

theorem ext_find? [Std.TransCmp cmp] {m m' : SortedMap cmp ν}
    (h : ∀ k, m.find? k = m'.find? k) : m = m' := by
  apply SortedSet.ext
  intro e
  rw [SortedSet.mem_def, SortedSet.mem_def, ← find?_eq_some, ← find?_eq_some, h]

theorem find?_insertOver [Std.TransCmp cmp] [Std.LawfulEqCmp cmp] (k k' : κ) (v : ν)
    (l : List (κ × ν)) :
    (insertOver (byKey cmp) (k, v) l).find? (·.1 = k') =
      if k = k' then some (k, v) else l.find? (·.1 = k') := by
  induction l with
  | nil => by_cases hk : k = k' <;> simp [insertOver, hk]
  | cons e l ih =>
      rw [insertOver]
      cases hcmp : byKey cmp (k, v) e with
      | lt =>
          by_cases hk : k = k' <;> simp [hk, List.find?_cons]
      | eq =>
          have he : k = e.1 := Std.LawfulEqCmp.eq_of_compare hcmp
          subst he
          by_cases hk : e.1 = k' <;> simp [hk]
      | gt =>
          have he : e.1 ≠ k := by
            rintro rfl
            have hrefl : byKey cmp (e.1, v) e = .eq := @Std.ReflCmp.compare_self κ cmp _ e.1
            simp [hrefl] at hcmp
          dsimp only
          rw [List.find?_cons, List.find?_cons, ih]
          by_cases hk : k = k'
          · subst hk
            simp [he]
          · simp [hk]

theorem find?_assign [Std.TransCmp cmp] [Std.LawfulEqCmp cmp] (m : SortedMap cmp ν) (k k' : κ)
    (v : ν) : (m.assign k v).find? k' = if k = k' then some v else m.find? k' := by
  rw [find?, assign, find?_insertOver]
  split <;> rfl

theorem find?_assign_self [Std.TransCmp cmp] [Std.LawfulEqCmp cmp] (m : SortedMap cmp ν) (k : κ)
    (v : ν) : (m.assign k v).find? k = some v := by
  rw [find?_assign, if_pos rfl]

theorem find?_assign_of_ne [Std.TransCmp cmp] [Std.LawfulEqCmp cmp] {m : SortedMap cmp ν}
    {k k' : κ} {v : ν} (h : k ≠ k') : (m.assign k v).find? k' = m.find? k' := by
  rw [find?_assign, if_neg h]

def erase (m : SortedMap cmp ν) (k : κ) : SortedMap cmp ν :=
  ⟨m.elems.filter (·.1 ≠ k), List.Pairwise.filter _ m.sorted⟩

theorem find?_erase (m : SortedMap cmp ν) (k k' : κ) :
    (m.erase k).find? k' = if k' = k then none else m.find? k' := by
  rw [find?_eq_select, erase, select_filter_ne]
  split <;> rfl

theorem erase_of_find?_eq_none [Std.TransCmp cmp] {m : SortedMap cmp ν} {k : κ}
    (h : m.find? k = none) : m.erase k = m := by
  refine ext_find? fun k' => ?_
  rw [find?_erase]
  split
  next heq => rw [heq, h]
  next => rfl

def mapValues (f : ν → μ) (m : SortedMap cmp ν) : SortedMap cmp μ :=
  ⟨m.elems.map fun e => (e.1, f e.2), strictlySorted_byKey.mpr (by
    rw [List.map_map]
    exact strictlySorted_byKey.mp m.sorted)⟩

theorem find?_mapValues (f : ν → μ) (m : SortedMap cmp ν) (k : κ) :
    (m.mapValues f).find? k = (m.find? k).map f := by
  rw [find?, find?, mapValues, List.find?_map]
  simp only [Function.comp_def, Option.map_map]

theorem contains_eq_isSome (m : SortedMap cmp ν) (k : κ) : m.contains k = (m.find? k).isSome := by
  rw [contains, find?, Option.isSome_map, Bool.eq_iff_iff]
  simp

/-- The values are changed, each with its key. -/
def mapWithKey (f : κ → ν → μ) (m : SortedMap cmp ν) : SortedMap cmp μ :=
  ⟨m.elems.map fun e => (e.1, f e.1 e.2), strictlySorted_byKey.mpr (by
    rw [List.map_map]
    exact strictlySorted_byKey.mp m.sorted)⟩

theorem find?_mapWithKey (f : κ → ν → μ) (m : SortedMap cmp ν) (k : κ) :
    (m.mapWithKey f).find? k = (m.find? k).map (f k) := by
  rw [find?, find?, mapWithKey, List.find?_map, Option.map_map, Option.map_map]
  cases hfind : m.elems.find? (·.1 = k) with
  | none => simp [Function.comp_def, hfind]
  | some e =>
    have hkey : e.1 = k := by simpa using List.find?_some hfind
    simp [Function.comp_def, hfind, hkey]

/-- `emplace` of the entries of a list into an empty map whose keys are new in their order. -/
def ofList [Std.TransCmp cmp] (l : List (κ × ν)) : SortedMap cmp ν :=
  l.foldl (fun m e => m.assign e.1 e.2) .empty

/-- What is found in the map is in the list. -/
theorem mem_of_find?_ofList [Std.TransCmp cmp] [Std.LawfulEqCmp cmp] {l : List (κ × ν)} {k : κ}
    {v : ν} (h : (ofList l : SortedMap cmp ν).find? k = some v) : (k, v) ∈ l := by
  have hfold : ∀ (l : List (κ × ν)) (m : SortedMap cmp ν),
      (l.foldl (fun m e => m.assign e.1 e.2) m).find? k = some v →
        m.find? k = some v ∨ (k, v) ∈ l := by
    intro l
    induction l with
    | nil => exact fun m => .inl
    | cons e l ih =>
      intro m hfind
      rcases ih _ hfind with hfind | hin
      · rw [find?_assign] at hfind
        split at hfind
        next hkey =>
          obtain rfl := Option.some.inj hfind
          exact .inr (hkey ▸ List.mem_cons_self)
        next => exact .inl hfind
      · exact .inr (List.mem_cons_of_mem _ hin)
  exact (hfold l .empty h).resolve_left nofun

omit [DecidableEq κ] in
theorem ofList_elems [Std.TransCmp cmp] (m : SortedMap cmp ν) : ofList m.elems = m :=
  foldl_assign_elems m

end SortedMap

/-!
What insertions into a sorted list depend on: the elements, and not their order.
-/

variable {α β κ ν : Type}

/-- Insertion into a list that is given by a function. -/
theorem insertOver_map {cmp : β → β → Ordering} (f : α → β) (a : α) (l : List α) :
    insertOver cmp (f a) (l.map f) =
      (insertOver (fun a b => cmp (f a) (f b)) a l).map f := by
  induction l with
  | nil => rfl
  | cons b l ih =>
    rw [List.map_cons, insertOver, insertOver]
    cases cmp (f a) (f b) with
    | lt => rfl
    | eq => rfl
    | gt => exact congrArg (f b :: ·) ih

theorem foldl_insertOver_map {cmp : β → β → Ordering} (f : α → β) (l acc : List α) :
    (l.map f).foldl (fun m b => insertOver cmp b m) (acc.map f) =
      (l.foldl (fun m a => insertOver (fun a b => cmp (f a) (f b)) a m) acc).map f := by
  induction l generalizing acc with
  | nil => rfl
  | cons a l ih => rw [List.map_cons, List.foldl_cons, insertOver_map, ih, List.foldl_cons]

/-- The second of two values for a key is kept. -/
theorem insertOver_insertOver {cmp : κ → κ → Ordering} [Std.ReflCmp cmp] (k : κ) (v v' : ν)
    (l : List (κ × ν)) :
    insertOver (byKey cmp) (k, v') (insertOver (byKey cmp) (k, v) l) =
      insertOver (byKey cmp) (k, v') l := by
  have hrefl : byKey cmp (k, v') (k, v) = .eq := @Std.ReflCmp.compare_self κ cmp _ k
  induction l with
  | nil => simp only [insertOver, hrefl]
  | cons e l ih =>
    have hkey : byKey cmp (k, v') e = byKey cmp (k, v) e := rfl
    cases h : byKey cmp (k, v) e with
    | lt => simp only [insertOver, h, hkey, hrefl]
    | eq => simp only [insertOver, h, hkey, hrefl]
    | gt => simp only [insertOver, h, hkey, ih]

section Perm

variable {cmp : α → α → Ordering}

theorem perm_insertOver {a : α} {l : List α} (h : ∀ b ∈ l, cmp a b ≠ .eq) :
    (insertOver cmp a l).Perm (a :: l) := by
  induction l with
  | nil => exact .refl _
  | cons b l ih =>
    obtain ⟨hb, hl⟩ := List.forall_mem_cons.mp h
    rw [insertOver]
    cases hab : cmp a b with
    | lt => exact .refl _
    | eq => exact absurd hab hb
    | gt => exact ((ih hl).cons b).trans (.swap a b l)

/-- Without an equivalent element the two ways to insert are the same. -/
theorem insertNew_eq_insertOver {a : α} {l : List α} (h : ∀ b ∈ l, cmp a b ≠ .eq) :
    insertNew cmp a l = insertOver cmp a l := by
  induction l with
  | nil => rfl
  | cons b l ih =>
    obtain ⟨hb, hl⟩ := List.forall_mem_cons.mp h
    rw [insertNew, insertOver, ih hl]
    cases hab : cmp a b with
    | lt => rfl
    | eq => exact absurd hab hb
    | gt => rfl

/-- No two elements are equivalent. -/
def Apart (cmp : α → α → Ordering) (l : List α) : Prop :=
  l.Pairwise fun a b => cmp a b ≠ .eq

theorem StrictlySorted.apart {l : List α} (h : StrictlySorted cmp l) : Apart cmp l :=
  h.imp fun hlt heq => by rw [hlt] at heq; cases heq

variable [Std.TransCmp cmp]

theorem Apart.perm {l l' : List α} (h : Apart cmp l) (hperm : l.Perm l') : Apart cmp l' :=
  hperm.pairwise h fun hne heq => hne (Std.OrientedCmp.eq_symm heq)

theorem perm_foldl_insertOver {acc l : List α} (h : Apart cmp (acc ++ l)) :
    (l.foldl (fun m a => insertOver cmp a m) acc).Perm (acc ++ l) := by
  induction l generalizing acc with
  | nil => rw [List.append_nil]; exact .refl _
  | cons a l ih =>
    have hmiddle : (acc ++ a :: l).Perm ((a :: acc) ++ l) := List.perm_middle
    have hcons : Apart cmp ((a :: acc) ++ l) := h.perm hmiddle
    have hins : (insertOver cmp a acc).Perm (a :: acc) :=
      perm_insertOver fun b hb => (List.pairwise_cons.mp hcons).1 b (List.mem_append_left _ hb)
    have hperm : (insertOver cmp a acc ++ l).Perm (acc ++ a :: l) :=
      (hins.append_right l).trans hmiddle.symm
    exact (ih (h.perm hperm.symm)).trans hperm

theorem strictlySorted_foldl_insertOver {acc : List α} (h : StrictlySorted cmp acc)
    (l : List α) : StrictlySorted cmp (l.foldl (fun m a => insertOver cmp a m) acc) := by
  induction l generalizing acc with
  | nil => exact h
  | cons a l ih => exact ih h.insertOver

/-- The elements of a sorted list may be inserted in any order. -/
theorem foldl_insertOver_of_perm {l l' : List α} (h : StrictlySorted cmp l) (hperm : l'.Perm l) :
    l'.foldl (fun m a => insertOver cmp a m) [] = l := by
  have hfold := @perm_foldl_insertOver α cmp _ [] l' (h.apart.perm hperm.symm)
  exact (strictlySorted_foldl_insertOver .nil l').ext h fun a => (hfold.trans hperm).mem_iff

/-- A new element of a set. -/
theorem SortedSet.perm_insert [Std.LawfulEqCmp cmp] {s : SortedSet cmp} {a : α} (h : a ∉ s) :
    (s.insert a).elems.Perm (a :: s.elems) := by
  have hne : ∀ b ∈ s.elems, cmp a b ≠ .eq := by
    intro b hb heq
    obtain rfl := Std.LawfulEqCmp.eq_of_compare heq
    exact h hb
  show (insertNew cmp a s.elems).Perm (a :: s.elems)
  rw [insertNew_eq_insertOver hne]
  exact perm_insertOver hne

end Perm

section Keys

variable {cmp : κ → κ → Ordering} [Std.LawfulEqCmp cmp]

theorem byKey_ne_eq {e : κ × ν} {l : List (κ × ν)} (h : e.1 ∉ l.map Prod.fst) :
    ∀ b ∈ l, byKey cmp e b ≠ .eq := by
  intro b hb heq
  have hkey : e.1 = b.1 := Std.LawfulEqCmp.eq_of_compare heq
  exact h (hkey ▸ List.mem_map_of_mem hb)

/-- A new key. -/
theorem perm_insertOver_byKey {e : κ × ν} {l : List (κ × ν)} (h : e.1 ∉ l.map Prod.fst) :
    (insertOver (byKey cmp) e l).Perm (e :: l) :=
  perm_insertOver (byKey_ne_eq h)

theorem apart_byKey {l : List (κ × ν)} (h : (l.map Prod.fst).Nodup) : Apart (byKey cmp) l :=
  (List.pairwise_map.mp h).imp fun hne heq => hne (Std.LawfulEqCmp.eq_of_compare heq)

omit [Std.LawfulEqCmp cmp] in
/-- Insertion looks at the keys only. -/
theorem foldl_insertOver_mapValues {μ : Type} (f : ν → μ) (l : List (κ × ν)) :
    (l.map fun e => (e.1, f e.2)).foldl (fun m e => insertOver (byKey cmp) e m) [] =
      (l.foldl (fun m e => insertOver (byKey cmp) e m) []).map fun e => (e.1, f e.2) :=
  @foldl_insertOver_map (κ × ν) (κ × μ) (byKey cmp) (fun e => (e.1, f e.2)) l []

end Keys

/-! ### Maps of lists -/

namespace SortedMap

variable {cmp : κ → κ → Ordering} [Std.TransCmp cmp]

theorem elems_foldl_assign (l : List (κ × ν)) (m : SortedMap cmp ν) :
    (l.foldl (fun m e => m.assign e.1 e.2) m).elems =
      l.foldl (fun m e => insertOver (byKey cmp) e m) m.elems := by
  induction l generalizing m with
  | nil => rfl
  | cons e l ih => exact ih (m.assign e.1 e.2)

theorem ofList_mapValues {μ : Type} (f : ν → μ) (l : List (κ × ν)) :
    (ofList (l.map fun e => (e.1, f e.2)) : SortedMap cmp μ) = (ofList l).mapValues f := by
  have helems : ∀ {ν : Type} (l : List (κ × ν)), (ofList l : SortedMap cmp ν).elems =
      l.foldl (fun m e => insertOver (byKey cmp) e m) [] := fun l => elems_foldl_assign l .empty
  apply SortedSet.eq_of_elems
  calc (ofList (l.map fun e => (e.1, f e.2)) : SortedMap cmp μ).elems
      = (l.foldl (fun m e => insertOver (byKey cmp) e m) []).map fun e => (e.1, f e.2) := by
        rw [helems, foldl_insertOver_mapValues]
    _ = (ofList l : SortedMap cmp ν).elems.map fun e => (e.1, f e.2) := by rw [helems]

variable [Std.LawfulEqCmp cmp] [DecidableEq κ]

theorem mem_of_mem_ofList {l : List (κ × ν)} {e : κ × ν}
    (h : e ∈ (ofList l : SortedMap cmp ν).elems) : e ∈ l :=
  mem_of_find?_ofList (find?_eq_some.mpr h)

/-- Of the entries with one key, the last one counts. -/
theorem find?_ofList (l : List (κ × ν)) (k : κ) :
    (ofList l : SortedMap cmp ν).find? k = (l.reverse.find? (·.1 = k)).map Prod.snd := by
  induction l using List.reverseRec with
  | nil => rfl
  | append_singleton l e ih =>
    have hofList : (ofList (l ++ [e]) : SortedMap cmp ν) = (ofList l).assign e.1 e.2 := by
      rw [ofList, List.foldl_append]
      rfl
    rw [hofList, find?_assign, List.reverse_append, List.reverse_singleton,
      List.singleton_append, List.find?_cons]
    by_cases hkey : e.1 = k
    · simp [hkey]
    · simp [hkey, ih, eq_comm]

/-- Entries with different keys are all found. -/
theorem find?_ofList_of_nodup {l : List (κ × ν)} (h : (l.map Prod.fst).Nodup) {k : κ} {v : ν} :
    (ofList l : SortedMap cmp ν).find? k = some v ↔ (k, v) ∈ l := by
  constructor
  · exact mem_of_find?_ofList
  · intro hin
    rw [find?_ofList]
    cases hfind : l.reverse.find? (·.1 = k) with
    | none => exact absurd (List.find?_eq_none.mp hfind _ (List.mem_reverse.mpr hin)) (by simp)
    | some e =>
      have hkey : e.1 = k := by simpa using List.find?_some hfind
      have hmem := List.mem_reverse.mp (List.mem_of_find?_eq_some hfind)
      rw [List.inj_on_of_nodup_map h hmem hin hkey]
      rfl

end SortedMap

end Nix.Lib.SortedList
