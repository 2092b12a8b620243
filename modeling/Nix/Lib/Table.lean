import Mathlib.Data.List.Basic
import Mathlib.Data.List.Nodup

/-!
Tables: lists of rows with a column that identifies a row.
-/

namespace Nix.Lib.Table

variable {ρ κ : Type} [DecidableEq κ] (key : ρ → κ)

/-- The row with the given key. -/
def select (l : List ρ) (k : κ) : Option ρ :=
  l.find? (key · = k)

variable {key}

theorem mem_of_select {l : List ρ} {k : κ} {r : ρ} (h : select key l k = some r) : r ∈ l :=
  List.mem_of_find?_eq_some h

theorem key_of_select {l : List ρ} {k : κ} {r : ρ} (h : select key l k = some r) : key r = k := by
  simpa using List.find?_some h

theorem select_eq_none {l : List ρ} {k : κ} : select key l k = none ↔ k ∉ l.map key := by
  simp [select]

theorem select_of_mem {l : List ρ} (hl : (l.map key).Nodup) {r : ρ} (hr : r ∈ l) :
    select key l (key r) = some r := by
  induction l with
  | nil => simp at hr
  | cons s l ih =>
      obtain ⟨hs, hl⟩ := List.nodup_cons.mp hl
      rcases List.mem_cons.mp hr with rfl | hr
      · simp [select]
      · have hne : key s ≠ key r := fun heq => hs (heq ▸ List.mem_map_of_mem hr)
        rw [select, List.find?_cons_of_neg (by simpa using hne)]
        exact ih hl hr

theorem select_append_of_ne {l : List ρ} {r : ρ} {k : κ} (h : key r ≠ k) :
    select key (l ++ [r]) k = select key l k := by
  simp [select, h]

theorem select_append_self {l : List ρ} {r : ρ} (h : select key l (key r) = none) :
    select key (l ++ [r]) (key r) = some r := by
  rw [select] at h
  simp [select, h]

theorem select_cons_of_ne {l : List ρ} {r : ρ} {k : κ} (h : key r ≠ k) :
    select key (r :: l) k = select key l k := by
  simp [select, h]

theorem select_filter_ne (l : List ρ) (k k' : κ) :
    select key (l.filter (key · ≠ k)) k' = if k' = k then none else select key l k' := by
  rw [select, List.find?_filter]
  split
  next h =>
    subst h
    simp
  next h =>
    rw [select]
    congr 1
    funext r
    by_cases hr : key r = k' <;> simp [hr, h]

theorem select_map {f : ρ → ρ} (hf : ∀ r, key (f r) = key r) (l : List ρ) (k : κ) :
    select key (l.map f) k = (select key l k).map f := by
  simp only [select, List.find?_map, Function.comp_def, hf]

end Nix.Lib.Table
