import Nix.Lib.SortedMaps

/-!
Trees with sorted maps for their inner nodes, with a hole where a tree is to be put.
-/

namespace Nix.Lib.TreeContexts

open Lib.SortedList

variable {κ τ : Type}

/-- What is above a hole, from the root on: the key of the next tree and the other entries. -/
abbrev Context (κ τ : Type) := List (κ × List (κ × τ))

variable (cmp : κ → κ → Ordering) (directory : List (κ × τ) → τ)

/-- The tree with something in the hole. -/
def plug : Context κ τ → τ → τ
  | [], tree => tree
  | (key, entries) :: above, tree =>
      directory (insertOver (byKey cmp) (key, plug above tree) entries)

/-- The tree with nothing in the hole, which is no tree if the hole is at the root. -/
def before : Context κ τ → Option τ
  | [] => none
  | (key, entries) :: above =>
      some (directory (match before above with
        | none => entries
        | some tree => insertOver (byKey cmp) (key, tree) entries))

/-- Nothing has the key of the hole. -/
def Fresh (above : Context κ τ) : Prop :=
  ∀ key entries, above.getLast? = some (key, entries) → key ∉ entries.map Prod.fst

variable {cmp directory} {above : Context κ τ} {key : κ} {entries : List (κ × τ)} {tree : τ}

/-- A hole in a directory that is put into a hole. -/
theorem plug_append : plug cmp directory (above ++ [(key, entries)]) tree =
    plug cmp directory above (directory (insertOver (byKey cmp) (key, tree) entries)) := by
  induction above with
  | nil => rfl
  | cons p above ih => rw [List.cons_append, plug, plug, ih]

theorem before_append : before cmp directory (above ++ [(key, entries)]) =
    some (plug cmp directory above (directory entries)) := by
  induction above with
  | nil => rfl
  | cons p above ih => rw [List.cons_append, before, ih, plug]

theorem fresh_nil : Fresh ([] : Context κ τ) := fun _ _ h => nomatch h

theorem fresh_append (h : key ∉ entries.map Prod.fst) : Fresh (above ++ [(key, entries)]) := by
  intro key' entries' hlast
  rw [List.getLast?_concat] at hlast
  obtain ⟨rfl, rfl⟩ := Prod.mk.inj (Option.some.inj hlast)
  exact h

section Filling

variable [Std.LawfulEqCmp cmp] {ε S ι : Type}

/-- A directory is filled by steps that each put one entry into it. -/
theorem exists_foldlM_insertOver {step : S → ι → Except ε S} {State : List (κ × τ) → S → Prop}
    {steps : List ι} {children acc : List (κ × τ)} {s : S}
    (hnodup : ((acc ++ children).map Prod.fst).Nodup)
    (hsteps : List.Forall₂ (fun i e => ∀ entries s, e.1 ∉ entries.map Prod.fst →
      State entries s → ∃ s', step s i = .ok s' ∧ State (insertOver (byKey cmp) e entries) s')
      steps children)
    (hs : State acc s) :
    ∃ s', steps.foldlM step s = .ok s' ∧
      State (children.foldl (fun m e => insertOver (byKey cmp) e m) acc) s' := by
  induction hsteps generalizing acc s with
  | nil => exact ⟨s, rfl, hs⟩
  | @cons i e steps children hstep _ ih =>
    have hmiddle : (acc ++ e :: children).Perm ((e :: acc) ++ children) := List.perm_middle
    have hnodup' := (hmiddle.map Prod.fst).nodup_iff.mp hnodup
    have hnotMem : e.1 ∉ acc.map Prod.fst := fun hin =>
      (List.nodup_cons.mp hnodup').1 (List.map_subset _ (List.subset_append_left _ _) hin)
    have hins : (insertOver (byKey cmp) e acc).Perm (e :: acc) := perm_insertOver_byKey hnotMem
    obtain ⟨s', hs', hstate⟩ := hstep acc s hnotMem hs
    have hfold := ih ((((hins.append_right children).map Prod.fst).nodup_iff).mpr hnodup') hstate
    rw [List.foldlM_cons, hs']
    exact hfold

/-- The same for steps that are given as a function of the entries. -/
theorem foldlM_insertOver {step : S → κ × τ → Except ε S} {state : List (κ × τ) → S}
    {children acc : List (κ × τ)} (hnodup : ((acc ++ children).map Prod.fst).Nodup)
    (hstep : ∀ e ∈ children, ∀ entries, e.1 ∉ entries.map Prod.fst →
      step (state entries) e = .ok (state (insertOver (byKey cmp) e entries))) :
    children.foldlM step (state acc) =
      .ok (state (children.foldl (fun m e => insertOver (byKey cmp) e m) acc)) := by
  have hsteps : List.Forall₂ (fun e e' => ∀ entries s, e'.1 ∉ entries.map Prod.fst →
      s = state entries → ∃ s', step s e = .ok s' ∧
        s' = state (insertOver (byKey cmp) e' entries)) children children :=
    List.forall₂_same.mpr fun e he entries s hnotMem hs =>
      ⟨_, hs ▸ hstep e he entries hnotMem, rfl⟩
  obtain ⟨_, hfold, rfl⟩ := @exists_foldlM_insertOver κ τ cmp _ ε S _ step
    (fun entries s => s = state entries) children children acc _ hnodup hsteps rfl
  exact hfold

end Filling

end Nix.Lib.TreeContexts
