import Mathlib.Data.List.OfFn
import Nix.Lib.SortedList

/-!
Labelled trees whose children are kept in an ordered map.
-/

namespace Nix.Lib.SortedTrees

open Lib.SortedList

variable {κ β γ : Type} {cmp : κ → κ → Ordering}

inductive SortedTree (cmp : κ → κ → Ordering) (β : Type)
  | node (label : β) (keys : SortedSet cmp) (child : Fin keys.elems.length → SortedTree cmp β)

namespace SortedTree

def label : SortedTree cmp β → β
  | node label _ _ => label

theorem map_fst_ofFn (keys : SortedSet cmp) (child : Fin keys.elems.length → γ) :
    (List.ofFn fun i => (keys.elems.get i, child i)).map Prod.fst = keys.elems := by
  rw [List.map_ofFn]
  exact List.ofFn_get keys.elems

/-- The children with their keys. -/
def entries : SortedTree cmp β → SortedMap cmp (SortedTree cmp β)
  | node _ keys child =>
      ⟨List.ofFn fun i => (keys.elems.get i, child i),
        strictlySorted_byKey.mpr (by rw [map_fst_ofFn]; exact keys.sorted)⟩

def ofEntries (label : β) (m : SortedMap cmp (SortedTree cmp β)) : SortedTree cmp β :=
  node label ⟨m.elems.map Prod.fst, strictlySorted_byKey.mp m.sorted⟩
    fun i => (m.elems.get (i.cast (List.length_map _))).2

theorem node_congr {label : β} {keys keys' : SortedSet cmp} (h : keys.elems = keys'.elems)
    {child : Fin keys.elems.length → SortedTree cmp β}
    {child' : Fin keys'.elems.length → SortedTree cmp β}
    (hchild : ∀ i, child i = child' (i.cast (by rw [h]))) :
    node label keys child = node label keys' child' := by
  obtain ⟨l, hl⟩ := keys
  obtain ⟨l', hl'⟩ := keys'
  dsimp only at h
  subst h
  congr
  funext i
  exact hchild i

@[simp] theorem ofEntries_entries (t : SortedTree cmp β) : ofEntries t.label t.entries = t := by
  cases t with
  | node label keys child =>
      refine node_congr (map_fst_ofFn keys child) fun i => ?_
      simp only [entries, List.get_ofFn]
      rfl

theorem entries_ofEntries (label : β) (m : SortedMap cmp (SortedTree cmp β)) :
    (ofEntries label m).entries = m := by
  refine SortedSet.eq_of_elems (List.ext_get ?_ fun i h h' => ?_)
  · simp [ofEntries, entries]
  · simp [ofEntries, entries]

end SortedTree

/-! ### Families -/

/-- The map with these keys. -/
def ofFamily (keys : SortedSet cmp) (f : Fin keys.elems.length → β) : SortedMap cmp β :=
  ⟨List.ofFn fun i => (keys.elems.get i, f i),
    strictlySorted_byKey.mpr (by rw [SortedTree.map_fst_ofFn]; exact keys.sorted)⟩

/-- What is built from the keys of the map and from its values is built from the family. -/
theorem build_ofFamily (build : (keys : SortedSet cmp) → (Fin keys.elems.length → β) → γ)
    (keys : SortedSet cmp) (f : Fin keys.elems.length → β) :
    build ⟨(ofFamily keys f).elems.map Prod.fst, strictlySorted_byKey.mp (ofFamily keys f).sorted⟩
      (fun i => ((ofFamily keys f).elems.get (i.cast (List.length_map _))).2) = build keys f := by
  have hcongr : ∀ {keys' : SortedSet cmp} (h : keys'.elems = keys.elems)
      (f' : Fin keys'.elems.length → β),
      (∀ i, f' i = f (i.cast (congrArg List.length h))) → build keys' f' = build keys f := by
    rintro ⟨l, hl⟩ h f' heq
    obtain ⟨l', hl'⟩ := keys
    dsimp only at h
    subst h
    exact congrArg _ (funext heq)
  refine hcongr (SortedTree.map_fst_ofFn keys f) _ fun i => ?_
  simp only [ofFamily, List.get_ofFn]
  rfl

end Nix.Lib.SortedTrees
