import Mathlib.Data.List.Infix
import Nix.Lib.SortedMaps
import Nix.Lib.SortedTrees

/-!
Trees as finite maps from the paths to their nodes, where no node is left that has neither a value
nor children.
-/

namespace Nix.Lib.Tries

open Lib.SortedList Lib.SortedTrees
open SortedTree

/-- Values of which some count as no value. -/
class Slot (β : Type) where
  empty : β
  isEmpty : β → Bool
  isEmpty_empty : isEmpty empty = true

variable {κ β ν : Type} {cmp : κ → κ → Ordering}

/-! ### Nodes -/

section

variable [Slot β]

def labelOf (t : Option (SortedTree cmp β)) : β :=
  t.elim Slot.empty label

def entriesOf (t : Option (SortedTree cmp β)) : SortedMap cmp (SortedTree cmp β) :=
  t.elim .empty entries

def nonempty (v : β) : Option β :=
  if Slot.isEmpty v then none else some v

/-- A node that is needed. -/
def prune (n : SortedTree cmp β) : Option (SortedTree cmp β) :=
  if Slot.isEmpty n.label && n.entries.elems.isEmpty then none else some n

/-- No node has neither a value nor children. -/
def Pruned : SortedTree cmp β → Prop
  | .node label keys child =>
      (Slot.isEmpty label = false ∨ keys.elems ≠ []) ∧ ∀ i, Pruned (child i)

theorem nonempty_labelOf (t : Option (SortedTree cmp β)) :
    nonempty (labelOf t) = t.bind fun n => nonempty n.label := by
  cases t with
  | none => exact if_pos Slot.isEmpty_empty
  | some n => rfl

theorem nonempty_prune (n : SortedTree cmp β) :
    ((prune n).bind fun n => nonempty n.label) = nonempty n.label := by
  unfold prune
  split
  next h => exact (if_pos (Bool.and_eq_true_iff.mp h).1).symm
  next => rfl

theorem pruned_iff {n : SortedTree cmp β} :
    Pruned n ↔ (Slot.isEmpty n.label = false ∨ n.entries.elems ≠ []) ∧
      ∀ e ∈ n.entries.elems, Pruned e.2 := by
  obtain ⟨label, keys, child⟩ := n
  have hne : keys.elems ≠ [] ↔ (entries (node label keys child)).elems ≠ [] := by
    rw [← map_fst_ofFn keys child]
    exact not_congr List.map_eq_nil_iff
  rw [Pruned, hne]
  refine and_congr Iff.rfl ?_
  simp only [entries, List.forall_mem_ofFn_iff]

theorem pruned_of_mem_prune {n : SortedTree cmp β} (h : ∀ e ∈ n.entries.elems, Pruned e.2) :
    ∀ n' ∈ prune n, Pruned n' := by
  unfold prune
  split
  next => exact fun _ hn' => nomatch hn'
  next hneeded =>
    rintro n' hn'
    cases hn'
    refine pruned_iff.mpr ⟨?_, h⟩
    rw [Bool.and_eq_true_iff, not_and_or, List.isEmpty_iff] at hneeded
    exact hneeded.imp_left Bool.eq_false_iff.mpr

end

/-! ### Paths -/

section

variable [DecidableEq κ]

def childAt (t : Option (SortedTree cmp β)) (k : κ) : Option (SortedTree cmp β) :=
  t.bind fun n => n.entries.find? k

def nodeAt : List κ → Option (SortedTree cmp β) → Option (SortedTree cmp β)
  | [], t => t
  | k :: p, t => nodeAt p (childAt t k)

theorem find?_entriesOf (t : Option (SortedTree cmp β)) (k : κ) :
    (entriesOf t).find? k = childAt t k := by
  cases t with
  | none => rfl
  | some n => rfl

theorem nodeAt_append (p q : List κ) (t : Option (SortedTree cmp β)) :
    nodeAt (p ++ q) t = nodeAt q (nodeAt p t) := by
  induction p generalizing t with
  | nil => rfl
  | cons k p ih => exact ih _

variable [Slot β]

def valueAt (p : List κ) (t : Option (SortedTree cmp β)) : Option β :=
  (nodeAt p t).bind fun n => nonempty n.label

theorem childAt_prune (n : SortedTree cmp β) (k : κ) :
    childAt (prune n) k = n.entries.find? k := by
  unfold prune
  split
  next h =>
    have hempty : n.entries = .empty :=
      SortedSet.eq_of_elems (List.isEmpty_iff.mp (Bool.and_eq_true_iff.mp h).2)
    rw [hempty]
    rfl
  next => rfl

theorem valueAt_cons (k : κ) (p : List κ) (t : Option (SortedTree cmp β)) :
    valueAt (k :: p) t = valueAt p (childAt t k) := rfl

theorem valueAt_prune (n : SortedTree cmp β) (p : List κ) :
    valueAt p (prune n) = valueAt p (some n) := by
  cases p with
  | nil => exact nonempty_prune n
  | cons k p =>
    rw [valueAt_cons, childAt_prune]
    rfl

end

/-! ### Altering a node -/

variable [DecidableEq κ] [Std.TransCmp cmp]

def alter (m : SortedMap cmp ν) (k : κ) (f : Option ν → Option ν) : SortedMap cmp ν :=
  match f (m.find? k) with
  | some v => m.assign k v
  | none => m.erase k

/-- What comes of a value after a callback that changes it and says whether to keep it. -/
def keep (onValue : ν → ν × Bool) (v : Option ν) : Option ν :=
  v.bind fun v => if (onValue v).2 then some (onValue v).1 else none

theorem alter_keep (onValue : ν → ν × Bool) (m : SortedMap cmp ν) (k : κ) :
    alter m k (keep onValue) =
      match m.find? k with
      | none => m
      | some v => if (onValue v).2 then m.assign k (onValue v).1 else m.erase k := by
  rw [alter]
  cases hfind : m.find? k with
  | none => exact SortedMap.erase_of_find?_eq_none hfind
  | some v => cases hkeep : (onValue v).2 <;> simp [keep, hkeep]

section

variable [Slot β]

/-- Alter the node at a path, with the nodes above it. -/
def alterAt : List κ → (Option (SortedTree cmp β) → Option (SortedTree cmp β)) →
    Option (SortedTree cmp β) → Option (SortedTree cmp β)
  | [], f, t => f t
  | k :: p, f, t => prune (ofEntries (labelOf t) (alter (entriesOf t) k (alterAt p f)))

theorem alterAt_append (p q : List κ)
    (f : Option (SortedTree cmp β) → Option (SortedTree cmp β)) (t : Option (SortedTree cmp β)) :
    alterAt (p ++ q) f t = alterAt p (alterAt q f) t := by
  induction p generalizing t with
  | nil => rfl
  | cons k p ih =>
    have hfun : alterAt (p ++ q) f = alterAt p (alterAt q f) := funext ih
    rw [List.cons_append, alterAt, alterAt, hfun]

theorem pruned_childAt {t : Option (SortedTree cmp β)} (h : ∀ n ∈ t, Pruned n) (k : κ) :
    ∀ n ∈ childAt t k, Pruned n := by
  intro n hn
  obtain ⟨parent, hparent, hn⟩ := Option.bind_eq_some_iff.mp hn
  exact (pruned_iff.mp (h parent hparent)).2 (k, n) (SortedMap.find?_eq_some.mp hn)

end

variable [Std.LawfulEqCmp cmp]

theorem find?_alter (m : SortedMap cmp ν) (k k' : κ) (f : Option ν → Option ν) :
    (alter m k f).find? k' = if k = k' then f (m.find? k) else m.find? k' := by
  unfold alter
  split
  next v hv => rw [SortedMap.find?_assign, hv]
  next hv =>
    rw [SortedMap.find?_erase, hv]
    exact if_congr eq_comm rfl rfl

theorem mem_alter {m : SortedMap cmp ν} {k : κ} {f : Option ν → Option ν} {P : ν → Prop}
    (hm : ∀ e ∈ m.elems, P e.2) (hf : ∀ v ∈ f (m.find? k), P v) :
    ∀ e ∈ (alter m k f).elems, P e.2 := by
  rintro ⟨k', v⟩ he
  have hfind := SortedMap.find?_eq_some.mpr he
  rw [find?_alter] at hfind
  split at hfind
  next => exact hf v hfind
  next => exact hm (k', v) (SortedMap.find?_eq_some.mp hfind)

variable [Slot β]

theorem valueAt_alterAt_append (p q : List κ)
    (f : Option (SortedTree cmp β) → Option (SortedTree cmp β)) (t : Option (SortedTree cmp β)) :
    valueAt (p ++ q) (alterAt p f t) = valueAt q (f (nodeAt p t)) := by
  induction p generalizing t with
  | nil => rfl
  | cons k p ih =>
    rw [List.cons_append, valueAt_cons, alterAt, childAt_prune, entries_ofEntries, find?_alter,
      if_pos rfl, ih, find?_entriesOf]
    rfl

/-- The values at other paths stay. -/
theorem valueAt_alterAt_of_unrelated {p q : List κ} (h : ¬p <+: q)
    (f : Option (SortedTree cmp β) → Option (SortedTree cmp β)) (t : Option (SortedTree cmp β)) :
    valueAt q (alterAt p f t) = valueAt q t := by
  induction p generalizing q t with
  | nil => exact absurd List.nil_prefix h
  | cons k p ih =>
    rw [alterAt, valueAt_prune]
    cases q with
    | nil => exact nonempty_labelOf t
    | cons k' q =>
      rw [valueAt_cons, valueAt_cons, ← find?_entriesOf t]
      change valueAt q ((ofEntries _ _).entries.find? k') = _
      rw [entries_ofEntries, find?_alter]
      split
      next heq =>
        subst heq
        exact ih (fun hpre => h (List.cons_prefix_cons.mpr ⟨rfl, hpre⟩)) _
      next => rfl

theorem pruned_alterAt (p : List κ) {f : Option (SortedTree cmp β) → Option (SortedTree cmp β)}
    (hf : ∀ t, (∀ n ∈ t, Pruned n) → ∀ n ∈ f t, Pruned n) {t : Option (SortedTree cmp β)}
    (ht : ∀ n ∈ t, Pruned n) : ∀ n ∈ alterAt p f t, Pruned n := by
  induction p generalizing t with
  | nil => exact hf t ht
  | cons k p ih =>
    refine pruned_of_mem_prune ?_
    rw [entries_ofEntries]
    refine mem_alter ?_ ?_
    · cases t with
      | none => exact fun _ he => nomatch he
      | some n => exact (pruned_iff.mp (ht n rfl)).2
    · rw [find?_entriesOf]
      exact ih (pruned_childAt ht k)

end Nix.Lib.Tries
