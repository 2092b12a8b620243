import Mathlib.Data.List.Perm.Basic
import Nix.Lib.Table

set_option linter.dupNamespace false

namespace Nix.Util.LruCaches

open Lib.Table

/-- `class LRUCache`. A node of the list `lru` has an identity, which an
`LRUIterator` keeps, and points to the key of its entry in the map `data`. -/
structure LRUCache (κ ν : Type) where
  capacity : Nat
  data : List (κ × Nat × ν) := []
  lru : List (Nat × κ) := []
  nextNode : Nat := 0

namespace LRUCache

variable {κ ν : Type} [DecidableEq κ]

/-- `data.find(key)`. -/
def find (c : LRUCache κ ν) (key : κ) : Option (Nat × ν) :=
  (select Prod.fst c.data key).map Prod.snd

/-- Move a node to the back of the list, by `splice`. -/
def promote (c : LRUCache κ ν) (it : Nat) : LRUCache κ ν :=
  { c with lru := c.lru.filter (·.1 ≠ it) ++ c.lru.filter (·.1 = it) }

def erase (c : LRUCache κ ν) (key : κ) : Bool × LRUCache κ ν :=
  match c.find key with
  | none => (false, c)
  | some (it, _) =>
      (true, { c with
        lru := c.lru.filter (·.1 ≠ it)
        data := c.data.filter (·.1 ≠ key) })

def evict (c : LRUCache κ ν) : LRUCache κ ν :=
  match c.lru with
  | [] => c
  | (_, oldest) :: lru => { c with data := c.data.filter (·.1 ≠ oldest), lru }

def upsert (c : LRUCache κ ν) (key : κ) (value : ν) : LRUCache κ ν :=
  if c.capacity = 0 then c
  else
    let c := (c.erase key).2
    let c := if c.data.length ≥ c.capacity then c.evict else c
    { c with
      data := (key, c.nextNode, value) :: c.data
      lru := c.lru ++ [(c.nextNode, key)]
      nextNode := c.nextNode + 1 }

def get (c : LRUCache κ ν) (key : κ) : Option ν × LRUCache κ ν :=
  match c.find key with
  | none => (none, c)
  | some (it, value) => (some value, c.promote it)

def value? (c : LRUCache κ ν) (key : κ) : Option ν :=
  (c.find key).map Prod.snd

def Inert (c : LRUCache κ ν) : Prop :=
  c.capacity = 0 → c.data = []

theorem value?_eq (c : LRUCache κ ν) (key : κ) :
    c.value? key = (select Prod.fst c.data key).map (·.2.2) := by
  rw [value?, find, Option.map_map]
  rfl

/-- Looking a key up changes its age only. -/
@[simp] theorem get_fst (c : LRUCache κ ν) (key : κ) : (c.get key).1 = c.value? key := by
  unfold get value?
  cases c.find key <;> rfl

@[simp] theorem get_snd_data (c : LRUCache κ ν) (key : κ) :
    (c.get key).2.data = c.data := by
  unfold get
  cases c.find key <;> rfl

@[simp] theorem get_snd_capacity (c : LRUCache κ ν) (key : κ) :
    (c.get key).2.capacity = c.capacity := by
  unfold get
  cases c.find key <;> rfl

@[simp] theorem value?_get (c : LRUCache κ ν) (key key' : κ) :
    (c.get key).2.value? key' = c.value? key' := by
  simp [value?_eq]

@[simp] theorem erase_snd_capacity (c : LRUCache κ ν) (key : κ) :
    (c.erase key).2.capacity = c.capacity := by
  unfold erase
  cases c.find key <;> rfl

theorem erase_snd_data (c : LRUCache κ ν) (key : κ) :
    (c.erase key).2.data = c.data.filter (·.1 ≠ key) := by
  unfold erase
  cases h : c.find key with
  | some e => rfl
  | none =>
      have hnone : key ∉ c.data.map Prod.fst := select_eq_none.mp (by simpa [find] using h)
      refine (List.filter_eq_self.mpr fun e he => ?_).symm
      rw [decide_eq_true_eq]
      rintro rfl
      exact hnone (List.mem_map_of_mem he)

theorem value?_erase (c : LRUCache κ ν) (key key' : κ) :
    (c.erase key).2.value? key' = if key' = key then none else c.value? key' := by
  rw [value?_eq, erase_snd_data, select_filter_ne, value?_eq]
  split <;> simp

theorem value?_of_value?_evict {c : LRUCache κ ν} {key : κ} {v : ν}
    (h : c.evict.value? key = some v) : c.value? key = some v := by
  unfold evict at h
  split at h
  · exact h
  · rw [value?_eq, select_filter_ne] at h
    split at h
    · simp at h
    · rwa [value?_eq]

@[simp] theorem evict_capacity (c : LRUCache κ ν) : c.evict.capacity = c.capacity := by
  unfold evict
  split <;> rfl

@[simp] theorem upsert_capacity (c : LRUCache κ ν) (key : κ) (value : ν) :
    (c.upsert key value).capacity = c.capacity := by
  unfold upsert
  split
  · rfl
  · dsimp only
    split <;> simp

theorem value?_upsert {c : LRUCache κ ν} {key key' : κ} {value w : ν} (hc : c.Inert)
    (h : (c.upsert key value).value? key' = some w) :
    (key' = key ∧ w = value) ∨ (key' ≠ key ∧ c.value? key' = some w) := by
  unfold upsert at h
  split at h
  next hcap => simp [value?_eq, select, hc hcap] at h
  next =>
    by_cases hkey : key' = key
    · subst hkey
      simp [value?_eq, select] at h
      exact .inl ⟨rfl, h.symm⟩
    · refine .inr ⟨hkey, ?_⟩
      have herase : (c.erase key).2.value? key' = some w := by
        rw [value?_eq, select_cons_of_ne (Ne.symm hkey), ← value?_eq] at h
        split at h
        · exact value?_of_value?_evict h
        · exact h
      rwa [value?_erase, if_neg hkey] at herase

theorem Inert.value? {c : LRUCache κ ν} (hc : c.Inert) (hcap : c.capacity = 0) (key : κ) :
    c.value? key = none := by
  simp [value?_eq, select, hc hcap]

theorem Inert.get {c : LRUCache κ ν} (hc : c.Inert) (key : κ) : (c.get key).2.Inert := by
  intro hcap
  simpa using hc (by simpa using hcap)

theorem Inert.erase {c : LRUCache κ ν} (hc : c.Inert) (key : κ) : (c.erase key).2.Inert := by
  intro hcap
  simp [erase_snd_data, hc (by simpa using hcap)]

theorem Inert.upsert {c : LRUCache κ ν} (hc : c.Inert) (key : κ) (value : ν) :
    (c.upsert key value).Inert := by
  intro hcap
  have hcap' : c.capacity = 0 := by simpa using hcap
  simpa [LRUCache.upsert, hcap'] using hc hcap'

end LRUCache

/-!
A cache against the list of its entries in the order of their last use.
-/

variable {κ ν : Type} [DecidableEq κ]

namespace LRUCache

def clear (c : LRUCache κ ν) : LRUCache κ ν :=
  { c with data := [], lru := [] }

def getOrNullptr (c : LRUCache κ ν) (key : κ) (change : ν → ν) : Option ν × LRUCache κ ν :=
  match c.find key with
  | none => (none, c)
  | some (it, value) =>
      let c := c.promote it
      (some value, { c with
        data := c.data.map fun e => if e.1 = key then (e.1, e.2.1, change e.2.2) else e })

end LRUCache

inductive Op (κ ν : Type)
  | upsert (key : κ) (value : ν)
  | get (key : κ)
  | getOrNullptr (key : κ) (change : ν → ν)
  | erase (key : κ)
  | clear

/-- What a use returns: nothing, a value that was found or not, or whether there was one. -/
inductive Answer (ν : Type)
  | unit
  | value (v : Option ν)
  | erased (b : Bool)

def LRUCache.step (c : LRUCache κ ν) : Op κ ν → Answer ν × LRUCache κ ν
  | .upsert key value => (.unit, c.upsert key value)
  | .get key => (c.get key).map .value id
  | .getOrNullptr key change => (c.getOrNullptr key change).map .value id
  | .erase key => (c.erase key).map .erased id
  | .clear => (.unit, c.clear)

/-- The answers to a sequence of uses, and what is left. -/
def LRUCache.run (c : LRUCache κ ν) : List (Op κ ν) → List (Answer ν) × LRUCache κ ν
  | [] => ([], c)
  | op :: ops =>
      let (answer, c) := c.step op
      let (answers, c) := run c ops
      (answer :: answers, c)

/-- Entries with distinct keys, from the least to the most recently used one. -/
abbrev Recency (κ ν : Type) := List (κ × ν)

namespace Recency

def find (l : Recency κ ν) (key : κ) : Option ν :=
  (select Prod.fst l key).map Prod.snd

def erase (l : Recency κ ν) (key : κ) : Recency κ ν :=
  l.filter (·.1 ≠ key)

/-- The entry becomes the most recent one, if it is there. -/
def use (l : Recency κ ν) (key : κ) (change : ν → ν) : Recency κ ν :=
  match find l key with
  | some value => erase l key ++ [(key, change value)]
  | none => l

/-- A present key is replaced, a new key may need the place of the oldest one. -/
def upsert (capacity : Nat) (l : Recency κ ν) (key : κ) (value : ν) : Recency κ ν :=
  if capacity = 0 then l
  else if key ∈ l.map Prod.fst then erase l key ++ [(key, value)]
  else if l.length < capacity then l ++ [(key, value)]
  else l.tail ++ [(key, value)]

def step (capacity : Nat) (l : Recency κ ν) : Op κ ν → Answer ν × Recency κ ν
  | .upsert key value => (.unit, upsert capacity l key value)
  | .get key => (.value (find l key), use l key id)
  | .getOrNullptr key change => (.value (find l key), use l key change)
  | .erase key => (.erased (key ∈ l.map Prod.fst), erase l key)
  | .clear => (.unit, [])

def run (capacity : Nat) (l : Recency κ ν) : List (Op κ ν) → List (Answer ν) × Recency κ ν
  | [] => ([], l)
  | op :: ops =>
      let (answer, l) := step capacity l op
      let (answers, l) := run capacity l ops
      (answer :: answers, l)

end Recency

/-- An entry of the map with its node of the list. -/
abbrev Row (κ ν : Type) := κ × Nat × ν

/-- The rows, in the order of the list, are those of the map, and no two have a key or a node in
common. -/
structure Linked (c : LRUCache κ ν) (rows : List (Row κ ν)) : Prop where
  lru : c.lru = rows.map fun r => (r.2.1, r.1)
  data : c.data.Perm rows
  keys : (rows.map Prod.fst).Nodup
  nodes : (rows.map (·.2.1)).Nodup
  fresh : ∀ r ∈ rows, r.2.1 < c.nextNode
  bounded : rows.length ≤ c.capacity

variable {c : LRUCache κ ν} {rows : List (Row κ ν)} {key : κ}

omit [DecidableEq κ] in
theorem linked_empty (capacity : Nat) : Linked ({ capacity } : LRUCache κ ν) [] where
  lru := rfl
  data := .nil
  keys := List.nodup_nil
  nodes := List.nodup_nil
  fresh := nofun
  bounded := Nat.zero_le _

theorem Linked.select_data (h : Linked c rows) (key : κ) :
    select Prod.fst c.data key = select Prod.fst rows key := by
  have hkeys : (c.data.map Prod.fst).Nodup := (h.data.map Prod.fst).nodup_iff.mpr h.keys
  cases hrow : select Prod.fst rows key with
  | none =>
    rw [select_eq_none] at hrow ⊢
    exact fun hin => hrow ((h.data.map Prod.fst).mem_iff.mp hin)
  | some r =>
    have hin : r ∈ c.data := h.data.mem_iff.mpr (mem_of_select hrow)
    rw [← key_of_select hrow]
    exact select_of_mem hkeys hin

theorem Linked.find_eq (h : Linked c rows) (key : κ) :
    c.find key = (select Prod.fst rows key).map Prod.snd := by
  rw [LRUCache.find, h.select_data]

omit [DecidableEq κ] in
theorem Linked.node_eq_iff (h : Linked c rows) {r r' : Row κ ν} (hr : r ∈ rows) (hr' : r' ∈ rows) :
    r.2.1 = r'.2.1 ↔ r.1 = r'.1 := by
  constructor
  · exact fun heq => congrArg Prod.fst (List.inj_on_of_nodup_map h.nodes hr hr' heq)
  · exact fun heq => congrArg (·.2.1) (List.inj_on_of_nodup_map h.keys hr hr' heq)

theorem Linked.filter_node (h : Linked c rows) {r : Row κ ν} (hr : r ∈ rows) :
    rows.filter (fun r' => r'.2.1 ≠ r.2.1) = rows.filter fun r' => r'.1 ≠ r.1 := by
  apply List.filter_congr
  intro r' hr'
  simp only [ne_eq, decide_not, h.node_eq_iff hr' hr]

theorem Linked.without (h : Linked c rows) {r : Row κ ν} (hr : r ∈ rows) :
    Linked { c with
      lru := c.lru.filter (·.1 ≠ r.2.1)
      data := c.data.filter (·.1 ≠ r.1) } (rows.filter (·.1 ≠ r.1)) where
  lru := by
    rw [← h.filter_node hr, h.lru, List.filter_map]
    rfl
  data := h.data.filter _
  keys := h.keys.sublist (List.filter_sublist.map Prod.fst)
  nodes := h.nodes.sublist (List.filter_sublist.map _)
  fresh := fun r' hr' => h.fresh r' (List.mem_of_mem_filter hr')
  bounded := Nat.le_trans (List.length_filter_le _ _) h.bounded

theorem Linked.filter_key (h : Linked c rows) {r : Row κ ν} (hr : r ∈ rows) :
    rows.filter (fun r' => r'.1 = r.1) = [r] := by
  have hnodup : (rows.filter fun r' => r'.1 = r.1).Nodup := (List.Nodup.of_map _ h.keys).filter _
  refine List.perm_singleton.mp ((List.perm_ext_iff_of_nodup hnodup (List.nodup_singleton r)).mpr
    fun r' => ?_)
  rw [List.mem_filter, List.mem_singleton, decide_eq_true_eq]
  constructor
  · exact fun ⟨hr', heq⟩ => List.inj_on_of_nodup_map h.keys hr' hr heq
  · rintro rfl
    exact ⟨hr, rfl⟩

theorem Linked.promote (h : Linked c rows) {r : Row κ ν} (hr : r ∈ rows) :
    Linked (c.promote r.2.1) (rows.filter (·.1 ≠ r.1) ++ [r]) := by
  have hperm : (rows.filter (·.1 ≠ r.1) ++ [r]).Perm rows := by
    rw [← h.filter_key hr]
    have hsplit := (List.filter_append_perm (fun r' : Row κ ν => r'.1 = r.1) rows)
    refine List.perm_append_comm.trans ?_
    simpa using hsplit
  exact
    { lru := by
        have hnode : rows.filter (fun r' => r'.2.1 = r.2.1) = [r] := by
          rw [← h.filter_key hr]
          apply List.filter_congr
          intro r' hr'
          simp only [h.node_eq_iff hr' hr]
        rw [List.map_append, ← h.filter_node hr, ← hnode, LRUCache.promote, h.lru, List.filter_map,
          List.filter_map]
        rfl
      data := h.data.trans hperm.symm
      keys := (hperm.map _).nodup_iff.mpr h.keys
      nodes := (hperm.map _).nodup_iff.mpr h.nodes
      fresh := fun r' hr' => h.fresh r' (hperm.mem_iff.mp hr')
      bounded := Nat.le_trans (Nat.le_of_eq hperm.length_eq) h.bounded }

omit [DecidableEq κ] in
theorem Linked.mapValues (h : Linked c rows) (f : Row κ ν → ν) :
    Linked { c with data := c.data.map fun r => (r.1, r.2.1, f r) }
      (rows.map fun r => (r.1, r.2.1, f r)) where
  lru := by
    rw [List.map_map]
    exact h.lru
  data := h.data.map _
  keys := by
    rw [List.map_map]
    exact h.keys
  nodes := by
    rw [List.map_map]
    exact h.nodes
  fresh := by
    intro r hr
    obtain ⟨r', hr', rfl⟩ := List.mem_map.mp hr
    exact h.fresh r' hr'
  bounded := by
    rw [List.length_map]
    exact h.bounded

omit [DecidableEq κ] in
theorem Linked.push (h : Linked c rows) (hkey : key ∉ rows.map Prod.fst)
    (hlt : rows.length < c.capacity) (value : ν) :
    Linked { c with
      data := (key, c.nextNode, value) :: c.data
      lru := c.lru ++ [(c.nextNode, key)]
      nextNode := c.nextNode + 1 } (rows ++ [(key, c.nextNode, value)]) where
  lru := by rw [List.map_append, h.lru]; rfl
  data := (h.data.cons _).trans (List.perm_append_singleton _ _).symm
  keys := by
    rw [List.map_append]
    exact List.nodup_append_comm.mp (List.nodup_cons.mpr ⟨hkey, h.keys⟩)
  nodes := by
    rw [List.map_append]
    refine List.nodup_append_comm.mp (List.nodup_cons.mpr ⟨fun hin => ?_, h.nodes⟩)
    obtain ⟨r, hr, heq⟩ := List.mem_map.mp hin
    exact Nat.lt_irrefl _ (heq ▸ h.fresh r hr)
  fresh := by
    intro r hr
    rcases List.mem_append.mp hr with hr | hr
    · exact Nat.lt_succ_of_lt (h.fresh r hr)
    · rw [List.mem_singleton.mp hr]
      exact Nat.lt_succ_self _
  bounded := by
    rw [List.length_append]
    exact hlt

theorem Linked.evict {r : Row κ ν} (h : Linked c (r :: rows)) : Linked c.evict rows := by
  have hlru : c.lru = (r.2.1, r.1) :: rows.map fun r => (r.2.1, r.1) := h.lru
  obtain ⟨hkey, hkeys⟩ := List.nodup_cons.mp h.keys
  have hrows : (r :: rows).filter (fun r' => r'.1 ≠ r.1) = rows := by
    rw [List.filter_cons_of_neg (by simp), List.filter_eq_self]
    intro r' hr'
    rw [decide_eq_true_eq]
    rintro heq
    exact hkey (heq ▸ List.mem_map_of_mem hr')
  have hevict : c.evict = { c with
      data := c.data.filter (·.1 ≠ r.1), lru := rows.map fun r => (r.2.1, r.1) } := by
    rw [LRUCache.evict, hlru]
  rw [hevict]
  exact
    { lru := rfl
      data := hrows ▸ h.data.filter _
      keys := hkeys
      nodes := (List.nodup_cons.mp h.nodes).2
      fresh := fun r' hr' => h.fresh r' (List.mem_cons_of_mem _ hr')
      bounded := Nat.le_of_succ_le h.bounded }

def entries (rows : List (Row κ ν)) : Recency κ ν :=
  rows.map fun r => (r.1, r.2.2)

theorem find_entries (rows : List (Row κ ν)) (key : κ) :
    Recency.find (entries rows) key = (select Prod.fst rows key).map (·.2.2) := by
  rw [Recency.find, entries, select, List.find?_map, Option.map_map]
  rfl

theorem erase_entries (rows : List (Row κ ν)) (key : κ) :
    Recency.erase (entries rows) key = entries (rows.filter (·.1 ≠ key)) := by
  rw [Recency.erase, entries, List.filter_map]
  rfl

omit [DecidableEq κ] in
theorem keys_entries (rows : List (Row κ ν)) : (entries rows).map Prod.fst = rows.map Prod.fst := by
  rw [entries, List.map_map]
  rfl

/-- The rows after a step, which are those of the list. -/
def StepsTo (c : LRUCache κ ν) (rows : List (Row κ ν)) (op : Op κ ν) : Prop :=
  ∃ rows', Linked (c.step op).2 rows' ∧ (c.step op).2.capacity = c.capacity ∧
    Recency.step c.capacity (entries rows) op = ((c.step op).1, entries rows')

theorem filter_ne_of_select_eq_none (h : select Prod.fst rows key = none) :
    rows.filter (·.1 ≠ key) = rows := by
  rw [List.filter_eq_self]
  intro r hr
  rw [decide_eq_true_eq]
  rintro rfl
  exact select_eq_none.mp h (List.mem_map_of_mem hr)

theorem Linked.erase (h : Linked c rows) (key : κ) :
    Linked (c.erase key).2 (rows.filter (·.1 ≠ key)) ∧
      (c.erase key).1 = decide (key ∈ rows.map Prod.fst) := by
  have hfind := h.find_eq key
  cases hrow : select Prod.fst rows key with
  | none =>
    rw [hrow] at hfind
    rw [LRUCache.erase, hfind, filter_ne_of_select_eq_none hrow]
    exact ⟨h, (decide_eq_false (select_eq_none.mp hrow)).symm⟩
  | some r =>
    obtain rfl := key_of_select hrow
    rw [hrow] at hfind
    rw [LRUCache.erase, hfind]
    exact ⟨h.without (mem_of_select hrow),
      (decide_eq_true (List.mem_map_of_mem (mem_of_select hrow))).symm⟩

theorem Linked.step_get (h : Linked c rows) (key : κ) : StepsTo c rows (.get key) := by
  have hfind := h.find_eq key
  rw [StepsTo, LRUCache.step, LRUCache.get, Recency.step, Recency.use, find_entries]
  cases hrow : select Prod.fst rows key with
  | none =>
    rw [hrow] at hfind
    rw [hfind]
    exact ⟨rows, h, rfl, rfl⟩
  | some r =>
    obtain rfl := key_of_select hrow
    rw [hrow] at hfind
    rw [hfind]
    refine ⟨_, h.promote (mem_of_select hrow), rfl, ?_⟩
    rw [entries, entries, List.map_append, ← entries, ← entries, ← erase_entries]
    rfl

theorem Linked.step_getOrNullptr (h : Linked c rows) (key : κ) (change : ν → ν) :
    StepsTo c rows (.getOrNullptr key change) := by
  have hfind := h.find_eq key
  rw [StepsTo, LRUCache.step, LRUCache.getOrNullptr, Recency.step, Recency.use, find_entries]
  cases hrow : select Prod.fst rows key with
  | none =>
    rw [hrow] at hfind
    rw [hfind]
    exact ⟨rows, h, rfl, rfl⟩
  | some r =>
    obtain rfl := key_of_select hrow
    rw [hrow] at hfind
    rw [hfind]
    have hchanged := (h.promote (mem_of_select hrow)).mapValues fun r' =>
      if r'.1 = r.1 then change r'.2.2 else r'.2.2
    have hdata : (fun r' : Row κ ν => if r'.1 = r.1 then (r'.1, r'.2.1, change r'.2.2) else r') =
        fun r' => (r'.1, r'.2.1, if r'.1 = r.1 then change r'.2.2 else r'.2.2) := by
      funext r'
      split <;> rfl
    have hentries : entries ((rows.filter (·.1 ≠ r.1) ++ [r]).map fun r' =>
        (r'.1, r'.2.1, if r'.1 = r.1 then change r'.2.2 else r'.2.2)) =
        entries (rows.filter (·.1 ≠ r.1)) ++ [(r.1, change r.2.2)] := by
      rw [entries, entries, List.map_map, List.map_append]
      refine congrArg₂ _ (List.map_congr_left fun r' hr' => ?_) ?_
      · have hne : r'.1 ≠ r.1 := by simpa using List.of_mem_filter hr'
        simp only [Function.comp_apply, if_neg hne]
      · simp only [List.map_cons, List.map_nil, Function.comp_apply, if_true]
    refine ⟨_, hdata ▸ hchanged, rfl, ?_⟩
    rw [hdata, hentries, ← erase_entries]
    rfl

theorem Linked.step_upsert (h : Linked c rows) (key : κ) (value : ν) :
    StepsTo c rows (.upsert key value) := by
  have herase := (h.erase key).1
  have hkey : key ∉ (rows.filter (·.1 ≠ key)).map Prod.fst := by
    intro hin
    obtain ⟨r, hr, rfl⟩ := List.mem_map.mp hin
    simpa using List.of_mem_filter hr
  have hcapacity := c.erase_snd_capacity key
  rw [StepsTo, LRUCache.step, LRUCache.upsert, Recency.step, Recency.upsert, keys_entries]
  by_cases hzero : c.capacity = 0
  · rw [if_pos hzero, if_pos hzero]
    exact ⟨rows, h, rfl, rfl⟩
  rw [if_neg hzero, if_neg hzero, erase_entries]
  dsimp only
  rw [herase.data.length_eq, hcapacity]
  by_cases hin : key ∈ rows.map Prod.fst
  -- The place of a present key is free when the new entry is made.
  · obtain ⟨r, hr, rfl⟩ := List.mem_map.mp hin
    have hlt : (rows.filter (·.1 ≠ r.1)).length < c.capacity :=
      Nat.lt_of_lt_of_le (List.length_filter_lt_length_iff_exists.mpr ⟨r, hr, by simp⟩) h.bounded
    rw [if_neg (Nat.not_le_of_lt hlt), if_pos hin]
    refine ⟨_, herase.push hkey (hcapacity ▸ hlt) value, hcapacity, ?_⟩
    rw [entries, entries, List.map_append]
    rfl
  · have hall : rows.filter (·.1 ≠ key) = rows :=
      filter_ne_of_select_eq_none (select_eq_none.mpr hin)
    rw [if_neg hin, entries, List.length_map]
    rw [hall] at herase ⊢
    by_cases hlt : rows.length < c.capacity
    · rw [if_neg (Nat.not_le_of_lt hlt), if_pos hlt]
      refine ⟨_, herase.push hin (hcapacity ▸ hlt) value, hcapacity, ?_⟩
      rw [entries, List.map_append]
      rfl
    · rw [if_pos (Nat.le_of_not_lt hlt), if_neg hlt]
      cases rows with
      | nil => exact absurd (Nat.pos_of_ne_zero hzero) hlt
      | cons r rows =>
        have hevict := herase.evict
        have hlength : rows.length < (c.erase key).2.evict.capacity := by
          rw [LRUCache.evict_capacity, hcapacity]
          exact h.bounded
        have hnotin : key ∉ rows.map Prod.fst := fun hmem => hin (List.mem_cons_of_mem _ hmem)
        refine ⟨_, hevict.push hnotin hlength value,
          ((c.erase key).2.evict_capacity).trans hcapacity, ?_⟩
        rw [entries, List.map_append]
        rfl

theorem Linked.step (h : Linked c rows) (op : Op κ ν) : StepsTo c rows op := by
  cases op with
  | upsert key value => exact h.step_upsert key value
  | get key => exact h.step_get key
  | getOrNullptr key change => exact h.step_getOrNullptr key change
  | erase key =>
    obtain ⟨hlinked, herased⟩ := h.erase key
    refine ⟨_, hlinked, c.erase_snd_capacity key, ?_⟩
    rw [Recency.step, keys_entries, erase_entries, ← herased]
    rfl
  | clear =>
    exact ⟨[], ⟨rfl, .nil, List.nodup_nil, List.nodup_nil, nofun, Nat.zero_le _⟩, rfl, rfl⟩

theorem Linked.run (ops : List (Op κ ν)) : ∀ {c : LRUCache κ ν} {rows : List (Row κ ν)},
    Linked c rows → ∃ rows', Linked (c.run ops).2 rows' ∧ (c.run ops).2.capacity = c.capacity ∧
      Recency.run c.capacity (entries rows) ops = ((c.run ops).1, entries rows') := by
  induction ops with
  | nil =>
    intro c rows h
    exact ⟨rows, h, rfl, rfl⟩
  | cons op ops ih =>
    intro c rows h
    obtain ⟨rows₁, h₁, hcapacity₁, hstep⟩ := h.step op
    obtain ⟨rows₂, h₂, hcapacity₂, hrun⟩ := ih h₁
    refine ⟨rows₂, h₂, hcapacity₂.trans hcapacity₁, ?_⟩
    rw [hcapacity₁] at hrun
    rw [Recency.run, hstep]
    dsimp only
    rw [hrun]
    rfl

theorem Linked.inverse (h : Linked c rows) (key : κ) (it : Nat) :
    (∃ value, c.find key = some (it, value)) ↔ (it, key) ∈ c.lru := by
  rw [h.find_eq, h.lru, List.mem_map]
  constructor
  · rintro ⟨value, hrow⟩
    obtain ⟨r, hselect, hr⟩ := Option.map_eq_some_iff.mp hrow
    refine ⟨r, mem_of_select hselect, ?_⟩
    rw [hr, key_of_select hselect]
  · rintro ⟨r, hr, heq⟩
    cases heq
    exact ⟨r.2.2, by rw [select_of_mem h.keys hr]; rfl⟩

omit [DecidableEq κ] in
theorem Linked.keys_perm (h : Linked c rows) :
    (c.data.map Prod.fst).Perm (c.lru.map Prod.snd) := by
  rw [h.lru, List.map_map]
  exact h.data.map Prod.fst

theorem Linked.value?_eq (h : Linked c rows) (key : κ) :
    c.value? key = Recency.find (entries rows) key := by
  rw [c.value?_eq, h.select_data, find_entries]

/-- The containers of a cache, with an iterator of each into the other. -/
structure Consistent (c : LRUCache κ ν) : Prop where
  keys : (c.data.map Prod.fst).Nodup
  nodes : (c.lru.map Prod.fst).Nodup
  same : (c.data.map Prod.fst).Perm (c.lru.map Prod.snd)
  inverse : ∀ key it, (∃ value, c.find key = some (it, value)) ↔ (it, key) ∈ c.lru

theorem Linked.consistent (h : Linked c rows) : Consistent c where
  keys := (h.data.map Prod.fst).nodup_iff.mpr h.keys
  nodes := by
    rw [h.lru, List.map_map]
    exact h.nodes
  same := h.keys_perm
  inverse := h.inverse

/-- A cache answers as the list of its entries in the order of their last use does, and holds
those entries. -/
theorem lruCache_refines (capacity : Nat) (ops : List (Op κ ν)) :
    ∃ l : Recency κ ν,
      Recency.run capacity [] ops = ((LRUCache.run { capacity } ops).1, l) ∧
      l.length ≤ capacity ∧ (l.map Prod.fst).Nodup ∧
      (LRUCache.run { capacity } ops).2.lru.map Prod.snd = l.map Prod.fst ∧
      (∀ key, (LRUCache.run { capacity } ops).2.value? key = Recency.find l key) ∧
      Consistent (LRUCache.run { capacity } ops).2 := by
  obtain ⟨rows, hlinked, hcapacity, hrun⟩ := Linked.run ops (linked_empty capacity)
  refine ⟨entries rows, hrun, ?_, ?_, ?_, hlinked.value?_eq, hlinked.consistent⟩
  · rw [entries, List.length_map]
    exact Nat.le_trans hlinked.bounded (Nat.le_of_eq hcapacity)
  · rw [keys_entries]
    exact hlinked.keys
  · rw [keys_entries, hlinked.lru, List.map_map]
    rfl

end Nix.Util.LruCaches
