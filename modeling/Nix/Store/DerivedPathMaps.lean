import Nix.Lib.Tries
import Nix.Store.DerivedPaths

/-!
`DerivedPathMap` is a finite map from derived paths, where the slots that are not needed are
pruned.
-/

set_option linter.dupNamespace false

namespace Nix.Store.DerivedPathMaps

open Util.Types Lib.SortedList Lib.SortedTrees Lib.Tries Store.Path Store.DerivedPaths
open SortedTree

abbrev ChildNode (V : Type) := SortedTree (@compare Bytes _) V

abbrev DerivedPathMap (V : Type) := SortedMap StorePath.cmp (ChildNode V)

variable {V : Type}

def DerivedPathMap.findSlot (map : DerivedPathMap V) : SingleDerivedPath → Option (ChildNode V)
  | .opaquePath path => map.find? path
  | .built drvPath output =>
      match findSlot map drvPath with
      | none => none
      | some n => n.entries.find? output

def outputs : SingleDerivedPath → List Bytes
  | .opaquePath _ => []
  | .built drvPath output => outputs drvPath ++ [output]

theorem eq_of_outputs {k k' : SingleDerivedPath} (hbase : k.getBaseStorePath = k'.getBaseStorePath)
    (houtputs : outputs k = outputs k') : k = k' := by
  induction k generalizing k' with
  | opaquePath path =>
    cases k' with
    | opaquePath path' => exact congrArg _ hbase
    | built drvPath' output' => exact absurd houtputs.symm (List.append_ne_nil_of_right_ne_nil _ nofun)
  | built drvPath output ih =>
    cases k' with
    | opaquePath path' => exact absurd houtputs (List.append_ne_nil_of_right_ne_nil _ nofun)
    | built drvPath' output' =>
      obtain ⟨hinit, hlast⟩ := List.append_inj' houtputs rfl
      rw [@ih drvPath' hbase hinit, List.singleton_inj.mp hlast]

theorem findSlot_eq (map : DerivedPathMap V) (k : SingleDerivedPath) :
    map.findSlot k = nodeAt (outputs k) (map.find? k.getBaseStorePath) := by
  induction k with
  | opaquePath path => rfl
  | built drvPath output ih =>
    rw [outputs, nodeAt_append, SingleDerivedPath.getBaseStorePath, ← ih, DerivedPathMap.findSlot]
    cases map.findSlot drvPath <;> rfl

variable [Slot V]

namespace ChildNode

/-- A node as `operator []` makes it. -/
def fresh : ChildNode V :=
  ofEntries Slot.empty .empty

def setValue (n : ChildNode V) (value : V) : ChildNode V :=
  ofEntries value n.entries

def setChildMap (n : ChildNode V) (childMap : SortedMap (@compare Bytes _) (ChildNode V)) :
    ChildNode V :=
  ofEntries n.label childMap

/-- `!value.empty() || !childMap.empty()`. -/
def needed (n : ChildNode V) : Bool :=
  !Slot.isEmpty n.label || !n.entries.elems.isEmpty

end ChildNode

namespace DerivedPathMap

/-- `ensureSlot`, with what is done to the slot. -/
def ensureSlot (map : DerivedPathMap V) :
    SingleDerivedPath → (ChildNode V → ChildNode V) → DerivedPathMap V
  | .opaquePath path, use => map.assign path (use ((map.find? path).getD ChildNode.fresh))
  | .built drvPath output, use => ensureSlot map drvPath fun n =>
      n.setChildMap (n.entries.assign output (use ((n.entries.find? output).getD ChildNode.fresh)))

/-- A callback changes the node and says whether to keep it. -/
def removeIter (map : DerivedPathMap V) :
    SingleDerivedPath → (ChildNode V → ChildNode V × Bool) → DerivedPathMap V
  | .opaquePath path, onNode =>
      match map.find? path with
      | none => map
      | some n =>
          let (n, keep) := onNode n
          if keep then map.assign path n else map.erase path
  | .built drvPath output, onNode => removeIter map drvPath fun parent =>
      match parent.entries.find? output with
      | none => (parent, parent.needed)
      | some n =>
          let (n, keep) := onNode n
          let childMap :=
            if keep then parent.entries.assign output n else parent.entries.erase output
          let parent := parent.setChildMap childMap
          (parent, parent.needed)

def removeSlot (map : DerivedPathMap V) (k : SingleDerivedPath)
    (callback : ChildNode V → ChildNode V × Bool) : DerivedPathMap V :=
  removeIter map k fun node =>
    let (node, nonempty) := callback node
    (node, nonempty || !node.entries.elems.isEmpty)

def clear (n : ChildNode V) : ChildNode V × Bool :=
  (n.setValue Slot.empty, false)

/-- The value that `findSlot` finds. -/
def valueOf (map : DerivedPathMap V) (k : SingleDerivedPath) : Option V :=
  (map.findSlot k).bind fun n => nonempty n.label

def Pruned (map : DerivedPathMap V) : Prop :=
  ∀ e ∈ map.elems, Nix.Lib.Tries.Pruned e.2

end DerivedPathMap

inductive Operation (V : Type) [Slot V]
  | ensureSlot (k : SingleDerivedPath) (value : V) (hvalue : Slot.isEmpty value = false)
  | findSlot (k : SingleDerivedPath)
  | removeSlot (k : SingleDerivedPath)

def DerivedPathMap.step (map : DerivedPathMap V) : Operation V → DerivedPathMap V
  | .ensureSlot k value _ => map.ensureSlot k (·.setValue value)
  | .findSlot _ => map
  | .removeSlot k => map.removeSlot k DerivedPathMap.clear

/-- What was last stored under each path and not removed since. -/
def lastStored (values : SingleDerivedPath → Option V) : Operation V → SingleDerivedPath → Option V
  | .ensureSlot k value _ => Function.update values k (some value)
  | .findSlot _ => values
  | .removeSlot k => Function.update values k none

theorem prune_eq (n : ChildNode V) : prune n = if n.needed then some n else none := by
  rw [prune, ChildNode.needed, ← Bool.not_and]
  cases Slot.isEmpty n.label && n.entries.elems.isEmpty <;> rfl

theorem needed_of_child {n : ChildNode V} {output : Bytes} {child : ChildNode V}
    (h : n.entries.find? output = some child) : n.needed = true := by
  have hmem := SortedMap.find?_eq_some.mp h
  rw [ChildNode.needed, Bool.or_eq_true_iff]
  refine .inr ?_
  rw [Bool.not_eq_true', List.isEmpty_eq_false_iff]
  exact List.ne_nil_of_mem hmem

theorem ensureSlot_eq (map : DerivedPathMap V) (k : SingleDerivedPath)
    (use : ChildNode V → ChildNode V) :
    map.ensureSlot k use = alter map k.getBaseStorePath
      (alterAt (outputs k) fun t => some (use (t.getD ChildNode.fresh))) := by
  induction k generalizing use with
  | opaquePath path => rfl
  | built drvPath output ih =>
    rw [DerivedPathMap.ensureSlot, ih, SingleDerivedPath.getBaseStorePath, outputs]
    refine congrArg (alter map drvPath.getBaseStorePath) (funext fun t => ?_)
    rw [alterAt_append]
    refine congrArg (fun f => alterAt (outputs drvPath) f t) (funext fun t => ?_)
    have hentries : (t.getD ChildNode.fresh).entries = entriesOf t := by
      cases t with
      | none => exact entries_ofEntries _ _
      | some n => rfl
    have hlabel : (t.getD ChildNode.fresh).label = labelOf t := by
      cases t <;> rfl
    rw [ChildNode.setChildMap, hentries, hlabel, alterAt]
    have halter : alter (entriesOf t) output
        (alterAt [] fun t => some (use (t.getD ChildNode.fresh))) =
        (entriesOf t).assign output (use (((entriesOf t).find? output).getD ChildNode.fresh)) := rfl
    rw [halter, prune_eq, if_pos]
    refine @needed_of_child _ _ _ output (use (((entriesOf t).find? output).getD ChildNode.fresh)) ?_
    rw [entries_ofEntries, SortedMap.find?_assign_self]

theorem removeIter_eq (map : DerivedPathMap V) (k : SingleDerivedPath)
    (onNode : ChildNode V → ChildNode V × Bool) :
    map.removeIter k onNode =
      alter map k.getBaseStorePath (alterAt (outputs k) (keep onNode)) := by
  induction k generalizing onNode with
  | opaquePath path =>
    refine Eq.trans ?_ (alter_keep onNode map path).symm
    rw [DerivedPathMap.removeIter]
    cases map.find? path <;> rfl
  | built drvPath output ih =>
    rw [DerivedPathMap.removeIter, ih, SingleDerivedPath.getBaseStorePath, outputs]
    refine congrArg (alter map drvPath.getBaseStorePath) (funext fun t => ?_)
    rw [alterAt_append]
    refine congrArg (fun f => alterAt (outputs drvPath) f t) (funext fun t => ?_)
    have hat : alterAt [output] (keep onNode) t =
        prune (ofEntries (labelOf t) (alter (entriesOf t) output (keep onNode))) := rfl
    rw [hat, alter_keep, find?_entriesOf, prune_eq]
    cases t with
    | none =>
      rw [if_neg]
      · rfl
      · simp [ChildNode.needed, ofEntries, entries, label, labelOf, entriesOf, childAt,
          Slot.isEmpty_empty, SortedSet.empty]
    | some parent =>
      rw [keep, Option.bind_some, childAt, Option.bind_some]
      cases hfind : parent.entries.find? output with
      | none =>
        have hparent : ofEntries (labelOf (some parent)) (entriesOf (some parent)) = parent :=
          ofEntries_entries parent
        rw [hparent]
      | some n => rfl

theorem valueOf_alter (map : DerivedPathMap V) (k k' : SingleDerivedPath)
    {f : Option (ChildNode V) → Option (ChildNode V)}
    (hf : ∀ t output, childAt (f t) output = childAt t output) :
    DerivedPathMap.valueOf (alter map k.getBaseStorePath (alterAt (outputs k) f)) k' =
      if k' = k then (f (map.findSlot k)).bind fun n => nonempty n.label else map.valueOf k' := by
  have hvalue : ∀ map' : DerivedPathMap V,
      map'.valueOf k' = valueAt (outputs k') (map'.find? k'.getBaseStorePath) := fun map' => by
    rw [DerivedPathMap.valueOf, findSlot_eq, valueAt]
  rw [hvalue, hvalue, find?_alter, findSlot_eq]
  by_cases hbase : k.getBaseStorePath = k'.getBaseStorePath
  · rw [if_pos hbase]
    by_cases hpre : outputs k <+: outputs k'
    · obtain ⟨rest, hrest⟩ := hpre
      rw [← hrest, valueAt_alterAt_append, ← hbase]
      cases rest with
      | nil =>
        rw [List.append_nil] at hrest
        rw [if_pos (eq_of_outputs hbase hrest).symm]
        rfl
      | cons output rest =>
        have hne : k' ≠ k := by
          rintro rfl
          exact absurd (List.append_right_eq_self.mp hrest) nofun
        rw [if_neg hne, valueAt_cons, hf, valueAt, valueAt, nodeAt_append]
        rfl
    · have hne : k' ≠ k := by
        rintro rfl
        exact hpre List.prefix_rfl
      rw [valueAt_alterAt_of_unrelated hpre, hbase, if_neg hne]
  · have hne : k' ≠ k := by
      rintro rfl
      exact hbase rfl
    rw [if_neg hbase, if_neg hne]

theorem valueOf_ensureSlot (map : DerivedPathMap V) (k k' : SingleDerivedPath) {value : V}
    (hvalue : Slot.isEmpty value = false) :
    (map.ensureSlot k (·.setValue value)).valueOf k' =
      if k' = k then some value else map.valueOf k' := by
  rw [ensureSlot_eq, valueOf_alter]
  · refine if_congr Iff.rfl ?_ rfl
    exact if_neg (by simp [ChildNode.setValue, ofEntries, label, hvalue])
  · intro t output
    cases t <;> simp [childAt, ChildNode.setValue, ChildNode.fresh, entries_ofEntries]

/-- The callback of `removeSlot` with its check for children. -/
theorem keep_clear (t : Option (ChildNode V)) :
    keep (fun node => ((DerivedPathMap.clear node).1,
      (DerivedPathMap.clear node).2 || !(DerivedPathMap.clear node).1.entries.elems.isEmpty)) t =
      t.bind fun n => prune (ChildNode.setValue n Slot.empty) := by
  cases t with
  | none => rfl
  | some n =>
    rw [Option.bind_some, prune_eq]
    have hneeded : (n.setValue Slot.empty).needed = !(n.setValue Slot.empty).entries.elems.isEmpty := by
      rw [ChildNode.needed]
      simp [ChildNode.setValue, ofEntries, label, Slot.isEmpty_empty]
    rw [hneeded]
    rfl

theorem removeSlot_eq (map : DerivedPathMap V) (k : SingleDerivedPath) :
    map.removeSlot k DerivedPathMap.clear = alter map k.getBaseStorePath
      (alterAt (outputs k) fun t => t.bind fun n => prune (ChildNode.setValue n Slot.empty)) := by
  rw [DerivedPathMap.removeSlot, removeIter_eq]
  exact congrArg (fun f => alter map k.getBaseStorePath (alterAt (outputs k) f)) (funext keep_clear)

theorem valueOf_removeSlot (map : DerivedPathMap V) (k k' : SingleDerivedPath) :
    (map.removeSlot k DerivedPathMap.clear).valueOf k' =
      if k' = k then none else map.valueOf k' := by
  rw [removeSlot_eq, valueOf_alter]
  · refine if_congr Iff.rfl ?_ rfl
    cases map.findSlot k with
    | none => rfl
    | some n =>
      rw [Option.bind_some, nonempty_prune]
      exact if_pos Slot.isEmpty_empty
  · intro t output
    cases t with
    | none => rfl
    | some n =>
      rw [Option.bind_some, childAt_prune, ChildNode.setValue, entries_ofEntries]
      rfl

theorem pruned_empty : DerivedPathMap.Pruned (.empty : DerivedPathMap V) :=
  List.forall_mem_nil _

theorem pruned_alter {map : DerivedPathMap V} (hmap : map.Pruned) (k : SingleDerivedPath)
    {f : Option (ChildNode V) → Option (ChildNode V)}
    (hf : ∀ t, (∀ n ∈ t, Nix.Lib.Tries.Pruned n) → ∀ n ∈ f t, Nix.Lib.Tries.Pruned n) :
    DerivedPathMap.Pruned (alter map k.getBaseStorePath (alterAt (outputs k) f)) := by
  refine mem_alter hmap (pruned_alterAt (outputs k) hf fun n hn => ?_)
  exact hmap (k.getBaseStorePath, n) (SortedMap.find?_eq_some.mp hn)

theorem pruned_step {map : DerivedPathMap V} (hmap : map.Pruned) (op : Operation V) :
    (map.step op).Pruned := by
  cases op with
  | ensureSlot k value hvalue =>
    rw [DerivedPathMap.step, ensureSlot_eq]
    refine pruned_alter hmap k fun t ht n hn => ?_
    cases hn
    refine pruned_iff.mpr ⟨.inl hvalue, ?_⟩
    rw [ChildNode.setValue, entries_ofEntries]
    cases t with
    | none =>
      rw [Option.getD_none, ChildNode.fresh, entries_ofEntries]
      exact fun _ he => nomatch he
    | some n => exact (pruned_iff.mp (ht n rfl)).2
  | findSlot k => exact hmap
  | removeSlot k =>
    rw [DerivedPathMap.step, removeSlot_eq]
    refine pruned_alter hmap k fun t ht n hn => ?_
    obtain ⟨n', hn', hn⟩ := Option.bind_eq_some_iff.mp hn
    refine pruned_of_mem_prune ?_ n hn
    rw [ChildNode.setValue, entries_ofEntries]
    exact (pruned_iff.mp (ht n' hn')).2

theorem valueOf_step (map : DerivedPathMap V) (op : Operation V) :
    (map.step op).valueOf = lastStored map.valueOf op := by
  funext k
  cases op with
  | ensureSlot k' value hvalue =>
    rw [lastStored, Function.update_apply]
    exact valueOf_ensureSlot map k' k hvalue
  | findSlot k' => rfl
  | removeSlot k' =>
    rw [lastStored, Function.update_apply]
    exact valueOf_removeSlot map k' k

/-- Every run of operations is that of a finite map, and no slot is left that is not needed. -/
theorem valueOf_run {map : DerivedPathMap V} (hmap : map.Pruned) (ops : List (Operation V)) :
    (ops.foldl DerivedPathMap.step map).valueOf = ops.foldl lastStored map.valueOf ∧
      (ops.foldl DerivedPathMap.step map).Pruned ∧
      ∀ k k', k' ≠ k →
        ((ops.foldl DerivedPathMap.step map).removeSlot k DerivedPathMap.clear).valueOf k' =
          (ops.foldl DerivedPathMap.step map).valueOf k' := by
  induction ops generalizing map with
  | nil =>
    refine ⟨rfl, hmap, fun k k' hne => ?_⟩
    exact (valueOf_removeSlot map k k').trans (if_neg hne)
  | cons op ops ih =>
    rw [List.foldl_cons, List.foldl_cons, ← valueOf_step]
    exact ih (pruned_step hmap op)

instance : Slot StringSet where
  empty := .empty
  isEmpty := fun s => s.elems.isEmpty
  isEmpty_empty := rfl

/-- An output of a derivation that is itself an output. -/
def nestedPath (output : Bytes) : SingleDerivedPath :=
  .built (.built
    (.opaquePath ⟨str "ffffffffffffffffffffffffffffffff-x.drv", checkBaseName_ofList (by decide)⟩)
    (str "out")) output

def storeNested (output : Bytes) : Operation StringSet :=
  .ensureSlot (nestedPath output) (.ofList [output]) rfl

theorem valueOf_run_nestedPath :
    ([storeNested (str "lib"), .removeSlot (nestedPath (str "dev"))].foldl DerivedPathMap.step
        (DerivedPathMap.step .empty (storeNested (str "dev")))).valueOf =
      [storeNested (str "lib"), .removeSlot (nestedPath (str "dev"))].foldl lastStored
        (DerivedPathMap.step .empty (storeNested (str "dev"))).valueOf :=
  (valueOf_run (pruned_step pruned_empty (storeNested (str "dev"))) _).1

end Nix.Store.DerivedPathMaps
