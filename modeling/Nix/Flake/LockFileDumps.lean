import Mathlib.Data.List.Nodup
import Nix.Flake.LockFiles
import Nix.Util.Decimal

/-!
What `toJSON` writes: every node that can be reached has a key of its own, and the entry
under that key names the keys of its inputs.
-/

set_option linter.dupNamespace false

namespace Nix.Flake.LockFiles

open Util.Types Util.JsonValues Util.Decimal Lib.SortedList Lib.Table Flake.FlakeRefs

variable {ι : Type}

theorem numbered_injective (key : Bytes) : Function.Injective (numbered key) := by
  intro n m h
  exact decimal_injective (List.append_cancel_left h)

theorem nextKey_ok {keys : List Bytes} {key : Bytes} {fuel n : Nat}
    (h : ∃ i < fuel, numbered key (n + i) ∉ keys) :
    ∃ k, nextKey keys key fuel n = .ok k ∧ k ∉ keys := by
  induction fuel generalizing n with
  | zero =>
      obtain ⟨i, hi, -⟩ := h
      exact absurd hi (Nat.not_lt_zero i)
  | succ fuel ih =>
      rw [nextKey]
      split
      next hmem =>
        obtain ⟨i, hi, hnew⟩ := h
        cases i with
        | zero => exact absurd hmem hnew
        | succ i => exact ih ⟨i, by omega, by rwa [Nat.add_assoc, Nat.add_comm 1 i]⟩
      next hnew => exact ⟨_, rfl, hnew⟩

/-- The loop over `n` tries more names than there are keys. -/
theorem uniqueKey_ok (keys : List Bytes) (key : Bytes) :
    ∃ k, uniqueKey keys key = .ok k ∧ k ∉ keys := by
  rw [uniqueKey]
  split
  next =>
    apply nextKey_ok
    by_contra hall
    push Not at hall
    let tried := (List.range (keys.length + 1)).map fun i => numbered key (2 + i)
    have hinj : Function.Injective fun i => numbered key (2 + i) := fun i j h =>
      Nat.add_left_cancel (numbered_injective key h)
    have hnodup : tried.Nodup := List.nodup_range.map hinj
    have hsub : tried ⊆ keys := by
      intro k hk
      obtain ⟨i, hi, rfl⟩ := List.mem_map.mp hk
      exact hall i (List.mem_range.mp hi)
    have hlen := (List.subperm_of_subset hnodup hsub).length_le
    simp [tried] at hlen
  next hnew => exact ⟨key, rfl, hnew⟩

section Walk

variable [DecidableEq ι]

namespace DumpState

def edgeJson (s : DumpState ι) : Edge ι → Json
  | .node i => .string ((s.keyOf (some i)).getD [])
  | .follows path => .ofElements (path.map .string)

/-- Different nodes have different keys. -/
structure Regular (s : DumpState ι) : Prop where
  mem : ∀ n k, s.keyOf n = some k → k ∈ s.keys
  inj : ∀ n n' k, s.keyOf n = some k → s.keyOf n' = some k → n = n'

structure Extends (s s' : DumpState ι) : Prop where
  keyOf : ∀ n k, s.keyOf n = some k → s'.keyOf n = some k
  keys : ∀ k ∈ s.keys, k ∈ s'.keys
  nodes : ∀ k ∈ s.keys, s'.nodes.find? k = s.nodes.find? k

theorem Extends.refl (s : DumpState ι) : s.Extends s :=
  ⟨fun _ _ h => h, fun _ h => h, fun _ _ => rfl⟩

theorem Extends.trans {s t u : DumpState ι} (h : s.Extends t) (h' : t.Extends u) :
    s.Extends u where
  keyOf n k hk := h'.keyOf n k (h.keyOf n k hk)
  keys k hk := h'.keys k (h.keys k hk)
  nodes k hk := (h'.nodes k (h.keys k hk)).trans (h.nodes k hk)

def name (s : DumpState ι) (node : Option ι) (key : Bytes) : DumpState ι :=
  { s with keys := key :: s.keys, nodeKeys := (node, key) :: s.nodeKeys }

theorem keyOf_name (s : DumpState ι) (node n : Option ι) (key : Bytes) :
    (s.name node key).keyOf n = if node = n then some key else s.keyOf n := by
  rw [keyOf, name, select, List.find?_cons]
  by_cases h : node = n
  · simp [h]
  · simp only [h, decide_false, if_false]
    rfl

theorem Extends.name {s : DumpState ι} {node : Option ι} {key : Bytes}
    (hnode : s.keyOf node = none) : s.Extends (s.name node key) where
  keyOf n k hk := by
    rw [keyOf_name, if_neg, hk]
    rintro rfl
    simp [hnode] at hk
  keys k hk := List.mem_cons_of_mem _ hk
  nodes k hk := rfl

theorem Regular.name {s : DumpState ι} (h : s.Regular) (node : Option ι) {key : Bytes}
    (hkey : key ∉ s.keys) : (s.name node key).Regular where
  mem n k hk := by
    rw [keyOf_name] at hk
    split at hk
    next =>
      obtain rfl := Option.some.inj hk
      exact List.mem_cons_self
    next => exact List.mem_cons_of_mem _ (h.mem n k hk)
  inj n n' k hk hk' := by
    rw [keyOf_name] at hk hk'
    split at hk <;> split at hk'
    next h1 h2 => exact h1.symm.trans h2
    next =>
      obtain rfl := Option.some.inj hk
      exact absurd (h.mem n' _ hk') hkey
    next =>
      obtain rfl := Option.some.inj hk'
      exact absurd (h.mem n _ hk) hkey
    next => exact h.inj n n' k hk hk'

end DumpState

variable (schemes : InputSchemes) (lf : LockFile ι)

def LockFile.Written (s : DumpState ι) (node : Option ι) : Prop :=
  ∃ key inputs n, s.keyOf node = some key ∧ lf.inputsOf node = some inputs ∧
    (∀ name i, (name, Edge.node i) ∈ inputs.elems → (s.keyOf (some i)).isSome) ∧
    lf.nodeJSON schemes node (inputs.elems.map fun e => (e.1, s.edgeJson e.2)) = .ok n ∧
    s.nodes.find? key = some (.ofMembers n)

variable {schemes lf}

theorem edgeJson_eq {s s' : DumpState ι} (hkeys : ∀ n k, s.keyOf n = some k → s'.keyOf n = some k)
    {l : List (FlakeId × Edge ι)}
    (hl : ∀ name i, (name, Edge.node i) ∈ l → (s.keyOf (some i)).isSome) :
    (l.map fun e => (e.1, s'.edgeJson e.2)) = l.map fun e => (e.1, s.edgeJson e.2) := by
  apply List.map_congr_left
  rintro ⟨name, edge⟩ he
  cases edge with
  | follows path => rfl
  | node i =>
      obtain ⟨k, hk⟩ := Option.isSome_iff_exists.mp (hl name i he)
      simp [DumpState.edgeJson, hk, hkeys _ _ hk]

theorem LockFile.Written.mono {s s' : DumpState ι} {node : Option ι}
    (h : lf.Written schemes s node)
    (hkeys : ∀ n k, s.keyOf n = some k → s'.keyOf n = some k)
    (hnode : ∀ k, s.keyOf node = some k → s'.nodes.find? k = s.nodes.find? k) :
    lf.Written schemes s' node := by
  obtain ⟨key, inputs, n, hkey, hinputs, hchildren, hn, hentry⟩ := h
  refine ⟨key, inputs, n, hkeys _ _ hkey, hinputs, ?_, ?_, ?_⟩
  · intro name i hi
    obtain ⟨k, hk⟩ := Option.isSome_iff_exists.mp (hchildren name i hi)
    exact Option.isSome_iff_exists.mpr ⟨k, hkeys _ _ hk⟩
  · rw [edgeJson_eq hkeys hchildren, hn]
  · rw [hnode key hkey, hentry]

theorem LockFile.Written.extends {s s' : DumpState ι} {node : Option ι}
    (h : lf.Written schemes s node) (hs : s.Regular) (hext : s.Extends s') :
    lf.Written schemes s' node :=
  h.mono hext.keyOf fun k hk => hext.nodes k (hs.mem node k hk)

variable (schemes lf)

/-- What a part of the walk from `s` to `s'` guarantees. -/
structure LockFile.Walked (s s' : DumpState ι) : Prop where
  regular : s'.Regular
  extends' : s.Extends s'
  written : ∀ n, (s'.keyOf n).isSome → (s.keyOf n).isSome ∨ lf.Written schemes s' n

variable {schemes lf}

theorem LockFile.Walked.refl {s : DumpState ι} (h : s.Regular) : lf.Walked schemes s s :=
  ⟨h, .refl s, fun _ hn => .inl hn⟩

theorem LockFile.Walked.trans {s t u : DumpState ι} (h : lf.Walked schemes s t)
    (h' : lf.Walked schemes t u) : lf.Walked schemes s u where
  regular := h'.regular
  extends' := h.extends'.trans h'.extends'
  written n hn := by
    rcases h'.written n hn with ht | hw
    · rcases h.written n ht with hs | hw
      · exact .inl hs
      · exact .inr (hw.extends h.regular h'.extends')
    · exact .inr hw

variable (lf)

def LockFile.nodeIds : List (Option ι) :=
  none :: lf.nodes.map fun e => some e.1

def LockFile.unnamed (s : DumpState ι) : Nat :=
  (lf.nodeIds.filter fun n => (s.keyOf n).isNone).length

variable {lf}

theorem LockFile.mem_nodeIds {node : Option ι} (h : (lf.inputsOf node).isSome) :
    node ∈ lf.nodeIds := by
  cases node with
  | none => exact List.mem_cons_self
  | some i =>
      rw [inputsOf, Option.isSome_map, deref, Option.isSome_map] at h
      obtain ⟨e, he⟩ := Option.isSome_iff_exists.mp h
      apply List.mem_cons_of_mem
      exact List.mem_map.mpr ⟨e, mem_of_select he, congrArg some (key_of_select he)⟩

theorem LockFile.unnamed_le {s s' : DumpState ι} (h : s.Extends s') :
    lf.unnamed s' ≤ lf.unnamed s := by
  apply List.Sublist.length_le
  apply List.monotone_filter_right
  intro n hn
  rw [Option.isNone_iff_eq_none] at hn ⊢
  by_contra hsome
  obtain ⟨k, hk⟩ := Option.ne_none_iff_exists'.mp hsome
  simp [h.keyOf n k hk] at hn

theorem LockFile.unnamed_name_lt {s : DumpState ι} {node : Option ι} {key : Bytes}
    (hmem : node ∈ lf.nodeIds) (hnode : s.keyOf node = none) :
    lf.unnamed (s.name node key) < lf.unnamed s := by
  have hfilter : (lf.nodeIds.filter fun n => ((s.name node key).keyOf n).isNone) =
      (lf.nodeIds.filter fun n => (s.keyOf n).isNone).filter (· ≠ node) := by
    rw [List.filter_filter]
    apply List.filter_congr
    intro n _
    rw [DumpState.keyOf_name]
    by_cases h : node = n
    · simp [h]
    · simp [h, Ne.symm h]
  rw [unnamed, unnamed, hfilter, List.length_filter_lt_length_iff_exists]
  exact ⟨node, List.mem_filter.mpr ⟨hmem, by simp [hnode]⟩, by simp⟩

theorem dumpInputs_spec {fuel : Nat}
    {dump : Bytes → ι → DumpState ι → Except Error (Bytes × DumpState ι)}
    (hdump : ∀ name i s, s.Regular → (lf.deref i).isSome → lf.unnamed s < fuel →
      ∃ k s', dump name i s = .ok (k, s') ∧ lf.Walked schemes s s' ∧ s'.keyOf (some i) = some k)
    (l : List (FlakeId × Edge ι)) (s : DumpState ι) (hs : s.Regular)
    (hl : ∀ name i, (name, Edge.node i) ∈ l → (lf.deref i).isSome)
    (hfuel : lf.unnamed s < fuel) :
    ∃ s', dumpInputs dump l s = .ok (l.map fun e => (e.1, s'.edgeJson e.2), s') ∧
      lf.Walked schemes s s' ∧
      ∀ name i, (name, Edge.node i) ∈ l → (s'.keyOf (some i)).isSome := by
  induction l generalizing s with
  | nil => exact ⟨s, rfl, .refl hs, by simp⟩
  | cons e l ih =>
      have hrest : ∀ name i, (name, Edge.node i) ∈ l → (lf.deref i).isSome := fun name i hi =>
        hl name i (List.mem_cons_of_mem _ hi)
      obtain ⟨name, edge⟩ := e
      cases edge with
      | follows path =>
          obtain ⟨s', hrun, hwalk, hnamed⟩ := ih s hs hrest hfuel
          refine ⟨s', ?_, hwalk, ?_⟩
          · rw [dumpInputs, hrun]
            rfl
          · intro name' i hi
            rcases List.mem_cons.mp hi with heq | hi
            · simp at heq
            · exact hnamed name' i hi
      | node i =>
          obtain ⟨k, t, hnode, hwalk, hkey⟩ := hdump name i s hs (hl name i List.mem_cons_self) hfuel
          obtain ⟨s', hrun, hwalk', hnamed⟩ := ih t hwalk.regular hrest
            (lt_of_le_of_lt (LockFile.unnamed_le hwalk.extends') hfuel)
          have hkey' := hwalk'.extends'.keyOf _ _ hkey
          refine ⟨s', ?_, hwalk.trans hwalk', ?_⟩
          · simp only [dumpInputs, hnode, hrun, bind, Except.bind, List.map_cons,
              DumpState.edgeJson, hkey']
            rfl
          · intro name' j hj
            rcases List.mem_cons.mp hj with heq | hj
            · obtain ⟨-, hij⟩ := Prod.mk.inj heq
              rw [Edge.node.inj hij, hkey']
              rfl
            · exact hnamed name' j hj

theorem LockFile.Closed.inputsOf (h : lf.Closed) {node : Option ι} {inputs : Inputs ι}
    (hnode : lf.inputsOf node = some inputs) :
    ∀ name i, (name, Edge.node i) ∈ inputs.elems → (lf.deref i).isSome := by
  cases node with
  | none =>
      obtain rfl := Option.some.inj hnode
      exact h.root
  | some j =>
      obtain ⟨node, hj, rfl⟩ := Option.map_eq_some_iff.mp hnode
      obtain ⟨e, he, rfl⟩ := Option.map_eq_some_iff.mp hj
      exact h.node e (mem_of_select he)

theorem LockFile.Walked.assign {s t : DumpState ι} {node : Option ι} {key : Bytes}
    {inputs : Inputs ι} {n : Members} (hnode : s.keyOf node = none) (hkey : key ∉ s.keys)
    (hwalk : lf.Walked schemes (s.name node key) t) (hinputs : lf.inputsOf node = some inputs)
    (hnamed : ∀ name i, (name, Edge.node i) ∈ inputs.elems → (t.keyOf (some i)).isSome)
    (hn : lf.nodeJSON schemes node (inputs.elems.map fun e => (e.1, t.edgeJson e.2)) = .ok n) :
    lf.Walked schemes s { t with nodes := t.nodes.assign key (.ofMembers n) } := by
  have hown : t.keyOf node = some key := hwalk.extends'.keyOf _ _ (by
    rw [DumpState.keyOf_name, if_pos rfl])
  have hname : s.Extends (s.name node key) := .name hnode
  have hext := hname.trans hwalk.extends'
  refine ⟨⟨hwalk.regular.mem, hwalk.regular.inj⟩, ⟨hext.keyOf, hext.keys, ?_⟩, ?_⟩
  · intro k hk
    have hne : key ≠ k := fun heq => hkey (heq ▸ hk)
    rw [SortedMap.find?_assign_of_ne hne]
    exact hext.nodes k hk
  · intro m hm
    by_cases hmn : m = node
    · subst hmn
      exact .inr ⟨key, inputs, n, hown, hinputs, hnamed, hn, SortedMap.find?_assign_self ..⟩
    · rcases hwalk.written m hm with hs | hw
      · rw [DumpState.keyOf_name, if_neg (Ne.symm hmn)] at hs
        exact .inl hs
      · refine .inr (hw.mono (fun _ _ h => h) fun k hk => ?_)
        have hne : key ≠ k := by
          rintro rfl
          exact hmn (hwalk.regular.inj m node key hk hown)
        exact SortedMap.find?_assign_of_ne hne

theorem LockFile.dumpNode_spec (hclosed : lf.Closed)
    (hjson : ∀ node inputs, (lf.inputsOf node).isSome →
      ∃ n, lf.nodeJSON schemes node inputs = .ok n)
    (fuel : Nat) (key : Bytes) (node : Option ι) (s : DumpState ι) (hs : s.Regular)
    (hnode : (lf.inputsOf node).isSome) (hfuel : lf.unnamed s < fuel) :
    ∃ k s', lf.dumpNode schemes fuel key node s = .ok (k, s') ∧ lf.Walked schemes s s' ∧
      s'.keyOf node = some k := by
  induction fuel generalizing key node s with
  | zero => exact absurd hfuel (Nat.not_lt_zero _)
  | succ fuel ih =>
      cases hkeyOf : s.keyOf node with
      | some k =>
          refine ⟨k, s, ?_, .refl hs, hkeyOf⟩
          rw [dumpNode, hkeyOf]
      | none =>
          obtain ⟨k, hk, hnew⟩ := uniqueKey_ok s.keys key
          obtain ⟨inputs, hinputs⟩ := Option.isSome_iff_exists.mp hnode
          have hlt : lf.unnamed (s.name node k) < lf.unnamed s :=
            LockFile.unnamed_name_lt (LockFile.mem_nodeIds hnode) hkeyOf
          have hdump : ∀ name i s, s.Regular → (lf.deref i).isSome → lf.unnamed s < fuel →
              ∃ k s', lf.dumpNode schemes fuel name (some i) s = .ok (k, s') ∧
                lf.Walked schemes s s' ∧ s'.keyOf (some i) = some k := by
            intro name i s hs hi
            apply ih name (some i) s hs
            rw [LockFile.inputsOf, Option.isSome_map]
            exact hi
          obtain ⟨t, hrun, hwalk, hnamed⟩ := dumpInputs_spec hdump inputs.elems (s.name node k)
            (hs.name node hnew) (hclosed.inputsOf hinputs) (by omega)
          obtain ⟨n, hn⟩ := hjson node (inputs.elems.map fun e => (e.1, t.edgeJson e.2)) hnode
          refine ⟨k, _, ?_, .assign hkeyOf hnew hwalk hinputs hnamed hn, ?_⟩
          · rw [DumpState.name] at hrun
            simp only [dumpNode, hkeyOf, hk, hinputs, hrun, hn, bind, Except.bind]
            rfl
          · have hown : (s.name node k).keyOf node = some k := by
              rw [DumpState.keyOf_name, if_pos rfl]
            exact hwalk.extends'.keyOf _ _ hown

variable (schemes) in
/-- What the input schemes make of the references of a node: they are read from what is
written of them, and the locked reference is relative or locked and final. -/
structure LockedNode.Lockable (node : LockedNode ι) : Prop where
  original : FlakeRef.fromAttrs schemes node.originalRef.toAttrs = .ok node.originalRef
  locked : FlakeRef.fromAttrs schemes (node.lockedRef.toAttrs.erase finalAttr) =
    .ok node.lockedRef.dropFinal
  final : ∃ b, node.lockedRef.isFinal = .ok b ∧
    (schemes.isRelative node.lockedRef.attrs ∨ (b ∧ schemes.isLocked node.lockedRef.attrs))

/-- The members of a locked node, which are those of its inputs and its own. -/
def LockedNode.members (node : LockedNode ι) (n : Members) : Members :=
  let n := n.assign (str "original") (attrsToJSON node.originalRef.toAttrs)
  let n := n.assign (str "locked")
    (.ofMembers ((node.lockedRef.toAttrs.erase finalAttr).mapValues Attr.toJson))
  let n := if node.isFlake then n else n.assign (str "flake") (.boolean false)
  match node.parentInputAttrPath with
  | none => n
  | some path => n.assign (str "parent") (.ofElements (path.map .string))

omit [DecidableEq ι] in
theorem LockedNode.toAttrs_ne_nil {node : LockedNode ι} (h : node.Lockable schemes) :
    node.lockedRef.toAttrs.elems ≠ [] := by
  intro hnil
  have hread := h.locked
  have hfind : (node.lockedRef.toAttrs.erase finalAttr).elems = [] := by
    change node.lockedRef.toAttrs.elems.filter _ = []
    rw [hnil, List.filter_nil]
  have hempty : node.lockedRef.toAttrs.erase finalAttr = .empty := SortedSet.eq_of_elems hfind
  rw [hempty] at hread
  simp [FlakeRef.fromAttrs, inputFromAttrs, maybeGetStrAttr, SortedMap.find?_erase, bind,
    Except.bind] at hread

omit [DecidableEq ι] in
theorem erase_mapValues (attrs : Attrs) (k : Bytes) :
    (attrs.mapValues Attr.toJson).erase k = (attrs.erase k).mapValues Attr.toJson := by
  apply SortedSet.eq_of_elems
  simp [SortedMap.erase, SortedMap.mapValues, List.filter_map, Function.comp_def]

omit [DecidableEq ι] in
theorem LockedNode.toJSON_eq {node : LockedNode ι} (h : node.Lockable schemes) (n : Members) :
    node.toJSON schemes n = .ok (node.members n) := by
  obtain ⟨b, hfinal, hlock⟩ := h.final
  have hguard : (!(b || schemes.isRelative node.lockedRef.attrs)) = false := by
    rcases hlock with h | ⟨h, -⟩ <;> simp [h]
  have hlocked : eraseMember (attrsToJSON node.lockedRef.toAttrs) finalAttr =
      .ok (.ofMembers ((node.lockedRef.toAttrs.erase finalAttr).mapValues Attr.toJson)) := by
    rw [attrsToJSON, if_neg (toAttrs_ne_nil h), eraseMember, Json.members?_ofMembers,
      ← erase_mapValues]
  rw [toJSON, hfinal]
  change (if (!(b || schemes.isRelative node.lockedRef.attrs)) = true then _ else _) = _
  rw [hguard, if_neg Bool.false_ne_true, hlocked]
  rfl

variable (schemes lf) in
def LockFile.Lockable : Prop :=
  ∀ i node, lf.deref i = some node → node.Lockable schemes

variable (lf) in
def LockFile.members (node : Option ι) (inputs : List (FlakeId × Json)) : Members :=
  match node.bind lf.deref with
  | none => inputsJson inputs
  | some locked => locked.members (inputsJson inputs)

theorem LockFile.nodeJSON_eq (h : lf.Lockable schemes) (node : Option ι)
    (inputs : List (FlakeId × Json)) :
    lf.nodeJSON schemes node inputs = .ok (lf.members node inputs) := by
  rw [nodeJSON, members]
  cases hnode : node.bind lf.deref with
  | none => rfl
  | some locked =>
      obtain ⟨i, -, hi⟩ := Option.bind_eq_some_iff.mp hnode
      exact LockedNode.toJSON_eq (h i locked hi) _

theorem DumpState.regular_empty : ({} : DumpState ι).Regular :=
  ⟨by simp [keyOf, select], by simp [keyOf, select]⟩

theorem LockFile.unnamed_lt (s : DumpState ι) : lf.unnamed s < lf.nodes.length + 2 := by
  have hle := List.length_filter_le (fun n => (s.keyOf n).isNone) lf.nodeIds
  have hids : lf.nodeIds.length = lf.nodes.length + 1 := by simp [nodeIds]
  rw [unnamed]
  omega

theorem LockFile.dumpRoot_spec (hclosed : lf.Closed) (hlock : lf.Lockable schemes) :
    ∃ root, ∃ s : DumpState ι,
      lf.dumpNode schemes (lf.nodes.length + 2) (str "root") none {} = .ok (root, s) ∧
      s.Regular ∧ s.keyOf none = some root ∧
      ∀ n, (s.keyOf n).isSome → lf.Written schemes s n := by
  obtain ⟨root, s, hrun, hwalk, hkey⟩ := lf.dumpNode_spec hclosed
    (fun node inputs _ => ⟨_, nodeJSON_eq hlock node inputs⟩) (lf.nodes.length + 2) (str "root")
    none {} DumpState.regular_empty rfl (unnamed_lt _)
  refine ⟨root, s, hrun, hwalk.regular, hkey, fun n hn => ?_⟩
  exact (hwalk.written n hn).resolve_left (by simp [DumpState.keyOf, select])

end Walk

end Nix.Flake.LockFiles
