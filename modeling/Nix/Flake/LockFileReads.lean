import Nix.Flake.LockFileDumps
import Nix.Lib.Results

/-!
What the constructor of `LockFile` reads from the entries that a walk has written: one node
for every key that can be reached from the root.
-/

set_option linter.dupNamespace false

namespace Nix.Flake.LockFiles

open Util.Types Util.JsonValues Lib.SortedList Lib.Table Flake.FlakeRefs

variable {ι κ : Type}

def Edge.map (f : ι → κ) : Edge ι → Edge κ
  | .node i => .node (f i)
  | .follows path => .follows path

def Inputs.map (f : ι → κ) (inputs : Inputs ι) : Inputs κ :=
  SortedMap.mapValues (Edge.map f) inputs

theorem Inputs.mem_map_node {f : ι → κ} {inputs : Inputs ι} {name : FlakeId} {k : κ} :
    (name, Edge.node k) ∈ (inputs.map f).elems ↔ ∃ i, (name, Edge.node i) ∈ inputs.elems ∧ f i = k := by
  rw [map, SortedMap.mapValues, List.mem_map]
  constructor
  · rintro ⟨⟨name', edge⟩, he, heq⟩
    obtain ⟨rfl, hedge⟩ := Prod.mk.inj heq
    cases edge with
    | follows path => simp [Edge.map] at hedge
    | node i => exact ⟨i, he, Edge.node.inj hedge⟩
  · rintro ⟨i, hi, rfl⟩
    exact ⟨_, hi, rfl⟩

/-- The node that is read for a written node. Its locked reference is marked final. -/
def LockedNode.reread (f : ι → κ) (node : LockedNode ι) : LockedNode κ where
  inputs := node.inputs.map f
  lockedRef := node.lockedRef.dropFinal.markFinal
  originalRef := node.originalRef
  isFlake := node.isFlake
  parentInputAttrPath := node.parentInputAttrPath

theorem LockedNode.members_reread (f : ι → κ) (node : LockedNode ι) (n : Members) :
    (node.reread f).members n = node.members n := by
  rw [members, members, reread, FlakeRef.toAttrs_erase_markFinal]

theorem find?_inputsJson_of_ne {inputs : List (FlakeId × Json)} {k : Bytes}
    (h : str "inputs" ≠ k) : (inputsJson inputs).find? k = none := by
  rw [inputsJson]
  split
  next => rfl
  next => exact SortedMap.find?_assign_of_ne h

theorem LockedNode.find?_members_inputs (node : LockedNode ι) (n : Members) :
    (node.members n).find? (str "inputs") = n.find? (str "inputs") := by
  rw [members]
  cases node.isFlake <;> cases node.parentInputAttrPath <;>
    simp (disch := apply str_ne_str; decide) [SortedMap.find?_assign_of_ne]

theorem toStrings_map (l : List Bytes) : toStrings (l.map .string) = .ok l := by
  induction l with
  | nil => rfl
  | cons s l ih =>
      rw [List.map_cons, toStrings, ih]
      rfl

theorem toInputAttrPath_ofElements (path : InputAttrPath) :
    toInputAttrPath (.ofElements (path.map .string)) = .ok path := by
  rw [toInputAttrPath, Json.elements?_ofElements]
  exact toStrings_map path

variable {schemes : InputSchemes}

/-- The schemes do not look at the mark of final references. -/
def IgnoreFinal (schemes : InputSchemes) : Prop :=
  ∀ attrs, schemes.isLocked (attrs.erase finalAttr) = schemes.isLocked attrs ∧
    schemes.isRelative (attrs.erase finalAttr) = schemes.isRelative attrs

theorem getFlakeRef_locked {node : LockedNode ι} (h : node.Lockable schemes)
    (inputs : List (FlakeId × Json)) :
    getFlakeRef schemes (.ofMembers (node.members (inputsJson inputs))) (str "locked")
      (some (str "info")) = .ok node.lockedRef.dropFinal := by
  have hlocked : (node.members (inputsJson inputs)).find? (str "locked") = some
      (.ofMembers ((node.lockedRef.toAttrs.erase finalAttr).mapValues Attr.toJson)) := by
    rw [LockedNode.members]
    cases node.isFlake <;> cases node.parentInputAttrPath <;>
      simp (disch := apply str_ne_str; decide) [SortedMap.find?_assign_of_ne, SortedMap.find?_assign_self]
  have hinfo : (node.members (inputsJson inputs)).find? (str "info") = none := by
    rw [LockedNode.members]
    cases node.isFlake <;> cases node.parentInputAttrPath <;>
      simp (disch := apply str_ne_str; decide) [SortedMap.find?_assign_of_ne, find?_inputsJson_of_ne]
  rw [getFlakeRef, Json.find?_ofMembers, hlocked]
  dsimp only [Option.bind]
  rw [jsonToAttrs_ofMembers, Json.find?_ofMembers, hinfo]
  exact h.locked

theorem getFlakeRef_original {node : LockedNode ι} (h : node.Lockable schemes)
    (inputs : List (FlakeId × Json)) :
    getFlakeRef schemes (.ofMembers (node.members (inputsJson inputs))) (str "original") none =
      .ok node.originalRef := by
  have horiginal : (node.members (inputsJson inputs)).find? (str "original") =
      some (attrsToJSON node.originalRef.toAttrs) := by
    rw [LockedNode.members]
    cases node.isFlake <;> cases node.parentInputAttrPath <;>
      simp (disch := apply str_ne_str; decide) [SortedMap.find?_assign_of_ne, SortedMap.find?_assign_self]
  rw [getFlakeRef, Json.find?_ofMembers, horiginal]
  dsimp only [Option.bind]
  rw [jsonToAttrs_attrsToJSON]
  exact h.original

theorem find?_members_flake (node : LockedNode ι) (inputs : List (FlakeId × Json)) :
    (node.members (inputsJson inputs)).find? (str "flake") =
      if node.isFlake then none else some (.boolean false) := by
  rw [LockedNode.members]
  cases node.isFlake <;> cases node.parentInputAttrPath <;>
    simp (disch := apply str_ne_str; decide) [SortedMap.find?_assign_of_ne, SortedMap.find?_assign_self,
      find?_inputsJson_of_ne]

theorem find?_members_parent (node : LockedNode ι) (inputs : List (FlakeId × Json)) :
    (node.members (inputsJson inputs)).find? (str "parent") =
      node.parentInputAttrPath.map fun path => .ofElements (path.map .string) := by
  rw [LockedNode.members]
  cases node.isFlake <;> cases node.parentInputAttrPath <;>
    simp (disch := apply str_ne_str; decide) [SortedMap.find?_assign_of_ne, SortedMap.find?_assign_self,
      find?_inputsJson_of_ne]

theorem checkLocked_dropFinal {node : LockedNode ι} (h : node.Lockable schemes)
    (hschemes : IgnoreFinal schemes) : checkLocked schemes node.lockedRef.dropFinal = .ok () := by
  obtain ⟨b, -, hlock⟩ := h.final
  obtain ⟨hlocked, hrelative⟩ := hschemes node.lockedRef.attrs
  rw [checkLocked, FlakeRef.dropFinal, hlocked, hrelative, if_pos]
  rcases hlock with h | ⟨-, h⟩ <;> simp [h]

theorem contains_dropFinal (ref : FlakeRef) : ref.dropFinal.attrs.contains finalAttr = false := by
  rw [SortedMap.contains_eq_isSome, FlakeRef.dropFinal, SortedMap.find?_erase, if_pos rfl]
  rfl

theorem LockedNode.ofJSON_members {node : LockedNode ι} (h : node.Lockable schemes)
    (hschemes : IgnoreFinal schemes) (inputs : List (FlakeId × Json)) (f : ι → Bytes) :
    LockedNode.ofJSON schemes (.ofMembers (node.members (inputsJson inputs))) =
      .ok { node.reread f with inputs := .empty } := by
  rw [ofJSON, getFlakeRef_locked h, getFlakeRef_original h, Json.find?_ofMembers,
    Json.find?_ofMembers, find?_members_flake, find?_members_parent, reread]
  simp only [bind, Except.bind, checkLocked_dropFinal h hschemes, contains_dropFinal]
  cases node.isFlake <;> cases node.parentInputAttrPath <;>
    simp [toBool, toInputAttrPath_ofElements, Except.map, pure, Except.pure]

section Walk

variable [DecidableEq ι] {lf : LockFile ι} {s : DumpState ι}

def DumpState.nodeKey (s : DumpState ι) (i : ι) : Bytes :=
  (s.keyOf (some i)).getD []

theorem DumpState.edgeJson_node (s : DumpState ι) (i : ι) :
    s.edgeJson (.node i) = .string (s.nodeKey i) := rfl

variable (lf s) in
/-- The node under a key has been read with its children. -/
def NodeMap.Read (m : NodeMap) (k : Bytes) : Prop :=
  ∃ i node, s.keyOf (some i) = some k ∧ lf.deref i = some node ∧
    m.find? k = some (some (node.reread s.nodeKey)) ∧
    ∀ name j, (name, Edge.node j) ∈ node.inputs.elems → (m.find? (s.nodeKey j)).isSome

variable (lf s) in
/-- What a part of the reader's walk from `m` to `m'` guarantees. -/
structure NodeMap.Walked (m m' : NodeMap) : Prop where
  keeps : ∀ k v, m.find? k = some v → m'.find? k = some v
  read : ∀ k, (m'.find? k).isSome → (m.find? k).isSome ∨ m'.Read lf s k

theorem NodeMap.isSome_of_keeps {m m' : NodeMap}
    (h : ∀ k v, m.find? k = some v → m'.find? k = some v) {k : Bytes}
    (hk : (m.find? k).isSome) : (m'.find? k).isSome := by
  obtain ⟨v, hv⟩ := Option.isSome_iff_exists.mp hk
  exact Option.isSome_iff_exists.mpr ⟨v, h k v hv⟩

theorem NodeMap.Read.mono {m m' : NodeMap} {k : Bytes} (h : m.Read lf s k)
    (hkeeps : m'.find? k = m.find? k)
    (hchildren : ∀ k, (m.find? k).isSome → (m'.find? k).isSome) : m'.Read lf s k := by
  obtain ⟨i, node, hi, hnode, hfind, hnamed⟩ := h
  exact ⟨i, node, hi, hnode, hkeeps.trans hfind, fun name j hj => hchildren _ (hnamed name j hj)⟩

theorem NodeMap.Walked.refl (m : NodeMap) : m.Walked lf s m :=
  ⟨fun _ _ h => h, fun _ h => .inl h⟩

theorem NodeMap.Walked.trans {m n o : NodeMap} (h : m.Walked lf s n) (h' : n.Walked lf s o) :
    m.Walked lf s o where
  keeps k v hv := h'.keeps k v (h.keeps k v hv)
  read k hk := by
    rcases h'.read k hk with hn | hr
    · rcases h.read k hn with hm | hr
      · exact .inl hm
      · obtain ⟨v, hv⟩ := Option.isSome_iff_exists.mp hn
        exact .inr (hr.mono ((h'.keeps k v hv).trans hv.symm) fun _ => isSome_of_keeps h'.keeps)
    · exact .inr hr

/-- The keys of the entries that have not been read. -/
def unread (nodes : Members) (m : NodeMap) : Nat :=
  (nodes.elems.filter fun e => (m.find? e.1).isNone).length

theorem unread_le {nodes : Members} {m m' : NodeMap} (h : m.Walked lf s m') :
    unread nodes m' ≤ unread nodes m := by
  apply List.Sublist.length_le
  apply List.monotone_filter_right
  intro e he
  rw [Option.isNone_iff_eq_none] at he ⊢
  by_contra hsome
  obtain ⟨v, hv⟩ := Option.ne_none_iff_exists'.mp hsome
  simp [h.keeps _ v hv] at he

theorem unread_assign_lt {nodes : Members} {m : NodeMap} {k : Bytes} {j : Json}
    {v : Option (LockedNode Bytes)} (hk : nodes.find? k = some j) (hnew : m.find? k = none) :
    unread nodes (m.assign k v) < unread nodes m := by
  have hmem := SortedMap.find?_eq_some.mp hk
  have hfilter : (nodes.elems.filter fun e => (SortedMap.find? (m.assign k v) e.1).isNone) =
      (nodes.elems.filter fun e => (m.find? e.1).isNone).filter (·.1 ≠ k) := by
    rw [List.filter_filter]
    apply List.filter_congr
    intro e _
    rw [SortedMap.find?_assign]
    by_cases h : k = e.1
    · simp [h]
    · simp [h, Ne.symm h]
  rw [unread, unread, hfilter, List.length_filter_lt_length_iff_exists]
  exact ⟨(k, j), List.mem_filter.mpr ⟨hmem, by simp [hnew]⟩, by simp⟩

variable (s) in
def NodeMap.Rooted (m : NodeMap) : Prop :=
  ∀ k, m.find? k = some none → s.keyOf none = some k

theorem NodeMap.Walked.rooted {m m' : NodeMap} (h : m.Walked lf s m') (hm : m.Rooted s) :
    m'.Rooted s := by
  intro k hk
  rcases h.read k (by simp [hk]) with hold | ⟨i, node, -, -, hfind, -⟩
  · obtain ⟨v, hv⟩ := Option.isSome_iff_exists.mp hold
    have heq := h.keeps k v hv
    rw [hk, Option.some.injEq] at heq
    exact hm k (heq ▸ hv)
  · rw [hk] at hfind
    simp at hfind

theorem NodeMap.Rooted.locked {m : NodeMap} (hm : m.Rooted s) (hs : s.Regular) {i : ι}
    (hi : (s.keyOf (some i)).isSome) (hmem : (m.find? (s.nodeKey i)).isSome) :
    ∃ node, m.find? (s.nodeKey i) = some (some node) := by
  obtain ⟨k, hk⟩ := Option.isSome_iff_exists.mp hi
  obtain ⟨v, hv⟩ := Option.isSome_iff_exists.mp hmem
  cases v with
  | some node => exact ⟨node, hv⟩
  | none =>
      have hroot := hm _ hv
      rw [DumpState.nodeKey, hk, Option.getD_some] at hroot
      have heq := hs.inj _ _ _ hroot hk
      simp at heq

theorem readInputs_spec {nodes : Members} {fuel : Nat} (hs : s.Regular)
    {readNode : Bytes → NodeMap → Except Error NodeMap}
    (hread : ∀ i m, (s.keyOf (some i)).isSome → m.find? (s.nodeKey i) = none → m.Rooted s →
      unread nodes m < fuel → ∃ m', readNode (s.nodeKey i) m = .ok m' ∧ m.Walked lf s m' ∧
        (m'.find? (s.nodeKey i)).isSome)
    (l : List (FlakeId × Edge ι)) (acc : Inputs Bytes) (m : NodeMap)
    (hl : ∀ name i, (name, Edge.node i) ∈ l → (s.keyOf (some i)).isSome) (hm : m.Rooted s)
    (hfuel : unread nodes m < fuel) :
    ∃ m', readInputs readNode (l.map fun e => (e.1, s.edgeJson e.2)) acc m =
        .ok (l.foldl (fun acc e => acc.assign e.1 (e.2.map s.nodeKey)) acc, m') ∧
      m.Walked lf s m' ∧
      ∀ name i, (name, Edge.node i) ∈ l → (m'.find? (s.nodeKey i)).isSome := by
  induction l generalizing acc m with
  | nil => exact ⟨m, rfl, .refl m, by simp⟩
  | cons e l ih =>
      have hrest : ∀ name i, (name, Edge.node i) ∈ l → (s.keyOf (some i)).isSome := fun name i hi =>
        hl name i (List.mem_cons_of_mem _ hi)
      obtain ⟨name, edge⟩ := e
      cases edge with
      | follows path =>
          obtain ⟨m', hrun, hwalk, hnamed⟩ :=
            ih (acc.assign name (.follows path)) m hrest hm hfuel
          refine ⟨m', ?_, hwalk, ?_⟩
          · rw [List.map_cons, readInputs, DumpState.edgeJson, Json.elements?_ofElements]
            dsimp only
            rw [toStrings_map]
            exact hrun
          · intro name' i hi
            rcases List.mem_cons.mp hi with heq | hi
            · simp at heq
            · exact hnamed name' i hi
      | node i =>
          have hi := hl name i List.mem_cons_self
          obtain ⟨t, hchild, hwalk, hmem⟩ : ∃ t, (if (m.find? (s.nodeKey i)).isSome then .ok m
              else readNode (s.nodeKey i) m) = .ok t ∧ m.Walked lf s t ∧
              (t.find? (s.nodeKey i)).isSome := by
            split
            next hold => exact ⟨m, rfl, .refl m, hold⟩
            next hnew => exact hread i m hi (by simpa using hnew) hm hfuel
          obtain ⟨m', hrun, hwalk', hnamed⟩ := ih (acc.assign name (.node (s.nodeKey i))) t hrest
            (hwalk.rooted hm) (lt_of_le_of_lt (unread_le hwalk) hfuel)
          obtain ⟨node, hnode⟩ := (hwalk.rooted hm).locked hs hi hmem
          refine ⟨m', ?_, hwalk.trans hwalk', ?_⟩
          · have hstring : (Json.string (s.nodeKey i)).elements? = none := rfl
            rw [List.map_cons, readInputs, DumpState.edgeJson_node, hstring]
            simp only [toStdString, bind, Except.bind]
            split at hchild
            next hold =>
              obtain rfl := Except.ok.inj hchild
              rw [if_pos hold]
              simp only [hnode]
              exact hrun
            next hnew =>
              rw [if_neg hnew, hchild]
              simp only [hnode]
              exact hrun
          · intro name' j hj
            rcases List.mem_cons.mp hj with heq | hj
            · obtain ⟨-, hij⟩ := Prod.mk.inj heq
              rw [Edge.node.inj hij]
              exact NodeMap.isSome_of_keeps hwalk'.keeps hmem
            · exact hnamed name' j hj

omit [DecidableEq ι] in
theorem foldl_assign_map (f : ι → Bytes) (inputs : Inputs ι) :
    inputs.elems.foldl (fun (acc : Inputs Bytes) e => acc.assign e.1 (e.2.map f)) .empty =
      inputs.map f := by
  rw [← SortedMap.ofList_elems (inputs.map f), SortedMap.ofList, Inputs.map, SortedMap.mapValues,
    List.foldl_map]

omit [DecidableEq ι] in
theorem items_inputsJson (inputs : Inputs ι) (edgeJson : Edge ι → Json) :
    (inputsJson (inputs.elems.map fun e => (e.1, edgeJson e.2))).find? (str "inputs") =
      if inputs.elems = [] then none
      else some (.ofMembers (inputs.mapValues edgeJson)) := by
  rw [inputsJson]
  by_cases h : inputs.elems = []
  · rw [if_pos (by rw [h]; rfl), if_pos h]
    rfl
  · rw [if_neg (by simpa using h), if_neg h, SortedMap.find?_assign_self,
      ← SortedMap.ofList_elems (inputs.mapValues edgeJson)]
    rfl

theorem LockFile.find?_members_inputs (node : Option ι) (inputs : List (FlakeId × Json)) :
    (lf.members node inputs).find? (str "inputs") = (inputsJson inputs).find? (str "inputs") := by
  rw [members]
  split
  next => rfl
  next locked _ => exact locked.find?_members_inputs _

theorem NodeMap.Walked.assign {m m' : NodeMap} {k : Bytes} {v w : Option (LockedNode Bytes)}
    (hnew : m.find? k = none) (hwalk : NodeMap.Walked lf s (m.assign k v) m')
    (hread : NodeMap.Read lf s (m'.assign k w) k) : m.Walked lf s (m'.assign k w) where
  keeps k' v' hv := by
    have hne : k ≠ k' := by
      rintro rfl
      simp [hnew] at hv
    rw [SortedMap.find?_assign_of_ne hne]
    exact hwalk.keeps k' v' (by rw [SortedMap.find?_assign_of_ne hne, hv])
  read k' hk' := by
    by_cases hne : k = k'
    · exact .inr (hne ▸ hread)
    · rw [SortedMap.find?_assign_of_ne hne] at hk'
      rcases hwalk.read k' hk' with hold | hr
      · rw [SortedMap.find?_assign_of_ne hne] at hold
        exact .inl hold
      · refine .inr (hr.mono (SortedMap.find?_assign_of_ne hne) fun k'' hk'' => ?_)
        rw [SortedMap.find?_assign]
        split
        next => rfl
        next => exact hk''

theorem getInputs_spec (hs : s.Regular) (hlock : lf.Lockable schemes)
    (hschemes : IgnoreFinal schemes) (hwritten : ∀ n, (s.keyOf n).isSome → lf.Written schemes s n)
    (fuel : Nat) (node : Option ι) (inputs : Inputs ι) (m : NodeMap)
    (hinputs : ∀ name i, (name, Edge.node i) ∈ inputs.elems → (s.keyOf (some i)).isSome)
    (hm : m.Rooted s) (hfuel : unread s.nodes m < fuel) :
    ∃ m', getInputs schemes (.ofMembers s.nodes) fuel (.ofMembers (lf.members node
        (inputs.elems.map fun e => (e.1, s.edgeJson e.2)))) m = .ok (inputs.map s.nodeKey, m') ∧
      m.Walked lf s m' ∧
      ∀ name i, (name, Edge.node i) ∈ inputs.elems → (m'.find? (s.nodeKey i)).isSome := by
  induction fuel generalizing node inputs m with
  | zero => exact absurd hfuel (Nat.not_lt_zero _)
  | succ fuel ih =>
      rw [getInputs, Json.find?_ofMembers, LockFile.find?_members_inputs, items_inputsJson]
      by_cases hempty : inputs.elems = []
      · refine ⟨m, ?_, .refl m, by simp [hempty]⟩
        rw [if_pos hempty, ← foldl_assign_map, hempty]
        rfl
      · rw [if_neg hempty]
        dsimp only
        rw [items_ofMembers, ← foldl_assign_map]
        refine readInputs_spec hs ?_ inputs.elems .empty m hinputs hm hfuel
        intro i m hi hnew hm hfuel
        obtain ⟨key, inputs, n, hkey, hinputs, hchildren, hn, hentry⟩ := hwritten (some i) hi
        rw [LockFile.nodeJSON_eq hlock, Except.ok.injEq] at hn
        subst hn
        obtain ⟨locked, hlocked, rfl⟩ := Option.map_eq_some_iff.mp hinputs
        have hname : s.nodeKey i = key := by rw [DumpState.nodeKey, hkey, Option.getD_some]
        rw [hname] at hnew ⊢
        have hlt : unread s.nodes
            (m.assign key (some { locked.reread s.nodeKey with inputs := .empty })) <
            unread s.nodes m := unread_assign_lt hentry hnew
        have hrooted : NodeMap.Rooted s
            (m.assign key (some { locked.reread s.nodeKey with inputs := .empty })) := by
          intro k hk
          rw [SortedMap.find?_assign] at hk
          split at hk
          next => simp at hk
          next => exact hm k hk
        obtain ⟨m', hrun, hwalk, hnamed⟩ := ih (some i) locked.inputs _ hchildren hrooted (by omega)
        have hofJSON := LockedNode.ofJSON_members (hlock i locked hlocked) hschemes
          (locked.inputs.elems.map fun e => (e.1, s.edgeJson e.2)) s.nodeKey
        have hmembers : lf.members (some i)
            (locked.inputs.elems.map fun e => (e.1, s.edgeJson e.2)) = locked.members (inputsJson
            (locked.inputs.elems.map fun e => (e.1, s.edgeJson e.2))) := by
          rw [LockFile.members, Option.bind_some, hlocked]
        rw [Json.find?_ofMembers, hentry]
        dsimp only
        rw [hmembers] at hrun ⊢
        rw [hofJSON]
        simp only [bind, Except.bind]
        rw [hrun]
        have hread : NodeMap.Read lf s (m'.assign key (some (locked.reread s.nodeKey))) key := by
          refine ⟨i, locked, hkey, hlocked, SortedMap.find?_assign_self .., fun name j hj => ?_⟩
          rw [SortedMap.find?_assign]
          split
          next => rfl
          next => exact hnamed name j hj
        refine ⟨m'.assign key (some (locked.reread s.nodeKey)), rfl,
          NodeMap.Walked.assign hnew hwalk hread, ?_⟩
        rw [SortedMap.find?_assign_self]
        rfl

end Walk

end Nix.Flake.LockFiles
