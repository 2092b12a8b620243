import Nix.Flake.LockFileReads

/-!
A lock file that is written and read again is the same graph, up to the identity of its nodes.
-/

set_option linter.dupNamespace false

namespace Nix.Flake.LockFiles

open Util.Types Util.JsonValues Lib.SortedList Lib.Results Lib.Table Flake.FlakeRefs

variable {ι : Type}

theorem dumpInputs_mono {d d' : Bytes → ι → DumpState ι → Except Error (Bytes × DumpState ι)}
    (hd : ∀ name i s r, d name i s = .ok r → d' name i s = .ok r)
    {l : List (FlakeId × Edge ι)} {s : DumpState ι} {r : List (FlakeId × Json) × DumpState ι}
    (h : dumpInputs d l s = .ok r) : dumpInputs d' l s = .ok r := by
  induction l generalizing s r with
  | nil => exact h
  | cons e l ih =>
      obtain ⟨name, edge⟩ := e
      cases edge with
      | follows path =>
          rw [dumpInputs, bind_eq_ok] at h ⊢
          obtain ⟨r', hl, hr⟩ := h
          exact ⟨r', ih hl, hr⟩
      | node i =>
          rw [dumpInputs, bind_eq_ok] at h ⊢
          obtain ⟨⟨k, t⟩, hnode, h⟩ := h
          refine ⟨(k, t), hd _ _ _ _ hnode, ?_⟩
          rw [bind_eq_ok] at h ⊢
          obtain ⟨r', hl, hr⟩ := h
          exact ⟨r', ih hl, hr⟩

section Walk

variable [DecidableEq ι] {schemes : InputSchemes} {lf : LockFile ι}

theorem LockFile.dumpNode_succ (fuel : Nat) (key : Bytes) (node : Option ι) (s : DumpState ι)
    {r : Bytes × DumpState ι} (h : lf.dumpNode schemes fuel key node s = .ok r) :
    lf.dumpNode schemes (fuel + 1) key node s = .ok r := by
  induction fuel generalizing key node s r with
  | zero => simp [dumpNode] at h
  | succ fuel ih =>
      rw [dumpNode] at h ⊢
      cases hkeyOf : s.keyOf node with
      | some k => simpa only [hkeyOf] using h
      | none =>
          simp only [hkeyOf] at h ⊢
          rw [bind_eq_ok] at h ⊢
          obtain ⟨k, hk, h⟩ := h
          refine ⟨k, hk, ?_⟩
          cases hinputs : lf.inputsOf node with
          | none => simp [hinputs] at h
          | some inputs =>
              simp only [hinputs] at h ⊢
              rw [bind_eq_ok] at h ⊢
              obtain ⟨⟨l, t⟩, hl, h⟩ := h
              exact ⟨(l, t), dumpInputs_mono (fun name i s r => ih name (some i) s) hl, h⟩

theorem LockFile.dumpNode_le {fuel fuel' : Nat} (hle : fuel ≤ fuel') {key : Bytes}
    {node : Option ι} {s : DumpState ι} {r : Bytes × DumpState ι}
    (h : lf.dumpNode schemes fuel key node s = .ok r) :
    lf.dumpNode schemes fuel' key node s = .ok r := by
  induction hle with
  | refl => exact h
  | step _ ih => exact dumpNode_succ _ _ _ _ ih

variable (lf) in
/-- The nodes that can be reached from the root over inputs that are nodes. -/
inductive LockFile.Reachable : Option ι → Prop
  | root : LockFile.Reachable none
  | input {node : Option ι} {inputs : Inputs ι} {name : FlakeId} {i : ι} :
      LockFile.Reachable node → lf.inputsOf node = some inputs →
      (name, Edge.node i) ∈ inputs.elems → LockFile.Reachable (some i)

variable (lf) in
/-- `lf'` has the nodes of `lf` that can be reached, under other names and as they are read
again. -/
structure LockFile.Relocated (f : ι → Bytes) (lf' : LockFile Bytes) : Prop where
  root : lf'.root = lf.root.map f
  node : ∀ i node, lf.Reachable (some i) → lf.deref i = some node →
    lf'.deref (f i) = some (node.reread f)
  injective : ∀ i j, lf.Reachable (some i) → lf.Reachable (some j) → f i = f j → i = j

def DumpState.rename (f : ι → Bytes) (s : DumpState ι) : DumpState Bytes where
  nodes := s.nodes
  nodeKeys := s.nodeKeys.map fun e => (e.1.map f, e.2)
  keys := s.keys

variable {f : ι → Bytes} {lf' : LockFile Bytes}

variable (lf) in
def LockFile.Confined (s : DumpState ι) : Prop :=
  ∀ e ∈ s.nodeKeys, lf.Reachable e.1

theorem LockFile.Relocated.map_injective (h : lf.Relocated f lf') {n n' : Option ι}
    (hn : lf.Reachable n) (hn' : lf.Reachable n') (heq : n.map f = n'.map f) : n = n' := by
  cases n with
  | none => cases n' with
    | none => rfl
    | some j => simp at heq
  | some i => cases n' with
    | none => simp at heq
    | some j => exact congrArg some (h.injective i j hn hn' (Option.some.inj heq))

theorem LockFile.Relocated.keyOf_rename (h : lf.Relocated f lf') {s : DumpState ι}
    (hs : lf.Confined s) {node : Option ι} (hnode : lf.Reachable node) :
    (s.rename f).keyOf (node.map f) = s.keyOf node := by
  rw [DumpState.keyOf, DumpState.keyOf, DumpState.rename, select, select, List.find?_map,
    Option.map_map]
  have hfind : s.nodeKeys.find? ((fun e => decide (e.1 = node.map f)) ∘
      fun e => (e.1.map f, e.2)) = s.nodeKeys.find? (fun e => decide (e.1 = node)) := by
    apply List.find?_congr
    intro e he
    simp only [Function.comp_apply, decide_eq_decide]
    exact ⟨h.map_injective (hs e he) hnode, fun heq => by rw [heq]⟩
  rw [hfind]
  rfl

theorem LockFile.Relocated.inputsOf (h : lf.Relocated f lf') {node : Option ι} {inputs : Inputs ι}
    (hnode : lf.Reachable node) (hinputs : lf.inputsOf node = some inputs) :
    lf'.inputsOf (node.map f) = some (inputs.map f) := by
  cases node with
  | none =>
      obtain rfl := Option.some.inj hinputs
      exact congrArg some h.root
  | some i =>
      obtain ⟨locked, hi, rfl⟩ := Option.map_eq_some_iff.mp hinputs
      rw [Option.map_some, LockFile.inputsOf, h.node i locked hnode hi]
      rfl

omit [DecidableEq ι] in
theorem LockedNode.toJSON_reread (node : LockedNode ι) (f : ι → Bytes) (n : Members) :
    (node.reread f).toJSON schemes n = .ok (node.members n) := by
  have hlocked : eraseMember (attrsToJSON (node.reread f).lockedRef.toAttrs) finalAttr =
      .ok (.ofMembers ((node.lockedRef.toAttrs.erase finalAttr).mapValues Attr.toJson)) := by
    have hfinal : (node.lockedRef.dropFinal.markFinal).toAttrs.find? finalAttr =
        some (.boolean true) := by
      rw [FlakeRef.find?_toAttrs, if_neg (fun hand => dir_ne_final hand.1.symm),
        FlakeRef.markFinal, SortedMap.find?_assign_self]
    have hne : (node.reread f).lockedRef.toAttrs.elems ≠ [] := by
      intro hnil
      have hmem := SortedMap.find?_eq_some.mp hfinal
      rw [show (node.lockedRef.dropFinal.markFinal).toAttrs.elems = [] from hnil] at hmem
      exact List.not_mem_nil hmem
    rw [attrsToJSON, if_neg hne, eraseMember, Json.members?_ofMembers]
    dsimp only
    rw [erase_mapValues, reread, FlakeRef.toAttrs_erase_markFinal]
  have hfinal : (node.reread f).lockedRef.isFinal = .ok true :=
    FlakeRef.isFinal_markFinal _
  rw [toJSON, hfinal, hlocked, ← members_reread f]
  simp only [bind, Except.bind, Bool.true_or, Bool.not_true, Bool.false_eq_true, if_false]
  rw [members, reread, FlakeRef.toAttrs_erase_markFinal]
  rfl

theorem LockFile.Relocated.nodeJSON (h : lf.Relocated f lf') (hlock : lf.Lockable schemes)
    {node : Option ι} {inputs : Inputs ι} (hnode : lf.Reachable node)
    (hinputs : lf.inputsOf node = some inputs) (l : List (FlakeId × Json)) :
    lf'.nodeJSON schemes (node.map f) l = lf.nodeJSON schemes node l := by
  cases node with
  | none => rfl
  | some i =>
      obtain ⟨locked, hi, -⟩ := Option.map_eq_some_iff.mp hinputs
      rw [nodeJSON_eq hlock, LockFile.nodeJSON, LockFile.members, Option.map_some,
        Option.bind_some, Option.bind_some, h.node i locked hnode hi, hi]
      exact locked.toJSON_reread f _

theorem dumpInputs_rename {d : Bytes → ι → DumpState ι → Except Error (Bytes × DumpState ι)}
    (d' : Bytes → Bytes → DumpState Bytes → Except Error (Bytes × DumpState Bytes))
    (hd : ∀ name i s k t, lf.Reachable (some i) → lf.Confined s → d name i s = .ok (k, t) →
      d' name (f i) (s.rename f) = .ok (k, t.rename f) ∧ lf.Confined t)
    {l : List (FlakeId × Edge ι)} {s t : DumpState ι} {r : List (FlakeId × Json)}
    (hl : ∀ name i, (name, Edge.node i) ∈ l → lf.Reachable (some i)) (hs : lf.Confined s)
    (h : dumpInputs d l s = .ok (r, t)) :
    dumpInputs d' (l.map fun e => (e.1, e.2.map f)) (s.rename f) = .ok (r, t.rename f) ∧
      lf.Confined t := by
  induction l generalizing s r with
  | nil =>
      obtain ⟨rfl, rfl⟩ := Prod.mk.inj (Except.ok.inj h)
      exact ⟨rfl, hs⟩
  | cons e l ih =>
      have hrest : ∀ name i, (name, Edge.node i) ∈ l → lf.Reachable (some i) := fun name i hi =>
        hl name i (List.mem_cons_of_mem _ hi)
      obtain ⟨name, edge⟩ := e
      cases edge with
      | follows path =>
          rw [dumpInputs, bind_eq_ok] at h
          obtain ⟨⟨r', t'⟩, hrun, hr⟩ := h
          obtain ⟨rfl, rfl⟩ := Prod.mk.inj (Except.ok.inj hr)
          obtain ⟨hrun', ht⟩ := ih hrest hs hrun
          refine ⟨?_, ht⟩
          rw [List.map_cons, Edge.map, dumpInputs, hrun']
          rfl
      | node i =>
          rw [dumpInputs, bind_eq_ok] at h
          obtain ⟨⟨k, u⟩, hnode, h⟩ := h
          rw [bind_eq_ok] at h
          obtain ⟨⟨r', t'⟩, hrun, hr⟩ := h
          obtain ⟨rfl, rfl⟩ := Prod.mk.inj (Except.ok.inj hr)
          obtain ⟨hnode', hu⟩ := hd name i s k u (hl name i List.mem_cons_self) hs hnode
          obtain ⟨hrun', ht⟩ := ih hrest hu hrun
          refine ⟨?_, ht⟩
          rw [List.map_cons, Edge.map, dumpInputs, hnode']
          simp only [bind, Except.bind]
          rw [hrun']
          rfl

theorem LockFile.Relocated.dumpNode (h : lf.Relocated f lf') (hlock : lf.Lockable schemes)
    (fuel : Nat) (key : Bytes) (node : Option ι) (s : DumpState ι) {k : Bytes} {t : DumpState ι}
    (hnode : lf.Reachable node) (hs : lf.Confined s)
    (hrun : lf.dumpNode schemes fuel key node s = .ok (k, t)) :
    lf'.dumpNode schemes fuel key (node.map f) (s.rename f) = .ok (k, t.rename f) ∧
      lf.Confined t := by
  induction fuel generalizing key node s k t with
  | zero => simp [LockFile.dumpNode] at hrun
  | succ fuel ih =>
      rw [LockFile.dumpNode] at hrun ⊢
      rw [h.keyOf_rename hs hnode]
      cases hkeyOf : s.keyOf node with
      | some k' =>
          simp only [hkeyOf] at hrun ⊢
          obtain ⟨rfl, rfl⟩ := Prod.mk.inj (Except.ok.inj hrun)
          exact ⟨rfl, hs⟩
      | none =>
          simp only [hkeyOf] at hrun ⊢
          rw [bind_eq_ok] at hrun
          obtain ⟨k', hk', hrun⟩ := hrun
          cases hinputs : lf.inputsOf node with
          | none => simp [hinputs] at hrun
          | some inputs =>
              simp only [hinputs] at hrun
              rw [bind_eq_ok] at hrun
              obtain ⟨⟨l, u⟩, hl, hrun⟩ := hrun
              rw [bind_eq_ok] at hrun
              obtain ⟨n, hn, hrun⟩ := hrun
              obtain ⟨rfl, rfl⟩ := Prod.mk.inj (Except.ok.inj hrun)
              have hnamed : lf.Confined (s.name node k') := by
                intro e he
                rcases List.mem_cons.mp he with rfl | he
                · exact hnode
                · exact hs e he
              have hdump : ∀ name i s k t, lf.Reachable (some i) → lf.Confined s →
                  lf.dumpNode schemes fuel name (some i) s = .ok (k, t) →
                  lf'.dumpNode schemes fuel name (some (f i)) (s.rename f) =
                    .ok (k, t.rename f) ∧ lf.Confined t :=
                fun name i s k t hi hs hrun => ih name (some i) s hi hs hrun
              obtain ⟨hl', hu⟩ := dumpInputs_rename
                (fun name child => lf'.dumpNode schemes fuel name (some child)) hdump
                (fun name i hi => .input hnode hinputs hi) hnamed hl
              refine ⟨?_, hu⟩
              have hkeys : (s.rename f).keys = s.keys := rfl
              rw [hkeys, hk', h.inputsOf hnode hinputs]
              simp only [bind, Except.bind]
              have hstate : ({ s.rename f with
                  keys := k' :: s.keys
                  nodeKeys := (node.map f, k') :: (s.rename f).nodeKeys } : DumpState Bytes) =
                    (s.name node k').rename f := rfl
              have helems : (inputs.map f).elems = inputs.elems.map fun e => (e.1, e.2.map f) := rfl
              rw [hstate, helems, hl']
              simp only
              rw [h.nodeJSON hlock hnode hinputs, hn]
              rfl

theorem NodeMap.mem_locked {m : NodeMap} {k : Bytes} {node : LockedNode Bytes} :
    (k, node) ∈ m.locked ↔ m.find? k = some (some node) := by
  rw [locked, List.mem_filterMap, SortedMap.find?_eq_some]
  constructor
  · rintro ⟨⟨k', v⟩, he, heq⟩
    obtain ⟨node', rfl, hnode⟩ := Option.map_eq_some_iff.mp heq
    obtain ⟨rfl, rfl⟩ := Prod.mk.inj hnode
    exact he
  · intro h
    exact ⟨_, h, rfl⟩

theorem NodeMap.nodup_locked (m : NodeMap) : (m.locked.map Prod.fst).Nodup := by
  have hkeys : (m.elems.map Prod.fst).Nodup := (strictlySorted_byKey.mp m.sorted).nodup
  refine List.Nodup.sublist ?_ hkeys
  rw [locked]
  induction m.elems with
  | nil => simp
  | cons e l ih =>
      obtain ⟨k, v⟩ := e
      cases v with
      | none => exact ih.trans (List.sublist_cons_self _ _)
      | some node => exact ih.cons_cons k

theorem NodeMap.deref_locked {m : NodeMap} {root : Inputs Bytes} {k : Bytes}
    {node : LockedNode Bytes} :
    (LockFile.mk root m.locked).deref k = some node ↔ m.find? k = some (some node) := by
  rw [LockFile.deref, Option.map_eq_some_iff]
  constructor
  · rintro ⟨e, he, rfl⟩
    have hk : e.1 = k := key_of_select he
    rw [← hk]
    exact mem_locked.mp (mem_of_select he)
  · intro h
    exact ⟨(k, node), select_of_mem m.nodup_locked (mem_locked.mpr h), rfl⟩

theorem LockFile.read_dump (hlock : lf.Lockable schemes) (hschemes : IgnoreFinal schemes)
    {s : DumpState ι} {rootKey : Bytes} (hs : s.Regular) (hroot : s.keyOf none = some rootKey)
    (hwritten : ∀ n, (s.keyOf n).isSome → lf.Written schemes s n) :
    ∃ m : NodeMap,
      getInputs schemes (.ofMembers s.nodes) (s.nodes.elems.length + 1) (.ofMembers (lf.members none
        (lf.root.elems.map fun e => (e.1, s.edgeJson e.2)))) (SortedMap.assign .empty rootKey none) =
        .ok (lf.root.map s.nodeKey, m) ∧ m.Rooted s ∧
      (∀ name i, (name, Edge.node i) ∈ lf.root.elems → (m.find? (s.nodeKey i)).isSome) ∧
      ∀ k node, m.find? k = some (some node) → m.Read lf s k := by
  have hrooted : NodeMap.Rooted s (SortedMap.assign .empty rootKey none) := by
    intro k hk
    rw [SortedMap.find?_assign] at hk
    split at hk
    next heq => exact heq ▸ hroot
    next => simp at hk
  have hlt : unread s.nodes (SortedMap.assign .empty rootKey none) < s.nodes.elems.length + 1 :=
    Nat.lt_succ_of_le (List.length_filter_le _ _)
  obtain ⟨key, inputs, n, hkey, hinputs, hchildren, hn, hentry⟩ := hwritten none (by simp [hroot])
  obtain rfl := Option.some.inj hinputs
  obtain ⟨m, hrun, hwalk, hnamed⟩ := getInputs_spec hs hlock hschemes hwritten _ none lf.root _
    hchildren hrooted hlt
  refine ⟨m, hrun, hwalk.rooted hrooted, hnamed, fun k node hk => ?_⟩
  refine (hwalk.read k (by simp [hk])).resolve_left fun hold => ?_
  obtain ⟨v, hv⟩ := Option.isSome_iff_exists.mp hold
  have hkept := hwalk.keeps k v hv
  rw [SortedMap.find?_assign] at hv
  split at hv
  next =>
    obtain rfl := Option.some.inj hv
    simp [hk] at hkept
  next => simp at hv

theorem LockFile.Reachable.read {s : DumpState ι} {m : NodeMap} (hs : s.Regular)
    (hroot : ∀ name i, (name, Edge.node i) ∈ lf.root.elems → (s.keyOf (some i)).isSome ∧
      ∃ node, m.find? (s.nodeKey i) = some (some node))
    (hread : ∀ k node, m.find? k = some (some node) → m.Read lf s k)
    (hstep : ∀ i, (s.keyOf (some i)).isSome → ∀ node, lf.deref i = some node →
      ∀ name j, (name, Edge.node j) ∈ node.inputs.elems → (s.keyOf (some j)).isSome)
    (hm : m.Rooted s) {n : Option ι} (h : lf.Reachable n) :
    ∀ i, n = some i → (s.keyOf (some i)).isSome ∧
      ∃ node, m.find? (s.nodeKey i) = some (some node) := by
  induction h with
  | root => simp
  | @input node inputs name i hnode hinputs hmem ih =>
      intro j hj
      obtain rfl := Option.some.inj hj
      cases node with
      | none =>
          obtain rfl := Option.some.inj hinputs
          exact hroot name i hmem
      | some p =>
          obtain ⟨locked, hp, rfl⟩ := Option.map_eq_some_iff.mp hinputs
          obtain ⟨hkey, node, hfind⟩ := ih p rfl
          obtain ⟨q, node', hq, hnode', hfind', hchildren⟩ := hread _ node hfind
          obtain ⟨k, hk⟩ := Option.isSome_iff_exists.mp hkey
          have hkp : s.nodeKey p = k := by rw [DumpState.nodeKey, hk, Option.getD_some]
          rw [hkp] at hq
          obtain rfl := Option.some.inj (hs.inj _ _ _ hq hk)
          obtain rfl := Option.some.inj (hnode'.symm.trans hp)
          have hnamed := hstep q hkey node' hnode' name i hmem
          exact ⟨hnamed, hm.locked hs hnamed (hchildren name i hmem)⟩

def fileMembers (root : Bytes) (nodes : Members) : Members :=
  let json : Members := .empty
  let json := json.assign (str "version") (.numberUnsigned 7)
  let json := json.assign (str "root") (.string root)
  json.assign (str "nodes") (.ofMembers nodes)

theorem LockFile.toJSON_of_dumpNode {root : Bytes} {s : DumpState ι}
    (h : lf.dumpNode schemes (lf.nodes.length + 2) (str "root") none {} = .ok (root, s)) :
    lf.toJSON schemes = .ok (.ofMembers (fileMembers root s.nodes), s.nodeKeys) := by
  rw [toJSON, h]
  rfl

omit [DecidableEq ι] in
theorem subscript_ofMembers (m : Members) (k : Bytes) :
    subscript (.ofMembers m) k = .ok ((m.find? k).getD .null) := by
  have h := Json.members?_ofMembers m
  rw [Json.ofMembers] at h ⊢
  rw [subscript]
  · simp only [h]
  · simp

omit [DecidableEq ι] in
theorem ofJSON_fileMembers {rootKey : Bytes} {nodes : Members} {path : Bytes} {entry : Members}
    {root : Inputs Bytes} {m : NodeMap} (hentry : nodes.find? rootKey = some (.ofMembers entry))
    (h : getInputs schemes (.ofMembers nodes) (nodes.elems.length + 1) (.ofMembers entry)
      (SortedMap.assign .empty rootKey none) = .ok (root, m)) :
    LockFile.ofJSON schemes (.ofMembers (fileMembers rootKey nodes)) path =
      .ok { root, nodes := m.locked } := by
  have hversion : (fileMembers rootKey nodes).find? (str "version") =
      some (.numberUnsigned 7) := by
    simp (disch := apply str_ne_str; decide) [fileMembers, SortedMap.find?_assign_of_ne,
      SortedMap.find?_assign_self]
  have hroot : (fileMembers rootKey nodes).find? (str "root") = some (.string rootKey) := by
    simp (disch := apply str_ne_str; decide) [fileMembers, SortedMap.find?_assign_of_ne,
      SortedMap.find?_assign_self]
  have hnodes : (fileMembers rootKey nodes).find? (str "nodes") = some (.ofMembers nodes) := by
    simp [fileMembers, SortedMap.find?_assign_self]
  rw [LockFile.ofJSON, Json.members?_ofMembers, Option.map_some, hversion, subscript_ofMembers,
    subscript_ofMembers, hroot, hnodes]
  have hseven : toInt32 schemes.cast (.numberUnsigned 7) = .ok 7 := rfl
  simp only [hseven, bind, Except.bind, Option.getD_some, toStdString]
  rw [if_neg (by decide), subscript_ofMembers, hentry]
  simp only [Json.members?_ofMembers, Option.map_some, Option.getD_some]
  rw [h]
  rfl

variable (schemes) in
/-- `operator==`, which compares what both files print. -/
def LockFile.Equal {κ : Type} [DecidableEq κ] (lf : LockFile ι) (lf' : LockFile κ) : Prop :=
  ∃ json nodeKeys nodeKeys', lf.toJSON schemes = .ok (json, nodeKeys) ∧
    lf'.toJSON schemes = .ok (json, nodeKeys')

theorem LockFile.dumpNode_unique {fuel fuel' : Nat} {key : Bytes} {node : Option ι}
    {s : DumpState ι} {r r' : Bytes × DumpState ι}
    (h : lf.dumpNode schemes fuel key node s = .ok r)
    (h' : lf.dumpNode schemes fuel' key node s = .ok r') : r = r' := by
  have hsum := dumpNode_le (Nat.le_add_right fuel fuel') h
  rw [dumpNode_le (Nat.le_add_left fuel' fuel) h', Except.ok.injEq] at hsum
  exact hsum.symm

/-- Every lock graph whose nodes can be locked, with any sharing and any cycles, is written and
read again as an equal lock file, which has the same nodes that can be reached with the same
inputs, `follows` paths and parents. -/
theorem LockFile.ofString_toString {codec : JsonCodec} (hclosed : lf.Closed)
    (hlock : lf.Lockable schemes) (hschemes : IgnoreFinal schemes)
    (hcodec : ∀ json nodeKeys, lf.toJSON schemes = .ok (json, nodeKeys) →
      ∃ text, codec.dump json = .ok text ∧ codec.parse text = .ok json) (path : Bytes) :
    ∃ text nodeKeys lf', lf.toString schemes codec = .ok (text, nodeKeys) ∧
      LockFile.ofString schemes codec text path = .ok lf' ∧ lf'.Closed ∧
      lf'.Equal schemes lf ∧ ∃ f, lf.Relocated f lf' := by
  obtain ⟨rootKey, s, hdump, hs, hroot, hwritten⟩ := dumpRoot_spec hclosed hlock
  obtain ⟨m, hread, hrooted, hrootNodes, hentries⟩ :=
    read_dump hlock hschemes hs hroot hwritten
  have hjson := toJSON_of_dumpNode hdump
  obtain ⟨text, htext, hparse⟩ := hcodec _ _ hjson
  -- The entry of the root and the keys of the children of a named node.
  obtain ⟨key, inputs, n, hkey, hinputs, hchildren, hn, hentry⟩ := hwritten none (by simp [hroot])
  obtain rfl := Option.some.inj hinputs
  obtain rfl := Option.some.inj (hroot.symm.trans hkey)
  rw [nodeJSON_eq hlock, Except.ok.injEq] at hn
  subst hn
  have hstep : ∀ i, (s.keyOf (some i)).isSome → ∀ node, lf.deref i = some node →
      ∀ name j, (name, Edge.node j) ∈ node.inputs.elems → (s.keyOf (some j)).isSome := by
    intro i hi node hnode name j hj
    obtain ⟨_, inputs, _, _, hinputs, hchildren, _⟩ := hwritten (some i) hi
    rw [LockFile.inputsOf, hnode, Option.map_some, Option.some.injEq] at hinputs
    exact hchildren name j (hinputs ▸ hj)
  have hroots : ∀ name i, (name, Edge.node i) ∈ lf.root.elems → (s.keyOf (some i)).isSome ∧
      ∃ node, m.find? (s.nodeKey i) = some (some node) := fun name i hi =>
    ⟨hchildren name i hi, hrooted.locked hs (hchildren name i hi) (hrootNodes name i hi)⟩
  have hreachable : ∀ i, lf.Reachable (some i) → (s.keyOf (some i)).isSome ∧
      ∃ node, m.find? (s.nodeKey i) = some (some node) := fun i hi =>
    hi.read hs hroots hentries hstep hrooted i rfl
  have hkeys : ∀ i k, (s.keyOf (some i)).isSome → s.nodeKey i = k → s.keyOf (some i) = some k := by
    intro i k hi hk
    obtain ⟨k', hk'⟩ := Option.isSome_iff_exists.mp hi
    rw [DumpState.nodeKey, hk', Option.getD_some] at hk
    rw [hk', hk]
  let lf' : LockFile Bytes := ⟨lf.root.map s.nodeKey, m.locked⟩
  have hclosed' : lf'.Closed := by
    constructor
    · intro name k hk
      obtain ⟨i, hi, rfl⟩ := Inputs.mem_map_node.mp hk
      obtain ⟨-, node, hnode⟩ := hroots name i hi
      exact Option.isSome_iff_exists.mpr ⟨node, NodeMap.deref_locked.mpr hnode⟩
    · rintro ⟨k, node⟩ he name k' hk'
      obtain ⟨i, locked, hi, hlocked, hfind, hmem⟩ := hentries k node (NodeMap.mem_locked.mp he)
      obtain rfl : node = locked.reread s.nodeKey := by
        have hnode := NodeMap.mem_locked.mp he
        rw [hfind] at hnode
        exact (Option.some.inj (Option.some.inj hnode)).symm
      obtain ⟨j, hj, rfl⟩ := Inputs.mem_map_node.mp hk'
      have hnamed := hstep i (by simp [hi]) locked hlocked name j hj
      obtain ⟨node, hnode⟩ := hrooted.locked hs hnamed (hmem name j hj)
      exact Option.isSome_iff_exists.mpr ⟨node, NodeMap.deref_locked.mpr hnode⟩
  have hrelocated : lf.Relocated s.nodeKey lf' := by
    refine ⟨rfl, fun i node hi hnode => ?_, fun i j hi hj heq => ?_⟩
    · obtain ⟨hnamed, node', hfind⟩ := hreachable i hi
      obtain ⟨j, locked, hj, hlocked, hfind', -⟩ := hentries _ node' hfind
      obtain rfl := Option.some.inj (hs.inj _ _ _ hj (hkeys i _ hnamed rfl))
      obtain rfl := Option.some.inj (hlocked.symm.trans hnode)
      exact NodeMap.deref_locked.mpr hfind'
    · have hki := hkeys i _ (hreachable i hi).1 rfl
      have hkj := hkeys j _ (hreachable j hj).1 heq.symm
      exact Option.some.inj (hs.inj _ _ _ hki hkj)
  have hjson' : ∀ node inputs, (lf'.inputsOf node).isSome →
      ∃ n, lf'.nodeJSON schemes node inputs = .ok n := by
    intro node inputs hnode
    cases node with
    | none => exact ⟨_, rfl⟩
    | some k =>
        rw [LockFile.inputsOf, Option.isSome_map] at hnode
        obtain ⟨node, hk⟩ := Option.isSome_iff_exists.mp hnode
        have hfind := NodeMap.deref_locked.mp hk
        obtain ⟨i, locked, -, -, hfind', -⟩ := hentries k node hfind
        rw [hfind, Option.some.injEq, Option.some.injEq] at hfind'
        rw [LockFile.nodeJSON, Option.bind_some, hk, hfind']
        exact ⟨_, locked.toJSON_reread s.nodeKey _⟩
  obtain ⟨rootKey', t, hdump', -⟩ := lf'.dumpNode_spec hclosed' hjson' (lf'.nodes.length + 2)
    (str "root") none {} DumpState.regular_empty rfl (unnamed_lt _)
  obtain ⟨hsame, -⟩ := hrelocated.dumpNode hlock _ _ none {} .root
    (fun e he => absurd he List.not_mem_nil) hdump
  obtain ⟨rfl, rfl⟩ := Prod.mk.inj (dumpNode_unique hdump' hsame)
  refine ⟨text, s.nodeKeys, lf', ?_, ?_, hclosed', ?_, s.nodeKey, hrelocated⟩
  · rw [LockFile.toString, hjson]
    simp only [bind, Except.bind, htext]
    rfl
  · rw [LockFile.ofString, hparse]
    exact ofJSON_fileMembers hentry hread
  · exact ⟨_, _, _, toJSON_of_dumpNode hdump', hjson⟩

end Walk

def pathSchemes : InputSchemes where
  cast := ⟨fun _ => 0, fun _ => 0⟩
  inputFromAttrs := .ok
  isLocked attrs := (attrs.find? (str "narHash")).isSome
  isRelative attrs :=
    match attrs.find? (str "path") with
    | some (.string path) => path.head? ≠ some 47
    | _ => false
  hasNarHash attrs := (attrs.find? (str "narHash")).isSome

def pathAttrs (attrs : List (Bytes × Attr)) : Attrs :=
  .ofList ((str "path", .string (str "/a")) :: (str "type", .string (str "path")) :: attrs)

/-- A flake in `/a` that is an input of itself and follows itself. -/
def selfInput : LockFile Nat where
  root := .ofList [(str "a", .node 0)]
  nodes := [(0,
    { inputs := .ofList [(str "a", .follows [str "a"]), (str "b", .node 0)]
      lockedRef := ⟨pathAttrs [(str "narHash", .string (str "sha256-AA")),
        (finalAttr, .boolean true)], []⟩
      originalRef := ⟨pathAttrs [], []⟩
      parentInputAttrPath := some [] })]

def selfInputText : Bytes :=
  str ("\n".intercalate [
    "\x7b",
    "  \"nodes\": \x7b",
    "    \"a\": \x7b",
    "      \"inputs\": \x7b",
    "        \"a\": [",
    "          \"a\"",
    "        ],",
    "        \"b\": \"a\"",
    "      \x7d,",
    "      \"locked\": \x7b",
    "        \"narHash\": \"sha256-AA\",",
    "        \"path\": \"/a\",",
    "        \"type\": \"path\"",
    "      \x7d,",
    "      \"original\": \x7b",
    "        \"path\": \"/a\",",
    "        \"type\": \"path\"",
    "      \x7d,",
    "      \"parent\": []",
    "    \x7d,",
    "    \"root\": \x7b",
    "      \"inputs\": \x7b",
    "        \"a\": \"a\"",
    "      \x7d",
    "    \x7d",
    "  \x7d,",
    "  \"root\": \"root\",",
    "  \"version\": 7",
    "\x7d"])

def selfInputCodec : JsonCodec where
  dump _ := .ok selfInputText
  parse _ := (selfInput.toJSON pathSchemes).map Prod.fst

theorem ignoreFinal_pathSchemes : IgnoreFinal pathSchemes := by
  intro attrs
  have hpath : str "path" ≠ finalAttr := str_ne_str (by decide)
  have hnarHash : str "narHash" ≠ finalAttr := str_ne_str (by decide)
  constructor
  · simp only [pathSchemes]
    rw [SortedMap.find?_erase, if_neg hnarHash]
  · simp only [pathSchemes]
    rw [SortedMap.find?_erase, if_neg hpath]

theorem ofString_toString_selfInput :
    ∃ text nodeKeys lf', selfInput.toString pathSchemes selfInputCodec = .ok (text, nodeKeys) ∧
      LockFile.ofString pathSchemes selfInputCodec text [] = .ok lf' ∧ lf'.Closed ∧
      lf'.Equal pathSchemes selfInput ∧ ∃ f, selfInput.Relocated f lf' := by
  have hnode : ∀ i node, selfInput.deref i = some node → i = 0 := by
    intro i node h
    obtain ⟨e, he, -⟩ := Option.map_eq_some_iff.mp h
    rw [← key_of_select he]
    have hmem := mem_of_select he
    simp only [selfInput, List.mem_singleton] at hmem
    rw [hmem]
  refine LockFile.ofString_toString ⟨?_, ?_⟩ ?_ ignoreFinal_pathSchemes ?_ []
  · intro name i hi
    obtain ⟨-, heq⟩ := Prod.mk.inj (List.mem_singleton.mp hi)
    rw [Edge.node.inj heq]
    rfl
  · intro e he name i hi
    rw [List.mem_singleton.mp he] at hi
    rcases List.mem_cons.mp hi with heq | hi
    · simp at heq
    · obtain ⟨-, heq⟩ := Prod.mk.inj (List.mem_singleton.mp hi)
      rw [Edge.node.inj heq]
      rfl
  · intro i node h
    obtain rfl := hnode i node h
    obtain rfl := Option.some.inj h
    exact ⟨by decide +kernel, by decide +kernel, true, by decide +kernel,
      .inr ⟨rfl, by decide +kernel⟩⟩
  · intro json nodeKeys h
    refine ⟨selfInputText, rfl, ?_⟩
    simp only [selfInputCodec]
    rw [h]
    rfl

end Nix.Flake.LockFiles
