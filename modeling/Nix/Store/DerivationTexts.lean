import Nix.Lib.SortedMaps
import Nix.Store.DerivationReplacements
import Nix.Store.DerivationResolutions

/-!
The texts of whole derivations are read back.
-/

set_option linter.dupNamespace false

namespace Nix.Store.Derivations

open Util.Types Util.CanonPaths Util.Hashes Util.JsonValues
open Nix.Lib
open Lib.SortedList
open Lib.PrefixReader hiding bind_eq_ok pure_eq_ok
open Lib.Results hiding pure_eq_ok
open Store.Path Store.PathInfo Store.StoreDirs Store.ATerms Store.DerivationOutputs
  Store.DerivationResolving

/-! ### The parser -/

/-- `DerivationATermVersion`. -/
inductive ATermVersion
  | traditional
  | dynamicDerivations

def ChildNode.ofMap (value : StringSet) (childMap : ChildNode.Map) : ChildNode :=
  .mk value ⟨childMap.elems.map Prod.fst, strictlySorted_byKey.mp childMap.sorted⟩
    fun i => (childMap.elems.get (i.cast (List.length_map _))).2

/-- `map::emplace`, which keeps what the key has. -/
def emplaceOutput (outputs : Outputs) (id : Bytes) (output : DerivationOutput) : Outputs :=
  if outputs.contains id then outputs else outputs.assign id output

section Parser

variable (store : DerivationStore) (xp xpSettings : ExperimentalFeatureSettings)

def parseChild (parseNode : Stream ChildNode) (childMap : ChildNode.Map) :
    Stream ChildNode.Map := do
  expectChar 40
  let outputName ← parseString
  expectChar 44
  let node ← parseNode
  expectChar 41
  return childMap.assign outputName node

/-- `parseDerivedPathMapNode`, for nodes that are nested less deep than the first argument. -/
def parseNode : Nat → ATermVersion → Stream ChildNode
  | 0, _ => throw .diverges
  | _ + 1, .traditional => do
      let value ← parseStrings false
      return .leaf value
  | depth + 1, .dynamicDerivations => do
      match ← peek with
      | some 91 => do
          let value ← parseStrings false
          return .leaf value
      | some 40 => do
          expectChar 40
          let value ← parseStrings false
          expect (str ",[")
          let childMap ← untilEndOfList (parseChild (parseNode depth .dynamicDerivations)) .empty
          expectChar 41
          return .ofMap value childMap
      | _ => throw (formatError "invalid inputDrvs entry in derivation")

/-- A node cannot be nested deeper than the rest of the text is long. -/
def parseDerivedPathMapNode (version : ATermVersion) : Stream ChildNode := fun s =>
  parseNode (s.length + 1) version s

def parseVersion (name : Bytes) : Stream ATermVersion := do
  match ← peek with
  | some 101 => do
      expect (str "erive(")
      return .traditional
  | some 114 => do
      expect (str "rvWithVersion(")
      let versionS ← parseString
      if versionS = str "xp-dyn-drv" then
        fromExcept (xpSettings.require .dynamicDerivations
          (str "derivation '" ++ name ++ str "', ATerm format version 'xp-dyn-drv'"))
      else throw ⟨.formatError, ⟨"Unknown derivation ATerm format version '%s'", [versionS]⟩⟩
      expectChar 44
      return .dynamicDerivations
  | _ => throw (simpleError "derivation does not start with 'Derive' or 'DrvWithVersion'")

def parseOutput (outputs : Outputs) : Stream Outputs := do
  expectChar 40
  let id ← parseString
  let output ← parseDerivationOutput store.dirs xp xpSettings
  return emplaceOutput outputs id output

def parseInputDrv (version : ATermVersion) (inputDrvs : InputDrvs) : Stream InputDrvs := do
  expectChar 40
  let drvPath ← parsePath
  expectChar 44
  let drvPath ← fromExcept (store.dirs.parseStorePath drvPath)
  let node ← parseDerivedPathMapNode version
  expectChar 41
  return inputDrvs.assign drvPath node

/-- `parseStorePathSet`. -/
def parseStorePathSet (paths : StringSet) : Except Error StorePathSet := do
  let paths ← paths.elems.mapM store.dirs.parseStorePath
  return .ofList paths

def setVariable (acc : StringPairs × Option JsonObject) (name value : Bytes) :
    Except Error (StringPairs × Option JsonObject) :=
  if name = envVarName then do
    let attrs ← parseStructuredAttrs store.codec value
    return (acc.1, some attrs)
  else .ok (acc.1.assign name value, acc.2)

def parseVariable (acc : StringPairs × Option JsonObject) :
    Stream (StringPairs × Option JsonObject) := do
  expectChar 40
  let name ← parseString
  expectChar 44
  let value ← parseString
  let acc ← fromExcept (setVariable store acc name value)
  expectChar 41
  return acc

def parseDerivationFrom (name : Bytes) : Stream Derivation := do
  expectChar 68
  let version ← parseVersion xpSettings name
  expectChar 91
  let outputs ← untilEndOfList (parseOutput store xp xpSettings) .empty
  expect (str ",[")
  let inputDrvs ← untilEndOfList (parseInputDrv store version) .empty
  expectChar 44
  let inputSrcs ← parseStrings true
  let inputSrcs ← fromExcept (parseStorePathSet store inputSrcs)
  expectChar 44
  let platform ← parseString
  expectChar 44
  let builder ← parseString
  expect (str ",[")
  let args ← untilEndOfList (fun args => do return args ++ [← parseString]) []
  expect (str ",[")
  let (env, structuredAttrs) ← untilEndOfList (parseVariable store) (.empty, none)
  expectChar 41
  return { outputs, inputSrcs, platform, builder, args, env, structuredAttrs, name, inputDrvs }

def parseDerivation (s name : Bytes) : Except Error Derivation :=
  (parseDerivationFrom store xp xpSettings name s).map Prod.fst

end Parser

/-! ### Nodes -/

namespace ChildNode

def childMap : ChildNode → Map
  | .mk _ keys child =>
      ⟨List.ofFn fun i => (keys.elems.get i, child i), strictlySorted_byKey.mpr (by
        rw [SortedTrees.SortedTree.map_fst_ofFn]
        exact keys.sorted)⟩

/-- The names in a node have neither quotes nor backslashes. -/
inductive PlainNames : ChildNode → Prop
  | mk {value keys : StringSet} {child : Fin keys.elems.length → ChildNode}
      (hvalue : ∀ outputName ∈ value.elems, Plain outputName)
      (hkeys : ∀ outputName ∈ keys.elems, Plain outputName)
      (hchild : ∀ i, (child i).PlainNames) : PlainNames (.mk value keys child)

theorem mk_congr {value : StringSet} {keys keys' : StringSet}
    {child : Fin keys.elems.length → ChildNode} {child' : Fin keys'.elems.length → ChildNode}
    (hkeys : keys = keys')
    (hchild : ∀ i i', i.val = i'.val → child i = child' i') :
    ChildNode.mk value keys child = .mk value keys' child' := by
  subst hkeys
  congr 1
  exact funext fun i => hchild i i rfl

theorem ofMap_childMap (node : ChildNode) : ofMap node.value node.childMap = node := by
  obtain ⟨value, keys, child⟩ := node
  refine mk_congr (SortedSet.eq_of_elems (SortedTrees.SortedTree.map_fst_ofFn _ _)) ?_
  intro i i' hi
  simp only [childMap, List.get_eq_getElem, List.getElem_ofFn]
  exact congrArg child (Fin.ext hi)

end ChildNode

theorem length_le_commaSeparated {item : Bytes} {items : List Bytes} (h : item ∈ items) :
    item.length ≤ (commaSeparated items).length := by
  cases items with
  | nil => cases h
  | cons first items =>
    rw [commaSeparated, List.length_append]
    rcases List.mem_cons.mp h with rfl | h
    · exact Nat.le_add_right _ _
    · have hle := List.Sublist.length_le
        (List.sublist_flatten_of_mem (List.mem_map_of_mem (f := (44 :: ·)) h))
      rw [← List.flatMap_def, List.length_cons] at hle
      omega

theorem reads_peek {α : Type} {f : Option UInt8 → Stream α} {c : UInt8} {s : Bytes} {a : α}
    (h : Reads (f (some c)) (c :: s) a) : Reads (peek >>= f) (c :: s) a :=
  h

theorem reads_parseChild {parseNode : Stream ChildNode} {e : Bytes × ChildNode} {text : Bytes}
    (hkey : Plain e.1) (htext : unparseNode e.2 = 44 :: text) (h : Reads parseNode text e.2)
    (childMap : ChildNode.Map) :
    Reads (parseChild parseNode childMap) (unparseInput e) (childMap.assign e.1 e.2) := by
  have hentry : unparseInput e =
      [40] ++ (printUnquotedString e.1 ++ ([44] ++ (text ++ ([41] ++ [])))) := by
    simp [unparseInput, htext]
  rw [hentry]
  exact (reads_expectChar 40).bind <| (reads_printUnquotedString hkey).bind <|
    (reads_expectChar 44).bind <| h.bind <| (reads_expectChar 41).bind <| .pure _

theorem reads_node {node : ChildNode} (h : node.PlainNames) :
    ∃ text, unparseNode node = 44 :: text ∧ ∀ depth, text.length < depth →
      Reads (parseNode depth .dynamicDerivations) text node := by
  induction h with
  | @mk value keys child hvalue hkeys hchild ih =>
    have hread := reads_printUnquotedStrings hvalue
    by_cases hnil : keys.elems = []
    · have hleaf : ChildNode.mk value keys child = .leaf value :=
        ChildNode.eq_leaf (by rw [ChildNode.isLeaf, hnil]; rfl)
      refine ⟨printUnquotedStrings value.elems, by rw [unparseNode, if_pos hnil], ?_⟩
      intro depth hdepth
      obtain ⟨depth, rfl⟩ := Nat.exists_eq_add_one_of_ne_zero (Nat.ne_zero_of_lt hdepth)
      rw [hleaf]
      exact reads_peek hread.bind_pure
    · have htext : unparseNode (.mk value keys child) = 44 :: ([40] ++
          (printUnquotedStrings value.elems ++ (str ",[" ++ ((commaSeparated
            ((ChildNode.mk value keys child).childMap.elems.map unparseInput) ++ [93]) ++
              ([41] ++ []))))) := by
        rw [unparseNode, if_neg hnil, ChildNode.childMap, List.map_ofFn]
        simp [Function.comp_def, unparseInput, str]
      refine ⟨_, htext, fun depth hdepth => ?_⟩
      obtain ⟨depth, rfl⟩ := Nat.exists_eq_add_one_of_ne_zero (Nat.ne_zero_of_lt hdepth)
      have hlist := @reads_untilEndOfList _ _ (parseChild (parseNode depth .dynamicDerivations))
        unparseInput (fun childMap e => childMap.assign e.1 e.2)
        (ChildNode.mk value keys child).childMap.elems ?_
        (fun e _ => ⟨40, _, rfl, by decide, by decide⟩) .empty
      · rw [SortedMap.foldl_assign_elems] at hlist
        have hnode : ChildNode.ofMap value (ChildNode.mk value keys child).childMap =
            .mk value keys child := ChildNode.ofMap_childMap (.mk value keys child)
        refine reads_peek ((reads_expectChar 40).bind <| hread.bind <|
          (reads_expect (str ",[")).bind <| hlist.bind <| (reads_expectChar 41).bind ?_)
        rw [hnode]
        exact .pure _
      · intro childMap e he
        have hlength := length_le_commaSeparated (List.mem_map_of_mem (f := unparseInput) he)
        obtain ⟨i, rfl⟩ := (List.mem_ofFn' _ _).mp he
        obtain ⟨text, hnode, hreads⟩ := ih i
        refine reads_parseChild (hkeys _ (List.get_mem _ _)) hnode (hreads depth ?_) childMap
        simp only [unparseInput, hnode, List.length_append, List.length_cons] at hlength hdepth
        omega

theorem reads_parseDerivedPathMapNode {node : ChildNode} (h : node.PlainNames)
    {version : ATermVersion} (hversion : version = .traditional → node.isLeaf = true) :
    ∃ text, unparseNode node = 44 :: text ∧
      Reads (parseDerivedPathMapNode version) text node := by
  obtain ⟨text, htext, hreads⟩ := reads_node h
  refine ⟨text, htext, ?_⟩
  cases version with
  | dynamicDerivations =>
    intro rest
    exact hreads _ (by rw [List.length_append]; omega) rest
  | traditional =>
    have hleaf : node = .leaf node.value := ChildNode.eq_leaf (hversion rfl)
    have hvalue : ∀ outputName ∈ node.value.elems, Plain outputName := by
      cases h with
      | mk hvalue hkeys hchild => exact hvalue
    have heq : text = printUnquotedStrings node.value.elems := by
      rw [hleaf] at htext
      exact (List.cons.inj htext).2.symm
    rw [heq]
    intro rest
    have hread := (reads_printUnquotedStrings hvalue).bind_pure (f := ChildNode.leaf) rest
    rw [← hleaf] at hread
    exact hread

/-! ### The parts of a derivation -/

section Parts

variable {store : DerivationStore} {xp xpSettings : ExperimentalFeatureSettings}

/-- The printed path has neither quotes nor backslashes, and is one component below the store
directory. -/
def PathReadsBack (store : DerivationStore) (p : StorePath) : Prop :=
  Plain (store.dirs.print p) ∧ slash ∉ p.baseName

theorem foldl_emplaceOutput {l : List (Bytes × DerivationOutput)} (hnodup : (l.map Prod.fst).Nodup)
    {outputs : Outputs} (hnew : ∀ e ∈ l, outputs.contains e.1 = false) :
    l.foldl (fun outputs e => emplaceOutput outputs e.1 e.2) outputs =
      l.foldl (fun outputs e => outputs.assign e.1 e.2) outputs := by
  induction l generalizing outputs with
  | nil => rfl
  | cons e l ih =>
    obtain ⟨hfirst, hnodup⟩ := List.nodup_cons.mp hnodup
    obtain ⟨he, hnew⟩ := List.forall_mem_cons.mp hnew
    have hadded : emplaceOutput outputs e.1 e.2 = outputs.assign e.1 e.2 :=
      if_neg (by rw [he]; exact Bool.false_ne_true)
    rw [List.foldl_cons, List.foldl_cons, hadded]
    refine ih hnodup fun e' he' => ?_
    have hne : e.1 ≠ e'.1 := fun heq => hfirst (heq ▸ List.mem_map_of_mem he')
    rw [SortedMap.contains_eq_isSome, SortedMap.find?_assign_of_ne hne,
      ← SortedMap.contains_eq_isSome, hnew e' he']

theorem reads_parseOutput {drvName : Bytes} {e : Bytes × DerivationOutput} (hid : Plain e.1)
    (henabled : e.2.Enabled xp xpSettings) (hcomputable : e.2.Computable store.dirs xp drvName e.1)
    (hpath : e.2.PathReadable store.dirs xp drvName e.1) :
    ∃ text, unparseOutput store.dirs xp false drvName e = .ok text ∧ StartsItem text ∧
      ∀ outputs, Reads (parseOutput store xp xpSettings outputs) text
        (emplaceOutput outputs e.1 e.2) := by
  obtain ⟨text, htext, hreads⟩ := unparseOutput_spec henabled hcomputable hpath
  refine ⟨_, htext, ⟨40, _, rfl, by decide, by decide⟩, fun outputs => ?_⟩
  have heq : 40 :: printUnquotedString e.1 ++ text =
      [40] ++ (printUnquotedString e.1 ++ text) := rfl
  rw [heq]
  exact (reads_expectChar 40).bind <| (reads_printUnquotedString hid).bind hreads.bind_pure

theorem reads_parsePath {p : StorePath} (h : Plain (store.dirs.print p)) :
    Reads parsePath (printUnquotedString (store.dirs.print p)) (store.dirs.print p) := by
  have hread : Reads parsePath (printUnquotedString (store.dirs.print p) ++ [])
      (store.dirs.print p) :=
    (reads_printUnquotedString h).bind (Reads.fromExcept_bind (validatePath_print p) (.pure _))
  rwa [List.append_nil] at hread

theorem reads_parseInputDrv {version : ATermVersion} {e : StorePath × ChildNode}
    (hpath : PathReadsBack store e.1) (hnode : e.2.PlainNames)
    (hversion : version = .traditional → e.2.isLeaf = true) (inputDrvs : InputDrvs) :
    Reads (parseInputDrv store version inputDrvs) (unparseInput (store.dirs.print e.1, e.2))
      (inputDrvs.assign e.1 e.2) := by
  obtain ⟨text, htext, hreads⟩ := reads_parseDerivedPathMapNode hnode hversion
  have heq : unparseInput (store.dirs.print e.1, e.2) =
      [40] ++ (printUnquotedString (store.dirs.print e.1) ++
        ([44] ++ (text ++ ([41] ++ [])))) := by
    simp [unparseInput, htext]
  rw [heq]
  exact (reads_expectChar 40).bind <| (reads_parsePath hpath.1).bind <|
    (reads_expectChar 44).bind <|
    Reads.fromExcept_bind (parseStorePath_print store.dirs hpath.2) <|
    hreads.bind <| (reads_expectChar 41).bind <| .pure _

theorem reads_inputSrcs {inputSrcs : StorePathSet}
    (h : ∀ p ∈ inputSrcs.elems, PathReadsBack store p) :
    ∃ paths : StringSet,
      Reads (parseStrings true) (printUnquotedStrings
        (SortedSet.ofList (inputSrcs.elems.map store.dirs.print) : StringSet).elems) paths ∧
      parseStorePathSet store paths = .ok inputSrcs := by
  obtain ⟨paths, hpaths⟩ : ∃ paths : StringSet,
    paths = .ofList (inputSrcs.elems.map store.dirs.print) := ⟨_, rfl⟩
  have hmem : ∀ s ∈ paths.elems, ∃ p ∈ inputSrcs.elems, store.dirs.print p = s := by
    intro s hs
    rw [hpaths] at hs
    exact List.mem_map.mp (SortedSet.mem_ofList.mp hs)
  refine ⟨paths, ?_, ?_⟩
  · rw [← hpaths]
    have hlist := @reads_untilEndOfList _ _
      (fun res : StringSet => do return res.insert (← parsePath)) printUnquotedString
      SortedSet.insert paths.elems (fun res s hs => ?_)
      (fun s _ => ⟨34, _, rfl, by decide, by decide⟩) SortedSet.empty
    · rw [SortedSet.foldl_insert_elems] at hlist
      exact (reads_expectChar 91).bind hlist
    · obtain ⟨p, hp, rfl⟩ := hmem s hs
      exact (reads_parsePath (h p hp).1).bind_pure
  · have hparse : ∀ s ∈ paths.elems, ∃ p ∈ inputSrcs.elems,
        store.dirs.print p = s ∧ store.dirs.parseStorePath s = .ok p := by
      intro s hs
      obtain ⟨p, hp, rfl⟩ := hmem s hs
      exact ⟨p, hp, rfl, parseStorePath_print store.dirs (h p hp).2⟩
    obtain ⟨parsed, hparsed⟩ := exists_mapM fun s hs => (hparse s hs).imp fun p hp => hp.2.2
    rw [parseStorePathSet, hparsed]
    refine congrArg Except.ok (SortedSet.ext fun p => ?_)
    rw [SortedSet.mem_ofList, mem_of_mapM hparsed]
    constructor
    · rintro ⟨s, hs, heq⟩
      obtain ⟨q, hq, -, hq'⟩ := hparse s hs
      rw [heq] at hq'
      exact Except.ok.inj hq' ▸ hq
    · intro hp
      refine ⟨store.dirs.print p, ?_, parseStorePath_print store.dirs (h p hp).2⟩
      rw [hpaths]
      exact SortedSet.mem_ofList.mpr (List.mem_map_of_mem hp)

/-! ### The environment -/

def addVariable (attrs : Option JsonObject) (acc : StringPairs × Option JsonObject)
    (e : Bytes × Bytes) : StringPairs × Option JsonObject :=
  if e.1 = envVarName then (acc.1, attrs) else (acc.1.assign e.1 e.2, acc.2)

theorem foldl_addVariable (attrs : Option JsonObject) (l : List (Bytes × Bytes))
    (acc : StringPairs × Option JsonObject) :
    l.foldl (addVariable attrs) acc =
      ((l.filter (·.1 ≠ envVarName)).foldl (fun env e => env.assign e.1 e.2) acc.1,
        if envVarName ∈ l.map Prod.fst then attrs else acc.2) := by
  induction l generalizing acc with
  | nil => rfl
  | cons e l ih =>
    rw [List.foldl_cons, ih, addVariable]
    by_cases he : e.1 = envVarName
    · simp [he]
    · have hmem : envVarName ∈ (e :: l).map Prod.fst ↔ envVarName ∈ l.map Prod.fst := by
        rw [List.map_cons, List.mem_cons, or_iff_right (Ne.symm he)]
      simp only [hmem]
      rw [if_neg he, List.filter_cons_of_pos (by simpa using he)]
      rfl

theorem reads_parseVariable {attrs : Option JsonObject} {e : Bytes × Bytes}
    (h : e.1 = envVarName → ∃ a ∈ attrs, parseStructuredAttrs store.codec e.2 = .ok a)
    (acc : StringPairs × Option JsonObject) :
    Reads (parseVariable store acc) (unparseVariable e) (addVariable attrs acc e) := by
  have htext : unparseVariable e =
      [40] ++ (printString e.1 ++ ([44] ++ (printString e.2 ++ ([41] ++ [])))) := by
    simp [unparseVariable]
  rw [htext]
  have hset : setVariable store acc e.1 e.2 = .ok (addVariable attrs acc e) := by
    rw [setVariable, addVariable]
    by_cases he : e.1 = envVarName
    · obtain ⟨a, ha, hparse⟩ := h he
      rw [if_pos he, if_pos he, hparse, Option.mem_def.mp ha]
      rfl
    · rw [if_neg he, if_neg he]
  exact (reads_expectChar 40).bind <| (reads_printString e.1).bind <|
    (reads_expectChar 44).bind <| (reads_printString e.2).bind <|
    Reads.fromExcept_bind hset <| (reads_expectChar 41).bind <| .pure _

/-! ### Derivations -/

/-- The text of the derivation can be printed and read, with what the readers allow. -/
structure Derivation.Printable (store : DerivationStore)
    (xp xpSettings : ExperimentalFeatureSettings) (drv : Derivation) : Prop where
  outputs : ∀ o ∈ drv.outputs.elems, Plain o.1 ∧ o.2.Enabled xp xpSettings ∧
    o.2.Computable store.dirs xp drv.name o.1 ∧ o.2.PathReadable store.dirs xp drv.name o.1
  inputDrvs : ∀ i ∈ drv.inputDrvs.elems, PathReadsBack store i.1 ∧ i.2.PlainNames
  inputSrcs : ∀ p ∈ drv.inputSrcs.elems, PathReadsBack store p
  platform : Plain drv.platform
  env : drv.env.contains envVarName = false
  structuredAttrs : ∀ attrs ∈ drv.structuredAttrs, ∃ text,
    store.codec.dump attrs.toJson = .ok text ∧ parseStructuredAttrs store.codec text = .ok attrs
  dynamicDerivations : drv.hasDynamicDrvDep = true → xpSettings .dynamicDerivations = true

theorem exists_atermEnv {drv : Derivation} (h : drv.Printable store xp xpSettings) :
    ∃ env, drv.atermEnv store = .ok env ∧
      (∀ e ∈ env.elems, e.1 = envVarName →
        ∃ a ∈ drv.structuredAttrs, parseStructuredAttrs store.codec e.2 = .ok a) ∧
      env.elems.foldl (addVariable drv.structuredAttrs) (.empty, none) =
        (drv.env, drv.structuredAttrs) := by
  have hkey : checkKeyNotInUse drv.env = .ok () := by
    rw [checkKeyNotInUse, if_neg (by rw [h.env]; exact Bool.false_ne_true)]
  have hnone : drv.env.find? envVarName = none := by
    rw [← Option.not_isSome_iff_eq_none, ← SortedMap.contains_eq_isSome, h.env]
    exact Bool.false_ne_true
  have hfold : ∀ (env : StringPairs), env.erase envVarName = drv.env →
      (env.elems.filter (·.1 ≠ envVarName)).foldl (fun env e => env.assign e.1 e.2) .empty =
        drv.env := by
    intro env herase
    rw [← herase]
    exact SortedMap.foldl_assign_elems (env.erase envVarName)
  have hnew : envVarName ∉ drv.env.elems.map Prod.fst := SortedMap.find?_eq_none.mp hnone
  cases hattrs : drv.structuredAttrs with
  | none =>
    refine ⟨drv.env, ?_, ?_, ?_⟩
    · simp only [Derivation.atermEnv, hkey, hattrs]
      rfl
    · intro e he hname
      exact absurd (hname ▸ List.mem_map_of_mem he) hnew
    · rw [foldl_addVariable, if_neg hnew, hfold _ (SortedMap.erase_of_find?_eq_none hnone)]
  | some attrs =>
    obtain ⟨text, hdump, hparse⟩ := h.structuredAttrs attrs hattrs
    have hfind : (drv.env.assign envVarName text).find? envVarName = some text :=
      SortedMap.find?_assign_self _ _ _
    refine ⟨drv.env.assign envVarName text, ?_, ?_, ?_⟩
    · simp only [Derivation.atermEnv, hkey, hattrs, hdump, insertPair, h.env]
      rfl
    · intro e he hname
      have heq : (envVarName, e.2) ∈ (drv.env.assign envVarName text).elems := hname ▸ he
      rw [← SortedMap.find?_eq_some, hfind] at heq
      exact ⟨attrs, rfl, Option.some.inj heq ▸ hparse⟩
    · have hmem := List.mem_map_of_mem (f := Prod.fst) (SortedMap.find?_eq_some.mp hfind)
      rw [foldl_addVariable, if_pos hmem, hfold]
      refine SortedMap.ext_find? fun k => ?_
      rw [SortedMap.find?_erase]
      by_cases hk : k = envVarName
      · rw [if_pos hk, hk, hnone]
      · rw [if_neg hk, SortedMap.find?_assign_of_ne (Ne.symm hk)]

theorem reads_parseVersion {drv : Derivation} (h : drv.Printable store xp xpSettings) :
    ∃ text version,
      (if drv.hasDynamicDrvDep then
        str "DrvWithVersion(" ++ printUnquotedString (str "xp-dyn-drv") ++ str ","
      else str "Derive(") = 68 :: text ∧
      Reads (parseVersion xpSettings drv.name) text version ∧
      (version = .traditional → drv.hasDynamicDrvDep = false) := by
  cases hdynamic : drv.hasDynamicDrvDep with
  | false =>
    refine ⟨str "erive(", .traditional, by simp [str], ?_, fun _ => rfl⟩
    exact reads_peek (reads_expect (str "erive(")).bind_pure
  | true =>
    have hplain : Plain (str "xp-dyn-drv") := forall_mem_str (by decide)
    refine ⟨str "rvWithVersion(" ++ (printUnquotedString (str "xp-dyn-drv") ++ ([44] ++ [])),
      .dynamicDerivations, by simp [str], ?_, by rintro ⟨⟩⟩
    refine reads_peek ((reads_expect (str "rvWithVersion(")).bind <|
      (reads_printUnquotedString hplain).bind ?_)
    rw [if_pos rfl]
    exact Reads.fromExcept_bind
      (ExperimentalFeatureSettings.require_eq_ok.mpr (h.dynamicDerivations hdynamic)) <|
      (reads_expectChar 44).bind <| .pure _

theorem reads_outputs {drv : Derivation} (h : drv.Printable store xp xpSettings) :
    ∃ texts, drv.outputs.elems.mapM (unparseOutput store.dirs xp false drv.name) = .ok texts ∧
      Reads (untilEndOfList (parseOutput store xp xpSettings) .empty)
        (commaSeparated texts ++ [93]) drv.outputs := by
  have houtput : ∀ o ∈ drv.outputs.elems, ∃ text,
      unparseOutput store.dirs xp false drv.name o = .ok text ∧ StartsItem text ∧
      ∀ outputs, Reads (parseOutput store xp xpSettings outputs) text
        (emplaceOutput outputs o.1 o.2) := by
    intro o ho
    obtain ⟨hid, henabled, hcomputable, hpath⟩ := h.outputs o ho
    exact reads_parseOutput hid henabled hcomputable hpath
  choose! text htext hstart hreads using houtput
  refine ⟨drv.outputs.elems.map text, ?_, ?_⟩
  · rw [mapM_eq_ok, List.forall₂_map_right_iff]
    exact List.forall₂_same.mpr htext
  · have hlist := reads_untilEndOfList (fun outputs o ho => hreads o ho outputs) hstart .empty
    have hnodup := (strictlySorted_byKey.mp drv.outputs.sorted).nodup
    rwa [foldl_emplaceOutput hnodup fun _ _ => rfl, SortedMap.foldl_assign_elems] at hlist

theorem reads_inputDrvs {drv : Derivation} (h : drv.Printable store xp xpSettings)
    {version : ATermVersion} (hversion : version = .traditional → drv.hasDynamicDrvDep = false) :
    Reads (untilEndOfList (parseInputDrv store version) .empty)
      (commaSeparated (drv.inputDrvs.elems.map fun i => unparseInput (store.dirs.print i.1, i.2)) ++
        [93]) drv.inputDrvs := by
  have hinput : ∀ inputDrvs, ∀ i ∈ drv.inputDrvs.elems,
      Reads (parseInputDrv store version inputDrvs) (unparseInput (store.dirs.print i.1, i.2))
        (inputDrvs.assign i.1 i.2) := by
    intro inputDrvs i hi
    obtain ⟨hpath, hnode⟩ := h.inputDrvs i hi
    refine reads_parseInputDrv hpath hnode (fun hv => ?_) inputDrvs
    have hall := hversion hv
    rw [Derivation.hasDynamicDrvDep, List.any_eq_false] at hall
    simpa using hall i hi
  have hlist := reads_untilEndOfList hinput
    (fun i _ => ⟨40, _, rfl, by decide, by decide⟩) .empty
  rwa [SortedMap.foldl_assign_elems] at hlist

theorem reads_args (args : List Bytes) :
    Reads (untilEndOfList (fun args => do return args ++ [← parseString]) [])
      (commaSeparated (args.map printString) ++ [93]) args := by
  have hlist := @reads_untilEndOfList _ _ (fun args => do return args ++ [← parseString])
    printString (fun args arg => args ++ [arg]) args
    (fun args arg _ => (reads_printString arg).bind_pure)
    (fun arg _ => ⟨34, _, rfl, by decide, by decide⟩) []
  have hpush := foldl_push (fun arg : Bytes => arg) args []
  rw [List.map_id', List.nil_append] at hpush
  rwa [hpush] at hlist

theorem reads_env {drv : Derivation} (h : drv.Printable store xp xpSettings) :
    ∃ env, drv.atermEnv store = .ok env ∧
      Reads (untilEndOfList (parseVariable store) (.empty, none))
        (commaSeparated (env.elems.map unparseVariable) ++ [93])
        (drv.env, drv.structuredAttrs) := by
  obtain ⟨env, henv, hvariables, hread⟩ := exists_atermEnv h
  have hlist := @reads_untilEndOfList _ _ (parseVariable store) unparseVariable
    (addVariable drv.structuredAttrs) env.elems
    (fun acc e he => reads_parseVariable (hvariables e he) acc)
    (fun e _ => ⟨40, _, rfl, by decide, by decide⟩) (.empty, none)
  rw [hread] at hlist
  exact ⟨env, henv, hlist⟩

theorem parseDerivation_of_reads {drv : Derivation} {name text : Bytes}
    (h : Reads (parseDerivationFrom store xp xpSettings name) text drv) (rest : Bytes) :
    parseDerivation store xp xpSettings (text ++ rest) name = .ok drv := by
  rw [parseDerivation, h rest]
  rfl

theorem parseDerivation_unparse {drv : Derivation} (h : drv.Printable store xp xpSettings) :
    ∃ text, drv.unparse store xp false none = .ok text ∧
      ∀ rest, parseDerivation store xp xpSettings (text ++ rest) drv.name = .ok drv := by
  obtain ⟨vtext, version, hvtext, hversion, hleaf⟩ := reads_parseVersion h
  obtain ⟨outputs, houtputs, hreadOutputs⟩ := reads_outputs h
  obtain ⟨env, henv, hreadEnv⟩ := reads_env h
  obtain ⟨paths, hreadSrcs, hinputSrcs⟩ := reads_inputSrcs h.inputSrcs
  have hreadDrvs := reads_inputDrvs h hleaf
  have hmask : env.elems.map (Derivation.maskVariable false drv.outputs) = env.elems := by
    refine (List.map_congr_left fun e _ => ?_).trans (List.map_id _)
    rw [Derivation.maskVariable, if_neg (by simp)]
    rfl
  have hreads : Reads (parseDerivationFrom store xp xpSettings drv.name)
      ([68] ++ (vtext ++ ([91] ++ ((commaSeparated outputs ++ [93]) ++ (str ",[" ++
        ((commaSeparated (drv.inputDrvs.elems.map
          fun i => unparseInput (store.dirs.print i.1, i.2)) ++ [93]) ++ ([44] ++
        (printUnquotedStrings
          (SortedSet.ofList (drv.inputSrcs.elems.map store.dirs.print) : StringSet).elems ++
        ([44] ++ (printUnquotedString drv.platform ++ ([44] ++ (printString drv.builder ++
        (str ",[" ++ ((commaSeparated (drv.args.map printString) ++ [93]) ++ (str ",[" ++
        ((commaSeparated (env.elems.map unparseVariable) ++ [93]) ++
        ([41] ++ []))))))))))))))))) drv :=
    (reads_expectChar 68).bind <| hversion.bind <| (reads_expectChar 91).bind <|
      hreadOutputs.bind <| (reads_expect (str ",[")).bind <| hreadDrvs.bind <|
      (reads_expectChar 44).bind <| hreadSrcs.bind <| Reads.fromExcept_bind hinputSrcs <|
      (reads_expectChar 44).bind <| (reads_printUnquotedString h.platform).bind <|
      (reads_expectChar 44).bind <| (reads_printString drv.builder).bind <|
      (reads_expect (str ",[")).bind <| (reads_args drv.args).bind <|
      (reads_expect (str ",[")).bind <| hreadEnv.bind <| (reads_expectChar 41).bind <|
      Reads.pure drv
  refine ⟨_, ?_, parseDerivation_of_reads hreads⟩
  simp only [Derivation.unparse, Derivation.unparseHead, hvtext, houtputs, henv, hmask, bind,
    Except.bind, pure, Except.pure]
  simp [printStrings, str]

end Parts

theorem parseDerivation_unparse_usesNested :
    ∃ text, usesNested.unparse depStore (fun _ => true) false none = .ok text ∧
      ∀ rest, parseDerivation depStore (fun _ => true) (fun _ => true) (text ++ rest)
        usesNested.name = .ok usesNested := by
  have hname : ∀ outputName ∈ [str "out"], Plain outputName := by
    intro outputName hin
    obtain rfl := List.mem_singleton.mp hin
    exact forall_mem_str (by decide)
  have hleaf : (ChildNode.leaf (.ofList [str "out"])).PlainNames :=
    .mk hname (List.forall_mem_nil _) fun i => i.elim0
  have hmethod : MethodAlgoEnabled (fun _ => true) (fun _ => true) .nixArchive .sha256 :=
    ⟨fun _ => rfl, fun _ => rfl, fun _ => rfl⟩
  refine parseDerivation_unparse ⟨?_, ?_, List.forall_mem_nil _, forall_mem_str (by decide), rfl,
    fun _ hattrs => absurd hattrs (by simp [usesNested, user]), fun _ => rfl⟩
  · intro o ho
    obtain rfl := List.mem_singleton.mp ho
    exact ⟨hname _ (List.mem_singleton_self _), ⟨hmethod, rfl⟩, trivial, trivial⟩
  · intro i hi
    obtain rfl := List.mem_singleton.mp hi
    exact ⟨⟨forall_mem_of_all (by decide +kernel), by decide +kernel⟩,
      .mk (List.forall_mem_nil _) hname fun _ => hleaf⟩

end Nix.Store.Derivations
