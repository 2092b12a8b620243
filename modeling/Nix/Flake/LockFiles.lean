import Nix.Flake.FlakeRefs

set_option linter.dupNamespace false

namespace Nix.Flake.LockFiles

open Util.Types Util.JsonValues Lib.SortedList Lib.Table Flake.FlakeRefs

abbrev FlakeId := Bytes

abbrev InputAttrPath := List FlakeId

variable {ι : Type}

/-- `Node::Edge`, where `ι` is the type of the references to locked nodes. -/
inductive Edge (ι : Type)
  | node (child : ι)
  | follows (path : InputAttrPath)

abbrev Inputs (ι : Type) := SortedMap (compare : FlakeId → FlakeId → Ordering) (Edge ι)

structure LockedNode (ι : Type) where
  inputs : Inputs ι := .empty
  lockedRef : FlakeRef
  originalRef : FlakeRef
  isFlake : Bool := true
  parentInputAttrPath : Option InputAttrPath := none

structure LockFile (ι : Type) where
  /-- The inputs of the root, the only node that is not a locked node. -/
  root : Inputs ι := .empty
  /-- The locked nodes in memory. -/
  nodes : List (ι × LockedNode ι) := []

section Heap

variable [DecidableEq ι] (lf : LockFile ι)

def LockFile.deref (i : ι) : Option (LockedNode ι) :=
  (select Prod.fst lf.nodes i).map Prod.snd

/-- The inputs of a node, which is the root or a locked node. -/
def LockFile.inputsOf : Option ι → Option (Inputs ι)
  | none => some lf.root
  | some i => (lf.deref i).map LockedNode.inputs

/-- Every reference points to a node. -/
structure LockFile.Closed : Prop where
  root : ∀ name i, (name, Edge.node i) ∈ lf.root.elems → (lf.deref i).isSome
  node : ∀ e ∈ lf.nodes, ∀ name i, (name, Edge.node i) ∈ e.2.inputs.elems → (lf.deref i).isSome

end Heap

structure DumpState (ι : Type) where
  nodes : Members := .empty
  nodeKeys : List (Option ι × Bytes) := []
  keys : List Bytes := []

def DumpState.keyOf [DecidableEq ι] (s : DumpState ι) (node : Option ι) : Option Bytes :=
  (select Prod.fst s.nodeKeys node).map Prod.snd

def numbered (key : Bytes) (n : Nat) : Bytes :=
  key ++ str "_" ++ decimal n

/-- The loop over `n`. -/
def nextKey (keys : List Bytes) (key : Bytes) : Nat → Nat → Except Error Bytes
  | 0, _ => .error .diverges
  | fuel + 1, n =>
      if numbered key n ∈ keys then nextKey keys key fuel (n + 1) else .ok (numbered key n)

def uniqueKey (keys : List Bytes) (key : Bytes) : Except Error Bytes :=
  if key ∈ keys then nextKey keys key (keys.length + 1) 2 else .ok key

/-- The loop over the inputs of a node, which dumps the children. -/
def dumpInputs (dumpNode : Bytes → ι → DumpState ι → Except Error (Bytes × DumpState ι)) :
    List (FlakeId × Edge ι) → DumpState ι → Except Error (List (FlakeId × Json) × DumpState ι)
  | [], s => .ok ([], s)
  | (name, .node child) :: rest, s => do
      let (key, s) ← dumpNode name child s
      let (inputs, s) ← dumpInputs dumpNode rest s
      return ((name, .string key) :: inputs, s)
  | (name, .follows path) :: rest, s => do
      let (inputs, s) ← dumpInputs dumpNode rest s
      return ((name, .ofElements (path.map .string)) :: inputs, s)

def inputsJson (inputs : List (FlakeId × Json)) : Members :=
  if inputs = [] then .empty
  else SortedMap.assign .empty (str "inputs") (.ofMembers (.ofList inputs))

def eraseMember (j : Json) (k : Bytes) : Except Error Json :=
  match j.members? with
  | some m => .ok (.ofMembers (m.erase k))
  | none => .error ⟨.jsonException, ⟨"cannot use erase() with this type", []⟩⟩

variable (schemes : InputSchemes)

def LockedNode.toJSON (node : LockedNode ι) (n : Members) : Except Error Members := do
  let n := n.assign (str "original") (attrsToJSON node.originalRef.toAttrs)
  let isFinal ← node.lockedRef.isFinal
  if !(isFinal || schemes.isRelative node.lockedRef.attrs) then
    .error (.assertion
      "lockedNode->lockedRef.input.isFinal() || lockedNode->lockedRef.input.isRelative()")
  else do
    let locked ← eraseMember (attrsToJSON node.lockedRef.toAttrs) finalAttr
    let n := n.assign (str "locked") locked
    let n := if node.isFlake then n else n.assign (str "flake") (.boolean false)
    return match node.parentInputAttrPath with
      | none => n
      | some path => n.assign (str "parent") (.ofElements (path.map .string))

def LockFile.nodeJSON [DecidableEq ι] (lf : LockFile ι) (node : Option ι)
    (inputs : List (FlakeId × Json)) : Except Error Members :=
  match node.bind lf.deref with
  | none => .ok (inputsJson inputs)
  | some locked => locked.toJSON schemes (inputsJson inputs)

def dangling : Error := ⟨.error, ⟨"dangling reference", []⟩⟩

def LockFile.dumpNode [DecidableEq ι] (lf : LockFile ι) :
    Nat → Bytes → Option ι → DumpState ι → Except Error (Bytes × DumpState ι)
  | 0, _, _, _ => .error .diverges
  | fuel + 1, key, node, s =>
      match s.keyOf node with
      | some k => .ok (k, s)
      | none => do
          let key ← uniqueKey s.keys key
          let s := { s with keys := key :: s.keys, nodeKeys := (node, key) :: s.nodeKeys }
          match lf.inputsOf node with
          | none => .error dangling
          | some inputs => do
              let (inputs, s) ← dumpInputs (fun name child => lf.dumpNode fuel name (some child))
                inputs.elems s
              let n ← lf.nodeJSON schemes node inputs
              return (key, { s with nodes := s.nodes.assign key (.ofMembers n) })

def LockFile.toJSON [DecidableEq ι] (lf : LockFile ι) :
    Except Error (Json × List (Option ι × Bytes)) := do
  let (root, s) ← lf.dumpNode schemes (lf.nodes.length + 2) (str "root") none {}
  let json : Members := .empty
  let json := json.assign (str "version") (.numberUnsigned 7)
  let json := json.assign (str "root") (.string root)
  let json := json.assign (str "nodes") (.ofMembers s.nodes)
  return (.ofMembers json, s.nodeKeys)

def LockFile.toString [DecidableEq ι] (codec : JsonCodec) (lf : LockFile ι) :
    Except Error (Bytes × List (Option ι × Bytes)) := do
  let (json, nodeKeys) ← lf.toJSON schemes
  return (← codec.dump json, nodeKeys)

def jsonException (what : String) : Error := ⟨.jsonException, ⟨what, []⟩⟩

def toInt32 (cast : FloatCast) : Json → Except Error Int32
  | .numberInteger n => .ok (Int32.ofInt n)
  | .numberUnsigned n => .ok n.toUInt32.toInt32
  | .numberFloat bits => .ok (cast.toInt32 bits)
  | .boolean b => .ok (if b then 1 else 0)
  | _ => .error (jsonException "type must be number")

def toStdString : Json → Except Error Bytes
  | .string s => .ok s
  | _ => .error (jsonException "type must be string")

def toBool : Json → Except Error Bool
  | .boolean b => .ok b
  | _ => .error (jsonException "type must be boolean")

def toStrings : List Json → Except Error (List Bytes)
  | [] => .ok []
  | j :: rest => do
      let s ← toStdString j
      let l ← toStrings rest
      return s :: l

def toInputAttrPath (j : Json) : Except Error InputAttrPath :=
  match j.elements? with
  | some l => toStrings l
  | none => .error (jsonException "type must be array")

def overrideAttrs (attrs : Attrs) (l : List (Bytes × Attr)) : Attrs :=
  l.foldl (fun attrs e => attrs.assign e.1 e.2) attrs

def getFlakeRef (json : Json) (attr : Bytes) (info : Option Bytes) : Except Error FlakeRef :=
  match json.find? attr with
  | none => .error ⟨.error, ⟨"attribute '%s' missing in lock file", [attr]⟩⟩
  | some i => do
      let attrs ← jsonToAttrs schemes.cast i
      match info.bind json.find? with
      | none => FlakeRef.fromAttrs schemes attrs
      | some j => do
          let more ← jsonToAttrs schemes.cast j
          FlakeRef.fromAttrs schemes (overrideAttrs attrs more.elems)

/-- What an entry of the lock file says about a reference that is not locked. -/
def checkLocked (lockedRef : FlakeRef) : Except Error Unit :=
  if schemes.isLocked lockedRef.attrs || schemes.isRelative lockedRef.attrs then .ok ()
  else if schemes.hasNarHash lockedRef.attrs then .ok ()
  else .error ⟨.error, ⟨"Lock file contains unlocked input '%s'. " ++
    "Use '--allow-dirty-locks' to accept this lock file.", []⟩⟩

/-- The constructor of `LockedNode` from JSON, which leaves the inputs empty. -/
def LockedNode.ofJSON (json : Json) : Except Error (LockedNode Bytes) := do
  let lockedRef ← getFlakeRef schemes json (str "locked") (some (str "info"))
  let originalRef ← getFlakeRef schemes json (str "original") none
  let isFlake ← match json.find? (str "flake") with
    | none => .ok true
    | some j => toBool j
  let parentInputAttrPath ← match json.find? (str "parent") with
    | none => .ok none
    | some j => (toInputAttrPath j).map some
  checkLocked schemes lockedRef
  if lockedRef.attrs.contains finalAttr then
    .error (.assertion "!lockedRef.input.attrs.contains(\"__final\")")
  else return { lockedRef := lockedRef.markFinal, originalRef, isFlake, parentInputAttrPath }

/-- The nodes read so far by their keys. The root is `none`. -/
abbrev NodeMap := SortedMap (compare : Bytes → Bytes → Ordering) (Option (LockedNode Bytes))

/-- The loop over the inputs of a node, which reads the children. -/
def readInputs (readNode : Bytes → NodeMap → Except Error NodeMap) :
    List (FlakeId × Json) → Inputs Bytes → NodeMap → Except Error (Inputs Bytes × NodeMap)
  | [], inputs, nodeMap => .ok (inputs, nodeMap)
  | (name, value) :: rest, inputs, nodeMap =>
      match value.elements? with
      | some l => do
          let path ← toStrings l
          readInputs readNode rest (inputs.assign name (.follows path)) nodeMap
      | none => do
          let inputKey ← toStdString value
          let nodeMap ←
            if (nodeMap.find? inputKey).isSome then .ok nodeMap else readNode inputKey nodeMap
          match nodeMap.find? inputKey with
          | some (some _) => readInputs readNode rest (inputs.assign name (.node inputKey)) nodeMap
          | _ => .error ⟨.error, ⟨"lock file contains cycle to root node", []⟩⟩

def getInputs (nodes : Json) :
    Nat → Json → NodeMap → Except Error (Inputs Bytes × NodeMap)
  | 0, _, _ => .error .diverges
  | fuel + 1, jsonNode, nodeMap =>
      match jsonNode.find? (str "inputs") with
      | none => .ok (.empty, nodeMap)
      | some inputs =>
          readInputs (fun inputKey nodeMap =>
            match nodes.find? inputKey with
            | none => .error ⟨.error, ⟨"lock file references missing node '%s'", [inputKey]⟩⟩
            | some jsonNode2 => do
                let input ← LockedNode.ofJSON schemes jsonNode2
                let (inputs, nodeMap) ← getInputs nodes fuel jsonNode2
                  (nodeMap.assign inputKey (some input))
                return nodeMap.assign inputKey (some { input with inputs }))
            (items inputs) .empty nodeMap

/-- `json[key]`, which adds a missing member as `null`. -/
def subscript (json : Json) (key : Bytes) : Except Error Json :=
  match json with
  | .null => .ok .null
  | json =>
      match json.members? with
      | some m => .ok ((m.find? key).getD .null)
      | none => .error (jsonException "cannot use operator[] with a string argument")

def NodeMap.locked (nodeMap : NodeMap) : List (Bytes × LockedNode Bytes) :=
  nodeMap.elems.filterMap fun e => e.2.map (e.1, ·)

def LockFile.ofJSON (json : Json) (path : Bytes) : Except Error (LockFile Bytes) := do
  let version ← match json.members?.map (SortedMap.find? · (str "version")) with
    | none => .error (jsonException "cannot use value() with this type")
    | some none => .ok 0
    | some (some j) => toInt32 schemes.cast j
  if version < 5 || version > 7 then
    .error ⟨.error, ⟨"lock file '%s' has unsupported version %d", [path]⟩⟩
  else do
    let rootKey ← toStdString (← subscript json (str "root"))
    let nodes ← subscript json (str "nodes")
    let jsonNode ← subscript nodes rootKey
    let size := (nodes.members?.map (·.elems.length)).getD 0
    let (root, nodeMap) ← getInputs schemes nodes (size + 1) jsonNode
      (SortedMap.assign .empty rootKey none)
    return { root, nodes := nodeMap.locked }

def LockFile.ofString (codec : JsonCodec) (contents path : Bytes) :
    Except Error (LockFile Bytes) :=
  match codec.parse contents with
  | .error e => .error ⟨.error, ⟨"Could not parse '%s': %s", [path, str e.msg.format]⟩⟩
  | .ok json => LockFile.ofJSON schemes json path

end Nix.Flake.LockFiles
