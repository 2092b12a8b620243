import Nix.Lib.SortedMaps
import Nix.Store.Fingerprints
import Nix.Util.JsonValues

set_option linter.dupNamespace false

namespace Nix.Store.Derivations

open Util.Types Util.Hashes Util.BaseN Util.JsonValues Lib.SortedList Lib.PrefixReader Lib.Results
  Store.Path Store.PathInfo Store.ContentAddresses Store.StoreDirs Store.ATerms
  Store.DerivationOutputs

/-- `DerivedPathMap<StringSet>::ChildNode`. The child map has the given keys. -/
inductive ChildNode
  | mk (value : StringSet) (keys : StringSet) (child : Fin keys.elems.length → ChildNode)

namespace ChildNode

def leaf (value : StringSet) : ChildNode :=
  .mk value .empty fun i => absurd i.isLt (Nat.not_lt_zero _)

def value : ChildNode → StringSet
  | .mk value _ _ => value

/-- `childMap.empty()`. -/
def isLeaf : ChildNode → Bool
  | .mk _ keys _ => keys.elems.isEmpty

/-- `ChildNode::Map`. -/
abbrev Map := SortedMap (compare : Bytes → Bytes → Ordering) ChildNode

end ChildNode

/-- The map of a `DerivedPathMap<StringSet>`. -/
abbrev InputDrvs := SortedMap StorePath.cmp ChildNode

abbrev Outputs := SortedMap (compare : Bytes → Bytes → Ordering) DerivationOutput

abbrev StringPairs := SortedMap (compare : Bytes → Bytes → Ordering) Bytes

structure Derivation where
  outputs : Outputs
  inputSrcs : StorePathSet
  platform : Bytes
  builder : Bytes
  args : List Bytes
  env : StringPairs
  structuredAttrs : Option JsonObject
  name : Bytes
  inputDrvs : InputDrvs

inductive DerivationType
  | inputAddressed (deferred : Bool)
  | contentAddressed (sandboxed isFixed : Bool)
  | impure
  deriving DecidableEq

def simpleError (format : String) (args : List Bytes := []) : Error :=
  ⟨.error, ⟨format, args⟩⟩

/-- The lambda of `BasicDerivation::type`. -/
def decideType (newTy : DerivationType) : Option DerivationType → Except Error DerivationType
  | none => .ok newTy
  | some ty =>
      if ty ≠ newTy then .error (simpleError "can't mix derivation output types")
      else if ty = .contentAddressed false true then
        .error (simpleError "only one fixed output is allowed for now")
      else .ok ty

/-- The two variables of `BasicDerivation::type`. -/
structure TypeSoFar where
  floatingHashAlgo : Option HashAlgorithm
  ty : Option DerivationType

def typeStep (s : TypeSoFar) (i : Bytes × DerivationOutput) : Except Error TypeSoFar :=
  match i.2 with
  | .inputAddressed _ => do
      let ty ← decideType (.inputAddressed false) s.ty
      return { s with ty := some ty }
  | .caFixed _ => do
      let ty ← decideType (.contentAddressed false true) s.ty
      if i.1 ≠ str "out" then
        .error (simpleError "single fixed output must be named \"out\"")
      else .ok { s with ty := some ty }
  | .caFloating _ hashAlgo => do
      let ty ← decideType (.contentAddressed true false) s.ty
      match s.floatingHashAlgo with
      | none => .ok ⟨some hashAlgo, some ty⟩
      | some algo =>
          if algo ≠ hashAlgo then
            .error (simpleError "all floating outputs must use the same hash algorithm")
          else .ok { s with ty := some ty }
  | .deferred => do
      let ty ← decideType (.inputAddressed true) s.ty
      return { s with ty := some ty }
  | .impure _ _ => do
      let ty ← decideType .impure s.ty
      return { s with ty := some ty }

def Derivation.type (drv : Derivation) : Except Error DerivationType := do
  let s ← drv.outputs.elems.foldlM typeStep ⟨none, none⟩
  match s.ty with
  | none => .error (simpleError "must have at least one output")
  | some ty => .ok ty

/-- `unparseDerivedPathMapNode`. -/
def unparseNode : ChildNode → Bytes
  | .mk value keys child =>
      if keys.elems = [] then 44 :: printUnquotedStrings value.elems
      else 44 :: 40 :: printUnquotedStrings value.elems ++ str ",[" ++
        commaSeparated (List.ofFn fun i =>
          40 :: printUnquotedString (keys.elems.get i) ++ unparseNode (child i) ++ [41]) ++
        str "])"

/-- An input: what stands for the derivation, and the outputs of it that are used. -/
def unparseInput (i : Bytes × ChildNode) : Bytes :=
  40 :: printUnquotedString i.1 ++ unparseNode i.2 ++ [41]

def envVarName : Bytes := str "__json"

/-- `StructuredAttrs::checkKeyNotInUse`. -/
def checkKeyNotInUse (env : StringPairs) : Except Error Unit :=
  if env.contains envVarName then
    .error (simpleError
      "Cannot have an environment variable named '__json'. This key is reserved for encoding structured attrs")
  else .ok ()

/-- `map::insert`, which keeps what the key has. -/
def insertPair (m : StringPairs) (e : Bytes × Bytes) : StringPairs :=
  if m.contains e.1 then m else m.assign e.1 e.2

def unparseVariable (e : Bytes × Bytes) : Bytes :=
  40 :: printString e.1 ++ 44 :: printString e.2 ++ [41]

/-- What the functions below use of a `Store`. -/
structure DerivationStore where
  dirs : StoreDirConfig
  codec : JsonCodec
  readInvalidDerivation : StorePath → Except Error Derivation

namespace Derivation

def hasDynamicDrvDep (drv : Derivation) : Bool :=
  drv.inputDrvs.elems.any fun kv => !kv.2.isLeaf

section

variable (store : DerivationStore) (xp : ExperimentalFeatureSettings)

/-- The environment, with the structured attributes as one of its variables. -/
def atermEnv (drv : Derivation) : Except Error StringPairs := do
  checkKeyNotInUse drv.env
  match drv.structuredAttrs with
  | none => .ok drv.env
  | some attrs => do
      let text ← store.codec.dump attrs.toJson
      return insertPair drv.env (envVarName, text)

def maskVariable (maskOutputs : Bool) (outputs : Outputs) (e : Bytes × Bytes) : Bytes × Bytes :=
  (e.1, if maskOutputs ∧ outputs.contains e.1 then [] else e.2)

def unparseHead (drv : Derivation) (outputs inputs : List Bytes) : Bytes :=
  (if drv.hasDynamicDrvDep then
      str "DrvWithVersion(" ++ printUnquotedString (str "xp-dyn-drv") ++ str ","
    else str "Derive(") ++
    str "[" ++ commaSeparated outputs ++ str "],[" ++ commaSeparated inputs ++ str "]," ++
    printUnquotedStrings
      (SortedSet.ofList (drv.inputSrcs.elems.map store.dirs.print) : StringSet).elems ++
    str "," ++ printUnquotedString drv.platform ++
    str "," ++ printString drv.builder ++
    str "," ++ printStrings drv.args ++ str ",["

def unparse (drv : Derivation) (maskOutputs : Bool) (actualInputs : Option ChildNode.Map) :
    Except Error Bytes := do
  let outputs ← drv.outputs.elems.mapM (unparseOutput store.dirs xp maskOutputs drv.name)
  let inputs := match actualInputs with
    | some inputs => inputs.elems.map unparseInput
    | none => drv.inputDrvs.elems.map fun i => unparseInput (store.dirs.print i.1, i.2)
  let env ← drv.atermEnv store
  return drv.unparseHead store outputs inputs ++
    commaSeparated ((env.elems.map (maskVariable maskOutputs drv.outputs)).map unparseVariable) ++
    str "])"

end

end Derivation

inductive DrvHashModulo
  | drvHash (hash : Hash)
  | caOutputHashes (hashes : SortedMap (compare : Bytes → Bytes → Ordering) Hash)
  | deferredDrv
  deriving DecidableEq

/-- The cache of `pathDerivationModulo`. -/
abbrev DrvHashes := SortedMap StorePath.cmp DrvHashModulo

/-- Computations that use the cache. -/
abbrev Hashing := Reader DrvHashes Error

section

variable (store : DerivationStore) (xp : ExperimentalFeatureSettings)

def outputHash (drvName : Bytes) (i : Bytes × DerivationOutput) : Except Error (Bytes × Hash) :=
  match i.2 with
  | .caFixed ca => do
      let methodAlgo ← printMethodAlgo xp ca.method ca.hash.algo
      let path ← caFixedPath store.dirs xp ca drvName i.1
      return (i.1, store.dirs.hashString (str "fixed:out:" ++ methodAlgo ++ str ":" ++
        ca.hash.toBase16 false ++ str ":" ++ store.dirs.print path))
  | _ => .error (.assertion "std::get")

/-- What an input with known outputs adds to the inputs. -/
def insertOutputHashes (drvName : Bytes)
    (hashes : SortedMap (compare : Bytes → Bytes → Ordering) Hash) (inputs2 : ChildNode.Map)
    (outputName : Bytes) : Except Error ChildNode.Map :=
  match hashes.find? outputName with
  | none => .error (simpleError "no hash for output '%s' of derivation '%s'" [outputName, drvName])
  | some h => .ok (inputs2.assign (h.toBase16 false) (.leaf (.ofList [str "out"])))

variable (pathDerivationModulo : StorePath → Hashing DrvHashModulo)

/-- The loop over the inputs. There is no result if an input is deferred. -/
def hashInputs (drvName : Bytes) :
    List (StorePath × ChildNode) → ChildNode.Map → Hashing (Option ChildNode.Map)
  | [], inputs2 => pure (some inputs2)
  | (drvPath, node) :: rest, inputs2 =>
      if !node.isLeaf then pure none
      else do
        match ← pathDerivationModulo drvPath with
        | .deferredDrv => pure none
        | .drvHash h => hashInputs drvName rest (inputs2.assign (h.toBase16 false) node)
        | .caOutputHashes hashes => do
            let inputs2 ← fromExcept (node.value.elems.foldlM (insertOutputHashes drvName hashes) inputs2)
            hashInputs drvName rest inputs2

def hashDerivationModulo (drv : Derivation) (maskOutputs : Bool) : Hashing DrvHashModulo := do
  match ← fromExcept drv.type with
  | .contentAddressed _ true => do
      let hashes ← fromExcept (drv.outputs.elems.mapM (outputHash store xp drv.name))
      return .caOutputHashes (SortedMap.ofList hashes)
  | .contentAddressed _ false => pure .deferredDrv
  | .impure => pure .deferredDrv
  | .inputAddressed _ => do
      match ← hashInputs pathDerivationModulo drv.name drv.inputDrvs.elems .empty with
      | none => pure .deferredDrv
      | some inputs2 => do
          let text ← fromExcept (drv.unparse store xp maskOutputs (some inputs2))
          return .drvHash (store.dirs.hashString text)

end

section

variable (store : DerivationStore) (xp : ExperimentalFeatureSettings)

/-- Look a hash up, and compute and store it if it is not there. -/
def cached (drvPath : StorePath) (compute : Hashing DrvHashModulo) : Hashing DrvHashModulo :=
  fun drvHashes =>
    match drvHashes.find? drvPath with
    | some h => .ok (h, drvHashes)
    | none => do
        let (h, drvHashes) ← compute drvHashes
        return (h, drvHashes.assign drvPath h)

/-- `pathDerivationModulo`, which looks at most `depth` derivations deep. -/
def pathDerivationModulo : Nat → StorePath → Hashing DrvHashModulo
  | 0, drvPath => cached drvPath (throw .diverges)
  | depth + 1, drvPath => cached drvPath do
      let drv ← fromExcept (store.readInvalidDerivation drvPath)
      hashDerivationModulo store xp (pathDerivationModulo depth) drv false

end

end Nix.Store.Derivations
