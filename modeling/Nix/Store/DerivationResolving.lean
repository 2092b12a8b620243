import Nix.Store.DerivedPaths
import Nix.Store.OutputPaths
import Nix.Util.Rewrite

set_option linter.dupNamespace false

namespace Nix.Store.DerivationResolving

open Util.Types Util.Hashes
open Nix.Util
open Util.BaseN Util.JsonValues
open Nix.Lib
open Lib.SortedList
open Lib.PrefixReader hiding bind_eq_ok pure_eq_ok
open Lib.Results hiding pure_eq_ok
open Store.Path Store.PathInfo Store.ContentAddresses Store.StoreDirs Store.DerivationOutputs
  Store.DerivedPaths Store.Derivations Store.OutputPaths

/-- `DownstreamPlaceholder`. -/
structure DownstreamPlaceholder where
  hash : Hash

namespace DownstreamPlaceholder

def render (placeholder : DownstreamPlaceholder) : Bytes :=
  str "/" ++ BaseNix32.encode placeholder.hash.bytes

/-- `substr(0, size() - 4)`, which is the whole name if that is negative. -/
def dropExtension (name : Bytes) : Bytes :=
  if name.length < 4 then name else name.take (name.length - 4)

section

variable (dirs : StoreDirConfig) (xp : ExperimentalFeatureSettings)

def ofOutput (drvPath : StorePath) (outputName : Bytes) : DownstreamPlaceholder :=
  ⟨dirs.hashString (str "nix-upstream-output:" ++ drvPath.hashPart ++ str ":" ++
    outputPathName (dropExtension drvPath.name) outputName)⟩

def unknownCaOutput (drvPath : StorePath) (outputName : Bytes) :
    Except Error DownstreamPlaceholder := do
  xp.require .caDerivations
  return ofOutput dirs drvPath outputName

def ofPlaceholder (placeholder : DownstreamPlaceholder) (outputName : Bytes) :
    DownstreamPlaceholder :=
  ⟨dirs.hashString (str "nix-computed-output:" ++
    BaseNix32.encode (StoreDirConfig.compressHash placeholder.hash.bytes 20) ++ str ":" ++
    outputName)⟩

def unknownDerivation (placeholder : DownstreamPlaceholder) (outputName : Bytes) :
    Except Error DownstreamPlaceholder := do
  xp.require .dynamicDerivations
    (str "placeholder for unknown derivation output '" ++ outputName ++ str "'")
  return ofPlaceholder dirs placeholder outputName

/-- `fromSingleDerivedPathBuilt`, of the output of a path. -/
def fromSingleDerivedPathBuilt : SingleDerivedPath → Bytes → Except Error DownstreamPlaceholder
  | .opaquePath path, output => unknownCaOutput dirs xp path output
  | .built drvPath output', output => do
      let placeholder ← fromSingleDerivedPathBuilt drvPath output'
      unknownDerivation dirs xp placeholder output

end

end DownstreamPlaceholder

/-- `rewriteStrings`, without matches. -/
def rewriteString (rewrites : StringPairs) (s : Bytes) : Except Error Bytes :=
  (Rewrite.rewriteStrings s rewrites.elems [] 0).map Prod.fst

/-- `StructuredAttrs::parse`. -/
def parseStructuredAttrs (codec : JsonCodec) (encoded : Bytes) : Except Error JsonObject :=
  match codec.parse encoded with
  | .ok (.object keys member) => .ok ⟨keys, member⟩
  | .ok _ => .error (simpleError "cannot process %s attribute: %s" [envVarName])
  | .error e => .error ⟨.error,
      ⟨"cannot process %s attribute: " ++ e.msg.format, envVarName :: e.msg.args⟩⟩

def rewriteVariable (rewrites : StringPairs) (newEnv : StringPairs) (envVar : Bytes × Bytes) :
    Except Error StringPairs := do
  let envName ← rewriteString rewrites envVar.1
  let envValue ← rewriteString rewrites envVar.2
  return insertPair newEnv (envName, envValue)

def rewriteStructuredAttrs (codec : JsonCodec) (rewrites : StringPairs) :
    Option JsonObject → Except Error (Option JsonObject)
  | none => .ok none
  | some attrs => do
      let text ← codec.dump attrs.toJson
      let text ← rewriteString rewrites text
      let attrs ← parseStructuredAttrs codec text
      return some attrs

def applyRewrites (codec : JsonCodec) (rewrites : StringPairs) (drv : Derivation) :
    Except Error Derivation :=
  if rewrites.elems = [] then .ok drv
  else do
    let builder ← rewriteString rewrites drv.builder
    let args ← drv.args.mapM (rewriteString rewrites)
    let env ← drv.env.elems.foldlM (rewriteVariable rewrites) .empty
    let structuredAttrs ← rewriteStructuredAttrs codec rewrites drv.structuredAttrs
    return { drv with builder, args, env, structuredAttrs }

/-- The variables that `tryResolveInput` changes. -/
structure Resolution where
  inputSrcs : StorePathSet
  inputRewrites : StringPairs

/-- Visit the children of a node, until one of them cannot be resolved. -/
def visitChildren {n : Nat} (visit : Fin n → Resolution → Except Error (Option Resolution)) :
    List (Fin n) → Resolution → Except Error (Option Resolution)
  | [], s => .ok (some s)
  | i :: is, s => do
      match ← visit i s with
      | none => return none
      | some s => visitChildren visit is s

section

variable (dirs : StoreDirConfig) (xp : ExperimentalFeatureSettings)
  (queryResolutionChain : SingleDerivedPath → Bytes → Option StorePath)

/-- The lambda `getPlaceholder`. -/
def getPlaceholder (placeholderOpt : Option DownstreamPlaceholder) (drvPath : SingleDerivedPath)
    (outputName : Bytes) : Except Error DownstreamPlaceholder :=
  match placeholderOpt with
  | some placeholder => DownstreamPlaceholder.unknownDerivation dirs xp placeholder outputName
  | none =>
      match drvPath with
      | .opaquePath path => DownstreamPlaceholder.unknownCaOutput dirs xp path outputName
      | .built _ _ => .error (.assertion "p")

def resolveOutputs (placeholderOpt : Option DownstreamPlaceholder) (drvPath : SingleDerivedPath) :
    List Bytes → Resolution → Except Error (Option Resolution)
  | [], s => .ok (some s)
  | outputName :: outputNames, s =>
      match queryResolutionChain drvPath outputName with
      | none => .ok none
      | some actualPath => do
          let inputRewrites ←
            if xp .caDerivations then do
              let placeholder ← getPlaceholder dirs xp placeholderOpt drvPath outputName
              pure (insertPair s.inputRewrites (placeholder.render, dirs.print actualPath))
            else pure s.inputRewrites
          resolveOutputs placeholderOpt drvPath outputNames
            ⟨s.inputSrcs.insert actualPath, inputRewrites⟩

def tryResolveInput : ChildNode → Option DownstreamPlaceholder → SingleDerivedPath → Resolution →
    Except Error (Option Resolution)
  | .mk value keys child, placeholderOpt, drvPath, s => do
      match ← resolveOutputs dirs xp queryResolutionChain placeholderOpt drvPath value.elems s with
      | none => return none
      | some s =>
          visitChildren (fun i s => do
            let outputName := keys.elems.get i
            let nextPlaceholder ← getPlaceholder dirs xp placeholderOpt drvPath outputName
            tryResolveInput (child i) (some nextPlaceholder) (.built drvPath outputName) s)
            (List.finRange keys.elems.length) s

/-- The loop of `tryResolve`. -/
def tryResolveInputs : List (StorePath × ChildNode) → Resolution →
    Except Error (Option Resolution)
  | [], s => .ok (some s)
  | (inputDrv, inputNode) :: inputs, s => do
      match ← tryResolveInput dirs xp queryResolutionChain inputNode none
          (.opaquePath inputDrv) s with
      | none => return none
      | some s => tryResolveInputs inputs s

end

section

variable (store : DerivationStore) (xp : ExperimentalFeatureSettings) (depth : Nat)

/-- `Derivation::tryResolve`. A basic derivation is one without inputs. -/
def tryResolve (drv : Derivation)
    (queryResolutionChain : SingleDerivedPath → Bytes → Option StorePath) :
    Hashing (Option Derivation) := do
  match ← fromExcept (tryResolveInputs store.dirs xp queryResolutionChain drv.inputDrvs.elems
      ⟨drv.inputSrcs, .empty⟩) with
  | none => pure none
  | some s => do
      let resolved ← fromExcept (applyRewrites store.codec s.inputRewrites
        { drv with inputSrcs := s.inputSrcs, inputDrvs := .empty })
      let resolved2 ← fillInOutputPaths store xp depth resolved
      pure (some resolved2)

end

end Nix.Store.DerivationResolving
