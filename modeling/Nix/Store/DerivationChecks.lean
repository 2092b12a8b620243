import Nix.Lib.BreadthFirst
import Nix.Lib.Decisions
import Nix.Lib.SortedMaps
import Nix.Store.DerivationOutputs
import Nix.Util.HashTexts

/-!
`checkOutputs`: the checks of the outputs of a build before they are registered.
-/

set_option linter.dupNamespace false

namespace Nix.Store.DerivationChecks

open Util.Types Util.Hashes Lib.SortedList Store.Path Store.PathInfo Store.DerivationOutputs

/-- `BuildResult::Failure::Status`, of the failures that checks cause. -/
inductive FailureStatus
  | hashMismatch
  | outputRejected
  deriving DecidableEq, Repr

/-- What the checks throw. -/
inductive CheckError
  | buildError (status : FailureStatus) (msg : HintFmt)
  | error (e : Error)
  deriving DecidableEq

/-- `std::variant<OutputName, StorePath>`. -/
inductive DrvRef
  | outputName (name : Bytes)
  | path (path : StorePath)
  deriving DecidableEq

def DrvRef.cmp : DrvRef → DrvRef → Ordering
  | .outputName n, .outputName m => compare n m
  | .outputName _, .path _ => .lt
  | .path _, .outputName _ => .gt
  | .path p, .path q => StorePath.cmp p q

abbrev DrvRefs := SortedSet DrvRef.cmp

/-- `DerivationOptions::OutputChecks`. -/
structure OutputChecks where
  ignoreSelfRefs : Bool := false
  maxSize : Option UInt64 := none
  maxClosureSize : Option UInt64 := none
  allowedReferences : Option DrvRefs := none
  disallowedReferences : DrvRefs := .empty
  allowedRequisites : Option DrvRefs := none
  disallowedRequisites : DrvRefs := .empty

/-- The checks of all outputs, or of each one. -/
inductive OutputChecksOption
  | all (checks : OutputChecks)
  | perOutput (checks : SortedMap (compare : Bytes → Bytes → Ordering) OutputChecks)

def OutputChecksOption.find? : OutputChecksOption → Bytes → Option OutputChecks
  | .all checks, _ => some checks
  | .perOutput checks, outputName => SortedMap.find? checks outputName

abbrev InfosByPath := SortedMap StorePath.cmp ValidPathInfo

abbrev OutputInfos := SortedMap (compare : Bytes → Bytes → Ordering) ValidPathInfo

structure StoreInfos where
  storeDir : Bytes
  pathInfos : InfosByPath

def StoreInfos.printStorePath (store : StoreInfos) (path : StorePath) : Bytes :=
  Path.printStorePath store.storeDir path

def StoreInfos.queryPathInfo (store : StoreInfos) (path : StorePath) :
    Except CheckError ValidPathInfo :=
  match store.pathInfos.find? path with
  | some info => .ok info
  | none =>
      .error (.error ⟨.invalidPath, ⟨"path '%s' is not valid", [store.printStorePath path]⟩⟩)

/-- `concatMapStringsSep(", ", outputs, ...)`. -/
def outputsListing (outputs : OutputInfos) : Bytes :=
  (str ", ").intercalate (outputs.elems.map Prod.fst)

def emplace (byPath : InfosByPath) (info : ValidPathInfo) : InfosByPath :=
  if byPath.contains info.path then byPath else byPath.assign info.path info

def outputsByPath (outputs : OutputInfos) : InfosByPath :=
  outputs.elems.foldl (fun byPath output => emplace byPath output.2) .empty

section CheckOutputs

variable (store : StoreInfos) (drvPath : StorePath) (outputs : OutputInfos)

def checkCAFixedOutput (outputSpec : DerivationOutput) (info : ValidPathInfo) :
    Except CheckError Unit :=
  match outputSpec with
  | .caFixed wanted =>
      match info.ca with
      | none => .error (.error (.assertion "info.ca"))
      | some got =>
          if wanted.hash ≠ got.hash then
            .error (.buildError .hashMismatch
              ⟨"hash mismatch in fixed-output derivation '%s':\n  specified: %s\n     got:    %s",
                [store.printStorePath drvPath, wanted.hash.toSRI, got.hash.toSRI]⟩)
          else
            match info.references.elems with
            | [] => .ok ()
            | ref :: _ =>
                .error (.buildError .hashMismatch
                  ⟨"fixed-output derivations must not reference store paths: " ++
                      "'%s' references %d distinct paths, e.g. '%s'",
                    [store.printStorePath drvPath, decimal info.references.elems.length,
                      store.printStorePath ref]⟩)
  | _ => .ok ()

/-- What is known of a path: an output may not be valid yet. -/
def infoOf (byPath : InfosByPath) (path : StorePath) : Except CheckError ValidPathInfo :=
  match byPath.find? path with
  | some info => .ok info
  | none => store.queryPathInfo path

def unvisited (byPath : InfosByPath) (done : StorePathSet) : Nat :=
  ((byPath.elems ++ store.pathInfos.elems).filter (·.1 ∉ done)).length

theorem mem_of_infoOf {store : StoreInfos} {byPath : InfosByPath} {path : StorePath}
    {info : ValidPathInfo} (h : infoOf store byPath path = .ok info) :
    (path, info) ∈ byPath.elems ++ store.pathInfos.elems := by
  rw [infoOf] at h
  split at h
  next hfind =>
    cases h
    exact List.mem_append_left _ (SortedMap.find?_eq_some.mp hfind)
  next =>
    rw [StoreInfos.queryPathInfo] at h
    split at h
    next hfind =>
      cases h
      exact List.mem_append_right _ (SortedMap.find?_eq_some.mp hfind)
    next => cases h

theorem unvisited_insert_lt {store : StoreInfos} {byPath : InfosByPath} {path : StorePath}
    {info : ValidPathInfo} (h : infoOf store byPath path = .ok info) {done : StorePathSet}
    (hdone : path ∉ done) :
    unvisited store byPath (done.insert path) < unvisited store byPath done := by
  have hknown : (path, info) ∈ byPath.elems ++ store.pathInfos.elems := mem_of_infoOf h
  have hsplit : (byPath.elems ++ store.pathInfos.elems).filter (·.1 ∉ done.insert path) =
      ((byPath.elems ++ store.pathInfos.elems).filter (·.1 ∉ done)).filter (·.1 ≠ path) := by
    rw [List.filter_filter]
    exact List.filter_congr fun e _ => by simp [not_or]
  rw [unvisited, unvisited, hsplit]
  refine List.length_filter_lt_length_iff_exists.mpr ⟨(path, info), ?_, by simp⟩
  exact List.mem_filter.mpr ⟨hknown, decide_eq_true hdone⟩

/-- The loop of `getClosure`, with the paths that are done and the size so far. -/
def closureLoop (byPath : InfosByPath) (done : StorePathSet) (closureSize : UInt64) :
    List StorePath → Except CheckError (StorePathSet × UInt64)
  | [] => .ok (done, closureSize)
  | path :: pathsLeft =>
      if _hdone : path ∈ done then closureLoop byPath done closureSize pathsLeft
      else
        match _hinfo : infoOf store byPath path with
        | .error e => .error e
        | .ok info =>
            closureLoop byPath (done.insert path) (closureSize + info.narSize)
              (pathsLeft ++ info.references.elems)
termination_by pathsLeft => (unvisited store byPath done, pathsLeft.length)
decreasing_by
  · exact .right _ (Nat.lt_succ_self _)
  · exact .left _ _ (unvisited_insert_lt _hinfo _hdone)

def getClosure (path : StorePath) : Except CheckError (StorePathSet × UInt64) :=
  closureLoop store (outputsByPath outputs) .empty 0 [path]

def parseRef (outputName : Bytes) (spec : StorePathSet) : DrvRef → Except CheckError StorePathSet
  | .path path => .ok (spec.insert path)
  | .outputName refOutputName =>
      match outputs.find? refOutputName with
      | some output => .ok (spec.insert output.path)
      | none =>
          .error (.buildError .outputRejected
            ⟨"derivation '%s' output check for '%s' contains output name '%s'," ++
              " but this is not a valid output of this derivation. (Valid outputs are [%s].)",
              [store.printStorePath drvPath, outputName, refOutputName, outputsListing outputs]⟩)

def checkRefs (checks : OutputChecks) (outputName : Bytes) (info : ValidPathInfo)
    (value : DrvRefs) (allowed recursive : Bool) : Except CheckError Unit := do
  let spec ← value.elems.foldlM (parseRef store drvPath outputs outputName) .empty
  let used ← (if recursive then Prod.fst <$> getClosure store outputs info.path
    else .ok info.references)
  let used := used.elems.filter fun i => !(recursive && checks.ignoreSelfRefs && i = info.path)
  let badPaths := used.filter fun i => if allowed then i ∉ spec else i ∈ spec
  if badPaths ≠ [] then
    .error (.buildError .outputRejected
      ⟨"output '%s' is not allowed to refer to the following paths:%s",
        [store.printStorePath info.path,
          badPaths.flatMap fun i => str "\n  " ++ store.printStorePath i]⟩)
  else .ok ()

def applyChecks (outputName : Bytes) (info : ValidPathInfo) (checks : OutputChecks) :
    Except CheckError Unit := do
  checks.maxSize.elim (.ok ()) fun maxSize =>
    if info.narSize > maxSize then
      .error (.buildError .outputRejected
        ⟨"path '%s' is too large at %d bytes; limit is %d bytes",
          [store.printStorePath info.path, decimal info.narSize.toNat, decimal maxSize.toNat]⟩)
    else .ok ()
  checks.maxClosureSize.elim (.ok ()) fun maxClosureSize => do
    let closure ← getClosure store outputs info.path
    if closure.2 > maxClosureSize then
      .error (.buildError .outputRejected
        ⟨"closure of path '%s' is too large at %d bytes; limit is %d bytes",
          [store.printStorePath info.path, decimal closure.2.toNat,
            decimal maxClosureSize.toNat]⟩)
    else .ok ()
  checks.allowedReferences.elim (.ok ()) fun refs =>
    checkRefs store drvPath outputs checks outputName info refs true false
  checks.allowedRequisites.elim (.ok ()) fun refs =>
    checkRefs store drvPath outputs checks outputName info refs true true
  (if checks.disallowedReferences.elems ≠ [] then
    checkRefs store drvPath outputs checks outputName info checks.disallowedReferences false false
  else .ok ())
  if checks.disallowedRequisites.elems ≠ [] then
    checkRefs store drvPath outputs checks outputName info checks.disallowedRequisites false true
  else .ok ()

def checkOutputs (drvOutputs : SortedMap (compare : Bytes → Bytes → Ordering) DerivationOutput)
    (outputChecks : OutputChecksOption) : Except CheckError Unit :=
  outputs.elems.forM fun output =>
    match drvOutputs.find? output.1 with
    | none => .error (.error (.assertion "outputSpec"))
    | some outputSpec => do
        checkCAFixedOutput store drvPath outputSpec output.2
        (outputChecks.find? output.1).elim (.ok ())
          (applyChecks store drvPath outputs output.1 output.2)

end CheckOutputs

end Nix.Store.DerivationChecks
