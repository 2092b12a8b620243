import Nix.Lib.Memo
import Nix.Store.DerivationInputs

/-!
The deep queries for the outputs of derivations, and the same queries without caches.
-/

set_option linter.dupNamespace false

namespace Nix.Store.OutputQueries

open Util.Types Util.Hashes
open Nix.Lib
open Lib.SortedList Lib.Memo
open Lib.PrefixReader (fromExcept)
open Store.Path Store.PathInfo Store.ContentAddresses Store.StoreDirs Store.DerivationOutputs
  Store.DerivedPaths Store.Derivations Store.OutputPaths Store.DerivationResolving

/-! ### Static outputs -/

abbrev OutputMap := SortedMap (compare : Bytes → Bytes → Ordering) (Option StorePath)

/-- `DerivationOutput::path`. -/
def outputPath (dirs : StoreDirConfig) (xp : ExperimentalFeatureSettings) (drvName : Bytes)
    (i : Bytes × DerivationOutput) : Except Error (Option StorePath) :=
  match i.2 with
  | .inputAddressed path => .ok (some path)
  | .caFixed ca => (caFixedPath dirs xp ca drvName i.1).map some
  | .caFloating _ _ => .ok none
  | .deferred => .ok none
  | .impure _ _ => .ok none

/-- `outputsAndOptPaths`, without the outputs. -/
def outputsAndOptPaths (dirs : StoreDirConfig) (xp : ExperimentalFeatureSettings)
    (drv : Derivation) : Except Error (List (Bytes × Option StorePath)) :=
  drv.outputs.elems.mapM fun i => do
    let path ← outputPath dirs xp drv.name i
    return (i.1, path)

section Queries

variable (store evalStore : DerivationStore) (xp : ExperimentalFeatureSettings)

def queryStaticPartialDerivationOutputMap (drvPath : StorePath) : Except Error OutputMap := do
  let drv ← evalStore.readInvalidDerivation drvPath
  let outputs ← outputsAndOptPaths evalStore.dirs xp drv
  return SortedMap.ofList outputs

def noOutput (dirs : StoreDirConfig) (drvPath : StorePath) (outputName : Bytes) : Error :=
  simpleError "derivation '%s' does not have an output named '%s'" [dirs.print drvPath, outputName]

def queryStaticPartialDerivationOutput (drvPath : StorePath) (outputName : Bytes) :
    Except Error (Option StorePath) := do
  let outputs ← queryStaticPartialDerivationOutputMap evalStore xp drvPath
  match outputs.find? outputName with
  | none => throw (noOutput evalStore.dirs drvPath outputName)
  | some path => return path

/-! ### Resolving derivations -/

/-- `Derivation::shouldResolve`. -/
def shouldResolve (drv : Derivation) : Except Error Bool :=
  if drv.inputDrvs.elems = [] then .ok false
  else do
    let typeNeedsResolve := match ← drv.type with
      | .inputAddressed isDeferred => isDeferred
      | .contentAddressed _ true => xp .caDerivations
      | .contentAddressed _ false => true
      | .impure => true
    return typeNeedsResolve || drv.hasDynamicDrvDep

/-- `computeStorePath`. -/
def computeStorePath (drv : Derivation) : Except Error StorePath := do
  let references := (drv.inputDrvs.elems.map Prod.fst).foldl SortedSet.insert drv.inputSrcs
  let contents ← drv.unparse store xp false none
  store.dirs.makePathFromCA xp (drv.name ++ str ".drv")
    (.text (store.dirs.hashString contents) references)

section Resolve

variable {m : Type → Type} [Monad m] [MonadLift (Except Error) m]

/-- The loop over the outputs of a node, where the callback has effects. -/
def resolveOutputs (query : SingleDerivedPath → Bytes → m (Option StorePath))
    (placeholderOpt : Option DownstreamPlaceholder) (drvPath : SingleDerivedPath) :
    List Bytes → Resolution → m (Option Resolution)
  | [], s => pure (some s)
  | outputName :: outputNames, s => do
      match ← query drvPath outputName with
      | none => pure none
      | some actualPath => do
          let inputRewrites ←
            if xp .caDerivations then do
              let placeholder ← monadLift
                (getPlaceholder store.dirs xp placeholderOpt drvPath outputName)
              pure (insertPair s.inputRewrites (placeholder.render, store.dirs.print actualPath))
            else pure s.inputRewrites
          resolveOutputs query placeholderOpt drvPath outputNames
            ⟨s.inputSrcs.insert actualPath, inputRewrites⟩

/-- Visit the children of a node, until one of them cannot be resolved. -/
def visitChildren {n : Nat} (visit : Fin n → Resolution → m (Option Resolution)) :
    List (Fin n) → Resolution → m (Option Resolution)
  | [], s => pure (some s)
  | i :: is, s => do
      match ← visit i s with
      | none => pure none
      | some s => visitChildren visit is s

def tryResolveInput (query : SingleDerivedPath → Bytes → m (Option StorePath)) :
    ChildNode → Option DownstreamPlaceholder → SingleDerivedPath → Resolution →
      m (Option Resolution)
  | .mk value keys child, placeholderOpt, drvPath, s => do
      match ← resolveOutputs store xp query placeholderOpt drvPath value.elems s with
      | none => pure none
      | some s =>
          visitChildren (fun i s => do
            let outputName := keys.elems.get i
            let nextPlaceholder ← monadLift
              (getPlaceholder store.dirs xp placeholderOpt drvPath outputName)
            tryResolveInput query (child i) (some nextPlaceholder) (.built drvPath outputName) s)
            (List.finRange keys.elems.length) s

/-- The loop of `tryResolve`. -/
def tryResolveInputs (query : SingleDerivedPath → Bytes → m (Option StorePath)) :
    List (StorePath × ChildNode) → Resolution → m (Option Resolution)
  | [], s => pure (some s)
  | (inputDrv, inputNode) :: inputs, s => do
      match ← tryResolveInput store xp query inputNode none (.opaquePath inputDrv) s with
      | none => pure none
      | some s => tryResolveInputs query inputs s

/-- What is done after the inputs are resolved. The derivation has no inputs then, so nothing is
looked up in the cache of hashes. -/
def finishResolve (drv : Derivation) (s : Resolution) : Except Error Derivation := do
  let resolved ← applyRewrites store.codec s.inputRewrites
    { drv with inputSrcs := s.inputSrcs, inputDrvs := .empty }
  let (resolved2, _) ← fillInOutputPaths store xp 0 resolved .empty
  return resolved2

/-- `Derivation::tryResolve`. -/
def tryResolve (query : SingleDerivedPath → Bytes → m (Option StorePath)) (drv : Derivation) :
    m (Option Derivation) := do
  match ← tryResolveInputs store xp query drv.inputDrvs.elems ⟨drv.inputSrcs, .empty⟩ with
  | none => pure none
  | some s => do
      let resolved2 ← monadLift (finishResolve store xp drv s)
      pure (some resolved2)

/-- `resolveSingleDerivedPath`. -/
def resolveSingleDerivedPath (deepQuery : StorePath → Bytes → m (Option StorePath)) :
    SingleDerivedPath → m (Option StorePath)
  | .opaquePath path => pure (some path)
  | .built drvPath output => do
      match ← resolveSingleDerivedPath deepQuery drvPath with
      | none => pure none
      | some innerPath => deepQuery innerPath output

/-- The callback of `resolveDerivation`. -/
def queryInput (deepQuery : StorePath → Bytes → m (Option StorePath))
    (depDrvPath : SingleDerivedPath) (depOutputName : Bytes) : m (Option StorePath) := do
  match ← resolveSingleDerivedPath deepQuery depDrvPath with
  | none => pure none
  | some concreteDrvPath => deepQuery concreteDrvPath depOutputName

/-- A derivation is left as it is if one of its inputs cannot be resolved. -/
def resolveInputs (deepQuery : StorePath → Bytes → m (Option StorePath)) (drv : Derivation) :
    m Derivation := do
  if ← monadLift (shouldResolve xp drv) then
    match ← tryResolve store xp (queryInput deepQuery) drv with
    | some resolvedDrv => pure resolvedDrv
    | none => pure drv
  else pure drv

/-- What `resolveDerivation` computes if the cache does not have it. -/
def resolveAfresh (deepQuery : StorePath → Bytes → m (Option StorePath)) (drvPath : StorePath) :
    m (Derivation × StorePath) := do
  let drv ← monadLift (evalStore.readInvalidDerivation drvPath)
  let drv ← resolveInputs store xp deepQuery drv
  let resolvedDrvPath ← monadLift (computeStorePath store xp drv)
  pure (drv, resolvedDrvPath)

end Resolve

/-! ### The caches -/

structure DrvOutput where
  drvPath : StorePath
  outputName : Bytes
  deriving DecidableEq

/-- `ResolveCache` and `RealisationCache`. -/
structure Caches where
  cache : List (StorePath × (Derivation × StorePath)) := []
  resCache : List (DrvOutput × Option StorePath) := []

def lookup {κ ν : Type} [DecidableEq κ] (k : κ) (l : List (κ × ν)) : Option ν :=
  (l.find? (·.1 = k)).map Prod.snd

/-- `emplace`, which keeps what the key has. -/
def emplace {κ ν : Type} [DecidableEq κ] (k : κ) (v : ν) (l : List (κ × ν)) : List (κ × ν) :=
  match lookup k l with
  | some _ => l
  | none => (k, v) :: l

def Caches.answer (s : Caches) (id : DrvOutput) (outPath : Option StorePath) : Caches :=
  { s with resCache := emplace id outPath s.resCache }

abbrev Querying := Cached Caches Error

/-- `queryRealisation`: the path of a realisation, if there is one. -/
abbrev QueryRealisation := DrvOutput → Option StorePath

variable (queryRealisation : QueryRealisation)

def resolveDerivation (deepQuery : StorePath → Bytes → Querying (Option StorePath))
    (drvPath : StorePath) : Querying (Derivation × StorePath) := do
  match lookup drvPath (← Cached.read).cache with
  | some result => pure result
  | none => do
      let result ← resolveAfresh store evalStore xp deepQuery drvPath
      Cached.modify fun s => { s with cache := emplace drvPath result s.cache }
      pure result

/-- The realisation of an output, from the cache if it has it. -/
def cachedRealisation (id : DrvOutput) : Querying (Option StorePath) := do
  match lookup id (← Cached.read).resCache with
  | some outPath => pure outPath
  | none => do
      let outPath := queryRealisation id
      Cached.modify fun s => s.answer id outPath
      pure outPath

/-- `deepQueryPartialDerivationOutputImpl`, which looks at most `depth` derivations deep. -/
def deepQueryPartialDerivationOutputImpl : Nat → StorePath → Bytes → Querying (Option StorePath)
  | 0, _, _ => Cached.diverges
  | depth + 1, drvPath, outputName => do
      let staticResult ← monadLift
        (queryStaticPartialDerivationOutput evalStore xp drvPath outputName)
      if staticResult.isSome || !xp .caDerivations then pure staticResult
      else do
        let (drv, resolvedDrvPath) ← resolveDerivation store evalStore xp
          (deepQueryPartialDerivationOutputImpl depth) drvPath
        if drv.outputs.contains outputName = false then
          monadLift (.error (noOutput store.dirs drvPath outputName) : Except Error _)
        else cachedRealisation queryRealisation ⟨resolvedDrvPath, outputName⟩

/-- One round of the loop of `queryPartialDerivationOutputMapCA`. -/
def queryOutput (drvPath : StorePath) (outputs : OutputMap) (outputName : Bytes) :
    Querying OutputMap := do
  let id : DrvOutput := ⟨drvPath, outputName⟩
  match lookup id (← Cached.read).resCache with
  | some outPath => pure (outputs.assign outputName outPath)
  | none => do
      let outPath := queryRealisation id
      Cached.modify fun s => s.answer id outPath
      match outPath with
      | some outPath => pure (outputs.assign outputName (some outPath))
      | none =>
          if outputs.contains outputName then pure outputs
          else pure (outputs.assign outputName none)

def queryPartialDerivationOutputMapCA (drvPath : StorePath) :
    List Bytes → OutputMap → Querying OutputMap
  | [], outputs => pure outputs
  | outputName :: outputNames, outputs => do
      let outputs ← queryOutput queryRealisation drvPath outputs outputName
      queryPartialDerivationOutputMapCA drvPath outputNames outputs

def outputMap (depth : Nat) (drvPath : StorePath) : Querying OutputMap := do
  let outputs ← monadLift (queryStaticPartialDerivationOutputMap evalStore xp drvPath)
  if !xp .caDerivations then pure outputs
  else do
    let (drv, resolvedDrvPath) ← resolveDerivation store evalStore xp
      (deepQueryPartialDerivationOutputImpl store evalStore xp queryRealisation depth) drvPath
    queryPartialDerivationOutputMapCA queryRealisation resolvedDrvPath
      (drv.outputs.elems.map Prod.fst) outputs

def deepQueryPartialDerivationOutputMap (depth : Nat) (drvPath : StorePath) :
    Option (Except Error OutputMap) :=
  (outputMap store evalStore xp queryRealisation depth drvPath).run {}

def deepQueryPartialDerivationOutput (depth : Nat) (drvPath : StorePath) (outputName : Bytes) :
    Option (Except Error (Option StorePath)) :=
  (deepQueryPartialDerivationOutputImpl store evalStore xp queryRealisation depth drvPath
    outputName).run {}

/-! ### Queries without caches -/

/-- The static path if there is one, or else the realisation of the resolved derivation. -/
def plainOutput : Nat → StorePath → Bytes → Noted DrvOutput Error (Option StorePath)
  | 0, _, _ => Noted.diverges
  | depth + 1, drvPath, outputName => do
      let staticResult ← monadLift
        (queryStaticPartialDerivationOutput evalStore xp drvPath outputName)
      if staticResult.isSome || !xp .caDerivations then pure staticResult
      else do
        let (drv, resolvedDrvPath) ← resolveAfresh store evalStore xp (plainOutput depth) drvPath
        if drv.outputs.contains outputName = false then
          monadLift (.error (noOutput store.dirs drvPath outputName) : Except Error _)
        else do
          Noted.note ⟨resolvedDrvPath, outputName⟩
          pure (queryRealisation ⟨resolvedDrvPath, outputName⟩)

def plainResolve (depth : Nat) (drvPath : StorePath) :
    Noted DrvOutput Error (Derivation × StorePath) :=
  resolveAfresh store evalStore xp (plainOutput store evalStore xp queryRealisation depth) drvPath

end Queries

/-!
What the caches of the deep queries know, and that the queries give what plain recursion gives.
-/

/-! ### Related callbacks -/

section Related

variable {store evalStore : DerivationStore} {xp : ExperimentalFeatureSettings}
  {m n : Type → Type} [Monad m] [Monad n] [MonadLift (Except Error) m] [MonadLift (Except Error) n]
  {R : ∀ {α : Type}, m α → n α → Prop}

theorem related_resolveOutputs (hR : Compatible Error m n R)
    {query : SingleDerivedPath → Bytes → m (Option StorePath)}
    {query' : SingleDerivedPath → Bytes → n (Option StorePath)}
    (placeholderOpt : Option DownstreamPlaceholder) (drvPath : SingleDerivedPath)
    (outputNames : List Bytes) (s : Resolution)
    (hquery : ∀ o ∈ outputNames, R (query drvPath o) (query' drvPath o)) :
    R (resolveOutputs store xp query placeholderOpt drvPath outputNames s)
      (resolveOutputs store xp query' placeholderOpt drvPath outputNames s) := by
  induction outputNames generalizing s with
  | nil => exact hR.pure _
  | cons outputName outputNames ih =>
      rw [resolveOutputs, resolveOutputs]
      refine hR.bind (hquery _ List.mem_cons_self) fun path => ?_
      cases path with
      | none => exact hR.pure _
      | some actualPath =>
          have hrest := fun s => ih s fun o ho => hquery o (List.mem_cons_of_mem _ ho)
          dsimp only
          split
          · exact hR.bind (hR.lift _) fun placeholder => hR.bind (hR.pure _) fun _ => hrest _
          · exact hR.bind (hR.pure _) fun _ => hrest _

theorem related_visitChildren (hR : Compatible Error m n R) {k : Nat}
    {visit : Fin k → Resolution → m (Option Resolution)}
    {visit' : Fin k → Resolution → n (Option Resolution)} (is : List (Fin k)) (s : Resolution)
    (hvisit : ∀ i s, R (visit i s) (visit' i s)) :
    R (visitChildren visit is s) (visitChildren visit' is s) := by
  induction is generalizing s with
  | nil => exact hR.pure _
  | cons i is ih =>
      rw [visitChildren, visitChildren]
      refine hR.bind (hvisit i s) fun r => ?_
      cases r with
      | none => exact hR.pure _
      | some s => exact ih s

theorem related_tryResolveInput (hR : Compatible Error m n R)
    {query : SingleDerivedPath → Bytes → m (Option StorePath)}
    {query' : SingleDerivedPath → Bytes → n (Option StorePath)} (node : ChildNode)
    (placeholderOpt : Option DownstreamPlaceholder) (drvPath : SingleDerivedPath) (s : Resolution)
    (hquery : ∀ chain o, Occurs node drvPath chain o → R (query chain o) (query' chain o)) :
    R (tryResolveInput store xp query node placeholderOpt drvPath s)
      (tryResolveInput store xp query' node placeholderOpt drvPath s) := by
  induction node generalizing placeholderOpt drvPath s with
  | mk value keys child ih =>
      rw [tryResolveInput, tryResolveInput]
      refine hR.bind (related_resolveOutputs hR _ _ _ _ fun o ho => hquery _ _ (.value ho))
        fun r => ?_
      cases r with
      | none => exact hR.pure _
      | some s =>
          refine related_visitChildren hR _ _ fun i s => ?_
          exact hR.bind (hR.lift _) fun placeholder =>
            ih i _ _ _ fun chain o ho => hquery chain o (.child i ho)

theorem related_tryResolveInputs (hR : Compatible Error m n R)
    {query : SingleDerivedPath → Bytes → m (Option StorePath)}
    {query' : SingleDerivedPath → Bytes → n (Option StorePath)}
    (inputs : List (StorePath × ChildNode)) (s : Resolution)
    (hquery : ∀ i ∈ inputs, ∀ chain o, Occurs i.2 (.opaquePath i.1) chain o →
      R (query chain o) (query' chain o)) :
    R (tryResolveInputs store xp query inputs s) (tryResolveInputs store xp query' inputs s) := by
  induction inputs generalizing s with
  | nil => exact hR.pure _
  | cons i inputs ih =>
      rw [tryResolveInputs, tryResolveInputs]
      refine hR.bind (related_tryResolveInput hR _ _ _ _ (hquery i List.mem_cons_self))
        fun r => ?_
      cases r with
      | none => exact hR.pure _
      | some s => exact ih s fun j hj => hquery j (List.mem_cons_of_mem _ hj)

theorem related_resolveInputs (hR : Compatible Error m n R)
    {deepQuery : StorePath → Bytes → m (Option StorePath)}
    {deepQuery' : StorePath → Bytes → n (Option StorePath)} (drv : Derivation)
    (hquery : ∀ chain o, HasInput drv chain o →
      R (queryInput deepQuery chain o) (queryInput deepQuery' chain o)) :
    R (resolveInputs store xp deepQuery drv) (resolveInputs store xp deepQuery' drv) := by
  rw [resolveInputs, resolveInputs]
  refine hR.bind (hR.lift _) fun resolves => ?_
  split
  · refine hR.bind ?_ fun r => ?_
    · rw [tryResolve, tryResolve]
      refine hR.bind (related_tryResolveInputs hR _ _ fun i hi chain o ho =>
        hquery chain o ⟨i, hi, ho⟩) fun r => ?_
      cases r with
      | none => exact hR.pure _
      | some s => exact hR.bind (hR.lift _) fun drv => hR.pure _
    · cases r with
      | none => exact hR.pure _
      | some drv => exact hR.pure _
  · exact hR.pure _

theorem related_resolveAfresh (hR : Compatible Error m n R)
    {deepQuery : StorePath → Bytes → m (Option StorePath)}
    {deepQuery' : StorePath → Bytes → n (Option StorePath)} (drvPath : StorePath)
    (hquery : ∀ drv chain o, HasInput drv chain o →
      R (queryInput deepQuery chain o) (queryInput deepQuery' chain o)) :
    R (resolveAfresh store evalStore xp deepQuery drvPath)
      (resolveAfresh store evalStore xp deepQuery' drvPath) :=
  hR.bind (hR.lift _) fun drv => hR.bind (related_resolveInputs hR drv (hquery drv)) fun _ =>
    hR.bind (hR.lift _) fun _ => hR.pure _

theorem related_queryInput (hR : Compatible Error m n R)
    {deepQuery : StorePath → Bytes → m (Option StorePath)}
    {deepQuery' : StorePath → Bytes → n (Option StorePath)} (chain : SingleDerivedPath) (o : Bytes)
    (hquery : ∀ p o, R (deepQuery p o) (deepQuery' p o)) :
    R (queryInput deepQuery chain o) (queryInput deepQuery' chain o) := by
  have hresolve : ∀ chain, R (resolveSingleDerivedPath deepQuery chain)
      (resolveSingleDerivedPath deepQuery' chain) := by
    intro chain
    induction chain with
    | opaquePath path => exact hR.pure _
    | built drvPath output ih =>
        refine hR.bind ih fun r => ?_
        cases r with
        | none => exact hR.pure _
        | some path => exact hquery _ _
  refine hR.bind (hresolve chain) fun r => ?_
  cases r with
  | none => exact hR.pure _
  | some path => exact hquery _ _

end Related

/-! ### Callbacks without effects -/

section Pure

variable {store : DerivationStore} {xp : ExperimentalFeatureSettings}
  (resolve : SingleDerivedPath → Bytes → Option StorePath)

def pureQuery (drvPath : SingleDerivedPath) (o : Bytes) :
    Noted DrvOutput Error (Option StorePath) :=
  pure (resolve drvPath o)

theorem resolveOutputs_pure (placeholderOpt : Option DownstreamPlaceholder)
    (drvPath : SingleDerivedPath) (outputNames : List Bytes) (s : Resolution) :
    resolveOutputs store xp (pureQuery resolve) placeholderOpt drvPath outputNames s =
      monadLift (DerivationResolving.resolveOutputs store.dirs xp resolve placeholderOpt drvPath
        outputNames s) := by
  induction outputNames generalizing s with
  | nil => rfl
  | cons outputName outputNames ih =>
      rw [resolveOutputs, DerivationResolving.resolveOutputs, pureQuery, Noted.pure_bind]
      cases resolve drvPath outputName with
      | none => rfl
      | some actualPath =>
          dsimp only
          cases xp .caDerivations with
          | false => exact (Noted.pure_bind _ _).trans (ih _)
          | true =>
              rw [if_pos rfl, if_pos rfl]
              cases getPlaceholder store.dirs xp placeholderOpt drvPath outputName with
              | error e => rfl
              | ok placeholder =>
                  exact (Noted.lift_ok_bind _ _).trans ((Noted.pure_bind _ _).trans (ih _))

theorem visitChildren_pure {k : Nat}
    {visit : Fin k → Resolution → Noted DrvOutput Error (Option Resolution)}
    {visit' : Fin k → Resolution → Except Error (Option Resolution)}
    (hvisit : ∀ i s, visit i s = monadLift (visit' i s)) (is : List (Fin k)) (s : Resolution) :
    visitChildren visit is s = monadLift (DerivationResolving.visitChildren visit' is s) := by
  induction is generalizing s with
  | nil => rfl
  | cons i is ih =>
      rw [visitChildren, DerivationResolving.visitChildren, Noted.lift_bind, hvisit]
      congr 1
      funext r
      cases r with
      | none => rfl
      | some s => exact ih s

theorem tryResolveInput_pure (node : ChildNode) (placeholderOpt : Option DownstreamPlaceholder)
    (drvPath : SingleDerivedPath) (s : Resolution) :
    tryResolveInput store xp (pureQuery resolve) node placeholderOpt drvPath s =
      monadLift (DerivationResolving.tryResolveInput store.dirs xp resolve node placeholderOpt
        drvPath s) := by
  induction node generalizing placeholderOpt drvPath s with
  | mk value keys child ih =>
      rw [tryResolveInput, DerivationResolving.tryResolveInput, Noted.lift_bind,
        resolveOutputs_pure]
      congr 1
      funext r
      cases r with
      | none => rfl
      | some s =>
          refine visitChildren_pure (fun i s => ?_) _ s
          dsimp only
          rw [Noted.lift_bind]
          congr 1
          funext placeholder
          exact ih i _ _ _

theorem tryResolveInputs_pure (inputs : List (StorePath × ChildNode)) (s : Resolution) :
    tryResolveInputs store xp (pureQuery resolve) inputs s =
      monadLift (DerivationResolving.tryResolveInputs store.dirs xp resolve inputs s) := by
  induction inputs generalizing s with
  | nil => rfl
  | cons i inputs ih =>
      rw [tryResolveInputs, DerivationResolving.tryResolveInputs, Noted.lift_bind,
        tryResolveInput_pure]
      congr 1
      funext r
      cases r with
      | none => rfl
      | some s => exact ih s

theorem tryResolve_pure (drv : Derivation) :
    tryResolve store xp (pureQuery resolve) drv =
      monadLift ((DerivationResolving.tryResolve store xp 0 drv resolve .empty).map Prod.fst) := by
  rw [tryResolve, tryResolveInputs_pure, DerivationResolving.tryResolve]
  simp only [PrefixReader.bind_apply, PrefixReader.fromExcept]
  cases DerivationResolving.tryResolveInputs store.dirs xp resolve drv.inputDrvs.elems
      ⟨drv.inputSrcs, .empty⟩ with
  | error e => rfl
  | ok r =>
      rw [Noted.lift_ok_bind]
      cases r with
      | none => rfl
      | some s =>
          simp only [Except.map, Except.bind, finishResolve, PrefixReader.bind_apply]
          cases applyRewrites store.codec s.inputRewrites
              { drv with inputSrcs := s.inputSrcs, inputDrvs := .empty } with
          | error e => rfl
          | ok resolved =>
              simp only [bind, Except.bind, PrefixReader.fromExcept, Except.map]
              cases OutputPaths.fillInOutputPaths store xp 0 resolved .empty with
              | error e => rfl
              | ok r => rfl

end Pure

section Runs

variable {store evalStore : DerivationStore} {xp : ExperimentalFeatureSettings}
  {queryRealisation : QueryRealisation}

/-! ### Depths -/

theorem below_plainOutput {depth depth' : Nat} (h : depth ≤ depth') (drvPath : StorePath)
    (outputName : Bytes) :
    Noted.Below (plainOutput store evalStore xp queryRealisation depth drvPath outputName)
      (plainOutput store evalStore xp queryRealisation depth' drvPath outputName) := by
  induction depth generalizing depth' drvPath outputName with
  | zero => exact .inl rfl
  | succ depth ih =>
      obtain ⟨depth', rfl⟩ : ∃ k, depth' = k + 1 := ⟨depth' - 1, by omega⟩
      rw [plainOutput, plainOutput]
      refine Noted.compatible_below.bind (.inr rfl) fun staticResult => ?_
      split
      · exact .inr rfl
      · refine Noted.compatible_below.bind ?_ fun _ => .inr rfl
        exact related_resolveAfresh Noted.compatible_below _ fun drv chain o _ =>
          related_queryInput Noted.compatible_below chain o fun p o => ih (by omega) p o

theorem below_plainResolve {depth depth' : Nat} (h : depth ≤ depth') (drvPath : StorePath) :
    Noted.Below (plainResolve store evalStore xp queryRealisation depth drvPath)
      (plainResolve store evalStore xp queryRealisation depth' drvPath) :=
  related_resolveAfresh Noted.compatible_below _ fun _ chain o _ =>
    related_queryInput Noted.compatible_below chain o fun p o => below_plainOutput h p o

theorem plainResolve_unique {depth depth' : Nat} {drvPath : StorePath}
    (h : (plainResolve store evalStore xp queryRealisation depth drvPath).Ends)
    (h' : (plainResolve store evalStore xp queryRealisation depth' drvPath).Ends) :
    plainResolve store evalStore xp queryRealisation depth drvPath =
      plainResolve store evalStore xp queryRealisation depth' drvPath := by
  rcases Nat.le_total depth depth' with hle | hle
  · exact (below_plainResolve hle drvPath).of_ne h
  · exact ((below_plainResolve hle drvPath).of_ne h').symm

/-! ### Caches -/

section Lists

variable {κ ν : Type} [DecidableEq κ]

theorem lookup_emplace (k : κ) (v : ν) (l : List (κ × ν)) (k' : κ) :
    lookup k' (emplace k v l) = (lookup k' l).or (if k = k' then some v else none) := by
  rw [emplace]
  split
  next v' hv =>
    split
    next hk =>
      subst hk
      rw [hv]
      rfl
    next => rw [Option.or_none]
  next hnone =>
    rw [lookup, List.find?_cons]
    split
    next hk =>
      have hk := of_decide_eq_true hk
      dsimp only at hk
      subst hk
      rw [hnone, if_pos rfl]
      rfl
    next hk =>
      have hk := of_decide_eq_false hk
      rw [if_neg hk, Option.or_none]
      rfl

end Lists

def Known (s : Caches) (id : DrvOutput) : Prop :=
  (lookup id s.resCache).isSome

/-- The entries of the caches are what plain recursion gives, and what it asked is in the cache. -/
structure Right (store evalStore : DerivationStore) (xp : ExperimentalFeatureSettings)
    (queryRealisation : QueryRealisation) (s : Caches) : Prop where
  cache : ∀ drvPath result, lookup drvPath s.cache = some result → ∃ depth asked,
    plainResolve store evalStore xp queryRealisation depth drvPath = .returned result asked ∧
      ∀ id ∈ asked, Known s id
  resCache : ∀ id outPath, lookup id s.resCache = some outPath → outPath = queryRealisation id

theorem right_empty : Right store evalStore xp queryRealisation {} :=
  ⟨fun _ _ h => (nomatch h), fun _ _ h => (nomatch h)⟩

theorem known_empty (id : DrvOutput) : ¬Known {} id := fun h => nomatch h

theorem known_emplace {s : Caches} {id : DrvOutput} {outPath : Option StorePath}
    (id' : DrvOutput) :
    Known (s.answer id outPath) id' ↔ Known s id' ∨ id' = id := by
  rw [Known, Caches.answer, lookup_emplace, Known, Option.isSome_or, Bool.or_eq_true]
  refine or_congr_right ?_
  split
  next h => simp [h]
  next h => simp [Ne.symm h]

theorem Right.answer {s : Caches} (h : Right store evalStore xp queryRealisation s)
    (id : DrvOutput) :
    Right store evalStore xp queryRealisation (s.answer id (queryRealisation id)) := by
  refine ⟨fun drvPath result hresult => ?_, fun id' outPath hid => ?_⟩
  · obtain ⟨depth, asked, hplain, hasked⟩ := h.cache drvPath result hresult
    exact ⟨depth, asked, hplain, fun id' hid => (known_emplace id').mpr (.inl (hasked id' hid))⟩
  · rw [Caches.answer, lookup_emplace, Option.or_eq_some_iff] at hid
    rcases hid with hid | ⟨-, hid⟩
    · exact h.resCache id' outPath hid
    · split at hid
      next heq => rw [← heq, Option.some.inj hid]
      next => cases hid

theorem Right.resolve {s : Caches} (h : Right store evalStore xp queryRealisation s) {depth : Nat}
    {drvPath : StorePath} {result : Derivation × StorePath} {asked : List DrvOutput}
    (hplain : plainResolve store evalStore xp queryRealisation depth drvPath =
      .returned result asked) (hasked : ∀ id ∈ asked, Known s id) :
    Right store evalStore xp queryRealisation
      { s with cache := emplace drvPath result s.cache } := by
  refine ⟨fun drvPath' result' hresult => ?_, h.resCache⟩
  rw [lookup_emplace, Option.or_eq_some_iff] at hresult
  rcases hresult with hresult | ⟨-, hresult⟩
  · exact h.cache drvPath' result' hresult
  · split at hresult
    next heq =>
      rw [← heq, ← Option.some.inj hresult]
      exact ⟨depth, asked, hplain, hasked⟩
    next => cases hresult

/-! ### The caches give what plain recursion gives -/

/-- The computation gives what the plain one gives. -/
abbrev Computes (store evalStore : DerivationStore) (xp : ExperimentalFeatureSettings)
    (queryRealisation : QueryRealisation) {α : Type} (x : Querying α)
    (y : Noted DrvOutput Error α) : Prop :=
  Cached.Computes (Right store evalStore xp queryRealisation) Known x y

theorem compatible_computes :
    Compatible Error Querying (Noted DrvOutput Error)
      (Computes store evalStore xp queryRealisation) :=
  Cached.compatible_computes

theorem computes_cachedRealisation (id : DrvOutput) :
    Computes store evalStore xp queryRealisation (cachedRealisation queryRealisation id)
      (.returned (queryRealisation id) [id]) := by
  intro s hs
  cases hlookup : lookup id s.resCache with
  | some outPath =>
      refine ⟨s, ?_, hs, fun id' => ?_⟩
      · rw [← hs.resCache id outPath hlookup]
        simp only [cachedRealisation, bind, Cached.bind, Cached.read, hlookup]
        rfl
      · rw [List.mem_singleton]
        refine (or_iff_left_of_imp ?_).symm
        rintro rfl
        exact Option.isSome_of_eq_some hlookup
  | none =>
      refine ⟨_, ?_, hs.answer id, fun id' => ?_⟩
      · simp only [cachedRealisation, bind, Cached.bind, Cached.read, hlookup]
        rfl
      · rw [known_emplace, List.mem_singleton]

theorem computes_resolveDerivation {depth : Nat}
    {deepQuery : StorePath → Bytes → Querying (Option StorePath)}
    (hquery : ∀ p o, Computes store evalStore xp queryRealisation (deepQuery p o)
      (plainOutput store evalStore xp queryRealisation depth p o)) (drvPath : StorePath) :
    Computes store evalStore xp queryRealisation
      (resolveDerivation store evalStore xp deepQuery drvPath)
      (plainResolve store evalStore xp queryRealisation depth drvPath) := by
  intro s hs
  have hafresh : Computes store evalStore xp queryRealisation
      (resolveAfresh store evalStore xp deepQuery drvPath)
      (plainResolve store evalStore xp queryRealisation depth drvPath) :=
    related_resolveAfresh compatible_computes _ fun _ chain o _ =>
      related_queryInput compatible_computes chain o hquery
  cases hlookup : lookup drvPath s.cache with
  | some result =>
      have hrun : resolveDerivation store evalStore xp deepQuery drvPath s =
          some (.ok (result, s)) := by
        simp only [resolveDerivation, bind, Cached.bind, Cached.read, hlookup]
        rfl
      obtain ⟨depth', asked, hplain', hasked⟩ := hs.cache drvPath result hlookup
      cases hplain : plainResolve store evalStore xp queryRealisation depth drvPath with
      | none => trivial
      | some r =>
          have heq : some r = Noted.returned result asked := by
            rw [← hplain, ← hplain']
            refine plainResolve_unique ?_ ?_
            · rw [hplain]
              exact Option.some_ne_none _
            · rw [hplain']
              exact Option.some_ne_none _
          rw [heq]
          refine ⟨s, hrun, hs, fun id => ?_⟩
          exact (or_iff_left_of_imp (hasked id)).symm
  | none =>
      have hmiss := hafresh s hs
      cases hplain : plainResolve store evalStore xp queryRealisation depth drvPath with
      | none => trivial
      | some r =>
          rw [hplain] at hmiss
          cases r with
          | error e =>
              have hmiss : resolveAfresh store evalStore xp deepQuery drvPath s =
                some (.error e) := hmiss
              show resolveDerivation store evalStore xp deepQuery drvPath s = _
              simp only [resolveDerivation, bind, Cached.bind, Cached.read, hlookup, hmiss]
          | ok r =>
              obtain ⟨s', heq, hs', hknown⟩ := hmiss
              refine ⟨{ s' with cache := emplace drvPath r.1 s'.cache }, ?_, ?_, hknown⟩
              · simp only [resolveDerivation, bind, Cached.bind, Cached.read, hlookup, heq]
                rfl
              · exact hs'.resolve hplain fun id hid => (hknown id).mpr (.inr hid)

theorem computes_deepQuery (depth : Nat) (drvPath : StorePath) (outputName : Bytes) :
    Computes store evalStore xp queryRealisation
      (deepQueryPartialDerivationOutputImpl store evalStore xp queryRealisation depth drvPath
        outputName)
      (plainOutput store evalStore xp queryRealisation depth drvPath outputName) := by
  induction depth generalizing drvPath outputName with
  | zero => exact Cached.computes_diverges _
  | succ depth ih =>
      rw [deepQueryPartialDerivationOutputImpl, plainOutput]
      refine compatible_computes.bind (compatible_computes.lift _) fun staticResult => ?_
      split
      · exact compatible_computes.pure _
      · refine compatible_computes.bind (computes_resolveDerivation ih drvPath) fun r => ?_
        dsimp only
        split
        · exact compatible_computes.lift _
        · exact computes_cachedRealisation _

/-! ### Acyclic stores -/

section

variable (store evalStore : DerivationStore) (xp : ExperimentalFeatureSettings)
  (queryRealisation : QueryRealisation)

/-- The path that a derived path stands for, found by plain recursion. -/
inductive LeadsTo : SingleDerivedPath → StorePath → Prop
  | opaquePath (path) : LeadsTo (.opaquePath path) path
  | built {drvPath path output path' depth asked} (h : LeadsTo drvPath path)
      (houtput : plainOutput store evalStore xp queryRealisation depth path output =
        .returned (some path') asked) :
      LeadsTo (.built drvPath output) path'

/-- The derived path, or one that it is built from, stands for the path. -/
inductive PassesThrough : SingleDerivedPath → StorePath → Prop
  | here {chain path} (h : LeadsTo store evalStore xp queryRealisation chain path) :
      PassesThrough chain path
  | inner {drvPath output path} (h : PassesThrough drvPath path) :
      PassesThrough (.built drvPath output) path

def Needs (drvPath path : StorePath) : Prop :=
  ∃ drv chain o, evalStore.readInvalidDerivation drvPath = .ok drv ∧ HasInput drv chain o ∧
    PassesThrough store evalStore xp queryRealisation chain path

def Acyclic : Prop :=
  ∃ rank : StorePath → Nat, ∀ drvPath path,
    Needs store evalStore xp queryRealisation drvPath path → rank path < rank drvPath

end

theorem ends_resolveSingleDerivedPath {depth : Nat} {chain : SingleDerivedPath}
    (h : ∀ path, PassesThrough store evalStore xp queryRealisation chain path → ∀ o,
      (plainOutput store evalStore xp queryRealisation depth path o).Ends) :
    (resolveSingleDerivedPath (plainOutput store evalStore xp queryRealisation depth)
      chain).Ends ∧
      ∀ path asked, resolveSingleDerivedPath (plainOutput store evalStore xp queryRealisation depth)
        chain = .returned (some path) asked →
          LeadsTo store evalStore xp queryRealisation chain path := by
  induction chain with
  | opaquePath path =>
      refine ⟨fun h => (nomatch h), fun path' asked heq => ?_⟩
      cases heq
      exact .opaquePath path
  | built drvPath output ih =>
      obtain ⟨hends, hleads⟩ := ih fun path hpath => h path (.inner hpath)
      rw [resolveSingleDerivedPath]
      match hinner : resolveSingleDerivedPath
          (plainOutput store evalStore xp queryRealisation depth) drvPath with
      | none => exact absurd hinner hends
      | some (.error e) => exact ⟨fun h => (nomatch h), fun _ _ h => nomatch h⟩
      | some (.ok (none, asked)) => exact ⟨fun h => (nomatch h), fun _ _ h => nomatch h⟩
      | some (.ok (some innerPath, asked)) =>
          have hlead := hleads innerPath asked hinner
          have houter := h innerPath (.inner (.here hlead)) output
          refine ⟨fun heq => houter (Noted.prepend_eq_diverges.mp heq), fun path asked' heq => ?_⟩
          match hout : plainOutput store evalStore xp queryRealisation depth innerPath output with
          | none => exact absurd hout houter
          | some (.error e) =>
              have heq : Noted.prepend asked (plainOutput store evalStore xp queryRealisation depth
                innerPath output) = .returned (some path) asked' := heq
              rw [hout] at heq
              cases heq
          | some (.ok (path', asked'')) =>
              have heq : Noted.prepend asked (plainOutput store evalStore xp queryRealisation depth
                innerPath output) = .returned (some path) asked' := heq
              rw [hout] at heq
              cases heq
              exact .built hlead hout

theorem ends_queryInput {depth : Nat} {chain : SingleDerivedPath} (o : Bytes)
    (h : ∀ path, PassesThrough store evalStore xp queryRealisation chain path → ∀ o,
      (plainOutput store evalStore xp queryRealisation depth path o).Ends) :
    (queryInput (plainOutput store evalStore xp queryRealisation depth) chain o).Ends := by
  obtain ⟨hends, hleads⟩ := ends_resolveSingleDerivedPath h
  rw [queryInput]
  match hchain : resolveSingleDerivedPath
      (plainOutput store evalStore xp queryRealisation depth) chain with
  | none => exact absurd hchain hends
  | some (.error e) => exact fun h => nomatch h
  | some (.ok (none, asked)) => exact fun h => nomatch h
  | some (.ok (some path, asked)) =>
      exact fun heq => h path (.here (hleads path asked hchain)) o
        (Noted.prepend_eq_diverges.mp heq)

theorem ends_resolveAfresh
    {deepQuery : StorePath → Bytes → Noted DrvOutput Error (Option StorePath)}
    {drvPath : StorePath}
    (h : ∀ drv, evalStore.readInvalidDerivation drvPath = .ok drv → ∀ chain o,
      HasInput drv chain o → (queryInput deepQuery chain o).Ends) :
    (resolveAfresh store evalStore xp deepQuery drvPath).Ends := by
  rw [resolveAfresh]
  cases hread : evalStore.readInvalidDerivation drvPath with
  | error e => exact fun h => nomatch h
  | ok drv =>
      rw [Noted.lift_ok_bind]
      have hinputs : (resolveInputs store xp deepQuery drv).Ends :=
        (related_resolveInputs Noted.compatible_ends drv fun chain o hinput =>
          ⟨rfl, h drv hread chain o hinput⟩).2
      exact Noted.ends_bind hinputs fun drv => Noted.ends_bind (Noted.ends_lift _) fun _ =>
        Noted.ends_pure _

theorem ends_plainOutput {depth : Nat} {drvPath : StorePath}
    (h : (plainResolve store evalStore xp queryRealisation depth drvPath).Ends)
    (outputName : Bytes) :
    (plainOutput store evalStore xp queryRealisation (depth + 1) drvPath outputName).Ends := by
  rw [plainOutput]
  refine Noted.ends_bind (Noted.ends_lift _) fun staticResult => ?_
  split
  · exact Noted.ends_pure _
  · refine Noted.ends_bind h fun r => ?_
    dsimp only
    split
    · exact Noted.ends_lift _
    · exact fun h => nomatch h

theorem ends_plainResolve {rank : StorePath → Nat} (hrank : ∀ drvPath path,
    Needs store evalStore xp queryRealisation drvPath path → rank path < rank drvPath)
    {depth : Nat} {drvPath : StorePath} (h : rank drvPath ≤ depth) :
    (plainResolve store evalStore xp queryRealisation depth drvPath).Ends := by
  induction depth generalizing drvPath with
  | zero =>
      refine ends_resolveAfresh fun drv hread chain o hinput => ends_queryInput o ?_
      intro path hpath
      have hlt := hrank drvPath path ⟨drv, chain, o, hread, hinput, hpath⟩
      exact absurd hlt (by omega)
  | succ depth ih =>
      refine ends_resolveAfresh fun drv hread chain o hinput => ends_queryInput o ?_
      intro path hpath
      have hlt := hrank drvPath path ⟨drv, chain, o, hread, hinput, hpath⟩
      exact ends_plainOutput (ih (by omega))

end Runs

end Nix.Store.OutputQueries
