import Mathlib.Data.List.Induction
import Nix.Store.OutputQueries
import Nix.Store.PathInfoSignatures
import Nix.Util.Closure
import Nix.Util.ClosureVisits

/-!
What is missing of some targets: what will be built or substituted, and what is unknown.
-/

set_option linter.dupNamespace false

namespace Nix.Store.QueryMissing

open Util.Types Util.Hashes Util.Closure Lib.SortedList Lib.Transitions Store.Path Store.PathInfo
  Store.StoreDirs Store.DerivationOutputs Store.DerivedPaths Store.Derivations
  Store.ContentAddresses Store.OutputQueries

/-- What a substituter answers about a path. -/
inductive PathInfoAnswer
  /-- An info, with the size of its file if it is a `NarInfo`. -/
  | found (info : ValidPathInfo) (fileSize : Option UInt64)
  /-- `InvalidPath` or `SubstituterDisabled`. -/
  | unavailable
  | failed (e : Error)

structure Substituter where
  dirs : StoreDirConfig
  queryPathInfo : StorePath → PathInfoAnswer
  queryRealisation : DrvOutput → Except Error (Option StorePath)

structure WorkerSettings where
  useSubstitutes : Bool
  tryFallback : Bool
  alwaysAllowSubstitutes : Bool

structure SubstitutablePathInfo where
  deriver : Option StorePath
  references : StorePathSet
  downloadSize : UInt64
  narSize : UInt64

/-- A store with its substituters. `allowSubstitutes` is what the options of a derivation say, if
they can be read. -/
structure Env where
  store : DerivationStore
  xp : ExperimentalFeatureSettings
  isValidPath : StorePath → Bool
  queryRealisation : QueryRealisation
  substituters : List Substituter
  workerSettings : WorkerSettings
  allowSubstitutes : Derivation → Except Error Bool

/-- What comes of a substituter that is asked for a path. -/
inductive Attempt
  | done (info : SubstitutablePathInfo)
  | nextSubstituter
  | failed (e : Error)

variable (env : Env)

/-- Infos of another store directory are used only for what is content-addressed there. -/
def Env.usable (sub : Substituter) (info : ValidPathInfo) : Except Error Bool :=
  if sub.dirs.storeDir ≠ env.store.dirs.storeDir then do
    let contentAddressed ← info.isContentAddressed sub.dirs env.xp
    return contentAddressed && info.references.elems.isEmpty
  else .ok true

/-- The `try` block, which does not catch a failed assertion. -/
def Env.attempt (sub : Substituter) (subPath : StorePath) : Except Error Attempt :=
  match sub.queryPathInfo subPath with
  | .unavailable => .ok .nextSubstituter
  | .failed e => .ok (.failed e)
  | .found info fileSize =>
      match env.usable sub info with
      | .ok true => .ok (.done ⟨info.deriver, info.references, fileSize.getD 0, info.narSize⟩)
      | .ok false => .ok .nextSubstituter
      | .error e => if e.cls = .assertionFailure then .error e else .ok (.failed e)

/-- The path to ask for, if the substituter is asked at all. -/
def Env.subPath (sub : Substituter) (path : StorePath) (ca : Option ContentAddress) :
    Except Error (Option StorePath) :=
  match ca with
  | some ca => do
      let subPath ← env.store.dirs.makePathFromCA env.xp path.name
        (ContentAddressWithReferences.withoutRefs ca)
      if sub.dirs.storeDir = env.store.dirs.storeDir ∧ subPath ≠ path then
        throw (.assertion "subPath == path.first")
      return some subPath
  | none => .ok (if sub.dirs.storeDir ≠ env.store.dirs.storeDir then none else some path)

/-- The loop over the substituters. An exception of one of them counts only if it is the last. -/
def Env.trySubstituters (path : StorePath) (ca : Option ContentAddress) :
    List Substituter → Option Error → Except Error (Option SubstitutablePathInfo)
  | [], none => .ok none
  | [], some lastStoresException =>
      if env.workerSettings.tryFallback then .ok none else .error lastStoresException
  | sub :: subs, _ => do
      match ← env.subPath sub path ca with
      | none => Env.trySubstituters path ca subs none
      | some subPath =>
          match ← env.attempt sub subPath with
          | .done info => return some info
          | .nextSubstituter => Env.trySubstituters path ca subs none
          | .failed e => Env.trySubstituters path ca subs (some e)

/-- `querySubstitutablePathInfosAsync` for one path. -/
def Env.querySubstitutablePathInfo (path : StorePath) (ca : Option ContentAddress) :
    Except Error (Option SubstitutablePathInfo) :=
  if env.workerSettings.useSubstitutes then env.trySubstituters path ca env.substituters none
  else .ok none

/-- One round of the loop of `queryPartialDerivationOutputMapCA`, where each output is looked up
once. -/
def Env.assignRealisation (drvPath : StorePath) (outputs : OutputMap) (outputName : Bytes) :
    OutputMap :=
  match env.queryRealisation ⟨drvPath, outputName⟩ with
  | some outPath => outputs.assign outputName (some outPath)
  | none => if outputs.contains outputName then outputs else outputs.assign outputName none

def Env.queryPartialDerivationOutputMap (drvPath : StorePath) : Except Error OutputMap := do
  let outputs ← queryStaticPartialDerivationOutputMap env.store env.xp drvPath
  if !env.xp .caDerivations then return outputs
  else do
    let drv ← env.store.readInvalidDerivation drvPath
    return (drv.outputs.elems.map Prod.fst).foldl (env.assignRealisation drvPath) outputs

def OutputsSpec.contains (outputs : OutputsSpec) (outputName : Bytes) : Bool :=
  match outputs with
  | .all => true
  | .names outputs _ => outputName ∈ outputs

/-- The first loop over the outputs: whether all of their paths are known, and the invalid ones
that are wanted. -/
def Env.checkOutputs (outputs : OutputsSpec) :
    List (Bytes × Option StorePath) → StorePathSet → Bool × StorePathSet
  | [], invalid => (true, invalid)
  | (_, none) :: _, invalid => (false, invalid)
  | (outputName, some path) :: rest, invalid =>
      Env.checkOutputs outputs rest
        (if OutputsSpec.contains outputs outputName && !env.isValidPath path then
          invalid.insert path
        else invalid)

def firstRealisation : List Substituter → DrvOutput → Except Error (Option StorePath)
  | [], _ => .ok none
  | sub :: subs, id => do
      match ← sub.queryRealisation id with
      | some outPath => return some outPath
      | none => firstRealisation subs id

/-- The second loop over the outputs, which asks the substituters for their paths. -/
def Env.checkRealisations (drvPath : StorePath) (outputs : OutputsSpec) :
    List Bytes → StorePathSet → Except Error (Bool × StorePathSet)
  | [], invalid => .ok (true, invalid)
  | outputName :: outputNames, invalid =>
      if OutputsSpec.contains outputs outputName then do
        match ← firstRealisation env.substituters ⟨drvPath, outputName⟩ with
        | none => return (false, invalid)
        | some outPath =>
            Env.checkRealisations drvPath outputs outputNames
              (if env.isValidPath outPath then invalid else invalid.insert outPath)
      else Env.checkRealisations drvPath outputs outputNames invalid

def getDerivationCA (drv : Derivation) : Option ContentAddress :=
  match drv.outputs.find? (str "out") with
  | some (.caFixed ca) => some ca
  | _ => none

/-- The outputs that can be substituted, or nothing if one of them cannot. -/
def Env.trySubstitutes (ca : Option ContentAddress) :
    List StorePath → StorePathSet → Except Error (Option StorePathSet)
  | [], substitutable => .ok (some substitutable)
  | outPath :: outPaths, substitutable => do
      match ← env.querySubstitutablePathInfo outPath ca with
      | none => return none
      | some _ => Env.trySubstitutes ca outPaths (substitutable.insert outPath)

structure MissingPaths where
  willBuild : StorePathSet := .empty
  willSubstitute : StorePathSet := .empty
  unknown : StorePathSet := .empty
  downloadSize : UInt64 := 0
  narSize : UInt64 := 0

def MissingPaths.add (res found : MissingPaths) : MissingPaths where
  willBuild := found.willBuild.elems.foldl .insert res.willBuild
  willSubstitute := found.willSubstitute.elems.foldl .insert res.willSubstitute
  unknown := found.unknown.elems.foldl .insert res.unknown
  downloadSize := res.downloadSize + found.downloadSize
  narSize := res.narSize + found.narSize

/-- What a call of `getEdges` adds to the result, and what it returns. -/
structure Visit where
  found : MissingPaths := {}
  edges : List DerivedPath := []

def collectDerivedPaths : SingleDerivedPath → ChildNode → List DerivedPath
  | inputDrv, .mk value keys child =>
      (if h : value.elems ≠ [] then [.built inputDrv (.names value h)] else []) ++
        (List.finRange keys.elems.length).flatMap fun i =>
          collectDerivedPaths (.built inputDrv (keys.elems.get i)) (child i)

def mustBuildDrv (drvPath : StorePath) (drv : Derivation) : Visit where
  found := { willBuild := .ofList [drvPath] }
  edges := drv.inputDrvs.elems.flatMap fun (inputDrv, inputNode) =>
    collectDerivedPaths (.opaquePath inputDrv) inputNode

/-- In what order outputs are looked up and edges are followed. -/
structure Order where
  outputs : DerivedPath → List StorePath → List StorePath
  edges : DerivedPath → List DerivedPath → List DerivedPath
  outputs_perm : ∀ req l, (outputs req l).Perm l
  edges_perm : ∀ req l, (edges req l).Perm l

variable (order : Order)

def Env.substitutesAllowed (drv : Derivation) : Except Error Bool := do
  let allowSubstitutes ← env.allowSubstitutes drv
  return env.workerSettings.useSubstitutes &&
    (env.workerSettings.alwaysAllowSubstitutes || allowSubstitutes)

/-- The outputs whose paths are not known are looked up at the substituters, if these are used. -/
def Env.findOutputs (drvPath : StorePath) (drv : Derivation) (outputs : OutputsSpec)
    (substitutes : Bool) (known : Bool × StorePathSet) : Except Error (Bool × StorePathSet) :=
  if !known.1 && substitutes then do
    env.xp.require .caDerivations
    env.checkRealisations drvPath outputs (drv.outputs.elems.map Prod.fst) known.2
  else .ok known

/-- What is done about outputs that are not all known and valid. -/
def Env.planOutputs (drvPath : StorePath) (outputs : OutputsSpec)
    (known : Bool × StorePathSet) : Except Error Visit := do
  let drv ← env.store.readInvalidDerivation drvPath
  let substitutes ← env.substitutesAllowed drv
  let (knownOutputPaths, invalid) ← env.findOutputs drvPath drv outputs substitutes known
  if knownOutputPaths && substitutes then do
    match ← env.trySubstitutes (getDerivationCA drv)
        (order.outputs (.built (.opaquePath drvPath) outputs) invalid.elems) .empty with
    | none => return mustBuildDrv drvPath drv
    | some substitutable => return { edges := substitutable.elems.map .opaquePath }
  else return mustBuildDrv drvPath drv

def Env.visitBuilt (drvPath : StorePath) (outputs : OutputsSpec) : Except Error Visit :=
  if env.isValidPath drvPath = false then .ok { found := { unknown := .ofList [drvPath] } }
  else do
    let outputMap ← env.queryPartialDerivationOutputMap drvPath
    let known := env.checkOutputs outputs outputMap.elems .empty
    if known.1 && known.2.elems.isEmpty then return {}
    else env.planOutputs order drvPath outputs known

def Env.visitOpaque (path : StorePath) : Except Error Visit :=
  if env.isValidPath path then .ok {}
  else do
    match ← env.querySubstitutablePathInfo path none with
    | none => return { found := { unknown := .ofList [path] } }
    | some info => return {
        found := {
          willSubstitute := .ofList [path]
          downloadSize := info.downloadSize
          narSize := info.narSize }
        edges := info.references.elems.map .opaquePath }

def Env.getEdges : DerivedPath → Except Error Visit
  | .opaquePath path => env.visitOpaque path
  | .built (.opaquePath drvPath) outputs => env.visitBuilt order drvPath outputs
  | .built (.built _ _) _ => .ok {}

def Env.followed (req : DerivedPath) : List DerivedPath :=
  match env.getEdges order req with
  | .ok visit => order.edges req visit.edges
  | .error _ => []

structure Query where
  closure : State DerivedPath Error
  res : MissingPaths := {}

def maxConcurrent : Nat := 1024

/-- A step of a query that returns. What is thrown by a call of `getEdges` is thrown in the end,
so there is no result then. -/
def Env.step (q : Query) (e : Event DerivedPath Error) : Option Query :=
  match Util.Closure.step maxConcurrent (env.followed order) q.closure e with
  | none => none
  | some closure =>
      match e with
      | .next => some ⟨closure, q.res⟩
      | .returned req =>
          match env.getEdges order req with
          | .ok visit => some ⟨closure, q.res.add visit.found⟩
          | .error _ => none
      | .failed _ _ => none

def start (targets : List DerivedPath) : Query where
  closure := computeClosure targets []

def Env.Returns (targets : List DerivedPath) (res : MissingPaths) : Prop :=
  ∃ q, Reaches (env.step order) (fun _ _ => True) (start targets) q ∧
    q.closure.handled = [none] ∧ q.res = res

def Env.Visited (targets : List DerivedPath) (req : DerivedPath) : Prop :=
  Closed (env.followed order) targets [] req

/-!
What a query returns: what is found at the targets that are visited, each of them once.
-/

variable {env : Env} {order : Order} {targets : List DerivedPath} {q : Query} {res : MissingPaths}

def Env.found (env : Env) (order : Order) (req : DerivedPath) : MissingPaths :=
  match env.getEdges order req with
  | .ok visit => visit.found
  | .error _ => {}

def Env.total (env : Env) (order : Order) (reqs : List DerivedPath) : MissingPaths :=
  reqs.foldl (fun res req => res.add (env.found order req)) {}

theorem step_cases {q' : Query} {e : Event DerivedPath Error} (h : env.step order q e = some q') :
    Util.Closure.step maxConcurrent (env.followed order) q.closure e = some q'.closure ∧
      NoneFails q.closure e ∧
      ((e = .next ∧ q'.res = q.res) ∨
        ∃ req visit, e = .returned req ∧ env.getEdges order req = .ok visit ∧
          q'.res = q.res.add visit.found) := by
  rw [Env.step] at h
  cases hclosure : Util.Closure.step maxConcurrent (env.followed order) q.closure e with
  | none =>
      rw [hclosure] at h
      cases h
  | some closure =>
      rw [hclosure] at h
      cases e with
      | next =>
          cases h
          exact ⟨rfl, trivial, .inl ⟨rfl, rfl⟩⟩
      | returned req =>
          dsimp only at h
          split at h
          next visit hvisit =>
            cases h
            exact ⟨rfl, trivial, .inr ⟨req, visit, rfl, hvisit, rfl⟩⟩
          next => cases h
      | failed req ex => cases h

theorem reaches_closure
    (h : Reaches (env.step order) (fun _ _ => True) (start targets) q) :
    Reaches (Util.Closure.step maxConcurrent (env.followed order)) NoneFails
      (computeClosure targets []) q.closure := by
  induction h with
  | start => exact .start
  | next _ _ hstep ih =>
      obtain ⟨hclosure, hnone, -⟩ := step_cases hstep
      exact ih.next hnone hclosure

theorem exists_visits (h : Reaches (env.step order) (fun _ _ => True) (start targets) q) :
    ∃ done, q.closure.Visits done ∧ q.res = env.total order done ∧
      ∀ req ∈ done, ∃ visit, env.getEdges order req = .ok visit := by
  induction h with
  | start =>
      refine ⟨[], ?_, rfl, List.forall_mem_nil _⟩
      rw [start, computeClosure]
      split <;> exact ⟨List.nodup_nil, fun x => rfl⟩
  | next hs _ hstep ih =>
      obtain ⟨done, hvisits, hres, hok⟩ := ih
      obtain ⟨hclosure, hnone, hcases⟩ := step_cases hstep
      have hnext := hvisits.step (error_eq_none (reaches_closure hs)) hnone hclosure
      rcases hcases with ⟨rfl, heq⟩ | ⟨req, visit, rfl, hvisit, heq⟩
      · refine ⟨done, ?_, heq.trans hres, hok⟩
        rwa [Event.returned?, Option.toList_none, List.append_nil] at hnext
      · refine ⟨done ++ [req], hnext, ?_, ?_⟩
        · rw [heq, hres, Env.total, Env.total, List.foldl_append, List.foldl_cons, List.foldl_nil,
            Env.found, hvisit]
        · refine List.forall_mem_append.mpr ⟨hok, fun req' hreq' => ?_⟩
          exact ⟨visit, List.mem_singleton.mp hreq' ▸ hvisit⟩

theorem Env.Returns.exists_done (h : env.Returns order targets res) :
    ∃ done : List DerivedPath, done.Nodup ∧ (∀ req, req ∈ done ↔ env.Visited order targets req) ∧
      res = env.total order done ∧ ∀ req ∈ done, ∃ visit, env.getEdges order req = .ok visit := by
  obtain ⟨q, hq, hhandled, rfl⟩ := h
  obtain ⟨done, hvisits, hres, hok⟩ := exists_visits hq
  have hclosure := reaches_closure hq
  have hne : q.closure.handled ≠ [] := by
    rw [hhandled]
    exact List.cons_ne_nil _ _
  cases targets with
  | nil =>
      rcases posted_or_handled hclosure with hstart | hend
      · rw [hstart] at hne
        exact absurd rfl hne
      · rw [hend] at hvisits
        have hdone : done = [] := by
          refine List.eq_nil_iff_forall_not_mem.mpr fun req hreq => ?_
          have hcount := hvisits.count req
          have hpos := List.count_pos_iff.mpr hreq
          change done.count req + 0 + 0 = 0 at hcount
          omega
        subst hdone
        refine ⟨[], List.nodup_nil, fun req => ?_, hres, hok⟩
        refine iff_of_false List.not_mem_nil ?_
        rintro (hmem | ⟨_, hmem, _⟩)
        · cases hmem
        · cases hmem
  | cons target targets =>
      have hnew : ∃ x ∈ target :: targets, x ∉ ([] : List DerivedPath) :=
        ⟨target, List.mem_cons_self, List.not_mem_nil⟩
      rcases started_or_found (by decide) hnew hclosure with hstart | ⟨hran, hfound, hall⟩
      · rw [hstart] at hne
        exact absurd rfl hne
      · have hperm := hvisits.perm_done hran hne
        refine ⟨done, hperm.nodup_iff.mpr hvisits.nodup, fun req => ?_, hres, hok⟩
        rw [hperm.mem_iff]
        exact hfound.closed_iff hran hall (@stuck_of_handled _ _ _ maxConcurrent _ _ hran hne) req

theorem MissingPaths.add_right_comm (res found found' : MissingPaths) :
    (res.add found).add found' = (res.add found').add found := by
  have hsets : ∀ s t u : StorePathSet, u.elems.foldl .insert (t.elems.foldl .insert s) =
      t.elems.foldl .insert (u.elems.foldl .insert s) := by
    intro s t u
    refine SortedSet.ext fun x => ?_
    simp only [SortedSet.mem_foldl_insert]
    exact or_right_comm
  have hsizes : ∀ a b c : UInt64, a + b + c = a + c + b := fun a b c => by
    rw [UInt64.add_assoc, UInt64.add_comm b c, ← UInt64.add_assoc]
  rw [MissingPaths.add, MissingPaths.add, MissingPaths.add, MissingPaths.add,
    MissingPaths.mk.injEq]
  exact ⟨hsets _ _ _, hsets _ _ _, hsets _ _ _, hsizes _ _ _, hsizes _ _ _⟩

theorem Env.total_perm {reqs reqs' : List DerivedPath} (h : reqs.Perm reqs') :
    env.total order reqs = env.total order reqs' := by
  exact h.foldl_eq' (fun req _ req' _ res => MissingPaths.add_right_comm res _ _)
    ({} : MissingPaths)

theorem mem_total {part : MissingPaths → StorePathSet} {reqs : List DerivedPath} {path : StorePath}
    (hempty : part {} = .empty)
    (hadd : ∀ res found, part (res.add found) = (part found).elems.foldl .insert (part res)) :
    path ∈ part (env.total order reqs) ↔ ∃ req ∈ reqs, path ∈ part (env.found order req) := by
  induction reqs using List.reverseRecOn with
  | nil =>
      rw [Env.total, List.foldl_nil, hempty]
      simp
  | append_singleton reqs req ih =>
      rw [Env.total, List.foldl_append, List.foldl_cons, List.foldl_nil, hadd,
        SortedSet.mem_foldl_insert, ← Env.total, ← SortedSet.mem_def, ih]
      simp only [List.mem_append, List.mem_singleton, or_and_right, exists_or, exists_eq_left]

end Nix.Store.QueryMissing
