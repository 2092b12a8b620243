import Nix.Store.QueryMissingAccounts

/-!
Which results of a query account for all that is missing of its targets.
-/

set_option linter.dupNamespace false

namespace Nix.Store.QueryMissing

open Util.Types Util.Closure Lib.Results Lib.SortedList Store.Path Store.PathInfo Store.DerivedPaths
  Store.Derivations Store.OutputQueries
open Store.DerivationResolving (caFeatures)

section

variable (env : Env)

/-- The path of an output that the store knows, or else that of the first realisation. -/
def Env.knownPath (drvPath : StorePath) (outputName : Bytes) : Except Error (Option StorePath) := do
  let outputMap ← env.queryPartialDerivationOutputMap drvPath
  match outputMap.find? outputName with
  | some (some path) => return some path
  | _ => firstRealisation env.substituters ⟨drvPath, outputName⟩

def Env.Wanted (drvPath : StorePath) (outputs : OutputsSpec) (outputName : Bytes) : Prop :=
  (∃ drv, env.store.readInvalidDerivation drvPath = .ok drv ∧ outputName ∈ outputNames drv) ∧
    OutputsSpec.contains outputs outputName = true

def Env.OutputsValid (drvPath : StorePath) (outputs : OutputsSpec) : Prop :=
  ∀ outputName, env.Wanted drvPath outputs outputName →
    ∃ path, env.knownPath drvPath outputName = .ok (some path) ∧ env.isValidPath path = true

variable (res : MissingPaths)

/-- Every wanted output is known, and the invalid ones will be substituted. -/
def Env.OutputsSubstituted (drvPath : StorePath) (outputs : OutputsSpec) : Prop :=
  ∀ outputName, env.Wanted drvPath outputs outputName →
    ∃ path, env.knownPath drvPath outputName = .ok (some path) ∧
      (env.isValidPath path = false → path ∈ res.willSubstitute)

/-- The derivation will be built, and its inputs are accounted for. -/
def Env.DrvBuilt (accounted : StorePath → OutputsSpec → Prop) (drvPath : StorePath) : Prop :=
  drvPath ∈ res.willBuild ∧ ∀ drv, env.store.readInvalidDerivation drvPath = .ok drv →
    ∀ input ∈ drv.inputDrvs.elems, ∀ h : input.2.value.elems ≠ [],
      accounted input.1 (.names input.2.value h)

def Env.Accounts (accounted : StorePath → OutputsSpec → Prop) (drvPath : StorePath)
    (outputs : OutputsSpec) : Prop :=
  if env.isValidPath drvPath = true then
    env.OutputsValid drvPath outputs ∨ env.DrvBuilt res accounted drvPath ∨
      env.OutputsSubstituted res drvPath outputs
  else drvPath ∈ res.unknown

/-- The outputs are accounted for, and so are the inputs of derivations that will be built, and so
on. -/
def Env.AccountedFor (drvPath : StorePath) (outputs : OutputsSpec) : Prop :=
  ∃ accounted : StorePath → OutputsSpec → Prop, accounted drvPath outputs ∧
    ∀ drvPath outputs, accounted drvPath outputs → env.Accounts res accounted drvPath outputs

structure Env.AccountsForMissing (order : Order) (targets : List DerivedPath) : Prop where
  invalid : ∀ path, env.isValidPath path = true →
    path ∉ res.willSubstitute ∧ path ∉ res.unknown
  references : ∀ path ∈ res.willSubstitute, ∃ info,
    env.querySubstitutablePathInfo path none = .ok (some info) ∧ ∀ ref ∈ info.references,
      env.isValidPath ref = true ∨ ref ∈ res.willSubstitute ∨ ref ∈ res.unknown
  outputs : ∀ drvPath outputs, env.Visited order targets (.built (.opaquePath drvPath) outputs) →
    env.isValidPath drvPath = true → env.AccountedFor res drvPath outputs
  unique : ∀ order' targets' res', (∀ req, req ∈ targets ↔ req ∈ targets') →
    env.Returns order' targets' res' → res' = res

variable (order : Order) (targets : List DerivedPath)

def Env.MustBuild (drvPath : StorePath) : Prop :=
  ∃ outputs visit, env.Visited order targets (.built (.opaquePath drvPath) outputs) ∧
    env.getEdges order (.built (.opaquePath drvPath) outputs) = .ok visit ∧
      drvPath ∈ visit.found.willBuild

def Env.Substitutable (path : StorePath) : Prop :=
  ∃ info, env.querySubstitutablePathInfo path none = .ok (some info)

/-- Unless the derivation must be built, an invalid output by its known path is one of those to
fetch, or a visited target itself. -/
def Env.FetchesKnownPaths : Prop :=
  ∀ drvPath outputs, env.Visited order targets (.built (.opaquePath drvPath) outputs) →
    env.isValidPath drvPath = true → ¬env.MustBuild order targets drvPath →
      ∀ outputName path, env.Wanted drvPath outputs outputName →
        env.knownPath drvPath outputName = .ok (some path) → env.isValidPath path = false →
          env.Substitutable path ∧
            ((∃ toFetch, env.outputsToFetch drvPath outputs = .ok (true, toFetch) ∧
              path ∈ toFetch) ∨ env.Visited order targets (.opaquePath path))

end

variable {env : Env} {order : Order} {targets : List DerivedPath} {res : MissingPaths}

theorem exists_find?_assignRealisation {drvPath : StorePath} {outputs : OutputMap}
    {names : List Bytes} {outputName : Bytes} (h : ∃ path, outputs.find? outputName = some path) :
    ∃ path, (names.foldl (env.assignRealisation drvPath) outputs).find? outputName = some path := by
  induction names generalizing outputs with
  | nil => exact h
  | cons name names ih =>
      refine ih ?_
      have hassign : ∀ value, ∃ path, (outputs.assign name value).find? outputName = some path := by
        intro value
        rw [SortedMap.find?_assign]
        split
        · exact ⟨_, rfl⟩
        · exact h
      rw [Env.assignRealisation]
      split
      · exact hassign _
      · split
        · exact h
        · exact hassign _

theorem exists_find?_outputMap {drvPath : StorePath} {drv : Derivation} {outputMap : OutputMap}
    {outputName : Bytes} (hread : env.store.readInvalidDerivation drvPath = .ok drv)
    (hmap : env.queryPartialDerivationOutputMap drvPath = .ok outputMap)
    (hname : outputName ∈ outputNames drv) :
    ∃ path, outputMap.find? outputName = some path := by
  obtain ⟨outputs, hstatic, hmap⟩ := bind_eq_ok.mp hmap
  have hfind := (mem_outputNames_iff hread hstatic).mp hname
  split at hmap
  next =>
    obtain rfl := pure_eq_ok.mp hmap
    exact hfind
  next =>
    obtain ⟨_, -, hmap⟩ := bind_eq_ok.mp hmap
    obtain rfl := pure_eq_ok.mp hmap
    exact exists_find?_assignRealisation hfind

theorem knownPath_of_find? {drvPath path : StorePath} {outputMap : OutputMap} {outputName : Bytes}
    (hmap : env.queryPartialDerivationOutputMap drvPath = .ok outputMap)
    (hfind : outputMap.find? outputName = some (some path)) :
    env.knownPath drvPath outputName = .ok (some path) := by
  rw [Env.knownPath, hmap]
  simp only [bind, Except.bind, hfind]
  rfl

theorem knownPath_of_checkOutputs {drvPath : StorePath} {outputs : OutputsSpec}
    {outputMap : OutputMap} {toFetch : StorePathSet} {outputName : Bytes}
    (hmap : env.queryPartialDerivationOutputMap drvPath = .ok outputMap)
    (hcheck : env.checkOutputs outputs outputMap.elems .empty = (true, toFetch))
    (hwanted : env.Wanted drvPath outputs outputName) :
    ∃ path, env.knownPath drvPath outputName = .ok (some path) ∧
      (env.isValidPath path = false → path ∈ toFetch) := by
  obtain ⟨⟨drv, hread, hname⟩, hcontains⟩ := hwanted
  obtain ⟨value, hfind⟩ := exists_find?_outputMap hread hmap hname
  obtain ⟨path, rfl, hfetch⟩ :=
    (checkOutputs_spec hcheck).2 rfl _ (SortedMap.find?_eq_some.mp hfind)
  exact ⟨path, knownPath_of_find? hmap hfind, hfetch hcontains⟩

theorem exists_knownPath {drvPath : StorePath} {outputs : OutputsSpec} {toFetch : StorePathSet}
    {outputName : Bytes} (hfetch : env.outputsToFetch drvPath outputs = .ok (true, toFetch))
    (hwanted : env.Wanted drvPath outputs outputName) :
    ∃ path, env.knownPath drvPath outputName = .ok (some path) := by
  obtain ⟨outputMap, hmap, hfetch⟩ := bind_eq_ok.mp hfetch
  obtain ⟨drv, hread, hfetch⟩ := bind_eq_ok.mp hfetch
  obtain ⟨substitutes, -, hfind⟩ := bind_eq_ok.mp hfetch
  rw [Env.findOutputs] at hfind
  split at hfind
  next =>
    obtain ⟨_, -, hcheck⟩ := bind_eq_ok.mp hfind
    obtain ⟨⟨drv', hread', hname⟩, hcontains⟩ := hwanted
    obtain rfl := Except.ok.inj (hread.symm.trans hread')
    obtain ⟨path, hfirst, -⟩ := (checkRealisations_spec hcheck).2 outputName hname hcontains
    obtain ⟨value, hvalue⟩ := exists_find?_outputMap hread hmap hname
    cases value with
    | some path => exact ⟨path, knownPath_of_find? hmap hvalue⟩
    | none =>
        refine ⟨path, ?_⟩
        rw [Env.knownPath, hmap]
        simp only [bind, Except.bind, hvalue]
        exact hfirst
  next =>
    obtain ⟨path, hpath, -⟩ := knownPath_of_checkOutputs hmap (Except.ok.inj hfind) hwanted
    exact ⟨path, hpath⟩

inductive VisitOf (env : Env) : DerivedPath → Visit → Prop
  | validPath {path : StorePath} :
      env.isValidPath path = true → VisitOf env (.opaquePath path) {}
  | unknownPath {path : StorePath} : env.isValidPath path = false →
      env.querySubstitutablePathInfo path none = .ok none →
      VisitOf env (.opaquePath path) { found := { unknown := .ofList [path] } }
  | substituted {path : StorePath} {info : SubstitutablePathInfo} :
      env.isValidPath path = false →
      env.querySubstitutablePathInfo path none = .ok (some info) →
      VisitOf env (.opaquePath path) {
        found := {
          willSubstitute := .ofList [path]
          downloadSize := info.downloadSize
          narSize := info.narSize }
        edges := info.references.elems.map .opaquePath }
  | unknownDrv {drvPath : StorePath} {outputs : OutputsSpec} : env.isValidPath drvPath = false →
      VisitOf env (.built (.opaquePath drvPath) outputs)
        { found := { unknown := .ofList [drvPath] } }
  | planned {drvPath : StorePath} {outputs : OutputsSpec} {visit : Visit} :
      env.isValidPath drvPath = true → Plan env drvPath outputs visit →
      VisitOf env (.built (.opaquePath drvPath) outputs) visit
  | dynamic {drvPath : SingleDerivedPath} {output : Bytes} {outputs : OutputsSpec} :
      VisitOf env (.built (.built drvPath output) outputs) {}

theorem visitOf_getEdges {req : DerivedPath} {visit : Visit}
    (h : env.getEdges order req = .ok visit) : VisitOf env req visit := by
  cases req with
  | opaquePath path =>
      rw [Env.getEdges, Env.visitOpaque] at h
      split at h
      next hvalid =>
        cases h
        exact .validPath hvalid
      next hinvalid =>
        rw [Bool.not_eq_true] at hinvalid
        obtain ⟨answer, hanswer, h⟩ := bind_eq_ok.mp h
        cases answer with
        | none =>
            cases h
            exact .unknownPath hinvalid hanswer
        | some info =>
            cases h
            exact .substituted hinvalid hanswer
  | built drvPath outputs =>
      cases drvPath with
      | built drvPath output =>
          cases h
          exact .dynamic
      | opaquePath drvPath =>
          cases hvalid : env.isValidPath drvPath with
          | true => exact .planned hvalid (plan_of_visitBuilt hvalid h)
          | false =>
              rw [Env.getEdges, Env.visitBuilt, if_pos hvalid] at h
              cases h
              exact .unknownDrv hvalid

theorem Env.Returns.mem_iff (h : env.Returns order targets res)
    (part : MissingPaths → StorePathSet) (hempty : part {} = .empty)
    (hadd : ∀ res found, part (res.add found) = (part found).elems.foldl .insert (part res))
    {path : StorePath} : path ∈ part res ↔ ∃ req visit, env.Visited order targets req ∧
      env.getEdges order req = .ok visit ∧ path ∈ part visit.found := by
  obtain ⟨done, -, hvisited, rfl, hok⟩ := h.exists_done
  rw [mem_total hempty hadd]
  constructor
  · rintro ⟨req, hreq, hpath⟩
    obtain ⟨visit, hvisit⟩ := hok req hreq
    rw [Env.found, hvisit] at hpath
    exact ⟨req, visit, (hvisited req).mp hreq, hvisit, hpath⟩
  · rintro ⟨req, visit, hreq, hvisit, hpath⟩
    refine ⟨req, (hvisited req).mpr hreq, ?_⟩
    rw [Env.found, hvisit]
    exact hpath

theorem Env.Returns.exists_visit (h : env.Returns order targets res) {req : DerivedPath}
    (hreq : env.Visited order targets req) :
    ∃ visit, env.getEdges order req = .ok visit ∧ VisitOf env req visit ∧
      ∀ edge ∈ visit.edges, env.Visited order targets edge := by
  obtain ⟨done, -, hvisited, -, hok⟩ := h.exists_done
  obtain ⟨visit, hvisit⟩ := hok req ((hvisited req).mpr hreq)
  refine ⟨visit, hvisit, visitOf_getEdges hvisit, fun edge hedge => ?_⟩
  obtain ⟨a, ha, hpath⟩ := hreq.resolve_left List.not_mem_nil
  refine .inr ⟨a, ha, hpath.tail ⟨List.not_mem_nil, ?_⟩⟩
  simp only [Env.followed, hvisit]
  exact (order.edges_perm req visit.edges).mem_iff.mpr hedge

theorem mem_ofList_singleton {path path' : StorePath} :
    path ∈ (.ofList [path'] : StorePathSet) ↔ path = path' := by
  rw [SortedSet.mem_ofList, List.mem_singleton]

theorem Env.Returns.mem_willSubstitute (h : env.Returns order targets res) {path : StorePath} :
    path ∈ res.willSubstitute ↔ env.Visited order targets (.opaquePath path) ∧
      env.isValidPath path = false ∧ env.Substitutable path := by
  rw [h.mem_iff MissingPaths.willSubstitute rfl fun _ _ => rfl]
  constructor
  · rintro ⟨req, visit, hreq, hvisit, hpath⟩
    cases visitOf_getEdges hvisit with
    | validPath => cases hpath
    | unknownPath => cases hpath
    | substituted hinvalid hinfo =>
        obtain rfl := mem_ofList_singleton.mp hpath
        exact ⟨hreq, hinvalid, _, hinfo⟩
    | unknownDrv => cases hpath
    | planned _ hplan => cases hplan <;> cases hpath
    | dynamic => cases hpath
  · rintro ⟨hreq, hinvalid, info, hinfo⟩
    obtain ⟨visit, hvisit, -⟩ := h.exists_visit hreq
    refine ⟨_, visit, hreq, hvisit, ?_⟩
    rw [Env.getEdges, Env.visitOpaque, if_neg (by simp [hinvalid]), hinfo] at hvisit
    cases hvisit
    exact mem_ofList_singleton.mpr rfl

theorem Env.Returns.mem_willBuild (h : env.Returns order targets res) {drvPath : StorePath} :
    drvPath ∈ res.willBuild ↔ env.MustBuild order targets drvPath := by
  rw [h.mem_iff MissingPaths.willBuild rfl fun _ _ => rfl]
  constructor
  · rintro ⟨req, visit, hreq, hvisit, hpath⟩
    cases visitOf_getEdges hvisit with
    | validPath => cases hpath
    | unknownPath => cases hpath
    | substituted => cases hpath
    | unknownDrv => cases hpath
    | planned _ hplan =>
        cases hplan with
        | nothing => cases hpath
        | build hread =>
            obtain rfl := mem_ofList_singleton.mp hpath
            exact ⟨_, _, hreq, hvisit, hpath⟩
        | substitute => cases hpath
    | dynamic => cases hpath
  · rintro ⟨outputs, visit, hreq, hvisit, hpath⟩
    exact ⟨_, visit, hreq, hvisit, hpath⟩

theorem Env.Returns.mem_unknown (h : env.Returns order targets res) {path : StorePath} :
    path ∈ res.unknown ↔ env.isValidPath path = false ∧
      ((env.Visited order targets (.opaquePath path) ∧ ¬env.Substitutable path) ∨
        ∃ outputs, env.Visited order targets (.built (.opaquePath path) outputs)) := by
  rw [h.mem_iff MissingPaths.unknown rfl fun _ _ => rfl]
  constructor
  · rintro ⟨req, visit, hreq, hvisit, hpath⟩
    cases visitOf_getEdges hvisit with
    | validPath => cases hpath
    | unknownPath hinvalid hnone =>
        obtain rfl := mem_ofList_singleton.mp hpath
        refine ⟨hinvalid, .inl ⟨hreq, ?_⟩⟩
        rintro ⟨info, hinfo⟩
        cases hnone.symm.trans hinfo
    | substituted => cases hpath
    | unknownDrv hinvalid =>
        obtain rfl := mem_ofList_singleton.mp hpath
        exact ⟨hinvalid, .inr ⟨_, hreq⟩⟩
    | planned _ hplan => cases hplan <;> cases hpath
    | dynamic => cases hpath
  · rintro ⟨hinvalid, ⟨hreq, hnot⟩ | ⟨outputs, hreq⟩⟩
    · obtain ⟨visit, hvisit, hof, -⟩ := h.exists_visit hreq
      cases hof with
      | validPath hvalid => cases hvalid.symm.trans hinvalid
      | unknownPath => exact ⟨_, _, hreq, hvisit, mem_ofList_singleton.mpr rfl⟩
      | substituted _ hinfo => exact absurd ⟨_, hinfo⟩ hnot
    · obtain ⟨visit, hvisit, hof, -⟩ := h.exists_visit hreq
      cases hof with
      | unknownDrv => exact ⟨_, _, hreq, hvisit, mem_ofList_singleton.mpr rfl⟩
      | planned hvalid => cases hvalid.symm.trans hinvalid

theorem Env.Returns.opaque_cases (h : env.Returns order targets res) {path : StorePath}
    (hreq : env.Visited order targets (.opaquePath path)) :
    env.isValidPath path = true ∨ path ∈ res.willSubstitute ∨ path ∈ res.unknown := by
  cases hvalid : env.isValidPath path with
  | true => exact .inl rfl
  | false =>
      by_cases hsub : env.Substitutable path
      · exact .inr (.inl (h.mem_willSubstitute.mpr ⟨hreq, hvalid, hsub⟩))
      · exact .inr (.inr (h.mem_unknown.mpr ⟨hvalid, .inl ⟨hreq, hsub⟩⟩))

theorem built_mem_collectDerivedPaths {inputDrv : SingleDerivedPath} {node : ChildNode}
    (h : node.value.elems ≠ []) :
    .built inputDrv (.names node.value h) ∈ collectDerivedPaths inputDrv node := by
  obtain ⟨value, keys, child⟩ := node
  have hvalue : value.elems ≠ [] := h
  rw [collectDerivedPaths, dif_pos hvalue]
  exact List.mem_append_left _ (List.mem_singleton_self _)

theorem Env.Returns.drvBuilt (h : env.Returns order targets res) {drvPath : StorePath}
    (hbuild : env.MustBuild order targets drvPath) :
    env.DrvBuilt res (fun drvPath outputs =>
      env.Visited order targets (.built (.opaquePath drvPath) outputs)) drvPath := by
  refine ⟨h.mem_willBuild.mpr hbuild, fun drv hread input hinput hne => ?_⟩
  obtain ⟨outputs, visit, hreq, hvisit, hpath⟩ := hbuild
  obtain ⟨_, hvisit', hof, hedges⟩ := h.exists_visit hreq
  obtain rfl := Except.ok.inj (hvisit.symm.trans hvisit')
  cases hof with
  | unknownDrv => cases hpath
  | planned _ hplan =>
      cases hplan with
      | nothing => cases hpath
      | build hread' =>
          obtain rfl := Except.ok.inj (hread.symm.trans hread')
          refine hedges _ (List.mem_flatMap.mpr ⟨input, hinput, ?_⟩)
          exact built_mem_collectDerivedPaths hne
      | substitute => cases hpath

theorem Env.Returns.accounts (h : env.Returns order targets res)
    (hknown : env.FetchesKnownPaths order targets) {drvPath : StorePath} {outputs : OutputsSpec}
    (hreq : env.Visited order targets (.built (.opaquePath drvPath) outputs)) :
    env.Accounts res (fun drvPath outputs =>
      env.Visited order targets (.built (.opaquePath drvPath) outputs)) drvPath outputs := by
  rw [Env.Accounts]
  split
  next hvalid =>
    by_cases hbuild : env.MustBuild order targets drvPath
    · exact .inr (.inl (h.drvBuilt hbuild))
    obtain ⟨visit, hvisit, hof, hedges⟩ := h.exists_visit hreq
    cases hof with
    | unknownDrv hinvalid => cases hvalid.symm.trans hinvalid
    | planned _ hplan =>
        cases hplan with
        | nothing hmap hcheck =>
            refine .inl fun outputName hwanted => ?_
            obtain ⟨path, hpath, hfetch⟩ := knownPath_of_checkOutputs hmap hcheck hwanted
            refine ⟨path, hpath, ?_⟩
            cases hpathValid : env.isValidPath path with
            | true => rfl
            | false => exact absurd (hfetch hpathValid) (SortedSet.not_mem_empty path)
        | build => exact absurd ⟨_, _, hreq, hvisit, mem_ofList_singleton.mpr rfl⟩ hbuild
        | substitute hread htoFetch =>
            refine .inr (.inr fun outputName hwanted => ?_)
            obtain ⟨path, hpath⟩ := exists_knownPath htoFetch hwanted
            refine ⟨path, hpath, fun hinvalid => ?_⟩
            obtain ⟨hsub, hfetched⟩ :=
              hknown drvPath outputs hreq hvalid hbuild outputName path hwanted hpath hinvalid
            refine h.mem_willSubstitute.mpr ⟨?_, hinvalid, hsub⟩
            rcases hfetched with ⟨toFetch, htoFetch', hmem⟩ | hvisited
            · cases htoFetch.symm.trans htoFetch'
              exact hedges _ (List.mem_map_of_mem hmem)
            · exact hvisited
  next hinvalid =>
    rw [Bool.not_eq_true] at hinvalid
    exact h.mem_unknown.mpr ⟨hinvalid, .inr ⟨outputs, hreq⟩⟩

/-- No substituter of another store directory has something that is content-addressed there, at a
path of the store. -/
def Env.ForeignUnusable (env : Env) : Prop :=
  ∀ sub ∈ env.substituters, sub.dirs.storeDir ≠ env.store.dirs.storeDir →
    ∀ path info fileSize, sub.queryPathInfo path = .found info fileSize →
      env.usable sub info ≠ .ok true

theorem attempt_foreign {sub : Substituter} {path : StorePath} {info : SubstitutablePathInfo}
    (hsub : ∀ path info fileSize, sub.queryPathInfo path = .found info fileSize →
      env.usable sub info ≠ .ok true) : env.attempt sub path ≠ .ok (.done info) := by
  intro h
  rw [Env.attempt] at h
  split at h
  next => cases h
  next => cases h
  next info' fileSize hanswer =>
    have hunusable := hsub path info' fileSize hanswer
    split at h
    next husable => exact hunusable husable
    next => cases h
    next => split at h <;> cases h

theorem trySubstituters_without_ca {path : StorePath} {ca : ContentAddress}
    {info : SubstitutablePathInfo} {subs : List Substituter} {e e' : Option Error}
    (hforeign : ∀ sub ∈ subs, sub.dirs.storeDir ≠ env.store.dirs.storeDir →
      ∀ path info fileSize, sub.queryPathInfo path = .found info fileSize →
        env.usable sub info ≠ .ok true)
    (h : env.trySubstituters path (some ca) subs e = .ok (some info)) :
    env.trySubstituters path none subs e' = .ok (some info) := by
  induction subs generalizing e e' with
  | nil =>
      cases e with
      | none => cases h
      | some e =>
          rw [Env.trySubstituters] at h
          split at h <;> cases h
  | cons sub subs ih =>
      obtain ⟨hsub, hforeign⟩ := List.forall_mem_cons.mp hforeign
      obtain ⟨subPath, hpath, h⟩ := bind_eq_ok.mp h
      obtain ⟨made, -, hpath⟩ := bind_eq_ok.mp hpath
      by_cases hdir : sub.dirs.storeDir = env.store.dirs.storeDir
      · have hmade : made = path ∧ subPath = some path := by
          split at hpath
          next => cases hpath
          next hassert =>
            have heq : made = path := by
              by_contra hne
              exact hassert ⟨hdir, hne⟩
            exact ⟨heq, heq ▸ (Except.ok.inj hpath).symm⟩
        obtain ⟨-, rfl⟩ := hmade
        obtain ⟨attempt, hattempt, h⟩ := bind_eq_ok.mp h
        have hsame : env.subPath sub path none = .ok (some path) := by
          rw [Env.subPath, if_neg (not_not_intro hdir)]
        refine bind_eq_ok.mpr ⟨some path, hsame, bind_eq_ok.mpr ⟨attempt, hattempt, ?_⟩⟩
        cases attempt with
        | done info' => exact h
        | nextSubstituter => exact ih hforeign h
        | failed e'' => exact ih hforeign h
      · have hskip : env.subPath sub path none = .ok none := by
          rw [Env.subPath, if_pos hdir]
        refine bind_eq_ok.mpr ⟨none, hskip, ?_⟩
        cases subPath with
        | none => exact ih hforeign h
        | some subPath =>
            obtain ⟨attempt, hattempt, h⟩ := bind_eq_ok.mp h
            cases attempt with
            | done info' => exact absurd hattempt (attempt_foreign (hsub hdir))
            | nextSubstituter => exact ih hforeign h
            | failed e'' => exact ih hforeign h

theorem substitutable_of_ca (hforeign : env.ForeignUnusable) {path : StorePath}
    {ca : Option ContentAddress} {info : SubstitutablePathInfo}
    (h : env.querySubstitutablePathInfo path ca = .ok (some info)) :
    env.querySubstitutablePathInfo path none = .ok (some info) := by
  cases ca with
  | none => exact h
  | some ca =>
      rw [Env.querySubstitutablePathInfo] at h ⊢
      split at h
      next huse =>
        rw [if_pos huse]
        exact trySubstituters_without_ca hforeign h
      next => cases h

/-- The library with another output, which comes before the first. -/
def libWithBin : Derivation :=
  { lib with
    outputs := .assign (.assign .empty (str "out") (.caFloating .nixArchive .sha256)) (str "bin")
      (.caFloating .nixArchive .sha256) }

def oldOut : StorePath :=
  ⟨str "11111111111111111111111111111111" ++ str "-lib", checkBaseName_append_ofList (by decide)⟩

def newOut : StorePath :=
  ⟨str "22222222222222222222222222222222" ++ str "-lib", checkBaseName_append_ofList (by decide)⟩

/-- The store knows a path of `out` that is not valid, and none of `bin`. -/
def libEnv (substituters : List Substituter) : Env where
  store := { appStore with readInvalidDerivation := fun _ => .ok libWithBin }
  xp := caFeatures
  isValidPath path := path = libDrv || path = newOut
  queryRealisation id := if id.outputName = str "out" then some oldOut else none
  substituters := substituters
  workerSettings := ⟨true, false, false⟩
  allowSubstitutes _ := .ok true

/-- A substituter with another path of `out`. -/
def newOutSubstituter : Substituter where
  dirs := appStore.dirs
  queryPathInfo _ := .unavailable
  queryRealisation id := .ok (if id.outputName = str "out" then some newOut else none)

def asListed : Order where
  outputs _ l := l
  edges _ l := l
  outputs_perm _ l := .refl l
  edges_perm _ l := .refl l

def libOut : DerivedPath :=
  .built (.opaquePath libDrv) (.names (.ofList [str "out"]) (by decide))

theorem returns_libOut : (libEnv []).Returns asListed [libOut] { willBuild := .ofList [libDrv] } :=
  ⟨_, .next (e := .next) (.next (e := .returned libOut) (.next (e := .next)
    (.next (e := .next) .start trivial rfl) trivial rfl) trivial rfl) trivial rfl, rfl, rfl⟩

theorem eq_libDrv_of_visited {substituters : List Substituter} {drvPath : StorePath}
    {outputs : OutputsSpec} (hnone : (libEnv substituters).followed asListed libOut = [])
    (h : (libEnv substituters).Visited asListed [libOut] (.built (.opaquePath drvPath) outputs)) :
    drvPath = libDrv := by
  obtain ⟨a, ha, hpath⟩ := h.resolve_left List.not_mem_nil
  obtain rfl := List.mem_singleton.mp ha
  cases hpath.cases_head with
  | inl heq =>
      cases heq
      rfl
  | inr hnext =>
      obtain ⟨b, hb, -⟩ := hnext
      rw [hnone] at hb
      cases hb.2

end Nix.Store.QueryMissing
