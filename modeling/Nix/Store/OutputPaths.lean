import Nix.Store.DerivationHashes

set_option linter.dupNamespace false

namespace Nix.Store.OutputPaths

open Util.Types Util.Hashes Lib.SortedList
open Nix.Lib
open Lib.PrefixReader hiding bind_eq_ok pure_eq_ok
open Store.Path Store.PathInfo Store.ContentAddresses Store.StoreDirs Store.DerivationOutputs
  Store.Derivations

section

variable (dirs : StoreDirConfig)

/-- Set the variable of an output if it is missing or empty. -/
def fillVariable (outputName : Bytes) (actual : StorePath) (env : StringPairs) : StringPairs :=
  match env.find? outputName with
  | none => env.assign outputName (dirs.print actual)
  | some value => if value = [] then env.assign outputName (dirs.print actual) else env

/-- Fill in the variable of an output, if asked to, and check it. -/
def envHasRightPath (fillIn : Bool) (outputName : Bytes) (actual : StorePath)
    (env : StringPairs) : Except Error StringPairs :=
  let env := if fillIn then fillVariable dirs outputName actual env else env
  match env.find? outputName with
  | none => .error (simpleError
      "derivation has missing environment variable '%s', should be '%s' but is not present"
      [outputName, dirs.print actual])
  | some value =>
      if value ≠ dirs.print actual then .error (simpleError
        "derivation has incorrect environment variable '%s', should be '%s' but is actually '%s'"
        [outputName, dirs.print actual, value])
      else .ok env

end

/-- The derivation that is processed, and its hash modulo once it was needed. -/
structure Processing where
  drv : Derivation
  hashModulo : Option DrvHashModulo

section

variable (store : DerivationStore) (xp : ExperimentalFeatureSettings) (depth : Nat)

/-- The hash modulo of the derivation as it is when the hash is first needed. -/
def lazyHashModulo (s : Processing) : Hashing DrvHashModulo :=
  match s.hashModulo with
  | some h => pure h
  | none => hashDerivationModulo store xp (pathDerivationModulo store xp depth) s.drv true

def setEnv (s : Processing) (env : StringPairs) : Processing :=
  { s with drv := { s.drv with env := env } }

def setOutput (s : Processing) (outputName : Bytes) (output : DerivationOutput) : Processing :=
  { s with drv := { s.drv with outputs := s.drv.outputs.assign outputName output } }

/-- One round of the loop. A deferred output that is not filled in is only warned about. -/
def processOutput (fillIn : Bool) (drvName : Bytes) (s : Processing)
    (i : Bytes × DerivationOutput) : Hashing Processing :=
  match i.2 with
  | .inputAddressed path => do
      let h ← lazyHashModulo store xp depth s
      match h with
      | .drvHash drvHash => do
          let outPath ← fromExcept (store.dirs.makeOutputPath i.1 drvHash drvName)
          if path = outPath then do
            let env ← fromExcept (envHasRightPath store.dirs fillIn i.1 outPath s.drv.env)
            pure (setEnv ⟨s.drv, some h⟩ env)
          else throw (simpleError "derivation has incorrect output '%s', should be '%s'"
            [store.dirs.print path, store.dirs.print outPath])
      | .caOutputHashes _ => throw (.assertion "false")
      | .deferredDrv => throw (simpleError
          "derivation has incorrect output '%s', should be deferred" [store.dirs.print path])
  | .deferred => do
      let h ← lazyHashModulo store xp depth s
      match h with
      | .drvHash drvHash => do
          let outPath ← fromExcept (store.dirs.makeOutputPath i.1 drvHash drvName)
          if fillIn then do
            let env ← fromExcept (envHasRightPath store.dirs fillIn i.1 outPath s.drv.env)
            pure (setEnv (setOutput ⟨s.drv, some h⟩ i.1 (.inputAddressed outPath)) env)
          else pure ⟨s.drv, some h⟩
      | .caOutputHashes _ => throw (.assertion "false")
      | .deferredDrv => pure ⟨s.drv, some h⟩
  | .caFixed ca => do
      let path ← fromExcept (caFixedPath store.dirs xp ca drvName i.1)
      let env ← fromExcept (envHasRightPath store.dirs fillIn i.1 path s.drv.env)
      pure (setEnv s env)
  | .caFloating _ _ => pure s
  | .impure _ _ => pure s

def processDerivationOutputPaths (fillIn : Bool) (drv : Derivation) (drvName : Bytes) :
    Hashing Derivation := do
  let s ← drv.outputs.elems.foldlM (processOutput store xp depth fillIn drvName) ⟨drv, none⟩
  let _ ← fromExcept s.drv.type
  pure s.drv

def checkInvariants (drv : Derivation) : Hashing Unit := do
  let _ ← processDerivationOutputPaths store xp depth false drv drv.name
  pure ()

def fillInOutputPaths (drv : Derivation) : Hashing Derivation :=
  processDerivationOutputPaths store xp depth true drv drv.name

end

/-- The path of the output is made of the hash modulo. -/
def NeedsHash (o : DerivationOutput) : Prop :=
  ∃ isDeferred, DerivationOutput.kind o = .inputAddressed isDeferred

/-- The output and its variable are what the hash modulo asks for. -/
def Right (dirs : StoreDirConfig) (xp : ExperimentalFeatureSettings)
    (hashModulo : Option DrvHashModulo) (drvName : Bytes) (env : StringPairs)
    (outputName : Bytes) : DerivationOutput → Prop
  | .inputAddressed path => ∃ drvHash, hashModulo = some (.drvHash drvHash) ∧
      dirs.makeOutputPath outputName drvHash drvName = .ok path ∧
      env.find? outputName = some (dirs.print path)
  | .deferred => hashModulo = some .deferredDrv
  | .caFixed ca => ∃ path, caFixedPath dirs xp ca drvName outputName = .ok path ∧
      env.find? outputName = some (dirs.print path)
  | .caFloating _ _ => True
  | .impure _ _ => True

def Pathless : DerivationOutput → Prop
  | .inputAddressed _ => False
  | .caFixed _ => False
  | .caFloating _ _ => True
  | .deferred => True
  | .impure _ _ => True

section

variable {dirs : StoreDirConfig} {xp : ExperimentalFeatureSettings} {drvName outputName : Bytes}

theorem Right.congr {hashModulo hashModulo' : Option DrvHashModulo} {env env' : StringPairs}
    {o : DerivationOutput} (h : Right dirs xp hashModulo drvName env outputName o)
    (hhash : NeedsHash o → hashModulo' = hashModulo)
    (henv : env'.find? outputName = env.find? outputName) :
    Right dirs xp hashModulo' drvName env' outputName o := by
  cases o with
  | inputAddressed path => simpa only [Right, hhash ⟨_, rfl⟩, henv] using h
  | caFixed ca => simpa only [Right, henv] using h
  | caFloating method hashAlgo => trivial
  | deferred => simpa only [Right, hhash ⟨_, rfl⟩] using h
  | impure method hashAlgo => trivial

theorem envHasRightPath_of_find? {fillIn : Bool} {actual : StorePath} {env : StringPairs}
    (h : env.find? outputName = some (dirs.print actual)) :
    envHasRightPath dirs fillIn outputName actual env = .ok env := by
  have hfill : (if fillIn then fillVariable dirs outputName actual env else env) = env := by
    cases fillIn with
    | false => rfl
    | true => simp only [if_true, fillVariable, h, if_neg (print_ne_nil actual)]
  simp only [envHasRightPath, hfill, h, ne_eq, not_true_eq_false, if_false]

theorem find?_fillVariable {actual : StorePath} {env : StringPairs} {k : Bytes}
    (hk : k ≠ outputName) :
    (fillVariable dirs outputName actual env).find? k = env.find? k := by
  rw [fillVariable]
  split
  · exact SortedMap.find?_assign_of_ne hk.symm
  · split_ifs
    · exact SortedMap.find?_assign_of_ne hk.symm
    · rfl

theorem envHasRightPath_eq_ok {actual : StorePath} {env env' : StringPairs}
    (h : envHasRightPath dirs true outputName actual env = .ok env') :
    env'.find? outputName = some (dirs.print actual) ∧
      ∀ k, k ≠ outputName → env'.find? k = env.find? k := by
  simp only [envHasRightPath, if_true] at h
  split at h
  next => cases h
  next value hvalue =>
    split_ifs at h with hne
    cases h
    rw [not_not.mp hne] at hvalue
    exact ⟨hvalue, fun k hk => find?_fillVariable hk⟩

end

section

variable {store : DerivationStore} {xp : ExperimentalFeatureSettings} {depth : Nat}

theorem processOutput_of_right {fillIn : Bool} {drvName : Bytes} {s : Processing}
    {e : Bytes × DerivationOutput} {h : DrvHashModulo} {drvHashes : DrvHashes}
    (hright : Right store.dirs xp (some h) drvName s.drv.env e.1 e.2)
    (hhash : NeedsHash e.2 → lazyHashModulo store xp depth s drvHashes = .ok (h, drvHashes)) :
    ∃ m, (m = s.hashModulo ∨ m = some h) ∧
      processOutput store xp depth fillIn drvName s e drvHashes = .ok (⟨s.drv, m⟩, drvHashes) := by
  obtain ⟨k, o⟩ := e
  cases o with
  | inputAddressed path =>
    obtain ⟨drvHash, hh, hpath, henv⟩ := hright
    cases hh
    refine ⟨some (.drvHash drvHash), .inr rfl,
      PrefixReader.bind_eq_ok.mpr ⟨_, _, hhash ⟨_, rfl⟩, ?_⟩⟩
    refine PrefixReader.bind_eq_ok.mpr ⟨_, _, fromExcept_ok hpath _, ?_⟩
    rw [if_pos rfl]
    exact PrefixReader.bind_eq_ok.mpr ⟨_, _, fromExcept_ok (envHasRightPath_of_find? henv) _, rfl⟩
  | caFixed ca =>
    obtain ⟨path, hpath, henv⟩ := hright
    exact ⟨s.hashModulo, .inl rfl, PrefixReader.bind_eq_ok.mpr ⟨_, _, fromExcept_ok hpath _,
      PrefixReader.bind_eq_ok.mpr ⟨_, _, fromExcept_ok (envHasRightPath_of_find? henv) _, rfl⟩⟩⟩
  | caFloating method hashAlgo => exact ⟨s.hashModulo, .inl rfl, rfl⟩
  | deferred =>
    cases hright
    exact ⟨some .deferredDrv, .inr rfl,
      PrefixReader.bind_eq_ok.mpr ⟨_, _, hhash ⟨_, rfl⟩, rfl⟩⟩
  | impure method hashAlgo => exact ⟨s.hashModulo, .inl rfl, rfl⟩

theorem foldlM_processOutput_of_right {fillIn : Bool} {drvName : Bytes} {drv : Derivation}
    {l : List (Bytes × DerivationOutput)} {h : DrvHashModulo} {drvHashes : DrvHashes}
    (hright : ∀ e ∈ l, Right store.dirs xp (some h) drvName drv.env e.1 e.2)
    (hhash : ∀ e ∈ l, NeedsHash e.2 → hashDerivationModulo store xp
      (pathDerivationModulo store xp depth) drv true drvHashes = .ok (h, drvHashes))
    {m : Option DrvHashModulo} (hm : m = none ∨ m = some h) :
    ∃ m', l.foldlM (processOutput store xp depth fillIn drvName) ⟨drv, m⟩ drvHashes =
      .ok (⟨drv, m'⟩, drvHashes) := by
  induction l generalizing m with
  | nil => exact ⟨m, rfl⟩
  | cons e l ih =>
    have hlazy : NeedsHash e.2 →
        lazyHashModulo store xp depth ⟨drv, m⟩ drvHashes = .ok (h, drvHashes) := by
      intro hneeds
      rcases hm with rfl | rfl
      · exact hhash e (by simp) hneeds
      · rfl
    obtain ⟨m₁, hm₁, hstep⟩ := @processOutput_of_right store xp depth fillIn drvName ⟨drv, m⟩ e h
      drvHashes (hright e (by simp)) hlazy
    have hm₁' : m₁ = none ∨ m₁ = some h := by
      rcases hm₁ with rfl | rfl
      · exact hm
      · exact .inr rfl
    obtain ⟨m', hrest⟩ := ih (fun f hf => hright f (by simp [hf]))
      (fun f hf => hhash f (by simp [hf])) hm₁'
    exact ⟨m', PrefixReader.bind_eq_ok.mpr ⟨_, _, hstep, hrest⟩⟩

theorem process_of_right {fillIn : Bool} {drv : Derivation} {ty : DerivationType}
    {h : DrvHashModulo} {drvHashes : DrvHashes} (hty : drv.type = .ok ty)
    (hright : ∀ e ∈ drv.outputs.elems, Right store.dirs xp (some h) drv.name drv.env e.1 e.2)
    (hhash : ∀ e ∈ drv.outputs.elems, NeedsHash e.2 → hashDerivationModulo store xp
      (pathDerivationModulo store xp depth) drv true drvHashes = .ok (h, drvHashes)) :
    processDerivationOutputPaths store xp depth fillIn drv drv.name drvHashes =
      .ok (drv, drvHashes) := by
  obtain ⟨m, hfold⟩ := @foldlM_processOutput_of_right store xp depth fillIn drv.name drv
    drv.outputs.elems h drvHashes hright hhash none (.inl rfl)
  exact PrefixReader.bind_eq_ok.mpr ⟨_, _, hfold,
    PrefixReader.bind_eq_ok.mpr ⟨_, _, fromExcept_ok hty _, rfl⟩⟩

/-- What filling in makes of an output. -/
inductive Becomes : DerivationOutput → DerivationOutput → Prop
  | same (o : DerivationOutput) : Becomes o o
  | filledIn (path : StorePath) : Becomes .deferred (.inputAddressed path)

/-- What filling in an output does. -/
structure FillsIn (store : DerivationStore) (xp : ExperimentalFeatureSettings) (depth : Nat)
    (drvName : Bytes) (s : Processing) (e : Bytes × DerivationOutput) (drvHashes : DrvHashes)
    (o : DerivationOutput) (s' : Processing) (drvHashes' : DrvHashes) : Prop where
  frame : s'.drv = { s.drv with outputs := s'.drv.outputs, env := s'.drv.env }
  becomes : Becomes e.2 o
  right : Right store.dirs xp s'.hashModulo drvName s'.drv.env e.1 o
  output : s'.drv.outputs.find? e.1 = some o
  outputs : ∀ k, k ≠ e.1 → s'.drv.outputs.find? k = s.drv.outputs.find? k
  env : ∀ k, k ≠ e.1 → s'.drv.env.find? k = s.drv.env.find? k
  pathless : Pathless o → s'.drv.env.find? e.1 = s.drv.env.find? e.1
  noHash : ¬NeedsHash e.2 → s'.hashModulo = s.hashModulo ∧ drvHashes' = drvHashes
  hash : NeedsHash e.2 → ∃ h, s'.hashModulo = some h ∧
    lazyHashModulo store xp depth s drvHashes = .ok (h, drvHashes')

theorem needsHash_inputAddressed (path : StorePath) : NeedsHash (.inputAddressed path) := ⟨_, rfl⟩

theorem needsHash_deferred : NeedsHash .deferred := ⟨_, rfl⟩

theorem not_needsHash_caFixed (ca : ContentAddress) : ¬NeedsHash (.caFixed ca) := by
  rintro ⟨_, h⟩
  cases h

theorem not_needsHash_caFloating (method : ContentAddressMethod) (hashAlgo : HashAlgorithm) :
    ¬NeedsHash (.caFloating method hashAlgo) := by
  rintro ⟨_, h⟩
  cases h

theorem not_needsHash_impure (method : ContentAddressMethod) (hashAlgo : HashAlgorithm) :
    ¬NeedsHash (.impure method hashAlgo) := by
  rintro ⟨_, h⟩
  cases h

theorem fillsIn_of_processOutput {drvName : Bytes} {s s' : Processing}
    {e : Bytes × DerivationOutput} {drvHashes drvHashes' : DrvHashes}
    (hfind : s.drv.outputs.find? e.1 = some e.2)
    (h : processOutput store xp depth true drvName s e drvHashes = .ok (s', drvHashes')) :
    ∃ o, FillsIn store xp depth drvName s e drvHashes o s' drvHashes' := by
  obtain ⟨k, o⟩ := e
  cases o with
  | inputAddressed path =>
    obtain ⟨hm, _, hhash, hrest⟩ := PrefixReader.bind_eq_ok.mp h
    cases hm with
    | drvHash drvHash =>
      obtain ⟨outPath, _, hread, hrest⟩ := PrefixReader.bind_eq_ok.mp hrest
      obtain ⟨hpath, rfl⟩ := fromExcept_eq_ok.mp hread
      split_ifs at hrest with heq
      · obtain ⟨env, _, hread, hrest⟩ := PrefixReader.bind_eq_ok.mp hrest
        obtain ⟨henv, rfl⟩ := fromExcept_eq_ok.mp hread
        obtain ⟨rfl, rfl⟩ := PrefixReader.pure_eq_ok.mp hrest
        obtain ⟨hvalue, hothers⟩ := envHasRightPath_eq_ok henv
        subst heq
        exact ⟨.inputAddressed path, {
          frame := rfl
          becomes := .same _
          right := ⟨drvHash, rfl, hpath, hvalue⟩
          output := hfind
          outputs := fun _ _ => rfl
          env := hothers
          pathless := False.elim
          noHash := fun hno => absurd (needsHash_inputAddressed path) hno
          hash := fun _ => ⟨_, rfl, hhash⟩ }⟩
      · cases hrest
    | caOutputHashes hashes => cases hrest
    | deferredDrv => cases hrest
  | caFixed ca =>
    obtain ⟨path, _, hread, hrest⟩ := PrefixReader.bind_eq_ok.mp h
    obtain ⟨hpath, rfl⟩ := fromExcept_eq_ok.mp hread
    obtain ⟨env, _, hread, hrest⟩ := PrefixReader.bind_eq_ok.mp hrest
    obtain ⟨henv, rfl⟩ := fromExcept_eq_ok.mp hread
    obtain ⟨rfl, rfl⟩ := PrefixReader.pure_eq_ok.mp hrest
    obtain ⟨hvalue, hothers⟩ := envHasRightPath_eq_ok henv
    exact ⟨.caFixed ca, {
      frame := rfl
      becomes := .same _
      right := ⟨path, hpath, hvalue⟩
      output := hfind
      outputs := fun _ _ => rfl
      env := hothers
      pathless := False.elim
      noHash := fun _ => ⟨rfl, rfl⟩
      hash := fun hneeds => absurd hneeds (not_needsHash_caFixed ca) }⟩
  | caFloating method hashAlgo =>
    obtain ⟨rfl, rfl⟩ := PrefixReader.pure_eq_ok.mp h
    exact ⟨.caFloating method hashAlgo, {
      frame := rfl
      becomes := .same _
      right := trivial
      output := hfind
      outputs := fun _ _ => rfl
      env := fun _ _ => rfl
      pathless := fun _ => rfl
      noHash := fun _ => ⟨rfl, rfl⟩
      hash := fun hneeds => absurd hneeds (not_needsHash_caFloating method hashAlgo) }⟩
  | deferred =>
    obtain ⟨hm, _, hhash, hrest⟩ := PrefixReader.bind_eq_ok.mp h
    cases hm with
    | drvHash drvHash =>
      obtain ⟨outPath, _, hread, hrest⟩ := PrefixReader.bind_eq_ok.mp hrest
      obtain ⟨hpath, rfl⟩ := fromExcept_eq_ok.mp hread
      rw [if_pos rfl] at hrest
      obtain ⟨env, _, hread, hrest⟩ := PrefixReader.bind_eq_ok.mp hrest
      obtain ⟨henv, rfl⟩ := fromExcept_eq_ok.mp hread
      obtain ⟨rfl, rfl⟩ := PrefixReader.pure_eq_ok.mp hrest
      obtain ⟨hvalue, hothers⟩ := envHasRightPath_eq_ok henv
      exact ⟨.inputAddressed outPath, {
        frame := rfl
        becomes := .filledIn outPath
        right := ⟨drvHash, rfl, hpath, hvalue⟩
        output := SortedMap.find?_assign_self _ _ _
        outputs := fun _ hk => SortedMap.find?_assign_of_ne hk.symm
        env := hothers
        pathless := False.elim
        noHash := fun hno => absurd needsHash_deferred hno
        hash := fun _ => ⟨_, rfl, hhash⟩ }⟩
    | caOutputHashes hashes => cases hrest
    | deferredDrv =>
      obtain ⟨rfl, rfl⟩ := PrefixReader.pure_eq_ok.mp hrest
      exact ⟨.deferred, {
        frame := rfl
        becomes := .same _
        right := rfl
        output := hfind
        outputs := fun _ _ => rfl
        env := fun _ _ => rfl
        pathless := fun _ => rfl
        noHash := fun hno => absurd needsHash_deferred hno
        hash := fun _ => ⟨_, rfl, hhash⟩ }⟩
  | impure method hashAlgo =>
    obtain ⟨rfl, rfl⟩ := PrefixReader.pure_eq_ok.mp h
    exact ⟨.impure method hashAlgo, {
      frame := rfl
      becomes := .same _
      right := trivial
      output := hfind
      outputs := fun _ _ => rfl
      env := fun _ _ => rfl
      pathless := fun _ => rfl
      noHash := fun _ => ⟨rfl, rfl⟩
      hash := fun hneeds => absurd hneeds (not_needsHash_impure method hashAlgo) }⟩

/-- The state of the loop that fills in `drv`, after the outputs in `done`. -/
structure Filling (store : DerivationStore) (xp : ExperimentalFeatureSettings) (depth : Nat)
    (drv : Derivation) (before : DrvHashes) (done : List (Bytes × DerivationOutput))
    (s : Processing) (drvHashes : DrvHashes) : Prop where
  frame : s.drv = { drv with outputs := s.drv.outputs, env := s.drv.env }
  start : done = [] → s.drv = drv
  todo : ∀ k, k ∉ done.map Prod.fst →
    s.drv.outputs.find? k = drv.outputs.find? k ∧ s.drv.env.find? k = drv.env.find? k
  right : ∀ e ∈ done, ∃ o, Becomes e.2 o ∧ s.drv.outputs.find? e.1 = some o ∧
    Right store.dirs xp s.hashModulo drv.name s.drv.env e.1 o ∧
    (Pathless o → s.drv.env.find? e.1 = drv.env.find? e.1)
  noHash : s.hashModulo = none → drvHashes = before ∧ ∀ e ∈ done, ¬NeedsHash e.2
  hash : ∀ h, s.hashModulo = some h →
    hashDerivationModulo store xp (pathDerivationModulo store xp depth) drv true before =
      .ok (h, drvHashes)

theorem Becomes.eq_of_not_needsHash {o o' : DerivationOutput} (h : Becomes o o')
    (hno : ¬NeedsHash o) : o' = o := by
  cases h with
  | same => rfl
  | filledIn path => exact absurd needsHash_deferred hno

theorem type_of_hashDerivationModulo {f : StorePath → Hashing DrvHashModulo} {drv : Derivation}
    {maskOutputs : Bool} {h : DrvHashModulo} {drvHashes drvHashes' : DrvHashes}
    (hhash : hashDerivationModulo store xp f drv maskOutputs drvHashes = .ok (h, drvHashes')) :
    ∃ ty, drv.type = .ok ty := by
  cases hashDerivationModulo_eq_ok.mp hhash with
  | fixed hty hhashes => exact ⟨_, hty⟩
  | floating hty => exact ⟨_, hty⟩
  | impure hty => exact ⟨_, hty⟩
  | deferred hty hinputs => exact ⟨_, hty⟩
  | regular hty hinputs htext => exact ⟨_, hty⟩

variable {drv : Derivation} {before drvHashes drvHashes' : DrvHashes}
  {done : List (Bytes × DerivationOutput)} {s s' : Processing}

theorem Filling.lazyHashModulo_eq_ok (hs : Filling store xp depth drv before done s drvHashes)
    {e : Bytes × DerivationOutput} (hfind : s.drv.outputs.find? e.1 = some e.2)
    (hneeds : NeedsHash e.2) {h : DrvHashModulo}
    (hlazy : lazyHashModulo store xp depth s drvHashes = .ok (h, drvHashes')) :
    hashDerivationModulo store xp (pathDerivationModulo store xp depth) drv true before =
        .ok (h, drvHashes') ∧ (s.hashModulo = some h ∨ done = []) := by
  cases hm : s.hashModulo with
  | some h' =>
    rw [lazyHashModulo, hm] at hlazy
    obtain ⟨rfl, rfl⟩ := PrefixReader.pure_eq_ok.mp hlazy
    exact ⟨hs.hash _ hm, .inl rfl⟩
  | none =>
    rw [lazyHashModulo, hm] at hlazy
    obtain ⟨rfl, hnone⟩ := hs.noHash hm
    have hdone : done = [] := by
      cases hdone : done with
      | nil => rfl
      | cons f fs =>
        obtain ⟨o, hbecomes, hfound, -⟩ := hs.right f (by simp [hdone])
        have hno := hnone f (by simp [hdone])
        rw [hbecomes.eq_of_not_needsHash hno] at hfound
        obtain ⟨ty, hty⟩ := type_of_hashDerivationModulo hlazy
        have hkinds := Derivation.kind_of_type hty
        have hkind := (hkinds _ (SortedMap.find?_eq_some.mp hfound)).trans
          (hkinds _ (SortedMap.find?_eq_some.mp hfind)).symm
        obtain ⟨isDeferred, hkind'⟩ := hneeds
        exact absurd ⟨isDeferred, hkind.trans hkind'⟩ hno
    rw [hs.start hdone] at hlazy
    exact ⟨hlazy, .inr hdone⟩

theorem Filling.step (hs : Filling store xp depth drv before done s drvHashes)
    {e : Bytes × DerivationOutput} (hnew : e.1 ∉ done.map Prod.fst)
    (hfind : drv.outputs.find? e.1 = some e.2)
    (h : processOutput store xp depth true drv.name s e drvHashes = .ok (s', drvHashes')) :
    Filling store xp depth drv before (done ++ [e]) s' drvHashes' := by
  have hfind' := (hs.todo e.1 hnew).1.trans hfind
  obtain ⟨o, hfills⟩ := fillsIn_of_processOutput hfind' h
  have hne : ∀ f ∈ done, f.1 ≠ e.1 := fun f hf heq => hnew (heq ▸ List.mem_map_of_mem hf)
  -- The hash of the earlier outputs is the hash from now on.
  have hsame : done ≠ [] → ∀ f ∈ done, ∀ o', Becomes f.2 o' → NeedsHash o' →
      s'.hashModulo = s.hashModulo := by
    intro hdone f hf o' hbecomes hneeds'
    by_cases hneeds : NeedsHash e.2
    · obtain ⟨hm, hm', hlazy⟩ := hfills.hash hneeds
      rcases (hs.lazyHashModulo_eq_ok hfind' hneeds hlazy).2 with heq | hnil
      · rw [hm', heq]
      · exact absurd hnil hdone
    · exact (hfills.noHash hneeds).1
  refine ⟨?_, by simp, ?_, ?_, ?_, ?_⟩
  · rw [hfills.frame, hs.frame]
  · intro k hk
    rw [List.map_append, List.mem_append, not_or] at hk
    have hke : k ≠ e.1 := by simpa using hk.2
    rw [hfills.outputs k hke, hfills.env k hke]
    exact hs.todo k hk.1
  · intro f hf
    rcases List.mem_append.mp hf with hf | hf
    · obtain ⟨o', hbecomes, hfound, hright, henv⟩ := hs.right f hf
      refine ⟨o', hbecomes, (hfills.outputs _ (hne f hf)).trans hfound, ?_, fun hpathless =>
        (hfills.env _ (hne f hf)).trans (henv hpathless)⟩
      exact hright.congr (hsame (List.ne_nil_of_mem hf) f hf o' hbecomes) (hfills.env _ (hne f hf))
    · obtain rfl := List.mem_singleton.mp hf
      exact ⟨o, hfills.becomes, hfills.output, hfills.right, fun hpathless =>
        (hfills.pathless hpathless).trans (hs.todo _ hnew).2⟩
  · intro hm
    by_cases hneeds : NeedsHash e.2
    · obtain ⟨hm', heq, -⟩ := hfills.hash hneeds
      rw [hm] at heq
      cases heq
    · obtain ⟨hsame, rfl⟩ := hfills.noHash hneeds
      obtain ⟨hbefore, hnone⟩ := hs.noHash (hsame.symm.trans hm)
      refine ⟨hbefore, fun f hf => ?_⟩
      rcases List.mem_append.mp hf with hf | hf
      · exact hnone f hf
      · obtain rfl := List.mem_singleton.mp hf
        exact hneeds
  · intro hm heq
    by_cases hneeds : NeedsHash e.2
    · obtain ⟨hm', heq', hlazy⟩ := hfills.hash hneeds
      obtain rfl := Option.some.inj (heq.symm.trans heq')
      exact (hs.lazyHashModulo_eq_ok hfind' hneeds hlazy).1
    · obtain ⟨hsame, rfl⟩ := hfills.noHash hneeds
      exact hs.hash hm (hsame.symm.trans heq)

theorem Filling.run {l : List (Bytes × DerivationOutput)}
    (hs : Filling store xp depth drv before done s drvHashes)
    (helems : drv.outputs.elems = done ++ l)
    (h : l.foldlM (processOutput store xp depth true drv.name) s drvHashes = .ok (s', drvHashes')) :
    Filling store xp depth drv before drv.outputs.elems s' drvHashes' := by
  induction l generalizing done s drvHashes with
  | nil =>
    obtain ⟨rfl, rfl⟩ := PrefixReader.pure_eq_ok.mp h
    rw [helems, List.append_nil]
    exact hs
  | cons e l ih =>
    rw [List.foldlM_cons] at h
    obtain ⟨s₁, drvHashes₁, hstep, hrest⟩ := PrefixReader.bind_eq_ok.mp h
    have hkeys : (drv.outputs.elems.map Prod.fst).Nodup :=
      (strictlySorted_byKey.mp drv.outputs.sorted).nodup
    rw [helems, List.map_append, List.map_cons] at hkeys
    have hnew : e.1 ∉ done.map Prod.fst := fun hmem =>
      (List.nodup_append.mp hkeys).2.2 _ hmem _ (List.mem_cons_self) rfl
    have hfind : drv.outputs.find? e.1 = some e.2 := by
      apply SortedMap.find?_eq_some.mpr
      rw [helems]
      simp
    exact ih (hs.step hnew hfind hstep) (by simp [helems]) hrest

theorem filling_of_fillInOutputPaths {drv' : Derivation}
    (h : fillInOutputPaths store xp depth drv drvHashes = .ok (drv', drvHashes')) :
    ∃ m, Filling store xp depth drv drvHashes drv.outputs.elems ⟨drv', m⟩ drvHashes' ∧
      ∃ ty, drv'.type = .ok ty := by
  obtain ⟨s, _, hfold, hrest⟩ := PrefixReader.bind_eq_ok.mp h
  obtain ⟨ty, _, hread, hrest⟩ := PrefixReader.bind_eq_ok.mp hrest
  obtain ⟨hty, rfl⟩ := fromExcept_eq_ok.mp hread
  obtain ⟨rfl, rfl⟩ := PrefixReader.pure_eq_ok.mp hrest
  have hstart : Filling store xp depth drv drvHashes [] ⟨drv, none⟩ drvHashes := {
    frame := rfl
    start := fun _ => rfl
    todo := fun _ _ => ⟨rfl, rfl⟩
    right := by simp
    noHash := fun _ => ⟨rfl, by simp⟩
    hash := fun _ hm => by cases hm }
  exact ⟨s.hashModulo, hstart.run rfl hfold, ty, hty⟩

end

end Nix.Store.OutputPaths
