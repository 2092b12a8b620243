import Mathlib.Algebra.Order.BigOperators.Group.List
import Mathlib.Data.List.Perm.Subperm
import Nix.Store.OutputPaths

/-!
Filling in the output paths of a derivation keeps the text whose hash the paths are made
of, unless a variable of an output is added to the environment.
-/

set_option linter.dupNamespace false

namespace Nix.Store.OutputPaths

open Util.Types Util.Hashes Util.BaseN Util.JsonValues Util.CanonPaths
open Nix.Lib
open Lib.Results Lib.SortedList Store.Path Store.PathInfo Store.ContentAddresses Store.StoreDirs
  Store.ATerms Store.DerivationOutputs Store.Derivations

def maskOutput : DerivationOutput → DerivationOutput
  | .inputAddressed _ => .deferred
  | o => o

section

variable {store : DerivationStore} {xp : ExperimentalFeatureSettings}

theorem unparseOutput_maskOutput (drvName : Bytes) (e : Bytes × DerivationOutput) :
    unparseOutput store.dirs xp true drvName (e.1, maskOutput e.2) =
      unparseOutput store.dirs xp true drvName e := by
  obtain ⟨k, o⟩ := e
  cases o <;> rfl

theorem Becomes.maskOutput_eq {o o' : DerivationOutput} (h : Becomes o o') :
    maskOutput o' = maskOutput o := by
  cases h with
  | same => rfl
  | filledIn path => rfl

theorem mapM_unparseOutput_congr {outputs outputs' : Outputs} {drvName : Bytes}
    (h : outputs.mapValues maskOutput = outputs'.mapValues maskOutput) :
    outputs.elems.mapM (unparseOutput store.dirs xp true drvName) =
      outputs'.elems.mapM (unparseOutput store.dirs xp true drvName) := by
  have hmask : ∀ outputs : Outputs,
      outputs.elems.mapM (unparseOutput store.dirs xp true drvName) =
        (outputs.mapValues maskOutput).elems.mapM (unparseOutput store.dirs xp true drvName) := by
    intro outputs
    rw [SortedMap.mapValues, List.mapM_map]
    exact congrArg (fun f => outputs.elems.mapM f)
      (funext fun e => (unparseOutput_maskOutput drvName e).symm)
  rw [hmask, hmask outputs', h]

def maskEnv (outputs : Outputs) (env : StringPairs) : StringPairs :=
  env.mapWithKey fun k v => if outputs.contains k then [] else v

theorem map_maskVariable (outputs : Outputs) (env : StringPairs) :
    env.elems.map (Derivation.maskVariable true outputs) = (maskEnv outputs env).elems := by
  simp [maskEnv, SortedMap.mapWithKey, Derivation.maskVariable]

def extraVariable (store : DerivationStore) : Option JsonObject → Except Error (Option Bytes)
  | none => .ok none
  | some attrs => (store.codec.dump attrs.toJson).map some

def addExtra (env : StringPairs) : Option Bytes → StringPairs
  | none => env
  | some text => insertPair env (envVarName, text)

theorem find?_addExtra (env : StringPairs) (extra : Option Bytes) (k : Bytes) :
    (addExtra env extra).find? k = (env.find? k).or (if envVarName = k then extra else none) := by
  cases extra with
  | none =>
    rw [addExtra, ite_self, Option.or_none]
  | some text =>
    rw [addExtra, insertPair, SortedMap.contains_eq_isSome]
    cases hfind : env.find? envVarName with
    | some v =>
      rw [Option.isSome_some, if_pos rfl]
      split
      next heq => rw [← heq, hfind, Option.some_or]
      next => rw [Option.or_none]
    | none =>
      rw [Option.isSome_none, if_neg (by simp), SortedMap.find?_assign]
      split
      next heq => rw [← heq, hfind, Option.none_or]
      next => rw [Option.or_none]

theorem checkKeyNotInUse_eq_ok {env : StringPairs} :
    checkKeyNotInUse env = .ok () ↔ env.find? envVarName = none := by
  rw [checkKeyNotInUse, SortedMap.contains_eq_isSome]
  cases env.find? envVarName <;> simp

theorem atermEnv_eq_ok {drv : Derivation} {env : StringPairs} :
    drv.atermEnv store = .ok env ↔ drv.env.find? envVarName = none ∧
      ∃ extra, extraVariable store drv.structuredAttrs = .ok extra ∧
        addExtra drv.env extra = env := by
  rw [Derivation.atermEnv, bind_eq_ok]
  constructor
  · rintro ⟨⟨⟩, hcheck, hrest⟩
    refine ⟨checkKeyNotInUse_eq_ok.mp hcheck, ?_⟩
    cases hattrs : drv.structuredAttrs with
    | none =>
      rw [hattrs] at hrest
      cases hrest
      exact ⟨none, rfl, rfl⟩
    | some attrs =>
      rw [hattrs] at hrest
      obtain ⟨text, htext, heq⟩ := bind_eq_ok.mp hrest
      cases heq
      exact ⟨some text, map_eq_ok.mpr ⟨text, htext, rfl⟩, rfl⟩
  · rintro ⟨hfree, extra, hextra, rfl⟩
    refine ⟨(), checkKeyNotInUse_eq_ok.mpr hfree, ?_⟩
    cases hattrs : drv.structuredAttrs with
    | none =>
      rw [hattrs] at hextra
      cases hextra
      rfl
    | some attrs =>
      rw [hattrs] at hextra
      obtain ⟨text, htext, rfl⟩ := map_eq_ok.mp hextra
      exact bind_eq_ok.mpr ⟨text, htext, rfl⟩

/-- The second environment differs from the first one in variables of the outputs, and has
the variables that the first one has. -/
structure FilledEnv (outputs : Outputs) (env env' : StringPairs) : Prop where
  others : ∀ k, outputs.contains k = false → env'.find? k = env.find? k
  kept : ∀ k, (env.find? k).isSome → (env'.find? k).isSome

theorem find?_maskEnv_addExtra (outputs : Outputs) (env : StringPairs) (extra : Option Bytes)
    (k : Bytes) : (maskEnv outputs (addExtra env extra)).find? k =
      ((env.find? k).or (if envVarName = k then extra else none)).map
        fun v => if outputs.contains k then [] else v := by
  rw [maskEnv, SortedMap.find?_mapWithKey, find?_addExtra]

theorem FilledEnv.find?_maskEnv {outputs : Outputs} {env env' : StringPairs}
    (h : FilledEnv outputs env env') {extra : Option Bytes} {k v : Bytes}
    (hfind : (maskEnv outputs (addExtra env extra)).find? k = some v) :
    (maskEnv outputs (addExtra env' extra)).find? k = some v := by
  rw [find?_maskEnv_addExtra] at hfind ⊢
  cases hout : outputs.contains k with
  | false => rwa [h.others k hout, ← hout]
  | true =>
    simp only [hout, if_true, Option.map_eq_some_iff] at hfind ⊢
    obtain ⟨w, hw, rfl⟩ := hfind
    cases henv : env.find? k with
    | some u =>
      obtain ⟨u', hu'⟩ := Option.isSome_iff_exists.mp (h.kept k (by rw [henv]; rfl))
      exact ⟨u', by rw [hu', Option.some_or], rfl⟩
    | none =>
      rw [henv, Option.none_or] at hw
      cases henv' : env'.find? k with
      | some u' => exact ⟨u', by rw [Option.some_or], rfl⟩
      | none => exact ⟨w, by rw [Option.none_or, hw], rfl⟩

theorem FilledEnv.maskEnv_eq {outputs : Outputs} {env env' : StringPairs}
    (h : FilledEnv outputs env env')
    (hback : ∀ k, (env'.find? k).isSome → (env.find? k).isSome) (extra : Option Bytes) :
    maskEnv outputs (addExtra env' extra) = maskEnv outputs (addExtra env extra) := by
  have hback' : FilledEnv outputs env' env := ⟨fun k hk => (h.others k hk).symm, hback⟩
  apply SortedMap.ext_find?
  intro k
  apply Option.ext
  intro v
  exact ⟨hback'.find?_maskEnv, h.find?_maskEnv⟩

end

theorem length_commaSeparated (items : List Bytes) :
    (items.map fun item => item.length + 1).sum =
      (commaSeparated items).length + if items = [] then 0 else 1 := by
  cases items with
  | nil => rfl
  | cons item items =>
    have htail : (items.map fun item => item.length + 1).sum =
        (items.flatMap (44 :: ·)).length := by
      rw [List.length_flatMap]
      rfl
    rw [List.map_cons, List.sum_cons, htail, commaSeparated, List.length_append,
      if_neg (List.cons_ne_nil _ _)]
    omega

theorem length_commaSeparated_lt {items items' : List Bytes} (hsub : List.Subperm items items')
    (hlen : items.length < items'.length) (hne : ∀ item ∈ items', item ≠ []) :
    (commaSeparated items).length < (commaSeparated items').length := by
  obtain ⟨item, hitem⟩ := hsub.exists_of_length_lt hlen
  obtain ⟨l, hperm, hl⟩ := hitem
  have hsum : ((item :: items).map fun item => item.length + 1).sum ≤
      (items'.map fun item => item.length + 1).sum := by
    rw [← (hperm.map fun item => item.length + 1).sum_eq]
    exact (hl.map _).sum_le_sum fun n _ => Nat.zero_le n
  have hmem : item ∈ items' := hl.subset (hperm.symm.subset List.mem_cons_self)
  have hpos := List.length_pos_of_ne_nil (hne item hmem)
  rw [List.map_cons, List.sum_cons, length_commaSeparated, length_commaSeparated,
    if_neg (List.ne_nil_of_mem hmem)] at hsum
  omega

theorem length_unparseEnv_lt {env env' : StringPairs}
    (h : ∀ k v, env.find? k = some v → env'.find? k = some v) {k : Bytes}
    (hk : env.find? k = none) (hk' : (env'.find? k).isSome) :
    (commaSeparated (env.elems.map unparseVariable)).length <
      (commaSeparated (env'.elems.map unparseVariable)).length := by
  have hsubset : env.elems ⊆ env'.elems := fun e he =>
    SortedMap.find?_eq_some.mp (h e.1 e.2 (SortedMap.find?_eq_some.mpr he))
  have hsub : List.Subperm env.elems env'.elems :=
    List.subperm_of_subset env.sorted.nodup hsubset
  obtain ⟨v, hv⟩ := Option.isSome_iff_exists.mp hk'
  have hlen : env.elems.length < env'.elems.length := by
    refine lt_of_le_of_ne hsub.length_le fun heq => ?_
    have hmem := (hsub.perm_of_length_le heq.ge).symm.subset (SortedMap.find?_eq_some.mp hv)
    rw [SortedMap.find?_eq_some.mpr hmem] at hk
    cases hk
  have hsub' : List.Subperm (env.elems.map unparseVariable) (env'.elems.map unparseVariable) := by
    obtain ⟨l, hperm, hl⟩ := hsub
    exact ⟨l.map unparseVariable, hperm.map _, hl.map _⟩
  refine length_commaSeparated_lt hsub' (by simpa using hlen) ?_
  intro item hitem
  obtain ⟨e, -, rfl⟩ := List.mem_map.mp hitem
  exact List.cons_ne_nil _ _

/-- What filling in changes. -/
structure FilledIn (drv drv' : Derivation) : Prop where
  frame : drv' = { drv with outputs := drv'.outputs, env := drv'.env }
  outputs : drv'.outputs.mapValues maskOutput = drv.outputs.mapValues maskOutput
  env : FilledEnv drv.outputs drv.env drv'.env

section

variable {store : DerivationStore} {xp : ExperimentalFeatureSettings} {drv drv' : Derivation}

theorem contains_congr {outputs outputs' : Outputs}
    (h : outputs.mapValues maskOutput = outputs'.mapValues maskOutput) :
    outputs.contains = outputs'.contains := by
  funext k
  have hfind := congrArg (fun m => (SortedMap.find? m k).isSome) h
  simp only [SortedMap.find?_mapValues, Option.isSome_map] at hfind
  rw [SortedMap.contains_eq_isSome, SortedMap.contains_eq_isSome, hfind]

theorem maskEnv_congr {outputs outputs' : Outputs}
    (h : outputs.mapValues maskOutput = outputs'.mapValues maskOutput) (env : StringPairs) :
    maskEnv outputs env = maskEnv outputs' env := by
  rw [maskEnv, maskEnv, contains_congr h]

theorem unparse_true_eq_ok {inputs : ChildNode.Map} {text : Bytes} :
    drv.unparse store xp true (some inputs) = .ok text ↔ ∃ lines env,
      drv.outputs.elems.mapM (unparseOutput store.dirs xp true drv.name) = .ok lines ∧
      drv.atermEnv store = .ok env ∧
      drv.unparseHead store lines (inputs.elems.map unparseInput) ++
        commaSeparated ((maskEnv drv.outputs env).elems.map unparseVariable) ++ str "])" = text := by
  rw [Derivation.unparse, bind_eq_ok]
  constructor
  · rintro ⟨lines, hlines, hrest⟩
    obtain ⟨env, henv, heq⟩ := bind_eq_ok.mp hrest
    rw [map_maskVariable] at heq
    exact ⟨lines, env, hlines, henv, Except.ok.inj heq⟩
  · rintro ⟨lines, env, hlines, henv, rfl⟩
    refine ⟨lines, hlines, bind_eq_ok.mpr ⟨env, henv, ?_⟩⟩
    rw [map_maskVariable]
    rfl

theorem FilledIn.unparseHead_eq (h : FilledIn drv drv') (lines inputs : List Bytes) :
    drv'.unparseHead store lines inputs = drv.unparseHead store lines inputs := by
  rw [h.frame]
  rfl

theorem FilledIn.mapM_unparseOutput_eq (h : FilledIn drv drv') :
    drv'.outputs.elems.mapM (unparseOutput store.dirs xp true drv'.name) =
      drv.outputs.elems.mapM (unparseOutput store.dirs xp true drv.name) := by
  have hname : drv'.name = drv.name := by rw [h.frame]
  rw [hname]
  exact mapM_unparseOutput_congr h.outputs

theorem FilledIn.structuredAttrs_eq (h : FilledIn drv drv') :
    drv'.structuredAttrs = drv.structuredAttrs := by rw [h.frame]

theorem FilledIn.unparse_eq_ok (h : FilledIn drv drv')
    (hback : ∀ k, (drv'.env.find? k).isSome → (drv.env.find? k).isSome) {inputs : ChildNode.Map}
    {text : Bytes} (htext : drv.unparse store xp true (some inputs) = .ok text) :
    drv'.unparse store xp true (some inputs) = .ok text := by
  obtain ⟨lines, env, hlines, henv, rfl⟩ := unparse_true_eq_ok.mp htext
  obtain ⟨hfree, extra, hextra, rfl⟩ := atermEnv_eq_ok.mp henv
  have hfree' : drv'.env.find? envVarName = none := by
    cases hfind : drv'.env.find? envVarName with
    | none => rfl
    | some v =>
      have hsome := hback envVarName (by rw [hfind]; rfl)
      rw [hfree] at hsome
      cases hsome
  refine unparse_true_eq_ok.mpr ⟨lines, addExtra drv'.env extra,
    h.mapM_unparseOutput_eq.trans hlines,
    atermEnv_eq_ok.mpr ⟨hfree', extra, h.structuredAttrs_eq ▸ hextra, rfl⟩, ?_⟩
  rw [h.unparseHead_eq, maskEnv_congr h.outputs, h.env.maskEnv_eq hback]

theorem FilledIn.length_unparse_lt (h : FilledIn drv drv') {k : Bytes}
    (hk : drv.env.find? k = none) (hk' : (drv'.env.find? k).isSome) {inputs : ChildNode.Map}
    {text text' : Bytes} (htext : drv.unparse store xp true (some inputs) = .ok text)
    (htext' : drv'.unparse store xp true (some inputs) = .ok text') :
    text.length < text'.length := by
  obtain ⟨lines, env, hlines, henv, rfl⟩ := unparse_true_eq_ok.mp htext
  obtain ⟨lines', env', hlines', henv', rfl⟩ := unparse_true_eq_ok.mp htext'
  obtain ⟨-, extra, hextra, rfl⟩ := atermEnv_eq_ok.mp henv
  obtain ⟨hfree, extra', hextra', rfl⟩ := atermEnv_eq_ok.mp henv'
  rw [h.mapM_unparseOutput_eq] at hlines'
  rw [h.structuredAttrs_eq] at hextra'
  obtain rfl := Except.ok.inj (hlines.symm.trans hlines')
  obtain rfl := Except.ok.inj (hextra.symm.trans hextra')
  have hkey : envVarName ≠ k := by
    rintro rfl
    rw [hfree] at hk'
    cases hk'
  have hlt := @length_unparseEnv_lt (maskEnv drv.outputs (addExtra drv.env extra))
    (maskEnv drv.outputs (addExtra drv'.env extra)) (fun _ _ => h.env.find?_maskEnv) k
    (by rw [find?_maskEnv_addExtra, hk, if_neg hkey]; rfl)
    (by rw [find?_maskEnv_addExtra, Option.isSome_map, if_neg hkey, Option.or_none]; exact hk')
  rw [h.unparseHead_eq, maskEnv_congr h.outputs]
  simp only [List.length_append]
  omega

variable {depth : Nat} {before after : DrvHashes} {m : Option DrvHashModulo} {hash : DrvHashModulo}

theorem contains_eq_false {outputs : Outputs} {k : Bytes} :
    outputs.contains k = false ↔ k ∉ outputs.elems.map Prod.fst := by
  rw [SortedMap.contains_eq_isSome, ← SortedMap.find?_eq_none]
  cases outputs.find? k <;> simp

theorem Filling.filledIn
    (h : Filling store xp depth drv before drv.outputs.elems ⟨drv', m⟩ after) :
    FilledIn drv drv' := by
  have hentry : ∀ k, k ∈ drv.outputs.elems.map Prod.fst → ∃ o o', Becomes o o' ∧
      drv.outputs.find? k = some o ∧ drv'.outputs.find? k = some o' ∧
      Right store.dirs xp m drv.name drv'.env k o' ∧
      (Pathless o' → drv'.env.find? k = drv.env.find? k) := by
    intro k hk
    obtain ⟨e, he, rfl⟩ := List.mem_map.mp hk
    obtain ⟨o', hbecomes, hfind, hright, hpathless⟩ := h.right e he
    exact ⟨e.2, o', hbecomes, SortedMap.find?_eq_some.mpr he, hfind, hright, hpathless⟩
  refine ⟨h.frame, ?_, ?_, ?_⟩
  · apply SortedMap.ext_find?
    intro k
    rw [SortedMap.find?_mapValues, SortedMap.find?_mapValues]
    by_cases hk : k ∈ drv.outputs.elems.map Prod.fst
    · obtain ⟨o, o', hbecomes, hfind, hfind', -⟩ := hentry k hk
      rw [hfind, hfind', Option.map_some, Option.map_some, hbecomes.maskOutput_eq]
    · exact congrArg _ (h.todo k hk).1
  · intro k hk
    exact (h.todo k (contains_eq_false.mp hk)).2
  · intro k hsome
    by_cases hk : k ∈ drv.outputs.elems.map Prod.fst
    · obtain ⟨o, o', -, -, -, hright, hpathless⟩ := hentry k hk
      cases o' with
      | inputAddressed path =>
        obtain ⟨_, _, _, henv⟩ := hright
        rw [henv]
        rfl
      | caFixed ca =>
        obtain ⟨_, _, henv⟩ := hright
        rw [henv]
        rfl
      | caFloating method hashAlgo => rwa [hpathless trivial]
      | deferred => rwa [hpathless trivial]
      | impure method hashAlgo => rwa [hpathless trivial]
    · have hsame : drv'.env.find? k = drv.env.find? k := (h.todo k hk).2
      rwa [hsame]

theorem Filling.hash_again
    (h : Filling store xp depth drv before drv.outputs.elems ⟨drv', some hash⟩ after)
    {e : Bytes × DerivationOutput} (he : e ∈ drv.outputs.elems) (hneeds : NeedsHash e.2)
    {ty : DerivationType} (hty : drv'.type = .ok ty) :
    (hash = .deferredDrv ∧ hashDerivationModulo store xp (pathDerivationModulo store xp depth) drv'
        true after = .ok (.deferredDrv, after)) ∨
      ∃ inputs2 text, hashInputs (pathDerivationModulo store xp depth) drv.name
          drv.inputDrvs.elems .empty before = .ok (some inputs2, after) ∧
        hashInputs (pathDerivationModulo store xp depth) drv'.name drv'.inputDrvs.elems .empty
          after = .ok (some inputs2, after) ∧
        drv.unparse store xp true (some inputs2) = .ok text ∧
        hash = .drvHash (store.dirs.hashString text) ∧
        ∀ later r, hashDerivationModulo store xp (pathDerivationModulo store xp depth) drv'
          true after = .ok (r, later) ↔ ∃ text',
            drv'.unparse store xp true (some inputs2) = .ok text' ∧
              r = .drvHash (store.dirs.hashString text') ∧ later = after := by
  obtain ⟨k, o⟩ := e
  obtain ⟨isDeferred, hkind⟩ := hneeds
  have hdrvTy : ∀ ty, drv.type = .ok ty → ty = .inputAddressed isDeferred := fun ty hty =>
    (Derivation.kind_of_type hty _ he).symm.trans hkind
  have hty' : ∃ isDeferred', drv'.type = .ok (.inputAddressed isDeferred') := by
    obtain ⟨o', hbecomes, hfind, -⟩ := h.right _ he
    have hkind' := Derivation.kind_of_type hty _ (SortedMap.find?_eq_some.mp hfind)
    rw [hty, ← hkind']
    cases hbecomes with
    | same => exact ⟨isDeferred, congrArg _ hkind⟩
    | filledIn path => exact ⟨false, rfl⟩
  obtain ⟨isDeferred', hty'⟩ := hty'
  have hname : drv'.name = drv.name := by rw [h.filledIn.frame]
  have hinputDrvs : drv'.inputDrvs = drv.inputDrvs := by rw [h.filledIn.frame]
  have hagain : ∀ {r}, hashInputs (pathDerivationModulo store xp depth) drv.name
      drv.inputDrvs.elems .empty before = .ok (r, after) →
      hashInputs (pathDerivationModulo store xp depth) drv'.name drv'.inputDrvs.elems .empty after =
        .ok (r, after) := by
    intro r hinputs
    rw [hname, hinputDrvs]
    exact hashInputs_again (caches_pathDerivationModulo depth) (recalls_pathDerivationModulo depth)
      hinputs (.refl _)
  cases hashDerivationModulo_eq_ok.mp (h.hash hash rfl) with
  | fixed hdrv => cases hdrvTy _ hdrv
  | floating hdrv => cases hdrvTy _ hdrv
  | impure hdrv => cases hdrvTy _ hdrv
  | deferred hdrv hinputs =>
    exact .inl ⟨rfl, hashDerivationModulo_eq_ok.mpr (.deferred hty' (hagain hinputs))⟩
  | regular hdrv hinputs htext =>
    refine .inr ⟨_, _, hinputs, hagain hinputs, htext, rfl, fun later r => ?_⟩
    rw [hashDerivationModulo_eq_ok]
    constructor
    · intro hhashed
      cases hhashed with
      | fixed hdrv' => rw [hty'] at hdrv'; cases hdrv'
      | floating hdrv' => rw [hty'] at hdrv'; cases hdrv'
      | impure hdrv' => rw [hty'] at hdrv'; cases hdrv'
      | deferred hdrv' hinputs' =>
        rw [hagain hinputs] at hinputs'
        cases hinputs'
      | regular hdrv' hinputs' htext' =>
        rw [hagain hinputs] at hinputs'
        cases hinputs'
        exact ⟨_, htext', rfl, rfl⟩
    · rintro ⟨text', htext', rfl, rfl⟩
      exact .regular hty' (hagain hinputs) htext'

end

end Nix.Store.OutputPaths
