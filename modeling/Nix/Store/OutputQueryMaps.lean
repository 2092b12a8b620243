import Nix.Store.DerivationResolutions
import Nix.Store.OutputQueries

/-!
When the map of the outputs of a derivation has what is found for each of them.
-/

set_option linter.dupNamespace false

namespace Nix.Store.OutputQueries

open Util.Types Util.Hashes
open Nix.Util
open Nix.Lib
open Lib.SortedList Lib.Memo Lib.Results Store.Path Store.PathInfo Store.DerivationOutputs
  Store.DerivedPaths Store.Derivations Store.OutputPaths Store.DerivationResolving

variable {store evalStore : DerivationStore} {xp : ExperimentalFeatureSettings}
  {queryRealisation : QueryRealisation}

def outputNames (drv : Derivation) : List Bytes :=
  drv.outputs.elems.map Prod.fst

theorem names_fillInOutputPaths {depth : Nat} {basic resolved : Derivation}
    {before after : DrvHashes}
    (h : fillInOutputPaths store xp depth basic before = .ok (resolved, after)) :
    outputNames resolved = outputNames basic := by
  obtain ⟨m, hs, -⟩ := filling_of_fillInOutputPaths h
  have hkeys := congrArg (fun m => m.elems.map Prod.fst) hs.filledIn.outputs
  simp only [SortedMap.mapValues, List.map_map] at hkeys
  exact hkeys

theorem names_finishResolve {drv resolved : Derivation} {s : Resolution}
    (h : finishResolve store xp drv s = .ok resolved) :
    outputNames resolved = outputNames drv := by
  obtain ⟨basic, hbasic, h⟩ := bind_eq_ok.mp h
  obtain ⟨⟨resolved2, after⟩, hfill, h⟩ := bind_eq_ok.mp h
  obtain rfl := Except.ok.inj h
  refine (names_fillInOutputPaths hfill).trans ?_
  have hframe := (rewritten_of_applyRewrites hbasic).frame
  rw [outputNames, hframe, outputNames]

theorem names_resolveInputs
    {deepQuery : StorePath → Bytes → Noted DrvOutput Error (Option StorePath)}
    {drv drv' : Derivation} {asked : List DrvOutput}
    (h : resolveInputs store xp deepQuery drv = .returned drv' asked) :
    outputNames drv' = outputNames drv := by
  obtain ⟨resolves, _, _, -, h, -⟩ := Noted.bind_eq_returned h
  split at h
  · obtain ⟨r, _, _, hresolve, h, -⟩ := Noted.bind_eq_returned h
    cases r with
    | none =>
        cases h
        rfl
    | some resolved =>
        cases h
        obtain ⟨s, _, _, -, hresolve, -⟩ := Noted.bind_eq_returned hresolve
        cases s with
        | none => cases hresolve
        | some s =>
            obtain ⟨resolved2, _, _, hfinish, hresolve, -⟩ := Noted.bind_eq_returned hresolve
            cases hresolve
            exact names_finishResolve (Noted.lift_eq_returned hfinish)
  · cases h
    rfl

theorem names_plainResolve {depth : Nat} {drvPath resolvedDrvPath : StorePath}
    {drv drv' : Derivation} {asked : List DrvOutput}
    (hread : evalStore.readInvalidDerivation drvPath = .ok drv)
    (h : plainResolve store evalStore xp queryRealisation depth drvPath =
      .returned (drv', resolvedDrvPath) asked) : outputNames drv' = outputNames drv := by
  rw [plainResolve, resolveAfresh, hread, Noted.lift_ok_bind] at h
  obtain ⟨resolved, _, _, hresolve, h, -⟩ := Noted.bind_eq_returned h
  obtain ⟨path, _, _, -, h, -⟩ := Noted.bind_eq_returned h
  cases h
  exact names_resolveInputs hresolve

/-- What the map has for an output: an answer that is cached replaces the static path. -/
def answer (wasAsked : Bool) (outPath staticPath : Option StorePath) : Option StorePath :=
  if wasAsked then outPath else outPath.or staticPath

def isKnown (s : Caches) (id : DrvOutput) : Bool :=
  (lookup id s.resCache).isSome

theorem queryOutput_spec (drvPath : StorePath) (outputs : OutputMap) (outputName : Bytes)
    {s : Caches} (hs : Right store evalStore xp queryRealisation s) :
    ∃ outputs' s', queryOutput queryRealisation drvPath outputs outputName s =
        some (.ok (outputs', s')) ∧ Right store evalStore xp queryRealisation s' ∧
      (∀ id, id ≠ ⟨drvPath, outputName⟩ → isKnown s' id = isKnown s id) ∧
      ∀ k, outputs'.find? k = if outputName = k then
          some (answer (isKnown s ⟨drvPath, k⟩) (queryRealisation ⟨drvPath, k⟩)
            (outputs.find? k).join)
        else outputs.find? k := by
  cases hlookup : lookup ⟨drvPath, outputName⟩ s.resCache with
  | some outPath =>
      refine ⟨outputs.assign outputName outPath, s, ?_, hs, fun _ _ => rfl, fun k => ?_⟩
      · simp only [queryOutput, bind, Cached.bind, Cached.read, hlookup]
        rfl
      · rw [SortedMap.find?_assign]
        split
        next hk =>
          subst hk
          rw [isKnown, hlookup, Option.isSome_some, answer, if_pos rfl,
            ← hs.resCache _ _ hlookup]
        next => rfl
  | none =>
      have hknown : isKnown s ⟨drvPath, outputName⟩ = false := by
        rw [isKnown, hlookup]
        rfl
      have hother : ∀ id, id ≠ ⟨drvPath, outputName⟩ →
          isKnown (s.answer ⟨drvPath, outputName⟩ (queryRealisation ⟨drvPath, outputName⟩)) id =
            isKnown s id := by
        intro id hne
        rw [isKnown, Caches.answer, lookup_emplace, if_neg hne.symm, Option.or_none]
        rfl
      cases hanswer : queryRealisation ⟨drvPath, outputName⟩ with
      | some outPath =>
          refine ⟨outputs.assign outputName (some outPath), _, ?_, hs.answer ⟨drvPath, outputName⟩,
            hother, fun k => ?_⟩
          · simp only [queryOutput, bind, Cached.bind, Cached.read, hlookup, hanswer]
            rfl
          · rw [SortedMap.find?_assign]
            split
            next hk =>
              subst hk
              rw [hknown, answer, if_neg Bool.false_ne_true, hanswer]
              rfl
            next => rfl
      | none =>
          by_cases hcontains : outputs.contains outputName = true
          · refine ⟨outputs, _, ?_, hs.answer ⟨drvPath, outputName⟩, hother, fun k => ?_⟩
            · simp only [queryOutput, bind, Cached.bind, Cached.read, hlookup, hanswer, hcontains]
              rfl
            · split
              next hk =>
                subst hk
                rw [SortedMap.contains_eq_isSome, Option.isSome_iff_exists] at hcontains
                obtain ⟨path, hpath⟩ := hcontains
                rw [hknown, answer, if_neg Bool.false_ne_true, hanswer, hpath]
                rfl
              next => rfl
          · refine ⟨outputs.assign outputName none, _, ?_, hs.answer ⟨drvPath, outputName⟩, hother,
              fun k => ?_⟩
            · simp only [queryOutput, bind, Cached.bind, Cached.read, hlookup, hanswer, hcontains]
              rfl
            · rw [SortedMap.find?_assign]
              split
              next hk =>
                subst hk
                rw [SortedMap.contains_eq_isSome, Bool.not_eq_true,
                  Option.isSome_eq_false_iff, Option.isNone_iff_eq_none] at hcontains
                rw [hknown, answer, if_neg Bool.false_ne_true, hanswer, hcontains]
                rfl
              next => rfl

theorem queryPartialDerivationOutputMapCA_spec (drvPath : StorePath) {names : List Bytes}
    (hnodup : names.Nodup) (outputs : OutputMap) {s : Caches}
    (hs : Right store evalStore xp queryRealisation s) :
    ∃ outputs' s', queryPartialDerivationOutputMapCA queryRealisation drvPath names outputs s =
        some (.ok (outputs', s')) ∧
      ∀ k, outputs'.find? k = if k ∈ names then some (answer (isKnown s ⟨drvPath, k⟩)
          (queryRealisation ⟨drvPath, k⟩) (outputs.find? k).join)
        else outputs.find? k := by
  induction names generalizing outputs s with
  | nil => exact ⟨outputs, s, rfl, fun k => (if_neg List.not_mem_nil).symm⟩
  | cons name names ih =>
      rw [List.nodup_cons] at hnodup
      obtain ⟨outputs₁, s₁, hrun, hs₁, hknown, hfind⟩ := queryOutput_spec drvPath outputs name hs
      obtain ⟨outputs', s', hrest, hfind'⟩ := ih hnodup.2 outputs₁ hs₁
      refine ⟨outputs', s', ?_, fun k => ?_⟩
      · simp only [queryPartialDerivationOutputMapCA, bind, Cached.bind, hrun, hrest]
      · rw [hfind', hfind]
        by_cases hk : name = k
        · subst hk
          rw [if_neg hnodup.1, if_pos rfl, if_pos List.mem_cons_self]
        · have hne : (⟨drvPath, k⟩ : DrvOutput) ≠ ⟨drvPath, name⟩ := fun h =>
            hk (DrvOutput.mk.inj h).2.symm
          rw [if_neg hk, hknown _ hne]
          simp only [List.mem_cons, Ne.symm hk, false_or]

theorem keys_outputsAndOptPaths {drv : Derivation} {l : List (Bytes × Option StorePath)}
    (h : outputsAndOptPaths evalStore.dirs xp drv = .ok l) :
    l.map Prod.fst = outputNames drv := by
  rw [outputsAndOptPaths, mapM_eq_ok] at h
  rw [outputNames]
  generalize drv.outputs.elems = elems at h ⊢
  induction h with
  | nil => rfl
  | cons hpath _ ih =>
      obtain ⟨path, -, hpath⟩ := bind_eq_ok.mp hpath
      cases hpath
      rw [List.map_cons, List.map_cons, ih]

theorem mem_keys_iff {outputs : OutputMap} {o : Bytes} :
    o ∈ outputs.elems.map Prod.fst ↔ ∃ path, outputs.find? o = some path := by
  constructor
  · intro h
    obtain ⟨e, he, rfl⟩ := List.mem_map.mp h
    exact ⟨e.2, SortedMap.find?_eq_some.mpr he⟩
  · rintro ⟨path, h⟩
    exact List.mem_map.mpr ⟨(o, path), SortedMap.find?_eq_some.mp h, rfl⟩

theorem mem_outputNames_iff {drvPath : StorePath} {drv : Derivation} {outputs : OutputMap}
    (hread : evalStore.readInvalidDerivation drvPath = .ok drv)
    (h : queryStaticPartialDerivationOutputMap evalStore xp drvPath = .ok outputs) {o : Bytes} :
    o ∈ outputNames drv ↔ ∃ path, outputs.find? o = some path := by
  obtain ⟨drv', hread', h⟩ := bind_eq_ok.mp h
  obtain rfl := Except.ok.inj (hread.symm.trans hread')
  obtain ⟨l, hl, h⟩ := bind_eq_ok.mp h
  obtain rfl := Except.ok.inj h
  have hkeys := keys_outputsAndOptPaths hl
  have hsorted : StrictlySorted (byKey (compare : Bytes → Bytes → Ordering)) l := by
    rw [strictlySorted_byKey, hkeys]
    exact strictlySorted_byKey.mp drv.outputs.sorted
  have helems : (SortedMap.ofList l : OutputMap).elems = l := SortedMap.foldl_assign_sublist hsorted
  rw [← mem_keys_iff, helems, hkeys]

theorem queryStatic_of_find? {drvPath : StorePath} {outputs : OutputMap} {o : Bytes}
    {path : Option StorePath}
    (h : queryStaticPartialDerivationOutputMap evalStore xp drvPath = .ok outputs)
    (hfind : outputs.find? o = some path) :
    queryStaticPartialDerivationOutput evalStore xp drvPath o = .ok path := by
  rw [queryStaticPartialDerivationOutput, h]
  simp only [bind, Except.bind, hfind]
  rfl

theorem plainOutput_of_static {depth : Nat} {drvPath path : StorePath} {o : Bytes}
    (h : queryStaticPartialDerivationOutput evalStore xp drvPath o = .ok (some path)) :
    plainOutput store evalStore xp queryRealisation (depth + 1) drvPath o =
      .returned (some path) [] := by
  rw [plainOutput, h, Noted.lift_ok_bind]
  rfl

theorem plainOutput_of_dynamic {depth : Nat} {drvPath : StorePath} {o : Bytes}
    (hca : xp .caDerivations = true)
    (h : queryStaticPartialDerivationOutput evalStore xp drvPath o = .ok none) :
    plainOutput store evalStore xp queryRealisation (depth + 1) drvPath o =
      (plainResolve store evalStore xp queryRealisation depth drvPath >>= fun r =>
        if r.1.outputs.contains o = false then
          monadLift (.error (noOutput store.dirs drvPath o) : Except Error _)
        else do
          Noted.note ⟨r.2, o⟩
          pure (queryRealisation ⟨r.2, o⟩)) := by
  rw [plainOutput, h, Noted.lift_ok_bind, hca]
  rfl

theorem outputMap_of_failed {depth : Nat} {drvPath : StorePath} {outputs : OutputMap} {e : Error}
    (hca : xp .caDerivations = true)
    (hstatic : queryStaticPartialDerivationOutputMap evalStore xp drvPath = .ok outputs)
    (h : plainResolve store evalStore xp queryRealisation depth drvPath = .failed e) :
    deepQueryPartialDerivationOutputMap store evalStore xp queryRealisation depth drvPath =
      some (.error e) := by
  have hresolve := computes_resolveDerivation
    (@computes_deepQuery store evalStore xp queryRealisation depth) drvPath {} right_empty
  rw [h] at hresolve
  have hresolve : resolveDerivation store evalStore xp (deepQueryPartialDerivationOutputImpl store
      evalStore xp queryRealisation depth) drvPath {} = some (.error e) := hresolve
  rw [deepQueryPartialDerivationOutputMap, Cached.run, outputMap, hstatic]
  simp only [bind, Cached.bind, monadLift, MonadLift.monadLift, Except.map, hca, Bool.not_true,
    Bool.false_eq_true, if_false, hresolve, Option.map]

theorem outputMap_of_returned {depth : Nat} {drvPath resolvedDrvPath : StorePath}
    {outputs : OutputMap} {drv' : Derivation} {asked : List DrvOutput}
    (hca : xp .caDerivations = true)
    (hstatic : queryStaticPartialDerivationOutputMap evalStore xp drvPath = .ok outputs)
    (h : plainResolve store evalStore xp queryRealisation depth drvPath =
      .returned (drv', resolvedDrvPath) asked) :
    ∃ m, deepQueryPartialDerivationOutputMap store evalStore xp queryRealisation depth drvPath =
        some (.ok m) ∧
      ∀ k ∈ outputNames drv', m.find? k = some (answer (decide (⟨resolvedDrvPath, k⟩ ∈ asked))
        (queryRealisation ⟨resolvedDrvPath, k⟩) (outputs.find? k).join) := by
  have hresolve := computes_resolveDerivation
    (@computes_deepQuery store evalStore xp queryRealisation depth) drvPath {} right_empty
  rw [h] at hresolve
  obtain ⟨s, hrun, hs, hknown⟩ := hresolve
  have hnodup : (outputNames drv').Nodup :=
    (strictlySorted_byKey.mp drv'.outputs.sorted).nodup
  obtain ⟨m, s', hloop, hfind⟩ :=
    queryPartialDerivationOutputMapCA_spec resolvedDrvPath hnodup outputs hs
  refine ⟨m, ?_, fun k hk => ?_⟩
  · rw [deepQueryPartialDerivationOutputMap, Cached.run, outputMap, hstatic]
    rw [outputNames] at hloop
    simp only [bind, Cached.bind, monadLift, MonadLift.monadLift, Except.map, hca, Bool.not_true,
      Bool.false_eq_true, if_false, hrun, hloop, Option.map]
  · have hasked : isKnown s ⟨resolvedDrvPath, k⟩ = decide (⟨resolvedDrvPath, k⟩ ∈ asked) := by
      rw [Bool.eq_iff_iff, decide_eq_true_iff]
      exact (hknown ⟨resolvedDrvPath, k⟩).trans (or_iff_right (known_empty _))
    rw [hfind, if_pos hk, hasked]

section

variable (store evalStore : DerivationStore) (xp : ExperimentalFeatureSettings)
  (queryRealisation : QueryRealisation)

/-- The query of each output has the value of plain recursion. -/
def SinglesAgree (depth : Nat) (drvPath : StorePath) : Prop :=
  ∀ o, (plainOutput store evalStore xp queryRealisation depth drvPath o).Ends ∧
    deepQueryPartialDerivationOutput store evalStore xp queryRealisation depth drvPath o =
      (plainOutput store evalStore xp queryRealisation depth drvPath o).value

/-- The map has the value of plain recursion for every output of the derivation. -/
def MapAgrees (depth : Nat) (drvPath : StorePath) : Prop :=
  ∀ drv, evalStore.readInvalidDerivation drvPath = .ok drv → ∀ o ∈ outputNames drv,
    (deepQueryPartialDerivationOutputMap store evalStore xp queryRealisation depth drvPath).map
        (Except.map fun outputs => outputs.find? o) =
      (plainOutput store evalStore xp queryRealisation depth drvPath o).value.map (Except.map some)

/-- A realisation of a statically known output, if there is one, has its path. -/
def AnswersAgree (drvPath : StorePath) : Prop :=
  ∀ depth drv resolvedDrvPath asked o path outPath,
    plainResolve store evalStore xp queryRealisation depth drvPath =
      .returned (drv, resolvedDrvPath) asked →
    queryStaticPartialDerivationOutput evalStore xp drvPath o = .ok (some path) →
    queryRealisation ⟨resolvedDrvPath, o⟩ = some outPath → outPath = path

/-- A derivation with a statically known output is resolved, and no input asked for that output
of the resolved derivation without an answer. -/
def StaticKept (depth : Nat) (drvPath : StorePath) : Prop :=
  xp .caDerivations = true → ∀ o path,
    queryStaticPartialDerivationOutput evalStore xp drvPath o = .ok (some path) →
      ∃ drv resolvedDrvPath asked,
        plainResolve store evalStore xp queryRealisation depth drvPath =
          .returned (drv, resolvedDrvPath) asked ∧
        (queryRealisation ⟨resolvedDrvPath, o⟩ = none → ⟨resolvedDrvPath, o⟩ ∉ asked)

end

theorem find?_of_static {drvPath path : StorePath} {outputs : OutputMap} {o : Bytes}
    (h : queryStaticPartialDerivationOutputMap evalStore xp drvPath = .ok outputs)
    (hstatic : queryStaticPartialDerivationOutput evalStore xp drvPath o = .ok (some path)) :
    outputs.find? o = some (some path) := by
  cases hfind : outputs.find? o with
  | none =>
      rw [queryStaticPartialDerivationOutput, h] at hstatic
      simp only [bind, Except.bind, hfind] at hstatic
      cases hstatic
  | some path' =>
      rw [queryStatic_of_find? h hfind] at hstatic
      rw [Except.ok.inj hstatic]

theorem answer_eq_static {wasAsked : Bool} {outPath : Option StorePath} {path : StorePath}
    (h : ∀ p, outPath = some p → p = path) :
    answer wasAsked outPath (some path) = some path ↔ (outPath = none → wasAsked = false) := by
  cases outPath with
  | none => cases wasAsked <;> simp [answer]
  | some p =>
      obtain rfl := h p rfl
      cases wasAsked <;> simp [answer]

theorem answer_none (wasAsked : Bool) (outPath : Option StorePath) :
    answer wasAsked outPath none = outPath := by
  cases wasAsked <;> cases outPath <;> rfl

section

variable {depth : Nat} {drvPath : StorePath}

theorem mapAgrees_of_returned {resolvedDrvPath : StorePath} {drv' : Derivation}
    {asked : List DrvOutput} {outputs : OutputMap}
    (hca : xp .caDerivations = true)
    (hanswers : AnswersAgree store evalStore xp queryRealisation drvPath)
    (hstatic : queryStaticPartialDerivationOutputMap evalStore xp drvPath = .ok outputs)
    (h : plainResolve store evalStore xp queryRealisation depth drvPath =
      .returned (drv', resolvedDrvPath) asked)
    (h' : plainResolve store evalStore xp queryRealisation (depth + 1) drvPath =
      .returned (drv', resolvedDrvPath) asked) :
    MapAgrees store evalStore xp queryRealisation (depth + 1) drvPath ↔
      StaticKept store evalStore xp queryRealisation (depth + 1) drvPath := by
  obtain ⟨m, hmap, hfind⟩ := outputMap_of_returned hca hstatic h'
  obtain ⟨drv, hread, -⟩ := bind_eq_ok.mp hstatic
  have hnames : outputNames drv' = outputNames drv := names_plainResolve hread h'
  have hkept : ∀ o path,
      queryStaticPartialDerivationOutput evalStore xp drvPath o = .ok (some path) →
      o ∈ outputNames drv ∧ (m.find? o = some (some path) ↔
        (queryRealisation ⟨resolvedDrvPath, o⟩ = none → ⟨resolvedDrvPath, o⟩ ∉ asked)) := by
    intro o path hpath
    have hfound := find?_of_static hstatic hpath
    have ho := (mem_outputNames_iff hread hstatic).mpr ⟨_, hfound⟩
    refine ⟨ho, ?_⟩
    rw [hfind o (hnames ▸ ho), hfound, Option.some.injEq]
    refine (answer_eq_static fun p hp => hanswers _ _ _ _ o path p h' hpath hp).trans ?_
    rw [decide_eq_false_iff_not]
  constructor
  · intro hagrees _ o path hpath
    obtain ⟨ho, hiff⟩ := hkept o path hpath
    have hvalue := hagrees drv hread o ho
    rw [hmap, plainOutput_of_static hpath] at hvalue
    exact ⟨drv', resolvedDrvPath, asked, h',
      hiff.mp (Except.ok.inj (Option.some.inj hvalue))⟩
  · intro hstaticKept drv₁ hread₁ o ho
    obtain rfl := Except.ok.inj (hread.symm.trans hread₁)
    obtain ⟨path, hfound⟩ := (mem_outputNames_iff hread hstatic).mp ho
    have hpath := queryStatic_of_find? hstatic hfound
    rw [hmap]
    cases path with
    | some path =>
        obtain ⟨drv₂, resolvedDrvPath₂, asked₂, heq, hnot⟩ := hstaticKept hca o path hpath
        cases h'.symm.trans heq
        rw [plainOutput_of_static hpath]
        exact congrArg (fun v => some (Except.ok v)) ((hkept o path hpath).2.mpr hnot)
    | none =>
        have hcontains : drv'.outputs.contains o = true := by
          rw [← hnames, outputNames, List.mem_map] at ho
          obtain ⟨e, he, heq⟩ := ho
          exact List.any_eq_true.mpr ⟨e, he, decide_eq_true heq⟩
        have hvalue : m.find? o = some (queryRealisation ⟨resolvedDrvPath, o⟩) := by
          rw [hfind o (hnames ▸ ho), hfound]
          exact congrArg some (answer_none _ _)
        rw [plainOutput_of_dynamic hca hpath, h, Noted.returned_bind, hcontains, if_neg (by simp)]
        exact congrArg (fun v => some (Except.ok v)) hvalue

theorem mapAgrees_of_failed {outputs : OutputMap} {e : Error} (hca : xp .caDerivations = true)
    (hstatic : queryStaticPartialDerivationOutputMap evalStore xp drvPath = .ok outputs)
    (h : plainResolve store evalStore xp queryRealisation depth drvPath = .failed e)
    (h' : plainResolve store evalStore xp queryRealisation (depth + 1) drvPath = .failed e) :
    MapAgrees store evalStore xp queryRealisation (depth + 1) drvPath ↔
      StaticKept store evalStore xp queryRealisation (depth + 1) drvPath := by
  have hmap := outputMap_of_failed hca hstatic h'
  obtain ⟨drv, hread, -⟩ := bind_eq_ok.mp hstatic
  constructor
  · intro hagrees _ o path hpath
    have ho := (mem_outputNames_iff hread hstatic).mpr ⟨_, find?_of_static hstatic hpath⟩
    have hvalue := hagrees drv hread o ho
    rw [hmap, plainOutput_of_static hpath] at hvalue
    cases hvalue
  · intro hstaticKept drv₁ hread₁ o ho
    obtain rfl := Except.ok.inj (hread.symm.trans hread₁)
    obtain ⟨path, hfound⟩ := (mem_outputNames_iff hread hstatic).mp ho
    have hpath := queryStatic_of_find? hstatic hfound
    cases path with
    | some path =>
        obtain ⟨_, _, _, heq, -⟩ := hstaticKept hca o path hpath
        cases h'.symm.trans heq
    | none =>
        rw [hmap, plainOutput_of_dynamic hca hpath, h]
        rfl

theorem mapAgrees_of_disabled {outputs : OutputMap} (hca : xp .caDerivations = false)
    (hstatic : queryStaticPartialDerivationOutputMap evalStore xp drvPath = .ok outputs) :
    MapAgrees store evalStore xp queryRealisation (depth + 1) drvPath := by
  intro drv hread o ho
  obtain ⟨path, hfound⟩ := (mem_outputNames_iff hread hstatic).mp ho
  have hpath := queryStatic_of_find? hstatic hfound
  have hmap : deepQueryPartialDerivationOutputMap store evalStore xp queryRealisation (depth + 1)
      drvPath = some (.ok outputs) := by
    rw [deepQueryPartialDerivationOutputMap, Cached.run, outputMap, hstatic, hca]
    rfl
  have hplain : plainOutput store evalStore xp queryRealisation (depth + 1) drvPath o =
      .returned path [] := by
    rw [plainOutput, hpath, Noted.lift_ok_bind, hca, Bool.not_false, Bool.or_true, if_pos rfl]
    rfl
  rw [hmap, hplain]
  exact congrArg (fun v => some (Except.ok v)) hfound

theorem mapAgrees_of_error {e : Error}
    (hstatic : queryStaticPartialDerivationOutputMap evalStore xp drvPath = .error e) :
    MapAgrees store evalStore xp queryRealisation (depth + 1) drvPath ∧
      StaticKept store evalStore xp queryRealisation (depth + 1) drvPath := by
  have hsingle : ∀ o, queryStaticPartialDerivationOutput evalStore xp drvPath o = .error e := by
    intro o
    rw [queryStaticPartialDerivationOutput, hstatic]
    rfl
  refine ⟨fun drv hread o ho => ?_, fun _ o path hpath => ?_⟩
  · rw [plainOutput, hsingle, deepQueryPartialDerivationOutputMap, Cached.run, outputMap, hstatic]
    rfl
  · rw [hsingle] at hpath
    cases hpath

end

/-- With caches, single outputs are found as by plain recursion; and the map of the outputs has
the same if and only if the static outputs are kept. -/
theorem singlesAgree_and_mapAgrees_iff
    (hacyclic : Acyclic store evalStore xp queryRealisation) {drvPath : StorePath}
    (hanswers : AnswersAgree store evalStore xp queryRealisation drvPath) :
    ∃ bound, ∀ depth ≥ bound, SinglesAgree store evalStore xp queryRealisation depth drvPath ∧
      (MapAgrees store evalStore xp queryRealisation depth drvPath ↔
        StaticKept store evalStore xp queryRealisation depth drvPath) := by
  obtain ⟨rank, hrank⟩ := hacyclic
  refine ⟨rank drvPath + 1, fun depth hdepth => ?_⟩
  obtain ⟨depth, rfl⟩ : ∃ d, depth = d + 1 := ⟨depth - 1, by omega⟩
  have hends := ends_plainResolve hrank (show rank drvPath ≤ depth by omega)
  have hends' := ends_plainResolve hrank (show rank drvPath ≤ depth + 1 by omega)
  refine ⟨fun o => ⟨ends_plainOutput hends o, ?_⟩, ?_⟩
  · exact (computes_deepQuery _ drvPath o).run_eq right_empty (ends_plainOutput hends o)
  · have heq := plainResolve_unique hends hends'
    cases hstatic : queryStaticPartialDerivationOutputMap evalStore xp drvPath with
    | error e =>
        obtain ⟨hmap, hkept⟩ := @mapAgrees_of_error store evalStore xp queryRealisation depth
          drvPath e hstatic
        exact iff_of_true hmap hkept
    | ok outputs =>
        cases hca : xp .caDerivations with
        | false =>
            refine iff_of_true (mapAgrees_of_disabled hca hstatic) fun hon => ?_
            rw [hca] at hon
            cases hon
        | true =>
            match hplain : plainResolve store evalStore xp queryRealisation depth drvPath with
            | none => exact absurd hplain hends
            | some (.error e) => exact mapAgrees_of_failed hca hstatic hplain (heq ▸ hplain)
            | some (.ok ((drv', resolvedDrvPath), asked)) =>
                exact mapAgrees_of_returned hca hanswers hstatic hplain (heq ▸ hplain)

def libDrv : StorePath :=
  ⟨str "0123456789abcdfghijklmnpqrsvwxyz" ++ str "-lib.drv", checkBaseName_append_ofList (by decide)⟩

def appDrv : StorePath :=
  ⟨str "zyxwvsrqpnmlkjihgfdcba9876543210" ++ str "-app.drv", checkBaseName_append_ofList (by decide)⟩

/-- A library with the output `out` only. -/
def lib : Derivation where
  outputs := .assign .empty (str "out") (.caFloating .nixArchive .sha256)
  inputSrcs := .empty
  platform := str "x86_64-linux"
  builder := str "/bin/sh"
  args := []
  env := .empty
  structuredAttrs := none
  name := str "lib"
  inputDrvs := .empty

/-- A fixed output that is made with the output `dev` of the library. -/
def app : Derivation :=
  { lib with
    outputs := .assign .empty (str "out")
      (.caFixed ⟨.nixArchive, ⟨.sha256, List.replicate 32 0, length_zeros⟩⟩)
    name := str "app"
    inputDrvs := .assign .empty libDrv (.leaf (.ofList [str "dev"])) }

def appStore : DerivationStore :=
  { depStore with
    readInvalidDerivation := fun drvPath =>
      if drvPath = appDrv then .ok app
      else if drvPath = libDrv then .ok lib
      else .error (simpleError "no such derivation") }

def nothingRealised : QueryRealisation := fun _ => none

theorem hasInput_app {drvPath : StorePath} {drv : Derivation} {chain : SingleDerivedPath}
    {o : Bytes} (hread : appStore.readInvalidDerivation drvPath = .ok drv)
    (h : HasInput drv chain o) : drvPath = appDrv ∧ chain = .opaquePath libDrv := by
  obtain ⟨i, hi, hoccurs⟩ := h
  dsimp only [appStore] at hread
  split at hread
  next heq =>
    obtain rfl := Except.ok.inj hread
    obtain rfl := List.mem_singleton.mp hi
    exact ⟨heq, (occurs_leaf_iff.mp hoccurs).1⟩
  next =>
    split at hread
    next =>
      obtain rfl := Except.ok.inj hread
      exact absurd hi List.not_mem_nil
    next => cases hread

theorem acyclic_appStore : Acyclic appStore appStore caFeatures nothingRealised := by
  refine ⟨fun drvPath => if drvPath = appDrv then 1 else 0, fun drvPath path hneeds => ?_⟩
  obtain ⟨drv, chain, o, hread, hinput, hpass⟩ := hneeds
  obtain ⟨rfl, rfl⟩ := hasInput_app hread hinput
  cases hpass with
  | here h =>
      cases h
      decide

theorem answersAgree_appStore (drvPath : StorePath) :
    AnswersAgree appStore appStore caFeatures nothingRealised drvPath :=
  fun _ _ _ _ _ _ _ _ _ h => nomatch h

theorem singlesAgree_and_mapAgrees_iff_lib :
    ∃ bound, ∀ depth ≥ bound,
      SinglesAgree appStore appStore caFeatures nothingRealised depth libDrv ∧
        (MapAgrees appStore appStore caFeatures nothingRealised depth libDrv ↔
          StaticKept appStore appStore caFeatures nothingRealised depth libDrv) :=
  singlesAgree_and_mapAgrees_iff acyclic_appStore (answersAgree_appStore libDrv)

theorem queryInput_dev (depth : Nat) :
    queryInput (plainOutput appStore appStore caFeatures nothingRealised (depth + 1))
      (.opaquePath libDrv) (str "dev") = .failed (noOutput appStore.dirs libDrv (str "dev")) := by
  rfl

theorem plainResolve_app (depth : Nat) :
    plainResolve appStore appStore caFeatures nothingRealised (depth + 1) appDrv =
      .failed (noOutput appStore.dirs libDrv (str "dev")) := by
  have hread : appStore.readInvalidDerivation appDrv = .ok app := rfl
  have hresolves : shouldResolve caFeatures app = .ok true := rfl
  have hinputs : app.inputDrvs.elems = [(libDrv, .leaf (.ofList [str "dev"]))] := rfl
  have hnames : (SortedSet.ofList [str "dev"] : JsonValues.StringSet).elems = [str "dev"] := rfl
  rw [plainResolve, resolveAfresh, hread, Noted.lift_ok_bind, resolveInputs, hresolves,
    Noted.lift_ok_bind, if_pos rfl, tryResolve, hinputs, tryResolveInputs, ChildNode.leaf,
    tryResolveInput, hnames, resolveOutputs, queryInput_dev]
  rfl

theorem static_app : ∃ path,
    queryStaticPartialDerivationOutput appStore caFeatures appDrv (str "out") = .ok (some path) :=
  ⟨⟨str "00000000000000000000000000000000" ++ str "-app", checkBaseName_append_ofList (by decide)⟩, by rfl⟩

/-- The query of the output gives its static path, and the map is an error. -/
theorem not_mapAgrees_app :
    ¬∀ (store evalStore : DerivationStore) (xp : ExperimentalFeatureSettings)
      (queryRealisation : QueryRealisation) (drvPath : StorePath),
      Acyclic store evalStore xp queryRealisation →
      AnswersAgree store evalStore xp queryRealisation drvPath →
        ∃ bound, ∀ depth ≥ bound, SinglesAgree store evalStore xp queryRealisation depth drvPath ∧
          MapAgrees store evalStore xp queryRealisation depth drvPath := by
  intro h
  obtain ⟨bound, h⟩ := h appStore appStore caFeatures nothingRealised appDrv acyclic_appStore
    (answersAgree_appStore appDrv)
  obtain ⟨-, hmap⟩ := h (bound + 1) (Nat.le_succ bound)
  obtain ⟨path, hpath⟩ := static_app
  cases hstatic : queryStaticPartialDerivationOutputMap appStore caFeatures appDrv with
  | error e =>
      rw [queryStaticPartialDerivationOutput, hstatic] at hpath
      cases hpath
  | ok outputs =>
      have hagrees := hmap app rfl (str "out") (by decide)
      rw [outputMap_of_failed rfl hstatic (plainResolve_app bound),
        plainOutput_of_static hpath] at hagrees
      cases hagrees

end Nix.Store.OutputQueries
