import Nix.Store.DerivationResolving

/-!
The inputs that occur in a derivation, and what their traversal collects.
-/

set_option linter.dupNamespace false

namespace Nix.Store.DerivationResolving

open Util.Types Util.Hashes
open Nix.Lib
open Lib.SortedList Lib.Results Store.Path Store.StoreDirs Store.DerivedPaths Store.Derivations

/-- The output of the derivation is asked for in the node of `drvPath`. -/
inductive Occurs : ChildNode → SingleDerivedPath → SingleDerivedPath → Bytes → Prop
  | value {value keys child drvPath outputName} (h : outputName ∈ value.elems) :
      Occurs (.mk value keys child) drvPath drvPath outputName
  | child {value keys child drvPath chain outputName} (i : Fin keys.elems.length)
      (h : Occurs (child i) (.built drvPath (keys.elems.get i)) chain outputName) :
      Occurs (.mk value keys child) drvPath chain outputName

def HasInput (drv : Derivation) (chain : SingleDerivedPath) (outputName : Bytes) : Prop :=
  ∃ i ∈ drv.inputDrvs.elems, Occurs i.2 (.opaquePath i.1) chain outputName

theorem find?_insertPair (m : StringPairs) (e : Bytes × Bytes) (k : Bytes) :
    (insertPair m e).find? k = (m.find? k).or (if e.1 = k then some e.2 else none) := by
  rw [insertPair, SortedMap.contains_eq_isSome]
  cases hfind : m.find? e.1 with
  | none =>
    rw [Option.isSome_none, if_neg Bool.false_ne_true, SortedMap.find?_assign]
    split
    next hk => rw [← hk, hfind, Option.none_or]
    next => rw [Option.or_none]
  | some v =>
    rw [Option.isSome_some, if_pos rfl]
    split
    next hk => rw [← hk, hfind, Option.some_or]
    next => rw [Option.or_none]

theorem mem_insertPair {m : StringPairs} {e f : Bytes × Bytes}
    (h : f ∈ (insertPair m e).elems) : f = e ∨ f ∈ m.elems := by
  have hfind := SortedMap.find?_eq_some.mpr h
  rw [find?_insertPair, Option.or_eq_some_iff] at hfind
  rcases hfind with hfind | ⟨-, hfind⟩
  · exact .inr (SortedMap.find?_eq_some.mp hfind)
  · split_ifs at hfind with hk
    exact .inl (Prod.ext hk.symm (Option.some.inj hfind).symm)

section

variable (dirs : StoreDirConfig) (xp : ExperimentalFeatureSettings)
  (queryResolutionChain : SingleDerivedPath → Bytes → Option StorePath)

/-- The placeholder is the one of what `drvPath` is the path of. -/
def Tracks : Option DownstreamPlaceholder → SingleDerivedPath → Prop
  | none, .opaquePath _ => True
  | some placeholder, .built drvPath output =>
      DownstreamPlaceholder.fromSingleDerivedPathBuilt dirs xp drvPath output = .ok placeholder
  | _, _ => False

def DynamicEnabled : Prop :=
  xp .caDerivations = true ∧ xp .dynamicDerivations = true

/-- `s'` is `s` with the inputs in `inputs`. -/
structure Collected (inputs : SingleDerivedPath → Bytes → Prop) (s s' : Resolution) : Prop where
  resolved : ∀ chain outputName, inputs chain outputName →
    ∃ path, queryResolutionChain chain outputName = some path
  srcs : ∀ path, path ∈ s'.inputSrcs ↔ path ∈ s.inputSrcs ∨
    ∃ chain outputName, inputs chain outputName ∧
      queryResolutionChain chain outputName = some path
  rewrites : ∀ r ∈ s'.inputRewrites.elems, r ∈ s.inputRewrites.elems ∨
    ∃ chain outputName path placeholder, inputs chain outputName ∧
      queryResolutionChain chain outputName = some path ∧
      DownstreamPlaceholder.fromSingleDerivedPathBuilt dirs xp chain outputName =
        .ok placeholder ∧
      r = (placeholder.render, dirs.print path)
  kept : ∀ k, (s.inputRewrites.find? k).isSome → (s'.inputRewrites.find? k).isSome
  rewritten : xp .caDerivations = true → ∀ chain outputName, inputs chain outputName →
    ∃ placeholder, DownstreamPlaceholder.fromSingleDerivedPathBuilt dirs xp chain outputName =
        .ok placeholder ∧
      (s'.inputRewrites.find? placeholder.render).isSome

/-- What a traversal of the inputs in `inputs` can return. -/
def Visits (mayThrow : Prop) (inputs : SingleDerivedPath → Bytes → Prop) (s : Resolution) :
    Except Error (Option Resolution) → Prop
  | .ok (some s') => Collected dirs xp queryResolutionChain inputs s s'
  | .ok none => ∃ chain outputName, inputs chain outputName ∧
      queryResolutionChain chain outputName = none
  | .error _ => mayThrow

end

section

variable {dirs : StoreDirConfig} {xp : ExperimentalFeatureSettings}
  {queryResolutionChain : SingleDerivedPath → Bytes → Option StorePath}
  {inputs inputs' : SingleDerivedPath → Bytes → Prop} {s s₁ s' : Resolution}

theorem getPlaceholder_eq {placeholderOpt : Option DownstreamPlaceholder}
    {drvPath : SingleDerivedPath} (h : Tracks dirs xp placeholderOpt drvPath)
    (outputName : Bytes) :
    getPlaceholder dirs xp placeholderOpt drvPath outputName =
      DownstreamPlaceholder.fromSingleDerivedPathBuilt dirs xp drvPath outputName := by
  cases placeholderOpt with
  | none =>
    cases drvPath with
    | opaquePath path => rfl
    | built drvPath output => exact h.elim
  | some placeholder =>
    cases drvPath with
    | opaquePath path => exact h.elim
    | built drvPath output =>
      have hplaceholder : DownstreamPlaceholder.fromSingleDerivedPathBuilt dirs xp drvPath output =
        .ok placeholder := h
      rw [DownstreamPlaceholder.fromSingleDerivedPathBuilt, hplaceholder]
      rfl

theorem exists_fromSingleDerivedPathBuilt (h : DynamicEnabled xp) (drvPath : SingleDerivedPath)
    (output : Bytes) : ∃ placeholder,
      DownstreamPlaceholder.fromSingleDerivedPathBuilt dirs xp drvPath output =
        .ok placeholder := by
  induction drvPath generalizing output with
  | opaquePath path =>
    refine ⟨.ofOutput dirs path output, bind_eq_ok.mpr ⟨(), ?_, rfl⟩⟩
    exact ExperimentalFeatureSettings.require_eq_ok.mpr h.1
  | built drvPath output' ih =>
    obtain ⟨placeholder, hplaceholder⟩ := ih output'
    refine ⟨.ofPlaceholder dirs placeholder output, bind_eq_ok.mpr ⟨_, hplaceholder,
      bind_eq_ok.mpr ⟨(), ?_, rfl⟩⟩⟩
    exact ExperimentalFeatureSettings.require_eq_ok.mpr h.2

theorem Collected.refl (h : ∀ chain outputName, ¬inputs chain outputName) :
    Collected dirs xp queryResolutionChain inputs s s where
  resolved chain outputName hin := absurd hin (h chain outputName)
  srcs _ := ⟨.inl, fun h' => h'.elim id fun ⟨chain, outputName, hin, _⟩ =>
    absurd hin (h chain outputName)⟩
  rewrites _ hr := .inl hr
  kept _ hk := hk
  rewritten _ chain outputName hin := absurd hin (h chain outputName)

theorem Collected.trans (h : Collected dirs xp queryResolutionChain inputs s s₁)
    (h' : Collected dirs xp queryResolutionChain inputs' s₁ s') :
    Collected dirs xp queryResolutionChain (fun c o => inputs c o ∨ inputs' c o) s s' where
  resolved := by
    rintro chain outputName (hin | hin)
    · exact h.resolved chain outputName hin
    · exact h'.resolved chain outputName hin
  srcs path := by
    rw [h'.srcs, h.srcs, or_assoc]
    refine or_congr_right ⟨?_, ?_⟩
    · rintro (⟨chain, outputName, hin, hquery⟩ | ⟨chain, outputName, hin, hquery⟩)
      · exact ⟨chain, outputName, .inl hin, hquery⟩
      · exact ⟨chain, outputName, .inr hin, hquery⟩
    · rintro ⟨chain, outputName, hin | hin, hquery⟩
      · exact .inl ⟨chain, outputName, hin, hquery⟩
      · exact .inr ⟨chain, outputName, hin, hquery⟩
  rewrites r hr := by
    rcases h'.rewrites r hr with hr | ⟨chain, outputName, path, placeholder, hin, hrest⟩
    · rcases h.rewrites r hr with hr | ⟨chain, outputName, path, placeholder, hin, hrest⟩
      · exact .inl hr
      · exact .inr ⟨chain, outputName, path, placeholder, .inl hin, hrest⟩
    · exact .inr ⟨chain, outputName, path, placeholder, .inr hin, hrest⟩
  kept k hk := h'.kept k (h.kept k hk)
  rewritten := by
    rintro hca chain outputName (hin | hin)
    · obtain ⟨placeholder, hplaceholder, hfind⟩ := h.rewritten hca chain outputName hin
      exact ⟨placeholder, hplaceholder, h'.kept _ hfind⟩
    · exact h'.rewritten hca chain outputName hin

theorem Visits.congr {mayThrow : Prop} {r : Except Error (Option Resolution)}
    (h : Visits dirs xp queryResolutionChain mayThrow inputs s r)
    (heq : ∀ chain outputName, inputs chain outputName ↔ inputs' chain outputName) :
    Visits dirs xp queryResolutionChain mayThrow inputs' s r := by
  have hsame : inputs = inputs' := by
    funext chain outputName
    exact propext (heq chain outputName)
  exact hsame ▸ h

theorem Visits.bind {mayThrow : Prop} {r : Except Error (Option Resolution)}
    {f : Resolution → Except Error (Option Resolution)}
    (h : Visits dirs xp queryResolutionChain mayThrow inputs s r)
    (hf : ∀ s₁, Visits dirs xp queryResolutionChain mayThrow inputs' s₁ (f s₁)) :
    Visits dirs xp queryResolutionChain mayThrow (fun c o => inputs c o ∨ inputs' c o) s
      (do match ← r with
          | none => return none
          | some s₁ => f s₁) := by
  cases r with
  | error e => exact h
  | ok o =>
    cases o with
    | none =>
      obtain ⟨chain, outputName, hin, hquery⟩ := h
      exact ⟨chain, outputName, .inl hin, hquery⟩
    | some s₁ =>
      have h' := hf s₁
      show Visits dirs xp queryResolutionChain mayThrow _ s (f s₁)
      cases hrun : f s₁ with
      | error e =>
        rw [hrun] at h'
        exact h'
      | ok o =>
        rw [hrun] at h'
        cases o with
        | none =>
          obtain ⟨chain, outputName, hin, hquery⟩ := h'
          exact ⟨chain, outputName, .inr hin, hquery⟩
        | some s' => exact Collected.trans h h'

theorem Visits.mono {mayThrow mayThrow' : Prop} {r : Except Error (Option Resolution)}
    (h : Visits dirs xp queryResolutionChain mayThrow inputs s r) (himp : mayThrow → mayThrow') :
    Visits dirs xp queryResolutionChain mayThrow' inputs s r := by
  cases r with
  | error e => exact himp h
  | ok o => cases o <;> exact h

theorem collected_output {drvPath : SingleDerivedPath} {outputName : Bytes} {path : StorePath}
    (hquery : queryResolutionChain drvPath outputName = some path)
    {inputRewrites : StringPairs}
    (h : (xp .caDerivations = false ∧ inputRewrites = s.inputRewrites) ∨
      ∃ placeholder, DownstreamPlaceholder.fromSingleDerivedPathBuilt dirs xp drvPath outputName =
          .ok placeholder ∧
        inputRewrites = insertPair s.inputRewrites (placeholder.render, dirs.print path)) :
    Collected dirs xp queryResolutionChain (fun c o => c = drvPath ∧ o = outputName) s
      ⟨s.inputSrcs.insert path, inputRewrites⟩ where
  resolved := by
    rintro _ _ ⟨rfl, rfl⟩
    exact ⟨path, hquery⟩
  srcs p := by
    rw [SortedSet.mem_insert, or_comm]
    refine or_congr_right ⟨?_, ?_⟩
    · rintro rfl
      exact ⟨drvPath, outputName, ⟨rfl, rfl⟩, hquery⟩
    · rintro ⟨_, _, ⟨rfl, rfl⟩, hp⟩
      exact Option.some.inj (hp.symm.trans hquery)
  rewrites r hr := by
    rcases h with ⟨-, rfl⟩ | ⟨placeholder, hplaceholder, rfl⟩
    · exact .inl hr
    · rcases mem_insertPair hr with rfl | hr
      · exact .inr ⟨drvPath, outputName, path, placeholder, ⟨rfl, rfl⟩, hquery, hplaceholder, rfl⟩
      · exact .inl hr
  kept k hk := by
    rcases h with ⟨-, rfl⟩ | ⟨placeholder, -, rfl⟩
    · exact hk
    · rw [find?_insertPair, Option.isSome_or, hk, Bool.true_or]
  rewritten := by
    rintro hca _ _ ⟨rfl, rfl⟩
    rcases h with ⟨hno, -⟩ | ⟨placeholder, hplaceholder, rfl⟩
    · rw [hca] at hno
      cases hno
    · refine ⟨placeholder, hplaceholder, ?_⟩
      rw [find?_insertPair, if_pos rfl, Option.isSome_or, Option.isSome_some, Bool.or_true]

theorem visits_resolveOutputs {placeholderOpt : Option DownstreamPlaceholder}
    {drvPath : SingleDerivedPath} (h : Tracks dirs xp placeholderOpt drvPath)
    (outputNames : List Bytes) (s : Resolution) :
    Visits dirs xp queryResolutionChain (¬DynamicEnabled xp ∧ placeholderOpt ≠ none)
      (fun c o => c = drvPath ∧ o ∈ outputNames) s
      (resolveOutputs dirs xp queryResolutionChain placeholderOpt drvPath outputNames s) := by
  induction outputNames generalizing s with
  | nil => exact Collected.refl fun _ _ hin => List.not_mem_nil hin.2
  | cons outputName outputNames ih =>
    rw [resolveOutputs]
    cases hquery : queryResolutionChain drvPath outputName with
    | none => exact ⟨drvPath, outputName, ⟨rfl, List.mem_cons_self⟩, hquery⟩
    | some path =>
      have hiff : ∀ c o, ((c = drvPath ∧ o = outputName) ∨ (c = drvPath ∧ o ∈ outputNames)) ↔
          (c = drvPath ∧ o ∈ outputName :: outputNames) := by
        intro c o
        rw [List.mem_cons, and_or_left]
      refine Visits.congr ?_ hiff
      have hrest : ∀ {inputRewrites : StringPairs},
          Collected dirs xp queryResolutionChain (fun c o => c = drvPath ∧ o = outputName) s
            ⟨s.inputSrcs.insert path, inputRewrites⟩ →
          Visits dirs xp queryResolutionChain (¬DynamicEnabled xp ∧ placeholderOpt ≠ none)
            (fun c o => (c = drvPath ∧ o = outputName) ∨ (c = drvPath ∧ o ∈ outputNames)) s
            (resolveOutputs dirs xp queryResolutionChain placeholderOpt drvPath outputNames
              ⟨s.inputSrcs.insert path, inputRewrites⟩) := by
        intro inputRewrites hcollected
        exact @Visits.bind dirs xp queryResolutionChain _ _ s _ (.ok (some _))
          (resolveOutputs dirs xp queryResolutionChain placeholderOpt drvPath outputNames)
          hcollected ih
      cases hca : xp .caDerivations with
      | false => exact hrest (collected_output hquery (.inl ⟨hca, rfl⟩))
      | true =>
        rw [getPlaceholder_eq h]
        cases hplaceholder :
          DownstreamPlaceholder.fromSingleDerivedPathBuilt dirs xp drvPath outputName with
        | ok placeholder =>
          exact hrest (collected_output hquery (.inr ⟨placeholder, hplaceholder, rfl⟩))
        | error e =>
          refine ⟨fun hdynamic => ?_, ?_⟩
          · obtain ⟨_, hok⟩ := exists_fromSingleDerivedPathBuilt hdynamic drvPath outputName
            rw [hplaceholder] at hok
            cases hok
          · rintro rfl
            cases drvPath with
            | opaquePath path =>
              have hok : DownstreamPlaceholder.fromSingleDerivedPathBuilt dirs xp
                  (.opaquePath path) outputName = .ok (.ofOutput dirs path outputName) :=
                bind_eq_ok.mpr ⟨(), ExperimentalFeatureSettings.require_eq_ok.mpr hca, rfl⟩
              rw [hplaceholder] at hok
              cases hok
            | built drvPath output => exact h.elim

theorem visits_visitChildren {n : Nat} {visit : Fin n → Resolution →
      Except Error (Option Resolution)} {mayThrow : Prop}
    {inputs : Fin n → SingleDerivedPath → Bytes → Prop} {is : List (Fin n)}
    (h : ∀ i ∈ is, ∀ s,
      Visits dirs xp queryResolutionChain mayThrow (inputs i) s (visit i s)) (s : Resolution) :
    Visits dirs xp queryResolutionChain mayThrow (fun c o => ∃ i ∈ is, inputs i c o) s
      (visitChildren visit is s) := by
  induction is generalizing s with
  | nil => exact Collected.refl fun _ _ hin => by simp at hin
  | cons i is ih =>
    rw [visitChildren]
    refine ((h i List.mem_cons_self s).bind
      (ih fun j hj => h j (List.mem_cons_of_mem i hj))).congr fun c o => ?_
    simp only [List.mem_cons, exists_eq_or_imp]

theorem occurs_mk_iff {value keys : StringSet} {child : Fin keys.elems.length → ChildNode}
    {drvPath chain : SingleDerivedPath} {outputName : Bytes} :
    Occurs (.mk value keys child) drvPath chain outputName ↔
      (chain = drvPath ∧ outputName ∈ value.elems) ∨
      ∃ i ∈ List.finRange keys.elems.length,
        Occurs (child i) (.built drvPath (keys.elems.get i)) chain outputName := by
  constructor
  · intro h
    cases h with
    | value h => exact .inl ⟨rfl, h⟩
    | child i h => exact .inr ⟨i, List.mem_finRange i, h⟩
  · rintro (⟨rfl, h⟩ | ⟨i, -, h⟩)
    · exact .value h
    · exact .child i h

theorem visits_tryResolveInput {node : ChildNode} {placeholderOpt : Option DownstreamPlaceholder}
    {drvPath : SingleDerivedPath} (h : Tracks dirs xp placeholderOpt drvPath) (s : Resolution) :
    Visits dirs xp queryResolutionChain
      (¬DynamicEnabled xp ∧ (placeholderOpt ≠ none ∨ node.isLeaf = false))
      (Occurs node drvPath) s
      (tryResolveInput dirs xp queryResolutionChain node placeholderOpt drvPath s) := by
  induction node generalizing placeholderOpt drvPath s with
  | mk value keys child ih =>
    rw [tryResolveInput]
    refine (((visits_resolveOutputs h value.elems s).mono fun hthrow =>
      ⟨hthrow.1, .inl hthrow.2⟩).bind (visits_visitChildren fun i _ s => ?_)).congr
        fun c o => occurs_mk_iff.symm
    have hinner : ¬(ChildNode.mk value keys child).isLeaf = true := by
      rw [ChildNode.isLeaf, List.isEmpty_iff]
      exact List.ne_nil_of_length_pos i.pos
    dsimp only
    rw [getPlaceholder_eq h]
    cases hplaceholder :
      DownstreamPlaceholder.fromSingleDerivedPathBuilt dirs xp drvPath (keys.elems.get i) with
    | error e =>
      refine ⟨fun hdynamic => ?_, .inr (Bool.eq_false_iff.mpr hinner)⟩
      obtain ⟨_, hok⟩ := exists_fromSingleDerivedPathBuilt hdynamic drvPath (keys.elems.get i)
      rw [hplaceholder] at hok
      cases hok
    | ok placeholder =>
      have htracks : Tracks dirs xp (some placeholder) (.built drvPath (keys.elems.get i)) :=
        hplaceholder
      exact (ih i htracks s).mono fun hthrow =>
        ⟨hthrow.1, .inr (Bool.eq_false_iff.mpr hinner)⟩

theorem visits_tryResolveInputs (inputDrvs : List (StorePath × ChildNode)) (s : Resolution) :
    Visits dirs xp queryResolutionChain
      (¬DynamicEnabled xp ∧ ∃ i ∈ inputDrvs, i.2.isLeaf = false)
      (fun c o => ∃ i ∈ inputDrvs, Occurs i.2 (.opaquePath i.1) c o) s
      (tryResolveInputs dirs xp queryResolutionChain inputDrvs s) := by
  induction inputDrvs generalizing s with
  | nil => exact Collected.refl fun _ _ hin => by simp at hin
  | cons i inputDrvs ih =>
    obtain ⟨inputDrv, inputNode⟩ := i
    have hnode : Tracks dirs xp none (.opaquePath inputDrv) := trivial
    refine (((visits_tryResolveInput hnode s).mono ?_).bind fun s₁ => (ih s₁).mono ?_).congr
      fun c o => ?_
    · rintro ⟨hoff, hne | hinner⟩
      · exact absurd rfl hne
      · exact ⟨hoff, _, List.mem_cons_self, hinner⟩
    · rintro ⟨hoff, j, hj, hinner⟩
      exact ⟨hoff, j, List.mem_cons_of_mem _ hj, hinner⟩
    · simp only [List.mem_cons, exists_eq_or_imp]

end

end Nix.Store.DerivationResolving
