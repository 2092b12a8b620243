import Nix.Store.DerivationInputs
import Nix.Store.Fingerprints
import Nix.Store.OutputPathInvariants
import Nix.Util.Rewrite

/-!
A derivation is resolved if and only if all of its inputs are, and then nothing of it refers to
the outputs of its inputs by their placeholders.
-/

set_option linter.dupNamespace false

namespace Nix.Store.DerivationResolving

open Util.Types Util.Hashes
open Nix.Util
open Util.BaseN Util.CanonPaths Util.JsonValues
open Nix.Lib
open Lib.MarkedWords Lib.SortedList Lib.Results
open Lib.PrefixReader (fromExcept)
open Store.Path Store.PathInfo Store.ContentAddresses Store.StoreDirs Store.DerivationOutputs
  Store.DerivedPaths Store.Derivations Store.OutputPaths

section

variable {dirs : StoreDirConfig} {xp : ExperimentalFeatureSettings}

theorem fromSingleDerivedPathBuilt_eq_ok {drvPath : SingleDerivedPath} {output : Bytes}
    {placeholder : DownstreamPlaceholder}
    (h : DownstreamPlaceholder.fromSingleDerivedPathBuilt dirs xp drvPath output =
      .ok placeholder) :
    xp .caDerivations = true ∧ ∃ text, placeholder = ⟨dirs.hashString text⟩ := by
  induction drvPath generalizing output placeholder with
  | opaquePath path =>
    obtain ⟨_, henabled, hplaceholder⟩ := bind_eq_ok.mp h
    exact ⟨ExperimentalFeatureSettings.require_eq_ok.mp henabled, _,
      (pure_eq_ok.mp hplaceholder).symm⟩
  | built drvPath output' ih =>
    obtain ⟨inner, hinner, hrest⟩ := bind_eq_ok.mp h
    obtain ⟨_, -, hplaceholder⟩ := bind_eq_ok.mp hrest
    exact ⟨(ih hinner).1, _, (pure_eq_ok.mp hplaceholder).symm⟩

theorem render_hashString (text : Bytes) :
    DownstreamPlaceholder.render ⟨dirs.hashString text⟩ =
      slash :: BaseNix32.encode (dirs.hashString text).bytes := rfl

theorem length_hashString (text : Bytes) : (dirs.hashString text).bytes.length = 32 :=
  (dirs.sha256 text).2

theorem marked_render (text : Bytes) :
    Marked slash (DownstreamPlaceholder.render ⟨dirs.hashString text⟩) :=
  ⟨_, rfl, notMem_of_isAlphanumeric (BaseNix32.isAlphanumeric_encode _) (by decide)⟩

theorem notMem_render {text : Bytes} {c : UInt8} (hslash : c ≠ slash)
    (hc : c ∉ BaseNix32.characters) :
    c ∉ DownstreamPlaceholder.render ⟨dirs.hashString text⟩ := by
  rw [render_hashString, List.mem_cons, not_or]
  exact ⟨hslash, fun hin => hc (BaseNix32.mem_characters_of_mem_encode hin)⟩

theorem length_render (text : Bytes) :
    (DownstreamPlaceholder.render ⟨dirs.hashString text⟩).length = 53 := by
  have hne : (dirs.hashString text).bytes ≠ [] :=
    List.ne_nil_of_length_eq_add_one (length_hashString text)
  rw [render_hashString, List.length_cons, length_encode_nix32 hne, length_hashString]
  rfl

theorem print_eq_append (p : StorePath) : dirs.print p = dirs.storeDir ++ slash :: p.baseName := by
  rw [StoreDirConfig.print, printStorePath, List.append_assoc]
  rfl

theorem slash_notMem_baseName {p : StorePath} (h : separator p ≠ slash) : slash ∉ p.baseName :=
  notMem_baseName (not_isNameChar _ (by simp)) h

theorem inert_print {text : Bytes} {p : StorePath} (hslash : separator p ≠ slash)
    (hdigit : separator p ∉ BaseNix32.characters)
    (h : ¬DownstreamPlaceholder.render ⟨dirs.hashString text⟩ <:+: dirs.print p) :
    Inert (DownstreamPlaceholder.render ⟨dirs.hashString text⟩) (dirs.print p) := by
  rw [print_eq_append] at h ⊢
  refine (marked_render text).inert (slash_notMem_baseName hslash) ?_
    (notMem_render hslash hdigit) h
  rw [baseName_eq_append]
  simp

theorem not_infix_print {text : Bytes} {p : StorePath} (hsep : separator p = 45)
    (h : ¬DownstreamPlaceholder.render ⟨dirs.hashString text⟩ <:+: dirs.storeDir) :
    ¬DownstreamPlaceholder.render ⟨dirs.hashString text⟩ <:+: dirs.print p := by
  have hslash : separator p ≠ slash := by
    rw [hsep]
    decide
  rw [print_eq_append, baseName_eq_append]
  refine (marked_render text).not_infix_mark ?_ (notMem_render hslash ?_) ?_ h
  · rw [← baseName_eq_append]
    exact slash_notMem_baseName hslash
  · rw [hsep]
    decide
  · rw [length_render, StorePath.hashPart, List.length_take]
    exact (Nat.succ_le_succ (Nat.min_le_left _ _)).trans_lt (by decide)

theorem separator_of_makeStorePath {type hash name : Bytes} {p : StorePath}
    (h : dirs.makeStorePath type hash name = .ok p) : separator p = 45 := by
  have hbase := StorePath.baseName_of_ofBaseName h
  have hlen := length_compressHash
    (dirs.hashString (dirs.fingerprint type hash name)).bytes 20
  have hencode : (BaseNix32.encode (StoreDirConfig.compressHash
      (dirs.hashString (dirs.fingerprint type hash name)).bytes 20)).length = hashLen := by
    rw [length_encode_nix32 (List.ne_nil_of_length_eq_add_one hlen), hlen]
    rfl
  have hbase' : p.baseName = BaseNix32.encode (StoreDirConfig.compressHash
      (dirs.hashString (dirs.fingerprint type hash name)).bytes 20) ++ 45 :: name := by
    rw [hbase, List.append_assoc]
    rfl
  rw [separator, hbase', List.getD_eq_getElem?_getD, List.getElem?_append_right hencode.le,
    hencode, Nat.sub_self]
  rfl

theorem separator_of_caFixedPath {ca : ContentAddress} {drvName outputName : Bytes} {p : StorePath}
    (h : caFixedPath dirs xp ca drvName outputName = .ok p) : separator p = 45 := by
  rw [caFixedPath, StoreDirConfig.makeFixedOutputPathFromCA] at h
  split at h
  · split_ifs at h
    exact separator_of_makeStorePath h
  · rw [StoreDirConfig.makeFixedOutputPath] at h
    split_ifs at h
    · exact separator_of_makeStorePath h
    · obtain ⟨pre, -, hmake⟩ := bind_eq_ok.mp h
      exact separator_of_makeStorePath hmake

end

/-- The text is in none of the places where a derivation can refer to its inputs. -/
structure Free (k : Bytes) (drv : Derivation) : Prop where
  builder : ¬k <:+: drv.builder
  args : ∀ arg ∈ drv.args, ¬k <:+: arg
  env : ∀ e ∈ drv.env.elems, ¬k <:+: e.2

/-- Rewriting a text ends, and leaves none of the rewritten texts in it. -/
def Rewrites (rewrites : StringPairs) : Prop :=
  ∀ s, ∃ s', rewriteString rewrites s = .ok s' ∧ ∀ r ∈ rewrites.elems, ¬r.1 <:+: s'

section

variable {rewrites : StringPairs}

theorem Rewrites.not_infix (h : Rewrites rewrites) {s s' : Bytes}
    (hs : rewriteString rewrites s = .ok s') {r : Bytes × Bytes} (hr : r ∈ rewrites.elems) :
    ¬r.1 <:+: s' := by
  obtain ⟨s₁, hs₁, hgone⟩ := h s
  obtain rfl := Except.ok.inj (hs.symm.trans hs₁)
  exact hgone r hr

theorem Rewrites.foldlM (h : Rewrites rewrites) (env : List (Bytes × Bytes)) {newEnv : StringPairs}
    (hnew : ∀ e ∈ newEnv.elems, ∀ r ∈ rewrites.elems, ¬r.1 <:+: e.2) :
    ∃ env', env.foldlM (rewriteVariable rewrites) newEnv = .ok env' ∧
      ∀ e ∈ env'.elems, ∀ r ∈ rewrites.elems, ¬r.1 <:+: e.2 := by
  induction env generalizing newEnv with
  | nil => exact ⟨newEnv, rfl, hnew⟩
  | cons e env ih =>
    obtain ⟨envName, hname, -⟩ := h e.1
    obtain ⟨envValue, hvalue, hgone⟩ := h e.2
    have hnew' : ∀ f ∈ (insertPair newEnv (envName, envValue)).elems, ∀ r ∈ rewrites.elems,
        ¬r.1 <:+: f.2 := by
      intro f hf
      rcases mem_insertPair hf with rfl | hf
      · exact hgone
      · exact hnew f hf
    obtain ⟨env', hrun, henv'⟩ := ih hnew'
    refine ⟨env', ?_, henv'⟩
    rw [List.foldlM_cons]
    exact bind_eq_ok.mpr ⟨_, bind_eq_ok.mpr ⟨_, hname, bind_eq_ok.mpr ⟨_, hvalue, rfl⟩⟩, hrun⟩

/-- Rewriting a derivation changes what can refer to inputs only. -/
structure Rewritten (rewrites : StringPairs) (drv drv' : Derivation) : Prop where
  frame : drv' = { drv with
    builder := drv'.builder
    args := drv'.args
    env := drv'.env
    structuredAttrs := drv'.structuredAttrs }
  length_args : drv'.args.length = drv.args.length
  free : Rewrites rewrites → ∀ r ∈ rewrites.elems, Free r.1 drv'

theorem rewritten_of_applyRewrites {codec : JsonCodec} {drv drv' : Derivation}
    (h : applyRewrites codec rewrites drv = .ok drv') : Rewritten rewrites drv drv' := by
  rw [applyRewrites] at h
  split_ifs at h with hempty
  · obtain rfl := Except.ok.inj h
    exact ⟨rfl, rfl, fun _ r hr => by simp [hempty] at hr⟩
  · obtain ⟨builder, hbuilder, hrest⟩ := bind_eq_ok.mp h
    obtain ⟨args, hargs, hrest'⟩ := bind_eq_ok.mp hrest
    obtain ⟨env, henv, hrest''⟩ := bind_eq_ok.mp hrest'
    obtain ⟨attrs, -, hpure⟩ := bind_eq_ok.mp hrest''
    obtain rfl := pure_eq_ok.mp hpure
    refine ⟨rfl, (mapM_eq_ok.mp hargs).length_eq.symm, fun hrewrites r hr => ⟨?_, ?_, ?_⟩⟩
    · exact hrewrites.not_infix hbuilder hr
    · intro arg' harg'
      obtain ⟨arg, -, harg⟩ := (mem_of_mapM hargs).mp harg'
      exact hrewrites.not_infix harg hr
    · obtain ⟨env', henv', hgone⟩ := hrewrites.foldlM drv.env.elems
        (show ∀ e ∈ (SortedSet.empty : StringPairs).elems, _ from by simp [SortedSet.empty])
      obtain rfl := Except.ok.inj (henv.symm.trans henv')
      exact fun e he => hgone e he r hr

theorem exists_applyRewrites (h : Rewrites rewrites) (codec : JsonCodec) (drv : Derivation) :
    (∃ drv', applyRewrites codec rewrites drv = .ok drv') ∨
      ∃ attrs e, drv.structuredAttrs = some attrs ∧
        applyRewrites codec rewrites drv = .error e ∧
        (codec.dump attrs.toJson = .error e ∨
          ∃ text, parseStructuredAttrs codec text = .error e) := by
  rw [applyRewrites]
  split_ifs with hempty
  · exact .inl ⟨drv, rfl⟩
  · obtain ⟨builder, hbuilder, -⟩ := h drv.builder
    obtain ⟨args, hargs⟩ := exists_mapM fun arg (_ : arg ∈ drv.args) =>
      (h arg).imp fun _ => And.left
    obtain ⟨env, henv, -⟩ := h.foldlM drv.env.elems
      (show ∀ e ∈ (SortedSet.empty : StringPairs).elems, _ from by simp [SortedSet.empty])
    rw [hbuilder, hargs, henv]
    cases hattrs : drv.structuredAttrs with
    | none => exact .inl ⟨_, rfl⟩
    | some attrs =>
      cases hdump : codec.dump attrs.toJson with
      | error e =>
        refine .inr ⟨attrs, e, rfl, ?_, .inl hdump⟩
        simp only [rewriteStructuredAttrs, hdump]
        rfl
      | ok text =>
        obtain ⟨text', htext', -⟩ := h text
        cases hparse : parseStructuredAttrs codec text' with
        | error e =>
          refine .inr ⟨attrs, e, rfl, ?_, .inr ⟨text', hparse⟩⟩
          simp only [rewriteStructuredAttrs, hdump, htext', hparse, bind, Except.bind]
        | ok attrs' =>
          refine .inl ⟨{ drv with builder, args, env, structuredAttrs := some attrs' }, ?_⟩
          simp only [rewriteStructuredAttrs, hdump, htext', hparse, bind, Except.bind]
          rfl

end

section

variable (dirs : StoreDirConfig) (xp : ExperimentalFeatureSettings)
  (queryResolutionChain : SingleDerivedPath → Bytes → Option StorePath) (drv : Derivation)

def IsPlaceholder (k : Bytes) : Prop :=
  ∃ chain outputName placeholder, HasInput drv chain outputName ∧
    DownstreamPlaceholder.fromSingleDerivedPathBuilt dirs xp chain outputName = .ok placeholder ∧
    k = placeholder.render

def AllResolve : Prop :=
  ∀ chain outputName, HasInput drv chain outputName →
    ∃ path, queryResolutionChain chain outputName = some path

def ResolvesTo (path : StorePath) : Prop :=
  ∃ chain outputName, HasInput drv chain outputName ∧
    queryResolutionChain chain outputName = some path

/-- There are no placeholders in the paths that inputs resolve to. What is between the hash and
the name of such a path cannot be in a placeholder either. -/
structure PlainPaths : Prop where
  plain : ∀ path, ResolvesTo queryResolutionChain drv path →
    ∀ k, IsPlaceholder dirs xp drv k → ¬k <:+: dirs.print path
  separated : ∀ path, ResolvesTo queryResolutionChain drv path →
    separator path ≠ slash ∧ separator path ∉ BaseNix32.characters

/-- The derivation is `drv` with its inputs resolved. -/
structure IsResolved (resolved : Derivation) : Prop where
  srcs : ∀ path, path ∈ resolved.inputSrcs ↔
    path ∈ drv.inputSrcs ∨ ResolvesTo queryResolutionChain drv path
  drvs : resolved.inputDrvs = .empty
  names : resolved.outputs.elems.map Prod.fst = drv.outputs.elems.map Prod.fst
  name : resolved.name = drv.name
  platform : resolved.platform = drv.platform
  length_args : resolved.args.length = drv.args.length
  free : xp .caDerivations = true → PlainPaths dirs xp queryResolutionChain drv →
    ∀ k, IsPlaceholder dirs xp drv k → Free k resolved

/-- Inputs of outputs of derivations that are outputs need their features. -/
def FeaturesEnabled : Prop :=
  (∀ i ∈ drv.inputDrvs.elems, i.2.isLeaf = true) ∨ DynamicEnabled xp

end

section

variable {store : DerivationStore} {xp : ExperimentalFeatureSettings} {depth : Nat}
  {queryResolutionChain : SingleDerivedPath → Bytes → Option StorePath} {drv : Derivation}

theorem rewrites_of_collected {dirs : StoreDirConfig} {s : Resolution}
    (h : Collected dirs xp queryResolutionChain (HasInput drv) ⟨drv.inputSrcs, .empty⟩ s)
    (hplain : PlainPaths dirs xp queryResolutionChain drv) : Rewrites s.inputRewrites := by
  have hentry : ∀ r ∈ s.inputRewrites.elems, ∃ text path,
      r = (DownstreamPlaceholder.render ⟨dirs.hashString text⟩, dirs.print path) ∧
      IsPlaceholder dirs xp drv r.1 ∧ ResolvesTo queryResolutionChain drv path := by
    intro r hr
    rcases h.rewrites r hr with hr | ⟨chain, outputName, path, placeholder, hin, hquery, hph, rfl⟩
    · simp [SortedSet.empty] at hr
    · obtain ⟨-, text, rfl⟩ := fromSingleDerivedPathBuilt_eq_ok hph
      exact ⟨text, path, rfl, ⟨chain, outputName, _, hin, hph, rfl⟩,
        chain, outputName, hin, hquery⟩
  intro t
  obtain ⟨t', matchSet, hrun, hgone, -⟩ := @Rewrite.rewriteStrings_marked slash
    s.inputRewrites.elems
    (fun r hr => by
      obtain ⟨text, path, rfl, -⟩ := hentry r hr
      exact marked_render text)
    (fun r hr => by
      obtain ⟨text, path, rfl, -⟩ := hentry r hr
      obtain ⟨u, hu⟩ := head_storeDir dirs
      exact ⟨u ++ slash :: path.baseName, by rw [print_eq_append, hu, List.cons_append]⟩)
    (fun k hk r hr => by
      obtain ⟨text, path', rfl, hplaceholder, -⟩ := hentry k hk
      obtain ⟨text', path, rfl, -, hresolves⟩ := hentry r hr
      obtain ⟨hslash, hdigit⟩ := hplain.separated path hresolves
      exact inert_print hslash hdigit (hplain.plain path hresolves _ hplaceholder))
    t [] 0
  refine ⟨t', ?_, hgone⟩
  rw [rewriteString, hrun]
  rfl

theorem isResolved_of_applyRewrites {s : Resolution} {resolved : Derivation}
    (h : Collected store.dirs xp queryResolutionChain (HasInput drv) ⟨drv.inputSrcs, .empty⟩ s)
    (happly : applyRewrites store.codec s.inputRewrites
      { drv with inputSrcs := s.inputSrcs, inputDrvs := .empty } = .ok resolved) :
    IsResolved store.dirs xp queryResolutionChain drv resolved := by
  have hrewritten := rewritten_of_applyRewrites happly
  have hframe := hrewritten.frame
  refine ⟨?_, ?_, ?_, ?_, ?_, hrewritten.length_args, ?_⟩
  · intro path
    rw [hframe]
    exact h.srcs path
  · rw [hframe]
  · rw [hframe]
  · rw [hframe]
  · rw [hframe]
  · rintro hca hplain k ⟨chain, outputName, placeholder, hin, hph, rfl⟩
    obtain ⟨placeholder', hph', hfind⟩ := h.rewritten hca chain outputName hin
    obtain rfl := Except.ok.inj (hph.symm.trans hph')
    obtain ⟨v, hv⟩ := Option.isSome_iff_exists.mp hfind
    exact hrewritten.free (rewrites_of_collected h hplain) _ (SortedMap.find?_eq_some.mp hv)

theorem not_infix_storeDir {dirs : StoreDirConfig} {k : Bytes}
    (hall : AllResolve queryResolutionChain drv)
    (hplain : PlainPaths dirs xp queryResolutionChain drv) (hk : IsPlaceholder dirs xp drv k) :
    ¬k <:+: dirs.storeDir := by
  obtain ⟨chain, outputName, placeholder, hin, -⟩ := id hk
  obtain ⟨path, hquery⟩ := hall chain outputName hin
  intro hstoreDir
  refine hplain.plain path ⟨chain, outputName, hin, hquery⟩ k hk (hstoreDir.trans ?_)
  rw [print_eq_append]
  exact (List.prefix_append _ _).isInfix

theorem IsResolved.fillInOutputPaths {basic resolved : Derivation} {before after : DrvHashes}
    (h : IsResolved store.dirs xp queryResolutionChain drv basic)
    (hall : AllResolve queryResolutionChain drv)
    (hfill : fillInOutputPaths store xp depth basic before = .ok (resolved, after)) :
    IsResolved store.dirs xp queryResolutionChain drv resolved := by
  obtain ⟨m, hs, -⟩ := filling_of_fillInOutputPaths hfill
  have hframe := hs.filledIn.frame
  refine ⟨?_, ?_, ?_, ?_, ?_, ?_, ?_⟩
  · rw [hframe]
    exact h.srcs
  · rw [hframe]
    exact h.drvs
  · have hkeys := congrArg (fun m => m.elems.map Prod.fst) hs.filledIn.outputs
    simp only [SortedMap.mapValues, List.map_map] at hkeys
    exact hkeys.trans h.names
  · rw [hframe]
    exact h.name
  · rw [hframe]
    exact h.platform
  · rw [hframe]
    exact h.length_args
  · intro hca hplain k hk
    have hfree := h.free hca hplain k hk
    have hdir := not_infix_storeDir hall hplain hk
    obtain ⟨chain, outputName, placeholder, -, hph, rfl⟩ := hk
    obtain ⟨-, text, rfl⟩ := fromSingleDerivedPathBuilt_eq_ok hph
    refine ⟨?_, ?_, fun e he => ?_⟩
    · rw [hframe]
      exact hfree.builder
    · rw [hframe]
      exact hfree.args
    · have hfind := SortedMap.find?_eq_some.mpr he
      have hkept : resolved.env.find? e.1 = basic.env.find? e.1 →
          ¬DownstreamPlaceholder.render ⟨store.dirs.hashString text⟩ <:+: e.2 := by
        intro hsame
        exact hfree.env e (SortedMap.find?_eq_some.mp (hsame.symm.trans hfind))
      have hmade : ∀ path, separator path = 45 →
          resolved.env.find? e.1 = some (store.dirs.print path) →
          ¬DownstreamPlaceholder.render ⟨store.dirs.hashString text⟩ <:+: e.2 := by
        intro path hsep hprint
        rw [Option.some.inj (hfind.symm.trans hprint)]
        exact not_infix_print hsep hdir
      by_cases hkey : e.1 ∈ basic.outputs.elems.map Prod.fst
      · obtain ⟨f, hf, hkeys⟩ := List.mem_map.mp hkey
        obtain ⟨o, -, -, hright, hsame⟩ := hs.right f hf
        rw [hkeys] at hright hsame
        cases o with
        | inputAddressed path =>
          obtain ⟨drvHash, -, hmake, hprint⟩ := hright
          exact hmade path (separator_of_makeStorePath hmake) hprint
        | caFixed ca =>
          obtain ⟨path, hmake, hprint⟩ := hright
          exact hmade path (separator_of_caFixedPath hmake) hprint
        | caFloating method hashAlgo => exact hkept (hsame trivial)
        | deferred => exact hkept (hsame trivial)
        | impure method hashAlgo => exact hkept (hsame trivial)
      · exact hkept (hs.todo e.1 hkey).2

variable {before after : DrvHashes}

theorem visits_inputs (store : DerivationStore) (xp : ExperimentalFeatureSettings)
    (queryResolutionChain : SingleDerivedPath → Bytes → Option StorePath) (drv : Derivation) :
    Visits store.dirs xp queryResolutionChain (¬FeaturesEnabled xp drv) (HasInput drv)
      ⟨drv.inputSrcs, .empty⟩
      (tryResolveInputs store.dirs xp queryResolutionChain drv.inputDrvs.elems
        ⟨drv.inputSrcs, .empty⟩) := by
  refine (visits_tryResolveInputs _ _).mono ?_
  rintro ⟨hoff, i, hi, hinner⟩ (hleaves | hon)
  · rw [hleaves i hi] at hinner
    cases hinner
  · exact hoff hon

theorem unresolved_of_tryResolve
    (h : tryResolve store xp depth drv queryResolutionChain before = .ok (none, after)) :
    ∃ chain outputName, HasInput drv chain outputName ∧
      queryResolutionChain chain outputName = none := by
  obtain ⟨o, _, hread, hrest⟩ := PrefixReader.bind_eq_ok.mp h
  obtain ⟨hrun, rfl⟩ := fromExcept_eq_ok.mp hread
  have hvisits := visits_inputs store xp queryResolutionChain drv
  rw [hrun] at hvisits
  cases o with
  | none => exact hvisits
  | some s =>
    obtain ⟨resolved, _, -, hrest'⟩ := PrefixReader.bind_eq_ok.mp hrest
    obtain ⟨resolved2, _, -, hpure⟩ := PrefixReader.bind_eq_ok.mp hrest'
    cases (PrefixReader.pure_eq_ok.mp hpure).1

theorem resolved_of_tryResolve {resolved : Derivation}
    (h : tryResolve store xp depth drv queryResolutionChain before = .ok (some resolved, after)) :
    AllResolve queryResolutionChain drv ∧
      IsResolved store.dirs xp queryResolutionChain drv resolved := by
  obtain ⟨o, _, hread, hrest⟩ := PrefixReader.bind_eq_ok.mp h
  obtain ⟨hrun, rfl⟩ := fromExcept_eq_ok.mp hread
  have hvisits := visits_inputs store xp queryResolutionChain drv
  rw [hrun] at hvisits
  cases o with
  | none => cases (PrefixReader.pure_eq_ok.mp hrest).1
  | some s =>
    obtain ⟨basic, _, hbasic, hrest'⟩ := PrefixReader.bind_eq_ok.mp hrest
    obtain ⟨happly, rfl⟩ := fromExcept_eq_ok.mp hbasic
    obtain ⟨resolved2, _, hfill, hpure⟩ := PrefixReader.bind_eq_ok.mp hrest'
    obtain ⟨heq, rfl⟩ := PrefixReader.pure_eq_ok.mp hpure
    cases heq
    have hcollected : Collected store.dirs xp queryResolutionChain (HasInput drv) _ s := hvisits
    exact ⟨hcollected.resolved,
      (isResolved_of_applyRewrites hcollected happly).fillInOutputPaths hcollected.resolved hfill⟩

theorem tryResolve_of_unresolved (hfeatures : FeaturesEnabled xp drv)
    (h : ∃ chain outputName, HasInput drv chain outputName ∧
      queryResolutionChain chain outputName = none) :
    tryResolve store xp depth drv queryResolutionChain before = .ok (none, before) := by
  have hvisits := visits_inputs store xp queryResolutionChain drv
  refine PrefixReader.bind_eq_ok.mpr ?_
  cases hrun : tryResolveInputs store.dirs xp queryResolutionChain drv.inputDrvs.elems
      ⟨drv.inputSrcs, .empty⟩ with
  | error e =>
    rw [hrun] at hvisits
    exact absurd hfeatures hvisits
  | ok o =>
    refine ⟨o, before, fromExcept_ok rfl _, ?_⟩
    rw [hrun] at hvisits
    cases o with
    | none => rfl
    | some s =>
      obtain ⟨chain, outputName, hin, hquery⟩ := h
      obtain ⟨path, hsome⟩ := Collected.resolved hvisits chain outputName hin
      rw [hquery] at hsome
      cases hsome

theorem tryResolve_of_allResolve (hfeatures : FeaturesEnabled xp drv)
    (hall : AllResolve queryResolutionChain drv)
    (hplain : xp .caDerivations = true → PlainPaths store.dirs xp queryResolutionChain drv) :
    (∃ basic, IsResolved store.dirs xp queryResolutionChain drv basic ∧
      tryResolve store xp depth drv queryResolutionChain before =
        (do
          let resolved2 ← fillInOutputPaths store xp depth basic
          pure (some resolved2)) before) ∨
      ∃ attrs e, drv.structuredAttrs = some attrs ∧
        tryResolve store xp depth drv queryResolutionChain before = .error e ∧
        (store.codec.dump attrs.toJson = .error e ∨
          ∃ text, parseStructuredAttrs store.codec text = .error e) := by
  have hvisits := visits_inputs store xp queryResolutionChain drv
  cases hrun : tryResolveInputs store.dirs xp queryResolutionChain drv.inputDrvs.elems
      ⟨drv.inputSrcs, .empty⟩ with
  | error e =>
    rw [hrun] at hvisits
    exact absurd hfeatures hvisits
  | ok o =>
    rw [hrun] at hvisits
    cases o with
    | none =>
      obtain ⟨chain, outputName, hin, hquery⟩ := hvisits
      obtain ⟨path, hsome⟩ := hall chain outputName hin
      rw [hquery] at hsome
      cases hsome
    | some s =>
      have hcollected : Collected store.dirs xp queryResolutionChain (HasInput drv) _ s := hvisits
      have hrewrites : Rewrites s.inputRewrites := by
        cases hca : xp .caDerivations with
        | true => exact rewrites_of_collected hcollected (hplain hca)
        | false =>
          have hempty : ∀ r, r ∉ s.inputRewrites.elems := by
            intro r hr
            rcases hcollected.rewrites r hr with hr | ⟨_, _, _, _, -, -, hph, -⟩
            · simp [SortedSet.empty] at hr
            · rw [(fromSingleDerivedPathBuilt_eq_ok hph).1] at hca
              cases hca
          intro t
          refine ⟨t, ?_, fun r hr => absurd hr (hempty r)⟩
          rw [rewriteString, List.eq_nil_iff_forall_not_mem.mpr hempty]
          rfl
      have htry : tryResolve store xp depth drv queryResolutionChain before =
          (do
            let resolved ← fromExcept (applyRewrites store.codec s.inputRewrites
              { drv with inputSrcs := s.inputSrcs, inputDrvs := .empty })
            let resolved2 ← fillInOutputPaths store xp depth resolved
            pure (some resolved2) : Hashing (Option Derivation)) before := by
        rw [tryResolve, hrun]
        rfl
      rcases exists_applyRewrites hrewrites store.codec
        { drv with inputSrcs := s.inputSrcs, inputDrvs := .empty } with
        ⟨basic, happly⟩ | ⟨attrs, e, hattrs, happly, hcause⟩
      · refine .inl ⟨basic, isResolved_of_applyRewrites hcollected happly, ?_⟩
        rw [htry, happly]
        rfl
      · refine .inr ⟨attrs, e, hattrs, ?_, hcause⟩
        rw [htry, happly]
        rfl

/-- A derivation is resolved if and only if all of its inputs are. -/
theorem tryResolve_complete (hfeatures : FeaturesEnabled xp drv) :
    ((∃ chain outputName, HasInput drv chain outputName ∧
        queryResolutionChain chain outputName = none) →
      tryResolve store xp depth drv queryResolutionChain before = .ok (none, before)) ∧
    (∀ after, tryResolve store xp depth drv queryResolutionChain before = .ok (none, after) →
      ∃ chain outputName, HasInput drv chain outputName ∧
        queryResolutionChain chain outputName = none) ∧
    (∀ resolved after,
      tryResolve store xp depth drv queryResolutionChain before = .ok (some resolved, after) →
      AllResolve queryResolutionChain drv ∧
        IsResolved store.dirs xp queryResolutionChain drv resolved) ∧
    (AllResolve queryResolutionChain drv →
      (xp .caDerivations = true → PlainPaths store.dirs xp queryResolutionChain drv) →
      (∃ basic, IsResolved store.dirs xp queryResolutionChain drv basic ∧
        tryResolve store xp depth drv queryResolutionChain before =
          (do
            let resolved2 ← fillInOutputPaths store xp depth basic
            pure (some resolved2)) before) ∨
      ∃ attrs e, drv.structuredAttrs = some attrs ∧
        tryResolve store xp depth drv queryResolutionChain before = .error e ∧
        (store.codec.dump attrs.toJson = .error e ∨
          ∃ text, parseStructuredAttrs store.codec text = .error e)) :=
  ⟨tryResolve_of_unresolved hfeatures, fun _ => unresolved_of_tryResolve,
    fun _ _ => resolved_of_tryResolve, tryResolve_of_allResolve hfeatures⟩

end

theorem occurs_leaf_iff {value : JsonValues.StringSet} {drvPath chain : SingleDerivedPath}
    {outputName : Bytes} :
    Occurs (.leaf value) drvPath chain outputName ↔ chain = drvPath ∧ outputName ∈ value.elems := by
  constructor
  · intro h
    cases h with
    | value h => exact ⟨rfl, h⟩
    | child i h => exact absurd i.isLt (Nat.not_lt_zero _)
  · rintro ⟨rfl, h⟩
    exact .value h

def depText (outputName : Bytes) : Bytes :=
  str "nix-upstream-output:" ++ str "0123456789abcdfghijklmnpqrsvwxyz" ++ str ":dep-" ++ outputName

def sha256OfDep (s : Bytes) : { digest : Bytes // digest.length = 32 } :=
  if s = depText (str "a") then
    ⟨[150, 5, 238, 28, 65, 15, 217, 14, 200, 26, 84, 23, 19, 56, 65, 181, 127, 16, 188, 68, 234,
      11, 226, 18, 198, 205, 4, 11, 64, 233, 217, 29], rfl⟩
  else if s = depText (str "b") then
    ⟨[108, 125, 127, 165, 19, 25, 28, 69, 33, 119, 135, 152, 121, 106, 51, 108, 238, 47, 222, 165,
      197, 132, 66, 172, 213, 13, 241, 147, 6, 168, 12, 26], rfl⟩
  else ⟨List.replicate 32 0, length_zeros⟩

/-- The placeholder of the output `b`, without its last digit. -/
def digitsOfB : Bytes := str "06hcm0397w8dsnn45165lpg2zv" ++ str "kc6dm7k647fwhla70r2fjpyzb"

def placeholderOfA : Bytes := str "/07frx500n16dqq9f42za8jy10z" ++ str "xm84w165sl3b40xn8g84ffw1cn"

def depDrv : StorePath :=
  ⟨str "0123456789abcdfghijklmnpqrsvwxyz" ++ str "-dep.drv", checkBaseName_append_ofList (by decide)⟩

def pathOfA : StorePath := ⟨digitsOfB, checkBaseName_append_ofList (by decide)⟩

def pathOfB : StorePath :=
  ⟨str "00000000000000000000000000000000" ++ str "-dep-b", checkBaseName_append_ofList (by decide)⟩

def depStore : DerivationStore where
  dirs := { fetchDirs with sha256 := sha256OfDep }
  codec := ⟨fun _ => .error (simpleError "dump"), fun _ => .error (simpleError "parse")⟩
  readInvalidDerivation := fun _ => .error (simpleError "no such derivation")

def caFeatures : ExperimentalFeatureSettings := fun feature => feature = .caDerivations

def user (node : ChildNode) : Derivation where
  outputs := .assign .empty (str "out") (.caFloating .nixArchive .sha256)
  inputSrcs := .empty
  platform := str "x86_64-linux"
  builder := str "/bin/sh"
  args := []
  env := .assign .empty (str "text") (placeholderOfA ++ str "c")
  structuredAttrs := none
  name := str "user"
  inputDrvs := .assign .empty depDrv node

def usesBoth : Derivation := user (.leaf (.ofList [str "a", str "b"]))

def usesNested : Derivation :=
  user (.mk .empty (.ofList [str "out"]) fun _ => .leaf (.ofList [str "out"]))

def resolveDep (_ : SingleDerivedPath) (outputName : Bytes) : Option StorePath :=
  some (if outputName = str "a" then pathOfA else pathOfB)

theorem hasInput_usesBoth {chain : SingleDerivedPath} {outputName : Bytes}
    (h : HasInput usesBoth chain outputName) :
    chain = .opaquePath depDrv ∧ (outputName = str "a" ∨ outputName = str "b") := by
  obtain ⟨i, hi, hoccurs⟩ := h
  obtain rfl := List.mem_singleton.mp hi
  obtain ⟨rfl, hin⟩ := occurs_leaf_iff.mp hoccurs
  have hout := SortedSet.mem_ofList.mp (SortedSet.mem_def.mpr hin)
  exact ⟨rfl, by simpa using hout⟩

theorem hasInput_usesNested :
    HasInput usesNested (.built (.opaquePath depDrv) (str "out")) (str "out") :=
  ⟨_, List.mem_singleton.mpr rfl, .child ⟨0, by decide⟩ (.value (by decide))⟩

theorem isPlaceholder_usesBoth {k : Bytes}
    (h : IsPlaceholder depStore.dirs caFeatures usesBoth k) :
    k = placeholderOfA ∨ k = slash :: digitsOfB ++ str "c" := by
  obtain ⟨chain, outputName, placeholder, hin, hph, rfl⟩ := h
  obtain ⟨rfl, hout⟩ := hasInput_usesBoth hin
  obtain ⟨_, -, hpure⟩ := bind_eq_ok.mp hph
  obtain rfl := pure_eq_ok.mp hpure
  rcases hout with rfl | rfl
  · exact .inl (by decide)
  · exact .inr (by decide)

theorem resolvesTo_usesBoth {path : StorePath} (h : ResolvesTo resolveDep usesBoth path) :
    path = pathOfA ∨ path = pathOfB := by
  obtain ⟨chain, outputName, hin, hquery⟩ := h
  obtain rfl := Option.some.inj hquery
  rcases (hasInput_usesBoth hin).2 with rfl | rfl
  · exact .inl rfl
  · exact .inr rfl

/-- With the features off, an input that does not resolve is not reached; and a placeholder can
be left between a path without a dash and the text after it. -/
theorem tryResolve_usesNested :
    ((∃ chain outputName, HasInput usesNested chain outputName ∧
        (fun _ _ => none : SingleDerivedPath → Bytes → Option StorePath) chain outputName = none) ∧
      ∃ e, tryResolve depStore (fun _ => false) 0 usesNested (fun _ _ => none) .empty =
        .error e) ∧
    (∀ k, IsPlaceholder depStore.dirs caFeatures usesBoth k →
      ∀ path, ResolvesTo resolveDep usesBoth path → ¬k <:+: depStore.dirs.print path) ∧
    ∃ k resolved, IsPlaceholder depStore.dirs caFeatures usesBoth k ∧
      tryResolve depStore caFeatures 0 usesBoth resolveDep .empty = .ok (some resolved, .empty) ∧
      ∃ e ∈ resolved.env.elems, k <:+: e.2 := by
  refine ⟨⟨⟨_, _, hasInput_usesNested, rfl⟩, ?_⟩, ?_, ?_⟩
  · have hfails : (tryResolve depStore (fun _ => false) 0 usesNested (fun _ _ => none)
        .empty).toBool = false := by decide +kernel
    cases hrun : tryResolve depStore (fun _ => false) 0 usesNested (fun _ _ => none) .empty with
    | error e => exact ⟨e, rfl⟩
    | ok r =>
      rw [hrun] at hfails
      cases hfails
  · intro k hk path hpath
    have hnot : ∀ k ∈ [placeholderOfA, slash :: digitsOfB ++ str "c"],
        ∀ path ∈ [pathOfA, pathOfB], ¬k <:+: depStore.dirs.print path := by decide
    refine hnot k ?_ path ?_
    · rcases isPlaceholder_usesBoth hk with rfl | rfl <;> simp
    · rcases resolvesTo_usesBoth hpath with rfl | rfl <;> simp
  · have hrun : (tryResolve depStore caFeatures 0 usesBoth resolveDep .empty).map
        (fun r => (r.1.map fun resolved => resolved.env.elems, r.2.elems)) =
          .ok (some [(str "text", str "/nix/store/" ++ digitsOfB ++ str "c")], []) := by
      decide +kernel
    obtain ⟨⟨o, after⟩, hok, heq⟩ := map_eq_ok.mp hrun
    obtain ⟨henv, hafter⟩ := Prod.mk.inj heq
    obtain ⟨resolved, rfl, helems⟩ := Option.map_eq_some_iff.mp henv
    have hempty : after = .empty := SortedSet.eq_of_elems hafter
    refine ⟨slash :: digitsOfB ++ str "c", resolved, ?_, hempty ▸ hok,
      (str "text", str "/nix/store/" ++ digitsOfB ++ str "c"), ?_, ?_⟩
    · refine ⟨.opaquePath depDrv, str "b", .ofOutput depStore.dirs depDrv (str "b"), ?_, rfl, ?_⟩
      · exact ⟨_, List.mem_singleton.mpr rfl, .value (by decide)⟩
      · decide
    · rw [helems]
      exact List.mem_singleton.mpr rfl
    · exact ⟨str "/nix/store", [], rfl⟩

/-- Without features, an input of a derivation that is there is resolved. -/
theorem tryResolve_complete_usesBoth :
    tryResolve depStore (fun _ => false) 0 usesBoth (fun _ _ => none) .empty =
      .ok (none, .empty) ∧
    ∃ basic, IsResolved depStore.dirs (fun _ => false) resolveDep usesBoth basic ∧
      tryResolve depStore (fun _ => false) 0 usesBoth resolveDep .empty =
        (do
          let resolved2 ← fillInOutputPaths depStore (fun _ => false) 0 basic
          pure (some resolved2)) .empty := by
  have hfeatures : FeaturesEnabled (fun _ => false) usesBoth := by
    refine .inl fun i hi => ?_
    obtain rfl := List.mem_singleton.mp hi
    rfl
  constructor
  · refine (tryResolve_complete hfeatures).1 ⟨.opaquePath depDrv, str "a", ?_, rfl⟩
    exact ⟨_, List.mem_singleton.mpr rfl, .value (by decide)⟩
  · obtain ⟨basic, hbasic⟩ | ⟨attrs, e, hattrs, -⟩ := (tryResolve_complete hfeatures).2.2.2
      (fun chain outputName hin => ⟨_, rfl⟩) (fun hca => nomatch hca)
    · exact ⟨basic, hbasic⟩
    · cases hattrs

end Nix.Store.DerivationResolving
