import Mathlib.Data.Set.Function
import Nix.Store.OutputPathInvariants
import Nix.Util.BaseNRoundTrips

/-!
A derivation whose output paths were filled in passes the check of its output paths if no
variable of an output had to be added to its environment.
-/

set_option linter.dupNamespace false

namespace Nix.Store.OutputPaths

open Util.Types Util.Hashes Util.BaseN Util.JsonValues Util.CanonPaths
open Nix.Lib
open Lib.Results hiding pure_eq_ok
open Lib.SortedList
open Lib.PrefixReader (fromExcept)
open Store.Path Store.PathInfo Store.ContentAddresses Store.StoreDirs Store.DerivationOutputs
  Store.Derivations

/-- SHA-256, cut down to the size of the hash part of a store path. -/
def shortHash (dirs : StoreDirConfig) (s : Bytes) : Bytes :=
  StoreDirConfig.compressHash (dirs.hashString s).bytes 20

/-- The text whose hash is in the path of an output. -/
def outputFingerprint (dirs : StoreDirConfig) (drvName outputName text : Bytes) : Bytes :=
  dirs.fingerprint (str "output:" ++ outputName) ((dirs.hashString text).toBase16 true)
    (outputPathName drvName outputName)

theorem makeOutputPath_inj {dirs : StoreDirConfig} {drvName outputName text text' : Bytes}
    {path : StorePath} {texts : Set Bytes} (hinj : Set.InjOn (shortHash dirs) texts)
    (hpath : dirs.makeOutputPath outputName (dirs.hashString text) drvName = .ok path)
    (hpath' : dirs.makeOutputPath outputName (dirs.hashString text') drvName = .ok path)
    (htext : text ∈ texts ∧ outputFingerprint dirs drvName outputName text ∈ texts)
    (htext' : text' ∈ texts ∧ outputFingerprint dirs drvName outputName text' ∈ texts) :
    text = text' := by
  rw [StoreDirConfig.makeOutputPath, StoreDirConfig.makeStorePath_eq] at hpath hpath'
  have hbase := (StorePath.baseName_of_ofBaseName hpath).symm.trans
    (StorePath.baseName_of_ofBaseName hpath')
  rw [List.append_assoc, List.append_assoc] at hbase
  have hencoded := List.append_cancel_right hbase
  have hshort : shortHash dirs (outputFingerprint dirs drvName outputName text) =
      shortHash dirs (outputFingerprint dirs drvName outputName text') := by
    have hdecoded := congrArg BaseNix32.decode hencoded
    rw [BaseNix32.decode_encode, BaseNix32.decode_encode] at hdecoded
    exact Except.ok.inj hdecoded
  have hfingerprint := hinj htext.2 htext'.2 hshort
  have hdigest : dirs.hashString text = dirs.hashString text' := by
    simp only [outputFingerprint, StoreDirConfig.fingerprint, List.append_assoc] at hfingerprint
    have hhash := List.append_cancel_right
      (List.append_cancel_left (List.append_cancel_left (List.append_cancel_left hfingerprint)))
    exact (toBase16_true_append_inj (congrArg ([] ++ 58 :: ·) hhash)).2
  exact hinj htext.1 htext'.1 (by rw [shortHash, shortHash, hdigest])

section

variable (store : DerivationStore) (xp : ExperimentalFeatureSettings) (depth : Nat)

/-- `Derivation::parseJsonAndValidate`, for what `fromJson` makes of the JSON value. -/
def parseJsonAndValidate (fromJson : Json → Except Error Derivation) (json : Json) :
    Hashing Derivation := do
  let drv ← fromExcept (fromJson json)
  let drv ← fillInOutputPaths store xp depth drv
  checkInvariants store xp depth drv
  pure drv

/-- The texts that are hashed for the paths of the outputs of a derivation. -/
inductive HashedText (drv : Derivation) (drvHashes : DrvHashes) : Bytes → Prop
  | masked {inputs2 later text}
      (hinputs : hashInputs (pathDerivationModulo store xp depth) drv.name drv.inputDrvs.elems
        .empty drvHashes = .ok (some inputs2, later))
      (htext : drv.unparse store xp true (some inputs2) = .ok text) : HashedText drv drvHashes text
  | fingerprint {inputs2 later text e}
      (hinputs : hashInputs (pathDerivationModulo store xp depth) drv.name drv.inputDrvs.elems
        .empty drvHashes = .ok (some inputs2, later))
      (htext : drv.unparse store xp true (some inputs2) = .ok text)
      (he : e ∈ drv.outputs.elems) :
      HashedText drv drvHashes (outputFingerprint store.dirs drv.name e.1 text)

/-- `drv'` with the cache `after`, which `drv` was filled in to, has the invariants. -/
structure Established (drv : Derivation) (before : DrvHashes) (drv' : Derivation)
    (after : DrvHashes) : Prop where
  checked : checkInvariants store xp depth drv' after = .ok ((), after)
  addressed : ∀ outputName, drv.outputs.find? outputName = some .deferred →
    ∀ drvHash later, hashDerivationModulo store xp (pathDerivationModulo store xp depth) drv true
      before = .ok (.drvHash drvHash, later) →
    ∃ path, drv'.outputs.find? outputName = some (.inputAddressed path)
  again : fillInOutputPaths store xp depth drv' after = .ok (drv', after)
  validated : ∀ fromJson json, fromJson json = .ok drv →
    parseJsonAndValidate store xp depth fromJson json before = .ok (drv', after)

/-- No variable of an output whose path is made of the hash modulo is missing. -/
def HasVariables (drv : Derivation) (drvHashes : DrvHashes) : Prop :=
  (∀ e ∈ drv.outputs.elems, ¬NeedsHash e.2) ∨
  (∃ later, hashDerivationModulo store xp (pathDerivationModulo store xp depth) drv true
    drvHashes = .ok (.deferredDrv, later)) ∨
  ∀ e ∈ drv.outputs.elems, drv.env.contains e.1

end

section

variable {store : DerivationStore} {xp : ExperimentalFeatureSettings} {depth : Nat}
  {drv drv' : Derivation} {before after : DrvHashes}

theorem established_of_right {m : Option DrvHashModulo} {ty : DerivationType} {h : DrvHashModulo}
    (hfill : fillInOutputPaths store xp depth drv before = .ok (drv', after))
    (hs : Filling store xp depth drv before drv.outputs.elems ⟨drv', m⟩ after)
    (hty : drv'.type = .ok ty)
    (hright : ∀ e ∈ drv'.outputs.elems, Right store.dirs xp (some h) drv'.name drv'.env e.1 e.2)
    (hhash : ∀ e ∈ drv'.outputs.elems, NeedsHash e.2 → hashDerivationModulo store xp
      (pathDerivationModulo store xp depth) drv' true after = .ok (h, after)) :
    Established store xp depth drv before drv' after := by
  have hchecked : checkInvariants store xp depth drv' after = .ok ((), after) :=
    PrefixReader.bind_eq_ok.mpr ⟨_, _, process_of_right hty hright hhash, rfl⟩
  refine ⟨hchecked, ?_, process_of_right hty hright hhash, ?_⟩
  · intro outputName hfind drvHash later hregular
    obtain ⟨o, hbecomes, hfind', hright', -⟩ := hs.right _ (SortedMap.find?_eq_some.mp hfind)
    cases hbecomes with
    | filledIn path => exact ⟨path, hfind'⟩
    | same =>
      have hm : m = some .deferredDrv := hright'
      have hdeferred := hs.hash _ hm
      rw [hregular] at hdeferred
      cases hdeferred
  · intro fromJson json hjson
    exact PrefixReader.bind_eq_ok.mpr ⟨_, _, fromExcept_ok hjson _,
      PrefixReader.bind_eq_ok.mpr ⟨_, _, hfill,
        PrefixReader.bind_eq_ok.mpr ⟨_, _, hchecked, rfl⟩⟩⟩

theorem Filling.right_of_mem {m : Option DrvHashModulo}
    (hs : Filling store xp depth drv before drv.outputs.elems ⟨drv', m⟩ after)
    {e : Bytes × DerivationOutput} (he : e ∈ drv'.outputs.elems) :
    ∃ o, (e.1, o) ∈ drv.outputs.elems ∧ Becomes o e.2 ∧
      Right store.dirs xp m drv'.name drv'.env e.1 e.2 := by
  have hfind := SortedMap.find?_eq_some.mpr he
  have hname : drv'.name = drv.name := by rw [hs.filledIn.frame]
  have hkey : e.1 ∈ drv.outputs.elems.map Prod.fst := by
    by_contra hk
    have hsame : drv'.outputs.find? e.1 = drv.outputs.find? e.1 := (hs.todo e.1 hk).1
    rw [hfind, SortedMap.find?_eq_none.mpr hk] at hsame
    cases hsame
  obtain ⟨f, hf, hkeys⟩ := List.mem_map.mp hkey
  obtain ⟨o', hbecomes, hfind', hright, -⟩ := hs.right f hf
  have ho' : o' = e.2 := by
    rw [hkeys] at hfind'
    exact Option.some.inj (hfind'.symm.trans hfind)
  rw [hkeys, ho', ← hname] at hright
  exact ⟨f.2, hkeys ▸ hf, ho' ▸ hbecomes, hright⟩

theorem Becomes.needsHash_iff {o o' : DerivationOutput} (h : Becomes o o') :
    NeedsHash o' ↔ NeedsHash o := by
  cases h with
  | same => rfl
  | filledIn path => exact iff_of_true (needsHash_inputAddressed path) needsHash_deferred

theorem established_of_hash {h : DrvHashModulo} {ty : DerivationType}
    (hfill : fillInOutputPaths store xp depth drv before = .ok (drv', after))
    (hs : Filling store xp depth drv before drv.outputs.elems ⟨drv', some h⟩ after)
    (hty : drv'.type = .ok ty)
    (hhash : hashDerivationModulo store xp (pathDerivationModulo store xp depth) drv' true after =
      .ok (h, after)) :
    Established store xp depth drv before drv' after := by
  refine established_of_right hfill hs hty (fun e he => ?_) fun _ _ _ => hhash
  obtain ⟨-, -, -, hright⟩ := hs.right_of_mem he
  exact hright

theorem established_of_hasVariables
    (hfill : fillInOutputPaths store xp depth drv before = .ok (drv', after))
    (h : HasVariables store xp depth drv before) :
    Established store xp depth drv before drv' after := by
  obtain ⟨m, hs, ty, hty⟩ := filling_of_fillInOutputPaths hfill
  by_cases hneeds : ∃ e ∈ drv.outputs.elems, NeedsHash e.2
  · obtain ⟨e, he, hneeds⟩ := hneeds
    cases m with
    | none => exact absurd hneeds ((hs.noHash rfl).2 e he)
    | some hash =>
      rcases hs.hash_again he hneeds hty with
        ⟨rfl, hagain⟩ | ⟨inputs2, text, hinputs, hinputs', htext, rfl, hagain⟩
      · exact established_of_hash hfill hs hty hagain
      · have hall : ∀ e ∈ drv.outputs.elems, drv.env.contains e.1 := by
          rcases h with hnone | ⟨later, hdeferred⟩ | hall
          · exact absurd hneeds (hnone e he)
          · rw [hs.hash _ rfl] at hdeferred
            cases hdeferred
          · exact hall
        have hback : ∀ k, (drv'.env.find? k).isSome → (drv.env.find? k).isSome := by
          intro k hsome
          by_cases hk : k ∈ drv.outputs.elems.map Prod.fst
          · obtain ⟨f, hf, rfl⟩ := List.mem_map.mp hk
            rw [← SortedMap.contains_eq_isSome]
            exact hall f hf
          · have hsame : drv'.env.find? k = drv.env.find? k := (hs.todo k hk).2
            rwa [← hsame]
        exact established_of_hash hfill hs hty
          ((hagain _ _).mpr ⟨text, hs.filledIn.unparse_eq_ok hback htext, rfl, rfl⟩)
  · have hnone : ∀ e ∈ drv'.outputs.elems, ¬NeedsHash e.2 := by
      intro e he hneeds'
      obtain ⟨o, ho, hbecomes, -⟩ := hs.right_of_mem he
      exact hneeds ⟨_, ho, hbecomes.needsHash_iff.mp hneeds'⟩
    refine established_of_right (h := .deferredDrv) hfill hs hty (fun e he => ?_)
      fun e he hneeds' => absurd hneeds' (hnone e he)
    obtain ⟨-, -, -, hright⟩ := hs.right_of_mem he
    exact hright.congr (fun hneeds' => absurd hneeds' (hnone e he)) rfl

theorem makeOutputPath_of_checkInvariants {e : Bytes × DerivationOutput}
    {l : List (Bytes × DerivationOutput)} {path : StorePath} {later : DrvHashes}
    (helems : drv'.outputs.elems = e :: l) (hpath : e.2 = .inputAddressed path)
    (h : checkInvariants store xp depth drv' after = .ok ((), later)) :
    ∃ drvHash later', hashDerivationModulo store xp (pathDerivationModulo store xp depth) drv'
        true after = .ok (.drvHash drvHash, later') ∧
      store.dirs.makeOutputPath e.1 drvHash drv'.name = .ok path := by
  obtain ⟨_, _, hprocess, -⟩ := PrefixReader.bind_eq_ok.mp h
  obtain ⟨s, _, hfold, -⟩ := PrefixReader.bind_eq_ok.mp hprocess
  rw [helems, List.foldlM_cons] at hfold
  obtain ⟨s₁, _, hstep, -⟩ := PrefixReader.bind_eq_ok.mp hfold
  obtain ⟨k, o⟩ := e
  cases hpath
  obtain ⟨hm, _, hhash, hrest⟩ := PrefixReader.bind_eq_ok.mp hstep
  cases hm with
  | drvHash drvHash =>
    obtain ⟨outPath, _, hread, hrest⟩ := PrefixReader.bind_eq_ok.mp hrest
    obtain ⟨hmade, rfl⟩ := fromExcept_eq_ok.mp hread
    split_ifs at hrest with heq
    · exact ⟨drvHash, _, hhash, heq ▸ hmade⟩
    · cases hrest
  | caOutputHashes hashes => cases hrest
  | deferredDrv => cases hrest

theorem Right.of_drvHash {dirs : StoreDirConfig} {drvHash : Hash} {drvName k : Bytes}
    {env : StringPairs} {o : DerivationOutput}
    (hright : Right dirs xp (some (.drvHash drvHash)) drvName env k o) (hneeds : NeedsHash o) :
    ∃ path, o = .inputAddressed path ∧ dirs.makeOutputPath k drvHash drvName = .ok path ∧
      (env.find? k).isSome := by
  cases o with
  | inputAddressed path =>
    obtain ⟨_, heq, hpath, henv⟩ := hright
    cases heq
    exact ⟨path, rfl, hpath, by rw [henv]; rfl⟩
  | caFixed ca => exact absurd hneeds (not_needsHash_caFixed ca)
  | caFloating method hashAlgo => exact absurd hneeds (not_needsHash_caFloating method hashAlgo)
  | deferred => cases hright
  | impure method hashAlgo => exact absurd hneeds (not_needsHash_impure method hashAlgo)

theorem hasVariables_of_checked
    (hfill : fillInOutputPaths store xp depth drv before = .ok (drv', after))
    (hinj : Set.InjOn (shortHash store.dirs)
      {s | HashedText store xp depth drv before s ∨ HashedText store xp depth drv' after s})
    (h : Established store xp depth drv before drv' after) :
    HasVariables store xp depth drv before := by
  obtain ⟨m, hs, ty, hty⟩ := filling_of_fillInOutputPaths hfill
  by_contra hno
  obtain ⟨hneeds, hregular, hmissing⟩ := by simpa only [HasVariables, not_or] using hno
  push Not at hneeds hmissing
  obtain ⟨e, he, hneeds⟩ := hneeds
  cases m with
  | none => exact (hs.noHash rfl).2 e he hneeds
  | some hash =>
    rcases hs.hash_again he hneeds hty with
      ⟨rfl, hagain⟩ | ⟨inputs2, text, hinputs, hinputs', htext, rfl, hagain⟩
    · exact hregular ⟨after, hs.hash _ rfl⟩
    · obtain ⟨missing, hmem, hmissing⟩ := hmissing
      have hfilled := hs.filledIn
      have hname : drv'.name = drv.name := by rw [hfilled.frame]
      obtain ⟨drvTy, hdrvTy⟩ := type_of_hashDerivationModulo (hs.hash _ rfl)
      have hall : ∀ f ∈ drv.outputs.elems, NeedsHash f.2 := by
        intro f hf
        obtain ⟨isDeferred, hkind⟩ := hneeds
        have hkinds := Derivation.kind_of_type hdrvTy
        exact ⟨isDeferred, (hkinds f hf).trans ((hkinds e he).symm.trans hkind)⟩
      -- The check makes the path of the first output of the text with the variable.
      obtain ⟨first, rest, helems⟩ := List.exists_cons_of_ne_nil (Derivation.outputs_ne_nil hty)
      obtain ⟨o, ho, hbecomes, hfirst⟩ := hs.right_of_mem (helems ▸ List.mem_cons_self)
      obtain ⟨path, hpath, hmade, -⟩ := hfirst.of_drvHash (hbecomes.needsHash_iff.mpr (hall _ ho))
      obtain ⟨drvHash, later, hhash, hmade'⟩ :=
        makeOutputPath_of_checkInvariants helems hpath h.checked
      obtain ⟨text', htext', hdrvHash, -⟩ := (hagain _ _).mp hhash
      obtain rfl := DrvHashModulo.drvHash.inj hdrvHash
      have hsame : text = text' := by
        refine makeOutputPath_inj hinj hmade hmade' ⟨.inl (.masked hinputs htext), .inl ?_⟩
          ⟨.inr (.masked hinputs' htext'), .inr ?_⟩
        · rw [hname]
          exact .fingerprint (e := (first.1, o)) hinputs htext ho
        · exact .fingerprint hinputs' htext' (helems ▸ List.mem_cons_self)
      -- The text grows with the variable.
      obtain ⟨o', hbecomes', -, hright', -⟩ := hs.right missing hmem
      obtain ⟨-, -, -, hpresent⟩ := hright'.of_drvHash
        (hbecomes'.needsHash_iff.mpr (hall _ hmem))
      have habsent : drv.env.find? missing.1 = none := by
        rw [SortedMap.contains_eq_isSome] at hmissing
        exact Option.not_isSome_iff_eq_none.mp hmissing
      have hlt := hfilled.length_unparse_lt habsent hpresent htext htext'
      rw [hsame] at hlt
      exact lt_irrefl _ hlt

/-- A derivation that was filled in has the invariants if and only if no variable of an output
was added whose path is made of the hash modulo. -/
theorem fillInOutputPaths_established_iff
    (hfill : fillInOutputPaths store xp depth drv before = .ok (drv', after))
    (hinj : Set.InjOn (shortHash store.dirs)
      {s | HashedText store xp depth drv before s ∨ HashedText store xp depth drv' after s}) :
    Established store xp depth drv before drv' after ↔ HasVariables store xp depth drv before :=
  ⟨hasVariables_of_checked hfill hinj, established_of_hasVariables hfill⟩

end

def helloText : Bytes :=
  str "Derive([(\"out\",\"\",\"\",\"\")],[],[" ++ str "],\"x86_64-linux\",\"/bin/sh\",[]," ++
  str "[])"

def helloFilledText : Bytes :=
  str "Derive([(\"out\",\"\",\"\",\"\")],[],[" ++ str "],\"x86_64-linux\",\"/bin/sh\",[]," ++
  str "[(\"out\",\"\")])"

def helloFingerprint : Bytes :=
  str "output:out:sha256:" ++ str "e452b96cbcad475bafce44dd2a1501" ++
  str "406162abf1e79c51f7aa0e30889cbb" ++ str "490f:/nix/store:hello"

def helloFilledFingerprint : Bytes :=
  str "output:out:sha256:" ++ str "3cc9e53365a7b0b64e6fe5e3f8365b" ++
  str "a8a449b9ede35e97f7f0dc2de123f4" ++ str "342b:/nix/store:hello"

def sha256OfHello (s : Bytes) : { digest : Bytes // digest.length = 32 } :=
  if s = helloText then
    ⟨[228, 82, 185, 108, 188, 173, 71, 91, 175, 206, 68, 221, 42, 21, 1, 64, 97, 98, 171, 241,
      231, 156, 81, 247, 170, 14, 48, 136, 156, 187, 73, 15], rfl⟩
  else if s = helloFilledText then
    ⟨[60, 201, 229, 51, 101, 167, 176, 182, 78, 111, 229, 227, 248, 54, 91, 168, 164, 73, 185,
      237, 227, 94, 151, 247, 240, 220, 45, 225, 35, 244, 52, 43], rfl⟩
  else if s = helloFingerprint then
    ⟨[63, 215, 106, 68, 114, 48, 125, 124, 74, 87, 98, 254, 12, 247, 228, 60, 50, 84, 32, 135,
      216, 249, 60, 179, 158, 56, 209, 220, 198, 186, 164, 116], rfl⟩
  else if s = helloFilledFingerprint then
    ⟨[82, 118, 129, 170, 49, 182, 176, 134, 217, 78, 135, 202, 32, 244, 65, 140, 228, 2, 246, 244,
      102, 116, 129, 244, 77, 50, 198, 81, 136, 227, 39, 74], rfl⟩
  else ⟨List.replicate 32 0, length_zeros⟩

def helloDirs : StoreDirConfig := { fetchDirs with sha256 := sha256OfHello }

def helloStore : DerivationStore where
  dirs := helloDirs
  codec := ⟨fun _ => .error (simpleError "dump"), fun _ => .error (simpleError "parse")⟩
  readInvalidDerivation := fun _ => .error (simpleError "no such derivation")

def hello : Derivation where
  outputs := .assign .empty (str "out") .deferred
  inputSrcs := .empty
  platform := str "x86_64-linux"
  builder := str "/bin/sh"
  args := []
  env := .empty
  structuredAttrs := none
  name := str "hello"
  inputDrvs := .empty

def noFeatures : ExperimentalFeatureSettings := fun _ => false

def helloPath : StorePath :=
  ⟨str "hwh58ciwwkvhr2n6xn6a1b08xkvmcbp7-hello", checkBaseName_ofList (by decide)⟩

def helloFilled : Derivation :=
  { hello with
    outputs := .assign .empty (str "out") (.inputAddressed helloPath)
    env := .assign .empty (str "out") (helloDirs.print helloPath) }

set_option synthInstance.maxSize 2000 in
theorem fillInOutputPaths_hello :
    fillInOutputPaths helloStore noFeatures 0 hello .empty = .ok (helloFilled, .empty) := by
  have hparts : (fillInOutputPaths helloStore noFeatures 0 hello .empty).map
      (fun r => (r.1.outputs.elems, r.1.env.elems, r.2.elems)) =
        .ok (helloFilled.outputs.elems, helloFilled.env.elems, []) := by decide +kernel
  obtain ⟨⟨drv', after⟩, hfill, heq⟩ := map_eq_ok.mp hparts
  obtain ⟨houtputs, hrest⟩ := Prod.mk.inj heq
  obtain ⟨henv, hafter⟩ := Prod.mk.inj hrest
  have hempty : after = .empty := SortedSet.eq_of_elems hafter
  obtain ⟨m, hs, -⟩ := filling_of_fillInOutputPaths hfill
  have hframe := hs.filledIn.frame
  rw [SortedSet.eq_of_elems houtputs, SortedSet.eq_of_elems henv] at hframe
  rw [hfill, hframe, hempty]
  rfl

theorem hashedText_of_texts {drv : Derivation} {text fingerprint : Bytes} {o : DerivationOutput}
    (hinputs : drv.inputDrvs = .empty) (houtputs : drv.outputs.elems = [(str "out", o)])
    (htext : drv.unparse helloStore noFeatures true (some .empty) = .ok text)
    (hfingerprint : outputFingerprint helloDirs drv.name (str "out") text = fingerprint) {s : Bytes}
    (h : HashedText helloStore noFeatures 0 drv .empty s) : s = text ∨ s = fingerprint := by
  have hempty : ∀ {inputs2 later}, hashInputs (pathDerivationModulo helloStore noFeatures 0)
      drv.name drv.inputDrvs.elems .empty .empty = .ok (some inputs2, later) →
      inputs2 = .empty := by
    intro inputs2 later heq
    rw [hinputs] at heq
    cases heq
    rfl
  cases h with
  | masked hhashed htext' =>
    rw [hempty hhashed, htext] at htext'
    exact .inl (Except.ok.inj htext').symm
  | fingerprint hhashed htext' he =>
    rw [hempty hhashed, htext] at htext'
    rw [houtputs] at he
    cases List.mem_singleton.mp he
    cases htext'
    exact .inr hfingerprint

theorem fillInOutputPaths_established_iff_hello :
    Established helloStore noFeatures 0 hello .empty helloFilled .empty ↔
      HasVariables helloStore noFeatures 0 hello .empty := by
  refine fillInOutputPaths_established_iff fillInOutputPaths_hello ?_
  have htexts : (hello.unparse helloStore noFeatures true (some .empty) = .ok helloText ∧
      outputFingerprint helloDirs hello.name (str "out") helloText = helloFingerprint) ∧
      helloFilled.unparse helloStore noFeatures true (some .empty) = .ok helloFilledText ∧
      outputFingerprint helloDirs helloFilled.name (str "out") helloFilledText =
        helloFilledFingerprint := by decide +kernel
  have hmem : ∀ s, HashedText helloStore noFeatures 0 hello .empty s ∨
      HashedText helloStore noFeatures 0 helloFilled .empty s →
      s ∈ [helloText, helloFingerprint, helloFilledText, helloFilledFingerprint] := by
    intro s hs
    rcases hs with hs | hs
    · rcases hashedText_of_texts rfl rfl htexts.1.1 htexts.1.2 hs with rfl | rfl <;> simp
    · rcases hashedText_of_texts rfl rfl htexts.2.1 htexts.2.2 hs with rfl | rfl <;> simp
  have hinj : ∀ s ∈ [helloText, helloFingerprint, helloFilledText, helloFilledFingerprint],
      ∀ t ∈ [helloText, helloFingerprint, helloFilledText, helloFilledFingerprint],
        shortHash helloDirs s = shortHash helloDirs t → s = t := by decide +kernel
  exact fun s hs t ht => hinj s (hmem s hs) t (hmem t ht)

/-- The path that was filled in is refused. -/
theorem checkInvariants_hello :
    fillInOutputPaths helloStore noFeatures 0 hello .empty = .ok (helloFilled, .empty) ∧
      checkInvariants helloStore noFeatures 0 helloFilled .empty =
        .error (simpleError "derivation has incorrect output '%s', should be '%s'"
          [str "/nix/store/hwh58ciwwkvhr2n6xn6a1b08xkvmcbp7-hello",
            str "/nix/store/ykv05r4c87s21050mm8xfxl4gig000il-hello"]) :=
  ⟨fillInOutputPaths_hello, by decide +kernel⟩

end Nix.Store.OutputPaths
