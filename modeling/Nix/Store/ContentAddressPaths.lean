import Nix.Store.ContentAddressTexts
import Nix.Store.Fingerprints

/-!
Store paths of content addresses that are read from texts, and the assertion on the way to them.
-/

set_option linter.dupNamespace false

namespace Nix.Store.StoreDirs

open Util.Types Util.Hashes Lib.Delimited Lib.Results Store.Path Store.PathInfo
  Store.ContentAddresses Store.DerivationOutputs
open StoreDirConfig (StoreReferences)

namespace ContentAddressWithReferences

def withoutRefs (ca : ContentAddress) : ContentAddressWithReferences :=
  if h : ca.method = .text then .text ca.hash .empty else .fixed ⟨ca, h, {}⟩

def fromParts (method : ContentAddressMethod) (hash : Hash) (refs : StoreReferences) :
    Except Error ContentAddressWithReferences :=
  if h : method = .text then
    if refs.self then .error ⟨.error, ⟨"self-reference not allowed with text hashing", []⟩⟩
    else .ok (.text hash refs.others)
  else .ok (.fixed ⟨⟨method, hash⟩, h, refs⟩)

end ContentAddressWithReferences

open ContentAddressWithReferences

def FailsAssertion {α : Type} (r : Except Error α) : Prop :=
  ∃ e, r = .error e ∧ e.cls = .assertionFailure

section Assertions

variable {α β : Type}

theorem not_failsAssertion_ok (a : α) : ¬FailsAssertion (.ok a) :=
  fun ⟨_, h, _⟩ => nomatch h

theorem not_failsAssertion_error {e : Error} (h : e.cls ≠ .assertionFailure) :
    ¬FailsAssertion (.error e : Except Error α) := by
  rintro ⟨_, heq, hcls⟩
  cases heq
  exact h hcls

theorem not_failsAssertion_bind {x : Except Error α} {f : α → Except Error β}
    (hx : ¬FailsAssertion x) (hf : ∀ a, x = .ok a → ¬FailsAssertion (f a)) :
    ¬FailsAssertion (x >>= f) := by
  cases x with
  | error e => exact fun ⟨e', heq, hcls⟩ => hx ⟨e, rfl, by cases heq; exact hcls⟩
  | ok a => exact hf a rfl

theorem not_failsAssertion_ofBaseName (baseName : Bytes) :
    ¬FailsAssertion (StorePath.ofBaseName baseName) := by
  have hcls : ∀ e, checkBaseName baseName = .error e → e.cls = .badStorePath := by
    intro e h
    unfold checkBaseName at h
    split at h
    next =>
      cases h
      rfl
    next =>
      split at h
      next =>
        cases h
        rfl
      next =>
        unfold checkPathName at h
        split at h
        next => cases h
        next =>
          cases h
          rfl
  unfold StorePath.ofBaseName
  split
  next => exact not_failsAssertion_ok _
  next e h =>
    refine not_failsAssertion_error ?_
    rw [hcls e h]
    decide

theorem not_failsAssertion_require (xp : ExperimentalFeatureSettings)
    (feature : ExperimentalFeature) (reason : Bytes) : ¬FailsAssertion (xp.require feature reason) := by
  unfold ExperimentalFeatureSettings.require
  split
  next => exact not_failsAssertion_ok _
  next => exact not_failsAssertion_error nofun

end Assertions

variable {cfg : StoreDirConfig} {xp xpSettings : ExperimentalFeatureSettings}

/-- Other methods than `Text` make no assertion. -/
theorem not_failsAssertion_makeFixedOutputPath (name : Bytes) (ca : ContentAddress)
    (references : StoreReferences) :
    ¬FailsAssertion (cfg.makeFixedOutputPath xp name ca references) := by
  unfold StoreDirConfig.makeFixedOutputPath
  split
  next => exact not_failsAssertion_error nofun
  next =>
    split
    next => exact not_failsAssertion_ofBaseName _
    next =>
      split
      next => exact not_failsAssertion_error nofun
      next =>
        refine not_failsAssertion_bind ?_ fun _ _ => not_failsAssertion_ofBaseName _
        cases ca.method with
        | text | flat | nixArchive => exact not_failsAssertion_ok _
        | git =>
          exact not_failsAssertion_bind (not_failsAssertion_require _ _ _)
            fun _ _ => not_failsAssertion_ok _

theorem failsAssertion_text_iff (name : Bytes) (hash : Hash) (references : StorePathSet) :
    FailsAssertion (cfg.makePathFromCA xp name (.text hash references)) ↔
      hash.algo ≠ .sha256 := by
  rw [StoreDirConfig.makePathFromCA]
  split
  next h => exact iff_of_true ⟨_, rfl, rfl⟩ h
  next h => exact iff_of_false (not_failsAssertion_ofBaseName _) h

/-- No way to compute a path of the content address ends in a failed assertion. -/
def NeverAsserts (cfg : StoreDirConfig) (xp : ExperimentalFeatureSettings) (ca : ContentAddress) :
    Prop :=
  ∀ (name drvName outputName : Bytes) (refs : StoreReferences),
    ¬FailsAssertion (cfg.makePathFromCA xp name (withoutRefs ca)) ∧
    ¬FailsAssertion (fromParts ca.method ca.hash refs >>= cfg.makePathFromCA xp name) ∧
    ¬FailsAssertion (caFixedPath cfg xp ca drvName outputName)

theorem caFixedPath_eq (ca : ContentAddress) (drvName outputName : Bytes) :
    caFixedPath cfg xp ca drvName outputName =
      cfg.makePathFromCA xp (outputPathName drvName outputName) (withoutRefs ca) := by
  obtain ⟨method, hash⟩ := ca
  cases method <;> rfl

theorem neverAsserts_iff {ca : ContentAddress} :
    NeverAsserts cfg xp ca ↔ (ca.method = .text → ca.hash.algo = .sha256) := by
  constructor
  · intro h htext
    by_contra halgo
    refine (h [] [] [] {}).1 ?_
    rw [withoutRefs, dif_pos htext]
    exact (failsAssertion_text_iff _ _ _).mpr halgo
  · intro h name drvName outputName refs
    have hwithout : ∀ name, ¬FailsAssertion (cfg.makePathFromCA xp name (withoutRefs ca)) := by
      intro name
      rw [withoutRefs]
      split
      next htext => exact fun hfails => (failsAssertion_text_iff _ _ _).mp hfails (h htext)
      next => exact not_failsAssertion_makeFixedOutputPath _ _ _
    refine ⟨hwithout name, ?_, ?_⟩
    · rw [fromParts]
      split
      next htext =>
        split
        next => exact not_failsAssertion_error nofun
        next =>
          exact fun hfails =>
            (@failsAssertion_text_iff cfg xp name ca.hash refs.others).mp hfails (h htext)
      next => exact not_failsAssertion_makeFixedOutputPath _ _ _
    · rw [caFixedPath_eq]
      exact hwithout _

theorem algo_of_parseNonSRIUnprefixed {s : Bytes} {algo : HashAlgorithm} {hash : Hash}
    (h : parseNonSRIUnprefixed xp s algo = .ok hash) : hash.algo = algo := by
  obtain ⟨_, -, h⟩ := bind_eq_ok.mp h
  obtain ⟨_, -, h⟩ := bind_eq_ok.mp h
  obtain ⟨_, -, h⟩ := bind_eq_ok.mp h
  split at h
  next =>
    obtain rfl := pure_eq_ok.mp h
    rfl
  next => cases h

theorem eq_append_of_splitPrefix {pre s rest : Bytes} (h : splitPrefix pre s = some rest) :
    s = pre ++ rest := by
  unfold splitPrefix at h
  split at h
  next hpre =>
    obtain ⟨t, rfl⟩ := hpre
    rw [List.drop_left] at h
    rw [Option.some.inj h]
  next => cases h

/-- The prefix of a content address tells whether its method is `Text`. -/
theorem parseContentAddressMethodPrefix_eq_ok {raw rest : Bytes} {method : ContentAddressMethod}
    {algo : HashAlgorithm}
    (h : parseContentAddressMethodPrefix xp raw = .ok (method, algo, rest)) :
    (method = .text ∧ raw = str "text" ++ 58 :: (printHashAlgo algo ++ 58 :: rest)) ∨
      method ≠ .text ∧ ¬str "text:" <+: raw := by
  unfold parseContentAddressMethodPrefix at h
  split at h
  next => cases h
  next pre rest' hsplit =>
    obtain ⟨rfl, -⟩ := eq_append_of_splitPrefixTo hsplit
    split at h
    next hpre =>
      subst hpre
      obtain ⟨⟨algo', rest''⟩, halgo, h⟩ := bind_eq_ok.mp h
      cases h
      unfold parseHashAlgorithm at halgo
      split at halgo
      next => cases halgo
      next raw' rest'' hsplit' =>
        obtain ⟨rfl, -⟩ := eq_append_of_splitPrefixTo hsplit'
        obtain ⟨algo', hparse, halgo⟩ := bind_eq_ok.mp halgo
        cases halgo
        rw [eq_printHashAlgo_of_parseHashAlgo hparse]
        exact .inl ⟨rfl, rfl⟩
    next =>
      split at h
      next hpre =>
        subst hpre
        refine .inr ⟨?_, fun ⟨t, ht⟩ => nomatch congrArg List.head? ht⟩
        have hmethod : ∀ m r, (parseHashAlgorithm xp (str "fixed" ++ 58 :: rest') r >>= fun x =>
            pure (m, x.1, x.2)) = Except.ok (method, algo, rest) → method = m := by
          intro m r h
          obtain ⟨x, -, h⟩ := bind_eq_ok.mp h
          exact (congrArg Prod.fst (pure_eq_ok.mp h)).symm
        split at h
        next =>
          rw [hmethod _ _ h]
          nofun
        next =>
          split at h
          next =>
            obtain ⟨_, -, h⟩ := bind_eq_ok.mp h
            rw [hmethod _ _ h]
            nofun
          next =>
            rw [hmethod _ _ h]
            nofun
      next => cases h

theorem parsePrefix_eq_ok {m rest : Bytes} {method : ContentAddressMethod}
    (h : parsePrefix xp m = .ok (method, rest)) :
    (method = .text ∧ m = str "text:" ++ rest) ∨ method ≠ .text ∧ ¬str "text:" <+: m := by
  have hother : ∀ {pre s : Bytes}, pre.head? ≠ some 116 → pre ≠ [] → ¬str "text:" <+: pre ++ s := by
    rintro pre s hhead hne ⟨t, ht⟩
    obtain ⟨c, pre, rfl⟩ := List.exists_cons_of_ne_nil hne
    have heq := congrArg List.head? ht
    exact hhead heq.symm
  unfold parsePrefix at h
  split at h
  next rest' hsplit =>
    cases h
    rw [eq_append_of_splitPrefix hsplit]
    exact .inr ⟨nofun, hother (by decide) (by decide)⟩
  next =>
    split at h
    next rest' hsplit =>
      obtain ⟨_, -, h⟩ := bind_eq_ok.mp h
      cases h
      rw [eq_append_of_splitPrefix hsplit]
      exact .inr ⟨nofun, hother (by decide) (by decide)⟩
    next =>
      split at h
      next rest' hsplit =>
        cases h
        exact .inl ⟨rfl, eq_append_of_splitPrefix hsplit⟩
      next hsplit =>
        cases h
        refine .inr ⟨nofun, fun hpre => ?_⟩
        rw [splitPrefix, if_pos hpre] at hsplit
        cases hsplit

theorem caFixed_of_parseContentAddressed {pathS hashS : Bytes} {method : ContentAddressMethod}
    {algo : HashAlgorithm} {ca : ContentAddress}
    (h : parseContentAddressed xp xpSettings pathS hashS method algo = .ok (.caFixed ca)) :
    ca.method = method ∧ ca.hash.algo = algo := by
  unfold parseContentAddressed at h
  split at h
  next =>
    obtain ⟨_, -, h⟩ := bind_eq_ok.mp h
    split at h <;> cases h
  next =>
    split at h
    next =>
      obtain ⟨_, -, h⟩ := bind_eq_ok.mp h
      obtain ⟨hash, hhash, h⟩ := bind_eq_ok.mp h
      cases h
      exact ⟨rfl, algo_of_parseNonSRIUnprefixed hhash⟩
    next =>
      obtain ⟨_, -, h⟩ := bind_eq_ok.mp h
      split at h <;> cases h

theorem printHashAlgo_eq_sha256 {algo : HashAlgorithm} (h : printHashAlgo algo = str "sha256") :
    algo = .sha256 := by
  cases algo with
  | sha256 => rfl
  | blake3 | md5 | sha1 | sha512 => exact absurd h (by decide)

theorem method_of_parse {raw : Bytes} {ca : ContentAddress}
    (h : ContentAddresses.parse xp raw = .ok ca) : ca.method = .text ↔ str "text:" <+: raw := by
  obtain ⟨⟨method, algo, rest⟩, hprefix, h⟩ := bind_eq_ok.mp h
  obtain ⟨hash, -, h⟩ := bind_eq_ok.mp h
  cases h
  rcases parseContentAddressMethodPrefix_eq_ok hprefix with ⟨rfl, rfl⟩ | ⟨hmethod, hpre⟩
  · exact iff_of_true rfl ⟨_, rfl⟩
  · exact iff_of_false hmethod hpre

theorem sha256_of_parse {raw : Bytes} {ca : ContentAddress}
    (h : ContentAddresses.parse xp raw = .ok ca) (htext : ca.method = .text) :
    ca.hash.algo = .sha256 ↔ str "text:sha256:" <+: raw := by
  obtain ⟨⟨method, algo, rest⟩, hprefix, h⟩ := bind_eq_ok.mp h
  obtain ⟨hash, hhash, h⟩ := bind_eq_ok.mp h
  cases h
  rw [algo_of_parseNonSRIUnprefixed hhash]
  rcases parseContentAddressMethodPrefix_eq_ok hprefix with ⟨-, rfl⟩ | ⟨hmethod, -⟩
  · constructor
    · rintro rfl
      exact ⟨rest, rfl⟩
    · rintro ⟨t, ht⟩
      have htail : str "sha256" ++ 58 :: t = printHashAlgo algo ++ 58 :: rest :=
        @List.append_cancel_left _ (str "text:") _ _ ht
      exact printHashAlgo_eq_sha256 (part_append_inj (by decide) (notMem_printHashAlgo algo).1
        (.inr ⟨_, rfl⟩) (.inr ⟨_, rfl⟩) htail).1.symm
  · exact absurd htext hmethod

/-- What is read never fails the assertion if and only if its text does not name another
algorithm than SHA-256 with the method `Text`. -/
theorem neverAsserts_iff_texts :
    (∀ raw ca, ContentAddresses.parse xp raw = .ok ca →
      (NeverAsserts cfg xp ca ↔ (str "text:" <+: raw → str "text:sha256:" <+: raw))) ∧
    ∀ pathS hashAlgoS hashS ca,
      parseOutputStrings cfg xp xpSettings pathS hashAlgoS hashS = .ok (.caFixed ca) →
      (NeverAsserts cfg xp ca ↔ (str "text:" <+: hashAlgoS → hashAlgoS = str "text:sha256")) := by
  constructor
  · intro raw ca h
    rw [neverAsserts_iff, method_of_parse h]
    exact forall_congr' fun htext => sha256_of_parse h ((method_of_parse h).mpr htext)
  · intro pathS hashAlgoS hashS ca h
    rw [neverAsserts_iff]
    unfold parseOutputStrings at h
    split at h
    next =>
      obtain ⟨⟨method, rest⟩, hprefix, h⟩ := bind_eq_ok.mp h
      have hrest : (parseHashAlgo xp rest >>= fun hashAlgo =>
          parseContentAddressed xp xpSettings pathS hashS method hashAlgo) = .ok (.caFixed ca) := by
        dsimp only at h
        split at h
        next =>
          obtain ⟨_, -, h⟩ := bind_eq_ok.mp h
          exact h
        next => exact h
      obtain ⟨algo, hparse, h⟩ := bind_eq_ok.mp hrest
      obtain ⟨hmethod, halgo⟩ := caFixed_of_parseContentAddressed h
      rw [hmethod, halgo]
      obtain rfl := eq_printHashAlgo_of_parseHashAlgo hparse
      rcases parsePrefix_eq_ok hprefix with ⟨rfl, rfl⟩ | ⟨hother, hpre⟩
      · constructor
        · rintro hsha -
          rw [hsha rfl]
          rfl
        · rintro hsha -
          have htail : printHashAlgo algo = str "sha256" :=
            @List.append_cancel_left _ (str "text:") _ _ (hsha ⟨_, rfl⟩)
          exact printHashAlgo_eq_sha256 htail
      · exact iff_of_true (fun h => absurd h hother) (fun h => absurd h hpre)
    next =>
      split at h
      next => cases h
      next =>
        obtain ⟨_, -, h⟩ := bind_eq_ok.mp h
        obtain ⟨_, -, h⟩ := bind_eq_ok.mp h
        cases h

theorem neverAsserts_iff_texts_sha256 :
    (NeverAsserts fetchDirs (fun _ => true)
        ⟨.text, ⟨.sha256, List.replicate 32 0, rfl⟩⟩ ↔
      (str "text:" <+: str "text:sha256:" ++ List.replicate 64 48 →
        str "text:sha256:" <+: str "text:sha256:" ++ List.replicate 64 48)) ∧
    (NeverAsserts fetchDirs (fun _ => true)
        ⟨.text, ⟨.sha256, List.replicate 32 0, rfl⟩⟩ ↔
      (str "text:" <+: str "text:sha256" → str "text:sha256" = str "text:sha256")) :=
  have h := @neverAsserts_iff_texts fetchDirs (fun _ => true) (fun _ => true)
  ⟨h.1 _ _ (by decide),
    h.2 (str "/nix/store/x") _ (List.replicate 64 48) _ (by decide)⟩

/-- Other algorithms are accepted with the method `Text`, and fail the assertion. -/
theorem not_neverAsserts_sha1 :
    (∃ raw ca, ContentAddresses.parse (fun _ => true) raw = .ok ca ∧
        ¬NeverAsserts fetchDirs (fun _ => true) ca) ∧
      ∃ pathS hashAlgoS hashS ca,
        parseOutputStrings fetchDirs (fun _ => true) (fun _ => true) pathS hashAlgoS hashS =
            .ok (.caFixed ca) ∧
          ¬NeverAsserts fetchDirs (fun _ => true) ca := by
  have hnot : ¬NeverAsserts fetchDirs (fun _ => true)
      ⟨.text, ⟨.sha1, List.replicate 20 0, rfl⟩⟩ := by
    rw [neverAsserts_iff]
    exact fun h => nomatch h rfl
  exact ⟨⟨str "text:sha1:" ++ List.replicate 40 48, _, by decide, hnot⟩,
    str "/nix/store/x", str "text:sha1", List.replicate 40 48, _, by decide, hnot⟩

end Nix.Store.StoreDirs
