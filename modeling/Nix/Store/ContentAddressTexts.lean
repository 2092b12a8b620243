import Nix.Store.ContentAddresses
import Nix.Util.HashTexts
import Nix.Util.JsonUtils

/-!
Content addresses as texts, and in JSON.
-/

set_option linter.dupNamespace false

namespace Nix.Store.ContentAddresses

open Util.Types Util.Hashes Util.JsonValues Lib.Results Lib.SortedList Store.PathInfo

section

variable (xp : ExperimentalFeatureSettings)

def renderPrefixModern : ContentAddressMethod → Except Error Bytes
  | .text => .ok (str "text:")
  | method => do
      let pre ← renderPrefix xp method
      return str "fixed:" ++ pre

/-- `ContentAddress::render`. -/
def render (ca : ContentAddress) : Except Error Bytes := do
  let pre ← renderPrefixModern xp ca.method
  return pre ++ ca.hash.toNix32 true

/-- `parseHashAlgorithm_`, with the rest of the text. -/
def parseHashAlgorithm (wholeInput rest : Bytes) : Except Error (HashAlgorithm × Bytes) :=
  match splitPrefixTo 58 rest with
  | none => .error ⟨.usageError,
      ⟨"content address hash must be in form '<algo>:<hash>', but found: %s", [wholeInput]⟩⟩
  | some (hashAlgoRaw, rest) => do
      let hashAlgo ← parseHashAlgo xp hashAlgoRaw
      return (hashAlgo, rest)

def parseContentAddressMethodPrefix (wholeInput : Bytes) :
    Except Error (ContentAddressMethod × HashAlgorithm × Bytes) :=
  match splitPrefixTo 58 wholeInput with
  | none => .error ⟨.usageError,
      ⟨"not a content address because it is not in the form '<prefix>:<rest>': %s", [wholeInput]⟩⟩
  | some (pre, rest) =>
      if pre = str "text" then do
        let (hashAlgo, rest) ← parseHashAlgorithm xp wholeInput rest
        return (.text, hashAlgo, rest)
      else if pre = str "fixed" then do
        let (method, rest) ←
          match splitPrefix (str "r:") rest with
          | some rest => pure (ContentAddressMethod.nixArchive, rest)
          | none =>
              match splitPrefix (str "git:") rest with
              | some rest => do
                  xp.require .gitHashing
                  pure (.git, rest)
              | none => pure (.flat, rest)
        let (hashAlgo, rest) ← parseHashAlgorithm xp wholeInput rest
        return (method, hashAlgo, rest)
      else .error ⟨.usageError,
        ⟨"content address prefix '%s' is unrecognized. Recogonized prefixes are 'text' or 'fixed'",
          [pre]⟩⟩

/-- `ContentAddress::parse`. -/
def parse (rawCa : Bytes) : Except Error ContentAddress := do
  let (caMethod, hashAlgo, rest) ← parseContentAddressMethodPrefix xp rawCa
  let hash ← parseNonSRIUnprefixed xp rest hashAlgo
  return ⟨caMethod, hash⟩

/-- `ContentAddress::parseOpt`. -/
def parseOpt (rawCaOpt : Bytes) : Except Error (Option ContentAddress) :=
  if rawCaOpt = [] then .ok none else some <$> parse xp rawCaOpt

/-- `ContentAddressMethod::render`. -/
def renderMethod : ContentAddressMethod → Bytes
  | .text => str "text"
  | .flat => str "flat"
  | .nixArchive => str "nar"
  | .git => str "git"

/-- `ContentAddressMethod::parse`. -/
def parseMethod (m : Bytes) : Except Error ContentAddressMethod :=
  if m = str "text" then .ok .text
  else if m = str "git" then .ok .git
  else if m = str "flat" then .ok .flat
  else if m = str "nar" then .ok .nixArchive
  else .error ⟨.usageError,
    ⟨"Unknown file ingestion method '%s', expect `flat`, `nar`, or `git`", [m]⟩⟩

/-- `to_json` of a hash. -/
def hashToJson (hash : Hash) : Json :=
  .string hash.toSRI

def hashFromJson (j : Json) : Except Error Hash := do
  let s ← getString j
  parseSRI xp s

def toJson (ca : ContentAddress) : Json :=
  .ofMembers (.ofList [(str "method", .string (renderMethod ca.method)),
    (str "hash", hashToJson ca.hash)])

def fromJson (j : Json) : Except Error ContentAddress := do
  let obj ← getObject j
  let method ← parseMethod (← getString (← valueAt obj (str "method")))
  let hash ← hashFromJson xp (← valueAt obj (str "hash"))
  return ⟨method, hash⟩

end

variable {xp : ExperimentalFeatureSettings}

/-- The features that a content address needs are enabled. -/
structure Enabled (xp : ExperimentalFeatureSettings) (ca : ContentAddress) : Prop where
  method : MethodEnabled xp ca.method
  algo : AlgoEnabled xp ca.hash.algo

theorem parseHashAlgorithm_append {algo : HashAlgorithm} (h : AlgoEnabled xp algo)
    (wholeInput rest : Bytes) :
    parseHashAlgorithm xp wholeInput (printHashAlgo algo ++ 58 :: rest) = .ok (algo, rest) := by
  rw [parseHashAlgorithm, splitPrefixTo_append (notMem_printHashAlgo algo).1]
  simp only [parseHashAlgo_printHashAlgo h, bind, Except.bind]
  rfl

theorem splitPrefix_printHashAlgo (algo : HashAlgorithm) (s : Bytes) :
    splitPrefix (str "r:") (printHashAlgo algo ++ 58 :: s) = none ∧
      splitPrefix (str "git:") (printHashAlgo algo ++ 58 :: s) = none := by
  cases algo <;> exact ⟨rfl, rfl⟩

theorem fixed_ne_text : str "fixed" ≠ str "text" := str_ne_str (by decide)

theorem parseContentAddressMethodPrefix_render {ca : ContentAddress} (h : Enabled xp ca) :
    ∃ text, render xp ca = .ok text ∧ text ≠ [] ∧ 10 ∉ text ∧
      parseContentAddressMethodPrefix xp text =
        .ok (ca.method, ca.hash.algo, ca.hash.toNix32 false) := by
  obtain ⟨method, hash⟩ := ca
  have hhash : hash.toNix32 true = printHashAlgo hash.algo ++ 58 :: hash.toNix32 false := by
    rw [Hash.toNix32, if_pos rfl, List.append_assoc]
    rfl
  have halgo : ∀ wholeInput, parseHashAlgorithm xp wholeInput (hash.toNix32 true) =
      .ok (hash.algo, hash.toNix32 false) := by
    intro wholeInput
    rw [hhash, parseHashAlgorithm_append h.algo]
  obtain ⟨hr, hgit⟩ := splitPrefix_printHashAlgo hash.algo (hash.toNix32 false)
  rw [← hhash] at hr hgit
  have hline : ∀ pre : Bytes, 10 ∉ pre → 10 ∉ pre ++ hash.toNix32 true := by
    intro pre hpre
    rw [List.mem_append, not_or]
    exact ⟨hpre, hash.notMem_toNix32 true⟩
  cases method with
  | text =>
      refine ⟨str "text:" ++ hash.toNix32 true, rfl, List.cons_ne_nil _ _,
        hline _ (notMem_str (by decide)), ?_⟩
      have htext : str "text:" ++ hash.toNix32 true = str "text" ++ 58 :: hash.toNix32 true := rfl
      rw [htext, parseContentAddressMethodPrefix, splitPrefixTo_append (notMem_str (by decide))]
      simp only [if_pos, halgo, bind, Except.bind]
      rfl
  | flat =>
      refine ⟨str "fixed:" ++ hash.toNix32 true, rfl, List.cons_ne_nil _ _,
        hline _ (notMem_str (by decide)), ?_⟩
      have htext : str "fixed:" ++ hash.toNix32 true = str "fixed" ++ 58 :: hash.toNix32 true := rfl
      rw [htext, parseContentAddressMethodPrefix, splitPrefixTo_append (notMem_str (by decide))]
      simp only [if_neg fixed_ne_text, if_pos, hr, hgit, halgo, bind,
        Except.bind, pure, Except.pure]
  | nixArchive =>
      refine ⟨str "fixed:r:" ++ hash.toNix32 true, rfl, List.cons_ne_nil _ _,
        hline _ (notMem_str (by decide)), ?_⟩
      have htext : str "fixed:r:" ++ hash.toNix32 true =
          str "fixed" ++ 58 :: (str "r:" ++ hash.toNix32 true) := rfl
      have hprefix : splitPrefix (str "r:") (str "r:" ++ hash.toNix32 true) =
          some (hash.toNix32 true) := by
        rw [splitPrefix, if_pos (List.prefix_append _ _), List.drop_left]
      rw [htext, parseContentAddressMethodPrefix, splitPrefixTo_append (notMem_str (by decide))]
      simp only [if_neg fixed_ne_text, if_pos, hprefix, halgo, bind,
        Except.bind, pure, Except.pure]
  | git =>
      have hreq : xp.require .gitHashing = .ok () :=
        ExperimentalFeatureSettings.require_eq_ok.mpr (h.method rfl)
      refine ⟨str "fixed:git:" ++ hash.toNix32 true, ?_, List.cons_ne_nil _ _,
        hline _ (notMem_str (by decide)), ?_⟩
      · rw [render, renderPrefixModern, renderPrefix, hreq]
        · rfl
        · rintro ⟨⟩
      · have htext : str "fixed:git:" ++ hash.toNix32 true =
            str "fixed" ++ 58 :: (str "git:" ++ hash.toNix32 true) := rfl
        have hno : splitPrefix (str "r:") (str "git:" ++ hash.toNix32 true) = none := rfl
        have hprefix : splitPrefix (str "git:") (str "git:" ++ hash.toNix32 true) =
            some (hash.toNix32 true) := by
          rw [splitPrefix, if_pos (List.prefix_append _ _), List.drop_left]
        rw [htext, parseContentAddressMethodPrefix, splitPrefixTo_append (notMem_str (by decide))]
        simp only [if_neg fixed_ne_text, if_pos, hno, hprefix, hreq,
          halgo, bind, Except.bind, pure, Except.pure]

theorem parse_render {ca : ContentAddress} (h : Enabled xp ca) :
    ∃ text, render xp ca = .ok text ∧ text ≠ [] ∧ 10 ∉ text ∧ parse xp text = .ok ca := by
  obtain ⟨text, hrender, hne, hline, hprefix⟩ := parseContentAddressMethodPrefix_render h
  refine ⟨text, hrender, hne, hline, ?_⟩
  rw [parse, hprefix]
  simp only [bind, Except.bind, parseNonSRIUnprefixed_toNix32 h.algo]
  rfl

theorem hashFromJson_hashToJson {hash : Hash} (h : AlgoEnabled xp hash.algo) :
    hashFromJson xp (hashToJson hash).reread = .ok hash :=
  parseSRI_toSRI h

theorem parseMethod_renderMethod (method : ContentAddressMethod) :
    parseMethod (renderMethod method) = .ok method := by
  cases method <;> rfl

theorem fromJson_toJson {ca : ContentAddress} (h : AlgoEnabled xp ca.hash.algo) :
    fromJson xp (toJson ca).reread = .ok ca := by
  obtain ⟨m, hm, hfind⟩ := Json.members?_reread
    (.ofList [(str "method", .string (renderMethod ca.method)), (str "hash", hashToJson ca.hash)])
  have hobject : getObject (toJson ca).reread = .ok m := by
    rw [getObject, toJson, hm]
  have hmethod : valueAt m (str "method") = .ok (.string (renderMethod ca.method)) := by
    rw [valueAt, optionalValueAt, hfind, Members.find?_ofList]
    rfl
  have hhash : valueAt m (str "hash") = .ok (hashToJson ca.hash).reread := by
    rw [valueAt, optionalValueAt, hfind, Members.find?_ofList]
    rfl
  rw [fromJson, hobject]
  simp only [bind, Except.bind, hmethod, hhash, getString, parseMethod_renderMethod,
    hashFromJson_hashToJson h]
  rfl

end Nix.Store.ContentAddresses
