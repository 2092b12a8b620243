import Nix.Lib.Results
import Nix.Util.BaseN

set_option linter.dupNamespace false

namespace Nix.Util.Hashes

open Util.Types Util.BaseN Lib.Results

inductive ExperimentalFeature
  | caDerivations
  | impureDerivations
  | gitHashing
  | dynamicDerivations
  | blake3Hashes
  deriving DecidableEq, Repr

def showExperimentalFeature : ExperimentalFeature → Bytes
  | .caDerivations => str "ca-derivations"
  | .impureDerivations => str "impure-derivations"
  | .gitHashing => str "git-hashing"
  | .dynamicDerivations => str "dynamic-derivations"
  | .blake3Hashes => str "blake3-hashes"

/-- The enabled features. -/
abbrev ExperimentalFeatureSettings := ExperimentalFeature → Bool

def optionalBracket (before content after : Bytes) : Bytes :=
  if content = [] then [] else before ++ content ++ after

def ExperimentalFeatureSettings.require (xp : ExperimentalFeatureSettings)
    (feature : ExperimentalFeature) (reason : Bytes := []) : Except Error Unit :=
  if xp feature then .ok ()
  else .error ⟨.missingExperimentalFeature,
    ⟨"experimental Nix feature '%1%' is disabled%2%; add '--extra-experimental-features %1%' to enable it",
      [showExperimentalFeature feature, optionalBracket (str " (") reason (str ")")]⟩⟩

theorem ExperimentalFeatureSettings.require_eq_ok {xp : ExperimentalFeatureSettings}
    {feature : ExperimentalFeature} {reason : Bytes} :
    xp.require feature reason = .ok () ↔ xp feature = true := by
  unfold require
  split <;> simp [*]

inductive HashAlgorithm
  | md5
  | sha1
  | sha256
  | sha512
  | blake3
  deriving DecidableEq, Repr

def regularHashSize : HashAlgorithm → Nat
  | .blake3 => 32
  | .md5 => 16
  | .sha1 => 20
  | .sha256 => 32
  | .sha512 => 64

def printHashAlgo : HashAlgorithm → Bytes
  | .blake3 => str "blake3"
  | .md5 => str "md5"
  | .sha1 => str "sha1"
  | .sha256 => str "sha256"
  | .sha512 => str "sha512"

theorem isAlphanumeric_printHashAlgo (algo : HashAlgorithm) :
    ∀ c ∈ printHashAlgo algo, IsAlphanumeric c := by
  cases algo <;> exact forall_mem_str (by decide)

structure Hash where
  algo : HashAlgorithm
  bytes : Bytes
  hashSize : bytes.length = regularHashSize algo
  deriving DecidableEq

inductive HashFormat
  | base64
  | nix32
  | base16
  deriving DecidableEq, Repr

section Parse

variable (xp : ExperimentalFeatureSettings)

def parseHashAlgoOpt (s : Bytes) : Except Error (Option HashAlgorithm) :=
  if s = str "blake3" then do
    xp.require .blake3Hashes
    return some .blake3
  else if s = str "md5" then .ok (some .md5)
  else if s = str "sha1" then .ok (some .sha1)
  else if s = str "sha256" then .ok (some .sha256)
  else if s = str "sha512" then .ok (some .sha512)
  else .ok none

def parseHashAlgo (s : Bytes) : Except Error HashAlgorithm := do
  match ← parseHashAlgoOpt xp s with
  | some h => return h
  | none =>
      throw ⟨.usageError,
        ⟨"unknown hash algorithm '%1%', expect 'blake3', 'md5', 'sha1', 'sha256', or 'sha512'",
          [s]⟩⟩

def HashFormat.decode : HashFormat → Bytes → Except Error Bytes
  | .base64 => base64.decode
  | .nix32 => BaseNix32.decode
  | .base16 => base16.decode

def HashFormat.encodingName : HashFormat → Bytes
  | .base64 => str "Base64"
  | .nix32 => str "nix32"
  | .base16 => str "base16"

/-- The format is guessed from the size of the encoded hash. -/
def baseFromSize (rest : Bytes) (algo : HashAlgorithm) : Except Error HashFormat :=
  let hashSize := regularHashSize algo
  if rest.length = base16.encodedLength hashSize then .ok .base16
  else if rest.length = BaseNix32.encodedLength hashSize then .ok .nix32
  else if rest.length = base64.encodedLength hashSize then .ok .base64
  else .error ⟨.badHash, ⟨"hash '%s' has wrong length for hash algorithm '%s'",
    [rest, printHashAlgo algo]⟩⟩

/-- An error of the decoder is only given a trace; the empty result then has the
wrong size. A failed assertion of the decoder ends the process. -/
def decodeOrEmpty (decode : Bytes → Except Error Bytes) (rest : Bytes) : Except Error Bytes :=
  match decode rest with
  | .ok d => .ok d
  | .error e => if e.cls = .assertionFailure then .error e else .ok []

def requireAlgo (algo : HashAlgorithm) : Except Error Unit :=
  if algo = .blake3 then xp.require .blake3Hashes else .ok ()

def parseLowLevel (rest : Bytes) (algo : HashAlgorithm) (decode : Bytes → Except Error Bytes)
    (encodingName : Bytes) : Except Error Hash := do
  requireAlgo xp algo
  let d ← decodeOrEmpty decode rest
  if h : d.length = regularHashSize algo then return ⟨algo, d, h⟩
  else throw ⟨.badHash, ⟨"invalid %s hash '%s', length %d != expected length %d",
    [encodingName, rest, decimal d.length, decimal (regularHashSize algo)]⟩⟩

def parseNonSRIUnprefixed (s : Bytes) (algo : HashAlgorithm) : Except Error Hash := do
  let format ← baseFromSize s algo
  parseLowLevel xp s algo format.decode format.encodingName

/-- `splitPrefixTo`. -/
def splitPrefixTo (separator : UInt8) (s : Bytes) : Option (Bytes × Bytes) :=
  match s.findIdx? (· = separator) with
  | some i => some (s.take i, s.drop (i + 1))
  | none => none

def parseSRI (original : Bytes) : Except Error Hash :=
  match splitPrefixTo 45 original with
  | none => .error ⟨.badHash, ⟨"hash '%s' is not SRI", [original]⟩⟩
  | some (hashRaw, rest) => do
      let parsedType ← parseHashAlgo xp hashRaw
      parseLowLevel xp rest parsedType base64.decode (str "SRI")

end Parse

/-- `to_string(HashFormat::Base16, includeAlgo)`. -/
def Hash.toBase16 (h : Hash) (includeAlgo : Bool) : Bytes :=
  (if includeAlgo then printHashAlgo h.algo ++ str ":" else []) ++ base16.encode h.bytes

variable {xp : ExperimentalFeatureSettings}

def AlgoEnabled (xp : ExperimentalFeatureSettings) (algo : HashAlgorithm) : Prop :=
  algo = .blake3 → xp .blake3Hashes = true

theorem requireAlgo_eq_ok {algo : HashAlgorithm} :
    requireAlgo xp algo = .ok () ↔ AlgoEnabled xp algo := by
  unfold requireAlgo AlgoEnabled
  split
  next h => simp [h, ExperimentalFeatureSettings.require_eq_ok]
  next h => simp [h]

theorem parseHashAlgo_printHashAlgo {algo : HashAlgorithm} (h : AlgoEnabled xp algo) :
    parseHashAlgo xp (printHashAlgo algo) = .ok algo := by
  cases algo with
  | blake3 =>
      have hreq : xp.require .blake3Hashes = .ok () :=
        ExperimentalFeatureSettings.require_eq_ok.mpr (h rfl)
      have hopt : parseHashAlgoOpt xp (printHashAlgo .blake3) = .ok (some .blake3) := by
        rw [parseHashAlgoOpt, if_pos (by rfl), hreq]
        rfl
      rw [parseHashAlgo, hopt]
      rfl
  | md5 => rfl
  | sha1 => rfl
  | sha256 => rfl
  | sha512 => rfl

theorem parseNonSRIUnprefixed_toBase16 {hash : Hash} (h : AlgoEnabled xp hash.algo) :
    parseNonSRIUnprefixed xp (hash.toBase16 false) hash.algo = .ok hash := by
  obtain ⟨algo, bytes, hsize⟩ := hash
  have hformat : baseFromSize (base16.encode bytes) algo = .ok .base16 := by
    rw [baseFromSize, if_pos (by rw [base16.length_encode, hsize])]
  have hdecode : decodeOrEmpty base16.decode (base16.encode bytes) = .ok bytes := by
    rw [decodeOrEmpty, base16.decode_encode]
  show parseNonSRIUnprefixed xp (base16.encode bytes) algo = .ok ⟨algo, bytes, hsize⟩
  rw [parseNonSRIUnprefixed, hformat]
  simp only [bind, Except.bind, parseLowLevel, HashFormat.decode, requireAlgo_eq_ok.mpr h,
    hdecode, hsize, dite_true]
  rfl

end Nix.Util.Hashes
