import Mathlib.Data.Nat.Digits.Defs
import Nix.Util.HashTexts

/-!
Every format gives a hash back, and texts of the base 16 and base 32 formats are those that
are printed.
-/

set_option linter.dupNamespace false

namespace Nix.Util.BaseN

open Util.Types Lib.Results

namespace base16

/-- Lower case, as `tolower` of the "C" locale. -/
def lower (c : UInt8) : UInt8 :=
  if 65 ≤ c ∧ c ≤ 90 then c + 32 else c

theorem parseHexDigit_eq_ok {c : UInt8} {n : Nat} (h : parseHexDigit c = .ok n) :
    n < 16 ∧ lower c = chars.getD n 0 := by
  have hall : ∀ c < 256, (match parseHexDigit (UInt8.ofNat c) with
      | .ok n => decide (n < 16 ∧ lower (UInt8.ofNat c) = chars.getD n 0)
      | .error _ => true) = true := by decide +kernel
  have hc := hall c.toNat c.toNat_lt
  rw [UInt8.ofNat_toNat, h] at hc
  exact of_decide_eq_true hc

theorem map_lower_of_decode {s bs : Bytes} (h : decode s = .ok bs) : s.map lower = encode bs := by
  induction s using decode.induct generalizing bs with
  | case1 =>
      cases h
      rfl
  | case2 c => cases h
  | case3 a b s ih =>
      rw [decode] at h
      obtain ⟨high, hhigh, h⟩ := bind_eq_ok.mp h
      obtain ⟨low, hlow, h⟩ := bind_eq_ok.mp h
      obtain ⟨rest, hrest, h⟩ := bind_eq_ok.mp h
      obtain ⟨hhigh16, ha⟩ := parseHexDigit_eq_ok hhigh
      obtain ⟨hlow16, hb⟩ := parseHexDigit_eq_ok hlow
      cases h
      have hbyte : (UInt8.ofNat (high * 16 + low)).toNat = high * 16 + low := by
        rw [UInt8.toNat_ofNat']
        omega
      have hdiv : (high * 16 + low) / 16 = high := by omega
      have hmod : (high * 16 + low) % 16 = low := by omega
      rw [encode, List.flatMap_cons, ← encode, ← ih hrest, encodeByte, hbyte, hdiv, hmod,
        List.map_cons, List.map_cons, ha, hb]
      rfl

end base16

namespace base64

theorem length_encodeLoop : ∀ (s : Bytes) (d : Nat),
    (encodeLoop s d 0).length = (4 * s.length + 2) / 3
  | [], _ => rfl
  | [a], d => by simp [encodeLoop_one]
  | [a, b], d => by simp [encodeLoop_two]
  | a :: b :: c :: s, d => by
      obtain ⟨d', hloop⟩ := encodeLoop_three a b c s d
      rw [hloop]
      simp only [List.length_cons, length_encodeLoop s d']
      omega

@[simp] theorem length_encode (s : Bytes) : (encode s).length = encodedLength s.length := by
  rw [encode, encodedLength]
  simp only [List.length_append, List.length_replicate, length_encodeLoop]
  omega

end base64

namespace BaseNix32

theorem lookupReverse_eq_some {c : UInt8} {d : Nat} (h : lookupReverse c = some d) :
    d < 32 ∧ c = characters.getD d 0 := by
  obtain ⟨hlt, heq, -⟩ := List.findIdx?_eq_some_iff_getElem.mp h
  refine ⟨hlt, ?_⟩
  rw [List.getD_eq_getElem _ _ hlt]
  exact (of_decide_eq_true heq).symm

theorem exists_digits_of_decodeLoop {s : Bytes} {n : Nat} {res bs : Bytes}
    (h : decodeLoop s n res = .ok bs) :
    ∃ ds : List Nat, (∀ d ∈ ds, d < 32) ∧ s = ds.map fun d => characters.getD d 0 := by
  induction s generalizing n res with
  | nil => exact ⟨[], nofun, rfl⟩
  | cons c s ih =>
      rw [decodeLoop] at h
      cases hc : lookupReverse c with
      | none =>
          rw [hc] at h
          cases h
      | some d =>
          rw [hc] at h
          obtain ⟨hd, hchar⟩ := lookupReverse_eq_some hc
          obtain ⟨ds, hds, hs⟩ := ih h
          refine ⟨d :: ds, ?_, ?_⟩
          · intro e he
            rcases List.mem_cons.mp he with rfl | he
            · exact hd
            · exact hds e he
          · rw [List.map_cons, ← hchar, ← hs]

theorem eq_map_ofDigits {ds : List Nat} (h : ∀ d ∈ ds, d < 32) :
    ds = (List.range' 0 ds.length).map fun m => Nat.ofDigits 32 ds / 32 ^ m % 32 := by
  refine List.ext_getElem (by rw [List.length_map, List.length_range']) fun m hm _ => ?_
  rw [List.getElem_map, List.getElem_range', Nat.zero_add, Nat.one_mul,
    Nat.ofDigits_div_pow_eq_ofDigits_drop m (by decide) ds h, List.drop_eq_getElem_cons hm,
    Nat.ofDigits_cons, Nat.add_mul_mod_self_left, Nat.mod_eq_of_lt (h _ (List.getElem_mem hm))]

/-- A text of the right size is the one that is encoded. A last digit `0` that is left out
would be decoded to the same bytes. -/
theorem encode_of_decode {s bs : Bytes} (hne : bs ≠ []) (hlen : s.length = encodedLength bs.length)
    (h : decode s = .ok bs) : encode bs = s := by
  rw [decode] at h
  obtain ⟨ds, hds, hs⟩ := exists_digits_of_decodeLoop h
  obtain ⟨v, hv⟩ : ∃ v, v = Nat.ofDigits 32 ds := ⟨_, rfl⟩
  have hk : ds.length = encodedLength bs.length := by
    rw [← hlen, ← @List.length_reverse _ s, hs, List.length_map]
  have hdigits : s.reverse =
      (List.range' 0 ds.length).map fun m => characters.getD (v / 32 ^ m % 32) 0 := by
    conv_lhs => rw [hs, eq_map_ofDigits hds, List.map_map]
    rw [hv]
    rfl
  have hvalue : value bs = v := by
    have hempty : value [] = v % 32 ^ 0 := (Nat.mod_one _).symm
    obtain ⟨res, hloop, hval, -⟩ := decodeLoop_digits v (k := ds.length) (Nat.zero_le _) hempty
    rw [← hdigits, h] at hloop
    cases hloop
    rw [hval, Nat.zero_add, Nat.mod_eq_of_lt]
    exact hv ▸ Nat.ofDigits_lt_base_pow_length (by decide) hds
  have hreverse : (encode bs).reverse = s.reverse := by
    rw [encode, if_neg hne, ← List.map_reverse, List.reverse_reverse, List.range_eq_range', ← hk,
      hdigits]
    refine List.map_congr_left fun m _ => ?_
    rw [digit_eq, hvalue]
  exact List.reverse_injective hreverse

end BaseNix32

end Nix.Util.BaseN

namespace Nix.Util.Hashes

open Util.Types Util.BaseN Lib.Results

/-- `HashFormat`, with the format that always names the algorithm. -/
inductive AnyFormat
  | explicit (format : HashFormat)
  | sri
  deriving DecidableEq, Repr

def HashFormat.encode : HashFormat → Bytes → Bytes
  | .base64 => base64.encode
  | .nix32 => BaseNix32.encode
  | .base16 => base16.encode

def Hash.toString (h : Hash) (hashFormat : AnyFormat) (includeAlgo : Bool) : Bytes :=
  match hashFormat with
  | .explicit format =>
      (if includeAlgo then printHashAlgo h.algo ++ str ":" else []) ++ format.encode h.bytes
  | .sri => printHashAlgo h.algo ++ str "-" ++ base64.encode h.bytes

section Parse

variable (xp : ExperimentalFeatureSettings)

/-- The algorithm that the text names, the rest of it, and whether it is SRI. -/
def splitAlgo (s : Bytes) : Except Error (Option HashAlgorithm × Bytes × Bool) :=
  match splitPrefixTo 58 s with
  | some (hashRaw, rest) => do
      let algo ← parseHashAlgo xp hashRaw
      return (some algo, rest, false)
  | none =>
      match splitPrefixTo 45 s with
      | some (hashRaw, rest) => do
          let algo ← parseHashAlgo xp hashRaw
          return (some algo, rest, true)
      | none => .ok (none, s, false)

def parseAnyHelper (s : Bytes) (resolveAlgo : Option HashAlgorithm → Except Error HashAlgorithm) :
    Except Error (Hash × AnyFormat) := do
  let (optParsedAlgo, rest, isSRI) ← splitAlgo xp s
  let algo ← resolveAlgo optParsedAlgo
  if isSRI then
    return (← parseLowLevel xp rest algo base64.decode (str "SRI"), .sri)
  else
    let format ← baseFromSize rest algo
    return (← parseLowLevel xp rest algo format.decode format.encodingName, .explicit format)

/-- The text or the caller names the algorithm, and both agree. -/
def resolveAlgo (original : Bytes) (optAlgo optParsedAlgo : Option HashAlgorithm) :
    Except Error HashAlgorithm :=
  match optParsedAlgo, optAlgo with
  | none, none => .error ⟨.badHash,
      ⟨"hash '%s' does not include a type, nor is the type otherwise known from context",
        [original]⟩⟩
  | none, some algo => .ok algo
  | some parsedAlgo, none => .ok parsedAlgo
  | some parsedAlgo, some algo =>
      if parsedAlgo ≠ algo then
        .error ⟨.badHash, ⟨"hash '%s' should have type '%s'", [original, printHashAlgo algo]⟩⟩
      else .ok parsedAlgo

def parseAnyReturningFormat (original : Bytes) (optAlgo : Option HashAlgorithm) :
    Except Error (Hash × AnyFormat) :=
  parseAnyHelper xp original (resolveAlgo original optAlgo)

def parseAny (original : Bytes) (optAlgo : Option HashAlgorithm) : Except Error Hash := do
  return (← parseAnyReturningFormat xp original optAlgo).1

end Parse

variable {xp : ExperimentalFeatureSettings}

theorem HashFormat.decode_encode (format : HashFormat) (bs : Bytes) :
    format.decode (format.encode bs) = .ok bs := by
  cases format with
  | base64 => exact base64.decode_encode bs
  | nix32 => exact BaseNix32.decode_encode bs
  | base16 => exact base16.decode_encode bs

def HashFormat.encodedLength : HashFormat → Nat → Nat
  | .base64 => base64.encodedLength
  | .nix32 => BaseNix32.encodedLength
  | .base16 => base16.encodedLength

theorem HashFormat.length_encode (format : HashFormat) {bs : Bytes} (h : bs ≠ []) :
    (format.encode bs).length = format.encodedLength bs.length := by
  cases format with
  | base64 => exact base64.length_encode bs
  | nix32 => exact length_encode_nix32 h
  | base16 => exact base16.length_encode bs

theorem baseFromSize_eq_ok {rest : Bytes} {algo : HashAlgorithm} {format : HashFormat} :
    baseFromSize rest algo = .ok format ↔
      rest.length = format.encodedLength (regularHashSize algo) := by
  have hsizes : ∀ algo, ∀ f g : HashFormat, f.encodedLength (regularHashSize algo) =
      g.encodedLength (regularHashSize algo) → f = g := by
    intro algo f g
    cases algo <;> cases f <;> cases g <;> decide
  have hsizes := hsizes algo
  rw [baseFromSize]
  constructor
  · intro h
    split at h
    next hlen => cases h; exact hlen
    next =>
      split at h
      next hlen => cases h; exact hlen
      next =>
        split at h
        next hlen => cases h; exact hlen
        next => cases h
  · intro h
    split
    next hlen => rw [hsizes .base16 format (hlen.symm.trans h)]
    next hbase16 =>
      split
      next hlen => rw [hsizes .nix32 format (hlen.symm.trans h)]
      next hnix32 =>
        split
        next hlen => rw [hsizes .base64 format (hlen.symm.trans h)]
        next hbase64 =>
          cases format with
          | base64 => exact absurd h hbase64
          | nix32 => exact absurd h hnix32
          | base16 => exact absurd h hbase16

theorem baseFromSize_encode (hash : Hash) (format : HashFormat) :
    baseFromSize (format.encode hash.bytes) hash.algo = .ok format := by
  rw [baseFromSize_eq_ok, format.length_encode hash.bytes_ne_nil, hash.hashSize]

/-- The algorithm of the caller, if any, is that of the hash. -/
def Known (hash : Hash) (optAlgo : Option HashAlgorithm) : Prop :=
  ∀ algo ∈ optAlgo, algo = hash.algo

theorem resolveAlgo_some {hash : Hash} {optAlgo : Option HashAlgorithm} (h : Known hash optAlgo)
    (original : Bytes) : resolveAlgo original optAlgo (some hash.algo) = .ok hash.algo := by
  cases optAlgo with
  | none => rfl
  | some algo => rw [resolveAlgo, if_neg (not_not.mpr (h algo rfl).symm)]

theorem parseAnyReturningFormat_toString {hash : Hash} (h : AlgoEnabled xp hash.algo)
    {optAlgo : Option HashAlgorithm} (hknown : Known hash optAlgo) (format : AnyFormat) :
    parseAnyReturningFormat xp (hash.toString format true) optAlgo = .ok (hash, format) := by
  obtain ⟨hcolon, hdash⟩ := notMem_printHashAlgo hash.algo
  cases format with
  | explicit format =>
      have htext : hash.toString (.explicit format) true =
          printHashAlgo hash.algo ++ 58 :: format.encode hash.bytes := by
        rw [Hash.toString, if_pos rfl, List.append_assoc]
        rfl
      have hsplit : splitAlgo xp (hash.toString (.explicit format) true) =
          .ok (some hash.algo, format.encode hash.bytes, false) := by
        rw [splitAlgo, htext, splitPrefixTo_append hcolon]
        simp only [parseHashAlgo_printHashAlgo h]
        rfl
      simp only [parseAnyReturningFormat, parseAnyHelper, hsplit, bind, Except.bind,
        resolveAlgo_some hknown, Bool.false_eq_true, if_false, baseFromSize_encode hash format,
        parseLowLevel_eq_ok h (format.decode_encode hash.bytes), pure, Except.pure]
  | sri =>
      have htext : hash.toString .sri true =
          printHashAlgo hash.algo ++ 45 :: base64.encode hash.bytes := by
        rw [Hash.toString, List.append_assoc]
        rfl
      have hnone : splitPrefixTo 58 (printHashAlgo hash.algo ++ 45 :: base64.encode hash.bytes) =
          none := by
        refine splitPrefixTo_eq_none ?_
        rw [List.mem_append, List.mem_cons, not_or, not_or]
        refine ⟨hcolon, by decide, fun hin => ?_⟩
        rcases base64.mem_encode hin with hin | hin
        · exact notMem_str (by decide) hin
        · exact absurd hin (by decide)
      have hsplit : splitAlgo xp (hash.toString .sri true) =
          .ok (some hash.algo, base64.encode hash.bytes, true) := by
        rw [splitAlgo, htext, hnone]
        simp only [splitPrefixTo_append hdash, parseHashAlgo_printHashAlgo h]
        rfl
      simp only [parseAnyReturningFormat, parseAnyHelper, hsplit, bind, Except.bind,
        resolveAlgo_some hknown, if_true, parseLowLevel_eq_ok h (base64.decode_encode hash.bytes),
        pure, Except.pure]

theorem parseNonSRIUnprefixed_encode {hash : Hash} (h : AlgoEnabled xp hash.algo)
    (format : HashFormat) :
    parseNonSRIUnprefixed xp (hash.toString (.explicit format) false) hash.algo = .ok hash := by
  have htext : hash.toString (.explicit format) false = format.encode hash.bytes := rfl
  rw [parseNonSRIUnprefixed, htext, baseFromSize_encode hash format]
  exact parseLowLevel_eq_ok h (format.decode_encode hash.bytes) _

theorem parseLowLevel_ok {rest : Bytes} {algo : HashAlgorithm}
    {decode : Bytes → Except Error Bytes} {name : Bytes} {hash : Hash}
    (h : parseLowLevel xp rest algo decode name = .ok hash) :
    hash.algo = algo ∧ decode rest = .ok hash.bytes := by
  rw [parseLowLevel] at h
  obtain ⟨_, -, h⟩ := bind_eq_ok.mp h
  obtain ⟨d, hd, h⟩ := bind_eq_ok.mp h
  split at h
  next hsize =>
    cases h
    refine ⟨rfl, ?_⟩
    rw [decodeOrEmpty] at hd
    split at hd
    next hdecode =>
      cases hd
      exact hdecode
    next =>
      -- the empty result after an error has no size of a hash
      split at hd
      · cases hd
      · cases hd
        cases algo <;> cases hsize
  next => cases h

/-- Letters of a text are read in either case where the format is base 16. -/
def sameText (format : HashFormat) (text : Bytes) : Bytes :=
  if format = .base16 then text.map base16.lower else text

theorem encode_of_decode {format : HashFormat} (hformat : format ≠ .base64) {rest : Bytes}
    {hash : Hash} (hlen : baseFromSize rest hash.algo = .ok format)
    (h : format.decode rest = .ok hash.bytes) : sameText format rest = format.encode hash.bytes := by
  rw [baseFromSize_eq_ok, ← hash.hashSize] at hlen
  cases format with
  | base64 => exact absurd rfl hformat
  | nix32 => exact (BaseNix32.encode_of_decode hash.bytes_ne_nil hlen h).symm
  | base16 => exact base16.map_lower_of_decode h

theorem parseNonSRIUnprefixed_ok {format : HashFormat} (hformat : format ≠ .base64) {text : Bytes}
    {algo : HashAlgorithm} {hash : Hash} (hlen : baseFromSize text algo = .ok format)
    (h : parseNonSRIUnprefixed xp text algo = .ok hash) :
    hash.algo = algo ∧ sameText format text = hash.toString (.explicit format) false := by
  rw [parseNonSRIUnprefixed, hlen] at h
  obtain ⟨rfl, hdecode⟩ := parseLowLevel_ok h
  exact ⟨rfl, encode_of_decode hformat hlen hdecode⟩

theorem splitAlgo_ok {s rest : Bytes} {optParsedAlgo : Option HashAlgorithm}
    (h : splitAlgo xp s = .ok (optParsedAlgo, rest, false)) :
    optParsedAlgo = none ∧ rest = s ∨
      ∃ algo, optParsedAlgo = some algo ∧ s = printHashAlgo algo ++ 58 :: rest := by
  rw [splitAlgo] at h
  split at h
  next hashRaw rest' hsplit =>
    obtain ⟨algo, halgo, h⟩ := bind_eq_ok.mp h
    cases h
    refine .inr ⟨algo, rfl, ?_⟩
    rw [← eq_printHashAlgo_of_parseHashAlgo halgo]
    exact (eq_append_of_splitPrefixTo hsplit).1
  next =>
    split at h
    next =>
      obtain ⟨algo, -, h⟩ := bind_eq_ok.mp h
      cases h
    next =>
      cases h
      exact .inl ⟨rfl, rfl⟩

theorem eq_of_resolveAlgo {original : Bytes} {optAlgo : Option HashAlgorithm}
    {parsedAlgo algo : HashAlgorithm} (h : resolveAlgo original optAlgo (some parsedAlgo) = .ok algo) :
    parsedAlgo = algo := by
  cases optAlgo with
  | none => exact Except.ok.inj h
  | some expected =>
      rw [resolveAlgo] at h
      split at h
      · cases h
      · exact Except.ok.inj h

theorem sameText_printHashAlgo (format : HashFormat) (algo : HashAlgorithm) (rest : Bytes) :
    sameText format (printHashAlgo algo ++ 58 :: rest) =
      printHashAlgo algo ++ str ":" ++ sameText format rest := by
  have hlower : (printHashAlgo algo ++ str ":").map base16.lower = printHashAlgo algo ++ str ":" := by
    cases algo <;> decide
  have hcons : printHashAlgo algo ++ 58 :: rest = printHashAlgo algo ++ str ":" ++ rest := by
    rw [List.append_assoc]
    rfl
  rw [hcons, sameText, sameText]
  split
  · rw [List.map_append, hlower]
  · rfl

theorem parseAnyReturningFormat_ok {format : HashFormat} (hformat : format ≠ .base64) {text : Bytes}
    {optAlgo : Option HashAlgorithm} {hash : Hash}
    (h : parseAnyReturningFormat xp text optAlgo = .ok (hash, .explicit format)) :
    ∃ includeAlgo, sameText format text = hash.toString (.explicit format) includeAlgo := by
  rw [parseAnyReturningFormat, parseAnyHelper] at h
  obtain ⟨⟨optParsedAlgo, rest, isSRI⟩, hsplit, h⟩ := bind_eq_ok.mp h
  obtain ⟨algo, hresolve, h⟩ := bind_eq_ok.mp h
  cases isSRI with
  | true =>
      rw [if_pos rfl] at h
      obtain ⟨_, -, h⟩ := bind_eq_ok.mp h
      cases h
  | false =>
      rw [if_neg Bool.false_ne_true] at h
      obtain ⟨format', hlen, h⟩ := bind_eq_ok.mp h
      obtain ⟨hash', hparse, h⟩ := bind_eq_ok.mp h
      cases h
      obtain ⟨rfl, hdecode⟩ := parseLowLevel_ok hparse
      have hrest := encode_of_decode hformat hlen hdecode
      rcases splitAlgo_ok hsplit with ⟨-, rfl⟩ | ⟨parsedAlgo, rfl, rfl⟩
      · exact ⟨false, hrest⟩
      · obtain rfl := eq_of_resolveAlgo hresolve
        refine ⟨true, ?_⟩
        rw [sameText_printHashAlgo, hrest]
        rfl

/-- A hash is read back from each of its texts, with the format. -/
structure Lossless (xp : ExperimentalFeatureSettings) (hash : Hash) : Prop where
  parseAny : ∀ format optAlgo, Known hash optAlgo →
    parseAny xp (hash.toString format true) optAlgo = .ok hash
  parseAnyReturningFormat : ∀ format optAlgo, Known hash optAlgo →
    parseAnyReturningFormat xp (hash.toString format true) optAlgo = .ok (hash, format)
  parseNonSRIUnprefixed : ∀ format,
    parseNonSRIUnprefixed xp (hash.toString (.explicit format) false) hash.algo = .ok hash

/-- A hash is read from its texts only. -/
structure Unambiguous (xp : ExperimentalFeatureSettings) (hash : Hash) : Prop where
  parseAny : ∀ format ≠ .base64, ∀ text optAlgo,
    parseAnyReturningFormat xp text optAlgo = .ok (hash, .explicit format) →
      ∃ includeAlgo, sameText format text = hash.toString (.explicit format) includeAlgo
  parseNonSRIUnprefixed : ∀ format ≠ .base64, ∀ text algo,
    baseFromSize text algo = .ok format → parseNonSRIUnprefixed xp text algo = .ok hash →
      hash.algo = algo ∧ sameText format text = hash.toString (.explicit format) false

/-- The features that the algorithm needs are those that a hash of it was made with. -/
theorem lossless_and_unambiguous {hash : Hash} (h : AlgoEnabled xp hash.algo) :
    Lossless xp hash ∧ Unambiguous xp hash := by
  refine ⟨⟨fun format optAlgo hknown => ?_, fun format optAlgo hknown => ?_, ?_⟩, ⟨?_, ?_⟩⟩
  · rw [parseAny, parseAnyReturningFormat_toString h hknown format]
    rfl
  · exact parseAnyReturningFormat_toString h hknown format
  · exact parseNonSRIUnprefixed_encode h
  · exact fun format hformat text optAlgo => parseAnyReturningFormat_ok hformat
  · exact fun format hformat text algo => parseNonSRIUnprefixed_ok hformat

theorem lossless_and_unambiguous_zero :
    Lossless (fun _ => false) ⟨.sha256, List.replicate 32 0, rfl⟩ ∧
      Unambiguous (fun _ => false) ⟨.sha256, List.replicate 32 0, rfl⟩ :=
  lossless_and_unambiguous nofun

end Nix.Util.Hashes
