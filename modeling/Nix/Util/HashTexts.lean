import Nix.Util.BaseNRoundTrips
import Nix.Util.Hashes

/-!
Hashes with their algorithm, as texts.
-/

set_option linter.dupNamespace false

namespace Nix.Util.Hashes

open Util.Types Util.BaseN Lib.Results

/-- `to_string(HashFormat::Nix32, includeAlgo)`. -/
def Hash.toNix32 (h : Hash) (includeAlgo : Bool) : Bytes :=
  (if includeAlgo then printHashAlgo h.algo ++ str ":" else []) ++ BaseNix32.encode h.bytes

/-- `to_string(HashFormat::SRI, ...)`. -/
def Hash.toSRI (h : Hash) : Bytes :=
  printHashAlgo h.algo ++ str "-" ++ base64.encode h.bytes

/-- `parseAnyHelper`, where the text has to name the algorithm. -/
def parseAnyPrefixed (xp : ExperimentalFeatureSettings) (original : Bytes) : Except Error Hash :=
  match splitPrefixTo 58 original with
  | some (hashRaw, rest) => do
      let algo ← parseHashAlgo xp hashRaw
      let format ← baseFromSize rest algo
      parseLowLevel xp rest algo format.decode format.encodingName
  | none =>
      match splitPrefixTo 45 original with
      | some (hashRaw, rest) => do
          let algo ← parseHashAlgo xp hashRaw
          parseLowLevel xp rest algo base64.decode (str "SRI")
      | none => .error ⟨.badHash, ⟨"hash '%s' does not include a type", [original]⟩⟩

variable {xp : ExperimentalFeatureSettings}

theorem splitPrefixTo_append {separator : UInt8} {p : Bytes} (h : separator ∉ p) (s : Bytes) :
    splitPrefixTo separator (p ++ separator :: s) = some (p, s) := by
  have hfind : (p ++ separator :: s).findIdx? (· = separator) = some p.length := by
    rw [List.findIdx?_append, List.findIdx?_eq_none_iff.mpr, Option.none_or, List.findIdx?_cons]
    · simp
    · intro b hb
      exact decide_eq_false fun heq : b = separator => h (heq ▸ hb)
  rw [splitPrefixTo, hfind]
  simp

theorem splitPrefixTo_eq_none {separator : UInt8} {s : Bytes} (h : separator ∉ s) :
    splitPrefixTo separator s = none := by
  have hfind : s.findIdx? (· = separator) = none := by
    rw [List.findIdx?_eq_none_iff]
    intro b hb
    exact decide_eq_false fun heq : b = separator => h (heq ▸ hb)
  rw [splitPrefixTo, hfind]

theorem eq_append_of_splitPrefixTo {separator : UInt8} {s p rest : Bytes}
    (h : splitPrefixTo separator s = some (p, rest)) :
    s = p ++ separator :: rest ∧ separator ∉ p := by
  unfold splitPrefixTo at h
  split at h
  next i hi =>
    cases h
    obtain ⟨hlt, heq, hbefore⟩ := List.findIdx?_eq_some_iff_getElem.mp hi
    refine ⟨?_, fun hin => ?_⟩
    · have hsep : s[i] = separator := by simpa using heq
      rw [← hsep, ← List.drop_eq_getElem_cons hlt, List.take_append_drop]
    · obtain ⟨j, hj, hget⟩ := List.mem_iff_getElem.mp hin
      rw [List.length_take] at hj
      have hne := hbefore j (by omega)
      rw [List.getElem_take] at hget
      simp [hget] at hne
  next => cases h

theorem length_of_splitPrefixTo {separator : UInt8} {s p rest : Bytes}
    (h : splitPrefixTo separator s = some (p, rest)) : rest.length < s.length := by
  rw [(eq_append_of_splitPrefixTo h).1, List.length_append, List.length_cons]
  omega

theorem notMem_printHashAlgo (algo : HashAlgorithm) :
    58 ∉ printHashAlgo algo ∧ 45 ∉ printHashAlgo algo :=
  ⟨notMem_of_isAlphanumeric (isAlphanumeric_printHashAlgo algo) (by decide),
    notMem_of_isAlphanumeric (isAlphanumeric_printHashAlgo algo) (by decide)⟩

theorem notMem_base16 (bs : Bytes) : 58 ∉ base16.encode bs :=
  notMem_of_isAlphanumeric (base16.isAlphanumeric_encode bs) (by decide)

theorem toBase16_true (hash : Hash) :
    hash.toBase16 true = printHashAlgo hash.algo ++ 58 :: base16.encode hash.bytes := by
  rw [Hash.toBase16, if_pos rfl, List.append_assoc]
  rfl

theorem eq_printHashAlgo_of_parseHashAlgo {s : Bytes} {algo : HashAlgorithm}
    (h : parseHashAlgo xp s = .ok algo) : s = printHashAlgo algo := by
  obtain ⟨found, hfound, h⟩ := bind_eq_ok.mp h
  cases found with
  | none => cases h
  | some algo' =>
    obtain rfl := pure_eq_ok.mp h
    unfold parseHashAlgoOpt at hfound
    split_ifs at hfound with hblake hmd5 hsha1 hsha256 hsha512
    · obtain ⟨_, -, hfound⟩ := bind_eq_ok.mp hfound
      cases hfound
      exact hblake
    · cases hfound
      exact hmd5
    · cases hfound
      exact hsha1
    · cases hfound
      exact hsha256
    · cases hfound
      exact hsha512
    · cases hfound

theorem printHashAlgo_injective {a b : HashAlgorithm} (h : printHashAlgo a = printHashAlgo b) :
    a = b := by
  have henabled : ∀ algo, AlgoEnabled (fun _ => true) algo := fun _ _ => rfl
  have hparse := congrArg (parseHashAlgo fun _ => true) h
  rw [parseHashAlgo_printHashAlgo (henabled a), parseHashAlgo_printHashAlgo (henabled b)] at hparse
  exact Except.ok.inj hparse

theorem ext_base16 {hash hash' : Hash} (halgo : hash.algo = hash'.algo)
    (hbytes : base16.encode hash.bytes = base16.encode hash'.bytes) : hash = hash' := by
  obtain ⟨algo, bytes, hsize⟩ := hash
  obtain ⟨algo', bytes', hsize'⟩ := hash'
  have hdecode := congrArg base16.decode hbytes
  simp only [base16.decode_encode, Except.ok.injEq] at hdecode
  cases halgo
  cases hdecode
  rfl

@[simp] theorem length_encode_nix32 {bs : Bytes} (h : bs ≠ []) :
    (BaseNix32.encode bs).length = BaseNix32.encodedLength bs.length := by
  rw [BaseNix32.encode, if_neg h, List.length_map, List.length_reverse, List.length_range]

theorem Hash.bytes_ne_nil (h : Hash) : h.bytes ≠ [] := by
  intro heq
  have hsize := h.hashSize
  rw [heq] at hsize
  cases hh : h.algo <;> rw [hh] at hsize <;> cases hsize

theorem baseFromSize_nix32 (hash : Hash) :
    baseFromSize (BaseNix32.encode hash.bytes) hash.algo = .ok .nix32 := by
  have hsizes : ∀ algo, BaseNix32.encodedLength (regularHashSize algo) ≠
      base16.encodedLength (regularHashSize algo) := by
    intro algo
    cases algo <;> decide
  rw [baseFromSize]
  simp only [length_encode_nix32 hash.bytes_ne_nil, hash.hashSize]
  rw [if_neg (hsizes hash.algo), if_pos trivial]

theorem parseLowLevel_eq_ok {hash : Hash} (h : AlgoEnabled xp hash.algo) {rest : Bytes}
    {decode : Bytes → Except Error Bytes} (hdecode : decode rest = .ok hash.bytes) (name : Bytes) :
    parseLowLevel xp rest hash.algo decode name = .ok hash := by
  obtain ⟨algo, bytes, hsize⟩ := hash
  have hor : decodeOrEmpty decode rest = .ok bytes := by
    rw [decodeOrEmpty, hdecode]
  rw [parseLowLevel, requireAlgo_eq_ok.mpr h, hor]
  simp only [bind, Except.bind, hsize, dite_true]
  rfl

theorem parseNonSRIUnprefixed_toNix32 {hash : Hash} (h : AlgoEnabled xp hash.algo) :
    parseNonSRIUnprefixed xp (hash.toNix32 false) hash.algo = .ok hash := by
  have htext : hash.toNix32 false = BaseNix32.encode hash.bytes := rfl
  rw [parseNonSRIUnprefixed, htext, baseFromSize_nix32 hash]
  exact parseLowLevel_eq_ok h (BaseNix32.decode_encode _) _

theorem parseAnyPrefixed_toNix32 {hash : Hash} (h : AlgoEnabled xp hash.algo) :
    parseAnyPrefixed xp (hash.toNix32 true) = .ok hash := by
  have htext : hash.toNix32 true =
      printHashAlgo hash.algo ++ 58 :: BaseNix32.encode hash.bytes := by
    rw [Hash.toNix32, if_pos rfl, List.append_assoc]
    rfl
  rw [parseAnyPrefixed, htext, splitPrefixTo_append (notMem_printHashAlgo hash.algo).1]
  simp only [parseHashAlgo_printHashAlgo h, baseFromSize_nix32 hash, bind, Except.bind]
  exact parseLowLevel_eq_ok h (BaseNix32.decode_encode _) _

theorem parseSRI_toSRI {hash : Hash} (h : AlgoEnabled xp hash.algo) :
    parseSRI xp hash.toSRI = .ok hash := by
  have htext : hash.toSRI = printHashAlgo hash.algo ++ 45 :: base64.encode hash.bytes := by
    rw [Hash.toSRI, List.append_assoc]
    rfl
  rw [parseSRI, htext, splitPrefixTo_append (notMem_printHashAlgo hash.algo).2]
  simp only [parseHashAlgo_printHashAlgo h, bind, Except.bind]
  exact parseLowLevel_eq_ok h (base64.decode_encode _) _

theorem Hash.notMem_toNix32_of_ne {c : UInt8} (hc : ¬IsAlphanumeric c) (hcolon : c ≠ 58)
    (h : Hash) (includeAlgo : Bool) : c ∉ h.toNix32 includeAlgo := by
  rw [toNix32, List.mem_append, not_or]
  refine ⟨?_, notMem_of_isAlphanumeric (BaseNix32.isAlphanumeric_encode h.bytes) hc⟩
  split
  · rw [List.mem_append, not_or]
    exact ⟨notMem_of_isAlphanumeric (isAlphanumeric_printHashAlgo h.algo) hc,
      fun hin => hcolon (List.mem_singleton.mp hin)⟩
  · exact List.not_mem_nil

theorem Hash.notMem_toNix32 (h : Hash) (includeAlgo : Bool) : 10 ∉ h.toNix32 includeAlgo :=
  h.notMem_toNix32_of_ne (by decide) (by decide) includeAlgo

/-!
Equality, order and rendering of hashes.
-/

def HashAlgorithm.enumerator : HashAlgorithm → Nat
  | .md5 => 42
  | .sha1 => 43
  | .sha256 => 44
  | .sha512 => 45
  | .blake3 => 46

/-- `operator==`. -/
def Hash.equals (h h2 : Hash) : Bool :=
  if h.bytes.length ≠ h2.bytes.length then false
  else (List.range h.bytes.length).all fun i => h.bytes.getD i 0 = h2.bytes.getD i 0

/-- `operator<=>`. The loop over the bytes is that of lists. -/
def Hash.cmp : Hash → Hash → Ordering :=
  compareLex (compareOn fun h => h.bytes.length)
    (compareLex (compareOn Hash.bytes) (compareOn fun h => h.algo.enumerator))

theorem equals_iff {a b : Hash} : a.equals b = true ↔ a.bytes = b.bytes := by
  rw [Hash.equals]
  split
  next hne => exact iff_of_false Bool.false_ne_true fun heq => hne (congrArg List.length heq)
  next hlen =>
    rw [not_not] at hlen
    rw [List.all_eq_true]
    constructor
    · intro h
      refine List.ext_getElem hlen fun i hi hi' => ?_
      have hget := of_decide_eq_true (h i (List.mem_range.mpr hi))
      rwa [List.getD_eq_getElem _ _ hi, List.getD_eq_getElem _ _ hi'] at hget
    · intro heq i _
      rw [heq]
      exact decide_eq_true rfl

instance : Std.TransCmp Hash.cmp :=
  inferInstanceAs (Std.TransCmp (compareLex _ _))

theorem enumerator_injective {a b : HashAlgorithm} (h : a.enumerator = b.enumerator) : a = b := by
  revert h
  cases a <;> cases b <;> decide

instance : Std.LawfulEqCmp Hash.cmp where
  compare_self := Std.ReflCmp.compare_self
  eq_of_compare {a b} h := by
    obtain ⟨-, h⟩ := Ordering.then_eq_eq.mp h
    obtain ⟨hbytes, halgo⟩ := Ordering.then_eq_eq.mp h
    have hbytes' : a.bytes = b.bytes := Std.LawfulEqCmp.eq_of_compare hbytes
    have halgo' : a.algo = b.algo :=
      enumerator_injective (Std.LawfulEqCmp.eq_of_compare halgo)
    exact ext_base16 halgo' (congrArg base16.encode hbytes')

theorem cmp_eq_iff {a b : Hash} : Hash.cmp a b = .eq ↔ a = b :=
  Std.LawfulEqCmp.compare_eq_iff_eq

theorem toBase16_true_inj {a b : Hash} : a.toBase16 true = b.toBase16 true ↔ a = b := by
  refine ⟨fun h => ?_, fun h => h ▸ rfl⟩
  rw [toBase16_true, toBase16_true] at h
  have hsplit := congrArg (splitPrefixTo 58) h
  rw [splitPrefixTo_append (notMem_printHashAlgo a.algo).1,
    splitPrefixTo_append (notMem_printHashAlgo b.algo).1] at hsplit
  obtain ⟨halgo, hbytes⟩ := Prod.mk.inj (Option.some.inj hsplit)
  exact ext_base16 (printHashAlgo_injective halgo) hbytes

/-- The order tells hashes apart as their renderings do, and is total. -/
structure OrderedAsRendered : Prop where
  rendered : ∀ a b, Hash.cmp a b = .eq ↔ a.toBase16 true = b.toBase16 true
  antisymm : ∀ a b, Hash.cmp b a = (Hash.cmp a b).swap
  trans : ∀ a b c, (Hash.cmp a b).isLE → (Hash.cmp b c).isLE → (Hash.cmp a c).isLE

def IdentityAgrees (a b : Hash) : Prop :=
  (a.equals b = true ↔ Hash.cmp a b = .eq) ∧
    (a.equals b = true ↔ a.toBase16 true = b.toBase16 true)

theorem orderedAsRendered : OrderedAsRendered where
  rendered a b := by rw [cmp_eq_iff, toBase16_true_inj]
  antisymm _ _ := Std.OrientedCmp.eq_swap
  trans _ _ _ := Std.TransCmp.isLE_trans

/-- Equality does not look at the algorithm. -/
theorem identityAgrees_iff (a b : Hash) :
    OrderedAsRendered ∧ (IdentityAgrees a b ↔ (a.bytes = b.bytes → a.algo = b.algo)) := by
  refine ⟨orderedAsRendered, ?_⟩
  rw [IdentityAgrees, cmp_eq_iff, toBase16_true_inj, and_self, equals_iff]
  constructor
  · exact fun h hbytes => congrArg Hash.algo (h.mp hbytes)
  · intro h
    refine ⟨fun hbytes => ext_base16 (h hbytes) (congrArg base16.encode hbytes), ?_⟩
    exact congrArg Hash.bytes

/-- The algorithms with hashes of 32 bytes. -/
theorem not_identityAgrees :
    ¬∀ a b : Hash, IdentityAgrees a b := by
  intro h
  have hagrees := (h ⟨.sha256, List.replicate 32 0, rfl⟩ ⟨.blake3, List.replicate 32 0, rfl⟩).1
  exact absurd (hagrees.mp (by decide)) (by decide)

end Nix.Util.Hashes
