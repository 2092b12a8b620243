import Mathlib.Data.List.GetD
import Nix.Util.Types

set_option linter.dupNamespace false

namespace Nix.Util.BaseN

open Util.Types

def badCharacter (format : String) (c : UInt8) : Error :=
  ⟨.formatError, ⟨format, [[c]]⟩⟩

theorem getD_mem_of_lt {l : Bytes} {n : Nat} (h : n < l.length) : l.getD n 0 ∈ l := by
  rw [List.getD_eq_getElem _ _ h]
  exact List.getElem_mem _

namespace base16

def chars : Bytes := str "0123456789abcdef"

def encodedLength (origSize : Nat) : Nat := origSize * 2

def encodeByte (b : UInt8) : Bytes :=
  [chars.getD (b.toNat / 16) 0, chars.getD (b.toNat % 16) 0]

def encode (bs : Bytes) : Bytes :=
  bs.flatMap encodeByte

def parseHexDigit (c : UInt8) : Except Error Nat :=
  if 48 ≤ c ∧ c ≤ 57 then .ok (c.toNat - 48)
  else if 65 ≤ c ∧ c ≤ 70 then .ok (c.toNat - 65 + 10)
  else if 97 ≤ c ∧ c ≤ 102 then .ok (c.toNat - 97 + 10)
  else .error (badCharacter "invalid character in Base16 string: '%c'" c)

def decode : Bytes → Except Error Bytes
  | [] => .ok []
  | [_] => .error (.assertion "s.size() % 2 == 0")
  | a :: b :: s => do
      let high ← parseHexDigit a
      let low ← parseHexDigit b
      let rest ← decode s
      return UInt8.ofNat (high * 16 + low) :: rest

theorem parseHexDigit_chars {n : Nat} (h : n < 16) :
    parseHexDigit (chars.getD n 0) = .ok n := by
  have hall : ∀ n < 16, parseHexDigit (chars.getD n 0) = .ok n := by decide
  exact hall n h

@[simp] theorem length_encode (bs : Bytes) : (encode bs).length = encodedLength bs.length := by
  induction bs with
  | nil => rfl
  | cons b bs ih =>
      rw [encode, List.flatMap_cons, List.length_append, ← encode, ih]
      simp only [encodeByte, encodedLength, List.length_cons, List.length_nil]
      omega

theorem decode_encode (bs : Bytes) : decode (encode bs) = .ok bs := by
  induction bs with
  | nil => rfl
  | cons b bs ih =>
      have hb := b.toNat_lt
      rw [encode, List.flatMap_cons, ← encode]
      simp only [encodeByte, List.cons_append, List.nil_append, decode,
        parseHexDigit_chars (show b.toNat / 16 < 16 by omega),
        parseHexDigit_chars (show b.toNat % 16 < 16 by omega), ih, bind, Except.bind, pure,
        Except.pure]
      rw [Nat.div_add_mod', UInt8.ofNat_toNat]

theorem mem_encode {bs : Bytes} {c : UInt8} (h : c ∈ encode bs) : c ∈ chars := by
  obtain ⟨b, -, hc⟩ := List.mem_flatMap.mp h
  have hb := b.toNat_lt
  have hget : ∀ n < 16, chars.getD n 0 ∈ chars := fun n hn => getD_mem_of_lt hn
  rcases List.mem_cons.mp hc with rfl | hc
  · exact hget _ (by omega)
  · rw [List.mem_singleton.mp hc]
    exact hget _ (by omega)

theorem isAlphanumeric_encode (bs : Bytes) : ∀ c ∈ encode bs, IsAlphanumeric c := fun c hin =>
  forall_mem_str (by decide) c (mem_encode hin)

end base16

namespace base64

def chars : Bytes := str "ABCDEFGHIJKLMNOPQRSTUVWXYZabcdefghijklmnopqrstuvwxyz0123456789+/"

def encodedLength (origSize : Nat) : Nat := (4 * origSize / 3 + 3) / 4 * 4

/-- The inner loop of `encode`, which takes six bits at a time. -/
def encodeBits (data : Nat) : Nat → Bytes × Nat
  | nbits + 6 =>
      let (res, rest) := encodeBits data nbits
      (chars.getD (data / 2 ^ nbits % 64) 0 :: res, rest)
  | nbits => ([], nbits)

/-- The outer loop, with the 32-bit accumulator `data` and its number of bits left. -/
def encodeLoop : Bytes → Nat → Nat → Bytes
  | [], data, nbits => if nbits ≠ 0 then [chars.getD (data * 2 ^ (6 - nbits) % 64) 0] else []
  | c :: s, data, nbits =>
      let data := (data * 256 + c.toNat) % 2 ^ 32
      let (res, nbits) := encodeBits data (nbits + 8)
      res ++ encodeLoop s data nbits

example : encodeLoop [0] 0 0 = [65, 65] := by
  rw [encodeLoop, encodeBits]
  decide

def encode (s : Bytes) : Bytes :=
  let res := encodeLoop s 0 0
  res ++ List.replicate ((4 - res.length % 4) % 4) 61

/-- The loop of `decode`, with the 32-bit accumulator `d` and its number of unused
bits. -/
def decodeLoop : Bytes → Nat → Nat → Except Error Bytes
  | [], _, _ => .ok []
  | c :: s, d, bits =>
      if c = 61 then .ok []
      else if c = 10 then decodeLoop s d bits
      else
        match chars.findIdx? (· = c) with
        | none => .error (badCharacter "invalid character in Base64 string: '%c'" c)
        | some digit =>
            let bits := bits + 6
            let d := (d * 64 + digit) % 2 ^ 32
            if bits ≥ 8 then do
              let rest ← decodeLoop s d (bits - 8)
              return UInt8.ofNat (d / 2 ^ (bits - 8)) :: rest
            else decodeLoop s d bits

example (s : Bytes) : decodeLoop (61 :: s) 0 0 = .ok [] := by
  rw [decodeLoop, if_pos rfl]

def decode (s : Bytes) : Except Error Bytes :=
  decodeLoop s 0 0

end base64

namespace BaseNix32

def characters : Bytes := str "0123456789abcdfghijklmnpqrsvwxyz"

def lookupReverse (base32 : UInt8) : Option Nat :=
  characters.findIdx? (· = base32)

def encodedLength (originalLength : Nat) : Nat := (originalLength * 8 - 1) / 5 + 1

/-- The five bits from position `n * 5` on. -/
def digit (bs : Bytes) (n : Nat) : Nat :=
  let i := n * 5 / 8
  let j := n * 5 % 8
  let high := if i + 1 ≥ bs.length then 0 else (bs.getD (i + 1) 0).toNat * 2 ^ (8 - j)
  ((bs.getD i 0).toNat / 2 ^ j ||| high) % 32

def encode (bs : Bytes) : Bytes :=
  if bs = [] then []
  else (List.range (encodedLength bs.length)).reverse.map fun n => characters.getD (digit bs n) 0

/-- `res.resize(n)`. -/
def resize (res : Bytes) (n : Nat) : Bytes :=
  res.take n ++ List.replicate (n - res.length) 0

/-- The loop of `decode`, over the digits from the last one on. -/
def decodeLoop : Bytes → Nat → Bytes → Except Error Bytes
  | [], _, res => .ok res
  | c :: s, n, res =>
      match lookupReverse c with
      | none =>
          .error (badCharacter
            "invalid character in Nix32 (Nix's Base32 variation) string: '%c'" c)
      | some digit =>
          let i := n * 5 / 8
          let j := n * 5 % 8
          let res := resize res (i + 1)
          let res := res.modify i (· ||| UInt8.ofNat (digit * 2 ^ j))
          let carry := digit / 2 ^ (8 - j)
          let res :=
            if carry ≠ 0 then (resize res (i + 2)).modify (i + 1) (· ||| UInt8.ofNat carry)
            else res
          decodeLoop s (n + 1) res

example (res : Bytes) : decodeLoop [] 0 res = .ok res := by
  rw [decodeLoop]

def decode (s : Bytes) : Except Error Bytes :=
  decodeLoop s.reverse 0 []

theorem length_characters : characters.length = 32 := by
  rw [show characters = _ from str_ofList _]
  rfl

theorem mem_characters_of_mem_encode {bs : Bytes} {c : UInt8} (h : c ∈ encode bs) :
    c ∈ characters := by
  have hget : ∀ n < 32, characters.getD n 0 ∈ characters :=
    fun n hn => getD_mem_of_lt (length_characters.symm ▸ hn)
  unfold encode at h
  split at h
  · cases h
  · obtain ⟨n, -, rfl⟩ := List.mem_map.mp h
    exact hget _ (Nat.mod_lt _ (by decide))

theorem isAlphanumeric_encode (bs : Bytes) : ∀ c ∈ encode bs, IsAlphanumeric c := fun c hin =>
  forall_mem_str (by decide) c (mem_characters_of_mem_encode hin)

end BaseNix32

end Nix.Util.BaseN
