import Mathlib.Data.List.Nodup
import Nix.Util.BaseNRoundTrips

/-!
The base-64 and base-32 loops in the widths of their variables, with every access to an array or a
string checked. A result `none` is an access outside, or a failed `assert`.
-/

set_option linter.dupNamespace false

namespace Nix.Util.BaseNWidths

open Util.Types Util.BaseN

/-- The table of the first `n` characters, with `npos` where there is none. -/
def digits (characters : Bytes) (n : Nat) : Bytes :=
  (List.range n).foldl (fun table i => table.set (characters.getD i 0).toNat (UInt8.ofNat i))
    (List.replicate 256 255)

theorem digits_succ (characters : Bytes) (n : Nat) :
    digits characters (n + 1) =
      (digits characters n).set (characters.getD n 0).toNat (UInt8.ofNat n) := by
  rw [digits, List.range_succ, List.foldl_append]
  rfl

theorem length_digits (characters : Bytes) (n : Nat) : (digits characters n).length = 256 := by
  induction n with
  | zero => exact List.length_replicate
  | succ n ih => rw [digits_succ, List.length_set, ih]

theorem getElem?_digits {characters : Bytes} (hnodup : characters.Nodup) (c : UInt8) {n : Nat}
    (hn : n ≤ characters.length) : (digits characters n)[c.toNat]? =
      some (((characters.take n).findIdx? (· = c)).elim 255 UInt8.ofNat) := by
  induction n with
  | zero =>
    rw [digits, List.range_zero, List.foldl_nil, List.getElem?_replicate, if_pos c.toNat_lt]
    rfl
  | succ n ih =>
    have hlt : n < characters.length := hn
    have hlength : (characters.take n).length = n := List.length_take_of_le (Nat.le_of_lt hlt)
    have hget : characters.getD n 0 = characters[n] := List.getD_eq_getElem _ _ hlt
    rw [digits_succ, hget, ← List.take_append_getElem hlt, List.findIdx?_append, List.getElem?_set,
      length_digits, if_pos characters[n].toNat_lt, hlength, List.findIdx?_singleton]
    by_cases heq : characters[n] = c
    · have hnot : (characters.take n).findIdx? (· = c) = none := by
        rw [List.findIdx?_eq_none_iff]
        intro x hx
        rw [decide_eq_false_iff_not]
        rintro rfl
        obtain ⟨i, hi, hsame⟩ := List.mem_take_iff_getElem.mp hx
        have hindex := (List.Nodup.getElem_inj_iff hnodup).mp (hsame.trans heq.symm)
        omega
      simp only [heq, if_true, hnot, decide_true, Option.none_or, Option.map_some, Nat.zero_add,
        Option.elim_some]
    · have hne : characters[n].toNat ≠ c.toNat := fun hnat => heq (UInt8.toNat_inj.mp hnat)
      simp only [heq, if_neg hne, ih (Nat.le_of_lt hlt), decide_false, Bool.false_eq_true, if_false,
        Option.map_none, Option.or_none]

namespace base64

open Nix.Util.BaseN.base64 (chars)

/-- The inner loop of `encode`. -/
def encodeBits (data : BitVec 32) : Nat → Option (Bytes × Nat)
  | nbits + 6 => do
      let c ← chars[(data.sshiftRight nbits &&& 0x3f#32).toNat]?
      let (res, rest) ← encodeBits data nbits
      return (c :: res, rest)
  | nbits => some ([], nbits)

/-- The outer loop, with the `int` that takes the bytes. -/
def encodeLoop : Bytes → BitVec 32 → Nat → Option Bytes
  | [], data, nbits =>
      if nbits ≠ 0 then do
        let c ← chars[(data <<< (6 - nbits) &&& 0x3f#32).toNat]?
        return [c]
      else some []
  | c :: s, data, nbits => do
      let data := data <<< 8 ||| c.toBitVec.setWidth 32
      let (res, nbits) ← encodeBits data (nbits + 8)
      let rest ← encodeLoop s data nbits
      return res ++ rest

example (data : BitVec 32) : encodeLoop [] data 0 = some [] := by
  rw [encodeLoop, if_neg (not_not.mpr rfl)]

def encode (s : Bytes) : Option Bytes := do
  let res ← encodeLoop s 0 0
  return res ++ List.replicate ((4 - res.length % 4) % 4) 61

/-- The table `base64DecodeChars`. -/
def decodeChars : Bytes := digits chars 64

/-- The loop of `decode`, with the `unsigned int` that takes the digits. -/
def decodeLoop : Bytes → BitVec 32 → Nat → Option (Except Error Bytes)
  | [], _, _ => some (.ok [])
  | c :: s, d, bits =>
      if c = 61 then some (.ok [])
      else if c = 10 then decodeLoop s d bits
      else do
        let digit ← decodeChars[c.toNat]?
        if digit = 255 then
          return .error (badCharacter "invalid character in Base64 string: '%c'" c)
        else
          let bits := bits + 6
          let d := d <<< 6 ||| digit.toBitVec.setWidth 32
          if bits ≥ 8 then
            let rest ← decodeLoop s d (bits - 8)
            return rest.map (UInt8.ofBitVec ((d >>> (bits - 8) &&& 0xff#32).setWidth 8) :: ·)
          else decodeLoop s d bits

example (s : Bytes) (d : BitVec 32) : decodeLoop (61 :: s) d 0 = some (.ok []) := by
  rw [decodeLoop, if_pos rfl]

def decode (s : Bytes) : Option (Except Error Bytes) :=
  decodeLoop s 0 0

theorem toNat_shiftLeft_or (data : BitVec 32) (c : UInt8) {k : Nat} (hk : k ≤ 8)
    (hc : c.toNat < 2 ^ k) :
    (data <<< k ||| c.toBitVec.setWidth 32).toNat = (data.toNat * 2 ^ k + c.toNat) % 2 ^ 32 := by
  have hsplit : 2 ^ 32 = 2 ^ k * 2 ^ (32 - k) := by
    rw [← Nat.pow_add, Nat.add_sub_cancel' (Nat.le_trans hk (by decide))]
  have hbyte : (c.toBitVec.setWidth 32).toNat = c.toNat := by
    rw [BitVec.toNat_setWidth, UInt8.toNat_toBitVec]
    exact Nat.mod_eq_of_lt (Nat.lt_trans c.toNat_lt (by decide))
  have hmod : data.toNat * 2 ^ k % 2 ^ 32 = 2 ^ k * (data.toNat % 2 ^ (32 - k)) := by
    rw [hsplit, Nat.mul_comm, Nat.mul_mod_mul_left]
  have hsmall : (data.toNat * 2 ^ k + c.toNat) % 2 ^ 32 =
      data.toNat * 2 ^ k % 2 ^ 32 + c.toNat := by
    rw [Nat.add_comm, Nat.add_mod, Nat.mod_eq_of_lt (Nat.lt_trans c.toNat_lt (by decide)),
      Nat.add_comm, Nat.mod_eq_of_lt]
    have hlt : data.toNat % 2 ^ (32 - k) < 2 ^ (32 - k) :=
      Nat.mod_lt _ (Nat.pow_pos (by decide))
    calc data.toNat * 2 ^ k % 2 ^ 32 + c.toNat
        < 2 ^ k * (data.toNat % 2 ^ (32 - k)) + 2 ^ k := by
          rw [hmod]
          exact Nat.add_lt_add_left hc _
      _ = 2 ^ k * (data.toNat % 2 ^ (32 - k) + 1) := (Nat.mul_succ _ _).symm
      _ ≤ 2 ^ k * 2 ^ (32 - k) := Nat.mul_le_mul_left _ hlt
      _ = 2 ^ 32 := hsplit.symm
  rw [BitVec.toNat_or, BitVec.toNat_shiftLeft, hbyte, Nat.shiftLeft_eq, hmod,
    ← Nat.two_pow_add_eq_or_of_lt hc, hsmall, hmod]

theorem toNat_sshiftRight_and (data : BitVec 32) {nbits : Nat} (h : nbits + 6 ≤ 32) :
    (data.sshiftRight nbits &&& 0x3f#32).toNat = data.toNat / 2 ^ nbits % 64 := by
  apply Nat.eq_of_testBit_eq
  intro i
  have hmask : (0x3f#32).toNat = 2 ^ 6 - 1 := rfl
  rw [show 64 = 2 ^ 6 from rfl, Nat.testBit_mod_two_pow, Nat.testBit_div_two_pow,
    BitVec.toNat_and, Nat.testBit_and, hmask, Nat.testBit_two_pow_sub_one, BitVec.testBit_toNat,
    BitVec.getLsbD_sshiftRight, BitVec.testBit_toNat]
  by_cases hi : i < 6
  · have hlt : nbits + i < 32 := by omega
    have hle : ¬32 ≤ i := by omega
    simp [hi, hlt, hle, Nat.add_comm]
  · simp [hi]

theorem length_chars : chars.length = 64 := BaseN.base64.chars_spec.2.1

theorem nodup_chars : chars.Nodup := by
  have hmap := BaseN.base64.chars_spec.1 ▸ List.nodup_range
  exact List.Nodup.of_map _ hmap

theorem getElem?_chars {n : Nat} (h : n < 64) : chars[n]? = some (chars.getD n 0) := by
  rw [List.getD_eq_getElem _ _ (length_chars.symm ▸ h), List.getElem?_eq_getElem]

theorem encodeBits_eq (data : BitVec 32) {nbits : Nat} (h : nbits ≤ 32) :
    encodeBits data nbits = some (BaseN.base64.encodeBits data.toNat nbits) := by
  induction nbits using encodeBits.induct with
  | case1 nbits ih =>
    rw [encodeBits, toNat_sshiftRight_and data h, getElem?_chars (Nat.mod_lt _ (by decide)),
      ih (by omega), BaseN.base64.encodeBits]
    rfl
  | case2 nbits hlt =>
    rw [encodeBits, BaseN.base64.encodeBits]
    · exact hlt
    · exact hlt

theorem encodeBits_snd_lt (data nbits : Nat) : (BaseN.base64.encodeBits data nbits).2 < 6 := by
  induction nbits using BaseN.base64.encodeBits.induct data with
  | case1 nbits res rest heq ih =>
    rw [BaseN.base64.encodeBits]
    exact ih
  | case2 nbits hlt =>
    unfold BaseN.base64.encodeBits
    split
    next => exact absurd rfl (hlt _)
    next => exact Nat.lt_of_not_le fun hle => hlt (nbits - 6) (Nat.sub_add_cancel hle).symm

theorem encodeLoop_eq (s : Bytes) (data : BitVec 32) {nbits : Nat} (h : nbits < 6) :
    encodeLoop s data nbits = some (BaseN.base64.encodeLoop s data.toNat nbits) := by
  induction s generalizing data nbits with
  | nil =>
    rw [encodeLoop, BaseN.base64.encodeLoop]
    split
    next =>
      have hdigit : (data <<< (6 - nbits) &&& 0x3f#32).toNat =
          data.toNat * 2 ^ (6 - nbits) % 64 := by
        rw [BitVec.toNat_and, BitVec.toNat_shiftLeft, Nat.shiftLeft_eq,
          show (0x3f#32).toNat = 2 ^ 6 - 1 from rfl, Nat.and_two_pow_sub_one_eq_mod,
          Nat.mod_mod_of_dvd _ (by decide)]
      rw [hdigit, getElem?_chars (Nat.mod_lt _ (by decide))]
      rfl
    next => rfl
  | cons c s ih =>
    have hdata := toNat_shiftLeft_or data c (k := 8) (Nat.le_refl 8) c.toNat_lt
    rw [encodeLoop, encodeBits_eq _ (by omega), hdata, BaseN.base64.encodeLoop]
    have hloop := ih (data <<< 8 ||| c.toBitVec.setWidth 32)
      (encodeBits_snd_lt ((data.toNat * 2 ^ 8 + c.toNat) % 2 ^ 32) (nbits + 8))
    rw [hdata] at hloop
    exact congrArg (fun x => x >>= fun rest => some (_ ++ rest)) hloop

theorem encode_eq (s : Bytes) : encode s = some (BaseN.base64.encode s) := by
  rw [encode, encodeLoop_eq s 0 (by decide)]
  rfl

theorem getElem?_decodeChars (c : UInt8) :
    decodeChars[c.toNat]? = some ((chars.findIdx? (· = c)).elim 255 UInt8.ofNat) := by
  have hlength : 64 ≤ chars.length := Nat.le_of_eq length_chars.symm
  rw [decodeChars, getElem?_digits nodup_chars c hlength,
    List.take_of_length_le (Nat.le_of_eq length_chars)]

theorem ofBitVec_ushiftRight (d : BitVec 32) (k : Nat) :
    UInt8.ofBitVec ((d >>> k &&& 0xff#32).setWidth 8) = UInt8.ofNat (d.toNat / 2 ^ k) := by
  apply UInt8.toNat_inj.mp
  rw [UInt8.toNat_ofNat', ← UInt8.toNat_toBitVec, UInt8.toBitVec_ofBitVec, BitVec.toNat_setWidth,
    BitVec.toNat_and, BitVec.toNat_ushiftRight, Nat.shiftRight_eq_div_pow,
    show (0xff#32).toNat = 2 ^ 8 - 1 from rfl, Nat.and_two_pow_sub_one_eq_mod, Nat.mod_mod]

theorem lt_of_findIdx?_chars {c : UInt8} {digit : Nat} (h : chars.findIdx? (· = c) = some digit) :
    digit < 64 := by
  obtain ⟨hlt, -⟩ := List.findIdx?_eq_some_iff_getElem.mp h
  exact length_chars ▸ hlt

theorem decodeLoop_eq (s : Bytes) (d : BitVec 32) (bits : Nat) :
    decodeLoop s d bits = some (BaseN.base64.decodeLoop s d.toNat bits) := by
  induction s generalizing d bits with
  | nil => rfl
  | cons c s ih =>
    rw [decodeLoop, BaseN.base64.decodeLoop, getElem?_decodeChars]
    split
    next => rfl
    next =>
      split
      next => exact ih d bits
      next =>
        cases hfind : chars.findIdx? (· = c) with
        | none => rfl
        | some digit =>
          have hdigit := lt_of_findIdx?_chars hfind
          have hsmall : (UInt8.ofNat digit).toNat = digit := by
            rw [UInt8.toNat_ofNat', Nat.mod_eq_of_lt (by omega)]
          have hne : UInt8.ofNat digit ≠ 255 := by
            intro heq
            have hall : (UInt8.ofNat digit).toNat = 255 := congrArg UInt8.toNat heq
            omega
          have hd := toNat_shiftLeft_or d (UInt8.ofNat digit) (k := 6) (by decide)
            (by rw [hsmall]; exact hdigit)
          rw [hsmall] at hd
          simp only [Option.elim_some, Option.bind_eq_bind, Option.bind_some, if_neg hne, ih, hd,
            ofBitVec_ushiftRight]
          split
          next =>
            generalize BaseN.base64.decodeLoop s _ (bits + 6 - 8) = rest
            cases rest <;> rfl
          next => rfl

theorem decode_eq (s : Bytes) : decode s = some (BaseN.base64.decode s) :=
  decodeLoop_eq s 0 0

end base64

namespace BaseNix32

open Nix.Util.BaseN.BaseNix32 (characters resize)

/-- The table `reverseMap`. -/
def reverseMap : Bytes := digits characters 32

def lookupReverse (base32 : UInt8) : Option (Option UInt8) := do
  let digit ← reverseMap[base32.toNat]?
  return if digit = 255 then none else some digit

/-- In `size_t`. -/
def encodedLength (originalLength : BitVec 64) : BitVec 64 :=
  (originalLength * 8 - 1) / 5 + 1

/-- One character, from the bits at `b`, an `unsigned int`. -/
def encodeDigit (bs : Bytes) (size : BitVec 64) (b : BitVec 32) : Option UInt8 := do
  let i := b / 8
  let j := (b % 8).toNat
  let low ← bs[i.toNat]?
  let high ← if i.setWidth 64 ≥ size - 1 then some 0 else bs[(i + 1).toNat]?
  let c := low.toBitVec >>> j ||| high.toBitVec <<< (8 - j)
  characters[(c &&& 0x1f#8).toNat]?

/-- The loop of `encode`, from the `int` before the given one down to zero. -/
def encodeLoop (bs : Bytes) (size : BitVec 64) : Nat → Option Bytes
  | 0 => some []
  | n + 1 => do
      let c ← encodeDigit bs size (BitVec.ofNat 32 n * 5)
      let s ← encodeLoop bs size n
      return c :: s

def encode (bs : Bytes) : Option Bytes :=
  let size := BitVec.ofNat 64 bs.length
  if size = 0 then some []
  else
    let len := encodedLength size
    if len = 0 then none
    else
      let n := len.setWidth 32 - 1
      if n.toInt ≥ 0 then encodeLoop bs size (n.toNat + 1) else some []

/-- One round of `decode`, with the `unsigned int` that counts the characters. -/
def decodeDigit (digit : UInt8) (n : BitVec 32) (res : Bytes) : Option Bytes := do
  let b := n * 5
  let i := (b / 8).toNat
  let j := (b % 8).toNat
  let res := resize res (i + 1)
  let byte ← res[i]?
  let res := res.set i (byte ||| UInt8.ofNat (digit.toNat * 2 ^ j))
  let carry := digit.toNat / 2 ^ (8 - j)
  if carry ≠ 0 then
    let res := resize res (i + 2)
    let byte ← res[i + 1]?
    return res.set (i + 1) (byte ||| UInt8.ofNat carry)
  else return res

/-- The loop of `decode`, which does not end when `n` cannot reach the size. -/
def decodeLoop (s : Bytes) : Nat → BitVec 32 → Bytes → Option (Except Error Bytes)
  | 0, _, _ => some (.error .diverges)
  | fuel + 1, n, res =>
      if n.toNat < s.length then do
        let c ← s[s.length - n.toNat - 1]?
        match ← lookupReverse c with
        | none =>
            return .error (badCharacter
              "invalid character in Nix32 (Nix's Base32 variation) string: '%c'" c)
        | some digit =>
            let res ← decodeDigit digit n res
            decodeLoop s fuel (n + 1) res
      else some (.ok res)

example (n : BitVec 32) (res : Bytes) : decodeLoop [] 1 n res = some (.ok res) := by
  rw [decodeLoop]
  exact if_neg (Nat.not_lt_zero _)

def decode (s : Bytes) : Option (Except Error Bytes) :=
  decodeLoop s (s.length + 1) 0 []

end BaseNix32

/-!
How long the bytes may be for the base-32 loops to be exact.
-/

namespace BaseNix32

open Nix.Util.BaseN.BaseNix32 (characters length_characters resize digit)

theorem nodup_characters : characters.Nodup := by
  rw [show characters = _ from str_ofList _]
  decide

theorem getElem?_characters {n : Nat} (h : n < 32) :
    characters[n]? = some (characters.getD n 0) := by
  rw [List.getD_eq_getElem _ _ (length_characters.symm ▸ h), List.getElem?_eq_getElem]

theorem toNat_digit (low high : UInt8) (j : Nat) :
    ((low.toBitVec >>> j ||| high.toBitVec <<< (8 - j)) &&& 0x1f#8).toNat =
      (low.toNat / 2 ^ j ||| high.toNat * 2 ^ (8 - j)) % 32 := by
  rw [BitVec.toNat_and, BitVec.toNat_or, BitVec.toNat_ushiftRight, BitVec.toNat_shiftLeft,
    Nat.shiftRight_eq_div_pow, Nat.shiftLeft_eq, show (0x1f#8).toNat = 2 ^ 5 - 1 from rfl,
    Nat.and_two_pow_sub_one_eq_mod, show 32 = 2 ^ 5 from rfl, Nat.or_mod_two_pow,
    Nat.or_mod_two_pow, Nat.mod_mod_of_dvd _ (by decide : 2 ^ 5 ∣ 2 ^ 8)]
  rfl

section Digits

variable {bs : Bytes} {size : BitVec 64} {b : BitVec 32}

/-- The comparison with `bs.size() - 1`, which is not below zero. -/
theorem setWidth_ge_iff (i : BitVec 32) (hsize : 0 < size.toNat) :
    i.setWidth 64 ≥ size - 1 ↔ size.toNat ≤ i.toNat + 1 := by
  have hi : (i.setWidth 64).toNat = i.toNat := by
    rw [BitVec.toNat_setWidth]
    exact Nat.mod_eq_of_lt (Nat.lt_trans i.isLt (by decide))
  have hsub : (size - 1).toNat = size.toNat - 1 :=
    BitVec.toNat_sub_of_le (BitVec.le_def.mpr hsize)
  rw [ge_iff_le, BitVec.le_def, hi, hsub]
  exact Nat.sub_le_iff_le_add

theorem toNat_div_eight (b : BitVec 32) : (b / 8).toNat = b.toNat / 8 := rfl

theorem toNat_mod_eight (b : BitVec 32) : (b % 8).toNat = b.toNat % 8 := rfl

theorem toNat_div_eight_succ (b : BitVec 32) : (b / 8 + 1).toNat = b.toNat / 8 + 1 := by
  have hlt := b.isLt
  rw [BitVec.toNat_add, toNat_div_eight, show (1 : BitVec 32).toNat = 1 from rfl, Nat.mod_eq_of_lt]
  omega

theorem encodeDigit_eq (hsize : 0 < size.toNat) (hle : size.toNat ≤ bs.length)
    (hb : b.toNat / 8 < bs.length) :
    encodeDigit bs size b = some (characters.getD (((bs.getD (b.toNat / 8) 0).toNat /
      2 ^ (b.toNat % 8) ||| (if size.toNat ≤ b.toNat / 8 + 1 then 0
        else (bs.getD (b.toNat / 8 + 1) 0).toNat) * 2 ^ (8 - b.toNat % 8)) % 32) 0) := by
  rw [encodeDigit]
  simp only [setWidth_ge_iff _ hsize, toNat_div_eight, toNat_mod_eight, toNat_div_eight_succ]
  rw [List.getD_eq_getElem _ _ hb, List.getElem?_eq_getElem hb]
  split
  next =>
    simp only [Option.bind_eq_bind, Option.bind_some, toNat_digit]
    exact getElem?_characters (Nat.mod_lt _ (by decide))
  next hnot =>
    have hnext : b.toNat / 8 + 1 < bs.length := Nat.lt_of_lt_of_le (Nat.lt_of_not_le hnot) hle
    rw [List.getD_eq_getElem _ _ hnext, List.getElem?_eq_getElem hnext]
    simp only [Option.bind_eq_bind, Option.bind_some, toNat_digit]
    exact getElem?_characters (Nat.mod_lt _ (by decide))

end Digits

theorem toNat_mul_five {n : Nat} (h : n * 5 < 2 ^ 32) : (BitVec.ofNat 32 n * 5).toNat = n * 5 := by
  have hn : n < 2 ^ 32 := by omega
  rw [BitVec.toNat_mul, BitVec.toNat_ofNat, Nat.mod_eq_of_lt hn, show (5 : BitVec 32).toNat = 5 from
    rfl, Nat.mod_eq_of_lt h]

theorem div_eight_lt (b : BitVec 32) : b.toNat / 8 < 2 ^ 29 := by
  have hlt := b.isLt
  omega

theorem encodeLoop_total {bs : Bytes} {size : BitVec 64} (hsize : 0 < size.toNat)
    (hle : size.toNat ≤ bs.length) {n : Nat}
    (h : ∀ m < n, (BitVec.ofNat 32 m * 5).toNat / 8 < bs.length) :
    ∃ s, encodeLoop bs size n = some s ∧ s.length = n := by
  induction n with
  | zero => exact ⟨[], rfl, rfl⟩
  | succ n ih =>
    obtain ⟨s, hs, hlength⟩ := ih fun m hm => h m (Nat.lt_succ_of_lt hm)
    rw [encodeLoop, encodeDigit_eq hsize hle (h n (Nat.lt_succ_self n)), hs]
    exact ⟨_, rfl, congrArg Nat.succ hlength⟩

theorem encodeLoop_eq {bs : Bytes} {size : BitVec 64} (hsize : size.toNat = bs.length)
    (hlength : bs.length ≤ 2 ^ 29) {n : Nat} (h : n * 5 ≤ bs.length * 8 + 4) :
    encodeLoop bs size n =
      some ((List.range n).reverse.map fun m => characters.getD (digit bs m) 0) := by
  induction n with
  | zero => rfl
  | succ n ih =>
    have hmul := toNat_mul_five (n := n) (by omega)
    have hdigit : digit bs n = ((bs.getD (n * 5 / 8) 0).toNat / 2 ^ (n * 5 % 8) |||
        (if bs.length ≤ n * 5 / 8 + 1 then 0 else (bs.getD (n * 5 / 8 + 1) 0).toNat) *
          2 ^ (8 - n * 5 % 8)) % 32 := by
      rw [ite_mul, Nat.zero_mul]
      rfl
    rw [encodeLoop, encodeDigit_eq (by omega) (Nat.le_of_eq hsize) (by omega), hmul, hsize,
      ih (by omega), List.range_succ, List.reverse_append, ← hdigit]
    rfl

theorem encode_eq {bs : Bytes} (h : bs.length ≤ 2 ^ 29) :
    encode bs = some (BaseN.BaseNix32.encode bs) := by
  have hsize : (BitVec.ofNat 64 bs.length).toNat = bs.length := by
    rw [BitVec.toNat_ofNat, Nat.mod_eq_of_lt (by omega)]
  obtain ⟨size, hdef⟩ : ∃ size, size = BitVec.ofNat 64 bs.length := ⟨_, rfl⟩
  rw [← hdef] at hsize
  rw [encode, BaseN.BaseNix32.encode, ← hdef]
  by_cases hnil : bs = []
  · have hzero : size = 0 := BitVec.eq_of_toNat_eq (hsize.trans (by rw [hnil]; rfl))
    dsimp only
    rw [if_pos hzero, if_pos hnil]
  · have hpos : 0 < bs.length := List.length_pos_of_ne_nil hnil
    have hne : size ≠ 0 := by
      intro hzero
      rw [hzero] at hsize
      exact absurd hsize (Nat.ne_of_lt hpos)
    have hlen : (encodedLength size).toNat = BaseN.BaseNix32.encodedLength bs.length := by
      have hmul : (size * 8).toNat = bs.length * 8 := by
        rw [BitVec.toNat_mul, hsize, show (8 : BitVec 64).toNat = 8 from rfl, Nat.mod_eq_of_lt]
        omega
      have hsub : (size * 8 - 1).toNat = bs.length * 8 - 1 := by
        have hone : 1 ≤ size * 8 := by
          rw [BitVec.le_def, hmul, show (1 : BitVec 64).toNat = 1 from rfl]
          omega
        rw [BitVec.toNat_sub_of_le hone, hmul]
        rfl
      rw [encodedLength, BitVec.toNat_add, BitVec.toNat_udiv, hsub, BaseN.BaseNix32.encodedLength,
        show (5 : BitVec 64).toNat = 5 from rfl, show (1 : BitVec 64).toNat = 1 from rfl,
        Nat.mod_eq_of_lt]
      omega
    rw [BaseN.BaseNix32.encodedLength] at hlen
    have hlenne : encodedLength size ≠ 0 := by
      intro hzero
      rw [hzero] at hlen
      exact absurd hlen (Nat.ne_of_lt (Nat.succ_pos _))
    have hn : ((encodedLength size).setWidth 32 - 1).toNat = (bs.length * 8 - 1) / 5 := by
      have hwidth : ((encodedLength size).setWidth 32).toNat = (bs.length * 8 - 1) / 5 + 1 := by
        rw [BitVec.toNat_setWidth, hlen, Nat.mod_eq_of_lt]
        omega
      have hone : 1 ≤ (encodedLength size).setWidth 32 := by
        rw [BitVec.le_def, hwidth]
        exact Nat.succ_le_succ (Nat.zero_le _)
      rw [BitVec.toNat_sub_of_le hone, hwidth]
      rfl
    have hint : ((encodedLength size).setWidth 32 - 1).toInt ≥ 0 := by
      rw [ge_iff_le, BitVec.toInt_pos_iff, hn]
      omega
    dsimp only
    rw [if_neg hne, if_neg hlenne, if_pos hint, if_neg hnil, hn, BaseN.BaseNix32.encodedLength]
    exact encodeLoop_eq hsize h (by omega)

/-- No access of `encode` is outside, and it makes no more characters than an `int` counts. -/
theorem encode_total (bs : Bytes) : ∃ s, encode bs = some s ∧ s.length ≤ 2 ^ 31 := by
  rcases Nat.le_total bs.length (2 ^ 29) with hle | hge
  · refine ⟨_, encode_eq hle, ?_⟩
    rw [BaseN.BaseNix32.encode]
    split
    next => exact Nat.zero_le _
    next =>
      rw [List.length_map, List.length_reverse, List.length_range, BaseN.BaseNix32.encodedLength]
      omega
  · obtain ⟨size, hdef⟩ : ∃ size, size = BitVec.ofNat 64 bs.length := ⟨_, rfl⟩
    have hsize : size.toNat ≤ bs.length := by
      rw [hdef, BitVec.toNat_ofNat]
      exact Nat.mod_le _ _
    rw [encode, ← hdef]
    dsimp only
    split
    next => exact ⟨[], rfl, Nat.zero_le _⟩
    next hne =>
      have hpos : 0 < size.toNat := by
        refine Nat.pos_of_ne_zero fun hzero => hne (BitVec.eq_of_toNat_eq hzero)
      have hlenne : encodedLength size ≠ 0 := by
        intro hzero
        have hdiv : ((size * 8 - 1) / 5).toNat < 2 ^ 64 - 1 := by
          have hlt := (size * 8 - 1).isLt
          rw [BitVec.toNat_udiv, show (5 : BitVec 64).toNat = 5 from rfl]
          omega
        have hsum := congrArg BitVec.toNat hzero
        rw [encodedLength, BitVec.toNat_add, show (1 : BitVec 64).toNat = 1 from rfl,
          show (0 : BitVec 64).toNat = 0 from rfl] at hsum
        omega
      rw [if_neg hlenne]
      split
      next hint =>
        rw [ge_iff_le, BitVec.toInt_pos_iff] at hint
        obtain ⟨s, hs, hlength⟩ := encodeLoop_total hpos hsize
          (n := ((encodedLength size).setWidth 32 - 1).toNat + 1)
          fun m _ => Nat.lt_of_lt_of_le (div_eight_lt _) hge
        exact ⟨s, hs, by omega⟩
      next => exact ⟨[], rfl, Nat.zero_le _⟩

theorem lookupReverse_eq (c : UInt8) :
    lookupReverse c = some ((BaseN.BaseNix32.lookupReverse c).map UInt8.ofNat) := by
  have hdigit : reverseMap[c.toNat]? =
      some ((BaseN.BaseNix32.lookupReverse c).elim 255 UInt8.ofNat) := by
    rw [reverseMap, getElem?_digits nodup_characters c (Nat.le_of_eq length_characters.symm),
      List.take_of_length_le (Nat.le_of_eq length_characters)]
    rfl
  rw [lookupReverse, hdigit]
  cases hfind : BaseN.BaseNix32.lookupReverse c with
  | none => rfl
  | some digit =>
    obtain ⟨hlt, -⟩ := List.findIdx?_eq_some_iff_getElem.mp hfind
    rw [length_characters] at hlt
    have hne : UInt8.ofNat digit ≠ 255 := by
      intro heq
      have hnat := congrArg UInt8.toNat heq
      rw [UInt8.toNat_ofNat', show (255 : UInt8).toNat = 255 from rfl] at hnat
      omega
    exact congrArg some (if_neg hne)

theorem set_eq_modify {res : Bytes} {i : Nat} (h : i < res.length) (x : UInt8) :
    (res[i]?.bind fun byte => some (res.set i (byte ||| x))) = some (res.modify i (· ||| x)) := by
  rw [List.getElem?_eq_getElem h, List.modify_eq_set_get _ h]
  rfl

def addDigit (i j digit : Nat) (res : Bytes) : Bytes :=
  let res := (resize res (i + 1)).modify i (· ||| UInt8.ofNat (digit * 2 ^ j))
  let carry := digit / 2 ^ (8 - j)
  if carry ≠ 0 then (resize res (i + 2)).modify (i + 1) (· ||| UInt8.ofNat carry) else res

theorem length_addDigit (i j digit : Nat) (res : Bytes) :
    (addDigit i j digit res).length ≤ i + 2 := by
  rw [addDigit]
  split
  · rw [List.length_modify, BaseN.BaseNix32.length_resize]
  · rw [List.length_modify, BaseN.BaseNix32.length_resize]
    exact Nat.le_succ _

theorem decodeDigit_eq (digit : UInt8) (n : BitVec 32) (res : Bytes) :
    decodeDigit digit n res =
      some (addDigit ((n * 5).toNat / 8) ((n * 5).toNat % 8) digit.toNat res) := by
  have hlast : ∀ (res : Bytes) (i : Nat), i < (resize res (i + 1)).length := by
    intro res i
    rw [BaseN.BaseNix32.length_resize]
    exact Nat.lt_succ_self i
  have hset := fun (res : Bytes) (i : Nat) (x : UInt8) => set_eq_modify (hlast res i) x
  have hfirst := hset res ((n * 5).toNat / 8)
    (UInt8.ofNat (digit.toNat * 2 ^ ((n * 5).toNat % 8)))
  rw [Option.bind_eq_some_iff] at hfirst
  obtain ⟨byte, hbyte, hsome⟩ := hfirst
  rw [decodeDigit, addDigit]
  simp only [toNat_div_eight, toNat_mod_eight, hbyte, Option.some.inj hsome, Option.bind_eq_bind,
    Option.bind_some]
  split
  · exact hset _ _ _
  · rfl

theorem decodeLoop_cons {c : UInt8} {digit : Nat} (h : BaseN.BaseNix32.lookupReverse c = some digit)
    (s : Bytes) (n : Nat) (res : Bytes) :
    BaseN.BaseNix32.decodeLoop (c :: s) n res =
      BaseN.BaseNix32.decodeLoop s (n + 1) (addDigit (n * 5 / 8) (n * 5 % 8) digit res) := by
  rw [BaseN.BaseNix32.decodeLoop, h]
  rfl

theorem toNat_add_one {n : BitVec 32} (h : n.toNat + 1 < 2 ^ 32) : (n + 1).toNat = n.toNat + 1 := by
  rw [BitVec.toNat_add, show (1 : BitVec 32).toNat = 1 from rfl, Nat.mod_eq_of_lt h]

theorem getElem?_reverse {s : Bytes} {n : Nat} (h : n < s.length) :
    ∃ c, s[s.length - n - 1]? = some c ∧ s.reverse.drop n = c :: s.reverse.drop (n + 1) := by
  have hlt : n < s.reverse.length := by rwa [List.length_reverse]
  refine ⟨s.reverse[n], ?_, List.drop_eq_getElem_cons hlt⟩
  rw [List.getElem_reverse, Nat.sub_right_comm, List.getElem?_eq_getElem]

theorem decodeLoop_total (s : Bytes) (fuel : Nat) (n : BitVec 32) (res : Bytes) :
    ∃ result, decodeLoop s fuel n res = some result := by
  induction fuel generalizing n res with
  | zero => exact ⟨_, rfl⟩
  | succ fuel ih =>
    rw [decodeLoop]
    split
    next h =>
      obtain ⟨c, hc, -⟩ := getElem?_reverse h
      rw [hc, Option.bind_eq_bind, Option.bind_some, lookupReverse_eq, Option.bind_eq_bind,
        Option.bind_some]
      cases BaseN.BaseNix32.lookupReverse c with
      | none => exact ⟨_, rfl⟩
      | some digit =>
        obtain ⟨result, hresult⟩ := ih (n + 1) (addDigit ((n * 5).toNat / 8) ((n * 5).toNat % 8)
          (UInt8.ofNat digit).toNat res)
        refine ⟨result, ?_⟩
        simp only [Option.map_some, decodeDigit_eq, Option.bind_eq_bind, Option.bind_some]
        exact hresult
    next => exact ⟨_, rfl⟩

theorem decodeLoop_eq {s : Bytes} (hs : s.length * 5 < 2 ^ 32 + 5) {fuel n : Nat} {res : Bytes}
    (hfuel : s.length < fuel + n) (hn : n ≤ s.length) :
    decodeLoop s fuel (BitVec.ofNat 32 n) res =
      some (BaseN.BaseNix32.decodeLoop (s.reverse.drop n) n res) := by
  have hnat : (BitVec.ofNat 32 n).toNat = n := by
    rw [BitVec.toNat_ofNat, Nat.mod_eq_of_lt (by omega)]
  induction fuel generalizing n res with
  | zero => omega
  | succ fuel ih =>
    rw [decodeLoop, hnat]
    split
    next h =>
      obtain ⟨c, hc, hdrop⟩ := getElem?_reverse h
      have hmul := toNat_mul_five (n := n) (by omega)
      have hnext : BitVec.ofNat 32 n + 1 = BitVec.ofNat 32 (n + 1) := (BitVec.ofNat_add n 1).symm
      rw [hc, hdrop, Option.bind_eq_bind, Option.bind_some, lookupReverse_eq, Option.bind_eq_bind,
        Option.bind_some]
      cases hfind : BaseN.BaseNix32.lookupReverse c with
      | none =>
        rw [BaseN.BaseNix32.decodeLoop, hfind]
        rfl
      | some digit =>
        obtain ⟨hlt, -⟩ := List.findIdx?_eq_some_iff_getElem.mp hfind
        rw [length_characters] at hlt
        have hdigit : (UInt8.ofNat digit).toNat = digit := by
          rw [UInt8.toNat_ofNat', Nat.mod_eq_of_lt (by omega)]
        have hnat' : (BitVec.ofNat 32 (n + 1)).toNat = n + 1 := by
          rw [BitVec.toNat_ofNat, Nat.mod_eq_of_lt (by omega)]
        have hloop : decodeLoop s fuel (BitVec.ofNat 32 (n + 1))
            (addDigit (n * 5 / 8) (n * 5 % 8) digit res) = _ := ih (by omega) h hnat'
        simp only [Option.map_some, decodeDigit_eq, Option.bind_eq_bind, Option.bind_some, hmul,
          hdigit, decodeLoop_cons hfind, hnext]
        exact hloop
    next h =>
      obtain rfl : n = s.length := by omega
      rw [List.drop_eq_nil_of_le (by rw [List.length_reverse]), BaseN.BaseNix32.decodeLoop]

theorem decode_eq {s : Bytes} (hs : s.length * 5 < 2 ^ 32 + 5) :
    decode s = some (BaseN.BaseNix32.decode s) :=
  decodeLoop_eq hs (Nat.lt_succ_self _) (Nat.zero_le _)

theorem length_of_decodeLoop {s r : Bytes} (hs : s.length < 2 ^ 32) {fuel : Nat} {n : BitVec 32}
    {res : Bytes} (hn : n.toNat < s.length) (h : decodeLoop s fuel n res = some (.ok r)) :
    r.length ≤ (BitVec.ofNat 32 (s.length - 1) * 5).toNat / 8 + 2 := by
  induction fuel generalizing n res with
  | zero => cases h
  | succ fuel ih =>
    obtain ⟨c, hc, -⟩ := getElem?_reverse hn
    rw [decodeLoop, if_pos hn, hc, Option.bind_eq_bind, Option.bind_some, lookupReverse_eq,
      Option.bind_eq_bind, Option.bind_some] at h
    cases hfind : BaseN.BaseNix32.lookupReverse c with
    | none =>
      rw [hfind] at h
      cases h
    | some digit =>
      rw [hfind] at h
      simp only [Option.map_some, decodeDigit_eq, Option.bind_eq_bind, Option.bind_some] at h
      have hnext : (n + 1).toNat = n.toNat + 1 := toNat_add_one (by omega)
      by_cases hlast : n.toNat + 1 < s.length
      · exact ih (hnext ▸ hlast) h
      · have hn' : BitVec.ofNat 32 (s.length - 1) = n := by
          rw [show s.length - 1 = n.toNat by omega, BitVec.ofNat_toNat, BitVec.setWidth_eq]
        cases fuel with
        | zero => cases h
        | succ fuel =>
          rw [decodeLoop, hnext, if_neg hlast] at h
          cases h
          rw [hn']
          exact length_addDigit _ _ _ _

theorem length_of_decode {bs s r : Bytes} (hencode : encode bs = some s)
    (hs : s.length ≤ 2 ^ 31) (h : decode s = some (.ok r)) (hbs : 2 ^ 29 < bs.length) :
    r.length < bs.length := by
  rcases Nat.eq_zero_or_pos s.length with hzero | hpos
  · obtain rfl := List.eq_nil_of_length_eq_zero hzero
    obtain rfl : [] = r := Except.ok.inj (Option.some.inj h)
    exact Nat.lt_of_le_of_lt (Nat.zero_le _) hbs
  · have hlength := length_of_decodeLoop (n := 0) (Nat.lt_of_le_of_lt hs (by decide)) hpos h
    have hlt := div_eight_lt (BitVec.ofNat 32 (s.length - 1) * 5)
    rcases Nat.lt_or_ge bs.length (2 ^ 29 + 2) with hone | hmore
    · -- here the position of the last digit is the first one that wraps
      obtain ⟨t, ht, hcount⟩ : ∃ t, encodeLoop bs (BitVec.ofNat 64 bs.length) 858993461 = some t ∧
          t.length = 858993461 := by
        refine encodeLoop_total ?_ ?_ fun m _ => Nat.lt_trans (div_eight_lt _) hbs
        · rw [BitVec.toNat_ofNat, Nat.mod_eq_of_lt (by omega)]
          omega
        · rw [BitVec.toNat_ofNat]
          exact Nat.mod_le _ _
      have hsize : bs.length = 2 ^ 29 + 1 := by omega
      have hloop : encode bs = encodeLoop bs (BitVec.ofNat 64 bs.length) 858993461 := by
        rw [encode, hsize]
        rfl
      obtain rfl : t = s := Option.some.inj (ht.symm.trans (hloop.symm.trans hencode))
      have hwrap : (BitVec.ofNat 32 (858993461 - 1) * 5).toNat = 4 := rfl
      rw [hcount, hwrap] at hlength
      omega
    · omega

theorem decode_encode_iff (bs : Bytes) :
    (encode bs).bind decode = some (.ok bs) ↔ bs.length ≤ 2 ^ 29 := by
  constructor
  · intro h
    obtain ⟨s, hs, hlength⟩ := encode_total bs
    rw [hs, Option.bind_some] at h
    refine Nat.le_of_not_lt fun hlt => ?_
    exact Nat.lt_irrefl _ (length_of_decode hs hlength h hlt)
  · intro h
    have hlength : (BaseN.BaseNix32.encode bs).length * 5 < 2 ^ 32 + 5 := by
      rw [BaseN.BaseNix32.encode]
      split
      next => exact Nat.succ_pos _
      next =>
        rw [List.length_map, List.length_reverse, List.length_range,
          BaseN.BaseNix32.encodedLength]
        omega
    rw [encode_eq h, Option.bind_some, decode_eq hlength, BaseN.BaseNix32.decode_encode]

theorem decode_total (s : Bytes) : ∃ result, decode s = some result :=
  decodeLoop_total s _ 0 []

end BaseNix32

/-- The bytes come back from both codecs, and no access of the loops on them is outside. -/
structure Exact (bs : Bytes) : Prop where
  base64RoundTrip : (base64.encode bs).bind base64.decode = some (.ok bs)
  base64Inside : (base64.decode bs).isSome
  nix32RoundTrip : (BaseNix32.encode bs).bind BaseNix32.decode = some (.ok bs)
  nix32Inside : (BaseNix32.decode bs).isSome

theorem exact_iff (bs : Bytes) : Exact bs ↔ bs.length ≤ 2 ^ 29 := by
  constructor
  · exact fun h => (BaseNix32.decode_encode_iff bs).mp h.nix32RoundTrip
  · intro h
    obtain ⟨result, hresult⟩ := BaseNix32.decode_total bs
    refine ⟨?_, ?_, (BaseNix32.decode_encode_iff bs).mpr h, ?_⟩
    · rw [base64.encode_eq, Option.bind_some, base64.decode_eq, BaseN.base64.decode_encode]
    · rw [base64.decode_eq]
      rfl
    · rw [hresult]
      rfl

theorem not_exact_zeros : ¬Exact (List.replicate (2 ^ 29 + 1) 0) := by
  intro h
  have hle := (BaseNix32.decode_encode_iff _).mp h.nix32RoundTrip
  rw [List.length_replicate] at hle
  exact absurd hle (by decide)

end Nix.Util.BaseNWidths
