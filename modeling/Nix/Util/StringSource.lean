import Nix.Util.Serialise

set_option linter.dupNamespace false

namespace Nix.Util.StringSource

open Util.Types Util.Serialise Lib.PrefixReader

theorem take_append_take_drop {α : Type} {k n : Nat} (h : k ≤ n) (s : List α) :
    s.take k ++ (s.drop k).take (n - k) = s.take n := by
  have hn : n = k + (n - k) := by omega
  rw [hn, List.take_add, Nat.add_sub_cancel_left]

theorem fill_stringSource {cap : Nat → Nat} (hpos : ∀ n, 0 < n → 0 < cap n)
    (hle : ∀ n, cap n ≤ n) (fuel len : Nat) (hfuel : len ≤ fuel) (s : Bytes) :
    fill stringSource.read cap fuel len s =
      if len ≤ s.length then .ok (s.take len, s.drop len)
      else .error ⟨.endOfFile, ⟨"end of string reached", []⟩⟩ := by
  induction fuel generalizing len s with
  | zero =>
      obtain rfl : len = 0 := by omega
      simp [fill]
  | succ fuel ih =>
      cases len with
      | zero => simp [fill]
      | succ len =>
          rcases eq_or_ne s [] with rfl | hs
          · simp [fill, stringSource, bind, Except.bind]
          · have hlen : 0 < s.length := List.length_pos_of_ne_nil hs
            have hcap := hpos (len + 1) (by omega)
            have hcap' := hle (len + 1)
            have hread : stringSource.read (cap (len + 1)) s =
                .ok (s.take (cap (len + 1)), s.drop (cap (len + 1))) := by
              simp [stringSource, hs]
            rw [fill, hread]
            simp only [bind, Except.bind, pure, Except.pure]
            generalize cap (len + 1) = k at hcap hcap'
            rw [ih _ (by rw [List.length_take]; omega)]
            by_cases hlt : len + 1 ≤ s.length
            · have hk : (s.take k).length = k := by
                rw [List.length_take]; omega
              rw [if_pos (by rw [hk, List.length_drop]; omega), if_pos hlt, hk]
              simp only [take_append_take_drop hcap', List.drop_drop]
              rw [show k + (len + 1 - k) = len + 1 by omega]
            · rw [if_neg (by rw [List.length_take, List.length_drop]; omega),
                if_neg hlt]

theorem fill_stringSource_eq_ok {cap : Nat → Nat} (hpos : ∀ n, 0 < n → 0 < cap n)
    (hle : ∀ n, cap n ≤ n) {len : Nat} {s data rest : Bytes} :
    fill stringSource.read cap len len s = .ok (data, rest) ↔
      s = data ++ rest ∧ data.length = len := by
  rw [fill_stringSource hpos hle len len le_rfl]
  constructor
  · intro h
    split at h
    · simp only [Except.ok.injEq, Prod.mk.injEq] at h
      obtain ⟨rfl, rfl⟩ := h
      exact ⟨(List.take_append_drop len s).symm, by rw [List.length_take]; omega⟩
    · simp at h
  · rintro ⟨rfl, rfl⟩
    simp

theorem recognises_readExact (len : Nat) :
    Recognises (stringSource.readExact len) fun data bs =>
      bs = data ∧ data.length = len := by
  intro s data rest
  rw [Source.readExact,
    @fill_stringSource_eq_ok id (fun _ h => h) (fun _ => le_rfl)]
  constructor
  · rintro ⟨rfl, hlen⟩
    exact ⟨data, rfl, rfl, hlen⟩
  · rintro ⟨_, rfl, rfl, hlen⟩
    exact ⟨rfl, hlen⟩

theorem recognises_drainInto (len : Nat) :
    Recognises (stringSource.drainInto len) fun data bs =>
      bs = data ∧ data.length = len := by
  intro s data rest
  rw [Source.drainInto, fill_stringSource_eq_ok (by intro n h; simp [h])
    (fun n => Nat.min_le_left n _)]
  constructor
  · rintro ⟨rfl, hlen⟩
    exact ⟨data, rfl, rfl, hlen⟩
  · rintro ⟨_, rfl, rfl, hlen⟩
    exact ⟨rfl, hlen⟩

/-- Skipping by reading behaves on a string like the overridden `skip`. -/
theorem skipByReading_stringSource (len : Nat) (s : Bytes) :
    Source.skipByReading stringSource.read len s = stringSource.skip len s := by
  rw [Source.skipByReading, fill_stringSource (by intro n h; simp [h])
    (fun n => Nat.min_le_left n _) len len le_rfl]
  by_cases h : len ≤ s.length
  · simp [stringSource, h, bind, Except.bind, pure, Except.pure, Nat.not_lt.mpr h]
  · simp [stringSource, h, bind, Except.bind, Nat.lt_of_not_le h]

theorem writeUint64_length (n : Nat) : (writeUint64 n).length = 8 := rfl

theorem readLittleEndian_lt (bs : Bytes) : readLittleEndian bs < 256 ^ bs.length := by
  induction bs with
  | nil => simp [readLittleEndian]
  | cons b bs ih =>
      have hb : b.toNat < 256 := b.toNat_lt
      rw [readLittleEndian, List.length_cons, pow_succ]
      omega

theorem toNat_writtenByte (n k : Nat) :
    (UInt8.ofNat ((n >>> k) &&& 0xff)).toNat = n / 2 ^ k % 256 := by
  rw [UInt8.toNat_ofNat', Nat.shiftRight_eq_div_pow,
    show (0xff : Nat) = 2 ^ 8 - 1 from rfl, Nat.and_two_pow_sub_one_eq_mod]
  omega

theorem add_mul_shifted_mod (n k m : Nat) :
    n / 2 ^ k % 256 + 256 * (n / 2 ^ (k + 8) % m) = n / 2 ^ k % (256 * m) := by
  rw [Nat.mod_mul, Nat.div_div_eq_div_mul, pow_add, show (2 : Nat) ^ 8 = 256 from rfl]

theorem readLittleEndian_writeUint64 (n : Nat) :
    readLittleEndian (writeUint64 n) = n % 2 ^ 64 := by
  have h0 := toNat_writtenByte n 0
  rw [Nat.shiftRight_zero] at h0
  simp only [writeUint64, readLittleEndian, toNat_writtenByte, h0]
  -- The digits are put together from the last one.
  rw [Nat.mul_zero, Nat.add_zero, add_mul_shifted_mod n 48, add_mul_shifted_mod n 40,
    add_mul_shifted_mod n 32, add_mul_shifted_mod n 24, add_mul_shifted_mod n 16,
    add_mul_shifted_mod n 8, add_mul_shifted_mod n 0, pow_zero, Nat.div_one]
  rfl

theorem readLittleEndian_inj {bs bs' : Bytes} (hlen : bs.length = bs'.length)
    (h : readLittleEndian bs = readLittleEndian bs') : bs = bs' := by
  induction bs generalizing bs' with
  | nil => exact (List.length_eq_zero_iff.mp hlen.symm).symm
  | cons b bs ih =>
      cases bs' with
      | nil => simp at hlen
      | cons b' bs' =>
          have hb := b.toNat_lt
          have hb' := b'.toNat_lt
          simp only [readLittleEndian] at h
          have hhead : b = b' := UInt8.toNat_inj.mp (by omega)
          have htail : bs = bs' := ih (by simpa using hlen) (by omega)
          rw [hhead, htail]

theorem writeUint64_readLittleEndian {bs : Bytes} (h : bs.length = 8) :
    writeUint64 (readLittleEndian bs) = bs := by
  apply readLittleEndian_inj (by rw [writeUint64_length, h])
  rw [readLittleEndian_writeUint64]
  have hlt := readLittleEndian_lt bs
  rw [h] at hlt
  exact Nat.mod_eq_of_lt hlt

theorem recognises_readNum (max : Nat) :
    Recognises (readNum stringSource max) fun n bs =>
      bs = writeUint64 n ∧ n ≤ max ∧ n < 2 ^ 64 := by
  intro s n rest
  simp only [readNum, bind_eq_ok, recognises_readExact 8 s, throwIf_eq_ok, pure_eq_ok]
  constructor
  · rintro ⟨_, t, ⟨buf, rfl, rfl, hbuf⟩, -, _, ⟨hmax, rfl⟩, rfl, rfl⟩
    have hlt := readLittleEndian_lt buf
    rw [hbuf] at hlt
    exact ⟨buf, rfl, (writeUint64_readLittleEndian hbuf).symm, by omega, hlt⟩
  · rintro ⟨_, rfl, rfl, hmax, hn⟩
    have hread : readLittleEndian (writeUint64 n) = n := by
      rw [readLittleEndian_writeUint64, Nat.mod_eq_of_lt hn]
    refine ⟨writeUint64 n, rest, ⟨_, rfl, rfl, rfl⟩, (), rest, ?_⟩
    rw [hread]
    exact ⟨⟨by omega, rfl⟩, rfl, rfl⟩

theorem writePadding_length (len : Nat) :
    (writePadding len).length = paddingLength len := by
  simp [writePadding]

theorem eq_writePadding_iff {len : Nat} {zero : Bytes} :
    zero = writePadding len ↔ zero.length = paddingLength len ∧ ∀ b ∈ zero, b = 0 := by
  rw [writePadding, List.eq_replicate_iff]

theorem recognises_readPadding (len : Nat) :
    Recognises (readPadding stringSource len) fun _ bs => bs = writePadding len := by
  intro s u rest
  unfold readPadding
  split
  next h =>
    have hlen : paddingLength len = 8 - len % 8 := by simp [paddingLength, h]
    simp only [bind_eq_ok, recognises_readExact _ s, throwIf_eq_ok]
    constructor
    · rintro ⟨_, t, ⟨zero, rfl, rfl, hz⟩, hall, rfl⟩
      refine ⟨zero, rfl, eq_writePadding_iff.mpr ⟨by rw [hlen, hz], ?_⟩⟩
      simpa using hall
    · rintro ⟨_, rfl, rfl⟩
      refine ⟨writePadding len, rest, ⟨_, rfl, rfl, ?_⟩, ?_, rfl⟩
      · rw [writePadding_length, hlen]
      · simpa using (eq_writePadding_iff.mp rfl).2
  next h =>
    have hnil : writePadding len = [] := by simp [writePadding, paddingLength, h]
    simp [hnil]

theorem recognises_readString (max : Nat) :
    Recognises (readString stringSource max) fun data bs =>
      bs = writeString data ∧ data.length ≤ max ∧ data.length < 2 ^ 64 := by
  intro s data rest
  simp only [readString, bind_eq_ok, recognises_readNum _ s, throwIf_eq_ok, pure_eq_ok,
    recognises_readExact _ _, recognises_readPadding _ _]
  constructor
  · rintro ⟨len, t, ⟨_, rfl, rfl, -, hlen⟩, -, _, ⟨hmax, rfl⟩, _, t', ⟨res, rfl, rfl, hres⟩,
      -, t'', ⟨_, rfl, rfl⟩, rfl, rfl⟩
    subst hres
    exact ⟨writeString res, by simp [writeString], rfl, by omega, hlen⟩
  · rintro ⟨_, rfl, rfl, hmax, hlen⟩
    refine ⟨data.length, data ++ (writePadding data.length ++ rest),
      ⟨_, by simp [writeString], rfl, by unfold uint64Max; omega, hlen⟩, (), _,
      ⟨by omega, rfl⟩, data, _, ⟨_, rfl, rfl, rfl⟩, (), rest, ⟨_, rfl, rfl⟩, rfl, rfl⟩

theorem writeUint64_append_inj {n m : Nat} {r r' : Bytes} (hn : n < 2 ^ 64) (hm : m < 2 ^ 64) :
    writeUint64 n ++ r = writeUint64 m ++ r' ↔ n = m ∧ r = r' := by
  constructor
  · intro h
    obtain ⟨hnm, hr⟩ := List.append_inj h rfl
    have hread := congrArg readLittleEndian hnm
    rw [readLittleEndian_writeUint64, readLittleEndian_writeUint64, Nat.mod_eq_of_lt hn,
      Nat.mod_eq_of_lt hm] at hread
    exact ⟨hread, hr⟩
  · rintro ⟨rfl, rfl⟩
    rfl

theorem writeString_append_inj {a b r r' : Bytes} (ha : a.length < 2 ^ 64)
    (hb : b.length < 2 ^ 64) :
    writeString a ++ r = writeString b ++ r' ↔ a = b ∧ r = r' := by
  constructor
  · intro h
    obtain ⟨hab, -, hr⟩ := (recognises_readString (2 ^ 64)).unique
      ⟨rfl, ha.le, ha⟩ ⟨rfl, hb.le, hb⟩ h
    exact ⟨hab, hr⟩
  · rintro ⟨rfl, rfl⟩
    rfl

end Nix.Util.StringSource
