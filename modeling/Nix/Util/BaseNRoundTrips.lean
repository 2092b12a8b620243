import Mathlib.Data.List.GetD
import Mathlib.Tactic.IntervalCases
import Mathlib.Tactic.Ring
import Nix.Util.BaseN

/-!
Bytes that are encoded are decoded again.
-/

set_option linter.dupNamespace false

namespace Nix.Util.BaseN

open Util.Types

namespace base64

theorem findIdx?_of_map_eq_range {l : Bytes} {f : UInt8 → Nat} {m n : Nat}
    (hmap : l.map f = List.range m) (h : n < m) : l.findIdx? (· = l.getD n 0) = some n := by
  have hlength : l.length = m := by simpa using congrArg List.length hmap
  have hnumber : ∀ i (hi : i < l.length), f l[i] = i := by
    intro i hi
    have hget := List.getElem_of_eq hmap (by rwa [List.length_map])
    rwa [List.getElem_map, List.getElem_range] at hget
  have hn : n < l.length := hlength.symm ▸ h
  rw [List.getD_eq_getElem _ _ hn, List.findIdx?_eq_some_iff_getElem]
  refine ⟨hn, decide_eq_true rfl, fun j hj heq => ?_⟩
  have hchar : l[j] = l[n] := of_decide_eq_true heq
  have hj' := hnumber j (hj.trans hn)
  rw [hchar, hnumber n hn] at hj'
  exact hj.ne' hj'

def digitOf (c : UInt8) : Nat :=
  if c.toNat < 48 then 62 + (c.toNat - 43) / 4 else if c.toNat < 65 then c.toNat + 4
  else if c.toNat < 97 then c.toNat - 65 else c.toNat - 71

theorem chars_spec :
    chars.map digitOf = List.range 64 ∧ chars.length = 64 ∧ 61 ∉ chars ∧ 10 ∉ chars := by
  rw [show chars = _ from str_ofList _]
  decide

theorem getD_chars_mem {n : Nat} (h : n < 64) : chars.getD n 0 ∈ chars :=
  getD_mem_of_lt (chars_spec.2.1.symm ▸ h)

theorem findIdx?_chars {n : Nat} (h : n < 64) :
    chars.findIdx? (· = chars.getD n 0) = some n ∧ chars.getD n 0 ≠ 61 ∧ chars.getD n 0 ≠ 10 := by
  obtain ⟨hmap, -, hpad, hline⟩ := chars_spec
  have hmem := getD_chars_mem h
  exact ⟨findIdx?_of_map_eq_range hmap h, fun heq => hpad (heq ▸ hmem),
    fun heq => hline (heq ▸ hmem)⟩

theorem decodeLoop_char {n : Nat} (h : n < 64) (s : Bytes) (d bits : Nat) :
    decodeLoop (chars.getD n 0 :: s) d bits =
      if bits + 6 ≥ 8 then do
        let rest ← decodeLoop s ((d * 64 + n) % 2 ^ 32) (bits + 6 - 8)
        return UInt8.ofNat ((d * 64 + n) % 2 ^ 32 / 2 ^ (bits + 6 - 8)) :: rest
      else decodeLoop s ((d * 64 + n) % 2 ^ 32) (bits + 6) := by
  obtain ⟨hfind, hpad, hline⟩ := findIdx?_chars h
  generalize chars.getD n 0 = c at hfind hpad hline ⊢
  rw [decodeLoop, if_neg hpad, if_neg hline, hfind]

theorem encodeLoop_three (a b c : UInt8) (s : Bytes) (d : Nat) :
    ∃ d', encodeLoop (a :: b :: c :: s) d 0 =
      chars.getD (a.toNat / 4) 0 :: chars.getD (a.toNat % 4 * 16 + b.toNat / 16) 0 ::
        chars.getD (b.toNat % 16 * 4 + c.toNat / 64) 0 :: chars.getD (c.toNat % 64) 0 ::
        encodeLoop s d' 0 := by
  have ha := a.toNat_lt
  have hb := b.toNat_lt
  have hc := c.toNat_lt
  obtain ⟨d₁, hd₁⟩ : ∃ d₁, d₁ = (d * 256 + a.toNat) % 2 ^ 32 := ⟨_, rfl⟩
  obtain ⟨d₂, hd₂⟩ : ∃ d₂, d₂ = (d₁ * 256 + b.toNat) % 2 ^ 32 := ⟨_, rfl⟩
  obtain ⟨d₃, hd₃⟩ : ∃ d₃, d₃ = (d₂ * 256 + c.toNat) % 2 ^ 32 := ⟨_, rfl⟩
  have h₁ : d₁ / 2 ^ 2 % 64 = a.toNat / 4 := by omega
  have h₂ : d₂ / 2 ^ 4 % 64 = a.toNat % 4 * 16 + b.toNat / 16 := by omega
  have h₃ : d₃ / 2 ^ 6 % 64 = b.toNat % 16 * 4 + c.toNat / 64 := by omega
  have h₄ : d₃ / 2 ^ 0 % 64 = c.toNat % 64 := by omega
  refine ⟨d₃, ?_⟩
  simp only [encodeLoop, encodeBits, ← hd₁, ← hd₂, ← hd₃, List.cons_append, List.nil_append, h₁,
    h₂, h₃, h₄]

theorem encodeLoop_two (a b : UInt8) (d : Nat) :
    encodeLoop [a, b] d 0 =
      [chars.getD (a.toNat / 4) 0, chars.getD (a.toNat % 4 * 16 + b.toNat / 16) 0,
        chars.getD (b.toNat % 16 * 4) 0] := by
  have ha := a.toNat_lt
  have hb := b.toNat_lt
  obtain ⟨d₁, hd₁⟩ : ∃ d₁, d₁ = (d * 256 + a.toNat) % 2 ^ 32 := ⟨_, rfl⟩
  obtain ⟨d₂, hd₂⟩ : ∃ d₂, d₂ = (d₁ * 256 + b.toNat) % 2 ^ 32 := ⟨_, rfl⟩
  have h₁ : d₁ / 2 ^ 2 % 64 = a.toNat / 4 := by omega
  have h₂ : d₂ / 2 ^ 4 % 64 = a.toNat % 4 * 16 + b.toNat / 16 := by omega
  have h₃ : d₂ * 2 ^ (6 - 4) % 64 = b.toNat % 16 * 4 := by omega
  simp only [encodeLoop, encodeBits, ← hd₁, ← hd₂, List.cons_append, List.nil_append, h₁, h₂, h₃]
  rfl

theorem encodeLoop_one (a : UInt8) (d : Nat) :
    encodeLoop [a] d 0 = [chars.getD (a.toNat / 4) 0, chars.getD (a.toNat % 4 * 16) 0] := by
  have ha := a.toNat_lt
  obtain ⟨d₁, hd₁⟩ : ∃ d₁, d₁ = (d * 256 + a.toNat) % 2 ^ 32 := ⟨_, rfl⟩
  have h₁ : d₁ / 2 ^ 2 % 64 = a.toNat / 4 := by omega
  have h₂ : d₁ * 2 ^ (6 - 2) % 64 = a.toNat % 4 * 16 := by omega
  simp only [encodeLoop, encodeBits, ← hd₁, List.cons_append, List.nil_append, h₁, h₂]
  rfl

theorem decodeLoop_padding (n d bits : Nat) :
    decodeLoop (List.replicate n 61) d bits = .ok [] := by
  cases n with
  | zero => rfl
  | succ n =>
      rw [List.replicate_succ, decodeLoop]
      exact if_pos rfl

theorem decodeLoop_one {x y : Nat} (hx : x < 64) (hy : y < 64) (s : Bytes) (d : Nat) :
    ∃ d', d' % 16 = y % 16 ∧ decodeLoop (chars.getD x 0 :: chars.getD y 0 :: s) d 0 = do
      let rest ← decodeLoop s d' 4
      return UInt8.ofNat (x * 4 + y / 16) :: rest := by
  obtain ⟨d₁, hd₁⟩ : ∃ d₁, d₁ = (d * 64 + x) % 2 ^ 32 := ⟨_, rfl⟩
  obtain ⟨d₂, hd₂⟩ : ∃ d₂, d₂ = (d₁ * 64 + y) % 2 ^ 32 := ⟨_, rfl⟩
  have hbyte : UInt8.ofNat (d₂ / 2 ^ 4) = UInt8.ofNat (x * 4 + y / 16) := by
    rw [← UInt8.toNat_inj, UInt8.toNat_ofNat', UInt8.toNat_ofNat']
    omega
  refine ⟨d₂, by omega, ?_⟩
  rw [decodeLoop_char hx, if_neg (by decide), ← hd₁, decodeLoop_char hy, if_pos (by decide), ← hd₂,
    hbyte]

theorem decodeLoop_two {z : Nat} (hz : z < 64) (s : Bytes) (d : Nat) :
    ∃ d', d' % 4 = z % 4 ∧ decodeLoop (chars.getD z 0 :: s) d 4 = do
      let rest ← decodeLoop s d' 2
      return UInt8.ofNat (d % 16 * 16 + z / 4) :: rest := by
  obtain ⟨d₁, hd₁⟩ : ∃ d₁, d₁ = (d * 64 + z) % 2 ^ 32 := ⟨_, rfl⟩
  have hbyte : UInt8.ofNat (d₁ / 2 ^ 2) = UInt8.ofNat (d % 16 * 16 + z / 4) := by
    rw [← UInt8.toNat_inj, UInt8.toNat_ofNat', UInt8.toNat_ofNat']
    omega
  refine ⟨d₁, by omega, ?_⟩
  rw [decodeLoop_char hz, if_pos (by decide), ← hd₁, hbyte]

theorem decodeLoop_three {w : Nat} (hw : w < 64) (s : Bytes) (d : Nat) :
    ∃ d', decodeLoop (chars.getD w 0 :: s) d 2 = do
      let rest ← decodeLoop s d' 0
      return UInt8.ofNat (d % 4 * 64 + w) :: rest := by
  obtain ⟨d₁, hd₁⟩ : ∃ d₁, d₁ = (d * 64 + w) % 2 ^ 32 := ⟨_, rfl⟩
  have hbyte : UInt8.ofNat (d₁ / 2 ^ 0) = UInt8.ofNat (d % 4 * 64 + w) := by
    rw [← UInt8.toNat_inj, UInt8.toNat_ofNat', UInt8.toNat_ofNat']
    omega
  refine ⟨d₁, ?_⟩
  rw [decodeLoop_char hw, if_pos (by decide), ← hd₁, hbyte]

theorem ofNat_eq {n : Nat} {b : UInt8} (h : n = b.toNat) : UInt8.ofNat n = b := by
  rw [h, UInt8.ofNat_toNat]

theorem decodeLoop_encodeLoop (pad : Nat) : ∀ (s : Bytes) (d d' : Nat),
    decodeLoop (encodeLoop s d 0 ++ List.replicate pad 61) d' 0 = .ok s
  | [], d, d' => by
      rw [encodeLoop, if_neg (by decide), List.nil_append, decodeLoop_padding]
  | [a], d, d' => by
      have ha := a.toNat_lt
      obtain ⟨e, -, he⟩ := decodeLoop_one (x := a.toNat / 4) (y := a.toNat % 4 * 16) (by omega)
        (by omega) (List.replicate pad 61) d'
      have hfirst : a.toNat / 4 * 4 + a.toNat % 4 * 16 / 16 = a.toNat := by omega
      rw [encodeLoop_one, List.cons_append, List.cons_append, List.nil_append, he,
        decodeLoop_padding, ofNat_eq hfirst]
      rfl
  | [a, b], d, d' => by
      have ha := a.toNat_lt
      have hb := b.toNat_lt
      obtain ⟨e, hmod, he⟩ := decodeLoop_one (x := a.toNat / 4)
        (y := a.toNat % 4 * 16 + b.toNat / 16) (by omega) (by omega)
        (chars.getD (b.toNat % 16 * 4) 0 :: List.replicate pad 61) d'
      obtain ⟨e', -, he'⟩ := decodeLoop_two (z := b.toNat % 16 * 4) (by omega)
        (List.replicate pad 61) e
      have hfirst : a.toNat / 4 * 4 + (a.toNat % 4 * 16 + b.toNat / 16) / 16 = a.toNat := by omega
      have hsecond : e % 16 * 16 + b.toNat % 16 * 4 / 4 = b.toNat := by omega
      rw [encodeLoop_two, List.cons_append, List.cons_append, List.cons_append, List.nil_append, he,
        he', decodeLoop_padding, ofNat_eq hfirst, ofNat_eq hsecond]
      rfl
  | a :: b :: c :: s, d, d' => by
      have ha := a.toNat_lt
      have hb := b.toNat_lt
      have hc := c.toNat_lt
      obtain ⟨d₁, hencode⟩ := encodeLoop_three a b c s d
      obtain ⟨e, hmod, he⟩ := decodeLoop_one (x := a.toNat / 4)
        (y := a.toNat % 4 * 16 + b.toNat / 16) (by omega) (by omega)
        (chars.getD (b.toNat % 16 * 4 + c.toNat / 64) 0 :: chars.getD (c.toNat % 64) 0 ::
          (encodeLoop s d₁ 0 ++ List.replicate pad 61)) d'
      obtain ⟨e', hmod', he'⟩ := decodeLoop_two (z := b.toNat % 16 * 4 + c.toNat / 64) (by omega)
        (chars.getD (c.toNat % 64) 0 :: (encodeLoop s d₁ 0 ++ List.replicate pad 61)) e
      obtain ⟨e'', he''⟩ := decodeLoop_three (w := c.toNat % 64) (by omega)
        (encodeLoop s d₁ 0 ++ List.replicate pad 61) e'
      have hfirst : a.toNat / 4 * 4 + (a.toNat % 4 * 16 + b.toNat / 16) / 16 = a.toNat := by omega
      have hsecond : e % 16 * 16 + (b.toNat % 16 * 4 + c.toNat / 64) / 4 = b.toNat := by omega
      have hthird : e' % 4 * 64 + c.toNat % 64 = c.toNat := by omega
      rw [hencode, List.cons_append, List.cons_append, List.cons_append, List.cons_append, he, he',
        he'', decodeLoop_encodeLoop pad s d₁ e'', ofNat_eq hfirst, ofNat_eq hsecond, ofNat_eq hthird]
      rfl

theorem decode_encode (s : Bytes) : decode (encode s) = .ok s :=
  decodeLoop_encodeLoop _ s 0 0

theorem mem_encodeBits {data nbits : Nat} {c : UInt8} (h : c ∈ (encodeBits data nbits).1) :
    c ∈ chars := by
  induction nbits using encodeBits.induct data with
  | case1 nbits res rest heq ih =>
      rw [encodeBits] at h
      rcases List.mem_cons.mp h with rfl | h
      · exact getD_chars_mem (Nat.mod_lt _ (by decide))
      · exact ih h
  | case2 nbits hlt =>
      unfold encodeBits at h
      split at h
      next => exact absurd rfl (hlt _)
      next => cases h

theorem mem_encodeLoop {s : Bytes} {data nbits : Nat} {c : UInt8} (h : c ∈ encodeLoop s data nbits) :
    c ∈ chars := by
  induction s generalizing data nbits with
  | nil =>
      rw [encodeLoop] at h
      split at h
      · rw [List.mem_singleton.mp h]
        exact getD_chars_mem (Nat.mod_lt _ (by decide))
      · cases h
  | cons b s ih =>
      rw [encodeLoop] at h
      rcases List.mem_append.mp h with h | h
      · have hbits : c ∈ (encodeBits ((data * 256 + b.toNat) % 2 ^ 32) (nbits + 8)).1 := h
        exact mem_encodeBits hbits
      · exact ih h

theorem mem_encode {s : Bytes} {c : UInt8} (h : c ∈ encode s) : c ∈ chars ∨ c = 61 := by
  rcases List.mem_append.mp h with h | h
  · exact .inl (mem_encodeLoop h)
  · exact .inr (List.eq_of_mem_replicate h)

end base64

namespace BaseNix32

/-- The number whose digits the bytes are, from the lowest one on. -/
def value (bs : Bytes) : Nat :=
  bs.foldr (fun b v => b.toNat + 256 * v) 0

theorem value_cons (b : UInt8) (bs : Bytes) : value (b :: bs) = b.toNat + 256 * value bs := rfl

theorem value_append (bs cs : Bytes) : value (bs ++ cs) = value bs + 256 ^ bs.length * value cs := by
  induction bs with
  | nil => simp [value]
  | cons b bs ih =>
      rw [List.cons_append, value_cons, value_cons, ih, List.length_cons]
      ring

theorem value_replicate (n : Nat) : value (List.replicate n 0) = 0 := by
  induction n with
  | zero => rfl
  | succ n ih => rw [List.replicate_succ, value_cons, ih, UInt8.toNat_zero]

theorem value_lt (bs : Bytes) : value bs < 256 ^ bs.length := by
  induction bs with
  | nil => exact Nat.one_pos
  | cons b bs ih =>
      have hb := b.toNat_lt
      rw [value_cons, List.length_cons, Nat.pow_succ]
      omega

theorem eq_of_value {bs cs : Bytes} (hlen : bs.length = cs.length) (h : value bs = value cs) :
    bs = cs := by
  induction bs generalizing cs with
  | nil => exact (List.eq_nil_of_length_eq_zero hlen.symm).symm
  | cons b bs ih =>
      obtain ⟨c, cs, rfl⟩ := List.exists_cons_of_length_eq_add_one hlen.symm
      have hb := b.toNat_lt
      have hc := c.toNat_lt
      rw [value_cons, value_cons] at h
      have hhead : b.toNat = c.toNat := by omega
      rw [ih (Nat.succ.inj hlen) (by omega), UInt8.toNat_inj.mp hhead]

theorem value_div (bs : Bytes) (i : Nat) : value bs / 256 ^ i = value (bs.drop i) := by
  rcases Nat.lt_or_ge bs.length i with hlt | hle
  · rw [List.drop_eq_nil_of_le (Nat.le_of_lt hlt)]
    refine Nat.div_eq_of_lt ((value_lt bs).trans_le ?_)
    exact Nat.pow_le_pow_right (by decide) (Nat.le_of_lt hlt)
  · have hsplit := value_append (bs.take i) (bs.drop i)
    have hlen : (bs.take i).length = i := by
      rw [List.length_take]
      omega
    rw [List.take_append_drop, hlen] at hsplit
    have hlt := value_lt (bs.take i)
    rw [hlen] at hlt
    rw [hsplit, Nat.add_mul_div_left _ _ (Nat.pow_pos (by decide)), Nat.div_eq_of_lt hlt,
      Nat.zero_add]

theorem value_drop (bs : Bytes) (i : Nat) :
    value (bs.drop i) = (bs.getD i 0).toNat + 256 * value (bs.drop (i + 1)) := by
  rcases Nat.lt_or_ge i bs.length with hlt | hle
  · rw [List.drop_eq_getElem_cons hlt, value_cons, List.getD_eq_getElem _ _ hlt]
  · rw [List.drop_eq_nil_of_le hle, List.drop_eq_nil_of_le (by omega), List.getD_eq_default _ _ hle]
    rfl

theorem digit_eq (bs : Bytes) (n : Nat) : digit bs n = value bs / 32 ^ n % 32 := by
  obtain ⟨x, hx⟩ : ∃ x, x = (bs.getD (n * 5 / 8) 0).toNat := ⟨_, rfl⟩
  obtain ⟨y, hy⟩ : ∃ y, y = (bs.getD (n * 5 / 8 + 1) 0).toNat := ⟨_, rfl⟩
  have hx' : x < 256 := hx ▸ UInt8.toNat_lt _
  have hhigh : (if n * 5 / 8 + 1 ≥ bs.length then 0
      else (bs.getD (n * 5 / 8 + 1) 0).toNat * 2 ^ (8 - n * 5 % 8)) = 2 ^ (8 - n * 5 % 8) * y := by
    split
    next hle => rw [hy, List.getD_eq_default _ _ hle, UInt8.toNat_zero, Nat.mul_zero]
    next => rw [hy, Nat.mul_comm]
  have hpow : 32 ^ n = 256 ^ (n * 5 / 8) * 2 ^ (n * 5 % 8) := by
    have h32 : 32 ^ n = 2 ^ (5 * n) := (Nat.pow_mul 2 5 n).symm
    have h256 : 256 ^ (n * 5 / 8) = 2 ^ (8 * (n * 5 / 8)) := (Nat.pow_mul 2 8 _).symm
    rw [h32, h256, ← Nat.pow_add]
    congr 1
    omega
  rw [digit, hhigh, hpow, ← Nat.div_div_eq_div_mul, value_div, value_drop, value_drop, ← hx, ← hy]
  generalize value (bs.drop (n * 5 / 8 + 1 + 1)) = r
  obtain ⟨j, hj⟩ : ∃ j, j = n * 5 % 8 := ⟨_, rfl⟩
  have hj' : j < 8 := hj ▸ Nat.mod_lt _ (by decide)
  rw [← hj]
  have hlow : x / 2 ^ j < 2 ^ (8 - j) := by
    rw [Nat.div_lt_iff_lt_mul (Nat.pow_pos (by decide)), ← Nat.pow_add, Nat.sub_add_cancel (by omega)]
    exact hx'
  have h256 : 256 = 2 ^ j * 2 ^ (8 - j) := by
    rw [← Nat.pow_add, Nat.add_sub_cancel' (Nat.le_of_lt hj')]
  have hshift : (x + 256 * (y + 256 * r)) / 2 ^ j = x / 2 ^ j + 2 ^ (8 - j) * (y + 256 * r) := by
    have hsum : x + 256 * (y + 256 * r) = x + 2 ^ j * (2 ^ (8 - j) * (y + 256 * r)) := by
      rw [← Nat.mul_assoc, ← h256]
    rw [hsum, Nat.add_mul_div_left _ _ (Nat.pow_pos (by decide))]
  have hhigher : x / 2 ^ j + 2 ^ (8 - j) * (y + 256 * r) =
      2 ^ (8 - j) * y + x / 2 ^ j + 32 * (8 * 2 ^ (8 - j) * r) := by
    ring
  rw [Nat.or_comm, ← Nat.two_pow_add_eq_or_of_lt hlow, hshift, hhigher, Nat.add_mul_mod_self_left]

theorem lookupReverse_characters {n : Nat} (h : n < 32) :
    lookupReverse (characters.getD n 0) = some n := by
  have hall : ∀ n < 32, lookupReverse (characters.getD n 0) = some n := by
    rw [show characters = _ from str_ofList _]
    decide
  exact hall n h

theorem resize_of_le {res : Bytes} {n : Nat} (h : res.length ≤ n) :
    resize res n = res ++ List.replicate (n - res.length) 0 := by
  rw [resize, List.take_of_length_le h]

theorem length_resize (res : Bytes) (n : Nat) : (resize res n).length = n := by
  rw [resize, List.length_append, List.length_take, List.length_replicate]
  omega

theorem value_resize {res : Bytes} {n : Nat} (h : res.length ≤ n) :
    value (resize res n) = value res := by
  rw [resize_of_le h, value_append, value_replicate, Nat.mul_zero, Nat.add_zero]

theorem modify_append_singleton (p : Bytes) (x : UInt8) (f : UInt8 → UInt8) :
    (p ++ [x]).modify p.length f = p ++ [f x] := by
  induction p with
  | nil => rfl
  | cons y p ih =>
      rw [List.cons_append, List.length_cons, List.modify_succ_cons, ih, List.cons_append]

theorem value_modify_last {res : Bytes} {i j d : Nat} (hlen : res.length = i + 1) (hj : j ≤ 8)
    (hres : value res < 256 ^ i * 2 ^ j) :
    value (res.modify i (· ||| UInt8.ofNat (d * 2 ^ j))) =
      value res + 256 ^ i * (d * 2 ^ j % 256) := by
  obtain ⟨p, x, rfl⟩ : ∃ p x, res = p ++ [x] := by
    refine ⟨res.dropLast, res.getLast (by rintro rfl; cases hlen), ?_⟩
    exact (List.dropLast_append_getLast _).symm
  have hp : p.length = i := by
    rw [List.length_append, List.length_singleton] at hlen
    omega
  have hx : x.toNat < 2 ^ j := by
    rw [value_append, hp, value_cons] at hres
    have hnil : value [] = 0 := rfl
    rw [hnil, Nat.mul_zero, Nat.add_zero] at hres
    exact Nat.lt_of_mul_lt_mul_left ((Nat.le_add_left _ _).trans_lt hres)
  have hmodify : (p ++ [x]).modify i (· ||| UInt8.ofNat (d * 2 ^ j)) =
      p ++ [x ||| UInt8.ofNat (d * 2 ^ j)] := by
    rw [← hp, modify_append_singleton]
  have hor : (x ||| UInt8.ofNat (d * 2 ^ j)).toNat = x.toNat + d * 2 ^ j % 256 := by
    have hsplit : d * 2 ^ j % 256 = 2 ^ j * (d % 2 ^ (8 - j)) := by
      have h256 : 256 = 2 ^ (8 - j) * 2 ^ j := by
        rw [← Nat.pow_add, Nat.sub_add_cancel hj]
      rw [h256, Nat.mul_mod_mul_right, Nat.mul_comm]
    rw [UInt8.toNat_or, UInt8.toNat_ofNat', show 2 ^ 8 = 256 from rfl, hsplit, Nat.or_comm,
      ← Nat.two_pow_add_eq_or_of_lt hx, Nat.add_comm]
  rw [hmodify, value_append, value_append, hp, value_cons, value_cons, hor]
  ring

theorem decodeLoop_digit {n d : Nat} (hd : d < 32) {res : Bytes}
    (hlen : res.length ≤ (5 * n + 7) / 8) (hres : value res < 32 ^ n) (s : Bytes) :
    ∃ res', decodeLoop (characters.getD d 0 :: s) n res = decodeLoop s (n + 1) res' ∧
      value res' = value res + d * 32 ^ n ∧ res'.length ≤ (5 * (n + 1) + 7) / 8 ∧
      (res'.length = 5 * n / 8 + 1 ∨ 256 ^ (5 * n / 8 + 1) ≤ value res') := by
  obtain ⟨i, hi⟩ : ∃ i, i = n * 5 / 8 := ⟨_, rfl⟩
  obtain ⟨j, hj⟩ : ∃ j, j = n * 5 % 8 := ⟨_, rfl⟩
  have hj8 : j < 8 := hj ▸ Nat.mod_lt _ (by decide)
  have hpow : 32 ^ n = 256 ^ i * 2 ^ j := by
    have h32 : 32 ^ n = 2 ^ (5 * n) := (Nat.pow_mul 2 5 n).symm
    have h256 : 256 ^ i = 2 ^ (8 * i) := (Nat.pow_mul 2 8 _).symm
    rw [h32, h256, ← Nat.pow_add]
    congr 1
    omega
  have hle : res.length ≤ i + 1 := by omega
  obtain ⟨low, hlow⟩ : ∃ low, low =
      (resize res (i + 1)).modify i (· ||| UInt8.ofNat (d * 2 ^ j)) := ⟨_, rfl⟩
  have hlowlen : low.length = i + 1 := by
    rw [hlow, List.length_modify, length_resize]
  have hlowval : value low = value res + 256 ^ i * (d * 2 ^ j % 256) := by
    rw [hlow, value_modify_last (length_resize _ _) (by omega), value_resize hle]
    rw [value_resize hle, ← hpow]
    exact hres
  have hcarry : d * 2 ^ j / 256 = d / 2 ^ (8 - j) := by
    have h256 : 256 = 2 ^ (8 - j) * 2 ^ j := by
      rw [← Nat.pow_add, Nat.sub_add_cancel (by omega)]
    rw [h256, Nat.mul_div_mul_right _ _ (Nat.pow_pos (by decide))]
  have hsplit : d * 2 ^ j = d * 2 ^ j % 256 + 256 * (d / 2 ^ (8 - j)) := by
    rw [← hcarry]
    omega
  have hindex : 5 * n / 8 = i := by omega
  have hfound := lookupReverse_characters hd
  by_cases hzero : d / 2 ^ (8 - j) = 0
  · refine ⟨low, ?_, ?_, by omega, .inl (hindex ▸ hlowlen)⟩
    · rw [decodeLoop, hfound]
      simp only [← hi, ← hj, hzero, ne_eq, not_true_eq_false, if_false, ← hlow]
    · rw [hzero, Nat.mul_zero, Nat.add_zero] at hsplit
      rw [hlowval, hpow, ← hsplit]
      ring
  · -- the carry goes to a byte of its own
    obtain ⟨high, hhigh⟩ : ∃ high, high =
        (resize low (i + 2)).modify (i + 1) (· ||| UInt8.ofNat (d / 2 ^ (8 - j) * 2 ^ 0)) := ⟨_, rfl⟩
    have hlow' : value low < 256 ^ (i + 1) := hlowlen ▸ value_lt low
    have hsmall : d / 2 ^ (8 - j) % 256 = d / 2 ^ (8 - j) :=
      Nat.mod_eq_of_lt ((Nat.div_le_self _ _).trans_lt (by omega))
    have hhighval : value high = value low + 256 ^ (i + 1) * (d / 2 ^ (8 - j)) := by
      rw [hhigh, value_modify_last (length_resize _ _) (by omega), value_resize (by omega),
        Nat.pow_zero, Nat.mul_one, hsmall]
      rw [value_resize (by omega), Nat.pow_zero, Nat.mul_one]
      exact hlow'
    have hj3 : 8 < j + 5 := by
      by_contra hle5
      refine hzero (Nat.div_eq_of_lt (hd.trans_le ?_))
      exact Nat.pow_le_pow_right (by decide : 0 < 2) (by omega : 5 ≤ 8 - j)
    refine ⟨high, ?_, ?_, ?_, .inr ?_⟩
    · rw [decodeLoop, hfound]
      simp only [← hi, ← hj, hzero, ne_eq, not_false_eq_true, if_true, ← hlow]
      rw [hhigh, Nat.pow_zero, Nat.mul_one]
    · rw [hhighval, hlowval, hpow]
      have hmul : 256 ^ i * (d * 2 ^ j) =
          256 ^ i * (d * 2 ^ j % 256) + 256 ^ i * (256 * (d / 2 ^ (8 - j))) := by
        rw [← Nat.mul_add, ← hsplit]
      have hassoc : d * (256 ^ i * 2 ^ j) = 256 ^ i * (d * 2 ^ j) := Nat.mul_left_comm _ _ _
      rw [hassoc, hmul, Nat.pow_succ, Nat.mul_assoc, Nat.add_assoc]
    · rw [hhigh, List.length_modify, length_resize]
      omega
    · rw [hhighval, hindex]
      refine (Nat.le_mul_of_pos_right _ (Nat.pos_of_ne_zero hzero)).trans (Nat.le_add_left _ _)

/-- The digits of a number, from the `n`th one on. -/
theorem decodeLoop_digits (v : Nat) {k n : Nat} {res : Bytes}
    (hlen : res.length ≤ (5 * n + 7) / 8) (hres : value res = v % 32 ^ n) :
    ∃ res', decodeLoop ((List.range' n k).map fun m => characters.getD (v / 32 ^ m % 32) 0) n res =
        .ok res' ∧ value res' = v % 32 ^ (n + k) ∧
      (0 < k → res'.length = 5 * (n + k - 1) / 8 + 1 ∨
        256 ^ (5 * (n + k - 1) / 8 + 1) ≤ value res') := by
  induction k generalizing n res with
  | zero => exact ⟨res, rfl, hres, nofun⟩
  | succ k ih =>
      have hlt : value res < 32 ^ n := hres ▸ Nat.mod_lt _ (Nat.pow_pos (by decide))
      obtain ⟨res₁, hstep, hval, hlen₁, hend⟩ := decodeLoop_digit
        (Nat.mod_lt (v / 32 ^ n) (by decide : 0 < 32)) hlen hlt
        ((List.range' (n + 1) k).map fun m => characters.getD (v / 32 ^ m % 32) 0)
      have hval₁ : value res₁ = v % 32 ^ (n + 1) := by
        rw [hval, hres, Nat.mod_pow_succ, Nat.mul_comm]
      obtain ⟨res', hloop, hval', hend'⟩ := ih hlen₁ hval₁
      refine ⟨res', ?_, ?_, fun _ => ?_⟩
      · rw [List.range'_succ, List.map_cons, hstep, hloop]
      · rw [hval', Nat.add_right_comm, Nat.add_assoc]
      · rcases Nat.eq_zero_or_pos k with rfl | hk
        · obtain rfl : res₁ = res' := Except.ok.inj hloop
          exact hend
        · have heq : n + (k + 1) - 1 = n + 1 + k - 1 := by omega
          rw [heq]
          exact hend' hk

theorem decode_encode (bs : Bytes) : decode (encode bs) = .ok bs := by
  rcases eq_or_ne bs [] with rfl | hne
  · rfl
  · have hpos : 0 < bs.length := List.length_pos_of_ne_nil hne
    obtain ⟨k, hk⟩ : ∃ k, k = encodedLength bs.length := ⟨_, rfl⟩
    rw [encodedLength] at hk
    have hdigits : (encode bs).reverse =
        (List.range' 0 k).map fun m => characters.getD (value bs / 32 ^ m % 32) 0 := by
      rw [encode, if_neg hne, ← List.map_reverse, List.reverse_reverse, List.range_eq_range', hk]
      refine List.map_congr_left fun m _ => ?_
      rw [digit_eq]
    have hempty : value [] = value bs % 32 ^ 0 := (Nat.mod_one _).symm
    obtain ⟨res, hloop, hval, hend⟩ :=
      decodeLoop_digits (value bs) (k := k) (Nat.zero_le _) hempty
    rw [Nat.zero_add] at hval hend
    have hlt := value_lt bs
    have hvalue : value res = value bs := by
      rw [hval, Nat.mod_eq_of_lt]
      have h32 : 32 ^ k = 2 ^ (5 * k) := (Nat.pow_mul 2 5 k).symm
      have h256 : 256 ^ bs.length = 2 ^ (8 * bs.length) := (Nat.pow_mul 2 8 _).symm
      rw [h32]
      rw [h256] at hlt
      exact hlt.trans_le (Nat.pow_le_pow_right (by decide) (by omega))
    have hlast : 5 * (k - 1) / 8 + 1 = bs.length := by omega
    rw [hlast] at hend
    have hlength : res.length = bs.length := by
      refine (hend (by omega)).resolve_right fun hle => ?_
      omega
    rw [decode, hdigits, hloop, eq_of_value hlength hvalue]

end BaseNix32

end Nix.Util.BaseN
