import Mathlib.Tactic
import Nix.Util.Types

set_option linter.dupNamespace false

namespace Nix.Util.Decimal

open Util.Types

theorem toNat_of_isDigit {c : Char} (h : c.isDigit) : 48 ≤ c.toNat ∧ c.toNat ≤ 57 := by
  simp only [Char.isDigit, Bool.and_eq_true, decide_eq_true_eq] at h
  exact ⟨UInt32.le_iff_toNat_le.mp h.1, UInt32.le_iff_toNat_le.mp h.2⟩

theorem toNat_digitByte {c : Char} (h : c.isDigit) : (UInt8.ofNat c.toNat).toNat = c.toNat := by
  have hb := toNat_of_isDigit h
  rw [UInt8.toNat_ofNat']
  omega

theorem toNat_of_mem_decimal {n : Nat} {b : UInt8} (h : b ∈ decimal n) :
    48 ≤ b.toNat ∧ b.toNat ≤ 57 := by
  obtain ⟨c, hc, rfl⟩ := List.mem_map.mp h
  have hdigit := Nat.isDigit_of_mem_toDigits (by decide) (by decide) hc
  rw [toNat_digitByte hdigit]
  exact toNat_of_isDigit hdigit

theorem map_decimal (n : Nat) :
    (decimal n).map (fun b => Char.ofNat b.toNat) = Nat.toDigits 10 n := by
  rw [decimal, List.map_map]
  conv_rhs => rw [← List.map_id (Nat.toDigits 10 n)]
  refine List.map_congr_left fun c hc => ?_
  have hdigit := Nat.isDigit_of_mem_toDigits (by decide) (by decide) hc
  rw [Function.comp_apply, toNat_digitByte hdigit, Char.ofNat_toNat]
  rfl

theorem decimal_injective : Function.Injective decimal := by
  intro n m h
  have hdigits := congrArg (List.map fun b => Char.ofNat b.toNat) h
  rw [map_decimal, map_decimal] at hdigits
  rw [← Nat.ofDigitChars_ten_toDigits (n := n), hdigits, Nat.ofDigitChars_ten_toDigits]

end Nix.Util.Decimal
