import Mathlib.Data.List.TakeWhile
import Nix.Util.Decimal

/-!
Numbers and lists in texts.
-/

set_option linter.dupNamespace false

namespace Nix.Util.Strings

open Util.Types Util.Decimal

def isDigit (c : UInt8) : Bool := 48 ≤ c && c ≤ 57

/-- `boost::lexical_cast` to a number of 64 bits, without a sign. -/
def lexicalCast (s : Bytes) : Option UInt64 :=
  if s ≠ [] ∧ s.all isDigit then
    let n := s.foldl (fun n c => 10 * n + (c.toNat - 48)) 0
    if n < 2 ^ 64 then some (UInt64.ofNat n) else none
  else none

/-- `string2Int<uint64_t>`. -/
def string2Int (s : Bytes) : Option UInt64 :=
  if s.head? = some 45 then none
  else if s.head? = some 43 then lexicalCast s.tail
  else lexicalCast s

/-- `string2Int<int>`. -/
def string2Int32 (s : Bytes) : Option Int :=
  let digits := if s.head? = some 45 ∨ s.head? = some 43 then s.tail else s
  if digits ≠ [] ∧ digits.all isDigit then
    let n : Nat := digits.foldl (fun n c => 10 * n + (c.toNat - 48)) 0
    let n : Int := if s.head? = some 45 then -n else n
    if -2 ^ 31 ≤ n ∧ n < 2 ^ 31 then some n else none
  else none

theorem decimal_ne_nil (n : Nat) : decimal n ≠ [] := by
  intro heq
  have h := map_decimal n
  rw [heq, List.map_nil] at h
  exact Nat.toDigits_ne_nil h.symm

theorem isDigit_of_mem_decimal {n : Nat} {b : UInt8} (h : b ∈ decimal n) : isDigit b = true := by
  have hb := toNat_of_mem_decimal h
  rw [isDigit, Bool.and_eq_true, decide_eq_true_eq, decide_eq_true_eq, UInt8.le_iff_toNat_le,
    UInt8.le_iff_toNat_le]
  exact hb

theorem foldl_decimal (n : Nat) :
    (decimal n).foldl (fun n c => 10 * n + (c.toNat - 48)) 0 = n := by
  have h := Nat.ofDigitChars_ten_toDigits (n := n)
  rw [Nat.ofDigitChars_eq_foldl] at h
  rw [decimal, List.foldl_map]
  refine (List.foldl_ext _ _ _ fun acc c hc => ?_).trans h
  have hdigit := Nat.isDigit_of_mem_toDigits (by decide) (by decide) hc
  rw [toNat_digitByte hdigit]
  rfl

theorem string2Int_decimal (n : UInt64) : string2Int (decimal n.toNat) = some n := by
  have hhead : ∀ c, (decimal n.toNat).head? = some c → isDigit c = true := fun c hc =>
    isDigit_of_mem_decimal (List.mem_of_head? hc)
  have hcast : lexicalCast (decimal n.toNat) = some n := by
    rw [lexicalCast, if_pos ⟨decimal_ne_nil _, List.all_eq_true.mpr fun b => isDigit_of_mem_decimal⟩,
      foldl_decimal]
    dsimp only
    rw [if_pos n.toNat_lt, UInt64.ofNat_toNat]
  have hminus : (decimal n.toNat).head? ≠ some 45 := fun heq =>
    absurd (hhead _ heq) (by decide)
  have hplus : (decimal n.toNat).head? ≠ some 43 := fun heq =>
    absurd (hhead _ heq) (by decide)
  rw [string2Int, if_neg hminus, if_neg hplus, hcast]

/-- `concatStringsSep`, with a separator of one byte. -/
def concatStringsSep (separator : UInt8) : List Bytes → Bytes
  | [] => []
  | [s] => s
  | s :: t :: ss => s ++ separator :: concatStringsSep separator (t :: ss)

theorem notMem_concatStringsSep {separator c : UInt8} {ss : List Bytes} (hsep : c ≠ separator)
    (h : ∀ s ∈ ss, c ∉ s) : c ∉ concatStringsSep separator ss := by
  induction ss with
  | nil => exact List.not_mem_nil
  | cons s ss ih =>
      obtain ⟨hs, hss⟩ := List.forall_mem_cons.mp h
      cases ss with
      | nil => exact hs
      | cons t ss =>
          rw [concatStringsSep, List.mem_append, List.mem_cons, not_or, not_or]
          exact ⟨hs, hsep, ih hss⟩

/-- `tokenizeString`, with a separator of one byte. -/
def tokenizeString (separator : UInt8) : Bytes → List Bytes
  | [] => []
  | c :: s =>
      if c = separator then tokenizeString separator s
      else (c :: s.takeWhile (· ≠ separator)) ::
        tokenizeString separator (s.dropWhile (· ≠ separator))
termination_by s => s.length
decreasing_by
  · exact Nat.lt_succ_self _
  · exact Nat.lt_succ_of_le (List.length_dropWhile_le _ _)

theorem notMem_of_mem_tokenizeString {separator c : UInt8} {s t : Bytes}
    (ht : t ∈ tokenizeString separator s) (hc : c ∈ t) : c ≠ separator ∧ c ∈ s := by
  induction s using tokenizeString.induct separator with
  | case1 =>
    rw [tokenizeString] at ht
    exact absurd ht List.not_mem_nil
  | case2 s ih =>
    rw [tokenizeString, if_pos rfl] at ht
    exact (ih ht).imp_right (List.mem_cons_of_mem _)
  | case3 b s hb ih =>
    rw [tokenizeString, if_neg hb] at ht
    rcases List.mem_cons.mp ht with rfl | ht
    · rcases List.mem_cons.mp hc with rfl | hc
      · exact ⟨hb, List.mem_cons_self⟩
      · have hne := List.mem_takeWhile_imp hc
        exact ⟨of_decide_eq_true hne, List.mem_cons_of_mem _ ((List.takeWhile_prefix _).subset hc)⟩
    · exact (ih ht).imp_right fun hin =>
        List.mem_cons_of_mem _ ((List.dropWhile_suffix _).subset hin)

theorem tokenizeString_concatStringsSep {separator : UInt8} {ss : List Bytes}
    (h : ∀ s ∈ ss, s ≠ [] ∧ separator ∉ s) :
    tokenizeString separator (concatStringsSep separator ss) = ss := by
  induction ss with
  | nil => rw [concatStringsSep, tokenizeString]
  | cons s ss ih =>
      obtain ⟨⟨hne, hsep⟩, hss⟩ := List.forall_mem_cons.mp h
      obtain ⟨c, s, rfl⟩ := List.exists_cons_of_ne_nil hne
      have hc : c ≠ separator := fun heq => hsep (heq ▸ List.mem_cons_self)
      have hs : ∀ b ∈ s, decide (b ≠ separator) = true := fun b hb =>
        decide_eq_true fun heq => hsep (heq ▸ List.mem_cons_of_mem _ hb)
      cases ss with
      | nil =>
          rw [concatStringsSep, tokenizeString, if_neg hc, List.takeWhile_eq_self_iff.mpr hs,
            List.dropWhile_eq_nil_iff.mpr hs, tokenizeString]
      | cons t ss =>
          have hend : decide (separator ≠ separator) = false := decide_eq_false (not_not.mpr rfl)
          rw [concatStringsSep, List.cons_append, tokenizeString, if_neg hc,
            List.takeWhile_append_of_pos hs, List.dropWhile_append_of_pos hs,
            List.takeWhile_cons_of_neg (by simp), List.dropWhile_cons_of_neg (by simp),
            List.append_nil, tokenizeString, if_pos rfl, ih hss]

/-- `splitString`, with a separator of one byte. -/
def splitString (separator : UInt8) : Bytes → List Bytes
  | [] => [[]]
  | c :: s =>
      if c = separator then [] :: splitString separator s
      else
        match splitString separator s with
        | [] => [[c]]
        | t :: ts => (c :: t) :: ts

theorem splitString_append {separator : UInt8} {s : Bytes} (h : separator ∉ s) {r t : Bytes}
    {ts : List Bytes} (hr : splitString separator r = t :: ts) :
    splitString separator (s ++ r) = (s ++ t) :: ts := by
  induction s with
  | nil => exact hr
  | cons c s ih =>
      obtain ⟨hc, hs⟩ := not_or.mp (mt List.mem_cons.mpr h)
      rw [List.cons_append, splitString, if_neg (Ne.symm hc), ih hs]
      rfl

theorem splitString_concatStringsSep {separator : UInt8} {ss : List Bytes} (hne : ss ≠ [])
    (h : ∀ s ∈ ss, separator ∉ s) : splitString separator (concatStringsSep separator ss) = ss := by
  induction ss with
  | nil => exact absurd rfl hne
  | cons s ss ih =>
      obtain ⟨hs, hss⟩ := List.forall_mem_cons.mp h
      cases ss with
      | nil =>
          have hend := splitString_append hs (r := []) rfl
          rwa [List.append_nil] at hend
      | cons t ss =>
          have hsep : splitString separator (separator :: concatStringsSep separator (t :: ss)) =
              [] :: t :: ss := by
            rw [splitString, if_pos rfl, ih (List.cons_ne_nil _ _) hss]
          rw [concatStringsSep, splitString_append hs hsep, List.append_nil]

end Nix.Util.Strings
