import Mathlib.Algebra.Group.Int.Defs
import Mathlib.Algebra.GroupWithZero.Nat
import Mathlib.Data.List.Basic

set_option linter.dupNamespace false

namespace Nix.Util.Types

/-- A C++ `std::string`: any sequence of bytes. -/
abbrev Bytes := List UInt8

instance : LawfulBEq Bytes :=
  inferInstance

instance (s : Bytes) (p : UInt8 → Prop) [DecidablePred p] : Decidable (∀ c ∈ s, p c) :=
  List.decidableBAll p s

theorem length_zeros : (List.replicate 32 (0 : UInt8)).length = 32 :=
  rfl

def str (s : String) : Bytes :=
  s.toList.map fun c => UInt8.ofNat c.toNat

theorem str_ofList (l : List Char) :
    str (String.ofList l) = l.map fun c => UInt8.ofNat c.toNat := by
  rw [str, String.toList_ofList]

theorem forall_mem_of_all {l : Bytes} {p : UInt8 → Prop} [DecidablePred p]
    (h : (l.all fun c => p c) = true) : ∀ c ∈ l, p c := by
  simpa using h

theorem forall_mem_str {l : List Char} {p : UInt8 → Prop} [DecidablePred p]
    (h : (l.all fun c => p (UInt8.ofNat c.toNat)) = true) : ∀ c ∈ str (String.ofList l), p c := by
  rw [str_ofList]
  exact forall_mem_of_all (by rwa [List.all_map])

theorem notMem_str {c : UInt8} {l : List Char} (h : c ∉ l.map fun c => UInt8.ofNat c.toNat) :
    c ∉ str (String.ofList l) := by
  rwa [str_ofList]

theorem str_ne_str {l l' : List Char}
    (h : (l.map fun c => UInt8.ofNat c.toNat) ≠ l'.map fun c => UInt8.ofNat c.toNat) :
    str (String.ofList l) ≠ str (String.ofList l') := by
  rwa [str_ofList, str_ofList]

def IsAlphanumeric (c : UInt8) : Prop :=
  48 ≤ c ∧ c ≤ 57 ∨ 97 ≤ c ∧ c ≤ 122

instance (c : UInt8) : Decidable (IsAlphanumeric c) :=
  inferInstanceAs (Decidable (_ ∨ _))

theorem notMem_of_isAlphanumeric {c : UInt8} {s : Bytes} (h : ∀ c ∈ s, IsAlphanumeric c)
    (hc : ¬IsAlphanumeric c) : c ∉ s := fun hin =>
  hc (h c hin)

inductive ErrorClass
  | error
  | endOfFile
  | serialisationError
  | formatError
  | usageError
  | badHash
  | badStorePath
  | badStorePathName
  | badCanonPath
  | missingExperimentalFeature
  | invalidPath
  | pathInUse
  | buildError
  | jsonException
  | badNixStringContextElem
  /-- A failed `assert`, which ends the process. -/
  | assertionFailure
  /-- A source loop that never finishes. -/
  | nonTermination
  deriving DecidableEq, Repr

/-- An error message: a format string with its arguments. -/
structure HintFmt where
  format : String
  args : List Bytes := []
  deriving DecidableEq

structure Error where
  cls : ErrorClass
  msg : HintFmt
  deriving DecidableEq

def Error.assertion (text : String) : Error := ⟨.assertionFailure, ⟨text, []⟩⟩

def Error.diverges : Error := ⟨.nonTermination, ⟨"", []⟩⟩

/-- Decimal digits, as `fmt("%d", n)` prints them. -/
def decimal (n : Nat) : Bytes :=
  (Nat.toDigits 10 n).map fun c => UInt8.ofNat c.toNat

end Nix.Util.Types
