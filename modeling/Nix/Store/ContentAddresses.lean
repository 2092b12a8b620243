import Nix.Store.PathInfo

set_option linter.dupNamespace false

namespace Nix.Store.ContentAddresses

open Util.Types Util.Hashes Lib.Results Store.PathInfo

section Prefixes

variable (xp : ExperimentalFeatureSettings)

/-- `ContentAddressMethod::renderPrefix`, with `makeFileIngestionPrefix`. -/
def renderPrefix : ContentAddressMethod → Except Error Bytes
  | .text => .ok (str "text:")
  | .flat => .ok []
  | .nixArchive => .ok (str "r:")
  | .git => do
      xp.require .gitHashing
      return str "git:"

def splitPrefix (pre s : Bytes) : Option Bytes :=
  if pre <+: s then some (s.drop pre.length) else none

/-- `ContentAddressMethod::parsePrefix`, with the remainder of the text. -/
def parsePrefix (m : Bytes) : Except Error (ContentAddressMethod × Bytes) :=
  match splitPrefix (str "r:") m with
  | some rest => .ok (.nixArchive, rest)
  | none =>
      match splitPrefix (str "git:") m with
      | some rest => do
          xp.require .gitHashing
          return (.git, rest)
      | none =>
          match splitPrefix (str "text:") m with
          | some rest => .ok (.text, rest)
          | none => .ok (.flat, m)

/-- The prefix and the algorithm, as `printMethodAlgo` and the ATerm printer write
them. -/
def printMethodAlgo (method : ContentAddressMethod) (algo : HashAlgorithm) :
    Except Error Bytes := do
  let pre ← renderPrefix xp method
  return pre ++ printHashAlgo algo

end Prefixes

variable {xp : ExperimentalFeatureSettings}

def MethodEnabled (xp : ExperimentalFeatureSettings) (method : ContentAddressMethod) : Prop :=
  method = .git → xp .gitHashing = true

theorem parsePrefix_printMethodAlgo {method : ContentAddressMethod} {algo : HashAlgorithm}
    (h : MethodEnabled xp method) :
    ∃ text, printMethodAlgo xp method algo = .ok text ∧ text ≠ [] ∧
      parsePrefix xp text = .ok (method, printHashAlgo algo) ∧
      ∀ c ∈ text, c ≠ 34 ∧ c ≠ 92 := by
  have halgo : ∀ c ∈ printHashAlgo algo, c ≠ 34 ∧ c ≠ 92 := by
    intro c hc
    constructor <;> rintro rfl <;> exact absurd (isAlphanumeric_printHashAlgo algo _ hc) (by decide)
  have happend : ∀ {pre : Bytes}, (∀ c ∈ pre, c ≠ 34 ∧ c ≠ 92) →
      ∀ c ∈ pre ++ printHashAlgo algo, c ≠ 34 ∧ c ≠ 92 :=
    fun hpre => List.forall_mem_append.mpr ⟨hpre, halgo⟩
  cases method with
  | flat => exact ⟨printHashAlgo algo, rfl, by cases algo <;> nofun, by cases algo <;> rfl, halgo⟩
  | nixArchive => exact ⟨str "r:" ++ printHashAlgo algo, rfl, by simp [str],
      by cases algo <;> rfl, happend (forall_mem_str (by decide))⟩
  | text => exact ⟨str "text:" ++ printHashAlgo algo, rfl, by simp [str],
      by cases algo <;> rfl, happend (forall_mem_str (by decide))⟩
  | git =>
      have hreq : xp.require .gitHashing = .ok () :=
        ExperimentalFeatureSettings.require_eq_ok.mpr (h rfl)
      refine ⟨str "git:" ++ printHashAlgo algo, ?_, by simp [str], ?_,
        happend (forall_mem_str (by decide))⟩
      · rw [printMethodAlgo, renderPrefix, hreq]
        rfl
      · have hr : splitPrefix (str "r:") (str "git:" ++ printHashAlgo algo) = none := by
          cases algo <;> rfl
        have hg : splitPrefix (str "git:") (str "git:" ++ printHashAlgo algo) =
            some (printHashAlgo algo) := by
          cases algo <;> rfl
        rw [parsePrefix, hr, hg]
        dsimp only
        rw [hreq]
        rfl

end Nix.Store.ContentAddresses
