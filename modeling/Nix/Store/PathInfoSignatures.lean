import Nix.Store.ContentAddressPaths
import Nix.Store.Signatures
import Nix.Util.Decimal
import Nix.Util.Strings

/-!
What is verified of a path info: its content address, and the signatures of its fingerprint.
-/

set_option linter.dupNamespace false

namespace Nix.Store.PathInfo

open Util.Types Util.BaseN Util.Decimal Util.Hashes Util.Strings Lib.Delimited Lib.Results
  Lib.SortedList Store.Path Store.StoreDirs

structure PublicKey where
  name : Bytes
  key : Bytes
  valid : key.length = 32

/-- From the names of the keys. -/
abbrev PublicKeys := SortedMap (@compare Bytes _) PublicKey

/-- `crypto_sign_verify_detached`, of a signature, the data and a key. -/
abbrev SignVerifyDetached := Bytes → Bytes → Bytes → Bool

def PublicKey.verifyDetachedAnon (signVerify : SignVerifyDetached) (publicKey : PublicKey)
    (data : Bytes) (sig : Signature) : Except Error Bool :=
  if sig.sig.length ≠ 64 then .error ⟨.error, ⟨"signature is not valid", []⟩⟩
  else .ok (signVerify sig.sig data publicKey.key)

def verifyDetached (signVerify : SignVerifyDetached) (data : Bytes) (sig : Signature)
    (publicKeys : PublicKeys) : Except Error Bool :=
  match publicKeys.find? sig.keyName with
  | none => .ok false
  | some key => key.verifyDetachedAnon signVerify data sig

namespace ValidPathInfo

variable (info : ValidPathInfo) (cfg : StoreDirConfig) (xp : ExperimentalFeatureSettings)
variable (signVerify : SignVerifyDetached) (publicKeys : PublicKeys)

def fingerprint : Except Error Bytes :=
  if info.narSize = 0 then
    .error ⟨.error,
      ⟨"cannot calculate fingerprint of path '%s' because its size is not known",
        [cfg.print info.path]⟩⟩
  else
    .ok (str "1;" ++ cfg.print info.path ++ str ";" ++ info.narHash.toNix32 true ++ str ";" ++
      decimal info.narSize.toNat ++ str ";" ++
      concatStringsSep 44 (info.references.elems.map cfg.print))

def contentAddressWithReferences : Except Error (Option ContentAddressWithReferences) :=
  match info.ca with
  | none => .ok none
  | some ca =>
      if hmethod : ca.method = .text then
        if info.path ∈ info.references then .error (.assertion "references.count(path) == 0")
        else .ok (some (.text ca.hash info.references))
      else
        let refs := .ofList (info.references.elems.filter (· ≠ info.path))
        .ok (some (.fixed ⟨ca, hmethod, ⟨refs, info.path ∈ info.references⟩⟩))

def isContentAddressed : Except Error Bool := do
  match ← info.contentAddressWithReferences with
  | none => return false
  | some ca => do
      let caPath ← cfg.makePathFromCA xp info.path.name ca
      return caPath = info.path

def checkSignature (sig : Signature) : Except Error Bool := do
  verifyDetached signVerify (← info.fingerprint cfg) sig publicKeys

def maxSigs : Nat := 2 ^ 64 - 1

def checkSignatures : Except Error Nat := do
  if ← info.isContentAddressed cfg xp then return maxSigs
  let good ← info.sigs.elems.mapM (info.checkSignature cfg signVerify publicKeys)
  return (good.filter id).length

end ValidPathInfo

section Assertions

variable {α β : Type}

theorem not_failsAssertion_mapM {f : α → Except Error β} {l : List α}
    (h : ∀ a ∈ l, ¬FailsAssertion (f a)) : ¬FailsAssertion (l.mapM f) := by
  induction l with
  | nil => exact not_failsAssertion_ok _
  | cons a l ih =>
    rw [List.mapM_cons]
    refine not_failsAssertion_bind (h a List.mem_cons_self) fun _ _ => ?_
    refine not_failsAssertion_bind (ih fun b hb => h b (List.mem_cons_of_mem _ hb)) fun _ _ => ?_
    exact not_failsAssertion_ok _

end Assertions

namespace ValidPathInfo

variable {info : ValidPathInfo} {cfg : StoreDirConfig} {xp : ExperimentalFeatureSettings}
variable {signVerify : SignVerifyDetached} {publicKeys : PublicKeys}

/-- Nothing that is computed to verify the info ends in a failed assertion. -/
structure VerifiesSafely (cfg : StoreDirConfig) (xp : ExperimentalFeatureSettings)
    (signVerify : SignVerifyDetached) (publicKeys : PublicKeys) (info : ValidPathInfo) : Prop where
  fingerprint : ¬FailsAssertion (info.fingerprint cfg)
  contentAddress : ¬FailsAssertion info.contentAddressWithReferences
  isContentAddressed : ¬FailsAssertion (info.isContentAddressed cfg xp)
  checkSignatures : ¬FailsAssertion (info.checkSignatures cfg xp signVerify publicKeys)

/-- A content address `Text` is of SHA-256 and goes with no reference to the path itself. -/
def SoundText (info : ValidPathInfo) : Prop :=
  ∀ ca, info.ca = some ca → ca.method = .text →
    ca.hash.algo = .sha256 ∧ info.path ∉ info.references

theorem not_failsAssertion_fingerprint : ¬FailsAssertion (info.fingerprint cfg) := by
  unfold ValidPathInfo.fingerprint
  split
  next => exact not_failsAssertion_error nofun
  next => exact not_failsAssertion_ok _

theorem not_failsAssertion_checkSignature (sig : Signature) :
    ¬FailsAssertion (info.checkSignature cfg signVerify publicKeys sig) := by
  refine not_failsAssertion_bind not_failsAssertion_fingerprint fun _ _ => ?_
  unfold verifyDetached
  split
  next => exact not_failsAssertion_ok _
  next =>
    unfold PublicKey.verifyDetachedAnon
    split
    next => exact not_failsAssertion_error nofun
    next => exact not_failsAssertion_ok _

theorem not_failsAssertion_contentAddress (h : info.SoundText) :
    ¬FailsAssertion info.contentAddressWithReferences := by
  unfold contentAddressWithReferences
  split
  next => exact not_failsAssertion_ok _
  next ca hca =>
    split
    next hmethod =>
      rw [if_neg (h ca hca hmethod).2]
      exact not_failsAssertion_ok _
    next => exact not_failsAssertion_ok _

theorem not_failsAssertion_isContentAddressed (h : info.SoundText) :
    ¬FailsAssertion (info.isContentAddressed cfg xp) := by
  refine not_failsAssertion_bind (not_failsAssertion_contentAddress h) fun ca? hca? => ?_
  cases ca? with
  | none => exact not_failsAssertion_ok _
  | some fullCa =>
    refine not_failsAssertion_bind ?_ fun _ _ => not_failsAssertion_ok _
    unfold contentAddressWithReferences at hca?
    split at hca?
    next => cases hca?
    next ca hca =>
      split at hca?
      next hmethod =>
        obtain ⟨halgo, hself⟩ := h ca hca hmethod
        rw [if_neg hself] at hca?
        cases hca?
        exact fun hfails => (failsAssertion_text_iff _ _ _).mp hfails halgo
      next =>
        cases hca?
        exact not_failsAssertion_makeFixedOutputPath _ _ _

/-- The two assertions are on what goes with the method `Text`. -/
theorem verifiesSafely_iff :
    VerifiesSafely cfg xp signVerify publicKeys info ↔ info.SoundText := by
  constructor
  · intro h ca hca hmethod
    have hself : info.path ∉ info.references := by
      intro hself
      refine h.contentAddress ⟨.assertion "references.count(path) == 0", ?_, rfl⟩
      rw [contentAddressWithReferences, hca]
      simp only [dif_pos hmethod, if_pos hself]
    refine ⟨?_, hself⟩
    have hfull : info.contentAddressWithReferences = .ok (some (.text ca.hash info.references)) := by
      rw [contentAddressWithReferences, hca]
      simp only [dif_pos hmethod, if_neg hself]
    by_contra halgo
    obtain ⟨e, he, hcls⟩ := (failsAssertion_text_iff info.path.name ca.hash info.references).mpr halgo
    refine h.isContentAddressed ⟨e, ?_, hcls⟩
    rw [ValidPathInfo.isContentAddressed, hfull]
    simp only [bind, Except.bind]
    rw [he]
  · intro h
    refine ⟨not_failsAssertion_fingerprint, not_failsAssertion_contentAddress h,
      not_failsAssertion_isContentAddressed h, ?_⟩
    refine not_failsAssertion_bind (not_failsAssertion_isContentAddressed h) fun b _ => ?_
    cases b with
    | true => exact not_failsAssertion_ok _
    | false =>
      refine not_failsAssertion_bind ?_ fun _ _ => not_failsAssertion_ok _
      exact not_failsAssertion_mapM fun sig _ => not_failsAssertion_checkSignature sig

end ValidPathInfo

section

variable {cfg : StoreDirConfig}

theorem toNix32_true_injective : Function.Injective fun hash : Hash => hash.toNix32 true := by
  intro hash hash' h
  have hall : ∀ algo, AlgoEnabled (fun _ => true) algo := fun _ => by simp [AlgoEnabled]
  have hparse := congrArg (parseAnyPrefixed fun _ => true) h
  simp only [parseAnyPrefixed_toNix32 (hall _), Except.ok.injEq] at hparse
  exact hparse

theorem notMem_toNix32_true (hash : Hash) : 59 ∉ hash.toNix32 true :=
  hash.notMem_toNix32_of_ne (by decide) (by decide) true

theorem notMem_decimal (n : Nat) : 59 ∉ decimal n := fun hin => by
  obtain ⟨hlow, hhigh⟩ := toNat_of_mem_decimal hin
  exact absurd hhigh (by decide)

theorem concatStringsSep_cons (separator : UInt8) (s : Bytes) (ss : List Bytes) :
    concatStringsSep separator (s :: ss) = s ++ join separator ss := by
  induction ss generalizing s with
  | nil => exact (List.append_nil s).symm
  | cons t ss ih => rw [concatStringsSep, ih, join_cons]

theorem join_print_inj {ps qs : List StorePath}
    (h : join 44 (ps.map cfg.print) = join 44 (qs.map cfg.print)) : ps = qs := by
  induction ps generalizing qs with
  | nil =>
    cases qs with
    | nil => rfl
    | cons q qs => cases h
  | cons p ps ih =>
    cases qs with
    | nil => cases h
    | cons q qs =>
      rw [List.map_cons, List.map_cons, join_cons, join_cons] at h
      obtain ⟨rfl, hrest⟩ := print_append_inj (not_isNameChar 44 (by simp)) (atBoundary_join _)
        (atBoundary_join _) (List.cons.inj h).2
      rw [ih hrest]

theorem print_ne_nil (p : StorePath) : cfg.print p ≠ [] := by
  rw [StoreDirConfig.print, printStorePath]
  exact fun h => baseName_ne_nil p (List.append_eq_nil_iff.mp h).2

theorem concatStringsSep_print_inj {ps qs : List StorePath}
    (h : concatStringsSep 44 (ps.map cfg.print) = concatStringsSep 44 (qs.map cfg.print)) :
    ps = qs := by
  refine @join_print_inj cfg _ _ ?_
  cases ps with
  | nil =>
    cases qs with
    | nil => rfl
    | cons q qs =>
      rw [List.map_cons, concatStringsSep_cons] at h
      exact absurd (List.append_eq_nil_iff.mp h.symm).1 (print_ne_nil q)
  | cons p ps =>
    cases qs with
    | nil =>
      rw [List.map_cons, concatStringsSep_cons] at h
      exact absurd (List.append_eq_nil_iff.mp h).1 (print_ne_nil p)
    | cons q qs =>
      rw [List.map_cons, List.map_cons, concatStringsSep_cons, concatStringsSep_cons] at h
      rw [List.map_cons, List.map_cons, join_cons, join_cons, h]

theorem fingerprint_inj {i j : ValidPathInfo} {text : Bytes} (hi : i.fingerprint cfg = .ok text)
    (hj : j.fingerprint cfg = .ok text) :
    i.path = j.path ∧ i.narHash = j.narHash ∧ i.narSize = j.narSize ∧
      i.references = j.references := by
  have htext : ∀ {k : ValidPathInfo}, k.fingerprint cfg = .ok text →
      text = str "1;" ++ (cfg.print k.path ++ 59 :: (k.narHash.toNix32 true ++
        59 :: (decimal k.narSize.toNat ++
          59 :: concatStringsSep 44 (k.references.elems.map cfg.print)))) := by
    intro k hk
    rw [ValidPathInfo.fingerprint] at hk
    split at hk
    next => cases hk
    next =>
      rw [← Except.ok.inj hk]
      simp only [List.append_assoc]
      rfl
  have heq := (htext hi).symm.trans (htext hj)
  obtain ⟨hpath, hrest⟩ := print_append_inj (by decide) (.inr ⟨_, rfl⟩) (.inr ⟨_, rfl⟩)
    (List.append_cancel_left heq)
  obtain ⟨hhash, hrest⟩ := part_append_inj (notMem_toNix32_true _) (notMem_toNix32_true _)
    (.inr ⟨_, rfl⟩) (.inr ⟨_, rfl⟩) (List.cons.inj hrest).2
  obtain ⟨hsize, hrest⟩ := part_append_inj (notMem_decimal _) (notMem_decimal _)
    (.inr ⟨_, rfl⟩) (.inr ⟨_, rfl⟩) (List.cons.inj hrest).2
  exact ⟨hpath, toNix32_true_injective hhash, UInt64.toNat_inj.mp (decimal_injective hsize),
    SortedSet.eq_of_elems (concatStringsSep_print_inj (List.cons.inj hrest).2)⟩

end

end Nix.Store.PathInfo
