import Nix.Lib.Delimited
import Nix.Store.HashModulo
import Nix.Store.RefScan
import Nix.Util.Archive
import Nix.Util.Decimal

set_option linter.dupNamespace false

namespace Nix.Store.HashModuloInjective

open Util.Types Util.Serialise Util.Decimal Util.CanonPaths Util.Archive Store.References
  Store.RefScan Store.HashModulo Lib.Delimited Lib.Rewriting

/-- `|`. -/
def bar : UInt8 := 124

theorem formatMatches_eq_join (ms : List Nat) : formatMatches ms = join bar (ms.map decimal) := by
  rw [formatMatches, join, List.flatMap_map]
  rfl

theorem separable_decimal (ms : List Nat) : Separable bar (ms.map decimal) := by
  intro p hp hbar
  obtain ⟨n, -, rfl⟩ := List.mem_map.mp hp
  have hb := (toNat_of_mem_decimal hbar).2
  exact absurd hb (by decide)

theorem formatMatches_injective : Function.Injective formatMatches := by
  intro ms ms' h
  rw [formatMatches_eq_join, formatMatches_eq_join] at h
  have hparts := join_injective (separable_decimal ms) (separable_decimal ms') h
  exact List.map_injective_iff.mpr decimal_injective hparts

theorem nul_notMem_formatMatches (ms : List Nat) : (0 : UInt8) ∉ formatMatches ms := by
  intro h
  obtain ⟨n, -, h⟩ := List.mem_flatMap.mp h
  rcases List.mem_append.mp h with h | h
  · exact absurd h (by decide)
  · have hb := (toNat_of_mem_decimal h).1
    exact absurd hb (by decide)

theorem append_inj_of_getLast? {c : UInt8} {s t u v : Bytes} (hs : s.getLast? = some c)
    (ht : t.getLast? = some c) (hu : c ∉ u) (hv : c ∉ v) (h : s ++ u = t ++ v) :
    s = t ∧ u = v := by
  obtain ⟨s, rfl⟩ := List.getLast?_eq_some_iff.mp hs
  obtain ⟨t, rfl⟩ := List.getLast?_eq_some_iff.mp ht
  have hrev := congrArg List.reverse h
  simp only [List.reverse_append, List.reverse_cons, List.append_assoc,
    List.singleton_append] at hrev
  obtain ⟨huv, hst⟩ := part_append_inj (by simpa using hu) (by simpa using hv)
    (.inr ⟨_, rfl⟩) (.inr ⟨_, rfl⟩) hrev
  rw [List.reverse_inj] at huv
  obtain ⟨-, hst⟩ := List.cons.inj hst
  rw [List.reverse_inj] at hst
  exact ⟨by rw [hst], huv⟩

def IsNar (s : Bytes) : Prop :=
  ∃ (opts : DumpOptions) (tree : FileTree) (path : CanonPath), dumpPath opts tree path = .ok s

theorem getLast?_dumpObject {opts : DumpOptions} {depth : Nat} {path : CanonPath}
    {body : Except Error Bytes} {s : Bytes} (h : dumpObject opts depth path body = .ok s) :
    s.getLast? = some 0 := by
  unfold dumpObject at h
  split at h
  · simp at h
  · cases body with
    | error e => simp [bind, Except.bind] at h
    | ok body =>
        simp only [bind, Except.bind, pure, Except.pure, Except.ok.injEq] at h
        rw [← h, List.getLast?_append]
        rfl

theorem IsNar.getLast? {s : Bytes} (h : IsNar s) : s.getLast? = some 0 := by
  obtain ⟨opts, tree, path, h⟩ := h
  rw [dumpPath] at h
  cases hdump : dump opts tree 0 path path with
  | error e => simp [hdump, bind, Except.bind] at h
  | ok node =>
      simp only [hdump, bind, Except.bind, pure, Except.pure, Except.ok.injEq] at h
      have hlast : node.getLast? = some 0 := by
        cases tree <;> exact getLast?_dumpObject hdump
      rw [← h, List.getLast?_append, hlast]
      rfl

/-- The digest modulo a hash part determines the serialisation. -/
theorem digest_injective (modulus : Bytes) (h : ValidHash modulus) (fs gs : List Bytes)
    (hf : IsNar fs.flatten) (hg : IsNar gs.flatten) (hne : fs.flatten ≠ gs.flatten) :
    ∃ d e, HashModuloSink.digest modulus fs = .ok d ∧ HashModuloSink.digest modulus gs = .ok e ∧
      d.digested ≠ e.digested := by
  have hnul : (0 : UInt8) ∉ modulus := fun hmem => h.2 0 hmem (by decide)
  refine ⟨_, _, digest_eq hnul fs, digest_eq hnul gs, fun heq => hne ?_⟩
  have hlast : ∀ {s : Bytes}, s.getLast? = some 0 →
      (scan modulus (List.replicate modulus.length 0) 0 s).1.getLast? = some 0 := by
    intro s hs
    refine getLast?_scan (fun b hb => (List.mem_replicate.mp hb).2) (fun hm => ?_) hs
    exact mt (fun hz => by simpa using congrArg List.length hz) hm
  obtain ⟨htext, hpos⟩ := append_inj_of_getLast? (hlast hf.getLast?) (hlast hg.getLast?)
    (nul_notMem_formatMatches _) (nul_notMem_formatMatches _) heq
  exact scan_injective List.length_replicate (Prod.ext htext (formatMatches_injective hpos))

def fileNar (data : Bytes) : Bytes :=
  (dumpPath {} (.regular false (.ofBytes data)) CanonPath.root).toOption.getD []

theorem isNar_fileNar (data : Bytes) : IsNar (fileNar data) :=
  ⟨{}, .regular false (.ofBytes data), CanonPath.root, rfl⟩

/-- A file with a self-reference and the same file with the reference zeroed out. -/
theorem digest_injective_zeroed :
    ∃ d e,
      HashModuloSink.digest (str "dc04vv14dak1c1r48qa0m23vr9jy8sm0")
        [fileNar (str "dc04vv14dak1c1r48qa0m23vr9jy8sm0")] = .ok d ∧
      HashModuloSink.digest (str "dc04vv14dak1c1r48qa0m23vr9jy8sm0")
        [fileNar (List.replicate 32 0)] = .ok e ∧
      d.digested ≠ e.digested := by
  refine digest_injective _ ⟨by decide +kernel, by decide +kernel⟩ _ _ ?_ ?_ (by decide +kernel)
  · simpa using isNar_fileNar _
  · simpa using isNar_fileNar _

end Nix.Store.HashModuloInjective
