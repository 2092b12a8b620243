import Nix.Store.Fingerprints

/-!
The texts that the constructor of `StorePath` accepts, and the ones that the specification of
store paths describes.
-/

set_option linter.dupNamespace false

namespace Nix.Store.StoreDirs

open Util.Types Util.BaseN Util.CanonPaths Util.Hashes Lib.Results Store.Path

/-- `digest "-" name`, as store paths are specified. -/
def WellFormed (baseName : Bytes) : Prop :=
  ∃ digest name, baseName = digest ++ str "-" ++ name ∧ digest.length = hashLen ∧
    (∀ c ∈ digest, c ∈ BaseNix32.characters) ∧ checkName name = .ok ()

theorem mem_characters_of_isHashChar {c : UInt8} (h : isHashChar c = true) :
    c ∈ BaseNix32.characters := by
  have hall : ∀ n < 256, isHashChar (UInt8.ofNat n) = true →
      UInt8.ofNat n ∈ BaseNix32.characters := by
    rw [show BaseNix32.characters = _ from str_ofList _]
    simp only [isHashChar, show str "eout" = _ from str_ofList _]
    decide +kernel
  have hc := hall c.toNat c.toNat_lt
  rw [UInt8.ofNat_toNat] at hc
  exact hc h

theorem getElem?_baseName (p : StorePath) : p.baseName[hashLen]? = some (separator p) := by
  rw [separator, List.getD_eq_getElem _ _ (length_baseName p),
    List.getElem?_eq_getElem (length_baseName p)]

theorem wellFormed_iff (p : StorePath) : WellFormed p.baseName ↔ separator p = 45 := by
  constructor
  · rintro ⟨digest, name, hbase, hlen, -, -⟩
    have hget : p.baseName[hashLen]? = some 45 := by
      rw [hbase, ← hlen, List.append_assoc, List.getElem?_append_right (Nat.le_refl _),
        Nat.sub_self]
      rfl
    rw [getElem?_baseName] at hget
    exact Option.some.inj hget
  · intro hdash
    refine ⟨p.hashPart, p.name, ?_, length_hashPart p,
      fun c hc => mem_characters_of_isHashChar (isHashChar_of_mem_hashPart hc),
      (checkBaseName_eq_ok.mp p.valid).2.2⟩
    rw [List.append_assoc, baseName_eq_append, hdash]
    rfl

/-- An accepted text is well formed and printed back if and only if a dash stands between its
hash and its name. It is printed back with any other character that is not a slash. -/
theorem wellFormed_printed_iff {s : Bytes} {p : StorePath} (h : StorePath.ofBaseName s = .ok p) :
    ((WellFormed s ∧ ∀ cfg : StoreDirConfig, cfg.parseStorePath (cfg.print p) = .ok p) ↔
        s[hashLen]? = some 45) ∧
      ∀ cfg : StoreDirConfig,
        cfg.parseStorePath (cfg.print p) = .ok p ↔ s[hashLen]? ≠ some slash := by
  obtain rfl := StorePath.baseName_of_ofBaseName h
  rw [getElem?_baseName, wellFormed_iff]
  have hprint : ∀ cfg : StoreDirConfig,
      cfg.parseStorePath (cfg.print p) = .ok p ↔ some (separator p) ≠ some slash := by
    intro cfg
    rw [parseStorePath_print_iff, ne_eq, ne_eq, Option.some.injEq]
  refine ⟨⟨fun hboth => congrArg some hboth.1, fun hdash => ?_⟩, hprint⟩
  refine ⟨Option.some.inj hdash, fun cfg => (hprint cfg).mpr ?_⟩
  rw [hdash]
  decide

theorem wellFormed_printed_iff_hello :
    ((WellFormed (str "ffffffffffffffffffffffffffffffff-hello") ∧ ∀ cfg : StoreDirConfig,
        cfg.parseStorePath
          (cfg.print ⟨str "ffffffffffffffffffffffffffffffff-hello", by decide⟩) =
            .ok ⟨str "ffffffffffffffffffffffffffffffff-hello", by decide⟩) ↔
        (str "ffffffffffffffffffffffffffffffff-hello")[hashLen]? = some 45) :=
  (wellFormed_printed_iff (StorePath.ofBaseName_baseName
    ⟨str "ffffffffffffffffffffffffffffffff-hello", by decide⟩)).1

/-- An exclamation mark and a slash are accepted in the place of the dash. With the slash, the
printed path is not read back. -/
theorem not_wellFormed_slash :
    (∃ p, StorePath.ofBaseName (str "ffffffffffffffffffffffffffffffff!hello") = .ok p ∧
        ¬WellFormed (str "ffffffffffffffffffffffffffffffff!hello")) ∧
      ∃ p, StorePath.ofBaseName (str "ffffffffffffffffffffffffffffffff/hello") = .ok p ∧
        fetchDirs.parseStorePath (fetchDirs.print p) ≠ .ok p := by
  have hmark : checkBaseName (str "ffffffffffffffffffffffffffffffff!hello") = .ok () :=
    checkBaseName_ofList (by decide)
  have hslash : checkBaseName (str "ffffffffffffffffffffffffffffffff/hello") = .ok () :=
    checkBaseName_ofList (by decide)
  refine ⟨⟨⟨_, hmark⟩, StorePath.ofBaseName_baseName ⟨_, hmark⟩, fun h => ?_⟩,
    ⟨⟨_, hslash⟩, StorePath.ofBaseName_baseName ⟨_, hslash⟩, fun h => ?_⟩⟩
  · have hdash := (wellFormed_iff ⟨_, hmark⟩).mp h
    have hne : (str "ffffffffffffffffffffffffffffffff!hello").getD hashLen 45 ≠ 45 := by
      decide
    exact hne hdash
  · have hseparator := (parseStorePath_print_iff fetchDirs ⟨_, hslash⟩).mp h
    have heq : (str "ffffffffffffffffffffffffffffffff/hello").getD hashLen 45 = slash := by
      decide
    exact hseparator heq

end Nix.Store.StoreDirs
