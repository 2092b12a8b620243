import Nix.Store.DerivedPaths
import Nix.Util.HashTexts

/-!
Elements of string contexts and their encoding.
-/

set_option linter.dupNamespace false

namespace Nix.Eval.StringContexts

open Util.Types Util.Hashes Util.CanonPaths Lib.Results Store.Path Store.StoreDirs
  Store.DerivedPaths

inductive NixStringContextElem
  | opaquePath (path : StorePath)
  | drvDeep (drvPath : StorePath)
  | built (drvPath : SingleDerivedPath) (output : Bytes)
  deriving DecidableEq

/-- `toStringRest`, where `!` ends the name of an output. -/
def toTextRest : SingleDerivedPath → Bytes
  | .opaquePath path => path.baseName
  | .built drvPath output => output ++ str "!" ++ toTextRest drvPath

/-- `parseRest`, on the text that is left. -/
def parseRest (xp : ExperimentalFeatureSettings) (s : Bytes) : Except Error SingleDerivedPath :=
  match _h : splitPrefixTo 33 s with
  | none => do
      let path ← StorePath.ofBaseName s
      return .opaquePath path
  | some (output, rest) => do
      let drv ← parseRest xp rest
      drvRequireExperiment xp drv
      return .built drv output
termination_by s.length
decreasing_by exact length_of_splitPrefixTo _h

namespace NixStringContextElem

def toText : NixStringContextElem → Bytes
  | built drvPath output => str "!" ++ toTextRest (.built drvPath output)
  | opaquePath path => toTextRest (.opaquePath path)
  | drvDeep drvPath => str "=" ++ drvPath.baseName

def ofSingle : SingleDerivedPath → NixStringContextElem
  | .opaquePath path => opaquePath path
  | .built drvPath output => built drvPath output

def bad (raw : Bytes) (text : String) : Error :=
  ⟨.badNixStringContextElem, ⟨"Bad String Context element: %1%: %2%", [str text, raw]⟩⟩

def parse (xp : ExperimentalFeatureSettings) : Bytes → Except Error NixStringContextElem
  | [] => .error (bad [] "String context element should never be an empty string")
  | c :: s =>
      if c = 33 then
        if 33 ∉ s then
          .error (bad (c :: s)
            "String content element beginning with '!' should have a second '!'")
        else (parseRest xp s).map ofSingle
      else if c = 61 then (StorePath.ofBaseName s).map drvDeep
      else if 33 ∈ c :: s then
        .error (bad (c :: s)
          "String content element not beginning with '!' should not have a second '!'")
      else (parseRest xp (c :: s)).map ofSingle

/-- The output names are accepted by `checkName`. -/
def Accepted : NixStringContextElem → Prop
  | opaquePath _ => True
  | drvDeep _ => True
  | built drvPath output => (SingleDerivedPath.built drvPath output).Accepted

def getBaseStorePath : NixStringContextElem → StorePath
  | opaquePath path => path
  | drvDeep drvPath => drvPath
  | built drvPath _ => drvPath.getBaseStorePath

def depth : NixStringContextElem → Nat
  | opaquePath _ => 0
  | drvDeep _ => 0
  | built drvPath _ => drvPath.depth + 1

end NixStringContextElem

/-- The path has the form `hash-name`. -/
def HashName (path : StorePath) : Prop :=
  separator path = 45

variable {xp : ExperimentalFeatureSettings}

theorem HashName.notMem {path : StorePath} (h : HashName path) {c : UInt8}
    (hc : isNameChar c = false) (hne : c ≠ 45) : c ∉ path.baseName :=
  notMem_baseName hc fun heq => hne (heq.symm.trans h)

theorem parseRest_toTextRest_iff {p : SingleDerivedPath} (h : p.Accepted)
    (hbase : HashName p.getBaseStorePath) :
    parseRest xp (toTextRest p) = .ok p ↔ xp .dynamicDerivations = true ∨ p.depth ≤ 1 := by
  induction p with
  | opaquePath path =>
    have hbang : 33 ∉ path.baseName := hbase.notMem (not_isNameChar _ (by simp)) (by decide)
    have hread : parseRest xp (toTextRest (.opaquePath path)) = .ok (.opaquePath path) := by
      rw [toTextRest, parseRest]
      split
      next => simp [StorePath.ofBaseName_baseName, bind, Except.bind, pure, Except.pure]
      next output rest hsome => rw [splitPrefixTo_eq_none hbang] at hsome; cases hsome
    exact iff_of_true hread (Or.inr (Nat.zero_le 1))
  | built drv output ih =>
    have hbang : 33 ∉ output := notMem_of_checkName h.2 (not_isNameChar _ (by simp))
    have htext : toTextRest (.built drv output) = output ++ 33 :: toTextRest drv := by
      rw [toTextRest, List.append_assoc]
      rfl
    have hread : parseRest xp (toTextRest (.built drv output)) = .ok (.built drv output) ↔
        parseRest xp (toTextRest drv) = .ok drv ∧ drvRequireExperiment xp drv = .ok () := by
      rw [htext, parseRest]
      split
      next hnone => rw [splitPrefixTo_append hbang] at hnone; cases hnone
      next output' rest hsome =>
        rw [splitPrefixTo_append hbang] at hsome
        cases hsome
        constructor
        · intro hbuilt
          obtain ⟨drv', hdrv, hbuilt⟩ := bind_eq_ok.mp hbuilt
          obtain ⟨_, hrequire, hbuilt⟩ := bind_eq_ok.mp hbuilt
          cases hbuilt
          exact ⟨hdrv, hrequire⟩
        · rintro ⟨hdrv, hrequire⟩
          simp only [hdrv, hrequire, bind, Except.bind]
          rfl
    rw [hread, ih h.1 hbase, drvRequireExperiment_eq_ok]
    simp only [SingleDerivedPath.depth]
    constructor
    · rintro ⟨-, hdepth⟩
      exact hdepth.imp_right fun h0 => by omega
    · exact fun hdepth =>
        ⟨hdepth.imp_right fun h0 => by omega, hdepth.imp_right fun h0 => by omega⟩

theorem map_ofSingle_eq_ok {m : Except Error SingleDerivedPath} {p : SingleDerivedPath} :
    m.map NixStringContextElem.ofSingle = .ok (.ofSingle p) ↔ m = .ok p := by
  cases m with
  | error e => simp [Except.map]
  | ok q =>
    constructor
    · intro h
      cases p <;> cases q <;> cases h <;> rfl
    · rintro h
      cases h
      rfl

theorem NixStringContextElem.parse_toText_iff {e : NixStringContextElem} (h : e.Accepted)
    (hbase : HashName e.getBaseStorePath) :
    parse xp e.toText = .ok e ↔ xp .dynamicDerivations = true ∨ e.depth ≤ 1 := by
  cases e with
  | drvDeep drvPath =>
    refine iff_of_true ?_ (Or.inr (Nat.zero_le 1))
    rw [toText, show str "=" = [61] from rfl, List.singleton_append, parse, if_neg (by decide),
      if_pos rfl, StorePath.ofBaseName_baseName]
    rfl
  | opaquePath path =>
    have hbang : 33 ∉ path.baseName := hbase.notMem (not_isNameChar _ (by simp)) (by decide)
    have hrest := @parseRest_toTextRest_iff xp (.opaquePath path) trivial hbase
    rw [toText, depth]
    rw [toTextRest] at hrest ⊢
    have hhash := (checkBaseName_eq_ok.mp path.valid).2.1
    obtain ⟨c, s, hcs⟩ := List.exists_cons_of_ne_nil (baseName_ne_nil path)
    rw [hcs] at hbang hrest hhash ⊢
    -- a base name starts with a base-32 digit
    have hc : c ≠ 33 ∧ c ≠ 61 := by
      have hdigit := List.find?_eq_none.mp hhash c (by simp [hashLen])
      constructor
      · rintro rfl
        exact hdigit (by decide)
      · rintro rfl
        exact hdigit (by decide)
    rw [parse, if_neg hc.1, if_neg hc.2, if_neg hbang]
    exact map_ofSingle_eq_ok.trans hrest
  | built drv output =>
    have hin : 33 ∈ toTextRest (.built drv output) := by
      simp [toTextRest, str]
    rw [toText, show str "!" = [33] from rfl, List.singleton_append, parse, if_pos rfl,
      if_neg (not_not.mpr hin)]
    exact map_ofSingle_eq_ok.trans (parseRest_toTextRest_iff h hbase)

/-- Elements of contexts and derived paths are read back from their texts exactly where no
experimental feature is missing and the store directory has no separator in it. -/
theorem texts_roundTrip (cfg : StoreDirConfig) (xp : ExperimentalFeatureSettings) :
    (∀ e : NixStringContextElem, e.Accepted → HashName e.getBaseStorePath →
      (NixStringContextElem.parse xp e.toText = .ok e ↔
        xp .dynamicDerivations = true ∨ e.depth ≤ 1)) ∧
    ∀ p : DerivedPath, p.Accepted → HashName p.getBaseStorePath →
      (DerivedPath.parse cfg xp (p.toText cfg) = .ok p ↔
        (xp .dynamicDerivations = true ∨ p.depth = 0) ∧ 94 ∉ cfg.storeDir) := by
  refine ⟨fun _ h hbase => NixStringContextElem.parse_toText_iff h hbase, fun p h hbase => ?_⟩
  have hcaret : 94 ∉ p.getBaseStorePath.baseName :=
    hbase.notMem (not_isNameChar _ (by simp)) (by decide)
  have hslash : separator p.getBaseStorePath ≠ slash := by
    rw [show separator p.getBaseStorePath = 45 from hbase]
    decide
  rw [DerivedPath.parse_toText_iff h, and_iff_left hslash, StoreDirConfig.print, printStorePath]
  have hprint : 94 ∉ cfg.storeDir ++ str "/" ++ p.getBaseStorePath.baseName ↔
      94 ∉ cfg.storeDir := by
    rw [List.mem_append, List.mem_append, not_or, not_or]
    exact ⟨fun h => h.1.1, fun h => ⟨⟨h, by decide⟩, hcaret⟩⟩
  rw [hprint]

theorem texts_roundTrip_dynamicPath :
    NixStringContextElem.parse (fun _ => true)
        (NixStringContextElem.ofSingle (dynamicPath 3)).toText = .ok (.ofSingle (dynamicPath 3)) ∧
      DerivedPath.parse dynamicDirs (fun _ => true)
          ((DerivedPath.built (dynamicPath 2) .all).toText dynamicDirs) =
        .ok (.built (dynamicPath 2) .all) := by
  have hname : checkName (str "out") = .ok () := by decide
  have hproducer : HashName producer := show separator producer = 45 by decide
  have h := texts_roundTrip dynamicDirs fun _ => true
  have hcontext : (NixStringContextElem.ofSingle (dynamicPath 3)).Accepted :=
    ⟨⟨⟨trivial, hname⟩, hname⟩, hname⟩
  have hpath : (DerivedPath.built (dynamicPath 2) .all).Accepted :=
    ⟨⟨⟨trivial, hname⟩, hname⟩, trivial⟩
  exact ⟨(h.1 _ hcontext hproducer).mpr (Or.inl rfl),
    (h.2 _ hpath hproducer).mpr ⟨Or.inl rfl, by decide⟩⟩

/-- Nested elements are refused as long as the feature is off. -/
theorem not_parse_toText :
    ¬∀ (xp : ExperimentalFeatureSettings) (e : NixStringContextElem), e.Accepted →
      HashName e.getBaseStorePath → NixStringContextElem.parse xp e.toText = .ok e := by
  intro h
  have hname : checkName (str "out") = .ok () := by decide
  have hproducer : HashName producer := show separator producer = 45 by decide
  have hcontext : (NixStringContextElem.ofSingle (dynamicPath 2)).Accepted :=
    ⟨⟨trivial, hname⟩, hname⟩
  have hbad := h (fun _ => false) (.ofSingle (dynamicPath 2)) hcontext hproducer
  revert hbad
  decide +kernel

end Nix.Eval.StringContexts
