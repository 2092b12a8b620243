import Nix.Store.StoreDirs
import Nix.Util.Strings

/-!
Derived paths, and their legacy textual form.
-/

set_option linter.dupNamespace false

namespace Nix.Store.DerivedPaths

open Util.Types Util.Hashes Util.Strings Util.CanonPaths Lib.Results Lib.SortedList Store.Path
  Store.StoreDirs

abbrev StringSet := SortedSet (compare : Bytes → Bytes → Ordering)

/-- `OutputsSpec`, where `Names` are not empty. -/
inductive OutputsSpec
  | all
  | names (outputs : StringSet) (ne : outputs.elems ≠ [])
  deriving DecidableEq

namespace OutputsSpec

def toText : OutputsSpec → Bytes
  | all => str "*"
  | names outputs _ => concatStringsSep 44 outputs.elems

def parse (s : Bytes) : Except Error OutputsSpec :=
  if s = str "*" then .ok all
  else do
    let outputs : StringSet := .ofList (splitString 44 s)
    outputs.elems.forM checkName
    if h : outputs.elems ≠ [] then return names outputs h
    else throw (.assertion "!empty()")

end OutputsSpec

inductive SingleDerivedPath
  | opaquePath (path : StorePath)
  | built (drvPath : SingleDerivedPath) (output : Bytes)
  deriving DecidableEq

inductive DerivedPath
  | opaquePath (path : StorePath)
  | built (drvPath : SingleDerivedPath) (outputs : OutputsSpec)
  deriving DecidableEq

section

variable (cfg : StoreDirConfig) (xp : ExperimentalFeatureSettings)

namespace SingleDerivedPath

def getBaseStorePath : SingleDerivedPath → StorePath
  | opaquePath path => path
  | built drvPath _ => drvPath.getBaseStorePath

/-- `to_string`, with the separator `^`. -/
def toText : SingleDerivedPath → Bytes
  | opaquePath path => cfg.print path
  | built drvPath output => drvPath.toText ++ str "^" ++ output

/-- `to_string_legacy`, which has `to_string` print what is built in turn. -/
def toTextLegacy : SingleDerivedPath → Bytes
  | opaquePath path => cfg.print path
  | built drvPath output => drvPath.toText cfg ++ str "!" ++ output

end SingleDerivedPath

def drvRequireExperiment : SingleDerivedPath → Except Error Unit
  | .opaquePath _ => .ok ()
  | .built drvPath output =>
      xp.require .dynamicDerivations
        (str "building output '" ++ output ++ str "' of '" ++
          drvPath.getBaseStorePath.baseName ++ str "'")

theorem lt_of_rfind {c : UInt8} {s : Bytes} {n : Nat} (h : rfind c s = some n) : n < s.length := by
  induction s generalizing n with
  | nil => cases h
  | cons b s ih =>
      rw [rfind] at h
      split at h
      next i hi =>
        cases h
        exact Nat.succ_lt_succ (ih hi)
      next =>
        split at h
        · cases h
          exact Nat.succ_pos _
        · cases h

def parseWithSingle (separator : UInt8) (s : Bytes) : Except Error SingleDerivedPath :=
  match _h : rfind separator s with
  | none => do
      let path ← cfg.parseStorePath s
      return .opaquePath path
  | some n => do
      let drv ← parseWithSingle separator (s.take n)
      drvRequireExperiment xp drv
      return .built drv (s.drop (n + 1))
termination_by s.length
decreasing_by
  rw [List.length_take]
  exact (Nat.min_le_left _ _).trans_lt (lt_of_rfind _h)

def parseWith (separator : UInt8) (s : Bytes) : Except Error DerivedPath :=
  match rfind separator s with
  | none => do
      let path ← cfg.parseStorePath s
      return .opaquePath path
  | some n => do
      let drv ← parseWithSingle cfg xp separator (s.take n)
      drvRequireExperiment xp drv
      let outputs ← OutputsSpec.parse (s.drop (n + 1))
      return .built drv outputs

namespace SingleDerivedPath

def parse (s : Bytes) : Except Error SingleDerivedPath :=
  parseWithSingle cfg xp 94 s

def parseLegacy (s : Bytes) : Except Error SingleDerivedPath :=
  parseWithSingle cfg xp 33 s

end SingleDerivedPath

namespace DerivedPath

/-- `to_string`, with the separator `^`. -/
def toText : DerivedPath → Bytes
  | opaquePath path => cfg.print path
  | built drvPath outputs => drvPath.toText cfg ++ str "^" ++ outputs.toText

/-- `to_string_legacy`. -/
def toTextLegacy : DerivedPath → Bytes
  | opaquePath path => cfg.print path
  | built drvPath outputs => drvPath.toTextLegacy cfg ++ str "!" ++ outputs.toText

def parse (s : Bytes) : Except Error DerivedPath :=
  parseWith cfg xp 94 s

def parseLegacy (s : Bytes) : Except Error DerivedPath :=
  parseWith cfg xp 33 s

end DerivedPath

end

/-- The output names are accepted by `checkName`. -/
def OutputsSpec.Accepted : OutputsSpec → Prop
  | all => True
  | names outputs _ => ∀ output ∈ outputs.elems, checkName output = .ok ()

def SingleDerivedPath.Accepted : SingleDerivedPath → Prop
  | opaquePath _ => True
  | built drvPath output => drvPath.Accepted ∧ checkName output = .ok ()

def DerivedPath.Accepted : DerivedPath → Prop
  | opaquePath _ => True
  | built drvPath outputs => drvPath.Accepted ∧ outputs.Accepted

theorem notMem_of_checkName {name : Bytes} (h : checkName name = .ok ()) {c : UInt8}
    (hc : isNameChar c = false) : c ∉ name := by
  intro hin
  rw [isNameChar_of_checkName h hin] at hc
  cases hc

theorem OutputsSpec.notMem_toText {outputs : OutputsSpec} (h : outputs.Accepted) {c : UInt8}
    (hc : c ∈ [33, 94]) : c ∉ outputs.toText := by
  have hstar : ∀ c ∈ [33, 94], c ∉ str "*" := forall_mem_of_all (by decide)
  have hcomma : ∀ c ∈ ([33, 94] : Bytes), c ≠ 44 := by simp
  have hname : ∀ c ∈ ([33, 94] : Bytes), isNameChar c = false :=
    forall_mem_of_all (by decide)
  cases outputs with
  | all => exact hstar c hc
  | names outputs ne =>
      exact notMem_concatStringsSep (hcomma c hc) fun name hmem =>
        notMem_of_checkName (h name hmem) (hname c hc)

theorem OutputsSpec.parse_toText {outputs : OutputsSpec} (h : outputs.Accepted) :
    parse outputs.toText = .ok outputs := by
  cases outputs with
  | all => rfl
  | names outputs ne =>
      have hsplit : splitString 44 (concatStringsSep 44 outputs.elems) = outputs.elems :=
        splitString_concatStringsSep ne fun name hname =>
          notMem_of_checkName (h name hname) (not_isNameChar _ (by simp))
      have hstar : concatStringsSep 44 outputs.elems ≠ str "*" := by
        intro heq
        rw [heq] at hsplit
        have hin : str "*" ∈ outputs.elems := hsplit ▸ List.mem_singleton.mpr rfl
        have hbad : checkName (str "*") ≠ .ok () := by decide
        exact hbad (h _ hin)
      have hset : (SortedSet.ofList (splitString 44 (concatStringsSep 44 outputs.elems)) :
          StringSet) = outputs := by
        rw [hsplit]
        exact SortedSet.foldl_insert_elems outputs
      rw [toText, parse, if_neg hstar]
      simp only [hset, forM_eq_ok.mpr h, bind, Except.bind]
      rw [dif_pos ne]
      rfl

theorem rfind_ne_none {c : UInt8} {s : Bytes} (h : c ∈ s) : rfind c s ≠ none := by
  induction s with
  | nil => cases h
  | cons b s ih =>
      rw [rfind]
      split
      next => exact Option.some_ne_none _
      next hnone =>
        rcases List.mem_cons.mp h with rfl | hin
        · rw [if_pos rfl]
          exact Option.some_ne_none _
        · exact absurd hnone (ih hin)

theorem split_rfind {c : UInt8} {s : Bytes} {n : Nat} (h : rfind c s = some n) :
    s = s.take n ++ c :: s.drop (n + 1) := by
  induction s generalizing n with
  | nil => cases h
  | cons b s ih =>
      rw [rfind] at h
      split at h
      next i hi =>
        cases h
        exact congrArg (b :: ·) (ih hi)
      next =>
        split at h
        next heq =>
          cases h
          rw [heq]
          rfl
        next => cases h

theorem mem_of_rfind {c : UInt8} {s : Bytes} {n : Nat} (h : rfind c s = some n) : c ∈ s := by
  rw [split_rfind h]
  exact List.mem_append_right _ List.mem_cons_self

def SingleDerivedPath.depth : SingleDerivedPath → Nat
  | opaquePath _ => 0
  | built drvPath _ => drvPath.depth + 1

section

variable {cfg : StoreDirConfig} {xp : ExperimentalFeatureSettings} {sep : UInt8}

theorem drvRequireExperiment_eq_ok {drv : SingleDerivedPath} :
    drvRequireExperiment xp drv = .ok () ↔ (xp .dynamicDerivations = true ∨ drv.depth = 0) := by
  cases drv with
  | opaquePath path => simp [drvRequireExperiment, SingleDerivedPath.depth]
  | built drvPath output =>
      rw [drvRequireExperiment, ExperimentalFeatureSettings.require_eq_ok]
      simp [SingleDerivedPath.depth]

theorem parseWithSingle_opaquePath {s : Bytes} {path : StorePath} :
    parseWithSingle cfg xp sep s = .ok (.opaquePath path) ↔
      sep ∉ s ∧ cfg.parseStorePath s = .ok path := by
  rw [parseWithSingle]
  split
  next hnone =>
    have hnotMem : sep ∉ s := fun hin => rfind_ne_none hin hnone
    cases hpath : cfg.parseStorePath s with
    | error e => simp [bind, Except.bind]
    | ok p => simp [bind, Except.bind, pure, Except.pure, hnotMem]
  next n hsome =>
    have hmem : sep ∈ s := mem_of_rfind hsome
    constructor
    · intro h
      obtain ⟨drv, -, h⟩ := bind_eq_ok.mp h
      obtain ⟨-, -, h⟩ := bind_eq_ok.mp h
      cases h
    · exact fun h => absurd hmem h.1

theorem parseWithSingle_built {s : Bytes} {drv : SingleDerivedPath} {output : Bytes}
    (houtput : sep ∉ output) :
    parseWithSingle cfg xp sep s = .ok (.built drv output) ↔
      ∃ t, s = t ++ sep :: output ∧ parseWithSingle cfg xp sep t = .ok drv ∧
        drvRequireExperiment xp drv = .ok () := by
  constructor
  · intro h
    rw [parseWithSingle] at h
    split at h
    next =>
      obtain ⟨path, -, h⟩ := bind_eq_ok.mp h
      cases h
    next n hsome =>
      obtain ⟨drv', hdrv, h⟩ := bind_eq_ok.mp h
      obtain ⟨_, hrequire, h⟩ := bind_eq_ok.mp h
      cases h
      exact ⟨s.take n, split_rfind hsome, hdrv, hrequire⟩
  · rintro ⟨t, rfl, hdrv, hrequire⟩
    rw [parseWithSingle]
    split
    next hnone => rw [rfind_append_cons t houtput] at hnone; cases hnone
    next n hsome =>
      rw [rfind_append_cons t houtput] at hsome
      cases hsome
      have hdrop : (t ++ sep :: output).drop (t.length + 1) = output := by
        rw [List.drop_append]
        simp
      rw [List.take_left, hdrv, hdrop]
      simp only [bind, Except.bind, hrequire]
      rfl

theorem parseWithSingle_append {s : Bytes} {drv : SingleDerivedPath} {output : Bytes}
    (houtput : sep ∉ output) :
    parseWithSingle cfg xp sep (s ++ sep :: output) = .ok (.built drv output) ↔
      parseWithSingle cfg xp sep s = .ok drv ∧
        (xp .dynamicDerivations = true ∨ drv.depth = 0) := by
  rw [parseWithSingle_built houtput, drvRequireExperiment_eq_ok]
  constructor
  · rintro ⟨t, ht, hparse⟩
    rw [List.append_left_inj] at ht
    rwa [ht]
  · exact fun hparse => ⟨s, rfl, hparse⟩

/-- The printed path can be read, and has no separator of derived paths in it. -/
def Printable (cfg : StoreDirConfig) (path : StorePath) : Prop :=
  33 ∉ cfg.print path ∧ separator path ≠ slash

theorem parseLegacy_opaquePath {path : StorePath} :
    SingleDerivedPath.parseLegacy cfg xp (cfg.print path) = .ok (.opaquePath path) ↔
      Printable cfg path := by
  rw [SingleDerivedPath.parseLegacy, parseWithSingle_opaquePath, parseStorePath_print_iff, Printable]

theorem parseLegacy_toText {drv : SingleDerivedPath} {output : Bytes} (houtput : checkName output = .ok ()) :
    SingleDerivedPath.parseLegacy cfg xp ((SingleDerivedPath.built drv output).toText cfg) ≠
      .ok (.built drv output) := by
  intro h
  have hbang : 33 ∉ output := notMem_of_checkName houtput (not_isNameChar _ (by simp))
  obtain ⟨t, ht, -⟩ := (parseWithSingle_built hbang).mp h
  have hcaret : str "^" = [94] := rfl
  rw [SingleDerivedPath.toText, hcaret, List.append_assoc] at ht
  have hlast := List.append_inj_right' ht rfl
  cases hlast

theorem SingleDerivedPath.parseLegacy_toTextLegacy_iff (hxp : xp .dynamicDerivations = true)
    {p : SingleDerivedPath} (h : p.Accepted) :
    parseLegacy cfg xp (p.toTextLegacy cfg) = .ok p ↔
      p.depth ≤ 1 ∧ Printable cfg p.getBaseStorePath := by
  cases p with
  | opaquePath path =>
      rw [toTextLegacy, parseLegacy_opaquePath]
      exact ⟨fun h => ⟨Nat.zero_le 1, h⟩, fun h => h.2⟩
  | built drv output =>
      obtain ⟨hdrv, houtput⟩ := h
      have hbang : 33 ∉ output := notMem_of_checkName houtput (not_isNameChar _ (by simp))
      have htext : (built drv output).toTextLegacy cfg = drv.toText cfg ++ 33 :: output := by
        rw [toTextLegacy, List.append_assoc]
        rfl
      have hread : parseLegacy cfg xp ((built drv output).toTextLegacy cfg) = .ok (.built drv output) ↔
          parseLegacy cfg xp (drv.toText cfg) = .ok drv := by
        rw [htext, parseLegacy, parseWithSingle_append hbang]
        exact and_iff_left (Or.inl hxp)
      rw [hread]
      cases drv with
      | opaquePath path =>
          rw [toText, parseLegacy_opaquePath]
          exact ⟨fun h => ⟨Nat.le_refl 1, h⟩, fun h => h.2⟩
      | built drv output' =>
          constructor
          · exact fun h => absurd h (parseLegacy_toText hdrv.2)
          · rintro ⟨hdepth, -⟩
            exact absurd hdepth (by simp [depth])

/-- The paths that are built in turn, and the path that the others are built from. -/
def DerivedPath.depth : DerivedPath → Nat
  | opaquePath _ => 0
  | built drvPath _ => drvPath.depth

def DerivedPath.getBaseStorePath : DerivedPath → StorePath
  | opaquePath path => path
  | built drvPath _ => drvPath.getBaseStorePath

theorem parseWith_opaquePath {s : Bytes} {path : StorePath} :
    parseWith cfg xp sep s = .ok (.opaquePath path) ↔ sep ∉ s ∧ cfg.parseStorePath s = .ok path := by
  unfold parseWith
  split
  next hnone =>
    have hnotMem : sep ∉ s := fun hin => rfind_ne_none hin hnone
    cases hpath : cfg.parseStorePath s with
    | error e => simp [bind, Except.bind]
    | ok p => simp [bind, Except.bind, pure, Except.pure, hnotMem]
  next n hsome =>
    have hmem : sep ∈ s := mem_of_rfind hsome
    constructor
    · intro h
      obtain ⟨drv, -, h⟩ := bind_eq_ok.mp h
      obtain ⟨-, -, h⟩ := bind_eq_ok.mp h
      obtain ⟨outputs, -, h⟩ := bind_eq_ok.mp h
      cases h
    · exact fun h => absurd hmem h.1

theorem parseWith_append {s : Bytes} {drv : SingleDerivedPath} {outputs : OutputsSpec}
    (h : outputs.Accepted) (hsep : sep ∉ outputs.toText) :
    parseWith cfg xp sep (s ++ sep :: outputs.toText) = .ok (.built drv outputs) ↔
      parseWithSingle cfg xp sep s = .ok drv ∧
        (xp .dynamicDerivations = true ∨ drv.depth = 0) := by
  have hdrop : (s ++ sep :: outputs.toText).drop (s.length + 1) = outputs.toText := by
    rw [List.drop_append]
    simp
  rw [parseWith, rfind_append_cons s hsep, ← drvRequireExperiment_eq_ok]
  dsimp only
  rw [List.take_left, hdrop]
  cases hdrv : parseWithSingle cfg xp sep s with
  | error e => simp [bind, Except.bind]
  | ok drv' =>
      cases hrequire : drvRequireExperiment xp drv' with
      | error e =>
          simp only [bind, Except.bind, hrequire]
          refine iff_of_false nofun ?_
          rintro ⟨hdrv', hok⟩
          cases hdrv'
          rw [hrequire] at hok
          cases hok
      | ok u =>
          simp only [bind, Except.bind, hrequire, OutputsSpec.parse_toText h]
          constructor
          · intro hbuilt
            cases hbuilt
            exact ⟨rfl, hrequire⟩
          · rintro ⟨hdrv', -⟩
            cases hdrv'
            rfl

theorem DerivedPath.parseLegacy_toTextLegacy_iff (hxp : xp .dynamicDerivations = true)
    {p : DerivedPath} (h : p.Accepted) :
    parseLegacy cfg xp (p.toTextLegacy cfg) = .ok p ↔
      p.depth ≤ 1 ∧ Printable cfg p.getBaseStorePath := by
  cases p with
  | opaquePath path =>
      rw [parseLegacy, toTextLegacy, parseWith_opaquePath, parseStorePath_print_iff]
      exact ⟨fun h => ⟨Nat.zero_le 1, h⟩, fun h => h.2⟩
  | built drv outputs =>
      obtain ⟨hdrv, houtputs⟩ := h
      have htext : (built drv outputs).toTextLegacy cfg =
          drv.toTextLegacy cfg ++ 33 :: outputs.toText := by
        rw [toTextLegacy, List.append_assoc]
        rfl
      rw [htext, parseLegacy, parseWith_append houtputs (OutputsSpec.notMem_toText houtputs (by simp)),
        and_iff_left (Or.inl hxp)]
      exact SingleDerivedPath.parseLegacy_toTextLegacy_iff hxp hdrv

theorem SingleDerivedPath.parse_toText_iff {p : SingleDerivedPath} (h : p.Accepted) :
    parse cfg xp (p.toText cfg) = .ok p ↔
      (xp .dynamicDerivations = true ∨ p.depth ≤ 1) ∧
        94 ∉ cfg.print p.getBaseStorePath ∧ separator p.getBaseStorePath ≠ slash := by
  induction p with
  | opaquePath path =>
      rw [parse, toText, parseWithSingle_opaquePath, parseStorePath_print_iff]
      simp [depth, getBaseStorePath]
  | built drv output ih =>
      have hcaret : 94 ∉ output := notMem_of_checkName h.2 (not_isNameChar _ (by simp))
      have htext : (built drv output).toText cfg = drv.toText cfg ++ 94 :: output := by
        rw [toText, List.append_assoc]
        rfl
      rw [parse] at ih ⊢
      rw [htext, parseWithSingle_append hcaret, ih h.1]
      simp only [depth, getBaseStorePath]
      constructor
      · rintro ⟨⟨-, hbase⟩, hdepth⟩
        exact ⟨hdepth.imp_right fun h0 => by omega, hbase⟩
      · rintro ⟨hdepth, hbase⟩
        exact ⟨⟨hdepth.imp_right fun h0 => by omega, hbase⟩, hdepth.imp_right fun h0 => by omega⟩

theorem DerivedPath.parse_toText_iff {p : DerivedPath} (h : p.Accepted) :
    parse cfg xp (p.toText cfg) = .ok p ↔
      (xp .dynamicDerivations = true ∨ p.depth = 0) ∧
        94 ∉ cfg.print p.getBaseStorePath ∧ separator p.getBaseStorePath ≠ slash := by
  cases p with
  | opaquePath path =>
      rw [parse, toText, parseWith_opaquePath, parseStorePath_print_iff]
      simp [depth, getBaseStorePath]
  | built drv outputs =>
      obtain ⟨hdrv, houtputs⟩ := h
      have htext : (built drv outputs).toText cfg = drv.toText cfg ++ 94 :: outputs.toText := by
        rw [toText, List.append_assoc]
        rfl
      have hsingle := @SingleDerivedPath.parse_toText_iff cfg xp drv hdrv
      rw [SingleDerivedPath.parse] at hsingle
      rw [htext, parse, parseWith_append houtputs (OutputsSpec.notMem_toText houtputs (by simp)),
        hsingle]
      constructor
      · rintro ⟨⟨-, hbase⟩, hdepth⟩
        exact ⟨hdepth, hbase⟩
      · rintro ⟨hdepth, hbase⟩
        exact ⟨⟨hdepth.imp_right fun h0 => (Nat.le_of_eq h0).trans (Nat.zero_le 1), hbase⟩, hdepth⟩

/-- The legacy form of derived paths is read back if and only if at most one step was built
before the last one, and the store path can be told from the separators. -/
theorem legacyText_roundTrip_iff (cfg : StoreDirConfig) (xp : ExperimentalFeatureSettings)
    (hxp : xp .dynamicDerivations = true) :
    (∀ p : DerivedPath, p.Accepted →
      (DerivedPath.parseLegacy cfg xp (p.toTextLegacy cfg) = .ok p ↔
        p.depth ≤ 1 ∧ Printable cfg p.getBaseStorePath)) ∧
    (∀ p : SingleDerivedPath, p.Accepted →
      (SingleDerivedPath.parseLegacy cfg xp (p.toTextLegacy cfg) = .ok p ↔
        p.depth ≤ 1 ∧ Printable cfg p.getBaseStorePath)) :=
  ⟨fun _ h => DerivedPath.parseLegacy_toTextLegacy_iff hxp h,
    fun _ h => SingleDerivedPath.parseLegacy_toTextLegacy_iff hxp h⟩

end

def dynamicDirs : StoreDirConfig where
  storeDir := str "/nix/store"
  canonical := canonical_nixStore
  sha256 _ := ⟨List.replicate 32 0, length_zeros⟩

def producer : StorePath :=
  ⟨List.replicate 32 97 ++ str "-producer.drv", checkBaseName_replicate (by decide)⟩

def dynamicPath (depth : Nat) : SingleDerivedPath :=
  (fun drv => SingleDerivedPath.built drv (str "out"))^[depth] (.opaquePath producer)

theorem legacyText_roundTrip_dynamicPath :
    DerivedPath.parseLegacy dynamicDirs (fun _ => true)
        ((DerivedPath.built (dynamicPath 1) .all).toTextLegacy dynamicDirs) =
      .ok (.built (dynamicPath 1) .all) ∧
    SingleDerivedPath.parseLegacy dynamicDirs (fun _ => true)
        ((dynamicPath 1).toTextLegacy dynamicDirs) = .ok (dynamicPath 1) := by
  have hname : checkName (str "out") = .ok () := by decide
  have hbase : Printable dynamicDirs producer := ⟨by decide, by decide⟩
  have h := legacyText_roundTrip_iff dynamicDirs (fun _ => true) rfl
  have hfull : (DerivedPath.built (dynamicPath 1) .all).Accepted := ⟨⟨trivial, hname⟩, trivial⟩
  have hsingle : (dynamicPath 1).Accepted := ⟨trivial, hname⟩
  exact ⟨(h.1 _ hfull).mpr ⟨Nat.le_refl 1, hbase⟩, (h.2 _ hsingle).mpr ⟨Nat.le_refl 1, hbase⟩⟩

/-- Below the last step, the text has the other separator. -/
theorem legacyText_dynamicPath :
    (dynamicPath 2).toTextLegacy dynamicDirs =
      str "/nix/store/aaaaaaaaaaaaaaaaaaaaaaaaaaaaaaaa-producer.drv^out!out" ∧
    (dynamicPath 2).Accepted ∧
    SingleDerivedPath.parseLegacy dynamicDirs (fun _ => true)
      ((dynamicPath 2).toTextLegacy dynamicDirs) ≠ .ok (dynamicPath 2) ∧
    DerivedPath.parseLegacy dynamicDirs (fun _ => true)
      ((DerivedPath.built (dynamicPath 2) .all).toTextLegacy dynamicDirs) ≠
        .ok (.built (dynamicPath 2) .all) := by
  have hname : checkName (str "out") = .ok () := by decide
  exact ⟨by decide +kernel, ⟨⟨trivial, hname⟩, hname⟩, by decide +kernel, by decide +kernel⟩

end Nix.Store.DerivedPaths
