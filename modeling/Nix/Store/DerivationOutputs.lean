import Nix.Store.ATerms
import Nix.Store.StoreDirs

set_option linter.dupNamespace false

namespace Nix.Store.DerivationOutputs

open Util.Types Util.BaseN Util.CanonPaths Util.Hashes Lib.PrefixReader Store.Path Store.PathInfo
  Store.ContentAddresses Store.StoreDirs Store.ATerms

inductive DerivationOutput
  | inputAddressed (path : StorePath)
  | caFixed (ca : ContentAddress)
  | caFloating (method : ContentAddressMethod) (hashAlgo : HashAlgorithm)
  | deferred
  | impure (method : ContentAddressMethod) (hashAlgo : HashAlgorithm)
  deriving DecidableEq

def outputPathName (drvName outputName : Bytes) : Bytes :=
  if outputName ≠ str "out" then drvName ++ str "-" ++ outputName else drvName

/-- `DerivationOutput::CAFixed::path`. -/
def caFixedPath (cfg : StoreDirConfig) (xp : ExperimentalFeatureSettings) (ca : ContentAddress)
    (drvName outputName : Bytes) : Except Error StorePath :=
  cfg.makeFixedOutputPathFromCA xp (outputPathName drvName outputName) ca

section Operations

variable (cfg : StoreDirConfig) (xp xpSettings : ExperimentalFeatureSettings)

def formatError (format : String) : Error :=
  ⟨.formatError, ⟨format, []⟩⟩

/-- The second half of the first branch of `parseDerivationOutput`. -/
def parseContentAddressed (pathS hashS : Bytes) (method : ContentAddressMethod)
    (hashAlgo : HashAlgorithm) : Except Error DerivationOutput :=
  if hashS = str "impure" then do
    xpSettings.require .impureDerivations
    if pathS ≠ [] then
      throw (formatError "impure derivation output should not specify output path")
    return .impure method hashAlgo
  else if hashS ≠ [] then do
    validatePath pathS
    let hash ← parseNonSRIUnprefixed xp hashS hashAlgo
    return .caFixed ⟨method, hash⟩
  else do
    xpSettings.require .caDerivations
    if pathS ≠ [] then
      throw (formatError "content-addressing derivation output should not specify output path")
    return .caFloating method hashAlgo

/-- `parseDerivationOutput` on three strings. Methods and hashes are read with the
global settings `xp`. -/
def parseOutputStrings (pathS hashAlgoStr hashS : Bytes) : Except Error DerivationOutput :=
  if hashAlgoStr ≠ [] then do
    let (method, rest) ← parsePrefix xp hashAlgoStr
    if method = .text then
      xpSettings.require .dynamicDerivations (str "text-hashed derivation output")
    let hashAlgo ← parseHashAlgo xp rest
    parseContentAddressed xp xpSettings pathS hashS method hashAlgo
  else if pathS = [] then .ok .deferred
  else do
    validatePath pathS
    let path ← cfg.parseStorePath pathS
    return .inputAddressed path

/-- The strings that `unparse` prints for an output. -/
def outputStrings (maskOutputs : Bool) (drvName outputName : Bytes) :
    DerivationOutput → Except Error (Bytes × Bytes × Bytes)
  | .inputAddressed path => .ok (if maskOutputs then [] else cfg.print path, [], [])
  | .caFixed ca => do
      let path ← if maskOutputs then pure [] else do
        let p ← caFixedPath cfg xp ca drvName outputName
        pure (cfg.print p)
      let methodAlgo ← printMethodAlgo xp ca.method ca.hash.algo
      return (path, methodAlgo, ca.hash.toBase16 false)
  | .caFloating method hashAlgo => do
      let methodAlgo ← printMethodAlgo xp method hashAlgo
      return ([], methodAlgo, [])
  | .deferred => .ok ([], [], [])
  | .impure method hashAlgo => do
      let methodAlgo ← printMethodAlgo xp method hashAlgo
      return ([], methodAlgo, str "impure")

/-- `parseDerivationOutput` on the stream. -/
def parseDerivationOutput : Stream DerivationOutput := do
  expectChar 44
  let pathS ← parseString
  expectChar 44
  let hashAlgo ← parseString
  expectChar 44
  let hash ← parseString
  expectChar 41
  fromExcept (parseOutputStrings cfg xp xpSettings pathS hashAlgo hash)

def unparseOutput (maskOutputs : Bool) (drvName : Bytes) (i : Bytes × DerivationOutput) :
    Except Error Bytes := do
  let (path, methodAlgo, hash) ← outputStrings cfg xp maskOutputs drvName i.1 i.2
  return 40 :: printUnquotedString i.1 ++
    (44 :: printUnquotedString path) ++
    (44 :: printUnquotedString methodAlgo) ++
    (44 :: printUnquotedString hash) ++ [41]

end Operations

variable {cfg : StoreDirConfig} {xp xpSettings : ExperimentalFeatureSettings}

/-- The features that a method and an algorithm need to be printed and read. -/
structure MethodAlgoEnabled (xp xpSettings : ExperimentalFeatureSettings)
    (method : ContentAddressMethod) (algo : HashAlgorithm) : Prop where
  methodEnabled : MethodEnabled xp method
  algoEnabled : AlgoEnabled xp algo
  dynamicDerivations : method = .text → xpSettings .dynamicDerivations = true

namespace DerivationOutput

def Enabled (xp xpSettings : ExperimentalFeatureSettings) : DerivationOutput → Prop
  | inputAddressed _ => True
  | caFixed ca => MethodAlgoEnabled xp xpSettings ca.method ca.hash.algo
  | caFloating method hashAlgo =>
      MethodAlgoEnabled xp xpSettings method hashAlgo ∧ xpSettings .caDerivations = true
  | deferred => True
  | impure method hashAlgo =>
      MethodAlgoEnabled xp xpSettings method hashAlgo ∧ xpSettings .impureDerivations = true

def Computable (cfg : StoreDirConfig) (xp : ExperimentalFeatureSettings)
    (drvName outputName : Bytes) : DerivationOutput → Prop
  | caFixed ca => ∃ p, caFixedPath cfg xp ca drvName outputName = .ok p
  | _ => True

/-- The printed path of the output is plain. A path that is read back is one
component below the store directory. -/
def PathReadable (cfg : StoreDirConfig) (xp : ExperimentalFeatureSettings)
    (drvName outputName : Bytes) : DerivationOutput → Prop
  | inputAddressed path => Plain (cfg.print path) ∧ slash ∉ path.baseName
  | caFixed ca => ∀ p, caFixedPath cfg xp ca drvName outputName = .ok p → Plain (cfg.print p)
  | _ => True

end DerivationOutput

theorem validatePath_print (p : StorePath) : validatePath (cfg.print p) = .ok () := by
  obtain ⟨cs, -, hdir⟩ := cfg.canonical
  rw [validatePath, if_pos]
  rw [StoreDirConfig.print, printStorePath, hdir, render]
  split
  · rfl
  next hne =>
    obtain ⟨c, cs, rfl⟩ := List.exists_cons_of_ne_nil hne
    rfl

theorem print_ne_nil (p : StorePath) : cfg.print p ≠ [] := by
  intro h
  have hvalid := @validatePath_print cfg p
  rw [h] at hvalid
  cases hvalid

theorem plain_nil : Plain [] := fun _ hc => absurd hc List.not_mem_nil

theorem toBase16_false (hash : Hash) : hash.toBase16 false = base16.encode hash.bytes := rfl

theorem plain_toBase16 (hash : Hash) : Plain (hash.toBase16 false) := by
  intro c hc
  exact forall_mem_str (by decide) c (base16.mem_encode hc)

theorem toBase16_ne_nil (hash : Hash) : hash.toBase16 false ≠ [] := by
  intro h
  have hlen := base16.length_encode hash.bytes
  rw [← toBase16_false, h, hash.hashSize] at hlen
  cases halgo : hash.algo <;> simp [halgo, regularHashSize, base16.encodedLength] at hlen

theorem toBase16_ne_impure (hash : Hash) : hash.toBase16 false ≠ str "impure" := by
  intro h
  have hi : (105 : UInt8) ∈ hash.toBase16 false := by
    rw [h]
    decide
  exact absurd (base16.mem_encode hi) (by decide)

theorem parseOutputStrings_printMethodAlgo {method : ContentAddressMethod} {algo : HashAlgorithm}
    (h : MethodAlgoEnabled xp xpSettings method algo) :
    ∃ text, printMethodAlgo xp method algo = .ok text ∧ Plain text ∧
      ∀ pathS hashS, parseOutputStrings cfg xp xpSettings pathS text hashS =
        parseContentAddressed xp xpSettings pathS hashS method algo := by
  obtain ⟨text, hprint, hne, hparse, hplain⟩ :=
    @parsePrefix_printMethodAlgo xp _ algo h.methodEnabled
  refine ⟨text, hprint, hplain, fun pathS hashS => ?_⟩
  rw [parseOutputStrings, if_pos hne, hparse]
  simp only [bind, Except.bind, parseHashAlgo_printHashAlgo h.algoEnabled]
  split
  next hm =>
    have hreq : xpSettings.require .dynamicDerivations
        (str "text-hashed derivation output") = .ok () :=
      ExperimentalFeatureSettings.require_eq_ok.mpr (h.dynamicDerivations hm)
    rw [hreq]
  next => rfl

theorem parseOutputStrings_outputStrings {drvName outputName : Bytes} {o : DerivationOutput}
    (henabled : o.Enabled xp xpSettings) (hcomputable : o.Computable cfg xp drvName outputName)
    (hpath : o.PathReadable cfg xp drvName outputName) :
    ∃ path methodAlgo hash,
      outputStrings cfg xp false drvName outputName o = .ok (path, methodAlgo, hash) ∧
      parseOutputStrings cfg xp xpSettings path methodAlgo hash = .ok o ∧
      Plain path ∧ Plain methodAlgo ∧ Plain hash := by
  cases o with
  | inputAddressed path =>
      refine ⟨cfg.print path, [], [], rfl, ?_, hpath.1, plain_nil, plain_nil⟩
      rw [parseOutputStrings, if_neg (by simp), if_neg (print_ne_nil path), validatePath_print,
        parseStorePath_print cfg hpath.2]
      rfl
  | caFixed ca =>
      obtain ⟨p, hp⟩ := hcomputable
      obtain ⟨text, hprint, hplain, hparse⟩ :=
        @parseOutputStrings_printMethodAlgo cfg xp xpSettings _ _ henabled
      refine ⟨cfg.print p, text, ca.hash.toBase16 false, ?_, ?_, hpath p hp, hplain,
        plain_toBase16 ca.hash⟩
      · simp only [outputStrings, hp, hprint]
        rfl
      · rw [hparse, parseContentAddressed, if_neg (toBase16_ne_impure ca.hash),
          if_pos (toBase16_ne_nil ca.hash), validatePath_print,
          parseNonSRIUnprefixed_toBase16 henabled.algoEnabled]
        rfl
  | caFloating method hashAlgo =>
      obtain ⟨text, hprint, hplain, hparse⟩ :=
        @parseOutputStrings_printMethodAlgo cfg xp xpSettings _ _ henabled.1
      have hreq : xpSettings.require .caDerivations = .ok () :=
        ExperimentalFeatureSettings.require_eq_ok.mpr henabled.2
      refine ⟨[], text, [], ?_, ?_, plain_nil, hplain, plain_nil⟩
      · rw [outputStrings, hprint]
        rfl
      · rw [hparse, parseContentAddressed, if_neg (by decide), if_neg (by simp), hreq]
        rfl
  | deferred => exact ⟨[], [], [], rfl, rfl, plain_nil, plain_nil, plain_nil⟩
  | impure method hashAlgo =>
      obtain ⟨text, hprint, hplain, hparse⟩ :=
        @parseOutputStrings_printMethodAlgo cfg xp xpSettings _ _ henabled.1
      have hreq : xpSettings.require .impureDerivations = .ok () :=
        ExperimentalFeatureSettings.require_eq_ok.mpr henabled.2
      refine ⟨[], text, str "impure", ?_, ?_, plain_nil, hplain, forall_mem_str (by decide)⟩
      · rw [outputStrings, hprint]
        rfl
      · rw [hparse, parseContentAddressed, if_pos rfl, hreq]
        rfl

theorem unparseOutput_spec {drvName outputName : Bytes} {o : DerivationOutput}
    (henabled : o.Enabled xp xpSettings) (hcomputable : o.Computable cfg xp drvName outputName)
    (hpath : o.PathReadable cfg xp drvName outputName) :
    ∃ text, unparseOutput cfg xp false drvName (outputName, o) =
        .ok (40 :: printUnquotedString outputName ++ text) ∧
      Reads (parseDerivationOutput cfg xp xpSettings) text o := by
  obtain ⟨path, methodAlgo, hash, hstrings, hparse, hplain, hplain', hplain''⟩ :=
    parseOutputStrings_outputStrings henabled hcomputable hpath
  refine ⟨[44] ++ (printUnquotedString path ++ ([44] ++ (printUnquotedString methodAlgo ++
    ([44] ++ (printUnquotedString hash ++ ([41] ++ [])))))), ?_, ?_⟩
  · simp [unparseOutput, hstrings, bind, Except.bind, pure, Except.pure]
  · exact (reads_expectChar 44).bind <| (reads_printUnquotedString hplain).bind <|
      (reads_expectChar 44).bind <| (reads_printUnquotedString hplain').bind <|
      (reads_expectChar 44).bind <| (reads_printUnquotedString hplain'').bind <|
      (reads_expectChar 41).bind <| Reads.fromExcept hparse

end Nix.Store.DerivationOutputs
