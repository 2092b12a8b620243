import Nix.Lib.SortedList
import Nix.Util.Types

set_option linter.dupNamespace false

namespace Nix.Store.Path

open Util.Types Lib.SortedList

def hashLen : Nat := 32

def maxPathLen : Nat := 211

def isNameChar (c : UInt8) : Bool :=
  (48 ≤ c && c ≤ 57) || (97 ≤ c && c ≤ 122) || (65 ≤ c && c ≤ 90) ||
    c ∈ str "+-._?="

def isHashChar (c : UInt8) : Bool :=
  !(c ∈ str "eout") && ((48 ≤ c && c ≤ 57) || (97 ≤ c && c ≤ 122))

def badName (format : String) (args : List Bytes) : Except Error Unit :=
  .error ⟨.badStorePathName, ⟨format, args⟩⟩

def checkName (name : Bytes) : Except Error Unit :=
  let component := "name '%s' is not valid: first dash-separated component must not be '%s'"
  if name = [] then badName "name must not be empty" []
  else if name.length > maxPathLen then
    badName "name '%s' must be no longer than %d characters" [name, decimal maxPathLen]
  else if name = str "." then badName "name '%s' is not valid" [name]
  else if name.take 2 = str ".-" then badName component [name, str "."]
  else if name = str ".." then badName "name '%s' is not valid" [name]
  else if name.take 3 = str "..-" then badName component [name, str ".."]
  else
    match name.find? (!isNameChar ·) with
    | some c => badName "name '%s' contains illegal character '%s'" [name, [c]]
    | none => .ok ()

/-- `checkPathName`, with the message of the caught error. -/
def checkPathName (path name : Bytes) : Except Error Unit :=
  match checkName name with
  | .ok () => .ok ()
  | .error e =>
      .error ⟨.badStorePath, ⟨"path '%s' is not a valid store path: " ++ e.msg.format,
        path :: e.msg.args⟩⟩

def checkBaseName (baseName : Bytes) : Except Error Unit :=
  if baseName.length < hashLen + 1 then
    .error ⟨.badStorePath, ⟨"'%s' is too short to be a valid store path", [baseName]⟩⟩
  else
    match (baseName.take hashLen).find? (!isHashChar ·) with
    | some c =>
        .error ⟨.badStorePath,
          ⟨"store path '%s' contains illegal base-32 character '%s'", [baseName, [c]]⟩⟩
    | none => checkPathName baseName (baseName.drop (hashLen + 1))

theorem checkBaseName_eq_ok {b : Bytes} :
    checkBaseName b = .ok () ↔ hashLen + 1 ≤ b.length ∧
      (b.take hashLen).find? (!isHashChar ·) = none ∧
      checkName (b.drop (hashLen + 1)) = .ok () := by
  unfold checkBaseName
  by_cases hlen : b.length < hashLen + 1
  · rw [if_pos hlen]
    simp only [reduceCtorEq, false_iff, not_and]
    omega
  · rw [if_neg hlen]
    have hle : hashLen + 1 ≤ b.length := by omega
    cases hfind : (b.take hashLen).find? (!isHashChar ·) with
    | some c => simp
    | none =>
        unfold checkPathName
        cases hname : checkName (b.drop (hashLen + 1)) with
        | error e => simp
        | ok _ => simpa using hle

theorem checkBaseName_ofList {l : List Char}
    (h : checkBaseName (l.map fun c => UInt8.ofNat c.toNat) = .ok ()) :
    checkBaseName (str (String.ofList l)) = .ok () := by
  rwa [str_ofList]

theorem checkBaseName_append_ofList {l l' : List Char}
    (h : checkBaseName ((l.map fun c => UInt8.ofNat c.toNat) ++
      l'.map fun c => UInt8.ofNat c.toNat) = .ok ()) :
    checkBaseName (str (String.ofList l) ++ str (String.ofList l')) = .ok () := by
  rwa [str_ofList, str_ofList]

theorem checkBaseName_replicate {c : UInt8} {l : List Char}
    (h : checkBaseName (List.replicate 32 c ++ l.map fun c => UInt8.ofNat c.toNat) = .ok ()) :
    checkBaseName (List.replicate 32 c ++ str (String.ofList l)) = .ok () := by
  rwa [str_ofList]

structure StorePath where
  baseName : Bytes
  valid : checkBaseName baseName = .ok ()
  deriving DecidableEq

namespace StorePath

def ofBaseName (baseName : Bytes) : Except Error StorePath :=
  match h : checkBaseName baseName with
  | .ok () => .ok ⟨baseName, h⟩
  | .error e => .error e

def hashPart (p : StorePath) : Bytes := p.baseName.take hashLen

def name (p : StorePath) : Bytes := p.baseName.drop (hashLen + 1)

/-- The name ends in `drvExtension`. -/
def isDerivation (p : StorePath) : Bool :=
  (str ".drv").isSuffixOf p.name

def cmp (p q : StorePath) : Ordering :=
  compare p.baseName q.baseName

theorem ext_baseName {p q : StorePath} (h : p.baseName = q.baseName) : p = q := by
  obtain ⟨b, hb⟩ := p
  obtain ⟨c, hc⟩ := q
  cases h
  rfl

instance : Std.TransCmp cmp where
  eq_swap := @fun p q => @Std.OrientedCmp.eq_swap Bytes compare _ p.baseName q.baseName
  isLE_trans := @fun p q r =>
    @Std.TransCmp.isLE_trans Bytes compare _ p.baseName q.baseName r.baseName

instance : Std.LawfulEqCmp cmp where
  compare_self := @fun p => @Std.ReflCmp.compare_self Bytes compare _ p.baseName
  eq_of_compare h := ext_baseName (Std.LawfulEqCmp.eq_of_compare h)

theorem ofBaseName_baseName (p : StorePath) : ofBaseName p.baseName = .ok p := by
  unfold ofBaseName
  split
  next h => rfl
  next e h => simp [p.valid] at h

theorem baseName_of_ofBaseName {b : Bytes} {p : StorePath} (h : ofBaseName b = .ok p) :
    p.baseName = b := by
  unfold ofBaseName at h
  split at h
  · cases h
    rfl
  · cases h

end StorePath

abbrev StorePathSet := SortedSet StorePath.cmp

/-- `StoreDirConfig::printStorePath`. -/
def printStorePath (storeDir : Bytes) (p : StorePath) : Bytes :=
  storeDir ++ str "/" ++ p.baseName

theorem printStorePath_injective (storeDir : Bytes) :
    Function.Injective (printStorePath storeDir) := by
  intro p q h
  exact StorePath.ext_baseName (List.append_cancel_left h)

end Nix.Store.Path
