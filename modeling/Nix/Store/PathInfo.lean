import Nix.Store.Path
import Nix.Util.Hashes

set_option linter.dupNamespace false

namespace Nix.Store.PathInfo

open Util.Types Util.Hashes Lib.SortedList Store.Path

structure Signature where
  keyName : Bytes
  sig : Bytes
  deriving DecidableEq

def Signature.cmp : Signature → Signature → Ordering :=
  compareLex (compareOn Signature.keyName) (compareOn Signature.sig)

/-- `ContentAddressMethod::Raw`. -/
inductive ContentAddressMethod
  | flat
  | nixArchive
  | git
  | text
  deriving DecidableEq, Repr

structure ContentAddress where
  method : ContentAddressMethod
  hash : Hash
  deriving DecidableEq

structure ValidPathInfo where
  path : StorePath
  storeDir : Bytes
  deriver : Option StorePath := none
  narHash : Hash
  references : StorePathSet := .empty
  registrationTime : Int := 0
  narSize : UInt64 := 0
  ultimate : Bool := false
  sigs : SortedSet Signature.cmp := .empty
  ca : Option ContentAddress := none
  deriving DecidableEq

/-- Compare the keys of `ValidPathInfos`, where an info is stored under its path. -/
def ValidPathInfo.cmpPath (i j : ValidPathInfo) : Ordering :=
  StorePath.cmp i.path j.path

/-- `std::map<StorePath, ValidPathInfo>`. -/
abbrev ValidPathInfos := SortedSet ValidPathInfo.cmpPath

theorem ValidPathInfos.nodup_paths (infos : ValidPathInfos) :
    (infos.elems.map ValidPathInfo.path).Nodup := by
  rw [List.Nodup, List.pairwise_map]
  refine infos.sorted.imp ?_
  intro i j hij heq
  rw [ValidPathInfo.cmpPath, heq] at hij
  exact compare_self_ne_lt j.path hij

end Nix.Store.PathInfo
