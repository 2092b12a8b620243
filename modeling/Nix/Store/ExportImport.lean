import Nix.Store.StoreDirs
import Nix.Util.ArchiveSkip
import Nix.Util.TopoSort

/-!
Exporting store paths to a stream and importing them from one.
-/

set_option linter.dupNamespace false

namespace Nix.Store.ExportImport

open Lib.PrefixReader Lib.SortedList Util.Archive Util.BaseN Util.Hashes Util.Serialise
  Util.TopoSort Util.Types Store.Path Store.PathInfo Store.StoreDirs

/-- A store object, with its NAR. -/
structure StoreObject where
  info : ValidPathInfo
  nar : Bytes

/-- What does not change while a store is used. -/
structure StoreConfig where
  dirs : StoreDirConfig
  useCaseHack : Bool := false
  /-- The check of the outputs of a derivation that is registered, by the NAR of its file. -/
  checkDerivation : StorePath → Bytes → Except Error Unit

/-- A store, with its objects in the order in which they have been registered. -/
structure LocalStore where
  pathInfoIsUntrusted : ValidPathInfo → Bool
  objects : List StoreObject := []

namespace StoreConfig

variable (cfg : StoreConfig)

def print (p : StorePath) : Bytes :=
  cfg.dirs.print p

def invalidPath (p : StorePath) : Error :=
  ⟨.invalidPath, ⟨"path '%s' is not valid", [cfg.print p]⟩⟩

end StoreConfig

namespace LocalStore

variable (s : LocalStore) (cfg : StoreConfig)

def find? (p : StorePath) : Option StoreObject :=
  s.objects.find? fun o => o.info.path = p

def isValidPath (p : StorePath) : Bool :=
  (s.find? p).isSome

def queryPathInfo (p : StorePath) : Except Error ValidPathInfo :=
  match s.find? p with
  | some o => .ok o.info
  | none => .error (cfg.invalidPath p)

def narFromPath (p : StorePath) : Except Error Bytes :=
  match s.find? p with
  | some o => .ok o.nar
  | none => .error (cfg.invalidPath p)

/-- `registerValidPath`, for an info without a content address. -/
def registerValidPath (o : StoreObject) : Except Error LocalStore := do
  let s' := { s with objects := s.objects ++ [o] }
  o.info.references.elems.forM fun r =>
    if s'.isValidPath r then .ok () else .error (cfg.invalidPath r)
  if o.info.path.isDerivation then cfg.checkDerivation o.info.path o.nar
  return s'

/-- `hash.to_string(HashFormat::Nix32, true)`. -/
def printHash (hash : Hash) : Bytes :=
  printHashAlgo hash.algo ++ str ":" ++ BaseNix32.encode hash.bytes

/-- `LocalStore::addToStore`, without repair, for an info without a content address. -/
def addToStore (info : ValidPathInfo) (source : Bytes) (checkSigs : Bool) : Except Error LocalStore := do
  if checkSigs ∧ s.pathInfoIsUntrusted info then
    throw ⟨.error, ⟨"cannot add path '%s' because it lacks a signature by a trusted key",
      [cfg.print info.path]⟩⟩
  if s.isValidPath info.path then return s
  let (_, rest) ← parseDump cfg.useCaseHack memorySink stringSource source
  let nar := source.take (source.length - rest.length)
  let hash := cfg.dirs.hashString nar
  if hash ≠ info.narHash then
    throw ⟨.error, ⟨"hash mismatch importing path '%s';\n  specified: %s\n  got:       %s",
      [cfg.print info.path, printHash info.narHash, printHash hash]⟩⟩
  if nar.length ≠ info.narSize.toNat then
    throw ⟨.error, ⟨"size mismatch importing path '%s';\n  specified: %s\n  got:       %s",
      [cfg.print info.path, decimal info.narSize.toNat, decimal nar.length]⟩⟩
  s.registerValidPath cfg ⟨info, nar⟩

def topoSortPaths (paths : StorePathSet) : Except Error (List StorePath) := do
  let result ← topoSort paths.elems fun p =>
    match s.queryPathInfo cfg p with
    | .ok info => info.references.elems
    | .error _ => []
  match result with
  | .inl sorted => return sorted
  | .inr cycle =>
      throw ⟨.buildError, ⟨"cycle detected in the references of '%s' from '%s'",
        [cfg.print cycle.path, cfg.print cycle.parent]⟩⟩

end LocalStore

def exportMagic : Nat := 0x4558494e

/-- `CommonProto::Serialise<StorePathSet>::write`. -/
def writeStorePaths (cfg : StoreConfig) (paths : StorePathSet) : Bytes :=
  writeUint64 paths.elems.length ++ paths.elems.flatMap fun p => writeString (cfg.print p)

def printDeriver (cfg : StoreConfig) : Option StorePath → Bytes
  | some deriver => cfg.print deriver
  | none => []

def unknownHash (algo : HashAlgorithm) : Hash :=
  ⟨algo, List.replicate (regularHashSize algo) 0, List.length_replicate⟩

def writeMetadata (cfg : StoreConfig) (path : StorePath) (info : ValidPathInfo) : Bytes :=
  writeUint64 exportMagic ++ writeString (cfg.print path) ++
    writeStorePaths cfg info.references ++ writeString (printDeriver cfg info.deriver) ++
    writeUint64 0

def exportPath (cfg : StoreConfig) (s : LocalStore) (path : StorePath) : Except Error Bytes := do
  let info ← s.queryPathInfo cfg path
  let nar ← s.narFromPath cfg path
  let hash := cfg.dirs.hashString nar
  if hash ≠ info.narHash ∧ info.narHash ≠ unknownHash info.narHash.algo then
    throw ⟨.error, ⟨"hash of path '%s' has changed from '%s' to '%s'!",
      [cfg.print path, LocalStore.printHash info.narHash, LocalStore.printHash hash]⟩⟩
  return nar ++ writeMetadata cfg path info

def exportRecords (cfg : StoreConfig) (s : LocalStore) : List StorePath → Except Error Bytes
  | [] => .ok []
  | path :: paths => do
      let record ← exportPath cfg s path
      let records ← exportRecords cfg s paths
      return writeUint64 1 ++ record ++ records

def exportPaths (cfg : StoreConfig) (s : LocalStore) (paths : StorePathSet) : Except Error Bytes := do
  let sorted ← s.topoSortPaths cfg paths
  let records ← exportRecords cfg s sorted.reverse
  return records ++ writeUint64 0

/-- Parse a NAR with a sink that drops it, and save what is read. -/
def savedNar (useCaseHack : Bool) : Reader Bytes Error Bytes := fun source => do
  let (_, source, saved) ←
    parseDump useCaseHack nullFileSystemObjectSink (teeSource stringSource) (source, [])
  return (saved, source)

/-- The loop of `CommonProto::Serialise<StorePathSet>::read`. -/
def insertStorePaths (cfg : StoreConfig) (paths : StorePathSet) : Nat → Reader Bytes Error StorePathSet
  | 0 => return paths
  | size + 1 => do
      let text ← readString stringSource uint64Max
      let path ← fromExcept (cfg.dirs.parseStorePath text)
      insertStorePaths cfg (paths.insert path) size

def readStorePaths (cfg : StoreConfig) : Reader Bytes Error StorePathSet := do
  let size ← readNum stringSource uint64Max
  insertStorePaths cfg .empty size

def readDeriver (cfg : StoreConfig) : Reader Bytes Error (Option StorePath) := do
  let deriver ← readString stringSource uint64Max
  if deriver = [] then return none
  else some <$> fromExcept (cfg.dirs.parseStorePath deriver)

/-- `readInt`. -/
def readInt : Reader Bytes Error Nat :=
  readNum stringSource (2 ^ 32 - 1)

def skipSignature : Reader Bytes Error Unit := do
  let n ← readInt
  if n = 1 then
    let _ ← readString stringSource uint64Max
    return ()
  else return ()

/-- What follows the NAR of a path, as an info about it. -/
def readMetadata (cfg : StoreConfig) (saved : Bytes) : Reader Bytes Error ValidPathInfo := do
  let magic ← readInt
  throwIf (magic ≠ exportMagic)
    ⟨.error, ⟨"Nix archive cannot be imported; wrong format", []⟩⟩
  let text ← readString stringSource uint64Max
  let path ← fromExcept (cfg.dirs.parseStorePath text)
  let references ← readStorePaths cfg
  let deriver ← readDeriver cfg
  skipSignature
  return {
    path
    storeDir := cfg.dirs.storeDir
    deriver
    narHash := cfg.dirs.hashString saved
    references
    narSize := UInt64.ofNat saved.length }

/-- One round of the loop of `importPaths`, with the store and the paths imported so far. -/
def importPath (cfg : StoreConfig) (checkSigs : Bool) (st : LocalStore × List StorePath) :
    Reader Bytes Error ((LocalStore × List StorePath) ⊕ (LocalStore × List StorePath)) := do
  let n ← readNum stringSource uint64Max
  if n = 0 then return .inr st
  else do
    throwIf (n ≠ 1)
      ⟨.error, ⟨"input doesn't look like something created by 'nix-store --export'", []⟩⟩
    let saved ← savedNar cfg.useCaseHack
    let info ← readMetadata cfg saved
    let s ← fromExcept (st.1.addToStore cfg info saved checkSigs)
    return .inl (s, st.2 ++ [info.path])

def importPaths (cfg : StoreConfig) (checkSigs : Bool) (s : LocalStore) :
    Reader Bytes Error (LocalStore × List StorePath) :=
  loop List.length .diverges (importPath cfg checkSigs) (s, [])

end Nix.Store.ExportImport
