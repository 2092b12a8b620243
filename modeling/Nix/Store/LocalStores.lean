import Nix.Store.PathInfo
import Nix.Store.StoreApi
import Nix.Store.ValidPathsDb
import Nix.Util.TopoSort

set_option linter.dupNamespace false

namespace Nix.Store.LocalStores

open Util.Types Util.Hashes Util.LruCaches Util.TopoSort Lib.SortedList Store.Path Store.PathInfo
  Store.StoreApi Store.ValidPathsDb

/-- How the fields of a path info are written as column texts and read back. -/
structure ColumnText where
  renderHash : Hash → Bytes
  parseHash : Bytes → Except Error Hash
  renderSigs : SortedSet Signature.cmp → Bytes
  parseSigs : Bytes → Except Error (SortedSet Signature.cmp)
  renderContentAddress : ContentAddress → Except Error Bytes
  parseContentAddress : Bytes → Except Error (Option ContentAddress)
  parseStorePath : Bytes → Except Error StorePath

structure LocalStoreConfig where
  storeDir : Bytes
  settings : NarInfoDiskCacheSettings
  text : ColumnText

/-- What a registration meets outside the store's own state: the verdict of
`isContentAddressed`, the checks of the derivation file at a path, and the
clocks. -/
structure Surroundings where
  isContentAddressed : ValidPathInfo → Bool
  checkDerivation : ValidPathInfo → Except Error Unit
  time : StorePath → Int
  stamp : StorePath → Nat

/-- `LocalStore` has no disk cache. -/
structure LocalStore where
  db : Database
  client : Client Empty ValidPathInfo

abbrev Action := LocalStore → Except Error Unit × LocalStore

/-- `a; b`, where an exception of `a` skips `b`. -/
def Action.andThen (a b : Action) : Action := fun s =>
  match a s with
  | (.ok (), s) => b s
  | (.error e, s) => (.error e, s)

def forEach {α : Type} (f : α → Action) : List α → Action
  | [] => fun s => (.ok (), s)
  | a :: l => (f a).andThen (forEach f l)

/-- `SQLiteTxn`: the tables are rolled back unless the body reaches the commit. -/
def transaction (body : Action) : Action := fun s =>
  match body s with
  | (.ok (), s') => (.ok (), s')
  | (.error e, s') => (.error e, { s' with db := s.db })

section Operations

variable (cfg : LocalStoreConfig)

def print (p : StorePath) : Bytes :=
  printStorePath cfg.storeDir p

def invalidPath (p : StorePath) : Error :=
  ⟨.invalidPath, ⟨"path '%s' is not valid", [print cfg p]⟩⟩

def isValidPath_ (db : Database) (p : StorePath) : Bool :=
  (db.queryPathInfo (print cfg p)).isSome

def queryValidPathId (db : Database) (p : StorePath) : Except Error Nat :=
  match db.queryPathInfo (print cfg p) with
  | some row => .ok row.id
  | none => .error (invalidPath cfg p)

def parseHashColumn (p : StorePath) (s : Bytes) : Except Error Hash :=
  match cfg.text.parseHash s with
  | .ok h => .ok h
  | .error e =>
      if e.cls = .badHash then
        .error ⟨.error, ⟨"invalid-path entry for '%s': " ++ e.msg.format,
          print cfg p :: e.msg.args⟩⟩
      else .error e

def readInfo (p : StorePath) (value : RowValue) (references : List Bytes) :
    Except Error ValidPathInfo := do
  let narHash ← parseHashColumn cfg p value.info.hash
  let deriver ← value.deriver.mapM cfg.text.parseStorePath
  let sigs ← value.info.sigs.mapM cfg.text.parseSigs
  let ca ← value.info.ca.mapM cfg.text.parseContentAddress
  let references ← references.mapM cfg.text.parseStorePath
  return {
    path := p
    storeDir := cfg.storeDir
    deriver
    narHash
    references := .ofList references
    registrationTime := value.registrationTime
    narSize := value.info.narSize.getD 0
    ultimate := value.info.ultimate = some 1
    sigs := sigs.getD .empty
    ca := ca.join }

def queryPathInfoInternal (db : Database) (p : StorePath) :
    Except Error (Option ValidPathInfo) :=
  match db.view (print cfg p) with
  | none => .ok none
  | some (value, references) => (readInfo cfg p value references).map some

def vtable (db : Database) : StoreVtable Empty ValidPathInfo where
  storeDir := cfg.storeDir
  path := ValidPathInfo.path
  settings := cfg.settings
  disk := { lookupNarInfo := fun d => d.elim, upsertNarInfo := fun d => d.elim }
  queryPathInfoUncached := queryPathInfoInternal cfg db
  isValidPathUncached := some fun p => .ok (isValidPath_ cfg db p)

def queryPathInfo (clock : Clock) (p : StorePath) (s : LocalStore) :
    Except Error ValidPathInfo × LocalStore :=
  let (r, client) := (vtable cfg s.db).queryPathInfo clock p s.client
  (r, { s with client })

def isValidPath (clock : Clock) (p : StorePath) (s : LocalStore) :
    Except Error Bool × LocalStore :=
  let (r, client) := (vtable cfg s.db).isValidPath clock p s.client
  (r, { s with client })

/-- The columns that `RegisterValidPath` and `UpdatePathInfo` both set. -/
def infoColumns (info : ValidPathInfo) : Except Error InfoColumns := do
  let ca ← info.ca.mapM cfg.text.renderContentAddress
  return {
    hash := cfg.text.renderHash info.narHash
    narSize := if info.narSize = 0 then none else some info.narSize
    ultimate := if info.ultimate then some 1 else none
    sigs := if info.sigs.elems = [] then none else some (cfg.text.renderSigs info.sigs)
    ca }

variable (env : Surroundings)

def rowValue (info : ValidPathInfo) (columns : InfoColumns) : RowValue where
  registrationTime :=
    if info.registrationTime = 0 then env.time info.path else info.registrationTime
  deriver := info.deriver.map (print cfg)
  info := columns

def checkContentAddress (info : ValidPathInfo) : Except Error Unit :=
  if info.ca.isSome ∧ env.isContentAddressed info = false then
    .error ⟨.error, ⟨"cannot add path '%s' to the Nix store because it claims to be content-addressed but isn't",
      [print cfg info.path]⟩⟩
  else .ok ()

def addValidPath (info : ValidPathInfo) : Action := fun s =>
  match (do checkContentAddress cfg env info; infoColumns cfg info) with
  | .error e => (.error e, s)
  | .ok columns =>
      let s := { s with
        db := s.db.registerValidPath (print cfg info.path) (rowValue cfg env info columns) }
      -- the derivation is read while its row is not yet committed
      match if info.path.isDerivation then env.checkDerivation info else .ok () with
      | .error e => (.error e, s)
      | .ok () =>
          let cache := s.client.pathInfoCache.upsert info.path ⟨env.stamp info.path, some info⟩
          (.ok (), { s with client := { s.client with pathInfoCache := cache } })

def updatePathInfo (info : ValidPathInfo) : Action := fun s =>
  match infoColumns cfg info with
  | .error e => (.error e, s)
  | .ok columns => (.ok (), { s with db := s.db.updatePathInfo (print cfg info.path) columns })

/-- The first loop of `registerValidPaths`. -/
def registerInfo (info : ValidPathInfo) : Action := fun s =>
  if info.narHash.algo ≠ .sha256 then
    (.error (.assertion "i.narHash.algo == HashAlgorithm::SHA256"), s)
  else if isValidPath_ cfg s.db info.path then updatePathInfo cfg info s
  else addValidPath cfg env info s

def addReference (referrer : Nat) (reference : StorePath) : Action := fun s =>
  match queryValidPathId cfg s.db reference with
  | .error e => (.error e, s)
  | .ok id => (.ok (), { s with db := s.db.addReference referrer id })

/-- The second loop of `registerValidPaths`. -/
def addReferences (info : ValidPathInfo) : Action := fun s =>
  match queryValidPathId cfg s.db info.path with
  | .error e => (.error e, s)
  | .ok referrer => forEach (addReference cfg referrer) info.references.elems s

def batchReferences (infos : List ValidPathInfo) (p : StorePath) : List StorePath :=
  match infos.find? (·.path = p) with
  | some info => info.references.elems
  | none => []

def checkCycles (infos : List ValidPathInfo) : Except Error Unit :=
  match topoSort (infos.map ValidPathInfo.path) (batchReferences infos) with
  | .ok (.inl _) => .ok ()
  | .ok (.inr cycle) =>
      .error ⟨.buildError, ⟨"cycle detected in the references of '%s' from '%s'",
        [print cfg cycle.path, print cfg cycle.parent]⟩⟩
  | .error e => .error e

def registerValidPaths (infos : ValidPathInfos) : Action :=
  transaction <|
    (forEach (registerInfo cfg env) infos.elems).andThen <|
    (forEach (addReferences cfg) infos.elems).andThen fun s =>
    (checkCycles cfg infos.elems, s)

def invalidatePath (p : StorePath) : Action := fun s =>
  match s.db.invalidatePath (print cfg p) with
  | .error e => (.error e, s)
  | .ok db =>
      (.ok (), { s with
        db
        client := { s.client with pathInfoCache := (s.client.pathInfoCache.erase p).2 } })

def invalidatePathChecked (p : StorePath) : Action :=
  transaction fun s =>
    if isValidPath_ cfg s.db p then
      let referrers := (s.db.queryReferrers (print cfg p)).filter (· ≠ print cfg p)
      if referrers ≠ [] then
        (.error ⟨.pathInUse, ⟨"cannot delete path '%s' because it is in use by %s",
          print cfg p :: referrers⟩⟩, s)
      else invalidatePath cfg p s
    else (.ok (), s)

end Operations

inductive Operation
  | registerValidPaths (env : Surroundings) (infos : ValidPathInfos)
  | invalidatePathChecked (p : StorePath)
  | queryPathInfo (clock : Clock) (p : StorePath)
  | isValidPath (clock : Clock) (p : StorePath)

inductive Answer
  | done (r : Except Error Unit)
  | info (r : Except Error ValidPathInfo)
  | valid (r : Except Error Bool)

def step (cfg : LocalStoreConfig) (s : LocalStore) : Operation → Answer × LocalStore
  | .registerValidPaths env infos => (registerValidPaths cfg env infos s).map .done id
  | .invalidatePathChecked p => (invalidatePathChecked cfg p s).map .done id
  | .queryPathInfo clock p => (queryPathInfo cfg clock p s).map .info id
  | .isValidPath clock p => (isValidPath cfg clock p s).map .valid id

end Nix.Store.LocalStores
