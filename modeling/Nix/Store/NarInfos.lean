import Nix.Store.ContentAddressTexts
import Nix.Store.Signatures
import Nix.Store.StoreDirs
import Nix.Util.Strings

/-!
`.narinfo` files and the JSON of path infos.
-/

set_option linter.dupNamespace false

namespace Nix.Store.NarInfos

open Util.Types Util.Hashes Util.JsonValues Util.Strings Lib.SortedList Store.Path Store.PathInfo
  Store.StoreDirs

inductive CompressionAlgo
  | none
  | brotli
  | bzip2
  | compress
  | grzip
  | gzip
  | lrzip
  | lz4
  | lzip
  | lzma
  | lzop
  | xz
  | zstd
  deriving DecidableEq, Repr

def showCompressionAlgo : CompressionAlgo → Bytes
  | .none => str "none"
  | .brotli => str "br"
  | .bzip2 => str "bzip2"
  | .compress => str "compress"
  | .grzip => str "grzip"
  | .gzip => str "gzip"
  | .lrzip => str "lrzip"
  | .lz4 => str "lz4"
  | .lzip => str "lzip"
  | .lzma => str "lzma"
  | .lzop => str "lzop"
  | .xz => str "xz"
  | .zstd => str "zstd"

/-- The values of `lookupTable`. -/
def allCompressionAlgos : List CompressionAlgo :=
  [.none, .brotli, .bzip2, .compress, .grzip, .gzip, .lrzip, .lz4, .lzip, .lzma, .lzop, .xz, .zstd]

/-- The error is an `UnknownCompressionMethod`. -/
def parseCompressionAlgo (method : Bytes) : Except Error CompressionAlgo :=
  match allCompressionAlgos.find? (showCompressionAlgo · = method) with
  | some algo => .ok algo
  | none => .error ⟨.error, ⟨"unknown compression method '%s'", [method]⟩⟩

theorem mem_allCompressionAlgos (algo : CompressionAlgo) : algo ∈ allCompressionAlgos := by
  cases algo <;> simp [allCompressionAlgos]

theorem parseCompressionAlgo_showCompressionAlgo (algo : CompressionAlgo) :
    parseCompressionAlgo (showCompressionAlgo algo) = .ok algo := by
  have hall : ∀ algo ∈ allCompressionAlgos,
      parseCompressionAlgo (showCompressionAlgo algo) = .ok algo := by decide
  exact hall algo (mem_allCompressionAlgos algo)

structure UnkeyedValidPathInfo where
  storeDir : Bytes
  deriver : Option StorePath := none
  narHash : Hash
  references : StorePathSet := .empty
  registrationTime : Int64 := 0
  narSize : UInt64 := 0
  ultimate : Bool := false
  sigs : SortedSet Signature.cmp := .empty
  ca : Option ContentAddress := none
  deriving DecidableEq

/-- `ValidPathInfo`. -/
structure KeyedValidPathInfo extends UnkeyedValidPathInfo where
  path : StorePath
  deriving DecidableEq

structure UnkeyedNarInfo extends UnkeyedValidPathInfo where
  url : Bytes := []
  compression : Option CompressionAlgo := none
  fileHash : Option Hash := none
  fileSize : UInt64 := 0
  deriving DecidableEq

structure NarInfo extends UnkeyedNarInfo where
  path : StorePath
  deriving DecidableEq

/-- `Hash::dummy`. -/
def dummyHash : Hash :=
  ⟨.sha256, List.replicate 32 0, length_zeros⟩

/-- `StorePath::dummy`. -/
def dummyPath : StorePath :=
  ⟨str "ffffffffffffffffffffffffffffffff-x", checkBaseName_ofList (by decide)⟩

section

variable (cfg : StoreDirConfig) (xp : ExperimentalFeatureSettings)

/-- The state of the constructor. -/
structure Parsing where
  info : NarInfo
  havePath : Bool := false
  haveNarHash : Bool := false

def corrupt (whence : Bytes) (line : Nat) (reason : String) : Error :=
  ⟨.error, ⟨"NAR info file '%1%' is corrupt: %2%",
    [whence, str reason ++ if line > 0 then str " at line " ++ decimal line else []]⟩⟩

def parseHashField (corrupt : String → Error) (s : Bytes) : Except Error Hash :=
  match parseAnyPrefixed xp s with
  | .ok hash => .ok hash
  | .error e => .error (if e.cls = .badHash then corrupt "bad hash" else e)

def parseSize (corrupt : String → Error) (reason : String) (value : Bytes) : Except Error UInt64 :=
  match string2Int value with
  | some n => .ok n
  | none => .error (corrupt reason)

def parseCompression (corrupt : String → Error) (value : Bytes) : Except Error CompressionAlgo :=
  if value = [] then .ok .bzip2
  else
    match parseCompressionAlgo value with
    | .ok algo => .ok algo
    | .error _ => .error (corrupt "invalid Compression")

def parseField (corrupt : String → Error) (name value : Bytes) (p : Parsing) :
    Except Error Parsing := do
  let info := p.info
  if name = str "StorePath" then
    let path ← cfg.parseStorePath value
    return { p with info := { info with path }, havePath := true }
  else if name = str "URL" then
    return { p with info := { info with url := value } }
  else if name = str "Compression" then
    let compression ← parseCompression corrupt value
    return { p with info := { info with compression := some compression } }
  else if name = str "FileHash" then
    let fileHash ← parseHashField xp corrupt value
    return { p with info := { info with fileHash := some fileHash } }
  else if name = str "FileSize" then
    let fileSize ← parseSize corrupt "invalid FileSize" value
    return { p with info := { info with fileSize } }
  else if name = str "NarHash" then
    let narHash ← parseHashField xp corrupt value
    return { p with info := { info with narHash }, haveNarHash := true }
  else if name = str "NarSize" then
    let narSize ← parseSize corrupt "invalid NarSize" value
    return { p with info := { info with narSize } }
  else if name = str "References" then
    if info.references.elems ≠ [] then throw (corrupt "extra References")
    let refs ← (tokenizeString 32 value).mapM StorePath.ofBaseName
    return { p with info := { info with references := refs.foldl .insert info.references } }
  else if name = str "Deriver" then
    if value = str "unknown-deriver" then return p
    let deriver ← StorePath.ofBaseName value
    return { p with info := { info with deriver := some deriver } }
  else if name = str "Sig" then
    let sig ← Signature.parse value
    return { p with info := { info with sigs := info.sigs.insert sig } }
  else if name = str "CA" then
    if info.ca ≠ none then throw (corrupt "extra CA")
    let ca ← ContentAddresses.parseOpt xp value
    return { p with info := { info with ca } }
  else return p

/-- A line is a name up to the first colon, a character and a value. -/
def splitLine (corrupt : String → Error) (s : Bytes) : Except Error (Bytes × Bytes × Bytes) :=
  match splitPrefixTo 58 s with
  | none => .error (corrupt "expecting ':'")
  | some (name, rest) =>
      match splitPrefixTo 10 rest.tail with
      | none => .error (corrupt "expecting '\\n'")
      | some (value, rest) => .ok (name, value, rest)

theorem length_of_splitLine {corrupt : String → Error} {s name value rest : Bytes}
    (h : splitLine corrupt s = .ok (name, value, rest)) : rest.length < s.length := by
  unfold splitLine at h
  split at h
  next => cases h
  next name' rest' hname =>
    split at h
    next => cases h
    next value' rest'' hvalue =>
      cases h
      have hfirst := length_of_splitPrefixTo hname
      have hsecond := length_of_splitPrefixTo hvalue
      rw [List.length_tail] at hsecond
      omega

/-- The loop over the lines, from the given one on. -/
def parseLoop (whence : Bytes) (line : Nat) (s : Bytes) (p : Parsing) : Except Error Parsing :=
  if s = [] then .ok p
  else
    match _h : splitLine (corrupt whence line) s with
    | .error e => .error e
    | .ok (name, value, rest) =>
        match parseField cfg xp (corrupt whence line) name value p with
        | .error e => .error e
        | .ok p => parseLoop whence (line + 1) rest p
termination_by s.length
decreasing_by exact length_of_splitLine _h

def NarInfo.parse (s whence : Bytes) : Except Error NarInfo := do
  let dummy : NarInfo := { path := dummyPath, storeDir := cfg.storeDir, narHash := dummyHash }
  let p ← parseLoop cfg xp whence 1 s { info := dummy }
  let info : NarInfo :=
    { p.info with compression := some (p.info.compression.getD .bzip2) }
  let corrupt := corrupt whence 0
  if ¬p.havePath then throw (corrupt "StorePath missing")
  else if ¬p.haveNarHash then throw (corrupt "NarHash missing")
  else if info.url = [] then throw (corrupt "URL missing")
  else if info.narSize = 0 then throw (corrupt "NarSize missing or zero")
  else return info

def field (name : String) (value : Bytes) : Bytes :=
  str name ++ str ": " ++ value ++ str "\n"

def checkAlgo (hash : Hash) (assertion : String) : Except Error Unit :=
  if hash.algo = .sha256 then .ok () else .error (.assertion assertion)

/-- `to_string`. -/
def NarInfo.toText (info : NarInfo) : Except Error Bytes := do
  let compression ← match info.compression with
    | some compression => pure compression
    | none => throw (.assertion "compression")
  let fileHash ← info.fileHash.elim (pure []) fun fileHash => do
    checkAlgo fileHash "fileHash->algo == HashAlgorithm::SHA256"
    return field "FileHash" (fileHash.toNix32 true)
  checkAlgo info.narHash "narHash.algo == HashAlgorithm::SHA256"
  let ca ← info.ca.elim (pure []) fun ca => do
    let text ← ContentAddresses.render xp ca
    return field "CA" text
  return field "StorePath" (cfg.print info.path) ++
    field "URL" info.url ++
    field "Compression" (showCompressionAlgo compression) ++
    fileHash ++
    (if info.fileSize ≠ 0 then field "FileSize" (decimal info.fileSize.toNat) else []) ++
    field "NarHash" (info.narHash.toNix32 true) ++
    field "NarSize" (decimal info.narSize.toNat) ++
    field "References" (concatStringsSep 32 (info.references.elems.map StorePath.baseName)) ++
    (info.deriver.elim [] fun deriver => field "Deriver" deriver.baseName) ++
    info.sigs.elems.flatMap (fun sig => field "Sig" sig.toText) ++
    ca

inductive PathInfoJsonFormat
  | v1
  | v2
  | v3
  deriving DecidableEq, Repr

namespace PathInfoJsonFormat

def toInt : PathInfoJsonFormat → Int
  | .v1 => 1
  | .v2 => 2
  | .v3 => 3

/-- `parsePathInfoJsonFormat`. -/
def parse (version : UInt64) : Except Error PathInfoJsonFormat :=
  if version = 1 then .ok .v1
  else if version = 2 then .ok .v2
  else if version = 3 then .ok .v3
  else .error ⟨.error,
    ⟨"unsupported path info JSON format version %d; supported versions are 1, 2 and 3",
      [decimal version.toNat]⟩⟩

/-- The format of an object, where no version means the first one. -/
def ofMembers (obj : Members) : Except Error PathInfoJsonFormat :=
  match optionalValueAt obj (str "version") with
  | some version => do parse (← getUnsigned version)
  | none => .ok .v1

end PathInfoJsonFormat

end

section Json

variable (xp : ExperimentalFeatureSettings)

/-- A path is written in full in the first format, for which there has to be a store. -/
def pathToJson (store : Option StoreDirConfig) (format : PathInfoJsonFormat) (path : StorePath) :
    Except Error Json :=
  match format, store with
  | .v1, some cfg => .ok (.string (cfg.print path))
  | .v1, none => .error (.assertion "store")
  | _, _ => .ok (.string path.baseName)

def pathFromJson (store : Option StoreDirConfig) (format : PathInfoJsonFormat) (j : Json) :
    Except Error StorePath := do
  let s ← getString j
  match format, store with
  | .v1, some cfg => cfg.parseStorePath s
  | .v1, none => throw (.assertion "store")
  | _, _ => StorePath.ofBaseName s

def caToJson (format : PathInfoJsonFormat) (ca : ContentAddress) : Except Error Json :=
  match format with
  | .v1 => do
      let text ← ContentAddresses.render xp ca
      return .string text
  | _ => .ok (ContentAddresses.toJson ca)

def caFromJson (format : PathInfoJsonFormat) (j : Json) : Except Error ContentAddress :=
  match format with
  | .v1 => do
      let s ← getString j
      ContentAddresses.parse xp s
  | _ => ContentAddresses.fromJson xp j

def sigToJson (format : PathInfoJsonFormat) (sig : Signature) : Json :=
  match format with
  | .v3 => sig.toJson
  | _ => .string sig.toText

/-- Where an optional value is written, or `null`. -/
def optionToJson {β : Type} (toJson : β → Except Error Json) : Option β → Except Error Json
  | some b => toJson b
  | none => .ok .null

def optionFromJson {β : Type} (fromJson : Json → Except Error β) (j : Json) :
    Except Error (Option β) :=
  match getNullable j with
  | some j => do return some (← fromJson j)
  | none => .ok none

def memberFromJson {β : Type} (default : β) (fromJson : Json → Except Error β) :
    Option Json → Except Error β
  | some j => fromJson j
  | none => .ok default

/-- The members of `toJSON`. -/
def UnkeyedValidPathInfo.jsonMembers (store : Option StoreDirConfig) (includeImpureInfo : Bool)
    (format : PathInfoJsonFormat) (info : UnkeyedValidPathInfo) :
    Except Error (List (Bytes × Json)) := do
  if format = .v1 ∧ store = none then throw (.assertion "store")
  let references ← info.references.elems.mapM (pathToJson store format)
  let ca ← optionToJson (caToJson xp format) info.ca
  let deriver ← optionToJson (pathToJson store format) info.deriver
  return [(str "version", .numberInteger format.toInt),
    (str "storeDir", .string info.storeDir),
    (str "narHash", ContentAddresses.hashToJson info.narHash),
    (str "narSize", .numberUnsigned info.narSize),
    (str "references", .ofElements references),
    (str "ca", ca)] ++
    if includeImpureInfo then
      [(str "deriver", deriver),
        (str "registrationTime",
          if info.registrationTime = 0 then .null else .numberInteger info.registrationTime.toInt),
        (str "ultimate", .boolean info.ultimate),
        (str "signatures", .ofElements (info.sigs.elems.map (sigToJson format)))]
    else []

def UnkeyedValidPathInfo.toJson (store : Option StoreDirConfig) (includeImpureInfo : Bool)
    (format : PathInfoJsonFormat) (info : UnkeyedValidPathInfo) : Except Error Json := do
  let members ← info.jsonMembers xp store includeImpureInfo format
  return .ofMembers (.ofList members)

def UnkeyedNarInfo.toJson (store : Option StoreDirConfig) (includeImpureInfo : Bool)
    (format : PathInfoJsonFormat) (info : UnkeyedNarInfo) : Except Error Json := do
  let members ← info.toUnkeyedValidPathInfo.jsonMembers xp store includeImpureInfo format
  return .ofMembers (.ofList (members ++
    if includeImpureInfo then
      (if info.url ≠ [] then [(str "url", Json.string info.url)] else []) ++
      (match info.compression with
        | some compression => [(str "compression", Json.string (showCompressionAlgo compression))]
        | none => []) ++
      (match info.fileHash with
        | some fileHash => [(str "downloadHash", ContentAddresses.hashToJson fileHash)]
        | none => []) ++
      if info.fileSize ≠ 0 then [(str "downloadSize", Json.numberUnsigned info.fileSize)] else []
    else []))

/-- `fromJSON`, where the context that is added to errors is left out. -/
def UnkeyedValidPathInfo.fromJson (store : Option StoreDirConfig) (j : Json) :
    Except Error UnkeyedValidPathInfo := do
  let json ← getObject j
  let format ← PathInfoJsonFormat.ofMembers json
  if format = .v1 ∧ store = none then throw (.assertion "store")
  let storeDir ← match optionalValueAt json (str "storeDir"), format, store with
    | some rawStoreDir, _, _ => getString rawStoreDir
    | none, .v1, some cfg => pure cfg.storeDir
    | none, _, _ => throw ⟨.error,
        ⟨"'storeDir' field is required in path info JSON format version 2", []⟩⟩
  let narHash ← ContentAddresses.hashFromJson xp (← valueAt json (str "narHash"))
  let narSize ← getUnsigned (← valueAt json (str "narSize"))
  let references ← (← getArray (← valueAt json (str "references"))).mapM (pathFromJson store format)
  let ca ← optionFromJson (caFromJson xp format) (← valueAt json (str "ca"))
  let deriver ← match optionalValueAt json (str "deriver") with
    | some rawDeriver => optionFromJson (pathFromJson store format) rawDeriver
    | none => pure none
  let registrationTime ← match optionalValueAt json (str "registrationTime") with
    | some rawRegistrationTime => optionFromJson getInteger rawRegistrationTime
    | none => pure none
  let ultimate ← match optionalValueAt json (str "ultimate") with
    | some rawUltimate => getBoolean rawUltimate
    | none => pure false
  let sigs ← match optionalValueAt json (str "signatures") with
    | some rawSignatures => do
        let sigs ← match rawSignatures.elements? with
          | some sigs => sigs.mapM Signature.fromJson
          | none => throw ⟨.jsonException, ⟨"type must be array", []⟩⟩
        pure (.ofList sigs)
    | none => pure .empty
  return {
    storeDir, narHash, narSize, ca, deriver, ultimate, sigs
    references := .ofList references
    registrationTime := registrationTime.getD 0 }

def UnkeyedNarInfo.fromJson (store : Option StoreDirConfig) (j : Json) :
    Except Error UnkeyedNarInfo := do
  let info ← UnkeyedValidPathInfo.fromJson xp store j
  let obj ← getObject j
  -- the format only matters to the hash, which is read in the same way in all of them
  let _ ← PathInfoJsonFormat.ofMembers obj
  let url ← memberFromJson [] getString (optionalValueAt obj (str "url"))
  let compression ← memberFromJson none (fun j => do
    return some (← parseCompressionAlgo (← getString j))) (optionalValueAt obj (str "compression"))
  let fileHash ← memberFromJson none (fun j => do
    return some (← ContentAddresses.hashFromJson xp j)) (optionalValueAt obj (str "downloadHash"))
  let fileSize ← memberFromJson 0 getUnsigned (optionalValueAt obj (str "downloadSize"))
  return { info with url, compression, fileHash, fileSize }

/-- The serializer of `ValidPathInfo`, which writes the third format. -/
def KeyedValidPathInfo.toJson (v : KeyedValidPathInfo) : Except Error Json := do
  let members ← v.toUnkeyedValidPathInfo.jsonMembers xp none true .v3
  return .ofMembers (.ofList (members ++ [(str "path", .string v.path.baseName)]))

def KeyedValidPathInfo.fromJson (j : Json) : Except Error KeyedValidPathInfo := do
  let json ← getObject j
  let path ← StorePath.ofBaseName (← getString (← valueAt json (str "path")))
  let info ← UnkeyedValidPathInfo.fromJson xp none j
  return { info with path }

def readBack {β : Type} (codec : JsonCodec) (fromJson : Json → Except Error β)
    (json : Except Error Json) : Except Error β := do
  let text ← codec.dump (← json)
  fromJson (← codec.parse text)

end Json

end Nix.Store.NarInfos
