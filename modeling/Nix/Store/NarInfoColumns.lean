import Nix.Store.NarInfoDiskCaches
import Nix.Store.NarInfos
import Nix.Store.SqliteTexts

/-!
The columns of `NARs`, in which the disk cache keeps the infos of a binary cache.
-/

set_option linter.dupNamespace false

namespace Nix.Store.NarInfoColumns

open Util.Types Util.Hashes Util.Strings Lib.Results Lib.SortedList Store.Path Store.PathInfo
  Store.StoreApi Store.StoreDirs Store.NarInfos Store.NarInfoDiskCaches Store.SqliteTexts

/-- The columns after `namePart`. The sizes are kept modulo `2 ^ 64`. -/
structure NarColumns where
  url : Option Bytes
  compression : Option Bytes
  fileHash : Option Bytes
  fileSize : Option UInt64
  narHash : Bytes
  narSize : UInt64
  refs : Bytes
  deriver : Option Bytes
  sigs : Bytes
  ca : Bytes
  deriving DecidableEq

/-- An info, and the `NarInfo` it may be a part of. -/
inductive CachedInfo
  | plain (info : KeyedValidPathInfo)
  | nar (info : NarInfo)

namespace CachedInfo

def path : CachedInfo → StorePath
  | .plain info => info.path
  | .nar info => info.path

def toUnkeyed : CachedInfo → UnkeyedValidPathInfo
  | .plain info => info.toUnkeyedValidPathInfo
  | .nar info => info.toUnkeyedValidPathInfo

def toNarInfo : CachedInfo → Option NarInfo
  | .plain _ => none
  | .nar info => some info

end CachedInfo

section

variable (xp : ExperimentalFeatureSettings) (settings : NarInfoDiskCacheSettings)

/-- `renderContentAddress`. -/
def renderContentAddress : Option ContentAddress → Except Error Bytes
  | none => .ok []
  | some ca => ContentAddresses.render xp ca

/-- The values that `upsertNarInfo` binds. -/
def narColumns (info : CachedInfo) : Except Error NarColumns := do
  let unkeyed := info.toUnkeyed
  let ca ← renderContentAddress xp unkeyed.ca
  return {
    url := info.toNarInfo.map (·.url)
    compression := info.toNarInfo.map fun narInfo =>
      (narInfo.compression.map showCompressionAlgo).getD []
    fileHash := do (← (← info.toNarInfo).fileHash).toNix32 true
    fileSize := do
      let narInfo ← info.toNarInfo
      if narInfo.fileSize = 0 then none else some narInfo.fileSize
    narHash := unkeyed.narHash.toNix32 true
    narSize := unkeyed.narSize
    refs := concatStringsSep 32 (unkeyed.references.elems.map StorePath.baseName)
    deriver := unkeyed.deriver.map StorePath.baseName
    sigs := concatStringsSep 32 (unkeyed.sigs.elems.map Signature.toText)
    ca }

/-- `insert or replace`, where the hash part is the key. -/
def upsertNarInfo (rows : List (NarRow NarColumns)) (now : Int) (hashPart : Bytes)
    (info : Option CachedInfo) : Except Error (List (NarRow NarColumns)) := do
  let columns ← info.mapM fun info => do
    return (info.path.name, ← narColumns xp info)
  return rows.filter (·.hashPart ≠ hashPart) ++ [⟨hashPart, now, columns⟩]

/-- `SQLiteStmt::Use::getStr`. -/
def getStr : Option Bytes → Except Error Bytes
  | none => .error (.assertion "s")
  | some text => .ok (columnText text)

/-- The part of `lookupNarInfo` that reads a row. -/
def readNarInfo (storeDir hashPart namePart : Bytes) (columns : NarColumns) :
    Except Error NarInfo := do
  let path ← StorePath.ofBaseName (hashPart ++ str "-" ++ columnText namePart)
  let narHash ← parseAnyPrefixed xp (columnText columns.narHash)
  let url ← getStr columns.url
  let compression ← parseCompressionAlgo (← getStr columns.compression)
  let fileHash ← columns.fileHash.mapM fun text => parseAnyPrefixed xp (columnText text)
  let references ← readElements StorePath.cmp StorePath.ofBaseName
    (tokenizeString 32 (columnText columns.refs))
  let deriver ← columns.deriver.mapM fun text => StorePath.ofBaseName (columnText text)
  let sigs ← readElements Signature.cmp Signature.parse
    (tokenizeString 32 (columnText columns.sigs))
  let ca ← ContentAddresses.parseOpt xp (columnText columns.ca)
  return {
    path, storeDir, narHash, url, fileHash, references, deriver, sigs, ca
    compression := some compression
    fileSize := columns.fileSize.getD 0
    narSize := columns.narSize }

/-- `storeDir` is that of the opened cache. -/
def lookupNarInfo (storeDir : Bytes) (rows : List (NarRow NarColumns)) (now : Int)
    (hashPart : Bytes) : Except Error (Outcome NarInfo) :=
  match rows.find? fun row => row.hashPart = hashPart && row.isFresh settings now with
  | none => .ok .oUnknown
  | some row =>
      match row.info with
      | none => .ok .oInvalid
      | some (namePart, columns) => do
          return .oValid (← readNarInfo xp storeDir hashPart namePart columns)

/-- The rows that are left when a process opens the cache and purges it. -/
def purge (rows : List (NarRow NarColumns)) (now : Int) : List (NarRow NarColumns) :=
  rows.filter fun row =>
    match row.info with
    | none => now - max settings.ttlNegative 3600 ≤ row.timestamp
    | some _ => now - max settings.ttlPositive (30 * 24 * 3600) ≤ row.timestamp

inductive CacheOperation
  | upsertNarInfo (hashPart : Bytes) (info : Option CachedInfo)
  | purge

/-- Nothing is written when the content address is not rendered. -/
def perform (rows : List (NarRow NarColumns)) (now : Int) :
    CacheOperation → List (NarRow NarColumns)
  | .upsertNarInfo hashPart info =>
      match upsertNarInfo xp rows now hashPart info with
      | .ok rows' => rows'
      | .error _ => rows
  | .purge => purge settings rows now

def run (rows : List (NarRow NarColumns)) (operations : List (Int × CacheOperation)) :
    List (NarRow NarColumns) :=
  operations.foldl (fun rows operation => perform xp settings rows operation.1 operation.2) rows

end

section Rows

variable {xp : ExperimentalFeatureSettings} {settings : NarInfoDiskCacheSettings}
  {rows : List (NarRow NarColumns)} {row : NarRow NarColumns} {now : Int}

def OnlyRow (row : NarRow NarColumns) (rows : List (NarRow NarColumns)) : Prop :=
  row ∈ rows ∧ ∀ r ∈ rows, r.hashPart = row.hashPart → r = row

theorem OnlyRow.upsert (rows : List (NarRow NarColumns)) (row : NarRow NarColumns) :
    OnlyRow row (rows.filter (·.hashPart ≠ row.hashPart) ++ [row]) := by
  refine ⟨List.mem_append_right _ (List.mem_singleton_self row), fun r hr heq => ?_⟩
  rcases List.mem_append.mp hr with hr | hr
  · have hne := (List.mem_filter.mp hr).2
    exact absurd heq (of_decide_eq_true hne)
  · exact List.mem_singleton.mp hr

theorem OnlyRow.filter (h : OnlyRow row rows) {p : NarRow NarColumns → Bool} (hp : p row) :
    OnlyRow row (rows.filter p) :=
  ⟨List.mem_filter.mpr ⟨h.1, hp⟩, fun r hr => h.2 r (List.mem_filter.mp hr).1⟩

theorem OnlyRow.append (h : OnlyRow row rows) {r : NarRow NarColumns}
    (hne : r.hashPart ≠ row.hashPart) : OnlyRow row (rows ++ [r]) := by
  refine ⟨List.mem_append_left _ h.1, fun r' hr' heq => ?_⟩
  rcases List.mem_append.mp hr' with hr' | hr'
  · exact h.2 r' hr' heq
  · obtain rfl := List.mem_singleton.mp hr'
    exact absurd heq hne

theorem OnlyRow.find (h : OnlyRow row rows) {p : NarRow NarColumns → Bool} (hp : p row) :
    (rows.find? fun r => r.hashPart = row.hashPart && p r) = some row := by
  cases hfind : rows.find? fun r => r.hashPart = row.hashPart && p r with
  | none =>
    have hnone := List.find?_eq_none.mp hfind row h.1
    simp [hp] at hnone
  | some r =>
    have hsome := List.find?_some hfind
    have hkey : r.hashPart = row.hashPart := of_decide_eq_true (Bool.and_eq_true_iff.mp hsome).1
    rw [h.2 r (List.mem_of_find?_eq_some hfind) hkey]

theorem OnlyRow.lookup {storeDir hashPart namePart : Bytes} {time : Int} {columns : NarColumns}
    (h : OnlyRow ⟨hashPart, time, some (namePart, columns)⟩ rows)
    (hfresh : now - settings.ttlPositive < time) :
    lookupNarInfo xp settings storeDir rows now hashPart =
      (readNarInfo xp storeDir hashPart namePart columns).map .oValid := by
  have hfind := h.find (p := fun r => r.isFresh settings now) (decide_eq_true hfresh)
  rw [lookupNarInfo, hfind]
  dsimp only
  cases readNarInfo xp storeDir hashPart namePart columns <;> rfl

/-- The operation leaves the row of the hash part alone. -/
def CacheOperation.Spares (hashPart : Bytes) : CacheOperation → Prop
  | .upsertNarInfo other _ => other ≠ hashPart
  | .purge => True

theorem upsertNarInfo_eq_ok {hashPart : Bytes} {info : Option CachedInfo}
    {rows' : List (NarRow NarColumns)} (h : upsertNarInfo xp rows now hashPart info = .ok rows') :
    ∃ columns, (info.mapM fun info => do return (info.path.name, ← narColumns xp info)) =
        .ok columns ∧
      rows' = rows.filter (·.hashPart ≠ hashPart) ++ [⟨hashPart, now, columns⟩] := by
  obtain ⟨columns, hcolumns, h⟩ := bind_eq_ok.mp h
  exact ⟨columns, hcolumns, (pure_eq_ok.mp h).symm⟩

theorem OnlyRow.perform (h : OnlyRow row rows) {time : Int} (hfresh : row.isFresh settings now)
    (htime : time ≤ now) {operation : CacheOperation} (hspares : operation.Spares row.hashPart) :
    OnlyRow row (perform xp settings rows time operation) := by
  cases operation with
  | upsertNarInfo hashPart info =>
    unfold NarInfoColumns.perform
    dsimp only
    split
    next hrows =>
      obtain ⟨columns, -, rfl⟩ := upsertNarInfo_eq_ok hrows
      have hne : row.hashPart ≠ hashPart := fun heq => hspares heq.symm
      exact (h.filter (decide_eq_true hne)).append hspares
    next => exact h
  | purge =>
    refine h.filter ?_
    unfold NarRow.isFresh at hfresh
    split at hfresh
    next hnone =>
      rw [hnone]
      have hlt := of_decide_eq_true hfresh
      exact decide_eq_true (by omega)
    next hsome =>
      rw [hsome]
      have hlt := of_decide_eq_true hfresh
      exact decide_eq_true (by omega)

theorem OnlyRow.run {operations : List (Int × CacheOperation)} (h : OnlyRow row rows)
    (hfresh : row.isFresh settings now)
    (hall : ∀ operation ∈ operations, operation.1 ≤ now ∧ operation.2.Spares row.hashPart) :
    OnlyRow row (run xp settings rows operations) := by
  induction operations generalizing rows with
  | nil => exact h
  | cons operation operations ih =>
    obtain ⟨⟨htime, hspares⟩, hall⟩ := List.forall_mem_cons.mp hall
    exact ih (h.perform hfresh htime hspares) hall

end Rows

section Row

variable {xp : ExperimentalFeatureSettings} {storeDir : Bytes} {info : NarInfo}

/-- An info that is read back. The algorithms are those of the enabled features. -/
structure FitsDiskCache (xp : ExperimentalFeatureSettings) (storeDir : Bytes) (info : NarInfo) :
    Prop where
  path : separator info.path = 45
  storeDir : info.storeDir = storeDir
  deriver : ∀ deriver, info.deriver = some deriver → separator deriver ≠ 0
  narHash : AlgoEnabled xp info.narHash.algo
  references : ∀ ref ∈ info.references, separator ref ≠ 0 ∧ separator ref ≠ 32
  registrationTime : info.registrationTime = 0
  ultimate : info.ultimate = false
  sigs : ∀ sig ∈ info.sigs, FitsSignature sig
  ca : ∀ ca, info.ca = some ca → AlgoEnabled xp ca.hash.algo
  url : 0 ∉ info.url
  compression : info.compression ≠ none
  fileHash : ∀ hash, info.fileHash = some hash → AlgoEnabled xp hash.algo

theorem path_column {p : StorePath} :
    StorePath.ofBaseName (p.hashPart ++ str "-" ++ columnText p.name) = .ok p ↔
      separator p = 45 := by
  have hname : 0 ∉ p.name := fun hin => by
    have hchar := isNameChar_of_mem_name hin
    rw [not_isNameChar_nul] at hchar
    cases hchar
  have hbase := baseName_eq_append p
  rw [columnText_of_notMem hname]
  constructor
  · intro h
    have heq := StorePath.baseName_of_ofBaseName h
    rw [hbase, List.append_assoc] at heq
    exact (List.cons.inj (List.append_cancel_left heq)).1
  · intro h
    rw [h] at hbase
    have heq : p.hashPart ++ str "-" ++ p.name = p.baseName := by
      rw [hbase, List.append_assoc]
      rfl
    rw [heq]
    exact StorePath.ofBaseName_baseName p

theorem compression_column {compression : Option CompressionAlgo} :
    (∃ algo, (getStr (some ((compression.map showCompressionAlgo).getD [])) >>=
        parseCompressionAlgo) = .ok algo ∧ some algo = compression) ↔ compression ≠ none := by
  cases compression with
  | none => exact iff_of_false (fun ⟨algo, _, h⟩ => (nomatch h)) fun h => h rfl
  | some algo =>
    refine iff_of_true ⟨algo, ?_, rfl⟩ nofun
    have htext : columnText (showCompressionAlgo algo) = showCompressionAlgo algo := by
      cases algo <;> rfl
    rw [Option.map_some, Option.getD_some, getStr, htext]
    exact parseCompressionAlgo_showCompressionAlgo algo

theorem parseOpt_renderContentAddress_iff {ca : Option ContentAddress} {text : Bytes}
    (h : renderContentAddress xp ca = .ok text) :
    ContentAddresses.parseOpt xp (columnText text) = .ok ca ↔
      ∀ a, ca = some a → AlgoEnabled xp a.hash.algo := by
  cases ca with
  | none =>
    cases h
    exact iff_of_true rfl fun a h => (nomatch h)
  | some a =>
    rw [parseOpt_render_iff h]
    exact ⟨fun henabled b hb => Option.some.inj hb ▸ henabled, fun henabled => henabled a rfl⟩

theorem url_column {url : Bytes} : getStr (some url) = .ok url ↔ 0 ∉ url := by
  rw [← columnText_eq_self]
  exact ⟨Except.ok.inj, congrArg Except.ok⟩

/-- What each column of a row is read as. -/
structure ReadAs (xp : ExperimentalFeatureSettings) (storeDir hashPart namePart : Bytes)
    (columns : NarColumns) (info : NarInfo) : Prop where
  path : StorePath.ofBaseName (hashPart ++ str "-" ++ columnText namePart) = .ok info.path
  storeDir : storeDir = info.storeDir
  narHash : parseAnyPrefixed xp (columnText columns.narHash) = .ok info.narHash
  url : getStr columns.url = .ok info.url
  compression : ∃ algo, getStr columns.compression >>= parseCompressionAlgo = .ok algo ∧
    some algo = info.compression
  fileHash : (columns.fileHash.mapM fun text => parseAnyPrefixed xp (columnText text)) =
    .ok info.fileHash
  fileSize : columns.fileSize.getD 0 = info.fileSize
  narSize : columns.narSize = info.narSize
  references : readElements StorePath.cmp StorePath.ofBaseName
    (tokenizeString 32 (columnText columns.refs)) = .ok info.references
  deriver : (columns.deriver.mapM fun text => StorePath.ofBaseName (columnText text)) =
    .ok info.deriver
  sigs : readElements Signature.cmp Signature.parse
    (tokenizeString 32 (columnText columns.sigs)) = .ok info.sigs
  ca : ContentAddresses.parseOpt xp (columnText columns.ca) = .ok info.ca
  registrationTime : 0 = info.registrationTime
  ultimate : false = info.ultimate

theorem readNarInfo_eq_ok {hashPart namePart : Bytes} {columns : NarColumns} :
    readNarInfo xp storeDir hashPart namePart columns = .ok info ↔
      ReadAs xp storeDir hashPart namePart columns info := by
  constructor
  · intro h
    obtain ⟨path, hpath, h⟩ := bind_eq_ok.mp h
    obtain ⟨narHash, hnarHash, h⟩ := bind_eq_ok.mp h
    obtain ⟨url, hurl, h⟩ := bind_eq_ok.mp h
    obtain ⟨text, htext, h⟩ := bind_eq_ok.mp h
    obtain ⟨algo, halgo, h⟩ := bind_eq_ok.mp h
    obtain ⟨fileHash, hfileHash, h⟩ := bind_eq_ok.mp h
    obtain ⟨references, hreferences, h⟩ := bind_eq_ok.mp h
    obtain ⟨deriver, hderiver, h⟩ := bind_eq_ok.mp h
    obtain ⟨sigs, hsigs, h⟩ := bind_eq_ok.mp h
    obtain ⟨ca, hca, h⟩ := bind_eq_ok.mp h
    obtain rfl := pure_eq_ok.mp h
    exact {
      path := hpath
      storeDir := rfl
      narHash := hnarHash
      url := hurl
      compression := ⟨algo, bind_eq_ok.mpr ⟨text, htext, halgo⟩, rfl⟩
      fileHash := hfileHash
      fileSize := rfl
      narSize := rfl
      references := hreferences
      deriver := hderiver
      sigs := hsigs
      ca := hca
      registrationTime := rfl
      ultimate := rfl }
  · intro h
    obtain ⟨⟨⟨dir, deriver, narHash, references, time, narSize, ultimate, sigs, ca⟩, url,
      compression, fileHash, fileSize⟩, path⟩ := info
    obtain ⟨hpath, hdir, hnarHash, hurl, ⟨algo, halgo, hcompression⟩, hfileHash, hfileSize,
      hnarSize, hreferences, hderiver, hsigs, hca, htime, hultimate⟩ := h
    dsimp only at hpath hdir hnarHash hurl hcompression hfileHash hfileSize hnarSize
    dsimp only at hreferences hderiver hsigs hca htime hultimate
    obtain ⟨text, htext, halgo⟩ := bind_eq_ok.mp halgo
    subst hdir hcompression hfileSize hnarSize htime hultimate
    simp only [readNarInfo, hpath, hnarHash, hurl, htext, halgo, hfileHash, hreferences, hderiver,
      hsigs, hca, bind, Except.bind]
    rfl

theorem narColumns_nar {columns : NarColumns} (h : narColumns xp (.nar info) = .ok columns) :
    ∃ ca, renderContentAddress xp info.ca = .ok ca ∧ columns = {
      url := some info.url
      compression := some ((info.compression.map showCompressionAlgo).getD [])
      fileHash := info.fileHash.map (·.toNix32 true)
      fileSize := if info.fileSize = 0 then none else some info.fileSize
      narHash := info.narHash.toNix32 true
      narSize := info.narSize
      refs := concatStringsSep 32 (info.references.elems.map StorePath.baseName)
      deriver := info.deriver.map StorePath.baseName
      sigs := concatStringsSep 32 (info.sigs.elems.map Signature.toText)
      ca } := by
  obtain ⟨ca, hca, h⟩ := bind_eq_ok.mp h
  refine ⟨ca, hca, (pure_eq_ok.mp h).symm.trans ?_⟩
  cases hfileHash : info.fileHash <;>
    simp only [CachedInfo.toNarInfo, hfileHash, Option.map, bind, Option.bind] <;> rfl

theorem readNarInfo_iff {columns : NarColumns} (h : narColumns xp (.nar info) = .ok columns) :
    readNarInfo xp storeDir info.path.hashPart info.path.name columns = .ok info ↔
      FitsDiskCache xp storeDir info := by
  obtain ⟨ca, hca, rfl⟩ := narColumns_nar h
  have hrefs : readElements StorePath.cmp StorePath.ofBaseName (tokenizeString 32
      (columnText (concatStringsSep 32 (info.references.elems.map StorePath.baseName)))) =
        .ok info.references ↔ ∀ ref ∈ info.references, separator ref ≠ 0 ∧ separator ref ≠ 32 :=
    columns_baseName.read_iff fun _ => Iff.rfl
  have hsigs : readElements Signature.cmp Signature.parse (tokenizeString 32
      (columnText (concatStringsSep 32 (info.sigs.elems.map Signature.toText)))) =
        .ok info.sigs ↔ ∀ sig ∈ info.sigs, FitsSignature sig :=
    columns_signature.read_iff fun _ => Iff.rfl
  have hfileSize : (if info.fileSize = 0 then none else some info.fileSize).getD 0 =
      info.fileSize := by
    split
    next hzero => exact hzero.symm
    next => rfl
  rw [readNarInfo_eq_ok]
  constructor
  · intro hread
    exact {
      path := path_column.mp hread.path
      storeDir := hread.storeDir.symm
      deriver := fun deriver hsome =>
        (ofBaseName_columnText_iff deriver).mp (mapM_map_eq_ok.mp hread.deriver deriver hsome)
      narHash := parseAnyPrefixed_toNix32_iff.mp hread.narHash
      references := hrefs.mp hread.references
      registrationTime := hread.registrationTime.symm
      ultimate := hread.ultimate.symm
      sigs := hsigs.mp hread.sigs
      ca := (parseOpt_renderContentAddress_iff hca).mp hread.ca
      url := url_column.mp hread.url
      compression := compression_column.mp hread.compression
      fileHash := fun hash hsome =>
        parseAnyPrefixed_toNix32_iff.mp (mapM_map_eq_ok.mp hread.fileHash hash hsome) }
  · intro hfits
    exact {
      path := path_column.mpr hfits.path
      storeDir := hfits.storeDir.symm
      narHash := parseAnyPrefixed_toNix32_iff.mpr hfits.narHash
      url := url_column.mpr hfits.url
      compression := compression_column.mpr hfits.compression
      fileHash := mapM_map_eq_ok.mpr fun hash hsome =>
        parseAnyPrefixed_toNix32_iff.mpr (hfits.fileHash hash hsome)
      fileSize := hfileSize
      narSize := rfl
      references := hrefs.mpr hfits.references
      deriver := mapM_map_eq_ok.mpr fun deriver hsome =>
        (ofBaseName_columnText_iff deriver).mpr (hfits.deriver deriver hsome)
      sigs := hsigs.mpr hfits.sigs
      ca := (parseOpt_renderContentAddress_iff hca).mpr hfits.ca
      registrationTime := hfits.registrationTime.symm
      ultimate := hfits.ultimate.symm }

theorem lookupNarInfo_iff {settings : NarInfoDiskCacheSettings}
    {rows rows' : List (NarRow NarColumns)} {time now : Int}
    {operations : List (Int × CacheOperation)}
    (h : upsertNarInfo xp rows time info.path.hashPart (some (.nar info)) = .ok rows')
    (hall : ∀ operation ∈ operations,
      operation.1 ≤ now ∧ operation.2.Spares info.path.hashPart)
    (hfresh : now - settings.ttlPositive < time) :
    lookupNarInfo xp settings storeDir (run xp settings rows' operations) now info.path.hashPart =
      .ok (.oValid info) ↔ FitsDiskCache xp storeDir info := by
  obtain ⟨cells, hcells, rfl⟩ := upsertNarInfo_eq_ok h
  rw [Option.mapM_some] at hcells
  obtain ⟨cell, hcell, hcells⟩ := bind_eq_ok.mp hcells
  obtain rfl := pure_eq_ok.mp hcells
  obtain ⟨columns, hcolumns, hcell⟩ := bind_eq_ok.mp hcell
  obtain rfl := pure_eq_ok.mp hcell
  have honly : OnlyRow ⟨info.path.hashPart, time, some (info.path.name, columns)⟩
      (run xp settings (rows.filter (·.hashPart ≠ info.path.hashPart) ++
        [⟨info.path.hashPart, time, some (info.path.name, columns)⟩]) operations) :=
    (OnlyRow.upsert rows _).run (decide_eq_true hfresh) hall
  rw [← readNarInfo_iff hcolumns]
  refine (Eq.congr_left (honly.lookup hfresh)).trans ?_
  rw [map_eq_ok]
  constructor
  · rintro ⟨info', hread, heq⟩
    rwa [Outcome.oValid.inj heq] at hread
  · exact fun hread => ⟨info, hread, rfl⟩

end Row

end Nix.Store.NarInfoColumns
