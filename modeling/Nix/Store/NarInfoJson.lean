import Nix.Store.NarInfoTexts

/-!
The JSON of a path info that is written is read back.
-/

set_option linter.dupNamespace false

namespace Nix.Store.NarInfos

open Util.Types Util.Hashes Util.JsonValues Util.CanonPaths Lib.SortedList Store.Path Store.PathInfo
  Store.StoreDirs

section

variable {xp : ExperimentalFeatureSettings} {store : Option StoreDirConfig}
  {format : PathInfoJsonFormat}

/-- A path whose JSON can be read. In the first format it is printed by a store. -/
structure ReadablePath (store : Option StoreDirConfig) (format : PathInfoJsonFormat)
    (path : StorePath) : Prop where
  store : format = .v1 → store ≠ none
  slash : format = .v1 → separator path ≠ slash

theorem pathFromJson_pathToJson {path : StorePath} (h : ReadablePath store format path) :
    ∃ j, pathToJson store format path = .ok j ∧
      pathFromJson store format j.reread = .ok path := by
  have hname : StorePath.ofBaseName path.baseName = .ok path := StorePath.ofBaseName_baseName path
  cases format with
  | v1 =>
      obtain ⟨cfg, rfl⟩ := Option.ne_none_iff_exists'.mp (h.store rfl)
      have hslash : slash ∉ path.baseName := notMem_baseName (by decide) (h.slash rfl)
      exact ⟨_, rfl, parseStorePath_print cfg hslash⟩
  | v2 => exact ⟨_, rfl, hname⟩
  | v3 => exact ⟨_, rfl, hname⟩

/-- The features that a content address needs. The method is only checked in the first
format. -/
structure ReadableCa (xp : ExperimentalFeatureSettings) (format : PathInfoJsonFormat)
    (ca : ContentAddress) : Prop where
  algo : AlgoEnabled xp ca.hash.algo
  method : format = .v1 → ContentAddresses.MethodEnabled xp ca.method

theorem caFromJson_caToJson {ca : ContentAddress} (h : ReadableCa xp format ca) :
    ∃ j, caToJson xp format ca = .ok j ∧ caFromJson xp format j.reread = .ok ca := by
  have hobject := ContentAddresses.fromJson_toJson h.algo
  cases format with
  | v1 =>
      obtain ⟨text, hrender, -, -, hparse⟩ := ContentAddresses.parse_render ⟨h.method rfl, h.algo⟩
      refine ⟨.string text, ?_, hparse⟩
      rw [caToJson, hrender]
      rfl
  | v2 => exact ⟨_, rfl, hobject⟩
  | v3 => exact ⟨_, rfl, hobject⟩

theorem sigFromJson_sigToJson {sig : Signature} (h : format ≠ .v3 → sig.Plain) :
    Signature.fromJson (sigToJson format sig).reread = .ok sig := by
  cases format with
  | v1 => exact Signature.fromJson_toText (h nofun)
  | v2 => exact Signature.fromJson_toText (h nofun)
  | v3 => exact Signature.fromJson_toJson sig

theorem optionFromJson_optionToJson {β : Type} {toJson : β → Except Error Json}
    {fromJson : Json → Except Error β} (hnull : ∀ b, fromJson .null ≠ .ok b) {o : Option β}
    (h : ∀ b, o = some b → ∃ j, toJson b = .ok j ∧ fromJson j.reread = .ok b) :
    ∃ j, optionToJson toJson o = .ok j ∧ optionFromJson fromJson j.reread = .ok o := by
  cases o with
  | none => exact ⟨.null, rfl, rfl⟩
  | some b =>
      obtain ⟨j, hto, hfrom⟩ := h b rfl
      have hnullable : getNullable j.reread = some j.reread := by
        unfold getNullable
        split
        next heq =>
          rw [heq] at hfrom
          exact absurd hfrom (hnull b)
        next => rfl
      refine ⟨j, hto, ?_⟩
      rw [optionFromJson, hnullable]
      simp only [hfrom, bind, Except.bind]
      rfl

theorem registrationTime_reread (registrationTime : Int64) :
    ∃ time : Option Int64, time.getD 0 = registrationTime ∧
      optionFromJson getInteger (Json.reread (if registrationTime = 0 then .null
        else .numberInteger registrationTime.toInt)) = .ok time := by
  by_cases hzero : registrationTime = 0
  · refine ⟨none, hzero.symm, ?_⟩
    rw [if_pos hzero]
    rfl
  · have hnull : ∀ n, getInteger .null ≠ .ok n := nofun
    have hread : ∀ n : Int64, some registrationTime = some n →
        ∃ j, Except.ok (ε := Error) (Json.numberInteger n.toInt) = .ok j ∧
          getInteger j.reread = .ok n :=
      fun n _ => ⟨_, rfl, getInteger_reread n⟩
    obtain ⟨j, hto, hfrom⟩ := optionFromJson_optionToJson hnull hread
    refine ⟨some registrationTime, rfl, ?_⟩
    rw [if_neg hzero]
    cases hto
    exact hfrom

theorem ofMembers_reread {m : Members}
    (h : m.find? (str "version") = some (Json.numberInteger format.toInt).reread) :
    PathInfoJsonFormat.ofMembers m = .ok format := by
  rw [PathInfoJsonFormat.ofMembers, optionalValueAt, h]
  cases format <;> rfl

/-- What there is in an info besides its types, so that its JSON can be read. -/
structure Readable (xp : ExperimentalFeatureSettings) (store : Option StoreDirConfig)
    (format : PathInfoJsonFormat) (info : UnkeyedValidPathInfo) : Prop where
  store : format = .v1 → store ≠ none
  narHash : AlgoEnabled xp info.narHash.algo
  references : format = .v1 → ∀ ref ∈ info.references.elems, separator ref ≠ slash
  deriver : format = .v1 → ∀ path, info.deriver = some path → separator path ≠ slash
  ca : ∀ a, info.ca = some a → ReadableCa xp format a
  sigs : format ≠ .v3 → ∀ sig ∈ info.sigs.elems, sig.Plain

theorem sigsFromJson_sigsToJson {sigs : List Signature}
    (h : format ≠ .v3 → ∀ sig ∈ sigs, sig.Plain) :
    (Json.ofElements (sigs.map (sigToJson format))).reread.elements? =
        some ((sigs.map (sigToJson format)).map Json.reread) ∧
      ((sigs.map (sigToJson format)).map Json.reread).mapM Signature.fromJson = .ok sigs := by
  have hread : ∀ sig ∈ sigs, ∃ j, Except.ok (ε := Error) (sigToJson format sig) = .ok j ∧
      Signature.fromJson j.reread = .ok sig :=
    fun sig hsig => ⟨_, rfl, sigFromJson_sigToJson fun hv3 => h hv3 sig hsig⟩
  obtain ⟨js, hto, hfrom⟩ := mapM_reread hread
  have hjs : js = sigs.map (sigToJson format) := by
    have hpure := List.mapM_pure (m := Except Error) (l := sigs) (f := sigToJson format)
    exact (Except.ok.inj (hpure.symm.trans hto)).symm
  exact ⟨Json.elements?_reread _, hjs ▸ hfrom⟩

theorem pathFromJson_null (path : StorePath) : pathFromJson store format .null ≠ .ok path :=
  nofun

theorem caFromJson_null (ca : ContentAddress) : caFromJson xp format .null ≠ .ok ca := by
  cases format <;> nofun

def infoKeys : List Bytes :=
  ["version", "storeDir", "narHash", "narSize", "references", "ca", "deriver", "registrationTime",
    "ultimate", "signatures"].map str

/-- The members of an info, whose references, content address and deriver are given. -/
def infoMembers (format : PathInfoJsonFormat) (info : UnkeyedValidPathInfo)
    (references : List Json) (ca deriver : Json) : List (Bytes × Json) :=
  [(str "version", .numberInteger format.toInt),
    (str "storeDir", .string info.storeDir),
    (str "narHash", ContentAddresses.hashToJson info.narHash),
    (str "narSize", .numberUnsigned info.narSize),
    (str "references", .ofElements references),
    (str "ca", ca),
    (str "deriver", deriver),
    (str "registrationTime",
      if info.registrationTime = 0 then .null else .numberInteger info.registrationTime.toInt),
    (str "ultimate", .boolean info.ultimate),
    (str "signatures", .ofElements (info.sigs.elems.map (sigToJson format)))]

theorem fromJson_of_members {info : UnkeyedValidPathInfo} (h : Readable xp store format info) :
    ∃ members, info.jsonMembers xp store true format = .ok members ∧
      members.map Prod.fst = infoKeys ∧
      ∀ j m, getObject j = .ok m → (∀ e ∈ members, m.find? e.1 = some e.2.reread) →
        PathInfoJsonFormat.ofMembers m = .ok format ∧
          UnkeyedValidPathInfo.fromJson xp store j = .ok info := by
  have hguard : ¬ (format = .v1 ∧ store = none) := fun ⟨hv1, hnone⟩ => h.store hv1 hnone
  obtain ⟨refs, hrefs, hreadRefs⟩ := mapM_reread fun ref href =>
    pathFromJson_pathToJson ⟨h.store, fun hv1 => h.references hv1 ref href⟩
  obtain ⟨ca, hca, hreadCa⟩ := optionFromJson_optionToJson caFromJson_null fun a ha =>
    caFromJson_caToJson (h.ca a ha)
  obtain ⟨deriver, hderiver, hreadDeriver⟩ := optionFromJson_optionToJson pathFromJson_null
    fun path hpath => pathFromJson_pathToJson ⟨h.store, fun hv1 => h.deriver hv1 path hpath⟩
  obtain ⟨time, htime, hreadTime⟩ := registrationTime_reread info.registrationTime
  refine ⟨infoMembers format info refs ca deriver, ?_, rfl, ?_⟩
  · rw [UnkeyedValidPathInfo.jsonMembers, if_neg hguard, hrefs, hca, hderiver]
    rfl
  · intro j m hobject hmembers
    rw [infoMembers] at hmembers
    simp only [List.forall_mem_cons] at hmembers
    obtain ⟨hversion, hstoreDir, hnarHash, hnarSize, hreferences, hcaMember, hderiverMember,
      htimeMember, hultimate, hsigs, -⟩ := hmembers
    have hformat := ofMembers_reread hversion
    have harray : getArray (Json.ofElements refs).reread = .ok (refs.map Json.reread) := by
      rw [getArray, Json.elements?_reread]
    have hstring : getString (Json.string info.storeDir).reread = .ok info.storeDir := rfl
    have hunsigned : getUnsigned (Json.numberUnsigned info.narSize).reread = .ok info.narSize := rfl
    have hboolean : getBoolean (Json.boolean info.ultimate).reread = .ok info.ultimate := rfl
    obtain ⟨helements, hreadSigs⟩ := sigsFromJson_sigsToJson h.sigs
    refine ⟨hformat, ?_⟩
    rw [UnkeyedValidPathInfo.fromJson, hobject]
    simp only [bind, Except.bind, hformat, if_neg hguard, valueAt, optionalValueAt,
      hstoreDir, hnarHash, hnarSize, hreferences, hcaMember, hderiverMember, htimeMember, hultimate,
      hsigs, hstring, ContentAddresses.hashFromJson_hashToJson h.narHash, hunsigned, harray, hreadRefs,
      hreadCa, hreadDeriver, hreadTime, hboolean, helements, hreadSigs, SortedSet.ofList_elems, htime]
    rfl

/-- The text of the JSON is read as the JSON is read again. -/
def Faithful (codec : JsonCodec) (json : Json) : Prop :=
  ∃ text, codec.dump json = .ok text ∧ codec.parse text = .ok json.reread

theorem readBack_eq {β : Type} {codec : JsonCodec} {fromJson : Json → Except Error β}
    {json : Except Error Json} {j : Json} (hjson : json = .ok j)
    (hcodec : ∀ j, json = .ok j → Faithful codec j) :
    readBack codec fromJson json = fromJson j.reread := by
  obtain ⟨text, hdump, hparse⟩ := hcodec j hjson
  rw [readBack, hjson]
  simp only [bind, Except.bind, hdump, hparse]

theorem UnkeyedValidPathInfo.readBack_toJson {codec : JsonCodec} {info : UnkeyedValidPathInfo}
    (h : Readable xp store format info)
    (hcodec : ∀ j, info.toJson xp store true format = .ok j → Faithful codec j) :
    readBack codec (fromJson xp store) (info.toJson xp store true format) = .ok info := by
  obtain ⟨members, hmembers, hkeys, hread⟩ := fromJson_of_members h
  have hjson : info.toJson xp store true format = .ok (.ofMembers (.ofList members)) := by
    rw [toJson, hmembers]
    rfl
  have hnodup : (members.map Prod.fst).Nodup := by
    rw [hkeys]
    decide
  obtain ⟨m, hobject, hfind⟩ := getObject_reread hnodup
  rw [readBack_eq hjson hcodec]
  exact (hread _ m hobject hfind).2

/-- The members of an info in a binary cache, besides those of the path info. -/
def narInfoMembers (info : UnkeyedNarInfo) : List (Bytes × Option Json) :=
  [(str "url", if info.url ≠ [] then some (.string info.url) else none),
    (str "compression", info.compression.map (.string <| showCompressionAlgo ·)),
    (str "downloadHash", info.fileHash.map ContentAddresses.hashToJson),
    (str "downloadSize", if info.fileSize ≠ 0 then some (.numberUnsigned info.fileSize) else none)]

theorem filterMap_narInfoMembers (info : UnkeyedNarInfo) :
    (narInfoMembers info).filterMap optionalMember =
      (if info.url ≠ [] then [(str "url", Json.string info.url)] else []) ++
      (match info.compression with
        | some compression => [(str "compression", Json.string (showCompressionAlgo compression))]
        | none => []) ++
      (match info.fileHash with
        | some fileHash => [(str "downloadHash", ContentAddresses.hashToJson fileHash)]
        | none => []) ++
      (if info.fileSize ≠ 0 then [(str "downloadSize", Json.numberUnsigned info.fileSize)]
        else []) := by
  rw [narInfoMembers]
  cases info.compression <;> cases info.fileHash <;> split <;> split <;> rfl

theorem UnkeyedNarInfo.readBack_toJson {codec : JsonCodec} {info : UnkeyedNarInfo}
    (h : Readable xp store format info.toUnkeyedValidPathInfo)
    (hfileHash : ∀ hash, info.fileHash = some hash → AlgoEnabled xp hash.algo)
    (hcodec : ∀ j, info.toJson xp store true format = .ok j → Faithful codec j) :
    readBack codec (fromJson xp store) (info.toJson xp store true format) = .ok info := by
  obtain ⟨members, hmembers, hkeys, hread⟩ := fromJson_of_members h
  have hjson : info.toJson xp store true format = .ok (.ofMembers (.ofList
      (((members.map fun e => (e.1, some e.2)) ++ narInfoMembers info).filterMap
        optionalMember))) := by
    rw [List.filterMap_append, filterMap_optionalMember, filterMap_narInfoMembers, toJson, hmembers]
    rfl
  have hnodup : (((members.map fun e => (e.1, some e.2)) ++ narInfoMembers info).map
      Prod.fst).Nodup := by
    have hextraKeys : (narInfoMembers info).map Prod.fst =
        ["url", "compression", "downloadHash", "downloadSize"].map str := rfl
    rw [List.map_append, List.map_map, Function.comp_def, hkeys, hextraKeys]
    decide
  obtain ⟨m, hobject, hfind⟩ := getObject_reread_optional hnodup
  obtain ⟨hbase, hextra⟩ := List.forall_mem_append.mp hfind
  obtain ⟨hformat, hinfo⟩ := hread _ m hobject (List.forall_mem_map.mp hbase)
  rw [narInfoMembers] at hextra
  simp only [List.forall_mem_cons] at hextra
  obtain ⟨hurl, hcompression, hhash, hsize, -⟩ := hextra
  have hreadUrl : memberFromJson [] getString
      ((if info.url ≠ [] then some (Json.string info.url) else none).map Json.reread) =
      .ok info.url := by
    split
    next => rfl
    next hempty => exact congrArg Except.ok (not_not.mp hempty).symm
  have hreadSize : memberFromJson 0 getUnsigned ((if info.fileSize ≠ 0
      then some (Json.numberUnsigned info.fileSize) else none).map Json.reread) =
      .ok info.fileSize := by
    split
    next => rfl
    next hzero => exact congrArg Except.ok (not_not.mp hzero).symm
  have hreadCompression : memberFromJson none
      (fun j => do return some (← parseCompressionAlgo (← getString j)))
      ((info.compression.map (.string <| showCompressionAlgo ·)).map Json.reread) =
      .ok info.compression := by
    cases info.compression with
    | none => rfl
    | some compression =>
        have hstring : getString (Json.string (showCompressionAlgo compression)).reread =
          .ok (showCompressionAlgo compression) := rfl
        simp only [Option.map_some, memberFromJson, hstring, bind, Except.bind,
          parseCompressionAlgo_showCompressionAlgo]
        rfl
  have hreadHash : memberFromJson none
      (fun j => do return some (← ContentAddresses.hashFromJson xp j))
      ((info.fileHash.map ContentAddresses.hashToJson).map Json.reread) = .ok info.fileHash := by
    cases hhash : info.fileHash with
    | none => rfl
    | some hash =>
        simp only [Option.map_some, memberFromJson, bind, Except.bind,
          ContentAddresses.hashFromJson_hashToJson (hfileHash hash hhash)]
        rfl
  rw [readBack_eq hjson hcodec, fromJson, hinfo, hobject]
  simp only [bind, Except.bind] at hreadCompression hreadHash
  simp only [bind, Except.bind, hformat, optionalValueAt, hurl, hcompression, hhash, hsize, hreadUrl,
    hreadSize, hreadCompression, hreadHash]
  rfl

theorem KeyedValidPathInfo.readBack_toJson {codec : JsonCodec} {v : KeyedValidPathInfo}
    (h : Readable xp none .v3 v.toUnkeyedValidPathInfo)
    (hcodec : ∀ j, v.toJson xp = .ok j → Faithful codec j) :
    readBack codec (fromJson xp) (v.toJson xp) = .ok v := by
  obtain ⟨members, hmembers, hkeys, hread⟩ := fromJson_of_members h
  have hjson : v.toJson xp = .ok (.ofMembers (.ofList
      (members ++ [(str "path", .string v.path.baseName)]))) := by
    rw [toJson, hmembers]
    rfl
  have hnodup : ((members ++ [(str "path", Json.string v.path.baseName)]).map Prod.fst).Nodup := by
    have hpathKey : [(str "path", Json.string v.path.baseName)].map Prod.fst = [str "path"] := rfl
    rw [List.map_append, hkeys, hpathKey]
    decide
  obtain ⟨m, hobject, hfind⟩ := getObject_reread hnodup
  obtain ⟨hbase, hpath⟩ := List.forall_mem_append.mp hfind
  obtain ⟨-, hinfo⟩ := hread _ m hobject hbase
  have hpath := hpath _ (List.mem_singleton.mpr rfl)
  rw [readBack_eq hjson hcodec, fromJson, hinfo, hobject]
  have hname : getString (Json.string v.path.baseName).reread = .ok v.path.baseName := rfl
  simp only [bind, Except.bind, valueAt, optionalValueAt, hpath, hname,
    StorePath.ofBaseName_baseName]
  rfl

end

/-- What is written of a path info, as a `.narinfo` file or as JSON, is read back. -/
theorem roundTrips (xp : ExperimentalFeatureSettings) :
    (∀ (cfg : StoreDirConfig) (info : NarInfo) (whence : Bytes), WellFormed cfg xp info →
      ∃ text, info.toText cfg xp = .ok text ∧
        NarInfo.parse cfg xp text whence = .ok info.written) ∧
    (∀ (codec : JsonCodec) (store : Option StoreDirConfig) (format : PathInfoJsonFormat)
        (info : UnkeyedValidPathInfo), Readable xp store format info →
      (∀ j, info.toJson xp store true format = .ok j → Faithful codec j) →
        readBack codec (UnkeyedValidPathInfo.fromJson xp store)
          (info.toJson xp store true format) = .ok info) ∧
    (∀ (codec : JsonCodec) (store : Option StoreDirConfig) (format : PathInfoJsonFormat)
        (info : UnkeyedNarInfo), Readable xp store format info.toUnkeyedValidPathInfo →
      (∀ hash, info.fileHash = some hash → AlgoEnabled xp hash.algo) →
      (∀ j, info.toJson xp store true format = .ok j → Faithful codec j) →
        readBack codec (UnkeyedNarInfo.fromJson xp store)
          (info.toJson xp store true format) = .ok info) ∧
    (∀ (codec : JsonCodec) (v : KeyedValidPathInfo),
      Readable xp none .v3 v.toUnkeyedValidPathInfo →
      (∀ j, v.toJson xp = .ok j → Faithful codec j) →
        readBack codec (KeyedValidPathInfo.fromJson xp) (v.toJson xp) = .ok v) :=
  ⟨fun _ _ whence h => parse_toText h whence,
    fun _ _ _ _ h hcodec => UnkeyedValidPathInfo.readBack_toJson h hcodec,
    fun _ _ _ _ h hfileHash hcodec => UnkeyedNarInfo.readBack_toJson h hfileHash hcodec,
    fun _ _ h hcodec => KeyedValidPathInfo.readBack_toJson h hcodec⟩

def cacheDirs : StoreDirConfig where
  storeDir := str "/nix/store"
  canonical := canonical_nixStore
  sha256 _ := ⟨List.replicate 32 0, length_zeros⟩

def noFeatures : ExperimentalFeatureSettings := fun _ => false

def package : StorePath :=
  ⟨List.replicate 32 97 ++ str "-package", checkBaseName_replicate (by decide)⟩

def library : StorePath :=
  ⟨List.replicate 32 98 ++ str "-library", checkBaseName_replicate (by decide)⟩

def packageInfo : NarInfo where
  storeDir := str "/nix/store"
  narHash := dummyHash
  narSize := 120
  references := .ofList [package, library]
  sigs := .ofList [⟨str "cache-1", [1, 2, 3]⟩]
  url := str "nar/package.nar.xz"
  compression := some .xz
  path := package

def packageJson (format : PathInfoJsonFormat) : Except Error Json :=
  packageInfo.toUnkeyedNarInfo.toJson noFeatures (some cacheDirs) true format

def packageJsonText : Bytes :=
  (["\x7b\"ca\":null,\"compression\":\"xz\",\"deriver\":null,",
    "\"narHash\":\"sha256-AAAAAAAAAAAAAAAAAAAAAAAAAAAAAAAAAAAAAAAAAAA=\",\"narSize\":120,",
    "\"references\":[\"aaaaaaaaaaaaaaaaaaaaaaaaaaaaaaaa-package\",",
    "\"bbbbbbbbbbbbbbbbbbbbbbbbbbbbbbbb-library\"],\"registrationTime\":null,",
    "\"signatures\":[\"cache-1:AQID\"],\"storeDir\":\"/nix/store\",\"ultimate\":false,",
    "\"url\":\"nar/package.nar.xz\",\"version\":2\x7d"].map str).flatten

def packageCodec : JsonCodec where
  dump _ := .ok packageJsonText
  parse _ := (packageJson .v2).map Json.reread

theorem wellFormed_packageInfo : WellFormed cacheDirs noFeatures packageInfo where
  storeDir := rfl
  storeDir_line := by decide
  path_line := by decide
  path_slash := by decide
  url_ne_nil := by decide
  url_line := by decide
  compression := nofun
  fileHash := nofun
  narHash := rfl
  narSize := by decide
  references_space := by decide
  references_line := by decide
  deriver := nofun
  sigs sig hsig := by
    obtain rfl := List.mem_singleton.mp hsig
    exact ⟨⟨by decide, by decide, by decide⟩, by decide⟩
  ca := nofun

theorem roundTrips_packageInfo :
    (∃ text, packageInfo.toText cacheDirs noFeatures = .ok text ∧
      NarInfo.parse cacheDirs noFeatures text (str "package.narinfo") = .ok packageInfo.written) ∧
    readBack packageCodec (UnkeyedNarInfo.fromJson noFeatures (some cacheDirs)) (packageJson .v2) =
      .ok packageInfo.toUnkeyedNarInfo := by
  have hwell := wellFormed_packageInfo
  refine ⟨(roundTrips noFeatures).1 _ _ _ hwell, ?_⟩
  refine (roundTrips noFeatures).2.2.1 _ _ _ _ ⟨nofun, nofun, nofun, nofun, nofun, ?_⟩ nofun ?_
  · exact fun _ sig hsig => (hwell.sigs sig hsig).1
  · intro j hj
    have hjson : packageJson .v2 = .ok j := hj
    refine ⟨packageJsonText, rfl, ?_⟩
    simp only [packageCodec, hjson]
    rfl

def rereadText (info : NarInfo) : Except Error NarInfo := do
  let text ← info.toText cacheDirs noFeatures
  NarInfo.parse cacheDirs noFeatures text (str "package.narinfo")

def rereadJson (format : PathInfoJsonFormat) (info : UnkeyedValidPathInfo) :
    Except Error UnkeyedValidPathInfo := do
  let j ← info.toJson noFeatures (some cacheDirs) true format
  UnkeyedValidPathInfo.fromJson noFeatures (some cacheDirs) j.reread

def emptySigInfo : NarInfo :=
  { packageInfo with sigs := .ofList [⟨str "cache-1", []⟩] }

/-- A store path in which the hash and the name are separated by a space. -/
def spacedPath : StorePath :=
  ⟨List.replicate 32 98 ++ str " library", checkBaseName_replicate (by decide)⟩

/-- A signature without data is written but not read, and neither are texts with paths
whose separator is a space, infos of another store directory, and content addresses whose
feature is disabled. -/
theorem rereadText_emptySigInfo :
    rereadText emptySigInfo = .error ⟨.formatError, ⟨"%s is corrupt", [str "signature"]⟩⟩ ∧
    rereadJson .v1 emptySigInfo.toUnkeyedValidPathInfo =
      .error ⟨.formatError, ⟨"%s is corrupt", [str "signature"]⟩⟩ ∧
    rereadJson .v2 emptySigInfo.toUnkeyedValidPathInfo =
      .error ⟨.formatError, ⟨"%s is corrupt", [str "signature"]⟩⟩ ∧
    rereadText { packageInfo with references := .ofList [spacedPath] } = .error ⟨.badStorePath,
      ⟨"'%s' is too short to be a valid store path", [List.replicate 32 98]⟩⟩ ∧
    rereadText { packageInfo with storeDir := str "/store" } = .ok packageInfo ∧
    rereadText { packageInfo with ca := some ⟨.git, dummyHash⟩ } ≠
      .ok { packageInfo with ca := some ⟨.git, dummyHash⟩ } := by
  decide +kernel

end Nix.Store.NarInfos
