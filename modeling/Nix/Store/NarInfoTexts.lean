import Nix.Store.NarInfos

/-!
A `.narinfo` file that is written is read back.
-/

set_option linter.dupNamespace false

namespace Nix.Store.NarInfos

open Util.Types Util.BaseN Util.Decimal Util.Hashes Util.Strings Util.CanonPaths Lib.Results
  Lib.SortedList Store.Path Store.PathInfo Store.StoreDirs

section

variable {cfg : StoreDirConfig} {xp : ExperimentalFeatureSettings}

theorem parseLoop_line {whence : Bytes} {line : Nat} {s name value rest : Bytes} {p p' : Parsing}
    (hne : s ≠ []) (hsplit : splitLine (corrupt whence line) s = .ok (name, value, rest))
    (hfield : parseField cfg xp (corrupt whence line) name value p = .ok p') :
    parseLoop cfg xp whence line s p = parseLoop cfg xp whence (line + 1) rest p' := by
  rw [parseLoop, if_neg hne]
  split
  next e h =>
    rw [hsplit] at h
    cases h
  next name value rest h =>
    rw [hsplit] at h
    cases h
    rw [hfield]

theorem splitLine_field {corrupt : String → Error} {name : String} {value rest : Bytes}
    (hname : 58 ∉ str name) (hvalue : 10 ∉ value) :
    splitLine corrupt (field name value ++ rest) = .ok (str name, value, rest) := by
  have htext : field name value ++ rest = str name ++ 58 :: 32 :: (value ++ 10 :: rest) := by
    have hcolon : str ": " = [58, 32] := rfl
    have hline : str "\n" = [10] := rfl
    rw [field, hcolon, hline]
    simp only [List.append_assoc, List.cons_append, List.nil_append]
  rw [splitLine, htext, splitPrefixTo_append hname]
  simp only [List.tail_cons, splitPrefixTo_append hvalue]

/-- What reading some lines makes of what was read before. -/
def Reads (cfg : StoreDirConfig) (xp : ExperimentalFeatureSettings) (text : Bytes)
    (p p' : Parsing) : Prop :=
  ∃ lines, ∀ whence line rest,
    parseLoop cfg xp whence line (text ++ rest) p = parseLoop cfg xp whence (line + lines) rest p'

theorem Reads.nil (p : Parsing) : Reads cfg xp [] p p :=
  ⟨0, fun _ _ _ => rfl⟩

theorem Reads.append {s t : Bytes} {p p' p'' : Parsing} (hs : Reads cfg xp s p p')
    (ht : Reads cfg xp t p' p'') : Reads cfg xp (s ++ t) p p'' := by
  obtain ⟨m, hm⟩ := hs
  obtain ⟨n, hn⟩ := ht
  refine ⟨m + n, fun whence line rest => ?_⟩
  rw [List.append_assoc, hm, hn, Nat.add_assoc]

theorem Reads.field {name : String} {value : Bytes} {p p' : Parsing} (hname : 58 ∉ str name)
    (hvalue : 10 ∉ value)
    (hfield : ∀ corrupt, parseField cfg xp corrupt (str name) value p = .ok p') :
    Reads cfg xp (field name value) p p' := by
  refine ⟨1, fun whence line rest => ?_⟩
  refine parseLoop_line ?_ (splitLine_field hname hvalue) (hfield _)
  rw [NarInfos.field]
  simp [str]

theorem notMem_fieldName : ∀ name ∈ ["StorePath", "URL", "Compression", "FileHash", "FileSize",
    "NarHash", "NarSize", "References", "Deriver", "Sig", "CA"], 58 ∉ str name := by
  decide

theorem reads_storePath {path : StorePath} (hdir : 10 ∉ cfg.storeDir)
    (hslash : separator path ≠ slash) (hline : separator path ≠ 10) (p : Parsing) :
    Reads cfg xp (field "StorePath" (cfg.print path)) p
      { p with info := { p.info with path }, havePath := true } := by
  have hslash' : slash ∉ path.baseName := notMem_baseName (not_isNameChar _ (by simp)) hslash
  have hline' : 10 ∉ path.baseName := notMem_baseName (not_isNameChar _ (by simp)) hline
  refine Reads.field (notMem_fieldName _ (by simp)) ?_ fun corrupt => ?_
  · have hsep : (10 : UInt8) ∉ str "/" := by decide
    rw [StoreDirConfig.print, printStorePath, List.mem_append, List.mem_append, not_or, not_or]
    exact ⟨⟨hdir, hsep⟩, hline'⟩
  · have hread : parseField cfg xp corrupt (str "StorePath") (cfg.print path) p = (do
        let path ← cfg.parseStorePath (cfg.print path)
        return { p with info := { p.info with path }, havePath := true }) := rfl
    rw [hread, parseStorePath_print cfg hslash']
    rfl

theorem reads_url {url : Bytes} (hline : 10 ∉ url) (p : Parsing) :
    Reads cfg xp (field "URL" url) p { p with info := { p.info with url } } :=
  Reads.field (notMem_fieldName _ (by simp)) hline fun _ => rfl

theorem reads_compression (compression : CompressionAlgo) (p : Parsing) :
    Reads cfg xp (field "Compression" (showCompressionAlgo compression)) p
      { p with info := { p.info with compression := some compression } } := by
  refine Reads.field (notMem_fieldName _ (by simp)) ?_ fun corrupt => ?_
  · cases compression <;> exact notMem_str (by decide)
  · cases compression <;> rfl

theorem algoEnabled_sha256 : AlgoEnabled xp .sha256 :=
  nofun

theorem parseHashField_toNix32 {hash : Hash} (h : AlgoEnabled xp hash.algo)
    (corrupt : String → Error) : parseHashField xp corrupt (hash.toNix32 true) = .ok hash := by
  rw [parseHashField, parseAnyPrefixed_toNix32 h]

theorem reads_fileHash {fileHash : Option Hash}
    (h : ∀ hash, fileHash = some hash → hash.algo = .sha256) :
    ∃ text, (fileHash.elim (pure []) fun fileHash => do
        checkAlgo fileHash "fileHash->algo == HashAlgorithm::SHA256"
        return field "FileHash" (fileHash.toNix32 true)) = Except.ok (ε := Error) text ∧
      ∀ p : Parsing, p.info.fileHash = none →
        Reads cfg xp text p { p with info := { p.info with fileHash } } := by
  cases fileHash with
  | none =>
      refine ⟨[], rfl, fun p hnone => ?_⟩
      rw [← hnone]
      exact Reads.nil p
  | some hash =>
      have hsha := h hash rfl
      refine ⟨field "FileHash" (hash.toNix32 true), ?_, fun p _ => ?_⟩
      · rw [Option.elim_some, checkAlgo, if_pos hsha]
        rfl
      · refine Reads.field (notMem_fieldName _ (by simp)) (hash.notMem_toNix32 true) fun corrupt => ?_
        have hread : parseField cfg xp corrupt (str "FileHash") (hash.toNix32 true) p = (do
            let fileHash ← parseHashField xp corrupt (hash.toNix32 true)
            return { p with info := { p.info with fileHash := some fileHash } }) := rfl
        rw [hread, parseHashField_toNix32 (hsha ▸ algoEnabled_sha256)]
        rfl

theorem notMem_decimal (n : Nat) : 10 ∉ decimal n := fun hin =>
  absurd (isDigit_of_mem_decimal hin) (by decide)

theorem parseSize_decimal (n : UInt64) (corrupt : String → Error) (reason : String) :
    parseSize corrupt reason (decimal n.toNat) = .ok n := by
  rw [parseSize, string2Int_decimal]

theorem reads_fileSize (fileSize : UInt64) {p : Parsing} (hzero : p.info.fileSize = 0) :
    Reads cfg xp (if fileSize ≠ 0 then field "FileSize" (decimal fileSize.toNat) else []) p
      { p with info := { p.info with fileSize } } := by
  split
  next =>
    refine Reads.field (notMem_fieldName _ (by simp)) (notMem_decimal _) fun corrupt => ?_
    have hread : parseField cfg xp corrupt (str "FileSize") (decimal fileSize.toNat) p = (do
        let fileSize ← parseSize corrupt "invalid FileSize" (decimal fileSize.toNat)
        return { p with info := { p.info with fileSize } }) := rfl
    rw [hread, parseSize_decimal]
    rfl
  next h =>
    rw [not_not.mp h, ← hzero]
    exact Reads.nil p

theorem reads_narHash {narHash : Hash} (h : narHash.algo = .sha256) (p : Parsing) :
    Reads cfg xp (field "NarHash" (narHash.toNix32 true)) p
      { p with info := { p.info with narHash }, haveNarHash := true } := by
  refine Reads.field (notMem_fieldName _ (by simp)) (narHash.notMem_toNix32 true) fun corrupt => ?_
  have hread : parseField cfg xp corrupt (str "NarHash") (narHash.toNix32 true) p = (do
      let narHash ← parseHashField xp corrupt (narHash.toNix32 true)
      return { p with info := { p.info with narHash }, haveNarHash := true }) := rfl
  rw [hread, parseHashField_toNix32 (h ▸ algoEnabled_sha256)]
  rfl

theorem reads_narSize (narSize : UInt64) (p : Parsing) :
    Reads cfg xp (field "NarSize" (decimal narSize.toNat)) p
      { p with info := { p.info with narSize } } := by
  refine Reads.field (notMem_fieldName _ (by simp)) (notMem_decimal _) fun corrupt => ?_
  have hread : parseField cfg xp corrupt (str "NarSize") (decimal narSize.toNat) p = (do
      let narSize ← parseSize corrupt "invalid NarSize" (decimal narSize.toNat)
      return { p with info := { p.info with narSize } }) := rfl
  rw [hread, parseSize_decimal]
  rfl

theorem reads_references {references : StorePathSet}
    (hspace : ∀ ref ∈ references.elems, separator ref ≠ 32)
    (hline : ∀ ref ∈ references.elems, separator ref ≠ 10) {p : Parsing}
    (hempty : p.info.references = .empty) :
    Reads cfg xp
      (field "References" (concatStringsSep 32 (references.elems.map StorePath.baseName))) p
      { p with info := { p.info with references } } := by
  have htokens : tokenizeString 32 (concatStringsSep 32 (references.elems.map StorePath.baseName)) =
      references.elems.map StorePath.baseName := by
    refine tokenizeString_concatStringsSep (List.forall_mem_map.mpr fun ref href => ?_)
    exact ⟨baseName_ne_nil ref, notMem_baseName (not_isNameChar _ (by simp)) (hspace ref href)⟩
  refine Reads.field (notMem_fieldName _ (by simp)) ?_ fun corrupt => ?_
  · refine notMem_concatStringsSep (by decide) (List.forall_mem_map.mpr fun ref href => ?_)
    exact notMem_baseName (not_isNameChar _ (by simp)) (hline ref href)
  · have hread : ∀ value, parseField cfg xp corrupt (str "References") value p = (do
        if p.info.references.elems ≠ [] then throw (corrupt "extra References")
        let refs ← (tokenizeString 32 value).mapM StorePath.ofBaseName
        return { p with
          info := { p.info with references := refs.foldl .insert p.info.references } }) := fun _ => rfl
    have hnil : p.info.references.elems = [] := congrArg SortedSet.elems hempty
    rw [hread, if_neg (not_not.mpr hnil), htokens,
      mapM_map_of_ok fun ref _ => StorePath.ofBaseName_baseName ref, hempty]
    exact congrArg (fun references => Except.ok { p with info := { p.info with references } })
      (SortedSet.foldl_insert_elems references)

theorem reads_deriver {deriver : Option StorePath}
    (hline : ∀ path, deriver = some path → separator path ≠ 10) {p : Parsing}
    (hnone : p.info.deriver = none) :
    Reads cfg xp (deriver.elim [] fun deriver => field "Deriver" deriver.baseName) p
      { p with info := { p.info with deriver } } := by
  cases deriver with
  | none =>
      rw [Option.elim_none, ← hnone]
      exact Reads.nil p
  | some path =>
      have hunknown : path.baseName ≠ str "unknown-deriver" := by
        intro heq
        have hlt := length_baseName path
        rw [heq] at hlt
        exact absurd hlt (by decide)
      refine Reads.field (notMem_fieldName _ (by simp)) (notMem_baseName (not_isNameChar _ (by simp)) (hline path rfl))
        fun corrupt => ?_
      have hread : parseField cfg xp corrupt (str "Deriver") path.baseName p = (do
          if path.baseName = str "unknown-deriver" then return p
          let deriver ← StorePath.ofBaseName path.baseName
          return { p with info := { p.info with deriver := some deriver } }) := rfl
      rw [hread, if_neg hunknown, StorePath.ofBaseName_baseName]
      rfl

theorem reads_sig {sig : Signature} (h : sig.Plain) (hline : 10 ∉ sig.keyName) (p : Parsing) :
    Reads cfg xp (field "Sig" sig.toText) p
      { p with info := { p.info with sigs := p.info.sigs.insert sig } } := by
  refine Reads.field (notMem_fieldName _ (by simp))
    (Signature.notMem_toText hline ⟨notMem_str (by decide), notMem_str (by decide), by decide⟩)
    fun corrupt => ?_
  have hread : parseField cfg xp corrupt (str "Sig") sig.toText p = (do
      let sig ← Signature.parse sig.toText
      return { p with info := { p.info with sigs := p.info.sigs.insert sig } }) := rfl
  rw [hread, Signature.parse_toText h]
  rfl

theorem reads_foldl_sigs {sigs : List Signature}
    (h : ∀ sig ∈ sigs, sig.Plain ∧ 10 ∉ sig.keyName) (p : Parsing) :
    Reads cfg xp (sigs.flatMap fun sig => field "Sig" sig.toText) p
      { p with info := { p.info with sigs := sigs.foldl .insert p.info.sigs } } := by
  induction sigs generalizing p with
  | nil => exact Reads.nil p
  | cons sig sigs ih =>
      obtain ⟨hsig, hsigs⟩ := List.forall_mem_cons.mp h
      rw [List.flatMap_cons]
      exact (reads_sig hsig.1 hsig.2 p).append (ih hsigs _)

theorem reads_sigs {sigs : SortedSet Signature.cmp}
    (h : ∀ sig ∈ sigs.elems, sig.Plain ∧ 10 ∉ sig.keyName) {p : Parsing}
    (hempty : p.info.sigs = .empty) :
    Reads cfg xp (sigs.elems.flatMap fun sig => field "Sig" sig.toText) p
      { p with info := { p.info with sigs } } := by
  have hread : Reads cfg xp _ p _ := reads_foldl_sigs h p
  rw [hempty, SortedSet.foldl_insert_elems] at hread
  exact hread

theorem reads_ca {ca : Option ContentAddress}
    (h : ∀ a, ca = some a → ContentAddresses.Enabled xp a) :
    ∃ text, (ca.elim (pure []) fun ca => do
        let text ← ContentAddresses.render xp ca
        return field "CA" text) = Except.ok (ε := Error) text ∧
      ∀ p : Parsing, p.info.ca = none →
        Reads cfg xp text p { p with info := { p.info with ca } } := by
  cases ca with
  | none =>
      refine ⟨[], rfl, fun p hnone => ?_⟩
      rw [← hnone]
      exact Reads.nil p
  | some a =>
      obtain ⟨text, hrender, hne, hline, hparse⟩ := ContentAddresses.parse_render (h a rfl)
      refine ⟨field "CA" text, ?_, fun p hnone => ?_⟩
      · rw [Option.elim_some, hrender]
        rfl
      · refine Reads.field (notMem_fieldName _ (by simp)) hline fun corrupt => ?_
        have hread : parseField cfg xp corrupt (str "CA") text p = (do
            if p.info.ca ≠ none then throw (corrupt "extra CA")
            let ca ← ContentAddresses.parseOpt xp text
            return { p with info := { p.info with ca } }) := rfl
        rw [hread, if_neg (not_not.mpr hnone), ContentAddresses.parseOpt, if_neg hne, hparse]
        rfl

/-- What there is in an info besides its types, so that its text can be read. -/
structure WellFormed (cfg : StoreDirConfig) (xp : ExperimentalFeatureSettings) (info : NarInfo) :
    Prop where
  /-- The infos of a store are in its store directory. -/
  storeDir : info.storeDir = cfg.storeDir
  storeDir_line : 10 ∉ cfg.storeDir
  path_line : separator info.path ≠ 10
  path_slash : separator info.path ≠ slash
  url_ne_nil : info.url ≠ []
  url_line : 10 ∉ info.url
  compression : info.compression ≠ none
  fileHash : ∀ hash, info.fileHash = some hash → hash.algo = .sha256
  narHash : info.narHash.algo = .sha256
  narSize : info.narSize ≠ 0
  references_space : ∀ ref ∈ info.references.elems, separator ref ≠ 32
  references_line : ∀ ref ∈ info.references.elems, separator ref ≠ 10
  deriver : ∀ path, info.deriver = some path → separator path ≠ 10
  sigs : ∀ sig ∈ info.sigs.elems, sig.Plain ∧ 10 ∉ sig.keyName
  ca : ∀ a, info.ca = some a → ContentAddresses.Enabled xp a

/-- The text omits when the path was registered, and whether it is trusted. -/
def NarInfo.written (info : NarInfo) : NarInfo :=
  { info with registrationTime := 0, ultimate := false }

theorem reads_toText {info : NarInfo} (h : WellFormed cfg xp info) :
    ∃ text, info.toText cfg xp = .ok text ∧
      Reads cfg xp text
        { info := { path := dummyPath, storeDir := cfg.storeDir, narHash := dummyHash } }
        { info := info.written, havePath := true, haveNarHash := true } := by
  obtain ⟨compression, hcompression⟩ := Option.ne_none_iff_exists'.mp h.compression
  obtain ⟨fileHash, hfileHash, hreadFileHash⟩ := @reads_fileHash cfg xp _ h.fileHash
  obtain ⟨ca, hca, hreadCa⟩ := @reads_ca cfg xp _ h.ca
  have hinfo : info.written =
      { info.written with storeDir := cfg.storeDir, compression := some compression } := by
    rw [← h.storeDir, ← hcompression]
    rfl
  have hpath : Reads cfg xp _ _ _ := reads_storePath h.storeDir_line h.path_slash h.path_line
    { info := { path := dummyPath, storeDir := cfg.storeDir, narHash := dummyHash } }
  have hurl := hpath.append (reads_url h.url_line _)
  have hcomp := hurl.append (reads_compression compression _)
  have hhash := hcomp.append (hreadFileHash _ rfl)
  have hsize := hhash.append (reads_fileSize info.fileSize rfl)
  have hnarHash := hsize.append (reads_narHash h.narHash _)
  have hnarSize := hnarHash.append (reads_narSize info.narSize _)
  have hrefs := hnarSize.append (reads_references h.references_space h.references_line rfl)
  have hderiver := hrefs.append (reads_deriver h.deriver rfl)
  have hsigs := hderiver.append (reads_sigs h.sigs rfl)
  have hread := hsigs.append (hreadCa _ rfl)
  rw [hinfo]
  refine ⟨_, ?_, hread⟩
  rw [NarInfo.toText, hcompression, hfileHash, hca, checkAlgo, if_pos h.narHash]
  rfl

theorem parse_toText {info : NarInfo} (h : WellFormed cfg xp info) (whence : Bytes) :
    ∃ text, info.toText cfg xp = .ok text ∧
      NarInfo.parse cfg xp text whence = .ok info.written := by
  obtain ⟨compression, hcompression⟩ := Option.ne_none_iff_exists'.mp h.compression
  obtain ⟨text, htext, lines, hread⟩ := reads_toText h
  have hend : ∀ line p, parseLoop cfg xp whence line [] p = .ok p := fun line p => by
    rw [parseLoop, if_pos rfl]
  have hloop := hread whence 1 []
  rw [List.append_nil, hend] at hloop
  have hbzip : some ((NarInfo.written info).compression.getD .bzip2) = info.written.compression := by
    have hwritten : info.written.compression = info.compression := rfl
    rw [hwritten, hcompression]
    rfl
  refine ⟨text, htext, ?_⟩
  rw [NarInfo.parse, hloop]
  simp only [bind, Except.bind, hbzip]
  have hurl : info.written.url ≠ [] := h.url_ne_nil
  have hsize : info.written.narSize ≠ 0 := h.narSize
  rw [if_neg (by simp), if_neg (by simp), if_neg hurl, if_neg hsize]
  rfl

end

end Nix.Store.NarInfos
