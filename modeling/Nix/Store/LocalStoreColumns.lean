import Nix.Store.PathInfoCoherence
import Nix.Store.SqliteTexts

/-!
The path infos of a local store, as its database keeps them.
-/

set_option linter.dupNamespace false

namespace Nix.Store.LocalStoreColumns

open Util.Types Util.Hashes Util.Strings Util.CanonPaths Lib.Delimited Lib.Results Lib.SortedList
  Store.Path Store.PathInfo Store.StoreApi Store.StoreDirs Store.SqliteTexts Store.ValidPathsDb
  Store.LocalStores Store.RegisterValidPaths Store.PathInfoCoherence

section

variable (dirs : StoreDirConfig) (xp : ExperimentalFeatureSettings)

/-- The columns of `ValidPaths`. A `StringSet` holds the texts of the signatures. -/
def sqliteText : ColumnText where
  renderHash hash := hash.toBase16 true
  parseHash s := parseAnyPrefixed xp (columnText s)
  renderSigs sigs := concatStringsSep 32 (sigs.elems.map Signature.toText)
  parseSigs s :=
    let tokens : SortedSet (@compare Bytes _) := .ofList (tokenizeString 32 (columnText s))
    readElements Signature.cmp Signature.parse tokens.elems
  renderContentAddress := ContentAddresses.render xp
  parseContentAddress s := ContentAddresses.parseOpt xp (columnText s)
  parseStorePath s := dirs.parseStorePath (columnText s)

def sqliteStore (settings : NarInfoDiskCacheSettings) : LocalStoreConfig :=
  ⟨dirs.storeDir, settings, sqliteText dirs xp⟩

end

/-- The fields that a stored info has in common with the one that was stored. -/
structure SameMetadata (info info' : ValidPathInfo) : Prop where
  references : info'.references = info.references
  deriver : info'.deriver = info.deriver
  narHash : info'.narHash = info.narHash
  narSize : info'.narSize = info.narSize
  ultimate : info'.ultimate = info.ultimate
  sigs : info'.sigs = info.sigs
  ca : info'.ca = info.ca

section StorePaths

variable {dirs : StoreDirConfig}

/-- A printed path that is read back from a column. -/
structure FitsPath (dirs : StoreDirConfig) (p : StorePath) : Prop where
  no_nul : 0 ∉ dirs.print p
  no_slash : separator p ≠ slash

theorem mem_parentPath {path : Bytes} {b : UInt8} (h : b ∈ parentPath path) :
    b = slash ∨ b ∈ path := by
  unfold parentPath at h
  split at h
  · exact .inl (List.mem_singleton.mp h)
  · exact .inr (List.mem_of_mem_take h)
  · cases h

theorem nul_notMem_storeDir {t : Bytes} {p : StorePath} (hnul : 0 ∉ t)
    (h : dirs.parseStorePath t = .ok p) : 0 ∉ dirs.storeDir := by
  unfold StoreDirConfig.parseStorePath canonPath at h
  split at h
  next => cases h
  next =>
    obtain ⟨c, hc, h⟩ := bind_eq_ok.mp h
    split at hc
    next => cases hc
    next =>
      cases hc
      split at h
      next => cases h
      next hparent =>
        rw [not_not] at hparent
        intro hin
        rw [← hparent] at hin
        rcases mem_parentPath hin with heq | hin
        · exact absurd heq (by decide)
        · exact (canonical_canonPathInner hnul).nul_notMem hin

theorem parseStorePath_columnText {p : StorePath} (h : FitsPath dirs p) :
    dirs.parseStorePath (columnText (dirs.print p)) = .ok p := by
  rw [columnText_of_notMem h.no_nul, parseStorePath_print_iff]
  exact h.no_slash

theorem fitsPath_of_parseStorePath {p p' : StorePath}
    (h : dirs.parseStorePath (columnText (dirs.print p)) = .ok p') : FitsPath dirs p := by
  have hdir := nul_notMem_storeDir (nul_notMem_columnText _) h
  have hhash : 0 ∉ p.hashPart := fun hin => by
    have hname := isNameChar_of_mem_hashPart hin
    rw [not_isNameChar_nul] at hname
    cases hname
  have hprint : dirs.print p =
      (dirs.storeDir ++ slash :: p.hashPart) ++ separator p :: p.name := by
    rw [StoreDirConfig.print, printStorePath, baseName_eq_append, List.append_assoc,
      List.append_assoc]
    rfl
  have hfront : 0 ∉ dirs.storeDir ++ slash :: p.hashPart := by
    rw [List.mem_append, List.mem_cons, not_or, not_or]
    exact ⟨hdir, by decide, hhash⟩
  have hsep : separator p ≠ 0 := by
    intro hzero
    -- only the hash part is read
    rw [hprint, hzero, columnText_append hfront] at h
    have htext : dirs.storeDir ++ slash :: p.hashPart =
        dirs.storeDir ++ join slash ([] ++ [p.hashPart]) := by
      rw [List.nil_append, join_cons, join_nil, List.append_nil]
    rw [htext] at h
    obtain ⟨-, hread⟩ := eq_nil_of_parseStorePath dirs
      (List.forall_mem_singleton.mpr (keptComponent_hashPart p)) h
    have hlen := length_baseName p'
    rw [StorePath.baseName_of_ofBaseName hread, length_hashPart] at hlen
    exact Nat.lt_irrefl _ hlen
  have hnul : 0 ∉ dirs.print p := by
    have hbase := notMem_baseName not_isNameChar_nul hsep
    rw [StoreDirConfig.print, printStorePath, List.mem_append, List.mem_append, not_or, not_or]
    exact ⟨⟨hdir, by decide⟩, hbase⟩
  refine ⟨hnul, fun hslash => ?_⟩
  have htext : dirs.print p = dirs.storeDir ++ join slash ([p.hashPart] ++ [p.name]) := by
    rw [hprint, hslash, List.append_assoc, List.singleton_append, join_cons, join_cons, join_nil,
      List.append_nil]
    rfl
  rw [columnText_of_notMem hnul, htext] at h
  exact List.cons_ne_nil _ _ (eq_nil_of_parseStorePath dirs (List.forall_mem_cons.mpr
    ⟨keptComponent_hashPart p, List.forall_mem_singleton.mpr (keptComponent_name p)⟩) h).1

end StorePaths

section Row

variable {dirs : StoreDirConfig} {xp : ExperimentalFeatureSettings}
  {settings : NarInfoDiskCacheSettings} {info : ValidPathInfo}

/-- An info that is read back. The algorithms are those of the enabled features. -/
structure FitsLocalStore (dirs : StoreDirConfig) (xp : ExperimentalFeatureSettings)
    (info : ValidPathInfo) : Prop where
  narHash : AlgoEnabled xp info.narHash.algo
  deriver : ∀ deriver, info.deriver = some deriver → FitsPath dirs deriver
  sigs : ∀ sig ∈ info.sigs, FitsSignature sig
  ca : ∀ ca, info.ca = some ca → AlgoEnabled xp ca.hash.algo
  references : ∀ ref ∈ info.references, FitsPath dirs ref

theorem parseHashColumn_eq_ok {cfg : LocalStoreConfig} {p : StorePath} {s : Bytes} {hash : Hash} :
    parseHashColumn cfg p s = .ok hash ↔ cfg.text.parseHash s = .ok hash := by
  unfold parseHashColumn
  split
  next h => rw [h]
  next h =>
    rw [h]
    split <;> simp

theorem sigs_column {sigs : SortedSet Signature.cmp} :
    (∃ r, (if sigs.elems = [] then none else some ((sqliteText dirs xp).renderSigs sigs)).mapM
        (sqliteText dirs xp).parseSigs = .ok r ∧ r.getD .empty = sigs) ↔
      ∀ sig ∈ sigs, FitsSignature sig := by
  have hread : (sqliteText dirs xp).parseSigs ((sqliteText dirs xp).renderSigs sigs) = .ok sigs ↔
      ∀ sig ∈ sigs, FitsSignature sig :=
    columns_signature.read_iff fun t => SortedSet.mem_ofList
  split
  next hnil =>
    have hempty : sigs = .empty := SortedSet.eq_of_elems hnil
    refine iff_of_true ⟨none, rfl, hempty.symm⟩ ?_
    rw [hempty]
    exact fun sig hsig => absurd hsig (SortedSet.not_mem_empty sig)
  next =>
    rw [← hread, Option.mapM_some]
    constructor
    · rintro ⟨r, h, hr⟩
      obtain ⟨sigs', hsigs, h⟩ := bind_eq_ok.mp h
      obtain rfl := pure_eq_ok.mp h
      rw [hsigs, ← hr, Option.getD_some]
    · intro h
      exact ⟨some sigs, by rw [h]; rfl, rfl⟩

theorem ca_column {ca : Option ContentAddress} {column : Option Bytes}
    (hcolumn : ca.mapM (sqliteText dirs xp).renderContentAddress = .ok column) :
    (∃ r, column.mapM (sqliteText dirs xp).parseContentAddress = .ok r ∧ r.join = ca) ↔
      ∀ a, ca = some a → AlgoEnabled xp a.hash.algo := by
  cases ca with
  | none =>
    obtain rfl := pure_eq_ok.mp hcolumn
    exact iff_of_true ⟨none, rfl, rfl⟩ fun a h => (nomatch h)
  | some a =>
    rw [Option.mapM_some] at hcolumn
    obtain ⟨text, htext, hcolumn⟩ := bind_eq_ok.mp hcolumn
    obtain rfl := pure_eq_ok.mp hcolumn
    have hiff := parseOpt_render_iff htext
    rw [Option.mapM_some]
    constructor
    · rintro ⟨r, h, hr⟩ b ⟨⟩
      obtain ⟨parsed, hparsed, h⟩ := bind_eq_ok.mp h
      obtain rfl := pure_eq_ok.mp h
      rw [Option.join_some] at hr
      exact hiff.mp (hr ▸ hparsed)
    · intro h
      refine ⟨some (some a), ?_, rfl⟩
      have hparse : (sqliteText dirs xp).parseContentAddress text = .ok (some a) :=
        hiff.mpr (h a rfl)
      rw [hparse]
      rfl

theorem references_column {references : StorePathSet} :
    readElements StorePath.cmp (sqliteText dirs xp).parseStorePath
      (references.elems.map dirs.print) = .ok references ↔ ∀ ref ∈ references, FitsPath dirs ref := by
  rw [readElements_eq_ok]
  constructor
  · rintro ⟨h, -⟩ ref href
    obtain ⟨ref', -, hparse⟩ := h _ (List.mem_map_of_mem href)
    exact fitsPath_of_parseStorePath hparse
  · intro h
    constructor
    · intro t ht
      obtain ⟨ref, href, rfl⟩ := List.mem_map.mp ht
      exact ⟨ref, href, parseStorePath_columnText (h ref href)⟩
    · intro ref href
      exact ⟨_, List.mem_map_of_mem href, parseStorePath_columnText (h ref href)⟩

theorem readInfo_eq_ok {cfg : LocalStoreConfig} {p : StorePath} {value : RowValue}
    {references : List Bytes} {narHash : Hash} {deriver : Option StorePath}
    {sigs : Option (SortedSet Signature.cmp)} {ca : Option (Option ContentAddress)}
    {refs : List StorePath} (hnarHash : parseHashColumn cfg p value.info.hash = .ok narHash)
    (hderiver : value.deriver.mapM cfg.text.parseStorePath = .ok deriver)
    (hsigs : value.info.sigs.mapM cfg.text.parseSigs = .ok sigs)
    (hca : value.info.ca.mapM cfg.text.parseContentAddress = .ok ca)
    (hrefs : references.mapM cfg.text.parseStorePath = .ok refs) :
    readInfo cfg p value references = .ok {
      path := p
      storeDir := cfg.storeDir
      deriver
      narHash
      references := .ofList refs
      registrationTime := value.registrationTime
      narSize := value.info.narSize.getD 0
      ultimate := value.info.ultimate = some 1
      sigs := sigs.getD .empty
      ca := ca.join } := by
  simp only [readInfo, hnarHash, hderiver, hsigs, hca, hrefs, bind, Except.bind]
  rfl

theorem readInfo_iff {columns : InfoColumns} {env : Surroundings}
    (hcolumns : infoColumns (sqliteStore dirs xp settings) info = .ok columns) :
    (∃ info', readInfo (sqliteStore dirs xp settings) info.path
        (rowValue (sqliteStore dirs xp settings) env info columns)
        (info.references.elems.map dirs.print) = .ok info' ∧ SameMetadata info info') ↔
      FitsLocalStore dirs xp info := by
  obtain ⟨ca, hca, hcolumns⟩ := bind_eq_ok.mp hcolumns
  obtain rfl := pure_eq_ok.mp hcolumns
  constructor
  · rintro ⟨info', h, hsame⟩
    obtain ⟨narHash, hnarHash, h⟩ := bind_eq_ok.mp h
    obtain ⟨deriver, hderiver, h⟩ := bind_eq_ok.mp h
    obtain ⟨sigs, hsigs, h⟩ := bind_eq_ok.mp h
    obtain ⟨parsed, hparsed, h⟩ := bind_eq_ok.mp h
    obtain ⟨refs, hrefs, h⟩ := bind_eq_ok.mp h
    obtain rfl := pure_eq_ok.mp h
    obtain ⟨hsameRefs, hsameDeriver, hsameHash, -, -, hsameSigs, hsameCa⟩ := hsame
    dsimp only at hsameRefs hsameDeriver hsameHash hsameSigs hsameCa
    subst hsameHash hsameDeriver
    refine ⟨?_, ?_, ?_, ?_, ?_⟩
    · exact parseAnyPrefixed_toBase16_iff.mp (parseHashColumn_eq_ok.mp hnarHash)
    · intro deriver hsome
      exact fitsPath_of_parseStorePath (mapM_map_eq_ok.mp hderiver deriver hsome)
    · exact sigs_column.mp ⟨sigs, hsigs, hsameSigs⟩
    · exact (ca_column hca).mp ⟨parsed, hparsed, hsameCa⟩
    · refine (@references_column dirs xp info.references).mp ?_
      rw [readElements]
      exact bind_eq_ok.mpr ⟨refs, hrefs, congrArg Except.ok hsameRefs⟩
  · intro h
    have hnarHash := parseAnyPrefixed_toBase16_iff.mpr h.narHash
    have hderiver : (info.deriver.map dirs.print).mapM (sqliteText dirs xp).parseStorePath =
        .ok info.deriver :=
      mapM_map_eq_ok.mpr fun deriver hsome => parseStorePath_columnText (h.deriver deriver hsome)
    obtain ⟨sigs, hsigs, hsameSigs⟩ := sigs_column.mpr h.sigs
    obtain ⟨parsed, hparsed, hsameCa⟩ := (ca_column hca).mpr h.ca
    obtain ⟨refs, hrefs, hsameRefs⟩ := bind_eq_ok.mp (references_column.mpr h.references)
    refine ⟨_, readInfo_eq_ok (parseHashColumn_eq_ok.mpr hnarHash) hderiver hsigs hparsed hrefs,
      Except.ok.inj hsameRefs, rfl, rfl, ?_, ?_, hsameSigs, hsameCa⟩
    · dsimp only [rowValue]
      split
      next hzero => exact hzero.symm
      next => rfl
    · dsimp only [rowValue]
      cases info.ultimate <;> rfl

theorem view_of_added {env : Surroundings} {s s₁ s₂ : LocalStore} {cfg : LocalStoreConfig}
    (hs : s.db.WellFormed) (hnew : isValidPath_ cfg s.db info.path = false)
    (hadd : addValidPath cfg env info s = (.ok (), s₁))
    (hrefs : addReferences cfg info s₁ = (.ok (), s₂)) :
    ∃ columns, infoColumns cfg info = .ok columns ∧
      s₂.db.view (print cfg info.path) =
        some (rowValue cfg env info columns, info.references.elems.map (print cfg)) := by
  have hrow : s.db.queryPathInfo (print cfg info.path) = none := by
    simpa [isValidPath_] using hnew
  unfold addValidPath at hadd
  split at hadd
  next => cases hadd
  next columns hcolumns =>
    obtain ⟨_, -, hcolumns⟩ := bind_eq_ok.mp hcolumns
    refine ⟨columns, hcolumns, ?_⟩
    dsimp only at hadd
    split at hadd
    next => cases hadd
    next =>
      cases hadd
      have hwf : (s.db.registerValidPath (print cfg info.path)
          (rowValue cfg env info columns)).WellFormed := hs.registerValidPath hrow
      have hview := @Database.view_registerValidPath_self s.db (print cfg info.path)
        (rowValue cfg env info columns) hs hrow
      -- the second loop of `registerValidPaths`, over this one info
      have hrun := @forEach_cons_ok _ (addReferences cfg) info [] _ s₂ hrefs
      have hvalid : ∀ i ∈ [info], isValidPath_ cfg (s.db.registerValidPath (print cfg info.path)
          (rowValue cfg env info columns)) i.path = true := by
        intro i hi
        rw [List.mem_singleton.mp hi, isValidPath_eq_view]
        exact Option.isSome_iff_exists.mpr ⟨_, hview⟩
      rcases @forEach_addReferences cfg [info] { s with
          db := s.db.registerValidPath (print cfg info.path) (rowValue cfg env info columns)
          client := _ } hwf (by simp) hvalid with
        ⟨-, s', hrun', hall⟩ | ⟨-, e, s', hrun'⟩
      · rw [hrun] at hrun'
        cases hrun'
        rw [hall.self info (List.mem_singleton_self info)]
        dsimp only
        rw [hview, Option.map_some, addTexts_nil]
      · rw [hrun] at hrun'
        cases hrun'

theorem queryPathInfo_iff {env : Surroundings} {s s₁ s₂ : LocalStore} (hs : s.db.WellFormed)
    (hnew : isValidPath_ (sqliteStore dirs xp settings) s.db info.path = false)
    (hadd : addValidPath (sqliteStore dirs xp settings) env info s = (.ok (), s₁))
    (hrefs : addReferences (sqliteStore dirs xp settings) info s₁ = (.ok (), s₂)) :
    (∃ info', queryPathInfoInternal (sqliteStore dirs xp settings) s₂.db info.path =
        .ok (some info') ∧ SameMetadata info info') ↔ FitsLocalStore dirs xp info := by
  obtain ⟨columns, hcolumns, hview⟩ := view_of_added hs hnew hadd hrefs
  rw [← readInfo_iff hcolumns, queryPathInfoInternal, hview]
  refine exists_congr fun info' => and_congr_left fun _ => ?_
  dsimp only
  rw [map_eq_ok]
  constructor
  · rintro ⟨info'', h, heq⟩
    rwa [Option.some.inj heq] at h
  · exact fun h => ⟨info', h, rfl⟩

end Row

end Nix.Store.LocalStoreColumns
