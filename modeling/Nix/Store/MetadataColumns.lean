import Nix.Store.LocalStoreColumns
import Nix.Store.NarInfoColumns
import Nix.Store.NarInfoTexts

/-!
The infos of valid paths in both databases: the tables of a local store, and the disk cache.
-/

set_option linter.dupNamespace false

namespace Nix.Store.MetadataColumns

open Util.Types Util.Hashes Lib.SortedList Store.Path Store.PathInfo Store.StoreApi Store.StoreDirs
  Store.LocalStores Store.NarInfos Store.NarInfoDiskCaches Store.SqliteTexts Store.LocalStoreColumns
  Store.NarInfoColumns Store.PathInfoCoherence

/-- What a local store reads back of an info is what was stored exactly if the info fits its
tables, and what the disk cache finds of one within its time to live exactly if it fits the
cache. -/
theorem readsBack_iff_fits (dirs : StoreDirConfig) (xp : ExperimentalFeatureSettings)
    (settings : NarInfoDiskCacheSettings) :
    (∀ (env : Surroundings) (info : ValidPathInfo) (s s₁ s₂ : LocalStore), s.db.WellFormed →
      isValidPath_ (sqliteStore dirs xp settings) s.db info.path = false →
      addValidPath (sqliteStore dirs xp settings) env info s = (.ok (), s₁) →
      addReferences (sqliteStore dirs xp settings) info s₁ = (.ok (), s₂) →
      ((∃ info', queryPathInfoInternal (sqliteStore dirs xp settings) s₂.db info.path =
          .ok (some info') ∧ SameMetadata info info') ↔ FitsLocalStore dirs xp info)) ∧
    ∀ (storeDir : Bytes) (info : NarInfo) (rows rows' : List (NarRow NarColumns))
      (time now : Int) (operations : List (Int × CacheOperation)),
      upsertNarInfo xp rows time info.path.hashPart (some (.nar info)) = .ok rows' →
      (∀ operation ∈ operations,
        operation.1 ≤ now ∧ operation.2.Spares info.path.hashPart) →
      now - settings.ttlPositive < time →
      (lookupNarInfo xp settings storeDir (run xp settings rows' operations) now
        info.path.hashPart = .ok (.oValid info) ↔ FitsDiskCache xp storeDir info) := by
  constructor
  · intro env info s s₁ s₂ hwf hnew hadd hrefs
    exact queryPathInfo_iff hwf hnew hadd hrefs
  · intro storeDir info rows rows' time now operations hupsert hall hfresh
    exact lookupNarInfo_iff hupsert hall hfresh

def registered (info : NarInfo) : ValidPathInfo where
  path := info.path
  storeDir := info.storeDir
  deriver := info.deriver
  narHash := info.narHash
  references := info.references
  registrationTime := info.registrationTime.toInt
  narSize := info.narSize
  ultimate := info.ultimate
  sigs := info.sigs
  ca := info.ca

def signedInfo (keyName : Bytes) : NarInfo where
  path := samplePath
  storeDir := sampleDirs.storeDir
  narHash := ⟨.sha256, List.replicate 32 0, length_zeros⟩
  narSize := 1
  sigs := ⟨[⟨keyName, [1]⟩], List.pairwise_singleton _ _⟩
  url := str "nar/foo.nar"
  compression := some .xz

def noFeatures : ExperimentalFeatureSettings := fun _ => false

def sampleStore : LocalStoreConfig := sqliteStore sampleDirs noFeatures ⟨3600, 86400⟩

def storedInfo (keyName : Bytes) : LocalStore :=
  (addReferences sampleStore (registered (signedInfo keyName))
    (addValidPath sampleStore sampleSurroundings (registered (signedInfo keyName))
      emptyStore).2).2

theorem addValidPath_signedInfo (keyName : Bytes) :
    addValidPath sampleStore sampleSurroundings (registered (signedInfo keyName)) emptyStore =
      (.ok (), (addValidPath sampleStore sampleSurroundings (registered (signedInfo keyName))
        emptyStore).2) :=
  rfl

theorem addReferences_signedInfo (keyName : Bytes) :
    addReferences sampleStore (registered (signedInfo keyName))
      (addValidPath sampleStore sampleSurroundings (registered (signedInfo keyName))
        emptyStore).2 = (.ok (), storedInfo keyName) :=
  rfl

theorem mem_sigs_signedInfo {keyName : Bytes} {sig : Signature} :
    sig ∈ (signedInfo keyName).sigs ↔ sig = ⟨keyName, [1]⟩ :=
  List.mem_singleton

/-- The only row of an empty cache that an info was written to. -/
def signedRows (keyName : Bytes) : List (NarRow NarColumns) :=
  match upsertNarInfo noFeatures [] 0 samplePath.hashPart (some (.nar (signedInfo keyName))) with
  | .ok rows => rows
  | .error _ => []

theorem upsertNarInfo_signedInfo (keyName : Bytes) :
    upsertNarInfo noFeatures [] 0 samplePath.hashPart (some (.nar (signedInfo keyName))) =
      .ok (signedRows keyName) :=
  rfl

theorem fitsSignature_sample : FitsSignature ⟨str "cache-1", [1]⟩ :=
  ⟨⟨by decide, by decide, by decide⟩, by decide, by decide⟩

/-- A signature with a plain key name is read back from both. -/
theorem readsBack_iff_fits_signed :
    (∃ info', queryPathInfoInternal sampleStore (storedInfo (str "cache-1")).db samplePath =
      .ok (some info') ∧ SameMetadata (registered (signedInfo (str "cache-1"))) info') ∧
    lookupNarInfo noFeatures ⟨3600, 86400⟩ sampleDirs.storeDir
      (run noFeatures ⟨3600, 86400⟩ (signedRows (str "cache-1")) [(5, .purge)]) 10
      samplePath.hashPart = .ok (.oValid (signedInfo (str "cache-1"))) := by
  obtain ⟨hlocal, hcache⟩ := readsBack_iff_fits sampleDirs noFeatures ⟨3600, 86400⟩
  constructor
  · refine (hlocal sampleSurroundings (registered (signedInfo (str "cache-1"))) emptyStore _ _
      opened_emptyStore.1 rfl (addValidPath_signedInfo _) (addReferences_signedInfo _)).mpr ?_
    exact {
      narHash := nofun
      deriver := nofun
      sigs := fun sig hsig => mem_sigs_signedInfo.mp hsig ▸ fitsSignature_sample
      ca := nofun
      references := fun ref href => absurd href List.not_mem_nil }
  · refine (hcache sampleDirs.storeDir (signedInfo (str "cache-1")) [] _ 0 10 [(5, .purge)]
      (upsertNarInfo_signedInfo _) ?_ (by decide)).mpr ?_
    · intro operation hin
      rw [List.mem_singleton.mp hin]
      exact ⟨by decide, trivial⟩
    · exact {
        path := by decide
        storeDir := rfl
        deriver := nofun
        narHash := nofun
        references := fun ref href => absurd href List.not_mem_nil
        registrationTime := rfl
        ultimate := rfl
        sigs := fun sig hsig => mem_sigs_signedInfo.mp hsig ▸ fitsSignature_sample
        ca := nofun
        url := by decide
        compression := nofun
        fileHash := nofun }

theorem not_fitsSignature_space : ¬ FitsSignature ⟨str "my cache", [1]⟩ :=
  fun h => absurd h.no_space (by decide)

theorem wellFormed_signedInfo : WellFormed sampleDirs noFeatures (signedInfo (str "my cache")) where
  storeDir := rfl
  storeDir_line := by decide
  path_line := by decide
  path_slash := by decide
  url_ne_nil := by decide
  url_line := by decide
  compression := nofun
  fileHash := nofun
  narHash := rfl
  narSize := by decide
  references_space ref href := absurd href List.not_mem_nil
  references_line ref href := absurd href List.not_mem_nil
  deriver := nofun
  sigs sig hsig := by
    rw [List.mem_singleton.mp hsig]
    exact ⟨⟨by decide, by decide, by decide⟩, by decide⟩
  ca := nofun

/-- A narinfo is read whose signature has a space in its key name. Both databases take its info,
and neither gives it back. -/
theorem not_readsBack_space :
    ∃ text, NarInfo.parse sampleDirs noFeatures text (str "foo.narinfo") =
        .ok (signedInfo (str "my cache")) ∧
      (∃ s₁ s₂, addValidPath sampleStore sampleSurroundings
          (registered (signedInfo (str "my cache"))) emptyStore = (.ok (), s₁) ∧
        addReferences sampleStore (registered (signedInfo (str "my cache"))) s₁ = (.ok (), s₂) ∧
        ¬ ∃ info', queryPathInfoInternal sampleStore s₂.db samplePath = .ok (some info') ∧
          SameMetadata (registered (signedInfo (str "my cache"))) info') ∧
      ∃ rows, upsertNarInfo noFeatures [] 0 samplePath.hashPart
          (some (.nar (signedInfo (str "my cache")))) = .ok rows ∧
        lookupNarInfo noFeatures ⟨3600, 86400⟩ sampleDirs.storeDir rows 0 samplePath.hashPart ≠
          .ok (.oValid (signedInfo (str "my cache"))) := by
  obtain ⟨text, -, hparse⟩ := parse_toText wellFormed_signedInfo (str "foo.narinfo")
  refine ⟨text, hparse,
    ⟨_, _, addValidPath_signedInfo _, addReferences_signedInfo _, fun hquery => ?_⟩,
    _, upsertNarInfo_signedInfo _, fun hlookup => ?_⟩
  · have hfits := (queryPathInfo_iff opened_emptyStore.1 rfl (addValidPath_signedInfo _)
      (addReferences_signedInfo _)).mp hquery
    exact not_fitsSignature_space (hfits.sigs _ (mem_sigs_signedInfo.mpr rfl))
  · have hnone : ∀ operation ∈ ([] : List (Int × CacheOperation)),
        operation.1 ≤ 0 ∧ operation.2.Spares samplePath.hashPart :=
      fun _ h => absurd h List.not_mem_nil
    have hfits := (@lookupNarInfo_iff noFeatures sampleDirs.storeDir (signedInfo (str "my cache"))
      ⟨3600, 86400⟩ [] _ 0 0 [] (upsertNarInfo_signedInfo _) hnone (by decide)).mp hlookup
    exact not_fitsSignature_space (hfits.sigs _ (mem_sigs_signedInfo.mpr rfl))

end Nix.Store.MetadataColumns
