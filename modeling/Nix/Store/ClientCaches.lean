import Nix.Lib.Transitions
import Nix.Store.NarInfoDiskCaches
import Nix.Store.PathInfo

set_option linter.dupNamespace false

namespace Nix.Store.ClientCaches

open Util.Types Util.Hashes Util.LruCaches Lib.Machine Lib.Results Lib.Table Store.Path
  Store.PathInfo Store.StoreApi Store.NarInfoDiskCaches

/-- A read-only store that finds an object by its hash part. A binary cache checks
validity by the existence of the `.narinfo` file of the hash part. -/
structure HashPartStore (ι κ : Type) where
  storeDir : Bytes
  settings : NarInfoDiskCacheSettings
  columns : NarInfoColumns ι κ
  lookup : Bytes → Option ι
  lookup_hashPart : ∀ {h info}, lookup h = some info → (columns.path info).hashPart = h
  checksFileExists : Bool

namespace HashPartStore

variable {ι κ : Type}

def vtable (S : HashPartStore ι κ) : StoreVtable (List (NarRow κ)) ι where
  storeDir := S.storeDir
  path := S.columns.path
  settings := S.settings
  disk := diskCache S.settings S.columns
  queryPathInfoUncached := fun p => .ok (S.lookup p.hashPart)
  isValidPathUncached :=
    if S.checksFileExists then some fun p => .ok (S.lookup p.hashPart).isSome else none

def has (S : HashPartStore ι κ) (p : StorePath) : Bool :=
  (S.lookup p.hashPart).any fun info => goodStorePath p (S.columns.path info)

/-- The store has no object with the path's hash part under another name. -/
def Fits (S : HashPartStore ι κ) (p : StorePath) : Prop :=
  ∀ info, S.lookup p.hashPart = some info → goodStorePath p (S.columns.path info) = true

/-- The infos of the store can be read back from their rows. -/
def ReadsBack (S : HashPartStore ι κ) : Prop :=
  ∀ h info, S.lookup h = some info →
    ∀ p, ∃ info', S.columns.read p (S.columns.write info) = .ok info'

def identity (S : HashPartStore ι κ) (info : ι) : Bytes × Bytes :=
  ((S.columns.path info).hashPart, (S.columns.path info).name)

/-- A cached value of a path stands for the store's object with that hash part. -/
def Allowed (S : HashPartStore ι κ) (p : StorePath) (v : Option ι) : Prop :=
  v.map S.identity = (S.lookup p.hashPart).map S.identity

def RowAgrees (S : HashPartStore ι κ) (row : NarRow κ) : Prop :=
  row.info = (S.lookup row.hashPart).map fun info =>
    ((S.columns.path info).name, S.columns.write info)

def DiskAgrees (S : HashPartStore ι κ) (rows : List (NarRow κ)) : Prop :=
  S.ReadsBack ∧ ∀ row ∈ rows, S.RowAgrees row

variable {S : HashPartStore ι κ} {p : StorePath} {v : Option ι}

theorem any_good_of_allowed (h : S.Allowed p v) :
    (v.any fun info => goodStorePath p (S.columns.path info)) = S.has p := by
  have hany : ∀ w : Option ι, (w.any fun info => goodStorePath p (S.columns.path info)) =
      (w.map S.identity).any fun id =>
        p.hashPart = id.1 && (p.name = missingName || p.name = id.2) := by
    intro w
    cases w <;> rfl
  rw [has, hany, hany, h]

theorem good_of_allowed {info : ι} (hfits : S.Fits p) (h : S.Allowed p (some info)) :
    goodStorePath p (S.columns.path info) = true := by
  obtain ⟨i, hi, -⟩ := Option.map_eq_some_iff.mp h.symm
  have hhas := any_good_of_allowed h
  rw [has, hi, Option.any_some, Option.any_some, hfits i hi] at hhas
  exact hhas

theorem isSome_of_allowed (hfits : S.Fits p) (h : S.Allowed p v) : v.isSome = S.has p := by
  rw [← any_good_of_allowed h]
  cases v with
  | none => rfl
  | some info => exact (good_of_allowed hfits h).symm

theorem has_of_fits (hfits : S.Fits p) : S.has p = (S.lookup p.hashPart).isSome :=
  (isSome_of_allowed hfits (v := S.lookup p.hashPart) rfl).symm

theorem allowed_none (hfits : S.Fits p) (h : S.has p = false) : S.Allowed p none := by
  rw [has_of_fits hfits, Option.isSome_eq_false_iff, Option.isNone_iff_eq_none] at h
  rw [Allowed, h]

theorem diskAgrees_upsert {rows : List (NarRow κ)} {now : Int} (h : S.DiskAgrees rows)
    (hv : v.map (fun i => ((S.columns.path i).name, S.columns.write i)) =
      (S.lookup p.hashPart).map fun i => ((S.columns.path i).name, S.columns.write i)) :
    S.DiskAgrees (upsertNarInfo S.columns rows now p.hashPart v) := by
  refine ⟨h.1, fun row hrow => ?_⟩
  rcases List.mem_append.mp hrow with hrow | hrow
  · exact h.2 row (List.mem_filter.mp hrow).1
  · rw [List.mem_singleton.mp hrow]
    exact hv

theorem lookupNarInfo_of_diskAgrees {rows : List (NarRow κ)} {now : Int}
    (h : S.DiskAgrees rows) :
    ∃ o, lookupNarInfo S.settings S.columns rows now p.hashPart = .ok o ∧
      (∀ info, o = .oValid info → S.Allowed p (some info)) ∧
      (o = .oInvalid → S.Allowed p none) := by
  unfold lookupNarInfo
  cases hfind : rows.find? fun row => row.hashPart = p.hashPart && row.isFresh S.settings now with
  | none => exact ⟨.oUnknown, rfl, by simp, by simp⟩
  | some row =>
      have hrow := h.2 row (List.mem_of_find?_eq_some hfind)
      have hkey : row.hashPart = p.hashPart := by
        have := List.find?_some hfind
        simp only [Bool.and_eq_true, decide_eq_true_eq] at this
        exact this.1
      rw [RowAgrees, hkey] at hrow
      dsimp only
      cases hlookup : S.lookup p.hashPart with
      | none =>
          rw [hlookup] at hrow
          rw [hrow]
          exact ⟨.oInvalid, rfl, by simp, fun _ => by rw [Allowed, hlookup]⟩
      | some i =>
          rw [hlookup] at hrow
          rw [hrow]
          dsimp only [Option.map_some]
          obtain ⟨q, hq, hhash, hname⟩ := ofBaseName_hashPart_name (S.columns.path i)
          rw [S.lookup_hashPart hlookup] at hq hhash
          obtain ⟨info, hread⟩ := h.1 _ _ hlookup q
          refine ⟨.oValid info, ?_, ?_, by simp⟩
          · rw [hq]
            exact bind_eq_ok.mpr ⟨q, rfl, bind_eq_ok.mpr ⟨info, hread, rfl⟩⟩
          · rintro _ ⟨⟩
            rw [Allowed, hlookup, Option.map_some, Option.map_some, identity, identity,
              S.columns.path_read hread, hhash, hname, S.lookup_hashPart hlookup]

theorem respects : S.vtable.Respects S.Allowed S.DiskAgrees where
  uncached h := by
    cases h
    rfl
  lookup h := lookupNarInfo_of_diskAgrees h
  upsert h hd := by
    cases h
    exact diskAgrees_upsert hd rfl
  upsertMissing h hd := by
    refine diskAgrees_upsert hd ?_
    rw [Allowed, Option.map_none, eq_comm, Option.map_eq_none_iff] at h
    rw [h]

theorem respects_noDisk : S.vtable.Respects S.Allowed fun _ => False where
  uncached := respects.uncached
  lookup h := h.elim
  upsert _ h := h
  upsertMissing _ h := h

end HashPartStore

inductive Query
  | queryPathInfo (clock : Clock) (p : StorePath)
  | isValidPath (clock : Clock) (p : StorePath)

inductive Answer (ι : Type)
  | info (r : Except Error ι)
  | valid (r : Except Error Bool)

section Runs

variable {ι κ : Type}

def step (S : HashPartStore ι κ) (c : Client (List (NarRow κ)) ι) :
    Query → Answer ι × Client (List (NarRow κ)) ι
  | .queryPathInfo clock p => (S.vtable.queryPathInfo clock p c).map .info id
  | .isValidPath clock p => (S.vtable.isValidPath clock p c).map .valid id

/-- What the answer to a query should be: an info for the path exactly when the
store has one. -/
def Right (S : HashPartStore ι κ) : Query → Answer ι → Prop
  | .queryPathInfo _ p, .info r =>
      if S.has p then ∃ info, r = .ok info ∧ goodStorePath p (S.columns.path info) = true
      else r = .error (S.vtable.invalidPath p)
  | .isValidPath _ p, .valid r => r = .ok (S.has p)
  | _, _ => False

/-- No entry in memory, and what is on disk agrees with the store. -/
structure Opened (S : HashPartStore ι κ) (c : Client (List (NarRow κ)) ι) : Prop where
  data : c.pathInfoCache.data = []
  disk : ∀ rows, c.diskCache = some rows → S.DiskAgrees rows

/-- A path that the store has under another name may be queried as long as nothing is
known about it. Its validity may be asked for only if the verdict is a query's, and
if there is no disk cache. -/
def StepOk (S : HashPartStore ι κ) (c : Client (List (NarRow κ)) ι) : Query → Prop
  | .queryPathInfo clock p => S.Fits p ∨ S.vtable.known clock p c = none
  | .isValidPath clock p => S.Fits p ∨
      (S.vtable.known clock p c = none ∧ c.diskCache = none ∧ S.checksFileExists = false)

variable {S : HashPartStore ι κ} {c : Client (List (NarRow κ)) ι}

abbrev Coherent (S : HashPartStore ι κ) (c : Client (List (NarRow κ)) ι) : Prop :=
  c.Coherent S.Allowed S.DiskAgrees

theorem Opened.coherent (h : Opened S c) : Coherent S c := by
  refine ⟨fun _ => h.data, ?_, h.disk⟩
  intro p v hv
  simp [LRUCache.value?_eq, select, h.data] at hv

theorem queryPathInfo_step {clock : Clock} {p : StorePath} (hc : Coherent S c)
    (hok : S.Fits p ∨ S.vtable.known clock p c = none) :
    Right S (.queryPathInfo clock p) (.info (S.vtable.queryPathInfo clock p c).1) ∧
      Coherent S (S.vtable.queryPathInfo clock p c).2 := by
  have hgood : S.vtable.known clock p c = none ∨
      ∀ info, S.Allowed p (some info) → goodStorePath p (S.vtable.path info) = true := by
    rcases hok with hfits | hknown
    · exact .inr fun info hinfo => HashPartStore.good_of_allowed hfits hinfo
    · exact .inl hknown
  obtain ⟨hcoherent, ⟨v, hv, hanswer⟩ | ⟨e, he, -⟩⟩ :=
    StoreVtable.queryPathInfo_spec HashPartStore.respects hc hgood
  · refine ⟨?_, hcoherent⟩
    have hhas := HashPartStore.any_good_of_allowed hv
    rw [Right, hanswer]
    split
    next h =>
      rw [h] at hhas
      cases v with
      | none => cases hhas
      | some info => exact ⟨info, StoreVtable.checkInfo_eq_ok.mpr ⟨rfl, hhas⟩, hhas⟩
    next h =>
      rw [eq_false_of_ne_true h] at hhas
      cases v with
      | none => rfl
      | some info =>
          have hbad : ¬ goodStorePath p (S.vtable.path info) = true := by
            rw [Option.any_some] at hhas
            exact ne_true_of_eq_false hhas
          rw [StoreVtable.checkInfo, if_neg hbad]
  · cases he

theorem isValidPath_unknown {clock : Clock} {p : StorePath} (hc : Coherent S c)
    (hknown : S.vtable.known clock p c = none) (hdisk : c.diskCache = none)
    (hdefault : S.checksFileExists = false) :
    (S.vtable.isValidPath clock p c).1 = .ok (S.has p) ∧
      Coherent S (S.vtable.isValidPath clock p c).2 := by
  have hnoDisk : c.Coherent S.Allowed fun _ => False :=
    ⟨hc.inert, hc.memory, fun d hd => by simp [hdisk] at hd⟩
  have hc' := @StoreVtable.coherent_getKnown _ _ S.vtable _ _ clock p _ hnoDisk
  have hfst := @StoreVtable.getKnown_fst _ _ S.vtable clock p c
  have hunknown : S.vtable.known clock p (S.vtable.getKnown clock p c).2 = none := by
    simpa [StoreVtable.known, StoreVtable.getKnown] using hknown
  have hdisk' : (S.vtable.getKnown clock p c).2.diskCache = none := hdisk
  obtain ⟨hverdict, hcoherent⟩ := StoreVtable.isValidPathDefault_spec
    HashPartStore.respects_noDisk hc' (.inl hunknown) ⟨_, rfl⟩
    fun v hv => HashPartStore.any_good_of_allowed hv
  unfold StoreVtable.isValidPath
  rcases hres : S.vtable.getKnown clock p c with ⟨known, c'⟩
  rw [hres] at hfst hdisk' hverdict hcoherent
  obtain rfl : known = none := hfst.trans hknown
  have hrun : S.vtable.runIsValidPathUncached clock p c' =
      S.vtable.isValidPathDefault clock p c' := by
    simp [StoreVtable.runIsValidPathUncached, HashPartStore.vtable, hdefault]
  dsimp only at hdisk' ⊢
  rw [StoreVtable.lookupDisk, hdisk', hrun]
  dsimp only
  rcases hdef : S.vtable.isValidPathDefault clock p c' with ⟨r, c''⟩
  rw [hdef] at hverdict hcoherent
  cases hverdict
  have hend : c''.diskCache = none :=
    Option.eq_none_iff_forall_ne_some.mpr fun d hd => hcoherent.disk d hd
  refine ⟨rfl, ?_⟩
  dsimp only
  split
  · exact ⟨hcoherent.inert, hcoherent.memory, fun d hd => by simp [hend] at hd⟩
  · exact ⟨hcoherent.inert, hcoherent.memory,
      fun d hd => by simp [StoreVtable.upsertDisk, hend] at hd⟩

theorem isValidPath_step {clock : Clock} {p : StorePath} (hc : Coherent S c)
    (hok : S.Fits p ∨ (S.vtable.known clock p c = none ∧ c.diskCache = none ∧
      S.checksFileExists = false)) :
    (S.vtable.isValidPath clock p c).1 = .ok (S.has p) ∧
      Coherent S (S.vtable.isValidPath clock p c).2 := by
  rcases hok with hfits | ⟨hknown, hdisk, hdefault⟩
  · refine StoreVtable.isValidPath_spec HashPartStore.respects hc
      (fun v hv => HashPartStore.isSome_of_allowed hfits hv)
      (HashPartStore.allowed_none hfits) fun c hc => ?_
    cases hcheck : S.checksFileExists with
    | true =>
        rw [HashPartStore.has_of_fits hfits]
        simpa [StoreVtable.runIsValidPathUncached, HashPartStore.vtable, hcheck] using hc
    | false =>
        have hrun : S.vtable.runIsValidPathUncached clock p c =
            S.vtable.isValidPathDefault clock p c := by
          simp [StoreVtable.runIsValidPathUncached, HashPartStore.vtable, hcheck]
        rw [hrun]
        exact StoreVtable.isValidPathDefault_spec HashPartStore.respects hc
          (.inr fun info hinfo => HashPartStore.good_of_allowed hfits hinfo) ⟨_, rfl⟩
          fun v hv => HashPartStore.any_good_of_allowed hv
  · exact isValidPath_unknown hc hknown hdisk hdefault

theorem coherent_step (c : Client (List (NarRow κ)) ι) (q : Query) (hc : Coherent S c)
    (hok : StepOk S c q) : Coherent S (step S c q).2 := by
  cases q with
  | queryPathInfo clock p => exact (queryPathInfo_step hc hok).2
  | isValidPath clock p => exact (isValidPath_step hc hok).2

theorem right_step (c : Client (List (NarRow κ)) ι) (q : Query) (hc : Coherent S c)
    (hok : StepOk S c q) : Right S q (step S c q).1 := by
  cases q with
  | queryPathInfo clock p => exact (queryPathInfo_step hc hok).1
  | isValidPath clock p => exact (isValidPath_step hc hok).1

end Runs

def fooPath : StorePath := ⟨List.replicate 32 97 ++ str "-foo", by decide⟩

def barPath : StorePath := ⟨List.replicate 32 97 ++ str "-bar", by decide⟩

def fooInfo : ValidPathInfo where
  path := fooPath
  storeDir := str "/nix/store"
  narHash := ⟨.sha256, List.replicate 32 0, length_zeros⟩

def sampleStore : HashPartStore ValidPathInfo ValidPathInfo where
  storeDir := str "/nix/store"
  settings := ⟨3600, 86400⟩
  columns := ⟨ValidPathInfo.path, id, fun p info => .ok { info with path := p }, by
    rintro p c info ⟨⟩
    rfl⟩
  lookup h := if h = fooPath.hashPart then some fooInfo else none
  lookup_hashPart := by
    intro h info hlookup
    split at hlookup
    next heq =>
      cases hlookup
      exact heq.symm
    next => cases hlookup
  checksFileExists := false

def sampleClient (diskCache : Option (List (NarRow ValidPathInfo))) :
    Client (List (NarRow ValidPathInfo)) ValidPathInfo :=
  ⟨⟨65536, [], [], 0⟩, diskCache⟩

def sampleClock : Clock := ⟨0, 0, 0⟩

theorem opened_sampleClient : Opened sampleStore (sampleClient (some [])) := by
  refine ⟨rfl, ?_⟩
  rintro rows ⟨⟩
  exact ⟨fun h info _ p => ⟨{ info with path := p }, rfl⟩, by simp⟩

theorem fits_fooPath : sampleStore.Fits fooPath := by
  intro info hinfo
  cases hinfo
  decide

end Nix.Store.ClientCaches
