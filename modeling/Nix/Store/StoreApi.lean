import Nix.Store.Path
import Nix.Util.LruCaches

set_option linter.dupNamespace false

namespace Nix.Store.StoreApi

open Util.Types Util.LruCaches Store.Path

/-- `Store::MissingName`. -/
def missingName : Bytes := str "x"

structure NarInfoDiskCacheSettings where
  ttlNegative : Nat
  ttlPositive : Nat

def nanosPerSecond : Nat := 1000000000

/-- What the clocks show during a call: `steady_clock` when an entry is looked up
and when one is made, and the wall clock. -/
structure Clock where
  steady : Nat
  stamp : Nat
  time : Int

/-- `ι` is the type of path infos, and null means missing. -/
structure PathInfoCacheValue (ι : Type) where
  timePoint : Nat
  value : Option ι

namespace PathInfoCacheValue

variable {ι : Type}

def didExist (v : PathInfoCacheValue ι) : Bool :=
  v.value.isSome

def isKnownNow (settings : NarInfoDiskCacheSettings) (now : Nat) (v : PathInfoCacheValue ι) :
    Bool :=
  let ttl := if v.didExist then settings.ttlPositive else settings.ttlNegative
  now < v.timePoint + ttl * nanosPerSecond

end PathInfoCacheValue

/-- The pairs that `lookupNarInfo` returns. -/
inductive Outcome (ι : Type)
  | oValid (info : ι)
  | oInvalid
  | oUnknown

/-- The abstract class `NarInfoDiskCache`, on the entries of one store. -/
structure NarInfoDiskCache (δ ι : Type) where
  lookupNarInfo : δ → Int → Bytes → Except Error (Outcome ι)
  upsertNarInfo : δ → Int → Bytes → Option ι → δ

/-- What a class derived from `Store` provides. -/
structure StoreVtable (δ ι : Type) where
  storeDir : Bytes
  path : ι → StorePath
  settings : NarInfoDiskCacheSettings
  disk : NarInfoDiskCache δ ι
  queryPathInfoUncached : StorePath → Except Error (Option ι)
  isValidPathUncached : Option (StorePath → Except Error Bool)

/-- The mutable members of `Store`. -/
structure Client (δ ι : Type) where
  pathInfoCache : LRUCache StorePath (PathInfoCacheValue ι)
  diskCache : Option δ

def goodStorePath (expected actual : StorePath) : Bool :=
  expected.hashPart = actual.hashPart &&
    (expected.name = missingName || expected.name = actual.name)

namespace StoreVtable

variable {δ ι : Type} (S : StoreVtable δ ι) (clock : Clock) (p : StorePath)

def invalidPath : Error :=
  ⟨.invalidPath, ⟨"path '%s' is not valid", [printStorePath S.storeDir p]⟩⟩

/-- `pathInfoCache->lock()->get(storePath)`, as far as it is known now. -/
def getKnown (c : Client δ ι) : Option (PathInfoCacheValue ι) × Client δ ι :=
  let (res, cache) := c.pathInfoCache.get p
  (res.filter (·.isKnownNow S.settings clock.steady), { c with pathInfoCache := cache })

def lookupDisk (c : Client δ ι) : Except Error (Outcome ι) :=
  match c.diskCache with
  | none => .ok .oUnknown
  | some d => S.disk.lookupNarInfo d clock.time p.hashPart

def upsertMemory (info : Option ι) (c : Client δ ι) : Client δ ι :=
  { c with pathInfoCache := c.pathInfoCache.upsert p ⟨clock.stamp, info⟩ }

def upsertDisk (info : Option ι) (c : Client δ ι) : Client δ ι :=
  { c with
    diskCache := c.diskCache.map fun d => S.disk.upsertNarInfo d clock.time p.hashPart info }

/-- The outer option is the cache's, the inner one the pointer. -/
def queryPathInfoFromClientCache (c : Client δ ι) :
    Except Error (Option (Option ι)) × Client δ ι :=
  match S.getKnown clock p c with
  | (some v, c) => (.ok (some v.value), c)
  | (none, c) =>
      match S.lookupDisk clock p c with
      | .error e => (.error e, c)
      | .ok .oUnknown => (.ok none, c)
      | .ok .oInvalid => (.ok (some none), upsertMemory clock p none c)
      | .ok (.oValid info) =>
          (.ok (some (if goodStorePath p (S.path info) then some info else none)),
            upsertMemory clock p (some info) c)

/-- The check of what `queryPathInfoUncached` found. -/
def checkInfo (info : Option ι) : Except Error ι :=
  match info with
  | none => .error (S.invalidPath p)
  | some info => if goodStorePath p (S.path info) then .ok info else .error (S.invalidPath p)

def queryPathInfo (c : Client δ ι) : Except Error ι × Client δ ι :=
  match S.queryPathInfoFromClientCache clock p c with
  | (.error e, c) => (.error e, c)
  | (.ok (some (some info)), c) => (.ok info, c)
  | (.ok (some none), c) => (.error (S.invalidPath p), c)
  | (.ok none, c) =>
      match S.queryPathInfoUncached p with
      | .error e => (.error e, c)
      | .ok info =>
          (S.checkInfo p info, upsertMemory clock p info (S.upsertDisk clock p info c))

/-- The default of `isValidPathUncached`. -/
def isValidPathDefault (c : Client δ ι) : Except Error Bool × Client δ ι :=
  match S.queryPathInfo clock p c with
  | (.ok _, c) => (.ok true, c)
  | (.error e, c) => (if e.cls = .invalidPath then .ok false else .error e, c)

def runIsValidPathUncached (c : Client δ ι) : Except Error Bool × Client δ ι :=
  match S.isValidPathUncached with
  | some isValidPathUncached => (isValidPathUncached p, c)
  | none => S.isValidPathDefault clock p c

def isValidPath (c : Client δ ι) : Except Error Bool × Client δ ι :=
  match S.getKnown clock p c with
  | (some v, c) => (.ok v.didExist, c)
  | (none, c) =>
      match S.lookupDisk clock p c with
      | .error e => (.error e, c)
      | .ok .oInvalid => (.ok false, upsertMemory clock p none c)
      | .ok (.oValid info) => (.ok true, upsertMemory clock p (some info) c)
      | .ok .oUnknown =>
          match S.runIsValidPathUncached clock p c with
          | (.error e, c) => (.error e, c)
          | (.ok valid, c) => (.ok valid, if valid then c else S.upsertDisk clock p none c)

end StoreVtable

section Coherent

variable {δ ι : Type}

/-- Every cached value of a path `p` is one that `R p` allows, and the disk cache
satisfies `D`. -/
structure Client.Coherent (R : StorePath → Option ι → Prop) (D : δ → Prop) (c : Client δ ι) :
    Prop where
  inert : c.pathInfoCache.Inert
  memory : ∀ p v, c.pathInfoCache.value? p = some v → R p v.value
  disk : ∀ d, c.diskCache = some d → D d

/-- What the store finds is allowed, and the disk cache returns what it was given. -/
structure StoreVtable.Respects (S : StoreVtable δ ι) (R : StorePath → Option ι → Prop) (D : δ → Prop) :
    Prop where
  uncached : ∀ {p v}, S.queryPathInfoUncached p = .ok v → R p v
  lookup : ∀ {d now p}, D d → ∃ o, S.disk.lookupNarInfo d now p.hashPart = .ok o ∧
    (∀ info, o = .oValid info → R p (some info)) ∧ (o = .oInvalid → R p none)
  upsert : ∀ {d now p v}, S.queryPathInfoUncached p = .ok v → D d →
    D (S.disk.upsertNarInfo d now p.hashPart v)
  upsertMissing : ∀ {d now p}, R p none → D d → D (S.disk.upsertNarInfo d now p.hashPart none)

namespace StoreVtable

variable {S : StoreVtable δ ι} {R : StorePath → Option ι → Prop} {D : δ → Prop} {clock : Clock}
  {p : StorePath} {c : Client δ ι}

def known (S : StoreVtable δ ι) (clock : Clock) (p : StorePath) (c : Client δ ι) :
    Option (PathInfoCacheValue ι) :=
  (c.pathInfoCache.value? p).filter (·.isKnownNow S.settings clock.steady)

theorem getKnown_fst : (S.getKnown clock p c).1 = S.known clock p c := by
  rw [known, ← LRUCache.get_fst]
  rfl

theorem coherent_getKnown (hc : c.Coherent R D) : (S.getKnown clock p c).2.Coherent R D := by
  refine ⟨hc.inert.get p, ?_, hc.disk⟩
  intro q v hv
  exact hc.memory q v (by simpa [getKnown] using hv)

theorem memory_of_known (hc : c.Coherent R D) {v : PathInfoCacheValue ι}
    (hv : S.known clock p c = some v) : R p v.value := by
  obtain ⟨hmem, -⟩ := Option.filter_eq_some_iff.mp hv
  exact hc.memory p v hmem

theorem coherent_upsertMemory {info : Option ι} (hc : c.Coherent R D) (hinfo : R p info) :
    (upsertMemory clock p info c).Coherent R D := by
  refine ⟨hc.inert.upsert _ _, ?_, hc.disk⟩
  intro q v hv
  rcases LRUCache.value?_upsert hc.inert hv with ⟨rfl, rfl⟩ | ⟨-, hmem⟩
  · exact hinfo
  · exact hc.memory q v hmem

theorem coherent_upsertDisk {info : Option ι} (hS : S.Respects R D) (hc : c.Coherent R D)
    (hinfo : S.queryPathInfoUncached p = .ok info ∨ (info = none ∧ R p none)) :
    (S.upsertDisk clock p info c).Coherent R D := by
  refine ⟨hc.inert, hc.memory, ?_⟩
  intro d hd
  obtain ⟨d', hd', rfl⟩ := Option.map_eq_some_iff.mp hd
  rcases hinfo with hinfo | ⟨rfl, hinfo⟩
  · exact hS.upsert hinfo (hc.disk d' hd')
  · exact hS.upsertMissing hinfo (hc.disk d' hd')

theorem lookupDisk_cases (hS : S.Respects R D) (hc : c.Coherent R D) :
    S.lookupDisk clock p c = .ok .oUnknown ∨
    (S.lookupDisk clock p c = .ok .oInvalid ∧ R p none) ∨
    (∃ info, S.lookupDisk clock p c = .ok (.oValid info) ∧ R p (some info)) := by
  rw [lookupDisk]
  cases hd : c.diskCache with
  | none => exact .inl rfl
  | some d =>
      obtain ⟨o, ho, hvalid, hinvalid⟩ := @Respects.lookup _ _ _ _ _ hS d clock.time p (hc.disk d hd)
      dsimp only
      cases o with
      | oValid info => exact .inr (.inr ⟨info, ho, hvalid info rfl⟩)
      | oInvalid => exact .inr (.inl ⟨ho, hinvalid rfl⟩)
      | oUnknown => exact .inl ho

theorem checkInfo_eq_ok {info : Option ι} {i : ι} :
    S.checkInfo p info = .ok i ↔ info = some i ∧ goodStorePath p (S.path i) = true := by
  unfold checkInfo
  cases info with
  | none => simp
  | some j =>
      dsimp only
      split
      next h =>
        constructor
        · rintro ⟨⟩
          exact ⟨rfl, h⟩
        · rintro ⟨⟨⟩, -⟩
          rfl
      next h =>
        constructor
        · rintro ⟨⟩
        · rintro ⟨⟨⟩, hj⟩
          exact absurd hj h

theorem value?_queryPathInfo (hinert : c.pathInfoCache.Inert) (hdisk : c.diskCache = none) :
    (S.queryPathInfo clock p c).2.pathInfoCache.Inert ∧
    (S.queryPathInfo clock p c).2.pathInfoCache.capacity = c.pathInfoCache.capacity ∧
    ∀ q v, (S.queryPathInfo clock p c).2.pathInfoCache.value? q = some v →
      c.pathInfoCache.value? q = some v ∨
        (q = p ∧ S.queryPathInfoUncached p = .ok v.value) := by
  have hinert' : (S.getKnown clock p c).2.pathInfoCache.Inert := hinert.get p
  have hcap : (S.getKnown clock p c).2.pathInfoCache.capacity = c.pathInfoCache.capacity :=
    LRUCache.get_snd_capacity _ _
  have hvalue : ∀ q, (S.getKnown clock p c).2.pathInfoCache.value? q =
      c.pathInfoCache.value? q := LRUCache.value?_get _ _
  have hdisk' : (S.getKnown clock p c).2.diskCache = none := hdisk
  unfold queryPathInfo queryPathInfoFromClientCache
  rcases hres : S.getKnown clock p c with ⟨known, c'⟩
  rw [hres] at hinert' hcap hvalue hdisk'
  have hsame : ∀ q v, c'.pathInfoCache.value? q = some v →
      c.pathInfoCache.value? q = some v ∨
        (q = p ∧ S.queryPathInfoUncached p = .ok v.value) :=
    fun q v hv => .inl ((hvalue q).symm.trans hv)
  cases known with
  | some v =>
      dsimp only
      cases v.value with
      | none => exact ⟨hinert', hcap, hsame⟩
      | some info => exact ⟨hinert', hcap, hsame⟩
  | none =>
      dsimp only at hdisk' ⊢
      rw [lookupDisk, hdisk']
      dsimp only
      cases hunc : S.queryPathInfoUncached p with
      | error e =>
          rw [hunc] at hsame
          exact ⟨hinert', hcap, hsame⟩
      | ok info =>
          refine ⟨hinert'.upsert _ _, (LRUCache.upsert_capacity _ _ _).trans hcap, ?_⟩
          intro q v hv
          rcases LRUCache.value?_upsert hinert' hv with ⟨rfl, rfl⟩ | ⟨-, hmem⟩
          · exact .inr ⟨rfl, rfl⟩
          · exact .inl ((hvalue q).symm.trans hmem)

theorem queryPathInfo_spec (hS : S.Respects R D) (hc : c.Coherent R D)
    (hgood : S.known clock p c = none ∨
      ∀ info, R p (some info) → goodStorePath p (S.path info) = true) :
    (S.queryPathInfo clock p c).2.Coherent R D ∧
    ((∃ v, R p v ∧ (S.queryPathInfo clock p c).1 = S.checkInfo p v) ∨
      ∃ e, S.queryPathInfoUncached p = .error e ∧
        (S.queryPathInfo clock p c).1 = .error e) := by
  have hc' := @coherent_getKnown _ _ S _ _ clock p _ hc
  have hfst := @getKnown_fst _ _ S clock p c
  unfold queryPathInfo queryPathInfoFromClientCache
  rcases hres : S.getKnown clock p c with ⟨known, c'⟩
  rw [hres] at hc' hfst
  cases known with
  | some v =>
      have hv : R p v.value := memory_of_known hc hfst.symm
      have hcheck := hgood.resolve_left (by rw [← hfst]; simp)
      dsimp only
      cases hvalue : v.value with
      | none => exact ⟨hc', .inl ⟨none, hvalue ▸ hv, rfl⟩⟩
      | some info =>
          rw [hvalue] at hv
          exact ⟨hc', .inl ⟨some info, hv, (checkInfo_eq_ok.mpr ⟨rfl, hcheck info hv⟩).symm⟩⟩
  | none =>
      dsimp only
      rcases lookupDisk_cases hS hc' with hd | ⟨hd, hv⟩ | ⟨info, hd, hv⟩
      · rw [hd]
        dsimp only
        cases hunc : S.queryPathInfoUncached p with
        | error e => exact ⟨hc', .inr ⟨e, rfl, rfl⟩⟩
        | ok v =>
            have hv := hS.uncached hunc
            exact ⟨coherent_upsertMemory (coherent_upsertDisk hS hc' (.inl hunc)) hv, .inl ⟨v, hv, rfl⟩⟩
      · rw [hd]
        exact ⟨coherent_upsertMemory hc' hv, .inl ⟨none, hv, rfl⟩⟩
      · rw [hd]
        dsimp only
        by_cases hinfo : goodStorePath p (S.path info) = true
        · rw [if_pos hinfo]
          exact ⟨coherent_upsertMemory hc' hv,
            .inl ⟨some info, hv, (checkInfo_eq_ok.mpr ⟨rfl, hinfo⟩).symm⟩⟩
        · rw [if_neg hinfo]
          refine ⟨coherent_upsertMemory hc' hv, .inl ⟨some info, hv, ?_⟩⟩
          rw [checkInfo, if_neg hinfo]

theorem isValidPathDefault_spec {b : Bool} (hS : S.Respects R D) (hc : c.Coherent R D)
    (hgood : S.known clock p c = none ∨
      ∀ info, R p (some info) → goodStorePath p (S.path info) = true)
    (hok : ∃ v, S.queryPathInfoUncached p = .ok v)
    (hb : ∀ v, R p v → (v.any fun info => goodStorePath p (S.path info)) = b) :
    (S.isValidPathDefault clock p c).1 = .ok b ∧
      (S.isValidPathDefault clock p c).2.Coherent R D := by
  obtain ⟨hcoherent, ⟨v, hv, hanswer⟩ | ⟨e, he, -⟩⟩ := queryPathInfo_spec hS hc hgood
  · unfold isValidPathDefault
    rcases hq : S.queryPathInfo clock p c with ⟨r, c'⟩
    rw [hq] at hcoherent hanswer
    dsimp only at hcoherent hanswer
    subst hanswer
    rw [← hb v hv]
    cases v with
    | none => exact ⟨rfl, hcoherent⟩
    | some info =>
        rw [Option.any_some]
        by_cases hinfo : goodStorePath p (S.path info) = true
        · rw [checkInfo_eq_ok.mpr ⟨rfl, hinfo⟩, hinfo]
          exact ⟨rfl, hcoherent⟩
        · rw [checkInfo, if_neg hinfo, eq_false_of_ne_true hinfo]
          exact ⟨rfl, hcoherent⟩
  · obtain ⟨v, hv⟩ := hok
    rw [hv] at he
    cases he

theorem isValidPath_spec {b : Bool} (hS : S.Respects R D) (hc : c.Coherent R D)
    (hb : ∀ v, R p v → v.isSome = b) (hnone : b = false → R p none)
    (huncached : ∀ c : Client δ ι, c.Coherent R D →
      (S.runIsValidPathUncached clock p c).1 = .ok b ∧
        (S.runIsValidPathUncached clock p c).2.Coherent R D) :
    (S.isValidPath clock p c).1 = .ok b ∧ (S.isValidPath clock p c).2.Coherent R D := by
  have hc' := @coherent_getKnown _ _ S _ _ clock p _ hc
  have hfst := @getKnown_fst _ _ S clock p c
  unfold isValidPath
  rcases hres : S.getKnown clock p c with ⟨known, c'⟩
  rw [hres] at hc' hfst
  cases known with
  | some v =>
      have hv : v.value.isSome = b := hb _ (memory_of_known hc hfst.symm)
      exact ⟨congrArg Except.ok hv, hc'⟩
  | none =>
      dsimp only
      rcases lookupDisk_cases hS hc' with hd | ⟨hd, hv⟩ | ⟨info, hd, hv⟩
      · rw [hd]
        dsimp only
        obtain ⟨hverdict, hcoherent⟩ := huncached c' hc'
        rcases hunc : S.runIsValidPathUncached clock p c' with ⟨r, c''⟩
        rw [hunc] at hverdict hcoherent
        cases hverdict
        cases b with
        | true => exact ⟨rfl, hcoherent⟩
        | false => exact ⟨rfl, coherent_upsertDisk hS hcoherent (.inr ⟨rfl, hnone rfl⟩)⟩
      · rw [hd]
        exact ⟨congrArg Except.ok (hb _ hv), coherent_upsertMemory hc' hv⟩
      · rw [hd]
        exact ⟨congrArg Except.ok (hb _ hv), coherent_upsertMemory hc' hv⟩

end StoreVtable

end Coherent

end Nix.Store.StoreApi
