import Nix.Lib.Table
import Nix.Util.Types

set_option linter.dupNamespace false

namespace Nix.Store.ValidPathsDb

open Util.Types Lib.Table

/-- The columns that `UpdatePathInfo` sets. -/
structure InfoColumns where
  hash : Bytes
  narSize : Option UInt64
  ultimate : Option Nat
  sigs : Option Bytes
  ca : Option Bytes
  deriving DecidableEq

structure RowValue where
  registrationTime : Int
  deriver : Option Bytes
  info : InfoColumns
  deriving DecidableEq

/-- A row of `ValidPaths`. -/
structure Row where
  id : Nat
  path : Bytes
  value : RowValue
  deriving DecidableEq

/-- The tables `ValidPaths` and `Refs`, and the last autoincremented id. -/
structure Database where
  validPaths : List Row := []
  refs : List (Nat × Nat) := []
  lastId : Nat := 0
  deriving DecidableEq

namespace Database

variable (db : Database)

/-- `QueryPathInfo`. -/
def queryPathInfo (path : Bytes) : Option Row :=
  select Row.path db.validPaths path

def queryById (id : Nat) : Option Row :=
  select Row.id db.validPaths id

/-- `QueryReferences`. -/
def queryReferences (referrer : Nat) : List Bytes :=
  db.refs.filterMap fun e => if e.1 = referrer then (db.queryById e.2).map Row.path else none

/-- `QueryReferrers`. -/
def queryReferrers (path : Bytes) : List Bytes :=
  match db.queryPathInfo path with
  | none => []
  | some row =>
      db.refs.filterMap fun e => if e.2 = row.id then (db.queryById e.1).map Row.path else none

/-- `RegisterValidPath`, for a path without a row. -/
def registerValidPath (path : Bytes) (value : RowValue) : Database :=
  { db with
    validPaths := db.validPaths ++ [⟨db.lastId + 1, path, value⟩]
    lastId := db.lastId + 1 }

def Row.setInfo (path : Bytes) (info : InfoColumns) (r : Row) : Row :=
  if r.path = path then { r with value := { r.value with info } } else r

/-- `UpdatePathInfo`. -/
def updatePathInfo (path : Bytes) (info : InfoColumns) : Database :=
  { db with validPaths := db.validPaths.map (Row.setInfo path info) }

/-- `AddReference`. -/
def addReference (referrer reference : Nat) : Database :=
  if (referrer, reference) ∈ db.refs then db
  else { db with refs := db.refs ++ [(referrer, reference)] }

/-- Delete a row, with the trigger `DeleteSelfRefs` and the cascade of the foreign
key `referrer`. -/
def deleteRow (row : Row) : Database :=
  let refs := db.refs.filter fun e => e ≠ (row.id, row.id)
  { db with
    validPaths := db.validPaths.filter (·.path ≠ row.path)
    refs := refs.filter fun e => e.1 ≠ row.id }

/-- `InvalidatePath`, where the foreign key `reference` restricts the deletion. -/
def invalidatePath (path : Bytes) : Except Error Database :=
  match db.queryPathInfo path with
  | none => .ok db
  | some row =>
      if (db.deleteRow row).refs.any fun e => e.2 = row.id then
        .error ⟨.error, ⟨"FOREIGN KEY constraint failed", []⟩⟩
      else .ok (db.deleteRow row)

structure WellFormed : Prop where
  paths : (db.validPaths.map Row.path).Nodup
  ids : (db.validPaths.map Row.id).Nodup
  lastId : ∀ r ∈ db.validPaths, r.id ≤ db.lastId
  refs : ∀ e ∈ db.refs, (∃ r ∈ db.validPaths, r.id = e.1) ∧ ∃ r ∈ db.validPaths, r.id = e.2

theorem wellFormed_empty : WellFormed {} :=
  ⟨.nil, .nil, by simp, by simp⟩

/-- What the tables say about a path: its columns and its references. -/
def view (path : Bytes) : Option (RowValue × List Bytes) :=
  (db.queryPathInfo path).map fun r => (r.value, db.queryReferences r.id)

variable {db}

theorem queryPathInfo_of_mem (h : db.WellFormed) {r : Row} (hr : r ∈ db.validPaths) :
    db.queryPathInfo r.path = some r :=
  select_of_mem h.paths hr

theorem queryById_of_mem (h : db.WellFormed) {r : Row} (hr : r ∈ db.validPaths) :
    db.queryById r.id = some r :=
  select_of_mem h.ids hr

theorem mem_of_queryPathInfo {path : Bytes} {r : Row} (h : db.queryPathInfo path = some r) :
    r ∈ db.validPaths ∧ r.path = path :=
  ⟨mem_of_select h, key_of_select h⟩

theorem view_eq_none {path : Bytes} : db.view path = none ↔ db.queryPathInfo path = none := by
  simp [view]

theorem view_of_row {path : Bytes} {r : Row} (h : db.queryPathInfo path = some r) :
    db.view path = some (r.value, db.queryReferences r.id) := by
  rw [view, h]
  rfl

theorem id_injective (h : db.WellFormed) {r s : Row} (hr : r ∈ db.validPaths)
    (hs : s ∈ db.validPaths) (hid : r.id = s.id) : r = s := by
  have hrow := queryById_of_mem h hr
  rw [hid, queryById_of_mem h hs] at hrow
  exact (Option.some.inj hrow).symm

theorem mem_queryReferences (h : db.WellFormed) {id : Nat} {path : Bytes} :
    path ∈ db.queryReferences id ↔
      ∃ r ∈ db.validPaths, (id, r.id) ∈ db.refs ∧ r.path = path := by
  rw [queryReferences, List.mem_filterMap]
  constructor
  · rintro ⟨⟨a, b⟩, he, hpath⟩
    split at hpath
    next ha =>
      cases ha
      obtain ⟨r, hr, rfl⟩ := Option.map_eq_some_iff.mp hpath
      have hb : r.id = b := key_of_select hr
      exact ⟨r, mem_of_select hr, hb ▸ he, rfl⟩
    next => cases hpath
  · rintro ⟨r, hr, he, rfl⟩
    exact ⟨(id, r.id), he, by simp [queryById_of_mem h hr]⟩

section RegisterValidPath

variable {path : Bytes} {value : RowValue}

theorem WellFormed.registerValidPath (h : db.WellFormed) (hnew : db.queryPathInfo path = none) :
    (db.registerValidPath path value).WellFormed := by
  have hfresh : ∀ r ∈ db.validPaths, r.id ≠ db.lastId + 1 := by
    intro r hr
    have := h.lastId r hr
    omega
  constructor
  · rw [Database.registerValidPath, List.map_append, List.nodup_append]
    refine ⟨h.paths, by simp, ?_⟩
    rintro a ha b hb rfl
    have hb' : a = path := by simpa using hb
    exact select_eq_none.mp hnew (hb' ▸ ha)
  · rw [Database.registerValidPath, List.map_append, List.nodup_append]
    refine ⟨h.ids, by simp, ?_⟩
    rintro a ha b hb rfl
    have hb' : a = db.lastId + 1 := by simpa using hb
    obtain ⟨r, hr, rfl⟩ := List.mem_map.mp ha
    exact hfresh r hr hb'
  · intro r hr
    rcases List.mem_append.mp hr with hr | hr
    · exact Nat.le_succ_of_le (h.lastId r hr)
    · have hr' : r = ⟨db.lastId + 1, path, value⟩ := by simpa using hr
      simp [hr', Database.registerValidPath]
  · intro e he
    obtain ⟨⟨r, hr, hre⟩, s, hs, hse⟩ := h.refs e he
    exact ⟨⟨r, List.mem_append_left _ hr, hre⟩, s, List.mem_append_left _ hs, hse⟩

theorem queryReferences_registerValidPath (h : db.WellFormed) {id : Nat} :
    (db.registerValidPath path value).queryReferences id = db.queryReferences id := by
  rw [queryReferences, queryReferences]
  apply List.filterMap_congr
  intro e he
  obtain ⟨-, r, hr, hre⟩ := h.refs e he
  have hle := h.lastId r hr
  rw [queryById, queryById, Database.registerValidPath]
  dsimp only
  rw [select_append_of_ne (by dsimp only; omega)]

theorem view_registerValidPath_of_ne (h : db.WellFormed) {path' : Bytes} (hne : path' ≠ path) :
    (db.registerValidPath path value).view path' = db.view path' := by
  have hrow : (db.registerValidPath path value).queryPathInfo path' = db.queryPathInfo path' :=
    select_append_of_ne (Ne.symm hne)
  simp only [view, hrow, queryReferences_registerValidPath h]

theorem view_registerValidPath_self (h : db.WellFormed) (hnew : db.queryPathInfo path = none) :
    (db.registerValidPath path value).view path = some (value, []) := by
  have hrow : (db.registerValidPath path value).queryPathInfo path =
      some ⟨db.lastId + 1, path, value⟩ :=
    select_append_self hnew
  rw [view_of_row hrow, queryReferences_registerValidPath h]
  congr 2
  apply List.eq_nil_iff_forall_not_mem.mpr
  intro q hq
  obtain ⟨s, -, he, -⟩ := (mem_queryReferences h).mp hq
  obtain ⟨⟨r, hr, hid⟩, -⟩ := h.refs _ he
  have := h.lastId r hr
  dsimp only at hid
  omega

end RegisterValidPath

section UpdatePathInfo

variable {path : Bytes} {info : InfoColumns}

@[simp] theorem Row.setInfo_id (r : Row) : (Row.setInfo path info r).id = r.id := by
  unfold Row.setInfo
  split <;> rfl

@[simp] theorem Row.setInfo_path (r : Row) : (Row.setInfo path info r).path = r.path := by
  unfold Row.setInfo
  split <;> rfl

theorem WellFormed.updatePathInfo (h : db.WellFormed) :
    (db.updatePathInfo path info).WellFormed := by
  have hmem : ∀ {id : Nat}, (∃ r ∈ db.validPaths, r.id = id) →
      ∃ r ∈ (db.updatePathInfo path info).validPaths, r.id = id := by
    rintro id ⟨r, hr, rfl⟩
    exact ⟨Row.setInfo path info r, List.mem_map_of_mem hr, Row.setInfo_id r⟩
  constructor
  · simpa [Database.updatePathInfo, Function.comp_def] using h.paths
  · simpa [Database.updatePathInfo, Function.comp_def] using h.ids
  · intro r hr
    obtain ⟨s, hs, rfl⟩ := List.mem_map.mp hr
    rw [Row.setInfo_id]
    exact h.lastId s hs
  · intro e he
    exact ⟨hmem (h.refs e he).1, hmem (h.refs e he).2⟩

theorem queryReferences_updatePathInfo {id : Nat} :
    (db.updatePathInfo path info).queryReferences id = db.queryReferences id := by
  have hrow : ∀ id, ((db.updatePathInfo path info).queryById id).map Row.path =
      (db.queryById id).map Row.path := by
    intro id
    rw [queryById, Database.updatePathInfo, select_map Row.setInfo_id, Option.map_map]
    congr 1
    funext r
    exact Row.setInfo_path r
  simp only [queryReferences, hrow]
  rfl

theorem queryPathInfo_updatePathInfo {path' : Bytes} :
    (db.updatePathInfo path info).queryPathInfo path' =
      (db.queryPathInfo path').map (Row.setInfo path info) :=
  select_map Row.setInfo_path _ _

theorem view_updatePathInfo_of_ne {path' : Bytes} (hne : path' ≠ path) :
    (db.updatePathInfo path info).view path' = db.view path' := by
  rw [view, queryPathInfo_updatePathInfo, view, Option.map_map]
  cases hrow : db.queryPathInfo path' with
  | none => rfl
  | some r =>
      have hpath : r.path ≠ path := (mem_of_queryPathInfo hrow).2 ▸ hne
      simp [Row.setInfo, hpath, queryReferences_updatePathInfo]

theorem view_updatePathInfo_self {value : RowValue} {refs : List Bytes}
    (hview : db.view path = some (value, refs)) :
    (db.updatePathInfo path info).view path = some ({ value with info }, refs) := by
  obtain ⟨r, hrow, hr⟩ := Option.map_eq_some_iff.mp hview
  cases hr
  have hrow' : (db.updatePathInfo path info).queryPathInfo path =
      some { r with value := { r.value with info } } := by
    rw [queryPathInfo_updatePathInfo, hrow, Option.map_some, Row.setInfo,
      if_pos (mem_of_queryPathInfo hrow).2]
  rw [view_of_row hrow', queryReferences_updatePathInfo]

end UpdatePathInfo

section AddReference

variable {r s : Row}

def addText (refs : List Bytes) (t : Bytes) : List Bytes :=
  if t ∈ refs then refs else refs ++ [t]

theorem WellFormed.addReference (h : db.WellFormed) (hr : r ∈ db.validPaths)
    (hs : s ∈ db.validPaths) : (db.addReference r.id s.id).WellFormed := by
  unfold Database.addReference
  split
  · exact h
  · refine ⟨h.paths, h.ids, h.lastId, ?_⟩
    intro e he
    rcases List.mem_append.mp he with he | he
    · exact h.refs e he
    · have he' : e = (r.id, s.id) := by simpa using he
      exact ⟨⟨r, hr, by rw [he']⟩, s, hs, by rw [he']⟩

@[simp] theorem queryPathInfo_addReference {a b : Nat} {path : Bytes} :
    (db.addReference a b).queryPathInfo path = db.queryPathInfo path := by
  unfold addReference
  split <;> rfl

theorem queryReferences_addReference_of_ne {a b id : Nat} (hne : id ≠ a) :
    (db.addReference a b).queryReferences id = db.queryReferences id := by
  unfold addReference
  split
  · rfl
  · simp [queryReferences, queryById, Ne.symm hne]

theorem queryReferences_addReference_self (h : db.WellFormed) (hs : s ∈ db.validPaths)
    {a : Nat} :
    (db.addReference a s.id).queryReferences a = addText (db.queryReferences a) s.path := by
  have hmem : s.path ∈ db.queryReferences a ↔ (a, s.id) ∈ db.refs := by
    rw [mem_queryReferences h]
    constructor
    · rintro ⟨t, ht, he, hpath⟩
      have hts := queryPathInfo_of_mem h ht
      rw [hpath, queryPathInfo_of_mem h hs] at hts
      cases hts
      exact he
    · intro he
      exact ⟨s, hs, he, rfl⟩
  have hid := queryById_of_mem h hs
  rw [addText, addReference]
  split
  next he => rw [if_pos (hmem.mpr he)]
  next he =>
    rw [if_neg (mt hmem.mp he), queryReferences, List.filterMap_append]
    have hid' : select Row.id db.validPaths s.id = some s := hid
    simp [queryReferences, queryById, hid']

theorem view_addReference_of_ne (h : db.WellFormed) {b : Nat} (hr : r ∈ db.validPaths)
    {path : Bytes} (hne : path ≠ r.path) : (db.addReference r.id b).view path = db.view path := by
  rw [view, view, queryPathInfo_addReference]
  cases hrow : db.queryPathInfo path with
  | none => rfl
  | some t =>
      obtain ⟨ht, rfl⟩ := mem_of_queryPathInfo hrow
      have hid : t.id ≠ r.id := fun heq => hne (congrArg Row.path (id_injective h ht hr heq))
      rw [Option.map_some, Option.map_some, queryReferences_addReference_of_ne hid]

theorem view_addReference_self (h : db.WellFormed) (hr : r ∈ db.validPaths)
    (hs : s ∈ db.validPaths) {value : RowValue} {refs : List Bytes}
    (hview : db.view r.path = some (value, refs)) :
    (db.addReference r.id s.id).view r.path = some (value, addText refs s.path) := by
  have hrow := queryPathInfo_of_mem h hr
  rw [view_of_row hrow] at hview
  cases hview
  rw [view_of_row (queryPathInfo_addReference.trans hrow), queryReferences_addReference_self h hs]

end AddReference

section InvalidatePath

variable {r : Row}

def Unused (db : Database) (r : Row) : Prop :=
  ∀ e ∈ db.refs, e.2 = r.id → e.1 = r.id

theorem unused_of_queryReferrers (h : db.WellFormed) {path : Bytes}
    (hrow : db.queryPathInfo path = some r) (hq : ∀ q ∈ db.queryReferrers path, q = path) :
    db.Unused r := by
  intro e he hid
  obtain ⟨⟨s, hs, hse⟩, -⟩ := h.refs e he
  have hmem : s.path ∈ db.queryReferrers path := by
    rw [queryReferrers, hrow]
    refine List.mem_filterMap.mpr ⟨e, he, ?_⟩
    rw [if_pos hid, ← hse, queryById_of_mem h hs]
    rfl
  have hsr := queryPathInfo_of_mem h hs
  rw [hq _ hmem, hrow] at hsr
  cases hsr
  exact hse.symm

theorem mem_deleteRow_validPaths (h : db.WellFormed) (hr : r ∈ db.validPaths) {s : Row} :
    s ∈ (db.deleteRow r).validPaths ↔ s ∈ db.validPaths ∧ s.id ≠ r.id := by
  rw [deleteRow, List.mem_filter, decide_eq_true_eq]
  refine and_congr_right fun hs => not_congr ⟨fun heq => ?_, fun heq => ?_⟩
  · have hsr := queryPathInfo_of_mem h hs
    rw [heq, queryPathInfo_of_mem h hr] at hsr
    cases hsr
    rfl
  · rw [id_injective h hs hr heq]

theorem mem_deleteRow_refs (hu : db.Unused r) {e : Nat × Nat} :
    e ∈ (db.deleteRow r).refs ↔ e ∈ db.refs ∧ e.1 ≠ r.id ∧ e.2 ≠ r.id := by
  simp only [deleteRow, List.mem_filter, decide_eq_true_eq]
  constructor
  · rintro ⟨⟨he, -⟩, hne⟩
    exact ⟨he, hne, fun heq => hne (hu e he heq)⟩
  · rintro ⟨he, hne, -⟩
    refine ⟨⟨he, ?_⟩, hne⟩
    rintro rfl
    exact hne rfl

theorem WellFormed.deleteRow (h : db.WellFormed) (hr : r ∈ db.validPaths) (hu : db.Unused r) :
    (db.deleteRow r).WellFormed := by
  have hsub : (db.deleteRow r).validPaths.Sublist db.validPaths := List.filter_sublist
  refine ⟨h.paths.sublist (hsub.map _), h.ids.sublist (hsub.map _), ?_, ?_⟩
  · exact fun s hs => h.lastId s (hsub.subset hs)
  · intro e he
    obtain ⟨he', hne1, hne2⟩ := (mem_deleteRow_refs hu).mp he
    obtain ⟨⟨s, hs, hse⟩, t, ht, hte⟩ := h.refs e he'
    exact ⟨⟨s, (mem_deleteRow_validPaths h hr).mpr ⟨hs, hse ▸ hne1⟩, hse⟩,
      t, (mem_deleteRow_validPaths h hr).mpr ⟨ht, hte ▸ hne2⟩, hte⟩

theorem queryReferences_deleteRow (h : db.WellFormed) (hr : r ∈ db.validPaths)
    (hu : db.Unused r) {id : Nat} (hid : id ≠ r.id) :
    (db.deleteRow r).queryReferences id = db.queryReferences id := by
  have hwf := h.deleteRow hr hu
  have hentry : ∀ e ∈ db.refs, (if e ≠ (r.id, r.id) then
      if e.1 ≠ r.id then
        if e.1 = id then ((db.deleteRow r).queryById e.2).map Row.path else none
      else none else none) =
      if e.1 = id then (db.queryById e.2).map Row.path else none := by
    rintro ⟨a, b⟩ he
    by_cases ha : a = id
    · subst ha
      obtain ⟨-, s, hs, hse⟩ := h.refs _ he
      dsimp only at hse
      subst hse
      have hne : s.id ≠ r.id := fun heq => hid (hu _ he heq)
      have hs' := (mem_deleteRow_validPaths h hr).mpr ⟨hs, hne⟩
      simp [hid, queryById_of_mem hwf hs', queryById_of_mem h hs]
    · simp [ha]
  rw [queryReferences, queryReferences]
  rw [show (db.deleteRow r).refs = (db.refs.filter fun e => e ≠ (r.id, r.id)).filter
    fun e => e.1 ≠ r.id from rfl]
  rw [List.filterMap_filter, List.filterMap_filter]
  apply List.filterMap_congr
  intro e he
  simpa using hentry e he

theorem invalidatePath_spec (h : db.WellFormed) {path : Bytes}
    (hq : ∀ q ∈ db.queryReferrers path, q = path) :
    ∃ db', db.invalidatePath path = .ok db' ∧ db'.WellFormed ∧ db'.view path = none ∧
      ∀ q, q ≠ path → db'.view q = db.view q := by
  rw [invalidatePath]
  cases hrow : db.queryPathInfo path with
  | none => exact ⟨db, rfl, h, view_eq_none.mpr hrow, fun _ _ => rfl⟩
  | some r =>
      have hu := unused_of_queryReferrers h hrow hq
      obtain ⟨hr, rfl⟩ := mem_of_queryPathInfo hrow
      have hany : ¬ (db.deleteRow r).refs.any (fun e => e.2 = r.id) = true := by
        rw [List.any_eq_true]
        rintro ⟨e, he, hid⟩
        exact ((mem_deleteRow_refs hu).mp he).2.2 (by simpa using hid)
      dsimp only
      rw [if_neg hany]
      refine ⟨_, rfl, h.deleteRow hr hu, ?_, ?_⟩
      · rw [view_eq_none, queryPathInfo, deleteRow, select_filter_ne, if_pos rfl]
      · intro q hne
        have hq' : (db.deleteRow r).queryPathInfo q = db.queryPathInfo q := by
          rw [queryPathInfo, deleteRow, select_filter_ne, if_neg hne, queryPathInfo]
        rw [view, view, hq']
        cases hrow' : db.queryPathInfo q with
        | none => rfl
        | some t =>
            obtain ⟨ht, rfl⟩ := mem_of_queryPathInfo hrow'
            have hid : t.id ≠ r.id :=
              fun heq => hne (congrArg Row.path (id_injective h ht hr heq))
            rw [Option.map_some, Option.map_some, queryReferences_deleteRow h hr hu hid]

end InvalidatePath

end Database

end Nix.Store.ValidPathsDb
