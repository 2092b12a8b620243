import Nix.Lib.Results
import Nix.Lib.Table
import Nix.Store.StoreApi

set_option linter.dupNamespace false

namespace Nix.Store.NarInfoDiskCaches

open Util.Types Lib.Results Lib.Table Store.Path Store.StoreApi

/-- How an info is written to the columns of `NARs` other than `namePart`, and read
back as an info for a path. -/
structure NarInfoColumns (ι κ : Type) where
  path : ι → StorePath
  write : ι → κ
  read : StorePath → κ → Except Error ι
  path_read : ∀ {p c info}, read p c = .ok info → path info = p

/-- A row of `NARs` of one cache. The columns after `timestamp` are null unless the
object is present. -/
structure NarRow (κ : Type) where
  hashPart : Bytes
  timestamp : Int
  info : Option (Bytes × κ)

namespace NarRow

variable {κ : Type}

/-- The condition of `queryNAR` on the timestamp. -/
def isFresh (settings : NarInfoDiskCacheSettings) (now : Int) (row : NarRow κ) : Bool :=
  match row.info with
  | none => row.timestamp > now - settings.ttlNegative
  | some _ => row.timestamp > now - settings.ttlPositive

end NarRow

section Cache

variable {ι κ : Type} (settings : NarInfoDiskCacheSettings) (columns : NarInfoColumns ι κ)

def lookupNarInfo (rows : List (NarRow κ)) (now : Int) (hashPart : Bytes) :
    Except Error (Outcome ι) :=
  match rows.find? fun row => row.hashPart = hashPart && row.isFresh settings now with
  | none => .ok .oUnknown
  | some row =>
      match row.info with
      | none => .ok .oInvalid
      | some (namePart, c) => do
          let p ← StorePath.ofBaseName (hashPart ++ str "-" ++ namePart)
          let info ← columns.read p c
          return .oValid info

/-- `insert or replace`, where the hash part is the key. -/
def upsertNarInfo (rows : List (NarRow κ)) (now : Int) (hashPart : Bytes) (info : Option ι) :
    List (NarRow κ) :=
  rows.filter (·.hashPart ≠ hashPart) ++
    [⟨hashPart, now, info.map fun i => ((columns.path i).name, columns.write i)⟩]

def diskCache : NarInfoDiskCache (List (NarRow κ)) ι where
  lookupNarInfo := lookupNarInfo settings columns
  upsertNarInfo := upsertNarInfo columns

end Cache

theorem ofBaseName_hashPart_name (p : StorePath) :
    ∃ q, StorePath.ofBaseName (p.hashPart ++ str "-" ++ p.name) = .ok q ∧
      q.hashPart = p.hashPart ∧ q.name = p.name := by
  obtain ⟨hlen, hhash, hname⟩ := checkBaseName_eq_ok.mp p.valid
  have hpart : p.hashPart.length = hashLen := by
    rw [StorePath.hashPart, List.length_take]
    omega
  have htake : (p.hashPart ++ str "-" ++ p.name).take hashLen = p.hashPart := by
    rw [List.append_assoc, ← hpart, List.take_left]
  have hdrop : (p.hashPart ++ str "-" ++ p.name).drop (hashLen + 1) = p.name := by
    have h : (p.hashPart ++ str "-").length = hashLen + 1 := by
      rw [List.length_append, hpart]
      rfl
    rw [← h, List.drop_left]
  have hvalid : checkBaseName (p.hashPart ++ str "-" ++ p.name) = .ok () := by
    refine checkBaseName_eq_ok.mpr ⟨?_, ?_, ?_⟩
    · have h : (str "-").length = 1 := rfl
      simp only [List.length_append, hpart, h]
      omega
    · rw [htake]
      exact hhash
    · rw [hdrop]
      exact hname
  refine ⟨⟨_, hvalid⟩, StorePath.ofBaseName_baseName ⟨_, hvalid⟩, htake, hdrop⟩

end Nix.Store.NarInfoDiskCaches
