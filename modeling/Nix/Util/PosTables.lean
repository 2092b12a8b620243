import Mathlib.Data.List.Perm.Subperm
import Nix.Lib.SortedMaps
import Nix.Util.LruCaches
import Nix.Util.SourcePositions

/-!
The table of positions: all sources are laid out in one buffer, with a cache of their lines.
-/

set_option linter.dupNamespace false

namespace Nix.Util.PosTables

open Util.Types Util.LruCaches Util.SourcePositions Lib.SortedList

variable {SourcePath : Type}

structure PosIdx where
  id : UInt32 := 0
  deriving DecidableEq

/-- `PosTable::Origin`. -/
structure TableOrigin (SourcePath : Type) where
  offset : UInt32
  origin : Origin SourcePath
  size : UInt64
  deriving DecidableEq

namespace TableOrigin

def offsetOf (o : TableOrigin SourcePath) (p : PosIdx) : UInt32 :=
  p.id - 1 - o.offset

/-- `PosTable::add`. -/
def add (o : TableOrigin SourcePath) (offset : UInt64) : PosIdx :=
  if offset > o.size then {} else ⟨((1 + o.offset).toUInt64 + offset).toUInt32⟩

end TableOrigin

/-- The origins by their offsets. -/
abbrev Origins (SourcePath : Type) := SortedMap (@compare UInt32 _) (TableOrigin SourcePath)

namespace Origins

def nextOffset (origins : Origins SourcePath) : UInt32 :=
  match origins.elems.getLast? with
  | none => 0
  | some (offset, origin) => (offset.toUInt64 + origin.size).toUInt32

def addOrigin (origins : Origins SourcePath) (origin : Origin SourcePath) (size : UInt64) :
    Origins SourcePath × TableOrigin SourcePath :=
  let offset := nextOffset origins
  if (2 + offset).toUInt64 + size < offset.toUInt64 then (origins, ⟨offset, origin, 0⟩)
  else
    -- `emplace` returns the entry that is there
    match origins.find? offset with
    | some o => (origins, o)
    | none => (origins.assign offset ⟨offset, origin, size⟩, ⟨offset, origin, size⟩)

end Origins

structure PosTable (SourcePath : Type) where
  origins : Origins SourcePath := .empty
  linesCache : LRUCache UInt32 (List UInt32)

namespace PosTable

def new (linesCacheCapacity : Nat := 65536) : PosTable SourcePath :=
  { linesCache := { capacity := linesCacheCapacity } }

/-- The last origin that does not begin behind the position. -/
def resolve (t : PosTable SourcePath) (p : PosIdx) : Option (TableOrigin SourcePath) :=
  if p.id = 0 then none
  else (t.origins.elems.takeWhile (·.1 ≤ p.id - 1)).getLast?.map Prod.snd

def addOrigin (t : PosTable SourcePath) (origin : Origin SourcePath) (size : UInt64) :
    PosTable SourcePath × TableOrigin SourcePath :=
  let (origins, o) := Origins.addOrigin t.origins origin size
  ({ t with origins }, o)

variable (readFile : SourcePath → Option Bytes)

/-- `originContent`. -/
def content (origin : Origin SourcePath) : Bytes :=
  (getSource readFile origin).getD []

/-- Where `upper_bound` finds the end of the line starts up to an offset. -/
def upperBound (lines : List UInt32) (offset : UInt32) : Nat :=
  (lines.takeWhile (· ≤ offset)).length

def posIn (o : TableOrigin SourcePath) (lines : List UInt32) (offset : UInt32) : Pos SourcePath :=
  let line := upperBound lines offset - 1
  ⟨1 + .ofNat line, 1 + (offset - lines.getD line 0), o.origin⟩

/-- The lines of an origin, from the cache or from its source. -/
def linesForInput (t : PosTable SourcePath) (o : TableOrigin SourcePath) :
    Option (List UInt32) × LRUCache UInt32 (List UInt32) :=
  match t.linesCache.get o.offset with
  | (some lines, linesCache) => (some lines, linesCache)
  | (none, linesCache) =>
      (linesCache.upsert o.offset (fillCacheForOrigin (content readFile o.origin))).get o.offset

/-- `operator []`. -/
def index (t : PosTable SourcePath) (p : PosIdx) :
    Except Error (Pos SourcePath) × PosTable SourcePath :=
  match t.resolve p with
  | none => (.ok {}, t)
  | some o =>
      let (lines, linesCache) := t.linesForInput readFile o
      let t := { t with linesCache }
      match lines with
      | none => (.error (.assertion "linesForInput"), t)
      | some lines => (.ok (posIn o lines (o.offsetOf p)), t)

end PosTable

/-- A call of `addOrigin`. The size is that of a buffer that holds the source. -/
structure Call (readFile : SourcePath → Option Bytes) where
  origin : Origin SourcePath
  size : UInt64
  length_le : (PosTable.content readFile origin).length ≤ size.toNat

inductive Operation (readFile : SourcePath → Option Bytes)
  | addOrigin (call : Call readFile)
  | index (p : PosIdx)

/-- The table with the origins that were returned. -/
structure Run (SourcePath : Type) where
  table : PosTable SourcePath
  returned : List (TableOrigin SourcePath) := []

variable {readFile : SourcePath → Option Bytes}

def Run.step (r : Run SourcePath) : Operation readFile → Run SourcePath
  | .addOrigin call =>
      let (table, o) := r.table.addOrigin call.origin call.size
      ⟨table, r.returned ++ [o]⟩
  | .index p => { r with table := (r.table.index readFile p).2 }

def run (linesCacheCapacity : Nat) (ops : List (Operation readFile)) : Run SourcePath :=
  ops.foldl Run.step ⟨.new linesCacheCapacity, []⟩

def calls (ops : List (Operation readFile)) : List (Call readFile) :=
  ops.filterMap fun
    | .addOrigin call => some call
    | .index _ => none

def lineAt (content : Bytes) (offset : Nat) : Nat :=
  1 + ((lineStarts content).tail.filter (· ≤ offset)).length

def columnAt (content : Bytes) (offset : Nat) : Nat :=
  1 + (offset - ((lineStarts content).filter (· ≤ offset)).getLast?.getD 0)

/-- A position of the origin is found to be that. -/
structure MapsBack (readFile : SourcePath → Option Bytes) (t : PosTable SourcePath)
    (o : TableOrigin SourcePath) (offset : UInt64) : Prop where
  resolve : t.resolve (o.add offset) = some o
  index : ∃ pos, (t.index readFile (o.add offset)).1 = .ok pos ∧ pos.origin = o.origin ∧
    pos.line.toNat = lineAt (PosTable.content readFile o.origin) offset.toNat ∧
    pos.column.toNat = columnAt (PosTable.content readFile o.origin) offset.toNat

/-- All positions of all origins are found, and are different. -/
def Faithful (readFile : SourcePath → Option Bytes) (r : Run SourcePath) : Prop :=
  (∀ o ∈ r.returned, ∀ offset ≤ o.size, MapsBack readFile r.table o offset) ∧
  ∀ o ∈ r.returned, ∀ o' ∈ r.returned, ∀ offset ≤ o.size, ∀ offset' ≤ o'.size,
    o.add offset = o'.add offset' → o = o' ∧ offset = offset'

/-!
Which positions of a table of positions are found again.
-/

section SortedLists

variable {α : Type} {r : α → α → Prop} {l : List α}

theorem takeWhile_eq_filter {p : α → Bool} (h : l.Pairwise r)
    (hp : ∀ a b, r a b → p b = true → p a = true) : l.takeWhile p = l.filter p := by
  induction h with
  | nil => rfl
  | @cons a l hal _ ih =>
    cases hpa : p a with
    | true => rw [List.takeWhile_cons_of_pos hpa, List.filter_cons_of_pos hpa, ih]
    | false =>
      have hnone : l.filter p = [] := List.filter_eq_nil_iff.mpr fun b hb hpb => by
        rw [hp a b (hal b hb) hpb] at hpa
        cases hpa
      rw [List.takeWhile_cons_of_neg (by simp [hpa]), List.filter_cons_of_neg (by simp [hpa]), hnone]

theorem mem_of_getLast?_sorted (h : l.Pairwise r) {a : α} (ha : l.getLast? = some a) :
    a ∈ l ∧ ∀ b ∈ l, b = a ∨ r b a := by
  obtain ⟨init, rfl⟩ := List.getLast?_eq_some_iff.mp ha
  refine ⟨List.mem_append_right _ List.mem_cons_self, fun b hb => ?_⟩
  rcases List.mem_append.mp hb with hb | hb
  · exact .inr ((List.pairwise_append.mp h).2.2 b hb a List.mem_cons_self)
  · exact .inl (List.mem_singleton.mp hb)

end SortedLists

theorem sorted_lineStarts (content : Bytes) : (lineStarts content).Pairwise (· < ·) :=
  .cons (fun _ hi => (mem_lineStartsFrom hi).1) (sorted_lineStartsFrom 0 content)

theorem le_of_mem_lineStarts {content : Bytes} {i : Nat} (h : i ∈ lineStarts content) :
    i ≤ content.length := by
  rcases List.mem_cons.mp h with rfl | h
  · exact Nat.zero_le _
  · simpa using (mem_lineStartsFrom h).2

def startsUpTo (content : Bytes) (offset : Nat) : List Nat :=
  (lineStarts content).filter (· ≤ offset)

theorem startsUpTo_eq (content : Bytes) (offset : Nat) :
    startsUpTo content offset = 0 :: (lineStarts content).tail.filter (· ≤ offset) := by
  rw [startsUpTo, lineStarts, List.filter_cons_of_pos (by simp)]
  rfl

theorem length_startsUpTo_le (content : Bytes) (offset : Nat) :
    (startsUpTo content offset).length ≤ offset + 1 := by
  have hnodup : (startsUpTo content offset).Nodup :=
    ((sorted_lineStarts content).imp fun h => Nat.ne_of_lt h).filter _
  have hsubset : startsUpTo content offset ⊆ List.range (offset + 1) := fun i hi => by
    have hle : i ≤ offset := by simpa using (List.mem_filter.mp hi).2
    exact List.mem_range.mpr (Nat.lt_succ_of_le hle)
  simpa using (List.subperm_of_subset hnodup hsubset).length_le

theorem takeWhile_fillCacheForOrigin {content : Bytes} (hcontent : content.length < 2 ^ 32)
    (offset : UInt32) :
    (fillCacheForOrigin content).takeWhile (· ≤ offset) =
      (startsUpTo content offset.toNat).map .ofNat := by
  have hle : ∀ i < 2 ^ 32, UInt32.ofNat i ≤ offset ↔ i ≤ offset.toNat := by
    intro i hi
    rw [UInt32.le_iff_toNat_le, UInt32.toNat_ofNat', Nat.mod_eq_of_lt hi]
  have hfits : ∀ i ∈ lineStarts content, i < 2 ^ 32 := fun i hi =>
    (le_of_mem_lineStarts hi).trans_lt hcontent
  have hsorted : (lineStarts content).Pairwise fun i j => i < j ∧ j < 2 ^ 32 :=
    (sorted_lineStarts content).imp_of_mem fun _ hj hij => ⟨hij, hfits _ hj⟩
  rw [fillCacheForOrigin_eq, List.takeWhile_map, takeWhile_eq_filter hsorted]
  · refine congrArg _ (List.filter_congr fun i hi => ?_)
    exact decide_eq_decide.mpr (hle i (hfits i hi))
  · rintro i j ⟨hij, hj⟩ hle'
    have hj' := (hle j hj).mp (of_decide_eq_true hle')
    exact decide_eq_true ((hle i (hij.trans hj)).mpr (hij.le.trans hj'))

theorem posIn_fillCacheForOrigin {content : Bytes} (hcontent : content.length < 2 ^ 32)
    {offset : UInt32} (hoffset : offset.toNat + 1 < 2 ^ 32) (o : TableOrigin SourcePath) :
    (PosTable.posIn o (fillCacheForOrigin content) offset).line.toNat =
        lineAt content offset.toNat ∧
      (PosTable.posIn o (fillCacheForOrigin content) offset).column.toNat =
        columnAt content offset.toNat := by
  have hupper : PosTable.upperBound (fillCacheForOrigin content) offset =
      ((lineStarts content).tail.filter (· ≤ offset.toNat)).length + 1 := by
    rw [PosTable.upperBound, takeWhile_fillCacheForOrigin hcontent, List.length_map, startsUpTo_eq,
      List.length_cons]
  have hcount := length_startsUpTo_le content offset.toNat
  rw [startsUpTo_eq, List.length_cons] at hcount
  obtain ⟨start, hstart⟩ : ∃ start, (startsUpTo content offset.toNat).getLast? = some start := by
    rw [startsUpTo_eq]
    exact ⟨_, List.getLast?_eq_some_getLast (List.cons_ne_nil _ _)⟩
  have hstartLe : start ≤ offset.toNat := by
    simpa using (List.mem_filter.mp (List.mem_of_getLast? hstart)).2
  have hline : (fillCacheForOrigin content).getD
      (PosTable.upperBound (fillCacheForOrigin content) offset - 1) 0 = .ofNat start := by
    have hget : ((fillCacheForOrigin content).takeWhile (· ≤ offset))[PosTable.upperBound
        (fillCacheForOrigin content) offset - 1]? = some (.ofNat start) := by
      rw [PosTable.upperBound, ← List.getLast?_eq_getElem?, takeWhile_fillCacheForOrigin hcontent,
        List.getLast?_map, hstart]
      rfl
    obtain ⟨hlt, hstart⟩ := List.getElem?_eq_some_iff.mp hget
    have hprefix : (fillCacheForOrigin content).takeWhile (· ≤ offset) <+: _ :=
      List.takeWhile_prefix _
    rw [List.getD_eq_getElem?_getD, List.getElem?_eq_getElem (hlt.trans_le hprefix.length_le),
      ← hprefix.getElem hlt, hstart]
    rfl
  have hone : (1 : UInt32).toNat = 1 := rfl
  constructor
  · rw [PosTable.posIn, hupper, Nat.add_sub_cancel, UInt32.toNat_add, UInt32.toNat_ofNat', hone,
      Nat.mod_eq_of_lt (show _ < 2 ^ 32 by omega), Nat.mod_eq_of_lt (by omega), lineAt]
  · rw [PosTable.posIn]
    simp only [hline]
    rw [UInt32.toNat_add, hone, UInt32.toNat_sub, UInt32.toNat_ofNat',
      Nat.mod_eq_of_lt (show start < 2 ^ 32 by omega), columnAt, ← startsUpTo, hstart,
      Option.getD_some]
    omega

section Origins

variable {origins : Origins SourcePath}

theorem sorted_origins (origins : Origins SourcePath) :
    origins.elems.Pairwise fun e e' => e.1 < e'.1 :=
  origins.sorted.imp Std.compare_eq_lt.mp

theorem resolve_eq_some {t : PosTable SourcePath} {p : PosIdx} {o : TableOrigin SourcePath} :
    t.resolve p = some o ↔ p.id ≠ 0 ∧ ∃ k, t.origins.find? k = some o ∧ k ≤ p.id - 1 ∧
      ∀ k' o', t.origins.find? k' = some o' → k' ≤ p.id - 1 → k' ≤ k := by
  unfold PosTable.resolve
  split
  next h => exact iff_of_false nofun fun hne => hne.1 h
  next h =>
    have hfilter : t.origins.elems.takeWhile (·.1 ≤ p.id - 1) =
        t.origins.elems.filter (·.1 ≤ p.id - 1) :=
      takeWhile_eq_filter (sorted_origins t.origins) fun e e' hlt hle =>
        decide_eq_true (UInt32.le_trans (UInt32.le_of_lt hlt) (of_decide_eq_true hle))
    rw [hfilter, Option.map_eq_some_iff]
    have hsorted := (sorted_origins t.origins).filter fun e => decide (e.1 ≤ p.id - 1)
    have hmem : ∀ {k o}, t.origins.find? k = some o → k ≤ p.id - 1 →
        (k, o) ∈ t.origins.elems.filter (·.1 ≤ p.id - 1) := fun hk hle =>
      List.mem_filter.mpr ⟨SortedMap.find?_eq_some.mp hk, decide_eq_true hle⟩
    constructor
    · rintro ⟨⟨k, o'⟩, hlast, rfl⟩
      obtain ⟨hin, hmax⟩ := mem_of_getLast?_sorted hsorted hlast
      obtain ⟨hin, hle⟩ := List.mem_filter.mp hin
      refine ⟨h, k, SortedMap.find?_eq_some.mpr hin, of_decide_eq_true hle, fun k' o'' hk' hle' => ?_⟩
      rcases hmax _ (hmem hk' hle') with heq | hlt
      · obtain rfl : k' = k := congrArg Prod.fst heq
        exact UInt32.le_refl _
      · exact UInt32.le_of_lt hlt
    · rintro ⟨-, k, hk, hle, hmax⟩
      obtain ⟨⟨k', o'⟩, hlast⟩ : ∃ e, (t.origins.elems.filter (·.1 ≤ p.id - 1)).getLast? = some e :=
        ⟨_, List.getLast?_eq_some_getLast (List.ne_nil_of_mem (hmem hk hle))⟩
      obtain ⟨hin', hmax'⟩ := mem_of_getLast?_sorted hsorted hlast
      obtain ⟨hin', hle'⟩ := List.mem_filter.mp hin'
      have hk' := SortedMap.find?_eq_some.mpr hin'
      have heq : k' = k := by
        refine UInt32.le_antisymm (hmax k' o' hk' (of_decide_eq_true hle')) ?_
        rcases hmax' _ (hmem hk hle) with heq | hlt
        · obtain rfl : k = k' := congrArg Prod.fst heq
          exact UInt32.le_refl _
        · exact UInt32.le_of_lt hlt
      subst heq
      exact ⟨_, hlast, Option.some.inj (hk'.symm.trans hk)⟩

end Origins

/-- The lines in the cache are those of the origins. -/
structure Cached (readFile : SourcePath → Option Bytes) (t : PosTable SourcePath) : Prop where
  keyed : ∀ k o, t.origins.find? k = some o → o.offset = k
  inert : t.linesCache.Inert
  lines : ∀ k lines, t.linesCache.value? k = some lines → ∃ o, t.origins.find? k = some o ∧
    lines = fillCacheForOrigin (PosTable.content readFile o.origin)

theorem value?_upsert_self {κ ν : Type} [DecidableEq κ] {c : LRUCache κ ν} (hcap : c.capacity ≠ 0)
    (key : κ) (value : ν) : (c.upsert key value).value? key = some value := by
  rw [LRUCache.upsert, if_neg hcap, LRUCache.value?_eq]
  simp [Nix.Lib.Table.select]

section Cache

variable {readFile : SourcePath → Option Bytes} {t : PosTable SourcePath}

theorem linesForInput_eq (ht : Cached readFile t) {o : TableOrigin SourcePath}
    (ho : t.origins.find? o.offset = some o) :
    ((t.linesForInput readFile o).1 = if t.linesCache.capacity = 0 then none
        else some (fillCacheForOrigin (PosTable.content readFile o.origin))) ∧
      Cached readFile { t with linesCache := (t.linesForInput readFile o).2 } ∧
      (t.linesForInput readFile o).2.capacity = t.linesCache.capacity := by
  have hget : t.linesCache.get o.offset =
      (t.linesCache.value? o.offset, (t.linesCache.get o.offset).2) :=
    Prod.ext (LRUCache.get_fst _ _) rfl
  have hinert := LRUCache.Inert.get ht.inert o.offset
  rw [PosTable.linesForInput, hget]
  cases hvalue : t.linesCache.value? o.offset with
  | some lines =>
    obtain ⟨o', ho', rfl⟩ := ht.lines _ _ hvalue
    cases ho.symm.trans ho'
    have hcap : t.linesCache.capacity ≠ 0 := fun hcap => by
      rw [ht.inert.value? hcap] at hvalue
      cases hvalue
    refine ⟨(if_neg hcap).symm, ⟨ht.keyed, hinert, fun k lines h => ?_⟩, LRUCache.get_snd_capacity _ _⟩
    exact ht.lines k lines ((LRUCache.value?_get _ _ _).symm.trans h)
  | none =>
    dsimp only
    rw [LRUCache.get_fst, LRUCache.get_snd_capacity, LRUCache.upsert_capacity,
      LRUCache.get_snd_capacity]
    refine ⟨?_, ⟨ht.keyed, (hinert.upsert _ _).get _, fun k lines h => ?_⟩, rfl⟩
    · split
      next hcap =>
        refine (hinert.upsert _ _).value? ?_ _
        rw [LRUCache.upsert_capacity, LRUCache.get_snd_capacity, hcap]
      next hcap => exact value?_upsert_self (by rwa [LRUCache.get_snd_capacity]) _ _
    · rw [LRUCache.value?_get] at h
      rcases LRUCache.value?_upsert hinert h with ⟨rfl, rfl⟩ | ⟨-, h⟩
      · exact ⟨o, ho, rfl⟩
      · exact ht.lines k lines ((LRUCache.value?_get _ _ _).symm.trans h)

theorem find?_of_resolve (ht : Cached readFile t) {p : PosIdx} {o : TableOrigin SourcePath}
    (h : t.resolve p = some o) : t.origins.find? o.offset = some o := by
  obtain ⟨-, k, hk, -⟩ := resolve_eq_some.mp h
  rw [ht.keyed k o hk]
  exact hk

theorem index_eq (ht : Cached readFile t) (hcap : t.linesCache.capacity ≠ 0) {p : PosIdx}
    {o : TableOrigin SourcePath} (h : t.resolve p = some o) :
    (t.index readFile p).1 = .ok (PosTable.posIn o
      (fillCacheForOrigin (PosTable.content readFile o.origin)) (o.offsetOf p)) := by
  have hlines := (linesForInput_eq ht (find?_of_resolve ht h)).1
  rw [if_neg hcap] at hlines
  rw [PosTable.index, h]
  dsimp only
  rw [hlines]

theorem index_eq_error (ht : Cached readFile t) (hcap : t.linesCache.capacity = 0) {p : PosIdx}
    {o : TableOrigin SourcePath} (h : t.resolve p = some o) :
    (t.index readFile p).1 = .error (.assertion "linesForInput") := by
  have hlines := (linesForInput_eq ht (find?_of_resolve ht h)).1
  rw [if_pos hcap] at hlines
  rw [PosTable.index, h]
  dsimp only
  rw [hlines]

theorem index_snd (ht : Cached readFile t) (p : PosIdx) :
    (t.index readFile p).2.origins = t.origins ∧ Cached readFile (t.index readFile p).2 ∧
      (t.index readFile p).2.linesCache.capacity = t.linesCache.capacity := by
  rw [PosTable.index]
  cases h : t.resolve p with
  | none => exact ⟨rfl, ht, rfl⟩
  | some o =>
    obtain ⟨-, hcached, hcapacity⟩ := linesForInput_eq ht (find?_of_resolve ht h)
    dsimp only
    split
    next => exact ⟨rfl, hcached, hcapacity⟩
    next => exact ⟨rfl, hcached, hcapacity⟩

theorem mapsBack_iff (ht : Cached readFile t) (hcap : t.linesCache.capacity ≠ 0)
    {o : TableOrigin SourcePath} {offset : UInt64}
    (hcontent : (PosTable.content readFile o.origin).length < 2 ^ 32)
    (hoffset : offset.toNat + 1 < 2 ^ 32)
    (hoffsetOf : (o.offsetOf (o.add offset)).toNat = offset.toNat) :
    MapsBack readFile t o offset ↔ t.resolve (o.add offset) = some o := by
  refine ⟨MapsBack.resolve, fun h => ⟨h, _, index_eq ht hcap h, rfl, ?_⟩⟩
  rw [← hoffsetOf] at hoffset ⊢
  exact posIn_fillCacheForOrigin hcontent hoffset o

end Cache

end Nix.Util.PosTables
