import Mathlib.Algebra.BigOperators.Group.List.Basic
import Mathlib.Data.List.Induction
import Nix.Util.PosTables

/-!
How the origins of a table of positions are laid out, and when their positions are kept apart.
-/

set_option linter.dupNamespace false

namespace Nix.Util.PosTables

open Util.Types Util.LruCaches Util.SourcePositions Lib.SortedList

variable {SourcePath : Type} {readFile : SourcePath → Option Bytes}

/-- The origins with those that were returned. -/
structure Layout (SourcePath : Type) where
  origins : Origins SourcePath := .empty
  returned : List (TableOrigin SourcePath) := []

def Layout.add (l : Layout SourcePath) (c : Call readFile) : Layout SourcePath where
  origins := (Origins.addOrigin l.origins c.origin c.size).1
  returned := l.returned ++ [(Origins.addOrigin l.origins c.origin c.size).2]

def layout (cs : List (Call readFile)) : Layout SourcePath :=
  cs.foldl .add {}

theorem layout_append (cs : List (Call readFile)) (c : Call readFile) :
    layout (cs ++ [c]) = (layout cs).add c := by
  rw [layout, List.foldl_append]
  rfl

/-- What `emplace` does with the origin behind the last one. -/
theorem addOrigin_cases (origins : Origins SourcePath) (origin : Origin SourcePath) (size : UInt64) :
    (Origins.addOrigin origins origin size = (origins, ⟨Origins.nextOffset origins, origin, 0⟩) ∧
        (2 + Origins.nextOffset origins).toUInt64 + size <
          (Origins.nextOffset origins).toUInt64) ∨
      (∃ o, origins.find? (Origins.nextOffset origins) = some o ∧
        Origins.addOrigin origins origin size = (origins, o)) ∨
      (origins.find? (Origins.nextOffset origins) = none ∧
        Origins.addOrigin origins origin size =
          (origins.assign (Origins.nextOffset origins) ⟨Origins.nextOffset origins, origin, size⟩,
            ⟨Origins.nextOffset origins, origin, size⟩)) := by
  unfold Origins.addOrigin
  dsimp only
  split
  next h => exact .inl ⟨rfl, h⟩
  next =>
    split
    next o ho => exact .inr (.inl ⟨o, ho, rfl⟩)
    next hnone => exact .inr (.inr ⟨hnone, rfl⟩)

theorem find?_addOrigin {origins : Origins SourcePath} {k : UInt32} {o : TableOrigin SourcePath}
    (h : origins.find? k = some o) (origin : Origin SourcePath) (size : UInt64) :
    (Origins.addOrigin origins origin size).1.find? k = some o := by
  rcases addOrigin_cases origins origin size with ⟨heq, -⟩ | ⟨_, -, heq⟩ | ⟨hnone, heq⟩
  · rw [heq]
    exact h
  · rw [heq]
    exact h
  · rw [heq, SortedMap.find?_assign_of_ne]
    · exact h
    · rintro rfl
      rw [hnone] at h
      cases h

theorem run_append (linesCacheCapacity : Nat) (ops : List (Operation readFile))
    (op : Operation readFile) :
    run linesCacheCapacity (ops ++ [op]) = (run linesCacheCapacity ops).step op := by
  rw [run, List.foldl_append]
  rfl

theorem cached_addOrigin {t : PosTable SourcePath} (ht : Cached readFile t)
    (origin : Origin SourcePath) (size : UInt64) : Cached readFile (t.addOrigin origin size).1 where
  keyed k o h := by
    change (Origins.addOrigin t.origins origin size).1.find? k = some o at h
    rcases addOrigin_cases t.origins origin size with ⟨heq, -⟩ | ⟨_, -, heq⟩ | ⟨-, heq⟩
    · rw [heq] at h
      exact ht.keyed k o h
    · rw [heq] at h
      exact ht.keyed k o h
    · rw [heq, SortedMap.find?_assign] at h
      split at h
      next hk =>
        cases h
        exact hk
      next => exact ht.keyed k o h
  inert := ht.inert
  lines k lines h := by
    obtain ⟨o, ho, hlines⟩ := ht.lines k lines h
    exact ⟨o, find?_addOrigin ho origin size, hlines⟩

theorem run_spec (linesCacheCapacity : Nat) (ops : List (Operation readFile)) :
    Cached readFile (run linesCacheCapacity ops).table ∧
      (run linesCacheCapacity ops).table.linesCache.capacity = linesCacheCapacity ∧
      (run linesCacheCapacity ops).table.origins = (layout (calls ops)).origins ∧
      (run linesCacheCapacity ops).returned = (layout (calls ops)).returned := by
  induction ops using List.reverseRecOn with
  | nil =>
    refine ⟨⟨nofun, fun _ => rfl, fun k lines h => ?_⟩, rfl, rfl, rfl⟩
    cases h
  | append_singleton ops op ih =>
    obtain ⟨hcached, hcap, horigins, hreturned⟩ := ih
    rw [run_append]
    cases op with
    | addOrigin c =>
      have hcalls : calls (ops ++ [.addOrigin c]) = calls ops ++ [c] := List.filterMap_append
      rw [hcalls, layout_append]
      refine ⟨cached_addOrigin hcached c.origin c.size, hcap, ?_, ?_⟩
      · exact congrArg (fun o => (Origins.addOrigin o c.origin c.size).1) horigins
      · exact congrArg₂ (fun o r => r ++ [(Origins.addOrigin o c.origin c.size).2]) horigins hreturned
    | index p =>
      have hcalls : calls (ops ++ [.index p]) = calls ops :=
        List.filterMap_append.trans (List.append_nil _)
      obtain ⟨horigins', hcached', hcap'⟩ := index_snd hcached p
      rw [hcalls]
      exact ⟨hcached', hcap'.trans hcap, horigins'.trans horigins, hreturned⟩

def first (c : Call readFile) : TableOrigin SourcePath :=
  ⟨0, c.origin, c.size⟩

theorem addOrigin_empty (c : Call readFile) :
    Origins.addOrigin .empty c.origin c.size = (SortedMap.assign .empty 0 (first c), first c) := by
  rcases addOrigin_cases .empty c.origin c.size with ⟨-, hlt⟩ | ⟨_, hfind, -⟩ | ⟨-, heq⟩
  · exact absurd (UInt64.lt_iff_toNat_lt.mp hlt) (Nat.not_lt_zero _)
  · cases hfind
  · exact heq

theorem find?_first (c : Call readFile) (cs : List (Call readFile)) :
    (layout (c :: cs)).origins.find? 0 = some (first c) ∧ first c ∈ (layout (c :: cs)).returned := by
  induction cs using List.reverseRecOn with
  | nil =>
    have hadd := addOrigin_empty c
    refine ⟨?_, ?_⟩
    · exact (congrArg (fun r => r.1.find? 0) hadd).trans (SortedMap.find?_assign_self _ _ _)
    · exact List.mem_singleton.mpr (congrArg Prod.snd hadd).symm
  | append_singleton cs c' ih =>
    rw [← List.cons_append, layout_append]
    exact ⟨find?_addOrigin ih.1 _ _, List.mem_append_left _ ih.2⟩

theorem nextOffset_first (c : Call readFile) :
    Origins.nextOffset (SortedMap.assign .empty 0 (first c)) = c.size.toUInt32 := by
  change ((0 : UInt32).toUInt64 + c.size).toUInt32 = c.size.toUInt32
  rw [show (0 : UInt32).toUInt64 = 0 from rfl, UInt64.zero_add]

theorem origins_singleton (c : Call readFile) :
    layout [c] = ⟨SortedMap.assign .empty 0 (first c), [first c]⟩ := by
  have hadd := addOrigin_empty c
  have hlayout : layout [c] = ({} : Layout SourcePath).add c := rfl
  rw [hlayout, Layout.add, hadd]
  rfl

theorem layout_of_size_eq_zero {c : Call readFile} (hsize : c.size = 0)
    (cs : List (Call readFile)) :
    (layout (c :: cs)).origins = SortedMap.assign .empty 0 (first c) ∧
      ∀ o ∈ (layout (c :: cs)).returned, o = first c := by
  induction cs using List.reverseRecOn with
  | nil =>
    rw [origins_singleton]
    exact ⟨rfl, fun o ho => List.mem_singleton.mp ho⟩
  | append_singleton cs c' ih =>
    obtain ⟨horigins, hreturned⟩ := ih
    have hnext : Origins.nextOffset (SortedMap.assign .empty 0 (first c)) = 0 := by
      rw [nextOffset_first, hsize]
      rfl
    have hadd : Origins.addOrigin (SortedMap.assign .empty 0 (first c)) c'.origin c'.size =
        (SortedMap.assign .empty 0 (first c), first c) := by
      rcases addOrigin_cases (SortedMap.assign .empty 0 (first c)) c'.origin c'.size with
        ⟨-, hlt⟩ | ⟨o, hfind, heq⟩ | ⟨hnone, -⟩
      · rw [hnext] at hlt
        exact absurd (UInt64.lt_iff_toNat_lt.mp hlt) (Nat.not_lt_zero _)
      · rw [hnext, SortedMap.find?_assign_self] at hfind
        cases hfind
        exact heq
      · rw [hnext, SortedMap.find?_assign_self] at hnone
        cases hnone
    rw [← List.cons_append, layout_append, Layout.add, horigins, hadd]
    refine ⟨rfl, fun o ho => ?_⟩
    rcases List.mem_append.mp ho with ho | ho
    · exact hreturned o ho
    · exact List.mem_singleton.mp ho

theorem exists_second {c : Call readFile} (hsize : c.size.toUInt32 ≠ 0) (c' : Call readFile)
    (cs : List (Call readFile)) :
    ∃ o ∈ (layout (c :: c' :: cs)).returned, o.offset = c.size.toUInt32 := by
  induction cs using List.reverseRecOn with
  | nil =>
    have hlayout : layout [c, c'] = (layout [c]).add c' := rfl
    rw [hlayout, origins_singleton]
    refine ⟨_, List.mem_append_right _ List.mem_cons_self, ?_⟩
    rcases addOrigin_cases (SortedMap.assign .empty 0 (first c)) c'.origin c'.size with
      ⟨heq, -⟩ | ⟨o, hfind, -⟩ | ⟨-, heq⟩
    · rw [heq]
      exact nextOffset_first c
    · rw [nextOffset_first, SortedMap.find?_assign_of_ne (Ne.symm hsize)] at hfind
      cases hfind
    · rw [heq]
      exact nextOffset_first c
  | append_singleton cs c'' ih =>
    obtain ⟨o, ho, hoffset⟩ := ih
    rw [← List.cons_append, ← List.cons_append, layout_append]
    exact ⟨o, List.mem_append_left _ ho, hoffset⟩

def totalSize (cs : List (Call readFile)) : Nat :=
  (cs.map fun c => c.size.toNat).sum

/-- The origins are laid out one behind the other. -/
structure Laid (readFile : SourcePath → Option Bytes) (l : Layout SourcePath) (total : Nat) :
    Prop where
  keyed : ∀ k o, l.origins.find? k = some o → o.offset = k
  fits : ∀ k o, l.origins.find? k = some o → k.toNat + o.size.toNat ≤ total
  source : ∀ k o, l.origins.find? k = some o →
    (PosTable.content readFile o.origin).length ≤ o.size.toNat
  apart : ∀ k o k' o', l.origins.find? k = some o → l.origins.find? k' = some o' →
    k.toNat < k'.toNat → k.toNat + o.size.toNat ≤ k'.toNat
  next : ∀ k o k' o', l.origins.find? k = some o → l.origins.find? k' = some o' →
    k.toNat < k'.toNat → ∃ k'' o'', l.origins.find? k'' = some o'' ∧
      k''.toNat = k.toNat + o.size.toNat ∧ k.toNat < k''.toNat
  returned : ∀ o, o ∈ l.returned ↔ l.origins.find? o.offset = some o

theorem nextOffset_spec {l : Layout SourcePath} {total : Nat} (hl : Laid readFile l total)
    (htotal : total < 2 ^ 32) :
    (Origins.nextOffset l.origins).toNat ≤ total ∧
      ∀ k o, l.origins.find? k = some o →
        k.toNat + o.size.toNat = (Origins.nextOffset l.origins).toNat ∨
        k.toNat + o.size.toNat ≤ (Origins.nextOffset l.origins).toNat ∧
          ∃ k' o', l.origins.find? k' = some o' ∧ k.toNat < k'.toNat := by
  unfold Origins.nextOffset
  split
  next hnone =>
    refine ⟨Nat.zero_le _, fun k o ho => ?_⟩
    have hmem := SortedMap.find?_eq_some.mp ho
    rw [List.getLast?_eq_none_iff.mp hnone] at hmem
    exact absurd hmem List.not_mem_nil
  next last o hlast =>
    obtain ⟨hmem, hmax⟩ := mem_of_getLast?_sorted (sorted_origins l.origins) hlast
    have ho := SortedMap.find?_eq_some.mpr hmem
    have hfits := hl.fits last o ho
    have hnat : (last.toUInt64 + o.size).toUInt32.toNat = last.toNat + o.size.toNat := by
      rw [UInt64.toNat_toUInt32, UInt64.toNat_add, UInt32.toNat_toUInt64,
        Nat.mod_eq_of_lt (show last.toNat + o.size.toNat < 2 ^ 64 by omega),
        Nat.mod_eq_of_lt (by omega)]
    rw [hnat]
    refine ⟨hfits, fun k o' ho' => ?_⟩
    rcases hmax _ (SortedMap.find?_eq_some.mp ho') with heq | hlt
    · cases heq
      exact .inl rfl
    · have hlt' : k.toNat < last.toNat := UInt32.lt_iff_toNat_lt.mp hlt
      have hapart := hl.apart k o' last o ho' ho hlt'
      exact .inr ⟨by omega, last, o, ho, hlt'⟩

theorem Laid.mono {l : Layout SourcePath} {total total' : Nat} (hl : Laid readFile l total)
    (h : total ≤ total') : Laid readFile l total' :=
  { hl with fits := fun k o ho => (hl.fits k o ho).trans h }

theorem Laid.assign {l : Layout SourcePath} {total : Nat} (hl : Laid readFile l total)
    (c : Call readFile) (htotal : total < 2 ^ 32)
    (hnone : l.origins.find? (Origins.nextOffset l.origins) = none) :
    Laid readFile
      ⟨l.origins.assign (Origins.nextOffset l.origins)
          ⟨Origins.nextOffset l.origins, c.origin, c.size⟩,
        l.returned ++ [⟨Origins.nextOffset l.origins, c.origin, c.size⟩]⟩
      (total + c.size.toNat) := by
  obtain ⟨hle, hlast⟩ := nextOffset_spec hl htotal
  generalize Origins.nextOffset l.origins = offset at hle hlast hnone
  have hbefore : ∀ k o, l.origins.find? k = some o →
      k.toNat < offset.toNat ∧ k.toNat + o.size.toNat ≤ offset.toNat := by
    intro k o ho
    have hle : k.toNat + o.size.toNat ≤ offset.toNat :=
      (hlast k o ho).elim Nat.le_of_eq And.left
    refine ⟨Nat.lt_of_le_of_ne (by omega) fun heq => ?_, hle⟩
    rw [UInt32.toNat_inj.mp heq, hnone] at ho
    cases ho
  have hfind : ∀ k o, (l.origins.assign offset ⟨offset, c.origin, c.size⟩).find? k = some o →
      k = offset ∧ o = ⟨offset, c.origin, c.size⟩ ∨ l.origins.find? k = some o := by
    intro k o ho
    rw [SortedMap.find?_assign] at ho
    split at ho
    next heq => exact .inl ⟨heq.symm, (Option.some.inj ho).symm⟩
    next => exact .inr ho
  have hold : ∀ k o, l.origins.find? k = some o →
      (l.origins.assign offset ⟨offset, c.origin, c.size⟩).find? k = some o := by
    intro k o ho
    rw [SortedMap.find?_assign_of_ne, ho]
    rintro rfl
    rw [hnone] at ho
    cases ho
  constructor
  case keyed =>
    intro k o ho
    rcases hfind k o ho with ⟨rfl, rfl⟩ | ho
    · rfl
    · exact hl.keyed k o ho
  case fits =>
    intro k o ho
    rcases hfind k o ho with ⟨rfl, rfl⟩ | ho
    · exact Nat.add_le_add_right hle _
    · exact (hl.fits k o ho).trans (Nat.le_add_right _ _)
  case source =>
    intro k o ho
    rcases hfind k o ho with ⟨rfl, rfl⟩ | ho
    · exact c.length_le
    · exact hl.source k o ho
  case apart =>
    intro k o k' o' ho ho' hlt
    rcases hfind k o ho with ⟨rfl, rfl⟩ | hin
    · rcases hfind k' o' ho' with ⟨rfl, -⟩ | hin'
      · exact absurd hlt (Nat.lt_irrefl _)
      · exact absurd (hlt.trans (hbefore k' o' hin').1) (Nat.lt_irrefl _)
    · rcases hfind k' o' ho' with ⟨rfl, -⟩ | hin'
      · exact (hbefore k o hin).2
      · exact hl.apart k o k' o' hin hin' hlt
  case next =>
    intro k o k' o' ho ho' hlt
    rcases hfind k o ho with ⟨rfl, rfl⟩ | hin
    · rcases hfind k' o' ho' with ⟨rfl, -⟩ | hin'
      · exact absurd hlt (Nat.lt_irrefl _)
      · exact absurd (hlt.trans (hbefore k' o' hin').1) (Nat.lt_irrefl _)
    · rcases hlast k o hin with heq | ⟨-, k'', o'', ho'', hlt''⟩
      · exact ⟨offset, _, SortedMap.find?_assign_self _ _ _, heq.symm, (hbefore k o hin).1⟩
      · obtain ⟨k₁, o₁, ho₁, heq, hlt₁⟩ := hl.next k o k'' o'' hin ho'' hlt''
        exact ⟨k₁, o₁, hold k₁ o₁ ho₁, heq, hlt₁⟩
  case returned =>
    intro o
    rw [List.mem_append, List.mem_singleton, hl.returned]
    constructor
    · rintro (ho | rfl)
      · exact hold _ _ ho
      · exact SortedMap.find?_assign_self _ _ _
    · intro ho
      rcases hfind _ _ ho with ⟨-, rfl⟩ | ho
      · exact .inr rfl
      · exact .inl ho

theorem Laid.add {l : Layout SourcePath} {total : Nat} (hl : Laid readFile l total)
    (c : Call readFile) (htotal : total + c.size.toNat + 2 < 2 ^ 32) :
    Laid readFile (l.add c) (total + c.size.toNat) := by
  have hle := (nextOffset_spec hl (by omega)).1
  rw [Layout.add]
  rcases addOrigin_cases l.origins c.origin c.size with ⟨-, hlt⟩ | ⟨o, hfind, heq⟩ | ⟨hnone, heq⟩
  · have htwo : (2 : UInt32).toNat = 2 := rfl
    rw [UInt64.lt_iff_toNat_lt, UInt64.toNat_add, UInt32.toNat_toUInt64, UInt32.toNat_toUInt64,
      UInt32.toNat_add, htwo] at hlt
    omega
  · rw [heq]
    have hmono := hl.mono (Nat.le_add_right total c.size.toNat)
    refine { hmono with returned := fun o' => ?_ }
    rw [List.mem_append, List.mem_singleton, hl.returned]
    refine ⟨fun ho' => ho'.elim id ?_, .inl⟩
    rintro rfl
    rw [hl.keyed _ _ hfind, hfind]
  · rw [heq]
    exact hl.assign c (by omega) hnone

theorem laid_layout {cs : List (Call readFile)} (htotal : totalSize cs + 2 < 2 ^ 32) :
    Laid readFile (layout cs) (totalSize cs) := by
  induction cs using List.reverseRecOn with
  | nil => exact ⟨nofun, nofun, nofun, nofun, nofun, fun o => iff_of_false List.not_mem_nil nofun⟩
  | append_singleton cs c ih =>
    have hsum : totalSize (cs ++ [c]) = totalSize cs + c.size.toNat := by
      simp [totalSize]
    rw [hsum] at htotal
    rw [layout_append, hsum]
    exact (ih (by omega)).add c htotal

section Positions

variable {o : TableOrigin SourcePath} {offset : UInt64}

theorem eq_of_toNat_id {p p' : PosIdx} (h : p.id.toNat = p'.id.toNat) : p = p' :=
  congrArg PosIdx.mk (UInt32.toNat_inj.mp h)

theorem toNat_id_add (h : offset ≤ o.size) :
    (o.add offset).id.toNat = (o.offset.toNat + offset.toNat + 1) % 2 ^ 32 := by
  have hone : (1 : UInt32).toNat = 1 := rfl
  rw [TableOrigin.add, if_neg (UInt64.not_lt.mpr h), UInt64.toNat_toUInt32, UInt64.toNat_add,
    UInt32.toNat_toUInt64, UInt32.toNat_add, hone]
  omega

theorem id_add (h : offset ≤ o.size) (hfits : o.offset.toNat + offset.toNat + 1 < 2 ^ 32) :
    (o.add offset).id ≠ 0 ∧ ((o.add offset).id - 1).toNat = o.offset.toNat + offset.toNat ∧
      (o.offsetOf (o.add offset)).toNat = offset.toNat := by
  have hid := toNat_id_add h
  rw [Nat.mod_eq_of_lt hfits] at hid
  have hone : (1 : UInt32).toNat = 1 := rfl
  refine ⟨fun h0 => ?_, ?_, ?_⟩
  · rw [h0] at hid
    exact absurd hid (Nat.succ_ne_zero _).symm
  · rw [UInt32.toNat_sub, hone]
    omega
  · rw [TableOrigin.offsetOf, UInt32.toNat_sub, UInt32.toNat_sub, hone]
    omega

theorem resolve_add {t : PosTable SourcePath} (h : offset ≤ o.size)
    (hfits : o.offset.toNat + offset.toNat + 1 < 2 ^ 32)
    (hfind : t.origins.find? o.offset = some o)
    (hkeyed : ∀ k o', t.origins.find? k = some o' → o'.offset = k) :
    t.resolve (o.add offset) = some o ↔ ∀ k o', t.origins.find? k = some o' →
      k.toNat ≤ o.offset.toNat + offset.toNat → k.toNat ≤ o.offset.toNat := by
  obtain ⟨hid, hpos, -⟩ := id_add h hfits
  rw [resolve_eq_some]
  constructor
  · rintro ⟨-, k, hk, -, hmax⟩ k' o' hk' hle
    rw [hkeyed k o hk]
    refine UInt32.le_iff_toNat_le.mp (hmax k' o' hk' (UInt32.le_iff_toNat_le.mpr ?_))
    rw [hpos]
    exact hle
  · intro hmax
    refine ⟨hid, o.offset, hfind, UInt32.le_iff_toNat_le.mpr ?_, fun k' o' hk' hle => ?_⟩
    · rw [hpos]
      exact Nat.le_add_right _ _
    · rw [UInt32.le_iff_toNat_le, hpos] at hle
      exact UInt32.le_iff_toNat_le.mpr (hmax k' o' hk' hle)

end Positions

/-- The first call is the only one, or its origin is empty, so that it stands for the later ones. -/
def KeptApart (linesCacheCapacity : Nat) : List (Call readFile) → Prop
  | [] => True
  | c :: cs => linesCacheCapacity ≠ 0 ∧ (c.size = 0 ∨ cs = [] ∧ c.size.toNat + 1 < 2 ^ 32)

theorem faithful_of_keptApart {linesCacheCapacity : Nat} {ops : List (Operation readFile)}
    (h : KeptApart linesCacheCapacity (calls ops)) :
    Faithful readFile (run linesCacheCapacity ops) := by
  obtain ⟨hcached, hcap, horigins, hreturned⟩ := run_spec linesCacheCapacity ops
  rw [Faithful, hreturned]
  cases hcalls : calls ops with
  | nil => exact ⟨fun o ho => absurd ho List.not_mem_nil, fun o ho => absurd ho List.not_mem_nil⟩
  | cons c cs =>
    rw [hcalls] at h horigins
    obtain ⟨hpos, hsize⟩ := h
    have hone : (layout (c :: cs)).origins = SortedMap.assign .empty 0 (first c) ∧
        (∀ o ∈ (layout (c :: cs)).returned, o = first c) ∧ c.size.toNat + 1 < 2 ^ 32 := by
      rcases hsize with hzero | ⟨rfl, hlt⟩
      · obtain ⟨hsame, hall⟩ := layout_of_size_eq_zero hzero cs
        refine ⟨hsame, hall, ?_⟩
        rw [hzero]
        decide
      · rw [origins_singleton]
        exact ⟨rfl, fun o ho => List.mem_singleton.mp ho, hlt⟩
    obtain ⟨hsame, hall, hlt⟩ := hone
    have hfits : ∀ {offset : UInt64}, offset ≤ c.size →
        (first c).offset.toNat + offset.toNat + 1 < 2 ^ 32 := by
      intro offset hle
      have hnat := UInt64.le_iff_toNat_le.mp hle
      have hzero : (first c).offset.toNat = 0 := rfl
      omega
    rw [hsame] at horigins
    constructor
    · intro o ho offset hle
      obtain rfl := hall o ho
      have hoffset := hfits hle
      refine (mapsBack_iff hcached (by rwa [hcap]) (c.length_le.trans_lt (by omega)) (by omega)
        (id_add hle hoffset).2.2).mpr ?_
      rw [resolve_add hle hoffset _ hcached.keyed, horigins]
      · intro k o' hk _
        rw [SortedMap.find?_assign] at hk
        split at hk
        next heq =>
          rw [← heq]
          exact Nat.zero_le _
        next => cases hk
      · rw [horigins]
        exact SortedMap.find?_assign_self _ _ _
    · intro o ho o' ho' offset hle offset' hle' heq
      obtain rfl := hall o ho
      obtain rfl := hall o' ho'
      refine ⟨rfl, UInt64.toNat_inj.mp ?_⟩
      have hid : ((first c).add offset).id.toNat = ((first c).add offset').id.toNat := by
        rw [heq]
      rw [toNat_id_add hle, toNat_id_add hle', Nat.mod_eq_of_lt (hfits hle),
        Nat.mod_eq_of_lt (hfits hle')] at hid
      omega

theorem keptApart_of_faithful {linesCacheCapacity : Nat} {ops : List (Operation readFile)}
    (h : Faithful readFile (run linesCacheCapacity ops)) :
    KeptApart linesCacheCapacity (calls ops) := by
  obtain ⟨hcached, hcap, horigins, hreturned⟩ := run_spec linesCacheCapacity ops
  rw [Faithful, hreturned] at h
  cases hcalls : calls ops with
  | nil => exact trivial
  | cons c cs =>
    rw [hcalls] at h horigins
    have hfirst := (find?_first c cs).2
    have hzero : (0 : UInt64) ≤ (first c).size := UInt64.le_iff_toNat_le.mpr (Nat.zero_le _)
    constructor
    · intro hnone
      have hmaps := h.1 _ hfirst 0 hzero
      obtain ⟨pos, hok, -⟩ := hmaps.index
      rw [index_eq_error hcached (hcap.trans hnone) hmaps.resolve] at hok
      cases hok
    by_contra hnot
    rw [not_or] at hnot
    obtain ⟨hne, hnot⟩ := hnot
    have hlt : c.size.toNat + 1 < 2 ^ 32 := by
      -- the last offset of 32 bits is taken for no position
      by_contra hge
      have hle : (4294967295 : UInt64) ≤ (first c).size :=
        UInt64.le_iff_toNat_le.mpr (by
          change 4294967295 ≤ c.size.toNat
          omega)
      have hlit : (4294967295 : UInt64).toNat = 4294967295 := rfl
      have hoffset : (first c).offset.toNat = 0 := rfl
      have hmaps := (h.1 _ hfirst 4294967295 hle).resolve
      refine (resolve_eq_some.mp hmaps).1 (UInt32.toNat_inj.mp ?_)
      rw [toNat_id_add hle, hoffset, hlit]
      rfl
    have hnat : c.size.toNat ≠ 0 := fun hnat => hne (UInt64.toNat_inj.mp hnat)
    have hsmall : c.size.toUInt32.toNat = c.size.toNat := by
      rw [UInt64.toNat_toUInt32, Nat.mod_eq_of_lt (by omega)]
    cases cs with
    | nil => exact hnot ⟨rfl, hlt⟩
    | cons c' cs =>
      obtain ⟨o, ho, hoffset⟩ := exists_second (c := c)
        (fun heq => hnat (hsmall.symm.trans (congrArg UInt32.toNat heq))) c' cs
      refine hne (h.2 _ hfirst o ho c.size (UInt64.le_refl _) 0
        (UInt64.le_iff_toNat_le.mpr (Nat.zero_le _)) ?_).2
      refine eq_of_toNat_id ?_
      have hfirstOffset : (first c).offset.toNat = 0 := rfl
      have hzeroNat : (0 : UInt64).toNat = 0 := rfl
      have hle : c.size ≤ (first c).size := UInt64.le_refl _
      rw [toNat_id_add hle, toNat_id_add (UInt64.le_iff_toNat_le.mpr (Nat.zero_le _)),
        hoffset, hsmall, hfirstOffset, hzeroNat, Nat.zero_add, Nat.add_zero]

theorem mapsBack_iff_lt {linesCacheCapacity : Nat} {ops : List (Operation readFile)}
    (hcap : linesCacheCapacity ≠ 0) (htotal : totalSize (calls ops) + 2 < 2 ^ 32)
    {o : TableOrigin SourcePath} (ho : o ∈ (run linesCacheCapacity ops).returned)
    {offset : UInt64} (hle : offset ≤ o.size) :
    MapsBack readFile (run linesCacheCapacity ops).table o offset ↔
      offset < o.size ∨ ∀ o' ∈ (run linesCacheCapacity ops).returned, o'.offset ≤ o.offset := by
  obtain ⟨hcached, hcapacity, horigins, hreturned⟩ := run_spec linesCacheCapacity ops
  have hlaid := laid_layout htotal
  rw [hreturned] at ho ⊢
  have hfind := (hlaid.returned o).mp ho
  have hfits := hlaid.fits _ _ hfind
  have hsource := hlaid.source _ _ hfind
  have hnat := UInt64.le_iff_toNat_le.mp hle
  have hoffset : o.offset.toNat + offset.toNat + 1 < 2 ^ 32 := by omega
  rw [mapsBack_iff hcached (by rwa [hcapacity]) (by omega) (by omega) (id_add hle hoffset).2.2,
    resolve_add hle hoffset (by rw [horigins, hfind]) hcached.keyed, horigins]
  constructor
  · intro hmax
    refine or_iff_not_imp_left.mpr fun hnlt o' ho' => ?_
    have hfind' := (hlaid.returned o').mp ho'
    rw [UInt32.le_iff_toNat_le]
    by_contra hgt
    obtain ⟨k, o'', hk, hkey, hlt⟩ :=
      hlaid.next _ _ _ _ hfind hfind' (Nat.lt_of_not_le hgt)
    have hge := UInt64.le_iff_toNat_le.mp (UInt64.not_lt.mp hnlt)
    have hback := hmax k o'' hk (by omega)
    omega
  · rintro (hlt | hlast) k o' hk hback
    · by_contra hgt
      have hapart := hlaid.apart _ _ _ _ hfind hk (Nat.lt_of_not_le hgt)
      have hlt' := UInt64.lt_iff_toNat_lt.mp hlt
      omega
    · have hkey := hlaid.keyed k o' hk
      have hle' := hlast o' ((hlaid.returned o').mpr (by rw [hkey, hk]))
      rw [hkey] at hle'
      exact UInt32.le_iff_toNat_le.mp hle'

/-- All positions are found again, and are different, exactly if no two origins are kept. While the
buffer has fewer than 2^32 positions, all but the ends of the origins before the last are found. -/
theorem faithful_iff (linesCacheCapacity : Nat) (ops : List (Operation readFile)) :
    (Faithful readFile (run linesCacheCapacity ops) ↔
      KeptApart linesCacheCapacity (calls ops)) ∧
    (linesCacheCapacity ≠ 0 → totalSize (calls ops) + 2 < 2 ^ 32 →
      ∀ o ∈ (run linesCacheCapacity ops).returned, ∀ offset ≤ o.size,
        (MapsBack readFile (run linesCacheCapacity ops).table o offset ↔
          offset < o.size ∨ ∀ o' ∈ (run linesCacheCapacity ops).returned, o'.offset ≤ o.offset)) :=
  ⟨⟨keptApart_of_faithful, faithful_of_keptApart⟩,
    fun hcap htotal _ ho _ hle => mapsBack_iff_lt hcap htotal ho hle⟩

def stringCall (source : Bytes) (h : source.length < 2 ^ 64) :
    Call fun _ : Bytes => none where
  origin := .string source
  size := .ofNat source.length
  length_le := by
    rw [UInt64.toNat_ofNat', Nat.mod_eq_of_lt h]
    exact (List.takeWhile_prefix _).length_le

def twoSources : List (Operation fun _ : Bytes => none) :=
  [.addOrigin (stringCall (str "a") (by decide)), .addOrigin (stringCall (str "b") (by decide))]

theorem faithful_iff_twoSources :
    (Faithful (fun _ : Bytes => none) (run 65536 (twoSources.take 1)) ↔
      KeptApart 65536 (calls (twoSources.take 1))) ∧
    (MapsBack (fun _ : Bytes => none) (run 65536 twoSources).table ⟨0, .string (str "a"), 1⟩ 0 ↔
      (0 : UInt64) < 1 ∨
        ∀ o' ∈ (run 65536 twoSources).returned, o'.offset ≤ (0 : UInt32)) :=
  ⟨(faithful_iff 65536 (twoSources.take 1)).1,
    (faithful_iff 65536 twoSources).2 (by decide) (by decide) ⟨0, .string (str "a"), 1⟩
      (by decide) 0 (by decide)⟩

/-- The end of the first source is found to be the start of the second one. -/
theorem not_faithful_twoSources :
    ¬Faithful (fun _ : Bytes => none) (run 65536 twoSources) := by
  intro h
  have hmaps := (h.1 ⟨0, .string (str "a"), 1⟩ (by decide) 1 (by decide)).resolve
  exact absurd hmaps (by decide)

end Nix.Util.PosTables
