import Mathlib.Data.List.Induction
import Nix.Lib.Results
import Nix.Util.JsonValues

/-!
Parts of JSON values, and what is left of a value that is written and read again.
-/

set_option linter.dupNamespace false

namespace Nix.Util.JsonValues

open Util.Types Lib.Results Lib.SortedList

namespace Json

def typeName : Json → String
  | .null => "null"
  | .boolean _ => "boolean"
  | .numberInteger _ => "number"
  | .numberUnsigned _ => "number"
  | .numberFloat _ => "number"
  | .string _ => "string"
  | .array _ _ => "array"
  | .object _ _ => "object"

end Json

/-- What `ensureType` throws, but for the dumped value. -/
def typeError (value : Json) (expected : String) : Error :=
  ⟨.error, ⟨"Expected JSON value to be of type '%s' but it is of type '%s'",
    [str expected, str value.typeName]⟩⟩

def getObject (value : Json) : Except Error Members :=
  match value.members? with
  | some m => .ok m
  | none => .error (typeError value "object")

def getArray (value : Json) : Except Error (List Json) :=
  match value.elements? with
  | some l => .ok l
  | none => .error (typeError value "array")

def getString : Json → Except Error Bytes
  | .string s => .ok s
  | value => .error (typeError value "string")

def getBoolean : Json → Except Error Bool
  | .boolean b => .ok b
  | value => .error (typeError value "boolean")

def getUnsigned : Json → Except Error UInt64
  | .numberUnsigned n => .ok n
  | value =>
      let typeName :=
        match value with
        | .numberInteger _ => "signed integral number"
        | .numberFloat _ => "floating point number"
        | value => value.typeName
      .error ⟨.error, ⟨"Expected JSON value to be an unsigned integral number but it is of type '%s'",
        [str typeName]⟩⟩

/-- `getInteger<int64_t>`. -/
def getInteger (value : Json) : Except Error Int64 :=
  let range : Except Error Int64 :=
    .error ⟨.error, ⟨"Out of range: JSON value cannot be casted to %d-bit integer", [decimal 64]⟩⟩
  match value with
  | .numberUnsigned n => if n.toNat < 2 ^ 63 then .ok (Int64.ofNat n.toNat) else range
  | .numberInteger n => if -2 ^ 63 ≤ n ∧ n < 2 ^ 63 then .ok (Int64.ofInt n) else range
  | value =>
      let typeName :=
        match value with
        | .numberFloat _ => "floating point number"
        | value => value.typeName
      .error ⟨.error, ⟨"Expected JSON value to be an integral number but it is of type '%s'",
        [str typeName]⟩⟩

def optionalValueAt (m : Members) (key : Bytes) : Option Json :=
  m.find? key

def valueAt (m : Members) (key : Bytes) : Except Error Json :=
  match optionalValueAt m key with
  | some value => .ok value
  | none => .error ⟨.error, ⟨"Expected JSON object to contain key '%s' but it doesn't", [key]⟩⟩

def getNullable : Json → Option Json
  | .null => none
  | value => some value

/-- `json::object()`, with some members. -/
def Members.ofList (l : List (Bytes × Json)) : Members :=
  l.foldl (fun m e => SortedMap.assign m e.1 e.2) SortedSet.empty

/-- A number that is not negative is read as an unsigned one. -/
def Json.reread : Json → Json
  | .numberInteger n => if 0 ≤ n then .numberUnsigned (UInt64.ofNat n.toNat) else .numberInteger n
  | .array size elem => .array size fun i => (elem i).reread
  | .object keys member => .object keys fun i => (member i).reread
  | value => value

theorem Json.elements?_reread (l : List Json) :
    (ofElements l).reread.elements? = some (l.map reread) := by
  have hmap : List.ofFn (fun i => (l.get i).reread) = l.map reread := by
    conv_rhs => rw [← List.ofFn_get l, List.map_ofFn]
    rfl
  exact congrArg some hmap

theorem Json.members?_reread (m : Members) :
    ∃ m', (ofMembers m).reread.members? = some m' ∧
      ∀ k, SortedMap.find? m' k = (SortedMap.find? m k).map reread := by
  refine ⟨_, rfl, fun k => ?_⟩
  have helems : List.ofFn (fun i : Fin (m.elems.map Prod.fst).length =>
      ((m.elems.map Prod.fst).get i, (m.elems.get (i.cast (List.length_map _))).2.reread)) =
      m.elems.map fun e => (e.1, e.2.reread) := by
    apply List.ext_get
    · simp
    · intro i hi hi'
      simp
  rw [SortedMap.find?, SortedMap.find?]
  change Option.map Prod.snd (List.find? _ (List.ofFn _)) = _
  refine (congrArg (fun l => Option.map Prod.snd (List.find? (fun e => decide (e.1 = k)) l)) helems).trans ?_
  rw [List.find?_map, Option.map_map, Option.map_map]
  rfl

theorem Members.find?_ofList (l : List (Bytes × Json)) (k : Bytes) :
    SortedMap.find? (ofList l) k = (l.reverse.find? (·.1 = k)).map Prod.snd := by
  induction l using List.reverseRecOn with
  | nil => rfl
  | append_singleton l e ih =>
      rw [ofList, List.foldl_append, ← ofList, List.foldl_cons, List.foldl_nil,
        SortedMap.find?_assign, ih, List.reverse_append, List.reverse_singleton, List.cons_append,
        List.nil_append, List.find?_cons]
      by_cases hk : e.1 = k
      · rw [if_pos hk, decide_eq_true hk]
        rfl
      · rw [if_neg hk, decide_eq_false hk]

theorem Members.find?_ofList_of_mem {l : List (Bytes × Json)} (h : (l.map Prod.fst).Nodup)
    {e : Bytes × Json} (he : e ∈ l) : SortedMap.find? (ofList l) e.1 = some e.2 := by
  rw [find?_ofList]
  cases hfind : l.reverse.find? (·.1 = e.1) with
  | none =>
      have hnone := List.find?_eq_none.mp hfind e (List.mem_reverse.mpr he)
      exact absurd (decide_eq_true rfl) hnone
  | some e' =>
      have hkey : e'.1 = e.1 := of_decide_eq_true (List.find?_some hfind :)
      have he' : e' ∈ l := List.mem_reverse.mp (List.mem_of_find?_eq_some hfind)
      rw [List.inj_on_of_nodup_map h he' he hkey]
      rfl

theorem Members.find?_ofList_eq_none {l : List (Bytes × Json)} {k : Bytes}
    (h : k ∉ l.map Prod.fst) : SortedMap.find? (ofList l) k = none := by
  rw [find?_ofList, Option.map_eq_none_iff, List.find?_eq_none]
  rintro e he hkey
  exact h (of_decide_eq_true hkey ▸ List.mem_map_of_mem (List.mem_reverse.mp he))

/-- A member that is only there when it has a value. -/
def optionalMember (e : Bytes × Option Json) : Option (Bytes × Json) :=
  e.2.map (e.1, ·)

theorem getObject_reread_optional {l : List (Bytes × Option Json)} (h : (l.map Prod.fst).Nodup) :
    ∃ m, getObject (Json.ofMembers (.ofList (l.filterMap optionalMember))).reread = .ok m ∧
      ∀ e ∈ l, SortedMap.find? m e.1 = e.2.map Json.reread := by
  obtain ⟨m, hm, hfind⟩ := Json.members?_reread (.ofList (l.filterMap optionalMember))
  have hkeys : (l.filterMap optionalMember).map Prod.fst =
      (l.filter fun e => e.2.isSome).map Prod.fst := by
    clear h hm hfind
    induction l with
    | nil => rfl
    | cons e l ih =>
        obtain ⟨k, o⟩ := e
        cases o with
        | none => exact ih
        | some j => exact congrArg (k :: ·) ih
  have hnodup : ((l.filterMap optionalMember).map Prod.fst).Nodup := by
    rw [hkeys]
    exact h.sublist (List.filter_sublist.map Prod.fst)
  refine ⟨m, ?_, fun e he => ?_⟩
  · rw [getObject, hm]
  · obtain ⟨k, o⟩ := e
    rw [hfind]
    cases o with
    | some j =>
        have hin : (k, j) ∈ l.filterMap optionalMember := List.mem_filterMap.mpr ⟨_, he, rfl⟩
        rw [Members.find?_ofList_of_mem hnodup hin, Option.map_some]
    | none =>
        have hnotMem : k ∉ (l.filterMap optionalMember).map Prod.fst := by
          rw [hkeys]
          intro hin
          obtain ⟨e', he', hkey⟩ := List.mem_map.mp hin
          obtain ⟨he', hsome⟩ := List.mem_filter.mp he'
          rw [List.inj_on_of_nodup_map h he' he hkey] at hsome
          cases hsome
        rw [Members.find?_ofList_eq_none hnotMem, Option.map_none]

theorem filterMap_optionalMember (l : List (Bytes × Json)) :
    (l.map fun e => (e.1, some e.2)).filterMap optionalMember = l := by
  rw [List.filterMap_map]
  exact List.filterMap_some

theorem getObject_reread {l : List (Bytes × Json)} (h : (l.map Prod.fst).Nodup) :
    ∃ m, getObject (Json.ofMembers (.ofList l)).reread = .ok m ∧
      ∀ e ∈ l, SortedMap.find? m e.1 = some e.2.reread := by
  have hkeys : (l.map fun e => (e.1, some e.2)).map Prod.fst = l.map Prod.fst := by
    rw [List.map_map, Function.comp_def]
  obtain ⟨m, hobject, hfind⟩ := getObject_reread_optional (hkeys ▸ h)
  rw [filterMap_optionalMember] at hobject
  exact ⟨m, hobject, List.forall_mem_map.mp hfind⟩

theorem getInteger_reread (n : Int64) : getInteger (Json.numberInteger n.toInt).reread = .ok n := by
  have hlt : n.toInt < 2 ^ 63 := Int64.toInt_lt n
  have hle : -2 ^ 63 ≤ n.toInt := Int64.le_toInt n
  by_cases hneg : 0 ≤ n.toInt
  · obtain ⟨k, hk⟩ := Int.eq_ofNat_of_zero_le hneg
    have hread : (Json.numberInteger n.toInt).reread = .numberUnsigned (UInt64.ofNat k) := by
      rw [Json.reread, if_pos hneg, hk, Int.toNat_natCast]
    have hkle : k < 2 ^ 63 := by omega
    have htoNat : (UInt64.ofNat k).toNat = k := UInt64.toNat_ofNat_of_lt' (hkle.trans (by decide))
    rw [hread, getInteger]
    simp only [htoNat, if_pos hkle]
    rw [← Int64.ofInt_eq_ofNat, ← hk, Int64.ofInt_toInt]
  · have hread : (Json.numberInteger n.toInt).reread = .numberInteger n.toInt := by
      rw [Json.reread, if_neg hneg]
    rw [hread, getInteger]
    simp only [if_pos (And.intro hle hlt), Int64.ofInt_toInt]

theorem mapM_reread {β : Type} {toJson : β → Except Error Json} {fromJson : Json → Except Error β}
    {bs : List β} (h : ∀ b ∈ bs, ∃ j, toJson b = .ok j ∧ fromJson j.reread = .ok b) :
    ∃ js, bs.mapM toJson = .ok js ∧ (js.map Json.reread).mapM fromJson = .ok bs := by
  induction bs with
  | nil => exact ⟨[], rfl, rfl⟩
  | cons b bs ih =>
      obtain ⟨⟨j, hto, hfrom⟩, hbs⟩ := List.forall_mem_cons.mp h
      obtain ⟨js, htos, hfroms⟩ := ih hbs
      refine ⟨j :: js, ?_, ?_⟩
      · rw [List.mapM_cons, hto, htos]
        rfl
      · rw [List.map_cons, List.mapM_cons, hfrom, hfroms]
        rfl

end Nix.Util.JsonValues
