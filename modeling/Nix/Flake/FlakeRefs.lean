import Nix.Util.JsonValues

set_option linter.dupNamespace false

namespace Nix.Flake.FlakeRefs

open Util.Types Util.JsonValues Lib.SortedList

/-- `fetchers::Attr`. A lazy attribute is given by the value it computes. -/
inductive Attr
  | string (s : Bytes)
  | number (n : UInt64)
  | boolean (b : Bool)
  deriving DecidableEq

abbrev Attrs := SortedMap (compare : Bytes → Bytes → Ordering) Attr

def Attr.toJson : Attr → Json
  | .string s => .string s
  | .number n => .numberUnsigned n
  | .boolean b => .boolean b

/-- An empty set of attributes is printed as `null`. -/
def attrsToJSON (attrs : Attrs) : Json :=
  if attrs.elems = [] then .null else .ofMembers (attrs.mapValues Attr.toJson)

/-- The conversions of a floating point number, given by its bits. -/
structure FloatCast where
  toUInt64 : UInt64 → UInt64
  toInt32 : UInt64 → Int32

def Attr.ofJson (cast : FloatCast) : Json → Except Error Attr
  | .numberInteger n => .ok (.number (UInt64.ofInt n))
  | .numberUnsigned n => .ok (.number n)
  | .numberFloat bits => .ok (.number (cast.toUInt64 bits))
  | .string s => .ok (.string s)
  | .boolean b => .ok (.boolean b)
  | _ => .error ⟨.error, ⟨"unsupported input attribute type in lock file", []⟩⟩

/-- `items`: the keys of an array are its indices, and any other value is its only item. -/
def items (j : Json) : List (Bytes × Json) :=
  match j with
  | .null => []
  | .array _ elem => List.ofFn fun i => (decimal i, elem i)
  | .object keys member => List.ofFn fun i => (keys.elems.get i, member i)
  | j => [([], j)]

def itemsToAttrs (cast : FloatCast) : List (Bytes × Json) → Except Error (List (Bytes × Attr))
  | [] => .ok []
  | (name, j) :: rest => do
      let attr ← Attr.ofJson cast j
      let attrs ← itemsToAttrs cast rest
      return (name, attr) :: attrs

def jsonToAttrs (cast : FloatCast) (j : Json) : Except Error Attrs := do
  let attrs ← itemsToAttrs cast (items j)
  return SortedMap.ofList attrs

def maybeGetStrAttr (attrs : Attrs) (name : Bytes) : Except Error (Option Bytes) :=
  match attrs.find? name with
  | none => .ok none
  | some (.string s) => .ok (some s)
  | some _ => .error ⟨.error, ⟨"input attribute '%s' is not a string %s", [name]⟩⟩

def maybeGetBoolAttr (attrs : Attrs) (name : Bytes) : Except Error (Option Bool) :=
  match attrs.find? name with
  | none => .ok none
  | some (.boolean b) => .ok (some b)
  | some _ => .error ⟨.error, ⟨"input attribute '%s' is not a Boolean", [name]⟩⟩

structure FlakeRef where
  /-- `input.attrs`. -/
  attrs : Attrs
  subdir : Bytes := []
  deriving DecidableEq

def FlakeRef.toAttrs (ref : FlakeRef) : Attrs :=
  if ref.subdir ≠ [] ∧ ref.attrs.contains (str "dir") = false then
    ref.attrs.assign (str "dir") (.string ref.subdir)
  else ref.attrs

/-- What the input schemes decide. -/
structure InputSchemes where
  cast : FloatCast
  /-- `Input::fromAttrs` after the check of the attribute `type`. -/
  inputFromAttrs : Attrs → Except Error Attrs
  isLocked : Attrs → Bool
  isRelative : Attrs → Bool
  hasNarHash : Attrs → Bool

variable (schemes : InputSchemes)

def inputFromAttrs (attrs : Attrs) : Except Error Attrs := do
  match ← maybeGetStrAttr attrs (str "type") with
  | none => .error ⟨.error,
      ⟨"'type' attribute to specify input scheme is required but not provided", []⟩⟩
  | some _ => schemes.inputFromAttrs attrs

def FlakeRef.fromAttrs (attrs : Attrs) : Except Error FlakeRef := do
  let input ← inputFromAttrs schemes (attrs.erase (str "dir"))
  let dir ← maybeGetStrAttr attrs (str "dir")
  return ⟨input, dir.getD []⟩

def finalAttr : Bytes := str "__final"

def FlakeRef.isFinal (ref : FlakeRef) : Except Error Bool := do
  return (← maybeGetBoolAttr ref.attrs finalAttr).getD false

def FlakeRef.markFinal (ref : FlakeRef) : FlakeRef :=
  { ref with attrs := ref.attrs.assign finalAttr (.boolean true) }

def FlakeRef.dropFinal (ref : FlakeRef) : FlakeRef :=
  { ref with attrs := ref.attrs.erase finalAttr }

theorem Attr.ofJson_toJson (cast : FloatCast) (attr : Attr) :
    Attr.ofJson cast attr.toJson = .ok attr := by
  cases attr <;> rfl

theorem items_ofMembers (m : Members) : items (.ofMembers m) = m.elems := by
  have h := Json.members?_ofMembers m
  rw [Json.ofMembers, Json.members?, Option.some.injEq] at h
  exact congrArg SortedSet.elems h

theorem items_attrsToJSON (attrs : Attrs) :
    items (attrsToJSON attrs) = attrs.elems.map fun e => (e.1, e.2.toJson) := by
  rw [attrsToJSON]
  split
  next h =>
    rw [h]
    rfl
  next => rw [items_ofMembers, SortedMap.mapValues]

theorem itemsToAttrs_map (cast : FloatCast) (l : List (Bytes × Attr)) :
    itemsToAttrs cast (l.map fun e => (e.1, e.2.toJson)) = .ok l := by
  induction l with
  | nil => rfl
  | cons e l ih =>
      rw [List.map_cons, itemsToAttrs, ih, Attr.ofJson_toJson]
      rfl

theorem jsonToAttrs_ofMembers (cast : FloatCast) (attrs : Attrs) :
    jsonToAttrs cast (.ofMembers (attrs.mapValues Attr.toJson)) = .ok attrs := by
  rw [jsonToAttrs, items_ofMembers, SortedMap.mapValues, itemsToAttrs_map]
  exact congrArg Except.ok (SortedMap.ofList_elems attrs)

theorem jsonToAttrs_attrsToJSON (cast : FloatCast) (attrs : Attrs) :
    jsonToAttrs cast (attrsToJSON attrs) = .ok attrs := by
  rw [jsonToAttrs, items_attrsToJSON, itemsToAttrs_map]
  exact congrArg Except.ok (SortedMap.ofList_elems attrs)

theorem FlakeRef.isFinal_markFinal (ref : FlakeRef) : ref.markFinal.isFinal = .ok true := by
  rw [isFinal, maybeGetBoolAttr, markFinal, SortedMap.find?_assign_self]
  rfl

theorem dir_ne_final : str "dir" ≠ finalAttr := str_ne_str (by decide)

theorem FlakeRef.find?_toAttrs (ref : FlakeRef) (k : Bytes) :
    ref.toAttrs.find? k =
      if k = str "dir" ∧ ref.subdir ≠ [] ∧ ref.attrs.contains (str "dir") = false then
        some (.string ref.subdir)
      else ref.attrs.find? k := by
  rw [toAttrs]
  split
  next h =>
    rw [SortedMap.find?_assign]
    by_cases hk : str "dir" = k
    · simp [← hk, h]
    · rw [if_neg hk, if_neg fun hand => hk hand.1.symm]
  next h => rw [if_neg fun hand => h hand.2]

theorem FlakeRef.toAttrs_erase_eq {ref ref' : FlakeRef} (hsubdir : ref'.subdir = ref.subdir)
    (hattrs : ∀ k, k ≠ finalAttr → ref'.attrs.find? k = ref.attrs.find? k) :
    ref'.toAttrs.erase finalAttr = ref.toAttrs.erase finalAttr := by
  apply SortedMap.ext_find?
  intro k
  rw [SortedMap.find?_erase, SortedMap.find?_erase]
  split
  next => rfl
  next hk =>
    rw [find?_toAttrs, find?_toAttrs, hsubdir, SortedMap.contains_eq_isSome,
      SortedMap.contains_eq_isSome, hattrs _ hk, hattrs _ dir_ne_final]

theorem FlakeRef.toAttrs_erase_markFinal (ref : FlakeRef) :
    (ref.dropFinal.markFinal).toAttrs.erase finalAttr = ref.toAttrs.erase finalAttr := by
  refine toAttrs_erase_eq rfl fun k hk => ?_
  rw [markFinal, dropFinal, SortedMap.find?_assign_of_ne hk.symm, SortedMap.find?_erase,
    if_neg hk]

end Nix.Flake.FlakeRefs
