import Mathlib.Data.List.OfFn
import Nix.Lib.SortedList
import Nix.Lib.SortedMaps
import Nix.Lib.SortedTrees
import Nix.Util.Types

set_option linter.dupNamespace false

namespace Nix.Util.JsonValues

open Util.Types Lib.SortedList Lib.SortedTrees

/-- `std::set<std::string>`. -/
abbrev StringSet := SortedSet (compare : Bytes → Bytes → Ordering)

/-- `nlohmann::json`. A floating point number is given by its bits. -/
inductive Json
  | null
  | boolean (b : Bool)
  | numberInteger (n : Int)
  | numberUnsigned (n : UInt64)
  | numberFloat (bits : UInt64)
  | string (s : Bytes)
  | array (size : Nat) (elem : Fin size → Json)
  | object (keys : StringSet) (member : Fin keys.elems.length → Json)

/-- `json::object_t`. -/
structure JsonObject where
  keys : StringSet
  member : Fin keys.elems.length → Json

def JsonObject.toJson (o : JsonObject) : Json :=
  .object o.keys o.member

def JsonObject.entries (o : JsonObject) : List (Bytes × Json) :=
  List.ofFn fun i => (o.keys.elems.get i, o.member i)

/-- `dump` and `parse` of the library, which throw exceptions of its own. -/
structure JsonCodec where
  dump : Json → Except Error Bytes
  parse : Bytes → Except Error Json

abbrev Members := SortedMap (compare : Bytes → Bytes → Ordering) Json

namespace Json

def ofMembers (m : Members) : Json :=
  .object ⟨m.elems.map Prod.fst, strictlySorted_byKey.mp m.sorted⟩
    fun i => (m.elems.get (i.cast (List.length_map _))).2

def members? : Json → Option Members
  | .object keys member =>
      some ⟨List.ofFn fun i => (keys.elems.get i, member i),
        strictlySorted_byKey.mpr (by rw [SortedTree.map_fst_ofFn]; exact keys.sorted)⟩
  | _ => none

@[simp] theorem members?_ofMembers (m : Members) : (ofMembers m).members? = some m := by
  rw [ofMembers, members?]
  congr 1
  apply SortedSet.eq_of_elems
  apply List.ext_get
  · simp
  · intro i hi hi'
    simp

def ofElements (l : List Json) : Json :=
  .array l.length l.get

def elements? : Json → Option (List Json)
  | .array _ elem => some (List.ofFn elem)
  | _ => none

@[simp] theorem elements?_ofElements (l : List Json) : (ofElements l).elements? = some l := by
  rw [ofElements, elements?, List.ofFn_get]

def string? : Json → Option Bytes
  | .string s => some s
  | _ => none

/-- `find`, which finds nothing in a value other than an object. -/
def find? (j : Json) (k : Bytes) : Option Json :=
  j.members?.bind (SortedMap.find? · k)

@[simp] theorem find?_ofMembers (m : Members) (k : Bytes) :
    (ofMembers m).find? k = SortedMap.find? m k := by
  simp [find?]

end Json

end Nix.Util.JsonValues
