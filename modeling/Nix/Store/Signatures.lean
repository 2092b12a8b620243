import Nix.Store.PathInfo
import Nix.Util.HashTexts
import Nix.Util.JsonUtils

/-!
Signatures as texts, and in JSON.
-/

set_option linter.dupNamespace false

namespace Nix.Store.PathInfo

open Util.Types Util.BaseN Util.Hashes Util.JsonValues Lib.SortedList

instance : Std.TransCmp Signature.cmp :=
  inferInstanceAs (Std.TransCmp (compareLex _ _))

/-- `parseColonBase64`. -/
def parseColonBase64 (s : Bytes) (typeName : Bytes) : Except Error (Bytes × Bytes) :=
  let corrupt : Error := ⟨.formatError, ⟨"%s is corrupt", [typeName]⟩⟩
  match splitPrefixTo 58 s with
  | none => .error corrupt
  | some (name, rest) =>
      if name = [] then .error corrupt
      else do
        let data ← base64.decode rest
        if data = [] then .error corrupt else return (name, data)

namespace Signature

def parse (s : Bytes) : Except Error Signature := do
  let (keyName, sig) ← parseColonBase64 s (str "signature")
  return ⟨keyName, sig⟩

def toText (s : Signature) : Bytes :=
  s.keyName ++ str ":" ++ base64.encode s.sig

/-- `to_json`, which writes an object. -/
def toJson (s : Signature) : Json :=
  .ofMembers (.ofList [(str "keyName", .string s.keyName), (str "sig", .string (base64.encode s.sig))])

def fromJson (j : Json) : Except Error Signature :=
  match j with
  | .string s => parse s
  | _ => do
      let obj ← getObject j
      let keyName ← getString (← valueAt obj (str "keyName"))
      let sig ← base64.decode (← getString (← valueAt obj (str "sig")))
      return ⟨keyName, sig⟩

/-- The signature can be told from its text. -/
structure Plain (s : Signature) : Prop where
  keyName_ne_nil : s.keyName ≠ []
  no_colon : 58 ∉ s.keyName
  sig_ne_nil : s.sig ≠ []

theorem parse_toText {s : Signature} (h : s.Plain) : parse s.toText = .ok s := by
  have htext : s.toText = s.keyName ++ 58 :: base64.encode s.sig := by
    rw [toText, List.append_assoc]
    rfl
  rw [parse, htext, parseColonBase64, splitPrefixTo_append h.no_colon]
  simp only [if_neg h.keyName_ne_nil, base64.decode_encode, bind, Except.bind, if_neg h.sig_ne_nil]
  rfl

theorem notMem_toText {s : Signature} {c : UInt8} (hkey : c ∉ s.keyName)
    (hc : c ∉ str ":" ∧ c ∉ base64.chars ∧ c ≠ 61) : c ∉ s.toText := by
  rw [toText, List.mem_append, List.mem_append, not_or, not_or]
  refine ⟨⟨hkey, hc.1⟩, fun hin => ?_⟩
  rcases base64.mem_encode hin with hin | heq
  · exact hc.2.1 hin
  · exact hc.2.2 heq

theorem fromJson_toJson (s : Signature) : fromJson s.toJson.reread = .ok s := by
  obtain ⟨m, hm, hfind⟩ := Json.members?_reread
    (.ofList [(str "keyName", .string s.keyName), (str "sig", .string (base64.encode s.sig))])
  have hobject : getObject s.toJson.reread = .ok m := by
    rw [getObject, toJson, hm]
  have hkey : valueAt m (str "keyName") = .ok (.string s.keyName) := by
    rw [valueAt, optionalValueAt, hfind, Members.find?_ofList]
    rfl
  have hsig : valueAt m (str "sig") = .ok (.string (base64.encode s.sig)) := by
    rw [valueAt, optionalValueAt, hfind, Members.find?_ofList]
    rfl
  have hread : fromJson s.toJson.reread = do
      let obj ← getObject s.toJson.reread
      let keyName ← getString (← valueAt obj (str "keyName"))
      let sig ← base64.decode (← getString (← valueAt obj (str "sig")))
      return ⟨keyName, sig⟩ := rfl
  rw [hread, hobject]
  simp only [bind, Except.bind, hkey, hsig, getString, base64.decode_encode]
  rfl

theorem fromJson_toText {s : Signature} (h : s.Plain) :
    fromJson (Json.string s.toText).reread = .ok s :=
  parse_toText h

end Signature

end Nix.Store.PathInfo
