import Nix.Flake.FlakeRefs
import Nix.Util.HashCanonicity
import Nix.Util.Strings

/-!
URLs of the indirect, GitHub, GitLab and SourceHut inputs of flakes.
-/

set_option linter.dupNamespace false

namespace Nix.Flake.InputUrls

open Util.Types Util.BaseN Util.Hashes Lib.Results Lib.SortedList Flake.FlakeRefs

/-- What the schemes use of a URL. -/
structure ParsedURL where
  scheme : Bytes
  path : List Bytes
  query : SortedMap (compare : Bytes → Bytes → Ordering) Bytes := .empty

/-- `pathSegments(/*skipEmpty=*/true)`. -/
def ParsedURL.pathSegments (url : ParsedURL) : List Bytes :=
  url.path.filter (· ≠ [])

/-- `BadURL`, without the rendering of the URL or of the attributes. -/
def badURL (format : String) (args : List Bytes) : Error :=
  ⟨.error, ⟨format, args⟩⟩

def isAlpha (c : UInt8) : Bool :=
  (65 ≤ c && c ≤ 90) || (97 ≤ c && c ≤ 122)

def isDigit (c : UInt8) : Bool :=
  48 ≤ c && c ≤ 57

def isHexDigit (c : UInt8) : Bool :=
  isDigit c || (97 ≤ c && c ≤ 102) || (65 ≤ c && c ≤ 70)

/-- `[0-9a-fA-F]{40}`. -/
def revRegex (s : Bytes) : Bool :=
  s.length = 40 && s.all isHexDigit

/-- `[a-zA-Z][a-zA-Z0-9_-]*`. -/
def flakeRegex : Bytes → Bool
  | [] => false
  | c :: s => isAlpha c && s.all fun c => isAlpha c || isDigit c || c = 95 || c = 45

/-- `[a-zA-Z0-9.-]*`. -/
def hostRegex (s : Bytes) : Bool :=
  s.all fun c => isAlpha c || isDigit c || c = 46 || c = 45

/-- The settings, and what libgit2 says of the name of a reference, a branch or a tag. -/
structure Settings where
  xp : ExperimentalFeatureSettings
  gitNameIsValid : Bytes → Bool

section Schemes

variable (settings : Settings)

def isLegalRefName (refName : Bytes) : Bool :=
  if refName = str "@" then false
  else if 127 ∈ refName then false
  else settings.gitNameIsValid (refName.takeWhile (· ≠ 0))

/-- `insert_or_assign` of an attribute that may be missing. -/
def assignIf (attrs : Attrs) (name : Bytes) (value : Option Bytes) : Attrs :=
  match value with
  | some s => attrs.assign name (.string s)
  | none => attrs

def getStrAttr (attrs : Attrs) (name : Bytes) : Except Error Bytes := do
  match ← maybeGetStrAttr attrs name with
  | some s => return s
  | none => throw ⟨.error, ⟨"input attribute '%s' is missing", [name]⟩⟩

/-- `Input::getRev`, with SHA-1 as the default. -/
def getRev (attrs : Attrs) : Except Error (Option Hash) := do
  match ← maybeGetStrAttr attrs (str "rev") with
  | none => return none
  | some s =>
      match parseAnyPrefixed settings.xp s with
      | .ok hash => return some hash
      | .error e =>
          if e.cls = .badHash then return some (← parseAny settings.xp s (some .sha1))
          else throw e

def zeroSha256 : Hash :=
  ⟨.sha256, List.replicate 32 0, length_zeros⟩

/-- `Input::getNarHash`. -/
def getNarHash (attrs : Attrs) : Except Error (Option Hash) := do
  match ← maybeGetStrAttr attrs (str "narHash") with
  | none => return none
  | some s =>
      let hash ← if s = [] then .ok zeroSha256 else parseSRI settings.xp s
      if hash.algo ≠ .sha256 then throw ⟨.usageError, ⟨"narHash must use SHA-256", []⟩⟩
      return some hash

def gitRev (hash : Hash) : Bytes :=
  hash.toString (.explicit .base16) false

namespace Indirect

def revAndRef (path : List Bytes) : Except Error (Option Hash × Option Bytes) :=
  match path with
  | [_] => .ok (none, none)
  | [_, a] =>
      if revRegex a then do return (some (← parseAny settings.xp a (some .sha1)), none)
      else if isLegalRefName settings a then .ok (none, some a)
      else .error (badURL "in flake URL '%s', '%s' is not a commit hash or branch/tag name" [a])
  | [_, a, b] =>
      if ¬isLegalRefName settings a then
        .error (badURL "in flake URL '%s', '%s' is not a branch/tag name" [a])
      else if ¬revRegex b then
        .error (badURL "in flake URL '%s', '%s' is not a commit hash" [b])
      else do return (some (← parseAny settings.xp b (some .sha1)), some a)
  | _ => .error (badURL "GitHub URL '%s' is invalid" [])

def inputFromURL (url : ParsedURL) : Except Error (Option Attrs) :=
  if url.scheme ≠ str "flake" then .ok none
  else do
    let path := url.pathSegments
    let (rev, ref) ← revAndRef settings path
    let id := path.headD []
    if ¬flakeRegex id then throw (badURL "'%s' is not a valid flake ID" [id])
    let attrs : Attrs := SortedSet.empty
    let attrs := attrs.assign (str "type") (.string (str "indirect"))
    let attrs := attrs.assign (str "id") (.string id)
    let attrs := assignIf attrs (str "rev") (rev.map gitRev)
    let attrs := assignIf attrs (str "ref") ref
    return some attrs

def inputFromAttrs (attrs : Attrs) : Except Error Attrs := do
  let id ← getStrAttr attrs (str "id")
  if ¬flakeRegex id then throw (badURL "'%s' is not a valid flake ID" [id])
  return attrs

def toURL (input : Attrs) : Except Error ParsedURL := do
  let id ← getStrAttr input (str "id")
  let ref ← maybeGetStrAttr input (str "ref")
  let rev ← getRev settings input
  return { scheme := str "flake", path := id :: ref.toList ++ (rev.map gitRev).toList }

end Indirect

namespace GitArchive

inductive Scheme
  | github
  | gitlab
  | sourcehut

def schemeName : Scheme → Bytes
  | .github => str "github"
  | .gitlab => str "gitlab"
  | .sourcehut => str "sourcehut"

def checkRefOrRev (ref rev : Option Bytes) : Except Error Unit :=
  match ref, rev with
  | some ref, some rev => .error (badURL
      "input %s contains both a commit hash ('%s') and a branch/tag name ('%s')" [rev, ref])
  | some ref, none =>
      if ¬isLegalRefName settings ref then
        .error (badURL "input %s contains an invalid branch/tag name" [])
      else .ok ()
  | none, some rev => do
      let _ ← parseAny settings.xp rev (some .sha1)
      return ()
  | none, none => .ok ()

def checkHost (host : Option Bytes) : Except Error Unit :=
  match host with
  | some host =>
      if ¬hostRegex host then .error (badURL "input %s contains an invalid instance host" [])
      else .ok ()
  | none => .ok ()

def inputFromAttrs (attrs : Attrs) : Except Error Attrs := do
  let _ ← getStrAttr attrs (str "owner")
  let _ ← getStrAttr attrs (str "repo")
  checkRefOrRev settings (← maybeGetStrAttr attrs (str "ref")) (← maybeGetStrAttr attrs (str "rev"))
  checkHost (← maybeGetStrAttr attrs (str "host"))
  return attrs

def fromPath (path : List Bytes) : Except Error Attrs :=
  match path with
  | [_, _] => .ok .empty
  | [_, _, a] =>
      .ok (SortedMap.assign .empty (if revRegex a then str "rev" else str "ref") (.string a))
  | _ :: _ :: rest =>
      let rs := Nix.Util.Strings.concatStringsSep 47 rest
      .ok (SortedMap.assign .empty (str "ref") (.string rs))
  | _ => .error (badURL "URL '%s' is invalid" [])

def fromQuery (attrs : Attrs) (param : Bytes × Bytes) : Except Error Attrs :=
  let (name, value) := param
  if name = str "rev" then
    if attrs.contains name then .error (badURL "URL '%s' contains multiple commit hashes" [])
    else .ok (attrs.assign (str "rev") (.string value))
  else if name = str "ref" then
    if attrs.contains name then
      .error (badURL "URL '%s' contains multiple branch/tag names" [])
    else .ok (attrs.assign (str "ref") (.string value))
  else if name = str "host" then .ok (attrs.assign (str "host") (.string value))
  else if name = str "narHash" then .ok (attrs.assign (str "narHash") (.string value))
  else .error (badURL "URL '%s' contains unknown parameter '%s'" [name])

variable (scheme : Scheme)

def inputFromURL (url : ParsedURL) : Except Error (Option Attrs) :=
  if url.scheme ≠ schemeName scheme then .ok none
  else do
    let path := url.pathSegments
    let attrs ← fromPath path
    let attrs ← url.query.elems.foldlM fromQuery attrs
    let attrs := attrs.assign (str "type") (.string (schemeName scheme))
    let attrs := attrs.assign (str "owner") (.string (path.headD []))
    let attrs := attrs.assign (str "repo") (.string (path.tail.headD []))
    return some (← inputFromAttrs settings attrs)

def toURL (input : Attrs) : Except Error ParsedURL := do
  let owner ← getStrAttr input (str "owner")
  let repo ← getStrAttr input (str "repo")
  let ref ← maybeGetStrAttr input (str "ref")
  let rev ← getRev settings input
  if ref.isSome && rev.isSome then throw (.assertion "!(ref && rev)")
  let narHash ← getNarHash settings input
  let host ← maybeGetStrAttr input (str "host")
  let query : SortedMap (compare : Bytes → Bytes → Ordering) Bytes := match narHash with
    | some narHash => SortedMap.assign .empty (str "narHash") (narHash.toString .sri true)
    | none => .empty
  let query := match host with
    | some host => query.assign (str "host") host
    | none => query
  return {
    scheme := schemeName scheme
    path := owner :: repo :: ref.toList ++ (rev.map gitRev).toList
    query }

end GitArchive

inductive Scheme
  | indirect
  | gitArchive (scheme : GitArchive.Scheme)

def inputFromAttrs (scheme : Scheme) (attrs : Attrs) : Except Error Attrs :=
  match scheme with
  | .indirect => Indirect.inputFromAttrs attrs
  | .gitArchive _ => GitArchive.inputFromAttrs settings attrs

def inputFromURL (scheme : Scheme) (url : ParsedURL) : Except Error (Option Attrs) :=
  match scheme with
  | .indirect => Indirect.inputFromURL settings url
  | .gitArchive scheme => GitArchive.inputFromURL settings scheme url

def toURL (scheme : Scheme) (input : Attrs) : Except Error ParsedURL :=
  match scheme with
  | .indirect => Indirect.toURL settings input
  | .gitArchive scheme => GitArchive.toURL settings scheme input

/-- Two inputs of the same names, with the same hashes. -/
structure SameInput (input input' : Attrs) : Prop where
  attrs : ∀ name ∈ [str "id", str "owner", str "repo", str "ref", str "host"],
    input'.find? name = input.find? name
  rev : getRev settings input' = getRev settings input
  narHash : getNarHash settings input' = getNarHash settings input

def Survives (scheme : Scheme) (input : Attrs) (url : ParsedURL) : Prop :=
  ∃ input', inputFromURL settings scheme url = .ok (some input') ∧
    SameInput settings input input'

end Schemes

end Nix.Flake.InputUrls
