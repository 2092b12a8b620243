import Nix.Lib.SortedList
import Nix.Util.CanonPaths
import Nix.Util.Serialise

set_option linter.dupNamespace false

namespace Nix.Util.Archive

open Util.Types Util.Serialise Util.CanonPaths Lib.PrefixReader Lib.SortedList

def narVersionMagic1 : Bytes := str "nix-archive-1"

def narMaxDepth : Nat := 64

def caseHackSuffix : Bytes := str "~nix~case~hack~"

/-- The contents of a file, whose size is a `uint64_t`. -/
structure FileContents where
  data : Bytes
  length_lt : data.length < 2 ^ 64

/-- A tree as `lstat`, `readFile`, `readDirectory` and `readLink` of an accessor
show it. -/
inductive FileTree
  | regular (isExecutable : Bool) (contents : FileContents)
  | directory (entries : List (Bytes × FileTree))
  | symlink (target : Bytes)
  /-- A device, socket or the like. -/
  | unsupported

structure DumpOptions where
  useCaseHack : Bool := false
  filter : Bytes → Bool := fun _ => true
  /-- `accessor.showPath`. -/
  showPath : CanonPath → Bytes := CanonPath.path

/-- `name.find(caseHackSuffix)`. -/
def findSuffix (name : Bytes) : Option Nat :=
  (List.range (name.length + 1)).find? fun i => caseHackSuffix.isPrefixOf (name.drop i)

/-- The name that a directory entry gets in the archive. -/
def unhackedName (useCaseHack : Bool) (name : Bytes) : Bytes :=
  if useCaseHack then
    match findSuffix name with
    | some pos => name.take pos
    | none => name
  else name

/-- `unhacked.emplace` for every entry, with what is to be dumped under each
name. -/
def unhack {ν : Type} (opts : DumpOptions) (path : CanonPath) :
    List (Bytes × ν) → List (Bytes × Bytes × ν) → Except Error (List (Bytes × Bytes × ν))
  | [], unhacked => .ok unhacked
  | (real, child) :: entries, unhacked =>
      let name := unhackedName opts.useCaseHack real
      match unhacked.find? fun i => i.1 = name with
      | some i =>
          if opts.useCaseHack then do
            let p ← path.push i.2.1
            let q ← path.push real
            throw ⟨.error, ⟨"file name collision between '%s' and '%s'", [p.path, q.path]⟩⟩
          else unhack opts path entries unhacked
      | none => unhack opts path entries (insertNew (byKey compare) (name, real, child) unhacked)

/-- The loop over `unhacked`; a child is what dumping it at a path gives. -/
def dumpEntries (opts : DumpOptions) (path filterPath : CanonPath) :
    List (Bytes × Bytes × (CanonPath → CanonPath → Except Error Bytes)) →
      Except Error Bytes
  | [] => .ok []
  | (name, real, child) :: entries => do
      let target ← filterPath.push name
      let entry ←
        if opts.filter target.path then do
          let subPath ← path.push real
          let subFilterPath ← filterPath.push real
          let node ← child subPath subFilterPath
          pure (writeString (str "entry") ++ writeString (str "(") ++
            writeString (str "name") ++ writeString name ++ writeString (str "node") ++
            node ++ writeString (str ")"))
        else pure []
      let rest ← dumpEntries opts path filterPath entries
      return entry ++ rest

def dumpContents (contents : FileContents) : Bytes :=
  writeString (str "contents") ++ writeUint64 contents.data.length ++ contents.data ++
    writePadding contents.data.length

/-- What `dump` does for every kind of file: the check of the depth before it
and the parentheses around it. -/
def dumpObject (opts : DumpOptions) (depth : Nat) (path : CanonPath)
    (body : Except Error Bytes) : Except Error Bytes :=
  if depth ≥ narMaxDepth then
    .error ⟨.error, ⟨"path '%s' exceeds maximum NAR directory depth of %d",
      [opts.showPath path, decimal narMaxDepth]⟩⟩
  else do
    let body ← body
    return writeString (str "(") ++ body ++ writeString (str ")")

mutual

/-- The recursive lambda of `SourceAccessor::dumpPath`. -/
def dump (opts : DumpOptions) : FileTree → Nat → CanonPath → CanonPath → Except Error Bytes
  | .regular isExecutable contents, depth, path, _ =>
      dumpObject opts depth path do
        return writeString (str "type") ++ writeString (str "regular") ++
          (if isExecutable then writeString (str "executable") ++ writeString [] else []) ++
          dumpContents contents
  | .directory entries, depth, path, filterPath =>
      dumpObject opts depth path do
        let unhacked ← unhack opts path (dumpChildren opts entries (depth + 1)) []
        let entries ← dumpEntries opts path filterPath unhacked
        return writeString (str "type") ++ writeString (str "directory") ++ entries
  | .symlink target, depth, path, _ =>
      dumpObject opts depth path do
        return writeString (str "type") ++ writeString (str "symlink") ++
          writeString (str "target") ++ writeString target
  | .unsupported, depth, path, _ =>
      dumpObject opts depth path
        (.error ⟨.error, ⟨"file '%s' has an unsupported type", [path.path]⟩⟩)

def dumpChildren (opts : DumpOptions) : List (Bytes × FileTree) → Nat →
    List (Bytes × (CanonPath → CanonPath → Except Error Bytes))
  | [], _ => []
  | (name, tree) :: entries, depth =>
      (name, dump opts tree depth) :: dumpChildren opts entries depth

end

def dumpPath (opts : DumpOptions) (tree : FileTree) (path : CanonPath) :
    Except Error Bytes := do
  let node ← dump opts tree 0 path path
  return writeString narVersionMagic1 ++ node

/-- A `FileSystemObjectSink` over sources with state `σ`, by what the calls for
one object build. `skipContents` is the flag of its regular files; `size` and
the state of the source are known when `preallocateContents` is called. -/
structure FileSystemObjectSink (σ τ : Type) where
  skipContents : Bool
  regular : (isExecutable : Bool) → (size : Nat) → (start : σ) → (contents : Bytes) → τ
  directory : List (Bytes × τ) → τ
  symlink : Bytes → τ

/-- `NullFileSystemObjectSink`. -/
def nullFileSystemObjectSink {σ : Type} : FileSystemObjectSink σ Unit where
  skipContents := true
  regular _ _ _ _ := ()
  directory _ := ()
  symlink _ := ()

/-- The contents that a file has after writing `data` to it. -/
def FileContents.ofBytes (data : Bytes) : FileContents :=
  ⟨data.take (2 ^ 64 - 1), by rw [List.length_take]; omega⟩

/-- `MemorySink`, with directories as maps. -/
def memorySink {σ : Type} : FileSystemObjectSink σ FileTree where
  skipContents := false
  regular isExecutable _ _ contents := .regular isExecutable (.ofBytes contents)
  directory entries :=
    .directory (entries.foldl (fun m e => insertOver (byKey compare) e m) [])
  symlink target := .symlink target

def badArchive (s : String) (args : List Bytes) : Error :=
  ⟨.serialisationError, ⟨"bad archive: " ++ s, args⟩⟩

def narMaxTag : Nat := 32

def narMaxName : Nat := 255

def narMaxTarget : Nat := 4095

/-- `alignUp(val, alignment)` for `uint64_t` and a power of two. -/
def alignUp (val alignment : Nat) : Except Error Nat :=
  let rounded := val + (alignment - 1)
  if rounded > uint64Max then
    .error ⟨.error, ⟨"can't align %d to %d: value is too large",
      [decimal val, decimal alignment]⟩⟩
  else .ok (rounded / alignment * alignment)

/-- ASCII lower case, as `strcasecmp` compares in the C locale. -/
def toLower (b : UInt8) : UInt8 :=
  if 65 ≤ b ∧ b ≤ 90 then b + 32 else b

/-- `names.find(name)` with `CaseInsensitiveCompare`. -/
def findName (names : List (Bytes × Nat)) (name : Bytes) : Option (Bytes × Nat) :=
  names.find? fun i => i.1.map toLower = name.map toLower

/-- The map of names after `++i->second`. -/
def countName (names : List (Bytes × Nat)) (name : Bytes) : List (Bytes × Nat) :=
  names.map fun i => if i.1.map toLower = name.map toLower then (i.1, i.2 + 1) else i

/-- The name under which an entry is created, and the names seen so far. -/
def hackName (useCaseHack : Bool) (names : List (Bytes × Nat)) (name : Bytes) :
    Except Error (Bytes × List (Bytes × Nat)) :=
  if useCaseHack then
    match findName names name with
    | some i =>
        let hacked := name ++ caseHackSuffix ++ decimal (i.2 + 1)
        match findName (countName names name) hacked with
        | some j =>
            .error (badArchive
              "NAR contains file name '%s' that collides with case-hacked file name '%s'"
              [name, j.1])
        | none => .ok (hacked, countName names name)
    | none => .ok (name, (name, 0) :: names)
  else .ok (name, names)

section Parse

variable {σ τ : Type} (useCaseHack : Bool) (sink : FileSystemObjectSink σ τ)
  (source : Source σ)

/-- The loop that skips `left` bytes. A `size_t` has 64 bits, so one round is
enough. -/
def skipLeft (left : Nat) : Reader σ Error Unit := fun s =>
  if left = 0 then .ok ((), s) else (source.skip left s).map fun s => ((), s)

/-- `parseContents`, with the size, the state of the source when the size is
known, and the contents that the sink gets. -/
def parseContents (skipContents : Bool) : Reader σ Error (Nat × σ × Bytes) := do
  let size ← readLongLong source
  let start ← get
  if skipContents then do
    let left ← alignUp size 8
    skipLeft source left
    return (size, start, [])
  else do
    let contents ← source.drainInto size
    readPadding source size
    return (size, start, contents)

def getString (max : Nat) : Reader σ Error Bytes := readString source max

def expectTag (expected : String) : Reader σ Error Unit := do
  let tag ← getString source narMaxTag
  throwIf (tag ≠ str expected)
    (badArchive "expected tag '%s', got '%s'" [str expected, tag])

/-- The optional executable marker, with the tag that follows it. -/
def parseExecutable (tag : Bytes) : Reader σ Error (Bool × Bytes) :=
  if tag = str "executable" then do
    let s2 ← getString source 0
    throwIf (s2 ≠ []) (badArchive "executable marker has non-empty value" [])
    let tag ← getString source narMaxTag
    return (true, tag)
  else return (false, tag)

/-- The body of the callback of `createRegularFile`. -/
def parseRegular : Reader σ Error τ := do
  let tag ← getString source narMaxTag
  let (isExecutable, tag) ← parseExecutable source tag
  throwIf (tag ≠ str "contents") (badArchive "expected tag 'contents', got '%s'" [tag])
  let (size, start, contents) ← parseContents source sink.skipContents
  expectTag source ")"
  return sink.regular isExecutable size start contents

/-- What the loop over the entries of a directory keeps. -/
structure DirState (τ : Type) where
  names : List (Bytes × Nat) := []
  prevName : Bytes := []
  entries : List (Bytes × τ) := []

/-- The names that `parse` refuses. -/
def InvalidName (name : Bytes) : Prop :=
  name = [] ∨ name = str "." ∨ name = str ".." ∨ slash ∈ name ∨ (0 : UInt8) ∈ name

instance (name : Bytes) : Decidable (InvalidName name) :=
  inferInstanceAs (Decidable (_ ∨ _ ∨ _ ∨ _ ∨ _))

/-- One round of the `while (1)` loop, with the parser for the child. -/
def parseEntry (child : Reader σ Error τ) (st : DirState τ) :
    Reader σ Error (DirState τ ⊕ List (Bytes × τ)) := do
  let tag ← getString source narMaxTag
  if tag = str ")" then return .inr st.entries
  throwIf (tag ≠ str "entry") (badArchive "expected tag 'entry' or ')', got '%s'" [tag])
  expectTag source "("
  expectTag source "name"
  let name ← getString source narMaxName
  throwIf (InvalidName name) (badArchive "NAR contains invalid file name '%1%'" [name])
  throwIf (compare name st.prevName ≠ .gt) (badArchive "NAR directory is not sorted" [])
  let (hacked, names) ← (hackName useCaseHack st.names name : Except Error _)
  expectTag source "node"
  let node ← child
  expectTag source ")"
  return .inl ⟨names, name, st.entries ++ [(hacked, node)]⟩

def parseSymlink : Reader σ Error τ := do
  expectTag source "target"
  let target ← getString source narMaxTarget
  throwIf (target = [] ∨ (0 : UInt8) ∈ target)
    (badArchive "NAR contains invalid symlink target" [])
  expectTag source ")"
  return sink.symlink target

/-- `parse`, by the number of levels that are left below `narMaxDepth`. -/
def parse : Nat → Reader σ Error τ
  | 0 => throw (badArchive "NAR directory nesting exceeds maximum depth of %d"
      [decimal narMaxDepth])
  | levels + 1 => do
      expectTag source "("
      expectTag source "type"
      let type ← getString source narMaxTag
      if type = str "regular" then parseRegular sink source
      else if type = str "directory" then do
        let entries ← loop source.unread .diverges
          (parseEntry useCaseHack source (parse levels)) {}
        return sink.directory entries
      else if type = str "symlink" then parseSymlink sink source
      else throw (badArchive "unknown file type '%s'" [type])

/-- The text that `parseDump` reads before it compares it: a
`SerialisationError` leaves it empty, any other error is passed on. -/
def readVersion : Reader σ Error Bytes := fun s =>
  match readString source narVersionMagic1.length s with
  | .error e => if e.cls = .serialisationError then .ok ([], s) else .error e
  | .ok r => .ok r

def parseDump : Reader σ Error τ := do
  let version ← readVersion source
  throwIf (version ≠ narVersionMagic1)
    (badArchive "input doesn't look like a Nix archive" [])
  parse useCaseHack sink source narMaxDepth

end Parse

/-- `copyNAR`: parse and forward what is read. -/
def copyNAR {σ : Type} (useCaseHack : Bool) (source : Source σ) :
    Reader (σ × Bytes) Error Unit :=
  parseDump useCaseHack nullFileSystemObjectSink (teeSource source)

end Nix.Util.Archive
