import Nix.Util.Hashes
import Nix.Util.MemorySinks
import Nix.Util.Strings

/-!
Git objects: `dump`, `parse` and `restore`.
-/

set_option linter.dupNamespace false

namespace Nix.Util.GitObjects

open Util.Types Util.CanonPaths Util.Hashes Util.MemorySinks
open Util.Archive (FileTree FileContents)
open Lib.SortedList Lib.PrefixReader

inductive Mode
  | directory
  | executable
  | regular
  | symlink
  deriving DecidableEq, Repr

/-- The `RawMode`. -/
def Mode.raw : Mode → Nat
  | directory => 0o040000
  | executable => 0o100755
  | regular => 0o100644
  | symlink => 0o120000

def decodeMode (m : Nat) : Option Mode :=
  if m = Mode.directory.raw then some .directory
  else if m = Mode.executable.raw then some .executable
  else if m = Mode.regular.raw then some .regular
  else if m = Mode.symlink.raw then some .symlink
  else none

/-- A mode as `%o` prints it. -/
def Mode.octal (m : Mode) : Bytes :=
  (Nat.toDigits 8 m.raw).map fun c => UInt8.ofNat c.toNat

structure TreeEntry where
  mode : Mode
  hash : Hash
  deriving DecidableEq

/-- `std::map<std::string, TreeEntry>`, with a slash at the end of the names of directories. -/
abbrev Tree := List (Bytes × TreeEntry)

def endOfFile : Error := ⟨.endOfFile, ⟨"end of string reached", []⟩⟩

/-- What is left of a string is the state of the source. -/
def getStringUntil (byte : UInt8) : Bytes → Except Error (Bytes × Bytes)
  | [] => .error endOfFile
  | n :: source =>
      if n = byte then .ok ([], source)
      else do
        let (s, source) ← getStringUntil byte source
        return (n :: s, source)

def getString (source : Bytes) (n : Nat) : Except Error ({s : Bytes // s.length = n} × Bytes) :=
  if h : n ≤ source.length then
    .ok (⟨source.take n, List.length_take_of_le h⟩, source.drop n)
  else .error endOfFile

def isSpace (c : UInt8) : Bool := c = 32 || (9 ≤ c && c ≤ 13)

/-- `std::stoi`, for a base up to ten. -/
def stoi (s : Bytes) (base : Nat) : Except Error Int :=
  let s := s.dropWhile isSpace
  let unsigned := if s.head? = some 45 ∨ s.head? = some 43 then s.tail else s
  let digits := unsigned.takeWhile fun c => 48 ≤ c.toNat && c.toNat < 48 + base
  if digits = [] then .error ⟨.error, ⟨"stoi: no conversion", []⟩⟩
  else
    let n : Nat := digits.foldl (fun n c => base * n + (c.toNat - 48)) 0
    let n : Int := if s.head? = some 45 then -n else n
    if -2 ^ 31 ≤ n ∧ n < 2 ^ 31 then .ok n else .error ⟨.error, ⟨"stoi: out of range", []⟩⟩

/-- An `int` as a number of `bits` bits without a sign. -/
def toUnsigned (bits : Nat) (n : Int) : Nat := (n % 2 ^ bits).toNat

section Parse

variable {S : Type} (xp : ExperimentalFeatureSettings) (sink : FileSystemObjectSink S)

/-- A `BlobMode` is a mode that was cast. -/
def parseBlob (sinkPath : CanonPath) (blobMode : Mode) (source : Bytes) (s : S) :
    Except Error S := do
  xp.require .gitHashing
  let (digits, source) ← getStringUntil 0 source
  let n ← stoi digits 10
  let size := toUnsigned 64 n
  match blobMode with
  | .regular => do
      let (contents, _) ← getString source size
      sink.createRegularFile sinkPath false contents.1 s
  | .executable => do
      let (contents, _) ← getString source size
      sink.createRegularFile sinkPath true contents.1 s
  | .symlink => do
      let (target, _) ← getString source size
      sink.createSymlink sinkPath target.1 s
  | .directory => .error (.assertion "false")

variable (hashAlgo : HashAlgorithm) (hook : CanonPath → TreeEntry → S → Except Error S)

/-- The `while (left)` loop. Every round reads from the source. -/
def parseEntries : Nat → (left : UInt64) → (source : Bytes) → S → Except Error S
  | 0, _, _, _ => .error .diverges
  | fuel + 1, left, source, s =>
      if left = 0 then .ok s
      else do
        let (perms, source) ← getStringUntil 32 source
        let left := left - UInt64.ofNat perms.length - 1
        let n ← stoi perms 8
        let rawMode := toUnsigned 32 n
        match decodeMode rawMode with
        | none => throw ⟨.error, ⟨"Unknown Git permission: %o", [decimal rawMode]⟩⟩
        | some mode => do
            let (name, source) ← getStringUntil 0 source
            let left := left - UInt64.ofNat name.length - 1
            let (hashs, source) ← getString source (regularHashSize hashAlgo)
            let left := left - UInt64.ofNat (regularHashSize hashAlgo)
            if ¬(hashAlgo = .sha1 ∨ hashAlgo = .sha256) then
              throw ⟨.error, ⟨"Unsupported hash algorithm for git trees: %s",
                [printHashAlgo hashAlgo]⟩⟩
            let path ← CanonPath.ofRaw name
            let s ← hook path ⟨mode, ⟨hashAlgo, hashs.1, hashs.2⟩⟩ s
            parseEntries fuel left source s

def parseTree (sinkPath : CanonPath) (source : Bytes) (s : S) : Except Error S := do
  let (digits, source) ← getStringUntil 0 source
  let n ← stoi digits 10
  let s ← sink.createDirectory sinkPath s
  parseEntries hashAlgo hook (source.length + 1) (UInt64.ofNat (toUnsigned 64 n)) source s

inductive ObjectType
  | blob
  | tree

def parseObjectType (source : Bytes) : Except Error (ObjectType × Bytes) := do
  xp.require .gitHashing
  let (type, source) ← getString source 5
  if type.1 = str "blob " then return (.blob, source)
  else if type.1 = str "tree " then return (.tree, source)
  else throw ⟨.error, ⟨"input doesn't look like a Git object", []⟩⟩

def parse (sinkPath : CanonPath) (source : Bytes) (rootModeIfBlob : Mode) (s : S) :
    Except Error S := do
  xp.require .gitHashing
  match ← parseObjectType xp source with
  | (.blob, source) => parseBlob xp sink sinkPath rootModeIfBlob source s
  | (.tree, source) => parseTree sink hashAlgo hook sinkPath source s

end Parse

/-- `convertMode`, of the type that `lstat` shows. -/
def convertMode : FileTree → Option Mode
  | .symlink _ => some .symlink
  | .regular _ _ => some .regular
  | .directory _ => some .directory
  | .unsupported => none

/-- `Hash::to_string`, without the algorithm. -/
def printHash (hash : Hash) : Bytes := BaseN.base16.encode hash.bytes

section Restore

variable {S : Type} (xp : ExperimentalFeatureSettings) (sink : FileSystemObjectSink S)
  (hashAlgo : HashAlgorithm)

/-- A `RestoreHook` returns an accessor and a path, here with the file that is there. -/
abbrev RestoreHook := Hash → Except Error (FileTree × CanonPath)

def restoreEntry (hook : RestoreHook) (name : CanonPath) (entry : TreeEntry) (s : S) :
    Except Error S := do
  let (file, fromPath) ← hook entry.hash
  match convertMode file with
  | none => throw ⟨.error, ⟨"file '%s' (git hash %s) has an unsupported type",
      [fromPath.path, printHash entry.hash]⟩⟩
  | some got =>
      if got ≠ entry.mode then
        throw ⟨.error, ⟨"git mode of file '%s' (git hash %s) is %o but expected %o",
          [fromPath.path, printHash entry.hash, got.octal, entry.mode.octal]⟩⟩
      copyRecursive sink file fromPath name s

def restore (source : Bytes) (hook : RestoreHook) (s : S) : Except Error S :=
  parse xp sink hashAlgo (restoreEntry sink hook) CanonPath.root source .regular s

end Restore

def dumpBlobPrefix (xp : ExperimentalFeatureSettings) (size : Nat) : Except Error Bytes := do
  xp.require .gitHashing
  return str "blob " ++ decimal size ++ [0]

/-- The loop of `dumpTree`. -/
def treeBody : Tree → Except Error Bytes
  | [] => .ok []
  | (name, entry) :: entries => do
      let name2 ←
        if entry.mode = .directory then
          if name = [] then throw (.assertion "!name2.empty()")
          else if name.getLast? ≠ some slash then throw (.assertion "name2.back() == '/'")
          else pure name.dropLast
        else pure name
      let rest ← treeBody entries
      return entry.mode.octal ++ 32 :: (name2 ++ 0 :: (entry.hash.bytes ++ rest))

def dumpTree (xp : ExperimentalFeatureSettings) (entries : Tree) : Except Error Bytes := do
  xp.require .gitHashing
  let v1 ← treeBody entries
  return str "tree " ++ decimal v1.length ++ 0 :: v1

section Dump

variable {C : Type} (xp : ExperimentalFeatureSettings) (filter : Bytes → Bool)

/-- The loop of `dump` over the entries of a directory, with the hook for each of them. -/
def dumpDirectory (path : CanonPath) :
    List (Bytes × (CanonPath → Reader C Error TreeEntry)) → Tree → Reader C Error Tree
  | [], entries => pure entries
  | (name, hook) :: children, entries => do
      let child ← fromExcept (path.push name)
      if filter child.path then do
        let entry ← hook child
        let name2 := if entry.mode = .directory then name ++ [slash] else name
        dumpDirectory path children (insertOver (byKey compare) (name2, entry) entries)
      else dumpDirectory path children entries

/-- `dump`, with the mode and what the sink gets. -/
def dump (file : FileTree) (children : List (Bytes × (CanonPath → Reader C Error TreeEntry)))
    (path : CanonPath) : Reader C Error (Mode × Bytes) :=
  match file with
  | .regular isExecutable contents => do
      let blobPrefix ← fromExcept (dumpBlobPrefix xp contents.data.length)
      return (if isExecutable then .executable else .regular, blobPrefix ++ contents.data)
  | .directory _ => do
      let entries ← dumpDirectory filter path children []
      let object ← fromExcept (dumpTree xp entries)
      return (.directory, object)
  | .symlink target => do
      let blobPrefix ← fromExcept (dumpBlobPrefix xp target.length)
      return (.symlink, blobPrefix ++ target)
  | .unsupported =>
      throw ⟨.error, ⟨"file '%1%' has an unsupported type of %2%", [path.path]⟩⟩

variable (hashOf : Bytes → Hash) (keep : Hash → Bytes → C → C)

/-- What a hook does with an object: it is hashed, and `keep` may store it. -/
def hashObject (dumped : Reader C Error (Mode × Bytes)) : Reader C Error TreeEntry := fun c =>
  (dumped c).map fun r => (⟨r.1.1, hashOf r.1.2⟩, keep (hashOf r.1.2) r.1.2 r.2)

mutual

/-- The hook of `dumpHash`. -/
def dumpHook : FileTree → CanonPath → Reader C Error TreeEntry
  | .regular isExecutable contents, path =>
      hashObject hashOf keep (dump xp filter (.regular isExecutable contents) [] path)
  | .directory entries, path =>
      hashObject hashOf keep (dump xp filter (.directory entries) (hookChildren entries) path)
  | .symlink target, path => hashObject hashOf keep (dump xp filter (.symlink target) [] path)
  | .unsupported, path => hashObject hashOf keep (dump xp filter .unsupported [] path)

def hookChildren :
    List (Bytes × FileTree) → List (Bytes × (CanonPath → Reader C Error TreeEntry))
  | [] => []
  | (name, file) :: entries => (name, dumpHook file) :: hookChildren entries

end

end Dump

open Util.CanonPathComponents Util.Strings Lib.Results

theorem not_isSpace_of_isDigit {c : UInt8} (h : isDigit c = true) : isSpace c = false := by
  rw [isDigit, Bool.and_eq_true, decide_eq_true_eq, decide_eq_true_eq, UInt8.le_iff_toNat_le,
    UInt8.le_iff_toNat_le] at h
  rw [isSpace, Bool.or_eq_false_iff, decide_eq_false_iff_not, ← UInt8.toNat_inj,
    Bool.and_eq_false_iff, decide_eq_false_iff_not, decide_eq_false_iff_not,
    UInt8.le_iff_toNat_le, UInt8.le_iff_toNat_le]
  have h48 : (48 : UInt8).toNat = 48 := rfl
  have h57 : (57 : UInt8).toNat = 57 := rfl
  have h32 : (32 : UInt8).toNat = 32 := rfl
  have h13 : (13 : UInt8).toNat = 13 := rfl
  omega

/-- A size is read back if it fits into an `int`. -/
theorem stoi_decimal (n : Nat) : stoi (decimal n) 10 =
    if n < 2 ^ 31 then .ok (n : Int) else .error ⟨.error, ⟨"stoi: out of range", []⟩⟩ := by
  obtain ⟨c, rest, hcons⟩ := List.exists_cons_of_ne_nil (decimal_ne_nil n)
  have hdigits : ∀ b ∈ decimal n, isDigit b = true := fun b => isDigit_of_mem_decimal
  have hc : isDigit c = true := hdigits c (hcons ▸ List.mem_cons_self)
  have hdrop : (decimal n).dropWhile isSpace = decimal n := by
    rw [hcons, List.dropWhile_cons_of_neg (by rw [not_isSpace_of_isDigit hc]; decide)]
  have hhead : ∀ d, isDigit d = false → (decimal n).head? ≠ some d := by
    intro d hd heq
    rw [hcons] at heq
    obtain rfl := Option.some.inj heq
    rw [hc] at hd
    cases hd
  have htake : (decimal n).takeWhile (fun c => 48 ≤ c.toNat && c.toNat < 48 + 10) = decimal n := by
    refine List.takeWhile_eq_self_iff.mpr fun b hb => ?_
    have hb := hdigits b hb
    rw [isDigit, Bool.and_eq_true, decide_eq_true_eq, decide_eq_true_eq, UInt8.le_iff_toNat_le,
      UInt8.le_iff_toNat_le] at hb
    rw [Bool.and_eq_true, decide_eq_true_eq, decide_eq_true_eq]
    exact ⟨hb.1, Nat.lt_succ_of_le hb.2⟩
  have hsign : ¬((decimal n).head? = some 45 ∨ (decimal n).head? = some 43) :=
    not_or.mpr ⟨hhead 45 (by decide), hhead 43 (by decide)⟩
  rw [stoi, hdrop]
  dsimp only
  rw [if_neg hsign, htake, if_neg (decimal_ne_nil n), foldl_decimal, if_neg (hhead 45 (by decide))]
  by_cases hn : n < 2 ^ 31
  · rw [if_pos hn, if_pos (by omega)]
  · rw [if_neg hn, if_neg (by omega)]

theorem stoi_octal (m : Mode) : stoi m.octal 8 = .ok (m.raw : Int) := by
  cases m <;> rfl

theorem decodeMode_raw (m : Mode) : decodeMode (toUnsigned 32 m.raw) = some m := by
  cases m <;> rfl

theorem notMem_octal (m : Mode) : (32 : UInt8) ∉ m.octal := by
  cases m <;> decide

theorem getStringUntil_append {byte : UInt8} {s : Bytes} (h : byte ∉ s) (rest : Bytes) :
    getStringUntil byte (s ++ byte :: rest) = .ok (s, rest) := by
  induction s with
  | nil => rw [List.nil_append, getStringUntil, if_pos rfl]
  | cons n s ih =>
    obtain ⟨hn, hs⟩ := not_or.mp (List.mem_cons.not.mp h)
    rw [List.cons_append, getStringUntil, if_neg (Ne.symm hn), ih hs]
    rfl

theorem getString_append {s : Bytes} {n : Nat} (h : s.length = n) (rest : Bytes) :
    getString (s ++ rest) n = .ok (⟨s, h⟩, rest) := by
  subst h
  rw [getString, dif_pos (by rw [List.length_append]; exact Nat.le_add_right _ _)]
  refine congrArg Except.ok (Prod.ext (Subtype.ext ?_) ?_)
  · exact List.take_left
  · exact List.drop_left

theorem nul_notMem_decimal (n : Nat) : (0 : UInt8) ∉ decimal n := fun h =>
  absurd (isDigit_of_mem_decimal h) (by decide)

theorem ofRaw_of_valid {c : Bytes} (h : ValidComponent c) :
    CanonPath.ofRaw c = .ok (ofComponents [c]) := by
  have hnul : CanonPath.ensureNoNullBytes c = .ok () := ensureNoNullBytes_eq_ok.mpr h.no_nul
  have hloop := canonPathLoop_cons h.ne_nil h.no_slash (.inl rfl) (c.length + 1) []
  rw [List.append_nil, if_neg h.ne_dot, if_neg h.ne_dotdot] at hloop
  rw [CanonPath.ofRaw, hnul]
  show Except.ok (⟨canonPathInner (slash :: c)⟩ : CanonPath) = _
  rw [canonPathInner, List.length_cons, hloop, canonPathLoop]
  simp [ofComponents, render]

def entryBytes (e : Bytes × TreeEntry) : Bytes :=
  e.2.mode.octal ++ 32 :: (e.1 ++ 0 :: e.2.hash.bytes)

theorem length_entryBytes (e : Bytes × TreeEntry) : (entryBytes e).length =
    e.2.mode.octal.length + 1 + (e.1.length + 1 + regularHashSize e.2.hash.algo) := by
  rw [entryBytes, List.length_append, List.length_cons, List.length_append, List.length_cons,
    e.2.hash.hashSize]
  omega

section Parse

variable {S : Type} {hashAlgo : HashAlgorithm} {hook : CanonPath → TreeEntry → S → Except Error S}

def callHook (hook : CanonPath → TreeEntry → S → Except Error S) (s : S) (e : Bytes × TreeEntry) :
    Except Error S := do
  let path ← CanonPath.ofRaw e.1
  hook path e.2 s

theorem ofNat_add_sub (a b : Nat) : UInt64.ofNat (a + b) - UInt64.ofNat a = UInt64.ofNat b := by
  rw [UInt64.ofNat_add, UInt64.add_comm, UInt64.add_sub_cancel]

theorem parseEntries_cons (halgo : hashAlgo = .sha1 ∨ hashAlgo = .sha256) {e : Bytes × TreeEntry}
    (hnul : (0 : UInt8) ∉ e.1) (he : e.2.hash.algo = hashAlgo) (fuel : Nat) {left : Nat}
    (hleft : (entryBytes e).length + left < 2 ^ 64) (rest : Bytes) (s : S) :
    parseEntries hashAlgo hook (fuel + 1) (UInt64.ofNat ((entryBytes e).length + left))
        (entryBytes e ++ rest) s =
      callHook hook s e >>= parseEntries hashAlgo hook fuel (UInt64.ofNat left) rest := by
  obtain ⟨name, mode, algo, hashs, hsize⟩ := e
  obtain rfl : algo = hashAlgo := he
  have hlen := length_entryBytes (name, ⟨mode, algo, hashs, hsize⟩)
  have hne : UInt64.ofNat ((entryBytes (name, ⟨mode, algo, hashs, hsize⟩)).length + left) ≠ 0 := by
    intro h
    have htoNat := congrArg UInt64.toNat h
    rw [UInt64.toNat_ofNat_of_lt' hleft] at htoNat
    simp only [hlen, UInt64.toNat_zero] at htoNat
    omega
  have hleft : UInt64.ofNat ((entryBytes (name, ⟨mode, algo, hashs, hsize⟩)).length + left) -
      UInt64.ofNat mode.octal.length - 1 - UInt64.ofNat name.length - 1 -
        UInt64.ofNat (regularHashSize algo) = UInt64.ofNat left := by
    rw [hlen, show mode.octal.length + 1 + (name.length + 1 + regularHashSize algo) + left =
      mode.octal.length + (1 + (name.length + (1 + (regularHashSize algo + left)))) by omega,
      ofNat_add_sub, show (1 : UInt64) = UInt64.ofNat 1 from rfl, ofNat_add_sub, ofNat_add_sub,
      ofNat_add_sub, ofNat_add_sub]
  have hbytes : entryBytes (name, ⟨mode, algo, hashs, hsize⟩) ++ rest =
      mode.octal ++ 32 :: (name ++ 0 :: (hashs ++ rest)) := by
    simp only [entryBytes, List.append_assoc, List.cons_append]
  rw [hbytes, parseEntries, if_neg hne, getStringUntil_append (notMem_octal mode)]
  simp only [bind, Except.bind, stoi_octal, decodeMode_raw, getStringUntil_append hnul,
    getString_append hsize, not_true_eq_false, halgo, if_false, hleft, callHook]
  cases CanonPath.ofRaw name <;> rfl

theorem parseEntries_flatMap (halgo : hashAlgo = .sha1 ∨ hashAlgo = .sha256)
    {entries : List (Bytes × TreeEntry)}
    (h : ∀ e ∈ entries, (0 : UInt8) ∉ e.1 ∧ e.2.hash.algo = hashAlgo)
    (hlen : (entries.flatMap entryBytes).length < 2 ^ 64) {fuel : Nat}
    (hfuel : entries.length < fuel) (rest : Bytes) (s : S) :
    parseEntries hashAlgo hook fuel (UInt64.ofNat (entries.flatMap entryBytes).length)
        (entries.flatMap entryBytes ++ rest) s = entries.foldlM (callHook hook) s := by
  induction entries generalizing fuel s with
  | nil =>
    obtain ⟨fuel, rfl⟩ := Nat.exists_eq_add_one_of_ne_zero (Nat.ne_of_gt hfuel)
    rw [List.flatMap_nil, List.length_nil, parseEntries,
      if_pos (show UInt64.ofNat 0 = 0 from rfl)]
    rfl
  | cons e entries ih =>
    obtain ⟨fuel, rfl⟩ := Nat.exists_eq_add_one_of_ne_zero (Nat.ne_of_gt (Nat.zero_lt_of_lt hfuel))
    obtain ⟨⟨hnul, halgo'⟩, h⟩ := List.forall_mem_cons.mp h
    rw [List.flatMap_cons, List.length_append] at hlen
    rw [List.flatMap_cons, List.length_append, List.append_assoc,
      parseEntries_cons halgo hnul halgo' fuel hlen, List.foldlM_cons]
    refine congrArg (callHook hook s e >>= ·) (funext fun s => ?_)
    exact ih h (Nat.lt_of_le_of_lt (Nat.le_add_left _ _) hlen) (Nat.lt_of_succ_lt_succ hfuel) s

end Parse

def blobObject (contents : Bytes) : Bytes :=
  str "blob " ++ (decimal contents.length ++ 0 :: contents)

def treeObject (body : Bytes) : Bytes :=
  str "tree " ++ (decimal body.length ++ 0 :: body)

section Parse

variable {S : Type} {xp : ExperimentalFeatureSettings} {sink : FileSystemObjectSink S}
  {hashAlgo : HashAlgorithm} {hook : CanonPath → TreeEntry → S → Except Error S}

def createBlob (sink : FileSystemObjectSink S) (mode : Mode) (path : CanonPath) (contents : Bytes)
    (s : S) : Except Error S :=
  match mode with
  | .regular => sink.createRegularFile path false contents s
  | .executable => sink.createRegularFile path true contents s
  | .symlink => sink.createSymlink path contents s
  | .directory => .error (.assertion "false")

theorem parseObjectType_blob (hxp : xp .gitHashing = true) (rest : Bytes) :
    parseObjectType xp (str "blob " ++ rest) = .ok (.blob, rest) := by
  have hrequire : xp.require .gitHashing = .ok () :=
    ExperimentalFeatureSettings.require_eq_ok.mpr hxp
  rw [parseObjectType, hrequire, getString_append (show (str "blob ").length = 5 from rfl)]
  rfl

theorem parseObjectType_tree (hxp : xp .gitHashing = true) (rest : Bytes) :
    parseObjectType xp (str "tree " ++ rest) = .ok (.tree, rest) := by
  have hrequire : xp.require .gitHashing = .ok () :=
    ExperimentalFeatureSettings.require_eq_ok.mpr hxp
  rw [parseObjectType, hrequire, getString_append (show (str "tree ").length = 5 from rfl)]
  rfl

theorem toUnsigned_natCast {n : Nat} (h : n < 2 ^ 31) : toUnsigned 64 (n : Int) = n := by
  rw [toUnsigned]
  omega

/-- A blob is read if its size fits into an `int`. -/
theorem parse_blobObject (hxp : xp .gitHashing = true) (path : CanonPath) (contents : Bytes)
    (mode : Mode) (s : S) :
    parse xp sink hashAlgo hook path (blobObject contents) mode s =
      if contents.length < 2 ^ 31 then createBlob sink mode path contents s
      else .error ⟨.error, ⟨"stoi: out of range", []⟩⟩ := by
  have hrequire : xp.require .gitHashing = .ok () :=
    ExperimentalFeatureSettings.require_eq_ok.mpr hxp
  rw [parse, blobObject, hrequire, parseObjectType_blob hxp]
  show parseBlob xp sink path mode _ s = _
  rw [parseBlob, hrequire, getStringUntil_append (nul_notMem_decimal _)]
  simp only [bind, Except.bind, stoi_decimal]
  by_cases h : contents.length < 2 ^ 31
  · simp only [if_pos h]
    have hget := getString_append (toUnsigned_natCast h).symm []
    rw [List.append_nil] at hget
    cases mode <;> simp only [hget, createBlob]
  · simp only [if_neg h]

/-- A tree is read if its size fits into an `int`. -/
theorem parse_treeObject (hxp : xp .gitHashing = true)
    (halgo : hashAlgo = .sha1 ∨ hashAlgo = .sha256) {entries : List (Bytes × TreeEntry)}
    (h : ∀ e ∈ entries, (0 : UInt8) ∉ e.1 ∧ e.2.hash.algo = hashAlgo) (path : CanonPath)
    (mode : Mode) (s : S) :
    parse xp sink hashAlgo hook path (treeObject (entries.flatMap entryBytes)) mode s =
      if (entries.flatMap entryBytes).length < 2 ^ 31 then
        sink.createDirectory path s >>= entries.foldlM (callHook hook)
      else .error ⟨.error, ⟨"stoi: out of range", []⟩⟩ := by
  have hrequire : xp.require .gitHashing = .ok () :=
    ExperimentalFeatureSettings.require_eq_ok.mpr hxp
  rw [parse, treeObject, hrequire, parseObjectType_tree hxp]
  show parseTree sink hashAlgo hook path _ s = _
  rw [parseTree, getStringUntil_append (nul_notMem_decimal _)]
  simp only [bind, Except.bind, stoi_decimal]
  by_cases hsize : (entries.flatMap entryBytes).length < 2 ^ 31
  · have hfuel : entries.length < (entries.flatMap entryBytes).length + 1 := by
      refine Nat.lt_succ_of_le ?_
      rw [List.length_flatMap]
      refine le_of_eq_of_le ?_ (List.length_le_sum_of_one_le _ fun n hn => ?_)
      · rw [List.length_map]
      · obtain ⟨e, -, rfl⟩ := List.mem_map.mp hn
        rw [length_entryBytes]
        omega
    simp only [if_pos hsize, toUnsigned_natCast hsize]
    cases sink.createDirectory path s with
    | error e => rfl
    | ok s =>
      have hparse := @parseEntries_flatMap S hashAlgo hook halgo entries h (by omega) _ hfuel [] s
      rwa [List.append_nil] at hparse
  · simp only [if_neg hsize]

end Parse

end Nix.Util.GitObjects
