import Nix.Util.Archive
import Nix.Util.ArchiveRoundTrip
import Nix.Util.MemorySinks

/-!
NAR listings: `parseNarListing`, and the accessor that reads files of a NAR by its listing.
-/

set_option linter.dupNamespace false

namespace Nix.Util.NarListings

open Util.Types Util.Serialise Util.CanonPaths Util.Archive
open Util.MemorySinks (components)
open Lib.SortedList Lib.PrefixReader

/-- `NarListingRegularFile`. -/
structure NarListingRegularFile where
  fileSize : Option Nat
  narOffset : Option Nat
  deriving DecidableEq

inductive NarListing
  | regular (executable : Bool) (contents : NarListingRegularFile)
  | directory (entries : List (Bytes × NarListing))
  | symlink (target : Bytes)

/-- A pointer to a member of a listing: the names that lead to it. -/
abbrev Pointer := List Bytes

/-- The members of a `NarIndexer`, with the top of the stack first. -/
structure NarIndexer where
  root : Option NarListing := none
  parents : List Pointer := []

/-- What is done with the member that a pointer points to. -/
def modify (use : NarListing → Except Error NarListing) :
    Pointer → NarListing → Except Error NarListing
  | [], member => use member
  | name :: names, .directory entries =>
      match entries.find? (·.1 = name) with
      | some (_, member) => do
          let member ← modify use names member
          return .directory (insertOver (byKey compare) (name, member) entries)
      | none => .error (.assertion "valid pointer")
  | _ :: _, _ => .error (.assertion "valid pointer")

def baseName (path : CanonPath) : Bytes :=
  match rfind slash path.path with
  | some i => path.path.drop (i + 1)
  | none => path.path

/-- `createMember`, and what its caller does with the member that it returns. -/
def createMember (path : CanonPath) (member : NarListing)
    (use : NarListing → Except Error NarListing) (indexer : NarIndexer) :
    Except Error NarIndexer := do
  let level := (components path).length
  match indexer.parents.drop (indexer.parents.length - level) with
  | [] => do
      let root ← use member
      return ⟨some root, [[]]⟩
  | top :: parents =>
      match indexer.root with
      | none => throw (.assertion "valid pointer")
      | some root => do
          let name := baseName path
          let root ← modify (fun parent =>
            match parent with
            | .directory entries =>
                match entries.find? (·.1 = name) with
                | some (_, old) => do
                    let old ← use old
                    return .directory (insertOver (byKey compare) (name, old) entries)
                | none => do
                    let new ← use member
                    return .directory (insertOver (byKey compare) (name, new) entries)
            | _ => throw ⟨.error, ⟨"NAR file missing parent directory of path '%s'", [path.path]⟩⟩)
            top root
          return ⟨some root, (top ++ [name]) :: top :: parents⟩

/-- The `Source` part, whose state is that of the other source and `pos`. -/
def indexerSource {σ : Type} (source : Source σ) : Source (σ × Nat) where
  read len s := (source.read len s.1).map fun r => (r.1, (r.2, (s.2 + r.1.length) % 2 ^ 64))
  skip len s := (source.skip len s.1).map fun t => (t, (s.2 + len) % 2 ^ 64)
  unread s := source.unread s.1

/-- What the calls for one object do, given its path. -/
abbrev Calls := CanonPath → NarIndexer → Except Error NarIndexer

def createEntries (path : CanonPath) (entries : List (Bytes × Calls)) (indexer : NarIndexer) :
    Except Error NarIndexer :=
  entries.foldlM (fun indexer e => do
    let child ← path.push e.1
    e.2 child indexer) indexer

/-- The `FileSystemObjectSink` part, where `pos` gives the position when `preallocateContents` is
called. A regular file is made with the size 0, and `preallocateContents` sets its size and its
offset. -/
def indexerSink {σ : Type} (pos : σ → Nat) : FileSystemObjectSink σ Calls where
  skipContents := true
  regular isExecutable size start _ path indexer :=
    createMember path (.regular false ⟨some 0, none⟩) (fun member =>
      match member with
      | .regular executable _ =>
          .ok (.regular (executable || isExecutable) ⟨some size, some (pos start)⟩)
      | _ => .error ⟨.error, ⟨"std::get: wrong index for variant", []⟩⟩) indexer
  directory entries path indexer := do
    let indexer ← createMember path (.directory []) pure indexer
    createEntries path entries indexer
  symlink target path indexer := createMember path (.symlink target) pure indexer

def parseNarListing {σ : Type} (source : Source σ) (s : σ) : Except Error NarListing := do
  let (calls, _) ← parseDump false (indexerSink Prod.snd) (indexerSource source) (s, 0)
  let indexer ← calls CanonPath.root {}
  match indexer.root with
  | some root => return root
  | none => throw (.assertion "indexer.root")

inductive FileType
  | tRegular
  | tSymlink
  | tDirectory
  deriving DecidableEq, Repr

/-- `SourceAccessor::Stat`. -/
structure Stat where
  type : FileType
  fileSize : Option Nat := none
  isExecutable : Bool := false
  narOffset : Option Nat := none
  deriving DecidableEq

structure NarAccessorImpl where
  root : NarListing
  nar : Bytes

def makeNarAccessor (nar : Bytes) : Except Error NarAccessorImpl := do
  let root ← parseNarListing stringSource nar
  return ⟨root, nar⟩

namespace NarAccessorImpl

variable (accessor : NarAccessorImpl)

def getNarBytes (offset length : Nat) : Except Error Bytes :=
  if offset > accessor.nar.length ∨ length > accessor.nar.length - offset then
    .error ⟨.error, ⟨"reading invalid NAR bytes range: requested %1% bytes at offset %2%, but NAR has size %3%",
      [decimal length, decimal offset, decimal accessor.nar.length]⟩⟩
  else .ok ((accessor.nar.drop offset).take length)

def findFrom : NarListing → List Bytes → Option NarListing
  | current, [] => some current
  | .directory entries, i :: path =>
      match entries.find? (·.1 = i) with
      | some (_, child) => findFrom child path
      | none => none
  | _, _ :: _ => none

def find (path : CanonPath) : Option NarListing := findFrom accessor.root (components path)

def get (path : CanonPath) : Except Error NarListing :=
  match accessor.find path with
  | some result => .ok result
  | none => .error ⟨.error, ⟨"NAR file does not contain path '%1%'", [path.path]⟩⟩

def maybeLstat (path : CanonPath) : Option Stat :=
  match accessor.find path with
  | some (.regular executable contents) =>
      some { type := .tRegular, fileSize := contents.fileSize, isExecutable := executable,
             narOffset := contents.narOffset }
  | some (.directory _) => some { type := .tDirectory }
  | some (.symlink _) => some { type := .tSymlink }
  | none => none

/-- The names of the entries, whose types are not given. -/
def readDirectory (path : CanonPath) : Except Error (List Bytes) := do
  match ← accessor.get path with
  | .directory entries => return entries.map Prod.fst
  | _ => throw ⟨.error, ⟨"path '%1%' inside NAR file is not a directory", [path.path]⟩⟩

def readFile (path : CanonPath) : Except Error (Nat × Bytes) := do
  match ← accessor.get path with
  | .regular _ ⟨some fileSize, some narOffset⟩ => do
      let contents ← accessor.getNarBytes narOffset fileSize
      return (fileSize, contents)
  | .regular _ _ => throw ⟨.error, ⟨"bad optional access", []⟩⟩
  | _ => throw ⟨.error, ⟨"path '%1%' inside NAR file is not a regular file", [path.path]⟩⟩

def readLink (path : CanonPath) : Except Error Bytes := do
  match ← accessor.get path with
  | .symlink target => return target
  | _ => throw ⟨.error, ⟨"path '%1%' inside NAR file is not a symlink", [path.path]⟩⟩

end NarAccessorImpl

/-!
The listing that the calls of a parser make, member by member.
-/

open Util.CanonPathComponents Util.ArchiveGrammar Util.ArchivePositions
open Util.MemorySinks (components components_ofComponents push_ofComponents)
open Lib.Delimited Lib.TreeContexts

def parentsOf (names : List Bytes) : List Pointer :=
  (List.range names.length).reverse.map names.take

theorem length_parentsOf (names : List Bytes) : (parentsOf names).length = names.length := by
  rw [parentsOf, List.length_map, List.length_reverse, List.length_range]

theorem parentsOf_append (names : List Bytes) (name : Bytes) :
    parentsOf (names ++ [name]) = names :: parentsOf names := by
  have htake : ∀ i ∈ (List.range names.length).reverse,
      (names ++ [name]).take i = names.take i := fun i hi =>
    List.take_append_of_le_length (List.mem_range.mp (List.mem_reverse.mp hi)).le
  rw [parentsOf, parentsOf, List.length_append, List.length_singleton, List.range_succ,
    List.reverse_append, List.reverse_singleton, List.singleton_append, List.map_cons,
    List.take_left, List.map_congr_left htake]

abbrev Above := Context Bytes NarListing

/-- The listing with a member in its place. -/
abbrev put (above : Above) (member : NarListing) : NarListing :=
  plug compare NarListing.directory above member

section Members

variable {above : Above}

theorem modify_put {use : NarListing → Except Error NarListing} {member member' : NarListing}
    (huse : use member = .ok member') :
    modify use (above.map Prod.fst) (put above member) = .ok (put above member') := by
  induction above with
  | nil => exact huse
  | cons p above ih =>
    obtain ⟨name, entries⟩ := p
    rw [List.map_cons, put, plug, modify, SortedMap.find?_insertOver, if_pos rfl]
    dsimp only
    rw [ih]
    exact congrArg (fun entries => Except.ok (NarListing.directory entries))
      (insertOver_insertOver name _ _ entries)

theorem baseName_ofComponents {cs : List Bytes} {c : Bytes} (h : Valid (cs ++ [c])) :
    baseName (ofComponents (cs ++ [c])) = c := by
  have hc : ValidComponent c := h c (List.mem_append_right _ List.mem_cons_self)
  have htext : (ofComponents (cs ++ [c])).path = join slash cs ++ slash :: c := by
    rw [ofComponents, render_of_ne_nil (by simp), join_append, join_cons, join_nil,
      List.append_nil]
  rw [baseName, htext, rfind_append_cons _ hc.no_slash]
  dsimp only
  rw [List.drop_append, List.drop_of_length_le (Nat.le_succ _), Nat.add_sub_cancel_left]
  rfl

/-- `createMember` when all that is above the member has been made. -/
theorem createMember_before (hvalid : Valid (above.map Prod.fst)) (hfresh : Fresh above)
    {use : NarListing → Except Error NarListing} {member member' : NarListing}
    (huse : use member = .ok member') (left : List Pointer) :
    createMember (ofComponents (above.map Prod.fst)) member use
        ⟨before compare NarListing.directory above, left ++ parentsOf (above.map Prod.fst)⟩ =
      .ok ⟨some (put above member'),
        above.map Prod.fst :: parentsOf (above.map Prod.fst)⟩ := by
  have hdrop : (left ++ parentsOf (above.map Prod.fst)).drop
      ((left ++ parentsOf (above.map Prod.fst)).length - (above.map Prod.fst).length) =
      parentsOf (above.map Prod.fst) := by
    rw [List.length_append, length_parentsOf, Nat.add_sub_cancel, List.drop_left]
  rw [createMember, components_ofComponents hvalid]
  dsimp only
  rw [hdrop]
  rcases List.eq_nil_or_concat above with rfl | ⟨up, ⟨name, entries⟩, rfl⟩
  · show (do
      let root ← use member
      return (⟨some root, [[]]⟩ : NarIndexer)) = _
    rw [huse]
    rfl
  · rw [List.concat_eq_append] at *
    have hfind : entries.find? (·.1 = name) = none := by
      refine List.find?_eq_none.mpr fun e he heq => ?_
      exact hfresh name entries List.getLast?_concat
        (List.mem_map.mpr ⟨e, he, of_decide_eq_true heq⟩)
    rw [before_append, put, plug_append]
    rw [List.map_append, List.map_singleton] at hvalid ⊢
    rw [parentsOf_append, baseName_ofComponents hvalid]
    dsimp only
    rw [@modify_put up _ (.directory entries)
      (.directory (insertOver (byKey compare) (name, member') entries))]
    · rfl
    · dsimp only
      rw [hfind]
      dsimp only
      rw [huse]
      rfl

end Members

/-- The calls put a member in its place and leave the stack above its parents. -/
def MakesMember (calls : Calls) (member : NarListing) : Prop :=
  ∀ above : Above, Valid (above.map Prod.fst) → Fresh above → ∀ left, ∃ left',
    calls (ofComponents (above.map Prod.fst))
        ⟨before compare NarListing.directory above, left ++ parentsOf (above.map Prod.fst)⟩ =
      .ok ⟨some (put above member), left' ++ parentsOf (above.map Prod.fst)⟩

theorem MakesMember.root {calls : Calls} {member : NarListing} (h : MakesMember calls member) :
    ∃ parents, calls CanonPath.root {} = .ok ⟨some member, parents⟩ := by
  obtain ⟨left, hcalls⟩ := h [] (fun _ hc => absurd hc List.not_mem_nil) fresh_nil []
  exact ⟨_, hcalls⟩

/-- The calls for one entry of a directory, and the member that they make. -/
structure MakesEntry (entry : Bytes × Calls) (member : Bytes × NarListing) : Prop where
  name : entry.1 = member.1
  valid : ValidComponent member.1
  makes : MakesMember entry.2 member.2

/-- The listing while the entries of a directory are made. -/
def Filled (above : Above) (entries : List (Bytes × NarListing)) (indexer : NarIndexer) : Prop :=
  ∃ left, indexer = ⟨some (put above (.directory entries)),
    left ++ parentsOf (above.map Prod.fst)⟩ ∧ left.getLast? = some (above.map Prod.fst)

theorem MakesEntry.filled {above : Above} {entry : Bytes × Calls} {member : Bytes × NarListing}
    (h : MakesEntry entry member) (hvalid : Valid (above.map Prod.fst))
    {entries : List (Bytes × NarListing)} {indexer : NarIndexer}
    (hnotMem : member.1 ∉ entries.map Prod.fst) (hfilled : Filled above entries indexer) :
    ∃ indexer', (do
        let child ← (ofComponents (above.map Prod.fst)).push entry.1
        entry.2 child indexer) = .ok indexer' ∧
      Filled above (insertOver (byKey compare) member entries) indexer' := by
  obtain ⟨left, rfl, hlast⟩ := hfilled
  obtain ⟨left, rfl⟩ := List.getLast?_eq_some_iff.mp hlast
  have hbelow : Valid ((above ++ [(member.1, entries)]).map Prod.fst) := by
    rw [List.map_append]
    exact Valid.append_iff.mpr ⟨hvalid, List.forall_mem_singleton.mpr h.valid⟩
  obtain ⟨left', hcalls⟩ := h.makes _ hbelow (fresh_append hnotMem) left
  rw [before_append, put, plug_append, List.map_append, List.map_singleton, parentsOf_append]
    at hcalls
  rw [h.name, push_ofComponents hvalid h.valid]
  refine ⟨_, ?_, left' ++ [above.map Prod.fst], rfl, List.getLast?_concat⟩
  rw [List.append_assoc, List.append_assoc]
  exact hcalls

theorem makesMember_createEntries {entries : List (Bytes × Calls)}
    {members : List (Bytes × NarListing)} (h : List.Forall₂ MakesEntry entries members)
    (hsorted : StrictlySorted compare (members.map Prod.fst)) :
    MakesMember (fun path indexer => do
      let indexer ← createMember path (.directory []) pure indexer
      createEntries path entries indexer) (.directory members) := by
  intro above hvalid hfresh left
  have hdirectory := @createMember_before above hvalid hfresh pure (.directory []) _ rfl left
  have hfilled : Filled above [] ⟨some (put above (.directory [])),
      above.map Prod.fst :: parentsOf (above.map Prod.fst)⟩ :=
    ⟨[above.map Prod.fst], rfl, rfl⟩
  have hsteps : List.Forall₂ (fun entry member => ∀ entries indexer,
      member.1 ∉ entries.map Prod.fst → Filled above entries indexer → ∃ indexer',
        (do let child ← (ofComponents (above.map Prod.fst)).push entry.1
            entry.2 child indexer) = .ok indexer' ∧
          Filled above (insertOver (byKey compare) member entries) indexer') entries members := by
    refine h.imp ?_
    intro entry member hmakes entries indexer hnotMem hfilled
    exact hmakes.filled hvalid hnotMem hfilled
  obtain ⟨_, hfold, left', rfl, -⟩ := @exists_foldlM_insertOver Bytes NarListing compare _ Error
    NarIndexer _ (fun indexer entry => do
      let child ← (ofComponents (above.map Prod.fst)).push entry.1
      entry.2 child indexer) (Filled above) entries members [] _ hsorted.nodup hsteps hfilled
  have hmembers : StrictlySorted (byKey compare) ([] ++ members) := strictlySorted_byKey.mpr hsorted
  rw [foldl_insertOver hmembers] at hfold
  refine ⟨left', ?_⟩
  dsimp only
  rw [hdirectory]
  exact hfold

def listingSink (pos : Bytes → Nat) : FileSystemObjectSink Bytes NarListing where
  skipContents := true
  regular isExecutable size start _ := .regular isExecutable ⟨some size, some (pos start)⟩
  directory := .directory
  symlink := .symlink

/-- `parse` makes the calls for the listing of what it parses. -/
theorem makesMember_index {C : Bytes → Bytes → Prop} (pos : Bytes → Nat) {levels : Nat}
    {node : Node} (h : node.Valid false C levels) (after : Bytes) :
    MakesMember (Node.index (indexerSink pos) node after)
      (Node.index (listingSink pos) node after) := by
  induction levels generalizing node after with
  | zero => exact h.elim
  | succ levels ih =>
    cases node with
    | regular isExecutable data pad =>
      intro above hvalid hfresh left
      refine ⟨[above.map Prod.fst], ?_⟩
      rw [Node.index, Node.index]
      dsimp only [indexerSink]
      refine createMember_before hvalid hfresh ?_ left
      rfl
    | directory entries =>
      obtain ⟨hsorted, -, hall⟩ := h
      have hentries : ∀ after, List.Forall₂ MakesEntry
          (indexEntries (indexerSink pos) entries after)
          (indexEntries (listingSink pos) entries after) := by
        intro after
        clear hsorted
        induction entries with
        | nil => exact .nil
        | cons e entries ihe =>
          obtain ⟨⟨hname, hnode⟩, hall⟩ := List.forall_mem_cons.mp hall
          exact .cons ⟨rfl, hname.component, ih hnode _⟩ (ihe hall)
      exact makesMember_createEntries (hentries _) (by rwa [map_fst_indexEntries])
    | symlink target =>
      intro above hvalid hfresh left
      exact ⟨[above.map Prod.fst], createMember_before hvalid hfresh rfl left⟩

end Nix.Util.NarListings
