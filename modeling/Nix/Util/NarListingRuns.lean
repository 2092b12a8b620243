import Nix.Util.ArchiveSkip
import Nix.Util.NarListings

/-!
The listing of a NAR points to the contents of its files.
-/

set_option linter.dupNamespace false

namespace Nix.Util.NarListings

open Util.Types Util.Serialise Util.StringSource Util.CanonPaths Util.CanonPathComponents
  Util.Archive Util.ArchiveGrammar Util.ArchiveRoundTrip Util.ArchiveSkip Util.ArchivePositions
open Util.MemorySinks (components)
open Lib.SortedList Lib.PrefixReader

/-- The indexer has counted what is gone from a string of the given length. -/
def Counted (total : Nat) (s : Bytes) (t : Bytes × Nat) : Prop :=
  t.1 = s ∧ s.length + t.2 = total

variable {total : Nat}

theorem sourceRel_indexerSource (h : total < 2 ^ 64) :
    SourceRel (Counted total) stringSource (indexerSource stringSource) where
  read len := by
    rintro s ⟨_, pos⟩ ⟨rfl, hpos⟩
    dsimp only at hpos
    dsimp only [indexerSource, stringSource]
    split
    · rfl
    · refine ⟨rfl, rfl, ?_⟩
      rw [List.length_drop, List.length_take]
      dsimp only
      omega
  skip left := by
    rintro s ⟨_, pos⟩ ⟨rfl, hpos⟩
    dsimp only at hpos
    dsimp only [skipLeft, indexerSource, stringSource]
    split_ifs with hleft hlt
    · exact ⟨rfl, rfl, hpos⟩
    · rfl
    · refine ⟨rfl, rfl, ?_⟩
      dsimp only
      rw [List.length_drop]
      omega
  unread := by
    rintro s ⟨_, pos⟩ ⟨rfl, -⟩
    rfl

/-- The position at which a string of the given length still holds `s`. -/
def position (total : Nat) (s : Bytes) : Nat := total - s.length

theorem sinkRel_indexerSink :
    SinkRel (Counted total) Eq (indexerSink (position total)) (indexerSink Prod.snd) where
  skipContents := rfl
  regular := by
    rintro isExecutable size _ ⟨s, pos⟩ contents ⟨rfl, hpos⟩
    have hposition : position total s = pos := by
      dsimp only at hpos
      rw [position]
      omega
    dsimp only [indexerSink]
    rw [hposition]
  directory es es' h := by
    have heq : es = es' := by
      rw [← List.forall₂_eq_eq_eq]
      exact h.imp fun e e' he => Prod.ext he.1 he.2
    rw [heq]
    rfl
  symlink _ := rfl

theorem parseNarListing_eq {node : Node} {nar : Bytes} (hnar : nar = archiveBytes node)
    (h : node.Valid false (ContentsOk true) narMaxDepth) (hlen : nar.length < 2 ^ 64) :
    parseNarListing stringSource nar =
      .ok (Node.index (listingSink (position nar.length)) node []) := by
  have hparse := @parseDump_index _ (indexerSink (position nar.length)) _ h []
  rw [List.append_nil, ← hnar] at hparse
  have hrel := simulates_parseDump false (sourceRel_indexerSource hlen) sinkRel_indexerSink
    nar (nar, 0) ⟨rfl, Nat.add_zero _⟩
  obtain ⟨parents, hcalls⟩ := (makesMember_index (position nar.length) h []).root
  rw [hparse] at hrel
  rw [parseNarListing]
  cases hindexer : parseDump false (indexerSink Prod.snd) (indexerSource stringSource)
      (nar, 0) with
  | error e => rw [hindexer] at hrel; exact hrel.elim
  | ok r =>
    rw [hindexer] at hrel
    obtain ⟨calls, t⟩ := r
    obtain ⟨rfl, -⟩ := hrel
    simp only [bind, Except.bind, hcalls]
    rfl

mutual

/-- The listing has the structure, the executable bits and the targets of the tree, and the
contents of its files are where it says. -/
def Indexes (nar : Bytes) : FileTree → NarListing → Prop
  | .regular isExecutable contents, .regular executable ⟨some fileSize, some narOffset⟩ =>
      executable = isExecutable ∧ fileSize = contents.data.length ∧
        narOffset + fileSize ≤ nar.length ∧ (nar.drop narOffset).take fileSize = contents.data
  | .directory entries, .directory members => IndexesEntries nar entries members
  | .symlink target, .symlink target' => target' = target
  | _, _ => False

def IndexesEntries (nar : Bytes) :
    List (Bytes × FileTree) → List (Bytes × NarListing) → Prop
  | [], [] => True
  | (name, tree) :: entries, (name', member) :: members =>
      name' = name ∧ Indexes nar tree member ∧ IndexesEntries nar entries members
  | _, _ => False

end

@[elab_as_elim]
theorem indexes_cases {nar : Bytes} {motive : FileTree → NarListing → Prop} {tree : FileTree}
    {member : NarListing} (h : Indexes nar tree member)
    (regular : ∀ (isExecutable : Bool) (contents : FileContents) (narOffset : Nat),
      narOffset + contents.data.length ≤ nar.length →
      (nar.drop narOffset).take contents.data.length = contents.data →
      motive (.regular isExecutable contents)
        (.regular isExecutable ⟨some contents.data.length, some narOffset⟩))
    (directory : ∀ entries members, IndexesEntries nar entries members →
      motive (.directory entries) (.directory members))
    (symlink : ∀ target, motive (.symlink target) (.symlink target)) :
    motive tree member := by
  cases tree with
  | regular isExecutable contents =>
    cases member with
    | regular executable listed =>
      obtain ⟨_ | fileSize, _ | narOffset⟩ := listed
      · exact h.elim
      · exact h.elim
      · exact h.elim
      · obtain ⟨rfl, rfl, hle, hcontents⟩ := h
        exact regular _ _ _ hle hcontents
    | directory => exact h.elim
    | symlink => exact h.elim
  | directory entries =>
    cases member with
    | directory members => exact directory _ _ h
    | regular => exact h.elim
    | symlink => exact h.elim
  | symlink target =>
    cases member with
    | symlink target' =>
      obtain rfl : target' = target := h
      exact symlink _
    | directory => exact h.elim
    | regular => exact h.elim
  | unsupported => cases member <;> exact h.elim

theorem drop_position {nar s : Bytes} (h : s <:+ nar) : nar.drop (position nar.length s) = s :=
  (List.suffix_iff_eq_drop.mp h).symm

theorem indexes_index {nar start : Bytes} {levels : Nat} {node : Node} {after : Bytes}
    (h : node.Valid false (ContentsOk false) levels) (hsuffix : node.bytes ++ after <:+ nar) :
    Indexes nar (node.build false memorySink start)
      (Node.index (listingSink (position nar.length)) node after) := by
  induction levels generalizing node after with
  | zero => exact h.elim
  | succ levels ih =>
    cases node with
    | regular isExecutable data pad =>
      obtain ⟨⟨hlt, -⟩, -⟩ := h
      have hstart : data ++ (pad ++ (tokens [str ")"] ++ after)) <:+ nar := by
        refine List.IsSuffix.trans ⟨tokens [str "(", str "type", str "regular"] ++
          (executableTokens isExecutable ++ (tokens [str "contents"] ++
            writeUint64 data.length)), ?_⟩ hsuffix
        simp [Node.bytes]
      have hle := hstart.length_le
      refine ⟨rfl, ?_, ?_, ?_⟩
      · exact congrArg List.length (FileContents.data_ofBytes hlt).symm
      · rw [position]
        rw [List.length_append] at hle ⊢
        omega
      · refine Eq.trans ?_ (FileContents.data_ofBytes hlt).symm
        rw [drop_position hstart, List.take_left]
    | directory entries =>
      obtain ⟨hsorted, -, hall⟩ := h
      rw [build_directory hsorted]
      have hentries : entriesBytes entries ++ (tokens [str ")"] ++ after) <:+ nar := by
        refine List.IsSuffix.trans ⟨tokens [str "(", str "type", str "directory"], ?_⟩ hsuffix
        simp [Node.bytes]
      show IndexesEntries nar (buildEntries false memorySink start entries)
        (indexEntries (listingSink (position nar.length)) entries (tokens [str ")"] ++ after))
      clear hsorted hsuffix
      induction entries with
      | nil => trivial
      | cons e entries ihe =>
        obtain ⟨⟨-, hnode⟩, hall⟩ := List.forall_mem_cons.mp hall
        refine ⟨rfl, ih hnode (List.IsSuffix.trans
          ⟨tokens [str "entry", str "(", str "name", e.1, str "node"], ?_⟩ hentries),
          ihe hall (List.IsSuffix.trans ⟨tokens [str "entry", str "(", str "name", e.1,
            str "node"] ++ (e.2.bytes ++ tokens [str ")"]), ?_⟩ hentries)⟩
        · simp [entriesBytes]
        · simp [entriesBytes]
    | symlink target => rfl

def lookup : FileTree → List Bytes → Option FileTree
  | tree, [] => some tree
  | .directory entries, name :: names =>
      match entries.find? (·.1 = name) with
      | some (_, child) => lookup child names
      | none => none
  | _, _ :: _ => none

/-- What `lstat` tells of a file. -/
def statOf : FileTree → Option Stat
  | .regular isExecutable contents =>
      some { type := .tRegular, fileSize := some contents.data.length, isExecutable }
  | .directory _ => some { type := .tDirectory }
  | .symlink _ => some { type := .tSymlink }
  | .unsupported => none

def namesOf : FileTree → Option (List Bytes)
  | .directory entries => some (entries.map Prod.fst)
  | _ => none

def contentsOf : FileTree → Option (Nat × Bytes)
  | .regular _ contents => some (contents.data.length, contents.data)
  | _ => none

def targetOf : FileTree → Option Bytes
  | .symlink target => some target
  | _ => none

/-- At a path the accessor answers as the tree does. -/
structure SameAccess (tree : FileTree) (accessor : NarAccessorImpl) (path : CanonPath) :
    Prop where
  maybeLstat : (accessor.maybeLstat path).map (fun stat => { stat with narOffset := none }) =
    (lookup tree (components path)).bind statOf
  readDirectory : (accessor.readDirectory path).toOption =
    (lookup tree (components path)).bind namesOf
  readFile : (accessor.readFile path).toOption =
    (lookup tree (components path)).bind contentsOf
  readLink : (accessor.readLink path).toOption =
    (lookup tree (components path)).bind targetOf

theorem find?_indexesEntries {nar : Bytes} {entries : List (Bytes × FileTree)}
    {members : List (Bytes × NarListing)} (h : IndexesEntries nar entries members)
    (name : Bytes) :
    Option.Rel (fun e m => Indexes nar e.2 m.2) (entries.find? (·.1 = name))
      (members.find? (·.1 = name)) := by
  induction entries generalizing members with
  | nil =>
    cases members with
    | nil => exact .none
    | cons => exact h.elim
  | cons e entries ih =>
    cases members with
    | nil => exact h.elim
    | cons m members =>
      obtain ⟨hname, hindexes, hrest⟩ := h
      rw [List.find?_cons, List.find?_cons, hname]
      split
      · exact .some hindexes
      · exact ih hrest

theorem map_fst_indexesEntries {nar : Bytes} {entries : List (Bytes × FileTree)}
    {members : List (Bytes × NarListing)} (h : IndexesEntries nar entries members) :
    members.map Prod.fst = entries.map Prod.fst := by
  induction entries generalizing members with
  | nil =>
    cases members with
    | nil => rfl
    | cons => exact h.elim
  | cons e entries ih =>
    cases members with
    | nil => exact h.elim
    | cons m members =>
      obtain ⟨hname, -, hrest⟩ := h
      rw [List.map_cons, List.map_cons, hname, ih hrest]

theorem findFrom_indexes {nar : Bytes} {names : List Bytes} {tree : FileTree}
    {member : NarListing} (h : Indexes nar tree member) :
    Option.Rel (Indexes nar) (lookup tree names) (NarAccessorImpl.findFrom member names) := by
  induction names generalizing tree member with
  | nil => exact .some h
  | cons name names ih =>
    refine indexes_cases h (fun _ _ _ _ _ => .none) ?_ (fun _ => .none)
    intro entries members hentries
    have hfind := find?_indexesEntries hentries name
    rw [lookup, NarAccessorImpl.findFrom]
    revert hfind
    generalize entries.find? (·.1 = name) = x
    generalize members.find? (·.1 = name) = y
    rintro (hindexes | -)
    · exact ih hindexes
    · exact .none

theorem getNarBytes_eq {accessor : NarAccessorImpl} {offset length : Nat}
    (h : offset + length ≤ accessor.nar.length) :
    accessor.getNarBytes offset length = .ok ((accessor.nar.drop offset).take length) := by
  rw [NarAccessorImpl.getNarBytes, if_neg]
  omega

theorem toOption_get_bind {α : Type} {accessor : NarAccessorImpl} {path : CanonPath}
    {x : Option FileTree} (hfind : Option.Rel (Indexes accessor.nar) x (accessor.find path))
    {f : NarListing → Except Error α} {g : FileTree → Option α}
    (hfg : ∀ tree member, Indexes accessor.nar tree member → (f member).toOption = g tree) :
    (accessor.get path >>= f).toOption = x.bind g := by
  rw [NarAccessorImpl.get]
  generalize accessor.find path = y at hfind
  cases hfind with
  | none => rfl
  | some hindexes => exact hfg _ _ hindexes

theorem sameAccess {tree : FileTree} {accessor : NarAccessorImpl}
    (h : Indexes accessor.nar tree accessor.root) (path : CanonPath) :
    SameAccess tree accessor path := by
  have hfind : Option.Rel (Indexes accessor.nar) (lookup tree (components path))
      (accessor.find path) := findFrom_indexes h
  constructor
  case maybeLstat =>
    rw [NarAccessorImpl.maybeLstat]
    generalize lookup tree (components path) = x at hfind
    generalize accessor.find path = y at hfind
    cases hfind with
    | none => rfl
    | some hindexes =>
      exact indexes_cases hindexes (fun _ _ _ _ _ => rfl) (fun _ _ _ => rfl) (fun _ => rfl)
  case readDirectory =>
    refine toOption_get_bind hfind fun tree' member hindexes => ?_
    refine indexes_cases hindexes (fun _ _ _ _ _ => rfl) ?_ (fun _ => rfl)
    intro entries members hentries
    exact congrArg some (map_fst_indexesEntries hentries)
  case readFile =>
    refine toOption_get_bind hfind fun tree' member hindexes => ?_
    refine indexes_cases hindexes ?_ (fun _ _ _ => rfl) (fun _ => rfl)
    intro isExecutable contents narOffset hle hcontents
    dsimp only
    rw [getNarBytes_eq hle, hcontents]
    rfl
  case readLink =>
    refine toOption_get_bind hfind fun tree' member hindexes => ?_
    exact indexes_cases hindexes (fun _ _ _ _ _ => rfl) (fun _ _ _ => rfl) (fun _ => rfl)

theorem length_bytes_le {entries : List (Bytes × Node)} {e : Bytes × Node} (he : e ∈ entries) :
    e.2.bytes.length ≤ (entriesBytes entries).length := by
  induction entries with
  | nil => cases he
  | cons e' entries ih =>
    rw [entriesBytes, List.length_append, List.length_append, List.length_append]
    rcases List.mem_cons.mp he with rfl | he
    · omega
    · have hle := ih he
      omega

theorem length_files_le {C : Bytes → Bytes → Prop} {levels : Nat} {node : Node}
    (h : node.Valid false C levels) :
    ∀ f ∈ Node.files node, f.1.length + 8 ≤ node.bytes.length := by
  induction levels generalizing node with
  | zero => exact h.elim
  | succ levels ih =>
    cases node with
    | regular isExecutable data pad =>
      refine List.forall_mem_singleton.mpr ?_
      rw [Node.bytes]
      simp only [List.length_append, writeUint64_length]
      omega
    | directory entries =>
      obtain ⟨-, -, hall⟩ := h
      intro f hf
      obtain ⟨e, he, hf⟩ := mem_entriesFiles.mp hf
      have hle := ih (hall e he).2 f hf
      have hbytes := length_bytes_le he
      rw [Node.bytes, List.length_append, List.length_append]
      omega
    | symlink target => exact fun f hf => absurd hf List.not_mem_nil

/-- The listing of the NAR of a tree indexes it, and the accessor of the NAR answers as the tree
does. The size of a `std::string` has 64 bits. -/
theorem makeNarAccessor_dumpPath {tree : FileTree} {path : CanonPath} {nar : Bytes}
    (hwf : WellFormed narMaxDepth tree) (hdump : dumpPath {} tree path = .ok nar)
    (hlen : nar.length < 2 ^ 64) :
    ∃ accessor, parseNarListing stringSource nar = .ok accessor.root ∧
      makeNarAccessor nar = .ok accessor ∧ accessor.nar = nar ∧
      Indexes nar tree accessor.root ∧ ∀ path, SameAccess tree accessor path := by
  obtain ⟨node, hvalid, rfl⟩ := exists_node [] hwf
  have hnar : nar = archiveBytes node :=
    Except.ok.inj (hdump.symm.trans (dumpPath_build rfl (fun _ => rfl) hvalid path))
  have hskipping : node.Valid false (ContentsOk true) narMaxDepth := by
    refine valid_skipping_iff.mpr ⟨(valid_reading_iff.mp hvalid).1, fun f hf => ?_⟩
    have hle := length_files_le hvalid f hf
    rw [hnar, archiveBytes, List.length_append] at hlen
    omega
  have hparse := parseNarListing_eq hnar hskipping hlen
  have hindexes : Indexes nar (node.build false memorySink ([] : Bytes))
      (Node.index (listingSink (position nar.length)) node []) := by
    refine indexes_index hvalid ⟨writeString narVersionMagic1, ?_⟩
    rw [List.append_nil, hnar]
    rfl
  refine ⟨⟨_, nar⟩, hparse, ?_, rfl, hindexes, sameAccess hindexes⟩
  rw [makeNarAccessor, hparse]
  rfl

set_option maxRecDepth 4000 in
theorem length_sampleTree :
    (dumpPath {} sampleTree CanonPath.root).toOption.map List.length = some 512 := by
  decide

/-- The file and the link of `sampleTree`. -/
theorem makeNarAccessor_dumpPath_sampleTree :
    ∃ nar, dumpPath {} sampleTree CanonPath.root = .ok nar ∧
      ∃ accessor, parseNarListing stringSource nar = .ok accessor.root ∧
        makeNarAccessor nar = .ok accessor ∧ accessor.nar = nar ∧
        Indexes nar sampleTree accessor.root ∧
        ∀ path, SameAccess sampleTree accessor path := by
  obtain ⟨nar, hdump, -⟩ :=
    (parseDump_dumpPath CanonPath.root).1 sampleTree [] wellFormed_sampleTree
  have hlen := length_sampleTree
  rw [hdump] at hlen
  have hlt : nar.length < 2 ^ 64 := (Option.some.inj hlen).trans_lt (by decide)
  exact ⟨nar, hdump, makeNarAccessor_dumpPath wellFormed_sampleTree hdump hlt⟩

end Nix.Util.NarListings
