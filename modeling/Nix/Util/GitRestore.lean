import Nix.Util.GitRoundTrip

/-!
`restore` on the tree objects that `dump` produces.
-/

set_option linter.dupNamespace false

namespace Nix.Util.GitObjects

open Util.Types Util.CanonPaths Util.CanonPathComponents Util.Hashes Util.MemorySinks
open Util.Archive (FileTree FileContents)
open Lib.SortedList Lib.TreeContexts Lib.Results

/-- The hook of `dumpHash`, which keeps no objects. -/
def dumpHash (xp : ExperimentalFeatureSettings) (hashOf : Bytes → Hash) (file : FileTree)
    (path : CanonPath) : Except Error TreeEntry :=
  Prod.fst <$> dumpHook xp (fun _ => true) hashOf (fun _ _ c => c) file path ()

/-- The tree object of a directory, whose entries are hashed by `dumpHash`. -/
def dumpTop (xp : ExperimentalFeatureSettings) (hashOf : Bytes → Hash)
    (entries : List (Bytes × FileTree)) : Except Error (Mode × Bytes) :=
  Prod.fst <$> dump xp (fun _ => true) (.directory entries)
    (hookChildren xp (fun _ => true) hashOf (fun _ _ c => c) entries) CanonPath.root ()

/-- Every entry has an accessor under the hash that it was dumped with. -/
def HoldsChildren (xp : ExperimentalFeatureSettings) (hashOf : Bytes → Hash) (hook : RestoreHook)
    (entries : List (Bytes × FileTree)) : Prop :=
  ∀ e ∈ entries, ∀ path entry, dumpHash xp hashOf e.2 path = .ok entry →
    ∃ fromPath, hook entry.hash = .ok (e.2, fromPath)

/-- A directory is dumped, and `restore` gives its sink the same directory. -/
def Restores (xp : ExperimentalFeatureSettings) (hashAlgo : HashAlgorithm)
    (hashOf : Bytes → Hash) (hook : RestoreHook) (entries : List (Bytes × FileTree)) : Prop :=
  ∃ s, dumpTop xp hashOf entries = .ok (.directory, s) ∧
    restore xp memorySink hashAlgo s hook none = .ok (some (.directory entries))

def IsExecutable : FileTree → Prop
  | .regular isExecutable _ => isExecutable = true
  | _ => False

section Restore

variable {xp : ExperimentalFeatureSettings} {hashAlgo : HashAlgorithm} {hashOf : Bytes → Hash}
  {hook : RestoreHook}

theorem convertMode_eq_iff {file : FileTree} (h : IsTree file) :
    convertMode file = some (modeOf file) ↔ ¬IsExecutable file := by
  cases h with
  | regular isExecutable contents => cases isExecutable <;> simp [convertMode, modeOf, IsExecutable]
  | directory => simp [convertMode, modeOf, IsExecutable]
  | symlink target => simp [convertMode, modeOf, IsExecutable]

theorem restoreEntry_eq {S : Type} {sink : FileSystemObjectSink S} {file : FileTree}
    (h : IsTree file) {fromPath : CanonPath}
    (hhook : hook (hashOf (object hashOf file)) = .ok (file, fromPath)) (name : CanonPath) (s : S) :
    (¬IsExecutable file → restoreEntry sink hook name (entryOf hashOf file) s =
      copyRecursive sink file fromPath name s) ∧
    (IsExecutable file → ∃ e, restoreEntry sink hook name (entryOf hashOf file) s = .error e) := by
  rw [restoreEntry, entryOf, hhook]
  constructor
  · intro hnot
    simp only [bind, Except.bind, (convertMode_eq_iff h).mpr hnot, ne_eq, not_true_eq_false,
      if_false]
  · intro hexec
    cases h with
    | regular isExecutable contents =>
      obtain rfl : isExecutable = true := hexec
      exact ⟨_, rfl⟩
    | directory => exact hexec.elim
    | symlink target => exact hexec.elim

theorem dumpHash_eq (hxp : xp .gitHashing = true) {file : FileTree} (h : IsTree file)
    (hdots : NoDots file) (path : CanonPath) :
    dumpHash xp hashOf file path = .ok (entryOf hashOf file) := by
  rw [dumpHash, dumpHook_eq hxp h hdots]
  rfl

theorem dumpTop_eq (hxp : xp .gitHashing = true) {entries : List (Bytes × FileTree)}
    (h : IsTree (.directory entries)) (hdots : NoDots (.directory entries)) :
    dumpTop xp hashOf entries = .ok (.directory, object hashOf (.directory entries)) := by
  cases h with
  | directory sorted names children =>
    rw [dumpTop, dump_directory hxp CanonPath.root (IsTree.validComponent names hdots)
      fun e he child c => dumpHook_eq hxp (children e he) (hdots.child he) child c]
    rfl

/-- What `restore` does with the object of a directory. -/
theorem restore_object (hxp : xp .gitHashing = true)
    (halgo : hashAlgo = .sha1 ∨ hashAlgo = .sha256) (hhash : ∀ s, (hashOf s).algo = hashAlgo)
    {entries order : List (Bytes × FileTree)}
    (sorted : StrictlySorted compare (entries.map Prod.fst))
    (names : ∀ e ∈ entries, e.1 ≠ [] ∧ slash ∉ e.1 ∧ (0 : UInt8) ∉ e.1)
    (horder : inGitOrder (entries.map fun e => (e.1, entryOf hashOf e.2)) =
      order.map fun e => (e.1, entryOf hashOf e.2)) (s : Root) :
    restore xp memorySink hashAlgo (object hashOf (.directory entries)) hook s =
      if treeSize hashAlgo entries < 2 ^ 31 then
        memorySink.createDirectory CanonPath.root s >>=
          (order.map fun e => (e.1, entryOf hashOf e.2)).foldlM
            (callHook (restoreEntry memorySink hook))
      else .error ⟨.error, ⟨"stoi: out of range", []⟩⟩ := by
  rw [restore, object_directory,
    parse_treeObject hxp halgo (readable_inGitOrder hhash sorted names),
    length_flatMap_inGitOrder hhash sorted names, horder]

theorem exists_hook (hxp : xp .gitHashing = true) {entries : List (Bytes × FileTree)}
    (children : ∀ e ∈ entries, IsTree e.2) (hhook : HoldsChildren xp hashOf hook entries)
    (hdots : NoDots (.directory entries)) :
    ∀ e ∈ entries, ∃ fromPath, hook (hashOf (object hashOf e.2)) = .ok (e.2, fromPath) :=
  fun e he => hhook e he CanonPath.root _ (dumpHash_eq hxp (children e he) (hdots.child he) _)

theorem condition_of_restores (hxp : xp .gitHashing = true)
    (halgo : hashAlgo = .sha1 ∨ hashAlgo = .sha256) (hhash : ∀ s, (hashOf s).algo = hashAlgo)
    {entries : List (Bytes × FileTree)} (h : IsTree (.directory entries))
    (hhook : HoldsChildren xp hashOf hook entries)
    (hrestores : Restores xp hashAlgo hashOf hook entries) :
    NoDots (.directory entries) ∧ treeSize hashAlgo entries < 2 ^ 31 ∧
      ∀ e ∈ entries, ¬IsExecutable e.2 := by
  have htree := h
  obtain ⟨s, hdump, hrestore⟩ := hrestores
  cases h with
  | directory sorted names children =>
    have hdots : NoDots (.directory entries) := by
      obtain ⟨_, hdirectory, -⟩ := map_eq_ok.mp hdump
      refine noDots_directory_iff.mpr fun e he => ?_
      obtain ⟨hdots, _, _, _, hchild⟩ := exists_of_dump_directory hdirectory e he
      exact ⟨hdots, noDots_of_dumpHook (children e he) hchild⟩
    obtain ⟨-, rfl⟩ := Prod.mk.inj (Except.ok.inj ((dumpTop_eq hxp htree hdots).symm.trans hdump))
    obtain ⟨order, hperm, horder⟩ := @exists_children hashOf entries sorted names
    rw [restore_object hxp halgo hhash sorted names horder] at hrestore
    split at hrestore
    next hsize =>
      refine ⟨hdots, hsize, fun e he hexec => ?_⟩
      obtain ⟨_, -, hfold⟩ := bind_eq_ok.mp hrestore
      obtain ⟨_, _, hstep⟩ := List.forall_mem_map.mp (foldlM_eq_ok hfold) e (hperm.symm.subset he)
      obtain ⟨name, -, hstep⟩ := bind_eq_ok.mp hstep
      obtain ⟨fromPath, hfrom⟩ := exists_hook hxp children hhook hdots e he
      obtain ⟨_, herror⟩ := (restoreEntry_eq (children e he) hfrom name _).2 hexec
      exact absurd (herror.symm.trans hstep) (by simp)
    next => cases hrestore

/-- `restore` undoes `dump` if and only if no name is `.` or `..`, the size of the tree object
fits into an `int` and no entry is an executable file. -/
theorem restores_iff (hxp : xp .gitHashing = true)
    (halgo : hashAlgo = .sha1 ∨ hashAlgo = .sha256) (hhash : ∀ s, (hashOf s).algo = hashAlgo)
    {entries : List (Bytes × FileTree)} (h : IsTree (.directory entries))
    (hhook : HoldsChildren xp hashOf hook entries) :
    Restores xp hashAlgo hashOf hook entries ↔
      NoDots (.directory entries) ∧ treeSize hashAlgo entries < 2 ^ 31 ∧
        ∀ e ∈ entries, ¬IsExecutable e.2 := by
  refine ⟨condition_of_restores hxp halgo hhash h hhook, ?_⟩
  rintro ⟨hdots, hsize, hexec⟩
  refine ⟨_, dumpTop_eq hxp h hdots, ?_⟩
  cases h with
  | directory sorted names children =>
    obtain ⟨order, hperm, horder⟩ := @exists_children hashOf entries sorted names
    have hvalid := IsTree.validComponent names hdots
    have hnodup : (([] ++ order).map Prod.fst).Nodup :=
      ((hperm.map Prod.fst).nodup_iff).mpr sorted.nodup
    have hroot : Above.Fresh [] := ⟨fun _ hc => absurd hc List.not_mem_nil, fresh_nil⟩
    rw [restore_object hxp halgo hhash sorted names horder, if_pos hsize]
    show List.foldlM _ (some (FileTree.directory [])) (order.map _) = _
    rw [List.foldlM_map]
    refine (@foldlM_insertOver _ _ compare _ _ _ _
      (fun entries => some (FileTree.directory entries)) order [] hnodup
      fun e he acc hnotMem => ?_).trans ?_
    · have hmem := hperm.subset he
      obtain ⟨fromPath, hfrom⟩ := exists_hook hxp children hhook hdots e hmem
      rw [callHook, ofRaw_of_valid (hvalid e hmem)]
      refine ((restoreEntry_eq (children e hmem) hfrom _ _).1 (hexec e hmem)).trans ?_
      exact (makes_copyRecursive (children e hmem) (hdots.child hmem) fromPath).child hroot
        (hvalid e hmem) hnotMem
    · rw [foldl_insertOver_of_perm (strictlySorted_byKey.mpr sorted) hperm]

def helloEntries (isExecutable : Bool) : List (Bytes × FileTree) :=
  [(str "a", .regular isExecutable (.ofBytes (str "hi")))]

def helloHook (isExecutable : Bool) : RestoreHook := fun hash =>
  if hash = hiHash then
    .ok (.regular isExecutable (.ofBytes (str "hi")), CanonPath.root)
  else .error ⟨.error, ⟨"no such object", []⟩⟩

theorem isTree_helloEntries (isExecutable : Bool) :
    IsTree (.directory (helloEntries isExecutable)) :=
  .directory (List.pairwise_singleton _ _)
    (List.forall_mem_singleton.mpr (by cases isExecutable <;> decide))
    (List.forall_mem_singleton.mpr (.regular _ _))

theorem noDots_helloEntries (isExecutable : Bool) :
    NoDots (.directory (helloEntries isExecutable)) :=
  noDots_directory_iff.mpr (List.forall_mem_singleton.mpr
    ⟨by cases isExecutable <;> decide, fun _ hsub => nomatch hsub⟩)

theorem holdsChildren_helloHook (isExecutable : Bool) :
    HoldsChildren (fun _ => true) hiHashes (helloHook isExecutable)
      (helloEntries isExecutable) := by
  refine List.forall_mem_singleton.mpr fun path entry hentry => ?_
  rw [dumpHash_eq rfl (.regular _ _) fun _ hsub => nomatch hsub] at hentry
  obtain rfl := Except.ok.inj hentry
  exact ⟨CanonPath.root, rfl⟩

theorem restores_iff_hello :
    Restores (fun _ => true) .sha1 hiHashes (helloHook false) (helloEntries false) :=
  (restores_iff rfl (.inl rfl) algo_hiHashes (isTree_helloEntries false)
    (holdsChildren_helloHook false)).mpr
      ⟨noDots_helloEntries false, by decide,
        List.forall_mem_singleton.mpr fun h : false = true => Bool.noConfusion h⟩

/-- An executable file is taken for one that is not. -/
theorem not_restores_executable :
    ¬Restores (fun _ => true) .sha1 hiHashes (helloHook true) (helloEntries true) := fun h =>
  (condition_of_restores rfl (.inl rfl) algo_hiHashes (isTree_helloEntries true)
    (holdsChildren_helloHook true) h).2.2 _ List.mem_cons_self rfl

end Restore

end Nix.Util.GitObjects
