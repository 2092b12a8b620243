import Nix.Util.GitObjects

/-!
The objects that a tree is dumped as.
-/

set_option linter.dupNamespace false

namespace Nix.Util.GitObjects

open Util.Types Util.CanonPaths Util.CanonPathComponents Util.Hashes Util.MemorySinks
open Util.Archive (FileTree FileContents)
open Lib.SortedList
open Nix.Lib
open Lib.PrefixReader (Reader)
open Lib.Results

def gitName (e : Bytes × TreeEntry) : Bytes :=
  if e.2.mode = .directory then e.1 ++ [slash] else e.1

def inGitOrder (entries : List (Bytes × TreeEntry)) : List (Bytes × TreeEntry) :=
  entries.foldl (fun m e => insertOver (compareOn gitName) e m) []

theorem gitName_injective {e e' : Bytes × TreeEntry} (he : slash ∉ e.1) (he' : slash ∉ e'.1)
    (h : gitName e = gitName e') : e.1 = e'.1 := by
  have hmem : ∀ {e : Bytes × TreeEntry} {name : Bytes}, slash ∉ name → name ≠ e.1 ++ [slash] :=
    fun hname heq => hname (heq ▸ List.mem_append_right _ List.mem_cons_self)
  unfold gitName at h
  split at h
  · split at h
    · exact List.append_cancel_right h
    · exact absurd h.symm (hmem he')
  · split at h
    · exact absurd h (hmem he)
    · exact h

theorem apart_gitName {entries : List (Bytes × TreeEntry)} (hslash : ∀ e ∈ entries, slash ∉ e.1)
    (hnodup : (entries.map Prod.fst).Nodup) : Apart (compareOn gitName) entries := by
  refine List.Pairwise.imp_of_mem ?_ (List.pairwise_map.mp hnodup)
  intro e e' he he' hne heq
  refine hne (gitName_injective (hslash e he) (hslash e' he') ?_)
  exact Std.LawfulEqOrd.eq_of_compare heq

theorem sorted_inGitOrder (entries : List (Bytes × TreeEntry)) :
    StrictlySorted (compareOn gitName) (inGitOrder entries) :=
  strictlySorted_foldl_insertOver .nil entries

def modeOf : FileTree → Mode
  | .regular isExecutable _ => if isExecutable then .executable else .regular
  | .directory _ => .directory
  | .symlink _ => .symlink
  | .unsupported => .regular

section Objects

variable (hashOf : Bytes → Hash)

mutual

def object : FileTree → Bytes
  | .regular _ contents => blobObject contents.data
  | .directory entries => treeObject ((inGitOrder (plainEntries entries)).flatMap entryBytes)
  | .symlink target => blobObject target
  | .unsupported => []

def plainEntries : List (Bytes × FileTree) → List (Bytes × TreeEntry)
  | [] => []
  | (name, file) :: entries =>
      (name, ⟨modeOf file, hashOf (object file)⟩) :: plainEntries entries

end

def entryOf (file : FileTree) : TreeEntry := ⟨modeOf file, hashOf (object hashOf file)⟩

mutual

/-- All objects of a tree, in the order in which they are dumped. -/
def objects : FileTree → List Bytes
  | .regular isExecutable contents => [object hashOf (.regular isExecutable contents)]
  | .directory entries => objectsOf entries ++ [object hashOf (.directory entries)]
  | .symlink target => [object hashOf (.symlink target)]
  | .unsupported => []

def objectsOf : List (Bytes × FileTree) → List Bytes
  | [] => []
  | (_, file) :: entries => objects file ++ objectsOf entries

end

end Objects

section Dump

variable {C : Type} {xp : ExperimentalFeatureSettings} {hashOf : Bytes → Hash}
  {keep : Hash → Bytes → C → C}

theorem plainEntries_eq_map (entries : List (Bytes × FileTree)) :
    plainEntries hashOf entries = entries.map fun e => (e.1, entryOf hashOf e.2) := by
  induction entries with
  | nil => rfl
  | cons e entries ih => rw [plainEntries, ih, List.map_cons, entryOf]

theorem hookChildren_eq_map (filter : Bytes → Bool) (entries : List (Bytes × FileTree)) :
    hookChildren xp filter hashOf keep entries =
      entries.map fun e => (e.1, dumpHook xp filter hashOf keep e.2) := by
  induction entries with
  | nil => rfl
  | cons e entries ih => rw [hookChildren, ih, List.map_cons]

theorem objectsOf_eq_flatMap (entries : List (Bytes × FileTree)) :
    objectsOf hashOf entries = entries.flatMap fun e => objects hashOf e.2 := by
  induction entries with
  | nil => rfl
  | cons e entries ih => rw [objectsOf, ih, List.flatMap_cons]

theorem object_directory (entries : List (Bytes × FileTree)) :
    object hashOf (.directory entries) =
      treeObject ((inGitOrder (entries.map fun e => (e.1, entryOf hashOf e.2))).flatMap
        entryBytes) := by
  rw [object, plainEntries_eq_map]

theorem treeBody_map (entries : List (Bytes × TreeEntry)) :
    treeBody (entries.map fun e => (gitName e, e.2)) = .ok (entries.flatMap entryBytes) := by
  induction entries with
  | nil => rfl
  | cons e entries ih =>
    obtain ⟨name, entry⟩ := e
    rw [List.map_cons, treeBody, ih, List.flatMap_cons, entryBytes]
    by_cases hmode : entry.mode = .directory
    · have hne : name ++ [slash] ≠ [] := by simp
      rw [gitName, if_pos hmode, if_pos hmode, if_neg hne,
        if_neg (not_not.mpr (List.getLast?_concat ..)), List.dropLast_concat]
      simp [bind, Except.bind, pure, Except.pure]
    · rw [gitName, if_neg hmode, if_neg hmode]
      simp [bind, Except.bind, pure, Except.pure]

theorem dumpTree_map (hxp : xp .gitHashing = true) (entries : List (Bytes × TreeEntry)) :
    dumpTree xp (entries.map fun e => (gitName e, e.2)) =
      .ok (treeObject (entries.flatMap entryBytes)) := by
  have hrequire : xp.require .gitHashing = .ok () :=
    ExperimentalFeatureSettings.require_eq_ok.mpr hxp
  rw [dumpTree, hrequire, treeBody_map]
  simp [treeObject, bind, Except.bind, pure, Except.pure]

theorem foldl_insertOver_gitName (entries acc : List (Bytes × TreeEntry)) :
    (entries.map fun e => (gitName e, e.2)).foldl (fun m e => insertOver (byKey compare) e m)
        (acc.map fun e => (gitName e, e.2)) =
      (entries.foldl (fun m e => insertOver (compareOn gitName) e m) acc).map
        fun e => (gitName e, e.2) :=
  foldl_insertOver_map _ entries acc

def keepAll (hashOf : Bytes → Hash) (keep : Hash → Bytes → C → C) (objects : List Bytes) (c : C) :
    C :=
  objects.foldl (fun c s => keep (hashOf s) s c) c

theorem dumpDirectory_eq {entries : List (Bytes × FileTree)} (path : CanonPath)
    (hnames : ∀ e ∈ entries, ValidComponent e.1)
    (hhook : ∀ e ∈ entries, ∀ child c, dumpHook xp (fun _ => true) hashOf keep e.2 child c =
      .ok (entryOf hashOf e.2, keepAll hashOf keep (objects hashOf e.2) c))
    (acc : Tree) (c : C) :
    dumpDirectory (fun _ => true) path
        (entries.map fun e => (e.1, dumpHook xp (fun _ => true) hashOf keep e.2)) acc c =
      .ok ((entries.map fun e => (gitName (e.1, entryOf hashOf e.2), entryOf hashOf e.2)).foldl
        (fun m e => insertOver (byKey compare) e m) acc,
        keepAll hashOf keep (objectsOf hashOf entries) c) := by
  induction entries generalizing acc c with
  | nil => rfl
  | cons e entries ih =>
    obtain ⟨hname, hnames⟩ := List.forall_mem_cons.mp hnames
    obtain ⟨he, hhook⟩ := List.forall_mem_cons.mp hhook
    obtain ⟨child, hchild⟩ := exists_push path hname
    have hkeep : keepAll hashOf keep (objectsOf hashOf (e :: entries)) c =
        keepAll hashOf keep (objectsOf hashOf entries)
          (keepAll hashOf keep (objects hashOf e.2) c) := List.foldl_append
    rw [List.map_cons, dumpDirectory, PrefixReader.bind_apply, PrefixReader.fromExcept, hchild]
    show (dumpHook xp (fun _ => true) hashOf keep e.2 child >>= _) c = _
    rw [PrefixReader.bind_apply, he]
    show dumpDirectory (fun _ => true) path _ _ _ = _
    rw [ih hnames hhook, hkeep]
    rfl

theorem dump_directory (hxp : xp .gitHashing = true) {entries : List (Bytes × FileTree)}
    (path : CanonPath) (hnames : ∀ e ∈ entries, ValidComponent e.1)
    (hhook : ∀ e ∈ entries, ∀ child c, dumpHook xp (fun _ => true) hashOf keep e.2 child c =
      .ok (entryOf hashOf e.2, keepAll hashOf keep (objects hashOf e.2) c)) (c : C) :
    dump xp (fun _ => true) (.directory entries)
        (hookChildren xp (fun _ => true) hashOf keep entries) path c =
      .ok ((.directory, object hashOf (.directory entries)),
        keepAll hashOf keep (objectsOf hashOf entries) c) := by
  have hfold := foldl_insertOver_gitName (entries.map fun e => (e.1, entryOf hashOf e.2)) []
  rw [List.map_map] at hfold
  have hdirectory := dumpDirectory_eq path hnames hhook [] c
  have htree := dumpTree_map hxp (inGitOrder (entries.map fun e => (e.1, entryOf hashOf e.2)))
  rw [← object_directory] at htree
  rw [dump, hookChildren_eq_map, PrefixReader.bind_apply, hdirectory]
  show (PrefixReader.fromExcept (dumpTree xp _) >>= _) _ = _
  rw [PrefixReader.bind_apply, PrefixReader.fromExcept]
  refine (congrArg (fun tree => (Except.map _ (dumpTree xp tree)).bind _) hfold).trans ?_
  show (Except.map _ (dumpTree xp ((inGitOrder _).map _))).bind _ = _
  rw [htree]
  rfl

theorem dumpHook_eq (hxp : xp .gitHashing = true) {tree : FileTree} (h : IsTree tree)
    (hdots : NoDots tree) (path : CanonPath) (c : C) :
    dumpHook xp (fun _ => true) hashOf keep tree path c =
      .ok (entryOf hashOf tree, keepAll hashOf keep (objects hashOf tree) c) := by
  have hrequire : xp.require .gitHashing = .ok () :=
    ExperimentalFeatureSettings.require_eq_ok.mpr hxp
  induction h generalizing path c with
  | regular isExecutable contents =>
    rw [dumpHook, hashObject, dump, PrefixReader.bind_apply, PrefixReader.fromExcept,
      dumpBlobPrefix, hrequire]
    simp [bind, Except.bind, pure, Except.pure, Except.map, entryOf, modeOf, object, objects,
      keepAll, blobObject]
    rfl
  | symlink target =>
    rw [dumpHook, hashObject, dump, PrefixReader.bind_apply, PrefixReader.fromExcept,
      dumpBlobPrefix, hrequire]
    simp [bind, Except.bind, pure, Except.pure, Except.map, entryOf, modeOf, object, objects,
      keepAll, blobObject]
    rfl
  | @directory entries sorted names children ih =>
    have hkeep : keepAll hashOf keep (objects hashOf (.directory entries)) c =
        keep (hashOf (object hashOf (.directory entries))) (object hashOf (.directory entries))
          (keepAll hashOf keep (objectsOf hashOf entries) c) := by
      rw [objects, keepAll, List.foldl_append]
      rfl
    rw [dumpHook, hashObject, dump_directory hxp path (IsTree.validComponent names hdots)
      (fun e he child c => ih e he (hdots.child he) child c), hkeep]
    rfl

theorem dumpDirectory_eq_ok {path : CanonPath}
    {children : List (Bytes × (CanonPath → Reader C Error TreeEntry))} {acc : Tree} {c : C}
    {r : Tree × C} (h : dumpDirectory (fun _ => true) path children acc c = .ok r) :
    ∀ child ∈ children, (∃ p, path.push child.1 = .ok p) ∧ ∃ p c r, child.2 p c = .ok r := by
  induction children generalizing acc c with
  | nil => exact List.forall_mem_nil _
  | cons child children ih =>
    obtain ⟨name, hook⟩ := child
    rw [dumpDirectory] at h
    obtain ⟨p, c', hpush, h⟩ := PrefixReader.bind_eq_ok.mp h
    obtain ⟨_, hpush, -⟩ := map_eq_ok.mp hpush
    obtain ⟨entry, c'', hhook, h⟩ := PrefixReader.bind_eq_ok.mp h
    exact List.forall_mem_cons.mpr ⟨⟨⟨_, hpush⟩, _, _, _, hhook⟩, ih h⟩

theorem exists_of_dump_directory {entries : List (Bytes × FileTree)} {path : CanonPath} {c : C}
    {r : (Mode × Bytes) × C} (h : dump xp (fun _ => true) (.directory entries)
      (hookChildren xp (fun _ => true) hashOf keep entries) path c = .ok r) :
    ∀ e ∈ entries, (e.1 ≠ str "." ∧ e.1 ≠ str "..") ∧
      ∃ p c r, dumpHook xp (fun _ => true) hashOf keep e.2 p c = .ok r := by
  rw [dump, hookChildren_eq_map] at h
  obtain ⟨_, _, hdirectory, -⟩ := PrefixReader.bind_eq_ok.mp h
  intro e he
  obtain ⟨⟨_, hpush⟩, hhook⟩ := List.forall_mem_map.mp (dumpDirectory_eq_ok hdirectory) e he
  obtain ⟨-, hdot, hdotdot, -⟩ := push_eq_ok hpush
  exact ⟨⟨hdot, hdotdot⟩, hhook⟩

theorem noDots_of_dumpHook {tree : FileTree} (h : IsTree tree) {path : CanonPath} {c : C}
    {r : TreeEntry × C} (hdump : dumpHook xp (fun _ => true) hashOf keep tree path c = .ok r) :
    NoDots tree := by
  induction h generalizing path c r with
  | regular isExecutable contents => exact fun entries hsub => nomatch hsub
  | symlink target => exact fun entries hsub => nomatch hsub
  | @directory entries sorted names children ih =>
    rw [dumpHook, hashObject] at hdump
    obtain ⟨_, hdump, -⟩ := map_eq_ok.mp hdump
    refine noDots_directory_iff.mpr fun e he => ?_
    obtain ⟨hdots, _, _, _, hhook⟩ := exists_of_dump_directory hdump e he
    exact ⟨hdots, ih e he hhook⟩

end Dump

end Nix.Util.GitObjects
