import Nix.Util.GitDumps

/-!
Trees that are dumped as Git objects and read back.
-/

set_option linter.dupNamespace false

namespace Nix.Util.GitObjects

open Util.Types Util.CanonPaths Util.CanonPathComponents Util.Hashes Util.MemorySinks
open Util.Archive (FileTree FileContents)
open Lib.SortedList Lib.TreeContexts Lib.Results

/-- A map from hashes to objects, with empty objects for all other hashes. -/
abbrev Cas := Hash → Bytes

def storeObject (hash : Hash) (s : Bytes) (cas : Cas) : Cas := Function.update cas hash s

section ReadBack

variable {S : Type} (xp : ExperimentalFeatureSettings) (sink : FileSystemObjectSink S)
  (hashAlgo : HashAlgorithm) (cas : Cas)

/-- Parse the object of a hash, with a hook that parses the objects of its entries. -/
def readBack : Nat → CanonPath → Hash → Mode → S → Except Error S
  | 0, _, _, _, _ => .error .diverges
  | fuel + 1, path, hash, mode, s =>
      parse xp sink hashAlgo
        (fun name entry s => readBack fuel (path.concat name) entry.hash entry.mode s)
        path (cas hash) mode s

end ReadBack

def nullSink {S : Type} : FileSystemObjectSink S where
  createDirectory _ s := .ok s
  createRegularFile _ _ _ s := .ok s
  createSymlink _ _ s := .ok s

def readEntries (xp : ExperimentalFeatureSettings) (hashAlgo : HashAlgorithm) (s : Bytes) :
    Except Error (List (Bytes × TreeEntry)) :=
  parse xp nullSink hashAlgo (fun name entry entries => .ok (entries ++ [(name.rel, entry)]))
    CanonPath.root s .directory []

/-- A tree is dumped, the same tree is read back, and tree objects are in Git's order. -/
def RoundTrips (xp : ExperimentalFeatureSettings) (hashAlgo : HashAlgorithm)
    (hashOf : Bytes → Hash) (tree : FileTree) : Prop :=
  ∃ root cas,
    dumpHook xp (fun _ => true) hashOf storeObject tree CanonPath.root (fun _ => []) =
      .ok (root, cas) ∧
    (∃ enough, ∀ fuel ≥ enough,
      readBack xp memorySink hashAlgo cas fuel CanonPath.root root.hash root.mode none =
        .ok (some tree)) ∧
    ∀ hash body, cas hash = str "tree " ++ body →
      ∃ entries, readEntries xp hashAlgo (cas hash) = .ok entries ∧
        StrictlySorted (compareOn gitName) entries

def treeSize (hashAlgo : HashAlgorithm) (entries : List (Bytes × FileTree)) : Nat :=
  (entries.map fun e =>
    (modeOf e.2).octal.length + 1 + (e.1.length + 1 + regularHashSize hashAlgo)).sum

/-- The size in the header of an object fits into an `int`. -/
def FitsInt (hashAlgo : HashAlgorithm) : FileTree → Prop
  | .regular _ contents => contents.data.length < 2 ^ 31
  | .directory entries => treeSize hashAlgo entries < 2 ^ 31
  | .symlink target => target.length < 2 ^ 31
  | .unsupported => True

def SizesFit (hashAlgo : HashAlgorithm) (tree : FileTree) : Prop :=
  ∀ file, Subtree file tree → FitsInt hashAlgo file

section Stored

variable {hashOf : Bytes → Hash} {cas : Cas}

theorem keepAll_eq (hashOf : Bytes → Hash) (l : List Bytes) (cas : Cas) (hash : Hash) :
    keepAll hashOf storeObject l cas hash = cas hash ∨
      ∃ s ∈ l, hashOf s = hash ∧ keepAll hashOf storeObject l cas hash = s := by
  induction l generalizing cas with
  | nil => exact .inl rfl
  | cons s l ih =>
    rcases ih (storeObject (hashOf s) s cas) with h | ⟨s', hs', hhash, h⟩
    · by_cases heq : hash = hashOf s
      · subst heq
        exact .inr ⟨s, List.mem_cons_self, rfl, h.trans (Function.update_self _ _ _)⟩
      · exact .inl (h.trans (Function.update_of_ne heq _ _))
    · exact .inr ⟨s', List.mem_cons_of_mem _ hs', hhash, h⟩

theorem keepAll_of_mem {l : List Bytes} (hinj : Set.InjOn hashOf {s | s ∈ l}) {s : Bytes}
    (hs : s ∈ l) (cas : Cas) : keepAll hashOf storeObject l cas (hashOf s) = s := by
  obtain ⟨before, after, rfl⟩ := List.append_of_mem hs
  have hfold : keepAll hashOf storeObject (before ++ s :: after) cas =
      keepAll hashOf storeObject after
        (storeObject (hashOf s) s (keepAll hashOf storeObject before cas)) := by
    rw [keepAll, List.foldl_append]
    rfl
  rw [hfold]
  rcases keepAll_eq hashOf after
    (storeObject (hashOf s) s (keepAll hashOf storeObject before cas)) (hashOf s) with
    h | ⟨s', hs', hhash, h⟩
  · exact h.trans (Function.update_self _ _ _)
  · rw [h]
    exact hinj (List.mem_append_right _ (List.mem_cons_of_mem _ hs')) hs hhash

theorem object_mem_objects {file tree : FileTree} (htree : IsTree tree) (h : Subtree file tree) :
    object hashOf file ∈ objects hashOf tree := by
  induction htree with
  | regular isExecutable contents =>
    cases h
    exact List.mem_singleton_self _
  | symlink target =>
    cases h
    exact List.mem_singleton_self _
  | @directory entries sorted names children ih =>
    rw [objects, List.mem_append, objectsOf_eq_flatMap]
    cases h with
    | refl => exact .inr (List.mem_singleton_self _)
    | child he h => exact .inl (List.mem_flatMap.mpr ⟨_, he, ih _ he h⟩)

theorem exists_of_mem_objects {tree : FileTree} (htree : IsTree tree) {s : Bytes}
    (h : s ∈ objects hashOf tree) : ∃ file, Subtree file tree ∧ IsTree file ∧
      s = object hashOf file := by
  induction htree with
  | regular isExecutable contents =>
    exact ⟨_, .refl _, .regular _ _, List.mem_singleton.mp h⟩
  | symlink target => exact ⟨_, .refl _, .symlink _, List.mem_singleton.mp h⟩
  | @directory entries sorted names children ih =>
    rw [objects, List.mem_append, objectsOf_eq_flatMap] at h
    rcases h with h | h
    · obtain ⟨e, he, h⟩ := List.mem_flatMap.mp h
      obtain ⟨file, hsub, hfile, hs⟩ := ih e he h
      exact ⟨file, .child he hsub, hfile, hs⟩
    · exact ⟨_, .refl _, .directory sorted names children, List.mem_singleton.mp h⟩

end Stored

section Order

variable {hashOf : Bytes → Hash} {entries : List (Bytes × FileTree)}

theorem exists_children (sorted : StrictlySorted compare (entries.map Prod.fst))
    (names : ∀ e ∈ entries, e.1 ≠ [] ∧ slash ∉ e.1 ∧ (0 : UInt8) ∉ e.1) :
    ∃ children : List (Bytes × FileTree), children.Perm entries ∧
      inGitOrder (entries.map fun e => (e.1, entryOf hashOf e.2)) =
        children.map fun e => (e.1, entryOf hashOf e.2) := by
  have hmap := @foldl_insertOver_map (Bytes × FileTree) _ (compareOn gitName)
    (fun e => (e.1, entryOf hashOf e.2)) entries []
  have hapart : Apart (compareOn gitName) (entries.map fun e => (e.1, entryOf hashOf e.2)) := by
    refine apart_gitName (List.forall_mem_map.mpr fun e he => (names e he).2.1) ?_
    rw [List.map_map]
    exact sorted.nodup
  have hpull : Apart (compareOn fun e : Bytes × FileTree => gitName (e.1, entryOf hashOf e.2))
      ([] ++ entries) := List.pairwise_map.mp hapart
  exact ⟨_, perm_foldl_insertOver hpull, hmap⟩

theorem length_flatMap_inGitOrder {hashAlgo : HashAlgorithm}
    (hhash : ∀ s, (hashOf s).algo = hashAlgo)
    (sorted : StrictlySorted compare (entries.map Prod.fst))
    (names : ∀ e ∈ entries, e.1 ≠ [] ∧ slash ∉ e.1 ∧ (0 : UInt8) ∉ e.1) :
    ((inGitOrder (entries.map fun e => (e.1, entryOf hashOf e.2))).flatMap entryBytes).length =
      treeSize hashAlgo entries := by
  obtain ⟨children, hperm, horder⟩ := @exists_children hashOf entries sorted names
  have hlength : ∀ e : Bytes × FileTree, (entryBytes (e.1, entryOf hashOf e.2)).length =
      (modeOf e.2).octal.length + 1 + (e.1.length + 1 + regularHashSize hashAlgo) := fun e => by
    rw [length_entryBytes]
    exact congrArg (fun algo => _ + (e.1.length + 1 + regularHashSize algo)) (hhash _)
  rw [horder, List.length_flatMap, List.map_map, treeSize]
  refine ((hperm.map _).sum_eq).trans (congrArg List.sum (List.map_congr_left fun e _ => ?_))
  exact hlength e

end Order

theorem exists_enough {α : Type} {l : List α} {P : α → Nat → Prop}
    (h : ∀ a ∈ l, ∃ enough, ∀ fuel ≥ enough, P a fuel) :
    ∃ enough, ∀ fuel ≥ enough, ∀ a ∈ l, P a fuel := by
  induction l with
  | nil => exact ⟨0, fun _ _ => List.forall_mem_nil _⟩
  | cons a l ih =>
    obtain ⟨⟨n, ha⟩, h⟩ := List.forall_mem_cons.mp h
    obtain ⟨m, hl⟩ := ih h
    refine ⟨max n m, fun fuel hfuel => List.forall_mem_cons.mpr ⟨?_, ?_⟩⟩
    · exact ha fuel (le_trans (Nat.le_max_left _ _) hfuel)
    · exact hl fuel (le_trans (Nat.le_max_right _ _) hfuel)

theorem sizesFit_directory_iff {hashAlgo : HashAlgorithm} {entries : List (Bytes × FileTree)} :
    SizesFit hashAlgo (.directory entries) ↔
      treeSize hashAlgo entries < 2 ^ 31 ∧ ∀ e ∈ entries, SizesFit hashAlgo e.2 := by
  constructor
  · exact fun h => ⟨h _ (.refl _), fun e he file hsub => h file (.child he hsub)⟩
  · rintro ⟨hsize, h⟩ file hsub
    cases hsub with
    | refl => exact hsize
    | child he hsub => exact h _ he file hsub

section ReadBack

variable {xp : ExperimentalFeatureSettings} {hashAlgo : HashAlgorithm} {hashOf : Bytes → Hash}
  {cas : Cas}

theorem readable_inGitOrder (hhash : ∀ s, (hashOf s).algo = hashAlgo)
    {entries : List (Bytes × FileTree)}
    (sorted : StrictlySorted compare (entries.map Prod.fst))
    (names : ∀ e ∈ entries, e.1 ≠ [] ∧ slash ∉ e.1 ∧ (0 : UInt8) ∉ e.1) :
    ∀ e ∈ inGitOrder (entries.map fun e => (e.1, entryOf hashOf e.2)),
      (0 : UInt8) ∉ e.1 ∧ e.2.hash.algo = hashAlgo := by
  obtain ⟨children, hperm, horder⟩ := @exists_children hashOf entries sorted names
  rw [horder]
  refine List.forall_mem_map.mpr fun e he => ⟨(names e (hperm.subset he)).2.2, hhash _⟩

theorem makes_readBack (hxp : xp .gitHashing = true)
    (halgo : hashAlgo = .sha1 ∨ hashAlgo = .sha256) (hhash : ∀ s, (hashOf s).algo = hashAlgo)
    {tree : FileTree} (h : IsTree tree) (hdots : NoDots tree) (hsizes : SizesFit hashAlgo tree)
    (hcas : ∀ file, Subtree file tree → cas (hashOf (object hashOf file)) = object hashOf file) :
    ∃ enough, ∀ fuel ≥ enough, Makes (fun path s => readBack xp memorySink hashAlgo cas fuel path
      (hashOf (object hashOf tree)) (modeOf tree) s) tree := by
  induction h with
  | regular isExecutable contents =>
    refine ⟨1, fun fuel hfuel above habove => ?_⟩
    obtain ⟨fuel, rfl⟩ := Nat.exists_eq_add_of_le' hfuel
    have hsize : contents.data.length < 2 ^ 31 := hsizes _ (.refl _)
    show readBack xp memorySink hashAlgo cas (fuel + 1) above.path _ _ above.before = _
    rw [readBack, hcas _ (.refl _), object, parse_blobObject hxp, if_pos hsize]
    cases isExecutable with
    | true => exact createRegularFile_before habove true contents
    | false => exact createRegularFile_before habove false contents
  | symlink target =>
    refine ⟨1, fun fuel hfuel above habove => ?_⟩
    obtain ⟨fuel, rfl⟩ := Nat.exists_eq_add_of_le' hfuel
    have hsize : target.length < 2 ^ 31 := hsizes _ (.refl _)
    show readBack xp memorySink hashAlgo cas (fuel + 1) above.path _ _ above.before = _
    rw [readBack, hcas _ (.refl _), object, parse_blobObject hxp, if_pos hsize]
    exact createSymlink_before habove target
  | @directory entries sorted names children ih =>
    obtain ⟨hsize, hchildren⟩ := sizesFit_directory_iff.mp hsizes
    obtain ⟨enough, henough⟩ := exists_enough fun e he => ih e he (hdots.child he) (hchildren e he)
      fun file hsub => hcas file (.child he hsub)
    refine ⟨enough + 1, fun fuel hfuel above habove => ?_⟩
    obtain ⟨fuel, rfl⟩ := Nat.exists_eq_add_one_of_ne_zero (Nat.ne_of_gt (by omega : 0 < fuel))
    have hvalid := IsTree.validComponent names hdots
    obtain ⟨order, hperm, horder⟩ := @exists_children hashOf entries sorted names
    have hmakes := henough fuel (by omega)
    have hnodup : (([] ++ order).map Prod.fst).Nodup :=
      ((hperm.map Prod.fst).nodup_iff).mpr sorted.nodup
    show readBack xp memorySink hashAlgo cas (fuel + 1) above.path _ _ above.before = _
    rw [readBack, hcas _ (.refl _), object_directory,
      parse_treeObject hxp halgo (readable_inGitOrder hhash sorted names),
      if_pos (by rw [length_flatMap_inGitOrder hhash sorted names]; exact hsize),
      createDirectory_before habove, horder]
    show List.foldlM _ _ (order.map _) = _
    rw [List.foldlM_map]
    refine (@foldlM_insertOver _ _ compare _ _ _ _
      (fun entries => some (above.plug (.directory entries))) order [] hnodup
      fun e he acc hnotMem => ?_).trans ?_
    · have hmem := hperm.subset he
      have hname := hvalid e hmem
      have hpath : above.path.concat (ofComponents [e.1]) =
          Above.path (above ++ [(e.1, acc)]) := by
        rw [CanonPath.concat, Above.path, extend_ofComponents habove.valid, Above.path,
          List.map_append]
        · rfl
        · exact List.forall_mem_singleton.mpr hname
      rw [callHook, ofRaw_of_valid hname]
      show readBack xp memorySink hashAlgo cas fuel _ _ _ _ = _
      rw [hpath]
      exact (hmakes e hmem).child habove hname hnotMem
    · have hsorted : StrictlySorted (byKey compare) entries := strictlySorted_byKey.mpr sorted
      rw [foldl_insertOver_of_perm hsorted hperm]

theorem foldlM_eq_ok {α S : Type} {step : S → α → Except Error S} {l : List α} {s s' : S}
    (h : l.foldlM step s = .ok s') : ∀ a ∈ l, ∃ s s', step s a = .ok s' := by
  induction l generalizing s with
  | nil => exact List.forall_mem_nil _
  | cons a l ih =>
    rw [List.foldlM_cons] at h
    obtain ⟨s'', ha, h⟩ := bind_eq_ok.mp h
    exact List.forall_mem_cons.mpr ⟨⟨_, _, ha⟩, ih h⟩

/-- Only objects whose sizes fit into an `int` are read back, into any sink. -/
theorem sizesFit_of_readBack (hxp : xp .gitHashing = true)
    (halgo : hashAlgo = .sha1 ∨ hashAlgo = .sha256) (hhash : ∀ s, (hashOf s).algo = hashAlgo)
    {S : Type} {sink : FileSystemObjectSink S} {tree : FileTree} (h : IsTree tree)
    (hcas : ∀ file, Subtree file tree → cas (hashOf (object hashOf file)) = object hashOf file)
    {fuel : Nat} {path : CanonPath} {s s' : S}
    (hread : readBack xp sink hashAlgo cas fuel path (hashOf (object hashOf tree)) (modeOf tree) s =
      .ok s') : SizesFit hashAlgo tree := by
  induction h generalizing fuel path s s' with
  | regular isExecutable contents =>
    cases fuel with
    | zero => cases hread
    | succ fuel =>
      rw [readBack, hcas _ (.refl _), object, parse_blobObject hxp] at hread
      split at hread
      next hsize => exact fun file hsub => by cases hsub; exact hsize
      next => cases hread
  | symlink target =>
    cases fuel with
    | zero => cases hread
    | succ fuel =>
      rw [readBack, hcas _ (.refl _), object, parse_blobObject hxp] at hread
      split at hread
      next hsize => exact fun file hsub => by cases hsub; exact hsize
      next => cases hread
  | @directory entries sorted names children ih =>
    cases fuel with
    | zero => cases hread
    | succ fuel =>
      obtain ⟨order, hperm, horder⟩ := @exists_children hashOf entries sorted names
      rw [readBack, hcas _ (.refl _), object_directory,
        parse_treeObject hxp halgo (readable_inGitOrder hhash sorted names),
        length_flatMap_inGitOrder hhash sorted names, horder] at hread
      split at hread
      next hsize =>
        obtain ⟨_, -, hfold⟩ := bind_eq_ok.mp hread
        have hsteps := List.forall_mem_map.mp (foldlM_eq_ok hfold)
        refine sizesFit_directory_iff.mpr ⟨hsize, fun e he => ?_⟩
        obtain ⟨_, _, hstep⟩ := hsteps e (hperm.symm.subset he)
        obtain ⟨_, -, hstep⟩ := bind_eq_ok.mp hstep
        exact ih e he (fun file hsub => hcas file (.child he hsub)) hstep
      next => cases hread

theorem readEntries_treeObject (hxp : xp .gitHashing = true)
    (halgo : hashAlgo = .sha1 ∨ hashAlgo = .sha256) {entries : List (Bytes × TreeEntry)}
    (h : ∀ e ∈ entries, ValidComponent e.1 ∧ e.2.hash.algo = hashAlgo)
    (hsize : (entries.flatMap entryBytes).length < 2 ^ 31) :
    readEntries xp hashAlgo (treeObject (entries.flatMap entryBytes)) = .ok entries := by
  have hfold : ∀ acc, (∀ e ∈ entries, ValidComponent e.1 ∧ e.2.hash.algo = hashAlgo) →
      entries.foldlM (callHook fun name entry entries =>
        .ok (entries ++ [(name.rel, entry)])) acc = .ok (acc ++ entries) := by
    clear hsize h
    induction entries with
    | nil =>
      intro acc _
      rw [List.append_nil]
      rfl
    | cons e entries ih =>
      intro acc h
      obtain ⟨⟨hname, -⟩, h⟩ := List.forall_mem_cons.mp h
      have hrel : (ofComponents [e.1]).rel = e.1 := by
        simp [ofComponents, render, CanonPath.rel]
      rw [List.foldlM_cons, callHook, ofRaw_of_valid hname]
      show List.foldlM _ (acc ++ [((ofComponents [e.1]).rel, e.2)]) entries = _
      rw [ih _ h, hrel, List.append_assoc]
      rfl
  rw [readEntries, parse_treeObject hxp halgo fun e he => ⟨(h e he).1.no_nul, (h e he).2⟩,
    if_pos hsize]
  exact hfold [] h

theorem keepAll_object {tree : FileTree} (h : IsTree tree)
    (hinj : Set.InjOn hashOf {s | s ∈ objects hashOf tree}) (cas : Cas) :
    ∀ file, Subtree file tree →
      keepAll hashOf storeObject (objects hashOf tree) cas (hashOf (object hashOf file)) =
        object hashOf file :=
  fun _ hsub => keepAll_of_mem hinj (object_mem_objects h hsub) cas

theorem condition_of_roundTrips (hxp : xp .gitHashing = true)
    (halgo : hashAlgo = .sha1 ∨ hashAlgo = .sha256) (hhash : ∀ s, (hashOf s).algo = hashAlgo)
    {tree : FileTree} (h : IsTree tree)
    (hinj : Set.InjOn hashOf {s | s ∈ objects hashOf tree})
    (htrip : RoundTrips xp hashAlgo hashOf tree) : NoDots tree ∧ SizesFit hashAlgo tree := by
  obtain ⟨root, cas, hdump, ⟨enough, hread⟩, -⟩ := htrip
  have hdots := noDots_of_dumpHook h hdump
  rw [dumpHook_eq hxp h hdots] at hdump
  obtain ⟨rfl, rfl⟩ := Prod.mk.inj (Except.ok.inj hdump)
  exact ⟨hdots, sizesFit_of_readBack hxp halgo hhash h (keepAll_object h hinj _)
    (hread enough (le_refl _))⟩

theorem blobObject_ne (contents body : Bytes) : blobObject contents ≠ str "tree " ++ body := by
  rw [blobObject, show str "blob " = _ from str_ofList _, show str "tree " = _ from str_ofList _]
  intro h
  exact absurd (List.cons.inj h).1 (by decide)

theorem exists_readEntries (hxp : xp .gitHashing = true)
    (halgo : hashAlgo = .sha1 ∨ hashAlgo = .sha256) (hhash : ∀ s, (hashOf s).algo = hashAlgo)
    {tree : FileTree} (h : IsTree tree) (hdots : NoDots tree) (hsizes : SizesFit hashAlgo tree)
    {s body : Bytes} (hs : s ∈ objects hashOf tree) (hbody : s = str "tree " ++ body) :
    ∃ entries, readEntries xp hashAlgo s = .ok entries ∧
      StrictlySorted (compareOn gitName) entries := by
  obtain ⟨file, hsub, hfile, rfl⟩ := exists_of_mem_objects h hs
  cases hfile with
  | regular isExecutable contents =>
    rw [object] at hbody
    exact absurd hbody (blobObject_ne _ _)
  | symlink target =>
    rw [object] at hbody
    exact absurd hbody (blobObject_ne _ _)
  | @directory entries sorted names children =>
    obtain ⟨order, hperm, horder⟩ := @exists_children hashOf entries sorted names
    have hvalid := IsTree.validComponent names (hdots.subtree hsub)
    rw [object_directory]
    refine ⟨_, readEntries_treeObject hxp halgo ?_ ?_, sorted_inGitOrder _⟩
    · rw [horder]
      exact List.forall_mem_map.mpr fun e he => ⟨hvalid e (hperm.subset he), hhash _⟩
    · rw [length_flatMap_inGitOrder hhash sorted names]
      exact hsizes _ hsub

/-- A tree is dumped and read back, with its tree objects in Git's order, if and only if no name is
`.` or `..` and all sizes fit into an `int`. -/
theorem roundTrips_iff (hxp : xp .gitHashing = true)
    (halgo : hashAlgo = .sha1 ∨ hashAlgo = .sha256) (hhash : ∀ s, (hashOf s).algo = hashAlgo)
    {tree : FileTree} (h : IsTree tree)
    (hinj : Set.InjOn hashOf {s | s ∈ objects hashOf tree}) :
    RoundTrips xp hashAlgo hashOf tree ↔ NoDots tree ∧ SizesFit hashAlgo tree := by
  refine ⟨condition_of_roundTrips hxp halgo hhash h hinj, ?_⟩
  rintro ⟨hdots, hsizes⟩
  obtain ⟨enough, hmakes⟩ :=
    makes_readBack hxp halgo hhash h hdots hsizes (keepAll_object h hinj fun _ => [])
  refine ⟨_, _, dumpHook_eq hxp h hdots CanonPath.root _,
    ⟨enough, fun fuel hfuel => (hmakes fuel hfuel).root⟩, fun hash body hbody => ?_⟩
  rcases keepAll_eq hashOf (objects hashOf tree) (fun _ => []) hash with hnil | ⟨s, hs, rfl, hkept⟩
  · rw [hnil] at hbody
    exact absurd hbody.symm (by simp [str])
  · rw [hkept] at hbody ⊢
    exact exists_readEntries hxp halgo hhash h hdots hsizes hs hbody

end ReadBack

/-- The SHA-1 hash of the blob `hi`. -/
def hiHash : Hash :=
  ⟨.sha1, [50, 249, 92, 13, 18, 68, 167, 139, 43, 225, 186, 184, 222, 23, 144, 111, 171, 178, 196,
    168], rfl⟩

/-- The SHA-1 hash of a directory with the executable file `hi` under the name `a`. -/
def hiTreeHash : Hash :=
  ⟨.sha1, [93, 197, 253, 44, 234, 188, 130, 251, 130, 85, 28, 254, 148, 135, 14, 5, 175, 21, 82,
    128], rfl⟩

/-- SHA-1 of the blob, and of the directory for every other text. -/
def hiHashes (s : Bytes) : Hash := if s = blobObject (str "hi") then hiHash else hiTreeHash

theorem algo_hiHashes (s : Bytes) : (hiHashes s).algo = .sha1 := by
  rw [hiHashes]
  split <;> rfl

def hiTree : FileTree := .directory [(str "a", .regular true (.ofBytes (str "hi")))]

theorem isTree_hiTree : IsTree hiTree :=
  .directory (List.pairwise_singleton _ _) (List.forall_mem_singleton.mpr (by decide))
    (List.forall_mem_singleton.mpr (.regular _ _))

theorem injOn_hiHashes : Set.InjOn hiHashes {s | s ∈ objects hiHashes hiTree} := by
  have hobjects : objects hiHashes hiTree =
      [blobObject (str "hi"), treeObject (entryBytes (str "a", ⟨.executable, hiHash⟩))] := rfl
  have hblob : hiHashes (blobObject (str "hi")) = hiHash := rfl
  have htree : hiHashes (treeObject (entryBytes (str "a", ⟨.executable, hiHash⟩))) = hiTreeHash :=
    rfl
  have hne : hiHash ≠ hiTreeHash := by decide
  rw [hobjects]
  intro s hs t ht heq
  rcases List.mem_pair.mp hs with rfl | rfl
  · rcases List.mem_pair.mp ht with rfl | rfl
    · rfl
    · exact absurd (hblob.symm.trans (heq.trans htree)) hne
  · rcases List.mem_pair.mp ht with rfl | rfl
    · exact absurd (hblob.symm.trans (heq.symm.trans htree)) hne
    · rfl

theorem roundTrips_iff_hi : RoundTrips (fun _ => true) .sha1 hiHashes hiTree :=
  (roundTrips_iff rfl (.inl rfl) algo_hiHashes isTree_hiTree injOn_hiHashes).mpr
    ⟨noDots_directory_iff.mpr (List.forall_mem_singleton.mpr
      ⟨by decide, fun _ hsub => nomatch hsub⟩),
    sizesFit_directory_iff.mpr ⟨by decide, List.forall_mem_singleton.mpr fun file hsub => by
      cases hsub
      exact (by decide : (2 : Nat) < 2 ^ 31)⟩⟩

def largeFile : FileTree :=
  .regular false ⟨List.replicate (2 ^ 31) 0, by rw [List.length_replicate]; decide⟩

/-- Its size does not fit into an `int`. -/
theorem not_roundTrips_largeFile : ¬RoundTrips (fun _ => true) .sha1 hiHashes largeFile := by
  intro h
  have hinj : Set.InjOn hiHashes {s | s ∈ objects hiHashes largeFile} := by
    intro s hs t ht _
    exact (List.mem_singleton.mp hs).trans (List.mem_singleton.mp ht).symm
  have hsize : (List.replicate (2 ^ 31) (0 : UInt8)).length < 2 ^ 31 :=
    (condition_of_roundTrips rfl (.inl rfl) algo_hiHashes (.regular _ _) hinj h).2 _ (.refl _)
  rw [List.length_replicate] at hsize
  exact Nat.lt_irrefl _ hsize

end Nix.Util.GitObjects
