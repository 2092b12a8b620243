import Nix.Lib.TreeContexts
import Nix.Util.ArchiveRoundTrip
import Nix.Util.CanonPathOperations

/-!
Sinks for file system objects that are called with paths, `MemorySink` among them.
-/

set_option linter.dupNamespace false

namespace Nix.Util.MemorySinks

open Util.Types Util.CanonPaths Util.CanonPathComponents
open Util.Archive (FileTree FileContents)
open Lib.Delimited Lib.SortedList Lib.TreeContexts Lib.Results

/-- The segments that an iterator of a `CanonPath` goes through. -/
def segments (remaining : Bytes) : List Bytes :=
  if _h : remaining = [] then []
  else remaining.takeWhile (· ≠ slash) ::
    segments ((remaining.dropWhile (· ≠ slash)).drop 1)
termination_by remaining.length
decreasing_by
  rw [List.length_drop]
  have hpos := List.length_pos_of_ne_nil _h
  have hle := List.length_dropWhile_le (· ≠ slash) remaining
  omega

def components (path : CanonPath) : List Bytes := segments path.rel

theorem segments_cons {c rest : Bytes} (hne : c ≠ []) (hc : slash ∉ c) :
    segments (c ++ slash :: rest) = c :: segments rest := by
  have hall : ∀ b ∈ c, decide (b ≠ slash) = true := fun b hb =>
    decide_eq_true fun heq => hc (heq ▸ hb)
  rw [segments, dif_neg (by simp [hne]), List.takeWhile_append_of_pos hall,
    List.dropWhile_append_of_pos hall]
  simp

theorem segments_of_notMem {c : Bytes} (hne : c ≠ []) (hc : slash ∉ c) : segments c = [c] := by
  have hall : ∀ b ∈ c, decide (b ≠ slash) = true := fun b hb =>
    decide_eq_true fun heq => hc (heq ▸ hb)
  rw [segments, dif_neg hne, List.takeWhile_eq_self_iff.mpr hall,
    List.dropWhile_eq_nil_iff.mpr hall]
  rw [List.drop_nil, segments, dif_pos rfl]

theorem components_ofComponents {cs : List Bytes} (h : Valid cs) :
    components (ofComponents cs) = cs := by
  have hjoin : ∀ {c : Bytes} {cs : List Bytes}, Valid (c :: cs) →
      segments (c ++ cs.flatMap (slash :: ·)) = c :: cs := by
    intro c cs h
    induction cs generalizing c with
    | nil =>
      obtain ⟨hc, -⟩ := Valid.cons_iff.mp h
      rw [List.flatMap_nil, List.append_nil]
      exact segments_of_notMem hc.ne_nil hc.no_slash
    | cons d cs ih =>
      obtain ⟨hc, hcs⟩ := Valid.cons_iff.mp h
      rw [List.flatMap_cons, List.cons_append, segments_cons hc.ne_nil hc.no_slash, ih hcs]
  cases cs with
  | nil =>
    show segments [] = []
    rw [segments, dif_pos rfl]
  | cons c cs => exact hjoin h

/-- A `FileSystemObjectSink` by its calls, which change a state. What the callback of
`createRegularFile` does to the file is given by its result. -/
structure FileSystemObjectSink (S : Type) where
  createDirectory : CanonPath → S → Except Error S
  createRegularFile : CanonPath → (isExecutable : Bool) → (contents : Bytes) → S → Except Error S
  createSymlink : CanonPath → (target : Bytes) → S → Except Error S

section CopyRecursive

variable {S : Type} (sink : FileSystemObjectSink S)

/-- The loop of `copyRecursive` over the entries of a directory. -/
def copyEntries (fromPath toPath : CanonPath) :
    List (Bytes × (CanonPath → CanonPath → S → Except Error S)) → S → Except Error S
  | [], s => .ok s
  | (name, copy) :: entries, s => do
      let fromChild ← fromPath.push name
      let toChild ← toPath.push name
      let s ← copy fromChild toChild s
      copyEntries fromPath toPath entries s

mutual

def copyRecursive : FileTree → (fromPath toPath : CanonPath) → S → Except Error S
  | .symlink target, _, toPath, s => sink.createSymlink toPath target s
  | .regular isExecutable contents, _, toPath, s =>
      sink.createRegularFile toPath isExecutable contents.data s
  | .directory entries, fromPath, toPath, s => do
      let s ← sink.createDirectory toPath s
      copyEntries fromPath toPath (copyChildren entries) s
  | .unsupported, fromPath, _, _ =>
      .error ⟨.error, ⟨"file '%1%' has an unsupported type of %2%", [fromPath.path]⟩⟩

def copyChildren :
    List (Bytes × FileTree) → List (Bytes × (CanonPath → CanonPath → S → Except Error S))
  | [] => []
  | (name, tree) :: entries => (name, copyRecursive tree) :: copyChildren entries

end

theorem copyChildren_eq_map (entries : List (Bytes × FileTree)) :
    copyChildren sink entries = entries.map fun e => (e.1, copyRecursive sink e.2) := by
  induction entries with
  | nil => rfl
  | cons e entries ih => rw [copyChildren, ih, List.map_cons]

end CopyRecursive

/-- `open` with a file to create, from a file on. A file that is new, or has a new directory above
it, becomes `create`; `use` is what is done to the file that is returned. -/
def openFrom (create : FileTree) (use : FileTree → Except Error FileTree) (above : List Bytes) :
    List Bytes → (newF : Bool) → FileTree → Except Error FileTree
  | [], newF, cur => use (if newF then create else cur)
  | name :: names, newF, .directory entries => do
      let file ←
        match entries.find? (·.1 = name) with
        | some (_, file) => openFrom create use (above ++ [name]) names newF file
        | none => openFrom create use (above ++ [name]) names true (.directory [])
      return .directory (insertOver (byKey compare) (name, file) entries)
  | _ :: _, _, .symlink _ =>
      .error ⟨.error, ⟨"file '%s' is a symlink", [render above]⟩⟩
  | _ :: _, _, _ =>
      .error ⟨.error, ⟨"file '%s' is not a directory", [render above]⟩⟩

/-- A `MemorySourceAccessor`, whose root may be missing. -/
abbrev Root := Option FileTree

/-- `open` with a file to create. -/
def openFile (what : String) (create : FileTree) (use : FileTree → Except Error FileTree)
    (path : CanonPath) : Root → Except Error Root
  | none =>
      if path.isRoot then some <$> use create
      else .error ⟨.error,
        ⟨what ++ " '%s' cannot be created because some parent directories don't exist",
          [path.path]⟩⟩
  | some root => some <$> openFrom create use [] (components path) false root

def memorySink : FileSystemObjectSink Root where
  createDirectory path :=
    openFile "directory" (.directory []) (fun file =>
      match file with
      | .directory entries => .ok (.directory entries)
      | _ => .error ⟨.error, ⟨"file '%s' is not a directory", [path.path]⟩⟩) path
  createRegularFile path isExecutable contents :=
    openFile "file" (.regular false (.ofBytes [])) (fun file =>
      match file with
      | .regular executable before =>
          .ok (.regular (executable || isExecutable) (.ofBytes (before.data ++ contents)))
      | _ => .error ⟨.error, ⟨"file '%s' is not a regular file", [path.path]⟩⟩) path
  createSymlink path target :=
    openFile "symlink" (.symlink []) (fun file =>
      match file with
      | .symlink _ => .ok (.symlink target)
      | _ => .error ⟨.error, ⟨"file '%s' is not a symbolic link", [path.path]⟩⟩) path

/-- The directories above a file. -/
abbrev Above := Context Bytes FileTree

namespace Above

def path (above : Above) : CanonPath := ofComponents (above.map Prod.fst)

/-- The tree with a file in its place. -/
abbrev plug (above : Above) (file : FileTree) : FileTree :=
  Lib.TreeContexts.plug compare FileTree.directory above file

/-- The tree without the file. -/
abbrev before (above : Above) : Root := Lib.TreeContexts.before compare FileTree.directory above

/-- The path is canonical, and the file is not there. -/
structure Fresh (above : Above) : Prop where
  valid : Valid (above.map Prod.fst)
  fresh : Lib.TreeContexts.Fresh above

end Above

section Above

variable {above : Above} {name : Bytes} {entries : List (Bytes × FileTree)} {file : FileTree}

theorem push_ofComponents {cs : List Bytes} {c : Bytes} (hcs : Valid cs) (hc : ValidComponent c) :
    (ofComponents cs).push c = .ok (ofComponents (cs ++ [c])) := by
  have hdots : ¬(c = str "." ∨ c = str "..") := not_or.mpr ⟨hc.ne_dot, hc.ne_dotdot⟩
  have hnul : CanonPath.ensureNoNullBytes c = .ok () := ensureNoNullBytes_eq_ok.mpr hc.no_nul
  have hroot := isRoot_ofComponents hcs
  rw [CanonPath.push, if_neg hc.no_slash, if_neg hdots, hnul]
  refine congrArg (fun path => Except.ok (CanonPath.mk path)) ?_
  rcases eq_or_ne cs [] with rfl | hne
  · rw [if_pos (hroot.mpr rfl), List.nil_append, render_of_ne_nil (List.cons_ne_nil _ _), join_cons,
      join_nil, List.append_nil]
    rfl
  · rw [if_neg fun h => hne (hroot.mp h), render_of_ne_nil (by simp), join_append, join_cons,
      join_nil, List.append_nil, ofComponents, render_of_ne_nil hne, List.append_assoc]
    rfl

theorem push_path (h : Valid (above.map Prod.fst)) (hname : ValidComponent name)
    (entries : List (Bytes × FileTree)) :
    above.path.push name = .ok (Above.path (above ++ [(name, entries)])) := by
  rw [Above.path, Above.path, List.map_append]
  exact push_ofComponents h hname

theorem Above.Fresh.append (h : above.Fresh) (hname : ValidComponent name)
    (hnotMem : name ∉ entries.map Prod.fst) : Above.Fresh (above ++ [(name, entries)]) where
  valid := by
    rw [List.map_append]
    exact Valid.append_iff.mpr ⟨h.valid, List.forall_mem_singleton.mpr hname⟩
  fresh := fresh_append hnotMem

theorem openFrom_before {create : FileTree} {use : FileTree → Except Error FileTree}
    (done : List Bytes) (hne : above ≠ []) {tree : FileTree} (hbefore : above.before = some tree)
    (h : Lib.TreeContexts.Fresh above) :
    openFrom create use done (above.map Prod.fst) false tree = above.plug <$> use create := by
  induction above generalizing done tree with
  | nil => exact absurd rfl hne
  | cons p above ih =>
    obtain ⟨name, entries⟩ := p
    obtain rfl := Option.some.inj hbefore
    cases above with
    | nil =>
      have hfind : entries.find? (·.1 = name) = none := by
        refine List.find?_eq_none.mpr fun e he heq => h name entries rfl ?_
        exact List.mem_map.mpr ⟨e, he, of_decide_eq_true heq⟩
      simp only [List.map_cons, List.map_nil, Lib.TreeContexts.before, openFrom, hfind, if_true]
      cases use create <;> rfl
    | cons q above =>
      obtain ⟨file, hfile⟩ : ∃ file,
          Lib.TreeContexts.before compare FileTree.directory (q :: above) = some file := ⟨_, rfl⟩
      have hopen := ih (done ++ [name]) (List.cons_ne_nil _ _) hfile
        fun name entries hlast => h name entries hlast
      rw [hfile, List.map_cons, openFrom, SortedMap.find?_insertOver, if_pos rfl]
      dsimp only
      rw [hopen]
      cases use create with
      | error e => rfl
      | ok file' =>
        exact congrArg (fun entries => Except.ok (FileTree.directory entries))
          (insertOver_insertOver name file (Above.plug (q :: above) file') entries)

theorem openFile_before (h : above.Fresh) (what : String) (create : FileTree)
    (use : FileTree → Except Error FileTree) :
    openFile what create use above.path above.before =
      (fun file => some (above.plug file)) <$> use create := by
  cases above with
  | nil => rfl
  | cons p above =>
    obtain ⟨tree, htree⟩ : ∃ tree, Above.before (p :: above) = some tree := ⟨_, rfl⟩
    rw [htree, openFile, Above.path, components_ofComponents h.valid,
      openFrom_before [] (List.cons_ne_nil _ _) htree h.fresh, ← comp_map]
    rfl

theorem createDirectory_before (h : above.Fresh) :
    memorySink.createDirectory above.path above.before =
      .ok (some (above.plug (.directory []))) := by
  dsimp only [memorySink]
  rw [openFile_before h]
  rfl

theorem createRegularFile_before (h : above.Fresh) (isExecutable : Bool) (contents : FileContents) :
    memorySink.createRegularFile above.path isExecutable contents.data above.before =
      .ok (some (above.plug (.regular isExecutable contents))) := by
  dsimp only [memorySink]
  rw [openFile_before h]
  show Except.ok (some (above.plug (.regular _ (.ofBytes contents.data)))) = _
  rw [ArchiveRoundTrip.FileContents.ofBytes_data]
  rfl

theorem createSymlink_before (h : above.Fresh) (target : Bytes) :
    memorySink.createSymlink above.path target above.before =
      .ok (some (above.plug (.symlink target))) := by
  dsimp only [memorySink]
  rw [openFile_before h]
  rfl

end Above

/-- A file system object, with a sorted map for each directory. Names are not empty and have
neither slashes nor NUL bytes. -/
inductive IsTree : FileTree → Prop
  | regular (isExecutable : Bool) (contents : FileContents) :
      IsTree (.regular isExecutable contents)
  | directory {entries : List (Bytes × FileTree)}
      (sorted : StrictlySorted compare (entries.map Prod.fst))
      (names : ∀ e ∈ entries, e.1 ≠ [] ∧ slash ∉ e.1 ∧ (0 : UInt8) ∉ e.1)
      (children : ∀ e ∈ entries, IsTree e.2) : IsTree (.directory entries)
  | symlink (target : Bytes) : IsTree (.symlink target)

/-- A file anywhere in a tree. -/
inductive Subtree : FileTree → FileTree → Prop
  | refl (tree : FileTree) : Subtree tree tree
  | child {tree : FileTree} {entries : List (Bytes × FileTree)} {e : Bytes × FileTree}
      (he : e ∈ entries) (h : Subtree tree e.2) : Subtree tree (.directory entries)

/-- No entry of a directory is called `.` or `..`. -/
def NoDots (tree : FileTree) : Prop :=
  ∀ entries, Subtree (.directory entries) tree → ∀ e ∈ entries, e.1 ≠ str "." ∧ e.1 ≠ str ".."

def Makes (act : CanonPath → Root → Except Error Root) (file : FileTree) : Prop :=
  ∀ above : Above, above.Fresh → act above.path above.before = .ok (some (above.plug file))

section Makes

variable {above : Above}

theorem Makes.root {act : CanonPath → Root → Except Error Root} {file : FileTree}
    (h : Makes act file) : act CanonPath.root none = .ok (some file) :=
  h [] ⟨fun _ hc => absurd hc List.not_mem_nil, fresh_nil⟩

theorem Makes.child {act : CanonPath → Root → Except Error Root} {file : FileTree} {name : Bytes}
    {entries : List (Bytes × FileTree)} (h : Makes act file) (habove : above.Fresh)
    (hname : ValidComponent name) (hnotMem : name ∉ entries.map Prod.fst) :
    act (Above.path (above ++ [(name, entries)])) (some (above.plug (.directory entries))) =
      .ok (some (above.plug (.directory (insertOver (byKey compare) (name, file) entries)))) := by
  have hmakes := h (above ++ [(name, entries)]) (habove.append hname hnotMem)
  rwa [Above.before, before_append, Above.plug, plug_append] at hmakes

end Makes

theorem copyEntries_eq_foldlM {S : Type} (fromPath toPath : CanonPath)
    (entries : List (Bytes × (CanonPath → CanonPath → S → Except Error S))) (s : S) :
    copyEntries fromPath toPath entries s = entries.foldlM (fun s e => do
      let fromChild ← fromPath.push e.1
      let toChild ← toPath.push e.1
      e.2 fromChild toChild s) s := by
  induction entries generalizing s with
  | nil => rfl
  | cons e entries ih =>
    rw [copyEntries, List.foldlM_cons]
    simp only [ih, bind_assoc]

theorem NoDots.child {entries : List (Bytes × FileTree)} (h : NoDots (.directory entries))
    {e : Bytes × FileTree} (he : e ∈ entries) : NoDots e.2 :=
  fun entries hsub => h entries (.child he hsub)

theorem Subtree.trans {a b c : FileTree} (hab : Subtree a b) (hbc : Subtree b c) :
    Subtree a c := by
  induction hbc with
  | refl => exact hab
  | child he _ ih => exact .child he ih

theorem NoDots.subtree {file tree : FileTree} (h : NoDots tree) (hsub : Subtree file tree) :
    NoDots file :=
  fun entries hin => h entries (hin.trans hsub)

theorem noDots_directory_iff {entries : List (Bytes × FileTree)} :
    NoDots (.directory entries) ↔
      ∀ e ∈ entries, (e.1 ≠ str "." ∧ e.1 ≠ str "..") ∧ NoDots e.2 := by
  constructor
  · exact fun h e he => ⟨h entries (.refl _) e he, h.child he⟩
  · intro h entries' hsub e he
    cases hsub with
    | refl => exact (h e he).1
    | child he' hsub => exact (h _ he').2 entries' hsub e he

theorem IsTree.validComponent {entries : List (Bytes × FileTree)}
    (h : ∀ e ∈ entries, e.1 ≠ [] ∧ slash ∉ e.1 ∧ (0 : UInt8) ∉ e.1)
    (hdots : NoDots (.directory entries)) : ∀ e ∈ entries, ValidComponent e.1 := by
  intro e he
  obtain ⟨hne, hslash, hnul⟩ := h e he
  obtain ⟨hdot, hdotdot⟩ := hdots entries (.refl _) e he
  exact ⟨hne, hdot, hdotdot, hslash, hnul⟩

/-- A copy into a `MemorySink` is the tree. -/
theorem makes_copyRecursive {tree : FileTree} (h : IsTree tree) (hdots : NoDots tree)
    (fromPath : CanonPath) : Makes (copyRecursive memorySink tree fromPath) tree := by
  induction h generalizing fromPath with
  | regular isExecutable contents =>
    exact fun above habove => createRegularFile_before habove isExecutable contents
  | symlink target => exact fun above habove => createSymlink_before habove target
  | @directory entries sorted names children ih =>
    intro above habove
    have hvalid := IsTree.validComponent names hdots
    have hsorted : StrictlySorted (byKey compare) entries := strictlySorted_byKey.mpr sorted
    rw [copyRecursive, createDirectory_before habove, copyChildren_eq_map]
    refine (copyEntries_eq_foldlM _ _ _ _).trans ?_
    rw [List.foldlM_map]
    refine (@foldlM_insertOver _ _ compare _ _ _ _
      (fun entries => some (above.plug (.directory entries))) entries [] sorted.nodup
      fun e he acc hnotMem => ?_).trans ?_
    · obtain ⟨fromChild, hfrom⟩ := exists_push fromPath (hvalid e he)
      rw [hfrom, push_path habove.valid (hvalid e he) acc]
      exact (ih e he (hdots.child he) fromChild).child habove (hvalid e he) hnotMem
    · rw [foldl_insertOver (show StrictlySorted (byKey compare) ([] ++ entries) from hsorted)]
      rfl

end Nix.Util.MemorySinks
