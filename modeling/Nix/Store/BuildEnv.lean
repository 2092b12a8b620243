import Mathlib.Data.List.Induction
import Mathlib.Data.List.Sort
import Nix.Lib.Results
import Nix.Lib.SortedMaps
import Nix.Util.Types

/-!
Profiles of packages: links to their files, and directories where several packages have one.
-/

set_option linter.dupNamespace false

namespace Nix.Store.BuildEnv

open Util.Types Lib.SortedList

/-- Files and directories. The entries of a directory are listed in the given order. -/
inductive Tree
  | file
  | directory (names : List Bytes) (nodup : names.Nodup) (child : Bytes → Tree)

structure Package where
  path : Bytes
  active : Bool
  priority : Int

/-- What is read of the packages. -/
structure Sources where
  tree : Bytes → Option Tree
  /-- The paths in `nix-support/propagated-user-env-packages`, if there is such a file. -/
  propagated : Bytes → Except Error (List Bytes)

inductive Failure
  /-- `BuildEnvFileConflictError`. -/
  | fileConflict (fileA fileB : Bytes) (priority : Int)
  | error (e : Error)

def Failure.msg : Failure → HintFmt
  | .fileConflict fileA fileB _ =>
      ⟨"Unable to build profile. There is a conflict for the following files:\n\n  %1%\n  %2%",
        [fileA, fileB]⟩
  | .error e => e.msg

def collisionWithFile (srcFile target : Bytes) : Failure :=
  .error ⟨.error, ⟨"collision between %1% and non-directory %2%", [srcFile, target]⟩⟩

def collisionWithDirectory (srcFile dstFile : Bytes) : Failure :=
  .error ⟨.error,
    ⟨"collision between non-directory '%1%' and directory '%2%'", [srcFile, dstFile]⟩⟩

/-- What is in the place of a file of the profile. The priority of a link is that in
`state.priorities`. -/
inductive Entry
  | missing
  | link (source : Bytes) (target : Tree) (priority : Int)
  | directory (child : Bytes → Entry)

abbrev Directory := Bytes → Entry

def below (dir name : Bytes) : Bytes :=
  dir ++ 47 :: name

def specialSuffixes : List Bytes :=
  [str "/propagated-build-inputs", str "/nix-support", str "/perllocal.pod", str "/info/dir",
    str "/log", str "/manifest.nix", str "/manifest.json"]

def skips (srcDir name : Bytes) : Bool :=
  name.head? = some 46 || specialSuffixes.any (·.isSuffixOf (below srcDir name))

/-- `createLinks` into a directory that was just made: there is nothing in the place of a file,
so each of them is linked. -/
def linkAll (target : Tree) (source : Bytes) (priority : Int) : Directory :=
  match target with
  | .file => fun _ => .missing
  | .directory names _ child => fun name =>
      if name ∈ names ∧ skips source name = false then
        .link (below source name) (child name) priority
      else .missing

/-- One round of the loop of `createLinks`, where `create` makes the links of a directory in the
one that is there. -/
def linkEntry (create : Directory → Except Failure Directory) (src : Tree) (srcFile dstFile : Bytes)
    (priority : Int) (entry : Entry) : Except Failure Entry :=
  match src with
  | .directory _ _ _ =>
      match entry with
      | .missing => .ok (.link srcFile src priority)
      | .directory child => (create child).map .directory
      | .link source target prevPriority =>
          match target with
          | .file => .error (collisionWithFile srcFile source)
          | .directory _ _ _ => (create (linkAll target source prevPriority)).map .directory
  | .file =>
      match entry with
      | .missing => .ok (.link srcFile src priority)
      | .directory _ => .error (collisionWithDirectory srcFile dstFile)
      | .link source target prevPriority =>
          if prevPriority = priority then .error (.fileConflict source srcFile priority)
          else if prevPriority < priority then .ok (.link source target prevPriority)
          else .ok (.link srcFile src priority)

def createLinks : Tree → Bytes → Bytes → Int → Directory → Except Failure Directory
  | .file, _, _, _, links => .ok links
  | .directory names _ child, srcDir, dstDir, priority, links =>
      names.foldlM (fun links name =>
        if skips srcDir name then .ok links
        else do
          let srcFile := below srcDir name
          let dstFile := below dstDir name
          let entry ← linkEntry (createLinks (child name) srcFile dstFile priority) (child name)
            srcFile dstFile priority (links name)
          return Function.update links name entry) links

/-- The variables of `buildProfile`. -/
structure Build where
  done : List Bytes := []
  postponed : SortedSet (compare : Bytes → Bytes → Ordering) := .empty
  links : Directory := fun _ => .missing

section

variable (sources : Sources) (out : Bytes)

def addPkg (s : Build) (pkgDir : Bytes) (priority : Int) : Except Failure Build :=
  if pkgDir ∈ s.done then .ok s
  else
    match sources.tree pkgDir with
    | none => .error (.error ⟨.error, ⟨"opening directory %s", [pkgDir]⟩⟩)
    | some tree => do
        let done := pkgDir :: s.done
        let links ← createLinks tree pkgDir out priority s.links
        match sources.propagated pkgDir with
        | .error e => .error (.error e)
        | .ok paths =>
            let postponed := paths.foldl (fun postponed p =>
              if p ∈ done then postponed else postponed.insert p) s.postponed
            return ⟨done, postponed, links⟩

def comparePaths (a b : Bytes) : Ordering :=
  compare (a.splitOn 47) (b.splitOn 47)

/-- The order of the packages: by priority, and then by path. -/
def comesBefore (a b : Package) : Bool :=
  a.priority < b.priority || (a.priority = b.priority && (comparePaths a.path b.path).isLE)

def addPackages : List Package → Build → Except Failure Build
  | [], s => .ok s
  | pkg :: pkgs, s => do
      let s ← if pkg.active then addPkg sources out s pkg.path pkg.priority else .ok s
      addPackages pkgs s

/-- Packages that were propagated, with a counter for their priorities. -/
def addPropagated : List Bytes → Int → Build → Except Failure (Int × Build)
  | [], priorityCounter, s => .ok (priorityCounter, s)
  | pkgDir :: pkgDirs, priorityCounter, s => do
      let s ← addPkg sources out s pkgDir priorityCounter
      addPropagated pkgDirs (priorityCounter + 1) s

/-- At most `rounds` rounds of the loop over the packages that were propagated. -/
def addPostponed : Nat → Int → Build → Except Failure Build
  | rounds, priorityCounter, s =>
      if s.postponed.elems = [] then .ok s
      else
        match rounds with
        | 0 => .error (.error .diverges)
        | rounds + 1 => do
            let (priorityCounter, s) ← addPropagated sources out s.postponed.elems priorityCounter
              { s with postponed := .empty }
            addPostponed rounds priorityCounter s

def buildProfile (rounds : Nat) (pkgs : List Package) : Except Failure Directory := do
  let s ← addPackages sources out (pkgs.mergeSort comesBefore) {}
  let s ← addPostponed sources out rounds 1000 s
  return s.links

end

def pathBelow (dir : Bytes) : List Bytes → Bytes
  | [] => dir
  | name :: names => pathBelow (below dir name) names

def Tree.lookup : Tree → List Bytes → Option Tree
  | tree, [] => some tree
  | .file, _ :: _ => none
  | .directory names _ child, name :: path =>
      if name ∈ names then (child name).lookup path else none

/-- What the path of the profile stands for: the file or directory of a package. -/
def Entry.resolve : Entry → List Bytes → Option (Bytes × Tree)
  | .missing, _ => none
  | .link source target _, path =>
      (target.lookup path).map fun tree => (pathBelow source path, tree)
  | .directory _, [] => none
  | .directory child, name :: path => (child name).resolve path

/-!
What `createLinks` makes of the packages, path by path: what stands in the place of a path is
decided by the files and directories that the packages have there, in their order.
-/

open Lib.Results

/-- What a package has at a path. -/
structure Contribution where
  source : Bytes
  tree : Tree
  priority : Int

namespace Contribution

/-- What a package has at an entry of a directory, if it is included. -/
def child (c : Contribution) (name : Bytes) : Option Contribution :=
  match c.tree with
  | .file => none
  | .directory names _ child =>
      if name ∈ names ∧ skips c.source name = false then
        some ⟨below c.source name, child name, c.priority⟩
      else none

end Contribution

def children (cs : List Contribution) (name : Bytes) : List Contribution :=
  cs.filterMap (·.child name)

def contributionsAt (cs : List Contribution) : List Bytes → List Contribution
  | [] => cs
  | name :: path => contributionsAt (children cs name) path

/-- What stands in the place of a path: nothing, a link, or a directory with links in it. -/
inductive State
  | missing
  | link (c : Contribution)
  | opened

def step (dstFile : Bytes) (s : State) (c : Contribution) : Except Failure State :=
  match s with
  | .missing => .ok (.link c)
  | .opened =>
      match c.tree with
      | .directory _ _ _ => .ok .opened
      | .file => .error (collisionWithDirectory c.source dstFile)
  | .link first =>
      match c.tree with
      | .directory _ _ _ =>
          match first.tree with
          | .directory _ _ _ => .ok .opened
          | .file => .error (collisionWithFile c.source first.source)
      | .file =>
          if first.priority = c.priority then
            .error (.fileConflict first.source c.source c.priority)
          else if first.priority < c.priority then .ok (.link first)
          else .ok (.link c)

def run (dstFile : Bytes) (cs : List Contribution) : Except Failure State :=
  cs.foldlM (step dstFile) .missing

theorem run_append (dstFile : Bytes) (cs : List Contribution) (c : Contribution) :
    run dstFile (cs ++ [c]) = run dstFile cs >>= fun s => step dstFile s c := by
  rw [run, List.foldlM_append, run]
  refine bind_congr fun s => ?_
  rw [List.foldlM_cons]
  exact bind_pure _

def IsDirectory (tree : Tree) : Prop :=
  ∃ names nodup child, tree = .directory names nodup child

theorem mem_of_run {dstFile : Bytes} {cs : List Contribution} {s : State}
    (h : run dstFile cs = .ok s) :
    match s with
    | .missing => cs = []
    | .link first => first ∈ cs
    | .opened => ∃ c ∈ cs, IsDirectory c.tree := by
  induction cs using List.reverseRecOn generalizing s with
  | nil =>
      cases h
      rfl
  | append_singleton cs c ih =>
      rw [run_append] at h
      obtain ⟨s', hrun, h⟩ := bind_eq_ok.mp h
      have hlast : c ∈ cs ++ [c] := List.mem_append_right _ (List.mem_singleton_self c)
      have hprev := ih hrun
      cases s' with
      | missing =>
          cases h
          exact hlast
      | opened =>
          obtain ⟨c', hc', hdir⟩ := hprev
          simp only [step] at h
          split at h <;> cases h
          exact ⟨c', List.mem_append_left _ hc', hdir⟩
      | link first =>
          cases htree : c.tree with
          | directory names nodup child =>
              simp only [step, htree] at h
              split at h <;> cases h
              exact ⟨c, hlast, names, nodup, child, htree⟩
          | file =>
              simp only [step, htree] at h
              split_ifs at h <;> cases h
              · exact List.mem_append_left _ hprev
              · exact hlast

theorem child_eq_none {c : Contribution} (h : c.tree = .file) (name : Bytes) :
    c.child name = none := by
  rw [Contribution.child, h]

theorem child_eq_none_of_notMem {c : Contribution} {names : List Bytes} {nodup : names.Nodup}
    {child : Bytes → Tree} (h : c.tree = .directory names nodup child) {name : Bytes}
    (hname : name ∉ names) : c.child name = none := by
  rw [Contribution.child, h]
  exact if_neg fun h => hname h.1

theorem children_append (cs cs' : List Contribution) (name : Bytes) :
    children (cs ++ cs') name = children cs name ++ children cs' name :=
  List.filterMap_append

theorem children_singleton (c : Contribution) (name : Bytes) :
    children [c] name = (c.child name).toList := by
  cases h : c.child name with
  | none => simp [children, h]
  | some c' => simp [children, h]

theorem children_of_run_link {dstFile : Bytes} {cs : List Contribution} {first : Contribution}
    (h : run dstFile cs = .ok (.link first)) (hdir : IsDirectory first.tree) (name : Bytes) :
    children cs name = (first.child name).toList := by
  obtain ⟨names, nodup, child, hdir⟩ := hdir
  induction cs using List.reverseRecOn with
  | nil => cases h
  | append_singleton cs c ih =>
      rw [run_append] at h
      obtain ⟨s, hrun, h⟩ := bind_eq_ok.mp h
      rw [children_append, children_singleton]
      cases s with
      | missing =>
          obtain rfl : cs = [] := mem_of_run hrun
          cases h
          rfl
      | opened =>
          rw [step] at h
          split at h <;> cases h
      | link c' =>
          cases htree : c.tree with
          | directory names' nodup' child' =>
              simp only [step, htree] at h
              split at h <;> cases h
          | file =>
              simp only [step, htree] at h
              split_ifs at h with heq hlt
              · cases h
                rw [ih hrun, child_eq_none htree, Option.toList_none, List.append_nil]
              · cases h
                rw [htree] at hdir
                cases hdir

def Failure.IsConflict (e : Failure) : Prop :=
  ∃ fileA fileB priority, e = .fileConflict fileA fileB priority

def Failure.IsCollision (e : Failure) : Prop :=
  e.IsConflict ∨ ∃ fileA fileB, e = collisionWithFile fileA fileB ∨
    e = collisionWithDirectory fileA fileB

theorem isCollision_of_run {dstFile : Bytes} {cs : List Contribution} {e : Failure}
    (h : run dstFile cs = .error e) : e.IsCollision ∧
      (e.IsConflict ∨ ∃ c ∈ cs, ∃ c' ∈ cs, c.tree = .file ∧ IsDirectory c'.tree) := by
  induction cs using List.reverseRecOn with
  | nil => cases h
  | append_singleton cs c ih =>
      have hlast : c ∈ cs ++ [c] := List.mem_append_right _ (List.mem_singleton_self c)
      rw [run_append] at h
      cases hrun : run dstFile cs with
      | error e' =>
          rw [hrun] at h
          cases h
          refine (ih hrun).imp_right (Or.imp_right fun ⟨d, hd, d', hd', hmixed⟩ => ?_)
          exact ⟨d, List.mem_append_left _ hd, d', List.mem_append_left _ hd', hmixed⟩
      | ok s =>
          have hprev := mem_of_run hrun
          rw [hrun] at h
          change step dstFile s c = .error e at h
          cases s with
          | missing => cases h
          | opened =>
              obtain ⟨c', hc', hdir⟩ := hprev
              cases htree : c.tree with
              | directory names nodup child =>
                  simp only [step, htree] at h
                  cases h
              | file =>
                  simp only [step, htree] at h
                  cases h
                  exact ⟨.inr ⟨_, _, .inr rfl⟩,
                    .inr ⟨c, hlast, c', List.mem_append_left _ hc', htree, hdir⟩⟩
          | link first =>
              cases htree : c.tree with
              | directory names nodup child =>
                  cases hfirst : first.tree with
                  | directory names' nodup' child' =>
                      simp only [step, htree, hfirst] at h
                      cases h
                  | file =>
                      simp only [step, htree, hfirst] at h
                      cases h
                      exact ⟨.inr ⟨_, _, .inl rfl⟩, .inr ⟨first, List.mem_append_left _ hprev, c,
                        hlast, hfirst, names, nodup, child, htree⟩⟩
              | file =>
                  simp only [step, htree] at h
                  split_ifs at h
                  cases h
                  exact ⟨.inl ⟨_, _, _, rfl⟩, .inl ⟨_, _, _, rfl⟩⟩

/-- The entry is what the contributions make of the path. -/
def Represents : Entry → Bytes → List Contribution → Prop
  | .missing, _, cs => cs = []
  | .link source target priority, dstFile, cs =>
      run dstFile cs = .ok (.link ⟨source, target, priority⟩)
  | .directory child, dstFile, cs => run dstFile cs = .ok .opened ∧
      ∀ name, Represents (child name) (below dstFile name) (children cs name)

/-- The result stands for the contributions, or the failure is that of a path. -/
def EntryOutcome (r : Except Failure Entry) (dstFile : Bytes) (cs : List Contribution) : Prop :=
  match r with
  | .ok entry => Represents entry dstFile cs
  | .error e => ∃ path, run (pathBelow dstFile path) (contributionsAt cs path) = .error e

def DirectoryOutcome (r : Except Failure Directory) (dstDir : Bytes)
    (cs : Bytes → List Contribution) : Prop :=
  match r with
  | .ok links => ∀ name, Represents (links name) (below dstDir name) (cs name)
  | .error e => ∃ name path, run (pathBelow dstDir (name :: path))
      (contributionsAt (cs name) path) = .error e

theorem represents_linkAll (c : Contribution) (dstDir name : Bytes) :
    Represents (linkAll c.tree c.source c.priority name) (below dstDir name)
      (c.child name).toList := by
  obtain ⟨source, tree, priority⟩ := c
  cases tree with
  | file => rfl
  | directory names nodup child =>
      simp only [linkAll, Contribution.child]
      split <;> rfl

theorem EntryOutcome.error {e : Failure} {dstFile : Bytes} {cs : List Contribution}
    (h : run dstFile cs = .error e) : EntryOutcome (.error e) dstFile cs :=
  ⟨[], h⟩

theorem DirectoryOutcome.entry {r : Except Failure Directory} {dstFile : Bytes}
    {cs : List Contribution} (hrun : run dstFile cs = .ok .opened)
    (h : DirectoryOutcome r dstFile (children cs)) :
    EntryOutcome (r.map .directory) dstFile cs := by
  cases r with
  | ok links => exact ⟨hrun, h⟩
  | error e =>
      obtain ⟨name, path, h⟩ := h
      exact ⟨name :: path, h⟩

theorem linkEntry_outcome {create : Directory → Except Failure Directory} {c : Contribution}
    {dstFile : Bytes} {entry : Entry} {cs : List Contribution}
    (hcreate : ∀ (links : Directory) (css : Bytes → List Contribution),
      (∀ name, Represents (links name) (below dstFile name) (css name)) →
        DirectoryOutcome (create links) dstFile fun name => css name ++ (c.child name).toList)
    (hentry : Represents entry dstFile cs) :
    EntryOutcome (linkEntry create c.tree c.source dstFile c.priority entry) dstFile
      (cs ++ [c]) := by
  have hchildren : children (cs ++ [c]) =
      fun name => children cs name ++ (c.child name).toList := by
    funext name
    rw [children_append, children_singleton]
  obtain ⟨source, tree, priority⟩ := c
  cases tree with
  | directory names nodup child =>
      cases entry with
      | missing =>
          obtain rfl : cs = [] := hentry
          rfl
      | directory links =>
          refine DirectoryOutcome.entry ?_ ?_
          · rw [run_append, hentry.1]
            rfl
          · rw [hchildren]
            exact hcreate links (children cs) hentry.2
      | link first target prevPriority =>
          have hrun : run dstFile cs = .ok (.link ⟨first, target, prevPriority⟩) := hentry
          cases target with
          | file =>
              refine EntryOutcome.error ?_
              rw [run_append, hrun]
              rfl
          | directory names' nodup' child' =>
              refine DirectoryOutcome.entry ?_ ?_
              · rw [run_append, hrun]
                rfl
              · rw [hchildren]
                refine hcreate _ (children cs) fun name => ?_
                rw [children_of_run_link hrun ⟨_, _, _, rfl⟩]
                exact represents_linkAll ⟨first, .directory names' nodup' child', prevPriority⟩ _ _
  | file =>
      cases entry with
      | missing =>
          obtain rfl : cs = [] := hentry
          rfl
      | directory links =>
          refine EntryOutcome.error ?_
          rw [run_append, hentry.1]
          rfl
      | link first target prevPriority =>
          have hrun : run dstFile cs = .ok (.link ⟨first, target, prevPriority⟩) := hentry
          have hstep : run dstFile (cs ++ [⟨source, .file, priority⟩]) =
              step dstFile (.link ⟨first, target, prevPriority⟩) ⟨source, .file, priority⟩ := by
            rw [run_append, hrun]
            rfl
          rw [linkEntry]
          dsimp only
          split
          next heq =>
            refine EntryOutcome.error ?_
            rw [hstep, step]
            exact if_pos heq
          next hne =>
            split
            next hlt =>
              show run dstFile _ = _
              rw [hstep, step]
              exact (if_neg hne).trans (if_pos hlt)
            next hlt =>
              show run dstFile _ = _
              rw [hstep, step]
              exact (if_neg hne).trans (if_neg hlt)

theorem foldlM_outcome {round : Directory → Bytes → Except Failure Directory} {dstDir : Bytes}
    {more : Bytes → List Contribution} {names : List Bytes} (hnodup : names.Nodup)
    (hround : ∀ name ∈ names, ∀ (links : Directory) (css : Bytes → List Contribution),
      (∀ n, Represents (links n) (below dstDir n) (css n)) →
        match round links name with
        | .ok links' => Represents (links' name) (below dstDir name) (css name ++ more name) ∧
            ∀ n, n ≠ name → links' n = links n
        | .error e => ∃ path, run (pathBelow dstDir (name :: path))
            (contributionsAt (css name ++ more name) path) = .error e)
    (links : Directory) (css : Bytes → List Contribution)
    (h : ∀ n, Represents (links n) (below dstDir n) (css n)) :
    DirectoryOutcome (names.foldlM round links) dstDir
      fun n => if n ∈ names then css n ++ more n else css n := by
  induction names generalizing links css with
  | nil =>
      intro n
      simp only [List.not_mem_nil, if_false]
      exact h n
  | cons name names ih =>
      rw [List.nodup_cons] at hnodup
      have hfirst := hround name List.mem_cons_self links css h
      rw [List.foldlM_cons]
      cases hrun : round links name with
      | error e =>
          rw [hrun] at hfirst
          obtain ⟨path, hpath⟩ := hfirst
          refine ⟨name, path, ?_⟩
          simp only [List.mem_cons_self, if_true]
          exact hpath
      | ok links' =>
          rw [hrun] at hfirst
          obtain ⟨hname, hother⟩ := hfirst
          have hrest := ih hnodup.2 (fun n hn => hround n (List.mem_cons_of_mem _ hn)) links'
            (fun n => if n = name then css n ++ more n else css n) fun n => by
              by_cases hn : n = name
              · subst hn
                rw [if_pos rfl]
                exact hname
              · rw [if_neg hn, hother n hn]
                exact h n
          have hcss : (fun n => if n ∈ name :: names then css n ++ more n else css n) =
              fun n => if n ∈ names then (if n = name then css n ++ more n else css n) ++ more n
                else if n = name then css n ++ more n else css n := by
            funext n
            by_cases hn : n = name
            · subst hn
              rw [if_pos List.mem_cons_self, if_neg hnodup.1, if_pos rfl]
            · simp only [List.mem_cons, hn, false_or, if_false]
          rw [hcss]
          exact hrest

theorem createLinks_outcome (tree : Tree) (srcDir dstDir : Bytes) (priority : Int)
    (links : Directory) (css : Bytes → List Contribution)
    (h : ∀ name, Represents (links name) (below dstDir name) (css name)) :
    DirectoryOutcome (createLinks tree srcDir dstDir priority links) dstDir
      fun name => css name ++ ((⟨srcDir, tree, priority⟩ : Contribution).child name).toList := by
  induction tree generalizing srcDir dstDir links css with
  | file =>
      intro name
      dsimp only
      rw [child_eq_none rfl, Option.toList_none, List.append_nil]
      exact h name
  | directory names nodup child ih =>
      let c : Contribution := ⟨srcDir, .directory names nodup child, priority⟩
      have hcss : (fun name => css name ++ (c.child name).toList) =
          fun name => if name ∈ names then css name ++ (c.child name).toList else css name := by
        funext name
        by_cases hname : name ∈ names
        · rw [if_pos hname]
        · rw [if_neg hname, child_eq_none_of_notMem rfl hname, Option.toList_none, List.append_nil]
      rw [hcss, createLinks]
      refine foldlM_outcome nodup (fun name hname links css h => ?_) links css h
      cases hskips : skips srcDir name with
      | true =>
          have hchild : c.child name = none :=
            if_neg fun hkept => Bool.noConfusion (hskips.symm.trans hkept.2)
          rw [if_pos rfl, hchild, Option.toList_none, List.append_nil]
          exact ⟨h name, fun n _ => rfl⟩
      | false =>
          have hchild : c.child name = some ⟨below srcDir name, child name, priority⟩ :=
            if_pos ⟨hname, hskips⟩
          have hentry := linkEntry_outcome
            (ih name (below srcDir name) (below dstDir name)) (h name)
          rw [if_neg Bool.false_ne_true, hchild, Option.toList_some]
          cases hlink : linkEntry
              (createLinks (child name) (below srcDir name) (below dstDir name) priority)
              (child name) (below srcDir name) (below dstDir name) priority (links name) with
          | error e =>
              rw [hlink] at hentry
              simp only [hlink]
              exact hentry
          | ok entry =>
              rw [hlink] at hentry
              simp only [hlink]
              refine ⟨?_, fun n hn => Function.update_of_ne hn _ _⟩
              rw [Function.update_self]
              exact hentry

end Nix.Store.BuildEnv
