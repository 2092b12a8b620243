import Nix.Store.BuildEnvCollisions

/-!
Packages in a profile: a file that several of them have is that of the smallest priority, or there
is an error.
-/

set_option linter.dupNamespace false

namespace Nix.Store.BuildEnv

open Util.Types Lib.Results

def Package.contributionAt (sources : Sources) (pkg : Package) (path : List Bytes) :
    Option Contribution :=
  (sources.tree pkg.path).bind fun tree =>
    (⟨pkg.path, tree, pkg.priority⟩ : Contribution).descend path

def added : List Package → List Bytes → List Package
  | [], _ => []
  | pkg :: pkgs, done =>
      if pkg.active ∧ pkg.path ∉ done then pkg :: added pkgs (pkg.path :: done)
      else added pkgs done

/-- What the packages have at a path, in their order. -/
def contributing (sources : Sources) (pkgs : List Package) (path : List Bytes) :
    List Contribution :=
  (added (pkgs.mergeSort comesBefore) []).filterMap (·.contributionAt sources path)

theorem added_sublist (pkgs : List Package) (done : List Bytes) :
    (added pkgs done).Sublist pkgs := by
  induction pkgs generalizing done with
  | nil => exact .slnil
  | cons pkg pkgs ih =>
      rw [added]
      split
      · exact (ih _).cons_cons pkg
      · exact (ih _).cons pkg

theorem active_of_added {pkg : Package} {pkgs : List Package} {done : List Bytes}
    (h : pkg ∈ added pkgs done) : pkg.active = true := by
  induction pkgs generalizing done with
  | nil => cases h
  | cons pkg' pkgs ih =>
      rw [added] at h
      split at h
      next hadded =>
        rcases List.mem_cons.mp h with rfl | h
        · exact hadded.1
        · exact ih h
      next => exact ih h

theorem exists_added {pkg : Package} {pkgs : List Package} {done : List Bytes}
    (hsorted : pkgs.Pairwise fun pkg pkg' => pkg.priority ≤ pkg'.priority) (hpkg : pkg ∈ pkgs)
    (hactive : pkg.active = true) (hdone : pkg.path ∉ done) :
    ∃ pkg' ∈ added pkgs done, pkg'.path = pkg.path ∧ pkg'.priority ≤ pkg.priority := by
  induction pkgs generalizing done with
  | nil => cases hpkg
  | cons pkg' pkgs ih =>
      obtain ⟨hle, hsorted⟩ := List.pairwise_cons.mp hsorted
      rw [added]
      by_cases hpath : pkg'.path = pkg.path ∧ pkg'.active
      · rw [if_pos ⟨hpath.2, hpath.1 ▸ hdone⟩]
        refine ⟨pkg', List.mem_cons_self, hpath.1, ?_⟩
        rcases List.mem_cons.mp hpkg with rfl | hpkg
        · exact le_rfl
        · exact hle pkg hpkg
      · have hne : pkg ≠ pkg' := by
          rintro rfl
          exact hpath ⟨rfl, hactive⟩
        have hpkg : pkg ∈ pkgs := (List.mem_cons.mp hpkg).resolve_left hne
        split
        next hadded =>
          have hdone : pkg.path ∉ pkg'.path :: done := fun h =>
            (List.mem_cons.mp h).elim (fun h => hpath ⟨h.symm, hadded.1⟩) hdone
          obtain ⟨pkg'', hmem, h⟩ := ih hsorted hpkg hdone
          exact ⟨pkg'', List.mem_cons_of_mem _ hmem, h⟩
        next => exact ih hsorted hpkg hdone

theorem comparePaths_total (a b : Bytes) :
    (comparePaths a b).isLE = true ∨ (comparePaths b a).isLE = true := by
  have hswap : compare (a.splitOn 47) (b.splitOn 47) =
      (compare (b.splitOn 47) (a.splitOn 47)).swap := Std.OrientedCmp.eq_swap
  rw [comparePaths, comparePaths, hswap]
  cases compare (b.splitOn 47) (a.splitOn 47) <;> decide

theorem comparePaths_trans {a b c : Bytes} (hab : (comparePaths a b).isLE = true)
    (hbc : (comparePaths b c).isLE = true) : (comparePaths a c).isLE = true :=
  @Std.TransCmp.isLE_trans (List Bytes) compare _ (a.splitOn 47) (b.splitOn 47) (c.splitOn 47)
    hab hbc

theorem comesBefore_iff {a b : Package} : comesBefore a b = true ↔
    a.priority < b.priority ∨
      a.priority = b.priority ∧ (comparePaths a.path b.path).isLE = true := by
  simp only [comesBefore, Bool.or_eq_true, Bool.and_eq_true, decide_eq_true_eq]

theorem comesBefore_total (a b : Package) : (comesBefore a b || comesBefore b a) = true := by
  rw [Bool.or_eq_true, comesBefore_iff, comesBefore_iff]
  rcases lt_trichotomy a.priority b.priority with h | h | h
  · exact .inl (.inl h)
  · exact (comparePaths_total a.path b.path).imp (fun hle => .inr ⟨h, hle⟩)
      fun hle => .inr ⟨h.symm, hle⟩
  · exact .inr (.inl h)

theorem comesBefore_trans (a b c : Package) (hab : comesBefore a b = true)
    (hbc : comesBefore b c = true) : comesBefore a c = true := by
  rw [comesBefore_iff] at hab hbc ⊢
  rcases hab with hab | ⟨hab, hpathab⟩ <;> rcases hbc with hbc | ⟨hbc, hpathbc⟩
  · exact .inl (hab.trans hbc)
  · exact .inl (hbc ▸ hab)
  · exact .inl (hab ▸ hbc)
  · exact .inr ⟨hab.trans hbc, comparePaths_trans hpathab hpathbc⟩

theorem priority_le_of_comesBefore {a b : Package} (h : comesBefore a b = true) :
    a.priority ≤ b.priority :=
  (comesBefore_iff.mp h).elim le_of_lt fun h => le_of_eq h.1

theorem sorted_mergeSort (pkgs : List Package) :
    (pkgs.mergeSort comesBefore).Pairwise fun pkg pkg' => pkg.priority ≤ pkg'.priority :=
  (List.pairwise_mergeSort comesBefore_trans comesBefore_total pkgs).imp priority_le_of_comesBefore

section

variable {sources : Sources} {out : Bytes}

/-- The package is a tree, and declares no propagated packages. -/
def Plain (sources : Sources) (pkg : Package) : Prop :=
  (sources.tree pkg.path).isSome = true ∧ sources.propagated pkg.path = .ok []

def Package.root (sources : Sources) (pkg : Package) : Option Contribution :=
  pkg.contributionAt sources []

theorem run_append_error {dstFile : Bytes} {cs cs' : List Contribution} {e : Failure}
    (h : run dstFile cs = .error e) : run dstFile (cs ++ cs') = .error e := by
  rw [run, List.foldlM_append]
  rw [run] at h
  rw [h]
  rfl

theorem contributionsAt_append (cs cs' : List Contribution) (path : List Bytes) :
    contributionsAt (cs ++ cs') path = contributionsAt cs path ++ contributionsAt cs' path := by
  rw [contributionsAt_eq, contributionsAt_eq, contributionsAt_eq, List.filterMap_append]

theorem addPkg_outcome {pkg : Package} {s : Build} {cs : List Contribution}
    (hplain : Plain sources pkg) (hdone : pkg.path ∉ s.done)
    (h : ∀ name, Represents (s.links name) (below out name) (children cs name)) :
    match addPkg sources out s pkg.path pkg.priority with
    | .ok s' => s'.done = pkg.path :: s.done ∧ s'.postponed = s.postponed ∧
        ∀ name, Represents (s'.links name) (below out name)
          (children (cs ++ (pkg.root sources).toList) name)
    | .error e => ∃ name path, run (pathBelow out (name :: path))
        (contributionsAt (cs ++ (pkg.root sources).toList) (name :: path)) = .error e := by
  obtain ⟨htree, hpropagated⟩ := hplain
  obtain ⟨tree, htree⟩ := Option.isSome_iff_exists.mp htree
  have hroot : pkg.root sources = some ⟨pkg.path, tree, pkg.priority⟩ := by
    rw [Package.root, Package.contributionAt, htree]
    rfl
  have hout := createLinks_outcome tree pkg.path out pkg.priority s.links (children cs) h
  have hchildren : (fun name => children cs name ++
      ((⟨pkg.path, tree, pkg.priority⟩ : Contribution).child name).toList) =
      children (cs ++ (pkg.root sources).toList) := by
    funext name
    rw [hroot, Option.toList_some, children_append, children_singleton]
  rw [hchildren] at hout
  simp only [addPkg, if_neg hdone, htree]
  cases hlinks : createLinks tree pkg.path out pkg.priority s.links with
  | error e =>
      rw [hlinks] at hout
      exact hout
  | ok links =>
      rw [hlinks] at hout
      simp only [hpropagated]
      exact ⟨rfl, rfl, hout⟩

theorem addPackages_cons (pkg : Package) (pkgs : List Package) (s : Build) :
    addPackages sources out (pkg :: pkgs) s =
      (if pkg.active = true ∧ pkg.path ∉ s.done then addPkg sources out s pkg.path pkg.priority
        else .ok s) >>= addPackages sources out pkgs := by
  rw [addPackages]
  by_cases hactive : pkg.active = true
  · by_cases hdone : pkg.path ∈ s.done
    · simp [hactive, hdone, addPkg]
    · simp [hactive, hdone]
  · simp [hactive]

theorem filterMap_cons_eq {α β : Type} (f : α → Option β) (a : α) (l : List α) :
    (a :: l).filterMap f = (f a).toList ++ l.filterMap f := by
  cases h : f a <;> simp [h]

theorem addPackages_outcome {pkgs : List Package} {s : Build} {cs : List Contribution}
    (hplain : ∀ pkg ∈ pkgs, pkg.active = true → Plain sources pkg)
    (h : ∀ name, Represents (s.links name) (below out name) (children cs name)) :
    match addPackages sources out pkgs s with
    | .ok s' => s'.postponed = s.postponed ∧ ∀ name, Represents (s'.links name) (below out name)
        (children (cs ++ (added pkgs s.done).filterMap (·.root sources)) name)
    | .error e => ∃ name path, run (pathBelow out (name :: path)) (contributionsAt
        (cs ++ (added pkgs s.done).filterMap (·.root sources)) (name :: path)) = .error e := by
  induction pkgs generalizing s cs with
  | nil =>
      rw [addPackages, added, List.filterMap_nil, List.append_nil]
      exact ⟨rfl, h⟩
  | cons pkg pkgs ih =>
      obtain ⟨hpkg, hplain⟩ := List.forall_mem_cons.mp hplain
      rw [addPackages_cons, added]
      by_cases hadded : pkg.active = true ∧ pkg.path ∉ s.done
      · have hout := addPkg_outcome (hpkg hadded.1) hadded.2 h
        rw [if_pos hadded, if_pos hadded, filterMap_cons_eq, ← List.append_assoc]
        cases hstep : addPkg sources out s pkg.path pkg.priority with
        | error e =>
            rw [hstep] at hout
            obtain ⟨name, path, hrun⟩ := hout
            refine ⟨name, path, ?_⟩
            rw [contributionsAt_append]
            exact run_append_error hrun
        | ok s' =>
            rw [hstep] at hout
            obtain ⟨hdone, hpostponed, h'⟩ := hout
            rw [← hdone, ← hpostponed]
            exact ih hplain h'
      · rw [if_neg hadded, if_neg hadded]
        exact ih hplain h

theorem buildProfile_outcome {pkgs : List Package} (rounds : Nat)
    (hplain : ∀ pkg ∈ pkgs, pkg.active = true → Plain sources pkg) :
    match buildProfile sources out rounds pkgs with
    | .ok links => ∀ name, Represents (links name) (below out name)
        (children (contributing sources pkgs []) name)
    | .error e => ∃ name path, run (pathBelow out (name :: path))
        (contributionsAt (contributing sources pkgs []) (name :: path)) = .error e := by
  have hout := @addPackages_outcome sources out (pkgs.mergeSort comesBefore) {} []
    (fun pkg hpkg => hplain pkg (List.mem_mergeSort.mp hpkg)) fun name => rfl
  rw [buildProfile]
  cases hadd : addPackages sources out (pkgs.mergeSort comesBefore) {} with
  | error e =>
      rw [hadd] at hout
      exact hout
  | ok s =>
      rw [hadd] at hout
      have helems : s.postponed.elems = [] := by
        rw [hout.1]
        rfl
      have hpostponed : addPostponed sources out rounds 1000 s = .ok s := by
        rw [addPostponed.eq_def]
        exact if_pos helems
      simp only [bind, Except.bind, hpostponed]
      exact hout.2

theorem contributing_eq (pkgs : List Package) (path : List Bytes) :
    contributionsAt (contributing sources pkgs []) path = contributing sources pkgs path := by
  rw [contributionsAt_eq, contributing, contributing, List.filterMap_filterMap]
  refine List.filterMap_congr fun pkg _ => ?_
  rw [Package.contributionAt, Package.contributionAt, Option.bind_assoc]
  rfl

theorem byPriority_contributing (pkgs : List Package) (path : List Bytes) :
    ByPriority (contributing sources pkgs path) := by
  refine List.Pairwise.filterMap _ (fun pkg pkg' hle c hc c' hc' => ?_)
    ((sorted_mergeSort pkgs).sublist (added_sublist _ []))
  obtain ⟨tree, -, hc⟩ := Option.bind_eq_some_iff.mp hc
  obtain ⟨tree', -, hc'⟩ := Option.bind_eq_some_iff.mp hc'
  rw [(Contribution.descend_spec hc).2.2, (Contribution.descend_spec hc').2.2]
  exact hle

end

def HasFile (sources : Sources) (pkg : Package) (path : List Bytes) : Prop :=
  ∃ c, pkg.contributionAt sources path = some c ∧ c.tree = .file

def HasDirectory (sources : Sources) (pkg : Package) (path : List Bytes) : Prop :=
  ∃ c, pkg.contributionAt sources path = some c ∧ IsDirectory c.tree

/-- The package is active, and no other one with a file at the path has a smaller priority. -/
def Foremost (sources : Sources) (pkgs : List Package) (pkg : Package) (path : List Bytes) : Prop :=
  (pkg ∈ pkgs ∧ pkg.active = true ∧ HasFile sources pkg path) ∧
    ∀ pkg' ∈ pkgs, pkg'.active = true → HasFile sources pkg' path → pkg.priority ≤ pkg'.priority

/-- The path is a file in one package and a directory in another. -/
def Mixed (sources : Sources) (pkgs : List Package) (path : List Bytes) : Prop :=
  ∃ pkg ∈ pkgs, ∃ pkg' ∈ pkgs, pkg.active = true ∧ pkg'.active = true ∧
    HasFile sources pkg path ∧ HasDirectory sources pkg' path

/-- Collisions are resolved by priority. Where there are both kinds of them, the error is that of
the first one that is found. -/
structure ResolvesCollisions (sources : Sources) (out : Bytes) (rounds : Nat)
    (pkgs : List Package) : Prop where
  resolves : ∀ links, buildProfile sources out rounds pkgs = .ok links →
    ∀ path ≠ [], ∀ pkg, Foremost sources pkgs pkg path →
      (Entry.directory links).resolve path = some (pathBelow pkg.path path, .file)
  conflicts : (∀ path ≠ [], ¬Mixed sources pkgs path) →
    ∀ path ≠ [], ∀ pkg pkg', Foremost sources pkgs pkg path → Foremost sources pkgs pkg' path →
      pkg.path ≠ pkg'.path → ∃ e, buildProfile sources out rounds pkgs = .error e ∧ e.IsConflict
  collides : ∀ path ≠ [], Mixed sources pkgs path →
    ∃ e, buildProfile sources out rounds pkgs = .error e ∧ e.IsCollision

section

variable {sources : Sources} {out : Bytes} {pkgs : List Package}

theorem mem_contributing {path : List Bytes} {c : Contribution}
    (h : c ∈ contributing sources pkgs path) :
    ∃ pkg ∈ pkgs, pkg.active = true ∧ pkg.contributionAt sources path = some c := by
  obtain ⟨pkg, hpkg, hc⟩ := List.mem_filterMap.mp h
  exact ⟨pkg, List.mem_mergeSort.mp ((added_sublist _ _).subset hpkg), active_of_added hpkg, hc⟩

theorem contributionAt_spec {pkg : Package} {path : List Bytes} {c : Contribution}
    (h : pkg.contributionAt sources path = some c) :
    c.source = pathBelow pkg.path path ∧ c.priority = pkg.priority := by
  obtain ⟨tree, -, hc⟩ := Option.bind_eq_some_iff.mp h
  exact ⟨(Contribution.descend_spec hc).1, (Contribution.descend_spec hc).2.2⟩

theorem mixed_of_contributing {path : List Bytes} {c c' : Contribution}
    (hc : c ∈ contributing sources pkgs path) (hc' : c' ∈ contributing sources pkgs path)
    (hfile : c.tree = .file) (hdir : IsDirectory c'.tree) : Mixed sources pkgs path := by
  obtain ⟨pkg, hpkg, hactive, hc⟩ := mem_contributing hc
  obtain ⟨pkg', hpkg', hactive', hc'⟩ := mem_contributing hc'
  exact ⟨pkg, hpkg, pkg', hpkg', hactive, hactive', ⟨c, hc, hfile⟩, ⟨c', hc', hdir⟩⟩

theorem map_tree_descend (source : Bytes) (tree : Tree) (priority priority' : Int)
    (path : List Bytes) :
    ((⟨source, tree, priority⟩ : Contribution).descend path).map (·.tree) =
      ((⟨source, tree, priority'⟩ : Contribution).descend path).map (·.tree) := by
  induction path generalizing source tree with
  | nil => rfl
  | cons name path ih =>
      simp only [Contribution.descend, Contribution.child]
      cases tree with
      | file => rfl
      | directory names nodup child =>
          dsimp only
          split
          · exact ih (below source name) (child name)
          · rfl

theorem Foremost.exists_contributing {pkg : Package} {path : List Bytes}
    (h : Foremost sources pkgs pkg path) :
    ∃ c ∈ contributing sources pkgs path, c.tree = .file ∧
      c.source = pathBelow pkg.path path ∧ c.priority = pkg.priority := by
  obtain ⟨⟨hpkg, hactive, c, hc, hfile⟩, hmin⟩ := h
  obtain ⟨pkg', hadded, hpath, hle⟩ := exists_added (sorted_mergeSort pkgs)
    (List.mem_mergeSort.mpr hpkg) hactive List.not_mem_nil
  have htree : (pkg'.contributionAt sources path).map (·.tree) = some .file := by
    rw [Package.contributionAt] at hc ⊢
    rw [hpath, Option.map_bind]
    obtain ⟨tree, htree, hc⟩ := Option.bind_eq_some_iff.mp hc
    rw [htree, Option.bind_some, Function.comp_apply,
      map_tree_descend pkg.path tree pkg'.priority pkg.priority, hc, Option.map_some, hfile]
  obtain ⟨c', hc', hfile'⟩ := Option.map_eq_some_iff.mp htree
  have hle' := hmin pkg' (List.mem_mergeSort.mp ((added_sublist _ _).subset hadded))
    (active_of_added hadded) ⟨c', hc', hfile'⟩
  obtain ⟨hsource, hpriority⟩ := contributionAt_spec hc'
  refine ⟨c', List.mem_filterMap.mpr ⟨pkg', hadded, hc'⟩, hfile', ?_, ?_⟩
  · rw [hsource, hpath]
  · rw [hpriority]
    exact le_antisymm hle hle'

theorem buildProfile_error {rounds : Nat} {e : Failure}
    (hplain : ∀ pkg ∈ pkgs, pkg.active = true → Plain sources pkg)
    (h : buildProfile sources out rounds pkgs = .error e) : e.IsCollision ∧
      (e.IsConflict ∨ ∃ path ≠ [], Mixed sources pkgs path) ∧
        ∃ path ≠ [], Clash (contributing sources pkgs path) := by
  have hout := @buildProfile_outcome sources out pkgs rounds hplain
  rw [h] at hout
  obtain ⟨name, path, hrun⟩ := hout
  rw [contributing_eq] at hrun
  obtain ⟨hcollision, hkind⟩ := isCollision_of_run hrun
  refine ⟨hcollision, hkind.imp_right ?_, name :: path, List.cons_ne_nil _ _, ?_⟩
  · rintro ⟨c, hc, c', hc', hfile, hdir⟩
    exact ⟨name :: path, List.cons_ne_nil _ _, mixed_of_contributing hc hc' hfile hdir⟩
  · exact (run_eq_error_iff (byPriority_contributing pkgs _)).mp ⟨e, hrun⟩

theorem buildProfile_ok {rounds : Nat} {links : Directory}
    (hplain : ∀ pkg ∈ pkgs, pkg.active = true → Plain sources pkg)
    (h : buildProfile sources out rounds pkgs = .ok links) {path : List Bytes} (hpath : path ≠ []) :
    ¬Clash (contributing sources pkgs path) ∧
      ∀ c rest, contributing sources pkgs path = c :: rest → c.tree = .file →
        (Entry.directory links).resolve path = some (c.source, .file) := by
  have hout := @buildProfile_outcome sources out pkgs rounds hplain
  rw [h] at hout
  cases path with
  | nil => exact absurd rfl hpath
  | cons name path =>
      have hsorted := (@byPriority_contributing sources pkgs []).children name
      rw [← contributing_eq]
      refine ⟨(hout name).not_clash hsorted path, fun c rest hc hfile => ?_⟩
      rw [Entry.resolve]
      exact (hout name).resolve hsorted hc hfile

theorem pathBelow_injective {dir dir' : Bytes} {path : List Bytes}
    (h : pathBelow dir path = pathBelow dir' path) : dir = dir' := by
  induction path generalizing dir dir' with
  | nil => exact h
  | cons name path ih => exact List.append_cancel_right (ih h)

theorem Foremost.eq_first {pkg : Package} {path : List Bytes}
    (h : Foremost sources pkgs pkg path) (hmixed : ¬Mixed sources pkgs path)
    (hclash : ¬Clash (contributing sources pkgs path)) :
    ∃ c rest, contributing sources pkgs path = c :: rest ∧ c.tree = .file ∧
      c.source = pathBelow pkg.path path := by
  obtain ⟨c, hc, hfile, hsource, hpriority⟩ := h.exists_contributing
  have hsorted := @byPriority_contributing sources pkgs path
  cases hlist : contributing sources pkgs path with
  | nil =>
      rw [hlist] at hc
      cases hc
  | cons first rest =>
      have hfirst : first ∈ contributing sources pkgs path := hlist ▸ List.mem_cons_self
      have hfilefirst : first.tree = .file :=
        not_isDirectory.mp fun hdir => hmixed (mixed_of_contributing hc hfirst hfile hdir)
      refine ⟨first, rest, rfl, hfilefirst, ?_⟩
      rw [hlist] at hc hclash hsorted
      rcases List.mem_cons.mp hc with rfl | hrest
      · exact hsource
      · -- A second package of the same priority would be in conflict with the first one.
        obtain ⟨pkg', hpkg', hactive', hc'⟩ := mem_contributing hfirst
        have hle : pkg.priority ≤ first.priority := by
          rw [(contributionAt_spec hc').2]
          exact h.2 pkg' hpkg' hactive' ⟨first, hc', hfilefirst⟩
        have hge := (List.pairwise_cons.mp hsorted).1 c hrest
        exact absurd (.samePriority hrest hfile (le_antisymm hge (hpriority ▸ hle))) hclash

/-- Collisions are resolved by priority if and only if a path is not mixed, or there is also a
path at which the packages clash. -/
theorem resolvesCollisions_iff (rounds : Nat)
    (hplain : ∀ pkg ∈ pkgs, pkg.active = true → Plain sources pkg) :
    ResolvesCollisions sources out rounds pkgs ↔
      ((∃ path ≠ [], Mixed sources pkgs path) →
        ∃ path ≠ [], Clash (contributing sources pkgs path)) := by
  constructor
  · rintro h ⟨path, hpath, hmixed⟩
    obtain ⟨e, he, -⟩ := h.collides path hpath hmixed
    exact (buildProfile_error hplain he).2.2
  · intro hcond
    have herror : ∀ path ≠ [], Clash (contributing sources pkgs path) →
        ∃ e, buildProfile sources out rounds pkgs = .error e := by
      intro path hpath hclash
      cases h : buildProfile sources out rounds pkgs with
      | error e => exact ⟨e, rfl⟩
      | ok links => exact absurd hclash (buildProfile_ok hplain h hpath).1
    refine ⟨fun links h path hpath pkg hforemost => ?_,
      fun hunmixed path hpath pkg pkg' hforemost hforemost' hne => ?_,
      fun path hpath hmixed => ?_⟩
    · have hclash : ∀ path ≠ [], ¬Clash (contributing sources pkgs path) :=
        fun path hpath => (buildProfile_ok hplain h hpath).1
      have hmixed : ¬Mixed sources pkgs path := fun hmixed => by
        obtain ⟨path', hpath', hclash'⟩ := hcond ⟨path, hpath, hmixed⟩
        exact hclash path' hpath' hclash'
      obtain ⟨c, rest, hlist, hfile, hsource⟩ := hforemost.eq_first hmixed (hclash path hpath)
      rw [(buildProfile_ok hplain h hpath).2 c rest hlist hfile, hsource]
    · have hclash : Clash (contributing sources pkgs path) := by
        by_contra hclash
        obtain ⟨c, rest, hlist, -, hsource⟩ := hforemost.eq_first (hunmixed path hpath) hclash
        obtain ⟨c', rest', hlist', -, hsource'⟩ :=
          hforemost'.eq_first (hunmixed path hpath) hclash
        cases hlist.symm.trans hlist'
        exact hne (pathBelow_injective (hsource.symm.trans hsource'))
      obtain ⟨e, he⟩ := herror path hpath hclash
      refine ⟨e, he, (buildProfile_error hplain he).2.1.resolve_right ?_⟩
      rintro ⟨path', hpath', hmixed⟩
      exact hunmixed path' hpath' hmixed
    · obtain ⟨path', hpath', hclash⟩ := hcond ⟨path, hpath, hmixed⟩
      obtain ⟨e, he⟩ := herror path' hpath' hclash
      exact ⟨e, he, (buildProfile_error hplain he).1⟩

end

/-- A package with a directory at the path that is a file in another. -/
def shellAndScript : Sources where
  tree path :=
    if path = str "/nix/store/shell" then
      some (.directory [str "share", str "hook"] (by decide) fun name =>
        if name = str "hook" then .directory [str "init"] (by decide) fun _ => .file else .file)
    else if path = str "/nix/store/script" then
      some (.directory [str "hook", str ".keep"] (by decide) fun _ => .file)
    else none
  propagated _ := .ok []

theorem resolvesCollisions_shellAndScript :
    ResolvesCollisions shellAndScript (str "/out") 0
      [⟨str "/nix/store/script", true, 1⟩, ⟨str "/nix/store/shell", true, 2⟩] := by
  refine (resolvesCollisions_iff 0 ?_).mpr fun _ => ⟨[str "hook"], List.cons_ne_nil _ _, ?_⟩
  · refine List.forall_mem_cons.mpr ⟨fun _ => ⟨rfl, rfl⟩, ?_⟩
    exact List.forall_mem_cons.mpr ⟨fun _ => ⟨rfl, rfl⟩, List.forall_mem_nil _⟩
  · rw [contributing, List.mergeSort_of_pairwise (by decide)]
    exact .directoryAfterFile rfl List.mem_cons_self ⟨_, _, _, rfl⟩

/-- The file of the second package is left out, and there is no error. -/
theorem not_resolvesCollisions_shellAndScript :
    ¬ResolvesCollisions shellAndScript (str "/out") 0
      [⟨str "/nix/store/shell", true, 1⟩, ⟨str "/nix/store/script", true, 2⟩] := by
  intro h
  have hmixed : Mixed shellAndScript
      [⟨str "/nix/store/shell", true, 1⟩, ⟨str "/nix/store/script", true, 2⟩] [str "hook"] :=
    ⟨_, List.mem_cons_of_mem _ List.mem_cons_self, _, List.mem_cons_self, rfl, rfl,
      ⟨_, rfl, rfl⟩, _, rfl, _, _, _, rfl⟩
  obtain ⟨e, he, -⟩ := h.collides [str "hook"] (List.cons_ne_nil _ _) hmixed
  have hsorted : [Package.mk (str "/nix/store/shell") true 1,
      ⟨str "/nix/store/script", true, 2⟩].mergeSort comesBefore = _ :=
    List.mergeSort_of_pairwise (by decide)
  rw [buildProfile, hsorted] at he
  cases he

end Nix.Store.BuildEnv
