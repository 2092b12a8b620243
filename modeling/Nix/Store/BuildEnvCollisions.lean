import Nix.Store.BuildEnv

/-!
Collisions at a path: which contributions of packages, in the order of their priorities, are not
put in one profile, and what a path of the profile leads to where there are none.
-/

set_option linter.dupNamespace false

namespace Nix.Store.BuildEnv

open Util.Types Lib.Results

def Contribution.descend : Contribution → List Bytes → Option Contribution
  | c, [] => some c
  | c, name :: path => (c.child name).bind (·.descend path)

theorem Contribution.child_eq_some {c c' : Contribution} {name : Bytes}
    (h : c.child name = some c') :
    ∃ names nodup child, c.tree = .directory names nodup child ∧ name ∈ names ∧
      c' = ⟨below c.source name, child name, c.priority⟩ := by
  rw [Contribution.child] at h
  split at h
  · cases h
  · next names nodup child htree =>
      obtain ⟨hkept, h⟩ := Option.ite_none_right_eq_some.mp h
      exact ⟨names, nodup, child, htree, hkept.1, (Option.some.inj h).symm⟩

theorem Contribution.descend_spec {c c' : Contribution} {path : List Bytes}
    (h : c.descend path = some c') : c'.source = pathBelow c.source path ∧
      c.tree.lookup path = some c'.tree ∧ c'.priority = c.priority := by
  induction path generalizing c with
  | nil =>
      cases h
      exact ⟨rfl, by simp [Tree.lookup], rfl⟩
  | cons name path ih =>
      obtain ⟨d, hd, h⟩ := Option.bind_eq_some_iff.mp h
      obtain ⟨names, nodup, child, htree, hname, rfl⟩ := Contribution.child_eq_some hd
      obtain ⟨hsource, hlookup, hpriority⟩ := ih h
      refine ⟨hsource, ?_, hpriority⟩
      rw [htree, Tree.lookup, if_pos hname]
      exact hlookup

theorem contributionsAt_eq (cs : List Contribution) (path : List Bytes) :
    contributionsAt cs path = cs.filterMap (·.descend path) := by
  induction path generalizing cs with
  | nil => exact (List.filterMap_some).symm
  | cons name path ih =>
      rw [contributionsAt, ih, children, List.filterMap_filterMap]
      rfl

theorem contributionsAt_nil (path : List Bytes) : contributionsAt [] path = [] := by
  rw [contributionsAt_eq, List.filterMap_nil]

/-- The contributions are those of packages in the order of their priorities. -/
def ByPriority (cs : List Contribution) : Prop :=
  cs.Pairwise fun c c' => c.priority ≤ c'.priority

theorem ByPriority.contributionsAt {cs : List Contribution} (h : ByPriority cs)
    (path : List Bytes) : ByPriority (contributionsAt cs path) := by
  rw [contributionsAt_eq]
  refine List.Pairwise.filterMap _ (fun c c' hle d hd d' hd' => ?_) h
  rw [(Contribution.descend_spec hd).2.2, (Contribution.descend_spec hd').2.2]
  exact hle

theorem ByPriority.children {cs : List Contribution} (h : ByPriority cs) (name : Bytes) :
    ByPriority (children cs name) :=
  h.contributionsAt [name]

/-- What the packages have at a path, in the order of their priorities, is not put in one
profile. -/
inductive Clash : List Contribution → Prop
  | directoryAfterFile {first c : Contribution} {rest : List Contribution} :
      first.tree = .file → c ∈ rest → IsDirectory c.tree → Clash (first :: rest)
  | samePriority {first c : Contribution} {rest : List Contribution} :
      c ∈ rest → c.tree = .file → first.priority = c.priority → Clash (first :: rest)
  | fileAfterDirectories {first c file : Contribution} {cs : List Contribution} :
      IsDirectory first.tree → IsDirectory c.tree → file.tree = .file →
        [first, c, file].Sublist cs → Clash cs

theorem not_isDirectory {tree : Tree} : ¬IsDirectory tree ↔ tree = .file := by
  cases tree with
  | file => exact iff_of_true (fun ⟨_, _, _, h⟩ => nomatch h) rfl
  | directory names nodup child =>
      exact iff_of_false (fun h => h ⟨_, _, _, rfl⟩) fun h => nomatch h

theorem step_opened {dstFile : Bytes} {c : Contribution} :
    (IsDirectory c.tree ∧ step dstFile .opened c = .ok .opened) ∨
      (c.tree = .file ∧ ∃ e, step dstFile .opened c = .error e) := by
  cases htree : c.tree with
  | file => exact .inr ⟨rfl, _, by rw [step, htree]⟩
  | directory names nodup child => exact .inl ⟨⟨_, _, _, rfl⟩, by rw [step, htree]⟩

theorem step_link {dstFile : Bytes} {first c : Contribution}
    (hle : first.priority ≤ c.priority) :
    (IsDirectory first.tree ∧ IsDirectory c.tree ∧ step dstFile (.link first) c = .ok .opened) ∨
      (first.tree = .file ∧ IsDirectory c.tree ∧ ∃ e, step dstFile (.link first) c = .error e) ∨
      (c.tree = .file ∧ first.priority = c.priority ∧
        ∃ e, step dstFile (.link first) c = .error e) ∨
      (c.tree = .file ∧ first.priority < c.priority ∧
        step dstFile (.link first) c = .ok (.link first)) := by
  cases htree : c.tree with
  | directory names nodup child =>
      cases hfirst : first.tree with
      | directory names' nodup' child' =>
          exact .inl ⟨⟨_, _, _, rfl⟩, ⟨_, _, _, rfl⟩, by simp only [step, htree, hfirst]⟩
      | file => exact .inr (.inl ⟨rfl, ⟨_, _, _, rfl⟩, _, by simp only [step, htree, hfirst]; rfl⟩)
  | file =>
      rcases hle.eq_or_lt with heq | hlt
      · exact .inr (.inr (.inl ⟨rfl, heq, _, by simp only [step, htree, heq, if_true]; rfl⟩))
      · refine .inr (.inr (.inr ⟨rfl, hlt, ?_⟩))
        simp only [step, htree, hlt.ne, hlt, if_true, if_false]

theorem foldlM_opened {dstFile : Bytes} {cs : List Contribution} :
    ((∀ c ∈ cs, IsDirectory c.tree) ∧ cs.foldlM (step dstFile) .opened = .ok .opened) ∨
      ((∃ c ∈ cs, c.tree = .file) ∧ ∃ e, cs.foldlM (step dstFile) .opened = .error e) := by
  induction cs with
  | nil => exact .inl ⟨List.forall_mem_nil _, rfl⟩
  | cons c cs ih =>
      rw [List.foldlM_cons]
      rcases @step_opened dstFile c with ⟨hc, hstep⟩ | ⟨hc, e, hstep⟩
      · rw [hstep]
        refine ih.imp (And.imp_left fun h => ?_) (And.imp_left fun ⟨c', hc', h⟩ => ?_)
        · exact List.forall_mem_cons.mpr ⟨hc, h⟩
        · exact ⟨c', List.mem_cons_of_mem _ hc', h⟩
      · rw [hstep]
        exact .inr ⟨⟨c, List.mem_cons_self, hc⟩, e, rfl⟩

theorem sublist_of_ne {α : Type} {a b : α} {l l' : List α} (hne : a ≠ b)
    (h : (a :: l).Sublist (b :: l')) : (a :: l).Sublist l' := by
  cases h with
  | cons _ h => exact h
  | cons_cons => exact absurd rfl hne

theorem not_clash_of_directories {cs : List Contribution}
    (h : ∀ c ∈ cs, IsDirectory c.tree) : ¬Clash cs := by
  rintro (⟨hfirst, _, _⟩ | ⟨hc, hfile, _⟩ | ⟨_, _, hfile, hsub⟩)
  · exact not_isDirectory.mpr hfirst (h _ List.mem_cons_self)
  · exact not_isDirectory.mpr hfile (h _ (List.mem_cons_of_mem _ hc))
  · exact not_isDirectory.mpr hfile (h _ (hsub.subset (by simp)))

theorem not_clash_singleton (c : Contribution) : ¬Clash [c] := by
  rintro (⟨_, hc, _⟩ | ⟨hc, _, _⟩ | ⟨_, _, _, hsub⟩)
  · exact List.not_mem_nil hc
  · exact List.not_mem_nil hc
  · exact absurd hsub.length_le (by simp)

theorem clash_cons_file {first c : Contribution} {rest : List Contribution}
    (hfile : c.tree = .file) (hlt : first.priority < c.priority) :
    Clash (first :: c :: rest) ↔ Clash (first :: rest) := by
  constructor
  · rintro (⟨hfirst, hc', hdir⟩ | ⟨hc', hfile', heq⟩ | ⟨hfirst, hdir, hfile', hsub⟩)
    · rcases List.mem_cons.mp hc' with rfl | hc'
      · exact absurd hdir (not_isDirectory.mpr hfile)
      · exact .directoryAfterFile hfirst hc' hdir
    · rcases List.mem_cons.mp hc' with rfl | hc'
      · exact absurd heq hlt.ne
      · exact .samePriority hc' hfile' heq
    · refine .fileAfterDirectories hfirst hdir hfile' ?_
      cases hsub with
      | cons _ hsub =>
          refine .cons _ (sublist_of_ne ?_ hsub)
          rintro rfl
          exact not_isDirectory.mpr hfile hfirst
      | cons_cons _ hsub =>
          refine .cons_cons _ (sublist_of_ne ?_ hsub)
          rintro rfl
          exact not_isDirectory.mpr hfile hdir
  · rintro (⟨hfirst, hc', hdir⟩ | ⟨hc', hfile', heq⟩ | ⟨hfirst, hdir, hfile', hsub⟩)
    · exact .directoryAfterFile hfirst (List.mem_cons_of_mem _ hc') hdir
    · exact .samePriority (List.mem_cons_of_mem _ hc') hfile' heq
    · exact .fileAfterDirectories hfirst hdir hfile'
        (hsub.trans ((List.sublist_cons_self c rest).cons_cons first))

theorem foldlM_link {dstFile : Bytes} {first : Contribution} {rest : List Contribution}
    (hle : ∀ c ∈ rest, first.priority ≤ c.priority) :
    (rest.foldlM (step dstFile) (.link first) = .ok (.link first) ∧
        (∀ c ∈ rest, c.tree = .file ∧ first.priority < c.priority) ∧ ¬Clash (first :: rest)) ∨
      (rest.foldlM (step dstFile) (.link first) = .ok .opened ∧ IsDirectory first.tree ∧
        ¬Clash (first :: rest)) ∨
      ((∃ e, rest.foldlM (step dstFile) (.link first) = .error e) ∧ Clash (first :: rest)) := by
  induction rest with
  | nil => exact .inl ⟨rfl, List.forall_mem_nil _, not_clash_singleton first⟩
  | cons c rest ih =>
      obtain ⟨hc, hle⟩ := List.forall_mem_cons.mp hle
      rw [List.foldlM_cons]
      rcases @step_link dstFile first c hc with
        ⟨hfirst, hdir, hstep⟩ | ⟨hfirst, hdir, e, hstep⟩ | ⟨hfile, heq, e, hstep⟩ |
          ⟨hfile, hlt, hstep⟩
      · rw [hstep]
        rcases @foldlM_opened dstFile rest with ⟨hrest, hrun⟩ | ⟨⟨c', hc', h⟩, hrun⟩
        · refine .inr (.inl ⟨hrun, hfirst, not_clash_of_directories ?_⟩)
          exact List.forall_mem_cons.mpr ⟨hfirst, List.forall_mem_cons.mpr ⟨hdir, hrest⟩⟩
        · refine .inr (.inr ⟨hrun, .fileAfterDirectories hfirst hdir h ?_⟩)
          exact ((List.singleton_sublist.mpr hc').cons_cons c).cons_cons first
      · rw [hstep]
        exact .inr (.inr ⟨⟨e, rfl⟩, .directoryAfterFile hfirst List.mem_cons_self hdir⟩)
      · rw [hstep]
        exact .inr (.inr ⟨⟨e, rfl⟩, .samePriority List.mem_cons_self hfile heq⟩)
      · rw [hstep, clash_cons_file hfile hlt]
        refine (ih hle).imp_left fun ⟨hrun, h, hclash⟩ => ⟨hrun, ?_, hclash⟩
        exact List.forall_mem_cons.mpr ⟨⟨hfile, hlt⟩, h⟩

theorem run_cases {dstFile : Bytes} {first : Contribution} {rest : List Contribution}
    (h : ByPriority (first :: rest)) :
    (run dstFile (first :: rest) = .ok (.link first) ∧
        (∀ c ∈ rest, c.tree = .file ∧ first.priority < c.priority) ∧ ¬Clash (first :: rest)) ∨
      (run dstFile (first :: rest) = .ok .opened ∧ IsDirectory first.tree ∧
        ¬Clash (first :: rest)) ∨
      ((∃ e, run dstFile (first :: rest) = .error e) ∧ Clash (first :: rest)) :=
  foldlM_link (List.pairwise_cons.mp h).1

theorem not_clash_nil : ¬Clash [] := by
  rintro (_ | _ | ⟨_, _, _, hsub⟩)
  exact absurd hsub.length_le (by simp)

theorem run_eq_error_iff {dstFile : Bytes} {cs : List Contribution} (h : ByPriority cs) :
    (∃ e, run dstFile cs = .error e) ↔ Clash cs := by
  cases cs with
  | nil => exact iff_of_false (fun ⟨e, he⟩ => nomatch he) not_clash_nil
  | cons first rest =>
      rcases @run_cases dstFile first rest h with ⟨hrun, -, hclash⟩ | ⟨hrun, -, hclash⟩ |
        ⟨hrun, hclash⟩
      · exact iff_of_false (fun ⟨e, he⟩ => nomatch hrun.symm.trans he) hclash
      · exact iff_of_false (fun ⟨e, he⟩ => nomatch hrun.symm.trans he) hclash
      · exact iff_of_true hrun hclash

theorem children_of_link {dstFile : Bytes} {cs : List Contribution} {first : Contribution}
    (h : ByPriority cs) (hrun : run dstFile cs = .ok (.link first)) :
    (∃ rest, cs = first :: rest) ∧ ∀ name, children cs name = (first.child name).toList := by
  cases cs with
  | nil => cases hrun
  | cons c rest =>
      rcases @run_cases dstFile c rest h with ⟨hlink, hfiles, -⟩ | ⟨hopened, -⟩ | ⟨⟨e, herror⟩, -⟩
      · cases hlink.symm.trans hrun
        refine ⟨⟨rest, rfl⟩, fun name => ?_⟩
        have hrest : children rest name = [] :=
          List.filterMap_eq_nil_iff.mpr fun c hc => child_eq_none (hfiles c hc).1 name
        rw [← List.singleton_append, children_append, hrest, List.append_nil, children_singleton]
      · cases hopened.symm.trans hrun
      · cases herror.symm.trans hrun

theorem run_of_file {dstFile : Bytes} {first : Contribution} {rest : List Contribution} {s : State}
    (h : ByPriority (first :: rest)) (hfile : first.tree = .file)
    (hrun : run dstFile (first :: rest) = .ok s) : s = .link first := by
  rcases @run_cases dstFile first rest h with ⟨hlink, -⟩ | ⟨-, hdir, -⟩ | ⟨⟨e, herror⟩, -⟩
  · cases hlink.symm.trans hrun
    rfl
  · exact absurd hdir (not_isDirectory.mpr hfile)
  · cases herror.symm.trans hrun

theorem contributionsAt_toList (c : Option Contribution) (path : List Bytes) :
    contributionsAt c.toList path = (c.bind (·.descend path)).toList := by
  rw [contributionsAt_eq]
  cases c with
  | none => rfl
  | some c =>
      cases h : c.descend path with
      | none => simp [h]
      | some c' => simp [h]

theorem run_toList (dstFile : Bytes) (c : Option Contribution) :
    ∃ s, run dstFile c.toList = .ok s := by
  cases c with
  | none => exact ⟨_, rfl⟩
  | some c => exact ⟨_, rfl⟩

theorem Represents.run_eq_ok {entry : Entry} {dstFile : Bytes} {cs : List Contribution}
    (hsorted : ByPriority cs) (h : Represents entry dstFile cs) (path : List Bytes) :
    ∃ s, run (pathBelow dstFile path) (contributionsAt cs path) = .ok s := by
  induction path generalizing entry dstFile cs with
  | nil =>
      cases entry with
      | missing =>
          obtain rfl : cs = [] := h
          exact ⟨_, rfl⟩
      | link source target priority => exact ⟨_, h⟩
      | directory child => exact ⟨_, h.1⟩
  | cons name path ih =>
      cases entry with
      | missing =>
          obtain rfl : cs = [] := h
          rw [contributionsAt_nil]
          exact ⟨_, rfl⟩
      | link source target priority =>
          rw [contributionsAt, (children_of_link hsorted h).2 name, contributionsAt_toList]
          exact run_toList _ _
      | directory child => exact ih (hsorted.children name) (h.2 name)

theorem Represents.not_clash {entry : Entry} {dstFile : Bytes} {cs : List Contribution}
    (hsorted : ByPriority cs) (h : Represents entry dstFile cs) (path : List Bytes) :
    ¬Clash (contributionsAt cs path) := by
  intro hclash
  obtain ⟨s, hs⟩ := h.run_eq_ok hsorted path
  obtain ⟨e, he⟩ := (run_eq_error_iff (hsorted.contributionsAt path)).mpr hclash
  cases hs.symm.trans he

theorem Represents.resolve {entry : Entry} {dstFile : Bytes} {cs rest : List Contribution}
    {c : Contribution} {path : List Bytes} (hsorted : ByPriority cs)
    (h : Represents entry dstFile cs)
    (hpath : contributionsAt cs path = c :: rest) (hfile : c.tree = .file) :
    entry.resolve path = some (c.source, .file) := by
  induction path generalizing entry dstFile cs with
  | nil =>
      obtain rfl : cs = c :: rest := hpath
      cases entry with
      | missing => cases h
      | link source target priority =>
          cases run_of_file hsorted hfile h
          rw [Entry.resolve, Tree.lookup, ← hfile]
          rfl
      | directory child => cases run_of_file hsorted hfile h.1
  | cons name path ih =>
      cases entry with
      | missing =>
          obtain rfl : cs = [] := h
          rw [contributionsAt_nil] at hpath
          cases hpath
      | directory child =>
          rw [Entry.resolve]
          exact ih (hsorted.children name) (h.2 name) hpath
      | link source target priority =>
          rw [contributionsAt, (children_of_link hsorted h).2 name, contributionsAt_toList] at hpath
          have hdescend : (⟨source, target, priority⟩ : Contribution).descend (name :: path) =
              some c := by
            rw [Contribution.descend]
            cases hbind : ((⟨source, target, priority⟩ : Contribution).child name).bind
                (·.descend path) with
            | none => cases (hbind ▸ hpath : [] = _)
            | some c' =>
                rw [hbind] at hpath
                cases hpath
                rfl
          obtain ⟨hsource, hlookup, -⟩ := Contribution.descend_spec hdescend
          rw [Entry.resolve, hlookup, hfile, hsource]
          rfl

end Nix.Store.BuildEnv
