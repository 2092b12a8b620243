import Mathlib.Data.List.Basic
import Mathlib.Data.Nat.Basic
import Nix.Store.PathLocks

/-!
Locks exclude each other, as long as no signal ends an attempt to lock that waits.
-/

set_option linter.dupNamespace false

namespace Nix.Store.PathLocks

open Lib.Graphs Lib.Transitions
open Relation

variable {π γ : Type}

namespace Process

def locked (proc : Process π) : List (Nat × π) :=
  match proc.phase with
  | .opening turn (some old) => proc.fds ++ [(old, turn.path)]
  | .closing turn _ old => proc.fds ++ [(old, turn.path)]
  | .checking turn fd => proc.fds ++ [(fd, turn.path)]
  | .unlocking left _ => left
  | _ => proc.fds

def verified (proc : Process π) : List (Nat × π) :=
  match proc.phase with
  | .unlocking left .unlink => left
  | .unlocking left _ => left.tail
  | _ => proc.fds

/-- The descriptor that `lockPaths` works on. -/
def current (proc : Process π) : Option (Nat × π) :=
  match proc.phase with
  | .closing turn fd _ => some (fd, turn.path)
  | .trying turn fd => some (fd, turn.path)
  | .waiting turn fd => some (fd, turn.path)
  | .checking turn fd => some (fd, turn.path)
  | _ => none

/-- The paths of a process, in the order in which it locks them. -/
def paths (proc : Process π) : List π :=
  match proc.phase with
  | .opening turn _ => proc.fds.map Prod.snd ++ turn.path :: turn.rest
  | .closing turn _ _ => proc.fds.map Prod.snd ++ turn.path :: turn.rest
  | .trying turn _ => proc.fds.map Prod.snd ++ turn.path :: turn.rest
  | .waiting turn _ => proc.fds.map Prod.snd ++ turn.path :: turn.rest
  | .checking turn _ => proc.fds.map Prod.snd ++ turn.path :: turn.rest
  | .unlocking left _ => left.map Prod.snd
  | .idle => proc.fds.map Prod.snd

/-- The file that a process has unlinked and not marked yet. -/
def unmarked (proc : Process π) : Option Nat :=
  match proc.phase with
  | .unlocking ((fd, _) :: _) .write => some fd
  | _ => none

end Process

section Process

variable {proc : Process π} {left : List (Nat × π)} {wait : Bool} {rest : List π}

theorem locked_turn : (proc.turn wait rest).locked = proc.fds := by
  cases rest with
  | nil => rfl
  | cons path rest => rfl

theorem verified_turn : (proc.turn wait rest).verified = proc.fds := by
  cases rest with
  | nil => rfl
  | cons path rest => rfl

theorem current_turn : (proc.turn wait rest).current = none := by
  cases rest with
  | nil => rfl
  | cons path rest => rfl

theorem paths_turn : (proc.turn wait rest).paths = proc.fds.map Prod.snd ++ rest := by
  cases rest with
  | nil => exact (List.append_nil _).symm
  | cons path rest => rfl

theorem locked_unlock : (proc.unlock left).locked = left := by
  cases left with
  | nil => rfl
  | cons fd left => rfl

theorem verified_unlock {x : Nat × π}
    (hx : x ∈ (proc.unlock left).verified) : x ∈ left := by
  cases left with
  | nil => exact hx
  | cons fd left =>
      rw [Process.unlock] at hx
      cases hdelete : proc.deletePaths with
      | false =>
          rw [hdelete] at hx
          exact List.mem_cons_of_mem _ hx
      | true =>
          rw [hdelete] at hx
          exact hx

theorem current_unlock : (proc.unlock left).current = none := by
  cases left with
  | nil => rfl
  | cons fd left => rfl

theorem paths_unlock :
    (proc.unlock left).paths = left.map Prod.snd := by
  cases left with
  | nil => rfl
  | cons fd left => rfl

end Process

variable [LinearOrder π]

/-- What a process may rely on. -/
structure ProcOk (files : Files π γ) (name : γ) (proc : Process π) : Prop where
  locked : ∀ x ∈ proc.locked, files.holder x.1 = some name ∧ files.inodes[x.1]? = some x.2
  owns : ∀ fd, files.holder fd = some name → ∃ path, (fd, path) ∈ proc.locked
  verified : ∀ x ∈ proc.verified, x ∈ proc.locked ∧ files.entry x.2 = some x.1
  current : ∀ x, proc.current = some x → files.inodes[x.1]? = some x.2
  paths : proc.paths.Pairwise (· < ·)

/-- A file that is no longer linked is marked, or is going to be by a process that has it
locked. -/
structure FilesOk (s : State π γ) : Prop where
  entry : ∀ path fd, s.files.entry path = some fd → s.files.inodes[fd]? = some path
  stale : ∀ fd path, s.files.inodes[fd]? = some path → s.files.entry path ≠ some fd →
    s.files.size fd ≠ 0 ∨ ∃ name, (s.procs name).unmarked = some fd
  unborn : ∀ fd, s.files.inodes.length ≤ fd → s.files.holder fd = none ∧ s.files.size fd = 0

structure Inv (s : State π γ) : Prop where
  files : FilesOk s
  procs : ∀ name, ProcOk s.files name (s.procs name)

variable {files files' : Files π γ} {name other : γ} {proc proc' : Process π}

theorem ProcOk.nodup (h : ProcOk files name proc) : proc.paths.Nodup :=
  h.paths.imp fun hlt => ne_of_lt hlt

theorem ProcOk.frame (h : ProcOk files other proc)
    (hinodes : ∀ (fd : Nat) path, files.inodes[fd]? = some path → files'.inodes[fd]? = some path)
    (hholder : ∀ fd, files'.holder fd = some other ↔ files.holder fd = some other)
    (hentry : ∀ x ∈ proc.verified, files'.entry x.2 = some x.1) : ProcOk files' other proc where
  locked x hx := ⟨(hholder x.1).mpr (h.locked x hx).1, hinodes x.1 x.2 (h.locked x hx).2⟩
  owns fd hfd := h.owns fd ((hholder fd).mp hfd)
  verified x hx := ⟨(h.verified x hx).1, hentry x hx⟩
  current x hx := hinodes x.1 x.2 (h.current x hx)
  paths := h.paths

theorem ProcOk.move (h : ProcOk files name proc)
    (hlocked : ∀ x, x ∈ proc'.locked ↔ x ∈ proc.locked)
    (hverified : ∀ x ∈ proc'.verified, x ∈ proc.verified)
    (hcurrent : ∀ x, proc'.current = some x → files.inodes[x.1]? = some x.2)
    (hpaths : proc'.paths.Pairwise (· < ·)) : ProcOk files name proc' where
  locked x hx := h.locked x ((hlocked x).mp hx)
  owns fd hfd := by
    obtain ⟨path, hpath⟩ := h.owns fd hfd
    exact ⟨path, (hlocked _).mpr hpath⟩
  verified x hx := by
    obtain ⟨hin, hentry⟩ := h.verified x (hverified x hx)
    exact ⟨(hlocked x).mpr hin, hentry⟩
  current := hcurrent
  paths := hpaths

variable [DecidableEq γ]

omit [LinearOrder π] in
theorem exists_unmarked_update {s : State π γ} {fd : Nat}
    (hunmarked : (s.procs name).unmarked = some fd → proc'.unmarked = some fd)
    (h : ∃ other, (s.procs other).unmarked = some fd) :
    ∃ other, (Function.update s.procs name proc' other).unmarked = some fd := by
  obtain ⟨other, hother⟩ := h
  refine ⟨other, ?_⟩
  by_cases heq : other = name
  · subst heq
    rw [Function.update_self]
    exact hunmarked hother
  · rwa [Function.update_of_ne heq]

theorem Inv.update {s : State π γ} (h : Inv s)
    (hproc : ProcOk files' name proc')
    (hinodes : ∀ (fd : Nat) path, s.files.inodes[fd]? = some path → files'.inodes[fd]? = some path)
    (hholder : ∀ fd other, other ≠ name →
      (files'.holder fd = some other ↔ s.files.holder fd = some other))
    (hentry : ∀ other, other ≠ name → ∀ x ∈ (s.procs other).verified,
      files'.entry x.2 = some x.1)
    (hfiles : FilesOk ⟨files', Function.update s.procs name proc'⟩) :
    Inv ⟨files', Function.update s.procs name proc'⟩ := by
  refine ⟨hfiles, fun other => ?_⟩
  by_cases heq : other = name
  · subst heq
    simpa using hproc
  · change ProcOk files' other (Function.update s.procs name proc' other)
    rw [Function.update_of_ne heq]
    exact (h.procs other).frame hinodes (fun fd => hholder fd other heq) (hentry other heq)

theorem Inv.update_proc {s : State π γ} (h : Inv s)
    (hproc : ProcOk s.files name proc')
    (hunmarked : ∀ fd, (s.procs name).unmarked = some fd → proc'.unmarked = some fd) :
    Inv { s with procs := Function.update s.procs name proc' } := by
  refine h.update hproc (fun _ _ h => h) (fun _ _ _ => Iff.rfl)
    (fun other _ x hx => ((h.procs other).verified x hx).2)
    ⟨h.files.entry, fun fd path hpath hentry => ?_, h.files.unborn⟩
  exact (h.files.stale fd path hpath hentry).imp_right (exists_unmarked_update (hunmarked fd))

/-! ### Steps -/

omit [DecidableEq γ] in
theorem ProcOk.unlock (h : ProcOk files name proc)
    (hlocked : proc.locked = proc.fds) (hverified : proc.verified = proc.fds)
    (hpaths : (proc.fds.map Prod.snd).Sublist proc.paths) :
    ProcOk files name (proc.unlock proc.fds) := by
  refine h.move (fun x => ?_) (fun x hx => ?_) (fun x hx => ?_) ?_
  · rw [locked_unlock, hlocked]
  · rw [hverified]
    exact verified_unlock hx
  · rw [current_unlock] at hx
    cases hx
  · rw [paths_unlock]
    exact h.paths.sublist hpaths

omit [DecidableEq γ] in
theorem ProcOk.release {fds : List (Nat × π)} {fd : Nat} {path : π}
    (h : ProcOk files name proc) (hlocked : ∀ x, x ∈ proc.locked ↔ x ∈ fds ∨ x = (fd, path))
    (hpath : path ∉ fds.map Prod.snd)
    (hlocked' : proc'.locked = fds) (hverified : ∀ x ∈ proc'.verified, x ∈ fds ∧ x ∈ proc.verified)
    (hcurrent : ∀ x, proc'.current = some x → files.inodes[x.1]? = some x.2)
    (hpaths : proc'.paths.Pairwise (· < ·)) : ProcOk (files.release fd) name proc' := by
  have hfd := h.locked (fd, path) ((hlocked _).mpr (.inr rfl))
  have hother : ∀ x ∈ fds, x.1 ≠ fd := by
    rintro ⟨fd', path'⟩ hx rfl
    have hx' := h.locked _ ((hlocked _).mpr (.inl hx))
    have heq : path' = path := Option.some.inj (hx'.2.symm.trans hfd.2)
    exact hpath (heq ▸ List.mem_map_of_mem hx)
  refine ⟨fun x hx => ?_, fun fd' hfd' => ?_, fun x hx => ?_, hcurrent, hpaths⟩
  · rw [hlocked'] at hx
    have hold := h.locked x ((hlocked x).mpr (.inl hx))
    refine ⟨?_, hold.2⟩
    change Function.update files.holder fd none x.1 = some name
    rw [Function.update_of_ne (hother x hx)]
    exact hold.1
  · change Function.update files.holder fd none fd' = some name at hfd'
    have hne : fd' ≠ fd := by
      rintro rfl
      rw [Function.update_self] at hfd'
      cases hfd'
    rw [Function.update_of_ne hne] at hfd'
    obtain ⟨path', hpath'⟩ := h.owns fd' hfd'
    refine ⟨path', ?_⟩
    rw [hlocked']
    refine ((hlocked _).mp hpath').resolve_right fun heq => hne ?_
    exact congrArg Prod.fst heq
  · obtain ⟨hin, hold⟩ := hverified x hx
    exact ⟨hlocked' ▸ hin, (h.verified x hold).2⟩

theorem Inv.release {s : State π γ} {fd : Nat} (h : Inv s)
    (hheld : s.files.holder fd = some name)
    (hproc : ProcOk (s.files.release fd) name proc')
    (hunmarked : (s.procs name).unmarked = none) :
    Inv ⟨s.files.release fd, Function.update s.procs name proc'⟩ := by
  refine h.update hproc (fun _ _ h => h) (fun fd' other hne => ?_)
    (fun other _ x hx => ((h.procs other).verified x hx).2)
    ⟨h.files.entry, fun fd' path hpath hentry => ?_, fun fd' hfd' => ?_⟩
  · change Function.update s.files.holder fd none fd' = some other ↔ _
    by_cases heq : fd' = fd
    · subst heq
      rw [Function.update_self, hheld]
      simpa using fun heq => hne heq.symm
    · rw [Function.update_of_ne heq]
  · refine (h.files.stale fd' path hpath hentry).imp_right (exists_unmarked_update fun hfd' => ?_)
    rw [hunmarked] at hfd'
    cases hfd'
  · obtain ⟨hholder, hsize⟩ := h.files.unborn fd' hfd'
    refine ⟨?_, hsize⟩
    change Function.update s.files.holder fd none fd' = none
    by_cases heq : fd' = fd
    · rw [heq, Function.update_self]
    · rwa [Function.update_of_ne heq]

theorem Inv.lock {s : State π γ} {turn : Turn π} {fd : Nat} (h : Inv s)
    (hlocked : (s.procs name).locked = (s.procs name).fds)
    (hverified : (s.procs name).verified = (s.procs name).fds)
    (hcurrent : (s.procs name).current = some (fd, turn.path))
    (hpaths : (s.procs name).paths = (s.procs name).fds.map Prod.snd ++ turn.path :: turn.rest)
    (hunmarked : (s.procs name).unmarked = none) (hfree : s.files.holder fd = none) :
    Inv ⟨s.files.lock fd name, Function.update s.procs name
      { s.procs name with phase := .checking turn fd }⟩ := by
  have hname := h.procs name
  have hlabel := hname.current _ hcurrent
  have hold : ∀ fd', fd' ≠ fd →
      (s.files.lock fd name).holder fd' = s.files.holder fd' := fun fd' hne =>
    Function.update_of_ne hne _ _
  have hnew : (s.files.lock fd name).holder fd = some name := Function.update_self _ _ _
  refine h.update ?_ (fun _ _ h => h) (fun fd' other hne => ?_)
    (fun other _ x hx => ((h.procs other).verified x hx).2)
    ⟨h.files.entry, fun fd' path hpath hentry => ?_, fun fd' hfd' => ?_⟩
  · refine ⟨fun x hx => ?_, fun fd' hfd' => ?_, fun x hx => ?_, fun x hx => ?_, ?_⟩
    · rcases List.mem_append.mp hx with hx | hx
      · obtain ⟨hheld, hx⟩ := hname.locked x (hlocked ▸ hx)
        have hne : x.1 ≠ fd := by
          intro heq
          rw [heq, hfree] at hheld
          cases hheld
        exact ⟨(hold x.1 hne).trans hheld, hx⟩
      · rw [List.mem_singleton.mp hx]
        exact ⟨hnew, hlabel⟩
    · by_cases heq : fd' = fd
      · exact ⟨turn.path, List.mem_append_right _ (by simp [heq])⟩
      · rw [hold fd' heq] at hfd'
        obtain ⟨path, hpath⟩ := hname.owns fd' hfd'
        exact ⟨path, List.mem_append_left _ (hlocked ▸ hpath)⟩
    · refine ⟨List.mem_append_left _ hx, (hname.verified x ?_).2⟩
      rw [hverified]
      exact hx
    · rw [← Option.some.inj hx]
      exact hlabel
    · have hsorted := hname.paths
      rw [hpaths] at hsorted
      exact hsorted
  · by_cases heq : fd' = fd
    · subst heq
      rw [hnew, hfree]
      simpa using fun heq => hne heq.symm
    · rw [hold fd' heq]
  · refine (h.files.stale fd' path hpath hentry).imp_right (exists_unmarked_update fun hfd' => ?_)
    rw [hunmarked] at hfd'
    cases hfd'
  · have hne : fd' ≠ fd := by
      rintro rfl
      obtain ⟨hlt, -⟩ := List.getElem?_eq_some_iff.mp hlabel
      exact absurd hlt (Nat.not_lt_of_le hfd')
    obtain ⟨hholder, hsize⟩ := h.files.unborn fd' hfd'
    exact ⟨(hold fd' hne).trans hholder, hsize⟩

theorem Inv.openLockFile {s : State π γ} {turn : Turn π} (h : Inv s)
    (hlocked : ∀ x, x ∈ proc'.locked ↔ x ∈ (s.procs name).locked)
    (hverified : ∀ x ∈ proc'.verified, x ∈ (s.procs name).verified)
    (hcurrent : proc'.current = some ((s.files.openLockFile turn.path).1, turn.path))
    (hpaths : proc'.paths = (s.procs name).paths)
    (hunmarked : (s.procs name).unmarked = none) :
    Inv ⟨(s.files.openLockFile turn.path).2, Function.update s.procs name proc'⟩ := by
  have hname := h.procs name
  rw [Files.openLockFile] at hcurrent ⊢
  split at hcurrent
  next fd hentry =>
    refine h.update_proc (hname.move hlocked hverified (fun x hx => ?_) (hpaths ▸ hname.paths))
      fun fd' hfd' => ?_
    · rw [hcurrent] at hx
      rw [← Option.some.inj hx]
      exact h.files.entry _ _ hentry
    · rw [hunmarked] at hfd'
      cases hfd'
  next hentry =>
    let fd := s.files.inodes.length
    let files' : Files π γ := { s.files with
      inodes := s.files.inodes ++ [turn.path]
      entry := Function.update s.files.entry turn.path (some fd) }
    have hinodes : ∀ (fd : Nat) path, s.files.inodes[fd]? = some path →
        files'.inodes[fd]? = some path := by
      intro fd path hpath
      obtain ⟨hlt, -⟩ := List.getElem?_eq_some_iff.mp hpath
      exact (List.getElem?_append_left hlt).trans hpath
    have hnew : files'.inodes[fd]? = some turn.path := by
      simp [files', fd]
    have hlinked : ∀ path fd', s.files.entry path = some fd' → files'.entry path = some fd' := by
      intro path fd' hpath
      have hne : path ≠ turn.path := by
        rintro rfl
        rw [hentry] at hpath
        cases hpath
      exact (Function.update_of_ne hne _ _).trans hpath
    have hframe : ProcOk files' name (s.procs name) :=
      hname.frame hinodes (fun _ => Iff.rfl) fun x hx => hlinked _ _ (hname.verified x hx).2
    have hproc : ProcOk files' name proc' := by
      refine hframe.move hlocked hverified (fun x hx => ?_) (hpaths ▸ hname.paths)
      rw [hcurrent] at hx
      rw [← Option.some.inj hx]
      exact hnew
    refine h.update hproc hinodes (fun _ _ _ => Iff.rfl)
      (fun other _ x hx => hlinked _ _ ((h.procs other).verified x hx).2)
      ⟨fun path fd' hpath => ?_, fun fd' path hpath hstale => ?_, fun fd' hfd' => ?_⟩
    · change Function.update s.files.entry turn.path (some fd) path = some fd' at hpath
      by_cases heq : path = turn.path
      · rw [heq, Function.update_self] at hpath
        rw [heq, ← Option.some.inj hpath]
        exact hnew
      · rw [Function.update_of_ne heq] at hpath
        exact hinodes fd' path (h.files.entry path fd' hpath)
    · have hne : fd' ≠ fd := by
        rintro rfl
        have heq : path = turn.path := Option.some.inj (hpath.symm.trans hnew)
        exact hstale (by rw [heq]; exact Function.update_self _ _ _)
      have hlt : fd' < s.files.inodes.length := by
        obtain ⟨hlt, -⟩ := List.getElem?_eq_some_iff.mp hpath
        change fd' < (s.files.inodes ++ [turn.path]).length at hlt
        rw [List.length_append, List.length_singleton] at hlt
        change fd' ≠ s.files.inodes.length at hne
        omega
      have hold : s.files.inodes[fd']? = some path :=
        (List.getElem?_append_left hlt).symm.trans hpath
      refine (h.files.stale fd' path hold fun hpath => hstale (hlinked path fd' hpath)).imp_right
        (exists_unmarked_update fun hfd' => ?_)
      rw [hunmarked] at hfd'
      cases hfd'
    · refine h.files.unborn fd' ?_
      change (s.files.inodes ++ [turn.path]).length ≤ fd' at hfd'
      rw [List.length_append, List.length_singleton] at hfd'
      omega

omit [DecidableEq γ] in
theorem Inv.linked {s : State π γ} {fd : Nat} {path : π} (h : Inv s)
    (hlocked : (fd, path) ∈ (s.procs name).locked) (hsize : s.files.size fd = 0)
    (hunmarked : (s.procs name).unmarked = none) : s.files.entry path = some fd := by
  obtain ⟨hheld, hlabel⟩ := (h.procs name).locked _ hlocked
  by_contra hentry
  obtain ⟨other, hother⟩ := (h.files.stale fd path hlabel hentry).resolve_left fun hne =>
    hne hsize
  have hin : ∃ path, (fd, path) ∈ (s.procs other).locked := by
    rw [Process.unmarked] at hother
    split at hother
    next fd' path' left hphase =>
      cases hother
      refine ⟨path', ?_⟩
      rw [Process.locked, hphase]
      exact List.mem_cons_self
    next => cases hother
  obtain ⟨path', hin⟩ := hin
  have hheld' := ((h.procs other).locked _ hin).1
  have heq : name = other := Option.some.inj (hheld.symm.trans hheld')
  rw [← heq, hunmarked] at hother
  cases hother

theorem Inv.unlink {s : State π γ} {fd : Nat} {path : π} {left : List (Nat × π)} {ok : Bool}
    (h : Inv s) (hphase : (s.procs name).phase = .unlocking ((fd, path) :: left) .unlink) :
    Inv ⟨{ s.files with entry := if ok then Function.update s.files.entry path none
        else s.files.entry }, Function.update s.procs name
      { s.procs name with phase := .unlocking ((fd, path) :: left) .write }⟩ := by
  have hname := h.procs name
  have hlocked : (s.procs name).locked = (fd, path) :: left := by
    rw [Process.locked, hphase]
  have hverified : (s.procs name).verified = (fd, path) :: left := by
    rw [Process.verified, hphase]
  have hpaths : (s.procs name).paths = path :: left.map Prod.snd := by
    rw [Process.paths, hphase]
    rfl
  have hnodup := hname.nodup
  rw [hpaths, List.nodup_cons] at hnodup
  have hkept : ∀ path', path' ≠ path → (if ok then Function.update s.files.entry path none
      else s.files.entry) path' = s.files.entry path' := by
    intro path' hne
    split
    next => exact Function.update_of_ne hne _ _
    next => rfl
  have hlinked := (hname.verified (fd, path) (hverified ▸ List.mem_cons_self)).2
  have hheld := (hname.locked (fd, path) (hlocked ▸ List.mem_cons_self)).1
  refine h.update ?_ (fun _ _ h => h) (fun _ _ _ => Iff.rfl) (fun other hne x hx => ?_)
    ⟨fun path' fd' hentry => ?_, fun fd' path' hpath hstale => ?_, h.files.unborn⟩
  · refine ⟨fun x hx => hname.locked x (hlocked ▸ hx), fun fd' hfd' => hlocked ▸ hname.owns fd' hfd',
      fun x hx => ⟨List.mem_cons_of_mem _ hx, ?_⟩, fun x hx => (by cases hx), ?_⟩
    · have hne : x.2 ≠ path := fun heq => hnodup.1 (heq ▸ List.mem_map_of_mem hx)
      refine (hkept x.2 hne).trans (hname.verified x ?_).2
      rw [hverified]
      exact List.mem_cons_of_mem _ hx
    · have hsorted := hname.paths
      rw [hpaths] at hsorted
      exact hsorted
  · obtain ⟨hin, hentry⟩ := (h.procs other).verified x hx
    have hne' : x.2 ≠ path := by
      intro heq
      rw [heq, hlinked] at hentry
      have hother := ((h.procs other).locked x hin).1
      rw [← Option.some.inj hentry, hheld] at hother
      exact hne (Option.some.inj hother).symm
    exact (hkept x.2 hne').trans hentry
  · refine h.files.entry path' fd' ?_
    by_cases heq : path' = path
    · rw [heq] at hentry ⊢
      dsimp only at hentry
      split at hentry
      next =>
        rw [Function.update_self] at hentry
        cases hentry
      next => exact hentry
    · exact (hkept path' heq).symm.trans hentry
  · by_cases heq : fd' = fd
    · refine .inr ⟨name, ?_⟩
      change (Function.update s.procs name _ name).unmarked = some fd'
      rw [Function.update_self, heq]
      rfl
    · have hold : s.files.entry path' ≠ some fd' := by
        intro hentry
        by_cases hpath' : path' = path
        · rw [hpath', hlinked] at hentry
          exact heq (Option.some.inj hentry).symm
        · exact hstale ((hkept path' hpath').trans hentry)
      refine (h.files.stale fd' path' hpath hold).imp_right
        (exists_unmarked_update fun hfd' => ?_)
      rw [Process.unmarked, hphase] at hfd'
      cases hfd'

theorem Inv.write {s : State π γ} {fd : Nat} {path : π} {left : List (Nat × π)}
    (h : Inv s) (hphase : (s.procs name).phase = .unlocking ((fd, path) :: left) .write) :
    Inv ⟨{ s.files with size := Function.update s.files.size fd (s.files.size fd + 1) },
      Function.update s.procs name
        { s.procs name with phase := .unlocking ((fd, path) :: left) .close }⟩ := by
  have hname := h.procs name
  have hlocked : (s.procs name).locked = (fd, path) :: left := by
    rw [Process.locked, hphase]
  have hverified : (s.procs name).verified = left := by
    rw [Process.verified, hphase]
    rfl
  have hpaths : (s.procs name).paths = path :: left.map Prod.snd := by
    rw [Process.paths, hphase]
    rfl
  refine h.update ?_ (fun _ _ h => h) (fun _ _ _ => Iff.rfl)
    (fun other _ x hx => ((h.procs other).verified x hx).2)
    ⟨h.files.entry, fun fd' path' hpath hstale => ?_, fun fd' hfd' => ?_⟩
  · refine ⟨fun x hx => hname.locked x (hlocked ▸ hx), fun fd' hfd' => hlocked ▸ hname.owns fd' hfd',
      fun x hx => ⟨List.mem_cons_of_mem _ hx, (hname.verified x (hverified ▸ hx)).2⟩,
      fun x hx => (by cases hx), ?_⟩
    have hsorted := hname.paths
    rw [hpaths] at hsorted
    exact hsorted
  · change Function.update s.files.size fd (s.files.size fd + 1) fd' ≠ 0 ∨ _
    by_cases heq : fd' = fd
    · subst heq
      rw [Function.update_self]
      exact .inl (Nat.succ_ne_zero _)
    · rw [Function.update_of_ne heq]
      refine (h.files.stale fd' path' hpath hstale).imp_right
        (exists_unmarked_update fun hfd' => ?_)
      rw [Process.unmarked, hphase] at hfd'
      exact absurd (Option.some.inj hfd').symm heq
  · obtain ⟨hholder, hsize⟩ := h.files.unborn fd' hfd'
    have hne : fd' ≠ fd := by
      rintro rfl
      have hheld := (hname.locked (fd', path) (hlocked ▸ List.mem_cons_self)).1
      rw [hholder] at hheld
      cases hheld
    exact ⟨hholder, (Function.update_of_ne hne _ _).trans hsize⟩

theorem Inv.unlock {s : State π γ} {turn : Turn π} (h : Inv s)
    (hunmarked : (s.procs name).unmarked = none)
    (hlocked : (s.procs name).locked = (s.procs name).fds)
    (hverified : (s.procs name).verified = (s.procs name).fds)
    (hpaths : (s.procs name).paths =
      (s.procs name).fds.map Prod.snd ++ turn.path :: turn.rest) :
    Inv ⟨s.files, Function.update s.procs name ((s.procs name).unlock (s.procs name).fds)⟩ := by
  refine h.update_proc ((h.procs name).unlock hlocked hverified ?_) fun fd hfd => ?_
  · rw [hpaths]
    exact List.sublist_append_left _ _
  · rw [hunmarked] at hfd
    cases hfd

theorem Inv.call {s : State π γ} {ok : Bool} (h : Inv s)
    (hcall : systemCall s.files name (s.procs name) ok = some (files', proc')) :
    Inv ⟨files', Function.update s.procs name proc'⟩ := by
  have hname := h.procs name
  cases hphase : (s.procs name).phase with
  | idle =>
      rw [systemCall, hphase] at hcall
      cases hcall
  | opening turn old =>
      rw [systemCall, hphase] at hcall
      cases hcall
      have hunmarked : (s.procs name).unmarked = none := by rw [Process.unmarked, hphase]
      have hpaths : (s.procs name).paths =
          (s.procs name).fds.map Prod.snd ++ turn.path :: turn.rest := by
        rw [Process.paths, hphase]
      cases old with
      | none =>
          refine h.openLockFile (fun x => ?_) (fun x hx => ?_) rfl hpaths.symm hunmarked
          · rw [Process.locked, Process.locked, hphase]
          · rw [Process.verified, hphase]
            exact hx
      | some old =>
          refine h.openLockFile (fun x => ?_) (fun x hx => ?_) rfl hpaths.symm hunmarked
          · rw [Process.locked, Process.locked, hphase]
          · rw [Process.verified, hphase]
            exact hx
  | closing turn fd old =>
      rw [systemCall, hphase] at hcall
      cases hcall
      have hunmarked : (s.procs name).unmarked = none := by rw [Process.unmarked, hphase]
      have hpaths : (s.procs name).paths =
          (s.procs name).fds.map Prod.snd ++ turn.path :: turn.rest := by
        rw [Process.paths, hphase]
      have hlocked : ∀ x, x ∈ (s.procs name).locked ↔
          x ∈ (s.procs name).fds ∨ x = (old, turn.path) := by
        intro x
        rw [Process.locked, hphase, List.mem_append, List.mem_singleton]
      have hnodup := hname.nodup
      rw [hpaths] at hnodup
      refine h.release (hname.locked _ ((hlocked _).mpr (.inr rfl))).1
        (hname.release hlocked ?_ rfl (fun x hx => ⟨hx, ?_⟩) (fun x hx => ?_) ?_) hunmarked
      · exact fun hmem => (List.nodup_append.mp hnodup).2.2 _ hmem _ List.mem_cons_self rfl
      · rw [Process.verified, hphase]
        exact hx
      · refine hname.current x ?_
        rw [Process.current, hphase]
        exact hx
      · have hsorted := hname.paths
        rw [hpaths] at hsorted
        exact hsorted
  | trying turn fd =>
      rw [systemCall, hphase] at hcall
      have hunmarked : (s.procs name).unmarked = none := by rw [Process.unmarked, hphase]
      have hlocked : (s.procs name).locked = (s.procs name).fds := by
        rw [Process.locked, hphase]
      have hverified : (s.procs name).verified = (s.procs name).fds := by
        rw [Process.verified, hphase]
      have hcurrent : (s.procs name).current = some (fd, turn.path) := by
        rw [Process.current, hphase]
      have hpaths : (s.procs name).paths =
          (s.procs name).fds.map Prod.snd ++ turn.path :: turn.rest := by
        rw [Process.paths, hphase]
      dsimp only at hcall
      split at hcall
      next hfree =>
        cases hcall
        exact h.lock hlocked hverified hcurrent hpaths hunmarked hfree
      next =>
        split at hcall
        next =>
          cases hcall
          refine h.update_proc (hname.move (fun x => ?_) (fun x hx => ?_) (fun x hx => ?_) ?_)
            fun fd hfd => ?_
          · rw [hlocked]
            rfl
          · rw [hverified]
            exact hx
          · exact hname.current x (hcurrent.trans hx)
          · have hsorted := hname.paths
            rw [hpaths] at hsorted
            exact hsorted
          · rw [hunmarked] at hfd
            cases hfd
        next =>
          cases hcall
          exact h.unlock hunmarked hlocked hverified hpaths
  | waiting turn fd =>
      rw [systemCall, hphase] at hcall
      dsimp only at hcall
      split at hcall
      next hfree =>
        cases hcall
        exact h.lock (by rw [Process.locked, hphase]) (by rw [Process.verified, hphase])
          (by rw [Process.current, hphase]) (by rw [Process.paths, hphase])
          (by rw [Process.unmarked, hphase]) hfree
      next => cases hcall
  | checking turn fd =>
      rw [systemCall, hphase] at hcall
      have hunmarked : (s.procs name).unmarked = none := by rw [Process.unmarked, hphase]
      have hlocked : (s.procs name).locked = (s.procs name).fds ++ [(fd, turn.path)] := by
        rw [Process.locked, hphase]
      have hverified : (s.procs name).verified = (s.procs name).fds := by
        rw [Process.verified, hphase]
      have hpaths : (s.procs name).paths =
          (s.procs name).fds.map Prod.snd ++ turn.path :: turn.rest := by
        rw [Process.paths, hphase]
      have hsorted := hname.paths
      rw [hpaths] at hsorted
      have hnone : ∀ fd' : Nat, (s.procs name).unmarked = some fd' →
          ∀ proc : Process π, proc.unmarked = some fd' := by
        intro fd' hfd'
        rw [hunmarked] at hfd'
        cases hfd'
      dsimp only at hcall
      split at hcall
      next =>
        cases hcall
        refine h.update_proc (hname.move (fun x => ?_) (fun x hx => ?_) (fun x hx => ?_) hsorted)
          fun fd' hfd' => hnone fd' hfd' _
        · rw [hlocked]
          rfl
        · rw [hverified]
          exact hx
        · cases hx
      next hsize =>
        cases hcall
        have hlinked := h.linked (hlocked ▸ List.mem_append_right _ List.mem_cons_self)
          (not_not.mp hsize) hunmarked
        refine h.update_proc ⟨fun x hx => ?_, fun fd' hfd' => ?_, fun x hx => ?_, fun x hx => ?_,
          ?_⟩ fun fd' hfd' => hnone fd' hfd' _
        · rw [locked_turn] at hx
          exact hname.locked x (hlocked ▸ hx)
        · rw [locked_turn]
          exact hlocked ▸ hname.owns fd' hfd'
        · rw [verified_turn] at hx
          rw [locked_turn]
          refine ⟨hx, ?_⟩
          rcases List.mem_append.mp hx with hx | hx
          · exact (hname.verified x (hverified ▸ hx)).2
          · rw [List.mem_singleton.mp hx]
            exact hlinked
        · rw [current_turn] at hx
          cases hx
        · rw [paths_turn]
          simpa using hsorted
  | unlocking left stage =>
      rw [systemCall, hphase] at hcall
      cases left with
      | nil => cases hcall
      | cons x left =>
          obtain ⟨fd, path⟩ := x
          cases stage with
          | unlink =>
              cases hcall
              exact h.unlink hphase
          | write =>
              cases hcall
              exact h.write hphase
          | close =>
              cases hcall
              have hpaths : (s.procs name).paths = path :: left.map Prod.snd := by
                rw [Process.paths, hphase]
                rfl
              have hlocked : ∀ x, x ∈ (s.procs name).locked ↔ x ∈ left ∨ x = (fd, path) := by
                intro x
                rw [Process.locked, hphase]
                exact List.mem_cons.trans or_comm
              have hnodup := hname.nodup
              have hsorted := hname.paths
              rw [hpaths, List.nodup_cons] at hnodup
              rw [hpaths, List.pairwise_cons] at hsorted
              refine h.release (hname.locked _ ((hlocked _).mpr (.inr rfl))).1
                (hname.release hlocked hnodup.1 locked_unlock
                  (fun x hx => ⟨verified_unlock hx, ?_⟩) (fun x hx => ?_) ?_)
                (by rw [Process.unmarked, hphase])
              · rw [Process.verified, hphase]
                exact verified_unlock hx
              · rw [current_unlock] at hx
                cases hx
              · rw [paths_unlock]
                exact hsorted.2

/-- An exception leaves `lockPaths`, and what is locked is unlocked. -/
theorem Inv.thrown {s : State π γ} (h : Inv s)
    (hthrown : throwInterrupted s.files (s.procs name) = some (files', proc')) :
    Inv ⟨files', Function.update s.procs name proc'⟩ := by
  have hname := h.procs name
  cases hphase : (s.procs name).phase with
  | idle =>
      rw [throwInterrupted, hphase] at hthrown
      cases hthrown
  | opening turn old =>
      rw [throwInterrupted, hphase] at hthrown
      have hunmarked : (s.procs name).unmarked = none := by rw [Process.unmarked, hphase]
      have hpaths : (s.procs name).paths =
          (s.procs name).fds.map Prod.snd ++ turn.path :: turn.rest := by
        rw [Process.paths, hphase]
      cases old with
      | none =>
          cases hthrown
          exact h.unlock hunmarked (by rw [Process.locked, hphase])
            (by rw [Process.verified, hphase]) hpaths
      | some old =>
          cases hthrown
          have hlocked : ∀ x, x ∈ (s.procs name).locked ↔
              x ∈ (s.procs name).fds ∨ x = (old, turn.path) := by
            intro x
            rw [Process.locked, hphase, List.mem_append, List.mem_singleton]
          have hnodup := hname.nodup
          have hsorted := hname.paths
          rw [hpaths] at hnodup hsorted
          refine h.release (hname.locked _ ((hlocked _).mpr (.inr rfl))).1
            (hname.release hlocked ?_ locked_unlock (fun x hx => ⟨verified_unlock hx, ?_⟩)
              (fun x hx => ?_) ?_) hunmarked
          · exact fun hmem => (List.nodup_append.mp hnodup).2.2 _ hmem _ List.mem_cons_self rfl
          · rw [Process.verified, hphase]
            exact verified_unlock hx
          · rw [current_unlock] at hx
            cases hx
          · rw [paths_unlock]
            exact hsorted.sublist (List.sublist_append_left _ _)
  | closing turn fd old =>
      rw [throwInterrupted, hphase] at hthrown
      cases hthrown
  | trying turn fd =>
      rw [throwInterrupted, hphase] at hthrown
      cases hthrown
      exact h.unlock (by rw [Process.unmarked, hphase]) (by rw [Process.locked, hphase])
        (by rw [Process.verified, hphase]) (by rw [Process.paths, hphase])
  | waiting turn fd =>
      rw [throwInterrupted, hphase] at hthrown
      cases hthrown
      exact h.unlock (by rw [Process.unmarked, hphase]) (by rw [Process.locked, hphase])
        (by rw [Process.verified, hphase]) (by rw [Process.paths, hphase])
  | checking turn fd =>
      rw [throwInterrupted, hphase] at hthrown
      cases hthrown
  | unlocking left stage =>
      rw [throwInterrupted, hphase] at hthrown
      cases hthrown

theorem Inv.step {s s' : State π γ} {e : Event π γ} (h : Inv s) (hok : Uninterrupted s e)
    (hstep : step s e = some s') : Inv s' := by
  cases e with
  | lockPaths name paths wait =>
      have hname := h.procs name
      rw [PathLocks.step] at hstep
      split at hstep
      next hphase hfds =>
        split at hstep
        next hsorted =>
          cases hstep
          have hlocked : (s.procs name).locked = [] := by rw [Process.locked, hphase, hfds]
          refine h.update_proc (hname.move (fun x => ?_) (fun x hx => ?_) (fun x hx => ?_) ?_)
            fun fd hfd => ?_
          · rw [locked_turn, hlocked, hfds]
          · rw [verified_turn, hfds] at hx
            cases hx
          · rw [current_turn] at hx
            cases hx
          · rw [paths_turn, hfds]
            exact hsorted
          · rw [Process.unmarked, hphase] at hfd
            cases hfd
        next => cases hstep
      next => cases hstep
  | setDeletion name deletePaths =>
      cases hstep
      have hname := h.procs name
      exact h.update_proc (hname.move (fun _ => Iff.rfl) (fun _ hx => hx) hname.current
        hname.paths) fun _ hfd => hfd
  | unlock name =>
      have hname := h.procs name
      rw [PathLocks.step] at hstep
      split at hstep
      next hphase =>
        cases hstep
        refine h.update_proc (hname.unlock (by rw [Process.locked, hphase])
          (by rw [Process.verified, hphase]) ?_) fun fd hfd => ?_
        · rw [Process.paths, hphase]
        · rw [Process.unmarked, hphase] at hfd
          cases hfd
      next => cases hstep
  | call name ok =>
      obtain ⟨⟨files, proc⟩, hcall, rfl⟩ := Option.map_eq_some_iff.mp hstep
      exact h.call hcall
  | interrupted name => exact absurd hok id
  | thrown name =>
      obtain ⟨⟨files, proc⟩, hthrown, rfl⟩ := Option.map_eq_some_iff.mp hstep
      exact h.thrown hthrown

omit [DecidableEq γ] in
theorem inv_start : Inv (start : State π γ) := by
  refine ⟨⟨fun path fd hentry => ?_, fun fd path hpath => ?_, fun fd _ => ⟨rfl, rfl⟩⟩,
    fun name => ⟨fun x hx => ?_, fun fd hfd => ?_, fun x hx => ?_, fun x hx => ?_,
      List.Pairwise.nil⟩⟩
  · cases hentry
  · cases hpath
  · cases hx
  · cases hfd
  · cases hx
  · cases hx

theorem Reaches.inv {s : State π γ} (h : Reaches step Uninterrupted start s) : Inv s :=
  h.invariant inv_start fun _ _ _ hs hok hstep => hs.step hok hstep

/-! ### Exclusion and the order of the locks -/

omit [DecidableEq γ] in
theorem Inv.holder_of_believes {s : State π γ} {path : π} (h : Inv s)
    (hbelieves : Believes s name path) :
    ∃ fd, s.files.entry path = some fd ∧ s.files.holder fd = some name := by
  obtain ⟨hidle, fd, hfd⟩ := hbelieves
  have hname := h.procs name
  have hmem : (fd, path) ∈ (s.procs name).verified := by
    cases hphase : (s.procs name).phase with
    | unlocking left stage =>
        rw [hphase] at hidle
        cases hidle
    | _ =>
        rw [Process.verified, hphase]
        exact hfd
  obtain ⟨hlocked, hentry⟩ := hname.verified _ hmem
  exact ⟨fd, hentry, (hname.locked _ hlocked).1⟩

def Process.awaited (proc : Process π) : Option π :=
  match proc.phase with
  | .waiting turn _ => some turn.path
  | _ => none

omit [DecidableEq γ] in
theorem Inv.awaited_lt {s : State π γ} {path path' : π} (h : Inv s)
    (hwaits : WaitsFor s name other) (hpath : (s.procs name).awaited = some path)
    (hpath' : (s.procs other).awaited = some path') : path < path' := by
  obtain ⟨turn, fd, hphase, hheld⟩ := hwaits
  rw [Process.awaited, hphase] at hpath
  cases hpath
  have hlabel := (h.procs name).current (fd, turn.path) (by rw [Process.current, hphase])
  have hother := h.procs other
  rw [Process.awaited] at hpath'
  split at hpath'
  next turn' fd' hphase' =>
    cases hpath'
    obtain ⟨path, hlocked⟩ := hother.owns fd hheld
    obtain rfl : path = turn.path :=
      Option.some.inj ((hother.locked _ hlocked).2.symm.trans hlabel)
    have hsorted := hother.paths
    rw [Process.paths, hphase'] at hsorted
    rw [Process.locked, hphase'] at hlocked
    exact (List.pairwise_append.mp hsorted).2.2 _ (List.mem_map_of_mem hlocked) _
      List.mem_cons_self
  next => cases hpath'

omit [DecidableEq γ] in
theorem Inv.chain_lt {s : State π γ} {path path' : π} (h : Inv s)
    (hchain : TransGen (WaitsFor s) name other) (hpath : (s.procs name).awaited = some path)
    (hpath' : (s.procs other).awaited = some path') : path < path' := by
  induction hchain generalizing path' with
  | single hwaits => exact h.awaited_lt hwaits hpath hpath'
  | @tail middle other _ hwaits ih =>
      obtain ⟨turn, fd, hphase, -⟩ := id hwaits
      have hmiddle : (s.procs middle).awaited = some turn.path := by rw [Process.awaited, hphase]
      exact lt_trans (ih hmiddle) (h.awaited_lt hwaits hmiddle hpath')

omit [DecidableEq γ] in
theorem Inv.acyclic {s : State π γ} (h : Inv s) : Acyclic (WaitsFor s) := by
  intro name hchain
  obtain ⟨other, ⟨turn, fd, hphase, -⟩, -⟩ := TransGen.head'_iff.mp hchain
  have hpath : (s.procs name).awaited = some turn.path := by rw [Process.awaited, hphase]
  exact lt_irrefl _ (h.chain_lt hchain hpath hpath)

/-- As long as no signal ends an attempt to lock that waits, at most one process believes to
hold a lock, and processes do not wait for one another. -/
theorem exclusive_of_uninterrupted {s : State π γ}
    (h : Reaches step Uninterrupted start s) : Exclusive s := by
  have hinv := Reaches.inv h
  refine ⟨fun proc other path hproc hother => ?_, hinv.acyclic⟩
  obtain ⟨fd, hentry, hheld⟩ := hinv.holder_of_believes hproc
  obtain ⟨fd', hentry', hheld'⟩ := hinv.holder_of_believes hother
  rw [hentry] at hentry'
  cases hentry'
  rw [hheld] at hheld'
  exact Option.some.inj hheld'

/-- Two processes of which the second one waits for the first one. -/
def contention : List (Event Nat Nat) :=
  [.lockPaths 0 [0] true, .call 0 true, .call 0 true, .call 0 true,
    .lockPaths 1 [0] true, .call 1 true, .call 1 true]

instance (s : State Nat Nat) (e : Event Nat Nat) : Decidable (Uninterrupted s e) :=
  match e with
  | .interrupted _ => isFalse id
  | .lockPaths .. | .setDeletion .. | .unlock _ | .call .. | .thrown _ => isTrue trivial

theorem exclusive_of_contention :
    ∃ s, exec step Uninterrupted start contention = some s ∧ Exclusive s :=
  have hrun : exec step Uninterrupted start contention = some _ := rfl
  ⟨_, hrun, exclusive_of_uninterrupted (Reaches.start.exec hrun)⟩

/-- A signal ends the attempt of the second process. -/
theorem not_exclusive_interrupted :
    ¬∀ s, Reaches step (fun _ _ => True) start s → Exclusive (s : State Nat Nat) := by
  intro h
  have hrun : exec step (fun _ _ => True) start
      (contention ++ [.interrupted 1, .call 1 true]) = some _ := rfl
  have hfds := (h _ (Reaches.start.exec hrun)).1 0 1 0 ⟨rfl, 0, List.mem_singleton_self _⟩
    ⟨rfl, 0, List.mem_singleton_self _⟩
  cases hfds

end Nix.Store.PathLocks
