import Mathlib.Data.List.Pairwise
import Mathlib.Logic.Function.Basic
import Mathlib.Order.Defs.LinearOrder
import Nix.Lib.Graphs
import Nix.Lib.Transitions

set_option linter.dupNamespace false

namespace Nix.Store.PathLocks

open Lib.Graphs Lib.Transitions

variable {π γ : Type}

/-- The lock files of paths. A file keeps its inode and its locks when it is unlinked. -/
structure Files (π γ : Type) where
  /-- The paths that files have been created for, by inode. -/
  inodes : List π := []
  /-- The file that a lock path is linked to. -/
  entry : π → Option Nat := fun _ => none
  size : Nat → Nat := fun _ => 0
  /-- The process that has an exclusive `flock` on the file. -/
  holder : Nat → Option γ := fun _ => none

/-- What an iteration of `lockPaths` works on. -/
structure Turn (π : Type) where
  path : π
  rest : List π
  wait : Bool

/-- The calls that release one lock. -/
inductive Stage
  | unlink
  | write
  | close
  deriving DecidableEq

inductive Phase (π : Type)
  | idle
  /-- `openLockFile`, whose result replaces a stale descriptor. -/
  | opening (turn : Turn π) (old : Option Nat)
  | closing (turn : Turn π) (fd old : Nat)
  /-- `lockFile` without waiting. -/
  | trying (turn : Turn π) (fd : Nat)
  | waiting (turn : Turn π) (fd : Nat)
  /-- `fstat` of the file that has been locked. -/
  | checking (turn : Turn π) (fd : Nat)
  | unlocking (left : List (Nat × π)) (stage : Stage)

/-- A process with its `PathLocks`. -/
structure Process (π : Type) where
  fds : List (Nat × π) := []
  deletePaths : Bool := false
  phase : Phase π := .idle

namespace Process

/-- The loop of `lockPaths` over the paths that are left. -/
def turn (proc : Process π) (wait : Bool) : List π → Process π
  | [] => { proc with phase := .idle }
  | path :: rest => { proc with phase := .opening ⟨path, rest, wait⟩ none }

/-- The loop of `unlock` over the descriptors that are left. -/
def unlock (proc : Process π) : List (Nat × π) → Process π
  | [] => { proc with fds := [], phase := .idle }
  | fd :: left =>
      { proc with phase := .unlocking (fd :: left) (if proc.deletePaths then .unlink else .close) }

end Process

structure State (π γ : Type) where
  files : Files π γ
  procs : γ → Process π

inductive Event (π γ : Type)
  /-- The paths are a set, in order. -/
  | lockPaths (proc : γ) (paths : List π) (wait : Bool)
  | setDeletion (proc : γ) (deletePaths : Bool)
  | unlock (proc : γ)
  /-- The system call that the process makes next. An `unlink` may fail. -/
  | call (proc : γ) (ok : Bool)
  /-- A signal ends the `flock` that waits, and `checkInterrupt` does not throw. -/
  | interrupted (proc : γ)
  /-- `checkInterrupt` throws, and the destructors run. -/
  | thrown (proc : γ)
  deriving DecidableEq

section Operations

variable [LinearOrder π] [DecidableEq γ]

def Files.release (files : Files π γ) (fd : Nat) : Files π γ :=
  { files with holder := Function.update files.holder fd none }

def Files.lock (files : Files π γ) (fd : Nat) (proc : γ) : Files π γ :=
  { files with holder := Function.update files.holder fd (some proc) }

/-- `open` with `O_CREAT`. -/
def Files.openLockFile (files : Files π γ) (path : π) : Nat × Files π γ :=
  match files.entry path with
  | some fd => (fd, files)
  | none => (files.inodes.length, { files with
      inodes := files.inodes ++ [path]
      entry := Function.update files.entry path (some files.inodes.length) })

/-- What the next system call of a process does. A call that blocks does nothing. -/
def systemCall (files : Files π γ) (name : γ) (proc : Process π) (ok : Bool) :
    Option (Files π γ × Process π) :=
  match proc.phase with
  | .idle => none
  | .opening turn old =>
      let (fd, files) := files.openLockFile turn.path
      some (files, { proc with
        phase := match old with
          | some old => .closing turn fd old
          | none => .trying turn fd })
  | .closing turn fd old => some (files.release old, { proc with phase := .trying turn fd })
  | .trying turn fd =>
      if files.holder fd = none then
        some (files.lock fd name, { proc with phase := .checking turn fd })
      else if turn.wait then some (files, { proc with phase := .waiting turn fd })
      else some (files, proc.unlock proc.fds)
  | .waiting turn fd =>
      if files.holder fd = none then
        some (files.lock fd name, { proc with phase := .checking turn fd })
      else none
  | .checking turn fd =>
      if files.size fd ≠ 0 then some (files, { proc with phase := .opening turn (some fd) })
      else some (files, { proc with fds := proc.fds ++ [(fd, turn.path)] }.turn turn.wait turn.rest)
  | .unlocking [] _ => none
  | .unlocking ((fd, path) :: left) .unlink =>
      some ({ files with entry := if ok then Function.update files.entry path none
          else files.entry },
        { proc with phase := .unlocking ((fd, path) :: left) .write })
  | .unlocking ((fd, path) :: left) .write =>
      some ({ files with size := Function.update files.size fd (files.size fd + 1) },
        { proc with phase := .unlocking ((fd, path) :: left) .close })
  | .unlocking ((fd, _) :: left) .close => some (files.release fd, proc.unlock left)

/-- What `checkInterrupt` may throw in: the loop and the attempts to lock. -/
def throwInterrupted (files : Files π γ) (proc : Process π) : Option (Files π γ × Process π) :=
  match proc.phase with
  | .opening _ (some old) => some (files.release old, proc.unlock proc.fds)
  | .opening _ none | .trying _ _ | .waiting _ _ => some (files, proc.unlock proc.fds)
  | _ => none

def step (s : State π γ) : Event π γ → Option (State π γ)
  | .lockPaths name paths wait =>
      let proc := s.procs name
      match proc.phase, proc.fds with
      | .idle, [] =>
          if paths.Pairwise (· < ·) then
            some { s with procs := Function.update s.procs name (proc.turn wait paths) }
          else none
      | _, _ => none
  | .setDeletion name deletePaths =>
      some { s with
        procs := Function.update s.procs name { s.procs name with deletePaths } }
  | .unlock name =>
      let proc := s.procs name
      match proc.phase with
      | .idle => some { s with procs := Function.update s.procs name (proc.unlock proc.fds) }
      | _ => none
  | .call name ok =>
      (systemCall s.files name (s.procs name) ok).map fun (files, proc) =>
        ⟨files, Function.update s.procs name proc⟩
  | .interrupted name =>
      let proc := s.procs name
      match proc.phase with
      | .waiting turn fd =>
          some { s with
            procs := Function.update s.procs name { proc with phase := .checking turn fd } }
      | _ => none
  | .thrown name =>
      (throwInterrupted s.files (s.procs name)).map fun (files, proc) =>
        ⟨files, Function.update s.procs name proc⟩

end Operations

def start : State π γ := ⟨{}, fun _ => {}⟩

/-- `lockPaths` has returned true, and the process has not unlocked. -/
def Believes (s : State π γ) (proc : γ) (path : π) : Prop :=
  (s.procs proc).phase matches .idle ∧ ∃ fd, (fd, path) ∈ (s.procs proc).fds

/-- A process waits for a lock that another one has. -/
def WaitsFor (s : State π γ) (proc other : γ) : Prop :=
  ∃ turn fd, (s.procs proc).phase = .waiting turn fd ∧ s.files.holder fd = some other

def Exclusive (s : State π γ) : Prop :=
  (∀ proc other path, Believes s proc path → Believes s other path → proc = other) ∧
    Acyclic (WaitsFor s)

def Uninterrupted (_ : State π γ) : Event π γ → Prop
  | .interrupted _ => False
  | _ => True

end Nix.Store.PathLocks
