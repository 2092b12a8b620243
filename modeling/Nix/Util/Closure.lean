import Mathlib.Data.List.Basic
import Mathlib.Logic.Relation
import Nix.Lib.Transitions

set_option linter.dupNamespace false

namespace Nix.Util.Closure

open Lib.Transitions
open Relation

variable {α ε : Type}

/-- A handler that has been posted to the strand. -/
inductive Task (α ε : Type)
  | enqueue (startElts : List α)
  | spawnWorker (elt : α)
  /-- The coroutine that calls `getEdges`. -/
  | call (elt : α)
  | handler (ex : Option ε)
  deriving DecidableEq

structure State (α ε : Type) where
  res : List α
  workGuard : Bool := true
  pending : Nat := 0
  inFlight : Nat := 0
  todo : List α := []
  error : Option ε := none
  /-- The queue of the strand. -/
  posted : List (Task α ε) := []
  /-- The calls of `getEdges` that have not returned. -/
  running : List α := []
  /-- The invocations of the completion handler. -/
  handled : List (Option ε) := []
  deriving DecidableEq

namespace State

def post (s : State α ε) (task : Task α ε) : State α ε :=
  { s with posted := s.posted ++ [task] }

def complete (s : State α ε) (ex : Option ε) : State α ε :=
  { s with workGuard := false }.post (.handler ex)

def fail (s : State α ε) (ex : ε) : State α ε :=
  { s with error := s.error.or (some ex) }

def spawnWorker (s : State α ε) (elt : α) : State α ε :=
  { s with inFlight := s.inFlight + 1 }.post (.call elt)

def onWorkDone (s : State α ε) : State α ε :=
  let s := { s with inFlight := s.inFlight - 1, pending := s.pending - 1 }
  match s.todo, s.error with
  | next :: rest, none => { s with todo := rest }.post (.spawnWorker next)
  | todo, error =>
      let s := if error.isSome then { s with pending := s.pending - todo.length, todo := [] }
        else s
      if s.pending = 0 then s.complete error else s

variable [DecidableEq α] (maxConcurrent : Nat)

def enqueue (s : State α ε) (elt : α) : State α ε :=
  if s.error.isSome then s
  else if elt ∈ s.res then s
  else
    let s := { s with res := elt :: s.res, pending := s.pending + 1 }
    if s.inFlight < maxConcurrent then s.spawnWorker elt
    else { s with todo := s.todo ++ [elt] }

def enqueueAll (s : State α ε) (elts : List α) : State α ε :=
  elts.foldl (fun s elt => s.enqueue maxConcurrent elt) s

end State

def computeClosure (startElts res : List α) : State α ε :=
  let state : State α ε := { res }
  if startElts = [] then state.complete none else state.post (.enqueue startElts)

inductive Event (α ε : Type)
  /-- The strand runs the first handler. -/
  | next
  /-- A call of `getEdges` returns. -/
  | returned (elt : α)
  /-- A call of `getEdges` throws. -/
  | failed (elt : α) (ex : ε)
  deriving DecidableEq

variable [DecidableEq α] (maxConcurrent : Nat) (edges : α → List α)

def run (s : State α ε) : Task α ε → State α ε
  | .enqueue startElts => s.enqueueAll maxConcurrent startElts
  | .spawnWorker elt => s.spawnWorker elt
  | .call elt => { s with running := elt :: s.running }
  | .handler ex => { s with handled := s.handled ++ [ex] }

def step (s : State α ε) : Event α ε → Option (State α ε)
  | .next =>
      match s.posted with
      | [] => none
      | task :: posted => some (run maxConcurrent { s with posted } task)
  | .returned elt =>
      if elt ∈ s.running then
        some (({ s with running := s.running.erase elt }.enqueueAll maxConcurrent
          (edges elt)).onWorkDone)
      else none
  | .failed elt ex =>
      if elt ∈ s.running then
        some (({ s with running := s.running.erase elt }.fail ex).onWorkDone)
      else none

/-- What the start elements lead to through elements that are not in the set at first. -/
def Closed (startElts res : List α) (x : α) : Prop :=
  x ∈ res ∨ ∃ a ∈ startElts, ReflTransGen (fun a b => a ∉ res ∧ b ∈ edges a) a x

def NoneFails (_ : State α ε) : Event α ε → Prop
  | .failed _ _ => False
  | _ => True

variable (ε) in
/-- The handler is invoked once and at the end, and the closure is complete if no call fails. -/
structure ComputesClosure (startElts res : List α) : Prop where
  atEnd : ∀ s : State α ε, Reaches (step maxConcurrent edges) (fun _ _ => True)
    (computeClosure startElts res) s → s.handled ≠ [] → s.running = [] ∧ s.posted = []
  once : ∀ s : State α ε, Reaches (step maxConcurrent edges) (fun _ _ => True)
    (computeClosure startElts res) s → (∀ e, step maxConcurrent edges s e = none) →
      s.handled.length = 1
  closure : ∀ s : State α ε, Reaches (step maxConcurrent edges) NoneFails
    (computeClosure startElts res) s → (∀ e, step maxConcurrent edges s e = none) →
      s.handled = [none] ∧ ∀ x, x ∈ s.res ↔ Closed edges startElts res x

end Nix.Util.Closure
