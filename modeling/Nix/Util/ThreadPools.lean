import Mathlib.Data.Finset.Basic
import Mathlib.Data.Finset.Filter
import Mathlib.Logic.Relation
import Nix.Lib.Transitions

/-!
`processGraph` on a `ThreadPool`.
-/

set_option linter.dupNamespace false

namespace Nix.Util.ThreadPools

open Relation
open Lib.Transitions

variable {α : Type}

/-- The arguments of `processGraph`, and the size of its pool. -/
structure Job (α : Type) where
  nodes : List α
  nodup : nodes.Nodup
  getEdges : α → Finset α
  maxThreads : Nat

/-- How `processGraph` ends. -/
inductive Outcome
  | returned
  /-- The error about an incomplete graph. -/
  | incomplete
  /-- The exception of a work item. -/
  | rethrown
  deriving DecidableEq

/-- Where a thread is. -/
inductive Pc (α : Type)
  /-- The main thread enqueues the nodes. -/
  | enqueueing (nodes : List α)
  /-- It is about to set `draining`. -/
  | draining
  /-- In `doWork`, before the lock: whether there has been a work item, and whether it threw. -/
  | locking (worked : Option Bool)
  | waiting
  | notified
  | returned
  /-- A work item looks for the node in `refs`. -/
  | starting (node : α)
  | gettingEdges (node : α)
  | linking (node : α)
  /-- Before and in `processNode`. -/
  | ready (node : α)
  | processing (node : α)
  /-- Before the lock for the nodes that wait for this one, and with that lock. -/
  | acquiring (node : α)
  | releasing (node : α) (rrefs : Finset α)
  /-- The main thread looks at what is left, and joins the workers. -/
  | examining
  | joining (outcome : Outcome)
  | finished (outcome : Outcome)
  /-- A failed `assert`. -/
  | aborted

namespace Pc

def isWaiting : Pc α → Bool
  | .waiting => true
  | _ => false

def isReturned : Pc α → Bool
  | .returned => true
  | _ => false

def isReleasing : Pc α → Bool
  | .releasing _ _ => true
  | _ => false

def wake : Pc α → Pc α
  | .waiting => .notified
  | t => t

end Pc

/-- The calls of `processNode`. -/
inductive Call (α : Type)
  | started (node : α)
  | ended (node : α)
  deriving DecidableEq

structure State (α : Type) where
  /-- The main thread, and the workers. -/
  threads : List (Pc α)
  pending : List α := []
  active : Nat := 0
  exception : Bool := false
  draining : Bool := false
  quit : Bool := false
  left : Finset α
  refs : α → Option (Finset α) := fun _ => none
  rrefs : α → Finset α := fun _ => ∅
  /-- The calls so far. -/
  log : List (Call α) := []
  /-- A callback has thrown. -/
  failed : Bool := false

namespace State

variable (s : State α)

def goTo (i : Nat) (t : Pc α) : State α :=
  { s with threads := s.threads.set i t }

def notifyAll : State α :=
  { s with threads := s.threads.map Pc.wake }

/-- `notify_one`, if it wakes the thread `j`. -/
def notifyOne (j : Nat) : Option (State α) :=
  if s.threads.any Pc.isWaiting then
    match s.threads[j]? with
    | some .waiting => some (s.goTo j .notified)
    | _ => none
  else some s

def GraphFree : Prop :=
  ∀ t ∈ s.threads, t.isReleasing = false

instance : Decidable s.GraphFree :=
  inferInstanceAs (Decidable (∀ t ∈ s.threads, _))

/-- `enqueue`, unless the pool is shutting down. -/
def enqueue (maxThreads : Nat) (node : α) (j : Nat) : Option (State α) :=
  let pending := s.pending ++ [node]
  let threads :=
    if s.threads.length < pending.length ∧ s.threads.length < maxThreads then
      s.threads ++ [.locking none]
    else s.threads
  { s with pending, threads }.notifyOne j

/-- The inner loop of `doWork`, up to the next wait. -/
def await (i : Nat) : State α :=
  if s.quit then s.goTo i .returned
  else
    match s.pending with
    | node :: pending => { s with pending, active := s.active + 1 }.goTo i (.starting node)
    | [] =>
        if s.active = 0 ∧ s.draining then { s with quit := true }.notifyAll.goTo i .returned
        else s.goTo i .waiting

/-- What happens to a work item that has ended, with its exception. -/
def account (threw : Bool) : State α :=
  let s := { s with active := s.active - 1 }
  if threw ∧ ¬s.exception then { s with exception := true, quit := true }.notifyAll else s

/-- `shutdown`, before it joins the workers. -/
def shutdown (outcome : Outcome) : State α :=
  { s with quit := true }.notifyAll.goTo 0 (.joining outcome)

variable [DecidableEq α]

/-- The node waits for those of its references that are left. -/
def link (job : Job α) (node : α) : State α :=
  let refs := ((job.getEdges node).erase node).filter (· ∈ s.left)
  { s with
    refs := Function.update s.refs node (some ((s.refs node).getD ∅ ∪ refs))
    rrefs := fun ref => if ref ∈ refs then insert node (s.rrefs ref) else s.rrefs ref }

def erase (node : α) : State α :=
  { s with
    left := s.left.erase node
    refs := Function.update s.refs node none
    rrefs := Function.update s.rrefs node ∅ }

end State

inductive Event (α : Type)
  /-- The next step of a thread, which may notify another one. -/
  | run (i j : Nat)
  /-- The releasing thread comes to a node that waits. -/
  | release (i j : Nat) (rref : α)
  /-- A callback throws. -/
  | throw (i : Nat)
  /-- A spurious wakeup. -/
  | wakeup (i : Nat)

variable [DecidableEq α]

def run (job : Job α) (s : State α) (i j : Nat) : Pc α → Option (State α)
  | .enqueueing [] => some (s.goTo i .draining)
  | .enqueueing (node :: nodes) =>
      if s.quit then some (s.goTo i .draining)
      else (s.goTo i (.enqueueing nodes)).enqueue job.maxThreads node j
  | .draining => some ({ s with draining := true }.goTo i (.locking none))
  | .locking none => some (s.await i)
  | .locking (some threw) => some ((s.account threw).await i)
  | .waiting => none
  | .notified => some (s.await i)
  | .returned =>
      -- `process`, in the main thread
      if i ≠ 0 then none
      else if ¬s.quit then some (s.goTo i .aborted)
      else if s.exception then some (s.shutdown .rethrown)
      else some (s.goTo i .examining)
  | .starting node =>
      if s.GraphFree then
        some (s.goTo i (if s.refs node = none then .gettingEdges node else .ready node))
      else none
  | .gettingEdges node => some (s.goTo i (.linking node))
  | .linking node =>
      if s.GraphFree then
        let s := s.link job node
        some (s.goTo i (if s.refs node = some ∅ then .ready node else .locking (some false)))
      else none
  | .ready node =>
      some ({ s with log := s.log ++ [Call.started node] }.goTo i (.processing node))
  | .processing node =>
      some ({ s with log := s.log ++ [Call.ended node] }.goTo i (.acquiring node))
  | .acquiring node =>
      if s.GraphFree then some (s.goTo i (.releasing node (s.rrefs node))) else none
  | .releasing node rrefs =>
      if rrefs = ∅ then some ((s.erase node).goTo i (.locking (some false))) else none
  | .examining =>
      if s.GraphFree then
        some (s.shutdown (if s.left = ∅ then .returned else .incomplete))
      else none
  | .joining outcome =>
      if s.threads.tail.all Pc.isReturned then some (s.goTo i (.finished outcome)) else none
  | .finished _ => none
  | .aborted => none

/-- A round of the loop over the nodes that wait for `node`. -/
def release (job : Job α) (s : State α) (i j : Nat) (rref node : α) (rrefs : Finset α) :
    Option (State α) :=
  match s.refs rref with
  | none => some (s.goTo i .aborted)
  | some refs =>
      if node ∈ refs then
        let s := { s with refs := Function.update s.refs rref (some (refs.erase node)) }
        if refs.erase node = ∅ then
          -- `enqueue` throws while the pool is shutting down
          if s.quit then some (s.goTo i (.locking (some true)))
          else (s.goTo i (.releasing node (rrefs.erase rref))).enqueue job.maxThreads rref j
        else some (s.goTo i (.releasing node (rrefs.erase rref)))
      else some (s.goTo i .aborted)

def step (job : Job α) (s : State α) : Event α → Option (State α)
  | .run i j => s.threads[i]?.bind (run job s i j)
  | .release i j rref =>
      match s.threads[i]? with
      | some (.releasing node rrefs) =>
          if rref ∈ rrefs then release job s i j rref node rrefs else none
      | _ => none
  | .throw i =>
      match s.threads[i]? with
      | some (.gettingEdges _) => some ({ s with failed := true }.goTo i (.locking (some true)))
      | some (.processing _) => some ({ s with failed := true }.goTo i (.locking (some true)))
      | _ => none
  | .wakeup i =>
      match s.threads[i]? with
      | some .waiting => some (s.goTo i .notified)
      | _ => none

def start (job : Job α) : State α where
  threads := [.enqueueing job.nodes]
  left := job.nodes.toFinset

def Job.Depends (job : Job α) (node ref : α) : Prop :=
  node ∈ job.nodes ∧ ref ∈ job.nodes ∧ ref ≠ node ∧ ref ∈ job.getEdges node

/-- The node is on a cycle, or depends on one that is. -/
def Job.ReachesCycle (job : Job α) (node : α) : Prop :=
  ∃ n, ReflTransGen job.Depends node n ∧ TransGen job.Depends n n

/-- A node is processed once, when the nodes that it depends on have been. -/
structure InOrder (job : Job α) (log : List (Call α)) : Prop where
  once : ∀ call, log.count call ≤ 1
  ended : ∀ before n after, log = before ++ .ended n :: after → .started n ∈ before
  order : ∀ before n after, log = before ++ .started n :: after →
    n ∈ job.nodes ∧ ∀ ref, job.Depends n ref → .ended ref ∈ before

/-- How the call ends if no callback throws. -/
structure Completed (job : Job α) (outcome : Outcome) (log : List (Call α)) : Prop where
  acyclic : outcome = .returned ↔ ∀ n, ¬TransGen job.Depends n n
  cyclic : outcome = .incomplete ↔ ∃ n, TransGen job.Depends n n
  processed : ∀ n ∈ job.nodes, ¬job.ReachesCycle n → log.count (.ended n) = 1
  unprocessed : ∀ n, job.ReachesCycle n → .started n ∉ log

def Event.isWakeup : Event α → Bool
  | .wakeup _ => true
  | _ => false

def State.Finished (s : State α) (outcome : Outcome) : Prop :=
  s.threads.head? = some (.finished outcome)

/-- What `processGraph` does with a job, whatever its threads do. -/
structure Executes (job : Job α) : Prop where
  inOrder : ∀ s, Reaches (step job) (fun _ _ => True) (start job) s → InOrder job s.log
  completed : ∀ s outcome, Reaches (step job) (fun _ _ => True) (start job) s →
    s.Finished outcome → s.failed = false → Completed job outcome s.log
  rethrown : ∀ s outcome, Reaches (step job) (fun _ _ => True) (start job) s →
    s.Finished outcome → s.failed = true → outcome = .rethrown
  stopped : ∀ s outcome, Reaches (step job) (fun _ _ => True) (start job) s →
    s.Finished outcome → ∀ t ∈ s.threads.tail, t.isReturned = true
  /-- Some thread can go on, other than by a spurious wakeup. -/
  notStuck : ∀ s, Reaches (step job) (fun _ _ => True) (start job) s →
    (∃ outcome, s.Finished outcome) ∨ ∃ e s', e.isWakeup = false ∧ step job s e = some s'
  /-- Without spurious wakeups, no run goes on forever. -/
  ends : ∀ run : Nat → State α, Reaches (step job) (fun _ _ => True) (start job) (run 0) →
    ¬∀ k, ∃ e, e.isWakeup = false ∧ step job (run k) e = some (run (k + 1))

end Nix.Util.ThreadPools
