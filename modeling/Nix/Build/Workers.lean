import Nix.Lib.Graphs
import Nix.Lib.Transitions

set_option linter.dupNamespace false

namespace Nix.Build.Workers

inductive JobCategory
  | build
  | substitution
  | administration
  deriving DecidableEq

/-- The two kinds of job slots. -/
inductive Slot
  | build
  | substitution
  deriving DecidableEq

def JobCategory.slot : JobCategory → Slot
  | .substitution => .substitution
  | _ => .build

inductive ExitCode
  | success
  | failed
  | noSubstituters
  deriving DecidableEq

/-- What a goal that is not done was last suspended for. -/
inductive Suspension
  | started
  | await
  | yield
  | waitForAWhile
  | waitForBuildSlot
  | waitUntilWoken
  | childEvent
  deriving DecidableEq

structure WorkerSettings where
  maxBuildJobs : Nat
  maxSubstitutionJobs : Nat
  keepGoing : Bool

/-- The number of jobs below which a goal starts one. -/
def WorkerSettings.jobs (settings : WorkerSettings) : Slot → Nat
  | .build => settings.maxBuildJobs
  | .substitution => max 1 settings.maxSubstitutionJobs

/-- The number of jobs below which `waitForBuildSlot` finds a slot available. -/
def WorkerSettings.slots (settings : WorkerSettings) : Slot → Nat
  | .build => settings.maxBuildJobs
  | .substitution => settings.maxSubstitutionJobs

variable {γ : Type}

structure Child (γ : Type) where
  goal : γ
  /-- Whether `channels` is not empty. -/
  channels : Bool
  inBuildSlot : Bool
  deriving DecidableEq

/-- The state of a `Worker` and of its goals. -/
structure Worker (γ : Type) where
  /-- The goals that exist and are busy. -/
  goals : List γ
  /-- All goals that have been made. -/
  made : List γ
  topGoals : List γ
  waitees : γ → List γ
  suspension : γ → Suspension
  /-- The sets of weak references. -/
  awake : List γ
  /-- `wantingToBuild` and `wantingToSubstitute`. -/
  wanting : Slot → List γ
  waitingForAWhile : List γ
  waitingForCompletion : List γ
  children : List (Child γ)
  /-- `nrLocalBuilds` and `nrSubstitutions`. -/
  nrJobs : Slot → Nat

/-- The classes of the goals, and their order in the sets of weak references. -/
structure GoalClasses (γ : Type) where
  jobCategory : γ → JobCategory
  order : γ → Nat

section Operations

variable [DecidableEq γ]

def update {β : Type} (f : γ → β) (g : γ) (b : β) : γ → β :=
  fun g' => if g' = g then b else f g'

variable (classes : GoalClasses γ) (settings : WorkerSettings)

def addToWeakGoals (goals : List γ) (p : γ) : List γ :=
  if p ∈ goals then goals
  else goals.takeWhile (classes.order · < classes.order p) ++
    p :: goals.dropWhile (classes.order · < classes.order p)

namespace Worker

def wakeUp (s : Worker γ) (goal : γ) : Worker γ :=
  { s with awake := addToWeakGoals classes s.awake goal }

def slot (goal : γ) : Slot := (classes.jobCategory goal).slot

def childStarted (s : Worker γ) (goal : γ) (channels inBuildSlot : Bool) : Worker γ :=
  { s with
    children := s.children ++ [⟨goal, channels, inBuildSlot⟩]
    nrJobs := if inBuildSlot then
        update s.nrJobs (slot classes goal) (s.nrJobs (slot classes goal) + 1)
      else s.nrJobs }

/-- The first waiting goal that still exists is woken, and dropped with the references before
it, which have expired. -/
def wakeWaiter (s : Worker γ) (slot : Slot) : Worker γ :=
  match (s.wanting slot).dropWhile (· ∉ s.goals) with
  | [] => { s with wanting := update s.wanting slot [] }
  | goal :: rest => ({ s with wanting := update s.wanting slot rest }).wakeUp classes goal

def childTerminated (s : Worker γ) (goal : γ) : Worker γ :=
  match s.children.find? (·.goal = goal) with
  | none => s
  | some child =>
      let slot := slot classes goal
      let s := { s with
        nrJobs := if child.inBuildSlot then update s.nrJobs slot (s.nrJobs slot - 1)
          else s.nrJobs
        children := s.children.eraseP (·.goal = goal) }
      s.wakeWaiter classes slot

def waitForBuildSlot (s : Worker γ) (goal : γ) : Worker γ :=
  let slot := slot classes goal
  if s.nrJobs slot < settings.slots slot then s.wakeUp classes goal
  else { s with wanting := update s.wanting slot (addToWeakGoals classes (s.wanting slot) goal) }

/-- `initGoalIfNeeded`, for a goal that is not there. -/
def makeGoal (s : Worker γ) (goal : γ) : Worker γ :=
  ({ s with
    goals := goal :: s.goals
    made := goal :: s.made
    waitees := update s.waitees goal []
    suspension := update s.suspension goal .started }).wakeUp classes goal

/-- What is left of the waitees of a goal when one of them is done. -/
def waiteesAfter (waitees : List γ) (goal : γ) (result : ExitCode) : List γ :=
  if goal ∉ waitees then waitees
  else
    let rest := waitees.filter (· ≠ goal)
    if result = .failed ∧ settings.keepGoing = false then [] else rest

/-- The goals that are woken when a goal is done. -/
def wokenBy (s : Worker γ) (goal : γ) (result : ExitCode) : List γ :=
  s.goals.filter fun p => goal ∈ s.waitees p ∧
    waiteesAfter settings (s.waitees p) goal result = []

def removeGoal (s : Worker γ) (goal : γ) (result : ExitCode) : Worker γ :=
  { s with
    goals := s.goals.filter (· ≠ goal)
    topGoals :=
      if goal ∈ s.topGoals then
        if result = .failed ∧ settings.keepGoing = false then []
        else s.topGoals.filter (· ≠ goal)
      else s.topGoals }

def amDone (s : Worker γ) (goal : γ) (result : ExitCode) : Worker γ :=
  let s := (s.wokenBy settings goal result).foldl (fun s p => s.wakeUp classes p)
    { s with waitees := fun p => waiteesAfter settings (s.waitees p) goal result }
  (s.removeGoal settings goal result).childTerminated classes goal

end Worker

/-- What a goal does with the worker while it runs. -/
inductive Action (γ : Type)
  | makeGoal (goal : γ)
  | childStarted (channels inBuildSlot : Bool)
  | childTerminated
  deriving DecidableEq

/-- How a goal stops running. -/
inductive Stop (γ : Type)
  | await (waitees : List γ)
  | yield
  | waitForAWhile
  | waitForBuildSlot
  | waitUntilWoken
  | waitForChildEvent
  | done (result : ExitCode)
  deriving DecidableEq

namespace Worker

/-- The actions that goals take: a child takes a slot only if there is one. -/
def act (goal : γ) (s : Worker γ) : Action γ → Option (Worker γ)
  | .makeGoal g => if g ∈ s.made then none else some (s.makeGoal classes g)
  | .childStarted channels inBuildSlot =>
      if inBuildSlot ∧ settings.jobs (slot classes goal) ≤ s.nrJobs (slot classes goal) then none
      else some (s.childStarted classes goal channels inBuildSlot)
  | .childTerminated => some (s.childTerminated classes goal)

def acts (goal : γ) : Worker γ → List (Action γ) → Option (Worker γ)
  | s, [] => some s
  | s, a :: as => (s.act classes settings goal a).bind fun s => s.acts goal as

/-- Goals wait for a slot only if there is none, and with a child only for its events or its
end. -/
def stop (goal : γ) (s : Worker γ) : Stop γ → Option (Worker γ)
  | .await waitees =>
      if waitees = [] ∨ (∃ w ∈ waitees, w ∉ s.goals) ∨ ∃ c ∈ s.children, c.goal = goal then none
      else some { s with
        waitees := update s.waitees goal waitees
        suspension := update s.suspension goal .await }
  | .yield =>
      if ∃ c ∈ s.children, c.goal = goal then none
      else some (({ s with suspension := update s.suspension goal .yield }).wakeUp classes goal)
  | .waitForAWhile =>
      if ∃ c ∈ s.children, c.goal = goal then none
      else some { s with
        suspension := update s.suspension goal .waitForAWhile
        waitingForAWhile := addToWeakGoals classes s.waitingForAWhile goal }
  | .waitForBuildSlot =>
      if s.nrJobs (slot classes goal) < settings.jobs (slot classes goal) ∨
          ∃ c ∈ s.children, c.goal = goal then none
      else some (({ s with
        suspension := update s.suspension goal .waitForBuildSlot }).waitForBuildSlot
          classes settings goal)
  | .waitUntilWoken =>
      if ∃ c ∈ s.children, c.goal = goal ∧ c.channels then none
      else some { s with
        suspension := update s.suspension goal .waitUntilWoken
        waitingForCompletion := addToWeakGoals classes s.waitingForCompletion goal }
  | .waitForChildEvent =>
      if ∃ c ∈ s.children, c.goal = goal ∧ c.channels then
        some { s with suspension := update s.suspension goal .childEvent }
      else none
  | .done result => some (s.amDone classes settings goal result)

end Worker

inductive Event (γ : Type)
  /-- `work` of an awake goal. -/
  | work (goal : γ) (actions : List (Action γ)) (stop : Stop γ)
  /-- Output, end of file or a timeout of a child. -/
  | childEvent (goal : γ)
  /-- A completion callback. -/
  | completed (goal : γ)
  /-- The poll interval is over. -/
  | poll
  /-- The last reference to a goal is dropped. -/
  | destroy (goal : γ)
  deriving DecidableEq

def step (s : Worker γ) : Event γ → Option (Worker γ)
  | .work goal actions stop =>
      if s.topGoals ≠ [] ∧ goal ∈ s.goals ∧ goal ∈ s.awake ∧ s.waitees goal = [] then
        (({ s with awake := s.awake.filter (· ≠ goal) }).acts classes settings goal actions).bind
          fun s => s.stop classes settings goal stop
      else none
  | .childEvent goal =>
      if goal ∈ s.goals ∧ ∃ c ∈ s.children, c.goal = goal ∧ c.channels then
        some (s.wakeUp classes goal)
      else none
  | .completed goal =>
      if goal ∈ s.goals ∧ goal ∈ s.waitingForCompletion then
        some (({ s with
          waitingForCompletion := s.waitingForCompletion.filter (· ≠ goal) }).wakeUp classes goal)
      else none
  | .poll =>
      some { (s.waitingForAWhile.filter (· ∈ s.goals)).foldl (fun s p => s.wakeUp classes p) s with
        waitingForAWhile := [] }
  | .destroy goal =>
      if goal ∈ s.goals ∧ goal ∉ s.topGoals ∧ ∀ p ∈ s.goals, goal ∉ s.waitees p then
        some (({ s with goals := s.goals.filter (· ≠ goal) }).childTerminated classes goal)
      else none

/-- The worker that `run` is called on. -/
def start (topGoals : List γ) : Worker γ where
  goals := topGoals
  made := topGoals
  topGoals := topGoals
  waitees _ := []
  suspension _ := .started
  awake := topGoals
  wanting _ := []
  waitingForAWhile := []
  waitingForCompletion := []
  children := []
  nrJobs _ := 0

/-- In a state in which `run` would wait for input, there is input to wait for, and no goal waits
for a slot while one is free. -/
def NoLostWakeUp (s : Worker γ) : Prop :=
  s.topGoals ≠ [] → (∀ g ∈ s.goals, g ∉ s.awake) →
    (s.children ≠ [] ∨ (∃ g ∈ s.goals, g ∈ s.waitingForAWhile) ∨
      ∃ g ∈ s.goals, g ∈ s.waitingForCompletion) ∧
    ∀ slot, (∃ g ∈ s.goals, g ∈ s.wanting slot) → settings.jobs slot ≤ s.nrJobs slot

end Operations

end Nix.Build.Workers
