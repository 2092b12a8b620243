import Nix.Lib.Table
import Nix.Lib.Transitions
import Nix.Lib.Worklists
import Nix.Store.Path
import Nix.Util.TopoSort

set_option linter.dupNamespace false

namespace Nix.Store.GarbageCollector

open Util.Types Util.TopoSort Lib.Table Lib.Transitions Lib.Worklists Store.Path

/-- What the collector reads of a `ValidPathInfo`. -/
structure Info where
  path : StorePath
  references : List StorePath := []
  deriver : Option StorePath := none
  deriving DecidableEq

/-- A row of the table `DerivationOutputs`. -/
structure OutputRow where
  drv : StorePath
  id : Bytes
  path : StorePath

/-- The tables of the store. The realisations are the ones of a derivation's outputs; there are
none of them unless the experimental feature is enabled. -/
structure Tables where
  infos : List Info
  derivationOutputs : List OutputRow := []
  realisations : StorePath → List (Bytes × StorePath) := fun _ => []

namespace Tables

variable (s : Tables) (p : StorePath)

def queryPathInfo : Option Info :=
  select Info.path s.infos p

def isValidPath : Bool :=
  (s.queryPathInfo p).isSome

def queryReferrers : List StorePath :=
  (s.infos.filter (p ∈ ·.references)).map Info.path

def queryStaticPartialDerivationOutputMap : List (Bytes × StorePath) :=
  (s.derivationOutputs.filter (·.drv = p)).map fun row => (row.id, row.path)

/-- Realisations replace the outputs of the same name. Unknown outputs are left out. -/
def queryPartialDerivationOutputMap : List (Bytes × StorePath) :=
  s.realisations p ++ (s.queryStaticPartialDerivationOutputMap p).filter fun output =>
    output.1 ∉ (s.realisations p).map Prod.fst

def queryValidDerivers : List StorePath :=
  (s.derivationOutputs.filter fun row => row.path = p && s.isValidPath row.drv).map OutputRow.drv

def invalidatePath : Tables :=
  { s with infos := s.infos.filter (·.path ≠ p) }

/-- The references of a valid path, and none of an invalid one. -/
def referencesOf : List StorePath :=
  match s.queryPathInfo p with
  | some info => info.references
  | none => []

end Tables

inductive GCAction
  | gcReturnLive
  | gcReturnDead
  | gcDeleteDead
  | gcDeleteSpecific
  deriving DecidableEq

inductive PathsToDelete
  | wholeStore
  | specificPaths (paths : List StorePath) (deleteReferrers : Bool)

structure GCOptions where
  action : GCAction
  pathsToDelete : PathsToDelete
  maxFreed : Nat

/-- An entry of the store directory. The name of `other` is not one of a store path; it
frees some bytes, unless it is a temporary directory that somebody has locked. -/
inductive DirEntry
  | path (p : StorePath)
  | other (name : Bytes) (size : Option Nat)
  deriving DecidableEq

/-- What a run does not change. The roots are the permanent and the temporary ones that
were found before it deletes anything. -/
structure Config where
  options : GCOptions
  keepOutputs : Bool
  keepDerivations : Bool
  roots : List StorePath
  size : StorePath → Nat

namespace Config

variable (cfg : Config)

def shouldDelete : Bool :=
  cfg.options.action = .gcDeleteDead || cfg.options.action = .gcDeleteSpecific

def includeOutputs : Bool :=
  match cfg.options.pathsToDelete with
  | .wholeStore => cfg.keepOutputs
  | .specificPaths _ _ => false

def includeDerivers : Bool :=
  match cfg.options.pathsToDelete with
  | .wholeStore => cfg.keepDerivations
  | .specificPaths _ _ => false

/-- A path that is not one of the specified paths. -/
def isExcluded (p : StorePath) : Bool :=
  match cfg.options.pathsToDelete with
  | .wholeStore => false
  | .specificPaths paths deleteReferrers => !deleteReferrers && p ∉ paths

/-- `queryDeps` of `computeFSClosure`, which throws for a path that is not valid. -/
def queryDeps (s : Tables) (p : StorePath) : Option (List StorePath) :=
  (s.queryPathInfo p).map fun info =>
    info.references.filter (· ≠ p) ++
    (if cfg.includeOutputs && p.isDerivation then
      ((s.queryPartialDerivationOutputMap p).map Prod.snd).filter s.isValidPath
    else []) ++
    (if cfg.includeDerivers then info.deriver.toList.filter s.isValidPath else [])

/-- `computeClosure`, which visits every path once. -/
def computeClosure (s : Tables) : Nat → Worklist StorePath → Option (List StorePath)
  | _, ⟨visited, []⟩ => some visited
  | 0, _ => none
  | fuel + 1, ⟨visited, p :: todo⟩ =>
      (cfg.queryDeps s p).bind fun deps =>
        computeClosure s fuel (Worklist.enqueueAll ⟨visited, todo⟩ deps)

def computeFSClosure (s : Tables) (p : StorePath) : Option (List StorePath) :=
  cfg.computeClosure s (s.infos.length + 1) ⟨[p], [p]⟩

/-- The paths that `maybeDeleteReferrersClosure` visits after a valid path, apart from its
referrers. -/
def keepers (s : Tables) (p : StorePath) : List StorePath :=
  (if cfg.includeDerivers && p.isDerivation then
    ((s.queryPartialDerivationOutputMap p).map Prod.snd).filter fun o =>
      ((s.queryPathInfo o).any fun info => info.deriver = some p)
  else []) ++
  (if cfg.includeOutputs then s.queryValidDerivers p else [])

end Config

/-- Where the collector is. The last argument has the entries that are still to come. -/
inductive Control
  | starting (entries : List DirEntry)
  | searching (start : StorePath) (search : Worklist StorePath) (entries : List DirEntry)
  | deleting (start : StorePath) (paths : List StorePath) (entries : List DirEntry)
  | removing (p start : StorePath) (paths : List StorePath) (entries : List DirEntry)
  | checking (start : StorePath) (entries : List DirEntry)
  | stopped (result : Except Error Unit)

/-- The locals of `collectGarbage`, with the hash parts that the root server has received
and acknowledged. -/
structure State where
  store : Tables
  control : Control
  alive : List StorePath := []
  dead : List StorePath := []
  referrersCache : List (StorePath × List StorePath) := []
  tempRoots : List Bytes := []
  pending : Option Bytes := none
  received : List Bytes := []
  acknowledged : List Bytes := []
  deleted : List StorePath := []
  deletedOther : List Bytes := []
  bytesFreed : Nat := 0

section Run

variable (cfg : Config)

/-- The closure is left out if some path in it is not valid. -/
def markAlive (p : StorePath) (s : State) : State :=
  { s with alive := p :: (cfg.computeFSClosure s.store p).getD [] ++ s.alive }

def cachedReferrers (p : StorePath) (s : State) : List StorePath × State :=
  match select Prod.fst s.referrersCache p with
  | some entry => (entry.2, s)
  | none =>
      let referrers := s.store.queryReferrers p
      (referrers, { s with referrersCache := (p, referrers) :: s.referrersCache })

def bailOut (start : StorePath) (entries : List DirEntry) (s : State) : State :=
  { s with pending := none, control := .checking start entries }

def topoSortPaths (s : Tables) (paths : List StorePath) : Except Error (List StorePath) :=
  match topoSort paths s.referencesOf with
  | .ok (.inl sorted) => .ok sorted
  | .ok (.inr _) => .error ⟨.buildError, ⟨"cycle detected in the references of '%s' from '%s'", []⟩⟩
  | .error e => .error e

/-- One round of the loop over `todo`. -/
def visit (start p : StorePath) (search : Worklist StorePath) (entries : List DirEntry)
    (s : State) : State :=
  if p ∈ s.alive then bailOut start entries { s with alive := start :: s.alive }
  else if p ∈ s.dead then { s with control := .searching start search entries }
  else if p ∈ cfg.roots then
    bailOut start entries (markAlive cfg p { s with alive := start :: s.alive })
  else if cfg.isExcluded p then bailOut start entries s
  else if p.hashPart ∈ s.tempRoots then
    bailOut start entries (markAlive cfg p { s with alive := start :: s.alive })
  else
    let s := { s with pending := some p.hashPart }
    if s.store.isValidPath p then
      let (referrers, s) := cachedReferrers p s
      { s with
        control := .searching start
          (search.enqueueAll (referrers ++ cfg.keepers s.store p)) entries }
    else { s with control := .searching start search entries }

/-- The check of one path of the sorted closure, under the lock. -/
def checkDelete (start p : StorePath) (paths : List StorePath) (entries : List DirEntry)
    (s : State) : State :=
  if p ∈ s.dead then { s with control := .deleting start paths entries }
  else
    let s := { s with dead := p :: s.dead }
    if !cfg.shouldDelete then { s with control := .deleting start paths entries }
    else if p.hashPart ∈ s.tempRoots then
      { markAlive cfg p s with control := .deleting start paths entries }
    else { s with pending := some p.hashPart, control := .removing p start paths entries }

/-- `invalidatePathChecked` and `deleteFromStore`. A path that is in use stays, with a
message. -/
def remove (start p : StorePath) (paths : List StorePath) (entries : List DirEntry)
    (s : State) : State :=
  if s.store.isValidPath p && (s.store.queryReferrers p).any (· ≠ p) then
    { s with pending := none, control := .deleting start paths entries }
  else
    let s := { s with
      store := s.store.invalidatePath p
      deleted := p :: s.deleted
      bytesFreed := s.bytesFreed + cfg.size p
      pending := none }
    if s.bytesFreed > cfg.options.maxFreed then { s with control := .stopped (.ok ()) }
    else
      { s with
        referrersCache := s.referrersCache.filter (·.1 ≠ p)
        control := .deleting start paths entries }

/-- An entry that is no store path is deleted, whatever the action is. -/
def deleteOther (name : Bytes) (size : Option Nat) (entries : List DirEntry) (s : State) : State :=
  match size with
  | none => { s with control := .starting entries }
  | some n =>
      let s := { s with deletedOther := name :: s.deletedOther, bytesFreed := s.bytesFreed + n }
      if s.bytesFreed > cfg.options.maxFreed then { s with control := .stopped (.ok ()) }
      else { s with control := .starting entries }

def stillAlive : Error :=
  ⟨.error, ⟨"Cannot delete path '%1%' since it is still alive. To find out why, use: nix-store --query --roots and nix-store --query --referrers", []⟩⟩

/-- The test after a search, which `gcDeleteSpecific` makes. -/
def checkDead (start : StorePath) (entries : List DirEntry) (s : State) : State :=
  match cfg.options.action, cfg.options.pathsToDelete with
  | .gcDeleteSpecific, .specificPaths _ _ =>
      if start ∈ s.dead then { s with control := .starting entries }
      else { s with control := .stopped (.error stillAlive) }
  | _, _ => { s with control := .starting entries }

/-- The collector goes on, up to the next moment at which it shares something. -/
def advance (s : State) : Option State :=
  match s.control with
  | .starting [] => some { s with control := .stopped (.ok ()) }
  | .starting (.path p :: entries) =>
      some { s with control := .searching p ⟨[p], [p]⟩ entries }
  | .starting (.other name size :: entries) => some (deleteOther cfg name size entries s)
  | .searching start ⟨visited, []⟩ entries =>
      match topoSortPaths s.store visited with
      | .ok sorted => some { s with control := .deleting start sorted entries }
      | .error e => some { s with pending := none, control := .stopped (.error e) }
  | .searching start ⟨visited, p :: todo⟩ entries =>
      some (visit cfg start p ⟨visited, todo⟩ entries s)
  | .deleting start [] entries =>
      some { s with pending := none, control := .checking start entries }
  | .deleting start (p :: paths) entries => some (checkDelete cfg start p paths entries s)
  | .removing p start paths entries => some (remove cfg start p paths entries s)
  | .checking start entries => some (checkDead cfg start entries s)
  | .stopped _ => none

/-- The thread of the root server may run between any two steps of the collector. -/
inductive Event
  | collector
  | receive (hashPart : Bytes)
  | acknowledge (hashPart : Bytes)

def step (s : State) : Event → Option State
  | .collector => advance cfg s
  | .receive hashPart =>
      some { s with tempRoots := hashPart :: s.tempRoots, received := hashPart :: s.received }
  | .acknowledge hashPart =>
      if hashPart ∈ s.received ∧ s.pending ≠ some hashPart then
        some { s with acknowledged := hashPart :: s.acknowledged }
      else none

/-- The loop over the specified paths, or over the entries of the store directory. -/
def entriesOf (dir : List DirEntry) : Control :=
  match cfg.options.pathsToDelete with
  | .specificPaths paths _ => .starting (paths.map .path)
  | .wholeStore =>
      if cfg.options.maxFreed = 0 then .stopped (.ok ())
      else if cfg.options.action = .gcDeleteSpecific then
        .stopped (.error ⟨.error, ⟨"Cannot delete the entire store", []⟩⟩)
      else .starting dir

def start (store : Tables) (dir : List DirEntry) (tempRoots : List Bytes) : State where
  store
  control := entriesOf cfg dir
  tempRoots

end Run

end Nix.Store.GarbageCollector
