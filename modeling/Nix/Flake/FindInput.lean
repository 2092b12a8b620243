import Mathlib.Data.List.Nodup
import Nix.Flake.LockFiles
import Nix.Lib.SortedMaps
import Nix.Util.Strings

set_option linter.dupNamespace false

namespace Nix.Flake.LockFiles

open Util.Types Util.Strings Lib.SortedList Lib.Table

def printInputAttrPath (path : InputAttrPath) : Bytes :=
  concatStringsSep 47 path

def followCycle (cycle : List InputAttrPath) : Error :=
  ⟨.error, ⟨"follow cycle detected: [%s]",
    [(str " -> ").intercalate (cycle.map printInputAttrPath)]⟩⟩

variable {ι : Type}

section Find

variable [DecidableEq ι]

/-- The loop over the elements of a path. A node is the root or a locked node, and the result is
null or a node, with the paths visited so far. -/
def LockFile.findLoop (lf : LockFile ι)
    (doFind : InputAttrPath → List InputAttrPath →
      Except Error (Option (Option ι) × List InputAttrPath)) :
    InputAttrPath → Option ι → List InputAttrPath →
      Except Error (Option (Option ι) × List InputAttrPath)
  | [], pos, visited => .ok (some pos, visited)
  | elem :: path, pos, visited =>
      match lf.inputsOf pos with
      | none => .error dangling
      | some inputs =>
          match inputs.find? elem with
          | none => .ok (none, visited)
          | some (.node child) => lf.findLoop doFind path (some child) visited
          | some (.follows follows) =>
              match doFind follows visited with
              | .error e => .error e
              | .ok (none, visited) => .ok (none, visited)
              | .ok (some p, visited) => lf.findLoop doFind path p visited

def LockFile.doFind (lf : LockFile ι) :
    Nat → InputAttrPath → List InputAttrPath →
      Except Error (Option (Option ι) × List InputAttrPath)
  | 0, _, _ => .error .diverges
  | fuel + 1, path, visited =>
      if path ∈ visited then
        .error (followCycle (visited.drop (visited.idxOf path) ++ [path]))
      else lf.findLoop (lf.doFind fuel) path none (visited ++ [path])

variable (lf : LockFile ι)

def LockFile.followed : List InputAttrPath :=
  (lf.root.elems ++ lf.nodes.flatMap fun e => e.2.inputs.elems).filterMap fun e =>
    match e.2 with
    | .node _ => none
    | .follows path => some path

/-- Every path is visited at most once, so that the calls are nested at most this deep. -/
def LockFile.findInput (path : InputAttrPath) : Except Error (Option (Option ι)) :=
  (lf.doFind (lf.followed.length + 2) path []).map Prod.fst

def LockFile.input (pos : Option ι) (elem : FlakeId) : Option (Edge ι) :=
  (lf.inputsOf pos).bind fun inputs => inputs.find? elem

/-- From the node `pos` the path leads to a node, or to null where an input is missing; every
input that follows a path stands for what this path leads to from the root. The list has the
paths that are followed, in order. -/
inductive LockFile.Leads :
    Option ι → InputAttrPath → List InputAttrPath → Option (Option ι) → Prop
  | here (pos : Option ι) : LockFile.Leads pos [] [] (some pos)
  | missing {pos : Option ι} {elem : FlakeId} (path : InputAttrPath) :
      lf.input pos elem = none → LockFile.Leads pos (elem :: path) [] none
  | node {pos : Option ι} {elem : FlakeId} {path : InputAttrPath} {child : ι}
      {trace : List InputAttrPath} {r : Option (Option ι)} :
      lf.input pos elem = some (.node child) → LockFile.Leads (some child) path trace r →
      LockFile.Leads pos (elem :: path) trace r
  | follows {pos : Option ι} {elem : FlakeId} {path follows : InputAttrPath} {p : Option ι}
      {trace trace' : List InputAttrPath} {r : Option (Option ι)} :
      lf.input pos elem = some (.follows follows) → LockFile.Leads none follows trace (some p) →
      LockFile.Leads p path trace' r →
      LockFile.Leads pos (elem :: path) (follows :: trace ++ trace') r
  | followsMissing {pos : Option ι} {elem : FlakeId} (path : InputAttrPath)
      {follows : InputAttrPath} {trace : List InputAttrPath} :
      lf.input pos elem = some (.follows follows) → LockFile.Leads none follows trace none →
      LockFile.Leads pos (elem :: path) (follows :: trace) none

/-- To resolve `path` is to resolve `follows` on the way: the path leads to an input that follows
it. -/
def LockFile.MustFollow (path follows : InputAttrPath) : Prop :=
  ∃ path₁ elem path₂ trace pos, path = path₁ ++ elem :: path₂ ∧
    lf.Leads none path₁ trace (some pos) ∧ lf.input pos elem = some (.follows follows)

def LockFile.Endless (path : InputAttrPath) : Prop :=
  ∃ chain : Nat → InputAttrPath, chain 0 = path ∧ ∀ n, lf.MustFollow (chain n) (chain (n + 1))

/-- `findInput` is right about `path`. -/
structure LockFile.FindsRightly (path : InputAttrPath) : Prop where
  terminates : lf.findInput path ≠ .error .diverges
  cycle : (∃ cycle, lf.findInput path = .error (followCycle cycle)) ↔ lf.Endless path
  missing : lf.findInput path = .ok none ↔ ∃ trace, lf.Leads none path trace none
  found : ∀ node, lf.findInput path = .ok (some node) ↔
    ∃ trace, lf.Leads none path trace (some node)

/-- No path is followed twice while `path` is resolved, and `path` itself is not followed. -/
def LockFile.FollowsOnce (path : InputAttrPath) : Prop :=
  ∀ trace r, lf.Leads none path trace r → (path :: trace).Nodup

end Find

variable [DecidableEq ι] {lf : LockFile ι}

theorem LockFile.Leads.of_missing {pos : Option ι} {elem : FlakeId} {path : InputAttrPath}
    {trace : List InputAttrPath} {r : Option (Option ι)}
    (h : lf.Leads pos (elem :: path) trace r) (hi : lf.input pos elem = none) :
    trace = [] ∧ r = none := by
  cases h with
  | missing => exact ⟨rfl, rfl⟩
  | node hi' | follows hi' | followsMissing _ hi' => simp [hi] at hi'

theorem LockFile.Leads.of_node {pos : Option ι} {elem : FlakeId} {path : InputAttrPath}
    {trace : List InputAttrPath} {r : Option (Option ι)} {child : ι}
    (h : lf.Leads pos (elem :: path) trace r) (hi : lf.input pos elem = some (.node child)) :
    lf.Leads (some child) path trace r := by
  cases h with
  | node hi' hrest =>
    rw [hi] at hi'
    cases hi'
    exact hrest
  | missing _ hi' | follows hi' | followsMissing _ hi' => simp [hi] at hi'

theorem LockFile.Leads.of_follows {pos : Option ι} {elem : FlakeId} {path follows : InputAttrPath}
    {trace : List InputAttrPath} {r : Option (Option ι)}
    (h : lf.Leads pos (elem :: path) trace r) (hi : lf.input pos elem = some (.follows follows)) :
    ∃ trace₁ r₁, lf.Leads none follows trace₁ r₁ ∧
      ((r₁ = none ∧ trace = follows :: trace₁ ∧ r = none) ∨
        ∃ p trace₂, r₁ = some p ∧ lf.Leads p path trace₂ r ∧
          trace = follows :: trace₁ ++ trace₂) := by
  cases h with
  | follows hi' hfollows hrest =>
    rw [hi] at hi'
    cases hi'
    exact ⟨_, _, hfollows, Or.inr ⟨_, _, rfl, hrest, rfl⟩⟩
  | followsMissing _ hi' hfollows =>
    rw [hi] at hi'
    cases hi'
    exact ⟨_, _, hfollows, Or.inl ⟨rfl, rfl, rfl⟩⟩
  | missing _ hi' | node hi' => simp [hi] at hi'

theorem LockFile.Leads.unique {pos : Option ι} {path : InputAttrPath}
    {trace trace' : List InputAttrPath} {r r' : Option (Option ι)}
    (h : lf.Leads pos path trace r) (h' : lf.Leads pos path trace' r') :
    trace = trace' ∧ r = r' := by
  induction h generalizing trace' r' with
  | here pos =>
    cases h'
    exact ⟨rfl, rfl⟩
  | missing path hi =>
    obtain ⟨rfl, rfl⟩ := h'.of_missing hi
    exact ⟨rfl, rfl⟩
  | node hi _ ih => exact ih (h'.of_node hi)
  | follows hi _ _ ih ih' =>
    obtain ⟨trace₁, r₁, hfollows, ⟨rfl, -, -⟩ | ⟨p, trace₂, rfl, hrest, rfl⟩⟩ := h'.of_follows hi
    · cases (ih hfollows).2
    · obtain ⟨rfl, hp⟩ := ih hfollows
      cases hp
      obtain ⟨rfl, rfl⟩ := ih' hrest
      exact ⟨rfl, rfl⟩
  | followsMissing path hi _ ih =>
    obtain ⟨trace₁, r₁, hfollows, ⟨rfl, rfl, rfl⟩ | ⟨p, trace₂, rfl, -, -⟩⟩ := h'.of_follows hi
    · exact ⟨congrArg _ (ih hfollows).1, rfl⟩
    · cases (ih hfollows).2

theorem LockFile.Leads.append {pos q : Option ι} {path path' : InputAttrPath}
    {trace trace' : List InputAttrPath} {r : Option (Option ι)}
    (h : lf.Leads pos path trace (some q)) (h' : lf.Leads q path' trace' r) :
    lf.Leads pos (path ++ path') (trace ++ trace') r := by
  generalize hq : some q = q' at h
  induction h with
  | here pos =>
    cases hq
    exact h'
  | missing | followsMissing => cases hq
  | node hi _ ih => exact .node hi (ih hq)
  | follows hi hfollows _ _ ih =>
    have hrest := LockFile.Leads.follows hi hfollows (ih hq)
    rwa [← List.append_assoc] at hrest

theorem LockFile.Leads.rest {pos q : Option ι} {path path' : InputAttrPath}
    {trace trace' : List InputAttrPath} {r : Option (Option ι)}
    (h : lf.Leads pos path trace (some q)) (h' : lf.Leads pos (path ++ path') trace' r) :
    ∃ trace₂, trace' = trace ++ trace₂ ∧ lf.Leads q path' trace₂ r := by
  generalize hq : some q = q' at h
  induction h generalizing trace' with
  | here pos =>
    cases hq
    exact ⟨trace', rfl, h'⟩
  | missing | followsMissing => cases hq
  | node hi _ ih => exact ih (h'.of_node hi) hq
  | follows hi hfollows _ _ ih =>
    obtain ⟨trace₁, r₁, hfollows', hcase⟩ := h'.of_follows hi
    obtain ⟨rfl, rfl⟩ := hfollows.unique hfollows'
    obtain ⟨hnone, -, -⟩ | ⟨p, trace₂, hp, hrest, rfl⟩ := hcase
    · cases hnone
    · cases hp
      obtain ⟨trace₃, rfl, h₃⟩ := ih hrest hq
      exact ⟨trace₃, by rw [List.append_assoc], h₃⟩

theorem LockFile.MustFollow.leads {path follows : InputAttrPath}
    (hf : lf.MustFollow path follows) {trace : List InputAttrPath} {r : Option (Option ι)}
    (h : lf.Leads none path trace r) :
    ∃ trace' r', lf.Leads none follows trace' r' ∧ trace'.length < trace.length := by
  obtain ⟨path₁, elem, path₂, trace₁, pos, rfl, h₁, hi⟩ := hf
  obtain ⟨trace₂, rfl, h₂⟩ := h₁.rest h
  obtain ⟨trace₃, r₃, hfollows, hcase⟩ := h₂.of_follows hi
  refine ⟨trace₃, r₃, hfollows, ?_⟩
  obtain ⟨-, rfl, -⟩ | ⟨p, trace₄, -, -, rfl⟩ := hcase
  · simp only [List.length_append, List.length_cons]
    omega
  · simp only [List.length_append, List.length_cons]
    omega

theorem LockFile.leads_of_mustFollow {path₁ path₂ : InputAttrPath} {pos : Option ι}
    {trace₁ : List InputAttrPath} (h₁ : lf.Leads none path₁ trace₁ (some pos))
    (h : ∀ follows, lf.MustFollow (path₁ ++ path₂) follows →
      ∃ trace r, lf.Leads none follows trace r) :
    ∃ trace r, lf.Leads pos path₂ trace r := by
  induction path₂ generalizing path₁ pos trace₁ with
  | nil => exact ⟨[], _, .here pos⟩
  | cons elem path₂ ih =>
    have hnext : ∀ {q : Option ι} {trace : List InputAttrPath},
        lf.Leads pos [elem] trace (some q) → ∃ trace r, lf.Leads q path₂ trace r :=
      fun hq => ih (h₁.append hq) (by rwa [List.append_assoc])
    cases hi : lf.input pos elem with
    | none => exact ⟨[], none, .missing path₂ hi⟩
    | some edge =>
      cases edge with
      | node child =>
        obtain ⟨trace, r, hrest⟩ := hnext (.node hi (.here (some child)))
        exact ⟨trace, r, .node hi hrest⟩
      | follows follows =>
        obtain ⟨trace, r, hfollows⟩ := h follows ⟨path₁, elem, path₂, trace₁, pos, rfl, h₁, hi⟩
        cases r with
        | none => exact ⟨_, _, .followsMissing path₂ hi hfollows⟩
        | some p =>
          obtain ⟨trace', r, hrest⟩ := hnext (.follows hi hfollows (.here p))
          exact ⟨_, r, .follows hi hfollows hrest⟩

theorem LockFile.endless_iff {path : InputAttrPath} :
    lf.Endless path ↔ ¬∃ trace r, lf.Leads none path trace r := by
  constructor
  · rintro ⟨chain, rfl, hchain⟩ ⟨trace, r, h⟩
    induction hn : trace.length using Nat.strongRecOn generalizing chain trace r with
    | ind n ih =>
      obtain ⟨trace', r', h', hlt⟩ := (hchain 0).leads h
      exact ih trace'.length (by omega) (fun n => chain (n + 1)) (fun n => hchain (n + 1)) trace' r'
        h' rfl
  · intro h
    have hnext : ∀ p : {p // ¬∃ trace r, lf.Leads none p trace r},
        ∃ q : {q // ¬∃ trace r, lf.Leads none q trace r}, lf.MustFollow p.1 q.1 := by
      rintro ⟨p, hp⟩
      by_contra hno
      push Not at hno
      have hstart : lf.Leads none [] [] (some none) := .here none
      refine hp (leads_of_mustFollow hstart fun follows hf => ?_)
      by_contra hfollows
      exact hno ⟨follows, hfollows⟩ hf
    choose next hnext using hnext
    refine ⟨fun n => (next^[n] ⟨path, h⟩).1, rfl, fun n => ?_⟩
    have hstep := hnext (next^[n] ⟨path, h⟩)
    rwa [← Function.iterate_succ_apply' next n] at hstep

end Nix.Flake.LockFiles
