import Mathlib.Tactic
import Nix.Lib.SortedList
import Nix.Util.Types

set_option linter.dupNamespace false

namespace Nix.Util.CanonPaths

open Util.Types Lib.SortedList

/-- The separator `/`. -/
def slash : UInt8 := 47

/-- `s.rfind(c)`: the last position of `c`. -/
def rfind (c : UInt8) : Bytes → Option Nat
  | [] => none
  | b :: bs =>
      match rfind c bs with
      | some i => some (i + 1)
      | none => if b = c then some 0 else none

theorem rfind_eq_none {c : UInt8} {s : Bytes} (h : c ∉ s) : rfind c s = none := by
  induction s with
  | nil => rfl
  | cons b s ih =>
      obtain ⟨hb, hs⟩ := not_or.mp (by simpa using h)
      simp [rfind, ih hs, Ne.symm hb]

theorem rfind_append_cons {c : UInt8} (xs : Bytes) {ys : Bytes} (h : c ∉ ys) :
    rfind c (xs ++ c :: ys) = some xs.length := by
  induction xs with
  | nil => simp [rfind, rfind_eq_none h]
  | cons x xs ih => simp [rfind, ih]

/-- The main loop of `canonPathInner<UnixPathTrait>` without a component hook,
on the remaining input and the result so far. Every round removes at least one
byte of the input. -/
def canonPathLoop : Nat → Bytes → Bytes → Bytes
  | 0, _, result => result
  | fuel + 1, remaining, result =>
      let remaining := remaining.dropWhile (· = slash)
      if remaining = [] then result
      else
        let nextComp := remaining.takeWhile (· ≠ slash)
        if nextComp = str "." then
          canonPathLoop fuel (remaining.drop 1) result
        else if nextComp = str ".." then
          canonPathLoop fuel (remaining.drop 2)
            (result.take ((rfind slash result).getD result.length))
        else
          canonPathLoop fuel (remaining.drop nextComp.length)
            (result ++ slash :: nextComp)

def canonPathInner (remaining : Bytes) : Bytes :=
  let result := canonPathLoop (remaining.length + 1) remaining []
  if result = [] then [slash] else result

/-- `class CanonPath`, with the text that `abs()` returns. -/
structure CanonPath where
  path : Bytes
  deriving DecidableEq

/-- A component as the header documents it: not empty, not `.` or `..`, and
without separators and NUL bytes. -/
structure ValidComponent (c : Bytes) : Prop where
  ne_nil : c ≠ []
  ne_dot : c ≠ str "."
  ne_dotdot : c ≠ str ".."
  no_slash : slash ∉ c
  no_nul : (0 : UInt8) ∉ c

def render (cs : List Bytes) : Bytes :=
  if cs = [] then [slash] else cs.flatMap (slash :: ·)

namespace CanonPath

def Canonical (p : CanonPath) : Prop :=
  ∃ cs : List Bytes, (∀ c ∈ cs, ValidComponent c) ∧ p.path = render cs

def root : CanonPath := ⟨[slash]⟩

def isRoot (p : CanonPath) : Bool :=
  p.path.length ≤ 1

/-- `ensureNoNullBytes`. -/
def ensureNoNullBytes (s : Bytes) : Except Error Unit :=
  if (0 : UInt8) ∈ s then
    .error ⟨.badCanonPath, ⟨"path segment '%s' must not contain null (\\0) bytes", [s]⟩⟩
  else .ok ()

def push (p : CanonPath) (c : Bytes) : Except Error CanonPath :=
  if slash ∈ c then .error (.assertion "c.find('/') == c.npos")
  else if c = str "." ∨ c = str ".." then
    .error (.assertion "c != \".\" && c != \"..\"")
  else do
    ensureNoNullBytes c
    return ⟨(if p.isRoot then p.path else p.path ++ [slash]) ++ c⟩

def pop (p : CanonPath) : Except Error CanonPath :=
  if p.isRoot then .error (.assertion "!isRoot()")
  else
    match rfind slash p.path with
    | some i => .ok ⟨p.path.take (max 1 i)⟩
    | none => .error ⟨.error, ⟨"basic_string::resize", []⟩⟩

def isWithin (p parent : CanonPath) : Bool :=
  !(p.path.length < parent.path.length ||
    p.path.take parent.path.length ≠ parent.path ||
    (parent.path.length > 1 && p.path.length > parent.path.length &&
      p.path[parent.path.length]? ≠ some slash))

/-- A byte as the platform's signed `char`, with the separator first. -/
def sortKey (b : UInt8) : Int :=
  if b = slash then 0 else b.toBitVec.toInt

/-- The loop of `operator<=>`. -/
def compareText : Bytes → Bytes → Ordering
  | a :: as, b :: bs =>
      match compare (sortKey a) (sortKey b) with
      | .eq => compareText as bs
      | o => o
  | [], [] => .eq
  | [], _ :: _ => .lt
  | _ :: _, [] => .gt

def cmp (p q : CanonPath) : Ordering :=
  compareText p.path q.path

/-- `std::set<CanonPath>`. -/
structure PathSet where
  elems : List CanonPath
  sorted : StrictlySorted cmp elems

/-- `allowed.lower_bound(p)`. -/
def PathSet.lowerBound (allowed : PathSet) (p : CanonPath) : Option CanonPath :=
  allowed.elems.find? fun a => cmp a p ≠ .lt

/-- `allowed.count(p)`, as a truth value. -/
def PathSet.count (allowed : PathSet) (p : CanonPath) : Bool :=
  allowed.elems.any fun a => cmp a p = .eq

/-- The loop `while (!path.isRoot())` of `isAllowed`. -/
def parentAllowed (allowed : PathSet) : Nat → CanonPath → Except Error Bool
  | 0, _ => .error .diverges
  | fuel + 1, path =>
      if path.isRoot then .ok false
      else do
        let path ← path.pop
        if allowed.count path then return true
        else parentAllowed allowed fuel path

def isAllowed (p : CanonPath) (allowed : PathSet) : Except Error Bool :=
  match allowed.lowerBound p with
  | some lb => if lb.isWithin p then .ok true else parentAllowed allowed p.path.length p
  | none => parentAllowed allowed p.path.length p

end CanonPath

end Nix.Util.CanonPaths
