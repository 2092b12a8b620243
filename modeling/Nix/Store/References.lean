import Mathlib.Data.Finset.Basic
import Nix.Util.BaseN
import Nix.Util.Rewrite

set_option linter.dupNamespace false

namespace Nix.Store.References

open Util.Types
open Nix.Util.BaseN.BaseNix32 (lookupReverse)
open Util.Rewrite Lib.SortedList

/-- `StorePath::HashLen`. -/
def refLength : Nat := 32

/-- What `search` may change. -/
structure RefSets where
  hashes : Finset Bytes
  seen : Finset Bytes := ∅

/-- The inner loop of `search`: the last of the positions `i`, ..., `i + n - 1`
at which `s` has no base-32 character, relative to `i`. -/
def lastInvalid (s : Bytes) (i : Nat) : Nat → Option Nat
  | 0 => none
  | j + 1 => if lookupReverse (s.getD (i + j) 0) = none then some j else lastInvalid s i j

/-- The outer loop of `search`, from position `i`. Every round moves `i` on. -/
def searchLoop (s : Bytes) : Nat → Nat → RefSets → Except Error RefSets
  | 0, _, _ => .error .diverges
  | fuel + 1, i, sets =>
      if i + refLength ≤ s.length then
        match lastInvalid s i refLength with
        | some j => searchLoop s fuel (i + j + 1) sets
        | none =>
            let ref := (s.drop i).take refLength
            if ref ∈ sets.hashes then
              searchLoop s fuel (i + 1) ⟨sets.hashes.erase ref, insert ref sets.seen⟩
            else searchLoop s fuel (i + 1) sets
      else .ok sets

def search (s : Bytes) (sets : RefSets) : Except Error RefSets :=
  searchLoop s (s.length + 1) 0 sets

structure RefScanSink where
  sets : RefSets
  tail : Bytes := []

namespace RefScanSink

def write (sink : RefScanSink) (data : Bytes) : Except Error RefScanSink := do
  let tailLen := min data.length refLength
  let sets ← search (sink.tail ++ data.take tailLen) sink.sets
  let sets ← search data sets
  let rest := refLength - tailLen
  let tail :=
    if rest < sink.tail.length then sink.tail.drop (sink.tail.length - rest) else sink.tail
  return ⟨sets, tail ++ data.drop (data.length - tailLen)⟩

def getResult (sink : RefScanSink) : Finset Bytes :=
  sink.sets.seen

def scanFragments (hashes : Finset Bytes) (fragments : List Bytes) :
    Except Error (Finset Bytes) := do
  let sink ← fragments.foldlM write ⟨⟨hashes, ∅⟩, []⟩
  return sink.getResult

end RefScanSink

/-- `written` is what `nextSink` has received. -/
structure RewritingSink where
  rewrites : List (Bytes × Bytes)
  maxRewriteSize : Nat
  prev : Bytes := []
  pos : Nat := 0
  matchSet : List Nat := []
  written : Bytes := []

namespace RewritingSink

def make (rewrites : List (Bytes × Bytes)) : Except Error RewritingSink := do
  let maxRewriteSize ← rewrites.foldlM
    (fun maxRewriteSize r =>
      if r.1.length = r.2.length then .ok (max maxRewriteSize r.1.length)
      else .error (.assertion "from.size() == to.size()"))
    0
  return { rewrites, maxRewriteSize }

/-- The part of a rewritten text that may be part of a later match. -/
def newPrev (maxRewriteSize : Nat) (s : Bytes) : Bytes :=
  if s.length < maxRewriteSize then s
  else if maxRewriteSize = 0 then []
  else (s.drop (s.length - maxRewriteSize + 1)).take (maxRewriteSize - 1)

def write (sink : RewritingSink) (data : Bytes) : Except Error RewritingSink := do
  let (s, matchSet) ←
    rewriteStrings (sink.prev ++ data) sink.rewrites sink.matchSet sink.pos
  let prev := newPrev sink.maxRewriteSize s
  let consumed := s.length - prev.length
  return { sink with
    prev
    matchSet
    pos := sink.pos + consumed
    written := if consumed ≠ 0 then sink.written ++ s.take consumed else sink.written }

def flush (sink : RewritingSink) : RewritingSink :=
  if sink.prev = [] then sink
  else { sink with
    pos := sink.pos + sink.prev.length
    written := sink.written ++ sink.prev
    prev := [] }

end RewritingSink

/-- `HashResult`, with the bytes that reach the hash function instead of their
hash. -/
structure Digest where
  digested : Bytes
  numBytesDigested : Nat
  deriving DecidableEq

/-- `fmt("|%d", pos)` for every match. -/
def formatMatches (matchSet : List Nat) : Bytes :=
  matchSet.flatMap fun pos => str "|" ++ decimal pos

namespace HashModuloSink

def make (modulus : Bytes) : Except Error RewritingSink :=
  RewritingSink.make [(modulus, List.replicate modulus.length 0)]

def finish (sink : RewritingSink) : Digest :=
  let sink := sink.flush
  ⟨sink.written ++ formatMatches sink.matchSet, sink.pos⟩

/-- What `HashModuloSink` digests of a stream that arrives in fragments. -/
def digest (modulus : Bytes) (fragments : List Bytes) : Except Error Digest := do
  let sink ← make modulus
  let sink ← fragments.foldlM RewritingSink.write sink
  return finish sink

end HashModuloSink

end Nix.Store.References
