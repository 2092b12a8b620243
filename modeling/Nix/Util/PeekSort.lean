import Mathlib.Data.List.Basic

/-!
The sorting algorithms of `sort.hh`. An iterator is an index, and whatever reads or writes an
element checks that there is one.
-/

set_option linter.dupNamespace false

namespace Nix.Util.PeekSort

inductive Fault
  /-- An iterator outside of its range. -/
  | outOfRange
  /-- A use of an element that was moved from. -/
  | movedFrom
  /-- A source loop that never finishes. -/
  | nonTermination
  deriving DecidableEq, Repr

/-- The elements of a range; `none` is one that was moved from. -/
abbrev Cells (α : Type) := List (Option α)

variable {α : Type}

def deref (cells : Cells α) (it : Nat) : Except Fault α :=
  match cells[it]? with
  | some (some a) => .ok a
  | some none => .error .movedFrom
  | none => .error .outOfRange

def assign (cells : Cells α) (it : Nat) (a : α) : Except Fault (Cells α) :=
  if it < cells.length then .ok (cells.set it (some a)) else .error .outOfRange

/-- `std::move` of one element. -/
def moveOut (cells : Cells α) (it : Nat) : Except Fault (α × Cells α) := do
  let a ← deref cells it
  return (a, cells.set it none)

/-- `std::swap`. -/
def swap (cells : Cells α) (it it' : Nat) : Except Fault (Cells α) := do
  let a ← deref cells it
  let b ← deref cells it'
  let cells ← assign cells it b
  assign cells it' a

/-- `std::next` and `std::prev`, that stay within a range of `length` elements. -/
def next (length it : Nat) : Except Fault Nat :=
  if it < length then .ok (it + 1) else .error .outOfRange

def prev : Nat → Except Fault Nat
  | 0 => .error .outOfRange
  | it + 1 => .ok it

/-- The steps of a loop from `start` that ends at `stop`. It leaves the range if that is before
`start`. -/
def distance (start stop : Nat) : Except Fault Nat :=
  if start ≤ stop then .ok (stop - start) else .error .outOfRange

/-- `std::move` of a range to `out` in another. It returns both, and the end of what was
written. -/
def move (source target : Cells α) (start stop out : Nat) :
    Except Fault (Cells α × Cells α × Nat) := do
  let n ← distance start stop
  if stop ≤ source.length ∧ out + n ≤ target.length then
    return (source.take start ++ List.replicate n none ++ source.drop stop,
      target.take out ++ (source.take stop).drop start ++ target.drop (out + n), out + n)
  else .error .outOfRange

/-- `std::reverse`. -/
def reverse (cells : Cells α) (start stop : Nat) : Except Fault (Cells α) :=
  if start ≤ stop ∧ stop ≤ cells.length then
    .ok (cells.take start ++ ((cells.take stop).drop start).reverse ++ cells.drop stop)
  else .error .outOfRange

variable (comp : α → α → Bool)

/-- The range that is sorted, and the working buffer. -/
structure Memory (α : Type) where
  range : Cells α
  buffer : Cells α

/-- The variables of the loop of `mergeSortedRunsInPlace`. -/
structure MergeState (α : Type) where
  mem : Memory α
  output : Nat
  workingLeft : Nat
  workingRight : Nat

/-- The `while` loop. `fuel` bounds its rounds. -/
def mergeLoop (workingMiddle workingEnd : Nat) : Nat → MergeState α → Except Fault (MergeState α)
  | fuel, st =>
      if st.workingLeft ≠ workingMiddle ∧ st.workingRight ≠ workingEnd then
        match fuel with
        | 0 => .error .nonTermination
        | fuel + 1 => do
            let right ← deref st.mem.buffer st.workingRight
            let left ← deref st.mem.buffer st.workingLeft
            if !comp right left then do
              let (a, buffer) ← moveOut st.mem.buffer st.workingLeft
              let range ← assign st.mem.range st.output a
              mergeLoop workingMiddle workingEnd fuel
                ⟨⟨range, buffer⟩, st.output + 1, st.workingLeft + 1, st.workingRight⟩
            else do
              let (a, buffer) ← moveOut st.mem.buffer st.workingRight
              let range ← assign st.mem.range st.output a
              mergeLoop workingMiddle workingEnd fuel
                ⟨⟨range, buffer⟩, st.output + 1, st.workingLeft, st.workingRight + 1⟩
      else .ok st

/-- The two moves after the loop, both to where the loop has stopped. -/
def moveRest (workingMiddle workingEnd : Nat) (st : MergeState α) : Except Fault (Memory α) := do
  let (buffer, range, _) ←
    move st.mem.buffer st.mem.range st.workingLeft workingMiddle st.output
  let (buffer, range, _) ← move buffer range st.workingRight workingEnd st.output
  return ⟨range, buffer⟩

def mergeSortedRunsInPlace (start middle stop : Nat) (mem : Memory α) :
    Except Fault (Memory α) := do
  let (range, buffer, workingMiddle) ← move mem.range mem.buffer start middle 0
  let (range, buffer, workingEnd) ← move range buffer middle stop workingMiddle
  let st ← mergeLoop comp workingMiddle workingEnd (workingEnd + 1)
    ⟨⟨range, buffer⟩, start, 0, workingMiddle⟩
  moveRest workingMiddle workingEnd st

/-- The inner loop of `insertionsort`, from an insertion point. -/
def insertLoop (start : Nat) : Nat → Cells α → Except Fault (Cells α)
  | 0, cells => if 0 = start then .ok cells else .error .outOfRange
  | insertionPoint + 1, cells =>
      if insertionPoint + 1 = start then .ok cells
      else do
        let a ← deref cells (insertionPoint + 1)
        let b ← deref cells insertionPoint
        if comp a b then do
          let cells ← swap cells (insertionPoint + 1) insertionPoint
          insertLoop start insertionPoint cells
        else .ok cells

/-- The outer loop, with as many rounds as elements are left. -/
def insertionsortLoop (start : Nat) : Nat → Nat → Cells α → Except Fault (Cells α)
  | 0, _, cells => .ok cells
  | n + 1, current, cells => do
      let cells ← insertLoop comp start current cells
      insertionsortLoop start n (current + 1) cells

def insertionsort (start stop : Nat) (cells : Cells α) : Except Fault (Cells α) :=
  if start = stop then .ok cells
  else do
    let current ← next cells.length start
    let n ← distance current stop
    insertionsortLoop comp start n current cells

/-- The loop of `strictlyDecreasingPrefix`, with the elements behind `it`. -/
def prefixLoop (cells : Cells α) : Nat → Nat → Except Fault Nat
  | 0, it => next cells.length it
  | n + 1, it => do
      let a ← deref cells (it + 1)
      let b ← deref cells it
      if comp a b then prefixLoop cells n (it + 1) else next cells.length it

def strictlyDecreasingPrefix (cells : Cells α) (start stop : Nat) : Except Fault Nat :=
  if start = stop then .ok start
  else do
    let n ← distance (start + 1) stop
    prefixLoop comp cells n start

/-- The loop of `strictlyDecreasingSuffix`. -/
def suffixLoop (cells : Cells α) (start : Nat) : Nat → Except Fault Nat
  | 0 => .error .outOfRange
  | it + 1 =>
      if start < it then do
        let a ← deref cells it
        let b ← deref cells (it - 1)
        if comp a b then suffixLoop cells start it else .ok it
      else .ok it

def strictlyDecreasingSuffix (cells : Cells α) (start stop : Nat) : Except Fault Nat :=
  if start = stop then .ok stop else suffixLoop comp cells start stop

/-- `std::not_fn`. -/
def notFn (a b : α) : Bool :=
  !comp a b

def weaklyIncreasingPrefix (cells : Cells α) (start stop : Nat) : Except Fault Nat :=
  strictlyDecreasingPrefix (notFn comp) cells start stop

def weaklyIncreasingSuffix (cells : Cells α) (start stop : Nat) : Except Fault Nat :=
  strictlyDecreasingSuffix (notFn comp) cells start stop

def insertionsortThreshold : Nat := 16

/-- The run around `middle`, which is reversed if it is a decreasing one. -/
def findMiddleRun (range : Cells α) (middle leftRunEnd rightRunBegin : Nat) :
    Except Fault (Cells α × Nat × Nat) := do
  let beforeMiddle ← prev middle
  let a ← deref range middle
  let b ← deref range beforeMiddle
  if !comp a b then do
    let i ← weaklyIncreasingSuffix comp range leftRunEnd middle
    let j ← weaklyIncreasingPrefix comp range beforeMiddle rightRunBegin
    return (range, i, j)
  else do
    let i ← strictlyDecreasingSuffix comp range leftRunEnd middle
    let j ← strictlyDecreasingPrefix comp range beforeMiddle rightRunBegin
    let range ← reverse range i j
    return (range, i, j)

/-- Sorts `[start, stop)`, of which `[start, leftRunEnd)` and `[rightRunBegin, stop)` are sorted.
`fuel` bounds the recursion. -/
def peeksortImpl : Nat → (start stop leftRunEnd rightRunBegin : Nat) → Memory α →
    Except Fault (Memory α)
  | 0, _, _, _, _, _ => .error .nonTermination
  | fuel + 1, start, stop, leftRunEnd, rightRunBegin, mem =>
      if leftRunEnd = stop ∨ rightRunBegin = start then .ok mem
      else do
        let length ← distance start stop
        if length ≤ insertionsortThreshold then do
          let range ← insertionsort comp start stop mem.range
          return { mem with range }
        else
          let middle := start + length / 2
          if middle ≤ leftRunEnd then do
            let afterRun ← next mem.range.length leftRunEnd
            let mem ← peeksortImpl fuel leftRunEnd stop afterRun rightRunBegin mem
            mergeSortedRunsInPlace comp start leftRunEnd stop mem
          else if middle ≥ rightRunBegin then do
            let beforeRun ← prev rightRunBegin
            let mem ← peeksortImpl fuel start rightRunBegin leftRunEnd beforeRun mem
            mergeSortedRunsInPlace comp start rightRunBegin stop mem
          else do
            let (range, i, j) ← findMiddleRun comp mem.range middle leftRunEnd rightRunBegin
            let mem : Memory α := { mem with range }
            if i = start ∧ j = stop then return mem
            else if (middle : Int) - i < (j : Int) - middle then do
              let beforeRun ← prev i
              let mem ← peeksortImpl fuel start i leftRunEnd beforeRun mem
              let mem ← peeksortImpl fuel i stop j rightRunBegin mem
              mergeSortedRunsInPlace comp start i stop mem
            else do
              let mem ← peeksortImpl fuel start j leftRunEnd i mem
              let afterRun ← next mem.range.length j
              let mem ← peeksortImpl fuel j stop afterRun rightRunBegin mem
              mergeSortedRunsInPlace comp start j stop mem

/-- `peeksort` over a whole range. The working buffer has default elements. -/
def peeksort [Inhabited α] (cells : Cells α) : Except Fault (Cells α) :=
  match cells.length with
  | 0 | 1 => .ok cells
  | 2 => do
      let last ← prev 2
      let a ← deref cells last
      let b ← deref cells 0
      if comp a b then swap cells 0 last else .ok cells
  | length => do
      let workingBuffer := List.replicate length (some default)
      let mem ← peeksortImpl comp (length + 1) 0 length 0 length ⟨cells, workingBuffer⟩
      return mem.range

end Nix.Util.PeekSort
