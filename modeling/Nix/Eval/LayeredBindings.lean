import Mathlib.Data.List.Basic
import Nix.Util.Types

/-!
Attribute sets as layers, one on top of the other, and the update operator.
-/

set_option linter.dupNamespace false

namespace Nix.Eval.LayeredBindings

open Util.Types

/-- The index of a symbol in the table. -/
abbrev Symbol := Nat

/-- The index of a position in the table; 0 is `noPos`. -/
abbrev PosIdx := Nat

structure Attr (V : Type) where
  name : Symbol
  pos : PosIdx
  value : V
  deriving DecidableEq

inductive Bindings (V : Type)
  | mk (attrs : List (Attr V)) (numAttrsInChain numLayers : Nat) (baseLayer : Option (Bindings V))

variable {V : Type}

def maxLayers : Nat := 8

namespace Bindings

def attrs : Bindings V → List (Attr V)
  | mk attrs _ _ _ => attrs

def size : Bindings V → Nat
  | mk _ numAttrsInChain _ _ => numAttrsInChain

def numLayers : Bindings V → Nat
  | mk _ _ numLayers _ => numLayers

def baseLayer : Bindings V → Option (Bindings V)
  | mk _ _ _ baseLayer => baseLayer

def empty (b : Bindings V) : Bool :=
  b.size = 0

def isLayerListFull (b : Bindings V) : Bool :=
  b.numLayers = maxLayers

def emptyBindings : Bindings V :=
  mk [] 0 1 none

def layers : Bindings V → List (List (Attr V))
  | mk attrs _ _ none => [attrs]
  | mk attrs _ _ (some base) => attrs :: layers base

end Bindings

/-- `std::lower_bound`, and the check of what it finds. -/
def getInChunk (chunk : List (Attr V)) (name : Symbol) : Option (Attr V) :=
  match chunk.find? (name ≤ ·.name) with
  | some i => if i.name = name then some i else none
  | none => none

def Bindings.get (name : Symbol) : Bindings V → Option (Attr V)
  | mk attrs _ _ none => getInChunk attrs name
  | mk attrs _ _ (some base) =>
      match getInChunk attrs name with
      | some maybeAttr => some maybeAttr
      | none => base.get name

/-- `current` is what there is from the pointer of this name up to the end. -/
structure BindingsCursor (V : Type) where
  current : List (Attr V)
  priority : Nat

namespace BindingsCursor

def empty (cursor : BindingsCursor V) : Bool :=
  cursor.current.isEmpty

def name (cursor : BindingsCursor V) : Symbol :=
  cursor.current.head?.elim 0 Attr.name

def increment (cursor : BindingsCursor V) : BindingsCursor V :=
  { cursor with current := cursor.current.tail }

def consume (cursor : BindingsCursor V) (name : Symbol) : BindingsCursor V :=
  { cursor with current := cursor.current.dropWhile (·.name ≤ name) }

theorem length_consume_lt {cursor : BindingsCursor V} {name : Symbol} (h : cursor.name ≤ name)
    (hne : (cursor.consume name).empty ≠ true) :
    (cursor.consume name).current.length < cursor.current.length := by
  obtain ⟨current, priority⟩ := cursor
  cases current with
  | nil => exact absurd rfl hne
  | cons a current =>
    have hdrop : (a :: current).dropWhile (·.name ≤ name) = current.dropWhile (·.name ≤ name) :=
      List.dropWhile_cons_of_pos (decide_eq_true h)
    rw [consume, hdrop]
    exact Nat.lt_succ_of_le (List.dropWhile_suffix _).length_le

/-- The order of the heap: by name, then by priority. -/
def before (c d : BindingsCursor V) : Bool :=
  c.name < d.name ∨ c.name = d.name ∧ c.priority ≤ d.priority

end BindingsCursor

/-- The cursors of a heap, in any order. -/
abbrev CursorHeap (V : Type) := List (BindingsCursor V)

namespace CursorHeap

def push (heap : CursorHeap V) (cursor : BindingsCursor V) : CursorHeap V :=
  cursor :: heap

def pop : CursorHeap V → Option (BindingsCursor V × CursorHeap V)
  | [] => none
  | c :: heap =>
      match pop heap with
      | none => some (c, [])
      | some (d, rest) => if c.before d then some (c, d :: rest) else some (d, c :: rest)

def pushUnlessEmpty (heap : CursorHeap V) (cursor : BindingsCursor V) : CursorHeap V :=
  if cursor.empty then heap else heap.push cursor

def weight (heap : CursorHeap V) : Nat :=
  (heap.map fun c => c.current.length + 1).sum

theorem weight_cons (c : BindingsCursor V) (heap : CursorHeap V) :
    weight (c :: heap) = c.current.length + 1 + weight heap := by
  simp [weight]

theorem weight_pop {heap rest : CursorHeap V} {c : BindingsCursor V} (h : heap.pop = some (c, rest)) :
    weight heap = c.current.length + 1 + weight rest := by
  induction heap generalizing c rest with
  | nil => cases h
  | cons d heap ih =>
    rw [pop] at h
    cases hpop : pop heap with
    | none =>
      rw [hpop] at h
      cases h
      cases heap with
      | nil => simp [weight]
      | cons e heap =>
        rw [pop] at hpop
        split at hpop
        · cases hpop
        · split at hpop <;> cases hpop
    | some p =>
      obtain ⟨e, others⟩ := p
      rw [hpop] at h
      dsimp only at h
      split at h
      · cases h
        rw [weight_cons, ih hpop, weight_cons]
      · cases h
        rw [weight_cons, ih hpop, weight_cons]
        omega

theorem weight_pushUnlessEmpty (heap : CursorHeap V) (c : BindingsCursor V) :
    weight (heap.pushUnlessEmpty c) ≤ weight heap + c.current.length + 1 := by
  unfold pushUnlessEmpty push
  split
  · omega
  · rw [weight_cons]
    omega

/-- `consumeAllUntilCurrentName`: the first cursor behind `lastHandledName`. -/
def consumeAll (lastHandledName : Symbol) (heap : CursorHeap V) :
    Option (BindingsCursor V × CursorHeap V) :=
  match _h : heap.pop with
  | none => none
  | some (cursor, rest) =>
      if cursor.name ≤ lastHandledName then
        consumeAll lastHandledName (rest.pushUnlessEmpty (cursor.consume lastHandledName))
      else some (cursor, rest)
  termination_by heap.weight
  decreasing_by
    rename_i hle
    rw [weight_pop _h]
    by_cases hempty : (cursor.consume lastHandledName).empty = true
    · rw [pushUnlessEmpty, if_pos hempty]
      omega
    · have hlt := cursor.length_consume_lt hle hempty
      have hpush := weight_pushUnlessEmpty rest (cursor.consume lastHandledName)
      omega

theorem consumeAll_of_pop_none {lastHandledName : Symbol} {heap : CursorHeap V}
    (h : heap.pop = none) : heap.consumeAll lastHandledName = none := by
  rw [consumeAll]
  split
  next => rfl
  next hpop =>
    rw [h] at hpop
    cases hpop

theorem consumeAll_of_pop_some {lastHandledName : Symbol} {heap rest : CursorHeap V}
    {cursor : BindingsCursor V} (h : heap.pop = some (cursor, rest)) :
    heap.consumeAll lastHandledName =
      if cursor.name ≤ lastHandledName then
        (rest.pushUnlessEmpty (cursor.consume lastHandledName)).consumeAll lastHandledName
      else some (cursor, rest) := by
  rw [consumeAll]
  split
  next hpop =>
    rw [h] at hpop
    cases hpop
  next hpop =>
    rw [h] at hpop
    cases hpop
    rfl

end CursorHeap

/-- `current` is what there is from the pointer of this name on; nothing, if it is null. -/
structure Iterator (V : Type) where
  cursorHeap : CursorHeap V := []
  current : List (Attr V) := []
  doMerge : Bool := true

namespace Iterator

def finished (it : Iterator V) : Iterator V :=
  { it with current := [] }

def next (it : Iterator V) (cursor : BindingsCursor V) (heap : CursorHeap V) : Iterator V :=
  { it with
    cursorHeap := heap.pushUnlessEmpty cursor.increment
    current := cursor.current }

/-- `operator++`. -/
def increment (it : Iterator V) : Iterator V :=
  if it.doMerge then
    match it.cursorHeap.consumeAll (it.current.head?.elim 0 Attr.name) with
    | none => { it with cursorHeap := [] }.finished
    | some (cursor, rest) => it.next cursor rest
  else if it.current.tail = [] then it.finished
  else { it with current := it.current.tail }

def weight (it : Iterator V) : Nat :=
  if it.doMerge then it.cursorHeap.weight + min 1 it.current.length else it.current.length

end Iterator

theorem CursorHeap.weight_consumeAll {lastHandledName : Symbol} {heap rest : CursorHeap V}
    {cursor : BindingsCursor V} (h : heap.consumeAll lastHandledName = some (cursor, rest)) :
    rest.weight + cursor.current.length + 1 ≤ heap.weight := by
  induction heap using consumeAll.induct lastHandledName with
  | case1 heap hpop =>
    rw [consumeAll_of_pop_none hpop] at h
    cases h
  | case2 heap c others hpop hle ih =>
    rw [consumeAll_of_pop_some hpop, if_pos hle] at h
    have hbound := ih h
    have hpush := weight_pushUnlessEmpty others (c.consume lastHandledName)
    have hlen : (c.consume lastHandledName).current.length ≤ c.current.length :=
      (List.dropWhile_suffix _).length_le
    rw [weight_pop hpop]
    omega
  | case3 heap c others hpop hlt =>
    rw [consumeAll_of_pop_some hpop, if_neg hlt] at h
    cases h
    rw [weight_pop hpop]
    omega

theorem Iterator.weight_increment {it : Iterator V} (h : it.current ≠ []) :
    it.increment.weight < it.weight := by
  have hlen := List.length_pos_of_ne_nil h
  unfold increment
  split
  next hmerge =>
    split
    next hnone =>
      simp only [weight, finished, hmerge, if_true, CursorHeap.weight, List.map_nil, List.sum_nil,
        List.length_nil]
      omega
    next cursor rest hsome =>
      have hbound := CursorHeap.weight_consumeAll hsome
      have hpush := CursorHeap.weight_pushUnlessEmpty rest cursor.increment
      have htail : cursor.increment.current.length = cursor.current.length - 1 :=
        List.length_tail
      simp only [weight, next, hmerge, if_true]
      omega
  next hmerge =>
    split
    · simp only [weight, finished, hmerge, if_false, List.length_nil, Bool.false_eq_true]
      omega
    · simp only [weight, hmerge, if_false, List.length_tail, Bool.false_eq_true]
      omega

/-- What a loop from the iterator to the end comes to. -/
def Iterator.collect (it : Iterator V) : List (Attr V) :=
  match _h : it.current with
  | [] => []
  | attr :: _ => attr :: it.increment.collect
  termination_by it.weight
  decreasing_by exact weight_increment (by rw [_h]; exact List.cons_ne_nil _ _)

namespace Bindings

/-- The cursors of the layers that are not empty, `priority` that of the first. -/
def cursors : List (List (Attr V)) → Nat → CursorHeap V
  | [], _ => []
  | layer :: layers, priority =>
      if layer = [] then cursors layers priority
      else (cursors layers (priority + 1)).push ⟨layer, priority⟩

/-- `begin()`. -/
def start (b : Bindings V) : Iterator V :=
  match b.baseLayer with
  | none =>
      if b.empty then { doMerge := false }
      else { cursorHeap := [⟨b.attrs, 0⟩], current := b.attrs, doMerge := false }
  | some _ =>
      match (cursors b.layers 0).pop with
      | none => {}
      | some (cursor, rest) => ({} : Iterator V).next cursor rest

def toList (b : Bindings V) : List (Attr V) :=
  b.start.collect

end Bindings

structure BindingsBuilder (V : Type) where
  attrs : List (Attr V) := []
  numLayers : Nat := 1
  baseLayer : Option (Bindings V) := none
  capacity : Nat

/-- `std::set_intersection` of two sorted ranges, from the first one. -/
def setIntersection : List (Attr V) → List (Attr V) → List (Attr V)
  | [], _ => []
  | _ :: _, [] => []
  | a :: as, b :: bs =>
      if a.name < b.name then setIntersection as (b :: bs)
      else if b.name < a.name then setIntersection (a :: as) bs
      else a :: setIntersection as bs

namespace BindingsBuilder

def pushBack (builder : BindingsBuilder V) (attr : Attr V) : Except Error (BindingsBuilder V) :=
  if builder.attrs.length < builder.capacity then
    .ok { builder with attrs := builder.attrs ++ [attr] }
  else .error (.assertion "bindings->numAttrs < capacity_")

def layerOnTopOf (builder : BindingsBuilder V) (base : Bindings V) : BindingsBuilder V :=
  { builder with baseLayer := some base, numLayers := base.numLayers + 1 }

/-- `numAttrsInChain`, after `finishSizeIfNecessary`. -/
def finishSize (builder : BindingsBuilder V) : Nat :=
  match builder.baseLayer with
  | none => builder.attrs.length
  | some base =>
      let duplicates :=
        if builder.attrs.length > base.size then
          (setIntersection base.toList builder.attrs).length
        else builder.attrs.countP fun attr => (base.get attr.name).isSome
      base.size + builder.attrs.length - duplicates

def alreadySorted (builder : BindingsBuilder V) : Bindings V :=
  .mk builder.attrs builder.finishSize builder.numLayers builder.baseLayer

end BindingsBuilder

/-- The loops that merge two sets, with the attributes that are inserted. -/
def mergeAttrs : List (Attr V) → List (Attr V) → List (Attr V)
  | [], js => js
  | i :: is, [] => i :: is
  | i :: is, j :: js =>
      if i.name = j.name then j :: mergeAttrs is js
      else if i.name < j.name then i :: mergeAttrs is (j :: js)
      else j :: mergeAttrs (i :: is) js

/-- `ExprOpUpdate::eval` of two values. -/
def opUpdate (layerRhsSizeThreshold : Nat) (bindings₁ bindings₂ : Bindings V) :
    Except Error (Bindings V) :=
  if bindings₁.empty then .ok bindings₂
  else if bindings₂.empty then .ok bindings₁
  else if ¬ bindings₁.isLayerListFull ∧ bindings₂.size ≤ layerRhsSizeThreshold then do
    let attrs : BindingsBuilder V := { capacity := bindings₂.size }
    let attrs ← bindings₂.toList.foldlM BindingsBuilder.pushBack (attrs.layerOnTopOf bindings₁)
    return attrs.alreadySorted
  else do
    let attrs : BindingsBuilder V := { capacity := bindings₁.size + bindings₂.size }
    let attrs ← (mergeAttrs bindings₁.toList bindings₂.toList).foldlM BindingsBuilder.pushBack attrs
    return attrs.alreadySorted

/-- Expressions for attribute sets. -/
inductive Expr (V : Type)
  /-- A set that a builder has sorted. -/
  | attrs (chunk : List (Attr V)) (sorted : chunk.Pairwise (·.name < ·.name))
  | opUpdate (e₁ e₂ : Expr V)
  /-- An expression of another kind with the value of `e`, such as a variable. -/
  | other (e : Expr V)

namespace Expr

variable (layerRhsSizeThreshold : Nat)

mutual

def eval : Expr V → Except Error (Bindings V)
  | .attrs chunk _ =>
      .ok (BindingsBuilder.alreadySorted { attrs := chunk, capacity := chunk.length })
  | opUpdate e₁ e₂ => do
      -- the queue of the whole operator, the rightmost set first
      let q₂ ← evalForUpdate e₂
      let q₁ ← evalForUpdate e₁
      (q₂ ++ q₁).reverse.foldlM (LayeredBindings.opUpdate layerRhsSizeThreshold) .emptyBindings
  | other e => eval e

def evalForUpdate : Expr V → Except Error (List (Bindings V))
  | .attrs chunk _ =>
      .ok [BindingsBuilder.alreadySorted { attrs := chunk, capacity := chunk.length }]
  | opUpdate e₁ e₂ => do
      let q₂ ← evalForUpdate e₂
      let q₁ ← evalForUpdate e₁
      return q₂ ++ q₁
  | other e => do
      let v ← eval e
      return [v]

end

/-- The set that an expression stands for: the rightmost definition of a name counts. -/
def denote : Expr V → Symbol → Option (Attr V)
  | .attrs chunk _, name => chunk.find? (·.name = name)
  | opUpdate e₁ e₂, name => (denote e₂ name).or (denote e₁ name)
  | other e, name => denote e name

end Expr

end Nix.Eval.LayeredBindings
