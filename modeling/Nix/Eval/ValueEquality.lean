import Nix.Eval.LayeredBindings
import Nix.Lib.Results
import Nix.Lib.SortedList
import Nix.Util.Types

/-!
How the evaluator compares values, and how it reports what differs.
-/

set_option linter.dupNamespace false

namespace Nix.Eval.ValueEquality

open Util.Types
open Lib.Results (forM_eq_ok)
open Lib.SortedList
open Eval.LayeredBindings (Symbol PosIdx)

/-! ### Values -/

/-- The names of a `Bindings`, in the order of their indices. -/
abbrev Names := SortedSet (compare : Symbol → Symbol → Ordering)

/-- A value that is forced throughout, with the address of each part. Floats are of type `F`. -/
inductive Value (F : Type)
  | int (address : Nat) (n : Int64)
  | float (address : Nat) (x : F)
  | bool (address : Nat) (b : Bool)
  | string (address : Nat) (s : Bytes)
  | path (address : Nat) (accessor : Nat) (path : Bytes)
  | null (address : Nat)
  | list (address : Nat) (size : Nat) (elem : Fin size → Value F)
  | attrs (address : Nat) (names : Names) (pos : Fin names.elems.length → PosIdx)
      (value : Fin names.elems.length → Value F)
  | function (address : Nat)

variable {F : Type}

def Value.address : Value F → Nat
  | int address _ => address
  | float address _ => address
  | bool address _ => address
  | string address _ => address
  | path address _ _ => address
  | null address => address
  | list address _ _ => address
  | attrs address _ _ _ => address
  | function address => address

inductive ValueType
  | nInt
  | nFloat
  | nBool
  | nString
  | nPath
  | nNull
  | nList
  | nAttrs
  | nFunction
  deriving DecidableEq

def Value.type : Value F → ValueType
  | int _ _ => .nInt
  | float _ _ => .nFloat
  | bool _ _ => .nBool
  | string _ _ => .nString
  | path _ _ _ => .nPath
  | null _ => .nNull
  | list _ _ _ => .nList
  | attrs _ _ _ _ => .nAttrs
  | function _ => .nFunction

def Value.isNumber (v : Value F) : Bool :=
  v.type = .nInt ∨ v.type = .nFloat

/-- The elements of a list, and the values of a set. -/
def Value.IsPart (w v : Value F) : Prop :=
  (∃ a size elem n, v = .list a size elem ∧ w = elem n) ∨
    ∃ a names pos value i, v = .attrs a names pos value ∧ w = value i

theorem Value.isPart_induction {motive : Value F → Prop}
    (parts : ∀ v, (∀ w, w.IsPart v → motive w) → motive v) (v : Value F) : motive v := by
  induction v with
  | list a size elem ih =>
    refine parts _ fun w hw => ?_
    rcases hw with ⟨_, _, _, n, heq, rfl⟩ | ⟨_, _, _, _, _, heq, -⟩
    · cases heq
      exact ih n
    · cases heq
  | attrs a names pos value ih =>
    refine parts _ fun w hw => ?_
    rcases hw with ⟨_, _, _, _, heq, -⟩ | ⟨_, _, _, _, i, heq, rfl⟩
    · cases heq
    · cases heq
      exact ih i
  | _ =>
    refine parts _ fun w hw => ?_
    rcases hw with ⟨_, _, _, _, heq, -⟩ | ⟨_, _, _, _, _, heq, -⟩ <;> cases heq

/-- `Bindings::get`, as a position. -/
def Names.get (names : Names) (name : Symbol) : Option (Fin names.elems.length) :=
  names.elems.finIdxOf? name

/-! ### The evaluator -/

/-- What the comparison uses of an `EvalState`. -/
structure EvalState (F : Type) where
  maxCallDepth : Nat
  /-- `s.type`. -/
  type : Symbol
  /-- `s.outPath`. -/
  outPath : Symbol
  /-- `==` on floats. -/
  floatEq : F → F → Bool
  /-- The conversion of an integer to a float. -/
  ofInt : Int64 → F
  symbols : Symbol → Bytes
  /-- `ValuePrinter`, with `errorPrintOptions`. -/
  print : Value F → Bytes
  printFloat : F → Bytes
  showType : Value F → Bytes

inductive ErrorKind
  | stackOverflowError
  | assertionError
  /-- A failed `assert`, which ends the process. -/
  | assertionFailure
  deriving DecidableEq

/-- A frame of a trace: where, and what was done there. -/
structure Trace where
  pos : PosIdx
  hint : HintFmt
  deriving DecidableEq

structure EvalError where
  kind : ErrorKind
  msg : HintFmt
  traces : List Trace := []
  deriving DecidableEq

def EvalError.addTrace (e : EvalError) (pos : PosIdx) (format : String)
    (args : List Bytes := []) : EvalError :=
  { e with traces := ⟨pos, ⟨format, args⟩⟩ :: e.traces }

def assertionError {α : Type} (format : String) (args : List Bytes) : Except EvalError α :=
  .error ⟨.assertionError, ⟨format, args⟩, []⟩

def assertFalse {α : Type} : Except EvalError α :=
  .error ⟨.assertionFailure, ⟨"false", []⟩, []⟩

namespace EvalState

variable (state : EvalState F)

/-- `addCallDepth`, when there are `callDepth` calls around this one. -/
def addCallDepth (callDepth : Nat) : Except EvalError Unit :=
  if callDepth > state.maxCallDepth then
    .error ⟨.stackOverflowError, ⟨"stack overflow; max-call-depth exceeded", []⟩, []⟩
  else .ok ()

def isDerivation : Value F → Bool
  | .attrs _ names _ value =>
      match names.get state.type with
      | none => false
      | some i =>
          match value i with
          | .string _ s => s = str "derivation"
          | _ => false
  | _ => false

/-! ### The comparison -/

def eqValues (callDepth : Nat) : Value F → Value F → Except EvalError Bool
  | v₁, v₂ => do
    state.addCallDepth callDepth
    if v₁.address = v₂.address then return true
    match v₁, v₂ with
    | .int _ n, .float _ x => return state.floatEq (state.ofInt n) x
    | .float _ x, .int _ n => return state.floatEq x (state.ofInt n)
    | .int _ n, .int _ m => return n = m
    | .bool _ b, .bool _ c => return b = c
    | .string _ s, .string _ t => return s = t
    | .path _ a p, .path _ b q => return a = b ∧ p = q
    | .null _, .null _ => return true
    | .list _ size₁ elem₁, .list _ size₂ elem₂ =>
        if h : size₁ = size₂ then
          (List.finRange size₁).allM fun n =>
            eqValues (callDepth + 1) (elem₁ n) (elem₂ (n.cast h))
        else return false
    | .attrs a₁ names₁ pos₁ value₁, .attrs a₂ names₂ pos₂ value₂ =>
        let i? := names₁.get state.outPath
        let j? := names₂.get state.outPath
        match state.isDerivation (.attrs a₁ names₁ pos₁ value₁) &&
            state.isDerivation (.attrs a₂ names₂ pos₂ value₂), i?, j? with
        | true, some i, some j => eqValues (callDepth + 1) (value₁ i) (value₂ j)
        | _, _, _ =>
            if h : names₁.elems.length = names₂.elems.length then
              (List.finRange names₁.elems.length).allM fun i =>
                let j := i.cast h
                if names₁.elems.get i ≠ names₂.elems.get j then pure false
                else eqValues (callDepth + 1) (value₁ i) (value₂ j)
            else return false
    | .function _, .function _ => return false
    | .float _ x, .float _ y => return state.floatEq x y
    | _, _ => return false

example (h : state.addCallDepth 0 = .ok ()) : state.eqValues 0 (.null 1) (.null 2) = .ok true := by
  rw [eqValues, h]
  rfl

/-- The traces of the attribute `name`, with its positions on both sides. -/
def addAttrTraces (pos : PosIdx) (name : Symbol) (pos₁ pos₂ : PosIdx) (e : EvalError) :
    EvalError :=
  let e := if pos₂ ≠ 0 then e.addTrace pos₂ "where right hand side is" else e
  let e := if pos₁ ≠ 0 then e.addTrace pos₁ "where left hand side is" else e
  e.addTrace pos "while comparing attribute '%s'" [state.symbols name]

/-- The check of two names that stand at one position of their sets. -/
def assertSameName (v₁ v₂ : Value F) (i j : Names × Symbol) : Except EvalError Unit := do
  if i.2 ≠ j.2 then
    if (j.1.get i.2).isNone then
      assertionError "attribute name '%s' is contained in '%s', but not in '%s'"
        [state.symbols i.2, state.print v₁, state.print v₂]
    if (i.1.get j.2).isNone then
      assertionError "attribute name '%s' is missing in '%s', but is contained in '%s'"
        [state.symbols j.2, state.print v₁, state.print v₂]
    assertFalse

def assertEqValues (pos : PosIdx) (callDepth : Nat) : Value F → Value F → Except EvalError Unit
  | v₁, v₂ => do
    state.addCallDepth callDepth
    if v₁.address = v₂.address then return
    else if v₁.isNumber ∧ v₂.isNumber then
      if ← state.eqValues (callDepth + 1) v₁ v₂ then return
      else
        assertionError "%s with value '%s' is not equal to %s with value '%s'"
          [state.showType v₁, state.print v₁, state.showType v₂, state.print v₂]
    else if v₁.type ≠ v₂.type then
      assertionError "%s of value '%s' is not equal to %s of value '%s'"
        [state.showType v₁, state.print v₁, state.showType v₂, state.print v₂]
    else match v₁, v₂ with
    | .int _ n, .int _ m =>
        if n ≠ m then
          assertionError "integer '%d' is not equal to integer '%d'"
            [str (toString n), str (toString m)]
        else return
    | .bool _ b, .bool _ c =>
        if b ≠ c then
          assertionError "boolean '%s' is not equal to boolean '%s'"
            [state.print v₁, state.print v₂]
        else return
    | .string _ s, .string _ t =>
        if s ≠ t then
          assertionError "string '%s' is not equal to string '%s'" [state.print v₁, state.print v₂]
        else return
    | .path _ a p, .path _ b q =>
        if a ≠ b then
          assertionError
            "path '%s' is not equal to path '%s' because their accessors are different"
            [state.print v₁, state.print v₂]
        else if p ≠ q then
          assertionError "path '%s' is not equal to path '%s'" [state.print v₁, state.print v₂]
        else return
    | .null _, .null _ => return
    | .list _ size₁ elem₁, .list _ size₂ elem₂ =>
        if h : size₁ = size₂ then
          (List.finRange size₁).forM fun n =>
            tryCatch (assertEqValues pos (callDepth + 1) (elem₁ n) (elem₂ (n.cast h)))
              fun e => throw (e.addTrace pos "while comparing list element %d" [decimal n])
        else
          assertionError
            "list of size '%d' is not equal to list of size '%d', left hand side is '%s', right hand side is '%s'"
            [decimal size₁, decimal size₂, state.print v₁, state.print v₂]
    | .attrs a₁ names₁ pos₁ value₁, .attrs a₂ names₂ pos₂ value₂ =>
        let i? := names₁.get state.outPath
        let j? := names₂.get state.outPath
        match state.isDerivation (.attrs a₁ names₁ pos₁ value₁) &&
            state.isDerivation (.attrs a₂ names₂ pos₂ value₂), i?, j? with
        | true, some i, some j => do
            try
              assertEqValues pos (callDepth + 1) (value₁ i) (value₂ j)
              return
            catch e =>
              throw (e.addTrace pos "while comparing a derivation by its '%s' attribute"
                [str "outPath"])
            assertFalse
        | _, _, _ =>
            if h : names₁.elems.length = names₂.elems.length then
              (List.finRange names₁.elems.length).forM fun i => do
                let j := i.cast h
                state.assertSameName v₁ v₂ (names₁, names₁.elems.get i) (names₂, names₂.elems.get j)
                tryCatch (assertEqValues pos (callDepth + 1) (value₁ i) (value₂ j)) fun e =>
                  throw (state.addAttrTraces pos (names₁.elems.get i) (pos₁ i) (pos₂ j) e)
            else
              assertionError "attribute names of attribute set '%s' differs from attribute set '%s'"
                [state.print v₁, state.print v₂]
    | .function _, .function _ =>
        assertionError
          "distinct functions and immediate comparisons of identical functions compare as unequal" []
    | .float _ x, .float _ y =>
        if !state.floatEq x y then
          assertionError "float '%f' is not equal to float '%f'"
            [state.printFloat x, state.printFloat y]
        else return
    -- the values are of one type
    | _, _ => assertFalse

example (pos : PosIdx) (h : state.addCallDepth 0 = .ok ()) :
    state.assertEqValues pos 0 (.null 1) (.null 2) = .ok () := by
  rw [assertEqValues, h]
  rfl

end EvalState

/-! ### What is compared -/

namespace EvalState

variable (state : EvalState F)

def outPathOf : Value F → Option (Value F)
  | .attrs _ names _ value => (names.get state.outPath).map value
  | _ => none

/-- Two derivations that are compared by their `outPath`. -/
def ByOutPath (v₁ v₂ : Value F) : Prop :=
  state.isDerivation v₁ ∧ state.isDerivation v₂ ∧
    (state.outPathOf v₁).isSome ∧ (state.outPathOf v₂).isSome

/-- The pairs of parts whose comparison decides that of two values at different addresses. -/
inductive Part : Value F → Value F → Value F → Value F → Prop
  | elem {a₁ a₂ size : Nat} {elem₁ elem₂ : Fin size → Value F} (n : Fin size) :
      Part (.list a₁ size elem₁) (.list a₂ size elem₂) (elem₁ n) (elem₂ n)
  | outPath {v₁ v₂ w₁ w₂ : Value F} (hv₁ : state.isDerivation v₁) (hv₂ : state.isDerivation v₂)
      (hw₁ : state.outPathOf v₁ = some w₁) (hw₂ : state.outPathOf v₂ = some w₂) :
      Part v₁ v₂ w₁ w₂
  | attr {a₁ a₂ : Nat} {names : Names} {pos₁ pos₂ : Fin names.elems.length → PosIdx}
      {value₁ value₂ : Fin names.elems.length → Value F}
      (h : ¬ state.ByOutPath (.attrs a₁ names pos₁ value₁) (.attrs a₂ names pos₂ value₂))
      (i : Fin names.elems.length) :
      Part (.attrs a₁ names pos₁ value₁) (.attrs a₂ names pos₂ value₂) (value₁ i) (value₂ i)

/-- Two values at different addresses that are the same but for their parts. -/
def SameShape (v₁ v₂ : Value F) : Prop :=
  match v₁, v₂ with
  | .int _ n, .float _ x => state.floatEq (state.ofInt n) x
  | .float _ x, .int _ n => state.floatEq x (state.ofInt n)
  | .float _ x, .float _ y => state.floatEq x y
  | .int _ n, .int _ m => n = m
  | .bool _ b, .bool _ c => b = c
  | .string _ s, .string _ t => s = t
  | .path _ a p, .path _ b q => a = b ∧ p = q
  | .null _, .null _ => True
  | .list _ size₁ _, .list _ size₂ _ => size₁ = size₂
  | .attrs _ names₁ _ _, .attrs _ names₂ _ _ => state.ByOutPath v₁ v₂ ∨ names₁ = names₂
  | _, _ => False

end EvalState

/-! ### One step of the comparison -/

theorem allM_eq_true_iff {ε α : Type} {p : α → Except ε Bool} {l : List α} :
    l.allM p = .ok true ↔ ∀ a ∈ l, p a = .ok true := by
  induction l with
  | nil => simp [List.allM, pure, Except.pure]
  | cons a l ih =>
    rw [List.allM, List.forall_mem_cons, ← ih]
    cases ha : p a with
    | error e => simp [bind, Except.bind]
    | ok b => cases b <;> simp [bind, Except.bind, pure, Except.pure]

theorem bind_eq_ok_iff {ε : Type} {x y : Except ε Unit} :
    (do x; y) = .ok () ↔ x = .ok () ∧ y = .ok () := by
  cases x with
  | error e => simp [bind, Except.bind]
  | ok u => simp [bind, Except.bind]

namespace EvalState

variable {state : EvalState F} {v₁ v₂ w₁ w₂ : Value F} {pos callDepth : Nat}

theorem addCallDepth_bind_eq_ok_iff {α : Type} {x : Except EvalError α} {a : α} :
    (do state.addCallDepth callDepth; x) = .ok a ↔ callDepth ≤ state.maxCallDepth ∧ x = .ok a := by
  by_cases h : callDepth > state.maxCallDepth
  · have hnot : ¬ callDepth ≤ state.maxCallDepth := Nat.not_le_of_lt h
    simp [addCallDepth, h, hnot, bind, Except.bind]
  · simp [addCallDepth, h, bind, Except.bind, Nat.le_of_not_lt h]

theorem forall_part_list_iff {a₁ a₂ size : Nat} {elem₁ elem₂ : Fin size → Value F}
    {P : Value F → Value F → Prop} :
    (∀ w₁ w₂, state.Part (.list a₁ size elem₁) (.list a₂ size elem₂) w₁ w₂ → P w₁ w₂) ↔
      ∀ n, P (elem₁ n) (elem₂ n) := by
  constructor
  · exact fun h n => h _ _ (.elem n)
  · rintro h w₁ w₂ hpart
    cases hpart with
    | elem n => exact h n
    | outPath hv₁ => cases hv₁

/-- The parts of two derivations that are compared by their `outPath`. -/
theorem forall_part_outPath_iff (hv₁ : state.isDerivation v₁) (hv₂ : state.isDerivation v₂)
    (hw₁ : state.outPathOf v₁ = some w₁) (hw₂ : state.outPathOf v₂ = some w₂)
    {P : Value F → Value F → Prop} :
    (∀ w₁ w₂, state.Part v₁ v₂ w₁ w₂ → P w₁ w₂) ↔ P w₁ w₂ := by
  constructor
  · exact fun h => h _ _ (.outPath hv₁ hv₂ hw₁ hw₂)
  · rintro h u₁ u₂ hpart
    cases hpart with
    | elem n => cases hv₁
    | outPath _ _ hu₁ hu₂ =>
      cases hw₁.symm.trans hu₁
      cases hw₂.symm.trans hu₂
      exact h
    | attr hby i => exact absurd ⟨hv₁, hv₂, by rw [hw₁]; rfl, by rw [hw₂]; rfl⟩ hby

theorem forall_part_attrs_iff {a₁ a₂ : Nat} {names : Names} {pos₁ pos₂ value₁ value₂}
    (h : ¬ state.ByOutPath (.attrs a₁ names pos₁ value₁) (.attrs a₂ names pos₂ value₂))
    {P : Value F → Value F → Prop} :
    (∀ w₁ w₂, state.Part (.attrs a₁ names pos₁ value₁) (.attrs a₂ names pos₂ value₂) w₁ w₂ →
      P w₁ w₂) ↔ ∀ i, P (value₁ i) (value₂ i) := by
  constructor
  · exact fun hP i => hP _ _ (.attr h i)
  · rintro hP w₁ w₂ hpart
    cases hpart with
    | outPath hv₁ hv₂ hw₁ hw₂ =>
      exact absurd ⟨hv₁, hv₂, by rw [hw₁]; rfl, by rw [hw₂]; rfl⟩ h
    | attr _ i => exact hP i

theorem outPathOf_attrs {a : Nat} {names : Names} {pos value} {i : Fin names.elems.length}
    (h : names.get state.outPath = some i) :
    state.outPathOf (.attrs a names pos value) = some (value i) := by
  rw [outPathOf, h]
  rfl

/-- When sets are not compared by their `outPath`. -/
theorem not_byOutPath_attrs {a₁ a₂ : Nat} {names₁ names₂ : Names} {pos₁ pos₂ value₁ value₂}
    (h : ∀ i j, (state.isDerivation (.attrs a₁ names₁ pos₁ value₁) &&
        state.isDerivation (.attrs a₂ names₂ pos₂ value₂)) = true →
      names₁.get state.outPath = some i → names₂.get state.outPath = some j → False) :
    ¬ state.ByOutPath (.attrs a₁ names₁ pos₁ value₁) (.attrs a₂ names₂ pos₂ value₂) := by
  rintro ⟨hv₁, hv₂, hi, hj⟩
  rw [outPathOf, Option.isSome_map] at hi hj
  obtain ⟨i, hi⟩ := Option.isSome_iff_exists.mp hi
  obtain ⟨j, hj⟩ := Option.isSome_iff_exists.mp hj
  exact h i j (by rw [hv₁, hv₂]; rfl) hi hj

theorem ext_names {names₁ names₂ : Names} (hlen : names₁.elems.length = names₂.elems.length)
    (h : ∀ i, names₁.elems.get i = names₂.elems.get (i.cast hlen)) : names₁ = names₂ := by
  obtain ⟨elems₁, sorted₁⟩ := names₁
  obtain ⟨elems₂, sorted₂⟩ := names₂
  obtain rfl : elems₁ = elems₂ := List.ext_get hlen fun n hn _ => h ⟨n, hn⟩
  rfl

theorem eqValues_attrs_eq_true_iff {a₁ a₂ : Nat} {names₁ names₂ : Names} {pos₁ pos₂ value₁ value₂}
    (ha : a₁ ≠ a₂) :
    state.eqValues callDepth (.attrs a₁ names₁ pos₁ value₁) (.attrs a₂ names₂ pos₂ value₂) =
        .ok true ↔
      callDepth ≤ state.maxCallDepth ∧
        state.SameShape (.attrs a₁ names₁ pos₁ value₁) (.attrs a₂ names₂ pos₂ value₂) ∧
        ∀ w₁ w₂, state.Part (.attrs a₁ names₁ pos₁ value₁) (.attrs a₂ names₂ pos₂ value₂) w₁ w₂ →
          state.eqValues (callDepth + 1) w₁ w₂ = .ok true := by
  rw [eqValues, addCallDepth_bind_eq_ok_iff]
  refine and_congr_right fun _ => ?_
  simp only [Value.address, ha, if_false]
  split
  next i j hderivation hi hj =>
    rw [Bool.and_eq_true] at hderivation
    have hw₁ : state.outPathOf (.attrs a₁ names₁ pos₁ value₁) = some (value₁ i) :=
      outPathOf_attrs hi
    have hw₂ : state.outPathOf (.attrs a₂ names₂ pos₂ value₂) = some (value₂ j) :=
      outPathOf_attrs hj
    rw [forall_part_outPath_iff hderivation.1 hderivation.2 hw₁ hw₂]
    refine (and_iff_right ?_).symm
    exact .inl ⟨hderivation.1, hderivation.2, by rw [hw₁]; rfl, by rw [hw₂]; rfl⟩
  next hnot =>
    have hby : ¬ state.ByOutPath (.attrs a₁ names₁ pos₁ value₁) (.attrs a₂ names₂ pos₂ value₂) :=
      not_byOutPath_attrs hnot
    have hshape : state.SameShape (.attrs a₁ names₁ pos₁ value₁) (.attrs a₂ names₂ pos₂ value₂) ↔
        names₁ = names₂ := or_iff_right hby
    rw [hshape]
    split
    next hlen =>
      rw [allM_eq_true_iff]
      constructor
      · intro hall
        obtain rfl : names₁ = names₂ := by
          refine ext_names hlen fun i => ?_
          have hi := hall i (List.mem_finRange i)
          by_contra hne
          rw [if_pos hne] at hi
          cases hi
        refine ⟨rfl, (forall_part_attrs_iff hby).mpr fun i => ?_⟩
        have hi := hall i (List.mem_finRange i)
        rwa [if_neg (by simp)] at hi
      · rintro ⟨rfl, hparts⟩ i -
        rw [if_neg (by simp)]
        exact (forall_part_attrs_iff hby).mp hparts i
    next hlen =>
      simp only [pure, Except.pure, Except.ok.injEq, Bool.false_eq_true, false_iff, not_and]
      rintro rfl
      exact absurd rfl hlen

theorem type_of_isDerivation (h : state.isDerivation v₁) : v₁.type = .nAttrs := by
  cases v₁
  case attrs => rfl
  all_goals cases h

theorem type_eq_of_sameShape (h : state.SameShape v₁ v₂) :
    v₁.type = v₂.type ∨ v₁.isNumber ∧ v₂.isNumber := by
  cases v₁ <;> cases v₂ <;> first | exact .inl rfl | exact .inr ⟨rfl, rfl⟩ | cases h

theorem Part.type_eq (h : state.Part v₁ v₂ w₁ w₂) :
    v₁.type = v₂.type ∧ (v₁.type = .nList ∨ v₁.type = .nAttrs) := by
  cases h with
  | elem n => exact ⟨rfl, .inl rfl⟩
  | outPath hv₁ hv₂ hw₁ hw₂ =>
    have hv₁ := type_of_isDerivation hv₁
    exact ⟨hv₁.trans (type_of_isDerivation hv₂).symm, .inr hv₁⟩
  | attr h i => exact ⟨rfl, .inr rfl⟩

theorem eqValues_eq_true_iff : state.eqValues callDepth v₁ v₂ = .ok true ↔
    callDepth ≤ state.maxCallDepth ∧ (v₁.address ≠ v₂.address →
      state.SameShape v₁ v₂ ∧
        ∀ w₁ w₂, state.Part v₁ v₂ w₁ w₂ → state.eqValues (callDepth + 1) w₁ w₂ = .ok true) := by
  by_cases ha : v₁.address = v₂.address
  · rw [eqValues.eq_def, addCallDepth_bind_eq_ok_iff, if_pos ha]
    simp [ha, pure, Except.pure]
  · have hno : ¬ (v₁.type = v₂.type ∧ (v₁.type = .nList ∨ v₁.type = .nAttrs)) →
        ∀ w₁ w₂, ¬ state.Part v₁ v₂ w₁ w₂ := fun h _ _ hpart => h hpart.type_eq
    cases v₁ <;> cases v₂
    case attrs.attrs a₁ names₁ pos₁ value₁ a₂ names₂ pos₂ value₂ =>
      rw [eqValues_attrs_eq_true_iff (show a₁ ≠ a₂ from ha), forall_prop_of_true ha]
    case list.list a₁ size₁ elem₁ a₂ size₂ elem₂ =>
      rw [eqValues, addCallDepth_bind_eq_ok_iff, if_neg ha, forall_prop_of_true ha, SameShape]
      refine and_congr_right fun _ => ?_
      split
      next hsize =>
        subst hsize
        rw [forall_part_list_iff, allM_eq_true_iff]
        simp
      next hsize => simp [hsize, pure, Except.pure]
    all_goals
      replace hno := hno (by simp [Value.type])
      rw [eqValues.eq_def, addCallDepth_bind_eq_ok_iff]
      simp [ha, hno, SameShape, pure, Except.pure]

@[simp] theorem assertionError_ne_ok {α : Type} {format : String} {args : List Bytes} {a : α} :
    assertionError format args ≠ .ok a := nofun

theorem tryCatch_throw_eq_ok_iff {x : Except EvalError Unit} {f : EvalError → EvalError} :
    tryCatch x (fun e => throw (f e)) = .ok () ↔ x = .ok () := by
  cases x with
  | ok u => exact Iff.rfl
  | error e => exact ⟨nofun, nofun⟩

/-- The `assert(false)` behind a comparison that returns or throws is not reached. -/
theorem returnOrThrow_eq {x : Except EvalError Unit} {f : EvalError → EvalError} :
    (do
      try
        x
        return
      catch e => throw (f e)
      assertFalse) = tryCatch x fun e => throw (f e) := by
  cases x <;> rfl

theorem assertSameName_eq_ok_iff {i j : Names × Symbol} :
    state.assertSameName v₁ v₂ i j = .ok () ↔ i.2 = j.2 := by
  unfold assertSameName
  by_cases h : i.2 = j.2
  · simp [h, pure, Except.pure]
  · rw [if_pos h]
    simp only [h, iff_false]
    split_ifs <;> exact nofun

theorem assertEqValues_number_eq_ok_iff (ha : v₁.address ≠ v₂.address)
    (hnumbers : v₁.isNumber ∧ v₂.isNumber) :
    state.assertEqValues pos callDepth v₁ v₂ = .ok () ↔
      callDepth ≤ state.maxCallDepth ∧ state.eqValues (callDepth + 1) v₁ v₂ = .ok true := by
  rw [assertEqValues.eq_def, addCallDepth_bind_eq_ok_iff, if_neg ha, if_pos hnumbers]
  refine and_congr_right fun _ => ?_
  cases state.eqValues (callDepth + 1) v₁ v₂ with
  | error e => exact ⟨nofun, nofun⟩
  | ok b =>
    cases b with
    | false => exact ⟨nofun, nofun⟩
    | true => exact ⟨fun _ => rfl, fun _ => rfl⟩

theorem assertEqValues_attrs_eq_ok_iff {a₁ a₂ : Nat} {names₁ names₂ : Names}
    {pos₁ pos₂ value₁ value₂} (ha : a₁ ≠ a₂) :
    state.assertEqValues pos callDepth (.attrs a₁ names₁ pos₁ value₁)
        (.attrs a₂ names₂ pos₂ value₂) = .ok () ↔
      callDepth ≤ state.maxCallDepth ∧
        state.SameShape (.attrs a₁ names₁ pos₁ value₁) (.attrs a₂ names₂ pos₂ value₂) ∧
        ∀ w₁ w₂, state.Part (.attrs a₁ names₁ pos₁ value₁) (.attrs a₂ names₂ pos₂ value₂) w₁ w₂ →
          state.assertEqValues pos (callDepth + 1) w₁ w₂ = .ok () := by
  rw [assertEqValues, addCallDepth_bind_eq_ok_iff]
  refine and_congr_right fun _ => ?_
  have haddress : (Value.attrs a₁ names₁ pos₁ value₁).address ≠
    (Value.attrs a₂ names₂ pos₂ value₂).address := ha
  have hnumbers : ¬ ((Value.attrs a₁ names₁ pos₁ value₁).isNumber ∧
      (Value.attrs a₂ names₂ pos₂ value₂).isNumber) := by
    rintro ⟨h, -⟩
    cases h
  have htype : ¬ ((Value.attrs a₁ names₁ pos₁ value₁).type ≠
      (Value.attrs a₂ names₂ pos₂ value₂).type) := not_not.mpr rfl
  rw [if_neg haddress, if_neg hnumbers, if_neg htype]
  dsimp only
  split
  next i j hderivation hi hj =>
    rw [Bool.and_eq_true] at hderivation
    have hw₁ : state.outPathOf (.attrs a₁ names₁ pos₁ value₁) = some (value₁ i) :=
      outPathOf_attrs hi
    have hw₂ : state.outPathOf (.attrs a₂ names₂ pos₂ value₂) = some (value₂ j) :=
      outPathOf_attrs hj
    rw [forall_part_outPath_iff hderivation.1 hderivation.2 hw₁ hw₂, returnOrThrow_eq,
      tryCatch_throw_eq_ok_iff]
    refine (and_iff_right ?_).symm
    exact .inl ⟨hderivation.1, hderivation.2, by rw [hw₁]; rfl, by rw [hw₂]; rfl⟩
  next hnot =>
    have hby : ¬ state.ByOutPath (.attrs a₁ names₁ pos₁ value₁) (.attrs a₂ names₂ pos₂ value₂) :=
      not_byOutPath_attrs hnot
    have hshape : state.SameShape (.attrs a₁ names₁ pos₁ value₁) (.attrs a₂ names₂ pos₂ value₂) ↔
        names₁ = names₂ := or_iff_right hby
    rw [hshape]
    split
    next hlen =>
      rw [forM_eq_ok]
      have hstep : ∀ i, (do
          state.assertSameName (.attrs a₁ names₁ pos₁ value₁) (.attrs a₂ names₂ pos₂ value₂)
            (names₁, names₁.elems.get i) (names₂, names₂.elems.get (i.cast hlen))
          tryCatch (state.assertEqValues pos (callDepth + 1) (value₁ i) (value₂ (i.cast hlen)))
            fun e => throw (state.addAttrTraces pos (names₁.elems.get i) (pos₁ i)
              (pos₂ (i.cast hlen)) e)) = .ok () ↔
          names₁.elems.get i = names₂.elems.get (i.cast hlen) ∧
            state.assertEqValues pos (callDepth + 1) (value₁ i) (value₂ (i.cast hlen)) = .ok () := by
        intro i
        rw [bind_eq_ok_iff, assertSameName_eq_ok_iff, tryCatch_throw_eq_ok_iff]
      constructor
      · intro hall
        obtain rfl : names₁ = names₂ := ext_names hlen fun i =>
          ((hstep i).mp (hall i (List.mem_finRange i))).1
        exact ⟨rfl, (forall_part_attrs_iff hby).mpr fun i =>
          ((hstep i).mp (hall i (List.mem_finRange i))).2⟩
      · rintro ⟨rfl, hparts⟩ i -
        exact (hstep i).mpr ⟨rfl, (forall_part_attrs_iff hby).mp hparts i⟩
    next hlen =>
      refine iff_of_false assertionError_ne_ok ?_
      rintro ⟨rfl, -⟩
      exact hlen rfl

/-- A pair of numbers is compared by `eqValues`, at one more level. -/
theorem assertEqValues_eq_ok_iff : state.assertEqValues pos callDepth v₁ v₂ = .ok () ↔
    callDepth ≤ state.maxCallDepth ∧ (v₁.address ≠ v₂.address →
      state.SameShape v₁ v₂ ∧
        (v₁.isNumber ∧ v₂.isNumber → callDepth + 1 ≤ state.maxCallDepth) ∧
        ∀ w₁ w₂, state.Part v₁ v₂ w₁ w₂ →
          state.assertEqValues pos (callDepth + 1) w₁ w₂ = .ok ()) := by
  by_cases ha : v₁.address = v₂.address
  · rw [assertEqValues.eq_def, addCallDepth_bind_eq_ok_iff, if_pos ha]
    simp [ha, pure, Except.pure]
  · have hno : ¬ (v₁.type = v₂.type ∧ (v₁.type = .nList ∨ v₁.type = .nAttrs)) →
        ∀ w₁ w₂, ¬ state.Part v₁ v₂ w₁ w₂ := fun h _ _ hpart => h hpart.type_eq
    rw [forall_prop_of_true ha]
    by_cases hnumbers : v₁.isNumber ∧ v₂.isNumber
    · have hparts := hno fun ⟨_, h⟩ => by
        have hnumber : v₁.type = .nInt ∨ v₁.type = .nFloat := of_decide_eq_true hnumbers.1
        rcases hnumber with hnumber | hnumber <;> simp [hnumber] at h
      rw [assertEqValues_number_eq_ok_iff ha hnumbers, eqValues_eq_true_iff,
        forall_prop_of_true ha]
      simp only [hnumbers, hparts, forall_true_left, and_true, false_imp_iff, implies_true,
        and_self]
      tauto
    by_cases htype : v₁.type = v₂.type
    · cases v₁ <;> cases v₂
      case attrs.attrs a₁ names₁ pos₁ value₁ a₂ names₂ pos₂ value₂ =>
        rw [assertEqValues_attrs_eq_ok_iff (show a₁ ≠ a₂ from ha)]
        simp [hnumbers]
      case list.list a₁ size₁ elem₁ a₂ size₂ elem₂ =>
        have htype : ¬ ((Value.list a₁ size₁ elem₁).type ≠ (Value.list a₂ size₂ elem₂).type) :=
          not_not.mpr rfl
        rw [assertEqValues, addCallDepth_bind_eq_ok_iff, if_neg ha, if_neg hnumbers, if_neg htype,
          SameShape]
        refine and_congr_right fun _ => ?_
        split
        next hsize =>
          subst hsize
          rw [forall_part_list_iff, forM_eq_ok]
          simp [tryCatch_throw_eq_ok_iff, hnumbers]
        next hsize => simp [hsize]
      all_goals try (cases htype; done)
      all_goals
        replace hno := hno (by simp [Value.type])
        rw [assertEqValues.eq_def, addCallDepth_bind_eq_ok_iff, if_neg ha, if_neg hnumbers,
          if_neg (not_not.mpr htype)]
        simp [hno, hnumbers, SameShape, pure, Except.pure, ite_eq_iff]
    · rw [assertEqValues.eq_def, addCallDepth_bind_eq_ok_iff, if_neg ha, if_neg hnumbers,
        if_pos htype]
      have hshape : ¬ state.SameShape v₁ v₂ := fun h =>
        (type_eq_of_sameShape h).elim htype hnumbers
      simp [hshape]

/-! ### Whole comparisons -/

/-- The pairs that a comparison comes to, when all pairs before are the same, and how many calls
deeper. -/
inductive Reaches (state : EvalState F) : Nat → Value F → Value F → Value F → Value F → Prop
  | refl (v₁ v₂ : Value F) : Reaches state 0 v₁ v₂ v₁ v₂
  | part {v₁ v₂ u₁ u₂ w₁ w₂ : Value F} {k : Nat} (ha : v₁.address ≠ v₂.address)
      (hpart : state.Part v₁ v₂ u₁ u₂) (h : Reaches state k u₁ u₂ w₁ w₂) :
      Reaches state (k + 1) v₁ v₂ w₁ w₂

theorem Part.isPart (h : state.Part v₁ v₂ w₁ w₂) : w₁.IsPart v₁ := by
  cases h with
  | elem n => exact .inl ⟨_, _, _, n, rfl, rfl⟩
  | outPath hv₁ hv₂ hw₁ hw₂ =>
    cases v₁
    case attrs a names pos value =>
      obtain ⟨i, -, hi⟩ := Option.map_eq_some_iff.mp hw₁
      exact .inr ⟨a, names, pos, value, i, rfl, hi.symm⟩
    all_goals cases hw₁
  | attr hby i => exact .inr ⟨_, _, _, _, i, rfl, rfl⟩

theorem forall_reaches_iff {P L : Nat → Value F → Value F → Prop}
    (hstep : ∀ d v₁ v₂, P d v₁ v₂ ↔ L d v₁ v₂ ∧ (v₁.address ≠ v₂.address →
      ∀ w₁ w₂, state.Part v₁ v₂ w₁ w₂ → P (d + 1) w₁ w₂)) (d : Nat) (v₁ v₂ : Value F) :
    P d v₁ v₂ ↔ ∀ k w₁ w₂, state.Reaches k v₁ v₂ w₁ w₂ → L (d + k) w₁ w₂ := by
  constructor
  · intro h k w₁ w₂ hreach
    induction hreach generalizing d with
    | refl v₁ v₂ => exact ((hstep d v₁ v₂).mp h).1
    | @part _ _ _ _ _ _ k ha hpart hreach ih =>
      have hdeeper := ih (d + 1) (((hstep d _ _).mp h).2 ha _ _ hpart)
      rwa [Nat.add_right_comm] at hdeeper
  · intro h
    induction v₁ using Value.isPart_induction generalizing d v₂ with
    | parts v₁ ih =>
      refine (hstep d v₁ v₂).mpr ⟨h 0 v₁ v₂ (.refl v₁ v₂), fun ha w₁ w₂ hpart => ?_⟩
      refine ih w₁ hpart.isPart (d + 1) w₂ fun k u₁ u₂ hreach => ?_
      have hdeeper := h (k + 1) u₁ u₂ (.part ha hpart hreach)
      rwa [← Nat.add_assoc, Nat.add_right_comm] at hdeeper

theorem eqValues_eq_true_iff_reaches : state.eqValues callDepth v₁ v₂ = .ok true ↔
    ∀ k w₁ w₂, state.Reaches k v₁ v₂ w₁ w₂ → callDepth + k ≤ state.maxCallDepth ∧
      (w₁.address ≠ w₂.address → state.SameShape w₁ w₂) := by
  refine forall_reaches_iff (P := fun d v₁ v₂ => state.eqValues d v₁ v₂ = .ok true)
    (L := fun d v₁ v₂ => d ≤ state.maxCallDepth ∧ (v₁.address ≠ v₂.address → state.SameShape v₁ v₂))
    (fun d v₁ v₂ => ?_) callDepth v₁ v₂
  rw [eqValues_eq_true_iff, forall_and, and_assoc]

theorem assertEqValues_eq_ok_iff_reaches : state.assertEqValues pos callDepth v₁ v₂ = .ok () ↔
    ∀ k w₁ w₂, state.Reaches k v₁ v₂ w₁ w₂ → callDepth + k ≤ state.maxCallDepth ∧
      (w₁.address ≠ w₂.address → state.SameShape w₁ w₂ ∧
        (w₁.isNumber ∧ w₂.isNumber → callDepth + k + 1 ≤ state.maxCallDepth)) := by
  refine forall_reaches_iff (P := fun d v₁ v₂ => state.assertEqValues pos d v₁ v₂ = .ok ())
    (L := fun d v₁ v₂ => d ≤ state.maxCallDepth ∧ (v₁.address ≠ v₂.address →
      state.SameShape v₁ v₂ ∧ (v₁.isNumber ∧ v₂.isNumber → d + 1 ≤ state.maxCallDepth)))
    (fun d v₁ v₂ => ?_) callDepth v₁ v₂
  rw [assertEqValues_eq_ok_iff, and_assoc]
  refine and_congr_right fun _ => ?_
  rw [← forall_and]
  simp only [and_assoc]

/-! ### Failed assertions -/

end EvalState

theorem forM_eq_error {ε α : Type} {f : α → Except ε Unit} {l : List α} {e : ε}
    (h : l.forM f = .error e) :
    ∃ l₁ a l₂, l = l₁ ++ a :: l₂ ∧ (∀ b ∈ l₁, f b = .ok ()) ∧ f a = .error e := by
  induction l with
  | nil => cases h
  | cons a l ih =>
    rw [List.forM_eq_forM, List.forM_cons] at h
    cases ha : f a with
    | error e' =>
      rw [ha] at h
      cases h
      exact ⟨[], a, l, rfl, by simp, ha⟩
    | ok u =>
      rw [ha] at h
      obtain ⟨l₁, b, l₂, rfl, hbefore, hb⟩ := ih h
      exact ⟨a :: l₁, b, l₂, rfl, List.forall_mem_cons.mpr ⟨ha, hbefore⟩, hb⟩

theorem finRange_forM_eq_error {ε : Type} {n : Nat} {f : Fin n → Except ε Unit} {e : ε}
    (h : (List.finRange n).forM f = .error e) :
    ∃ i, (∀ j < i, f j = .ok ()) ∧ f i = .error e := by
  obtain ⟨l₁, i, l₂, hl, hbefore, hi⟩ := forM_eq_error h
  refine ⟨i, fun j hj => ?_, hi⟩
  have hsorted := List.pairwise_lt_finRange n
  have hmem : j ∈ l₁ ++ i :: l₂ := hl ▸ List.mem_finRange j
  rw [hl, List.pairwise_append, List.pairwise_cons] at hsorted
  rcases List.mem_append.mp hmem with hmem | hmem
  · exact hbefore j hmem
  · rcases List.mem_cons.mp hmem with rfl | hmem
    · exact (Nat.lt_irrefl _ hj).elim
    · exact (Nat.lt_asymm hj (hsorted.2.1.1 j hmem)).elim

theorem Names.isSome_get {names : Names} {name : Symbol} :
    (names.get name).isSome ↔ name ∈ names.elems := by
  rw [Names.get, List.isSome_finIdxOf?, List.contains_iff_mem]

theorem Names.get_lt {names : Names} {i j : Fin names.elems.length} (h : i < j) :
    names.elems.get i < names.elems.get j :=
  Nat.compare_eq_lt.mp (List.pairwise_iff_get.mp names.sorted i j h)

theorem Names.notMem_of_first {names₁ names₂ : Names} {i₁ : Fin names₁.elems.length}
    {i₂ : Fin names₂.elems.length}
    (hbefore : ∀ j₂ < i₂, ∃ j₁ < i₁, names₁.elems.get j₁ = names₂.elems.get j₂)
    (hlt : names₁.elems.get i₁ < names₂.elems.get i₂) :
    names₁.elems.get i₁ ∉ names₂.elems := by
  intro hin
  obtain ⟨j₂, hj₂⟩ := List.get_of_mem hin
  have hj : j₂ < i₂ := by
    by_contra hle
    rcases Nat.eq_or_lt_of_le (Nat.le_of_not_lt hle) with heq | hgt
    · rw [Fin.ext heq, hj₂] at hlt
      exact Nat.lt_irrefl _ hlt
    · have hgt' := Names.get_lt (show i₂ < j₂ from hgt)
      rw [hj₂] at hgt'
      exact Nat.lt_asymm hlt hgt'
  obtain ⟨j₁, hj₁, heq⟩ := hbefore j₂ hj
  have hlt' := Names.get_lt hj₁
  rw [heq, hj₂] at hlt'
  exact Nat.lt_irrefl _ hlt'

namespace EvalState

/-- An evaluation that fails no `assert`. -/
def FailsNoAssert {α : Type} (x : Except EvalError α) : Prop :=
  ∀ e, x = .error e → e.kind ≠ .assertionFailure

theorem failsNoAssert_ok {α : Type} (a : α) : FailsNoAssert (.ok a) := nofun

theorem failsNoAssert_assertionError {α : Type} (format : String) (args : List Bytes) :
    FailsNoAssert (assertionError format args : Except EvalError α) := by
  rintro e heq
  cases heq
  exact nofun

theorem failsNoAssert_addCallDepth (state : EvalState F) (callDepth : Nat) :
    FailsNoAssert (state.addCallDepth callDepth) := by
  rintro e heq
  unfold addCallDepth at heq
  split at heq <;> cases heq
  exact nofun

theorem FailsNoAssert.bind {α β : Type} {x : Except EvalError α} {f : α → Except EvalError β}
    (hx : FailsNoAssert x) (hf : ∀ a, x = .ok a → FailsNoAssert (f a)) :
    FailsNoAssert (x >>= f) := by
  cases x with
  | error e => 
    rintro e' heq
    cases heq
    exact hx e rfl
  | ok a => exact hf a rfl

theorem FailsNoAssert.tryCatch {x : Except EvalError Unit} (hx : FailsNoAssert x)
    {f : EvalError → EvalError} (hf : ∀ e, (f e).kind = e.kind) :
    FailsNoAssert (tryCatch x fun e => throw (f e)) := by
  cases x with
  | error e =>
    rintro e' heq
    cases heq
    rw [hf]
    exact hx e rfl
  | ok u => exact failsNoAssert_ok u

theorem FailsNoAssert.forM {n : Nat} {f : Fin n → Except EvalError Unit}
    (h : ∀ i, (∀ j < i, f j = .ok ()) → FailsNoAssert (f i)) :
    FailsNoAssert ((List.finRange n).forM f) := by
  intro e heq
  obtain ⟨i, hbefore, hi⟩ := finRange_forM_eq_error heq
  exact h i hbefore e hi

theorem FailsNoAssert.allM {α : Type} {p : α → Except EvalError Bool} {l : List α}
    (h : ∀ a ∈ l, FailsNoAssert (p a)) : FailsNoAssert (l.allM p) := by
  induction l with
  | nil => exact failsNoAssert_ok true
  | cons a l ih =>
    obtain ⟨ha, hl⟩ := List.forall_mem_cons.mp h
    rw [List.allM]
    refine ha.bind fun b _ => ?_
    cases b with
    | true => exact ih hl
    | false => exact failsNoAssert_ok false

variable {state : EvalState F}

theorem failsNoAssert_eqValues (callDepth : Nat) (v₁ v₂ : Value F) :
    FailsNoAssert (state.eqValues callDepth v₁ v₂) := by
  induction v₁ using Value.isPart_induction generalizing callDepth v₂ with
  | parts v₁ ih =>
    rw [eqValues.eq_def]
    refine (failsNoAssert_addCallDepth state callDepth).bind fun _ _ => ?_
    dsimp only
    split
    · exact failsNoAssert_ok true
    cases v₁ <;> cases v₂
    case list.list a₁ size₁ elem₁ a₂ size₂ elem₂ =>
      dsimp only
      split
      · exact .allM fun n _ => ih _ (.inl ⟨_, _, _, n, rfl, rfl⟩) _ _
      · exact failsNoAssert_ok false
    case attrs.attrs a₁ names₁ pos₁ value₁ a₂ names₂ pos₂ value₂ =>
      dsimp only
      split
      · exact ih _ (.inr ⟨_, _, _, _, _, rfl, rfl⟩) _ _
      · split
        · refine .allM fun i _ => ?_
          split
          · exact failsNoAssert_ok false
          · exact ih _ (.inr ⟨_, _, _, _, i, rfl, rfl⟩) _ _
        · exact failsNoAssert_ok false
    all_goals exact failsNoAssert_ok _

theorem failsNoAssert_assertSameName {v₁ v₂ : Value F} {names₁ names₂ : Names}
    (hlen : names₁.elems.length = names₂.elems.length) (i : Fin names₁.elems.length)
    (hbefore : ∀ j < i, names₁.elems.get j = names₂.elems.get (j.cast hlen)) :
    FailsNoAssert (state.assertSameName v₁ v₂ (names₁, names₁.elems.get i)
      (names₂, names₂.elems.get (i.cast hlen))) := by
  unfold assertSameName
  dsimp only
  split
  next hne =>
    split
    · exact failsNoAssert_assertionError _ _
    next h₁ =>
      split
      · exact failsNoAssert_assertionError _ _
      next h₂ =>
        have hmem₁ : names₁.elems.get i ∈ names₂.elems := by
          rwa [Bool.not_eq_true, Option.isNone_eq_false_iff, Names.isSome_get] at h₁
        have hmem₂ : names₂.elems.get (i.cast hlen) ∈ names₁.elems := by
          rwa [Bool.not_eq_true, Option.isNone_eq_false_iff, Names.isSome_get] at h₂
        rcases Nat.lt_or_gt_of_ne hne with hlt | hlt
        · have hfirst : ∀ j₂ < i.cast hlen, ∃ j₁ < i, names₁.elems.get j₁ = names₂.elems.get j₂ :=
            fun j₂ hj => ⟨j₂.cast hlen.symm, hj, hbefore _ hj⟩
          exact absurd hmem₁ (Names.notMem_of_first hfirst hlt)
        · have hfirst : ∀ j₁ < i, ∃ j₂ < i.cast hlen, names₂.elems.get j₂ = names₁.elems.get j₁ :=
            fun j₁ hj => ⟨j₁.cast hlen, hj, (hbefore _ hj).symm⟩
          exact absurd hmem₂ (Names.notMem_of_first hfirst hlt)
  next => exact failsNoAssert_ok ()

theorem addTrace_kind (e : EvalError) (pos : PosIdx) (format : String) (args : List Bytes) :
    (e.addTrace pos format args).kind = e.kind := rfl

theorem addAttrTraces_kind (pos : PosIdx) (name : Symbol) (pos₁ pos₂ : PosIdx) (e : EvalError) :
    (state.addAttrTraces pos name pos₁ pos₂ e).kind = e.kind := by
  unfold addAttrTraces
  split <;> split <;> rfl

theorem failsNoAssert_assertEqValues (pos : PosIdx) (callDepth : Nat) (v₁ v₂ : Value F) :
    FailsNoAssert (state.assertEqValues pos callDepth v₁ v₂) := by
  induction v₁ using Value.isPart_induction generalizing callDepth v₂ with
  | parts v₁ ih =>
    rw [assertEqValues.eq_def]
    refine (failsNoAssert_addCallDepth state callDepth).bind fun _ _ => ?_
    dsimp only
    split
    · exact failsNoAssert_ok ()
    split
    · refine (failsNoAssert_eqValues _ v₁ v₂).bind fun b _ => ?_
      split
      · exact failsNoAssert_ok ()
      · exact failsNoAssert_assertionError _ _
    split
    · exact failsNoAssert_assertionError _ _
    next htype =>
    have hsame := not_not.mp htype
    cases v₁ <;> cases v₂
    case list.list a₁ size₁ elem₁ a₂ size₂ elem₂ =>
      dsimp only
      split
      · refine .forM fun n _ => .tryCatch ?_ fun e => addTrace_kind ..
        exact ih _ (.inl ⟨_, _, _, n, rfl, rfl⟩) _ _
      · exact failsNoAssert_assertionError _ _
    case attrs.attrs a₁ names₁ pos₁ value₁ a₂ names₂ pos₂ value₂ =>
      dsimp only
      split
      · rw [returnOrThrow_eq]
        refine .tryCatch ?_ fun e => addTrace_kind ..
        exact ih _ (.inr ⟨_, _, _, _, _, rfl, rfl⟩) _ _
      · split
        next hlen =>
          refine .forM fun i hbefore => ?_
          refine (failsNoAssert_assertSameName hlen i fun j hj => ?_).bind fun _ _ => ?_
          · have hj := hbefore j hj
            rw [bind_eq_ok_iff, assertSameName_eq_ok_iff] at hj
            exact hj.1
          · refine .tryCatch ?_ fun e => addAttrTraces_kind ..
            exact ih _ (.inr ⟨_, _, _, _, i, rfl, rfl⟩) _ _
        · exact failsNoAssert_assertionError _ _
    all_goals try (cases hsame; done)
    case path.path =>
      dsimp only
      split
      · exact failsNoAssert_assertionError _ _
      · split
        · exact failsNoAssert_assertionError _ _
        · exact failsNoAssert_ok ()
    case null.null => exact failsNoAssert_ok ()
    case function.function => exact failsNoAssert_assertionError _ _
    all_goals
      dsimp only
      split
      · exact failsNoAssert_assertionError _ _
      · exact failsNoAssert_ok ()

/-! ### The two comparisons agree -/

/-- All pairs that are compared are the same and none is too deep, but a pair of numbers is as
deep as calls may be. -/
def NumbersAtLimit (state : EvalState F) (callDepth : Nat) (v₁ v₂ : Value F) : Prop :=
  (∀ k w₁ w₂, state.Reaches k v₁ v₂ w₁ w₂ → callDepth + k ≤ state.maxCallDepth ∧
    (w₁.address ≠ w₂.address → state.SameShape w₁ w₂)) ∧
  ∃ k w₁ w₂, state.Reaches k v₁ v₂ w₁ w₂ ∧ w₁.address ≠ w₂.address ∧
    (w₁.isNumber ∧ w₂.isNumber) ∧ callDepth + k = state.maxCallDepth

/-- Values that `assertEqValues` accepts are equal, and equal values are accepted unless numbers
are at the limit. No `assert` fails. -/
theorem assertEqValues_matches (state : EvalState F) (pos : PosIdx) (callDepth : Nat)
    (v₁ v₂ : Value F) :
    ((state.eqValues callDepth v₁ v₂ = .ok true ↔
        state.assertEqValues pos callDepth v₁ v₂ = .ok ()) ↔
      ¬ state.NumbersAtLimit callDepth v₁ v₂) ∧
    FailsNoAssert (state.assertEqValues pos callDepth v₁ v₂) := by
  refine ⟨?_, failsNoAssert_assertEqValues pos callDepth v₁ v₂⟩
  rw [eqValues_eq_true_iff_reaches, assertEqValues_eq_ok_iff_reaches]
  constructor
  · rintro hiff ⟨hall, k, w₁, w₂, hreach, ha, hnumbers, hlimit⟩
    have hdeeper := ((hiff.mp hall k w₁ w₂ hreach).2 ha).2 hnumbers
    rw [hlimit] at hdeeper
    exact Nat.not_succ_le_self _ hdeeper
  · intro hlimit
    constructor
    · intro hall k w₁ w₂ hreach
      refine ⟨(hall k w₁ w₂ hreach).1, fun ha => ⟨(hall k w₁ w₂ hreach).2 ha, fun hnumbers => ?_⟩⟩
      have hle := (hall k w₁ w₂ hreach).1
      have hne : callDepth + k ≠ state.maxCallDepth := fun heq =>
        hlimit ⟨hall, k, w₁, w₂, hreach, ha, hnumbers, heq⟩
      exact Nat.lt_of_le_of_ne hle hne
    · intro hall k w₁ w₂ hreach
      exact ⟨(hall k w₁ w₂ hreach).1, fun ha => ((hall k w₁ w₂ hreach).2 ha).1⟩

/-- An evaluator with the default limit; there are no floats. -/
def defaultState : EvalState Int64 where
  maxCallDepth := 10000
  type := 1
  outPath := 2
  floatEq x y := x == y
  ofInt := id
  symbols _ := []
  print _ := []
  printFloat _ := []
  showType _ := []

/-- Two numbers that are the same, in the last call that is allowed. -/
theorem assertEqValues_numbersAtLimit :
    ¬ (defaultState.eqValues 10000 (.int 0 1) (.int 1 1) = .ok true ↔
      defaultState.assertEqValues 0 10000 (.int 0 1) (.int 1 1) = .ok ()) := by
  decide

end EvalState

end Nix.Eval.ValueEquality
