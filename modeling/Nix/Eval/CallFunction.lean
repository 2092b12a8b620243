import Nix.Eval.LayeredBindings
import Nix.Lib.SortedMaps
import Nix.Util.Types

/-!
How the evaluator calls a function with a list of arguments.
-/

set_option linter.dupNamespace false

namespace Nix.Eval.CallFunction

open Util.Types Lib.SortedList
open Eval.LayeredBindings (Symbol PosIdx)

def noPos : PosIdx := 0

def maxPrimOpArity : Nat := 8

/-- `PrimOp::check` and `addPrimOp`, which makes a constant a primop of one argument, bound the
arity. -/
structure PrimOp where
  name : Bytes
  arity : Nat
  addTrace : Bool := true
  pos : 0 < arity
  le : arity ≤ maxPrimOpArity

/-- A primop, or its application to some arguments. -/
inductive AppChain (Ptr : Type)
  | primOp (p : PrimOp)
  | primOpApp (left : AppChain Ptr) (right : Ptr)

namespace AppChain

variable {Ptr : Type}

def primOpOf : AppChain Ptr → PrimOp
  | primOp p => p
  | primOpApp left _ => left.primOpOf

def argsDone : AppChain Ptr → Nat
  | primOp _ => 0
  | primOpApp left _ => left.argsDone + 1

end AppChain

/-- A chain that needs more arguments. -/
@[ext] structure PartialApp (Ptr : Type) where
  chain : AppChain Ptr
  lt : chain.argsDone < chain.primOpOf.arity

/-- The formal arguments, which the parser sorts, and of which it rejects duplicates. Some have a
default. -/
structure Formals (Expr : Type) where
  formals : SortedMap (compare : Symbol → Symbol → Ordering) (Option Expr)
  ellipsis : Bool

structure ExprLambda (Expr : Type) where
  pos : PosIdx
  name : Option Symbol
  arg : Option Symbol
  formals : Option (Formals Expr)
  body : Expr

/-- The values of a set with their positions. -/
abbrev Bindings (Ptr : Type) := SortedMap (compare : Symbol → Symbol → Ordering) (Ptr × PosIdx)

/-- A value in normal form, whose parts are in cells of type `Ptr`. -/
inductive Value (Ptr Env Expr : Type)
  | lambda (fn : ExprLambda Expr) (env : Env)
  | builtin (app : PartialApp Ptr)
  | attrs (attrs : Bindings Ptr)
  /-- A value of any other type. -/
  | data (id : Nat)

/-- What a `Value &` refers to: a cell, which may hold a thunk, or a value in normal form. -/
inductive Ref (Ptr Env Expr : Type)
  | cell (p : Ptr)
  | value (v : Value Ptr Env Expr)

/-- A value of an environment. The thunk of a default has the same environment. -/
inductive Slot (Ptr Expr : Type)
  | given (p : Ptr)
  | default (e : Expr)

inductive ErrorKind
  | typeError
  | stackOverflowError
  /-- An error of another class. -/
  | other
  deriving DecidableEq

/-- A frame of a trace: where, and what was done there. -/
structure Trace where
  pos : PosIdx
  hint : HintFmt
  deriving DecidableEq

structure EvalError where
  kind : ErrorKind
  msg : HintFmt
  pos : PosIdx := noPos
  traces : List Trace := []
  suggestions : List Bytes := []
  deriving DecidableEq

def EvalError.withTrace (pos : PosIdx) (format : String) (args : List Bytes) (e : EvalError) :
    EvalError :=
  { e with traces := ⟨pos, ⟨format, args⟩⟩ :: e.traces }

inductive Failure
  | error (e : EvalError)
  | unreachable
  /-- A use of memory outside of `vArgs`, or before it is written. -/
  | invalidMemory
  deriving DecidableEq

def Failure.mapError (f : EvalError → EvalError) : Failure → Failure
  | error e => error (f e)
  | e => e

/-- Evaluation in a state of type `σ`, which remains when there is an exception. -/
abbrev Action (σ α : Type) := ExceptT EvalError (StateM σ) α

abbrev CallAction (σ α : Type) := ExceptT Failure (StateM σ) α

variable {σ α Ptr Env Expr : Type}

def evaluate (x : Action σ α) : CallAction σ α :=
  ExceptT.adapt Failure.error x

/-- `catch (Error & e)`, which changes the error and throws it again. -/
def onError (f : EvalError → EvalError) (x : CallAction σ α) : CallAction σ α :=
  ExceptT.adapt (Failure.mapError f) x

/-- What `callFunction` uses of an `EvalState`. The depth is the number of calls around. -/
structure EvalState (σ Ptr Env Expr : Type) where
  maxCallDepth : Nat
  showTrace : Bool
  /-- `s.functor`. -/
  functor : Symbol
  symbols : Symbol → Bytes
  bestMatches : List Bytes → Bytes → List Bytes
  showType : Value Ptr Env Expr → Bytes
  /-- `ValuePrinter`, with `errorPrintOptions`. -/
  print : Value Ptr Env Expr → σ → Bytes
  alloc : Value Ptr Env Expr → σ → Ptr × σ
  /-- `forceValue` of a cell. -/
  forceCell : Nat → Ptr → PosIdx → Action σ (Value Ptr Env Expr)
  /-- `body->eval` in an environment with these values. -/
  evalBody : Nat → ExprLambda Expr → Env → List (Slot Ptr Expr) → Action σ (Value Ptr Env Expr)
  /-- `impl`, which reads as many arguments as its arity. -/
  impl : Nat → PrimOp → List Ptr → Action σ (Value Ptr Env Expr)

namespace EvalState

variable (state : EvalState σ Ptr Env Expr)

def forceValue (callDepth : Nat) (pos : PosIdx) :
    Ref Ptr Env Expr → CallAction σ (Value Ptr Env Expr)
  | .cell p => evaluate (state.forceCell callDepth p pos)
  | .value v => pure v

def raise (e : EvalError) : CallAction σ α :=
  throw (.error e)

def throwPrinted (v : Value Ptr Env Expr) (e : Bytes → EvalError) : CallAction σ α := do
  let st ← get
  raise (e (state.print v st))

def allocValue (v : Value Ptr Env Expr) : CallAction σ Ptr :=
  ExceptT.lift (state.alloc v)

def notFunction (v : Value Ptr Env Expr) (pos : PosIdx) : CallAction σ α :=
  state.throwPrinted v fun printed =>
    { kind := .typeError
      msg := ⟨"attempt to call something which is not a function but %1%: %2%",
        [state.showType v, printed]⟩
      pos }

def forceAttrs (callDepth : Nat) (p : Ptr) (pos : PosIdx) (errorCtx : String) :
    CallAction σ (Bindings Ptr) := do
  match ← state.forceValue callDepth pos (.cell p) with
  | .attrs attrs => return attrs
  | v =>
      state.throwPrinted v fun printed =>
        EvalError.withTrace pos errorCtx []
          { kind := .typeError
            msg := ⟨"expected a set but found %1%: %2%", [state.showType v, printed]⟩ }

def lambdaName (lambda : ExprLambda Expr) : Bytes :=
  match lambda.name with
  | some name => state.symbols name
  | none => str "anonymous lambda"

/-- An error about an argument of a lambda, at the position of the lambda. -/
def argumentError (lambda : ExprLambda Expr) (pos : PosIdx) (format : String) (name : Symbol)
    (suggestions : List Bytes) : EvalError :=
  EvalError.withTrace pos "from call site" []
    { kind := .typeError
      msg := ⟨format, [state.lambdaName lambda, state.symbols name]⟩
      pos := lambda.pos
      suggestions }

/-- The values of the formal arguments, with the number of attributes used. -/
def matchFormals (lambda : ExprLambda Expr) (pos : PosIdx) (attrs : Bindings Ptr) :
    List (Symbol × Option Expr) → List (Slot Ptr Expr) → Nat →
      CallAction σ (List (Slot Ptr Expr) × Nat)
  | [], slots, attrsUsed => return (slots, attrsUsed)
  | (name, default) :: formals, slots, attrsUsed =>
      match attrs.find? name with
      | some (p, _) => matchFormals lambda pos attrs formals (slots ++ [.given p]) (attrsUsed + 1)
      | none =>
          match default with
          | none => raise (state.argumentError lambda pos
              "function '%1%' called without required argument '%2%'" name [])
          | some e => matchFormals lambda pos attrs formals (slots ++ [.default e]) attrsUsed

def bindArgument (callDepth : Nat) (lambda : ExprLambda Expr) (pos : PosIdx) (arg : Ptr) :
    CallAction σ (List (Slot Ptr Expr)) :=
  match lambda.formals with
  | none => return [.given arg]
  | some formals => do
      let attrs ← onError
        (fun e => if pos = noPos then e else e.withTrace pos "from call site" [])
        (state.forceAttrs callDepth arg lambda.pos
          "while evaluating the value passed for the lambda argument")
      let (slots, attrsUsed) ← state.matchFormals lambda pos attrs formals.formals.elems
        (if lambda.arg.isSome then [.given arg] else []) 0
      if !formals.ellipsis ∧ attrsUsed ≠ attrs.elems.length then
        match attrs.elems.find? fun i => !formals.formals.contains i.1 with
        | some i =>
            let formalNames := formals.formals.elems.map fun formal => state.symbols formal.1
            raise (state.argumentError lambda pos
              "function '%1%' called with unexpected argument '%2%'" i.1
              (state.bestMatches formalNames (state.symbols i.1)))
        | none => throw .unreachable
      else return slots

def callLambda (callDepth : Nat) (lambda : ExprLambda Expr) (env : Env) (pos : PosIdx)
    (arg : Ptr) : CallAction σ (Value Ptr Env Expr) := do
  let slots ← state.bindArgument callDepth lambda pos arg
  let shown := match lambda.name with
    | some name => str "'" ++ state.symbols name ++ str "'"
    | none => str "anonymous lambda"
  onError
    (fun e =>
      if state.showTrace then
        let e := e.withTrace lambda.pos "while calling %s" [shown]
        if pos = noPos then e else e.withTrace pos "from call site" []
      else e)
    (evaluate (state.evalBody callDepth lambda env slots))

def callPrimOp (callDepth : Nat) (p : PrimOp) (pos : PosIdx) (args : List Ptr) :
    CallAction σ (Value Ptr Env Expr) :=
  onError
    (fun e => if p.addTrace then e.withTrace pos "while calling the '%1%' builtin" [p.name] else e)
    (evaluate (state.impl callDepth p args))

end EvalState

/-- `makeAppChain`. -/
def AppChain.extend : AppChain Ptr → List Ptr → AppChain Ptr
  | chain, [] => chain
  | chain, arg :: args => extend (.primOpApp chain arg) args

/-- `vArgs`, whose values are written later. -/
abbrev Buffer (Ptr : Type) := List (Option Ptr)

/-- `vArgs[n] = arg`. -/
def Buffer.write (vArgs : Buffer Ptr) (n : Nat) (arg : Ptr) : Option (Buffer Ptr) :=
  if n < vArgs.length then some (vArgs.set n (some arg)) else none

/-- The arguments of the chain are written from the back. -/
def AppChain.fill : AppChain Ptr → Nat → Buffer Ptr → Option (Buffer Ptr)
  | primOp _, _, vArgs => some vArgs
  | primOpApp _ _, 0, _ => none
  | primOpApp left right, n + 1, vArgs => (vArgs.write n right).bind (left.fill n)

/-- `vArgs[argsDone + i] = args[i]` for the arguments that are left. -/
def Buffer.writeAll : Buffer Ptr → Nat → List Ptr → Option (Buffer Ptr)
  | vArgs, _, [] => some vArgs
  | vArgs, n, arg :: args => (vArgs.write n arg).bind (writeAll · (n + 1) args)

def Buffer.read (vArgs : Buffer Ptr) (arity : Nat) : Option (List Ptr) :=
  if arity ≤ vArgs.length then (vArgs.take arity).mapM id else none

def AppChain.gather (chain : AppChain Ptr) (args : List Ptr) : Option (List Ptr) := do
  let vArgs ← chain.fill chain.argsDone (List.replicate maxPrimOpArity none)
  let vArgs ← vArgs.writeAll chain.argsDone args
  vArgs.read chain.primOpOf.arity

theorem AppChain.primOpOf_extend (chain : AppChain Ptr) (args : List Ptr) :
    (chain.extend args).primOpOf = chain.primOpOf := by
  induction args generalizing chain with
  | nil => rfl
  | cons arg args ih => exact ih (.primOpApp chain arg)

theorem AppChain.argsDone_extend (chain : AppChain Ptr) (args : List Ptr) :
    (chain.extend args).argsDone = chain.argsDone + args.length := by
  induction args generalizing chain with
  | nil => rfl
  | cons arg args ih =>
    rw [AppChain.extend, ih, AppChain.argsDone, List.length_cons]
    omega

/-- The chain with more arguments, as long as they do not suffice. -/
def PartialApp.extend (app : PartialApp Ptr) (args : List Ptr)
    (h : args.length < app.chain.primOpOf.arity - app.chain.argsDone) : PartialApp Ptr where
  chain := app.chain.extend args
  lt := by
    rw [AppChain.primOpOf_extend, AppChain.argsDone_extend]
    omega

namespace EvalState

variable (state : EvalState σ Ptr Env Expr)

/-- The loop of `callFunction`, inside of which functors are called by `call`. -/
def applyArgs (call : Ref Ptr Env Expr → List Ptr → PosIdx → CallAction σ (Value Ptr Env Expr))
    (callDepth : Nat) (pos : PosIdx) :
    Value Ptr Env Expr → List Ptr → CallAction σ (Value Ptr Env Expr)
  | vCur, [] => return vCur
  | .lambda lambda env, arg :: args => do
      let vCur ← state.callLambda callDepth lambda env pos arg
      applyArgs call callDepth pos vCur args
  | .builtin ⟨.primOp p, hlt⟩, arg :: args =>
      let argsLeft := p.arity
      if h : (arg :: args).length < argsLeft then
        return .builtin (PartialApp.extend ⟨.primOp p, hlt⟩ (arg :: args) h)
      else do
        let vCur ← state.callPrimOp callDepth p pos ((arg :: args).take argsLeft)
        applyArgs call callDepth pos vCur ((arg :: args).drop argsLeft)
  | .builtin ⟨.primOpApp left right, hlt⟩, arg :: args =>
      let chain : AppChain Ptr := .primOpApp left right
      let argsLeft := chain.primOpOf.arity - chain.argsDone
      if h : (arg :: args).length < argsLeft then
        return .builtin (PartialApp.extend ⟨chain, hlt⟩ (arg :: args) h)
      else
        match chain.gather ((arg :: args).take argsLeft) with
        | none => throw .invalidMemory
        | some vArgs => do
            let vCur ← state.callPrimOp callDepth chain.primOpOf pos vArgs
            applyArgs call callDepth pos vCur ((arg :: args).drop argsLeft)
  | .attrs attrs, arg :: args =>
      match attrs.find? state.functor with
      | some (functor, functorPos) => do
          let self ← state.allocValue (.attrs attrs)
          let vCur ← onError
            (·.withTrace pos
              "while calling a functor (an attribute set with a '__functor' attribute)" [])
            (call (.cell functor) [self, arg] functorPos)
          applyArgs call callDepth pos vCur args
      | none => state.notFunction (.attrs attrs) pos
  | .data id, _ :: _ => state.notFunction (.data id) pos
termination_by _ args => args.length
decreasing_by
  · exact Nat.lt_succ_self _
  · rw [List.length_drop]
    exact Nat.sub_lt (Nat.succ_pos _) p.pos
  · rw [List.length_drop]
    exact Nat.sub_lt (Nat.succ_pos _) (Nat.sub_pos_of_lt hlt)
  · exact Nat.lt_succ_self _

/-- There are `callDepth` calls around this one. -/
def callFunction (callDepth : Nat) (fn : Ref Ptr Env Expr) (args : List Ptr) (pos : PosIdx) :
    CallAction σ (Value Ptr Env Expr) :=
  if state.maxCallDepth < callDepth then
    raise
      { kind := .stackOverflowError
        msg := ⟨"stack overflow; max-call-depth exceeded", []⟩
        pos }
  else do
    let vCur ← state.forceValue (callDepth + 1) pos fn
    state.applyArgs (callFunction (callDepth + 1)) (callDepth + 1) pos vCur args
termination_by state.maxCallDepth + 1 - callDepth
decreasing_by omega

end EvalState

end Nix.Eval.CallFunction
