import Mathlib.Data.List.Perm.Basic
import Nix.Eval.CallFunction

/-!
A call with many arguments is as many calls with one argument.
-/

set_option linter.dupNamespace false

namespace Nix.Eval.CallFunction

open Util.Types Lib.SortedList
open Eval.LayeredBindings (Symbol PosIdx)

variable {σ α β Ptr Env Expr : Type}

/-- The arguments of a chain, in the order of the source. -/
def AppChain.args : AppChain Ptr → List Ptr
  | primOp _ => []
  | primOpApp left right => left.args ++ [right]

theorem AppChain.length_args (chain : AppChain Ptr) : chain.args.length = chain.argsDone := by
  induction chain with
  | primOp p => rfl
  | primOpApp left right ih => rw [args, List.length_append, ih]; rfl

theorem AppChain.args_extend (chain : AppChain Ptr) (args : List Ptr) :
    (chain.extend args).args = chain.args ++ args := by
  induction args generalizing chain with
  | nil => rw [extend, List.append_nil]
  | cons arg args ih => rw [extend, ih, AppChain.args, List.append_assoc, List.singleton_append]

theorem AppChain.extend_append (chain : AppChain Ptr) (args args' : List Ptr) :
    chain.extend (args ++ args') = (chain.extend args).extend args' := by
  induction args generalizing chain with
  | nil => rfl
  | cons arg args ih => exact ih (.primOpApp chain arg)

theorem drop_set_self {vArgs : Buffer Ptr} {n : Nat} (h : n < vArgs.length) (arg : Option Ptr) :
    (vArgs.set n arg).drop n = arg :: vArgs.drop (n + 1) := by
  rw [List.drop_set, if_neg (Nat.lt_irrefl n), Nat.sub_self, List.drop_eq_getElem_cons h]
  rfl

theorem AppChain.fill_eq_some (chain : AppChain Ptr) {vArgs : Buffer Ptr}
    (h : chain.argsDone ≤ vArgs.length) :
    chain.fill chain.argsDone vArgs =
      some (chain.args.map some ++ vArgs.drop chain.argsDone) := by
  induction chain generalizing vArgs with
  | primOp p => rfl
  | primOpApp left right ih =>
    have hlt : left.argsDone < vArgs.length := h
    have hfill : left.fill left.argsDone (vArgs.set left.argsDone (some right)) = _ :=
      ih (by rw [List.length_set]; exact Nat.le_of_lt hlt)
    rw [argsDone, fill, Buffer.write, if_pos hlt, Option.bind_some, hfill, drop_set_self hlt, args,
      List.map_append, List.append_assoc]
    rfl

theorem Buffer.writeAll_eq_some (args : List Ptr) (before after : Buffer Ptr)
    (h : args.length ≤ after.length) :
    Buffer.writeAll (before ++ after) before.length args =
      some (before ++ args.map some ++ after.drop args.length) := by
  induction args generalizing before after with
  | nil => rw [writeAll, List.map_nil, List.append_nil]; rfl
  | cons arg args ih =>
    cases after with
    | nil => cases h
    | cons slot after =>
      have hlt : before.length < (before ++ slot :: after).length := by simp
      have hset : (before ++ slot :: after).set before.length (some arg) =
          (before ++ [some arg]) ++ after := by
        rw [List.set_append_right _ _ (Nat.le_refl _), Nat.sub_self, List.set_cons_zero,
          List.append_assoc, List.singleton_append]
      have hall := ih (before ++ [some arg]) after (Nat.le_of_succ_le_succ h)
      rw [List.length_append, List.length_singleton] at hall
      rw [writeAll, write, if_pos hlt, Option.bind_some, hset, hall]
      simp

theorem mapM_id_map_some (l : List Ptr) : (l.map some).mapM id = some l := by
  induction l with
  | nil => rfl
  | cons a l ih => rw [List.map_cons, List.mapM_cons, ih]; rfl

theorem AppChain.gather_eq_some (chain : AppChain Ptr) {args : List Ptr}
    (h : chain.argsDone + args.length = chain.primOpOf.arity) :
    chain.gather args = some (chain.args ++ args) := by
  have hle : chain.primOpOf.arity ≤ maxPrimOpArity := chain.primOpOf.le
  have hfill : chain.fill chain.argsDone (List.replicate maxPrimOpArity none) =
      some (chain.args.map some ++ (List.replicate maxPrimOpArity none).drop chain.argsDone) :=
    chain.fill_eq_some (by rw [List.length_replicate]; omega)
  have hall := Buffer.writeAll_eq_some args (chain.args.map some)
    ((List.replicate maxPrimOpArity none).drop chain.argsDone)
    (by rw [List.length_drop, List.length_replicate]; omega)
  rw [List.length_map, AppChain.length_args] at hall
  have hlength : chain.primOpOf.arity = ((chain.args ++ args).map some).length := by
    rw [List.length_map, List.length_append, AppChain.length_args, h]
  have hread : (chain.args.map some ++ args.map some ++
      ((List.replicate maxPrimOpArity none).drop chain.argsDone).drop args.length).length =
        maxPrimOpArity := by
    simp [AppChain.length_args]
    omega
  rw [gather, hfill, Option.bind_eq_bind, Option.bind_some, hall, Option.bind_some, Buffer.read,
    if_pos (hle.trans_eq hread.symm), ← List.map_append, hlength, List.take_left,
    mapM_id_map_some]

namespace PartialApp

def argsLeft (app : PartialApp Ptr) : Nat := app.chain.primOpOf.arity - app.chain.argsDone

theorem argsLeft_pos (app : PartialApp Ptr) : 0 < app.argsLeft := Nat.sub_pos_of_lt app.lt

theorem argsLeft_extend (app : PartialApp Ptr) {args : List Ptr} (h : args.length < app.argsLeft) :
    (app.extend args h).argsLeft = app.argsLeft - args.length := by
  show (app.chain.extend args).primOpOf.arity - (app.chain.extend args).argsDone = _
  rw [AppChain.primOpOf_extend, AppChain.argsDone_extend, argsLeft]
  omega

theorem extend_append (app : PartialApp Ptr) {args args' : List Ptr}
    (h : args.length < app.argsLeft) (h' : args'.length < (app.extend args h).argsLeft)
    (happend : (args ++ args').length < app.argsLeft) :
    app.extend (args ++ args') happend = (app.extend args h).extend args' h' :=
  PartialApp.ext (app.chain.extend_append args args')

end PartialApp

variable {state : EvalState σ Ptr Env Expr}
  {call : Ref Ptr Env Expr → List Ptr → PosIdx → CallAction σ (Value Ptr Env Expr)}
  {callDepth : Nat} {pos : PosIdx}

theorem applyArgs_nil (v : Value Ptr Env Expr) :
    state.applyArgs call callDepth pos v [] = pure v := by
  rw [EvalState.applyArgs]

theorem applyArgs_builtin (app : PartialApp Ptr) {args : List Ptr} (hne : args ≠ []) :
    state.applyArgs call callDepth pos (.builtin app) args =
      if h : args.length < app.argsLeft then pure (.builtin (app.extend args h))
      else
        (state.callPrimOp callDepth app.chain.primOpOf pos
          (app.chain.args ++ args.take app.argsLeft) >>= fun v =>
            state.applyArgs call callDepth pos v (args.drop app.argsLeft)) := by
  obtain ⟨arg, args, rfl⟩ := List.exists_cons_of_ne_nil hne
  obtain ⟨chain, hlt⟩ := app
  cases chain with
  | primOp p => rw [EvalState.applyArgs]; rfl
  | primOpApp left right =>
    rw [EvalState.applyArgs]
    refine dite_congr rfl (fun _ => rfl) fun h => ?_
    have hlength : ((arg :: args).take (PartialApp.argsLeft ⟨_, hlt⟩)).length =
        PartialApp.argsLeft ⟨_, hlt⟩ := List.length_take_of_le (Nat.le_of_not_lt h)
    have hgather := AppChain.gather_eq_some (.primOpApp left right)
      ((congrArg _ hlength).trans (Nat.add_sub_cancel' (Nat.le_of_lt hlt)))
    simp only [PartialApp.argsLeft] at hgather
    simp only [hgather]
    rfl

theorem raise_bind (e : EvalError) (f : α → CallAction σ β) :
    ((EvalState.raise e : CallAction σ α) >>= f) = EvalState.raise e := rfl

theorem notFunction_bind (v : Value Ptr Env Expr) (f : α → CallAction σ β) :
    (state.notFunction v pos >>= f) = state.notFunction v pos := rfl

theorem applyArgs_builtin_append (app : PartialApp Ptr) {args : List Ptr} (hne : args ≠ [])
    (args' : List Ptr)
    (ih : ∀ v, ∀ rest : List Ptr, rest.length < args.length →
      state.applyArgs call callDepth pos v (rest ++ args') =
        (state.applyArgs call callDepth pos v rest >>= fun v =>
          state.applyArgs call callDepth pos v args')) :
    state.applyArgs call callDepth pos (.builtin app) (args ++ args') =
      (state.applyArgs call callDepth pos (.builtin app) args >>= fun v =>
        state.applyArgs call callDepth pos v args') := by
  have hpos : 0 < app.argsLeft := app.argsLeft_pos
  have hlength : 0 < args.length := List.length_pos_iff.mpr hne
  have hpure : ∀ {app app' : PartialApp Ptr}, app = app' →
      (pure (.builtin app) : CallAction σ (Value Ptr Env Expr)) = pure (.builtin app') :=
    fun h => congrArg _ (congrArg _ h)
  rw [applyArgs_builtin app (List.append_ne_nil_of_left_ne_nil hne args'),
    applyArgs_builtin app hne]
  by_cases h : args.length < app.argsLeft
  · rw [dif_pos h, pure_bind]
    cases args' with
    | nil =>
      rw [applyArgs_nil, dif_pos (by rwa [List.append_nil])]
      exact hpure (PartialApp.ext (congrArg app.chain.extend (List.append_nil args)))
    | cons arg args' =>
      have hleft : (app.extend args h).argsLeft = app.argsLeft - args.length :=
        app.argsLeft_extend h
      rw [applyArgs_builtin (app.extend args h) (List.cons_ne_nil arg args')]
      by_cases h' : (arg :: args').length < (app.extend args h).argsLeft
      · rw [dif_pos h', dif_pos (by rw [List.length_append]; omega)]
        exact hpure (app.extend_append h h' _)
      · rw [dif_neg h', dif_neg (by rw [List.length_append]; omega), hleft]
        have hprimOp : (app.extend args h).chain.primOpOf = app.chain.primOpOf :=
          app.chain.primOpOf_extend args
        have hargs : (app.extend args h).chain.args = app.chain.args ++ args :=
          app.chain.args_extend args
        rw [hprimOp, hargs, List.take_append, List.take_of_length_le (Nat.le_of_lt h),
          List.drop_append, List.drop_eq_nil_of_le (Nat.le_of_lt h), List.append_assoc]
        rfl
  · have hle : app.argsLeft ≤ args.length := Nat.le_of_not_lt h
    rw [dif_neg h, dif_neg (by rw [List.length_append]; omega), bind_assoc,
      List.take_append_of_le_length hle, List.drop_append_of_le_length hle]
    congr 1
    funext v
    exact ih v _ (by rw [List.length_drop]; omega)

theorem applyArgs_append (v : Value Ptr Env Expr) (args args' : List Ptr) :
    state.applyArgs call callDepth pos v (args ++ args') =
      (state.applyArgs call callDepth pos v args >>= fun v =>
        state.applyArgs call callDepth pos v args') := by
  induction hlength : args.length using Nat.strongRecOn generalizing args v with
  | ind n ih =>
  subst hlength
  cases args with
  | nil => rw [applyArgs_nil, pure_bind]; rfl
  | cons arg args =>
    have hrest : ∀ v, state.applyArgs call callDepth pos v (args ++ args') =
        (state.applyArgs call callDepth pos v args >>= fun v =>
          state.applyArgs call callDepth pos v args') :=
      fun v => ih args.length (Nat.lt_succ_self _) v args rfl
    cases v with
    | lambda lambda env =>
      rw [List.cons_append, EvalState.applyArgs, EvalState.applyArgs, bind_assoc]
      congr 1
      funext v
      exact hrest v
    | builtin app =>
      exact applyArgs_builtin_append app (List.cons_ne_nil arg args) args'
        fun v rest hlt => ih rest.length hlt v rest rfl
    | attrs attrs =>
      rw [List.cons_append, EvalState.applyArgs, EvalState.applyArgs]
      cases attrs.find? state.functor with
      | none => exact (notFunction_bind _ _).symm
      | some functor =>
        simp only [bind_assoc]
        congr 1
        funext self
        congr 1
        funext v
        exact hrest v
    | data id =>
      rw [List.cons_append, EvalState.applyArgs, EvalState.applyArgs]
      exact (notFunction_bind _ _).symm

theorem applyArgs_eq_foldlM (v : Value Ptr Env Expr) (args : List Ptr) :
    state.applyArgs call callDepth pos v args =
      args.foldlM (fun v arg => state.applyArgs call callDepth pos v [arg]) v := by
  induction args generalizing v with
  | nil => exact applyArgs_nil v
  | cons arg args ih =>
    rw [List.foldlM_cons, ← List.singleton_append, applyArgs_append]
    congr 1
    funext v
    exact ih v

theorem callFunction_value (h : callDepth ≤ state.maxCallDepth) (v : Value Ptr Env Expr)
    (args : List Ptr) :
    state.callFunction callDepth (.value v) args pos =
      state.applyArgs (state.callFunction (callDepth + 1)) (callDepth + 1) pos v args := by
  rw [EvalState.callFunction, if_neg (Nat.not_lt_of_le h)]
  exact pure_bind v _

/-- Applying a function to the first argument, the result to the second one, and so on. -/
def callOneByOne (state : EvalState σ Ptr Env Expr) (callDepth : Nat) (fn : Ref Ptr Env Expr)
    (arg : Ptr) (args : List Ptr) (pos : PosIdx) : CallAction σ (Value Ptr Env Expr) := do
  let v ← state.callFunction callDepth fn [arg] pos
  args.foldlM (fun v arg => state.callFunction callDepth (.value v) [arg] pos) v

theorem callFunction_eq_callOneByOne (fn : Ref Ptr Env Expr) (arg : Ptr) (args : List Ptr) :
    state.callFunction callDepth fn (arg :: args) pos =
      callOneByOne state callDepth fn arg args pos := by
  rw [callOneByOne, EvalState.callFunction, EvalState.callFunction]
  split
  next => rfl
  next h =>
    rw [bind_assoc]
    congr 1
    funext v
    rw [← List.singleton_append, applyArgs_append]
    congr 1
    funext v
    rw [applyArgs_eq_foldlM]
    simp only [callFunction_value (Nat.le_of_not_lt h)]

/-- The results meet a condition, and failures are errors of the evaluator. -/
def Meets (x : CallAction σ α) (P : α → Prop) : Prop :=
  ∀ st, match (x.run st).1 with
    | .ok a => P a
    | .error failure => ∃ e, failure = .error e

theorem Meets.mono {x : CallAction σ α} {P Q : α → Prop} (h : Meets x P) (hpq : ∀ a, P a → Q a) :
    Meets x Q := by
  intro st
  have hst := h st
  cases hx : (x.run st).1 with
  | ok a => rw [hx] at hst; exact hpq a hst
  | error failure => rw [hx] at hst; exact hst

theorem meets_pure {a : α} {P : α → Prop} (h : P a) : Meets (pure a : CallAction σ α) P :=
  fun _ => h

theorem meets_raise (e : EvalError) (P : α → Prop) :
    Meets (EvalState.raise e : CallAction σ α) P :=
  fun _ => ⟨e, rfl⟩

theorem run_bind (x : CallAction σ α) (f : α → CallAction σ β) (st : σ) :
    (x >>= f).run st = match x.run st with
      | (.ok a, st) => (f a).run st
      | (.error failure, st) => (.error failure, st) := by
  show (match x.run st with | (r, st) => (ExceptT.bindCont f r).run st) = _
  rcases x.run st with ⟨failure | a, st⟩ <;> rfl

theorem run_adapt {ε ε' : Type} (f : ε → ε') (x : ExceptT ε (StateM σ) α) (st : σ) :
    (ExceptT.adapt f x).run st = ((x.run st).1.mapError f, (x.run st).2) := rfl

theorem meets_bind {x : CallAction σ α} {f : α → CallAction σ β} {P : α → Prop} {Q : β → Prop}
    (hx : Meets x P) (hf : ∀ a, P a → Meets (f a) Q) : Meets (x >>= f) Q := by
  intro st
  have hst := hx st
  rw [run_bind]
  cases hrun : x.run st with
  | mk result st' =>
    rw [hrun] at hst
    cases result with
    | ok a => exact hf a hst st'
    | error failure => exact hst

theorem meets_evaluate (x : Action σ α) : Meets (evaluate x) fun _ => True := by
  intro st
  rw [evaluate, run_adapt]
  cases (x.run st).1 with
  | ok a => trivial
  | error e => exact ⟨e, rfl⟩

theorem meets_onError {f : EvalError → EvalError} {x : CallAction σ α} {P : α → Prop}
    (h : Meets x P) : Meets (onError f x) P := by
  intro st
  have hst := h st
  rw [onError, run_adapt]
  cases hx : (x.run st).1 with
  | ok a =>
    rw [hx] at hst
    exact hst
  | error failure =>
    rw [hx] at hst
    obtain ⟨e, rfl⟩ := hst
    exact ⟨f e, rfl⟩

theorem meets_throwPrinted (v : Value Ptr Env Expr) (e : Bytes → EvalError) (P : α → Prop) :
    Meets (state.throwPrinted v e) P :=
  fun st => ⟨e (state.print v st), rfl⟩

theorem meets_forceValue (fn : Ref Ptr Env Expr) :
    Meets (state.forceValue callDepth pos fn) fun _ => True := by
  cases fn with
  | cell p => exact meets_evaluate _
  | value v => exact meets_pure trivial

theorem meets_forceAttrs (p : Ptr) (errorCtx : String) :
    Meets (state.forceAttrs callDepth p pos errorCtx) fun _ => True := by
  refine meets_bind (meets_forceValue _) fun v _ => ?_
  cases v with
  | attrs attrs => exact meets_pure trivial
  | lambda lambda env => exact meets_throwPrinted _ _ _
  | builtin app => exact meets_throwPrinted _ _ _
  | data id => exact meets_throwPrinted _ _ _

theorem meets_matchFormals (lambda : ExprLambda Expr) (attrs : Bindings Ptr)
    (formals : List (Symbol × Option Expr)) (slots : List (Slot Ptr Expr)) (attrsUsed : Nat) :
    Meets (state.matchFormals lambda pos attrs formals slots attrsUsed) fun result =>
      result.2 = attrsUsed + (formals.filter fun i => (attrs.find? i.1).isSome).length := by
  induction formals generalizing slots attrsUsed with
  | nil => exact meets_pure rfl
  | cons formal formals ih =>
    obtain ⟨name, default⟩ := formal
    rw [EvalState.matchFormals.eq_def]
    cases hfind : attrs.find? name with
    | some found =>
      simp only [hfind]
      refine (ih _ _).mono fun result hresult => ?_
      rw [hresult, List.filter_cons_of_pos (by rw [hfind]; rfl), List.length_cons]
      omega
    | none =>
      have hfilter : ((name, default) :: formals).filter (fun i => (attrs.find? i.1).isSome) =
          formals.filter fun i => (attrs.find? i.1).isSome :=
        List.filter_cons_of_neg (by rw [hfind]; exact nofun)
      simp only [hfilter, hfind]
      cases default with
      | none => exact meets_raise _ _
      | some e => exact ih _ _

theorem length_eq_of_contains {attrs : Bindings Ptr}
    {formals : SortedMap (compare : Symbol → Symbol → Ordering) (Option Expr)}
    (h : ∀ i ∈ attrs.elems, formals.contains i.1 = true) :
    (formals.elems.filter fun i => (attrs.find? i.1).isSome).length = attrs.elems.length := by
  have hnodup : (attrs.elems.map Prod.fst).Nodup := (strictlySorted_byKey.mp attrs.sorted).nodup
  have hnodup' : (formals.elems.map Prod.fst).Nodup :=
    (strictlySorted_byKey.mp formals.sorted).nodup
  have hperm : ((formals.elems.filter fun i => (attrs.find? i.1).isSome).map Prod.fst).Perm
      (attrs.elems.map Prod.fst) := by
    refine (List.perm_ext_iff_of_nodup
      (hnodup'.sublist (List.filter_sublist.map Prod.fst)) hnodup).mpr fun name => ?_
    constructor
    · intro hname
      obtain ⟨formal, hformal, rfl⟩ := List.mem_map.mp hname
      obtain ⟨found, hfound⟩ := Option.isSome_iff_exists.mp (List.mem_filter.mp hformal).2
      exact List.mem_map_of_mem (SortedMap.find?_eq_some.mp hfound)
    · intro hname
      obtain ⟨⟨name, value⟩, hattr, rfl⟩ := List.mem_map.mp hname
      have hcontains : formals.contains name = true := h _ hattr
      rw [SortedMap.contains_eq_isSome] at hcontains
      obtain ⟨default, hdefault⟩ := Option.isSome_iff_exists.mp hcontains
      refine List.mem_map.mpr ⟨(name, default), List.mem_filter.mpr
        ⟨SortedMap.find?_eq_some.mp hdefault, ?_⟩, rfl⟩
      rw [SortedMap.find?_eq_some.mpr hattr]
      rfl
  rw [← List.length_map (f := Prod.fst), hperm.length_eq, List.length_map]

theorem meets_bindArgument (lambda : ExprLambda Expr) (arg : Ptr) :
    Meets (state.bindArgument callDepth lambda pos arg) fun _ => True := by
  rw [EvalState.bindArgument]
  cases lambda.formals with
  | none => exact meets_pure trivial
  | some formals =>
    refine meets_bind (meets_onError (meets_forceAttrs _ _)) fun attrs _ => ?_
    refine meets_bind (meets_matchFormals _ _ _ _ _) fun ⟨slots, attrsUsed⟩ hused => ?_
    dsimp only at hused ⊢
    split
    next hunused =>
      split
      next => exact meets_raise _ _
      next hnone =>
        have hcontains : ∀ i ∈ attrs.elems, formals.formals.contains i.1 = true := by
          intro i hi
          simpa using List.find?_eq_none.mp hnone i hi
        refine absurd ?_ hunused.2
        rw [hused, Nat.zero_add, length_eq_of_contains hcontains]
    next => exact meets_pure trivial

theorem meets_callLambda (lambda : ExprLambda Expr) (env : Env) (arg : Ptr) :
    Meets (state.callLambda callDepth lambda env pos arg) fun _ => True :=
  meets_bind (meets_bindArgument lambda arg) fun _ _ => meets_onError (meets_evaluate _)

theorem meets_applyArgs (hcall : ∀ fn args pos, Meets (call fn args pos) fun _ => True)
    (v : Value Ptr Env Expr) (args : List Ptr) :
    Meets (state.applyArgs call callDepth pos v args) fun _ => True := by
  induction hlength : args.length using Nat.strongRecOn generalizing args v with
  | ind n ih =>
  subst hlength
  cases args with
  | nil => rw [applyArgs_nil]; exact meets_pure trivial
  | cons arg args =>
    have hrest : ∀ v, Meets (state.applyArgs call callDepth pos v args) fun _ => True :=
      fun v => ih args.length (Nat.lt_succ_self _) v args rfl
    cases v with
    | lambda lambda env =>
      rw [EvalState.applyArgs]
      exact meets_bind (meets_callLambda lambda env arg) fun v _ => hrest v
    | builtin app =>
      rw [applyArgs_builtin app (List.cons_ne_nil arg args)]
      split
      next => exact meets_pure trivial
      next =>
        refine meets_bind (meets_onError (meets_evaluate _)) fun v _ => ih _ ?_ v _ rfl
        rw [List.length_drop]
        exact Nat.sub_lt (Nat.succ_pos _) app.argsLeft_pos
    | attrs attrs =>
      rw [EvalState.applyArgs]
      cases attrs.find? state.functor with
      | none => exact meets_throwPrinted _ _ _
      | some functor =>
        have halloc : Meets (state.allocValue (.attrs attrs)) fun _ => True := fun _ => trivial
        exact meets_bind halloc fun self _ =>
          meets_bind (meets_onError (hcall _ _ _)) fun v _ => hrest v
    | data id =>
      rw [EvalState.applyArgs]
      exact meets_throwPrinted _ _ _

theorem meets_callFunction (fn : Ref Ptr Env Expr) (args : List Ptr) :
    Meets (state.callFunction callDepth fn args pos) fun _ => True := by
  induction hdepth : state.maxCallDepth + 1 - callDepth generalizing callDepth fn args pos with
  | zero =>
    rw [EvalState.callFunction, if_pos (by omega)]
    exact meets_raise _ _
  | succ n ih =>
    rw [EvalState.callFunction, if_neg (by omega)]
    exact meets_bind (meets_forceValue fn) fun v _ =>
      meets_applyArgs (fun fn args pos => ih fn args (by omega)) v args

section Congr

variable {impl : Nat → PrimOp → List Ptr → Action σ (Value Ptr Env Expr)}

theorem matchFormals_congr (lambda : ExprLambda Expr) (attrs : Bindings Ptr)
    (formals : List (Symbol × Option Expr)) (slots : List (Slot Ptr Expr)) (attrsUsed : Nat) :
    { state with impl }.matchFormals lambda pos attrs formals slots attrsUsed =
      state.matchFormals lambda pos attrs formals slots attrsUsed := by
  induction formals generalizing slots attrsUsed with
  | nil => rfl
  | cons formal formals ih =>
    rw [EvalState.matchFormals.eq_def, EvalState.matchFormals.eq_def]
    simp only [ih]
    rfl

theorem callLambda_congr (lambda : ExprLambda Expr) (env : Env) (arg : Ptr) :
    { state with impl }.callLambda callDepth lambda env pos arg =
      state.callLambda callDepth lambda env pos arg := by
  simp only [EvalState.callLambda, EvalState.bindArgument, matchFormals_congr]
  rfl

variable (himpl : ∀ callDepth p args, args.length = p.arity →
    impl callDepth p args = state.impl callDepth p args)

include himpl

theorem applyArgs_congr (v : Value Ptr Env Expr) (args : List Ptr) :
    { state with impl }.applyArgs call callDepth pos v args =
      state.applyArgs call callDepth pos v args := by
  induction hlength : args.length using Nat.strongRecOn generalizing args v with
  | ind n ih =>
  subst hlength
  cases args with
  | nil => rw [applyArgs_nil, applyArgs_nil]
  | cons arg args =>
    have hrest : ∀ v, { state with impl }.applyArgs call callDepth pos v args =
        state.applyArgs call callDepth pos v args :=
      fun v => ih args.length (Nat.lt_succ_self _) v args rfl
    cases v with
    | lambda lambda env =>
      rw [EvalState.applyArgs, EvalState.applyArgs, funext hrest, callLambda_congr]
    | builtin app =>
      rw [applyArgs_builtin app (List.cons_ne_nil arg args),
        applyArgs_builtin app (List.cons_ne_nil arg args)]
      refine dite_congr rfl (fun _ => rfl) fun h => ?_
      have hdone : app.chain.argsDone ≤ app.chain.primOpOf.arity := Nat.le_of_lt app.lt
      have harity : (app.chain.args ++ (arg :: args).take app.argsLeft).length =
          app.chain.primOpOf.arity := by
        rw [List.length_append, AppChain.length_args,
          List.length_take_of_le (Nat.le_of_not_lt h), PartialApp.argsLeft]
        omega
      have hdrop : ∀ v, { state with impl }.applyArgs call callDepth pos v
          ((arg :: args).drop app.argsLeft) =
            state.applyArgs call callDepth pos v ((arg :: args).drop app.argsLeft) := by
        intro v
        refine ih _ ?_ v _ rfl
        rw [List.length_drop]
        exact Nat.sub_lt (Nat.succ_pos _) app.argsLeft_pos
      simp only [EvalState.callPrimOp, himpl _ _ _ harity, hdrop]
    | attrs attrs =>
      rw [EvalState.applyArgs, EvalState.applyArgs, funext hrest]
      rfl
    | data id =>
      rw [EvalState.applyArgs, EvalState.applyArgs]
      rfl

theorem callFunction_congr (fn : Ref Ptr Env Expr) (args : List Ptr) :
    { state with impl }.callFunction callDepth fn args pos =
      state.callFunction callDepth fn args pos := by
  induction hdepth : state.maxCallDepth + 1 - callDepth generalizing callDepth fn args pos with
  | zero =>
    have hlt : state.maxCallDepth < callDepth := by omega
    rw [EvalState.callFunction, EvalState.callFunction, if_pos hlt]
    exact (if_pos hlt).symm
  | succ n ih =>
    have hle : ¬ state.maxCallDepth < callDepth := by omega
    have hcall : { state with impl }.callFunction (callDepth + 1) =
        state.callFunction (callDepth + 1) := by
      funext fn args pos
      exact ih fn args (by omega)
    rw [EvalState.callFunction, EvalState.callFunction, if_neg hle, hcall]
    simp only [applyArgs_congr himpl, if_neg hle]
    rfl

end Congr

theorem callFunction_builtin (hdepth : callDepth ≤ state.maxCallDepth) (app : PartialApp Ptr)
    {args : List Ptr} (h : args.length = app.argsLeft) :
    state.callFunction callDepth (.value (.builtin app)) args pos =
      state.callPrimOp (callDepth + 1) app.chain.primOpOf pos (app.chain.args ++ args) := by
  have hne : args ≠ [] := List.ne_nil_of_length_pos (h ▸ app.argsLeft_pos)
  rw [callFunction_value hdepth, applyArgs_builtin app hne,
    dif_neg (Nat.not_lt_of_le (Nat.le_of_eq h.symm)), List.take_of_length_le (Nat.le_of_eq h),
    List.drop_of_length_le (Nat.le_of_eq h)]
  simp only [applyArgs_nil]
  exact bind_pure _

theorem callFunction_builtin_of_lt (hdepth : callDepth ≤ state.maxCallDepth)
    (app : PartialApp Ptr) {args : List Ptr} (hne : args ≠ []) (h : args.length < app.argsLeft) :
    state.callFunction callDepth (.value (.builtin app)) args pos =
      pure (.builtin (app.extend args h)) := by
  rw [callFunction_value hdepth, applyArgs_builtin app hne, dif_pos h]

/-- `callFunction` is curried application. Primops get as many arguments as their arity, in the
order of the source, and other failures than errors are not reached. -/
theorem callFunction_curried (state : EvalState σ Ptr Env Expr) (callDepth : Nat) (pos : PosIdx) :
    (∀ fn arg args, state.callFunction callDepth fn (arg :: args) pos =
      callOneByOne state callDepth fn arg args pos) ∧
    (callDepth ≤ state.maxCallDepth →
      (∀ v, state.callFunction callDepth (.value v) [] pos = pure v) ∧
      ∀ (app : PartialApp Ptr) (args : List Ptr),
        (args.length = app.argsLeft →
          state.callFunction callDepth (.value (.builtin app)) args pos =
            state.callPrimOp (callDepth + 1) app.chain.primOpOf pos (app.chain.args ++ args)) ∧
        (args ≠ [] → ∀ h : args.length < app.argsLeft,
          state.callFunction callDepth (.value (.builtin app)) args pos =
              pure (.builtin (app.extend args h)) ∧
            (app.extend args h).chain.args = app.chain.args ++ args)) ∧
    (∀ impl : Nat → PrimOp → List Ptr → Action σ (Value Ptr Env Expr),
      (∀ callDepth p args, args.length = p.arity →
        impl callDepth p args = state.impl callDepth p args) →
      ∀ fn args, { state with impl }.callFunction callDepth fn args pos =
        state.callFunction callDepth fn args pos) ∧
    ∀ fn args st failure, ((state.callFunction callDepth fn args pos).run st).1 = .error failure →
      ∃ e, failure = .error e := by
  refine ⟨fun fn arg args => callFunction_eq_callOneByOne fn arg args, fun hdepth => ⟨fun v => ?_,
    fun app args => ⟨callFunction_builtin hdepth app, fun hne h =>
      ⟨callFunction_builtin_of_lt hdepth app hne h, app.chain.args_extend args⟩⟩⟩,
    fun impl himpl => callFunction_congr himpl, fun fn args st failure hfailure => ?_⟩
  · rw [callFunction_value hdepth, applyArgs_nil]
  · have hmeets := @meets_callFunction _ _ _ _ state callDepth pos fn args st
    rw [hfailure] at hmeets
    exact hmeets

def seq : PrimOp where
  name := str "seq"
  arity := 2
  pos := Nat.two_pos
  le := by decide

def numbers : EvalState Unit Nat Unit Unit where
  maxCallDepth := 10000
  showTrace := false
  functor := 0
  symbols _ := []
  bestMatches _ _ := []
  showType _ := []
  print _ _ := []
  alloc _ st := (0, st)
  forceCell _ p _ := pure (.data p)
  evalBody _ _ _ _ := pure (.data 0)
  impl _ _ args := pure (.data (args.getLastD 0))

theorem callFunction_curried_numbers :
    numbers.callFunction 0 (.value (.builtin ⟨.primOp seq, Nat.two_pos⟩)) [5, 6] noPos =
      numbers.callPrimOp 1 seq noPos [5, 6] :=
  (((callFunction_curried numbers 0 noPos).2.1 (Nat.zero_le _)).2
    ⟨.primOp seq, Nat.two_pos⟩ [5, 6]).1 rfl

end Nix.Eval.CallFunction
