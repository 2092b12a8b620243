import Nix.Eval.ValueEquality

/-!
The static environments in which variables are bound to levels and displacements.
-/

set_option linter.dupNamespace false

namespace Nix.Eval.StaticEnvs

open Lib.Results Lib.SortedList
open Eval.LayeredBindings (Symbol)
open Eval.ValueEquality (Names)

/-! ### Expressions -/

/-- `ExprAttrs::AttrDef::Kind`. -/
inductive AttrKind
  | plain
  | inherited
  | inheritedFrom
  deriving DecidableEq

/-- `chooseByKind`. -/
def AttrKind.choose {α : Type} (kind : AttrKind) (plain inherited inheritedFrom : α) : α :=
  match kind with
  | .plain => plain
  | .inherited => inherited
  | .inheritedFrom => inheritedFrom

/-- The fields that are set when an `ExprWith` is bound: the level of the next enclosing `with`,
from one, and that `with`. The outermost one has neither. -/
inductive WithLink
  | outermost
  | inner (prevWith : Nat) (parentWith : WithLink)
  deriving DecidableEq

/-- The fields that are set when an `ExprVar` is bound. -/
structure VarRef where
  fromWith : Option WithLink
  level : Nat
  displ : Nat
  deriving DecidableEq

/-- The expressions, with what is bound in variables and in `with`. A node is any expression that
binds its parts where it is itself. -/
inductive Expr (Var With : Type)
  | var (name : Symbol) (ref : Var)
  | inheritFrom (displ : Nat)
  | node {n : Nat} (parts : Fin n → Expr Var With)
  | attrs (recursive : Bool) (names : Names) (kinds : Fin names.elems.length → AttrKind)
      (defs : Fin names.elems.length → Expr Var With) {m : Nat}
      (inheritFromExprs : Fin m → Expr Var With) {k : Nat}
      (nameExprs valueExprs : Fin k → Expr Var With)
  | lambda (arg : Option Symbol) (formals : Names) (fresh : ∀ a ∈ arg, a ∉ formals)
      (defs : Fin formals.elems.length → Option (Expr Var With)) (body : Expr Var With)
  | letIn (names : Names) (kinds : Fin names.elems.length → AttrKind)
      (defs : Fin names.elems.length → Expr Var With) {m : Nat}
      (inheritFromExprs : Fin m → Expr Var With) (body : Expr Var With)
  | withIn (link : With) (attrs body : Expr Var With)

/-- What the parser makes. -/
abbrev Parsed := Expr Unit Unit

abbrev Bound := Expr VarRef WithLink

/-- An expression whose `bindVars` does nothing but go through its parts, in this order. -/
def Expr.ofParts {Var With : Type} (parts : List (Expr Var With)) : Expr Var With :=
  .node parts.get

section Nodes

variable {Var With : Type}

/-- `ExprInt`, `ExprFloat`, `ExprString`, `ExprPath` and `ExprPos`. -/
def Expr.constant : Expr Var With := .ofParts []

/-- The names in `attrPath` that are expressions come last. -/
def Expr.select (e : Expr Var With) (default : Option (Expr Var With))
    (attrPath : List (Expr Var With)) : Expr Var With :=
  .ofParts (e :: default.toList ++ attrPath)

def Expr.opHasAttr (e : Expr Var With) (attrPath : List (Expr Var With)) : Expr Var With :=
  .ofParts (e :: attrPath)

def Expr.list (elems : List (Expr Var With)) : Expr Var With := .ofParts elems

def Expr.call (fn : Expr Var With) (args : List (Expr Var With)) : Expr Var With :=
  .ofParts (fn :: args)

def Expr.ifThenElse (cond thenExpr elseExpr : Expr Var With) : Expr Var With :=
  .ofParts [cond, thenExpr, elseExpr]

def Expr.assert (cond body : Expr Var With) : Expr Var With := .ofParts [cond, body]

def Expr.opNot (e : Expr Var With) : Expr Var With := .ofParts [e]

def Expr.binOp (e1 e2 : Expr Var With) : Expr Var With := .ofParts [e1, e2]

def Expr.concatStrings (es : List (Expr Var With)) : Expr Var With := .ofParts es

end Nodes

/-! ### Binding -/

/-- A `StaticEnv` without the one above it. -/
structure StaticFrame where
  isWith : Option WithLink
  vars : List (Symbol × Nat)

/-- The frames from the innermost one; the null pointer is empty. -/
abbrev StaticEnv := List StaticFrame

/-- `StaticEnv::find`: the lower bound of the name and zero, if it has the name. -/
def StaticFrame.find (frame : StaticFrame) (name : Symbol) : Option Nat :=
  match frame.vars.dropWhile fun v => v.1 < name || (v.1 = name && v.2 < 0) with
  | [] => none
  | (n, displ) :: _ => if n = name then some displ else none

def attrsFrame (names : Names) : StaticFrame where
  isWith := none
  vars := names.elems.zipIdx

/-- `StaticEnv::sort` is stable. -/
def lambdaFrame (arg : Option Symbol) (formals : Names) : StaticFrame where
  isWith := none
  vars := (arg.toList ++ formals.elems).zipIdx.mergeSort fun a b => a.1 ≤ b.1

/-- The sources of inherited attributes are in an environment of their own, without names. -/
def inheritFromFrame : StaticFrame where
  isWith := none
  vars := []

/-- The level and the displacement of a variable, or the level of the innermost `with`. -/
def findVar (name : Symbol) : StaticEnv → Nat → Option Nat → Nat × Nat ⊕ Option Nat
  | [], _, withLevel => .inr withLevel
  | frame :: up, level, withLevel =>
      if frame.isWith.isSome then findVar name up (level + 1) (withLevel.or (some level))
      else match frame.find name with
        | some displ => .inl (level, displ)
        | none => findVar name up (level + 1) withLevel

/-- The innermost `with`. -/
def nearestWith (env : StaticEnv) : Option WithLink :=
  env.findSome? (·.isWith)

/-- The level of the innermost `with`. -/
def nearestWithLevel (env : StaticEnv) : Option Nat :=
  env.findIdx? (·.isWith.isSome)

/-- `ExprVar::bindVars`. The error is that the variable is undefined. -/
def bindVar (name : Symbol) (env : StaticEnv) : Except Symbol VarRef :=
  match findVar name env 0 none with
  | .inl (level, displ) => .ok ⟨none, level, displ⟩
  | .inr none => .error name
  | .inr (some withLevel) => .ok ⟨nearestWith env, withLevel, 0⟩

/-- What `ExprWith::bindVars` sets. -/
def bindWith (env : StaticEnv) : WithLink :=
  match nearestWith env, nearestWithLevel env with
  | some parentWith, some level => .inner (level + 1) parentWith
  | _, _ => .outermost

mutual

def Expr.bindVars : Parsed → StaticEnv → Except Symbol Bound
  | .var name _, env => do
      let ref ← bindVar name env
      return .var name ref
  | .inheritFrom displ, _ => .ok (.inheritFrom displ)
  | .node parts, env => do
      let parts ← forEach fun i => (parts i).bindVars env
      return .node parts
  | .attrs recursive names kinds defs (m := m) inheritFromExprs nameExprs valueExprs, env => do
      let newEnv := if recursive then attrsFrame names :: env else env
      let inheritFromEnv := if m = 0 then [] else inheritFromFrame :: newEnv
      let inheritFromExprs ← forEach fun i => (inheritFromExprs i).bindVars newEnv
      let defs ← forEach fun i => (defs i).bindVars ((kinds i).choose newEnv env inheritFromEnv)
      let dynamicAttrs ← forEach fun i => do
        let nameExpr ← (nameExprs i).bindVars newEnv
        let valueExpr ← (valueExprs i).bindVars newEnv
        return (nameExpr, valueExpr)
      return .attrs recursive names kinds defs inheritFromExprs (fun i => (dynamicAttrs i).1)
        fun i => (dynamicAttrs i).2
  | .lambda arg formals fresh defs body, env => do
      let newEnv := lambdaFrame arg formals :: env
      let defs ← forEach fun i => bindDefault (defs i) newEnv
      let body ← body.bindVars newEnv
      return .lambda arg formals fresh defs body
  | .letIn names kinds defs (m := m) inheritFromExprs body, env => do
      let newEnv := attrsFrame names :: env
      let inheritFromEnv := if m = 0 then [] else inheritFromFrame :: newEnv
      let inheritFromExprs ← forEach fun i => (inheritFromExprs i).bindVars newEnv
      let defs ← forEach fun i => (defs i).bindVars ((kinds i).choose newEnv env inheritFromEnv)
      let body ← body.bindVars newEnv
      return .letIn names kinds defs inheritFromExprs body
  | .withIn _ attrs body, env => do
      let link := bindWith env
      let attrs ← attrs.bindVars env
      let body ← body.bindVars (⟨some link, []⟩ :: env)
      return .withIn link attrs body

def bindDefault : Option Parsed → StaticEnv → Except Symbol (Option Bound)
  | none, _ => .ok none
  | some e, env => do
      let e ← e.bindVars env
      return some e

end

/-! ### Evaluation -/

/-- The values of an environment, and of those above it. -/
abbrev Env (V : Type) := List (List V)

section Lookup

variable {V E : Type} (forceAttrs : V → Except E (Symbol → Option V)) (undefinedVar : Symbol → E)

def valueAt (env : Env V) (displ : Nat) : Option V :=
  env.head?.bind (·[displ]?)

/-- The loop of `lookupVar`. There is no result if an environment does not have the value. -/
def lookupWith (name : Symbol) : WithLink → Env V → Option (Except E V)
  | link, env =>
      match valueAt env 0 with
      | none => none
      | some attrs =>
          match forceAttrs attrs with
          | .error e => some (.error e)
          | .ok get =>
              match get name, link with
              | some v, _ => some (.ok v)
              | none, .outermost => some (.error (undefinedVar name))
              | none, .inner prevWith parentWith =>
                  lookupWith name parentWith (env.drop prevWith)

/-- `lookupVar`. With `noEval`, a variable of a `with` gives a null pointer. -/
def lookupVar (env : Env V) (name : Symbol) (ref : VarRef) (noEval : Bool) :
    Option (Except E (Option V)) :=
  match ref.fromWith with
  | none => (valueAt (env.drop ref.level) ref.displ).map fun v => .ok (some v)
  | some link =>
      if noEval then some (.ok none)
      else (lookupWith forceAttrs undefinedVar name link (env.drop ref.level)).map (·.map some)

end Lookup

/-! ### Scopes -/

/-- What a construct binds, by name. -/
inductive Binding (V : Type)
  | names (vars : List (Symbol × V))
  | attrsOf (attrs : V)
  | hidden

/-- The constructs around an expression, from the innermost one. -/
abbrev Scope (V : Type) := List (Binding V)

/-- The innermost construct that has the name, besides `with`. -/
def Scope.bound? {V : Type} (name : Symbol) : Scope V → Option V
  | [] => none
  | .names vars :: scope => (vars.lookup name).or (Scope.bound? name scope)
  | .attrsOf _ :: scope => Scope.bound? name scope
  | .hidden :: scope => Scope.bound? name scope

section Scope

variable {V E : Type} (forceAttrs : V → Except E (Symbol → Option V)) (undefinedVar : Symbol → E)

/-- The innermost `with` that has the name. -/
def Scope.ofWiths (name : Symbol) : Scope V → Except E V
  | [] => .error (undefinedVar name)
  | .attrsOf attrs :: scope => do
      let get ← forceAttrs attrs
      match get name with
      | some v => return v
      | none => Scope.ofWiths name scope
  | .names _ :: scope => Scope.ofWiths name scope
  | .hidden :: scope => Scope.ofWiths name scope

/-- A variable is looked up by its name: every other construct comes before every `with`. -/
def Scope.lookup (name : Symbol) (scope : Scope V) : Except E V :=
  match scope.bound? name with
  | some v => .ok v
  | none => scope.ofWiths forceAttrs undefinedVar name

end Scope

/-! ### What evaluation enters -/

section Enters

variable {V : Type}

/-- An expression with the environment in which it is evaluated, and the scope. -/
structure Point (V : Type) where
  expr : Bound
  env : Env V
  scope : Scope V

/-- `allocEnv`, with any values for the names. -/
def Point.push (p : Point V) (names : List Symbol) (values : List V) (expr : Bound) : Point V :=
  ⟨expr, values :: p.env, .names (names.zip values) :: p.scope⟩

def Point.enter (p : Point V) (expr : Bound) : Point V :=
  ⟨expr, p.env, p.scope⟩

/-- `buildInheritFromEnv`, with any values. -/
def Point.pushHidden (p : Point V) (values : List V) (expr : Bound) : Point V :=
  ⟨expr, values :: p.env, .hidden :: p.scope⟩

/-- The attributes are evaluated in the new environment, those that are inherited where the whole
expression is. -/
inductive EntersAttrs (outer inner : Point V) {n m : Nat} (kinds : Fin n → AttrKind)
    (defs : Fin n → Bound) (inheritFromExprs : Fin m → Bound) : Point V → Prop
  | plain {i : Fin n} (hkind : kinds i = .plain) :
      EntersAttrs outer inner kinds defs inheritFromExprs (inner.enter (defs i))
  | inherited {i : Fin n} (hkind : kinds i = .inherited) :
      EntersAttrs outer inner kinds defs inheritFromExprs (outer.enter (defs i))
  | inheritedFrom {i : Fin n} {values : List V} (hkind : kinds i = .inheritedFrom) (hm : m ≠ 0)
      (hlength : values.length = m) :
      EntersAttrs outer inner kinds defs inheritFromExprs (inner.pushHidden values (defs i))
  | source {i : Fin m} :
      EntersAttrs outer inner kinds defs inheritFromExprs (inner.enter (inheritFromExprs i))

/-- The environment in which the attributes of a set are evaluated. -/
inductive OpensAttrs (p : Point V) (names : Names) : Bool → Point V → Prop
  | plain : OpensAttrs p names false p
  | recursive {values : List V} (hlength : values.length = names.elems.length) :
      OpensAttrs p names true (p.push names.elems values p.expr)

/-- One expression is evaluated as part of another, where values can be any that were computed or
overridden. A function is called where it was made. -/
inductive Enters : Point V → Point V → Prop
  | part {env : Env V} {scope : Scope V} {n : Nat} {parts : Fin n → Bound} {i : Fin n} :
      Enters ⟨.node parts, env, scope⟩ ⟨parts i, env, scope⟩
  | attrs {env : Env V} {scope : Scope V} {recursive : Bool} {names : Names}
      {kinds : Fin names.elems.length → AttrKind} {defs : Fin names.elems.length → Bound} {m : Nat}
      {inheritFromExprs : Fin m → Bound} {k : Nat} {nameExprs valueExprs : Fin k → Bound}
      {outer inner p : Point V}
      (houter : outer = ⟨.attrs recursive names kinds defs inheritFromExprs nameExprs valueExprs,
        env, scope⟩)
      (hopens : OpensAttrs outer names recursive inner)
      (hp : EntersAttrs outer inner kinds defs inheritFromExprs p ∨
        ∃ i, p = inner.enter (nameExprs i) ∨ p = inner.enter (valueExprs i)) :
      Enters outer p
  | letIn {env : Env V} {scope : Scope V} {names : Names}
      {kinds : Fin names.elems.length → AttrKind} {defs : Fin names.elems.length → Bound} {m : Nat}
      {inheritFromExprs : Fin m → Bound} {body : Bound} {outer inner p : Point V}
      (houter : outer = ⟨.letIn names kinds defs inheritFromExprs body, env, scope⟩)
      (hopens : OpensAttrs outer names true inner)
      (hp : EntersAttrs outer inner kinds defs inheritFromExprs p ∨ p = inner.enter body) :
      Enters outer p
  | lambda {env : Env V} {scope : Scope V} {arg : Option Symbol} {formals : Names}
      {fresh : ∀ a ∈ arg, a ∉ formals} {defs : Fin formals.elems.length → Option Bound}
      {body : Bound} {outer : Point V} {values : List V} {e : Bound}
      (houter : outer = ⟨.lambda arg formals fresh defs body, env, scope⟩)
      (hlength : values.length = (arg.toList ++ formals.elems).length)
      (he : e = body ∨ ∃ i, defs i = some e) :
      Enters outer (outer.push (arg.toList ++ formals.elems) values e)
  | withAttrs {env : Env V} {scope : Scope V} {link : WithLink} {attrs body : Bound} :
      Enters ⟨.withIn link attrs body, env, scope⟩ ⟨attrs, env, scope⟩
  | withBody {env : Env V} {scope : Scope V} {link : WithLink} {attrs body : Bound} {value : V} :
      Enters ⟨.withIn link attrs body, env, scope⟩
        ⟨body, [value] :: env, .attrsOf value :: scope⟩

end Enters

/-! ### The lookup by levels is the lookup by names -/

section Match

variable {V E : Type}

/-- The variables of a frame are found at the places of the names. -/
structure StaticFrame.Holds (frame : StaticFrame) (names : List Symbol) : Prop where
  isWith : frame.isWith = none
  nodup : names.Nodup
  find : ∀ name displ, frame.find name = some displ ↔ names[displ]? = some name

/-- Static environments, environments and scopes that were made by the same constructs. -/
inductive Matches : StaticEnv → Env V → Scope V → Prop
  | nil : Matches [] [] []
  | names {frame : StaticFrame} {names : List Symbol} {values : List V} {senv : StaticEnv}
      {env : Env V} {scope : Scope V} (hframe : frame.Holds names)
      (hlength : values.length = names.length) (h : Matches senv env scope) :
      Matches (frame :: senv) (values :: env) (.names (names.zip values) :: scope)
  | attrsOf {attrs : V} {senv : StaticEnv} {env : Env V} {scope : Scope V}
      (h : Matches senv env scope) :
      Matches (⟨some (bindWith senv), []⟩ :: senv) ([attrs] :: env) (.attrsOf attrs :: scope)
  | hidden {values : List V} {senv : StaticEnv} {env : Env V} {scope : Scope V}
      (h : Matches senv env scope) :
      Matches (inheritFromFrame :: senv) (values :: env) (.hidden :: scope)

theorem mem_vars_of_find {frame : StaticFrame} {name : Symbol} {displ : Nat}
    (h : frame.find name = some displ) : (name, displ) ∈ frame.vars := by
  unfold StaticFrame.find at h
  split at h
  next => cases h
  next n d rest hdrop =>
    split at h
    next heq =>
      cases h
      subst heq
      exact (List.dropWhile_sublist _).subset (hdrop ▸ List.mem_cons_self)
    next => cases h

theorem exists_find_of_mem {frame : StaticFrame} (hsorted : frame.vars.Pairwise (·.1 ≤ ·.1))
    {name : Symbol} {displ : Nat} (h : (name, displ) ∈ frame.vars) :
    ∃ d, frame.find name = some d := by
  obtain ⟨isWith, vars⟩ := frame
  unfold StaticFrame.find
  induction vars with
  | nil => cases h
  | cons v vars ih =>
    obtain ⟨hfirst, hrest⟩ := List.pairwise_cons.mp hsorted
    by_cases hv : v.1 < name
    · have hmem : (name, displ) ∈ vars := by
        rcases List.mem_cons.mp h with rfl | hmem
        · exact absurd hv (Nat.lt_irrefl _)
        · exact hmem
      have hdrop : (decide (v.1 < name) || (decide (v.1 = name) && decide (v.2 < 0))) = true := by
        simp [hv]
      dsimp only
      rw [List.dropWhile_cons, if_pos hdrop]
      exact ih hrest hmem
    · have hle : v.1 ≤ name := by
        rcases List.mem_cons.mp h with rfl | hmem
        · exact Nat.le_refl _
        · exact hfirst _ hmem
      have heq : v.1 = name := Nat.le_antisymm hle (Nat.le_of_not_lt hv)
      have hdrop : ¬(decide (v.1 < name) || (decide (v.1 = name) && decide (v.2 < 0))) = true := by
        simp [hv]
      dsimp only
      rw [List.dropWhile_cons, if_neg hdrop]
      exact ⟨v.2, if_pos heq⟩

theorem holds_of_perm {vars : List (Symbol × Nat)} {names : List Symbol} (hnodup : names.Nodup)
    (hsorted : vars.Pairwise (·.1 ≤ ·.1)) (hperm : vars.Perm names.zipIdx) :
    StaticFrame.Holds ⟨none, vars⟩ names := by
  have hmem : ∀ name displ, (name, displ) ∈ vars ↔ names[displ]? = some name := by
    intro name displ
    rw [hperm.mem_iff, List.mem_zipIdx_iff_getElem?]
  refine ⟨rfl, hnodup, fun name displ => ?_⟩
  rw [← hmem]
  refine ⟨mem_vars_of_find, fun h => ?_⟩
  obtain ⟨d, hd⟩ := @exists_find_of_mem ⟨none, vars⟩ hsorted _ _ h
  have hget := (hmem _ _).mp h
  have hget' := (hmem _ _).mp (mem_vars_of_find hd)
  have hlt := (List.getElem?_eq_some_iff.mp hget').1
  rw [hd, (List.getElem?_inj hlt hnodup).mp (hget'.trans hget.symm)]

theorem sorted_attrsFrame (names : Names) : (attrsFrame names).vars.Pairwise (·.1 ≤ ·.1) := by
  have hmap : (names.elems.zipIdx.map Prod.fst).Pairwise (· ≤ ·) := by
    rw [List.zipIdx_map_fst]
    exact names.sorted.imp fun hlt => Nat.le_of_lt (Nat.compare_eq_lt.mp hlt)
  exact List.pairwise_map.mp hmap

theorem sorted_lambdaFrame (arg : Option Symbol) (formals : Names) :
    (lambdaFrame arg formals).vars.Pairwise (·.1 ≤ ·.1) := by
  refine (List.pairwise_mergeSort ?_ ?_ _).imp of_decide_eq_true
  · intro a b c hab hbc
    exact decide_eq_true (Nat.le_trans (of_decide_eq_true hab) (of_decide_eq_true hbc))
  · intro a b
    rw [Bool.or_eq_true, decide_eq_true_eq, decide_eq_true_eq]
    exact Nat.le_total _ _

theorem holds_attrsFrame (names : Names) : (attrsFrame names).Holds names.elems :=
  holds_of_perm names.sorted.nodup (sorted_attrsFrame names) (List.Perm.refl _)

theorem holds_lambdaFrame {arg : Option Symbol} {formals : Names}
    (fresh : ∀ a ∈ arg, a ∉ formals) :
    (lambdaFrame arg formals).Holds (arg.toList ++ formals.elems) := by
  have hnodup : (arg.toList ++ formals.elems).Nodup := by
    cases arg with
    | none => exact formals.sorted.nodup
    | some a => exact List.nodup_cons.mpr ⟨fresh a rfl, formals.sorted.nodup⟩
  exact holds_of_perm hnodup (sorted_lambdaFrame arg formals) (List.mergeSort_perm _ _)

theorem lookup_zip {names : List Symbol} {values : List V} (hnodup : names.Nodup)
    (hlength : values.length = names.length) {name : Symbol} {displ : Nat}
    (h : names[displ]? = some name) :
    ∃ v, values[displ]? = some v ∧ (names.zip values).lookup name = some v := by
  induction names generalizing values displ with
  | nil => cases h
  | cons n names ih =>
    obtain ⟨hnew, hnodup⟩ := List.nodup_cons.mp hnodup
    obtain ⟨v, values, rfl⟩ := List.exists_cons_of_length_eq_add_one hlength
    cases displ with
    | zero =>
      obtain rfl : n = name := Option.some.inj h
      exact ⟨v, rfl, List.lookup_cons_self⟩
    | succ displ =>
      have hne : name ≠ n := by
        rintro rfl
        exact hnew (List.mem_of_getElem? h)
      obtain ⟨w, hw, hlookup⟩ := ih hnodup (Nat.succ.inj hlength) h
      refine ⟨w, hw, ?_⟩
      rw [List.zip_cons_cons, List.lookup_cons, beq_false_of_ne hne]
      exact hlookup

theorem lookup_zip_eq_none {names : List Symbol} {values : List V} {name : Symbol}
    (h : name ∉ names) : (names.zip values).lookup name = none := by
  refine List.lookup_eq_none_iff.mpr fun v hv => ?_
  have hne : name ≠ v.1 := by
    rintro rfl
    exact h (List.of_mem_zip hv).1
  simpa using hne

/-- What the loop over the levels returns from a level on. -/
def Found (name : Symbol) (senv : StaticEnv) (env : Env V) (scope : Scope V) (level : Nat)
    (withLevel : Option Nat) : Prop :=
  (∃ i displ v, findVar name senv level withLevel = .inl (level + i, displ) ∧
      valueAt (env.drop i) displ = some v ∧ scope.bound? name = some v) ∨
    findVar name senv level withLevel =
        .inr (withLevel.or ((nearestWithLevel senv).map (level + ·))) ∧
      scope.bound? name = none

theorem Found.skip {name : Symbol} {senv : StaticEnv} {env : Env V} {scope : Scope V}
    {level : Nat} {withLevel withLevel' : Option Nat} {frame : StaticFrame} {values : List V}
    {binding : Binding V} (h : Found name senv env scope (level + 1) withLevel')
    (hfind : findVar name (frame :: senv) level withLevel =
      findVar name senv (level + 1) withLevel')
    (hwith : withLevel.or ((nearestWithLevel (frame :: senv)).map (level + ·)) =
      withLevel'.or ((nearestWithLevel senv).map (level + 1 + ·)))
    (hbound : Scope.bound? name (binding :: scope) = scope.bound? name) :
    Found name (frame :: senv) (values :: env) (binding :: scope) level withLevel := by
  rcases h with ⟨i, displ, v, hfound, hvalue, hv⟩ | ⟨hfound, hv⟩
  · refine .inl ⟨i + 1, displ, v, ?_, hvalue, hbound.trans hv⟩
    rw [hfind, hfound, Nat.add_right_comm, Nat.add_assoc]
  · exact .inr ⟨by rw [hfind, hfound, hwith], hbound.trans hv⟩

theorem nearestWithLevel_cons {frame : StaticFrame} (h : frame.isWith = none) (senv : StaticEnv) :
    nearestWithLevel (frame :: senv) = (nearestWithLevel senv).map (· + 1) := by
  rw [nearestWithLevel, List.findIdx?_cons, h]
  rfl

theorem found_of_matches {senv : StaticEnv} {env : Env V} {scope : Scope V}
    (h : Matches senv env scope) (name : Symbol) (level : Nat) (withLevel : Option Nat) :
    Found name senv env scope level withLevel := by
  induction h generalizing level withLevel with
  | nil => exact .inr ⟨by simp [findVar, nearestWithLevel], rfl⟩
  | @names frame names values senv env scope hframe hlength h ih =>
    have hplain : frame.isWith.isSome = false := by rw [hframe.isWith]; rfl
    cases hfind : frame.find name with
    | some displ =>
      obtain ⟨v, hvalue, hlookup⟩ :=
        lookup_zip hframe.nodup hlength ((hframe.find name displ).mp hfind)
      refine .inl ⟨0, displ, v, ?_, hvalue, ?_⟩
      · rw [findVar, hplain, if_neg Bool.false_ne_true, hfind]
        rfl
      · rw [Scope.bound?, hlookup]
        rfl
    | none =>
      have hlookup : (names.zip values).lookup name = none := by
        refine lookup_zip_eq_none fun hmem => ?_
        obtain ⟨displ, hget⟩ := List.mem_iff_getElem?.mp hmem
        rw [(hframe.find name displ).mpr hget] at hfind
        cases hfind
      refine (ih (level + 1) withLevel).skip ?_ ?_ ?_
      · rw [findVar, hplain, if_neg Bool.false_ne_true, hfind]
      · rw [nearestWithLevel_cons hframe.isWith, Option.map_map]
        congr 2
        funext k
        exact (Nat.add_right_comm level k 1).symm ▸ rfl
      · rw [Scope.bound?, hlookup, Option.none_or]
  | @attrsOf attrs senv env scope h ih =>
    refine (ih (level + 1) (withLevel.or (some level))).skip rfl ?_ rfl
    cases withLevel with
    | none => rfl
    | some w => rfl
  | @hidden values senv env scope h ih =>
    refine (ih (level + 1) withLevel).skip rfl ?_ rfl
    rw [nearestWithLevel_cons rfl, Option.map_map]
    congr 2
    funext k
    exact (Nat.add_right_comm level k 1).symm ▸ rfl

theorem isSome_nearestWithLevel (senv : StaticEnv) :
    (nearestWithLevel senv).isSome = (nearestWith senv).isSome := by
  induction senv with
  | nil => rfl
  | cons frame senv ih =>
    cases hwith : frame.isWith with
    | some link => simp [nearestWithLevel, nearestWith, List.findIdx?_cons, hwith]
    | none =>
      rw [nearestWithLevel_cons hwith, Option.isSome_map, ih, nearestWith, nearestWith,
        List.findSome?_cons, hwith]

theorem exists_level {senv : StaticEnv} {link : WithLink} (h : nearestWith senv = some link) :
    ∃ level, nearestWithLevel senv = some level := by
  rw [← Option.isSome_iff_exists, isSome_nearestWithLevel, h]
  rfl

theorem nearestWith_cons {frame : StaticFrame} (h : frame.isWith = none) (senv : StaticEnv) :
    nearestWith (frame :: senv) = nearestWith senv := by
  rw [nearestWith, List.findSome?_cons, h]
  rfl

variable (forceAttrs : V → Except E (Symbol → Option V)) (undefinedVar : Symbol → E)

/-- Where there is no `with`, no name comes from one. -/
theorem ofWiths_eq_error {senv : StaticEnv} {env : Env V} {scope : Scope V}
    (h : Matches senv env scope) (hnone : nearestWith senv = none) (name : Symbol) :
    scope.ofWiths forceAttrs undefinedVar name = .error (undefinedVar name) := by
  induction h with
  | nil => rfl
  | names hframe _ _ ih => exact ih (by rwa [nearestWith_cons hframe.isWith] at hnone)
  | attrsOf => cases hnone
  | hidden _ ih => exact ih (by rwa [nearestWith_cons rfl] at hnone)

/-- The links lead through all constructs `with` in turn. -/
theorem lookupWith_eq_ofWiths {senv : StaticEnv} {env : Env V} {scope : Scope V}
    (h : Matches senv env scope) {link : WithLink} (hlink : nearestWith senv = some link)
    {level : Nat} (hlevel : nearestWithLevel senv = some level) (name : Symbol) :
    lookupWith forceAttrs undefinedVar name link (env.drop level) =
      some (scope.ofWiths forceAttrs undefinedVar name) := by
  induction h generalizing link level with
  | nil => cases hlink
  | names hframe _ _ ih =>
    rw [nearestWith_cons hframe.isWith] at hlink
    rw [nearestWithLevel_cons hframe.isWith] at hlevel
    obtain ⟨k, hk, rfl⟩ := Option.map_eq_some_iff.mp hlevel
    exact ih hlink hk
  | hidden _ ih =>
    rw [nearestWith_cons rfl] at hlink
    rw [nearestWithLevel_cons rfl] at hlevel
    obtain ⟨k, hk, rfl⟩ := Option.map_eq_some_iff.mp hlevel
    exact ih hlink hk
  | @attrsOf attrs senv env scope h ih =>
    obtain rfl : bindWith senv = link := Option.some.inj hlink
    obtain rfl : 0 = level := Option.some.inj hlevel
    have hvalue : valueAt ([attrs] :: env) 0 = some attrs := rfl
    rw [List.drop_zero, lookupWith.eq_def, Scope.ofWiths]
    simp only [hvalue, bind, Except.bind]
    cases forceAttrs attrs with
    | error e => rfl
    | ok get =>
      dsimp only
      cases hget : get name with
      | some v => rfl
      | none =>
        cases hnone : nearestWith senv with
        | none =>
          have hlink : bindWith senv = .outermost := by rw [bindWith, hnone]
          rw [hlink, ofWiths_eq_error forceAttrs undefinedVar h hnone]
        | some parentWith =>
          obtain ⟨k, hk⟩ := exists_level hnone
          have hlink : bindWith senv = .inner (k + 1) parentWith := by rw [bindWith, hnone, hk]
          rw [hlink]
          exact ih hnone hk

theorem lookupVar_eq_of_bindVar {senv : StaticEnv} {env : Env V} {scope : Scope V}
    (h : Matches senv env scope) {name : Symbol} {ref : VarRef}
    (hbind : bindVar name senv = .ok ref) :
    lookupVar forceAttrs undefinedVar env name ref false =
        some ((scope.lookup forceAttrs undefinedVar name).map some) ∧
      ∀ v, lookupVar forceAttrs undefinedVar env name ref true = some (.ok (some v)) →
        scope.lookup forceAttrs undefinedVar name = .ok v := by
  rw [bindVar] at hbind
  rcases found_of_matches h name 0 none with ⟨i, displ, v, hfound, hvalue, hv⟩ | ⟨hfound, hv⟩
  · rw [hfound] at hbind
    cases hbind
    have hlookup : ∀ noEval,
        lookupVar forceAttrs undefinedVar env name ⟨none, 0 + i, displ⟩ noEval =
          some (.ok (some v)) := by
      intro noEval
      simp only [lookupVar, Nat.zero_add, hvalue, Option.map_some]
    refine ⟨?_, fun w hw => ?_⟩
    · rw [hlookup, Scope.lookup, hv]
      rfl
    · rw [hlookup] at hw
      cases hw
      rw [Scope.lookup, hv]
  · rw [hfound, Option.none_or] at hbind
    cases hlevel : nearestWithLevel senv with
    | none =>
      rw [hlevel] at hbind
      cases hbind
    | some level =>
      rw [hlevel] at hbind
      obtain ⟨link, hlink⟩ : ∃ link, nearestWith senv = some link := by
        rw [← Option.isSome_iff_exists, ← isSome_nearestWithLevel, hlevel]
        rfl
      cases hbind
      refine ⟨?_, fun w hw => ?_⟩
      · simp only [lookupVar, hlink, Bool.false_eq_true, if_false, Nat.zero_add]
        rw [lookupWith_eq_ofWiths forceAttrs undefinedVar h hlink hlevel, Scope.lookup, hv]
        rfl
      · simp only [lookupVar, hlink, if_true] at hw
        cases hw

/-- An expression that is bound in an environment that matches. -/
def Point.IsBound (p : Point V) : Prop :=
  ∃ (e : Parsed) (senv : StaticEnv), e.bindVars senv = .ok p.expr ∧ Matches senv p.env p.scope

theorem matches_of_opensAttrs {names : Names} {senv : StaticEnv} {outer inner : Point V}
    {recursive : Bool} (h : Matches senv outer.env outer.scope)
    (hopens : OpensAttrs outer names recursive inner) :
    Matches (if recursive then attrsFrame names :: senv else senv) inner.env inner.scope := by
  cases hopens with
  | plain => exact h
  | recursive hlength => exact .names (holds_attrsFrame names) hlength h

theorem isBound_of_entersAttrs {outer inner p : Point V} {senv newEnv : StaticEnv} {n m : Nat}
    {kinds : Fin n → AttrKind} {defs : Fin n → Parsed} {defs' : Fin n → Bound}
    {inheritFromExprs : Fin m → Parsed} {inheritFromExprs' : Fin m → Bound}
    (houter : Matches senv outer.env outer.scope) (hinner : Matches newEnv inner.env inner.scope)
    (hfrom : ∀ i, (inheritFromExprs i).bindVars newEnv = .ok (inheritFromExprs' i))
    (hdefs : ∀ i, (defs i).bindVars ((kinds i).choose newEnv senv
      (if m = 0 then [] else inheritFromFrame :: newEnv)) = .ok (defs' i))
    (h : EntersAttrs outer inner kinds defs' inheritFromExprs' p) : p.IsBound := by
  cases h with
  | @plain i hkind =>
    have hdef := hdefs i
    rw [hkind] at hdef
    exact ⟨_, _, hdef, hinner⟩
  | @inherited i hkind =>
    have hdef := hdefs i
    rw [hkind] at hdef
    exact ⟨_, _, hdef, houter⟩
  | @inheritedFrom i values hkind hm hlength =>
    have hdef := hdefs i
    rw [hkind, if_neg hm] at hdef
    exact ⟨_, _, hdef, .hidden hinner⟩
  | @source i => exact ⟨_, _, hfrom i, hinner⟩

theorem Point.IsBound.step {p p' : Point V} (h : p.IsBound) (hstep : Enters p p') :
    p'.IsBound := by
  obtain ⟨expr, env, scope⟩ := p
  obtain ⟨e, senv, hbind, hmatch⟩ := h
  cases e with
  | var name ref =>
    obtain ⟨ref, -, hvar⟩ := bind_eq_ok.mp hbind
    obtain rfl := pure_eq_ok.mp hvar
    rcases hstep with _ | ⟨houter, -, -⟩ | ⟨houter, -, -⟩ | ⟨houter, -, -⟩ <;> cases houter
  | inheritFrom displ =>
    obtain rfl := Except.ok.inj hbind
    rcases hstep with _ | ⟨houter, -, -⟩ | ⟨houter, -, -⟩ | ⟨houter, -, -⟩ <;> cases houter
  | node parts =>
    obtain ⟨parts', hparts, hnode⟩ := bind_eq_ok.mp hbind
    obtain rfl := pure_eq_ok.mp hnode
    rcases hstep with _ | ⟨houter, -, -⟩ | ⟨houter, -, -⟩ | ⟨houter, -, -⟩
    · exact ⟨_, senv, forEach_eq_ok.mp hparts _, hmatch⟩
    · cases houter
    · cases houter
    · cases houter
  | attrs recursive names kinds defs inheritFromExprs nameExprs valueExprs =>
    obtain ⟨froms, hfroms, hbind⟩ := bind_eq_ok.mp hbind
    obtain ⟨defs', hdefs, hbind⟩ := bind_eq_ok.mp hbind
    obtain ⟨dynamicAttrs, hdynamic, hbind⟩ := bind_eq_ok.mp hbind
    obtain rfl := pure_eq_ok.mp hbind
    rcases hstep with _ | ⟨houter, hopens, hp⟩ | ⟨houter, -, -⟩ | ⟨houter, -, -⟩
    · cases houter
      obtain ⟨newEnv, hnewEnv, hinner⟩ : ∃ newEnv,
          (if recursive then attrsFrame names :: senv else senv) = newEnv ∧
            Matches newEnv _ _ := ⟨_, rfl, matches_of_opensAttrs hmatch hopens⟩
      rw [hnewEnv] at hfroms hdefs hdynamic
      rcases hp with hp | ⟨i, hp⟩
      · exact isBound_of_entersAttrs hmatch hinner (forEach_eq_ok.mp hfroms)
          (forEach_eq_ok.mp hdefs) hp
      · obtain ⟨nameExpr, hname, hdynamic⟩ := bind_eq_ok.mp (forEach_eq_ok.mp hdynamic i)
        obtain ⟨valueExpr, hvalue, hdynamic⟩ := bind_eq_ok.mp hdynamic
        have hpair : (nameExpr, valueExpr) = dynamicAttrs i := pure_eq_ok.mp hdynamic
        dsimp only at hp
        rw [← hpair] at hp
        rcases hp with rfl | rfl
        · exact ⟨_, _, hname, hinner⟩
        · exact ⟨_, _, hvalue, hinner⟩
    · cases houter
    · cases houter
  | lambda arg formals fresh defs body =>
    obtain ⟨defs', hdefs, hbind⟩ := bind_eq_ok.mp hbind
    obtain ⟨body', hbody, hbind⟩ := bind_eq_ok.mp hbind
    obtain rfl := pure_eq_ok.mp hbind
    rcases hstep with _ | ⟨houter, -, -⟩ | ⟨houter, -, -⟩ | ⟨houter, hlength, he⟩
    · cases houter
    · cases houter
    · cases houter
      have hinner : Matches (lambdaFrame arg formals :: senv) _ _ :=
        .names (holds_lambdaFrame fresh) hlength hmatch
      rcases he with rfl | ⟨i, hi⟩
      · exact ⟨_, _, hbody, hinner⟩
      · have hdef := forEach_eq_ok.mp hdefs i
        cases hdefault : defs i with
        | none =>
          rw [hdefault] at hdef
          have hnone : none = defs' i := Except.ok.inj hdef
          rw [hi] at hnone
          cases hnone
        | some default =>
          rw [hdefault] at hdef
          obtain ⟨default', hdefault', hsome⟩ := bind_eq_ok.mp hdef
          have heq : some default' = defs' i := pure_eq_ok.mp hsome
          rw [hi] at heq
          cases heq
          exact ⟨_, _, hdefault', hinner⟩
  | letIn names kinds defs inheritFromExprs body =>
    obtain ⟨froms, hfroms, hbind⟩ := bind_eq_ok.mp hbind
    obtain ⟨defs', hdefs, hbind⟩ := bind_eq_ok.mp hbind
    obtain ⟨body', hbody, hbind⟩ := bind_eq_ok.mp hbind
    obtain rfl := pure_eq_ok.mp hbind
    rcases hstep with _ | ⟨houter, -, -⟩ | ⟨houter, hopens, hp⟩ | ⟨houter, -, -⟩
    · cases houter
    · cases houter
      have hinner := matches_of_opensAttrs hmatch hopens
      rcases hp with hp | rfl
      · exact isBound_of_entersAttrs hmatch hinner (forEach_eq_ok.mp hfroms)
          (forEach_eq_ok.mp hdefs) hp
      · exact ⟨_, _, hbody, hinner⟩
    · cases houter
  | withIn link attrs body =>
    obtain ⟨attrs', hattrs, hbind⟩ := bind_eq_ok.mp hbind
    obtain ⟨body', hbody, hbind⟩ := bind_eq_ok.mp hbind
    obtain rfl := pure_eq_ok.mp hbind
    rcases hstep with _ | ⟨houter, -, -⟩ | ⟨houter, -, -⟩ | ⟨houter, -, -⟩ | _ | _
    · cases houter
    · cases houter
    · cases houter
    · exact ⟨_, senv, hattrs, hmatch⟩
    · exact ⟨_, _, hbody, .attrsOf hmatch⟩

theorem Point.IsBound.of_reaches {p p' : Point V} (h : p.IsBound)
    (hreach : Relation.ReflTransGen Enters p p') : p'.IsBound := by
  induction hreach with
  | refl => exact h
  | tail _ hstep ih => exact ih.step hstep

def Point.LooksUpByName (p : Point V) : Prop :=
  ∀ name ref, p.expr = .var name ref →
    lookupVar forceAttrs undefinedVar p.env name ref false =
        some ((p.scope.lookup forceAttrs undefinedVar name).map some) ∧
      ∀ v, lookupVar forceAttrs undefinedVar p.env name ref true = some (.ok (some v)) →
        p.scope.lookup forceAttrs undefinedVar name = .ok v

theorem Point.IsBound.looksUpByName {p : Point V} (h : p.IsBound) :
    p.LooksUpByName forceAttrs undefinedVar := by
  obtain ⟨expr, env, scope⟩ := p
  obtain ⟨e, senv, hbind, hmatch⟩ := h
  rintro name ref rfl
  cases e with
  | var name' ref' =>
    obtain ⟨ref'', hvar, heq⟩ := bind_eq_ok.mp hbind
    cases pure_eq_ok.mp heq
    exact lookupVar_eq_of_bindVar forceAttrs undefinedVar hmatch hvar
  | inheritFrom displ => cases hbind
  | node parts =>
    obtain ⟨parts', -, heq⟩ := bind_eq_ok.mp hbind
    cases pure_eq_ok.mp heq
  | attrs recursive names kinds defs inheritFromExprs nameExprs valueExprs =>
    obtain ⟨froms, -, hbind⟩ := bind_eq_ok.mp hbind
    obtain ⟨defs', -, hbind⟩ := bind_eq_ok.mp hbind
    obtain ⟨dynamicAttrs, -, heq⟩ := bind_eq_ok.mp hbind
    cases pure_eq_ok.mp heq
  | lambda arg formals fresh defs body =>
    obtain ⟨defs', -, hbind⟩ := bind_eq_ok.mp hbind
    obtain ⟨body', -, heq⟩ := bind_eq_ok.mp hbind
    cases pure_eq_ok.mp heq
  | letIn names kinds defs inheritFromExprs body =>
    obtain ⟨froms, -, hbind⟩ := bind_eq_ok.mp hbind
    obtain ⟨defs', -, hbind⟩ := bind_eq_ok.mp hbind
    obtain ⟨body', -, heq⟩ := bind_eq_ok.mp hbind
    cases pure_eq_ok.mp heq
  | withIn link attrs body =>
    obtain ⟨attrs', -, hbind⟩ := bind_eq_ok.mp hbind
    obtain ⟨body', -, heq⟩ := bind_eq_ok.mp hbind
    cases pure_eq_ok.mp heq

/-- In a bound expression, every variable that evaluation reaches is looked up by its name. -/
theorem looksUpByName_of_reaches {e : Parsed} {e' : Bound} {senv : StaticEnv} {env : Env V}
    {scope : Scope V} {p : Point V} (hbind : e.bindVars senv = .ok e')
    (hmatch : Matches senv env scope)
    (hreach : Relation.ReflTransGen Enters ⟨e', env, scope⟩ p) :
    p.LooksUpByName forceAttrs undefinedVar := by
  have hbound : (Point.mk e' env scope).IsBound := ⟨e, senv, hbind, hmatch⟩
  exact (hbound.of_reaches hreach).looksUpByName forceAttrs undefinedVar

/-- `with a; with b; c`. -/
def nestedWith : Parsed :=
  .withIn () .constant (.withIn () .constant (.var 2 ()))

/-- The attribute is in the outer set only. -/
theorem looksUpByName_of_reaches_nestedWith :
    (Point.mk (.var 2 ⟨some (.inner 1 .outermost), 0, 0⟩) [[6], [5]]
        [.attrsOf 6, .attrsOf 5]).LooksUpByName
      (fun attrs => .ok fun _ => if attrs = 5 then some 9 else none) id := by
  refine looksUpByName_of_reaches (e := nestedWith) _ _ rfl .nil ?_
  exact .tail (.single (@Enters.withBody Nat [] [] _ _ _ 5)) .withBody

end Match

/-! ### Undefined variables -/

/-- Sorted variables, or those of a `with`. -/
def WellFormed (senv : StaticEnv) : Prop :=
  ∀ frame ∈ senv, frame.vars.Pairwise (·.1 ≤ ·.1)

/-- The names that are bound by the constructs around an expression, besides `with`. -/
def visible (senv : StaticEnv) (name : Symbol) : Prop :=
  ∃ frame ∈ senv, frame.isWith = none ∧ ∃ displ, (name, displ) ∈ frame.vars

/-- There is a `with` around an expression. -/
def underWith (senv : StaticEnv) : Prop :=
  ∃ frame ∈ senv, frame.isWith.isSome

mutual

/-- Every variable has one of the names that are bound around it or is in the body of a `with`. -/
def Expr.Scoped : Parsed → (Symbol → Prop) → Prop → Prop
  | .var name _, names, within => names name ∨ within
  | .inheritFrom _, _, _ => True
  | .node parts, names, within => ∀ i, (parts i).Scoped names within
  | .attrs recursive bound kinds defs (m := m) inheritFromExprs nameExprs valueExprs, names,
      within =>
      let inner := fun name => recursive = true ∧ name ∈ bound ∨ names name
      (∀ i, (inheritFromExprs i).Scoped inner within) ∧
        (∀ i, (defs i).Scoped
          ((kinds i).choose inner names fun name => m ≠ 0 ∧ inner name)
          ((kinds i).choose within within (m ≠ 0 ∧ within))) ∧
        ∀ i, (nameExprs i).Scoped inner within ∧ (valueExprs i).Scoped inner within
  | .lambda arg formals _ defs body, names, within =>
      let inner := fun name => (arg = some name ∨ name ∈ formals) ∨ names name
      (∀ i, scopedDefault (defs i) inner within) ∧ body.Scoped inner within
  | .letIn bound kinds defs (m := m) inheritFromExprs body, names, within =>
      let inner := fun name => name ∈ bound ∨ names name
      (∀ i, (inheritFromExprs i).Scoped inner within) ∧
        (∀ i, (defs i).Scoped
          ((kinds i).choose inner names fun name => m ≠ 0 ∧ inner name)
          ((kinds i).choose within within (m ≠ 0 ∧ within))) ∧
        body.Scoped inner within
  | .withIn _ attrs body, names, within =>
      attrs.Scoped names within ∧ body.Scoped names True

/-- `Scoped` of the default of a formal argument, if it has one. -/
def scopedDefault : Option Parsed → (Symbol → Prop) → Prop → Prop
  | none, _, _ => True
  | some e, names, within => e.Scoped names within

end

theorem visible_cons {frame : StaticFrame} (senv : StaticEnv) (name : Symbol) :
    visible (frame :: senv) name ↔
      (frame.isWith = none ∧ ∃ displ, (name, displ) ∈ frame.vars) ∨ visible senv name :=
  List.exists_mem_cons_iff _ _ _

theorem visible_names {frame : StaticFrame} {names : List Symbol} (hframe : frame.isWith = none)
    (hperm : frame.vars.Perm names.zipIdx) (senv : StaticEnv) :
    visible (frame :: senv) = fun name => name ∈ names ∨ visible senv name := by
  funext name
  have hmem : (∃ displ, (name, displ) ∈ frame.vars) ↔ name ∈ names := by
    rw [List.mem_iff_getElem?]
    exact exists_congr fun displ => hperm.mem_iff.trans List.mem_zipIdx_iff_getElem?
  rw [visible_cons, hmem, and_iff_right hframe]

theorem underWith_cons {frame : StaticFrame} (senv : StaticEnv) :
    underWith (frame :: senv) ↔ frame.isWith.isSome ∨ underWith senv :=
  List.exists_mem_cons_iff _ _ _

theorem underWith_names {frame : StaticFrame} (hframe : frame.isWith = none) (senv : StaticEnv) :
    underWith (frame :: senv) = underWith senv := by
  rw [eq_iff_iff, underWith_cons, hframe]
  exact or_iff_right Bool.false_ne_true

theorem WellFormed.cons {frame : StaticFrame} {senv : StaticEnv}
    (hsorted : frame.vars.Pairwise (·.1 ≤ ·.1)) (h : WellFormed senv) :
    WellFormed (frame :: senv) :=
  List.forall_mem_cons.mpr ⟨hsorted, h⟩

theorem find_isSome {frame : StaticFrame} (hsorted : frame.vars.Pairwise (·.1 ≤ ·.1))
    (name : Symbol) : (frame.find name).isSome ↔ ∃ displ, (name, displ) ∈ frame.vars := by
  rw [Option.isSome_iff_exists]
  exact ⟨fun ⟨displ, h⟩ => ⟨displ, mem_vars_of_find h⟩,
    fun ⟨_, h⟩ => exists_find_of_mem hsorted h⟩

theorem findVar_spec {senv : StaticEnv} (h : WellFormed senv) (name : Symbol) (level : Nat)
    (withLevel : Option Nat) :
    (∃ found, findVar name senv level withLevel = .inl found) ∧ visible senv name ∨
      (∃ nearest, findVar name senv level withLevel = .inr nearest ∧
          (nearest.isSome ↔ withLevel.isSome ∨ underWith senv)) ∧
        ¬visible senv name := by
  induction senv generalizing level withLevel with
  | nil => exact .inr ⟨⟨withLevel, rfl, by simp [underWith]⟩, by simp [visible]⟩
  | cons frame senv ih =>
    obtain ⟨hsorted, h⟩ := List.forall_mem_cons.mp h
    rw [findVar, visible_cons, underWith_cons]
    cases hwith : frame.isWith with
    | some link =>
      rw [if_pos (show (some link).isSome = true from rfl)]
      rcases ih h (level + 1) (withLevel.or (some level)) with
        ⟨hfound, hvisible⟩ | ⟨hnone, hvisible⟩
      · exact .inl ⟨hfound, .inr hvisible⟩
      · obtain ⟨nearest, hnearest, hsome⟩ := hnone
        refine .inr ⟨⟨nearest, hnearest, ?_⟩, ?_⟩
        · rw [hsome, Option.isSome_or]
          simp
        · rintro (⟨hplain, -⟩ | hv)
          · cases hplain
          · exact hvisible hv
    | none =>
      rw [if_neg (show ¬(none : Option WithLink).isSome = true from Bool.false_ne_true)]
      cases hfind : frame.find name with
      | some displ =>
        have hmem := (find_isSome hsorted name).mp (by rw [hfind]; rfl)
        exact .inl ⟨⟨_, rfl⟩, .inl ⟨rfl, hmem⟩⟩
      | none =>
        have hnot : ¬∃ displ, (name, displ) ∈ frame.vars := by
          rw [← find_isSome hsorted, hfind]
          exact Bool.false_ne_true
        rcases ih h (level + 1) withLevel with ⟨hfound, hvisible⟩ | ⟨hnone, hvisible⟩
        · exact .inl ⟨hfound, .inr hvisible⟩
        · obtain ⟨nearest, hnearest, hsome⟩ := hnone
          refine .inr ⟨⟨nearest, hnearest, ?_⟩, ?_⟩
          · rw [hsome]
            simp
          · rintro (⟨-, hmem⟩ | hv)
            · exact hnot hmem
            · exact hvisible hv

theorem exists_bindVar {senv : StaticEnv} (h : WellFormed senv) (name : Symbol) :
    (∃ ref, bindVar name senv = .ok ref) ↔ visible senv name ∨ underWith senv := by
  rw [bindVar]
  rcases findVar_spec h name 0 none with ⟨⟨found, hfound⟩, hvisible⟩ | ⟨hnone, hvisible⟩
  · rw [hfound]
    exact iff_of_true ⟨_, rfl⟩ (.inl hvisible)
  · obtain ⟨nearest, hnearest, hsome⟩ := hnone
    rw [hnearest, or_iff_right hvisible]
    cases nearest with
    | none =>
      refine iff_of_false ?_ fun hunder => Bool.false_ne_true (hsome.mpr (.inr hunder))
      rintro ⟨ref, href⟩
      cases href
    | some level =>
      refine iff_of_true ⟨_, rfl⟩ ?_
      rcases hsome.mp rfl with hno | hunder
      · cases hno
      · exact hunder

theorem scoped_choose {e : Parsed} {kind : AttrKind} {newEnv senv : StaticEnv} {m : Nat}
    (hiff : ∀ {env : StaticEnv}, WellFormed env →
      ((∃ e', e.bindVars env = .ok e') ↔ e.Scoped (visible env) (underWith env)))
    (hnew : WellFormed newEnv) (h : WellFormed senv) :
    (∃ e', e.bindVars (kind.choose newEnv senv (if m = 0 then [] else inheritFromFrame :: newEnv)) =
        .ok e') ↔
      e.Scoped
        (kind.choose (visible newEnv) (visible senv) fun name => m ≠ 0 ∧ visible newEnv name)
        (kind.choose (underWith newEnv) (underWith senv) (m ≠ 0 ∧ underWith newEnv)) := by
  cases kind with
  | plain => exact hiff hnew
  | inherited => exact hiff h
  | inheritedFrom =>
    by_cases hm : m = 0
    · have hvisible : (fun name => m ≠ 0 ∧ visible newEnv name) = visible [] := by
        funext name
        simp [hm, visible]
      have hunder : (m ≠ 0 ∧ underWith newEnv) = underWith [] := by
        simp [hm, underWith]
      simp only [AttrKind.choose, hvisible, hunder, if_pos hm]
      exact hiff (List.forall_mem_nil _)
    · have hvisible : (fun name => m ≠ 0 ∧ visible newEnv name) =
          visible (inheritFromFrame :: newEnv) := by
        funext name
        simp [hm, visible_cons, inheritFromFrame]
      have hunder : (m ≠ 0 ∧ underWith newEnv) = underWith (inheritFromFrame :: newEnv) := by
        rw [underWith_names rfl, eq_iff_iff, and_iff_right hm]
      simp only [AttrKind.choose, hvisible, hunder, if_neg hm]
      exact hiff (WellFormed.cons List.Pairwise.nil hnew)

mutual

theorem exists_bindVars : (e : Parsed) → {senv : StaticEnv} → WellFormed senv →
    ((∃ e', e.bindVars senv = .ok e') ↔ e.Scoped (visible senv) (underWith senv))
  | .var name _, senv, h => exists_bind_pure (exists_bindVar h name)
  | .inheritFrom displ, _, _ => iff_of_true ⟨_, rfl⟩ trivial
  | .node parts, senv, h =>
    exists_bind_pure (exists_forEach.trans (forall_congr' fun i => exists_bindVars (parts i) h))
  | .attrs recursive bound kinds defs (m := m) inheritFromExprs nameExprs valueExprs, senv, h => by
    obtain ⟨newEnv, hnewEnv, hnew, hvisible, hunder⟩ : ∃ newEnv,
        (if recursive then attrsFrame bound :: senv else senv) = newEnv ∧ WellFormed newEnv ∧
          (∀ name, (recursive = true ∧ name ∈ bound ∨ visible senv name) = visible newEnv name) ∧
          underWith senv = underWith newEnv := by
      cases recursive with
      | false => exact ⟨_, rfl, h, fun name => by simp, rfl⟩
      | true =>
        refine ⟨_, rfl, .cons (sorted_attrsFrame bound) h, fun name => ?_,
          (underWith_names rfl senv).symm⟩
        rw [if_pos rfl, visible_names rfl (List.Perm.refl _)]
        simp [SortedSet.mem_def]
    simp only [Expr.bindVars, hnewEnv, Expr.Scoped, hvisible, hunder]
    refine exists_bind_eq_ok
      (exists_forEach.trans (forall_congr' fun i => exists_bindVars (inheritFromExprs i) hnew))
      fun froms => exists_bind_eq_ok (exists_forEach.trans (forall_congr' fun i => ?_))
      fun defs' => exists_bind_pure (exists_forEach.trans (forall_congr' fun i => ?_))
    · have hdef := @scoped_choose _ (kinds i) _ _ m
        (fun henv => exists_bindVars (defs i) henv) hnew h
      rwa [hunder] at hdef
    · exact exists_bind_eq_ok (exists_bindVars (nameExprs i) hnew) fun nameExpr =>
        exists_bind_pure (exists_bindVars (valueExprs i) hnew)
  | .lambda arg formals fresh defs body, senv, h => by
    have hnew : WellFormed (lambdaFrame arg formals :: senv) :=
      .cons (sorted_lambdaFrame arg formals) h
    have hvisible : (fun name => (arg = some name ∨ name ∈ formals) ∨ visible senv name) =
        visible (lambdaFrame arg formals :: senv) := by
      rw [@visible_names _ (arg.toList ++ formals.elems) rfl (List.mergeSort_perm _ _)]
      simp [SortedSet.mem_def]
    rw [Expr.Scoped, hvisible, ← @underWith_names (lambdaFrame arg formals) rfl]
    exact exists_bind_eq_ok
      (exists_forEach.trans (forall_congr' fun i => exists_bindDefault (defs i) hnew))
      fun defs' => exists_bind_pure (exists_bindVars body hnew)
  | .letIn bound kinds defs (m := m) inheritFromExprs body, senv, h => by
    have hnew : WellFormed (attrsFrame bound :: senv) := .cons (sorted_attrsFrame bound) h
    have hvisible : ∀ name, (name ∈ bound ∨ visible senv name) =
        visible (attrsFrame bound :: senv) name := by
      intro name
      rw [visible_names rfl (List.Perm.refl _)]
      rfl
    have hunder : underWith senv = underWith (attrsFrame bound :: senv) :=
      (underWith_names rfl senv).symm
    simp only [Expr.bindVars, Expr.Scoped, hvisible]
    rw [hunder]
    refine exists_bind_eq_ok
      (exists_forEach.trans (forall_congr' fun i => exists_bindVars (inheritFromExprs i) hnew))
      fun froms => exists_bind_eq_ok (exists_forEach.trans (forall_congr' fun i => ?_))
      fun defs' => exists_bind_pure (exists_bindVars body hnew)
    have hdef := @scoped_choose _ (kinds i) _ _ m
      (fun henv => exists_bindVars (defs i) henv) hnew h
    rwa [hunder] at hdef
  | .withIn link attrs body, senv, h => by
    have hnew : WellFormed (⟨some (bindWith senv), []⟩ :: senv) := .cons List.Pairwise.nil h
    have hvisible : visible senv = visible (⟨some (bindWith senv), []⟩ :: senv) := by
      funext name
      simp [visible_cons]
    have hunder : True = underWith (⟨some (bindWith senv), []⟩ :: senv) := by
      rw [eq_iff_iff, underWith_cons]
      exact iff_of_true trivial (.inl rfl)
    have hbody := exists_bindVars body hnew
    rw [← hvisible, ← hunder] at hbody
    exact exists_bind_eq_ok (exists_bindVars attrs h) fun attrs' => exists_bind_pure hbody

theorem exists_bindDefault : (default : Option Parsed) → {senv : StaticEnv} → WellFormed senv →
    ((∃ e', bindDefault default senv = .ok e') ↔
      scopedDefault default (visible senv) (underWith senv))
  | none, _, _ => iff_of_true ⟨_, rfl⟩ trivial
  | some e, _, h => exists_bind_pure (exists_bindVars e h)

end

/-- An expression can be bound if and only if no variable in it is undefined. -/
theorem binds_iff_scoped {e : Parsed} {senv : StaticEnv} (h : WellFormed senv) :
    (∃ e', e.bindVars senv = .ok e') ↔ e.Scoped (visible senv) (underWith senv) :=
  exists_bindVars e h

/-- A variable that is only in a `with`. -/
theorem binds_iff_scoped_nestedWith :
    (∃ e', nestedWith.bindVars [attrsFrame .empty] = .ok e') ↔
      nestedWith.Scoped (visible [attrsFrame .empty]) (underWith [attrsFrame .empty]) :=
  binds_iff_scoped (.cons (sorted_attrsFrame .empty) (List.forall_mem_nil _))

end Nix.Eval.StaticEnvs
