import Mathlib.Data.List.Sort
import Nix.Eval.StringContexts
import Nix.Lib.SortedMaps
import Nix.Lib.SortedTrees

/-!
How the context of a string is made a set of attributes, and a context is appended from one.
-/

set_option linter.dupNamespace false

namespace Nix.Eval.ContextPrimops

open Util.Types Util.Hashes Lib.Results Lib.SortedList Lib.SortedTrees Store.Path Store.StoreDirs
  Store.DerivedPaths Eval.StringContexts

/-- What is opaque comes first, and what is built is compared by its path first. -/
def cmpSingle : SingleDerivedPath → SingleDerivedPath → Ordering
  | .opaquePath path, .opaquePath path' => StorePath.cmp path path'
  | .opaquePath _, .built _ _ => .lt
  | .built _ _, .opaquePath _ => .gt
  | .built drvPath output, .built drvPath' output' =>
      (cmpSingle drvPath drvPath').then (compare output output')

theorem cmpSingle_eq_iff {p q : SingleDerivedPath} : cmpSingle p q = .eq ↔ p = q := by
  induction p generalizing q with
  | opaquePath path =>
    cases q with
    | opaquePath path' =>
      rw [cmpSingle, Std.LawfulEqCmp.compare_eq_iff_eq, SingleDerivedPath.opaquePath.injEq]
    | built drvPath' output' => exact iff_of_false nofun nofun
  | built drvPath output ih =>
    cases q with
    | opaquePath path' => exact iff_of_false nofun nofun
    | built drvPath' output' =>
      rw [cmpSingle, Ordering.then_eq_eq, ih, Std.LawfulEqCmp.compare_eq_iff_eq,
        SingleDerivedPath.built.injEq]

theorem cmpSingle_swap (p q : SingleDerivedPath) : cmpSingle p q = (cmpSingle q p).swap := by
  induction p generalizing q with
  | opaquePath path =>
    cases q with
    | opaquePath path' => exact @Std.OrientedCmp.eq_swap StorePath StorePath.cmp _ path path'
    | built drvPath' output' => rfl
  | built drvPath output ih =>
    cases q with
    | opaquePath path' => rfl
    | built drvPath' output' =>
      rw [cmpSingle, cmpSingle, Ordering.swap_then, ih,
        @Std.OrientedCmp.eq_swap Bytes compare _ output output']

theorem cmpSingle_antisymm {p q : SingleDerivedPath} (hpq : (cmpSingle p q).isLE)
    (hqp : (cmpSingle q p).isLE) : p = q := by
  rw [cmpSingle_swap q p] at hqp
  exact cmpSingle_eq_iff.mp (Ordering.eq_eq_of_isLE_of_isLE_swap hpq hqp)

theorem cmpSingle_trans {p q r : SingleDerivedPath} (hpq : (cmpSingle p q).isLE)
    (hqr : (cmpSingle q r).isLE) : (cmpSingle p r).isLE := by
  induction p generalizing q r with
  | opaquePath path =>
    cases r with
    | built drvPath'' output'' => rfl
    | opaquePath path'' =>
      cases q with
      | opaquePath path' =>
        exact @Std.TransCmp.isLE_trans StorePath StorePath.cmp _ path path' path'' hpq hqr
      | built drvPath' output' => cases hqr
  | built drvPath output ih =>
    cases q with
    | opaquePath path' => cases hpq
    | built drvPath' output' =>
      cases r with
      | opaquePath path'' => cases hqr
      | built drvPath'' output'' =>
        rw [cmpSingle, Ordering.isLE_then_iff_and] at hpq hqr ⊢
        have hle := ih hpq.1 hqr.1
        refine ⟨hle, ?_⟩
        rcases Ordering.isLE_iff_eq_lt_or_eq_eq.mp hle with hlt | heq
        · exact Or.inl hlt
        · -- all the three paths are one
          obtain rfl := cmpSingle_eq_iff.mp heq
          obtain rfl := cmpSingle_antisymm hpq.1 hqr.1
          have hself : cmpSingle drvPath drvPath ≠ .lt := by rw [heq]; decide
          exact Or.inr (Std.TransCmp.isLE_trans (hpq.2.resolve_left hself)
            (hqr.2.resolve_left hself))

instance : Ord SingleDerivedPath := ⟨cmpSingle⟩

instance : Std.TransOrd SingleDerivedPath where
  eq_swap := cmpSingle_swap _ _
  isLE_trans := cmpSingle_trans

instance : Std.LawfulEqOrd SingleDerivedPath where
  compare_self := cmpSingle_eq_iff.mpr rfl
  eq_of_compare := cmpSingle_eq_iff.mp

def index : NixStringContextElem → Nat
  | .opaquePath _ => 0
  | .drvDeep _ => 1
  | .built _ _ => 2

/-- The path of the variant, with the output where there is one. -/
def content : NixStringContextElem → SingleDerivedPath
  | .opaquePath path => .opaquePath path
  | .drvDeep drvPath => .opaquePath drvPath
  | .built drvPath output => .built drvPath output

/-- A variant is ordered by its index, then by what it holds. -/
def cmpElem : NixStringContextElem → NixStringContextElem → Ordering :=
  compareLex (compareOn index) (compareOn content)

theorem eq_of_cmpElem {e f : NixStringContextElem} (h : cmpElem e f = .eq) : e = f := by
  rw [cmpElem, compareLex_eq_eq] at h
  have hindex : index e = index f := Std.LawfulEqCmp.eq_of_compare h.1
  have hcontent : content e = content f := Std.LawfulEqCmp.eq_of_compare h.2
  cases e <;> cases f <;> cases hindex <;> cases hcontent <;> rfl

instance : Std.TransCmp cmpElem :=
  inferInstanceAs (Std.TransCmp (compareLex (compareOn index) (compareOn content)))

instance : Std.LawfulEqCmp cmpElem where
  compare_self := Std.ReflCmp.compare_self
  eq_of_compare := eq_of_cmpElem

abbrev NixStringContext := SortedSet cmpElem

abbrev Attrs (ν : Type) := SortedMap (compare : Bytes → Bytes → Ordering) ν

/-- A value, where the elements of a context are encoded. A thunk is the value it evaluates to,
or the error that its evaluation ends with. -/
inductive Value
  | bool (b : Bool)
  | string (s : Bytes) (context : List Bytes)
  | list (size : Nat) (elem : Fin size → Value)
  | attrs (names : StringSet) (value : Fin names.elems.length → Value)
  /-- A value of another type, as `showType` says. -/
  | other (shown : Bytes)
  | failed (e : Error)

namespace Value

def ofElements (l : List Value) : Value :=
  .list l.length l.get

def ofMembers (m : Attrs Value) : Value :=
  .attrs ⟨m.elems.map Prod.fst, strictlySorted_byKey.mp m.sorted⟩
    fun i => (m.elems.get (i.cast (List.length_map _))).2

def showType : Value → Bytes
  | bool _ => str "a Boolean"
  | string _ [] => str "a string"
  | string _ (_ :: _) => str "a string with context"
  | list _ _ => str "a list"
  | attrs _ _ => str "a set"
  | other shown => shown
  | failed _ => str "an error"

def mkString (s : Bytes) (context : NixStringContext) : Value :=
  .string s (context.elems.map NixStringContextElem.toText)

end Value

/-- `NixStringContextElem::display`. -/
def display (cfg : StoreDirConfig) : NixStringContextElem → Bytes
  | .opaquePath path => (SingleDerivedPath.opaquePath path).toText cfg
  | .drvDeep drvPath => cfg.print drvPath ++ str " (deep)"
  | .built drvPath output => (SingleDerivedPath.built drvPath output).toText cfg

/-- What the builtins use of the evaluator and its store. -/
structure EvalState where
  store : StoreDirConfig
  xpSettings : ExperimentalFeatureSettings
  readOnlyMode : Bool
  /-- The symbol of a name; a set is iterated in the order of its symbols. -/
  create : Bytes → Nat
  ensurePath : StorePath → Except Error Unit
  /-- `deepQueryPartialDerivationOutput`. -/
  queryOutput : StorePath → Bytes → Except Error (Option StorePath)
  /-- `ValuePrinter`. -/
  printValue : Value → Bytes

namespace EvalState

variable (state : EvalState)

/-- Errors of the evaluator are all of the class `error`. -/
def raise {α : Type} (format : String) (args : List Bytes) : Except Error α :=
  .error ⟨.error, ⟨format, args⟩⟩

def forceBool : Value → Except Error Bool
  | .bool b => .ok b
  | .failed e => .error e
  | v => raise "expected a Boolean but found %1%: %2%" [v.showType, state.printValue v]

def forceList : Value → Except Error (List Value)
  | .list _ elem => .ok (List.ofFn elem)
  | .failed e => .error e
  | v => raise "expected a list but found %1%: %2%" [v.showType, state.printValue v]

def forceAttrs : Value → Except Error (Attrs Value)
  | .attrs names value => .ok (ofFamily names value)
  | .failed e => .error e
  | v => raise "expected a set but found %1%: %2%" [v.showType, state.printValue v]

def forceString : Value → Except Error (Bytes × List Bytes)
  | .string s context => .ok (s, context)
  | .failed e => .error e
  | v => raise "expected a string but found %1%: %2%" [v.showType, state.printValue v]

def copyContext (v : List Bytes) (context : NixStringContext) : Except Error NixStringContext :=
  v.foldlM (fun context elem => do
    let elem ← NixStringContextElem.parse state.xpSettings elem
    return context.insert elem) context

/-- `forceString`, which adds to a context. -/
def forceStringWith (v : Value) (context : NixStringContext) :
    Except Error (Bytes × NixStringContext) := do
  let (s, ctx) ← state.forceString v
  let context ← state.copyContext ctx context
  return (s, context)

def forceStringNoCtx (v : Value) : Except Error Bytes := do
  let (s, ctx) ← state.forceString v
  match ctx with
  | [] => return s
  | elem :: _ =>
      let ctxElem ← NixStringContextElem.parse state.xpSettings elem
      raise "the string '%1%' is not allowed to refer to a store path (such as '%2%')"
        [s, display state.store ctxElem]

/-- The attributes of a set, in the order of their symbols. -/
def iterate (attrs : Attrs Value) : List (Bytes × Value) :=
  attrs.elems.insertionSort fun i j => state.create i.1 ≤ state.create j.1

def resolveDerivedPath : SingleDerivedPath → Except Error StorePath
  | .opaquePath path => .ok path
  | .built drvPath output => do
      let drvPath ← resolveDerivedPath drvPath
      match ← state.queryOutput drvPath output with
      | some outPath => return outPath
      | none =>
          raise "cannot operate on output '%s' of the unbuilt derivation '%s'"
            [output, state.store.print drvPath]

end EvalState

structure ContextInfo where
  path : Bool := false
  allOutputs : Bool := false
  outputs : List Bytes := []
  deriving DecidableEq

abbrev ContextInfos := SortedMap StorePath.cmp ContextInfo

/-- `contextInfos[path]` is changed. -/
def update (contextInfos : ContextInfos) (path : StorePath) (f : ContextInfo → ContextInfo) :
    ContextInfos :=
  contextInfos.assign path (f ((contextInfos.find? path).getD {}))

def listIf {α : Type} (c : Bool) (a : α) : List α :=
  if c then [a] else []

theorem mem_listIf {α : Type} {c : Bool} {a b : α} : b ∈ listIf c a ↔ c ∧ b = a := by
  cases c with
  | false => exact iff_of_false List.not_mem_nil (fun h => Bool.false_ne_true h.1)
  | true => exact List.mem_singleton.trans (and_iff_right rfl).symm

def ContextInfo.infoAttrs (info : ContextInfo) : List (Bytes × Value) :=
  listIf info.path (str "path", Value.bool true) ++
    listIf info.allOutputs (str "allOutputs", Value.bool true) ++
      listIf (info.outputs ≠ [])
        (str "outputs", Value.ofElements (info.outputs.map fun output => Value.string output []))

def ContextInfo.toValue (info : ContextInfo) : Value :=
  .ofMembers (.ofList info.infoAttrs)

namespace EvalState

variable (state : EvalState)

def addToInfos (contextInfos : ContextInfos) :
    NixStringContextElem → Except Error ContextInfos
  | .drvDeep drvPath => return update contextInfos drvPath ({ · with allOutputs := true })
  | .built drvPath output => do
      let drvPath ← state.resolveDerivedPath drvPath
      return update contextInfos drvPath fun info =>
        { info with outputs := info.outputs ++ [output] }
  | .opaquePath path => return update contextInfos path ({ · with path := true })

def attrsOfInfos (contextInfos : ContextInfos) : Attrs Value :=
  .ofList (contextInfos.elems.map fun info => (state.store.print info.1, info.2.toValue))

def getContext (s : Value) : Except Error Value := do
  let (_, context) ← state.forceStringWith s .empty
  let contextInfos ← context.elems.foldlM state.addToInfos .empty
  return .ofMembers (state.attrsOfInfos contextInfos)

end EvalState

def isDerivation (fileName : Bytes) : Bool :=
  (str ".drv").isSuffixOf fileName

def isStorePath (cfg : StoreDirConfig) (path : Bytes) : Bool :=
  (cfg.parseStorePath path).toBool

namespace EvalState

variable (state : EvalState)

def flag (attrs : Attrs Value) (name : Bytes) : Except Error Bool :=
  match attrs.find? name with
  | some attr => state.forceBool attr
  | none => .ok false

def appendPath (namePath : StorePath) (attrs : Attrs Value) (context : NixStringContext) :
    Except Error NixStringContext := do
  if ← state.flag attrs (str "path") then return context.insert (.opaquePath namePath)
  else return context

def appendAllOutputs (name : Bytes) (namePath : StorePath) (attrs : Attrs Value)
    (context : NixStringContext) : Except Error NixStringContext := do
  if ← state.flag attrs (str "allOutputs") then
    if ¬isDerivation name then
      raise "tried to add all-outputs context of %s, which is not a derivation, to a string" [name]
    else return context.insert (.drvDeep namePath)
  else return context

def appendOutput (namePath : StorePath) (context : NixStringContext) (elem : Value) :
    Except Error NixStringContext := do
  let outputName ← state.forceStringNoCtx elem
  return context.insert (.built (.opaquePath namePath) outputName)

def appendOutputs (name : Bytes) (namePath : StorePath) (attrs : Attrs Value)
    (context : NixStringContext) : Except Error NixStringContext :=
  match attrs.find? (str "outputs") with
  | some attr => do
      let elems ← state.forceList attr
      if elems ≠ [] ∧ ¬isDerivation name then
        raise
          "tried to add derivation output context of %s, which is not a derivation, to a string"
          [name]
      else elems.foldlM (state.appendOutput namePath) context
  | none => .ok context

/-- `ensurePath`, unless nothing may be written. -/
def ensure (path : StorePath) : Except Error Unit :=
  if ¬state.readOnlyMode then state.ensurePath path else .ok ()

def appendEntry (context : NixStringContext) (i : Bytes × Value) :
    Except Error NixStringContext :=
  if ¬isStorePath state.store i.1 then raise "context key '%s' is not a store path" [i.1]
  else do
    let namePath ← state.store.parseStorePath i.1
    state.ensure namePath
    let attrs ← state.forceAttrs i.2
    let context ← state.appendPath namePath attrs context
    let context ← state.appendAllOutputs i.1 namePath attrs context
    state.appendOutputs i.1 namePath attrs context

def appendContext (s attrs : Value) : Except Error Value := do
  let (orig, context) ← state.forceStringWith s .empty
  let attrs ← state.forceAttrs attrs
  let context ← (state.iterate attrs).foldlM state.appendEntry context
  return .mkString orig context

end EvalState

end Nix.Eval.ContextPrimops
