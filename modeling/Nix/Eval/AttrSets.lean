import Mathlib.Data.List.Nodup
import Nix.Util.Types

set_option linter.dupNamespace false

namespace Nix.Eval.AttrSets

open Util.Types

/-- An interned name, which the maps of attributes are ordered by. -/
abbrev Symbol := Nat

variable {α : Type}

/-! ### Expressions

An expression that is not a set literal is an `α`. The nodes `ExprInheritFrom` of a set, each of
which the names of one `inherit (e)` clause share, are kept with the set: `froms` has the
displacements of the nodes, in the order of their creation, and an attribute that is inherited
from an expression points to its node. -/

mutual

inductive Expr (α : Type)
  | other (a : α)
  | attrs (e : ExprAttrs α)

inductive ExprAttrs (α : Type)
  | mk (recursive : Bool) (attrs : AttrDefs α) (inheritFromExprs : List α) (froms : List Nat)
      (dynamicAttrs : DynamicAttrs α)

/-- `AttrDefs`, with one constructor for each kind of definition. -/
inductive AttrDefs (α : Type)
  | nil
  | plain (name : Symbol) (e : Expr α) (rest : AttrDefs α)
  | inherited (name : Symbol) (rest : AttrDefs α)
  | inheritedFrom (name : Symbol) (node : Nat) (rest : AttrDefs α)

inductive DynamicAttrs (α : Type)
  | nil
  | cons (nameExpr : α) (valueExpr : Expr α) (rest : DynamicAttrs α)

end

inductive AttrDef (α : Type)
  | plain (e : Expr α)
  | inherited
  | inheritedFrom (node : Nat)

namespace AttrDefs

def cons (name : Symbol) (d : AttrDef α) (rest : AttrDefs α) : AttrDefs α :=
  match d with
  | .plain e => .plain name e rest
  | .inherited => .inherited name rest
  | .inheritedFrom node => .inheritedFrom name node rest

def find? : AttrDefs α → Symbol → Option (AttrDef α)
  | nil, _ => none
  | plain s e rest, name => if s = name then some (.plain e) else rest.find? name
  | inherited s rest, name => if s = name then some .inherited else rest.find? name
  | inheritedFrom s node rest, name =>
      if s = name then some (.inheritedFrom node) else rest.find? name

/-- `emplace`, for a name that is not there. -/
def emplace (name : Symbol) (d : AttrDef α) : AttrDefs α → AttrDefs α
  | nil => cons name d nil
  | plain s e rest =>
      if name < s then cons name d (plain s e rest) else plain s e (rest.emplace name d)
  | inherited s rest =>
      if name < s then cons name d (inherited s rest) else inherited s (rest.emplace name d)
  | inheritedFrom s node rest =>
      if name < s then cons name d (inheritedFrom s node rest)
      else inheritedFrom s node (rest.emplace name d)

/-- What `j->second.e` becomes when the set it points to changes. -/
def update (name : Symbol) (e : Expr α) : AttrDefs α → AttrDefs α
  | nil => nil
  | plain s e' rest => if s = name then plain s e rest else plain s e' (rest.update name e)
  | inherited s rest => inherited s (rest.update name e)
  | inheritedFrom s node rest => inheritedFrom s node (rest.update name e)

end AttrDefs

def DynamicAttrs.append : DynamicAttrs α → DynamicAttrs α → DynamicAttrs α
  | nil, l => l
  | cons name value rest, l => cons name value (rest.append l)

namespace ExprAttrs

def empty : ExprAttrs α := mk false .nil [] [] .nil

def recursive : ExprAttrs α → Bool
  | mk r _ _ _ _ => r

def attrs : ExprAttrs α → AttrDefs α
  | mk _ attrs _ _ _ => attrs

def inheritFromExprs : ExprAttrs α → List α
  | mk _ _ exprs _ _ => exprs

def froms : ExprAttrs α → List Nat
  | mk _ _ _ froms _ => froms

def dynamicAttrs : ExprAttrs α → DynamicAttrs α
  | mk _ _ _ _ dynamicAttrs => dynamicAttrs

def setRecursive (s : ExprAttrs α) (r : Bool) : ExprAttrs α :=
  mk r s.attrs s.inheritFromExprs s.froms s.dynamicAttrs

def setAttrs (s : ExprAttrs α) (attrs : AttrDefs α) : ExprAttrs α :=
  mk s.recursive attrs s.inheritFromExprs s.froms s.dynamicAttrs

def pushDynamic (s : ExprAttrs α) (nameExpr : α) (valueExpr : Expr α) : ExprAttrs α :=
  mk s.recursive s.attrs s.inheritFromExprs s.froms
    (s.dynamicAttrs.append (.cons nameExpr valueExpr .nil))

def append (s : ExprAttrs α) (exprs : List α) (froms : List Nat) (dynamicAttrs : DynamicAttrs α) :
    ExprAttrs α :=
  mk s.recursive s.attrs (s.inheritFromExprs ++ exprs) (s.froms ++ froms)
    (s.dynamicAttrs.append dynamicAttrs)

end ExprAttrs

def dupAttr : Error := ⟨.error, ⟨"attribute '%1%' already defined at %2%", []⟩⟩

def insertDef (s : ExprAttrs α) (name : Symbol) (d : AttrDef α) : Except Error (ExprAttrs α) :=
  match s.attrs.find? name with
  | some _ => .error dupAttr
  | none => .ok (s.setAttrs (s.attrs.emplace name d))

mutual

/-- `addAttr` for one name. -/
def addPlain (s : ExprAttrs α) (name : Symbol) : Expr α → Except Error (ExprAttrs α)
  | .other a => insertDef s name (.plain (.other a))
  | .attrs ae =>
      match s.attrs.find? name with
      | none => .ok (s.setAttrs (s.attrs.emplace name (.plain (.attrs ae))))
      | some (.plain (.attrs jAttrs)) => do
          let jAttrs ← mergeAttrs jAttrs ae
          return s.setAttrs (s.attrs.update name (.attrs jAttrs))
      | some _ => .error dupAttr

/-- Move everything of a set into a set that is already there. -/
def mergeAttrs (jAttrs : ExprAttrs α) : ExprAttrs α → Except Error (ExprAttrs α)
  | .mk _ attrs inheritFromExprs froms dynamicAttrs => do
      let (jAttrs, froms) ← moveAttrs jAttrs.inheritFromExprs.length jAttrs froms attrs
      return jAttrs.append inheritFromExprs froms dynamicAttrs

/-- The loop over the attributes of the merged set, which shifts the displacement of the node
of every attribute that is inherited from an expression. The nodes will be appended to those
of the other set. -/
def moveAttrs (size : Nat) (jAttrs : ExprAttrs α) (froms : List Nat) :
    AttrDefs α → Except Error (ExprAttrs α × List Nat)
  | .nil => .ok (jAttrs, froms)
  | .plain name e rest => do
      let jAttrs ← addPlain jAttrs name e
      moveAttrs size jAttrs froms rest
  | .inherited name rest => do
      let jAttrs ← insertDef jAttrs name .inherited
      moveAttrs size jAttrs froms rest
  | .inheritedFrom name node rest => do
      let jAttrs ← insertDef jAttrs name (.inheritedFrom (size + node))
      moveAttrs size jAttrs (froms.modify node (· + size)) rest

end

inductive AttrName (α : Type)
  | symbol (s : Symbol)
  | expr (e : α)

/-- `addAttr` for a path with a first name and further names. -/
def addAttr (s : ExprAttrs α) (e : Expr α) :
    AttrName α → List (AttrName α) → Except Error (ExprAttrs α)
  | .symbol name, [] => addPlain s name e
  | .expr nameExpr, [] => .ok (s.pushDynamic nameExpr e)
  | .symbol name, next :: path =>
      match s.attrs.find? name with
      | none => do
          let nested ← addAttr .empty e next path
          return s.setAttrs (s.attrs.emplace name (.plain (.attrs nested)))
      | some (.plain (.attrs nested)) => do
          let nested ← addAttr nested e next path
          return s.setAttrs (s.attrs.update name (.attrs nested))
      | some _ => .error dupAttr
  | .expr nameExpr, next :: path => do
      let nested ← addAttr .empty e next path
      return s.pushDynamic nameExpr (.attrs nested)

def inheritNames (d : AttrDef α) (s : ExprAttrs α) : List Symbol → Except Error (ExprAttrs α)
  | [] => .ok s
  | name :: names => do
      let s ← insertDef s name d
      inheritNames d s names

/-- The node of a clause `inherit (e)`. -/
def pushFrom (s : ExprAttrs α) (e : α) : ExprAttrs α :=
  s.append [e] [s.inheritFromExprs.length] .nil

mutual

inductive Source (α : Type)
  | other (a : α)
  | set (recursive : Bool) (binds : Binds α)

/-- The bindings of a set literal. The last one is the outermost, as in the grammar. -/
inductive Binds (α : Type)
  | nil
  | attr (accum : Binds α) (name : AttrName α) (path : List (AttrName α)) (e : Source α)
  | inherit (accum : Binds α) (names : List Symbol)
  | inheritFrom (accum : Binds α) (e : α) (names : List Symbol)

end

mutual

def parse : Source α → Except Error (Expr α)
  | .other a => .ok (.other a)
  | .set recursive binds => do
      let s ← parseBinds binds
      return .attrs (s.setRecursive recursive)

def parseBinds : Binds α → Except Error (ExprAttrs α)
  | .nil => .ok .empty
  | .attr accum name path e => do
      let s ← parseBinds accum
      let e ← parse e
      addAttr s e name path
  | .inherit accum names => do
      let s ← parseBinds accum
      inheritNames .inherited s names
  | .inheritFrom accum e names => do
      let s ← parseBinds accum
      inheritNames (.inheritedFrom s.inheritFromExprs.length) (pushFrom s e) names

end

mutual

/-- A set literal in which every name is bound once, at its full depth, and every name that is
inherited from an expression has a clause of its own. -/
inductive Lit (α : Type)
  | other (a : α)
  | set (s : LitSet α)

inductive LitSet (α : Type)
  | mk (recursive : Bool) (table : Symbol → Entry α) (dynamicAttrs : LitDynamic α)

inductive Entry (α : Type)
  | absent
  | plain (l : Lit α)
  | inherited
  | inheritedFrom (e : α)
  /-- No expression: the displacement is too large. -/
  | undefined

inductive LitDynamic (α : Type)
  | nil
  | cons (nameExpr : α) (valueExpr : Lit α) (rest : LitDynamic α)

end

def LitDynamic.append : LitDynamic α → LitDynamic α → LitDynamic α
  | nil, l => l
  | cons name value rest, l => cons name value (rest.append l)

mutual

def LitSet.union : LitSet α → LitSet α → LitSet α
  | .mk r table dynamicAttrs, .mk _ table' dynamicAttrs' =>
      .mk r (fun name => Entry.union (table name) (table' name))
        (dynamicAttrs.append dynamicAttrs')

def Lit.union : Lit α → Lit α → Lit α
  | .set s, .set s' => .set (s.union s')
  | l, _ => l

def Entry.union : Entry α → Entry α → Entry α
  | .absent, d => d
  | .plain l, .plain l' => .plain (l.union l')
  | d, _ => d

end

def LitSet.empty (recursive : Bool) : LitSet α := .mk recursive (fun _ => .absent) .nil

def LitSet.single (name : Symbol) (d : Entry α) : LitSet α :=
  .mk false (fun name' => if name' = name then d else .absent) .nil

def LitSet.dynamic (nameExpr : α) (l : Lit α) : LitSet α :=
  .mk false (fun _ => .absent) (.cons nameExpr l .nil)

def LitSet.nest (l : Lit α) : AttrName α → List (AttrName α) → LitSet α
  | .symbol name, [] => .single name (.plain l)
  | .expr nameExpr, [] => .dynamic nameExpr l
  | .symbol name, next :: path => .single name (.plain (.set (nest l next path)))
  | .expr nameExpr, next :: path => .dynamic nameExpr (.set (nest l next path))

def LitSet.names (d : Entry α) (names : List Symbol) : LitSet α :=
  .mk false (fun name => if name ∈ names then d else .absent) .nil

def LitSet.setRecursive (recursive : Bool) : LitSet α → LitSet α
  | .mk _ table dynamicAttrs => .mk recursive table dynamicAttrs

mutual

def written : Source α → Lit α
  | .other a => .other a
  | .set recursive binds => .set ((writtenBinds binds).setRecursive recursive)

def writtenBinds : Binds α → LitSet α
  | .nil => .empty false
  | .attr accum name path e => (writtenBinds accum).union (.nest (written e) name path)
  | .inherit accum names => (writtenBinds accum).union (.names .inherited names)
  | .inheritFrom accum e names => (writtenBinds accum).union (.names (.inheritedFrom e) names)

end

/-- What evaluation is made of beside the attributes of sets: environments, values, other
expressions, the lookup of an inherited name, the selection of an attribute, and the set that
is made of the values of the attributes, which can refer to each other in a recursive set. -/
structure Interpretation (α : Type) where
  Env : Type
  Value : Type
  other : α → Env → Value
  lookup : Symbol → Env → Value
  select : Value → Symbol → Value
  /-- A read past the end of the environment of inherited expressions. -/
  undefined : Value
  attrs : Bool → Env → (Symbol → Option (Env → Value)) → List ((Env → Value) × (Env → Value)) →
    Value

variable (i : Interpretation α)

mutual

def Expr.eval : Expr α → i.Env → i.Value
  | .other a, env => i.other a env
  | .attrs s, env => s.eval env

/-- The plain attributes are evaluated in the environment of the set, the inherited ones in the
environment around it, and the others select from `inheritEnv`. -/
def ExprAttrs.eval : ExprAttrs α → i.Env → i.Value
  | .mk recursive attrs inheritFromExprs froms dynamicAttrs, env =>
      let inheritEnv (env2 : i.Env) := inheritFromExprs.map fun e => i.other e env2
      i.attrs recursive env (fun name => attrs.eval env (fun env2 node =>
          ((froms[node]?).bind ((inheritEnv env2)[·]?)).getD i.undefined) name)
        dynamicAttrs.eval

def AttrDefs.eval : AttrDefs α → i.Env → (i.Env → Nat → i.Value) → Symbol →
    Option (i.Env → i.Value)
  | .nil, _, _, _ => none
  | .plain s e rest, env, inheritFrom, name =>
      if s = name then some e.eval else rest.eval env inheritFrom name
  | .inherited s rest, env, inheritFrom, name =>
      if s = name then some fun _ => i.lookup s env else rest.eval env inheritFrom name
  | .inheritedFrom s node rest, env, inheritFrom, name =>
      if s = name then some fun env2 => i.select (inheritFrom env2 node) s
      else rest.eval env inheritFrom name

def DynamicAttrs.eval : DynamicAttrs α → List ((i.Env → i.Value) × (i.Env → i.Value))
  | .nil => []
  | .cons nameExpr valueExpr rest => (i.other nameExpr, valueExpr.eval) :: rest.eval

end

mutual

def Lit.eval : Lit α → i.Env → i.Value
  | .other a, env => i.other a env
  | .set s, env => s.eval env

def LitSet.eval : LitSet α → i.Env → i.Value
  | .mk recursive table dynamicAttrs, env =>
      i.attrs recursive env (fun name => (table name).eval env name) dynamicAttrs.eval

def Entry.eval : Entry α → i.Env → Symbol → Option (i.Env → i.Value)
  | .absent, _, _ => none
  | .plain l, _, _ => some l.eval
  | .inherited, env, name => some fun _ => i.lookup name env
  | .inheritedFrom e, _, name => some fun env2 => i.select (i.other e env2) name
  | .undefined, _, name => some fun _ => i.select i.undefined name

def LitDynamic.eval : LitDynamic α → List ((i.Env → i.Value) × (i.Env → i.Value))
  | .nil => []
  | .cons nameExpr valueExpr rest => (i.other nameExpr, valueExpr.eval) :: rest.eval

end

/-!
The attributes of a set as a partial map: what the operations of the parser do is read from
`find?`.
-/

variable {α : Type}

namespace AttrDefs

def names : AttrDefs α → List Symbol
  | nil => []
  | plain s _ rest => s :: rest.names
  | inherited s rest => s :: rest.names
  | inheritedFrom s _ rest => s :: rest.names

/-- The nodes that the attributes point to, each as often as it is shared. -/
def nodes : AttrDefs α → List Nat
  | nil => []
  | plain _ _ rest => rest.nodes
  | inherited _ rest => rest.nodes
  | inheritedFrom _ node rest => node :: rest.nodes

theorem names_cons (name : Symbol) (d : AttrDef α) (rest : AttrDefs α) :
    (cons name d rest).names = name :: rest.names := by
  cases d <;> rfl

theorem find?_cons (name n : Symbol) (d : AttrDef α) (rest : AttrDefs α) :
    (cons name d rest).find? n = if name = n then some d else rest.find? n := by
  cases d <;> rfl

theorem cons_cases {P : AttrDefs α → Prop} (nil : P nil)
    (cons : ∀ name d rest, P rest → P (cons name d rest)) (attrs : AttrDefs α) : P attrs := by
  match attrs with
  | .nil => exact nil
  | .plain name e rest => exact cons name (.plain e) rest (cons_cases nil cons rest)
  | .inherited name rest => exact cons name .inherited rest (cons_cases nil cons rest)
  | .inheritedFrom name node rest =>
      exact cons name (.inheritedFrom node) rest (cons_cases nil cons rest)

theorem emplace_cons (name s : Symbol) (d d' : AttrDef α) (rest : AttrDefs α) :
    (cons s d' rest).emplace name d =
      if name < s then cons name d (cons s d' rest) else cons s d' (rest.emplace name d) := by
  cases d' <;> rfl

theorem find?_eq_none {attrs : AttrDefs α} {n : Symbol} :
    attrs.find? n = none ↔ n ∉ attrs.names := by
  induction attrs using cons_cases with
  | nil => simp [find?, names]
  | cons name d rest ih =>
      rw [find?_cons, names_cons, List.mem_cons]
      by_cases h : name = n
      · simp [h]
      · simp [h, Ne.symm h, ih]

theorem find?_emplace {attrs : AttrDefs α} {name : Symbol} (hname : attrs.find? name = none)
    (d : AttrDef α) (n : Symbol) :
    (attrs.emplace name d).find? n = if name = n then some d else attrs.find? n := by
  induction attrs using cons_cases with
  | nil => exact find?_cons name n d nil
  | cons s d' rest ih =>
      rw [emplace_cons]
      rw [find?_cons] at hname
      have hs : s ≠ name := by
        rintro rfl
        simp at hname
      rw [if_neg hs] at hname
      split
      next => rw [find?_cons]
      next =>
        rw [find?_cons, find?_cons, ih hname]
        by_cases hn : name = n
        · subst hn
          simp [hs]
        · simp [hn]

theorem names_emplace (name : Symbol) (d : AttrDef α) (attrs : AttrDefs α) :
    (attrs.emplace name d).names.Perm (name :: attrs.names) := by
  induction attrs using cons_cases with
  | nil => rw [emplace, names_cons]
  | cons s d' rest ih =>
      rw [emplace_cons]
      split
      next => rw [names_cons]
      next =>
        rw [names_cons, names_cons]
        exact (ih.cons s).trans (List.Perm.swap name s _)

theorem nodup_emplace {attrs : AttrDefs α} {name : Symbol} (hname : attrs.find? name = none)
    (d : AttrDef α) (h : attrs.names.Nodup) : (attrs.emplace name d).names.Nodup :=
  (names_emplace name d attrs).nodup_iff.mpr (List.nodup_cons.mpr ⟨find?_eq_none.mp hname, h⟩)

theorem names_update (name : Symbol) (e : Expr α) (attrs : AttrDefs α) :
    (attrs.update name e).names = attrs.names := by
  match attrs with
  | .nil => rfl
  | .plain s e' rest =>
      rw [update]
      split
      next => rfl
      next => rw [names, names, names_update name e rest]
  | .inherited s rest => rw [update, names, names, names_update name e rest]
  | .inheritedFrom s node rest => rw [update, names, names, names_update name e rest]

theorem find?_update {attrs : AttrDefs α} {name : Symbol} {e' : Expr α}
    (hname : attrs.find? name = some (.plain e')) (e : Expr α) (n : Symbol) :
    (attrs.update name e).find? n = if name = n then some (.plain e) else attrs.find? n := by
  match attrs with
  | .nil => simp [find?] at hname
  | .plain s e'' rest =>
      rw [update]
      rw [find?] at hname
      split
      next hs =>
        subst hs
        rw [find?, find?]
        by_cases hn : s = n <;> simp [hn]
      next hs =>
        rw [if_neg hs] at hname
        rw [find?, find?, find?_update hname e n]
        by_cases hn : name = n
        · subst hn
          simp [hs]
        · simp [hn]
  | .inherited s rest =>
      rw [find?] at hname
      split at hname
      next => simp at hname
      next hs =>
        rw [update, find?, find?, find?_update hname e n]
        by_cases hn : name = n
        · subst hn
          simp [hs]
        · simp [hn]
  | .inheritedFrom s node rest =>
      rw [find?] at hname
      split at hname
      next => simp at hname
      next hs =>
        rw [update, find?, find?, find?_update hname e n]
        by_cases hn : name = n
        · subst hn
          simp [hs]
        · simp [hn]

theorem mem_nodes {attrs : AttrDefs α} (h : attrs.names.Nodup) {node : Nat} :
    node ∈ attrs.nodes ↔ ∃ n, attrs.find? n = some (.inheritedFrom node) := by
  induction attrs using cons_cases with
  | nil => simp [nodes, find?]
  | cons name d rest ih =>
      rw [names_cons, List.nodup_cons] at h
      have hrest : (∃ n, (cons name d rest).find? n = some (.inheritedFrom node)) ↔
          d = .inheritedFrom node ∨ ∃ n, rest.find? n = some (.inheritedFrom node) := by
        constructor
        · rintro ⟨n, hn⟩
          rw [find?_cons] at hn
          split at hn
          next => exact .inl (Option.some.inj hn)
          next => exact .inr ⟨n, hn⟩
        · rintro (rfl | ⟨n, hn⟩)
          · exact ⟨name, by rw [find?_cons, if_pos rfl]⟩
          · refine ⟨n, ?_⟩
            rw [find?_cons, if_neg, hn]
            rintro rfl
            rw [find?_eq_none.mpr h.1] at hn
            simp at hn
      rw [hrest, ← ih h.2]
      cases d with
      | plain e => simp [cons, nodes]
      | inherited => simp [cons, nodes]
      | inheritedFrom node' => simp [cons, nodes, eq_comm]

end AttrDefs

theorem insertDef_eq_ok {s r : ExprAttrs α} {name : Symbol} {d : AttrDef α} :
    insertDef s name d = .ok r ↔
      s.attrs.find? name = none ∧ r = s.setAttrs (s.attrs.emplace name d) := by
  rw [insertDef]
  cases s.attrs.find? name <;> simp [eq_comm]

@[simp] theorem ExprAttrs.attrs_setAttrs (s : ExprAttrs α) (attrs : AttrDefs α) :
    (s.setAttrs attrs).attrs = attrs := rfl

@[simp] theorem ExprAttrs.inheritFromExprs_setAttrs (s : ExprAttrs α) (attrs : AttrDefs α) :
    (s.setAttrs attrs).inheritFromExprs = s.inheritFromExprs := rfl

@[simp] theorem ExprAttrs.setAttrs_setAttrs (s : ExprAttrs α) (attrs attrs' : AttrDefs α) :
    (s.setAttrs attrs).setAttrs attrs' = s.setAttrs attrs' := rfl

theorem ExprAttrs.setAttrs_self (s : ExprAttrs α) : s.setAttrs s.attrs = s := by
  cases s
  rfl

/-- What a definition that is added to an old one, if any, becomes. -/
inductive Added : Option (AttrDef α) → AttrDef α → AttrDef α → Prop
  | new (d : AttrDef α) : Added none d d
  | merged {jAttrs ae r : ExprAttrs α} : mergeAttrs jAttrs ae = .ok r →
      Added (some (.plain (.attrs jAttrs))) (.plain (.attrs ae)) (.plain (.attrs r))

/-- `r` is `s` with a definition added under a name. -/
structure AddedAt (s r : ExprAttrs α) (name : Symbol) (d : AttrDef α) : Prop where
  setAttrs : r = s.setAttrs r.attrs
  nodup : s.attrs.names.Nodup → r.attrs.names.Nodup
  others : ∀ n, n ≠ name → r.attrs.find? n = s.attrs.find? n
  added : ∃ d', r.attrs.find? name = some d' ∧ Added (s.attrs.find? name) d d'

theorem AddedAt.of_insertDef {s r : ExprAttrs α} {name : Symbol} {d : AttrDef α}
    (h : insertDef s name d = .ok r) : AddedAt s r name d := by
  obtain ⟨hname, rfl⟩ := insertDef_eq_ok.mp h
  refine ⟨rfl, AttrDefs.nodup_emplace hname d, fun n hn => ?_, d, ?_, ?_⟩
  · rw [ExprAttrs.attrs_setAttrs, AttrDefs.find?_emplace hname, if_neg (Ne.symm hn)]
  · rw [ExprAttrs.attrs_setAttrs, AttrDefs.find?_emplace hname, if_pos rfl]
  · rw [hname]
    exact .new d

theorem AddedAt.of_update {s jAttrs r : ExprAttrs α} {name : Symbol}
    (hname : s.attrs.find? name = some (.plain (.attrs jAttrs))) {d : AttrDef α}
    (h : Added (some (.plain (.attrs jAttrs))) d (.plain (.attrs r))) :
    AddedAt s (s.setAttrs (s.attrs.update name (.attrs r))) name d := by
  refine ⟨rfl, fun hs => ?_, fun n hn => ?_, _, ?_, hname ▸ h⟩
  · rw [ExprAttrs.attrs_setAttrs, AttrDefs.names_update]
    exact hs
  · rw [ExprAttrs.attrs_setAttrs, AttrDefs.find?_update hname, if_neg (Ne.symm hn)]
  · rw [ExprAttrs.attrs_setAttrs, AttrDefs.find?_update hname, if_pos rfl]

theorem AddedAt.of_addPlain {s r : ExprAttrs α} {name : Symbol} {e : Expr α}
    (h : addPlain s name e = .ok r) : AddedAt s r name (.plain e) := by
  cases e with
  | other a =>
      rw [addPlain] at h
      exact .of_insertDef h
  | attrs ae =>
      rw [addPlain] at h
      split at h
      next hname =>
        exact .of_insertDef (insertDef_eq_ok.mpr ⟨hname, (Except.ok.inj h).symm⟩)
      next jAttrs hname =>
        cases hm : mergeAttrs jAttrs ae with
        | error e => simp [hm, bind, Except.bind] at h
        | ok m =>
            simp only [hm, bind, Except.bind, pure, Except.pure, Except.ok.injEq] at h
            subst h
            exact .of_update hname (.merged hm)
      next => simp at h

def AttrDef.shift (size : Nat) : AttrDef α → AttrDef α
  | .inheritedFrom node => .inheritedFrom (size + node)
  | d => d

def bump (size : Nat) (froms : List Nat) (nodes : List Nat) : List Nat :=
  nodes.foldl (fun froms node => froms.modify node (· + size)) froms

/-- What the loop over the attributes of a merged set does with each name. -/
structure Moved (size : Nat) (jAttrs r : ExprAttrs α) (attrs : AttrDefs α) : Prop where
  setAttrs : r = jAttrs.setAttrs r.attrs
  nodup : jAttrs.attrs.names.Nodup → r.attrs.names.Nodup
  others : ∀ n, attrs.find? n = none → r.attrs.find? n = jAttrs.attrs.find? n
  added : ∀ n d, attrs.find? n = some d →
    ∃ d', r.attrs.find? n = some d' ∧ Added (jAttrs.attrs.find? n) (d.shift size) d'

theorem Moved.cons {size : Nat} {j t r : ExprAttrs α} {name : Symbol} {d : AttrDef α}
    {rest : AttrDefs α} (hname : name ∉ rest.names) (h : AddedAt j t name (d.shift size))
    (hrest : Moved size t r rest) : Moved size j r (rest.cons name d) where
  setAttrs := by
    rw [hrest.setAttrs, h.setAttrs]
    rfl
  nodup hj := hrest.nodup (h.nodup hj)
  others n hn := by
    rw [AttrDefs.find?_cons] at hn
    split at hn
    next => simp at hn
    next hne => rw [hrest.others n hn, h.others n (Ne.symm hne)]
  added n d' hn := by
    rw [AttrDefs.find?_cons] at hn
    split at hn
    next heq =>
      subst heq
      obtain rfl := Option.some.inj hn
      rw [hrest.others name (AttrDefs.find?_eq_none.mpr hname)]
      exact h.added
    next hne =>
      rw [← h.others n (Ne.symm hne)]
      exact hrest.added n d' hn

theorem Moved.of_moveAttrs {size : Nat} {j r : ExprAttrs α} {froms froms' : List Nat}
    {attrs : AttrDefs α} (hattrs : attrs.names.Nodup)
    (h : moveAttrs size j froms attrs = .ok (r, froms')) :
    Moved size j r attrs ∧ froms' = bump size froms attrs.nodes := by
  match attrs with
  | .nil =>
      rw [moveAttrs, Except.ok.injEq, Prod.mk.injEq] at h
      obtain ⟨rfl, rfl⟩ := h
      exact ⟨⟨j.setAttrs_self.symm, id, fun _ _ => rfl, by simp [AttrDefs.find?]⟩, rfl⟩
  | .plain name e rest =>
      rw [AttrDefs.names, List.nodup_cons] at hattrs
      rw [moveAttrs] at h
      cases ht : addPlain j name e with
      | error _ => simp [ht, bind, Except.bind] at h
      | ok t =>
          simp only [ht, bind, Except.bind] at h
          obtain ⟨hrest, hfroms⟩ := of_moveAttrs hattrs.2 h
          exact ⟨.cons (d := .plain e) hattrs.1 (.of_addPlain ht) hrest, hfroms⟩
  | .inherited name rest =>
      rw [AttrDefs.names, List.nodup_cons] at hattrs
      rw [moveAttrs] at h
      cases ht : insertDef j name .inherited with
      | error _ => simp [ht, bind, Except.bind] at h
      | ok t =>
          simp only [ht, bind, Except.bind] at h
          obtain ⟨hrest, hfroms⟩ := of_moveAttrs hattrs.2 h
          exact ⟨.cons (d := .inherited) hattrs.1 (.of_insertDef ht) hrest, hfroms⟩
  | .inheritedFrom name node rest =>
      rw [AttrDefs.names, List.nodup_cons] at hattrs
      rw [moveAttrs] at h
      cases ht : insertDef j name (.inheritedFrom (size + node)) with
      | error _ => simp [ht, bind, Except.bind] at h
      | ok t =>
          simp only [ht, bind, Except.bind] at h
          obtain ⟨hrest, hfroms⟩ := of_moveAttrs hattrs.2 h
          exact ⟨.cons (d := .inheritedFrom node) hattrs.1 (.of_insertDef ht) hrest, hfroms⟩

theorem mergeAttrs_eq_ok {j ae m : ExprAttrs α} (hae : ae.attrs.names.Nodup)
    (h : mergeAttrs j ae = .ok m) :
    ∃ r, Moved j.inheritFromExprs.length j r ae.attrs ∧
      m = r.append ae.inheritFromExprs (bump j.inheritFromExprs.length ae.froms ae.attrs.nodes)
        ae.dynamicAttrs := by
  obtain ⟨recursive, attrs, inheritFromExprs, froms, dynamicAttrs⟩ := ae
  rw [mergeAttrs] at h
  cases hmove : moveAttrs j.inheritFromExprs.length j froms attrs with
  | error e => simp [hmove, bind, Except.bind] at h
  | ok p =>
      obtain ⟨r, froms'⟩ := p
      simp only [hmove, bind, Except.bind, pure, Except.pure, Except.ok.injEq] at h
      obtain ⟨hmoved, rfl⟩ := Moved.of_moveAttrs hae hmove
      exact ⟨r, hmoved, h.symm⟩

end Nix.Eval.AttrSets
