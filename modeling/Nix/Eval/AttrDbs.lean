import Nix.Eval.StringContexts
import Nix.Lib.Table
import Nix.Util.Strings

/-!
The rows of the evaluation cache.
-/

set_option linter.dupNamespace false

namespace Nix.Eval.AttrDbs

open Util.Types Util.Hashes Util.Strings Lib.Table Eval.StringContexts

inductive AttrType
  | placeholder
  | fullAttrs
  | string
  | missing
  | misc
  | failed
  | bool
  | listOfStrings
  | int
  deriving DecidableEq

abbrev AttrId := Nat

/-- A symbol stands for its text. -/
abbrev Symbol := Bytes

abbrev AttrKey := AttrId × Symbol

/-- A row of `Attributes`, where the columns of type `text` hold a text or null. -/
structure Row where
  rowId : AttrId
  parent : AttrId
  name : Symbol
  type : AttrType
  value : Option Bytes := none
  context : Option Bytes := none
  deriving DecidableEq

def Row.key (r : Row) : AttrKey :=
  (r.parent, r.name)

/-- A number as a column of type `text` holds it. -/
def intText : Int → Bytes
  | .ofNat n => decimal n
  | .negSucc n => 45 :: decimal (n + 1)

def leadingNumber (s : Bytes) : Nat :=
  (s.takeWhile isDigit).foldl (fun n c => 10 * n + (c.toNat - 48)) 0

/-- `getInt` of such a column, which is 0 for null. -/
def getInt : Option Bytes → Int64
  | none => 0
  | some (45 :: s) => Int64.ofInt (-leadingNumber s)
  | some s => Int64.ofInt (leadingNumber s)

/-- `getStr`, which returns a text up to its first zero byte. -/
def getStr : Option Bytes → Except Error Bytes
  | none => .error (.assertion "s")
  | some s => .ok (s.takeWhile (· ≠ 0))

/-- `dropEmptyInitThenConcatStringsSep`, with a separator of one byte. -/
def dropEmptyInitThenConcatStringsSep (separator : UInt8) (ss : List Bytes) : Bytes :=
  ss.foldl (fun s i => (if s.length ≠ 0 then s ++ [separator] else s) ++ i) []

structure AttrDb where
  rows : List Row := []
  deriving DecidableEq

namespace AttrDb

/-- The row id of a new row: one more than the largest one in the table. -/
def newRowId (db : AttrDb) : AttrId :=
  db.rows.foldr (fun r n => max r.rowId n) 0 + 1

/-- `insert or replace into Attributes`. -/
def insert (db : AttrDb) (key : AttrKey) (type : AttrType) (value context : Option Bytes) :
    AttrDb :=
  ⟨db.rows.filter (·.key ≠ key) ++ [⟨db.newRowId, key.1, key.2, type, value, context⟩]⟩

def setAttrs (db : AttrDb) (key : AttrKey) (attrs : List Symbol) : AttrDb × AttrId :=
  let rowId := db.newRowId
  (attrs.foldl (fun db attr => db.insert (rowId, attr) .placeholder none none)
    (db.insert key .fullAttrs none none), rowId)

def setString (db : AttrDb) (key : AttrKey) (s : Bytes) (context : Option (List Bytes)) :
    AttrDb × AttrId :=
  (db.insert key .string (some s) (context.map (concatStringsSep 32)), db.newRowId)

def setBool (db : AttrDb) (key : AttrKey) (b : Bool) : AttrDb × AttrId :=
  (db.insert key .bool (some (intText (if b then 1 else 0))) none, db.newRowId)

/-- The parameter is an `int`. -/
def setInt (db : AttrDb) (key : AttrKey) (n : Int32) : AttrDb × AttrId :=
  (db.insert key .int (some (intText n.toInt)) none, db.newRowId)

def setListOfStrings (db : AttrDb) (key : AttrKey) (l : List Bytes) : AttrDb × AttrId :=
  (db.insert key .listOfStrings (some (dropEmptyInitThenConcatStringsSep 9 l)) none, db.newRowId)

def setPlaceholder (db : AttrDb) (key : AttrKey) : AttrDb × AttrId :=
  (db.insert key .placeholder none none, db.newRowId)

def setMissing (db : AttrDb) (key : AttrKey) : AttrDb × AttrId :=
  (db.insert key .missing none none, db.newRowId)

def setMisc (db : AttrDb) (key : AttrKey) : AttrDb × AttrId :=
  (db.insert key .misc none none, db.newRowId)

def setFailed (db : AttrDb) (key : AttrKey) : AttrDb × AttrId :=
  (db.insert key .failed none none, db.newRowId)

end AttrDb

inductive AttrValue
  | attrs (names : List Symbol)
  | string (s : Bytes) (context : Finset NixStringContextElem)
  | placeholder
  | missing
  | misc
  | failed
  | bool (b : Bool)
  | int (n : Int64)
  | listOfStrings (l : List Bytes)
  deriving DecidableEq

namespace AttrDb

/-- `queryAttributes`. -/
def queryAttributes (db : AttrDb) (parent : AttrId) : List (Option Bytes) :=
  (db.rows.filter (·.parent = parent)).map fun r => some r.name

def getContext (xp : ExperimentalFeatureSettings) :
    Option Bytes → Except Error (Finset NixStringContextElem)
  | none => .ok ∅
  | some context => do
      let text ← getStr (some context)
      let elems ← (tokenizeString 32 text).mapM (NixStringContextElem.parse xp)
      return elems.toFinset

def getAttr (xp : ExperimentalFeatureSettings) (db : AttrDb) (key : AttrKey) :
    Except Error (Option (AttrId × AttrValue)) :=
  match select Row.key db.rows key with
  | none => .ok none
  | some row => do
      let value ← match row.type with
        | .placeholder => pure .placeholder
        | .fullAttrs => AttrValue.attrs <$> (db.queryAttributes row.rowId).mapM getStr
        | .string => do
            let context ← getContext xp row.context
            let s ← getStr row.value
            pure (.string s context)
        | .bool => pure (.bool (getInt row.value != 0))
        | .int => pure (.int (getInt row.value))
        | .listOfStrings => do
            let s ← getStr row.value
            pure (.listOfStrings (tokenizeString 9 s))
        | .missing => pure .missing
        | .misc => pure .misc
        | .failed => pure .failed
      return some (row.rowId, value)

end AttrDb

/-- What the setters store. -/
inductive Update
  | attrs (names : List Symbol)
  | string (s : Bytes) (context : Option (List NixStringContextElem))
  | bool (b : Bool)
  | int (n : Int64)
  | listOfStrings (l : List Bytes)
  | placeholder
  | missing
  | misc
  | failed

def Update.value : Update → AttrValue
  | attrs names => .attrs names
  | string s context => .string s (context.getD []).toFinset
  | bool b => .bool b
  | int n => .int n
  | listOfStrings l => .listOfStrings l
  | placeholder => .placeholder
  | missing => .missing
  | misc => .misc
  | failed => .failed

def AttrValue.Same : AttrValue → AttrValue → Prop
  | .attrs names, .attrs names' => ∀ name, name ∈ names ↔ name ∈ names'
  | v, v' => v = v'

def AttrDb.set (db : AttrDb) (key : AttrKey) : Update → AttrDb × AttrId
  | .attrs names => db.setAttrs key names
  | .string s context => db.setString key s (context.map (List.map NixStringContextElem.toText))
  | .bool b => db.setBool key b
  | .int n => db.setInt key n.toInt32
  | .listOfStrings l => db.setListOfStrings key l
  | .placeholder => db.setPlaceholder key
  | .missing => db.setMissing key
  | .misc => db.setMisc key
  | .failed => db.setFailed key

def run (updates : List (AttrKey × Update)) : AttrDb :=
  updates.foldl (fun db e => (db.set e.1 e.2).1) {}

def lastSet (updates : List (AttrKey × Update)) (key : AttrKey) : Option Update :=
  (select Prod.fst updates.reverse key).map Prod.snd

open Lib.Results Store.Path Store.StoreDirs Store.DerivedPaths

namespace AttrDb

variable {db : AttrDb}

def HasChild (db : AttrDb) (parent : AttrId) (name : Symbol) : Prop :=
  ∃ row ∈ db.rows, row.key = (parent, name)

theorem rowId_lt_newRowId {row : Row} (h : row ∈ db.rows) : row.rowId < db.newRowId := by
  have hle : ∀ rows : List Row, row ∈ rows → row.rowId ≤ rows.foldr (fun r n => max r.rowId n) 0 := by
    intro rows
    induction rows with
    | nil => nofun
    | cons r rows ih =>
      intro hmem
      rw [List.foldr_cons]
      rcases List.mem_cons.mp hmem with rfl | hmem
      · exact le_max_left _ _
      · exact (ih hmem).trans (le_max_right _ _)
  exact Nat.lt_succ_of_le (hle db.rows h)

variable {key : AttrKey} {type : AttrType} {value context : Option Bytes}

theorem select_insert (k : AttrKey) :
    select Row.key (db.insert key type value context).rows k =
      if k = key then some ⟨db.newRowId, key.1, key.2, type, value, context⟩
      else select Row.key db.rows k := by
  rw [insert]
  split
  next h =>
    subst h
    have hnone : select Row.key (db.rows.filter (·.key ≠ k)) k = none := by
      rw [select_filter_ne, if_pos rfl]
    exact @select_append_self Row AttrKey _ Row.key _ ⟨db.newRowId, k.1, k.2, type, value, context⟩
      hnone
  next h => rw [select_append_of_ne (Ne.symm h), select_filter_ne, if_neg h]

theorem hasChild_insert {parent : AttrId} {name : Symbol} :
    (db.insert key type value context).HasChild parent name ↔
      (parent, name) = key ∨ db.HasChild parent name := by
  simp only [HasChild, insert, List.mem_append, List.mem_filter, List.mem_singleton,
    decide_eq_true_eq]
  constructor
  · rintro ⟨row, ⟨hrow, -⟩ | rfl, hkey⟩
    · exact Or.inr ⟨row, hrow, hkey⟩
    · exact Or.inl hkey.symm
  · rintro (hkey | ⟨row, hrow, hkey⟩)
    · exact ⟨_, Or.inr rfl, hkey.symm⟩
    · by_cases hsame : row.key = key
      · exact ⟨_, Or.inr rfl, hsame.symm.trans hkey⟩
      · exact ⟨row, Or.inl ⟨hrow, hsame⟩, hkey⟩

def insertChildren (db : AttrDb) (rowId : AttrId) (names : List Symbol) : AttrDb :=
  names.foldl (fun db name => db.insert (rowId, name) .placeholder none none) db

theorem select_insertChildren {rowId : AttrId} {names : List Symbol} {k : AttrKey}
    (hk : k.1 ≠ rowId) :
    select Row.key (db.insertChildren rowId names).rows k = select Row.key db.rows k := by
  induction names generalizing db with
  | nil => rfl
  | cons name names ih =>
    have hne : k ≠ (rowId, name) := fun h => hk (congrArg Prod.fst h)
    exact (@ih (db.insert (rowId, name) .placeholder none none)).trans
      ((select_insert k).trans (if_neg hne))

theorem hasChild_insertChildren {rowId parent : AttrId} {names : List Symbol} {name : Symbol} :
    (db.insertChildren rowId names).HasChild parent name ↔
      parent = rowId ∧ name ∈ names ∨ db.HasChild parent name := by
  induction names generalizing db with
  | nil => simp [insertChildren]
  | cons n names ih =>
    have hstep := @ih (db.insert (rowId, n) .placeholder none none)
    rw [hasChild_insert] at hstep
    refine Iff.trans hstep ?_
    rw [Prod.mk.injEq, List.mem_cons]
    tauto

end AttrDb

theorem getStr_some {s : Bytes} (h : 0 ∉ s) : getStr (some s) = .ok s := by
  rw [getStr, List.takeWhile_eq_self_iff.mpr]
  intro b hb
  exact decide_eq_true fun h0 => h (h0 ▸ hb)

theorem leadingNumber_decimal (n : Nat) : leadingNumber (decimal n) = n := by
  rw [leadingNumber, List.takeWhile_eq_self_iff.mpr fun b => isDigit_of_mem_decimal, foldl_decimal]

theorem getInt_intText (n : Int) : getInt (some (intText n)) = Int64.ofInt n := by
  cases n with
  | negSucc n => rw [intText, getInt, leadingNumber_decimal, Int.negSucc_eq, Nat.cast_succ]
  | ofNat n =>
    rw [intText]
    have hne : ∀ s, decimal n ≠ 45 :: s := fun s heq => by
      have hdigit := @isDigit_of_mem_decimal n 45 (heq ▸ List.mem_cons_self)
      exact absurd hdigit (by decide)
    rw [getInt, leadingNumber_decimal]
    · rfl
    · exact fun s heq => hne s heq

theorem dropEmptyInit_eq {separator : UInt8} {ss : List Bytes} (h : ∀ s ∈ ss, s ≠ []) :
    dropEmptyInitThenConcatStringsSep separator ss = concatStringsSep separator ss := by
  have happend : ∀ (s t : Bytes) (ss : List Bytes),
      concatStringsSep separator ((s ++ [separator] ++ t) :: ss) =
        s ++ separator :: concatStringsSep separator (t :: ss) := by
    intro s t ss
    cases ss <;> simp [concatStringsSep]
  have hfold : ∀ (ss : List Bytes) (acc : Bytes), acc ≠ [] →
      ss.foldl (fun s i => (if s.length ≠ 0 then s ++ [separator] else s) ++ i) acc =
        concatStringsSep separator (acc :: ss) := by
    intro ss
    induction ss with
    | nil => exact fun _ _ => rfl
    | cons s ss ih =>
      intro acc hacc
      rw [List.foldl_cons, if_pos (by simpa using hacc), ih _ (by simp), happend, concatStringsSep]
  cases ss with
  | nil => rfl
  | cons s ss => exact hfold ss s (h s List.mem_cons_self)

theorem notMem_toTextRest {p : SingleDerivedPath} (h : p.Accepted)
    (hbase : HashName p.getBaseStorePath) {c : UInt8} (hc : isNameChar c = false) (hne : c ≠ 33) :
    c ∉ toTextRest p := by
  induction p with
  | opaquePath path =>
    refine hbase.notMem hc ?_
    rintro rfl
    exact absurd hc (by decide)
  | built drv output ih =>
    rw [toTextRest, show str "!" = [33] from rfl, List.mem_append, List.mem_append,
      List.mem_singleton, not_or, not_or]
    exact ⟨⟨notMem_of_checkName h.2 hc, hne⟩, ih h.1 hbase⟩

theorem notMem_toText {e : NixStringContextElem} (h : e.Accepted)
    (hbase : HashName e.getBaseStorePath) {c : UInt8} (hc : isNameChar c = false) (hne : c ≠ 33) :
    c ∉ e.toText := by
  cases e with
  | opaquePath path => exact @notMem_toTextRest (.opaquePath path) trivial hbase c hc hne
  | drvDeep drvPath =>
    have hrest := @notMem_toTextRest (.opaquePath drvPath) trivial hbase c hc hne
    rw [NixStringContextElem.toText, show str "=" = [61] from rfl, List.singleton_append]
    refine List.not_mem_cons_of_ne_of_not_mem ?_ hrest
    rintro rfl
    exact absurd hc (by decide)
  | built drv output =>
    rw [NixStringContextElem.toText, show str "!" = [33] from rfl, List.singleton_append]
    exact List.not_mem_cons_of_ne_of_not_mem hne (notMem_toTextRest h hbase hc hne)

theorem toText_ne_nil (e : NixStringContextElem) : e.toText ≠ [] := by
  cases e with
  | opaquePath path => exact baseName_ne_nil path
  | drvDeep | built => exact List.cons_ne_nil _ _

def Update.Representable (xp : ExperimentalFeatureSettings) : Update → Prop
  | .attrs names => ∀ name ∈ names, 0 ∉ name
  | .string s context => 0 ∉ s ∧ ∀ e ∈ context.getD [], e.Accepted ∧ HashName e.getBaseStorePath ∧
      (xp .dynamicDerivations = true ∨ e.depth ≤ 1)
  | .int n => -2 ^ 31 ≤ n.toInt ∧ n.toInt < 2 ^ 31
  | .listOfStrings l => ∀ s ∈ l, s ≠ [] ∧ 9 ∉ s ∧ 0 ∉ s
  | _ => True

/-- The columns `type`, `value` and `context`. -/
def Update.columns : Update → AttrType × Option Bytes × Option Bytes
  | .attrs _ => (.fullAttrs, none, none)
  | .string s context => (.string, some s,
      (context.map (List.map NixStringContextElem.toText)).map (concatStringsSep 32))
  | .bool b => (.bool, some (intText (if b then 1 else 0)), none)
  | .int n => (.int, some (intText n.toInt32.toInt), none)
  | .listOfStrings l => (.listOfStrings, some (dropEmptyInitThenConcatStringsSep 9 l), none)
  | .placeholder => (.placeholder, none, none)
  | .missing => (.missing, none, none)
  | .misc => (.misc, none, none)
  | .failed => (.failed, none, none)

def Row.columns (row : Row) : AttrType × Option Bytes × Option Bytes :=
  (row.type, row.value, row.context)

def Update.children : Update → List Symbol
  | .attrs names => names
  | _ => []

theorem AttrDb.set_eq (db : AttrDb) (key : AttrKey) (u : Update) :
    (db.set key u).1 = (db.insert key u.columns.1 u.columns.2.1 u.columns.2.2).insertChildren
      db.newRowId u.children := by
  cases u <;> rfl

/-- The step keeps what was set before, and what it sets can be read. -/
structure Fits (xp : ExperimentalFeatureSettings) (db : AttrDb) (key : AttrKey) (u : Update) :
    Prop where
  representable : u.Representable xp
  /-- Nothing is added to a set of attributes that is complete. -/
  complete : ∀ row ∈ db.rows, row.type = .fullAttrs → row.rowId = key.1 → db.HasChild key.1 key.2
  /-- Nothing is set under a row before the row is there. -/
  unused : u.columns.1 = .fullAttrs →
    key.1 ≠ db.newRowId ∧ ∀ row ∈ db.rows, row.parent ≠ db.newRowId

def Holds (xp : ExperimentalFeatureSettings) (updates : List (AttrKey × Update)) (db : AttrDb) :
    Prop :=
  ∀ key u, lastSet updates key = some u → u.Representable xp ∧
    ∃ row, select Row.key db.rows key = some row ∧ row.columns = u.columns ∧
      (row.type = .fullAttrs → ∀ name, db.HasChild row.rowId name ↔ name ∈ u.children)

theorem lastSet_append (updates : List (AttrKey × Update)) (key k : AttrKey) (u : Update) :
    lastSet (updates ++ [(key, u)]) k = if k = key then some u else lastSet updates k := by
  rw [lastSet, List.reverse_append, List.reverse_singleton, List.singleton_append]
  split
  next h => simp [select, h]
  next h => rw [select_cons_of_ne (Ne.symm h), lastSet]

theorem Update.children_eq_nil {u : Update} (h : u.columns.1 ≠ .fullAttrs) : u.children = [] := by
  cases u with
  | attrs names => exact absurd rfl h
  | string | bool | int | listOfStrings | placeholder | missing | misc | failed => rfl

variable {xp : ExperimentalFeatureSettings} {db : AttrDb} {updates : List (AttrKey × Update)}
  {key : AttrKey} {u : Update}

theorem AttrDb.select_set {k : AttrKey} (hk : u.columns.1 = .fullAttrs → k.1 ≠ db.newRowId) :
    select Row.key (db.set key u).1.rows k =
      if k = key then some ⟨db.newRowId, key.1, key.2, u.columns.1, u.columns.2.1, u.columns.2.2⟩
      else select Row.key db.rows k := by
  rw [set_eq, ← select_insert]
  by_cases hattrs : u.columns.1 = .fullAttrs
  · exact select_insertChildren (hk hattrs)
  · rw [Update.children_eq_nil hattrs]
    rfl

theorem AttrDb.hasChild_set {parent : AttrId} {name : Symbol} :
    (db.set key u).1.HasChild parent name ↔
      parent = db.newRowId ∧ name ∈ u.children ∨ (parent, name) = key ∨
        db.HasChild parent name := by
  rw [set_eq, hasChild_insertChildren, hasChild_insert]

theorem Holds.step (h : Holds xp updates db) (hfits : Fits xp db key u) :
    Holds xp (updates ++ [(key, u)]) (db.set key u).1 := by
  intro k u' hlast
  rw [lastSet_append] at hlast
  split at hlast
  next hk =>
    cases hlast
    subst hk
    refine ⟨hfits.representable, _,
      (AttrDb.select_set fun hattrs => (hfits.unused hattrs).1).trans (if_pos rfl), rfl,
      fun hattrs name => ?_⟩
    obtain ⟨hne, hnone⟩ := hfits.unused hattrs
    rw [AttrDb.hasChild_set]
    constructor
    · rintro (⟨-, hname⟩ | hkey | hchild)
      · exact hname
      · exact absurd (congrArg Prod.fst hkey).symm hne
      · obtain ⟨row, hrow, hkey⟩ := hchild
        exact absurd (congrArg Prod.fst hkey) (hnone row hrow)
    · exact fun hname => Or.inl ⟨rfl, hname⟩
  next hk =>
    obtain ⟨hrep, row, hrow, hcolumns, hchildren⟩ := h k u' hlast
    have hmem := mem_of_select hrow
    have hother : u.columns.1 = .fullAttrs → k.1 ≠ db.newRowId := fun hattrs heq =>
      (hfits.unused hattrs).2 row hmem ((congrArg Prod.fst (key_of_select hrow)).trans heq)
    refine ⟨hrep, row, (AttrDb.select_set hother).trans ((if_neg hk).trans hrow), hcolumns,
      fun hattrs name => ?_⟩
    rw [AttrDb.hasChild_set, ← hchildren hattrs name]
    constructor
    · rintro (⟨heq, -⟩ | hkey | hchild)
      · exact absurd heq (AttrDb.rowId_lt_newRowId hmem).ne
      · have hcomplete := hfits.complete row hmem hattrs (congrArg Prod.fst hkey)
        rwa [← hkey] at hcomplete
      · exact hchild
    · exact fun hchild => Or.inr (Or.inr hchild)

theorem getContext_some {context : Option (List NixStringContextElem)}
    (h : ∀ e ∈ context.getD [], e.Accepted ∧ HashName e.getBaseStorePath ∧
      (xp .dynamicDerivations = true ∨ e.depth ≤ 1)) :
    AttrDb.getContext xp
        ((context.map (List.map NixStringContextElem.toText)).map (concatStringsSep 32)) =
      .ok (context.getD []).toFinset := by
  cases context with
  | none => rfl
  | some elems =>
    have htexts : ∀ s ∈ elems.map NixStringContextElem.toText, s ≠ [] ∧ 32 ∉ s ∧ 0 ∉ s := by
      intro s hs
      obtain ⟨e, he, rfl⟩ := List.mem_map.mp hs
      obtain ⟨haccepted, hbase, -⟩ := h e he
      exact ⟨toText_ne_nil e, notMem_toText haccepted hbase (by decide) (by decide),
        notMem_toText haccepted hbase (by decide) (by decide)⟩
    have hzero : 0 ∉ concatStringsSep 32 (elems.map NixStringContextElem.toText) :=
      notMem_concatStringsSep (by decide) fun s hs => (htexts s hs).2.2
    have htokens : tokenizeString 32
        (concatStringsSep 32 (elems.map NixStringContextElem.toText)) =
          elems.map NixStringContextElem.toText :=
      tokenizeString_concatStringsSep fun s hs => ⟨(htexts s hs).1, (htexts s hs).2.1⟩
    have hparse : (elems.map NixStringContextElem.toText).mapM (NixStringContextElem.parse xp) =
        .ok elems := mapM_map_of_ok fun e he =>
      (NixStringContextElem.parse_toText_iff (h e he).1 (h e he).2.1).mpr (h e he).2.2
    simp only [Option.map_some, AttrDb.getContext, getStr_some hzero, bind, Except.bind, htokens,
      hparse]
    rfl

theorem columns_eq {row : Row} {type : AttrType} {value context : Option Bytes}
    (h : row.columns = (type, value, context)) :
    row.type = type ∧ row.value = value ∧ row.context = context := by
  cases h
  exact ⟨rfl, rfl, rfl⟩

theorem getAttr_of_row {row : Row} (hrow : select Row.key db.rows key = some row)
    (hcolumns : row.columns = u.columns) (hrep : u.Representable xp)
    (hchildren : row.type = .fullAttrs → ∀ name, db.HasChild row.rowId name ↔ name ∈ u.children) :
    ∃ v, db.getAttr xp key = .ok (some (row.rowId, v)) ∧ v.Same u.value := by
  rw [AttrDb.getAttr, hrow]
  cases u with
  | placeholder | missing | misc | failed =>
    obtain ⟨htype, -, -⟩ := columns_eq hcolumns
    simp only [htype]
    exact ⟨_, rfl, rfl⟩
  | bool b =>
    obtain ⟨htype, hvalue, -⟩ := columns_eq hcolumns
    simp only [htype, hvalue, getInt_intText]
    refine ⟨_, rfl, ?_⟩
    cases b <;> exact congrArg AttrValue.bool (by decide)
  | int n =>
    obtain ⟨htype, hvalue, -⟩ := columns_eq hcolumns
    simp only [htype, hvalue, getInt_intText]
    refine ⟨_, rfl, ?_⟩
    have hint : n.toInt32.toInt = n.toInt := by
      rw [Int64.toInt_toInt32]
      exact Int.bmod_eq_of_le (by have := hrep.1; omega) (by have := hrep.2; omega)
    rw [hint, Int64.ofInt_toInt]
    rfl
  | listOfStrings l =>
    obtain ⟨htype, hvalue, -⟩ := columns_eq hcolumns
    have hzero : 0 ∉ concatStringsSep 9 l :=
      notMem_concatStringsSep (by decide) fun s hs => (hrep s hs).2.2
    have htokens : tokenizeString 9 (concatStringsSep 9 l) = l :=
      tokenizeString_concatStringsSep fun s hs => ⟨(hrep s hs).1, (hrep s hs).2.1⟩
    rw [dropEmptyInit_eq fun s hs => (hrep s hs).1] at hvalue
    simp only [htype, hvalue, getStr_some hzero]
    exact ⟨_, rfl, congrArg AttrValue.listOfStrings htokens⟩
  | string s context =>
    obtain ⟨htype, hvalue, hcontext⟩ := columns_eq hcolumns
    simp only [htype, hvalue, hcontext, getContext_some hrep.2, getStr_some hrep.1]
    exact ⟨_, rfl, rfl⟩
  | attrs names =>
    obtain ⟨htype, -, -⟩ := columns_eq hcolumns
    have hchild : ∀ name, name ∈ (db.rows.filter (·.parent = row.rowId)).map Row.name ↔
        name ∈ names := by
      intro name
      rw [← show _ ↔ name ∈ names from hchildren htype name, AttrDb.HasChild]
      simp only [List.mem_map, List.mem_filter, decide_eq_true_eq, Row.key, Prod.mk.injEq, and_assoc]
    have hquery : (db.queryAttributes row.rowId).mapM getStr =
        .ok ((db.rows.filter (·.parent = row.rowId)).map Row.name) := by
      have hmap := mapM_map_of_ok fun name hname =>
        getStr_some (hrep name ((hchild name).mp hname))
      rwa [List.map_map] at hmap
    simp only [htype, hquery]
    exact ⟨_, rfl, hchild⟩

/-- Every step of the run fits the table that it finds. -/
inductive AllFit (xp : ExperimentalFeatureSettings) : List (AttrKey × Update) → Prop
  | nil : AllFit xp []
  | step {updates : List (AttrKey × Update)} {key : AttrKey} {u : Update} :
      AllFit xp updates → Fits xp (run updates) key u → AllFit xp (updates ++ [(key, u)])

theorem holds_run (h : AllFit xp updates) : Holds xp updates (run updates) := by
  induction h with
  | nil => nofun
  | step _ hfits ih =>
    have hstep := ih.step hfits
    rwa [run, List.foldl_append]

/-- An attribute set, a string in it with a context, and a second value for another name. -/
def someUpdates : List (AttrKey × Update) :=
  [((0, []), .attrs [str "out", str "name"]),
    ((1, str "out"), .string (str "/nix") (some [.built (dynamicPath 0) (str "out")])),
    ((1, str "name"), .listOfStrings [str "a", str "b c"]),
    ((1, str "name"), .int (-7))]

instance (db : AttrDb) (parent : AttrId) (name : Symbol) : Decidable (db.HasChild parent name) :=
  inferInstanceAs (Decidable (∃ row ∈ db.rows, row.key = (parent, name)))

end Nix.Eval.AttrDbs
