import Nix.Util.BashDeclarations
import Nix.Util.JsonValues

/-!
`StructuredAttrs::writeShell`: structured attributes as a script for bash.
-/

set_option linter.dupNamespace false

namespace Nix.Store.StructuredAttrs

open Util.Types Util.Decimal Util.Strings Util.ShellWords Util.JsonValues Util.BashDeclarations
  Lib.SortedList

/-- `std::regex_match(s, shVarName)`. -/
def matchesShVarName : Bytes → Bool
  | [] => false
  | c :: s =>
      let isLetter (c : UInt8) : Bool := 65 ≤ c && c ≤ 90 || 97 ≤ c && c ≤ 122 || c = 95
      isLetter c && s.all fun c => isLetter c || isDigit c

/-- `value.get<int>()` of an integer: a conversion to 32 bits. -/
def getInt (n : Int) : Int := n.bmod (2 ^ 32)

/-- `std::to_string`. -/
def toStringInt (n : Int) : Bytes :=
  if n < 0 then 45 :: decimal n.natAbs else decimal n.natAbs

section WriteShell

-- For other numbers than integers: `value.get<int>()` if `value.get<float>()` has no fraction.
variable (wholeFloat : UInt64 → Option Int)

/-- Integers of 64 bits are whole numbers as `float`, too. -/
def handleSimpleType : Json → Option Bytes
  | .string s => some (escapeShellArgAlways s)
  | .numberInteger n => some (toStringInt (getInt n))
  | .numberUnsigned n => some (toStringInt (getInt n.toNat))
  | .numberFloat bits => (wholeFloat bits).map toStringInt
  | .null => some (str "''")
  | .boolean b => some (if b then str "1" else [])
  | .array _ _ | .object _ _ => none

def writeArray (key : Bytes) (values : List Json) : Bytes :=
  match values.mapM (handleSimpleType wholeFloat) with
  | some texts => str "declare -a " ++ key ++ str "=(" ++ texts.flatMap (· ++ str " ") ++ str ")\n"
  | none => []

def writeObject (key : Bytes) (value : Members) : Bytes :=
  let items := value.elems.mapM fun item => do
    let s3 ← handleSimpleType wholeFloat item.2
    return str "[" ++ escapeShellArgAlways item.1 ++ str "]=" ++ s3 ++ str " "
  match items with
  | some texts => str "declare -A " ++ key ++ str "=(" ++ texts.flatten ++ str ")\n"
  | none => []

def writeDeclaration (key : Bytes) (value : Json) : Bytes :=
  match handleSimpleType wholeFloat value, value.elements?, value.members? with
  | some s, _, _ => str "declare " ++ key ++ str "=" ++ s ++ str "\n"
  | none, some values, _ => writeArray wholeFloat key values
  | none, none, some members => writeObject wholeFloat key members
  | none, none, none => []

def writeShell (json : Members) : Bytes :=
  json.elems.flatMap fun e =>
    if matchesShVarName e.1 then writeDeclaration wholeFloat e.1 e.2 else []

end WriteShell

/-- A string, an integer of 64 bits, a boolean or null. -/
def IsSimple : Json → Prop
  | .string _ | .numberUnsigned _ | .boolean _ | .null => True
  | .numberInteger n => -2 ^ 63 ≤ n ∧ n < 2 ^ 63
  | .numberFloat _ | .array _ _ | .object _ _ => False

/-- A simple value, an array of such or an object of such. -/
def IsShellValue (v : Json) : Prop :=
  IsSimple v ∨ (∃ vs, v.elements? = some vs ∧ ∀ x ∈ vs, IsSimple x) ∨
    ∃ ms, v.members? = some ms ∧ ∀ e ∈ ms.elems, IsSimple e.2

/-- The text of a simple value in a shell variable. -/
def rendering : Json → Bytes
  | .string s => s
  | .numberInteger n => toStringInt n
  | .numberUnsigned n => decimal n.toNat
  | .boolean b => if b then str "1" else []
  | .null | .numberFloat _ | .array _ _ | .object _ _ => []

def variableOf (v : Json) : Variable :=
  match v.elements?, v.members? with
  | some vs, _ => .indexed (vs.map rendering)
  | none, some ms => .associative (ms.mapValues rendering)
  | none, none => .scalar (rendering v)

/-- The script defines the variables of the object, and no others. -/
def ReachesShell (wholeFloat : UInt64 → Option Int) (json : Members) : Prop :=
  ∃ env, source (writeShell wholeFloat json) = some env ∧
    ∀ name, env.find? name = if isName name then (json.find? name).map variableOf else none

def IsKept : Json → Prop
  | .string s => 0 ∉ s
  | .numberInteger n => -2 ^ 31 ≤ n ∧ n < 2 ^ 31
  | .numberUnsigned n => n.toNat < 2 ^ 31
  | _ => True

def IsKeptValue (v : Json) : Prop :=
  match v.elements?, v.members? with
  | some vs, _ => ∀ x ∈ vs, IsKept x ∧ x ≠ .boolean false
  | none, some ms => ∀ e ∈ ms.elems, e.1 ≠ [] ∧ 0 ∉ e.1 ∧ IsKept e.2
  | none, none => IsKept v

def dropNul (s : Bytes) : Bytes := s.filter (· ≠ 0)

@[simp] theorem dropNul_append (s t : Bytes) : dropNul (s ++ t) = dropNul s ++ dropNul t :=
  List.filter_append ..

theorem dropNul_of_notMem {s : Bytes} (h : 0 ∉ s) : dropNul s = s :=
  List.filter_eq_self.mpr fun _ hc => decide_eq_true fun heq => h (heq ▸ hc)

theorem dropNul_eq_self_iff {s : Bytes} : dropNul s = s ↔ 0 ∉ s := by
  refine ⟨fun h hmem => ?_, dropNul_of_notMem⟩
  rw [← h] at hmem
  exact of_decide_eq_true (List.mem_filter.mp hmem).2 rfl

theorem nul_notMem_dropNul (s : Bytes) : 0 ∉ dropNul s :=
  dropNul_eq_self_iff.mp (by simp [dropNul])

theorem dropNul_escapeShellArgAlways (s : Bytes) :
    dropNul (escapeShellArgAlways s) = escapeShellArgAlways (dropNul s) := by
  have hbody : dropNul (s.flatMap fun i => if i = singleQuote then str "'\\''" else [i]) =
      (dropNul s).flatMap fun i => if i = singleQuote then str "'\\''" else [i] := by
    induction s with
    | nil => rfl
    | cons c s ih =>
      rw [List.flatMap_cons, dropNul_append, ih]
      by_cases hc : c = 0
      · subst hc
        rfl
      · have hcons : dropNul (c :: s) = c :: dropNul s := by simp [dropNul, hc]
        rw [hcons, List.flatMap_cons]
        split
        · rfl
        · simp [dropNul, hc]
  rw [escapeShellArgAlways, escapeShellArgAlways, ← hbody]
  exact List.filter_append ..

theorem dropNul_flatMap {α : Type} (l : List α) (text : α → Bytes) :
    dropNul (l.flatMap text) = l.flatMap fun a => dropNul (text a) :=
  List.filter_flatMap ..

theorem isPlain_of_isDigit {c : UInt8} (h : isDigit c = true) : isPlain c = true := by
  rw [isPlain, isNameByte, h, Bool.or_true, Bool.true_or]

theorem isPlain_toStringInt {n : Int} : ∀ c ∈ toStringInt n, isPlain c = true := by
  intro c hc
  rw [toStringInt] at hc
  split at hc
  · rcases List.mem_cons.mp hc with rfl | hc
    · decide
    · exact isPlain_of_isDigit (isDigit_of_mem_decimal hc)
  · exact isPlain_of_isDigit (isDigit_of_mem_decimal hc)

theorem nul_notMem_of_plain {s : Bytes} (h : ∀ c ∈ s, isPlain c = true) : 0 ∉ s :=
  fun hmem => absurd (h 0 hmem) (by decide)

theorem toStringInt_ne_nil (n : Int) : toStringInt n ≠ [] := by
  rw [toStringInt]
  split
  · exact List.cons_ne_nil _ _
  · exact decimal_ne_nil _

theorem toStringInt_injective : Function.Injective toStringInt := by
  intro m n h
  have hneg : ∀ k : Nat, ∀ j : Nat, 45 :: decimal k ≠ decimal j := by
    intro k j heq
    have hdigit : isDigit 45 = true := isDigit_of_mem_decimal (heq ▸ List.mem_cons_self)
    exact absurd hdigit (by decide)
  rw [toStringInt, toStringInt] at h
  split at h <;> split at h
  · have habs := decimal_injective (List.cons.inj h).2
    omega
  · exact absurd h (hneg _ _)
  · exact absurd h.symm (hneg _ _)
  · have habs := decimal_injective h
    omega

def readValue : Json → Bytes
  | .string s => dropNul s
  | .numberInteger n => toStringInt (getInt n)
  | .numberUnsigned n => toStringInt (getInt n.toNat)
  | .boolean b => if b then str "1" else []
  | .null | .numberFloat _ | .array _ _ | .object _ _ => []

section Values

variable (wholeFloat : UInt64 → Option Int)

/-- The text that stands for a simple value in the script that bash reads. -/
def readText (v : Json) : Bytes := dropNul ((handleSimpleType wholeFloat v).getD [])

variable {wholeFloat} {v : Json}

theorem dropNul_toStringInt (n : Int) : dropNul (toStringInt n) = toStringInt n :=
  dropNul_of_notMem (nul_notMem_of_plain isPlain_toStringInt)

variable (wholeFloat) in
/-- A simple value is one word, that is empty for `false` only. -/
theorem readsAs_readText (h : IsSimple v) :
    ReadsAs (readText wholeFloat v) (readValue v) ∧
      (readText wholeFloat v = [] ↔ v = .boolean false) := by
  have htext : ∀ {v' text}, handleSimpleType wholeFloat v' = some text →
      readText wholeFloat v' = dropNul text := fun heq => by rw [readText, heq, Option.getD_some]
  cases v with
  | string s =>
    rw [htext rfl, dropNul_escapeShellArgAlways]
    exact ⟨readsAs_escapeShellArgAlways (dropNul s), iff_of_false (List.cons_ne_nil _ _) nofun⟩
  | numberInteger n =>
    rw [htext rfl, dropNul_toStringInt]
    exact ⟨readsAs_of_plain isPlain_toStringInt, iff_of_false (toStringInt_ne_nil _) nofun⟩
  | numberUnsigned n =>
    rw [htext rfl, dropNul_toStringInt]
    exact ⟨readsAs_of_plain isPlain_toStringInt, iff_of_false (toStringInt_ne_nil _) nofun⟩
  | boolean b =>
    rw [htext rfl]
    cases b with
    | false => exact ⟨readsAs_of_plain (List.forall_mem_nil _), iff_of_true rfl rfl⟩
    | true => exact ⟨readsAs_of_plain (forall_mem_of_all (by decide)), iff_of_false (by decide) nofun⟩
  | null =>
    rw [htext rfl]
    exact ⟨readsAs_escapeShellArgAlways [], iff_of_false (by decide) nofun⟩
  | numberFloat bits => exact h.elim
  | array size elem => exact h.elim
  | object keys member => exact h.elim

theorem handleSimpleType_of_isSimple (h : IsSimple v) :
    handleSimpleType wholeFloat v = some ((handleSimpleType wholeFloat v).getD []) := by
  refine (Option.getD_of_ne_none (fun hnone => ?_) []).symm
  cases v with
  | numberFloat bits => exact h
  | array size elem => exact h
  | object keys member => exact h
  | _ => cases hnone

theorem mapM_eq_map {α β : Type} {f : α → Option β} {g : α → β} {l : List α}
    (h : ∀ a ∈ l, f a = some (g a)) : l.mapM f = some (l.map g) := by
  induction l with
  | nil => rfl
  | cons a l ih =>
    obtain ⟨ha, hl⟩ := List.forall_mem_cons.mp h
    rw [List.mapM_cons, ha, ih hl]
    rfl

variable {key : Bytes}

theorem dropNul_name (hkey : isName key = true) : dropNul key = key := by
  refine dropNul_of_notMem fun hmem => ?_
  cases key with
  | nil => exact List.not_mem_nil hmem
  | cons c s =>
    rw [isName, Bool.and_eq_true, Bool.and_eq_true, List.all_eq_true] at hkey
    rcases List.mem_cons.mp hmem with rfl | hin
    · exact absurd hkey.1.1 (by decide)
    · exact absurd (hkey.2 0 hin) (by decide)

theorem dropNul_writeArray (hkey : isName key = true) {values : List Json}
    (h : ∀ x ∈ values, IsSimple x) :
    dropNul (writeArray wholeFloat key values) = str "declare -a " ++ key ++ str "=(" ++
      (values.map fun x => (readText wholeFloat x, readValue x)).flatMap
        (fun w => w.1 ++ str " ") ++ str ")\n" := by
  rw [writeArray, mapM_eq_map fun x hx => handleSimpleType_of_isSimple (h x hx)]
  dsimp only
  rw [List.flatMap_map, List.flatMap_map, dropNul_append, dropNul_append, dropNul_append,
    dropNul_append, dropNul_name hkey, dropNul_flatMap]
  simp only [dropNul_append]
  rfl

theorem dropNul_writeObject (hkey : isName key = true) {value : Members}
    (h : ∀ e ∈ value.elems, IsSimple e.2) :
    dropNul (writeObject wholeFloat key value) = str "declare -A " ++ key ++ str "=(" ++
      (value.elems.map fun e => (dropNul e.1, readText wholeFloat e.2, readValue e.2)).flatMap
        (fun w => str "[" ++ escapeShellArgAlways w.1 ++ str "]=" ++ w.2.1 ++ str " ") ++
          str ")\n" := by
  have hitems : ∀ e ∈ value.elems, (do
      let s3 ← handleSimpleType wholeFloat e.2
      return str "[" ++ escapeShellArgAlways e.1 ++ str "]=" ++ s3 ++ str " ") =
        some (str "[" ++ escapeShellArgAlways e.1 ++ str "]=" ++
          (handleSimpleType wholeFloat e.2).getD [] ++ str " ") := by
    intro e he
    rw [handleSimpleType_of_isSimple (h e he)]
    rfl
  rw [writeObject, mapM_eq_map hitems]
  dsimp only
  rw [← List.flatMap_def, List.flatMap_map, dropNul_append, dropNul_append, dropNul_append,
    dropNul_append, dropNul_name hkey, dropNul_flatMap]
  simp only [dropNul_append, dropNul_escapeShellArgAlways]
  rfl

def readItems (ms : Members) : List (Bytes × Bytes) :=
  (ms.elems.map fun e => (dropNul e.1, readValue e.2)).filter (·.1 ≠ [])

variable (wholeFloat) in
def readVariable (v : Json) : Variable :=
  match v.elements?, v.members? with
  | some vs, _ => .indexed ((vs.filter fun x => readText wholeFloat x ≠ []).map readValue)
  | none, some ms => .associative (.ofList (readItems ms))
  | none, none => .scalar (readValue v)

theorem elements?_of_isSimple (h : IsSimple v) : v.elements? = none ∧ v.members? = none := by
  cases v with
  | array size elem => exact h.elim
  | object keys member => exact h.elim
  | _ => exact ⟨rfl, rfl⟩

theorem handleSimpleType_of_elements? {vs : List Json} (h : v.elements? = some vs) :
    handleSimpleType wholeFloat v = none := by
  cases v with
  | array size elem => rfl
  | _ => cases h

variable (wholeFloat) in
theorem handleSimpleType_of_members? {ms : Members} (h : v.members? = some ms) :
    handleSimpleType wholeFloat v = none ∧ v.elements? = none := by
  cases v with
  | object keys member => exact ⟨rfl, rfl⟩
  | _ => cases h

variable (wholeFloat) in
theorem readDeclaration_writeDeclaration (hkey : isName key = true) (h : IsShellValue v)
    (rest : Bytes) :
    readDeclaration (dropNul (writeDeclaration wholeFloat key v) ++ rest) =
      some ((key, readVariable wholeFloat v), rest) := by
  rcases h with hsimple | ⟨vs, helements, hvs⟩ | ⟨ms, hmembers, hms⟩
  · obtain ⟨helements, hmembers⟩ := elements?_of_isSimple hsimple
    have hread := readDeclaration_scalar hkey (readsAs_readText wholeFloat hsimple).1 rest
    rw [writeDeclaration, readVariable, handleSimpleType_of_isSimple hsimple, helements, hmembers]
    dsimp only
    rw [dropNul_append, dropNul_append, dropNul_append, dropNul_append, dropNul_name hkey]
    exact hread
  · rw [writeDeclaration, readVariable, handleSimpleType_of_elements? helements, helements]
    dsimp only
    rw [dropNul_writeArray hkey hvs, readDeclaration_indexed hkey]
    · rw [List.filter_map, List.map_map]
      rfl
    · exact List.forall_mem_map.mpr fun x hx => (readsAs_readText wholeFloat (hvs x hx)).1
  · obtain ⟨hnone, helements⟩ := handleSimpleType_of_members? wholeFloat hmembers
    rw [writeDeclaration, readVariable, hnone, helements, hmembers]
    dsimp only
    rw [dropNul_writeObject hkey hms, readDeclaration_associative hkey]
    · rw [List.map_map]
      rfl
    · exact List.forall_mem_map.mpr fun e he => (readsAs_readText wholeFloat (hms e he)).1

end Values

theorem matchesShVarName_eq_isName (s : Bytes) : matchesShVarName s = isName s := by
  cases s with
  | nil => rfl
  | cons c s =>
    have hdigit : (65 ≤ c && c ≤ 90 || 97 ≤ c && c ≤ 122 || decide (c = 95)) =
        (isNameByte c && !isDigit c) := by
      rw [Bool.eq_iff_iff]
      simp only [isNameByte, isDigit, Bool.or_eq_true, Bool.and_eq_true, decide_eq_true_eq,
        Bool.not_eq_true', Bool.and_eq_false_iff, decide_eq_false_iff_not, UInt8.le_iff_toNat_le,
        ← UInt8.toNat_inj]
      simp only [UInt8.reduceToNat]
      omega
    exact congrArg (· && s.all isNameByte) hdigit

variable {wholeFloat : UInt64 → Option Int} {json : Members}

def writtenMembers (json : Members) : List (Bytes × Json) := json.elems.filter (isName ·.1)

theorem source_writeShell (h : ∀ e ∈ json.elems, IsShellValue e.2) :
    source (writeShell wholeFloat json) =
      some (.ofList ((writtenMembers json).map fun e => (e.1, readVariable wholeFloat e.2))) := by
  have hscript : dropNul (writeShell wholeFloat json) =
      (writtenMembers json).flatMap fun e => dropNul (writeDeclaration wholeFloat e.1 e.2) := by
    rw [writeShell, dropNul_flatMap, writtenMembers]
    induction json.elems with
    | nil => rfl
    | cons e l ih =>
      rw [List.flatMap_cons, ih, List.filter_cons, matchesShVarName_eq_isName]
      split
      · rw [List.flatMap_cons]
      · rfl
  have hread : ∀ e ∈ writtenMembers json, dropNul (writeDeclaration wholeFloat e.1 e.2) ≠ [] ∧
      ∀ rest, readDeclaration (dropNul (writeDeclaration wholeFloat e.1 e.2) ++ rest) =
        some ((e.1, readVariable wholeFloat e.2), rest) := by
    intro e he
    obtain ⟨hin, hname⟩ := List.mem_filter.mp he
    have hdeclared := readDeclaration_writeDeclaration wholeFloat hname (h e hin)
    refine ⟨fun hnil => ?_, hdeclared⟩
    have hempty := hdeclared []
    rw [hnil] at hempty
    cases hempty
  have hall := readDeclarations_flatMap hread
    (length_le_length_flatMap fun e he => (hread e he).1)
  rw [← hscript] at hall
  exact congrArg (Option.map _) hall

theorem find?_source (h : ∀ e ∈ json.elems, IsShellValue e.2) {env : Variables}
    (henv : source (writeShell wholeFloat json) = some env) (name : Bytes) :
    env.find? name =
      if isName name then (json.find? name).map (readVariable wholeFloat) else none := by
  have hsorted : StrictlySorted (byKey compare)
      ((writtenMembers json).map fun e => (e.1, readVariable wholeFloat e.2)) := by
    refine strictlySorted_byKey.mpr ?_
    rw [List.map_map]
    exact strictlySorted_byKey.mp (List.Pairwise.filter _ json.sorted)
  obtain rfl := Option.some.inj ((source_writeShell h).symm.trans henv)
  ext v
  rw [SortedMap.find?_eq_some, SortedMap.ofList, SortedMap.foldl_assign_sublist hsorted,
    List.mem_map]
  constructor
  · rintro ⟨e, he, heq⟩
    obtain ⟨hin, hname⟩ := List.mem_filter.mp he
    obtain ⟨rfl, rfl⟩ := Prod.mk.inj heq
    rw [if_pos hname, SortedMap.find?_eq_some.mpr hin]
    rfl
  · intro hfind
    split at hfind
    next hname =>
      obtain ⟨j, hj, rfl⟩ := Option.map_eq_some_iff.mp hfind
      exact ⟨(name, j), List.mem_filter.mpr ⟨SortedMap.find?_eq_some.mp hj, hname⟩, rfl⟩
    next => cases hfind

theorem getInt_eq_iff {n : Int} : getInt n = n ↔ -2 ^ 31 ≤ n ∧ n < 2 ^ 31 := by
  rw [getInt, Int.bmod_eq_iff (by decide)]
  omega

theorem readValue_eq_iff {v : Json} (h : IsSimple v) : readValue v = rendering v ↔ IsKept v := by
  cases v with
  | string s => exact dropNul_eq_self_iff
  | numberInteger n => exact toStringInt_injective.eq_iff.trans getInt_eq_iff
  | numberUnsigned n =>
    have hdecimal : decimal n.toNat = toStringInt n.toNat := by
      rw [toStringInt, if_neg (by omega), Int.natAbs_natCast]
    rw [readValue, rendering, hdecimal, toStringInt_injective.eq_iff, getInt_eq_iff, IsKept]
    omega
  | boolean b => exact iff_of_true rfl trivial
  | null => exact iff_of_true rfl trivial
  | numberFloat bits => exact h.elim
  | array size elem => exact h.elim
  | object keys member => exact h.elim

theorem filter_map_eq_map_iff {values : List Json} (h : ∀ x ∈ values, IsSimple x) :
    (values.filter fun x => readText wholeFloat x ≠ []).map readValue = values.map rendering ↔
      ∀ x ∈ values, IsKept x ∧ x ≠ .boolean false := by
  have hfilter : (∀ x ∈ values, readText wholeFloat x ≠ []) ↔ ∀ x ∈ values, x ≠ .boolean false :=
    forall₂_congr fun x hx => (readsAs_readText wholeFloat (h x hx)).2.not
  have hvalues : values.map readValue = values.map rendering ↔ ∀ x ∈ values, IsKept x :=
    List.map_inj_left.trans (forall₂_congr fun x hx => readValue_eq_iff (h x hx))
  constructor
  · intro heq
    have hlen := congrArg List.length heq
    rw [List.length_map, List.length_map] at hlen
    have hall := List.length_filter_eq_length_iff.mp hlen
    rw [List.filter_eq_self.mpr hall] at heq
    have hfalse := hfilter.mp fun x hx => of_decide_eq_true (hall x hx)
    exact fun x hx => ⟨hvalues.mp heq x hx, hfalse x hx⟩
  · intro hkept
    have hall := hfilter.mpr fun x hx => (hkept x hx).2
    rw [List.filter_eq_self.mpr fun x hx => decide_eq_true (hall x hx)]
    exact hvalues.mpr fun x hx => (hkept x hx).1

theorem ofList_eq_mapValues_iff {members : Members} (h : ∀ e ∈ members.elems, IsSimple e.2) :
    SortedMap.ofList (readItems members) = members.mapValues rendering ↔
      ∀ e ∈ members.elems, e.1 ≠ [] ∧ 0 ∉ e.1 ∧ IsKept e.2 := by
  -- With such keys the list is that of the object.
  have hlist : (∀ e ∈ members.elems, e.1 ≠ [] ∧ 0 ∉ e.1) →
      readItems members = (members.mapValues readValue).elems := by
    intro hkeys
    have hmap : (members.elems.map fun e => (dropNul e.1, readValue e.2)) =
        (members.mapValues readValue).elems :=
      List.map_congr_left fun e he => by rw [dropNul_of_notMem (hkeys e he).2]
    rw [readItems, hmap]
    refine List.filter_eq_self.mpr (List.forall_mem_map.mpr fun e he => ?_)
    exact decide_eq_true (hkeys e he).1
  constructor
  · intro heq
    have hkeys : ∀ e ∈ members.elems, e.1 ≠ [] ∧ 0 ∉ e.1 := by
      intro e he
      have hfind : (members.mapValues rendering).find? e.1 = some (rendering e.2) := by
        rw [SortedMap.find?_mapValues, SortedMap.find?_eq_some.mpr he]
        rfl
      rw [← heq] at hfind
      obtain ⟨hin, hne⟩ := List.mem_filter.mp (SortedMap.mem_of_find?_ofList hfind)
      obtain ⟨e', -, hkey⟩ := List.mem_map.mp hin
      refine ⟨of_decide_eq_true hne, ?_⟩
      rw [← (Prod.mk.inj hkey).1]
      exact nul_notMem_dropNul e'.1
    rw [hlist hkeys, SortedMap.ofList_elems] at heq
    refine fun e he => ⟨(hkeys e he).1, (hkeys e he).2, (readValue_eq_iff (h e he)).mp ?_⟩
    have hvalue := congrArg (SortedMap.find? · e.1) heq
    simp only [SortedMap.find?_mapValues, SortedMap.find?_eq_some.mpr he] at hvalue
    exact Option.some.inj hvalue
  · intro hkept
    rw [hlist fun e he => ⟨(hkept e he).1, (hkept e he).2.1⟩, SortedMap.ofList_elems]
    refine SortedSet.eq_of_elems (List.map_congr_left fun e he => ?_)
    rw [(readValue_eq_iff (h e he)).mpr (hkept e he).2.2]

theorem readVariable_eq_iff {v : Json} (h : IsShellValue v) :
    readVariable wholeFloat v = variableOf v ↔ IsKeptValue v := by
  rcases h with hsimple | ⟨vs, helements, hvs⟩ | ⟨ms, hmembers, hms⟩
  · obtain ⟨helements, hmembers⟩ := elements?_of_isSimple hsimple
    rw [readVariable, variableOf, IsKeptValue, helements, hmembers]
    dsimp only
    rw [Variable.scalar.injEq, readValue_eq_iff hsimple]
  · rw [readVariable, variableOf, IsKeptValue, helements]
    dsimp only
    rw [Variable.indexed.injEq, filter_map_eq_map_iff hvs]
  · obtain ⟨-, helements⟩ := handleSimpleType_of_members? wholeFloat hmembers
    rw [readVariable, variableOf, IsKeptValue, helements, hmembers]
    dsimp only
    rw [Variable.associative.injEq, ofList_eq_mapValues_iff hms]

/-- The attributes reach the shell if and only if all values with a name are kept. -/
theorem reachesShell_iff (h : ∀ e ∈ json.elems, IsShellValue e.2) :
    ReachesShell wholeFloat json ↔ ∀ e ∈ json.elems, isName e.1 = true → IsKeptValue e.2 := by
  constructor
  · rintro ⟨env, henv, hreaches⟩ e he hname
    rw [← readVariable_eq_iff (h e he)]
    have hread := (find?_source h henv e.1).symm.trans (hreaches e.1)
    rw [if_pos hname, if_pos hname, SortedMap.find?_eq_some.mpr he] at hread
    exact Option.some.inj hread
  · intro hkept
    refine ⟨_, source_writeShell h, fun name => ?_⟩
    rw [find?_source h (source_writeShell h)]
    split
    next hname =>
      refine Option.map_congr fun v hv => ?_
      have hin := SortedMap.find?_eq_some.mp hv
      exact (readVariable_eq_iff (h _ hin)).mpr (hkept _ hin hname)
    next => rfl

def wideInteger : Members := SortedMap.ofList [(str "n", .numberInteger (2 ^ 32))]

theorem isShellValue_wideInteger : ∀ e ∈ wideInteger.elems, IsShellValue e.2 := by
  intro e he
  obtain rfl := List.mem_singleton.mp he
  exact .inl ⟨by decide, by decide⟩

theorem reachesShell_iff_wideInteger : ReachesShell (fun _ => none) wideInteger ↔
    ∀ e ∈ wideInteger.elems, isName e.1 = true → IsKeptValue e.2 :=
  reachesShell_iff isShellValue_wideInteger

theorem not_reachesShell_wideInteger : ¬ReachesShell (fun _ => none) wideInteger := by
  rintro ⟨env, henv, hreaches⟩
  have hread := find?_source isShellValue_wideInteger henv (str "n")
  exact absurd (hread.symm.trans (hreaches (str "n"))) (by decide)

end Nix.Store.StructuredAttrs
