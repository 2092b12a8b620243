import Mathlib.Data.Finset.Lattice.Fold
import Mathlib.Data.Fintype.Basic
import Nix.Eval.JsonToValue

/-!
How a value is printed as JSON, and that the text is parsed to the value.
-/

set_option linter.dupNamespace false

namespace Nix.Eval.ValueToJson

open Util.Types Util.JsonValues Lib.Results Lib.SortedList Lib.SortedTrees
open Eval.ReplaceStrings (NixStringContext)
open Eval.JsonToValue

/-- What printing uses of an `EvalState`. -/
structure EvalState where
  maxCallDepth : Nat
  /-- `callFunction` of the attribute `__toString` on the set, and `coerceToString`. -/
  attrsToString : Value → Value → Nat → NixStringContext →
    Except Failure (Bytes × NixStringContext)
  /-- `printStorePath(copyPathToStore(context, path))`. -/
  copyPathToStore : Bytes → NixStringContext → Except Failure (Bytes × NixStringContext)

namespace EvalState

variable (state : EvalState)

/-- `addCallDepth`, when there are `callDepth` calls around this one. -/
def addCallDepth (callDepth : Nat) : Except Failure Unit :=
  if callDepth > state.maxCallDepth then
    .error ⟨.stackOverflowError, ⟨"stack overflow; max-call-depth exceeded", []⟩, []⟩
  else .ok ()

/-- `tryAttrsToString`. -/
def tryAttrsToString (v : Value) (callDepth : Nat) (context : NixStringContext) :
    Except Failure (Option (Bytes × NixStringContext)) :=
  match v.attr? (str "__toString") with
  | some i => (state.attrsToString i v callDepth context).map some
  | none => .ok none

end EvalState

/-- `emplace` of a JSON object. -/
def emplace (m : Members) (name : Bytes) (j : Json) : Members :=
  ⟨insertNew (byKey compare) (name, j) m.elems, m.sorted.insertNew⟩

def printValueAsJSON (state : EvalState) (copyToStore : Bool) (v : Value) (callDepth : Nat)
    (context : NixStringContext) : Except Failure (Json × NixStringContext) := do
  state.addCallDepth callDepth
  match v with
  | .int n => return (.numberInteger n.toInt, context)
  | .bool b => return (.boolean b, context)
  | .string s c => return (.string s, context ∪ c)
  | .path path =>
      if copyToStore then
        let (s, context) ← state.copyPathToStore path context
        return (.string s, context)
      else return (.string path, context)
  | .null => return (.null, context)
  | .attrs names value =>
      match ← state.tryAttrsToString (.attrs names value) (callDepth + 1) context with
      | some (s, context) => return (.string s, context)
      | none =>
          match names.elems.finIdxOf? (str "outPath") with
          | some i => printValueAsJSON state copyToStore (value i) (callDepth + 1) context
          | none => do
              let (out, context) ← (List.finRange names.elems.length).foldlM
                (fun (acc : Members × NixStringContext) i => do
                  let (j, context) ←
                    (printValueAsJSON state copyToStore (value i) (callDepth + 1) acc.2).mapError
                      (.addTrace "while evaluating attribute '%1%'" [names.elems.get i])
                  return (emplace acc.1 (names.elems.get i) j, context))
                (SortedSet.empty, context)
              return (.ofMembers out, context)
  | .list size elem => do
      let (out, context) ← (List.finRange size).foldlM
        (fun (acc : List Json × NixStringContext) i => do
          let (j, context) ←
            (printValueAsJSON state copyToStore (elem i) (callDepth + 1) acc.2).mapError
              (.addTrace "while evaluating list element at index %1%" [decimal i])
          return (acc.1 ++ [j], context))
        ([], context)
      return (.ofElements out, context)
  | .float bits => return (.numberFloat bits, context)
  | .function shown => .error ⟨.typeError, ⟨"cannot convert %1% to JSON", [shown]⟩, []⟩

example (state : EvalState) (context : NixStringContext) :
    printValueAsJSON state true .null 0 context =
      (do state.addCallDepth 0; return (.null, context)) := by
  rw [printValueAsJSON]

/-- `dump`, which may throw an exception with a text, and the events of `sax_parse`. -/
structure JsonLibrary where
  dump : Json → Except Bytes Bytes
  saxEvents : Bytes → List Event

def IsUtf8 (s : Bytes) : Prop := ByteArray.IsValidUTF8 ⟨⟨s⟩⟩

def TextsUtf8 : Json → Prop
  | .string s => IsUtf8 s
  | .array _ elem => ∀ i, TextsUtf8 (elem i)
  | .object keys member => (∀ key ∈ keys, IsUtf8 key) ∧ ∀ i, TextsUtf8 (member i)
  | _ => True

/-- What the text of a JSON value says. A number that is not negative is read as unsigned. -/
def textOf : Json → Doc
  | .null => .null
  | .boolean b => .boolean b
  | .numberInteger n =>
      if 0 ≤ n then .numberUnsigned (.ofNat n.toNat) else .numberInteger (.ofInt n)
  | .numberUnsigned n => .numberUnsigned n
  | .numberFloat bits => .numberFloat bits
  | .string s => .string s
  | .array size elem => .array size fun i => textOf (elem i)
  | .object keys member => .object keys.elems.length keys.elems.get fun i => textOf (member i)

/-- The library writes a text and reads the events of it. -/
def JsonLibrary.Faithful (library : JsonLibrary) (j : Json) : Prop :=
  TextsUtf8 j → ∃ text, library.dump j = .ok text ∧ library.saxEvents text = (textOf j).events

/-- `printValueAsJSON` to a stream. -/
def printText (library : JsonLibrary) (state : EvalState) (copyToStore : Bool) (v : Value)
    (callDepth : Nat) (context : NixStringContext) : Except Failure (Bytes × NixStringContext) := do
  let (j, context) ← printValueAsJSON state copyToStore v callDepth context
  match library.dump j with
  | .ok text => return (text, context)
  | .error what => .error ⟨.error, ⟨"JSON serialization error: %s", [what]⟩, []⟩

/-- Null, booleans, integers, strings, lists and sets that are not printed as a string. -/
def IsData : Value → Prop
  | .null => True
  | .bool _ => True
  | .int _ => True
  | .string s _ => 0 ∉ s ∧ IsUtf8 s
  | .list _ elem => ∀ i, IsData (elem i)
  | .attrs names value =>
      str "__toString" ∉ names ∧ str "outPath" ∉ names ∧
        (∀ name ∈ names, 0 ∉ name ∧ IsUtf8 name) ∧ ∀ i, IsData (value i)
  | _ => False

def depth : Value → Nat
  | .list _ elem => Finset.univ.sup fun i => depth (elem i) + 1
  | .attrs _ value => Finset.univ.sup fun i => depth (value i) + 1
  | _ => 0

/-- `==` does not look at the contexts of strings. -/
def withoutContext : Value → Value
  | .string s _ => .string s ∅
  | .list size elem => .list size fun i => withoutContext (elem i)
  | .attrs names value => .attrs names fun i => withoutContext (value i)
  | v => v

variable {state : EvalState} {copyToStore : Bool}

/-- Values that are not nested too deeply are printed as `j`. -/
def PrintsAs (state : EvalState) (copyToStore : Bool) (v : Value) (j : Json) : Prop :=
  ∀ (callDepth : Nat) (context : NixStringContext), callDepth + depth v ≤ state.maxCallDepth →
    ∃ context', printValueAsJSON state copyToStore v callDepth context = .ok (j, context')

/-- The JSON value says what the value is. -/
structure Says (j : Json) (v : Value) : Prop where
  accepted : (textOf j).Accepted
  value : (textOf j).value = withoutContext v
  utf8 : TextsUtf8 j

theorem addCallDepth_eq_ok {callDepth : Nat} (h : callDepth ≤ state.maxCallDepth) :
    state.addCallDepth callDepth = .ok () :=
  if_neg h.not_gt

theorem says_int (n : Int64) : Says (.numberInteger n.toInt) (.int n) := by
  have hlt : n.toInt < 2 ^ 63 := Int64.toInt_lt n
  by_cases h : 0 ≤ n.toInt
  · have htext : textOf (.numberInteger n.toInt) = .numberUnsigned (.ofNat n.toInt.toNat) :=
      if_pos h
    have hnat : (UInt64.ofNat n.toInt.toNat).toNat = n.toInt.toNat :=
      UInt64.toNat_ofNat_of_lt (by rw [UInt64.size]; omega)
    refine ⟨?_, ?_, trivial⟩
    · rw [htext, Doc.Accepted, hnat]
      omega
    · rw [htext, Doc.value, hnat, ← Int64.ofInt_eq_ofNat, Int.toNat_of_nonneg h,
        Int64.ofInt_toInt]
      rfl
  · have htext : textOf (.numberInteger n.toInt) = .numberInteger (.ofInt n.toInt) := if_neg h
    refine ⟨by rw [htext]; trivial, ?_, trivial⟩
    rw [htext, Int64.ofInt_toInt]
    rfl

theorem foldlM_eq_ok {σ ι : Type} (put : σ → ι → Json → σ) {j : ι → Json}
    {print : ι → NixStringContext → Except Failure (Json × NixStringContext)}
    (hprint : ∀ i context, ∃ context', print i context = .ok (j i, context')) (l : List ι)
    (acc : σ) (context : NixStringContext) :
    ∃ context', l.foldlM (fun (acc : σ × NixStringContext) i => do
        let (j, context) ← print i acc.2
        return (put acc.1 i j, context)) (acc, context) =
      .ok (l.foldl (fun acc i => put acc i (j i)) acc, context') := by
  induction l generalizing acc context with
  | nil => exact ⟨context, rfl⟩
  | cons i l ih =>
    obtain ⟨context₁, hi⟩ := hprint i context
    obtain ⟨context₂, hl⟩ := ih (put acc i (j i)) context₁
    refine ⟨context₂, ?_⟩
    rw [List.foldlM_cons, hi]
    exact hl

theorem ofElements_finRange {size : Nat} (j : Fin size → Json) :
    Json.ofElements ((List.finRange size).foldl (fun l i => l ++ [j i]) []) = .array size j := by
  have hcongr : ∀ {n : Nat} (h : n = size) (j' : Fin n → Json),
      (∀ i, j' i = j (i.cast h)) → Json.array n j' = .array size j := by
    rintro n rfl j' heq
    rw [funext heq]
    rfl
  rw [List.foldl_append_eq_append (f := fun i => [j i]), List.nil_append, ← List.flatMap_def,
    ← List.map_eq_flatMap, ← List.ofFn_eq_map]
  exact hcongr List.length_ofFn _ fun i => List.get_ofFn j i

theorem ofMembers_finRange (names : StringSet) (j : Fin names.elems.length → Json) :
    Json.ofMembers ((List.finRange names.elems.length).foldl
      (fun m i => emplace m (names.elems.get i) (j i)) .empty) = .object names j := by
  have helems : ∀ (l : List (Fin names.elems.length)) (m : Members),
      (l.foldl (fun m i => emplace m (names.elems.get i) (j i)) m).elems =
        (l.map fun i => (names.elems.get i, j i)).foldl
          (fun m e => insertNew (byKey compare) e m) m.elems := by
    intro l
    induction l with
    | nil => exact fun _ => rfl
    | cons i l ih => exact fun m => ih (emplace m (names.elems.get i) (j i))
  have hfamily : (List.finRange names.elems.length).foldl
      (fun m i => emplace m (names.elems.get i) (j i)) .empty = ofFamily names j := by
    apply SortedSet.eq_of_elems
    rw [helems, ← List.ofFn_eq_map]
    exact foldl_insertNew (show StrictlySorted (byKey compare) ([] ++ (ofFamily names j).elems)
      from (ofFamily names j).sorted)
  rw [hfamily]
  exact build_ofFamily Json.object names j

theorem PrintsAs.part {v w : Value} {j : Json} (h : PrintsAs state copyToStore w j)
    (hdepth : depth w + 1 ≤ depth v) {callDepth : Nat}
    (hle : callDepth + depth v ≤ state.maxCallDepth) (addTrace : Failure → Failure)
    (context : NixStringContext) :
    ∃ context', (printValueAsJSON state copyToStore w (callDepth + 1) context).mapError addTrace =
      .ok (j, context') := by
  obtain ⟨context', heq⟩ := h (callDepth + 1) context (by omega)
  exact ⟨context', by rw [heq]; rfl⟩

theorem printsAs_list {size : Nat} {elem : Fin size → Value} {j : Fin size → Json}
    (h : ∀ i, PrintsAs state copyToStore (elem i) (j i)) :
    PrintsAs state copyToStore (.list size elem) (.array size j) := by
  intro callDepth context hdepth
  have hpart : ∀ i, depth (elem i) + 1 ≤ depth (.list size elem) := fun i =>
    Finset.le_sup (f := fun i => depth (elem i) + 1) (Finset.mem_univ i)
  obtain ⟨context', hfold⟩ := foldlM_eq_ok (fun l _ j => l ++ [j])
    (fun i => (h i).part (hpart i) hdepth
      (.addTrace "while evaluating list element at index %1%" [decimal i]))
    (List.finRange size) [] context
  refine ⟨context', ?_⟩
  rw [printValueAsJSON, addCallDepth_eq_ok ((Nat.le_add_right _ _).trans hdepth),
    ← ofElements_finRange]
  exact bind_eq_ok.mpr ⟨(), rfl, bind_eq_ok.mpr ⟨_, hfold, rfl⟩⟩

theorem tryAttrsToString_eq_none {names : StringSet} {value : Fin names.elems.length → Value}
    (h : str "__toString" ∉ names) (callDepth : Nat) (context : NixStringContext) :
    state.tryAttrsToString (.attrs names value) callDepth context = .ok none := by
  rw [EvalState.tryAttrsToString, Value.attr?, List.finIdxOf?_eq_none_iff.mpr h]
  rfl

theorem printsAs_attrs {names : StringSet} {value : Fin names.elems.length → Value}
    {j : Fin names.elems.length → Json} (htoString : str "__toString" ∉ names)
    (houtPath : str "outPath" ∉ names) (h : ∀ i, PrintsAs state copyToStore (value i) (j i)) :
    PrintsAs state copyToStore (.attrs names value) (.object names j) := by
  intro callDepth context hdepth
  have hpart : ∀ i, depth (value i) + 1 ≤ depth (.attrs names value) := fun i =>
    Finset.le_sup (f := fun i => depth (value i) + 1) (Finset.mem_univ i)
  obtain ⟨context', hfold⟩ := foldlM_eq_ok (fun m i j => emplace m (names.elems.get i) j)
    (fun i => (h i).part (hpart i) hdepth
      (.addTrace "while evaluating attribute '%1%'" [names.elems.get i]))
    (List.finRange names.elems.length) .empty context
  refine ⟨context', ?_⟩
  rw [printValueAsJSON, addCallDepth_eq_ok ((Nat.le_add_right _ _).trans hdepth),
    ← ofMembers_finRange]
  simp only [tryAttrsToString_eq_none htoString, List.finIdxOf?_eq_none_iff.mpr houtPath]
  exact bind_eq_ok.mpr ⟨(), rfl, bind_eq_ok.mpr ⟨none, rfl, bind_eq_ok.mpr ⟨_, hfold, rfl⟩⟩⟩

theorem says_list {size : Nat} {elem : Fin size → Value} {j : Fin size → Json}
    (h : ∀ i, Says (j i) (elem i)) : Says (.array size j) (.list size elem) where
  accepted := fun i => (h i).accepted
  value := congrArg (Value.list size) (funext fun i => (h i).value)
  utf8 := fun i => (h i).utf8

theorem says_attrs {names : StringSet} {value : Fin names.elems.length → Value}
    {j : Fin names.elems.length → Json} (hnames : ∀ name ∈ names, 0 ∉ name ∧ IsUtf8 name)
    (h : ∀ i, Says (j i) (value i)) : Says (.object names j) (.attrs names value) where
  accepted := fun i => ⟨(hnames _ (List.get_mem _ i)).1, (h i).accepted⟩
  value := by
    have hfamily : SortedMap.ofList (List.ofFn fun i => (names.elems.get i, (textOf (j i)).value)) =
        ofFamily names fun i => withoutContext (value i) := by
      rw [← SortedMap.ofList_elems (ofFamily names fun i => withoutContext (value i)), ofFamily]
      simp only [(h _).value]
    rw [textOf, Doc.value, hfamily]
    exact build_ofFamily Value.attrs names fun i => withoutContext (value i)
  utf8 := ⟨fun name hname => (hnames name hname).2, fun i => (h i).utf8⟩

theorem printsAs_scalar {v : Value} {j : Json} (add : NixStringContext → NixStringContext)
    (h : ∀ callDepth context, printValueAsJSON state copyToStore v callDepth context =
      (do state.addCallDepth callDepth; return (j, add context))) :
    PrintsAs state copyToStore v j := by
  intro callDepth context hdepth
  rw [h, addCallDepth_eq_ok ((Nat.le_add_right _ _).trans hdepth)]
  exact ⟨add context, rfl⟩

theorem exists_json (state : EvalState) (copyToStore : Bool) {v : Value} (h : IsData v) :
    ∃ j, PrintsAs state copyToStore v j ∧ Says j v := by
  induction v with
  | null =>
    exact ⟨.null, printsAs_scalar id fun _ _ => by rw [printValueAsJSON]; rfl, trivial, rfl,
      trivial⟩
  | bool b =>
    exact ⟨.boolean b, printsAs_scalar id fun _ _ => by rw [printValueAsJSON]; rfl, trivial, rfl,
      trivial⟩
  | int n =>
    exact ⟨.numberInteger n.toInt, printsAs_scalar id fun _ _ => by rw [printValueAsJSON]; rfl,
      says_int n⟩
  | string s c =>
    exact ⟨.string s, printsAs_scalar (· ∪ c) fun _ _ => by rw [printValueAsJSON], h.1, rfl, h.2⟩
  | list size elem ih =>
    choose j hj using fun i => ih i (h i)
    exact ⟨.array size j, printsAs_list fun i => (hj i).1, says_list fun i => (hj i).2⟩
  | attrs names value ih =>
    obtain ⟨htoString, houtPath, hnames, hvalues⟩ := h
    choose j hj using fun i => ih i (hvalues i)
    exact ⟨.object names j, printsAs_attrs htoString houtPath fun i => (hj i).1,
      says_attrs hnames fun i => (hj i).2⟩
  | float bits => exact h.elim
  | path p => exact h.elim
  | function shown => exact h.elim

theorem exists_eq_ok_of_foldlM {σ ι : Type} (put : σ → ι → Json → σ)
    (print : ι → NixStringContext → Except Failure (Json × NixStringContext)) {l : List ι}
    {acc acc' : σ × NixStringContext}
    (h : l.foldlM (fun (acc : σ × NixStringContext) i => do
        let (j, context) ← print i acc.2
        return (put acc.1 i j, context)) acc = .ok acc') :
    ∀ i ∈ l, ∃ context r, print i context = .ok r := by
  induction l generalizing acc with
  | nil => exact nofun
  | cons i l ih =>
    rw [List.foldlM_cons] at h
    obtain ⟨acc₁, hi, hl⟩ := bind_eq_ok.mp h
    obtain ⟨r, hprint, -⟩ := bind_eq_ok.mp hi
    exact List.forall_mem_cons.mpr ⟨⟨acc.2, r, hprint⟩, ih hl⟩

theorem of_mapError_eq_ok {ε ε' α : Type} {x : Except ε α} {f : ε → ε'} {a : α}
    (h : x.mapError f = .ok a) : x = .ok a := by
  cases x with
  | error e => cases h
  | ok b => exact congrArg _ (Except.ok.inj h)

theorem le_of_addCallDepth {callDepth : Nat} {r : Unit} (h : state.addCallDepth callDepth = .ok r) :
    callDepth ≤ state.maxCallDepth := by
  by_contra hle
  rw [EvalState.addCallDepth, if_pos (not_le.mp hle)] at h
  cases h

theorem callDepth_le_of_print {v : Value} {callDepth : Nat} {context : NixStringContext}
    {r : Json × NixStringContext}
    (h : printValueAsJSON state copyToStore v callDepth context = .ok r) :
    callDepth ≤ state.maxCallDepth := by
  rw [printValueAsJSON.eq_def] at h
  obtain ⟨_, hlevel, -⟩ := bind_eq_ok.mp h
  exact le_of_addCallDepth hlevel

theorem exists_part_of_print_list {size : Nat} {elem : Fin size → Value} {callDepth : Nat}
    {context : NixStringContext} {r : Json × NixStringContext}
    (h : printValueAsJSON state copyToStore (.list size elem) callDepth context = .ok r)
    (i : Fin size) :
    ∃ context r, printValueAsJSON state copyToStore (elem i) (callDepth + 1) context = .ok r := by
  rw [printValueAsJSON] at h
  obtain ⟨-, -, h⟩ := bind_eq_ok.mp h
  obtain ⟨_, hfold, -⟩ := bind_eq_ok.mp h
  obtain ⟨context', r', hi⟩ := exists_eq_ok_of_foldlM (fun l _ j => l ++ [j])
    (fun i context => (printValueAsJSON state copyToStore (elem i) (callDepth + 1) context).mapError
      (.addTrace "while evaluating list element at index %1%" [decimal i]))
    hfold i (List.mem_finRange i)
  exact ⟨context', r', of_mapError_eq_ok hi⟩

theorem exists_part_of_print_attrs {names : StringSet} {value : Fin names.elems.length → Value}
    (htoString : str "__toString" ∉ names) (houtPath : str "outPath" ∉ names) {callDepth : Nat}
    {context : NixStringContext} {r : Json × NixStringContext}
    (h : printValueAsJSON state copyToStore (.attrs names value) callDepth context = .ok r)
    (i : Fin names.elems.length) :
    ∃ context r, printValueAsJSON state copyToStore (value i) (callDepth + 1) context = .ok r := by
  rw [printValueAsJSON] at h
  obtain ⟨-, -, h⟩ := bind_eq_ok.mp h
  simp only [tryAttrsToString_eq_none htoString, List.finIdxOf?_eq_none_iff.mpr houtPath] at h
  obtain ⟨string, hstring, h⟩ := bind_eq_ok.mp h
  obtain rfl := Except.ok.inj hstring
  obtain ⟨_, hfold, -⟩ := bind_eq_ok.mp h
  obtain ⟨context', r', hi⟩ := exists_eq_ok_of_foldlM
    (fun m i j => emplace m (names.elems.get i) j)
    (fun i context => (printValueAsJSON state copyToStore (value i) (callDepth + 1)
      context).mapError (.addTrace "while evaluating attribute '%1%'" [names.elems.get i]))
    hfold i (List.mem_finRange i)
  exact ⟨context', r', of_mapError_eq_ok hi⟩

theorem add_sup_le {n callDepth max : Nat} (part : Fin n → Value) (hle : callDepth ≤ max)
    (h : ∀ i, callDepth + 1 + depth (part i) ≤ max) :
    callDepth + Finset.univ.sup (fun i => depth (part i) + 1) ≤ max := by
  have hsup : Finset.univ.sup (fun i => depth (part i) + 1) ≤ max - callDepth := by
    refine Finset.sup_le fun i _ => ?_
    have hpart : callDepth + 1 + depth (part i) ≤ max := h i
    omega
  omega

theorem depth_le_of_print {v : Value} (h : IsData v) {callDepth : Nat}
    {context : NixStringContext} {r : Json × NixStringContext}
    (hprint : printValueAsJSON state copyToStore v callDepth context = .ok r) :
    callDepth + depth v ≤ state.maxCallDepth := by
  induction v generalizing callDepth context r with
  | list size elem ih =>
    refine add_sup_le elem (callDepth_le_of_print hprint) fun i => ?_
    obtain ⟨context', r', hi⟩ := exists_part_of_print_list hprint i
    exact ih i (h i) hi
  | attrs names value ih =>
    obtain ⟨htoString, houtPath, -, hvalues⟩ := h
    refine add_sup_le value (callDepth_le_of_print hprint) fun i => ?_
    obtain ⟨context', r', hi⟩ := exists_part_of_print_attrs htoString houtPath hprint i
    exact ih i (hvalues i) hi
  | _ => exact callDepth_le_of_print hprint

/-- Data is printed, unless it is nested too deeply, and the text is parsed to the data. Of a
document, the members of one name are parsed to the last one of them. -/
theorem fromJSON_toJSON (library : JsonLibrary) (state : EvalState) (copyToStore : Bool) :
    (∀ v, IsData v → ∀ callDepth context,
      (∀ j context', printValueAsJSON state copyToStore v callDepth context = .ok (j, context') →
        library.Faithful j) →
      ((∃ r, printText library state copyToStore v callDepth context = .ok r) ↔
        callDepth + depth v ≤ state.maxCallDepth) ∧
      ∀ text context', printText library state copyToStore v callDepth context =
          .ok (text, context') →
        ∃ heap, parseJSON (library.saxEvents text) = .ok heap ∧
          Denotes heap 0 (withoutContext v)) ∧
    (∀ d : Doc,
      (d.Accepted → ∃ heap, parseJSON d.events = .ok heap ∧ Denotes heap 0 d.value) ∧
        (¬ d.Accepted → ∃ failure, parseJSON d.events = .error failure)) ∧
    ∀ (size : Nat) (name : Fin size → Bytes) (member : Fin size → Doc) (k : Bytes),
      (Doc.object size name member).value.attr? k =
        ((List.ofFn fun i => (name i, (member i).value)).reverse.find? (·.1 = k)).map
          Prod.snd := by
  refine ⟨fun v hdata callDepth context hlibrary => ?_, parseJSON_events,
    fun _ => attr?_value_object⟩
  obtain ⟨j, hprints, hsays⟩ := exists_json state copyToStore hdata
  have hprinted : callDepth + depth v ≤ state.maxCallDepth → ∃ text context',
      printText library state copyToStore v callDepth context = .ok (text, context') ∧
        library.saxEvents text = (textOf j).events := by
    intro hdepth
    obtain ⟨context', hprint⟩ := hprints callDepth context hdepth
    obtain ⟨text, hdump, hevents⟩ := hlibrary j context' hprint hsays.utf8
    refine ⟨text, context', ?_, hevents⟩
    rw [printText, hprint]
    exact bind_eq_ok.mpr ⟨_, rfl, by simp only [hdump]; rfl⟩
  have hdepth : ∀ {r}, printText library state copyToStore v callDepth context = .ok r →
      callDepth + depth v ≤ state.maxCallDepth := by
    intro r h
    obtain ⟨_, hprint, -⟩ := bind_eq_ok.mp h
    exact depth_le_of_print hdata hprint
  refine ⟨⟨fun ⟨r, h⟩ => hdepth h, fun hle => ?_⟩, fun text context' h => ?_⟩
  · obtain ⟨text, context', htext, -⟩ := hprinted hle
    exact ⟨_, htext⟩
  · obtain ⟨_, _, htext, hevents⟩ := hprinted (hdepth h)
    cases htext.symm.trans h
    obtain ⟨heap, hparse, hdenotes⟩ := (parseJSON_events (textOf j)).1 hsays.accepted
    exact ⟨heap, hevents ▸ hparse, hsays.value ▸ hdenotes⟩

def one : Value := .list 1 fun _ => .int 1

def oneLibrary : JsonLibrary where
  dump _ := .ok (str "[1]")
  saxEvents _ := [.startArray, .numberUnsigned 1, .endArray]

def oneState : EvalState where
  maxCallDepth := 10000
  attrsToString _ _ _ context := .ok ([], context)
  copyPathToStore path context := .ok (path, context)

theorem fromJSON_toJSON_one :
    ∃ heap, parseJSON (oneLibrary.saxEvents (str "[1]")) = .ok heap ∧ Denotes heap 0 one := by
  have hprint : printValueAsJSON oneState true one 0 ∅ =
      .ok (.ofElements [.numberInteger 1], ∅) := rfl
  refine ((fromJSON_toJSON oneLibrary oneState true).1 one (fun _ => trivial) 0 ∅ ?_).2
    (str "[1]") ∅ rfl
  intro j context' hj _
  obtain ⟨rfl, -⟩ := Prod.mk.inj (Except.ok.inj (hprint.symm.trans hj))
  exact ⟨_, rfl, rfl⟩

theorem not_parses_wideNumber :
    ¬ ∀ d : Doc, ∃ heap v, parseJSON d.events = .ok heap ∧ Denotes heap 0 v := by
  intro h
  obtain ⟨heap, v, hparse, -⟩ := h (.numberUnsigned (2 ^ 63))
  obtain ⟨failure, herror⟩ := (parseJSON_events (.numberUnsigned (2 ^ 63))).2
    (by rw [Doc.Accepted]; decide +kernel)
  cases herror.symm.trans hparse

end Nix.Eval.ValueToJson
