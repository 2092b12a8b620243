import Mathlib.Data.List.Sort
import Mathlib.Data.Prod.Lex
import Nix.Eval.BindingsUpdates
import Nix.Lib.Results
import Nix.Lib.SortedMaps

/-!
The builtins `removeAttrs`, `intersectAttrs`, `listToAttrs` and `zipAttrsWith`.
-/

set_option linter.dupNamespace false

namespace Nix.Eval.LayeredBindings

open Util.Types Lib.Results Lib.SortedList

variable {V : Type}

/-- What the builtins use of the evaluator: values, and the symbols of names. Symbol 0 is
reserved. -/
structure EvalState (V : Type) where
  create : Bytes → Symbol
  create_injective : Function.Injective create
  create_ne_zero : ∀ s, create s ≠ 0
  forceAttrs : V → Except Error (Bindings V)
  ok_of_forceAttrs : ∀ {v b}, forceAttrs v = .ok b → b.Ok
  forceStringNoCtx : V → Except Error Bytes
  mkString : Symbol → V
  mkApp : V → V → V
  /-- `none` is an element that was not written. -/
  mkList : List (Option V) → V

/-- `buildBindings(capacity)`, with the attributes that are inserted. -/
def buildBindings (capacity : Nat) (attrs : List (Attr V)) : Except Error (Bindings V) := do
  let builder ← attrs.foldlM BindingsBuilder.pushBack { capacity }
  return builder.alreadySorted

namespace EvalState

variable (state : EvalState V)

def getAttr (name : Bytes) (attrs : Bindings V) : Except Error (Attr V) :=
  match attrs.get (state.create name) with
  | some j => .ok j
  | none => .error ⟨.error, ⟨"attribute '%s' missing", [name]⟩⟩

end EvalState

/-! ### `removeAttrs` -/

/-- `std::set_difference` of two sorted ranges. -/
def setDifference : List (Attr V) → List Symbol → List (Attr V)
  | [], _ => []
  | a :: as, [] => a :: as
  | a :: as, name :: names =>
      if a.name < name then a :: setDifference as (name :: names)
      else if name < a.name then setDifference (a :: as) names
      else setDifference as names

def removeAttrs (state : EvalState V) (attrs : Bindings V) (list : List V) :
    Except Error (Bindings V) := do
  let names ← list.mapM fun elem => return state.create (← state.forceStringNoCtx elem)
  let names := names.insertionSort (· ≤ ·)
  buildBindings attrs.size (setDifference attrs.toList names)

/-! ### `intersectAttrs` -/

def intersectAttrs (left right : Bindings V) : Except Error (Bindings V) :=
  buildBindings (min left.size right.size)
    (if left.size < right.size then left.toList.filterMap fun l => right.get l.name
    else right.toList.filter fun r => (left.get r.name).isSome)

/-! ### `listToAttrs` -/

/-- An entry of the array, which has an element of the list first, and an attribute later. -/
inductive Slot (V : Type)
  | listElem (name : Symbol) (v2 : Nat)
  | attr (a : Attr V)

/-- The order of the array: equal names keep the order of the list. -/
def slotBefore (a b : Symbol × Nat) : Prop :=
  a.1 < b.1 ∨ ¬a.1 > b.1 ∧ a.2 < b.2

instance (a b : Symbol × Nat) : Decidable (slotBefore a b) :=
  inferInstanceAs (Decidable (_ ∨ _))

/-- The variables of the loop that unpacks the array in place. -/
structure Unpacked (V : Type) where
  slots : List (Slot V)
  numAttrs : Nat
  prev : Symbol

namespace EvalState

variable (state : EvalState V)

/-- The name of an element, with the index of the element. -/
def elemName (v2 : V) (n : Nat) : Except Error (Symbol × Nat) := do
  let attrs ← state.forceAttrs v2
  let j ← state.getAttr (str "name") attrs
  let name ← state.forceStringNoCtx j.value
  return (state.create name, n)

/-- The value of an element, as the attribute of a name. -/
def elemValue (list : List V) (name : Symbol) (v2 : Nat) : Except Error (Attr V) :=
  match list[v2]? with
  | some v2 => do
      let attrs ← state.forceAttrs v2
      let j ← state.getAttr (str "value") attrs
      return ⟨name, j.pos, j.value⟩
  | none => .error (.assertion "v2")

def unpack (list : List V) (st : Unpacked V) (n : Nat) : Except Error (Unpacked V) :=
  match st.slots[n]? with
  | some (.listElem name v2) =>
      if st.prev = name then .ok st
      else do
        let a ← state.elemValue list name v2
        return ⟨st.slots.set st.numAttrs (.attr a), st.numAttrs + 1, name⟩
  -- a slot that was written before it is read
  | _ => .error (.assertion "bindings[n]")

end EvalState

def Slot.toAttr? : Slot V → Option (Attr V)
  | .listElem _ _ => none
  | .attr a => some a

def listToAttrs (state : EvalState V) (list : List V) : Except Error (Bindings V) := do
  let elems ← list.zipIdx.mapM fun e => state.elemName e.1 e.2
  let slots := (elems.insertionSort fun a b => ¬slotBefore b a).map fun e => Slot.listElem e.1 e.2
  let st ← (List.range list.length).foldlM (state.unpack list) ⟨slots, 0, 0⟩
  let attrs := (st.slots.take st.numAttrs).filterMap Slot.toAttr?
  return .mk attrs attrs.length 1 none

/-! ### `zipAttrsWith` -/

structure Item (V : Type) where
  size : Nat := 0
  pos : Nat := 0
  list : List (Option V) := []

abbrev AttrsSeen (V : Type) := SortedMap (compare : Symbol → Symbol → Ordering) (Item V)

/-- The first loop: how many values there are for each name. -/
def countAttr (attrsSeen : AttrsSeen V) (attr : Attr V) : AttrsSeen V :=
  let item := (attrsSeen.find? attr.name).getD {}
  attrsSeen.assign attr.name { item with size := item.size + 1 }

def placeAttr (attrsSeen : AttrsSeen V) (attr : Attr V) : Except Error (AttrsSeen V) :=
  match attrsSeen.find? attr.name with
  | some item => .ok (attrsSeen.assign attr.name
      { item with list := item.list.set item.pos (some attr.value), pos := item.pos + 1 })
  | none => .error ⟨.error, ⟨"map::at", []⟩⟩

def zipAttrsWith (state : EvalState V) (f : V) (list : List V) : Except Error (Bindings V) := do
  let sets ← list.mapM state.forceAttrs
  let attrsSeen : AttrsSeen V := sets.foldl (fun m set => set.toList.foldl countAttr m) .empty
  let attrsSeen := attrsSeen.mapValues fun item =>
    { item with list := List.replicate item.size none }
  let attrsSeen ← sets.foldlM (fun m set => set.toList.foldlM placeAttr m) attrsSeen
  buildBindings attrsSeen.elems.length (attrsSeen.elems.map fun (sym, elem) =>
    ⟨sym, 0, state.mkApp (state.mkApp f (state.mkString sym)) (state.mkList elem.list)⟩)

/-! ### Sets as finite maps -/

/-- One sorted layer, with the attributes that the map says. -/
structure IsMap (b : Bindings V) (get : Symbol → Option (Attr V)) : Prop where
  ok : b.Ok
  flat : b.baseLayer = none
  sorted : Sorted b.attrs
  toList : b.toList = b.attrs
  get : ∀ name, b.get name = get name

theorem buildBindings_spec {capacity : Nat} {attrs : List (Attr V)} (h : Sorted attrs)
    (hlen : attrs.length ≤ capacity) :
    ∃ b, buildBindings capacity attrs = .ok b ∧ IsMap b (getInChunk attrs) := by
  have hfold : attrs.foldlM BindingsBuilder.pushBack { capacity } =
      .ok { attrs, capacity } := by
    refine (BindingsBuilder.foldlM_pushBack ?_).trans ?_
    · simpa using hlen
    · simp
  obtain ⟨hok, hlist, hget⟩ := BindingsBuilder.ok_alreadySorted h capacity
  refine ⟨_, ?_, hok, rfl, h, hlist, hget⟩
  rw [buildBindings, hfold]
  rfl

theorem IsMap.congr {b : Bindings V} {get get' : Symbol → Option (Attr V)} (h : IsMap b get)
    (heq : ∀ name, get name = get' name) : IsMap b get' :=
  { h with get := fun name => (h.get name).trans (heq name) }

theorem getInChunk_eq {attrs : List (Attr V)} (h : Sorted attrs) {get : Symbol → Option (Attr V)}
    (hget : ∀ name a, a ∈ attrs ∧ a.name = name ↔ get name = some a) (name : Symbol) :
    getInChunk attrs name = get name := by
  ext a
  rw [getInChunk_eq_some h, hget]

namespace Bindings

theorem name_of_get {b : Bindings V} (h : b.Ok) {name : Symbol} {a : Attr V}
    (ha : b.get name = some a) : a.name = name := by
  rw [get_eq] at ha
  exact getInLayers_name h.sorted ha

theorem mem_toList_and_name {b : Bindings V} (h : b.Ok) {name : Symbol} {a : Attr V} :
    a ∈ b.toList ∧ a.name = name ↔ b.get name = some a := by
  rw [(toList_spec_of_ok h).2]
  constructor
  · rintro ⟨ha, rfl⟩
    exact ha
  · intro ha
    have hname := name_of_get h ha
    exact ⟨hname ▸ ha, hname⟩

end Bindings

/-! ### The builtins on sets -/

theorem mem_setDifference {as : List (Attr V)} {names : List Symbol} (has : Sorted as)
    (hnames : names.Pairwise (· ≤ ·)) {a : Attr V} :
    a ∈ setDifference as names ↔ a ∈ as ∧ a.name ∉ names := by
  induction as, names using setDifference.induct with
  | case1 => simp [setDifference]
  | case2 => simp [setDifference]
  | case3 b as name names hlt ih =>
      have hrest : ∀ n ∈ name :: names, b.name < n := by
        intro n hn
        rcases List.mem_cons.mp hn with rfl | hn
        · exact hlt
        · exact hlt.trans_le ((List.pairwise_cons.mp hnames).1 n hn)
      have hb : b.name ∉ name :: names := fun hin => Nat.lt_irrefl _ (hrest _ hin)
      rw [setDifference, if_pos hlt, List.mem_cons, ih (List.pairwise_cons.mp has).2 hnames,
        List.mem_cons (a := a)]
      constructor
      · rintro (rfl | ⟨ha, hnot⟩)
        · exact ⟨.inl rfl, hb⟩
        · exact ⟨.inr ha, hnot⟩
      · rintro ⟨rfl | ha, hnot⟩
        · exact .inl rfl
        · exact .inr ⟨ha, hnot⟩
  | case4 b as name names hlt hgt ih =>
      rw [setDifference, if_neg hlt, if_pos hgt, ih has (List.pairwise_cons.mp hnames).2,
        List.mem_cons (b := name), not_or]
      constructor
      · rintro ⟨ha, hnot⟩
        refine ⟨ha, fun heq => ?_, hnot⟩
        rcases List.mem_cons.mp ha with rfl | ha
        · exact Nat.ne_of_gt hgt heq
        · exact Nat.ne_of_gt (hgt.trans ((List.pairwise_cons.mp has).1 a ha)) heq
      · rintro ⟨ha, -, hnot⟩
        exact ⟨ha, hnot⟩
  | case5 b as name names hlt hgt ih =>
      have heq : name = b.name := Nat.le_antisymm (Nat.not_lt.mp hlt) (Nat.not_lt.mp hgt)
      subst heq
      rw [setDifference, if_neg hlt, if_neg hgt, ih (List.pairwise_cons.mp has).2
        (List.pairwise_cons.mp hnames).2, List.mem_cons (a := a), List.mem_cons (b := b.name), not_or]
      constructor
      · rintro ⟨ha, hnot⟩
        have hne := Nat.ne_of_gt ((List.pairwise_cons.mp has).1 a ha)
        exact ⟨.inr ha, hne, hnot⟩
      · rintro ⟨rfl | ha, hne, hnot⟩
        · exact absurd rfl hne
        · exact ⟨ha, hnot⟩

theorem setDifference_sublist (as : List (Attr V)) (names : List Symbol) :
    (setDifference as names).Sublist as := by
  induction as, names using setDifference.induct with
  | case1 => rw [setDifference]
  | case2 => rw [setDifference]
  | case3 b as name names hlt ih =>
      rw [setDifference, if_pos hlt]
      exact ih.cons_cons b
  | case4 b as name names hlt hgt ih =>
      rw [setDifference, if_neg hlt, if_pos hgt]
      exact ih
  | case5 b as name names hlt hgt ih =>
      rw [setDifference, if_neg hlt, if_neg hgt]
      exact ih.cons b

def without (attrs : Bindings V) (names : List Symbol) (name : Symbol) : Option (Attr V) :=
  if name ∈ names then none else attrs.get name

theorem removeAttrs_spec (state : EvalState V) {attrs : Bindings V} (h : attrs.Ok) {list : List V}
    {names : List Bytes} (hnames : list.mapM state.forceStringNoCtx = .ok names) :
    ∃ b, removeAttrs state attrs list = .ok b ∧
      IsMap b (without attrs (names.map state.create)) := by
  obtain ⟨hsorted, -⟩ := Bindings.toList_spec_of_ok h
  obtain ⟨sorted, hsort⟩ : ∃ sorted, sorted = (names.map state.create).insertionSort (· ≤ ·) :=
    ⟨_, rfl⟩
  have hle : sorted.Pairwise (· ≤ ·) := hsort ▸ List.pairwise_insertionSort _ _
  have hmem : ∀ name, name ∈ sorted ↔ name ∈ names.map state.create := by
    intro name
    rw [hsort]
    exact (List.perm_insertionSort _ _).mem_iff
  have hsub := setDifference_sublist attrs.toList sorted
  have hsorted' : Sorted (setDifference attrs.toList sorted) := hsorted.sublist hsub
  obtain ⟨b, hb, hmap⟩ := buildBindings_spec hsorted' (h.size ▸ hsub.length_le)
  refine ⟨b, ?_, hmap.congr (getInChunk_eq hsorted' fun name a => ?_)⟩
  · have hmapM : (list.mapM fun elem => return state.create (← state.forceStringNoCtx elem)) =
        .ok (names.map state.create) := by
      rw [mapM_eq_ok, List.forall₂_map_right_iff]
      refine (mapM_eq_ok.mp hnames).imp fun elem name hname => ?_
      rw [hname]
      rfl
    rw [removeAttrs, hmapM]
    simp only [bind, Except.bind, ← hsort]
    exact hb
  · rw [mem_setDifference hsorted hle, hmem, without]
    split
    next hin =>
      constructor
      · rintro ⟨⟨-, hnot⟩, rfl⟩
        exact absurd hin hnot
      · exact nofun
    next hnot =>
      rw [← Bindings.mem_toList_and_name h]
      constructor
      · rintro ⟨⟨ha, -⟩, hname⟩
        exact ⟨ha, hname⟩
      · rintro ⟨ha, rfl⟩
        exact ⟨⟨ha, hnot⟩, rfl⟩

/-- The bindings of the second set whose name the first one has. -/
def inBoth (left right : Bindings V) (name : Symbol) : Option (Attr V) :=
  if (left.get name).isSome then right.get name else none

theorem intersectAttrs_spec {left right : Bindings V} (hl : left.Ok) (hr : right.Ok) :
    ∃ b, intersectAttrs left right = .ok b ∧ IsMap b (inBoth left right) := by
  obtain ⟨hsortedl, -⟩ := Bindings.toList_spec_of_ok hl
  obtain ⟨hsortedr, -⟩ := Bindings.toList_spec_of_ok hr
  rw [intersectAttrs]
  split
  next hlt =>
    have hsorted : Sorted (left.toList.filterMap fun l => right.get l.name) := by
      refine List.Pairwise.filterMap _ (fun a a' hlt b hb b' hb' => ?_) hsortedl
      rw [Bindings.name_of_get hr hb, Bindings.name_of_get hr hb']
      exact hlt
    have hlen : (left.toList.filterMap fun l => right.get l.name).length ≤
        min left.size right.size := by
      rw [Nat.min_eq_left (Nat.le_of_lt hlt), hl.size]
      exact List.length_filterMap_le _ _
    obtain ⟨b, hb, hmap⟩ := buildBindings_spec hsorted hlen
    refine ⟨b, hb, hmap.congr (getInChunk_eq hsorted fun name a => ?_)⟩
    rw [List.mem_filterMap, inBoth]
    constructor
    · rintro ⟨⟨l, hin, ha⟩, rfl⟩
      have hname := Bindings.name_of_get hr ha
      rw [if_pos, hname]
      · exact ha
      · rw [hname, (Bindings.mem_toList_and_name hl).mp ⟨hin, rfl⟩]
        rfl
    · intro ha
      split at ha
      next hsome =>
        obtain ⟨l, hget⟩ := Option.isSome_iff_exists.mp hsome
        obtain ⟨hin, rfl⟩ := (Bindings.mem_toList_and_name hl).mpr hget
        exact ⟨⟨l, hin, ha⟩, Bindings.name_of_get hr ha⟩
      next => cases ha
  next hge =>
    have hsub : (right.toList.filter fun r => (left.get r.name).isSome).Sublist right.toList :=
      List.filter_sublist
    have hsorted : Sorted (right.toList.filter fun r => (left.get r.name).isSome) :=
      hsortedr.sublist hsub
    have hlen : (right.toList.filter fun r => (left.get r.name).isSome).length ≤
        min left.size right.size := by
      rw [Nat.min_eq_right (Nat.not_lt.mp hge), hr.size]
      exact hsub.length_le
    obtain ⟨b, hb, hmap⟩ := buildBindings_spec hsorted hlen
    refine ⟨b, hb, hmap.congr (getInChunk_eq hsorted fun name a => ?_)⟩
    rw [List.mem_filter, inBoth]
    constructor
    · rintro ⟨⟨hin, hsome⟩, rfl⟩
      rw [if_pos hsome]
      exact (Bindings.mem_toList_and_name hr).mp ⟨hin, rfl⟩
    · intro ha
      split at ha
      next hsome =>
        obtain ⟨hin, rfl⟩ := (Bindings.mem_toList_and_name hr).mpr ha
        exact ⟨⟨hin, hsome⟩, rfl⟩
      next => cases ha

/-! ### The builtins on lists -/

/-- The first entry of each name, after the name `prev`. -/
def heads : Symbol → List (Symbol × Nat) → List (Symbol × Nat)
  | _, [] => []
  | prev, (name, v2) :: l => if prev = name then heads prev l else (name, v2) :: heads name l

theorem set_slots (written : List (Attr V)) (stale : List (Slot V)) (slot : Slot V)
    (rest : List (Slot V)) (a : Attr V) :
    (written.map Slot.attr ++ stale ++ slot :: rest).set written.length (.attr a) =
      (written ++ [a]).map Slot.attr ++ (stale ++ [slot]).tail ++ rest := by
  have hlen : (written.map Slot.attr).length = written.length := List.length_map _
  cases stale with
  | nil =>
      rw [List.append_nil, List.set_append_right _ _ hlen.le, hlen, Nat.sub_self]
      simp
  | cons g stale =>
      rw [List.append_assoc, List.set_append_right _ _ hlen.le, hlen, Nat.sub_self]
      simp

/-- The array is `written`, slots that are not read again, and what is left to unpack. -/
theorem foldlM_unpack (state : EvalState V) (list : List V) {rest : List (Symbol × Nat)}
    {prev : Symbol} {attrs : List (Attr V)}
    (h : (heads prev rest).mapM (fun e => state.elemValue list e.1 e.2) = .ok attrs)
    (written : List (Attr V)) (stale : List (Slot V)) :
    ∃ st, (List.range' (written.length + stale.length) rest.length).foldlM (state.unpack list)
        ⟨written.map .attr ++ stale ++ rest.map (fun e => .listElem e.1 e.2), written.length,
          prev⟩ = .ok st ∧
      (st.slots.take st.numAttrs).filterMap Slot.toAttr? = written ++ attrs := by
  induction rest generalizing prev attrs written stale with
  | nil =>
      obtain rfl : [] = attrs := pure_eq_ok.mp h
      refine ⟨_, rfl, ?_⟩
      have hlen : (written.map Slot.attr).length = written.length := List.length_map _
      rw [List.map_nil, List.append_nil, List.append_nil, List.take_left' hlen,
        List.filterMap_map]
      exact List.filterMap_some
  | cons e rest ih =>
      obtain ⟨name, v2⟩ := e
      have hget : (written.map Slot.attr ++ stale ++
          ((name, v2) :: rest).map fun e => Slot.listElem e.1 e.2)[written.length + stale.length]? =
            some (.listElem name v2) := by
        rw [List.getElem?_append_right (by simp)]
        simp
      rw [List.length_cons, List.range'_succ, List.foldlM_cons, EvalState.unpack]
      simp only [hget]
      rw [heads] at h
      split
      next heq =>
        rw [if_pos heq] at h
        have hrun := ih h written (stale ++ [.listElem name v2])
        rw [List.length_append, List.length_singleton, ← Nat.add_assoc] at hrun
        simpa [bind, Except.bind] using hrun
      next hne =>
        rw [if_neg hne, List.mapM_cons] at h
        obtain ⟨a, ha, h⟩ := bind_eq_ok.mp h
        obtain ⟨attrs', hattrs, h⟩ := bind_eq_ok.mp h
        obtain rfl := pure_eq_ok.mp h
        have hrun := ih hattrs (written ++ [a]) (stale ++ [Slot.listElem name v2]).tail
        have hn : (written ++ [a]).length + (stale ++ [Slot.listElem name v2]).tail.length =
            written.length + stale.length + 1 := by
          rw [List.length_append, List.length_tail, List.length_append, List.length_singleton,
            List.length_singleton, Nat.add_sub_cancel]
          omega
        rw [hn, ← set_slots, List.append_assoc written [a]] at hrun
        rw [ha]
        simpa [bind, Except.bind, pure, Except.pure] using hrun

theorem slotBefore_iff {a b : Symbol × Nat} :
    slotBefore a b ↔ a.1 < b.1 ∨ a.1 = b.1 ∧ a.2 < b.2 := by
  rw [slotBefore, not_lt]
  constructor
  · rintro (hlt | ⟨hle, hlt⟩)
    · exact .inl hlt
    · exact (Nat.lt_or_eq_of_le hle).imp_right fun heq => ⟨heq, hlt⟩
  · rintro (hlt | ⟨heq, hlt⟩)
    · exact .inl hlt
    · exact .inr ⟨Nat.le_of_eq heq, hlt⟩

theorem not_slotBefore_iff {a b : Symbol × Nat} : ¬slotBefore b a ↔ toLex a ≤ toLex b := by
  rw [slotBefore_iff, ← Prod.Lex.toLex_lt_toLex, not_lt]

theorem heads_spec {prev : Symbol} {l : List (Symbol × Nat)} (hl : l.Pairwise slotBefore)
    (hprev : ∀ e ∈ l, prev ≤ e.1) :
    (heads prev l).Pairwise (·.1 < ·.1) ∧ (∀ e ∈ heads prev l, prev < e.1) ∧
      ∀ e, e ∈ heads prev l ↔ e ∈ l ∧ e.1 ≠ prev ∧ ∀ e' ∈ l, e'.1 = e.1 → e.2 ≤ e'.2 := by
  induction l generalizing prev with
  | nil => exact ⟨.nil, nofun, fun e => by simp [heads]⟩
  | cons f l ih =>
      obtain ⟨name, v2⟩ := f
      obtain ⟨hfirst, hl⟩ := List.pairwise_cons.mp hl
      obtain ⟨hname, hrest⟩ := List.forall_mem_cons.mp hprev
      have hfirst' : ∀ e ∈ l, name < e.1 ∨ name = e.1 ∧ v2 < e.2 := fun e he =>
        slotBefore_iff.mp (hfirst e he)
      rw [heads]
      split
      next heq =>
        obtain ⟨hsorted, hlt, hmem⟩ := ih hl hrest
        refine ⟨hsorted, hlt, fun e => ?_⟩
        rw [hmem, List.mem_cons, List.forall_mem_cons]
        constructor
        · rintro ⟨he, hne, hmin⟩
          exact ⟨.inr he, hne, fun h => absurd (h.symm.trans heq.symm) hne, hmin⟩
        · rintro ⟨rfl | he, hne, -, hmin⟩
          · exact absurd heq.symm hne
          · exact ⟨he, hne, hmin⟩
      next hne =>
        have hgt : prev < name := Nat.lt_of_le_of_ne hname hne
        have hge : ∀ e ∈ l, name ≤ e.1 := fun e he =>
          (hfirst' e he).elim Nat.le_of_lt fun h => Nat.le_of_eq h.1
        obtain ⟨hsorted, hlt, hmem⟩ := ih hl hge
        refine ⟨List.pairwise_cons.mpr ⟨hlt, hsorted⟩, ?_, fun e => ?_⟩
        · exact List.forall_mem_cons.mpr ⟨hgt, fun e he => hgt.trans (hlt e he)⟩
        · rw [List.mem_cons, hmem, List.mem_cons, List.forall_mem_cons]
          constructor
          · rintro (rfl | ⟨he, hne', hmin⟩)
            · refine ⟨.inl rfl, hgt.ne', fun _ => Nat.le_refl _, fun e' he' heq => ?_⟩
              rcases hfirst' e' he' with hlt' | ⟨-, hlt'⟩
              · exact absurd heq hlt'.ne'
              · exact Nat.le_of_lt hlt'
            · exact ⟨.inr he, (hgt.trans_le (hge e he)).ne', fun h => absurd h.symm hne', hmin⟩
          · rintro ⟨rfl | he, -, hmin, hmin'⟩
            · exact .inl rfl
            · refine .inr ⟨he, fun heq => ?_, hmin'⟩
              have hle : e.2 ≤ v2 := hmin heq.symm
              rcases hfirst' e he with hlt' | ⟨-, hlt'⟩
              · exact absurd heq hlt'.ne'
              · omega

/-- An element of the list has a name, and a set. -/
structure IsElem (state : EvalState V) (v2 : V) (name : Bytes) (attrs : Bindings V) : Prop where
  forceAttrs : state.forceAttrs v2 = .ok attrs
  name : ∃ j, attrs.get (state.create (str "name")) = some j ∧
    state.forceStringNoCtx j.value = .ok name

def firstElem (state : EvalState V) (elems : List (Bytes × Bindings V)) (name : Symbol) :
    Option (Bindings V) :=
  (elems.find? fun e => state.create e.1 = name).map Prod.snd

def firstValue (state : EvalState V) (elems : List (Bytes × Bindings V)) (name : Symbol) :
    Option (Attr V) := do
  let attrs ← firstElem state elems name
  let j ← attrs.get (state.create (str "value"))
  return ⟨name, j.pos, j.value⟩

def entries (state : EvalState V) (elems : List (Bytes × Bindings V)) : List (Symbol × Nat) :=
  elems.zipIdx.map fun e => (state.create e.1.1, e.2)

theorem mem_entries {state : EvalState V} {elems : List (Bytes × Bindings V)} {e : Symbol × Nat} :
    e ∈ entries state elems ↔ ∃ elem, elems[e.2]? = some elem ∧ state.create elem.1 = e.1 := by
  rw [entries, List.mem_map]
  constructor
  · rintro ⟨⟨elem, n⟩, hin, rfl⟩
    exact ⟨elem, List.mem_zipIdx_iff_getElem?.mp hin, rfl⟩
  · rintro ⟨elem, hget, hname⟩
    exact ⟨(elem, e.2), List.mem_zipIdx_iff_getElem?.mpr hget, Prod.ext hname rfl⟩

theorem mapM_elemName {state : EvalState V} {list : List V} {elems : List (Bytes × Bindings V)}
    (h : List.Forall₂ (fun v2 e => IsElem state v2 e.1 e.2) list elems) (k : Nat) :
    (list.zipIdx k).mapM (fun e => state.elemName e.1 e.2) =
      .ok ((elems.zipIdx k).map fun e => (state.create e.1.1, e.2)) := by
  induction h generalizing k with
  | nil => rfl
  | @cons v2 e list elems he _ ih =>
      obtain ⟨j, hj, hname⟩ := he.name
      have helem : state.elemName v2 k = .ok (state.create e.1, k) := by
        rw [EvalState.elemName, he.forceAttrs]
        simp only [bind, Except.bind, EvalState.getAttr, hj, hname]
        rfl
      rw [List.zipIdx_cons, List.mapM_cons, ih]
      simp only [helem]
      rfl

theorem pairwise_entries (state : EvalState V) (elems : List (Bytes × Bindings V)) :
    ((entries state elems).insertionSort fun a b => ¬slotBefore b a).Pairwise slotBefore := by
  have htotal : Std.Total fun a b : Symbol × Nat => ¬slotBefore b a :=
    ⟨fun a b => by simpa only [not_slotBefore_iff] using le_total (toLex a) (toLex b)⟩
  have htrans : IsTrans (Symbol × Nat) fun a b => ¬slotBefore b a :=
    ⟨fun a b c => by simpa only [not_slotBefore_iff] using le_trans⟩
  have hsorted := List.pairwise_insertionSort (fun a b => ¬slotBefore b a) (entries state elems)
  have hnodup : ((entries state elems).insertionSort fun a b => ¬slotBefore b a).Nodup := by
    rw [(List.perm_insertionSort _ _).nodup_iff]
    refine List.Nodup.of_map Prod.snd ?_
    rw [entries, List.map_map]
    have hsnd : (Prod.snd ∘ fun e : (Bytes × Bindings V) × Nat => (state.create e.1.1, e.2)) =
        Prod.snd := rfl
    rw [hsnd, List.zipIdx_map_snd]
    exact List.nodup_range'
  refine (hsorted.and hnodup).imp fun {a b} h => ?_
  rw [slotBefore_iff, ← Prod.Lex.toLex_lt_toLex]
  exact lt_of_le_of_ne (not_slotBefore_iff.mp h.1) fun heq => h.2 (toLex.injective heq)

theorem firstElem_eq_some {state : EvalState V} {elems : List (Bytes × Bindings V)} {name : Symbol}
    {attrs : Bindings V} :
    firstElem state elems name = some attrs ↔
      ∃ v2, (name, v2) ∈ entries state elems ∧ (∃ s, elems[v2]? = some (s, attrs)) ∧
        ∀ e ∈ entries state elems, e.1 = name → v2 ≤ e.2 := by
  rw [firstElem, Option.map_eq_some_iff]
  constructor
  · rintro ⟨⟨s, attrs'⟩, hfind, rfl⟩
    obtain ⟨hname, v2, hlt, hget, hbefore⟩ := List.find?_eq_some_iff_getElem.mp hfind
    have hget' : elems[v2]? = some (s, attrs') := hget ▸ List.getElem?_eq_getElem hlt
    refine ⟨v2, mem_entries.mpr ⟨_, hget', of_decide_eq_true hname⟩, ⟨s, hget'⟩, fun e he heq => ?_⟩
    obtain ⟨elem, hget, hcreate⟩ := mem_entries.mp he
    by_contra hlt'
    obtain ⟨hlen, rfl⟩ := List.getElem?_eq_some_iff.mp hget
    have hnot := hbefore e.2 (Nat.not_le.mp hlt')
    simp [hcreate, heq] at hnot
  · rintro ⟨v2, hin, ⟨s, hget⟩, hmin⟩
    obtain ⟨elem, hget', hcreate⟩ := mem_entries.mp hin
    obtain rfl := Option.some.inj (hget.symm.trans hget')
    obtain ⟨hlt, hget⟩ := List.getElem?_eq_some_iff.mp hget
    refine ⟨(s, attrs), List.find?_eq_some_iff_getElem.mpr ⟨decide_eq_true hcreate, v2, hlt, hget,
      fun i hi => ?_⟩, rfl⟩
    by_contra hnot
    have hlti : i < elems.length := hi.trans hlt
    have hmem : (state.create elems[i].1, i) ∈ entries state elems :=
      mem_entries.mpr ⟨_, List.getElem?_eq_getElem hlti, rfl⟩
    have hle := hmin _ hmem (by simpa using hnot)
    omega

theorem elemValue_eq {state : EvalState V} {list : List V} {elems : List (Bytes × Bindings V)}
    (h : List.Forall₂ (fun v2 e => IsElem state v2 e.1 e.2) list elems) {v2 : Nat} {s : Bytes}
    {attrs : Bindings V} (hget : elems[v2]? = some (s, attrs)) (name : Symbol) :
    state.elemValue list name v2 = do
      let j ← state.getAttr (str "value") attrs
      return ⟨name, j.pos, j.value⟩ := by
  obtain ⟨hlt, hget⟩ := List.getElem?_eq_some_iff.mp hget
  have hlt' : v2 < list.length := h.length_eq ▸ hlt
  have helem := (List.forall₂_iff_get.mp h).2 v2 hlt' hlt
  rw [List.get_eq_getElem, List.get_eq_getElem, hget] at helem
  rw [EvalState.elemValue, List.getElem?_eq_getElem hlt']
  simp only [helem.forceAttrs, bind, Except.bind]

theorem name_of_elemValue {state : EvalState V} {list : List V} {name : Symbol} {v2 : Nat}
    {a : Attr V} (h : state.elemValue list name v2 = .ok a) : a.name = name := by
  unfold EvalState.elemValue at h
  split at h
  · obtain ⟨_, -, h⟩ := bind_eq_ok.mp h
    obtain ⟨_, -, h⟩ := bind_eq_ok.mp h
    obtain rfl := pure_eq_ok.mp h
    rfl
  · cases h

theorem sorted_of_mapM {state : EvalState V} {list : List V} {es : List (Symbol × Nat)}
    (hes : es.Pairwise (·.1 < ·.1)) {attrs : List (Attr V)}
    (h : es.mapM (fun e => state.elemValue list e.1 e.2) = .ok attrs) : Sorted attrs := by
  have hnames : attrs.map Attr.name = es.map Prod.fst := by
    have hall := mapM_eq_ok.mp h
    clear h hes
    induction hall with
    | nil => rfl
    | cons ha _ ih => rw [List.map_cons, List.map_cons, ih, name_of_elemValue ha]
  rw [← List.pairwise_map (f := Prod.fst) (R := (· < ·)), ← hnames] at hes
  exact List.pairwise_map.mp hes

theorem listToAttrs_spec {state : EvalState V} {list : List V} {elems : List (Bytes × Bindings V)}
    (h : List.Forall₂ (fun v2 e => IsElem state v2 e.1 e.2) list elems)
    (hvalue : ∀ name attrs, firstElem state elems name = some attrs →
      (attrs.get (state.create (str "value"))).isSome) :
    ∃ b, listToAttrs state list = .ok b ∧ IsMap b (firstValue state elems) := by
  obtain ⟨sorted, hsort⟩ : ∃ sorted, sorted =
      (entries state elems).insertionSort fun a b => ¬slotBefore b a := ⟨_, rfl⟩
  have hperm : sorted.Perm (entries state elems) := hsort ▸ List.perm_insertionSort _ _
  have hpairwise : sorted.Pairwise slotBefore := hsort ▸ pairwise_entries state elems
  obtain ⟨hgrow, -, hheads⟩ := heads_spec hpairwise fun e _ => Nat.zero_le e.1
  have hfirst : ∀ name v2, (name, v2) ∈ heads 0 sorted ↔
      (name, v2) ∈ entries state elems ∧ ∀ e ∈ entries state elems, e.1 = name → v2 ≤ e.2 := by
    intro name v2
    simp only [hheads, hperm.mem_iff]
    refine ⟨fun ⟨hin, _, hmin⟩ => ⟨hin, hmin⟩, fun ⟨hin, hmin⟩ => ⟨hin, ?_, hmin⟩⟩
    obtain ⟨elem, -, hcreate⟩ := mem_entries.mp hin
    exact fun hzero => state.create_ne_zero elem.1 (hcreate.trans hzero)
  have hresult : ∀ e ∈ heads 0 sorted, ∃ a, state.elemValue list e.1 e.2 = .ok a ∧
      firstValue state elems e.1 = some a ∧ a.name = e.1 := by
    rintro ⟨name, v2⟩ he
    obtain ⟨hin, hmin⟩ := (hfirst name v2).mp he
    obtain ⟨⟨s, attrs⟩, hget, -⟩ := mem_entries.mp hin
    have hfirstElem : firstElem state elems name = some attrs :=
      firstElem_eq_some.mpr ⟨v2, hin, ⟨s, hget⟩, hmin⟩
    obtain ⟨j, hj⟩ := Option.isSome_iff_exists.mp (hvalue name attrs hfirstElem)
    refine ⟨⟨name, j.pos, j.value⟩, ?_, ?_, rfl⟩
    · rw [elemValue_eq h hget, EvalState.getAttr, hj]
      rfl
    · rw [firstValue, hfirstElem]
      simp [hj]
  obtain ⟨attrs, hattrs⟩ := exists_mapM fun e he =>
    (hresult e he).imp fun _ => And.left
  have hmem : ∀ name a, a ∈ attrs ∧ a.name = name ↔ firstValue state elems name = some a := by
    intro name a
    rw [mem_of_mapM hattrs]
    constructor
    · rintro ⟨⟨e, he, ha⟩, rfl⟩
      obtain ⟨a', ha', hvalue', hname⟩ := hresult e he
      cases ha.symm.trans ha'
      rw [hname]
      exact hvalue'
    · intro ha
      obtain ⟨attrs', hfirstElem, -⟩ := Option.bind_eq_some_iff.mp ha
      obtain ⟨v2, hin, -, hmin⟩ := firstElem_eq_some.mp hfirstElem
      have he := (hfirst name v2).mpr ⟨hin, hmin⟩
      obtain ⟨a', ha', hvalue', hname⟩ := hresult _ he
      cases ha.symm.trans hvalue'
      exact ⟨⟨_, he, ha'⟩, hname⟩
  have hsorted : Sorted attrs := sorted_of_mapM hgrow hattrs
  obtain ⟨st, hrun, htake⟩ := foldlM_unpack state list hattrs [] []
  have hlen : sorted.length = list.length := by
    rw [hperm.length_eq, entries, List.length_map, List.length_zipIdx, h.length_eq]
  have hlist : listToAttrs state list = .ok (.mk attrs attrs.length 1 none) := by
    simp only [List.map_nil, List.nil_append, List.length_nil, Nat.add_zero,
      ← List.range_eq_range', hlen] at hrun
    have helems : (list.zipIdx.mapM fun e => state.elemName e.1 e.2) =
        .ok (entries state elems) := mapM_elemName h 0
    rw [listToAttrs, helems]
    simp only [bind, Except.bind, ← hsort, hrun, htake, List.nil_append]
    rfl
  obtain ⟨hok, hlist', hget⟩ := BindingsBuilder.ok_alreadySorted hsorted attrs.length
  exact ⟨_, hlist, hok, rfl, hsorted, hlist', fun name =>
    (hget name).trans (getInChunk_eq hsorted hmem name)⟩

/-! ### Counting and placing -/

def valuesOf (l : List (Attr V)) (name : Symbol) : List V :=
  (l.filter (·.name = name)).map Attr.value

theorem valuesOf_append (l l' : List (Attr V)) (name : Symbol) :
    valuesOf (l ++ l') name = valuesOf l name ++ valuesOf l' name := by
  rw [valuesOf, List.filter_append, List.map_append, ← valuesOf, ← valuesOf]

theorem valuesOf_cons_self (a : Attr V) (l : List (Attr V)) :
    valuesOf (a :: l) a.name = a.value :: valuesOf l a.name := by
  rw [valuesOf, List.filter_cons_of_pos (by simp), List.map_cons, ← valuesOf]

theorem valuesOf_cons_of_ne {a : Attr V} {name : Symbol} (h : a.name ≠ name)
    (l : List (Attr V)) : valuesOf (a :: l) name = valuesOf l name := by
  rw [valuesOf, List.filter_cons_of_neg (by simpa using h), ← valuesOf]

theorem valuesOf_toList {b : Bindings V} (h : b.Ok) (name : Symbol) :
    valuesOf b.toList name = ((b.get name).map Attr.value).toList := by
  obtain ⟨hsorted, -⟩ := Bindings.toList_spec_of_ok h
  have hnodup : (b.toList.filter (·.name = name)).Nodup :=
    (hsorted.imp fun hlt heq => Nat.ne_of_lt hlt (congrArg Attr.name heq)).filter _
  have hmem : ∀ a, a ∈ b.toList.filter (·.name = name) ↔ b.get name = some a := by
    intro a
    rw [List.mem_filter, decide_eq_true_iff]
    exact Bindings.mem_toList_and_name h
  rw [valuesOf]
  cases hget : b.get name with
  | none =>
      have hnil : b.toList.filter (·.name = name) = [] :=
        List.eq_nil_iff_forall_not_mem.mpr fun a ha => by
          rw [hmem, hget] at ha
          cases ha
      rw [hnil]
      rfl
  | some a =>
      have hperm : (b.toList.filter (·.name = name)).Perm [a] := by
        rw [List.perm_ext_iff_of_nodup hnodup (List.nodup_singleton a)]
        intro a'
        rw [hmem, hget, List.mem_singleton, Option.some.injEq]
        exact eq_comm
      rw [List.perm_singleton.mp hperm]
      rfl

theorem find?_foldl_countAttr (l : List (Attr V)) (m : AttrsSeen V) (name : Symbol) :
    (l.foldl countAttr m).find? name =
      if valuesOf l name = [] then m.find? name
      else some { (m.find? name).getD {} with
        size := ((m.find? name).getD {}).size + (valuesOf l name).length } := by
  induction l generalizing m with
  | nil => exact (if_pos rfl).symm
  | cons a l ih =>
      rw [List.foldl_cons, ih, countAttr]
      by_cases hname : a.name = name
      · subst hname
        rw [SortedMap.find?_assign_self, valuesOf_cons_self, if_neg (List.cons_ne_nil _ _)]
        split
        next hnil => simp [hnil]
        next =>
          simp only [Option.getD_some, List.length_cons]
          congr 2
          omega
      · rw [SortedMap.find?_assign_of_ne hname, valuesOf_cons_of_ne hname]

/-- The values of `done` are in the lists, those of `rest` are not yet. -/
def Placed (m : AttrsSeen V) (done rest : List (Attr V)) : Prop :=
  ∀ name, m.find? name =
    if valuesOf done name ++ valuesOf rest name = [] then none
    else some ⟨(valuesOf done name).length + (valuesOf rest name).length,
      (valuesOf done name).length,
      (valuesOf done name).map some ++ List.replicate (valuesOf rest name).length none⟩

theorem placed_mapValues (l : List (Attr V)) :
    Placed ((l.foldl countAttr .empty).mapValues fun item =>
      { item with list := List.replicate item.size none }) [] l := by
  intro name
  have hnil : valuesOf ([] : List (Attr V)) name = [] := rfl
  rw [SortedMap.find?_mapValues, find?_foldl_countAttr, hnil, List.nil_append]
  split
  · rfl
  · simp

theorem placed_placeAttr {m : AttrsSeen V} {done rest : List (Attr V)} {a : Attr V}
    (h : Placed m done (a :: rest)) :
    ∃ m', placeAttr m a = .ok m' ∧ Placed m' (done ++ [a]) rest := by
  have hfind := h a.name
  rw [valuesOf_cons_self, if_neg (by simp)] at hfind
  rw [placeAttr, hfind]
  refine ⟨_, rfl, fun name => ?_⟩
  by_cases hname : a.name = name
  · subst hname
    have hdone : valuesOf (done ++ [a]) a.name = valuesOf done a.name ++ [a.value] := by
      rw [valuesOf_append, valuesOf_cons_self]
      rfl
    have hlen : ((valuesOf done a.name).map some).length = (valuesOf done a.name).length :=
      List.length_map _
    rw [SortedMap.find?_assign_self, hdone, if_neg (by simp)]
    simp only [List.length_cons, List.length_nil, List.length_append, List.map_append,
      List.replicate_succ, List.map_singleton]
    rw [List.set_append_right _ _ hlen.le, hlen, Nat.sub_self, List.set_cons_zero,
      List.append_assoc, List.singleton_append]
    congr 2
    omega
  · rw [SortedMap.find?_assign_of_ne hname, h name, valuesOf_cons_of_ne hname,
      valuesOf_append, valuesOf_cons_of_ne hname]
    have hnil : valuesOf ([] : List (Attr V)) name = [] := rfl
    rw [hnil, List.append_nil]

theorem placed_foldlM {l : List (Attr V)} {m : AttrsSeen V} {done rest : List (Attr V)}
    (h : Placed m done (l ++ rest)) :
    ∃ m', l.foldlM placeAttr m = .ok m' ∧ Placed m' (done ++ l) rest := by
  induction l generalizing m done with
  | nil => exact ⟨m, rfl, by rwa [List.append_nil]⟩
  | cons a l ih =>
      obtain ⟨m₁, hplace, h₁⟩ := placed_placeAttr h
      obtain ⟨m', hrun, h'⟩ := ih h₁
      refine ⟨m', ?_, by rwa [List.append_assoc] at h'⟩
      rw [List.foldlM_cons, hplace]
      exact hrun

theorem foldlM_sets {sets : List (Bindings V)} {m : AttrsSeen V} {done : List (Attr V)}
    (h : Placed m done (sets.flatMap Bindings.toList)) :
    ∃ m', sets.foldlM (fun m set => set.toList.foldlM placeAttr m) m = .ok m' ∧
      Placed m' (done ++ sets.flatMap Bindings.toList) [] := by
  induction sets generalizing m done with
  | nil => exact ⟨m, rfl, by rwa [List.flatMap_nil, List.append_nil]⟩
  | cons set sets ih =>
      rw [List.flatMap_cons] at h ⊢
      obtain ⟨m₁, hset, h₁⟩ := placed_foldlM h
      obtain ⟨m', hrun, h'⟩ := ih h₁
      refine ⟨m', ?_, by rwa [List.append_assoc] at h'⟩
      rw [List.foldlM_cons, hset]
      exact hrun

/-- The function, applied to each name that some set has, and its values in the order of the
list. -/
def zipped (state : EvalState V) (f : V) (sets : List (Bindings V)) (name : Symbol) :
    Option (Attr V) :=
  let values := sets.filterMap fun set => (set.get name).map Attr.value
  if values = [] then none
  else some ⟨name, 0, state.mkApp (state.mkApp f (state.mkString name))
    (state.mkList (values.map some))⟩

theorem valuesOf_sets {sets : List (Bindings V)} (h : ∀ set ∈ sets, set.Ok) (name : Symbol) :
    valuesOf (sets.flatMap Bindings.toList) name =
      sets.filterMap fun set => (set.get name).map Attr.value := by
  induction sets with
  | nil => rfl
  | cons set sets ih =>
      obtain ⟨hset, hsets⟩ := List.forall_mem_cons.mp h
      rw [List.flatMap_cons, valuesOf_append, ih hsets, valuesOf_toList hset, List.filterMap_cons]
      cases set.get name <;> rfl

theorem zipAttrsWith_spec (state : EvalState V) (f : V) {list : List V}
    {sets : List (Bindings V)} (hsets : list.mapM state.forceAttrs = .ok sets) :
    ∃ b, zipAttrsWith state f list = .ok b ∧ IsMap b (zipped state f sets) := by
  have hok : ∀ set ∈ sets, set.Ok := by
    intro set hset
    obtain ⟨v, -, hv⟩ := (mem_of_mapM hsets).mp hset
    exact state.ok_of_forceAttrs hv
  obtain ⟨m, hrun, hplaced⟩ := foldlM_sets (placed_mapValues (sets.flatMap Bindings.toList))
  obtain ⟨attrs, hattrs⟩ : ∃ attrs, attrs = m.elems.map fun e : Symbol × Item V =>
      (⟨e.1, 0, state.mkApp (state.mkApp f (state.mkString e.1)) (state.mkList e.2.list)⟩ :
        Attr V) := ⟨_, rfl⟩
  have hsorted : Sorted attrs := by
    rw [hattrs, Sorted, List.pairwise_map]
    exact m.sorted.imp fun hlt => Nat.compare_eq_lt.mp hlt
  have hlen : attrs.length ≤ m.elems.length := by rw [hattrs, List.length_map]
  obtain ⟨b, hb, hmap⟩ := buildBindings_spec hsorted hlen
  refine ⟨b, ?_, hmap.congr (getInChunk_eq hsorted fun name a => ?_)⟩
  · rw [zipAttrsWith, hsets]
    simp only [bind, Except.bind, ← List.foldl_flatMap, hrun]
    rw [hattrs] at hb
    exact hb
  · have hfind := hplaced name
    rw [List.nil_append, valuesOf_sets hok] at hfind
    have hnil : valuesOf ([] : List (Attr V)) name = [] := rfl
    rw [hnil, List.append_nil] at hfind
    rw [hattrs, List.mem_map, zipped]
    constructor
    · rintro ⟨⟨⟨name', item⟩, hin, rfl⟩, rfl⟩
      rw [SortedMap.find?_eq_some.mpr hin] at hfind
      dsimp only at hfind ⊢
      split at hfind
      next => cases hfind
      next hne =>
        cases hfind
        simp only [if_neg hne, List.length_nil, List.replicate_zero, List.append_nil]
    · intro ha
      split at ha
      next => cases ha
      next hne =>
        cases ha
        rw [if_neg hne] at hfind
        refine ⟨⟨_, SortedMap.find?_eq_some.mp hfind, ?_⟩, rfl⟩
        simp

/-! ### The specification -/

/-- The builtins give the finite maps they stand for. -/
structure MeetsMaps (state : EvalState V) : Prop where
  removeAttrs : ∀ (attrs : Bindings V) (list : List V) (names : List Bytes), attrs.Ok →
    list.mapM state.forceStringNoCtx = .ok names →
      ∃ b, removeAttrs state attrs list = .ok b ∧
        IsMap b (without attrs (names.map state.create))
  intersectAttrs : ∀ left right : Bindings V, left.Ok → right.Ok →
    ∃ b, intersectAttrs left right = .ok b ∧ IsMap b (inBoth left right)
  listToAttrs : ∀ (list : List V) (elems : List (Bytes × Bindings V)),
    List.Forall₂ (fun v2 e => IsElem state v2 e.1 e.2) list elems →
      (∀ name attrs, firstElem state elems name = some attrs →
        (attrs.get (state.create (str "value"))).isSome) →
        ∃ b, listToAttrs state list = .ok b ∧ IsMap b (firstValue state elems)
  zipAttrsWith : ∀ (f : V) (list : List V) (sets : List (Bindings V)),
    list.mapM state.forceAttrs = .ok sets →
      ∃ b, zipAttrsWith state f list = .ok b ∧ IsMap b (zipped state f sets)

end Nix.Eval.LayeredBindings
