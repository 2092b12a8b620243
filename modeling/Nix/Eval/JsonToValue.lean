import Nix.Eval.ReplaceStrings
import Nix.Lib.Results
import Nix.Lib.SortedMaps
import Nix.Util.JsonValues

/-!
How a value is built from the events of a JSON text, in cells that are
allocated when they are first written.
-/

set_option linter.dupNamespace false

namespace Nix.Eval.JsonToValue

open Util.Types
open Util.JsonValues (StringSet)
open Lib.SortedList
open Eval.ReplaceStrings (NixStringContext)

/-- A value that is forced throughout. A floating point number is given by its bits, and a
function by what `showType` says of it. -/
inductive Value
  | null
  | bool (b : Bool)
  | int (n : Int64)
  | float (bits : UInt64)
  | string (s : Bytes) (context : NixStringContext)
  | path (path : Bytes)
  | list (size : Nat) (elem : Fin size → Value)
  | attrs (names : StringSet) (value : Fin names.elems.length → Value)
  | function (shown : Bytes)

/-- The attributes of a set, by the names that their symbols stand for. -/
abbrev Attrs (ν : Type) := SortedMap (compare : Bytes → Bytes → Ordering) ν

namespace Value

def ofElements (l : List Value) : Value :=
  .list l.length l.get

def ofMembers (m : Attrs Value) : Value :=
  .attrs ⟨m.elems.map Prod.fst, strictlySorted_byKey.mp m.sorted⟩
    fun i => (m.elems.get (i.cast (List.length_map _))).2

/-- `Bindings::get`. -/
def attr? (name : Bytes) : Value → Option Value
  | attrs names value => (names.elems.finIdxOf? name).map value
  | _ => none

end Value

/-- A `Value` in memory, whose parts are given by their addresses. -/
inductive Cell
  | uninitialized
  | null
  | bool (b : Bool)
  | int (n : Int64)
  | float (bits : UInt64)
  | string (s : Bytes)
  | list (elems : List Nat)
  | attrs (attrs : Attrs Nat)

abbrev Heap := List Cell

/-- The value at an address. -/
inductive Denotes (heap : Heap) : Nat → Value → Prop
  | null {a : Nat} : heap[a]? = some .null → Denotes heap a .null
  | bool {a : Nat} {b : Bool} : heap[a]? = some (.bool b) → Denotes heap a (.bool b)
  | int {a : Nat} {n : Int64} : heap[a]? = some (.int n) → Denotes heap a (.int n)
  | float {a : Nat} {bits : UInt64} :
      heap[a]? = some (.float bits) → Denotes heap a (.float bits)
  | string {a : Nat} {s : Bytes} : heap[a]? = some (.string s) → Denotes heap a (.string s ∅)
  | list {a : Nat} (l : List (Nat × Value)) :
      heap[a]? = some (.list (l.map Prod.fst)) → (∀ e ∈ l, Denotes heap e.1 e.2) →
        Denotes heap a (.ofElements (l.map Prod.snd))
  | attrs {a : Nat} (m : Attrs (Nat × Value)) :
      heap[a]? = some (.attrs (m.mapValues Prod.fst)) →
        (∀ e ∈ m.elems, Denotes heap e.2.1 e.2.2) →
        Denotes heap a (.ofMembers (m.mapValues Prod.snd))

inductive FailureKind
  | error
  | typeError
  | stackOverflowError
  | logicError
  /-- A null pointer is used. -/
  | nullPointer
  deriving DecidableEq

structure Failure where
  kind : FailureKind
  msg : HintFmt
  traces : List HintFmt := []
  deriving DecidableEq

def Failure.addTrace (format : String) (args : List Bytes) (e : Failure) : Failure :=
  { e with traces := ⟨format, args⟩ :: e.traces }

inductive JSONState
  | toplevel (v : Option Nat)
  | object (parent : JSONState) (v : Option Nat) (attrs : Attrs Nat)
  | list (parent : JSONState) (v : Option Nat) (values : List Nat)

namespace JSONState

def v : JSONState → Option Nat
  | toplevel v => v
  | object _ v _ => v
  | list _ v _ => v

def withV (v : Option Nat) : JSONState → JSONState
  | toplevel _ => toplevel v
  | object parent _ attrs => object parent v attrs
  | list parent _ values => list parent v values

/-- The address of the current value, which is allocated when there is none. -/
def value (rs : JSONState) (heap : Heap) : Nat × JSONState × Heap :=
  match rs.v with
  | some a => (a, rs, heap)
  | none => (heap.length, rs.withV (some heap.length), heap ++ [.uninitialized])

def add : JSONState → Except Failure JSONState
  | toplevel v => .ok (toplevel v)
  | object parent _ attrs => .ok (object parent none attrs)
  | list parent (some a) values => .ok (list parent none (values ++ [a]))
  | list _ none _ => .error ⟨.nullPointer, ⟨"*v", []⟩, []⟩

end JSONState

structure JSONSax where
  heap : Heap
  rs : JSONState

def forceNoNullByte (s : Bytes) : Except Failure Unit :=
  if 0 ∈ s then
    .error ⟨.error,
      ⟨"input string '%s' cannot be represented as Nix string because it contains null bytes", [s]⟩,
      []⟩
  else .ok ()

inductive Event
  | null
  | boolean (val : Bool)
  | numberInteger (val : Int64)
  | numberUnsigned (val : UInt64)
  | numberFloat (val : UInt64)
  | string (val : Bytes)
  | startObject
  | key (name : Bytes)
  | endObject
  | startArray
  | endArray

namespace JSONSax

/-- `rs->value(state)` is made a value. -/
def make (cell : Cell) (sax : JSONSax) : JSONSax :=
  match sax.rs.value sax.heap with
  | (a, rs, heap) => ⟨heap.set a cell, rs⟩

def add (sax : JSONSax) : Except Failure JSONSax :=
  sax.rs.add.map fun rs => { sax with rs }

def resolve (sax : JSONSax) : Except Failure JSONSax :=
  match sax.rs with
  | .toplevel _ => .error ⟨.logicError, ⟨"tried to close toplevel json parser state", []⟩, []⟩
  | .object parent _ attrs => .ok (make (.attrs attrs) ⟨sax.heap, parent⟩)
  | .list parent _ values => .ok (make (.list values) ⟨sax.heap, parent⟩)

def endObject (sax : JSONSax) : Except Failure JSONSax := do
  let sax ← sax.resolve
  sax.add

def numberUnsigned (val : UInt64) (sax : JSONSax) : Except Failure JSONSax :=
  if val.toNat > Int64.maxValue.toInt then
    .error ⟨.error, ⟨"unsigned json number %1% outside of Nix integer range",
      [decimal val.toNat]⟩, []⟩
  else (sax.make (.int (.ofNat val.toNat))).add

def key (name : Bytes) (sax : JSONSax) : Except Failure JSONSax :=
  match sax.rs with
  | .object parent v attrs => do
      forceNoNullByte name
      match (JSONState.object parent v attrs).value sax.heap with
      | (a, rs, heap) => return ⟨heap, .object parent rs.v (attrs.assign name a)⟩
  | _ => .error ⟨.nullPointer, ⟨"dynamic_cast<JSONObjectState *>(rs.get())", []⟩, []⟩

def event (sax : JSONSax) : Event → Except Failure JSONSax
  | .null => (sax.make .null).add
  | .boolean val => (sax.make (.bool val)).add
  | .numberInteger val => (sax.make (.int val)).add
  | .numberUnsigned val => sax.numberUnsigned val
  | .numberFloat val => (sax.make (.float val)).add
  | .string val => do
      forceNoNullByte val
      (sax.make (.string val)).add
  | .startObject => .ok { sax with rs := .object sax.rs none .empty }
  | .key name => sax.key name
  | .endObject => sax.endObject
  | .startArray => .ok { sax with rs := .list sax.rs none [] }
  | .endArray => sax.endObject

def run (sax : JSONSax) (events : List Event) : Except Failure JSONSax :=
  events.foldlM event sax

end JSONSax

/-- The memory after the text is parsed. The value is at the address 0. -/
def parseJSON (events : List Event) : Except Failure Heap :=
  (JSONSax.run ⟨[.uninitialized], .toplevel (some 0)⟩ events).map JSONSax.heap

open Lib.Results

/-- What a JSON text says. The members of an object stand in the order of the text. -/
inductive Doc
  | null
  | boolean (b : Bool)
  | numberInteger (n : Int64)
  | numberUnsigned (n : UInt64)
  | numberFloat (bits : UInt64)
  | string (s : Bytes)
  | array (size : Nat) (elem : Fin size → Doc)
  | object (size : Nat) (name : Fin size → Bytes) (member : Fin size → Doc)

namespace Doc

def events : Doc → List Event
  | null => [.null]
  | boolean b => [.boolean b]
  | numberInteger n => [.numberInteger n]
  | numberUnsigned n => [.numberUnsigned n]
  | numberFloat bits => [.numberFloat bits]
  | string s => [.string s]
  | array _ elem =>
      .startArray :: ((List.ofFn fun i => (elem i).events).flatten ++ [.endArray])
  | object _ name member =>
      .startObject ::
        ((List.ofFn fun i => .key (name i) :: (member i).events).flatten ++ [.endObject])

example : events (.array 1 fun _ => .null) = [.startArray, .null, .endArray] := by
  rw [events, events]
  rfl

/-- Of the members of one name, the last one counts. -/
def value : Doc → Value
  | null => .null
  | boolean b => .bool b
  | numberInteger n => .int n
  | numberUnsigned n => .int (.ofNat n.toNat)
  | numberFloat bits => .float bits
  | string s => .string s ∅
  | array size elem => .list size fun i => (elem i).value
  | object _ name member => .ofMembers (.ofList (List.ofFn fun i => (name i, (member i).value)))

/-- The evaluator has all the numbers and strings of the document. -/
def Accepted : Doc → Prop
  | numberUnsigned n => n.toNat < 2 ^ 63
  | string s => 0 ∉ s
  | array _ elem => ∀ i, (elem i).Accepted
  | object _ name member => ∀ i, 0 ∉ name i ∧ (member i).Accepted
  | _ => True

end Doc

theorem Value.ofElements_ofFn {n : Nat} (f : Fin n → Value) :
    Value.ofElements (List.ofFn f) = .list n f := by
  have hcongr : ∀ {m : Nat} (h : m = n) (g : Fin m → Value),
      (∀ i, g i = f (i.cast h)) → Value.list m g = .list n f := by
    rintro m rfl g heq
    rw [funext heq]
    rfl
  exact hcongr List.length_ofFn _ fun i => List.get_ofFn f i

/-- The cells from `n` on give an address a value. -/
def Holds (n : Nat) (heap : Heap) (a : Nat) (v : Value) : Prop :=
  ∀ heap' : Heap, (∀ b, n ≤ b → b < heap.length → heap'[b]? = heap[b]?) → Denotes heap' a v

variable {n m a : Nat} {heap heap' : Heap} {v : Value} {sax : JSONSax} {d : Doc}

theorem Holds.denotes (h : Holds n heap a v) : Denotes heap a v :=
  h heap fun _ _ _ => rfl

theorem Holds.mono (h : Holds n heap a v) (hle : m ≤ n) : Holds m heap a v :=
  fun heap' heq => h heap' fun b hb => heq b (hle.trans hb)

theorem getElem?_of_isPrefix (h : heap <+: heap') {b : Nat} (hb : b < heap.length) :
    heap'[b]? = heap[b]? := by
  rw [List.prefix_iff_getElem?.mp h b hb, List.getElem?_eq_getElem hb]

theorem isPrefix_of_getElem? (h : ∀ b < heap.length, heap'[b]? = heap[b]?) : heap <+: heap' :=
  List.prefix_iff_getElem?.mpr fun b hb => (h b hb).trans (List.getElem?_eq_getElem hb)

theorem Holds.extend (h : Holds n heap a v) (hextends : heap <+: heap') : Holds n heap' a v := by
  intro heap'' heq
  refine h heap'' fun b hn hb => ?_
  rw [heq b hn (hb.trans_le hextends.length_le), getElem?_of_isPrefix hextends hb]

/-- The current value is one cell, that is in memory or is allocated later. -/
structure Fills (sax : JSONSax) (a : Nat) (heap : Heap) : Prop where
  slot : sax.rs.v = some a ∨ sax.rs.v = none ∧ sax.heap.length ≤ a
  lt : a < heap.length
  le : sax.heap.length ≤ heap.length
  frame : ∀ b < sax.heap.length, b ≠ a → heap[b]? = sax.heap[b]?

namespace JSONState

def Ready (n : Nat) : JSONState → Prop
  | toplevel v => ∃ a < n, v = some a
  | object _ v _ => ∃ a < n, v = some a
  | list _ v _ => v = none

def receive (a : Nat) : JSONState → JSONState
  | toplevel v => toplevel v
  | object parent _ attrs => object parent none attrs
  | list parent _ values => list parent none (values ++ [a])

theorem Ready.mono {rs : JSONState} (h : rs.Ready n) (hle : n ≤ m) : rs.Ready m := by
  cases rs with
  | toplevel v => exact h.imp fun a => And.imp_left (·.trans_le hle)
  | object parent v attrs => exact h.imp fun a => And.imp_left (·.trans_le hle)
  | list parent v values => exact h

theorem Ready.lt {rs : JSONState} (h : rs.Ready n) (hv : rs.v = some a) : a < n := by
  cases rs with
  | toplevel v => obtain ⟨a, ha, rfl⟩ := h; cases hv; exact ha
  | object parent v attrs => obtain ⟨a, ha, rfl⟩ := h; cases hv; exact ha
  | list parent v values => cases h.symm.trans hv

end JSONState

open JSONState

theorem add_make (h : sax.rs.Ready sax.heap.length) (cell : Cell) :
    ∃ a heap, (sax.make cell).add = .ok ⟨heap, sax.rs.receive a⟩ ∧ Fills sax a heap ∧
      heap[a]? = some cell := by
  obtain ⟨heap, rs⟩ := sax
  have hset : ∀ {a : Nat}, a < heap.length → rs.v = some a →
      Fills ⟨heap, rs⟩ a (heap.set a cell) := fun ha hv =>
    ⟨.inl hv, by rwa [List.length_set], List.length_set.ge,
      fun b _ hne => List.getElem?_set_ne hne.symm⟩
  cases rs with
  | toplevel v =>
    obtain ⟨a, ha, rfl⟩ := h
    exact ⟨a, _, rfl, hset ha rfl, List.getElem?_set_self ha⟩
  | object parent v attrs =>
    obtain ⟨a, ha, rfl⟩ := h
    exact ⟨a, _, rfl, hset ha rfl, List.getElem?_set_self ha⟩
  | list parent v values =>
    obtain rfl := h
    have ha : heap.length < (heap ++ [Cell.uninitialized]).length := by simp
    refine ⟨heap.length, (heap ++ [Cell.uninitialized]).set heap.length cell, rfl,
      ⟨.inr ⟨rfl, le_rfl⟩, by rwa [List.length_set], by simp, fun b hb hne => ?_⟩,
      List.getElem?_set_self ha⟩
    exact (List.getElem?_set_ne hne.symm).trans (List.getElem?_append_left hb)

theorem run_append (sax : JSONSax) (l l' : List Event) :
    sax.run (l ++ l') = (sax.run l >>= fun sax => sax.run l') := List.foldlM_append

theorem run_cons (sax : JSONSax) (e : Event) (l : List Event) :
    sax.run (e :: l) = (sax.event e >>= fun sax => sax.run l) := List.foldlM_cons

theorem run_singleton (sax : JSONSax) (e : Event) : sax.run [e] = sax.event e := by
  rw [run_cons]
  cases sax.event e <;> rfl

/-- What the events of an accepted document leave. -/
structure Leaves (d : Doc) (sax : JSONSax) (a : Nat) (heap : Heap) : Prop where
  run : sax.run d.events = .ok ⟨heap, sax.rs.receive a⟩
  fills : Fills sax a heap
  denotes : ∀ heap' : Heap, heap'[a]? = heap[a]? →
    (∀ b, sax.heap.length ≤ b → b < heap.length → heap'[b]? = heap[b]?) → Denotes heap' a d.value

/-- The events of the document are parsed as far as they can be, wherever a value is expected. -/
structure Reads (d : Doc) : Prop where
  accepted : d.Accepted → ∀ sax : JSONSax, sax.rs.Ready sax.heap.length →
    ∃ a heap, Leaves d sax a heap
  rejected : ¬ d.Accepted → ∀ sax : JSONSax, sax.rs.Ready sax.heap.length →
    ∃ failure, sax.run d.events = .error failure

theorem reads_of_make {e : Event} (cell : Cell) (hevents : d.events = [e])
    (hevent : ∀ sax : JSONSax, sax.event e = (sax.make cell).add)
    (hdenotes : ∀ (heap : Heap) a, heap[a]? = some cell → Denotes heap a d.value)
    (haccepted : d.Accepted) : Reads d := by
  refine ⟨fun _ sax hready => ?_, fun h => absurd haccepted h⟩
  obtain ⟨a, heap, hadd, hfills, hcell⟩ := add_make hready cell
  refine ⟨a, heap, ?_, hfills, fun heap' heq _ => hdenotes heap' a (heq.trans hcell)⟩
  rw [hevents, run_singleton, hevent, hadd]

theorem reads_numberUnsigned (val : UInt64) : Reads (.numberUnsigned val) := by
  have hmax : Int64.maxValue.toInt = 2 ^ 63 - 1 := by decide
  by_cases h : val.toNat < 2 ^ 63
  · refine reads_of_make (.int (.ofNat val.toNat)) rfl (fun sax => ?_)
      (fun heap a => Denotes.int) h
    rw [JSONSax.event, JSONSax.numberUnsigned, if_neg (by omega)]
  · refine ⟨fun haccepted => absurd haccepted h, fun _ sax _ => ?_⟩
    rw [Doc.events, run_singleton, JSONSax.event, JSONSax.numberUnsigned, if_pos (by omega)]
    exact ⟨_, rfl⟩

theorem reads_string (s : Bytes) : Reads (.string s) := by
  by_cases h : 0 ∈ s
  · refine ⟨fun haccepted => absurd h haccepted, fun _ sax _ => ?_⟩
    rw [Doc.events, run_singleton, JSONSax.event, forceNoNullByte, if_pos h]
    exact ⟨_, rfl⟩
  · refine reads_of_make (.string s) rfl (fun sax => ?_) (fun heap a => Denotes.string) h
    rw [JSONSax.event, forceNoNullByte, if_neg h]
    rfl

theorem Fills.isPrefix (h : Fills sax a heap) (hslot : sax.heap.length ≤ a) : sax.heap <+: heap :=
  isPrefix_of_getElem? fun b hb => h.frame b hb (hb.trans_le hslot).ne

theorem Leaves.holds (h : Leaves d sax a heap) (hle : n ≤ sax.heap.length) (hslot : n ≤ a) :
    Holds n heap a d.value :=
  fun _ heq => h.denotes _ (heq a hslot h.fills.lt) fun b hb => heq b (hle.trans hb)

theorem run_elements {l : List Doc} (hreads : ∀ d ∈ l, Reads d) (haccepted : ∀ d ∈ l, d.Accepted)
    (heap : Heap) (parent : JSONState) (values : List Nat) :
    ∃ (heap' : Heap) (elems : List (Nat × Value)),
      JSONSax.run ⟨heap, .list parent none values⟩ (l.map Doc.events).flatten =
        .ok ⟨heap', .list parent none (values ++ elems.map Prod.fst)⟩ ∧
      heap <+: heap' ∧ elems.map Prod.snd = l.map Doc.value ∧
      ∀ e ∈ elems, Holds heap.length heap' e.1 e.2 := by
  induction l generalizing heap values with
  | nil =>
    refine ⟨heap, [], ?_, List.prefix_rfl, rfl, nofun⟩
    rw [List.map_nil, List.map_nil, List.append_nil]
    rfl
  | cons d l ih =>
    obtain ⟨hd, hl⟩ := List.forall_mem_cons.mp hreads
    obtain ⟨hd', hl'⟩ := List.forall_mem_cons.mp haccepted
    obtain ⟨a, heap₁, hleaves⟩ := hd.accepted hd' ⟨heap, .list parent none values⟩ rfl
    have hslot : heap.length ≤ a := (hleaves.fills.slot.resolve_left nofun).2
    have hextends : heap <+: heap₁ := hleaves.fills.isPrefix hslot
    obtain ⟨heap₂, elems, hrun, hextends', hvalues, hholds⟩ := ih hl hl' heap₁ (values ++ [a])
    refine ⟨heap₂, (a, d.value) :: elems, ?_, hextends.trans hextends', ?_, ?_⟩
    · rw [List.map_cons, List.flatten_cons, run_append, hleaves.run]
      rw [List.append_assoc] at hrun
      exact hrun
    · rw [List.map_cons, List.map_cons, hvalues]
    · exact List.forall_mem_cons.mpr ⟨(hleaves.holds le_rfl hslot).extend hextends',
        fun e he => (hholds e he).mono hextends.length_le⟩

theorem exists_error_elements {l : List Doc} (hreads : ∀ d ∈ l, Reads d)
    (hrejected : ∃ d ∈ l, ¬ d.Accepted) (heap : Heap) (parent : JSONState) (values : List Nat) :
    ∃ failure, JSONSax.run ⟨heap, .list parent none values⟩ (l.map Doc.events).flatten =
      .error failure := by
  induction l generalizing heap values with
  | nil => obtain ⟨d, hd, -⟩ := hrejected; cases hd
  | cons d l ih =>
    obtain ⟨hd, hl⟩ := List.forall_mem_cons.mp hreads
    rw [List.map_cons, List.flatten_cons, run_append]
    by_cases haccepted : d.Accepted
    · obtain ⟨a, heap₁, hleaves⟩ := hd.accepted haccepted ⟨heap, .list parent none values⟩ rfl
      rw [hleaves.run]
      refine ih hl ?_ heap₁ (values ++ [a])
      obtain ⟨d', hin, hd'⟩ := hrejected
      exact ⟨d', (List.mem_cons.mp hin).resolve_left fun heq => hd' (heq ▸ haccepted), hd'⟩
    · obtain ⟨failure, herror⟩ := hd.rejected haccepted ⟨heap, .list parent none values⟩ rfl
      exact ⟨failure, by rw [herror]; rfl⟩

theorem key_eq_ok {name : Bytes} (h : 0 ∉ name) (heap : Heap) (parent : JSONState)
    (attrs : Attrs Nat) :
    JSONSax.event ⟨heap, .object parent none attrs⟩ (.key name) =
      .ok ⟨heap ++ [.uninitialized],
        .object parent (some heap.length) (attrs.assign name heap.length)⟩ := by
  rw [JSONSax.event, JSONSax.key]
  simp only [forceNoNullByte, if_neg h]
  rfl

theorem exists_key_eq_error {name : Bytes} (h : 0 ∈ name) (heap : Heap) (parent : JSONState)
    (attrs : Attrs Nat) :
    ∃ failure, JSONSax.event ⟨heap, .object parent none attrs⟩ (.key name) = .error failure := by
  rw [JSONSax.event, JSONSax.key]
  simp only [forceNoNullByte, if_pos h]
  exact ⟨_, rfl⟩

def memberEvents (e : Bytes × Doc) : List Event := .key e.1 :: e.2.events

theorem run_member {e : Bytes × Doc} (hreads : Reads e.2) (hname : 0 ∉ e.1)
    (haccepted : e.2.Accepted) (heap : Heap) (parent : JSONState) (attrs : Attrs Nat) :
    ∃ heap', JSONSax.run ⟨heap, .object parent none attrs⟩ (memberEvents e) =
        .ok ⟨heap', .object parent none (attrs.assign e.1 heap.length)⟩ ∧
      heap <+: heap' ∧ Holds heap.length heap' heap.length e.2.value := by
  have hlength : (heap ++ [Cell.uninitialized]).length = heap.length + 1 := List.length_append
  obtain ⟨a, heap', hleaves⟩ := hreads.accepted haccepted
    ⟨heap ++ [.uninitialized], .object parent (some heap.length) (attrs.assign e.1 heap.length)⟩
    ⟨heap.length, by rw [hlength]; exact Nat.lt_succ_self _, rfl⟩
  obtain rfl : heap.length = a := by
    rcases hleaves.fills.slot with h | ⟨h, -⟩ <;> cases h
    rfl
  refine ⟨heap', ?_, isPrefix_of_getElem? fun b hb => ?_, hleaves.holds ?_ le_rfl⟩
  · rw [memberEvents, run_cons, key_eq_ok hname]
    exact hleaves.run
  · exact (hleaves.fills.frame b (hlength ▸ hb.trans (Nat.lt_succ_self _)) hb.ne).trans
      (List.getElem?_append_left hb)
  · exact hlength ▸ Nat.le_succ _

theorem run_members {l : List (Bytes × Doc)} (hreads : ∀ e ∈ l, Reads e.2)
    (haccepted : ∀ e ∈ l, 0 ∉ e.1 ∧ e.2.Accepted) (heap : Heap) (parent : JSONState)
    (attrs : Attrs Nat) :
    ∃ (heap' : Heap) (members : List (Bytes × (Nat × Value))),
      JSONSax.run ⟨heap, .object parent none attrs⟩ (l.map memberEvents).flatten =
        .ok ⟨heap', .object parent none
          ((members.map fun e => (e.1, e.2.1)).foldl (fun m e => m.assign e.1 e.2) attrs)⟩ ∧
      heap <+: heap' ∧ (members.map fun e => (e.1, e.2.2)) = l.map (Prod.map id Doc.value) ∧
      ∀ e ∈ members, Holds heap.length heap' e.2.1 e.2.2 := by
  induction l generalizing heap attrs with
  | nil => exact ⟨heap, [], rfl, List.prefix_rfl, rfl, nofun⟩
  | cons e l ih =>
    obtain ⟨he, hl⟩ := List.forall_mem_cons.mp hreads
    obtain ⟨⟨hname, he'⟩, hl'⟩ := List.forall_mem_cons.mp haccepted
    obtain ⟨heap₁, hrun₁, hextends, hholds₁⟩ := run_member he hname he' heap parent attrs
    obtain ⟨heap₂, members, hrun, hextends', hvalues, hholds⟩ :=
      ih hl hl' heap₁ (attrs.assign e.1 heap.length)
    refine ⟨heap₂, (e.1, (heap.length, e.2.value)) :: members, ?_, hextends.trans hextends', ?_, ?_⟩
    · rw [List.map_cons, List.flatten_cons, run_append, hrun₁]
      exact hrun
    · rw [List.map_cons, List.map_cons, hvalues]
      rfl
    · exact List.forall_mem_cons.mpr ⟨hholds₁.extend hextends',
        fun e he => (hholds e he).mono hextends.length_le⟩

theorem exists_error_members {l : List (Bytes × Doc)} (hreads : ∀ e ∈ l, Reads e.2)
    (hrejected : ∃ e ∈ l, ¬ (0 ∉ e.1 ∧ e.2.Accepted)) (heap : Heap) (parent : JSONState)
    (attrs : Attrs Nat) :
    ∃ failure, JSONSax.run ⟨heap, .object parent none attrs⟩ (l.map memberEvents).flatten =
      .error failure := by
  induction l generalizing heap attrs with
  | nil => obtain ⟨e, he, -⟩ := hrejected; cases he
  | cons e l ih =>
    obtain ⟨he, hl⟩ := List.forall_mem_cons.mp hreads
    rw [List.map_cons, List.flatten_cons, run_append]
    by_cases hname : 0 ∈ e.1
    · obtain ⟨failure, herror⟩ := exists_key_eq_error hname heap parent attrs
      exact ⟨failure, by rw [memberEvents, run_cons, herror]; rfl⟩
    by_cases haccepted : e.2.Accepted
    · obtain ⟨heap₁, hrun₁, -⟩ := run_member he hname haccepted heap parent attrs
      rw [hrun₁]
      refine ih hl ?_ heap₁ _
      obtain ⟨e', hin, he'⟩ := hrejected
      exact ⟨e', (List.mem_cons.mp hin).resolve_left
        fun heq => he' (heq ▸ ⟨hname, haccepted⟩), he'⟩
    · rw [memberEvents, run_cons, key_eq_ok hname]
      obtain ⟨failure, herror⟩ := he.rejected haccepted
        ⟨heap ++ [.uninitialized], .object parent (some heap.length)
          (attrs.assign e.1 heap.length)⟩
        ⟨heap.length, by simp, rfl⟩
      exact ⟨failure, bind_eq_error.mpr (.inl herror)⟩

theorem leaves_of_parts {rs : JSONState} {heap₁ : Heap} (cell : Cell)
    (hready : rs.Ready heap.length)
    (hrun : JSONSax.run ⟨heap, rs⟩ d.events = (JSONSax.make cell ⟨heap₁, rs⟩).add)
    (hextends : heap <+: heap₁)
    (hdenotes : ∀ (heap' : Heap) a, heap'[a]? = some cell →
      (∀ b, heap.length ≤ b → b < heap₁.length → heap'[b]? = heap₁[b]?) →
        Denotes heap' a d.value) :
    ∃ a heap', Leaves d ⟨heap, rs⟩ a heap' := by
  have hle : heap.length ≤ heap₁.length := hextends.length_le
  obtain ⟨a, heap₂, hadd, hfills, hcell⟩ := @add_make ⟨heap₁, rs⟩ (hready.mono hle) cell
  have hapart : ∀ b, heap.length ≤ b → b < heap₁.length → b ≠ a := by
    rintro b hb hlt rfl
    rcases hfills.slot with hv | ⟨-, hslot⟩
    · exact absurd hb (hready.lt hv).not_ge
    · exact absurd hlt hslot.not_gt
  refine ⟨a, heap₂, hrun.trans hadd, ⟨?_, hfills.lt, hle.trans hfills.le, ?_⟩, ?_⟩
  · exact hfills.slot.imp_right (And.imp_right hle.trans)
  · exact fun b hb hne =>
      (hfills.frame b (hb.trans_le hle) hne).trans (getElem?_of_isPrefix hextends hb)
  · exact fun heap' heq hcells => hdenotes heap' a (heq.trans hcell) fun b hb hlt =>
      (hcells b hb (hlt.trans_le hfills.le)).trans (hfills.frame b hlt (hapart b hb hlt))

theorem run_container {sax inner : JSONSax} {start finish : Event} (parts : List Event)
    (h : sax.event start = .ok inner) :
    sax.run (start :: (parts ++ [finish])) =
      (inner.run parts >>= fun sax => sax.event finish) := by
  rw [run_cons, h]
  refine (run_append inner parts [finish]).trans ?_
  simp only [run_singleton]

theorem reads_array {size : Nat} {elem : Fin size → Doc} (h : ∀ i, Reads (elem i)) :
    Reads (.array size elem) := by
  have hreads : ∀ d ∈ List.ofFn elem, Reads d := List.forall_mem_ofFn_iff.mpr h
  have hevents : (Doc.array size elem).events =
      .startArray :: (((List.ofFn elem).map Doc.events).flatten ++ [.endArray]) := by
    rw [Doc.events, List.map_ofFn]
    rfl
  constructor
  · rintro haccepted ⟨heap, rs⟩ hready
    obtain ⟨heap₁, elems, hrun, hextends, hvalues, hholds⟩ :=
      run_elements hreads (List.forall_mem_ofFn_iff.mpr haccepted) heap rs []
    have hvalue : (Doc.array size elem).value = .ofElements (elems.map Prod.snd) := by
      rw [hvalues, List.map_ofFn, Value.ofElements_ofFn]
      rfl
    refine leaves_of_parts (.list (elems.map Prod.fst)) hready ?_ hextends
      fun heap' a hcell hcells => ?_
    · rw [hevents, run_container _ rfl, hrun]
      rfl
    · rw [hvalue]
      exact .list elems hcell fun e he => hholds e he heap' hcells
  · intro hrejected sax hready
    obtain ⟨i, hi⟩ := not_forall.mp hrejected
    obtain ⟨failure, herror⟩ := exists_error_elements hreads
      ⟨elem i, List.mem_ofFn.mpr ⟨i, rfl⟩, hi⟩ sax.heap sax.rs []
    rw [hevents, run_container _ rfl, herror]
    exact ⟨failure, rfl⟩

theorem reads_object {size : Nat} {name : Fin size → Bytes} {member : Fin size → Doc}
    (h : ∀ i, Reads (member i)) : Reads (.object size name member) := by
  have hreads : ∀ e ∈ List.ofFn fun i => (name i, member i), Reads e.2 :=
    List.forall_mem_ofFn_iff.mpr h
  have hevents : (Doc.object size name member).events = .startObject ::
      (((List.ofFn fun i => (name i, member i)).map memberEvents).flatten ++ [.endObject]) := by
    rw [Doc.events, List.map_ofFn]
    rfl
  constructor
  · rintro haccepted ⟨heap, rs⟩ hready
    obtain ⟨heap₁, members, hrun, hextends, hvalues, hholds⟩ :=
      run_members hreads (List.forall_mem_ofFn_iff.mpr haccepted) heap rs .empty
    have hvalue : (Doc.object size name member).value =
        .ofMembers ((SortedMap.ofList members).mapValues Prod.snd) := by
      rw [← SortedMap.ofList_mapValues, hvalues, List.map_ofFn]
      rfl
    refine leaves_of_parts (.attrs (.ofList (members.map fun e => (e.1, e.2.1)))) hready ?_ hextends
      fun heap' a hcell hcells => ?_
    · rw [hevents, run_container _ rfl, hrun]
      rfl
    · rw [hvalue]
      refine .attrs (.ofList members) ?_ fun e he =>
        hholds e (SortedMap.mem_of_mem_ofList he) heap' hcells
      rw [← SortedMap.ofList_mapValues]
      exact hcell
  · intro hrejected sax hready
    obtain ⟨i, hi⟩ := not_forall.mp hrejected
    obtain ⟨failure, herror⟩ := exists_error_members hreads
      ⟨(name i, member i), List.mem_ofFn.mpr ⟨i, rfl⟩, hi⟩ sax.heap sax.rs .empty
    rw [hevents, run_container _ rfl, herror]
    exact ⟨failure, rfl⟩

theorem reads (d : Doc) : Reads d := by
  induction d with
  | null => exact reads_of_make .null rfl (fun _ => rfl) (fun _ _ => .null) trivial
  | boolean b => exact reads_of_make (.bool b) rfl (fun _ => rfl) (fun _ _ => .bool) trivial
  | numberInteger n => exact reads_of_make (.int n) rfl (fun _ => rfl) (fun _ _ => .int) trivial
  | numberUnsigned n => exact reads_numberUnsigned n
  | numberFloat bits =>
    exact reads_of_make (.float bits) rfl (fun _ => rfl) (fun _ _ => .float) trivial
  | string s => exact reads_string s
  | array size elem ih => exact reads_array ih
  | object size name member ih => exact reads_object ih

theorem parseJSON_events (d : Doc) :
    (d.Accepted → ∃ heap, parseJSON d.events = .ok heap ∧ Denotes heap 0 d.value) ∧
      (¬ d.Accepted → ∃ failure, parseJSON d.events = .error failure) := by
  have hready : (JSONState.toplevel (some 0)).Ready [Cell.uninitialized].length :=
    ⟨0, Nat.one_pos, rfl⟩
  constructor
  · intro haccepted
    obtain ⟨a, heap, hleaves⟩ := (reads d).accepted haccepted ⟨_, _⟩ hready
    obtain rfl : 0 = a := by
      rcases hleaves.fills.slot with h | ⟨h, -⟩ <;> cases h
      rfl
    exact ⟨heap, map_eq_ok.mpr ⟨_, hleaves.run, rfl⟩,
      hleaves.denotes heap rfl fun _ _ _ => rfl⟩
  · intro hrejected
    obtain ⟨failure, herror⟩ := (reads d).rejected hrejected ⟨_, _⟩ hready
    exact ⟨failure, map_eq_error.mpr herror⟩

theorem Value.attr?_ofMembers (m : Attrs Value) (name : Bytes) :
    (Value.ofMembers m).attr? name = m.find? name := by
  rw [Value.ofMembers, Value.attr?]
  cases hindex : (m.elems.map Prod.fst).finIdxOf? name with
  | none => exact (SortedMap.find?_eq_none.mpr (List.finIdxOf?_eq_none_iff.mp hindex)).symm
  | some i =>
    have hname : (m.elems.get (i.cast (List.length_map _))).1 = name := by
      rw [← (List.finIdxOf?_eq_some_iff.mp hindex).1]
      simp
    refine (SortedMap.find?_eq_some.mpr ?_).symm
    rw [← hname]
    exact List.get_mem m.elems _

theorem attr?_value_object {size : Nat} (name : Fin size → Bytes) (member : Fin size → Doc)
    (k : Bytes) :
    (Doc.object size name member).value.attr? k =
      ((List.ofFn fun i => (name i, (member i).value)).reverse.find? (·.1 = k)).map Prod.snd := by
  rw [Doc.value, Value.attr?_ofMembers, SortedMap.find?_ofList]

end Nix.Eval.JsonToValue
