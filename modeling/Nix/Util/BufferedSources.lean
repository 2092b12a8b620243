import Mathlib.Data.List.Basic
import Nix.Util.Types

/-!
Reading from a source through a buffer.
-/

set_option linter.dupNamespace false

namespace Nix.Util.BufferedSources

open Util.Types

/-- A `BufferedSource` without its buffer: `readUnbuffered` of the subclass, and the bytes that it
has not delivered yet. It delivers at least one byte, except at the end. -/
structure Unbuffered (ρ : Type) where
  readUnbuffered : Nat → ρ → Except Error Bytes × ρ
  rest : ρ → Bytes
  rest_of_ok : ∀ {len s bs s'}, readUnbuffered len s = (.ok bs, s') →
    rest s = bs ++ rest s' ∧ bs.length ≤ len ∧ (0 < len → bs ≠ [])
  rest_of_error : ∀ {len s e s'}, readUnbuffered len s = (.error e, s') →
    e.cls = .endOfFile ∧ rest s' = rest s ∧ (0 < len → rest s = [])

/-- `FdSource`: what can be read from the descriptor, how much of it each `read` call of the system
gives, the bytes read so far, and `_good`. -/
structure FdSource where
  data : Bytes
  sizes : List Nat := []
  read : Nat := 0
  good : Bool := true
  deriving DecidableEq

namespace FdSource

def readUnbuffered (len : Nat) (s : FdSource) : Except Error Bytes × FdSource :=
  let n := min (max 1 (s.sizes.headD len)) (min len s.data.length)
  let s := { s with sizes := s.sizes.tail }
  if n = 0 then
    (.error ⟨.endOfFile, ⟨"unexpected end-of-file", []⟩⟩, { s with good := false })
  else
    (.ok (s.data.take n), { s with data := s.data.drop n, read := s.read + n })

def unbuffered : Unbuffered FdSource where
  readUnbuffered := readUnbuffered
  rest := data
  rest_of_ok := by
    intro len s bs s' h
    rw [readUnbuffered] at h
    dsimp only at h
    split at h
    next => cases h
    next hn =>
      cases h
      refine ⟨(List.take_append_drop _ _).symm, ?_, fun _ hnil => ?_⟩
      · rw [List.length_take]
        omega
      · have hlength := congrArg List.length hnil
        rw [List.length_take, List.length_nil] at hlength
        omega
  rest_of_error := by
    intro len s e s' h
    rw [readUnbuffered] at h
    dsimp only at h
    split at h
    next hn =>
      cases h
      refine ⟨rfl, rfl, fun hlen => ?_⟩
      have hzero : s.data.length = 0 := by omega
      exact List.eq_nil_of_length_eq_zero hzero
    next => cases h

end FdSource

structure BufferedSource (ρ : Type) where
  bufSize : Nat
  bufPosIn : Nat := 0
  bufPosOut : Nat := 0
  buffer : Option Bytes := none
  under : ρ

/-- What a call has put where its caller wants it, and what it throws. -/
structure Delivery where
  data : Bytes := []
  error : Option Error := none
  deriving DecidableEq

namespace BufferedSource

variable {ρ : Type} (src : Unbuffered ρ)

def bytes (b : BufferedSource ρ) : Bytes :=
  b.buffer.getD (List.replicate b.bufSize 0)

/-- The buffer is made when it is used for the first time. -/
def allocate (b : BufferedSource ρ) : BufferedSource ρ :=
  { b with buffer := some b.bytes }

def available (b : BufferedSource ρ) : Bytes :=
  (b.bytes.drop b.bufPosOut).take (b.bufPosIn - b.bufPosOut)

def reset (b : BufferedSource ρ) : BufferedSource ρ :=
  { b with bufPosIn := 0, bufPosOut := 0 }

/-- Move `bufPosOut`; the positions are reset when nothing is left. -/
def advance (n : Nat) (b : BufferedSource ρ) : BufferedSource ρ :=
  if b.bufPosOut + n = b.bufPosIn then b.reset else { b with bufPosOut := b.bufPosOut + n }

/-- The bytes that were read are at the start of the buffer. -/
def refill (bs : Bytes) (under : ρ) (b : BufferedSource ρ) : BufferedSource ρ :=
  { b with
    buffer := some (bs ++ b.bytes.drop bs.length)
    bufPosIn := bs.length
    under }

def copyOut (len : Nat) (b : BufferedSource ρ) : Bytes × BufferedSource ρ :=
  let n := min len (b.bufPosIn - b.bufPosOut)
  ((b.bytes.drop b.bufPosOut).take n, b.advance n)

def read (len : Nat) (b : BufferedSource ρ) : Except Error Bytes × BufferedSource ρ :=
  let b := b.allocate
  if b.bufPosIn = 0 then
    match src.readUnbuffered b.bufSize b.under with
    | (.error e, under) => (.error e, { b with under })
    | (.ok bs, under) => ((b.refill bs under).copyOut len).map .ok id
  else
    (b.copyOut len).map .ok id

/-- Whether the terminator is in the buffer, and the text before it, or all there is. -/
def takeLine (terminator : UInt8) (b : BufferedSource ρ) : Bool × Bytes × BufferedSource ρ :=
  if b.bufPosOut < b.bufPosIn then
    match b.available.findIdx? (· = terminator) with
    | some newline => (true, b.available.take newline, b.advance (newline + 1))
    | none => (false, b.available, b.reset)
  else
    (false, [], b)

def handleEof (eofOk : Bool) (line : Bytes) (b : BufferedSource ρ) :
    Except Error Bytes × BufferedSource ρ :=
  if eofOk then (.ok line, b.reset)
  else (.error ⟨.endOfFile, ⟨"unexpected EOF reading a line", []⟩⟩, b.reset)

/-- The loop of `readLine`. Every round but the last one reads a byte at least. -/
def readLineLoop (eofOk : Bool) (terminator : UInt8) :
    Nat → Bytes → BufferedSource ρ → Except Error Bytes × BufferedSource ρ
  | 0, _, b => (.error .diverges, b)
  | fuel + 1, line, b =>
      match b.takeLine terminator with
      | (true, text, b) => (.ok (line ++ text), b)
      | (false, text, b) =>
          match src.readUnbuffered b.bufSize b.under with
          | (.error e, under) =>
              if e.cls = .endOfFile then handleEof eofOk (line ++ text) { b with under }
              else (.error e, { b with under })
          | (.ok bs, under) =>
              if bs.length = 0 then handleEof eofOk (line ++ text) { b with under }
              else
                readLineLoop eofOk terminator fuel (line ++ text)
                  { b.refill bs under with bufPosOut := 0 }

def readLine (eofOk : Bool) (terminator : UInt8) (b : BufferedSource ρ) :
    Except Error Bytes × BufferedSource ρ :=
  readLineLoop src eofOk terminator ((src.rest b.under).length + 1) [] b.allocate

/-- The loops of `operator()`, `drainInto` and `skip`, with the bytes that were there before an
error. -/
def fill (cap : Nat → Nat) : Nat → Nat → BufferedSource ρ → Delivery × BufferedSource ρ
  | _, 0, b => ({}, b)
  | 0, _ + 1, b => ({ error := some .diverges }, b)
  | fuel + 1, len + 1, b =>
      match b.read src (cap (len + 1)) with
      | (.error e, b) => ({ error := some e }, b)
      | (.ok data, b) =>
          let (delivery, b) := fill cap fuel (len + 1 - data.length) b
          ({ delivery with data := data ++ delivery.data }, b)

end BufferedSource

inductive Op
  | read (len : Nat)
  | readLine (eofOk : Bool) (terminator : UInt8)
  /-- `operator()(data, len)`. -/
  | readExact (len : Nat)
  /-- `drainInto(sink, len)`. -/
  | drainInto (len : Nat)
  | skip (len : Nat)
  deriving DecidableEq

/-- How many bytes a call is to deliver, if not fewer will do. -/
def Op.exactly? : Op → Option Nat
  | .readExact len | .drainInto len | .skip len => some len
  | .read _ | .readLine _ _ => none

def Delivery.ofExcept : Except Error Bytes → Delivery
  | .ok data => { data }
  | .error e => { error := some e }

namespace BufferedSource

variable {ρ : Type} (src : Unbuffered ρ)

def step (b : BufferedSource ρ) : Op → Delivery × BufferedSource ρ
  | .read len => (b.read src len).map .ofExcept id
  | .readLine eofOk terminator => (b.readLine src eofOk terminator).map .ofExcept id
  | .readExact len => fill src id len len b
  | .drainInto len => fill src (min · 65536) len len b
  | .skip len => fill src (min · 8192) len len b

def run (b : BufferedSource ρ) : List Op → List Delivery × BufferedSource ρ
  | [] => ([], b)
  | op :: ops =>
      let (delivery, b) := b.step src op
      let (deliveries, b) := b.run ops
      (delivery :: deliveries, b)

end BufferedSource

/-!
What a buffered source delivers, against the bytes of the stream under it.
-/

/-- What a call may deliver of a stream, and what is left of it. How many bytes a `read` gives is
the only choice. -/
inductive Delivers : Bytes → Op → Delivery → Bytes → Prop
  | read {data rest : Bytes} {len : Nat} (hle : data.length ≤ len) (hne : 0 < len → data ≠ []) :
      Delivers (data ++ rest) (.read len) { data } rest
  | readEof {len : Nat} {e : Error} (he : e.cls = .endOfFile) :
      Delivers [] (.read len) { error := some e } []
  | line {line rest : Bytes} {eofOk : Bool} {terminator : UInt8} (hline : terminator ∉ line) :
      Delivers (line ++ terminator :: rest) (.readLine eofOk terminator) { data := line } rest
  | lastLine {line : Bytes} {terminator : UInt8} (hline : terminator ∉ line) :
      Delivers line (.readLine true terminator) { data := line } []
  | lineEof {line : Bytes} {terminator : UInt8} (hline : terminator ∉ line) :
      Delivers line (.readLine false terminator)
        { error := some ⟨.endOfFile, ⟨"unexpected EOF reading a line", []⟩⟩ } []
  | exactly {op : Op} {data rest : Bytes} (hop : op.exactly? = some data.length) :
      Delivers (data ++ rest) op { data } rest
  | exactlyEof {op : Op} {data : Bytes} {len : Nat} {e : Error} (hop : op.exactly? = some len)
      (hlt : data.length < len) (he : e.cls = .endOfFile) :
      Delivers data op { data, error := some e } []

/-- What a sequence of calls may deliver. -/
inductive DeliversAll : Bytes → List Op → List Delivery → Bytes → Prop
  | nil (rest : Bytes) : DeliversAll rest [] [] rest
  | cons {stream stream' rest : Bytes} {op : Op} {ops : List Op} {delivery : Delivery}
      {deliveries : List Delivery} (hop : Delivers stream op delivery stream')
      (hops : DeliversAll stream' ops deliveries rest) :
      DeliversAll stream (op :: ops) (delivery :: deliveries) rest

/-- What a call other than `read` delivers of a stream, and what is left of it. -/
def deliver (stream : Bytes) (op : Op) : Bytes × Bytes :=
  match op with
  | .readLine eofOk terminator =>
      if terminator ∈ stream then
        (stream.takeWhile (· ≠ terminator), (stream.dropWhile (· ≠ terminator)).tail)
      else (if eofOk then stream else [], [])
  | .read len | .readExact len | .drainInto len | .skip len => (stream.take len, stream.drop len)

example (stream : Bytes) : deliver stream (.skip 0) = ([], stream) := by
  rw [deliver, List.take_zero, List.drop_zero]

theorem deliver_exactly {op : Op} {len : Nat} (hop : op.exactly? = some len) (stream : Bytes) :
    deliver stream op = (stream.take len, stream.drop len) := by
  cases op <;> cases hop <;> rfl

theorem deliver_line {line rest : Bytes} {eofOk : Bool} {terminator : UInt8}
    (hline : terminator ∉ line) :
    deliver (line ++ terminator :: rest) (.readLine eofOk terminator) = (line, rest) := by
  have hne : ∀ c ∈ line, decide (c ≠ terminator) = true := fun c hc =>
    decide_eq_true fun heq => hline (heq ▸ hc)
  rw [deliver, if_pos List.mem_append_cons_self, List.takeWhile_append_of_pos hne,
    List.dropWhile_append_of_pos hne, List.takeWhile_cons, List.dropWhile_cons]
  simp

/-- Only a `read` has a choice. -/
theorem Delivers.eq_deliver {stream rest : Bytes} {op : Op} {delivery : Delivery}
    (h : Delivers stream op delivery rest) (hop : ∀ len, op ≠ .read len) :
    (delivery.data, rest) = deliver stream op := by
  cases h with
  | read => exact absurd rfl (hop _)
  | readEof => exact absurd rfl (hop _)
  | line hline => exact (deliver_line hline).symm
  | lastLine hline => rw [deliver, if_neg hline, if_pos rfl]
  | lineEof hline => rw [deliver, if_neg hline, if_neg Bool.false_ne_true]
  | exactly hexactly => rw [deliver_exactly hexactly, List.take_left, List.drop_left]
  | exactlyEof hexactly hlt =>
    rw [deliver_exactly hexactly, List.take_of_length_le (Nat.le_of_lt hlt),
      List.drop_eq_nil_of_le (Nat.le_of_lt hlt)]

/-- Without a `read`, the calls deliver the same bytes of the same stream. -/
theorem DeliversAll.unique {stream rest rest' : Bytes} {ops : List Op}
    {deliveries deliveries' : List Delivery} (h : DeliversAll stream ops deliveries rest)
    (h' : DeliversAll stream ops deliveries' rest') (hops : ∀ len, Op.read len ∉ ops) :
    deliveries.map (·.data) = deliveries'.map (·.data) ∧ rest = rest' := by
  induction h generalizing deliveries' with
  | nil rest =>
    cases h'
    exact ⟨rfl, rfl⟩
  | cons hop _ ih =>
    cases h' with
    | cons hop' hrest' =>
      have hne : ∀ len, _ ≠ Op.read len := fun len heq => hops len (heq ▸ List.mem_cons_self)
      have hsame := (hop.eq_deliver hne).trans (hop'.eq_deliver hne).symm
      obtain ⟨hdata, rfl⟩ := Prod.mk.inj hsame
      obtain ⟨hall, hrest⟩ := ih hrest' fun len hin => hops len (List.mem_cons_of_mem _ hin)
      exact ⟨congrArg₂ List.cons hdata hall, hrest⟩

namespace BufferedSource

variable {ρ : Type} {src : Unbuffered ρ} {b : BufferedSource ρ}

def unread (src : Unbuffered ρ) (b : BufferedSource ρ) : Bytes :=
  b.available ++ src.rest b.under

/-- The positions are in the buffer, and both at its start when it is empty. -/
structure Ready (b : BufferedSource ρ) : Prop where
  room : 0 < b.bufSize
  size : b.bytes.length = b.bufSize
  within : b.bufPosIn ≤ b.bufSize
  positions : b.bufPosOut < b.bufPosIn ∨ b.bufPosIn = 0 ∧ b.bufPosOut = 0

theorem ready_new {bufSize : Nat} (room : 0 < bufSize) (under : ρ) :
    Ready { bufSize, under } where
  room := room
  size := List.length_replicate
  within := Nat.zero_le _
  positions := .inr ⟨rfl, rfl⟩

theorem Ready.length_available (h : Ready b) : b.available.length = b.bufPosIn - b.bufPosOut := by
  have hwithin := h.within
  rw [available, List.length_take, List.length_drop, h.size]
  omega

theorem available_reset (b : BufferedSource ρ) : b.reset.available = [] := by
  rw [available, reset, Nat.sub_zero, List.take_zero]

theorem Ready.reset (h : Ready b) : Ready b.reset where
  room := h.room
  size := h.size
  within := Nat.zero_le _
  positions := .inr ⟨rfl, rfl⟩

theorem Ready.allocate (h : Ready b) : Ready b.allocate :=
  ⟨h.room, h.size, h.within, h.positions⟩

theorem Ready.advance (h : Ready b) {n : Nat} (hn : n ≤ b.available.length) :
    Ready (b.advance n) ∧ (b.advance n).available = b.available.drop n := by
  have hlength := h.length_available
  rw [BufferedSource.advance]
  split
  next hend =>
    refine ⟨h.reset, ?_⟩
    rw [available_reset, List.drop_eq_nil_of_le (by omega)]
  next hend =>
    refine ⟨⟨h.room, h.size, h.within, ?_⟩, ?_⟩
    · rcases h.positions with hlt | ⟨hin, hout⟩
      · exact .inl (show b.bufPosOut + n < b.bufPosIn by omega)
      · exact absurd (by omega) hend
    · rw [available, available, List.drop_take, List.drop_drop, Nat.sub_sub]
      rfl

@[simp] theorem advance_under (n : Nat) : (b.advance n).under = b.under := by
  rw [advance]
  split <;> rfl

@[simp] theorem advance_bufSize (n : Nat) : (b.advance n).bufSize = b.bufSize := by
  rw [advance]
  split <;> rfl

theorem Ready.refill (h : Ready b) (hout : b.bufPosOut = 0) {bs : Bytes} (hne : bs ≠ [])
    (hle : bs.length ≤ b.bufSize) (under : ρ) :
    Ready (b.refill bs under) ∧ (b.refill bs under).available = bs := by
  have hbytes : (b.refill bs under).bytes = bs ++ b.bytes.drop bs.length := rfl
  refine ⟨⟨h.room, ?_, hle, .inl ?_⟩, ?_⟩
  · have hsize := h.size
    rw [hbytes, List.length_append, List.length_drop, hsize]
    exact Nat.add_sub_cancel' hle
  · exact hout ▸ List.length_pos_of_ne_nil hne
  · rw [available, hbytes]
    simp [BufferedSource.refill, hout]

theorem Ready.copyOut (h : Ready b) (len : Nat) :
    ∃ b', b.copyOut len = (b.available.take len, b') ∧ Ready b' ∧
      b'.available = b.available.drop len ∧ b'.under = b.under := by
  have hlength := h.length_available
  have hn : min len (b.bufPosIn - b.bufPosOut) ≤ b.available.length := by omega
  obtain ⟨hready, havailable⟩ := h.advance hn
  refine ⟨_, ?_, hready, ?_, advance_under _⟩
  · rw [BufferedSource.copyOut, available, List.take_take]
  · rw [havailable]
    rcases Nat.le_total len b.available.length with hle | hle
    · rw [Nat.min_eq_left (by omega)]
    · rw [List.drop_eq_nil_of_le hle, List.drop_eq_nil_of_le (by omega)]

variable (src) in
/-- A call of `read` gives some of the unread bytes, or there are none. -/
theorem Ready.read (h : Ready b) (len : Nat) :
    ∃ result b', b.read src len = (result, b') ∧ Ready b' ∧ match result with
      | .ok data => unread src b = data ++ unread src b' ∧ data.length ≤ len ∧
          (0 < len → data ≠ [])
      | .error e => e.cls = .endOfFile ∧ unread src b = [] ∧ unread src b' = [] := by
  have hcopy : ∀ {b₁ : BufferedSource ρ}, Ready b₁ → b₁.available ≠ [] →
      ∃ data b', b₁.copyOut len = (data, b') ∧ Ready b' ∧
        unread src b₁ = data ++ unread src b' ∧ data.length ≤ len ∧ (0 < len → data ≠ []) := by
    intro b₁ h₁ hne
    obtain ⟨b', hcopy, hready, havailable, hunder⟩ := h₁.copyOut len
    refine ⟨_, b', hcopy, hready, ?_, ?_, fun hlen hnil => ?_⟩
    · rw [unread, unread, havailable, hunder, ← List.append_assoc, List.take_append_drop]
    · exact List.length_take_le _ _
    · rcases List.take_eq_nil_iff.mp hnil with hzero | hnil
      · omega
      · exact hne hnil
  rw [BufferedSource.read]
  split
  next hin =>
    have hpos : b.bufPosIn = 0 ∧ b.bufPosOut = 0 := by
      rcases h.positions with hlt | hpos
      · exact absurd hin (Nat.ne_of_gt (Nat.zero_lt_of_lt hlt))
      · exact hpos
    have hnil : b.available = [] :=
      List.eq_nil_of_length_eq_zero (by rw [h.length_available]; omega)
    have hunread : unread src b = src.rest b.under := by rw [unread, hnil, List.nil_append]
    split
    next e under hread =>
      obtain ⟨he, hrest, hend⟩ := src.rest_of_error hread
      refine ⟨_, _, rfl, ⟨h.room, h.size, h.within, h.positions⟩, he, ?_, ?_⟩
      · rw [hunread]
        exact hend h.room
      · have hend' : src.rest under = [] := hrest.trans (hend h.room)
        exact (congrArg₂ (· ++ ·) hnil hend').trans (List.append_nil _)
    next bs under hread =>
      obtain ⟨hrest, hle, hne⟩ := src.rest_of_ok hread
      obtain ⟨hready, havailable⟩ := h.allocate.refill hpos.2 (hne h.room) hle under
      obtain ⟨data, b', hcopy, hready', hdata, hlen⟩ :=
        hcopy hready (havailable.symm ▸ hne h.room)
      refine ⟨.ok data, b', by rw [hcopy]; rfl, hready', ?_, hlen⟩
      rw [hunread, ← hdata, unread, havailable]
      exact hrest
  next hin =>
    have hne : b.available ≠ [] := by
      intro hnil
      have hlength := h.length_available
      rw [hnil, List.length_nil] at hlength
      rcases h.positions with hlt | hpos
      · omega
      · exact hin hpos.1
    obtain ⟨data, b', hcopy, hready', hdata, hlen⟩ := hcopy h.allocate hne
    exact ⟨.ok data, b', by rw [hcopy]; rfl, hready', hdata, hlen⟩

theorem Ready.fill {cap : Nat → Nat} (hcap : ∀ n, 0 < n → 0 < cap n ∧ cap n ≤ n) {fuel len : Nat}
    (hfuel : len ≤ fuel) (h : Ready b) :
    ∃ delivery b', fill src cap fuel len b = (delivery, b') ∧ Ready b' ∧
      unread src b = delivery.data ++ unread src b' ∧ match delivery.error with
      | none => delivery.data.length = len
      | some e => e.cls = .endOfFile ∧ delivery.data.length < len ∧ unread src b' = [] := by
  induction fuel generalizing len b with
  | zero =>
    obtain rfl := Nat.le_zero.mp hfuel
    exact ⟨{}, b, rfl, h, rfl, rfl⟩
  | succ fuel ih =>
    cases len with
    | zero => exact ⟨{}, b, rfl, h, rfl, rfl⟩
    | succ len =>
      obtain ⟨hcap0, hcaple⟩ := hcap (len + 1) (Nat.succ_pos len)
      obtain ⟨result, b₁, hread, hready, hresult⟩ := h.read src (cap (len + 1))
      rw [BufferedSource.fill, hread]
      cases result with
      | error e =>
        obtain ⟨he, hnil, hnil'⟩ := hresult
        exact ⟨_, b₁, rfl, hready, hnil.trans hnil'.symm, he, Nat.succ_pos len, hnil'⟩
      | ok data =>
        obtain ⟨hdata, hle, hne⟩ := hresult
        have hpos : 0 < data.length := List.length_pos_of_ne_nil (hne hcap0)
        have hrounds : len + 1 - data.length ≤ fuel := by omega
        obtain ⟨delivery, b₂, hfill, hready', hunread, hlength⟩ :=
          ih hrounds hready
        dsimp only
        rw [hfill]
        refine ⟨_, b₂, rfl, hready', ?_, ?_⟩
        · rw [hdata, hunread, List.append_assoc]
        · dsimp only
          rw [List.length_append]
          cases herror : delivery.error with
          | none =>
            rw [herror] at hlength
            dsimp only at hlength ⊢
            omega
          | some e =>
            rw [herror] at hlength
            obtain ⟨he, hlt, hnil⟩ := hlength
            exact ⟨he, by omega, hnil⟩

theorem Ready.takeLine (h : Ready b) (terminator : UInt8) :
    ∃ text b', Ready b' ∧ b'.under = b.under ∧ terminator ∉ text ∧
      (b.takeLine terminator = (true, text, b') ∧
          b.available = text ++ terminator :: b'.available ∨
        b.takeLine terminator = (false, text, b') ∧ b'.bufPosOut = 0 ∧ b'.available = [] ∧
          b.available = text) := by
  rw [BufferedSource.takeLine]
  split
  next hlt =>
    cases hfind : b.available.findIdx? (· = terminator) with
    | none =>
      have hnot : terminator ∉ b.available := by
        intro hin
        have hall := List.findIdx?_eq_none_iff.mp hfind terminator hin
        simp at hall
      exact ⟨_, _, h.reset, rfl, hnot, .inr ⟨rfl, rfl, available_reset b, rfl⟩⟩
    | some newline =>
      obtain ⟨hlength, hterminator, hbefore⟩ := List.findIdx?_eq_some_iff_getElem.mp hfind
      obtain ⟨hready, havailable⟩ := h.advance (n := newline + 1) hlength
      refine ⟨_, _, hready, advance_under _, ?_, .inl ⟨rfl, ?_⟩⟩
      · intro hin
        obtain ⟨j, hj, heq⟩ := List.mem_take_iff_getElem.mp hin
        exact hbefore j (by omega) (decide_eq_true heq)
      · have heq : b.available[newline] = terminator := of_decide_eq_true hterminator
        rw [havailable, ← heq, List.getElem_cons_drop, List.take_append_drop]
  next hle =>
    have hpos : b.bufPosIn = 0 ∧ b.bufPosOut = 0 := h.positions.resolve_left hle
    have hnil : b.available = [] :=
      List.eq_nil_of_length_eq_zero (by rw [h.length_available]; omega)
    exact ⟨_, _, h, rfl, List.not_mem_nil, .inr ⟨rfl, hpos.2, hnil, hnil⟩⟩

/-- What `readLine` gives of a stream, with the text that was read before. -/
def ReadsLine (eofOk : Bool) (terminator : UInt8) (before stream : Bytes)
    (result : Except Error Bytes) (rest : Bytes) : Prop :=
  (∃ text, terminator ∉ text ∧ stream = text ++ terminator :: rest ∧
      result = .ok (before ++ text)) ∨
    terminator ∉ stream ∧ rest = [] ∧ result = if eofOk then .ok (before ++ stream)
      else .error ⟨.endOfFile, ⟨"unexpected EOF reading a line", []⟩⟩

theorem ReadsLine.cons {eofOk : Bool} {terminator : UInt8} {before text stream rest : Bytes}
    {result : Except Error Bytes} (htext : terminator ∉ text)
    (h : ReadsLine eofOk terminator (before ++ text) stream result rest) :
    ReadsLine eofOk terminator before (text ++ stream) result rest := by
  rcases h with ⟨text', htext', rfl, rfl⟩ | ⟨hstream, hrest, rfl⟩
  · refine .inl ⟨text ++ text', ?_, (List.append_assoc _ _ _).symm, by rw [List.append_assoc]⟩
    exact fun hin => (List.mem_append.mp hin).elim htext htext'
  · refine .inr ⟨?_, hrest, by rw [List.append_assoc]⟩
    exact fun hin => (List.mem_append.mp hin).elim htext hstream

variable (src) in
theorem Ready.handleEof (h : Ready b) (eofOk : Bool) (terminator : UInt8) (before : Bytes)
    (hend : src.rest b.under = []) :
    ∃ result b', handleEof eofOk before b = (result, b') ∧ Ready b' ∧
      ReadsLine eofOk terminator before [] result (unread src b') := by
  have hunread : unread src b.reset = [] := by
    rw [unread, available_reset, List.nil_append]
    exact hend
  refine ⟨_, b.reset, ?_, h.reset, .inr ⟨List.not_mem_nil, hunread, rfl⟩⟩
  rw [BufferedSource.handleEof, List.append_nil]
  split <;> rfl

variable (src) in
theorem Ready.readLineLoop (eofOk : Bool) (terminator : UInt8) {fuel : Nat} (before : Bytes)
    (h : Ready b) (hfuel : (src.rest b.under).length < fuel) :
    ∃ result b', readLineLoop src eofOk terminator fuel before b = (result, b') ∧ Ready b' ∧
      ReadsLine eofOk terminator before (unread src b) result (unread src b') := by
  induction fuel generalizing b before with
  | zero => exact absurd hfuel (Nat.not_lt_zero _)
  | succ fuel ih =>
    obtain ⟨text, b₁, hready, hunder, htext, ⟨htake, havailable⟩ |
      ⟨htake, hout, hnil, havailable⟩⟩ := h.takeLine terminator
    · rw [BufferedSource.readLineLoop, htake]
      refine ⟨_, b₁, rfl, hready, .inl ⟨text, htext, ?_, rfl⟩⟩
      rw [unread, unread, havailable, hunder, List.append_assoc, List.cons_append]
    · have hunread : unread src b = text ++ src.rest b₁.under := by
        rw [unread, havailable, hunder]
      rw [BufferedSource.readLineLoop, htake, hunread]
      dsimp only
      split
      next e under hread =>
        obtain ⟨he, hrest, hend⟩ := src.rest_of_error hread
        rw [if_pos he, hend hready.room]
        have hready₁ : Ready { b₁ with under } :=
          ⟨hready.room, hready.size, hready.within, hready.positions⟩
        obtain ⟨result, b₂, hresult, hready', hline⟩ :=
          hready₁.handleEof src eofOk terminator (before ++ text) (hrest.trans (hend hready.room))
        exact ⟨result, b₂, hresult, hready', hline.cons htext⟩
      next bs under hread =>
        obtain ⟨hrest, hle, hne⟩ := src.rest_of_ok hread
        have hpos : 0 < bs.length := List.length_pos_of_ne_nil (hne hready.room)
        obtain ⟨hrefill, hbs⟩ := hready.refill hout (hne hready.room) hle under
        have hsame : { b₁.refill bs under with bufPosOut := 0 } = b₁.refill bs under := by
          rw [← hout]
          rfl
        have hlt : (src.rest (b₁.refill bs under).under).length < fuel := by
          have hlength := congrArg List.length hrest
          rw [List.length_append, hunder] at hlength
          show (src.rest under).length < fuel
          omega
        obtain ⟨result, b₂, hresult, hready', hline⟩ := ih (before ++ text) hrefill hlt
        rw [if_neg (Nat.ne_of_gt hpos), hsame, hrest]
        refine ⟨result, b₂, hresult, hready', ?_⟩
        rw [unread, hbs] at hline
        exact hline.cons htext

theorem ReadsLine.delivers {eofOk : Bool} {terminator : UInt8} {stream rest : Bytes}
    {result : Except Error Bytes} (h : ReadsLine eofOk terminator [] stream result rest) :
    Delivers stream (.readLine eofOk terminator) (.ofExcept result) rest := by
  rcases h with ⟨text, htext, rfl, rfl⟩ | ⟨hstream, rfl, rfl⟩
  · exact .line htext
  · cases eofOk with
    | true => exact .lastLine hstream
    | false => exact .lineEof hstream

theorem Ready.step_fill {cap : Nat → Nat} (hcap : ∀ n, 0 < n → 0 < cap n ∧ cap n ≤ n) {op : Op}
    {len : Nat} (hop : op.exactly? = some len) (h : Ready b) :
    ∃ delivery b', BufferedSource.fill src cap len len b = (delivery, b') ∧ Ready b' ∧
      Delivers (unread src b) op delivery (unread src b') := by
  obtain ⟨⟨data, error⟩, b', hfill, hready, hunread, herror⟩ := h.fill hcap (Nat.le_refl len)
  refine ⟨_, b', hfill, hready, ?_⟩
  rw [hunread]
  cases error with
  | none => exact .exactly (herror ▸ hop)
  | some e =>
    obtain ⟨he, hlt, hnil⟩ := herror
    rw [hnil, List.append_nil]
    exact .exactlyEof hop hlt he

variable (src) in
theorem Ready.step (h : Ready b) (op : Op) :
    ∃ delivery b', b.step src op = (delivery, b') ∧ Ready b' ∧
      Delivers (unread src b) op delivery (unread src b') := by
  have hcap : ∀ bound, 0 < bound → ∀ n, 0 < n → 0 < min n bound ∧ min n bound ≤ n :=
    fun bound hbound n hn => ⟨Nat.lt_min.mpr ⟨hn, hbound⟩, Nat.min_le_left n bound⟩
  cases op with
  | read len =>
    obtain ⟨result, b', hread, hready, hresult⟩ := h.read src len
    refine ⟨.ofExcept result, b', by rw [BufferedSource.step, hread]; rfl, hready, ?_⟩
    cases result with
    | ok data =>
      obtain ⟨hdata, hle, hne⟩ := hresult
      rw [hdata]
      exact .read hle hne
    | error e =>
      obtain ⟨he, hnil, hnil'⟩ := hresult
      rw [hnil, hnil']
      exact .readEof he
  | readLine eofOk terminator =>
    obtain ⟨result, b', hloop, hready, hline⟩ :=
      h.allocate.readLineLoop src eofOk terminator [] (Nat.lt_succ_self _)
    refine ⟨.ofExcept result, b', ?_, hready, hline.delivers⟩
    rw [BufferedSource.step, BufferedSource.readLine]
    exact congrArg (Prod.map Delivery.ofExcept id) hloop
  | readExact len => exact h.step_fill (fun n hn => ⟨hn, Nat.le_refl n⟩) rfl
  | drainInto len => exact h.step_fill (hcap 65536 (by decide)) rfl
  | skip len => exact h.step_fill (hcap 8192 (by decide)) rfl

theorem Ready.run (ops : List Op) (h : Ready b) :
    Ready (b.run src ops).2 ∧
      DeliversAll (unread src b) ops (b.run src ops).1 (unread src (b.run src ops).2) := by
  induction ops generalizing b with
  | nil => exact ⟨h, .nil _⟩
  | cons op ops ih =>
    obtain ⟨delivery, b', hstep, hready, hdelivers⟩ := h.step src op
    obtain ⟨hready', hall⟩ := ih hready
    rw [BufferedSource.run, hstep]
    exact ⟨hready', .cons hdelivers hall⟩

end BufferedSource

/-- Whatever the size of the buffer, and however the bytes arrive, the calls deliver those of the
stream. -/
theorem bufferedSource_delivers {ρ : Type} (src : Unbuffered ρ) (under : ρ) {bufSize : Nat}
    (room : 0 < bufSize) (ops : List Op) :
    DeliversAll (src.rest under) ops
      (BufferedSource.run src { bufSize, under } ops).1
      (BufferedSource.unread src (BufferedSource.run src { bufSize, under } ops).2) :=
  ((BufferedSource.ready_new room under).run ops).2

theorem bufferedSource_delivers_lines :
    DeliversAll (str "ab\ncde") [.readLine false 10, .read 3, .readLine true 10]
      [{ data := str "ab" }, { data := str "c" }, { data := str "de" }] [] :=
  bufferedSource_delivers FdSource.unbuffered { data := str "ab\ncde", sizes := [1] }
    (show 0 < 3 by decide) [.readLine false 10, .read 3, .readLine true 10]

/-- Nothing can be read through a buffer without room. -/
theorem not_delivers_without_room :
    ¬∀ (ρ : Type) (src : Unbuffered ρ) (under : ρ) (bufSize : Nat) (ops : List Op),
      DeliversAll (src.rest under) ops
        (BufferedSource.run src { bufSize, under } ops).1
        (BufferedSource.unread src (BufferedSource.run src { bufSize, under } ops).2) := by
  intro hall
  have h := hall FdSource FdSource.unbuffered { data := [97, 10] } 0 [.readLine true 10]
  have hrun : (BufferedSource.run FdSource.unbuffered
      { bufSize := 0, under := { data := [97, 10] } } [.readLine true 10]).1 = [{}] := by decide
  rw [hrun] at h
  cases h with
  | cons hop _ =>
    exact absurd (congrArg Prod.fst (hop.eq_deliver nofun)) (show [] ≠ [97] by decide)

theorem deliveries_eq_of_rest_eq {ρ ρ' : Type} {src : Unbuffered ρ} {src' : Unbuffered ρ'}
    {under : ρ} {under' : ρ'} (hrest : src.rest under = src'.rest under') {bufSize bufSize' : Nat}
    (room : 0 < bufSize) (room' : 0 < bufSize') {ops : List Op} (hops : ∀ len, Op.read len ∉ ops) :
    (BufferedSource.run src { bufSize, under } ops).1.map (·.data) =
      (BufferedSource.run src' { bufSize := bufSize', under := under' } ops).1.map (·.data) := by
  have hrun : DeliversAll (src.rest under) ops _ _ :=
    ((BufferedSource.ready_new room under).run ops).2
  have hrun' : DeliversAll (src'.rest under') ops _ _ :=
    ((BufferedSource.ready_new room' under').run ops).2
  rw [hrest] at hrun
  exact (hrun.unique hrun' hops).1

end Nix.Util.BufferedSources
