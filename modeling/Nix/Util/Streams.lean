import Nix.Lib.Channels
import Nix.Lib.SortedList
import Nix.Util.StringSource

/-!
What `serialise.cc` reads and writes, byte by byte.
-/

set_option linter.dupNamespace false

namespace Nix.Util.Streams

open Lib.Channels Lib.SortedList Util.Types Util.Serialise Util.StringSource

/-- A program with a `Source` and a `Sink`. -/
abbrev Conn := Program UInt8 Error

def readNum (max : Nat) : Conn Nat := do
  let buf ← Program.read 8
  let n := readLittleEndian buf
  Program.failIf (n > max)
    ⟨.serialisationError, ⟨"serialised integer %d is too large for type '%s'", [decimal n]⟩⟩
  return n

def readInt : Conn UInt32 := do
  return UInt32.ofNat (← readNum (2 ^ 32 - 1))

def readPadding (len : Nat) : Conn Unit :=
  if len % 8 ≠ 0 then do
    let zero ← Program.read (8 - len % 8)
    Program.failIf (zero.any (· ≠ 0)) ⟨.serialisationError, ⟨"non-zero padding", []⟩⟩
  else
    return ()

/-- `readString`, with the largest `size_t` as the limit. -/
def readString : Conn Bytes := do
  let len ← readNum uint64Max
  let res ← Program.read len
  readPadding len
  return res

abbrev StringSet := SortedSet (compare : Bytes → Bytes → Ordering)

/-- The loop of `readStrings`. -/
def insertStrings (ss : StringSet) : Nat → Conn StringSet
  | 0 => return ss
  | count + 1 => do
      let s ← readString
      insertStrings (ss.insert s) count

def readStrings : Conn StringSet := do
  let count ← readNum uint64Max
  insertStrings .empty count

def writeStrings (ss : StringSet) : Bytes :=
  writeUint64 ss.elems.length ++ ss.elems.flatMap writeString

/-- The sizes of a set of strings and of its strings are of type `size_t`. -/
structure SizeT (ss : StringSet) : Prop where
  size : ss.elems.length < 2 ^ 64
  length : ∀ s ∈ ss, s.length < 2 ^ 64

theorem reads_readNum (max : Nat) :
    (readNum max).Reads fun n bs => bs = writeUint64 n ∧ n ≤ max ∧ n < 2 ^ 64 := by
  intro ins outs n
  rw [readNum, (Program.reads_read 8).returns_bind]
  constructor
  · rintro ⟨buf, xs, ys, rfl, ⟨rfl, hbuf⟩, h⟩
    obtain ⟨hmax, rfl, rfl, rfl⟩ := Program.returns_failIf_bind.mp h
    have hlt := readLittleEndian_lt xs
    rw [hbuf] at hlt
    exact ⟨rfl, by rw [List.append_nil, writeUint64_readLittleEndian hbuf], by omega, hlt⟩
  · rintro ⟨rfl, rfl, hmax, hn⟩
    have hread : readLittleEndian (writeUint64 n) = n := by
      rw [readLittleEndian_writeUint64, Nat.mod_eq_of_lt hn]
    refine ⟨writeUint64 n, writeUint64 n, [], (List.append_nil _).symm, ⟨rfl, rfl⟩, ?_⟩
    rw [hread]
    exact Program.returns_failIf_bind.mpr ⟨by omega, rfl, rfl, rfl⟩

theorem reads_readInt : readInt.Reads fun n bs => bs = writeUint64 n.toNat := by
  refine ((reads_readNum _).bind fun n => Program.reads_pure (UInt32.ofNat n)).congr fun n bs => ?_
  constructor
  · rintro ⟨m, xs, ys, rfl, ⟨rfl, hmax, -⟩, rfl, rfl⟩
    have hlt : m < UInt32.size := Nat.lt_succ_of_le hmax
    rw [List.append_nil, UInt32.toNat_ofNat_of_lt' hlt]
  · rintro rfl
    have hlt := n.toNat_lt
    exact ⟨n.toNat, _, [], (List.append_nil _).symm, ⟨rfl, by omega, by omega⟩, rfl,
      UInt32.ofNat_toNat.symm⟩

theorem reads_readPadding (len : Nat) :
    (readPadding len).Reads fun _ bs => bs = writePadding len := by
  rw [readPadding]
  split
  next h =>
    have hlen : paddingLength len = 8 - len % 8 := by rw [paddingLength, if_pos h]
    intro ins outs u
    rw [(Program.reads_read _).returns_bind]
    constructor
    · rintro ⟨zero, xs, ys, rfl, ⟨rfl, hzero⟩, hfail⟩
      rw [Program.failIf] at hfail
      split at hfail
      next => cases hfail
      next hall =>
        obtain ⟨rfl, rfl, -⟩ := hfail
        rw [List.append_nil]
        refine ⟨rfl, eq_writePadding_iff.mpr ⟨hzero.trans hlen.symm, fun b hb => ?_⟩⟩
        by_contra hne
        exact hall (List.any_eq_true.mpr ⟨b, hb, decide_eq_true hne⟩)
    · rintro ⟨rfl, rfl⟩
      refine ⟨writePadding len, writePadding len, [], (List.append_nil _).symm,
        ⟨rfl, (writePadding_length len).trans hlen⟩, ?_⟩
      rw [Program.failIf, if_neg]
      · exact ⟨rfl, rfl, rfl⟩
      · intro hany
        obtain ⟨b, hb, hne⟩ := List.any_eq_true.mp hany
        exact of_decide_eq_true hne ((eq_writePadding_iff.mp rfl).2 b hb)
  next h =>
    have hnil : writePadding len = [] := by rw [writePadding, paddingLength, if_neg h]; rfl
    rw [hnil]
    refine (Program.reads_pure ()).congr fun u bs => ?_
    exact and_iff_left rfl

theorem reads_readString :
    readString.Reads fun data bs => bs = writeString data ∧ data.length < 2 ^ 64 := by
  refine ((reads_readNum _).bind fun len => (Program.reads_read len).bind fun res =>
    (reads_readPadding len).bind fun _ => Program.reads_pure res).congr fun data bs => ?_
  constructor
  · rintro ⟨len, xs, ys, rfl, ⟨rfl, -, hlen⟩, res, xs, ys, rfl, ⟨rfl, rfl⟩, -, xs', ys, rfl, rfl,
      rfl, rfl⟩
    rw [List.append_nil, writeString, List.append_assoc]
    exact ⟨rfl, hlen⟩
  · rintro ⟨rfl, hlen⟩
    refine ⟨data.length, _, data ++ (writePadding data.length ++ []), ?_,
      ⟨rfl, by unfold uint64Max; omega, hlen⟩, data, data, _, rfl, ⟨rfl, rfl⟩, (), _, [], rfl, rfl,
      rfl, rfl⟩
    rw [List.append_nil, writeString, List.append_assoc]

theorem reads_insertStrings (ss : StringSet) (count : Nat) :
    (insertStrings ss count).Reads fun res bs => ∃ l : List Bytes, l.length = count ∧
      bs = l.flatMap writeString ∧ res = l.foldl SortedSet.insert ss ∧
      ∀ s ∈ l, s.length < 2 ^ 64 := by
  induction count generalizing ss with
  | zero =>
      refine (Program.reads_pure ss).congr fun res bs => ?_
      constructor
      · rintro ⟨rfl, rfl⟩
        exact ⟨[], rfl, rfl, rfl, by simp⟩
      · rintro ⟨l, hl, rfl, rfl, -⟩
        rw [List.length_eq_zero_iff.mp hl]
        exact ⟨rfl, rfl⟩
  | succ count ih =>
      refine (reads_readString.bind fun s => ih (ss.insert s)).congr fun res bs => ?_
      constructor
      · rintro ⟨s, xs, ys, rfl, ⟨rfl, hs⟩, l, rfl, rfl, rfl, hl⟩
        exact ⟨s :: l, rfl, rfl, rfl, List.forall_mem_cons.mpr ⟨hs, hl⟩⟩
      · rintro ⟨l, hlen, rfl, rfl, hl⟩
        obtain ⟨s, l, rfl⟩ := List.exists_cons_of_length_eq_add_one hlen
        obtain ⟨hs, hl⟩ := List.forall_mem_cons.mp hl
        exact ⟨s, _, _, rfl, ⟨rfl, hs⟩, l, Nat.succ.inj hlen, rfl, rfl, hl⟩

theorem flatMap_writeString_append_inj {l l' : List Bytes} {r r' : Bytes}
    (hlen : l.length = l'.length) (hl : ∀ s ∈ l, s.length < 2 ^ 64)
    (hl' : ∀ s ∈ l', s.length < 2 ^ 64)
    (h : l.flatMap writeString ++ r = l'.flatMap writeString ++ r') : l = l' ∧ r = r' := by
  induction l generalizing l' with
  | nil =>
      rw [List.length_eq_zero_iff.mp hlen.symm] at h ⊢
      exact ⟨rfl, h⟩
  | cons s l ih =>
      obtain ⟨s', l', rfl⟩ := List.exists_cons_of_length_eq_add_one hlen.symm
      obtain ⟨hs, htail⟩ := List.forall_mem_cons.mp hl
      obtain ⟨hs', htail'⟩ := List.forall_mem_cons.mp hl'
      rw [List.flatMap_cons, List.flatMap_cons, List.append_assoc, List.append_assoc,
        writeString_append_inj hs hs'] at h
      obtain ⟨rfl, hrest⟩ := h
      obtain ⟨rfl, hr⟩ := ih (Nat.succ.inj hlen) htail htail' hrest
      exact ⟨rfl, hr⟩

theorem reads_readStrings :
    readStrings.Reads fun res bs => ∃ l : List Bytes, l.length < 2 ^ 64 ∧
      bs = writeUint64 l.length ++ l.flatMap writeString ∧ res = l.foldl SortedSet.insert .empty ∧
      ∀ s ∈ l, s.length < 2 ^ 64 := by
  refine ((reads_readNum _).bind fun count => reads_insertStrings .empty count).congr
    fun res bs => ?_
  constructor
  · rintro ⟨_, _, _, rfl, ⟨rfl, -, hcount⟩, l, rfl, rfl, rfl, hl⟩
    exact ⟨l, hcount, rfl, rfl, hl⟩
  · rintro ⟨l, hlen, rfl, rfl, hl⟩
    exact ⟨l.length, _, _, rfl, ⟨rfl, by unfold uint64Max; omega, hlen⟩, l, rfl, rfl, rfl, hl⟩

/-- What `readStrings` reads of what begins with a set is the set. -/
theorem readStrings_unique {ss res : StringSet} {bs outs r r' : Bytes} (hss : SizeT ss)
    (h : readStrings.Returns bs outs res) (heq : bs ++ r = writeStrings ss ++ r') :
    outs = [] ∧ bs = writeStrings ss ∧ res = ss := by
  obtain ⟨rfl, l, hcount, rfl, rfl, hl⟩ := (reads_readStrings _ _ _).mp h
  rw [writeStrings, List.append_assoc, List.append_assoc,
    writeUint64_append_inj hcount hss.size] at heq
  obtain ⟨hlen, hstrings⟩ := heq
  obtain ⟨rfl, -⟩ := flatMap_writeString_append_inj hlen hl (fun s hs => hss.length s hs) hstrings
  exact ⟨rfl, rfl, SortedSet.foldl_insert_elems ss⟩

end Nix.Util.Streams
