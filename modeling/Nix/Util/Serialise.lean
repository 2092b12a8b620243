import Mathlib.Tactic
import Nix.Lib.PrefixReader
import Nix.Util.Types

set_option linter.dupNamespace false

namespace Nix.Util.Serialise

open Util.Types Lib.PrefixReader

/-- A `Source` with state `σ`: `read` stores up to the given number of bytes,
at least one of them; `skip` is virtual and passes over exactly that many. The
number of bytes still unread bounds every loop over the source. -/
structure Source (σ : Type) where
  read : Nat → σ → Except Error (Bytes × σ)
  skip : Nat → σ → Except Error σ
  unread : σ → Nat

/-- The loop of `Source::operator()`, `drainInto` and `skip`: ask `read` for
`cap len` bytes at a time until `len` bytes have arrived. -/
def fill {σ : Type} (read : Nat → σ → Except Error (Bytes × σ)) (cap : Nat → Nat) :
    Nat → Nat → σ → Except Error (Bytes × σ)
  | _, 0, s => .ok ([], s)
  | 0, _ + 1, _ => .error .diverges
  | fuel + 1, len + 1, s => do
      let (chunk, s) ← read (cap (len + 1)) s
      let (rest, s) ← fill read cap fuel (len + 1 - chunk.length) s
      return (chunk ++ rest, s)

namespace Source

variable {σ : Type}

/-- `Source::operator()(char * data, size_t len)`. -/
def readExact (src : Source σ) (len : Nat) : Reader σ Error Bytes :=
  fun s => fill src.read id len len s

/-- `Source::drainInto(Sink &, uint64_t len)`, with the drained bytes. -/
def drainInto (src : Source σ) (len : Nat) : Reader σ Error Bytes :=
  fun s => fill src.read (min · 65536) len len s

/-- `Source::skip(size_t len)` where it is not overridden. -/
def skipByReading (read : Nat → σ → Except Error (Bytes × σ)) (len : Nat) (s : σ) :
    Except Error σ := do
  let (_, s) ← fill read (min · 8192) len len s
  return s

end Source

/-- `StringSource`: the state is what `s` still holds after `pos`. -/
def stringSource : Source Bytes where
  read len s :=
    if s = [] then .error ⟨.endOfFile, ⟨"end of string reached", []⟩⟩
    else .ok (s.take len, s.drop len)
  skip len s :=
    if len > s.length then .error ⟨.endOfFile, ⟨"end of string reached", []⟩⟩
    else .ok (s.drop len)
  unread := List.length

/-- `TeeSource`: what is read from `orig` is also written to a sink, whose
contents are the second component of the state. It inherits `Source::skip`. -/
def teeSource {σ : Type} (orig : Source σ) : Source (σ × Bytes) where
  read := teeRead
  skip := Source.skipByReading teeRead
  unread s := orig.unread s.1
where
  teeRead (len : Nat) (s : σ × Bytes) : Except Error (Bytes × (σ × Bytes)) := do
    let (data, orig') ← orig.read len s.1
    return (data, (orig', s.2 ++ data))

/-- `Sink & operator<<(Sink &, uint64_t)`: eight bytes, little endian. -/
def writeUint64 (n : Nat) : Bytes :=
  [UInt8.ofNat (n &&& 0xff), UInt8.ofNat ((n >>> 8) &&& 0xff),
    UInt8.ofNat ((n >>> 16) &&& 0xff), UInt8.ofNat ((n >>> 24) &&& 0xff),
    UInt8.ofNat ((n >>> 32) &&& 0xff), UInt8.ofNat ((n >>> 40) &&& 0xff),
    UInt8.ofNat ((n >>> 48) &&& 0xff), UInt8.ofNat ((n >>> 56) &&& 0xff)]

/-- The number of padding bytes after `len` bytes of data. -/
def paddingLength (len : Nat) : Nat :=
  if len % 8 ≠ 0 then 8 - len % 8 else 0

def writePadding (len : Nat) : Bytes :=
  List.replicate (paddingLength len) 0

def writeString (data : Bytes) : Bytes :=
  writeUint64 data.length ++ data ++ writePadding data.length

section Reading

variable {σ : Type} (src : Source σ)

/-- `readLittleEndian<uint64_t>`. -/
def readLittleEndian : Bytes → Nat
  | [] => 0
  | b :: bs => b.toNat + 256 * readLittleEndian bs

/-- `readNum<T>`, for a type whose largest value is `max`. -/
def readNum (max : Nat) : Reader σ Error Nat := do
  let buf ← src.readExact 8
  let n := readLittleEndian buf
  throwIf (n > max)
    ⟨.serialisationError,
      ⟨"serialised integer %d is too large for type '%s'", [decimal n]⟩⟩
  return n

/-- The largest value of `uint64_t`, and of `size_t` on a 64-bit platform. -/
def uint64Max : Nat := 2 ^ 64 - 1

def readLongLong : Reader σ Error Nat := readNum src uint64Max

def readPadding (len : Nat) : Reader σ Error Unit :=
  if len % 8 ≠ 0 then do
    let zero ← src.readExact (8 - len % 8)
    throwIf (zero.any (· ≠ 0)) ⟨.serialisationError, ⟨"non-zero padding", []⟩⟩
  else
    return ()

def readString (max : Nat) : Reader σ Error Bytes := do
  let len ← readNum src uint64Max
  throwIf (len > max) ⟨.serialisationError, ⟨"string is too long", []⟩⟩
  let res ← src.readExact len
  readPadding src len
  return res

end Reading

end Nix.Util.Serialise
