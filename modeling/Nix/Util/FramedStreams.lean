import Nix.Lib.Results
import Nix.Util.StringSource

/-!
Buffered sinks, and streams that are sent in frames.
-/

set_option linter.dupNamespace false

namespace Nix.Util.FramedStreams

open Util.Types Util.Serialise Util.StringSource Lib.PrefixReader

/-- What is in the buffer, and the state of what it is written to. -/
structure BufferedSink (τ : Type) where
  buffer : Bytes := []
  out : τ
  deriving DecidableEq

namespace BufferedSink

variable {τ : Type} (writeUnbuffered : Bytes → τ → Except Error τ)

def flush (sink : BufferedSink τ) : Except Error (BufferedSink τ) :=
  if sink.buffer.length = 0 then .ok sink
  else do
    let out ← writeUnbuffered sink.buffer sink.out
    return { buffer := [], out }

/-- The loop over the data. Every round takes some of it. -/
def writeLoop (bufSize : Nat) : Nat → Bytes → BufferedSink τ → Except Error (BufferedSink τ)
  | _, [], sink => .ok sink
  | 0, _ :: _, _ => .error .diverges
  | fuel + 1, data, sink =>
      if data.length ≥ bufSize - sink.buffer.length then do
        let sink ← sink.flush writeUnbuffered
        let out ← writeUnbuffered data sink.out
        return { sink with out }
      else do
        let n := min data.length (bufSize - sink.buffer.length)
        let sink := { sink with buffer := sink.buffer ++ data.take n }
        let sink ← if sink.buffer.length = bufSize then sink.flush writeUnbuffered else .ok sink
        writeLoop bufSize fuel (data.drop n) sink

def write (bufSize : Nat) (data : Bytes) (sink : BufferedSink τ) :
    Except Error (BufferedSink τ) :=
  writeLoop writeUnbuffered bufSize data.length data sink

end BufferedSink

def send (data sent : Bytes) : Except Error Bytes :=
  .ok (sent ++ data)

/-- The default of `bufSize`. -/
def defaultBufSize : Nat := 32 * 1024

/-- The sink `to` of a `FramedSink`, with its buffer and what it has passed on. -/
abbrev Target := BufferedSink Bytes

section Sending

variable (toBufSize : Nat) (checkError : Target → Except Error Unit)

def Target.write (data : Bytes) (target : Target) : Except Error Target :=
  BufferedSink.write send toBufSize data target

/-- `FramedSink::writeUnbuffered`. -/
def writeFrame (data : Bytes) (target : Target) : Except Error Target := do
  checkError target
  let target ← target.write toBufSize (writeUint64 data.length)
  target.write toBufSize data

/-- `~FramedSink`. -/
def closeFrames (target : Target) : Except Error Target := do
  let target ← target.write toBufSize (writeUint64 0)
  target.flush send

/-- Some writes to a `FramedSink`, which is then flushed and destroyed. -/
def sendFramed (writes : List Bytes) (target : Target) : Except Error Target := do
  let sink ← writes.foldlM
    (fun sink data =>
      BufferedSink.write (writeFrame toBufSize checkError) defaultBufSize data sink)
    ({ out := target } : BufferedSink Target)
  let sink ← sink.flush (writeFrame toBufSize checkError)
  closeFrames toBufSize sink.out

end Sending

def readInt {σ : Type} (src : Source σ) : Reader σ Error Nat :=
  readNum src (2 ^ 32 - 1)

structure FramedSource (σ : Type) where
  inner : σ
  eof : Bool := false
  pending : Bytes := []
  pos : Nat := 0
  deriving DecidableEq

namespace FramedSource

variable {σ : Type} (src : Source σ)

/-- The end of `read`, from the assertion on. -/
def readPending (len : Nat) (s : FramedSource σ) : Except Error (Bytes × FramedSource σ) :=
  if s.pending.length > s.pos then
    let n := min len (s.pending.length - s.pos)
    .ok ((s.pending.drop s.pos).take n, { s with pos := s.pos + n })
  else .error (.assertion "pending.size() > pos")

def read (len : Nat) (s : FramedSource σ) : Except Error (Bytes × FramedSource σ) :=
  if s.eof then .error ⟨.endOfFile, ⟨"reached end of FramedSource", []⟩⟩
  else if s.pos ≥ s.pending.length then do
    let (n, inner) ← readInt src s.inner
    if n = 0 then return ([], { s with inner, eof := true })
    else do
      let (pending, inner) ← src.readExact n inner
      readPending len { s with inner, pending, pos := 0 }
  else readPending len s

/-- The loop of the destructor, which reads the frames that are left. -/
def drainFrames : Nat → σ → Except Error σ
  | 0, _ => .error .diverges
  | fuel + 1, inner => do
      let (n, inner) ← readInt src inner
      if n = 0 then return inner
      else do
        let (_, inner) ← src.readExact n inner
        drainFrames fuel inner

/-- `~FramedSource`, with the state of the underlying source after it. An error would be ignored
and leave the underlying source somewhere in the stream. -/
def destroy (s : FramedSource σ) : Except Error σ :=
  if s.eof then .ok s.inner else drainFrames src (src.unread s.inner + 1) s.inner

def reads : List Nat → FramedSource σ → Except Error (List Bytes × FramedSource σ)
  | [], s => .ok ([], s)
  | len :: lens, s => do
      let (chunk, s) ← read src len s
      let (chunks, s) ← reads lens s
      return (chunk :: chunks, s)

end FramedSource

open Lib.PrefixReader hiding bind_eq_ok pure_eq_ok
open Lib.Results

namespace BufferedSink

variable {τ : Type} {writeUnbuffered : Bytes → τ → Except Error τ} {bufSize : Nat}

theorem write_eq (data : Bytes) (sink : BufferedSink τ) :
    sink.write writeUnbuffered bufSize data =
      if data = [] then .ok sink
      else if bufSize - sink.buffer.length ≤ data.length then do
        let sink ← sink.flush writeUnbuffered
        let out ← writeUnbuffered data sink.out
        return { sink with out }
      else .ok { sink with buffer := sink.buffer ++ data } := by
  cases data with
  | nil => rw [write, List.length_nil, writeLoop, if_pos rfl]
  | cons c data =>
    rw [if_neg (List.cons_ne_nil c data), write, List.length_cons, writeLoop, List.length_cons]
    · split
      next hge => rfl
      next hlt =>
        have hn : min (data.length + 1) (bufSize - sink.buffer.length) = (c :: data).length := by
          rw [List.length_cons]
          omega
        have hroom : ¬(sink.buffer ++ c :: data).length = bufSize := by
          rw [List.length_append, List.length_cons]
          omega
        simp only [hn, List.take_length, List.drop_length, if_neg hroom, bind, Except.bind]
        rw [writeLoop]
    · exact nofun

/-- Every call of `writeUnbuffered`, which gets some data below the limit, is logged. -/
def Logs (writeUnbuffered : Bytes → τ → Except Error τ) (limit : Nat)
    (P : τ → List Bytes → Prop) : Prop :=
  ∀ data out out' frames, data ≠ [] → data.length < limit → writeUnbuffered data out = .ok out' →
    P out frames → P out' (frames ++ [data])

variable {limit : Nat} {P : τ → List Bytes → Prop} {frames : List Bytes}
  {sink sink' : BufferedSink τ}

theorem flush_logs (hlogs : Logs writeUnbuffered limit P) (hbuffer : sink.buffer.length < limit)
    (hP : P sink.out frames) (h : sink.flush writeUnbuffered = .ok sink') :
    sink'.buffer = [] ∧ ∃ frames', P sink'.out frames' ∧
      frames'.flatten = frames.flatten ++ sink.buffer := by
  unfold flush at h
  split at h
  next hempty =>
    cases h
    have hnil := List.length_eq_zero_iff.mp hempty
    exact ⟨hnil, frames, hP, by rw [hnil, List.append_nil]⟩
  next hne =>
    obtain ⟨out, hout, h⟩ := bind_eq_ok.mp h
    cases h
    have hne' : sink.buffer ≠ [] := fun heq => hne (by rw [heq]; rfl)
    exact ⟨rfl, _, hlogs _ _ _ _ hne' hbuffer hout hP, by simp⟩

theorem write_logs (hlogs : Logs writeUnbuffered limit P) (hsize : bufSize ≤ limit)
    (hbuffer : sink.buffer.length < limit) {data : Bytes} (hdata : data.length < limit)
    (hP : P sink.out frames) (h : sink.write writeUnbuffered bufSize data = .ok sink') :
    sink'.buffer.length < limit ∧ ∃ frames', P sink'.out frames' ∧
      frames'.flatten ++ sink'.buffer = frames.flatten ++ sink.buffer ++ data := by
  rw [write_eq] at h
  split at h
  next hnil =>
    cases h
    exact ⟨hbuffer, frames, hP, by rw [hnil, List.append_nil]⟩
  next hne =>
    split at h
    next hge =>
      obtain ⟨sink₁, hflush, h⟩ := bind_eq_ok.mp h
      obtain ⟨out, hout, h⟩ := bind_eq_ok.mp h
      cases h
      obtain ⟨hnil, frames₁, hP₁, hframes₁⟩ := flush_logs hlogs hbuffer hP hflush
      refine ⟨?_, _, hlogs _ _ _ _ hne hdata hout hP₁, ?_⟩
      · rw [hnil]
        exact Nat.zero_lt_of_lt hdata
      · simp [hnil, hframes₁]
    next hlt =>
      cases h
      refine ⟨?_, frames, hP, (List.append_assoc _ _ _).symm⟩
      rw [List.length_append]
      omega

theorem flush_returns (h : ∀ data out, ∃ out', writeUnbuffered data out = .ok out')
    (sink : BufferedSink τ) : ∃ sink', sink.flush writeUnbuffered = .ok sink' := by
  unfold flush
  split
  · exact ⟨sink, rfl⟩
  · obtain ⟨out, hout⟩ := h sink.buffer sink.out
    exact ⟨⟨[], out⟩, bind_eq_ok.mpr ⟨out, hout, rfl⟩⟩

theorem write_returns (h : ∀ data out, ∃ out', writeUnbuffered data out = .ok out')
    (data : Bytes) (sink : BufferedSink τ) :
    ∃ sink', sink.write writeUnbuffered bufSize data = .ok sink' := by
  rw [write_eq]
  split
  · exact ⟨sink, rfl⟩
  · split
    · obtain ⟨sink₁, hflush⟩ := flush_returns h sink
      obtain ⟨out, hout⟩ := h data sink₁.out
      exact ⟨{ sink₁ with out }, bind_eq_ok.mpr ⟨sink₁, hflush, bind_eq_ok.mpr ⟨out, hout, rfl⟩⟩⟩
    · exact ⟨_, rfl⟩

end BufferedSink

def Target.total (target : Target) : Bytes :=
  target.out ++ target.buffer

theorem logs_send (start : Bytes) (limit : Nat) :
    BufferedSink.Logs send limit fun out frames => out = start ++ frames.flatten := by
  rintro data out out' frames - - h rfl
  cases h
  simp

theorem Target.write_eq_ok {bufSize : Nat} {data : Bytes} {target target' : Target}
    (h : target.write bufSize data = .ok target') :
    target'.total = target.total ++ data := by
  have hlogs := logs_send target.out (bufSize + target.buffer.length + data.length + 1)
  have hstart : target.out = target.out ++ ([] : List Bytes).flatten := (List.append_nil _).symm
  obtain ⟨-, frames, hout, hframes⟩ := BufferedSink.write_logs hlogs (by omega) (by omega)
    (by omega) hstart h
  rw [total, hout, List.append_assoc, hframes]
  simp [total]

theorem Target.write_returns (bufSize : Nat) (data : Bytes) (target : Target) :
    ∃ target', target.write bufSize data = .ok target' :=
  BufferedSink.write_returns (fun _ _ => ⟨_, rfl⟩) data target

theorem Target.flush_eq (target : Target) :
    target.flush send = .ok ⟨[], target.total⟩ := by
  unfold BufferedSink.flush
  split
  next hempty =>
    obtain ⟨buffer, out⟩ := target
    obtain rfl := List.length_eq_zero_iff.mp hempty
    rw [total, List.append_nil]
  next => rfl

def encodeFrames (frames : List Bytes) : Bytes :=
  frames.flatMap fun frame => writeUint64 frame.length ++ frame

/-- A frame that is not taken for the end of the stream, and whose length can be read. -/
def IsFrame (frame : Bytes) : Prop :=
  frame ≠ [] ∧ frame.length < 2 ^ 32

section Sending

variable {toBufSize : Nat} {checkError : Target → Except Error Unit}

theorem logs_writeFrame (start : Bytes) :
    BufferedSink.Logs (writeFrame toBufSize checkError) (2 ^ 32) fun target frames =>
      target.total = start ++ encodeFrames frames ∧ ∀ frame ∈ frames, IsFrame frame := by
  rintro data target target' frames hne hlen h ⟨htotal, hframes⟩
  obtain ⟨-, -, h⟩ := bind_eq_ok.mp h
  obtain ⟨target₁, hlength, hdata⟩ := bind_eq_ok.mp h
  refine ⟨?_, fun frame hframe => ?_⟩
  · rw [Target.write_eq_ok hdata, Target.write_eq_ok hlength, htotal, encodeFrames, encodeFrames]
    simp
  · rcases List.mem_append.mp hframe with hmem | hmem
    · exact hframes frame hmem
    · rw [List.mem_singleton.mp hmem]
      exact ⟨hne, hlen⟩

theorem writeFrame_returns (h : ∀ target, checkError target = .ok ()) (data : Bytes)
    (target : Target) : ∃ target', writeFrame toBufSize checkError data target = .ok target' := by
  obtain ⟨target₁, h₁⟩ := target.write_returns toBufSize (writeUint64 data.length)
  obtain ⟨target₂, h₂⟩ := target₁.write_returns toBufSize data
  exact ⟨target₂, bind_eq_ok.mpr ⟨(), h target, bind_eq_ok.mpr ⟨target₁, h₁, h₂⟩⟩⟩

theorem closeFrames_eq (target : Target) :
    closeFrames toBufSize target =
      .ok ⟨[], target.total ++ writeUint64 0⟩ := by
  obtain ⟨target₁, h₁⟩ := target.write_returns toBufSize (writeUint64 0)
  rw [closeFrames, h₁, ← Target.write_eq_ok h₁]
  exact target₁.flush_eq

theorem foldlM_write_logs {writes : List Bytes} (hwrites : ∀ data ∈ writes, data.length < 2 ^ 32)
    {start : Bytes} {frames : List Bytes} {sink sink' : BufferedSink Target}
    (hbuffer : sink.buffer.length < 2 ^ 32)
    (hP : sink.out.total = start ++ encodeFrames frames ∧ ∀ frame ∈ frames, IsFrame frame)
    (h : writes.foldlM
      (fun sink data =>
        BufferedSink.write (writeFrame toBufSize checkError) defaultBufSize data sink) sink =
      .ok sink') :
    sink'.buffer.length < 2 ^ 32 ∧ ∃ frames',
      (sink'.out.total = start ++ encodeFrames frames' ∧ ∀ frame ∈ frames', IsFrame frame) ∧
        frames'.flatten ++ sink'.buffer = frames.flatten ++ sink.buffer ++ writes.flatten := by
  induction writes generalizing sink frames with
  | nil =>
    cases h
    exact ⟨hbuffer, frames, hP, by simp⟩
  | cons data writes ih =>
    obtain ⟨hdata, hrest⟩ := List.forall_mem_cons.mp hwrites
    rw [List.foldlM_cons] at h
    obtain ⟨sink₁, hwrite, h⟩ := bind_eq_ok.mp h
    obtain ⟨hbuffer₁, frames₁, hP₁, hframes₁⟩ := BufferedSink.write_logs
      (logs_writeFrame start) (by decide) hbuffer hdata hP hwrite
    obtain ⟨hbuffer', frames', hP', hframes'⟩ := ih hrest hbuffer₁ hP₁ h
    refine ⟨hbuffer', frames', hP', ?_⟩
    rw [hframes', hframes₁, List.flatten_cons]
    simp

theorem sendFramed_eq_ok {writes : List Bytes} (hwrites : ∀ data ∈ writes, data.length < 2 ^ 32)
    {target target' : Target} (h : sendFramed toBufSize checkError writes target = .ok target') :
    ∃ frames, target' = ⟨[], target.total ++ encodeFrames frames ++ writeUint64 0⟩ ∧
      frames.flatten = writes.flatten ∧ ∀ frame ∈ frames, IsFrame frame := by
  obtain ⟨sink, hfold, h⟩ := bind_eq_ok.mp h
  obtain ⟨sink₁, hflush, h⟩ := bind_eq_ok.mp h
  have hstart : target.total = target.total ++ encodeFrames [] ∧ ∀ frame ∈ ([] : List Bytes),
      IsFrame frame := ⟨(List.append_nil _).symm, nofun⟩
  have hempty : ({ out := target } : BufferedSink Target).buffer.length < 2 ^ 32 :=
    Nat.two_pow_pos 32
  obtain ⟨hbuffer, frames, hP, hframes⟩ := foldlM_write_logs hwrites hempty hstart hfold
  obtain ⟨hnil, frames₁, ⟨htotal, hall⟩, hframes₁⟩ :=
    BufferedSink.flush_logs (logs_writeFrame target.total) hbuffer hP hflush
  refine ⟨frames₁, ?_, ?_, hall⟩
  · rw [closeFrames_eq, htotal] at h
    cases h
    rfl
  · rw [hframes₁, hframes]
    rfl

theorem sendFramed_returns (h : ∀ target, checkError target = .ok ()) (writes : List Bytes)
    (target : Target) : ∃ target', sendFramed toBufSize checkError writes target = .ok target' := by
  have hfold : ∀ (writes : List Bytes) (sink : BufferedSink Target), ∃ sink', writes.foldlM
      (fun sink data =>
        BufferedSink.write (writeFrame toBufSize checkError) defaultBufSize data sink) sink =
      .ok sink' := by
    intro writes
    induction writes with
    | nil => exact fun sink => ⟨sink, rfl⟩
    | cons data writes ih =>
      intro sink
      obtain ⟨sink₁, h₁⟩ := BufferedSink.write_returns (writeFrame_returns h) data sink
      obtain ⟨sink₂, h₂⟩ := ih sink₁
      exact ⟨sink₂, by rw [List.foldlM_cons]; exact bind_eq_ok.mpr ⟨sink₁, h₁, h₂⟩⟩
  obtain ⟨sink₁, h₁⟩ := hfold writes { out := target }
  obtain ⟨sink₂, h₂⟩ := BufferedSink.flush_returns (writeFrame_returns h) sink₁
  exact ⟨_, bind_eq_ok.mpr ⟨sink₁, h₁, bind_eq_ok.mpr ⟨sink₂, h₂, closeFrames_eq sink₂.out⟩⟩⟩

end Sending

/-- The source still delivers `left`, and `rest` is what follows the stream. -/
def Delivers (rest left : Bytes) (s : FramedSource Bytes) : Prop :=
  if s.eof then s.inner = rest ∧ left = []
  else s.pos ≤ s.pending.length ∧ ∃ frames, (∀ frame ∈ frames, IsFrame frame) ∧
    s.inner = encodeFrames frames ++ writeUint64 0 ++ rest ∧
      left = s.pending.drop s.pos ++ frames.flatten

theorem readInt_append {n : Nat} (hn : n < 2 ^ 32) (s : Bytes) :
    readInt stringSource (writeUint64 n ++ s) = .ok (n, s) :=
  (recognises_readNum (2 ^ 32 - 1)).reads ⟨rfl, by omega, by omega⟩ s

theorem readExact_append (data s : Bytes) :
    stringSource.readExact data.length (data ++ s) = .ok (data, s) :=
  (recognises_readExact data.length).reads ⟨rfl, rfl⟩ s

theorem encodeFrames_cons (frame : Bytes) (frames : List Bytes) :
    encodeFrames (frame :: frames) = writeUint64 frame.length ++ (frame ++ encodeFrames frames) := by
  rw [encodeFrames, List.flatMap_cons, List.append_assoc]
  rfl

theorem IsFrame.length_ne_zero {frame : Bytes} (h : IsFrame frame) : frame.length ≠ 0 :=
  fun hzero => h.1 (List.length_eq_zero_iff.mp hzero)

/-- What one `read` does, which delivers a part of what is left. -/
structure ReadsPart (rest : Bytes) (len : Nat) (left chunk left' : Bytes)
    (s' : FramedSource Bytes) : Prop where
  part : left = chunk ++ left'
  length_le : chunk.length ≤ len
  delivers : Delivers rest left' s'
  progress : 0 < len → left ≠ [] → chunk ≠ []
  ends : left = [] → s'.eof = true

theorem readPending_delivers {rest left : Bytes} {s : FramedSource Bytes} (len : Nat)
    (heof : s.eof = false) (hpos : s.pos < s.pending.length) (h : Delivers rest left s) :
    ∃ chunk left' s', FramedSource.readPending len s = .ok (chunk, s') ∧
      ReadsPart rest len left chunk left' s' := by
  rw [Delivers, heof] at h
  obtain ⟨-, frames, hframes, hinner, rfl⟩ := h
  have hdrop : (s.pending.drop s.pos).drop (min len (s.pending.length - s.pos)) =
      s.pending.drop (s.pos + min len (s.pending.length - s.pos)) := List.drop_drop
  have hlen : ((s.pending.drop s.pos).take (min len (s.pending.length - s.pos))).length =
      min len (s.pending.length - s.pos) := by
    rw [List.length_take, List.length_drop]
    omega
  refine ⟨(s.pending.drop s.pos).take (min len (s.pending.length - s.pos)),
    s.pending.drop (s.pos + min len (s.pending.length - s.pos)) ++ frames.flatten, _,
    by rw [FramedSource.readPending, if_pos hpos], ?_, ?_, ?_, ?_, ?_⟩
  · rw [← List.append_assoc, ← hdrop, List.take_append_drop]
  · omega
  · rw [Delivers, if_neg (by simp [heof])]
    exact ⟨by dsimp only; omega, frames, hframes, hinner, rfl⟩
  · intro hpositive _ hnil
    rw [hnil, List.length_nil] at hlen
    omega
  · intro hnil
    have hzero := congrArg List.length (List.append_eq_nil_iff.mp hnil).1
    rw [List.length_drop, List.length_nil] at hzero
    omega

theorem read_delivers {rest left : Bytes} {s : FramedSource Bytes} (heof : s.eof = false)
    (h : Delivers rest left s) (len : Nat) :
    ∃ chunk left' s', s.read stringSource len = .ok (chunk, s') ∧
      ReadsPart rest len left chunk left' s' := by
  rw [FramedSource.read, heof]
  simp only [Bool.false_eq_true, if_false]
  split
  next hge =>
    rw [Delivers, heof] at h
    obtain ⟨hle, frames, hframes, hinner, rfl⟩ := h
    rw [List.drop_of_length_le hge, List.nil_append]
    cases frames with
    | nil =>
      have hend : readInt stringSource s.inner = .ok (0, rest) := by
        rw [hinner]
        exact readInt_append (by decide) rest
      refine ⟨[], [], { s with inner := rest, eof := true }, ?_, ?_⟩
      · simp only [hend, bind, Except.bind, if_true]
        rfl
      · exact ⟨rfl, Nat.zero_le len, ⟨rfl, rfl⟩, fun _ h => absurd rfl h, fun _ => rfl⟩
    | cons frame frames =>
      obtain ⟨hframe, hframes⟩ := List.forall_mem_cons.mp hframes
      have hlength : readInt stringSource s.inner =
          .ok (frame.length, frame ++ (encodeFrames frames ++ writeUint64 0 ++ rest)) := by
        rw [hinner, encodeFrames_cons]
        simp only [List.append_assoc]
        exact readInt_append hframe.2 _
      simp only [hlength, bind, Except.bind, if_neg hframe.length_ne_zero, readExact_append]
      refine readPending_delivers len rfl (List.length_pos_of_ne_nil hframe.1) ?_
      rw [Delivers, if_neg (by simp)]
      exact ⟨Nat.zero_le _, frames, hframes, rfl, rfl⟩
  next hlt => exact readPending_delivers len heof (Nat.lt_of_not_le hlt) h

theorem drainFrames_eq {rest : Bytes} {frames : List Bytes} (h : ∀ frame ∈ frames, IsFrame frame)
    {fuel : Nat} (hfuel : frames.length < fuel) :
    FramedSource.drainFrames stringSource fuel (encodeFrames frames ++ writeUint64 0 ++ rest) =
      .ok rest := by
  induction frames generalizing fuel with
  | nil =>
    obtain ⟨fuel, rfl⟩ := Nat.exists_eq_succ_of_ne_zero (Nat.ne_zero_of_lt hfuel)
    have hend : readInt stringSource (encodeFrames [] ++ writeUint64 0 ++ rest) = .ok (0, rest) :=
      readInt_append (by decide) rest
    simp only [FramedSource.drainFrames, hend, bind, Except.bind, if_true]
    rfl
  | cons frame frames ih =>
    obtain ⟨fuel, rfl⟩ := Nat.exists_eq_succ_of_ne_zero (Nat.ne_zero_of_lt hfuel)
    obtain ⟨hframe, hframes⟩ := List.forall_mem_cons.mp h
    have hlength : readInt stringSource
        (encodeFrames (frame :: frames) ++ writeUint64 0 ++ rest) =
          .ok (frame.length, frame ++ (encodeFrames frames ++ writeUint64 0 ++ rest)) := by
      rw [encodeFrames_cons]
      simp only [List.append_assoc]
      exact readInt_append hframe.2 _
    simp only [FramedSource.drainFrames, hlength, bind, Except.bind,
      if_neg hframe.length_ne_zero, readExact_append]
    exact ih hframes (Nat.lt_of_succ_lt_succ hfuel)

theorem length_le_encodeFrames (frames : List Bytes) :
    frames.length ≤ (encodeFrames frames).length := by
  induction frames with
  | nil => exact Nat.le_refl 0
  | cons frame frames ih =>
    rw [encodeFrames_cons, List.length_append, List.length_append, List.length_cons,
      writeUint64_length]
    omega

theorem destroy_delivers {rest left : Bytes} {s : FramedSource Bytes} (h : Delivers rest left s) :
    s.destroy stringSource = .ok rest := by
  rw [FramedSource.destroy]
  split
  next heof =>
    rw [Delivers, if_pos heof] at h
    rw [h.1]
  next heof =>
    rw [Delivers, if_neg heof] at h
    obtain ⟨-, frames, hframes, hinner, -⟩ := h
    rw [hinner]
    refine drainFrames_eq hframes ?_
    have hle := length_le_encodeFrames frames
    simp only [stringSource, List.length_append]
    omega

theorem reads_delivers {rest left : Bytes} {lens : List Nat} {s s' : FramedSource Bytes}
    {chunks : List Bytes} (h : Delivers rest left s)
    (hreads : s.reads stringSource lens = .ok (chunks, s')) :
    ∃ left', left = chunks.flatten ++ left' ∧ Delivers rest left' s' := by
  induction lens generalizing left s chunks with
  | nil =>
    cases hreads
    exact ⟨left, rfl, h⟩
  | cons len lens ih =>
    obtain ⟨⟨chunk, s₁⟩, hread, hreads⟩ := bind_eq_ok.mp hreads
    obtain ⟨⟨chunks, s₂⟩, hrest, hreads⟩ := bind_eq_ok.mp hreads
    cases hreads
    cases heof : s.eof with
    | true =>
      rw [FramedSource.read, if_pos heof] at hread
      cases hread
    | false =>
      obtain ⟨chunk', left₁, s₁', hread', hpart⟩ := read_delivers heof h len
      rw [hread'] at hread
      cases hread
      obtain ⟨left', hleft', hdelivers⟩ := ih hpart.delivers hrest
      exact ⟨left', by rw [hpart.part, hleft', List.flatten_cons, List.append_assoc], hdelivers⟩

/-- A framed stream delivers what was written and then ends, whatever sizes are asked for, and
leaves the underlying source behind its last frame, wherever the reader stops. -/
theorem framed_delivers (toBufSize : Nat) (checkError : Target → Except Error Unit)
    (writes : List Bytes) (hwrites : ∀ data ∈ writes, data.length < 2 ^ 32) (target : Target) :
    ((∀ t, checkError t = .ok ()) →
      ∃ target', sendFramed toBufSize checkError writes target = .ok target') ∧
    ∀ target', sendFramed toBufSize checkError writes target = .ok target' →
      ∃ stream, target' = ⟨[], target.total ++ stream⟩ ∧
        ∀ rest lens chunks s,
          FramedSource.reads stringSource lens { inner := stream ++ rest } = .ok (chunks, s) →
          ∃ left, writes.flatten = chunks.flatten ++ left ∧ s.destroy stringSource = .ok rest ∧
            (s.eof = true → left = [] ∧ ∀ len, s.read stringSource len =
              .error ⟨.endOfFile, ⟨"reached end of FramedSource", []⟩⟩) ∧
            (s.eof = false → ∀ len, ∃ chunk s', s.read stringSource len = .ok (chunk, s') ∧
              chunk <+: left ∧ chunk.length ≤ len ∧ (0 < len → left ≠ [] → chunk ≠ []) ∧
              (left = [] → s'.eof = true)) := by
  refine ⟨fun h => sendFramed_returns h writes target, fun target' h => ?_⟩
  obtain ⟨frames, rfl, hflatten, hframes⟩ := sendFramed_eq_ok hwrites h
  refine ⟨encodeFrames frames ++ writeUint64 0, by rw [List.append_assoc], ?_⟩
  intro rest lens chunks s hreads
  have hstart : Delivers rest writes.flatten
      { inner := encodeFrames frames ++ writeUint64 0 ++ rest } := by
    rw [Delivers, if_neg (by simp)]
    exact ⟨Nat.le_refl 0, frames, hframes, rfl, hflatten.symm⟩
  obtain ⟨left, hleft, hdelivers⟩ := reads_delivers hstart hreads
  refine ⟨left, hleft, destroy_delivers hdelivers, fun heof => ?_, fun heof len => ?_⟩
  · rw [Delivers, if_pos heof] at hdelivers
    exact ⟨hdelivers.2, fun len => by rw [FramedSource.read, if_pos heof]⟩
  · obtain ⟨chunk, left', s', hread, hpart⟩ := read_delivers heof hdelivers len
    exact ⟨chunk, s', hread, ⟨left', hpart.part.symm⟩, hpart.length_le, hpart.progress, hpart.ends⟩

theorem framed_delivers_abc :
    ∃ stream chunks s, sendFramed 10 (fun _ => .ok ()) [str "ab", [], str "c"] ⟨[], []⟩ =
        .ok ⟨[], stream⟩ ∧
      FramedSource.reads stringSource [1, 5] { inner := stream ++ str "x" } = .ok (chunks, s) ∧
      chunks.flatten = str "abc" ∧ s.destroy stringSource = .ok (str "x") := by
  have hsent : sendFramed 10 (fun _ => .ok ()) [str "ab", [], str "c"] ⟨[], []⟩ =
      .ok ⟨[], writeUint64 3 ++ str "abc" ++ writeUint64 0⟩ := by decide
  obtain ⟨stream, hstream, h⟩ := (framed_delivers 10 (fun _ => .ok ()) [str "ab", [], str "c"]
    (by decide) ⟨[], []⟩).2 _ hsent
  cases hstream
  have hreads : FramedSource.reads stringSource [1, 5]
      { inner := writeUint64 3 ++ str "abc" ++ writeUint64 0 ++ str "x" } =
      .ok ([str "a", str "bc"], ⟨writeUint64 0 ++ str "x", false, str "abc", 3⟩) := by
    decide
  obtain ⟨left, -, hdestroy, -⟩ := h (str "x") [1, 5] _ _ hreads
  exact ⟨_, _, _, hsent, hreads, rfl, hdestroy⟩

end Nix.Util.FramedStreams
