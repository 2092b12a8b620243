import Mathlib.Tactic
import Nix.Util.Archive
import Nix.Util.StringSource

set_option linter.dupNamespace false

namespace Nix.Util.ArchiveGrammar

open Util.Types Util.Serialise Util.StringSource Util.CanonPaths Util.Archive Lib.PrefixReader
  Lib.SortedList

/-- A parse tree of the NAR grammar; `pad` are the bytes between the contents of
a file and the closing parenthesis. -/
inductive Node
  | regular (isExecutable : Bool) (data pad : Bytes)
  | directory (entries : List (Bytes × Node))
  | symlink (target : Bytes)

def tokens (ts : List Bytes) : Bytes :=
  ts.flatMap writeString

def executableTokens (isExecutable : Bool) : Bytes :=
  if isExecutable then tokens [str "executable", []] else []

mutual

def Node.bytes : Node → Bytes
  | .regular isExecutable data pad =>
      tokens [str "(", str "type", str "regular"] ++
        (executableTokens isExecutable ++ (tokens [str "contents"] ++
          (writeUint64 data.length ++ (data ++ (pad ++ tokens [str ")"])))))
  | .directory entries =>
      tokens [str "(", str "type", str "directory"] ++ (entriesBytes entries ++ tokens [str ")"])
  | .symlink target =>
      tokens [str "(", str "type", str "symlink", str "target", target, str ")"]

def entriesBytes : List (Bytes × Node) → Bytes
  | [] => []
  | (name, node) :: entries =>
      tokens [str "entry", str "(", str "name", name, str "node"] ++
        (node.bytes ++ (tokens [str ")"] ++ entriesBytes entries))

end

/-- The condition on the names of a directory. -/
structure ValidName (name : Bytes) : Prop where
  not_invalid : ¬InvalidName name
  length_le : name.length ≤ narMaxName

/-- The contents and the padding of a file, by their lengths alone. -/
def Shaped (data pad : Bytes) : Prop :=
  data.length < 2 ^ 64 ∧ pad.length = paddingLength data.length

/-- What the two modes of `parseContents` demand of a file. -/
def ContentsOk (skipContents : Bool) (data pad : Bytes) : Prop :=
  Shaped data pad ∧
    if skipContents then data.length ≤ 2 ^ 64 - 8 else pad = writePadding data.length

/-- The entries under the names that `parse` gives them. -/
def renameEntries {ν : Type} (useCaseHack : Bool) :
    List (Bytes × Nat) → List (Bytes × ν) → Option (List (Bytes × ν))
  | _, [] => some []
  | names, (name, v) :: entries =>
      match hackName useCaseHack names name with
      | .ok (hacked, names) =>
          (renameEntries useCaseHack names entries).map ((hacked, v) :: ·)
      | .error _ => none

/-- The parse trees of at most `levels` levels whose files satisfy `C`. -/
def Node.Valid (useCaseHack : Bool) (C : Bytes → Bytes → Prop) : Nat → Node → Prop
  | 0, _ => False
  | _ + 1, .regular _ data pad => C data pad
  | levels + 1, .directory entries =>
      StrictlySorted compare (entries.map Prod.fst) ∧
        (renameEntries useCaseHack [] entries).isSome ∧
        ∀ e ∈ entries, ValidName e.1 ∧ Node.Valid useCaseHack C levels e.2
  | _ + 1, .symlink target =>
      target ≠ [] ∧ (0 : UInt8) ∉ target ∧ target.length ≤ narMaxTarget

section Build

variable {σ τ : Type} (useCaseHack : Bool) (sink : FileSystemObjectSink σ τ) (start : σ)

mutual

/-- What a sink that does not look at the state of the source builds. -/
def Node.build : Node → τ
  | .regular isExecutable data _ =>
      sink.regular isExecutable data.length start (if sink.skipContents then [] else data)
  | .directory entries =>
      sink.directory ((renameEntries useCaseHack [] (buildEntries entries)).getD [])
  | .symlink target => sink.symlink target

def buildEntries : List (Bytes × Node) → List (Bytes × τ)
  | [] => []
  | (name, node) :: entries => (name, Node.build node) :: buildEntries entries

end

end Build

theorem buildEntries_eq_map {σ τ : Type} (useCaseHack : Bool)
    (sink : FileSystemObjectSink σ τ) (start : σ) (entries : List (Bytes × Node)) :
    buildEntries useCaseHack sink start entries =
      entries.map fun e => (e.1, e.2.build useCaseHack sink start) := by
  induction entries with
  | nil => rfl
  | cons e entries ih => simp [buildEntries, ih]

theorem renameEntries_map {ν ν' : Type} (useCaseHack : Bool) (f : ν → ν')
    (names : List (Bytes × Nat)) (entries : List (Bytes × ν)) :
    renameEntries useCaseHack names (entries.map fun e => (e.1, f e.2)) =
      (renameEntries useCaseHack names entries).map (List.map fun e => (e.1, f e.2)) := by
  induction entries generalizing names with
  | nil => rfl
  | cons e entries ih =>
      simp only [List.map_cons, renameEntries]
      cases hackName useCaseHack names e.1 with
      | error _ => rfl
      | ok r => simp [ih, Function.comp_def]

@[simp] theorem renameEntries_false {ν : Type} (names : List (Bytes × Nat))
    (entries : List (Bytes × ν)) : renameEntries false names entries = some entries := by
  induction entries with
  | nil => rfl
  | cons e entries ih => simp [renameEntries, hackName, ih]

@[simp] theorem tokens_nil : tokens [] = [] := rfl

@[simp] theorem tokens_cons (t : Bytes) (ts : List Bytes) :
    tokens (t :: ts) = writeString t ++ tokens ts := rfl

theorem recognises_getString (max : Nat) :
    Recognises (getString stringSource max) fun tag bs =>
      bs = writeString tag ∧ tag.length ≤ max ∧ tag.length < 2 ^ 64 :=
  recognises_readString max

theorem recognises_expectTag (expected : String)
    (h : (str expected).length ≤ narMaxTag) :
    Recognises (expectTag stringSource expected) fun _ bs => bs = writeString (str expected) := by
  intro s u rest
  simp only [expectTag, bind_eq_ok, recognises_getString _ s, throwIf_eq_ok, ne_eq, not_not]
  constructor
  · rintro ⟨tag, t, ⟨_, rfl, rfl, -⟩, rfl, rfl⟩
    exact ⟨_, rfl, rfl⟩
  · rintro ⟨_, rfl, rfl⟩
    have hlt : (str expected).length < 2 ^ 64 := by
      unfold narMaxTag at h
      omega
    exact ⟨str expected, rest, ⟨_, rfl, rfl, h, hlt⟩, rfl, rfl⟩

theorem alignUp_eq_ok {size left : Nat} :
    alignUp size 8 = .ok left ↔
      size ≤ 2 ^ 64 - 8 ∧ left = size + paddingLength size := by
  have hround : (size + (8 - 1)) / 8 * 8 = size + paddingLength size := by
    unfold paddingLength
    split <;> omega
  simp only [alignUp, hround]
  split
  next h =>
    refine iff_of_false (by simp) fun h' => ?_
    unfold uint64Max at h
    omega
  next h =>
    unfold uint64Max at h
    simp only [Except.ok.injEq]
    constructor
    · rintro rfl
      exact ⟨by omega, rfl⟩
    · rintro ⟨-, rfl⟩
      rfl

theorem liftExcept_eq_ok {σ α : Type} {x : Except Error α} {s t : σ} {a : α} :
    (liftM x : Reader σ Error α) s = .ok (a, t) ↔ x = .ok a ∧ s = t := by
  cases x with
  | error e =>
      refine iff_of_false (fun h => ?_) (by simp)
      exact nomatch h
  | ok b =>
      change Except.ok (b, s) = .ok (a, t) ↔ _
      simp

theorem get_eq_ok {σ : Type} {s t u : σ} :
    (get : Reader σ Error σ) s = .ok (u, t) ↔ u = s ∧ t = s := by
  change Except.ok (s, s) = .ok (u, t) ↔ _
  simp [eq_comm]

theorem skipLeft_eq_ok {left : Nat} {s rest : Bytes} {u : Unit} :
    skipLeft stringSource left s = .ok (u, rest) ↔
      ∃ bs, s = bs ++ rest ∧ bs.length = left := by
  have hskip : skipLeft stringSource left s =
      if left ≤ s.length then .ok ((), s.drop left)
      else .error ⟨.endOfFile, ⟨"end of string reached", []⟩⟩ := by
    unfold skipLeft
    split
    next h => simp [h]
    next h =>
      by_cases hle : left ≤ s.length
      · simp [stringSource, hle, Nat.not_lt.mpr hle, Except.map]
      · simp [stringSource, hle, Nat.lt_of_not_le hle, Except.map]
  rw [hskip]
  constructor
  · intro h
    split at h
    next hle =>
      simp only [Except.ok.injEq, Prod.mk.injEq, true_and] at h
      exact ⟨s.take left, by rw [← h, List.take_append_drop], by
        rw [List.length_take]; omega⟩
    next => simp at h
  · rintro ⟨bs, rfl, rfl⟩
    simp

theorem parseContents_eq_ok {skipContents : Bool} {s rest : Bytes} {r : Nat × Bytes × Bytes} :
    parseContents stringSource skipContents s = .ok (r, rest) ↔
      ∃ data pad, s = writeUint64 data.length ++ (data ++ (pad ++ rest)) ∧
        ContentsOk skipContents data pad ∧
        r = (data.length, data ++ (pad ++ rest), if skipContents then [] else data) := by
  simp only [parseContents, readLongLong, bind_eq_ok, recognises_readNum _ s, get_eq_ok]
  cases skipContents with
  | true =>
      simp only [if_true, bind_eq_ok, liftExcept_eq_ok, alignUp_eq_ok, skipLeft_eq_ok,
        pure_eq_ok, ContentsOk]
      constructor
      · rintro ⟨size, t, ⟨_, rfl, rfl, -, hlt⟩, _, _, ⟨rfl, rfl⟩, left, _,
          ⟨⟨hle, rfl⟩, rfl⟩, _, _, ⟨bs, rfl, hbs⟩, rfl, rfl⟩
        have hlen : (bs.take size).length = size := by
          rw [List.length_take]; omega
        refine ⟨bs.take size, bs.drop size, ?_, ⟨⟨by omega, ?_⟩, by omega⟩, ?_⟩
        · rw [hlen, ← List.append_assoc (bs.take size), List.take_append_drop]
        · rw [hlen, List.length_drop]; omega
        · rw [hlen, ← List.append_assoc (bs.take size), List.take_append_drop]
      · rintro ⟨data, pad, rfl, ⟨⟨hlt, hpad⟩, hle⟩, rfl⟩
        refine ⟨data.length, data ++ (pad ++ rest), ⟨_, rfl, rfl, ?_, hlt⟩, _, _, ⟨rfl, rfl⟩,
          _, _, ⟨⟨hle, rfl⟩, rfl⟩, (), rest, ⟨data ++ pad, by simp, by simp [hpad]⟩, rfl, rfl⟩
        unfold uint64Max
        omega
  | false =>
      simp only [Bool.false_eq_true, if_false, bind_eq_ok, recognises_drainInto _ _,
        recognises_readPadding _ _, pure_eq_ok, ContentsOk]
      constructor
      · rintro ⟨size, t, ⟨_, rfl, rfl, -, hlt⟩, _, _, ⟨rfl, rfl⟩, contents, _,
          ⟨_, rfl, rfl, rfl⟩, _, _, ⟨_, rfl, rfl⟩, rfl, rfl⟩
        exact ⟨_, _, rfl, ⟨⟨hlt, writePadding_length _⟩, rfl⟩, rfl⟩
      · rintro ⟨data, pad, rfl, ⟨⟨hlt, -⟩, rfl⟩, rfl⟩
        refine ⟨data.length, _, ⟨_, rfl, rfl, ?_, hlt⟩, _, _, ⟨rfl, rfl⟩,
          data, _, ⟨_, rfl, rfl, rfl⟩, (), rest, ⟨_, rfl, rfl⟩, rfl, rfl⟩
        unfold uint64Max
        omega

section Objects

variable {τ : Type} {sink : FileSystemObjectSink Bytes τ}

theorem parseExecutable_eq_ok {tag s rest : Bytes} {r : Bool × Bytes} :
    parseExecutable stringSource tag s = .ok (r, rest) ↔
      if tag = str "executable" then
        ∃ tag', s = tokens [[], tag'] ++ rest ∧ tag'.length ≤ narMaxTag ∧ r = (true, tag')
      else r = (false, tag) ∧ s = rest := by
  unfold parseExecutable
  split
  next =>
    simp only [bind_eq_ok, recognises_getString _ _, throwIf_eq_ok, pure_eq_ok, ne_eq, not_not]
    constructor
    · rintro ⟨_, _, ⟨_, rfl, rfl, -, -⟩, _, _, ⟨rfl, rfl⟩, tag', _, ⟨_, rfl, rfl, hlen, -⟩,
        rfl, rfl⟩
      exact ⟨tag', by simp, hlen, rfl⟩
    · rintro ⟨tag', rfl, hlen, rfl⟩
      refine ⟨[], writeString tag' ++ rest, ⟨_, by simp, rfl, by simp, by simp⟩, (), _,
        ⟨rfl, rfl⟩, tag', rest, ⟨_, rfl, rfl, hlen, ?_⟩, rfl, rfl⟩
      unfold narMaxTag at hlen
      omega
  next =>
    rw [pure_eq_ok]
    exact and_congr_left fun _ => eq_comm

theorem parseRegular_eq_ok {s rest : Bytes} {a : τ} :
    parseRegular sink stringSource s = .ok (a, rest) ↔
      ∃ isExecutable data pad, s = executableTokens isExecutable ++ (tokens [str "contents"] ++
          (writeUint64 data.length ++ (data ++ (pad ++ (tokens [str ")"] ++ rest))))) ∧
        ContentsOk sink.skipContents data pad ∧
        a = sink.regular isExecutable data.length (data ++ (pad ++ (tokens [str ")"] ++ rest)))
          (if sink.skipContents then [] else data) := by
  have hclose := recognises_expectTag ")" (by decide)
  simp only [parseRegular, bind_eq_ok, recognises_getString _ s, parseExecutable_eq_ok,
    throwIf_eq_ok, ne_eq, not_not, parseContents_eq_ok, hclose _ _, pure_eq_ok]
  constructor
  · rintro ⟨tag, t, ⟨_, rfl, rfl, hlen, -⟩, ⟨x, tag'⟩, t', hexec, _, _, ⟨htag, rfl⟩, _, _,
      ⟨data, pad, rfl, hok, rfl⟩, _, _, ⟨_, rfl, rfl⟩, rfl, rfl⟩
    obtain rfl : tag' = str "contents" := htag
    refine ⟨x, data, pad, ?_, hok, rfl⟩
    split at hexec
    next htag' =>
      obtain ⟨tag'', rfl, -, hr⟩ := hexec
      simp only [Prod.mk.injEq] at hr
      obtain ⟨rfl, rfl⟩ := hr
      simp [executableTokens, htag']
    next =>
      obtain ⟨hr, rfl⟩ := hexec
      simp only [Prod.mk.injEq] at hr
      obtain ⟨rfl, rfl⟩ := hr
      simp [executableTokens]
  · rintro ⟨x, data, pad, rfl, hok, rfl⟩
    cases x with
    | true =>
        refine ⟨str "executable", _, ⟨_, by simp [executableTokens]; rfl, rfl, by decide,
          by decide⟩, (true, str "contents"), _, ?_, (), _, ⟨rfl, rfl⟩, _, _,
          ⟨data, pad, rfl, hok, rfl⟩, (), rest, ⟨_, by simp, rfl⟩, rfl, rfl⟩
        rw [if_pos rfl]
        exact ⟨str "contents", by simp, by decide, rfl⟩
    | false =>
        refine ⟨str "contents", _, ⟨_, by simp [executableTokens]; rfl, rfl, by decide,
          by decide⟩, (false, str "contents"), _, ?_, (), _, ⟨rfl, rfl⟩, _, _,
          ⟨data, pad, rfl, hok, rfl⟩, (), rest, ⟨_, by simp, rfl⟩, rfl, rfl⟩
        rw [if_neg (by decide)]
        exact ⟨rfl, rfl⟩

theorem recognises_parseSymlink :
    Recognises (parseSymlink sink stringSource) fun a bs => ∃ target,
      (target ≠ [] ∧ (0 : UInt8) ∉ target ∧ target.length ≤ narMaxTarget) ∧
        a = sink.symlink target ∧ bs = tokens [str "target", target, str ")"] := by
  have hclose := recognises_expectTag ")" (by decide)
  have htarget := recognises_expectTag "target" (by decide)
  intro s a rest
  simp only [parseSymlink, bind_eq_ok, htarget s, recognises_getString _ _, throwIf_eq_ok,
    hclose _ _, pure_eq_ok, not_or]
  constructor
  · rintro ⟨_, _, ⟨_, rfl, rfl⟩, target, _, ⟨_, rfl, rfl, hlen, -⟩, _, _, ⟨hok, rfl⟩, _, _,
      ⟨_, rfl, rfl⟩, rfl, rfl⟩
    exact ⟨tokens [str "target", target, str ")"], by simp, target,
      ⟨hok.1, hok.2, hlen⟩, rfl, rfl⟩
  · rintro ⟨_, rfl, target, ⟨hne, hnul, hlen⟩, rfl, rfl⟩
    refine ⟨(), writeString target ++ (writeString (str ")") ++ rest), ⟨_, by simp, rfl⟩, target,
      _, ⟨_, rfl, rfl, hlen, ?_⟩, (), _, ⟨⟨hne, hnul⟩, rfl⟩, (), rest, ⟨_, rfl, rfl⟩, rfl, rfl⟩
    unfold narMaxTarget at hlen
    omega

def EntryLang (useCaseHack : Bool) (L : τ → Bytes → Prop) (st : DirState τ)
    (r : DirState τ ⊕ List (Bytes × τ)) (bs : Bytes) : Prop :=
  (bs = tokens [str ")"] ∧ r = .inr st.entries) ∨
  ∃ name node sub hacked names,
    bs = tokens [str "entry", str "(", str "name", name, str "node"] ++
      (sub ++ tokens [str ")"]) ∧
    ValidName name ∧ compare st.prevName name = .lt ∧
    hackName useCaseHack st.names name = .ok (hacked, names) ∧ L node sub ∧
    r = .inl ⟨names, name, st.entries ++ [(hacked, node)]⟩

theorem parseEntry_eq_ok {useCaseHack : Bool} {child : Reader Bytes Error τ} {st : DirState τ}
    {s rest : Bytes} {r : DirState τ ⊕ List (Bytes × τ)} :
    parseEntry useCaseHack stringSource child st s = .ok (r, rest) ↔
      (s = tokens [str ")"] ++ rest ∧ r = .inr st.entries) ∨
      ∃ name node hacked names t,
        s = tokens [str "entry", str "(", str "name", name, str "node"] ++ t ∧
        ValidName name ∧ compare st.prevName name = .lt ∧
        hackName useCaseHack st.names name = .ok (hacked, names) ∧
        child t = .ok (node, tokens [str ")"] ++ rest) ∧
        r = .inl ⟨names, name, st.entries ++ [(hacked, node)]⟩ := by
  have hopen := recognises_expectTag "(" (by decide)
  have hname := recognises_expectTag "name" (by decide)
  have hnode := recognises_expectTag "node" (by decide)
  have hclose := recognises_expectTag ")" (by decide)
  have hcmp : ∀ name, compare name st.prevName = .gt ↔ compare st.prevName name = .lt :=
    fun name => Std.OrientedCmp.gt_iff_lt
  simp only [parseEntry, bind_eq_ok, recognises_getString _ s]
  constructor
  · rintro ⟨tag, t, ⟨_, rfl, rfl, -, -⟩, h⟩
    split at h
    next htag =>
      rw [pure_eq_ok] at h
      obtain ⟨rfl, rfl⟩ := h
      exact .inl ⟨by simp [htag], rfl⟩
    next htag =>
      simp only [bind_eq_ok, throwIf_eq_ok, hopen _ _, hname _ _, recognises_getString _ _,
        liftExcept_eq_ok, hnode _ _, hclose _ _, pure_eq_ok, ne_eq, not_not, hcmp] at h
      clear hopen hname hnode hclose hcmp
      obtain ⟨_, _, ⟨rfl, rfl⟩, _, _, ⟨_, rfl, rfl⟩, _, _, ⟨_, rfl, rfl⟩, name, _,
        ⟨_, rfl, rfl, hlen, -⟩, _, _, ⟨hok, rfl⟩, _, _, ⟨hlt, rfl⟩, ⟨hacked, names⟩, _,
        ⟨hhack, rfl⟩, _, _, ⟨_, rfl, rfl⟩, node, _, hsub, _, _, ⟨_, rfl, rfl⟩, rfl, rfl⟩ := h
      refine .inr ⟨name, node, hacked, names, _, ?_, ⟨hok, hlen⟩, hlt, hhack, hsub, rfl⟩
      simp
  · rintro (⟨rfl, rfl⟩ |
      ⟨name, node, hacked, names, t, rfl, ⟨hok, hlen⟩, hlt, hhack, hsub, rfl⟩)
    · refine ⟨str ")", rest, ⟨_, by simp, rfl, by decide, by decide⟩, ?_⟩
      rw [if_pos rfl, pure_eq_ok]
      exact ⟨rfl, rfl⟩
    · have hlt64 : name.length < 2 ^ 64 := by
        unfold narMaxName at hlen
        omega
      refine ⟨str "entry", _, ⟨_, by simp; rfl, rfl, by decide, by decide⟩, ?_⟩
      rw [if_neg (by decide)]
      simp only [bind_eq_ok, throwIf_eq_ok, hopen _ _, hname _ _, recognises_getString _ _,
        liftExcept_eq_ok, hnode _ _, hclose _ _, pure_eq_ok, ne_eq, not_not, hcmp]
      exact ⟨(), _, ⟨trivial, rfl⟩, (), _, ⟨_, rfl, rfl⟩, (), _, ⟨_, rfl, rfl⟩, name, _,
        ⟨_, rfl, rfl, hlen, hlt64⟩, (), _, ⟨hok, rfl⟩, (), _, ⟨hlt, rfl⟩, (hacked, names), _,
        ⟨hhack, rfl⟩, (), _, ⟨_, rfl, rfl⟩, node, _, hsub, (), rest, ⟨_, by simp, rfl⟩,
        rfl, rfl⟩

theorem recognises_parseEntry {useCaseHack : Bool} {child : Reader Bytes Error τ}
    {L : τ → Bytes → Prop} (hchild : Recognises child L) (st : DirState τ) :
    Recognises (parseEntry useCaseHack stringSource child st) (EntryLang useCaseHack L st) := by
  intro s r rest
  rw [parseEntry_eq_ok]
  constructor
  · rintro (⟨rfl, rfl⟩ | ⟨name, node, hacked, names, t, rfl, hname, hlt, hhack, hsub, rfl⟩)
    · exact ⟨_, rfl, .inl ⟨rfl, rfl⟩⟩
    · obtain ⟨bs, rfl, hbs⟩ := (hchild _ _ _).mp hsub
      exact ⟨tokens [str "entry", str "(", str "name", name, str "node"] ++
        (bs ++ tokens [str ")"]), by simp, .inr ⟨name, node, bs, hacked, names, rfl, hname, hlt,
        hhack, hbs, rfl⟩⟩
  · rintro ⟨_, rfl, ⟨rfl, rfl⟩ |
      ⟨name, node, bs, hacked, names, rfl, hname, hlt, hhack, hbs, rfl⟩⟩
    · exact .inl ⟨rfl, rfl⟩
    · exact .inr ⟨name, node, hacked, names, bs ++ (tokens [str ")"] ++ rest), by simp, hname,
        hlt, hhack, (hchild _ _ _).mpr ⟨bs, rfl, hbs⟩, rfl⟩

theorem writeString_ne_nil (data : Bytes) : writeString data ≠ [] := by
  intro h
  have hlen := congrArg List.length h
  simp [writeString, writeUint64_length] at hlen

theorem entryLang_ne_nil {useCaseHack : Bool} {L : τ → Bytes → Prop} {st st' : DirState τ}
    {bs : Bytes} (h : EntryLang useCaseHack L st (.inl st') bs) : bs ≠ [] := by
  rcases h with ⟨-, h⟩ | ⟨_, _, _, _, _, rfl, -⟩
  · simp at h
  · simp [writeString_ne_nil]

theorem recognises_entries (useCaseHack : Bool) {child : Reader Bytes Error τ}
    {L : τ → Bytes → Prop} (hchild : Recognises child L) :
    Recognises (loop List.length .diverges (parseEntry useCaseHack stringSource child) {})
      (LoopLang (EntryLang useCaseHack L) {}) :=
  Recognises.loop (fun st => recognises_parseEntry hchild st)
    (fun _ _ _ => entryLang_ne_nil) {}

/-- What `parse` builds from the trees of at most `levels` levels. -/
def NodeLang (useCaseHack : Bool) (sink : FileSystemObjectSink Bytes τ) (start : Bytes)
    (levels : Nat) (a : τ) (bs : Bytes) : Prop :=
  ∃ node : Node, node.Valid useCaseHack (ContentsOk sink.skipContents) levels ∧
    a = node.build useCaseHack sink start ∧ bs = node.bytes

theorem loopLang_entryLang {useCaseHack : Bool} {start : Bytes} {levels : Nat}
    {st : DirState τ} {es : List (Bytes × τ)} {bs : Bytes} :
    LoopLang (EntryLang useCaseHack (NodeLang useCaseHack sink start levels)) st es bs ↔
      ∃ (entries : List (Bytes × Node)) (renamed : List (Bytes × τ)),
        StrictlySorted compare (st.prevName :: entries.map Prod.fst) ∧
        (∀ e ∈ entries, ValidName e.1 ∧
          e.2.Valid useCaseHack (ContentsOk sink.skipContents) levels) ∧
        renameEntries useCaseHack st.names (buildEntries useCaseHack sink start entries) =
          some renamed ∧
        es = st.entries ++ renamed ∧
        bs = entriesBytes entries ++ tokens [str ")"] := by
  constructor
  · intro h
    induction h with
    | done h =>
        rcases h with ⟨rfl, h⟩ | ⟨_, _, _, _, _, _, _, _, _, _, h⟩
        · obtain rfl := Sum.inr.inj h
          exact ⟨[], [], List.pairwise_singleton _ _, by simp, rfl, by simp,
            by simp [entriesBytes]⟩
        · simp at h
    | more h _ ih =>
        rcases h with ⟨-, h⟩ |
          ⟨name, _, _, hacked, names, rfl, hname, hlt, hhack, ⟨node, hvalid, rfl, rfl⟩, h⟩
        · simp at h
        · obtain rfl := Sum.inl.inj h
          obtain ⟨entries, renamed, hsorted, hall, hrenamed, rfl, rfl⟩ := ih
          refine ⟨(name, node) :: entries, (hacked, node.build useCaseHack sink start) :: renamed,
            ?_, ?_, ?_, ?_, ?_⟩
          · exact StrictlySorted.cons_cons_iff.mpr ⟨hlt, hsorted⟩
          · exact List.forall_mem_cons.mpr ⟨⟨hname, hvalid⟩, hall⟩
          · simp [buildEntries, renameEntries, hhack, hrenamed]
          · simp
          · simp [entriesBytes]
  · rintro ⟨entries, renamed, hsorted, hall, hrenamed, rfl, rfl⟩
    induction entries generalizing st renamed with
    | nil =>
        obtain rfl : [] = renamed := by simpa [buildEntries, renameEntries] using hrenamed
        exact .done (.inl ⟨by simp [entriesBytes], by simp⟩)
    | cons e entries ih =>
        obtain ⟨name, node⟩ := e
        obtain ⟨hlt, hsorted⟩ := StrictlySorted.cons_cons_iff.mp hsorted
        obtain ⟨⟨hname, hvalid⟩, hall⟩ := List.forall_mem_cons.mp hall
        simp only [buildEntries, renameEntries] at hrenamed
        cases hhack : hackName useCaseHack st.names name with
        | error _ => simp [hhack] at hrenamed
        | ok r =>
            obtain ⟨hacked, names⟩ := r
            simp only [hhack, Option.map_eq_some_iff] at hrenamed
            obtain ⟨renamed, hrenamed, rfl⟩ := hrenamed
            have hrest := @ih ⟨names, name,
              st.entries ++ [(hacked, node.build useCaseHack sink start)]⟩ renamed hsorted hall
              hrenamed
            have hmore := LoopLang.more
              (T := EntryLang useCaseHack (NodeLang useCaseHack sink start levels)) (i := st)
              (.inr ⟨name, _, _, hacked, names, rfl, hname, hlt, hhack,
                ⟨node, hvalid, rfl, rfl⟩, rfl⟩) hrest
            simpa [entriesBytes] using hmore

theorem strictlySorted_nil_cons {names : List Bytes} (h : ∀ n ∈ names, n ≠ []) :
    StrictlySorted compare ([] :: names) ↔ StrictlySorted compare names := by
  refine ⟨fun h' => (List.pairwise_cons.mp h').2, fun h' => List.pairwise_cons.mpr ⟨?_, h'⟩⟩
  intro n hn
  obtain ⟨b, n, rfl⟩ := List.exists_cons_of_ne_nil (h n hn)
  rfl

theorem ValidName.component {name : Bytes} (h : ValidName name) : ValidComponent name := by
  obtain ⟨hne, hdot, hdotdot, hslash, hnul⟩ : name ≠ [] ∧ name ≠ str "." ∧ name ≠ str ".." ∧
      slash ∉ name ∧ (0 : UInt8) ∉ name := by
    simpa only [InvalidName, not_or] using h.not_invalid
  exact ⟨hne, hdot, hdotdot, hslash, hnul⟩

theorem ValidName.ne_nil {name : Bytes} (h : ValidName name) : name ≠ [] :=
  fun h' => h.not_invalid (.inl h')

theorem isSome_renameEntries (useCaseHack : Bool) (sink : FileSystemObjectSink Bytes τ)
    (start : Bytes) (names : List (Bytes × Nat)) (entries : List (Bytes × Node)) :
    (renameEntries useCaseHack names (buildEntries useCaseHack sink start entries)).isSome =
      (renameEntries useCaseHack names entries).isSome := by
  have hmap := renameEntries_map useCaseHack (fun n : Node => n.build useCaseHack sink start)
    names entries
  rw [buildEntries_eq_map, hmap, Option.isSome_map]

theorem loopLang_directory (useCaseHack : Bool) (start : Bytes) {levels : Nat}
    {es : List (Bytes × τ)} {bs : Bytes} :
    LoopLang (EntryLang useCaseHack (NodeLang useCaseHack sink start levels)) {} es bs ↔
      ∃ entries : List (Bytes × Node),
        (Node.directory entries).Valid useCaseHack (ContentsOk sink.skipContents) (levels + 1) ∧
        sink.directory es = (Node.directory entries).build useCaseHack sink start ∧
        es = (renameEntries useCaseHack [] (buildEntries useCaseHack sink start entries)).getD [] ∧
        bs = entriesBytes entries ++ tokens [str ")"] := by
  rw [loopLang_entryLang]
  constructor
  · rintro ⟨entries, renamed, hsorted, hall, hrenamed, rfl, rfl⟩
    have hsome : (renameEntries useCaseHack [] entries).isSome := by
      rw [← isSome_renameEntries useCaseHack sink start, hrenamed]
      rfl
    exact ⟨entries, ⟨(List.pairwise_cons.mp hsorted).2, hsome, hall⟩,
      by simp [Node.build, hrenamed], by simp [hrenamed], rfl⟩
  · rintro ⟨entries, ⟨hsorted, hsome, hall⟩, -, rfl, rfl⟩
    rw [← isSome_renameEntries useCaseHack sink start] at hsome
    obtain ⟨renamed, hrenamed⟩ := Option.isSome_iff_exists.mp hsome
    refine ⟨entries, renamed, ?_, hall, hrenamed, by simp [hrenamed], rfl⟩
    refine (strictlySorted_nil_cons ?_).mpr hsorted
    intro n hn
    obtain ⟨e, he, rfl⟩ := List.mem_map.mp hn
    exact (hall e he).1.ne_nil

theorem parse_succ_eq_ok {useCaseHack : Bool} {levels : Nat} {s rest : Bytes} {a : τ} :
    parse useCaseHack sink stringSource (levels + 1) s = .ok (a, rest) ↔
      ∃ t, (s = tokens [str "(", str "type", str "regular"] ++ t ∧
          parseRegular sink stringSource t = .ok (a, rest)) ∨
        (s = tokens [str "(", str "type", str "directory"] ++ t ∧
          ∃ es, loop List.length .diverges (parseEntry useCaseHack stringSource
            (parse useCaseHack sink stringSource levels)) {} t = .ok (es, rest) ∧
            a = sink.directory es) ∨
        (s = tokens [str "(", str "type", str "symlink"] ++ t ∧
          parseSymlink sink stringSource t = .ok (a, rest)) := by
  have hopen := recognises_expectTag "(" (by decide)
  have htype := recognises_expectTag "type" (by decide)
  simp only [parse, bind_eq_ok, hopen s, htype _, recognises_getString _ _]
  constructor
  · rintro ⟨_, _, ⟨_, rfl, rfl⟩, _, _, ⟨_, rfl, rfl⟩, type, t, ⟨_, rfl, rfl, -, -⟩, h⟩
    refine ⟨t, ?_⟩
    split at h
    next hregular => exact .inl ⟨by simp [hregular], h⟩
    next =>
      split at h
      next hdirectory =>
        rw [bind_eq_ok] at h
        obtain ⟨es, t', hes, h⟩ := h
        obtain ⟨rfl, rfl⟩ := pure_eq_ok.mp h
        exact .inr (.inl ⟨by simp [hdirectory], es, hes, rfl⟩)
      next =>
        split at h
        next hsymlink => exact .inr (.inr ⟨by simp [hsymlink], h⟩)
        next => simp at h
  · rintro ⟨t, ⟨rfl, h⟩ | ⟨rfl, es, hes, rfl⟩ | ⟨rfl, h⟩⟩
    · refine ⟨(), _, ⟨_, by simp, rfl⟩, (), _, ⟨_, rfl, rfl⟩, str "regular", t,
        ⟨_, rfl, rfl, by decide, by decide⟩, ?_⟩
      rw [if_pos rfl]
      exact h
    · refine ⟨(), _, ⟨_, by simp, rfl⟩, (), _, ⟨_, rfl, rfl⟩, str "directory", t,
        ⟨_, rfl, rfl, by decide, by decide⟩, ?_⟩
      rw [if_neg (by decide), if_pos rfl, bind_eq_ok]
      exact ⟨es, rest, hes, pure_eq_ok.mpr ⟨rfl, rfl⟩⟩
    · refine ⟨(), _, ⟨_, by simp, rfl⟩, (), _, ⟨_, rfl, rfl⟩, str "symlink", t,
        ⟨_, rfl, rfl, by decide, by decide⟩, ?_⟩
      rw [if_neg (by decide), if_neg (by decide), if_pos rfl]
      exact h

theorem recognises_parse {useCaseHack : Bool}
    (hsink : ∀ x n t t' d, sink.regular x n t d = sink.regular x n t' d)
    (start : Bytes) (levels : Nat) :
    Recognises (parse useCaseHack sink stringSource levels)
      (NodeLang useCaseHack sink start levels) := by
  induction levels with
  | zero =>
      intro s a rest
      simp [parse, NodeLang, Node.Valid]
  | succ levels ih =>
      have hloop := recognises_entries useCaseHack ih
      intro s a rest
      rw [parse_succ_eq_ok]
      constructor
      · rintro ⟨t, ⟨rfl, h⟩ | ⟨rfl, es, hes, rfl⟩ | ⟨rfl, h⟩⟩
        · obtain ⟨x, data, pad, rfl, hok, rfl⟩ := parseRegular_eq_ok.mp h
          refine ⟨(Node.regular x data pad).bytes, ?_, .regular x data pad, hok, ?_, rfl⟩
          · simp [Node.bytes]
          · exact hsink _ _ _ _ _
        · obtain ⟨bs, rfl, hbs⟩ := (hloop t es rest).mp hes
          obtain ⟨entries, hvalid, hbuild, -, rfl⟩ := (loopLang_directory _ start).mp hbs
          refine ⟨(Node.directory entries).bytes, ?_, .directory entries, hvalid, hbuild, rfl⟩
          simp [Node.bytes]
        · obtain ⟨bs, rfl, target, hok, rfl, rfl⟩ := (recognises_parseSymlink _ _ _).mp h
          exact ⟨(Node.symlink target).bytes, by simp [Node.bytes], .symlink target, hok, rfl,
            rfl⟩
      · rintro ⟨_, rfl, node, hvalid, rfl, rfl⟩
        cases node with
        | regular x data pad =>
            refine ⟨_, .inl ⟨by simp [Node.bytes]; rfl, ?_⟩⟩
            refine parseRegular_eq_ok.mpr ⟨x, data, pad, by simp, hvalid, ?_⟩
            exact hsink _ _ _ _ _
        | directory entries =>
            have hlang := (loopLang_directory useCaseHack start).mpr
              ⟨entries, hvalid, rfl, rfl, rfl⟩
            refine ⟨_, .inr (.inl ⟨by simp [Node.bytes]; rfl, _,
              (hloop _ _ _).mpr ⟨_, by simp, hlang⟩, rfl⟩)⟩
        | symlink target =>
            refine ⟨_, .inr (.inr ⟨by simp [Node.bytes]; rfl, ?_⟩)⟩
            exact (recognises_parseSymlink _ _ _).mpr ⟨_, by simp, target, hvalid, rfl, rfl⟩

end Objects

end Nix.Util.ArchiveGrammar
