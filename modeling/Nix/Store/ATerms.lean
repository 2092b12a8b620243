import Nix.Lib.PrefixReader
import Nix.Lib.Quoted
import Nix.Util.JsonValues

set_option linter.dupNamespace false

namespace Nix.Store.ATerms

open Util.Types Util.JsonValues Lib.SortedList Lib.PrefixReader Lib.Quoted

/-- Readers of a `StringViewStream`, whose state is the remaining text. -/
abbrev Stream := Reader Bytes Error

def peek : Stream (Option UInt8) := fun str =>
  .ok (str.head?, str)

def expect (s : Bytes) : Stream Unit := fun str =>
  if s <+: str then .ok ((), str.drop s.length)
  else .error ⟨.formatError, ⟨"expected string '%1%'", [s]⟩⟩

/-- The overload of `expect` for a character. -/
def expectChar (c : UInt8) : Stream Unit :=
  expect [c]

def escapes (c : UInt8) : UInt8 :=
  if c = 110 then 10
  else if c = 114 then 13
  else if c = 116 then 9
  else c

/-- Strings between double quotes, with a backslash as the escape character. -/
def cString : Alphabet UInt8 := ⟨34, 92, escapes, by decide⟩

def unterminated : Error :=
  ⟨.formatError, ⟨"unterminated string in derivation", []⟩⟩

def parseContent : Stream Bytes := fun str =>
  match cString.close [] str with
  | none => .error unterminated
  | some (content, rest) =>
      match cString.unescape content with
      | none => .error unterminated
      | some res => .ok (res, rest)

def parseString : Stream Bytes := do
  expectChar 34
  parseContent

def validatePath (s : Bytes) : Except Error Unit :=
  if s.head? = some 47 then .ok ()
  else .error ⟨.formatError, ⟨"bad path '%1%' in derivation", [s]⟩⟩

def parsePath : Stream Bytes := do
  let s ← parseString
  fromExcept (validatePath s)
  return s

/-- Skip a comma or a closing bracket, and say whether it was a bracket. -/
def endOfList : Stream Bool
  | 44 :: str => .ok (false, str)
  | 93 :: str => .ok (true, str)
  | str => .ok (false, str)

section Lists

variable {α β : Type}

def listRound (body : α → Stream α) (a : α) : Stream (α ⊕ α) := do
  if ← endOfList then return .inr a
  else return .inl (← body a)

/-- The loop `while (!endOfList(str))`, where `body` changes the variables `a`. -/
def untilEndOfList (body : α → Stream α) : α → Stream α :=
  loop List.length .diverges (listRound body)

end Lists

def parseStrings (arePaths : Bool) : Stream StringSet := do
  expectChar 91
  untilEndOfList (fun res => do return res.insert (← if arePaths then parsePath else parseString))
    .empty

def escapeChar (c : UInt8) : Bytes :=
  if c = 34 ∨ c = 92 then [92, c]
  else if c = 10 then [92, 110]
  else if c = 13 then [92, 114]
  else if c = 9 then [92, 116]
  else [c]

def chunkSize : Nat := 1024

/-- The loop of `printString`, which escapes one chunk after the other. -/
def printChunks (s : Bytes) : Bytes :=
  if _ : s = [] then []
  else (s.take chunkSize).flatMap escapeChar ++ printChunks (s.drop chunkSize)
termination_by s.length
decreasing_by
  have := List.length_pos_of_ne_nil ‹_›
  simp only [List.length_drop, chunkSize]
  omega

def printString (s : Bytes) : Bytes :=
  34 :: printChunks s ++ [34]

def printUnquotedString (s : Bytes) : Bytes :=
  34 :: s ++ [34]

/-- The items of a list, with a comma before each but the first. -/
def commaSeparated : List Bytes → Bytes
  | [] => []
  | item :: items => item ++ items.flatMap (44 :: ·)

def printStrings (l : List Bytes) : Bytes :=
  91 :: commaSeparated (l.map printString) ++ [93]

def printUnquotedStrings (l : List Bytes) : Bytes :=
  91 :: commaSeparated (l.map printUnquotedString) ++ [93]

theorem reads_expect (s : Bytes) : Reads (expect s) s () := by
  intro rest
  rw [expect, if_pos (List.prefix_append s rest), List.drop_left]

theorem reads_expectChar (c : UInt8) : Reads (expectChar c) [c] () :=
  reads_expect [c]

def Plain (s : Bytes) : Prop :=
  ∀ c ∈ s, cString.Plain c

theorem reads_parseContent {items : List (Item UInt8)}
    (h : ∀ i ∈ items, Alphabet.Item.Proper cString i) :
    Reads parseContent (cString.text items ++ [34]) (cString.value items) := by
  intro rest
  have hclose : cString.close [] (cString.text items ++ [34] ++ rest) =
      some (cString.text items, rest) := by
    rw [List.append_assoc]
    exact Alphabet.close_text h rest
  rw [parseContent, hclose]
  dsimp only
  rw [Alphabet.unescape_text h]

theorem reads_parseString {items : List (Item UInt8)}
    (h : ∀ i ∈ items, Alphabet.Item.Proper cString i) :
    Reads parseString (34 :: cString.text items ++ [34]) (cString.value items) :=
  (reads_expectChar 34).bind (reads_parseContent h)

theorem reads_printUnquotedString {s : Bytes} (h : Plain s) :
    Reads parseString (printUnquotedString s) s := by
  have hitems : ∀ i ∈ s.map Item.plain, Alphabet.Item.Proper cString i := by
    intro i hi
    obtain ⟨c, hc, rfl⟩ := List.mem_map.mp hi
    exact h c hc
  have hreads := reads_parseString hitems
  have htext : cString.text (s.map Item.plain) = s := by
    simp [Alphabet.text, List.flatMap_map, Alphabet.Item.text]
  have hvalue : cString.value (s.map Item.plain) = s := by
    rw [Alphabet.value, List.map_map]
    exact s.map_id
  rwa [htext, hvalue] at hreads

theorem printChunks_eq (s : Bytes) : printChunks s = s.flatMap escapeChar := by
  induction hn : s.length using Nat.strongRecOn generalizing s with
  | ind n ih =>
      rw [printChunks]
      split
      next h => rw [h, List.flatMap_nil]
      next h =>
        have hlen := List.length_pos_of_ne_nil h
        rw [ih (s.drop chunkSize).length (by simp [chunkSize]; omega) _ rfl,
          ← List.flatMap_append, List.take_append_drop]

def escapeItem (c : UInt8) : Item UInt8 :=
  if c = 34 ∨ c = 92 then .escaped c
  else if c = 10 then .escaped 110
  else if c = 13 then .escaped 114
  else if c = 9 then .escaped 116
  else .plain c

theorem text_escapeItem (c : UInt8) : Alphabet.Item.text cString (escapeItem c) = escapeChar c := by
  unfold escapeItem escapeChar
  split_ifs <;> rfl

theorem value_escapeItem (c : UInt8) : Alphabet.Item.value cString (escapeItem c) = c := by
  unfold escapeItem
  split_ifs with h hn hr ht
  · rcases h with rfl | rfl <;> rfl
  · rw [hn]
    rfl
  · rw [hr]
    rfl
  · rw [ht]
    rfl
  · rfl

theorem proper_escapeItem (c : UInt8) : Alphabet.Item.Proper cString (escapeItem c) := by
  unfold escapeItem
  split_ifs with h
  · trivial
  · trivial
  · trivial
  · trivial
  · exact not_or.mp h

theorem reads_printString (s : Bytes) : Reads parseString (printString s) s := by
  have hitems : ∀ i ∈ s.map escapeItem, Alphabet.Item.Proper cString i := by
    intro i hi
    obtain ⟨c, -, rfl⟩ := List.mem_map.mp hi
    exact proper_escapeItem c
  have hreads := reads_parseString hitems
  have htext : cString.text (s.map escapeItem) = printChunks s := by
    rw [printChunks_eq, Alphabet.text, List.flatMap_map]
    exact congrArg (s.flatMap ·) (funext text_escapeItem)
  have hvalue : cString.value (s.map escapeItem) = s := by
    rw [Alphabet.value, List.map_map]
    exact (congrArg (s.map ·) (funext value_escapeItem)).trans s.map_id
  rwa [htext, hvalue] at hreads

section Lists

variable {α β : Type}

/-- A text that neither a comma nor a closing bracket starts. -/
def StartsItem (t : Bytes) : Prop :=
  ∃ c s, t = c :: s ∧ c ≠ 44 ∧ c ≠ 93

theorem endOfList_of_startsItem {t : Bytes} (h : StartsItem t) (rest : Bytes) :
    endOfList (t ++ rest) = .ok (false, t ++ rest) := by
  obtain ⟨c, s, rfl, hcomma, hbracket⟩ := h
  unfold endOfList
  split
  next heq => exact absurd (List.cons.inj heq).1 hcomma
  next heq => exact absurd (List.cons.inj heq).1 hbracket
  next => rfl

variable {body : α → Stream α} {text : β → Bytes} {update : α → β → α}

theorem listRound_comma {a a' : α} {t : Bytes} (h : Reads (body a) t a') (rest : Bytes) :
    listRound body a (44 :: t ++ rest) = .ok (.inl a', rest) := by
  show ((body a >>= fun a => pure (Sum.inl a)) : Stream (α ⊕ α)) (t ++ rest) = _
  rw [bind_apply, h rest]
  rfl

theorem listRound_startsItem {a a' : α} {t : Bytes} (hstart : StartsItem t)
    (h : Reads (body a) t a') (rest : Bytes) :
    listRound body a (t ++ rest) = .ok (.inl a', rest) := by
  have hround : listRound body a (t ++ rest) =
      ((body a >>= fun a => pure (Sum.inl a)) : Stream (α ⊕ α)) (t ++ rest) := by
    rw [listRound, bind_apply, endOfList_of_startsItem hstart]
    rfl
  rw [hround, bind_apply, h rest]
  rfl

theorem loopFuel_listRound {l : List β}
    (hbody : ∀ a, ∀ b ∈ l, Reads (body a) (text b) (update a b)) {fuel : Nat}
    (hfuel : l.length < fuel) (a : α) (rest : Bytes) :
    loopFuel .diverges (listRound body) fuel a (l.flatMap (fun b => 44 :: text b) ++ 93 :: rest) =
      .ok (l.foldl update a, rest) := by
  induction l generalizing fuel a with
  | nil =>
      obtain ⟨fuel, rfl⟩ : ∃ n, fuel = n + 1 := ⟨fuel - 1, by simp at hfuel; omega⟩
      rw [loopFuel_succ]
      rfl
  | cons b l ih =>
      obtain ⟨fuel, rfl⟩ : ∃ n, fuel = n + 1 := ⟨fuel - 1, by simp at hfuel; omega⟩
      rw [loopFuel_succ, List.flatMap_cons, List.append_assoc,
        listRound_comma (hbody a b (by simp))]
      exact ih (fun a c hc => hbody a c (by simp [hc])) (by simpa using hfuel) _

theorem length_le_flatMap (text : β → Bytes) (l : List β) :
    l.length ≤ (l.flatMap fun b => 44 :: text b).length := by
  induction l with
  | nil => simp
  | cons b l ih =>
      simp only [List.flatMap_cons, List.length_append, List.length_cons]
      omega

theorem reads_untilEndOfList {l : List β}
    (hbody : ∀ a, ∀ b ∈ l, Reads (body a) (text b) (update a b))
    (hstart : ∀ b ∈ l, StartsItem (text b)) (a : α) :
    Reads (untilEndOfList body a) (commaSeparated (l.map text) ++ [93]) (l.foldl update a) := by
  intro rest
  rw [untilEndOfList, loop]
  cases l with
  | nil =>
      rw [loopFuel_succ]
      rfl
  | cons b l =>
      have htext : commaSeparated ((b :: l).map text) ++ [93] ++ rest =
          text b ++ (l.flatMap (fun b => 44 :: text b) ++ 93 :: rest) := by
        simp [commaSeparated, List.flatMap_map]
      have hlen := length_le_flatMap text l
      rw [loopFuel_succ, htext, listRound_startsItem (hstart b (by simp)) (hbody a b (by simp))]
      refine loopFuel_listRound (fun a c hc => hbody a c (by simp [hc])) ?_ _ rest
      simp only [List.length_append, List.length_cons]
      omega

end Lists

end Nix.Store.ATerms
