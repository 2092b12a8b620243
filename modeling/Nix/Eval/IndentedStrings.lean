import Mathlib.Data.FinEnum
import Mathlib.Data.List.Chain
import Mathlib.Data.List.TakeWhile
import Nix.Eval.StringLiterals
import Nix.Util.CanonPaths

/-!
Indented strings: their tokens, and the removal of the indentation.
-/

set_option linter.dupNamespace false

namespace Nix.Eval.IndentedStrings

open Util.Types Util.CanonPaths Lib.Results Lib.Scanners Eval.StringLiterals

variable {ε : Type}

def apostrophe : UInt8 := 39

def space : UInt8 := 32

def newline : UInt8 := 10

structure StringToken where
  p : Bytes
  hasIndentation : Bool := false
  deriving DecidableEq

/-- A part of an indented string: an expression or a token. -/
inductive IndPart (ε : Type)
  | expr (e : ε)
  | str (t : StringToken)

/-! ### The state `IND_STRING` -/

inductive IndAction
  | text
  | dollar
  | quotes
  | escape
  | dollarCurly
  | close
  | apostrophe
  deriving DecidableEq

/-- `[^\$\']|\$[^\{\']|\'[^\'\$]`. -/
def indChar : Pattern UInt8 :=
  .alt (notIn [dollar, apostrophe])
    (.alt (.seq (char dollar) (notIn [curly, apostrophe]))
      (.seq (char apostrophe) (notIn [apostrophe, dollar])))

/-- `''` before a pattern. -/
def quoted (r : Pattern UInt8) : Pattern UInt8 :=
  .seq (char apostrophe) (.seq (char apostrophe) r)

def indRules : List (Rule UInt8 IndAction) :=
  [⟨.plus indChar, none, .text⟩,
    ⟨quoted (char dollar), none, .dollar⟩,
    ⟨char dollar, none, .dollar⟩,
    ⟨quoted (char apostrophe), none, .quotes⟩,
    ⟨quoted (.seq (char backslash) any), none, .escape⟩,
    ⟨.seq (char dollar) (char curly), none, .dollarCurly⟩,
    ⟨.seq (char apostrophe) (char apostrophe), none, .close⟩,
    ⟨char apostrophe, none, .apostrophe⟩]

/-- The token that a rule makes of its text, if it makes a string. -/
def IndAction.token : IndAction → Bytes → Option (Except Error StringToken)
  | text, yytext => some do
      forceNoNullByte yytext
      return ⟨yytext, true⟩
  | dollar, _ => some (.ok ⟨str "$", false⟩)
  | quotes, _ => some (.ok ⟨str "''", false⟩)
  | escape, yytext => some do
      let value ← unescapeStr (yytext.drop 2)
      return ⟨value, false⟩
  | apostrophe, _ => some (.ok ⟨str "'", false⟩)
  | dollarCurly, _ => none
  | close, _ => none

/-- The parts that are read from a text. What is read of an interpolation, and where the text goes
on after it, is left open. -/
inductive Lexes : Bytes → List (IndPart ε) → Prop
  | close {text n} (h : scanAction indRules text = some (.close, n)) : Lexes text []
  | str {text action n t es} (h : scanAction indRules text = some (action, n))
      (ht : action.token (text.take n) = some (.ok t)) (hes : Lexes (text.drop n) es) :
      Lexes text (.str t :: es)
  | expr {text n e text' es} (h : scanAction indRules text = some (.dollarCurly, n))
      (hes : Lexes text' es) : Lexes text (.expr e :: es)

/-! ### `stripIndentation` -/

/-- The state of the loop that finds the minimum indentation. -/
structure Measure where
  atStartOfLine : Bool := true
  minIndent : Nat := 1000000
  curIndent : Nat := 0

namespace Measure

/-- The end of the whitespace at the start of a line. -/
def endOfSpaces (m : Measure) : Measure :=
  if m.atStartOfLine then
    { m with
      atStartOfLine := false
      minIndent := if m.curIndent < m.minIndent then m.curIndent else m.minIndent }
  else m

def char (m : Measure) (c : UInt8) : Measure :=
  if m.atStartOfLine then
    if c = space then { m with curIndent := m.curIndent + 1 }
    else if c = newline then { m with curIndent := 0 }
    else m.endOfSpaces
  else if c = newline then { m with atStartOfLine := true, curIndent := 0 }
  else m

def part (m : Measure) : IndPart ε → Measure
  | .expr _ => m.endOfSpaces
  | .str t => if t.hasIndentation then t.p.foldl char m else m.endOfSpaces

end Measure

def minIndent (es : List (IndPart ε)) : Nat :=
  (es.foldl Measure.part {}).minIndent

/-- The state of the loop that strips the spaces. -/
structure Trim where
  atStartOfLine : Bool := true
  curDropped : Nat := 0

namespace Trim

variable (minIndent : Nat)

def char (t : Trim) (c : UInt8) : Trim × Bool :=
  if t.atStartOfLine then
    if c = space then ({ t with curDropped := t.curDropped + 1 }, t.curDropped ≥ minIndent)
    else if c = newline then ({ t with curDropped := 0 }, true)
    else (⟨false, 0⟩, true)
  else if c = newline then ({ t with atStartOfLine := true }, true)
  else (t, true)

/-- The loop of `trimString`. -/
def chars : Trim → Bytes → Trim × Bytes
  | t, [] => (t, [])
  | t, c :: s =>
      let (t, copied) := t.char minIndent c
      let (t, s2) := chars t s
      (t, if copied then c :: s2 else s2)

example : chars 1 {} [space, space] = (⟨true, 2⟩, [space]) := by
  rw [chars]
  rfl

end Trim

/-- The last line is removed if it consists only of spaces. -/
def dropLastLine (s2 : Bytes) : Bytes :=
  match rfind newline s2 with
  | some p => if ∀ c ∈ s2.drop (p + 1), c = space then s2.take (p + 1) else s2
  | none => s2

/-- A part of the result. -/
inductive Part (ε : Type)
  | expr (e : ε)
  | str (s : Bytes)

def trimParts (minIndent : Nat) : Trim → List (IndPart ε) → List (Part ε)
  | _, [] => []
  | _, .expr e :: es => .expr e :: trimParts minIndent ⟨false, 0⟩ es
  | t, .str token :: es =>
      let (t, s2) := t.chars minIndent token.p
      let s2 := if es.isEmpty then dropLastLine s2 else s2
      if s2 ≠ [] then .str s2 :: trimParts minIndent t es else trimParts minIndent t es

/-- What an indented string is parsed to. -/
inductive Stripped (ε : Type)
  | single (part : Part ε)
  | concatStrings (es : List (Part ε))

def stripIndentation (isExprString : ε → Bool) (es : List (IndPart ε)) : Stripped ε :=
  if es.isEmpty then .single (.str [])
  else
    match trimParts (minIndent es) {} es with
    | [] => .single (.str [])
    | [.str s] => .single (.str s)
    | [.expr e] => if isExprString e then .single (.expr e) else .concatStrings [.expr e]
    | es2 => .concatStrings es2

def Part.pieces : Part ε → List (UInt8 ⊕ ε)
  | expr e => [.inr e]
  | str s => s.map .inl

def Stripped.pieces : Stripped ε → List (UInt8 ⊕ ε)
  | single part => part.pieces
  | concatStrings es => es.flatMap Part.pieces

/-! ### The source lines of an indented string, and what is left of them -/

variable {ε : Type}

/-! ### Source lines -/

/-- An element of an indented string. -/
inductive Item (ε : Type)
  | plain (c : UInt8)
  | escaped (c : UInt8)
  | value (e : ε)

namespace Item

def piece : Item ε → UInt8 ⊕ ε
  | plain c => .inl c
  | escaped c => .inl c
  | value e => .inr e

def isSpace : Item ε → Bool
  | plain c => c = space
  | _ => false

def isNewline : Item ε → Bool
  | plain c => c = newline
  | _ => false

end Item

def IndPart.items : IndPart ε → List (Item ε)
  | expr e => [.value e]
  | str t => t.p.map fun c => if t.hasIndentation then .plain c else .escaped c

/-- The elements of the lines. Escapes do not end a line. -/
def splitLines : List (Item ε) → List (List (Item ε))
  | [] => [[]]
  | i :: is =>
      if i.isNewline then [] :: splitLines is
      else
        match splitLines is with
        | [] => [[i]]
        | line :: lines => (i :: line) :: lines

def leadingSpaces (line : List (Item ε)) : Nat :=
  (line.takeWhile Item.isSpace).length

/-- The least number of leading spaces of a line that is not blank, or a million. -/
def indentation (lines : List (List (Item ε))) : Nat :=
  ((lines.filter fun line => !line.all Item.isSpace).map leadingSpaces).foldr min 1000000

def stripLine (indent : Nat) (line : List (Item ε)) : List (Item ε) :=
  line.drop (min indent (leadingSpaces line))

def joinLines (lines : List (List (Item ε))) : List (Item ε) :=
  [Item.plain newline].intercalate lines

def removeBlankEnd (lines : List (List (Item ε))) : List (List (Item ε)) :=
  if 1 < lines.length ∧ ∀ line ∈ lines.getLast?, line.all Item.isSpace then
    lines.dropLast ++ [[]]
  else lines

/-- The indentation is removed from every source line, and so is a blank final line. -/
def stripLines (is : List (Item ε)) : List (Item ε) :=
  joinLines ((removeBlankEnd (splitLines is)).map (stripLine (indentation (splitLines is))))

/-- No newline that an escape makes is followed by a space on the same source line. -/
def EscapesApart (is : List (Item ε)) : Prop :=
  is.IsChain fun i j => i = .escaped newline → j.piece ≠ .inl space

/-! ### Lines -/

section Lines

variable {i : Item ε} {is js line : List (Item ε)} {lines : List (List (Item ε))}

theorem splitLines_ne_nil (is : List (Item ε)) : splitLines is ≠ [] := by
  cases is with
  | nil => exact List.cons_ne_nil _ _
  | cons i is =>
    rw [splitLines]
    split
    next => exact List.cons_ne_nil _ _
    next => split <;> exact List.cons_ne_nil _ _

theorem splitLines_cons_newline (h : i.isNewline = true) :
    splitLines (i :: is) = [] :: splitLines is := by
  rw [splitLines, if_pos h]

theorem splitLines_cons (h : ¬i.isNewline = true) (hlines : splitLines is = line :: lines) :
    splitLines (i :: is) = (i :: line) :: lines := by
  rw [splitLines, if_neg h, hlines]

theorem splitLines_append_newline (is js : List (Item ε)) (h : i.isNewline = true) :
    splitLines (is ++ i :: js) = splitLines is ++ splitLines js := by
  induction is with
  | nil => exact splitLines_cons_newline h
  | cons j is ih =>
    by_cases hj : j.isNewline = true
    · rw [List.cons_append, splitLines_cons_newline hj, splitLines_cons_newline hj, ih]
      rfl
    · obtain ⟨line, lines, hlines⟩ := List.exists_cons_of_ne_nil (splitLines_ne_nil is)
      rw [hlines, List.cons_append] at ih
      rw [List.cons_append, splitLines_cons hj ih, splitLines_cons hj hlines]
      rfl

theorem splitLines_of_notMem (h : ∀ i ∈ is, ¬i.isNewline = true) : splitLines is = [is] := by
  induction is with
  | nil => rfl
  | cons i is ih =>
    obtain ⟨hi, his⟩ := List.forall_mem_cons.mp h
    exact splitLines_cons hi (ih his)

theorem getLast?_splitLines_append (is : List (Item ε)) (h : ∀ j ∈ js, ¬j.isNewline = true) :
    ∃ line, (splitLines (is ++ js)).getLast? = some (line ++ js) := by
  induction is with
  | nil =>
    rw [List.nil_append, splitLines_of_notMem h]
    exact ⟨[], rfl⟩
  | cons i is ih =>
    obtain ⟨last, hlast⟩ := ih
    obtain ⟨line, lines, hlines⟩ := List.exists_cons_of_ne_nil (splitLines_ne_nil (is ++ js))
    by_cases hi : i.isNewline = true
    · refine ⟨last, ?_⟩
      rw [List.cons_append, splitLines_cons_newline hi, hlines, List.getLast?_cons_cons, ← hlines,
        hlast]
    · rw [List.cons_append, splitLines_cons hi hlines]
      rw [hlines] at hlast
      cases lines with
      | nil =>
        obtain rfl : line = last ++ js := Option.some.inj hlast
        exact ⟨i :: last, rfl⟩
      | cons line' lines =>
        rw [List.getLast?_cons_cons] at hlast ⊢
        exact ⟨last, hlast⟩

theorem notMem_of_mem_splitLines (h : line ∈ splitLines is) : ∀ i ∈ line, ¬i.isNewline = true := by
  induction is generalizing line with
  | nil =>
    rw [List.mem_singleton.mp h]
    exact fun _ hi => absurd hi List.not_mem_nil
  | cons i is ih =>
    obtain ⟨first, lines, hlines⟩ := List.exists_cons_of_ne_nil (splitLines_ne_nil is)
    by_cases hi : i.isNewline = true
    · rw [splitLines_cons_newline hi] at h
      rcases List.mem_cons.mp h with rfl | h
      · exact fun _ hi => absurd hi List.not_mem_nil
      · exact ih h
    · rw [splitLines_cons hi hlines] at h
      rw [hlines] at ih
      rcases List.mem_cons.mp h with rfl | h
      · exact List.forall_mem_cons.mpr ⟨hi, ih List.mem_cons_self⟩
      · exact ih (List.mem_cons_of_mem _ h)

theorem joinLines_cons (line : List (Item ε)) (h : lines ≠ []) :
    joinLines (line :: lines) = line ++ .plain newline :: joinLines lines := by
  obtain ⟨line', lines, rfl⟩ := List.exists_cons_of_ne_nil h
  rw [joinLines, joinLines, List.intercalate, List.intersperse_cons_cons, List.flatten_cons,
    List.flatten_cons]
  rfl

theorem joinLines_append_singleton (h : lines ≠ []) (line : List (Item ε)) :
    joinLines (lines ++ [line]) = joinLines lines ++ .plain newline :: line := by
  induction lines with
  | nil => exact absurd rfl h
  | cons first lines ih =>
    rcases eq_or_ne lines [] with rfl | hne
    · simp [joinLines, List.intercalate]
    · rw [List.cons_append, joinLines_cons first (List.append_ne_nil_of_left_ne_nil hne _),
        ih hne, joinLines_cons first hne, List.append_assoc]
      rfl

theorem isNewline_iff : i.isNewline = true ↔ i = .plain newline := by
  cases i <;> simp [Item.isNewline]

theorem joinLines_splitLines (is : List (Item ε)) : joinLines (splitLines is) = is := by
  induction is with
  | nil => rfl
  | cons i is ih =>
    obtain ⟨line, lines, hlines⟩ := List.exists_cons_of_ne_nil (splitLines_ne_nil is)
    by_cases hi : i.isNewline = true
    · rw [splitLines_cons_newline hi, joinLines_cons [] (splitLines_ne_nil is), ih,
        isNewline_iff.mp hi]
      rfl
    · rw [hlines] at ih
      rw [splitLines_cons hi hlines]
      rcases eq_or_ne lines [] with rfl | hne
      · rw [← ih]
        simp [joinLines, List.intercalate]
      · rw [joinLines_cons _ hne, List.cons_append, ← joinLines_cons _ hne, ih]

theorem removeBlankEnd_of_not_blank (hlast : lines.getLast? = some line)
    (h : ¬line.all Item.isSpace = true) : removeBlankEnd lines = lines := by
  rw [removeBlankEnd, if_neg]
  rintro ⟨-, hall⟩
  exact h (hall line hlast)

end Lines

/-! ### The minimum indentation -/

def Measure.item (m : Measure) : Item ε → Measure
  | .plain c => m.char c
  | .escaped _ => m.endOfSpaces
  | .value _ => m.endOfSpaces

theorem endOfSpaces_idem (m : Measure) : m.endOfSpaces.endOfSpaces = m.endOfSpaces := by
  unfold Measure.endOfSpaces
  split <;> rfl

theorem measure_part (m : Measure) {e : IndPart ε}
    (h : ∀ t, e = .str t → t.hasIndentation = false → t.p ≠ []) :
    m.part e = e.items.foldl Measure.item m := by
  cases e with
  | expr e => rfl
  | str t =>
    obtain ⟨p, hasIndentation⟩ := t
    rw [IndPart.items, List.foldl_map]
    cases hasIndentation with
    | true => rfl
    | false =>
      obtain ⟨c, p, rfl⟩ := List.exists_cons_of_ne_nil (h _ rfl rfl)
      have hrest : ∀ p : Bytes, p.foldl (fun m _ => m.endOfSpaces) m.endOfSpaces =
          m.endOfSpaces := by
        intro p
        induction p with
        | nil => rfl
        | cons c p ih => rw [List.foldl_cons, endOfSpaces_idem, ih]
      exact (hrest p).symm

theorem indentation_le (lines : List (List (Item ε))) : indentation lines ≤ 1000000 := by
  rw [indentation]
  generalize (lines.filter fun line => !line.all Item.isSpace).map leadingSpaces = ns
  induction ns with
  | nil => exact Nat.le_refl _
  | cons n ns ih => exact (Nat.min_le_right _ _).trans ih

theorem indentation_cons_blank {line : List (Item ε)} (h : line.all Item.isSpace = true)
    (lines : List (List (Item ε))) : indentation (line :: lines) = indentation lines := by
  rw [indentation, List.filter_cons_of_neg (by simp [h])]
  rfl

theorem indentation_cons {line : List (Item ε)} (h : ¬line.all Item.isSpace = true)
    (lines : List (List (Item ε))) :
    indentation (line :: lines) = min (leadingSpaces line) (indentation lines) := by
  rw [indentation, List.filter_cons_of_pos (by simpa using h)]
  rfl

theorem indentation_le_leadingSpaces {lines : List (List (Item ε))} {line : List (Item ε)}
    (hmem : line ∈ lines) (h : ¬line.all Item.isSpace = true) :
    indentation lines ≤ leadingSpaces line := by
  induction lines with
  | nil => exact absurd hmem List.not_mem_nil
  | cons first lines ih =>
    by_cases hfirst : first.all Item.isSpace = true
    · rw [indentation_cons_blank hfirst]
      rcases List.mem_cons.mp hmem with rfl | hmem
      · exact absurd hfirst h
      · exact ih hmem
    · rw [indentation_cons hfirst]
      rcases List.mem_cons.mp hmem with rfl | hmem
      · exact Nat.min_le_left _ _
      · exact (Nat.min_le_right _ _).trans (ih hmem)

/-- What the lines that are left contribute, of which the first one has begun. -/
def Measure.rest (m : Measure) : List (List (Item ε)) → Nat
  | [] => 1000000
  | line :: lines =>
      if m.atStartOfLine ∧ ¬line.all Item.isSpace then
        min (m.curIndent + leadingSpaces line) (indentation lines)
      else indentation lines

theorem leadingSpaces_cons_space {i : Item ε} (h : i.isSpace = true) (line : List (Item ε)) :
    leadingSpaces (i :: line) = leadingSpaces line + 1 := by
  rw [leadingSpaces, List.takeWhile_cons_of_pos h]
  rfl

theorem leadingSpaces_cons {i : Item ε} (h : ¬i.isSpace = true) (line : List (Item ε)) :
    leadingSpaces (i :: line) = 0 := by
  rw [leadingSpaces, List.takeWhile_cons_of_neg h]
  rfl

theorem isSpace_iff {i : Item ε} : i.isSpace = true ↔ i = .plain space := by
  cases i <;> simp [Item.isSpace]

theorem measure_item {i : Item ε} (hspace : ¬i.isSpace = true) (hnewline : ¬i.isNewline = true)
    (m : Measure) : m.item i = m.endOfSpaces := by
  cases i with
  | plain c =>
    have hs : c ≠ space := fun h => hspace (decide_eq_true h)
    have hn : c ≠ newline := fun h => hnewline (decide_eq_true h)
    rw [Measure.item, Measure.char, if_neg hs, if_neg hn, if_neg hn]
    split
    next => rfl
    next h => rw [Measure.endOfSpaces, if_neg h]
  | escaped c => rfl
  | value e => rfl

theorem minIndent_foldl (is : List (Item ε)) {m : Measure} (hm : m.minIndent ≤ 1000000) :
    (is.foldl Measure.item m).minIndent = min m.minIndent (m.rest (splitLines is)) := by
  induction is generalizing m with
  | nil =>
    have hrest : m.rest (splitLines ([] : List (Item ε))) = 1000000 := if_neg fun h => h.2 rfl
    rw [hrest, List.foldl_nil, Nat.min_eq_left hm]
  | cons i is ih =>
    obtain ⟨line, lines, hlines⟩ := List.exists_cons_of_ne_nil (splitLines_ne_nil is)
    rw [List.foldl_cons]
    by_cases hnewline : i.isNewline = true
    · obtain rfl := isNewline_iff.mp hnewline
      have hitem : (m.item (.plain newline : Item ε)) =
          { m with atStartOfLine := true, curIndent := 0 } := by
        rw [Measure.item, Measure.char]
        split
        next h =>
          rw [if_neg (by decide), if_pos rfl, ← h]
        next => rw [if_pos rfl]
      have hblank : m.rest (splitLines (.plain newline :: is)) = indentation (splitLines is) := by
        rw [splitLines_cons_newline hnewline]
        exact if_neg fun h => h.2 rfl
      rw [hitem, @ih { m with atStartOfLine := true, curIndent := 0 } hm, hblank, hlines]
      congr 1
      rw [Measure.rest]
      split
      next h =>
        rw [indentation_cons h.2]
        show min (0 + leadingSpaces line) _ = _
        rw [Nat.zero_add]
      next h =>
        rw [indentation_cons_blank]
        by_contra hnot
        exact h ⟨rfl, hnot⟩
    · rw [splitLines_cons hnewline hlines]
      by_cases hspace : i.isSpace = true
      · obtain rfl := isSpace_iff.mp hspace
        have hall : ((Item.plain space : Item ε) :: line).all Item.isSpace =
            line.all Item.isSpace := rfl
        by_cases hstart : m.atStartOfLine = true
        · have hitem : (m.item (.plain space : Item ε)) =
              { m with curIndent := m.curIndent + 1 } := by
            rw [Measure.item, Measure.char, if_pos hstart, if_pos rfl]
          rw [hitem, @ih { m with curIndent := m.curIndent + 1 } hm, hlines, Measure.rest,
            Measure.rest, hall, leadingSpaces_cons_space hspace]
          show min _ (if m.atStartOfLine = true ∧ _ then
            min (m.curIndent + 1 + leadingSpaces line) _ else _) = _
          rw [Nat.add_assoc, Nat.add_comm 1]
        · have hitem : (m.item (.plain space : Item ε)) = m := by
            rw [Measure.item, Measure.char, if_neg hstart, if_neg (by decide)]
          rw [hitem, ih hm, hlines, Measure.rest, Measure.rest, hall,
            if_neg fun h => hstart h.1, if_neg fun h => hstart h.1]
      · -- the line has its indentation
        have hall : ¬(i :: line).all Item.isSpace = true := by
          simp [hspace]
        rw [measure_item hspace hnewline]
        have hend : m.endOfSpaces.atStartOfLine = false := by
          unfold Measure.endOfSpaces
          split
          next => rfl
          next h => exact Bool.eq_false_iff.mpr h
        have hle : m.endOfSpaces.minIndent ≤ 1000000 := by
          unfold Measure.endOfSpaces
          split
          next =>
            dsimp only
            split
            next h => exact (Nat.le_of_lt h).trans hm
            next => exact hm
          next => exact hm
        have hnot : ¬(m.endOfSpaces.atStartOfLine = true ∧ ¬line.all Item.isSpace = true) := by
          rw [hend]
          exact fun h => nomatch h.1
        rw [ih hle, hlines, Measure.rest, Measure.rest, if_neg hnot,
          leadingSpaces_cons hspace, Nat.add_zero]
        by_cases hstart : m.atStartOfLine = true
        · have hmin : m.endOfSpaces.minIndent = min m.minIndent m.curIndent := by
            rw [Measure.endOfSpaces, if_pos hstart]
            dsimp only
            split
            next h => exact (Nat.min_eq_right (Nat.le_of_lt h)).symm
            next h => exact (Nat.min_eq_left (Nat.le_of_not_lt h)).symm
          rw [if_pos ⟨hstart, hall⟩, hmin, Nat.min_assoc]
        · rw [Measure.endOfSpaces, if_neg hstart, if_neg fun h => hstart h.1]

/-! ### The spaces that are stripped -/

def Trim.item (minIndent : Nat) (t : Trim) : Item ε → Trim × Bool
  | .plain c => t.char minIndent c
  | .escaped c => t.char minIndent c
  | .value _ => (⟨false, 0⟩, true)

def trimItems (minIndent : Nat) : Trim → List (Item ε) → List (Item ε)
  | _, [] => []
  | t, i :: is =>
      if (t.item minIndent i).2 then i :: trimItems minIndent (t.item minIndent i).1 is
      else trimItems minIndent (t.item minIndent i).1 is

def trimState (minIndent : Nat) (t : Trim) (is : List (Item ε)) : Trim :=
  is.foldl (fun t i => (t.item minIndent i).1) t

section Trimming

variable {m : Nat} {t : Trim} {i : Item ε} {is js line : List (Item ε)}

theorem trimItems_append (m : Nat) (t : Trim) (is js : List (Item ε)) :
    trimItems m t (is ++ js) = trimItems m t is ++ trimItems m (trimState m t is) js := by
  induction is generalizing t with
  | nil => rfl
  | cons i is ih =>
    rw [List.cons_append, trimItems, trimItems, ih]
    split <;> rfl

theorem length_trimItems_le (m : Nat) (t : Trim) (is : List (Item ε)) :
    (trimItems m t is).length ≤ is.length := by
  induction is generalizing t with
  | nil => exact Nat.le_refl 0
  | cons i is ih =>
    rw [trimItems]
    split
    next => exact Nat.succ_le_succ (ih _)
    next => exact (ih _).trans (Nat.le_succ _)

def Trim.Settled (t : Trim) : Prop :=
  t.atStartOfLine = false → t.curDropped = 0

theorem settled_item (h : t.Settled) (m : Nat) (i : Item ε) : (t.item m i).1.Settled := by
  have hchar : ∀ c, (t.char m c).1.Settled := by
    intro c
    unfold Trim.char
    split_ifs with hstart hspace hnewline hnewline
    · exact fun hnot => absurd hstart (by simpa using hnot)
    · exact fun hnot => absurd hstart (by simpa using hnot)
    · exact fun _ => rfl
    · exact fun hnot => nomatch hnot
    · exact h
  cases i with
  | plain c => exact hchar c
  | escaped c => exact hchar c
  | value e => exact fun _ => rfl

theorem settled_trimState (h : t.Settled) (m : Nat) (is : List (Item ε)) :
    (trimState m t is).Settled := by
  induction is generalizing t with
  | nil => exact h
  | cons i is ih => exact ih (settled_item h m i)

theorem item_newline (h : t.Settled) (m : Nat) {i : Item ε} (hi : i.piece = .inl newline) :
    t.item m i = (⟨true, 0⟩, true) := by
  have hchar : t.char m newline = (⟨true, 0⟩, true) := by
    unfold Trim.char
    split_ifs with hstart hspace hnewline hnewline
    · exact absurd hspace (by decide)
    · rw [← hstart]
    · exact absurd rfl hnewline
    · rw [h (Bool.eq_false_iff.mpr hstart)]
    · exact absurd rfl hnewline
  cases i with
  | plain c =>
    obtain rfl : c = newline := Sum.inl.inj hi
    exact hchar
  | escaped c =>
    obtain rfl : c = newline := Sum.inl.inj hi
    exact hchar
  | value e => cases hi

theorem item_space (m : Nat) (d : Nat) {i : Item ε} (hi : i.piece = .inl space) :
    Trim.item m ⟨true, d⟩ i = (⟨true, d + 1⟩, decide (d ≥ m)) := by
  cases i with
  | plain c =>
    obtain rfl : c = space := Sum.inl.inj hi
    rfl
  | escaped c =>
    obtain rfl : c = space := Sum.inl.inj hi
    rfl
  | value e => cases hi

theorem item_other (m : Nat) {i : Item ε} (hnewline : i.piece ≠ .inl newline)
    (hspace : t.atStartOfLine = true → i.piece ≠ .inl space) :
    (t.item m i).2 = true ∧ (t.item m i).1.atStartOfLine = false := by
  have hchar : ∀ c, (Sum.inl c : UInt8 ⊕ ε) = i.piece → (t.char m c).2 = true ∧
      (t.char m c).1.atStartOfLine = false := by
    intro c hc
    have hn : c ≠ newline := fun h => hnewline (by rw [← hc, h])
    unfold Trim.char
    by_cases hstart : t.atStartOfLine = true
    · have hs : c ≠ space := fun h => hspace hstart (by rw [← hc, h])
      rw [if_pos hstart, if_neg hs, if_neg hn]
      exact ⟨rfl, rfl⟩
    · rw [if_neg hstart, if_neg hn]
      exact ⟨rfl, Bool.eq_false_iff.mpr hstart⟩
  cases i with
  | plain c => exact hchar c rfl
  | escaped c => exact hchar c rfl
  | value e => exact ⟨rfl, rfl⟩

theorem trimItems_spaces (m d : Nat) (h : ∀ i ∈ is, i.isSpace = true) :
    trimItems m ⟨true, d⟩ is = is.drop (m - d) ∧
      trimState m ⟨true, d⟩ is = ⟨true, d + is.length⟩ := by
  induction is generalizing d with
  | nil => exact ⟨(List.drop_nil).symm, rfl⟩
  | cons i is ih =>
    obtain ⟨hi, his⟩ := List.forall_mem_cons.mp h
    have hitem := @item_space _ m d i (by rw [isSpace_iff.mp hi]; rfl)
    obtain ⟨hrest, hstate⟩ := ih (d + 1) his
    rw [trimItems, trimState, List.foldl_cons, hitem, hrest, ← trimState, hstate, List.length_cons,
      Nat.add_assoc, Nat.add_comm 1]
    refine ⟨?_, rfl⟩
    rcases Nat.lt_or_ge d m with hlt | hge
    · rw [if_neg (by simpa using hlt)]
      obtain ⟨k, rfl⟩ := Nat.exists_eq_add_of_lt hlt
      rw [show d + k + 1 - d = k + 1 by omega, show d + k + 1 - (d + 1) = k by omega]
      rfl
    · rw [if_pos (by simpa using hge), Nat.sub_eq_zero_of_le hge,
        Nat.sub_eq_zero_of_le (Nat.le_succ_of_le hge)]
      rfl

theorem trimItems_eq_self (ht : t.Settled) (hline : ∀ i ∈ is, ¬i.isNewline = true)
    (hapart : m = 0 ∨ EscapesApart is)
    (hstart : t.atStartOfLine = true → m ≤ t.curDropped ∨ ∀ i ∈ is.head?, i.piece ≠ .inl space) :
    trimItems m t is = is := by
  induction is generalizing t with
  | nil => rfl
  | cons i is ih =>
    obtain ⟨hi, his⟩ := List.forall_mem_cons.mp hline
    have hrest : m = 0 ∨ EscapesApart is := hapart.imp_right List.IsChain.tail
    have hsettled := settled_item ht m i
    suffices hstep : (t.item m i).2 = true ∧ ((t.item m i).1.atStartOfLine = true →
        m ≤ (t.item m i).1.curDropped ∨ ∀ j ∈ is.head?, j.piece ≠ .inl space) by
      rw [trimItems, if_pos hstep.1, ih hsettled his hrest hstep.2]
    by_cases hnewline : i.piece = .inl newline
    · -- only an escape makes a newline here
      rw [item_newline ht m hnewline]
      refine ⟨rfl, fun _ => ?_⟩
      rcases hapart with rfl | hapart
      · exact .inl (Nat.le_refl 0)
      · right
        intro j hj
        have hescaped : i = .escaped newline := by
          cases i with
          | plain c => exact absurd (decide_eq_true (Sum.inl.inj hnewline)) hi
          | escaped c => rw [Sum.inl.inj hnewline]
          | value e => cases hnewline
        exact (List.isChain_cons.mp hapart).1 j hj hescaped
    · by_cases hspace : t.atStartOfLine = true ∧ i.piece = .inl space
      · obtain ⟨hatStart, hpiece⟩ := hspace
        have hle : m ≤ t.curDropped := (hstart hatStart).resolve_right fun h => h i rfl hpiece
        have hitem := @item_space _ m t.curDropped i hpiece
        rw [← hatStart] at hitem
        rw [hitem]
        exact ⟨decide_eq_true hle, fun _ => .inl (Nat.le_succ_of_le hle)⟩
      · have hother := @item_other _ t m i hnewline fun h hpiece => hspace ⟨h, hpiece⟩
        refine ⟨hother.1, fun h => ?_⟩
        rw [hother.2] at h
        cases h

theorem length_trimItems_lt (hm : 0 < m) (ht : t.Settled) (hapart : ¬EscapesApart is) :
    (trimItems m t is).length < is.length := by
  induction is generalizing t with
  | nil => exact absurd List.isChain_nil hapart
  | cons i is ih =>
    by_cases hrest : EscapesApart is
    · obtain ⟨j, hj, hi, hspace⟩ : ∃ j ∈ is.head?, i = .escaped newline ∧
          j.piece = .inl space := by
        by_contra hnone
        refine hapart (List.isChain_cons.mpr ⟨fun j hj hi hspace => ?_, hrest⟩)
        exact hnone ⟨j, hj, hi, hspace⟩
      obtain ⟨js, rfl⟩ : ∃ js, is = j :: js := by
        cases is with
        | nil => cases hj
        | cons k js => exact ⟨js, by rw [Option.some.inj hj]⟩
      have hdropped : Trim.item m ⟨true, 0⟩ j = (⟨true, 1⟩, false) := by
        rw [item_space m 0 hspace]
        exact congrArg _ (decide_eq_false (Nat.not_le.mpr hm))
      rw [trimItems, item_newline ht m (by rw [hi]; rfl), if_pos rfl, trimItems, hdropped,
        if_neg Bool.false_ne_true]
      exact Nat.succ_lt_succ (Nat.lt_succ_of_le (length_trimItems_le _ _ _))
    · have hlt := ih (settled_item ht m i) hrest
      rw [trimItems]
      split
      next => exact Nat.succ_lt_succ hlt
      next => exact hlt.trans (Nat.lt_succ_self _)

/-! ### Whole lines -/

theorem stripLine_append {spaces rest : List (Item ε)} (hspaces : ∀ i ∈ spaces, i.isSpace = true)
    (hrest : ∀ i ∈ rest.head?, ¬i.isSpace = true) (m : Nat) :
    leadingSpaces (spaces ++ rest) = spaces.length ∧
      stripLine m (spaces ++ rest) = spaces.drop m ++ rest := by
  have hleading : leadingSpaces (spaces ++ rest) = spaces.length := by
    rw [leadingSpaces, List.takeWhile_append_of_pos hspaces]
    cases rest with
    | nil => rw [List.takeWhile_nil, List.append_nil]
    | cons i rest => rw [List.takeWhile_cons_of_neg (hrest i rfl), List.append_nil]
  refine ⟨hleading, ?_⟩
  rw [stripLine, hleading]
  rcases Nat.le_total m spaces.length with hle | hge
  · rw [Nat.min_eq_left hle, List.drop_append_of_le_length hle]
  · rw [Nat.min_eq_right hge, List.drop_left, List.drop_eq_nil_of_le hge, List.nil_append]

theorem exists_spaces_append (line : List (Item ε)) :
    ∃ spaces rest, line = spaces ++ rest ∧ (∀ i ∈ spaces, i.isSpace = true) ∧
      ∀ i ∈ rest.head?, ¬i.isSpace = true := by
  refine ⟨line.takeWhile Item.isSpace, line.dropWhile Item.isSpace,
    List.takeWhile_append_dropWhile.symm, fun i hi => List.mem_takeWhile_imp hi, fun i hi => ?_⟩
  have hnot := List.head?_dropWhile_not Item.isSpace line
  rw [Option.mem_def.mp hi] at hnot
  exact Bool.eq_false_iff.mp hnot

theorem escapesApart_spaces_append {spaces rest : List (Item ε)}
    (hspaces : ∀ i ∈ spaces, i.isSpace = true) :
    EscapesApart (spaces ++ rest) ↔ EscapesApart rest := by
  have hplain : ∀ i ∈ spaces, i ≠ .escaped newline := by
    rintro i hi rfl
    exact nomatch hspaces _ hi
  induction spaces with
  | nil => exact Iff.rfl
  | cons i spaces ih =>
    obtain ⟨hi, hspaces⟩ := List.forall_mem_cons.mp hspaces
    obtain ⟨hip, hplain⟩ := List.forall_mem_cons.mp hplain
    refine List.isChain_cons.trans (Iff.trans ?_ (ih hspaces hplain))
    exact and_iff_right fun j _ heq => absurd heq hip

def Indented (m : Nat) (line : List (Item ε)) : Prop :=
  line.all Item.isSpace = true ∨ m ≤ leadingSpaces line

theorem trimItems_line (hline : ∀ i ∈ line, ¬i.isNewline = true) (hindent : Indented m line) :
    ((m = 0 ∨ EscapesApart line) → trimItems m {} line = stripLine m line) ∧
      (¬(m = 0 ∨ EscapesApart line) →
        (trimItems m {} line).length < (stripLine m line).length) := by
  obtain ⟨spaces, rest, rfl, hspaces, hrest⟩ := exists_spaces_append line
  obtain ⟨hleading, hstrip⟩ := stripLine_append hspaces hrest m
  obtain ⟨hdrop, hstate⟩ := @trimItems_spaces _ spaces m 0 hspaces
  have hsettled : (⟨true, 0 + spaces.length⟩ : Trim).Settled := nofun
  rw [Nat.sub_zero] at hdrop
  rw [escapesApart_spaces_append hspaces, hstrip, trimItems_append, hdrop, hstate]
  constructor
  · intro hapart
    refine congrArg _ (trimItems_eq_self hsettled
      (fun i hi => hline i (List.mem_append_right _ hi)) hapart fun _ => ?_)
    rcases hindent with hblank | hle
    · right
      intro i hi
      have hmem : i ∈ rest := List.mem_of_mem_head? hi
      exact absurd (List.all_eq_true.mp hblank i (List.mem_append_right _ hmem)) (hrest i hi)
    · left
      rwa [hleading, ← Nat.zero_add spaces.length] at hle
  · intro hnot
    rw [List.length_append, List.length_append]
    exact Nat.add_lt_add_left (length_trimItems_lt (Nat.pos_of_ne_zero fun h => hnot (.inl h))
      hsettled fun h => hnot (.inr h)) _

end Trimming

section JoinedLines

variable {m : Nat} {lines : List (List (Item ε))}

theorem trimItems_joinLines_cons (line : List (Item ε)) (h : lines ≠ []) :
    trimItems m {} (joinLines (line :: lines)) =
      trimItems m {} line ++ .plain newline :: trimItems m {} (joinLines lines) := by
  have hsettled : ({} : Trim).Settled := nofun
  rw [joinLines_cons line h, trimItems_append, trimItems,
    item_newline (settled_trimState hsettled m line) m rfl]
  rfl

theorem joinLines_singleton (line : List (Item ε)) : joinLines [line] = line := by
  simp [joinLines, List.intercalate]

theorem trimItems_joinLines
    (hlines : ∀ line ∈ lines, (∀ i ∈ line, ¬i.isNewline = true) ∧ Indented m line)
    (hapart : m = 0 ∨ ∀ line ∈ lines, EscapesApart line) :
    trimItems m {} (joinLines lines) = joinLines (lines.map (stripLine m)) := by
  induction lines with
  | nil => rfl
  | cons line lines ih =>
    obtain ⟨⟨hline, hindent⟩, hlines⟩ := List.forall_mem_cons.mp hlines
    have hfirst := (trimItems_line hline hindent).1
      (hapart.imp_right fun h => h line List.mem_cons_self)
    have hrest := ih hlines (hapart.imp_right fun h l hl => h l (List.mem_cons_of_mem _ hl))
    rcases eq_or_ne lines [] with rfl | hne
    · rw [joinLines_singleton, hfirst]
      exact (joinLines_singleton _).symm
    · rw [trimItems_joinLines_cons line hne, hfirst, hrest, List.map_cons,
        joinLines_cons _ (by simpa using hne)]

theorem length_trimItems_joinLines
    (hlines : ∀ line ∈ lines, (∀ i ∈ line, ¬i.isNewline = true) ∧ Indented m line) :
    (trimItems m {} (joinLines lines)).length ≤ (joinLines (lines.map (stripLine m))).length ∧
      ((trimItems m {} (joinLines lines)).length = (joinLines (lines.map (stripLine m))).length →
        ∀ line ∈ lines, m = 0 ∨ EscapesApart line) := by
  induction lines with
  | nil => exact ⟨Nat.le_refl _, fun _ _ h => absurd h List.not_mem_nil⟩
  | cons line lines ih =>
    obtain ⟨⟨hline, hindent⟩, hlines⟩ := List.forall_mem_cons.mp hlines
    obtain ⟨heq, hlt⟩ := trimItems_line hline hindent
    have hfirst : (trimItems m {} line).length ≤ (stripLine m line).length ∧
        ((trimItems m {} line).length = (stripLine m line).length →
          m = 0 ∨ EscapesApart line) := by
      by_cases hapart : m = 0 ∨ EscapesApart line
      · exact ⟨Nat.le_of_eq (by rw [heq hapart]), fun _ => hapart⟩
      · exact ⟨Nat.le_of_lt (hlt hapart), fun h => absurd h (Nat.ne_of_lt (hlt hapart))⟩
    obtain ⟨hle, hrest⟩ := ih hlines
    rcases eq_or_ne lines [] with rfl | hne
    · rw [List.map_singleton, joinLines_singleton, joinLines_singleton]
      exact ⟨hfirst.1, fun h => List.forall_mem_singleton.mpr (hfirst.2 h)⟩
    · rw [trimItems_joinLines_cons line hne, List.map_cons, joinLines_cons _ (by simpa using hne),
        List.length_append, List.length_append, List.length_cons, List.length_cons]
      have hle' := hfirst.1
      refine ⟨by omega, fun h => List.forall_mem_cons.mpr ⟨hfirst.2 ?_, hrest ?_⟩⟩ <;> omega

end JoinedLines

end Nix.Eval.IndentedStrings
