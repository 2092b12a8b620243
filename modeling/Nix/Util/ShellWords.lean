import Nix.Util.Strings

/-!
Words for a shell: quoting them, and splitting a command line into them.
-/

set_option linter.dupNamespace false

namespace Nix.Util.ShellWords

open Util.Types Util.Strings

def backslash : UInt8 := 92
def doubleQuote : UInt8 := 34
def singleQuote : UInt8 := 39

def escapeShellArgAlways (s : Bytes) : Bytes :=
  singleQuote :: s.flatMap (fun i => if i = singleQuote then str "'\\''" else [i]) ++ [singleQuote]

/-- The locals of `shellSplitString`, without the remaining text. -/
structure Words where
  result : List Bytes := []
  current : Bytes := []
  startedCurrent : Bool := false
  escaping : Bool := false

namespace Words

def pushCurrent (w : Words) : Words :=
  if w.startedCurrent then
    { w with result := w.result ++ [w.current], current := [], startedCurrent := false }
  else w

def pushChar (w : Words) (c : UInt8) : Words :=
  { w with current := w.current ++ [c], startedCurrent := true }

end Words

/-- The loop that reads the next byte. -/
inductive Quoting
  | outside
  | inDoubleQuotes
  | inSingleQuotes

/-- The three loops. The inner ones leave the rest of the text to the outer one. -/
def splitFrom : Quoting → Bytes → Words → Except Error (List Bytes)
  | .outside, [], w => .ok w.pushCurrent.result
  | .outside, c :: s, w =>
      if w.escaping then splitFrom .outside s { w.pushChar c with escaping := false }
      else if c = backslash then splitFrom .outside s { w with escaping := true }
      else if c = 32 ∨ c = 9 then splitFrom .outside s w.pushCurrent
      else if c = doubleQuote then splitFrom .inDoubleQuotes s { w with startedCurrent := true }
      else if c = singleQuote then splitFrom .inSingleQuotes s { w with startedCurrent := true }
      else splitFrom .outside s (w.pushChar c)
  | .inDoubleQuotes, [], _ => .error ⟨.error, ⟨"unterminated double quote", []⟩⟩
  | .inDoubleQuotes, c :: s, w =>
      if w.escaping then
        -- A backslash before another character stands for itself.
        let w := if c ∈ str "$`\"\\" then w.pushChar c else (w.pushChar backslash).pushChar c
        splitFrom .inDoubleQuotes s { w with escaping := false }
      else if c = backslash then splitFrom .inDoubleQuotes s { w with escaping := true }
      else if c = doubleQuote then splitFrom .outside s w
      else splitFrom .inDoubleQuotes s (w.pushChar c)
  | .inSingleQuotes, [], _ => .error ⟨.error, ⟨"unterminated single quote", []⟩⟩
  | .inSingleQuotes, c :: s, w =>
      if c = singleQuote then splitFrom .outside s w
      else splitFrom .inSingleQuotes s (w.pushChar c)

def shellSplitString (s : Bytes) : Except Error (List Bytes) :=
  splitFrom .outside s {}

theorem splitFrom_inSingleQuotes (s rest : Bytes) (result : List Bytes) (current : Bytes) :
    splitFrom .inSingleQuotes
        (s.flatMap (fun i => if i = singleQuote then str "'\\''" else [i]) ++ singleQuote :: rest)
        ⟨result, current, true, false⟩ =
      splitFrom .outside rest ⟨result, current ++ s, true, false⟩ := by
  induction s generalizing current with
  | nil =>
    rw [List.flatMap_nil, List.nil_append, List.append_nil, splitFrom, if_pos rfl]
  | cons c s ih =>
    rw [List.flatMap_cons, List.append_assoc]
    have hcurrent : current ++ c :: s = (current ++ [c]) ++ s := by
      rw [List.append_assoc, List.singleton_append]
    rw [hcurrent, ← ih]
    split
    next hc =>
      -- The quotes are closed, and opened again behind the quoted quote.
      rw [hc]
      rfl
    next hc =>
      rw [List.singleton_append, splitFrom, if_neg hc]
      rfl

theorem splitFrom_escapeShellArgAlways (x rest : Bytes) (result : List Bytes) :
    splitFrom .outside (escapeShellArgAlways x ++ rest) ⟨result, [], false, false⟩ =
      splitFrom .outside rest ⟨result, x, true, false⟩ := by
  have hopen : splitFrom .outside (escapeShellArgAlways x ++ rest) ⟨result, [], false, false⟩ =
      splitFrom .inSingleQuotes
        (x.flatMap (fun i => if i = singleQuote then str "'\\''" else [i]) ++ [singleQuote] ++ rest)
        ⟨result, [], true, false⟩ := rfl
  rw [hopen, List.append_assoc, List.singleton_append, splitFrom_inSingleQuotes, List.nil_append]

theorem splitFrom_words (x : Bytes) (xs result : List Bytes) :
    splitFrom .outside (concatStringsSep 32 ((x :: xs).map escapeShellArgAlways))
      ⟨result, [], false, false⟩ = .ok (result ++ x :: xs) := by
  induction xs generalizing x result with
  | nil =>
    have hword := splitFrom_escapeShellArgAlways x [] result
    rw [List.append_nil] at hword
    exact hword
  | cons y ys ih =>
    have hspace : splitFrom .outside
        (32 :: concatStringsSep 32 ((y :: ys).map escapeShellArgAlways)) ⟨result, x, true, false⟩ =
        splitFrom .outside (concatStringsSep 32 ((y :: ys).map escapeShellArgAlways))
          ⟨result ++ [x], [], false, false⟩ := rfl
    rw [List.map_cons, List.map_cons, concatStringsSep, splitFrom_escapeShellArgAlways,
      ← List.map_cons, hspace, ih, List.append_assoc, List.singleton_append]

/-- Words that are quoted and joined by spaces are split off again. -/
theorem shellSplitString_concatStringsSep (xs : List Bytes) :
    shellSplitString (concatStringsSep 32 (xs.map escapeShellArgAlways)) = .ok xs := by
  cases xs with
  | nil => rfl
  | cons x xs => exact splitFrom_words x xs []

example : shellSplitString (str "a\\ b \"c\\d\\\"\" 'e'f") =
    .ok [str "a b", str "c\\d\"", str "ef"] := by decide

end Nix.Util.ShellWords
