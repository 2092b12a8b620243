import Mathlib.Data.List.TakeWhile
import Mathlib.Tactic.Common

/-!
Quoted texts with an escape symbol. The closing quote is the first one that
follows an even number of escape symbols.
-/

namespace Nix.Lib.Quoted

variable {α : Type} [DecidableEq α]

/-- The two special symbols, and what an escaped symbol stands for. -/
structure Alphabet (α : Type) where
  quote : α
  escape : α
  decode : α → α
  quote_ne_escape : quote ≠ escape

/-- One symbol of a text: plain, or escaped. -/
inductive Item (α : Type)
  | plain (c : α)
  | escaped (c : α)

namespace Alphabet

variable (A : Alphabet α)

/-- A symbol that stands for itself between quotes. -/
def Plain (c : α) : Prop :=
  c ≠ A.quote ∧ c ≠ A.escape

instance (c : α) : Decidable (A.Plain c) :=
  inferInstanceAs (Decidable (_ ∧ _))

/-- Look for the closing quote. The first argument is the text before the current
symbol, backwards; the result is the text before the quote and the one after it. -/
def close : List α → List α → Option (List α × List α)
  | _, [] => none
  | before, c :: after =>
      if c = A.quote ∧ (before.takeWhile (· = A.escape)).length % 2 = 0 then
        some (before.reverse, after)
      else close (c :: before) after

/-- Replace every escape symbol and the symbol after it. -/
def unescape : List α → Option (List α)
  | [] => some []
  | [c] => if c = A.escape then none else some [c]
  | c :: d :: s =>
      if c = A.escape then (unescape s).map (A.decode d :: ·)
      else (unescape (d :: s)).map (c :: ·)

/-! ### Texts made of items -/

def Item.text : Item α → List α
  | .plain c => [c]
  | .escaped c => [A.escape, c]

def Item.value : Item α → α
  | .plain c => c
  | .escaped c => A.decode c

def Item.Proper : Item α → Prop
  | .plain c => A.Plain c
  | .escaped _ => True

def text (items : List (Item α)) : List α :=
  items.flatMap (Item.text A)

def value (items : List (Item α)) : List α :=
  items.map (Item.value A)

variable {A}

theorem unescape_cons_of_ne {c : α} (h : c ≠ A.escape) (s : List α) :
    A.unescape (c :: s) = (A.unescape s).map (c :: ·) := by
  cases s with
  | nil => simp [unescape, h]
  | cons d s => rw [unescape, if_neg h]

theorem unescape_escape (c : α) (s : List α) :
    A.unescape (A.escape :: c :: s) = (A.unescape s).map (A.decode c :: ·) := by
  rw [unescape, if_pos rfl]

theorem unescape_text {items : List (Item α)} (h : ∀ i ∈ items, Item.Proper A i) :
    A.unescape (A.text items) = some (A.value items) := by
  induction items with
  | nil => rfl
  | cons i items ih =>
      have htail := ih fun j hj => h j (by simp [hj])
      cases i with
      | plain c =>
          have hc : A.Plain c := h (.plain c) (by simp)
          show A.unescape (c :: A.text items) = _
          rw [unescape_cons_of_ne hc.2, htail]
          rfl
      | escaped c =>
          show A.unescape (A.escape :: c :: A.text items) = _
          rw [unescape_escape, htail]
          rfl

/-- The number of escape symbols right before the current one. -/
abbrev run (A : Alphabet α) (before : List α) : Nat :=
  (before.takeWhile (· = A.escape)).length

theorem run_cons_of_ne {c : α} (h : c ≠ A.escape) (before : List α) :
    A.run (c :: before) = 0 := by
  simp [run, h]

theorem run_escape (before : List α) : A.run (A.escape :: before) = A.run before + 1 := by
  simp [run]

theorem close_cons_of_ne {c : α} (h : c ≠ A.quote) (before after : List α) :
    A.close before (c :: after) = A.close (c :: before) after := by
  rw [close, if_neg fun hc => h hc.1]

/-- An escaped symbol does not close the text and leaves the number of escape
symbols before the next one even. -/
theorem close_escaped {before : List α} (heven : A.run before % 2 = 0) (c : α)
    (after : List α) :
    A.close before (A.escape :: c :: after) = A.close (c :: A.escape :: before) after ∧
      A.run (c :: A.escape :: before) % 2 = 0 := by
  rw [close_cons_of_ne A.quote_ne_escape.symm, close, if_neg]
  · refine ⟨rfl, ?_⟩
    by_cases hc : c = A.escape
    · rw [hc, run_escape, run_escape]
      omega
    · rw [run_cons_of_ne hc]
  · rintro ⟨-, hodd⟩
    have hrun := A.run_escape before
    rw [run] at hrun
    omega

theorem close_text_append {items : List (Item α)} (h : ∀ i ∈ items, Item.Proper A i)
    {before : List α} (heven : A.run before % 2 = 0) (rest : List α) :
    A.close before (A.text items ++ A.quote :: rest) =
      some (before.reverse ++ A.text items, rest) := by
  induction items generalizing before with
  | nil =>
      show A.close before (A.quote :: rest) = _
      rw [close, if_pos ⟨rfl, heven⟩]
      simp [text]
  | cons i items ih =>
      have htail : ∀ j ∈ items, Item.Proper A j := fun j hj => h j (by simp [hj])
      cases i with
      | plain c =>
          have hc : A.Plain c := h (.plain c) (by simp)
          show A.close before (c :: (A.text items ++ A.quote :: rest)) = _
          rw [close_cons_of_ne hc.1, ih htail (by rw [run_cons_of_ne hc.2])]
          simp [text, Item.text]
      | escaped c =>
          obtain ⟨hclose, hrun⟩ := close_escaped heven c (A.text items ++ A.quote :: rest)
          show A.close before (A.escape :: c :: (A.text items ++ A.quote :: rest)) = _
          rw [hclose, ih htail hrun]
          simp [text, Item.text]

/-- The closing quote of a text made of items is found. -/
theorem close_text {items : List (Item α)} (h : ∀ i ∈ items, Item.Proper A i) (rest : List α) :
    A.close [] (A.text items ++ A.quote :: rest) = some (A.text items, rest) :=
  close_text_append h rfl rest

end Alphabet

end Nix.Lib.Quoted
