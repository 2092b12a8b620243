import Mathlib.Data.List.TakeWhile
import Nix.Util.Types

/-!
The lines of a source, and the origins that it can come from.
-/

set_option linter.dupNamespace false

namespace Nix.Util.SourcePositions

open Util.Types

/-- `Pos::Origin`. -/
inductive Origin (SourcePath : Type)
  | monostate
  | stdin (source : Bytes)
  | string (source : Bytes)
  | path (path : SourcePath)
  deriving DecidableEq

structure Pos (SourcePath : Type) where
  line : UInt32 := 0
  column : UInt32 := 0
  origin : Origin SourcePath := .monostate

/-- `Pos::getSource`. Sources in memory are read as C strings, and files that cannot be read have
no source. -/
def getSource {SourcePath : Type} (readFile : SourcePath → Option Bytes) :
    Origin SourcePath → Option Bytes
  | .monostate => none
  | .stdin source => some (source.takeWhile (· ≠ 0))
  | .string source => some (source.takeWhile (· ≠ 0))
  | .path path => readFile path

def isEol (c : UInt8) : Bool :=
  c = 13 || c = 10

def removePrefix (c : UInt8) : Bytes → Bytes
  | [] => []
  | b :: s => if b = c then s else b :: s

def skipEol (input : Bytes) : Bytes :=
  removePrefix 10 (removePrefix 13 input)

/-- `Pos::LinesIterator`. -/
structure LinesIterator where
  input : Bytes
  curLine : Bytes := []
  pastEnd : Bool

namespace LinesIterator

def bump (it : LinesIterator) (atFirst : Bool) : LinesIterator :=
  let pastEnd := if atFirst then it.pastEnd else it.input.isEmpty
  let input := if atFirst then it.input else skipEol it.input
  { input := input.dropWhile (!isEol ·), curLine := input.takeWhile (!isEol ·), pastEnd }

def ofInput (input : Bytes) : LinesIterator :=
  let it := { input, pastEnd := input.isEmpty }
  if it.pastEnd then it else it.bump true

/-- Where the current line starts in a source of the given size. -/
def lineStart (it : LinesIterator) (size : Nat) : UInt32 :=
  .ofNat (size - (it.curLine.length + it.input.length))

theorem length_removePrefix_le (c : UInt8) (s : Bytes) : (removePrefix c s).length ≤ s.length := by
  unfold removePrefix
  split
  next => exact Nat.le_refl _
  next =>
    split
    next => exact Nat.le_succ _
    next => exact Nat.le_refl _

theorem length_skipEol_lt {c : UInt8} (hc : isEol c = true) (s : Bytes) :
    (skipEol (c :: s)).length < (c :: s).length := by
  rw [skipEol, removePrefix]
  split
  next => exact Nat.lt_succ_of_le (length_removePrefix_le 10 s)
  next h13 =>
    have h10 : c = 10 := by simpa [isEol, h13] using hc
    rw [removePrefix, if_pos h10]
    exact Nat.lt_succ_self _

theorem skipEol_of_not_isEol {c : UInt8} (hc : isEol c = false) (s : Bytes) :
    skipEol (c :: s) = c :: s := by
  rw [isEol, Bool.or_eq_false_iff, decide_eq_false_iff_not, decide_eq_false_iff_not] at hc
  rw [skipEol, removePrefix, if_neg hc.1, removePrefix, if_neg hc.2]

theorem length_bump_lt {it : LinesIterator} (h : it.input ≠ []) :
    (it.bump false).input.length < it.input.length := by
  obtain ⟨input, curLine, pastEnd⟩ := it
  obtain ⟨c, s, rfl⟩ := List.exists_cons_of_ne_nil h
  change ((skipEol (c :: s)).dropWhile (!isEol ·)).length < (c :: s).length
  cases hc : isEol c with
  | true => exact (List.length_dropWhile_le _ _).trans_lt (length_skipEol_lt hc s)
  | false =>
    have hkeep : (c :: s).dropWhile (!isEol ·) = s.dropWhile (!isEol ·) := by
      rw [List.dropWhile_cons, if_pos (by rw [hc]; rfl)]
    rw [skipEol_of_not_isEol hc, hkeep]
    exact Nat.lt_succ_of_le (List.length_dropWhile_le _ _)

def lineStarts (size : Nat) (it : LinesIterator) : List UInt32 :=
  if it.pastEnd then []
  else it.lineStart size :: lineStarts size (it.bump false)
termination_by if it.pastEnd then 0 else it.input.length + 1
decreasing_by
  next hend =>
    rw [if_neg hend]
    split
    next => exact Nat.succ_pos _
    next hend' =>
      refine Nat.succ_lt_succ (length_bump_lt fun hnil => hend' ?_)
      rw [bump, hnil]
      rfl

end LinesIterator

/-- `fillCacheForOrigin`. -/
def fillCacheForOrigin (content : Bytes) : List UInt32 :=
  let contentLines := (LinesIterator.ofInput content).lineStarts content.length
  if contentLines = [] then [0] else contentLines

/-- Where lines start after the first one, in a source that goes on at the given offset. A line
ends at LF, CR LF or a lone CR. -/
def lineStartsFrom (offset : Nat) : Bytes → List Nat
  | [] => []
  | 13 :: 10 :: s => (offset + 2) :: lineStartsFrom (offset + 2) s
  | c :: s =>
      if isEol c then (offset + 1) :: lineStartsFrom (offset + 1) s
      else lineStartsFrom (offset + 1) s

def lineStarts (content : Bytes) : List Nat :=
  0 :: lineStartsFrom 0 content

theorem lineStartsFrom_append {p : Bytes} (h : ∀ c ∈ p, isEol c = false) (offset : Nat) (s : Bytes) :
    lineStartsFrom offset (p ++ s) = lineStartsFrom (offset + p.length) s := by
  induction p generalizing offset with
  | nil => rfl
  | cons c p ih =>
    obtain ⟨hc, hp⟩ := List.forall_mem_cons.mp h
    have hstep : lineStartsFrom offset (c :: (p ++ s)) = lineStartsFrom (offset + 1) (p ++ s) := by
      rw [lineStartsFrom.eq_def]
      split
      next heq => cases heq
      next heq =>
        obtain ⟨rfl, -⟩ := List.cons.inj heq
        cases hc
      next heq =>
        obtain ⟨rfl, rfl⟩ := List.cons.inj heq
        rw [hc]
        rfl
    rw [List.cons_append, hstep, ih hp, List.length_cons, Nat.add_assoc, Nat.add_comm 1]

theorem lineStartsFrom_eol {c : UInt8} (hc : isEol c = true) (offset : Nat) (s : Bytes) :
    lineStartsFrom offset (c :: s) =
      (offset + ((c :: s).length - (skipEol (c :: s)).length)) ::
        lineStartsFrom
          (offset + ((c :: s).length - (skipEol (c :: s)).length))
          (skipEol (c :: s)) := by
  rcases (Bool.or_eq_true _ _ ▸ hc : decide (c = 13) = true ∨ decide (c = 10) = true) with h | h
  · obtain rfl := of_decide_eq_true h
    cases s with
    | nil => simp [skipEol, removePrefix, lineStartsFrom, isEol]
    | cons b s =>
      by_cases hb : b = 10
      · subst hb
        have htwo : s.length + 1 + 1 - s.length = 2 := by omega
        simp [skipEol, removePrefix, lineStartsFrom, htwo]
      · simp [skipEol, removePrefix, lineStartsFrom, hb, isEol]
  · obtain rfl := of_decide_eq_true h
    simp [skipEol, removePrefix, lineStartsFrom, isEol]

theorem mem_lineStartsFrom {offset i : Nat} {s : Bytes} (h : i ∈ lineStartsFrom offset s) :
    offset < i ∧ i ≤ offset + s.length := by
  fun_induction lineStartsFrom offset s with
  | case1 => cases h
  | case2 offset s ih =>
    rcases List.mem_cons.mp h with rfl | h
    · simp only [List.length_cons]
      omega
    · have := ih h
      simp only [List.length_cons]
      omega
  | case3 offset c s hne hc ih =>
    rcases List.mem_cons.mp h with rfl | h
    · simp only [List.length_cons]
      omega
    · have := ih h
      simp only [List.length_cons]
      omega
  | case4 offset c s hne hc ih =>
    have := ih h
    simp only [List.length_cons]
    omega

theorem sorted_lineStartsFrom (offset : Nat) (s : Bytes) :
    (lineStartsFrom offset s).Pairwise (· < ·) := by
  fun_induction lineStartsFrom offset s with
  | case1 => exact .nil
  | case2 offset s ih => exact .cons (fun i hi => (mem_lineStartsFrom hi).1) ih
  | case3 offset c s hne hc ih => exact .cons (fun i hi => (mem_lineStartsFrom hi).1) ih
  | case4 offset c s hne hc ih => exact ih

theorem eq_nil_or_eol (s : Bytes) :
    s.dropWhile (!isEol ·) = [] ∨ ∃ c t, s.dropWhile (!isEol ·) = c :: t ∧ isEol c = true := by
  cases h : s.dropWhile (!isEol ·) with
  | nil => exact .inl rfl
  | cons c t =>
    refine .inr ⟨c, t, rfl, ?_⟩
    have hnot := List.head?_dropWhile_not (!isEol ·) s
    rw [h] at hnot
    simpa using hnot

/-- The iterator on the line that a source goes on with. -/
def LinesIterator.on (s : Bytes) : LinesIterator where
  input := s.dropWhile (!isEol ·)
  curLine := s.takeWhile (!isEol ·)
  pastEnd := false

theorem lineStarts_on {size : Nat} (s : Bytes) (h : s.length ≤ size) :
    (LinesIterator.on s).lineStarts size =
      ((size - s.length) :: lineStartsFrom (size - s.length) s).map .ofNat := by
  induction hn : s.length using Nat.strong_induction_on generalizing s with
  | _ n ih =>
    subst hn
    have hparts : s.takeWhile (!isEol ·) ++ s.dropWhile (!isEol ·) = s :=
      List.takeWhile_append_dropWhile
    have hlength : (s.takeWhile (!isEol ·)).length + (s.dropWhile (!isEol ·)).length = s.length := by
      rw [← List.length_append, hparts]
    have hline : ∀ c ∈ s.takeWhile (!isEol ·), isEol c = false := fun c hc => by
      simpa using List.mem_takeWhile_imp hc
    have hstarts : lineStartsFrom (size - s.length) s =
        lineStartsFrom (size - s.length + (s.takeWhile (!isEol ·)).length)
          (s.dropWhile (!isEol ·)) := by
      rw [← lineStartsFrom_append hline, hparts]
    have hgoing : ¬(LinesIterator.on s).pastEnd = true := Bool.false_ne_true
    rw [LinesIterator.lineStarts, if_neg hgoing, List.map_cons, hstarts]
    refine congrArg₂ _ (congrArg (fun n => UInt32.ofNat (size - n)) hlength) ?_
    rcases eq_nil_or_eol s with hnil | ⟨c, t, ht, hc⟩
    · rw [hnil, LinesIterator.lineStarts, if_pos]
      · rfl
      · rw [LinesIterator.bump, LinesIterator.on, hnil]
        rfl
    · have hbump : (LinesIterator.on s).bump false =
          .on (skipEol (c :: t)) := by
        rw [LinesIterator.bump, LinesIterator.on, ht]
        rfl
      have hshort := LinesIterator.length_skipEol_lt hc t
      have hle : (c :: t).length ≤ s.length := by
        rw [← ht]
        exact List.length_dropWhile_le _ _
      have hrest : size - s.length + (s.takeWhile (!isEol ·)).length +
          ((c :: t).length - (skipEol (c :: t)).length) =
          size - (skipEol (c :: t)).length := by
        rw [ht] at hlength
        omega
      rw [ht, hbump, lineStartsFrom_eol hc, hrest]
      exact ih _ (hshort.trans_le hle) _ ((hshort.trans_le hle).le.trans h) rfl

theorem fillCacheForOrigin_eq (content : Bytes) :
    fillCacheForOrigin content = (lineStarts content).map .ofNat := by
  cases content with
  | nil =>
    have hnone : (LinesIterator.ofInput []).lineStarts 0 = [] := by
      have hend : (LinesIterator.ofInput []).pastEnd = true := rfl
      rw [LinesIterator.lineStarts, if_pos hend]
    rw [fillCacheForOrigin, List.length_nil, hnone]
    rfl
  | cons c s =>
    have hstarts := lineStarts_on (c :: s) (Nat.le_refl _)
    rw [Nat.sub_self] at hstarts
    have hinput : LinesIterator.ofInput (c :: s) = .on (c :: s) := rfl
    rw [fillCacheForOrigin, hinput, hstarts]
    exact if_neg (List.cons_ne_nil _ _)

end Nix.Util.SourcePositions
