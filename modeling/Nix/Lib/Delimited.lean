import Mathlib.Data.List.TakeWhile
import Mathlib.Tactic.Common

/-!
Texts made of parts, each preceded by a separator that occurs in no part: the
text determines the parts.
-/

namespace Nix.Lib.Delimited

variable {α : Type} {sep : α}

/-- The parts, each after a separator. -/
def join (sep : α) (parts : List (List α)) : List α :=
  parts.flatMap (sep :: ·)

/-- A text that is empty or continues with a separator. -/
def AtBoundary (sep : α) (s : List α) : Prop :=
  s = [] ∨ ∃ t, s = sep :: t

/-- No part contains the separator. -/
def Separable (sep : α) (parts : List (List α)) : Prop :=
  ∀ p ∈ parts, sep ∉ p

@[simp] theorem join_nil : join sep [] = [] := rfl

@[simp] theorem join_cons (p : List α) (parts : List (List α)) :
    join sep (p :: parts) = sep :: (p ++ join sep parts) := rfl

theorem join_append (ps qs : List (List α)) :
    join sep (ps ++ qs) = join sep ps ++ join sep qs := by
  simp [join]

theorem join_ne_nil {parts : List (List α)} (h : parts ≠ []) : join sep parts ≠ [] := by
  obtain ⟨p, parts, rfl⟩ := List.exists_cons_of_ne_nil h
  simp

theorem length_le_length_join (sep : α) (parts : List (List α)) :
    parts.length ≤ (join sep parts).length := by
  induction parts with
  | nil => simp
  | cons p parts ih =>
      simp only [join_cons, List.length_cons, List.length_append]
      omega

theorem Separable.cons_iff {p : List α} {parts : List (List α)} :
    Separable sep (p :: parts) ↔ sep ∉ p ∧ Separable sep parts := by
  simp [Separable]

theorem atBoundary_join (parts : List (List α)) : AtBoundary sep (join sep parts) := by
  cases parts with
  | nil => exact .inl rfl
  | cons p parts => exact .inr ⟨_, rfl⟩

theorem AtBoundary.append {s t : List α} (hs : AtBoundary sep s) (ht : AtBoundary sep t) :
    AtBoundary sep (s ++ t) := by
  rcases hs with rfl | ⟨u, rfl⟩
  · exact ht
  · exact .inr ⟨u ++ t, rfl⟩

/-- A part ends at the next boundary. -/
theorem part_append_inj {p q s t : List α} (hp : sep ∉ p) (hq : sep ∉ q)
    (hs : AtBoundary sep s) (ht : AtBoundary sep t) (h : p ++ s = q ++ t) :
    p = q ∧ s = t := by
  induction p generalizing q with
  | nil =>
      cases q with
      | nil => exact ⟨rfl, h⟩
      | cons b q =>
          rcases hs with rfl | ⟨u, rfl⟩
          · simp at h
          · obtain ⟨rfl, -⟩ := List.cons.inj h
            simp at hq
  | cons a p ih =>
      cases q with
      | nil =>
          rcases ht with rfl | ⟨u, rfl⟩
          · simp at h
          · obtain ⟨rfl, -⟩ := List.cons.inj h
            simp at hp
      | cons b q =>
          obtain ⟨hab, htail⟩ := List.cons.inj h
          simp only [List.mem_cons, not_or] at hp hq
          obtain ⟨hpq, hst⟩ := ih hp.2 hq.2 htail
          exact ⟨by rw [hab, hpq], hst⟩

/-- The last part begins at the last separator. -/
theorem append_part_inj {p q s t : List α} (hp : sep ∉ p) (hq : sep ∉ q)
    (h : s ++ sep :: p = t ++ sep :: q) : s = t ∧ p = q := by
  have hrev : p.reverse ++ sep :: s.reverse = q.reverse ++ sep :: t.reverse := by
    simpa using congrArg List.reverse h
  obtain ⟨hpq, hst⟩ := part_append_inj (by simpa using hp) (by simpa using hq) (.inr ⟨_, rfl⟩)
    (.inr ⟨_, rfl⟩) hrev
  exact ⟨List.reverse_inj.mp (List.cons.inj hst).2, List.reverse_inj.mp hpq⟩

/-- A text that another one extends at a boundary is made of its first parts. -/
theorem exists_append_of_join_eq {ps qs : List (List α)} {s : List α}
    (hps : Separable sep ps) (hqs : Separable sep qs) (hs : AtBoundary sep s)
    (h : join sep ps = join sep qs ++ s) : ∃ rs, ps = qs ++ rs ∧ s = join sep rs := by
  induction qs generalizing ps with
  | nil => exact ⟨ps, rfl, h.symm⟩
  | cons q qs ih =>
      obtain ⟨hq, hqs'⟩ := Separable.cons_iff.mp hqs
      cases ps with
      | nil => simp at h
      | cons p ps =>
          obtain ⟨hp, hps'⟩ := Separable.cons_iff.mp hps
          have htail : p ++ join sep ps = q ++ (join sep qs ++ s) := by simpa using h
          obtain ⟨rfl, hrest⟩ := part_append_inj hp hq (atBoundary_join ps)
            ((atBoundary_join qs).append hs) htail
          obtain ⟨rs, hrs, hs'⟩ := ih hps' hqs' hrest
          exact ⟨rs, by rw [hrs, List.cons_append], hs'⟩

theorem join_injective {ps qs : List (List α)} (hps : Separable sep ps)
    (hqs : Separable sep qs) (h : join sep ps = join sep qs) : ps = qs := by
  obtain ⟨rs, rfl, hrs⟩ := exists_append_of_join_eq hps hqs (.inl rfl) (by simpa using h)
  cases rs with
  | nil => simp
  | cons r rs => simp at hrs

end Nix.Lib.Delimited
