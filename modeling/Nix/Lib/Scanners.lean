import Mathlib.Computability.Language
import Mathlib.Tactic.Common

/-!
Patterns with classes of characters, their longest match, and scanners that take the first of the
rules with the longest match.
-/

namespace Nix.Lib.Scanners

variable {α κ : Type}

/-! ### Patterns -/

inductive Pattern (α : Type)
  | none
  | empty
  | oneOf (p : α → Bool)
  | alt (a b : Pattern α)
  | seq (a b : Pattern α)
  | star (a : Pattern α)

namespace Pattern

/-- The texts that match a pattern. -/
def lang : Pattern α → Language α
  | none => 0
  | empty => 1
  | oneOf p => {w | ∃ c, p c = true ∧ w = [c]}
  | alt a b => a.lang + b.lang
  | seq a b => a.lang * b.lang
  | star a => KStar.kstar a.lang

def plus (a : Pattern α) : Pattern α :=
  seq a (star a)

def nullable : Pattern α → Bool
  | none => false
  | empty => true
  | oneOf _ => false
  | alt a b => a.nullable || b.nullable
  | seq a b => a.nullable && b.nullable
  | star _ => true

/-- What is left of a pattern after a character. -/
def deriv (c : α) : Pattern α → Pattern α
  | none => none
  | empty => none
  | oneOf p => if p c then empty else none
  | alt a b => alt (a.deriv c) (b.deriv c)
  | seq a b =>
      if a.nullable then alt (seq (a.deriv c) b) (b.deriv c) else seq (a.deriv c) b
  | star a => seq (a.deriv c) (star a)

example : (star none : Pattern α).nullable = true := by
  rw [nullable]

example (c : α) : (empty : Pattern α).deriv c = none := by
  rw [deriv]

theorem nullable_iff (r : Pattern α) : r.nullable = true ↔ [] ∈ r.lang := by
  induction r with
  | none => exact iff_of_false nofun (Language.notMem_zero [])
  | empty => exact iff_of_true rfl Language.nil_mem_one
  | oneOf p =>
    refine iff_of_false nofun ?_
    rintro ⟨c, -, h⟩
    cases h
  | alt a b iha ihb =>
    rw [nullable, Bool.or_eq_true, iha, ihb]
    exact (Language.mem_add _ _ _).symm
  | seq a b iha ihb =>
    rw [nullable, Bool.and_eq_true, iha, ihb, lang, Language.mem_mul]
    constructor
    · rintro ⟨ha, hb⟩
      exact ⟨[], ha, [], hb, rfl⟩
    · rintro ⟨u, hu, v, hv, heq⟩
      obtain ⟨rfl, rfl⟩ := List.append_eq_nil_iff.mp heq
      exact ⟨hu, hv⟩
  | star a _ => exact iff_of_true rfl (Language.nil_mem_kstar _)

theorem mem_deriv_iff (r : Pattern α) (c : α) (w : List α) :
    w ∈ (r.deriv c).lang ↔ c :: w ∈ r.lang := by
  induction r generalizing w with
  | none => exact iff_of_false (Language.notMem_zero _) (Language.notMem_zero _)
  | empty =>
    refine iff_of_false (Language.notMem_zero _) fun h => ?_
    exact List.cons_ne_nil _ _ ((Language.mem_one _).mp h)
  | oneOf p =>
    rw [deriv]
    split
    next h =>
      refine (Language.mem_one w).trans ⟨?_, ?_⟩
      · rintro rfl
        exact ⟨c, h, rfl⟩
      · rintro ⟨d, -, heq⟩
        exact (List.cons.inj heq).2
    next h =>
      refine iff_of_false (Language.notMem_zero _) ?_
      rintro ⟨d, hd, heq⟩
      exact h ((List.cons.inj heq).1 ▸ hd)
  | alt a b iha ihb =>
    rw [deriv, lang, lang, Language.mem_add, Language.mem_add, iha, ihb]
  | seq a b iha ihb =>
    have hseq : w ∈ (seq (a.deriv c) b).lang ↔
        ∃ u v, c :: u ∈ a.lang ∧ v ∈ b.lang ∧ u ++ v = w := by
      rw [lang, Language.mem_mul]
      constructor
      · rintro ⟨u, hu, v, hv, heq⟩
        exact ⟨u, v, (iha u).mp hu, hv, heq⟩
      · rintro ⟨u, v, hu, hv, heq⟩
        exact ⟨u, (iha u).mpr hu, v, hv, heq⟩
    have hwhole : c :: w ∈ (seq a b).lang ↔
        w ∈ (seq (a.deriv c) b).lang ∨ (a.nullable = true ∧ c :: w ∈ b.lang) := by
      rw [hseq, nullable_iff, lang, Language.mem_mul]
      constructor
      · rintro ⟨u, hu, v, hv, heq⟩
        cases u with
        | nil => exact .inr ⟨hu, by rwa [← heq]⟩
        | cons d u =>
          obtain ⟨rfl, htail⟩ := List.cons.inj heq
          exact .inl ⟨u, v, hu, hv, htail⟩
      · rintro (⟨u, v, hu, hv, rfl⟩ | ⟨ha, hb⟩)
        · exact ⟨c :: u, hu, v, hv, rfl⟩
        · exact ⟨[], ha, c :: w, hb, rfl⟩
    rw [hwhole, deriv]
    split
    next h =>
      rw [lang, Language.mem_add, ihb]
      simp [h]
    next h => simp [h]
  | star a ih =>
    rw [deriv, lang, Language.mem_mul, lang, Language.mem_kstar_iff_exists_nonempty]
    constructor
    · rintro ⟨u, hu, v, hv, rfl⟩
      obtain ⟨parts, rfl, hparts⟩ := Language.mem_kstar_iff_exists_nonempty.mp hv
      refine ⟨(c :: u) :: parts, rfl, ?_⟩
      exact List.forall_mem_cons.mpr ⟨⟨(ih u).mp hu, List.cons_ne_nil _ _⟩, hparts⟩
    · rintro ⟨parts, heq, hparts⟩
      cases parts with
      | nil => cases heq
      | cons part parts =>
        obtain ⟨⟨hpart, hne⟩, hrest⟩ := List.forall_mem_cons.mp hparts
        obtain ⟨d, u, rfl⟩ := List.exists_cons_of_ne_nil hne
        obtain ⟨rfl, rfl⟩ := List.cons.inj heq
        exact ⟨u, (ih u).mpr hpart, parts.flatten,
          Language.join_mem_kstar fun y hy => (hrest y hy).1, rfl⟩

/-! ### The longest match -/

/-- The length of the longest prefix that matches. -/
def longest : Pattern α → List α → Option Nat
  | r, [] => if r.nullable then some 0 else Option.none
  | r, c :: w =>
      match (r.deriv c).longest w with
      | some n => some (n + 1)
      | Option.none => if r.nullable then some 0 else Option.none

example : (empty : Pattern α).longest [] = some 0 := by
  rw [longest, nullable, if_pos rfl]

theorem longest_eq_none_iff {r : Pattern α} {w : List α} :
    r.longest w = Option.none ↔ ∀ u v, w = u ++ v → u ∉ r.lang := by
  induction w generalizing r with
  | nil =>
    rw [longest]
    split
    next h => exact iff_of_false nofun fun hall => hall [] [] rfl ((nullable_iff r).mp h)
    next h =>
      refine iff_of_true rfl fun u v heq hu => ?_
      obtain ⟨rfl, -⟩ := List.append_eq_nil_iff.mp heq.symm
      exact h ((nullable_iff r).mpr hu)
  | cons c w ih =>
    rw [longest]
    cases hlongest : (r.deriv c).longest w with
    | some n =>
      refine iff_of_false nofun fun hall => ?_
      have hnone : (r.deriv c).longest w = Option.none :=
        ih.mpr fun u v heq hu => hall (c :: u) v (by rw [heq]; rfl) ((mem_deriv_iff r c u).mp hu)
      rw [hlongest] at hnone
      cases hnone
    | none =>
      have htail := ih.mp hlongest
      dsimp only
      split
      next h => exact iff_of_false nofun fun hall => hall [] _ rfl ((nullable_iff r).mp h)
      next h =>
        refine iff_of_true rfl fun u v heq hu => ?_
        cases u with
        | nil => exact h ((nullable_iff r).mpr hu)
        | cons d u =>
          obtain ⟨rfl, hw⟩ := List.cons.inj heq
          exact htail u v hw ((mem_deriv_iff r c u).mpr hu)

/-- The longest match is a match, and no match is longer. -/
theorem longest_eq_some {r : Pattern α} {w : List α} {n : Nat} (h : r.longest w = some n) :
    (∃ u v, w = u ++ v ∧ u ∈ r.lang ∧ u.length = n) ∧
      ∀ u v, w = u ++ v → u ∈ r.lang → u.length ≤ n := by
  induction w generalizing r n with
  | nil =>
    rw [longest] at h
    split at h
    next hnull =>
      cases h
      refine ⟨⟨[], [], rfl, (nullable_iff r).mp hnull, rfl⟩, fun u v heq _ => ?_⟩
      obtain ⟨rfl, -⟩ := List.append_eq_nil_iff.mp heq.symm
      exact Nat.le_refl 0
    next => cases h
  | cons c w ih =>
    rw [longest] at h
    cases hlongest : (r.deriv c).longest w with
    | some m =>
      rw [hlongest] at h
      cases h
      obtain ⟨⟨u, v, rfl, hu, rfl⟩, hmax⟩ := ih hlongest
      refine ⟨⟨c :: u, v, rfl, (mem_deriv_iff r c u).mp hu, rfl⟩, fun u' v' heq hu' => ?_⟩
      cases u' with
      | nil => exact Nat.zero_le _
      | cons d u' =>
        obtain ⟨rfl, hw⟩ := List.cons.inj heq
        exact Nat.succ_le_succ (hmax u' v' hw ((mem_deriv_iff r c u').mpr hu'))
    | none =>
      rw [hlongest] at h
      have htail := longest_eq_none_iff.mp hlongest
      dsimp only at h
      split at h
      next hnull =>
        cases h
        refine ⟨⟨[], _, rfl, (nullable_iff r).mp hnull, rfl⟩, fun u v heq hu => ?_⟩
        cases u with
        | nil => exact Nat.le_refl 0
        | cons d u =>
          obtain ⟨rfl, hw⟩ := List.cons.inj heq
          exact absurd ((mem_deriv_iff r c u).mpr hu) (htail u v hw)
      next => cases h

/-- The text of the longest match. -/
theorem take_longest {r : Pattern α} {w : List α} {n : Nat} (h : r.longest w = some n) :
    w.take n ∈ r.lang ∧ (w.take n).length = n := by
  obtain ⟨⟨u, v, rfl, hu, rfl⟩, -⟩ := longest_eq_some h
  rw [List.take_left]
  exact ⟨hu, rfl⟩

theorem longest_append {r : Pattern α} {u v : List α} (hu : u ∈ r.lang)
    (hmax : ∀ u' v', u ++ v = u' ++ v' → u' ∈ r.lang → u'.length ≤ u.length) :
    r.longest (u ++ v) = some u.length := by
  cases h : r.longest (u ++ v) with
  | none => exact absurd hu (longest_eq_none_iff.mp h u v rfl)
  | some n =>
    obtain ⟨⟨u', v', heq, hu', rfl⟩, hle⟩ := longest_eq_some h
    rw [Nat.le_antisymm (hmax u' v' heq hu') (hle u v rfl hu)]

end Pattern

/-! ### Scanners -/

/-- A rule, with at most one character of trailing context, which is matched but not taken. -/
structure Rule (α κ : Type) where
  pattern : Pattern α
  trailing : Option (α → Bool) := Option.none
  action : κ

namespace Rule

/-- The pattern with the trailing context. -/
def whole (r : Rule α κ) : Pattern α :=
  match r.trailing with
  | some p => .seq r.pattern (.oneOf p)
  | Option.none => r.pattern

/-- The length of the token that is taken by a match. -/
def taken (r : Rule α κ) (n : Nat) : Nat :=
  if r.trailing.isSome then n - 1 else n

end Rule

/-- The first of the rules with the longest match, and the length of the match. -/
def scan : List (Rule α κ) → List α → Option (Rule α κ × Nat)
  | [], _ => none
  | r :: rules, w =>
      match r.whole.longest w, scan rules w with
      | some n, some (r', m) => if n < m then some (r', m) else some (r, n)
      | some n, none => some (r, n)
      | none, res => res

/-- The action of the rule that is taken, and the length of the token. -/
def scanAction (rules : List (Rule α κ)) (w : List α) : Option (κ × Nat) :=
  (scan rules w).map fun (r, n) => (r.action, r.taken n)

theorem scan_sound {rules : List (Rule α κ)} {w : List α} {r : Rule α κ} {n : Nat}
    (h : scan rules w = some (r, n)) : r ∈ rules ∧ r.whole.longest w = some n := by
  induction rules with
  | nil => cases h
  | cons r' rules ih =>
    rw [scan] at h
    split at h
    next k r'' m hk hrest =>
      split at h
      next =>
        cases h
        exact (ih hrest).imp_left (List.mem_cons_of_mem _)
      next =>
        cases h
        exact ⟨List.mem_cons_self, hk⟩
    next k hk hrest =>
      cases h
      exact ⟨List.mem_cons_self, hk⟩
    next => exact (ih h).imp_left (List.mem_cons_of_mem _)

theorem scanAction_sound {rules : List (Rule α κ)} {w : List α} {action : κ} {n : Nat}
    (h : scanAction rules w = some (action, n)) :
    ∃ r ∈ rules, r.action = action ∧ ∃ k, r.whole.longest w = some k ∧ r.taken k = n := by
  obtain ⟨⟨r, k⟩, hscan, heq⟩ := Option.map_eq_some_iff.mp h
  cases heq
  obtain ⟨hmem, hlongest⟩ := scan_sound hscan
  exact ⟨r, hmem, rfl, k, hlongest, rfl⟩

/-- All matches of the rule are shorter than the length. -/
def ShorterThan (w : List α) (n : Nat) (r : Rule α κ) : Prop :=
  ∀ u v, w = u ++ v → u ∈ r.whole.lang → u.length < n

theorem scan_lt {rules : List (Rule α κ)} {w : List α} {n : Nat}
    (h : ∀ r ∈ rules, ShorterThan w n r) {r : Rule α κ} {m : Nat}
    (hscan : scan rules w = some (r, m)) :
    m < n := by
  induction rules with
  | nil => cases hscan
  | cons r' rules ih =>
    obtain ⟨hr', hrules⟩ := List.forall_mem_cons.mp h
    have hfirst : ∀ {k}, r'.whole.longest w = some k → k < n := by
      intro k hk
      obtain ⟨⟨u, v, heq, hu, rfl⟩, -⟩ := Pattern.longest_eq_some hk
      exact hr' u v heq hu
    rw [scan] at hscan
    split at hscan
    next k r'' m' hk hrest =>
      split at hscan
      next =>
        cases hscan
        exact ih hrules hrest
      next =>
        cases hscan
        exact hfirst hk
    next k hk hrest =>
      cases hscan
      exact hfirst hk
    next => exact ih hrules hscan

/-- A rule is taken if the rules before it match less, and the ones after it not more. -/
theorem scan_eq_some {before after : List (Rule α κ)} {r : Rule α κ} {w : List α} {n : Nat}
    (hr : r.whole.longest w = some n) (hbefore : ∀ r' ∈ before, ShorterThan w n r')
    (hafter : ∀ r' ∈ after, ShorterThan w (n + 1) r') :
    scan (before ++ r :: after) w = some (r, n) := by
  induction before with
  | nil =>
    rw [List.nil_append, scan, hr]
    cases hscan : scan after w with
    | none => rfl
    | some found =>
      obtain ⟨r', m⟩ := found
      have hlt := scan_lt hafter hscan
      exact if_neg (Nat.not_lt.mpr (Nat.le_of_lt_succ hlt))
  | cons r' before ih =>
    obtain ⟨hr', hbefore⟩ := List.forall_mem_cons.mp hbefore
    rw [List.cons_append, scan, ih hbefore]
    cases hlongest : r'.whole.longest w with
    | none => rfl
    | some k =>
      obtain ⟨⟨u, v, heq, hu, rfl⟩, -⟩ := Pattern.longest_eq_some hlongest
      exact if_pos (hr' u v heq hu)

/-! ### Prefix codes -/

/-- No text of the language begins another one. -/
def PrefixFree (L : Language α) : Prop :=
  [] ∉ L ∧ ∀ a ∈ L, ∀ b ∈ L, a <+: b → a = b

/-- Of two sequences at the beginning of a text, one begins the other. -/
theorem PrefixFree.comparable {L : Language α} (hL : PrefixFree L) {us us' : List (List α)}
    (hus : ∀ u ∈ us, u ∈ L) (hus' : ∀ u ∈ us', u ∈ L) {v v' : List α}
    (h : us.flatten ++ v = us'.flatten ++ v') :
    (∃ ws, us' = us ++ ws) ∨ ∃ ws, us = us' ++ ws := by
  induction us generalizing us' with
  | nil => exact .inl ⟨us', rfl⟩
  | cons u us ih =>
    cases us' with
    | nil => exact .inr ⟨u :: us, rfl⟩
    | cons u' us' =>
      obtain ⟨hu, hus⟩ := List.forall_mem_cons.mp hus
      obtain ⟨hu', hus'⟩ := List.forall_mem_cons.mp hus'
      rw [List.flatten_cons, List.flatten_cons, List.append_assoc, List.append_assoc] at h
      have heq : u = u' := by
        rcases List.prefix_or_prefix_of_prefix (⟨_, h⟩ : u <+: u' ++ (us'.flatten ++ v'))
          (List.prefix_append u' _) with hpre | hpre
        · exact hL.2 u hu u' hu' hpre
        · exact (hL.2 u' hu' u hu hpre).symm
      rw [heq] at h
      rw [heq]
      rcases ih hus hus' (List.append_cancel_left h) with ⟨ws, rfl⟩ | ⟨ws, rfl⟩
      · exact .inl ⟨ws, rfl⟩
      · exact .inr ⟨ws, rfl⟩

end Nix.Lib.Scanners
