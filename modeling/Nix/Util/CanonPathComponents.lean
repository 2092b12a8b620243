import Nix.Lib.Delimited
import Nix.Util.CanonPaths

set_option linter.dupNamespace false

namespace Nix.Util.CanonPathComponents

open Util.Types Util.CanonPaths Lib.Delimited

def Valid (cs : List Bytes) : Prop :=
  ∀ c ∈ cs, ValidComponent c

theorem render_of_ne_nil {cs : List Bytes} (h : cs ≠ []) : render cs = join slash cs := by
  simp [render, join, h]

theorem validComponent_iff {c : Bytes} : ValidComponent c ↔
    c ≠ [] ∧ c ≠ str "." ∧ c ≠ str ".." ∧ slash ∉ c ∧ (0 : UInt8) ∉ c :=
  ⟨fun ⟨h₁, h₂, h₃, h₄, h₅⟩ => ⟨h₁, h₂, h₃, h₄, h₅⟩,
    fun ⟨h₁, h₂, h₃, h₄, h₅⟩ => ⟨h₁, h₂, h₃, h₄, h₅⟩⟩

instance (c : Bytes) : Decidable (ValidComponent c) :=
  decidable_of_iff' _ validComponent_iff

instance (cs : List Bytes) : Decidable (Valid cs) :=
  inferInstanceAs (Decidable (∀ c ∈ cs, ValidComponent c))

theorem Valid.cons_iff {c : Bytes} {cs : List Bytes} :
    Valid (c :: cs) ↔ ValidComponent c ∧ Valid cs := by
  simp [Valid]

theorem Valid.append_iff {cs ds : List Bytes} :
    Valid (cs ++ ds) ↔ Valid cs ∧ Valid ds := by
  simp only [Valid, List.mem_append]
  exact ⟨fun h => ⟨fun c hc => h c (.inl hc), fun c hc => h c (.inr hc)⟩,
    fun h c hc => hc.elim (h.1 c) (h.2 c)⟩

theorem Valid.separable {cs : List Bytes} (h : Valid cs) : Separable slash cs :=
  fun c hc => (h c hc).no_slash

theorem render_injective {cs ds : List Bytes} (hcs : Valid cs) (hds : Valid ds)
    (h : render cs = render ds) : cs = ds := by
  have single : ∀ {es : List Bytes}, Valid es → es ≠ [] → render es ≠ [slash] := by
    intro es hes hne heq
    rw [render_of_ne_nil hne] at heq
    cases es with
    | nil => exact hne rfl
    | cons e es =>
        have hnil : e = [] := by
          have happ : e ++ join slash es = [] := by simpa using heq
          exact (List.append_eq_nil_iff.mp happ).1
        exact (Valid.cons_iff.mp hes).1.ne_nil hnil
  rcases eq_or_ne cs [] with rfl | hc
  · rcases eq_or_ne ds [] with rfl | hd
    · rfl
    · exact absurd h.symm (single hds hd)
  · rcases eq_or_ne ds [] with rfl | hd
    · exact absurd h (single hcs hc)
    · rw [render_of_ne_nil hc, render_of_ne_nil hd] at h
      exact join_injective hcs.separable hds.separable h

theorem one_lt_length_render {cs : List Bytes} (hcs : Valid cs) (h : cs ≠ []) :
    1 < (render cs).length := by
  rw [render_of_ne_nil h]
  cases cs with
  | nil => exact absurd rfl h
  | cons c cs =>
      have hpos := List.length_pos_of_ne_nil (Valid.cons_iff.mp hcs).1.ne_nil
      simp only [join_cons, List.length_cons, List.length_append]
      omega

theorem nul_notMem_render {cs : List Bytes} (h : Valid cs) :
    (0 : UInt8) ∉ render cs := by
  rcases eq_or_ne cs [] with rfl | hne
  · decide
  · rw [render_of_ne_nil hne]
    simp only [join, List.mem_flatMap, List.mem_cons, not_exists, not_and, not_or]
    exact fun c hc => ⟨by decide, (h c hc).no_nul⟩

theorem canonPathLoop_cons {c : Bytes} (hne : c ≠ []) (hc : slash ∉ c) {rest : Bytes}
    (hrest : AtBoundary slash rest) (fuel : Nat) (result : Bytes) :
    canonPathLoop (fuel + 1) (slash :: (c ++ rest)) result =
      canonPathLoop fuel rest
        (if c = str "." then result
        else if c = str ".." then result.take ((rfind slash result).getD result.length)
        else result ++ slash :: c) := by
  obtain ⟨b, bs, rfl⟩ := List.exists_cons_of_ne_nil hne
  have hb : b ≠ slash := fun heq => hc (heq ▸ List.mem_cons_self)
  have hdrop : (slash :: (b :: bs ++ rest)).dropWhile (· = slash) = b :: bs ++ rest := by
    rw [List.dropWhile_cons_of_pos (by simp), List.cons_append,
      List.dropWhile_cons_of_neg (by simpa using hb)]
  have htake : (b :: bs ++ rest).takeWhile (· ≠ slash) = b :: bs := by
    rw [List.takeWhile_append_of_pos]
    · rcases hrest with rfl | ⟨u, rfl⟩ <;> simp
    · intro a ha
      exact decide_eq_true fun heq : a = slash => hc (heq ▸ ha)
  rw [canonPathLoop, hdrop]
  dsimp only
  rw [htake, if_neg (List.append_ne_nil_of_left_ne_nil hne _), List.drop_left]
  split_ifs with hdot hdotdot
  · rw [hdot]
    rfl
  · rw [hdotdot]
    rfl
  · rfl

theorem canonPathLoop_slash (fuel : Nat) (remaining result : Bytes) :
    canonPathLoop fuel (slash :: remaining) result = canonPathLoop fuel remaining result := by
  cases fuel with
  | zero => rfl
  | succ fuel =>
    have hdrop : (slash :: remaining).dropWhile (· = slash) = remaining.dropWhile (· = slash) :=
      List.dropWhile_cons_of_pos (by simp)
    rw [canonPathLoop, canonPathLoop, hdrop]

def ofComponents (cs : List Bytes) : CanonPath := ⟨render cs⟩

theorem canonical_iff {p : CanonPath} :
    p.Canonical ↔ ∃ cs, Valid cs ∧ p = ofComponents cs := by
  constructor
  · rintro ⟨cs, hcs, hp⟩
    exact ⟨cs, hcs, by rw [ofComponents, ← hp]⟩
  · rintro ⟨cs, hcs, rfl⟩
    exact ⟨cs, hcs, rfl⟩

theorem isRoot_ofComponents {cs : List Bytes} (hcs : Valid cs) :
    (ofComponents cs).isRoot = true ↔ cs = [] := by
  constructor
  · intro h
    by_contra hne
    have hlt := one_lt_length_render hcs hne
    have hle : (render cs).length ≤ 1 := of_decide_eq_true h
    omega
  · rintro rfl
    rfl

/-- `pop` removes the last component. -/
theorem pop_ofComponents {cs : List Bytes} {c : Bytes} (h : Valid (cs ++ [c])) :
    (ofComponents (cs ++ [c])).pop = .ok (ofComponents cs) := by
  have hc : ValidComponent c := h c (by simp)
  have hroot : (ofComponents (cs ++ [c])).isRoot = false := by
    rw [Bool.eq_false_iff]
    intro hr
    simpa using (isRoot_ofComponents h).mp hr
  have htext : render (cs ++ [c]) = join slash cs ++ slash :: c := by
    rw [render_of_ne_nil (by simp), join_append]
    simp
  have hfind : rfind slash (render (cs ++ [c])) = some (join slash cs).length := by
    rw [htext, rfind_append_cons _ hc.no_slash]
  simp only [CanonPath.pop, hroot, Bool.false_eq_true, if_false, ofComponents] at *
  rw [hfind, htext]
  rcases eq_or_ne cs [] with rfl | hcs
  · simp [render]
  · have hpos : 1 ≤ (join slash cs).length := List.length_pos_of_ne_nil (join_ne_nil hcs)
    simp only [max_eq_right hpos, List.take_left, render_of_ne_nil hcs]

/-- The abstract meaning of containment: the components of `parent` are the
first components of `p`. -/
def Within (p parent : CanonPath) : Prop :=
  ∃ cs es, Valid (cs ++ es) ∧ parent = ofComponents cs ∧ p = ofComponents (cs ++ es)

theorem within_ofComponents {cs ds : List Bytes} (hcs : Valid cs) (hds : Valid ds) :
    Within (ofComponents cs) (ofComponents ds) ↔ ds <+: cs := by
  constructor
  · rintro ⟨ds', es, hv, hd, hc⟩
    obtain rfl : ds = ds' := render_injective hds (Valid.append_iff.mp hv).1
      (congrArg CanonPath.path hd)
    obtain rfl : cs = ds ++ es := render_injective hcs hv (congrArg CanonPath.path hc)
    exact List.prefix_append ds es
  · rintro ⟨es, rfl⟩
    exact ⟨ds, es, hcs, rfl, rfl⟩

theorem Within.refl {p : CanonPath} (hp : p.Canonical) : Within p p := by
  obtain ⟨cs, hcs, rfl⟩ := canonical_iff.mp hp
  exact (within_ofComponents hcs hcs).mpr (List.prefix_refl cs)

/-- What `isWithin` tests on the texts when the parent is not the root. -/
theorem isWithin_text {p parent : CanonPath} (h : 1 < parent.path.length) :
    p.isWithin parent = true ↔
      ∃ s, p.path = parent.path ++ s ∧ AtBoundary slash s := by
  simp only [CanonPath.isWithin, Bool.not_eq_true', Bool.or_eq_false_iff,
    decide_eq_false_iff_not, not_lt, not_not, Bool.and_eq_false_iff, ne_eq]
  constructor
  · rintro ⟨⟨hlen, htake⟩, hnext⟩
    refine ⟨p.path.drop parent.path.length, ?_, ?_⟩
    · conv_lhs => rw [← List.take_append_drop parent.path.length p.path, htake]
    · rcases Nat.lt_or_ge parent.path.length p.path.length with hlt | hge
      · have hslash : p.path[parent.path.length]? = some slash := by
          rcases hnext with hnext | hnext
          · omega
          · exact hnext
        rw [List.getElem?_eq_getElem hlt, Option.some.injEq] at hslash
        exact .inr ⟨_, by rw [List.drop_eq_getElem_cons hlt, hslash]⟩
      · exact .inl (List.drop_eq_nil_of_le hge)
  · rintro ⟨s, hs, hb⟩
    rw [hs]
    refine ⟨⟨by simp, by simp⟩, ?_⟩
    rcases hb with rfl | ⟨t, rfl⟩
    · simp
    · simp

/-- `isWithin` decides containment of canonical paths. -/
theorem isWithin_iff {p parent : CanonPath} (hp : p.Canonical)
    (hparent : parent.Canonical) : p.isWithin parent = true ↔ Within p parent := by
  obtain ⟨cs, hcs, rfl⟩ := canonical_iff.mp hp
  obtain ⟨ds, hds, rfl⟩ := canonical_iff.mp hparent
  rw [within_ofComponents hcs hds]
  rcases eq_or_ne ds [] with rfl | hne
  · refine iff_of_true ?_ List.nil_prefix
    have hhead : ∃ t, render cs = slash :: t := by
      rcases eq_or_ne cs [] with rfl | hc
      · exact ⟨[], rfl⟩
      · obtain ⟨c, cs, rfl⟩ := List.exists_cons_of_ne_nil hc
        exact ⟨c ++ join slash cs, by rw [render_of_ne_nil hc, join_cons]⟩
    obtain ⟨t, ht⟩ := hhead
    have hroot : render [] = [slash] := rfl
    simp [CanonPath.isWithin, ofComponents, ht, hroot]
  · rw [@isWithin_text (ofComponents cs) (ofComponents ds) (one_lt_length_render hds hne)]
    simp only [ofComponents]
    constructor
    · rintro ⟨s, hs, hb⟩
      have hc : cs ≠ [] := by
        rintro rfl
        have hlen := one_lt_length_render hds hne
        have hlen' := congrArg List.length hs
        simp [render] at hlen'
        simp [render] at hlen
        omega
      rw [render_of_ne_nil hc, render_of_ne_nil hne] at hs
      obtain ⟨es, rfl, -⟩ := exists_append_of_join_eq hcs.separable hds.separable hb hs
      exact List.prefix_append ds es
    · rintro ⟨es, rfl⟩
      refine ⟨join slash es, ?_, atBoundary_join es⟩
      rw [render_of_ne_nil (by simp [hne]), render_of_ne_nil hne, join_append]

end Nix.Util.CanonPathComponents
