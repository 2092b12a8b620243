import Mathlib.Data.List.Lex
import Nix.Util.CanonPathComponents

set_option linter.dupNamespace false

namespace Nix.Util.CanonPathAllowed

open Util.Types Util.CanonPaths Util.CanonPathComponents Lib.SortedList Lib.Delimited

/-- A text as the sequence that `operator<=>` compares. -/
def key (s : Bytes) : List Int :=
  s.map CanonPath.sortKey

theorem compareText_eq_lt {a b : Bytes} :
    CanonPath.compareText a b = .lt ↔ key a < key b := by
  induction a generalizing b with
  | nil => cases b <;> simp [CanonPath.compareText, key]
  | cons x a ih =>
      cases b with
      | nil => simp [CanonPath.compareText, key]
      | cons y b =>
          simp only [CanonPath.compareText, key, List.map_cons, List.cons_lt_cons_iff] at ih ⊢
          cases hxy : compare (CanonPath.sortKey x) (CanonPath.sortKey y) with
          | lt => simp [compare_lt_iff_lt.mp hxy]
          | eq => simp [compare_eq_iff_eq.mp hxy, ih]
          | gt =>
              have hlt := compare_gt_iff_gt.mp hxy
              simp [hlt.ne', not_lt_of_gt hlt]

theorem compareText_eq_eq {a b : Bytes} :
    CanonPath.compareText a b = .eq ↔ key a = key b := by
  induction a generalizing b with
  | nil => cases b <;> simp [CanonPath.compareText, key]
  | cons x a ih =>
      cases b with
      | nil => simp [CanonPath.compareText, key]
      | cons y b =>
          simp only [CanonPath.compareText, key, List.map_cons, List.cons.injEq] at ih ⊢
          cases hxy : compare (CanonPath.sortKey x) (CanonPath.sortKey y) with
          | lt => simp [(compare_lt_iff_lt.mp hxy).ne]
          | eq => simp [compare_eq_iff_eq.mp hxy, ih]
          | gt => simp [(compare_gt_iff_gt.mp hxy).ne']

theorem sortKey_injective {a b : UInt8} (ha : a ≠ 0) (hb : b ≠ 0)
    (h : CanonPath.sortKey a = CanonPath.sortKey b) : a = b := by
  have hzero : ∀ {x : UInt8}, x.toBitVec.toInt = 0 → x = 0 := fun hx =>
    UInt8.eq_of_toBitVec_eq (BitVec.eq_of_toInt_eq (by simpa using hx))
  unfold CanonPath.sortKey at h
  split at h <;> split at h
  · simp_all
  · exact absurd (hzero h.symm) hb
  · exact absurd (hzero h) ha
  · exact UInt8.eq_of_toBitVec_eq (BitVec.eq_of_toInt_eq h)

theorem key_injective {s t : Bytes} (hs : (0 : UInt8) ∉ s) (ht : (0 : UInt8) ∉ t)
    (h : key s = key t) : s = t := by
  induction s generalizing t with
  | nil =>
      cases t with
      | nil => rfl
      | cons y t => simp [key] at h
  | cons x s ih =>
      cases t with
      | nil => simp [key] at h
      | cons y t =>
          simp only [key, List.map_cons, List.cons.injEq] at h
          simp only [List.mem_cons, not_or] at hs ht
          obtain rfl := sortKey_injective (Ne.symm hs.1) (Ne.symm ht.1) h.1
          rw [ih hs.2 ht.2 h.2]

/-- The key of a byte that is not a separator or NUL has the sign of the
platform's `char`. -/
theorem sortKey_neg_iff {c : UInt8} : CanonPath.sortKey c < 0 ↔ 128 ≤ c.toNat := by
  unfold CanonPath.sortKey
  split
  · rename_i h
    subst h
    decide
  · rw [BitVec.toInt_eq_toNat_cond]
    have hlt := c.toNat_lt
    simp only [UInt8.toNat_toBitVec]
    split <;> omega

theorem sortKey_eq_zero_iff {c : UInt8} (hc : c ≠ 0) :
    CanonPath.sortKey c = 0 ↔ c = slash := by
  constructor
  · intro h
    exact sortKey_injective hc (by decide) (by rw [h]; rfl)
  · rintro rfl
    rfl

section Between

variable {α : Type} [LinearOrder α]

theorem append_lt_append_iff (k : List α) {s t : List α} :
    k ++ s < k ++ t ↔ s < t := by
  induction k with
  | nil => simp
  | cons a k ih => simpa [List.cons_lt_cons_iff] using ih

theorem exists_append_of_between {k m s : List α} (hlo : ¬ m < k) (hhi : ¬ k ++ s < m) :
    ∃ t, m = k ++ t := by
  induction k generalizing m with
  | nil => exact ⟨m, rfl⟩
  | cons a k ih =>
      cases m with
      | nil => exact absurd (List.nil_lt_cons a k) hlo
      | cons b m =>
          simp only [List.cons_append, List.cons_lt_cons_iff, not_or, not_and, not_lt] at hlo hhi
          obtain rfl : a = b := le_antisymm hlo.1 hhi.1
          obtain ⟨t, rfl⟩ := ih (not_lt.mpr (hlo.2 rfl)) (not_lt.mpr (hhi.2 rfl))
          exact ⟨t, rfl⟩

end Between

theorem key_append (s t : Bytes) : key (s ++ t) = key s ++ key t :=
  List.map_append

theorem text_between {s t u : Bytes} (ht : (0 : UInt8) ∉ t) (hs : (0 : UInt8) ∉ s)
    (hlo : key s ≤ key t) (hhi : key t ≤ key (s ++ slash :: u)) :
    (∃ v, t = s ++ v ∧ AtBoundary slash v) ∨ ∃ c v, t = s ++ c :: v ∧ 128 ≤ c.toNat := by
  rw [key_append] at hhi
  obtain ⟨m, hm⟩ := exists_append_of_between (not_lt.mpr hlo) (not_lt.mpr hhi)
  have hsplit : t = s ++ t.drop s.length := by
    have htake : key (t.take s.length) = key s := by
      rw [key, List.map_take, ← key, hm, List.take_left' (by simp [key])]
    have hprefix := key_injective (fun h => ht (List.mem_of_mem_take h)) hs htake
    conv_lhs => rw [← List.take_append_drop s.length t, hprefix]
  generalize t.drop s.length = v at hsplit
  subst hsplit
  cases v with
  | nil => exact .inl ⟨[], rfl, .inl rfl⟩
  | cons c v =>
      have hc : c ≠ 0 := by
        rintro rfl
        simp at ht
      rw [key_append, ← not_lt, append_lt_append_iff] at hhi
      have hle : CanonPath.sortKey c ≤ CanonPath.sortKey slash := by
        simp only [key, List.map_cons, List.cons_lt_cons_iff, not_or, not_lt] at hhi
        exact hhi.1
      rcases lt_or_eq_of_le hle with hneg | hzero
      · exact .inr ⟨c, v, rfl, sortKey_neg_iff.mp hneg⟩
      · obtain rfl := (sortKey_eq_zero_iff hc).mp hzero
        exact .inl ⟨slash :: v, rfl, .inr ⟨v, rfl⟩⟩

/-- Bytes that are negative as `char` sort before the separator. -/
theorem key_lt_of_high {s u v : Bytes} {c : UInt8} (hc : 128 ≤ c.toNat) :
    key (s ++ c :: v) < key (s ++ slash :: u) := by
  rw [key_append, key_append, append_lt_append_iff]
  simp only [key, List.map_cons, List.cons_lt_cons_iff]
  exact .inl (sortKey_neg_iff.mpr hc)

theorem cmp_eq_eq {p q : CanonPath} (hp : p.Canonical) (hq : q.Canonical) :
    CanonPath.cmp p q = .eq ↔ p = q := by
  obtain ⟨cs, hcs, rfl⟩ := canonical_iff.mp hp
  obtain ⟨ds, hds, rfl⟩ := canonical_iff.mp hq
  rw [CanonPath.cmp, compareText_eq_eq]
  constructor
  · intro h
    exact congrArg CanonPath.mk
      (key_injective (nul_notMem_render hcs) (nul_notMem_render hds) h)
  · rintro h
    rw [h]

theorem lowerBound_eq_some {allowed : CanonPath.PathSet} {p lb : CanonPath}
    (h : allowed.lowerBound p = some lb) :
    lb ∈ allowed.elems ∧ key p.path ≤ key lb.path ∧
      ∀ a ∈ allowed.elems, key p.path ≤ key a.path → key lb.path ≤ key a.path := by
  obtain ⟨hlb, before, after, hsplit, hbefore⟩ := List.find?_eq_some_iff_append.mp h
  have hsorted := allowed.sorted
  rw [hsplit] at hsorted
  simp only [decide_eq_true_eq, CanonPath.cmp, ne_eq, compareText_eq_lt, not_lt] at hlb
  refine ⟨by simp [hsplit], hlb, ?_⟩
  intro a ha hle
  rw [hsplit] at ha
  rcases List.mem_append.mp ha with ha | ha
  · have hlt := hbefore a ha
    simp only [CanonPath.cmp, ne_eq, compareText_eq_lt, not_lt, Bool.not_eq_true',
      decide_eq_false_iff_not, not_le] at hlt
    exact absurd hle (not_le_of_gt hlt)
  · rcases List.mem_cons.mp ha with rfl | ha
    · exact le_refl _
    · have hlt := (List.pairwise_cons.mp (List.pairwise_append.mp hsorted).2.1).1 a ha
      exact le_of_lt (compareText_eq_lt.mp hlt)

theorem lowerBound_eq_none {allowed : CanonPath.PathSet} {p : CanonPath}
    (h : allowed.lowerBound p = none) :
    ∀ a ∈ allowed.elems, key a.path < key p.path := by
  intro a ha
  have hlt := List.find?_eq_none.mp h a ha
  simpa only [CanonPath.cmp, ne_eq, compareText_eq_lt, not_lt, decide_eq_true_eq,
    not_le] using hlt

theorem count_iff {allowed : CanonPath.PathSet} (hall : ∀ a ∈ allowed.elems, a.Canonical)
    {p : CanonPath} (hp : p.Canonical) :
    allowed.count p = true ↔ p ∈ allowed.elems := by
  simp only [CanonPath.PathSet.count, List.any_eq_true, decide_eq_true_eq]
  constructor
  · rintro ⟨a, ha, hcmp⟩
    exact (cmp_eq_eq (hall a ha) hp).mp hcmp ▸ ha
  · exact fun h => ⟨p, h, (cmp_eq_eq hp hp).mpr rfl⟩

theorem parentAllowed_ofComponents {allowed : CanonPath.PathSet}
    (hall : ∀ a ∈ allowed.elems, a.Canonical) {cs : List Bytes} (hcs : Valid cs)
    {fuel : Nat} (hfuel : cs.length < fuel) :
    ∃ b, CanonPath.parentAllowed allowed fuel (ofComponents cs) = .ok b ∧
      (b = true ↔ ∃ ds, ds <+: cs ∧ ds ≠ cs ∧ ofComponents ds ∈ allowed.elems) := by
  induction cs using List.reverseRecOn generalizing fuel with
  | nil =>
      obtain ⟨fuel, rfl⟩ := Nat.exists_eq_add_of_lt hfuel
      refine ⟨false, ?_, ?_⟩
      · have hroot := (isRoot_ofComponents hcs).mpr rfl
        simp [CanonPath.parentAllowed, hroot]
      · simp [List.prefix_nil]
  | append_singleton cs c ih =>
      obtain ⟨fuel, rfl⟩ := Nat.exists_eq_add_of_lt hfuel
      have hinit : Valid cs := (Valid.append_iff.mp hcs).1
      have hroot : (ofComponents (cs ++ [c])).isRoot = false := by
        rw [Bool.eq_false_iff]
        intro hr
        simpa using (isRoot_ofComponents hcs).mp hr
      simp only [List.length_append, List.length_singleton] at hfuel ⊢
      rw [CanonPath.parentAllowed]
      simp only [hroot, Bool.false_eq_true, if_false, pop_ofComponents hcs]
      have hstep : ∀ ds : List Bytes, ds <+: cs ++ [c] ∧ ds ≠ cs ++ [c] ↔ ds <+: cs := by
        intro ds
        rw [List.prefix_concat_iff]
        constructor
        · rintro ⟨h | h, hne⟩
          · exact absurd h hne
          · exact h
        · intro h
          refine ⟨.inr h, ?_⟩
          rintro rfl
          simpa using h.length_le
      by_cases hmem : ofComponents cs ∈ allowed.elems
      · refine ⟨true, ?_, ?_⟩
        · have hcount := (count_iff hall (canonical_iff.mpr ⟨cs, hinit, rfl⟩)).mpr hmem
          simp [hcount, bind, Except.bind, pure, Except.pure]
        · simp only [true_iff]
          exact ⟨cs, ((hstep cs).mpr (List.prefix_refl cs)).1,
            ((hstep cs).mpr (List.prefix_refl cs)).2, hmem⟩
      · have hcount : allowed.count (ofComponents cs) = false := by
          rw [Bool.eq_false_iff]
          exact fun h => hmem ((count_iff hall (canonical_iff.mpr ⟨cs, hinit, rfl⟩)).mp h)
        obtain ⟨b, hb, hspec⟩ := @ih hinit (cs.length + 1 + fuel) (by omega)
        refine ⟨b, ?_, ?_⟩
        · simpa [hcount, bind, Except.bind] using hb
        · rw [hspec]
          constructor
          · rintro ⟨ds, hpre, -, hin⟩
            exact ⟨ds, ((hstep ds).mpr hpre).1, ((hstep ds).mpr hpre).2, hin⟩
          · rintro ⟨ds, hpre, hne, hin⟩
            refine ⟨ds, (hstep ds).mp ⟨hpre, hne⟩, ?_, hin⟩
            rintro rfl
            exact hmem hin

/-- The documented meaning: `p` is below an allowed path or an allowed path is
below `p`. -/
def Allowed (p : CanonPath) (allowed : CanonPath.PathSet) : Prop :=
  (∃ a ∈ allowed.elems, Within p a) ∨ ∃ a ∈ allowed.elems, Within a p

/-- `isAllowed` answers and the answer is the documented one. -/
def AnswersSpec (p : CanonPath) (allowed : CanonPath.PathSet) : Prop :=
  ∃ b, p.isAllowed allowed = .ok b ∧ (b = true ↔ Allowed p allowed)

/-- An allowed path that continues the text of `p` with a byte of 128 or more
comes between `p` and the allowed paths below `p`. -/
def Shadowed (p : CanonPath) (allowed : CanonPath.PathSet) : Prop :=
  p ≠ CanonPath.root ∧ (∃ a ∈ allowed.elems, Within a p) ∧
    (¬∃ a ∈ allowed.elems, Within p a) ∧
    ∃ b ∈ allowed.elems, ∃ c t, b.path = p.path ++ c :: t ∧ 128 ≤ c.toNat

theorem exists_text_of_within {p parent : CanonPath} (h : Within p parent) :
    ∃ s, p.path = parent.path ++ s ∧ (parent ≠ CanonPath.root → AtBoundary slash s) := by
  obtain ⟨cs, es, hv, rfl, rfl⟩ := h
  rcases eq_or_ne cs [] with rfl | hne
  · refine ⟨(render es).drop 1, ?_, fun h => absurd rfl h⟩
    rcases eq_or_ne es [] with rfl | hes
    · rfl
    · obtain ⟨e, es, rfl⟩ := List.exists_cons_of_ne_nil hes
      rfl
  · refine ⟨join slash es, ?_, fun _ => atBoundary_join es⟩
    simp only [ofComponents]
    rw [render_of_ne_nil (by simp [hne]), render_of_ne_nil hne, join_append]

theorem key_le_of_within {p parent : CanonPath} (h : Within p parent) :
    key parent.path ≤ key p.path := by
  obtain ⟨s, hs, -⟩ := exists_text_of_within h
  have hnil : ¬key parent.path ++ key s < key parent.path ++ [] := by
    rw [append_lt_append_iff]
    exact List.not_lt_nil _
  rw [hs, key_append]
  simpa using hnil

theorem within_of_text {p parent : CanonPath} (hp : p.Canonical)
    (hparent : parent.Canonical) (hroot : parent ≠ CanonPath.root) {s : Bytes}
    (hs : p.path = parent.path ++ s) (hb : AtBoundary slash s) : Within p parent := by
  rw [← isWithin_iff hp hparent, isWithin_text]
  · exact ⟨s, hs, hb⟩
  · obtain ⟨ds, hds, rfl⟩ := canonical_iff.mp hparent
    exact one_lt_length_render hds fun h => hroot (by rw [h]; rfl)

theorem within_root {p : CanonPath} (hp : p.Canonical) : Within p CanonPath.root := by
  obtain ⟨cs, hcs, rfl⟩ := canonical_iff.mp hp
  exact ⟨[], cs, hcs, rfl, rfl⟩

theorem eq_of_within_of_key_le {p parent : CanonPath} (hp : p.Canonical)
    (hparent : parent.Canonical) (h : Within p parent)
    (hle : key p.path ≤ key parent.path) : p = parent := by
  rw [← cmp_eq_eq hp hparent, CanonPath.cmp, compareText_eq_eq]
  exact le_antisymm hle (key_le_of_within h)

theorem exists_within_iff {allowed : CanonPath.PathSet} {cs : List Bytes} (hcs : Valid cs) :
    (∃ a ∈ allowed.elems, Within (ofComponents cs) a) ↔
      ofComponents cs ∈ allowed.elems ∨
        ∃ ds, ds <+: cs ∧ ds ≠ cs ∧ ofComponents ds ∈ allowed.elems := by
  constructor
  · rintro ⟨a, ha, hw⟩
    obtain ⟨ds, es, hv, rfl, hp⟩ := hw
    obtain rfl := render_injective hcs hv (congrArg CanonPath.path hp)
    rcases eq_or_ne es [] with rfl | hes
    · exact .inl (by simpa using ha)
    · exact .inr ⟨ds, List.prefix_append ds es, by simpa using hes, ha⟩
  · rintro (h | ⟨ds, ⟨es, rfl⟩, -, h⟩)
    · exact ⟨_, h, Within.refl ⟨cs, hcs, rfl⟩⟩
    · exact ⟨_, h, ds, es, hcs, rfl, rfl⟩

section Answer

variable {p : CanonPath} {allowed : CanonPath.PathSet}

/-- What the two steps of `isAllowed` find. -/
theorem isAllowed_eq (hp : p.Canonical) (hall : ∀ a ∈ allowed.elems, a.Canonical) :
    ∃ b, p.isAllowed allowed = .ok b ∧
      (b = true ↔ (∃ lb, allowed.lowerBound p = some lb ∧ Within lb p) ∨
        ∃ a ∈ allowed.elems, Within p a) := by
  obtain ⟨cs, hcs, rfl⟩ := canonical_iff.mp hp
  have hself : ofComponents cs ∈ allowed.elems →
      ∃ lb, allowed.lowerBound (ofComponents cs) = some lb ∧ Within lb (ofComponents cs) := by
    intro hmem
    cases hlb : allowed.lowerBound (ofComponents cs) with
    | none => exact absurd (lowerBound_eq_none hlb _ hmem) (lt_irrefl _)
    | some lb =>
        obtain ⟨hin, hge, hmin⟩ := lowerBound_eq_some hlb
        have heq : lb = ofComponents cs := by
          rw [← cmp_eq_eq (hall lb hin) hp, CanonPath.cmp, compareText_eq_eq]
          exact le_antisymm (hmin _ hmem le_rfl) hge
        exact ⟨lb, rfl, heq.symm ▸ Within.refl hp⟩
  have hfuel : cs.length < (render cs).length := by
    rcases eq_or_ne cs [] with rfl | hne
    · decide
    · rw [render_of_ne_nil hne]
      obtain ⟨c, cs, rfl⟩ := List.exists_cons_of_ne_nil hne
      have hc := List.length_pos_of_ne_nil (Valid.cons_iff.mp hcs).1.ne_nil
      have hle := length_le_length_join slash cs
      simp only [join_cons, List.length_cons, List.length_append]
      omega
  obtain ⟨b, hb, hspec⟩ := parentAllowed_ofComponents hall hcs hfuel
  have hloop : CanonPath.parentAllowed allowed (ofComponents cs).path.length
      (ofComponents cs) = .ok b := hb
  rw [exists_within_iff hcs]
  cases hlb : allowed.lowerBound (ofComponents cs) with
  | none =>
      refine ⟨b, by simp only [CanonPath.isAllowed, hlb, hloop], ?_⟩
      rw [hspec]
      constructor
      · exact fun h => .inr (.inr h)
      · rintro (⟨lb, h, -⟩ | h | h)
        · exact absurd h (by simp)
        · obtain ⟨lb, h', -⟩ := hself h
          exact absurd (hlb.symm.trans h') (by simp)
        · exact h
  | some lb =>
      have hin := (lowerBound_eq_some hlb).1
      have hiff := isWithin_iff (hall lb hin) hp
      by_cases hw : Within lb (ofComponents cs)
      · refine ⟨true, by simp only [CanonPath.isAllowed, hlb, hiff.mpr hw, if_true], ?_⟩
        simp only [true_iff]
        exact .inl ⟨lb, rfl, hw⟩
      · have hfalse : lb.isWithin (ofComponents cs) = false :=
          Bool.eq_false_iff.mpr fun h => hw (hiff.mp h)
        refine ⟨b, by simp only [CanonPath.isAllowed, hlb, hfalse, hloop]; rfl, ?_⟩
        rw [hspec]
        constructor
        · exact fun h => .inr (.inr h)
        · rintro (⟨lb', h, hw'⟩ | h | h)
          · obtain rfl := Option.some.inj h
            exact absurd hw' hw
          · obtain ⟨lb', h', hw'⟩ := hself h
            obtain rfl := Option.some.inj (hlb.symm.trans h')
            exact absurd hw' hw
          · exact h

/-- The first candidate is below `p`, or one that continues its text with a
high byte is in the way. -/
theorem lowerBound_within_or_shadow (hp : p.Canonical)
    (hall : ∀ a ∈ allowed.elems, a.Canonical) {d : CanonPath} (hd : d ∈ allowed.elems)
    (hdp : Within d p) :
    ∃ lb ∈ allowed.elems, allowed.lowerBound p = some lb ∧
      (Within lb p ∨ p ≠ CanonPath.root ∧
        ∃ c t, lb.path = p.path ++ c :: t ∧ 128 ≤ c.toNat) := by
  cases hlb : allowed.lowerBound p with
  | none => exact absurd (lowerBound_eq_none hlb d hd) (not_lt_of_ge (key_le_of_within hdp))
  | some lb =>
      obtain ⟨hin, hge, hmin⟩ := lowerBound_eq_some hlb
      refine ⟨lb, hin, rfl, ?_⟩
      have hlo : key lb.path ≤ key d.path := hmin d hd (key_le_of_within hdp)
      rcases eq_or_ne p CanonPath.root with rfl | hroot
      · exact .inl (within_root (hall lb hin))
      · obtain ⟨s, hs, hb⟩ := exists_text_of_within hdp
        rcases hb hroot with rfl | ⟨u, rfl⟩
        · have hdeq : d.path = p.path := by simpa using hs
          have heq : lb = p := by
            rw [← cmp_eq_eq (hall lb hin) hp, CanonPath.cmp, compareText_eq_eq]
            exact le_antisymm (hdeq ▸ hlo) hge
          exact .inl (heq.symm ▸ Within.refl hp)
        · obtain ⟨cs, hcs, hpt⟩ := canonical_iff.mp hp
          obtain ⟨ds, hds, hlt⟩ := canonical_iff.mp (hall lb hin)
          have hnul : (0 : UInt8) ∉ p.path := hpt ▸ nul_notMem_render hcs
          have hnul' : (0 : UInt8) ∉ lb.path := hlt ▸ nul_notMem_render hds
          rcases text_between hnul' hnul hge (hs ▸ hlo) with ⟨v, hv, hbv⟩ | ⟨c, v, hv, hc⟩
          · exact .inl (within_of_text (hall lb hin) hp hroot hv hbv)
          · exact .inr ⟨hroot, c, v, hv, hc⟩

theorem not_within_lowerBound (hp : p.Canonical) (hall : ∀ a ∈ allowed.elems, a.Canonical)
    (hshadow : Shadowed p allowed) {lb : CanonPath} (hlb : allowed.lowerBound p = some lb) :
    ¬Within lb p := by
  intro hw
  obtain ⟨hroot, -, hnone, b, hb, c, t, htext, hc⟩ := hshadow
  obtain ⟨hin, -, hmin⟩ := lowerBound_eq_some hlb
  have hge : key p.path ≤ key b.path := by
    have hnil : ¬key p.path ++ key (c :: t) < key p.path ++ [] := by
      rw [append_lt_append_iff]
      exact List.not_lt_nil _
    rw [htext, key_append]
    simpa using hnil
  obtain ⟨s, hs, hbound⟩ := exists_text_of_within hw
  rcases hbound hroot with rfl | ⟨u, rfl⟩
  · have heq : lb = p := eq_of_within_of_key_le (hall lb hin) hp hw (by rw [hs]; simp)
    exact hnone ⟨lb, hin, heq.symm ▸ Within.refl hp⟩
  · have hlt : key b.path < key lb.path := by
      rw [htext, hs]
      exact key_lt_of_high hc
    exact absurd hlt (not_lt_of_ge (hmin b hb hge))

/-- `isAllowed` gives the documented answer exactly when no allowed path with a
high byte shadows the allowed paths below `p`. -/
theorem answersSpec_iff (hp : p.Canonical) (hall : ∀ a ∈ allowed.elems, a.Canonical) :
    AnswersSpec p allowed ↔ ¬Shadowed p allowed := by
  obtain ⟨b, hb, hfound⟩ := isAllowed_eq hp hall
  have hspec : AnswersSpec p allowed ↔ (b = true ↔ Allowed p allowed) := by
    constructor
    · rintro ⟨b', hb', h⟩
      obtain rfl : b = b' := Except.ok.inj (hb.symm.trans hb')
      exact h
    · exact fun h => ⟨b, hb, h⟩
  rw [hspec, hfound]
  constructor
  · intro h hshadow
    obtain ⟨-, hbelow, hnone, -⟩ := id hshadow
    rcases h.mpr (.inr hbelow) with ⟨lb, hlb, hw⟩ | habove
    · exact not_within_lowerBound hp hall hshadow hlb hw
    · exact hnone habove
  · intro hshadow
    constructor
    · rintro (⟨lb, hlb, hw⟩ | habove)
      · exact .inr ⟨lb, (lowerBound_eq_some hlb).1, hw⟩
      · exact .inl habove
    · rintro (habove | ⟨d, hd, hdp⟩)
      · exact .inr habove
      · obtain ⟨lb, hin, hlb, hw | ⟨hroot, hhigh⟩⟩ :=
          lowerBound_within_or_shadow hp hall hd hdp
        · exact .inl ⟨lb, hlb, hw⟩
        · by_contra hcon
          exact hshadow ⟨hroot, ⟨d, hd, hdp⟩, fun h => hcon (.inr h), lb, hin, hhigh⟩

end Answer

theorem answersSpec_iff_child :
    AnswersSpec ⟨str "/foo"⟩ ⟨[⟨str "/foo/bar"⟩], by decide⟩ ↔
      ¬Shadowed ⟨str "/foo"⟩ ⟨[⟨str "/foo/bar"⟩], by decide⟩ := by
  refine answersSpec_iff ⟨[str "foo"], by decide, rfl⟩ ?_
  intro a ha
  obtain rfl := List.mem_singleton.mp ha
  exact ⟨[str "foo", str "bar"], by decide, rfl⟩

/-- The set of `/foo\xff` and `/foo/bar`. -/
def highSet : CanonPath.PathSet :=
  ⟨[⟨str "/foo" ++ [255]⟩, ⟨str "/foo/bar"⟩], by decide⟩

/-- `/foo` is the parent of an allowed path and yet is refused. -/
theorem not_answersSpec_highSet :
    (⟨str "/foo"⟩ : CanonPath).Canonical ∧ (∀ a ∈ highSet.elems, a.Canonical) ∧
      ¬AnswersSpec ⟨str "/foo"⟩ highSet := by
  refine ⟨⟨[str "foo"], by decide, rfl⟩, ?_, ?_⟩
  · intro a ha
    simp only [highSet, List.mem_cons, List.not_mem_nil, or_false] at ha
    rcases ha with rfl | rfl
    · exact ⟨[str "foo" ++ [255]], by decide, rfl⟩
    · exact ⟨[str "foo", str "bar"], by decide, rfl⟩
  · rintro ⟨b, hb, hspec⟩
    have hfalse : (⟨str "/foo"⟩ : CanonPath).isAllowed highSet = .ok false := rfl
    obtain rfl : false = b := Except.ok.inj (hfalse.symm.trans hb)
    refine Bool.false_ne_true (hspec.mpr (.inr ⟨⟨str "/foo/bar"⟩, by decide, ?_⟩))
    exact ⟨[str "foo"], [str "bar"], by decide, rfl, rfl⟩

end Nix.Util.CanonPathAllowed
