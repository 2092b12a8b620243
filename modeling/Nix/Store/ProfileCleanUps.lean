import Nix.Store.Profiles

/-!
When clean-ups keep the current generation of a profile.
-/

set_option linter.dupNamespace false

namespace Nix.Store.Profiles

open Util.Types Util.CanonPaths

section Pairs

variable {α : Type}

theorem mem_of_pair {a b : α} {l : List α} (h : [a, b].Sublist l) : a ∈ l ∧ b ∈ l :=
  ⟨h.subset List.mem_cons_self, h.subset (List.mem_cons_of_mem _ List.mem_cons_self)⟩

theorem pair_cons_iff {a b c : α} {l : List α} :
    [a, b].Sublist (c :: l) ↔ [a, b].Sublist l ∨ a = c ∧ b ∈ l := by
  constructor
  · intro h
    cases h with
    | cons _ h => exact .inl h
    | cons_cons _ h => exact .inr ⟨rfl, List.singleton_sublist.mp h⟩
  · rintro (h | ⟨rfl, h⟩)
    · exact h.cons c
    · exact (List.singleton_sublist.mpr h).cons_cons a

theorem pair_or_pair {a b : α} {l : List α} (ha : a ∈ l) (hb : b ∈ l) (hne : a ≠ b) :
    [a, b].Sublist l ∨ [b, a].Sublist l := by
  induction l with
  | nil => cases ha
  | cons c l ih =>
      rw [pair_cons_iff, pair_cons_iff]
      rcases List.mem_cons.mp ha with rfl | ha'
      · exact .inl (.inr ⟨rfl, (List.mem_cons.mp hb).resolve_left hne.symm⟩)
      · rcases List.mem_cons.mp hb with rfl | hb'
        · exact .inr (.inr ⟨rfl, ha'⟩)
        · exact (ih ha' hb').imp .inl .inl

theorem not_pair_of_pair {a b : α} {l : List α} (hl : l.Nodup) (h : [a, b].Sublist l) :
    ¬[b, a].Sublist l := by
  induction l with
  | nil => cases h
  | cons c l ih =>
      obtain ⟨hc, hl⟩ := List.nodup_cons.mp hl
      rw [pair_cons_iff] at h ⊢
      rintro (h' | ⟨rfl, h'⟩)
      · rcases h with h | ⟨rfl, -⟩
        · exact ih hl h h'
        · exact hc (mem_of_pair h').2
      · rcases h with h | ⟨rfl, h⟩
        · exact hc (mem_of_pair h).2
        · exact hc h

theorem mem_drop_dropWhile {P : α → Bool} {l : List α} {a : α} :
    a ∈ (l.dropWhile fun b => !P b).drop 1 ↔ ∃ b, [b, a].Sublist l ∧ P b = true := by
  induction l with
  | nil => exact iff_of_false List.not_mem_nil fun ⟨_, h, _⟩ => by cases h
  | cons c l ih =>
      rw [List.dropWhile_cons]
      by_cases hc : P c = true
      · rw [hc, Bool.not_true, if_neg Bool.false_ne_true, List.drop_one, List.tail_cons]
        constructor
        · exact fun ha => ⟨c, pair_cons_iff.mpr (.inr ⟨rfl, ha⟩), hc⟩
        · rintro ⟨b, h, -⟩
          rcases pair_cons_iff.mp h with h | ⟨-, h⟩
          · exact (mem_of_pair h).2
          · exact h
      · rw [Bool.not_eq_true] at hc
        rw [hc, Bool.not_false, if_pos rfl, ih]
        constructor
        · exact fun ⟨b, h, hb⟩ => ⟨b, h.cons c, hb⟩
        · rintro ⟨b, h, hb⟩
          rcases pair_cons_iff.mp h with h | ⟨rfl, -⟩
          · exact ⟨b, h, hb⟩
          · rw [hc] at hb
            cases hb

end Pairs

namespace Profile

variable {p : Profile}

/-- The order of the generations: by number, then as they are listed. -/
def Precedes (p : Profile) (g g' : Generation) : Prop :=
  g ∈ p.listed ∧ g' ∈ p.listed ∧
    (g.number < g'.number ∨ g.number = g'.number ∧ [g, g'].Sublist p.listed)

theorem mem_listed {g : Generation} :
    g ∈ p.listed ↔ (⟨g.name, g.creationTime⟩ : Entry) ∈ p.entries ∧
      p.parse g.name = some g.number := by
  rw [listed, List.mem_filterMap]
  constructor
  · rintro ⟨i, hi, hg⟩
    obtain ⟨n, hn, rfl⟩ := Option.map_eq_some_iff.mp hg
    exact ⟨hi, hn⟩
  · rintro ⟨hi, hn⟩
    exact ⟨_, hi, by rw [hn]; rfl⟩

theorem map_name_listed_sublist : (p.listed.map Generation.name).Sublist p.names := by
  rw [listed, names]
  generalize p.entries = entries
  induction entries with
  | nil => exact .slnil
  | cons i entries ih =>
      rw [List.filterMap_cons, List.map_cons]
      cases p.parse i.name with
      | none => exact ih.cons _
      | some n => exact ih.cons_cons _

theorem nodup_listed : p.listed.Nodup :=
  (p.nodup.sublist map_name_listed_sublist).of_map _

theorem eq_of_name_eq {g g' : Generation} (h : g ∈ p.listed) (h' : g' ∈ p.listed)
    (hname : g.name = g'.name) : g = g' :=
  List.inj_on_of_nodup_map (p.nodup.sublist map_name_listed_sublist) h h' hname

theorem mem_gens {g : Generation} : g ∈ p.gens ↔ g ∈ p.listed :=
  List.mem_insertionSort _

theorem mem_names_of_mem_listed {g : Generation} (h : g ∈ p.listed) : g.name ∈ p.names :=
  List.mem_map_of_mem (f := Entry.name) (mem_listed.mp h).1

theorem pairwise_gens : p.gens.Pairwise (·.number ≤ ·.number) := by
  have htotal : Std.Total fun g g' : Generation => g.number ≤ g'.number :=
    ⟨fun g g' => Std.Total.total g.number g'.number⟩
  have htrans : IsTrans Generation fun g g' => g.number ≤ g'.number :=
    ⟨fun _ _ _ => UInt64.le_trans⟩
  exact List.pairwise_insertionSort _ _

theorem pair_gens_iff {g g' : Generation} : [g, g'].Sublist p.gens ↔ p.Precedes g g' := by
  have hnodup : p.gens.Nodup := (List.perm_insertionSort _ _).nodup_iff.mpr nodup_listed
  have hle : ∀ {a b : Generation}, [a, b].Sublist p.gens → a.number ≤ b.number := by
    intro a b h
    exact (List.pairwise_cons.mp (pairwise_gens.sublist h)).1 b List.mem_cons_self
  constructor
  · intro h
    obtain ⟨hg, hg'⟩ := mem_of_pair h
    rw [mem_gens] at hg hg'
    refine ⟨hg, hg', (UInt64.lt_or_eq_of_le (hle h)).imp_right fun heq => ⟨heq, ?_⟩⟩
    have hne : g ≠ g' := by
      rintro rfl
      exact not_pair_of_pair hnodup h h
    refine (pair_or_pair hg hg' hne).resolve_right fun h' => ?_
    exact not_pair_of_pair hnodup h (List.pair_sublist_insertionSort (UInt64.le_of_eq heq.symm) h')
  · rintro ⟨hg, hg', hlt | ⟨heq, h⟩⟩
    · have hne : g ≠ g' := by
        rintro rfl
        exact UInt64.lt_irrefl _ hlt
      refine (pair_or_pair (mem_gens.mpr hg) (mem_gens.mpr hg') hne).resolve_right fun h' => ?_
      exact absurd hlt (UInt64.not_lt.mpr (hle h'))
    · exact List.pair_sublist_insertionSort (UInt64.le_of_eq heq) h

theorem mem_drop_iterDropUntil {cond : Generation → Bool} {g : Generation} :
    g ∈ (iterDropUntil cond p.gens.reverse).drop 1 ↔ ∃ g', p.Precedes g g' ∧ cond g' = true := by
  rw [iterDropUntil, mem_drop_dropWhile]
  refine exists_congr fun g' => and_congr_left fun _ => ?_
  rw [← pair_gens_iff, ← List.reverse_sublist, List.reverse_reverse]
  rfl

theorem precedes_or_precedes {g g' : Generation} (hg : g ∈ p.listed) (hg' : g' ∈ p.listed)
    (hne : g ≠ g') : p.Precedes g g' ∨ p.Precedes g' g := by
  rw [← pair_gens_iff, ← pair_gens_iff]
  exact pair_or_pair (mem_gens.mpr hg) (mem_gens.mpr hg') hne

theorem Precedes.ne {g g' : Generation} (h : p.Precedes g g') : g ≠ g' := by
  rintro rfl
  have hnodup : p.gens.Nodup := (List.perm_insertionSort _ _).nodup_iff.mpr nodup_listed
  exact not_pair_of_pair hnodup (pair_gens_iff.mpr h) (pair_gens_iff.mpr h)

theorem parse_nameOf (num : GenerationNumber) : p.parse (p.nameOf num) = some num :=
  parseName_makeName p.profileName num

theorem number_of_name {g : Generation} (hg : g ∈ p.listed) {num : GenerationNumber}
    (h : g.name = p.nameOf num) : g.number = num := by
  have hparse := (mem_listed.mp hg).2
  rw [h, parse_nameOf] at hparse
  exact (Option.some.inj hparse).symm

end Profile

/-- The canonical path that the text of the link stands for. -/
def resolveLink (profileDir text : Bytes) : Bytes :=
  canonPathInner (if text.head? = some slash then text else profileDir ++ slash :: text)

/-- The symlink of the profile points to an existing generation, by any path to it. -/
structure PointsTo (p : Profile) (n : GenerationNumber) : Prop where
  link : ∃ text, p.link = some text ∧
    resolveLink p.profileDir text = canonPathInner (p.profileDir ++ slash :: p.nameOf n)
  mem : p.nameOf n ∈ p.names

/-- The current generation is kept, and no assertion fails. -/
structure Safe (p : Profile) (n : GenerationNumber) (outcome : Outcome) : Prop where
  kept : p.nameOf n ∈ outcome.1.names
  noAssertion : ∀ e, outcome.2 = .error e → e.cls ≠ .assertionFailure

structure NeverDeletesCurrent (p : Profile) (n : GenerationNumber) : Prop where
  deleteGenerations : ∀ gensToDelete dryRun, Safe p n (deleteGenerations p gensToDelete dryRun)
  deleteGenerationsGreaterThan : ∀ max dryRun, Safe p n (deleteGenerationsGreaterThan p max dryRun)
  deleteOldGenerations : ∀ dryRun, Safe p n (deleteOldGenerations p dryRun)
  deleteGenerationsOlderThan : ∀ t dryRun, Safe p n (deleteGenerationsOlderThan p t dryRun)

def Increasing (p : Profile) : Prop :=
  ∀ g ∈ p.listed, ∀ g' ∈ p.listed, g.number < g'.number → g.creationTime < g'.creationTime

/-- The newest generation that was created before `t`. -/
def NewestBefore (p : Profile) (t : Int) (g : Generation) : Prop :=
  g.creationTime < t ∧ ∀ g' ∈ p.listed, g'.creationTime < t → g'.creationTime ≤ g.creationTime

def KeepsExactly (p : Profile) (n : GenerationNumber) : Prop :=
  Increasing p → ∀ t, ∀ g ∈ p.listed, g.name ∈ (deleteGenerationsOlderThan p t false).1.names ↔
    t ≤ g.creationTime ∨ NewestBefore p t g ∨ g.name = p.nameOf n

/-- The link is the plain name of the current generation, which is the only one of its number,
and times never decrease. Where they increase, the names are those that deletions use, but for
newest generations that follow one of their number. -/
structure Regular (p : Profile) (n : GenerationNumber) : Prop where
  link : p.curGen = some n
  only : ∀ g ∈ p.listed, g.number = n → g.name = p.nameOf n
  monotone : ∀ g g', p.Precedes g g' → g.creationTime ≤ g'.creationTime
  named : Increasing p → ∀ g ∈ p.listed, ∀ g' ∈ p.listed, g.creationTime < g'.creationTime →
    g.name = p.nameOf g.number
  first : Increasing p → ∀ g ∈ p.listed, ∀ g' ∈ p.listed, g.name = p.nameOf g.number →
    g' ≠ g → g'.number = g.number → p.Precedes g g' ∧ g.creationTime < g'.creationTime

section Proofs

variable {p : Profile} {n : GenerationNumber}

theorem exists_current (h : p.nameOf n ∈ p.names) :
    ∃ g ∈ p.listed, g.number = n ∧ g.name = p.nameOf n := by
  obtain ⟨i, hi, hname⟩ := List.mem_map.mp h
  have hparse : p.parse i.name = some n := by
    rw [hname]
    exact Profile.parse_nameOf n
  exact ⟨⟨n, i.name, i.mtime⟩, Profile.mem_listed.mpr ⟨hi, hparse⟩, rfl, hname⟩

theorem nameOf_injective : Function.Injective p.nameOf :=
  makeName_injective p.profileName

theorem safe_deleteThose (h : p.nameOf n ∈ p.names) {toDelete : GenerationNumber → Bool}
    {dryRun : Bool} {gens : List Generation}
    (hne : ∀ g ∈ gens, toDelete g.number = true → g.number ≠ n) :
    Safe p n (deleteThose toDelete dryRun gens p, .ok ()) := by
  refine ⟨mem_names_deleteThose.mpr ⟨h, fun _ g hg hdelete heq => ?_⟩, nofun⟩
  exact hne g hg hdelete (nameOf_injective heq).symm

theorem older_of_monotone (h : ∀ g g', p.Precedes g g' → g.creationTime ≤ g'.creationTime)
    (t : Int) : ∀ g ∈ (iterDropUntil (·.creationTime < t) p.gens.reverse).drop 1,
      g.creationTime < t := by
  intro g hg
  obtain ⟨g', hprecedes, hold⟩ := Profile.mem_drop_iterDropUntil.mp hg
  exact (h g g' hprecedes).trans_lt (of_decide_eq_true hold)

theorem neverDeletesCurrent_of_regular (hmem : p.nameOf n ∈ p.names) (h : Regular p n) :
    NeverDeletesCurrent p n where
  deleteGenerations gensToDelete dryRun := by
    rw [deleteGenerations, h.link]
    dsimp only
    split
    next => exact ⟨hmem, fun e he => by cases he; exact nofun⟩
    next hnot =>
      refine safe_deleteThose hmem fun g _ hdelete heq => ?_
      exact hnot (heq ▸ of_decide_eq_true hdelete)
  deleteGenerationsGreaterThan max dryRun := by
    rw [deleteGenerationsGreaterThan]
    split
    next => exact ⟨hmem, fun e he => by cases he; exact nofun⟩
    next hmax =>
      refine safe_deleteThose hmem fun g hg _ heq => ?_
      have hone : 1 ≤ max.toNat := by
        rw [Nat.one_le_iff_ne_zero]
        exact fun hzero => hmax (UInt64.toNat_inj.mp hzero)
      have hdrop := (List.drop_sublist_drop_left _ hone).subset hg
      obtain ⟨g', hprecedes, hcur⟩ := Profile.mem_drop_iterDropUntil.mp hdrop
      have hnumber : g'.number = n := by
        have hcur' := of_decide_eq_true hcur
        rw [h.link] at hcur'
        exact Option.some.inj hcur'
      have hname := (h.only g hprecedes.1 heq).trans (h.only g' hprecedes.2.1 hnumber).symm
      exact hprecedes.ne (Profile.eq_of_name_eq hprecedes.1 hprecedes.2.1 hname)
  deleteOldGenerations dryRun := by
    refine safe_deleteThose hmem fun g _ hdelete heq => ?_
    exact of_decide_eq_true hdelete (heq ▸ h.link.symm)
  deleteGenerationsOlderThan t dryRun := by
    rw [deleteGenerationsOlderThan, deletePrevious_eq (older_of_monotone h.monotone t)]
    refine safe_deleteThose hmem fun g _ hdelete heq => ?_
    exact of_decide_eq_true hdelete (heq ▸ h.link.symm)

/-- What `deleteGenerationsOlderThan` keeps of the generations. -/
theorem mem_names_olderThan (h : ∀ g g', p.Precedes g g' → g.creationTime ≤ g'.creationTime)
    (hlink : p.curGen = some n) (t : Int) {g : Generation} (hg : g ∈ p.listed) :
    g.name ∈ (deleteGenerationsOlderThan p t false).1.names ↔
      ∀ g' g'', p.Precedes g' g'' → g''.creationTime < t → g'.number ≠ n →
        g.name ≠ p.nameOf g'.number := by
  rw [deleteGenerationsOlderThan, deletePrevious_eq (older_of_monotone h t),
    mem_names_deleteThose]
  constructor
  · rintro ⟨-, hne⟩ g' g'' hprecedes hold hnumber
    refine hne rfl g' (Profile.mem_drop_iterDropUntil.mpr ⟨g'', hprecedes, decide_eq_true hold⟩) ?_
    rw [hlink, decide_eq_true_iff]
    exact fun heq => hnumber (Option.some.inj heq)
  · intro hall
    refine ⟨Profile.mem_names_of_mem_listed hg, fun _ g' hg' hdelete => ?_⟩
    obtain ⟨g'', hprecedes, hold⟩ := Profile.mem_drop_iterDropUntil.mp hg'
    refine hall g' g'' hprecedes (of_decide_eq_true hold) fun heq => ?_
    exact of_decide_eq_true hdelete (heq ▸ hlink.symm)

theorem keepsExactly_of_regular (h : Regular p n) : KeepsExactly p n := by
  intro hinc t g hg
  rw [mem_names_olderThan h.monotone h.link t hg]
  constructor
  · intro hkept
    by_contra hnot
    obtain ⟨hge, hnot⟩ := not_or.mp hnot
    obtain ⟨hnewest, hname⟩ := not_or.mp hnot
    obtain ⟨g', hg', hold, hnewer⟩ : ∃ g' ∈ p.listed, g'.creationTime < t ∧
        g.creationTime < g'.creationTime := by
      by_contra hno
      refine hnewest ⟨Int.not_le.mp hge, fun g' hg' hold => Int.not_lt.mp fun hlt => ?_⟩
      exact hno ⟨g', hg', hold, hlt⟩
    have hnamed := h.named hinc g hg g' hg' hnewer
    have hnumber : g.number ≠ n := fun heq => hname (heq ▸ hnamed)
    have hne : g ≠ g' := by
      rintro rfl
      exact Int.lt_irrefl _ hnewer
    rcases Profile.precedes_or_precedes hg hg' hne with hprecedes | hprecedes
    · exact hkept g g' hprecedes hold hnumber hnamed
    · exact Int.not_le.mpr hnewer (h.monotone g' g hprecedes)
  · intro hspec g' g'' hprecedes hold hnumber hname
    have hsame : g.number = g'.number := Profile.number_of_name hg hname
    have hnamed : g.name = p.nameOf g.number := hsame ▸ hname
    have hlater : g.creationTime < g''.creationTime := by
      by_cases heq : g' = g
      · subst heq
        rcases hprecedes.2.2 with hlt | ⟨hsame', -⟩
        · exact hinc g' hg g'' hprecedes.2.1 hlt
        · exact (h.first hinc g' hg g'' hprecedes.2.1 hnamed hprecedes.ne.symm hsame'.symm).2
      · have hlt := (h.first hinc g hg g' hprecedes.1 hnamed heq hsame.symm).2
        exact hlt.trans_le (h.monotone g' g'' hprecedes)
    rcases hspec with hge | ⟨-, hnewest⟩ | hcurrent
    · omega
    · exact Int.not_le.mpr hlater (hnewest g'' hprecedes.2.1 hold)
    · exact hnumber (hsame.symm.trans (Profile.number_of_name hg hcurrent))

theorem curGen_of_safe (hmem : p.nameOf n ∈ p.names) (h : NeverDeletesCurrent p n) :
    p.curGen = some n := by
  obtain ⟨c, hc, hnumber, -⟩ := exists_current hmem
  by_contra hne
  have hkept := (mem_names_deleteThose.mp (h.deleteOldGenerations false).kept).2 rfl c
    (Profile.mem_gens.mpr hc)
  rw [hnumber] at hkept
  exact hkept (decide_eq_true (Ne.symm hne)) rfl

theorem monotone_of_safe (h : NeverDeletesCurrent p n) (g g' : Generation)
    (hprecedes : p.Precedes g g') : g.creationTime ≤ g'.creationTime := by
  by_contra hnot
  have hold : g'.creationTime < g.creationTime := Int.not_le.mp hnot
  have hmem : g ∈ (iterDropUntil (·.creationTime < g.creationTime) p.gens.reverse).drop 1 :=
    Profile.mem_drop_iterDropUntil.mpr ⟨g', hprecedes, decide_eq_true hold⟩
  have hfails := @deletePrevious_fails p.curGen g.creationTime false _ g hmem (Int.lt_irrefl _) p
  exact (h.deleteGenerationsOlderThan g.creationTime false).noAssertion _ hfails rfl

theorem only_of_safe (hmem : p.nameOf n ∈ p.names) (h : NeverDeletesCurrent p n) (g : Generation)
    (hg : g ∈ p.listed) (hnumber : g.number = n) : g.name = p.nameOf n := by
  obtain ⟨c, hc, hnumberc, hnamec⟩ := exists_current hmem
  by_contra hname
  have hne : g ≠ c := by
    rintro rfl
    exact hname hnamec
  obtain ⟨a, b, hprecedes, ha, hb⟩ : ∃ a b, p.Precedes a b ∧ a.number = n ∧ b.number = n := by
    rcases Profile.precedes_or_precedes hg hc hne with hprecedes | hprecedes
    · exact ⟨g, c, hprecedes, hnumber, hnumberc⟩
    · exact ⟨c, g, hprecedes, hnumberc, hnumber⟩
  have hsafe := h.deleteGenerationsGreaterThan 1 false
  rw [deleteGenerationsGreaterThan, if_neg (by decide)] at hsafe
  have hcur : some b.number = p.curGen := by rw [hb, curGen_of_safe hmem h]
  have hdrop : a ∈ (iterDropUntil (fun g => some g.number = p.curGen) p.gens.reverse).drop 1 :=
    Profile.mem_drop_iterDropUntil.mpr ⟨b, hprecedes, decide_eq_true hcur⟩
  have hkept := (mem_names_deleteThose.mp hsafe.kept).2 rfl a hdrop rfl
  rw [ha] at hkept
  exact hkept rfl

theorem regular_of_safe (hmem : p.nameOf n ∈ p.names) (h : NeverDeletesCurrent p n)
    (hkeeps : KeepsExactly p n) : Regular p n := by
  have hlink := curGen_of_safe hmem h
  have hmonotone := monotone_of_safe h
  refine ⟨hlink, only_of_safe hmem h, hmonotone, fun hinc g hg g' hg' hlt => ?_,
    fun hinc g hg g' hg' hnamed hne hnumber => ?_⟩
  · -- an old generation with another name is never deleted
    by_contra hname
    have hkept := (mem_names_olderThan hmonotone hlink (g'.creationTime + 1) hg).mpr
      fun a _ _ _ _ heq => hname (by rw [heq, Profile.number_of_name hg heq])
    rcases (hkeeps hinc _ g hg).mp hkept with hge | ⟨-, hnewest⟩ | hcurrent
    · omega
    · have hle := hnewest g' hg' (by omega)
      omega
    · exact hname (by rw [hcurrent, Profile.number_of_name hg hcurrent])
  · have hgn : g.number ≠ n := by
      intro heq
      have hname : g.name = p.nameOf n := heq ▸ hnamed
      have hname' := only_of_safe hmem h g' hg' (hnumber.trans heq)
      exact hne (Profile.eq_of_name_eq hg' hg (hname'.trans hname.symm))
    -- at the time after it was created, the generation is the newest one, and has to be kept
    have hkept : g.name ∈ (deleteGenerationsOlderThan p (g.creationTime + 1) false).1.names :=
      (hkeeps hinc _ g hg).mpr (.inr (.inl ⟨by omega, fun x _ hx => by omega⟩))
    have hnone : ∀ a b, p.Precedes a b → b.creationTime < g.creationTime + 1 →
        a.number ≠ g.number := by
      intro a b hprecedes hold hsame
      refine (mem_names_olderThan hmonotone hlink _ hg).mp hkept a b hprecedes hold ?_ ?_
      · exact hsame ▸ hgn
      · exact hsame ▸ hnamed
    rcases Profile.precedes_or_precedes hg hg' hne.symm with hprecedes | hprecedes
    · refine ⟨hprecedes, ?_⟩
      by_contra hnot
      exact hnone g g' hprecedes (by omega) rfl
    · exact absurd hnumber (hnone g' g hprecedes (by omega))

/-- Clean-ups keep what they should exactly in regular directories. -/
theorem neverDeletesCurrent_iff (h : PointsTo p n) :
    NeverDeletesCurrent p n ∧ KeepsExactly p n ↔ Regular p n := by
  constructor
  · exact fun ⟨hnever, hkeeps⟩ => regular_of_safe h.mem hnever hkeeps
  · exact fun hregular =>
      ⟨neverDeletesCurrent_of_regular h.mem hregular, keepsExactly_of_regular hregular⟩

end Proofs

def oneGeneration (link : Bytes) : Profile where
  profileDir := str "/nix/var/nix/profiles"
  profileName := str "default"
  entries := [⟨str "default-1-link", 1⟩]
  nodup := List.nodup_singleton _
  link := some link

theorem pointsTo_oneGeneration :
    PointsTo (oneGeneration (str "default-1-link")) 1 ∧
      PointsTo (oneGeneration (str "/nix/var/nix/profiles/default-1-link")) 1 := by
  refine ⟨⟨⟨_, rfl, ?_⟩, ?_⟩, ⟨_, rfl, ?_⟩, ?_⟩ <;> decide

theorem neverDeletesCurrent_iff_oneGeneration :
    NeverDeletesCurrent (oneGeneration (str "default-1-link")) 1 ∧
        KeepsExactly (oneGeneration (str "default-1-link")) 1 ↔
      Regular (oneGeneration (str "default-1-link")) 1 :=
  neverDeletesCurrent_iff pointsTo_oneGeneration.1

/-- The absolute path of the generation is not understood. -/
theorem not_neverDeletesCurrent :
    ¬∀ p n, PointsTo p n → NeverDeletesCurrent p n ∧ KeepsExactly p n := by
  intro h
  obtain ⟨hnever, -⟩ := h _ _ pointsTo_oneGeneration.2
  have hkept := (hnever.deleteOldGenerations false).kept
  revert hkept
  decide

end Nix.Store.Profiles
