import Nix.Build.WorkerInvariants

/-!
No wake-up is lost as long as goals that are woken use a slot that others wait for, or leave
enough awake goals that can.
-/

set_option linter.dupNamespace false

namespace Nix.Build.Workers

open Lib.Graphs Lib.Transitions
open Relation

variable {γ : Type} [DecidableEq γ] {classes : GoalClasses γ} {settings : WorkerSettings}

namespace Worker

variable {run : Option γ} {away : Set γ} {owed owed' : Slot → Nat} {s s' : Worker γ} {g : γ}

/-! ### Waking goals and ending children -/

section Frames

variable {slot : Slot}

@[simp] theorem wakeWaiter_goals : (s.wakeWaiter classes slot).goals = s.goals := by
  rw [wakeWaiter]
  split <;> rfl

@[simp] theorem wakeWaiter_waitees : (s.wakeWaiter classes slot).waitees = s.waitees := by
  rw [wakeWaiter]
  split <;> rfl

@[simp] theorem childTerminated_goals : (s.childTerminated classes g).goals = s.goals := by
  rw [childTerminated]
  split
  next => rfl
  next => simp

@[simp] theorem childTerminated_waitees : (s.childTerminated classes g).waitees = s.waitees := by
  rw [childTerminated]
  split
  next => rfl
  next => simp

end Frames

/-! ### Running a goal -/

theorem Inv.act {a : Action γ} (h : s.Inv classes settings (some g) {g} owed)
    (hact : s.act classes settings g a = some s') :
    s'.Inv classes settings (some g) {g} owed ∧ ∀ p q, s'.Waits p q → s.Waits p q := by
  have hg : g ∈ s.goals := (h.placed.asleep g rfl).1
  cases a with
  | makeGoal goal =>
      rw [Worker.act] at hact
      split at hact
      next => cases hact
      next hgoal =>
        cases hact
        refine ⟨h.makeGoal hgoal, ?_⟩
        rintro p q ⟨hp, hq⟩
        change q ∈ update s.waitees goal [] p at hq
        rcases List.mem_cons.mp hp with rfl | hp
        · simp at hq
        · have hne : p ≠ goal := fun heq => hgoal (heq ▸ h.made.goals p hp)
          rw [update_of_ne hne] at hq
          exact ⟨hp, hq⟩
  | childStarted channels inBuildSlot =>
      rw [Worker.act] at hact
      split at hact
      next => cases hact
      next =>
        cases hact
        exact ⟨h.childStarted hg fun slot => Nat.le_add_right _ _, fun _ _ hw => hw⟩
  | childTerminated =>
      cases hact
      refine ⟨h.childTerminated (.inl rfl), ?_⟩
      rintro p q ⟨hp, hq⟩
      rw [childTerminated_goals] at hp
      rw [childTerminated_waitees] at hq
      exact ⟨hp, hq⟩

theorem Inv.acts {as : List (Action γ)} (h : s.Inv classes settings (some g) {g} owed)
    (hacts : s.acts classes settings g as = some s') :
    s'.Inv classes settings (some g) {g} owed ∧ ∀ p q, s'.Waits p q → s.Waits p q := by
  induction as generalizing s with
  | nil =>
      cases hacts
      exact ⟨h, fun _ _ hw => hw⟩
  | cons a as ih =>
      obtain ⟨t, hact, hacts⟩ := Option.bind_eq_some_iff.mp hacts
      obtain ⟨ht, hwaits⟩ := h.act hact
      obtain ⟨hs', hwaits'⟩ := ih ht hacts
      exact ⟨hs', fun p q hw => hwaits p q (hwaits' p q hw)⟩

theorem Inv.acts_of_started {as : List (Action γ)} {channels : Bool}
    (h : s.Inv classes settings (some g) {g} owed)
    (howed : ∀ slot, owed slot ≤ owed' slot + if slot = Worker.slot classes g then 1 else 0)
    (hstarted : .childStarted channels true ∈ as)
    (hacts : s.acts classes settings g as = some s') :
    s'.Inv classes settings (some g) {g} owed' := by
  induction as generalizing s with
  | nil => cases hstarted
  | cons a as ih =>
      obtain ⟨t, hact, hacts⟩ := Option.bind_eq_some_iff.mp hacts
      rcases List.mem_cons.mp hstarted with rfl | hstarted
      · rw [Worker.act] at hact
        split at hact
        next => cases hact
        next =>
          cases hact
          have ht : (s.childStarted classes g channels true).Inv classes settings (some g) {g}
              owed' := h.childStarted (h.placed.asleep g rfl).1 (by simpa using howed)
          exact (ht.acts hacts).1
      · exact ih (h.act hact).1 hstarted hacts

/-! ### Awake goals -/

variable (classes) in
/-- The number of other goals that are awake and may take a slot. -/
def others (s : Worker γ) (g : γ) (slot : Slot) : Nat :=
  (s.goals.filter (· ≠ g)).countP fun p => p ∈ s.awake ∧ Worker.slot classes p = slot

theorem ready_le_others {slot : Slot} (h : g ∉ s.awake ∨ slot ≠ Worker.slot classes g) :
    s.ready classes slot ≤ s.others classes g slot := by
  rw [ready, others, List.countP_filter]
  apply List.countP_mono_left
  intro p _ hp
  rw [decide_eq_true_eq] at hp
  have hne : p ≠ g := by
    rintro rfl
    exact h.elim (fun hasleep => hasleep hp.1) fun hslot => hslot hp.2.symm
  simp [hp, hne]

theorem countP_le_succ {l : List γ} {p : γ → Bool} (hl : l.Nodup) :
    l.countP p ≤ (l.filter (· ≠ g)).countP p + 1 := by
  induction l with
  | nil => simp
  | cons x l ih =>
      rw [List.nodup_cons] at hl
      by_cases hxg : x = g
      · subst hxg
        have hrest : (x :: l).filter (· ≠ x) = l := by
          rw [List.filter_cons_of_neg (by simp)]
          apply List.filter_eq_self.mpr
          intro y hy
          simp only [decide_eq_true_eq]
          exact fun heq => hl.1 (heq ▸ hy)
        rw [hrest, List.countP_cons]
        split <;> omega
      · rw [List.filter_cons_of_pos (by simpa using hxg), List.countP_cons, List.countP_cons]
        have hle := ih hl.2
        omega

variable (classes settings) in
/-- There are goals enough without this one for the slots that others wait for. -/
def Spares (s : Worker γ) (g : γ) : Prop :=
  (∃ w ∈ s.goals, w ≠ g ∧ w ∈ s.wanting (slot classes g)) →
    settings.jobs (slot classes g) ≤
      s.nrJobs (slot classes g) + s.others classes g (slot classes g)

theorem Inv.slots_others (h : s.Inv classes settings run away fun _ => 0)
    (howed : s.Spares classes settings g ∨ 1 ≤ owed (slot classes g)) (slot : Slot)
    (hwaits : ∃ w ∈ s.goals, w ≠ g ∧ w ∈ s.wanting slot) :
    settings.jobs slot ≤ s.nrJobs slot + s.others classes g slot + owed slot := by
  by_cases hslot : slot = Worker.slot classes g
  · subst hslot
    rcases howed with hspares | howed
    · exact (hspares hwaits).trans (Nat.le_add_right _ _)
    · obtain ⟨w, hw, -, hwanting⟩ := hwaits
      have hslots := h.balanced.slots _ ⟨w, hw, hwanting⟩
      have hle : s.ready classes (Worker.slot classes g) ≤
          s.others classes g (Worker.slot classes g) + 1 := countP_le_succ h.wired.nodup
      omega
  · obtain ⟨w, hw, -, hwanting⟩ := hwaits
    have hslots := h.balanced.slots _ ⟨w, hw, hwanting⟩
    have hle := ready_le_others (s := s) (.inr hslot)
    omega

theorem Inv.running (h : s.Inv classes settings none ∅ fun _ => 0) (hg : g ∈ s.goals)
    (hawake : g ∈ s.awake) (howed : s.Spares classes settings g ∨ 1 ≤ owed (slot classes g)) :
    ({ s with awake := s.awake.filter (· ≠ g) } : Worker γ).Inv classes settings (some g) {g}
      owed := by
  have hsub : ∀ p, p ∈ s.awake.filter (· ≠ g) → p ∈ s.awake := fun p hp =>
    (List.mem_filter.mp hp).1
  have hfree := h.placed.free g hg (.inl hawake)
  refine ⟨?_, ?_, ?_, ?_, ?_⟩
  · exact ⟨h.made.goals, fun p hp => h.made.awake p (hsub p hp), h.made.wanting, h.made.aWhile,
      h.made.completion, h.made.children⟩
  · exact ⟨h.wired.nodup, h.wired.top, h.wired.waitees, h.wired.acyclic⟩
  · exact ⟨h.suspended.wanting, h.suspended.aWhile, h.suspended.completion, h.suspended.await,
      fun p hp _ => h.suspended.childEvent p hp (by simp)⟩
  · refine ⟨h.placed.wantingNodup, fun p hp hplace => ?_, fun p hp => ?_, fun p hp hplace => ?_⟩
    · have hf : s.Free p := by
        rcases hplace with hplace | rfl
        · exact h.placed.free p hp (.inl (hsub p hplace))
        · exact hfree
      exact ⟨hf.wanting, hf.aWhile, hf.completion, hf.waitees⟩
    · rw [Set.mem_singleton_iff.mp hp]
      exact ⟨hg, by simp⟩
    · refine (h.placed.located p hp (Set.notMem_empty p)).imp_left fun hawake => ?_
      exact List.mem_filter.mpr ⟨hawake, by simpa using hplace⟩
  · refine ⟨h.balanced.counts, fun slot ⟨w, hw, hwanting⟩ => ?_⟩
    have hready : ({ s with awake := s.awake.filter (· ≠ g) } : Worker γ).ready classes slot =
        s.others classes g slot := by
      rw [ready, others, List.countP_filter]
      apply List.countP_congr
      intro p _
      simp [and_assoc, and_comm]
    rw [hready]
    refine h.slots_others howed slot ⟨w, hw, ?_, hwanting⟩
    rintro rfl
    exact hfree.wanting slot hwanting

theorem Inv.remove {top : List γ} (h : s.Inv classes settings run away owed)
    (hrun : ∀ p, run = some p → p = g) (haway : ∀ p ∈ away, p = g)
    (hparents : ∀ p ∈ s.goals, p ≠ g → g ∉ s.waitees p)
    (htop : ∀ p ∈ top, p ∈ s.goals ∧ p ≠ g)
    (hslots : ∀ slot, (∃ w ∈ s.goals, w ≠ g ∧ w ∈ s.wanting slot) →
      settings.jobs slot ≤ s.nrJobs slot + s.others classes g slot) :
    ({ s with goals := s.goals.filter (· ≠ g), topGoals := top } : Worker γ).Inv classes settings
      none ∅ fun _ => 0 := by
  have hmem : ∀ p, p ∈ s.goals.filter (· ≠ g) → p ∈ s.goals ∧ p ≠ g := fun p hp => by
    simpa using hp
  refine ⟨?_, ?_, ?_, ?_, ?_⟩
  · exact ⟨fun p hp => h.made.goals p (hmem p hp).1, h.made.awake, h.made.wanting, h.made.aWhile,
      h.made.completion, h.made.children⟩
  · refine ⟨h.wired.nodup.filter _, fun p hp => by simpa using htop p hp, fun p hp q hq => ?_,
      h.wired.acyclic.mono fun p q hw => ⟨(hmem p hw.1).1, hw.2⟩⟩
    obtain ⟨hp, hne⟩ := hmem p hp
    have hq' := h.wired.waitees p hp q hq
    have hqne : q ≠ g := fun heq => hparents p hp hne (heq ▸ hq)
    simpa using ⟨hq', hqne⟩
  · refine ⟨fun p hp => h.suspended.wanting p (hmem p hp).1,
      fun p hp => h.suspended.aWhile p (hmem p hp).1,
      fun p hp => h.suspended.completion p (hmem p hp).1,
      fun p hp => h.suspended.await p (hmem p hp).1, fun p hp _ => ?_⟩
    exact h.suspended.childEvent p (hmem p hp).1 fun heq => (hmem p hp).2 (hrun p heq)
  · refine ⟨h.placed.wantingNodup, fun p hp hplace => ?_, fun p hp => hp.elim, fun p hp _ => ?_⟩
    · have hf := h.placed.free p (hmem p hp).1 (.inl (hplace.resolve_right fun hno => hno.elim))
      exact ⟨hf.wanting, hf.aWhile, hf.completion, hf.waitees⟩
    · exact h.placed.located p (hmem p hp).1 fun hin => (hmem p hp).2 (haway p hin)
  · refine ⟨h.balanced.counts, fun slot ⟨w, hw, hwanting⟩ => ?_⟩
    exact hslots slot ⟨w, (hmem w hw).1, (hmem w hw).2, hwanting⟩

/-! ### How goals stop -/

variable (classes) in
/-- What a goal owes that has been woken and has not taken a slot. -/
def debt (g : γ) (slot : Slot) : Nat :=
  if slot = Worker.slot classes g then 1 else 0

theorem Inv.yield (h : s.Inv classes settings (some g) {g} (debt classes g))
    (hchild : ¬∃ c ∈ s.children, c.goal = g) :
    (({ s with suspension := update s.suspension g .yield } : Worker γ).wakeUp classes g).Inv
      classes settings none ∅ fun _ => 0 := by
  obtain ⟨hg, hasleep⟩ := h.placed.asleep g rfl
  have hfree := h.placed.free g hg (.inr rfl)
  have hwake : (s.wakeUp classes g).Inv classes settings (some g) ({g} \ {g}) fun _ => 0 := by
    refine h.wakeUp hg hfree (fun slot hslot => ?_) ?_
    · rw [debt, if_neg hslot]
    · rw [debt, if_pos rfl, if_neg hasleep]
  have hset : ({g} \ {g} : Set γ) = ∅ := by
    ext p
    simp
  rw [hset] at hwake
  have hsuspension : ∀ p, p ≠ g → update s.suspension g .yield p = s.suspension p :=
    fun p hp => update_of_ne hp
  refine ⟨⟨hwake.made.goals, hwake.made.awake, hwake.made.wanting, hwake.made.aWhile,
    hwake.made.completion, hwake.made.children⟩, ⟨hwake.wired.nodup, hwake.wired.top,
    hwake.wired.waitees, hwake.wired.acyclic⟩, ⟨?_, ?_, ?_, ?_, ?_⟩, ⟨hwake.placed.wantingNodup,
    ?_, hwake.placed.asleep, hwake.placed.located⟩, ⟨hwake.balanced.counts, hwake.balanced.slots⟩⟩
  · intro p hp slot hw
    have hne : p ≠ g := fun heq => hfree.wanting slot (heq ▸ hw)
    obtain ⟨hsusp, hslot⟩ := h.suspended.wanting p hp slot hw
    exact ⟨(hsuspension p hne).trans hsusp, hslot⟩
  · intro p hp hw
    have hne : p ≠ g := fun heq => hfree.aWhile (heq ▸ hw)
    exact (hsuspension p hne).trans (h.suspended.aWhile p hp hw)
  · intro p hp hw
    have hne : p ≠ g := fun heq => hfree.completion (heq ▸ hw)
    exact (hsuspension p hne).trans (h.suspended.completion p hp hw)
  · intro p hp hw
    have hne : p ≠ g := fun heq => hw (heq ▸ hfree.waitees)
    exact (hsuspension p hne).trans (h.suspended.await p hp hw)
  · intro p hp _ c hc hcp hchannels
    have hne : p ≠ g := fun heq => hchild ⟨c, hc, hcp.trans heq⟩
    refine (hsuspension p hne).trans (h.suspended.childEvent p hp ?_ c hc hcp hchannels)
    exact fun hrun => hne (Option.some.inj hrun).symm
  · intro p hp hplace
    have hf := hwake.placed.free p hp hplace
    exact ⟨hf.wanting, hf.aWhile, hf.completion, hf.waitees⟩

theorem jobs_le_slots (slot : Slot) : settings.slots slot ≤ settings.jobs slot := by
  cases slot with
  | build => exact Nat.le_refl _
  | substitution => exact Nat.le_max_right _ _

theorem Inv.waitForBuildSlot (h : s.Inv classes settings (some g) {g} (debt classes g))
    (hfull : settings.jobs (slot classes g) ≤ s.nrJobs (slot classes g))
    (hchild : ¬∃ c ∈ s.children, c.goal = g) :
    (({ s with suspension := update s.suspension g .waitForBuildSlot } :
      Worker γ).waitForBuildSlot classes settings g).Inv classes settings none ∅ fun _ => 0 := by
  obtain ⟨hg, hasleep⟩ := h.placed.asleep g rfl
  have hfree := h.placed.free g hg (.inr rfl)
  have hnot : ¬s.nrJobs (slot classes g) < settings.slots (slot classes g) := fun hlt =>
    Nat.lt_irrefl _ (Nat.lt_of_lt_of_le hlt ((jobs_le_slots _).trans hfull))
  have hmem : ∀ p slot, p ∈ update s.wanting (Worker.slot classes g)
      (addToWeakGoals classes (s.wanting (Worker.slot classes g)) g) slot ↔
        (p = g ∧ slot = Worker.slot classes g) ∨ p ∈ s.wanting slot := by
    intro p slot
    by_cases heq : slot = Worker.slot classes g
    · subst heq
      simp [mem_addToWeakGoals]
    · simp [update_of_ne heq, heq]
  rw [Worker.waitForBuildSlot, if_neg hnot]
  refine h.park rfl rfl rfl rfl rfl rfl (fun _ _ => rfl) (fun p hp => update_of_ne hp)
    (fun p hp slot => ?_) (fun _ _ => Iff.rfl) (fun _ _ => Iff.rfl) (fun slot => ?_) ?_
    (fun slot hw => ?_) ⟨fun hw => absurd hw hfree.aWhile, fun hw => absurd hw hfree.completion,
      fun hw => absurd hfree.waitees hw, fun c hc hcg => absurd ⟨c, hc, hcg⟩ hchild⟩ ?_ ?_
    (fun slot hw => ?_) (fun slot => ?_)
  · exact (hmem p slot).trans ⟨fun hw => hw.resolve_left fun hno => hp hno.1, .inr⟩
  · change (update s.wanting _ _ slot).Nodup
    by_cases heq : slot = Worker.slot classes g
    · subst heq
      rw [update_self]
      exact nodup_addToWeakGoals (h.placed.wantingNodup _) g
    · rw [update_of_ne heq]
      exact h.placed.wantingNodup slot
  · exact .inr (.inl ((hmem g _).mpr (.inl ⟨rfl, rfl⟩)))
  · rcases (hmem g slot).mp hw with ⟨-, hslot⟩ | hw
    · exact ⟨update_self _ _ _, hslot⟩
    · exact absurd hw (hfree.wanting slot)
  · exact fun q hq => h.wired.waitees g hg q hq
  · exact h.wired.acyclic
  · rcases (hmem g slot).mp hw with ⟨-, rfl⟩ | hw
    · exact hfull
    · exact absurd hw (hfree.wanting slot)
  · by_cases hslot : slot = Worker.slot classes g
    · exact .inr (hslot ▸ hfull)
    · exact .inl (Nat.le_of_eq (if_neg hslot))

theorem Inv.await {ws : List γ} (h : s.Inv classes settings (some g) {g} fun _ => 0)
    (hws : ws ≠ []) (hgoals : ∀ w ∈ ws, w ∈ s.goals) (hchild : ¬∃ c ∈ s.children, c.goal = g)
    (hback : ∀ w ∈ ws, ¬ReflTransGen s.Waits w g) :
    ({ s with waitees := update s.waitees g ws, suspension := update s.suspension g .await } :
      Worker γ).Inv classes settings none ∅ fun _ => 0 := by
  obtain ⟨hg, hasleep⟩ := h.placed.asleep g rfl
  have hfree := h.placed.free g hg (.inr rfl)
  refine h.park rfl rfl rfl rfl rfl rfl (fun p hp => update_of_ne hp)
    (fun p hp => update_of_ne hp) (fun _ _ _ => Iff.rfl) (fun _ _ => Iff.rfl)
    (fun _ _ => Iff.rfl) h.placed.wantingNodup (.inl (by simpa using hws))
    (fun slot hw => absurd hw (hfree.wanting slot)) ⟨fun hw => absurd hw hfree.aWhile,
      fun hw => absurd hw hfree.completion, fun _ => update_self _ _ _,
      fun c hc hcg => absurd ⟨c, hc, hcg⟩ hchild⟩ (fun q hq => hgoals q (by simpa using hq)) ?_
    (fun slot hw => absurd hw (hfree.wanting slot)) (fun _ => .inl (Nat.le_refl _))
  -- New edges lead from the goal to its waitees.
  have hedges : ∀ p q, (p ∈ s.goals ∧ q ∈ update s.waitees g ws p) →
      s.Waits p q ∨ (p = g ∧ q ∈ ws) := by
    rintro p q ⟨hp, hq⟩
    by_cases heq : p = g
    · subst heq
      exact .inr ⟨rfl, by simpa using hq⟩
    · rw [update_of_ne heq] at hq
      exact .inl ⟨hp, hq⟩
  refine Acyclic.mono (acyclic_or h.wired.acyclic ?_) hedges
  rintro m n ⟨rfl, hn⟩ hpath
  refine hback n hn ?_
  clear hn
  -- Up to where it first meets the goal, the path uses old edges only.
  induction hpath using ReflTransGen.head_induction_on with
  | refl => exact .refl
  | head hpq _ ih =>
      rcases hpq with hold | ⟨rfl, -⟩
      · exact ih.head hold
      · exact .refl

theorem Inv.waitForAWhile (h : s.Inv classes settings (some g) {g} fun _ => 0)
    (hchild : ¬∃ c ∈ s.children, c.goal = g) :
    ({ s with
      suspension := update s.suspension g .waitForAWhile
      waitingForAWhile := addToWeakGoals classes s.waitingForAWhile g } : Worker γ).Inv
        classes settings none ∅ fun _ => 0 := by
  have hg := (h.placed.asleep g rfl).1
  have hfree := h.placed.free g hg (.inr rfl)
  refine h.park rfl rfl rfl rfl rfl rfl (fun _ _ => rfl) (fun p hp => update_of_ne hp)
    (fun _ _ _ => Iff.rfl) (fun p hp => mem_addToWeakGoals.trans ⟨fun hw => hw.resolve_left hp, .inr⟩)
    (fun _ _ => Iff.rfl) h.placed.wantingNodup (.inr (.inr (.inl (mem_addToWeakGoals.mpr (.inl rfl)))))
    (fun slot hw => absurd hw (hfree.wanting slot)) ⟨fun _ => update_self _ _ _,
      fun hw => absurd hw hfree.completion, fun hw => absurd hfree.waitees hw,
      fun c hc hcg => absurd ⟨c, hc, hcg⟩ hchild⟩ (h.wired.waitees g hg) h.wired.acyclic
    (fun slot hw => absurd hw (hfree.wanting slot)) (fun _ => .inl (Nat.le_refl _))

theorem Inv.waitUntilWoken (h : s.Inv classes settings (some g) {g} fun _ => 0)
    (hchild : ¬∃ c ∈ s.children, c.goal = g ∧ c.channels) :
    ({ s with
      suspension := update s.suspension g .waitUntilWoken
      waitingForCompletion := addToWeakGoals classes s.waitingForCompletion g } : Worker γ).Inv
        classes settings none ∅ fun _ => 0 := by
  have hg := (h.placed.asleep g rfl).1
  have hfree := h.placed.free g hg (.inr rfl)
  refine h.park rfl rfl rfl rfl rfl rfl (fun _ _ => rfl) (fun p hp => update_of_ne hp)
    (fun _ _ _ => Iff.rfl) (fun _ _ => Iff.rfl)
    (fun p hp => mem_addToWeakGoals.trans ⟨fun hw => hw.resolve_left hp, .inr⟩)
    h.placed.wantingNodup (.inr (.inr (.inr (.inl (mem_addToWeakGoals.mpr (.inl rfl))))))
    (fun slot hw => absurd hw (hfree.wanting slot)) ⟨fun hw => absurd hw hfree.aWhile,
      fun _ => update_self _ _ _, fun hw => absurd hfree.waitees hw,
      fun c hc hcg hchannels => absurd ⟨c, hc, hcg, hchannels⟩ hchild⟩
    (h.wired.waitees g hg) h.wired.acyclic
    (fun slot hw => absurd hw (hfree.wanting slot)) (fun _ => .inl (Nat.le_refl _))

theorem Inv.waitForChildEvent (h : s.Inv classes settings (some g) {g} fun _ => 0)
    (hchild : ∃ c ∈ s.children, c.goal = g ∧ c.channels) :
    ({ s with suspension := update s.suspension g .childEvent } : Worker γ).Inv
        classes settings none ∅ fun _ => 0 := by
  have hg := (h.placed.asleep g rfl).1
  have hfree := h.placed.free g hg (.inr rfl)
  obtain ⟨c, hc, hcg, -⟩ := hchild
  refine h.park rfl rfl rfl rfl rfl rfl (fun _ _ => rfl) (fun p hp => update_of_ne hp)
    (fun _ _ _ => Iff.rfl) (fun _ _ => Iff.rfl) (fun _ _ => Iff.rfl) h.placed.wantingNodup
    (.inr (.inr (.inr (.inr ⟨c, hc, hcg⟩))))
    (fun slot hw => absurd hw (hfree.wanting slot)) ⟨fun hw => absurd hw hfree.aWhile,
      fun hw => absurd hw hfree.completion, fun hw => absurd hfree.waitees hw,
      fun _ _ _ _ => update_self _ _ _⟩ (h.wired.waitees g hg) h.wired.acyclic
    (fun slot hw => absurd hw (hfree.wanting slot)) (fun _ => .inl (Nat.le_refl _))

variable (classes) in
theorem foldl_wakeUp (ps : List γ) (s : Worker γ) :
    (ps.foldl (fun s p => s.wakeUp classes p) s).goals = s.goals ∧
      (ps.foldl (fun s p => s.wakeUp classes p) s).waitees = s.waitees ∧
      (ps.foldl (fun s p => s.wakeUp classes p) s).topGoals = s.topGoals := by
  induction ps generalizing s with
  | nil => exact ⟨rfl, rfl, rfl⟩
  | cons p ps ih => exact ih (s.wakeUp classes p)

theorem mem_wokenBy {p : γ} {result : ExitCode} : p ∈ s.wokenBy settings g result ↔
    p ∈ s.goals ∧ g ∈ s.waitees p ∧ waiteesAfter settings (s.waitees p) g result = [] := by
  simp [wokenBy]

theorem waiteesAfter_ne_nil {waitees : List γ} {result : ExitCode} (hg : g ∉ waitees) :
    waiteesAfter settings waitees g result = waitees :=
  if_pos hg

theorem Inv.clearWaitees (h : s.Inv classes settings (some g) {g} fun _ => 0)
    (result : ExitCode) :
    ({ s with waitees := fun p => waiteesAfter settings (s.waitees p) g result } :
      Worker γ).Inv classes settings (some g) ({g} ∪ {p | p ∈ s.wokenBy settings g result})
        fun _ => 0 := by
  have hwaits : ∀ p ∈ s.goals, waiteesAfter settings (s.waitees p) g result ≠ [] →
      s.waitees p ≠ [] := by
    intro p _ hne hnil
    rw [hnil] at hne
    exact hne (waiteesAfter_ne_nil List.not_mem_nil)
  have hnil : ∀ p, s.waitees p = [] → waiteesAfter settings (s.waitees p) g result = [] := by
    intro p hp
    rw [hp]
    exact waiteesAfter_ne_nil List.not_mem_nil
  refine ⟨?_, ?_, ?_, ?_, ?_⟩
  · exact ⟨h.made.goals, h.made.awake, h.made.wanting, h.made.aWhile, h.made.completion,
      h.made.children⟩
  · refine ⟨h.wired.nodup, h.wired.top, fun p hp q hq => ?_, h.wired.acyclic.mono fun p q hw => ?_⟩
    · exact h.wired.waitees p hp q (mem_of_mem_waiteesAfter hq).1
    · exact ⟨hw.1, (mem_of_mem_waiteesAfter hw.2).1⟩
  · exact ⟨h.suspended.wanting, h.suspended.aWhile, h.suspended.completion,
      fun p hp hw => h.suspended.await p hp (hwaits p hp hw), h.suspended.childEvent⟩
  · refine ⟨h.placed.wantingNodup, fun p hp hplace => ?_, fun p hp => ?_, fun p hp hplace => ?_⟩
    · rcases hplace with hawake | rfl | hwoken
      · have hf := h.placed.free p hp (.inl hawake)
        exact ⟨hf.wanting, hf.aWhile, hf.completion, hnil p hf.waitees⟩
      · have hf := h.placed.free p hp (.inr rfl)
        exact ⟨hf.wanting, hf.aWhile, hf.completion, hnil p hf.waitees⟩
      · obtain ⟨-, hmem, hafter⟩ := mem_wokenBy.mp hwoken
        have hsusp := h.suspended.await p hp (List.ne_nil_of_mem hmem)
        refine ⟨fun slot hw => ?_, fun hw => ?_, fun hw => ?_, hafter⟩
        · simp [(h.suspended.wanting p hp slot hw).1] at hsusp
        · simp [h.suspended.aWhile p hp hw] at hsusp
        · simp [h.suspended.completion p hp hw] at hsusp
    · rcases hp with rfl | hwoken
      · exact h.placed.asleep p rfl
      · obtain ⟨hp, hmem, -⟩ := mem_wokenBy.mp hwoken
        refine ⟨hp, fun hawake => ?_⟩
        rw [(h.placed.free p hp (.inl hawake)).waitees] at hmem
        cases hmem
    · rcases h.placed.located p hp fun hin => hplace (.inl hin) with hawake | hw | hw
      · exact .inl hawake
      · refine .inr (.inl fun hafter => ?_)
        by_cases hmem : g ∈ s.waitees p
        · exact hplace (.inr (mem_wokenBy.mpr ⟨hp, hmem, hafter⟩))
        · exact hw ((waiteesAfter_ne_nil hmem).symm.trans hafter)
      · exact .inr (.inr hw)
  · exact ⟨h.balanced.counts, h.balanced.slots⟩

theorem Inv.amDone (h : s.Inv classes settings (some g) {g} fun _ => 0) (result : ExitCode) :
    (s.amDone classes settings g result).Inv classes settings none ∅ fun _ => 0 := by
  have hg := (h.placed.asleep g rfl).1
  have hfree := h.placed.free g hg (.inr rfl)
  have hclear := h.clearWaitees result
  have hwoken : g ∉ s.wokenBy settings g result := by
    intro hmem
    have hself := (mem_wokenBy.mp hmem).2.1
    rw [hfree.waitees] at hself
    cases hself
  have hwake := hclear.wakeUps (fun p (hp : p ∈ s.wokenBy settings g result) =>
    (mem_wokenBy.mp hp).1)
    fun p hp => hclear.placed.free p (mem_wokenBy.mp hp).1 (.inr (.inr hp))
  have hset : ({g} ∪ {p | p ∈ s.wokenBy settings g result}) \
      {p | p ∈ s.wokenBy settings g result} = {g} := by
    ext p
    simp only [Set.mem_sdiff, Set.mem_union, Set.mem_singleton_iff, Set.mem_ofPred_eq]
    refine ⟨fun ⟨hp, hout⟩ => hp.resolve_right hout, ?_⟩
    rintro rfl
    exact ⟨.inl rfl, hwoken⟩
  rw [hset] at hwake
  rw [Worker.amDone]
  generalize hwoke : (s.wokenBy settings g result).foldl (fun s p => s.wakeUp classes p)
    { s with waitees := fun p => waiteesAfter settings (s.waitees p) g result } = t at hwake ⊢
  obtain ⟨hgoals, hwaitees, htop⟩ := foldl_wakeUp classes (s.wokenBy settings g result)
    { s with waitees := fun p => waiteesAfter settings (s.waitees p) g result }
  rw [hwoke] at hgoals hwaitees htop
  have hasleep := (hwake.placed.asleep g rfl).2
  have hremove : (t.removeGoal settings g result).Inv classes settings none ∅ fun _ => 0 := by
    refine hwake.remove (fun p hp => (Option.some.inj hp).symm) (fun p hp => hp)
      (fun p hp _ hmem => ?_) (fun p hp => ?_) (fun slot ⟨w, hw, _, hwanting⟩ => ?_)
    · rw [hwaitees] at hmem
      exact (mem_of_mem_waiteesAfter hmem).2 rfl
    · split at hp
      next =>
        split at hp
        next => cases hp
        next =>
          obtain ⟨hp, hne⟩ := List.mem_filter.mp hp
          exact ⟨hwake.wired.top p hp, by simpa using hne⟩
      next hout =>
        exact ⟨hwake.wired.top p hp, fun heq => hout (heq ▸ hp)⟩
    · have hslots := hwake.balanced.slots slot ⟨w, hw, hwanting⟩
      exact hslots.trans (Nat.add_le_add_left (ready_le_others (.inl hasleep)) _)
  refine hremove.childTerminated (.inr ?_)
  simp [removeGoal]

theorem Inv.stop {stop : Stop γ} (h : s.Inv classes settings (some g) {g} (debt classes g))
    (hpaid : s.Inv classes settings (some g) {g} (fun _ => 0) ∨ stop = .yield ∨
      stop = .waitForBuildSlot)
    (hback : ∀ ws, stop = .await ws → ∀ w ∈ ws, ¬ReflTransGen s.Waits w g)
    (hstop : s.stop classes settings g stop = some s') :
    s'.Inv classes settings none ∅ fun _ => 0 := by
  cases stop with
  | await ws =>
      have hzero := hpaid.resolve_right (by simp)
      rw [Worker.stop] at hstop
      split at hstop
      next => cases hstop
      next hguard =>
        cases hstop
        push Not at hguard
        obtain ⟨hne, hgoals, hchild⟩ := hguard
        refine hzero.await hne hgoals ?_ (hback ws rfl)
        rintro ⟨c, hc, hcg⟩
        exact hchild c hc hcg
  | yield =>
      rw [Worker.stop] at hstop
      split at hstop
      next => cases hstop
      next hchild =>
        cases hstop
        exact h.yield hchild
  | waitForAWhile =>
      have hzero := hpaid.resolve_right (by simp)
      rw [Worker.stop] at hstop
      split at hstop
      next => cases hstop
      next hchild =>
        cases hstop
        exact hzero.waitForAWhile hchild
  | waitForBuildSlot =>
      rw [Worker.stop] at hstop
      split at hstop
      next => cases hstop
      next hguard =>
        cases hstop
        push Not at hguard
        obtain ⟨hfull, hchild⟩ := hguard
        refine h.waitForBuildSlot hfull ?_
        rintro ⟨c, hc, hcg⟩
        exact hchild c hc hcg
  | waitUntilWoken =>
      have hzero := hpaid.resolve_right (by simp)
      rw [Worker.stop] at hstop
      split at hstop
      next => cases hstop
      next hchild =>
        cases hstop
        exact hzero.waitUntilWoken hchild
  | waitForChildEvent =>
      have hzero := hpaid.resolve_right (by simp)
      rw [Worker.stop] at hstop
      split at hstop
      next hchild =>
        cases hstop
        exact hzero.waitForChildEvent hchild
      next => cases hstop
  | done result =>
      have hzero := hpaid.resolve_right (by simp)
      cases hstop
      exact hzero.amDone result

/-! ### Wake-ups from outside -/

theorem Inv.unpark {aWhile completion : List γ} (h : s.Inv classes settings none ∅ owed)
    (haWhile : ∀ p ∈ aWhile, p ∈ s.waitingForAWhile)
    (hcompletion : ∀ p ∈ completion, p ∈ s.waitingForCompletion) :
    ({ s with waitingForAWhile := aWhile, waitingForCompletion := completion } : Worker γ).Inv
      classes settings none {p | p ∈ s.goals ∧ ((p ∈ s.waitingForAWhile ∧ p ∉ aWhile) ∨
        (p ∈ s.waitingForCompletion ∧ p ∉ completion))} owed := by
  refine ⟨?_, ?_, ?_, ?_, ?_⟩
  · exact ⟨h.made.goals, h.made.awake, h.made.wanting, fun p hp => h.made.aWhile p (haWhile p hp),
      fun p hp => h.made.completion p (hcompletion p hp), h.made.children⟩
  · exact ⟨h.wired.nodup, h.wired.top, h.wired.waitees, h.wired.acyclic⟩
  · exact ⟨h.suspended.wanting, fun p hp hw => h.suspended.aWhile p hp (haWhile p hw),
      fun p hp hw => h.suspended.completion p hp (hcompletion p hw), h.suspended.await,
      h.suspended.childEvent⟩
  · refine ⟨h.placed.wantingNodup, fun p hp hplace => ?_, fun p hp => ⟨hp.1, fun hawake => ?_⟩,
      fun p hp hplace => ?_⟩
    · rcases hplace with hawake | ⟨-, ⟨hw, hout⟩ | ⟨hw, hout⟩⟩
      · have hf := h.placed.free p hp (.inl hawake)
        exact ⟨hf.wanting, fun hw => hf.aWhile (haWhile p hw),
          fun hw => hf.completion (hcompletion p hw), hf.waitees⟩
      · have hsusp := h.suspended.aWhile p hp hw
        refine ⟨fun slot hw => ?_, hout, fun hw => ?_, ?_⟩
        · simp [(h.suspended.wanting p hp slot hw).1] at hsusp
        · simp [h.suspended.completion p hp (hcompletion p hw)] at hsusp
        · by_contra hne
          simp [h.suspended.await p hp hne] at hsusp
      · have hsusp := h.suspended.completion p hp hw
        refine ⟨fun slot hw => ?_, fun hw => ?_, hout, ?_⟩
        · simp [(h.suspended.wanting p hp slot hw).1] at hsusp
        · simp [h.suspended.aWhile p hp (haWhile p hw)] at hsusp
        · by_contra hne
          simp [h.suspended.await p hp hne] at hsusp
    · have hf := h.placed.free p hp.1 (.inl hawake)
      rcases hp.2 with ⟨hw, -⟩ | ⟨hw, -⟩
      · exact hf.aWhile hw
      · exact hf.completion hw
    · rcases h.placed.located p hp (Set.notMem_empty p) with hawake | hw | hw | hw | hw | hw
      · exact .inl hawake
      · exact .inr (.inl hw)
      · exact .inr (.inr (.inl hw))
      · refine .inr (.inr (.inr (.inl ?_)))
        by_contra hout
        exact hplace ⟨hp, .inl ⟨hw, hout⟩⟩
      · refine .inr (.inr (.inr (.inr (.inl ?_))))
        by_contra hout
        exact hplace ⟨hp, .inr ⟨hw, hout⟩⟩
      · exact .inr (.inr (.inr (.inr (.inr hw))))
  · exact ⟨h.balanced.counts, h.balanced.slots⟩

theorem foldl_wakeUp_aWhile {ps aWhile : List γ} :
    { ps.foldl (fun s p => s.wakeUp classes p) s with waitingForAWhile := aWhile } =
      ps.foldl (fun s p => s.wakeUp classes p) { s with waitingForAWhile := aWhile } := by
  induction ps generalizing s with
  | nil => rfl
  | cons p ps ih => exact ih (s := s.wakeUp classes p)

theorem Inv.completed (h : s.Inv classes settings none ∅ fun _ => 0) (hg : g ∈ s.goals)
    (hcompletion : g ∈ s.waitingForCompletion) :
    (({ s with waitingForCompletion := s.waitingForCompletion.filter (· ≠ g) } :
      Worker γ).wakeUp classes g).Inv classes settings none ∅ fun _ => 0 := by
  have hleft := h.unpark (fun p hp => hp)
    fun p (hp : p ∈ s.waitingForCompletion.filter (· ≠ g)) => (List.mem_filter.mp hp).1
  have hset : {p | p ∈ s.goals ∧ ((p ∈ s.waitingForAWhile ∧ p ∉ s.waitingForAWhile) ∨
      (p ∈ s.waitingForCompletion ∧ p ∉ s.waitingForCompletion.filter (· ≠ g)))} = {g} := by
    ext p
    simp only [Set.mem_ofPred_eq, Set.mem_singleton_iff, and_not_self_iff, false_or,
      List.mem_filter, decide_eq_true_eq, not_and, not_not]
    refine ⟨fun ⟨_, hw, hout⟩ => hout hw, ?_⟩
    rintro rfl
    exact ⟨hg, hcompletion, fun _ => rfl⟩
  rw [hset] at hleft
  have hwake := hleft.wakeUp_of_le hg (hleft.placed.free g hg (.inr rfl))
  have hempty : ({g} \ {g} : Set γ) = ∅ := by
    ext p
    simp
  rwa [hempty] at hwake

theorem Inv.poll (h : s.Inv classes settings none ∅ fun _ => 0) :
    ({ (s.waitingForAWhile.filter (· ∈ s.goals)).foldl (fun s p => s.wakeUp classes p) s with
      waitingForAWhile := [] } : Worker γ).Inv classes settings none ∅ fun _ => 0 := by
  have hleft := h.unpark (fun p (hp : p ∈ []) => absurd hp List.not_mem_nil) fun p hp => hp
  have hset : {p | p ∈ s.goals ∧ ((p ∈ s.waitingForAWhile ∧ p ∉ []) ∨
      (p ∈ s.waitingForCompletion ∧ p ∉ s.waitingForCompletion))} =
        {p | p ∈ s.waitingForAWhile.filter (· ∈ s.goals)} := by
    ext p
    simp [and_comm]
  rw [hset] at hleft
  have hwake := hleft.wakeUps
    (fun p (hp : p ∈ s.waitingForAWhile.filter (· ∈ s.goals)) => by
      simpa using (List.mem_filter.mp hp).2)
    fun p hp => hleft.placed.free p (by simpa using (List.mem_filter.mp hp).2) (.inr hp)
  have hempty : ∀ A : Set γ, A \ A = ∅ := by
    intro A
    ext p
    simp
  rw [hempty] at hwake
  rw [foldl_wakeUp_aWhile]
  exact hwake

end Worker

/-! ### Runs -/

variable (classes settings) in
/-- A goal that runs takes a slot, or is going to look for one, or there are goals enough without
it; and it waits for no goal that waits for it. A goal that is destroyed leaves goals enough. -/
def KeepsWakeUps (s : Worker γ) : Event γ → Prop
  | .work goal actions stop =>
      (s.Spares classes settings goal ∨ (∃ channels, .childStarted channels true ∈ actions) ∨
        stop = .yield ∨ stop = .waitForBuildSlot) ∧
      ∀ waitees, stop = .await waitees → ∀ w ∈ waitees, ¬ReflTransGen s.Waits w goal
  | .destroy goal => s.Spares classes settings goal
  | _ => True

theorem Worker.Inv.step {s s' : Worker γ} {e : Event γ}
    (h : s.Inv classes settings none ∅ fun _ => 0) (hok : KeepsWakeUps classes settings s e)
    (hstep : step classes settings s e = some s') :
    s'.Inv classes settings none ∅ fun _ => 0 := by
  cases e with
  | work goal actions stop =>
      rw [Workers.step] at hstep
      split at hstep
      next hguard =>
        obtain ⟨-, hg, hawake, -⟩ := hguard
        obtain ⟨t, hacts, hstop⟩ := Option.bind_eq_some_iff.mp hstep
        obtain ⟨hpaid, hback⟩ := hok
        have hdebt : ({ s with awake := s.awake.filter (· ≠ goal) } : Worker γ).Inv classes
            settings (some goal) {goal} (Worker.debt classes goal) :=
          h.running hg hawake (.inr (Nat.le_of_eq (if_pos rfl).symm))
        obtain ⟨ht, hwaits⟩ := hdebt.acts hacts
        refine ht.stop ?_ (fun ws hws w hw hpath => ?_) hstop
        · rcases hpaid with hspares | ⟨channels, hstarted⟩ | hother
          · have hzero : ({ s with awake := s.awake.filter (· ≠ goal) } : Worker γ).Inv classes
                settings (some goal) {goal} fun _ => 0 := h.running hg hawake (.inl hspares)
            exact .inl (hzero.acts hacts).1
          · refine .inl (hdebt.acts_of_started (fun slot => ?_) hstarted hacts)
            rw [Worker.debt]
            exact Nat.le_add_left _ _
          · exact .inr hother
        · exact hback ws hws w hw (ReflTransGen.mono (fun p q hpq => hwaits p q hpq) _ _ hpath)
      next => cases hstep
  | childEvent goal =>
      rw [Workers.step] at hstep
      split at hstep
      next hguard =>
        cases hstep
        obtain ⟨hg, c, hc, hcg, hchannels⟩ := hguard
        have hsusp := h.suspended.childEvent goal hg (by simp) c hc hcg hchannels
        have hfree := h.suspended.free_of_suspension hg (by simp [hsusp]) (by simp [hsusp])
          (by simp [hsusp]) (by simp [hsusp])
        have hwake := h.wakeUp_of_le hg hfree
        have hempty : (∅ \ {goal} : Set γ) = ∅ := by
          ext p
          simp
        rwa [hempty] at hwake
      next => cases hstep
  | completed goal =>
      rw [Workers.step] at hstep
      split at hstep
      next hguard =>
        cases hstep
        exact h.completed hguard.1 hguard.2
      next => cases hstep
  | poll =>
      cases hstep
      exact h.poll
  | destroy goal =>
      rw [Workers.step] at hstep
      split at hstep
      next hguard =>
        cases hstep
        obtain ⟨-, htop, hparents⟩ := hguard
        have hslots : ∀ slot, (∃ w ∈ s.goals, w ≠ goal ∧ w ∈ s.wanting slot) →
            settings.jobs slot ≤ s.nrJobs slot + s.others classes goal slot + 0 :=
          h.slots_others (.inl hok)
        have hremove := h.remove (by simp) (by simp) (fun p hp _ => hparents p hp)
          (fun p hp => ⟨h.wired.top p hp, fun heq => htop (heq ▸ hp)⟩) hslots
        refine hremove.childTerminated (.inr ?_)
        simp
      next => cases hstep

theorem Worker.Inv.start {top : List γ} (htop : top.Nodup) :
    (start top).Inv classes settings none ∅ fun _ => 0 where
  made := ⟨fun g hg => hg, fun g hg => hg, fun _ _ hg => (nomatch hg), fun _ hg => (nomatch hg),
    fun _ hg => (nomatch hg), fun _ hc => (nomatch hc)⟩
  wired := by
    refine ⟨htop, fun g hg => hg, fun _ _ _ hq => (nomatch hq), fun g hcycle => ?_⟩
    cases hcycle with
    | single hw => exact nomatch hw.2
    | tail _ hw => exact nomatch hw.2
  suspended := ⟨fun _ _ _ hw => (nomatch hw), fun _ _ hw => (nomatch hw), fun _ _ hw => (nomatch hw),
    fun _ _ hne => absurd rfl hne, fun _ _ _ _ hc => (nomatch hc)⟩
  placed := by
    refine ⟨fun slot => List.nodup_nil, fun g _ _ => ?_, fun g hg => hg.elim,
      fun g hg _ => .inl hg⟩
    exact ⟨fun _ hw => (nomatch hw), fun hw => (nomatch hw), fun hw => (nomatch hw), rfl⟩
  balanced := ⟨fun slot => rfl, fun _ ⟨_, _, hw⟩ => (nomatch hw)⟩

theorem Worker.Inv.noLostWakeUp {s : Worker γ} (h : s.Inv classes settings none ∅ fun _ => 0)
    (hjobs : 1 ≤ settings.maxBuildJobs) : NoLostWakeUp settings s := by
  intro htop hasleep
  have hready : ∀ slot, s.ready classes slot = 0 := by
    intro slot
    rw [Worker.ready, List.countP_eq_zero]
    intro g hg hready
    exact hasleep g hg (by simpa using (of_decide_eq_true hready).1)
  have hslots : ∀ slot, (∃ g ∈ s.goals, g ∈ s.wanting slot) →
      settings.jobs slot ≤ s.nrJobs slot := by
    intro slot hwaits
    have hle := h.balanced.slots slot hwaits
    rwa [hready] at hle
  refine ⟨?_, hslots⟩
  obtain ⟨rank, -, hrank⟩ := exists_rank_of_acyclic (a := s.topGoals.head htop)
    (fun p q (hw : s.Waits p q) => h.wired.waitees p hw.1 q hw.2) fun g _ => h.wired.acyclic g
  -- Descend from a top-level goal to one that waits for no goal.
  have hdescend : ∀ n g, rank g = n → g ∈ s.goals →
      ReflTransGen s.Waits (s.topGoals.head htop) g →
        ∃ g ∈ s.goals, s.waitees g = [] := by
    intro n
    induction n using Nat.strong_induction_on with
    | h n ih =>
        intro g hn hg hpath
        cases hw : s.waitees g with
        | nil => exact ⟨g, hg, hw⟩
        | cons q qs =>
            have hwait : s.Waits g q := ⟨hg, by simp [hw]⟩
            exact ih (rank q) (hn ▸ hrank g q hpath hwait) q rfl
              (h.wired.waitees g hg q hwait.2) (hpath.tail hwait)
  obtain ⟨g, hg, hnil⟩ := hdescend _ (s.topGoals.head htop) rfl
    (h.wired.top _ (List.head_mem htop)) .refl
  have hchildren : ∀ slot, 0 < s.nrJobs slot → s.children ≠ [] := by
    intro slot hpos hempty
    rw [h.balanced.counts, hempty] at hpos
    exact Nat.lt_irrefl 0 hpos
  have hpos : ∀ slot, 0 < settings.jobs slot := by
    intro slot
    cases slot with
    | build => exact hjobs
    | substitution => exact Nat.lt_of_lt_of_le Nat.zero_lt_one (Nat.le_max_left _ _)
  rcases h.placed.located g hg (Set.notMem_empty g) with hawake | hw | hw | hw | hw | ⟨c, hc, -⟩
  · exact absurd hawake (hasleep g hg)
  · exact absurd hnil hw
  · exact .inl (hchildren _ (Nat.lt_of_lt_of_le (hpos _) (hslots _ ⟨g, hg, hw⟩)))
  · exact .inr (.inl ⟨g, hg, hw⟩)
  · exact .inr (.inr ⟨g, hg, hw⟩)
  · exact .inl (List.ne_nil_of_mem hc)

theorem noLostWakeUp_of_keepsWakeUps {top : List γ} (htop : top.Nodup)
    (hjobs : 1 ≤ settings.maxBuildJobs) {s : Worker γ}
    (h : Reaches (step classes settings) (KeepsWakeUps classes settings) (start top) s) :
    NoLostWakeUp settings s := by
  have hinv := h.invariant (Worker.Inv.start htop) fun _ _ _ hi hok hstep => hi.step hok hstep
  exact hinv.noLostWakeUp hjobs

/-! ### A lost wake-up -/

def sampleClasses : GoalClasses Nat := ⟨fun _ => .build, id⟩

def sampleSettings : WorkerSettings := ⟨1, 16, false⟩

/-- Two goals want the only slot, and the one that gets it is waited for. -/
theorem noLostWakeUp_of_keepsWakeUps_sample : ∃ s : Worker Nat,
    s.children ≠ [] ∧ s.wanting .build = [1] ∧ NoLostWakeUp sampleSettings s := by
  have hchild : ∀ s, KeepsWakeUps sampleClasses sampleSettings s
      (.work 0 [.childStarted true true] .waitForChildEvent) :=
    fun _ => ⟨.inr (.inl ⟨true, .head _⟩), fun _ h => nomatch h⟩
  have hwait : ∀ s, KeepsWakeUps sampleClasses sampleSettings s (.work 1 [] .waitForBuildSlot) :=
    fun _ => ⟨.inr (.inr (.inr rfl)), fun _ h => nomatch h⟩
  have hstart : Reaches (step sampleClasses sampleSettings)
      (KeepsWakeUps sampleClasses sampleSettings) (start [0, 1]) (start [0, 1]) := .start
  have hfirst := hstart.next (hchild _) rfl
  have hsecond := hfirst.next (hwait _) rfl
  exact ⟨_, by decide, by decide, noLostWakeUp_of_keepsWakeUps (by decide) (by decide) hsecond⟩

/-- The goal that is woken when a child ends finds that it is done already, and the other one that
waits for the slot is never woken. -/
def strandedRun : List (Event Nat) :=
  [.work 0 [.childStarted true true] .waitForChildEvent, .work 1 [] .waitForBuildSlot,
    .work 2 [] .waitForBuildSlot, .childEvent 0, .work 0 [.childTerminated] (.done .success),
    .work 1 [] (.done .success)]

theorem not_noLostWakeUp_stranded : ¬∀ (classes : GoalClasses Nat) (settings : WorkerSettings)
    (top : List Nat), top.Nodup → 1 ≤ settings.maxBuildJobs →
      ∀ s, Reaches (step classes settings) (fun _ _ => True) (start top) s →
        NoLostWakeUp settings s := by
  intro h
  obtain ⟨s, hrun, htop, hasleep, hidle⟩ : ∃ s, exec (step sampleClasses sampleSettings)
      (fun _ _ => True) (start [0, 1, 2]) strandedRun = some s ∧ s.topGoals ≠ [] ∧
        (∀ g ∈ s.goals, g ∉ s.awake) ∧ s.children = [] ∧ s.waitingForAWhile = [] ∧
          s.waitingForCompletion = [] :=
    ⟨_, rfl, by decide⟩
  have hreach := Reaches.start.exec hrun
  obtain ⟨hchildren, haWhile, hcompletion⟩ := hidle
  have hlost := (h sampleClasses sampleSettings [0, 1, 2] (by decide) (by decide) s hreach htop
    hasleep).1
  rw [hchildren, haWhile, hcompletion] at hlost
  simp at hlost

end Nix.Build.Workers
