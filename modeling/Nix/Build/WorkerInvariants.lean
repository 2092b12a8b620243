import Mathlib.Data.List.Nodup
import Mathlib.Data.List.TakeWhile
import Mathlib.Data.Set.Insert
import Nix.Build.Workers

/-!
What the state of a worker has to do with the goals that are not done.
-/

set_option linter.dupNamespace false

namespace Nix.Build.Workers

open Lib.Graphs
open Relation

variable {γ : Type} [DecidableEq γ] {classes : GoalClasses γ} {settings : WorkerSettings}

theorem mem_addToWeakGoals {goals : List γ} {p g : γ} :
    g ∈ addToWeakGoals classes goals p ↔ g = p ∨ g ∈ goals := by
  rw [addToWeakGoals]
  split
  next hp =>
    refine ⟨.inr, ?_⟩
    rintro (rfl | h)
    · exact hp
    · exact h
  next =>
    have hsplit : g ∈ goals ↔ g ∈ goals.takeWhile (classes.order · < classes.order p) ∨
        g ∈ goals.dropWhile (classes.order · < classes.order p) := by
      rw [← List.mem_append, List.takeWhile_append_dropWhile]
    rw [List.mem_append, List.mem_cons, hsplit]
    tauto

theorem nodup_addToWeakGoals {goals : List γ} (h : goals.Nodup) (p : γ) :
    (addToWeakGoals classes goals p).Nodup := by
  rw [addToWeakGoals]
  split
  next => exact h
  next hp =>
    rw [List.nodup_middle, List.takeWhile_append_dropWhile, List.nodup_cons]
    exact ⟨hp, h⟩

@[simp] theorem update_self {β : Type} (f : γ → β) (g : γ) (b : β) : update f g b g = b :=
  if_pos rfl

theorem update_of_ne {β : Type} {f : γ → β} {g g' : γ} {b : β} (h : g' ≠ g) :
    update f g b g' = f g' :=
  if_neg h

theorem mem_of_mem_waiteesAfter {waitees : List γ} {g g' : γ} {result : ExitCode}
    (h : g' ∈ Worker.waiteesAfter settings waitees g result) : g' ∈ waitees ∧ g' ≠ g := by
  rw [Worker.waiteesAfter] at h
  split at h
  next hg => exact ⟨h, fun heq => hg (heq ▸ h)⟩
  next =>
    dsimp only at h
    split at h
    next => simp at h
    next => simpa using h

namespace Worker

/-- A goal that nothing is going to wake. -/
structure Free (s : Worker γ) (g : γ) : Prop where
  wanting : ∀ slot, g ∉ s.wanting slot
  aWhile : g ∉ s.waitingForAWhile
  completion : g ∉ s.waitingForCompletion
  waitees : s.waitees g = []

variable (classes) in
def Parked (s : Worker γ) (g : γ) : Prop :=
  s.waitees g ≠ [] ∨ g ∈ s.wanting (slot classes g) ∨ g ∈ s.waitingForAWhile ∨
    g ∈ s.waitingForCompletion ∨ ∃ c ∈ s.children, c.goal = g

variable (classes) in
/-- The number of goals that are awake and may take a slot. -/
def ready (s : Worker γ) (slot : Slot) : Nat :=
  s.goals.countP fun g => g ∈ s.awake ∧ Worker.slot classes g = slot

def Waits (s : Worker γ) (p q : γ) : Prop :=
  p ∈ s.goals ∧ q ∈ s.waitees p

/-- The names that have been used. -/
structure Made (s : Worker γ) : Prop where
  goals : ∀ g ∈ s.goals, g ∈ s.made
  awake : ∀ g ∈ s.awake, g ∈ s.made
  wanting : ∀ slot, ∀ g ∈ s.wanting slot, g ∈ s.made
  aWhile : ∀ g ∈ s.waitingForAWhile, g ∈ s.made
  completion : ∀ g ∈ s.waitingForCompletion, g ∈ s.made
  children : ∀ c ∈ s.children, c.goal ∈ s.made

/-- The goals and what they wait for. -/
structure Wired (s : Worker γ) : Prop where
  nodup : s.goals.Nodup
  top : ∀ g ∈ s.topGoals, g ∈ s.goals
  waitees : ∀ p ∈ s.goals, ∀ q ∈ s.waitees p, q ∈ s.goals
  acyclic : Acyclic s.Waits

/-- What the goals in the sets were suspended for. The goal that runs may still have to leave
its child. -/
structure Suspended (classes : GoalClasses γ) (run : Option γ) (s : Worker γ) : Prop where
  wanting : ∀ g ∈ s.goals, ∀ slot, g ∈ s.wanting slot →
    s.suspension g = .waitForBuildSlot ∧ slot = Worker.slot classes g
  aWhile : ∀ g ∈ s.goals, g ∈ s.waitingForAWhile → s.suspension g = .waitForAWhile
  completion : ∀ g ∈ s.goals, g ∈ s.waitingForCompletion → s.suspension g = .waitUntilWoken
  await : ∀ g ∈ s.goals, s.waitees g ≠ [] → s.suspension g = .await
  childEvent : ∀ g ∈ s.goals, run ≠ some g → ∀ c ∈ s.children, c.goal = g → c.channels →
    s.suspension g = .childEvent

/-- Where the goals are, but for some of them. -/
structure Placed (classes : GoalClasses γ) (away : Set γ) (s : Worker γ) : Prop where
  wantingNodup : ∀ slot, (s.wanting slot).Nodup
  free : ∀ g ∈ s.goals, g ∈ s.awake ∨ g ∈ away → s.Free g
  asleep : ∀ g ∈ away, g ∈ s.goals ∧ g ∉ s.awake
  located : ∀ g ∈ s.goals, g ∉ away → g ∈ s.awake ∨ s.Parked classes g

/-- The jobs, and the slots that are taken or going to be taken, but for those that are owed. -/
structure Balanced (classes : GoalClasses γ) (settings : WorkerSettings) (owed : Slot → Nat)
    (s : Worker γ) : Prop where
  counts : ∀ slot, s.nrJobs slot =
    s.children.countP fun c => c.inBuildSlot ∧ Worker.slot classes c.goal = slot
  slots : ∀ slot, (∃ g ∈ s.goals, g ∈ s.wanting slot) →
    settings.jobs slot ≤ s.nrJobs slot + s.ready classes slot + owed slot

structure Inv (classes : GoalClasses γ) (settings : WorkerSettings) (run : Option γ)
    (away : Set γ) (owed : Slot → Nat) (s : Worker γ) : Prop where
  made : s.Made
  wired : s.Wired
  suspended : s.Suspended classes run
  placed : s.Placed classes away
  balanced : s.Balanced classes settings owed

variable {run : Option γ} {away : Set γ} {owed owed' : Slot → Nat} {s : Worker γ} {g : γ}

@[simp] theorem wakeUp_goals : (s.wakeUp classes g).goals = s.goals := rfl

theorem mem_awake_wakeUp {g' : γ} :
    g' ∈ (s.wakeUp classes g).awake ↔ g' = g ∨ g' ∈ s.awake :=
  mem_addToWeakGoals

omit [DecidableEq γ] in
theorem Suspended.free_of_suspension (h : s.Suspended classes run) (hg : g ∈ s.goals)
    (hwanting : s.suspension g ≠ .waitForBuildSlot) (haWhile : s.suspension g ≠ .waitForAWhile)
    (hcompletion : s.suspension g ≠ .waitUntilWoken) (hawait : s.suspension g ≠ .await) :
    s.Free g where
  wanting slot hmem := hwanting (h.wanting g hg slot hmem).1
  aWhile hmem := haWhile (h.aWhile g hg hmem)
  completion hmem := hcompletion (h.completion g hg hmem)
  waitees := by
    by_contra hne
    exact hawait (h.await g hg hne)

omit [DecidableEq γ] in
theorem countP_succ_le {l : List γ} {p q : γ → Bool} {w : γ} (hw : w ∈ l) (hp : p w = false)
    (hq : q w = true) (h : ∀ x ∈ l, p x → q x) : l.countP p + 1 ≤ l.countP q := by
  induction l with
  | nil => simp at hw
  | cons x l ih =>
      rw [List.countP_cons, List.countP_cons]
      have hrest : ∀ y ∈ l, p y → q y := fun y hy => h y (List.mem_cons_of_mem _ hy)
      rcases List.mem_cons.mp hw with rfl | hw
      · have hle := List.countP_mono_left hrest
        rw [hp, hq]
        simpa using hle
      · have hlt := ih hw hrest
        have hx := h x List.mem_cons_self
        cases hpx : p x with
        | false =>
            simp only [Bool.false_eq_true, if_false]
            exact Nat.le_trans hlt (Nat.le_add_right _ _)
        | true =>
            rw [hx hpx]
            simp only [if_true]
            exact Nat.succ_le_succ hlt

theorem ready_le {s' : Worker γ} {slot : Slot} (hgoals : s'.goals = s.goals)
    (h : ∀ g ∈ s.goals, g ∈ s.awake → g ∈ s'.awake) :
    s.ready classes slot ≤ s'.ready classes slot := by
  rw [ready, ready, hgoals]
  apply List.countP_mono_left
  intro g hg hready
  rw [decide_eq_true_eq] at hready ⊢
  exact ⟨h g hg hready.1, hready.2⟩

variable (classes) in
theorem ready_wakeUp (hg : g ∈ s.goals) (hasleep : g ∉ s.awake) :
    s.ready classes (slot classes g) + 1 ≤
      (s.wakeUp classes g).ready classes (slot classes g) := by
  apply countP_succ_le hg
  · simp [hasleep]
  · simp [mem_awake_wakeUp]
  · intro g' _ hready
    rw [decide_eq_true_eq] at hready ⊢
    exact ⟨mem_awake_wakeUp.mpr (.inr hready.1), hready.2⟩

theorem Inv.wakeUp (h : s.Inv classes settings run away owed) (hg : g ∈ s.goals)
    (hfree : s.Free g) (hother : ∀ slot, slot ≠ Worker.slot classes g → owed slot ≤ owed' slot)
    (howed : owed (slot classes g) ≤ owed' (slot classes g) + if g ∈ s.awake then 0 else 1) :
    (s.wakeUp classes g).Inv classes settings run (away \ {g}) owed' where
  made := by
    refine ⟨h.made.goals, fun g' hg' => ?_, h.made.wanting, h.made.aWhile, h.made.completion,
      h.made.children⟩
    rcases mem_awake_wakeUp.mp hg' with rfl | hg'
    · exact h.made.goals g' hg
    · exact h.made.awake g' hg'
  wired := ⟨h.wired.nodup, h.wired.top, h.wired.waitees, h.wired.acyclic⟩
  suspended := ⟨h.suspended.wanting, h.suspended.aWhile, h.suspended.completion,
    h.suspended.await, h.suspended.childEvent⟩
  placed := by
    refine ⟨h.placed.wantingNodup, fun g' hg' hplace => ?_, fun g' hg' => ?_,
      fun g' hg' hplace => ?_⟩
    · have hf : s.Free g' := by
        rcases hplace with hawake | haway
        · rcases mem_awake_wakeUp.mp hawake with rfl | hawake
          · exact hfree
          · exact h.placed.free g' hg' (.inl hawake)
        · exact h.placed.free g' hg' (.inr haway.1)
      exact ⟨hf.wanting, hf.aWhile, hf.completion, hf.waitees⟩
    · obtain ⟨hgoal, hasleep⟩ := h.placed.asleep g' hg'.1
      refine ⟨hgoal, fun hawake => ?_⟩
      rcases mem_awake_wakeUp.mp hawake with heq | hawake
      · exact hg'.2 heq
      · exact hasleep hawake
    · by_cases heq : g' = g
      · exact .inl (mem_awake_wakeUp.mpr (.inl heq))
      · rcases h.placed.located g' hg' fun haway => hplace ⟨haway, heq⟩ with hawake | hparked
        · exact .inl (mem_awake_wakeUp.mpr (.inr hawake))
        · exact .inr hparked
  balanced := by
    refine ⟨h.balanced.counts, fun slot hwaits => ?_⟩
    have hslots := h.balanced.slots slot hwaits
    have hready : s.ready classes slot ≤ (s.wakeUp classes g).ready classes slot :=
      ready_le rfl fun g' _ hawake => mem_awake_wakeUp.mpr (.inr hawake)
    change settings.jobs slot ≤ s.nrJobs slot + (s.wakeUp classes g).ready classes slot +
      owed' slot
    by_cases hslot : slot = Worker.slot classes g
    · subst hslot
      split at howed
      next => omega
      next hasleep =>
        have hlt := ready_wakeUp classes hg hasleep
        omega
    · have hle := hother slot hslot
      omega

theorem Inv.wakeUp_of_le (h : s.Inv classes settings run away owed) (hg : g ∈ s.goals)
    (hfree : s.Free g) : (s.wakeUp classes g).Inv classes settings run (away \ {g}) owed :=
  h.wakeUp hg hfree (fun _ _ => Nat.le_refl _) (Nat.le_add_right _ _)

theorem Free.of_wakeUp {g' : γ} (h : s.Free g') : (s.wakeUp classes g).Free g' :=
  ⟨h.wanting, h.aWhile, h.completion, h.waitees⟩

theorem Inv.wakeUps {ps : List γ} (h : s.Inv classes settings run away owed)
    (hgoals : ∀ p ∈ ps, p ∈ s.goals) (hfree : ∀ p ∈ ps, s.Free p) :
    (ps.foldl (fun s p => s.wakeUp classes p) s).Inv classes settings run
      (away \ {p | p ∈ ps}) owed := by
  induction ps generalizing s away with
  | nil =>
      have hset : (away \ {p | p ∈ []} : Set γ) = away := by
        ext q
        simp
      rwa [hset]
  | cons p ps ih =>
      have hp := h.wakeUp_of_le (hgoals p List.mem_cons_self) (hfree p List.mem_cons_self)
      have hrest := ih hp (fun q hq => hgoals q (List.mem_cons_of_mem _ hq))
        fun q hq => (hfree q (List.mem_cons_of_mem _ hq)).of_wakeUp
      have hset : (away \ {p}) \ {q | q ∈ ps} = away \ {q | q ∈ p :: ps} := by
        ext q
        simp [and_assoc]
      rwa [hset] at hrest

theorem Inv.settle (h : s.Inv classes settings run away owed)
    (howed : ∀ slot, (∃ g ∈ s.goals, g ∈ s.wanting slot) → owed slot ≤ owed' slot) :
    s.Inv classes settings run away owed' where
  made := h.made
  wired := h.wired
  suspended := h.suspended
  placed := h.placed
  balanced := by
    refine ⟨h.balanced.counts, fun slot hwaits => ?_⟩
    exact (h.balanced.slots slot hwaits).trans (Nat.add_le_add_left (howed slot hwaits) _)

theorem Inv.leave {slot : Slot} {rest : List γ} (h : s.Inv classes settings run away owed)
    (hrest : rest.Sublist (s.wanting slot)) :
    ({ s with wanting := update s.wanting slot rest } : Worker γ).Inv classes settings run
      (away ∪ {g | g ∈ s.goals ∧ g ∈ s.wanting slot ∧ g ∉ rest}) owed := by
  have hsub : ∀ slot' g, g ∈ update s.wanting slot rest slot' → g ∈ s.wanting slot' := by
    intro slot' g hg
    by_cases heq : slot' = slot
    · subst heq
      rw [update_self] at hg
      exact hrest.subset hg
    · rwa [update_of_ne heq] at hg
  refine ⟨?_, ?_, ?_, ?_, ?_⟩
  · exact ⟨h.made.goals, h.made.awake, fun slot' g hg => h.made.wanting slot' g (hsub slot' g hg),
      h.made.aWhile, h.made.completion, h.made.children⟩
  · exact ⟨h.wired.nodup, h.wired.top, h.wired.waitees, h.wired.acyclic⟩
  · exact ⟨fun g hg slot' hw => h.suspended.wanting g hg slot' (hsub slot' g hw),
      h.suspended.aWhile, h.suspended.completion, h.suspended.await, h.suspended.childEvent⟩
  · refine ⟨fun slot' => ?_, fun g hg hplace => ?_, fun g hg => ?_, fun g hg hplace => ?_⟩
    · change (update s.wanting slot rest slot').Nodup
      by_cases heq : slot' = slot
      · subst heq
        rw [update_self]
        exact (h.placed.wantingNodup slot').sublist hrest
      · rw [update_of_ne heq]
        exact h.placed.wantingNodup slot'
    · rcases hplace with hawake | haway | ⟨-, hwanting, hout⟩
      · have hf := h.placed.free g hg (.inl hawake)
        exact ⟨fun slot' hw => hf.wanting slot' (hsub slot' g hw), hf.aWhile, hf.completion,
          hf.waitees⟩
      · have hf := h.placed.free g hg (.inr haway)
        exact ⟨fun slot' hw => hf.wanting slot' (hsub slot' g hw), hf.aWhile, hf.completion,
          hf.waitees⟩
      · obtain ⟨hsusp, hslot⟩ := h.suspended.wanting g hg slot hwanting
        refine ⟨fun slot' hw => ?_, fun hw => ?_, fun hw => ?_, ?_⟩
        · have hslot' := (h.suspended.wanting g hg slot' (hsub slot' g hw)).2
          rw [hslot', ← hslot] at hw
          exact hout (by simpa using hw)
        · simp [h.suspended.aWhile g hg hw] at hsusp
        · simp [h.suspended.completion g hg hw] at hsusp
        · by_contra hne
          simp [h.suspended.await g hg hne] at hsusp
    · rcases hg with haway | ⟨hgoal, hwanting, -⟩
      · exact h.placed.asleep g haway
      · exact ⟨hgoal, fun hawake =>
          (h.placed.free g hgoal (.inl hawake)).wanting slot hwanting⟩
    · rcases h.placed.located g hg fun haway => hplace (.inl haway) with hawake | hparked
      · exact .inl hawake
      · refine .inr ?_
        rcases hparked with hw | hw | hw
        · exact .inl hw
        · refine .inr (.inl ?_)
          change g ∈ update s.wanting slot rest (Worker.slot classes g)
          by_cases heq : Worker.slot classes g = slot
          · rw [heq, update_self]
            by_contra hout
            exact hplace (.inr ⟨hg, heq ▸ hw, hout⟩)
          · rw [update_of_ne heq]
            exact hw
        · exact .inr (.inr hw)
  · refine ⟨h.balanced.counts, fun slot' hwaits => h.balanced.slots slot' ?_⟩
    obtain ⟨g, hg, hw⟩ := hwaits
    exact ⟨g, hg, hsub slot' g hw⟩

theorem Inv.wakeWaiter {slot : Slot} (h : s.Inv classes settings run away owed)
    (hother : ∀ slot', slot' ≠ slot → owed slot' ≤ owed' slot')
    (howed : owed slot ≤ owed' slot + 1) :
    (s.wakeWaiter classes slot).Inv classes settings run away owed' := by
  unfold Worker.wakeWaiter
  have hsplit := List.takeWhile_append_dropWhile (p := fun g => decide (g ∉ s.goals))
    (l := s.wanting slot)
  have hdead : ∀ g ∈ (s.wanting slot).takeWhile fun g => decide (g ∉ s.goals), g ∉ s.goals :=
    fun g hg => by simpa using List.mem_takeWhile_imp hg
  generalize hdrop : (s.wanting slot).dropWhile (fun g => decide (g ∉ s.goals)) = live at hsplit ⊢
  cases live with
  | nil =>
      have hnone : ∀ g ∈ s.goals, g ∉ s.wanting slot := by
        intro g hg hw
        rw [← hsplit, List.append_nil] at hw
        exact hdead g hw hg
      have hleave := h.leave (List.nil_sublist (s.wanting slot))
      have hset : away ∪ {g | g ∈ s.goals ∧ g ∈ s.wanting slot ∧ g ∉ []} = away := by
        ext g
        simpa using fun hg hw => absurd hw (hnone g hg)
      rw [hset] at hleave
      refine hleave.settle fun slot' hwaits => ?_
      by_cases heq : slot' = slot
      · obtain ⟨g, -, hw⟩ := hwaits
        subst heq
        simp at hw
      · exact hother slot' heq
  | cons goal rest =>
      have hnodup := h.placed.wantingNodup slot
      rw [← hsplit] at hnodup
      have hgoal : goal ∈ s.goals := by
        have hhead := List.head?_dropWhile_not (fun g => decide (g ∉ s.goals)) (s.wanting slot)
        rw [hdrop] at hhead
        simpa using hhead
      have hwanting : goal ∈ s.wanting slot := by
        rw [← hsplit]
        simp
      have hslot := (h.suspended.wanting goal hgoal slot hwanting).2
      have hsub : rest.Sublist (s.wanting slot) := by
        rw [← hsplit]
        exact (List.sublist_cons_self _ _).trans (List.sublist_append_right _ _)
      have hleave := h.leave hsub
      have hset : away ∪ {g | g ∈ s.goals ∧ g ∈ s.wanting slot ∧ g ∉ rest} = away ∪ {goal} := by
        ext g
        simp only [Set.mem_union, Set.mem_ofPred_eq, Set.mem_singleton_iff]
        refine or_congr_right ⟨fun ⟨hg, hw, hout⟩ => ?_, ?_⟩
        · rw [← hsplit, List.mem_append, List.mem_cons] at hw
          rcases hw with hw | rfl | hw
          · exact absurd hg (hdead g hw)
          · rfl
          · exact absurd hw hout
        · rintro rfl
          exact ⟨hgoal, hwanting, (List.nodup_cons.mp hnodup.of_append_right).1⟩
      rw [hset] at hleave
      have hasleep : goal ∉ s.awake := (hleave.placed.asleep goal (.inr rfl)).2
      have hwake : (Worker.wakeUp classes ({ s with
          wanting := update s.wanting slot rest } : Worker γ) goal).Inv classes settings run
            ((away ∪ {goal}) \ {goal}) owed' := by
        refine hleave.wakeUp hgoal (hleave.placed.free goal hgoal (.inr (.inr rfl)))
          (hslot ▸ hother) ?_
        rw [← hslot, if_neg hasleep]
        exact howed
      have haway : (away ∪ {goal}) \ {goal} = away := by
        ext g
        simp only [Set.mem_sdiff, Set.mem_union, Set.mem_singleton_iff]
        refine ⟨fun ⟨hg, hne⟩ => hg.resolve_right hne, fun hg => ⟨.inl hg, ?_⟩⟩
        rintro rfl
        exact (h.placed.free g hgoal (.inr hg)).wanting slot hwanting
      rwa [haway] at hwake

theorem countP_eraseP {α : Type} {l : List α} {p q : α → Bool} {a : α}
    (h : l.find? p = some a) : l.countP q = (l.eraseP p).countP q + if q a then 1 else 0 := by
  induction l with
  | nil => simp at h
  | cons x l ih =>
      rw [List.find?_cons] at h
      split at h
      next hx =>
        cases h
        rw [List.eraseP_cons_of_pos hx, List.countP_cons]
      next hx =>
        rw [List.eraseP_cons_of_neg (by simp [hx]), List.countP_cons, List.countP_cons, ih h]
        omega

omit [DecidableEq γ] in
theorem Placed.withChildren (h : s.Placed classes away) (children : List (Child γ))
    (nrJobs : Slot → Nat)
    (hsub : ∀ c ∈ s.children, c.goal ∈ s.goals → c.goal ∉ away → c ∈ children) :
    ({ s with children, nrJobs } : Worker γ).Placed classes away where
  wantingNodup := h.wantingNodup
  free g hg hplace :=
    have hfree := h.free g hg hplace
    ⟨hfree.wanting, hfree.aWhile, hfree.completion, hfree.waitees⟩
  asleep := h.asleep
  located g hg hplace := by
    rcases h.located g hg hplace with hawake | hw | hw | hw | hw | ⟨c, hc, rfl⟩
    · exact .inl hawake
    · exact .inr (.inl hw)
    · exact .inr (.inr (.inl hw))
    · exact .inr (.inr (.inr (.inl hw)))
    · exact .inr (.inr (.inr (.inr (.inl hw))))
    · exact .inr (.inr (.inr (.inr (.inr ⟨c, hsub c hc hg hplace, rfl⟩))))

theorem Inv.childTerminated (h : s.Inv classes settings run away owed)
    (hg : g ∈ away ∨ g ∉ s.goals) :
    (s.childTerminated classes g).Inv classes settings run away owed := by
  unfold Worker.childTerminated
  split
  next => exact h
  next child hfind =>
    have hgoal : child.goal = g := by simpa using List.find?_some hfind
    have hcount := fun slot => countP_eraseP (q := fun c =>
      decide (c.inBuildSlot = true ∧ Worker.slot classes c.goal = slot)) hfind
    simp only [hgoal] at hcount
    have hne : ∀ c ∈ s.children, c.goal ≠ g → c ∈ s.children.eraseP (·.goal = g) :=
      fun c hc hne => (List.mem_eraseP_of_neg (by simpa using hne)).mpr hc
    let freed : Slot → Nat := fun slot => owed slot +
      if slot = Worker.slot classes g then 1 else 0
    refine Inv.wakeWaiter (?_ : Inv classes settings run away freed _) ?_ ?_
    refine ⟨?_, ?_, ?_, ?_, ?_⟩
    · exact ⟨h.made.goals, h.made.awake, h.made.wanting, h.made.aWhile, h.made.completion,
        fun c hc => h.made.children c (List.mem_of_mem_eraseP hc)⟩
    · exact ⟨h.wired.nodup, h.wired.top, h.wired.waitees, h.wired.acyclic⟩
    · exact ⟨h.suspended.wanting, h.suspended.aWhile, h.suspended.completion, h.suspended.await,
        fun g' hg' hrun c hc => h.suspended.childEvent g' hg' hrun c (List.mem_of_mem_eraseP hc)⟩
    · refine h.placed.withChildren _ _ fun c hc hgoals haway => hne c hc ?_
      rintro rfl
      rcases hg with hg | hg
      · exact haway hg
      · exact hg hgoals
    · have hnr : ∀ slot, (if child.inBuildSlot then
          update s.nrJobs (Worker.slot classes g) (s.nrJobs (Worker.slot classes g) - 1)
          else s.nrJobs) slot = (s.children.eraseP (·.goal = g)).countP fun c =>
            decide (c.inBuildSlot = true ∧ Worker.slot classes c.goal = slot) := by
        intro slot
        have hc := hcount slot
        rw [← h.balanced.counts slot] at hc
        split
        next hin =>
          by_cases hslot : slot = Worker.slot classes g
          · subst hslot
            rw [update_self, hc]
            simp [hin]
          · rw [update_of_ne hslot, hc]
            simp [Ne.symm hslot]
        next hin =>
          rw [hc]
          simp [hin]
      refine ⟨hnr, fun slot hwaits => ?_⟩
      have hslots := h.balanced.slots slot hwaits
      have hc := hcount slot
      rw [← h.balanced.counts slot, ← hnr slot] at hc
      have hle : (if decide (child.inBuildSlot = true ∧ Worker.slot classes g = slot) = true
          then 1 else 0) ≤ if slot = Worker.slot classes g then 1 else 0 := by
        by_cases hslot : slot = Worker.slot classes g
        · rw [if_pos hslot]
          split <;> decide
        · simp [Ne.symm hslot]
      rw [hc] at hslots
      have hmove : ∀ jobs nr freed ready owed owed' : Nat, jobs ≤ nr + freed + ready + owed →
          freed ≤ owed' → jobs ≤ nr + ready + (owed + owed') := by
        omega
      exact hmove _ _ _ _ _ _ hslots hle
    · intro slot hslot
      simp [freed, hslot]
    · simp [freed]

theorem Inv.makeGoal {goal : γ} (h : s.Inv classes settings run away owed)
    (hgoal : goal ∉ s.made) :
    (s.makeGoal classes goal).Inv classes settings run away owed := by
  have hold : ∀ g ∈ s.goals, g ≠ goal := fun g hg heq => hgoal (heq ▸ h.made.goals g hg)
  have haway : goal ∉ away := fun hg => hgoal (h.made.goals goal (h.placed.asleep goal hg).1)
  have hwaitees : ∀ g ∈ s.goals, update s.waitees goal [] g = s.waitees g :=
    fun g hg => update_of_ne (hold g hg)
  have hsuspension : ∀ g ∈ s.goals, update s.suspension goal .started g = s.suspension g :=
    fun g hg => update_of_ne (hold g hg)
  let made : Worker γ := { s with
    goals := goal :: s.goals
    made := goal :: s.made
    waitees := update s.waitees goal []
    suspension := update s.suspension goal .started }
  have hmade : made.Inv classes settings run (insert goal away) owed := by
    refine ⟨?_, ?_, ?_, ?_, ?_⟩
    · refine ⟨fun g hg => ?_, fun g hg => .tail _ (h.made.awake g hg),
        fun slot g hg => .tail _ (h.made.wanting slot g hg),
        fun g hg => .tail _ (h.made.aWhile g hg), fun g hg => .tail _ (h.made.completion g hg),
        fun c hc => .tail _ (h.made.children c hc)⟩
      rcases List.mem_cons.mp hg with rfl | hg
      · exact .head _
      · exact .tail _ (h.made.goals g hg)
    · have hwaits : ∀ p q, made.Waits p q → s.Waits p q := by
        rintro p q ⟨hp, hq⟩
        rcases List.mem_cons.mp hp with rfl | hp
        · simp [made] at hq
        · exact ⟨hp, by rwa [← hwaitees p hp]⟩
      refine ⟨List.nodup_cons.mpr ⟨fun hg => hold goal hg rfl, h.wired.nodup⟩,
        fun g hg => .tail _ (h.wired.top g hg), fun p hp q hq => ?_, h.wired.acyclic.mono hwaits⟩
      obtain ⟨hp, hq⟩ := hwaits p q ⟨hp, hq⟩
      exact .tail _ (h.wired.waitees p hp q hq)
    · refine ⟨fun g hg slot hw => ?_, fun g hg hw => ?_, fun g hg hw => ?_, fun g hg hw => ?_,
        fun g hg hrun c hc hcg hchannels => ?_⟩
      · rcases List.mem_cons.mp hg with rfl | hg
        · exact absurd (h.made.wanting slot g hw) hgoal
        · obtain ⟨hsusp, hslot⟩ := h.suspended.wanting g hg slot hw
          exact ⟨(hsuspension g hg).trans hsusp, hslot⟩
      · rcases List.mem_cons.mp hg with rfl | hg
        · exact absurd (h.made.aWhile g hw) hgoal
        · exact (hsuspension g hg).trans (h.suspended.aWhile g hg hw)
      · rcases List.mem_cons.mp hg with rfl | hg
        · exact absurd (h.made.completion g hw) hgoal
        · exact (hsuspension g hg).trans (h.suspended.completion g hg hw)
      · rcases List.mem_cons.mp hg with rfl | hg
        · simp [made] at hw
        · refine (hsuspension g hg).trans (h.suspended.await g hg ?_)
          rwa [← hwaitees g hg]
      · rcases List.mem_cons.mp hg with rfl | hg
        · exact absurd (hcg ▸ h.made.children c hc) hgoal
        · exact (hsuspension g hg).trans (h.suspended.childEvent g hg hrun c hc hcg hchannels)
    · refine ⟨h.placed.wantingNodup, fun g hg hplace => ?_, fun g hg => ?_, fun g hg hplace => ?_⟩
      · rcases List.mem_cons.mp hg with rfl | hg
        · exact ⟨fun slot hw => hgoal (h.made.wanting slot g hw),
            fun hw => hgoal (h.made.aWhile g hw), fun hw => hgoal (h.made.completion g hw),
            update_self _ _ _⟩
        · have hf := h.placed.free g hg
            (hplace.imp_right fun haway => haway.resolve_left (hold g hg))
          exact ⟨hf.wanting, hf.aWhile, hf.completion, (hwaitees g hg).trans hf.waitees⟩
      · rcases hg with rfl | hg
        · exact ⟨.head _, fun hawake => hgoal (h.made.awake g hawake)⟩
        · obtain ⟨hg, hasleep⟩ := h.placed.asleep g hg
          exact ⟨.tail _ hg, hasleep⟩
      · rcases List.mem_cons.mp hg with rfl | hg
        · exact absurd (.inl rfl) hplace
        · rcases h.placed.located g hg fun haway => hplace (.inr haway) with hawake | hparked
          · exact .inl hawake
          · refine .inr (hparked.imp_left fun hne => ?_)
            change update s.waitees goal [] g ≠ []
            rwa [hwaitees g hg]
    · refine ⟨h.balanced.counts, fun slot ⟨g, hg, hw⟩ => ?_⟩
      have hready : made.ready classes slot = s.ready classes slot := by
        have hasleep : goal ∉ s.awake := fun hawake => hgoal (h.made.awake goal hawake)
        simp [ready, made, hasleep]
      rw [hready]
      rcases List.mem_cons.mp hg with rfl | hg
      · exact absurd (h.made.wanting slot g hw) hgoal
      · exact h.balanced.slots slot ⟨g, hg, hw⟩
  have hwake := hmade.wakeUp_of_le (g := goal) (.head _)
    (hmade.placed.free goal (.head _) (.inr (.inl rfl)))
  have hset : insert goal away \ {goal} = away := by
    ext g
    simp only [Set.mem_sdiff, Set.mem_insert_iff, Set.mem_singleton_iff]
    refine ⟨fun ⟨hg, hne⟩ => hg.resolve_left hne, fun hg => ⟨.inr hg, ?_⟩⟩
    rintro rfl
    exact haway hg
  rwa [hset] at hwake

theorem Inv.childStarted {channels inBuildSlot : Bool}
    (h : s.Inv classes settings (some g) away owed) (hg : g ∈ s.goals)
    (howed : ∀ slot, owed slot ≤ owed' slot +
      if inBuildSlot = true ∧ slot = Worker.slot classes g then 1 else 0) :
    (s.childStarted classes g channels inBuildSlot).Inv classes settings (some g) away owed' where
  made := by
    refine ⟨h.made.goals, h.made.awake, h.made.wanting, h.made.aWhile, h.made.completion,
      fun c hc => ?_⟩
    rcases List.mem_append.mp hc with hc | hc
    · exact h.made.children c hc
    · rw [List.mem_singleton.mp hc]
      exact h.made.goals g hg
  wired := ⟨h.wired.nodup, h.wired.top, h.wired.waitees, h.wired.acyclic⟩
  suspended := by
    refine ⟨h.suspended.wanting, h.suspended.aWhile, h.suspended.completion, h.suspended.await,
      fun g' hg' hrun c hc hcg => ?_⟩
    rcases List.mem_append.mp hc with hc | hc
    · exact h.suspended.childEvent g' hg' hrun c hc hcg
    · rw [List.mem_singleton.mp hc] at hcg
      exact absurd (congrArg some hcg) hrun
  placed := h.placed.withChildren _ _ fun _ hc _ _ => List.mem_append_left _ hc
  balanced := by
    have hnr : ∀ slot, (s.childStarted classes g channels inBuildSlot).nrJobs slot =
        s.nrJobs slot + if inBuildSlot = true ∧ slot = Worker.slot classes g then 1 else 0 := by
      intro slot
      rw [Worker.childStarted]
      cases inBuildSlot with
      | false => simp
      | true =>
          by_cases hslot : slot = Worker.slot classes g
          · subst hslot
            simp
          · simp [update_of_ne hslot, hslot]
    refine ⟨fun slot => ?_, fun slot hwaits => ?_⟩
    · rw [hnr, h.balanced.counts slot]
      change _ = (s.children ++ [(⟨g, channels, inBuildSlot⟩ : Child γ)]).countP _
      have hcomm : (slot = Worker.slot classes g) = (Worker.slot classes g = slot) :=
        propext eq_comm
      rw [List.countP_append, List.countP_singleton]
      simp [hcomm]
    · have hslots := h.balanced.slots slot hwaits
      have hle := howed slot
      rw [hnr]
      change _ ≤ _ + s.ready classes slot + _
      omega

theorem Inv.park {s' : Worker γ} (h : s.Inv classes settings (some g) {g} owed)
    (hgoals : s'.goals = s.goals) (hmade : s'.made = s.made) (htop : s'.topGoals = s.topGoals)
    (hawake : s'.awake = s.awake) (hchildren : s'.children = s.children)
    (hnr : s'.nrJobs = s.nrJobs)
    (hwaitees : ∀ p, p ≠ g → s'.waitees p = s.waitees p)
    (hsuspension : ∀ p, p ≠ g → s'.suspension p = s.suspension p)
    (hwanting : ∀ p, p ≠ g → ∀ slot, p ∈ s'.wanting slot ↔ p ∈ s.wanting slot)
    (haWhile : ∀ p, p ≠ g → (p ∈ s'.waitingForAWhile ↔ p ∈ s.waitingForAWhile))
    (hcompletion : ∀ p, p ≠ g → (p ∈ s'.waitingForCompletion ↔ p ∈ s.waitingForCompletion))
    (hnodup : ∀ slot, (s'.wanting slot).Nodup) (hparked : s'.Parked classes g)
    (hsuspended : ∀ slot, g ∈ s'.wanting slot →
      s'.suspension g = .waitForBuildSlot ∧ slot = Worker.slot classes g)
    (hsuspended' : (g ∈ s'.waitingForAWhile → s'.suspension g = .waitForAWhile) ∧
      (g ∈ s'.waitingForCompletion → s'.suspension g = .waitUntilWoken) ∧
      (s'.waitees g ≠ [] → s'.suspension g = .await) ∧
      ∀ c ∈ s.children, c.goal = g → c.channels → s'.suspension g = .childEvent)
    (hwired : ∀ q ∈ s'.waitees g, q ∈ s.goals) (hacyclic : Acyclic s'.Waits)
    (hslots : ∀ slot, g ∈ s'.wanting slot → settings.jobs slot ≤ s.nrJobs slot)
    (howed : ∀ slot, owed slot ≤ owed' slot ∨ settings.jobs slot ≤ s.nrJobs slot) :
    s'.Inv classes settings none ∅ owed' := by
  obtain ⟨hg, hasleep⟩ := h.placed.asleep g rfl
  refine ⟨?_, ?_, ?_, ?_, ?_⟩
  · have hmem : g ∈ s.made := h.made.goals g hg
    rw [← hmade] at hmem
    refine ⟨?_, ?_, fun slot p hp => ?_, fun p hp => ?_, fun p hp => ?_, ?_⟩
    · rw [hgoals, hmade]
      exact h.made.goals
    · rw [hawake, hmade]
      exact h.made.awake
    · by_cases heq : p = g
      · exact heq ▸ hmem
      · rw [hmade]
        exact h.made.wanting slot p ((hwanting p heq slot).mp hp)
    · by_cases heq : p = g
      · exact heq ▸ hmem
      · rw [hmade]
        exact h.made.aWhile p ((haWhile p heq).mp hp)
    · by_cases heq : p = g
      · exact heq ▸ hmem
      · rw [hmade]
        exact h.made.completion p ((hcompletion p heq).mp hp)
    · rw [hchildren, hmade]
      exact h.made.children
  · refine ⟨?_, ?_, fun p hp q hq => ?_, hacyclic⟩
    · rw [hgoals]
      exact h.wired.nodup
    · rw [hgoals, htop]
      exact h.wired.top
    · rw [hgoals] at hp ⊢
      by_cases heq : p = g
      · exact hwired q (heq ▸ hq)
      · rw [hwaitees p heq] at hq
        exact h.wired.waitees p hp q hq
  · refine ⟨fun p hp slot hw => ?_, fun p hp hw => ?_, fun p hp hw => ?_, fun p hp hw => ?_,
      fun p hp _ c hc hcp hchannels => ?_⟩
    all_goals rw [hgoals] at hp
    all_goals by_cases heq : p = g
    · subst heq
      exact hsuspended slot hw
    · rw [hsuspension p heq]
      exact h.suspended.wanting p hp slot ((hwanting p heq slot).mp hw)
    · subst heq
      exact hsuspended'.1 hw
    · rw [hsuspension p heq]
      exact h.suspended.aWhile p hp ((haWhile p heq).mp hw)
    · subst heq
      exact hsuspended'.2.1 hw
    · rw [hsuspension p heq]
      exact h.suspended.completion p hp ((hcompletion p heq).mp hw)
    · subst heq
      exact hsuspended'.2.2.1 hw
    · rw [hsuspension p heq]
      rw [hwaitees p heq] at hw
      exact h.suspended.await p hp hw
    · subst heq
      exact hsuspended'.2.2.2 c (hchildren ▸ hc) hcp hchannels
    · rw [hsuspension p heq]
      exact h.suspended.childEvent p hp (fun hrun => heq (Option.some.inj hrun).symm) c
        (hchildren ▸ hc) hcp hchannels
  · refine ⟨hnodup, fun p hp hplace => ?_, fun p hp => hp.elim, fun p hp _ => ?_⟩
    · rw [hgoals] at hp
      have hp' : p ∈ s.awake := hawake ▸ hplace.resolve_right fun hno => hno.elim
      have hne : p ≠ g := fun heq => hasleep (heq ▸ hp')
      have hf := h.placed.free p hp (.inl hp')
      exact ⟨fun slot hw => hf.wanting slot ((hwanting p hne slot).mp hw),
        fun hw => hf.aWhile ((haWhile p hne).mp hw),
        fun hw => hf.completion ((hcompletion p hne).mp hw), (hwaitees p hne).trans hf.waitees⟩
    · rw [hgoals] at hp
      by_cases heq : p = g
      · subst heq
        exact .inr hparked
      · rw [hawake]
        refine (h.placed.located p hp heq).imp_right fun hplace => ?_
        rw [Parked, hwaitees p heq, hwanting p heq, haWhile p heq, hcompletion p heq, hchildren]
        exact hplace
  · refine ⟨fun slot => ?_, fun slot hwaits => ?_⟩
    · rw [hnr, hchildren]
      exact h.balanced.counts slot
    · have hready : s'.ready classes slot = s.ready classes slot := by
        rw [ready, ready, hgoals, hawake]
      rw [hnr, hready]
      by_cases hfull : settings.jobs slot ≤ s.nrJobs slot
      · exact hfull.trans (Nat.le_trans (Nat.le_add_right _ _) (Nat.le_add_right _ _))
      · obtain ⟨p, hp, hw⟩ := hwaits
        have hne : p ≠ g := fun heq => hfull (hslots slot (heq ▸ hw))
        rw [hgoals] at hp
        have hle := h.balanced.slots slot ⟨p, hp, (hwanting p hne slot).mp hw⟩
        exact hle.trans (Nat.add_le_add_left ((howed slot).resolve_right hfull) _)

end Worker

end Nix.Build.Workers
