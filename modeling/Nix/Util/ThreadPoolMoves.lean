import Mathlib.Data.List.Perm.Basic
import Nix.Util.ThreadPoolGraphs

/-!
What the threads of a pool know of each other.
-/

set_option linter.dupNamespace false

namespace Nix.Util.ThreadPools

variable {α : Type}

/-- What happens to the other threads: they are woken up, and one may be started. -/
inductive Rest : List (Pc α) → List (Pc α) → Prop
  | nil : Rest [] []
  | spawn : Rest [] [.locking none]
  | keep (t : Pc α) {l l' : List (Pc α)} (h : Rest l l') : Rest (t :: l) (t :: l')
  | wake {l l' : List (Pc α)} (h : Rest l l') : Rest (.waiting :: l) (.notified :: l')

/-- The thread `i` goes from `t` to `t'`. -/
inductive Moved (t t' : Pc α) : Nat → List (Pc α) → List (Pc α) → Prop
  | here {l l' : List (Pc α)} (h : Rest l l') : Moved t t' 0 (t :: l) (t' :: l')
  | keep (u : Pc α) {i : Nat} {l l' : List (Pc α)} (h : Moved t t' i l l') :
      Moved t t' (i + 1) (u :: l) (u :: l')
  | wake {i : Nat} {l l' : List (Pc α)} (h : Moved t t' i l l') :
      Moved t t' (i + 1) (.waiting :: l) (.notified :: l')

variable {i j : Nat} {t t' u : Pc α} {l l' : List (Pc α)}

theorem Rest.refl (l : List (Pc α)) : Rest l l := by
  induction l with
  | nil => exact .nil
  | cons t l ih => exact .keep t ih

theorem Rest.append_spawn (l : List (Pc α)) : Rest l (l ++ [.locking none]) := by
  induction l with
  | nil => exact .spawn
  | cons t l ih => exact .keep t ih

theorem Rest.map_wake (h : Rest l l') : Rest l (l'.map Pc.wake) := by
  induction h with
  | nil => exact .nil
  | spawn => exact .spawn
  | wake _ ih => exact .wake ih
  | keep t _ ih =>
      cases t with
      | waiting => exact .wake ih
      | _ => exact .keep _ ih

theorem Rest.set (h : Rest l l') (hj : l'[j]? = some .waiting) : Rest l (l'.set j .notified) := by
  induction h generalizing j with
  | nil => cases hj
  | spawn =>
      cases j with
      | zero => cases hj
      | succ j => cases hj
  | wake h ih =>
      cases j with
      | zero => cases hj
      | succ j => exact .wake (ih hj)
  | keep t h ih =>
      cases j with
      | zero =>
          cases hj
          exact .wake h
      | succ j => exact .keep t (ih hj)

theorem Moved.set (hi : l[i]? = some t) : Moved t t' i l (l.set i t') := by
  induction l generalizing i with
  | nil => cases hi
  | cons u l ih =>
      cases i with
      | zero =>
          cases hi
          exact .here (Rest.refl l)
      | succ i => exact .keep u (ih hi)

theorem Moved.append_spawn (hi : l[i]? = some t) :
    Moved t t' i l (l.set i t' ++ [.locking none]) := by
  induction l generalizing i with
  | nil => cases hi
  | cons u l ih =>
      cases i with
      | zero =>
          cases hi
          exact .here (Rest.append_spawn l)
      | succ i => exact .keep u (ih hi)

theorem Moved.map_wake (h : Moved t t' i l l') (ht : t'.wake = t') :
    Moved t t' i l (l'.map Pc.wake) := by
  induction h with
  | here h =>
      rw [List.map_cons, ht]
      exact .here h.map_wake
  | wake _ ih => exact .wake ih
  | keep u _ ih =>
      cases u with
      | waiting => exact .wake ih
      | _ => exact .keep _ ih

theorem Moved.notify (h : Moved t t' i l l') (ht : t' ≠ .waiting) (hj : l'[j]? = some .waiting) :
    Moved t t' i l (l'.set j .notified) := by
  induction h generalizing j with
  | here h =>
      cases j with
      | zero => exact absurd (Option.some.inj hj) ht
      | succ j => exact .here (h.set hj)
  | wake h ih =>
      cases j with
      | zero => cases hj
      | succ j => exact .wake (ih hj)
  | keep u h ih =>
      cases j with
      | zero =>
          cases hj
          exact .wake h
      | succ j => exact .keep u (ih hj)

theorem Moved.exists_rest (h : Moved t t' i l l') :
    ∃ others others', l.Perm (t :: others) ∧ l'.Perm (t' :: others') ∧ Rest others others' := by
  induction h with
  | here h => exact ⟨_, _, .refl _, .refl _, h⟩
  | keep u _ ih =>
      obtain ⟨others, others', hl, hl', hrest⟩ := ih
      exact ⟨u :: others, u :: others', (hl.cons u).trans (.swap t u others),
        (hl'.cons u).trans (.swap t' u others'), .keep u hrest⟩
  | wake _ ih =>
      obtain ⟨others, others', hl, hl', hrest⟩ := ih
      exact ⟨.waiting :: others, .notified :: others', (hl.cons _).trans (.swap t _ others),
        (hl'.cons _).trans (.swap t' _ others'), .wake hrest⟩

theorem Rest.filter_isBusy (h : Rest l l') : l'.filter Pc.isBusy = l.filter Pc.isBusy := by
  induction h with
  | nil => rfl
  | spawn => rfl
  | wake _ ih => exact ih
  | keep t _ ih => rw [List.filter_cons, List.filter_cons, ih]

theorem Rest.mem (h : Rest l l') (hu : u ∈ l) (hne : u ≠ .waiting) : u ∈ l' := by
  induction h with
  | nil => cases hu
  | spawn => cases hu
  | wake _ ih =>
      rcases List.mem_cons.mp hu with heq | hu
      · exact absurd heq hne
      · exact List.mem_cons_of_mem _ (ih hu)
  | keep t _ ih =>
      rcases List.mem_cons.mp hu with heq | hu
      · exact heq ▸ List.mem_cons_self
      · exact List.mem_cons_of_mem _ (ih hu)

theorem Rest.of_mem (h : Rest l l') (hu : u ∈ l') :
    u ∈ l ∨ u = .locking none ∨ u = .notified := by
  induction h with
  | nil => cases hu
  | spawn => exact .inr (.inl (List.mem_singleton.mp hu))
  | wake _ ih =>
      rcases List.mem_cons.mp hu with heq | hu
      · exact .inr (.inr heq)
      · exact (ih hu).imp_left (List.mem_cons_of_mem _)
  | keep t _ ih =>
      rcases List.mem_cons.mp hu with heq | hu
      · exact .inl (heq ▸ List.mem_cons_self)
      · exact (ih hu).imp_left (List.mem_cons_of_mem _)

namespace Pc

/-- The thread has a work item, or has not yet accounted for one. -/
def isWorking : Pc α → Bool
  | .locking worked => worked.isSome
  | .starting _ => true
  | .gettingEdges _ => true
  | .linking _ => true
  | .ready _ => true
  | .processing _ => true
  | .acquiring _ => true
  | .releasing _ _ => true
  | _ => false

def isMain : Pc α → Bool
  | .enqueueing _ => true
  | .draining => true
  | .examining => true
  | .joining _ => true
  | .finished _ => true
  | _ => false

/-- The main thread is not yet in `process`. -/
def isEarly : Pc α → Bool
  | .enqueueing _ => true
  | .draining => true
  | _ => false

end Pc

theorem Pc.isMain_of_isEarly (h : t.isEarly = true) : t.isMain = true := by
  cases t with
  | enqueueing nodes => rfl
  | draining => rfl
  | _ => cases h

theorem Rest.countP_isWorking (h : Rest l l') :
    l'.countP Pc.isWorking = l.countP Pc.isWorking := by
  induction h with
  | nil => rfl
  | spawn => rfl
  | wake _ ih => exact ih
  | keep t _ ih => rw [List.countP_cons, List.countP_cons, ih]

variable [DecidableEq α]

/-- The pool, with its threads in any order. -/
structure PoolOk (job : Job α) (s : State α) (threads : List (Pc α)) : Prop where
  graph : GraphOk job s (threads.filter Pc.isBusy)
  active : s.active = threads.countP Pc.isWorking
  waiting : s.quit = true → .waiting ∉ threads
  returned : .returned ∈ threads → s.quit = true
  exception : s.exception = true → s.quit = true ∧ s.failed = true
  failed : s.failed = true → s.exception = true ∨ .locking (some true) ∈ threads
  threw : .locking (some true) ∈ threads → s.failed = true
  quit : s.quit = true → s.exception = false →
    s.pending = [] ∧ s.active = 0 ∧ s.draining = true
  awake : s.quit = false → ∃ t ∈ threads, t ≠ .waiting

variable {job : Job α} {s s' : State α} {threads threads' others others' : List (Pc α)} {n : α}

theorem PoolOk.perm (h : PoolOk job s threads) (hperm : threads.Perm threads') :
    PoolOk job s threads' where
  graph := h.graph.perm (hperm.filter _)
  active := h.active.trans (hperm.countP_eq _)
  waiting hquit hin := h.waiting hquit (hperm.mem_iff.mpr hin)
  returned hin := h.returned (hperm.mem_iff.mpr hin)
  exception := h.exception
  failed hfailed := (h.failed hfailed).imp_right hperm.mem_iff.mp
  threw hin := h.threw (hperm.mem_iff.mpr hin)
  quit := h.quit
  awake hquit := by
    obtain ⟨t, ht, hne⟩ := h.awake hquit
    exact ⟨t, hperm.mem_iff.mp ht, hne⟩

/-- Work goes on after `quit` only because of an exception. -/
theorem PoolOk.exception_of_working (h : PoolOk job s threads) (ht : t ∈ threads)
    (hworking : t.isWorking = true) (hquit : s.quit = true) : s.exception = true := by
  by_contra hexception
  rw [Bool.not_eq_true] at hexception
  have hzero := (h.quit hquit hexception).2.1
  rw [h.active] at hzero
  exact List.countP_eq_zero.mp hzero t ht hworking

theorem PoolOk.rest (h : PoolOk job s (t :: others)) (hrest : Rest others others')
    (ht : t ≠ .waiting) : PoolOk job s (t :: others') := by
  have hof : ∀ u, u ∈ t :: others' → u ∈ t :: others ∨ u = .locking none ∨ u = .notified := by
    intro u hu
    rcases List.mem_cons.mp hu with rfl | hu
    · exact .inl List.mem_cons_self
    · exact (hrest.of_mem hu).imp_left (List.mem_cons_of_mem _)
  refine ⟨?_, ?_, fun hquit hin => ?_, fun hin => ?_, h.exception, fun hfailed => ?_, fun hin => ?_,
    h.quit, fun _ => ⟨t, List.mem_cons_self, ht⟩⟩
  · rw [List.filter_cons, hrest.filter_isBusy, ← List.filter_cons]
    exact h.graph
  · rw [List.countP_cons, hrest.countP_isWorking, ← List.countP_cons]
    exact h.active
  · rcases hof _ hin with hin | heq | heq
    · exact h.waiting hquit hin
    · cases heq
    · cases heq
  · rcases hof _ hin with hin | heq | heq
    · exact h.returned hin
    · cases heq
    · cases heq
  · refine (h.failed hfailed).imp_right fun hin => ?_
    rcases List.mem_cons.mp hin with heq | hin
    · exact heq ▸ List.mem_cons_self
    · exact List.mem_cons_of_mem _ (hrest.mem hin nofun)
  · rcases hof _ hin with hin | heq | heq
    · exact h.threw hin
    · cases heq
    · cases heq

theorem PoolOk.move (h : PoolOk job s (t :: others))
    (hgraph : GraphOk job s' ((t' :: others).filter Pc.isBusy))
    (hworking : t'.isWorking = t.isWorking) (hwaiting : t' ≠ .waiting) (hreturned : t' ≠ .returned)
    (hthrew : t ≠ .locking (some true)) (hactive : s'.active = s.active)
    (hexception : s'.exception = s.exception) (hquit : s'.quit = s.quit)
    (hdraining : s.draining = true → s'.draining = true)
    (hpending : s.quit = true → s'.pending = s.pending)
    (hfailed : s.failed = true → s'.failed = true)
    (hthrows : s'.failed = true → s.failed = true ∨ t' = .locking (some true))
    (hthrown : t' = .locking (some true) → s'.failed = true) : PoolOk job s' (t' :: others) where
  graph := hgraph
  active := by
    rw [hactive, h.active, List.countP_cons, List.countP_cons, hworking]
  waiting := by
    rw [hquit]
    exact fun hq hin => h.waiting hq (mem_others_of_ne hin hwaiting.symm)
  returned := by
    rw [hquit]
    exact fun hin => h.returned (mem_others_of_ne hin hreturned.symm)
  exception := by
    rw [hexception, hquit]
    intro he
    exact (h.exception he).imp_right hfailed
  failed := by
    rw [hexception]
    intro hf
    rcases hthrows hf with hf | rfl
    · exact (h.failed hf).imp_right fun hin => mem_others_of_ne hin hthrew.symm
    · exact .inr List.mem_cons_self
  threw := by
    intro hin
    rcases List.mem_cons.mp hin with heq | hin
    · exact hthrown heq.symm
    · exact hfailed (h.threw (List.mem_cons_of_mem _ hin))
  quit := by
    rw [hquit, hexception, hactive]
    intro hq he
    rw [hpending hq]
    exact (h.quit hq he).imp_right (And.imp_right hdraining)
  awake _ := ⟨t', List.mem_cons_self, hwaiting⟩

theorem GraphOk.idle (h : GraphOk job s ((t :: others).filter Pc.isBusy)) (ht : t.isBusy = false)
    (ht' : t'.isBusy = false) : GraphOk job s ((t' :: others).filter Pc.isBusy) := by
  rw [List.filter_cons, ht, if_neg Bool.false_ne_true] at h
  rw [List.filter_cons, ht', if_neg Bool.false_ne_true]
  exact h

omit [DecidableEq α] in
theorem waiting_notMem_map_wake (threads : List (Pc α)) : .waiting ∉ threads.map Pc.wake := by
  intro hin
  obtain ⟨t, -, ht⟩ := List.mem_map.mp hin
  cases t <;> cases ht

omit [DecidableEq α] in
theorem State.draining_account (s : State α) (threw : Bool) :
    (s.account threw).draining = s.draining := by
  rw [State.account]
  split <;> rfl

omit [DecidableEq α] in
theorem State.quit_account (s : State α) (threw : Bool) (h : s.exception = true)
    (hquit : s.quit = true) :
    (s.account threw).quit = true ∧ (s.account threw).exception = s.exception := by
  rw [State.account, if_neg fun hthrew => hthrew.2 h]
  exact ⟨hquit, rfl⟩

theorem PoolOk.account {threw : Bool} (h : PoolOk job s (.locking (some threw) :: others))
    (hwake : (s.account threw).quit = true → s.quit = false → .waiting ∉ others) :
    PoolOk job (s.account threw) (.locking none :: others) := by
  have hgraph : GraphOk job s ((.locking none :: others).filter Pc.isBusy) := h.graph.idle rfl rfl
  have hactive : s.active - 1 = others.countP Pc.isWorking := by
    rw [h.active, List.countP_cons]
    rfl
  have hworking : s.quit = true → s.exception = true :=
    h.exception_of_working List.mem_cons_self rfl
  rw [State.account] at hwake ⊢
  split
  next hthrew =>
    rw [if_pos hthrew] at hwake
    obtain ⟨rfl, hexception⟩ := hthrew
    have hquit : s.quit = false := by
      by_contra hquit
      exact hexception (hworking (Bool.not_eq_false _ ▸ hquit))
    have hfailed : s.failed = true := h.threw List.mem_cons_self
    refine ⟨?_, ?_, fun _ hin => ?_, fun _ => rfl, fun _ => ⟨rfl, hfailed⟩, fun _ => .inl rfl,
      fun _ => hfailed, nofun, nofun⟩
    · exact hgraph.congr rfl rfl rfl rfl rfl rfl
    · rw [List.countP_cons]
      exact hactive
    · rcases List.mem_cons.mp hin with heq | hin
      · cases heq
      · exact hwake rfl hquit hin
  next hthrew =>
    refine ⟨hgraph.congr rfl rfl rfl rfl rfl rfl, ?_, fun hquit hin => ?_, fun hin => ?_, h.exception,
      fun hfailed => ?_, fun hin => ?_, fun hquit hexception => ?_, fun _ => ?_⟩
    · rw [List.countP_cons]
      exact hactive
    · exact h.waiting hquit (mem_others_of_ne hin nofun)
    · exact h.returned (mem_others_of_ne hin nofun)
    · rcases h.failed hfailed with hexception | hin
      · exact .inl hexception
      · rcases List.mem_cons.mp hin with heq | hin
        · cases heq
          exact .inl (by_contra fun hexception => hthrew ⟨rfl, hexception⟩)
        · exact .inr (List.mem_cons_of_mem _ hin)
    · exact h.threw (mem_others_of_ne hin nofun)
    · have htrue := hworking hquit
      change s.exception = false at hexception
      rw [hexception] at htrue
      cases htrue
    · exact ⟨_, List.mem_cons_self, nofun⟩

def Pc.IsIdle (t : Pc α) : Prop :=
  t = .locking none ∨ t = .notified

/-- `quit` is set: the thread returns. -/
theorem PoolOk.leave (h : PoolOk job s (t :: others)) (ht : t.IsIdle) (hquit : s.quit = true) :
    PoolOk job s (.returned :: others) where
  graph := by
    rcases ht with rfl | rfl <;> exact h.graph.idle rfl rfl
  active := by
    rcases ht with rfl | rfl <;> exact h.active
  waiting hq hin := h.waiting hq (mem_others_of_ne hin nofun)
  returned _ := hquit
  exception := h.exception
  failed hfailed := (h.failed hfailed).imp_right fun hin =>
    mem_others_of_ne hin (by rcases ht with rfl | rfl <;> nofun)
  threw hin := h.threw (mem_others_of_ne hin nofun)
  quit := h.quit
  awake hq := by
    rw [hquit] at hq
    cases hq

theorem PoolOk.take {pending : List α} (h : PoolOk job s (t :: others)) (ht : t.IsIdle)
    (hquit : s.quit = false) (hpending : s.pending = n :: pending) :
    PoolOk job { s with pending, active := s.active + 1 } (.starting n :: others) where
  graph := by
    have hgraph : GraphOk job s (others.filter Pc.isBusy) := by
      rcases ht with rfl | rfl <;> exact h.graph
    exact (hgraph.take hpending).congr rfl rfl rfl rfl rfl rfl
  active := by
    rw [List.countP_cons]
    rcases ht with rfl | rfl <;> exact congrArg (· + 1) h.active
  waiting hq := by
    change s.quit = true at hq
    rw [hquit] at hq
    cases hq
  returned hin := h.returned (mem_others_of_ne hin nofun)
  exception := h.exception
  failed hfailed := (h.failed hfailed).imp_right fun hin =>
    mem_others_of_ne hin (by rcases ht with rfl | rfl <;> nofun)
  threw hin := h.threw (mem_others_of_ne hin nofun)
  quit hq := by
    change s.quit = true at hq
    rw [hquit] at hq
    cases hq
  awake _ := ⟨_, List.mem_cons_self, nofun⟩

theorem PoolOk.conclude (h : PoolOk job s (t :: others)) (ht : t.IsIdle) (hquit : s.quit = false)
    (hpending : s.pending = []) (hactive : s.active = 0) (hdraining : s.draining = true)
    (hwake : .waiting ∉ others) : PoolOk job { s with quit := true } (.returned :: others) := by
  have hexception : s.exception ≠ true := by
    intro he
    rw [(h.exception he).1] at hquit
    cases hquit
  refine ⟨?_, ?_, fun _ hin => ?_, fun _ => rfl, fun he => absurd he hexception, fun hfailed => ?_,
    fun hin => ?_, fun _ _ => ⟨hpending, hactive, hdraining⟩, nofun⟩
  · have hgraph : GraphOk job s ((.returned :: others).filter Pc.isBusy) := by
      rcases ht with rfl | rfl <;> exact h.graph.idle rfl rfl
    exact hgraph.congr rfl rfl rfl rfl rfl rfl
  · rw [List.countP_cons]
    rcases ht with rfl | rfl <;> exact h.active
  · rcases List.mem_cons.mp hin with heq | hin
    · cases heq
    · exact hwake hin
  · refine (h.failed hfailed).imp_right fun hin => mem_others_of_ne hin ?_
    rcases ht with rfl | rfl <;> nofun
  · exact h.threw (mem_others_of_ne hin nofun)

theorem PoolOk.wait (h : PoolOk job s (t :: others)) (ht : t.IsIdle) (hquit : s.quit = false)
    (hother : s.active ≠ 0 ∨ ∃ u ∈ others, u ≠ .waiting) :
    PoolOk job s (.waiting :: others) where
  graph := by
    rcases ht with rfl | rfl <;> exact h.graph.idle rfl rfl
  active := by
    rcases ht with rfl | rfl <;> exact h.active
  waiting hq := by
    rw [hquit] at hq
    cases hq
  returned hin := h.returned (mem_others_of_ne hin nofun)
  exception := h.exception
  failed hfailed := (h.failed hfailed).imp_right fun hin =>
    mem_others_of_ne hin (by rcases ht with rfl | rfl <;> nofun)
  threw hin := h.threw (mem_others_of_ne hin nofun)
  quit := h.quit
  awake _ := by
    rcases hother with hactive | ⟨u, hu, hne⟩
    · rw [h.active] at hactive
      obtain ⟨u, hu, hworking⟩ := List.countP_pos_iff.mp (Nat.pos_of_ne_zero hactive)
      refine ⟨u, ?_, ?_⟩
      · rcases List.mem_cons.mp hu with rfl | hu
        · rcases ht with rfl | rfl <;> cases hworking
        · exact List.mem_cons_of_mem _ hu
      · rintro rfl
        cases hworking
    · exact ⟨u, List.mem_cons_of_mem _ hu, hne⟩

/-- The end that the call comes to, once `quit` is set. -/
def State.outcome (s : State α) : Outcome :=
  if s.exception then .rethrown else if s.left = ∅ then .returned else .incomplete

/-- The main thread, and its workers. -/
structure MainOk (s : State α) (main : Pc α) (workers : List (Pc α)) : Prop where
  notMain : ∀ w ∈ workers, w.isMain = false
  draining : main.isEarly = !s.draining
  quit : main.isMain = true → main.isEarly = false → s.quit = true
  examining : main = .examining → s.exception = false
  outcome : ∀ outcome, main = .joining outcome ∨ main = .finished outcome → outcome = s.outcome
  finished : ∀ outcome, main = .finished outcome → ∀ w ∈ workers, w = .returned

omit [DecidableEq α] in
theorem Rest.isMain (h : Rest l l') (hl : ∀ u ∈ l, u.isMain = false) : ∀ u ∈ l', u.isMain = false := by
  intro u hu
  rcases h.of_mem hu with hu | rfl | rfl
  · exact hl u hu
  · rfl
  · rfl

omit [DecidableEq α] in
theorem Moved.isMain (h : Moved t t' i l l') (hl : ∀ u ∈ l, u.isMain = false)
    (ht' : t'.isMain = false) : ∀ u ∈ l', u.isMain = false := by
  induction h with
  | here h =>
      exact List.forall_mem_cons.mpr ⟨ht', h.isMain fun u hu => hl u (List.mem_cons_of_mem _ hu)⟩
  | keep v _ ih =>
      obtain ⟨hv, hl⟩ := List.forall_mem_cons.mp hl
      exact List.forall_mem_cons.mpr ⟨hv, ih hl⟩
  | wake _ ih => exact List.forall_mem_cons.mpr ⟨rfl, ih (List.forall_mem_cons.mp hl).2⟩

omit [DecidableEq α] in
theorem Moved.getElem? (h : Moved t t' i l l') : l[i]? = some t := by
  induction h with
  | here => rfl
  | keep _ _ ih => exact ih
  | wake _ ih => exact ih

omit [DecidableEq α] in
theorem Moved.mem (h : Moved t t' i l l') : t ∈ l :=
  List.mem_of_getElem? h.getElem?

theorem MainOk.congr {main : Pc α} {workers workers' : List (Pc α)} (h : MainOk s main workers)
    (hworkers : ∀ w ∈ workers', w.isMain = false) (hdraining : s'.draining = s.draining)
    (hquit : s.quit = true → s'.quit = true)
    (houtcome : s.quit = true → s'.outcome = s.outcome ∧ s'.exception = s.exception)
    (hfinished : ∀ outcome, main = .finished outcome → ∀ w ∈ workers', w = .returned) :
    MainOk s' main workers' where
  notMain := hworkers
  draining := by
    rw [hdraining]
    exact h.draining
  quit hmain hearly := hquit (h.quit hmain hearly)
  examining := by
    rintro rfl
    exact (houtcome (h.quit rfl rfl)).2.trans (h.examining rfl)
  outcome := by
    intro outcome hmain
    have hq : s.quit = true := by
      rcases hmain with rfl | rfl <;> exact h.quit rfl rfl
    exact (h.outcome outcome hmain).trans (houtcome hq).1.symm
  finished := hfinished

/-- A thread that goes on in `doWork`. -/
theorem MainOk.move (h : ∃ m ws, l = m :: ws ∧ MainOk s m ws) (hmoved : Moved t t' i l l')
    (hmain : t.isMain = false) (hmain' : t'.isMain = false) (hreturned : t ≠ .returned)
    (hdraining : s'.draining = s.draining) (hquit : s.quit = true → s'.quit = true)
    (houtcome : s.quit = true → s'.outcome = s.outcome ∧ s'.exception = s.exception) :
    ∃ m ws, l' = m :: ws ∧ MainOk s' m ws := by
  obtain ⟨m, ws, rfl, h⟩ := h
  have hearly : ∀ u : Pc α, u.isMain = false → u.isEarly = false := by
    intro u hu
    by_contra hearly
    rw [Bool.not_eq_false] at hearly
    rw [Pc.isMain_of_isEarly hearly] at hu
    cases hu
  have hnone : ∀ u : Pc α, u.isMain = false → ∀ outcome, u ≠ .joining outcome ∧ u ≠ .finished outcome := by
    intro u hu outcome
    constructor <;> rintro rfl <;> cases hu
  cases hmoved with
  | here hrest =>
      refine ⟨t', _, rfl, hrest.isMain h.notMain, ?_, ?_, ?_, ?_, ?_⟩
      · rw [hdraining, hearly t' hmain', ← hearly t hmain]
        exact h.draining
      · rw [hmain']
        nofun
      · rintro rfl
        cases hmain'
      · intro outcome heq
        exact absurd heq (not_or.mpr (hnone t' hmain' outcome))
      · intro outcome heq
        exact absurd heq (hnone t' hmain' outcome).2
  | keep _ hmoved =>
      refine ⟨m, _, rfl, h.congr (hmoved.isMain h.notMain hmain') hdraining hquit houtcome ?_⟩
      intro outcome heq
      exact absurd (h.finished outcome heq t hmoved.mem) hreturned
  | wake hmoved =>
      refine ⟨.notified, _, rfl, hmoved.isMain h.notMain hmain', ?_, nofun, nofun, nofun, nofun⟩
      rw [hdraining]
      exact h.draining

end Nix.Util.ThreadPools
