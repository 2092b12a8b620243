import Nix.Util.Closure

set_option linter.dupNamespace false

namespace Nix.Util.Closure

open Lib.Transitions
open Relation

variable {α ε : Type} {maxConcurrent : Nat} {edges : α → List α}

def Task.spawn? : Task α ε → Option α
  | .spawnWorker elt => some elt
  | _ => none

def Task.call? : Task α ε → Option α
  | .call elt => some elt
  | _ => none

def Task.handler? : Task α ε → Option (Option ε)
  | .handler ex => some ex
  | _ => none

def Task.start? : Task α ε → Option (List α)
  | .enqueue startElts => some startElts
  | _ => none

namespace State

def workers (s : State α ε) : List α :=
  s.posted.filterMap Task.spawn? ++ (s.posted.filterMap Task.call? ++ s.running)

/-- The invocations of the handler, and those that are about to be made. -/
def handlers (s : State α ε) : List (Option ε) :=
  s.handled ++ s.posted.filterMap Task.handler?

/-- What the counters count. A worker that is being finished is counted apart. -/
structure Counted (finishing : Nat) (s : State α ε) : Prop where
  pending : s.pending = finishing + s.workers.length + s.todo.length
  inFlight : s.inFlight = finishing + (s.posted.filterMap Task.call?).length + s.running.length
  todo : s.todo ≠ [] → 0 < finishing + s.workers.length
  started : s.posted.filterMap Task.start? = []

/-- The handler is invoked when nothing is pending. -/
structure Ran (s : State α ε) : Prop where
  counted : s.Counted 0
  handlers : s.handlers.length = if s.pending = 0 then 1 else 0
  error : s.error.isSome → s.todo = []

variable {s : State α ε} {finishing : Nat}

theorem filterMap_concat {β : Type} (f : Task α ε → Option β) (posted : List (Task α ε))
    (task : Task α ε) :
    (posted ++ [task]).filterMap f = posted.filterMap f ++ (f task).toList := by
  rw [List.filterMap_append]
  cases h : f task with
  | none => rw [List.filterMap_cons_none h, List.filterMap_nil, Option.toList_none]
  | some b => rw [List.filterMap_cons_some h, List.filterMap_nil, Option.toList_some]

theorem filterMap_head {β : Type} (f : Task α ε → Option β) (posted : List (Task α ε))
    (task : Task α ε) : (task :: posted).filterMap f = (f task).toList ++ posted.filterMap f := by
  cases h : f task with
  | none => rw [List.filterMap_cons_none h, Option.toList_none, List.nil_append]
  | some b => rw [List.filterMap_cons_some h, Option.toList_some, List.singleton_append]

theorem handlers_post (task : Task α ε) :
    (s.post task).handlers = s.handlers ++ task.handler?.toList := by
  rw [handlers, handlers, List.append_assoc, ← filterMap_concat]
  rfl

theorem length_workers_post (task : Task α ε) : (s.post task).workers.length =
    s.workers.length + (task.spawn?.toList.length + task.call?.toList.length) := by
  simp only [workers, post, filterMap_concat, List.length_append]
  omega

theorem started_concat {posted : List (Task α ε)} {task : Task α ε}
    (h : posted.filterMap Task.start? = []) (htask : task.start? = none) :
    (posted ++ [task]).filterMap Task.start? = [] := by
  rw [filterMap_concat, h, htask]
  rfl

theorem ran_complete (h : s.Counted 0) (hpending : s.pending = 0) (hhandlers : s.handlers = [])
    (ex : Option ε) : (s.complete ex).Ran := by
  have hnone := h.pending
  rw [hpending, Nat.zero_add] at hnone
  have htodo : s.todo = [] := List.length_eq_zero_iff.mp (by omega)
  have hworkers : (s.complete ex).workers.length = s.workers.length :=
    length_workers_post (s := { s with workGuard := false }) _
  refine ⟨⟨?_, ?_, ?_, started_concat h.started rfl⟩, ?_, fun _ => htodo⟩
  · rw [hworkers]
    exact h.pending
  · have hinFlight := h.inFlight
    simp only [complete, post, filterMap_concat, Task.call?, Option.toList_none, List.append_nil]
    exact hinFlight
  · exact fun hne => absurd htodo hne
  · have hposted : (s.complete ex).handlers = s.handlers ++ [ex] :=
      handlers_post (s := { s with workGuard := false }) _
    rw [hposted, hhandlers]
    exact (if_pos hpending).symm

theorem ran_onWorkDone (h : s.Counted 1) (hhandlers : s.handlers = []) : s.onWorkDone.Ran := by
  have hpending := h.pending
  have hinFlight := h.inFlight
  rw [onWorkDone]
  dsimp only
  split
  next next rest htodo herror =>
    have hworkers : (State.post { s with
        inFlight := s.inFlight - 1, pending := s.pending - 1, todo := rest }
          (.spawnWorker next)).workers.length = s.workers.length + 1 :=
      length_workers_post (s := { s with
        inFlight := s.inFlight - 1, pending := s.pending - 1, todo := rest }) _
    rw [htodo, List.length_cons] at hpending
    refine ⟨⟨?_, ?_, fun _ => ?_, started_concat h.started rfl⟩, ?_, fun hsome => ?_⟩
    · rw [hworkers]
      change s.pending - 1 = 0 + (s.workers.length + 1) + rest.length
      omega
    · simp only [post, filterMap_concat, Task.call?]
      simpa using by omega
    · rw [hworkers]
      omega
    · rw [handlers_post]
      change (s.handlers ++ _).length = if s.pending - 1 = 0 then 1 else 0
      rw [hhandlers, if_neg (by omega)]
      rfl
    · change s.error.isSome at hsome
      rw [herror] at hsome
      cases hsome
  next hcase =>
    -- The queue is empty, or is emptied now.
    have hleft : ∀ s' : State α ε, s'.Counted 0 → s'.handlers = [] →
        (s'.error.isSome → s'.todo = []) →
          (if s'.pending = 0 then s'.complete s.error else s').Ran := by
      intro s' hs' hnone htodo
      split
      next hzero => exact ran_complete hs' hzero hnone s.error
      next hpos => exact ⟨hs', by rw [hnone, if_neg hpos]; rfl, htodo⟩
    split
    next hsome =>
      refine hleft _ ⟨?_, ?_, fun hne => absurd rfl hne, h.started⟩ hhandlers fun _ => rfl
      · change s.pending - 1 - s.todo.length = 0 + s.workers.length + 0
        omega
      · change s.inFlight - 1 = 0 + (s.posted.filterMap Task.call?).length + s.running.length
        omega
    next hnone =>
      have herror : s.error = none := by simpa using hnone
      have htodo : s.todo = [] := by
        cases htodo : s.todo with
        | nil => rfl
        | cons next rest => exact (hcase next rest htodo herror).elim
      refine hleft _ ⟨?_, ?_, fun hne => absurd htodo hne, h.started⟩ hhandlers fun _ => htodo
      · change s.pending - 1 = 0 + s.workers.length + s.todo.length
        omega
      · change s.inFlight - 1 = 0 + (s.posted.filterMap Task.call?).length + s.running.length
        omega

variable [DecidableEq α]

variable (maxConcurrent) in
theorem enqueue_cases (s : State α ε) (elt : α) :
    (s.enqueue maxConcurrent elt = s ∧ (s.error.isSome ∨ elt ∈ s.res)) ∨
      (s.error = none ∧ elt ∉ s.res ∧ s.inFlight < maxConcurrent ∧
        s.enqueue maxConcurrent elt =
          { s with
            res := elt :: s.res
            pending := s.pending + 1
            inFlight := s.inFlight + 1
            posted := s.posted ++ [.call elt] }) ∨
      (s.error = none ∧ elt ∉ s.res ∧ maxConcurrent ≤ s.inFlight ∧
        s.enqueue maxConcurrent elt =
          { s with res := elt :: s.res, pending := s.pending + 1, todo := s.todo ++ [elt] }) := by
  rw [enqueue]
  split
  next hsome => exact .inl ⟨rfl, .inl hsome⟩
  next hnone =>
    have herror : s.error = none := by simpa using hnone
    split
    next hmem => exact .inl ⟨rfl, .inr hmem⟩
    next hmem =>
      dsimp only
      split
      next hfree => exact .inr (.inl ⟨herror, hmem, hfree, rfl⟩)
      next hfull => exact .inr (.inr ⟨herror, hmem, Nat.le_of_not_lt hfull, rfl⟩)

theorem Counted.enqueue (h : s.Counted finishing) (hlimit : 0 < maxConcurrent) (elt : α) :
    (s.enqueue maxConcurrent elt).Counted finishing ∧
      (s.enqueue maxConcurrent elt).handlers = s.handlers := by
  have hpending := h.pending
  have hinFlight := h.inFlight
  obtain ⟨heq, -⟩ | ⟨-, -, -, heq⟩ | ⟨-, -, hfull, heq⟩ := enqueue_cases maxConcurrent s elt
  · rw [heq]
    exact ⟨h, rfl⟩
  · have hworkers : (s.post (.call elt)).workers.length = s.workers.length + 1 :=
      length_workers_post _
    rw [heq]
    refine ⟨⟨?_, ?_, fun hne => ?_, started_concat h.started rfl⟩, ?_⟩
    · change s.pending + 1 = finishing + (s.post (.call elt)).workers.length + s.todo.length
      omega
    · simp only [filterMap_concat, Task.call?]
      simpa using by omega
    · change 0 < finishing + (s.post (.call elt)).workers.length
      omega
    · exact (handlers_post (s := s) (.call elt)).trans (List.append_nil _)
  · rw [heq]
    refine ⟨⟨?_, h.inFlight, fun _ => ?_, h.started⟩, rfl⟩
    · change s.pending + 1 = finishing + s.workers.length + (s.todo ++ [elt]).length
      rw [List.length_append, List.length_singleton]
      omega
    · change 0 < finishing + s.workers.length
      simp only [workers, List.length_append]
      omega

theorem Counted.enqueueAll (h : s.Counted finishing) (hlimit : 0 < maxConcurrent)
    (elts : List α) : (s.enqueueAll maxConcurrent elts).Counted finishing ∧
      (s.enqueueAll maxConcurrent elts).handlers = s.handlers := by
  induction elts generalizing s with
  | nil => exact ⟨h, rfl⟩
  | cons elt elts ih =>
      obtain ⟨helt, hhandlers⟩ := h.enqueue hlimit elt
      obtain ⟨helts, hrest⟩ := ih helt
      exact ⟨helts, hrest.trans hhandlers⟩

theorem Counted.finish {elt : α} (h : s.Counted 0) (helt : elt ∈ s.running) :
    ({ s with running := s.running.erase elt } : State α ε).Counted 1 := by
  have hlength := List.length_erase_of_mem helt
  have hpos := List.length_pos_of_mem helt
  have hpending := h.pending
  have hinFlight := h.inFlight
  rw [workers, List.length_append, List.length_append] at hpending
  refine ⟨?_, ?_, fun _ => Nat.lt_of_lt_of_le Nat.zero_lt_one (Nat.le_add_right _ _), h.started⟩
  · simp only [workers, List.length_append]
    omega
  · change s.inFlight = _
    dsimp only
    omega

omit [DecidableEq α] in
theorem Ran.handlers_eq_nil {elt : α} (h : s.Ran) (helt : elt ∈ s.running) : s.handlers = [] := by
  have hpos := List.length_pos_of_mem helt
  have hpending := h.counted.pending
  rw [workers, List.length_append, List.length_append] at hpending
  have hlength := h.handlers
  rw [if_neg (by omega)] at hlength
  exact List.length_eq_zero_iff.mp hlength

theorem Ran.next {task : Task α ε} {posted : List (Task α ε)} (h : s.Ran)
    (hposted : s.posted = task :: posted) : (run maxConcurrent { s with posted } task).Ran := by
  have hpending := h.counted.pending
  have hinFlight := h.counted.inFlight
  have htodo := h.counted.todo
  have hstarted := h.counted.started
  have hhandlers := h.handlers
  simp only [workers, State.handlers, hposted, filterMap_head, List.length_append]
    at hpending hinFlight htodo hstarted hhandlers
  cases task with
  | enqueue startElts => cases hstarted
  | spawnWorker elt =>
      have hworkers : (run maxConcurrent { s with posted } (.spawnWorker elt)).workers.length =
          ({ s with posted } : State α ε).workers.length + 1 :=
        length_workers_post (s := { s with posted, inFlight := s.inFlight + 1 }) _
      simp only [workers, List.length_append] at hworkers
      simp only [Task.spawn?, Task.call?, Task.handler?, Option.toList_some, Option.toList_none,
        List.length_singleton, List.length_nil] at hpending hinFlight htodo hhandlers
      refine ⟨⟨?_, ?_, fun hne => ?_, started_concat hstarted rfl⟩, ?_, h.error⟩
      · simp only [workers, List.length_append]
        rw [hworkers]
        change s.pending = _ + s.todo.length
        omega
      · change s.inFlight + 1 = 0 + ((posted ++ [Task.call elt]).filterMap Task.call?).length +
          s.running.length
        simp only [filterMap_concat, Task.call?, List.length_append, Option.toList_some,
          List.length_singleton]
        omega
      · have hpos := htodo hne
        simp only [workers, List.length_append]
        rw [hworkers]
        omega
      · change (s.handled ++ (posted ++ [Task.call elt]).filterMap Task.handler?).length =
          if s.pending = 0 then 1 else 0
        simp only [filterMap_concat, Task.handler?, Option.toList_none, List.append_nil,
          List.length_append]
        omega
  | call elt =>
      simp only [Task.spawn?, Task.call?, Task.handler?, Option.toList_some, Option.toList_none,
        List.length_singleton, List.length_nil] at hpending hinFlight htodo hhandlers
      refine ⟨⟨?_, ?_, fun hne => ?_, hstarted⟩, ?_, h.error⟩
      · simp only [run, workers, List.length_append, List.length_cons]
        omega
      · simp only [run, List.length_cons]
        omega
      · have hpos := htodo hne
        simp only [run, workers, List.length_append, List.length_cons]
        omega
      · change (s.handled ++ posted.filterMap Task.handler?).length =
          if s.pending = 0 then 1 else 0
        rw [List.length_append]
        omega
  | handler ex =>
      simp only [Task.spawn?, Task.call?, Task.handler?, Option.toList_some, Option.toList_none,
        List.length_singleton, List.length_nil] at hpending hinFlight htodo hhandlers
      refine ⟨⟨?_, ?_, fun hne => ?_, hstarted⟩, ?_, h.error⟩
      · simp only [run, workers, List.length_append]
        omega
      · simp only [run]
        omega
      · have hpos := htodo hne
        simp only [run, workers, List.length_append]
        omega
      · change (s.handled ++ [ex] ++ posted.filterMap Task.handler?).length =
          if s.pending = 0 then 1 else 0
        rw [List.length_append, List.length_append, List.length_singleton]
        omega

theorem Ran.step {s' : State α ε} {e : Event α ε} (h : s.Ran) (hlimit : 0 < maxConcurrent)
    (hstep : step maxConcurrent edges s e = some s') : s'.Ran := by
  cases e with
  | next =>
      rw [Closure.step] at hstep
      split at hstep
      next => cases hstep
      next task posted hposted =>
        cases hstep
        exact h.next hposted
  | returned elt =>
      rw [Closure.step] at hstep
      split at hstep
      next helt =>
        cases hstep
        obtain ⟨hcounted, hhandlers⟩ := (h.counted.finish helt).enqueueAll hlimit (edges elt)
        exact ran_onWorkDone hcounted (hhandlers.trans (h.handlers_eq_nil helt))
      next => cases hstep
  | failed elt ex =>
      rw [Closure.step] at hstep
      split at hstep
      next helt =>
        cases hstep
        have hcounted := h.counted.finish helt
        exact ran_onWorkDone ⟨hcounted.pending, hcounted.inFlight, hcounted.todo,
          hcounted.started⟩ (h.handlers_eq_nil helt)
      next => cases hstep

theorem pending_enqueueAll {elts : List α} (herror : s.error = none)
    (h : 0 < s.pending ∨ ∃ x ∈ elts, x ∉ s.res) :
    0 < (s.enqueueAll maxConcurrent elts).pending := by
  induction elts generalizing s with
  | nil =>
      rcases h with h | ⟨x, hx, -⟩
      · exact h
      · cases hx
  | cons elt elts ih =>
      refine ih (s := s.enqueue maxConcurrent elt) ?_ ?_
      · obtain ⟨heq, -⟩ | ⟨-, -, -, heq⟩ | ⟨-, -, -, heq⟩ := enqueue_cases maxConcurrent s elt
        all_goals
          rw [heq]
          exact herror
      · obtain ⟨heq, hin⟩ | ⟨-, -, -, heq⟩ | ⟨-, -, -, heq⟩ := enqueue_cases maxConcurrent s elt
        · rw [heq]
          refine h.imp_right fun ⟨x, hx, hout⟩ => ⟨x, ?_, hout⟩
          rcases List.mem_cons.mp hx with rfl | hx
          · rw [herror] at hin
            exact absurd (hin.resolve_left (by simp)) hout
          · exact hx
        · rw [heq]
          exact .inl (Nat.succ_pos _)
        · rw [heq]
          exact .inl (Nat.succ_pos _)

/-! ### What has been found -/

omit [DecidableEq α] in
theorem mem_workers {x : α} : x ∈ s.workers ↔
    .spawnWorker x ∈ s.posted ∨ .call x ∈ s.posted ∨ x ∈ s.running := by
  have hspawn : ∀ task : Task α ε, task.spawn? = some x ↔ task = .spawnWorker x := by
    intro task
    cases task <;> simp [Task.spawn?]
  have hcall : ∀ task : Task α ε, task.call? = some x ↔ task = .call x := by
    intro task
    cases task <;> simp [Task.call?]
  simp [workers, hspawn, hcall]

/-- An element is found, and its edges have been followed or are going to be. -/
structure Found (edges : α → List α) (startElts res finishing : List α) (s : State α ε) :
    Prop where
  error : s.error = none
  handlers : ∀ ex ∈ s.handlers, ex = none
  initial : ∀ x ∈ res, x ∈ s.res
  sound : ∀ x ∈ s.res, Closed edges startElts res x
  fresh : ∀ x, x ∈ s.workers ∨ x ∈ s.todo ∨ x ∈ finishing → x ∈ s.res ∧ x ∉ res
  done : ∀ x ∈ s.res, x ∈ res ∨ (x ∈ s.workers ∨ x ∈ s.todo ∨ x ∈ finishing) ∨
    ∀ y ∈ edges x, y ∈ s.res

variable {startElts res found : List α}

theorem Found.enqueue {elt : α} (h : s.Found edges startElts res found)
    (helt : Closed edges startElts res elt) :
    (s.enqueue maxConcurrent elt).Found edges startElts res found ∧
      elt ∈ (s.enqueue maxConcurrent elt).res ∧
        ∀ x ∈ s.res, x ∈ (s.enqueue maxConcurrent elt).res := by
  have hres : ∀ x ∈ elt :: s.res, Closed edges startElts res x := by
    intro x hx
    rcases List.mem_cons.mp hx with rfl | hx
    · exact helt
    · exact h.sound x hx
  obtain ⟨heq, hin⟩ | ⟨-, hnew, -, heq⟩ | ⟨-, hnew, -, heq⟩ := enqueue_cases maxConcurrent s elt
  · rw [h.error] at hin
    rw [heq]
    exact ⟨h, hin.resolve_left (by simp), fun x hx => hx⟩
  · have hworkers : ∀ x, x ∈ (s.enqueue maxConcurrent elt).workers ↔ x = elt ∨ x ∈ s.workers := by
      intro x
      rw [heq, mem_workers, mem_workers]
      simp only [List.mem_append, List.mem_singleton, reduceCtorEq, or_false, Task.call.injEq]
      tauto
    have hhandlers : (s.enqueue maxConcurrent elt).handlers = s.handlers := by
      rw [heq]
      exact (handlers_post (s := s) (.call elt)).trans (List.append_nil _)
    have hnot : elt ∉ res := fun hmem => hnew (h.initial elt hmem)
    have hres' : (s.enqueue maxConcurrent elt).res = elt :: s.res := by rw [heq]
    have htodo : (s.enqueue maxConcurrent elt).todo = s.todo := by rw [heq]
    refine ⟨⟨by rw [heq]; exact h.error, ?_, ?_, ?_, ?_, ?_⟩, ?_, ?_⟩
    · rw [hhandlers]
      exact h.handlers
    · rw [hres']
      exact fun x hx => List.mem_cons_of_mem _ (h.initial x hx)
    · rw [hres']
      exact hres
    · intro x hx
      rw [hworkers, htodo] at hx
      rw [hres']
      rcases hx with (rfl | hx) | hx | hx
      · exact ⟨List.mem_cons_self, hnot⟩
      · exact (h.fresh x (.inl hx)).imp_left (List.mem_cons_of_mem _)
      · exact (h.fresh x (.inr (.inl hx))).imp_left (List.mem_cons_of_mem _)
      · exact (h.fresh x (.inr (.inr hx))).imp_left (List.mem_cons_of_mem _)
    · intro x hx
      rw [hres'] at hx ⊢
      rw [hworkers, htodo]
      rcases List.mem_cons.mp hx with rfl | hx
      · exact .inr (.inl (.inl (.inl rfl)))
      · rcases h.done x hx with hinit | (hw | hw) | hw
        · exact .inl hinit
        · exact .inr (.inl (.inl (.inr hw)))
        · exact .inr (.inl (.inr hw))
        · exact .inr (.inr fun y hy => List.mem_cons_of_mem _ (hw y hy))
    · rw [hres']
      exact List.mem_cons_self
    · rw [hres']
      exact fun x hx => List.mem_cons_of_mem _ hx
  · have hnot : elt ∉ res := fun hmem => hnew (h.initial elt hmem)
    rw [heq]
    refine ⟨⟨h.error, h.handlers, fun x hx => List.mem_cons_of_mem _ (h.initial x hx), hres,
      fun x hx => ?_, fun x hx => ?_⟩, List.mem_cons_self, fun x hx => List.mem_cons_of_mem _ hx⟩
    · change x ∈ s.workers ∨ x ∈ s.todo ++ [elt] ∨ x ∈ found at hx
      rw [List.mem_append, List.mem_singleton] at hx
      rcases hx with hx | (hx | rfl) | hx
      · exact (h.fresh x (.inl hx)).imp_left (List.mem_cons_of_mem _)
      · exact (h.fresh x (.inr (.inl hx))).imp_left (List.mem_cons_of_mem _)
      · exact ⟨List.mem_cons_self, hnot⟩
      · exact (h.fresh x (.inr (.inr hx))).imp_left (List.mem_cons_of_mem _)
    · change x ∈ res ∨ (x ∈ s.workers ∨ x ∈ s.todo ++ [elt] ∨ x ∈ found) ∨
        ∀ y ∈ edges x, y ∈ elt :: s.res
      rw [List.mem_append, List.mem_singleton]
      rcases List.mem_cons.mp hx with rfl | hx
      · exact .inr (.inl (.inr (.inl (.inr rfl))))
      · rcases h.done x hx with hinit | (hw | hw | hw) | hw
        · exact .inl hinit
        · exact .inr (.inl (.inl hw))
        · exact .inr (.inl (.inr (.inl (.inl hw))))
        · exact .inr (.inl (.inr (.inr hw)))
        · exact .inr (.inr fun y hy => List.mem_cons_of_mem _ (hw y hy))

variable (maxConcurrent) in
theorem Found.enqueueAll {elts : List α} (h : s.Found edges startElts res found)
    (helts : ∀ elt ∈ elts, Closed edges startElts res elt) :
    (s.enqueueAll maxConcurrent elts).Found edges startElts res found ∧
      (∀ elt ∈ elts, elt ∈ (s.enqueueAll maxConcurrent elts).res) ∧
        ∀ x ∈ s.res, x ∈ (s.enqueueAll maxConcurrent elts).res := by
  induction elts generalizing s with
  | nil => exact ⟨h, fun _ helt => absurd helt List.not_mem_nil, fun x hx => hx⟩
  | cons elt elts ih =>
      obtain ⟨hfound, helt, hmono⟩ := h.enqueue (helts elt List.mem_cons_self)
      obtain ⟨hall, hrest, hmono'⟩ := ih hfound fun elt' helt' =>
        helts elt' (List.mem_cons_of_mem _ helt')
      refine ⟨hall, fun elt' helt' => ?_, fun x hx => hmono' x (hmono x hx)⟩
      rcases List.mem_cons.mp helt' with rfl | helt'
      · exact hmono' elt' helt
      · exact hrest elt' helt'

omit [DecidableEq α] in
theorem Found.move {s' : State α ε} {found' : List α} (h : s.Found edges startElts res found)
    (herror : s'.error = s.error) (hres : s'.res = s.res)
    (hhandlers : ∀ ex ∈ s'.handlers, ex = none)
    (hmem : ∀ x, (x ∈ s'.workers ∨ x ∈ s'.todo ∨ x ∈ found') →
      x ∈ s.workers ∨ x ∈ s.todo ∨ x ∈ found)
    (hmem' : ∀ x, (x ∈ s.workers ∨ x ∈ s.todo ∨ x ∈ found) →
      (x ∈ s'.workers ∨ x ∈ s'.todo ∨ x ∈ found') ∨ ∀ y ∈ edges x, y ∈ s.res) :
    s'.Found edges startElts res found' := by
  refine ⟨herror.trans h.error, hhandlers, ?_, ?_, fun x hx => ?_, fun x hx => ?_⟩
  · rw [hres]
    exact h.initial
  · rw [hres]
    exact h.sound
  · rw [hres]
    exact h.fresh x (hmem x hx)
  · rw [hres] at hx ⊢
    rcases h.done x hx with hinit | hplace | hdone
    · exact .inl hinit
    · exact .inr (hmem' x hplace)
    · exact .inr (.inr hdone)

theorem Found.finish {elt : α} (h : s.Found edges startElts res []) (helt : elt ∈ s.running) :
    ({ s with running := s.running.erase elt } : State α ε).Found edges startElts res [elt] := by
  refine h.move rfl rfl h.handlers (fun x hx => ?_) fun x hx => .inl ?_
  · rw [mem_workers] at hx ⊢
    rcases hx with (hx | hx | hx) | hx | hx
    · exact .inl (.inl hx)
    · exact .inl (.inr (.inl hx))
    · exact .inl (.inr (.inr (List.mem_of_mem_erase hx)))
    · exact .inr (.inl hx)
    · rw [List.mem_singleton.mp hx]
      exact .inl (.inr (.inr helt))
  · rw [mem_workers] at hx ⊢
    rcases hx with (hx | hx | hx) | hx | hx
    · exact .inl (.inl hx)
    · exact .inl (.inr (.inl hx))
    · by_cases heq : x = elt
      · exact .inr (.inr (List.mem_singleton.mpr heq))
      · exact .inl (.inr (.inr ((List.mem_erase_of_ne heq).mpr hx)))
    · exact .inr (.inl hx)
    · cases hx

omit [DecidableEq α] in
theorem Found.onWorkDone {elt : α} (h : s.Found edges startElts res [elt])
    (hedges : ∀ y ∈ edges elt, y ∈ s.res) : s.onWorkDone.Found edges startElts res [] := by
  have hdone : ∀ x, x ∈ [elt] → ∀ y ∈ edges x, y ∈ s.res := by
    intro x hx
    rwa [List.mem_singleton.mp hx]
  rw [State.onWorkDone]
  dsimp only
  split
  next next rest htodo herror =>
    have hhandlers : (State.post { s with
        inFlight := s.inFlight - 1, pending := s.pending - 1, todo := rest }
          (.spawnWorker next)).handlers = s.handlers :=
      (handlers_post (s := { s with
        inFlight := s.inFlight - 1, pending := s.pending - 1, todo := rest }) _).trans
          (List.append_nil _)
    refine h.move rfl rfl (by rw [hhandlers]; exact h.handlers) (fun x hx => ?_) fun x hx => ?_
    · simp only [mem_workers, post, List.mem_append, List.mem_singleton, reduceCtorEq, or_false,
        Task.spawnWorker.injEq, List.not_mem_nil] at hx
      rw [mem_workers, htodo, List.mem_cons]
      tauto
    · rw [mem_workers, htodo, List.mem_cons] at hx
      simp only [mem_workers, post, List.mem_append, List.mem_singleton, reduceCtorEq, or_false,
        Task.spawnWorker.injEq, List.not_mem_nil]
      rcases hx with hx | (hx | hx) | hx
      · tauto
      · tauto
      · tauto
      · exact .inr (hdone x hx)
  next hcase =>
    have hnone : ¬s.error.isSome := by simp [h.error]
    rw [if_neg hnone]
    have hplace : ∀ x, (x ∈ s.workers ∨ x ∈ s.todo ∨ x ∈ [elt]) →
        (x ∈ s.workers ∨ x ∈ s.todo ∨ x ∈ []) ∨ ∀ y ∈ edges x, y ∈ s.res := by
      intro x hx
      rcases hx with hx | hx | hx
      · exact .inl (.inl hx)
      · exact .inl (.inr (.inl hx))
      · exact .inr (hdone x hx)
    have hback : ∀ x, (x ∈ s.workers ∨ x ∈ s.todo ∨ x ∈ []) →
        x ∈ s.workers ∨ x ∈ s.todo ∨ x ∈ [elt] :=
      fun x hx => hx.imp_right (Or.imp_right fun hno => absurd hno List.not_mem_nil)
    split
    next =>
      have hworkers : ∀ x, x ∈ (State.complete { s with
          inFlight := s.inFlight - 1, pending := s.pending - 1 } s.error).workers ↔
            x ∈ s.workers := by
        intro x
        simp [mem_workers, complete, post]
      refine h.move rfl rfl (fun ex hex => ?_) (fun x hx => ?_) fun x hx => ?_
      · have hhandlers : (State.complete { s with
            inFlight := s.inFlight - 1, pending := s.pending - 1 } s.error).handlers =
              s.handlers ++ [s.error] :=
          handlers_post (s := { s with
            inFlight := s.inFlight - 1, pending := s.pending - 1, workGuard := false }) _
        rw [hhandlers] at hex
        rcases List.mem_append.mp hex with hex | hex
        · exact h.handlers ex hex
        · exact (List.mem_singleton.mp hex).trans h.error
      · rw [hworkers] at hx
        exact hback x hx
      · rw [hworkers]
        exact hplace x hx
    next => exact h.move rfl rfl h.handlers hback hplace

theorem Found.next {task : Task α ε} {posted : List (Task α ε)}
    (h : s.Found edges startElts res []) (hstarted : task.start? = none)
    (hposted : s.posted = task :: posted) :
    (run maxConcurrent { s with posted } task).Found edges startElts res [] := by
  cases task with
  | enqueue startElts => cases hstarted
  | spawnWorker elt =>
      have hhandlers : (run maxConcurrent { s with posted } (.spawnWorker elt)).handlers =
          s.handlers := by
        have hpost := handlers_post (s := { s with posted, inFlight := s.inFlight + 1 })
          (.call elt)
        refine hpost.trans ((List.append_nil _).trans ?_)
        simp only [State.handlers, hposted, filterMap_head]
        rfl
      refine h.move rfl rfl (by rw [hhandlers]; exact h.handlers) (fun x hx => ?_)
        fun x hx => .inl ?_
      · simp only [run, spawnWorker, mem_workers, post, List.mem_append, List.mem_singleton,
          reduceCtorEq, or_false, Task.call.injEq] at hx
        simp only [mem_workers, hposted, List.mem_cons, reduceCtorEq, false_or,
          Task.spawnWorker.injEq]
        tauto
      · simp only [mem_workers, hposted, List.mem_cons, reduceCtorEq, false_or,
          Task.spawnWorker.injEq] at hx
        simp only [run, spawnWorker, mem_workers, post, List.mem_append, List.mem_singleton,
          reduceCtorEq, or_false, Task.call.injEq]
        tauto
  | call elt =>
      have hhandlers : (run maxConcurrent { s with posted } (.call elt)).handlers =
          s.handlers := by
        simp only [State.handlers, hposted, filterMap_head]
        rfl
      refine h.move rfl rfl (by rw [hhandlers]; exact h.handlers) (fun x hx => ?_)
        fun x hx => .inl ?_
      · simp only [run, mem_workers, List.mem_cons] at hx
        simp only [mem_workers, hposted, List.mem_cons, reduceCtorEq, false_or, Task.call.injEq]
        tauto
      · simp only [mem_workers, hposted, List.mem_cons, reduceCtorEq, false_or,
          Task.call.injEq] at hx
        simp only [run, mem_workers, List.mem_cons]
        tauto
  | handler ex =>
      refine h.move rfl rfl (fun ex' hex' => ?_) (fun x hx => ?_) fun x hx => .inl ?_
      · refine h.handlers ex' ?_
        simpa [run, State.handlers, hposted, filterMap_head, Task.handler?] using hex'
      · simp only [run, mem_workers] at hx
        simp only [mem_workers, hposted, List.mem_cons, reduceCtorEq, false_or]
        exact hx
      · simp only [mem_workers, hposted, List.mem_cons, reduceCtorEq, false_or] at hx
        simp only [run, mem_workers]
        exact hx

theorem Found.step {s' : State α ε} {e : Event α ε} (h : s.Found edges startElts res [])
    (hstarted : s.posted.filterMap Task.start? = []) (hok : NoneFails s e)
    (hstep : step maxConcurrent edges s e = some s') : s'.Found edges startElts res [] := by
  cases e with
  | next =>
      rw [Closure.step] at hstep
      split at hstep
      next => cases hstep
      next task posted hposted =>
        cases hstep
        refine h.next ?_ hposted
        rw [hposted, List.filterMap_eq_nil_iff] at hstarted
        exact hstarted task List.mem_cons_self
  | returned elt =>
      rw [Closure.step] at hstep
      split at hstep
      next helt =>
        cases hstep
        obtain ⟨hin, hout⟩ := h.fresh elt (.inl (mem_workers.mpr (.inr (.inr helt))))
        obtain ⟨a, ha, hpath⟩ := (h.sound elt hin).resolve_left hout
        have hedges : ∀ y ∈ edges elt, Closed edges startElts res y :=
          fun y hy => .inr ⟨a, ha, hpath.tail ⟨hout, hy⟩⟩
        obtain ⟨hfound, hall, -⟩ := (h.finish helt).enqueueAll maxConcurrent
          hedges
        exact hfound.onWorkDone hall
      next => cases hstep
  | failed elt ex => exact hok.elim

end State

/-! ### Runs -/

variable [DecidableEq α] {startElts res : List α} {ok : State α ε → Event α ε → Prop}
  {s : State α ε}

theorem error_enqueueAll {elts : List α} {s : State α ε} :
    (s.enqueueAll maxConcurrent elts).error = s.error := by
  induction elts generalizing s with
  | nil => rfl
  | cons elt elts ih =>
      refine (ih (s := s.enqueue maxConcurrent elt)).trans ?_
      obtain ⟨heq, -⟩ | ⟨-, -, -, heq⟩ | ⟨-, -, -, heq⟩ := State.enqueue_cases maxConcurrent s elt
      all_goals rw [heq]

theorem step_start {s' : State α ε} {e : Event α ε} (hne : startElts ≠ [])
    (hstep : step maxConcurrent edges (computeClosure startElts res) e = some s') :
    s' = ({ res } : State α ε).enqueueAll maxConcurrent startElts := by
  rw [computeClosure, if_neg hne] at hstep
  cases e with
  | next =>
      cases hstep
      rfl
  | returned elt => cases hstep
  | failed elt ex => cases hstep

theorem mem_res_enqueueAll {elts : List α} {s : State α ε} {x : α} (hx : x ∈ s.res) :
    x ∈ (s.enqueueAll maxConcurrent elts).res := by
  induction elts generalizing s with
  | nil => exact hx
  | cons elt elts ih =>
      refine ih (s := s.enqueue maxConcurrent elt) ?_
      obtain ⟨heq, -⟩ | ⟨-, -, -, heq⟩ | ⟨-, -, -, heq⟩ := State.enqueue_cases maxConcurrent s elt
      · rwa [heq]
      · rw [heq]
        exact List.mem_cons_of_mem _ hx
      · rw [heq]
        exact List.mem_cons_of_mem _ hx

omit [DecidableEq α] in
theorem res_onWorkDone {s : State α ε} : s.onWorkDone.res = s.res := by
  rw [State.onWorkDone]
  dsimp only
  split
  next => rfl
  next =>
    split
    next =>
      split
      next => rfl
      next => rfl
    next =>
      split
      next => rfl
      next => rfl

theorem mem_res_step {s s' : State α ε} {e : Event α ε} {x : α}
    (hstep : step maxConcurrent edges s e = some s') (hx : x ∈ s.res) : x ∈ s'.res := by
  cases e with
  | next =>
      rw [step] at hstep
      split at hstep
      next => cases hstep
      next task posted _ =>
        cases hstep
        cases task with
        | enqueue startElts => exact mem_res_enqueueAll hx
        | spawnWorker elt => exact hx
        | call elt => exact hx
        | handler ex => exact hx
  | returned elt =>
      rw [step] at hstep
      split at hstep
      next =>
        cases hstep
        rw [res_onWorkDone]
        exact mem_res_enqueueAll hx
      next => cases hstep
  | failed elt ex =>
      rw [step] at hstep
      split at hstep
      next =>
        cases hstep
        rw [res_onWorkDone]
        exact hx
      next => cases hstep

section Runs

variable (hlimit : 0 < maxConcurrent) (hnew : ∃ x ∈ startElts, x ∉ res)
include hlimit hnew

theorem ran_start {s' : State α ε} {e : Event α ε}
    (hstep : step maxConcurrent edges (computeClosure startElts res) e = some s') : s'.Ran := by
  have hne : startElts ≠ [] := List.ne_nil_of_mem hnew.choose_spec.1
  have hempty : ({ res } : State α ε).Counted 0 := ⟨rfl, rfl, fun hne => absurd rfl hne, rfl⟩
  obtain ⟨hcounted, hhandlers⟩ := hempty.enqueueAll hlimit startElts
  have hpending : 0 < (({ res } : State α ε).enqueueAll maxConcurrent startElts).pending :=
    State.pending_enqueueAll rfl (.inr hnew)
  rw [step_start hne hstep]
  refine ⟨hcounted, ?_, fun hsome => ?_⟩
  · rw [hhandlers, if_neg (Nat.ne_of_gt hpending)]
    rfl
  · rw [error_enqueueAll] at hsome
    cases hsome

theorem started_or_ran
    (h : Reaches (step maxConcurrent edges) ok (computeClosure startElts res) s) :
    s = computeClosure startElts res ∨ s.Ran := by
  refine h.invariant (I := fun s => s = computeClosure startElts res ∨ s.Ran) (.inl rfl)
    fun s e s' hs _ hstep => ?_
  rcases hs with rfl | hran
  · exact .inr (ran_start hlimit hnew hstep)
  · exact .inr (hran.step hlimit hstep)

theorem started_or_found
    (h : Reaches (step maxConcurrent edges) NoneFails (computeClosure startElts res) s) :
    s = computeClosure startElts res ∨ s.Ran ∧ s.Found edges startElts res [] ∧
      ∀ x ∈ startElts, x ∈ s.res := by
  refine h.invariant (I := fun s => s = computeClosure startElts res ∨ s.Ran ∧
    s.Found edges startElts res [] ∧ ∀ x ∈ startElts, x ∈ s.res) (.inl rfl)
    fun s e s' hs hok hstep => ?_
  rcases hs with rfl | ⟨hran, hfound, hstart⟩
  · have hran := ran_start hlimit hnew hstep
    have hempty : ({ res } : State α ε).Found edges startElts res [] := by
      refine ⟨rfl, fun ex hex => absurd hex List.not_mem_nil, fun x hx => hx, fun x hx => .inl hx,
        fun x hx => ?_, fun x hx => .inl hx⟩
      rcases hx with hx | hx | hx
      · cases hx
      · cases hx
      · cases hx
    have helts : ∀ elt ∈ startElts, Closed edges startElts res elt :=
      fun elt helt => .inr ⟨elt, helt, .refl⟩
    obtain ⟨hfound, hstart, -⟩ := hempty.enqueueAll maxConcurrent helts
    rw [step_start (List.ne_nil_of_mem hnew.choose_spec.1) hstep] at hran ⊢
    exact .inr ⟨hran, hfound, hstart⟩
  · refine .inr ⟨hran.step hlimit hstep, hfound.step hran.counted.started hok hstep, ?_⟩
    exact fun x hx => mem_res_step hstep (hstart x hx)

end Runs

theorem State.Ran.pending_of_stuck (h : s.Ran)
    (hstuck : ∀ e, Closure.step maxConcurrent edges s e = none) :
    s.posted = [] ∧ s.running = [] ∧ s.todo = [] ∧ s.pending = 0 := by
  have hposted : s.posted = [] := by
    have hnext := hstuck .next
    rw [Closure.step] at hnext
    split at hnext
    next hnil => exact hnil
    next => cases hnext
  have hrunning : s.running = [] := by
    cases hrunning : s.running with
    | nil => rfl
    | cons elt rest =>
        have hreturned := hstuck (.returned elt)
        rw [Closure.step, if_pos (hrunning ▸ List.mem_cons_self)] at hreturned
        cases hreturned
  have hworkers : s.workers = [] := by
    rw [workers, hposted, hrunning]
    rfl
  have htodo : s.todo = [] := by
    by_contra hne
    have hpos := h.counted.todo hne
    rw [hworkers] at hpos
    exact Nat.lt_irrefl 0 hpos
  refine ⟨hposted, hrunning, htodo, ?_⟩
  have hpending := h.counted.pending
  rwa [hworkers, htodo] at hpending

omit [DecidableEq α] in
theorem State.Ran.atEnd (h : s.Ran) (hhandled : s.handled ≠ []) :
    s.running = [] ∧ s.posted = [] := by
  have hlength := h.handlers
  have hpos := List.length_pos_of_ne_nil hhandled
  rw [State.handlers, List.length_append] at hlength
  have hpending : s.pending = 0 := by
    by_contra hne
    rw [if_neg hne] at hlength
    omega
  rw [if_pos hpending] at hlength
  have hcount := h.counted.pending
  rw [hpending, workers, List.length_append, List.length_append] at hcount
  have hcalls : s.posted.filterMap Task.call? = [] := List.length_eq_zero_iff.mp (by omega)
  have hspawns : s.posted.filterMap Task.spawn? = [] := List.length_eq_zero_iff.mp (by omega)
  have hrest : s.posted.filterMap Task.handler? = [] := List.length_eq_zero_iff.mp (by omega)
  refine ⟨List.length_eq_zero_iff.mp (by omega), ?_⟩
  cases hposted : s.posted with
  | nil => rfl
  | cons task posted =>
      have hstarted := h.counted.started
      rw [hposted, filterMap_head] at hcalls hspawns hrest hstarted
      cases task with
      | enqueue startElts => cases hstarted
      | spawnWorker elt => cases hspawns
      | call elt => cases hcalls
      | handler ex => cases hrest

theorem State.Ran.once (h : s.Ran) (hstuck : ∀ e, Closure.step maxConcurrent edges s e = none) :
    s.handlers = s.handled ∧ s.handled.length = 1 := by
  obtain ⟨hposted, -, -, hpending⟩ := h.pending_of_stuck hstuck
  have hhandlers : s.handlers = s.handled := by
    rw [State.handlers, hposted]
    exact List.append_nil _
  have hlength := h.handlers
  rw [if_pos hpending, hhandlers] at hlength
  exact ⟨hhandlers, hlength⟩

theorem State.Found.closed_iff (h : s.Found edges startElts res []) (hran : s.Ran)
    (hstart : ∀ x ∈ startElts, x ∈ s.res)
    (hstuck : ∀ e, Closure.step maxConcurrent edges s e = none) (x : α) :
    x ∈ s.res ↔ Closed edges startElts res x := by
  obtain ⟨hposted, hrunning, htodo, -⟩ := hran.pending_of_stuck hstuck
  refine ⟨h.sound x, fun hclosed => ?_⟩
  rcases hclosed with hinit | ⟨a, ha, hpath⟩
  · exact h.initial x hinit
  · induction hpath with
    | refl => exact hstart a ha
    | tail _ hedge ih =>
        rcases h.done _ ih with hinit | (hw | hw | hw) | hdone
        · exact absurd hinit hedge.1
        · rw [mem_workers, hposted, hrunning] at hw
          simp at hw
        · rw [htodo] at hw
          cases hw
        · cases hw
        · exact hdone _ hedge.2

theorem posted_or_handled
    (h : Reaches (step maxConcurrent edges) ok (computeClosure [] res) s) :
    s = computeClosure [] res ∨
      s = { res, workGuard := false, posted := [], handled := [none] } := by
  refine h.invariant (I := fun s => s = computeClosure [] res ∨
    s = { res, workGuard := false, posted := [], handled := [none] }) (.inl rfl)
    fun s e s' hs _ hstep => ?_
  rcases hs with rfl | rfl
  · cases e with
    | next =>
        cases hstep
        exact .inr rfl
    | returned elt => cases hstep
    | failed elt ex => cases hstep
  · cases e with
    | next => cases hstep
    | returned elt => cases hstep
    | failed elt ex => cases hstep

theorem computesClosure_nil : ComputesClosure ε maxConcurrent edges [] res := by
  have hended : ∀ (ok : State α ε → Event α ε → Prop) (s : State α ε),
      Reaches (step maxConcurrent edges) ok (computeClosure [] res) s →
        (∀ e, step maxConcurrent edges s e = none) →
          s = { res, workGuard := false, posted := [], handled := [none] } := by
    intro ok s hs hstuck
    refine (posted_or_handled hs).resolve_left ?_
    rintro rfl
    cases hstuck .next
  refine ⟨fun s hs hhandled => ?_, fun s hs hstuck => ?_, fun s hs hstuck => ?_⟩
  · rcases posted_or_handled hs with rfl | rfl
    · exact absurd rfl hhandled
    · exact ⟨rfl, rfl⟩
  · rw [hended _ s hs hstuck]
    rfl
  · rw [hended _ s hs hstuck]
    refine ⟨rfl, fun x => ⟨.inl, fun hclosed => hclosed.resolve_right ?_⟩⟩
    rintro ⟨a, ha, -⟩
    cases ha

theorem idle_enqueueAll {elts : List α} {s : State α ε}
    (h : maxConcurrent = 0 ∨ ∀ x ∈ elts, x ∈ s.res) :
    (s.enqueueAll maxConcurrent elts).posted = s.posted ∧
      (s.enqueueAll maxConcurrent elts).running = s.running ∧
        (s.enqueueAll maxConcurrent elts).handled = s.handled := by
  induction elts generalizing s with
  | nil => exact ⟨rfl, rfl, rfl⟩
  | cons elt elts ih =>
      have hrest : maxConcurrent = 0 ∨ ∀ x ∈ elts, x ∈ (s.enqueue maxConcurrent elt).res := by
        refine h.imp_right fun hall x hx => ?_
        have hmem := hall x (List.mem_cons_of_mem _ hx)
        exact (mem_res_enqueueAll hmem : x ∈ (s.enqueueAll maxConcurrent [elt]).res)
      obtain ⟨hposted, hrunning, hhandled⟩ := ih hrest
      have hidle : (s.enqueue maxConcurrent elt).posted = s.posted ∧
          (s.enqueue maxConcurrent elt).running = s.running ∧
            (s.enqueue maxConcurrent elt).handled = s.handled := by
        obtain ⟨heq, -⟩ | ⟨-, hnew, hfree, heq⟩ | ⟨-, -, -, heq⟩ :=
          State.enqueue_cases maxConcurrent s elt
        · rw [heq]
          exact ⟨rfl, rfl, rfl⟩
        · rcases h with rfl | hall
          · exact absurd hfree (Nat.not_lt_zero _)
          · exact absurd (hall elt List.mem_cons_self) hnew
        · rw [heq]
          exact ⟨rfl, rfl, rfl⟩
      exact ⟨hposted.trans hidle.1, hrunning.trans hidle.2.1, hhandled.trans hidle.2.2⟩

/-- The handler is lost when all start elements are in the set already, and when no call may run
at all. -/
theorem computesClosure_iff : ComputesClosure ε maxConcurrent edges startElts res ↔
    startElts = [] ∨ 0 < maxConcurrent ∧ ∃ x ∈ startElts, x ∉ res := by
  constructor
  · intro h
    by_contra hnot
    rw [not_or] at hnot
    obtain ⟨hne, hnot⟩ := hnot
    have hidle : maxConcurrent = 0 ∨ ∀ x ∈ startElts, x ∈ res := by
      by_contra hbusy
      push Not at hbusy
      exact hnot ⟨Nat.pos_of_ne_zero hbusy.1, hbusy.2⟩
    obtain ⟨hposted, hrunning, hhandled⟩ := idle_enqueueAll (s := ({ res } : State α ε)) hidle
    have hstep : step maxConcurrent edges (computeClosure startElts res : State α ε) .next =
        some (({ res } : State α ε).enqueueAll maxConcurrent startElts) := by
      rw [computeClosure, if_neg hne]
      rfl
    have honce := h.once _ (Reaches.start.next trivial hstep) fun e => by
      cases e with
      | next => rw [step, hposted]
      | returned elt => exact if_neg (by simp [hrunning])
      | failed elt ex => exact if_neg (by simp [hrunning])
    rw [hhandled] at honce
    cases honce
  · rintro (rfl | ⟨hlimit, hnew⟩)
    · exact computesClosure_nil
    · have hne : startElts ≠ [] := List.ne_nil_of_mem hnew.choose_spec.1
      have hstarted : ∀ hstuck : ∀ e, step maxConcurrent edges
          (computeClosure startElts res : State α ε) e = none, False := by
        intro hstuck
        have hnext := hstuck .next
        rw [computeClosure, if_neg hne] at hnext
        cases hnext
      refine ⟨fun s hs hhandled => ?_, fun s hs hstuck => ?_, fun s hs hstuck => ?_⟩
      · rcases started_or_ran hlimit hnew hs with rfl | hran
        · rw [computeClosure, if_neg hne] at hhandled
          exact absurd rfl hhandled
        · exact hran.atEnd hhandled
      · rcases started_or_ran hlimit hnew hs with rfl | hran
        · exact (hstarted hstuck).elim
        · exact (hran.once hstuck).2
      · rcases started_or_found hlimit hnew hs with rfl | ⟨hran, hfound, hstart⟩
        · exact (hstarted hstuck).elim
        · obtain ⟨hhandlers, hlength⟩ := hran.once hstuck
          obtain ⟨ex, hex⟩ := List.length_eq_one_iff.mp hlength
          refine ⟨?_, hfound.closed_iff hran hstart hstuck⟩
          have hnone := hfound.handlers ex (by rw [hhandlers, hex]; exact List.mem_cons_self)
          rw [hex, hnone]

/-- The handler is never invoked for a start element that is in the set already. -/
theorem not_computesClosure_known :
    ¬ComputesClosure Unit 1024 (fun _ : Nat => []) [0] [0] := by
  intro h
  have hstep : step 1024 (fun _ => []) (computeClosure [0] [0] : State Nat Unit) .next =
      some { res := [0] } := rfl
  have honce := h.once _ (Reaches.start.next trivial hstep) fun e => by
    cases e with
    | next => rfl
    | returned elt => rfl
    | failed elt ex => rfl
  cases honce

end Nix.Util.Closure
