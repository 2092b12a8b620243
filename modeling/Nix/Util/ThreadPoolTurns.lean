import Nix.Util.ThreadPoolMoves

/-!
What a step of a thread does.
-/

set_option linter.dupNamespace false

namespace Nix.Util.ThreadPools

variable {α : Type}

/-- What a thread finds when it looks for work, and where the threads are then. -/
inductive Awaits (s : State α) (threads : List (Pc α)) : Pc α → State α → Prop
  | leave (hquit : s.quit = true) : Awaits s threads .returned s
  | take (node : α) (pending : List α) (hquit : s.quit = false)
      (hpending : s.pending = node :: pending) :
      Awaits s threads (.starting node) { s with pending, active := s.active + 1 }
  | conclude (hquit : s.quit = false) (hpending : s.pending = []) (hactive : s.active = 0)
      (hdraining : s.draining = true) (hwake : .waiting ∉ threads) :
      Awaits s threads .returned { s with quit := true }
  | wait (hquit : s.quit = false) (hpending : s.pending = [])
      (hother : s.active ≠ 0 ∨ s.draining = false) : Awaits s threads .waiting s

/-- Once `quit` is set, all that a thread finds is that. -/
theorem Awaits.facts {s base : State α} {threads : List (Pc α)} {t : Pc α}
    (h : Awaits s threads t base) :
    t.isMain = false ∧ base.draining = s.draining ∧
      (s.quit = true → t = .returned ∧ base = s) := by
  have hnot : s.quit = false → s.quit = true → t = .returned ∧ base = s := by
    intro hfalse htrue
    rw [hfalse] at htrue
    cases htrue
  cases h with
  | leave hquit => exact ⟨rfl, rfl, fun _ => ⟨rfl, rfl⟩⟩
  | take node pending hquit hpending => exact ⟨rfl, rfl, hnot hquit⟩
  | conclude hquit hpending hactive hdraining hwake => exact ⟨rfl, rfl, hnot hquit⟩
  | wait hquit hpending hother => exact ⟨rfl, rfl, hnot hquit⟩

variable [DecidableEq α]

/-- A thread goes from where it is to the next point, in the state without the threads. -/
inductive Turn (job : Job α) (s : State α) (i : Nat) (threads : List (Pc α)) :
    Pc α → Pc α → State α → Prop
  | enqueue (node : α) (nodes : List α) (hquit : s.quit = false) :
      Turn job s i threads (.enqueueing (node :: nodes)) (.enqueueing nodes)
        { s with pending := s.pending ++ [node] }
  | enqueued (nodes : List α) (hnodes : nodes = [] ∨ s.quit = true) :
      Turn job s i threads (.enqueueing nodes) .draining s
  | drain : Turn job s i threads .draining (.locking none) { s with draining := true }
  | await {t t' : Pc α} {base : State α} (ht : t.IsIdle) (h : Awaits s threads t' base) :
      Turn job s i threads t t' base
  | account {t' : Pc α} {base : State α} (threw : Bool)
      (hwake : (s.account threw).quit = true → s.quit = false → .waiting ∉ threads)
      (h : Awaits (s.account threw) threads t' base) :
      Turn job s i threads (.locking (some threw)) t' base
  | start (node : α) (hrefs : s.refs node = none) :
      Turn job s i threads (.starting node) (.gettingEdges node) s
  | restart (node : α) (hrefs : s.refs node = some ∅) :
      Turn job s i threads (.starting node) (.ready node) s
  | getEdges (node : α) : Turn job s i threads (.gettingEdges node) (.linking node) s
  | link (node : α) (hfree : s.GraphFree) (hrefs : (s.link job node).refs node = some ∅) :
      Turn job s i threads (.linking node) (.ready node) (s.link job node)
  | block (node : α) (hfree : s.GraphFree) (hrefs : (s.link job node).refs node ≠ some ∅) :
      Turn job s i threads (.linking node) (.locking (some false)) (s.link job node)
  | process (node : α) :
      Turn job s i threads (.ready node) (.processing node)
        { s with log := s.log ++ [.started node] }
  | processed (node : α) :
      Turn job s i threads (.processing node) (.acquiring node)
        { s with log := s.log ++ [.ended node] }
  | acquire (node : α) (hfree : s.GraphFree) :
      Turn job s i threads (.acquiring node) (.releasing node (s.rrefs node)) s
  | erase (node : α) :
      Turn job s i threads (.releasing node ∅) (.locking (some false)) (s.erase node)
  | unlink (node rref : α) (refs rrefs : Finset α) (hmem : rref ∈ rrefs)
      (hrefs : s.refs rref = some refs) (hne : refs.erase node ≠ ∅) :
      Turn job s i threads (.releasing node rrefs) (.releasing node (rrefs.erase rref))
        { s with refs := Function.update s.refs rref (some (refs.erase node)) }
  | unblock (node rref : α) (refs rrefs : Finset α) (hmem : rref ∈ rrefs)
      (hrefs : s.refs rref = some refs) (hempty : refs.erase node = ∅) (hquit : s.quit = false) :
      Turn job s i threads (.releasing node rrefs) (.releasing node (rrefs.erase rref))
        { s with
          pending := s.pending ++ [rref]
          refs := Function.update s.refs rref (some (refs.erase node)) }
  | refuse (node rref : α) (refs rrefs : Finset α) (hmem : rref ∈ rrefs)
      (hrefs : s.refs rref = some refs) (hempty : refs.erase node = ∅) (hquit : s.quit = true) :
      Turn job s i threads (.releasing node rrefs) (.locking (some true))
        { s with refs := Function.update s.refs rref (some (refs.erase node)) }
  | throw (t : Pc α) (node : α) (ht : t = .gettingEdges node ∨ t = .processing node) :
      Turn job s i threads t (.locking (some true)) { s with failed := true }
  | wakeup : Turn job s i threads .waiting .notified s
  | examine (hmain : i = 0) (hquit : s.quit = true) (hexception : s.exception = false) :
      Turn job s i threads .returned .examining s
  | rethrow (hmain : i = 0) (hquit : s.quit = true) (hexception : s.exception = true) :
      Turn job s i threads .returned (.joining .rethrown) { s with quit := true }
  | examined :
      Turn job s i threads .examining (.joining (if s.left = ∅ then .returned else .incomplete))
        { s with quit := true }
  | join (outcome : Outcome) (hreturned : ∀ w ∈ threads.tail, w = .returned) :
      Turn job s i threads (.joining outcome) (.finished outcome) s

/-- A step is a turn of some thread. -/
structure Turns (job : Job α) (s s' : State α) (i : Nat) (t t' : Pc α) (base : State α) : Prop where
  moved : Moved t t' i s.threads s'.threads
  turn : Turn job s i s'.threads t t' base
  state : s' = { base with threads := s'.threads }
  /-- Others are woken up or started only because of a work item, or of `quit`. -/
  alone : s'.quit = s.quit → s'.pending.length ≤ s.pending.length → s'.threads = s.threads.set i t'
  bound : s'.threads.length ≤ max s.threads.length job.maxThreads

variable {job : Job α} {s s' : State α} {i j : Nat} {t t' : Pc α}

omit [DecidableEq α] in
theorem Pc.isReturned_iff : t.isReturned = true ↔ t = .returned := by
  cases t <;> first | exact iff_of_true rfl rfl | exact iff_of_false nofun nofun

omit [DecidableEq α] in
theorem tail_set_zero (l : List (Pc α)) : (l.set 0 t).tail = l.tail := by
  cases l with
  | nil => rfl
  | cons u l => rfl

theorem Turns.goTo {b : State α} (hi : s.threads[i]? = some t) (hbase : b.threads = s.threads)
    (h : Turn job s i (b.goTo i t').threads t t' b) :
    Turns job s (b.goTo i t') i t t' b where
  moved := by
    rw [State.goTo, hbase]
    exact .set hi
  turn := h
  state := rfl
  alone _ _ := by rw [State.goTo, hbase]
  bound := by
    rw [State.goTo, hbase, List.length_set]
    exact Nat.le_max_left _ _

omit [DecidableEq α] in
theorem map_wake_eq {l : List (Pc α)} (h : .waiting ∉ l) : l.map Pc.wake = l := by
  refine (List.map_congr_left fun u hu => ?_).trans l.map_id
  cases u with
  | waiting => exact absurd hu h
  | _ => rfl

theorem Turns.notifyAll {b : State α} (hi : s.threads[i]? = some t)
    (hbase : b.threads = s.threads) (hquit : b.quit = true)
    (hnone : s.quit = true → .waiting ∉ s.threads) (ht' : t'.wake = t')
    (h : Turn job s i (b.notifyAll.goTo i t').threads t t' b) :
    Turns job s (b.notifyAll.goTo i t') i t t' b where
  moved := by
    rw [State.goTo, State.notifyAll, hbase]
    have hmoved : Moved t t' i s.threads ((s.threads.set i t').map Pc.wake) :=
      (Moved.set hi).map_wake ht'
    rw [List.map_set, ht'] at hmoved
    exact hmoved
  turn := h
  state := rfl
  alone hsame _ := by
    have hquit' : s.quit = true := hsame.symm.trans hquit
    rw [State.goTo, State.notifyAll, hbase, map_wake_eq (hnone hquit')]
  bound := by
    rw [State.goTo, State.notifyAll, hbase, List.length_set, List.length_map]
    exact Nat.le_max_left _ _

theorem Turns.enqueue {b : State α} {node : α} (hi : s.threads[i]? = some t)
    (hbase : b.threads = s.threads) (hpending : b.pending = s.pending) (ht' : t' ≠ .waiting)
    (h : (b.goTo i t').enqueue job.maxThreads node j = some s')
    (hturn : Turn job s i s'.threads t t' { b with pending := b.pending ++ [node] }) :
    Turns job s s' i t t' { b with pending := b.pending ++ [node] } := by
  rw [State.enqueue] at h
  obtain ⟨threads, hthreads⟩ : ∃ threads, threads =
      if (b.goTo i t').threads.length < ((b.goTo i t').pending ++ [node]).length ∧
          (b.goTo i t').threads.length < job.maxThreads then
        (b.goTo i t').threads ++ [.locking none]
      else (b.goTo i t').threads := ⟨_, rfl⟩
  simp only [← hthreads] at h
  have hmoved : Moved t t' i s.threads threads ∧
      threads.length ≤ max s.threads.length job.maxThreads := by
    rw [hthreads, State.goTo, hbase]
    split
    next hlt =>
      refine ⟨.append_spawn hi, ?_⟩
      rw [List.length_append, List.length_singleton]
      exact hlt.2.trans_le (Nat.le_max_right _ _)
    next =>
      refine ⟨.set hi, ?_⟩
      rw [List.length_set]
      exact Nat.le_max_left _ _
  have hmore : ¬(b.pending ++ [node]).length ≤ s.pending.length := by
    rw [hpending, List.length_append, List.length_singleton]
    omega
  rw [State.notifyOne] at h
  split at h
  next =>
    split at h
    next hj =>
      cases h
      refine ⟨hmoved.1.notify ht' hj, hturn, rfl, fun _ hle => absurd hle hmore, ?_⟩
      rw [State.goTo, List.length_set]
      exact hmoved.2
    next => cases h
  next =>
    cases h
    exact ⟨hmoved.1, hturn, rfl, fun _ hle => absurd hle hmore, hmoved.2⟩

omit [DecidableEq α] in
theorem Awaits.of_await {s base : State α} (hi : s.threads[i]? = some t)
    (hbase : base.threads = s.threads ∨ base.quit = true ∧ base.threads = s.threads.map Pc.wake)
    (hnone : s.quit = true → .waiting ∉ s.threads) :
    ∃ t' base', Awaits base (base.await i).threads t' base' ∧
      Moved t t' i s.threads (base.await i).threads ∧
      base.await i = { base' with threads := (base.await i).threads } ∧
      ((base.await i).quit = s.quit → (base.await i).threads = s.threads.set i t') ∧
      (base.await i).threads.length = s.threads.length := by
  have hset : base.threads = s.threads → ∀ t', Moved t t' i s.threads (base.threads.set i t') ∧
      (base.threads.set i t').length = s.threads.length := by
    intro heq t'
    rw [heq]
    exact ⟨.set hi, List.length_set⟩
  rw [State.await]
  split
  next hquit =>
    refine ⟨.returned, base, .leave hquit, ?_, rfl, fun hsame => ?_, ?_⟩
    · rw [State.goTo]
      rcases hbase with hbase | ⟨-, hbase⟩
      · exact (hset hbase _).1
      · have hmoved : Moved t .returned i s.threads ((s.threads.set i .returned).map Pc.wake) :=
          (Moved.set hi).map_wake rfl
        rw [List.map_set] at hmoved
        rw [hbase]
        exact hmoved
    · rw [State.goTo]
      rcases hbase with hbase | ⟨-, hbase⟩
      · rw [hbase]
      · rw [hbase, map_wake_eq (hnone (hsame.symm.trans hquit))]
    · rw [State.goTo, List.length_set]
      rcases hbase with hbase | ⟨-, hbase⟩
      · rw [hbase]
      · rw [hbase, List.length_map]
  next hquit =>
    have hsame : base.threads = s.threads := hbase.resolve_right fun h => hquit h.1
    rw [Bool.not_eq_true] at hquit
    split
    next node pending hpending =>
      obtain ⟨hmoved, hlength⟩ := hset hsame (.starting node)
      refine ⟨_, _, .take node pending hquit hpending, hmoved, rfl, fun _ => ?_, hlength⟩
      rw [State.goTo, hsame]
    next hpending =>
      split
      next hdone =>
        refine ⟨.returned, _, .conclude hquit hpending hdone.1 hdone.2 ?_, ?_, rfl, fun heq => ?_, ?_⟩
        · intro hin
          rcases List.mem_or_eq_of_mem_set hin with hin | heq
          · exact waiting_notMem_map_wake base.threads hin
          · cases heq
        · have hmoved : Moved t .returned i s.threads ((s.threads.set i .returned).map Pc.wake) :=
            (Moved.set hi).map_wake rfl
          rw [List.map_set] at hmoved
          rw [State.goTo, State.notifyAll, hsame]
          exact hmoved
        · rw [State.goTo, State.notifyAll, hsame, map_wake_eq (hnone heq.symm)]
        · rw [State.goTo, State.notifyAll, List.length_set, List.length_map, hsame]
      next hdone =>
        obtain ⟨hmoved, hlength⟩ := hset hsame .waiting
        refine ⟨_, _, .wait hquit hpending ?_, hmoved, rfl, fun _ => ?_, hlength⟩
        · rw [not_and_or, Bool.not_eq_true] at hdone
          exact hdone
        · rw [State.goTo, hsame]

theorem Turns.await (hi : s.threads[i]? = some t) (hnone : s.quit = true → .waiting ∉ s.threads)
    (ht : t.IsIdle) : ∃ t' base, Turns job s (s.await i) i t t' base := by
  obtain ⟨t', base, hawaits, hmoved, hstate, halone, hlength⟩ := Awaits.of_await hi (.inl rfl) hnone
  exact ⟨t', base, hmoved, .await ht hawaits, hstate, fun hquit _ => halone hquit,
    hlength.trans_le (Nat.le_max_left _ _)⟩

theorem Turns.account {threw : Bool} (hi : s.threads[i]? = some (.locking (some threw)))
    (hnone : s.quit = true → .waiting ∉ s.threads) :
    ∃ t' base, Turns job s ((s.account threw).await i) i (.locking (some threw)) t' base := by
  have hcases : (s.account threw).threads = s.threads ∧ (s.account threw).quit = s.quit ∨
      (s.account threw).quit = true ∧ (s.account threw).threads = s.threads.map Pc.wake := by
    rw [State.account]
    split
    next => exact .inr ⟨rfl, rfl⟩
    next => exact .inl ⟨rfl, rfl⟩
  obtain ⟨t', base, hawaits, hmoved, hstate, halone, hlength⟩ :=
    Awaits.of_await hi (hcases.imp_left And.left) hnone
  refine ⟨t', base, hmoved, .account threw ?_ hawaits, hstate, fun hquit _ => halone hquit,
    hlength.trans_le (Nat.le_max_left _ _)⟩
  intro hquit hnot hin
  rcases hcases with ⟨-, hsame⟩ | ⟨-, hthreads⟩
  · rw [hsame, hnot] at hquit
    cases hquit
  · rw [State.await, if_pos hquit, State.goTo, hthreads] at hin
    rcases List.mem_or_eq_of_mem_set hin with hin | heq
    · exact waiting_notMem_map_wake s.threads hin
    · cases heq

theorem PoolOk.pcOk (h : PoolOk job s s.threads) (hi : s.threads[i]? = some t)
    (ht : t.isBusy = true) : PcOk s t :=
  h.graph.threads t (List.mem_filter.mpr ⟨List.mem_of_getElem? hi, ht⟩)

theorem PoolOk.turns_run (h : PoolOk job s s.threads) (hi : s.threads[i]? = some t)
    (hmain : t.isMain = true → i = 0)
    (hrun : run job s i j t = some s') : ∃ t' base, Turns job s s' i t t' base := by
  cases t with
  | enqueueing nodes =>
      cases nodes with
      | nil =>
          cases hrun
          exact ⟨_, s, .goTo hi rfl (.enqueued [] (.inl rfl))⟩
      | cons node nodes =>
          rw [run] at hrun
          split at hrun
          next hquit =>
            cases hrun
            exact ⟨_, s, .goTo hi rfl (.enqueued _ (.inr hquit))⟩
          next hquit =>
            rw [Bool.not_eq_true] at hquit
            exact ⟨.enqueueing nodes, _, .enqueue hi rfl rfl nofun hrun (.enqueue node nodes hquit)⟩
  | draining =>
      cases hrun
      exact ⟨_, _, .goTo hi rfl .drain⟩
  | locking worked =>
      cases worked with
      | none =>
          cases hrun
          exact Turns.await hi h.waiting (.inl rfl)
      | some threw =>
          cases hrun
          exact Turns.account hi h.waiting
  | waiting => cases hrun
  | notified =>
      cases hrun
      exact Turns.await hi h.waiting (.inr rfl)
  | returned =>
      have hquit := h.returned (List.mem_of_getElem? hi)
      rw [run] at hrun
      split at hrun
      next => cases hrun
      next hi' =>
        obtain rfl := not_not.mp hi'
        split at hrun
        next hexception =>
          cases hrun
          exact ⟨_, _, .notifyAll (b := { s with quit := true }) hi rfl rfl h.waiting
            rfl (.rethrow rfl hquit hexception)⟩
        next hexception =>
          cases hrun
          rw [Bool.not_eq_true] at hexception
          exact ⟨_, s, .goTo hi rfl (.examine rfl hquit hexception)⟩
  | starting node =>
      rw [run] at hrun
      split at hrun
      next =>
        cases hrun
        split
        next hrefs => exact ⟨_, s, .goTo hi rfl (.start node hrefs)⟩
        next hrefs =>
          have hok : Startable s node := h.pcOk hi rfl
          exact ⟨_, s, .goTo hi rfl (.restart node (hok.1.resolve_left hrefs))⟩
      next => cases hrun
  | gettingEdges node =>
      cases hrun
      exact ⟨_, s, .goTo hi rfl (.getEdges node)⟩
  | linking node =>
      rw [run] at hrun
      split at hrun
      next hfree =>
        cases hrun
        split
        next hrefs => exact ⟨_, _, .goTo hi rfl (.link node hfree hrefs)⟩
        next hrefs => exact ⟨_, _, .goTo hi rfl (.block node hfree hrefs)⟩
      next => cases hrun
  | ready node =>
      cases hrun
      exact ⟨_, _, .goTo hi rfl (.process node)⟩
  | processing node =>
      cases hrun
      exact ⟨_, _, .goTo hi rfl (.processed node)⟩
  | acquiring node =>
      rw [run] at hrun
      split at hrun
      next hfree =>
        cases hrun
        exact ⟨_, s, .goTo hi rfl (.acquire node hfree)⟩
      next => cases hrun
  | releasing node rrefs =>
      rw [run] at hrun
      split at hrun
      next hempty =>
        cases hrun
        rw [hempty] at hi ⊢
        exact ⟨_, _, .goTo hi rfl (.erase node)⟩
      next => cases hrun
  | examining =>
      obtain rfl := hmain rfl
      rw [run] at hrun
      split at hrun
      next =>
        cases hrun
        exact ⟨_, _, .notifyAll (b := { s with quit := true }) hi rfl rfl h.waiting rfl .examined⟩
      next => cases hrun
  | joining outcome =>
      obtain rfl := hmain rfl
      rw [run] at hrun
      split at hrun
      next hall =>
        cases hrun
        refine ⟨_, s, .goTo hi rfl (.join outcome fun w hw => ?_)⟩
        rw [State.goTo, tail_set_zero] at hw
        exact Pc.isReturned_iff.mp (List.all_eq_true.mp hall w hw)
      next => cases hrun
  | finished outcome => cases hrun
  | aborted => cases hrun

theorem PoolOk.turns_release {node rref : α} {rrefs : Finset α} (h : PoolOk job s s.threads)
    (hi : s.threads[i]? = some (.releasing node rrefs)) (hmem : rref ∈ rrefs)
    (hrelease : release job s i j rref node rrefs = some s') :
    ∃ t' base, Turns job s s' i (.releasing node rrefs) t' base := by
  obtain ⟨-, -, hwaits⟩ : PcOk s (.releasing node rrefs) := h.pcOk hi rfl
  obtain ⟨refs, hrefs, hnode⟩ := (hwaits rref).mp hmem
  rw [release, hrefs] at hrelease
  simp only [if_pos hnode] at hrelease
  split at hrelease
  next hempty =>
    split at hrelease
    next hquit =>
      cases hrelease
      exact ⟨_, _, .goTo hi rfl (.refuse node rref refs rrefs hmem hrefs hempty hquit)⟩
    next hquit =>
      rw [Bool.not_eq_true] at hquit
      exact ⟨.releasing node (rrefs.erase rref), _, .enqueue
        (b := { s with refs := Function.update s.refs rref (some (refs.erase node)) }) hi rfl rfl nofun
        hrelease (.unblock node rref refs rrefs hmem hrefs hempty hquit)⟩
  next hne =>
    cases hrelease
    exact ⟨_, _, .goTo hi rfl (.unlink node rref refs rrefs hmem hrefs hne)⟩

theorem PoolOk.turns {e : Event α} (h : PoolOk job s s.threads)
    (hmain : ∀ i t, s.threads[i]? = some t → t.isMain = true → i = 0) (hstep : step job s e = some s') :
    ∃ i t t' base, Turns job s s' i t t' base ∧ (e.isWakeup = false → t ≠ .waiting) := by
  cases e with
  | run i j =>
      obtain ⟨t, hi, hrun⟩ := Option.bind_eq_some_iff.mp hstep
      obtain ⟨t', base, hturns⟩ := h.turns_run hi (hmain i t hi) hrun
      refine ⟨i, t, t', base, hturns, fun _ heq => ?_⟩
      rw [heq] at hrun
      cases hrun
  | release i j rref =>
      rw [step] at hstep
      split at hstep
      next node rrefs hi =>
        split at hstep
        next hmem =>
          obtain ⟨t', base, hturns⟩ := h.turns_release hi hmem hstep
          exact ⟨i, _, t', base, hturns, nofun⟩
        next => cases hstep
      next => cases hstep
  | throw i =>
      rw [step] at hstep
      split at hstep
      next node hi =>
        cases hstep
        exact ⟨i, _, _, _, .goTo (b := { s with failed := true }) hi rfl (.throw _ node (.inl rfl)),
          nofun⟩
      next node hi =>
        cases hstep
        exact ⟨i, _, _, _, .goTo (b := { s with failed := true }) hi rfl (.throw _ node (.inr rfl)),
          nofun⟩
      next => cases hstep
  | wakeup i =>
      rw [step] at hstep
      split at hstep
      next hi =>
        cases hstep
        exact ⟨i, _, _, s, .goTo hi rfl .wakeup, nofun⟩
      next => cases hstep

end Nix.Util.ThreadPools
