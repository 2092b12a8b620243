import Nix.Util.ThreadPoolTurns

/-!
What `processGraph` keeps, whatever its threads do.
-/

set_option linter.dupNamespace false

namespace Nix.Util.ThreadPools

open Lib.Transitions

variable {α : Type} [DecidableEq α]

/-- The invariant of the pool. -/
structure Invariant (job : Job α) (s : State α) : Prop where
  pool : PoolOk job s s.threads
  main : ∃ main workers, s.threads = main :: workers ∧ MainOk s main workers
  bound : s.threads.length ≤ max 1 job.maxThreads

variable {job : Job α} {s s' base : State α} {others threads : List (Pc α)} {i : Nat} {t t' : Pc α}

theorem PoolOk.congr (h : PoolOk job s others) :
    PoolOk job { s with threads } others :=
  ⟨h.graph.congr rfl rfl rfl rfl rfl rfl, h.active, h.waiting, h.returned, h.exception, h.failed,
    h.threw, h.quit, h.awake⟩

theorem PoolOk.await (h : PoolOk job s (t :: others)) (ht : t.IsIdle)
    (hearly : s.draining = false → ∃ u ∈ others, u ≠ .waiting)
    (hwake : .waiting ∉ threads → .waiting ∉ others) (hawaits : Awaits s threads t' base) :
    PoolOk job base (t' :: others) := by
  cases hawaits with
  | leave hquit => exact h.leave ht hquit
  | take node pending hquit hpending => exact h.take ht hquit hpending
  | conclude hquit hpending hactive hdraining hnot =>
      exact h.conclude ht hquit hpending hactive hdraining (hwake hnot)
  | wait hquit hpending hother => exact h.wait ht hquit (hother.imp_right hearly)

theorem PoolOk.turn (h : PoolOk job s (t :: others)) (ht : t ≠ .waiting)
    (hearly : t.isMain = false → s.draining = false → ∃ u ∈ others, u ≠ .waiting)
    (hwake : .waiting ∉ threads → .waiting ∉ others)
    (hfree : s.GraphFree → ∀ u ∈ others, u.isReleasing = false)
    (hexamining : t = .examining → s.quit = true)
    (hdraining : t.isEarly = true → s.draining = false)
    (hturn : Turn job s i threads t t' base) : PoolOk job base (t' :: others) := by
  have hgraph := h.graph
  have hzero : (∀ u ∈ others, u.isReleasing = false) →
      (others.filter Pc.isBusy).countP Pc.isReleasing = 0 := by
    intro hall
    rw [List.countP_eq_zero]
    intro u hu
    rw [hall u (List.mem_of_mem_filter hu)]
    exact Bool.false_ne_true
  cases hturn with
  | enqueue node nodes hquit =>
      refine h.move hgraph.enqueueNode rfl nofun nofun nofun rfl rfl rfl id ?_ id .inl nofun
      rw [hquit]
      nofun
  | enqueued nodes hnodes =>
      have hdrop : nodes = [] ∨ s.failed = true := by
        refine hnodes.imp_right fun hquit => ?_
        by_contra hfailed
        have hexception : s.exception = false := by
          rw [← Bool.not_eq_true]
          exact fun hexception => hfailed (h.exception hexception).2
        have htrue := (h.quit hquit hexception).2.2
        rw [hdraining rfl] at htrue
        cases htrue
      exact h.move (hgraph.drop hdrop) rfl nofun nofun nofun rfl rfl rfl id (fun _ => rfl) id .inl nofun
  | drain =>
      exact h.move ((hgraph.idle rfl rfl).congr rfl rfl rfl rfl rfl rfl) rfl nofun nofun nofun rfl rfl
        rfl (fun _ => rfl) (fun _ => rfl) id .inl nofun
  | await hidle hawaits =>
      refine h.await hidle (hearly ?_) hwake hawaits
      rcases hidle with rfl | rfl <;> rfl
  | account threw hnot hawaits =>
      refine (h.account fun hquit hq => hwake (hnot hquit hq)).await (.inl rfl) ?_ hwake hawaits
      intro hdraining
      rw [State.draining_account] at hdraining
      exact hearly rfl hdraining
  | start node hrefs =>
      obtain ⟨-, hstarted⟩ : Startable s node := (List.forall_mem_cons.mp hgraph.threads).1
      exact h.move (hgraph.move rfl ⟨hrefs, hstarted⟩ nofun nofun) rfl nofun nofun nofun rfl rfl rfl id
        (fun _ => rfl) id .inl nofun
  | restart node hrefs =>
      obtain ⟨-, hstarted⟩ : Startable s node := (List.forall_mem_cons.mp hgraph.threads).1
      exact h.move (hgraph.move rfl ⟨hrefs, hstarted⟩ nofun nofun) rfl nofun nofun nofun rfl rfl rfl id
        (fun _ => rfl) id .inl nofun
  | getEdges node =>
      have hok : PcOk s (.gettingEdges node) := (List.forall_mem_cons.mp hgraph.threads).1
      exact h.move (hgraph.move rfl hok nofun nofun) rfl nofun nofun nofun rfl rfl rfl id
        (fun _ => rfl) id .inl nofun
  | link node hgraphFree hrefs =>
      have hlink := hgraph.link fun u hu => hfree hgraphFree u (List.mem_of_mem_filter hu)
      rw [if_pos hrefs] at hlink
      exact h.move hlink rfl nofun nofun nofun rfl rfl rfl id (fun _ => rfl) id .inl nofun
  | block node hgraphFree hrefs =>
      have hlink := hgraph.link fun u hu => hfree hgraphFree u (List.mem_of_mem_filter hu)
      rw [if_neg hrefs] at hlink
      exact h.move hlink rfl nofun nofun nofun rfl rfl rfl id (fun _ => rfl) id .inl nofun
  | process node =>
      exact h.move hgraph.started rfl nofun nofun nofun rfl rfl rfl id (fun _ => rfl) id .inl nofun
  | processed node =>
      exact h.move hgraph.ended rfl nofun nofun nofun rfl rfl rfl id (fun _ => rfl) id .inl nofun
  | acquire node hgraphFree =>
      obtain ⟨hrefs, hended⟩ : PcOk s (.acquiring node) := (List.forall_mem_cons.mp hgraph.threads).1
      have hok : PcOk s (.releasing node (s.rrefs node)) := by
        refine ⟨hrefs, hended, fun m => ⟨fun hm => ?_, fun hm => ?_⟩⟩
        · exact (hgraph.rrefs node m hm).resolve_right fun hnot => hnot.2 List.mem_cons_self
        · obtain ⟨refs, hm, hnode⟩ := hm
          exact ((hgraph.refs m refs hm).2 node hnode).2.2
      exact h.move (hgraph.move rfl hok (fun _ => hzero (hfree hgraphFree)) nofun) rfl nofun nofun
        nofun rfl rfl rfl id (fun _ => rfl) id .inl nofun
  | erase node =>
      exact h.move hgraph.erase rfl nofun nofun nofun rfl rfl rfl id (fun _ => rfl) id .inl nofun
  | unlink node rref refs rrefs hmem hrefs hne =>
      exact h.move (hgraph.release hmem hrefs (.inl ⟨rfl, fun hempty => absurd hempty hne⟩)) rfl nofun
        nofun nofun rfl rfl rfl id (fun _ => rfl) id .inl nofun
  | unblock node rref refs rrefs hmem hrefs hempty hquit =>
      refine h.move (hgraph.release hmem hrefs (.inr ⟨rfl, hempty⟩)) rfl nofun nofun nofun rfl rfl rfl
        id ?_ id .inl nofun
      rw [hquit]
      nofun
  | refuse node rref refs rrefs hmem hrefs hempty hquit =>
      -- the pool shuts down, because another callback has thrown
      have hfailed : s.failed = true :=
        (h.exception (h.exception_of_working List.mem_cons_self rfl hquit)).2
      exact h.move ((hgraph.release hmem hrefs (.inl ⟨rfl, fun _ => hfailed⟩)).drop (.inr hfailed)) rfl nofun
        nofun nofun rfl rfl rfl id (fun _ => rfl) id .inl fun _ => hfailed
  | throw t node hthrows =>
      rcases hthrows with rfl | rfl
      · exact h.move (hgraph.fail.drop (.inr rfl)) rfl nofun nofun nofun rfl rfl rfl id (fun _ => rfl)
          (fun _ => rfl) (fun _ => .inr rfl) fun _ => rfl
      · exact h.move (hgraph.fail.drop (.inr rfl)) rfl nofun nofun nofun rfl rfl rfl id (fun _ => rfl)
          (fun _ => rfl) (fun _ => .inr rfl) fun _ => rfl
  | wakeup => exact absurd rfl ht
  | examine hmain hquit hexception =>
      exact h.move (hgraph.idle rfl rfl) rfl nofun nofun nofun rfl rfl rfl id (fun _ => rfl) id .inl
        nofun
  | rethrow hmain hquit hexception =>
      exact h.move ((hgraph.idle rfl rfl).congr rfl rfl rfl rfl rfl rfl) rfl nofun nofun nofun rfl rfl
        hquit.symm id (fun _ => rfl) id .inl nofun
  | examined =>
      exact h.move ((hgraph.idle rfl rfl).congr rfl rfl rfl rfl rfl rfl) rfl nofun nofun nofun rfl rfl
        (hexamining rfl).symm id (fun _ => rfl) id .inl nofun
  | join outcome hreturned =>
      exact h.move (hgraph.idle rfl rfl) rfl nofun nofun nofun rfl rfl rfl id (fun _ => rfl) id .inl
        nofun

theorem MainOk.exists_rest {threads' : List (Pc α)}
    (h : ∃ main workers, threads = main :: workers ∧ MainOk s main workers)
    (hmoved : Moved t t' i threads threads') (ht : t.isMain = true ∨ i = 0) :
    ∃ workers workers', threads = t :: workers ∧ threads' = t' :: workers' ∧ Rest workers workers' ∧
      MainOk s t workers := by
  obtain ⟨main, workers, rfl, h⟩ := h
  cases hmoved with
  | here hrest => exact ⟨workers, _, rfl, rfl, hrest, h⟩
  | keep _ hmoved | wake hmoved =>
      have hnot := h.notMain t hmoved.mem
      rcases ht with ht | ht
      · rw [hnot] at ht
        cases ht
      · cases ht

theorem MainOk.turn {threads' : List (Pc α)}
    (h : ∃ main workers, threads = main :: workers ∧ MainOk s main workers)
    (hpool : PoolOk job s threads) (hmoved : Moved t t' i threads threads')
    (hturn : Turn job s i threads' t t' base) :
    ∃ main workers, threads' = main :: workers ∧ MainOk base main workers := by
  have hworking : t.isWorking = true → s.quit = true → s.exception = true :=
    hpool.exception_of_working hmoved.mem
  -- a work item only changes how the call ends if no callback has thrown
  have hrethrown : ∀ {b : State α}, (s.quit = true → s.exception = true) →
      b.exception = s.exception → s.quit = true → b.outcome = s.outcome ∧ b.exception = s.exception := by
    intro b hexception hsame hquit
    refine ⟨?_, hsame⟩
    rw [State.outcome, State.outcome, hsame, if_pos (hexception hquit), if_pos (hexception hquit)]
  have hwork : t.isWorking = true → t'.isMain = false → t.isMain = false → t ≠ .returned →
      base.draining = s.draining → base.quit = s.quit → base.exception = s.exception →
      ∃ main workers, threads' = main :: workers ∧ MainOk base main workers := by
    intro hw ht' ht hreturned hdraining hquit hexception
    exact MainOk.move h hmoved ht ht' hreturned hdraining (hquit ▸ id)
      (hrethrown (hworking hw) hexception)
  cases hturn with
  | enqueue node nodes hquit =>
      obtain ⟨workers, workers', -, rfl, hrest, hmain⟩ := MainOk.exists_rest h hmoved (.inl rfl)
      exact ⟨_, _, rfl, hrest.isMain hmain.notMain, hmain.draining, nofun, nofun, nofun, nofun⟩
  | enqueued nodes hnodes =>
      obtain ⟨workers, workers', -, rfl, hrest, hmain⟩ := MainOk.exists_rest h hmoved (.inl rfl)
      exact ⟨_, _, rfl, hrest.isMain hmain.notMain, hmain.draining, nofun, nofun, nofun, nofun⟩
  | drain =>
      obtain ⟨workers, workers', -, rfl, hrest, hmain⟩ := MainOk.exists_rest h hmoved (.inl rfl)
      exact ⟨_, _, rfl, hrest.isMain hmain.notMain, rfl, nofun, nofun, nofun, nofun⟩
  | await hidle hawaits =>
      have ht : t.isMain = false ∧ t ≠ .returned := by
        rcases hidle with rfl | rfl
        · exact ⟨rfl, nofun⟩
        · exact ⟨rfl, nofun⟩
      obtain ⟨ht', hdraining, hsame⟩ := hawaits.facts
      refine MainOk.move h hmoved ht.1 ht' ht.2 hdraining (fun hquit => ?_) fun hquit => ?_
      · rw [(hsame hquit).2]
        exact hquit
      · rw [(hsame hquit).2]
        exact ⟨rfl, rfl⟩
  | account threw hnot hawaits =>
      have haccount : s.quit = true →
          (s.account threw).quit = true ∧ (s.account threw).exception = s.exception :=
        fun hquit => s.quit_account threw (hworking rfl hquit) hquit
      obtain ⟨ht', hdraining, hsame⟩ := hawaits.facts
      refine MainOk.move h hmoved rfl ht' nofun (hdraining.trans (s.draining_account threw))
        (fun hquit => ?_) fun hquit => ?_
      · rw [(hsame (haccount hquit).1).2]
        exact (haccount hquit).1
      · rw [(hsame (haccount hquit).1).2]
        exact hrethrown (hworking rfl) (haccount hquit).2 hquit
  | start node hrefs => exact hwork rfl rfl rfl nofun rfl rfl rfl
  | restart node hrefs => exact hwork rfl rfl rfl nofun rfl rfl rfl
  | getEdges node => exact hwork rfl rfl rfl nofun rfl rfl rfl
  | link node hgraphFree hrefs => exact hwork rfl rfl rfl nofun rfl rfl rfl
  | block node hgraphFree hrefs => exact hwork rfl rfl rfl nofun rfl rfl rfl
  | process node => exact hwork rfl rfl rfl nofun rfl rfl rfl
  | processed node => exact hwork rfl rfl rfl nofun rfl rfl rfl
  | acquire node hgraphFree => exact hwork rfl rfl rfl nofun rfl rfl rfl
  | erase node => exact hwork rfl rfl rfl nofun rfl rfl rfl
  | unlink node rref refs rrefs hmem hrefs hne => exact hwork rfl rfl rfl nofun rfl rfl rfl
  | unblock node rref refs rrefs hmem hrefs hempty hquit => exact hwork rfl rfl rfl nofun rfl rfl rfl
  | refuse node rref refs rrefs hmem hrefs hempty hquit => exact hwork rfl rfl rfl nofun rfl rfl rfl
  | throw t node hthrows =>
      rcases hthrows with rfl | rfl
      · exact hwork rfl rfl rfl nofun rfl rfl rfl
      · exact hwork rfl rfl rfl nofun rfl rfl rfl
  | wakeup => exact MainOk.move h hmoved rfl rfl nofun rfl id fun _ => ⟨rfl, rfl⟩
  | examine hfirst hquit hexception =>
      obtain ⟨workers, workers', -, rfl, hrest, hmain⟩ := MainOk.exists_rest h hmoved (.inr hfirst)
      exact ⟨_, _, rfl, hrest.isMain hmain.notMain, hmain.draining, fun _ _ => hquit,
        fun _ => hexception, nofun, nofun⟩
  | rethrow hfirst hquit hexception =>
      obtain ⟨workers, workers', -, rfl, hrest, hmain⟩ := MainOk.exists_rest h hmoved (.inr hfirst)
      refine ⟨_, _, rfl, hrest.isMain hmain.notMain, hmain.draining, fun _ _ => rfl, nofun, ?_, nofun⟩
      intro outcome heq
      rcases heq with heq | heq
      · cases heq
        rw [State.outcome, if_pos hexception]
      · cases heq
  | examined =>
      obtain ⟨workers, workers', -, rfl, hrest, hmain⟩ := MainOk.exists_rest h hmoved (.inl rfl)
      refine ⟨_, _, rfl, hrest.isMain hmain.notMain, hmain.draining, fun _ _ => rfl, nofun, ?_, nofun⟩
      intro outcome heq
      rcases heq with heq | heq
      · cases heq
        have hexception := hmain.examining rfl
        rw [State.outcome, if_neg (ne_true_of_eq_false hexception)]
      · cases heq
  | join outcome hreturned =>
      obtain ⟨workers, workers', rfl, rfl, hrest, hmain⟩ := MainOk.exists_rest h hmoved (.inl rfl)
      refine ⟨_, _, rfl, hrest.isMain hmain.notMain, hmain.draining, hmain.quit, nofun, ?_, ?_⟩
      · intro outcome' heq
        rcases heq with heq | heq
        · cases heq
        · cases heq
          exact hmain.outcome _ (.inl rfl)
      · intro outcome' _
        exact hreturned

theorem GraphOk.of_start : GraphOk job (start job) [.enqueueing job.nodes] := by
  have htokens : (start job).tokens [.enqueueing job.nodes] = job.nodes :=
    List.append_nil job.nodes
  refine ⟨?_, ?_, ?_, nofun, ?_, Nat.zero_le 1, nofun, ?_, nofun, nofun, ?_, ?_,
    ⟨fun _ => Nat.zero_le 1, ?_, ?_⟩⟩
  · rw [htokens]
    exact job.nodup
  · intro n hn
    rw [htokens] at hn
    exact List.mem_toFinset.mpr hn
  · intro n hn
    exact List.mem_toFinset.mp hn
  · intro t ht
    rw [List.mem_singleton.mp ht]
    exact fun _ _ => ⟨rfl, nofun⟩
  · intro n m hm
    exact absurd hm (Finset.notMem_empty m)
  · intro n hn hleft
    exact absurd (List.mem_toFinset.mpr hn) hleft
  · intro _ n hn
    rw [htokens]
    exact .inl (List.mem_toFinset.mp hn)
  · intro before n after heq
    cases before <;> cases heq
  · intro before n after heq
    cases before <;> cases heq

theorem Invariant.of_start : Invariant job (start job) := by
  refine ⟨⟨.of_start, rfl, nofun, ?_, nofun, nofun, ?_, nofun, ?_⟩,
    ⟨_, _, rfl, nofun, rfl, nofun, nofun, nofun, nofun⟩, Nat.le_max_left _ _⟩
  · intro hin
    cases List.mem_singleton.mp hin
  · intro hin
    cases List.mem_singleton.mp hin
  · intro _
    exact ⟨_, List.mem_cons_self, nofun⟩

theorem Turn.of_waiting (h : Turn job s i threads .waiting t' base) :
    t' = .notified ∧ base = s := by
  generalize hwaiting : Pc.waiting = t at h
  cases h with
  | await hidle _ =>
      subst hwaiting
      rcases hidle with heq | heq <;> cases heq
  | throw _ _ ht =>
      subst hwaiting
      rcases ht with heq | heq <;> cases heq
  | wakeup => exact ⟨rfl, rfl⟩
  | _ => cases hwaiting

theorem Invariant.eq_main {main : Pc α} {workers : List (Pc α)}
    (hthreads : s.threads = main :: workers) (hmain : MainOk s main workers) (ht : t ∈ s.threads)
    (hisMain : t.isMain = true) : t = main := by
  rw [hthreads] at ht
  refine (List.mem_cons.mp ht).resolve_right fun hin => ?_
  rw [hmain.notMain t hin] at hisMain
  cases hisMain

theorem Invariant.first (h : Invariant job s) (hi : s.threads[i]? = some t) (ht : t.isMain = true) :
    i = 0 := by
  obtain ⟨main, workers, hthreads, hmain⟩ := h.main
  cases i with
  | zero => rfl
  | succ i =>
      rw [hthreads] at hi
      rw [hmain.notMain t (List.mem_of_getElem? hi)] at ht
      cases ht

theorem Invariant.turns (h : Invariant job s) (hturns : Turns job s s' i t t' base) :
    Invariant job s' := by
  obtain ⟨others, others', hperm, hperm', hrest⟩ := hturns.moved.exists_rest
  have hpool : PoolOk job base (t' :: others') := by
    obtain ⟨main, workers, hthreads, hmain⟩ := h.main
    have heq : t.isMain = true → t = main :=
      Invariant.eq_main hthreads hmain hturns.moved.mem
    by_cases ht : t = .waiting
    · have hpool := h.pool.perm hperm
      subst ht
      obtain ⟨rfl, rfl⟩ := hturns.turn.of_waiting
      have hnotified : PoolOk job base (.notified :: others) :=
        hpool.move (hpool.graph.idle rfl rfl) rfl nofun nofun nofun rfl rfl rfl id (fun _ => rfl) id
          .inl nofun
      exact hnotified.rest hrest nofun
    · refine ((h.pool.perm hperm).rest hrest ht).turn ht (fun ht hdraining => ?_) (fun hnot hin => ?_)
        (fun hfree u hu => ?_) ?_ ?_ hturns.turn
      · have hearly := hmain.draining
        rw [hdraining] at hearly
        have hin : main ∈ s.threads := hthreads ▸ List.mem_cons_self
        rcases List.mem_cons.mp (hperm.mem_iff.mp hin) with rfl | hin
        · rw [Pc.isMain_of_isEarly hearly] at ht
          cases ht
        · have hne : main ≠ .waiting := by
            rintro rfl
            cases hearly
          exact ⟨main, hrest.mem hin hne, hne⟩
      · exact hnot (hperm'.mem_iff.mpr (List.mem_cons_of_mem _ hin))
      · rcases hrest.of_mem hu with hu | rfl | rfl
        · exact hfree u (hperm.mem_iff.mpr (List.mem_cons_of_mem _ hu))
        · rfl
        · rfl
      · rintro rfl
        obtain rfl := heq rfl
        exact hmain.quit rfl rfl
      · intro hearly
        obtain rfl := heq (Pc.isMain_of_isEarly hearly)
        rw [hmain.draining] at hearly
        rwa [Bool.not_eq_true'] at hearly
  have hmain := MainOk.turn h.main h.pool hturns.moved hturns.turn
  refine ⟨?_, ?_, ?_⟩
  · rw [hturns.state]
    exact (hpool.perm hperm'.symm).congr
  · obtain ⟨main, workers, hthreads, hmain⟩ := hmain
    refine ⟨main, workers, hthreads, ?_⟩
    rw [hturns.state]
    exact ⟨hmain.notMain, hmain.draining, hmain.quit, hmain.examining, hmain.outcome, hmain.finished⟩
  · have hbound := hturns.bound
    have hle := h.bound
    omega

theorem Invariant.of_step {e : Event α} (h : Invariant job s) (hstep : step job s e = some s') :
    Invariant job s' := by
  obtain ⟨i, t, t', base, hturns, -⟩ := h.pool.turns (fun _ _ => h.first) hstep
  exact h.turns hturns

theorem Invariant.reaches (h : Reaches (step job) (fun _ _ => True) (start job) s) :
    Invariant job s :=
  h.invariant .of_start fun _ _ _ hs _ hstep => hs.of_step hstep

end Nix.Util.ThreadPools
