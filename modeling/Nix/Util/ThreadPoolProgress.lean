import Mathlib.Algebra.GroupWithZero.Nat
import Mathlib.Data.Finset.Card
import Nix.Util.ThreadPoolRuns

/-!
A run of `processGraph` goes on until it ends, and it does end.
-/

set_option linter.dupNamespace false

namespace Nix.Util.ThreadPools

open Lib.Transitions

variable {α : Type}

def Job.threads (job : Job α) : Nat :=
  max 1 job.maxThreads

/-- What a work item costs while it waits for a thread. -/
def Job.itemCost (job : Job α) : Nat :=
  job.nodes.length + 12

/-- What it costs before it is enqueued, which wakes up a thread. -/
def Job.enqueueCost (job : Job α) : Nat :=
  job.itemCost + 4 * job.threads + 1

namespace Pc

def cost (job : Job α) : Pc α → Nat
  | .enqueueing nodes => nodes.length * job.enqueueCost + 6
  | .draining => 5
  | .locking _ => 4
  | .waiting => 0
  | .notified => 4
  | .returned => 3
  | .starting _ => job.nodes.length + 11
  | .gettingEdges _ => job.nodes.length + 10
  | .linking _ => job.nodes.length + 9
  | .ready _ => job.nodes.length + 8
  | .processing _ => job.nodes.length + 7
  | .acquiring _ => job.nodes.length + 6
  | .releasing _ rrefs => rrefs.card + 5
  | .examining => 2
  | .joining _ => 1
  | .finished _ => 0
  | .aborted => 0

end Pc

def costs (job : Job α) (threads : List (Pc α)) : Nat :=
  (threads.map (Pc.cost job)).sum

variable [DecidableEq α]

/-- The nodes that may still be enqueued by other nodes. -/
def State.blocked (s : State α) : Finset α :=
  s.left.filter fun n => s.refs n ≠ some ∅

def State.cost (job : Job α) (s : State α) : Nat :=
  s.pending.length * job.itemCost + s.blocked.card * job.enqueueCost +
    if s.quit then 0 else 4 * job.threads + 1

def State.measure (job : Job α) (s : State α) : Nat :=
  costs job s.threads + s.cost job

variable {job : Job α} {s base : State α} {threads : List (Pc α)} {i : Nat} {t t' : Pc α}
  {l l' : List (Pc α)}

omit [DecidableEq α] in
theorem costs_cons (t : Pc α) (l : List (Pc α)) : costs job (t :: l) = t.cost job + costs job l := by
  rw [costs, List.map_cons, List.sum_cons, costs]

omit [DecidableEq α] in
theorem costs_set (hi : l[i]? = some t) :
    costs job (l.set i t') + t.cost job = costs job l + t'.cost job := by
  induction l generalizing i with
  | nil => cases hi
  | cons u l ih =>
      cases i with
      | zero =>
          cases hi
          rw [List.set_cons_zero, costs_cons, costs_cons]
          omega
      | succ i =>
          have heq := ih hi
          rw [List.set_cons_succ, costs_cons, costs_cons]
          omega

omit [DecidableEq α] in
theorem Rest.costs_le (h : Rest l l') : costs job l' ≤ costs job l + 4 * l'.length := by
  induction h with
  | nil => exact Nat.zero_le _
  | spawn => exact Nat.le_refl 4
  | wake _ ih =>
      rw [costs_cons, costs_cons, List.length_cons, Pc.cost, Pc.cost]
      omega
  | keep t _ ih =>
      rw [costs_cons, costs_cons, List.length_cons]
      omega

omit [DecidableEq α] in
theorem Moved.costs_le (h : Moved t t' i l l') :
    costs job l' + t.cost job ≤ costs job l + t'.cost job + 4 * l'.length := by
  induction h with
  | here h =>
      have hle : costs job _ ≤ _ := h.costs_le
      rw [costs_cons, costs_cons, List.length_cons]
      omega
  | keep u _ ih =>
      rw [costs_cons, costs_cons, List.length_cons]
      omega
  | wake _ ih =>
      rw [costs_cons, costs_cons, List.length_cons, Pc.cost, Pc.cost]
      omega

omit [DecidableEq α] in
theorem Moved.costs_alone (h : Moved t t' i l l') (halone : l' = l.set i t') :
    costs job l' + t.cost job = costs job l + t'.cost job := by
  rw [halone]
  exact costs_set h.getElem?

/-- What a turn costs is less than what was there for it: with what it takes to wake up all the
threads, unless it does not. -/
def Cheaper (job : Job α) (s base : State α) (t t' : Pc α) : Prop :=
  (base.quit = s.quit ∧ base.pending.length ≤ s.pending.length ∧
    base.cost job + t'.cost job < s.cost job + t.cost job) ∨
  base.cost job + t'.cost job + 4 * job.threads < s.cost job + t.cost job

theorem State.blocked_card_le (hleft : base.left ⊆ s.left)
    (hrefs : ∀ n, s.refs n = some ∅ → n ∈ base.left → base.refs n = some ∅) :
    base.blocked.card ≤ s.blocked.card := by
  refine Finset.card_le_card fun n hn => ?_
  obtain ⟨hn, hne⟩ := Finset.mem_filter.mp hn
  exact Finset.mem_filter.mpr ⟨hleft hn, fun heq => hne (hrefs n heq hn)⟩

theorem State.cost_le (hpending : base.pending = s.pending) (hquit : base.quit = s.quit)
    (hblocked : base.blocked.card ≤ s.blocked.card) : base.cost job ≤ s.cost job := by
  rw [State.cost, State.cost, hpending, hquit]
  have hle := Nat.mul_le_mul_right job.enqueueCost hblocked
  omega

/-- It takes `quit` to wake up all the threads. -/
theorem State.cost_quit {b : State α} (hpending : b.pending = s.pending)
    (hblocked : b.blocked = s.blocked) (hs : s.quit = false) (hb : b.quit = true) :
    b.cost job + 4 * job.threads + 1 = s.cost job := by
  rw [State.cost, State.cost, hpending, hblocked, hs, hb, if_pos rfl, if_neg Bool.false_ne_true]
  omega

theorem Cheaper.quiet (hpending : base.pending = s.pending) (hquit : base.quit = s.quit)
    (hblocked : base.blocked.card ≤ s.blocked.card) (hcost : t'.cost job < t.cost job) :
    Cheaper job s base t t' := by
  refine .inl ⟨hquit, by rw [hpending], ?_⟩
  have hle : base.cost job ≤ s.cost job := State.cost_le hpending hquit hblocked
  omega

theorem Awaits.cheaper (h : Awaits s threads t' base) (ht : t.cost job = 4) :
    Cheaper job s base t t' := by
  cases h with
  | leave hquit =>
      refine .quiet rfl rfl (Nat.le_refl _) ?_
      rw [ht, Pc.cost]
      omega
  | take node pending hquit hpending =>
      refine .inl ⟨rfl, ?_, ?_⟩
      · rw [hpending]
        exact Nat.le_succ _
      · have hcost : State.cost job { s with pending, active := s.active + 1 } + job.itemCost =
            s.cost job := by
          rw [State.cost, State.cost, hpending, List.length_cons, Nat.add_mul pending.length, Nat.one_mul]
          change pending.length * _ + s.blocked.card * _ + (if s.quit then _ else _) + _ = _
          omega
        rw [Job.itemCost] at hcost
        rw [ht, Pc.cost]
        omega
  | conclude hquit hpending hactive hdraining hwake =>
      right
      have hcost : State.cost job { s with quit := true } + 4 * job.threads + 1 = s.cost job :=
        State.cost_quit rfl rfl hquit rfl
      rw [ht, Pc.cost]
      omega
  | wait hquit hpending hother =>
      refine .quiet rfl rfl (Nat.le_refl _) ?_
      rw [ht, Pc.cost]
      omega

theorem PoolOk.cheaper (h : PoolOk job s s.threads) (ht : t ∈ s.threads) (hne : t ≠ .waiting)
    (hexamining : t = .examining → s.quit = true) (hturn : Turn job s i threads t t' base) :
    Cheaper job s base t t' := by
  have hgraph := h.graph
  have hok : t.isBusy = true → PcOk s t := fun hbusy =>
    hgraph.threads t (List.mem_filter.mpr ⟨ht, hbusy⟩)
  have hblocked : s.blocked.card ≤ s.blocked.card := Nat.le_refl _
  have hlink : ∀ node, t = .linking node → (s.link job node).blocked.card ≤ s.blocked.card := by
    rintro node rfl
    have hlinking : PcOk s (.linking node) := hok rfl
    refine State.blocked_card_le (Finset.Subset.refl _) fun n hn _ => ?_
    have hnode : n ≠ node := by
      rintro rfl
      rw [hlinking.1] at hn
      cases hn
    exact (Function.update_of_ne hnode _ _).trans hn
  -- a node that waits for one less
  have hupdate : ∀ node rref (refs rrefs : Finset α), t = .releasing node rrefs → rref ∈ rrefs →
      s.refs rref = some refs → ∀ n, s.refs n = some ∅ →
      Function.update s.refs rref (some (refs.erase node)) n = some ∅ := by
    rintro node rref refs rrefs rfl hmem hrefs n hn
    have hreleasing : PcOk s (.releasing node rrefs) := hok rfl
    refine (Function.update_of_ne ?_ _ _).trans hn
    rintro rfl
    obtain ⟨refs', hrefs', hnode⟩ := (hreleasing.2.2 n).mp hmem
    obtain rfl := Option.some.inj (hn.symm.trans hrefs')
    exact Finset.notMem_empty node hnode
  cases hturn with
  | enqueue node nodes hquit =>
      right
      have hcost : State.cost job { s with pending := s.pending ++ [node] } =
          s.cost job + job.itemCost := by
        rw [State.cost, State.cost, List.length_append, List.length_singleton,
          Nat.add_mul s.pending.length, Nat.one_mul]
        change _ + s.blocked.card * _ + (if s.quit then _ else _) = _
        omega
      rw [Pc.cost, Pc.cost, List.length_cons, Nat.add_mul nodes.length, Nat.one_mul, hcost]
      have henqueue : job.enqueueCost = job.itemCost + 4 * job.threads + 1 := rfl
      omega
  | enqueued nodes hnodes =>
      refine .quiet rfl rfl hblocked ?_
      rw [Pc.cost, Pc.cost]
      omega
  | drain => exact .quiet rfl rfl hblocked (Nat.lt_succ_self 4)
  | await hidle hawaits =>
      refine hawaits.cheaper ?_
      rcases hidle with rfl | rfl <;> rfl
  | account threw hwake hawaits =>
      by_cases hthrew : threw = true ∧ ¬s.exception = true
      · have hquit : s.quit = false := by
          by_contra hquit
          rw [Bool.not_eq_false] at hquit
          exact hthrew.2 (h.exception_of_working ht rfl hquit)
        have haccount : (s.account threw).quit = true := by
          rw [State.account, if_pos hthrew]
          rfl
        have hcost : (s.account threw).cost job + 4 * job.threads + 1 = s.cost job := by
          refine State.cost_quit ?_ ?_ hquit haccount
          · rw [State.account, if_pos hthrew]
            rfl
          · rw [State.account, if_pos hthrew]
            rfl
        obtain ⟨rfl, rfl⟩ := hawaits.facts.2.2 haccount
        right
        rw [Pc.cost, Pc.cost]
        omega
      · have haccount : s.account threw = { s with active := s.active - 1 } := by
          rw [State.account]
          exact if_neg hthrew
        rw [haccount] at hawaits
        exact hawaits.cheaper rfl
  | start node hrefs => exact .quiet rfl rfl hblocked (Nat.lt_succ_self _)
  | restart node hrefs =>
      refine .quiet rfl rfl hblocked ?_
      rw [Pc.cost, Pc.cost]
      omega
  | getEdges node => exact .quiet rfl rfl hblocked (Nat.lt_succ_self _)
  | link node hfree hrefs => exact .quiet rfl rfl (hlink node rfl) (Nat.lt_succ_self _)
  | block node hfree hrefs =>
      refine .quiet rfl rfl (hlink node rfl) ?_
      rw [Pc.cost, Pc.cost]
      omega
  | process node => exact .quiet rfl rfl hblocked (Nat.lt_succ_self _)
  | processed node => exact .quiet rfl rfl hblocked (Nat.lt_succ_self _)
  | acquire node hfree =>
      refine .quiet rfl rfl hblocked ?_
      have hsub : s.rrefs node ⊆ job.nodes.toFinset := by
        intro m hm
        rcases hgraph.rrefs node m hm with ⟨refs, hrefs, -⟩ | ⟨-, hnot⟩
        · exact List.mem_toFinset.mpr (hgraph.nodes m (hgraph.refs m refs hrefs).1)
        · exact absurd (List.mem_filter.mpr ⟨ht, rfl⟩) hnot
      have hcard := (Finset.card_le_card hsub).trans job.nodes.toFinset_card_le
      rw [Pc.cost, Pc.cost]
      omega
  | erase node =>
      refine .quiet rfl rfl (State.blocked_card_le (Finset.erase_subset _ _) fun n hn hleft => ?_) ?_
      · exact (Function.update_of_ne (Finset.ne_of_mem_erase hleft) _ _).trans hn
      · rw [Pc.cost, Pc.cost]
        omega
  | unlink node rref refs rrefs hmem hrefs hnonempty =>
      refine .quiet rfl rfl (State.blocked_card_le (Finset.Subset.refl _) fun n hn _ => ?_) ?_
      · exact hupdate node rref refs rrefs rfl hmem hrefs n hn
      · rw [Pc.cost, Pc.cost]
        have hlt := Finset.card_erase_lt_of_mem hmem
        omega
  | unblock node rref refs rrefs hmem hrefs hempty hquit =>
      right
      have hreleasing : PcOk s (.releasing node rrefs) := hok rfl
      obtain ⟨refs', hrefs', hnode⟩ := (hreleasing.2.2 rref).mp hmem
      obtain rfl := Option.some.inj (hrefs.symm.trans hrefs')
      obtain ⟨b, hb⟩ : ∃ b : State α, b = { s with
          pending := s.pending ++ [rref]
          refs := Function.update s.refs rref (some (refs.erase node)) } := ⟨_, rfl⟩
      have hlt : b.blocked.card < s.blocked.card := by
        refine Finset.card_lt_card (Finset.ssubset_iff_of_subset ?_ |>.mpr ⟨rref, ?_, ?_⟩)
        · intro n hn
          obtain ⟨hn, hne⟩ := Finset.mem_filter.mp hn
          rw [hb] at hn hne
          exact Finset.mem_filter.mpr
            ⟨hn, fun heq => hne (hupdate node rref refs rrefs rfl hmem hrefs n heq)⟩
        · refine Finset.mem_filter.mpr ⟨(hgraph.refs rref refs hrefs).1, fun heq => ?_⟩
          rw [Option.some.inj (hrefs.symm.trans heq)] at hnode
          exact Finset.notMem_empty node hnode
        · intro hn
          refine (Finset.mem_filter.mp hn).2 ?_
          rw [hb]
          exact (Function.update_self _ _ _).trans (congrArg some hempty)
      have hcost : b.cost job + job.enqueueCost ≤ s.cost job + job.itemCost := by
        have hle := Nat.mul_le_mul_right job.enqueueCost (Nat.succ_le_of_lt hlt)
        rw [Nat.succ_mul] at hle
        have hpending : b.pending.length * job.itemCost =
            s.pending.length * job.itemCost + job.itemCost := by
          rw [hb, List.length_append, List.length_singleton, Nat.add_mul, Nat.one_mul]
        have hquit : b.quit = s.quit := by rw [hb]
        rw [State.cost, State.cost, hpending, hquit]
        omega
      have henqueue : job.enqueueCost = job.itemCost + 4 * job.threads + 1 := rfl
      have hcard := Finset.card_erase_lt_of_mem hmem
      rw [← hb, Pc.cost, Pc.cost]
      omega
  | refuse node rref refs rrefs hmem hrefs hempty hquit =>
      refine .quiet rfl rfl (State.blocked_card_le (Finset.Subset.refl _) fun n hn _ => ?_) ?_
      · exact hupdate node rref refs rrefs rfl hmem hrefs n hn
      · rw [Pc.cost, Pc.cost]
        omega
  | throw t node hthrows =>
      rcases hthrows with rfl | rfl
      · refine .quiet rfl rfl hblocked ?_
        rw [Pc.cost, Pc.cost]
        omega
      · refine .quiet rfl rfl hblocked ?_
        rw [Pc.cost, Pc.cost]
        omega
  | wakeup => exact absurd rfl hne
  | examine hmain hquit hexception => exact .quiet rfl rfl hblocked (Nat.lt_succ_self 2)
  | rethrow hmain hquit hexception =>
      refine .quiet rfl hquit.symm hblocked ?_
      rw [Pc.cost, Pc.cost]
      omega
  | examined => exact .quiet rfl (hexamining rfl).symm hblocked (Nat.lt_succ_self 1)
  | join outcome hreturned => exact .quiet rfl rfl hblocked (Nat.lt_succ_self 0)

theorem Invariant.measure_lt {s' : State α} {e : Event α} (h : Invariant job s)
    (he : e.isWakeup = false) (hstep : step job s e = some s') : s'.measure job < s.measure job := by
  obtain ⟨i, t, t', base, hturns, hne⟩ := h.pool.turns (fun _ _ => h.first) hstep
  have hexamining : t = .examining → s.quit = true := by
    rintro rfl
    obtain ⟨main, workers, hthreads, hmain⟩ := h.main
    obtain rfl := Invariant.eq_main hthreads hmain hturns.moved.mem rfl
    exact hmain.quit rfl rfl
  have hcost : s'.cost job = base.cost job := by
    rw [hturns.state]
    rfl
  have hfields : s'.quit = base.quit ∧ s'.pending = base.pending := by
    rw [hturns.state]
    exact ⟨rfl, rfl⟩
  rw [State.measure, State.measure, hcost]
  rcases h.pool.cheaper hturns.moved.mem (hne he) hexamining hturns.turn with
    ⟨hquit, hpending, hlt⟩ | hlt
  · have hthreads := hturns.alone (hfields.1.trans hquit) (hfields.2 ▸ hpending)
    have hsum : costs job s'.threads + t.cost job = costs job s.threads + t'.cost job :=
      hturns.moved.costs_alone hthreads
    omega
  · have hle : costs job s'.threads + t.cost job ≤
        costs job s.threads + t'.cost job + 4 * s'.threads.length := hturns.moved.costs_le
    have hbound := (h.turns hturns).bound
    change _ ≤ job.threads at hbound
    omega

theorem Invariant.ends (run : Nat → State α) (h : Invariant job (run 0))
    (hrun : ∀ k, ∃ e, e.isWakeup = false ∧ step job (run k) e = some (run (k + 1))) : False := by
  have hall : ∀ k, Invariant job (run k) ∧ (run k).measure job + k ≤ (run 0).measure job := by
    intro k
    induction k with
    | zero => exact ⟨h, Nat.le_refl _⟩
    | succ k ih =>
        obtain ⟨e, he, hstep⟩ := hrun k
        have hlt := ih.1.measure_lt he hstep
        exact ⟨ih.1.of_step hstep, by omega⟩
  have hle := (hall ((run 0).measure job + 1)).2
  omega

omit [DecidableEq α] in
theorem State.exists_notifyOne (s : State α) : ∃ j s', s.notifyOne j = some s' := by
  by_cases hany : s.threads.any Pc.isWaiting = true
  · obtain ⟨t, ht, hwaiting⟩ := List.any_eq_true.mp hany
    obtain ⟨j, hj, hget⟩ := List.getElem_of_mem ht
    have htw : t = .waiting := by
      cases t with
      | waiting => rfl
      | _ => cases hwaiting
    refine ⟨j, s.goTo j .notified, ?_⟩
    rw [State.notifyOne, if_pos hany, List.getElem?_eq_getElem hj, hget, htw]
  · exact ⟨0, s, by rw [State.notifyOne, if_neg hany]⟩

omit [DecidableEq α] in
theorem State.exists_enqueue (s : State α) (maxThreads : Nat) (node : α) :
    ∃ j s', s.enqueue maxThreads node j = some s' :=
  State.exists_notifyOne _

theorem Invariant.exists_run (h : Invariant job s) (hi : s.threads[i]? = some t)
    (hfree : s.GraphFree) (hwaiting : t ≠ .waiting) (hreturned : t = .returned → i = 0)
    (hjoining : ∀ outcome, t ≠ .joining outcome ∧ t ≠ .finished outcome) :
    ∃ j s', run job s i j t = some s' := by
  cases t with
  | enqueueing nodes =>
      cases nodes with
      | nil => exact ⟨0, _, rfl⟩
      | cons node nodes =>
          by_cases hquit : s.quit = true
          · exact ⟨0, _, if_pos hquit⟩
          · obtain ⟨j, s', hs'⟩ := (s.goTo i (.enqueueing nodes)).exists_enqueue job.maxThreads node
            exact ⟨j, s', (if_neg hquit).trans hs'⟩
  | draining => exact ⟨0, _, rfl⟩
  | locking worked => cases worked <;> exact ⟨0, _, rfl⟩
  | waiting => exact absurd rfl hwaiting
  | notified => exact ⟨0, _, rfl⟩
  | returned =>
      have hquit := h.pool.returned (List.mem_of_getElem? hi)
      have hrun : run job s i 0 (.returned : Pc α) =
          if s.exception then some (s.shutdown .rethrown) else some (s.goTo i .examining) :=
        (if_neg (not_not.mpr (hreturned rfl))).trans (if_neg (not_not.mpr hquit))
      by_cases hexception : s.exception = true
      · exact ⟨0, _, hrun.trans (if_pos hexception)⟩
      · exact ⟨0, _, hrun.trans (if_neg hexception)⟩
  | starting node => exact ⟨0, _, if_pos hfree⟩
  | gettingEdges node => exact ⟨0, _, rfl⟩
  | linking node => exact ⟨0, _, if_pos hfree⟩
  | ready node => exact ⟨0, _, rfl⟩
  | processing node => exact ⟨0, _, rfl⟩
  | acquiring node => exact ⟨0, _, if_pos hfree⟩
  | releasing node rrefs => cases hfree _ (List.mem_of_getElem? hi)
  | examining => exact ⟨0, _, if_pos hfree⟩
  | joining outcome => exact absurd rfl (hjoining outcome).1
  | finished outcome => exact absurd rfl (hjoining outcome).2
  | aborted => cases h.pool.pcOk hi rfl

theorem step_run {s' : State α} {j : Nat} (hi : s.threads[i]? = some t)
    (hrun : run job s i j t = some s') : step job s (.run i j) = some s' :=
  (congrArg (Option.bind · _) hi).trans hrun

theorem Invariant.exists_release {node : α} {rrefs : Finset α} (h : Invariant job s)
    (hi : s.threads[i]? = some (.releasing node rrefs)) :
    ∃ e s', e.isWakeup = false ∧ step job s e = some s' := by
  rcases rrefs.eq_empty_or_nonempty with rfl | ⟨rref, hrref⟩
  · have hrun : run job s i 0 (.releasing node ∅) =
        some ((s.erase node).goTo i (.locking (some false))) := by
      rw [run, if_pos rfl]
    exact ⟨.run i 0, _, rfl, step_run hi hrun⟩
  · obtain ⟨-, -, hwaits⟩ : PcOk s (.releasing node rrefs) := h.pool.pcOk hi rfl
    obtain ⟨refs, hrefs, hnode⟩ := (hwaits rref).mp hrref
    suffices hrelease : ∃ j s', release job s i j rref node rrefs = some s' by
      obtain ⟨j, s', hs'⟩ := hrelease
      refine ⟨.release i j rref, s', rfl, ?_⟩
      rw [step, hi]
      exact (if_pos hrref).trans hs'
    simp only [release, hrefs, if_pos hnode]
    split
    next =>
      split
      next => exact ⟨0, _, rfl⟩
      next => exact State.exists_enqueue _ job.maxThreads rref
    next => exact ⟨0, _, rfl⟩

theorem Invariant.exists_step (h : Invariant job s) :
    (∃ outcome, s.Finished outcome) ∨ ∃ e s', e.isWakeup = false ∧ step job s e = some s' := by
  have hrun : ∀ i t, s.threads[i]? = some t → (∃ j s', run job s i j t = some s') →
      ∃ e s', e.isWakeup = false ∧ step job s e = some s' := by
    rintro i t hi ⟨j, s', hs'⟩
    exact ⟨.run i j, s', rfl, step_run hi hs'⟩
  by_cases hfree : s.GraphFree
  · obtain ⟨main, workers, hthreads, hmain⟩ := h.main
    have hi : s.threads[0]? = some main := by rw [hthreads, List.getElem?_cons_zero]
    -- a worker goes on, unless it waits or has returned
    have hworker : ∀ w ∈ workers, w ≠ .waiting → w ≠ .returned →
        ∃ e s', e.isWakeup = false ∧ step job s e = some s' := by
      intro w hw hwaiting hreturned
      have hw' : w ∈ s.threads := hthreads ▸ List.mem_cons_of_mem _ hw
      obtain ⟨i, hi⟩ := List.mem_iff_getElem?.mp hw'
      refine hrun i w hi (h.exists_run hi hfree hwaiting (fun heq => absurd heq hreturned) ?_)
      have hnot := hmain.notMain w hw
      intro outcome
      constructor <;> rintro rfl <;> cases hnot
    have hmain_run : main ≠ .waiting → (∀ outcome, main ≠ .joining outcome ∧ main ≠ .finished outcome) →
        ∃ e s', e.isWakeup = false ∧ step job s e = some s' := fun hwaiting hjoining =>
      hrun 0 main hi (h.exists_run hi hfree hwaiting (fun _ => rfl) hjoining)
    cases hcase : main with
    | finished outcome =>
        left
        refine ⟨outcome, ?_⟩
        rw [State.Finished, hthreads, hcase, List.head?_cons]
    | joining outcome =>
        right
        have hquit : s.quit = true := hmain.quit (hcase ▸ rfl) (hcase ▸ rfl)
        by_cases hall : ∀ w ∈ workers, w = .returned
        · refine hrun 0 main hi ⟨0, s.goTo 0 (.finished outcome), ?_⟩
          rw [hcase]
          refine if_pos ?_
          rw [hthreads, List.tail_cons, List.all_eq_true]
          exact fun w hw => Pc.isReturned_iff.mpr (hall w hw)
        · push Not at hall
          obtain ⟨w, hw, hreturned⟩ := hall
          refine hworker w hw ?_ hreturned
          rintro rfl
          exact h.pool.waiting hquit (hthreads ▸ List.mem_cons_of_mem _ hw)
    | waiting =>
        right
        have hquit : s.quit = false := by
          by_contra hquit
          rw [Bool.not_eq_false] at hquit
          exact h.pool.waiting hquit (hthreads ▸ hcase ▸ List.mem_cons_self)
        obtain ⟨w, hw, hwaiting⟩ := h.pool.awake hquit
        rw [hthreads, hcase] at hw
        refine hworker w ((List.mem_cons.mp hw).resolve_left hwaiting) hwaiting ?_
        rintro rfl
        have htrue := h.pool.returned (hthreads ▸ hcase ▸ hw)
        rw [hquit] at htrue
        cases htrue
    | _ => exact .inr (hmain_run (hcase ▸ nofun) (hcase ▸ fun _ => ⟨nofun, nofun⟩))
  · rw [State.GraphFree] at hfree
    push Not at hfree
    obtain ⟨t, ht, hreleasing⟩ := hfree
    obtain ⟨i, hi⟩ := List.mem_iff_getElem?.mp ht
    cases t with
    | releasing node rrefs => exact .inr (h.exists_release hi)
    | _ => exact absurd rfl hreleasing

end Nix.Util.ThreadPools
