import Nix.Lib.Graphs
import Nix.Util.ThreadPoolProgress

/-!
`processGraph` processes the nodes in order, but those that have to wait for a cycle.
-/

set_option linter.dupNamespace false

namespace Nix.Util.ThreadPools

open Relation
open Lib.Graphs Lib.Transitions

variable {α : Type}

variable [DecidableEq α] {job : Job α} {s : State α} {log : List (Call α)} {n m : α}

theorem InOrder.not_twice (h : InOrder job log) {before after : List (Call α)} {call : Call α}
    (hlog : log = before ++ call :: after) : call ∉ before := by
  intro hin
  have hle := h.once call
  rw [hlog, List.count_append, List.count_cons_self] at hle
  have hpos := List.count_pos_iff.mpr hin
  omega

theorem InOrder.ended_of_depends (h : InOrder job log) (hdep : TransGen job.Depends n m)
    {before after : List (Call α)} (hlog : log = before ++ .started n :: after) :
    .ended m ∈ before := by
  induction hdep using TransGen.head_induction_on generalizing before after with
  | single hdep => exact (h.order before _ after hlog).2 m hdep
  | head hdep _ ih =>
      have hended := (h.order before _ after hlog).2 _ hdep
      obtain ⟨before', middle, rfl⟩ := List.append_of_mem hended
      have hstarted := h.ended before' _ _ (hlog.trans (List.append_assoc before' _ _))
      obtain ⟨before'', middle', rfl⟩ := List.append_of_mem hstarted
      have hin := ih (hlog.trans (by rw [List.append_assoc, List.append_assoc, List.cons_append]))
      exact List.mem_append_left _ (List.mem_append_left _ hin)

theorem InOrder.not_started (h : InOrder job log) (hn : job.ReachesCycle n) : .started n ∉ log := by
  have hcycle : ∀ c, TransGen job.Depends c c → .started c ∉ log := by
    intro c hc hstarted
    obtain ⟨before, after, hlog⟩ := List.append_of_mem hstarted
    have hended := h.ended_of_depends hc hlog
    obtain ⟨before', middle, rfl⟩ := List.append_of_mem hended
    have hin := h.ended before' c _ (hlog.trans (List.append_assoc before' _ _))
    exact h.not_twice hlog (List.mem_append_left _ hin)
  obtain ⟨c, hpath, hc⟩ := hn
  intro hstarted
  rcases reflTransGen_iff_eq_or_transGen.mp hpath with rfl | hpath
  · exact hcycle _ hc hstarted
  · obtain ⟨before, after, rfl⟩ := List.append_of_mem hstarted
    have hended := h.ended_of_depends hpath rfl
    exact hcycle c hc (h.started_of_ended (List.mem_append_left _ hended))

variable {outcome : Outcome}

theorem Invariant.finished (h : Invariant job s) (hfinished : s.Finished outcome) :
    ∃ workers, s.threads = .finished outcome :: workers ∧ (∀ w ∈ workers, w = .returned) ∧
      outcome = s.outcome ∧ s.quit = true := by
  obtain ⟨main, workers, hthreads, hmain⟩ := h.main
  rw [State.Finished, hthreads, List.head?_cons, Option.some_inj] at hfinished
  subst hfinished
  exact ⟨workers, hthreads, hmain.finished outcome rfl, hmain.outcome outcome (.inr rfl),
    hmain.quit rfl rfl⟩

theorem Invariant.rethrown (h : Invariant job s) (hfinished : s.Finished outcome)
    (hfailed : s.failed = true) : outcome = .rethrown := by
  obtain ⟨workers, hthreads, hworkers, rfl, -⟩ := h.finished hfinished
  refine if_pos ((h.pool.failed hfailed).resolve_right fun hin => ?_)
  rw [hthreads] at hin
  rcases List.mem_cons.mp hin with heq | hin
  · cases heq
  · cases hworkers _ hin

theorem Invariant.left_waits (h : Invariant job s) (hfinished : s.Finished outcome)
    (hfailed : s.failed = false) :
    outcome = (if s.left = ∅ then .returned else .incomplete) ∧
      ∀ n ∈ s.left, ∃ m ∈ s.left, job.Depends n m := by
  obtain ⟨workers, hthreads, hworkers, rfl, hquit⟩ := h.finished hfinished
  have hexception : s.exception = false := by
    by_contra hexception
    rw [Bool.not_eq_false] at hexception
    rw [(h.pool.exception hexception).2] at hfailed
    cases hfailed
  refine ⟨if_neg (ne_true_of_eq_false hexception), fun n hn => ?_⟩
  rcases h.pool.graph.complete hfailed n hn with htoken | ⟨refs, hrefs, hne⟩
  · exfalso
    rcases State.mem_tokens.mp htoken with hpending | ⟨t, ht, hheld⟩
    · rw [(h.pool.quit hquit hexception).1] at hpending
      cases hpending
    · obtain ⟨ht, hbusy⟩ := List.mem_filter.mp ht
      rw [hthreads] at ht
      rcases List.mem_cons.mp ht with rfl | ht
      · cases hbusy
      · rw [hworkers t ht] at hbusy
        cases hbusy
  · obtain ⟨m, hm⟩ := Finset.nonempty_iff_ne_empty.mpr hne
    obtain ⟨hleft, hdep, -⟩ := (h.pool.graph.refs n refs hrefs).2 m hm
    exact ⟨m, hleft, hdep⟩

theorem Invariant.completed (h : Invariant job s) (hfinished : s.Finished outcome)
    (hfailed : s.failed = false) : Completed job outcome s.log := by
  obtain ⟨rfl, hwaits⟩ := h.left_waits hfinished hfailed
  have hlog := h.pool.graph.log
  have hended : ∀ n ∈ job.nodes, n ∉ s.left → .started n ∈ s.log := fun n hn hleft =>
    hlog.started_of_ended (h.pool.graph.done n hn hleft)
  have hprocessed : ∀ n ∈ job.nodes, ¬job.ReachesCycle n → s.log.count (.ended n) = 1 := by
    intro n hn hnot
    have hdone := h.pool.graph.done n hn fun hleft => hnot (exists_cycle hwaits hleft)
    exact Nat.le_antisymm (hlog.once _) (List.count_pos_iff.mpr hdone)
  have hcyclic : s.left ≠ ∅ → ∃ n, TransGen job.Depends n n := by
    intro hne
    obtain ⟨n, hn⟩ := Finset.nonempty_iff_ne_empty.mpr hne
    obtain ⟨c, -, hc⟩ := exists_cycle hwaits hn
    exact ⟨c, hc⟩
  have hacyclic : s.left = ∅ → ∀ n, ¬TransGen job.Depends n n := by
    intro hempty n hn
    have hnode : n ∈ job.nodes := by
      obtain ⟨m, hdep, -⟩ := TransGen.head'_iff.mp hn
      exact hdep.1
    refine hlog.not_started ⟨n, .refl, hn⟩ (hended n hnode ?_)
    rw [hempty]
    exact Finset.notMem_empty n
  by_cases hempty : s.left = ∅
  · rw [if_pos hempty]
    refine ⟨iff_of_true rfl (hacyclic hempty), iff_of_false nofun ?_, hprocessed,
      fun _ => hlog.not_started⟩
    rintro ⟨n, hn⟩
    exact hacyclic hempty n hn
  · rw [if_neg hempty]
    refine ⟨iff_of_false nofun ?_, iff_of_true rfl (hcyclic hempty), hprocessed,
      fun _ => hlog.not_started⟩
    intro hnone
    obtain ⟨n, hn⟩ := hcyclic hempty
    exact hnone n hn

/-- `processGraph` executes every graph. -/
theorem executes (job : Job α) : Executes job where
  inOrder _ hs := (Invariant.reaches hs).pool.graph.log
  completed _ _ hs hfinished hfailed := (Invariant.reaches hs).completed hfinished hfailed
  rethrown _ _ hs hfinished hfailed := (Invariant.reaches hs).rethrown hfinished hfailed
  stopped s outcome hs hfinished t ht := by
    obtain ⟨workers, hthreads, hworkers, -⟩ := (Invariant.reaches hs).finished hfinished
    rw [hthreads, List.tail_cons] at ht
    exact Pc.isReturned_iff.mpr (hworkers t ht)
  notStuck _ hs := (Invariant.reaches hs).exists_step
  ends run hs hrun := Invariant.ends run (Invariant.reaches hs) hrun

def cyclicJob : Job Nat where
  nodes := [0, 1]
  nodup := by decide
  getEdges n := {1 - n}
  maxThreads := 1

/-- None of them is processed. -/
theorem not_processed :
    ¬∀ (job : Job Nat) (s : State Nat) (outcome : Outcome),
      Reaches (step job) (fun _ _ => True) (start job) s → s.Finished outcome → s.failed = false →
      ∀ n ∈ job.nodes, s.log.count (.ended n) = 1 := by
  intro hall
  obtain ⟨s, hs⟩ : ∃ s, s = exec (step cyclicJob) (fun _ _ => True) (start cyclicJob)
      (List.replicate 16 (.run 0 0)) := ⟨_, rfl⟩
  have hrun : s.map (fun s => (s.threads, s.failed, s.log)) =
      some ([.finished .incomplete], false, []) := by
    rw [hs]
    rfl
  obtain ⟨s, rfl, heq⟩ := Option.map_eq_some_iff.mp hrun
  obtain ⟨hthreads, hfailed, hlog⟩ : s.threads = [.finished .incomplete] ∧ s.failed = false ∧
      s.log = [] := by
    rw [Prod.mk.injEq, Prod.mk.injEq] at heq
    exact heq
  have hone := hall cyclicJob s .incomplete (.exec .start hs.symm) (congrArg List.head? hthreads)
    hfailed 0 List.mem_cons_self
  rw [hlog] at hone
  cases hone

end Nix.Util.ThreadPools
