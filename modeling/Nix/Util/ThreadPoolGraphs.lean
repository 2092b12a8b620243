import Mathlib.Data.Finset.Lattice.Lemmas
import Mathlib.Data.List.Perm.Basic
import Nix.Util.ThreadPools

/-!
What the graph has to do with the work items that are on their way.
-/

set_option linter.dupNamespace false

namespace Nix.Util.ThreadPools

open Relation

variable {α : Type}

namespace Pc

def held : Pc α → List α
  | .enqueueing nodes => nodes
  | .starting node => [node]
  | .gettingEdges node => [node]
  | .linking node => [node]
  | .ready node => [node]
  | .processing node => [node]
  | .acquiring node => [node]
  | .releasing node _ => [node]
  | _ => []

/-- The states of a thread that have to do with the graph. -/
def isBusy : Pc α → Bool
  | .draining => false
  | .locking _ => false
  | .waiting => false
  | .notified => false
  | .returned => false
  | .examining => false
  | .joining _ => false
  | .finished _ => false
  | _ => true

end Pc

theorem mem_others_of_ne {t t' u : Pc α} {others : List (Pc α)} (h : u ∈ t' :: others)
    (hne : u ≠ t') : u ∈ t :: others :=
  List.mem_cons_of_mem _ ((List.mem_cons.mp h).resolve_left hne)

def State.tokens (s : State α) (busy : List (Pc α)) : List α :=
  s.pending ++ busy.flatMap Pc.held

/-- A work item for the node may start: the first one, or the one after its references. -/
def Startable (s : State α) (node : α) : Prop :=
  (s.refs node = none ∨ s.refs node = some ∅) ∧ .started node ∉ s.log

def PcOk (s : State α) : Pc α → Prop
  | .enqueueing nodes => ∀ n ∈ nodes, s.refs n = none ∧ .started n ∉ s.log
  | .starting n => Startable s n
  | .gettingEdges n => s.refs n = none ∧ .started n ∉ s.log
  | .linking n => s.refs n = none ∧ .started n ∉ s.log
  | .ready n => s.refs n = some ∅ ∧ .started n ∉ s.log
  | .processing n => s.refs n = some ∅ ∧ .started n ∈ s.log ∧ .ended n ∉ s.log
  | .acquiring n => s.refs n = some ∅ ∧ .ended n ∈ s.log
  | .releasing n rrefs => s.refs n = some ∅ ∧ .ended n ∈ s.log ∧
      ∀ m, m ∈ rrefs ↔ ∃ refs, s.refs m = some refs ∧ n ∈ refs
  | .aborted => False
  | _ => True

variable [DecidableEq α]

/-- The graph, with the threads that have to do with it. -/
structure GraphOk (job : Job α) (s : State α) (busy : List (Pc α)) : Prop where
  tokens : (s.tokens busy).Nodup
  left : ∀ n ∈ s.tokens busy, n ∈ s.left
  nodes : ∀ n ∈ s.left, n ∈ job.nodes
  pending : ∀ n ∈ s.pending, Startable s n
  threads : ∀ t ∈ busy, PcOk s t
  lock : busy.countP Pc.isReleasing ≤ 1
  refs : ∀ m refs, s.refs m = some refs → m ∈ s.left ∧
    ∀ n ∈ refs, n ∈ s.left ∧ job.Depends m n ∧ m ∈ s.rrefs n
  rrefs : ∀ n, ∀ m ∈ s.rrefs n, (∃ refs, s.refs m = some refs ∧ n ∈ refs) ∨
    (.ended n ∈ s.log ∧ .acquiring n ∉ busy)
  ready : ∀ m refs, s.refs m = some refs → ∀ n, job.Depends m n → n ∈ refs ∨ .ended n ∈ s.log
  blocked : ∀ m refs, s.refs m = some refs → refs ≠ ∅ → .started m ∉ s.log
  done : ∀ n ∈ job.nodes, n ∉ s.left → .ended n ∈ s.log
  complete : s.failed = false → ∀ n ∈ s.left, n ∈ s.tokens busy ∨
    ∃ refs, s.refs n = some refs ∧ refs ≠ ∅
  log : InOrder job s.log

variable {job : Job α} {s s' : State α} {busy busy' others : List (Pc α)} {t t' : Pc α} {n : α}

theorem GraphOk.congr (h : GraphOk job s busy) (hpending : s'.pending = s.pending)
    (hleft : s'.left = s.left) (hrefs : s'.refs = s.refs) (hrrefs : s'.rrefs = s.rrefs)
    (hlog : s'.log = s.log) (hfailed : s'.failed = s.failed) : GraphOk job s' busy := by
  obtain ⟨threads, pending, active, exception, draining, quit, left, refs, rrefs, log, failed⟩ := s
  obtain ⟨threads', _, active', exception', draining', quit', _, _, _, _, _⟩ := s'
  cases hpending
  cases hleft
  cases hrefs
  cases hrrefs
  cases hlog
  cases hfailed
  exact ⟨h.tokens, h.left, h.nodes, h.pending, h.threads, h.lock, h.refs, h.rrefs, h.ready,
    h.blocked, h.done, h.complete, h.log⟩

omit [DecidableEq α] in
theorem State.mem_tokens : n ∈ s.tokens busy ↔ n ∈ s.pending ∨ ∃ t ∈ busy, n ∈ t.held := by
  rw [State.tokens, List.mem_append, List.mem_flatMap]

omit [DecidableEq α] in
theorem State.mem_tokens_cons : n ∈ s.tokens (t :: busy) ↔ n ∈ t.held ∨ n ∈ s.tokens busy := by
  simp only [State.mem_tokens, List.mem_cons, exists_eq_or_imp, or_left_comm]

omit [DecidableEq α] in
theorem State.tokens_perm (h : busy.Perm busy') : (s.tokens busy).Perm (s.tokens busy') :=
  (h.flatMap_right Pc.held).append_left s.pending

theorem GraphOk.perm (h : GraphOk job s busy) (hperm : busy.Perm busy') : GraphOk job s busy' where
  tokens := (State.tokens_perm hperm).nodup_iff.mp h.tokens
  left n hn := h.left n ((State.tokens_perm hperm).mem_iff.mpr hn)
  nodes := h.nodes
  pending := h.pending
  threads t ht := h.threads t (hperm.mem_iff.mpr ht)
  lock := (hperm.countP_eq _).symm.trans_le h.lock
  refs := h.refs
  rrefs n m hm := (h.rrefs n m hm).imp_right fun hn => ⟨hn.1, fun hin => hn.2 (hperm.mem_iff.mpr hin)⟩
  ready := h.ready
  blocked := h.blocked
  done := h.done
  complete hfailed n hn := (h.complete hfailed n hn).imp_left (State.tokens_perm hperm).mem_iff.mp
  log := h.log

theorem GraphOk.not_held (h : GraphOk job s (t :: others)) (hn : n ∈ t.held) :
    n ∉ s.pending ∧ ∀ u ∈ others, n ∉ u.held := by
  have hnodup := h.tokens
  rw [State.tokens, List.flatMap_cons] at hnodup
  obtain ⟨-, hheld, hdisjoint⟩ := List.nodup_append.mp hnodup
  refine ⟨fun hpending => hdisjoint n hpending n (List.mem_append_left _ hn) rfl, fun u hu hnu => ?_⟩
  exact (List.nodup_append.mp hheld).2.2 n hn n (List.mem_flatMap.mpr ⟨u, hu, hnu⟩) rfl

theorem GraphOk.move (h : GraphOk job s (t :: others)) (hheld : t'.held = t.held)
    (hok : PcOk s t') (hlock : t'.isReleasing = true → others.countP Pc.isReleasing = 0)
    (hacquiring : ∀ n, t' = .acquiring n → t = .acquiring n) :
    GraphOk job s (t' :: others) := by
  have htokens : s.tokens (t' :: others) = s.tokens (t :: others) := by
    rw [State.tokens, State.tokens, List.flatMap_cons, List.flatMap_cons, hheld]
  refine ⟨htokens ▸ h.tokens, htokens ▸ h.left, h.nodes, h.pending, ?_, ?_, h.refs, ?_, h.ready,
    h.blocked, h.done, htokens ▸ h.complete, h.log⟩
  · exact List.forall_mem_cons.mpr ⟨hok, (List.forall_mem_cons.mp h.threads).2⟩
  · rw [List.countP_cons]
    split
    next hreleasing => rw [hlock hreleasing]
    next =>
      have hle := h.lock
      rw [List.countP_cons] at hle
      omega
  · intro n m hm
    refine (h.rrefs n m hm).imp_right fun hn => ⟨hn.1, fun hin => hn.2 ?_⟩
    rcases List.mem_cons.mp hin with heq | hin
    · rw [← hacquiring n heq.symm]
      exact List.mem_cons_self
    · exact List.mem_cons_of_mem _ hin

theorem GraphOk.take {pending : List α} (h : GraphOk job s busy) (hpending : s.pending = n :: pending) :
    GraphOk job { s with pending } (.starting n :: busy) := by
  have htokens : (s.tokens busy).Perm
      (State.tokens { s with pending } (.starting n :: busy)) := by
    rw [State.tokens, State.tokens, hpending, List.flatMap_cons]
    exact List.perm_middle.symm
  obtain ⟨hn, hrest⟩ := List.forall_mem_cons.mp (hpending ▸ h.pending)
  refine ⟨htokens.nodup_iff.mp h.tokens, fun n hn => h.left n (htokens.mem_iff.mpr hn), h.nodes,
    hrest, List.forall_mem_cons.mpr ⟨hn, h.threads⟩, h.lock, h.refs, ?_, h.ready, h.blocked, h.done,
    fun hfailed n hn => (h.complete hfailed n hn).imp_left htokens.mem_iff.mp, h.log⟩
  intro n m hm
  refine (h.rrefs n m hm).imp_right fun hn => ⟨hn.1, fun hin => hn.2 ?_⟩
  rcases List.mem_cons.mp hin with heq | hin
  · cases heq
  · exact hin

theorem GraphOk.enqueueNode {nodes : List α} (h : GraphOk job s (.enqueueing (n :: nodes) :: others)) :
    GraphOk job { s with pending := s.pending ++ [n] } (.enqueueing nodes :: others) := by
  have htokens : s.tokens (.enqueueing (n :: nodes) :: others) =
      State.tokens { s with pending := s.pending ++ [n] } (.enqueueing nodes :: others) := by
    rw [State.tokens, State.tokens, List.flatMap_cons, List.flatMap_cons]
    change s.pending ++ (n :: nodes ++ others.flatMap Pc.held) =
      s.pending ++ [n] ++ (nodes ++ others.flatMap Pc.held)
    rw [List.append_assoc]
    rfl
  obtain ⟨hhead, hothers⟩ := List.forall_mem_cons.mp h.threads
  have hhead' : ∀ m ∈ n :: nodes, s.refs m = none ∧ .started m ∉ s.log := hhead
  obtain ⟨hn, hnodes⟩ := List.forall_mem_cons.mp hhead'
  refine ⟨htokens ▸ h.tokens, htokens ▸ h.left, h.nodes, ?_,
    List.forall_mem_cons.mpr ⟨hnodes, hothers⟩, ?_, h.refs, ?_, h.ready, h.blocked, h.done,
    htokens ▸ h.complete, h.log⟩
  · intro m hm
    rcases List.mem_append.mp hm with hm | hm
    · exact h.pending m hm
    · rw [List.mem_singleton.mp hm]
      exact ⟨.inl hn.1, hn.2⟩
  · have hle := h.lock
    rwa [List.countP_cons] at hle ⊢
  · intro n m hm
    exact (h.rrefs n m hm).imp_right fun hn => ⟨hn.1, fun hin => hn.2 (mem_others_of_ne hin nofun)⟩

theorem GraphOk.drop (h : GraphOk job s (t :: others)) (hdrop : t.held = [] ∨ s.failed = true) :
    GraphOk job s others := by
  have htokens : (s.tokens others).Sublist (s.tokens (t :: others)) := by
    rw [State.tokens, State.tokens, List.flatMap_cons]
    exact (List.Sublist.refl _).append (List.sublist_append_right _ _)
  refine ⟨h.tokens.sublist htokens, fun n hn => h.left n (htokens.subset hn), h.nodes, h.pending,
    (List.forall_mem_cons.mp h.threads).2, ?_, h.refs, ?_, h.ready, h.blocked, h.done, ?_, h.log⟩
  · have hle := h.lock
    rw [List.countP_cons] at hle
    omega
  · intro n m hm
    exact (h.rrefs n m hm).imp_right fun hn => ⟨hn.1, fun hin => hn.2 (List.mem_cons_of_mem _ hin)⟩
  · intro hnot n hn
    rcases hdrop with hheld | hfailed
    · refine (h.complete hnot n hn).imp_left fun htoken => ?_
      rwa [State.tokens, List.flatMap_cons, hheld] at htoken
    · rw [hfailed] at hnot
      cases hnot

theorem GraphOk.fail (h : GraphOk job s busy) : GraphOk job { s with failed := true } busy :=
  ⟨h.tokens, h.left, h.nodes, h.pending, h.threads, h.lock, h.refs, h.rrefs, h.ready, h.blocked,
    h.done, nofun, h.log⟩

omit [DecidableEq α] in
theorem PcOk.refs (h : PcOk s t) (hn : n ∈ t.held) : s.refs n = none ∨ s.refs n = some ∅ := by
  cases t with
  | enqueueing nodes => exact .inl (h n hn).1
  | starting node =>
      rw [List.mem_singleton.mp hn]
      exact h.1
  | gettingEdges node | linking node =>
      rw [List.mem_singleton.mp hn]
      exact .inl h.1
  | ready node | processing node | acquiring node | releasing node rrefs =>
      rw [List.mem_singleton.mp hn]
      exact .inr h.1
  | _ => cases hn

omit [DecidableEq α] in
theorem Startable.frame (h : Startable s n) (hrefs : s'.refs n = s.refs n)
    (hstarted : .started n ∈ s'.log ↔ .started n ∈ s.log) : Startable s' n := by
  rw [Startable, hrefs, hstarted]
  exact h

omit [DecidableEq α] in
theorem PcOk.frame (h : PcOk s t) (hrefs : ∀ n ∈ t.held, s'.refs n = s.refs n)
    (hstarted : ∀ n ∈ t.held, .started n ∈ s'.log ↔ .started n ∈ s.log)
    (hended : ∀ n ∈ t.held, .ended n ∈ s'.log ↔ .ended n ∈ s.log)
    (hreleasing : t.isReleasing = true → s'.refs = s.refs) : PcOk s' t := by
  cases t with
  | enqueueing nodes =>
      intro n hn
      rw [hrefs n hn, hstarted n hn]
      exact h n hn
  | starting node =>
      have hnode : node ∈ [node] := List.mem_cons_self
      exact Startable.frame h (hrefs node hnode) (hstarted node hnode)
  | gettingEdges node | linking node | ready node =>
      have hnode : node ∈ [node] := List.mem_cons_self
      rw [PcOk, hrefs node hnode, hstarted node hnode]
      exact h
  | processing node =>
      have hnode : node ∈ [node] := List.mem_cons_self
      rw [PcOk, hrefs node hnode, hstarted node hnode, hended node hnode]
      exact h
  | acquiring node =>
      have hnode : node ∈ [node] := List.mem_cons_self
      rw [PcOk, hrefs node hnode, hended node hnode]
      exact h
  | releasing node rrefs =>
      have hnode : node ∈ [node] := List.mem_cons_self
      rw [PcOk, hended node hnode, hreleasing rfl]
      exact h
  | aborted => exact h
  | _ => trivial

theorem InOrder.append {log : List (Call α)} {call : Call α} (h : InOrder job log)
    (hcall : call ∉ log) (hended : ∀ n, call = .ended n → .started n ∈ log)
    (horder : ∀ n, call = .started n →
      n ∈ job.nodes ∧ ∀ ref, job.Depends n ref → .ended ref ∈ log) :
    InOrder job (log ++ [call]) := by
  -- the call is the new one, or there is one after it
  have hsplit : ∀ before c after, log ++ [call] = before ++ c :: after →
      (before = log ∧ c = call) ∨ ∃ after, log = before ++ c :: after := by
    intro before c after heq
    rcases List.eq_nil_or_concat after with rfl | ⟨after, last, rfl⟩
    · obtain ⟨rfl, hlast⟩ := List.append_inj' heq rfl
      exact .inl ⟨rfl, (List.singleton_inj.mp hlast).symm⟩
    · rw [List.concat_eq_append, ← List.cons_append, ← List.append_assoc] at heq
      exact .inr ⟨after, (List.append_inj' heq rfl).1⟩
  refine ⟨fun c => ?_, fun before n after heq => ?_, fun before n after heq => ?_⟩
  · rw [List.count_append]
    by_cases hc : c = call
    · rw [hc, List.count_eq_zero.mpr hcall]
      exact (Nat.zero_add _).trans_le List.count_le_length
    · rw [List.count_eq_zero (l := [call]).mpr fun hin => hc (List.mem_singleton.mp hin)]
      exact h.once c
  · rcases hsplit before _ after heq with ⟨rfl, hn⟩ | ⟨after, heq⟩
    · exact hended n hn.symm
    · exact h.ended before n after heq
  · rcases hsplit before _ after heq with ⟨rfl, hn⟩ | ⟨after, heq⟩
    · exact horder n hn.symm
    · exact h.order before n after heq

theorem InOrder.started_of_ended {log : List (Call α)} (h : InOrder job log) (hn : .ended n ∈ log) :
    .started n ∈ log := by
  obtain ⟨before, after, rfl⟩ := List.append_of_mem hn
  exact List.mem_append_left _ (h.ended before n after rfl)

/-- `processNode` starts. -/
theorem GraphOk.started (h : GraphOk job s (.ready n :: others)) :
    GraphOk job { s with log := s.log ++ [.started n] } (.processing n :: others) := by
  obtain ⟨⟨hrefs, hstarted⟩, hothers⟩ := List.forall_mem_cons.mp h.threads
  obtain ⟨hpending, hheld⟩ := h.not_held (n := n) List.mem_cons_self
  have hother : ∀ m, m ≠ n → (.started m ∈ s.log ++ [.started n] ↔ .started m ∈ s.log) := by
    intro m hne
    simp [hne]
  have hends : ∀ m, .ended m ∈ s.log ++ [.started n] ↔ .ended m ∈ s.log := by
    intro m
    simp
  refine ⟨h.tokens, h.left, h.nodes, ?_, List.forall_mem_cons.mpr ⟨?_, ?_⟩, h.lock, h.refs, ?_, ?_,
    ?_, ?_, h.complete, ?_⟩
  · intro m hm
    exact (h.pending m hm).frame rfl (hother m (ne_of_mem_of_not_mem hm hpending))
  · refine ⟨hrefs, List.mem_append_right _ List.mem_cons_self, ?_⟩
    rw [hends]
    exact fun hended => hstarted (h.log.started_of_ended hended)
  · intro u hu
    exact (hothers u hu).frame (fun _ _ => rfl)
      (fun m hm => hother m fun heq => hheld u hu (heq ▸ hm)) (fun m _ => hends m) fun _ => rfl
  · intro m r hr
    exact (h.rrefs m r hr).imp_right fun hm =>
      ⟨(hends m).mpr hm.1, fun hin => hm.2 (mem_others_of_ne hin nofun)⟩
  · intro m refs hm r hdep
    exact (h.ready m refs hm r hdep).imp_right (hends r).mpr
  · intro m refs hm hne
    rw [hother m fun heq => hne (Option.some.inj (hm.symm.trans (heq ▸ hrefs)))]
    exact h.blocked m refs hm hne
  · intro m hm hleft
    exact (hends m).mpr (h.done m hm hleft)
  · refine h.log.append hstarted nofun fun m hm => ?_
    cases hm
    refine ⟨h.nodes _ (h.refs _ _ hrefs).1, fun ref hdep => ?_⟩
    exact (h.ready _ _ hrefs ref hdep).resolve_left (Finset.notMem_empty ref)

/-- `processNode` ends. -/
theorem GraphOk.ended (h : GraphOk job s (.processing n :: others)) :
    GraphOk job { s with log := s.log ++ [.ended n] } (.acquiring n :: others) := by
  obtain ⟨⟨hrefs, hstarted, hended⟩, hothers⟩ := List.forall_mem_cons.mp h.threads
  obtain ⟨-, hheld⟩ := h.not_held (n := n) List.mem_cons_self
  have hstarts : ∀ m, .started m ∈ s.log ++ [.ended n] ↔ .started m ∈ s.log := by
    intro m
    simp
  have hother : ∀ m, m ≠ n → (.ended m ∈ s.log ++ [.ended n] ↔ .ended m ∈ s.log) := by
    intro m hne
    simp [hne]
  have hmono : ∀ m, .ended m ∈ s.log → .ended m ∈ s.log ++ [.ended n] := fun m hm =>
    List.mem_append_left _ hm
  refine ⟨h.tokens, h.left, h.nodes, ?_, List.forall_mem_cons.mpr ⟨?_, ?_⟩, h.lock, h.refs, ?_, ?_,
    ?_, ?_, h.complete, ?_⟩
  · intro m hm
    exact (h.pending m hm).frame rfl (hstarts m)
  · exact ⟨hrefs, List.mem_append_right _ List.mem_cons_self⟩
  · intro u hu
    exact (hothers u hu).frame (fun _ _ => rfl) (fun m _ => hstarts m)
      (fun m hm => hother m fun heq => hheld u hu (heq ▸ hm)) fun _ => rfl
  · intro m r hr
    refine (h.rrefs m r hr).imp_right fun hm => ⟨hmono m hm.1, fun hin => ?_⟩
    rcases List.mem_cons.mp hin with heq | hin
    · cases heq
      exact hended hm.1
    · exact hm.2 (List.mem_cons_of_mem _ hin)
  · intro m refs hm r hdep
    exact (h.ready m refs hm r hdep).imp_right (hmono r)
  · intro m refs hm hne hin
    exact h.blocked m refs hm hne ((hstarts m).mp hin)
  · intro m hm hleft
    exact hmono m (h.done m hm hleft)
  · refine h.log.append hended (fun m hm => ?_) nofun
    cases hm
    exact hstarted

theorem GraphOk.link (h : GraphOk job s (.linking n :: others))
    (hfree : ∀ u ∈ others, u.isReleasing = false) :
    GraphOk job (s.link job n)
      (if (s.link job n).refs n = some ∅ then .ready n :: others else others) := by
  obtain ⟨⟨hnone, hstarted⟩, hothers⟩ := List.forall_mem_cons.mp h.threads
  obtain ⟨hpending, hheld⟩ := h.not_held (n := n) List.mem_cons_self
  have hnleft : n ∈ s.left :=
    h.left n (State.mem_tokens_cons.mpr (.inl List.mem_cons_self))
  obtain ⟨refs, hrefs⟩ : ∃ refs, refs = ((job.getEdges n).erase n).filter (· ∈ s.left) := ⟨_, rfl⟩
  have hlink : s.link job n =
      { s with
        refs := Function.update s.refs n (some refs)
        rrefs := fun ref => if ref ∈ refs then insert n (s.rrefs ref) else s.rrefs ref } := by
    rw [State.link, hnone, hrefs, Option.getD_none, Finset.empty_union]
  have hupdate : ∀ m, m ≠ n → Function.update s.refs n (some refs) m = s.refs m := fun m hne =>
    Function.update_of_ne hne _ _
  have hself : Function.update s.refs n (some refs) n = some refs := Function.update_self _ _ _
  have hmem : ∀ r ∈ refs, r ∈ s.left ∧ job.Depends n r := by
    intro r hr
    rw [hrefs, Finset.mem_filter, Finset.mem_erase] at hr
    exact ⟨hr.2, h.nodes n hnleft, h.nodes r hr.2, hr.1.1, hr.1.2⟩
  have hwaits : ∀ r m, (m ∈ if r ∈ refs then insert n (s.rrefs r) else s.rrefs r) ↔
      (m = n ∧ r ∈ refs) ∨ m ∈ s.rrefs r := by
    intro r m
    split
    next hr => rw [Finset.mem_insert, and_iff_left hr]
    next hr => rw [or_iff_right fun hmr => hr hmr.2]
  have hothers' : ∀ u ∈ others, PcOk { s with refs := Function.update s.refs n (some refs) } u := by
    intro u hu
    refine (hothers u hu).frame (fun m hm => hupdate m fun heq => hheld u hu (heq ▸ hm))
      (fun _ _ => Iff.rfl) (fun _ _ => Iff.rfl) fun hreleasing => ?_
    rw [hfree u hu] at hreleasing
    cases hreleasing
  have hlock : others.countP Pc.isReleasing = 0 := by
    rw [List.countP_eq_zero]
    intro u hu
    rw [hfree u hu]
    exact Bool.false_ne_true
  have hacquiring : ∀ m, .acquiring m ∉ (.linking n :: others) → .acquiring m ∉ (.ready n :: others) :=
    fun m hm hin => hm (mem_others_of_ne hin nofun)
  rw [hlink]
  -- `n` goes on, or waits: the rest is the same
  suffices hall : ∀ busy, (busy = .ready n :: others ∧ refs = ∅ ∨ busy = others ∧ refs ≠ ∅) →
      GraphOk job { s with
        refs := Function.update s.refs n (some refs)
        rrefs := fun ref => if ref ∈ refs then insert n (s.rrefs ref) else s.rrefs ref } busy by
    split
    next hempty => exact hall _ (.inl ⟨rfl, Option.some.inj (hself.symm.trans hempty)⟩)
    next hne => exact hall _ (.inr ⟨rfl, fun hempty => hne (hself.trans (congrArg some hempty))⟩)
  intro busy hbusy
  have hsub : (busy.flatMap Pc.held).Sublist
      ((.linking n :: others : List (Pc α)).flatMap Pc.held) := by
    rcases hbusy with ⟨rfl, -⟩ | ⟨rfl, -⟩
    · exact List.Sublist.refl _
    · exact List.sublist_append_right _ _
  have htokens := (List.Sublist.refl s.pending).append hsub
  refine ⟨h.tokens.sublist htokens, fun m hm => h.left m (htokens.subset hm), h.nodes, ?_, ?_, ?_, ?_,
    ?_, ?_, ?_, h.done, ?_, h.log⟩
  · intro m hm
    exact (h.pending m hm).frame (hupdate m (ne_of_mem_of_not_mem hm hpending)) Iff.rfl
  · rcases hbusy with ⟨rfl, rfl⟩ | ⟨rfl, -⟩
    · exact List.forall_mem_cons.mpr ⟨⟨hself, hstarted⟩, hothers'⟩
    · exact hothers'
  · rcases hbusy with ⟨rfl, -⟩ | ⟨rfl, -⟩
    · rw [List.countP_cons, hlock]
      exact Nat.zero_le 1
    · rw [hlock]
      exact Nat.zero_le 1
  · intro m refs' hm
    by_cases hmn : m = n
    · subst hmn
      obtain rfl := Option.some.inj (hself.symm.trans hm)
      exact ⟨hnleft, fun r hr => ⟨(hmem r hr).1, (hmem r hr).2, (hwaits r m).mpr (.inl ⟨rfl, hr⟩)⟩⟩
    · obtain ⟨hleft, hall⟩ := h.refs m refs' ((hupdate m hmn).symm.trans hm)
      refine ⟨hleft, fun r hr => ⟨(hall r hr).1, (hall r hr).2.1, ?_⟩⟩
      exact (hwaits r m).mpr (.inr (hall r hr).2.2)
  · intro r m hm
    rcases (hwaits r m).mp hm with ⟨rfl, hr⟩ | hm
    · exact .inl ⟨refs, hself, hr⟩
    · rcases h.rrefs r m hm with ⟨refs', hrefs', hr⟩ | ⟨hended, hnot⟩
      · refine .inl ⟨refs', (hupdate m ?_).trans hrefs', hr⟩
        rintro rfl
        rw [hnone] at hrefs'
        cases hrefs'
      · refine .inr ⟨hended, fun hin => ?_⟩
        rcases hbusy with ⟨rfl, -⟩ | ⟨rfl, -⟩
        · exact hacquiring r hnot hin
        · exact hnot (List.mem_cons_of_mem _ hin)
  · intro m refs' hm r hdep
    by_cases hmn : m = n
    · subst hmn
      obtain rfl := Option.some.inj (hself.symm.trans hm)
      by_cases hleft : r ∈ s.left
      · left
        rw [hrefs, Finset.mem_filter, Finset.mem_erase]
        exact ⟨⟨hdep.2.2.1, hdep.2.2.2⟩, hleft⟩
      · exact .inr (h.done r hdep.2.1 hleft)
    · exact h.ready m refs' ((hupdate m hmn).symm.trans hm) r hdep
  · intro m refs' hm hne
    by_cases hmn : m = n
    · rw [hmn]
      exact hstarted
    · exact h.blocked m refs' ((hupdate m hmn).symm.trans hm) hne
  · intro hfailed m hm
    by_cases hmn : m = n
    · subst hmn
      rcases hbusy with ⟨rfl, -⟩ | ⟨-, hne⟩
      · exact .inl (State.mem_tokens_cons.mpr (.inl List.mem_cons_self))
      · exact .inr ⟨refs, hself, hne⟩
    · rcases h.complete hfailed m hm with htoken | ⟨refs', hrefs', hne⟩
      · left
        have hothers := (State.mem_tokens_cons.mp htoken).resolve_left
          fun hmu => hmn (List.mem_singleton.mp hmu)
        rcases hbusy with ⟨rfl, -⟩ | ⟨rfl, -⟩
        · exact State.mem_tokens_cons.mpr (.inr hothers)
        · exact hothers
      · exact .inr ⟨refs', (hupdate m hmn).trans hrefs', hne⟩

theorem GraphOk.release {m : α} {rrefs refs : Finset α} {pending : List α}
    (h : GraphOk job s (.releasing n rrefs :: others)) (hm : m ∈ rrefs)
    (hrefs : s.refs m = some refs)
    (hpending : pending = s.pending ∧ (refs.erase n = ∅ → s.failed = true) ∨
      pending = s.pending ++ [m] ∧ refs.erase n = ∅) :
    GraphOk job
      { s with pending, refs := Function.update s.refs m (some (refs.erase n)) }
      (.releasing n (rrefs.erase m) :: others) := by
  obtain ⟨⟨hnrefs, hended, hrrefs⟩, hothers⟩ := List.forall_mem_cons.mp h.threads
  obtain ⟨hnpending, hheld⟩ := h.not_held (n := n) List.mem_cons_self
  have hn : n ∈ refs := by
    obtain ⟨refs', hrefs', hn⟩ := (hrrefs m).mp hm
    obtain rfl := Option.some.inj (hrefs.symm.trans hrefs')
    exact hn
  have hne : refs ≠ ∅ := Finset.ne_empty_of_mem hn
  have hblocked : ∀ r, s.refs r = none ∨ s.refs r = some ∅ → r ≠ m := by
    rintro r hr rfl
    rw [hrefs] at hr
    rcases hr with hr | hr
    · cases hr
    · exact hne (Option.some.inj hr)
  have hupdate : ∀ r, r ≠ m → Function.update s.refs m (some (refs.erase n)) r = s.refs r :=
    fun r hr => Function.update_of_ne hr _ _
  have hself : Function.update s.refs m (some (refs.erase n)) m = some (refs.erase n) :=
    Function.update_self _ _ _
  -- what the nodes wait for now, and what they waited for
  have hnew : ∀ r refs', Function.update s.refs m (some (refs.erase n)) r = some refs' →
      ∃ old, s.refs r = some old ∧ refs' ⊆ old ∧ ∀ x ∈ old, x ∈ refs' ∨ (r = m ∧ x = n) := by
    intro r refs' hr
    by_cases hrm : r = m
    · subst hrm
      obtain rfl := Option.some.inj (hself.symm.trans hr)
      refine ⟨refs, hrefs, Finset.erase_subset _ _, fun x hx => ?_⟩
      by_cases hxn : x = n
      · exact .inr ⟨rfl, hxn⟩
      · exact .inl (Finset.mem_erase.mpr ⟨hxn, hx⟩)
    · exact ⟨refs', (hupdate r hrm).symm.trans hr, Finset.Subset.refl _, fun x hx => .inl hx⟩
  have hmheld : ∀ u ∈ others, m ∉ u.held := fun u hu hmu =>
    hblocked m ((hothers u hu).refs hmu) rfl
  have hmpending : m ∉ s.pending := fun hin => hblocked m (h.pending m hin).1 rfl
  have hmn : n ≠ m := hblocked n (.inr hnrefs)
  have htokens : ∀ r, r ∈ State.tokens { s with pending } (.releasing n (rrefs.erase m) :: others) ↔
      r ∈ s.tokens (.releasing n rrefs :: others) ∨ (r = m ∧ pending = s.pending ++ [m]) := by
    intro r
    rw [State.tokens, State.tokens, List.mem_append, List.mem_append]
    rcases hpending with ⟨rfl, -⟩ | ⟨rfl, -⟩
    · simp [Pc.held]
    · simp only [List.mem_append, List.mem_singleton, and_true]
      tauto
  refine ⟨?_, ?_, h.nodes, ?_, List.forall_mem_cons.mpr ⟨?_, ?_⟩, h.lock, ?_, ?_, ?_, ?_, h.done, ?_,
    h.log⟩
  · rcases hpending with ⟨rfl, -⟩ | ⟨rfl, -⟩
    · exact h.tokens
    · rw [State.tokens, List.append_assoc]
      refine List.perm_middle.nodup_iff.mpr (List.nodup_cons.mpr ⟨?_, h.tokens⟩)
      intro hin
      rcases List.mem_append.mp hin with hin | hin
      · exact hmpending hin
      · obtain ⟨u, hu, hmu⟩ := List.mem_flatMap.mp hin
        rcases List.mem_cons.mp hu with rfl | hu
        · exact hmn (List.mem_singleton.mp hmu).symm
        · exact hmheld u hu hmu
  · intro r hr
    rcases (htokens r).mp hr with hr | ⟨rfl, -⟩
    · exact h.left r hr
    · exact (h.refs r refs hrefs).1
  · intro r hr
    have hcases : r ∈ s.pending ∨ (r = m ∧ refs.erase n = ∅) := by
      rcases hpending with ⟨rfl, -⟩ | ⟨rfl, hempty⟩
      · exact .inl hr
      · exact (List.mem_append.mp hr).imp_right fun hr => ⟨List.mem_singleton.mp hr, hempty⟩
    rcases hcases with hr | ⟨rfl, hempty⟩
    · exact (h.pending r hr).frame (hupdate r (ne_of_mem_of_not_mem hr hmpending)) Iff.rfl
    · exact ⟨.inr (hself.trans (congrArg some hempty)), h.blocked r refs hrefs hne⟩
  · refine ⟨(hupdate n hmn).trans hnrefs, hended, fun r => ?_⟩
    rw [Finset.mem_erase]
    constructor
    · rintro ⟨hrm, hr⟩
      obtain ⟨refs', hrefs', hn'⟩ := (hrrefs r).mp hr
      exact ⟨refs', (hupdate r hrm).trans hrefs', hn'⟩
    · rintro ⟨refs', hrefs', hn'⟩
      obtain ⟨old, hold, hsub, -⟩ := hnew r refs' hrefs'
      refine ⟨?_, (hrrefs r).mpr ⟨old, hold, hsub hn'⟩⟩
      rintro rfl
      rw [← Option.some.inj (hself.symm.trans hrefs')] at hn'
      exact Finset.notMem_erase n refs hn'
  · intro u hu
    refine (hothers u hu).frame (fun r hr => hupdate r fun heq => hmheld u hu (heq ▸ hr))
      (fun _ _ => Iff.rfl) (fun _ _ => Iff.rfl) fun hreleasing => ?_
    have hlock := h.lock
    rw [List.countP_cons] at hlock
    have hpos : 0 < others.countP Pc.isReleasing := List.countP_pos_iff.mpr ⟨u, hu, hreleasing⟩
    simp only [Pc.isReleasing, if_true] at hlock
    omega
  · intro r refs' hr
    obtain ⟨old, hold, hsub, -⟩ := hnew r refs' hr
    obtain ⟨hleft, hall⟩ := h.refs r old hold
    exact ⟨hleft, fun x hx => hall x (hsub hx)⟩
  · intro x r hr
    rcases h.rrefs x r hr with ⟨old, hold, hx⟩ | ⟨hxended, hnot⟩
    · by_cases hcase : r = m ∧ x = n
      · obtain ⟨rfl, rfl⟩ := hcase
        refine .inr ⟨hended, fun hin => ?_⟩
        rcases List.mem_cons.mp hin with heq | hin
        · cases heq
        · exact hheld _ hin List.mem_cons_self
      · left
        by_cases hrm : r = m
        · subst hrm
          obtain rfl := Option.some.inj (hrefs.symm.trans hold)
          exact ⟨_, hself, Finset.mem_erase.mpr ⟨fun heq => hcase ⟨rfl, heq⟩, hx⟩⟩
        · exact ⟨old, (hupdate r hrm).trans hold, hx⟩
    · exact .inr ⟨hxended, fun hin => hnot (mem_others_of_ne hin nofun)⟩
  · intro r refs' hr x hdep
    obtain ⟨old, hold, -, hall⟩ := hnew r refs' hr
    rcases h.ready r old hold x hdep with hx | hx
    · rcases hall x hx with hx | ⟨-, rfl⟩
      · exact .inl hx
      · exact .inr hended
    · exact .inr hx
  · intro r refs' hr hne'
    obtain ⟨old, hold, hsub, -⟩ := hnew r refs' hr
    refine h.blocked r old hold ?_
    rintro rfl
    exact hne' (Finset.subset_empty.mp hsub)
  · intro hfailed r hr
    rcases h.complete hfailed r hr with htoken | ⟨old, hold, hold_ne⟩
    · exact .inl ((htokens r).mpr (.inl htoken))
    · by_cases hrm : r = m
      · subst hrm
        by_cases hempty : refs.erase n = ∅
        · rcases hpending with ⟨-, hnot⟩ | ⟨heq, -⟩
          · have hfailed' := hnot hempty
            rw [hfailed] at hfailed'
            cases hfailed'
          · exact .inl ((htokens r).mpr (.inr ⟨rfl, heq⟩))
        · exact .inr ⟨_, hself, hempty⟩
      · exact .inr ⟨old, (hupdate r hrm).trans hold, hold_ne⟩

theorem GraphOk.erase (h : GraphOk job s (.releasing n ∅ :: others)) :
    GraphOk job (s.erase n) others := by
  obtain ⟨⟨hnrefs, hended, hrrefs⟩, hothers⟩ := List.forall_mem_cons.mp h.threads
  obtain ⟨hnpending, hheld⟩ := h.not_held (n := n) List.mem_cons_self
  have hnone : ∀ m refs, s.refs m = some refs → n ∉ refs := fun m refs hm hn =>
    Finset.notMem_empty m ((hrrefs m).mpr ⟨refs, hm, hn⟩)
  have hupdate : ∀ m, m ≠ n → Function.update s.refs n none m = s.refs m := fun m hm =>
    Function.update_of_ne hm _ _
  have hself : Function.update s.refs n none n = none := Function.update_self _ _ _
  have hsome : ∀ m refs, Function.update s.refs n none m = some refs →
      m ≠ n ∧ s.refs m = some refs := by
    intro m refs hm
    by_cases hmn : m = n
    · rw [hmn, hself] at hm
      cases hm
    · exact ⟨hmn, (hupdate m hmn).symm.trans hm⟩
  have hwaits : ∀ x m, m ∈ Function.update s.rrefs n ∅ x ↔ x ≠ n ∧ m ∈ s.rrefs x := by
    intro x m
    by_cases hx : x = n
    · rw [hx, Function.update_self]
      exact iff_of_false (Finset.notMem_empty m) fun hm => hm.1 rfl
    · rw [Function.update_of_ne hx, and_iff_right hx]
  have htokens : ∀ m, m ∈ s.tokens others → m ≠ n ∧ m ∈ s.tokens (.releasing n ∅ :: others) := by
    intro m hm
    refine ⟨?_, State.mem_tokens_cons.mpr (.inr hm)⟩
    rcases State.mem_tokens.mp hm with hm | ⟨u, hu, hmu⟩
    · exact ne_of_mem_of_not_mem hm hnpending
    · exact fun heq => hheld u hu (heq ▸ hmu)
  have hlock : others.countP Pc.isReleasing = 0 := by
    have hlock := h.lock
    rw [List.countP_cons] at hlock
    simp only [Pc.isReleasing, if_true] at hlock
    omega
  have hsub : (s.tokens others).Sublist (s.tokens (.releasing n ∅ :: others)) :=
    (List.Sublist.refl _).append (List.sublist_append_right _ _)
  refine ⟨h.tokens.sublist hsub, ?_, ?_, ?_, ?_, hlock.trans_le (Nat.zero_le 1), ?_, ?_, ?_, ?_, ?_,
    ?_, h.log⟩
  · intro m hm
    obtain ⟨hmn, hm⟩ := htokens m hm
    exact Finset.mem_erase.mpr ⟨hmn, h.left m hm⟩
  · intro m hm
    exact h.nodes m (Finset.mem_of_mem_erase hm)
  · intro m hm
    exact (h.pending m hm).frame (hupdate m (ne_of_mem_of_not_mem hm hnpending)) Iff.rfl
  · intro u hu
    refine (hothers u hu).frame (fun m hm => hupdate m fun heq => hheld u hu (heq ▸ hm))
      (fun _ _ => Iff.rfl) (fun _ _ => Iff.rfl) fun hreleasing => ?_
    exact absurd hreleasing (List.countP_eq_zero.mp hlock u hu)
  · intro m refs hm
    obtain ⟨hmn, hm⟩ := hsome m refs hm
    obtain ⟨hleft, hall⟩ := h.refs m refs hm
    refine ⟨Finset.mem_erase.mpr ⟨hmn, hleft⟩, fun x hx => ?_⟩
    have hxn : x ≠ n := fun heq => hnone m refs hm (heq ▸ hx)
    refine ⟨Finset.mem_erase.mpr ⟨hxn, (hall x hx).1⟩, (hall x hx).2.1, ?_⟩
    exact (hwaits x m).mpr ⟨hxn, (hall x hx).2.2⟩
  · intro x m hm
    rcases h.rrefs x m ((hwaits x m).mp hm).2 with ⟨refs, hrefs, hx⟩ | ⟨hxended, hnot⟩
    · left
      have hmn : m ≠ n := by
        rintro rfl
        rw [hnrefs] at hrefs
        obtain rfl := Option.some.inj hrefs
        exact Finset.notMem_empty x hx
      exact ⟨refs, (hupdate m hmn).trans hrefs, hx⟩
    · exact .inr ⟨hxended, fun hin => hnot (List.mem_cons_of_mem _ hin)⟩
  · intro m refs hm
    exact h.ready m refs (hsome m refs hm).2
  · intro m refs hm
    exact h.blocked m refs (hsome m refs hm).2
  · intro m hm hleft
    by_cases hmn : m = n
    · rw [hmn]
      exact hended
    · exact h.done m hm fun hin => hleft (Finset.mem_erase.mpr ⟨hmn, hin⟩)
  · intro hfailed m hm
    obtain ⟨hmn, hm⟩ := Finset.mem_erase.mp hm
    rcases h.complete hfailed m hm with htoken | ⟨refs, hrefs, hne⟩
    · exact .inl ((State.mem_tokens_cons.mp htoken).resolve_left
        fun hmu => hmn (List.mem_singleton.mp hmu))
    · exact .inr ⟨refs, (hupdate m hmn).trans hrefs, hne⟩

end Nix.Util.ThreadPools
