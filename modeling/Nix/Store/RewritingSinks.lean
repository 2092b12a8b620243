import Nix.Lib.OnlineRewriting
import Nix.Store.HashModulo

set_option linter.dupNamespace false

namespace Nix.Store.RewritingSinks

open Util.Types Util.Rewrite Store.References Store.HashModulo Lib.SortedList Lib.MarkedWords
  Lib.Rewriting Lib.OnlineRewriting

/-- What `nextSink` has received of a stream that arrives in fragments, after `flush`. -/
def rewriteFragments (rewrites : List (Bytes × Bytes)) (fragments : List Bytes) :
    Except Error Bytes := do
  let sink ← RewritingSink.make rewrites
  let sink ← fragments.foldlM RewritingSink.write sink
  return sink.flush.written

/-- The rewrites that `rewriteStrings` does not skip. -/
def effective (rewrites : List (Bytes × Bytes)) : List (Bytes × Bytes) :=
  rewrites.filter fun r => r.1 ≠ r.2

theorem rewriteStrings_eq_rewriteAll {rewrites : List (Bytes × Bytes)}
    (hlen : ∀ r ∈ rewrites, r.2.length = r.1.length)
    (hinert : ∀ r ∈ effective rewrites, r.1 ≠ [] ∧ Inert r.1 r.2)
    (s : Bytes) (matchSet : List Nat) (offsetShift : Nat) :
    ∃ matchSet', rewriteStrings s rewrites matchSet offsetShift =
      .ok (rewriteAll (effective rewrites) s, matchSet') := by
  induction rewrites generalizing s matchSet with
  | nil => exact ⟨matchSet, rfl⟩
  | cons r rewrites ih =>
    have hrest := @ih (fun q hq => hlen q (List.mem_cons_of_mem _ hq))
      fun q hq => hinert q ((List.sublist_cons_self r rewrites).filter _ |>.subset hq)
    unfold rewriteStrings at hrest ⊢
    rw [List.foldlM_cons]
    by_cases hr : r.1 = r.2
    · have heff : effective (r :: rewrites) = effective rewrites :=
        List.filter_cons_of_neg (by simpa using hr)
      rw [if_pos hr, heff]
      exact hrest s matchSet
    · have heff : effective (r :: rewrites) = r :: effective rewrites :=
        List.filter_cons_of_pos (by simpa using hr)
      rw [if_neg hr, heff, rewriteAll_cons]
      obtain ⟨hne, hin⟩ := hinert r (by rw [heff]; exact List.mem_cons_self)
      have hloop := rewriteLoop_eq hne (hlen r List.mem_cons_self) hin offsetShift (s.length + 1) []
        s matchSet (Nat.lt_succ_of_le (length_scan_positions_le _ s))
      rw [List.length_nil, List.nil_append, List.nil_append, scan_fst] at hloop
      rw [hloop]
      exact hrest (rewrite r s) _

/-- What the sink has after `text`. -/
structure Holds (rewrites : List (Bytes × Bytes)) (text : Bytes) (sink : RewritingSink) : Prop where
  sink_rewrites : sink.rewrites = rewrites
  le_max : ∀ r ∈ effective rewrites, r.1.length ≤ sink.maxRewriteSize
  appended : sink.written ++ sink.prev = text.foldl (step (effective rewrites)) []
  enough : sink.written = [] ∨ sink.maxRewriteSize ≤ sink.prev.length + 1

theorem effective_subset {rewrites : List (Bytes × Bytes)} {r : Bytes × Bytes}
    (hr : r ∈ effective rewrites) : r ∈ rewrites :=
  List.mem_of_mem_filter hr

variable {rewrites : List (Bytes × Bytes)}

theorem make_holds (hlen : ∀ r ∈ rewrites, r.2.length = r.1.length) :
    ∃ sink, RewritingSink.make rewrites = .ok sink ∧ Holds rewrites [] sink := by
  have hmax : ∀ (rs : List (Bytes × Bytes)) (n : Nat), (∀ r ∈ rs, r.2.length = r.1.length) →
      ∃ m, rs.foldlM (fun maxRewriteSize (r : Bytes × Bytes) =>
          if r.1.length = r.2.length then (.ok (max maxRewriteSize r.1.length) : Except Error Nat)
          else .error (.assertion "from.size() == to.size()")) n = .ok m ∧
        n ≤ m ∧ ∀ r ∈ rs, r.1.length ≤ m := by
    intro rs
    induction rs with
    | nil => exact fun n _ => ⟨n, rfl, le_rfl, by simp⟩
    | cons r rs ih =>
      intro n hrs
      obtain ⟨m, hm, hle, hall⟩ := ih (max n r.1.length) fun q hq =>
        hrs q (List.mem_cons_of_mem _ hq)
      refine ⟨m, ?_, by omega, fun q hq => ?_⟩
      · rw [List.foldlM_cons, if_pos (hrs r List.mem_cons_self).symm]
        exact hm
      · rcases List.mem_cons.mp hq with rfl | hq
        · omega
        · exact hall q hq
  obtain ⟨m, hm, -, hall⟩ := hmax rewrites 0 hlen
  refine ⟨{ rewrites, maxRewriteSize := m }, ?_, rfl, fun r hr => hall r (effective_subset hr),
    rfl, Or.inl rfl⟩
  rw [RewritingSink.make, hm]
  rfl

theorem write_holds (hlen : ∀ r ∈ rewrites, r.2.length = r.1.length)
    (hs : Separate (effective rewrites)) {text : Bytes} {sink : RewritingSink}
    (h : Holds rewrites text sink) (data : Bytes) :
    ∃ sink', sink.write data = .ok sink' ∧ Holds rewrites (text ++ data) sink' := by
  have hlen' : ∀ r ∈ effective rewrites, r.2.length = r.1.length :=
    fun r hr => hlen r (effective_subset hr)
  have hinert : ∀ r ∈ effective rewrites, r.1 ≠ [] ∧ Inert r.1 r.2 := fun r hr =>
    ⟨hs.ne_nil r hr, inert_of_not_overlaps (hs.ne_nil r hr) (hs.replaced r hr r hr)⟩
  obtain ⟨matchSet, hrewrite⟩ := rewriteStrings_eq_rewriteAll hlen hinert (sink.prev ++ data)
    sink.matchSet sink.pos
  have hclean : Clean (effective rewrites) (text.foldl (step (effective rewrites)) []) :=
    foldl_step_clean hs (fun r hr hinf => hs.ne_nil r hr (List.infix_nil.mp hinf)) text
  rw [← h.appended] at hclean
  -- the rewritten text is the old tail with the new letters
  have hstep := rewriteAll_eq_foldl hs
    (hclean.mono (List.suffix_append sink.written sink.prev).isInfix) data
  rw [hstep] at hrewrite
  have hcount := foldl_step_length hlen' sink.prev data
  have happended : sink.written ++ data.foldl (step (effective rewrites)) sink.prev =
      (text ++ data).foldl (step (effective rewrites)) [] := by
    rw [List.foldl_append, ← h.appended]
    rcases h.enough with hnil | hle
    · rw [hnil, List.nil_append, List.nil_append]
    · exact (foldl_step_append hlen' (fun r hr => (h.le_max r hr).trans hle) _ _).symm
  generalize data.foldl (step (effective rewrites)) sink.prev = s at hrewrite hcount happended
  rw [← h.sink_rewrites] at hrewrite
  have hprev := newPrev_eq sink.maxRewriteSize s
  have hprevLen : (RewritingSink.newPrev sink.maxRewriteSize s).length =
      min s.length (sink.maxRewriteSize - 1) := by
    rw [hprev, List.length_drop]
    omega
  refine ⟨_, write_eq_ok hrewrite, h.sink_rewrites, h.le_max, ?_, ?_⟩
  · rw [List.append_assoc, hprevLen, hprev, List.take_append_drop, happended]
  · dsimp only
    rw [hprevLen]
    rcases h.enough with hnil | hle
    · rcases Nat.lt_or_ge s.length sink.maxRewriteSize with hlt | hge
      · left
        rw [hnil, Nat.min_eq_left (by omega), Nat.sub_self, List.take_zero, List.append_nil]
      · right
        omega
    · right
      omega

theorem foldlM_write_holds (hlen : ∀ r ∈ rewrites, r.2.length = r.1.length)
    (hs : Separate (effective rewrites)) {text : Bytes} {sink : RewritingSink}
    (h : Holds rewrites text sink) (fragments : List Bytes) :
    ∃ sink', fragments.foldlM RewritingSink.write sink = .ok sink' ∧
      Holds rewrites (text ++ fragments.flatten) sink' := by
  induction fragments generalizing text sink with
  | nil => exact ⟨sink, rfl, by rwa [List.flatten_nil, List.append_nil]⟩
  | cons data fragments ih =>
    obtain ⟨sink₁, hwrite, h₁⟩ := write_holds hlen hs h data
    obtain ⟨sink₂, hrest, h₂⟩ := ih h₁
    refine ⟨sink₂, ?_, by rwa [List.flatten_cons, ← List.append_assoc]⟩
    rw [List.foldlM_cons, hwrite]
    exact hrest

theorem flush_written (sink : RewritingSink) :
    sink.flush.written = sink.written ++ sink.prev := by
  unfold RewritingSink.flush
  split
  next h => rw [h, List.append_nil]
  · rfl

theorem rewriteFragments_eq_foldl (hlen : ∀ r ∈ rewrites, r.2.length = r.1.length)
    (hs : Separate (effective rewrites)) (fragments : List Bytes) :
    rewriteFragments rewrites fragments =
      .ok (fragments.flatten.foldl (step (effective rewrites)) []) := by
  obtain ⟨sink, hmake, h⟩ := make_holds hlen
  obtain ⟨sink', hwrites, h'⟩ := foldlM_write_holds hlen hs h fragments
  rw [rewriteFragments, hmake]
  simp only [bind, Except.bind, hwrites, pure, Except.pure, flush_written, h'.appended,
    List.nil_append]

end Nix.Store.RewritingSinks
