import Mathlib.Tactic
import Nix.Lib.MarkedWords
import Nix.Lib.Rewriting
import Nix.Store.References
import Nix.Util.RewriteLogs

set_option linter.dupNamespace false

namespace Nix.Store.HashModulo

open Util.Types Util.Rewrite Store.References Lib.SortedList Lib.MarkedWords Lib.Rewriting

def insertAll (matchSet positions : List Nat) : List Nat :=
  positions.foldl (fun ms p => insertNew compare p ms) matchSet

section Scan

variable {m z : Bytes}

/-- The loop continues the scan of what is behind position `j`. -/
theorem rewriteLoop_eq (hm : m ≠ []) (hz : z.length = m.length) (hinert : Inert m z)
    (shift fuel : Nat) (u t : Bytes) (ms : List Nat)
    (hfuel : (scan m z (u.length + shift) t).2.length < fuel) :
    rewriteLoop m z shift fuel u.length (u ++ t) ms =
      .ok (u ++ (scan m z (u.length + shift) t).1,
        insertAll ms (scan m z (u.length + shift) t).2) := by
  have hshift := scan_add (m := m) (z := z) shift u.length t
  have hlog := rewriteLoopLog_eq hm hz hinert fuel u t (by
    rw [hshift, List.length_map] at hfuel
    exact hfuel)
  rw [rewriteLoop_eq_log, hlog, hshift, insertAll, List.foldl_map]
  rfl

theorem rewriteStrings_eq (hz : z.length = m.length) (hf : Fresh m z) (s : Bytes)
    (ms : List Nat) (shift : Nat) :
    rewriteStrings s [(m, z)] ms shift =
      .ok ((scan m z shift s).1, insertAll ms (scan m z shift s).2) := by
  simp only [rewriteStrings, List.foldlM_cons, List.foldlM_nil]
  rcases eq_or_ne m [] with rfl | hm
  · obtain rfl : z = [] := List.length_eq_zero_iff.mp hz
    simp [scan_nil_pattern, insertAll, bind, Except.bind, pure, Except.pure]
  · have hne : m ≠ z := by
      rintro rfl
      obtain ⟨c, m, rfl⟩ := List.exists_cons_of_ne_nil hm
      exact hf c (by simp) rfl
    have hinert : Inert m z := fun _ _ hi => hf.not_prefix (fun _ h => h) hi hm
    have hloop := rewriteLoop_eq hm hz hinert shift (s.length + 1) [] s ms
      (Nat.lt_succ_of_le (length_scan_positions_le _ s))
    simp only [List.length_nil, List.nil_append, Nat.zero_add] at hloop
    simp [hne, hloop, bind, Except.bind, pure, Except.pure]

theorem write_eq_ok {sink : RewritingSink} {data r : Bytes} {ms : List Nat}
    (h : rewriteStrings (sink.prev ++ data) sink.rewrites sink.matchSet sink.pos = .ok (r, ms)) :
    sink.write data = .ok
      { rewrites := sink.rewrites
        maxRewriteSize := sink.maxRewriteSize
        prev := RewritingSink.newPrev sink.maxRewriteSize r
        pos := sink.pos + (r.length - (RewritingSink.newPrev sink.maxRewriteSize r).length)
        matchSet := ms
        written := sink.written ++
          r.take (r.length - (RewritingSink.newPrev sink.maxRewriteSize r).length) } := by
  simp only [RewritingSink.write, h, bind, Except.bind, pure, Except.pure]
  split
  · rfl
  next hzero => rw [not_not.mp hzero, List.take_zero, List.append_nil]

theorem insertAll_eq_append {off off' : Nat} {s t : Bytes}
    (h : ∀ p ∈ (scan m z off s).2, p < off') :
    insertAll (scan m z off s).2 (scan m z off' t).2 =
      (scan m z off s).2 ++ (scan m z off' t).2 := by
  refine foldl_insertNew (List.pairwise_append.mpr ⟨?_, ?_, ?_⟩)
  · exact (scan_positions_sorted off s).imp fun hlt => Nat.compare_eq_lt.mpr hlt
  · exact (scan_positions_sorted off' t).imp fun hlt => Nat.compare_eq_lt.mpr hlt
  · intro p hp q hq
    have hlt := h p hp
    have hb := scan_positions_bounds hq
    exact Nat.compare_eq_lt.mpr (by omega)

/-- How much of the stream `s` the sink has passed on. -/
def passed (m s : Bytes) : Nat :=
  s.length - keep m s

/-- The state of the sink after the stream `s`. -/
def stateAfter (m z s : Bytes) : RewritingSink where
  rewrites := [(m, z)]
  maxRewriteSize := m.length
  prev := (scan m z 0 s).1.drop (passed m s)
  pos := passed m s
  matchSet := (scan m z 0 s).2
  written := (scan m z 0 s).1.take (passed m s)

theorem newPrev_eq (maxRewriteSize : Nat) (s : Bytes) :
    RewritingSink.newPrev maxRewriteSize s =
      s.drop (s.length - min s.length (maxRewriteSize - 1)) := by
  unfold RewritingSink.newPrev
  split
  · rw [Nat.min_eq_left (by omega), Nat.sub_self, List.drop_zero]
  · split
    · rw [List.drop_eq_nil_of_le (by omega)]
    · have hdrop : s.length - min s.length (maxRewriteSize - 1) = s.length - maxRewriteSize + 1 := by
        omega
      rw [hdrop, List.take_of_length_le (by rw [List.length_drop]; omega)]

theorem passed_append (s d : Bytes) :
    passed m (s ++ d) = passed m s + ((s.length - passed m s + d.length) -
      min (s.length - passed m s + d.length) (m.length - 1)) := by
  simp only [passed, keep, List.length_append]
  omega

theorem write_stateAfter (hz : z.length = m.length) (hf : Fresh m z) (s d : Bytes) :
    (stateAfter m z s).write d = .ok (stateAfter m z (s ++ d)) := by
  have hscan := scan_append hz hf 0 s d
  simp only [Nat.zero_add] at hscan
  have hlen := scan_length hz 0 s
  have hrest : (scan m z (passed m s)
      ((scan m z 0 s).1.drop (passed m s) ++ d)).1.length = s.length - passed m s + d.length := by
    rw [scan_length hz, List.length_append, List.length_drop, hlen]
  have hmatches : insertAll (scan m z 0 s).2 (scan m z (passed m s)
      ((scan m z 0 s).1.drop (passed m s) ++ d)).2 = (scan m z 0 (s ++ d)).2 := by
    rw [insertAll_eq_append, hscan]
    · rfl
    · intro p hp
      have hb := scan_positions_bounds hp
      have hpos : m ≠ [] := by
        rintro rfl
        simp [scan_nil_pattern] at hp
      have hm := List.length_pos_of_ne_nil hpos
      simp only [passed, keep]
      omega
  have htext : (scan m z 0 (s ++ d)).1 = (scan m z 0 s).1.take (passed m s) ++
      (scan m z (passed m s) ((scan m z 0 s).1.drop (passed m s) ++ d)).1 := by
    rw [hscan]
    rfl
  have hrewrite : rewriteStrings ((stateAfter m z s).prev ++ d) (stateAfter m z s).rewrites
      (stateAfter m z s).matchSet (stateAfter m z s).pos =
      .ok ((scan m z (passed m s) ((scan m z 0 s).1.drop (passed m s) ++ d)).1,
        (scan m z 0 (s ++ d)).2) := by
    rw [← hmatches]
    exact rewriteStrings_eq hz hf _ _ _
  rw [write_eq_ok hrewrite]
  generalize (scan m z (passed m s) ((scan m z 0 s).1.drop (passed m s) ++ d)).1 = r at hrest htext
  have hprev : RewritingSink.newPrev (stateAfter m z s).maxRewriteSize r =
      r.drop (r.length - keep m r) := newPrev_eq m.length r
  have hle : keep m r ≤ r.length := Nat.min_le_left _ _
  have hconsumed : r.length - (r.drop (r.length - keep m r)).length = r.length - keep m r := by
    rw [List.length_drop]
    omega
  have hpassed : passed m (s ++ d) = passed m s + (r.length - keep m r) := by
    rw [passed_append, keep, hrest]
  have htake : ((scan m z 0 s).1.take (passed m s)).length = passed m s := by
    rw [List.length_take, hlen, passed]
    omega
  have hdrop : (scan m z 0 (s ++ d)).1.drop (passed m (s ++ d)) =
      r.drop (r.length - keep m r) := by
    rw [htext, hpassed, List.drop_append, htake, List.drop_eq_nil_of_le (by rw [htake]; omega),
      Nat.add_sub_cancel_left, List.nil_append]
  have hwritten : (scan m z 0 (s ++ d)).1.take (passed m (s ++ d)) =
      (scan m z 0 s).1.take (passed m s) ++ r.take (r.length - keep m r) := by
    rw [htext, hpassed, List.take_append, htake, List.take_of_length_le (by rw [htake]; omega),
      Nat.add_sub_cancel_left]
  rw [hprev, hconsumed]
  simp only [stateAfter]
  rw [hdrop, hwritten, hpassed]

theorem foldlM_write (hz : z.length = m.length) (hf : Fresh m z) (s : Bytes)
    (fragments : List Bytes) :
    fragments.foldlM RewritingSink.write (stateAfter m z s) =
      .ok (stateAfter m z (s ++ fragments.flatten)) := by
  induction fragments generalizing s with
  | nil => simp [pure, Except.pure]
  | cons d fragments ih =>
      rw [List.foldlM_cons, write_stateAfter hz hf, List.flatten_cons, ← List.append_assoc]
      exact ih (s ++ d)

theorem finish_eq (sink : RewritingSink) :
    HashModuloSink.finish sink =
      ⟨sink.written ++ sink.prev ++ formatMatches sink.matchSet,
        sink.pos + sink.prev.length⟩ := by
  unfold HashModuloSink.finish RewritingSink.flush
  by_cases hprev : sink.prev = []
  · simp [hprev]
  · simp [hprev]

theorem finish_stateAfter (hz : z.length = m.length) (s : Bytes) :
    HashModuloSink.finish (stateAfter m z s) =
      ⟨(scan m z 0 s).1 ++ formatMatches (scan m z 0 s).2, s.length⟩ := by
  have hpassed : passed m s + (s.length - passed m s) = s.length := by
    unfold passed
    omega
  rw [finish_eq]
  simp only [stateAfter]
  rw [List.take_append_drop, List.length_drop, scan_length hz, hpassed]

end Scan

theorem fresh_zeros {modulus : Bytes} (h : (0 : UInt8) ∉ modulus) :
    Fresh modulus (List.replicate modulus.length 0) := by
  intro c hc hhead
  obtain rfl := (List.mem_replicate.mp hc).2
  exact h (List.mem_of_mem_head? hhead)

theorem make_eq (modulus : Bytes) :
    HashModuloSink.make modulus =
      .ok (stateAfter modulus (List.replicate modulus.length 0) []) := by
  simp [HashModuloSink.make, RewritingSink.make, stateAfter, scan_nil, passed, bind, Except.bind,
    pure, Except.pure]

theorem digest_eq {modulus : Bytes} (h : (0 : UInt8) ∉ modulus) (fragments : List Bytes) :
    HashModuloSink.digest modulus fragments =
      .ok ⟨(scan modulus (List.replicate modulus.length 0) 0 fragments.flatten).1 ++
        formatMatches (scan modulus (List.replicate modulus.length 0) 0 fragments.flatten).2,
        fragments.flatten.length⟩ := by
  have hz : (List.replicate modulus.length (0 : UInt8)).length = modulus.length :=
    List.length_replicate
  rw [HashModuloSink.digest, make_eq]
  simp only [bind, Except.bind]
  have hrun := foldlM_write hz (fresh_zeros h) [] fragments
  rw [List.nil_append] at hrun
  rw [hrun]
  exact congrArg Except.ok (finish_stateAfter hz _)

/-- The digest depends on the stream only: it is the rewritten stream with the
offsets of the matches in increasing order. -/
theorem digest_eq_rewriteStrings (modulus : Bytes) (h : (0 : UInt8) ∉ modulus)
    (fragments : List Bytes) :
    ∃ s ms, rewriteStrings fragments.flatten [(modulus, List.replicate modulus.length 0)] [] 0 =
        .ok (s, ms) ∧ ms.Pairwise (· < ·) ∧
      HashModuloSink.digest modulus fragments =
        .ok ⟨s ++ formatMatches ms, fragments.flatten.length⟩ := by
  have hz : (List.replicate modulus.length (0 : UInt8)).length = modulus.length :=
    List.length_replicate
  have hrewrite := rewriteStrings_eq hz (fresh_zeros h) fragments.flatten [] 0
  have hnone := @insertAll_eq_append modulus (List.replicate modulus.length 0) 0 0 []
    fragments.flatten (by simp [scan_nil])
  rw [scan_nil, List.nil_append] at hnone
  rw [hnone] at hrewrite
  exact ⟨_, _, hrewrite, scan_positions_sorted 0 _, digest_eq h fragments⟩

/-- Two matches, one of them over three fragments. -/
theorem digest_eq_rewriteStrings_fragments :
    ∃ s ms, rewriteStrings [str "xab", [], str "abaa", str "ba"].flatten
        [(str "aba", List.replicate (str "aba").length 0)] [] 0 = .ok (s, ms) ∧
      ms.Pairwise (· < ·) ∧
      HashModuloSink.digest (str "aba") [str "xab", [], str "abaa", str "ba"] =
        .ok ⟨s ++ formatMatches ms, [str "xab", [], str "abaa", str "ba"].flatten.length⟩ :=
  digest_eq_rewriteStrings (str "aba") (by decide) _

end Nix.Store.HashModulo
