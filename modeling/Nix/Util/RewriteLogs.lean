import Nix.Lib.OnlineRewriting
import Nix.Util.Rewrite

/-!
The matches of `rewriteStrings` in the order in which they are recorded.
-/

set_option linter.dupNamespace false

namespace Nix.Util.Rewrite

open Util.Types Lib.SortedList Lib.MarkedWords Lib.Rewriting Lib.OnlineRewriting

def rewriteLoopLog (first second : Bytes) : Nat → Nat → Bytes → Except Error (Bytes × List Nat)
  | 0, _, _ => .error .diverges
  | fuel + 1, j, s =>
      match find first s j with
      | none => .ok (s, [])
      | some j =>
          (rewriteLoopLog first second fuel j (replace s j first.length second)).map fun r =>
            (r.1, j :: r.2)

/-- One rewrite, which is passed over when it changes nothing. -/
def rewriteOneLog (s : Bytes) (i : Bytes × Bytes) : Except Error (Bytes × List Nat) :=
  if i.1 = i.2 then .ok (s, []) else rewriteLoopLog i.1 i.2 (s.length + 1) 0 s

/-- `rewriteStrings`, with the positions of the matches of each rewrite. -/
def rewriteStringsLog (s : Bytes) : List (Bytes × Bytes) → Except Error (Bytes × List (List Nat))
  | [] => .ok (s, [])
  | i :: rewrites => do
      let (s, log) ← rewriteOneLog s i
      let (s, logs) ← rewriteStringsLog s rewrites
      return (s, log :: logs)

def record (offsetShift : Nat) (matchSet log : List Nat) : List Nat :=
  log.foldl (fun matchSet j => insertNew compare (j + offsetShift) matchSet) matchSet

theorem rewriteLoop_eq_log (first second : Bytes) (offsetShift fuel j : Nat) (s : Bytes)
    (matchSet : List Nat) :
    rewriteLoop first second offsetShift fuel j s matchSet =
      (rewriteLoopLog first second fuel j s).map fun r =>
        (r.1, record offsetShift matchSet r.2) := by
  induction fuel generalizing j s matchSet with
  | zero => rfl
  | succ fuel ih =>
    rw [rewriteLoop, rewriteLoopLog]
    cases find first s j with
    | none => rfl
    | some i =>
      dsimp only
      rw [ih]
      cases rewriteLoopLog first second fuel i (replace s i first.length second) <;> rfl

theorem rewriteStrings_eq_log (s : Bytes) (rewrites : List (Bytes × Bytes)) (matchSet : List Nat)
    (offsetShift : Nat) :
    rewriteStrings s rewrites matchSet offsetShift =
      (rewriteStringsLog s rewrites).map fun r =>
        (r.1, record offsetShift matchSet r.2.flatten) := by
  induction rewrites generalizing s matchSet with
  | nil => rfl
  | cons i rewrites ih =>
    have hloop : (if i.1 = i.2 then .ok (s, matchSet)
        else rewriteLoop i.1 i.2 offsetShift (s.length + 1) 0 s matchSet) =
        (rewriteOneLog s i).map fun r => (r.1, record offsetShift matchSet r.2) := by
      rw [rewriteOneLog]
      split
      next => rfl
      next => exact rewriteLoop_eq_log ..
    rw [rewriteStrings, List.foldlM_cons, hloop, rewriteStringsLog]
    cases rewriteOneLog s i with
    | error e => rfl
    | ok r =>
      obtain ⟨s₁, log⟩ := r
      refine (ih s₁ (record offsetShift matchSet log)).trans ?_
      dsimp only [bind, Except.bind, Except.map]
      cases rewriteStringsLog s₁ rewrites with
      | error e => rfl
      | ok r =>
        refine congrArg (fun matchSet => Except.ok (r.1, matchSet)) ?_
        rw [List.flatten_cons, record, record, record, List.foldl_append]

theorem length_replace {s first second : Bytes} {i : Nat} (hlen : second.length = first.length)
    (h : first <+: s.drop i) : (replace s i first.length second).length = s.length := by
  have hle := h.length_le
  rw [List.length_drop] at hle
  rw [replace, List.length_append, List.length_append, List.length_take, List.length_drop, hlen]
  rcases Nat.eq_zero_or_pos first.length with hzero | hpos <;> omega

theorem prefix_drop_replace {s : Bytes} (second : Bytes) {i : Nat} (h : i ≤ s.length) (n : Nat) :
    second <+: (replace s i n second).drop i := by
  rw [replace, List.append_assoc, List.drop_left' (by rw [List.length_take]; omega)]
  exact List.prefix_append second _

theorem rewriteLoopLog_ends {first second : Bytes} (hne : first ≠ second) (hfirst : first ≠ [])
    (hlen : second.length = first.length) {fuel j : Nat} {s : Bytes} (hfuel : 0 < fuel)
    (h : ∀ i, find first s j = some i → s.length - i < fuel) :
    ∃ s' log, rewriteLoopLog first second fuel j s = .ok (s', log) ∧ s'.length = s.length ∧
      log.Pairwise (· < ·) ∧ ∀ k ∈ log, ∃ i, find first s j = some i ∧ i ≤ k := by
  induction fuel generalizing j s with
  | zero => exact absurd hfuel (Nat.lt_irrefl 0)
  | succ fuel ih =>
    rw [rewriteLoopLog]
    cases hfind : find first s j with
    | none => exact ⟨s, [], rfl, rfl, .nil, nofun⟩
    | some i =>
      obtain ⟨-, hi, hpre, -⟩ := find_eq_some hfind
      have hin : i < s.length := by
        have hle := hpre.length_le
        have hpos := List.length_pos_of_ne_nil hfirst
        rw [List.length_drop] at hle
        omega
      have hlength := length_replace hlen hpre
      have hnext : ∀ k, find first (replace s i first.length second) i = some k →
          i < k ∧ k ≤ s.length := by
        intro k hk
        obtain ⟨hle, hlt, hmatch, -⟩ := find_eq_some hk
        rw [hlength] at hlt
        refine ⟨Nat.lt_of_le_of_ne hle ?_, hlt⟩
        rintro rfl
        have hsecond := prefix_drop_replace second hi first.length
        exact hne ((List.prefix_of_prefix_length_le hmatch hsecond
          (Nat.le_of_eq hlen.symm)).eq_of_length hlen.symm)
      have hround := h i hfind
      obtain ⟨s', log, hloop, hlength', hlog, hbehind⟩ :=
        @ih i (replace s i first.length second) (by omega) fun k hk => by
          have hik := hnext k hk
          omega
      refine ⟨s', i :: log, ?_, hlength'.trans hlength, ?_, ?_⟩
      · dsimp only
        rw [hloop]
        rfl
      · refine List.pairwise_cons.mpr ⟨fun k hk => ?_, hlog⟩
        obtain ⟨n, hn, hle⟩ := hbehind k hk
        exact Nat.lt_of_lt_of_le (hnext n hn).1 hle
      · intro k hk
        rcases List.mem_cons.mp hk with rfl | hk
        · exact ⟨k, rfl, Nat.le_refl k⟩
        · obtain ⟨n, hn, hle⟩ := hbehind k hk
          exact ⟨i, rfl, Nat.le_trans (Nat.le_of_lt (hnext n hn).1) hle⟩

theorem rewriteOneLog_ends {i : Bytes × Bytes} (hne : i.1 ≠ []) (hlen : i.2.length = i.1.length)
    (s : Bytes) : ∃ s' log, rewriteOneLog s i = .ok (s', log) ∧ s'.length = s.length ∧
      log.Pairwise (· < ·) := by
  rw [rewriteOneLog]
  split
  next => exact ⟨s, [], rfl, rfl, .nil⟩
  next hsame =>
    obtain ⟨s', log, hloop, hlength, hlog, -⟩ := rewriteLoopLog_ends hsame hne hlen
      (Nat.succ_pos s.length) fun k _ => Nat.lt_succ_of_le (Nat.sub_le s.length k)
    exact ⟨s', log, hloop, hlength, hlog⟩

theorem rewriteStringsLog_ends {rewrites : List (Bytes × Bytes)}
    (h : ∀ r ∈ rewrites, r.1 ≠ [] ∧ r.2.length = r.1.length) (s : Bytes) :
    ∃ s' logs, rewriteStringsLog s rewrites = .ok (s', logs) ∧ s'.length = s.length ∧
      logs.length = rewrites.length ∧ ∀ log ∈ logs, log.Pairwise (· < ·) := by
  induction rewrites generalizing s with
  | nil => exact ⟨s, [], rfl, rfl, rfl, nofun⟩
  | cons i rewrites ih =>
    obtain ⟨hne, hlen⟩ := h i List.mem_cons_self
    obtain ⟨s₁, log, hone, hlength, hlog⟩ := rewriteOneLog_ends hne hlen s
    obtain ⟨s', logs, hrest, hlength', hlogs, hall⟩ :=
      ih (fun r hr => h r (List.mem_cons_of_mem _ hr)) s₁
    refine ⟨s', log :: logs, ?_, hlength'.trans hlength, congrArg Nat.succ hlogs, ?_⟩
    · rw [rewriteStringsLog, hone]
      dsimp only [bind, Except.bind]
      rw [hrest]
      rfl
    · intro l hl
      rcases List.mem_cons.mp hl with rfl | hl
      · exact hlog
      · exact hall l hl

/-- The loop continues the scan of what is behind position `j`. -/
theorem rewriteLoopLog_eq {m z : Bytes} (hm : m ≠ []) (hz : z.length = m.length)
    (hinert : Inert m z) (fuel : Nat) (u t : Bytes)
    (hfuel : (scan m z u.length t).2.length < fuel) :
    rewriteLoopLog m z fuel u.length (u ++ t) =
      .ok (u ++ (scan m z u.length t).1, (scan m z u.length t).2) := by
  induction fuel generalizing u t with
  | zero => omega
  | succ fuel ih =>
    rw [rewriteLoopLog]
    cases hfind : find m (u ++ t) u.length with
    | none =>
      have hno := find_eq_none hfind
      have hscan := @scan_append_of_no_match _ _ m z t [] (fun i hi _ hpre => by
        refine hno (u.length + i) (by omega) (by rw [List.length_append]; omega) ?_
        rw [List.append_nil] at hpre
        rwa [List.drop_length_add_append]) u.length
      rw [List.append_nil, scan_nil, List.append_nil] at hscan
      rw [hscan]
    | some j =>
      obtain ⟨hle, -, hpre, hno⟩ := find_eq_some hfind
      obtain ⟨k, rfl⟩ := Nat.exists_eq_add_of_le hle
      rw [List.drop_length_add_append] at hpre
      obtain ⟨w, hw⟩ := hpre
      have hk : k ≤ t.length := by
        have hlen := congrArg List.length hw
        have hpos := List.length_pos_of_ne_nil hm
        rw [List.length_append, List.length_drop] at hlen
        omega
      obtain ⟨v, rfl, rfl⟩ : ∃ v, t = v ++ (m ++ w) ∧ v.length = k :=
        ⟨t.take k, by rw [hw, List.take_append_drop], by rw [List.length_take]; omega⟩
      have hscan := @scan_append_of_no_match _ _ m z v (m ++ w) (fun i hi _ hpre => by
        refine hno (u.length + i) (by omega) (by omega) ?_
        rwa [List.drop_length_add_append]) u.length
      rw [scan_append_match hm] at hscan
      have hreplace : replace (u ++ (v ++ (m ++ w))) (u.length + v.length) m.length z =
          (u ++ v) ++ (z ++ w) := by
        rw [replace, List.take_length_add_append, List.take_left, Nat.add_assoc,
          List.drop_length_add_append, List.drop_length_add_append, List.drop_left]
        simp
      have hpast := scan_append_of_no_match (z := z) (fun i hi _ => hinert w i hi)
        (u ++ v).length
      have hoff : (u ++ v).length + z.length = u.length + v.length + m.length := by
        rw [List.length_append, hz]
      rw [hoff] at hpast
      have hloop := ih (u ++ v) (z ++ w) (by
        simp only [hscan, List.length_cons] at hfuel
        simp only [hpast]
        omega)
      dsimp only
      rw [hreplace, ← List.length_append, hloop, hpast, hscan, List.length_append]
      simp [Except.map]

def occurrences (m s : Bytes) : List Nat :=
  (List.range s.length).filter fun i => m.isPrefixOf (s.drop i)

theorem mem_occurrences {m s : Bytes} (hm : m ≠ []) {i : Nat} :
    i ∈ occurrences m s ↔ m <+: s.drop i := by
  rw [occurrences, List.mem_filter, List.isPrefixOf_iff_prefix, List.mem_range,
    and_iff_right_iff_imp]
  intro hpre
  have hle := hpre.length_le
  have hpos := List.length_pos_of_ne_nil hm
  rw [List.length_drop] at hle
  omega

theorem occurrences_congr {m s t : Bytes} (hlen : t.length = s.length)
    (h : ∀ i, m <+: t.drop i ↔ m <+: s.drop i) : occurrences m t = occurrences m s := by
  rw [occurrences, occurrences, hlen]
  apply List.filter_congr
  intro i _
  rw [Bool.eq_iff_iff, List.isPrefixOf_iff_prefix, List.isPrefixOf_iff_prefix]
  exact h i

theorem scan_positions_eq_occurrences {m z s : Bytes} (hm : m ≠ []) (hb : Unbordered m) :
    (scan m z 0 s).2 = occurrences m s := by
  have hsorted : StrictlySorted compare (occurrences m s) :=
    (List.pairwise_lt_range.filter _).imp fun hlt => Nat.compare_eq_lt.mpr hlt
  refine StrictlySorted.ext ?_ hsorted fun p => ?_
  · exact (scan_positions_sorted 0 s).imp fun hlt => Nat.compare_eq_lt.mpr hlt
  · rw [mem_scan_positions hm hb, mem_occurrences hm]
    constructor
    · rintro ⟨q, rfl, hq⟩
      rwa [Nat.zero_add]
    · exact fun hp => ⟨p, (Nat.zero_add p).symm, hp⟩

theorem rewriteStringsLog_apart {rewrites : List (Bytes × Bytes)}
    (h : ∀ r ∈ rewrites, r.1 ≠ [] ∧ r.2.length = r.1.length) (hapart : Apart rewrites) (s : Bytes) :
    ∃ s', rewriteStringsLog s rewrites = .ok (s', rewrites.map fun r => occurrences r.1 s) ∧
      Simultaneous rewrites s s' := by
  induction rewrites generalizing s with
  | nil => exact ⟨s, rfl, simultaneous_nil s⟩
  | cons i rewrites ih =>
    obtain ⟨hm, hz⟩ := h i List.mem_cons_self
    have hmeet := hapart.replaced i List.mem_cons_self i List.mem_cons_self
    have hb := hapart.self i List.mem_cons_self
    have hne : i.1 ≠ i.2 := by
      intro hsame
      rw [← hsame] at hmeet
      exact hmeet (overlaps_self hm)
    have hone : rewriteOneLog s i = .ok ((scan i.1 i.2 0 s).1, occurrences i.1 s) := by
      have hloop := rewriteLoopLog_eq hm hz (inert_of_not_overlaps hm hmeet) (s.length + 1) [] s
        (Nat.lt_succ_of_le (length_scan_positions_le _ s))
      rw [rewriteOneLog, if_neg hne, ← scan_positions_eq_occurrences hm hb]
      exact hloop
    have hfirst : Simultaneous [i] s (scan i.1 i.2 0 s).1 := simultaneous_scan hm hz hb 0 s
    obtain ⟨s', hrest, hsimultaneous⟩ := ih (fun r hr => h r (List.mem_cons_of_mem _ hr))
      hapart.tail (scan i.1 i.2 0 s).1
    have hsame : (rewrites.map fun r => occurrences r.1 (scan i.1 i.2 0 s).1) =
        rewrites.map fun r => occurrences r.1 s := by
      refine List.map_congr_left fun r hr => occurrences_congr hfirst.length ?_
      exact hfirst.prefix_drop_iff hz ((List.pairwise_cons.mp hapart.words).1 r hr)
        (hapart.replaced r (List.mem_cons_of_mem _ hr) i List.mem_cons_self)
    refine ⟨s', ?_, hfirst.cons hsimultaneous (fun r hr => (h r hr).2) hapart⟩
    rw [rewriteStringsLog, hone]
    dsimp only [bind, Except.bind]
    rw [hrest, hsame]
    rfl

abbrev MatchSet := SortedSet (compare : Nat → Nat → Ordering)

theorem record_elems (offsetShift : Nat) (matchSet : MatchSet) (log : List Nat) :
    record offsetShift matchSet.elems log =
      ((log.map (· + offsetShift)).foldl SortedSet.insert matchSet).elems := by
  induction log generalizing matchSet with
  | nil => rfl
  | cons j log ih => exact ih (matchSet.insert (j + offsetShift))

theorem mem_record {offsetShift k : Nat} {matchSet : MatchSet} {log : List Nat} :
    k ∈ record offsetShift matchSet.elems log ↔
      k ∈ matchSet ∨ ∃ j ∈ log, k = j + offsetShift := by
  rw [record_elems, ← SortedSet.mem_def, SortedSet.mem_foldl_insert, List.mem_map]
  simp only [eq_comm]

theorem record_congr {offsetShift : Nat} {matchSet : MatchSet} {log log' : List Nat}
    (h : ∀ j, j ∈ log ↔ j ∈ log') :
    record offsetShift matchSet.elems log = record offsetShift matchSet.elems log' := by
  rw [record_elems, record_elems]
  congr 1
  ext k
  simp only [SortedSet.mem_foldl_insert, List.mem_map, h]

/-- Every run of `rewriteStrings` ends, keeps the length and records the matches of each rewrite
from left to right. Where the words do not meet it replaces all their occurrences at once, which
are what it records. -/
theorem rewriteStrings_replaces {rewrites : List (Bytes × Bytes)}
    (h : ∀ r ∈ rewrites, r.1 ≠ [] ∧ r.2.length = r.1.length) (s : Bytes) (matchSet : MatchSet)
    (offsetShift : Nat) :
    ∃ s' logs, rewriteStringsLog s rewrites = .ok (s', logs) ∧
      rewriteStrings s rewrites matchSet.elems offsetShift =
        .ok (s', record offsetShift matchSet.elems logs.flatten) ∧
      s'.length = s.length ∧ logs.length = rewrites.length ∧
      (∀ log ∈ logs, log.Pairwise (· < ·)) ∧
      (Apart rewrites → Simultaneous rewrites s s' ∧
        (logs = rewrites.map fun r => occurrences r.1 s) ∧
        (∀ k, k ∈ record offsetShift matchSet.elems logs.flatten ↔
          k ∈ matchSet ∨ ∃ r ∈ rewrites, ∃ i, r.1 <+: s.drop i ∧ k = i + offsetShift) ∧
        ∀ rewrites' : List (Bytes × Bytes), rewrites'.Perm rewrites →
          rewriteStrings s rewrites' matchSet.elems offsetShift =
            rewriteStrings s rewrites matchSet.elems offsetShift) := by
  obtain ⟨s', logs, hrun, hlength, hlogs, hsorted⟩ := rewriteStringsLog_ends h s
  have hset := rewriteStrings_eq_log s rewrites matchSet.elems offsetShift
  rw [hrun] at hset
  refine ⟨s', logs, hrun, hset, hlength, hlogs, hsorted, fun hapart => ?_⟩
  obtain ⟨t, hrun', hsimultaneous⟩ := rewriteStringsLog_apart h hapart s
  obtain ⟨rfl, rfl⟩ := Prod.mk.inj (Except.ok.inj (hrun.symm.trans hrun'))
  have hflat : ∀ rs : List (Bytes × Bytes), (∀ r ∈ rs, r.1 ≠ []) → ∀ j,
      j ∈ (rs.map fun r => occurrences r.1 s).flatten ↔ ∃ r ∈ rs, r.1 <+: s.drop j := by
    intro rs hrs j
    rw [← List.flatMap_def, List.mem_flatMap]
    exact exists_congr fun r => and_congr_right fun hr => mem_occurrences (hrs r hr)
  refine ⟨hsimultaneous, rfl, fun k => ?_, fun rewrites' hperm => ?_⟩
  · simp only [mem_record, hflat rewrites fun r hr => (h r hr).1]
    refine or_congr_right ⟨?_, ?_⟩
    · rintro ⟨j, ⟨r, hr, hpre⟩, rfl⟩
      exact ⟨r, hr, j, hpre, rfl⟩
    · rintro ⟨r, hr, j, hpre, rfl⟩
      exact ⟨j, ⟨r, hr, hpre⟩, rfl⟩
  · have h' : ∀ r ∈ rewrites', r.1 ≠ [] ∧ r.2.length = r.1.length := fun r hr =>
      h r (hperm.mem_iff.mp hr)
    obtain ⟨t', hrun'', hsimultaneous'⟩ := rewriteStringsLog_apart h' (hapart.perm hperm) s
    obtain rfl : s' = t' := hsimultaneous.unique (fun r => hperm.mem_iff.symm)
      (fun r hr => (h r hr).2) hsimultaneous'
    have hset' := rewriteStrings_eq_log s rewrites' matchSet.elems offsetShift
    rw [hrun''] at hset'
    rw [hset, hset']
    refine congrArg (fun matchSet => Except.ok (s', matchSet)) (record_congr fun j => ?_)
    rw [hflat rewrites' fun r hr => (h' r hr).1, hflat rewrites fun r hr => (h r hr).1]
    exact exists_congr fun r => and_congr_left' hperm.mem_iff

theorem rewriteStrings_replaces_letters :
    rewriteStrings (str "abxab") [(str "ab", str "cd")] [] 7 = .ok (str "cdxcd", [7, 10]) ∧
      Simultaneous [(str "ab", str "cd")] (str "abxab") (str "cdxcd") := by
  have hlengths : ∀ r ∈ [(str "ab", str "cd")], r.1 ≠ [] ∧ r.2.length = r.1.length := by
    decide
  have hself : Unbordered (str "ab") := by
    intro l hpos hlt
    obtain rfl : l = 1 := Nat.le_antisymm (Nat.le_of_lt_succ hlt) hpos
    decide
  have hapart : Apart [(str "ab", str "cd")] := by
    refine ⟨List.pairwise_singleton _ _, ?_, by decide⟩
    intro r hr
    rw [List.mem_singleton.mp hr]
    exact hself
  obtain ⟨s', logs, -, hrun, -, -, -, happly⟩ :=
    rewriteStrings_replaces hlengths (str "abxab") SortedSet.empty 7
  have heval : rewriteStrings (str "abxab") [(str "ab", str "cd")] [] 7 =
      .ok (str "cdxcd", [7, 10]) := by decide
  obtain ⟨rfl, -⟩ := Prod.mk.inj (Except.ok.inj (heval.symm.trans hrun))
  exact ⟨heval, (happly hapart).1⟩

end Nix.Util.Rewrite
