import Nix.Store.HashModuloInjective

set_option linter.dupNamespace false

namespace Nix.Store.HashModuloRenaming

open Util.Types Util.Rewrite Lib.Rewriting Lib.SortedList Store.References Store.HashModulo
  Store.HashModuloInjective

section Loop

variable {m z : Bytes}

theorem find_append (pat u t : Bytes) :
    find pat (u ++ t) u.length =
      (List.range' u.length (t.length + 1)).find? fun i => pat.isPrefixOf ((u ++ t).drop i) := by
  rw [find]
  congr 2
  rw [List.length_append]
  omega

theorem find_of_prefix {pat t : Bytes} (u : Bytes) (h : pat <+: t) :
    find pat (u ++ t) u.length = some u.length := by
  rw [find_append, List.range'_succ, List.find?_cons_of_pos]
  rw [List.drop_left]
  exact List.isPrefixOf_iff_prefix.mpr h

theorem find_skip {pat t : Bytes} {c : UInt8} (u : Bytes) (h : ¬pat <+: c :: t) :
    find pat (u ++ c :: t) u.length = find pat ((u ++ [c]) ++ t) (u ++ [c]).length := by
  rw [find_append, find_append, List.length_cons, List.range'_succ, List.find?_cons_of_neg]
  · simp
  · rw [List.drop_left]
    exact fun hpre => h (List.isPrefixOf_iff_prefix.mp hpre)

theorem rewriteLoop_skip {c : UInt8} {t : Bytes} (h : ¬m <+: c :: t) (shift fuel : Nat)
    (u : Bytes) (ms : List Nat) :
    rewriteLoop m z shift fuel u.length (u ++ c :: t) ms =
      rewriteLoop m z shift fuel (u ++ [c]).length ((u ++ [c]) ++ t) ms := by
  cases fuel with
  | zero => rfl
  | succ fuel =>
      rw [rewriteLoop, rewriteLoop, find_skip u h, List.append_assoc]
      rfl

theorem rewriteLoop_match (w : Bytes) (shift fuel : Nat) (u : Bytes) (ms : List Nat) :
    rewriteLoop m z shift (fuel + 1) u.length (u ++ (m ++ w)) ms =
      rewriteLoop m z shift fuel u.length (u ++ (z ++ w))
        (insertNew compare (u.length + shift) ms) := by
  have hreplace : replace (u ++ (m ++ w)) u.length m.length z = u ++ (z ++ w) := by
    rw [replace, List.take_left, List.drop_length_add_append, List.drop_left, List.append_assoc]
  rw [rewriteLoop, find_of_prefix u (List.prefix_append m w)]
  dsimp only
  rw [hreplace]

theorem rewriteLoop_skips {v t : Bytes} (h : ∀ i < v.length, ¬m <+: (v ++ t).drop i)
    (shift fuel : Nat) (u : Bytes) (ms : List Nat) :
    rewriteLoop m z shift fuel u.length (u ++ (v ++ t)) ms =
      rewriteLoop m z shift fuel (u ++ v).length ((u ++ v) ++ t) ms := by
  induction v generalizing u with
  | nil => simp
  | cons c v ih =>
      have htail : ∀ i < v.length, ¬m <+: (v ++ t).drop i := fun i hi =>
        h (i + 1) (by rw [List.length_cons]; omega)
      have hhead : ¬m <+: c :: (v ++ t) := h 0 (by simp)
      rw [List.cons_append, rewriteLoop_skip hhead, ih htail]
      simp

theorem not_prefix_replacement (hz : z.length = m.length) (hne : m ≠ z) (w : Bytes) :
    ¬m <+: z ++ w := fun hpre =>
  hne ((List.prefix_of_prefix_length_le hpre (List.prefix_append z w) hz.ge).eq_of_length hz.symm)

theorem not_prefix_of_undisturbed (hz : z.length = m.length) (hne : m ≠ z) {w : Bytes}
    (h : ∀ i, 0 < i → i < z.length → ¬m <+: (z ++ w).drop i) :
    ∀ i < z.length, ¬m <+: (z ++ w).drop i := by
  intro i hi
  rcases Nat.eq_zero_or_pos i with rfl | hpos
  · exact not_prefix_replacement hz hne w
  · exact h i hpos hi

theorem rewriteLoop_of_undisturbed (hz : z.length = m.length) (hne : m ≠ z) (hm : m ≠ [])
    {t : Bytes} (h : Undisturbed m z t) (shift fuel : Nat) (u : Bytes) (ms : List Nat)
    (hfuel : (scan m z (u.length + shift) t).2.length < fuel) :
    ∃ ms', rewriteLoop m z shift fuel u.length (u ++ t) ms =
      .ok (u ++ (scan m z (u.length + shift) t).1, ms') := by
  induction t using scan_induction (m := m) generalizing fuel u ms with
  | nil =>
      obtain ⟨fuel, rfl⟩ : ∃ n, fuel = n + 1 := ⟨fuel - 1, by simp [scan_nil] at hfuel; omega⟩
      have hfind : find m (u ++ []) u.length = none := by
        rw [find_append, List.find?_eq_none]
        intro i hi hpre
        have hlen := (List.isPrefixOf_iff_prefix.mp hpre).length_le
        have hpos := List.length_pos_of_ne_nil hm
        rw [List.mem_range'_1] at hi
        simp only [List.length_drop, List.length_append, List.length_nil] at hlen
        omega
      rw [rewriteLoop, hfind, scan_nil]
      exact ⟨ms, rfl⟩
  | found _ t ih =>
      obtain ⟨hhead, htail⟩ := (undisturbed_append_match hm t).mp h
      rw [scan_append_match hm] at hfuel ⊢
      obtain ⟨fuel, rfl⟩ : ∃ n, fuel = n + 1 := ⟨fuel - 1, by simp at hfuel; omega⟩
      have hoff : (u ++ z).length + shift = u.length + shift + m.length := by
        rw [List.length_append, hz]
        omega
      rw [rewriteLoop_match, rewriteLoop_skips (not_prefix_of_undisturbed hz hne hhead)]
      obtain ⟨ms', hrun⟩ := ih htail fuel (u ++ z) (insertNew compare (u.length + shift) ms)
        (by rw [hoff]; simpa using hfuel)
      exact ⟨ms', by rw [hrun, hoff, List.append_assoc]⟩
  | other c t hno ih =>
      rw [scan_cons hno] at hfuel ⊢
      have hoff : (u ++ [c]).length + shift = u.length + shift + 1 := by
        rw [List.length_append, List.length_singleton]
        omega
      rw [rewriteLoop_skip (hno hm)]
      obtain ⟨ms', hrun⟩ := ih ((undisturbed_cons hno).mp h) fuel (u ++ [c]) ms
        (by rw [hoff]; exact hfuel)
      exact ⟨ms', by rw [hrun, hoff, List.append_assoc]; rfl⟩

theorem length_rewriteLoop (hz : z.length = m.length) {shift fuel j : Nat} {x y : Bytes}
    {ms ms' : List Nat} (h : rewriteLoop m z shift fuel j x ms = .ok (y, ms')) :
    y.length = x.length := by
  induction fuel generalizing j x ms with
  | zero => cases h
  | succ fuel ih =>
      rw [rewriteLoop] at h
      cases hfind : find m x j with
      | none =>
          rw [hfind] at h
          cases h
          rfl
      | some i =>
          obtain ⟨-, -, hmatch, -⟩ := find_eq_some hfind
          rw [hfind] at h
          rw [ih h, length_replace hz hmatch]

theorem take_rewriteLoop {shift fuel j : Nat} {x y : Bytes} {ms ms' : List Nat}
    (h : rewriteLoop m z shift fuel j x ms = .ok (y, ms')) : y.take j = x.take j := by
  induction fuel generalizing j x ms with
  | zero => cases h
  | succ fuel ih =>
      rw [rewriteLoop] at h
      cases hfind : find m x j with
      | none =>
          rw [hfind] at h
          cases h
          rfl
      | some i =>
          obtain ⟨hle, hlen, -, -⟩ := find_eq_some hfind
          rw [hfind] at h
          have hy := congrArg (List.take j) (ih h)
          rw [List.take_take, List.take_take, Nat.min_eq_left hle] at hy
          rw [hy, replace, List.append_assoc, List.take_append_of_le_length
            (by rw [List.length_take]; omega), List.take_take, Nat.min_eq_left hle]

/-- After an overlapping replacement the text at `b` keeps a proper part of the
replacement that starts behind `b`. -/
theorem rewriteLoop_overlap (hz : z.length = m.length) {shift fuel b k : Nat}
    {x y : Bytes} {ms ms' : List Nat} (h : rewriteLoop m z shift fuel (b + k) x ms = .ok (y, ms'))
    (hpos : 0 < k) (hlt : k < z.length) (hx : z <+: x.drop (b + k)) :
    ∃ l, 0 < l ∧ l < z.length ∧ z.take (z.length - l) <+: y.drop (b + l) := by
  induction fuel generalizing k x ms with
  | zero => cases h
  | succ fuel ih =>
      rw [rewriteLoop] at h
      cases hfind : find m x (b + k) with
      | none =>
          rw [hfind] at h
          cases h
          exact ⟨k, hpos, hlt, (List.take_prefix _ _).trans hx⟩
      | some i =>
          obtain ⟨hle, hlen, hmatch, -⟩ := find_eq_some hfind
          obtain ⟨d, rfl⟩ := Nat.exists_eq_add_of_le hle
          rw [hfind] at h
          dsimp only at h
          have hbefore : (x.take (b + k + d)).length = b + k + d := by
            rw [List.length_take]
            omega
          rcases Nat.lt_or_ge (k + d) z.length with hnear | hfar
          · -- the next replacement overlaps too
            rw [Nat.add_assoc] at h hlen
            exact ih h (by omega) hnear (prefix_drop_replace z hlen m.length)
          · refine ⟨k, hpos, hlt, ?_⟩
            have hy := take_rewriteLoop h
            rw [replace, List.append_assoc, List.take_append_of_le_length (by omega),
              List.take_take, Nat.min_self] at hy
            have hydrop : (y.drop (b + k)).take d = (x.drop (b + k)).take d := by
              have hcut := congrArg (List.drop (b + k)) hy
              rwa [List.drop_take, List.drop_take, Nat.add_sub_cancel_left] at hcut
            have hxtake : z.take (z.length - k) <+: (x.drop (b + k)).take d := by
              obtain ⟨r, hr⟩ := hx
              rw [← hr, List.take_append]
              refine List.IsPrefix.trans ?_ (List.prefix_append _ _)
              exact List.take_prefix_take_left (by omega)
            rw [← hydrop] at hxtake
            exact hxtake.trans (List.take_prefix _ _)

theorem rewriteLoop_of_disturbed (hz : z.length = m.length) (hne : m ≠ z) (hm : m ≠ [])
    (hb : Unbordered z) {t : Bytes} (h : ¬Undisturbed m z t) {shift fuel : Nat} {u y : Bytes}
    {ms ms' : List Nat} (hrun : rewriteLoop m z shift fuel u.length (u ++ t) ms = .ok (y, ms')) :
    ∃ q ∈ (scan m z 0 t).2, ¬z <+: y.drop (u.length + q) := by
  induction t using scan_induction (m := m) generalizing fuel u ms with
  | nil =>
      refine absurd ?_ h
      intro p t _ hp
      simp [scan_nil] at hp
  | found _ t ih =>
      have hpos : (scan m z 0 (m ++ t)).2 = 0 :: (scan m z 0 t).2.map (· + m.length) := by
        rw [scan_append_match hm, scan_add]
      cases fuel with
      | zero => cases hrun
      | succ fuel =>
          rw [rewriteLoop_match] at hrun
          by_cases hhead : ∀ i, 0 < i → i < z.length → ¬m <+: (z ++ t).drop i
          · have htail : ¬Undisturbed m z t := fun ht =>
              h ((undisturbed_append_match hm t).mpr ⟨hhead, ht⟩)
            rw [rewriteLoop_skips (not_prefix_of_undisturbed hz hne hhead)] at hrun
            obtain ⟨q, hq, hnot⟩ := ih htail hrun
            refine ⟨q + m.length, ?_, ?_⟩
            · rw [hpos]
              exact List.mem_cons_of_mem _ (List.mem_map.mpr ⟨q, hq, rfl⟩)
            · have hoff : u.length + (q + m.length) = (u ++ z).length + q := by
                rw [List.length_append, hz]
                omega
              rwa [hoff]
          · -- the next replacement starts in the one just made
            refine ⟨0, by rw [hpos]; exact List.mem_cons_self, ?_⟩
            push Not at hhead
            obtain ⟨i, hi, hilt, hpre⟩ := hhead
            cases fuel with
            | zero => cases hrun
            | succ fuel =>
                rw [rewriteLoop] at hrun
                cases hfind : find m (u ++ (z ++ t)) u.length with
                | none =>
                    refine absurd ?_ (find_eq_none hfind (u.length + i) (by omega) ?_)
                    · rwa [List.drop_length_add_append]
                    · simp only [List.length_append]
                      omega
                | some j =>
                    obtain ⟨hle, hlen, hmatch, hfirst⟩ := find_eq_some hfind
                    obtain ⟨k, rfl⟩ := Nat.exists_eq_add_of_le hle
                    rw [hfind] at hrun
                    dsimp only at hrun
                    have hki : k ≤ i := by
                      by_contra hlt
                      refine hfirst (u.length + i) (by omega) (by omega) ?_
                      rwa [List.drop_length_add_append]
                    have hkpos : 0 < k := by
                      rcases Nat.eq_zero_or_pos k with rfl | hpos
                      · rw [Nat.add_zero, List.drop_left] at hmatch
                        exact absurd hmatch (not_prefix_replacement hz hne t)
                      · exact hpos
                    obtain ⟨l, hl, hllt, hpart⟩ := rewriteLoop_overlap hz hrun hkpos
                      (by omega) (prefix_drop_replace z hlen m.length)
                    refine hb.not_prefix hl hllt ?_
                    rwa [Nat.add_zero, List.drop_drop]
  | other c t hno ih =>
      rw [rewriteLoop_skip (hno hm)] at hrun
      obtain ⟨q, hq, hnot⟩ := ih (fun ht => h ((undisturbed_cons hno).mpr ht)) hrun
      refine ⟨q + 1, ?_, ?_⟩
      · rw [scan_cons hno, scan_add]
        exact List.mem_map.mpr ⟨q, hq, rfl⟩
      · have hoff : u.length + (q + 1) = (u ++ [c]).length + q := by
          rw [List.length_append, List.length_singleton]
          omega
        rwa [hoff]

end Loop

/-- The digest of the renamed stream modulo the new hash part is the one of the
stream modulo the old hash part, however both streams are cut. -/
def RenamingKeepsDigest (old new s : Bytes) : Prop :=
  ∃ t ms, rewriteStrings s [(old, new)] [] 0 = .ok (t, ms) ∧
    ∀ fs gs : List Bytes, fs.flatten = s → gs.flatten = t →
      ∃ d e, HashModuloSink.digest old fs = .ok d ∧ HashModuloSink.digest new gs = .ok e ∧
        d.digested = e.digested

/-- What the claim asks of the two hash parts and the stream. -/
structure Renaming (old new s : Bytes) : Prop where
  oldLength : old.length = 32
  newLength : new.length = 32
  oldValid : (0 : UInt8) ∉ old
  newValid : (0 : UInt8) ∉ new
  absent : ¬new <:+: s
  unbordered : Unbordered new

variable {old new s : Bytes}

theorem scan_zeros_eq (h : Renaming old new s) :
    scan new (List.replicate new.length 0) 0 (scan old new 0 s).1 =
      scan old (List.replicate old.length 0) 0 s := by
  have hlen : new.length = old.length := h.newLength.trans h.oldLength.symm
  rw [hlen, scan_scan hlen h.unbordered 0 h.absent]

theorem ne_nil_of_renaming (h : Renaming old new s) : old ≠ [] := by
  rintro rfl
  exact absurd h.oldLength (by decide)

theorem rewriteStrings_eq_ok (hne : old ≠ new) {r : Bytes × List Nat} :
    rewriteStrings s [(old, new)] [] 0 = .ok r ↔
      rewriteLoop old new 0 (s.length + 1) 0 s [] = .ok r := by
  simp only [rewriteStrings, List.foldlM_cons, List.foldlM_nil, if_neg hne, bind, pure,
    Except.pure]
  cases rewriteLoop old new 0 (s.length + 1) 0 s [] <;> simp [Except.bind]

theorem undisturbed_of_renamingKeepsDigest (h : Renaming old new s) (hne : old ≠ new)
    (hkeeps : RenamingKeepsDigest old new s) : Undisturbed old new s := by
  have hlen : new.length = old.length := h.newLength.trans h.oldLength.symm
  have hzeros : ∀ w : Bytes, (List.replicate w.length (0 : UInt8)).length = w.length :=
    fun w => List.length_replicate
  obtain ⟨t, ms, hrun, hdigest⟩ := hkeeps
  rw [rewriteStrings_eq_ok hne] at hrun
  by_contra hdisturbed
  -- the replacement at `q` is destroyed, so the new hash part has no match there
  obtain ⟨q, hq, hnot⟩ := @rewriteLoop_of_disturbed old new hlen hne (ne_nil_of_renaming h)
    h.unbordered s hdisturbed 0 (s.length + 1) [] t [] ms hrun
  obtain ⟨d, e, hd, he, heq⟩ := hdigest [s] [t] (by simp) (by simp)
  rw [digest_eq h.oldValid, List.flatten_singleton] at hd
  rw [digest_eq h.newValid, List.flatten_singleton] at he
  cases hd
  cases he
  obtain ⟨-, hmatches⟩ := List.append_inj heq (by
    rw [scan_length (hzeros old), scan_length (hzeros new), length_rewriteLoop hlen hrun])
  have hpositions := formatMatches_injective hmatches
  rw [scan_positions_eq (List.replicate old.length 0), hpositions] at hq
  obtain ⟨p, rfl, hp⟩ := prefix_drop_of_mem_positions hq
  exact hnot (by simpa using hp)

theorem renamingKeepsDigest_of_undisturbed (h : Renaming old new s) (hne : old ≠ new)
    (hundisturbed : Undisturbed old new s) : RenamingKeepsDigest old new s := by
  have hlen : new.length = old.length := h.newLength.trans h.oldLength.symm
  obtain ⟨ms, hrun⟩ := rewriteLoop_of_undisturbed hlen hne (ne_nil_of_renaming h) hundisturbed 0
    (s.length + 1) [] [] (Nat.lt_succ_of_le (length_scan_positions_le _ s))
  refine ⟨_, ms, (rewriteStrings_eq_ok hne).mpr hrun, ?_⟩
  rintro fs gs hfs hgs
  refine ⟨_, _, digest_eq h.oldValid fs, digest_eq h.newValid gs, ?_⟩
  have hgs' : gs.flatten = (scan old new 0 s).1 := hgs
  simp only [hfs, hgs', scan_zeros_eq h]

/-- Renaming a hash part keeps the digest if and only if no replacement makes a new
occurrence of the old hash part together with the text behind it. -/
theorem renamingKeepsDigest_iff (h : Renaming old new s) :
    RenamingKeepsDigest old new s ↔ Undisturbed old new s := by
  rcases eq_or_ne old new with rfl | hne
  · -- nothing is rewritten, and nothing occurs
    have hnone : ∀ p t, s = p ++ (old ++ t) → False := fun p t ht =>
      h.absent ⟨p, t, by rw [ht, List.append_assoc]⟩
    refine iff_of_true ⟨s, [], by simp [rewriteStrings, bind, Except.bind, pure,
      Except.pure], ?_⟩ fun p t ht => (hnone p t ht).elim
    rintro fs gs hfs hgs
    exact ⟨_, _, digest_eq h.oldValid fs, digest_eq h.oldValid gs, by rw [hfs, hgs]⟩
  · exact ⟨undisturbed_of_renamingKeepsDigest h hne, renamingKeepsDigest_of_undisturbed h hne⟩

theorem unbordered_of_notMem {c : UInt8} {n : Bytes} (h : c ∉ n) : Unbordered (c :: n) := by
  intro l hpos hlt heq
  obtain ⟨k, rfl⟩ : ∃ k, l = k + 1 := ⟨l - 1, by omega⟩
  obtain ⟨j, hj⟩ : ∃ j, (c :: n).length - (k + 1) = j + 1 :=
    ⟨(c :: n).length - (k + 2), by omega⟩
  rw [hj, List.drop_succ_cons, List.take_succ_cons] at heq
  exact h (List.mem_of_mem_drop (heq ▸ List.mem_cons_self))

def oldPart : Bytes := 97 :: List.replicate 31 98

def newPart : Bytes := 100 :: (List.replicate 30 99 ++ [97])

/-- Behind the old hash part, the text continues its tail. -/
def disturbedText : Bytes := oldPart ++ List.replicate 31 98

theorem renaming_disturbedText : Renaming oldPart newPart disturbedText where
  oldLength := by decide
  newLength := by decide
  oldValid := by decide
  newValid := by decide
  absent h := absurd (h.subset (List.mem_cons_self : 100 ∈ newPart)) (by decide)
  unbordered := unbordered_of_notMem (by decide)

theorem renamingKeepsDigest_iff_disturbedText :
    RenamingKeepsDigest oldPart newPart disturbedText ↔
      Undisturbed oldPart newPart disturbedText :=
  renamingKeepsDigest_iff renaming_disturbedText

/-- The last character of the new hash part starts another occurrence of the old one,
whose replacement destroys the first. -/
theorem not_renamingKeepsDigest_disturbedText :
    ¬∀ old new s : Bytes, Renaming old new s → RenamingKeepsDigest old new s := by
  intro hall
  have hundisturbed := undisturbed_of_renamingKeepsDigest renaming_disturbedText (by decide)
    (hall _ _ _ renaming_disturbedText)
  have hmatch : (scan oldPart newPart 0 disturbedText).2 =
      0 :: (scan oldPart newPart 32 (List.replicate 31 98)).2 := by
    rw [disturbedText, scan_append_match (by decide)]
    rfl
  refine hundisturbed [] (List.replicate 31 98) rfl ?_ 31 (by decide) (by decide) (by decide)
  rw [hmatch]
  exact List.mem_cons_self

end Nix.Store.HashModuloRenaming
