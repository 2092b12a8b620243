import Mathlib.Tactic
import Nix.Store.References

set_option linter.dupNamespace false

namespace Nix.Store.RefScan

open Util.Types
open Nix.Util.BaseN.BaseNix32 (lookupReverse)
open Store.References

/-- `w` starts at position `k` of `s`. -/
def OccursAt (w s : Bytes) (k : Nat) : Prop :=
  w <+: s.drop k

def ValidHash (w : Bytes) : Prop :=
  w.length = refLength ∧ ∀ b ∈ w, lookupReverse b ≠ none

theorem infix_iff_occursAt {w s : Bytes} : w <:+: s ↔ ∃ k, OccursAt w s k := by
  constructor
  · rintro ⟨a, b, rfl⟩
    exact ⟨a.length, b, by simp⟩
  · rintro ⟨k, hk⟩
    exact hk.isInfix.trans (List.drop_suffix k s).isInfix

theorem OccursAt.add_length_le {w s : Bytes} {k : Nat} (h : OccursAt w s k)
    (hw : 0 < w.length) : k + w.length ≤ s.length := by
  have hle := List.IsPrefix.length_le h
  rw [List.length_drop] at hle
  omega

theorem OccursAt.getElem? {w s : Bytes} {k j : Nat} (h : OccursAt w s k) (hj : j < w.length) :
    s[k + j]? = w[j]? := by
  obtain ⟨t, ht⟩ := h
  rw [← List.getElem?_drop, ← ht, List.getElem?_append_left hj]

theorem occursAt_iff_take {w s : Bytes} {k : Nat} :
    OccursAt w s k ↔ (s.drop k).take w.length = w := by
  rw [OccursAt, List.prefix_iff_eq_take]
  exact eq_comm

theorem lastInvalid_eq_some {s : Bytes} {i n j : Nat} (h : lastInvalid s i n = some j) :
    j < n ∧ lookupReverse (s.getD (i + j) 0) = none := by
  induction n with
  | zero => simp [lastInvalid] at h
  | succ n ih =>
      rw [lastInvalid] at h
      split at h
      next hinvalid =>
        obtain rfl := Option.some.inj h
        exact ⟨Nat.lt_succ_self _, hinvalid⟩
      next =>
        obtain ⟨hlt, hinvalid⟩ := ih h
        exact ⟨Nat.lt_succ_of_lt hlt, hinvalid⟩

theorem ValidHash.not_covers {w s : Bytes} {k p : Nat} (hw : ValidHash w) (h : OccursAt w s k)
    (hp : lookupReverse (s.getD p 0) = none) (hle : k ≤ p) : k + refLength ≤ p := by
  by_contra hlt
  have hj : p - k < w.length := by
    rw [hw.1]
    omega
  have hget := h.getElem? hj
  rw [Nat.add_sub_cancel' hle, List.getElem?_eq_getElem hj] at hget
  refine hw.2 w[p - k] (List.getElem_mem hj) ?_
  rw [List.getD_eq_getElem?_getD, hget] at hp
  exact hp

/-- What the search from position `i` moves from one set to the other. -/
def found (s : Bytes) (i : Nat) (w : Bytes) : Prop :=
  ∃ k ≥ i, OccursAt w s k

/-- The sets after the hashes that satisfy `F` have been found. -/
structure Moved (F : Bytes → Prop) (before after : RefSets) : Prop where
  hashes : ∀ w, w ∈ after.hashes ↔ w ∈ before.hashes ∧ ¬F w
  seen : ∀ w, w ∈ after.seen ↔ w ∈ before.seen ∨ w ∈ before.hashes ∧ F w

theorem Moved.congr {F G : Bytes → Prop} {before after : RefSets} (h : Moved F before after)
    (hFG : ∀ w ∈ before.hashes, F w ↔ G w) : Moved G before after where
  hashes w := by
    rw [h.hashes]
    exact and_congr_right fun hw => not_congr (hFG w hw)
  seen w := by
    rw [h.seen]
    exact or_congr_right (and_congr_right fun hw => hFG w hw)

theorem Moved.trans {F G : Bytes → Prop} {a b c : RefSets} (hF : Moved F a b)
    (hG : Moved G b c) : Moved (fun w => F w ∨ G w) a c where
  hashes w := by
    rw [hG.hashes, hF.hashes]
    tauto
  seen w := by
    rw [hG.seen, hF.seen, hF.hashes]
    by_cases hw : F w <;> simp [hw]

theorem moved_erase {sets : RefSets} {ref : Bytes} (h : ref ∈ sets.hashes) :
    Moved (· = ref) sets ⟨sets.hashes.erase ref, insert ref sets.seen⟩ where
  hashes w := by
    rw [Finset.mem_erase]
    exact and_comm
  seen w := by
    rw [Finset.mem_insert]
    constructor
    · rintro (rfl | hw)
      · exact .inr ⟨h, rfl⟩
      · exact .inl hw
    · rintro (hw | ⟨-, rfl⟩)
      · exact .inr hw
      · exact .inl rfl

theorem moved_refl (sets : RefSets) : Moved (fun _ => False) sets sets where
  hashes w := by simp
  seen w := by simp

theorem searchLoop_moved {s : Bytes} {fuel i : Nat} {sets : RefSets}
    (hvalid : ∀ w ∈ sets.hashes, ValidHash w) (hi : i ≤ s.length)
    (hfuel : s.length < fuel + i) :
    ∃ sets', searchLoop s fuel i sets = .ok sets' ∧ Moved (found s i) sets sets' := by
  induction fuel generalizing i sets with
  | zero => omega
  | succ fuel ih =>
      rw [searchLoop]
      split
      next hle =>
        have hpos : 0 < refLength := by decide
        cases hinvalid : lastInvalid s i refLength with
        | some j =>
            obtain ⟨hj, hp⟩ := lastInvalid_eq_some hinvalid
            obtain ⟨sets', hrun, hmoved⟩ := ih (i := i + j + 1) hvalid (by omega) (by omega)
            refine ⟨sets', hrun, hmoved.congr fun w hw => ?_⟩
            constructor
            · rintro ⟨k, hk, hocc⟩
              exact ⟨k, by omega, hocc⟩
            · rintro ⟨k, hk, hocc⟩
              refine ⟨k, ?_, hocc⟩
              by_contra hlt
              have hcover := (hvalid w hw).not_covers hocc hp (by omega)
              omega
        | none =>
            have hsplit : ∀ w ∈ sets.hashes,
                w = (s.drop i).take refLength ∨ found s (i + 1) w ↔ found s i w := by
              intro w hw
              have hlen := (hvalid w hw).1
              constructor
              · rintro (hw' | ⟨k, hk, hocc⟩)
                · refine ⟨i, le_rfl, occursAt_iff_take.mpr ?_⟩
                  rw [hlen, ← hw']
                · exact ⟨k, by omega, hocc⟩
              · rintro ⟨k, hk, hocc⟩
                rcases Nat.eq_or_lt_of_le hk with rfl | hlt
                · refine .inl ?_
                  rw [← hlen]
                  exact (occursAt_iff_take.mp hocc).symm
                · exact .inr ⟨k, hlt, hocc⟩
            dsimp only
            split
            next hmem =>
              have hvalid' : ∀ w ∈ sets.hashes.erase ((s.drop i).take refLength), ValidHash w :=
                fun w hw => hvalid w (Finset.mem_of_mem_erase hw)
              obtain ⟨sets', hrun, hmoved⟩ := @ih (i + 1)
                ⟨sets.hashes.erase ((s.drop i).take refLength),
                  insert ((s.drop i).take refLength) sets.seen⟩ hvalid' (by omega) (by omega)
              exact ⟨sets', hrun, ((moved_erase hmem).trans hmoved).congr hsplit⟩
            next hmem =>
              obtain ⟨sets', hrun, hmoved⟩ := ih (i := i + 1) hvalid (by omega)
                (by omega)
              refine ⟨sets', hrun, hmoved.congr fun w hw => ?_⟩
              rw [← hsplit w hw]
              constructor
              · exact .inr
              · rintro (rfl | hfound)
                · exact absurd hw hmem
                · exact hfound
      next hgt =>
        refine ⟨sets, rfl, (moved_refl sets).congr fun w hw => ?_⟩
        refine iff_of_false id ?_
        rintro ⟨k, hk, hocc⟩
        have hlen := (hvalid w hw).1
        have hle := hocc.add_length_le (by rw [hlen]; decide)
        omega

theorem search_moved {s : Bytes} {sets : RefSets} (hvalid : ∀ w ∈ sets.hashes, ValidHash w) :
    ∃ sets', search s sets = .ok sets' ∧ Moved (· <:+: s) sets sets' := by
  obtain ⟨sets', hrun, hmoved⟩ := searchLoop_moved (s := s) (i := 0) hvalid (by omega)
    (Nat.lt_succ_self _)
  refine ⟨sets', hrun, hmoved.congr fun w _ => ?_⟩
  simp [found, infix_iff_occursAt]

/-- The last elements of the stream that the sink keeps. -/
def lastBytes (n : Nat) (s : Bytes) : Bytes :=
  s.drop (s.length - n)

theorem lastBytes_append {n : Nat} {a as : Bytes} (h : as.length ≤ n) :
    lastBytes n (a ++ as) = lastBytes (n - as.length) a ++ as := by
  rw [lastBytes, List.length_append, List.drop_append_of_le_length (by omega), lastBytes]
  congr 2
  omega

theorem infix_append_iff_of_length {w s d : Bytes} {n : Nat} (hw : w.length = n) :
    w <:+: s ++ d ↔ w <:+: s ∨ w <:+: lastBytes n s ++ d.take n ∨ w <:+: d := by
  constructor
  · rintro ⟨a, b, hab⟩
    rw [List.append_assoc] at hab
    rcases List.append_eq_append_iff.mp hab with ⟨u, rfl, hu⟩ | ⟨u, rfl, rfl⟩
    · rcases List.append_eq_append_iff.mp hu with ⟨v, rfl, rfl⟩ | ⟨v, rfl, rfl⟩
      · exact .inl (List.infix_append' a w v)
      · refine .inr (.inl ?_)
        rw [List.length_append] at hw
        rw [lastBytes_append (by omega), List.take_append, List.take_of_length_le (by omega),
          List.append_assoc, ← List.append_assoc u]
        exact List.infix_append' _ _ _
    · exact .inr (.inr (List.infix_append' u w b))
  · rintro (h | h | h)
    · exact h.trans List.infix_append_left
    · refine h.trans ⟨s.take (s.length - n), d.drop n, ?_⟩
      rw [lastBytes, ← List.append_assoc, List.take_append_drop, List.append_assoc,
        List.take_append_drop]
    · exact h.trans List.infix_append_right

theorem lastBytes_append_update (n : Nat) (s d : Bytes) :
    (if n - min d.length n < (lastBytes n s).length then
        (lastBytes n s).drop ((lastBytes n s).length - (n - min d.length n))
      else lastBytes n s) ++ d.drop (d.length - min d.length n) = lastBytes n (s ++ d) := by
  have hlen : (lastBytes n s).length = min s.length n := by
    rw [lastBytes, List.length_drop]
    omega
  rw [hlen]
  rcases Nat.lt_or_ge d.length n with hlt | hge
  · rw [min_eq_left hlt.le, Nat.sub_self, List.drop_zero, lastBytes_append hlt.le]
    congr 1
    split
    · rw [lastBytes, lastBytes, List.drop_drop]
      congr 1
      omega
    · rw [lastBytes, lastBytes]
      congr 1
      omega
  · rw [min_eq_right hge, Nat.sub_self]
    have hnil : (if 0 < min s.length n then (lastBytes n s).drop (min s.length n - 0)
        else lastBytes n s) = [] := by
      split
      · exact List.drop_eq_nil_of_le (by omega)
      · exact List.eq_nil_of_length_eq_zero (by omega)
    have hlast : lastBytes n (s ++ d) = d.drop (d.length - n) := by
      rw [lastBytes, List.length_append, List.drop_append, List.drop_eq_nil_of_le (by omega),
        List.nil_append]
      congr 1
      omega
    rw [hnil, List.nil_append, hlast]

/-- The state of the sink after the stream `s`. -/
structure Scanned (hashes : Finset Bytes) (s : Bytes) (sink : RefScanSink) : Prop where
  moved : Moved (· <:+: s) ⟨hashes, ∅⟩ sink.sets
  tail : sink.tail = lastBytes refLength s

theorem scanned_write {hashes : Finset Bytes} (hvalid : ∀ w ∈ hashes, ValidHash w)
    {s : Bytes} {sink : RefScanSink} (h : Scanned hashes s sink) (d : Bytes) :
    ∃ sink', sink.write d = .ok sink' ∧ Scanned hashes (s ++ d) sink' := by
  obtain ⟨sets, tail⟩ := sink
  obtain ⟨hmoved, htail⟩ := h
  obtain rfl : tail = lastBytes refLength s := htail
  have hvalid₀ : ∀ w ∈ sets.hashes, ValidHash w := fun w hw =>
    hvalid w ((hmoved.hashes w).mp hw).1
  obtain ⟨sets₁, hrun₁, hmoved₁⟩ :=
    @search_moved (lastBytes refLength s ++ d.take (min d.length refLength)) sets hvalid₀
  have hvalid₁ : ∀ w ∈ sets₁.hashes, ValidHash w := fun w hw =>
    hvalid₀ w ((hmoved₁.hashes w).mp hw).1
  obtain ⟨sets₂, hrun₂, hmoved₂⟩ := @search_moved d sets₁ hvalid₁
  refine ⟨⟨sets₂, lastBytes refLength (s ++ d)⟩, ?_, ⟨?_, rfl⟩⟩
  · simp only [RefScanSink.write, hrun₁, hrun₂, bind, Except.bind, pure, Except.pure,
      lastBytes_append_update]
  · refine ((hmoved.trans hmoved₁).trans hmoved₂).congr fun w hw => ?_
    have htake : d.take (min d.length refLength) = d.take refLength := by
      rw [List.take_eq_take_iff]
      omega
    have hsplit := @infix_append_iff_of_length w s d refLength (hvalid w hw).1
    rw [htake, hsplit, or_assoc]

theorem scanned_foldlM {hashes : Finset Bytes} (hvalid : ∀ w ∈ hashes, ValidHash w)
    {s : Bytes} {sink : RefScanSink} (h : Scanned hashes s sink) (fragments : List Bytes) :
    ∃ sink', fragments.foldlM RefScanSink.write sink = .ok sink' ∧
      Scanned hashes (s ++ fragments.flatten) sink' := by
  induction fragments generalizing s sink with
  | nil => exact ⟨sink, rfl, by simpa using h⟩
  | cons d fragments ih =>
      obtain ⟨sink₁, hrun₁, h₁⟩ := scanned_write hvalid h d
      obtain ⟨sink₂, hrun₂, h₂⟩ := ih h₁
      refine ⟨sink₂, ?_, ?_⟩
      · rw [List.foldlM_cons, hrun₁]
        exact hrun₂
      · rwa [List.flatten_cons, ← List.append_assoc]

/-- Whatever the fragments, the sink reports the hashes that occur in the
stream. -/
theorem scanFragments_eq (hashes : Finset Bytes) (hvalid : ∀ w ∈ hashes, ValidHash w)
    (fragments : List Bytes) :
    ∃ seen, RefScanSink.scanFragments hashes fragments = .ok seen ∧
      ∀ w, w ∈ seen ↔ w ∈ hashes ∧ w <:+: fragments.flatten := by
  have hinit : Scanned hashes [] ⟨⟨hashes, ∅⟩, []⟩ := by
    refine ⟨(moved_refl _).congr fun w hw => ?_, rfl⟩
    rw [false_iff, List.infix_nil]
    rintro rfl
    exact absurd (hvalid [] hw).1 (by decide)
  obtain ⟨sink, hrun, hmoved, -⟩ := scanned_foldlM hvalid hinit fragments
  refine ⟨sink.getResult, ?_, fun w => ?_⟩
  · rw [RefScanSink.scanFragments, hrun]
    rfl
  · rw [RefScanSink.getResult, hmoved.seen]
    simp

/-- A hash that is split over three fragments. -/
theorem scanFragments_split :
    ∃ seen, RefScanSink.scanFragments {str "dc04vv14dak1c1r48qa0m23vr9jy8sm0"}
        [str "xdc04vv14dak1c1r4", [], str "8qa0m2", str "3vr9jy8sm0."] = .ok seen ∧
      ∀ w, w ∈ seen ↔ w ∈ ({str "dc04vv14dak1c1r48qa0m23vr9jy8sm0"} : Finset Bytes) ∧
        w <:+: [str "xdc04vv14dak1c1r4", [], str "8qa0m2", str "3vr9jy8sm0."].flatten := by
  refine scanFragments_eq _ ?_ _
  intro w hw
  obtain rfl := Finset.mem_singleton.mp hw
  exact ⟨by decide +kernel, by decide +kernel⟩

end Nix.Store.RefScan
