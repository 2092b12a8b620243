import Mathlib.Data.Finset.Basic
import Mathlib.Data.List.Infix
import Nix.Eval.StringContexts

/-!
`builtins.replaceStrings`: a loop over the positions of a string, which forces replacements as
they are used.
-/

set_option linter.dupNamespace false

namespace Nix.Eval.ReplaceStrings

open Util.Types Lib.Results Eval.StringContexts

abbrev NixStringContext := Finset NixStringContextElem

/-- What `forceString` gives for a value that is not forced yet. -/
abbrev StringThunk := Except Error (Bytes × NixStringContext)

/-- `s.compare(p, pattern.size(), pattern) == 0`. -/
def matchesAt (s : Bytes) (p : Nat) (pattern : Bytes) : Bool :=
  (s.drop p).take pattern.length = pattern

/-- The inner loop, from the index `j` on. -/
def findMatch (s : Bytes) (p : Nat) : List (Bytes × StringThunk) → Nat →
    Option (Nat × Bytes × StringThunk)
  | [], _ => none
  | (pattern, thunk) :: rules, j =>
      if matchesAt s p pattern then some (j, pattern, thunk) else findMatch s p rules (j + 1)

/-- The variables of the outer loop, and the replacements that were forced. -/
structure Scan where
  p : Nat
  res : Bytes
  context : NixStringContext
  cache : List (Nat × Bytes)
  forced : List Nat

namespace Scan

/-- The replacement with the index `j`, which the cache may have. -/
def replacement (st : Scan) (j : Nat) (thunk : StringThunk) : Scan × Except Error Bytes :=
  match st.cache.lookup j with
  | some ts => (st, .ok ts)
  | none =>
      match thunk with
      | .error e => ({ st with forced := st.forced ++ [j] }, .error e)
      | .ok (ts, ctx) =>
          ({ st with
              forced := st.forced ++ [j]
              cache := (j, ts) :: st.cache
              context := st.context ∪ ctx }, .ok ts)

def append (st : Scan) (text : Bytes) : Scan :=
  { st with res := st.res ++ text }

def advance (st : Scan) (n : Nat) : Scan :=
  { st with p := st.p + n }

/-- The character at the position is copied, if there is one. -/
def copyChar (s : Bytes) (st : Scan) : Scan :=
  (st.append s[st.p]?.toList).advance 1

@[simp] theorem p_append (st : Scan) (text : Bytes) : (st.append text).p = st.p := rfl

@[simp] theorem p_advance (st : Scan) (n : Nat) : (st.advance n).p = st.p + n := rfl

@[simp] theorem p_copyChar (s : Bytes) (st : Scan) : (st.copyChar s).p = st.p + 1 := rfl

theorem p_replacement (st : Scan) (j : Nat) (thunk : StringThunk) :
    (st.replacement j thunk).1.p = st.p := by
  unfold replacement
  split
  · rfl
  · split <;> rfl

end Scan

def turn (rules : List (Bytes × StringThunk)) (s : Bytes) (st : Scan) : Scan × Except Error Unit :=
  match findMatch s st.p rules 0 with
  | none => (st.copyChar s, .ok ())
  | some (j, pattern, thunk) =>
      match st.replacement j thunk with
      | (st, .error e) => (st, .error e)
      | (st, .ok ts) =>
          if pattern = [] then ((st.append ts).copyChar s, .ok ())
          else ((st.append ts).advance pattern.length, .ok ())

theorem lt_of_turn {rules : List (Bytes × StringThunk)} {s : Bytes} {st st' : Scan}
    (h : turn rules s st = (st', .ok ())) : st.p < st'.p := by
  rw [turn] at h
  split at h
  next =>
    cases h
    exact Nat.lt_succ_self _
  next j pattern thunk _ =>
    have hp := st.p_replacement j thunk
    split at h
    next => cases h
    next st₁ ts heq =>
      rw [heq] at hp
      split at h
      next =>
        cases h
        rw [Scan.p_copyChar, Scan.p_append, hp]
        exact Nat.lt_succ_self _
      next hne =>
        cases h
        rw [Scan.p_advance, Scan.p_append, hp]
        exact Nat.lt_add_of_pos_right (List.length_pos_of_ne_nil hne)

/-- The outer loop, up to one past the last character. -/
def loop (rules : List (Bytes × StringThunk)) (s : Bytes) (st : Scan) :
    Scan × Except Error Unit :=
  if st.p ≤ s.length then
    match _h : turn rules s st with
    | (st', .ok ()) => loop rules s st'
    | (st', .error e) => (st', .error e)
  else (st, .ok ())
termination_by s.length + 1 - st.p
decreasing_by
  have hlt := lt_of_turn _h
  omega

/-- What a call gives, and the replacements that it forced. -/
structure Outcome where
  value : Except Error (Bytes × NixStringContext)
  forced : List Nat

def run (rules : List (Bytes × StringThunk)) (s : Bytes) (context : NixStringContext) : Outcome :=
  let (st, result) := loop rules s ⟨0, [], context, [], []⟩
  ⟨result.map fun _ => (st.res, st.context), st.forced⟩

def prim_replaceStrings (froms tos : List StringThunk) (s : StringThunk) : Outcome :=
  if froms.length ≠ tos.length then
    ⟨.error ⟨.error,
      ⟨"'from' and 'to' arguments passed to builtins.replaceStrings have different lengths", []⟩⟩, []⟩
  else
    match froms.mapM (Except.map Prod.fst) with
    | .error e => ⟨.error e, []⟩
    | .ok patterns =>
        match s with
        | .error e => ⟨.error e, []⟩
        | .ok (s, context) => run (patterns.zip tos) s context

/-- A character of the subject, or the replacement of the pattern with an index. -/
inductive Piece
  | copied (c : UInt8)
  | replaced (j : Nat)

/-- The pattern with the index `j` is the first one that `s` starts with. -/
structure First (patterns : List Bytes) (j : Nat) (pattern s : Bytes) : Prop where
  get : patterns[j]? = some pattern
  isMatch : pattern <+: s
  isFirst : ∀ i < j, ∀ q, patterns[i]? = some q → ¬q <+: s

def NoMatch (patterns : List Bytes) (s : Bytes) : Prop :=
  ∀ pattern ∈ patterns, ¬pattern <+: s

/-- How a subject is scanned from left to right, its end included. -/
inductive Scans (patterns : List Bytes) : Bytes → List Piece → Prop
  | copy {c : UInt8} {s : Bytes} {ps : List Piece} : NoMatch patterns (c :: s) →
      Scans patterns s ps → Scans patterns (c :: s) (.copied c :: ps)
  | finish : NoMatch patterns [] → Scans patterns [] []
  | skip {j : Nat} {pattern s : Bytes} {ps : List Piece} : pattern ≠ [] →
      First patterns j pattern (pattern ++ s) → Scans patterns s ps →
        Scans patterns (pattern ++ s) (.replaced j :: ps)
  | emptyCopy {j : Nat} {c : UInt8} {s : Bytes} {ps : List Piece} :
      First patterns j [] (c :: s) → Scans patterns s ps →
        Scans patterns (c :: s) (.replaced j :: .copied c :: ps)
  | emptyFinish {j : Nat} : First patterns j [] [] → Scans patterns [] [.replaced j]

def uses (ps : List Piece) : List Nat :=
  ps.filterMap fun
    | .copied _ => none
    | .replaced j => some j

def Piece.text (tos : List StringThunk) : Piece → Except Error Bytes
  | .copied c => .ok [c]
  | .replaced j =>
      match tos[j]? with
      | some thunk => thunk.map Prod.fst
      | none => .ok []

/-- The context of the replacement with the index `j`, which is empty where it has none. -/
def contextOf (tos : List StringThunk) (j : Nat) : NixStringContext :=
  match tos[j]? with
  | some (.ok (_, ctx)) => ctx
  | _ => ∅

/-- What a call does that scans the subject into the pieces. -/
structure Meets (tos : List StringThunk) (context : NixStringContext) (ps : List Piece)
    (outcome : Outcome) : Prop where
  text : outcome.value.map Prod.fst = (ps.mapM (Piece.text tos)).map List.flatten
  context : ∀ r, outcome.value = .ok r →
    ∀ elem, elem ∈ r.2 ↔ elem ∈ context ∨ ∃ j ∈ uses ps, elem ∈ contextOf tos j
  nodup : outcome.forced.Nodup
  used : ∀ j ∈ outcome.forced, j ∈ uses ps

@[simp] theorem uses_copied (c : UInt8) (ps : List Piece) : uses (.copied c :: ps) = uses ps := rfl

@[simp] theorem uses_replaced (j : Nat) (ps : List Piece) :
    uses (.replaced j :: ps) = j :: uses ps := rfl

theorem exists_first (patterns : List Bytes) (s : Bytes) :
    NoMatch patterns s ∨ ∃ j pattern, First patterns j pattern s := by
  induction patterns with
  | nil => exact .inl nofun
  | cons pattern patterns ih =>
      by_cases hpattern : pattern <+: s
      · exact .inr ⟨0, pattern, rfl, hpattern, nofun⟩
      · rcases ih with hno | ⟨j, q, hget, hmatch, hfirst⟩
        · exact .inl (List.forall_mem_cons.mpr ⟨hpattern, hno⟩)
        · refine .inr ⟨j + 1, q, hget, hmatch, fun i hi q' hq' => ?_⟩
          cases i with
          | zero => exact Option.some.inj hq' ▸ hpattern
          | succ i => exact hfirst i (Nat.lt_of_succ_lt_succ hi) q' hq'

theorem exists_scans (patterns : List Bytes) (s : Bytes) : ∃ ps, Scans patterns s ps := by
  induction hn : s.length using Nat.strong_induction_on generalizing s with
  | _ n ih =>
    subst hn
    rcases exists_first patterns s with hno | ⟨j, pattern, hfirst⟩
    · cases s with
      | nil => exact ⟨_, .finish hno⟩
      | cons c s =>
          obtain ⟨ps, hps⟩ := ih s.length (Nat.lt_succ_self _) s rfl
          exact ⟨_, .copy hno hps⟩
    · rcases eq_or_ne pattern [] with rfl | hne
      · cases s with
        | nil => exact ⟨_, .emptyFinish hfirst⟩
        | cons c s =>
            obtain ⟨ps, hps⟩ := ih s.length (Nat.lt_succ_self _) s rfl
            exact ⟨_, .emptyCopy hfirst hps⟩
      · obtain ⟨s, rfl⟩ := hfirst.isMatch
        have hpos := List.length_pos_of_ne_nil hne
        obtain ⟨ps, hps⟩ := ih s.length (by rw [List.length_append]; omega) s rfl
        exact ⟨_, .skip hne hfirst hps⟩

theorem First.unique {patterns : List Bytes} {i j : Nat} {p q s : Bytes}
    (hp : First patterns i p s) (hq : First patterns j q s) : i = j ∧ p = q := by
  have hij : i = j := by
    rcases Nat.lt_trichotomy i j with hlt | heq | hlt
    · exact absurd hp.isMatch (hq.isFirst i hlt p hp.get)
    · exact heq
    · exact absurd hq.isMatch (hp.isFirst j hlt q hq.get)
  subst hij
  exact ⟨rfl, Option.some.inj (hp.get.symm.trans hq.get)⟩

theorem First.not_noMatch {patterns : List Bytes} {j : Nat} {pattern s : Bytes}
    (h : First patterns j pattern s) : ¬NoMatch patterns s := fun hno =>
  hno pattern (List.mem_of_getElem? h.get) h.isMatch

theorem Scans.unique {patterns : List Bytes} {t : Bytes} {ps qs : List Piece}
    (hps : Scans patterns t ps) (hqs : Scans patterns t qs) : ps = qs := by
  induction hps generalizing qs with
  | @copy c s ps hno _ ih =>
      generalize hs : c :: s = t at hqs
      cases hqs with
      | copy _ hqs =>
          cases hs
          rw [ih hqs]
      | finish => cases hs
      | skip _ hfirst => exact absurd (hs ▸ hno) hfirst.not_noMatch
      | emptyCopy hfirst => exact absurd (hs ▸ hno) hfirst.not_noMatch
      | emptyFinish => cases hs
  | finish hno =>
      generalize hs : ([] : Bytes) = t at hqs
      cases hqs with
      | copy => cases hs
      | finish => rfl
      | skip _ hfirst => exact absurd (hs ▸ hno) hfirst.not_noMatch
      | emptyCopy => cases hs
      | emptyFinish hfirst => exact absurd hno hfirst.not_noMatch
  | @skip j pattern s ps hne hfirst _ ih =>
      generalize hs : pattern ++ s = t at hqs hfirst
      cases hqs with
      | copy hno => exact absurd hno hfirst.not_noMatch
      | finish hno => exact absurd hno hfirst.not_noMatch
      | skip _ hfirst' hqs =>
          obtain ⟨rfl, rfl⟩ := hfirst.unique hfirst'
          rw [ih (List.append_cancel_left hs ▸ hqs)]
      | emptyCopy hfirst' => exact absurd (hfirst.unique hfirst').2 hne
      | emptyFinish hfirst' => exact absurd (hfirst.unique hfirst').2 hne
  | @emptyCopy j c s ps hfirst _ ih =>
      generalize hs : c :: s = t at hqs hfirst
      cases hqs with
      | copy hno => exact absurd hno hfirst.not_noMatch
      | finish => cases hs
      | skip hne hfirst' => exact absurd (hfirst'.unique hfirst).2 hne
      | emptyCopy hfirst' hqs =>
          cases hs
          obtain ⟨rfl, -⟩ := hfirst.unique hfirst'
          rw [ih hqs]
      | emptyFinish => cases hs
  | @emptyFinish j hfirst =>
      generalize hs : ([] : Bytes) = t at hqs
      cases hqs with
      | copy => cases hs
      | finish hno => exact absurd hno hfirst.not_noMatch
      | skip hne => exact absurd (List.append_eq_nil_iff.mp hs.symm).1 hne
      | emptyCopy => cases hs
      | emptyFinish hfirst' => rw [(hfirst.unique hfirst').1]

section Loop

variable {patterns : List Bytes} {tos : List StringThunk} {s : Bytes}

theorem matchesAt_iff {p : Nat} {pattern : Bytes} :
    matchesAt s p pattern = true ↔ pattern <+: s.drop p := by
  rw [matchesAt, decide_eq_true_iff, List.prefix_iff_eq_take]
  exact eq_comm

theorem findMatch_of_noMatch {p : Nat} (h : NoMatch patterns (s.drop p)) (k : Nat) :
    findMatch s p (patterns.zip tos) k = none := by
  induction patterns generalizing tos k with
  | nil => rfl
  | cons pattern patterns ih =>
      cases tos with
      | nil => rfl
      | cons thunk tos =>
          obtain ⟨hpattern, hrest⟩ := List.forall_mem_cons.mp h
          rw [List.zip_cons_cons, findMatch, if_neg (matchesAt_iff.not.mpr hpattern), ih hrest]

theorem findMatch_of_first {p j : Nat} {pattern : Bytes} {thunk : StringThunk}
    (h : First patterns j pattern (s.drop p)) (hto : tos[j]? = some thunk) (k : Nat) :
    findMatch s p (patterns.zip tos) k = some (k + j, pattern, thunk) := by
  induction patterns generalizing tos j k with
  | nil => exact absurd h.get nofun
  | cons q patterns ih =>
      cases tos with
      | nil => cases hto
      | cons thunk' tos =>
          rw [List.zip_cons_cons, findMatch]
          cases j with
          | zero =>
              obtain rfl := Option.some.inj h.get
              obtain rfl := Option.some.inj hto
              rw [if_pos (matchesAt_iff.mpr h.isMatch), Nat.add_zero]
          | succ j =>
              have hq : ¬q <+: s.drop p := h.isFirst 0 (Nat.succ_pos _) q rfl
              have hrest : First patterns j pattern (s.drop p) :=
                ⟨h.get, h.isMatch, fun i hi => h.isFirst (i + 1) (Nat.succ_lt_succ hi)⟩
              rw [if_neg (matchesAt_iff.not.mpr hq), ih hrest hto, Nat.add_right_comm,
                Nat.add_assoc]

/-- The cache has the texts of what was forced. -/
structure CacheOk (tos : List StringThunk) (st : Scan) : Prop where
  forced : ∀ j, j ∈ st.forced ↔ (st.cache.lookup j).isSome
  nodup : st.forced.Nodup
  cached : ∀ j ts, st.cache.lookup j = some ts →
    ∃ ctx, tos[j]? = some (.ok (ts, ctx)) ∧ ctx ⊆ st.context

/-- What a use of a replacement does. -/
structure Replaces (tos : List StringThunk) (st : Scan) (j : Nat) (ts : Bytes) (st' : Scan) :
    Prop where
  cacheOk : CacheOk tos st'
  p : st'.p = st.p
  res : st'.res = st.res
  text : ∃ ctx, tos[j]? = some (.ok (ts, ctx))
  context : ∀ elem, elem ∈ st'.context ↔ elem ∈ st.context ∨ elem ∈ contextOf tos j
  forced : ∀ i, i ∈ st'.forced → i ∈ st.forced ∨ i = j

theorem replacement_ok {st st' : Scan} (hok : CacheOk tos st) {j : Nat} {thunk : StringThunk}
    (hto : tos[j]? = some thunk) {ts : Bytes} (h : st.replacement j thunk = (st', .ok ts)) :
    Replaces tos st j ts st' := by
  unfold Scan.replacement at h
  cases hcache : st.cache.lookup j with
  | some ts' =>
      rw [hcache] at h
      cases h
      obtain ⟨ctx, hget, hsub⟩ := hok.cached j ts hcache
      have hctx : contextOf tos j = ctx := by rw [contextOf, hget]
      refine ⟨hok, rfl, rfl, ⟨ctx, hget⟩, fun elem => ?_, fun i => .inl⟩
      rw [hctx]
      exact ⟨.inl, Or.rec id fun hin => hsub hin⟩
  | none =>
      rw [hcache] at h
      cases thunk with
      | error e => cases h
      | ok r =>
          obtain ⟨ts', ctx⟩ := r
          cases h
          have hctx : contextOf tos j = ctx := by rw [contextOf, hto]
          have hnew : j ∉ st.forced := by
            rw [hok.forced, hcache]
            exact Bool.false_ne_true
          refine ⟨⟨fun i => ?_, ?_, fun i ts' hi => ?_⟩, rfl, rfl, ⟨ctx, hto⟩, fun elem => ?_,
            fun i hi => ?_⟩
          · rw [List.mem_append, List.mem_singleton, hok.forced, List.lookup_cons]
            by_cases hij : i = j
            · simp [hij]
            · rw [beq_false_of_ne hij]
              simp only [hij, or_false]
          · rw [List.nodup_append]
            refine ⟨hok.nodup, List.nodup_singleton j, fun a ha b hb => ?_⟩
            rw [List.mem_singleton.mp hb]
            exact fun heq => hnew (heq ▸ ha)
          · rw [List.lookup_cons] at hi
            by_cases hij : i = j
            · subst hij
              rw [beq_self_eq_true] at hi
              cases hi
              exact ⟨ctx, hto, Finset.subset_union_right⟩
            · rw [beq_false_of_ne hij] at hi
              obtain ⟨ctx', hget, hsub⟩ := hok.cached i ts' hi
              exact ⟨ctx', hget, hsub.trans Finset.subset_union_left⟩
          · rw [hctx, Finset.mem_union]
          · rcases List.mem_append.mp hi with hi | hi
            · exact .inl hi
            · exact .inr (List.mem_singleton.mp hi)

theorem replacement_error {st st' : Scan} (hok : CacheOk tos st) {j : Nat} {thunk : StringThunk}
    {e : Error} (h : st.replacement j thunk = (st', .error e)) :
    thunk = .error e ∧ st'.forced = st.forced ++ [j] ∧ j ∉ st.forced := by
  unfold Scan.replacement at h
  cases hcache : st.cache.lookup j with
  | some ts =>
      rw [hcache] at h
      cases h
  | none =>
      rw [hcache] at h
      cases thunk with
      | ok r => cases h
      | error e' =>
          cases h
          refine ⟨rfl, rfl, ?_⟩
          rw [hok.forced, hcache]
          exact Bool.false_ne_true

/-- The loop from a state on, where the rest of the subject is scanned into the pieces. -/
structure Follows (tos : List StringThunk) (st : Scan) (ps : List Piece)
    (r : Scan × Except Error Unit) : Prop where
  res : r.2.map (fun _ => r.1.res) =
    (ps.mapM (Piece.text tos)).map fun texts => st.res ++ texts.flatten
  context : r.2 = .ok () →
    ∀ elem, elem ∈ r.1.context ↔ elem ∈ st.context ∨ ∃ j ∈ uses ps, elem ∈ contextOf tos j
  nodup : r.1.forced.Nodup
  forced : ∀ j ∈ r.1.forced, j ∈ st.forced ∨ j ∈ uses ps

theorem CacheOk.append {st : Scan} (h : CacheOk tos st) (text : Bytes) :
    CacheOk tos (st.append text) :=
  ⟨h.forced, h.nodup, h.cached⟩

theorem CacheOk.advance {st : Scan} (h : CacheOk tos st) (n : Nat) : CacheOk tos (st.advance n) :=
  ⟨h.forced, h.nodup, h.cached⟩

theorem mapM_piece {piece : Piece} {ts : Bytes} (h : piece.text tos = .ok ts) (ps : List Piece)
    (res : Bytes) :
    ((piece :: ps).mapM (Piece.text tos)).map (fun texts => res ++ texts.flatten) =
      (ps.mapM (Piece.text tos)).map fun texts => res ++ ts ++ texts.flatten := by
  rw [List.mapM_cons, h]
  cases ps.mapM (Piece.text tos) with
  | error e => rfl
  | ok texts => exact congrArg Except.ok (List.append_assoc res ts texts.flatten).symm

theorem Follows.copied {st : Scan} {c : UInt8} {n : Nat} {ps : List Piece}
    {r : Scan × Except Error Unit} (h : Follows tos ((st.append [c]).advance n) ps r) :
    Follows tos st (.copied c :: ps) r := by
  have htext : (Piece.copied c).text tos = .ok [c] := rfl
  refine ⟨?_, h.context, h.nodup, h.forced⟩
  rw [mapM_piece htext]
  exact h.res

theorem Follows.replaced {st st' : Scan} {j n : Nat} {ts : Bytes} {ps : List Piece}
    {r : Scan × Except Error Unit} (hrep : Replaces tos st j ts st')
    (h : Follows tos ((st'.append ts).advance n) ps r) : Follows tos st (.replaced j :: ps) r := by
  obtain ⟨ctx, hget⟩ := hrep.text
  have htext : (Piece.replaced j).text tos = .ok ts := by
    rw [Piece.text, hget]
    rfl
  refine ⟨?_, fun hr elem => ?_, h.nodup, fun i hi => ?_⟩
  · have hres := h.res
    rw [mapM_piece htext, hres, ← hrep.res]
    rfl
  · have hcontext : elem ∈ r.1.context ↔
        elem ∈ st'.context ∨ ∃ i ∈ uses ps, elem ∈ contextOf tos i := h.context hr elem
    rw [hcontext, hrep.context, uses_replaced, List.exists_mem_cons_iff, or_assoc]
  · rw [uses_replaced, List.mem_cons]
    rcases h.forced i hi with hin | hin
    · rcases hrep.forced i hin with hin | heq
      · exact .inl hin
      · exact .inr (.inl heq)
    · exact .inr (.inr hin)

theorem follows_error {st st' : Scan} (hok : CacheOk tos st) {j : Nat} {thunk : StringThunk}
    (hto : tos[j]? = some thunk) {e : Error} (h : st.replacement j thunk = (st', .error e))
    (ps : List Piece) : Follows tos st (.replaced j :: ps) (st', .error e) := by
  obtain ⟨rfl, hforced, hnew⟩ := replacement_error hok h
  have htext : (Piece.replaced j).text tos = .error e := by
    rw [Piece.text, hto]
    rfl
  refine ⟨?_, nofun, ?_, fun i hi => ?_⟩
  · rw [List.mapM_cons, htext]
    rfl
  · rw [hforced, List.nodup_append]
    refine ⟨hok.nodup, List.nodup_singleton j, fun a ha b hb => ?_⟩
    rw [List.mem_singleton.mp hb]
    exact fun heq => hnew (heq ▸ ha)
  · rw [hforced] at hi
    rw [uses_replaced, List.mem_cons]
    rcases List.mem_append.mp hi with hi | hi
    · exact .inl hi
    · exact .inr (.inl (List.mem_singleton.mp hi))

section Turns

variable {rules : List (Bytes × StringThunk)}

theorem loop_of_ok {st st' : Scan} (hp : st.p ≤ s.length) (h : turn rules s st = (st', .ok ())) :
    loop rules s st = loop rules s st' := by
  rw [loop, if_pos hp]
  split
  next heq =>
    rw [h] at heq
    cases heq
    rfl
  next heq =>
    rw [h] at heq
    cases heq

theorem loop_of_error {st st' : Scan} {e : Error} (hp : st.p ≤ s.length)
    (h : turn rules s st = (st', .error e)) : loop rules s st = (st', .error e) := by
  rw [loop, if_pos hp]
  split
  next heq =>
    rw [h] at heq
    cases heq
  next heq =>
    rw [h] at heq
    cases heq
    rfl

theorem loop_of_lt {st : Scan} (hp : s.length < st.p) : loop rules s st = (st, .ok ()) := by
  rw [loop, if_neg (Nat.not_le.mpr hp)]

end Turns

theorem getElem?_of_drop {p : Nat} {c : UInt8} {t : Bytes} (h : s.drop p = c :: t) :
    s[p]? = some c ∧ s.drop (p + 1) = t ∧ p + 1 ≤ s.length := by
  have hlt : p < s.length := by
    by_contra hge
    rw [List.drop_eq_nil_of_le (Nat.not_lt.mp hge)] at h
    cases h
  rw [List.drop_eq_getElem_cons hlt] at h
  obtain ⟨hc, ht⟩ := List.cons.inj h
  exact ⟨hc ▸ List.getElem?_eq_getElem hlt, ht, hlt⟩

theorem copyChar_eq {st : Scan} {c : UInt8} {t : Bytes} (h : s.drop st.p = c :: t) :
    st.copyChar s = (st.append [c]).advance 1 := by
  rw [Scan.copyChar, (getElem?_of_drop h).1]
  rfl

theorem loop_copyChar {rules : List (Bytes × StringThunk)} {st : Scan} (h : s.drop st.p = []) :
    loop rules s (st.copyChar s) = (st.advance 1, .ok ()) := by
  have hle : s.length ≤ st.p := List.drop_eq_nil_iff.mp h
  have hnone : s[st.p]? = none := List.getElem?_eq_none hle
  have hcopy : st.copyChar s = st.advance 1 := by
    rw [Scan.copyChar, hnone]
    simp [Scan.append]
  rw [hcopy, loop_of_lt]
  exact Nat.lt_succ_of_le hle

theorem follows_nil {st : Scan} (h : CacheOk tos st) (n : Nat) :
    Follows tos st [] (st.advance n, .ok ()) := by
  refine ⟨?_, fun _ elem => ?_, h.nodup, fun j => .inl⟩
  · exact congrArg Except.ok (List.append_nil _).symm
  · exact ⟨.inl, fun hin => hin.elim id fun ⟨_, hj, _⟩ => absurd hj List.not_mem_nil⟩

theorem turn_of_noMatch {st : Scan} (h : NoMatch patterns (s.drop st.p)) :
    turn (patterns.zip tos) s st = (st.copyChar s, .ok ()) := by
  rw [turn, findMatch_of_noMatch h]

theorem exists_thunk (hlen : patterns.length = tos.length) {j : Nat} {pattern t : Bytes}
    (h : First patterns j pattern t) : ∃ thunk, tos[j]? = some thunk := by
  obtain ⟨hlt, -⟩ := List.getElem?_eq_some_iff.mp h.get
  exact ⟨_, List.getElem?_eq_getElem (hlen ▸ hlt)⟩

theorem follows_of_first (hlen : patterns.length = tos.length) {st : Scan} (hok : CacheOk tos st)
    (hp : st.p ≤ s.length) {j : Nat} {pattern : Bytes}
    (hfirst : First patterns j pattern (s.drop st.p)) {ps : List Piece}
    (hrest : ∀ st' ts, Replaces tos st j ts st' →
      Follows tos st (.replaced j :: ps) (loop (patterns.zip tos) s
        (if pattern = [] then (st'.append ts).copyChar s
          else (st'.append ts).advance pattern.length))) :
    Follows tos st (.replaced j :: ps) (loop (patterns.zip tos) s st) := by
  obtain ⟨thunk, hto⟩ := exists_thunk hlen hfirst
  have hfind := findMatch_of_first hfirst hto 0
  rw [Nat.zero_add] at hfind
  obtain ⟨st', hreplacement⟩ : ∃ st', (st.replacement j thunk).1 = st' := ⟨_, rfl⟩
  cases hresult : (st.replacement j thunk).2 with
  | error e =>
      have heq : st.replacement j thunk = (st', .error e) := Prod.ext hreplacement hresult
      have hturn : turn (patterns.zip tos) s st = (st', .error e) := by
        rw [turn, hfind]
        simp only [heq]
      rw [loop_of_error hp hturn]
      exact follows_error hok hto heq ps
  | ok ts =>
      have heq : st.replacement j thunk = (st', .ok ts) := Prod.ext hreplacement hresult
      have hturn : turn (patterns.zip tos) s st =
          (if pattern = [] then (st'.append ts).copyChar s
            else (st'.append ts).advance pattern.length, .ok ()) := by
        rw [turn, hfind]
        simp only [heq]
        split <;> rfl
      rw [loop_of_ok hp hturn]
      exact hrest st' ts (replacement_ok hok hto heq)

theorem loop_of_scans (hlen : patterns.length = tos.length) {t : Bytes} {ps : List Piece}
    (h : Scans patterns t ps) {st : Scan} (hok : CacheOk tos st) (hp : st.p ≤ s.length)
    (ht : s.drop st.p = t) : Follows tos st ps (loop (patterns.zip tos) s st) := by
  induction h generalizing st with
  | copy hno _ ih =>
      obtain ⟨-, hdrop, hle⟩ := getElem?_of_drop ht
      rw [loop_of_ok hp (turn_of_noMatch (ht ▸ hno)), copyChar_eq ht]
      exact (ih ((hok.append _).advance 1) hle hdrop).copied
  | finish hno =>
      rw [loop_of_ok hp (turn_of_noMatch (ht ▸ hno)), loop_copyChar ht]
      exact follows_nil hok 1
  | @skip j pattern t ps hne hfirst _ ih =>
      refine follows_of_first hlen hok hp (ht ▸ hfirst) fun st' ts hrep => ?_
      rw [if_neg hne]
      have hdrop : s.drop (st'.p + pattern.length) = t := by
        rw [hrep.p, ← List.drop_drop, ht, List.drop_left]
      have hle : st'.p + pattern.length ≤ s.length := by
        have hlength := congrArg List.length ht
        rw [List.length_drop, List.length_append] at hlength
        rw [hrep.p]
        have hpos := List.length_pos_of_ne_nil hne
        omega
      exact (ih ((hrep.cacheOk.append ts).advance _) hle hdrop).replaced hrep
  | emptyCopy hfirst _ ih =>
      refine follows_of_first hlen hok hp (ht ▸ hfirst) fun st' ts hrep => ?_
      have ht' : s.drop (st'.append ts).p = _ := (congrArg s.drop hrep.p).trans ht
      obtain ⟨-, hdrop, hle⟩ := getElem?_of_drop ht'
      rw [if_pos rfl, copyChar_eq ht']
      exact Follows.replaced (n := 0) hrep
        (ih (((hrep.cacheOk.append ts).append _).advance 1) hle hdrop).copied
  | @emptyFinish j hfirst =>
      have hfirst' : First patterns j [] (s.drop st.p) := by
        rw [ht]
        exact hfirst
      refine follows_of_first hlen hok hp hfirst' fun st' ts hrep => ?_
      have ht' : s.drop (st'.append ts).p = [] := (congrArg s.drop hrep.p).trans ht
      rw [if_pos rfl, loop_copyChar ht']
      exact Follows.replaced (n := 0) hrep (follows_nil (hrep.cacheOk.append ts) 1)

end Loop

theorem run_spec {patterns : List Bytes} {tos : List StringThunk}
    (hlen : patterns.length = tos.length) {s : Bytes} {ps : List Piece} (h : Scans patterns s ps)
    (context : NixStringContext) : Meets tos context ps (run (patterns.zip tos) s context) := by
  have hok : CacheOk tos ⟨0, [], context, [], []⟩ := by
    refine ⟨fun j => ?_, List.nodup_nil, nofun⟩
    exact ⟨fun hin => absurd hin List.not_mem_nil, nofun⟩
  have hfollows := loop_of_scans hlen h hok (Nat.zero_le _) (List.drop_zero)
  rw [run]
  generalize loop (patterns.zip tos) s ⟨0, [], context, [], []⟩ = r at hfollows
  obtain ⟨st, result⟩ := r
  refine ⟨?_, fun value hvalue => ?_, hfollows.nodup, fun j hj => ?_⟩
  · have hres := hfollows.res
    cases result <;> exact hres
  · cases result with
    | error e => cases hvalue
    | ok _ =>
        cases hvalue
        exact hfollows.context rfl
  · exact (hfollows.forced j hj).resolve_left List.not_mem_nil

/-- The contexts of the patterns are left out. -/
theorem replaceStrings_spec (froms : List (Bytes × NixStringContext)) (tos : List StringThunk)
    (hlen : froms.length = tos.length) (s : Bytes) (context : NixStringContext) :
    ∃ ps, Scans (froms.map Prod.fst) s ps ∧ (∀ qs, Scans (froms.map Prod.fst) s qs → qs = ps) ∧
      Meets tos context ps
        (prim_replaceStrings (froms.map Except.ok) tos (.ok (s, context))) := by
  obtain ⟨ps, hps⟩ := exists_scans (froms.map Prod.fst) s
  refine ⟨ps, hps, fun qs hqs => hqs.unique hps, ?_⟩
  have hmapM : (froms.map Except.ok).mapM (Except.map (ε := Error) Prod.fst) =
      .ok (froms.map Prod.fst) := by
    rw [mapM_eq_ok, List.forall₂_map_left_iff, List.forall₂_map_right_iff]
    exact List.forall₂_same.mpr fun _ _ => rfl
  rw [prim_replaceStrings, if_neg (by rw [List.length_map]; exact not_not.mpr hlen), hmapM]
  exact run_spec (by rw [List.length_map]; exact hlen) hps context

def someFroms : List (Bytes × NixStringContext) := [(str "a", ∅), ([], ∅)]

def someTos : List StringThunk := [.ok (str "x", ∅), .ok (str "-", ∅)]

theorem replaceStrings_spec_some :
    ∃ ps, Scans (someFroms.map Prod.fst) (str "ba") ps ∧
      (∀ qs, Scans (someFroms.map Prod.fst) (str "ba") qs → qs = ps) ∧
      Meets someTos ∅ ps
        (prim_replaceStrings (someFroms.map Except.ok) someTos (.ok (str "ba", ∅))) :=
  replaceStrings_spec someFroms someTos rfl (str "ba") ∅

end Nix.Eval.ReplaceStrings
