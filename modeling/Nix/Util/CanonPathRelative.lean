import Nix.Util.CanonPathOperations

/-!
Paths relative to others: `makeRelative`, which is undone by the constructor with a root, and
`removePrefix`, which is undone by `operator/`.
-/

set_option linter.dupNamespace false

namespace Nix.Util.CanonPaths

open Util.Types Util.CanonPathComponents Lib.Delimited Lib.Results

namespace CanonPath

/-! ### Iterators

An iterator is its remaining text. As a suffix of `rel()`, it is the end if it is empty. -/

/-- `operator*`. -/
def current (remaining : Bytes) : Bytes :=
  remaining.takeWhile (· ≠ slash)

/-- `operator++`. -/
def next (remaining : Bytes) : Bytes :=
  (remaining.dropWhile (· ≠ slash)).drop 1

theorem length_next_lt {remaining : Bytes} (h : remaining ≠ []) :
    (next remaining).length < remaining.length := by
  have hle := List.length_dropWhile_le (· ≠ slash) remaining
  have hpos := List.length_pos_of_ne_nil h
  rw [next, List.length_drop]
  omega

/-- The first loop of `makeRelative`. -/
def skipCommon (p1 p2 : Bytes) : Bytes × Bytes :=
  if _h : p1 ≠ [] ∧ p2 ≠ [] ∧ current p1 = current p2 then skipCommon (next p1) (next p2)
  else (p1, p2)
termination_by p1.length
decreasing_by exact length_next_lt _h.1

/-- The second loop of `makeRelative`. -/
def upwards (p1 res : Bytes) : Bytes :=
  if _h : p1 = [] then res
  else upwards (next p1) ((if res ≠ [] then res ++ [slash] else res) ++ str "..")
termination_by p1.length
decreasing_by exact length_next_lt _h

def makeRelative (p path : CanonPath) : Bytes :=
  match skipCommon (rel p) (rel path) with
  | ([], []) => str "."
  | ([], p2) => p2
  | (p1, p2) =>
      let res := upwards p1 []
      if p2 ≠ [] then (if res ≠ [] then res ++ [slash] else res) ++ p2 else res

/-- `removePrefix`, of the path `pre`. -/
def removePrefix (p pre : CanonPath) : Except Error CanonPath :=
  if !p.isWithin pre then .error (.assertion "isWithin(prefix)")
  else if pre.isRoot then .ok p
  else if p.path.length = pre.path.length then .ok root
  else .ok ⟨p.path.drop pre.path.length⟩

end CanonPath

def relText (cs : List Bytes) : Bytes :=
  (join slash cs).drop 1

theorem relText_cons (c : Bytes) (cs : List Bytes) : relText (c :: cs) = c ++ join slash cs :=
  rfl

theorem rel_ofComponents (cs : List Bytes) : (ofComponents cs).rel = relText cs := by
  rcases eq_or_ne cs [] with rfl | hne
  · rfl
  · rw [CanonPath.rel, ofComponents, render_of_ne_nil hne]
    rfl

section Iterators

variable {c : Bytes} {cs : List Bytes}

theorem relText_ne_nil (hc : c ≠ []) : relText (c :: cs) ≠ [] := by
  rw [relText_cons]
  exact List.append_ne_nil_of_left_ne_nil hc _

theorem slash_ne_of_mem (hc : slash ∉ c) : ∀ b ∈ c, decide (b ≠ slash) = true :=
  fun _ hb => decide_eq_true fun heq => hc (heq ▸ hb)

theorem current_relText (hc : slash ∉ c) : CanonPath.current (relText (c :: cs)) = c := by
  rw [CanonPath.current, relText_cons, List.takeWhile_append_of_pos (slash_ne_of_mem hc)]
  cases cs with
  | nil => rw [join_nil, List.takeWhile_nil, List.append_nil]
  | cons d cs => rw [join_cons, List.takeWhile_cons_of_neg (by simp), List.append_nil]

theorem next_relText (hc : slash ∉ c) : CanonPath.next (relText (c :: cs)) = relText cs := by
  rw [CanonPath.next, relText_cons, List.dropWhile_append_of_pos (slash_ne_of_mem hc), relText]
  cases cs with
  | nil => rw [join_nil, List.dropWhile_nil]
  | cons d cs => rw [join_cons, List.dropWhile_cons_of_neg (by simp)]

end Iterators

theorem skipCommon_relText {cs ds : List Bytes} (hcs : Valid cs) (hds : Valid ds) :
    ∃ k cs' ds', cs = k ++ cs' ∧ ds = k ++ ds' ∧
      CanonPath.skipCommon (relText cs) (relText ds) = (relText cs', relText ds') := by
  induction cs generalizing ds with
  | nil =>
    refine ⟨[], [], ds, rfl, rfl, ?_⟩
    rw [CanonPath.skipCommon, dif_neg fun h => h.1 rfl]
  | cons c cs ih =>
    cases ds with
    | nil =>
      refine ⟨[], c :: cs, [], rfl, rfl, ?_⟩
      rw [CanonPath.skipCommon, dif_neg fun h => h.2.1 rfl]
    | cons d ds =>
      obtain ⟨hc, hcs'⟩ := Valid.cons_iff.mp hcs
      obtain ⟨hd, hds'⟩ := Valid.cons_iff.mp hds
      rw [CanonPath.skipCommon, current_relText hc.no_slash, current_relText hd.no_slash,
        next_relText hc.no_slash, next_relText hd.no_slash]
      split
      next h =>
        obtain ⟨k, cs', ds', rfl, rfl, hskip⟩ := ih hcs' hds'
        exact ⟨c :: k, cs', ds', rfl, by rw [h.2.2]; rfl, hskip⟩
      next => exact ⟨[], c :: cs, d :: ds, rfl, rfl, rfl⟩

theorem relText_append {cs ds : List Bytes} (hcs : cs = [] ∨ relText cs ≠ []) (hds : ds ≠ []) :
    (if relText cs ≠ [] then relText cs ++ [slash] else relText cs) ++ relText ds =
      relText (cs ++ ds) := by
  obtain ⟨d, ds, rfl⟩ := List.exists_cons_of_ne_nil hds
  rcases hcs with rfl | hne
  · rfl
  · rw [if_pos hne, List.append_assoc]
    cases cs with
    | nil => exact absurd rfl hne
    | cons c cs =>
      show relText (c :: cs) ++ ([slash] ++ relText (d :: ds)) = relText (c :: (cs ++ d :: ds))
      rw [relText_cons, relText_cons, relText_cons, join_append, join_cons, List.append_assoc]
      rfl

/-- The components `..`. -/
def dotdots (n : Nat) : List Bytes :=
  List.replicate n (str "..")

theorem dotdots_separated (n : Nat) : dotdots n = [] ∨ relText (dotdots n) ≠ [] := by
  cases n with
  | zero => exact .inl rfl
  | succ n => exact .inr (relText_ne_nil (by decide))

/-- One `..` is written for each component. -/
theorem upwards_relText {cs : List Bytes} (hcs : Valid cs) (n : Nat) :
    CanonPath.upwards (relText cs) (relText (dotdots n)) = relText (dotdots (n + cs.length)) := by
  induction cs generalizing n with
  | nil =>
    rw [CanonPath.upwards, dif_pos (show relText [] = [] from rfl)]
    rfl
  | cons c cs ih =>
    obtain ⟨hc, hcs⟩ := Valid.cons_iff.mp hcs
    have hstep := relText_append (dotdots_separated n) (List.cons_ne_nil (str "..") [])
    have hsucc : dotdots n ++ [str ".."] = dotdots (n + 1) := by
      rw [dotdots, dotdots, List.replicate_succ']
    have hdots : relText [str ".."] = str ".." := List.append_nil _
    rw [hdots, hsucc] at hstep
    rw [CanonPath.upwards, dif_neg (relText_ne_nil hc.ne_nil), next_relText hc.no_slash, hstep,
      ih hcs, List.length_cons, Nat.add_right_comm, Nat.add_assoc]

theorem makeRelative_ofComponents {cs ds : List Bytes} (hcs : Valid cs) (hds : Valid ds) :
    ∃ k cs' ds', cs = k ++ cs' ∧ ds = k ++ ds' ∧
      (ofComponents cs).makeRelative (ofComponents ds) =
        if cs' = [] ∧ ds' = [] then str "." else relText (dotdots cs'.length ++ ds') := by
  obtain ⟨k, cs', ds', rfl, rfl, hskip⟩ := skipCommon_relText hcs hds
  refine ⟨k, cs', ds', rfl, rfl, ?_⟩
  have hcs' := (Valid.append_iff.mp hcs).2
  have hds' := (Valid.append_iff.mp hds).2
  have hzero : CanonPath.upwards (relText cs') [] = relText (dotdots cs'.length) := by
    have h := upwards_relText hcs' 0
    rwa [Nat.zero_add] at h
  rw [CanonPath.makeRelative, rel_ofComponents, rel_ofComponents, hskip]
  cases cs' with
  | nil =>
    cases ds' with
    | nil => rfl
    | cons d ds' =>
      have hd := (Valid.cons_iff.mp hds').1
      obtain ⟨b, t, htext⟩ := List.exists_cons_of_ne_nil (@relText_ne_nil d ds' hd.ne_nil)
      rw [if_neg fun h => List.cons_ne_nil _ _ h.2]
      show _ = relText (d :: ds')
      rw [htext]
      rfl
  | cons c cs' =>
    have hc := (Valid.cons_iff.mp hcs').1
    have hne : relText (c :: cs') ≠ [] := relText_ne_nil hc.ne_nil
    obtain ⟨b, t, htext⟩ := List.exists_cons_of_ne_nil hne
    have hmatch : (match (relText (c :: cs'), relText ds') with
        | ([], []) => str "."
        | ([], p2) => p2
        | (p1, p2) =>
            let res := CanonPath.upwards p1 []
            if p2 ≠ [] then (if res ≠ [] then res ++ [slash] else res) ++ p2 else res) =
          if relText ds' ≠ [] then
            (if relText (dotdots (c :: cs').length) ≠ [] then
              relText (dotdots (c :: cs').length) ++ [slash]
            else relText (dotdots (c :: cs').length)) ++ relText ds'
          else relText (dotdots (c :: cs').length) := by
      rw [← hzero, htext]
    rw [if_neg fun h => List.cons_ne_nil _ _ h.1, hmatch]
    cases ds' with
    | nil =>
      rw [if_neg (show ¬relText [] ≠ [] from not_not.mpr rfl), List.append_nil]
    | cons d ds' =>
      rw [if_pos (relText_ne_nil (Valid.cons_iff.mp hds').1.ne_nil)]
      exact relText_append (dotdots_separated _) (List.cons_ne_nil _ _)

/-- What a component of a text does to the components so far. -/
def resolve (cs : List Bytes) (c : Bytes) : List Bytes :=
  if c = str "." then cs else if c = str ".." then cs.dropLast else cs ++ [c]

theorem canonPathLoop_resolve {pieces cs : List Bytes} (hcs : Separable slash cs)
    (hpieces : ∀ c ∈ pieces, c ≠ [] ∧ slash ∉ c) {fuel : Nat} (hfuel : pieces.length < fuel) :
    canonPathLoop fuel (join slash pieces) (join slash cs) =
      join slash (pieces.foldl resolve cs) := by
  induction pieces generalizing fuel cs with
  | nil =>
    obtain ⟨fuel, rfl⟩ := Nat.exists_eq_add_of_lt hfuel
    rw [canonPathLoop]
    exact if_pos rfl
  | cons c pieces ih =>
    obtain ⟨fuel, rfl⟩ : ∃ n, fuel = n + 1 := Nat.exists_eq_add_one.mpr (Nat.zero_lt_of_lt hfuel)
    obtain ⟨⟨hne, hslash⟩, hpieces⟩ := List.forall_mem_cons.mp hpieces
    have hlen : pieces.length < fuel := Nat.lt_of_succ_lt_succ hfuel
    rw [join_cons, canonPathLoop_cons hne hslash (atBoundary_join pieces), List.foldl_cons, resolve]
    split_ifs with hdot hdotdot
    · exact ih hcs hpieces hlen
    · rcases List.eq_nil_or_concat cs with rfl | ⟨ds, d, rfl⟩
      · rw [join_nil, List.take_nil]
        exact ih hcs hpieces hlen
      · rw [List.concat_eq_append] at hcs ⊢
        have hd : slash ∉ d := hcs d (List.mem_append_right ds List.mem_cons_self)
        have hds : Separable slash ds := fun e he => hcs e (List.mem_append_left _ he)
        have htext : join slash (ds ++ [d]) = join slash ds ++ slash :: d := by
          rw [join_append, join_cons, join_nil, List.append_nil]
        rw [htext, rfind_append_cons _ hd, Option.getD_some, List.take_left, List.dropLast_concat]
        exact ih hds hpieces hlen
    · have hsep : Separable slash (cs ++ [c]) := by
        intro e he
        rcases List.mem_append.mp he with he | he
        · exact hcs e he
        · rwa [List.mem_singleton.mp he]
      have htext : join slash cs ++ slash :: c = join slash (cs ++ [c]) := by
        rw [join_append, join_cons, join_nil, List.append_nil]
      rw [htext]
      exact ih hsep hpieces hlen

theorem foldl_resolve_valid {ds : List Bytes} (hds : Valid ds) (cs : List Bytes) :
    ds.foldl resolve cs = cs ++ ds := by
  induction ds generalizing cs with
  | nil => exact (List.append_nil cs).symm
  | cons d ds ih =>
    obtain ⟨hd, hds⟩ := Valid.cons_iff.mp hds
    rw [List.foldl_cons, resolve, if_neg hd.ne_dot, if_neg hd.ne_dotdot, ih hds,
      List.append_assoc]
    rfl

/-- Each `..` removes one of the last components. -/
theorem foldl_resolve_dotdots (k cs : List Bytes) :
    (dotdots cs.length).foldl resolve (k ++ cs) = k := by
  induction cs using List.reverseRecOn with
  | nil => exact List.append_nil k
  | append_singleton cs c ih =>
    have hstep : resolve (k ++ (cs ++ [c])) (str "..") = k ++ cs := by
      rw [resolve, if_neg (by decide), if_pos rfl, ← List.append_assoc, List.dropLast_concat]
    rw [List.length_append, List.length_singleton, dotdots, List.replicate_succ, List.foldl_cons,
      hstep]
    exact ih

theorem ofRawIn_relText {cs pieces : List Bytes} (hcs : Valid cs) (hne : pieces ≠ [])
    (hpieces : ∀ c ∈ pieces, c ≠ [] ∧ slash ∉ c ∧ (0 : UInt8) ∉ c) :
    CanonPath.ofRawIn (relText pieces) (ofComponents cs) =
      .ok (ofComponents (pieces.foldl resolve cs)) := by
  obtain ⟨c, rest, rfl⟩ := List.exists_cons_of_ne_nil hne
  have hnul : (0 : UInt8) ∉ relText (c :: rest) := by
    intro hin
    have hjoin : (0 : UInt8) ∈ join slash (c :: rest) := List.mem_of_mem_drop hin
    simp only [join, List.mem_flatMap, List.mem_cons] at hjoin
    obtain ⟨d, hd, hzero | hzero⟩ := hjoin
    · exact absurd hzero (by decide)
    · exact (hpieces d (by simpa using hd)).2.2 hzero
  have hhead : (relText (c :: rest)).head? ≠ some slash := by
    obtain ⟨hcne, hslash, -⟩ := hpieces c List.mem_cons_self
    obtain ⟨b, bs, rfl⟩ := List.exists_cons_of_ne_nil hcne
    intro heq
    exact hslash (Option.some.inj heq ▸ List.mem_cons_self)
  have hseparable : ∀ d ∈ c :: rest, d ≠ [] ∧ slash ∉ d := fun d hd =>
    ⟨(hpieces d hd).1, (hpieces d hd).2.1⟩
  have hall : ∀ d ∈ cs ++ c :: rest, d ≠ [] ∧ slash ∉ d := by
    intro d hd
    rcases List.mem_append.mp hd with hd | hd
    · exact ⟨(hcs d hd).ne_nil, (hcs d hd).no_slash⟩
    · exact hseparable d hd
  have hsplit : slash :: relText (c :: rest) = join slash (c :: rest) := by
    rw [relText_cons, join_cons]
  have hfold : (cs ++ c :: rest).foldl resolve [] = (c :: rest).foldl resolve cs := by
    rw [List.foldl_append, foldl_resolve_valid hcs, List.nil_append]
  have hinner : canonPathInner ((ofComponents cs).path ++ slash :: relText (c :: rest)) =
      render ((c :: rest).foldl resolve cs) := by
    have hloop : ∀ fuel, (cs ++ c :: rest).length < fuel →
        canonPathLoop fuel (join slash (cs ++ c :: rest)) [] =
          join slash ((c :: rest).foldl resolve cs) := fun fuel hfuel => by
      have h := canonPathLoop_resolve (fun d hd => absurd hd List.not_mem_nil) hall hfuel
      rwa [hfold] at h
    have hlen := length_le_length_join slash (cs ++ c :: rest)
    have htext : canonPathLoop
          (((ofComponents cs).path ++ slash :: relText (c :: rest)).length + 1)
          ((ofComponents cs).path ++ slash :: relText (c :: rest)) [] =
        join slash ((c :: rest).foldl resolve cs) := by
      rw [hsplit, ofComponents]
      rcases eq_or_ne cs [] with rfl | hcsne
      · -- the root's own slash stands in front
        show canonPathLoop _ (slash :: join slash (c :: rest)) [] = _
        rw [canonPathLoop_slash]
        refine hloop _ ?_
        rw [List.nil_append] at hlen ⊢
        simp only [render, if_true, List.length_append, List.length_singleton]
        omega
      · rw [render_of_ne_nil hcsne, ← join_append]
        exact hloop _ (Nat.lt_succ_of_le hlen)
    rw [canonPathInner, htext]
    rcases eq_or_ne ((c :: rest).foldl resolve cs) [] with hnil | hnil
    · rw [hnil]
      rfl
    · rw [if_neg (join_ne_nil hnil), render_of_ne_nil hnil]
  rw [CanonPath.ofRawIn, (ensureNoNullBytes_eq_ok (u := ())).mpr hnul, if_neg hhead, hinner]
  rfl

/-- A relative path leads back, and so does what a removed prefix leaves. -/
theorem makeRelative_removePrefix {p q : CanonPath} (hp : p.Canonical) (hq : q.Canonical) :
    CanonPath.ofRawIn (p.makeRelative q) p = .ok q ∧
      (q.isWithin p = true → ∃ r, q.removePrefix p = .ok r ∧ p.concat r = q) := by
  obtain ⟨cs, hcs, rfl⟩ := canonical_iff.mp hp
  obtain ⟨ds, hds, rfl⟩ := canonical_iff.mp hq
  constructor
  · obtain ⟨k, cs', ds', rfl, rfl, hrelative⟩ := makeRelative_ofComponents hcs hds
    rw [hrelative]
    split_ifs with hnil
    · obtain ⟨rfl, rfl⟩ := hnil
      have hdot : str "." = relText [str "."] := (List.append_nil _).symm
      rw [hdot, ofRawIn_relText hcs (List.cons_ne_nil _ _)]
      · rfl
      · intro c hc
        rw [List.mem_singleton.mp hc]
        decide
    · have hne : dotdots cs'.length ++ ds' ≠ [] := by
        intro h
        obtain ⟨hdots, hds'⟩ := List.append_eq_nil_iff.mp h
        refine hnil ⟨List.length_eq_zero_iff.mp ?_, hds'⟩
        simpa [dotdots] using hdots
      have hds' := (Valid.append_iff.mp hds).2
      rw [ofRawIn_relText hcs hne, List.foldl_append, foldl_resolve_dotdots,
        foldl_resolve_valid hds']
      intro c hc
      rcases List.mem_append.mp hc with hc | hc
      · rw [List.eq_of_mem_replicate hc]
        decide
      · exact ⟨(hds' c hc).ne_nil, (hds' c hc).no_slash, (hds' c hc).no_nul⟩
  · intro hwithin
    obtain ⟨es, rfl⟩ := (within_ofComponents hds hcs).mp
      ((isWithin_iff (canonical_iff.mpr ⟨ds, hds, rfl⟩)
        (canonical_iff.mpr ⟨cs, hcs, rfl⟩)).mp hwithin)
    have hes := (Valid.append_iff.mp hds).2
    refine ⟨ofComponents es, ?_, extend_ofComponents hcs hes⟩
    rw [CanonPath.removePrefix, hwithin, if_neg (by simp)]
    split_ifs with hroot hlen
    · rw [(isRoot_ofComponents hcs).mp hroot]
      rfl
    · -- nothing is left
      have hne : cs ≠ [] := fun h => hroot ((isRoot_ofComponents hcs).mpr h)
      rw [ofComponents, ofComponents, render_of_ne_nil (List.append_ne_nil_of_left_ne_nil hne _),
        render_of_ne_nil hne, join_append, List.length_append] at hlen
      have hnil : join slash es = [] := List.eq_nil_of_length_eq_zero (Nat.add_eq_left.mp hlen)
      obtain rfl : es = [] := by_contra fun h => join_ne_nil h hnil
      rfl
    · have hne : cs ≠ [] := fun h => hroot ((isRoot_ofComponents hcs).mpr h)
      have hesne : es ≠ [] := by
        rintro rfl
        exact hlen (by rw [List.append_nil])
      rw [ofComponents, ofComponents, ofComponents, render_of_ne_nil hesne, render_of_ne_nil hne,
        render_of_ne_nil (List.append_ne_nil_of_left_ne_nil hne _), join_append, List.drop_left]

theorem makeRelative_removePrefix_nested :
    CanonPath.ofRawIn (CanonPath.makeRelative ⟨str "/a/b"⟩ ⟨str "/a/b/c"⟩) ⟨str "/a/b"⟩ =
        .ok ⟨str "/a/b/c"⟩ ∧
      ∃ r, CanonPath.removePrefix ⟨str "/a/b/c"⟩ ⟨str "/a/b"⟩ = .ok r ∧
        CanonPath.concat ⟨str "/a/b"⟩ r = ⟨str "/a/b/c"⟩ :=
  have hp : (⟨str "/a/b"⟩ : CanonPath).Canonical := ⟨[str "a", str "b"], by decide, by decide⟩
  have hq : (⟨str "/a/b/c"⟩ : CanonPath).Canonical :=
    ⟨[str "a", str "b", str "c"], by decide, by decide⟩
  have h := makeRelative_removePrefix hp hq
  ⟨h.1, h.2 (by decide)⟩

end Nix.Util.CanonPaths
