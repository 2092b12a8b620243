import Nix.Lib.Results
import Nix.Util.CanonPathComponents

/-!
The constructors and operations of `CanonPath`, and what keeps its representation canonical.
-/

set_option linter.dupNamespace false

namespace Nix.Util.CanonPaths

open Util.Types Util.CanonPathComponents Lib.Delimited Lib.Results

namespace CanonPath

/-- `CanonPath(std::string_view)`. -/
def ofRaw (raw : Bytes) : Except Error CanonPath := do
  ensureNoNullBytes raw
  return ⟨canonPathInner (slash :: raw)⟩

/-- `CanonPath(const char *)`, of the characters before the first NUL. -/
def ofCString (raw : Bytes) : CanonPath :=
  ⟨canonPathInner (slash :: raw.takeWhile (· ≠ 0))⟩

/-- `CanonPath(std::string_view, const CanonPath & root)`. -/
def ofRawIn (raw : Bytes) (root : CanonPath) : Except Error CanonPath := do
  ensureNoNullBytes raw
  return ⟨canonPathInner (if raw.head? = some slash then raw else root.path ++ slash :: raw)⟩

/-- `CanonPath(const std::vector<std::string> &)`. -/
def ofElems (elems : List Bytes) : Except Error CanonPath :=
  elems.foldlM push root

def rel (p : CanonPath) : Bytes := p.path.drop 1

/-- The number of steps of an iterator on the remaining text. -/
def distance (remaining : Bytes) : Nat :=
  if _h : remaining = [] then 0
  else distance ((remaining.dropWhile (· ≠ slash)).drop 1) + 1
termination_by remaining.length
decreasing_by
  have hle := List.length_dropWhile_le (· ≠ slash) remaining
  have hpos := List.length_pos_of_ne_nil _h
  rw [List.length_drop]
  omega

def fromFilename (segment : Bytes) : Except Error CanonPath := do
  let res ← ofRaw segment
  if segment ≠ rel res ∨ distance (rel res) ≠ 1 then
    throw ⟨.badCanonPath, ⟨"invalid filename '%s'", [segment]⟩⟩
  return res

def parent (p : CanonPath) : Option CanonPath :=
  if p.isRoot then none
  else some ⟨p.path.take (max 1 ((rfind slash p.path).getD p.path.length))⟩

def extend (p x : CanonPath) : CanonPath :=
  if x.isRoot then p
  else if p.isRoot then ⟨p.path ++ rel x⟩
  else ⟨p.path ++ x.path⟩

/-- `operator/(const CanonPath &)`, which extends a copy. -/
def concat (p x : CanonPath) : CanonPath := extend p x

/-- `operator/(std::string_view)`, which pushes onto a copy. -/
def concatName (p : CanonPath) (c : Bytes) : Except Error CanonPath := p.push c

end CanonPath

/-- The paths that calls can make, with pushes that are allowed. -/
inductive Obtainable (allowed : CanonPath → Bytes → Prop) : CanonPath → Prop
  | ofRaw {raw p} (h : CanonPath.ofRaw raw = .ok p) : Obtainable allowed p
  | ofCString (raw : Bytes) : Obtainable allowed (CanonPath.ofCString raw)
  | ofRawIn {raw root p} (hroot : Obtainable allowed root)
      (h : CanonPath.ofRawIn raw root = .ok p) : Obtainable allowed p
  | ofElems {elems p} (h : CanonPath.ofElems elems = .ok p)
      (hall : ∀ before c after q, elems = before ++ c :: after →
        CanonPath.ofElems before = .ok q → allowed q c) : Obtainable allowed p
  | fromFilename {segment p} (h : CanonPath.fromFilename segment = .ok p) : Obtainable allowed p
  | push {p c q} (hp : Obtainable allowed p) (h : p.push c = .ok q)
      (hc : allowed p c) : Obtainable allowed q
  | concatName {p c q} (hp : Obtainable allowed p) (h : p.concatName c = .ok q)
      (hc : allowed p c) : Obtainable allowed q
  | pop {p q} (hp : Obtainable allowed p) (h : p.pop = .ok q) : Obtainable allowed q
  | extend {p x} (hp : Obtainable allowed p) (hx : Obtainable allowed x) :
      Obtainable allowed (p.extend x)
  | concat {p x} (hp : Obtainable allowed p) (hx : Obtainable allowed x) :
      Obtainable allowed (p.concat x)
  | parent {p q} (hp : Obtainable allowed p) (h : p.parent = some q) :
      Obtainable allowed q

def NotEmptyPush (p : CanonPath) (c : Bytes) : Prop :=
  c ≠ [] ∨ p.isRoot = true

theorem takeWhile_notMem_slash (s : Bytes) : slash ∉ s.takeWhile (· ≠ slash) := by
  intro hin
  have hne := List.mem_takeWhile_imp hin
  exact of_decide_eq_true hne rfl

theorem exists_valid_canonPathLoop {fuel : Nat} {remaining : Bytes} {cs : List Bytes}
    (hcs : Valid cs) (hnul : (0 : UInt8) ∉ remaining) :
    ∃ ds, Valid ds ∧
      canonPathLoop fuel remaining (join slash cs) =
        join slash ds := by
  induction fuel generalizing remaining cs with
  | zero => exact ⟨cs, hcs, rfl⟩
  | succ fuel ih =>
    rw [canonPathLoop]
    dsimp only
    have hsub : ∀ b ∈ remaining.dropWhile (· = slash), b ∈ remaining := fun b hb =>
      (List.dropWhile_suffix _).subset hb
    have hnul' : ∀ n, (0 : UInt8) ∉ (remaining.dropWhile (· = slash)).drop n := fun n hin =>
      hnul (hsub 0 (List.mem_of_mem_drop hin))
    split_ifs with hempty hdot hdotdot
    · exact ⟨cs, hcs, rfl⟩
    · exact ih hcs (hnul' 1)
    · -- the last component is erased
      rcases List.eq_nil_or_concat cs with rfl | ⟨ds, c, rfl⟩
      · rw [join_nil, List.take_nil]
        exact ih hcs (hnul' 2)
      · rw [List.concat_eq_append] at hcs ⊢
        obtain ⟨hds, hc⟩ := Valid.append_iff.mp hcs
        have hslash := (hc c List.mem_cons_self).no_slash
        have htext : join slash (ds ++ [c]) =
            join slash ds ++ slash :: c := by
          rw [join_append, join_cons, join_nil, List.append_nil]
        rw [htext, rfind_append_cons _ hslash, Option.getD_some, List.take_left]
        exact ih hds (hnul' 2)
    · -- the component is copied
      obtain ⟨b, rest, hrest⟩ := List.exists_cons_of_ne_nil hempty
      have hb : b ≠ slash := by
        have hhead := List.dropWhile_get_zero_not (· = slash) remaining
          (by rw [hrest]; exact Nat.succ_pos _)
        intro heq
        apply hhead
        simp [hrest, heq]
      have hcomponent : ValidComponent
          ((remaining.dropWhile (· = slash)).takeWhile (· ≠ slash)) := by
        refine ⟨?_, hdot, hdotdot, takeWhile_notMem_slash _, fun hin => ?_⟩
        · rw [hrest, List.takeWhile_cons_of_pos (by simpa using hb)]
          exact List.cons_ne_nil _ _
        · exact hnul (hsub 0 ((List.takeWhile_prefix _).subset hin))
      have hvalid : Valid
          (cs ++ [(remaining.dropWhile (· = slash)).takeWhile (· ≠ slash)]) :=
        Valid.append_iff.mpr ⟨hcs, by simpa [Valid] using hcomponent⟩
      have htext : join slash cs ++
          slash :: (remaining.dropWhile (· = slash)).takeWhile (· ≠ slash) =
            join slash
              (cs ++ [(remaining.dropWhile (· = slash)).takeWhile (· ≠ slash)]) := by
        rw [join_append, join_cons, join_nil, List.append_nil]
      rw [htext]
      exact ih hvalid (hnul' _)

theorem canonical_canonPathInner {remaining : Bytes} (h : (0 : UInt8) ∉ remaining) :
    (⟨canonPathInner remaining⟩ : CanonPath).Canonical := by
  have hnil : Valid [] := fun c hc => absurd hc List.not_mem_nil
  obtain ⟨ds, hds, hloop⟩ := @exists_valid_canonPathLoop (remaining.length + 1) remaining [] hnil h
  refine ⟨ds, hds, ?_⟩
  rw [join_nil] at hloop
  show canonPathInner remaining = render ds
  rw [canonPathInner, hloop]
  rcases eq_or_ne ds [] with rfl | hne
  · rfl
  · rw [if_neg (join_ne_nil hne), render_of_ne_nil hne]

theorem ensureNoNullBytes_eq_ok {s : Bytes} {u : Unit} :
    CanonPath.ensureNoNullBytes s = .ok u ↔ (0 : UInt8) ∉ s := by
  rw [CanonPath.ensureNoNullBytes]
  split
  next h => exact ⟨fun heq => (nomatch heq), fun hno => absurd h hno⟩
  next h => exact ⟨fun _ => h, fun _ => rfl⟩

theorem exists_push (path : CanonPath) {c : Bytes} (hc : ValidComponent c) :
    ∃ p, path.push c = .ok p := by
  have hdots : ¬(c = str "." ∨ c = str "..") := not_or.mpr ⟨hc.ne_dot, hc.ne_dotdot⟩
  have hnul : CanonPath.ensureNoNullBytes c = .ok () := ensureNoNullBytes_eq_ok.mpr hc.no_nul
  rw [CanonPath.push, if_neg hc.no_slash, if_neg hdots, hnul]
  exact ⟨_, rfl⟩

theorem CanonPath.Canonical.nul_notMem {p : CanonPath} (h : p.Canonical) : (0 : UInt8) ∉ p.path := by
  obtain ⟨cs, hcs, hp⟩ := h
  rw [hp]
  exact nul_notMem_render hcs

theorem canonical_of_ofRaw {raw : Bytes} {p : CanonPath} (h : CanonPath.ofRaw raw = .ok p) :
    p.Canonical := by
  obtain ⟨_, hnul, hp⟩ := bind_eq_ok.mp h
  obtain rfl := pure_eq_ok.mp hp
  refine canonical_canonPathInner ?_
  rw [List.mem_cons, not_or]
  exact ⟨by decide, ensureNoNullBytes_eq_ok.mp hnul⟩

theorem canonical_ofCString (raw : Bytes) : (CanonPath.ofCString raw).Canonical := by
  refine canonical_canonPathInner ?_
  rw [List.mem_cons, not_or]
  refine ⟨by decide, fun hin => ?_⟩
  have hne := List.mem_takeWhile_imp hin
  exact of_decide_eq_true hne rfl

theorem canonical_of_ofRawIn {raw : Bytes} {root p : CanonPath} (hroot : root.Canonical)
    (h : CanonPath.ofRawIn raw root = .ok p) : p.Canonical := by
  obtain ⟨_, hok, hp⟩ := bind_eq_ok.mp h
  obtain rfl := pure_eq_ok.mp hp
  have hnul := ensureNoNullBytes_eq_ok.mp hok
  refine canonical_canonPathInner ?_
  split
  next => exact hnul
  next =>
    rw [List.mem_append, List.mem_cons, not_or, not_or]
    exact ⟨hroot.nul_notMem, by decide, hnul⟩

theorem canonical_of_fromFilename {segment : Bytes} {p : CanonPath}
    (h : CanonPath.fromFilename segment = .ok p) : p.Canonical := by
  obtain ⟨res, hres, hrest⟩ := bind_eq_ok.mp h
  split_ifs at hrest
  · cases hrest
  · obtain rfl := pure_eq_ok.mp hrest
    exact canonical_of_ofRaw hres

theorem push_eq_ok {p q : CanonPath} {c : Bytes} (h : p.push c = .ok q) :
    slash ∉ c ∧ c ≠ str "." ∧ c ≠ str ".." ∧ (0 : UInt8) ∉ c ∧
      q.path = (if p.isRoot then p.path else p.path ++ [slash]) ++ c := by
  rw [CanonPath.push] at h
  split at h
  next => cases h
  next hslash =>
    split at h
    next => cases h
    next hdots =>
      obtain ⟨_, hnul, hq⟩ := bind_eq_ok.mp h
      obtain rfl := pure_eq_ok.mp hq
      obtain ⟨hdot, hdotdot⟩ := not_or.mp hdots
      exact ⟨hslash, hdot, hdotdot, ensureNoNullBytes_eq_ok.mp hnul, rfl⟩

theorem canonical_push_iff {p q : CanonPath} {c : Bytes} (hp : p.Canonical)
    (h : p.push c = .ok q) : q.Canonical ↔ NotEmptyPush p c := by
  obtain ⟨hslash, hdot, hdotdot, hnul, hq⟩ := push_eq_ok h
  obtain ⟨cs, hcs, rfl⟩ := canonical_iff.mp hp
  have hroot := isRoot_ofComponents hcs
  rcases eq_or_ne cs [] with rfl | hne
  · refine iff_of_true ?_ (.inr (hroot.mpr rfl))
    rw [if_pos (hroot.mpr rfl)] at hq
    rcases eq_or_ne c [] with rfl | hc
    · exact ⟨[], hcs, hq⟩
    · refine ⟨[c], by simpa [Valid] using ⟨hc, hdot, hdotdot, hslash, hnul⟩, hq.trans ?_⟩
      rw [render_of_ne_nil (List.cons_ne_nil _ _), join_cons, join_nil, List.append_nil]
      rfl
  · have hnot : ¬(ofComponents cs).isRoot = true := fun hr => hne (hroot.mp hr)
    have htext : q.path = join slash (cs ++ [c]) := by
      rw [hq, if_neg hnot, ofComponents, render_of_ne_nil hne, join_append, join_cons, join_nil,
        List.append_nil, List.append_assoc]
      rfl
    constructor
    · rintro ⟨ds, hvalid, hrender⟩
      have hds : Valid ds := hvalid
      refine .inl ?_
      rintro rfl
      have hsep : Separable slash (cs ++ [[]]) := by
        intro d hd
        rcases List.mem_append.mp hd with hd | hd
        · exact (hcs d hd).no_slash
        · rw [List.mem_singleton.mp hd]
          exact List.not_mem_nil
      have hdne : ds ≠ [] := by
        rintro rfl
        obtain ⟨b, bs, rfl⟩ := List.exists_cons_of_ne_nil hne
        have hlen := congrArg List.length (htext.symm.trans hrender)
        rw [List.cons_append, join_cons, render] at hlen
        have hb := List.length_pos_of_ne_nil (Valid.cons_iff.mp hcs).1.ne_nil
        simp only [List.length_cons, List.length_append, if_true, List.length_nil] at hlen
        omega
      rw [htext, render_of_ne_nil hdne] at hrender
      have hin : [] ∈ ds := by
        rw [← join_injective hsep hds.separable hrender]
        exact List.mem_append_right _ List.mem_cons_self
      exact (hds [] hin).ne_nil rfl
    · rintro (hc | hr)
      · refine ⟨cs ++ [c], Valid.append_iff.mpr ⟨hcs, ?_⟩, ?_⟩
        · simpa [Valid] using ⟨hc, hdot, hdotdot, hslash, hnul⟩
        · rw [htext, render_of_ne_nil (by simp)]
      · exact absurd hr hnot

theorem canonical_of_foldlM_push {elems : List Bytes} {p q : CanonPath} (hp : p.Canonical)
    (h : elems.foldlM CanonPath.push p = .ok q)
    (hall : ∀ before c after r, elems = before ++ c :: after →
      before.foldlM CanonPath.push p = .ok r → NotEmptyPush r c) : q.Canonical := by
  induction elems generalizing p with
  | nil =>
    cases h
    exact hp
  | cons c elems ih =>
    rw [List.foldlM_cons] at h
    obtain ⟨r, hpush, hrest⟩ := bind_eq_ok.mp h
    refine ih ((canonical_push_iff hp hpush).mpr (hall [] c elems p rfl rfl)) hrest ?_
    rintro before d after r' rfl hrun
    refine hall (c :: before) d after r' rfl ?_
    rw [List.foldlM_cons]
    exact bind_eq_ok.mpr ⟨r, hpush, hrun⟩

theorem canonical_of_pop {p q : CanonPath} (hp : p.Canonical) (h : p.pop = .ok q) :
    q.Canonical := by
  obtain ⟨cs, hcs, rfl⟩ := canonical_iff.mp hp
  rcases List.eq_nil_or_concat cs with rfl | ⟨ds, c, rfl⟩
  · cases h
  · rw [List.concat_eq_append] at hcs h
    rw [pop_ofComponents hcs] at h
    cases h
    exact ⟨ds, (Valid.append_iff.mp hcs).1, rfl⟩

theorem canonical_of_parent {p q : CanonPath} (hp : p.Canonical) (h : p.parent = some q) :
    q.Canonical := by
  refine canonical_of_pop hp ?_
  rw [CanonPath.parent] at h
  split_ifs at h with hroot
  rw [CanonPath.pop, if_neg hroot]
  obtain ⟨cs, hcs, rfl⟩ := canonical_iff.mp hp
  rcases List.eq_nil_or_concat cs with rfl | ⟨ds, c, rfl⟩
  · exact absurd rfl hroot
  · rw [List.concat_eq_append] at hcs h ⊢
    have hslash := (Valid.append_iff.mp hcs).2 c List.mem_cons_self
    have hfind : rfind slash (ofComponents (ds ++ [c])).path = some (join slash ds).length := by
      rw [ofComponents, render_of_ne_nil (by simp), join_append, join_cons, join_nil,
        List.append_nil, rfind_append_cons _ hslash.no_slash]
    rw [hfind] at h ⊢
    exact congrArg Except.ok (Option.some.inj h)

theorem extend_ofComponents {cs ds : List Bytes} (hcs : Valid cs) (hds : Valid ds) :
    (ofComponents cs).extend (ofComponents ds) = ofComponents (cs ++ ds) := by
  rw [CanonPath.extend]
  split_ifs with hxroot hproot
  · rw [(isRoot_ofComponents hds).mp hxroot, List.append_nil]
  · obtain rfl := (isRoot_ofComponents hcs).mp hproot
    have hne : ds ≠ [] := fun hnil => hxroot ((isRoot_ofComponents hds).mpr hnil)
    obtain ⟨d, ds, rfl⟩ := List.exists_cons_of_ne_nil hne
    rw [CanonPath.rel, ofComponents, ofComponents, render_of_ne_nil hne, join_cons]
    rfl
  · have hne : ds ≠ [] := fun hnil => hxroot ((isRoot_ofComponents hds).mpr hnil)
    have hcne : cs ≠ [] := fun hnil => hproot ((isRoot_ofComponents hcs).mpr hnil)
    rw [ofComponents, ofComponents, ofComponents, render_of_ne_nil hne, render_of_ne_nil hcne,
      render_of_ne_nil (by simp [hne]), join_append]

theorem canonical_extend {p x : CanonPath} (hp : p.Canonical) (hx : x.Canonical) :
    (p.extend x).Canonical := by
  obtain ⟨cs, hcs, rfl⟩ := canonical_iff.mp hp
  obtain ⟨ds, hds, rfl⟩ := canonical_iff.mp hx
  rw [extend_ofComponents hcs hds]
  exact canonical_iff.mpr ⟨cs ++ ds, Valid.append_iff.mpr ⟨hcs, hds⟩, rfl⟩

/-- A path that is made without a push of an empty component is canonical. -/
theorem canonical_of_obtainable {p : CanonPath} (h : Obtainable NotEmptyPush p) :
    p.Canonical := by
  induction h with
  | ofRaw h => exact canonical_of_ofRaw h
  | ofCString raw => exact canonical_ofCString raw
  | ofRawIn _ h ih => exact canonical_of_ofRawIn ih h
  | ofElems h hall =>
    have hroot : CanonPath.root.Canonical := ⟨[], fun c hc => absurd hc List.not_mem_nil, rfl⟩
    exact canonical_of_foldlM_push hroot h hall
  | fromFilename h => exact canonical_of_fromFilename h
  | push _ h hc ih => exact (canonical_push_iff ih h).mpr hc
  | concatName _ h hc ih => exact (canonical_push_iff ih h).mpr hc
  | pop _ h ih => exact canonical_of_pop ih h
  | extend _ _ ihp ihx => exact canonical_extend ihp ihx
  | concat _ _ ihp ihx => exact canonical_extend ihp ihx
  | parent _ h ih => exact canonical_of_parent ih h

theorem canonical_of_obtainable_pushed :
    (⟨str "/a/b"⟩ : CanonPath).Canonical :=
  have hraw : CanonPath.ofRaw (str "./a//") = .ok ⟨str "/a"⟩ := by decide
  have hpush : CanonPath.push ⟨str "/a"⟩ (str "b") = .ok ⟨str "/a/b"⟩ := by decide
  canonical_of_obtainable (.push (.ofRaw hraw) hpush (.inl (by decide)))

/-- A push of an empty component leaves a slash at the end. -/
theorem not_canonical_of_obtainable :
    Obtainable (fun _ _ => True) ⟨str "/a/"⟩ ∧ ¬(⟨str "/a/"⟩ : CanonPath).Canonical := by
  have hraw : CanonPath.ofRaw (str "a") = .ok ⟨str "/a"⟩ := by decide
  have hpush : CanonPath.push ⟨str "/a"⟩ [] = .ok ⟨str "/a/"⟩ := by decide
  refine ⟨.push (.ofRaw hraw) hpush trivial, fun hcanonical => ?_⟩
  rcases (canonical_push_iff (canonical_of_ofRaw hraw) hpush).mp hcanonical with hne | hroot
  · exact hne rfl
  · exact absurd hroot (by decide)

end Nix.Util.CanonPaths
