import Nix.Store.DerivationChecks

/-!
What `checkOutputs` accepts, by the closures of the outputs.
-/

set_option linter.dupNamespace false

namespace Nix.Store.DerivationChecks

open Util.Types Lib.BreadthFirst Lib.Decisions Lib.SortedList Store.Path Store.PathInfo
  Store.DerivationOutputs

section Closures

variable (store : StoreInfos) (byPath : InfosByPath)

def referencesOf (path : StorePath) : List StorePath :=
  match infoOf store byPath path with
  | .ok info => info.references.elems
  | .error _ => []

def narSizeOf (path : StorePath) : Nat :=
  match infoOf store byPath path with
  | .ok info => info.narSize.toNat
  | .error _ => 0

/-- The paths that a path leads to over references, and itself. -/
def IsClosure (path : StorePath) (closure : StorePathSet) : Prop :=
  ∀ q, q ∈ closure ↔ Reaches (referencesOf store byPath) [path] q

def totalSize (closure : StorePathSet) : Nat :=
  (closure.elems.map (narSizeOf store byPath)).sum

/-- What is done and left of a closure. -/
structure Gathers (path : StorePath) (done : StorePathSet) (pathsLeft : List StorePath) : Prop where
  reaches : ∀ q, q ∈ done ∨ q ∈ pathsLeft → Reaches (referencesOf store byPath) [path] q
  covers : ∀ q ∈ done, ∀ r ∈ referencesOf store byPath q, r ∈ done ∨ r ∈ pathsLeft
  start : path ∈ done ∨ path ∈ pathsLeft

variable {store byPath} {path : StorePath} {done : StorePathSet}

theorem Gathers.isClosure (h : Gathers store byPath path done []) :
    IsClosure store byPath path done := by
  have hdone : ∀ q, q ∈ done ∨ q ∈ [] → q ∈ done := fun q hq => hq.resolve_right List.not_mem_nil
  refine fun q => ⟨fun hq => h.reaches q (.inl hq), fun hq => ?_⟩
  induction hq with
  | start hstart =>
    obtain rfl := List.mem_singleton.mp hstart
    exact hdone _ h.start
  | next _ hnext ih => exact hdone _ (h.covers _ ih _ hnext)

theorem Gathers.skip {p : StorePath} {pathsLeft : List StorePath}
    (h : Gathers store byPath path done (p :: pathsLeft)) (hp : p ∈ done) :
    Gathers store byPath path done pathsLeft := by
  have hleft : ∀ q, q ∈ done ∨ q ∈ p :: pathsLeft → q ∈ done ∨ q ∈ pathsLeft := by
    rintro q (hq | hq)
    · exact .inl hq
    · rcases List.mem_cons.mp hq with rfl | hq
      · exact .inl hp
      · exact .inr hq
  exact ⟨fun q hq => h.reaches q (hq.imp_right (List.mem_cons_of_mem p)),
    fun q hq r hr => hleft r (h.covers q hq r hr), hleft path h.start⟩

theorem Gathers.visit {p : StorePath} {pathsLeft : List StorePath} {info : ValidPathInfo}
    (h : Gathers store byPath path done (p :: pathsLeft))
    (hinfo : infoOf store byPath p = .ok info) :
    Gathers store byPath path (done.insert p) (pathsLeft ++ info.references.elems) := by
  have hrefs : referencesOf store byPath p = info.references.elems := by rw [referencesOf, hinfo]
  have hp := h.reaches p (.inr List.mem_cons_self)
  have hleft : ∀ q, q ∈ done ∨ q ∈ p :: pathsLeft →
      q ∈ done.insert p ∨ q ∈ pathsLeft ++ info.references.elems := by
    rintro q (hq | hq)
    · exact .inl (SortedSet.mem_insert.mpr (.inr hq))
    · rcases List.mem_cons.mp hq with rfl | hq
      · exact .inl (SortedSet.mem_insert.mpr (.inl rfl))
      · exact .inr (List.mem_append_left _ hq)
  refine ⟨fun q hq => ?_, fun q hq r hr => ?_, hleft path h.start⟩
  · rcases hq with hq | hq
    · rcases SortedSet.mem_insert.mp hq with rfl | hq
      · exact hp
      · exact h.reaches q (.inl hq)
    · rcases List.mem_append.mp hq with hq | hq
      · exact h.reaches q (.inr (List.mem_cons_of_mem p hq))
      · exact .next hp (hrefs ▸ hq)
  · rcases SortedSet.mem_insert.mp hq with rfl | hq
    · exact .inr (List.mem_append_right _ (hrefs ▸ hr))
    · exact hleft r (h.covers q hq r hr)

theorem totalSize_insert {p : StorePath} (hp : p ∉ done) :
    totalSize store byPath (done.insert p) =
      totalSize store byPath done + narSizeOf store byPath p := by
  have hperm := (SortedSet.perm_insert hp).map (narSizeOf store byPath)
  rw [totalSize, hperm.sum_nat, List.map_cons, List.sum_cons, Nat.add_comm]
  rfl

theorem closureLoop_spec
    (hknown : ∀ q, Reaches (referencesOf store byPath) [path] q →
      ∃ info, infoOf store byPath q = .ok info)
    (size : UInt64) (pathsLeft : List StorePath) (h : Gathers store byPath path done pathsLeft)
    (hsize : size = UInt64.ofNat (totalSize store byPath done)) :
    ∃ closure, closureLoop store byPath done size pathsLeft =
        .ok (closure, UInt64.ofNat (totalSize store byPath closure)) ∧
      IsClosure store byPath path closure := by
  induction done, size, pathsLeft using closureLoop.induct store byPath with
  | case1 done size =>
    rw [closureLoop, hsize]
    exact ⟨done, rfl, h.isClosure⟩
  | case2 done size p pathsLeft hp ih =>
    rw [closureLoop, dif_pos hp]
    exact ih (h.skip hp) hsize
  | case3 done size p pathsLeft hp e herror =>
    obtain ⟨info, hinfo⟩ := hknown p (h.reaches p (.inr List.mem_cons_self))
    cases hinfo.symm.trans herror
  | case4 done size p pathsLeft hp info hinfo ih =>
    have hnext : size + info.narSize =
        UInt64.ofNat (totalSize store byPath (done.insert p)) := by
      rw [totalSize_insert hp, narSizeOf, hinfo, hsize]
      simp
    obtain ⟨closure, hloop, hclosure⟩ := ih (h.visit hinfo) hnext
    refine ⟨closure, ?_, hclosure⟩
    rw [closureLoop, dif_neg hp]
    split
    next e herror => cases hinfo.symm.trans herror
    next info' hinfo' =>
      cases hinfo.symm.trans hinfo'
      exact hloop

end Closures

section Specification

variable (store : StoreInfos) (outputs : OutputInfos)

def refPath : DrvRef → Option StorePath
  | .path path => some path
  | .outputName n => (outputs.find? n).map ValidPathInfo.path

def Named (refs : DrvRefs) : Prop :=
  ∀ ref ∈ refs, ∃ q, refPath outputs ref = some q

def Denotes (refs : DrvRefs) (q : StorePath) : Prop :=
  ∃ ref ∈ refs, refPath outputs ref = some q

def Requisite (checks : OutputChecks) (info : ValidPathInfo) (closure : StorePathSet)
    (q : StorePath) : Prop :=
  q ∈ closure ∧ ¬(checks.ignoreSelfRefs = true ∧ q = info.path)

/-- The checks of an output with a closure hold. The size of the closure is measured. -/
structure ChecksHold (measure : Nat → Nat) (info : ValidPathInfo) (closure : StorePathSet)
    (checks : OutputChecks) : Prop where
  maxSize : ∀ m, checks.maxSize = some m → info.narSize ≤ m
  maxClosureSize : ∀ m, checks.maxClosureSize = some m →
    measure (totalSize store (outputsByPath outputs) closure) ≤ m.toNat
  allowedReferences : ∀ refs, checks.allowedReferences = some refs →
    Named outputs refs ∧ ∀ q ∈ info.references, Denotes outputs refs q
  allowedRequisites : ∀ refs, checks.allowedRequisites = some refs →
    Named outputs refs ∧ ∀ q, Requisite checks info closure q → Denotes outputs refs q
  disallowedReferences : Named outputs checks.disallowedReferences ∧
    ∀ q ∈ info.references, ¬Denotes outputs checks.disallowedReferences q
  disallowedRequisites : Named outputs checks.disallowedRequisites ∧
    ∀ q, Requisite checks info closure q → ¬Denotes outputs checks.disallowedRequisites q

/-- A fixed output has the wanted hash and no references. -/
def FixedAsWanted (outputSpec : DerivationOutput) (info : ValidPathInfo) : Prop :=
  ∀ wanted, outputSpec = .caFixed wanted →
    (∃ got, info.ca = some got ∧ wanted.hash = got.hash) ∧ info.references.elems = []

variable (drvOutputs : SortedMap (compare : Bytes → Bytes → Ordering) DerivationOutput)
  (outputChecks : OutputChecksOption)

def Accepted (measure : Nat → Nat) : Prop :=
  ∀ output ∈ outputs.elems,
    (∀ outputSpec, drvOutputs.find? output.1 = some outputSpec →
      FixedAsWanted outputSpec output.2) ∧
    ∃ closure, IsClosure store (outputsByPath outputs) output.2.path closure ∧
      ∀ checks, outputChecks.find? output.1 = some checks →
        ChecksHold store outputs measure output.2 closure checks

/-- What the builder guarantees: the outputs are those of the derivation, the fixed ones with their
content addresses, and the metadata of the store and the outputs is closed. -/
structure Prepared : Prop where
  outputSpec : ∀ output ∈ outputs.elems, ∃ outputSpec, drvOutputs.find? output.1 = some outputSpec ∧
    ∀ wanted, outputSpec = .caFixed wanted → ∃ got, output.2.ca = some got
  outputRefs : ∀ output ∈ outputs.elems, ∀ ref ∈ output.2.references,
    ∃ info, infoOf store (outputsByPath outputs) ref = .ok info
  storeRefs : ∀ entry ∈ store.pathInfos.elems, ∀ ref ∈ entry.2.references,
    ∃ info, infoOf store (outputsByPath outputs) ref = .ok info

end Specification

def IsBuildError : CheckError → Prop
  | .buildError _ _ => True
  | .error _ => False

section Checks

variable {store : StoreInfos} {drvPath : StorePath} {outputs : OutputInfos}

theorem find?_emplace (byPath : InfosByPath) (info : ValidPathInfo) (p : StorePath) :
    (emplace byPath info).find? p =
      (byPath.find? p).or (if info.path = p then some info else none) := by
  rw [emplace]
  split
  next hcontains =>
    rw [SortedMap.contains_eq_isSome] at hcontains
    obtain ⟨info', hfind⟩ := Option.isSome_iff_exists.mp hcontains
    split
    next hpath =>
      rw [← hpath, hfind]
      rfl
    next => exact Option.or_none.symm
  next hcontains =>
    rw [SortedMap.contains_eq_isSome, Bool.not_eq_true, Option.isSome_eq_false_iff,
      Option.isNone_iff_eq_none] at hcontains
    rw [SortedMap.find?_assign]
    split
    next hpath =>
      rw [← hpath, hcontains]
      rfl
    next => exact Option.or_none.symm

theorem find?_outputsByPath (p : StorePath) :
    (outputsByPath outputs).find? p =
      (outputs.elems.find? (·.2.path = p)).map Prod.snd := by
  have hfold : ∀ (l : List (Bytes × ValidPathInfo)) (byPath : InfosByPath),
      (l.foldl (fun byPath output => emplace byPath output.2) byPath).find? p =
        (byPath.find? p).or ((l.find? (·.2.path = p)).map Prod.snd) := by
    intro l
    induction l with
    | nil => exact fun byPath => Option.or_none.symm
    | cons output l ih =>
      intro byPath
      rw [List.foldl_cons, ih, find?_emplace, Option.or_assoc, List.find?_cons]
      by_cases hpath : output.2.path = p
      · simp [hpath]
      · simp [hpath]
  exact hfold outputs.elems .empty

theorem mem_of_find?_outputsByPath {p : StorePath} {info : ValidPathInfo}
    (h : (outputsByPath outputs).find? p = some info) :
    ∃ output ∈ outputs.elems, output.2 = info := by
  rw [find?_outputsByPath] at h
  obtain ⟨output, houtput, heq⟩ := Option.map_eq_some_iff.mp h
  exact ⟨output, List.mem_of_find?_eq_some houtput, heq⟩

theorem exists_find?_outputsByPath {output : Bytes × ValidPathInfo} (h : output ∈ outputs.elems) :
    ∃ info, (outputsByPath outputs).find? output.2.path = some info := by
  rw [find?_outputsByPath]
  have hsome : (outputs.elems.find? (·.2.path = output.2.path)).isSome :=
    List.find?_isSome.mpr ⟨output, h, decide_eq_true rfl⟩
  obtain ⟨first, hfirst⟩ := Option.isSome_iff_exists.mp hsome
  exact ⟨first.2, by rw [hfirst]; rfl⟩

theorem Prepared.getClosure_eq
    {drvOutputs : SortedMap (compare : Bytes → Bytes → Ordering) DerivationOutput}
    (h : Prepared store outputs drvOutputs) {output : Bytes × ValidPathInfo}
    (houtput : output ∈ outputs.elems) :
    ∃ closure, getClosure store outputs output.2.path =
        .ok (closure, UInt64.ofNat (totalSize store (outputsByPath outputs) closure)) ∧
      IsClosure store (outputsByPath outputs) output.2.path closure := by
  refine closureLoop_spec (fun q hq => ?_) 0 [output.2.path] ?_ rfl
  · induction hq with
    | start hstart =>
      obtain rfl := List.mem_singleton.mp hstart
      obtain ⟨info, hfind⟩ := exists_find?_outputsByPath houtput
      exact ⟨info, by rw [infoOf, hfind]⟩
    | @next p q _ hq ih =>
      obtain ⟨info, hinfo⟩ := ih
      rw [referencesOf, hinfo] at hq
      rcases List.mem_append.mp (mem_of_infoOf hinfo) with hin | hin
      · obtain ⟨output', hin', rfl⟩ := mem_of_find?_outputsByPath (SortedMap.find?_eq_some.mpr hin)
        exact h.outputRefs output' hin' q hq
      · exact h.storeRefs _ hin q hq
  · refine ⟨fun q hq => ?_, fun q hq => absurd hq (SortedSet.not_mem_empty q),
      .inr List.mem_cons_self⟩
    exact .start (hq.resolve_left (SortedSet.not_mem_empty q))

theorem decides_checkCAFixedOutput {outputSpec : DerivationOutput} {info : ValidPathInfo}
    (h : ∀ wanted, outputSpec = .caFixed wanted → ∃ got, info.ca = some got) :
    Decides IsBuildError (checkCAFixedOutput store drvPath outputSpec info)
      (FixedAsWanted outputSpec info) := by
  cases outputSpec with
  | caFixed wanted =>
    obtain ⟨got, hgot⟩ := h wanted rfl
    rw [checkCAFixedOutput, hgot]
    have hwanted : FixedAsWanted (.caFixed wanted) info ↔
        ¬wanted.hash ≠ got.hash ∧ info.references.elems = [] := by
      rw [not_not]
      constructor
      · intro hfixed
        obtain ⟨⟨got', hgot', hhash⟩, hrefs⟩ := hfixed wanted rfl
        cases hgot.symm.trans hgot'
        exact ⟨hhash, hrefs⟩
      · rintro ⟨hhash, hrefs⟩ wanted' heq
        cases heq
        exact ⟨⟨got, hgot, hhash⟩, hrefs⟩
    refine Decides.congr ?_ hwanted.symm
    dsimp only
    split
    next hne => exact decides_error trivial fun hno => hno.1 hne
    next hne =>
      cases hrefs : info.references.elems with
      | nil => exact decides_ok ⟨hne, rfl⟩
      | cons ref refs => exact decides_error trivial fun hno => nomatch hno.2
  | _ => exact decides_ok fun wanted heq => nomatch heq

variable (store drvPath outputs) in
theorem parseRef_eq (outputName : Bytes) (spec : StorePathSet) (ref : DrvRef) :
    (∃ q, refPath outputs ref = some q ∧
      parseRef store drvPath outputs outputName spec ref = .ok (spec.insert q)) ∨
    refPath outputs ref = none ∧
      ∃ e, parseRef store drvPath outputs outputName spec ref = .error e ∧ IsBuildError e := by
  cases ref with
  | path path => exact .inl ⟨path, rfl, rfl⟩
  | outputName n =>
    rw [refPath, parseRef]
    cases outputs.find? n with
    | some output => exact .inl ⟨output.path, rfl, rfl⟩
    | none => exact .inr ⟨rfl, _, rfl, trivial⟩

variable (store drvPath outputs) in
theorem foldlM_parseRef (outputName : Bytes) (refs : List DrvRef) (spec : StorePathSet) :
    (∃ spec', refs.foldlM (parseRef store drvPath outputs outputName) spec = .ok spec' ∧
      (∀ ref ∈ refs, ∃ q, refPath outputs ref = some q) ∧
      ∀ q, q ∈ spec' ↔ q ∈ spec ∨ ∃ ref ∈ refs, refPath outputs ref = some q) ∨
    ∃ e, refs.foldlM (parseRef store drvPath outputs outputName) spec = .error e ∧
      IsBuildError e ∧ ¬∀ ref ∈ refs, ∃ q, refPath outputs ref = some q := by
  induction refs generalizing spec with
  | nil => exact .inl ⟨spec, rfl, List.forall_mem_nil _, fun q => by simp⟩
  | cons ref refs ih =>
    rw [List.foldlM_cons]
    rcases parseRef_eq store drvPath outputs outputName spec ref with
      ⟨q, hq, hparse⟩ | ⟨hnone, e, hparse, hbuild⟩
    · rw [hparse]
      rcases ih (spec.insert q) with ⟨spec', hspec, hall, hmem⟩ | ⟨e, he, hbuild, hnot⟩
      · refine .inl ⟨spec', hspec, List.forall_mem_cons.mpr ⟨⟨q, hq⟩, hall⟩, fun q' => ?_⟩
        rw [hmem, SortedSet.mem_insert, List.exists_mem_cons_iff, hq, Option.some.injEq, or_assoc,
          or_left_comm, eq_comm]
      · exact .inr ⟨e, he, hbuild, fun hall => hnot (List.forall_mem_cons.mp hall).2⟩
    · rw [hparse]
      refine .inr ⟨e, rfl, hbuild, fun hall => ?_⟩
      obtain ⟨q, hq⟩ := (List.forall_mem_cons.mp hall).1
      cases hnone.symm.trans hq

theorem decides_checkRefs {outputName : Bytes} {info : ValidPathInfo} {checks : OutputChecks}
    {value : DrvRefs} {allowed recursive : Bool} {closure : StorePathSet} {size : UInt64}
    (hclosure : getClosure store outputs info.path = .ok (closure, size)) :
    Decides IsBuildError
      (checkRefs store drvPath outputs checks outputName info value allowed recursive)
      (Named outputs value ∧ ∀ q,
        (if recursive then Requisite checks info closure q else q ∈ info.references) →
          (Denotes outputs value q ↔ allowed = true)) := by
  rw [checkRefs]
  rcases foldlM_parseRef store drvPath outputs outputName value.elems .empty with ⟨spec, hspec, hnamed, hmem⟩ | ⟨e, he, hbuild, hnamed⟩
  · have hused : (if recursive then Prod.fst <$> getClosure store outputs info.path
        else .ok info.references) = .ok (if recursive then closure else info.references) := by
      rw [hclosure]
      cases recursive <;> rfl
    rw [hspec]
    dsimp only [bind, Except.bind]
    rw [hused]
    refine (decides_guard trivial).congr ?_
    have hchecked : ∀ q, q ∈ (if recursive then closure else info.references).elems.filter
        (fun i => !(recursive && checks.ignoreSelfRefs && i = info.path)) ↔
          if recursive then Requisite checks info closure q else q ∈ info.references := by
      intro q
      rw [List.mem_filter]
      cases recursive with
      | false => exact and_iff_left rfl
      | true => cases hself : checks.ignoreSelfRefs <;> simp [Requisite, SortedSet.mem_def, hself]
    have hspec : ∀ q, q ∈ spec ↔ Denotes outputs value q := fun q =>
      (hmem q).trans (or_iff_right (SortedSet.not_mem_empty q))
    have hbad : ∀ q, ¬(if allowed = true then decide (q ∉ spec) else decide (q ∈ spec)) = true ↔
        (Denotes outputs value q ↔ allowed = true) := by
      intro q
      rw [← hspec]
      cases allowed <;> simp
    have hnames : Named outputs value := hnamed
    rw [not_not, List.filter_eq_nil_iff, and_iff_right hnames]
    exact forall_congr' fun q => imp_congr (hchecked q) (hbad q)
  · rw [he]
    exact decides_error hbuild fun h => hnamed h.1

/-- The measure of the code: sizes are added modulo 2^64. -/
def wrapped (n : Nat) : Nat := n % 2 ^ 64

theorem decides_closureSize {info : ValidPathInfo} {closure : StorePathSet}
    (hclosure : getClosure store outputs info.path =
      .ok (closure, UInt64.ofNat (totalSize store (outputsByPath outputs) closure)))
    {e : StorePathSet × UInt64 → CheckError} (he : ∀ found, IsBuildError (e found)) (m : UInt64) :
    Decides IsBuildError
      (do
        let closure ← getClosure store outputs info.path
        if closure.2 > m then .error (e closure) else .ok ())
      (wrapped (totalSize store (outputsByPath outputs) closure) ≤ m.toNat) := by
  rw [hclosure]
  refine (decides_guard (he _)).congr ?_
  rw [gt_iff_lt, UInt64.lt_iff_toNat_lt, not_lt, UInt64.toNat_ofNat', wrapped]

theorem named_of_nil {value : DrvRefs} (h : value.elems = []) :
    Named outputs value ∧ ∀ q, ¬Denotes outputs value q := by
  have hnone : ∀ ref, ref ∉ value := by
    intro ref href
    rw [SortedSet.mem_def, h] at href
    exact List.not_mem_nil href
  exact ⟨fun ref href => absurd href (hnone ref), fun q ⟨ref, href, _⟩ => hnone ref href⟩

theorem decides_applyChecks {outputName : Bytes} {info : ValidPathInfo} {checks : OutputChecks}
    {closure : StorePathSet} (hclosure : getClosure store outputs info.path =
      .ok (closure, UInt64.ofNat (totalSize store (outputsByPath outputs) closure))) :
    Decides IsBuildError (applyChecks store drvPath outputs outputName info checks)
      (ChecksHold store outputs wrapped info closure checks) := by
  have hrefs : ∀ value allowed recursive, Decides IsBuildError
      (checkRefs store drvPath outputs checks outputName info value allowed recursive)
      (Named outputs value ∧ ∀ q,
        (if recursive then Requisite checks info closure q else q ∈ info.references) →
          (Denotes outputs value q ↔ allowed = true)) :=
    fun value allowed recursive => decides_checkRefs hclosure
  have hdisallowed : ∀ {value : DrvRefs} {used : StorePath → Prop} {x : Except CheckError Unit},
      Decides IsBuildError x
        (Named outputs value ∧ ∀ q, used q → (Denotes outputs value q ↔ false = true)) →
      Decides IsBuildError (if value.elems ≠ [] then x else .ok ())
        (Named outputs value ∧ ∀ q, used q → ¬Denotes outputs value q) := by
    intro value used x hx
    refine (hx.congr ?_).ite fun hnil => ?_
    · exact and_congr_right fun _ => forall₂_congr fun q _ => by simp
    · obtain ⟨hnamed, hnone⟩ := named_of_nil (not_not.mp hnil)
      exact ⟨hnamed, fun q _ => hnone q⟩
  rw [applyChecks]
  refine Decides.congr (
    .bind (decides_elim fun m _ => (decides_guard ?_).congr UInt64.not_lt) fun _ =>
    .bind (decides_elim fun m _ => decides_closureSize hclosure ?_ m) fun _ =>
    .bind (decides_elim fun refs _ => hrefs refs true false) fun _ =>
    .bind (decides_elim fun refs _ => hrefs refs true true) fun _ =>
    .bind (hdisallowed (hrefs checks.disallowedReferences false false)) fun _ =>
    hdisallowed (hrefs checks.disallowedRequisites false true)) ?_
  · trivial
  · exact fun _ => trivial
  · constructor
    · rintro ⟨hsize, hclosureSize, hallowed, hrequisites, hdisallowed, hdisrequisites⟩
      exact ⟨hsize, hclosureSize, fun refs hsome => (hallowed refs hsome).imp_right fun hall q hq =>
        (hall q hq).mpr rfl, fun refs hsome => (hrequisites refs hsome).imp_right fun hall q hq =>
        (hall q hq).mpr rfl, hdisallowed, hdisrequisites⟩
    · rintro ⟨hsize, hclosureSize, hallowed, hrequisites, hdisallowed, hdisrequisites⟩
      exact ⟨hsize, hclosureSize, fun refs hsome => (hallowed refs hsome).imp_right fun hall q hq =>
        iff_of_true (hall q hq) rfl, fun refs hsome => (hrequisites refs hsome).imp_right
        fun hall q hq => iff_of_true (hall q hq) rfl, hdisallowed, hdisrequisites⟩

end Checks

section CheckOutputs

variable {store : StoreInfos} {drvPath : StorePath} {outputs : OutputInfos}
  {drvOutputs : SortedMap (compare : Bytes → Bytes → Ordering) DerivationOutput}
  {outputChecks : OutputChecksOption}

theorem IsClosure.eq {byPath : InfosByPath} {path : StorePath} {closure closure' : StorePathSet}
    (h : IsClosure store byPath path closure) (h' : IsClosure store byPath path closure') :
    closure = closure' :=
  SortedSet.ext fun q => (h q).trans (h' q).symm

theorem decides_checkOutputs (drvPath : StorePath) (h : Prepared store outputs drvOutputs) :
    Decides IsBuildError (checkOutputs store drvPath outputs drvOutputs outputChecks)
      (Accepted store outputs drvOutputs outputChecks wrapped) := by
  refine decides_forM fun output houtput => ?_
  obtain ⟨outputSpec, hspec, hca⟩ := h.outputSpec output houtput
  obtain ⟨closure, hget, hclosure⟩ := h.getClosure_eq houtput
  rw [hspec]
  refine ((decides_checkCAFixedOutput hca).bind fun _ =>
    decides_elim fun checks _ => decides_applyChecks hget).congr (and_congr ?_ ?_)
  · exact ⟨fun hfixed spec heq => Option.some.inj heq ▸ hfixed, fun hall => hall _ rfl⟩
  · constructor
    · exact fun hchecks => ⟨closure, hclosure, hchecks⟩
    · rintro ⟨closure', hclosure', hchecks⟩
      rwa [hclosure.eq hclosure']

/-- Some output has a limit below the measured size of its closure. -/
def Exceeds (store : StoreInfos) (outputs : OutputInfos) (outputChecks : OutputChecksOption)
    (measure : Nat → Nat) : Prop :=
  ∃ output ∈ outputs.elems, ∃ checks, outputChecks.find? output.1 = some checks ∧
    ∃ m, checks.maxClosureSize = some m ∧
      ∃ closure, IsClosure store (outputsByPath outputs) output.2.path closure ∧
        m.toNat < measure (totalSize store (outputsByPath outputs) closure)

theorem checksHold_iff (measure : Nat → Nat) {info : ValidPathInfo} {closure : StorePathSet}
    {checks : OutputChecks} :
    ChecksHold store outputs measure info closure checks ↔
      ChecksHold store outputs (fun _ => 0) info closure checks ∧
        ∀ m, checks.maxClosureSize = some m →
          measure (totalSize store (outputsByPath outputs) closure) ≤ m.toNat :=
  ⟨fun h => ⟨{ h with maxClosureSize := fun _ _ => Nat.zero_le _ }, h.maxClosureSize⟩,
    fun h => { h.1 with maxClosureSize := h.2 }⟩

theorem accepted_iff (measure : Nat → Nat) :
    Accepted store outputs drvOutputs outputChecks measure ↔
      Accepted store outputs drvOutputs outputChecks (fun _ => 0) ∧
        ¬Exceeds store outputs outputChecks measure := by
  constructor
  · intro h
    refine ⟨fun output houtput => ?_, ?_⟩
    · obtain ⟨hfixed, closure, hclosure, hchecks⟩ := h output houtput
      exact ⟨hfixed, closure, hclosure, fun checks hsome =>
        ((checksHold_iff measure).mp (hchecks checks hsome)).1⟩
    · rintro ⟨output, houtput, checks, hsome, m, hm, closure, hclosure, hlt⟩
      obtain ⟨-, closure', hclosure', hchecks⟩ := h output houtput
      rw [hclosure.eq hclosure'] at hlt
      exact absurd ((hchecks checks hsome).maxClosureSize m hm) (Nat.not_le.mpr hlt)
  · rintro ⟨h, hexceeds⟩ output houtput
    obtain ⟨hfixed, closure, hclosure, hchecks⟩ := h output houtput
    refine ⟨hfixed, closure, hclosure, fun checks hsome =>
      (checksHold_iff measure).mpr ⟨hchecks checks hsome, fun m hm => ?_⟩⟩
    by_contra hle
    exact hexceeds ⟨output, houtput, checks, hsome, m, hm, closure, hclosure, Nat.not_le.mp hle⟩

theorem Exceeds.of_wrapped (h : Exceeds store outputs outputChecks wrapped) :
    Exceeds store outputs outputChecks id := by
  obtain ⟨output, houtput, checks, hsome, m, hm, closure, hclosure, hlt⟩ := h
  exact ⟨output, houtput, checks, hsome, m, hm, closure, hclosure, hlt.trans_le (Nat.mod_le _ _)⟩

/-- The outputs that are accepted are those that are as declared, unless sizes that are too large
are seen modulo 2^64 only. -/
theorem decides_accepted_iff (h : Prepared store outputs drvOutputs) :
    Decides IsBuildError (checkOutputs store drvPath outputs drvOutputs outputChecks)
        (Accepted store outputs drvOutputs outputChecks id) ↔
      (Accepted store outputs drvOutputs outputChecks (fun _ => 0) →
        Exceeds store outputs outputChecks id → Exceeds store outputs outputChecks wrapped) := by
  have hdecides : Decides IsBuildError
      (checkOutputs store drvPath outputs drvOutputs outputChecks)
      (Accepted store outputs drvOutputs outputChecks wrapped) := decides_checkOutputs drvPath h
  constructor
  · intro hid hothers hexceeds
    by_contra hnot
    have hpasses := hdecides.passes.mpr ((accepted_iff wrapped).mpr ⟨hothers, hnot⟩)
    exact ((accepted_iff id).mp (hid.passes.mp hpasses)).2 hexceeds
  · intro hcondition
    refine hdecides.congr ?_
    rw [accepted_iff wrapped, accepted_iff id]
    exact and_congr_right fun hothers =>
      not_congr ⟨Exceeds.of_wrapped, hcondition hothers⟩

end CheckOutputs

def libPath : StorePath := ⟨List.replicate 32 97 ++ str "-lib", by decide⟩

def appPath : StorePath := ⟨List.replicate 32 98 ++ str "-app", by decide⟩

def libInfo : ValidPathInfo where
  path := libPath
  storeDir := str "/nix/store"
  narHash := ⟨.sha256, List.replicate 32 0, length_zeros⟩
  narSize := 18446744073709551615

def appInfo : ValidPathInfo where
  path := appPath
  storeDir := str "/nix/store"
  narHash := ⟨.sha256, List.replicate 32 0, length_zeros⟩
  references := ⟨[libPath], List.pairwise_singleton _ _⟩
  narSize := 1

/-- A store with the library, of 2^64 - 1 bytes. -/
def libStore : StoreInfos := ⟨str "/nix/store", ⟨[(libPath, libInfo)], List.pairwise_singleton _ _⟩⟩

def appOutputs : OutputInfos := ⟨[(str "out", appInfo)], List.pairwise_singleton _ _⟩

def appDrvOutputs : SortedMap (compare : Bytes → Bytes → Ordering) DerivationOutput :=
  ⟨[(str "out", .deferred)], List.pairwise_singleton _ _⟩

def sizeChecks : OutputChecks where
  maxClosureSize := some 100

theorem prepared_app : Prepared libStore appOutputs appDrvOutputs := by
  have hlib : infoOf libStore (outputsByPath appOutputs) libPath = .ok libInfo := by decide +kernel
  refine ⟨fun output houtput => ?_, fun output houtput ref href => ?_,
    fun entry hentry ref href => ?_⟩
  · obtain rfl := List.mem_singleton.mp houtput
    exact ⟨.deferred, rfl, nofun⟩
  · obtain rfl := List.mem_singleton.mp houtput
    obtain rfl := List.mem_singleton.mp href
    exact ⟨libInfo, hlib⟩
  · obtain rfl := List.mem_singleton.mp hentry
    exact absurd href List.not_mem_nil

theorem decides_accepted_iff_app :
    Decides IsBuildError (checkOutputs libStore appPath appOutputs appDrvOutputs (.all sizeChecks))
        (Accepted libStore appOutputs appDrvOutputs (.all sizeChecks) id) ↔
      (Accepted libStore appOutputs appDrvOutputs (.all sizeChecks) (fun _ => 0) →
        Exceeds libStore appOutputs (.all sizeChecks) id →
          Exceeds libStore appOutputs (.all sizeChecks) wrapped) :=
  decides_accepted_iff prepared_app

def appClosure : StorePathSet := ⟨[libPath, appPath], by decide⟩

theorem isClosure_app : IsClosure libStore (outputsByPath appOutputs) appPath appClosure := by
  have happ : referencesOf libStore (outputsByPath appOutputs) appPath = [libPath] := by
    decide
  have hlib : referencesOf libStore (outputsByPath appOutputs) libPath = [] := by decide
  have hmem : ∀ q, q ∈ appClosure ↔ q = libPath ∨ q = appPath := fun q => by
    rw [SortedSet.mem_def, appClosure, List.mem_pair]
  intro q
  rw [hmem]
  constructor
  · have hstart : Reaches (referencesOf libStore (outputsByPath appOutputs)) [appPath] appPath :=
      .start List.mem_cons_self
    rintro (rfl | rfl)
    · exact .next hstart (happ ▸ List.mem_cons_self)
    · exact hstart
  · intro hreaches
    induction hreaches with
    | start hstart => exact .inr (List.mem_singleton.mp hstart)
    | next _ hnext ih =>
      rcases ih with rfl | rfl
      · rw [hlib] at hnext
        exact absurd hnext List.not_mem_nil
      · rw [happ] at hnext
        exact .inl (List.mem_singleton.mp hnext)

theorem not_decides_accepted_app : ¬Decides IsBuildError
    (checkOutputs libStore appPath appOutputs appDrvOutputs (.all sizeChecks))
    (Accepted libStore appOutputs appDrvOutputs (.all sizeChecks) id) := by
  intro hdecides
  have htotal : totalSize libStore (outputsByPath appOutputs) appClosure = 2 ^ 64 := by
    decide +kernel
  have hwrapped : Accepted libStore appOutputs appDrvOutputs (.all sizeChecks) wrapped := by
    intro output houtput
    obtain rfl := List.mem_singleton.mp houtput
    refine ⟨fun outputSpec hspec => ?_, appClosure, isClosure_app, fun checks hchecks => ?_⟩
    · cases hspec
      exact nofun
    · cases hchecks
      have hempty : Named appOutputs .empty ∧ ∀ q, ¬Denotes appOutputs .empty q :=
        named_of_nil rfl
      obtain ⟨hnamed, hnone⟩ := hempty
      refine ⟨nofun, fun m hm => ?_, nofun, nofun, ⟨hnamed, fun q _ => hnone q⟩,
        ⟨hnamed, fun q _ => hnone q⟩⟩
      rw [htotal, wrapped, Nat.mod_self]
      exact Nat.zero_le _
  have hpasses := (decides_checkOutputs appPath prepared_app).passes.mpr hwrapped
  obtain ⟨-, closure, hclosure, hchecks⟩ := hdecides.passes.mp hpasses _ List.mem_cons_self
  have hsize := (hchecks sizeChecks rfl).maxClosureSize 100 rfl
  rw [hclosure.eq isClosure_app, htotal] at hsize
  exact absurd hsize (by decide)

end Nix.Store.DerivationChecks
