import Nix.Lib.Graphs
import Nix.Store.PathInfoCoherence

set_option linter.dupNamespace false

namespace Nix.Store.ValidPathsGraph

open Util.Types Util.TopoSort Lib.Graphs Lib.Machine Lib.SortedList Lib.Table Store.Path
  Store.PathInfo Store.ValidPathsDb Store.LocalStores Store.RegisterValidPaths
  Store.PathInfoCoherence

variable {cfg : LocalStoreConfig}

def Edge (db : Database) (p q : Bytes) : Prop :=
  p ≠ q ∧ ∃ value references, db.view p = some (value, references) ∧ q ∈ references

/-- Every reference of a valid path is a valid path. -/
def Closed (db : Database) : Prop :=
  ∀ p value references, db.view p = some (value, references) →
    ∀ q ∈ references, (db.view q).isSome

theorem closed_of_wellFormed {db : Database} (h : db.WellFormed) : Closed db := by
  intro p value references hview q hq
  obtain ⟨r, hr, hrow⟩ := Option.map_eq_some_iff.mp hview
  cases hrow
  obtain ⟨s, hs, -, rfl⟩ := (Database.mem_queryReferences h).mp hq
  rw [Database.view_of_row (Database.queryPathInfo_of_mem h hs)]
  rfl

def BatchEdge (cfg : LocalStoreConfig) (infos : List ValidPathInfo) (p q : Bytes) : Prop :=
  p ≠ q ∧ ∃ info ∈ infos, p = print cfg info.path ∧ ∃ r ∈ info.references, q = print cfg r

/-- The references of the tables together with the ones of the batch. -/
def Merged (cfg : LocalStoreConfig) (db : Database) (infos : List ValidPathInfo) (p q : Bytes) :
    Prop :=
  Edge db p q ∨ BatchEdge cfg infos p q

theorem mem_addTexts {references : List StorePath} {view : RowValue × List Bytes} {q : Bytes} :
    q ∈ (@addTexts cfg references view).2 ↔
      q ∈ view.2 ∨ ∃ r ∈ references, q = print cfg r := by
  obtain ⟨value, texts⟩ := view
  rw [addTexts]
  induction references generalizing texts with
  | nil => simp
  | cons r references ih =>
      rw [List.map_cons, List.foldl_cons, ih]
      have hadd : q ∈ Database.addText texts (print cfg r) ↔ q ∈ texts ∨ q = print cfg r := by
        unfold Database.addText
        split
        next hmem => exact ⟨.inl, fun h => h.elim id fun heq => heq ▸ hmem⟩
        next => simp
      rw [hadd]
      simp [or_assoc]

theorem edge_of_committed {env : Surroundings} {infos : List ValidPathInfo} {s s' : LocalStore}
    (h : Committed cfg env infos s s') {p q : Bytes} (he : Edge s'.db p q) :
    Merged cfg s.db infos p q := by
  obtain ⟨hne, value, references, hview, hq⟩ := he
  by_cases hp : ∃ info ∈ infos, p = print cfg info.path
  · obtain ⟨info, hinfo, rfl⟩ := hp
    obtain ⟨columns, -, hself⟩ := h.self info hinfo
    rw [hself] at hview
    obtain ⟨hview⟩ := Option.some.inj hview
    rcases mem_addTexts.mp hq with hq | ⟨r, hr, rfl⟩
    · left
      cases hold : s.db.view (print cfg info.path) with
      | none => simp [hold, registeredView] at hq
      | some view =>
          obtain ⟨value', references'⟩ := view
          rw [hold] at hq
          exact ⟨hne, value', references', hold, hq⟩
    · exact .inr ⟨hne, info, hinfo, rfl, r, hr, rfl⟩
  · rw [h.other p fun info hinfo heq => hp ⟨info, hinfo, heq⟩] at hview
    exact .inl ⟨hne, value, references, hview, hq⟩

/-- No reference that the batch adds to a valid path leads back to it. -/
def AddsNoCycle (cfg : LocalStoreConfig) (db : Database) (infos : List ValidPathInfo) : Prop :=
  ∀ info ∈ infos, isValidPath_ cfg db info.path = true → ∀ r ∈ info.references, r ≠ info.path →
    Edge db (print cfg info.path) (print cfg r) ∨
      ¬Relation.ReflTransGen (Merged cfg db infos) (print cfg r) (print cfg info.path)

theorem exists_rank_of_accepts {env : Surroundings} {db : Database} {infos : ValidPathInfos}
    (h : Accepts cfg env db infos.elems) :
    ∃ rank : Bytes → Nat, ∀ p q, BatchEdge cfg infos.elems p q →
      (db.view q).isSome ∨ rank q < rank p := by
  obtain ⟨order, horder⟩ := h.acyclic
  obtain ⟨rank, hrank⟩ := exists_rank_of_topoSort horder
  refine ⟨Function.extend (print cfg) rank 0, ?_⟩
  rintro p q ⟨hne, info, hinfo, rfl, r, hr, rfl⟩
  rcases h.references info hinfo r hr with hvalid | hbatch
  · exact .inl (by rwa [isValidPath_eq_view] at hvalid)
  · right
    rw [print_injective.extend_apply, print_injective.extend_apply]
    refine hrank _ (List.mem_map_of_mem hinfo) _ ?_
    have hchildren : batchReferences infos.elems info.path = info.references.elems := by
      have hfind : infos.elems.find? (·.path = info.path) = some info :=
        select_of_mem infos.nodup_paths hinfo
      rw [batchReferences, hfind]
    rw [followed, hchildren, List.mem_filter]
    refine ⟨hr, ?_⟩
    have hrne : r ≠ info.path := fun heq => hne (heq ▸ rfl)
    exact decide_eq_true ⟨hrne, hbatch⟩

theorem acyclic_of_committed {env : Surroundings} {infos : ValidPathInfos} {s s' : LocalStore}
    (hwf : s.db.WellFormed) (hacyclic : Acyclic (Edge s.db))
    (haccepts : Accepts cfg env s.db infos.elems) (hadds : AddsNoCycle cfg s.db infos.elems)
    (h : Committed cfg env infos.elems s s') : Acyclic (Edge s'.db) := by
  obtain ⟨rank, hrank⟩ := exists_rank_of_accepts haccepts
  -- the edges of the tables and of the new paths, and those that a valid path gets
  let V : Bytes → Prop := fun p => (s.db.view p).isSome = true
  let R : Bytes → Bytes → Prop := fun p q =>
    Edge s.db p q ∨ (¬V p ∧ BatchEdge cfg infos.elems p q)
  let S : Bytes → Bytes → Prop := fun p q =>
    V p ∧ BatchEdge cfg infos.elems p q ∧ ¬Edge s.db p q
  have hvalid : ∀ p q, Edge s.db p q → V p := by
    rintro p q ⟨-, value, references, hview, -⟩
    show (s.db.view p).isSome = true
    rw [hview]
    rfl
  have hclosed : ∀ p q, Edge s.db p q → V q := by
    rintro p q ⟨-, value, references, hview, hq⟩
    exact closed_of_wellFormed hwf p value references hview q hq
  have hR : Acyclic R := by
    refine @acyclic_of_rank _ R V rank ?_ (hacyclic.mono ?_) ?_
    · rintro p q (he | ⟨hp, -⟩) hVp
      · exact hclosed p q he
      · exact absurd hVp hp
    · rintro p q ⟨hVp, he | ⟨hp, -⟩⟩
      · exact he
      · exact absurd hVp hp
    · rintro p q (he | ⟨-, hbatch⟩) hVp
      · exact absurd (hvalid p q he) hVp
      · exact hrank p q hbatch
  have hmerged : ∀ p q, R p q ∨ S p q → Merged cfg s.db infos.elems p q := by
    rintro p q ((he | ⟨-, hbatch⟩) | ⟨-, hbatch, -⟩)
    · exact .inl he
    · exact .inr hbatch
    · exact .inr hbatch
  have hboth : Acyclic fun p q => R p q ∨ S p q := by
    refine acyclic_or hR ?_
    rintro p q ⟨hVp, ⟨hne, info, hinfo, rfl, r, hr, rfl⟩, hnot⟩ hback
    have hrne : r ≠ info.path := fun heq => hne (heq ▸ rfl)
    have hold : isValidPath_ cfg s.db info.path = true := by rwa [isValidPath_eq_view]
    rcases hadds info hinfo hold r hr hrne with he | hno
    · exact hnot he
    · exact hno (Relation.ReflTransGen.mono hmerged _ _ hback)
  refine hboth.mono fun p q he => ?_
  rcases edge_of_committed h he with he | hbatch
  · exact .inl (.inl he)
  · by_cases hedge : Edge s.db p q
    · exact .inl (.inl hedge)
    · by_cases hVp : V p
      · exact .inr ⟨hVp, hbatch, hedge⟩
      · exact .inl (.inr ⟨hVp, hbatch⟩)

/-- What the tables maintain. -/
structure Maintained (db : Database) : Prop where
  wellFormed : db.WellFormed
  acyclic : Acyclic (Edge db)

/-- The condition on a step: an accepted registration adds no cycle. -/
def StepAddsNoCycle (cfg : LocalStoreConfig) (s : LocalStore) : Operation → Prop
  | .registerValidPaths env infos =>
      Accepts cfg env s.db infos.elems → AddsNoCycle cfg s.db infos.elems
  | .invalidatePathChecked _ => True
  | .queryPathInfo _ _ => True
  | .isValidPath _ _ => True

theorem maintained_empty : Maintained {} := by
  refine ⟨Database.wellFormed_empty, fun p hp => ?_⟩
  obtain ⟨q, ⟨-, value, references, hview, -⟩, -⟩ := Relation.TransGen.head'_iff.mp hp
  cases hview

theorem maintained_registerValidPaths {env : Surroundings} {infos : ValidPathInfos}
    {s : LocalStore} (hs : Maintained s.db)
    (hok : Accepts cfg env s.db infos.elems → AddsNoCycle cfg s.db infos.elems) :
    Maintained (registerValidPaths cfg env infos s).2.db := by
  rcases @registerValidPaths_spec cfg env infos _ hs.wellFormed with
    ⟨haccepts, s', hrun, hcommitted⟩ | ⟨-, e, s', hrun, hdb, -⟩
  · rw [hrun]
    exact ⟨hcommitted.wellFormed,
      acyclic_of_committed hs.wellFormed hs.acyclic haccepts (hok haccepts) hcommitted⟩
  · rw [hrun]
    show Maintained s'.db
    rwa [hdb]

theorem wellFormed_registerValidPaths {env : Surroundings} {infos : ValidPathInfos}
    {s : LocalStore} (hs : s.db.WellFormed) :
    (registerValidPaths cfg env infos s).2.db.WellFormed := by
  rcases @registerValidPaths_spec cfg env infos _ hs with
    ⟨-, s', hrun, hcommitted⟩ | ⟨-, e, s', hrun, hdb, -⟩
  · rw [hrun]
    exact hcommitted.wellFormed
  · rw [hrun]
    show s'.db.WellFormed
    rwa [hdb]

theorem invalidatePathChecked_db {s : LocalStore} (hs : s.db.WellFormed) (p : StorePath) :
    (invalidatePathChecked cfg p s).2.db = s.db ∨
      ((invalidatePathChecked cfg p s).2.db.WellFormed ∧
        (invalidatePathChecked cfg p s).2.db.view (print cfg p) = none ∧
        ∀ q, q ≠ print cfg p →
          (invalidatePathChecked cfg p s).2.db.view q = s.db.view q) := by
  unfold invalidatePathChecked transaction
  dsimp only
  split_ifs with hvalid hused
  · exact .inl rfl
  · have hq : ∀ q ∈ s.db.queryReferrers (print cfg p), q = print cfg p := by
      simpa using hused
    obtain ⟨db, hrun, hwf, hgone, hother⟩ := Database.invalidatePath_spec hs hq
    rw [invalidatePath, hrun]
    exact .inr ⟨hwf, hgone, hother⟩
  · exact .inl rfl

theorem maintained_invalidatePathChecked {s : LocalStore} (hs : Maintained s.db) (p : StorePath) :
    Maintained (invalidatePathChecked cfg p s).2.db := by
  rcases @invalidatePathChecked_db cfg _ hs.wellFormed p with hdb | ⟨hwf, hgone, hother⟩
  · rwa [hdb]
  · refine ⟨hwf, hs.acyclic.mono ?_⟩
    rintro a b ⟨hne, value, references, hview, hb⟩
    rcases eq_or_ne a (print cfg p) with rfl | ha
    · simp [hgone] at hview
    · exact ⟨hne, value, references, (hother a ha).symm.trans hview, hb⟩

theorem wellFormed_invalidatePathChecked {s : LocalStore} (hs : s.db.WellFormed)
    (p : StorePath) : (invalidatePathChecked cfg p s).2.db.WellFormed := by
  rcases @invalidatePathChecked_db cfg _ hs p with hdb | ⟨hwf, -, -⟩
  · rwa [hdb]
  · exact hwf

theorem maintained_step (s : LocalStore) (o : Operation) (hs : Maintained s.db)
    (hok : StepAddsNoCycle cfg s o) : Maintained (step cfg s o).2.db := by
  cases o with
  | registerValidPaths env infos => exact maintained_registerValidPaths hs hok
  | invalidatePathChecked p => exact maintained_invalidatePathChecked hs p
  | queryPathInfo clock p => exact hs
  | isValidPath clock p => exact hs

theorem wellFormed_step (s : LocalStore) (o : Operation) (hs : s.db.WellFormed) :
    (step cfg s o).2.db.WellFormed := by
  cases o with
  | registerValidPaths env infos => exact wellFormed_registerValidPaths hs
  | invalidatePathChecked p => exact wellFormed_invalidatePathChecked hs p
  | queryPathInfo clock p => exact hs
  | isValidPath clock p => exact hs

/-- From the empty tables on, every reference of a valid path is valid, and there is no
cycle as long as no accepted registration adds one. -/
theorem closed_and_acyclic {s : LocalStore} (hs : s.db = {}) (ops : List Operation) :
    Closed (run (step cfg) s ops).db ∧
      (Admits (step cfg) (StepAddsNoCycle cfg) s ops → Acyclic (Edge (run (step cfg) s ops).db)) := by
  constructor
  · refine closed_of_wellFormed ?_
    refine @run_invariant _ _ _ (step cfg) (fun _ _ => True) (fun s => s.db.WellFormed)
      (fun s o h _ => wellFormed_step s o h) s ops ?_ (admits_true s ops)
    rw [hs]
    exact Database.wellFormed_empty
  · intro hok
    refine Maintained.acyclic (@run_invariant _ _ _ (step cfg) (StepAddsNoCycle cfg)
      (fun s => Maintained s.db) maintained_step s ops ?_ hok)
    rw [hs]
    exact maintained_empty

def leaf (path : StorePath) (references : List StorePath) : ValidPathInfo :=
  { sampleInfo references with path }

def register (path : StorePath) (references : List StorePath) : Operation :=
  .registerValidPaths sampleSurroundings ⟨[leaf path references], List.pairwise_singleton _ _⟩

theorem closed_and_acyclic_sample :
    Closed (run (step sampleConfig) emptyStore [register samplePath [samplePath]]).db ∧
      Acyclic (Edge (run (step sampleConfig) emptyStore
        [register samplePath [samplePath]]).db) := by
  obtain ⟨hclosed, hacyclic⟩ := @closed_and_acyclic sampleConfig emptyStore rfl
    [register samplePath [samplePath]]
  refine ⟨hclosed, hacyclic ⟨fun _ info hinfo hvalid => ?_, trivial⟩⟩
  rw [List.mem_singleton.mp hinfo] at hvalid
  exact absurd hvalid (by decide)

/-- The second registration of a path refers back to the path that refers to it. -/
def cyclicOps : List Operation :=
  [register samplePath [], register missingPath [samplePath], register samplePath [missingPath]]

theorem not_acyclic_cyclicOps :
    ¬∀ (cfg : LocalStoreConfig) (s : LocalStore), s.db = {} → ∀ ops,
      Closed (run (step cfg) s ops).db ∧ Acyclic (Edge (run (step cfg) s ops).db) := by
  intro h
  have hacyclic := (h sampleConfig emptyStore rfl cyclicOps).2
  have hview : ∀ p q : StorePath, (p = samplePath ∧ q = missingPath) ∨
      (p = missingPath ∧ q = samplePath) →
      Edge (run (step sampleConfig) emptyStore cyclicOps).db (print sampleConfig p)
        (print sampleConfig q) := by
    rintro p q (⟨rfl, rfl⟩ | ⟨rfl, rfl⟩)
    · exact ⟨by decide, _, _, rfl, by decide⟩
    · exact ⟨by decide, _, _, rfl, by decide⟩
  exact hacyclic _ ((Relation.TransGen.single (hview samplePath missingPath (.inl ⟨rfl, rfl⟩))).tail
    (hview missingPath samplePath (.inr ⟨rfl, rfl⟩)))

end Nix.Store.ValidPathsGraph
