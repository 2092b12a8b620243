import Nix.Lib.Transitions
import Nix.Lib.Results
import Nix.Store.RegisterValidPaths
import Nix.Store.StoreDirs

set_option linter.dupNamespace false

namespace Nix.Store.PathInfoCoherence

open Util.Types Util.Hashes Util.LruCaches Lib.Machine Lib.Results Lib.SortedList Store.Path
  Store.PathInfo Store.StoreApi Store.ValidPathsDb Store.LocalStores Store.RegisterValidPaths
  Store.StoreDirs

variable {cfg : LocalStoreConfig}

/-- What the committed tables say to `queryPathInfo`. -/
def tableInfo (cfg : LocalStoreConfig) (db : Database) (p : StorePath) :
    Except Error ValidPathInfo :=
  match queryPathInfoInternal cfg db p with
  | .error e => .error e
  | .ok none => .error (invalidPath cfg p)
  | .ok (some info) => .ok info

/-- Both queries answer from the committed tables, for every path at any time. -/
def AnswersFromTables (cfg : LocalStoreConfig) (s : LocalStore) : Prop :=
  ∀ clock p, (isValidPath cfg clock p s).1 = .ok (isValidPath_ cfg s.db p) ∧
    (queryPathInfo cfg clock p s).1 = tableInfo cfg s.db p

/-- A store that was just opened. -/
structure Opened (s : LocalStore) : Prop where
  wellFormed : s.db.WellFormed
  data : s.client.pathInfoCache.data = []

def Allowed (cfg : LocalStoreConfig) (db : Database) (p : StorePath)
    (v : Option ValidPathInfo) : Prop :=
  queryPathInfoInternal cfg db p = .ok v

/-- Every cached info is the one of the tables. -/
structure Coherent (cfg : LocalStoreConfig) (s : LocalStore) : Prop where
  wellFormed : s.db.WellFormed
  client : s.client.Coherent (Allowed cfg s.db) fun _ => True

theorem Opened.coherent {s : LocalStore} (h : Opened s) : Coherent cfg s := by
  refine ⟨h.wellFormed, fun _ => h.data, ?_, fun _ _ => trivial⟩
  intro p v hv
  simp [LRUCache.value?_eq, Lib.Table.select, h.data] at hv

theorem respects (db : Database) :
    (vtable cfg db).Respects (Allowed cfg db) fun _ => True :=
  ⟨fun h => h, @fun d => d.elim, fun _ _ => trivial, fun _ _ => trivial⟩

theorem goodStorePath_self (p : StorePath) : goodStorePath p p = true := by
  simp [goodStorePath]

theorem path_of_readInfo {p : StorePath} {value : RowValue} {references : List Bytes}
    {info : ValidPathInfo} (h : readInfo cfg p value references = .ok info) : info.path = p := by
  simp only [readInfo, bind_eq_ok, pure_eq_ok] at h
  obtain ⟨_, -, _, -, _, -, _, -, _, -, rfl⟩ := h
  rfl

theorem path_of_allowed {db : Database} {p : StorePath} {info : ValidPathInfo}
    (h : Allowed cfg db p (some info)) : info.path = p := by
  unfold Allowed queryPathInfoInternal at h
  split at h
  · cases h
  · obtain ⟨i, hread, hi⟩ := map_eq_ok.mp h
    cases hi
    exact path_of_readInfo hread

theorem isSome_of_allowed {db : Database} {p : StorePath} {v : Option ValidPathInfo}
    (h : Allowed cfg db p v) : v.isSome = isValidPath_ cfg db p := by
  rw [isValidPath_eq_view]
  unfold Allowed queryPathInfoInternal at h
  split at h
  next hview =>
    cases h
    rw [hview]
    rfl
  next hview =>
    obtain ⟨i, -, rfl⟩ := map_eq_ok.mp h
    rw [hview]
    rfl

theorem allowed_none {db : Database} {p : StorePath} (h : isValidPath_ cfg db p = false) :
    Allowed cfg db p none := by
  have hview : db.view (print cfg p) = none := by simpa [isValidPath_eq_view] using h
  rw [Allowed, queryPathInfoInternal, hview]

theorem coherent_queryPathInfo {s : LocalStore} (hs : Coherent cfg s) (clock : Clock)
    (p : StorePath) :
    (queryPathInfo cfg clock p s).1 = tableInfo cfg s.db p ∧
      Coherent cfg (queryPathInfo cfg clock p s).2 := by
  obtain ⟨hclient, hanswer⟩ := @StoreVtable.queryPathInfo_spec _ _ (vtable cfg s.db) _ _ clock p
    s.client (respects s.db) hs.client (.inr fun info hinfo => by
      rw [show (vtable cfg s.db).path info = p from path_of_allowed hinfo]
      exact goodStorePath_self p)
  refine ⟨?_, hs.wellFormed, hclient⟩
  rcases hanswer with ⟨v, hv, hanswer⟩ | ⟨e, he, hanswer⟩
  · refine hanswer.trans ?_
    rw [tableInfo, show queryPathInfoInternal cfg s.db p = .ok v from hv]
    cases v with
    | none => rfl
    | some info =>
        refine StoreVtable.checkInfo_eq_ok.mpr ⟨rfl, ?_⟩
        rw [show (vtable cfg s.db).path info = p from path_of_allowed hv]
        exact goodStorePath_self p
  · refine hanswer.trans ?_
    rw [tableInfo, show queryPathInfoInternal cfg s.db p = .error e from he]

theorem coherent_isValidPath {s : LocalStore} (hs : Coherent cfg s) (clock : Clock)
    (p : StorePath) :
    (isValidPath cfg clock p s).1 = .ok (isValidPath_ cfg s.db p) ∧
      Coherent cfg (isValidPath cfg clock p s).2 := by
  obtain ⟨hanswer, hclient⟩ := @StoreVtable.isValidPath_spec _ _ (vtable cfg s.db) _ _ clock p
    s.client (isValidPath_ cfg s.db p) (respects s.db) hs.client
    (fun v hv => isSome_of_allowed hv) allowed_none (fun c hc => ⟨rfl, hc⟩)
  exact ⟨hanswer, hs.wellFormed, hclient⟩

theorem answers_of_coherent {s : LocalStore} (hs : Coherent cfg s) : AnswersFromTables cfg s :=
  fun clock p => ⟨(coherent_isValidPath hs clock p).1, (coherent_queryPathInfo hs clock p).1⟩

theorem allowed_congr {db db' : Database} {p : StorePath}
    (h : db'.view (print cfg p) = db.view (print cfg p)) {v : Option ValidPathInfo} :
    Allowed cfg db' p v ↔ Allowed cfg db p v := by
  rw [Allowed, Allowed, queryPathInfoInternal, queryPathInfoInternal, h]

theorem coherent_invalidatePathChecked {s : LocalStore} (hs : Coherent cfg s) (p : StorePath) :
    Coherent cfg (invalidatePathChecked cfg p s).2 := by
  unfold invalidatePathChecked transaction
  dsimp only
  split_ifs with hvalid hused
  · exact hs
  · have hq : ∀ q ∈ s.db.queryReferrers (print cfg p), q = print cfg p := by
      simpa using hused
    obtain ⟨db, hrun, hwf, hgone, hother⟩ := Database.invalidatePath_spec hs.wellFormed hq
    rw [invalidatePath, hrun]
    refine ⟨hwf, hs.client.inert.erase p, ?_, fun _ _ => trivial⟩
    intro q v hv
    rw [LRUCache.value?_erase] at hv
    split at hv
    · cases hv
    next hne =>
      refine (allowed_congr (hother _ fun heq => hne (print_injective heq))).mpr ?_
      exact hs.client.memory q v hv
  · exact hs

theorem addTexts_of_subset {references : List StorePath} {value : RowValue} {refs : List Bytes}
    (h : ∀ p ∈ references, print cfg p ∈ refs) :
    @addTexts cfg references (value, refs) = (value, refs) := by
  induction references with
  | nil => rfl
  | cons p references ih =>
      have hp : Database.addText refs (print cfg p) = refs := if_pos (h p (by simp))
      rw [addTexts, List.map_cons, List.foldl_cons, hp]
      exact ih fun q hq => h q (by simp [hq])

theorem foldl_addText {acc ts : List Bytes} (h : (acc ++ ts).Nodup) :
    ts.foldl Database.addText acc = acc ++ ts := by
  induction ts generalizing acc with
  | nil => simp
  | cons t ts ih =>
      have ht : t ∉ acc := fun hmem =>
        (List.nodup_append.mp h).2.2 t hmem t (by simp) rfl
      rw [List.foldl_cons, Database.addText, if_neg ht, ih (by simpa using h)]
      simp

theorem addTexts_nil (references : StorePathSet) (value : RowValue) :
    @addTexts cfg references.elems (value, []) =
      (value, references.elems.map (print cfg)) := by
  have hnodup : (references.elems.map (print cfg)).Nodup :=
    references.sorted.nodup.map print_injective
  rw [addTexts, foldl_addText (by simpa using hnodup), List.nil_append]

/-- The row and the references of a new path are read back as its info. In
particular its registration time is not zero, which the row replaces by the time. -/
def ReadsBack (cfg : LocalStoreConfig) (env : Surroundings) (info : ValidPathInfo) : Prop :=
  ∀ columns, infoColumns cfg info = .ok columns →
    readInfo cfg info.path (rowValue cfg env info columns)
      (info.references.elems.map (print cfg)) = .ok info

/-- Registering a valid path again changes neither its row nor its references. -/
def Unchanged (cfg : LocalStoreConfig) (db : Database) (info : ValidPathInfo) : Prop :=
  ∀ value references, db.view (print cfg info.path) = some (value, references) →
    infoColumns cfg info = .ok value.info ∧ ∀ p ∈ info.references, print cfg p ∈ references

/-- The registrations that keep the cache in step with the tables. A disabled cache
is always in step. A call that throws has to do so before it adds a path. A call
that commits has to add paths as they will be read back, and to leave the paths
that were valid and are cached as they are. -/
def KeepsStep (cfg : LocalStoreConfig) (env : Surroundings) (s : LocalStore)
    (infos : List ValidPathInfo) : Prop :=
  s.client.pathInfoCache.capacity = 0 ∨
  RefusedEarly cfg env s.db infos ∨
  ((∀ info ∈ infos, isValidPath_ cfg s.db info.path = true) ∧ ¬ Accepts cfg env s.db infos) ∨
  (Accepts cfg env s.db infos ∧ ∀ info ∈ infos,
    (isValidPath_ cfg s.db info.path = false → ReadsBack cfg env info) ∧
    (isValidPath_ cfg s.db info.path = true →
      s.client.pathInfoCache.value? info.path = none ∨ Unchanged cfg s.db info))

theorem coherent_of_inert {s : LocalStore} (hwf : s.db.WellFormed)
    (hinert : s.client.pathInfoCache.Inert) (hcap : s.client.pathInfoCache.capacity = 0) :
    Coherent cfg s := by
  refine ⟨hwf, hinert, ?_, fun _ _ => trivial⟩
  intro p v hv
  rw [hinert.value? hcap] at hv
  cases hv

theorem coherent_of_committed {env : Surroundings} {infos : List ValidPathInfo}
    {s s' : LocalStore} (hs : Coherent cfg s) (h : Committed cfg env infos s s')
    (hinfos : ∀ info ∈ infos,
      (isValidPath_ cfg s.db info.path = false → ReadsBack cfg env info) ∧
      (isValidPath_ cfg s.db info.path = true →
        s.client.pathInfoCache.value? info.path = none ∨ Unchanged cfg s.db info)) :
    Coherent cfg s' := by
  obtain ⟨hinert, hmemory⟩ := h.memory hs.client.inert
  refine ⟨h.wellFormed, hinert, ?_, fun _ _ => trivial⟩
  intro q v hv
  rcases hmemory q v hv with ⟨info, hinfo, hnew, rfl, hvalue⟩ | ⟨hold, hvalid⟩
  · -- the entry was made for a new path
    obtain ⟨columns, hcolumns, hview⟩ := h.self info hinfo
    have hnone : s.db.view (print cfg info.path) = none := by
      simpa [isValidPath_eq_view] using hnew
    rw [hnone, registeredView, addTexts_nil] at hview
    rw [Allowed, queryPathInfoInternal, hview, hvalue]
    dsimp only
    rw [(hinfos info hinfo).1 hnew columns hcolumns]
    rfl
  · -- the entry is older than the call
    refine (allowed_congr ?_).mpr (hs.client.memory q v hold)
    by_cases hq : ∃ info ∈ infos, info.path = q
    · obtain ⟨info, hinfo, rfl⟩ := hq
      have hvalidq := hvalid info hinfo rfl
      have hunchanged := ((hinfos info hinfo).2 hvalidq).resolve_left (by simp [hold])
      obtain ⟨columns, hcolumns, hview⟩ := h.self info hinfo
      rw [isValidPath_eq_view, Option.isSome_iff_exists] at hvalidq
      obtain ⟨⟨value, references⟩, hbefore⟩ := hvalidq
      obtain ⟨hinfoColumns, hrefs⟩ := hunchanged value references hbefore
      rw [hcolumns] at hinfoColumns
      cases hinfoColumns
      rw [hview, hbefore, registeredView, addTexts_of_subset hrefs]
    · exact h.other _ fun info hinfo heq => hq ⟨info, hinfo, (print_injective heq).symm⟩

theorem coherent_registerValidPaths {env : Surroundings} {infos : ValidPathInfos}
    {s : LocalStore} (hs : Coherent cfg s) (hok : KeepsStep cfg env s infos.elems) :
    Coherent cfg (registerValidPaths cfg env infos s).2 := by
  rcases @registerValidPaths_spec cfg env infos _ hs.wellFormed with
    ⟨haccepts, s', hrun, hcommitted⟩ | ⟨hnot, e, s', hrun, hdb, hclient⟩
  · rcases hok with hcap | hrefused | ⟨-, hnot⟩ | ⟨-, hinfos⟩
    · obtain ⟨hinert, hcap'⟩ :=
        @registerValidPaths_disabled cfg env infos s hs.client.inert hcap
      rw [hrun] at hinert hcap' ⊢
      exact coherent_of_inert hcommitted.wellFormed hinert hcap'
    · obtain ⟨i, hi, hnot⟩ := exists_not_passesChecks hrefused
      exact absurd (haccepts.passesChecks i hi) hnot
    · exact absurd haccepts hnot
    · rw [hrun]
      exact coherent_of_committed hs hcommitted hinfos
  · have hkept : s'.client = s.client → Coherent cfg s' := by
      intro heq
      refine ⟨hdb ▸ hs.wellFormed, ?_⟩
      rw [heq, hdb]
      exact hs.client
    rcases hok with hcap | hrefused | ⟨hall, -⟩ | ⟨haccepts, -⟩
    · obtain ⟨hinert, hcap'⟩ :=
        @registerValidPaths_disabled cfg env infos s hs.client.inert hcap
      rw [hrun] at hinert hcap' ⊢
      exact coherent_of_inert (hdb ▸ hs.wellFormed) hinert hcap'
    · rw [hrun]
      exact hkept (hclient (.inr hrefused))
    · rw [hrun]
      exact hkept (hclient (.inl hall))
    · exact absurd haccepts hnot

/-- The condition on a step: registrations keep the cache in step. -/
def StepKeepsStep (cfg : LocalStoreConfig) (s : LocalStore) : Operation → Prop
  | .registerValidPaths env infos => KeepsStep cfg env s infos.elems
  | .invalidatePathChecked _ => True
  | .queryPathInfo _ _ => True
  | .isValidPath _ _ => True

theorem coherent_step (s : LocalStore) (o : Operation) (hs : Coherent cfg s)
    (hok : StepKeepsStep cfg s o) : Coherent cfg (step cfg s o).2 := by
  cases o with
  | registerValidPaths env infos => exact coherent_registerValidPaths hs hok
  | invalidatePathChecked p => exact coherent_invalidatePathChecked hs p
  | queryPathInfo clock p => exact (coherent_queryPathInfo hs clock p).2
  | isValidPath clock p => exact (coherent_isValidPath hs clock p).2

/-- In a run whose registrations keep the cache in step, every answer is the one of
the committed tables. -/
theorem answersFromTables_of_keepsStep {s : LocalStore} (hs : Opened s) (ops : List Operation)
    (hok : Admits (step cfg) (StepKeepsStep cfg) s ops) :
    AnswersFromTables cfg (run (step cfg) s ops) :=
  answers_of_coherent (run_invariant coherent_step hs.coherent hok)

def sampleDirs : StoreDirConfig where
  storeDir := str "/nix/store"
  canonical := canonical_nixStore
  sha256 _ := ⟨List.replicate 32 0, length_zeros⟩

/-- Hashes are printed with their algorithm. The samples have neither signatures
nor content addresses. -/
def sampleText : ColumnText where
  renderHash h := h.toBase16 true
  parseHash s :=
    match splitPrefixTo 58 s with
    | some (type, rest) => do
        let algo ← parseHashAlgo (fun _ => false) type
        parseNonSRIUnprefixed (fun _ => false) rest algo
    | none => .error ⟨.badHash, ⟨"hash '%s' does not include a type", [s]⟩⟩
  renderSigs sigs := sigs.elems.flatMap fun sig => sig.keyName ++ str ":" ++ sig.sig ++ str " "
  parseSigs _ := .ok .empty
  renderContentAddress _ := .ok []
  parseContentAddress _ := .ok none
  parseStorePath := sampleDirs.parseStorePath

def sampleConfig : LocalStoreConfig := ⟨sampleDirs.storeDir, ⟨3600, 86400⟩, sampleText⟩

theorem checkBaseName_samplePath :
    checkBaseName (List.replicate 32 97 ++ str "-foo") = .ok () := by
  decide

def samplePath : StorePath := ⟨_, checkBaseName_samplePath⟩

def missingPath : StorePath := ⟨List.replicate 32 98 ++ str "-bar", by decide⟩

def sampleInfo (references : List StorePath) : ValidPathInfo where
  path := samplePath
  storeDir := sampleDirs.storeDir
  narHash := ⟨.sha256, List.replicate 32 0, length_zeros⟩
  references := .ofList references
  registrationTime := 1

def sampleInfos (references : List StorePath) : ValidPathInfos :=
  ⟨[sampleInfo references], List.pairwise_singleton _ _⟩

def sampleSurroundings : Surroundings := ⟨fun _ => true, fun _ => .ok (), fun _ => 0, fun _ => 0⟩

def sampleClock : Clock := ⟨0, 0, 0⟩

def emptyStore : LocalStore := ⟨{}, ⟨⟨65536, [], [], 0⟩, none⟩⟩

theorem opened_emptyStore : Opened emptyStore :=
  ⟨Database.wellFormed_empty, rfl⟩

theorem readsBack_sampleInfo :
    ReadsBack sampleConfig sampleSurroundings (sampleInfo [samplePath]) := by
  rintro columns hcolumns
  cases hcolumns
  decide

theorem accepts_sampleInfo :
    Accepts sampleConfig sampleSurroundings {} [sampleInfo [samplePath]] := by
  refine ⟨?_, ?_, [samplePath], by decide⟩
  · intro info hinfo
    rw [List.mem_singleton.mp hinfo]
    exact ⟨_, rfl, rfl, fun _ => rfl, fun _ hdrv => absurd hdrv (by decide)⟩
  · decide

/-- A path that refers to itself is registered and looked up. -/
theorem answersFromTables_of_keepsStep_sample :
    AnswersFromTables sampleConfig (run (step sampleConfig) emptyStore
      [.isValidPath sampleClock samplePath,
        .registerValidPaths sampleSurroundings (sampleInfos [samplePath]),
        .queryPathInfo sampleClock samplePath]) := by
  refine answersFromTables_of_keepsStep opened_emptyStore _ ⟨trivial, ?_, trivial, trivial⟩
  refine .inr (.inr (.inr ⟨accepts_sampleInfo, ?_⟩))
  intro info hinfo
  rw [show info = sampleInfo [samplePath] from List.mem_singleton.mp hinfo]
  exact ⟨fun _ => readsBack_sampleInfo, fun hvalid => absurd hvalid (by decide)⟩

/-- The registration of a path with a missing reference is rolled back, and its info
stays in the cache. -/
theorem not_answersFromTables_missing :
    ¬ ∀ (cfg : LocalStoreConfig) (s : LocalStore), Opened s → ∀ ops,
      AnswersFromTables cfg (run (step cfg) s ops) := by
  intro h
  have hmissing := (h sampleConfig emptyStore opened_emptyStore
    [.registerValidPaths sampleSurroundings (sampleInfos [missingPath])]
    sampleClock samplePath).1
  have hanswer : (isValidPath sampleConfig sampleClock samplePath
      (run (step sampleConfig) emptyStore
        [.registerValidPaths sampleSurroundings (sampleInfos [missingPath])])).1 = .ok true := rfl
  have htables : isValidPath_ sampleConfig (run (step sampleConfig) emptyStore
      [.registerValidPaths sampleSurroundings (sampleInfos [missingPath])]).db samplePath =
        false := by decide
  rw [hanswer, htables] at hmissing
  cases hmissing

end Nix.Store.PathInfoCoherence
