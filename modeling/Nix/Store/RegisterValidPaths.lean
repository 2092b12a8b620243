import Nix.Store.LocalStores

set_option linter.dupNamespace false

namespace Nix.Store.RegisterValidPaths

open Util.Types Util.LruCaches Util.TopoSort Lib.SortedList Store.Path Store.PathInfo Store.StoreApi
  Store.ValidPathsDb Store.LocalStores

variable {cfg : LocalStoreConfig} {env : Surroundings}

theorem forEach_cons_ok {α : Type} {f : α → Action} {a : α} {l : List α} {s s' : LocalStore}
    (h : f a s = (.ok (), s')) : forEach f (a :: l) s = forEach f l s' := by
  rw [forEach, Action.andThen, h]

theorem forEach_cons_error {α : Type} {f : α → Action} {a : α} {l : List α} {s s' : LocalStore}
    {e : Error} (h : f a s = (.error e, s')) : forEach f (a :: l) s = (.error e, s') := by
  rw [forEach, Action.andThen, h]

theorem forEach_preserves {α : Type} {P : LocalStore → Prop} {f : α → Action} {l : List α}
    (hf : ∀ a ∈ l, ∀ s, P s → P (f a s).2) {s : LocalStore} (hs : P s) :
    P (forEach f l s).2 := by
  induction l generalizing s with
  | nil => exact hs
  | cons a l ih =>
      have ha := hf a (by simp) s hs
      rcases h : f a s with ⟨r, s'⟩
      rw [h] at ha
      cases r with
      | error e => rwa [forEach_cons_error h]
      | ok _ =>
          rw [forEach_cons_ok h]
          exact ih (fun b hb => hf b (by simp [hb])) ha

theorem isValidPath_eq_view (db : Database) (p : StorePath) :
    isValidPath_ cfg db p = (db.view (print cfg p)).isSome := by
  simp [isValidPath_, Database.view]

theorem isValidPath_congr {db db' : Database} {p : StorePath}
    (h : db'.view (print cfg p) = db.view (print cfg p)) :
    isValidPath_ cfg db' p = isValidPath_ cfg db p := by
  rw [isValidPath_eq_view, isValidPath_eq_view, h]

theorem print_injective : Function.Injective (print cfg) :=
  printStorePath_injective cfg.storeDir

/-- The info passes the checks of the first loop, with the given columns. -/
structure Admissible (cfg : LocalStoreConfig) (env : Surroundings) (db : Database)
    (info : ValidPathInfo) (columns : InfoColumns) : Prop where
  algo : info.narHash.algo = .sha256
  columns : infoColumns cfg info = .ok columns
  contentAddress : isValidPath_ cfg db info.path = false →
    checkContentAddress cfg env info = .ok ()
  derivation : isValidPath_ cfg db info.path = false → info.path.isDerivation = true →
    env.checkDerivation info = .ok ()

def PassesChecks (cfg : LocalStoreConfig) (env : Surroundings) (db : Database)
    (info : ValidPathInfo) : Prop :=
  ∃ columns, Admissible cfg env db info columns

theorem passesChecks_congr {db db' : Database} {info : ValidPathInfo}
    (h : isValidPath_ cfg db' info.path = isValidPath_ cfg db info.path) :
    PassesChecks cfg env db' info ↔ PassesChecks cfg env db info := by
  constructor
  · rintro ⟨columns, ha, hc, hca, hd⟩
    exact ⟨columns, ha, hc, by rwa [h] at hca, by rwa [h] at hd⟩
  · rintro ⟨columns, ha, hc, hca, hd⟩
    exact ⟨columns, ha, hc, by rwa [← h] at hca, by rwa [← h] at hd⟩

/-- What the tables say about a path once its info is registered. -/
def registeredView (cfg : LocalStoreConfig) (env : Surroundings) (info : ValidPathInfo)
    (columns : InfoColumns) : Option (RowValue × List Bytes) → RowValue × List Bytes
  | none => (rowValue cfg env info columns, [])
  | some (value, references) => ({ value with info := columns }, references)

def registeredCache (cfg : LocalStoreConfig) (env : Surroundings) (info : ValidPathInfo)
    (s : LocalStore) : Client Empty ValidPathInfo :=
  if isValidPath_ cfg s.db info.path then s.client
  else { s.client with
    pathInfoCache := s.client.pathInfoCache.upsert info.path ⟨env.stamp info.path, some info⟩ }

structure Registered (cfg : LocalStoreConfig) (env : Surroundings) (info : ValidPathInfo)
    (columns : InfoColumns) (s s' : LocalStore) : Prop where
  wellFormed : s'.db.WellFormed
  other : ∀ path, path ≠ print cfg info.path → s'.db.view path = s.db.view path
  self : s'.db.view (print cfg info.path) =
    some (registeredView cfg env info columns (s.db.view (print cfg info.path)))
  client : s'.client = registeredCache cfg env info s

theorem registerInfo_of_admissible {info : ValidPathInfo} {columns : InfoColumns}
    {s : LocalStore} (hs : s.db.WellFormed) (h : Admissible cfg env s.db info columns) :
    ∃ s', registerInfo cfg env info s = (.ok (), s') ∧ Registered cfg env info columns s s' := by
  have hview := @isValidPath_eq_view cfg s.db info.path
  rw [registerInfo, if_neg (by simp [h.algo])]
  by_cases hvalid : isValidPath_ cfg s.db info.path = true
  · rw [if_pos hvalid, updatePathInfo, h.columns]
    rw [hvalid, eq_comm, Option.isSome_iff_exists] at hview
    obtain ⟨⟨value, references⟩, hview⟩ := hview
    refine ⟨_, rfl, hs.updatePathInfo, ?_, ?_, ?_⟩
    · exact fun path hne => Database.view_updatePathInfo_of_ne hne
    · rw [Database.view_updatePathInfo_self hview, hview, registeredView]
    · rw [registeredCache, if_pos hvalid]
  · rw [if_neg hvalid]
    have hnew : isValidPath_ cfg s.db info.path = false := by simpa using hvalid
    have hrow : s.db.queryPathInfo (print cfg info.path) = none := by
      simpa [isValidPath_] using hnew
    have hderivation : (if info.path.isDerivation then env.checkDerivation info
        else Except.ok ()) = .ok () := by
      split
      next hdrv => exact h.derivation hnew hdrv
      next => rfl
    simp only [addValidPath, h.contentAddress hnew, h.columns, hderivation, bind, Except.bind]
    refine ⟨_, rfl, hs.registerValidPath hrow, ?_, ?_, ?_⟩
    · exact fun path hne => Database.view_registerValidPath_of_ne hs hne
    · rw [Database.view_registerValidPath_self hs hrow, Database.view_eq_none.mpr hrow,
        registeredView]
    · rw [registeredCache, if_neg hvalid]

theorem registerInfo_of_not_passesChecks {info : ValidPathInfo} {s : LocalStore}
    (h : ¬ PassesChecks cfg env s.db info) :
    ∃ e s', registerInfo cfg env info s = (.error e, s') ∧ s'.client = s.client := by
  unfold registerInfo
  split
  · exact ⟨_, s, rfl, rfl⟩
  next halgo =>
    have halgo' : info.narHash.algo = .sha256 := by simpa using halgo
    split
    next hvalid =>
      unfold updatePathInfo
      split
      next e _ => exact ⟨e, s, rfl, rfl⟩
      next columns hcolumns =>
        refine absurd ⟨columns, halgo', hcolumns, ?_, ?_⟩ h <;> simp [hvalid]
    next hvalid =>
      unfold addValidPath
      split
      next e _ => exact ⟨e, s, rfl, rfl⟩
      next columns hcolumns =>
        dsimp only
        split
        next e _ => exact ⟨e, _, rfl, rfl⟩
        next hderivation =>
          cases hca : checkContentAddress cfg env info with
          | error e => simp [hca, bind, Except.bind] at hcolumns
          | ok _ =>
              refine absurd ⟨columns, halgo', ?_, fun _ => hca, ?_⟩ h
              · simpa [hca, bind, Except.bind] using hcolumns
              · intro _ hdrv
                simpa [hdrv] using hderivation

def RefusedEarly (cfg : LocalStoreConfig) (env : Surroundings) (db : Database) :
    List ValidPathInfo → Prop
  | [] => False
  | info :: infos =>
      ¬ PassesChecks cfg env db info ∨
        (isValidPath_ cfg db info.path = true ∧ RefusedEarly cfg env db infos)

theorem refusedEarly_congr {db db' : Database} {infos : List ValidPathInfo}
    (h : ∀ info ∈ infos, isValidPath_ cfg db' info.path = isValidPath_ cfg db info.path) :
    RefusedEarly cfg env db' infos ↔ RefusedEarly cfg env db infos := by
  induction infos with
  | nil => exact Iff.rfl
  | cons info infos ih =>
      have hinfo := h info (by simp)
      rw [RefusedEarly, RefusedEarly, passesChecks_congr hinfo, hinfo,
        ih fun i hi => h i (by simp [hi])]

theorem exists_not_passesChecks {db : Database} {infos : List ValidPathInfo}
    (h : RefusedEarly cfg env db infos) : ∃ info ∈ infos, ¬ PassesChecks cfg env db info := by
  induction infos with
  | nil => exact h.elim
  | cons info infos ih =>
      rcases h with h | ⟨-, h⟩
      · exact ⟨info, by simp, h⟩
      · obtain ⟨i, hi, hnot⟩ := ih h
        exact ⟨i, by simp [hi], hnot⟩

structure RegisteredAll (cfg : LocalStoreConfig) (env : Surroundings)
    (infos : List ValidPathInfo) (s s' : LocalStore) : Prop where
  wellFormed : s'.db.WellFormed
  other : ∀ path, (∀ info ∈ infos, path ≠ print cfg info.path) →
    s'.db.view path = s.db.view path
  self : ∀ info ∈ infos, ∃ columns, infoColumns cfg info = .ok columns ∧
    s'.db.view (print cfg info.path) =
      some (registeredView cfg env info columns (s.db.view (print cfg info.path)))
  unchanged : (∀ info ∈ infos, isValidPath_ cfg s.db info.path = true) → s'.client = s.client
  memory : s.client.pathInfoCache.Inert →
    s'.client.pathInfoCache.Inert ∧ ∀ q v, s'.client.pathInfoCache.value? q = some v →
      (∃ info ∈ infos, isValidPath_ cfg s.db info.path = false ∧ info.path = q ∧
        v.value = some info) ∨
      (s.client.pathInfoCache.value? q = some v ∧
        ∀ info ∈ infos, info.path = q → isValidPath_ cfg s.db q = true)

theorem registeredAll_nil {s : LocalStore} (hs : s.db.WellFormed) :
    RegisteredAll cfg env [] s s :=
  ⟨hs, fun _ _ => rfl, by simp, fun _ => rfl, fun hinert => ⟨hinert, fun _ _ hv =>
    .inr ⟨hv, by simp⟩⟩⟩

theorem registeredAll_cons {info : ValidPathInfo} {infos : List ValidPathInfo}
    {columns : InfoColumns} {s s' s'' : LocalStore}
    (hne : ∀ i ∈ infos, i.path ≠ info.path)
    (hcolumns : infoColumns cfg info = .ok columns)
    (h : Registered cfg env info columns s s') (hall : RegisteredAll cfg env infos s' s'') :
    RegisteredAll cfg env (info :: infos) s s'' := by
  have hprint : ∀ i ∈ infos, print cfg i.path ≠ print cfg info.path :=
    fun i hi heq => hne i hi (print_injective heq)
  have hvalid : ∀ i ∈ infos, isValidPath_ cfg s'.db i.path = isValidPath_ cfg s.db i.path :=
    fun i hi => isValidPath_congr (h.other _ (hprint i hi))
  constructor
  · exact hall.wellFormed
  · intro path hpath
    rw [hall.other path fun i hi => hpath i (by simp [hi]), h.other path (hpath info (by simp))]
  · intro i hi
    rcases List.mem_cons.mp hi with rfl | hi
    · refine ⟨columns, hcolumns, ?_⟩
      rw [hall.other _ fun j hj => (hprint j hj).symm, h.self]
    · obtain ⟨columns', hcolumns', hview⟩ := hall.self i hi
      exact ⟨columns', hcolumns', by rw [hview, h.other _ (hprint i hi)]⟩
  · intro hallvalid
    rw [hall.unchanged fun i hi => by rw [hvalid i hi]; exact hallvalid i (by simp [hi]),
      h.client, registeredCache, if_pos (hallvalid info (by simp))]
  · intro hinert
    have hcache : s'.client.pathInfoCache.Inert ∧ ∀ q v,
        s'.client.pathInfoCache.value? q = some v →
          (isValidPath_ cfg s.db info.path = false ∧ info.path = q ∧ v.value = some info) ∨
          (s.client.pathInfoCache.value? q = some v ∧
            (info.path = q → isValidPath_ cfg s.db q = true)) := by
      rw [h.client, registeredCache]
      split
      next hv => exact ⟨hinert, fun q v hq => .inr ⟨hq, fun heq => heq ▸ hv⟩⟩
      next hv =>
        refine ⟨hinert.upsert _ _, fun q v hq => ?_⟩
        rcases LRUCache.value?_upsert hinert hq with ⟨rfl, rfl⟩ | ⟨hqne, hmem⟩
        · exact .inl ⟨by simpa using hv, rfl, rfl⟩
        · exact .inr ⟨hmem, fun heq => absurd heq.symm hqne⟩
    obtain ⟨hinert', hmem'⟩ := hall.memory hcache.1
    refine ⟨hinert', fun q v hq => ?_⟩
    rcases hmem' q v hq with ⟨i, hi, hinew, hiq, hiv⟩ | ⟨hmem, hrest⟩
    · exact .inl ⟨i, by simp [hi], by rw [← hvalid i hi]; exact hinew, hiq, hiv⟩
    · rcases hcache.2 q v hmem with ⟨hnew, hq', hv⟩ | ⟨hmem, hinfo⟩
      · exact .inl ⟨info, by simp, hnew, hq', hv⟩
      · refine .inr ⟨hmem, fun i hi hiq => ?_⟩
        rcases List.mem_cons.mp hi with rfl | hi
        · exact hinfo hiq
        · have := hrest i hi hiq
          rwa [← hiq, hvalid i hi, hiq] at this

theorem forEach_registerInfo {infos : List ValidPathInfo} {s : LocalStore}
    (hs : s.db.WellFormed) (hnodup : (infos.map ValidPathInfo.path).Nodup) :
    ((∀ info ∈ infos, PassesChecks cfg env s.db info) ∧
      ∃ s', forEach (registerInfo cfg env) infos s = (.ok (), s') ∧
        RegisteredAll cfg env infos s s') ∨
    ((∃ info ∈ infos, ¬ PassesChecks cfg env s.db info) ∧
      ∃ e s', forEach (registerInfo cfg env) infos s = (.error e, s') ∧
        ((∀ info ∈ infos, isValidPath_ cfg s.db info.path = true) ∨
          RefusedEarly cfg env s.db infos → s'.client = s.client)) := by
  induction infos generalizing s with
  | nil => exact .inl ⟨by simp, s, rfl, registeredAll_nil hs⟩
  | cons info infos ih =>
      obtain ⟨hinfo, hnodup⟩ := List.nodup_cons.mp hnodup
      have hne : ∀ i ∈ infos, i.path ≠ info.path :=
        fun i hi heq => hinfo (heq ▸ List.mem_map_of_mem hi)
      by_cases hpasses : PassesChecks cfg env s.db info
      · obtain ⟨columns, hadm⟩ := hpasses
        obtain ⟨s₁, hrun, hreg⟩ := registerInfo_of_admissible hs hadm
        have hvalid : ∀ i ∈ infos,
            isValidPath_ cfg s₁.db i.path = isValidPath_ cfg s.db i.path :=
          fun i hi => isValidPath_congr
            (hreg.other _ fun heq => hne i hi (print_injective heq))
        rw [forEach_cons_ok hrun]
        rcases ih hreg.wellFormed hnodup with ⟨hall, s₂, hrun', hregs⟩ | ⟨⟨i, hi, hnot⟩, e, s₂, hrun', hc⟩
        · refine .inl ⟨?_, s₂, hrun', registeredAll_cons hne hadm.columns hreg hregs⟩
          intro i hi
          rcases List.mem_cons.mp hi with rfl | hi
          · exact ⟨columns, hadm⟩
          · exact (passesChecks_congr (hvalid i hi)).mp (hall i hi)
        · refine .inr ⟨⟨i, by simp [hi], fun h => hnot ((passesChecks_congr (hvalid i hi)).mpr h)⟩,
            e, s₂, hrun', fun hcase => ?_⟩
          have hold : isValidPath_ cfg s.db info.path = true := by
            rcases hcase with hall | hrefused | ⟨hold, -⟩
            · exact hall info (by simp)
            · exact absurd ⟨columns, hadm⟩ hrefused
            · exact hold
          rw [hc, hreg.client, registeredCache, if_pos hold]
          rcases hcase with hall | hrefused | ⟨-, hrefused⟩
          · exact .inl fun i hi => by rw [hvalid i hi]; exact hall i (by simp [hi])
          · exact absurd ⟨columns, hadm⟩ hrefused
          · exact .inr ((refusedEarly_congr hvalid).mpr hrefused)
      · obtain ⟨e, s₁, hrun, hclient⟩ := registerInfo_of_not_passesChecks hpasses
        rw [forEach_cons_error hrun]
        exact .inr ⟨⟨info, by simp, hpasses⟩, e, s₁, rfl, fun _ => hclient⟩

theorem addReference_client (referrer : Nat) (p : StorePath) (s : LocalStore) :
    (addReference cfg referrer p s).2.client = s.client := by
  unfold addReference
  split <;> rfl

theorem addReferences_client (info : ValidPathInfo) (s : LocalStore) :
    (addReferences cfg info s).2.client = s.client := by
  unfold addReferences
  split
  · rfl
  next referrer _ =>
    have hstep : ∀ p ∈ info.references.elems, ∀ t : LocalStore, t.client = s.client →
        (addReference cfg referrer p t).2.client = s.client :=
      fun p _ t ht => (addReference_client referrer p t).trans ht
    exact forEach_preserves hstep rfl

def addTexts (references : List StorePath) (view : RowValue × List Bytes) :
    RowValue × List Bytes :=
  (view.1, (references.map (print cfg)).foldl Database.addText view.2)

/-- One path gets references; nothing else changes. -/
structure Referenced (cfg : LocalStoreConfig) (path : Bytes) (references : List StorePath)
    (s s' : LocalStore) : Prop where
  wellFormed : s'.db.WellFormed
  other : ∀ q, q ≠ path → s'.db.view q = s.db.view q
  self : s'.db.view path = (s.db.view path).map (@addTexts cfg references)

theorem Referenced.isValidPath {path : Bytes} {references : List StorePath} {s s' : LocalStore}
    (h : Referenced cfg path references s s') (p : StorePath) :
    isValidPath_ cfg s'.db p = isValidPath_ cfg s.db p := by
  rw [isValidPath_eq_view, isValidPath_eq_view]
  by_cases hp : print cfg p = path
  · rw [hp, h.self, Option.isSome_map]
  · rw [h.other _ hp]

theorem forEach_addReference {r : Row} {references : List StorePath} {s : LocalStore}
    (hs : s.db.WellFormed) (hr : s.db.queryPathInfo r.path = some r) :
    ((∀ p ∈ references, isValidPath_ cfg s.db p = true) ∧
      ∃ s', forEach (addReference cfg r.id) references s = (.ok (), s') ∧
        Referenced cfg r.path references s s') ∨
    ((∃ p ∈ references, isValidPath_ cfg s.db p = false) ∧
      ∃ e s', forEach (addReference cfg r.id) references s = (.error e, s')) := by
  induction references generalizing s with
  | nil =>
      refine .inl ⟨by simp, s, rfl, hs, fun _ _ => rfl, ?_⟩
      cases hview : s.db.view r.path <;> rfl
  | cons p references ih =>
      cases hrow : s.db.queryPathInfo (print cfg p) with
      | none =>
          have hid : queryValidPathId cfg s.db p = .error (invalidPath cfg p) := by
            rw [queryValidPathId, hrow]
          refine .inr ⟨⟨p, by simp, by rw [isValidPath_, hrow]; rfl⟩, invalidPath cfg p, s, ?_⟩
          exact forEach_cons_error (by rw [addReference, hid])
      | some t =>
          have hid : queryValidPathId cfg s.db p = .ok t.id := by rw [queryValidPathId, hrow]
          obtain ⟨ht, htp⟩ := Database.mem_of_queryPathInfo hrow
          have hrmem := (Database.mem_of_queryPathInfo hr).1
          have hview := Database.view_of_row hr
          have hstep : Referenced cfg r.path [p] s
              { s with db := s.db.addReference r.id t.id } := by
            refine ⟨hs.addReference hrmem ht, ?_, ?_⟩
            · exact fun q hq => Database.view_addReference_of_ne hs hrmem hq
            · rw [Database.view_addReference_self hs hrmem ht hview, hview, htp]
              rfl
          rw [forEach_cons_ok (by rw [addReference, hid])]
          have hvalid : ∀ q, isValidPath_ cfg (s.db.addReference r.id t.id) q =
              isValidPath_ cfg s.db q := hstep.isValidPath
          rcases @ih { s with db := s.db.addReference r.id t.id } hstep.wellFormed
            (Database.queryPathInfo_addReference.trans hr) with
            ⟨hall, s', hrun, href⟩ | ⟨⟨q, hq, hnot⟩, e, s', hrun⟩
          · refine .inl ⟨?_, s', hrun, href.wellFormed, ?_, ?_⟩
            · intro q hq
              rcases List.mem_cons.mp hq with rfl | hq
              · rw [isValidPath_, hrow]
                rfl
              · rw [← hvalid]
                exact hall q hq
            · exact fun q hq => (href.other q hq).trans (hstep.other q hq)
            · rw [href.self, hstep.self, Option.map_map]
              rfl
          · exact .inr ⟨⟨q, by simp [hq], by rw [← hvalid]; exact hnot⟩, e, s', hrun⟩

structure ReferencedAll (cfg : LocalStoreConfig) (infos : List ValidPathInfo)
    (s s' : LocalStore) : Prop where
  wellFormed : s'.db.WellFormed
  other : ∀ path, (∀ info ∈ infos, path ≠ print cfg info.path) →
    s'.db.view path = s.db.view path
  self : ∀ info ∈ infos, s'.db.view (print cfg info.path) =
    (s.db.view (print cfg info.path)).map (@addTexts cfg info.references.elems)

theorem forEach_addReferences {infos : List ValidPathInfo} {s : LocalStore}
    (hs : s.db.WellFormed) (hnodup : (infos.map ValidPathInfo.path).Nodup)
    (hvalid : ∀ info ∈ infos, isValidPath_ cfg s.db info.path = true) :
    ((∀ info ∈ infos, ∀ p ∈ info.references, isValidPath_ cfg s.db p = true) ∧
      ∃ s', forEach (addReferences cfg) infos s = (.ok (), s') ∧
        ReferencedAll cfg infos s s') ∨
    ((∃ info ∈ infos, ∃ p ∈ info.references, isValidPath_ cfg s.db p = false) ∧
      ∃ e s', forEach (addReferences cfg) infos s = (.error e, s')) := by
  induction infos generalizing s with
  | nil => exact .inl ⟨by simp, s, rfl, hs, fun _ _ => rfl, by simp⟩
  | cons info infos ih =>
      obtain ⟨hinfo, hnodup⟩ := List.nodup_cons.mp hnodup
      have hne : ∀ i ∈ infos, print cfg i.path ≠ print cfg info.path :=
        fun i hi heq => hinfo (print_injective heq ▸ List.mem_map_of_mem hi)
      have hrow := hvalid info (by simp)
      rw [isValidPath_, Option.isSome_iff_exists] at hrow
      obtain ⟨r, hr⟩ := hrow
      have hid : queryValidPathId cfg s.db info.path = .ok r.id := by rw [queryValidPathId, hr]
      have hpath := (Database.mem_of_queryPathInfo hr).2
      have hrun : addReferences cfg info s =
          forEach (addReference cfg r.id) info.references.elems s := by
        rw [addReferences, hid]
      rcases @forEach_addReference cfg r info.references.elems s hs (hpath ▸ hr) with
        ⟨hall, s₁, hrun₁, href⟩ | ⟨⟨p, hp, hnot⟩, e, s₁, hrun₁⟩
      · have hvalid₁ := href.isValidPath
        rw [forEach_cons_ok (hrun.trans hrun₁)]
        rw [hpath] at href
        rcases ih href.wellFormed hnodup
          (fun i hi => by rw [hvalid₁]; exact hvalid i (by simp [hi])) with
          ⟨hall', s₂, hrun₂, hrefs⟩ | ⟨⟨i, hi, p, hp, hnot⟩, e, s₂, hrun₂⟩
        · refine .inl ⟨?_, s₂, hrun₂, hrefs.wellFormed, ?_, ?_⟩
          · intro i hi p hp
            rcases List.mem_cons.mp hi with rfl | hi
            · exact hall p hp
            · rw [← hvalid₁]
              exact hall' i hi p hp
          · intro path hpath'
            rw [hrefs.other path fun i hi => hpath' i (by simp [hi]),
              href.other path (hpath' info (by simp))]
          · intro i hi
            rcases List.mem_cons.mp hi with rfl | hi
            · rw [hrefs.other _ fun j hj => (hne j hj).symm, href.self]
            · rw [hrefs.self i hi, href.other _ (hne i hi)]
        · exact .inr ⟨⟨i, by simp [hi], p, hp, by rw [← hvalid₁]; exact hnot⟩, e, s₂, hrun₂⟩
      · refine .inr ⟨⟨info, by simp, p, hp, hnot⟩, e, s₁, ?_⟩
        exact forEach_cons_error (hrun.trans hrun₁)

/-- The call reaches its commit. -/
structure Accepts (cfg : LocalStoreConfig) (env : Surroundings) (db : Database)
    (infos : List ValidPathInfo) : Prop where
  passesChecks : ∀ info ∈ infos, PassesChecks cfg env db info
  references : ∀ info ∈ infos, ∀ p ∈ info.references,
    isValidPath_ cfg db p = true ∨ p ∈ infos.map ValidPathInfo.path
  acyclic : ∃ order,
    topoSort (infos.map ValidPathInfo.path) (batchReferences infos) = .ok (.inl order)

theorem checkCycles_eq_ok {infos : List ValidPathInfo} :
    checkCycles cfg infos = .ok () ↔ ∃ order,
      topoSort (infos.map ValidPathInfo.path) (batchReferences infos) = .ok (.inl order) := by
  unfold checkCycles
  split
  next order h => simp [h]
  next cycle h => simp [h]
  next e h => simp [h]

theorem registerInfo_cache (info : ValidPathInfo) (s : LocalStore) :
    (registerInfo cfg env info s).2.client.pathInfoCache = s.client.pathInfoCache ∨
      (registerInfo cfg env info s).2.client.pathInfoCache =
        s.client.pathInfoCache.upsert info.path ⟨env.stamp info.path, some info⟩ := by
  unfold registerInfo
  split
  · exact .inl rfl
  · split
    · unfold updatePathInfo
      split <;> exact .inl rfl
    · unfold addValidPath
      split
      · exact .inl rfl
      · dsimp only
        split
        · exact .inl rfl
        · exact .inr rfl

theorem registerValidPaths_disabled (infos : ValidPathInfos) {s : LocalStore}
    (hinert : s.client.pathInfoCache.Inert) (hcap : s.client.pathInfoCache.capacity = 0) :
    (registerValidPaths cfg env infos s).2.client.pathInfoCache.Inert ∧
      (registerValidPaths cfg env infos s).2.client.pathInfoCache.capacity = 0 := by
  have hregister : ∀ info ∈ infos.elems, ∀ t : LocalStore,
      (t.client.pathInfoCache.Inert ∧ t.client.pathInfoCache.capacity = 0) →
      (registerInfo cfg env info t).2.client.pathInfoCache.Inert ∧
        (registerInfo cfg env info t).2.client.pathInfoCache.capacity = 0 := by
    rintro info - t ⟨hi, hc⟩
    rcases @registerInfo_cache cfg env info t with h | h
    · rw [h]
      exact ⟨hi, hc⟩
    · rw [h, LRUCache.upsert_capacity]
      exact ⟨hi.upsert _ _, hc⟩
  have hrefs : ∀ t : LocalStore,
      (forEach (addReferences cfg) infos.elems t).2.client = t.client := fun t =>
    forEach_preserves (fun info _ u hu => (addReferences_client info u).trans hu) rfl
  have hfirst := forEach_preserves hregister ⟨hinert, hcap⟩
  unfold registerValidPaths transaction Action.andThen
  rcases h₁ : forEach (registerInfo cfg env) infos.elems s with ⟨r₁, s₁⟩
  rw [h₁] at hfirst
  cases r₁ with
  | error e => exact hfirst
  | ok _ =>
      have hsecond := hrefs s₁
      rcases h₂ : forEach (addReferences cfg) infos.elems s₁ with ⟨r₂, s₂⟩
      rw [h₂] at hsecond
      dsimp only at hsecond hfirst ⊢
      rw [h₂]
      rw [← hsecond] at hfirst
      cases r₂ with
      | error e => exact hfirst
      | ok _ =>
          dsimp only
          cases checkCycles cfg infos.elems with
          | error e => exact hfirst
          | ok _ => exact hfirst

/-- What a successful call does to the tables and to the cache. -/
structure Committed (cfg : LocalStoreConfig) (env : Surroundings) (infos : List ValidPathInfo)
    (s s' : LocalStore) : Prop where
  wellFormed : s'.db.WellFormed
  other : ∀ path, (∀ info ∈ infos, path ≠ print cfg info.path) →
    s'.db.view path = s.db.view path
  self : ∀ info ∈ infos, ∃ columns, infoColumns cfg info = .ok columns ∧
    s'.db.view (print cfg info.path) = some (@addTexts cfg info.references.elems
      (registeredView cfg env info columns (s.db.view (print cfg info.path))))
  memory : s.client.pathInfoCache.Inert →
    s'.client.pathInfoCache.Inert ∧ ∀ q v, s'.client.pathInfoCache.value? q = some v →
      (∃ info ∈ infos, isValidPath_ cfg s.db info.path = false ∧ info.path = q ∧
        v.value = some info) ∨
      (s.client.pathInfoCache.value? q = some v ∧
        ∀ info ∈ infos, info.path = q → isValidPath_ cfg s.db q = true)

theorem RegisteredAll.isValidPath {infos : List ValidPathInfo} {s s' : LocalStore}
    (h : RegisteredAll cfg env infos s s') (p : StorePath) :
    isValidPath_ cfg s'.db p = true ↔
      isValidPath_ cfg s.db p = true ∨ p ∈ infos.map ValidPathInfo.path := by
  by_cases hp : p ∈ infos.map ValidPathInfo.path
  · obtain ⟨info, hinfo, rfl⟩ := List.mem_map.mp hp
    obtain ⟨columns, -, hview⟩ := h.self info hinfo
    rw [isValidPath_eq_view, hview]
    simp [hp]
  · have hview : s'.db.view (print cfg p) = s.db.view (print cfg p) :=
      h.other _ fun info hi heq => hp (print_injective heq ▸ List.mem_map_of_mem hi)
    rw [isValidPath_congr hview]
    simp [hp]

theorem registerValidPaths_spec (infos : ValidPathInfos) {s : LocalStore}
    (hs : s.db.WellFormed) :
    (Accepts cfg env s.db infos.elems ∧
      ∃ s', registerValidPaths cfg env infos s = (.ok (), s') ∧
        Committed cfg env infos.elems s s') ∨
    (¬ Accepts cfg env s.db infos.elems ∧
      ∃ e s', registerValidPaths cfg env infos s = (.error e, s') ∧ s'.db = s.db ∧
        ((∀ info ∈ infos.elems, isValidPath_ cfg s.db info.path = true) ∨
          RefusedEarly cfg env s.db infos.elems → s'.client = s.client)) := by
  have hnodup := infos.nodup_paths
  unfold registerValidPaths transaction Action.andThen
  rcases @forEach_registerInfo cfg env _ _ hs hnodup with
    ⟨hpasses, s₁, hrun₁, hreg⟩ | ⟨⟨i, hi, hnot⟩, e, s₁, hrun₁, hclient⟩
  · have hvalid : ∀ info ∈ infos.elems, isValidPath_ cfg s₁.db info.path = true :=
      fun info hi => (hreg.isValidPath _).mpr (.inr (List.mem_map_of_mem hi))
    have hkept : (∀ info ∈ infos.elems, isValidPath_ cfg s.db info.path = true) ∨
        RefusedEarly cfg env s.db infos.elems → s₁.client = s.client := by
      rintro (hall | hrefused)
      · exact hreg.unchanged hall
      · obtain ⟨i, hi, hnot⟩ := exists_not_passesChecks hrefused
        exact absurd (hpasses i hi) hnot
    rw [hrun₁]
    dsimp only
    have hclient : (forEach (addReferences cfg) infos.elems s₁).2.client = s₁.client :=
      forEach_preserves (fun info _ t ht => (addReferences_client info t).trans ht) rfl
    rcases forEach_addReferences hreg.wellFormed hnodup hvalid with
      ⟨hrefs, s₂, hrun₂, href⟩ | ⟨⟨i, hi, p, hp, hnot⟩, e, s₂, hrun₂⟩
    · rw [hrun₂] at hclient ⊢
      dsimp only at hclient ⊢
      cases hcycles : checkCycles cfg infos.elems with
      | error e =>
          refine .inr ⟨fun h => ?_, e, _, rfl, rfl, fun hcase => hclient.trans (hkept hcase)⟩
          rw [checkCycles_eq_ok.mpr h.acyclic] at hcycles
          cases hcycles
      | ok _ =>
          refine .inl ⟨⟨hpasses, ?_, checkCycles_eq_ok.mp hcycles⟩, s₂, rfl, href.wellFormed,
            ?_, ?_, ?_⟩
          · exact fun i hi p hp => (hreg.isValidPath p).mp (hrefs i hi p hp)
          · exact fun path hpath => (href.other path hpath).trans (hreg.other path hpath)
          · intro i hi
            obtain ⟨columns, hcolumns, hview⟩ := hreg.self i hi
            exact ⟨columns, hcolumns, by rw [href.self i hi, hview, Option.map_some]⟩
          · rw [hclient]
            exact hreg.memory
    · rw [hrun₂] at hclient ⊢
      refine .inr ⟨fun h => ?_, e, _, rfl, rfl, fun hcase => hclient.trans (hkept hcase)⟩
      rw [(hreg.isValidPath p).mpr (h.references i hi p hp)] at hnot
      cases hnot
  · rw [hrun₁]
    exact .inr ⟨fun h => hnot (h.passesChecks i hi), e, _, rfl, rfl, hclient⟩

end Nix.Store.RegisterValidPaths
