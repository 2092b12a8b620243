import Nix.Lib.Graphs
import Nix.Lib.Transitions
import Nix.Store.PathInfoCoherence
import Nix.Store.ValidPathsGraph

set_option linter.dupNamespace false

namespace Nix.Store.LocalOverlayStores

open Relation
open Util.Types Util.LruCaches Util.TopoSort Lib.Graphs Lib.Machine Lib.SortedList Lib.Table
  Store.Path Store.PathInfo Store.StoreApi Store.ValidPathsDb Store.LocalStores
  Store.RegisterValidPaths Store.PathInfoCoherence Store.ValidPathsGraph

/-- The valid paths of the lower store, which are closed under references. -/
structure LowerStore where
  infos : ValidPathInfos
  closed : ∀ info ∈ infos.elems, ∀ r ∈ info.references, r ∈ infos.elems.map ValidPathInfo.path

def LowerStore.lookup (lower : LowerStore) (p : StorePath) : Option ValidPathInfo :=
  select ValidPathInfo.path lower.infos.elems p

theorem path_of_lookup {lower : LowerStore} {p : StorePath} {info : ValidPathInfo}
    (h : lower.lookup p = some info) : info.path = p :=
  key_of_select h

theorem isSome_lookup {lower : LowerStore} {p : StorePath}
    (h : p ∈ lower.infos.elems.map ValidPathInfo.path) : (lower.lookup p).isSome = true := by
  rw [Option.isSome_iff_ne_none]
  exact fun hnone => select_eq_none.mp hnone h

/-- The infos of paths that are valid in the lower store only. -/
def inLower (cfg : LocalStoreConfig) (lower : LowerStore) (db : Database)
    (infos : ValidPathInfos) : ValidPathInfos where
  elems := infos.elems.filterMap fun info =>
    if isValidPath_ cfg db info.path then none else lower.lookup info.path
  sorted := by
    refine infos.sorted.filterMap _ ?_
    intro i j hij i' hi' j' hj'
    split at hi'
    · cases hi'
    · split at hj'
      · cases hj'
      · show StorePath.cmp i'.path j'.path = .lt
        rw [path_of_lookup hi', path_of_lookup hj']
        exact hij

section Operations

variable (cfg : LocalStoreConfig) (lower : LowerStore)

/-- The virtual methods of `LocalOverlayStore`, as far as queries for infos use
them. The lower store throws for a path that it does not have. -/
def vtable (db : Database) : StoreVtable Empty ValidPathInfo :=
  { LocalStores.vtable cfg db with
    queryPathInfoUncached := fun p =>
      match queryPathInfoInternal cfg db p with
      | .error e => .error e
      | .ok (some info) => .ok (some info)
      | .ok none =>
          match lower.lookup p with
          | some info => .ok (some info)
          | none => .error (invalidPath cfg p) }

def queryPathInfo (clock : Clock) (p : StorePath) (s : LocalStore) :
    Except Error ValidPathInfo × LocalStore :=
  let (r, client) := (vtable cfg lower s.db).queryPathInfo clock p s.client
  (r, { s with client })

/-- First register what the lower store has, then do the original request. -/
def registerValidPaths (env : Surroundings) (infos : ValidPathInfos) : Action := fun s =>
  (LocalStores.registerValidPaths cfg env (inLower cfg lower s.db infos)).andThen
    (LocalStores.registerValidPaths cfg env infos) s

def registerValidPath (env : Surroundings) (info : ValidPathInfo) : Action :=
  registerValidPaths cfg lower env ⟨[info], List.pairwise_singleton _ _⟩

/-- `a; return b`. -/
def returning (a : Action) (b : Bool) (s : LocalStore) : Except Error Bool × LocalStore :=
  match a s with
  | (.ok (), s) => (.ok b, s)
  | (.error e, s) => (.error e, s)

/-- `isValidPath` with `isValidPathUncached`, which call each other down to the given
depth. The clock is the one at the time when a path is asked for. -/
def isValidPath (clock : StorePath → Clock) (env : Surroundings) :
    Nat → StorePath → LocalStore → Except Error Bool × LocalStore
  | 0, _, s => (.error .diverges, s)
  | fuel + 1, p, s =>
      let (known, client) := (vtable cfg lower s.db).getKnown (clock p) p s.client
      let s := { s with client }
      match known with
      | some v => (.ok v.didExist, s)
      | none =>
          if isValidPath_ cfg s.db p then (.ok true, s)
          else
            match lower.lookup p with
            | none => (.ok false, s)
            | some info =>
                let sync : StorePath → Action := fun r s =>
                  if r ≠ p then
                    match isValidPath clock env fuel r s with
                    | (.ok _, s) => (.ok (), s)
                    | (.error e, s) => (.error e, s)
                  else (.ok (), s)
                returning ((forEach sync info.references.elems).andThen
                  (registerValidPath cfg lower env info)) true s

/-- References lead to as many paths as the lower store has, or in a circle. -/
def depth (lower : LowerStore) : Nat :=
  lower.infos.elems.length + 1

end Operations

inductive Query
  | queryPathInfo (clock : Clock) (p : StorePath)
  | isValidPath (clock : StorePath → Clock) (env : Surroundings) (p : StorePath)

inductive Answer
  | info (r : Except Error ValidPathInfo)
  | valid (r : Except Error Bool)

def step (cfg : LocalStoreConfig) (lower : LowerStore) (s : LocalStore) :
    Query → Answer × LocalStore
  | .queryPathInfo clock p => (queryPathInfo cfg lower clock p s).map .info id
  | .isValidPath clock env p => (isValidPath cfg lower clock env (depth lower) p s).map .valid id

variable {cfg : LocalStoreConfig} {lower : LowerStore}

def inStore (cfg : LocalStoreConfig) (lower : LowerStore) (s : LocalStore) (p : StorePath) : Bool :=
  isValidPath_ cfg s.db p || (lower.lookup p).isSome

/-- Every cached path is registered in the upper database. -/
structure Synced (cfg : LocalStoreConfig) (s : LocalStore) : Prop where
  wellFormed : s.db.WellFormed
  inert : s.client.pathInfoCache.Inert
  cached : ∀ q v, s.client.pathInfoCache.value? q = some v →
    v.didExist = true ∧ isValidPath_ cfg s.db q = true

/-- New paths of the upper database are paths of the lower store, and come with their
references. -/
structure Extends (cfg : LocalStoreConfig) (lower : LowerStore) (s s' : LocalStore) : Prop where
  synced : Synced cfg s'
  old : ∀ q, isValidPath_ cfg s.db q = true → s'.db.view (print cfg q) = s.db.view (print cfg q)
  new : ∀ q, isValidPath_ cfg s.db q = false → isValidPath_ cfg s'.db q = true →
    ∃ info, lower.lookup q = some info ∧ ∀ r ∈ info.references, isValidPath_ cfg s'.db r = true

theorem Extends.refl {s : LocalStore} (h : Synced cfg s) : Extends cfg lower s s :=
  ⟨h, fun _ _ => rfl, fun q hq hq' => by simp [hq] at hq'⟩

theorem Extends.mono {s s' : LocalStore} (h : Extends cfg lower s s') {q : StorePath}
    (hq : isValidPath_ cfg s.db q = true) : isValidPath_ cfg s'.db q = true :=
  (isValidPath_congr (h.old q hq)).trans hq

theorem Extends.trans {s t u : LocalStore} (h : Extends cfg lower s t)
    (h' : Extends cfg lower t u) : Extends cfg lower s u := by
  refine ⟨h'.synced, fun q hq => (h'.old q (h.mono hq)).trans (h.old q hq), fun q hs hu => ?_⟩
  cases ht : isValidPath_ cfg t.db q with
  | false => exact h'.new q ht hu
  | true =>
      obtain ⟨info, hinfo, hrefs⟩ := h.new q hs ht
      exact ⟨info, hinfo, fun r hr => h'.mono (hrefs r hr)⟩

theorem Extends.inStore {s s' : LocalStore} (h : Extends cfg lower s s') (q : StorePath) :
    inStore cfg lower s' q = inStore cfg lower s q := by
  unfold LocalOverlayStores.inStore
  cases hs : isValidPath_ cfg s.db q with
  | true => rw [h.mono hs]
  | false =>
      cases hs' : isValidPath_ cfg s'.db q with
      | false => rfl
      | true =>
          obtain ⟨info, hinfo, -⟩ := h.new q hs hs'
          rw [hinfo]
          rfl

theorem extends_client {s : LocalStore} (hs : Synced cfg s) {client : Client Empty ValidPathInfo}
    (hinert : client.pathInfoCache.Inert)
    (hvalue : ∀ q, client.pathInfoCache.value? q = s.client.pathInfoCache.value? q) :
    Extends cfg lower s { s with client } :=
  ⟨⟨hs.wellFormed, hinert, fun q v hv => hs.cached q v ((hvalue q).symm.trans hv)⟩,
    fun _ _ => rfl, fun q hq hq' => by
      have hfalse : isValidPath_ cfg s.db q = true := hq'
      simp [hq] at hfalse⟩

theorem passesChecks_of_empty {env : Surroundings} {db : Database} {info : ValidPathInfo}
    (h : PassesChecks cfg env {} info) : PassesChecks cfg env db info := by
  obtain ⟨columns, hadm⟩ := h
  exact ⟨columns, hadm.algo, hadm.columns, fun _ => hadm.contentAddress rfl,
    fun _ => hadm.derivation rfl⟩

theorem isValidPath_of_committed {env : Surroundings} {info : ValidPathInfo} {s s' : LocalStore}
    (h : Committed cfg env [info] s s') (q : StorePath) :
    isValidPath_ cfg s'.db q = true ↔ isValidPath_ cfg s.db q = true ∨ q = info.path := by
  by_cases hq : q = info.path
  · obtain ⟨columns, -, hview⟩ := h.self info List.mem_cons_self
    rw [isValidPath_eq_view, hq, hview]
    simp
  · have hview : s'.db.view (print cfg q) = s.db.view (print cfg q) := by
      refine h.other _ fun i hi heq => hq ?_
      rw [List.mem_singleton.mp hi] at heq
      exact print_injective heq
    rw [isValidPath_congr hview]
    simp [hq]

theorem topoSort_singleton {α : Type} [DecidableEq α] (a : α) (getChildren : α → List α) :
    ∃ order, topoSort [a] getChildren = .ok (.inl order) := by
  have hnone : followed [a] getChildren a = [] := by
    rw [followed, List.filter_eq_nil_iff]
    intro i _ hi
    have hi' : i ≠ a ∧ i ∈ [a] := of_decide_eq_true hi
    exact hi'.1 (List.mem_singleton.mp hi'.2)
  refine ⟨[a], ?_⟩
  simp only [topoSort, visitAll, dfsVisit, List.not_mem_nil, if_false, hnone]
  rfl

theorem registerValidPaths_lower {env : Surroundings} {s t : LocalStore} {info : ValidPathInfo}
    (h : Extends cfg lower s t) (hnew : isValidPath_ cfg s.db info.path = false)
    (hlookup : lower.lookup info.path = some info) (hchecks : PassesChecks cfg env {} info)
    (hrefs : ∀ r ∈ info.references, r ≠ info.path → isValidPath_ cfg t.db r = true) :
    ∃ t', LocalStores.registerValidPaths cfg env ⟨[info], List.pairwise_singleton _ _⟩ t =
        (.ok (), t') ∧ Extends cfg lower s t' ∧ isValidPath_ cfg t'.db info.path = true ∧
      ∀ r ∈ info.references, isValidPath_ cfg t'.db r = true := by
  have haccepts : Accepts cfg env t.db [info] := by
    refine ⟨?_, ?_, topoSort_singleton info.path _⟩
    · intro i hi
      rw [List.mem_singleton.mp hi]
      exact passesChecks_of_empty hchecks
    · intro i hi r hr
      obtain rfl := List.mem_singleton.mp hi
      rcases eq_or_ne r i.path with rfl | hne
      · exact .inr List.mem_cons_self
      · exact .inl (hrefs r hr hne)
  rcases @registerValidPaths_spec cfg env ⟨[info], List.pairwise_singleton _ _⟩ _
      h.synced.wellFormed with
    ⟨-, t', hrun, hcommitted⟩ | ⟨hnot, -⟩
  · have hvalid := isValidPath_of_committed hcommitted
    have hself : isValidPath_ cfg t'.db info.path = true := (hvalid _).mpr (.inr rfl)
    have hrefs' : ∀ r ∈ info.references, isValidPath_ cfg t'.db r = true := by
      intro r hr
      rcases eq_or_ne r info.path with rfl | hne
      · exact hself
      · exact (hvalid r).mpr (.inl (hrefs r hr hne))
    have hother : ∀ q, q ≠ info.path → t'.db.view (print cfg q) = t.db.view (print cfg q) := by
      refine fun q hq => hcommitted.other _ fun i hi heq => hq ?_
      rw [List.mem_singleton.mp hi] at heq
      exact print_injective heq
    obtain ⟨hinert, hmemory⟩ := hcommitted.memory h.synced.inert
    refine ⟨t', hrun, ⟨⟨hcommitted.wellFormed, hinert, ?_⟩, ?_, ?_⟩, hself, hrefs'⟩
    · intro q v hv
      rcases hmemory q v hv with ⟨i, hi, -, rfl, hvalue⟩ | ⟨hold, -⟩
      · obtain rfl := List.mem_singleton.mp hi
        refine ⟨?_, hself⟩
        rw [PathInfoCacheValue.didExist, hvalue]
        rfl
      · obtain ⟨hexists, hq⟩ := h.synced.cached q v hold
        exact ⟨hexists, (hvalid q).mpr (.inl hq)⟩
    · intro q hq
      have hne : q ≠ info.path := by
        rintro rfl
        simp [hnew] at hq
      exact (hother q hne).trans (h.old q hq)
    · intro q hs ht'
      rcases (hvalid q).mp ht' with ht | rfl
      · obtain ⟨i, hi, hir⟩ := h.new q hs ht
        exact ⟨i, hi, fun r hr => (hvalid r).mpr (.inl (hir r hr))⟩
      · exact ⟨info, hlookup, hrefs'⟩
  · exact absurd haccepts hnot

theorem registerValidPaths_nil {env : Surroundings} (infos : ValidPathInfos)
    (h : infos.elems = []) (s : LocalStore) :
    LocalStores.registerValidPaths cfg env infos s = (.ok (), s) := by
  unfold LocalStores.registerValidPaths
  rw [h]
  rfl

theorem registerValidPath_lower {env : Surroundings} {s t : LocalStore} {info : ValidPathInfo}
    (h : Extends cfg lower s t) (hnew : isValidPath_ cfg s.db info.path = false)
    (hlookup : lower.lookup info.path = some info) (hchecks : PassesChecks cfg env {} info)
    (hrefs : ∀ r ∈ info.references, r ≠ info.path → isValidPath_ cfg t.db r = true) :
    ∃ t', registerValidPath cfg lower env info t = (.ok (), t') ∧ Extends cfg lower s t' ∧
      isValidPath_ cfg t'.db info.path = true := by
  cases hvalid : isValidPath_ cfg t.db info.path with
  | true =>
      have hnone : (inLower cfg lower t.db ⟨[info], List.pairwise_singleton _ _⟩).elems = [] := by
        simp [inLower, hvalid]
      obtain ⟨t', hrun, hext, hself, -⟩ := registerValidPaths_lower h hnew hlookup hchecks hrefs
      refine ⟨t', ?_, hext, hself⟩
      rw [registerValidPath, registerValidPaths, Action.andThen, registerValidPaths_nil _ hnone]
      exact hrun
  | false =>
      have hone : inLower cfg lower t.db ⟨[info], List.pairwise_singleton _ _⟩ =
          ⟨[info], List.pairwise_singleton _ _⟩ :=
        SortedSet.eq_of_elems (by simp [inLower, hvalid, hlookup])
      obtain ⟨t', hrun, hext, -, hrefs'⟩ := registerValidPaths_lower h hnew hlookup hchecks hrefs
      obtain ⟨u, hrun', hext', hself, -⟩ := registerValidPaths_lower hext hnew hlookup hchecks
        fun r hr _ => hrefs' r hr
      refine ⟨u, ?_, hext', hself⟩
      rw [registerValidPath, registerValidPaths, Action.andThen, hone, hrun]
      exact hrun'

section Sync

variable {clock : StorePath → Clock} {env : Surroundings}

/-- The references that `isValidPath` follows. -/
def Pending (cfg : LocalStoreConfig) (lower : LowerStore) (s : LocalStore) (q r : StorePath) :
    Prop :=
  isValidPath_ cfg s.db q = false ∧
    ∃ info, lower.lookup q = some info ∧ r ∈ info.references ∧ r ≠ q

/-- The infos that are going to be copied from the lower store can be registered. -/
def Copyable (cfg : LocalStoreConfig) (lower : LowerStore) (env : Surroundings) (s : LocalStore)
    (p : StorePath) : Prop :=
  ∀ q info, ReflTransGen (Pending cfg lower s) p q → isValidPath_ cfg s.db q = false →
    lower.lookup q = some info → PassesChecks cfg env {} info

theorem mem_of_pending {s : LocalStore} {q r : StorePath} (h : Pending cfg lower s q r) :
    r ∈ lower.infos.elems.map ValidPathInfo.path := by
  obtain ⟨-, info, hinfo, hr, -⟩ := h
  exact lower.closed info (mem_of_select hinfo) r hr

/-- What syncing a path leaves. -/
structure Syncs (cfg : LocalStoreConfig) (lower : LowerStore) (start : LocalStore) (p : StorePath)
    (s s' : LocalStore) : Prop where
  extends_ : Extends cfg lower s s'
  registered : inStore cfg lower start p = true → isValidPath_ cfg s'.db p = true

theorem forEach_sync {start : LocalStore} {p : StorePath} {sync : StorePath → Action}
    {references : List StorePath}
    (hsync : ∀ r ∈ references, ∀ s, Extends cfg lower start s →
      ∃ s', sync r s = (.ok (), s') ∧ Extends cfg lower s s' ∧
        (r ≠ p → isValidPath_ cfg s'.db r = true))
    {s : LocalStore} (hs : Extends cfg lower start s) :
    ∃ s', forEach sync references s = (.ok (), s') ∧ Extends cfg lower s s' ∧
      ∀ r ∈ references, r ≠ p → isValidPath_ cfg s'.db r = true := by
  induction references generalizing s with
  | nil => exact ⟨s, rfl, .refl hs.synced, by simp⟩
  | cons r references ih =>
      obtain ⟨t, hrun, hst, hr⟩ := hsync r List.mem_cons_self s hs
      obtain ⟨u, hrun', htu, hrefs⟩ :=
        ih (fun r' hr' => hsync r' (List.mem_cons_of_mem r hr')) (hs.trans hst)
      refine ⟨u, (forEach_cons_ok hrun).trans hrun', hst.trans htu, fun r' hr' hne => ?_⟩
      rcases List.mem_cons.mp hr' with rfl | hmem
      · exact htu.mono (hr hne)
      · exact hrefs r' hmem hne

theorem extends_getKnown {s : LocalStore} (hs : Synced cfg s) (p : StorePath) (c : Clock) :
    Extends cfg lower s { s with client := ((vtable cfg lower s.db).getKnown c p s.client).2 } :=
  extends_client hs (hs.inert.get p) (LRUCache.value?_get _ _)

theorem isValidPath_of_known {s : LocalStore} (hs : Synced cfg s) {p : StorePath} {c : Clock}
    {v : PathInfoCacheValue ValidPathInfo}
    (h : ((vtable cfg lower s.db).getKnown c p s.client).1 = some v) :
    v.didExist = true ∧ isValidPath_ cfg s.db p = true := by
  rw [StoreVtable.getKnown_fst] at h
  exact hs.cached p v (Option.filter_eq_some_iff.mp h).1

theorem isValidPath_spec {start : LocalStore} {root : StorePath} {rank : StorePath → Nat}
    (hrank : ∀ b c, ReflTransGen (Pending cfg lower start) root b →
      Pending cfg lower start b c → rank c < rank b)
    (hcopy : Copyable cfg lower env start root) {fuel : Nat} {p : StorePath} {s : LocalStore}
    (hs : Extends cfg lower start s) (hp : ReflTransGen (Pending cfg lower start) root p)
    (hfuel : rank p < fuel) :
    ∃ s', isValidPath cfg lower clock env fuel p s = (.ok (inStore cfg lower start p), s') ∧
      Syncs cfg lower start p s s' := by
  induction fuel generalizing p s with
  | zero => exact absurd hfuel (Nat.not_lt_zero _)
  | succ fuel ih =>
      have hget := @extends_getKnown cfg lower s hs.synced p (clock p)
      have hknown := @isValidPath_of_known cfg lower s hs.synced p (clock p)
      rw [isValidPath]
      rcases hres : (vtable cfg lower s.db).getKnown (clock p) p s.client with ⟨known, client⟩
      rw [hres] at hget hknown
      dsimp only at hget hknown ⊢
      cases known with
      | some v =>
          obtain ⟨hexists, hvalid⟩ := hknown rfl
          have hin : inStore cfg lower start p = true := by
            rw [← hs.inStore, inStore, hvalid, Bool.true_or]
          refine ⟨{ s with client }, ?_, hget, fun _ => hvalid⟩
          show (Except.ok v.didExist, _) = _
          rw [hexists, hin]
      | none =>
          dsimp only
          cases hvalid : isValidPath_ cfg s.db p with
          | true =>
              have hin : inStore cfg lower start p = true := by
                rw [← hs.inStore, inStore, hvalid, Bool.true_or]
              exact ⟨{ s with client }, by rw [if_pos rfl, hin], hget, fun _ => hvalid⟩
          | false =>
              rw [if_neg Bool.false_ne_true]
              cases hlookup : lower.lookup p with
              | none =>
                  have hin : inStore cfg lower start p = false := by
                    rw [← hs.inStore, inStore, hvalid, hlookup]
                    rfl
                  exact ⟨{ s with client }, by rw [hin], hget, by simp [hin]⟩
              | some info =>
                  have hold : isValidPath_ cfg start.db p = false := by
                    cases hstart : isValidPath_ cfg start.db p with
                    | false => rfl
                    | true => rw [← hvalid, hs.mono hstart]
                  have hin : inStore cfg lower start p = true := by
                    rw [inStore, hlookup, Option.isSome_some, Bool.or_true]
                  have hpath := path_of_lookup hlookup
                  -- One reference after the other, unless it is the path itself.
                  have hsync : ∀ r ∈ info.references.elems, ∀ t, Extends cfg lower start t →
                      ∃ t', (if r ≠ p then
                          match isValidPath cfg lower clock env fuel r t with
                          | (.ok _, s) => (Except.ok (), s)
                          | (.error e, s) => (Except.error e, s)
                        else (Except.ok (), t)) = (Except.ok (), t') ∧
                        Extends cfg lower t t' ∧ (r ≠ p → isValidPath_ cfg t'.db r = true) := by
                    intro r hr t ht
                    by_cases hne : r = p
                    · exact ⟨t, if_neg (not_not.mpr hne), .refl ht.synced, fun h => absurd hne h⟩
                    · have hedge : Pending cfg lower start p r := ⟨hold, info, hlookup, hr, hne⟩
                      obtain ⟨t', hrun, hsync⟩ := ih ht (hp.tail hedge)
                        (Nat.lt_of_lt_of_le (hrank p r hp hedge) (Nat.lt_succ_iff.mp hfuel))
                      refine ⟨t', ?_, hsync.extends_, fun _ => hsync.registered ?_⟩
                      · rw [if_pos hne, hrun]
                      · rw [inStore, isSome_lookup (mem_of_pending hedge), Bool.or_true]
                  obtain ⟨t, hrun, hst, hrefs⟩ := forEach_sync (p := p) hsync (hs.trans hget)
                  obtain ⟨u, hregister, hsu, hself⟩ := @registerValidPath_lower cfg lower env
                    _ _ info (hget.trans hst) (by rw [hpath]; exact hvalid)
                    (by rw [hpath]; exact hlookup) (hcopy p info hp hold hlookup)
                    (by rw [hpath]; exact hrefs)
                  refine ⟨u, ?_, hsu, fun _ => hpath ▸ hself⟩
                  rw [hin]
                  simp only [returning, Action.andThen, hrun, hregister]

end Sync

/-- One path refers to another one, in the upper store if it is valid there. -/
def Refers (cfg : LocalStoreConfig) (lower : LowerStore) (s : LocalStore) (q r : StorePath) :
    Prop :=
  (∃ value references, s.db.view (print cfg q) = some (value, references) ∧
      print cfg r ∈ references) ∨
    (isValidPath_ cfg s.db q = false ∧ ∃ info, lower.lookup q = some info ∧ r ∈ info.references)

/-- The verdict is the one of both layers, and a valid path is registered with everything that
it reaches. -/
def AnswersRight (cfg : LocalStoreConfig) (lower : LowerStore) (s : LocalStore) : Query → Prop
  | .queryPathInfo _ _ => True
  | .isValidPath clock env p =>
      (step cfg lower s (.isValidPath clock env p)).1 = .valid (.ok (inStore cfg lower s p)) ∧
      (inStore cfg lower s p = true → ∀ q, ReflTransGen (Refers cfg lower s) p q →
        isValidPath_ cfg (step cfg lower s (.isValidPath clock env p)).2.db q = true)

/-- No info of the lower store enters the cache before it is registered, and what is copied can
be registered and has no cycle. -/
def StepSyncs (cfg : LocalStoreConfig) (lower : LowerStore) (s : LocalStore) : Query → Prop
  | .queryPathInfo _ p =>
      s.client.pathInfoCache.capacity = 0 ∨ isValidPath_ cfg s.db p = true ∨
        lower.lookup p = none
  | .isValidPath _ env p =>
      Copyable cfg lower env s p ∧
        ∀ q, ReflTransGen (Pending cfg lower s) p q → ¬TransGen (Pending cfg lower s) q q

theorem synced_of_opened {s : LocalStore} (h : Opened s) : Synced cfg s := by
  refine ⟨h.wellFormed, fun _ => h.data, ?_⟩
  intro q v hv
  simp [LRUCache.value?_eq, select, h.data] at hv

theorem isValidPath_of_view {db : Database} {p : StorePath} {row : RowValue × List Bytes}
    (h : db.view (print cfg p) = some row) : isValidPath_ cfg db p = true := by
  rw [isValidPath_eq_view, h]
  rfl

theorem isValidPath_of_refers {s s' : LocalStore} (h : Extends cfg lower s s') {q r : StorePath}
    (hq : isValidPath_ cfg s'.db q = true) (hqr : Refers cfg lower s q r) :
    isValidPath_ cfg s'.db r = true := by
  rcases hqr with ⟨value, references, hview, hr⟩ | ⟨hnew, info, hlookup, hr⟩
  · have hclosed := closed_of_wellFormed h.synced.wellFormed
    rw [← h.old q (isValidPath_of_view hview)] at hview
    rw [isValidPath_eq_view]
    exact hclosed _ value references hview _ hr
  · obtain ⟨i, hi, hrefs⟩ := h.new q hnew hq
    rw [hlookup] at hi
    cases hi
    exact hrefs r hr

theorem synced_queryPathInfo {s : LocalStore} (hs : Synced cfg s) (clock : Clock) (p : StorePath)
    (hok : StepSyncs cfg lower s (.queryPathInfo clock p)) :
    Synced cfg (queryPathInfo cfg lower clock p s).2 := by
  have hdisk : s.client.diskCache = none := by
    cases h : s.client.diskCache with
    | none => rfl
    | some d => exact d.elim
  obtain ⟨hinert, hcap, hvalue⟩ :=
    @StoreVtable.value?_queryPathInfo _ _ (vtable cfg lower s.db) clock p _ hs.inert hdisk
  refine ⟨hs.wellFormed, hinert, fun q v hv => ?_⟩
  rcases hvalue q v hv with hold | ⟨rfl, hfound⟩
  · exact hs.cached q v hold
  · rcases hok with hzero | hok
    · have hempty := hinert.value? (hcap.trans hzero) q
      rw [show (queryPathInfo cfg lower clock q s).2.client.pathInfoCache.value? q = none
        from hempty] at hv
      cases hv
    · replace hfound : (match queryPathInfoInternal cfg s.db q with
          | .error e => .error e
          | .ok (some info) => .ok (some info)
          | .ok none =>
              match lower.lookup q with
              | some info => .ok (some info)
              | none => .error (invalidPath cfg q)) = Except.ok v.value := hfound
      split at hfound
      next => cases hfound
      next info hinfo =>
        have hvalue : some info = v.value := Except.ok.inj hfound
        have hvalid : isValidPath_ cfg s.db q = true := (isSome_of_allowed hinfo).symm
        refine ⟨?_, hvalid⟩
        rw [PathInfoCacheValue.didExist, ← hvalue]
        rfl
      next hnone =>
        have hinvalid : isValidPath_ cfg s.db q = false := (isSome_of_allowed hnone).symm
        rw [hok.resolve_left (by simp [hinvalid])] at hfound
        cases hfound

theorem isValidPath_step {s : LocalStore} (hs : Synced cfg s) {clock : StorePath → Clock}
    {env : Surroundings} {p : StorePath}
    (hok : StepSyncs cfg lower s (.isValidPath clock env p)) :
    ∃ s', isValidPath cfg lower clock env (depth lower) p s = (.ok (inStore cfg lower s p), s') ∧
      Syncs cfg lower s p s s' := by
  obtain ⟨rank, hbound, hrank⟩ := exists_rank_of_acyclic
    (R := Pending cfg lower s) (a := p) (fun _ _ => mem_of_pending) hok.2
  refine isValidPath_spec hrank hok.1 (.refl hs) .refl ?_
  have hp := hbound p
  rw [List.length_map] at hp
  exact Nat.lt_succ_of_le hp

theorem synced_step (s : LocalStore) (q : Query) (hs : Synced cfg s)
    (hok : StepSyncs cfg lower s q) : Synced cfg (step cfg lower s q).2 := by
  cases q with
  | queryPathInfo clock p => exact synced_queryPathInfo hs clock p hok
  | isValidPath clock env p =>
      obtain ⟨s', hrun, hsync⟩ := isValidPath_step hs hok
      rw [step, hrun]
      exact hsync.extends_.synced

theorem answersRight_of_synced (s : LocalStore) (q : Query) (hs : Synced cfg s)
    (hok : StepSyncs cfg lower s q) : AnswersRight cfg lower s q := by
  cases q with
  | queryPathInfo clock p => trivial
  | isValidPath clock env p =>
      obtain ⟨s', hrun, hsync⟩ := isValidPath_step hs hok
      rw [AnswersRight, step, hrun]
      refine ⟨rfl, fun hin q hq => ?_⟩
      induction hq with
      | refl => exact hsync.registered hin
      | tail _ hqr ih => exact isValidPath_of_refers hsync.extends_ ih hqr

/-- Unless a query caches what only the lower store has, every verdict is right and every valid
path is copied with its closure. -/
theorem closed_and_answersRight {s : LocalStore} (hs : Opened s) (qs : List Query) (q : Query)
    (hok : Admits (step cfg lower) (StepSyncs cfg lower) s (qs ++ [q])) :
    Closed (run (step cfg lower) s qs).db ∧
      AnswersRight cfg lower (run (step cfg lower) s qs) q := by
  obtain ⟨hqs, hq⟩ := admits_append.mp hok
  have hsynced : Synced cfg (run (step cfg lower) s qs) :=
    run_invariant synced_step (synced_of_opened hs) hqs
  exact ⟨closed_of_wellFormed hsynced.wellFormed, answersRight_of_synced _ q hsynced hq.1⟩

/-- `samplePath` refers to `missingPath`, which is not missing here. -/
def sampleLower : LowerStore where
  infos := ⟨[sampleInfo [missingPath], { sampleInfo [] with path := missingPath }], by decide⟩
  closed := by decide

theorem pending_sample {s : LocalStore} {q r : StorePath}
    (h : Pending sampleConfig sampleLower s q r) : q = samplePath ∧ r = missingPath := by
  obtain ⟨-, info, hinfo, hr, -⟩ := h
  have hmem := mem_of_select hinfo
  have hpath := path_of_lookup hinfo
  rcases List.mem_pair.mp hmem with rfl | rfl
  · exact ⟨hpath.symm, List.mem_singleton.mp hr⟩
  · exact absurd hr List.not_mem_nil

theorem stepSyncs_sample (s : LocalStore) (p : StorePath) :
    StepSyncs sampleConfig sampleLower s
      (.isValidPath (fun _ => sampleClock) sampleSurroundings p) := by
  refine ⟨?_, ?_⟩
  · intro q info _ _ hinfo
    rcases List.mem_pair.mp (mem_of_select hinfo) with rfl | rfl
    · exact ⟨_, rfl, rfl, fun _ => rfl, fun _ hdrv => absurd hdrv (by decide)⟩
    · exact ⟨_, rfl, rfl, fun _ => rfl, fun _ hdrv => absurd hdrv (by decide)⟩
  · intro q _ hcycle
    obtain ⟨r, hqr, -⟩ := TransGen.head'_iff.mp hcycle
    obtain ⟨r', -, hrq⟩ := TransGen.tail'_iff.mp hcycle
    have hne : samplePath ≠ missingPath := by decide
    exact hne ((pending_sample hqr).1.symm.trans (pending_sample hrq).2)

theorem closed_and_answersRight_sample :
    AnswersRight sampleConfig sampleLower
      (run (step sampleConfig sampleLower) emptyStore
        [.isValidPath (fun _ => sampleClock) sampleSurroundings missingPath])
      (.isValidPath (fun _ => sampleClock) sampleSurroundings samplePath) :=
  (closed_and_answersRight opened_emptyStore
    [.isValidPath (fun _ => sampleClock) sampleSurroundings missingPath]
    (.isValidPath (fun _ => sampleClock) sampleSurroundings samplePath)
    ⟨stepSyncs_sample _ _, stepSyncs_sample _ _, trivial⟩).2

/-- A query leaves the reference in the cache, so that it is not registered before the path that
refers to it. -/
theorem not_answersRight_cached :
    ¬ ∀ (cfg : LocalStoreConfig) (lower : LowerStore) (s : LocalStore), Opened s → ∀ qs q,
      Closed (run (step cfg lower) s qs).db ∧
        AnswersRight cfg lower (run (step cfg lower) s qs) q := by
  intro h
  have hanswer := (h sampleConfig sampleLower emptyStore opened_emptyStore
    [.queryPathInfo sampleClock missingPath]
    (.isValidPath (fun _ => sampleClock) sampleSurroundings samplePath)).2.1
  have hthrows : (step sampleConfig sampleLower
      (run (step sampleConfig sampleLower) emptyStore [.queryPathInfo sampleClock missingPath])
      (.isValidPath (fun _ => sampleClock) sampleSurroundings samplePath)).1 =
        .valid (.error (invalidPath sampleConfig missingPath)) := rfl
  rw [hthrows] at hanswer
  cases hanswer

end Nix.Store.LocalOverlayStores
