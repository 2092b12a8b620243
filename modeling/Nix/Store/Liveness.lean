import Mathlib.Data.List.Perm.Subperm
import Mathlib.Data.Set.Lattice
import Mathlib.Logic.Relation
import Mathlib.Order.CompletePartialOrder
import Nix.Store.CollectorSafety

set_option linter.dupNamespace false

namespace Nix.Store.Liveness

open Relation
open Util.Types Util.TopoSort Lib.Table Lib.Transitions Lib.Worklists Store.Path
  Store.GarbageCollector Store.CollectorSafety

/-! ### What is live -/

def IsRoot (cfg : Config) (tempRoots : List Bytes) (p : StorePath) : Prop :=
  p ∈ cfg.roots ∨ p.hashPart ∈ tempRoots

def Forward (cfg : Config) (s : Tables) (p q : StorePath) : Prop :=
  ∃ deps, cfg.queryDeps s p = some deps ∧ q ∈ deps

/-- The search for a root goes on from a valid path to another path. -/
def Backward (cfg : Config) (s : Tables) (p q : StorePath) : Prop :=
  s.isValidPath p = true ∧ q ∈ s.queryReferrers p ++ cfg.keepers s p

def Live (cfg : Config) (s : Tables) (tempRoots : List Bytes) (p : StorePath) : Prop :=
  ∃ root, IsRoot cfg tempRoots root ∧ ReflTransGen (Forward cfg s) root p

/-- A search that starts at the path meets a root. -/
def FindsRoot (cfg : Config) (s : Tables) (tempRoots : List Bytes) (p : StorePath) : Prop :=
  ∃ root, IsRoot cfg tempRoots root ∧ ReflTransGen (Backward cfg s) p root

def Refers (s : Tables) (p q : StorePath) : Prop :=
  q ≠ p ∧ q ∈ s.referencesOf p

/-- A path that is not kept, and that can be deleted. -/
def Garbage (cfg : Config) (s : Tables) (tempRoots : List Bytes) (p : StorePath) : Prop :=
  ¬FindsRoot cfg s tempRoots p ∧ ¬TransGen (Refers s) p p

/-! ### What a run reports -/

def returning (cfg : Config) (action : GCAction) : Config :=
  { cfg with options := { cfg.options with action } }

def CollectorOnly (_ : State) : Event → Prop
  | .collector => True
  | _ => False

/-- `results.paths`: paths, and the names of other entries that have been deleted. -/
def reported (cfg : Config) (s : State) : Set (StorePath ⊕ Bytes) := fun x =>
  match x with
  | .inl p =>
      match cfg.options.action with
      | .gcReturnLive => p ∈ s.alive
      | .gcReturnDead => p ∈ s.dead
      | _ => p ∈ s.deleted
  | .inr name => name ∈ s.deletedOther

/-- The run without any messages ends without an error, and reports a set. -/
def Reports (cfg : Config) (store : Tables) (tempRoots : List Bytes) (dir : List DirEntry)
    (results : Set (StorePath ⊕ Bytes)) : Prop :=
  ∃ s, Reaches (step cfg) CollectorOnly (start cfg store dir tempRoots) s ∧
    s.control = .stopped (.ok ()) ∧ reported cfg s = results

/-- The reports of live and of dead paths are disjoint, do not depend on the order of the
directory, and a valid path is reported as live if and only if it is. -/
def DecidesLiveness (cfg : Config) (store : Tables) (tempRoots : List Bytes)
    (dir : List DirEntry) : Prop :=
  ∃ live dead : Set (StorePath ⊕ Bytes),
    (∀ dir', dir'.Perm dir → Reports (returning cfg .gcReturnLive) store tempRoots dir' live) ∧
    (∀ dir', dir'.Perm dir → Reports (returning cfg .gcReturnDead) store tempRoots dir' dead) ∧
    Disjoint live dead ∧
    ∀ p, store.isValidPath p = true → (.inl p ∈ live ↔ Live cfg store tempRoots p)

/-- A whole-store run is going to look at its directory, which has store paths only (and
locked temporary directories), the two kinds of edges agree, and garbage has no cycles. -/
structure Agrees (cfg : Config) (store : Tables) (tempRoots : List Bytes) (dir : List DirEntry) :
    Prop where
  limit : cfg.options.maxFreed ≠ 0
  paths : ∀ name size, .other name (some size) ∉ dir
  edges : ∀ p, store.isValidPath p = true →
    (Live cfg store tempRoots p ↔ FindsRoot cfg store tempRoots p)
  acyclic : ∀ p, ¬FindsRoot cfg store tempRoots p → ¬TransGen (Refers store) p p

/-! ### The closure of a path -/

variable {cfg : Config} {store : Tables} {tempRoots : List Bytes} {dir : List DirEntry}

theorem isValidPath_of_queryDeps {p : StorePath} {deps : List StorePath}
    (h : cfg.queryDeps store p = some deps) : store.isValidPath p = true := by
  rw [Config.queryDeps, Option.map_eq_some_iff] at h
  obtain ⟨info, hinfo, -⟩ := h
  rw [Tables.isValidPath, hinfo]
  rfl

theorem reaches_of_computeClosure {root : StorePath} {fuel : Nat} {w : Worklist StorePath}
    {closure : List StorePath} (hreach : ∀ p ∈ w.visited, ReflTransGen (Forward cfg store) root p)
    (hvalid : ∀ p ∈ w.visited, p ∈ w.todo ∨ store.isValidPath p = true)
    (htodo : ∀ p ∈ w.todo, p ∈ w.visited)
    (h : cfg.computeClosure store fuel w = some closure) :
    ∀ p ∈ closure, ReflTransGen (Forward cfg store) root p ∧ store.isValidPath p = true := by
  induction fuel generalizing w with
  | zero =>
      obtain ⟨visited, _ | ⟨p, todo⟩⟩ := w
      · cases h
        exact fun p hp => ⟨hreach p hp, (hvalid p hp).resolve_left List.not_mem_nil⟩
      · cases h
  | succ fuel ih =>
      obtain ⟨visited, _ | ⟨p, todo⟩⟩ := w
      · cases h
        exact fun p hp => ⟨hreach p hp, (hvalid p hp).resolve_left List.not_mem_nil⟩
      · rw [Config.computeClosure, Option.bind_eq_some_iff] at h
        obtain ⟨deps, hdeps, h⟩ := h
        have hp : ReflTransGen (Forward cfg store) root p :=
          hreach p (htodo p List.mem_cons_self)
        refine ih (fun q hq => ?_) (fun q hq => ?_) (fun q hq => ?_) h
        · rcases Worklist.mem_visited_enqueueAll.mp hq with hq | hq
          · exact hreach q hq
          · exact hp.tail ⟨deps, hdeps, hq⟩
        · rw [Worklist.mem_todo_enqueueAll]
          by_cases hold : q ∈ visited
          · rcases hvalid q hold with hmem | hq
            · rcases List.mem_cons.mp hmem with rfl | hmem
              · exact .inr (isValidPath_of_queryDeps hdeps)
              · exact .inl (.inl hmem)
            · exact .inr hq
          · exact .inl (.inr ⟨(Worklist.mem_visited_enqueueAll.mp hq).resolve_left hold, hold⟩)
        · rw [Worklist.mem_visited_enqueueAll]
          rcases Worklist.mem_todo_enqueueAll.mp hq with hq | ⟨hq, -⟩
          · exact .inl (htodo q (List.mem_cons_of_mem p hq))
          · exact .inr hq

theorem reaches_of_computeFSClosure {p : StorePath} {closure : List StorePath}
    (h : cfg.computeFSClosure store p = some closure) :
    ∀ q ∈ closure, ReflTransGen (Forward cfg store) p q ∧ store.isValidPath q = true := by
  refine reaches_of_computeClosure ?_ ?_ ?_ h
  · intro q hq
    rw [List.mem_singleton.mp hq]
  · exact fun q hq => .inl hq
  · exact fun q hq => hq

/-! ### What the search may meet -/

theorem isValidPath_of_backward {p q : StorePath} (h : Backward cfg store p q) :
    store.isValidPath q = true := by
  rcases List.mem_append.mp h.2 with hq | hq
  · obtain ⟨info, hinfo, -, rfl⟩ := mem_queryReferrers.mp hq
    exact isValidPath_iff.mpr ⟨info, hinfo, rfl⟩
  · rcases List.mem_append.mp hq with hq | hq
    · split at hq
      · obtain ⟨-, hany⟩ := List.mem_filter.mp hq
        rw [Tables.isValidPath]
        cases hinfo : store.queryPathInfo q with
        | none => simp [hinfo] at hany
        | some info => rfl
      · cases hq
    · split at hq
      · obtain ⟨row, hrow, rfl⟩ := List.mem_map.mp hq
        exact (Bool.and_eq_true_iff.mp (List.mem_filter.mp hrow).2).2
      · cases hq

theorem not_findsRoot_of_closed {visited : List StorePath}
    (hvisited : ∀ p ∈ visited, ¬FindsRoot cfg store tempRoots p ∨
      (¬IsRoot cfg tempRoots p ∧ ∀ q, Backward cfg store p q → q ∈ visited)) :
    ∀ p ∈ visited, ¬FindsRoot cfg store tempRoots p := by
  rintro p hp ⟨root, hroot, hpath⟩
  induction hpath using ReflTransGen.head_induction_on with
  | refl =>
      rcases hvisited root hp with hnot | ⟨hnot, -⟩
      · exact hnot ⟨root, hroot, .refl⟩
      · exact hnot hroot
  | @head p q hpq hq ih =>
      rcases hvisited p hp with hnot | ⟨-, hclosed⟩
      · exact hnot ⟨root, hroot, hq.head hpq⟩
      · exact ih (hclosed q hpq)

theorem FindsRoot.head {p q : StorePath} (hpq : ReflTransGen (Backward cfg store) p q)
    (hq : FindsRoot cfg store tempRoots q) : FindsRoot cfg store tempRoots p := by
  obtain ⟨root, hroot, hpath⟩ := hq
  exact ⟨root, hroot, hpq.trans hpath⟩

/-! ### A run -/

def InDir (dir : List DirEntry) (p : StorePath) : Prop :=
  .path p ∈ dir

/-- Every entry is alive or dead, or still to come. -/
def Upcoming (dir : List DirEntry) (s : State) (start : Option StorePath)
    (entries : List DirEntry) : Prop :=
  (∀ e ∈ entries, e ∈ dir) ∧
    ∀ p, InDir dir p → p ∈ s.alive ∨ p ∈ s.dead ∨ start = some p ∨ .path p ∈ entries

def Explored (cfg : Config) (store : Tables) (tempRoots : List Bytes) (s : State)
    (search : Worklist StorePath) (p : StorePath) : Prop :=
  p ∈ search.todo ∨ p ∈ s.dead ∨
    (¬IsRoot cfg tempRoots p ∧ ∀ q, Backward cfg store p q → q ∈ search.visited)

def ControlOk (cfg : Config) (store : Tables) (tempRoots : List Bytes) (dir : List DirEntry)
    (s : State) : Control → Prop
  | .starting entries => Upcoming dir s none entries
  | .searching start search entries =>
      Upcoming dir s (some start) entries ∧ search.Regular ∧ start ∈ search.visited ∧
        (∀ p ∈ search.visited, InDir dir p ∧ ReflTransGen (Backward cfg store) start p) ∧
        ∀ p ∈ search.visited, Explored cfg store tempRoots s search p
  | .deleting start sorted entries =>
      Upcoming dir s (some start) entries ∧ (start ∈ s.dead ∨ start ∈ sorted) ∧
        ∀ p ∈ sorted, InDir dir p ∧ Garbage cfg store tempRoots p
  | .removing _ _ _ _ => False
  | .checking start entries =>
      Upcoming dir s (some start) entries ∧ (start ∈ s.alive ∨ start ∈ s.dead)
  | .stopped (.ok ()) => Upcoming dir s none []
  | .stopped (.error _) => True

/-- A property that the search may conclude of a path which it reports as live. -/
structure Concludes (cfg : Config) (store : Tables) (tempRoots : List Bytes)
    (A : StorePath → Prop) : Prop where
  root : ∀ p, IsRoot cfg tempRoots p → A p
  back : ∀ p q, Backward cfg store p q → A q → A p
  live : ∀ p, store.isValidPath p = true → Live cfg store tempRoots p → A p

/-- The verdicts of a run so far. -/
structure Verdicts (A : StorePath → Prop) (cfg : Config) (store : Tables) (tempRoots : List Bytes)
    (dir : List DirEntry) (s : State) : Prop where
  sameStore : s.store = store
  sameTempRoots : s.tempRoots = tempRoots
  cache : ∀ entry ∈ s.referrersCache, entry.2 = store.queryReferrers entry.1
  alive : ∀ p ∈ s.alive, InDir dir p ∧ A p
  dead : ∀ p ∈ s.dead, InDir dir p ∧ Garbage cfg store tempRoots p
  deletedOther : s.deletedOther = []
  control : ControlOk cfg store tempRoots dir s s.control

/-- A directory that a run looks through without deleting anything. -/
structure Readable (cfg : Config) (store : Tables) (dir : List DirEntry) : Prop where
  consistent : Consistent store
  complete : ∀ p, store.isValidPath p = true → InDir dir p
  limit : cfg.options.maxFreed ≠ 0
  paths : ∀ name size, .other name (some size) ∉ dir
  wholeStore : cfg.options.pathsToDelete = .wholeStore
  keeps : cfg.shouldDelete = false

section Run

variable {A : StorePath → Prop}

theorem verdicts_of_same {s s' : State} (h : Verdicts A cfg store tempRoots dir s)
    (hstore : s'.store = s.store) (htempRoots : s'.tempRoots = s.tempRoots)
    (hcache : s'.referrersCache = s.referrersCache)
    (halive : ∀ p ∈ s'.alive, p ∈ s.alive ∨ (InDir dir p ∧ A p))
    (hdead : s'.dead = s.dead) (hother : s'.deletedOther = s.deletedOther)
    (hcontrol : ControlOk cfg store tempRoots dir s' s'.control) :
    Verdicts A cfg store tempRoots dir s' := by
  refine ⟨hstore.trans h.sameStore, htempRoots.trans h.sameTempRoots, ?_, fun p hp => ?_, ?_,
    hother.trans h.deletedOther, hcontrol⟩
  · rw [hcache]
    exact h.cache
  · rcases halive p hp with hold | hnew
    · exact h.alive p hold
    · exact hnew
  · rw [hdead]
    exact h.dead

theorem Upcoming.alive {s s' : State} {start : StorePath} {entries : List DirEntry}
    (h : Upcoming dir s (some start) entries) (halive : ∀ p ∈ s.alive, p ∈ s'.alive)
    (hdead : s'.dead = s.dead) : Upcoming dir s' (some start) entries := by
  refine ⟨h.1, fun p hp => ?_⟩
  rw [hdead]
  exact (h.2 p hp).imp_left (halive p)

theorem mem_markAlive {s : State} {p q : StorePath} (hstore : s.store = store)
    (h : q ∈ (markAlive cfg p s).alive) :
    q ∈ s.alive ∨ q = p ∨ (ReflTransGen (Forward cfg store) p q ∧ store.isValidPath q = true) := by
  rw [markAlive, hstore, List.cons_append, List.mem_cons, List.mem_append] at h
  rcases h with rfl | h | h
  · exact .inr (.inl rfl)
  · cases hclosure : cfg.computeFSClosure store p with
    | none => simp [hclosure] at h
    | some closure =>
        rw [hclosure] at h
        exact .inr (.inr (reaches_of_computeFSClosure hclosure q h))
  · exact .inl h

theorem cachedReferrers_eq {s : State} {p : StorePath} (hstore : s.store = store)
    (hcache : ∀ entry ∈ s.referrersCache, entry.2 = store.queryReferrers entry.1) :
    ∃ cache, cachedReferrers p s = (store.queryReferrers p, { s with referrersCache := cache }) ∧
      ∀ entry ∈ cache, entry.2 = store.queryReferrers entry.1 := by
  unfold cachedReferrers
  split
  next entry hentry =>
    refine ⟨s.referrersCache, ?_, hcache⟩
    rw [hcache entry (mem_of_select hentry), key_of_select hentry]
  next =>
    rw [hstore]
    refine ⟨_, rfl, fun entry hentry => ?_⟩
    rcases List.mem_cons.mp hentry with rfl | hentry
    · rfl
    · exact hcache entry hentry

theorem Concludes.head (hA : Concludes cfg store tempRoots A) {p q : StorePath} (hpq : ReflTransGen (Backward cfg store) p q) (hq : A q) :
    A p := by
  induction hpq using ReflTransGen.head_induction_on with
  | refl => exact hq
  | head hpq _ ih => exact hA.back _ _ hpq ih

theorem verdicts_bailOut (hdir : Readable cfg store dir) (hA : Concludes cfg store tempRoots A)
    {start p : StorePath} {entries : List DirEntry} {s : State}
    (h : Verdicts A cfg store tempRoots dir s) (hupcoming : Upcoming dir s (some start) entries)
    (hstart : InDir dir start) (hfinds : A start)
    (hp : InDir dir p ∧ IsRoot cfg tempRoots p) :
    Verdicts A cfg store tempRoots dir
        (bailOut start entries (markAlive cfg p { s with alive := start :: s.alive })) := by
  have halive : ∀ q ∈ (markAlive cfg p { s with alive := start :: s.alive }).alive,
      q ∈ s.alive ∨ (InDir dir q ∧ A q) := by
    intro q hq
    rcases mem_markAlive (s := { s with alive := start :: s.alive }) h.sameStore hq with hq | rfl | ⟨hpath, hvalid⟩
    · rcases List.mem_cons.mp hq with rfl | hq
      · exact .inr ⟨hstart, hfinds⟩
      · exact .inl hq
    · exact .inr ⟨hp.1, hA.root q hp.2⟩
    · exact .inr ⟨hdir.complete q hvalid, hA.live q hvalid ⟨p, hp.2, hpath⟩⟩
  have hgrow : ∀ q, q = start ∨ q ∈ s.alive →
      q ∈ (markAlive cfg p { s with alive := start :: s.alive }).alive := by
    intro q hq
    rw [markAlive]
    exact List.mem_append_right _ (List.mem_cons.mpr hq)
  refine verdicts_of_same h rfl rfl rfl halive rfl rfl ⟨?_, .inl (hgrow start (.inl rfl))⟩
  exact hupcoming.alive (fun q hq => hgrow q (.inr hq)) rfl

theorem verdicts_visit (hdir : Readable cfg store dir) (hA : Concludes cfg store tempRoots A)
    {start p : StorePath} {visited todo : List StorePath}
    {entries : List DirEntry} {s : State} (h : Verdicts A cfg store tempRoots dir s)
    (hcontrol : s.control = .searching start ⟨visited, p :: todo⟩ entries) :
    Verdicts A cfg store tempRoots dir (visit cfg start p ⟨visited, todo⟩ entries s) := by
  have hok := h.control
  rw [hcontrol] at hok
  obtain ⟨hupcoming, hregular, hstart, hreach, hexplored⟩ := hok
  have hpvisited : p ∈ visited := hregular.todo p List.mem_cons_self
  obtain ⟨hpdir, hpath⟩ := hreach p hpvisited
  obtain ⟨hstartdir, -⟩ := hreach start hstart
  have hrest : ∀ q ∈ visited, q = p ∨ Explored cfg store tempRoots s ⟨visited, todo⟩ q := by
    intro q hq
    rcases hexplored q hq with hmem | htail
    · exact (List.mem_cons.mp hmem).imp_right .inl
    · exact .inr (.inr htail)
  unfold visit
  split
  next halive =>
    -- The start leads to a path that is alive.
    have hfinds : A start := hA.head hpath (h.alive p halive).2
    refine verdicts_of_same h rfl rfl rfl (fun q hq => ?_) rfl rfl ⟨?_, .inl List.mem_cons_self⟩
    · rcases List.mem_cons.mp hq with rfl | hq
      · exact .inr ⟨hstartdir, hfinds⟩
      · exact .inl hq
    · exact hupcoming.alive (fun q hq => List.mem_cons_of_mem start hq) rfl
  next =>
    split
    next hdead =>
      refine verdicts_of_same h rfl rfl rfl (fun q hq => .inl hq) rfl rfl
        ⟨hupcoming, hregular.tail, hstart, hreach, fun q hq => ?_⟩
      rcases hrest q hq with rfl | htail
      · exact .inr (.inl hdead)
      · exact htail
    next hdead =>
      split
      next hroot =>
        exact verdicts_bailOut hdir hA h hupcoming hstartdir
          (hA.head hpath (hA.root p (.inl hroot))) ⟨hpdir, .inl hroot⟩
      next hroot =>
        split
        next hexcluded =>
          rw [Config.isExcluded, hdir.wholeStore] at hexcluded
          cases hexcluded
        next =>
          split
          next htemp =>
            have htemp' : IsRoot cfg tempRoots p := .inr (h.sameTempRoots ▸ htemp)
            exact verdicts_bailOut hdir hA h hupcoming hstartdir
              (hA.head hpath (hA.root p htemp')) ⟨hpdir, htemp'⟩
          next htemp =>
            have hnotroot : ¬IsRoot cfg tempRoots p := by
              rintro (hmem | hmem)
              · exact hroot hmem
              · exact htemp (h.sameTempRoots ▸ hmem)
            dsimp only
            split
            next hvalid =>
              rw [h.sameStore] at hvalid
              obtain ⟨cache, hcached, hcache⟩ :=
                cachedReferrers_eq (s := { s with pending := some p.hashPart }) (p := p)
                  h.sameStore h.cache
              rw [hcached]
              dsimp only
              rw [h.sameStore]
              have hnext : ∀ q, q ∈ store.queryReferrers p ++ cfg.keepers store p →
                  Backward cfg store p q := fun q hq => ⟨hvalid, hq⟩
              refine ⟨rfl, h.sameTempRoots, hcache, h.alive, h.dead, h.deletedOther,
                hupcoming, hregular.tail.enqueueAll _, Worklist.mem_visited_enqueueAll.mpr (.inl hstart),
                fun q hq => ?_, fun q hq => ?_⟩
              · rcases Worklist.mem_visited_enqueueAll.mp hq with hq | hq
                · exact hreach q hq
                · exact ⟨hdir.complete q (isValidPath_of_backward (hnext q hq)),
                    hpath.tail (hnext q hq)⟩
              · by_cases hold : q ∈ visited
                · rcases hrest q hold with rfl | hmem | hgone | ⟨hnot, hclosed⟩
                  · exact .inr (.inr ⟨hnotroot, fun r hr =>
                      Worklist.mem_visited_enqueueAll.mpr (.inr hr.2)⟩)
                  · exact .inl (Worklist.mem_todo_enqueueAll.mpr (.inl hmem))
                  · exact .inr (.inl hgone)
                  · exact .inr (.inr ⟨hnot, fun r hr =>
                      Worklist.mem_visited_enqueueAll.mpr (.inl (hclosed r hr))⟩)
                · exact .inl (Worklist.mem_todo_enqueueAll.mpr (.inr
                    ⟨(Worklist.mem_visited_enqueueAll.mp hq).resolve_left hold, hold⟩))
            next hvalid =>
              refine verdicts_of_same h rfl rfl rfl (fun q hq => .inl hq) rfl rfl
                ⟨hupcoming, hregular.tail, hstart, hreach, fun q hq => ?_⟩
              rcases hrest q hq with rfl | htail
              · refine .inr (.inr ⟨hnotroot, fun r hr => ?_⟩)
                rw [h.sameStore] at hvalid
                exact absurd hr.1 hvalid
              · exact htail

theorem not_findsRoot_of_visited {start : StorePath} {visited : List StorePath}
    {entries : List DirEntry} {s : State} (h : Verdicts A cfg store tempRoots dir s)
    (hcontrol : s.control = .searching start ⟨visited, []⟩ entries) :
    ∀ p ∈ visited, ¬FindsRoot cfg store tempRoots p := by
  have hok := h.control
  rw [hcontrol] at hok
  obtain ⟨-, -, -, -, hexplored⟩ := hok
  refine not_findsRoot_of_closed fun p hp => ?_
  rcases hexplored p hp with htodo | hdead | hclosed
  · cases htodo
  · exact .inl (h.dead p hdead).2.1
  · exact .inr hclosed

theorem backward_of_refers (hconsistent : Consistent store) {p q : StorePath}
    (h : Refers store p q) : Backward cfg store q p := by
  obtain ⟨-, hmem⟩ := h
  rw [Tables.referencesOf] at hmem
  split at hmem
  next info hinfo =>
    have hinfos := mem_of_select hinfo
    refine ⟨hconsistent.closed info hinfos q hmem, List.mem_append_left _ ?_⟩
    exact mem_queryReferrers.mpr ⟨info, hinfos, hmem, key_of_select hinfo⟩
  next => cases hmem

theorem not_cycle_of_visited (hdir : Readable cfg store dir)
    {start : StorePath} {visited sorted : List StorePath}
    {entries : List DirEntry} {s : State} (h : Verdicts A cfg store tempRoots dir s)
    (hcontrol : s.control = .searching start ⟨visited, []⟩ entries)
    (hsorted : topoSort visited store.referencesOf = .ok (.inl sorted)) :
    ∀ p ∈ visited, ¬TransGen (Refers store) p p := by
  have hok := h.control
  rw [hcontrol] at hok
  obtain ⟨-, -, -, -, hexplored⟩ := hok
  obtain ⟨rank, hrank⟩ := exists_rank_of_topoSort hsorted
  intro p hp hcycle
  -- The cycle lies among the visited paths, and the rank falls along it.
  have hfalls : ∀ q, TransGen (Refers store) q p → ReflTransGen (Refers store) p q →
      q ∈ visited ∧ rank p < rank q := by
    have hstep : ∀ q r, Refers store q r → r ∈ visited → TransGen (Refers store) r r →
        q ∈ visited ∧ rank r < rank q := by
      intro q r hqr hr hcycle'
      have hq : q ∈ visited := by
        rcases hexplored r hr with htodo | hdead | ⟨-, hclosed⟩
        · cases htodo
        · exact absurd hcycle' (h.dead r hdead).2.2
        · exact hclosed q (backward_of_refers hdir.consistent hqr)
      exact ⟨hq, hrank q hq r (List.mem_filter.mpr ⟨hqr.2, decide_eq_true ⟨hqr.1, hr⟩⟩)⟩
    intro q hq
    induction hq using TransGen.head_induction_on with
    | single hqp => exact fun _ => hstep _ p hqp hp hcycle
    | head hqr hrp ih =>
        intro hpq
        obtain ⟨hr, hlt⟩ := ih (hpq.tail hqr)
        obtain ⟨hq, hlt'⟩ := hstep _ _ hqr hr (hrp.trans_left (hpq.tail hqr))
        exact ⟨hq, Nat.lt_trans hlt hlt'⟩
  exact Nat.lt_irrefl _ (hfalls p hcycle .refl).2

theorem verdicts_advance (hdir : Readable cfg store dir) (hA : Concludes cfg store tempRoots A)
    {s s' : State} (h : Verdicts A cfg store tempRoots dir s)
    (hstep : advance cfg s = some s') : Verdicts A cfg store tempRoots dir s' := by
  have hok := h.control
  unfold advance at hstep
  split at hstep
  next hcontrol =>
    cases hstep
    rw [hcontrol] at hok
    exact verdicts_of_same h rfl rfl rfl (fun _ hp => .inl hp) rfl rfl hok
  next p entries hcontrol =>
    cases hstep
    rw [hcontrol] at hok
    obtain ⟨hentries, hupcoming⟩ := hok
    refine verdicts_of_same h rfl rfl rfl (fun _ hp => .inl hp) rfl rfl
      ⟨⟨fun e he => hentries e (List.mem_cons_of_mem _ he), fun q hq => ?_⟩,
        Worklist.regular_singleton p, List.mem_cons_self, fun q hq => ?_, fun q hq => .inl hq⟩
    · rcases hupcoming q hq with halive | hdead | hnone | hmem
      · exact .inl halive
      · exact .inr (.inl hdead)
      · cases hnone
      · rcases List.mem_cons.mp hmem with heq | hmem
        · cases heq
          exact .inr (.inr (.inl rfl))
        · exact .inr (.inr (.inr hmem))
    · rw [List.mem_singleton.mp hq]
      exact ⟨hentries _ List.mem_cons_self, .refl⟩
  next name size entries hcontrol =>
    cases hstep
    rw [hcontrol] at hok
    obtain ⟨hentries, hupcoming⟩ := hok
    cases size with
    | some n => exact absurd (hentries _ List.mem_cons_self) (hdir.paths name n)
    | none =>
        refine verdicts_of_same h rfl rfl rfl (fun _ hp => .inl hp) rfl rfl
          ⟨fun e he => hentries e (List.mem_cons_of_mem _ he), fun q hq => ?_⟩
        rcases hupcoming q hq with halive | hdead | hnone | hmem
        · exact .inl halive
        · exact .inr (.inl hdead)
        · cases hnone
        · rcases List.mem_cons.mp hmem with heq | hmem
          · cases heq
          · exact .inr (.inr (.inr hmem))
  next start visited entries hcontrol =>
    have hvisited := not_findsRoot_of_visited h hcontrol
    have hsorts := fun sorted => @not_cycle_of_visited cfg store tempRoots dir A hdir start visited sorted
      entries s h hcontrol
    rw [hcontrol] at hok
    obtain ⟨hupcoming, -, hstart, hreach, -⟩ := hok
    rw [h.sameStore] at hstep
    split at hstep
    next sorted hsorted =>
      have horder : topoSort visited store.referencesOf = .ok (.inl sorted) := by
        unfold topoSortPaths at hsorted
        split at hsorted <;> simp_all
      obtain ⟨-, hmem, -⟩ := order_of_topoSort horder
      cases hstep
      refine verdicts_of_same h h.sameStore.symm rfl rfl (fun _ hp => .inl hp) rfl rfl
        ⟨hupcoming, .inr ((hmem start).mpr hstart), fun p hp => ?_⟩
      have hp' := (hmem p).mp hp
      exact ⟨(hreach p hp').1, hvisited p hp', hsorts sorted horder p hp'⟩
    next =>
      cases hstep
      exact verdicts_of_same h h.sameStore.symm rfl rfl (fun _ hp => .inl hp) rfl rfl trivial
  next start visited p todo entries hcontrol =>
    cases hstep
    exact verdicts_visit hdir hA h hcontrol
  next start entries hcontrol =>
    cases hstep
    rw [hcontrol] at hok
    obtain ⟨hupcoming, hstart, -⟩ := hok
    exact verdicts_of_same h rfl rfl rfl (fun _ hp => .inl hp) rfl rfl
      ⟨hupcoming, .inr (hstart.resolve_right List.not_mem_nil)⟩
  next start p sorted entries hcontrol =>
    cases hstep
    rw [hcontrol] at hok
    obtain ⟨hupcoming, hstart, hsorted⟩ := hok
    have hrest : ∀ q ∈ sorted, InDir dir q ∧ Garbage cfg store tempRoots q :=
      fun q hq => hsorted q (List.mem_cons_of_mem p hq)
    unfold checkDelete
    split
    next hdead =>
      exact verdicts_of_same h rfl rfl rfl (fun _ hp => .inl hp) rfl rfl
        ⟨hupcoming, dead_or_upcoming_of_dead hstart hdead, hrest⟩
    next hdead =>
      simp only [hdir.keeps, Bool.not_false, if_true]
      refine ⟨h.sameStore, h.sameTempRoots, h.cache, h.alive, fun q hq => ?_, h.deletedOther,
        ⟨hupcoming.1, fun q hq => ?_⟩, dead_or_upcoming_cons hstart, hrest⟩
      · rcases List.mem_cons.mp hq with rfl | hq
        · exact hsorted q List.mem_cons_self
        · exact h.dead q hq
      · exact (hupcoming.2 q hq).imp_right (.imp_left (List.mem_cons_of_mem p))
  next p start sorted entries hcontrol =>
    rw [hcontrol] at hok
    exact hok.elim
  next start entries hcontrol =>
    cases hstep
    rw [hcontrol] at hok
    obtain ⟨⟨hentries, hupcoming⟩, hstart⟩ := hok
    have hcheck : checkDead cfg start entries s = { s with control := .starting entries } := by
      unfold checkDead
      rw [hdir.wholeStore]
      cases cfg.options.action <;> rfl
    rw [hcheck]
    refine verdicts_of_same h rfl rfl rfl (fun _ hp => .inl hp) rfl rfl ⟨hentries, fun q hq => ?_⟩
    rcases hupcoming q hq with halive | hdead | heq | hmem
    · exact .inl halive
    · exact .inr (.inl hdead)
    · cases heq
      rcases hstart with halive | hdead
      · exact .inl halive
      · exact .inr (.inl hdead)
    · exact .inr (.inr (.inr hmem))
  next => cases hstep

theorem entriesOf_readable {dir' : List DirEntry} (hdir : Readable cfg store dir) :
    entriesOf cfg dir' = .starting dir' := by
  have haction : cfg.options.action ≠ .gcDeleteSpecific := by
    intro heq
    have hkeeps := hdir.keeps
    rw [Config.shouldDelete, heq] at hkeeps
    cases hkeeps
  simp [entriesOf, hdir.wholeStore, hdir.limit, haction]

theorem verdicts_start {dir' : List DirEntry} (hdir : Readable cfg store dir)
    (hsame : ∀ e, e ∈ dir' ↔ e ∈ dir) :
    Verdicts A cfg store tempRoots dir (start cfg store dir' tempRoots) := by
  refine ⟨rfl, rfl, ?_, ?_, ?_, rfl, ?_⟩
  · exact fun _ h => (by cases h)
  · exact fun _ h => (by cases h)
  · exact fun _ h => (by cases h)
  · show ControlOk cfg store tempRoots dir _ (entriesOf cfg dir')
    rw [entriesOf_readable hdir]
    exact ⟨fun e he => (hsame e).mp he, fun p hp => .inr (.inr (.inr ((hsame _).mpr hp)))⟩

/-! ### The run ends -/

theorem length_le_of_inDir {l : List StorePath} (hl : l.Nodup) (h : ∀ p ∈ l, InDir dir p) :
    l.length ≤ dir.length := by
  have hnodup : (l.map DirEntry.path).Nodup :=
    hl.map fun p q heq => (DirEntry.path.inj heq)
  have hsub : l.map DirEntry.path ⊆ dir := by
    intro e he
    obtain ⟨p, hp, rfl⟩ := List.mem_map.mp he
    exact h p hp
  have hlength := (List.subperm_of_subset hnodup hsub).length_le
  rwa [List.length_map] at hlength

/-- The steps that are left, for a directory with `n` entries. -/
def remaining (n : Nat) : Control → Nat
  | .starting entries => entries.length * (2 * n + 10) + 1
  | .searching _ search entries =>
      entries.length * (2 * n + 10) + (n - search.visited.length + search.todo.length + n + 5)
  | .deleting _ sorted entries => entries.length * (2 * n + 10) + (sorted.length + 4)
  | .removing _ _ _ entries => entries.length * (2 * n + 10)
  | .checking _ entries => entries.length * (2 * n + 10) + 3
  | .stopped _ => 0

def Ended (s : State) : Prop :=
  ∃ r, s.control = .stopped r

theorem visit_control (p start : StorePath) (search : Worklist StorePath)
    (entries : List DirEntry) (s : State) :
    (visit cfg start p search entries s).control = .checking start entries ∨
      ∃ l, (visit cfg start p search entries s).control =
        .searching start (search.enqueueAll l) entries := by
  unfold visit
  split
  next => exact .inl rfl
  next =>
    split
    next => exact .inr ⟨[], rfl⟩
    next =>
      split
      next => exact .inl rfl
      next =>
        split
        next => exact .inl rfl
        next =>
          split
          next => exact .inl rfl
          next =>
            dsimp only
            split
            next =>
              unfold cachedReferrers
              split
              next => exact .inr ⟨_, rfl⟩
              next => exact .inr ⟨_, rfl⟩
            next => exact .inr ⟨[], rfl⟩

theorem remaining_advance (hdir : Readable cfg store dir)
    {s s' : State} (h : Verdicts A cfg store tempRoots dir s)
    (hstep : advance cfg s = some s') (h' : Verdicts A cfg store tempRoots dir s') :
    remaining dir.length s'.control < remaining dir.length s.control := by
  have hok := h.control
  have hok' := h'.control
  unfold advance at hstep
  split at hstep
  next hcontrol =>
    cases hstep
    rw [hcontrol]
    simp [remaining]
  next p entries hcontrol =>
    cases hstep
    rw [hcontrol]
    simp only [remaining, List.length_cons, List.length_nil, Nat.add_mul]
    omega
  next name size entries hcontrol =>
    rw [hcontrol] at hok
    cases size with
    | some n => exact absurd (hok.1 _ List.mem_cons_self) (hdir.paths name n)
    | none =>
        cases hstep
        rw [hcontrol]
        simp only [deleteOther, remaining, List.length_cons, Nat.add_mul]
        omega
  next start visited entries hcontrol =>
    rw [hcontrol] at hok
    obtain ⟨-, -, -, hreach, -⟩ := hok
    split at hstep
    next sorted hsorted =>
      cases hstep
      rw [hcontrol]
      have horder : topoSort visited s.store.referencesOf = .ok (.inl sorted) := by
        unfold topoSortPaths at hsorted
        split at hsorted <;> simp_all
      obtain ⟨hnodup, hmem, -⟩ := order_of_topoSort horder
      have hlength := length_le_of_inDir hnodup fun p hp => (hreach p ((hmem p).mp hp)).1
      simp only [remaining, List.length_nil]
      omega
    next =>
      cases hstep
      rw [hcontrol]
      simp only [remaining]
      omega
  next start visited p todo entries hcontrol =>
    cases hstep
    rw [hcontrol]
    rcases @visit_control cfg p start ⟨visited, todo⟩ entries s with hchecking | ⟨l, hsearching⟩
    · rw [hchecking]
      simp only [remaining, List.length_cons]
      omega
    · rw [hsearching] at hok' ⊢
      obtain ⟨-, hregular, -, hreach, -⟩ := hok'
      have hvisited := length_le_of_inDir hregular.nodup fun p hp => (hreach p hp).1
      have hlength := Worklist.length_enqueueAll ⟨visited, todo⟩ l
      simp only [remaining, List.length_cons] at hlength ⊢
      omega
  next start entries hcontrol =>
    cases hstep
    rw [hcontrol]
    simp only [remaining, List.length_nil]
    omega
  next start p sorted entries hcontrol =>
    cases hstep
    rw [hcontrol]
    have hcheck : (checkDelete cfg start p sorted entries s).control =
        .deleting start sorted entries := by
      unfold checkDelete
      split
      next => rfl
      next =>
        simp only [hdir.keeps, Bool.not_false, if_true]
    rw [hcheck]
    simp only [remaining, List.length_cons]
    omega
  next p start sorted entries hcontrol =>
    rw [hcontrol] at hok
    exact hok.elim
  next start entries hcontrol =>
    cases hstep
    rw [hcontrol]
    have hcheck : (checkDead cfg start entries s).control = .starting entries := by
      unfold checkDead
      rw [hdir.wholeStore]
      cases cfg.options.action <;> rfl
    rw [hcheck]
    simp only [remaining]
    omega
  next => cases hstep

theorem exists_advance {s : State} (h : ¬Ended s) : ∃ s', advance cfg s = some s' := by
  unfold advance
  split
  next => exact ⟨_, rfl⟩
  next => exact ⟨_, rfl⟩
  next => exact ⟨_, rfl⟩
  next =>
    split
    next => exact ⟨_, rfl⟩
    next => exact ⟨_, rfl⟩
  next => exact ⟨_, rfl⟩
  next => exact ⟨_, rfl⟩
  next => exact ⟨_, rfl⟩
  next => exact ⟨_, rfl⟩
  next => exact ⟨_, rfl⟩
  next r hstopped => exact absurd ⟨r, hstopped⟩ h

theorem sorts_garbage (hagrees : Agrees cfg store tempRoots dir)
    {visited : List StorePath}
    (h : ∀ p ∈ visited, ¬FindsRoot cfg store tempRoots p) :
    ∃ sorted, topoSort visited store.referencesOf = .ok (.inl sorted) := by
  refine topoSort_of_acyclic fun p hp hcycle => hagrees.acyclic p (h p hp) ?_
  refine TransGen.mono (fun a b hab => ?_) p p hcycle
  obtain ⟨hmem, hne⟩ := List.mem_filter.mp hab
  have hne' : b ≠ a ∧ b ∈ visited := of_decide_eq_true hne
  exact ⟨hne'.1, hmem⟩

theorem not_failed_advance {s s' : State} (hdir : Readable cfg store dir)
    (h : Verdicts A cfg store tempRoots dir s)
    (hsorts : ∀ visited, (∀ p ∈ visited, ¬FindsRoot cfg store tempRoots p) →
      ∃ sorted, topoSort visited store.referencesOf = .ok (.inl sorted))
    (hstep : advance cfg s = some s') : ∀ e, s'.control ≠ .stopped (.error e) := by
  intro e
  unfold advance at hstep
  split at hstep
  next => cases hstep; simp
  next => cases hstep; simp
  next =>
    cases hstep
    unfold deleteOther
    split
    next => simp
    next => dsimp only; split <;> simp
  next start visited entries hcontrol =>
    obtain ⟨sorted, hsorted⟩ := hsorts visited (not_findsRoot_of_visited h hcontrol)
    rw [h.sameStore, topoSortPaths, hsorted] at hstep
    cases hstep
    simp
  next start visited p todo entries hcontrol =>
    cases hstep
    rcases @visit_control cfg p start ⟨visited, todo⟩ entries s with hchecking | ⟨l, hsearching⟩
    · simp [hchecking]
    · simp [hsearching]
  next => cases hstep; simp
  next =>
    cases hstep
    unfold checkDelete
    split
    next => simp
    next => dsimp only; split <;> [simp; (split <;> simp)]
  next =>
    cases hstep
    unfold remove
    split
    next => simp
    next => dsimp only; split <;> simp
  next start entries hcontrol =>
    cases hstep
    unfold checkDead
    rw [hdir.wholeStore]
    cases cfg.options.action <;> simp
  next => cases hstep

/-- What a run has found when it has ended without an error. -/
structure Found (A : StorePath → Prop) (cfg : Config) (store : Tables) (tempRoots : List Bytes)
    (dir : List DirEntry) (s : State) : Prop where
  other : s.deletedOther = []
  alive : ∀ p ∈ s.alive, InDir dir p ∧ A p
  dead : ∀ p ∈ s.dead, InDir dir p ∧ Garbage cfg store tempRoots p
  all : ∀ p, InDir dir p → p ∈ s.alive ∨ p ∈ s.dead

theorem found_of_verdicts {s : State} (h : Verdicts A cfg store tempRoots dir s)
    (hstopped : s.control = .stopped (.ok ())) : Found A cfg store tempRoots dir s := by
  have hok := h.control
  rw [hstopped] at hok
  refine ⟨h.deletedOther, h.alive, h.dead, fun p hp => ?_⟩
  rcases hok.2 p hp with halive | hdead | hnone | hmem
  · exact .inl halive
  · exact .inr hdead
  · cases hnone
  · cases hmem

theorem concludes_findsRoot (hagrees : Agrees cfg store tempRoots dir) :
    Concludes cfg store tempRoots (FindsRoot cfg store tempRoots) :=
  ⟨fun p hp => ⟨p, hp, .refl⟩, fun _ _ hpq hq => FindsRoot.head (.single hpq) hq,
    fun p hp hlive => (hagrees.edges p hp).mp hlive⟩

theorem exists_found {dir' : List DirEntry} (hdir : Readable cfg store dir)
    (hagrees : Agrees cfg store tempRoots dir) (hsame : ∀ e, e ∈ dir' ↔ e ∈ dir) :
    ∃ s, Reaches (step cfg) CollectorOnly (start cfg store dir' tempRoots) s ∧
      s.control = .stopped (.ok ()) ∧
      Found (FindsRoot cfg store tempRoots) cfg store tempRoots dir s := by
  have hA := concludes_findsRoot hagrees
  obtain ⟨s, hs, ⟨hverdicts, hfailed⟩, r, hr⟩ := @Reaches.exists_ended _ _ (step cfg) CollectorOnly
    (start cfg store dir' tempRoots) (fun s => Verdicts (FindsRoot cfg store tempRoots) cfg store tempRoots dir s ∧
      ∀ e, s.control ≠ .stopped (.error e)) Ended
    (fun s => remaining dir.length s.control) (fun s hs hended => by
      obtain ⟨s', hstep⟩ := @exists_advance cfg s hended
      have hs' := verdicts_advance hdir hA hs.1 hstep
      exact ⟨.collector, s', trivial, hstep,
        ⟨hs', not_failed_advance hdir hs.1 (fun visited hv => sorts_garbage hagrees hv) hstep⟩,
        remaining_advance hdir hs.1 hstep hs'⟩)
    _ Reaches.start ⟨verdicts_start hdir hsame, fun e he => by
      have hcontrol : entriesOf cfg dir' = .stopped (.error e) := he
      rw [entriesOf_readable hdir] at hcontrol
      cases hcontrol⟩
  have hstopped : s.control = .stopped (.ok ()) := by
    rw [hr]
    cases r with
    | ok _ => rfl
    | error e => exact absurd hr (hfailed e)
  exact ⟨s, hs, hstopped, found_of_verdicts hverdicts hstopped⟩

end Run

/-! ### The decision -/

theorem readable_returning {action : GCAction} (h : Consistent store)
    (hcomplete : ∀ p, store.isValidPath p = true → InDir dir p)
    (hwhole : cfg.options.pathsToDelete = .wholeStore) (hlimit : cfg.options.maxFreed ≠ 0)
    (hpaths : ∀ name size, .other name (some size) ∉ dir)
    (haction : action = .gcReturnLive ∨ action = .gcReturnDead) :
    Readable (returning cfg action) store dir := by
  refine ⟨h, hcomplete, hlimit, hpaths, hwhole, ?_⟩
  rcases haction with rfl | rfl
  · rfl
  · rfl

theorem decides_of_agrees (h : Consistent store)
    (hcomplete : ∀ p, store.isValidPath p = true → InDir dir p)
    (hwhole : cfg.options.pathsToDelete = .wholeStore)
    (hagrees : Agrees cfg store tempRoots dir) : DecidesLiveness cfg store tempRoots dir := by
  refine ⟨{ x | ∃ p, x = .inl p ∧ InDir dir p ∧ FindsRoot cfg store tempRoots p },
    { x | ∃ p, x = .inl p ∧ InDir dir p ∧ ¬FindsRoot cfg store tempRoots p }, ?_, ?_, ?_, ?_⟩
  · intro dir' hperm
    obtain ⟨s, hs, hstopped, hfound⟩ := @exists_found (returning cfg .gcReturnLive) store
      tempRoots dir dir' (readable_returning h hcomplete hwhole hagrees.limit hagrees.paths (.inl rfl))
      ⟨hagrees.limit, hagrees.paths, hagrees.edges, hagrees.acyclic⟩ fun e => hperm.mem_iff
    refine ⟨s, hs, hstopped, Set.ext fun x => ?_⟩
    cases x with
    | inl p =>
        refine ⟨fun hp => ⟨p, rfl, hfound.alive p hp⟩, ?_⟩
        rintro ⟨q, hq, hp, hlive⟩
        cases hq
        exact (hfound.all p hp).resolve_right fun hdead => (hfound.dead p hdead).2.1 hlive
    | inr name =>
        show name ∈ s.deletedOther ↔ _
        rw [hfound.other]
        exact ⟨fun hmem => (by cases hmem), fun ⟨_, heq, _⟩ => (by cases heq)⟩
  · intro dir' hperm
    obtain ⟨s, hs, hstopped, hfound⟩ := @exists_found (returning cfg .gcReturnDead) store
      tempRoots dir dir' (readable_returning h hcomplete hwhole hagrees.limit hagrees.paths (.inr rfl))
      ⟨hagrees.limit, hagrees.paths, hagrees.edges, hagrees.acyclic⟩ fun e => hperm.mem_iff
    refine ⟨s, hs, hstopped, Set.ext fun x => ?_⟩
    cases x with
    | inl p =>
        refine ⟨fun hp => ⟨p, rfl, (hfound.dead p hp).1, (hfound.dead p hp).2.1⟩, ?_⟩
        rintro ⟨q, hq, hp, hdead⟩
        cases hq
        exact (hfound.all p hp).resolve_left fun halive => hdead (hfound.alive p halive).2
    | inr name =>
        show name ∈ s.deletedOther ↔ _
        rw [hfound.other]
        exact ⟨fun hmem => (by cases hmem), fun ⟨_, heq, _⟩ => (by cases heq)⟩
  · refine Set.disjoint_left.mpr ?_
    rintro _ ⟨p, rfl, -, hlive⟩ ⟨q, hq, -, hdead⟩
    cases hq
    exact hdead hlive
  · intro p hp
    rw [hagrees.edges p hp]
    refine ⟨?_, fun hlive => ⟨p, rfl, hcomplete p hp, hlive⟩⟩
    rintro ⟨q, hq, -, hlive⟩
    cases hq
    exact hlive

/-! ### What a right decision needs -/

/-- Nothing is taken back. -/
structure Grows (s s' : State) : Prop where
  dead : s.dead ⊆ s'.dead
  deletedOther : s.deletedOther ⊆ s'.deletedOther

theorem grows_of_same {s s' : State} (hdead : s'.dead = s.dead)
    (hother : s'.deletedOther = s.deletedOther) : Grows s s' :=
  ⟨hdead ▸ List.Subset.refl _, hother ▸ List.Subset.refl _⟩

theorem grows_visit (p start : StorePath) (search : Worklist StorePath)
    (entries : List DirEntry) (s : State) : Grows s (visit cfg start p search entries s) := by
  unfold visit
  split
  next => exact grows_of_same rfl rfl
  next =>
    split
    next => exact grows_of_same rfl rfl
    next =>
      split
      next => exact grows_of_same rfl rfl
      next =>
        split
        next => exact grows_of_same rfl rfl
        next =>
          split
          next => exact grows_of_same rfl rfl
          next =>
            dsimp only
            split
            next =>
              unfold cachedReferrers
              split
              next => exact grows_of_same rfl rfl
              next => exact grows_of_same rfl rfl
            next => exact grows_of_same rfl rfl

theorem grows_advance {s s' : State} (hstep : advance cfg s = some s') : Grows s s' := by
  unfold advance at hstep
  split at hstep
  next => cases hstep; exact grows_of_same rfl rfl
  next => cases hstep; exact grows_of_same rfl rfl
  next =>
    cases hstep
    unfold deleteOther
    split
    next => exact grows_of_same rfl rfl
    next =>
      dsimp only
      split
      next => exact ⟨List.Subset.refl _, List.subset_cons_self _ _⟩
      next => exact ⟨List.Subset.refl _, List.subset_cons_self _ _⟩
  next =>
    split at hstep
    next => cases hstep; exact grows_of_same rfl rfl
    next => cases hstep; exact grows_of_same rfl rfl
  next =>
    cases hstep
    exact grows_visit _ _ _ _ _
  next => cases hstep; exact grows_of_same rfl rfl
  next =>
    cases hstep
    unfold checkDelete
    split
    next => exact grows_of_same rfl rfl
    next =>
      dsimp only
      split
      next => exact ⟨List.subset_cons_self _ _, List.Subset.refl _⟩
      next =>
        split
        next => exact ⟨List.subset_cons_self _ _, List.Subset.refl _⟩
        next => exact ⟨List.subset_cons_self _ _, List.Subset.refl _⟩
  next =>
    cases hstep
    unfold remove
    split
    next => exact grows_of_same rfl rfl
    next =>
      dsimp only
      split
      next => exact grows_of_same rfl rfl
      next => exact grows_of_same rfl rfl
  next =>
    cases hstep
    unfold checkDead
    split
    next =>
      split
      next => exact grows_of_same rfl rfl
      next => exact grows_of_same rfl rfl
    next => exact grows_of_same rfl rfl
  next => cases hstep

theorem mem_deletedOther {name : Bytes} {size : Nat} {entries : List DirEntry}
    (hentries : entriesOf cfg (.other name (some size) :: entries) =
      .starting (.other name (some size) :: entries)) {s : State}
    (hs : Reaches (step cfg) CollectorOnly
      (start cfg store (.other name (some size) :: entries) tempRoots) s)
    (hstopped : s.control = .stopped (.ok ())) : name ∈ s.deletedOther := by
  have hinv : name ∈ s.deletedOther ∨
      s.control = .starting (.other name (some size) :: entries) := by
    refine hs.invariant (I := fun s => name ∈ s.deletedOther ∨
      s.control = .starting (.other name (some size) :: entries)) (.inr hentries) ?_
    intro s e s' hi hok hstep
    cases e with
    | collector =>
        rcases hi with hmem | hcontrol
        · exact .inl ((grows_advance hstep).deletedOther hmem)
        · rw [step, advance, hcontrol] at hstep
          cases hstep
          left
          rw [deleteOther]
          dsimp only
          split
          next => exact List.mem_cons_self
          next => exact List.mem_cons_self
    | receive hashPart => exact hok.elim
    | acknowledge hashPart => exact hok.elim
  refine hinv.resolve_right fun hcontrol => ?_
  rw [hcontrol] at hstopped
  cases hstopped

theorem paths_of_decides (hwhole : cfg.options.pathsToDelete = .wholeStore)
    (hlimit : cfg.options.maxFreed ≠ 0) (h : DecidesLiveness cfg store tempRoots dir)
    (name : Bytes) (size : Nat) : .other name (some size) ∉ dir := by
  intro hmem
  obtain ⟨live, dead, hlive, hdead, hdisjoint, -⟩ := h
  obtain ⟨before, after, rfl⟩ := List.append_of_mem hmem
  have hperm := (@List.perm_middle _ (DirEntry.other name (some size)) before after)
  have hentries : ∀ action, action = .gcReturnLive ∨ action = .gcReturnDead →
      entriesOf (returning cfg action) (.other name (some size) :: (before ++ after)) =
        .starting (.other name (some size) :: (before ++ after)) := by
    rintro action (rfl | rfl)
    · simp [entriesOf, returning, hwhole, hlimit]
    · simp [entriesOf, returning, hwhole, hlimit]
  obtain ⟨s, hs, hstopped, rfl⟩ := hlive _ hperm.symm
  obtain ⟨t, ht, hstopped', rfl⟩ := hdead _ hperm.symm
  exact Set.disjoint_left.mp hdisjoint
    (show Sum.inr name ∈ reported _ s from mem_deletedOther (hentries _ (.inl rfl)) hs hstopped)
    (show Sum.inr name ∈ reported _ t from mem_deletedOther (hentries _ (.inr rfl)) ht hstopped')

theorem concludes_true : Concludes cfg store tempRoots fun _ => True :=
  ⟨fun _ _ => trivial, fun _ _ _ _ => trivial, fun _ _ _ => trivial⟩

theorem verdicts_of_reaches {dir' : List DirEntry} (hdir : Readable cfg store dir)
    (hsame : ∀ e, e ∈ dir' ↔ e ∈ dir) {s : State}
    (hs : Reaches (step cfg) CollectorOnly (start cfg store dir' tempRoots) s) :
    Verdicts (fun _ => True) cfg store tempRoots dir s := by
  refine hs.invariant (verdicts_start hdir hsame) fun s e s' hi hok hstep => ?_
  cases e with
  | collector => exact verdicts_advance hdir concludes_true hi hstep
  | receive hashPart => exact hok.elim
  | acknowledge hashPart => exact hok.elim

/-- The first path of the directory is being tested, or is dead. -/
def TestsFirst (p : StorePath) (rest : List DirEntry) (s : State) : Prop :=
  p ∈ s.dead ∨ (∃ e, s.control = .stopped (.error e)) ∨
    (s.alive = [] ∧ (s.control = .starting (.path p :: rest) ∨
      (∃ search entries, s.control = .searching p search entries) ∨
        ∃ sorted entries, s.control = .deleting p sorted entries))

theorem testsFirst_visit {p q : StorePath} {visited todo : List StorePath}
    {rest entries : List DirEntry} {s : State} (hdir : Readable cfg store dir)
    (h : Verdicts (fun _ => True) cfg store tempRoots dir s)
    (hp : ¬FindsRoot cfg store tempRoots p) (halive : s.alive = [])
    (hcontrol : s.control = .searching p ⟨visited, q :: todo⟩ entries) :
    TestsFirst p rest (visit cfg p q ⟨visited, todo⟩ entries s) := by
  have hok := h.control
  rw [hcontrol] at hok
  obtain ⟨-, hregular, -, hreach, -⟩ := hok
  obtain ⟨-, hpath⟩ := hreach q (hregular.todo q List.mem_cons_self)
  have hroot : ¬IsRoot cfg tempRoots q := fun hroot => hp ⟨q, hroot, hpath⟩
  have hroots : q ∉ cfg.roots := fun hmem => hroot (.inl hmem)
  have htemp : q.hashPart ∉ s.tempRoots := fun hmem => hroot (.inr (h.sameTempRoots ▸ hmem))
  have hexcluded : cfg.isExcluded q = false := by rw [Config.isExcluded, hdir.wholeStore]
  have halive' : q ∉ s.alive := by
    rw [halive]
    exact List.not_mem_nil
  refine .inr (.inr ?_)
  unfold visit
  simp only [halive', hroots, hexcluded, htemp, if_false, Bool.false_eq_true]
  split
  next => exact ⟨halive, .inr (.inl ⟨_, _, rfl⟩)⟩
  next =>
    split
    next =>
      unfold cachedReferrers
      split
      next => exact ⟨halive, .inr (.inl ⟨_, _, rfl⟩)⟩
      next => exact ⟨halive, .inr (.inl ⟨_, _, rfl⟩)⟩
    next => exact ⟨halive, .inr (.inl ⟨_, _, rfl⟩)⟩

theorem testsFirst_advance {p : StorePath} {rest : List DirEntry} {s s' : State}
    (hdir : Readable cfg store dir) (h : Verdicts (fun _ => True) cfg store tempRoots dir s)
    (hp : ¬FindsRoot cfg store tempRoots p) (hfirst : TestsFirst p rest s)
    (hstep : advance cfg s = some s') : TestsFirst p rest s' := by
  rcases hfirst with hdead | ⟨e, hcontrol⟩ | ⟨halive, hcontrol | ⟨search, entries, hcontrol⟩ |
    ⟨sorted, entries, hcontrol⟩⟩
  · exact .inl ((grows_advance hstep).dead hdead)
  · rw [advance, hcontrol] at hstep
    cases hstep
  · rw [advance, hcontrol] at hstep
    cases hstep
    exact .inr (.inr ⟨halive, .inr (.inl ⟨_, _, rfl⟩)⟩)
  · obtain ⟨visited, _ | ⟨q, todo⟩⟩ := search
    · rw [advance, hcontrol] at hstep
      dsimp only at hstep
      split at hstep
      next => cases hstep; exact .inr (.inr ⟨halive, .inr (.inr ⟨_, _, rfl⟩)⟩)
      next => cases hstep; exact .inr (.inl ⟨_, rfl⟩)
    · rw [advance, hcontrol] at hstep
      cases hstep
      exact testsFirst_visit hdir h hp halive hcontrol
  · have hok := h.control
    rw [hcontrol] at hok
    cases sorted with
    | nil =>
        rw [advance, hcontrol] at hstep
        cases hstep
        exact .inl (hok.2.1.resolve_right List.not_mem_nil)
    | cons q sorted =>
        rw [advance, hcontrol] at hstep
        cases hstep
        refine .inr (.inr ?_)
        unfold checkDelete
        split
        next => exact ⟨halive, .inr (.inr ⟨_, _, rfl⟩)⟩
        next =>
          simp only [hdir.keeps, Bool.not_false, if_true]
          exact ⟨halive, .inr (.inr ⟨_, _, rfl⟩)⟩

theorem mem_dead_of_first {p : StorePath} {rest : List DirEntry} (hdir : Readable cfg store dir)
    (hsame : ∀ e, e ∈ DirEntry.path p :: rest ↔ e ∈ dir) (hp : ¬FindsRoot cfg store tempRoots p)
    {s : State} (hs : Reaches (step cfg) CollectorOnly
      (start cfg store (.path p :: rest) tempRoots) s)
    (hstopped : s.control = .stopped (.ok ())) : p ∈ s.dead := by
  have hinv : Verdicts (fun _ => True) cfg store tempRoots dir s ∧ TestsFirst p rest s := by
    refine hs.invariant (I := fun s => Verdicts (fun _ => True) cfg store tempRoots dir s ∧
      TestsFirst p rest s) ⟨verdicts_start hdir hsame, ?_⟩ fun s e s' hi hok hstep => ?_
    · exact .inr (.inr ⟨rfl, .inl (entriesOf_readable hdir)⟩)
    · cases e with
      | collector => exact ⟨verdicts_advance hdir concludes_true hi.1 hstep,
          testsFirst_advance hdir hi.1 hp hi.2 hstep⟩
      | receive hashPart => exact hok.elim
      | acknowledge hashPart => exact hok.elim
  rcases hinv.2 with hdead | ⟨e, he⟩ | ⟨-, hcontrol | ⟨_, _, hcontrol⟩ | ⟨_, _, hcontrol⟩⟩
  · exact hdead
  · rw [hstopped] at he
    cases he
  · rw [hstopped] at hcontrol
    cases hcontrol
  · rw [hstopped] at hcontrol
    cases hcontrol
  · rw [hstopped] at hcontrol
    cases hcontrol

theorem agrees_of_decides (h : Consistent store)
    (hcomplete : ∀ p, store.isValidPath p = true → InDir dir p)
    (hwhole : cfg.options.pathsToDelete = .wholeStore) (hlimit : cfg.options.maxFreed ≠ 0)
    (hdecides : DecidesLiveness cfg store tempRoots dir) : Agrees cfg store tempRoots dir := by
  have hpaths := paths_of_decides hwhole hlimit hdecides
  have hreadable : ∀ action, action = .gcReturnLive ∨ action = .gcReturnDead →
      Readable (returning cfg action) store dir :=
    fun action => readable_returning h hcomplete hwhole hlimit hpaths
  obtain ⟨live, dead, hlive, hdead, hdisjoint, hiff⟩ := hdecides
  -- A path without a root is dead in the run that tests it first.
  have hfirst : ∀ p, store.isValidPath p = true → ¬FindsRoot cfg store tempRoots p →
      .inl p ∈ dead ∧ ¬TransGen (Refers store) p p := by
    intro p hvalid hp
    have hperm : (.path p :: dir.erase (.path p)).Perm dir :=
      (List.perm_cons_erase (hcomplete p hvalid)).symm
    obtain ⟨s, hs, hstopped, rfl⟩ := hdead _ hperm
    have hmem := mem_dead_of_first (hreadable _ (.inr rfl)) (fun e => hperm.mem_iff) hp hs hstopped
    have hverdicts := verdicts_of_reaches (hreadable _ (.inr rfl)) (fun e => hperm.mem_iff) hs
    exact ⟨hmem, (hverdicts.dead p hmem).2.2⟩
  refine ⟨hlimit, hpaths, fun p hvalid => ⟨fun hp => ?_, fun hp => ?_⟩, fun p hp hcycle => ?_⟩
  · by_contra hnot
    exact Set.disjoint_left.mp hdisjoint ((hiff p hvalid).mpr hp) (hfirst p hvalid hnot).1
  · obtain ⟨s, hs, hstopped, rfl⟩ := hlive dir (List.Perm.refl dir)
    have hverdicts := verdicts_of_reaches (hreadable _ (.inl rfl)) (fun e => Iff.rfl) hs
    have hfound := found_of_verdicts hverdicts hstopped
    refine (hiff p hvalid).mp ?_
    exact (hfound.all p (hcomplete p hvalid)).resolve_right fun hmem => (hfound.dead p hmem).2.1 hp
  · obtain ⟨q, -, hqp⟩ := TransGen.tail'_iff.mp hcycle
    exact (hfirst p (@backward_of_refers cfg store h q p hqp).1 hp).2 hcycle

/-! ### Exactly when the decision is right -/

theorem reports_of_limit {action : GCAction} (hwhole : cfg.options.pathsToDelete = .wholeStore)
    (hlimit : cfg.options.maxFreed = 0) {results : Set (StorePath ⊕ Bytes)}
    (haction : action = .gcReturnLive ∨ action = .gcReturnDead) :
    Reports (returning cfg action) store tempRoots dir results ↔ results = ∅ := by
  have hcontrol : (start (returning cfg action) store dir tempRoots).control =
      .stopped (.ok ()) := by
    simp [start, entriesOf, returning, hwhole, hlimit]
  have hreported : reported (returning cfg action)
      (start (returning cfg action) store dir tempRoots) = ∅ := by
    refine Set.eq_empty_of_forall_notMem fun x hx => ?_
    cases x with
    | inl p => rcases haction with rfl | rfl <;> cases hx
    | inr name => cases hx
  constructor
  · rintro ⟨s, hs, -, rfl⟩
    have hstart : s = start (returning cfg action) store dir tempRoots := by
      refine hs.invariant (I := fun s => s = start (returning cfg action) store dir tempRoots) rfl
        fun s e s' hi hok hstep => ?_
      cases e with
      | collector =>
          rw [step, advance, hi, hcontrol] at hstep
          cases hstep
      | receive hashPart => exact hok.elim
      | acknowledge hashPart => exact hok.elim
    rw [hstart]
    exact hreported
  · rintro rfl
    exact ⟨_, .start, hcontrol, hreported⟩

theorem decidesLiveness_iff (h : Consistent store)
    (hcomplete : ∀ p, store.isValidPath p = true → InDir dir p)
    (hwhole : cfg.options.pathsToDelete = .wholeStore) :
    DecidesLiveness cfg store tempRoots dir ↔
      (cfg.options.maxFreed = 0 ∧
        ∀ p, store.isValidPath p = true → ¬Live cfg store tempRoots p) ∨
      Agrees cfg store tempRoots dir := by
  by_cases hlimit : cfg.options.maxFreed = 0
  · constructor
    · rintro ⟨live, dead, hlive, -, -, hiff⟩
      have hempty := (reports_of_limit hwhole hlimit (.inl rfl)).mp (hlive dir (List.Perm.refl dir))
      refine .inl ⟨hlimit, fun p hvalid hp => ?_⟩
      have hmem := (hiff p hvalid).mpr hp
      rw [hempty] at hmem
      exact hmem
    · rintro (⟨-, hnone⟩ | hagrees)
      · refine ⟨∅, ∅, fun _ _ => ?_, fun _ _ => ?_, Set.disjoint_empty _, fun p hvalid => ?_⟩
        · exact (reports_of_limit hwhole hlimit (.inl rfl)).mpr rfl
        · exact (reports_of_limit hwhole hlimit (.inr rfl)).mpr rfl
        · exact ⟨fun hmem => (by cases hmem), fun hlive => absurd hlive (hnone p hvalid)⟩
      · exact absurd hlimit hagrees.limit
  · constructor
    · exact fun hdecides => .inr (agrees_of_decides h hcomplete hwhole hlimit hdecides)
    · rintro (⟨hzero, -⟩ | hagrees)
      · exact absurd hzero hlimit
      · exact decides_of_agrees h hcomplete hwhole hagrees

/-! ### Two stores -/

def returnLive (keepDerivations : Bool) (roots : List StorePath) : Config where
  options := ⟨.gcReturnLive, .wholeStore, 1000⟩
  keepOutputs := false
  keepDerivations
  roots
  size _ := 10

theorem decidesLiveness_iff_sample :
    DecidesLiveness (returnLive true []) sampleTables [] [.path garbage] := by
  have hnoRoot : ∀ p, ¬IsRoot (returnLive true []) [] p := by
    rintro p (hmem | hmem)
    · cases hmem
    · cases hmem
  refine (decidesLiveness_iff consistent_sampleTables (fun p hp => ?_) rfl).mpr (.inr ⟨?_, ?_, ?_, ?_⟩)
  · obtain ⟨info, hinfo, rfl⟩ := isValidPath_iff.mp hp
    rw [List.mem_singleton.mp hinfo]
    exact List.mem_cons_self
  · exact Nat.succ_ne_zero 999
  · intro name size hmem
    cases List.mem_singleton.mp hmem
  · exact fun p _ => ⟨fun ⟨root, hroot, _⟩ => absurd hroot (hnoRoot root),
      fun ⟨root, hroot, _⟩ => absurd hroot (hnoRoot root)⟩
  · intro p _ hcycle
    obtain ⟨q, -, hqp⟩ := TransGen.tail'_iff.mp hcycle
    obtain ⟨info, hinfo, href, -⟩ := mem_queryReferrers.mp (show q ∈ sampleTables.queryReferrers p from
      (List.mem_append.mp (@backward_of_refers (returnLive false []) _ consistent_sampleTables q p
        hqp).2).resolve_right List.not_mem_nil)
    rw [List.mem_singleton.mp hinfo] at href
    cases href

def deriverPath : StorePath := ⟨List.replicate 32 97 ++ str "-output.drv", by decide⟩

def outputPath : StorePath := ⟨List.replicate 32 98 ++ str "-output", by decide⟩

/-- The deriver of the output is valid, and has no output of that path. -/
def derivedTables : Tables :=
  ⟨[{ path := outputPath, deriver := some deriverPath }, { path := deriverPath }], [], fun _ => []⟩

/-- The output keeps its deriver alive, and the search from the deriver does not come to the
output. -/
theorem not_decidesLiveness_deriver :
    ¬ ∀ (store : Tables), Consistent store → ∀ dir,
      (∀ p, store.isValidPath p = true → InDir dir p) → ∀ cfg tempRoots,
        cfg.options.pathsToDelete = .wholeStore → cfg.options.maxFreed ≠ 0 →
          DecidesLiveness cfg store tempRoots dir := by
  intro h
  have hconsistent : Consistent derivedTables := by
    refine ⟨by decide, fun info hinfo r hr => ?_⟩
    rcases List.mem_pair.mp hinfo with rfl | rfl
    · cases hr
    · cases hr
  have hcomplete : ∀ p, derivedTables.isValidPath p = true →
      InDir [.path outputPath, .path deriverPath] p := by
    intro p hp
    obtain ⟨info, hinfo, rfl⟩ := isValidPath_iff.mp hp
    rcases List.mem_pair.mp hinfo with rfl | rfl
    · exact List.mem_cons_self
    · exact List.mem_cons_of_mem _ List.mem_cons_self
  have hlimit : (returnLive true [outputPath]).options.maxFreed ≠ 0 := Nat.succ_ne_zero 999
  have hagrees := agrees_of_decides hconsistent hcomplete rfl hlimit
    (h derivedTables hconsistent _ hcomplete (returnLive true [outputPath]) [] rfl hlimit)
  have hlive : Live (returnLive true [outputPath]) derivedTables [] deriverPath :=
    ⟨outputPath, .inl List.mem_cons_self, .single ⟨[deriverPath], by decide, List.mem_cons_self⟩⟩
  obtain ⟨root, hroot, hpath⟩ := (hagrees.edges deriverPath (by decide)).mp hlive
  have hnone : derivedTables.queryReferrers deriverPath ++
      (returnLive true [outputPath]).keepers derivedTables deriverPath = [] := by decide
  rcases ReflTransGen.cases_head hpath with rfl | ⟨q, hq, -⟩
  · rcases hroot with hmem | hmem
    · exact absurd (List.mem_singleton.mp hmem) (by decide)
    · cases hmem
  · have hmem := hq.2
    rw [hnone] at hmem
    cases hmem

end Nix.Store.Liveness
