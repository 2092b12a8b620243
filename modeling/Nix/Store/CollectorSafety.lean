import Nix.Store.GarbageCollector

set_option linter.dupNamespace false

namespace Nix.Store.CollectorSafety

open Util.Types Util.TopoSort Lib.Table Lib.Transitions Lib.Worklists Store.Path
  Store.GarbageCollector

/-! ### What a run keeps -/

def Closed (s : Tables) : Prop :=
  ∀ info ∈ s.infos, ∀ r ∈ info.references, s.isValidPath r = true

structure Consistent (s : Tables) : Prop where
  nodup : (s.infos.map Info.path).Nodup
  closed : Closed s

def removes (s : State) : Option StorePath :=
  match s.control with
  | .removing p _ _ _ => some p
  | _ => none

/-- A root that the server has acknowledged is not being deleted. -/
def KeepsAcknowledged (s : State) : Prop :=
  ∀ p, removes s = some p → p.hashPart ∉ s.acknowledged

/-- A run that is asked for specific paths has deleted them if it ends without an error. -/
def DeletesSpecific (cfg : Config) (s : State) : Prop :=
  ∀ paths deleteReferrers, cfg.options.action = .gcDeleteSpecific →
    cfg.options.pathsToDelete = .specificPaths paths deleteReferrers →
      s.control = .stopped (.ok ()) → ∀ p ∈ paths, p ∈ s.deleted

/-- No path becomes a root after the search has visited it, and the limit is not reached. -/
def NoLateRoot (cfg : Config) (s : State) : Event → Prop
  | .collector =>
      match s.control with
      | .deleting _ (p :: _) _ => p ∈ s.dead ∨ p.hashPart ∉ s.tempRoots
      | .removing p _ _ _ => s.bytesFreed + cfg.size p ≤ cfg.options.maxFreed
      | _ => True
  | _ => True

/-! ### The tables -/

theorem isValidPath_iff {s : Tables} {p : StorePath} :
    s.isValidPath p = true ↔ ∃ info ∈ s.infos, info.path = p := by
  rw [Tables.isValidPath, Tables.queryPathInfo, Option.isSome_iff_ne_none, ne_eq,
    select_eq_none, not_not, List.mem_map]

theorem isValidPath_invalidatePath {s : Tables} {p q : StorePath} :
    (s.invalidatePath p).isValidPath q = true ↔ s.isValidPath q = true ∧ q ≠ p := by
  rw [isValidPath_iff, isValidPath_iff]
  constructor
  · rintro ⟨info, hinfo, rfl⟩
    obtain ⟨hmem, hne⟩ := List.mem_filter.mp hinfo
    exact ⟨⟨info, hmem, rfl⟩, of_decide_eq_true hne⟩
  · rintro ⟨⟨info, hmem, rfl⟩, hne⟩
    exact ⟨info, List.mem_filter.mpr ⟨hmem, decide_eq_true hne⟩, rfl⟩

theorem mem_queryReferrers {s : Tables} {p r : StorePath} :
    r ∈ s.queryReferrers p ↔ ∃ info ∈ s.infos, p ∈ info.references ∧ info.path = r := by
  simp [Tables.queryReferrers, and_assoc]

theorem referencesOf_of_mem {s : Tables} (h : Consistent s) {info : Info} (hinfo : info ∈ s.infos) :
    s.referencesOf info.path = info.references := by
  rw [Tables.referencesOf, Tables.queryPathInfo, select_of_mem h.nodup hinfo]

theorem consistent_invalidatePath {s : Tables} (h : Consistent s) {p : StorePath}
    (hfree : ∀ info ∈ s.infos, p ∈ info.references → info.path = p) :
    Consistent (s.invalidatePath p) := by
  refine ⟨h.nodup.sublist (List.filter_sublist.map _), fun info hinfo r hr => ?_⟩
  obtain ⟨hmem, hne⟩ := List.mem_filter.mp hinfo
  refine isValidPath_invalidatePath.mpr ⟨h.closed info hmem r hr, ?_⟩
  rintro rfl
  exact of_decide_eq_true hne (hfree info hmem hr)

/-! ### Every run -/

structure Safe (s : State) : Prop where
  roots : ∀ hashPart, hashPart ∈ s.received ∨ hashPart ∈ s.acknowledged → hashPart ∈ s.tempRoots
  removing : ∀ p, removes s = some p →
    s.pending = some p.hashPart ∧ p.hashPart ∉ s.acknowledged
  consistent : Consistent s.store

theorem safe_of_same {s s' : State} (h : Safe s) (hstore : s'.store = s.store)
    (htempRoots : s'.tempRoots = s.tempRoots) (hreceived : s'.received = s.received)
    (hacknowledged : s'.acknowledged = s.acknowledged) (hremoves : removes s' = none) : Safe s' := by
  refine ⟨?_, fun p hp => ?_, ?_⟩
  · rw [htempRoots, hreceived, hacknowledged]
    exact h.roots
  · rw [hremoves] at hp
    cases hp
  · rw [hstore]
    exact h.consistent

variable {cfg : Config}

theorem safe_visit {start p : StorePath} {search : Worklist StorePath} {entries : List DirEntry}
    {s : State} (h : Safe s) : Safe (visit cfg start p search entries s) := by
  unfold visit
  split
  next => exact safe_of_same h rfl rfl rfl rfl rfl
  next =>
    split
    next => exact safe_of_same h rfl rfl rfl rfl rfl
    next =>
      split
      next => exact safe_of_same h rfl rfl rfl rfl rfl
      next =>
        split
        next => exact safe_of_same h rfl rfl rfl rfl rfl
        next =>
          split
          next => exact safe_of_same h rfl rfl rfl rfl rfl
          next =>
            dsimp only
            split
            next =>
              unfold cachedReferrers
              split
              next => exact safe_of_same h rfl rfl rfl rfl rfl
              next => exact safe_of_same h rfl rfl rfl rfl rfl
            next => exact safe_of_same h rfl rfl rfl rfl rfl

theorem safe_checkDelete {start p : StorePath} {paths : List StorePath} {entries : List DirEntry}
    {s : State} (h : Safe s) : Safe (checkDelete cfg start p paths entries s) := by
  unfold checkDelete
  split
  next => exact safe_of_same h rfl rfl rfl rfl rfl
  next =>
    dsimp only
    split
    next => exact safe_of_same h rfl rfl rfl rfl rfl
    next =>
      split
      next => exact safe_of_same h rfl rfl rfl rfl rfl
      next hnew =>
        refine ⟨h.roots, fun q hq => ?_, h.consistent⟩
        cases hq
        exact ⟨rfl, fun hack => hnew (h.roots _ (.inr hack))⟩

theorem safe_remove {start p : StorePath} {paths : List StorePath} {entries : List DirEntry}
    {s : State} (h : Safe s) : Safe (remove cfg start p paths entries s) := by
  unfold remove
  split
  next => exact safe_of_same h rfl rfl rfl rfl rfl
  next hfree =>
    have hconsistent : Consistent (s.store.invalidatePath p) := by
      refine consistent_invalidatePath h.consistent fun info hinfo hp => ?_
      by_contra hne
      refine hfree (Bool.and_eq_true_iff.mpr ⟨h.consistent.closed info hinfo p hp, ?_⟩)
      exact List.any_eq_true.mpr ⟨info.path, mem_queryReferrers.mpr ⟨info, hinfo, hp, rfl⟩,
        decide_eq_true hne⟩
    dsimp only
    split
    next => exact ⟨h.roots, fun q hq => (by cases hq), hconsistent⟩
    next => exact ⟨h.roots, fun q hq => (by cases hq), hconsistent⟩

theorem safe_advance {s s' : State} (h : Safe s) (hstep : advance cfg s = some s') : Safe s' := by
  unfold advance at hstep
  split at hstep
  next =>
    cases hstep
    exact safe_of_same h rfl rfl rfl rfl rfl
  next =>
    cases hstep
    exact safe_of_same h rfl rfl rfl rfl rfl
  next =>
    cases hstep
    unfold deleteOther
    split
    next => exact safe_of_same h rfl rfl rfl rfl rfl
    next =>
      dsimp only
      split
      next => exact safe_of_same h rfl rfl rfl rfl rfl
      next => exact safe_of_same h rfl rfl rfl rfl rfl
  next =>
    split at hstep
    next =>
      cases hstep
      exact safe_of_same h rfl rfl rfl rfl rfl
    next =>
      cases hstep
      exact safe_of_same h rfl rfl rfl rfl rfl
  next =>
    cases hstep
    exact safe_visit h
  next =>
    cases hstep
    exact safe_of_same h rfl rfl rfl rfl rfl
  next =>
    cases hstep
    exact safe_checkDelete h
  next =>
    cases hstep
    exact safe_remove h
  next =>
    cases hstep
    unfold checkDead
    split
    next =>
      split
      next => exact safe_of_same h rfl rfl rfl rfl rfl
      next => exact safe_of_same h rfl rfl rfl rfl rfl
    next => exact safe_of_same h rfl rfl rfl rfl rfl
  next => cases hstep

theorem safe_step (s : State) (e : Event) (s' : State) (h : Safe s) (_ : True)
    (hstep : step cfg s e = some s') : Safe s' := by
  cases e with
  | collector => exact safe_advance h hstep
  | receive hashPart =>
      cases hstep
      refine ⟨fun x hx => ?_, h.removing, h.consistent⟩
      rw [List.mem_cons]
      rcases hx with hx | hx
      · exact (List.mem_cons.mp hx).imp_right fun hx => h.roots x (.inl hx)
      · exact .inr (h.roots x (.inr hx))
  | acknowledge hashPart =>
      rw [step] at hstep
      split at hstep
      next hguard =>
        cases hstep
        refine ⟨fun x hx => ?_, fun p hp => ?_, h.consistent⟩
        · rcases hx with hx | hx
          · exact h.roots x (.inl hx)
          · rcases List.mem_cons.mp hx with rfl | hx
            · exact h.roots _ (.inl hguard.1)
            · exact h.roots x (.inr hx)
        · obtain ⟨hpending, hnot⟩ := h.removing p hp
          refine ⟨hpending, fun hmem => ?_⟩
          rcases List.mem_cons.mp hmem with heq | hmem
          · exact hguard.2 (hpending.trans (congrArg some heq))
          · exact hnot hmem
      next => cases hstep

theorem entriesOf_cases (cfg : Config) (dir : List DirEntry) :
    (∃ entries, entriesOf cfg dir = .starting entries) ∨ ∃ r, entriesOf cfg dir = .stopped r := by
  unfold entriesOf
  split
  next => exact .inl ⟨_, rfl⟩
  next =>
    split
    next => exact .inr ⟨_, rfl⟩
    next =>
      split
      next => exact .inr ⟨_, rfl⟩
      next => exact .inl ⟨_, rfl⟩

theorem safe_start {store : Tables} (h : Consistent store) (dir : List DirEntry)
    (tempRoots : List Bytes) : Safe (GarbageCollector.start cfg store dir tempRoots) := by
  refine ⟨fun x hx => by simp [GarbageCollector.start] at hx, fun p hp => ?_, h⟩
  unfold removes GarbageCollector.start at hp
  rcases entriesOf_cases cfg dir with ⟨entries, hentries⟩ | ⟨r, hr⟩
  · rw [hentries] at hp
    cases hp
  · rw [hr] at hp
    cases hp

/-! ### The entries that are left -/

def entriesLeft : Control → List DirEntry
  | .starting entries => entries
  | .searching _ _ entries => entries
  | .deleting _ _ entries => entries
  | .removing _ _ _ entries => entries
  | .checking _ entries => entries
  | .stopped _ => []

theorem entriesLeft_visit (start p : StorePath) (search : Worklist StorePath)
    (entries : List DirEntry) (s : State) :
    entriesLeft (visit cfg start p search entries s).control = entries := by
  unfold visit
  split
  next => rfl
  next =>
    split
    next => rfl
    next =>
      split
      next => rfl
      next =>
        split
        next => rfl
        next =>
          split
          next => rfl
          next =>
            dsimp only
            split
            next =>
              unfold cachedReferrers
              split <;> rfl
            next => rfl

theorem entriesLeft_advance {s s' : State} (hstep : advance cfg s = some s') :
    entriesLeft s'.control ⊆ entriesLeft s.control := by
  unfold advance at hstep
  split at hstep
  next hcontrol =>
    cases hstep
    exact List.nil_subset _
  next hcontrol =>
    cases hstep
    rw [hcontrol]
    exact List.subset_cons_self _ _
  next hcontrol =>
    cases hstep
    rw [hcontrol]
    unfold deleteOther
    split
    next => exact List.subset_cons_self _ _
    next =>
      dsimp only
      split
      next => exact List.nil_subset _
      next => exact List.subset_cons_self _ _
  next hcontrol =>
    split at hstep
    next =>
      cases hstep
      rw [hcontrol]
      exact List.Subset.refl _
    next =>
      cases hstep
      exact List.nil_subset _
  next hcontrol =>
    cases hstep
    rw [hcontrol, entriesLeft_visit]
    exact List.Subset.refl _
  next hcontrol =>
    cases hstep
    rw [hcontrol]
    exact List.Subset.refl _
  next hcontrol =>
    cases hstep
    rw [hcontrol]
    unfold checkDelete
    split
    next => exact List.Subset.refl _
    next =>
      dsimp only
      split
      next => exact List.Subset.refl _
      next => split <;> exact List.Subset.refl _
  next hcontrol =>
    cases hstep
    rw [hcontrol]
    unfold remove
    split
    next => exact List.Subset.refl _
    next =>
      dsimp only
      split
      next => exact List.nil_subset _
      next => exact List.Subset.refl _
  next hcontrol =>
    cases hstep
    rw [hcontrol]
    unfold checkDead
    split
    next =>
      split
      next => exact List.Subset.refl _
      next => exact List.nil_subset _
    next => exact List.Subset.refl _
  next => cases hstep

/-! ### Runs that delete specific paths -/

section Specific

variable {paths : List StorePath} {deleteReferrers : Bool}

def Upcoming (paths : List StorePath) (s : State) (start : StorePath) (entries : List DirEntry) :
    Prop :=
  ∀ p ∈ paths, p ∈ s.dead ∨ p = start ∨ .path p ∈ entries

/-- The referrers of a path that is not dead have gone before it. -/
def Ready (s : State) (gone : List StorePath) (sorted : List StorePath) : Prop :=
  ∀ before p after, sorted = before ++ p :: after → p ∉ s.dead →
    ∀ info ∈ s.store.infos, p ∈ info.references →
      info.path = p ∨ info.path ∈ gone ∨ info.path ∈ before

def ControlOk (paths : List StorePath) (s : State) : Control → Prop
  | .starting entries => ∀ p ∈ paths, p ∈ s.dead ∨ .path p ∈ entries
  | .searching start search entries =>
      Upcoming paths s start entries ∧ start ∈ search.visited ∧
        ∀ p ∈ search.visited, p ∈ search.todo ∨ p ∈ s.dead ∨
          ∀ info ∈ s.store.infos, p ∈ info.references → info.path ∈ search.visited
  | .deleting start sorted entries =>
      Upcoming paths s start entries ∧ (start ∈ s.dead ∨ start ∈ sorted) ∧ Ready s [] sorted
  | .removing p start sorted entries =>
      Upcoming paths s start entries ∧ (start ∈ s.dead ∨ start ∈ sorted) ∧
        (∀ info ∈ s.store.infos, p ∈ info.references → info.path = p) ∧ Ready s [p] sorted
  | .checking start entries => Upcoming paths s start entries
  | .stopped r => r = .ok () → ∀ p ∈ paths, p ∈ s.dead

structure Deletes (paths : List StorePath) (s : State) : Prop where
  safe : Safe s
  dead : ∀ p ∈ s.dead, p ∈ s.deleted ∨ removes s = some p
  gone : ∀ p ∈ s.deleted, s.store.isValidPath p = false
  cache : ∀ entry ∈ s.referrersCache, ∀ info ∈ s.store.infos, entry.1 ∈ info.references →
    info.path ∈ entry.2
  control : ControlOk paths s s.control

theorem deletes_of_same {s s' : State} (h : Deletes paths s) (hsafe : Safe s')
    (hremoves : removes s = none) (hstore : s'.store = s.store) (hdead : s'.dead = s.dead)
    (hdeleted : s'.deleted = s.deleted) (hcache : s'.referrersCache = s.referrersCache)
    (hcontrol : ControlOk paths s' s'.control) : Deletes paths s' := by
  refine ⟨hsafe, ?_, ?_, ?_, hcontrol⟩
  · rw [hdead, hdeleted]
    intro p hp
    exact .inl ((h.dead p hp).resolve_right (by simp [hremoves]))
  · rw [hdeleted, hstore]
    exact h.gone
  · rw [hcache, hstore]
    exact h.cache

theorem not_mem_of_gone {s : State} (h : Deletes paths s) {p : StorePath} (hp : p ∈ s.deleted)
    {info : Info} (hinfo : info ∈ s.store.infos) : info.path ≠ p := by
  rintro rfl
  have hvalid := isValidPath_iff.mpr ⟨info, hinfo, rfl⟩
  rw [h.gone info.path hp] at hvalid
  cases hvalid

theorem mem_cachedReferrers {s : State} (h : Deletes paths s) {p : StorePath} :
    (∀ info ∈ s.store.infos, p ∈ info.references → info.path ∈ (cachedReferrers p s).1) ∧
      ∀ entry ∈ (cachedReferrers p s).2.referrersCache, ∀ info ∈ s.store.infos,
        entry.1 ∈ info.references → info.path ∈ entry.2 := by
  unfold cachedReferrers
  split
  next entry hentry =>
    refine ⟨fun info hinfo hp => ?_, h.cache⟩
    exact h.cache entry (mem_of_select hentry) info hinfo (by rwa [key_of_select hentry])
  next =>
    refine ⟨fun info hinfo hp => mem_queryReferrers.mpr ⟨info, hinfo, hp, rfl⟩, ?_⟩
    intro entry hentry
    rcases List.mem_cons.mp hentry with rfl | hentry
    · exact fun info hinfo hp => mem_queryReferrers.mpr ⟨info, hinfo, hp, rfl⟩
    · exact h.cache entry hentry

theorem deletes_visit {start p : StorePath} {visited todo : List StorePath}
    {entries : List DirEntry} {s : State} (h : Deletes paths s)
    (hcontrol : s.control = .searching start ⟨visited, p :: todo⟩ entries) :
    Deletes paths (visit cfg start p ⟨visited, todo⟩ entries s) := by
  have hsafe : Safe (visit cfg start p ⟨visited, todo⟩ entries s) := safe_visit h.safe
  have hremoves : removes s = none := by rw [removes, hcontrol]
  obtain ⟨hupcoming, hstart, hvisited⟩ : ControlOk paths s (.searching start ⟨visited, p :: todo⟩ entries) :=
    hcontrol ▸ h.control
  -- The other paths wait as before.
  have hrest : ∀ q ∈ visited, q = p ∨ q ∈ todo ∨ q ∈ s.dead ∨
      ∀ info ∈ s.store.infos, q ∈ info.references → info.path ∈ visited := by
    intro q hq
    rcases hvisited q hq with hmem | hdead | hrefs
    · exact (List.mem_cons.mp hmem).imp_right .inl
    · exact .inr (.inr (.inl hdead))
    · exact .inr (.inr (.inr hrefs))
  unfold visit at hsafe ⊢
  split
  next => exact deletes_of_same h (by simpa [*] using hsafe) hremoves rfl rfl rfl rfl hupcoming
  next halive =>
    rw [if_neg halive] at hsafe
    split
    next hdead =>
      rw [if_pos hdead] at hsafe
      refine deletes_of_same h hsafe hremoves rfl rfl rfl rfl ⟨hupcoming, hstart, fun q hq => ?_⟩
      rcases hrest q hq with rfl | htail
      · exact .inr (.inl hdead)
      · exact htail
    next hdead =>
      rw [if_neg hdead] at hsafe
      split
      next hroot =>
        rw [if_pos hroot] at hsafe
        exact deletes_of_same h hsafe hremoves rfl rfl rfl rfl hupcoming
      next hroot =>
        rw [if_neg hroot] at hsafe
        split
        next hexcluded =>
          rw [if_pos hexcluded] at hsafe
          exact deletes_of_same h hsafe hremoves rfl rfl rfl rfl hupcoming
        next hexcluded =>
          rw [if_neg hexcluded] at hsafe
          split
          next htemp =>
            rw [if_pos htemp] at hsafe
            exact deletes_of_same h hsafe hremoves rfl rfl rfl rfl hupcoming
          next htemp =>
            rw [if_neg htemp] at hsafe
            dsimp only at hsafe ⊢
            split
            next hvalid =>
              rw [if_pos hvalid] at hsafe
              have hpending : Deletes paths { s with pending := some p.hashPart } :=
                deletes_of_same h (safe_of_same h.safe rfl rfl rfl rfl hremoves) hremoves rfl rfl
                  rfl rfl h.control
              obtain ⟨hreferrers, hcache⟩ := mem_cachedReferrers hpending (p := p)
              have hsame : (cachedReferrers p { s with pending := some p.hashPart }).2 = { s with
                  pending := some p.hashPart
                  referrersCache :=
                    (cachedReferrers p { s with pending := some p.hashPart }).2.referrersCache } := by
                unfold cachedReferrers
                split <;> rfl
              rcases hcached : cachedReferrers p { s with pending := some p.hashPart } with
                ⟨referrers, t⟩
              rw [hcached] at hreferrers hcache hsame hsafe
              dsimp only at hreferrers hcache hsame hsafe ⊢
              refine ⟨hsafe, ?_, ?_, ?_, ?_⟩
              · rw [hsame]
                intro q hq
                exact .inl ((h.dead q hq).resolve_right (by simp [hremoves]))
              · rw [hsame]
                exact h.gone
              · rw [hsame]
                exact hcache
              · rw [hsame]
                refine ⟨hupcoming, Worklist.mem_visited_enqueueAll.mpr (.inl hstart), fun q hq => ?_⟩
                by_cases hnew : q ∈ visited
                · rcases hrest q hnew with rfl | hmem | hgone | hrefs
                  · refine .inr (.inr fun info hinfo hq => ?_)
                    exact Worklist.mem_visited_enqueueAll.mpr
                      (.inr (List.mem_append_left _ (hreferrers info hinfo hq)))
                  · exact .inl (Worklist.mem_todo_enqueueAll.mpr (.inl hmem))
                  · exact .inr (.inl hgone)
                  · exact .inr (.inr fun info hinfo hq =>
                      Worklist.mem_visited_enqueueAll.mpr (.inl (hrefs info hinfo hq)))
                · exact .inl (Worklist.mem_todo_enqueueAll.mpr (.inr
                    ⟨(Worklist.mem_visited_enqueueAll.mp hq).resolve_left hnew, hnew⟩))
            next hvalid =>
              rw [if_neg hvalid] at hsafe
              refine deletes_of_same h hsafe hremoves rfl rfl rfl rfl
                ⟨hupcoming, hstart, fun q hq => ?_⟩
              rcases hrest q hq with rfl | htail
              · exact .inr (.inr fun info hinfo hq =>
                  absurd (h.safe.consistent.closed info hinfo q hq) hvalid)
              · exact htail

theorem Ready.tail {s s' : State} {p : StorePath} {gone sorted : List StorePath}
    (h : Ready s gone (p :: sorted)) (hdead : ∀ q, q ∈ s.dead → q ∈ s'.dead)
    (hinfos : ∀ info ∈ s'.store.infos, info ∈ s.store.infos) :
    Ready s' (p :: gone) sorted := by
  intro before q after hsplit hq info hinfo href
  rcases h (p :: before) q after (by rw [hsplit]; rfl) (fun hmem => hq (hdead q hmem)) info
      (hinfos info hinfo) href with hself | hgone | hbefore
  · exact .inl hself
  · exact .inr (.inl (List.mem_cons_of_mem p hgone))
  · rcases List.mem_cons.mp hbefore with hp | hbefore
    · exact .inr (.inl (hp ▸ List.mem_cons_self))
    · exact .inr (.inr hbefore)

theorem Ready.forget {s : State} {p : StorePath} {sorted : List StorePath}
    (h : Ready s [p] sorted) (hp : ∀ info ∈ s.store.infos, info.path ≠ p) : Ready s [] sorted := by
  intro before q after hsplit hq info hinfo href
  rcases h before q after hsplit hq info hinfo href with hself | hgone | hbefore
  · exact .inl hself
  · exact absurd (List.mem_singleton.mp hgone) (hp info hinfo)
  · exact .inr (.inr hbefore)

theorem dead_or_upcoming_of_dead {start p : StorePath} {dead sorted : List StorePath}
    (h : start ∈ dead ∨ start ∈ p :: sorted) (hp : p ∈ dead) : start ∈ dead ∨ start ∈ sorted := by
  rcases h with h | h
  · exact .inl h
  · rcases List.mem_cons.mp h with rfl | h
    · exact .inl hp
    · exact .inr h

theorem dead_or_upcoming_cons {start p : StorePath} {dead sorted : List StorePath}
    (h : start ∈ dead ∨ start ∈ p :: sorted) : start ∈ p :: dead ∨ start ∈ sorted :=
  dead_or_upcoming_of_dead (h.imp_left (List.mem_cons_of_mem p)) List.mem_cons_self

theorem deletes_checkDelete {start p : StorePath} {sorted : List StorePath}
    {entries : List DirEntry} {s : State} (haction : cfg.options.action = .gcDeleteSpecific)
    (h : Deletes paths s) (hcontrol : s.control = .deleting start (p :: sorted) entries)
    (hok : p ∈ s.dead ∨ p.hashPart ∉ s.tempRoots) :
    Deletes paths (checkDelete cfg start p sorted entries s) := by
  have hsafe : Safe (checkDelete cfg start p sorted entries s) := safe_checkDelete h.safe
  have hremoves : removes s = none := by rw [removes, hcontrol]
  obtain ⟨hupcoming, hstart, hready⟩ :
    ControlOk paths s (.deleting start (p :: sorted) entries) := hcontrol ▸ h.control
  have hshould : cfg.shouldDelete = true := by simp [Config.shouldDelete, haction]
  unfold checkDelete at hsafe ⊢
  split
  next hdead =>
    rw [if_pos hdead] at hsafe
    have hdeleted : p ∈ s.deleted := (h.dead p hdead).resolve_right (by simp [hremoves])
    refine deletes_of_same h hsafe hremoves rfl rfl rfl rfl ⟨hupcoming, dead_or_upcoming_of_dead hstart hdead, ?_⟩
    · have htail : Ready s [p] sorted := hready.tail (fun _ hq => hq) fun _ hinfo => hinfo
      exact htail.forget fun info hinfo => not_mem_of_gone h hdeleted hinfo
  next hdead =>
    rw [if_neg hdead] at hsafe
    have hnotroot := hok.resolve_left hdead
    simp only [hshould, hnotroot, Bool.not_true, Bool.false_eq_true, if_false] at hsafe ⊢
    refine ⟨hsafe, fun q hq => ?_, h.gone, h.cache, ?_, dead_or_upcoming_cons hstart, ?_, ?_⟩
    · rcases List.mem_cons.mp hq with rfl | hq
      · exact .inr rfl
      · exact .inl ((h.dead q hq).resolve_right (by simp [hremoves]))
    · exact fun q hq => (hupcoming q hq).imp_left (List.mem_cons_of_mem p)
    · intro info hinfo href
      rcases hready [] p sorted rfl hdead info hinfo href with hself | hgone | hbefore
      · exact hself
      · cases hgone
      · cases hbefore
    · exact hready.tail (fun _ hq => List.mem_cons_of_mem p hq) fun _ hinfo => hinfo

theorem deletes_remove {start p : StorePath} {sorted : List StorePath} {entries : List DirEntry}
    {s : State} (h : Deletes paths s) (hcontrol : s.control = .removing p start sorted entries)
    (hok : s.bytesFreed + cfg.size p ≤ cfg.options.maxFreed) :
    Deletes paths (remove cfg start p sorted entries s) := by
  have hsafe : Safe (remove cfg start p sorted entries s) := safe_remove h.safe
  have hremoves : removes s = some p := by rw [removes, hcontrol]
  obtain ⟨hupcoming, hstart, hself, hready⟩ :
    ControlOk paths s (.removing p start sorted entries) := hcontrol ▸ h.control
  -- All other referrers have been deleted before.
  have hfree : ¬(s.store.isValidPath p && (s.store.queryReferrers p).any (· ≠ p)) = true := by
    intro huse
    obtain ⟨-, hany⟩ := Bool.and_eq_true_iff.mp huse
    obtain ⟨r, hr, hne⟩ := List.any_eq_true.mp hany
    obtain ⟨info, hinfo, href, rfl⟩ := mem_queryReferrers.mp hr
    exact of_decide_eq_true hne (hself info hinfo href)
  have hlimit : ¬s.bytesFreed + cfg.size p > cfg.options.maxFreed := Nat.not_lt.mpr hok
  unfold remove at hsafe ⊢
  rw [if_neg hfree] at hsafe ⊢
  dsimp only at hsafe ⊢
  rw [if_neg hlimit] at hsafe ⊢
  have hinfos : ∀ info ∈ (s.store.invalidatePath p).infos, info ∈ s.store.infos :=
    fun info hinfo => (List.mem_filter.mp hinfo).1
  refine ⟨hsafe, fun q hq => ?_, fun q hq => ?_, ?_, hupcoming, hstart, ?_⟩
  · rcases h.dead q hq with hdeleted | hq
    · exact .inl (List.mem_cons_of_mem p hdeleted)
    · rw [hremoves] at hq
      cases hq
      exact .inl List.mem_cons_self
  · have hiff := @isValidPath_invalidatePath s.store p q
    rw [← Bool.not_eq_true, hiff]
    rcases List.mem_cons.mp hq with rfl | hq
    · exact fun hvalid => hvalid.2 rfl
    · rw [h.gone q hq]
      exact fun hvalid => Bool.false_ne_true hvalid.1
  · intro entry hentry info hinfo
    exact h.cache entry (List.mem_filter.mp hentry).1 info (hinfos info hinfo)
  · refine Ready.forget (p := p) ?_ fun info hinfo => of_decide_eq_true (List.mem_filter.mp hinfo).2
    intro before q after hsplit hq info hinfo
    exact hready before q after hsplit hq info (hinfos info hinfo)

theorem deletes_sorted {start : StorePath} {visited sorted : List StorePath}
    {entries : List DirEntry} {s : State} (h : Deletes paths s)
    (hcontrol : s.control = .searching start ⟨visited, []⟩ entries)
    (hsorted : topoSortPaths s.store visited = .ok sorted) :
    Deletes paths { s with control := .deleting start sorted entries } := by
  have hremoves : removes s = none := by rw [removes, hcontrol]
  obtain ⟨hupcoming, hstart, hvisited⟩ :
    ControlOk paths s (.searching start ⟨visited, []⟩ entries) := hcontrol ▸ h.control
  have horder : topoSort visited s.store.referencesOf = .ok (.inl sorted) := by
    unfold topoSortPaths at hsorted
    split at hsorted <;> simp_all
  obtain ⟨-, hmem, hbefore⟩ := order_of_topoSort horder
  refine deletes_of_same h (safe_of_same h.safe rfl rfl rfl rfl rfl) hremoves rfl rfl rfl rfl
    ⟨hupcoming, .inr ((hmem start).mpr hstart), ?_⟩
  intro before p after hsplit hp info hinfo href
  have hpvisited : p ∈ visited := (hmem p).mp (by rw [hsplit]; simp)
  have hinfovisited : info.path ∈ visited := by
    rcases hvisited p hpvisited with htodo | hdead | hrefs
    · cases htodo
    · exact absurd hdead hp
    · exact hrefs info hinfo href
  by_cases hself : info.path = p
  · exact .inl hself
  · refine .inr (.inr (hbefore before p after hsplit info.path hinfovisited ?_))
    refine List.mem_filter.mpr ⟨?_, decide_eq_true ⟨Ne.symm hself, hpvisited⟩⟩
    rw [referencesOf_of_mem h.safe.consistent hinfo]
    exact href

theorem deletes_advance {s s' : State} (haction : cfg.options.action = .gcDeleteSpecific)
    (hpaths : cfg.options.pathsToDelete = .specificPaths paths deleteReferrers)
    (h : Deletes paths s) (hentries : ∀ e ∈ entriesLeft s.control, ∃ p, e = .path p)
    (hok : NoLateRoot cfg s .collector) (hstep : advance cfg s = some s') :
    Deletes paths s' := by
  have hsafe := safe_advance h.safe hstep
  have hcontrolOk := h.control
  unfold advance at hstep
  unfold NoLateRoot at hok
  split at hstep
  next hcontrol =>
    cases hstep
    rw [hcontrol] at hcontrolOk
    refine deletes_of_same h hsafe (by rw [removes, hcontrol]) rfl rfl rfl rfl fun _ p hp => ?_
    exact (hcontrolOk p hp).resolve_right List.not_mem_nil
  next p entries hcontrol =>
    cases hstep
    rw [hcontrol] at hcontrolOk
    refine deletes_of_same h hsafe (by rw [removes, hcontrol]) rfl rfl rfl rfl
      ⟨fun q hq => ?_, List.mem_cons_self, fun q hq => .inl hq⟩
    rcases hcontrolOk q hq with hdead | hmem
    · exact .inl hdead
    · rcases List.mem_cons.mp hmem with heq | hmem
      · cases heq
        exact .inr (.inl rfl)
      · exact .inr (.inr hmem)
  next name size entries hcontrol =>
    rw [hcontrol] at hentries
    obtain ⟨p, hp⟩ := hentries _ List.mem_cons_self
    cases hp
  next start visited entries hcontrol =>
    split at hstep
    next sorted hsorted =>
      cases hstep
      exact deletes_sorted h hcontrol hsorted
    next e he =>
      cases hstep
      exact deletes_of_same h hsafe (by rw [removes, hcontrol]) rfl rfl rfl rfl fun herror => by cases herror
  next start visited p todo entries hcontrol =>
    cases hstep
    exact deletes_visit h hcontrol
  next start entries hcontrol =>
    cases hstep
    rw [hcontrol] at hcontrolOk
    exact deletes_of_same h hsafe (by rw [removes, hcontrol]) rfl rfl rfl rfl hcontrolOk.1
  next start p sorted entries hcontrol =>
    cases hstep
    rw [hcontrol] at hok
    exact deletes_checkDelete haction h hcontrol hok
  next p start sorted entries hcontrol =>
    cases hstep
    rw [hcontrol] at hok
    exact deletes_remove h hcontrol hok
  next start entries hcontrol =>
    cases hstep
    rw [hcontrol] at hcontrolOk
    unfold checkDead at hsafe ⊢
    rw [haction, hpaths] at hsafe ⊢
    dsimp only at hsafe ⊢
    split
    next hdead =>
      rw [if_pos hdead] at hsafe
      refine deletes_of_same h hsafe (by rw [removes, hcontrol]) rfl rfl rfl rfl fun p hp => ?_
      rcases hcontrolOk p hp with hp | rfl | hp
      · exact .inl hp
      · exact .inl hdead
      · exact .inr hp
    next hdead =>
      rw [if_neg hdead] at hsafe
      exact deletes_of_same h hsafe (by rw [removes, hcontrol]) rfl rfl rfl rfl
        fun herror => by cases herror
  next => cases hstep

theorem deletes_step {s s' : State} {e : Event} (haction : cfg.options.action = .gcDeleteSpecific)
    (hpaths : cfg.options.pathsToDelete = .specificPaths paths deleteReferrers)
    (h : Deletes paths s ∧ ∀ e ∈ entriesLeft s.control, ∃ p, e = .path p)
    (hok : NoLateRoot cfg s e) (hstep : step cfg s e = some s') :
    Deletes paths s' ∧ ∀ e ∈ entriesLeft s'.control, ∃ p, e = .path p := by
  obtain ⟨h, hentries⟩ := h
  have hsafe := safe_step s e s' h.safe trivial hstep
  cases e with
  | collector =>
      exact ⟨deletes_advance haction hpaths h hentries hok hstep,
        fun e he => hentries e (entriesLeft_advance hstep he)⟩
  | receive hashPart =>
      cases hstep
      exact ⟨⟨hsafe, h.dead, h.gone, h.cache, h.control⟩, hentries⟩
  | acknowledge hashPart =>
      rw [step] at hstep
      split at hstep
      next =>
        cases hstep
        exact ⟨⟨hsafe, h.dead, h.gone, h.cache, h.control⟩, hentries⟩
      next => cases hstep

theorem deletes_start {store : Tables} {dir : List DirEntry} {tempRoots : List Bytes}
    (hpaths : cfg.options.pathsToDelete = .specificPaths paths deleteReferrers)
    (h : Consistent store) :
    Deletes paths (GarbageCollector.start cfg store dir tempRoots) ∧
      ∀ e ∈ entriesLeft (GarbageCollector.start cfg store dir tempRoots).control,
        ∃ p, e = .path p := by
  have hcontrol : (GarbageCollector.start cfg store dir tempRoots).control =
      .starting (paths.map .path) := by
    rw [GarbageCollector.start, entriesOf, hpaths]
  rw [hcontrol]
  refine ⟨⟨safe_start h dir tempRoots, ?_, ?_, ?_, ?_⟩, ?_⟩
  · intro p hp
    cases hp
  · intro p hp
    cases hp
  · intro entry hentry
    cases hentry
  · rw [hcontrol]
    exact fun p hp => .inr (List.mem_map_of_mem hp)
  · intro e he
    obtain ⟨p, -, rfl⟩ := List.mem_map.mp he
    exact ⟨p, rfl⟩

end Specific

/-- In every run no acknowledged root is deleted and the store stays closed. If no path becomes a
root after it was visited, and the limit is not reached, then all specified paths are deleted. -/
theorem safe_and_deletesSpecific {store : Tables} (h : Consistent store) (cfg : Config)
    (dir : List DirEntry) (tempRoots : List Bytes) :
    (∀ s, Reaches (step cfg) (fun _ _ => True) (GarbageCollector.start cfg store dir tempRoots) s →
      KeepsAcknowledged s ∧ Closed s.store) ∧
    ∀ s, Reaches (step cfg) (NoLateRoot cfg) (GarbageCollector.start cfg store dir tempRoots) s →
      DeletesSpecific cfg s := by
  refine ⟨fun s hs => ?_, fun s hs paths deleteReferrers haction hpaths hstopped p hp => ?_⟩
  · have hsafe := hs.invariant (safe_start h dir tempRoots) safe_step
    exact ⟨fun p hp => (hsafe.removing p hp).2, hsafe.consistent.closed⟩
  · obtain ⟨hdeletes, -⟩ := hs.invariant
      (I := fun s => Deletes paths s ∧ ∀ e ∈ entriesLeft s.control, ∃ p, e = .path p)
      (deletes_start hpaths h) fun _ _ _ hi hok hstep => deletes_step haction hpaths hi hok hstep
    have hcontrol := hdeletes.control
    rw [hstopped] at hcontrol
    refine (hdeletes.dead p (hcontrol rfl p hp)).resolve_right ?_
    rw [removes, hstopped]
    simp

/-! ### A store with one path -/

def garbage : StorePath := ⟨List.replicate 32 97 ++ str "-garbage", by decide⟩

def sampleTables : Tables := ⟨[{ path := garbage }], [], fun _ => []⟩

def deleteGarbage : Config where
  options := ⟨.gcDeleteSpecific, .specificPaths [garbage] false, 1000⟩
  keepOutputs := false
  keepDerivations := true
  roots := []
  size _ := 10

theorem consistent_sampleTables : Consistent sampleTables := by
  refine ⟨List.nodup_singleton _, ?_⟩
  intro info hinfo r hr
  rw [List.mem_singleton.mp hinfo] at hr
  cases hr

instance (cfg : Config) (s : State) (e : Event) : Decidable (NoLateRoot cfg s e) := by
  unfold NoLateRoot
  split
  · split <;> infer_instance
  · infer_instance

theorem safe_and_deletesSpecific_sample :
    ∃ s, exec (step deleteGarbage) (NoLateRoot deleteGarbage)
        (GarbageCollector.start deleteGarbage sampleTables [] []) (List.replicate 8 .collector) =
          some s ∧
      DeletesSpecific deleteGarbage s := by
  have hrun : (exec (step deleteGarbage) (NoLateRoot deleteGarbage)
      (GarbageCollector.start deleteGarbage sampleTables [] [])
        (List.replicate 8 .collector)).isSome = true := by decide
  obtain ⟨s, hs⟩ := Option.isSome_iff_exists.mp hrun
  exact ⟨s, hs, (safe_and_deletesSpecific consistent_sampleTables deleteGarbage [] []).2 s
    (Reaches.start.exec hs)⟩

/-- The path becomes a root when it has been visited. It is not deleted, and there is no error. -/
def lateRoot : List Event :=
  [.collector, .collector, .receive garbage.hashPart] ++ List.replicate 5 .collector

/-- The run is over, without an error. -/
def finished (s : State) : Bool :=
  match s.control with
  | .stopped (.ok ()) => true
  | _ => false

theorem not_deletesSpecific_lateRoot :
    ¬ ∀ (store : Tables), Consistent store → ∀ cfg dir tempRoots s,
      Reaches (step cfg) (fun _ _ => True) (GarbageCollector.start cfg store dir tempRoots) s →
        KeepsAcknowledged s ∧ Closed s.store ∧ DeletesSpecific cfg s := by
  intro h
  have hrun : (exec (step deleteGarbage) (fun _ _ => True)
      (GarbageCollector.start deleteGarbage sampleTables [] []) lateRoot).map
        (fun s => (finished s, s.deleted)) = some (true, []) := by decide
  obtain ⟨s, hs, hfacts⟩ := Option.map_eq_some_iff.mp hrun
  have hdeleted : s.deleted = [] := congrArg Prod.snd hfacts
  have hstopped : s.control = .stopped (.ok ()) := by
    have hok := congrArg Prod.fst hfacts
    dsimp only [finished] at hok
    split at hok
    next heq => exact heq
    next => cases hok
  obtain ⟨-, -, hspecific⟩ := h sampleTables consistent_sampleTables deleteGarbage [] [] s
    (Reaches.start.exec hs)
  have hmem := hspecific [garbage] false rfl rfl hstopped garbage List.mem_cons_self
  rw [hdeleted] at hmem
  cases hmem

end Nix.Store.CollectorSafety
