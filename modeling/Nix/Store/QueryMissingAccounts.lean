import Nix.Store.OutputQueryMaps
import Nix.Store.QueryMissing

/-!
What the result of a query accounts for: everything that is missing of the visited targets.
-/

set_option linter.dupNamespace false

namespace Nix.Store.QueryMissing

open Util.Types Util.Closure Lib.Results Lib.SortedList Lib.Transitions Store.Path Store.PathInfo
  Store.DerivedPaths Store.Derivations Store.OutputQueries
open Relation

variable {env : Env} {order order' : Order} {targets targets' : List DerivedPath}
  {res res' : MissingPaths}

theorem checkOutputs_spec {outputs : OutputsSpec} {l : List (Bytes × Option StorePath)}
    {invalid invalid' : StorePathSet} {known : Bool}
    (h : env.checkOutputs outputs l invalid = (known, invalid')) :
    (∀ path ∈ invalid, path ∈ invalid') ∧ (known = true → ∀ o ∈ l, ∃ path, o.2 = some path ∧
      (OutputsSpec.contains outputs o.1 = true → env.isValidPath path = false →
        path ∈ invalid')) := by
  induction l generalizing invalid with
  | nil =>
      cases h
      exact ⟨fun path hpath => hpath, fun _ => List.forall_mem_nil _⟩
  | cons o l ih =>
      obtain ⟨outputName, path | path⟩ := o
      · cases h
        exact ⟨fun path hpath => hpath, nofun⟩
      · obtain ⟨hsub, hall⟩ := ih h
        refine ⟨fun p hp => hsub p ?_, fun hknown => List.forall_mem_cons.mpr
          ⟨⟨path, rfl, fun hwanted hvalid => hsub path ?_⟩, hall hknown⟩⟩
        · split
          · exact SortedSet.mem_insert.mpr (.inr hp)
          · exact hp
        · rw [if_pos (by simp [hwanted, hvalid])]
          exact SortedSet.mem_insert.mpr (.inl rfl)

theorem checkRealisations_spec {drvPath : StorePath} {outputs : OutputsSpec} {names : List Bytes}
    {invalid invalid' : StorePathSet}
    (h : env.checkRealisations drvPath outputs names invalid = .ok (true, invalid')) :
    (∀ path ∈ invalid, path ∈ invalid') ∧
      ∀ outputName ∈ names, OutputsSpec.contains outputs outputName = true →
        ∃ path, firstRealisation env.substituters ⟨drvPath, outputName⟩ = .ok (some path) ∧
          (env.isValidPath path = false → path ∈ invalid') := by
  induction names generalizing invalid with
  | nil =>
      cases h
      exact ⟨fun path hpath => hpath, List.forall_mem_nil _⟩
  | cons outputName names ih =>
      rw [Env.checkRealisations] at h
      split at h
      next hwanted =>
        obtain ⟨realisation, hfirst, h⟩ := bind_eq_ok.mp h
        cases realisation with
        | none => cases h
        | some path =>
            obtain ⟨hsub, hall⟩ := ih h
            refine ⟨fun p hp => hsub p ?_, List.forall_mem_cons.mpr
              ⟨fun _ => ⟨path, hfirst, fun hvalid => hsub path ?_⟩, hall⟩⟩
            · split
              · exact hp
              · exact SortedSet.mem_insert.mpr (.inr hp)
            · rw [if_neg (by simp [hvalid])]
              exact SortedSet.mem_insert.mpr (.inl rfl)
      next hunwanted =>
        obtain ⟨hsub, hall⟩ := ih h
        exact ⟨hsub, List.forall_mem_cons.mpr ⟨fun hwanted => absurd hwanted hunwanted, hall⟩⟩

theorem trySubstitutes_spec {ca : Option ContentAddress} {outPaths : List StorePath}
    {substitutable : StorePathSet} {r : Option StorePathSet}
    (h : env.trySubstitutes ca outPaths substitutable = .ok r) :
    match r with
    | none => ∃ path ∈ outPaths, env.querySubstitutablePathInfo path ca = .ok none
    | some substitutable' =>
        (∀ path ∈ outPaths, ∃ info, env.querySubstitutablePathInfo path ca = .ok (some info)) ∧
          ∀ path, path ∈ substitutable' ↔ path ∈ substitutable ∨ path ∈ outPaths := by
  induction outPaths generalizing substitutable with
  | nil =>
      cases h
      exact ⟨List.forall_mem_nil _, fun path => by simp⟩
  | cons outPath outPaths ih =>
      obtain ⟨answer, hanswer, h⟩ := bind_eq_ok.mp h
      cases answer with
      | none =>
          cases h
          exact ⟨outPath, List.mem_cons_self, hanswer⟩
      | some info =>
          have hrest := ih h
          cases r with
          | none =>
              obtain ⟨path, hpath, hnone⟩ := hrest
              exact ⟨path, List.mem_cons_of_mem _ hpath, hnone⟩
          | some substitutable' =>
              refine ⟨List.forall_mem_cons.mpr ⟨⟨info, hanswer⟩, hrest.1⟩, fun path => ?_⟩
              rw [hrest.2, SortedSet.mem_insert, List.mem_cons, or_assoc, or_left_comm]

/-- The paths of outputs that are to be fetched, and whether those of all outputs are known. -/
def Env.outputsToFetch (env : Env) (drvPath : StorePath) (outputs : OutputsSpec) :
    Except Error (Bool × StorePathSet) := do
  let outputMap ← env.queryPartialDerivationOutputMap drvPath
  let drv ← env.store.readInvalidDerivation drvPath
  let substitutes ← env.substitutesAllowed drv
  env.findOutputs drvPath drv outputs substitutes
    (env.checkOutputs outputs outputMap.elems .empty)

/-- What is done about the outputs of a valid derivation. -/
inductive Plan (env : Env) (drvPath : StorePath) (outputs : OutputsSpec) : Visit → Prop
  | nothing {outputMap : OutputMap} :
      env.queryPartialDerivationOutputMap drvPath = .ok outputMap →
      env.checkOutputs outputs outputMap.elems .empty = (true, .empty) →
      Plan env drvPath outputs {}
  | build {drv : Derivation} : env.store.readInvalidDerivation drvPath = .ok drv →
      Plan env drvPath outputs (mustBuildDrv drvPath drv)
  | substitute {drv : Derivation} {toFetch : StorePathSet} :
      env.store.readInvalidDerivation drvPath = .ok drv →
      env.outputsToFetch drvPath outputs = .ok (true, toFetch) →
      (∀ path ∈ toFetch,
        ∃ info, env.querySubstitutablePathInfo path (getDerivationCA drv) = .ok (some info)) →
      Plan env drvPath outputs { edges := toFetch.elems.map .opaquePath }

theorem plan_of_visitBuilt {drvPath : StorePath} {outputs : OutputsSpec} {visit : Visit}
    (hvalid : env.isValidPath drvPath = true)
    (h : env.visitBuilt order drvPath outputs = .ok visit) : Plan env drvPath outputs visit := by
  rw [Env.visitBuilt, if_neg (by simp [hvalid])] at h
  obtain ⟨outputMap, hmap, h⟩ := bind_eq_ok.mp h
  dsimp only at h
  split at h
  next hdone =>
    cases h
    rw [Bool.and_eq_true, List.isEmpty_iff] at hdone
    refine .nothing hmap (Prod.ext hdone.1 ?_)
    exact SortedSet.eq_of_elems hdone.2
  next =>
    obtain ⟨drv, hread, h⟩ := bind_eq_ok.mp h
    obtain ⟨substitutes, hallowed, h⟩ := bind_eq_ok.mp h
    obtain ⟨⟨known, invalid⟩, hfind, h⟩ := bind_eq_ok.mp h
    dsimp only at h
    split at h
    next hknown =>
      obtain ⟨substitutable, htry, h⟩ := bind_eq_ok.mp h
      have hspec := trySubstitutes_spec htry
      cases substitutable with
      | none =>
          cases h
          exact .build hread
      | some substitutable =>
          cases h
          have hperm := order.outputs_perm (.built (.opaquePath drvPath) outputs) invalid.elems
          obtain rfl : substitutable = invalid := SortedSet.ext fun path => by
            rw [hspec.2, hperm.mem_iff]
            exact or_iff_right (SortedSet.not_mem_empty path)
          refine .substitute hread ?_ fun path hpath => hspec.1 path (hperm.mem_iff.mpr hpath)
          rw [Bool.and_eq_true] at hknown
          obtain ⟨rfl, -⟩ := hknown
          exact bind_eq_ok.mpr ⟨outputMap, hmap, bind_eq_ok.mpr ⟨drv, hread,
            bind_eq_ok.mpr ⟨substitutes, hallowed, hfind⟩⟩⟩
    next =>
      cases h
      exact .build hread

theorem trySubstitutes_agree {ca : Option ContentAddress} {l l' : List StorePath}
    {r r' : Option StorePathSet} (hperm : l.Perm l')
    (h : env.trySubstitutes ca l .empty = .ok r) (h' : env.trySubstitutes ca l' .empty = .ok r') :
    r = r' := by
  have hspec := trySubstitutes_spec h
  have hspec' := trySubstitutes_spec h'
  cases r with
  | none =>
      cases r' with
      | none => rfl
      | some substitutable' =>
          obtain ⟨path, hpath, hnone⟩ := hspec
          obtain ⟨info, hinfo⟩ := hspec'.1 path (hperm.mem_iff.mp hpath)
          cases hnone.symm.trans hinfo
  | some substitutable =>
      cases r' with
      | none =>
          obtain ⟨path, hpath, hnone⟩ := hspec'
          obtain ⟨info, hinfo⟩ := hspec.1 path (hperm.mem_iff.mpr hpath)
          cases hnone.symm.trans hinfo
      | some substitutable' =>
          refine congrArg some (SortedSet.ext fun path => ?_)
          rw [hspec.2, hspec'.2, hperm.mem_iff]

theorem visitBuilt_agree {drvPath : StorePath} {outputs : OutputsSpec} {visit visit' : Visit}
    (h : env.visitBuilt order drvPath outputs = .ok visit)
    (h' : env.visitBuilt order' drvPath outputs = .ok visit') : visit = visit' := by
  rw [Env.visitBuilt] at h h'
  split at h
  next hinvalid =>
    rw [if_pos hinvalid] at h'
    exact Except.ok.inj (h.symm.trans h')
  next hvalid =>
    rw [if_neg hvalid] at h'
    obtain ⟨outputMap, hmap, h⟩ := bind_eq_ok.mp h
    obtain ⟨_, hmap', h'⟩ := bind_eq_ok.mp h'
    obtain rfl := Except.ok.inj (hmap.symm.trans hmap')
    dsimp only at h h'
    split at h
    next hdone =>
      rw [if_pos hdone] at h'
      exact Except.ok.inj (h.symm.trans h')
    next hmissing =>
      rw [if_neg hmissing] at h'
      obtain ⟨drv, hread, h⟩ := bind_eq_ok.mp h
      obtain ⟨_, hread', h'⟩ := bind_eq_ok.mp h'
      obtain rfl := Except.ok.inj (hread.symm.trans hread')
      obtain ⟨substitutes, hallowed, h⟩ := bind_eq_ok.mp h
      obtain ⟨_, hallowed', h'⟩ := bind_eq_ok.mp h'
      obtain rfl := Except.ok.inj (hallowed.symm.trans hallowed')
      obtain ⟨⟨known, invalid⟩, hfind, h⟩ := bind_eq_ok.mp h
      obtain ⟨_, hfind', h'⟩ := bind_eq_ok.mp h'
      obtain rfl := Except.ok.inj (hfind.symm.trans hfind')
      dsimp only at h h'
      split at h
      next hknown =>
        rw [if_pos hknown] at h'
        obtain ⟨r, htry, h⟩ := bind_eq_ok.mp h
        obtain ⟨r', htry', h'⟩ := bind_eq_ok.mp h'
        -- The outputs are looked up in different orders.
        let req : DerivedPath := .built (.opaquePath drvPath) outputs
        have hperm := (order.outputs_perm req invalid.elems).trans
          (order'.outputs_perm req invalid.elems).symm
        obtain rfl := trySubstitutes_agree hperm htry htry'
        exact Except.ok.inj (h.symm.trans h')
      next hunknown =>
        rw [if_neg hunknown] at h'
        exact Except.ok.inj (h.symm.trans h')

theorem getEdges_agree {req : DerivedPath} {visit visit' : Visit}
    (h : env.getEdges order req = .ok visit) (h' : env.getEdges order' req = .ok visit') :
    visit = visit' := by
  cases req with
  | opaquePath path => exact Except.ok.inj (h.symm.trans h')
  | built drvPath outputs =>
      cases drvPath with
      | built drvPath output => exact Except.ok.inj (h.symm.trans h')
      | opaquePath drvPath => exact visitBuilt_agree h h'

theorem visited_of_order {req : DerivedPath}
    (hok : ∀ req, env.Visited order targets req → ∃ visit, env.getEdges order req = .ok visit)
    (hok' : ∀ req, env.Visited order' targets' req → ∃ visit, env.getEdges order' req = .ok visit)
    (htargets : ∀ req ∈ targets, req ∈ targets') (h : env.Visited order targets req) :
    env.Visited order' targets' req := by
  rcases h with hmem | ⟨a, ha, hpath⟩
  · cases hmem
  · induction hpath with
    | refl => exact .inr ⟨a, htargets a ha, .refl⟩
    | @tail b c hab hbc ih =>
        obtain ⟨visit, hvisit⟩ := hok b (.inr ⟨a, ha, hab⟩)
        obtain ⟨visit', hvisit'⟩ := hok' b ih
        obtain rfl := getEdges_agree hvisit hvisit'
        obtain ⟨a', ha', hpath'⟩ := ih.resolve_left List.not_mem_nil
        refine .inr ⟨a', ha', hpath'.tail ⟨List.not_mem_nil, ?_⟩⟩
        have hbc := hbc.2
        simp only [Env.followed, hvisit, hvisit'] at hbc ⊢
        rw [(order.edges_perm b _).mem_iff] at hbc
        exact (order'.edges_perm b _).mem_iff.mpr hbc

theorem Env.Returns.unique (h : env.Returns order targets res)
    (h' : env.Returns order' targets' res') (htargets : ∀ req, req ∈ targets ↔ req ∈ targets') :
    res = res' := by
  obtain ⟨done, hnodup, hvisited, rfl, hok⟩ := h.exists_done
  obtain ⟨done', hnodup', hvisited', rfl, hok'⟩ := h'.exists_done
  have hreturns : ∀ req, env.Visited order targets req →
      ∃ visit, env.getEdges order req = .ok visit :=
    fun req hreq => hok req ((hvisited req).mpr hreq)
  have hreturns' : ∀ req, env.Visited order' targets' req →
      ∃ visit, env.getEdges order' req = .ok visit :=
    fun req hreq => hok' req ((hvisited' req).mpr hreq)
  have hperm : done.Perm done' := by
    refine (List.perm_ext_iff_of_nodup hnodup hnodup').mpr fun req => ?_
    rw [hvisited, hvisited']
    exact ⟨visited_of_order hreturns hreturns' fun req => (htargets req).mp,
      visited_of_order hreturns' hreturns fun req => (htargets req).mpr⟩
  rw [env.total_perm hperm]
  refine List.foldl_ext _ _ _ fun res req hreq => ?_
  obtain ⟨visit, hvisit⟩ := hok req (hperm.mem_iff.mpr hreq)
  obtain ⟨visit', hvisit'⟩ := hok' req hreq
  obtain rfl := getEdges_agree hvisit hvisit'
  rw [Env.found, Env.found, hvisit, hvisit']

end Nix.Store.QueryMissing
