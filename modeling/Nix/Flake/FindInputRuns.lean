import Nix.Flake.FindInput

set_option linter.dupNamespace false

namespace Nix.Flake.LockFiles

open Util.Types Lib.SortedList Lib.Table

variable {ι : Type} [DecidableEq ι] {lf : LockFile ι}

theorem LockFile.deref_mem {i : ι} {node : LockedNode ι} (h : lf.deref i = some node) :
    (i, node) ∈ lf.nodes := by
  obtain ⟨e, he, rfl⟩ := Option.map_eq_some_iff.mp h
  exact key_of_select he ▸ mem_of_select he

theorem LockFile.input_mem {pos : Option ι} {elem : FlakeId} {edge : Edge ι}
    (h : lf.input pos elem = some edge) :
    (elem, edge) ∈ lf.root.elems ∨ ∃ e ∈ lf.nodes, (elem, edge) ∈ e.2.inputs.elems := by
  obtain ⟨inputs, hinputs, hfind⟩ := Option.bind_eq_some_iff.mp h
  have hmem := SortedMap.find?_eq_some.mp hfind
  cases pos with
  | none =>
    cases hinputs
    exact Or.inl hmem
  | some i =>
    obtain ⟨node, hnode, rfl⟩ := Option.map_eq_some_iff.mp hinputs
    exact Or.inr ⟨(i, node), deref_mem hnode, hmem⟩

theorem LockFile.follows_mem {pos : Option ι} {elem : FlakeId} {follows : InputAttrPath}
    (h : lf.input pos elem = some (.follows follows)) : follows ∈ lf.followed := by
  refine List.mem_filterMap.mpr ⟨(elem, .follows follows), ?_, rfl⟩
  rcases input_mem h with hroot | hnode
  · exact List.mem_append_left _ hroot
  · exact List.mem_append_right _ (List.mem_flatMap.mpr hnode)

theorem LockFile.Leads.subset {pos : Option ι} {path : InputAttrPath}
    {trace : List InputAttrPath} {r : Option (Option ι)} (h : lf.Leads pos path trace r) :
    trace ⊆ lf.followed := by
  induction h with
  | here | missing => exact List.nil_subset _
  | node _ _ ih => exact ih
  | follows hi _ _ ih ih' =>
    exact List.append_subset.mpr ⟨List.cons_subset.mpr ⟨follows_mem hi, ih⟩, ih'⟩
  | followsMissing _ hi _ ih => exact List.cons_subset.mpr ⟨follows_mem hi, ih⟩

def LockFile.Present (lf : LockFile ι) (pos : Option ι) : Prop :=
  ∃ inputs, lf.inputsOf pos = some inputs

theorem LockFile.Closed.present (hc : lf.Closed) {pos : Option ι} {elem : FlakeId} {child : ι}
    (h : lf.input pos elem = some (.node child)) : lf.Present (some child) := by
  have hsome : (lf.deref child).isSome := by
    rcases input_mem h with hroot | ⟨e, he, hnode⟩
    · exact hc.root elem child hroot
    · exact hc.node e he elem child hnode
  obtain ⟨node, hnode⟩ := Option.isSome_iff_exists.mp hsome
  exact ⟨node.inputs, by rw [LockFile.inputsOf, hnode, Option.map_some]⟩

theorem LockFile.present_root : lf.Present none :=
  ⟨lf.root, rfl⟩

theorem LockFile.Leads.present (hc : lf.Closed) {pos p : Option ι} {path : InputAttrPath}
    {trace : List InputAttrPath} (h : lf.Leads pos path trace (some p)) (hpos : lf.Present pos) :
    lf.Present p := by
  generalize hr : some p = r at h
  induction h generalizing p with
  | here pos =>
    cases hr
    exact hpos
  | missing | followsMissing => cases hr
  | node hi _ ih => exact ih (hc.present hi) hr
  | follows _ _ _ ih ih' => exact ih' (ih present_root rfl) hr

/-- What `doFind` and the loop return, with the paths that they visit. -/
theorem LockFile.findLoop_sound
    {doFind : InputAttrPath → List InputAttrPath →
      Except Error (Option (Option ι) × List InputAttrPath)}
    (hfind : ∀ path visited r visited', doFind path visited = .ok (r, visited') →
      ∃ trace, lf.Leads none path trace r ∧ visited' = visited ++ path :: trace ∧
        (visited.Nodup → visited'.Nodup))
    {path : InputAttrPath} {pos : Option ι} {visited visited' : List InputAttrPath}
    {r : Option (Option ι)} (h : lf.findLoop doFind path pos visited = .ok (r, visited')) :
    ∃ trace, lf.Leads pos path trace r ∧ visited' = visited ++ trace ∧
      (visited.Nodup → visited'.Nodup) := by
  induction path generalizing pos visited with
  | nil =>
    cases h
    exact ⟨[], .here pos, (List.append_nil _).symm, id⟩
  | cons elem path ih =>
    rw [findLoop] at h
    cases hinputs : lf.inputsOf pos with
    | none => simp [hinputs] at h
    | some inputs =>
      have hinput : lf.input pos elem = inputs.find? elem := by
        rw [input, hinputs, Option.bind_some]
      simp only [hinputs] at h
      cases hi : inputs.find? elem with
      | none =>
        simp only [hi] at h
        cases h
        exact ⟨[], .missing path (hinput.trans hi), (List.append_nil _).symm, id⟩
      | some edge =>
        rw [hi] at hinput
        cases edge with
        | node child =>
          simp only [hi] at h
          obtain ⟨trace, hleads, hvisited, hnodup⟩ := ih h
          exact ⟨trace, .node hinput hleads, hvisited, hnodup⟩
        | follows follows =>
          simp only [hi] at h
          cases hrun : doFind follows visited with
          | error e => simp [hrun] at h
          | ok res =>
            obtain ⟨p, visited₁⟩ := res
            obtain ⟨trace₁, hfollows, rfl, hnodup₁⟩ := hfind follows visited p visited₁ hrun
            simp only [hrun] at h
            cases p with
            | none =>
              cases h
              exact ⟨_, .followsMissing path hinput hfollows, rfl, hnodup₁⟩
            | some p =>
              obtain ⟨trace₂, hrest, rfl, hnodup₂⟩ := ih h
              exact ⟨_, .follows hinput hfollows hrest, by simp, fun hv => hnodup₂ (hnodup₁ hv)⟩

theorem LockFile.doFind_sound {fuel : Nat} {path : InputAttrPath}
    {visited visited' : List InputAttrPath} {r : Option (Option ι)}
    (h : lf.doFind fuel path visited = .ok (r, visited')) :
    ∃ trace, lf.Leads none path trace r ∧ visited' = visited ++ path :: trace ∧
      (visited.Nodup → visited'.Nodup) := by
  induction fuel generalizing path visited r visited' with
  | zero => cases h
  | succ fuel ih =>
    rw [doFind] at h
    split at h
    · cases h
    next hnew =>
      obtain ⟨trace, hleads, rfl, hnodup⟩ := findLoop_sound (fun _ _ _ _ => ih) h
      refine ⟨trace, hleads, by simp, fun hv => hnodup ?_⟩
      exact hv.append (List.nodup_singleton path) (by simpa using hnew)

theorem LockFile.doFind_of_findLoop {fuel : Nat} {follows : InputAttrPath}
    {visited trace : List InputAttrPath} {r : Option (Option ι)}
    (hnodup : (visited ++ follows :: trace).Nodup)
    (h : lf.findLoop (lf.doFind fuel) follows none (visited ++ [follows]) =
      .ok (r, visited ++ [follows] ++ trace)) :
    lf.doFind (fuel + 1) follows visited = .ok (r, visited ++ follows :: trace) := by
  have hnew : follows ∉ visited := fun hmem =>
    (List.nodup_append.mp hnodup).2.2 follows hmem follows List.mem_cons_self rfl
  rw [doFind, if_neg hnew, h, List.append_assoc, List.singleton_append]

theorem LockFile.findLoop_complete (hc : lf.Closed) {fuel : Nat} {pos : Option ι}
    {path : InputAttrPath} {trace : List InputAttrPath} {r : Option (Option ι)}
    (h : lf.Leads pos path trace r) (hpos : lf.Present pos) (hfuel : trace.length ≤ fuel)
    {visited : List InputAttrPath} (hnodup : (visited ++ trace).Nodup) :
    lf.findLoop (lf.doFind fuel) path pos visited = .ok (r, visited ++ trace) := by
  induction h generalizing fuel visited with
  | here pos => rw [findLoop, List.append_nil]
  | missing path hi =>
    obtain ⟨inputs, hinputs⟩ := hpos
    rw [input, hinputs, Option.bind_some] at hi
    simp only [findLoop, hinputs, hi, List.append_nil]
  | node hi hrest ih =>
    have hchild := hc.present hi
    obtain ⟨inputs, hinputs⟩ := hpos
    rw [input, hinputs, Option.bind_some] at hi
    simp only [findLoop, hinputs, hi]
    exact ih hchild hfuel hnodup
  | @follows pos elem path follows p trace₁ trace₂ r hi hfollows hrest ih₁ ih₂ =>
    obtain ⟨inputs, hinputs⟩ := hpos
    rw [input, hinputs, Option.bind_some] at hi
    rw [List.length_append, List.length_cons] at hfuel
    obtain ⟨fuel, rfl⟩ := Nat.exists_eq_succ_of_ne_zero (show fuel ≠ 0 by omega)
    rw [← List.append_assoc] at hnodup
    have hnodup₁ : (visited ++ follows :: trace₁).Nodup := (List.nodup_append.mp hnodup).1
    have hrun : lf.doFind (fuel + 1) follows visited =
        .ok (some p, visited ++ follows :: trace₁) :=
      doFind_of_findLoop hnodup₁ (ih₁ present_root (by omega) (by simpa using hnodup₁))
    simp only [findLoop, hinputs, hi, hrun]
    rw [ih₂ (hfollows.present hc present_root) (by omega) hnodup, List.append_assoc]
  | @followsMissing pos elem path follows trace hi hfollows ih =>
    obtain ⟨inputs, hinputs⟩ := hpos
    rw [input, hinputs, Option.bind_some] at hi
    rw [List.length_cons] at hfuel
    obtain ⟨fuel, rfl⟩ := Nat.exists_eq_succ_of_ne_zero (show fuel ≠ 0 by omega)
    have hrun : lf.doFind (fuel + 1) follows visited = .ok (none, visited ++ follows :: trace) :=
      doFind_of_findLoop hnodup (ih present_root (by omega) (by simpa using hnodup))
    simp only [findLoop, hinputs, hi, hrun]

/-- The paths visited are among `paths`, and there is fuel for the others. -/
structure Bounded (paths visited : List InputAttrPath) (fuel : Nat) : Prop where
  nodup : visited.Nodup
  subset : visited ⊆ paths
  fuel : paths.length < fuel + visited.length

theorem LockFile.findLoop_error (hc : lf.Closed) {paths : List InputAttrPath} {fuel : Nat}
    (hpaths : lf.followed ⊆ paths)
    (hfind : ∀ path visited e, lf.doFind fuel path visited = .error e → path ∈ paths →
      Bounded paths visited fuel → ∃ cycle, e = followCycle cycle)
    {path : InputAttrPath} {pos : Option ι} {visited : List InputAttrPath} {e : Error}
    (h : lf.findLoop (lf.doFind fuel) path pos visited = .error e) (hpos : lf.Present pos)
    (hb : Bounded paths visited fuel) : ∃ cycle, e = followCycle cycle := by
  induction path generalizing pos visited with
  | nil => cases h
  | cons elem path ih =>
    obtain ⟨inputs, hinputs⟩ := hpos
    have hinput : lf.input pos elem = inputs.find? elem := by
      rw [input, hinputs, Option.bind_some]
    simp only [findLoop, hinputs] at h
    cases hi : inputs.find? elem with
    | none => simp [hi] at h
    | some edge =>
      rw [hi] at hinput
      cases edge with
      | node child =>
        simp only [hi] at h
        exact ih h (hc.present hinput) hb
      | follows follows =>
        simp only [hi] at h
        cases hrun : lf.doFind fuel follows visited with
        | error e' =>
          simp only [hrun] at h
          cases h
          exact hfind follows visited e hrun (hpaths (follows_mem hinput)) hb
        | ok res =>
          obtain ⟨p, visited₁⟩ := res
          obtain ⟨trace, hfollows, rfl, hnodup⟩ := doFind_sound hrun
          simp only [hrun] at h
          cases p with
          | none => cases h
          | some p =>
            have htrace : follows :: trace ⊆ paths :=
              List.cons_subset.mpr ⟨hpaths (follows_mem hinput), List.Subset.trans hfollows.subset hpaths⟩
            have hfuel := hb.fuel
            refine ih h (hfollows.present hc present_root) ⟨hnodup hb.nodup,
              List.append_subset.mpr ⟨hb.subset, htrace⟩, ?_⟩
            rw [List.length_append]
            omega

theorem LockFile.doFind_error (hc : lf.Closed) {paths : List InputAttrPath}
    (hpaths : lf.followed ⊆ paths) {fuel : Nat} {path : InputAttrPath}
    {visited : List InputAttrPath} {e : Error} (h : lf.doFind fuel path visited = .error e)
    (hpath : path ∈ paths) (hb : Bounded paths visited fuel) : ∃ cycle, e = followCycle cycle := by
  induction fuel generalizing path visited e with
  | zero =>
    have hle := hb.nodup.length_le_of_subset hb.subset
    have hlt := hb.fuel
    omega
  | succ fuel ih =>
    rw [doFind] at h
    split at h
    · cases h
      exact ⟨_, rfl⟩
    next hnew =>
      have hfuel := hb.fuel
      refine findLoop_error hc hpaths (fun _ _ _ h' hp hb' => ih h' hp hb') h present_root
        ⟨?_, ?_, ?_⟩
      · exact hb.nodup.append (List.nodup_singleton path) (by simpa using hnew)
      · exact List.append_subset.mpr ⟨hb.subset, by simpa using hpath⟩
      · rw [List.length_append, List.length_singleton]
        omega

theorem LockFile.findInput_eq_ok {path : InputAttrPath} {r : Option (Option ι)}
    (h : lf.findInput path = .ok r) :
    ∃ trace, lf.Leads none path trace r ∧ (path :: trace).Nodup := by
  rw [findInput] at h
  cases hrun : lf.doFind (lf.followed.length + 2) path [] with
  | error e => simp [hrun, Except.map] at h
  | ok res =>
    obtain ⟨r', visited⟩ := res
    rw [hrun] at h
    cases h
    obtain ⟨trace, hleads, rfl, hnodup⟩ := doFind_sound hrun
    exact ⟨trace, hleads, hnodup List.nodup_nil⟩

theorem LockFile.findInput_of_leads (hc : lf.Closed) {path : InputAttrPath}
    {trace : List InputAttrPath} {r : Option (Option ι)} (h : lf.Leads none path trace r)
    (hnodup : (path :: trace).Nodup) : lf.findInput path = .ok r := by
  have hle := (List.nodup_cons.mp hnodup).2.length_le_of_subset h.subset
  have hloop : lf.findLoop (lf.doFind (lf.followed.length + 1)) path none ([] ++ [path]) =
      .ok (r, [] ++ [path] ++ trace) :=
    findLoop_complete hc h present_root (Nat.le_succ_of_le hle) hnodup
  have hnodup' : ([] ++ path :: trace).Nodup := hnodup
  rw [findInput, doFind_of_findLoop hnodup' hloop]
  rfl

theorem LockFile.findInput_error (hc : lf.Closed) {path : InputAttrPath} {e : Error}
    (h : lf.findInput path = .error e) : ∃ cycle, e = followCycle cycle := by
  rw [findInput] at h
  cases hrun : lf.doFind (lf.followed.length + 2) path [] with
  | ok res => simp [hrun, Except.map] at h
  | error e' =>
    rw [hrun] at h
    cases h
    refine doFind_error hc (List.subset_cons_self path lf.followed) hrun List.mem_cons_self
      ⟨List.nodup_nil, List.nil_subset _, ?_⟩
    simp only [List.length_cons, List.length_nil]
    omega

/-- The search is right if and only if no path is followed twice. -/
theorem LockFile.findsRightly_iff (lf : LockFile ι) (hc : lf.Closed) (path : InputAttrPath) :
    lf.FindsRightly path ↔ lf.FollowsOnce path := by
  constructor
  · intro h trace r hleads
    have hr : lf.findInput path = .ok r := by
      cases r with
      | none => exact h.missing.mpr ⟨trace, hleads⟩
      | some node => exact (h.found node).mpr ⟨trace, hleads⟩
    obtain ⟨trace', hleads', hnodup⟩ := findInput_eq_ok hr
    rwa [← (hleads.unique hleads').1] at hnodup
  · intro honce
    have hok : ∀ r, lf.findInput path = .ok r ↔ ∃ trace, lf.Leads none path trace r := fun r =>
      ⟨fun h => (findInput_eq_ok h).imp fun _ h => h.1,
        fun ⟨trace, h⟩ => findInput_of_leads hc h (honce trace r h)⟩
    refine ⟨fun h => ?_, ⟨?_, fun hend => ?_⟩, hok none, fun node => hok (some node)⟩
    · obtain ⟨cycle, hcycle⟩ := findInput_error hc h
      cases hcycle
    · rintro ⟨cycle, h⟩
      rw [endless_iff]
      rintro ⟨trace, r, hleads⟩
      rw [(hok r).mpr ⟨trace, hleads⟩] at h
      cases h
    · cases hrun : lf.findInput path with
      | ok r =>
        obtain ⟨trace, hleads, -⟩ := findInput_eq_ok hrun
        exact absurd ⟨trace, r, hleads⟩ (endless_iff.mp hend)
      | error e =>
        obtain ⟨cycle, rfl⟩ := findInput_error hc hrun
        exact ⟨cycle, rfl⟩

/-- Both `a` and the input `b` of `x` follow `x`. -/
def bothFollow : LockFile Nat where
  root := .ofList [(str "a", .follows [str "x"]), (str "x", .node 0)]
  nodes := [(0,
    { inputs := .ofList [(str "b", .follows [str "x"]), (str "n", .node 0)]
      lockedRef := ⟨.empty, []⟩
      originalRef := ⟨.empty, []⟩ })]

theorem bothFollow_closed : bothFollow.Closed := by
  constructor
  · intro name i hi
    rcases List.mem_cons.mp hi with heq | hi
    · simp at heq
    · obtain ⟨-, heq⟩ := Prod.mk.inj (List.mem_singleton.mp hi)
      rw [Edge.node.inj heq]
      rfl
  · intro e he name i hi
    rw [List.mem_singleton.mp he] at hi
    rcases List.mem_cons.mp hi with heq | hi
    · simp at heq
    · obtain ⟨-, heq⟩ := Prod.mk.inj (List.mem_singleton.mp hi)
      rw [Edge.node.inj heq]
      rfl

theorem bothFollow_x : bothFollow.Leads none [str "x"] [] (some (some 0)) := by
  have hx : bothFollow.input none (str "x") = some (.node 0) := rfl
  exact .node hx (.here (some 0))

theorem bothFollow_a {path : InputAttrPath} {trace : List InputAttrPath} {r : Option (Option Nat)}
    (h : bothFollow.Leads (some 0) path trace r) :
    bothFollow.Leads none (str "a" :: path) ([str "x"] :: [] ++ trace) r := by
  have ha : bothFollow.input none (str "a") = some (.follows [str "x"]) := rfl
  exact .follows ha bothFollow_x h

theorem findsRightly_bothFollow : bothFollow.FindsRightly [str "a", str "n"] := by
  refine (LockFile.findsRightly_iff bothFollow bothFollow_closed _).mpr fun trace r h => ?_
  have hn : bothFollow.input (some 0) (str "n") = some (.node 0) := rfl
  rw [← ((bothFollow_a (.node hn (.here (some 0)))).unique h).1]
  decide

/-- The second follow of a path is reported as a cycle, which it is not. -/
theorem not_findsRightly :
    ¬∀ lf : LockFile Nat, lf.Closed → ∀ path, lf.FindsRightly path := by
  intro h
  have hb : bothFollow.input (some 0) (str "b") = some (.follows [str "x"]) := rfl
  have h' := bothFollow_a (.follows hb bothFollow_x (.here (some 0)))
  have hfound := ((h bothFollow bothFollow_closed [str "a", str "b"]).found (some 0)).mpr ⟨_, h'⟩
  revert hfound
  decide

end Nix.Flake.LockFiles
