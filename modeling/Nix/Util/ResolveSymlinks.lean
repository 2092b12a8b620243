import Nix.Lib.LinkResolution
import Nix.Util.MemorySinks
import Nix.Util.Strings

/-!
`SourceAccessor::resolveSymlinks`, for the file tree of any accessor.
-/

set_option linter.dupNamespace false

namespace Nix.Util.ResolveSymlinks

open Util.Types Util.Strings Util.CanonPaths Util.CanonPathComponents
open Util.MemorySinks (components components_ofComponents push_ofComponents)
open Lib.LinkResolution Lib.Results

/-- `SourceAccessor::Type`. -/
inductive FileType
  | tRegular
  | tSymlink
  | tDirectory
  | tChar
  | tBlock
  | tSocket
  | tFifo
  | tUnknown
  deriving DecidableEq, Repr

inductive SymlinkResolution
  | ancestors
  | full
  deriving DecidableEq, Repr

/-- The virtual methods that `resolveSymlinks` calls. Of `maybeLstat`, the type. -/
structure SourceAccessor where
  maybeLstat : CanonPath → Except Error (Option FileType)
  readLink : CanonPath → Except Error Bytes
  showPath : CanonPath → Bytes

namespace SourceAccessor

variable (accessor : SourceAccessor) (path : CanonPath) (mode : SymlinkResolution)

def infiniteRecursion : Error :=
  ⟨.error, ⟨"infinite symlink recursion in path '%s'", [accessor.showPath path]⟩⟩

/-- `std::filesystem::path(target).is_absolute()`. -/
def isAbsolute (target : Bytes) : Bool := target.head? = some slash

/-- The loop `while (!todo.empty())`. -/
def resolveLoop : Nat → CanonPath → List Bytes → Except Error CanonPath
  | _, res, [] => .ok res
  | linksAllowed, res, c :: todo =>
      if c = [] ∨ c = str "." then resolveLoop linksAllowed res todo
      else if c = str ".." then
        if res.isRoot then resolveLoop linksAllowed res todo
        else do
          let res ← res.pop
          resolveLoop linksAllowed res todo
      else do
        let res ← res.push c
        if mode = .full ∨ todo ≠ [] then
          let st ← accessor.maybeLstat res
          if st = some .tSymlink then
            match linksAllowed with
            | 0 => .error (accessor.infiniteRecursion path)
            | linksAllowed + 1 =>
                let target ← accessor.readLink res
                let res ← (if isAbsolute target then .ok CanonPath.root else res.pop)
                resolveLoop linksAllowed res (tokenizeString slash target ++ todo)
          else resolveLoop linksAllowed res todo
        else resolveLoop linksAllowed res todo
termination_by linksAllowed _ todo => (linksAllowed, todo.length)

def resolveSymlinks : Except Error CanonPath :=
  accessor.resolveLoop path mode 1024 .root (components path)

end SourceAccessor

def componentOf (c : Bytes) : Component Bytes :=
  if c = [] ∨ c = str "." then .stay else if c = str ".." then .up else .name c

def linkOf (target : Bytes) : Link Bytes :=
  ⟨SourceAccessor.isAbsolute target, (tokenizeString slash target).map componentOf⟩

/-- What is found under a name. No file has a name with a NUL byte. -/
def SourceAccessor.look (accessor : SourceAccessor) (dir : List Bytes) (c : Bytes) :
    Except Error (Option (Except Error (Link Bytes))) := do
  CanonPath.ensureNoNullBytes c
  let st ← accessor.maybeLstat (ofComponents (dir ++ [c]))
  return if st = some .tSymlink then
    some ((accessor.readLink (ofComponents (dir ++ [c]))).map linkOf)
  else none

def SymlinkResolution.followed : SymlinkResolution → List Bytes → List Bytes
  | .full, cs => cs
  | .ancestors, cs => cs.dropLast

def SymlinkResolution.kept : SymlinkResolution → List Bytes → List Bytes
  | .full, _ => []
  | .ancestors, cs => cs.getLast?.toList

theorem componentOf_of_valid {c : Bytes} (hc : ValidComponent c) : componentOf c = .name c := by
  rw [componentOf, if_neg (not_or.mpr ⟨hc.ne_nil, hc.ne_dot⟩), if_neg hc.ne_dotdot]

theorem map_componentOf {cs : List Bytes} (hcs : Valid cs) : cs.map componentOf = cs.map .name :=
  List.map_congr_left fun c hc => componentOf_of_valid (hcs c hc)

section Loop

variable {accessor : SourceAccessor} {path : CanonPath} {mode : SymlinkResolution}

theorem look_of_nul (accessor : SourceAccessor) {c : Bytes} (hslash : slash ∉ c) (hdots : ¬(c = str "." ∨ c = str ".."))
    (hnul : 0 ∈ c) (p : CanonPath) (dir : List Bytes) :
    ∃ e, p.push c = .error e ∧ accessor.look dir c = .error e := by
  rw [CanonPath.push, if_neg hslash, if_neg hdots, SourceAccessor.look,
    CanonPath.ensureNoNullBytes, if_pos hnul]
  exact ⟨_, rfl, rfl⟩

theorem look_of_valid {c : Bytes} (hc : ValidComponent c) (dir : List Bytes) :
    accessor.look dir c = (accessor.maybeLstat (ofComponents (dir ++ [c]))).map fun st =>
      if st = some .tSymlink then
        some ((accessor.readLink (ofComponents (dir ++ [c]))).map linkOf)
      else none := by
  rw [SourceAccessor.look, CanonPath.ensureNoNullBytes, if_neg hc.no_nul]
  cases accessor.maybeLstat (ofComponents (dir ++ [c])) <;> rfl

def Keeps (mode : SymlinkResolution) (kept : List Bytes) : Prop :=
  mode = .full ∧ kept = [] ∨ mode = .ancestors ∧ ∃ c, ValidComponent c ∧ kept = [c]

theorem Keeps.resolveLoop {kept : List Bytes} (h : Keeps mode kept) {dir : List Bytes}
    (hdir : Valid dir) (n : Nat) :
    accessor.resolveLoop path mode n (ofComponents dir) kept =
      .ok (ofComponents (dir ++ kept)) := by
  rcases h with ⟨-, rfl⟩ | ⟨rfl, c, hc, rfl⟩
  · rw [SourceAccessor.resolveLoop, List.append_nil]
  · rw [SourceAccessor.resolveLoop, if_neg (not_or.mpr ⟨hc.ne_nil, hc.ne_dot⟩),
      if_neg hc.ne_dotdot, push_ofComponents hdir hc]
    exact SourceAccessor.resolveLoop.eq_1 accessor path .ancestors n (ofComponents (dir ++ [c]))

theorem Keeps.follows {kept : List Bytes} (h : Keeps mode kept) (todo : List Bytes) :
    mode = .full ∨ todo ++ kept ≠ [] := by
  rcases h with ⟨hfull, -⟩ | ⟨-, c, -, rfl⟩
  · exact .inl hfull
  · exact .inr (by simp)

theorem start_linkOf {dir : List Bytes} {c : Bytes} (target : Bytes) (h : Valid (dir ++ [c])) :
    (if SourceAccessor.isAbsolute target then Except.ok CanonPath.root
      else (ofComponents (dir ++ [c])).pop) = .ok (ofComponents ((linkOf target).start dir)) := by
  rw [Link.start, linkOf, pop_ofComponents h]
  split <;> rfl

theorem valid_start {dir : List Bytes} {c : Bytes} (target : Bytes) (h : Valid (dir ++ [c])) :
    Valid ((linkOf target).start dir) := by
  rw [Link.start]
  split
  · exact List.forall_mem_nil _
  · exact (Valid.append_iff.mp h).1

theorem resolveLoop_eq_walk (accessor : SourceAccessor) (path : CanonPath)
    {mode : SymlinkResolution} {kept : List Bytes} (hkept : Keeps mode kept) (n : Nat)
    {dir : List Bytes} (hdir : Valid dir) (todo : List Bytes) (htodo : ∀ c ∈ todo, slash ∉ c) :
    accessor.resolveLoop path mode n (ofComponents dir) (todo ++ kept) =
      (walk accessor.look (accessor.infiniteRecursion path) n dir (todo.map componentOf)).map
        fun rs => ofComponents (rs ++ kept) := by
  cases todo with
  | nil =>
    rw [List.map_nil, walk, List.nil_append]
    exact hkept.resolveLoop hdir n
  | cons c todo =>
    obtain ⟨hslash, htodo⟩ := List.forall_mem_cons.mp htodo
    rw [List.cons_append, List.map_cons, SourceAccessor.resolveLoop, componentOf]
    split
    next =>
      rw [walk]
      exact resolveLoop_eq_walk accessor path hkept n hdir todo htodo
    next hstay =>
      obtain ⟨hne, hdot⟩ := not_or.mp hstay
      split
      next =>
        rw [walk]
        split
        next hroot =>
          obtain rfl := (isRoot_ofComponents hdir).mp hroot
          exact resolveLoop_eq_walk accessor path hkept n hdir todo htodo
        next hroot =>
          obtain ⟨init, last, rfl⟩ := (List.eq_nil_or_concat' dir).resolve_left fun hnil =>
            hroot ((isRoot_ofComponents hdir).mpr hnil)
          rw [pop_ofComponents hdir, List.dropLast_concat]
          exact resolveLoop_eq_walk accessor path hkept n (Valid.append_iff.mp hdir).1 todo htodo
      next hdotdot =>
        by_cases hnul : 0 ∈ c
        · obtain ⟨e, hpush, hlook⟩ := look_of_nul accessor hslash
            (not_or.mpr ⟨hdot, hdotdot⟩) hnul (ofComponents dir) dir
          rw [hpush, walk, hlook]
          rfl
        · have hc : ValidComponent c := ⟨hne, hdot, hdotdot, hslash, hnul⟩
          have hdirc : Valid (dir ++ [c]) :=
            Valid.append_iff.mpr ⟨hdir, List.forall_mem_singleton.mpr hc⟩
          rw [push_ofComponents hdir hc, walk, look_of_valid hc]
          refine (if_pos (hkept.follows todo)).trans ?_
          cases accessor.maybeLstat (ofComponents (dir ++ [c])) with
          | error e => rfl
          | ok st =>
            rcases eq_or_ne st (some .tSymlink) with rfl | hst
            · cases n with
              | zero => rfl
              | succ n =>
                rw [Except.map, if_pos rfl]
                cases accessor.readLink (ofComponents (dir ++ [c])) with
                | error e => rfl
                | ok target =>
                  have htokens : ∀ t ∈ tokenizeString slash target ++ todo, slash ∉ t := fun t ht =>
                    (List.mem_append.mp ht).elim
                      (fun hin hmem => (notMem_of_mem_tokenizeString hin hmem).1 rfl) (htodo t)
                  have hall := resolveLoop_eq_walk accessor path hkept n (valid_start target hdirc)
                    (tokenizeString slash target ++ todo) htokens
                  rw [List.map_append, List.append_assoc] at hall
                  refine Eq.trans ?_ hall
                  exact congrArg (· >>= fun res => accessor.resolveLoop path mode n res
                    (tokenizeString slash target ++ (todo ++ kept))) (start_linkOf target hdirc)
            · rw [Except.map, if_neg hst]
              refine (if_neg hst).trans ?_
              exact resolveLoop_eq_walk accessor path hkept n hdirc todo htodo
termination_by (n, todo.length)

theorem followed_append_kept (mode : SymlinkResolution) (cs : List Bytes) :
    mode.followed cs ++ mode.kept cs = cs := by
  cases mode with
  | full => exact List.append_nil cs
  | ancestors =>
    rcases List.eq_nil_or_concat' cs with rfl | ⟨init, last, rfl⟩
    · rfl
    · simp [SymlinkResolution.followed, SymlinkResolution.kept]

theorem split_append_kept {cs rs : List Bytes} (h : cs = [] → rs = []) :
    mode.followed (rs ++ mode.kept cs) = rs ∧ mode.kept (rs ++ mode.kept cs) = mode.kept cs := by
  cases mode with
  | full => exact ⟨List.append_nil rs, rfl⟩
  | ancestors =>
    rcases List.eq_nil_or_concat' cs with rfl | ⟨init, last, rfl⟩
    · rw [h rfl]
      exact ⟨rfl, rfl⟩
    · simp [SymlinkResolution.followed, SymlinkResolution.kept]

theorem keeps_kept {cs : List Bytes} (hcs : Valid cs) (hne : cs ≠ []) :
    Keeps mode (mode.kept cs) := by
  cases mode with
  | full => exact .inl ⟨rfl, rfl⟩
  | ancestors =>
    obtain ⟨init, last, rfl⟩ := (List.eq_nil_or_concat' cs).resolve_left hne
    exact .inr ⟨rfl, last, hcs last (by simp), by simp [SymlinkResolution.kept]⟩

theorem valid_followed {cs : List Bytes} (hcs : Valid cs) : Valid (mode.followed cs) := by
  rw [← followed_append_kept mode cs, Valid.append_iff] at hcs
  exact hcs.1

theorem resolveSymlinks_eq_walk {cs : List Bytes} (hcs : Valid cs) :
    accessor.resolveSymlinks (ofComponents cs) mode =
      (walk accessor.look (accessor.infiniteRecursion (ofComponents cs)) 1024 []
        ((mode.followed cs).map .name)).map fun rs => ofComponents (rs ++ mode.kept cs) := by
  rw [SourceAccessor.resolveSymlinks, components_ofComponents hcs]
  rcases eq_or_ne cs [] with rfl | hne
  · have hfollowed : mode.followed [] = [] := by cases mode <;> rfl
    have hkept : mode.kept [] = [] := by cases mode <;> rfl
    rw [SourceAccessor.resolveLoop, hfollowed, hkept, List.map_nil, walk]
    rfl
  · have hfollowed : Valid (mode.followed cs) := valid_followed hcs
    have hkept : Keeps mode (mode.kept cs) := keeps_kept hcs hne
    have hloop := resolveLoop_eq_walk accessor (ofComponents cs) hkept 1024 (List.forall_mem_nil _)
      (mode.followed cs) hfollowed.separable
    rwa [followed_append_kept, map_componentOf hfollowed] at hloop

end Loop

section Specification

variable (accessor : SourceAccessor)

/-- One more link is met after `n` links. -/
def Exceeds (n : Nat) (todo : List (Component Bytes)) : Prop :=
  ∃ dir c rest link, Walks accessor.look [] todo n dir (.name c :: rest) ∧
    accessor.look dir c = .ok (some link)

/-- The accessor throws before more than `n` links are met. -/
def Throws (n : Nat) (todo : List (Component Bytes)) (e : Error) : Prop :=
  ∃ m dir c rest, m ≤ n ∧ Walks accessor.look [] todo m dir (.name c :: rest) ∧ 0 ∉ c ∧
    (accessor.maybeLstat (ofComponents (dir ++ [c])) = .error e ∨
      m < n ∧ accessor.maybeLstat (ofComponents (dir ++ [c])) = .ok (some .tSymlink) ∧
        accessor.readLink (ofComponents (dir ++ [c])) = .error e)

/-- A name with a NUL byte is met before more than `n` links are. -/
def MeetsNul (n : Nat) (todo : List (Component Bytes)) (c : Bytes) : Prop :=
  ∃ m dir rest, m ≤ n ∧ Walks accessor.look [] todo m dir (.name c :: rest) ∧ 0 ∈ c

/-- The specification of `resolveSymlinks`: it returns what the path resolves to from the root
unless more than 1024 links are in the way, and throws in that case, if the accessor does, and at
names that no path can have. On the way to the result there is no link. -/
structure Specified (path : CanonPath) (mode : SymlinkResolution) : Prop where
  returns : ∀ r, accessor.resolveSymlinks path mode = .ok r ↔ ∃ n ≤ 1024, ∃ rs,
    Resolves accessor.look [] ((mode.followed (components path)).map .name) n rs ∧
      r = ofComponents (rs ++ mode.kept (components path))
  throws : ∀ e, accessor.resolveSymlinks path mode = .error e ↔
    Exceeds accessor 1024 ((mode.followed (components path)).map .name) ∧
        e = accessor.infiniteRecursion path ∨
      Throws accessor 1024 ((mode.followed (components path)).map .name) e ∨
      ∃ c, MeetsNul accessor 1024 ((mode.followed (components path)).map .name) c ∧
        CanonPath.ensureNoNullBytes c = .error e
  linkFree : ∀ r, accessor.resolveSymlinks path mode = .ok r → ∀ cs, cs ≠ [] →
    cs <+: mode.followed (components r) →
      ∃ st, accessor.maybeLstat (ofComponents cs) = .ok st ∧ st ≠ some .tSymlink
  idempotent : ∀ r, accessor.resolveSymlinks path mode = .ok r →
    accessor.resolveSymlinks r mode = .ok r

variable {accessor}

theorem look_eq_error {dir : List Bytes} {c : Bytes} {e : Error} :
    accessor.look dir c = .error e ↔ CanonPath.ensureNoNullBytes c = .error e ∨
      0 ∉ c ∧ accessor.maybeLstat (ofComponents (dir ++ [c])) = .error e := by
  rw [SourceAccessor.look, bind_eq_error]
  refine or_congr_right ⟨?_, fun ⟨hnul, hst⟩ => ?_⟩
  · rintro ⟨u, hok, h⟩
    refine ⟨ensureNoNullBytes_eq_ok.mp hok, ?_⟩
    rcases bind_eq_error.mp h with hst | ⟨st, -, hpure⟩
    · exact hst
    · cases hpure
  · exact ⟨(), ensureNoNullBytes_eq_ok.mpr hnul, bind_eq_error.mpr (.inl hst)⟩

theorem look_eq_ok {dir : List Bytes} {c : Bytes} {found : Option (Except Error (Link Bytes))} :
    accessor.look dir c = .ok found ↔ 0 ∉ c ∧
      ∃ st, accessor.maybeLstat (ofComponents (dir ++ [c])) = .ok st ∧
        found = if st = some .tSymlink then
          some ((accessor.readLink (ofComponents (dir ++ [c]))).map linkOf)
        else none := by
  rw [SourceAccessor.look, bind_eq_ok]
  constructor
  · rintro ⟨u, hok, h⟩
    obtain ⟨st, hst, h⟩ := bind_eq_ok.mp h
    exact ⟨ensureNoNullBytes_eq_ok.mp hok, st, hst, (pure_eq_ok.mp h).symm⟩
  · rintro ⟨hnul, st, hst, rfl⟩
    exact ⟨(), ensureNoNullBytes_eq_ok.mpr hnul, bind_eq_ok.mpr ⟨st, hst, rfl⟩⟩

theorem look_eq_none {dir : List Bytes} {c : Bytes} (h : accessor.look dir c = .ok none) :
    0 ∉ c ∧ ∃ st, accessor.maybeLstat (ofComponents (dir ++ [c])) = .ok st ∧
      st ≠ some .tSymlink := by
  obtain ⟨hnul, st, hst, hfound⟩ := look_eq_ok.mp h
  refine ⟨hnul, st, hst, fun heq => ?_⟩
  rw [if_pos heq] at hfound
  cases hfound

theorem look_eq_unreadable {dir : List Bytes} {c : Bytes} {e : Error} :
    accessor.look dir c = .ok (some (.error e)) ↔ 0 ∉ c ∧
      accessor.maybeLstat (ofComponents (dir ++ [c])) = .ok (some .tSymlink) ∧
        accessor.readLink (ofComponents (dir ++ [c])) = .error e := by
  rw [look_eq_ok]
  refine and_congr_right fun _ => ⟨?_, ?_⟩
  · rintro ⟨st, hst, hfound⟩
    split at hfound
    next hlink =>
      subst hlink
      refine ⟨hst, ?_⟩
      cases hread : accessor.readLink (ofComponents (dir ++ [c])) with
      | error e' =>
        rw [hread] at hfound
        cases hfound
        rfl
      | ok target =>
        rw [hread] at hfound
        cases hfound
    next => cases hfound
  · rintro ⟨hst, hread⟩
    refine ⟨_, hst, ?_⟩
    rw [if_pos rfl, hread]
    rfl

theorem slash_notMem_of_target {dir : List Bytes} {c : Bytes} {l : Link Bytes}
    (h : accessor.look dir c = .ok (some (.ok l))) {k : Bytes} (hk : .name k ∈ l.target) :
    componentOf k = .name k ∧ slash ∉ k := by
  obtain ⟨-, st, -, hfound⟩ := look_eq_ok.mp h
  split at hfound
  next =>
    obtain ⟨target, -, rfl⟩ := map_eq_ok.mp (Option.some.inj hfound).symm
    obtain ⟨t, ht, hcomponent⟩ := List.mem_map.mp hk
    have htk : t = k := by
      rw [componentOf] at hcomponent
      split_ifs at hcomponent
      exact Component.name.inj hcomponent
    subst htk
    exact ⟨hcomponent, fun hslash => (notMem_of_mem_tokenizeString ht hslash).1 rfl⟩
  next => cases hfound

theorem valid_of_componentOf {c : Bytes} (h : componentOf c = .name c) (hslash : slash ∉ c)
    (hnul : 0 ∉ c) : ValidComponent c := by
  rw [componentOf] at h
  split_ifs at h with hstay hup
  obtain ⟨hne, hdot⟩ := not_or.mp hstay
  exact ⟨hne, hdot, hup, hslash, hnul⟩

theorem valid_of_resolves {cs rs : List Bytes} (hcs : Valid cs) {n : Nat}
    (h : Resolves accessor.look [] (cs.map .name) n rs) : Valid rs := by
  refine h.forall_mem (Q := fun k => componentOf k = .name k ∧ slash ∉ k)
    (fun dir k hk hlook => ?_) (fun dir k l hlook k' hk' => ?_) (List.forall_mem_nil _)
    fun k hk => ?_
  · exact valid_of_componentOf hk.1 hk.2 (look_eq_none hlook).1
  · exact slash_notMem_of_target hlook hk'
  · obtain ⟨c, hc, hck⟩ := List.mem_map.mp hk
    obtain rfl := Component.name.inj hck
    exact ⟨componentOf_of_valid (hcs c hc), (hcs c hc).no_slash⟩

section Results

variable {cs : List Bytes} {mode : SymlinkResolution}

theorem resolveSymlinks_eq_ok (hcs : Valid cs) {r : CanonPath} :
    accessor.resolveSymlinks (ofComponents cs) mode = .ok r ↔ ∃ n ≤ 1024, ∃ rs,
      Resolves accessor.look [] ((mode.followed cs).map .name) n rs ∧
        r = ofComponents (rs ++ mode.kept cs) := by
  rw [resolveSymlinks_eq_walk hcs, map_eq_ok]
  constructor
  · rintro ⟨rs, hwalk, rfl⟩
    cases walk_eq_iff.mp hwalk with
    | arrives hm h => exact ⟨_, hm, rs, resolves_iff_walks.mpr h, rfl⟩
  · rintro ⟨n, hn, rs, hres, rfl⟩
    exact ⟨rs, walk_eq_iff.mpr (.arrives hn (resolves_iff_walks.mp hres)), rfl⟩

theorem resolveSymlinks_eq_error (mode : SymlinkResolution) (hcs : Valid cs) {e : Error} :
    accessor.resolveSymlinks (ofComponents cs) mode = .error e ↔
      Ends accessor.look (accessor.infiniteRecursion (ofComponents cs)) 1024 []
        ((mode.followed cs).map .name) (.error e) := by
  rw [resolveSymlinks_eq_walk hcs, map_eq_error, walk_eq_iff]

theorem ends_error_iff {exceeded : Error} {n : Nat} {todo : List (Component Bytes)} {e : Error} :
    Ends accessor.look exceeded n [] todo (.error e) ↔
      Exceeds accessor n todo ∧ e = exceeded ∨ Throws accessor n todo e ∨
        ∃ c, MeetsNul accessor n todo c ∧ CanonPath.ensureNoNullBytes c = .error e := by
  constructor
  · intro h
    cases h with
    | exceeds h hk => exact .inl ⟨⟨_, _, _, _, h, hk⟩, rfl⟩
    | fails hm h hk =>
      rcases look_eq_error.mp hk with hnul | ⟨hnul, hst⟩
      · refine .inr (.inr ⟨_, ⟨_, _, _, hm, h, ?_⟩, hnul⟩)
        by_contra hno
        rw [ensureNoNullBytes_eq_ok (u := ()) |>.mpr hno] at hnul
        cases hnul
      · exact .inr (.inl ⟨_, _, _, _, hm, h, hnul, .inl hst⟩)
    | unreadable hm h hk =>
      obtain ⟨hnul, hst, hread⟩ := look_eq_unreadable.mp hk
      exact .inr (.inl ⟨_, _, _, _, hm.le, h, hnul, .inr ⟨hm, hst, hread⟩⟩)
  · rintro (⟨⟨dir, c, rest, link, h, hk⟩, rfl⟩ | ⟨m, dir, c, rest, hm, h, hnul, hcause⟩ |
      ⟨c, ⟨m, dir, rest, hm, h, -⟩, hnul⟩)
    · exact .exceeds h hk
    · rcases hcause with hst | ⟨hlt, hst, hread⟩
      · exact .fails hm h (look_eq_error.mpr (.inr ⟨hnul, hst⟩))
      · exact .unreadable hlt h (look_eq_unreadable.mpr ⟨hnul, hst, hread⟩)
    · exact .fails hm h (look_eq_error.mpr (.inl hnul))

theorem components_of_resolves (hcs : Valid cs) {n : Nat} {rs : List Bytes}
    (h : Resolves accessor.look [] ((mode.followed cs).map .name) n rs) :
    Valid (rs ++ mode.kept cs) ∧ mode.followed (rs ++ mode.kept cs) = rs ∧
      mode.kept (rs ++ mode.kept cs) = mode.kept cs := by
  have hkept := hcs
  rw [← followed_append_kept mode cs, Valid.append_iff] at hkept
  refine ⟨Valid.append_iff.mpr ⟨valid_of_resolves hkept.1 h, hkept.2⟩, split_append_kept ?_⟩
  rintro rfl
  have hnone : mode.followed [] = [] := by cases mode <;> rfl
  rw [hnone, List.map_nil] at h
  cases h
  rfl

theorem Clean.lstat {rs : List Bytes} (h : Clean accessor.look rs) {ds : List Bytes} (hne : ds ≠ [])
    (hpre : ds <+: rs) :
    ∃ st, accessor.maybeLstat (ofComponents ds) = .ok st ∧ st ≠ some .tSymlink := by
  obtain ⟨dir, c, rfl⟩ := (List.eq_nil_or_concat' ds).resolve_left hne
  exact (look_eq_none (h dir c hpre)).2

end Results

/-- Every tree and every path are resolved as specified. -/
theorem resolveSymlinks_specified {path : CanonPath} (hpath : path.Canonical) (mode : SymlinkResolution) :
    Specified accessor path mode := by
  obtain ⟨cs, hcs, rfl⟩ := canonical_iff.mp hpath
  have hcomponents := components_ofComponents hcs
  refine ⟨fun r => ?_, fun e => ?_, fun r hr ds hne hpre => ?_, fun r hr => ?_⟩
  · rw [hcomponents]
    exact resolveSymlinks_eq_ok hcs
  · rw [hcomponents]
    exact (resolveSymlinks_eq_error mode hcs).trans ends_error_iff
  · obtain ⟨n, -, rs, hres, rfl⟩ := (resolveSymlinks_eq_ok hcs).mp hr
    obtain ⟨hvalid, hfollowed, -⟩ := components_of_resolves hcs hres
    rw [components_ofComponents hvalid, hfollowed] at hpre
    exact Clean.lstat (hres.clean clean_nil) hne hpre
  · obtain ⟨n, -, rs, hres, rfl⟩ := (resolveSymlinks_eq_ok hcs).mp hr
    obtain ⟨hvalid, hfollowed, hkept⟩ := components_of_resolves hcs hres
    have hself : Resolves accessor.look [] (rs.map .name) 0 rs := (hres.clean clean_nil).resolves
    refine (resolveSymlinks_eq_ok hvalid).mpr ⟨0, by decide, rs, ?_, ?_⟩
    · rwa [hfollowed]
    · rw [hkept]

/-- The tree of one link `l`. -/
def linkTree (target : Bytes) : SourceAccessor where
  maybeLstat p := .ok (if p = ofComponents [str "l"] then some .tSymlink else none)
  readLink _ := .ok target
  showPath p := p.path

theorem resolveSymlinks_specified_linkTree :
    Specified (linkTree (str "../a")) (ofComponents [str "l", str "b"]) .full :=
  resolveSymlinks_specified ⟨[str "l", str "b"], by decide, rfl⟩ .full

theorem walks_linkTree {target : Bytes} (hc : componentOf target = .name target)
    (hslash : slash ∉ target) :
    Walks (linkTree target).look [] [.name (str "l")] 1 [] [.name target] := by
  have hne : target ≠ [] := by
    rintro rfl
    cases hc
  have htokens : tokenizeString slash target = [target] :=
    tokenizeString_concatStringsSep (List.forall_mem_singleton.mpr ⟨hne, hslash⟩)
  have hstart : (linkOf target).start [] = [] := ite_self _
  have hlink : (linkOf target).target = [.name target] := by
    rw [linkOf, htokens, List.map_singleton, hc]
  have hlook : (linkTree target).look [] (str "l") = .ok (some (.ok (linkOf target))) := rfl
  refine .link hlook ?_
  rw [hstart, hlink]
  exact .refl [] _

/-- The accessor does not throw and no link is met too late, but no path has the name. -/
theorem not_throws_iff_nulTarget : ¬ ∀ (accessor : SourceAccessor) (path : CanonPath)
    (mode : SymlinkResolution), path.Canonical →
      ((∃ e, accessor.resolveSymlinks path mode = .error e) ↔
        Exceeds accessor 1024 ((mode.followed (components path)).map .name) ∨
          ∃ e, Throws accessor 1024 ((mode.followed (components path)).map .name) e) := by
  intro h
  have hcs : Valid [str "l"] := by decide
  have hcomponents : (SymlinkResolution.full.followed (components (ofComponents [str "l"]))).map
      Component.name = [.name (str "l")] := by
    rw [components_ofComponents hcs]
    rfl
  have hname : componentOf [97, 0, 98] = .name [97, 0, 98] := by
    rw [componentOf, if_neg (by decide), if_neg (by decide)]
  have hwalk := walks_linkTree hname (by decide)
  have hnul : ∃ e, CanonPath.ensureNoNullBytes [97, 0, 98] = .error e ∧ e.cls = .badCanonPath :=
    ⟨_, rfl, rfl⟩
  obtain ⟨e, he, hcls⟩ := hnul
  have herror := (resolveSymlinks_eq_error .full hcs).mpr
    (ends_error_iff.mpr (.inr (.inr ⟨_, ⟨1, [], [], by decide, hwalk, by decide⟩, he⟩)))
  have hcauses := (h (linkTree [97, 0, 98]) (ofComponents [str "l"]) .full
    (canonical_iff.mpr ⟨_, hcs, rfl⟩)).mp ⟨e, herror⟩
  rw [hcomponents] at hcauses
  rcases hcauses with hexceeds | ⟨e', m, dir, c, rest, -, -, -, hst | ⟨-, -, hread⟩⟩
  · have hinfinite := (resolveSymlinks_eq_error .full hcs).mpr
      (ends_error_iff.mpr (.inl ⟨hexceeds, rfl⟩))
    obtain rfl := Except.error.inj (herror.symm.trans hinfinite)
    cases hcls
  · cases hst
  · cases hread

end Specification

end Nix.Util.ResolveSymlinks
