import Nix.Lib.Results
import Nix.Lib.SortedMaps
import Nix.Util.Archive
import Nix.Util.ArchiveRoundTrip
import Nix.Util.CanonPathOperations
import Nix.Util.Strings

/-!
Restoring archives with the case hack, onto a file system that takes some different names for the
same one.
-/

set_option linter.dupNamespace false

namespace Nix.Util.CaseHacks

open Util.Types Util.Serialise Util.Archive Lib.SortedList Lib.PrefixReader

/-- What the calls of a `RestoreSink` do for one object. -/
structure Creation where
  /-- The error if the directory has a file of the name, `EEXIST` of the system call. -/
  fileExists : (name : Bytes) → Error
  file : Except Error FileTree

section Restore

/- The file system preserves the case of a name and ignores it when it looks for a file: names
with the same fold are names of the same file. -/
variable (fold : Bytes → Bytes)

/-- `mkdirat`, `openat` with `O_CREAT | O_EXCL` or `symlinkat` in a directory, and what is then
done to the new file. -/
def createEntry (files : List (Bytes × FileTree)) (entry : Bytes × Creation) :
    Except Error (List (Bytes × FileTree)) :=
  if ∃ f ∈ files, fold f.1 = fold entry.1 then .error (entry.2.fileExists entry.1)
  else do
    let file ← entry.2.file
    return insertOver (byKey compare) (entry.1, file) files

/-- `RestoreSink`, which restores every directory by a sink of its own. -/
def restoreSink {σ : Type} : FileSystemObjectSink σ Creation where
  skipContents := false
  regular isExecutable _ _ contents :=
    { fileExists := fun name => ⟨.error, ⟨"creating file %1%", [name]⟩⟩
      file := .ok (.regular isExecutable (.ofBytes contents)) }
  directory entries :=
    { fileExists := fun name => ⟨.error, ⟨"creating directory %s", [name]⟩⟩
      file := do
        let files ← entries.foldlM (createEntry fold) []
        return .directory files }
  symlink target :=
    { fileExists := fun name => ⟨.error, ⟨"creating symlink from %1% -> '%2%'", [name, target]⟩⟩
      file := .ok (.symlink target) }

/-- `restorePath` with `use-case-hack`, to a path where no file is, with what it leaves unread. -/
def restorePath : Reader Bytes Error FileTree := do
  let creation ← parseDump true (restoreSink fold) stringSource
  fromExcept creation.file

end Restore

/-- `caseHackSuffix` without its last character, with which it also begins. -/
def caseHackStem : Bytes := str "~nix~case~hack"

/-- The names of a directory of an archive, in the order of the archive, that the case hack leaves
recoverable. -/
structure RecoverableNames (names : List Bytes) : Prop where
  suffix : ∀ name ∈ names, ¬caseHackSuffix <:+: name
  stem : names.Pairwise fun name name' =>
    name.map toLower = name'.map toLower → ¬caseHackStem <:+ name'

instance (names : List Bytes) : Decidable (RecoverableNames names) :=
  decidable_of_iff ((∀ name ∈ names, ¬caseHackSuffix <:+: name) ∧
    names.Pairwise fun name name' =>
      name.map toLower = name'.map toLower → ¬caseHackStem <:+ name')
    ⟨fun ⟨h, h'⟩ => ⟨h, h'⟩, fun ⟨h, h'⟩ => ⟨h, h'⟩⟩

theorem length_caseHackSuffix : caseHackSuffix.length = 15 := rfl

theorem eq_of_drop_isPrefix : ∀ n < 15, 0 < n →
    caseHackSuffix.drop n <+: caseHackSuffix → n = 14 := by
  decide

theorem stem_append_suffix :
    caseHackStem ++ caseHackSuffix = caseHackSuffix ++ caseHackSuffix.drop 1 := by
  decide

theorem suffix_isPrefix_append_iff {t : Bytes} (ht : t ≠ []) (digits : Bytes) :
    caseHackSuffix <+: t ++ (caseHackSuffix ++ digits) ↔
      caseHackSuffix <+: t ∨ t = caseHackStem := by
  constructor
  · intro h
    rcases Nat.lt_or_ge t.length 15 with hlt | hge
    · right
      obtain ⟨rest, hrest⟩ := List.prefix_of_prefix_length_le (List.prefix_append _ _) h
        (hlt.le.trans_eq length_caseHackSuffix.symm)
      obtain ⟨u, hu⟩ := h
      rw [← hrest, List.append_assoc, hrest] at hu
      have hbegins : rest <+: caseHackSuffix := by
        refine List.prefix_of_prefix_length_le ⟨u, List.append_cancel_left hu⟩
          (List.prefix_append _ _) ?_
        rw [← hrest, List.length_append]
        omega
      have hdrop : caseHackSuffix.drop t.length = rest := by rw [← hrest, List.drop_left]
      have hlen := eq_of_drop_isPrefix t.length hlt (List.length_pos_of_ne_nil ht)
        (hdrop ▸ hbegins)
      have htake : caseHackSuffix.take t.length = t := by rw [← hrest, List.take_left]
      rw [← htake, hlen]
      rfl
    · exact .inl (List.prefix_of_prefix_length_le h (List.prefix_append _ _)
        (length_caseHackSuffix.trans_le hge))
  · rintro (h | rfl)
    · exact h.trans (List.prefix_append _ _)
    · rw [← List.append_assoc, stem_append_suffix, List.append_assoc]
      exact List.prefix_append _ _

theorem infix_iff_exists_drop {t : Bytes} :
    caseHackSuffix <:+: t ↔ ∃ i, caseHackSuffix <+: t.drop i := by
  rw [List.infix_iff_prefix_suffix]
  constructor
  · rintro ⟨u, hu, hsuffix⟩
    exact ⟨_, (List.suffix_iff_eq_drop.mp hsuffix) ▸ hu⟩
  · rintro ⟨i, hi⟩
    exact ⟨_, hi, List.drop_suffix i t⟩

theorem lt_length_of_isPrefix_drop {t : Bytes} {i : Nat} (h : caseHackSuffix <+: t.drop i) :
    i < t.length := by
  have hlen := h.length_le
  rw [length_caseHackSuffix, List.length_drop] at hlen
  omega

theorem findSuffix_eq_some {t : Bytes} {i : Nat} :
    findSuffix t = some i ↔
      caseHackSuffix <+: t.drop i ∧ ∀ j < i, ¬caseHackSuffix <+: t.drop j := by
  simp only [findSuffix, List.find?_range_eq_some, List.isPrefixOf_iff_prefix, List.mem_range,
    Bool.not_eq_eq_eq_not, Bool.not_true, Bool.eq_false_iff, ne_eq]
  constructor
  · exact fun ⟨h, _, hfirst⟩ => ⟨h, hfirst⟩
  · exact fun ⟨h, hfirst⟩ => ⟨h, (lt_length_of_isPrefix_drop h).trans (Nat.lt_succ_self _), hfirst⟩

theorem findSuffix_eq_none {t : Bytes} : findSuffix t = none ↔ ¬caseHackSuffix <:+: t := by
  rw [infix_iff_exists_drop, not_exists, findSuffix, List.find?_range_eq_none]
  simp only [Bool.not_eq_eq_eq_not, Bool.not_true, Bool.eq_false_iff, ne_eq,
    List.isPrefixOf_iff_prefix]
  constructor
  · exact fun h i hi => h i ((lt_length_of_isPrefix_drop hi).trans (Nat.lt_succ_self _)) hi
  · exact fun h i _ => h i

theorem unhackedName_eq_self_iff {name : Bytes} :
    unhackedName true name = name ↔ ¬caseHackSuffix <:+: name := by
  rw [← findSuffix_eq_none, unhackedName, if_pos rfl]
  cases h : findSuffix name with
  | none => exact iff_of_true rfl rfl
  | some i =>
    have hlt := lt_length_of_isPrefix_drop (findSuffix_eq_some.mp h).1
    refine iff_of_false (fun htake => ?_) (Option.some_ne_none i)
    have hlen := congrArg List.length htake
    rw [List.length_take] at hlen
    omega

theorem unhackedName_append (name digits : Bytes) :
    ∃ i ≤ name.length, unhackedName true (name ++ (caseHackSuffix ++ digits)) = name.take i ∧
      (i < name.length → caseHackSuffix <+: name.drop i ++ (caseHackSuffix ++ digits)) ∧
      ∀ j < i, ¬caseHackSuffix <+: name.drop j ++ (caseHackSuffix ++ digits) := by
  have hdrop : ∀ i ≤ name.length, (name ++ (caseHackSuffix ++ digits)).drop i =
      name.drop i ++ (caseHackSuffix ++ digits) := fun i hi => List.drop_append_of_le_length hi
  have hend : caseHackSuffix <+: (name ++ (caseHackSuffix ++ digits)).drop name.length := by
    rw [List.drop_left]
    exact List.prefix_append _ _
  rw [unhackedName, if_pos rfl]
  cases h : findSuffix (name ++ (caseHackSuffix ++ digits)) with
  | none => exact absurd (infix_iff_exists_drop.mpr ⟨_, hend⟩) (findSuffix_eq_none.mp h)
  | some i =>
    obtain ⟨hi, hfirst⟩ := findSuffix_eq_some.mp h
    have hle : i ≤ name.length := Nat.le_of_not_lt fun hlt => hfirst _ hlt hend
    refine ⟨i, hle, List.take_append_of_le_length hle, fun _ => hdrop i hle ▸ hi, ?_⟩
    intro j hj hbegins
    exact hfirst j hj ((hdrop j (hj.le.trans hle)).symm ▸ hbegins)

theorem unhackedName_append_iff {name digits : Bytes} :
    unhackedName true (name ++ (caseHackSuffix ++ digits)) = name ↔
      ¬caseHackSuffix <:+: name ∧ ¬caseHackStem <:+ name := by
  obtain ⟨i, hle, hname, hi, hfirst⟩ := unhackedName_append name digits
  have hne : ∀ j < name.length, name.drop j ≠ [] := fun j hj hnil => by
    have hlen := congrArg List.length hnil
    rw [List.length_drop, List.length_nil] at hlen
    omega
  rw [hname]
  constructor
  · intro htake
    have hend : i = name.length := by
      have hlen := congrArg List.length htake
      rw [List.length_take] at hlen
      omega
    constructor
    · intro hoccurs
      obtain ⟨j, hj⟩ := infix_iff_exists_drop.mp hoccurs
      have hlt := lt_length_of_isPrefix_drop hj
      exact hfirst j (hend ▸ hlt) ((suffix_isPrefix_append_iff (hne j hlt) digits).mpr (.inl hj))
    · intro hstem
      have hlen : 14 ≤ name.length := hstem.length_le
      have hlt : name.length - 14 < name.length := by omega
      have hj : caseHackStem = name.drop (name.length - 14) := List.suffix_iff_eq_drop.mp hstem
      exact hfirst _ (hend ▸ hlt)
        ((suffix_isPrefix_append_iff (hne _ hlt) digits).mpr (.inr hj.symm))
  · rintro ⟨hoccurs, hstem⟩
    rcases hle.lt_or_eq with hlt | rfl
    · rcases (suffix_isPrefix_append_iff (hne i hlt) digits).mp (hi hlt) with hbegins | hdrop
      · exact absurd (infix_iff_exists_drop.mpr ⟨i, hbegins⟩) hoccurs
      · exact absurd (hdrop ▸ List.drop_suffix i name) hstem
    · exact List.take_length

/-- The name is equal to a recorded one up to case. -/
def Collides (names : List (Bytes × Nat)) (name : Bytes) : Prop :=
  ∃ n ∈ names.map Prod.fst, n.map toLower = name.map toLower

theorem findName_eq_none {names : List (Bytes × Nat)} {name : Bytes} :
    findName names name = none ↔ ¬Collides names name := by
  simp [findName, Collides]

theorem map_fst_countName (names : List (Bytes × Nat)) (name : Bytes) :
    (countName names name).map Prod.fst = names.map Prod.fst := by
  rw [countName, List.map_map]
  refine List.map_congr_left fun i _ => ?_
  rw [Function.comp_apply]
  split <;> rfl

theorem hackName_eq_ok {names names' : List (Bytes × Nat)} {name hacked : Bytes}
    (h : hackName true names name = .ok (hacked, names')) :
    ((¬Collides names name ∧ hacked = name) ∨
      Collides names name ∧ ∃ n, hacked = name ++ (caseHackSuffix ++ decimal n)) ∧
    ∀ x, Collides names' x ↔ name.map toLower = x.map toLower ∨ Collides names x := by
  rw [hackName, if_pos rfl] at h
  cases hfind : findName names name with
  | none =>
    rw [hfind] at h
    obtain ⟨rfl, rfl⟩ := Prod.mk.inj (Except.ok.inj h)
    exact ⟨.inl ⟨findName_eq_none.mp hfind, rfl⟩, fun x => List.exists_mem_cons_iff _ _ _⟩
  | some i =>
    have hcollides : Collides names name := by
      by_contra hnot
      rw [findName_eq_none.mpr hnot] at hfind
      cases hfind
    rw [hfind] at h
    dsimp only at h
    split at h
    · cases h
    · obtain ⟨rfl, rfl⟩ := Prod.mk.inj (Except.ok.inj h)
      refine ⟨.inr ⟨hcollides, i.2 + 1, List.append_assoc _ _ _⟩, fun x => ?_⟩
      rw [Collides, map_fst_countName]
      obtain ⟨n, hn, hlower⟩ := hcollides
      constructor
      · exact .inr
      · rintro (hx | hx)
        · exact ⟨n, hn, hlower.trans hx⟩
        · exact hx

theorem hackName_unhackedName {names names' : List (Bytes × Nat)} {name hacked : Bytes}
    (h : hackName true names name = .ok (hacked, names')) :
    unhackedName true hacked <+: name ∧
      (unhackedName true hacked = name ↔
        ¬caseHackSuffix <:+: name ∧ (Collides names name → ¬caseHackStem <:+ name)) := by
  obtain ⟨⟨hnot, rfl⟩ | ⟨hcollides, n, rfl⟩, -⟩ := hackName_eq_ok h
  · constructor
    · rw [unhackedName, if_pos rfl]
      split
      · exact List.take_prefix _ _
      · exact List.prefix_rfl
    · rw [unhackedName_eq_self_iff]
      exact ⟨fun hoccurs => ⟨hoccurs, fun hc => absurd hc hnot⟩, And.left⟩
  · constructor
    · obtain ⟨i, -, hname, -⟩ := unhackedName_append name (decimal n)
      rw [hname]
      exact List.take_prefix _ _
    · rw [unhackedName_append_iff]
      exact and_congr_right fun _ => ⟨fun hstem _ => hstem, fun hstem => hstem hcollides⟩

/-!
The trees that are restored from archives with the case hack.
-/

open Util.Strings Util.CanonPaths Util.CanonPathComponents Util.ArchiveGrammar Lib.Results

/-- An entry of a directory: its name in the archive and the one that it was created with. -/
structure Member where
  name : Bytes
  hacked : Bytes
  node : Node
  tree : FileTree

def Renamed (names : List (Bytes × Nat)) (members : List Member) : Prop :=
  renameEntries true names (members.map fun m => (m.name, m)) =
    some (members.map fun m => (m.hacked, m))

theorem renamed_cons_iff {names : List (Bytes × Nat)} {m : Member} {members : List Member} :
    Renamed names (m :: members) ↔
      ∃ names', hackName true names m.name = .ok (m.hacked, names') ∧ Renamed names' members := by
  rw [Renamed, List.map_cons, List.map_cons, renameEntries]
  cases hackName true names m.name with
  | error e => exact iff_of_false (by rintro ⟨⟩) (by rintro ⟨_, h, -⟩; cases h)
  | ok r =>
    obtain ⟨hacked, names'⟩ := r
    dsimp only
    rw [Option.map_eq_some_iff]
    constructor
    · rintro ⟨renamed, hrenamed, hcons⟩
      obtain ⟨hhead, rfl⟩ := List.cons.inj hcons
      exact ⟨names', by rw [(Prod.mk.inj hhead).1], hrenamed⟩
    · rintro ⟨_, hhack, hrenamed⟩
      obtain ⟨rfl, rfl⟩ := Prod.mk.inj (Except.ok.inj hhack)
      exact ⟨_, hrenamed, rfl⟩

/-- The tree that is restored from a parse tree. -/
inductive Restored : Node → FileTree → Prop
  | regular (isExecutable : Bool) (data pad : Bytes) :
      Restored (.regular isExecutable data pad) (.regular isExecutable (.ofBytes data))
  | directory (members : List Member) (renamed : Renamed [] members)
      (distinct : (members.map Member.hacked).Nodup)
      (children : ∀ m ∈ members, Restored m.node m.tree) :
      Restored (.directory (members.map fun m => (m.name, m.node)))
        (.directory ((members.map fun m => (m.hacked, m.tree)).foldl
          (fun files e => insertOver (byKey compare) e files) []))
  | symlink (target : Bytes) : Restored (.symlink target) (.symlink target)

section Restore

variable {fold : Bytes → Bytes}

theorem createEntry_eq_ok {files files' : List (Bytes × FileTree)} {entry : Bytes × Creation}
    (h : createEntry fold files entry = .ok files') :
    ∃ tree, entry.2.file = .ok tree ∧ entry.1 ∉ files.map Prod.fst ∧
      files' = insertOver (byKey compare) (entry.1, tree) files := by
  rw [createEntry] at h
  split at h
  · cases h
  next hfold =>
    have hnotMem : entry.1 ∉ files.map Prod.fst := by
      intro hin
      obtain ⟨f, hf, hname⟩ := List.mem_map.mp hin
      exact hfold ⟨f, hf, congrArg fold hname⟩
    cases hfile : entry.2.file with
    | error e => rw [hfile] at h; cases h
    | ok tree =>
      rw [hfile] at h
      exact ⟨tree, rfl, hnotMem, (Except.ok.inj h).symm⟩

theorem exists_members {f : Node → Creation} {entries : List (Bytes × Node)}
    {names : List (Bytes × Nat)} {renamed : List (Bytes × Node)}
    {files files' : List (Bytes × FileTree)}
    (hrenamed : renameEntries true names entries = some renamed)
    (hcreate : (renamed.map fun e => (e.1, f e.2)).foldlM (createEntry fold) files = .ok files')
    (hfiles : (files.map Prod.fst).Nodup) :
    ∃ members : List Member, entries = members.map (fun m => (m.name, m.node)) ∧
      Renamed names members ∧ (∀ m ∈ members, (f m.node).file = .ok m.tree) ∧
      (files.map Prod.fst ++ members.map Member.hacked).Nodup ∧
      files' = (members.map fun m => (m.hacked, m.tree)).foldl
        (fun files e => insertOver (byKey compare) e files) files := by
  induction entries generalizing names renamed files with
  | nil =>
    obtain rfl := Option.some.inj hrenamed
    obtain rfl := Except.ok.inj hcreate
    exact ⟨[], rfl, rfl, nofun, by simpa using hfiles, rfl⟩
  | cons e entries ih =>
    obtain ⟨name, node⟩ := e
    rw [renameEntries] at hrenamed
    cases hhack : hackName true names name with
    | error e => rw [hhack] at hrenamed; cases hrenamed
    | ok r =>
      obtain ⟨hacked, names'⟩ := r
      rw [hhack] at hrenamed
      obtain ⟨renamed', hlater, rfl⟩ := Option.map_eq_some_iff.mp hrenamed
      rw [List.map_cons, List.foldlM_cons] at hcreate
      cases hentry : createEntry fold files (hacked, f node) with
      | error e => rw [hentry] at hcreate; cases hcreate
      | ok filesNext =>
        rw [hentry] at hcreate
        obtain ⟨tree, htree, hnotMem, rfl⟩ := createEntry_eq_ok hentry
        have hins : (insertOver (byKey compare) (hacked, tree) files).Perm
            ((hacked, tree) :: files) := perm_insertOver_byKey hnotMem
        have hnodup := ((hins.map Prod.fst).nodup_iff).mpr (List.nodup_cons.mpr ⟨hnotMem, hfiles⟩)
        obtain ⟨members, rfl, hmembers, hfile, hdistinct, rfl⟩ := ih hlater hcreate hnodup
        refine ⟨⟨name, hacked, node, tree⟩ :: members, rfl,
          renamed_cons_iff.mpr ⟨names', hhack, hmembers⟩,
          List.forall_mem_cons.mpr ⟨htree, hfile⟩, ?_, rfl⟩
        have hmiddle : (files.map Prod.fst ++ hacked :: members.map Member.hacked).Perm
            ((hacked :: files.map Prod.fst) ++ members.map Member.hacked) := List.perm_middle
        exact hmiddle.nodup_iff.mpr
          (((hins.map Prod.fst).append_right _).nodup_iff.mp hdistinct)

theorem restored_of_file {C : Bytes → Bytes → Prop} {levels : Nat} {node : Node} {start : Bytes}
    {tree : FileTree} (h : node.Valid true C levels)
    (hfile : (node.build true (restoreSink fold) start).file = .ok tree) :
    Restored node tree := by
  induction levels generalizing node tree with
  | zero => exact h.elim
  | succ levels ih =>
    cases node with
    | regular isExecutable data pad =>
      obtain rfl := Except.ok.inj hfile
      exact .regular isExecutable data pad
    | directory entries =>
      obtain ⟨-, hsome, hall⟩ := h
      obtain ⟨renamed, hrenamed⟩ := Option.isSome_iff_exists.mp hsome
      have hbuild := renameEntries_map true
        (fun n : Node => n.build true (restoreSink fold) start) [] entries
      rw [hrenamed, ← buildEntries_eq_map] at hbuild
      rw [Node.build, hbuild, Option.map_some, Option.getD_some] at hfile
      dsimp only [restoreSink] at hfile
      obtain ⟨files, hcreate, htree⟩ := bind_eq_ok.mp hfile
      obtain rfl := pure_eq_ok.mp htree
      obtain ⟨members, rfl, hmembers, hfiles, hdistinct, rfl⟩ :=
        exists_members hrenamed hcreate List.nodup_nil
      refine .directory members hmembers hdistinct fun m hm => ?_
      exact ih (hall _ (List.mem_map_of_mem hm)).2 (hfiles m hm)
    | symlink target =>
      obtain rfl := Except.ok.inj hfile
      exact .symlink target

end Restore

/-- An entry whose name is found again when it is dumped. -/
def Member.Recovered (m : Member) : Prop := unhackedName true m.hacked = m.name

theorem Renamed.isPrefix {names : List (Bytes × Nat)} {members : List Member}
    (h : Renamed names members) : ∀ m ∈ members, unhackedName true m.hacked <+: m.name := by
  induction members generalizing names with
  | nil => exact nofun
  | cons m members ih =>
    obtain ⟨names', hhack, hrest⟩ := renamed_cons_iff.mp h
    exact List.forall_mem_cons.mpr ⟨(hackName_unhackedName hhack).1, ih hrest⟩

theorem Renamed.recovered_iff {names : List (Bytes × Nat)} {members : List Member}
    (h : Renamed names members) :
    (∀ m ∈ members, m.Recovered) ↔
      (∀ m ∈ members, Collides names m.name → ¬caseHackStem <:+ m.name) ∧
        RecoverableNames (members.map Member.name) := by
  induction members generalizing names with
  | nil => exact iff_of_true nofun ⟨nofun, nofun, .nil⟩
  | cons m members ih =>
    obtain ⟨names', hhack, hrest⟩ := renamed_cons_iff.mp h
    have hm := (hackName_unhackedName hhack).2
    have hcollides := (hackName_eq_ok hhack).2
    rw [List.forall_mem_cons, List.forall_mem_cons, ih hrest, Member.Recovered, hm]
    constructor
    · rintro ⟨⟨hsuffix, hstem⟩, hlater, hnames⟩
      refine ⟨⟨hstem, fun m' hm' hc => hlater m' hm' ((hcollides _).mpr (.inr hc))⟩,
        List.forall_mem_cons.mpr ⟨hsuffix, hnames.suffix⟩,
        List.pairwise_cons.mpr ⟨fun name hname hlower => ?_, hnames.stem⟩⟩
      obtain ⟨m', hm', rfl⟩ := List.mem_map.mp hname
      exact hlater m' hm' ((hcollides _).mpr (.inl hlower))
    · rintro ⟨⟨hstem, hlater⟩, hsuffix, hnames⟩
      obtain ⟨hsuffix, hsuffixes⟩ := List.forall_mem_cons.mp hsuffix
      obtain ⟨hlower, hnames⟩ := List.pairwise_cons.mp hnames
      refine ⟨⟨hsuffix, hstem⟩, fun m' hm' hc => ?_, hsuffixes, hnames⟩
      rcases (hcollides _).mp hc with heq | hc
      · exact hlower _ (List.mem_map_of_mem hm') heq
      · exact hlater m' hm' hc

theorem not_collides_nil (name : Bytes) : ¬Collides [] name :=
  fun ⟨_, h, _⟩ => absurd h List.not_mem_nil

theorem Renamed.recovered_nil_iff {members : List Member} (h : Renamed [] members) :
    (∀ m ∈ members, m.Recovered) ↔ RecoverableNames (members.map Member.name) := by
  rw [h.recovered_iff]
  exact ⟨And.right, fun hnames => ⟨fun _ _ hc => absurd hc (not_collides_nil _), hnames⟩⟩

theorem eq_of_perm_of_isPrefix {ι β : Type} {l : List ι} {f g : ι → List β}
    (hperm : (l.map f).Perm (l.map g)) (h : ∀ i ∈ l, f i <+: g i) : ∀ i ∈ l, f i = g i := by
  have hsum : (l.map fun i => (f i).length).sum = (l.map fun i => (g i).length).sum := by
    have hlengths := (hperm.map List.length).sum_eq
    rwa [List.map_map, List.map_map] at hlengths
  clear hperm
  induction l with
  | nil => exact nofun
  | cons i l ih =>
    obtain ⟨hi, hl⟩ := List.forall_mem_cons.mp h
    rw [List.map_cons, List.map_cons, List.sum_cons, List.sum_cons] at hsum
    have hle := hi.length_le
    have hles : (l.map fun i => (f i).length).sum ≤ (l.map fun i => (g i).length).sum :=
      List.sum_le_sum fun i hi => (hl i hi).length_le
    exact List.forall_mem_cons.mpr ⟨hi.eq_of_length (by omega), ih hl (by omega)⟩

theorem Renamed.validComponent {names : List (Bytes × Nat)} {members : List Member}
    (h : Renamed names members) (hnames : ∀ m ∈ members, ValidComponent m.name) :
    ∀ m ∈ members, ValidComponent m.hacked := by
  induction members generalizing names with
  | nil => exact nofun
  | cons m members ih =>
    obtain ⟨names', hhack, hrest⟩ := renamed_cons_iff.mp h
    obtain ⟨hm, hnames⟩ := List.forall_mem_cons.mp hnames
    refine List.forall_mem_cons.mpr ⟨?_, ih hrest hnames⟩
    obtain ⟨⟨-, heq⟩ | ⟨-, n, heq⟩, -⟩ := hackName_eq_ok hhack
    · rwa [heq]
    · rw [heq]
      have hlong : ∀ s : Bytes, s.length ≤ 2 → m.name ++ (caseHackSuffix ++ decimal n) ≠ s := by
        intro s hs heq'
        have hlen := congrArg List.length heq'
        rw [List.length_append, List.length_append, length_caseHackSuffix] at hlen
        omega
      have hnotMem : ∀ b, b ∉ m.name → b ∉ caseHackSuffix → isDigit b = false →
          b ∉ m.name ++ (caseHackSuffix ++ decimal n) := by
        intro b hname hsuffix hdigit hin
        rcases List.mem_append.mp hin with hin | hin
        · exact hname hin
        · rcases List.mem_append.mp hin with hin | hin
          · exact hsuffix hin
          · rw [isDigit_of_mem_decimal hin] at hdigit
            cases hdigit
      exact ⟨hlong _ (by decide), hlong _ (by decide), hlong _ (by decide),
        hnotMem _ hm.no_slash (by decide) (by decide), hnotMem _ hm.no_nul (by decide) (by decide)⟩

end Nix.Util.CaseHacks
