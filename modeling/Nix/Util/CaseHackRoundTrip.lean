import Nix.Lib.Results
import Nix.Util.ArchiveSkip
import Nix.Util.CaseHacks

/-!
Which archives are dumped again from what the case hack restores.
-/

set_option linter.dupNamespace false

namespace Nix.Util.CaseHacks

open Util.Types Util.Serialise Util.StringSource Util.CanonPaths Util.CanonPathComponents
  Util.Archive Util.ArchiveGrammar Util.ArchiveRoundTrip
open Util.ArchiveSkip (Bounded bytes_append_inj)
open Lib.SortedList
open Lib.PrefixReader (fromExcept)
open Lib.Results

mutual

/-- What dumping with the case hack writes, if it does not fail. -/
def redump : FileTree → Node
  | .regular isExecutable contents =>
      .regular isExecutable contents.data (writePadding contents.data.length)
  | .directory files =>
      .directory ((redumpEntries files).foldl (fun m e => insertOver (byKey compare) e m) [])
  | .symlink target => .symlink target
  | .unsupported => .symlink []

def redumpEntries : List (Bytes × FileTree) → List (Bytes × Node)
  | [] => []
  | (name, tree) :: files => (unhackedName true name, redump tree) :: redumpEntries files

end

theorem redumpEntries_eq_map (files : List (Bytes × FileTree)) :
    redumpEntries files = files.map fun f => (unhackedName true f.1, redump f.2) := by
  induction files with
  | nil => rfl
  | cons f files ih => rw [redumpEntries, ih, List.map_cons]

/-- No two files of a directory are dumped under the same name. -/
inductive Distinct : FileTree → Prop
  | regular (isExecutable : Bool) (contents : FileContents) :
      Distinct (.regular isExecutable contents)
  | directory {files : List (Bytes × FileTree)}
      (names : (files.map fun f => unhackedName true f.1).Nodup)
      (children : ∀ f ∈ files, Distinct f.2) : Distinct (.directory files)
  | symlink (target : Bytes) : Distinct (.symlink target)

section Dump

variable {opts : DumpOptions}

theorem unhack_eq_ok {ν : Type} (hack : opts.useCaseHack = true) {path : CanonPath}
    {entries : List (Bytes × ν)} {acc out : List (Bytes × Bytes × ν)} :
    unhack opts path entries acc = .ok out ↔
      (∀ e ∈ entries, unhackedName true e.1 ∉ acc.map Prod.fst) ∧
        (entries.map fun e => unhackedName true e.1).Nodup ∧
        out = (entries.map fun e => (unhackedName true e.1, e.1, e.2)).foldl
          (fun m e => insertOver (byKey compare) e m) acc := by
  induction entries generalizing acc with
  | nil =>
    rw [unhack, Except.ok.injEq]
    exact ⟨fun h => ⟨List.forall_mem_nil _, .nil, h.symm⟩, fun h => h.2.2.symm⟩
  | cons e entries ih =>
    obtain ⟨real, child⟩ := e
    rw [unhack, hack, List.forall_mem_cons, List.map_cons, List.map_cons, List.foldl_cons,
      List.nodup_cons]
    dsimp only
    cases hfind : acc.find? fun i => i.1 = unhackedName true real with
    | some i =>
      have hmem : unhackedName true real ∈ acc.map Prod.fst :=
        List.mem_map.mpr ⟨i, List.mem_of_find?_eq_some hfind, by
          simpa using List.find?_some hfind⟩
      dsimp only
      rw [if_pos rfl, bind_eq_ok]
      refine iff_of_false ?_ fun h => h.1.1 hmem
      rintro ⟨p, -, h⟩
      obtain ⟨q, -, h⟩ := bind_eq_ok.mp h
      cases h
    | none =>
      have hnotMem : unhackedName true real ∉ acc.map Prod.fst := by
        intro hin
        obtain ⟨i, hi, hname⟩ := List.mem_map.mp hin
        exact List.find?_eq_none.mp hfind i hi (decide_eq_true hname)
      have hins : (insertOver (byKey compare) (unhackedName true real, real, child) acc).Perm
          ((unhackedName true real, real, child) :: acc) := perm_insertOver_byKey hnotMem
      have hnames : ∀ x, x ∉ (insertOver (byKey compare)
          (unhackedName true real, real, child) acc).map Prod.fst ↔
          x ≠ unhackedName true real ∧ x ∉ acc.map Prod.fst := fun x => by
        rw [(hins.map Prod.fst).mem_iff, List.map_cons, List.mem_cons, not_or]
      dsimp only
      rw [insertNew_eq_insertOver (byKey_ne_eq hnotMem), ih]
      simp only [hnames]
      constructor
      · rintro ⟨hnotIn, hnodup, rfl⟩
        refine ⟨⟨hnotMem, fun e he => (hnotIn e he).2⟩, ⟨?_, hnodup⟩, rfl⟩
        intro hin
        obtain ⟨e, he, hname⟩ := List.mem_map.mp hin
        exact (hnotIn e he).1 hname
      · rintro ⟨⟨-, hnotIn⟩, ⟨hnotHead, hnodup⟩, rfl⟩
        refine ⟨fun e he => ⟨fun hname => hnotHead ?_, hnotIn e he⟩, hnodup, rfl⟩
        exact List.mem_map.mpr ⟨e, he, hname⟩

theorem dumpObject_eq_ok {depth : Nat} {path : CanonPath} {body : Except Error Bytes}
    {out : Bytes} :
    dumpObject opts depth path body = .ok out ↔
      depth < narMaxDepth ∧ ∃ b, body = .ok b ∧
        out = writeString (str "(") ++ b ++ writeString (str ")") := by
  rw [dumpObject]
  split
  next h => exact iff_of_false (by rintro ⟨⟩) fun h' => absurd h'.1 (Nat.not_lt.mpr h)
  next h =>
    rw [bind_eq_ok]
    constructor
    · rintro ⟨b, hb, hout⟩
      exact ⟨Nat.lt_of_not_le h, b, hb, (pure_eq_ok.mp hout).symm⟩
    · rintro ⟨-, b, hb, rfl⟩
      exact ⟨b, hb, rfl⟩

theorem dumpEntries_eq_ok {ι : Type} (hfilter : ∀ p, opts.filter p = true)
    {path filterPath : CanonPath} {l : List ι} {name real : ι → Bytes}
    {dumpNode : ι → CanonPath → CanonPath → Except Error Bytes} {out : Bytes}
    (h : dumpEntries opts path filterPath (l.map fun i => (name i, real i, dumpNode i)) = .ok out)
    {node : ι → Node} (hnode : ∀ i ∈ l, ∀ p q b, dumpNode i p q = .ok b → b = (node i).bytes) :
    out = entriesBytes (l.map fun i => (name i, node i)) ∧
      ∀ i ∈ l, ∃ p q b, dumpNode i p q = .ok b := by
  induction l generalizing out with
  | nil =>
    obtain rfl := Except.ok.inj h
    exact ⟨rfl, nofun⟩
  | cons i l ih =>
    obtain ⟨hi, hl⟩ := List.forall_mem_cons.mp hnode
    rw [List.map_cons, dumpEntries] at h
    obtain ⟨target, -, h⟩ := bind_eq_ok.mp h
    rw [hfilter, if_pos rfl] at h
    obtain ⟨subPath, -, h⟩ := bind_eq_ok.mp h
    obtain ⟨subFilterPath, -, h⟩ := bind_eq_ok.mp h
    obtain ⟨b, hb, h⟩ := bind_eq_ok.mp h
    obtain ⟨entry, hentry, h⟩ := bind_eq_ok.mp h
    obtain ⟨rest, hrest, h⟩ := bind_eq_ok.mp h
    obtain rfl := pure_eq_ok.mp hentry
    obtain rfl := pure_eq_ok.mp h
    obtain ⟨rfl, hsuccess⟩ := ih hrest hl
    obtain rfl := hi _ _ _ hb
    refine ⟨?_, List.forall_mem_cons.mpr ⟨⟨_, _, _, hb⟩, hsuccess⟩⟩
    simp [entriesBytes]

theorem bytes_redump (hack : opts.useCaseHack = true) (hfilter : ∀ p, opts.filter p = true)
    {levels depth : Nat} (hdepth : narMaxDepth ≤ depth + levels) {tree : FileTree}
    {path filterPath : CanonPath} {out : Bytes}
    (h : dump opts tree depth path filterPath = .ok out) :
    out = (redump tree).bytes ∧ Distinct tree := by
  induction levels generalizing depth tree path filterPath out with
  | zero =>
    have hdeep : ∀ body, dumpObject opts depth path body ≠ .ok out := fun body hok =>
      absurd (dumpObject_eq_ok.mp hok).1 (Nat.not_lt.mpr hdepth)
    cases tree <;> exact absurd (by simpa only [dump] using h) (hdeep _)
  | succ levels ih =>
    cases tree with
    | regular isExecutable contents =>
      obtain ⟨-, b, hb, rfl⟩ := dumpObject_eq_ok.mp h
      obtain rfl := pure_eq_ok.mp hb
      refine ⟨?_, .regular isExecutable contents⟩
      rw [redump, Node.bytes]
      cases isExecutable <;> simp [executableTokens, dumpContents]
    | directory files =>
      obtain ⟨-, b, hb, rfl⟩ := dumpObject_eq_ok.mp h
      obtain ⟨unhacked, hunhack, hb⟩ := bind_eq_ok.mp hb
      obtain ⟨entries, hentries, hb⟩ := bind_eq_ok.mp hb
      obtain rfl := pure_eq_ok.mp hb
      rw [dumpChildren_eq_map] at hunhack
      obtain ⟨-, hnames, rfl⟩ := (unhack_eq_ok hack).mp hunhack
      rw [List.map_map] at hnames
      let items := files.map fun f => (unhackedName true f.1, f)
      let sorted := items.foldl (fun m e => insertOver (byKey compare) e m) []
      have hperm : sorted.Perm items :=
        perm_foldl_insertOver (apart_byKey (by rw [List.nil_append, List.map_map]; exact hnames))
      have hdumped : (items.map fun i => (i.1, i.2.1, dump opts i.2.2 (depth + 1))).foldl
          (fun m e => insertOver (byKey compare) e m) [] =
          sorted.map fun i => (i.1, i.2.1, dump opts i.2.2 (depth + 1)) :=
        foldl_insertOver_mapValues (fun f => (f.1, dump opts f.2 (depth + 1))) items
      have hredump : (redumpEntries files).foldl (fun m e => insertOver (byKey compare) e m) [] =
          sorted.map fun i => (i.1, redump i.2.2) := by
        rw [redumpEntries_eq_map, ← foldl_insertOver_mapValues
          (fun f : Bytes × FileTree => redump f.2), List.map_map]
        rfl
      have hitems : (files.map fun e => (e.1, dump opts e.2 (depth + 1))).map
          (fun e => (unhackedName true e.1, e.1, e.2)) =
          items.map fun i => (i.1, i.2.1, dump opts i.2.2 (depth + 1)) := by
        rw [List.map_map, List.map_map]
        rfl
      rw [hitems, hdumped] at hentries
      obtain ⟨rfl, hsuccess⟩ := dumpEntries_eq_ok hfilter hentries
        fun i _ p q b hb => (ih (by omega) hb).1
      constructor
      · rw [redump, hredump, Node.bytes]
        simp
      · refine .directory hnames fun f hf => ?_
        obtain ⟨p, q, b, hb⟩ := hsuccess _ (hperm.symm.subset (List.mem_map_of_mem hf))
        exact (ih (by omega) hb).2
    | symlink target =>
      obtain ⟨-, b, hb, rfl⟩ := dumpObject_eq_ok.mp h
      obtain rfl := pure_eq_ok.mp hb
      refine ⟨?_, .symlink target⟩
      rw [redump, Node.bytes]
      simp
    | unsupported =>
      obtain ⟨-, b, hb, -⟩ := dumpObject_eq_ok.mp h
      cases hb

end Dump

/-- In all directories of the parse tree the names are recoverable. -/
inductive Recoverable : Node → Prop
  | regular (isExecutable : Bool) (data pad : Bytes) :
      Recoverable (.regular isExecutable data pad)
  | directory {entries : List (Bytes × Node)} (names : RecoverableNames (entries.map Prod.fst))
      (children : ∀ e ∈ entries, Recoverable e.2) : Recoverable (.directory entries)
  | symlink (target : Bytes) : Recoverable (.symlink target)

section Restored

theorem perm_files {members : List Member} (distinct : (members.map Member.hacked).Nodup) :
    ((members.map fun m => (m.hacked, m.tree)).foldl
      (fun files e => insertOver (byKey compare) e files) []).Perm
      (members.map fun m => (m.hacked, m.tree)) :=
  perm_foldl_insertOver (apart_byKey (by rw [List.nil_append, List.map_map]; exact distinct))

theorem unhack_members {opts : DumpOptions} (hack : opts.useCaseHack = true) {ν : Type}
    {members : List Member} (distinct : (members.map Member.hacked).Nodup)
    (hrecovered : ∀ m ∈ members, m.Recovered)
    (hsorted : StrictlySorted compare (members.map Member.name)) (path : CanonPath)
    (child : FileTree → ν) :
    unhack opts path (((members.map fun m => (m.hacked, m.tree)).foldl
        (fun files e => insertOver (byKey compare) e files) []).map fun f => (f.1, child f.2)) [] =
      .ok (members.map fun m => (m.name, m.hacked, child m.tree)) := by
  have hitems : ((((members.map fun m => (m.hacked, m.tree)).foldl
      (fun files e => insertOver (byKey compare) e files) []).map
        fun f => (f.1, child f.2)).map fun e => (unhackedName true e.1, e.1, e.2)).Perm
      (members.map fun m => (m.name, m.hacked, child m.tree)) := by
    refine (((perm_files distinct).map _).map _).trans (.of_eq ?_)
    rw [List.map_map, List.map_map]
    refine List.map_congr_left fun m hm => ?_
    exact Prod.ext (hrecovered m hm) rfl
  refine (unhack_eq_ok hack).mpr ⟨fun _ _ => List.not_mem_nil, ?_, ?_⟩
  · have hnames := hitems.map Prod.fst
    rw [List.map_map] at hnames
    refine hnames.nodup_iff.mpr ?_
    rw [List.map_map]
    exact hsorted.nodup
  · refine (foldl_insertOver_of_perm (strictlySorted_byKey.mpr ?_) hitems).symm
    rw [List.map_map]
    exact hsorted

variable {node : Node} {tree : FileTree}

theorem dump_restored {opts : DumpOptions} (hack : opts.useCaseHack = true)
    (hfilter : ∀ p, opts.filter p = true) (h : Restored node tree) (hnames : Recoverable node)
    {levels depth : Nat} (hvalid : node.Valid true (ContentsOk false) levels)
    (hdepth : depth + levels ≤ narMaxDepth) (path filterPath : CanonPath) :
    dump opts tree depth path filterPath = .ok node.bytes := by
  induction h generalizing levels depth path filterPath with
  | regular isExecutable data pad =>
    obtain _ | levels := levels
    · exact hvalid.elim
    obtain ⟨⟨hlen, -⟩, hpad⟩ := hvalid
    obtain rfl : pad = writePadding data.length := hpad
    refine dumpObject_eq_ok.mpr ⟨by omega, _, rfl, ?_⟩
    rw [Node.bytes]
    cases isExecutable <;>
      simp [executableTokens, dumpContents, FileContents.data_ofBytes hlen]
  | directory members renamed distinct children ih =>
    obtain _ | levels := levels
    · exact hvalid.elim
    obtain ⟨hsorted, -, hall⟩ := hvalid
    cases hnames with
    | directory hrecoverable hchildren =>
      rw [List.map_map] at hsorted hrecoverable
      have hrecovered := renamed.recovered_nil_iff.mpr hrecoverable
      have hvalidNames : ∀ m ∈ members, ValidComponent m.name := fun m hm =>
        (hall _ (List.mem_map_of_mem hm)).1.component
      have hunhack := unhack_members hack distinct hrecovered hsorted path
        fun tree => dump opts tree (depth + 1)
      have hentries := @dumpEntries_eq opts Member hfilter path filterPath members Member.name
        Member.hacked Member.node (fun m => dump opts m.tree (depth + 1))
        (fun m hm p => exists_push p (hvalidNames m hm))
        (fun m hm p => exists_push p (renamed.validComponent hvalidNames m hm))
        (fun m hm p q => ih m hm (hchildren _ (List.mem_map_of_mem hm))
          (hall _ (List.mem_map_of_mem hm)).2 (by omega) p q)
      rw [← dumpChildren_eq_map] at hunhack
      refine dumpObject_eq_ok.mpr ⟨by omega, _,
        bind_eq_ok.mpr ⟨_, hunhack, bind_eq_ok.mpr ⟨_, hentries, rfl⟩⟩, ?_⟩
      simp [Node.bytes]
  | symlink target =>
    obtain _ | levels := levels
    · exact hvalid.elim
    refine dumpObject_eq_ok.mpr ⟨by omega, _, rfl, ?_⟩
    simp [Node.bytes]

theorem perm_redump {members : List Member}
    {files : List (Bytes × FileTree)} (hfiles : files.Perm (members.map fun m => (m.hacked, m.tree)))
    (hnames : (files.map fun f => unhackedName true f.1).Nodup) :
    ((redumpEntries files).foldl (fun m e => insertOver (byKey compare) e m) []).Perm
      (members.map fun m => (unhackedName true m.hacked, redump m.tree)) := by
  rw [redumpEntries_eq_map]
  have hsorted := perm_foldl_insertOver (show Apart (byKey compare)
    ([] ++ files.map fun f => (unhackedName true f.1, redump f.2)) from
    apart_byKey (by rw [List.nil_append, List.map_map]; exact hnames))
  refine hsorted.trans ((hfiles.map _).trans (.of_eq ?_))
  rw [List.map_map]
  rfl

theorem bounded_redump (h : Restored node tree) (hnode : Bounded node) (hdistinct : Distinct tree) :
    Bounded (redump tree) := by
  induction h with
  | regular isExecutable data pad =>
    exact .regular ⟨(FileContents.ofBytes data).length_lt, writePadding_length _⟩
  | directory members renamed distinct children ih =>
    cases hnode with
    | directory hnames hbounded =>
      cases hdistinct with
      | directory hunhacked hchildren =>
        have hfiles := perm_files distinct
        have hperm := perm_redump hfiles hunhacked
        rw [redump]
        refine .directory (fun e he => ?_) fun e he => ?_
        · obtain ⟨m, hm, rfl⟩ := List.mem_map.mp (hperm.subset he)
          exact (renamed.isPrefix m hm).length_le.trans_lt (hnames _ (List.mem_map_of_mem hm))
        · obtain ⟨m, hm, rfl⟩ := List.mem_map.mp (hperm.subset he)
          exact ih m hm (hbounded _ (List.mem_map_of_mem hm))
            (hchildren _ (hfiles.symm.subset (List.mem_map_of_mem hm)))
  | symlink target => exact hnode

theorem recoverable_of_redump (h : Restored node tree) (hdistinct : Distinct tree)
    {C : Bytes → Bytes → Prop} {levels : Nat} (hvalid : node.Valid true C levels)
    (heq : redump tree = node) : Recoverable node := by
  induction h generalizing levels with
  | regular isExecutable data pad => exact .regular isExecutable data pad
  | directory members renamed distinct children ih =>
    obtain _ | levels := levels
    · exact hvalid.elim
    obtain ⟨hsorted, -, hall⟩ := hvalid
    cases hdistinct with
    | directory hunhacked hchildren =>
      have hfiles := perm_files distinct
      have hperm := perm_redump hfiles hunhacked
      rw [redump] at heq
      rw [Node.directory.inj heq] at hperm
      have hnames : (members.map fun m => unhackedName true m.hacked).Perm
          (members.map Member.name) := by
        have hfst := (hperm.map Prod.fst).symm
        rwa [List.map_map, List.map_map] at hfst
      have hrecovered := eq_of_perm_of_isPrefix hnames renamed.isPrefix
      rw [List.map_map] at hsorted
      refine .directory ?_ fun e he => ?_
      · rw [List.map_map]
        exact renamed.recovered_nil_iff.mp hrecovered
      · obtain ⟨m, hm, rfl⟩ := List.mem_map.mp he
        obtain ⟨m', hm', hentry⟩ := List.mem_map.mp
          (hperm.symm.subset (List.mem_map_of_mem hm))
        obtain ⟨hname, hnode⟩ := Prod.mk.inj hentry
        have hsame : m' = m := List.inj_on_of_nodup_map hsorted.nodup hm' hm
          (hname.trans (hrecovered m hm))
        subst hsame
        exact ih m' hm (hchildren _ (hfiles.symm.subset (List.mem_map_of_mem hm)))
          (hall _ he).2 hnode.symm
  | symlink target => exact .symlink target

end Restored

section RoundTrip

variable {fold : Bytes → Bytes} {s rest : Bytes} {tree : FileTree}

theorem restorePath_eq_ok :
    restorePath fold s = .ok (tree, rest) ↔
      ∃ node : Node, node.Valid true (ContentsOk false) narMaxDepth ∧
        s = archiveBytes node ++ rest ∧
        (node.build true (restoreSink fold) ([] : Bytes)).file = .ok tree := by
  have hlang := @recognises_parseDump Creation true (restoreSink fold) (fun _ _ _ _ _ => rfl) []
  rw [restorePath, Lib.PrefixReader.bind_eq_ok]
  constructor
  · rintro ⟨creation, t, hparse, hfile⟩
    obtain ⟨_, rfl, node, hvalid, rfl, rfl⟩ := (hlang s creation t).mp hparse
    obtain ⟨file, hok, heq⟩ := map_eq_ok.mp hfile
    obtain ⟨rfl, rfl⟩ := Prod.mk.inj heq
    exact ⟨node, hvalid, rfl, hok⟩
  · rintro ⟨node, hvalid, rfl, hfile⟩
    refine ⟨_, rest, hlang.reads ⟨node, hvalid, rfl, rfl⟩ rest, ?_⟩
    exact map_eq_ok.mpr ⟨tree, hfile, rfl⟩

theorem dumpPath_restored_iff {node : Node}
    (hvalid : node.Valid true (ContentsOk false) narMaxDepth) (h : Restored node tree)
    (path : CanonPath) :
    dumpPath { useCaseHack := true } tree path = .ok (archiveBytes node) ↔ Recoverable node := by
  rw [dumpPath, bind_eq_ok]
  constructor
  · rintro ⟨out, hdump, hout⟩
    have heq : out = node.bytes := List.append_cancel_left (pure_eq_ok.mp hout)
    obtain ⟨hbytes, hdistinct⟩ := @bytes_redump { useCaseHack := true } rfl (fun _ => rfl)
      narMaxDepth 0 (by omega) tree path path out hdump
    have hbounded : Bounded node := .of_valid (fun _ _ h => h.1) hvalid
    refine recoverable_of_redump h hdistinct hvalid ?_
    refine (@bytes_append_inj (redump tree) node [] []
      (bounded_redump h hbounded hdistinct) hbounded ?_).1
    rw [← hbytes, heq]
  · intro hnames
    refine ⟨node.bytes, ?_, rfl⟩
    exact @dump_restored node tree { useCaseHack := true } rfl (fun _ => rfl) h hnames
      narMaxDepth 0 hvalid (by omega) path path

/-- In every directory of an archive the names are recoverable. -/
def RecoverableArchive (nar : Bytes) : Prop :=
  ∀ node : Node, node.Valid true (ContentsOk false) narMaxDepth → nar = archiveBytes node →
    Recoverable node

/-- An archive that is restored with the case hack is dumped again exactly if its names are
recoverable. -/
theorem dumpPath_restorePath_iff {nar : Bytes}
    (h : restorePath fold (nar ++ rest) = .ok (tree, rest)) (path : CanonPath) :
    dumpPath { useCaseHack := true } tree path = .ok nar ↔ RecoverableArchive nar := by
  obtain ⟨node, hvalid, hnar, hfile⟩ := restorePath_eq_ok.mp h
  obtain rfl := List.append_cancel_right hnar
  rw [dumpPath_restored_iff hvalid (restored_of_file hvalid hfile)]
  constructor
  · intro hnames node' hvalid' heq
    have hsame := (@bytes_append_inj node' node [] [] (.of_valid (fun _ _ h => h.1) hvalid')
      (.of_valid (fun _ _ h => h.1) hvalid)
      (congrArg (· ++ []) (List.append_cancel_left heq).symm)).1
    exact hsame ▸ hnames
  · exact fun hnames => hnames node hvalid rfl

end RoundTrip

def collidingNode : Node :=
  .directory [(str "A", .symlink (str "x")), (str "a", .symlink (str "x"))]

theorem valid_collidingNode : collidingNode.Valid true (ContentsOk false) narMaxDepth := by
  refine ⟨by decide, by decide, fun e he => ?_⟩
  simp only [List.mem_cons, List.not_mem_nil, or_false] at he
  rcases he with rfl | rfl
  · exact ⟨⟨by decide, by decide⟩, by decide, by decide, by decide⟩
  · exact ⟨⟨by decide, by decide⟩, by decide, by decide, by decide⟩

theorem file_collidingNode :
    (collidingNode.build true (restoreSink (List.map toLower)) ([] : Bytes)).file =
      .ok (.directory [(str "A", .symlink (str "x")),
        (str "a~nix~case~hack~1", .symlink (str "x"))]) := rfl

theorem dumpPath_restorePath_collidingNode :
    ∃ tree, restorePath (List.map toLower) (archiveBytes collidingNode ++ []) = .ok (tree, []) ∧
      (dumpPath { useCaseHack := true } tree CanonPath.root = .ok (archiveBytes collidingNode) ↔
        RecoverableArchive (archiveBytes collidingNode)) := by
  have h := (@restorePath_eq_ok _ _ [] _).mpr
    ⟨collidingNode, valid_collidingNode, rfl, file_collidingNode⟩
  exact ⟨_, h, dumpPath_restorePath_iff h CanonPath.root⟩

def suffixedNode : Node := .directory [(str "a~nix~case~hack~1", .symlink (str "x"))]

theorem valid_suffixedNode : suffixedNode.Valid true (ContentsOk false) narMaxDepth := by
  refine ⟨by decide, by decide, fun e he => ?_⟩
  simp only [List.mem_cons, List.not_mem_nil, or_false] at he
  rcases he with rfl
  exact ⟨⟨by decide, by decide⟩, by decide, by decide, by decide⟩

theorem not_recoverable_suffixedNode : ¬Recoverable suffixedNode := by
  intro h
  cases h with
  | directory names _ => exact names.suffix _ List.mem_cons_self (by decide)

/-- The link is dumped as `a`. -/
theorem not_dumpPath_restorePath :
    ¬∀ (fold : Bytes → Bytes) (nar rest : Bytes) (tree : FileTree) (path : CanonPath),
      restorePath fold (nar ++ rest) = .ok (tree, rest) →
        dumpPath { useCaseHack := true } tree path = .ok nar := by
  intro h
  have hfile : (suffixedNode.build true (restoreSink (List.map toLower)) ([] : Bytes)).file =
      .ok (.directory [(str "a~nix~case~hack~1", .symlink (str "x"))]) := rfl
  have hdump := h (List.map toLower) (archiveBytes suffixedNode) [] _ CanonPath.root
    (restorePath_eq_ok.mpr ⟨suffixedNode, valid_suffixedNode, rfl, hfile⟩)
  exact not_recoverable_suffixedNode ((dumpPath_restored_iff valid_suffixedNode
    (restored_of_file valid_suffixedNode hfile) CanonPath.root).mp hdump)

end Nix.Util.CaseHacks
