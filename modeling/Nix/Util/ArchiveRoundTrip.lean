import Nix.Util.ArchiveGrammar
import Nix.Util.CanonPathOperations

set_option linter.dupNamespace false

namespace Nix.Util.ArchiveRoundTrip

open Util.Types Util.Serialise Util.StringSource Util.CanonPaths Util.Archive Util.ArchiveGrammar
  Lib.PrefixReader Lib.SortedList

/-- The trees of at most `levels` levels that the format can hold: directories
are maps, and names and targets are within the format's bounds. -/
def WellFormed : Nat → FileTree → Prop
  | 0, _ => False
  | _ + 1, .regular _ _ => True
  | levels + 1, .directory entries =>
      StrictlySorted compare (entries.map Prod.fst) ∧
        ∀ e ∈ entries, ValidName e.1 ∧ WellFormed levels e.2
  | _ + 1, .symlink target =>
      target ≠ [] ∧ (0 : UInt8) ∉ target ∧ target.length ≤ narMaxTarget
  | _ + 1, .unsupported => False

theorem FileContents.ofBytes_data (c : FileContents) : FileContents.ofBytes c.data = c := by
  obtain ⟨data, hlt⟩ := c
  have htake : data.take (2 ^ 64 - 1) = data := List.take_of_length_le (by omega)
  simp only [FileContents.ofBytes, htake]

theorem FileContents.data_ofBytes {data : Bytes} (h : data.length < 2 ^ 64) :
    (FileContents.ofBytes data).data = data :=
  List.take_of_length_le (by omega)

theorem map_fst_buildEntries {σ τ : Type} (sink : FileSystemObjectSink σ τ) (start : σ)
    (entries : List (Bytes × Node)) :
    (buildEntries false sink start entries).map Prod.fst = entries.map Prod.fst := by
  simp [buildEntries_eq_map]

theorem build_directory {entries : List (Bytes × Node)} {start : Bytes}
    (h : StrictlySorted compare (entries.map Prod.fst)) :
    (Node.directory entries).build false memorySink start =
      .directory (buildEntries false memorySink start entries) := by
  have hsorted : StrictlySorted (byKey compare)
      ([] ++ buildEntries false memorySink start entries) := by
    rw [List.nil_append, strictlySorted_byKey, map_fst_buildEntries]
    exact h
  simp only [Node.build, renameEntries_false, Option.getD_some]
  exact congrArg FileTree.directory (foldl_insertOver hsorted)

theorem exists_node {levels : Nat} {tree : FileTree} (start : Bytes)
    (h : WellFormed levels tree) :
    ∃ node : Node, node.Valid false (ContentsOk false) levels ∧
      node.build false memorySink start = tree := by
  induction levels generalizing tree with
  | zero => exact absurd h (by simp [WellFormed])
  | succ levels ih =>
      cases tree with
      | regular x contents =>
          refine ⟨.regular x contents.data (writePadding contents.data.length),
            ⟨⟨contents.length_lt, writePadding_length _⟩, rfl⟩, ?_⟩
          simp only [Node.build, memorySink, Bool.false_eq_true, if_false,
            FileContents.ofBytes_data]
      | directory entries =>
          obtain ⟨hsorted, hall⟩ := h
          have hnodes : ∃ nodes : List (Bytes × Node),
              (∀ e ∈ nodes, ValidName e.1 ∧ e.2.Valid false (ContentsOk false) levels) ∧
                buildEntries false memorySink start nodes = entries := by
            clear hsorted
            induction entries with
            | nil => exact ⟨[], by simp, rfl⟩
            | cons e entries ihe =>
                obtain ⟨⟨hname, hwf⟩, hall⟩ := List.forall_mem_cons.mp hall
                obtain ⟨node, hvalid, hbuild⟩ := ih hwf
                obtain ⟨nodes, hnodes, hbuilds⟩ := ihe hall
                exact ⟨(e.1, node) :: nodes,
                  List.forall_mem_cons.mpr ⟨⟨hname, hvalid⟩, hnodes⟩,
                  by simp [buildEntries, hbuild, hbuilds]⟩
          obtain ⟨nodes, hnodes, rfl⟩ := hnodes
          rw [map_fst_buildEntries] at hsorted
          exact ⟨.directory nodes, ⟨hsorted, by simp, hnodes⟩, build_directory hsorted⟩
      | symlink target => exact ⟨.symlink target, h, rfl⟩
      | unsupported => exact absurd h (by simp [WellFormed])

theorem wellFormed_build {levels : Nat} {node : Node} {start : Bytes}
    (h : node.Valid false (ContentsOk false) levels) :
    WellFormed levels (node.build false memorySink start) := by
  induction levels generalizing node with
  | zero => exact absurd h (by simp [Node.Valid])
  | succ levels ih =>
      cases node with
      | regular x data pad => trivial
      | directory entries =>
          obtain ⟨hsorted, -, hall⟩ := h
          rw [build_directory hsorted]
          refine ⟨by rw [map_fst_buildEntries]; exact hsorted, ?_⟩
          intro e he
          rw [buildEntries_eq_map] at he
          obtain ⟨e', he', rfl⟩ := List.mem_map.mp he
          exact ⟨(hall e' he').1, ih (hall e' he').2⟩
      | symlink target => exact h

section Dump

variable {opts : DumpOptions}

theorem unhack_sorted {ν : Type} (hack : opts.useCaseHack = false) (path : CanonPath)
    (entries : List (Bytes × ν)) (acc : List (Bytes × Bytes × ν))
    (h : StrictlySorted compare (acc.map Prod.fst ++ entries.map Prod.fst)) :
    unhack opts path entries acc =
      .ok (acc ++ entries.map fun e => (e.1, e.1, e.2)) := by
  induction entries generalizing acc with
  | nil => simp [unhack]
  | cons e entries ih =>
      obtain ⟨name, child⟩ := e
      have hgt : ∀ i ∈ acc, compare name i.1 = .gt := fun i hi =>
        gt_of_sorted_append (by simpa using h) i.1 (List.mem_map_of_mem hi)
      have hnone : (acc.find? fun i => i.1 = name) = none := by
        rw [List.find?_eq_none]
        intro i hi heq
        have hcmp := hgt i hi
        obtain rfl : i.1 = name := of_decide_eq_true heq
        simp at hcmp
      simp only [unhack, unhackedName, hack, Bool.false_eq_true, if_false, hnone]
      rw [insertNew_eq_append hgt, ih _ (by simpa using h)]
      simp

theorem dumpChildren_eq_map (entries : List (Bytes × FileTree)) (depth : Nat) :
    dumpChildren opts entries depth = entries.map fun e => (e.1, dump opts e.2 depth) := by
  induction entries with
  | nil => rfl
  | cons e entries ih => simp [dumpChildren, ih]

theorem dumpEntries_eq {ι : Type} (hfilter : ∀ p, opts.filter p = true)
    {path filterPath : CanonPath} {l : List ι} {name real : ι → Bytes} {node : ι → Node}
    {dumpNode : ι → CanonPath → CanonPath → Except Error Bytes}
    (hname : ∀ i ∈ l, ∀ p : CanonPath, ∃ q, p.push (name i) = .ok q)
    (hreal : ∀ i ∈ l, ∀ p : CanonPath, ∃ q, p.push (real i) = .ok q)
    (hdump : ∀ i ∈ l, ∀ p q, dumpNode i p q = .ok (node i).bytes) :
    dumpEntries opts path filterPath (l.map fun i => (name i, real i, dumpNode i)) =
      .ok (entriesBytes (l.map fun i => (name i, node i))) := by
  induction l with
  | nil => rfl
  | cons i l ih =>
      obtain ⟨hn, hnames⟩ := List.forall_mem_cons.mp hname
      obtain ⟨hr, hreals⟩ := List.forall_mem_cons.mp hreal
      obtain ⟨hd, hdumps⟩ := List.forall_mem_cons.mp hdump
      obtain ⟨target, htarget⟩ := hn filterPath
      obtain ⟨subPath, hsubPath⟩ := hr path
      obtain ⟨subFilterPath, hsubFilterPath⟩ := hr filterPath
      simp only [List.map_cons, dumpEntries, htarget, hsubPath, hsubFilterPath, hfilter, if_true,
        hd, ih hnames hreals hdumps, bind, Except.bind, pure, Except.pure]
      simp [entriesBytes]

theorem dump_build (hack : opts.useCaseHack = false) (hfilter : ∀ p, opts.filter p = true)
    {start : Bytes} {levels depth : Nat} {node : Node} (h : node.Valid false (ContentsOk false) levels)
    (hdepth : depth + levels ≤ narMaxDepth) (path filterPath : CanonPath) :
    dump opts (node.build false memorySink start) depth path filterPath = .ok node.bytes := by
  induction levels generalizing depth node path filterPath with
  | zero => exact absurd h (by simp [Node.Valid])
  | succ levels ih =>
      have hlt : ¬depth ≥ narMaxDepth := by omega
      cases node with
      | regular x data pad =>
          obtain ⟨⟨hlen, -⟩, hpad⟩ := h
          obtain rfl : pad = writePadding data.length := hpad
          simp only [Node.build, memorySink, Bool.false_eq_true, if_false, dump, dumpObject, hlt,
            dumpContents, FileContents.data_ofBytes hlen, bind, Except.bind, pure, Except.pure]
          cases x <;> simp [Node.bytes, executableTokens]
      | directory entries =>
          obtain ⟨hsorted, -, hall⟩ := h
          rw [build_directory hsorted]
          have hunhack := unhack_sorted hack path
            (dumpChildren opts (buildEntries false memorySink start entries) (depth + 1)) []
            (by simpa [dumpChildren_eq_map, buildEntries_eq_map, Function.comp_def] using hsorted)
          have hpush : ∀ e ∈ entries, ∀ p : CanonPath, ∃ q, p.push e.1 = .ok q :=
            fun e he p => exists_push p (hall e he).1.component
          have hentries := @dumpEntries_eq opts (Bytes × Node) hfilter path filterPath entries
            Prod.fst Prod.fst Prod.snd
            (fun e => dump opts (e.2.build false memorySink start) (depth + 1)) hpush hpush
            (fun e he p q => ih (hall e he).2 (by omega) p q)
          simp only [dumpChildren_eq_map, buildEntries_eq_map, List.map_map, List.nil_append,
            Function.comp_def] at hunhack hentries ⊢
          simp only [dump, dumpObject, hlt, if_false, dumpChildren_eq_map, List.map_map,
            Function.comp_def, hunhack, hentries, bind, Except.bind, pure, Except.pure]
          simp [Node.bytes]
      | symlink target =>
          simp [Node.build, memorySink, dump, dumpObject, hlt, Node.bytes, bind, Except.bind,
            pure, Except.pure]

end Dump

def archiveBytes (node : Node) : Bytes :=
  writeString narVersionMagic1 ++ node.bytes

theorem readVersion_eq_ok {s rest : Bytes} :
    readVersion stringSource s = .ok (narVersionMagic1, rest) ↔
      s = writeString narVersionMagic1 ++ rest := by
  have hread := recognises_readString narVersionMagic1.length s narVersionMagic1 rest
  unfold readVersion
  cases h : readString stringSource narVersionMagic1.length s with
  | ok r =>
      rw [h] at hread
      rw [hread]
      constructor
      · rintro ⟨_, rfl, rfl, -⟩
        rfl
      · rintro rfl
        exact ⟨_, rfl, rfl, le_rfl, by decide⟩
  | error e =>
      rw [h] at hread
      have hnot : ¬s = writeString narVersionMagic1 ++ rest := fun hs =>
        nomatch hread.mpr ⟨_, hs, rfl, le_rfl, by decide⟩
      refine iff_of_false ?_ hnot
      intro h'
      simp only at h'
      split at h'
      · simp only [Except.ok.injEq, Prod.mk.injEq] at h'
        exact absurd h'.1 (by decide)
      · simp at h'

/-- `parseDump` accepts exactly the archives of valid parse trees. -/
theorem recognises_parseDump {τ : Type} (useCaseHack : Bool)
    {sink : FileSystemObjectSink Bytes τ}
    (hsink : ∀ x n t t' d, sink.regular x n t d = sink.regular x n t' d) (start : Bytes) :
    Recognises (parseDump useCaseHack sink stringSource) fun a bs =>
      ∃ node : Node, node.Valid useCaseHack (ContentsOk sink.skipContents) narMaxDepth ∧
        a = node.build useCaseHack sink start ∧ bs = archiveBytes node := by
  intro s a rest
  simp only [parseDump, bind_eq_ok, throwIf_eq_ok, ne_eq, not_not,
    recognises_parse hsink start narMaxDepth _]
  constructor
  · rintro ⟨_, t, hversion, _, _, ⟨rfl, rfl⟩, _, rfl, node, hvalid, rfl, rfl⟩
    obtain rfl := readVersion_eq_ok.mp hversion
    exact ⟨_, by simp [archiveBytes], node, hvalid, rfl, rfl⟩
  · rintro ⟨_, rfl, node, hvalid, rfl, rfl⟩
    refine ⟨narVersionMagic1, node.bytes ++ rest, readVersion_eq_ok.mpr ?_, (), _, ⟨rfl, rfl⟩,
      _, rfl, node, hvalid, rfl, rfl⟩
    simp [archiveBytes]

theorem dumpPath_build {opts : DumpOptions} (hack : opts.useCaseHack = false)
    (hfilter : ∀ p, opts.filter p = true) {start : Bytes} {node : Node}
    (h : node.Valid false (ContentsOk false) narMaxDepth) (path : CanonPath) :
    dumpPath opts (node.build false memorySink start) path = .ok (archiveBytes node) := by
  have hdump := @dump_build opts hack hfilter start narMaxDepth 0 node h (by omega) path path
  simp [dumpPath, hdump, archiveBytes, bind, Except.bind, pure, Except.pure]

/-- NAR is a bijection between the trees it can hold and the texts that are
accepted. -/
theorem parseDump_dumpPath (path : CanonPath) :
    (∀ tree rest, WellFormed narMaxDepth tree →
      ∃ bs, dumpPath {} tree path = .ok bs ∧
        parseDump false memorySink stringSource (bs ++ rest) = .ok (tree, rest)) ∧
    ∀ s tree rest, parseDump false memorySink stringSource s = .ok (tree, rest) →
      WellFormed narMaxDepth tree ∧
        ∃ bs, dumpPath {} tree path = .ok bs ∧ s = bs ++ rest := by
  have hlang := @recognises_parseDump FileTree false memorySink (fun _ _ _ _ _ => rfl) []
  constructor
  · intro tree rest hwf
    obtain ⟨node, hvalid, rfl⟩ := exists_node [] hwf
    exact ⟨_, dumpPath_build rfl (fun _ => rfl) hvalid path,
      hlang.reads ⟨node, hvalid, rfl, rfl⟩ rest⟩
  · intro s tree rest hparse
    obtain ⟨_, rfl, node, hvalid, rfl, rfl⟩ := (hlang s tree rest).mp hparse
    exact ⟨wellFormed_build hvalid, _, dumpPath_build rfl (fun _ => rfl) hvalid path, rfl⟩

/-- A directory with an executable file and a link to it. -/
def sampleTree : FileTree :=
  .directory [(str "a", .regular true (.ofBytes (str "hello"))), (str "b", .symlink (str "a"))]

theorem wellFormed_sampleTree : WellFormed narMaxDepth sampleTree := by
  refine ⟨by decide, ?_⟩
  intro e he
  simp only [List.mem_cons, List.not_mem_nil, or_false] at he
  rcases he with rfl | rfl
  · exact ⟨⟨by decide, by decide⟩, trivial⟩
  · exact ⟨⟨by decide, by decide⟩, by decide, by decide, by decide⟩

theorem parseDump_dumpPath_sampleTree :
    ∃ bs, dumpPath {} sampleTree CanonPath.root = .ok bs ∧
      parseDump false memorySink stringSource (bs ++ str "rest") = .ok (sampleTree, str "rest") ∧
      ∃ bs', dumpPath {} sampleTree CanonPath.root = .ok bs' ∧
        bs ++ str "rest" = bs' ++ str "rest" := by
  obtain ⟨bs, hdump, hparse⟩ :=
    (parseDump_dumpPath CanonPath.root).1 sampleTree (str "rest") wellFormed_sampleTree
  obtain ⟨-, hback⟩ := (parseDump_dumpPath CanonPath.root).2 _ _ _ hparse
  exact ⟨bs, hdump, hparse, hback⟩

end Nix.Util.ArchiveRoundTrip

/-!
What parsing builds with a sink that looks at the state of the source.
-/

namespace Nix.Util.ArchivePositions

open Util.Types Util.Serialise Util.StringSource Util.Archive Util.ArchiveGrammar
  Util.ArchiveRoundTrip Lib.PrefixReader Lib.SortedList

variable {τ : Type} (sink : FileSystemObjectSink Bytes τ)

mutual

/-- What a sink builds from a parse tree that `after` follows in the input. -/
def Node.index : Node → (after : Bytes) → τ
  | .regular isExecutable data pad, after =>
      sink.regular isExecutable data.length (data ++ (pad ++ (tokens [str ")"] ++ after)))
        (if sink.skipContents then [] else data)
  | .directory entries, after => sink.directory (indexEntries entries (tokens [str ")"] ++ after))
  | .symlink target, _ => sink.symlink target

def indexEntries : List (Bytes × Node) → (after : Bytes) → List (Bytes × τ)
  | [], _ => []
  | (name, node) :: entries, after =>
      (name, Node.index node (tokens [str ")"] ++ (entriesBytes entries ++ after))) ::
        indexEntries entries after

end

variable {sink}

theorem map_fst_indexEntries (entries : List (Bytes × Node)) (after : Bytes) :
    (indexEntries sink entries after).map Prod.fst = entries.map Prod.fst := by
  induction entries with
  | nil => rfl
  | cons e entries ih => rw [indexEntries, List.map_cons, ih, List.map_cons]

theorem length_le_entriesBytes (entries : List (Bytes × Node)) :
    entries.length ≤ (entriesBytes entries).length := by
  induction entries with
  | nil => exact Nat.zero_le _
  | cons e entries ih =>
    have hpos := List.length_pos_of_ne_nil (writeString_ne_nil (str "entry"))
    rw [entriesBytes, List.length_cons, tokens_cons, List.append_assoc, List.length_append,
      List.length_append, List.length_append, List.length_append]
    omega

theorem loopFuel_indexEntries {child : Reader Bytes Error τ} {entries : List (Bytes × Node)}
    (hall : ∀ e ∈ entries, ValidName e.1 ∧
      ∀ after, child (e.2.bytes ++ after) = .ok (Node.index sink e.2 after, after))
    {st : DirState τ} (hsorted : StrictlySorted compare (st.prevName :: entries.map Prod.fst))
    {fuel : Nat} (hfuel : entries.length < fuel) (rest : Bytes) :
    loopFuel .diverges (parseEntry false stringSource child) fuel st
        (entriesBytes entries ++ (tokens [str ")"] ++ rest)) =
      .ok (st.entries ++ indexEntries sink entries (tokens [str ")"] ++ rest), rest) := by
  obtain ⟨fuel, rfl⟩ : ∃ n, fuel = n + 1 := ⟨fuel - 1, by omega⟩
  rw [loopFuel_succ]
  induction entries generalizing st fuel with
  | nil =>
    have hstep : parseEntry false stringSource child st
        (entriesBytes [] ++ (tokens [str ")"] ++ rest)) = .ok (.inr st.entries, rest) :=
      parseEntry_eq_ok.mpr (.inl ⟨rfl, rfl⟩)
    rw [hstep, indexEntries, List.append_nil]
    rfl
  | cons e entries ih =>
    obtain ⟨⟨hname, hchild⟩, hall⟩ := List.forall_mem_cons.mp hall
    obtain ⟨hlt, hsorted⟩ := StrictlySorted.cons_cons_iff.mp hsorted
    obtain ⟨fuel, rfl⟩ : ∃ n, fuel = n + 1 := ⟨fuel - 1, by
      rw [List.length_cons] at hfuel
      omega⟩
    have hstep : parseEntry false stringSource child st
        (entriesBytes (e :: entries) ++ (tokens [str ")"] ++ rest)) =
        .ok (.inl ⟨st.names, e.1, st.entries ++ [(e.1, Node.index sink e.2
          (tokens [str ")"] ++ (entriesBytes entries ++ (tokens [str ")"] ++ rest))))]⟩,
          entriesBytes entries ++ (tokens [str ")"] ++ rest)) :=
      parseEntry_eq_ok.mpr (.inr ⟨e.1, _, e.1, st.names, _, by simp [entriesBytes], hname,
        hlt, rfl, hchild _, rfl⟩)
    have hloop := @ih hall ⟨st.names, e.1, st.entries ++ [(e.1, Node.index sink e.2
      (tokens [str ")"] ++ (entriesBytes entries ++ (tokens [str ")"] ++ rest))))]⟩ hsorted fuel
      (by rw [List.length_cons] at hfuel; omega)
    rw [hstep]
    refine (loopFuel_succ _ _ _ _ _).trans (hloop.trans ?_)
    rw [indexEntries, List.append_assoc]
    rfl

theorem parse_index {levels : Nat} {node : Node}
    (h : node.Valid false (ContentsOk sink.skipContents) levels) (rest : Bytes) :
    parse false sink stringSource levels (node.bytes ++ rest) =
      .ok (Node.index sink node rest, rest) := by
  induction levels generalizing node rest with
  | zero => exact h.elim
  | succ levels ih =>
    cases node with
    | regular isExecutable data pad =>
      refine parse_succ_eq_ok.mpr ⟨_, .inl ⟨by simp [Node.bytes]; rfl, ?_⟩⟩
      exact parseRegular_eq_ok.mpr ⟨isExecutable, data, pad, by simp, h, rfl⟩
    | directory entries =>
      obtain ⟨hsorted, -, hall⟩ := h
      have hnames : StrictlySorted compare ([] :: entries.map Prod.fst) :=
        (strictlySorted_nil_cons (List.forall_mem_map.mpr fun e he =>
          (hall e he).1.ne_nil)).mpr hsorted
      have hlen := length_le_entriesBytes entries
      have hloop := @loopFuel_indexEntries τ sink (parse false sink stringSource levels) entries
        (fun e he => ⟨(hall e he).1, fun after => ih (hall e he).2 after⟩) {} hnames
        ((entriesBytes entries ++ (tokens [str ")"] ++ rest)).length + 1)
        (by rw [List.length_append]; omega) rest
      exact parse_succ_eq_ok.mpr ⟨entriesBytes entries ++ (tokens [str ")"] ++ rest),
        .inr (.inl ⟨by simp [Node.bytes], _, hloop, rfl⟩)⟩
    | symlink target =>
      refine parse_succ_eq_ok.mpr ⟨_, .inr (.inr ⟨by simp [Node.bytes]; rfl, ?_⟩)⟩
      exact (recognises_parseSymlink _ _ _).mpr ⟨_, by simp, target, h, rfl, rfl⟩

theorem parseDump_index {node : Node}
    (h : node.Valid false (ContentsOk sink.skipContents) narMaxDepth) (rest : Bytes) :
    parseDump false sink stringSource (archiveBytes node ++ rest) =
      .ok (Node.index sink node rest, rest) := by
  have hversion : readVersion stringSource (archiveBytes node ++ rest) =
      .ok (narVersionMagic1, node.bytes ++ rest) :=
    readVersion_eq_ok.mpr (by rw [archiveBytes, List.append_assoc])
  rw [parseDump, bind_apply, hversion]
  exact parse_index h rest

end Nix.Util.ArchivePositions
