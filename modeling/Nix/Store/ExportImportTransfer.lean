import Nix.Store.ExportImport

/-!
What is exported is imported, in an order in which references are valid.
-/

set_option linter.dupNamespace false

namespace Nix.Store.ExportImport

open Relation
open Lib.PrefixReader Lib.SortedList Util.Archive Util.ArchiveGrammar Util.ArchiveRoundTrip
  Util.ArchiveSkip Util.CanonPaths Util.Hashes Util.Serialise Util.StringSource Util.TopoSort
  Util.Types Store.Path Store.PathInfo Store.StoreDirs

/-- A store path that `parseStorePath` has returned, with a text that a `std::string` holds. -/
structure Printable (cfg : StoreConfig) (p : StorePath) : Prop where
  no_slash : slash ∉ p.baseName
  length : (cfg.print p).length < 2 ^ 64

/-- A valid path: its NAR can be restored, and a derivation has passed its check. -/
structure ValidObject (cfg : StoreConfig) (o : StoreObject) : Prop where
  deriver : ∀ d, o.info.deriver = some d → Printable cfg d
  references : o.info.references.elems.length < 2 ^ 64
  narSize : o.nar.length < 2 ^ 64
  nar : ∃ tree, parseDump cfg.useCaseHack memorySink stringSource o.nar = .ok (tree, [])
  derivation : o.info.path.isDerivation → cfg.checkDerivation o.info.path o.nar = .ok ()

/-- Valid paths with all their references. -/
structure ValidClosure (cfg : StoreConfig) (s : LocalStore) (paths : StorePathSet) : Prop where
  printable : ∀ p ∈ paths, Printable cfg p
  valid : ∀ p ∈ paths, ∃ o, s.find? p = some o ∧ ValidObject cfg o
  closed : ∀ p ∈ paths, ∀ o, s.find? p = some o → ∀ r ∈ o.info.references, r ∈ paths

/-- The import has added the paths, each one after its references. -/
structure Transferred (s dest : LocalStore) (paths : StorePathSet) (imported : List StorePath) :
    Prop where
  nodup : imported.Nodup
  mem : ∀ p, p ∈ imported ↔ p ∈ paths
  valid : ∀ p, dest.isValidPath p = true ↔ p ∈ paths
  same : ∀ p ∈ paths, ∃ o o', s.find? p = some o ∧ dest.find? p = some o' ∧ o'.nar = o.nar ∧
    o'.info.references = o.info.references ∧ o'.info.deriver = o.info.deriver
  ordered : ∀ before o after, dest.objects = before ++ o :: after →
    ∀ r ∈ o.info.references, r = o.info.path ∨ ∃ o' ∈ before, o'.info.path = r

/-- The references that `topoSortPaths` follows. -/
def LocalStore.references (s : LocalStore) (cfg : StoreConfig) (p : StorePath) : List StorePath :=
  match s.queryPathInfo cfg p with
  | .ok info => info.references.elems
  | .error _ => []

variable {cfg : StoreConfig} {s : LocalStore} {paths : StorePathSet} {p : StorePath}
  {o : StoreObject}

theorem LocalStore.path_of_find (h : s.find? p = some o) : o.info.path = p := by
  simpa using List.find?_some h

mutual

theorem length_le_bytes {f : Bytes × Bytes} :
    ∀ {node : Node}, f ∈ Node.files node → f.1.length + 8 ≤ node.bytes.length
  | .regular x data pad, hf => by
      obtain rfl := List.mem_singleton.mp hf
      simp only [Node.bytes, List.length_append, writeUint64_length]
      omega
  | .directory entries, hf => by
      have hle := length_le_entriesBytes hf
      simp only [Node.bytes, List.length_append]
      omega
  | .symlink _, hf => by cases hf

theorem length_le_entriesBytes {f : Bytes × Bytes} :
    ∀ {entries : List (Bytes × Node)}, f ∈ entriesFiles entries →
      f.1.length + 8 ≤ (entriesBytes entries).length
  | [], hf => by cases hf
  | (name, node) :: entries, hf => by
      simp only [entriesBytes, List.length_append]
      rcases List.mem_append.mp hf with hf | hf
      · have hle := length_le_bytes hf
        omega
      · have hle := length_le_entriesBytes hf
        omega

end

theorem reads_savedNar {useCaseHack : Bool} {nar : Bytes}
    (hnar : ∃ tree, parseDump useCaseHack memorySink stringSource nar = .ok (tree, []))
    (hsize : nar.length < 2 ^ 64) : Reads (savedNar useCaseHack) nar nar := by
  obtain ⟨node, hvalid, heq⟩ := parseDump_accepts_iff.mp hnar
  rw [List.append_nil] at heq
  obtain ⟨hshaped, -⟩ := valid_reading_iff.mp hvalid
  have halign : Alignable node := by
    intro f hf
    have hle := length_le_bytes hf
    rw [heq, archiveBytes, List.length_append] at hsize
    omega
  intro rest
  have hcopy : copyNAR useCaseHack stringSource (nar ++ rest, []) = .ok ((), rest, nar) :=
    copyNAR_eq_ok.mpr ⟨⟨node, valid_skipping_iff.mpr ⟨hshaped, halign⟩, by rw [heq]⟩, rfl⟩
  rw [copyNAR] at hcopy
  rw [savedNar, hcopy]
  rfl

theorem reads_readNum {n max : Nat} (hmax : n ≤ max) (hn : n < 2 ^ 64) :
    Reads (readNum stringSource max) (writeUint64 n) n :=
  (recognises_readNum max).reads ⟨rfl, hmax, hn⟩

theorem reads_readString {data : Bytes} (h : data.length < 2 ^ 64) :
    Reads (readString stringSource uint64Max) (writeString data) data :=
  (recognises_readString uint64Max).reads ⟨rfl, by unfold uint64Max; omega, h⟩

theorem reads_insertStorePaths {l : List StorePath} (hl : ∀ p ∈ l, Printable cfg p)
    (ss : StorePathSet) :
    Reads (insertStorePaths cfg ss l.length) (l.flatMap fun p => writeString (cfg.print p))
      (l.foldl SortedSet.insert ss) := by
  induction l generalizing ss with
  | nil => exact Reads.pure ss
  | cons p l ih =>
      obtain ⟨hp, hl⟩ := List.forall_mem_cons.mp hl
      exact (reads_readString hp.length).bind
        (Reads.fromExcept_bind (parseStorePath_print cfg.dirs hp.no_slash) (ih hl (ss.insert p)))

theorem reads_readStorePaths {refs : StorePathSet} (hsize : refs.elems.length < 2 ^ 64)
    (h : ∀ p ∈ refs, Printable cfg p) :
    Reads (readStorePaths cfg) (writeStorePaths cfg refs) refs := by
  have hreads := (reads_readNum (show _ ≤ uint64Max by unfold uint64Max; omega) hsize).bind
    (reads_insertStorePaths h .empty)
  rwa [SortedSet.foldl_insert_elems] at hreads

theorem reads_readDeriver {deriver : Option StorePath}
    (h : ∀ d, deriver = some d → Printable cfg d) :
    Reads (readDeriver cfg) (writeString (printDeriver cfg deriver)) deriver := by
  cases deriver with
  | none =>
      rw [← List.append_nil (writeString _)]
      refine (reads_readString (by exact Nat.two_pow_pos 64)).bind ?_
      exact Reads.pure none
  | some d =>
      have hd := h d rfl
      have hne : cfg.print d ≠ [] := by
        intro hnil
        have hlen := congrArg List.length hnil
        simp [StoreConfig.print, StoreDirConfig.print, printStorePath, str] at hlen
      rw [← List.append_nil (writeString _)]
      refine (reads_readString hd.length).bind ?_
      rw [if_neg hne]
      exact (Reads.fromExcept (parseStorePath_print cfg.dirs hd.no_slash)).bind_pure

theorem reads_skipSignature : Reads skipSignature (writeUint64 0) () := by
  rw [← List.append_nil (writeUint64 0)]
  exact (reads_readNum (Nat.zero_le _) (by decide)).bind (Reads.pure ())

/-- What `importPaths` makes of the record of a path. -/
def importedInfo (cfg : StoreConfig) (o : StoreObject) : ValidPathInfo where
  path := o.info.path
  storeDir := cfg.dirs.storeDir
  deriver := o.info.deriver
  narHash := cfg.dirs.hashString o.nar
  references := o.info.references
  narSize := UInt64.ofNat o.nar.length

theorem reads_readMetadata (ho : ValidObject cfg o) (hpath : Printable cfg o.info.path)
    (hrefs : ∀ r ∈ o.info.references, Printable cfg r) :
    Reads (readMetadata cfg o.nar) (writeMetadata cfg o.info.path o.info)
      (importedInfo cfg o) := by
  have hmagic : Reads readInt (writeUint64 exportMagic) exportMagic :=
    reads_readNum (by decide) (by decide)
  have hbytes : writeMetadata cfg o.info.path o.info =
      writeUint64 exportMagic ++ ([] ++ (writeString (cfg.print o.info.path) ++
        (writeStorePaths cfg o.info.references ++
          (writeString (printDeriver cfg o.info.deriver) ++ (writeUint64 0 ++ []))))) := by
    simp only [writeMetadata, List.append_assoc, List.nil_append, List.append_nil]
  rw [hbytes]
  refine hmagic.bind (Reads.bind (a := ()) ?_ ((reads_readString hpath.length).bind
    (Reads.fromExcept_bind (parseStorePath_print cfg.dirs hpath.no_slash)
      ((reads_readStorePaths ho.references hrefs).bind ((reads_readDeriver ho.deriver).bind
        (reads_skipSignature.bind (Reads.pure _)))))))
  exact Reads.pure ()

def received (cfg : StoreConfig) (o : StoreObject) : StoreObject :=
  ⟨importedInfo cfg o, o.nar⟩

theorem addToStore_eq_ok {checkSigs : Bool} (ho : ValidObject cfg o)
    (hsigs : checkSigs = true → s.pathInfoIsUntrusted (importedInfo cfg o) = false)
    (hnew : s.isValidPath o.info.path = false)
    (hrefs : ∀ r ∈ o.info.references, r = o.info.path ∨ s.isValidPath r = true) :
    s.addToStore cfg (importedInfo cfg o) o.nar checkSigs =
      .ok { s with objects := s.objects ++ [received cfg o] } := by
  obtain ⟨tree, htree⟩ := ho.nar
  have hsize : (importedInfo cfg o).narSize.toNat = o.nar.length :=
    UInt64.toNat_ofNat_of_lt' ho.narSize
  have hregister : s.registerValidPath cfg (received cfg o) =
      .ok { s with objects := s.objects ++ [received cfg o] } := by
    have hvalid : ∀ r ∈ o.info.references.elems, LocalStore.isValidPath
        { s with objects := s.objects ++ [received cfg o] } r = true := by
      intro r hr
      rw [LocalStore.isValidPath, LocalStore.find?, List.find?_isSome]
      rcases hrefs r hr with rfl | hr
      · exact ⟨received cfg o, List.mem_append_right _ List.mem_cons_self, decide_eq_true rfl⟩
      · rw [LocalStore.isValidPath, LocalStore.find?, List.find?_isSome] at hr
        obtain ⟨o', ho', hpath⟩ := hr
        exact ⟨o', List.mem_append_left _ ho', hpath⟩
    have hforM := (Nix.Lib.Results.forM_eq_ok (f := fun r => if LocalStore.isValidPath
      { s with objects := s.objects ++ [received cfg o] } r then .ok () else
        .error (cfg.invalidPath r))).mpr fun r hr => if_pos (hvalid r hr)
    rw [LocalStore.registerValidPath]
    refine (congrArg (fun x => bind x _) hforM).trans ?_
    by_cases hdrv : o.info.path.isDerivation = true
    · have hcheck := ho.derivation hdrv
      change (if o.info.path.isDerivation = true then
        bind (cfg.checkDerivation o.info.path o.nar) _ else _) = _
      rw [if_pos hdrv, hcheck]
      rfl
    · exact if_neg hdrv
  rw [LocalStore.addToStore, if_neg, if_neg, htree]
  · have hall : o.nar.take (o.nar.length - ([] : Bytes).length) = o.nar := List.take_length
    have hhash : (importedInfo cfg o).narHash = cfg.dirs.hashString o.nar := rfl
    dsimp only [bind, Except.bind]
    rw [hall, if_neg (not_not.mpr hhash.symm), if_neg (not_not.mpr hsize.symm)]
    exact hregister
  · change ¬s.isValidPath o.info.path = true
    rw [hnew]
    exact Bool.false_ne_true
  · rintro ⟨hcheck, huntrusted⟩
    rw [hsigs hcheck] at huntrusted
    cases huntrusted

def transferred (cfg : StoreConfig) (s : LocalStore) (order : List StorePath) : List StoreObject :=
  order.filterMap fun p => (s.find? p).map (received cfg)

theorem mem_transferred {order : List StorePath} {o' : StoreObject} :
    o' ∈ transferred cfg s order ↔ ∃ p ∈ order, ∃ o, s.find? p = some o ∧ received cfg o = o' := by
  simp [transferred, List.mem_filterMap, Option.map_eq_some_iff]

theorem find_transferred {untrusted : ValidPathInfo → Bool} {order : List StorePath}
    (hp : p ∈ order) (ho : s.find? p = some o) :
    LocalStore.find? ⟨untrusted, transferred cfg s order⟩ p = some (received cfg o) := by
  have hpath := LocalStore.path_of_find ho
  obtain ⟨o', ho'⟩ : ∃ o', LocalStore.find? ⟨untrusted, transferred cfg s order⟩ p = some o' := by
    rw [← Option.isSome_iff_exists, LocalStore.find?, List.find?_isSome]
    exact ⟨received cfg o, mem_transferred.mpr ⟨p, hp, o, ho, rfl⟩, decide_eq_true hpath⟩
  rw [ho']
  obtain ⟨q, -, o₂, ho₂, rfl⟩ := mem_transferred.mp (List.mem_of_find?_eq_some ho')
  have hreceived : (received cfg o₂).info.path = p := LocalStore.path_of_find ho'
  have hq : q = p := (LocalStore.path_of_find ho₂).symm.trans hreceived
  rw [hq, ho] at ho₂
  rw [Option.some.inj ho₂]

theorem isValidPath_transferred {untrusted : ValidPathInfo → Bool} {order : List StorePath} :
    LocalStore.isValidPath ⟨untrusted, transferred cfg s order⟩ p = true ↔
      p ∈ order ∧ s.isValidPath p = true := by
  constructor
  · intro h
    obtain ⟨o', ho'⟩ := Option.isSome_iff_exists.mp h
    obtain ⟨q, hq, o, ho, rfl⟩ := mem_transferred.mp (List.mem_of_find?_eq_some ho')
    have hreceived : (received cfg o).info.path = p := LocalStore.path_of_find ho'
    have hpath : q = p := (LocalStore.path_of_find ho).symm.trans hreceived
    rw [← hpath]
    refine ⟨hq, ?_⟩
    rw [LocalStore.isValidPath, ho]
    rfl
  · rintro ⟨hp, hvalid⟩
    obtain ⟨o, ho⟩ := Option.isSome_iff_exists.mp hvalid
    rw [LocalStore.isValidPath, find_transferred hp ho]
    rfl

theorem exists_of_transferred {order : List StorePath} {before after : List StoreObject}
    {o' : StoreObject} (h : transferred cfg s order = before ++ o' :: after) :
    ∃ pre p post o, order = pre ++ p :: post ∧ transferred cfg s pre = before ∧
      s.find? p = some o ∧ received cfg o = o' := by
  obtain ⟨pre, rest, rfl, hbefore, hrest⟩ := List.filterMap_eq_append_iff.mp h
  obtain ⟨skipped, p, post, rfl, hnone, hp, -⟩ := List.filterMap_eq_cons_iff.mp hrest
  obtain ⟨o, ho, rfl⟩ := Option.map_eq_some_iff.mp hp
  refine ⟨pre ++ skipped, p, post, o, (List.append_assoc _ _ _).symm, ?_, ho, rfl⟩
  have hskipped : transferred cfg s skipped = [] := List.filterMap_eq_nil_iff.mpr hnone
  rw [transferred, List.filterMap_append]
  change _ ++ transferred cfg s skipped = _
  rw [hskipped, hbefore, List.append_nil]

theorem reads_importPath {checkSigs : Bool} {dest dest' : LocalStore} {res : List StorePath}
    (ho : ValidObject cfg o) (hpath : Printable cfg o.info.path)
    (hrefs : ∀ r ∈ o.info.references, Printable cfg r)
    (hadd : dest.addToStore cfg (importedInfo cfg o) o.nar checkSigs = .ok dest') :
    Reads (importPath cfg checkSigs (dest, res))
      (writeUint64 1 ++ (o.nar ++ writeMetadata cfg o.info.path o.info))
      (.inl (dest', res ++ [o.info.path])) := by
  have hbytes : writeUint64 1 ++ (o.nar ++ writeMetadata cfg o.info.path o.info) =
      writeUint64 1 ++ ([] ++ (o.nar ++ (writeMetadata cfg o.info.path o.info ++ ([] ++ [])))) := by
    simp only [List.nil_append, List.append_nil]
  rw [hbytes]
  refine (reads_readNum (by decide) (by decide)).bind ?_
  rw [if_neg Nat.one_ne_zero]
  refine Reads.bind (a := ()) (Reads.pure ()) ?_
  exact (reads_savedNar ho.nar ho.narSize).bind ((reads_readMetadata ho hpath hrefs).bind
    ((Reads.fromExcept hadd).bind (Reads.pure _)))

theorem reads_importPath_end {checkSigs : Bool} {st : LocalStore × List StorePath} :
    Reads (importPath cfg checkSigs st) (writeUint64 0) (.inr st) := by
  rw [← List.append_nil (writeUint64 0)]
  refine (reads_readNum (by decide) (by decide)).bind ?_
  rw [if_pos rfl]
  exact Reads.pure _

theorem exportPath_eq_ok {record : Bytes} (h : exportPath cfg s p = .ok record)
    (ho : s.find? p = some o) : record = o.nar ++ writeMetadata cfg o.info.path o.info := by
  rw [exportPath, LocalStore.queryPathInfo, LocalStore.narFromPath, ho] at h
  dsimp only [bind, Except.bind] at h
  split at h
  next => cases h
  next =>
    cases h
    rw [LocalStore.path_of_find ho]

def Ordered (s : LocalStore) (order : List StorePath) : Prop :=
  ∀ before p after, order = before ++ p :: after → ∀ o, s.find? p = some o →
    ∀ r ∈ o.info.references, r = p ∨ r ∈ before

theorem import_records {checkSigs : Bool} {untrusted : ValidPathInfo → Bool}
    (hclosure : ValidClosure cfg s paths)
    (hsigs : ∀ o, checkSigs = true → untrusted (importedInfo cfg o) = false)
    {done todo : List StorePath} (hnodup : (done ++ todo).Nodup)
    (hpaths : ∀ p ∈ done ++ todo, p ∈ paths) (hordered : Ordered s (done ++ todo))
    {records : Bytes} (hexport : exportRecords cfg s todo = .ok records) {fuel : Nat}
    (hfuel : todo.length < fuel) (rest : Bytes) :
    loopFuel .diverges (importPath cfg checkSigs) fuel
      (⟨untrusted, transferred cfg s done⟩, done) (records ++ (writeUint64 0 ++ rest)) =
      .ok ((⟨untrusted, transferred cfg s (done ++ todo)⟩, done ++ todo), rest) := by
  induction todo generalizing done records fuel with
  | nil =>
      obtain ⟨fuel, rfl⟩ := Nat.exists_eq_add_of_lt hfuel
      cases hexport
      rw [List.nil_append, loopFuel_succ, reads_importPath_end rest, List.append_nil]
      rfl
  | cons p todo ih =>
      obtain ⟨fuel, rfl⟩ := Nat.exists_eq_add_one_of_ne_zero (Nat.ne_zero_of_lt hfuel)
      have hp : p ∈ paths := hpaths p (List.mem_append_right _ List.mem_cons_self)
      obtain ⟨o, ho, hvalid⟩ := hclosure.valid p hp
      obtain rfl := LocalStore.path_of_find ho
      have hrefs := hclosure.closed _ hp o ho
      rw [exportRecords] at hexport
      cases hrecord : exportPath cfg s o.info.path with
      | error e =>
          rw [hrecord] at hexport
          cases hexport
      | ok record =>
          cases hrecords : exportRecords cfg s todo with
          | error e =>
              rw [hrecord, hrecords] at hexport
              cases hexport
          | ok records' =>
              rw [hrecord, hrecords] at hexport
              cases hexport
              have hnew : LocalStore.isValidPath ⟨untrusted, transferred cfg s done⟩
                  o.info.path = false := by
                rw [← Bool.not_eq_true, isValidPath_transferred]
                rintro ⟨hdone, -⟩
                exact (List.nodup_append.mp hnodup).2.2 _ hdone _ List.mem_cons_self rfl
              have hold : ∀ r ∈ o.info.references, r = o.info.path ∨
                  LocalStore.isValidPath ⟨untrusted, transferred cfg s done⟩ r = true := by
                intro r hr
                refine (hordered done _ todo rfl o ho r hr).imp_right fun hdone => ?_
                obtain ⟨o', ho', -⟩ := hclosure.valid r (hrefs r hr)
                refine isValidPath_transferred.mpr ⟨hdone, ?_⟩
                rw [LocalStore.isValidPath, ho']
                rfl
              have hadd := addToStore_eq_ok hvalid (hsigs o) hnew hold
              have hreads : Reads (importPath cfg checkSigs
                  (⟨untrusted, transferred cfg s done⟩, done)) _ _ :=
                reads_importPath hvalid (hclosure.printable _ hp)
                  (fun r hr => hclosure.printable r (hrefs r hr)) hadd
              have hsplit : done ++ o.info.path :: todo = (done ++ [o.info.path]) ++ todo := by
                rw [List.append_assoc]
                rfl
              have hdone : transferred cfg s done ++ [received cfg o] =
                  transferred cfg s (done ++ [o.info.path]) := by
                simp [transferred, ho]
              rw [exportPath_eq_ok hrecord ho, List.append_assoc, loopFuel_succ, hreads, hsplit]
              change loopFuel _ _ fuel
                (LocalStore.mk untrusted (transferred cfg s done ++ [received cfg o]), _) _ = _
              rw [hdone]
              rw [hsplit] at hnodup hpaths hordered
              exact ih hnodup hpaths hordered hrecords (Nat.lt_of_succ_lt_succ hfuel)

theorem length_le_records {order : List StorePath} {records : Bytes}
    (h : exportRecords cfg s order = .ok records) : order.length ≤ records.length := by
  induction order generalizing records with
  | nil => exact Nat.zero_le _
  | cons p order ih =>
      rw [exportRecords] at h
      cases hrecord : exportPath cfg s p with
      | error e =>
          rw [hrecord] at h
          cases h
      | ok record =>
          cases hrecords : exportRecords cfg s order with
          | error e =>
              rw [hrecord, hrecords] at h
              cases h
          | ok records' =>
              rw [hrecord, hrecords] at h
              cases h
              have hle := ih hrecords
              rw [List.length_append, List.length_append, writeUint64_length, List.length_cons]
              omega

theorem ordered_of_topoSort {sorted : List StorePath} (hclosure : ValidClosure cfg s paths)
    (h : topoSort paths.elems (s.references cfg) = .ok (.inl sorted)) :
    sorted.reverse.Nodup ∧ (∀ p, p ∈ sorted.reverse ↔ p ∈ paths) ∧ Ordered s sorted.reverse := by
  obtain ⟨hnodup, hmem, hbefore⟩ := order_of_topoSort h
  refine ⟨List.nodup_reverse.mpr hnodup, fun p => List.mem_reverse.trans (hmem p), ?_⟩
  intro before p after heq o ho r hr
  have hsorted : sorted = after.reverse ++ p :: before.reverse := by
    rw [← List.reverse_reverse sorted, heq]
    simp
  have hp : p ∈ paths := (hmem p).mp (hsorted ▸ List.mem_append_right _ List.mem_cons_self)
  have hrpaths := hclosure.closed p hp o ho r hr
  have hrsorted := (hmem r).mpr hrpaths
  by_cases hself : r = p
  · exact .inl hself
  · right
    have hfollowed : r ∈ followed paths.elems (s.references cfg) p := by
      have hfollow : r ≠ p ∧ r ∈ paths.elems := ⟨hself, hrpaths⟩
      refine List.mem_filter.mpr ⟨?_, decide_eq_true hfollow⟩
      rw [LocalStore.references, LocalStore.queryPathInfo, ho]
      exact hr
    rw [hsorted, List.mem_append, List.mem_cons, List.mem_reverse, List.mem_reverse] at hrsorted
    rcases hrsorted with hafter | heq | hbefore'
    · -- the path would be sorted twice
      obtain ⟨l, l', hl⟩ := List.append_of_mem (List.mem_reverse.mpr hafter)
      have hpl := hbefore l r (l' ++ p :: before.reverse) (by rw [hsorted, hl]; simp) p hp hfollowed
      rw [hsorted] at hnodup
      have hpafter : p ∈ after.reverse := by
        rw [hl]
        exact List.mem_append_left _ hpl
      exact absurd rfl ((List.nodup_append.mp hnodup).2.2 p hpafter p List.mem_cons_self)
    · exact absurd heq hself
    · exact hbefore'

theorem topoSortPaths_eq (paths : StorePathSet) : s.topoSortPaths cfg paths =
    topoSort paths.elems (s.references cfg) >>= fun
      | .inl sorted => .ok sorted
      | .inr cycle => .error ⟨.buildError, ⟨"cycle detected in the references of '%s' from '%s'",
          [cfg.print cycle.path, cfg.print cycle.parent]⟩⟩ := rfl

theorem exportPaths_cases {stream : Bytes} (h : exportPaths cfg s paths = .ok stream) :
    ∃ sorted records, topoSort paths.elems (s.references cfg) = .ok (.inl sorted) ∧
      exportRecords cfg s sorted.reverse = .ok records ∧ stream = records ++ writeUint64 0 := by
  rw [exportPaths, topoSortPaths_eq] at h
  cases hsort : topoSort paths.elems (s.references cfg) with
  | error e =>
      rw [hsort] at h
      cases h
  | ok result =>
      cases result with
      | inr cycle =>
          rw [hsort] at h
          cases h
      | inl sorted =>
          rw [hsort] at h
          change (exportRecords cfg s sorted.reverse >>= fun records => _) = _ at h
          cases hrecords : exportRecords cfg s sorted.reverse with
          | error e =>
              rw [hrecords] at h
              cases h
          | ok records =>
              rw [hrecords] at h
              cases h
              exact ⟨sorted, records, rfl, hrecords, rfl⟩

/-- The hash of every path is the one of its NAR, or unknown. -/
def HashesOk (cfg : StoreConfig) (s : LocalStore) (paths : StorePathSet) : Prop :=
  ∀ p ∈ paths, ∀ o, s.find? p = some o → o.info.narHash = cfg.dirs.hashString o.nar ∨
    o.info.narHash = unknownHash o.info.narHash.algo

theorem exportRecords_ok (hclosure : ValidClosure cfg s paths) (hhashes : HashesOk cfg s paths)
    {order : List StorePath} (horder : ∀ p ∈ order, p ∈ paths) :
    ∃ records, exportRecords cfg s order = .ok records := by
  induction order with
  | nil => exact ⟨[], rfl⟩
  | cons p order ih =>
      obtain ⟨hp, horder⟩ := List.forall_mem_cons.mp horder
      obtain ⟨records, hrecords⟩ := ih horder
      obtain ⟨o, ho, -⟩ := hclosure.valid p hp
      have hrecord : exportPath cfg s p = .ok (o.nar ++ writeMetadata cfg p o.info) := by
        rw [exportPath, LocalStore.queryPathInfo, LocalStore.narFromPath, ho]
        refine if_neg ?_
        rintro ⟨hne, hknown⟩
        rcases hhashes p hp o ho with hhash | hhash
        · exact hne hhash.symm
        · exact hknown hhash
      refine ⟨writeUint64 1 ++ (o.nar ++ writeMetadata cfg p o.info) ++ records, ?_⟩
      rw [exportRecords, hrecord, hrecords]
      rfl

/-- A closure without cycles and with the hashes of its NARs is exported. What is exported is
imported into an empty store, unless it demands signatures. -/
theorem importPaths_exportPaths {checkSigs : Bool} {untrusted : ValidPathInfo → Bool}
    (hclosure : ValidClosure cfg s paths)
    (hsigs : checkSigs = true → ∀ info, info.sigs = .empty → untrusted info = false) :
    ((∀ p ∈ paths, ¬TransGen (Follows paths.elems (s.references cfg)) p p) →
      HashesOk cfg s paths → ∃ stream, exportPaths cfg s paths = .ok stream) ∧
    ∀ stream rest, exportPaths cfg s paths = .ok stream →
      ∃ dest imported, importPaths cfg checkSigs ⟨untrusted, []⟩ (stream ++ rest) =
        .ok ((dest, imported), rest) ∧ Transferred s dest paths imported := by
  constructor
  · intro hacyclic hhashes
    obtain ⟨sorted, hsorted⟩ := topoSort_of_acyclic hacyclic
    obtain ⟨-, hmem, -⟩ := ordered_of_topoSort hclosure hsorted
    obtain ⟨records, hrecords⟩ := exportRecords_ok hclosure hhashes fun p hp => (hmem p).mp hp
    refine ⟨records ++ writeUint64 0, ?_⟩
    rw [exportPaths, topoSortPaths_eq, hsorted]
    change (exportRecords cfg s sorted.reverse >>= fun records => _) = _
    rw [hrecords]
    rfl
  · intro stream rest hexport
    obtain ⟨sorted, records, hsorted, hrecords, rfl⟩ := exportPaths_cases hexport
    obtain ⟨hnodup, hmem, hordered⟩ := ordered_of_topoSort hclosure hsorted
    have hfuel : sorted.reverse.length < (records ++ writeUint64 0 ++ rest).length + 1 := by
      have hle := length_le_records hrecords
      rw [List.length_append, List.length_append]
      omega
    have hnil : ([] ++ sorted.reverse).Nodup := hnodup
    have hloop := import_records hclosure
      (fun o hcheck => hsigs hcheck (importedInfo cfg o) rfl) hnil (fun p hp => (hmem p).mp hp)
      hordered hrecords hfuel rest
    refine ⟨⟨untrusted, transferred cfg s sorted.reverse⟩, sorted.reverse, ?_, hnodup, hmem,
      fun p => ?_, fun p hp => ?_, fun before o' after heq r hr => ?_⟩
    · rw [importPaths, loop, ← List.append_assoc] at *
      exact hloop
    · rw [isValidPath_transferred, hmem]
      refine and_iff_left_of_imp fun hp => ?_
      obtain ⟨o, ho, -⟩ := hclosure.valid p hp
      rw [LocalStore.isValidPath, ho]
      rfl
    · obtain ⟨o, ho, -⟩ := hclosure.valid p hp
      exact ⟨o, received cfg o, ho, find_transferred ((hmem p).mpr hp) ho, rfl, rfl, rfl⟩
    · obtain ⟨pre, p, post, o, horder, hbefore, ho, rfl⟩ := exists_of_transferred heq
      have hp : p ∈ paths :=
        (hmem p).mp (horder ▸ List.mem_append_right _ List.mem_cons_self)
      have hpath : o.info.path = p := LocalStore.path_of_find ho
      change r = o.info.path ∨ _
      rw [hpath, ← hbefore]
      refine (hordered pre p post horder o ho r hr).imp_right fun hpre => ?_
      obtain ⟨q, hq, -⟩ := hclosure.valid r (hclosure.closed p hp o ho r hr)
      have hpathq : q.info.path = r := LocalStore.path_of_find hq
      exact ⟨received cfg q, mem_transferred.mpr ⟨r, hpre, q, hq, rfl⟩, hpathq⟩

/-- The NAR of a file that contains `hi`. -/
def sampleNar : Bytes :=
  archiveBytes (.regular false (str "hi") (writePadding 2))

def sampleDigest : Bytes :=
  [34, 82, 212, 183, 140, 148, 232, 199, 172, 228, 227, 49, 123, 120, 189, 254,
    100, 188, 142, 57, 112, 166, 78, 182, 210, 247, 194, 164, 67, 192, 195, 252]

def sampleConfig : StoreConfig where
  dirs := {
    storeDir := str "/nix/store"
    canonical := canonical_nixStore
    sha256 := fun s => if s = sampleNar then ⟨sampleDigest, rfl⟩ else ⟨List.replicate 32 0, length_zeros⟩ }
  checkDerivation _ _ := .ok ()

def samplePath : StorePath :=
  ⟨str "0123456789abcdfghijklmnpqrsvwxyz-hi", checkBaseName_ofList (by decide)⟩

def sampleObject : StoreObject where
  info := {
    path := samplePath
    storeDir := str "/nix/store"
    narHash := ⟨.sha256, sampleDigest, rfl⟩
    references := .ofList [samplePath]
    narSize := 120 }
  nar := sampleNar

def sampleStore : LocalStore :=
  ⟨fun _ => false, [sampleObject]⟩

def samplePaths : StorePathSet :=
  .ofList [samplePath]

theorem eq_of_mem_samplePaths (hp : p ∈ samplePaths) : p = samplePath := by
  rw [samplePaths, SortedSet.mem_ofList] at hp
  exact List.mem_singleton.mp hp

theorem validClosure_sample : ValidClosure sampleConfig sampleStore samplePaths := by
  have hnar : ∃ tree, parseDump false memorySink stringSource sampleNar = .ok (tree, []) :=
    ⟨_, rfl⟩
  have hfind : sampleStore.find? samplePath = some sampleObject := rfl
  refine ⟨fun p hp => ?_, fun p hp => ?_, fun p hp o ho r hr => ?_⟩
  · rw [eq_of_mem_samplePaths hp]
    exact ⟨by decide, by decide⟩
  · rw [eq_of_mem_samplePaths hp]
    refine ⟨sampleObject, hfind, fun d hd => ?_, by decide, by decide, hnar,
      fun _ => rfl⟩
    cases hd
  · rw [eq_of_mem_samplePaths hp, hfind] at ho
    cases ho
    exact hr

theorem importPaths_exportPaths_sample : ∃ stream dest imported,
    exportPaths sampleConfig sampleStore samplePaths = .ok stream ∧
      importPaths sampleConfig false ⟨fun _ => true, []⟩ (stream ++ str "rest") =
        .ok ((dest, imported), str "rest") ∧
      Transferred sampleStore dest samplePaths imported := by
  have hsigs : false = true → ∀ info : ValidPathInfo, info.sigs = .empty → true = false :=
    fun h => absurd h Bool.false_ne_true
  obtain ⟨hexports, himports⟩ := importPaths_exportPaths validClosure_sample hsigs
  have hfollowed : followed samplePaths.elems (sampleStore.references sampleConfig) samplePath =
      [] := by
    decide
  have hacyclic : ∀ p ∈ samplePaths, ¬TransGen
      (Follows samplePaths.elems (sampleStore.references sampleConfig)) p p := by
    intro p hp hcycle
    obtain ⟨q, hq, -⟩ := TransGen.head'_iff.mp hcycle
    rw [eq_of_mem_samplePaths hp, Follows, hfollowed] at hq
    cases hq
  have hhashes : HashesOk sampleConfig sampleStore samplePaths := by
    intro p hp o ho
    rw [eq_of_mem_samplePaths hp] at ho
    obtain rfl : sampleObject = o := Option.some.inj ho
    exact .inl (by decide)
  obtain ⟨stream, hstream⟩ := hexports hacyclic hhashes
  obtain ⟨dest, imported, himport, htransferred⟩ := himports stream (str "rest") hstream
  exact ⟨stream, dest, imported, hstream, himport, htransferred⟩

/-- An exported path has no signatures, so that a store that checks them refuses it. -/
theorem not_importPaths_exportPaths_checkSigs :
    ¬∀ cfg s paths checkSigs untrusted stream, ValidClosure cfg s paths →
      exportPaths cfg s paths = .ok stream →
      ∃ dest imported, importPaths cfg checkSigs ⟨untrusted, []⟩ stream =
        .ok ((dest, imported), []) ∧ Transferred s dest paths imported := by
  intro h
  have hexport : exportPaths sampleConfig sampleStore samplePaths =
      .ok (writeUint64 1 ++ (sampleNar ++ writeMetadata sampleConfig samplePath sampleObject.info) ++
        writeUint64 0) := by
    decide +kernel
  obtain ⟨dest, imported, himport, -⟩ :=
    h sampleConfig sampleStore samplePaths true (fun _ => true) _ validClosure_sample hexport
  have herror : (importPaths sampleConfig true ⟨fun _ => true, []⟩
      (writeUint64 1 ++ (sampleNar ++ writeMetadata sampleConfig samplePath sampleObject.info) ++
        writeUint64 0)).isOk = false := by
    decide +kernel
  rw [himport] at herror
  cases herror

end Nix.Store.ExportImport
