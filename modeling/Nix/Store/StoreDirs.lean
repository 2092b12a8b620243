import Mathlib.Data.List.GetD
import Nix.Store.ContentAddresses
import Nix.Util.CanonPathComponents

set_option linter.dupNamespace false

namespace Nix.Store.StoreDirs

open Util.Types Util.Hashes Util.BaseN Util.CanonPaths Util.CanonPathComponents Lib.Delimited
  Lib.Results Store.Path Store.PathInfo Store.ContentAddresses

/-- A component that `canonPathInner` copies. -/
structure KeptComponent (c : Bytes) : Prop where
  ne_nil : c ≠ []
  ne_dot : c ≠ str "."
  ne_dotdot : c ≠ str ".."
  no_slash : slash ∉ c

/-- `storeDir` is canonical, as `StoreDirSetting::parse` makes it. The hash function
is `hashString(HashAlgorithm::SHA256, ...)`. -/
structure StoreDirConfig where
  storeDir : Bytes
  canonical : ∃ cs, (∀ c ∈ cs, KeptComponent c) ∧ storeDir = render cs
  sha256 : Bytes → { digest : Bytes // digest.length = 32 }

def canonPath (path : Bytes) : Except Error Bytes :=
  if path = [] then .error ⟨.error, ⟨"cannot canonicalise an empty path", []⟩⟩
  else if path.head? ≠ some slash then .error ⟨.error, ⟨"not an absolute path: %s", [path]⟩⟩
  else .ok (canonPathInner path)

/-- `parent_path()` of a canonical path. -/
def parentPath (p : Bytes) : Bytes :=
  match rfind slash p with
  | some 0 => [slash]
  | some i => p.take i
  | none => []

/-- `filename()` of a canonical path. -/
def filename (p : Bytes) : Bytes :=
  match rfind slash p with
  | some i => p.drop (i + 1)
  | none => p

namespace StoreDirConfig

variable (cfg : StoreDirConfig)

def parseStorePath (path : Bytes) : Except Error StorePath :=
  if path = [] then .error ⟨.badStorePath, ⟨"empty path is not a valid store path", []⟩⟩
  else do
    let p ← canonPath path
    if parentPath p ≠ cfg.storeDir then
      throw ⟨.badStorePath, ⟨"path %s is not in the Nix store", [p]⟩⟩
    StorePath.ofBaseName (filename p)

def print (p : StorePath) : Bytes :=
  printStorePath cfg.storeDir p

/-- `compressHash`, on the bytes. -/
def compressHash (hash : Bytes) (newSize : Nat) : Bytes :=
  (List.range hash.length).foldl
    (fun h i => h.modify (i % newSize) (· ^^^ hash.getD i 0)) (List.replicate newSize 0)

def hashString (s : Bytes) : Hash :=
  ⟨.sha256, (cfg.sha256 s).1, (cfg.sha256 s).2⟩

/-- The constructor of `StorePath` from a hash and a name. -/
def ofHash (hash name : Bytes) : Except Error StorePath :=
  StorePath.ofBaseName (BaseNix32.encode hash ++ str "-" ++ name)

def makeStorePath (type hash name : Bytes) : Except Error StorePath :=
  let s := type ++ str ":" ++ hash ++ str ":" ++ cfg.storeDir ++ str ":" ++ name
  ofHash (compressHash (cfg.hashString s).bytes 20) name

/-- A content address with its references. -/
structure StoreReferences where
  others : StorePathSet := .empty
  self : Bool := false

def makeType (type : Bytes) (references : StoreReferences) : Bytes :=
  type ++ references.others.elems.flatMap (fun i => str ":" ++ cfg.print i) ++
    if references.self then str ":self" else []

variable (xp : ExperimentalFeatureSettings)

/-- `makeFixedOutputPath`, for a method that is not `Text`. -/
def makeFixedOutputPath (name : Bytes) (ca : ContentAddress) (references : StoreReferences) :
    Except Error StorePath :=
  if ca.method = .git ∧ ¬ (ca.hash.algo = .sha1 ∨ ca.hash.algo = .sha256) then
    .error ⟨.error,
      ⟨"Git file ingestion must use SHA-1 or SHA-256 hash, but instead using: %s",
        [printHashAlgo ca.hash.algo]⟩⟩
  else if ca.hash.algo = .sha256 ∧ ca.method = .nixArchive then
    cfg.makeStorePath (cfg.makeType (str "source") references) (ca.hash.toBase16 true) name
  else if references.others.elems ≠ [] ∨ references.self then
    .error ⟨.error,
      ⟨"fixed output derivation '%s' is not allowed to refer to other store paths.\nYou may need to use the 'unsafeDiscardReferences' derivation attribute, see the manual for more details.",
        [name]⟩⟩
  else do
    let pre ← renderPrefix xp ca.method
    let payload := str "fixed:out:" ++ pre ++ ca.hash.toBase16 true ++ str ":"
    cfg.makeStorePath (str "output:out") ((cfg.hashString payload).toBase16 true) name

/-- `makeFixedOutputPathFromCA(name, ContentAddressWithReferences::withoutRefs(ca))`. -/
def makeFixedOutputPathFromCA (name : Bytes) (ca : ContentAddress) : Except Error StorePath :=
  match ca.method with
  | .text =>
      if ca.hash.algo ≠ .sha256 then
        .error (.assertion "ti.hash.algo == HashAlgorithm::SHA256")
      else cfg.makeStorePath (cfg.makeType (str "text") {}) (ca.hash.toBase16 true) name
  | _ => cfg.makeFixedOutputPath xp name ca {}

end StoreDirConfig

theorem canonPathLoop_join {cs : List Bytes} (hcs : ∀ c ∈ cs, KeptComponent c) {fuel : Nat}
    (hfuel : (join slash cs).length < fuel) (result : Bytes) :
    canonPathLoop fuel (join slash cs) result = result ++ join slash cs := by
  induction cs generalizing fuel result with
  | nil =>
      obtain ⟨fuel, rfl⟩ := Nat.exists_eq_add_of_lt hfuel
      simp [canonPathLoop]
  | cons c cs ih =>
      obtain ⟨fuel, rfl⟩ : ∃ n, fuel = n + 1 := ⟨fuel - 1, by omega⟩
      obtain ⟨hc, hcs⟩ := List.forall_mem_cons.mp hcs
      simp only [join_cons, List.length_cons, List.length_append] at hfuel
      rw [join_cons, canonPathLoop_cons hc.ne_nil hc.no_slash (atBoundary_join cs),
        if_neg hc.ne_dot, if_neg hc.ne_dotdot, ih hcs (by omega), List.append_assoc,
        List.cons_append]

theorem canonPathInner_join {cs : List Bytes} (hcs : ∀ c ∈ cs, KeptComponent c) :
    canonPathInner (join slash cs) = render cs := by
  rw [canonPathInner, canonPathLoop_join hcs (Nat.lt_succ_self _), List.nil_append]
  rcases eq_or_ne cs [] with rfl | hne
  · rfl
  · rw [if_neg (join_ne_nil hne), render, if_neg hne]
    rfl

theorem canonPathInner_slash_join {cs : List Bytes} (hcs : ∀ c ∈ cs, KeptComponent c) :
    canonPathInner (slash :: join slash cs) = render cs := by
  rw [← canonPathInner_join hcs, canonPathInner, canonPathInner, canonPathLoop_slash,
    canonPathLoop_join hcs (by simp), canonPathLoop_join hcs (Nat.lt_succ_self _)]

theorem render_eq_join {cs : List Bytes} (h : cs ≠ []) : render cs = join slash cs := by
  rw [render, if_neg h]
  rfl

theorem canonPath_append (cfg : StoreDirConfig) {ds : List Bytes}
    (hds : ∀ d ∈ ds, KeptComponent d) :
    ∃ cs, cfg.storeDir = render cs ∧
      canonPath (cfg.storeDir ++ join slash ds) = .ok (render (cs ++ ds)) := by
  obtain ⟨cs, hcs, hdir⟩ := cfg.canonical
  refine ⟨cs, hdir, ?_⟩
  have hkept : ∀ c ∈ cs ++ ds, KeptComponent c := by
    intro c hc
    rcases List.mem_append.mp hc with hc | hc
    · exact hcs c hc
    · exact hds c hc
  rcases eq_or_ne cs [] with rfl | hcsne
  · have htext : cfg.storeDir ++ join slash ds = slash :: join slash ds := by
      rw [hdir]
      rfl
    have hhead : (slash :: join slash ds).head? = some slash := rfl
    rw [htext, canonPath, if_neg (List.cons_ne_nil _ _), if_neg (not_not.mpr hhead),
      canonPathInner_slash_join hds]
    rfl
  · have htext : cfg.storeDir ++ join slash ds = join slash (cs ++ ds) := by
      rw [hdir, render_eq_join hcsne, join_append]
    obtain ⟨c, cs', hcons⟩ := List.exists_cons_of_ne_nil hcsne
    have hhead : (join slash (cs ++ ds)).head? = some slash := by
      rw [hcons]
      rfl
    rw [htext, canonPath, if_neg (join_ne_nil (List.append_ne_nil_of_left_ne_nil hcsne _)),
      if_neg (not_not.mpr hhead), canonPathInner_join hkept]

theorem rfind_render (cs : List Bytes) {d : Bytes} (hd : slash ∉ d) :
    rfind slash (render (cs ++ [d])) = some (join slash cs).length ∧
      filename (render (cs ++ [d])) = d := by
  have hrender : render (cs ++ [d]) = join slash cs ++ slash :: d := by
    rw [render_eq_join (List.append_ne_nil_of_right_ne_nil _ (List.cons_ne_nil _ _)), join_append,
      join_cons, join_nil, List.append_nil]
  have hfind : rfind slash (render (cs ++ [d])) = some (join slash cs).length := by
    rw [hrender, rfind_append_cons _ hd]
  refine ⟨hfind, ?_⟩
  rw [filename, hfind, hrender]
  dsimp only
  rw [List.drop_append]
  simp

theorem length_baseName (p : StorePath) : hashLen < p.baseName.length :=
  (checkBaseName_eq_ok.mp p.valid).1

theorem keptComponent_baseName {p : StorePath} (h : slash ∉ p.baseName) :
    KeptComponent p.baseName := by
  have hne : ∀ c : Bytes, c.length < hashLen → p.baseName ≠ c := by
    rintro c hc rfl
    exact Nat.lt_asymm hc (length_baseName p)
  exact ⟨hne _ (by decide), hne _ (by decide), hne _ (by decide), h⟩

theorem parentPath_render (cs : List Bytes) {d : Bytes} (hd : slash ∉ d) :
    parentPath (render (cs ++ [d])) = render cs := by
  rw [parentPath, (rfind_render cs hd).1]
  rcases eq_or_ne cs [] with rfl | hne
  · rfl
  · have hpos : 0 < (join slash cs).length := List.length_pos_of_ne_nil (join_ne_nil hne)
    obtain ⟨n, hn⟩ : ∃ n, (join slash cs).length = n + 1 :=
      ⟨(join slash cs).length - 1, by omega⟩
    simp only [hn]
    rw [← hn, render_eq_join (List.append_ne_nil_of_left_ne_nil hne _), join_append,
      List.take_left, render_eq_join hne]

theorem parseStorePath_print (cfg : StoreDirConfig) {p : StorePath} (h : slash ∉ p.baseName) :
    cfg.parseStorePath (cfg.print p) = .ok p := by
  have hkept : ∀ d ∈ [p.baseName], KeptComponent d := by
    intro d hd
    rw [List.mem_singleton.mp hd]
    exact keptComponent_baseName h
  obtain ⟨cs, hdir, hcanon⟩ := canonPath_append cfg hkept
  have hprint : cfg.print p = cfg.storeDir ++ join slash [p.baseName] := by
    rw [StoreDirConfig.print, printStorePath, List.append_assoc, join_cons, join_nil,
      List.append_nil]
    rfl
  have hname := (rfind_render cs h).2
  have hparent : parentPath (render (cs ++ [p.baseName])) = cfg.storeDir := by
    rw [parentPath_render cs h, hdir]
  have hempty : cfg.storeDir ++ join slash [p.baseName] ≠ [] :=
    List.append_ne_nil_of_right_ne_nil _ (join_ne_nil (List.cons_ne_nil _ _))
  rw [hprint, StoreDirConfig.parseStorePath, if_neg hempty, hcanon]
  simp only [bind, Except.bind, hparent, hname, ne_eq, not_true, if_false,
    StorePath.ofBaseName_baseName]

theorem canonical_nixStore :
    ∃ cs, (∀ c ∈ cs, KeptComponent c) ∧ str "/nix/store" = render cs := by
  refine ⟨[str "nix", str "store"], ?_, rfl⟩
  intro c hc
  rcases List.mem_pair.mp hc with rfl | rfl
  · exact ⟨by decide, by decide, by decide, by decide⟩
  · exact ⟨by decide, by decide, by decide, by decide⟩

/-- The character between the hash and the name, which the constructor does not check. -/
def separator (p : StorePath) : UInt8 :=
  p.baseName.getD hashLen 45

theorem baseName_ne_nil (p : StorePath) : p.baseName ≠ [] :=
  List.ne_nil_of_length_pos (Nat.zero_lt_of_lt (length_baseName p))

theorem not_isNameChar : ∀ c ∈ [10, 32, 33, 44, slash, 58, 94], isNameChar c = false := by
  simp only [isNameChar, show str "+-._?=" = _ from str_ofList _]
  exact forall_mem_of_all (by decide)

theorem isNameChar_of_isHashChar {c : UInt8} (h : isHashChar c = true) : isNameChar c = true := by
  rw [isHashChar, Bool.and_eq_true, Bool.or_eq_true] at h
  rw [isNameChar, Bool.or_eq_true, Bool.or_eq_true, Bool.or_eq_true]
  rcases h.2 with hdigit | hletter
  · exact .inl (.inl (.inl hdigit))
  · exact .inl (.inl (.inr hletter))

theorem isNameChar_of_checkName {name : Bytes} (h : checkName name = .ok ()) {c : UInt8}
    (hc : c ∈ name) : isNameChar c = true := by
  have hfind : name.find? (!isNameChar ·) = none := by
    unfold checkName badName at h
    split_ifs at h
    split at h
    next => cases h
    next hfind => exact hfind
  have hnot := List.find?_eq_none.mp hfind c hc
  rwa [Bool.not_eq_true, Bool.not_eq_false'] at hnot

theorem baseName_eq_append (p : StorePath) :
    p.baseName = p.hashPart ++ separator p :: p.name := by
  have hlen := length_baseName p
  rw [StorePath.hashPart, StorePath.name, separator, List.getD_eq_getElem _ _ hlen,
    ← List.drop_eq_getElem_cons hlen, List.take_append_drop]

theorem length_hashPart (p : StorePath) : p.hashPart.length = hashLen := by
  rw [StorePath.hashPart, List.length_take, Nat.min_eq_left (Nat.le_of_lt (length_baseName p))]

theorem isHashChar_of_mem_hashPart {p : StorePath} {c : UInt8} (hc : c ∈ p.hashPart) :
    isHashChar c = true := by
  have hfind := (checkBaseName_eq_ok.mp p.valid).2.1
  have hnot := List.find?_eq_none.mp hfind c hc
  rwa [Bool.not_eq_true, Bool.not_eq_false'] at hnot

theorem isNameChar_of_mem_hashPart {p : StorePath} {c : UInt8} (hc : c ∈ p.hashPart) :
    isNameChar c = true :=
  isNameChar_of_isHashChar (isHashChar_of_mem_hashPart hc)

theorem isNameChar_of_mem_name {p : StorePath} {c : UInt8} (hc : c ∈ p.name) :
    isNameChar c = true :=
  isNameChar_of_checkName (checkBaseName_eq_ok.mp p.valid).2.2 hc

theorem mem_baseName {p : StorePath} {c : UInt8} (hc : c ∈ p.baseName) :
    c = separator p ∨ isNameChar c = true := by
  rw [baseName_eq_append, List.mem_append, List.mem_cons] at hc
  rcases hc with hhash | hsep | hname
  · exact .inr (isNameChar_of_mem_hashPart hhash)
  · exact .inl hsep
  · exact .inr (isNameChar_of_mem_name hname)

theorem notMem_baseName {p : StorePath} {c : UInt8} (hc : isNameChar c = false)
    (hsep : separator p ≠ c) : c ∉ p.baseName := by
  intro hin
  rcases mem_baseName hin with rfl | hname
  · exact hsep rfl
  · rw [hc] at hname
    cases hname

theorem slash_notMem {s : Bytes} (h : ∀ c ∈ s, isNameChar c = true) : slash ∉ s := by
  intro hin
  have hnot : isNameChar slash = false := not_isNameChar _ (by simp)
  rw [h slash hin] at hnot
  cases hnot

theorem keptComponent_hashPart (p : StorePath) : KeptComponent p.hashPart := by
  have hne : ∀ c : Bytes, c.length < hashLen → p.hashPart ≠ c := by
    rintro c hc rfl
    rw [length_hashPart p] at hc
    exact Nat.lt_irrefl _ hc
  exact ⟨hne _ (by decide), hne _ (by decide), hne _ (by decide),
    slash_notMem fun _ => isNameChar_of_mem_hashPart⟩

theorem keptComponent_name (p : StorePath) : KeptComponent p.name := by
  have hname := (checkBaseName_eq_ok.mp p.valid).2.2
  have hne : ∀ c : Bytes, checkName c ≠ .ok () → p.name ≠ c := by
    rintro c hc rfl
    exact hc hname
  exact ⟨hne _ (by decide), hne _ (by decide), hne _ (by decide),
    slash_notMem fun _ => isNameChar_of_mem_name⟩

theorem eq_nil_of_parseStorePath (cfg : StoreDirConfig) {ds : List Bytes} {d : Bytes}
    {p : StorePath}
    (hds : ∀ c ∈ ds ++ [d], KeptComponent c)
    (h : cfg.parseStorePath (cfg.storeDir ++ join slash (ds ++ [d])) = .ok p) :
    ds = [] ∧ StorePath.ofBaseName d = .ok p := by
  obtain ⟨cs, hdir, hcanon⟩ := canonPath_append cfg hds
  have hd : slash ∉ d := (hds d (List.mem_append_right _ (List.mem_singleton_self d))).no_slash
  have hne : cfg.storeDir ++ join slash (ds ++ [d]) ≠ [] :=
    List.append_ne_nil_of_right_ne_nil _
      (join_ne_nil (List.append_ne_nil_of_right_ne_nil _ (List.cons_ne_nil _ _)))
  rw [StoreDirConfig.parseStorePath, if_neg hne, hcanon, ← List.append_assoc] at h
  obtain ⟨c, hc, h⟩ := bind_eq_ok.mp h
  cases hc
  split at h
  next => cases h
  next hparent =>
    rw [not_not, parentPath_render _ hd, hdir] at hparent
    refine ⟨?_, by rwa [(rfind_render _ hd).2] at h⟩
    by_contra hdsne
    -- otherwise the parent has more components than the store directory
    obtain ⟨e, es, rfl⟩ := List.exists_cons_of_ne_nil hdsne
    have he := List.length_pos_of_ne_nil (hds e (by simp)).ne_nil
    have hlength := congrArg List.length hparent
    rw [render_eq_join (List.append_ne_nil_of_right_ne_nil _ hdsne), join_append, join_cons,
      List.length_append, List.length_cons, List.length_append] at hlength
    rcases eq_or_ne cs [] with rfl | hcs
    · rw [render, if_pos rfl, join_nil, List.length_nil, List.length_singleton] at hlength
      omega
    · rw [render_eq_join hcs] at hlength
      omega

theorem parseStorePath_print_iff (cfg : StoreDirConfig) (p : StorePath) :
    cfg.parseStorePath (cfg.print p) = .ok p ↔ separator p ≠ slash := by
  constructor
  · intro h hslash
    have hprint : cfg.print p = cfg.storeDir ++ join slash ([p.hashPart] ++ [p.name]) := by
      rw [StoreDirConfig.print, printStorePath, baseName_eq_append, hslash, List.append_assoc,
        List.singleton_append, join_cons, join_cons, join_nil, List.append_nil]
      rfl
    have hkept : ∀ c ∈ [p.hashPart] ++ [p.name], KeptComponent c :=
      List.forall_mem_cons.mpr ⟨keptComponent_hashPart p,
        List.forall_mem_singleton.mpr (keptComponent_name p)⟩
    rw [hprint] at h
    exact List.cons_ne_nil _ _ (eq_nil_of_parseStorePath cfg hkept h).1
  · exact fun hslash =>
      parseStorePath_print cfg (notMem_baseName (not_isNameChar _ (by simp)) hslash)

end Nix.Store.StoreDirs
