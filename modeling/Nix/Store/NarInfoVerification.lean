import Nix.Store.NarInfos
import Nix.Store.PathInfoSignatures

/-!
Which `.narinfo` files can be verified without a failed assertion.
-/

set_option linter.dupNamespace false

namespace Nix.Store.NarInfos

open Util.Types Util.Hashes Util.Strings Lib.Delimited Lib.Results Lib.SortedList Store.Path
  Store.PathInfo Store.StoreDirs

def NarInfo.toValidPathInfo (info : NarInfo) : ValidPathInfo where
  path := info.path
  storeDir := info.storeDir
  deriver := info.deriver
  narHash := info.narHash
  references := info.references
  registrationTime := info.registrationTime.toInt
  narSize := info.narSize
  ultimate := info.ultimate
  sigs := info.sigs
  ca := info.ca

/-- The fields of a text, up to a line that is none. -/
def fields (s : Bytes) : List (Bytes × Bytes) :=
  if s = [] then []
  else
    match _h : splitLine (corrupt [] 0) s with
    | .error _ => []
    | .ok (name, value, rest) => (name, value) :: fields rest
termination_by s.length
decreasing_by exact length_of_splitLine _h

/-- The value of a field, where a later line counts. -/
def lastField (name : String) (fs : List (Bytes × Bytes)) : Option Bytes :=
  fs.reverse.lookup (str name)

/-- A content address with the prefix of the method `Text` names SHA-256, and the path is not
among the references. -/
def TextAllowed (cfg : StoreDirConfig) (fs : List (Bytes × Bytes)) : Prop :=
  ∀ ca, (str "CA", ca) ∈ fs → str "text:" <+: ca →
    str "text:sha256:" <+: ca ∧
    ∀ pathS path refs, lastField "StorePath" fs = some pathS →
      cfg.parseStorePath pathS = .ok path → (str "References", refs) ∈ fs →
      path.baseName ∉ tokenizeString 32 refs

section

variable {cfg : StoreDirConfig} {xp : ExperimentalFeatureSettings}

theorem splitLine_eq_ok {corrupt corrupt' : String → Error} {s : Bytes} {x : Bytes × Bytes × Bytes}
    (h : splitLine corrupt s = .ok x) : splitLine corrupt' s = .ok x := by
  unfold splitLine at h ⊢
  split at h
  next => cases h
  next =>
    split at h
    next => cases h
    next => exact h

theorem fields_of_splitLine {corrupt : String → Error} {s name value rest : Bytes} (hne : s ≠ [])
    (h : splitLine corrupt s = .ok (name, value, rest)) : fields s = (name, value) :: fields rest := by
  rw [fields, if_neg hne]
  split
  next e he => cases (splitLine_eq_ok h).symm.trans he
  next _ _ _ hsplit =>
    cases (splitLine_eq_ok h).symm.trans hsplit
    rfl

/-- What reading the fields makes of the path, the references and the content address. -/
structure FieldsRead (cfg : StoreDirConfig) (xp : ExperimentalFeatureSettings)
    (fs : List (Bytes × Bytes)) (p p' : Parsing) : Prop where
  path : (lastField "StorePath" fs = none ∧ p'.info.path = p.info.path ∧ p'.havePath = p.havePath) ∨
    ∃ pathS, lastField "StorePath" fs = some pathS ∧ cfg.parseStorePath pathS = .ok p'.info.path
  mem_references : ∀ q, q ∈ p'.info.references ↔ q ∈ p.info.references ∨
    ∃ refs, (str "References", refs) ∈ fs ∧ q.baseName ∈ tokenizeString 32 refs
  ca : ∀ ca, p'.info.ca = some ca ↔ p.info.ca = some ca ∨
    ∃ caS, (str "CA", caS) ∈ fs ∧ ContentAddresses.parseOpt xp caS = .ok (some ca)
  parses_ca : ∀ caS, (str "CA", caS) ∈ fs → ∃ ca, ContentAddresses.parseOpt xp caS = .ok ca

theorem FieldsRead.nil (p : Parsing) : FieldsRead cfg xp [] p p where
  path := .inl ⟨rfl, rfl, rfl⟩
  mem_references _ := by simp
  ca _ := by simp
  parses_ca _ := nofun

theorem lastField_cons (name : String) (f : Bytes × Bytes) (fs : List (Bytes × Bytes)) :
    lastField name (f :: fs) = (lastField name fs).or (lastField name [f]) := by
  rw [lastField, List.reverse_cons, List.lookup_append]
  rfl

theorem FieldsRead.cons {f : Bytes × Bytes} {fs : List (Bytes × Bytes)} {p p' p'' : Parsing}
    (hf : FieldsRead cfg xp [f] p p') (hfs : FieldsRead cfg xp fs p' p'') :
    FieldsRead cfg xp (f :: fs) p p'' where
  path := by
    rw [lastField_cons]
    rcases hfs.path with ⟨hnone, hpath, hhave⟩ | ⟨pathS, hsome, hpath⟩
    · rw [hnone, hpath, hhave]
      exact hf.path
    · rw [hsome]
      exact .inr ⟨pathS, rfl, hpath⟩
  mem_references q := by
    rw [hfs.mem_references, hf.mem_references]
    simp only [List.mem_cons, List.not_mem_nil, or_false, or_and_right, exists_or, or_assoc]
  ca ca := by
    rw [hfs.ca, hf.ca]
    simp only [List.mem_cons, List.not_mem_nil, or_false, or_and_right, exists_or, or_assoc]
  parses_ca caS hca := by
    rcases List.mem_cons.mp hca with rfl | hca
    · exact hf.parses_ca caS List.mem_cons_self
    · exact hfs.parses_ca caS hca

theorem lastField_singleton (name : String) (name' value : Bytes) :
    lastField name [(name', value)] = if str name = name' then some value else none := by
  rw [lastField, List.reverse_singleton, List.lookup_cons, List.lookup_nil]
  split
  next heq => rw [if_pos (eq_of_beq heq)]
  next hne => rw [if_neg fun heq => Bool.false_ne_true (hne.symm.trans (beq_iff_eq.mpr heq))]

theorem FieldsRead.of_other {name value : Bytes} {p p' : Parsing}
    (hname : name ∉ [str "StorePath", str "References", str "CA"])
    (hpath : p'.info.path = p.info.path) (hhave : p'.havePath = p.havePath)
    (hreferences : p'.info.references = p.info.references) (hca : p'.info.ca = p.info.ca) :
    FieldsRead cfg xp [(name, value)] p p' := by
  simp only [List.mem_cons, List.not_mem_nil, or_false, not_or] at hname
  refine ⟨.inl ⟨?_, hpath, hhave⟩, fun q => ?_, fun ca => ?_, fun caS hin => ?_⟩
  · rw [lastField_singleton, if_neg (Ne.symm hname.1)]
  · rw [hreferences]
    simp [Ne.symm hname.2.1]
  · rw [hca]
    simp [Ne.symm hname.2.2]
  · exact absurd (congrArg Prod.fst (List.mem_singleton.mp hin)).symm hname.2.2

theorem FieldsRead.of_set {α : Type} {name value : Bytes} {p p' : Parsing} {x : Except Error α}
    {set : α → Parsing} (h : (do let a ← x; return set a) = .ok p')
    (hname : name ∉ [str "StorePath", str "References", str "CA"])
    (hset : ∀ a, (set a).info.path = p.info.path ∧ (set a).havePath = p.havePath ∧
      (set a).info.references = p.info.references ∧ (set a).info.ca = p.info.ca) :
    FieldsRead cfg xp [(name, value)] p p' := by
  obtain ⟨a, -, h⟩ := bind_eq_ok.mp h
  obtain rfl := pure_eq_ok.mp h
  obtain ⟨hpath, hhave, hreferences, hca⟩ := hset a
  exact .of_other hname hpath hhave hreferences hca

theorem mem_baseNames_of_mapM {refs : List Bytes} {paths : List StorePath}
    (h : refs.mapM StorePath.ofBaseName = .ok paths) (q : StorePath) :
    q ∈ paths ↔ q.baseName ∈ refs := by
  rw [mem_of_mapM h]
  constructor
  · rintro ⟨ref, href, hof⟩
    rw [StorePath.baseName_of_ofBaseName hof]
    exact href
  · exact fun hq => ⟨q.baseName, hq, StorePath.ofBaseName_baseName q⟩

theorem fieldsRead_references {corrupt : String → Error} {value : Bytes} {p p' : Parsing}
    (h : parseField cfg xp corrupt (str "References") value p = .ok p') :
    FieldsRead cfg xp [(str "References", value)] p p' := by
  have hread : parseField cfg xp corrupt (str "References") value p = (do
      if p.info.references.elems ≠ [] then throw (corrupt "extra References")
      let refs ← (tokenizeString 32 value).mapM StorePath.ofBaseName
      return { p with info := { p.info with
        references := refs.foldl .insert p.info.references } }) := rfl
  rw [hread] at h
  split at h
  next => cases h
  next =>
    obtain ⟨refs, hrefs, h⟩ := bind_eq_ok.mp h
    obtain rfl := pure_eq_ok.mp h
    have hne : str "CA" ≠ str "References" := by decide
    refine ⟨.inl ⟨rfl, rfl, rfl⟩, fun q => ?_, fun ca => ?_, fun caS hin => ?_⟩
    · rw [SortedSet.mem_foldl_insert, mem_baseNames_of_mapM hrefs]
      simp
    · simp [hne]
    · exact absurd (congrArg Prod.fst (List.mem_singleton.mp hin)) hne

theorem fieldsRead_ca {corrupt : String → Error} {value : Bytes} {p p' : Parsing}
    (h : parseField cfg xp corrupt (str "CA") value p = .ok p') :
    FieldsRead cfg xp [(str "CA", value)] p p' := by
  have hread : parseField cfg xp corrupt (str "CA") value p = (do
      if p.info.ca ≠ none then throw (corrupt "extra CA")
      let ca ← ContentAddresses.parseOpt xp value
      return { p with info := { p.info with ca } }) := rfl
  rw [hread] at h
  split at h
  next => cases h
  next hnone =>
    obtain ⟨ca?, hparse, h⟩ := bind_eq_ok.mp h
    obtain rfl := pure_eq_ok.mp h
    refine ⟨.inl ⟨rfl, rfl, rfl⟩, fun q => ?_, fun ca => ?_, fun caS hin => ?_⟩
    · simp [show str "References" ≠ str "CA" by decide]
    · rw [not_not.mp hnone]
      simp [hparse]
    · obtain rfl : caS = value := congrArg Prod.snd (List.mem_singleton.mp hin)
      exact ⟨_, hparse⟩

theorem fieldsRead_of_parseField {corrupt : String → Error} {name value : Bytes} {p p' : Parsing}
    (h : parseField cfg xp corrupt name value p = .ok p') :
    FieldsRead cfg xp [(name, value)] p p' := by
  by_cases hpath : name = str "StorePath"
  · subst hpath
    obtain ⟨path, hparse, h⟩ := bind_eq_ok.mp h
    obtain rfl := pure_eq_ok.mp h
    have hne : str "CA" ≠ str "StorePath" := by decide
    refine ⟨.inr ⟨value, ?_, hparse⟩, fun q => ?_, fun ca => ?_, fun caS hin => ?_⟩
    · rw [lastField_singleton, if_pos rfl]
    · simp [show str "References" ≠ str "StorePath" by decide]
    · simp [hne]
    · exact absurd (congrArg Prod.fst (List.mem_singleton.mp hin)) hne
  by_cases hreferences : name = str "References"
  · subst hreferences
    exact fieldsRead_references h
  by_cases hca : name = str "CA"
  · subst hca
    exact fieldsRead_ca h
  have hname : name ∉ [str "StorePath", str "References", str "CA"] := by
    simp [hpath, hreferences, hca]
  rw [parseField, if_neg hpath] at h
  by_cases hurl : name = str "URL"
  · rw [if_pos hurl] at h
    cases h
    exact .of_other hname rfl rfl rfl rfl
  rw [if_neg hurl] at h
  by_cases hcompression : name = str "Compression"
  · rw [if_pos hcompression] at h
    exact .of_set h hname fun _ => ⟨rfl, rfl, rfl, rfl⟩
  rw [if_neg hcompression] at h
  by_cases hfileHash : name = str "FileHash"
  · rw [if_pos hfileHash] at h
    exact .of_set h hname fun _ => ⟨rfl, rfl, rfl, rfl⟩
  rw [if_neg hfileHash] at h
  by_cases hfileSize : name = str "FileSize"
  · rw [if_pos hfileSize] at h
    exact .of_set h hname fun _ => ⟨rfl, rfl, rfl, rfl⟩
  rw [if_neg hfileSize] at h
  by_cases hnarHash : name = str "NarHash"
  · rw [if_pos hnarHash] at h
    exact .of_set h hname fun _ => ⟨rfl, rfl, rfl, rfl⟩
  rw [if_neg hnarHash] at h
  by_cases hnarSize : name = str "NarSize"
  · rw [if_pos hnarSize] at h
    exact .of_set h hname fun _ => ⟨rfl, rfl, rfl, rfl⟩
  rw [if_neg hnarSize, if_neg hreferences] at h
  by_cases hderiver : name = str "Deriver"
  · rw [if_pos hderiver] at h
    split at h
    next =>
      cases h
      exact .of_other hname rfl rfl rfl rfl
    next => exact .of_set h hname fun _ => ⟨rfl, rfl, rfl, rfl⟩
  rw [if_neg hderiver] at h
  by_cases hsig : name = str "Sig"
  · rw [if_pos hsig] at h
    exact .of_set h hname fun _ => ⟨rfl, rfl, rfl, rfl⟩
  rw [if_neg hsig, if_neg hca] at h
  cases h
  exact .of_other hname rfl rfl rfl rfl

theorem fieldsRead_of_parseLoop {whence : Bytes} {line : Nat} {s : Bytes} {p p' : Parsing}
    (h : parseLoop cfg xp whence line s p = .ok p') : FieldsRead cfg xp (fields s) p p' := by
  fun_induction parseLoop cfg xp whence line s p with
  | case1 =>
    cases h
    rw [fields, if_pos rfl]
    exact .nil _
  | case2 => cases h
  | case3 => cases h
  | case4 line s p hne name value rest hsplit p₁ hfield ih =>
    rw [fields_of_splitLine hne hsplit]
    exact (fieldsRead_of_parseField hfield).cons (ih h)

theorem parseOpt_eq_some {caS : Bytes} {ca : ContentAddress} :
    ContentAddresses.parseOpt xp caS = .ok (some ca) ↔
      caS ≠ [] ∧ ContentAddresses.parse xp caS = .ok ca := by
  unfold ContentAddresses.parseOpt
  split
  next h => exact iff_of_false nofun fun hne => hne.1 h
  next h =>
    constructor
    · intro hmap
      obtain ⟨ca', hparse, heq⟩ := map_eq_ok.mp hmap
      cases heq
      exact ⟨h, hparse⟩
    · exact fun hparse => map_eq_ok.mpr ⟨ca, hparse.2, rfl⟩

theorem exists_of_parse {s whence : Bytes} {info : NarInfo}
    (h : NarInfo.parse cfg xp s whence = .ok info) :
    ∃ p p' : Parsing, FieldsRead cfg xp (fields s) p p' ∧ p.havePath = false ∧
      p.info.references = .empty ∧ p.info.ca = none ∧ p'.havePath = true ∧
      info.path = p'.info.path ∧ info.references = p'.info.references ∧ info.ca = p'.info.ca := by
  obtain ⟨p, hloop, h⟩ := bind_eq_ok.mp h
  dsimp only at h
  split_ifs at h with hpath
  cases pure_eq_ok.mp h
  exact ⟨_, p, fieldsRead_of_parseLoop hloop, rfl, rfl, rfl, by simpa using hpath, rfl, rfl, rfl⟩

theorem soundText_iff {s whence : Bytes} {info : NarInfo}
    (h : NarInfo.parse cfg xp s whence = .ok info) :
    info.toValidPathInfo.SoundText ↔ TextAllowed cfg (fields s) := by
  obtain ⟨p, p', hread, hhave, hempty, hnone, hhave', hpath, hreferences, hca⟩ := exists_of_parse h
  obtain ⟨pathS, hlast, hparsePath⟩ : ∃ pathS, lastField "StorePath" (fields s) = some pathS ∧
      cfg.parseStorePath pathS = .ok info.path := by
    rw [hpath]
    refine hread.path.resolve_left fun hnot => ?_
    rw [hnot.2.2, hhave] at hhave'
    cases hhave'
  have hmem : ∀ q, q ∈ info.references ↔ ∃ refs, (str "References", refs) ∈ fields s ∧
      q.baseName ∈ tokenizeString 32 refs := by
    intro q
    rw [hreferences, hread.mem_references, hempty]
    simp
  have hcaField : ∀ ca, info.ca = some ca ↔ ∃ caS, (str "CA", caS) ∈ fields s ∧
      ContentAddresses.parseOpt xp caS = .ok (some ca) := by
    intro ca
    rw [hca, hread.ca, hnone]
    simp
  constructor
  · intro hsound caS hin htext
    have hne : caS ≠ [] := by
      rintro rfl
      exact absurd (List.prefix_nil.mp htext) (by decide)
    obtain ⟨ca, hparse⟩ : ∃ ca, ContentAddresses.parse xp caS = .ok ca := by
      obtain ⟨ca?, hparse⟩ := hread.parses_ca caS hin
      rw [ContentAddresses.parseOpt, if_neg hne] at hparse
      obtain ⟨ca, hca, -⟩ := map_eq_ok.mp hparse
      exact ⟨ca, hca⟩
    have hmethod := (method_of_parse hparse).mpr htext
    obtain ⟨halgo, hself⟩ :=
      hsound ca ((hcaField ca).mpr ⟨caS, hin, parseOpt_eq_some.mpr ⟨hne, hparse⟩⟩) hmethod
    refine ⟨(sha256_of_parse hparse hmethod).mp halgo, fun pathS' path refs hlast' hparse' hrefs => ?_⟩
    cases hlast.symm.trans hlast'
    cases hparsePath.symm.trans hparse'
    exact fun hself' => hself ((hmem _).mpr ⟨refs, hrefs, hself'⟩)
  · intro hallowed ca hinfo hmethod
    obtain ⟨caS, hin, hopt⟩ := (hcaField ca).mp hinfo
    have hparse := (parseOpt_eq_some.mp hopt).2
    obtain ⟨hsha, hself⟩ := hallowed caS hin ((method_of_parse hparse).mp hmethod)
    refine ⟨(sha256_of_parse hparse hmethod).mpr hsha, fun hin => ?_⟩
    obtain ⟨refs, hrefs, hself'⟩ := (hmem _).mp hin
    exact hself pathS info.path refs hlast hparsePath hrefs hself'

end

/-- Everything that is accepted is verified without a failed assertion exactly if its fields allow
it, and a fingerprint tells what it is made of. -/
theorem verifiesSafely_iff_textAllowed (cfg : StoreDirConfig) (xp : ExperimentalFeatureSettings) :
    (∀ s whence info, NarInfo.parse cfg xp s whence = .ok info →
      ((∀ signVerify publicKeys,
          info.toValidPathInfo.VerifiesSafely cfg xp signVerify publicKeys) ↔
        TextAllowed cfg (fields s))) ∧
    ∀ (i j : ValidPathInfo) text, i.fingerprint cfg = .ok text → j.fingerprint cfg = .ok text →
      i.path = j.path ∧ i.narHash = j.narHash ∧ i.narSize = j.narSize ∧
        i.references = j.references := by
  refine ⟨fun s whence info h => ?_, fun i j text => fingerprint_inj⟩
  rw [← soundText_iff h]
  simp only [ValidPathInfo.verifiesSafely_iff]
  exact ⟨fun hsound => hsound (fun _ _ _ => true) .empty, fun hsound _ _ => hsound⟩

/-- A file of a path that is made of a text with the given references. -/
def textFile (references ca : Bytes) : Bytes :=
  str "StorePath: /nix/store/ffffffffffffffffffffffffffffffff-x\nURL: x.nar\nNarHash: md5:" ++
    List.replicate 32 48 ++ str "\nNarSize: 1\nReferences: " ++ references ++ str "\nCA: text:" ++
    ca ++ str "\n"

def textFileInfo (references : StorePathSet) (ca : ContentAddress) : NarInfo where
  path := dummyPath
  storeDir := str "/nix/store"
  narHash := ⟨.md5, List.replicate 16 0, rfl⟩
  url := str "x.nar"
  narSize := 1
  references := references
  ca := some ca
  compression := some .bzip2

theorem verifiesSafely_iff_textAllowed_textFile :
    ((∀ signVerify publicKeys, (textFileInfo .empty ⟨.text, dummyHash⟩).toValidPathInfo.VerifiesSafely
        fetchDirs (fun _ => true) signVerify publicKeys) ↔
      TextAllowed fetchDirs (fields (textFile [] (str "sha256:" ++ List.replicate 64 48)))) ∧
    ((textFileInfo .empty ⟨.text, dummyHash⟩).toValidPathInfo.path =
      (textFileInfo .empty ⟨.text, dummyHash⟩).toValidPathInfo.path) :=
  have h := verifiesSafely_iff_textAllowed fetchDirs fun _ => true
  ⟨h.1 _ [] _ (by decide +kernel),
    (h.2 _ (textFileInfo .empty ⟨.text, dummyHash⟩).toValidPathInfo _ (if_neg (by decide))
      (if_neg (by decide))).1⟩

/-- A reference to the path itself and another algorithm are accepted, and fail an assertion
each. -/
theorem not_verifiesSafely_textFile :
    (∃ s info, NarInfo.parse fetchDirs (fun _ => true) s [] = .ok info ∧
      FailsAssertion info.toValidPathInfo.contentAddressWithReferences) ∧
    ∃ s info, NarInfo.parse fetchDirs (fun _ => true) s [] = .ok info ∧
      FailsAssertion (info.toValidPathInfo.isContentAddressed fetchDirs fun _ => true) ∧
      FailsAssertion (info.toValidPathInfo.checkSignatures fetchDirs (fun _ => true)
        (fun _ _ _ => true) .empty) := by
  refine ⟨⟨textFile dummyPath.baseName (str "sha256:" ++ List.replicate 64 48),
    textFileInfo (.ofList [dummyPath]) ⟨.text, dummyHash⟩, by decide +kernel, _, rfl, rfl⟩,
    textFile [] (str "sha1:" ++ List.replicate 40 48),
    textFileInfo .empty ⟨.text, ⟨.sha1, List.replicate 20 0, rfl⟩⟩, by decide +kernel,
    ⟨_, rfl, rfl⟩, ⟨_, rfl, rfl⟩⟩

end Nix.Store.NarInfos
