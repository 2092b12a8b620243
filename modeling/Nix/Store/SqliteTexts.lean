import Nix.Store.ContentAddressTexts
import Nix.Store.Signatures
import Nix.Store.StoreDirs
import Nix.Util.CanonPathOperations
import Nix.Util.Strings

/-!
The texts in which the databases keep hashes, store paths, signatures and content addresses, and
which of them are read back.
-/

set_option linter.dupNamespace false

namespace Nix.Store.SqliteTexts

open Util.Types Util.Hashes Util.BaseN Util.Strings Util.CanonPaths Lib.Delimited Lib.Results
  Lib.SortedList Store.Path Store.PathInfo Store.StoreDirs

/-- A text column as a C string, which ends at the first NUL. -/
def columnText (text : Bytes) : Bytes :=
  text.takeWhile (· ≠ 0)

theorem nul_notMem_columnText (text : Bytes) : 0 ∉ columnText text := by
  intro hin
  have hne := List.mem_takeWhile_imp hin
  exact of_decide_eq_true hne rfl

theorem columnText_of_notMem {text : Bytes} (h : 0 ∉ text) : columnText text = text :=
  List.takeWhile_eq_self_iff.mpr fun _ hb => decide_eq_true fun heq => h (heq ▸ hb)

theorem columnText_append {s : Bytes} (h : 0 ∉ s) (t : Bytes) :
    columnText (s ++ 0 :: t) = s := by
  have hs : ∀ b ∈ s, decide (b ≠ 0) = true := fun b hb =>
    decide_eq_true fun heq => h (heq ▸ hb)
  rw [columnText, List.takeWhile_append_of_pos hs, List.takeWhile_cons_of_neg (by simp),
    List.append_nil]

theorem columnText_eq_self {text : Bytes} : columnText text = text ↔ 0 ∉ text :=
  ⟨fun h => h ▸ nul_notMem_columnText text, columnText_of_notMem⟩

theorem mapM_map_eq_ok {β γ : Type} {render : β → γ} {parse : γ → Except Error β} {o : Option β} :
    (o.map render).mapM parse = .ok o ↔ ∀ b, o = some b → parse (render b) = .ok b := by
  cases o with
  | none => exact ⟨fun _ _ h => (nomatch h), fun _ => rfl⟩
  | some b =>
    rw [Option.map_some, Option.mapM_some]
    constructor
    · rintro h c ⟨⟩
      obtain ⟨c, hc, h⟩ := bind_eq_ok.mp h
      rw [hc, Option.some.inj (pure_eq_ok.mp h)]
    · intro h
      rw [h b rfl]
      rfl

section Sets

variable {β : Type} {cmp : β → β → Ordering} [Std.TransCmp cmp] [Std.LawfulEqCmp cmp]

omit [Std.LawfulEqCmp cmp] in
def readElements (cmp : β → β → Ordering) [Std.TransCmp cmp] (parse : Bytes → Except Error β)
    (texts : List Bytes) : Except Error (SortedSet cmp) := do
  return .ofList (← texts.mapM parse)

theorem readElements_eq_ok {parse : Bytes → Except Error β} {texts : List Bytes}
    {s : SortedSet cmp} :
    readElements cmp parse texts = .ok s ↔
      (∀ t ∈ texts, ∃ b ∈ s, parse t = .ok b) ∧ ∀ b ∈ s, ∃ t ∈ texts, parse t = .ok b := by
  constructor
  · intro h
    obtain ⟨l, hl, h⟩ := bind_eq_ok.mp h
    obtain rfl := pure_eq_ok.mp h
    refine ⟨fun t ht => ?_, fun b hb => (mem_of_mapM hl).mp (SortedSet.mem_ofList.mp hb)⟩
    obtain ⟨b, hin, hb⟩ := exists_of_mapM hl t ht
    exact ⟨b, SortedSet.mem_ofList.mpr hin, hb⟩
  · rintro ⟨htexts, hs⟩
    obtain ⟨l, hl⟩ := exists_mapM fun t ht => (htexts t ht).imp fun b hb => hb.2
    rw [readElements, hl]
    refine congrArg Except.ok (SortedSet.ext fun b => ?_)
    rw [SortedSet.mem_ofList, mem_of_mapM hl]
    constructor
    · rintro ⟨t, ht, hb⟩
      obtain ⟨b', hb', hparse⟩ := htexts t ht
      rw [hb] at hparse
      cases hparse
      exact hb'
    · exact hs b

/-- How elements are written, and which of them are read back. -/
structure Columns (render : β → Bytes) (parse : Bytes → Except Error β) (Fits : β → Prop) :
    Prop where
  parse_render : ∀ {b}, Fits b → parse (render b) = .ok b
  ne_nil : ∀ {b}, Fits b → render b ≠ []
  no_nul : ∀ {b}, Fits b → 0 ∉ render b
  no_space : ∀ {b}, Fits b → 32 ∉ render b
  fits : ∀ {t b}, parse t = .ok b → 0 ∉ t → 32 ∉ t → Fits b

variable {render : β → Bytes} {parse : Bytes → Except Error β} {Fits : β → Prop}

theorem Columns.read_iff (h : Columns render parse Fits) {texts : List Bytes} {s : SortedSet cmp}
    (htexts : ∀ t, t ∈ texts ↔
      t ∈ tokenizeString 32 (columnText (concatStringsSep 32 (s.elems.map render)))) :
    readElements cmp parse texts = .ok s ↔ ∀ b ∈ s, Fits b := by
  rw [readElements_eq_ok]
  constructor
  · rintro ⟨-, hs⟩ b hb
    obtain ⟨t, ht, hparse⟩ := hs b hb
    have hmem := (htexts t).mp ht
    refine h.fits hparse (fun hin => ?_) (fun hin => (notMem_of_mem_tokenizeString hmem hin).1 rfl)
    exact nul_notMem_columnText _ (notMem_of_mem_tokenizeString hmem hin).2
  · intro hfits
    have hsplit : tokenizeString 32 (columnText (concatStringsSep 32 (s.elems.map render))) =
        s.elems.map render := by
      rw [columnText_of_notMem, tokenizeString_concatStringsSep]
      · intro t ht
        obtain ⟨b, hb, rfl⟩ := List.mem_map.mp ht
        exact ⟨h.ne_nil (hfits b hb), h.no_space (hfits b hb)⟩
      · refine notMem_concatStringsSep (by decide) fun t ht => ?_
        obtain ⟨b, hb, rfl⟩ := List.mem_map.mp ht
        exact h.no_nul (hfits b hb)
    rw [hsplit] at htexts
    constructor
    · intro t ht
      obtain ⟨b, hb, rfl⟩ := List.mem_map.mp ((htexts t).mp ht)
      exact ⟨b, hb, h.parse_render (hfits b hb)⟩
    · exact fun b hb =>
        ⟨render b, (htexts _).mpr (List.mem_map_of_mem hb), h.parse_render (hfits b hb)⟩

end Sets

instance : Std.LawfulEqCmp Signature.cmp where
  compare_self := compareLex_eq_eq.mpr ⟨Std.ReflCmp.compare_self, Std.ReflCmp.compare_self⟩
  eq_of_compare {s t} h := by
    obtain ⟨hkey, hsig⟩ := compareLex_eq_eq.mp h
    obtain ⟨keyName, sig⟩ := s
    obtain rfl : keyName = t.keyName := Std.LawfulEqCmp.eq_of_compare hkey
    obtain rfl : sig = t.sig := Std.LawfulEqCmp.eq_of_compare hsig
    rfl

/-- A signature that is read back from a list of signatures. -/
structure FitsSignature (s : Signature) : Prop extends s.Plain where
  no_nul : 0 ∉ s.keyName
  no_space : 32 ∉ s.keyName

theorem plain_of_parse {t : Bytes} {s : Signature} (h : Signature.parse t = .ok s) :
    s.Plain ∧ s.keyName ⊆ t := by
  obtain ⟨⟨keyName, sig⟩, hread, hs⟩ := bind_eq_ok.mp h
  obtain rfl := pure_eq_ok.mp hs
  unfold parseColonBase64 at hread
  dsimp only at hread
  split at hread
  next => cases hread
  next name rest hsplit =>
    obtain ⟨rfl, hcolon⟩ := eq_append_of_splitPrefixTo hsplit
    split at hread
    next => cases hread
    next hname =>
      obtain ⟨data, -, hread⟩ := bind_eq_ok.mp hread
      split at hread
      next => cases hread
      next hne =>
        obtain ⟨rfl, rfl⟩ := Prod.mk.inj (pure_eq_ok.mp hread)
        exact ⟨⟨hname, hcolon, hne⟩, List.subset_append_left _ _⟩

theorem columns_signature : Columns Signature.toText Signature.parse FitsSignature where
  parse_render h := Signature.parse_toText h.toPlain
  ne_nil h := by
    rw [Signature.toText, List.append_assoc]
    exact List.append_ne_nil_of_left_ne_nil h.keyName_ne_nil _
  no_nul h := Signature.notMem_toText h.no_nul
    ⟨notMem_str (by decide), notMem_str (by decide), by decide⟩
  no_space h := Signature.notMem_toText h.no_space
    ⟨notMem_str (by decide), notMem_str (by decide), by decide⟩
  fits h hnul hspace := by
    obtain ⟨hplain, hsub⟩ := plain_of_parse h
    exact ⟨hplain, fun hin => hnul (hsub hin), fun hin => hspace (hsub hin)⟩

theorem not_isNameChar_nul : isNameChar 0 = false := by
  rw [isNameChar, show str "+-._?=" = _ from str_ofList _]
  decide

theorem separator_mem (p : StorePath) : separator p ∈ p.baseName := by
  rw [separator, List.getD_eq_getElem _ _ (length_baseName p)]
  exact List.getElem_mem _

theorem columns_baseName :
    Columns StorePath.baseName StorePath.ofBaseName
      fun p => separator p ≠ 0 ∧ separator p ≠ 32 where
  parse_render _ := StorePath.ofBaseName_baseName _
  ne_nil _ := baseName_ne_nil _
  no_nul h := notMem_baseName not_isNameChar_nul h.1
  no_space h := notMem_baseName (by decide) h.2
  fits h hnul hspace := by
    obtain rfl := StorePath.baseName_of_ofBaseName h
    exact ⟨fun heq => hnul (heq ▸ separator_mem _), fun heq => hspace (heq ▸ separator_mem _)⟩

theorem ofBaseName_columnText_iff (p : StorePath) :
    StorePath.ofBaseName (columnText p.baseName) = .ok p ↔ separator p ≠ 0 := by
  constructor
  · intro h heq
    have hname := StorePath.baseName_of_ofBaseName h
    have hmem := separator_mem p
    rw [heq] at hmem
    exact columnText_eq_self.mp hname.symm hmem
  · intro h
    rw [columnText_of_notMem (notMem_baseName not_isNameChar_nul h)]
    exact StorePath.ofBaseName_baseName p

theorem algoEnabled_of_parseLowLevel {xp : ExperimentalFeatureSettings} {rest name : Bytes}
    {algo : HashAlgorithm} {decode : Bytes → Except Error Bytes} {hash : Hash}
    (h : parseLowLevel xp rest algo decode name = .ok hash) : AlgoEnabled xp hash.algo := by
  obtain ⟨_, hrequire, h⟩ := bind_eq_ok.mp h
  obtain ⟨d, -, h⟩ := bind_eq_ok.mp h
  split at h
  next =>
    obtain rfl := pure_eq_ok.mp h
    exact requireAlgo_eq_ok.mp hrequire
  next => cases h

theorem algoEnabled_of_parseAnyPrefixed {xp : ExperimentalFeatureSettings} {s : Bytes}
    {hash : Hash} (h : parseAnyPrefixed xp s = .ok hash) : AlgoEnabled xp hash.algo := by
  unfold parseAnyPrefixed at h
  split at h
  next =>
    obtain ⟨_, -, h⟩ := bind_eq_ok.mp h
    obtain ⟨_, -, h⟩ := bind_eq_ok.mp h
    exact algoEnabled_of_parseLowLevel h
  next =>
    split at h
    next =>
      obtain ⟨_, -, h⟩ := bind_eq_ok.mp h
      exact algoEnabled_of_parseLowLevel h
    next => cases h

theorem nul_notMem_printHashAlgo (algo : HashAlgorithm) : 0 ∉ printHashAlgo algo :=
  notMem_of_isAlphanumeric (isAlphanumeric_printHashAlgo algo) (by decide)

theorem nul_notMem_toNix32 (hash : Hash) : 0 ∉ hash.toNix32 true :=
  hash.notMem_toNix32_of_ne (by decide) (by decide) true

theorem parseAnyPrefixed_toNix32_iff {xp : ExperimentalFeatureSettings} {hash : Hash} :
    parseAnyPrefixed xp (columnText (hash.toNix32 true)) = .ok hash ↔ AlgoEnabled xp hash.algo := by
  rw [columnText_of_notMem (nul_notMem_toNix32 hash)]
  exact ⟨algoEnabled_of_parseAnyPrefixed, parseAnyPrefixed_toNix32⟩

theorem parseAnyPrefixed_toBase16_iff {xp : ExperimentalFeatureSettings} {hash : Hash} :
    parseAnyPrefixed xp (columnText (hash.toBase16 true)) = .ok hash ↔
      AlgoEnabled xp hash.algo := by
  have htext : hash.toBase16 true = printHashAlgo hash.algo ++ 58 :: hash.toBase16 false := by
    rw [Hash.toBase16, if_pos rfl, List.append_assoc]
    rfl
  have hnul : 0 ∉ hash.toBase16 true := by
    rw [htext, List.mem_append, List.mem_cons, not_or, not_or]
    exact ⟨nul_notMem_printHashAlgo _, by decide,
      notMem_of_isAlphanumeric (base16.isAlphanumeric_encode hash.bytes) (by decide)⟩
  rw [columnText_of_notMem hnul]
  refine ⟨algoEnabled_of_parseAnyPrefixed, fun h => ?_⟩
  rw [parseAnyPrefixed, htext, splitPrefixTo_append (notMem_printHashAlgo hash.algo).1]
  simp only [parseHashAlgo_printHashAlgo h, bind, Except.bind]
  exact parseNonSRIUnprefixed_toBase16 h

section ContentAddresses

variable {xp : ExperimentalFeatureSettings} {ca : ContentAddress} {text : Bytes}

theorem methodEnabled_of_render (h : ContentAddresses.render xp ca = .ok text) :
    ContentAddresses.MethodEnabled xp ca.method := by
  obtain ⟨method, hash⟩ := ca
  rintro rfl
  obtain ⟨_, hmodern, -⟩ := bind_eq_ok.mp h
  obtain ⟨_, hpre, -⟩ := bind_eq_ok.mp hmodern
  obtain ⟨_, hrequire, -⟩ := bind_eq_ok.mp hpre
  exact ExperimentalFeatureSettings.require_eq_ok.mp hrequire

theorem nul_notMem_renderPrefix {method : ContentAddressMethod} {pre : Bytes}
    (h : ContentAddresses.renderPrefixModern xp method = .ok pre) : 0 ∉ pre := by
  cases method with
  | text | flat | nixArchive =>
    cases h
    decide
  | git =>
    obtain ⟨_, hpre, h⟩ := bind_eq_ok.mp h
    obtain ⟨_, -, hpre⟩ := bind_eq_ok.mp hpre
    obtain rfl := pure_eq_ok.mp hpre
    obtain rfl := pure_eq_ok.mp h
    decide

theorem nul_notMem_render (h : ContentAddresses.render xp ca = .ok text) : 0 ∉ text := by
  obtain ⟨pre, hpre, h⟩ := bind_eq_ok.mp h
  obtain rfl := pure_eq_ok.mp h
  rw [List.mem_append, not_or]
  exact ⟨nul_notMem_renderPrefix hpre, nul_notMem_toNix32 _⟩

theorem algoEnabled_of_parse (h : ContentAddresses.parse xp text = .ok ca) :
    AlgoEnabled xp ca.hash.algo := by
  obtain ⟨⟨method, algo, rest⟩, -, h⟩ := bind_eq_ok.mp h
  obtain ⟨hash, hhash, h⟩ := bind_eq_ok.mp h
  obtain rfl := pure_eq_ok.mp h
  obtain ⟨format, -, hhash⟩ := bind_eq_ok.mp hhash
  exact algoEnabled_of_parseLowLevel hhash

theorem parseOpt_render_iff (h : ContentAddresses.render xp ca = .ok text) :
    ContentAddresses.parseOpt xp (columnText text) = .ok (some ca) ↔
      AlgoEnabled xp ca.hash.algo := by
  rw [columnText_of_notMem (nul_notMem_render h)]
  constructor
  · intro hparse
    unfold ContentAddresses.parseOpt at hparse
    split at hparse
    next => cases hparse
    next =>
      obtain ⟨ca', hca, heq⟩ := map_eq_ok.mp hparse
      cases heq
      exact algoEnabled_of_parse hca
  · intro halgo
    obtain ⟨text', hrender, hne, -, hparse⟩ :=
      ContentAddresses.parse_render ⟨methodEnabled_of_render h, halgo⟩
    rw [h] at hrender
    cases hrender
    rw [ContentAddresses.parseOpt, if_neg hne, hparse]
    rfl

end ContentAddresses

end Nix.Store.SqliteTexts
