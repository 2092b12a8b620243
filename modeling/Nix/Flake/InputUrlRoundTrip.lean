import Nix.Flake.InputUrls

/-!
Which inputs are read back from their URLs.
-/

set_option linter.dupNamespace false

namespace Nix.Flake.InputUrls

open Util.Types Util.BaseN Util.Hashes Lib.Results Lib.SortedList Flake.FlakeRefs

variable {settings : Settings}

/-! ### Names of attributes -/

theorem find?_assignIf (attrs : Attrs) (name : Bytes) (value : Option Bytes) (k : Bytes) :
    (assignIf attrs name value).find? k =
      if name = k then (value.map .string).or (attrs.find? k) else attrs.find? k := by
  cases value with
  | none => simp [assignIf]
  | some s =>
      rw [assignIf, SortedMap.find?_assign]
      split <;> rfl

theorem maybeGetStrAttr_eq_ok {attrs : Attrs} {name : Bytes} {value : Option Bytes} :
    maybeGetStrAttr attrs name = .ok value ↔ attrs.find? name = value.map .string := by
  rw [maybeGetStrAttr]
  split
  next h => cases value <;> simp [h]
  next s h => cases value <;> simp [h, eq_comm]
  next attr hne h =>
    cases value with
    | none => simp [h]
    | some s => simpa [h] using hne s

theorem getStrAttr_eq_ok {attrs : Attrs} {name s : Bytes} :
    getStrAttr attrs name = .ok s ↔ attrs.find? name = some (.string s) := by
  constructor
  · intro h
    obtain ⟨value, hvalue, h⟩ := bind_eq_ok.mp h
    rw [maybeGetStrAttr_eq_ok] at hvalue
    cases value with
    | none => cases h
    | some s' =>
        cases h
        exact hvalue
  · intro h
    have hmaybe : maybeGetStrAttr attrs name = .ok (some s) := maybeGetStrAttr_eq_ok.mpr h
    rw [getStrAttr, hmaybe]
    rfl

/-! ### Revisions -/

theorem algoEnabled_of_ne {xp : ExperimentalFeatureSettings} {algo : HashAlgorithm}
    (h : algo ≠ .blake3) : AlgoEnabled xp algo := fun heq => absurd heq h

theorem notMem_gitRev (hash : Hash) : 58 ∉ gitRev hash ∧ 45 ∉ gitRev hash :=
  ⟨notMem_of_isAlphanumeric (base16.isAlphanumeric_encode hash.bytes) (by decide),
    notMem_of_isAlphanumeric (base16.isAlphanumeric_encode hash.bytes) (by decide)⟩

theorem length_gitRev (hash : Hash) : (gitRev hash).length = 2 * regularHashSize hash.algo := by
  have htext : gitRev hash = base16.encode hash.bytes := rfl
  rw [htext, base16.length_encode, base16.encodedLength, hash.hashSize, Nat.mul_comm]

theorem gitRev_ne_nil (hash : Hash) : gitRev hash ≠ [] := by
  intro h
  have hlen := length_gitRev hash
  rw [h] at hlen
  cases hh : hash.algo <;> rw [hh] at hlen <;> cases hlen

theorem revRegex_gitRev (hash : Hash) : revRegex (gitRev hash) = true ↔ hash.algo = .sha1 := by
  have hdigits : (gitRev hash).all isHexDigit = true := by
    rw [List.all_eq_true]
    intro c hc
    have hchars : ∀ c ∈ base16.chars, isHexDigit c = true := forall_mem_str (by decide)
    exact hchars c (base16.mem_encode hc)
  rw [revRegex, hdigits, Bool.and_true, decide_eq_true_eq, length_gitRev]
  cases hash.algo <;> decide

theorem parseAny_gitRev {xp : ExperimentalFeatureSettings} {hash : Hash}
    (h : AlgoEnabled xp hash.algo) : parseAny xp (gitRev hash) (some hash.algo) = .ok hash := by
  obtain ⟨hcolon, hdash⟩ := notMem_gitRev hash
  have hsplit : splitAlgo xp (gitRev hash) = .ok (none, gitRev hash, false) := by
    rw [splitAlgo, splitPrefixTo_eq_none hcolon, splitPrefixTo_eq_none hdash]
  have hsize : baseFromSize (gitRev hash) hash.algo = .ok .base16 :=
    baseFromSize_encode hash .base16
  have hparse : ∀ name, parseLowLevel xp (gitRev hash) hash.algo base16.decode name = .ok hash :=
    parseLowLevel_eq_ok h (base16.decode_encode hash.bytes)
  simp only [parseAny, parseAnyReturningFormat, parseAnyHelper, hsplit, resolveAlgo, bind,
    Except.bind, Bool.false_eq_true, if_false, hsize, HashFormat.decode, hparse, pure, Except.pure]

theorem parseAny_gitRev_sha1 {xp : ExperimentalFeatureSettings} {hash : Hash}
    (h : hash.algo = .sha1) : parseAny xp (gitRev hash) (some .sha1) = .ok hash := by
  rw [← h]
  exact parseAny_gitRev (algoEnabled_of_ne (by rw [h]; decide))

theorem parseAnyPrefixed_gitRev (xp : ExperimentalFeatureSettings) (hash : Hash) :
    parseAnyPrefixed xp (gitRev hash) =
      .error ⟨.badHash, ⟨"hash '%s' does not include a type", [gitRev hash]⟩⟩ := by
  obtain ⟨hcolon, hdash⟩ := notMem_gitRev hash
  rw [parseAnyPrefixed, splitPrefixTo_eq_none hcolon, splitPrefixTo_eq_none hdash]

theorem eq_of_resolveAlgo_expected {original : Bytes} {algo algo' : HashAlgorithm}
    {optParsedAlgo : Option HashAlgorithm}
    (h : resolveAlgo original (some algo) optParsedAlgo = .ok algo') :
    algo' = algo ∧ ∀ parsedAlgo ∈ optParsedAlgo, parsedAlgo = algo := by
  cases optParsedAlgo with
  | none => exact ⟨(Except.ok.inj h).symm, fun _ hmem => nomatch hmem⟩
  | some parsedAlgo =>
      obtain rfl := eq_of_resolveAlgo h
      rw [resolveAlgo] at h
      split at h
      next => cases h
      next heq =>
        obtain rfl := not_not.mp heq
        exact ⟨rfl, fun _ hmem => (Option.some.inj hmem).symm⟩

theorem algo_of_parseAny {xp : ExperimentalFeatureSettings} {s : Bytes} {algo : HashAlgorithm}
    {hash : Hash} (h : parseAny xp s (some algo) = .ok hash) : hash.algo = algo := by
  obtain ⟨⟨hash', format⟩, hhelper, heq⟩ := bind_eq_ok.mp h
  obtain rfl : hash' = hash := Except.ok.inj heq
  have h : parseAnyHelper xp s (resolveAlgo s (some algo)) = .ok (hash', format) := hhelper
  rw [parseAnyHelper] at h
  obtain ⟨⟨optParsedAlgo, rest, isSRI⟩, -, h⟩ := bind_eq_ok.mp h
  obtain ⟨algo', hresolve, h⟩ := bind_eq_ok.mp h
  have halgo := (eq_of_resolveAlgo_expected hresolve).1
  cases isSRI with
  | true =>
      obtain ⟨parsed, hparse, h⟩ := bind_eq_ok.mp h
      cases h
      exact (parseLowLevel_ok hparse).1.trans halgo
  | false =>
      obtain ⟨_, -, h⟩ := bind_eq_ok.mp h
      obtain ⟨parsed, hparse, h⟩ := bind_eq_ok.mp h
      cases h
      exact (parseLowLevel_ok hparse).1.trans halgo

theorem algo_of_parseAnyPrefixed {xp : ExperimentalFeatureSettings} {s : Bytes}
    {algo : HashAlgorithm} {hash hash' : Hash} (h : parseAnyPrefixed xp s = .ok hash)
    (hany : parseAny xp s (some algo) = .ok hash') : hash.algo = algo := by
  obtain ⟨_, hany, -⟩ := bind_eq_ok.mp hany
  rw [parseAnyReturningFormat, parseAnyHelper] at hany
  obtain ⟨⟨optParsedAlgo, rest, isSRI⟩, hsplit, hany⟩ := bind_eq_ok.mp hany
  obtain ⟨_, hresolve, -⟩ := bind_eq_ok.mp hany
  have hresolved := (eq_of_resolveAlgo_expected hresolve).2
  rw [parseAnyPrefixed] at h
  rw [splitAlgo] at hsplit
  split at h
  next hashRaw rest' hcolon =>
    rw [hcolon] at hsplit
    obtain ⟨parsedAlgo, hparsed, h⟩ := bind_eq_ok.mp h
    obtain ⟨_, -, h⟩ := bind_eq_ok.mp h
    simp only [hparsed, bind, Except.bind, pure_eq_ok, Prod.mk.injEq] at hsplit
    rw [(parseLowLevel_ok h).1]
    exact hresolved parsedAlgo hsplit.1.symm
  next hcolon =>
    rw [hcolon] at hsplit
    split at h
    next hashRaw rest' hdash =>
      obtain ⟨parsedAlgo, hparsed, h⟩ := bind_eq_ok.mp h
      simp only [hdash, hparsed, bind, Except.bind, pure_eq_ok, Prod.mk.injEq] at hsplit
      rw [(parseLowLevel_ok h).1]
      exact hresolved parsedAlgo hsplit.1.symm
    next => cases h

theorem getNarHash_of_find? {attrs attrs' : Attrs}
    (h : attrs'.find? (str "narHash") = attrs.find? (str "narHash")) :
    getNarHash settings attrs' = getNarHash settings attrs := by
  rw [getNarHash, getNarHash, maybeGetStrAttr, maybeGetStrAttr, h]

theorem getRev_eq_none {attrs : Attrs} :
    getRev settings attrs = .ok none ↔ attrs.find? (str "rev") = none := by
  constructor
  · intro h
    obtain ⟨rev, hrev, h⟩ := bind_eq_ok.mp h
    cases rev with
    | none => exact maybeGetStrAttr_eq_ok.mp hrev
    | some s =>
        dsimp only at h
        split at h
        next => cases h
        next =>
          split at h
          next =>
            obtain ⟨_, -, h⟩ := bind_eq_ok.mp h
            cases h
          next => cases h
  · intro h
    have hrev : maybeGetStrAttr attrs (str "rev") = .ok none := maybeGetStrAttr_eq_ok.mpr h
    rw [getRev, hrev]
    rfl

theorem getRev_gitRev {attrs : Attrs} {hash : Hash} (h : hash.algo = .sha1)
    (hrev : attrs.find? (str "rev") = some (.string (gitRev hash))) :
    getRev settings attrs = .ok (some hash) := by
  have hmaybe : maybeGetStrAttr attrs (str "rev") = .ok (some (gitRev hash)) :=
    maybeGetStrAttr_eq_ok.mpr hrev
  simp only [getRev, hmaybe, bind, Except.bind, parseAnyPrefixed_gitRev, if_true,
    parseAny_gitRev_sha1 h, pure, Except.pure]

theorem algo_of_getRev {attrs : Attrs} {hash hash' : Hash} {s : Bytes}
    (hrev : attrs.find? (str "rev") = some (.string s))
    (hany : parseAny settings.xp s (some .sha1) = .ok hash')
    (h : getRev settings attrs = .ok (some hash)) : hash.algo = .sha1 := by
  have hmaybe : maybeGetStrAttr attrs (str "rev") = .ok (some s) := maybeGetStrAttr_eq_ok.mpr hrev
  rw [getRev, hmaybe] at h
  dsimp only [bind, Except.bind] at h
  split at h
  next hash'' hprefixed =>
    cases h
    exact algo_of_parseAnyPrefixed hprefixed hany
  next =>
    split at h
    next =>
      rw [hany] at h
      cases h
      exact algo_of_parseAny hany
    next => cases h

theorem getNarHash_toString {attrs : Attrs} {hash : Hash} (h : hash.algo = .sha256)
    (hnar : attrs.find? (str "narHash") = some (.string (hash.toString .sri true))) :
    getNarHash settings attrs = .ok (some hash) := by
  have hmaybe : maybeGetStrAttr attrs (str "narHash") = .ok (some (hash.toString .sri true)) :=
    maybeGetStrAttr_eq_ok.mpr hnar
  have hne : hash.toString .sri true ≠ [] := by
    rw [Hash.toString, h]
    exact List.cons_ne_nil _ _
  have hsri : parseSRI settings.xp (hash.toString .sri true) = .ok hash :=
    parseSRI_toSRI (algoEnabled_of_ne (by rw [h]; decide))
  simp only [getNarHash, hmaybe, bind, Except.bind, if_neg hne, hsri, h, ne_eq, not_true_eq_false,
    if_false, pure, Except.pure]

theorem getNarHash_ok {attrs : Attrs} {narHash : Option Hash}
    (h : getNarHash settings attrs = .ok narHash) :
    (narHash = none ∧ attrs.find? (str "narHash") = none) ∨
      ∃ hash, narHash = some hash ∧ hash.algo = .sha256 := by
  obtain ⟨value, hvalue, h⟩ := bind_eq_ok.mp h
  cases value with
  | none =>
      cases h
      exact .inl ⟨rfl, maybeGetStrAttr_eq_ok.mp hvalue⟩
  | some s =>
      dsimp only at h
      split at h <;> obtain ⟨hash, -, h⟩ := bind_eq_ok.mp h <;> split at h
      next => cases h
      next hsha =>
        cases h
        exact .inr ⟨hash, rfl, not_not.mp hsha⟩
      next => cases h
      next hsha =>
        cases h
        exact .inr ⟨hash, rfl, not_not.mp hsha⟩

/-! ### Indirect inputs -/

namespace Indirect

/-- The inputs that a URL of the scheme `flake` can name. -/
structure Kept (settings : Settings) (input : Attrs) : Prop where
  absent : ∀ name ∈ [str "owner", str "repo", str "host", str "narHash"],
    input.find? name = none
  rev : ∀ hash, getRev settings input = .ok (some hash) → hash.algo = .sha1
  ref : ∀ ref, input.find? (str "ref") = some (.string ref) →
    ref ≠ [] ∧ isLegalRefName settings ref = true ∧
      (input.find? (str "rev") = none → revRegex ref = false)

theorem ne_nil_of_flakeRegex {id : Bytes} (h : flakeRegex id = true) : id ≠ [] := by
  rintro rfl
  cases h

theorem inputFromAttrs_ok {attrs input : Attrs} (h : inputFromAttrs attrs = .ok input) :
    ∃ id, attrs.find? (str "id") = some (.string id) ∧ flakeRegex id = true ∧ input = attrs := by
  obtain ⟨id, hid, h⟩ := bind_eq_ok.mp h
  split at h
  next => cases h
  next hregex =>
    cases h
    exact ⟨id, getStrAttr_eq_ok.mp hid, not_not.mp hregex, rfl⟩

theorem toURL_ok {input : Attrs} {id : Bytes} {url : ParsedURL}
    (hid : input.find? (str "id") = some (.string id)) (h : toURL settings input = .ok url) :
    ∃ (ref : Option Bytes) (rev : Option Hash), input.find? (str "ref") = ref.map .string ∧
      getRev settings input = .ok rev ∧
      url = ⟨str "flake", id :: ref.toList ++ (rev.map gitRev).toList, .empty⟩ := by
  obtain ⟨id', hid', h⟩ := bind_eq_ok.mp h
  obtain ⟨ref, href, h⟩ := bind_eq_ok.mp h
  obtain ⟨rev, hrev, h⟩ := bind_eq_ok.mp h
  rw [getStrAttr_eq_ok.mpr hid] at hid'
  cases hid'
  cases h
  exact ⟨ref, rev, maybeGetStrAttr_eq_ok.mp href, hrev, rfl⟩

def attrsOfPath (id : Bytes) (rev : Option Hash) (ref : Option Bytes) : Attrs :=
  assignIf (assignIf ((SortedMap.assign .empty (str "type") (.string (str "indirect"))).assign
    (str "id") (.string id)) (str "rev") (rev.map gitRev)) (str "ref") ref

theorem inputFromURL_eq_ok {url : ParsedURL} {input' : Attrs} (hscheme : url.scheme = str "flake") :
    inputFromURL settings url = .ok (some input') ↔
      ∃ rev ref, revAndRef settings url.pathSegments = .ok (rev, ref) ∧
        flakeRegex (url.pathSegments.headD []) = true ∧
        input' = attrsOfPath (url.pathSegments.headD []) rev ref := by
  rw [inputFromURL, if_neg (not_not.mpr hscheme)]
  constructor
  · intro h
    obtain ⟨⟨rev, ref⟩, hpath, h⟩ := bind_eq_ok.mp h
    dsimp only at h
    split at h
    next => cases h
    next hregex =>
      cases h
      exact ⟨rev, ref, hpath, not_not.mp hregex, rfl⟩
  · rintro ⟨rev, ref, hpath, hregex, rfl⟩
    simp only [hpath, bind, Except.bind, hregex, not_true_eq_false, if_false]
    rfl

theorem find?_attrsOfPath (id : Bytes) (rev : Option Hash) (ref : Option Bytes) :
    (attrsOfPath id rev ref).find? (str "id") = some (.string id) ∧
      (attrsOfPath id rev ref).find? (str "rev") = (rev.map gitRev).map .string ∧
      (attrsOfPath id rev ref).find? (str "ref") = ref.map .string ∧
      ∀ name ∈ [str "owner", str "repo", str "host", str "narHash"],
        (attrsOfPath id rev ref).find? name = none := by
  have hkeys : ∀ name ∈ [str "owner", str "repo", str "host", str "narHash"],
      str "ref" ≠ name ∧ str "rev" ≠ name ∧ str "id" ≠ name ∧ str "type" ≠ name := by
    decide
  have hnames : str "ref" ≠ str "id" ∧ str "rev" ≠ str "id" ∧ str "ref" ≠ str "rev" ∧
      str "id" ≠ str "rev" ∧ str "type" ≠ str "rev" ∧ str "rev" ≠ str "ref" ∧
      str "id" ≠ str "ref" ∧ str "type" ≠ str "ref" := by
    decide
  obtain ⟨h1, h2, h3, h4, h5, h6, h7, h8⟩ := hnames
  refine ⟨?_, ?_, ?_, fun name hname => ?_⟩
  · simp [attrsOfPath, find?_assignIf, SortedMap.find?_assign, h1, h2]
  · simp [attrsOfPath, find?_assignIf, SortedMap.find?_assign, h3, h4, h5]
  · simp [attrsOfPath, find?_assignIf, SortedMap.find?_assign, h6, h7, h8]
  · obtain ⟨g1, g2, g3, g4⟩ := hkeys name hname
    simp [attrsOfPath, find?_assignIf, SortedMap.find?_assign, g1, g2, g3, g4]

theorem revAndRef_ok {path : List Bytes} {rev : Option Hash} {ref : Option Bytes}
    (h : revAndRef settings path = .ok (rev, ref)) :
    (∀ hash, rev = some hash → hash.algo = .sha1) ∧ ∀ r, ref = some r →
      r ∈ path ∧ isLegalRefName settings r = true ∧ (rev = none → revRegex r = false) := by
  unfold revAndRef at h
  split at h
  next =>
    cases h
    exact ⟨fun _ h => (nomatch h), fun _ h => (nomatch h)⟩
  next id a =>
    split at h
    next =>
      obtain ⟨hash, hparse, h⟩ := bind_eq_ok.mp h
      cases h
      exact ⟨fun _ heq => by cases heq; exact algo_of_parseAny hparse, fun _ h => nomatch h⟩
    next hregex =>
      split at h
      next hlegal =>
        cases h
        refine ⟨fun _ h => (nomatch h), fun r heq => ?_⟩
        cases heq
        exact ⟨by simp, hlegal, fun _ => Bool.eq_false_iff.mpr hregex⟩
      next => cases h
  next id a b =>
    split at h
    next => cases h
    next hlegal =>
      split at h
      next => cases h
      next =>
        obtain ⟨hash, hparse, h⟩ := bind_eq_ok.mp h
        cases h
        refine ⟨fun _ heq => by cases heq; exact algo_of_parseAny hparse, fun r heq => ?_⟩
        cases heq
        exact ⟨by simp, not_not.mp hlegal, fun hnone => nomatch hnone⟩
  next => cases h

theorem revAndRef_path {id : Bytes} {rev : Option Hash} {ref : Option Bytes}
    (hrev : ∀ hash, rev = some hash → hash.algo = .sha1)
    (href : ∀ r, ref = some r → isLegalRefName settings r = true ∧
      (rev = none → revRegex r = false)) :
    revAndRef settings (id :: ref.toList ++ (rev.map gitRev).toList) = .ok (rev, ref) := by
  cases rev with
  | none =>
      cases ref with
      | none => rfl
      | some r =>
          obtain ⟨hlegal, hregex⟩ := href r rfl
          have hregex := hregex rfl
          simp [revAndRef, hlegal, hregex]
  | some hash =>
      have hregex := (revRegex_gitRev hash).mpr (hrev hash rfl)
      have hparse := @parseAny_gitRev_sha1 settings.xp hash (hrev hash rfl)
      cases ref with
      | none =>
          simp only [Option.map_some, Option.toList, List.cons_append, List.nil_append, revAndRef,
            hregex, if_true, hparse]
          rfl
      | some r =>
          obtain ⟨hlegal, -⟩ := href r rfl
          simp only [Option.map_some, Option.toList, List.cons_append, List.nil_append, revAndRef,
            hregex, hlegal, hparse, not_true_eq_false, if_false]
          rfl

theorem kept_of_sameInput {input : Attrs} {path : List Bytes} {id : Bytes} {rev : Option Hash}
    {ref : Option Bytes} (hpath : revAndRef settings path = .ok (rev, ref)) (hne : [] ∉ path)
    (hsame : SameInput settings input (attrsOfPath id rev ref)) : Kept settings input := by
  obtain ⟨-, hrev, href, habsent⟩ := find?_attrsOfPath id rev ref
  obtain ⟨halgo, hlegal⟩ := revAndRef_ok hpath
  have hgetRev : getRev settings input = .ok rev := by
    rw [← hsame.rev]
    cases rev with
    | none => exact getRev_eq_none.mpr hrev
    | some hash => exact getRev_gitRev (halgo hash rfl) hrev
  have hnar : getNarHash settings input = .ok none := by
    have hnone : maybeGetStrAttr (attrsOfPath id rev ref) (str "narHash") = .ok none :=
      maybeGetStrAttr_eq_ok.mpr (habsent (str "narHash") (by simp))
    rw [← hsame.narHash, getNarHash, hnone]
    rfl
  refine ⟨fun name hname => ?_, fun hash heq => ?_, fun r heq => ?_⟩
  · simp only [List.mem_cons, List.not_mem_nil, or_false] at hname
    rcases hname with rfl | rfl | rfl | rfl
    · rw [← hsame.attrs (str "owner") (by simp)]
      exact habsent _ (by simp)
    · rw [← hsame.attrs (str "repo") (by simp)]
      exact habsent _ (by simp)
    · rw [← hsame.attrs (str "host") (by simp)]
      exact habsent _ (by simp)
    · rcases getNarHash_ok hnar with ⟨-, h⟩ | ⟨_, h, -⟩
      · exact h
      · cases h
  · rw [hgetRev, Except.ok.injEq] at heq
    exact halgo hash heq
  · rw [← hsame.attrs (str "ref") (by simp), href, Option.map_eq_some_iff] at heq
    obtain ⟨r', rfl, hr⟩ := heq
    cases hr
    obtain ⟨hmem, hlegal, hregex⟩ := hlegal r rfl
    refine ⟨fun hnil => hne (hnil ▸ hmem), hlegal, fun hnone => hregex ?_⟩
    rw [getRev_eq_none.mpr hnone, Except.ok.injEq] at hgetRev
    exact hgetRev.symm

theorem sameInput_of_kept {input : Attrs} {id : Bytes} {rev : Option Hash} {ref : Option Bytes}
    (hkept : Kept settings input) (hid : input.find? (str "id") = some (.string id))
    (hrev : getRev settings input = .ok rev) (href : input.find? (str "ref") = ref.map .string) :
    SameInput settings input (attrsOfPath id rev ref) := by
  obtain ⟨hid', hrev', href', habsent⟩ := find?_attrsOfPath id rev ref
  refine ⟨fun name hname => ?_, ?_, getNarHash_of_find? ?_⟩
  · simp only [List.mem_cons, List.not_mem_nil, or_false] at hname
    rcases hname with rfl | rfl | rfl | rfl | rfl
    · rw [hid', hid]
    · rw [habsent _ (by simp), hkept.absent _ (by simp)]
    · rw [habsent _ (by simp), hkept.absent _ (by simp)]
    · rw [href', href]
    · rw [habsent _ (by simp), hkept.absent _ (by simp)]
  · rw [hrev]
    cases rev with
    | none => exact getRev_eq_none.mpr hrev'
    | some hash => exact getRev_gitRev (hkept.rev hash hrev) hrev'
  · rw [habsent _ (by simp), hkept.absent _ (by simp)]

theorem filter_path {id : Bytes} {rev : Option Hash} {ref : Option Bytes} (hid : id ≠ [])
    (href : ∀ r, ref = some r → r ≠ []) :
    (id :: ref.toList ++ (rev.map gitRev).toList).filter (· ≠ []) =
      id :: ref.toList ++ (rev.map gitRev).toList := by
  rw [List.filter_eq_self]
  intro s hs
  simp only [List.cons_append, List.mem_cons, List.mem_append, Option.mem_toList,
    Option.map_eq_some_iff] at hs
  rw [decide_eq_true_eq]
  rcases hs with rfl | hs | ⟨hash, -, rfl⟩
  · exact hid
  · exact href s hs
  · exact gitRev_ne_nil hash

theorem survives_iff {attrs input : Attrs} {url : ParsedURL}
    (haccept : inputFromAttrs attrs = .ok input) (hurl : toURL settings input = .ok url) :
    Survives settings .indirect input url ↔ Kept settings input := by
  obtain ⟨id, hid, hflake, rfl⟩ := inputFromAttrs_ok haccept
  have hne := ne_nil_of_flakeRegex hflake
  obtain ⟨ref, rev, href, hrev, rfl⟩ := toURL_ok hid hurl
  constructor
  · rintro ⟨input', hfrom, hsame⟩
    obtain ⟨rev', ref', hpath, -, rfl⟩ := (inputFromURL_eq_ok rfl).mp hfrom
    refine kept_of_sameInput hpath (fun hmem => ?_) hsame
    exact of_decide_eq_true (List.mem_filter.mp hmem).2 rfl
  · intro hkept
    have hrefs : ∀ r, ref = some r → r ≠ [] ∧ isLegalRefName settings r = true ∧
        (input.find? (str "rev") = none → revRegex r = false) := by
      rintro r rfl
      exact hkept.ref r href
    have hsegs : ParsedURL.pathSegments
        ⟨str "flake", id :: ref.toList ++ (rev.map gitRev).toList, .empty⟩ =
          id :: ref.toList ++ (rev.map gitRev).toList :=
      filter_path hne fun r hr => (hrefs r hr).1
    refine ⟨attrsOfPath id rev ref, (inputFromURL_eq_ok rfl).mpr ⟨rev, ref, ?_, ?_, ?_⟩,
      sameInput_of_kept hkept hid hrev href⟩
    · rw [hsegs]
      refine revAndRef_path (fun hash hr => hkept.rev hash (hr ▸ hrev)) fun r hr => ?_
      obtain ⟨-, hlegal, hregex⟩ := hrefs r hr
      exact ⟨hlegal, fun hnone => hregex (getRev_eq_none.mp (hnone ▸ hrev))⟩
    · rw [hsegs]
      exact hflake
    · rw [hsegs]
      rfl

end Indirect

/-! ### Archives of Git repositories -/

namespace GitArchive

/-- The inputs that a URL of an archive can name. -/
structure Kept (input : Attrs) : Prop where
  id : input.find? (str "id") = none
  owner : input.find? (str "owner") ≠ some (.string [])
  repo : input.find? (str "repo") ≠ some (.string [])
  ref : ∀ ref, input.find? (str "ref") = some (.string ref) → ref ≠ [] ∧ revRegex ref = false

/-- What is checked of the attributes. -/
structure Accepted (settings : Settings) (attrs : Attrs) (ref rev host : Option Bytes) : Prop where
  owner : ∃ owner, attrs.find? (str "owner") = some (.string owner)
  repo : ∃ repo, attrs.find? (str "repo") = some (.string repo)
  refAttr : attrs.find? (str "ref") = ref.map .string
  revAttr : attrs.find? (str "rev") = rev.map .string
  hostAttr : attrs.find? (str "host") = host.map .string
  refOrRev : ref = none ∨ rev = none
  legal : ∀ s, ref = some s → isLegalRefName settings s = true
  sha1 : ∀ s, rev = some s → ∃ hash, parseAny settings.xp s (some .sha1) = .ok hash
  hostName : ∀ s, host = some s → hostRegex s = true

theorem checkRefOrRev_eq_ok {ref rev : Option Bytes} :
    checkRefOrRev settings ref rev = .ok () ↔ (ref = none ∨ rev = none) ∧
      (∀ s, ref = some s → isLegalRefName settings s = true) ∧
      ∀ s, rev = some s → ∃ hash, parseAny settings.xp s (some .sha1) = .ok hash := by
  cases ref with
  | none =>
      cases rev with
      | none => simp [checkRefOrRev]
      | some s =>
          cases hparse : parseAny settings.xp s (some .sha1) <;>
            simp [checkRefOrRev, hparse, Functor.map, Except.map]
  | some s =>
      cases rev with
      | none => simp [checkRefOrRev]
      | some s' => simp [checkRefOrRev]

theorem checkHost_eq_ok {host : Option Bytes} :
    checkHost host = .ok () ↔ ∀ s, host = some s → hostRegex s = true := by
  cases host with
  | none => simp [checkHost]
  | some s => simp [checkHost]

theorem inputFromAttrs_ok {attrs input : Attrs} (h : inputFromAttrs settings attrs = .ok input) :
    input = attrs ∧ ∃ ref rev host, Accepted settings attrs ref rev host := by
  obtain ⟨owner, howner, h⟩ := bind_eq_ok.mp h
  obtain ⟨repo, hrepo, h⟩ := bind_eq_ok.mp h
  obtain ⟨ref, href, h⟩ := bind_eq_ok.mp h
  obtain ⟨rev, hrev, h⟩ := bind_eq_ok.mp h
  obtain ⟨_, hcheck, h⟩ := bind_eq_ok.mp h
  obtain ⟨host, hhost, h⟩ := bind_eq_ok.mp h
  obtain ⟨_, hname, h⟩ := bind_eq_ok.mp h
  cases h
  obtain ⟨hrefOrRev, hlegal, hsha1⟩ := checkRefOrRev_eq_ok.mp hcheck
  exact ⟨rfl, ref, rev, host, ⟨owner, getStrAttr_eq_ok.mp howner⟩,
    ⟨repo, getStrAttr_eq_ok.mp hrepo⟩, maybeGetStrAttr_eq_ok.mp href,
    maybeGetStrAttr_eq_ok.mp hrev, maybeGetStrAttr_eq_ok.mp hhost, hrefOrRev, hlegal, hsha1,
    checkHost_eq_ok.mp hname⟩

theorem inputFromAttrs_of_accepted {attrs : Attrs} {ref rev host : Option Bytes}
    (h : Accepted settings attrs ref rev host) : inputFromAttrs settings attrs = .ok attrs := by
  obtain ⟨⟨owner, howner⟩, ⟨repo, hrepo⟩, href, hrev, hhost, hrefOrRev, hlegal, hsha1, hname⟩ := h
  rw [← getStrAttr_eq_ok] at howner hrepo
  rw [← maybeGetStrAttr_eq_ok] at href hrev hhost
  have hcheck := checkRefOrRev_eq_ok.mpr ⟨hrefOrRev, hlegal, hsha1⟩
  have hhostName := checkHost_eq_ok.mpr hname
  simp only [inputFromAttrs, howner, hrepo, href, hrev, hhost, hcheck, hhostName, bind, Except.bind]
  rfl

def queryOf (narHash : Option Hash) (host : Option Bytes) :
    SortedMap (compare : Bytes → Bytes → Ordering) Bytes :=
  let query := match narHash with
    | some narHash => SortedMap.assign .empty (str "narHash") (narHash.toString .sri true)
    | none => .empty
  match host with
  | some host => query.assign (str "host") host
  | none => query

theorem toURL_ok {scheme : Scheme} {input : Attrs} {url : ParsedURL}
    (h : toURL settings scheme input = .ok url) :
    ∃ (owner repo : Bytes) (ref : Option Bytes) (rev narHash : Option Hash) (host : Option Bytes),
      input.find? (str "owner") = some (.string owner) ∧
      input.find? (str "repo") = some (.string repo) ∧
      input.find? (str "ref") = ref.map .string ∧ getRev settings input = .ok rev ∧
      getNarHash settings input = .ok narHash ∧ input.find? (str "host") = host.map .string ∧
      url = ⟨schemeName scheme, owner :: repo :: ref.toList ++ (rev.map gitRev).toList,
        queryOf narHash host⟩ := by
  obtain ⟨owner, howner, h⟩ := bind_eq_ok.mp h
  obtain ⟨repo, hrepo, h⟩ := bind_eq_ok.mp h
  obtain ⟨ref, href, h⟩ := bind_eq_ok.mp h
  obtain ⟨rev, hrev, h⟩ := bind_eq_ok.mp h
  dsimp only at h
  split at h
  next => cases h
  next =>
    obtain ⟨narHash, hnar, h⟩ := bind_eq_ok.mp h
    obtain ⟨host, hhost, h⟩ := bind_eq_ok.mp h
    cases h
    exact ⟨owner, repo, ref, rev, narHash, host, getStrAttr_eq_ok.mp howner,
      getStrAttr_eq_ok.mp hrepo, maybeGetStrAttr_eq_ok.mp href, hrev, hnar,
      maybeGetStrAttr_eq_ok.mp hhost, rfl⟩

theorem foldlM_fromQuery (attrs : Attrs) (narHash : Option Hash) (host : Option Bytes) :
    (queryOf narHash host).elems.foldlM fromQuery attrs =
      .ok (assignIf (assignIf attrs (str "host") host) (str "narHash")
        (narHash.map fun h => h.toString .sri true)) := by
  have hhost : ∀ (attrs : Attrs) value, fromQuery attrs (str "host", value) =
      .ok (attrs.assign (str "host") (.string value)) := by
    intro attrs value
    rw [fromQuery, if_neg (str_ne_str (by decide)), if_neg (str_ne_str (by decide)), if_pos rfl]
  have hnar : ∀ (attrs : Attrs) value, fromQuery attrs (str "narHash", value) =
      .ok (attrs.assign (str "narHash") (.string value)) := by
    intro attrs value
    rw [fromQuery, if_neg (str_ne_str (by decide)), if_neg (str_ne_str (by decide)),
      if_neg (str_ne_str (by decide)), if_pos rfl]
  have hcmp : compare (str "host") (str "narHash") = .lt := by decide
  cases narHash with
  | none =>
      cases host with
      | none => rfl
      | some value =>
          show [(str "host", value)].foldlM fromQuery attrs = _
          rw [List.foldlM_cons, hhost]
          rfl
  | some hash =>
      cases host with
      | none =>
          show [(str "narHash", hash.toString .sri true)].foldlM fromQuery attrs = _
          rw [List.foldlM_cons, hnar]
          rfl
      | some value =>
          have helems : (queryOf (some hash) (some value)).elems =
              [(str "host", value), (str "narHash", hash.toString .sri true)] := by
            simp [queryOf, SortedMap.assign, SortedSet.empty, insertOver, byKey, hcmp]
          rw [helems, List.foldlM_cons, hhost]
          show List.foldlM fromQuery _ [(str "narHash", hash.toString .sri true)] = _
          rw [List.foldlM_cons, hnar]
          rfl

/-- The attributes that are read from a path and a query. -/
def attrsOfURL (scheme : Scheme) (pathAttrs : Attrs) (owner repo : Bytes) (narHash : Option Hash)
    (host : Option Bytes) : Attrs :=
  (((assignIf (assignIf pathAttrs (str "host") host) (str "narHash")
    (narHash.map fun h => h.toString .sri true)).assign (str "type")
      (.string (schemeName scheme))).assign (str "owner") (.string owner)).assign (str "repo")
        (.string repo)

theorem find?_attrsOfURL (scheme : Scheme) (pathAttrs : Attrs) (owner repo : Bytes)
    (narHash : Option Hash) (host : Option Bytes) :
    let attrs := attrsOfURL scheme pathAttrs owner repo narHash host
    attrs.find? (str "owner") = some (.string owner) ∧
      attrs.find? (str "repo") = some (.string repo) ∧
      attrs.find? (str "narHash") = ((narHash.map fun h => h.toString .sri true).map .string).or
        (pathAttrs.find? (str "narHash")) ∧
      attrs.find? (str "host") = (host.map .string).or (pathAttrs.find? (str "host")) ∧
      ∀ name ∈ [str "id", str "ref", str "rev"], attrs.find? name = pathAttrs.find? name := by
  have hkeys : ∀ name ∈ [str "id", str "ref", str "rev"], str "host" ≠ name ∧
      str "narHash" ≠ name ∧ str "type" ≠ name ∧ str "owner" ≠ name ∧ str "repo" ≠ name := by
    decide
  have hnames : str "repo" ≠ str "owner" ∧ str "host" ≠ str "narHash" ∧
      str "type" ≠ str "narHash" ∧ str "owner" ≠ str "narHash" ∧ str "repo" ≠ str "narHash" ∧
      str "narHash" ≠ str "host" ∧ str "type" ≠ str "host" ∧ str "owner" ≠ str "host" ∧
      str "repo" ≠ str "host" := by
    decide
  obtain ⟨h1, h2, h3, h4, h5, h6, h7, h8, h9⟩ := hnames
  refine ⟨?_, ?_, ?_, ?_, fun name hname => ?_⟩
  · simp [attrsOfURL, SortedMap.find?_assign, h1]
  · simp [attrsOfURL, SortedMap.find?_assign]
  · simp [attrsOfURL, find?_assignIf, SortedMap.find?_assign, h2, h3, h4, h5]
  · simp [attrsOfURL, find?_assignIf, SortedMap.find?_assign, h6, h7, h8, h9]
  · obtain ⟨g1, g2, g3, g4, g5⟩ := hkeys name hname
    simp [attrsOfURL, find?_assignIf, SortedMap.find?_assign, g1, g2, g3, g4, g5]

theorem inputFromURL_eq_ok {scheme : Scheme} {path : List Bytes} {narHash : Option Hash}
    {host : Option Bytes} {input' : Attrs} :
    inputFromURL settings scheme ⟨schemeName scheme, path, queryOf narHash host⟩ =
        .ok (some input') ↔
      ∃ pathAttrs, fromPath (path.filter (· ≠ [])) = .ok pathAttrs ∧
        inputFromAttrs settings (attrsOfURL scheme pathAttrs ((path.filter (· ≠ [])).headD [])
          ((path.filter (· ≠ [])).tail.headD []) narHash host) = .ok input' := by
  rw [inputFromURL, if_neg (not_not.mpr rfl)]
  constructor
  · intro h
    obtain ⟨pathAttrs, hpath, h⟩ := bind_eq_ok.mp h
    obtain ⟨attrs, hquery, h⟩ := bind_eq_ok.mp h
    obtain ⟨input, hinput, h⟩ := bind_eq_ok.mp h
    rw [foldlM_fromQuery, Except.ok.injEq] at hquery
    obtain rfl : input = input' := Option.some.inj (Except.ok.inj h)
    rw [← hquery] at hinput
    exact ⟨pathAttrs, hpath, hinput⟩
  · rintro ⟨pathAttrs, hpath, hinput⟩
    have hsegs : ParsedURL.pathSegments ⟨schemeName scheme, path, queryOf narHash host⟩ =
        path.filter (· ≠ []) := rfl
    simp only [attrsOfURL] at hinput
    simp only [hsegs, hpath, foldlM_fromQuery, bind, Except.bind, hinput]
    rfl

theorem fromPath_ok {path : List Bytes} {pathAttrs : Attrs} (h : fromPath path = .ok pathAttrs) :
    (∃ owner repo rest, path = owner :: repo :: rest) ∧
      ∀ name ∈ [str "id", str "host", str "narHash"], pathAttrs.find? name = none := by
  have hkeys : ∀ name ∈ [str "id", str "host", str "narHash"],
      str "ref" ≠ name ∧ str "rev" ≠ name := by
    decide
  unfold fromPath at h
  split at h
  next owner repo =>
    cases h
    exact ⟨⟨owner, repo, [], rfl⟩, fun _ _ => SortedMap.find?_empty _⟩
  next owner repo a =>
    cases h
    refine ⟨⟨owner, repo, [a], rfl⟩, fun name hname => ?_⟩
    rw [SortedMap.find?_assign, if_neg, SortedMap.find?_empty]
    split
    · exact (hkeys name hname).2
    · exact (hkeys name hname).1
  next owner repo rest _ _ =>
    cases h
    refine ⟨⟨owner, repo, rest, rfl⟩, fun name hname => ?_⟩
    rw [SortedMap.find?_assign, if_neg (hkeys name hname).1, SortedMap.find?_empty]
  next => cases h

theorem fromPath_segment {owner repo : Bytes} {ref : Option Bytes} {rev : Option Hash}
    (hrefOrRev : ref = none ∨ rev = none) (hrev : ∀ hash, rev = some hash → hash.algo = .sha1)
    (href : ∀ s, ref = some s → revRegex s = false) :
    ∃ pathAttrs, fromPath (owner :: repo :: ref.toList ++ (rev.map gitRev).toList) =
        .ok pathAttrs ∧
      pathAttrs.find? (str "ref") = ref.map .string ∧
      pathAttrs.find? (str "rev") = (rev.map gitRev).map .string := by
  have hne : str "ref" ≠ str "rev" := str_ne_str (by decide)
  cases ref with
  | none =>
      cases rev with
      | none => exact ⟨_, rfl, SortedMap.find?_empty _, SortedMap.find?_empty _⟩
      | some hash =>
          refine ⟨_, rfl, ?_, ?_⟩
          · rw [if_pos ((revRegex_gitRev hash).mpr (hrev hash rfl)),
              SortedMap.find?_assign_of_ne hne.symm]
            exact SortedMap.find?_empty _
          · rw [if_pos ((revRegex_gitRev hash).mpr (hrev hash rfl)), SortedMap.find?_assign_self]
            rfl
  | some s =>
      rcases hrefOrRev with h | rfl
      · cases h
      · refine ⟨_, rfl, ?_, ?_⟩
        · rw [href s rfl, if_neg Bool.false_ne_true, SortedMap.find?_assign_self]
          rfl
        · rw [href s rfl, if_neg Bool.false_ne_true, SortedMap.find?_assign_of_ne hne]
          exact SortedMap.find?_empty _

/-- An accepted input, and what its URL is made of. -/
structure Rendered (settings : Settings) (input : Attrs) (owner repo : Bytes) (ref : Option Bytes)
    (rev narHash : Option Hash) (host : Option Bytes) : Prop where
  ownerAttr : input.find? (str "owner") = some (.string owner)
  repoAttr : input.find? (str "repo") = some (.string repo)
  refAttr : input.find? (str "ref") = ref.map .string
  getRev : getRev settings input = .ok rev
  getNarHash : getNarHash settings input = .ok narHash
  hostAttr : input.find? (str "host") = host.map .string
  refOrRev : ref = none ∨ rev = none
  legal : ∀ s, ref = some s → isLegalRefName settings s = true
  sha1 : ∀ hash, rev = some hash → hash.algo = .sha1
  hostName : ∀ s, host = some s → hostRegex s = true

theorem string_injective : Function.Injective Attr.string := fun _ _ h => Attr.string.inj h

theorem rendered_of_ok {scheme : Scheme} {attrs input : Attrs} {url : ParsedURL}
    (haccept : inputFromAttrs settings attrs = .ok input)
    (hurl : toURL settings scheme input = .ok url) :
    ∃ owner repo ref rev narHash host, Rendered settings input owner repo ref rev narHash host ∧
      url = ⟨schemeName scheme, owner :: repo :: ref.toList ++ (rev.map gitRev).toList,
        queryOf narHash host⟩ := by
  obtain ⟨rfl, ref', revText, host', haccepted⟩ := inputFromAttrs_ok haccept
  obtain ⟨owner, repo, ref, rev, narHash, host, howner, hrepo, href, hrev, hnar, hhost, hurl⟩ :=
    toURL_ok hurl
  obtain rfl : ref' = ref :=
    Option.map_injective string_injective (haccepted.refAttr.symm.trans href)
  obtain rfl : host' = host :=
    Option.map_injective string_injective (haccepted.hostAttr.symm.trans hhost)
  have hrevText := haccepted.revAttr
  refine ⟨owner, repo, ref', rev, narHash, host', ⟨howner, hrepo, href, hrev, hnar, hhost, ?_,
    haccepted.legal, ?_, haccepted.hostName⟩, hurl⟩
  · refine haccepted.refOrRev.imp_right fun hnone => ?_
    rw [hnone] at hrevText
    rw [getRev_eq_none.mpr hrevText, Except.ok.injEq] at hrev
    exact hrev.symm
  · rintro hash rfl
    cases revText with
    | none =>
        rw [getRev_eq_none.mpr hrevText] at hrev
        cases hrev
    | some s =>
        obtain ⟨hash', hparse⟩ := haccepted.sha1 s rfl
        exact algo_of_getRev hrevText hparse hrev

section Rendered

variable {scheme : Scheme} {input : Attrs} {owner repo : Bytes} {ref : Option Bytes}
  {rev narHash : Option Hash} {host : Option Bytes}

theorem ref_of_fromPath {s : Bytes} {pathAttrs : Attrs}
    (h : fromPath (owner :: repo :: [s].filter (· ≠ [])) = .ok pathAttrs)
    (href : pathAttrs.find? (str "ref") = some (.string s)) : s ≠ [] ∧ revRegex s = false := by
  by_cases hs : s = []
  · subst hs
    cases h
    rw [SortedMap.find?_empty] at href
    cases href
  · refine ⟨hs, ?_⟩
    have hfilter : [s].filter (· ≠ []) = [s] := by simp [hs]
    rw [hfilter] at h
    cases h
    rw [Bool.eq_false_iff]
    intro hregex
    rw [if_pos hregex, SortedMap.find?_assign_of_ne (str_ne_str (by decide)),
      SortedMap.find?_empty] at href
    cases href

theorem kept_of_survives (h : Rendered settings input owner repo ref rev narHash host)
    (hsurvives : Survives settings (.gitArchive scheme) input ⟨schemeName scheme,
      owner :: repo :: ref.toList ++ (rev.map gitRev).toList, queryOf narHash host⟩) :
    Kept input := by
  obtain ⟨input', hfrom, hsame⟩ := hsurvives
  obtain ⟨pathAttrs, hpath, hinput⟩ := inputFromURL_eq_ok.mp hfrom
  obtain ⟨rfl, -⟩ := inputFromAttrs_ok hinput
  obtain ⟨⟨owner', repo', rest, hsegs⟩, habsent⟩ := fromPath_ok hpath
  have hne : ∀ s ∈ owner' :: repo' :: rest, s ≠ [] := by
    intro s hs
    rw [← hsegs] at hs
    exact of_decide_eq_true (List.mem_filter.mp hs).2
  rw [hsegs] at hsame
  obtain ⟨howner, hrepo, -, -, hpathAttrs⟩ :=
    find?_attrsOfURL scheme pathAttrs owner' repo' narHash host
  have hownerEq : owner' = owner := by
    have heq := hsame.attrs (str "owner") (by simp)
    rw [h.ownerAttr] at heq
    exact Attr.string.inj (Option.some.inj (howner.symm.trans heq))
  have hrepoEq : repo' = repo := by
    have heq := hsame.attrs (str "repo") (by simp)
    rw [h.repoAttr] at heq
    exact Attr.string.inj (Option.some.inj (hrepo.symm.trans heq))
  subst hownerEq hrepoEq
  have howner' : owner' ≠ [] := hne owner' List.mem_cons_self
  have hrepo' : repo' ≠ [] := hne repo' (List.mem_cons_of_mem _ List.mem_cons_self)
  refine ⟨?_, ?_, ?_, fun s hs => ?_⟩
  · have heq := hsame.attrs (str "id") (by simp)
    rw [← heq]
    exact (hpathAttrs _ (by simp)).trans (habsent _ (by simp))
  · rw [h.ownerAttr]
    simpa using howner'
  · rw [h.repoAttr]
    simpa using hrepo'
  · have hrefEq : ref = some s := by
      rw [h.refAttr, Option.map_eq_some_iff] at hs
      obtain ⟨s', rfl, hs⟩ := hs
      rw [Attr.string.inj hs]
    rcases h.refOrRev with hnone | hnone
    · rw [hnone] at hrefEq
      cases hrefEq
    · have heq := hsame.attrs (str "ref") (by simp)
      rw [hs] at heq
      subst hrefEq hnone
      refine @ref_of_fromPath owner' repo' s pathAttrs ?_ ?_
      · rw [← hpath]
        simp [List.filter_cons, howner', hrepo']
      · exact (hpathAttrs _ (by simp)).symm.trans heq

theorem survives_of_kept (h : Rendered settings input owner repo ref rev narHash host)
    (hkept : Kept input) :
    Survives settings (.gitArchive scheme) input ⟨schemeName scheme,
      owner :: repo :: ref.toList ++ (rev.map gitRev).toList, queryOf narHash host⟩ := by
  have howner : owner ≠ [] := fun hnil => hkept.owner (by rw [h.ownerAttr, hnil])
  have hrepo : repo ≠ [] := fun hnil => hkept.repo (by rw [h.repoAttr, hnil])
  have href : ∀ s, ref = some s → s ≠ [] ∧ revRegex s = false := by
    rintro s rfl
    exact hkept.ref s h.refAttr
  have hsegs : (owner :: repo :: ref.toList ++ (rev.map gitRev).toList).filter (· ≠ []) =
      owner :: repo :: ref.toList ++ (rev.map gitRev).toList := by
    rw [List.cons_append, List.filter_cons_of_pos (by simpa using howner),
      Indirect.filter_path hrepo fun s hs => (href s hs).1]
  obtain ⟨pathAttrs, hpath, hpathRef, hpathRev⟩ := @fromPath_segment owner repo ref rev h.refOrRev
    h.sha1 fun s hs => (href s hs).2
  obtain ⟨-, habsent⟩ := fromPath_ok hpath
  obtain ⟨houtOwner, houtRepo, houtNar, houtHost, hout⟩ :=
    find?_attrsOfURL scheme pathAttrs owner repo narHash host
  rw [habsent _ (by simp), Option.or_none] at houtNar houtHost
  have houtRef := (hout (str "ref") (by simp)).trans hpathRef
  have houtRev := (hout (str "rev") (by simp)).trans hpathRev
  have haccepted : Accepted settings (attrsOfURL scheme pathAttrs owner repo narHash host) ref
      (rev.map gitRev) host := by
    refine ⟨⟨owner, houtOwner⟩, ⟨repo, houtRepo⟩, houtRef, houtRev, houtHost, ?_, h.legal, ?_,
      h.hostName⟩
    · exact h.refOrRev.imp_right fun hnone => by rw [hnone, Option.map_none]
    · intro s hs
      obtain ⟨hash, hhash, rfl⟩ := Option.map_eq_some_iff.mp hs
      exact ⟨hash, parseAny_gitRev_sha1 (h.sha1 hash hhash)⟩
  refine ⟨attrsOfURL scheme pathAttrs owner repo narHash host,
    inputFromURL_eq_ok.mpr ⟨pathAttrs, ?_, ?_⟩, ⟨fun name hname => ?_, ?_, ?_⟩⟩
  · rw [hsegs]
    exact hpath
  · rw [hsegs]
    exact inputFromAttrs_of_accepted haccepted
  · simp only [List.mem_cons, List.not_mem_nil, or_false] at hname
    rcases hname with rfl | rfl | rfl | rfl | rfl
    · rw [hout _ (by simp), habsent _ (by simp), hkept.id]
    · rw [houtOwner, h.ownerAttr]
    · rw [houtRepo, h.repoAttr]
    · rw [houtRef, h.refAttr]
    · rw [houtHost, h.hostAttr]
  · rw [h.getRev]
    cases rev with
    | none => exact getRev_eq_none.mpr houtRev
    | some hash => exact getRev_gitRev (h.sha1 hash rfl) houtRev
  · rw [h.getNarHash]
    rcases getNarHash_ok h.getNarHash with ⟨rfl, -⟩ | ⟨hash, rfl, hsha⟩
    · have hmaybe := maybeGetStrAttr_eq_ok.mpr houtNar
      rw [getNarHash, hmaybe]
      rfl
    · exact getNarHash_toString hsha houtNar

end Rendered

theorem survives_iff {scheme : Scheme} {attrs input : Attrs} {url : ParsedURL}
    (haccept : inputFromAttrs settings attrs = .ok input)
    (hurl : toURL settings scheme input = .ok url) :
    Survives settings (.gitArchive scheme) input url ↔ Kept input := by
  obtain ⟨owner, repo, ref, rev, narHash, host, hrendered, rfl⟩ := rendered_of_ok haccept hurl
  exact ⟨kept_of_survives hrendered, survives_of_kept hrendered⟩

end GitArchive

/-! ### Which inputs survive -/

/-- The inputs of a scheme that a URL can name. -/
def Kept (settings : Settings) (scheme : Scheme) (input : Attrs) : Prop :=
  match scheme with
  | .indirect => Indirect.Kept settings input
  | .gitArchive _ => GitArchive.Kept input

/-- An accepted input that has a URL is read back from it when no attribute of it is one that the
scheme does not print, and the printed segments are what the URL is read as. -/
theorem survives_iff_kept {settings : Settings} {scheme : Scheme} {attrs input : Attrs}
    {url : ParsedURL} (haccept : inputFromAttrs settings scheme attrs = .ok input)
    (hurl : toURL settings scheme input = .ok url) :
    Survives settings scheme input url ↔ Kept settings scheme input := by
  cases scheme with
  | indirect => exact Indirect.survives_iff haccept hurl
  | gitArchive scheme => exact GitArchive.survives_iff haccept hurl

/-- Every feature is enabled, and every name of a reference is valid. -/
def anySettings : Settings := ⟨fun _ => true, fun _ => true⟩

/-- `nixpkgs` with the hash of its contents. -/
def nixpkgsWithNarHash : Attrs :=
  SortedMap.ofList [(str "id", .string (str "nixpkgs")),
    (str "narHash", .string (zeroSha256.toString .sri true)),
    (str "type", .string (str "indirect"))]

def nixpkgs : Attrs :=
  SortedMap.ofList [(str "id", .string (str "nixpkgs")), (str "type", .string (str "indirect"))]

theorem survives_iff_kept_nixpkgs :
    Survives anySettings .indirect nixpkgs ⟨str "flake", [str "nixpkgs"], .empty⟩ ↔
      Kept anySettings .indirect nixpkgs :=
  @survives_iff_kept anySettings .indirect nixpkgs nixpkgs ⟨str "flake", [str "nixpkgs"], .empty⟩
    (by rfl) (by rfl)

/-- The URL of an indirect input does not have the hash of the contents. -/
theorem not_survives_narHash :
    ¬∀ (settings : Settings) (scheme : Scheme) (attrs input : Attrs) (url : ParsedURL),
      inputFromAttrs settings scheme attrs = .ok input → toURL settings scheme input = .ok url →
        Survives settings scheme input url := by
  intro h
  obtain ⟨input', hfrom, hsame⟩ := h anySettings .indirect nixpkgsWithNarHash nixpkgsWithNarHash
    ⟨str "flake", [str "nixpkgs"], .empty⟩ (by rfl) (by rfl)
  have hinput : inputFromURL anySettings .indirect ⟨str "flake", [str "nixpkgs"], .empty⟩ =
      .ok (some nixpkgs) := by rfl
  rw [hinput] at hfrom
  cases hfrom
  have hnone : getNarHash anySettings nixpkgs = .ok none := by rfl
  have hsome : getNarHash anySettings nixpkgsWithNarHash = .ok (some zeroSha256) :=
    getNarHash_toString rfl (by rfl)
  have hnar := hsame.narHash
  rw [hnone, hsome] at hnar
  cases hnar

end Nix.Flake.InputUrls
