import Nix.Store.DerivationOutputs
import Nix.Util.HashTexts
import Mathlib.Data.Set.Function
import Mathlib.Order.CompletePartialOrder

/-!
The texts whose hashes are the hash parts of store paths tell apart what the paths
are made for.
-/

set_option linter.dupNamespace false

namespace Nix.Store.StoreDirs

open Util.Types Util.BaseN Util.Hashes Util.CanonPaths Lib.Delimited Lib.Results Lib.SortedList
  Store.Path Store.PathInfo Store.ContentAddresses Store.DerivationOutputs
open StoreDirConfig (StoreReferences)

/-- A content address that is not `Text`, with references. -/
structure FixedOutputInfo where
  ca : ContentAddress
  ingests : ca.method ≠ .text
  references : StoreReferences := {}

inductive ContentAddressWithReferences
  | text (hash : Hash) (references : StorePathSet)
  | fixed (info : FixedOutputInfo)

/-- What a store path can be made for. -/
inductive Request
  | output (id : Bytes) (hash : Hash) (name : Bytes)
  | contentAddressed (name : Bytes) (ca : ContentAddressWithReferences)

/-- The arguments of `makeStorePath`. -/
structure StorePathArgs where
  type : Bytes
  hash : Hash
  name : Bytes
  deriving DecidableEq

/-- The payload of an address whose path is that of an output. -/
def payload (xp : ExperimentalFeatureSettings) (ca : ContentAddress) : Except Error Bytes := do
  let pre ← renderPrefix xp ca.method
  return str "fixed:out:" ++ pre ++ ca.hash.toBase16 true ++ str ":"

namespace StoreDirConfig

variable (cfg : StoreDirConfig) (xp : ExperimentalFeatureSettings)

def makeOutputPath (id : Bytes) (hash : Hash) (name : Bytes) : Except Error StorePath :=
  cfg.makeStorePath (str "output:" ++ id) (hash.toBase16 true) (outputPathName name id)

/-- `makeFixedOutputPathFromCA`, with references. -/
def makePathFromCA (name : Bytes) : ContentAddressWithReferences → Except Error StorePath
  | .text hash references =>
      if hash.algo ≠ .sha256 then
        .error (.assertion "ti.hash.algo == HashAlgorithm::SHA256")
      else cfg.makeStorePath (cfg.makeType (str "text") { others := references })
        (hash.toBase16 true) name
  | .fixed info => cfg.makeFixedOutputPath xp name info.ca info.references

def make : Request → Except Error StorePath
  | .output id hash name => cfg.makeOutputPath id hash name
  | .contentAddressed name ca => cfg.makePathFromCA xp name ca

/-- The text that `makeStorePath` hashes. -/
def fingerprint (type hash name : Bytes) : Bytes :=
  type ++ str ":" ++ hash ++ str ":" ++ cfg.storeDir ++ str ":" ++ name

theorem makeStorePath_eq (type hash name : Bytes) :
    cfg.makeStorePath type hash name =
      ofHash (compressHash (cfg.hashString (cfg.fingerprint type hash name)).bytes 20) name := rfl

def fingerprintOf (args : StorePathArgs) : Bytes :=
  cfg.fingerprint args.type (args.hash.toBase16 true) args.name

/-- What a request hands to `makeStorePath`. -/
def storePathArgs : Request → Except Error StorePathArgs
  | .output id hash name => .ok ⟨str "output:" ++ id, hash, outputPathName name id⟩
  | .contentAddressed name (.text hash references) =>
      if hash.algo ≠ .sha256 then
        .error (.assertion "ti.hash.algo == HashAlgorithm::SHA256")
      else .ok ⟨cfg.makeType (str "text") { others := references }, hash, name⟩
  | .contentAddressed name (.fixed info) =>
      if info.ca.method = .git ∧ ¬ (info.ca.hash.algo = .sha1 ∨ info.ca.hash.algo = .sha256) then
        .error ⟨.error,
          ⟨"Git file ingestion must use SHA-1 or SHA-256 hash, but instead using: %s",
            [printHashAlgo info.ca.hash.algo]⟩⟩
      else if info.ca.hash.algo = .sha256 ∧ info.ca.method = .nixArchive then
        .ok ⟨cfg.makeType (str "source") info.references, info.ca.hash, name⟩
      else if info.references.others.elems ≠ [] ∨ info.references.self then
        .error ⟨.error,
          ⟨"fixed output derivation '%s' is not allowed to refer to other store paths.\nYou may need to use the 'unsafeDiscardReferences' derivation attribute, see the manual for more details.",
            [name]⟩⟩
      else do
        let payload ← payload xp info.ca
        return ⟨str "output:out", cfg.hashString payload, name⟩

theorem make_eq (r : Request) : cfg.make xp r = (do
    let args ← cfg.storePathArgs xp r
    cfg.makeStorePath args.type (args.hash.toBase16 true) args.name) := by
  cases r with
  | output id hash name => rfl
  | contentAddressed name ca =>
    cases ca with
    | text hash references =>
      rw [make, makePathFromCA, storePathArgs]
      split_ifs <;> rfl
    | fixed info =>
      rw [make, makePathFromCA, makeFixedOutputPath, storePathArgs]
      split_ifs
      · rfl
      · rfl
      · rfl
      · rw [payload]
        cases renderPrefix xp info.ca.method <;> rfl

end StoreDirConfig

section

variable {cfg : StoreDirConfig} {xp : ExperimentalFeatureSettings}

theorem toBase16_true_append_inj {hash hash' : Hash} {s s' : Bytes}
    (h : s ++ 58 :: hash.toBase16 true = s' ++ 58 :: hash'.toBase16 true) :
    s = s' ∧ hash = hash' := by
  have hsplit : ∀ (u : Bytes) (k : Hash), u ++ 58 :: k.toBase16 true =
      (u ++ 58 :: printHashAlgo k.algo) ++ 58 :: base16.encode k.bytes := by
    intro u k
    rw [toBase16_true, List.append_assoc, List.cons_append]
  rw [hsplit, hsplit] at h
  obtain ⟨halgos, hbytes⟩ := append_part_inj (notMem_base16 _) (notMem_base16 _) h
  obtain ⟨hs, halgo⟩ := append_part_inj (notMem_printHashAlgo _).1 (notMem_printHashAlgo _).1 halgos
  exact ⟨hs, ext_base16 (printHashAlgo_injective halgo) hbytes⟩

theorem notMem_name {name : Bytes} (h : checkName name = .ok ()) : 58 ∉ name := fun hin => by
  have hchar := isNameChar_of_checkName h hin
  rw [not_isNameChar _ (by simp)] at hchar
  cases hchar

theorem fingerprintOf_inj (hdir : 58 ∉ cfg.storeDir) {args args' : StorePathArgs}
    (hname : checkName args.name = .ok ()) (hname' : checkName args'.name = .ok ())
    (h : cfg.fingerprintOf args = cfg.fingerprintOf args') : args = args' := by
  obtain ⟨type, hash, name⟩ := args
  obtain ⟨type', hash', name'⟩ := args'
  have hsplit : ∀ (t : Bytes) (k : Hash) (n : Bytes), cfg.fingerprintOf ⟨t, k, n⟩ =
      ((t ++ 58 :: k.toBase16 true) ++ 58 :: cfg.storeDir) ++ 58 :: n := by
    intro t k n
    have hcolon : str ":" = [58] := rfl
    simp [StoreDirConfig.fingerprintOf, StoreDirConfig.fingerprint, hcolon]
  rw [hsplit, hsplit] at h
  obtain ⟨hdirs, rfl⟩ := append_part_inj (notMem_name hname) (notMem_name hname') h
  obtain ⟨hhashes, -⟩ := append_part_inj hdir hdir hdirs
  obtain ⟨rfl, rfl⟩ := toBase16_true_append_inj hhashes
  rfl

theorem head_storeDir (cfg : StoreDirConfig) : ∃ t, cfg.storeDir = slash :: t := by
  obtain ⟨cs, -, hdir⟩ := cfg.canonical
  rw [hdir]
  cases cs with
  | nil => exact ⟨[], rfl⟩
  | cons c cs => exact ⟨_, by rw [render_eq_join (List.cons_ne_nil _ _), join_cons]⟩

/-- The end of the references: nothing, or the path itself. -/
def selfText (self : Bool) : Bytes :=
  if self then str ":self" else []

theorem atBoundary_references (cfg : StoreDirConfig) (ps : List StorePath) (self : Bool) :
    AtBoundary 58 (ps.flatMap (fun p => str ":" ++ cfg.print p) ++ selfText self) := by
  cases ps with
  | nil =>
    cases self with
    | false => exact .inl rfl
    | true => exact .inr ⟨_, rfl⟩
  | cons p ps => exact .inr ⟨_, rfl⟩

theorem print_append_ne_self (cfg : StoreDirConfig) (p : StorePath) (s : Bytes) (self : Bool) :
    selfText self ≠ str ":" ++ cfg.print p ++ s := by
  obtain ⟨t, hdir⟩ := head_storeDir cfg
  intro h
  rw [StoreDirConfig.print, printStorePath, hdir] at h
  cases self with
  | false => cases h
  | true =>
    obtain ⟨-, htail⟩ := List.cons.inj h
    exact absurd (List.cons.inj htail).1 (by decide)

theorem print_append_inj {sep : UInt8} (hsep : isNameChar sep = false) {p q : StorePath}
    {s t : Bytes} (hs : AtBoundary sep s) (ht : AtBoundary sep t)
    (h : cfg.print p ++ s = cfg.print q ++ t) : p = q ∧ s = t := by
  have hsplit : ∀ (r : StorePath) (u : Bytes), cfg.print r ++ u =
      (cfg.storeDir ++ str "/") ++ (r.baseName.take (hashLen + 1) ++ (r.name ++ u)) := by
    intro r u
    rw [StoreDirConfig.print, printStorePath, List.append_assoc, ← List.append_assoc (List.take _ _),
      StorePath.name, List.take_append_drop]
  have hlen : ∀ r : StorePath, (r.baseName.take (hashLen + 1)).length = hashLen + 1 := fun r =>
    List.length_take_of_le (length_baseName r)
  have hname : ∀ r : StorePath, sep ∉ r.name := by
    intro r hin
    rw [isNameChar_of_mem_name hin] at hsep
    cases hsep
  rw [hsplit, hsplit] at h
  obtain ⟨hhash, hrest⟩ := List.append_inj (List.append_cancel_left h) ((hlen p).trans (hlen q).symm)
  obtain ⟨hnames, hst⟩ := part_append_inj (hname p) (hname q) hs ht hrest
  refine ⟨StorePath.ext_baseName ?_, hst⟩
  rw [← List.take_append_drop (hashLen + 1) p.baseName, hhash]
  exact (congrArg _ hnames).trans (List.take_append_drop _ _)

theorem references_inj {ps qs : List StorePath} {self self' : Bool}
    (h : ps.flatMap (fun p => str ":" ++ cfg.print p) ++ selfText self =
      qs.flatMap (fun p => str ":" ++ cfg.print p) ++ selfText self') : ps = qs ∧ self = self' := by
  induction ps generalizing qs with
  | nil =>
    cases qs with
    | nil =>
      refine ⟨rfl, ?_⟩
      cases self <;> cases self' <;> first | rfl | cases h
    | cons q qs =>
      rw [List.flatMap_cons, List.append_assoc] at h
      exact absurd h (print_append_ne_self cfg q _ self)
  | cons p ps ih =>
    cases qs with
    | nil =>
      rw [List.flatMap_cons, List.append_assoc] at h
      exact absurd h.symm (print_append_ne_self cfg p _ self')
    | cons q qs =>
      rw [List.flatMap_cons, List.flatMap_cons, List.append_assoc, List.append_assoc,
        List.append_assoc, List.append_assoc] at h
      obtain ⟨rfl, hrest⟩ := print_append_inj (not_isNameChar 58 (by simp))
        (atBoundary_references cfg ps self) (atBoundary_references cfg qs self')
        (List.append_cancel_left h)
      obtain ⟨rfl, hself⟩ := ih hrest
      exact ⟨rfl, hself⟩

theorem makeType_inj {tag tag' : Bytes} (htag : 58 ∉ tag) (htag' : 58 ∉ tag')
    {r r' : StoreReferences} (h : cfg.makeType tag r = cfg.makeType tag' r') :
    tag = tag' ∧ r = r' := by
  rw [StoreDirConfig.makeType, StoreDirConfig.makeType, List.append_assoc, List.append_assoc] at h
  obtain ⟨rfl, hrest⟩ := part_append_inj htag htag' (atBoundary_references cfg _ r.self)
    (atBoundary_references cfg _ r'.self) h
  obtain ⟨hothers, hself⟩ := references_inj hrest
  obtain ⟨⟨elems, sorted⟩, self⟩ := r
  obtain ⟨⟨elems', sorted'⟩, self'⟩ := r'
  cases hothers
  cases hself
  exact ⟨rfl, rfl⟩

/-- What stands before the first colon of a prefixed hash. -/
def firstField (ca : ContentAddress) : Bytes :=
  match ca.method with
  | .text => str "text"
  | .flat => printHashAlgo ca.hash.algo
  | .nixArchive => str "r"
  | .git => str "git"

theorem firstField_prefix {ca : ContentAddress} {pre : Bytes}
    (h : renderPrefix xp ca.method = .ok pre) :
    ∃ rest, pre ++ ca.hash.toBase16 true = firstField ca ++ 58 :: rest := by
  unfold firstField
  cases hmethod : ca.method with
  | flat =>
    rw [hmethod] at h
    cases h
    exact ⟨_, toBase16_true ca.hash⟩
  | text =>
    rw [hmethod] at h
    cases h
    exact ⟨_, rfl⟩
  | nixArchive =>
    rw [hmethod] at h
    cases h
    exact ⟨_, rfl⟩
  | git =>
    rw [hmethod] at h
    obtain ⟨_, -, heq⟩ := bind_eq_ok.mp h
    cases heq
    exact ⟨_, rfl⟩

theorem notMem_firstField (ca : ContentAddress) : 58 ∉ firstField ca := by
  have htags : ∀ tag ∈ [str "text", str "r", str "git"], (58 : UInt8) ∉ tag := by decide
  unfold firstField
  cases ca.method with
  | flat => exact (notMem_printHashAlgo _).1
  | text => exact htags _ (by simp)
  | nixArchive => exact htags _ (by simp)
  | git => exact htags _ (by simp)

def methodOfHead : Option UInt8 → ContentAddressMethod
  | some 116 => .text
  | some 114 => .nixArchive
  | some 103 => .git
  | _ => .flat

theorem methodOfHead_firstField (ca : ContentAddress) :
    methodOfHead (firstField ca).head? = ca.method := by
  unfold firstField
  cases ca.method with
  | flat => cases ca.hash.algo <;> rfl
  | text => rfl
  | nixArchive => rfl
  | git => rfl

theorem method_eq_of_firstField_eq {ca ca' : ContentAddress} (h : firstField ca = firstField ca') :
    ca.method = ca'.method := by
  rw [← methodOfHead_firstField ca, h, methodOfHead_firstField]

theorem payload_inj {ca ca' : ContentAddress} {text : Bytes} (h : payload xp ca = .ok text)
    (h' : payload xp ca' = .ok text) : ca = ca' := by
  obtain ⟨pre, hpre, heq⟩ := bind_eq_ok.mp h
  obtain ⟨pre', hpre', heq'⟩ := bind_eq_ok.mp h'
  have htext : pre ++ ca.hash.toBase16 true = pre' ++ ca'.hash.toBase16 true := by
    have heqs := Except.ok.inj (heq.trans heq'.symm)
    have htexts := List.append_cancel_right heqs
    rw [List.append_assoc, List.append_assoc] at htexts
    exact List.append_cancel_left htexts
  have hmethod : ca.method = ca'.method := by
    obtain ⟨rest, hrest⟩ := firstField_prefix hpre
    obtain ⟨rest', hrest'⟩ := firstField_prefix hpre'
    rw [hrest, hrest'] at htext
    exact method_eq_of_firstField_eq (part_append_inj (notMem_firstField ca)
      (notMem_firstField ca') (.inr ⟨_, rfl⟩) (.inr ⟨_, rfl⟩) htext).1
  have hhash : ca.hash = ca'.hash := by
    rw [hmethod, hpre'] at hpre
    cases hpre
    have hcolon := congrArg ([] ++ 58 :: ·) (List.append_cancel_left htext)
    exact (toBase16_true_append_inj hcolon).2
  obtain ⟨method, hash⟩ := ca
  obtain ⟨method', hash'⟩ := ca'
  cases hmethod
  cases hhash
  rfl

def Request.Accepted (cfg : StoreDirConfig) (xp : ExperimentalFeatureSettings) (r : Request)
    (fingerprint : Bytes) : Prop :=
  ∃ args, cfg.storePathArgs xp r = .ok args ∧ checkName args.name = .ok () ∧
    cfg.fingerprintOf args = fingerprint

/-- The payload of a request is one of `payloads`, and the hash of a derivation one of
`drvHashes`. -/
def Request.Hashes (xp : ExperimentalFeatureSettings) (payloads : Set Bytes) (drvHashes : Set Hash) : Request → Prop
  | .output _ hash _ => hash ∈ drvHashes
  | .contentAddressed _ (.text _ _) => True
  | .contentAddressed _ (.fixed info) =>
      ¬ (info.ca.hash.algo = .sha256 ∧ info.ca.method = .nixArchive) →
        ∀ text, payload xp info.ca = .ok text → text ∈ payloads

theorem length_compressHash (hash : Bytes) (newSize : Nat) :
    (StoreDirConfig.compressHash hash newSize).length = newSize := by
  rw [StoreDirConfig.compressHash]
  generalize List.range hash.length = indices
  have hstart : (List.replicate newSize (0 : UInt8)).length = newSize := List.length_replicate
  generalize List.replicate newSize (0 : UInt8) = h at hstart ⊢
  induction indices generalizing h with
  | nil => exact hstart
  | cons i indices ih => exact ih _ ((List.length_modify ..).trans hstart)

/-- What the arguments of `makeStorePath` say about a request. -/
inductive Request.Made (cfg : StoreDirConfig) (xp : ExperimentalFeatureSettings) :
    Request → StorePathArgs → Prop
  | output (id : Bytes) (hash : Hash) (name : Bytes) :
      Made cfg xp (.output id hash name) ⟨str "output" ++ 58 :: id, hash, outputPathName name id⟩
  | text (hash : Hash) (references : StorePathSet) (name : Bytes) :
      Made cfg xp (.contentAddressed name (.text hash references))
        ⟨cfg.makeType (str "text") { others := references }, hash, name⟩
  | source {info : FixedOutputInfo} (hnar : info.ca.method = .nixArchive) (name : Bytes) :
      Made cfg xp (.contentAddressed name (.fixed info))
        ⟨cfg.makeType (str "source") info.references, info.ca.hash, name⟩
  | fixed {info : FixedOutputInfo} (hrefs : info.references = {})
      (hother : ¬ (info.ca.hash.algo = .sha256 ∧ info.ca.method = .nixArchive)) {text : Bytes}
      (hpayload : payload xp info.ca = .ok text) (name : Bytes) :
      Made cfg xp (.contentAddressed name (.fixed info))
        ⟨str "output" ++ 58 :: str "out", cfg.hashString text, name⟩

theorem StoreReferences.eq_empty {r : StoreReferences} (hothers : r.others.elems = [])
    (hself : r.self = false) : r = {} := by
  obtain ⟨⟨elems, sorted⟩, self⟩ := r
  cases hothers
  cases hself
  rfl

theorem Request.made_of_storePathArgs {r : Request} {args : StorePathArgs}
    (h : cfg.storePathArgs xp r = .ok args) : r.Made cfg xp args := by
  cases r with
  | output id hash name =>
    cases h
    exact .output id hash name
  | contentAddressed name ca =>
    cases ca with
    | text hash references =>
      rw [StoreDirConfig.storePathArgs] at h
      split_ifs at h
      cases h
      exact .text hash references name
    | fixed info =>
      rw [StoreDirConfig.storePathArgs] at h
      split_ifs at h with hgit hsource hrefs
      · cases h
        exact .source hsource.2 name
      · obtain ⟨text, hpayload, heq⟩ := bind_eq_ok.mp h
        cases heq
        obtain ⟨hothers, hself⟩ := not_or.mp hrefs
        exact .fixed (StoreReferences.eq_empty (not_not.mp hothers) (by simpa using hself)) hsource
          hpayload name

end

theorem outputPathName_inj {name name' id : Bytes}
    (h : outputPathName name id = outputPathName name' id) : name = name' := by
  unfold outputPathName at h
  split_ifs at h
  · rw [List.append_assoc, List.append_assoc] at h
    exact List.append_cancel_right h
  · exact h

theorem output_ne_makeType {cfg : StoreDirConfig} {tag : Bytes} (htag : 58 ∉ tag)
    (hne : str "output" ≠ tag) (id : Bytes) (references : StoreReferences) :
    str "output" ++ 58 :: id ≠ cfg.makeType tag references := by
  intro h
  rw [StoreDirConfig.makeType, List.append_assoc] at h
  exact hne (part_append_inj (by decide) htag (.inr ⟨_, rfl⟩)
    (atBoundary_references cfg _ references.self) h).1

theorem FixedOutputInfo.ext {info info' : FixedOutputInfo} (hmethod : info.ca.method = info'.ca.method)
    (hhash : info.ca.hash = info'.ca.hash) (hrefs : info.references = info'.references) :
    info = info' := by
  obtain ⟨⟨method, hash⟩, ingests, references⟩ := info
  obtain ⟨⟨method', hash'⟩, ingests', references'⟩ := info'
  cases hmethod
  cases hhash
  cases hrefs
  rfl

/-- Requests of one fingerprint are one request, if SHA-256 is injective on the payloads and
the hashes of derivations are none of theirs. -/
theorem fingerprint_injective (cfg : StoreDirConfig) (xp : ExperimentalFeatureSettings)
    (hdir : 58 ∉ cfg.storeDir) {payloads : Set Bytes} {drvHashes : Set Hash}
    (hinj : Set.InjOn cfg.hashString payloads)
    (hdrv : Disjoint drvHashes (cfg.hashString '' payloads)) {r s : Request}
    (hr : r.Hashes xp payloads drvHashes) (hs : s.Hashes xp payloads drvHashes)
    {fingerprint : Bytes} (hrf : r.Accepted cfg xp fingerprint)
    (hsf : s.Accepted cfg xp fingerprint) : r = s := by
  obtain ⟨args, hargs, hname, hfr⟩ := hrf
  obtain ⟨args', hargs', hname', hfs⟩ := hsf
  have hsame := fingerprintOf_inj hdir hname hname' (hfr.trans hfs.symm)
  have hdistinct : ∀ hash ∈ drvHashes, ∀ text ∈ payloads, hash ≠ cfg.hashString text :=
    fun hash hhash text htext heq => Set.disjoint_left.mp hdrv hhash ⟨text, htext, heq.symm⟩
  cases Request.made_of_storePathArgs hargs with
  | output id hash name =>
    cases Request.made_of_storePathArgs hargs' with
    | output id' hash' name' =>
      obtain ⟨htype, rfl, hnames⟩ := StorePathArgs.mk.inj hsame
      obtain rfl := (List.cons.inj (List.append_cancel_left htype)).2
      rw [outputPathName_inj hnames]
    | text hash' references name' =>
      exact absurd (StorePathArgs.mk.inj hsame).1 (output_ne_makeType (by decide) (by decide) id _)
    | source hnar name' =>
      exact absurd (StorePathArgs.mk.inj hsame).1 (output_ne_makeType (by decide) (by decide) id _)
    | fixed hrefs hother hpayload name' =>
      exact absurd (StorePathArgs.mk.inj hsame).2.1 (hdistinct _ hr _ (hs hother _ hpayload))
  | text hash references name =>
    cases Request.made_of_storePathArgs hargs' with
    | output id' hash' name' =>
      exact absurd (StorePathArgs.mk.inj hsame).1.symm
        (output_ne_makeType (by decide) (by decide) id' _)
    | text hash' references' name' =>
      obtain ⟨htype, rfl, rfl⟩ := StorePathArgs.mk.inj hsame
      cases (makeType_inj (by decide) (by decide) htype).2
      rfl
    | source hnar name' =>
      exact absurd (makeType_inj (by decide) (by decide) (StorePathArgs.mk.inj hsame).1).1
        (by decide)
    | fixed hrefs hother hpayload name' =>
      exact absurd (StorePathArgs.mk.inj hsame).1.symm
        (output_ne_makeType (by decide) (by decide) _ _)
  | source hnar name =>
    cases Request.made_of_storePathArgs hargs' with
    | output id' hash' name' =>
      exact absurd (StorePathArgs.mk.inj hsame).1.symm
        (output_ne_makeType (by decide) (by decide) id' _)
    | text hash' references' name' =>
      exact absurd (makeType_inj (by decide) (by decide) (StorePathArgs.mk.inj hsame).1).1
        (by decide)
    | source hnar' name' =>
      obtain ⟨htype, hhash, rfl⟩ := StorePathArgs.mk.inj hsame
      rw [FixedOutputInfo.ext (hnar.trans hnar'.symm) hhash
        (makeType_inj (by decide) (by decide) htype).2]
    | fixed hrefs hother hpayload name' =>
      exact absurd (StorePathArgs.mk.inj hsame).1.symm
        (output_ne_makeType (by decide) (by decide) _ _)
  | fixed hrefs hother hpayload name =>
    cases Request.made_of_storePathArgs hargs' with
    | output id' hash' name' =>
      exact absurd (StorePathArgs.mk.inj hsame).2.1.symm (hdistinct _ hs _ (hr hother _ hpayload))
    | text hash' references' name' =>
      exact absurd (StorePathArgs.mk.inj hsame).1 (output_ne_makeType (by decide) (by decide) _ _)
    | source hnar' name' =>
      exact absurd (StorePathArgs.mk.inj hsame).1 (output_ne_makeType (by decide) (by decide) _ _)
    | fixed hrefs' hother' hpayload' name' =>
      obtain ⟨-, hdigest, rfl⟩ := StorePathArgs.mk.inj hsame
      have htext := hinj (hr hother _ hpayload) (hs hother' _ hpayload') hdigest
      have hca := payload_inj hpayload (htext ▸ hpayload')
      rw [FixedOutputInfo.ext (congrArg _ hca) (congrArg _ hca) (hrefs.trans hrefs'.symm)]

def zeroHash : Hash := ⟨.sha256, List.replicate 32 0, length_zeros⟩

def zeroPayload : Bytes := str "fixed:out:sha256:" ++ List.replicate 64 48 ++ str ":"

def sha256OfZero (s : Bytes) : { digest : Bytes // digest.length = 32 } :=
  if s = zeroPayload then
    ⟨[164, 45, 152, 186, 46, 137, 232, 216, 192, 12, 193, 146, 228, 46, 232, 227,
      144, 37, 153, 181, 203, 75, 250, 232, 26, 241, 54, 187, 120, 81, 44, 189], rfl⟩
  else ⟨List.replicate 32 0, length_zeros⟩

def fetchDirs : StoreDirConfig where
  storeDir := str "/nix/store"
  canonical := canonical_nixStore
  sha256 := sha256OfZero

def fetchedFile (references : StoreReferences) : Request :=
  .contentAddressed (str "file") (.fixed ⟨⟨.flat, zeroHash⟩, by decide, references⟩)

theorem fingerprint_injective_fetchedFile :
    fetchedFile {} = fetchedFile { others := .ofList [], self := false } := by
  have hpayload : payload (fun _ => false) ⟨.flat, zeroHash⟩ = .ok zeroPayload := by decide
  have hhashes : ∀ references, (fetchedFile references).Hashes (fun _ => false) {zeroPayload}
      {zeroHash} := fun _ _ text htext => Except.ok.inj (htext.symm.trans hpayload)
  have hdigest : zeroHash ≠ fetchDirs.hashString zeroPayload := by decide
  have hargs : fetchDirs.storePathArgs (fun _ => false) (fetchedFile {}) =
      .ok ⟨str "output:out", fetchDirs.hashString zeroPayload, str "file"⟩ := by decide
  have haccepted : (fetchedFile {}).Accepted fetchDirs (fun _ => false)
      (fetchDirs.fingerprintOf
        ⟨str "output:out", fetchDirs.hashString zeroPayload, str "file"⟩) :=
    ⟨_, hargs, by decide, rfl⟩
  refine fingerprint_injective fetchDirs (fun _ => false) (by decide)
    (Set.injOn_singleton _ zeroPayload) ?_ (hhashes _) (hhashes _) haccepted haccepted
  rw [Set.image_singleton, Set.disjoint_singleton]
  exact hdigest

end Nix.Store.StoreDirs
