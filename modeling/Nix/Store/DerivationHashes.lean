import Nix.Store.Derivations

/-!
What the cache of `pathDerivationModulo` does to the hashes of derivations: it keeps what
it has, and what was hashed with it is hashed to the same with any later cache.
-/

set_option linter.dupNamespace false

namespace Nix.Store.Derivations

open Util.Types Util.Hashes Lib.SortedList
open Nix.Lib
open Lib.PrefixReader hiding bind_eq_ok pure_eq_ok
open Lib.Results Store.Path Store.PathInfo Store.ContentAddresses Store.StoreDirs
  Store.DerivationOutputs

theorem fromExcept_eq_ok {σ α : Type} {x : Except Error α} {s t : σ} {a : α} :
    (fromExcept x : Reader σ Error α) s = .ok (a, t) ↔ x = .ok a ∧ s = t := by
  rw [fromExcept, map_eq_ok]
  constructor
  · rintro ⟨b, hx, heq⟩
    obtain ⟨rfl, rfl⟩ := Prod.mk.inj heq
    exact ⟨hx, rfl⟩
  · rintro ⟨hx, rfl⟩
    exact ⟨a, hx, rfl⟩

theorem fromExcept_ok {σ α : Type} {x : Except Error α} {a : α} (h : x = .ok a) (s : σ) :
    (fromExcept x : Reader σ Error α) s = .ok (a, s) :=
  fromExcept_eq_ok.mpr ⟨h, rfl⟩

/-! ### The type -/

namespace DerivationOutput

def kind : DerivationOutput → DerivationType
  | .inputAddressed _ => .inputAddressed false
  | .caFixed _ => .contentAddressed false true
  | .caFloating _ _ => .contentAddressed true false
  | .deferred => .inputAddressed true
  | .impure _ _ => .impure

end DerivationOutput

theorem decideType_eq_ok {newTy ty : DerivationType} {s : Option DerivationType}
    (h : decideType newTy s = .ok ty) : ty = newTy ∧ ∀ old ∈ s, old = newTy := by
  cases s with
  | none =>
    cases h
    exact ⟨rfl, by simp⟩
  | some old =>
    rw [decideType] at h
    split_ifs at h with hne hfixed
    cases h
    have heq := not_not.mp hne
    exact ⟨heq, by simpa using heq⟩

theorem typeStep_eq_ok {s s' : TypeSoFar} {i : Bytes × DerivationOutput}
    (h : typeStep s i = .ok s') :
    s'.ty = some (DerivationOutput.kind i.2) ∧ ∀ old ∈ s.ty, old = DerivationOutput.kind i.2 := by
  obtain ⟨k, o⟩ := i
  cases o with
  | inputAddressed path =>
    obtain ⟨ty, hty, heq⟩ := bind_eq_ok.mp h
    obtain ⟨rfl, hold⟩ := decideType_eq_ok hty
    cases heq
    exact ⟨rfl, hold⟩
  | caFixed ca =>
    obtain ⟨ty, hty, heq⟩ := bind_eq_ok.mp h
    obtain ⟨rfl, hold⟩ := decideType_eq_ok hty
    split_ifs at heq
    cases heq
    exact ⟨rfl, hold⟩
  | caFloating method hashAlgo =>
    obtain ⟨ty, hty, heq⟩ := bind_eq_ok.mp h
    obtain ⟨rfl, hold⟩ := decideType_eq_ok hty
    split at heq
    · cases heq
      exact ⟨rfl, hold⟩
    · split_ifs at heq
      cases heq
      exact ⟨rfl, hold⟩
  | deferred =>
    obtain ⟨ty, hty, heq⟩ := bind_eq_ok.mp h
    obtain ⟨rfl, hold⟩ := decideType_eq_ok hty
    cases heq
    exact ⟨rfl, hold⟩
  | impure method hashAlgo =>
    obtain ⟨ty, hty, heq⟩ := bind_eq_ok.mp h
    obtain ⟨rfl, hold⟩ := decideType_eq_ok hty
    cases heq
    exact ⟨rfl, hold⟩

theorem foldlM_typeStep {l : List (Bytes × DerivationOutput)} {s s' : TypeSoFar}
    (h : l.foldlM typeStep s = .ok s') (ty : DerivationType) (hty : s'.ty = some ty) :
    (∀ e ∈ l, DerivationOutput.kind e.2 = ty) ∧ ∀ old ∈ s.ty, old = ty := by
  induction l generalizing s with
  | nil =>
    cases h
    refine ⟨by simp, fun old hold => ?_⟩
    exact Option.some.inj (hold.symm.trans hty)
  | cons e l ih =>
    rw [List.foldlM_cons] at h
    obtain ⟨s₁, hstep, hrest⟩ := bind_eq_ok.mp h
    obtain ⟨hnew, hold⟩ := typeStep_eq_ok hstep
    obtain ⟨hl, hs₁⟩ := ih hrest
    have hkind := hs₁ _ hnew
    refine ⟨fun f hf => ?_, fun old hmem => (hold old hmem).trans hkind⟩
    rcases List.mem_cons.mp hf with rfl | hf
    · exact hkind
    · exact hl f hf

theorem Derivation.kind_of_type {drv : Derivation} {ty : DerivationType} (h : drv.type = .ok ty) :
    ∀ e ∈ drv.outputs.elems, DerivationOutput.kind e.2 = ty := by
  obtain ⟨s, hfold, hs⟩ := bind_eq_ok.mp h
  split at hs
  next => cases hs
  next ty' hty' =>
    cases hs
    exact (foldlM_typeStep hfold ty hty').1

theorem Derivation.outputs_ne_nil {drv : Derivation} {ty : DerivationType}
    (h : drv.type = .ok ty) : drv.outputs.elems ≠ [] := by
  intro hnil
  rw [Derivation.type, hnil] at h
  cases h

/-! ### The cache -/

def Extends (drvHashes drvHashes' : DrvHashes) : Prop :=
  ∀ p h, drvHashes.find? p = some h → drvHashes'.find? p = some h

theorem Extends.refl (drvHashes : DrvHashes) : Extends drvHashes drvHashes := fun _ _ h => h

theorem Extends.trans {a b c : DrvHashes} (h : Extends a b) (h' : Extends b c) : Extends a c :=
  fun p r hr => h' p r (h p r hr)

def Caches (f : StorePath → Hashing DrvHashModulo) : Prop :=
  ∀ p drvHashes h drvHashes', f p drvHashes = .ok (h, drvHashes') →
    Extends drvHashes drvHashes' ∧ drvHashes'.find? p = some h

def Recalls (f : StorePath → Hashing DrvHashModulo) : Prop :=
  ∀ p drvHashes h, drvHashes.find? p = some h → f p drvHashes = .ok (h, drvHashes)

section

variable {store : DerivationStore} {xp : ExperimentalFeatureSettings}
  {f g : StorePath → Hashing DrvHashModulo}

theorem hashInputs_extends (hf : Caches f) {drvName : Bytes} {l : List (StorePath × ChildNode)}
    {inputs2 : ChildNode.Map} {r : Option ChildNode.Map} {drvHashes drvHashes' : DrvHashes}
    (h : hashInputs f drvName l inputs2 drvHashes = .ok (r, drvHashes')) :
    Extends drvHashes drvHashes' := by
  induction l generalizing inputs2 drvHashes with
  | nil =>
    obtain ⟨-, rfl⟩ := PrefixReader.pure_eq_ok.mp h
    exact .refl _
  | cons e l ih =>
    rw [hashInputs] at h
    split_ifs at h with hleaf
    · obtain ⟨-, rfl⟩ := PrefixReader.pure_eq_ok.mp h
      exact .refl _
    · obtain ⟨hash, drvHashes₁, hhash, hrest⟩ := PrefixReader.bind_eq_ok.mp h
      have hext := (hf _ _ _ _ hhash).1
      cases hash with
      | deferredDrv =>
        obtain ⟨-, rfl⟩ := PrefixReader.pure_eq_ok.mp hrest
        exact hext
      | drvHash hash => exact hext.trans (ih hrest)
      | caOutputHashes hashes =>
        obtain ⟨inputs2', _, hfold, hrest⟩ := PrefixReader.bind_eq_ok.mp hrest
        obtain ⟨-, rfl⟩ := fromExcept_eq_ok.mp hfold
        exact hext.trans (ih hrest)

theorem hashInputs_again (hf : Caches f) (hg : Recalls g) {drvName : Bytes}
    {l : List (StorePath × ChildNode)} {inputs2 : ChildNode.Map} {r : Option ChildNode.Map}
    {drvHashes drvHashes' later : DrvHashes}
    (h : hashInputs f drvName l inputs2 drvHashes = .ok (r, drvHashes'))
    (hlater : Extends drvHashes' later) :
    hashInputs g drvName l inputs2 later = .ok (r, later) := by
  induction l generalizing inputs2 drvHashes with
  | nil =>
    obtain ⟨rfl, -⟩ := PrefixReader.pure_eq_ok.mp h
    rfl
  | cons e l ih =>
    rw [hashInputs] at h ⊢
    split_ifs at h ⊢ with hleaf
    · obtain ⟨rfl, -⟩ := PrefixReader.pure_eq_ok.mp h
      rfl
    · obtain ⟨hash, drvHashes₁, hhash, hrest⟩ := PrefixReader.bind_eq_ok.mp h
      have hcached : g e.1 later = .ok (hash, later) := by
        apply hg
        apply hlater
        cases hash with
        | deferredDrv =>
          obtain ⟨-, rfl⟩ := PrefixReader.pure_eq_ok.mp hrest
          exact (hf _ _ _ _ hhash).2
        | drvHash hash => exact hashInputs_extends hf hrest _ _ (hf _ _ _ _ hhash).2
        | caOutputHashes hashes =>
          obtain ⟨inputs2', _, hfold, hrest⟩ := PrefixReader.bind_eq_ok.mp hrest
          obtain ⟨-, rfl⟩ := fromExcept_eq_ok.mp hfold
          exact hashInputs_extends hf hrest _ _ (hf _ _ _ _ hhash).2
      refine PrefixReader.bind_eq_ok.mpr ⟨_, _, hcached, ?_⟩
      cases hash with
      | deferredDrv =>
        obtain ⟨rfl, -⟩ := PrefixReader.pure_eq_ok.mp hrest
        rfl
      | drvHash hash => exact ih hrest
      | caOutputHashes hashes =>
        obtain ⟨inputs2', _, hread, hrest⟩ := PrefixReader.bind_eq_ok.mp hrest
        obtain ⟨hfold, rfl⟩ := fromExcept_eq_ok.mp hread
        exact PrefixReader.bind_eq_ok.mpr ⟨_, _, fromExcept_ok hfold _, ih hrest⟩

/-- What the hash of a derivation is made of. -/
inductive Hashed (store : DerivationStore) (xp : ExperimentalFeatureSettings)
    (f : StorePath → Hashing DrvHashModulo) (drv : Derivation) (maskOutputs : Bool)
    (drvHashes : DrvHashes) : DrvHashModulo → DrvHashes → Prop
  | fixed {sandboxed hashes} (hty : drv.type = .ok (.contentAddressed sandboxed true))
      (hhashes : drv.outputs.elems.mapM (outputHash store xp drv.name) = .ok hashes) :
      Hashed store xp f drv maskOutputs drvHashes (.caOutputHashes (SortedMap.ofList hashes)) drvHashes
  | floating {sandboxed} (hty : drv.type = .ok (.contentAddressed sandboxed false)) :
      Hashed store xp f drv maskOutputs drvHashes .deferredDrv drvHashes
  | impure (hty : drv.type = .ok .impure) :
      Hashed store xp f drv maskOutputs drvHashes .deferredDrv drvHashes
  | deferred {isDeferred drvHashes'} (hty : drv.type = .ok (.inputAddressed isDeferred))
      (hinputs : hashInputs f drv.name drv.inputDrvs.elems .empty drvHashes = .ok (none, drvHashes')) :
      Hashed store xp f drv maskOutputs drvHashes .deferredDrv drvHashes'
  | regular {isDeferred inputs2 text drvHashes'} (hty : drv.type = .ok (.inputAddressed isDeferred))
      (hinputs : hashInputs f drv.name drv.inputDrvs.elems .empty drvHashes =
        .ok (some inputs2, drvHashes'))
      (htext : drv.unparse store xp maskOutputs (some inputs2) = .ok text) :
      Hashed store xp f drv maskOutputs drvHashes (.drvHash (store.dirs.hashString text)) drvHashes'

theorem hashDerivationModulo_eq_ok {drv : Derivation} {maskOutputs : Bool} {h : DrvHashModulo}
    {drvHashes drvHashes' : DrvHashes} :
    hashDerivationModulo store xp f drv maskOutputs drvHashes = .ok (h, drvHashes') ↔
      Hashed store xp f drv maskOutputs drvHashes h drvHashes' := by
  constructor
  · intro heq
    obtain ⟨ty, _, hread, hrest⟩ := PrefixReader.bind_eq_ok.mp heq
    obtain ⟨hty, rfl⟩ := fromExcept_eq_ok.mp hread
    cases ty with
    | contentAddressed sandboxed isFixed =>
      cases isFixed with
      | true =>
        obtain ⟨hashes, _, hread, hrest⟩ := PrefixReader.bind_eq_ok.mp hrest
        obtain ⟨hhashes, rfl⟩ := fromExcept_eq_ok.mp hread
        obtain ⟨rfl, rfl⟩ := PrefixReader.pure_eq_ok.mp hrest
        exact .fixed hty hhashes
      | false =>
        obtain ⟨rfl, rfl⟩ := PrefixReader.pure_eq_ok.mp hrest
        exact .floating hty
    | impure =>
      obtain ⟨rfl, rfl⟩ := PrefixReader.pure_eq_ok.mp hrest
      exact .impure hty
    | inputAddressed isDeferred =>
      obtain ⟨r, _, hinputs, hrest⟩ := PrefixReader.bind_eq_ok.mp hrest
      cases r with
      | none =>
        obtain ⟨rfl, rfl⟩ := PrefixReader.pure_eq_ok.mp hrest
        exact .deferred hty hinputs
      | some inputs2 =>
        obtain ⟨text, _, hread, hrest⟩ := PrefixReader.bind_eq_ok.mp hrest
        obtain ⟨htext, rfl⟩ := fromExcept_eq_ok.mp hread
        obtain ⟨rfl, rfl⟩ := PrefixReader.pure_eq_ok.mp hrest
        exact .regular hty hinputs htext
  · intro hhashed
    rw [hashDerivationModulo]
    cases hhashed with
    | fixed hty hhashes =>
      exact PrefixReader.bind_eq_ok.mpr ⟨_, _, fromExcept_ok hty _,
        PrefixReader.bind_eq_ok.mpr ⟨_, _, fromExcept_ok hhashes _, rfl⟩⟩
    | floating hty => exact PrefixReader.bind_eq_ok.mpr ⟨_, _, fromExcept_ok hty _, rfl⟩
    | impure hty => exact PrefixReader.bind_eq_ok.mpr ⟨_, _, fromExcept_ok hty _, rfl⟩
    | deferred hty hinputs =>
      exact PrefixReader.bind_eq_ok.mpr ⟨_, _, fromExcept_ok hty _,
        PrefixReader.bind_eq_ok.mpr ⟨_, _, hinputs, rfl⟩⟩
    | regular hty hinputs htext =>
      exact PrefixReader.bind_eq_ok.mpr ⟨_, _, fromExcept_ok hty _,
        PrefixReader.bind_eq_ok.mpr ⟨_, _, hinputs,
          PrefixReader.bind_eq_ok.mpr ⟨_, _, fromExcept_ok htext _, rfl⟩⟩⟩

theorem Hashed.extends (hf : Caches f) {drv : Derivation} {maskOutputs : Bool} {h : DrvHashModulo}
    {drvHashes drvHashes' : DrvHashes}
    (hhashed : Hashed store xp f drv maskOutputs drvHashes h drvHashes') :
    Extends drvHashes drvHashes' := by
  cases hhashed with
  | fixed hty hhashes => exact .refl _
  | floating hty => exact .refl _
  | impure hty => exact .refl _
  | deferred hty hinputs => exact hashInputs_extends hf hinputs
  | regular hty hinputs htext => exact hashInputs_extends hf hinputs

theorem cached_of_find? {p : StorePath} {drvHashes : DrvHashes} {h : DrvHashModulo}
    (hfind : drvHashes.find? p = some h) (compute : Hashing DrvHashModulo) :
    cached p compute drvHashes = .ok (h, drvHashes) := by
  rw [cached, hfind]

theorem cached_extends {p : StorePath} {compute : Hashing DrvHashModulo}
    {drvHashes drvHashes' : DrvHashes} {h : DrvHashModulo}
    (hcompute : ∀ h drvHashes', compute drvHashes = .ok (h, drvHashes') →
      Extends drvHashes drvHashes')
    (heq : cached p compute drvHashes = .ok (h, drvHashes')) :
    Extends drvHashes drvHashes' ∧ drvHashes'.find? p = some h := by
  cases hfind : drvHashes.find? p with
  | some h' =>
    rw [cached_of_find? hfind] at heq
    cases heq
    exact ⟨.refl _, hfind⟩
  | none =>
    rw [cached, hfind] at heq
    obtain ⟨⟨h', drvHashes₁⟩, hcomputed, heq⟩ := Results.bind_eq_ok.mp heq
    cases heq
    refine ⟨fun q r hq => ?_, SortedMap.find?_assign_self _ _ _⟩
    have hne : p ≠ q := by
      rintro rfl
      rw [hfind] at hq
      cases hq
    rw [SortedMap.find?_assign_of_ne hne]
    exact hcompute _ _ hcomputed q r hq

theorem recalls_pathDerivationModulo (depth : Nat) :
    Recalls (pathDerivationModulo store xp depth) := by
  intro p drvHashes h hfind
  cases depth with
  | zero => exact cached_of_find? hfind _
  | succ depth => exact cached_of_find? hfind _

theorem caches_pathDerivationModulo (depth : Nat) :
    Caches (pathDerivationModulo store xp depth) := by
  induction depth with
  | zero =>
    intro p drvHashes h drvHashes' heq
    refine cached_extends (fun _ _ hcompute => ?_) heq
    cases hcompute
  | succ depth ih =>
    intro p drvHashes h drvHashes' heq
    refine cached_extends (fun _ _ hcompute => ?_) heq
    obtain ⟨drv, _, hread, hhash⟩ := PrefixReader.bind_eq_ok.mp hcompute
    obtain ⟨-, rfl⟩ := fromExcept_eq_ok.mp hread
    exact (hashDerivationModulo_eq_ok.mp hhash).extends ih

end

/-!
The hash modulo of a derivation as a relation that knows neither caches nor the order in
which inputs are looked at, and what the memoised functions compute of it.
-/

open Util.BaseN Util.JsonValues
open Lib.Results hiding pure_eq_ok

/-! ### What an input contributes -/

def outNode : ChildNode := .leaf (.ofList [str "out"])

def contributions (node : ChildNode) : DrvHashModulo → Option (List (Bytes × ChildNode))
  | .drvHash h => some [(h.toBase16 false, node)]
  | .caOutputHashes hashes =>
      (node.value.elems.mapM hashes.find?).map (·.map fun h => (h.toBase16 false, outNode))
  | .deferredDrv => none

theorem contributions_unique {node : ChildNode} {h : DrvHashModulo} {c : List (Bytes × ChildNode)}
    (hc : contributions node h = some c) {k : Bytes} {n n' : ChildNode} (hn : (k, n) ∈ c)
    (hn' : (k, n') ∈ c) : n = n' := by
  cases h with
  | drvHash h =>
    cases hc
    rw [(Prod.mk.inj (List.mem_singleton.mp hn)).2, (Prod.mk.inj (List.mem_singleton.mp hn')).2]
  | caOutputHashes hashes =>
    obtain ⟨hs, -, rfl⟩ := Option.map_eq_some_iff.mp hc
    obtain ⟨_, -, heq⟩ := List.mem_map.mp hn
    obtain ⟨_, -, heq'⟩ := List.mem_map.mp hn'
    rw [← (Prod.mk.inj heq).2, ← (Prod.mk.inj heq').2]
  | deferredDrv => cases hc

def assignAll (inputs2 : ChildNode.Map) (c : List (Bytes × ChildNode)) : ChildNode.Map :=
  c.foldl (fun m e => m.assign e.1 e.2) inputs2

theorem foldlM_insertOutputHashes {drvName : Bytes}
    {hashes : SortedMap (compare : Bytes → Bytes → Ordering) Hash} {names : List Bytes}
    {inputs2 m : ChildNode.Map} :
    names.foldlM (insertOutputHashes drvName hashes) inputs2 = .ok m ↔
      ∃ hs, names.mapM hashes.find? = some hs ∧
        assignAll inputs2 (hs.map fun h => (h.toBase16 false, outNode)) = m := by
  induction names generalizing inputs2 with
  | nil =>
    constructor
    · intro h
      cases h
      exact ⟨[], rfl, rfl⟩
    · rintro ⟨hs, hnil, rfl⟩
      cases hnil
      rfl
  | cons name names ih =>
    rw [List.foldlM_cons, bind_eq_ok, List.mapM_cons]
    cases hfind : hashes.find? name with
    | none => simp [insertOutputHashes, hfind]
    | some h =>
      simp only [insertOutputHashes, hfind, Except.ok.injEq, exists_eq_left', ih]
      constructor
      · rintro ⟨hs, hnames, rfl⟩
        exact ⟨h :: hs, by simp [hnames], rfl⟩
      · rintro ⟨hs', hnames, rfl⟩
        obtain ⟨hs, hrest, rfl⟩ : ∃ hs, names.mapM hashes.find? = some hs ∧ h :: hs = hs' := by
          simpa [Option.bind_eq_some_iff] using hnames
        exact ⟨hs, hrest, rfl⟩

/-! ### The relation -/

/-- What is known of the hashes of paths. -/
abbrev PathHashes := StorePath → DrvHashModulo → Prop

section

variable (known : PathHashes)

def Contributes (e : StorePath × ChildNode) (c : List (Bytes × ChildNode)) : Prop :=
  e.2.isLeaf = true ∧ ∃ h, known e.1 h ∧ contributions e.2 h = some c

/-- The input must be built before the derivation is known. -/
def Defers (e : StorePath × ChildNode) : Prop :=
  e.2.isLeaf = false ∨ known e.1 .deferredDrv

/-- An input that defers comes before those that have no hash. -/
def DefersFirst (inputs : List (StorePath × ChildNode)) : Prop :=
  ∃ l e l', inputs = l ++ e :: l' ∧ (∀ f ∈ l, ∃ c, Contributes known f c) ∧ Defers known e

/-- What the loop over the inputs ends with. -/
inductive InputsHash (inputs : List (StorePath × ChildNode)) (inputs2 : ChildNode.Map) :
    Option ChildNode.Map → Prop
  | deferred (h : DefersFirst known inputs) : InputsHash inputs inputs2 none
  | regular {cs} (h : List.Forall₂ (Contributes known) inputs cs) :
      InputsHash inputs inputs2 (some (assignAll inputs2 cs.flatten))

variable (store : DerivationStore) (xp : ExperimentalFeatureSettings)

inductive DerivationHash (drv : Derivation) (maskOutputs : Bool) : DrvHashModulo → Prop
  | fixed {sandboxed hashes} (hty : drv.type = .ok (.contentAddressed sandboxed true))
      (hhashes : drv.outputs.elems.mapM (outputHash store xp drv.name) = .ok hashes) :
      DerivationHash drv maskOutputs (.caOutputHashes (SortedMap.ofList hashes))
  | floating {sandboxed} (hty : drv.type = .ok (.contentAddressed sandboxed false)) :
      DerivationHash drv maskOutputs .deferredDrv
  | impure (hty : drv.type = .ok .impure) : DerivationHash drv maskOutputs .deferredDrv
  | deferred {isDeferred} (hty : drv.type = .ok (.inputAddressed isDeferred))
      (hinputs : InputsHash known drv.inputDrvs.elems .empty none) :
      DerivationHash drv maskOutputs .deferredDrv
  | regular {isDeferred inputs2 text} (hty : drv.type = .ok (.inputAddressed isDeferred))
      (hinputs : InputsHash known drv.inputDrvs.elems .empty (some inputs2))
      (htext : drv.unparse store xp maskOutputs (some inputs2) = .ok text) :
      DerivationHash drv maskOutputs (.drvHash (store.dirs.hashString text))

end

/-- The hashes of derivations whose inputs are less than the given number of steps deep. -/
def pathHash (store : DerivationStore) (xp : ExperimentalFeatureSettings) : Nat → PathHashes
  | 0, _, _ => False
  | depth + 1, drvPath, h => ∃ drv, store.readInvalidDerivation drvPath = .ok drv ∧
      DerivationHash (pathHash store xp depth) store xp drv false h

def PathHash (store : DerivationStore) (xp : ExperimentalFeatureSettings) : PathHashes :=
  fun drvPath h => ∃ depth, pathHash store xp depth drvPath h

section

variable {store : DerivationStore} {xp : ExperimentalFeatureSettings} {known known' : PathHashes}

/-! ### More knowledge -/

theorem Contributes.mono (hmono : ∀ p h, known p h → known' p h) {e : StorePath × ChildNode}
    {c : List (Bytes × ChildNode)} (h : Contributes known e c) : Contributes known' e c := by
  obtain ⟨hleaf, hash, hknown, hc⟩ := h
  exact ⟨hleaf, hash, hmono _ _ hknown, hc⟩

theorem Defers.mono (hmono : ∀ p h, known p h → known' p h) {e : StorePath × ChildNode}
    (h : Defers known e) : Defers known' e :=
  h.imp_right (hmono _ _)

theorem InputsHash.mono (hmono : ∀ p h, known p h → known' p h)
    {inputs : List (StorePath × ChildNode)} {inputs2 : ChildNode.Map} {r : Option ChildNode.Map}
    (h : InputsHash known inputs inputs2 r) : InputsHash known' inputs inputs2 r := by
  cases h with
  | deferred h =>
    obtain ⟨l, e, l', hl, hc, hdefers⟩ := h
    exact .deferred ⟨l, e, l', hl, fun f hf => (hc f hf).imp fun c => Contributes.mono hmono,
      hdefers.mono hmono⟩
  | regular h => exact .regular (h.imp fun e c => Contributes.mono hmono)

theorem DerivationHash.mono (hmono : ∀ p h, known p h → known' p h) {drv : Derivation}
    {maskOutputs : Bool} {r : DrvHashModulo} (h : DerivationHash known store xp drv maskOutputs r) :
    DerivationHash known' store xp drv maskOutputs r := by
  cases h with
  | fixed hty hhashes => exact .fixed hty hhashes
  | floating hty => exact .floating hty
  | impure hty => exact .impure hty
  | deferred hty hinputs => exact .deferred hty (hinputs.mono hmono)
  | regular hty hinputs htext => exact .regular hty (hinputs.mono hmono) htext

theorem pathHash_succ (depth : Nat) :
    ∀ p h, pathHash store xp depth p h → pathHash store xp (depth + 1) p h := by
  induction depth with
  | zero => exact fun _ _ h => h.elim
  | succ depth ih =>
    rintro p h ⟨drv, hread, hdrv⟩
    exact ⟨drv, hread, hdrv.mono ih⟩

theorem pathHash_mono {depth depth' : Nat} (hle : depth ≤ depth') (p : StorePath)
    (h : DrvHashModulo) (hp : pathHash store xp depth p h) : pathHash store xp depth' p h := by
  induction hle with
  | refl => exact hp
  | step _ ih => exact pathHash_succ _ p h ih

/-! ### One hash for each derivation -/

/-- Two states of knowledge that do not contradict each other. -/
def Consistent (known known' : PathHashes) : Prop :=
  ∀ p h h', known p h → known' p h' → h = h'

theorem Contributes.unique (hcons : Consistent known known') {e : StorePath × ChildNode}
    {c c' : List (Bytes × ChildNode)} (h : Contributes known e c) (h' : Contributes known' e c') :
    c = c' := by
  obtain ⟨-, hash, hknown, hc⟩ := h
  obtain ⟨-, hash', hknown', hc'⟩ := h'
  rw [hcons _ _ _ hknown hknown'] at hc
  exact Option.some.inj (hc.symm.trans hc')

theorem Contributes.not_defers (hcons : Consistent known known') {e : StorePath × ChildNode}
    {c : List (Bytes × ChildNode)} (h : Contributes known e c) : ¬Defers known' e := by
  obtain ⟨hleaf, hash, hknown, hc⟩ := h
  rintro (hdynamic | hdeferred)
  · rw [hleaf] at hdynamic
    cases hdynamic
  · rw [hcons _ _ _ hknown hdeferred] at hc
    cases hc

theorem forall₂_unique {α β : Type} {P Q : α → β → Prop} (hPQ : ∀ a b c, P a b → Q a c → b = c)
    {as : List α} {bs cs : List β} (h : List.Forall₂ P as bs) (h' : List.Forall₂ Q as cs) :
    bs = cs := by
  induction h generalizing cs with
  | nil =>
    cases h'
    rfl
  | cons hab _ ih =>
    cases h' with
    | cons hac hrest => rw [hPQ _ _ _ hab hac, ih hrest]

theorem exists_of_forall₂ {α β : Type} {P : α → β → Prop} {as : List α} {bs : List β}
    (h : List.Forall₂ P as bs) : ∀ a ∈ as, ∃ b ∈ bs, P a b := by
  induction h with
  | nil => simp
  | cons hab _ ih =>
    intro a ha
    rcases List.mem_cons.mp ha with rfl | ha
    · exact ⟨_, List.mem_cons_self, hab⟩
    · obtain ⟨b, hb, hP⟩ := ih a ha
      exact ⟨b, List.mem_cons_of_mem _ hb, hP⟩

theorem DefersFirst.not_regular (hcons : Consistent known known')
    {inputs : List (StorePath × ChildNode)} (h : DefersFirst known' inputs)
    {cs : List (List (Bytes × ChildNode))} : ¬List.Forall₂ (Contributes known) inputs cs := by
  intro hregular
  obtain ⟨l, e, l', rfl, -, hdefers⟩ := h
  obtain ⟨c, -, hc⟩ := exists_of_forall₂ hregular e (by simp)
  exact hc.not_defers hcons hdefers

theorem InputsHash.unique (hcons : Consistent known known')
    {inputs : List (StorePath × ChildNode)} {inputs2 : ChildNode.Map} {r r' : Option ChildNode.Map}
    (h : InputsHash known inputs inputs2 r) (h' : InputsHash known' inputs inputs2 r') : r = r' := by
  have hcons' : Consistent known' known := fun p a b ha hb => (hcons p b a hb ha).symm
  cases h with
  | deferred h =>
    cases h' with
    | deferred h' => rfl
    | regular h' => exact absurd h' (h.not_regular hcons')
  | regular h =>
    cases h' with
    | deferred h' => exact absurd h (h'.not_regular hcons)
    | regular h' =>
      have hcs := forall₂_unique (P := Contributes known) (Q := Contributes known')
        (fun _ _ _ => Contributes.unique hcons) h h'
      rw [hcs]

theorem DerivationHash.unique (hcons : Consistent known known') {drv : Derivation}
    {maskOutputs : Bool} {r r' : DrvHashModulo}
    (h : DerivationHash known store xp drv maskOutputs r)
    (h' : DerivationHash known' store xp drv maskOutputs r') : r = r' := by
  cases h with
  | fixed hty hhashes =>
    cases h' with
    | fixed hty' hhashes' =>
      rw [hhashes] at hhashes'
      cases hhashes'
      rfl
    | floating hty' => rw [hty] at hty'; cases hty'
    | impure hty' => rw [hty] at hty'; cases hty'
    | deferred hty' => rw [hty] at hty'; cases hty'
    | regular hty' => rw [hty] at hty'; cases hty'
  | floating hty =>
    cases h' with
    | fixed hty' => rw [hty] at hty'; cases hty'
    | floating hty' => rfl
    | impure hty' => rfl
    | deferred hty' => rfl
    | regular hty' => rw [hty] at hty'; cases hty'
  | impure hty =>
    cases h' with
    | fixed hty' => rw [hty] at hty'; cases hty'
    | floating hty' => rfl
    | impure hty' => rfl
    | deferred hty' => rfl
    | regular hty' => rw [hty] at hty'; cases hty'
  | deferred hty hinputs =>
    cases h' with
    | fixed hty' => rw [hty] at hty'; cases hty'
    | floating hty' => rfl
    | impure hty' => rfl
    | deferred hty' => rfl
    | regular hty' hinputs' => cases hinputs.unique hcons hinputs'
  | regular hty hinputs htext =>
    cases h' with
    | fixed hty' => rw [hty] at hty'; cases hty'
    | floating hty' => rw [hty] at hty'; cases hty'
    | impure hty' => rw [hty] at hty'; cases hty'
    | deferred hty' hinputs' => cases hinputs.unique hcons hinputs'
    | regular hty' hinputs' htext' =>
      cases hinputs.unique hcons hinputs'
      rw [htext] at htext'
      cases htext'
      rfl

theorem consistent_pathHash (depth depth' : Nat) :
    Consistent (pathHash store xp depth) (pathHash store xp depth') := by
  induction depth generalizing depth' with
  | zero => exact fun _ _ _ h => h.elim
  | succ depth ih =>
    cases depth' with
    | zero => exact fun _ _ _ _ h => h.elim
    | succ depth' =>
      rintro p h h' ⟨drv, hread, hdrv⟩ ⟨drv', hread', hdrv'⟩
      rw [hread] at hread'
      cases hread'
      exact hdrv.unique (ih depth') hdrv'

theorem consistent_PathHash : Consistent (PathHash store xp) (PathHash store xp) := by
  rintro p h h' ⟨depth, hdepth⟩ ⟨depth', hdepth'⟩
  exact consistent_pathHash depth depth' p h h' hdepth hdepth'

/-! ### Finitely many inputs are known at some depth -/

theorem Contributes.exists_depth {e : StorePath × ChildNode} {c : List (Bytes × ChildNode)}
    (h : Contributes (PathHash store xp) e c) :
    ∃ depth, Contributes (pathHash store xp depth) e c := by
  obtain ⟨hleaf, hash, ⟨depth, hknown⟩, hc⟩ := h
  exact ⟨depth, hleaf, hash, hknown, hc⟩

theorem exists_depth_forall₂ {inputs : List (StorePath × ChildNode)}
    {cs : List (List (Bytes × ChildNode))}
    (h : List.Forall₂ (Contributes (PathHash store xp)) inputs cs) :
    ∃ depth, List.Forall₂ (Contributes (pathHash store xp depth)) inputs cs := by
  induction h with
  | nil => exact ⟨0, .nil⟩
  | cons hc _ ih =>
    obtain ⟨depth, hdepth⟩ := hc.exists_depth
    obtain ⟨depth', hdepth'⟩ := ih
    refine ⟨max depth depth', .cons (hdepth.mono (pathHash_mono (le_max_left _ _))) ?_⟩
    exact hdepth'.imp fun _ _ => Contributes.mono (pathHash_mono (le_max_right _ _))

theorem exists_forall₂ {α β : Type} {P : α → β → Prop} {as : List α} (h : ∀ a ∈ as, ∃ b, P a b) :
    ∃ bs, List.Forall₂ P as bs := by
  induction as with
  | nil => exact ⟨[], .nil⟩
  | cons a as ih =>
    obtain ⟨b, hb⟩ := h a (by simp)
    obtain ⟨bs, hbs⟩ := ih fun a' ha' => h a' (by simp [ha'])
    exact ⟨b :: bs, .cons hb hbs⟩

theorem DefersFirst.exists_depth {inputs : List (StorePath × ChildNode)}
    (h : DefersFirst (PathHash store xp) inputs) :
    ∃ depth, DefersFirst (pathHash store xp depth) inputs := by
  obtain ⟨l, e, l', rfl, hl, hdefers⟩ := h
  obtain ⟨cs, hcs⟩ := exists_forall₂ hl
  obtain ⟨depth, hdepth⟩ := exists_depth_forall₂ hcs
  obtain ⟨depth', hdepth'⟩ : ∃ depth', Defers (pathHash store xp depth') e := by
    rcases hdefers with hdynamic | ⟨depth', hdeferred⟩
    · exact ⟨0, .inl hdynamic⟩
    · exact ⟨depth', .inr hdeferred⟩
  refine ⟨max depth depth', l, e, l', rfl, fun f hf => ?_,
    hdepth'.mono (pathHash_mono (le_max_right _ _))⟩
  obtain ⟨c, -, hc⟩ := exists_of_forall₂ hdepth f hf
  exact ⟨c, hc.mono (pathHash_mono (le_max_left _ _))⟩

theorem InputsHash.exists_depth {inputs : List (StorePath × ChildNode)} {inputs2 : ChildNode.Map}
    {r : Option ChildNode.Map} (h : InputsHash (PathHash store xp) inputs inputs2 r) :
    ∃ depth, InputsHash (pathHash store xp depth) inputs inputs2 r := by
  cases h with
  | deferred h =>
    obtain ⟨depth, hdepth⟩ := h.exists_depth
    exact ⟨depth, .deferred hdepth⟩
  | regular h =>
    obtain ⟨depth, hdepth⟩ := exists_depth_forall₂ h
    exact ⟨depth, .regular hdepth⟩

theorem DerivationHash.exists_depth {drv : Derivation} {maskOutputs : Bool} {r : DrvHashModulo}
    (h : DerivationHash (PathHash store xp) store xp drv maskOutputs r) :
    ∃ depth, DerivationHash (pathHash store xp depth) store xp drv maskOutputs r := by
  cases h with
  | fixed hty hhashes => exact ⟨0, .fixed hty hhashes⟩
  | floating hty => exact ⟨0, .floating hty⟩
  | impure hty => exact ⟨0, .impure hty⟩
  | deferred hty hinputs =>
    obtain ⟨depth, hdepth⟩ := hinputs.exists_depth
    exact ⟨depth, .deferred hty hdepth⟩
  | regular hty hinputs htext =>
    obtain ⟨depth, hdepth⟩ := hinputs.exists_depth
    exact ⟨depth, .regular hty hdepth htext⟩

/-! ### The loop over the inputs -/

theorem assignAll_append (inputs2 : ChildNode.Map) (c c' : List (Bytes × ChildNode)) :
    assignAll inputs2 (c ++ c') = assignAll (assignAll inputs2 c) c' :=
  List.foldl_append

theorem InputsHash.cons {e : StorePath × ChildNode} {c : List (Bytes × ChildNode)}
    (hc : Contributes known e c) {inputs : List (StorePath × ChildNode)} {inputs2 : ChildNode.Map}
    {r : Option ChildNode.Map} (h : InputsHash known inputs (assignAll inputs2 c) r) :
    InputsHash known (e :: inputs) inputs2 r := by
  cases h with
  | deferred h =>
    obtain ⟨l, f, l', rfl, hl, hdefers⟩ := h
    refine .deferred ⟨e :: l, f, l', rfl, fun g hg => ?_, hdefers⟩
    rcases List.mem_cons.mp hg with rfl | hg
    · exact ⟨c, hc⟩
    · exact hl g hg
  | regular h =>
    rw [← assignAll_append, ← List.flatten_cons]
    exact .regular (.cons hc h)

theorem InputsHash.of_defers {e : StorePath × ChildNode} (h : Defers known e)
    (inputs : List (StorePath × ChildNode)) (inputs2 : ChildNode.Map) :
    InputsHash known (e :: inputs) inputs2 none :=
  .deferred ⟨[], e, inputs, rfl, by simp, h⟩

theorem InputsHash.head {e : StorePath × ChildNode} {inputs : List (StorePath × ChildNode)}
    {inputs2 : ChildNode.Map} {r : Option ChildNode.Map}
    (h : InputsHash known (e :: inputs) inputs2 r) :
    (r = none ∧ Defers known e) ∨
      ∃ c, Contributes known e c ∧ InputsHash known inputs (assignAll inputs2 c) r := by
  cases h with
  | deferred h =>
    obtain ⟨l, f, l', heq, hl, hdefers⟩ := h
    cases l with
    | nil =>
      cases heq
      exact .inl ⟨rfl, hdefers⟩
    | cons g l =>
      cases heq
      obtain ⟨c, hc⟩ := hl e (by simp)
      exact .inr ⟨c, hc, .deferred ⟨l, f, l', rfl, fun g hg => hl g (by simp [hg]), hdefers⟩⟩
  | regular h =>
    cases h with
    | cons hc hrest =>
      refine .inr ⟨_, hc, ?_⟩
      rw [List.flatten_cons, assignAll_append]
      exact .regular hrest

def Coherent (store : DerivationStore) (xp : ExperimentalFeatureSettings) (drvHashes : DrvHashes) :
    Prop :=
  ∀ p h, drvHashes.find? p = some h → PathHash store xp p h

/-- A function that computes hashes of the derivations in the store. -/
def Sound (store : DerivationStore) (xp : ExperimentalFeatureSettings)
    (f : StorePath → Hashing DrvHashModulo) : Prop :=
  ∀ p drvHashes h drvHashes', Coherent store xp drvHashes → f p drvHashes = .ok (h, drvHashes') →
    PathHash store xp p h ∧ Coherent store xp drvHashes'

def Complete (store : DerivationStore) (xp : ExperimentalFeatureSettings) (known : PathHashes)
    (f : StorePath → Hashing DrvHashModulo) : Prop :=
  ∀ p h drvHashes, known p h → Coherent store xp drvHashes →
    ∃ drvHashes', f p drvHashes = .ok (h, drvHashes')

variable {f : StorePath → Hashing DrvHashModulo} {drvHashes drvHashes' : DrvHashes}

theorem hashInputs_sound (hf : Sound store xp f) (hcoherent : Coherent store xp drvHashes)
    {drvName : Bytes} {inputs : List (StorePath × ChildNode)} {inputs2 : ChildNode.Map}
    {r : Option ChildNode.Map}
    (h : hashInputs f drvName inputs inputs2 drvHashes = .ok (r, drvHashes')) :
    InputsHash (PathHash store xp) inputs inputs2 r ∧ Coherent store xp drvHashes' := by
  induction inputs generalizing inputs2 drvHashes with
  | nil =>
    obtain ⟨rfl, rfl⟩ := PrefixReader.pure_eq_ok.mp h
    exact ⟨.regular .nil, hcoherent⟩
  | cons e inputs ih =>
    rw [hashInputs] at h
    cases hleaf : e.2.isLeaf with
    | false =>
      rw [if_pos (by rw [hleaf]; rfl)] at h
      obtain ⟨rfl, rfl⟩ := PrefixReader.pure_eq_ok.mp h
      exact ⟨.of_defers (.inl hleaf) _ _, hcoherent⟩
    | true =>
      rw [if_neg (by rw [hleaf]; simp)] at h
      obtain ⟨hash, drvHashes₁, hhash, hrest⟩ := PrefixReader.bind_eq_ok.mp h
      obtain ⟨hknown, hcoherent₁⟩ := hf _ _ _ _ hcoherent hhash
      cases hash with
      | deferredDrv =>
        obtain ⟨rfl, rfl⟩ := PrefixReader.pure_eq_ok.mp hrest
        exact ⟨.of_defers (.inr hknown) _ _, hcoherent₁⟩
      | drvHash hash =>
        obtain ⟨hinputs, hcoherent'⟩ := ih hcoherent₁ hrest
        exact ⟨.cons ⟨hleaf, _, hknown, rfl⟩ hinputs, hcoherent'⟩
      | caOutputHashes hashes =>
        obtain ⟨inputs2', _, hread, hrest⟩ := PrefixReader.bind_eq_ok.mp hrest
        obtain ⟨hfold, rfl⟩ := fromExcept_eq_ok.mp hread
        obtain ⟨hs, hnames, rfl⟩ := foldlM_insertOutputHashes.mp hfold
        obtain ⟨hinputs, hcoherent'⟩ := ih hcoherent₁ hrest
        exact ⟨.cons ⟨hleaf, _, hknown, Option.map_eq_some_iff.mpr ⟨hs, hnames, rfl⟩⟩ hinputs,
          hcoherent'⟩

theorem hashInputs_complete (hf : Complete store xp known f) (hsound : Sound store xp f)
    (hcoherent : Coherent store xp drvHashes) {drvName : Bytes}
    {inputs : List (StorePath × ChildNode)} {inputs2 : ChildNode.Map} {r : Option ChildNode.Map}
    (h : InputsHash known inputs inputs2 r) :
    ∃ drvHashes', hashInputs f drvName inputs inputs2 drvHashes = .ok (r, drvHashes') := by
  induction inputs generalizing inputs2 drvHashes with
  | nil =>
    cases h with
    | deferred h =>
      obtain ⟨l, e, l', heq, -⟩ := h
      cases l <;> cases heq
    | regular h =>
      cases h
      exact ⟨drvHashes, rfl⟩
  | cons e inputs ih =>
    rw [hashInputs]
    rcases h.head with ⟨rfl, hdefers⟩ | ⟨c, ⟨hleaf, hash, hknown, hc⟩, hrest⟩
    · cases hleaf : e.2.isLeaf with
      | false =>
        rw [if_pos (by simp)]
        exact ⟨drvHashes, rfl⟩
      | true =>
        rw [if_neg (by simp)]
        have hknown : known e.1 .deferredDrv := hdefers.resolve_left (by rw [hleaf]; simp)
        obtain ⟨drvHashes₁, hrun⟩ := hf _ _ _ hknown hcoherent
        exact ⟨drvHashes₁, PrefixReader.bind_eq_ok.mpr ⟨_, _, hrun, rfl⟩⟩
    · rw [if_neg (by rw [hleaf]; simp)]
      obtain ⟨drvHashes₁, hrun⟩ := hf _ _ _ hknown hcoherent
      obtain ⟨-, hcoherent₁⟩ := hsound _ _ _ _ hcoherent hrun
      obtain ⟨drvHashes₂, hrun₂⟩ := ih hcoherent₁ hrest
      refine ⟨drvHashes₂, PrefixReader.bind_eq_ok.mpr ⟨_, _, hrun, ?_⟩⟩
      cases hash with
      | deferredDrv => cases hc
      | drvHash hash =>
        cases hc
        exact hrun₂
      | caOutputHashes hashes =>
        obtain ⟨hs, hnames, rfl⟩ := Option.map_eq_some_iff.mp hc
        exact PrefixReader.bind_eq_ok.mpr
          ⟨_, _, fromExcept_ok (foldlM_insertOutputHashes.mpr ⟨hs, hnames, rfl⟩) _, hrun₂⟩

/-! ### The memoised functions compute the relation -/

theorem hashDerivationModulo_sound (hf : Sound store xp f) (hcoherent : Coherent store xp drvHashes)
    {drv : Derivation} {maskOutputs : Bool} {r : DrvHashModulo}
    (h : hashDerivationModulo store xp f drv maskOutputs drvHashes = .ok (r, drvHashes')) :
    DerivationHash (PathHash store xp) store xp drv maskOutputs r ∧ Coherent store xp drvHashes' := by
  cases hashDerivationModulo_eq_ok.mp h with
  | fixed hty hhashes => exact ⟨.fixed hty hhashes, hcoherent⟩
  | floating hty => exact ⟨.floating hty, hcoherent⟩
  | impure hty => exact ⟨.impure hty, hcoherent⟩
  | deferred hty hinputs =>
    obtain ⟨hinputs', hcoherent'⟩ := hashInputs_sound hf hcoherent hinputs
    exact ⟨.deferred hty hinputs', hcoherent'⟩
  | regular hty hinputs htext =>
    obtain ⟨hinputs', hcoherent'⟩ := hashInputs_sound hf hcoherent hinputs
    exact ⟨.regular hty hinputs' htext, hcoherent'⟩

theorem hashDerivationModulo_complete (hf : Complete store xp known f) (hsound : Sound store xp f)
    (hcoherent : Coherent store xp drvHashes) {drv : Derivation} {maskOutputs : Bool}
    {r : DrvHashModulo} (h : DerivationHash known store xp drv maskOutputs r) :
    ∃ drvHashes', hashDerivationModulo store xp f drv maskOutputs drvHashes =
      .ok (r, drvHashes') := by
  cases h with
  | fixed hty hhashes => exact ⟨_, hashDerivationModulo_eq_ok.mpr (.fixed hty hhashes)⟩
  | floating hty => exact ⟨_, hashDerivationModulo_eq_ok.mpr (.floating hty)⟩
  | impure hty => exact ⟨_, hashDerivationModulo_eq_ok.mpr (.impure hty)⟩
  | deferred hty hinputs =>
    obtain ⟨_, hrun⟩ := hashInputs_complete hf hsound hcoherent hinputs
    exact ⟨_, hashDerivationModulo_eq_ok.mpr (.deferred hty hrun)⟩
  | regular hty hinputs htext =>
    obtain ⟨_, hrun⟩ := hashInputs_complete hf hsound hcoherent hinputs
    exact ⟨_, hashDerivationModulo_eq_ok.mpr (.regular hty hrun htext)⟩

theorem cached_sound {p : StorePath} {compute : Hashing DrvHashModulo} {h : DrvHashModulo}
    (hcoherent : Coherent store xp drvHashes)
    (hcompute : ∀ h drvHashes', compute drvHashes = .ok (h, drvHashes') →
      PathHash store xp p h ∧ Coherent store xp drvHashes')
    (heq : cached p compute drvHashes = .ok (h, drvHashes')) :
    PathHash store xp p h ∧ Coherent store xp drvHashes' := by
  cases hfind : drvHashes.find? p with
  | some h' =>
    rw [cached_of_find? hfind] at heq
    cases heq
    exact ⟨hcoherent p _ hfind, hcoherent⟩
  | none =>
    rw [cached, hfind] at heq
    obtain ⟨⟨h', drvHashes₁⟩, hcomputed, heq⟩ := bind_eq_ok.mp heq
    cases heq
    obtain ⟨hpath, hcoherent₁⟩ := hcompute _ _ hcomputed
    refine ⟨hpath, fun q r hq => ?_⟩
    rw [SortedMap.find?_assign] at hq
    split at hq
    next heq =>
      cases hq
      exact heq ▸ hpath
    next => exact hcoherent₁ q r hq

theorem sound_pathDerivationModulo (depth : Nat) :
    Sound store xp (pathDerivationModulo store xp depth) := by
  induction depth with
  | zero =>
    intro p drvHashes h drvHashes' hcoherent heq
    refine cached_sound hcoherent (fun _ _ hcompute => ?_) heq
    cases hcompute
  | succ depth ih =>
    intro p drvHashes h drvHashes' hcoherent heq
    refine cached_sound hcoherent (fun _ _ hcompute => ?_) heq
    obtain ⟨drv, _, hfetch, hhash⟩ := PrefixReader.bind_eq_ok.mp hcompute
    obtain ⟨hread, rfl⟩ := fromExcept_eq_ok.mp hfetch
    obtain ⟨hdrv, hcoherent'⟩ := hashDerivationModulo_sound ih hcoherent hhash
    obtain ⟨depth', hdepth⟩ := hdrv.exists_depth
    exact ⟨⟨depth' + 1, drv, hread, hdepth⟩, hcoherent'⟩

theorem complete_pathDerivationModulo (depth : Nat) :
    Complete store xp (pathHash store xp depth) (pathDerivationModulo store xp depth) := by
  induction depth with
  | zero => exact fun _ _ _ h => h.elim
  | succ depth ih =>
    rintro p h drvHashes hp hcoherent
    cases hfind : drvHashes.find? p with
    | some h' =>
      have hsame := consistent_PathHash p h h' ⟨_, hp⟩ (hcoherent p h' hfind)
      exact ⟨drvHashes, hsame ▸ cached_of_find? hfind _⟩
    | none =>
      obtain ⟨drv, hread, hdrv⟩ := hp
      obtain ⟨drvHashes₁, hrun⟩ :=
        hashDerivationModulo_complete ih (sound_pathDerivationModulo depth) hcoherent hdrv
      refine ⟨drvHashes₁.assign p h, ?_⟩
      rw [pathDerivationModulo, cached, hfind]
      refine bind_eq_ok.mpr ⟨(h, drvHashes₁), ?_, rfl⟩
      exact PrefixReader.bind_eq_ok.mpr ⟨_, _, fromExcept_ok hread _, hrun⟩

theorem hashDerivationModulo_iff (hcoherent : Coherent store xp drvHashes) {drv : Derivation}
    {maskOutputs : Bool} {r : DrvHashModulo} :
    (∃ depth later, hashDerivationModulo store xp (pathDerivationModulo store xp depth) drv
      maskOutputs drvHashes = .ok (r, later)) ↔
      DerivationHash (PathHash store xp) store xp drv maskOutputs r := by
  constructor
  · rintro ⟨depth, later, h⟩
    exact (hashDerivationModulo_sound (sound_pathDerivationModulo depth) hcoherent h).1
  · intro h
    obtain ⟨depth, hdepth⟩ := h.exists_depth
    obtain ⟨later, hrun⟩ := hashDerivationModulo_complete (complete_pathDerivationModulo depth)
      (sound_pathDerivationModulo depth) hcoherent hdepth
    exact ⟨depth, later, hrun⟩

/-- The caches that calls of `pathDerivationModulo` leave behind. -/
inductive Cached (store : DerivationStore) (xp : ExperimentalFeatureSettings) : DrvHashes → Prop
  | empty : Cached store xp .empty
  | call {depth p h drvHashes drvHashes'} (hcached : Cached store xp drvHashes)
      (hrun : pathDerivationModulo store xp depth p drvHashes = .ok (h, drvHashes')) :
      Cached store xp drvHashes'

theorem Cached.coherent (h : Cached store xp drvHashes) : Coherent store xp drvHashes := by
  induction h with
  | empty => exact fun p h hfind => by cases hfind
  | call _ hrun ih => exact (sound_pathDerivationModulo _ _ _ _ _ ih hrun).2

end

end Nix.Store.Derivations
