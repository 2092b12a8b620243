import Mathlib.Data.Set.Function
import Nix.Store.DerivationHashes

/-!
Inputs of a derivation that are replaced by inputs with the same hashes modulo.
-/

set_option linter.dupNamespace false

namespace Nix.Store.Derivations

open Util.Types Util.Hashes Util.BaseN Util.JsonValues
open Nix.Lib
open Lib.SortedList
open Lib.PrefixReader hiding bind_eq_ok pure_eq_ok
open Lib.Results hiding pure_eq_ok
open Store.Path Store.PathInfo Store.ContentAddresses Store.StoreDirs Store.ATerms
  Store.DerivationOutputs

/-- Two hashes modulo that are the same for the outputs that are used. -/
def SameFor (node : ChildNode) : DrvHashModulo → DrvHashModulo → Prop
  | .drvHash h, .drvHash h' => h = h'
  | .caOutputHashes hashes, .caOutputHashes hashes' =>
      ∀ outputName ∈ node.value.elems, hashes.find? outputName = hashes'.find? outputName
  | _, _ => False

/-- An input, or another one with the same outputs and the same hash modulo. -/
def Replaceable (known : PathHashes) (e e' : StorePath × ChildNode) : Prop :=
  e' = e ∨ e'.2 = e.2 ∧ ∃ h h', known e.1 h ∧ known e'.1 h' ∧ SameFor e.2 h h'

/-- The derivations differ in inputs that were replaced. -/
structure Replaces (known : PathHashes) (drv drv' : Derivation) : Prop where
  frame : drv' = { drv with inputDrvs := drv'.inputDrvs }
  inputs : ∃ inputs : List (StorePath × ChildNode), inputs.Perm drv'.inputDrvs.elems ∧
    List.Forall₂ (Replaceable known) drv.inputDrvs.elems inputs

section

variable {known : PathHashes}

theorem contributions_congr {node : ChildNode} {h h' : DrvHashModulo} (hsame : SameFor node h h') :
    contributions node h = contributions node h' := by
  cases h with
  | drvHash h =>
    cases h' with
    | drvHash h' =>
      have heq : h = h' := hsame
      rw [heq]
    | caOutputHashes hashes' => exact hsame.elim
    | deferredDrv => exact hsame.elim
  | caOutputHashes hashes =>
    cases h' with
    | drvHash h' => exact hsame.elim
    | caOutputHashes hashes' =>
      have hnames : node.value.elems.mapM hashes.find? = node.value.elems.mapM hashes'.find? := by
        have hfind : ∀ names : List Bytes,
            (∀ outputName ∈ names, hashes.find? outputName = hashes'.find? outputName) →
            names.mapM hashes.find? = names.mapM hashes'.find? := by
          intro names hnames
          induction names with
          | nil => rfl
          | cons name names ih =>
            rw [List.mapM_cons, List.mapM_cons, hnames name (by simp),
              ih fun n hn => hnames n (by simp [hn])]
        exact hfind _ hsame
      rw [contributions, contributions, hnames]
    | deferredDrv => exact hsame.elim
  | deferredDrv => exact hsame.elim

theorem SameFor.symm {node : ChildNode} {h h' : DrvHashModulo} (hsame : SameFor node h h') :
    SameFor node h' h := by
  cases h with
  | drvHash h =>
    cases h' with
    | drvHash h' => exact Eq.symm hsame
    | caOutputHashes hashes' => exact hsame.elim
    | deferredDrv => exact hsame.elim
  | caOutputHashes hashes =>
    cases h' with
    | drvHash h' => exact hsame.elim
    | caOutputHashes hashes' => exact fun outputName hname => (hsame outputName hname).symm
    | deferredDrv => exact hsame.elim
  | deferredDrv => exact hsame.elim

theorem Replaceable.symm {e e' : StorePath × ChildNode} (h : Replaceable known e e') :
    Replaceable known e' e := by
  rcases h with rfl | ⟨hnode, hash, hash', hknown, hknown', hsame⟩
  · exact .inl rfl
  · exact .inr ⟨hnode.symm, hash', hash, hknown', hknown, hnode.symm ▸ hsame.symm⟩

theorem Replaceable.node_eq {e e' : StorePath × ChildNode} (h : Replaceable known e e') :
    e'.2 = e.2 := by
  rcases h with rfl | ⟨hnode, -⟩
  · rfl
  · exact hnode

variable (hcons : Consistent known known)

include hcons

theorem Replaceable.contributes {e e' : StorePath × ChildNode} (h : Replaceable known e e')
    {c : List (Bytes × ChildNode)} (hc : Contributes known e c) : Contributes known e' c := by
  rcases h with rfl | ⟨hnode, hash, hash', hknown, hknown', hsame⟩
  · exact hc
  · obtain ⟨hleaf, hash₀, hknown₀, hc⟩ := hc
    rw [hcons _ _ _ hknown₀ hknown, contributions_congr hsame] at hc
    exact ⟨hnode ▸ hleaf, hash', hknown', hnode ▸ hc⟩

end

section

variable {known : PathHashes} {drv drv' : Derivation}

theorem Replaces.exists_old (h : Replaces known drv drv') :
    ∀ e' ∈ drv'.inputDrvs.elems, ∃ e ∈ drv.inputDrvs.elems, Replaceable known e e' := by
  obtain ⟨inputs, hperm, hinputs⟩ := h.inputs
  intro e' he'
  obtain ⟨e, he, hrep⟩ := exists_of_forall₂ hinputs.flip e' (hperm.symm.subset he')
  exact ⟨e, he, hrep⟩

end

section

variable (known : PathHashes)

/-- The node that the last input with the given key has. -/
def LastInput (inputs : List (StorePath × ChildNode)) (key : Bytes) (node : ChildNode) : Prop :=
  ∃ l e l' c, inputs = l ++ e :: l' ∧ Contributes known e c ∧ (key, node) ∈ c ∧
    ∀ f ∈ l', ∀ c', Contributes known f c' → key ∉ c'.map Prod.fst

/-- The condition under which replaced inputs keep the hash: an input that defers the
derivation comes before those without a hash, and if there is none, of the inputs with one
hash the last one uses the same outputs. -/
structure InputsAgree (drv drv' : Derivation) : Prop where
  deferred : (∃ e ∈ drv.inputDrvs.elems, Defers known e) → DefersFirst known drv'.inputDrvs.elems
  regular : (∀ e ∈ drv.inputDrvs.elems, ¬Defers known e) → ∀ key node,
    LastInput known drv.inputDrvs.elems key node → LastInput known drv'.inputDrvs.elems key node

end

theorem find?_assignAll {c : List (Bytes × ChildNode)}
    (hunique : ∀ k n n', (k, n) ∈ c → (k, n') ∈ c → n = n') {inputs2 : ChildNode.Map}
    {key : Bytes} {node : ChildNode} :
    (assignAll inputs2 c).find? key = some node ↔
      (key, node) ∈ c ∨ (key ∉ c.map Prod.fst ∧ inputs2.find? key = some node) := by
  induction c generalizing inputs2 with
  | nil => simp [assignAll]
  | cons e c ih =>
    obtain ⟨k, n⟩ := e
    have htail := @ih (fun k n n' hn hn' => hunique k n n' (by simp [hn]) (by simp [hn']))
      (inputs2.assign k n)
    rw [assignAll, List.foldl_cons, ← assignAll, htail, SortedMap.find?_assign]
    by_cases hk : k = key
    · subst hk
      simp only [if_true, Option.some.injEq, List.mem_cons, Prod.mk.injEq, true_and, List.map_cons,
        not_true_eq_false, true_or, false_and, or_false]
      constructor
      · rintro (hmem | ⟨-, rfl⟩)
        · exact .inr hmem
        · exact .inl rfl
      · rintro (rfl | hmem)
        · by_cases hkey : k ∈ c.map Prod.fst
          · obtain ⟨⟨k', n'⟩, hmem, rfl⟩ := List.mem_map.mp hkey
            have hsame := hunique k' n' node (List.mem_cons_of_mem _ hmem) List.mem_cons_self
            exact .inl (hsame ▸ hmem)
          · exact .inr ⟨hkey, rfl⟩
        · exact .inl hmem
    · rw [if_neg hk]
      have hk' : key ≠ k := fun heq => hk heq.symm
      simp [hk']

section

variable {known : PathHashes}

theorem lastInput_cons (hcons : Consistent known known) {e : StorePath × ChildNode}
    {c : List (Bytes × ChildNode)} (hc : Contributes known e c)
    {inputs : List (StorePath × ChildNode)} {key : Bytes} {node : ChildNode} :
    LastInput known (e :: inputs) key node ↔ LastInput known inputs key node ∨
      ((key, node) ∈ c ∧ ∀ f ∈ inputs, ∀ c', Contributes known f c' → key ∉ c'.map Prod.fst) := by
  constructor
  · rintro ⟨l, f, l', c', heq, hf, hmem, hlast⟩
    cases l with
    | nil =>
      cases heq
      rw [hf.unique hcons hc] at hmem
      exact .inr ⟨hmem, hlast⟩
    | cons g l =>
      cases heq
      exact .inl ⟨l, f, l', c', rfl, hf, hmem, hlast⟩
  · rintro (⟨l, f, l', c', rfl, hf, hmem, hlast⟩ | ⟨hmem, hlast⟩)
    · exact ⟨e :: l, f, l', c', rfl, hf, hmem, hlast⟩
    · exact ⟨[], e, inputs, c, rfl, hc, hmem, hlast⟩

theorem find?_assignAll_flatten (hcons : Consistent known known)
    {inputs : List (StorePath × ChildNode)} {cs : List (List (Bytes × ChildNode))}
    (h : List.Forall₂ (Contributes known) inputs cs) {inputs2 : ChildNode.Map} {key : Bytes}
    {node : ChildNode} :
    (assignAll inputs2 cs.flatten).find? key = some node ↔ LastInput known inputs key node ∨
      (inputs2.find? key = some node ∧
        ∀ e ∈ inputs, ∀ c, Contributes known e c → key ∉ c.map Prod.fst) := by
  induction h generalizing inputs2 with
  | nil =>
    rw [List.flatten_nil]
    constructor
    · exact fun hfind => .inr ⟨hfind, by simp⟩
    · rintro (⟨l, e, l', c, heq, -⟩ | ⟨hfind, -⟩)
      · cases l <;> cases heq
      · exact hfind
  | @cons e c inputs cs hc hrest ih =>
    obtain ⟨hleaf, hash, hknown, hcontributions⟩ := hc
    have hc : Contributes known e c := ⟨hleaf, hash, hknown, hcontributions⟩
    rw [List.flatten_cons, assignAll_append, ih, lastInput_cons hcons hc,
      find?_assignAll fun _ _ _ => contributions_unique hcontributions]
    have hfirst : (∀ f ∈ e :: inputs, ∀ c', Contributes known f c' → key ∉ c'.map Prod.fst) ↔
        key ∉ c.map Prod.fst ∧
          ∀ f ∈ inputs, ∀ c', Contributes known f c' → key ∉ c'.map Prod.fst := by
      rw [List.forall_mem_cons]
      refine and_congr_left fun _ => ⟨fun hall => hall c hc, fun hkey c' hc' => ?_⟩
      rwa [hc'.unique hcons hc]
    rw [hfirst]
    tauto

theorem find?_assignAll_empty (hcons : Consistent known known)
    {inputs : List (StorePath × ChildNode)} {cs : List (List (Bytes × ChildNode))}
    (h : List.Forall₂ (Contributes known) inputs cs) {key : Bytes} {node : ChildNode} :
    (assignAll .empty cs.flatten).find? key = some node ↔ LastInput known inputs key node := by
  rw [find?_assignAll_flatten hcons h]
  simp

end

theorem ChildNode.eq_leaf {node : ChildNode} (h : node.isLeaf = true) : node = .leaf node.value := by
  obtain ⟨value, ⟨keys, hkeys⟩, child⟩ := node
  cases keys with
  | nil =>
    rw [ChildNode.leaf, ChildNode.value]
    congr 1
    exact funext fun i => i.elim0
  | cons k keys => cases h

def PlainInput (i : Bytes × ChildNode) : Prop :=
  Plain i.1 ∧ i.2.isLeaf = true ∧ ∀ outputName ∈ i.2.value.elems, Plain outputName

def parseInput : Stream (Bytes × StringSet) := do
  expectChar 40
  let key ← parseString
  expectChar 44
  let value ← parseStrings false
  expectChar 41
  return (key, value)

theorem reads_printUnquotedStrings {value : StringSet}
    (h : ∀ outputName ∈ value.elems, Plain outputName) :
    Reads (parseStrings false) (printUnquotedStrings value.elems) value := by
  have hlist := @reads_untilEndOfList _ _
    (fun res : StringSet => do return res.insert (← parseString)) printUnquotedString
    SortedSet.insert value.elems (fun res s hs => (reads_printUnquotedString (h s hs)).bind_pure)
    (fun s _ => ⟨34, _, rfl, by decide, by decide⟩) SortedSet.empty
  rw [SortedSet.foldl_insert_elems] at hlist
  exact (reads_expectChar 91).bind hlist

theorem reads_unparseInput {i : Bytes × ChildNode} (h : PlainInput i) :
    Reads parseInput (unparseInput i) (i.1, i.2.value) := by
  obtain ⟨key, node⟩ := i
  obtain ⟨hkey, hleaf, hvalue⟩ := h
  have hnode : unparseNode node = [44] ++ printUnquotedStrings node.value.elems := by
    have hleaf' : node = .leaf node.value := ChildNode.eq_leaf hleaf
    rw [hleaf']
    rfl
  have htext : unparseInput (key, node) = [40] ++ (printUnquotedString key ++
      ([44] ++ (printUnquotedStrings node.value.elems ++ ([41] ++ [])))) := by
    simp [unparseInput, hnode]
  rw [htext]
  exact (reads_expectChar 40).bind <| (reads_printUnquotedString hkey).bind <|
    (reads_expectChar 44).bind <| (reads_printUnquotedStrings hvalue).bind <|
    (reads_expectChar 41).bind <| .pure _

theorem foldl_push {α β : Type} (f : α → β) (as : List α) (bs : List β) :
    as.foldl (fun bs a => bs ++ [f a]) bs = bs ++ as.map f := by
  induction as generalizing bs with
  | nil => simp
  | cons a as ih => simp [ih]

theorem map_inj_of_unparseInput {inputs inputs' : List (Bytes × ChildNode)}
    (h : ∀ i ∈ inputs, PlainInput i) (h' : ∀ i ∈ inputs', PlainInput i)
    (heq : commaSeparated (inputs.map unparseInput) = commaSeparated (inputs'.map unparseInput)) :
    inputs = inputs' := by
  have hreads : ∀ {l : List (Bytes × ChildNode)}, (∀ i ∈ l, PlainInput i) →
      Reads (untilEndOfList (fun acc : List (Bytes × StringSet) => do
        return acc ++ [← parseInput]) []) (commaSeparated (l.map unparseInput) ++ [93])
        (l.map fun i => (i.1, i.2.value)) := by
    intro l hl
    have hlist := @reads_untilEndOfList _ _
      (fun acc : List (Bytes × StringSet) => do return acc ++ [← parseInput]) unparseInput
      (fun acc i => acc ++ [(i.1, i.2.value)]) l
      (fun acc i hi => (reads_unparseInput (hl i hi)).bind_pure)
      (fun i _ => ⟨40, _, rfl, by decide, by decide⟩) []
    rwa [foldl_push, List.nil_append] at hlist
  have hvalues : inputs.map (fun i => (i.1, i.2.value)) =
      inputs'.map fun i => (i.1, i.2.value) := by
    have hread := hreads h []
    rw [heq, hreads h' []] at hread
    exact (Prod.mk.inj (Except.ok.inj hread)).1.symm
  have hback : ∀ {l : List (Bytes × ChildNode)}, (∀ i ∈ l, PlainInput i) →
      (l.map fun i => (i.1, i.2.value)).map (fun i => (i.1, ChildNode.leaf i.2)) = l := by
    intro l hl
    rw [List.map_map]
    refine (List.map_congr_left fun i hi => ?_).trans (List.map_id l)
    exact Prod.ext rfl (ChildNode.eq_leaf (hl i hi).2.1).symm
  rw [← hback h, hvalues, hback h']

section

variable (store : DerivationStore) (xp : ExperimentalFeatureSettings)

/-- `hashDerivationModulo` returns `r`, given enough stack. -/
def HashesTo (drv : Derivation) (maskOutputs : Bool) (drvHashes : DrvHashes) (r : DrvHashModulo) :
    Prop :=
  ∃ depth later, hashDerivationModulo store xp (pathDerivationModulo store xp depth) drv maskOutputs
    drvHashes = .ok (r, later)

/-- The path of an output, where the hash modulo gives one. -/
def inputAddressedPath (drvName : Bytes) (r : DrvHashModulo) (outputName : Bytes) :
    Option (Except Error StorePath) :=
  match r with
  | .drvHash h => some (store.dirs.makeOutputPath outputName h drvName)
  | _ => none

/-- The derivation has the hash modulo `r` of another one, and the paths that are made of it. -/
structure SameHash (drv drv' : Derivation) (maskOutputs : Bool) (drvHashes : DrvHashes)
    (r : DrvHashModulo) : Prop where
  hash : HashesTo store xp drv' maskOutputs drvHashes r
  paths : ∀ r', HashesTo store xp drv' maskOutputs drvHashes r' → r' = r ∧
    inputAddressedPath store drv'.name r' = inputAddressedPath store drv.name r

def HashedInput (drv : Derivation) (maskOutputs : Bool) (text : Bytes) : Prop :=
  ∃ inputs2, InputsHash (PathHash store xp) drv.inputDrvs.elems .empty (some inputs2) ∧
    drv.unparse store xp maskOutputs (some inputs2) = .ok text

/-- The names of the outputs that are used have neither quotes nor backslashes. -/
def PlainNames (drv : Derivation) : Prop :=
  ∀ e ∈ drv.inputDrvs.elems, ∀ outputName ∈ e.2.value.elems, Plain outputName

end

section

variable {store : DerivationStore} {xp : ExperimentalFeatureSettings} {known : PathHashes}
  {drv drv' : Derivation} {maskOutputs : Bool}

theorem hasDynamicDrvDep_of_regular {cs : List (List (Bytes × ChildNode))}
    (h : List.Forall₂ (Contributes known) drv.inputDrvs.elems cs) :
    drv.hasDynamicDrvDep = false := by
  rw [Derivation.hasDynamicDrvDep, List.any_eq_false]
  intro e he
  obtain ⟨c, -, hleaf, -⟩ := exists_of_forall₂ h e he
  simp [hleaf]

theorem unparseHead_eq (store : DerivationStore) (drv : Derivation) (lines : List Bytes) :
    ∃ pre post, ∀ inputs, drv.unparseHead store lines inputs =
      pre ++ (commaSeparated inputs ++ post) := by
  refine ⟨(if drv.hasDynamicDrvDep then
        str "DrvWithVersion(" ++ printUnquotedString (str "xp-dyn-drv") ++ str ","
      else str "Derive(") ++ str "[" ++ commaSeparated lines ++ str "],[",
    str "]," ++ printUnquotedStrings
        (SortedSet.ofList (drv.inputSrcs.elems.map store.dirs.print) : StringSet).elems ++
      str "," ++ printUnquotedString drv.platform ++ str "," ++ printString drv.builder ++
      str "," ++ printStrings drv.args ++ str ",[", fun inputs => ?_⟩
  rw [Derivation.unparseHead]
  simp only [List.append_assoc]

theorem Replaces.unparse_eq_ok (h : Replaces known drv drv') (hdrv : drv.hasDynamicDrvDep = false)
    (hdrv' : drv'.hasDynamicDrvDep = false) {inputs : ChildNode.Map} {text : Bytes}
    (htext : drv.unparse store xp maskOutputs (some inputs) = .ok text) :
    ∃ pre post, text = pre ++ (commaSeparated (inputs.elems.map unparseInput) ++ post) ∧
      ∀ inputs' : ChildNode.Map, drv'.unparse store xp maskOutputs (some inputs') =
        .ok (pre ++ (commaSeparated (inputs'.elems.map unparseInput) ++ post)) := by
  obtain ⟨lines, hlines, hrest⟩ := bind_eq_ok.mp htext
  obtain ⟨env, henv, heq⟩ := bind_eq_ok.mp hrest
  obtain ⟨pre, post, hhead⟩ := unparseHead_eq store drv lines
  have hatermEnv : drv'.atermEnv store = drv.atermEnv store := by
    rw [h.frame]
    rfl
  have houtputs : drv'.outputs = drv.outputs := by rw [h.frame]
  have hname : drv'.name = drv.name := by rw [h.frame]
  have hhead' : ∀ inputs', drv'.unparseHead store lines inputs' =
      pre ++ (commaSeparated inputs' ++ post) := by
    intro inputs'
    rw [← hhead, Derivation.unparseHead, Derivation.unparseHead, hdrv, hdrv', h.frame]
  refine ⟨pre, post ++ (commaSeparated ((env.elems.map
    (Derivation.maskVariable maskOutputs drv.outputs)).map unparseVariable) ++ str "])"), ?_, ?_⟩
  · rw [← Except.ok.inj heq, hhead]
    simp only [List.append_assoc]
  · intro inputs'
    rw [Derivation.unparse, houtputs, hname, hlines, hatermEnv]
    simp only [bind, Except.bind, henv, hhead', List.append_assoc]
    rfl

theorem Replaces.exists_regular (h : Replaces known drv drv') (hcons : Consistent known known)
    {cs : List (List (Bytes × ChildNode))}
    (hcs : List.Forall₂ (Contributes known) drv.inputDrvs.elems cs) :
    ∃ cs', List.Forall₂ (Contributes known) drv'.inputDrvs.elems cs' := by
  refine exists_forall₂ fun e' he' => ?_
  obtain ⟨e, he, hrep⟩ := h.exists_old e' he'
  obtain ⟨c, -, hc⟩ := exists_of_forall₂ hcs e he
  exact ⟨c, hrep.contributes hcons hc⟩

theorem Replaces.assignAll_eq (h : Replaces known drv drv') (hcons : Consistent known known)
    {cs cs' : List (List (Bytes × ChildNode))}
    (hcs : List.Forall₂ (Contributes known) drv.inputDrvs.elems cs)
    (hcs' : List.Forall₂ (Contributes known) drv'.inputDrvs.elems cs')
    (hlast : ∀ key node, LastInput known drv.inputDrvs.elems key node →
      LastInput known drv'.inputDrvs.elems key node) :
    assignAll .empty cs'.flatten = assignAll .empty cs.flatten := by
  apply SortedMap.ext_find?
  intro key
  apply Option.ext
  intro node
  have hforward : ∀ node, (assignAll .empty cs.flatten).find? key = some node →
      (assignAll .empty cs'.flatten).find? key = some node := by
    intro node hfind
    rw [find?_assignAll_empty hcons hcs] at hfind
    exact (find?_assignAll_empty hcons hcs').mpr (hlast key node hfind)
  refine ⟨fun hfind => ?_, hforward node⟩
  cases hold : (assignAll .empty cs.flatten).find? key with
  | some node' =>
    rw [hforward node' hold] at hfind
    exact hfind
  | none =>
    -- The input with the key replaces one with the same key.
    obtain ⟨l, e', l', c, heq, hc, hmem, -⟩ := (find?_assignAll_empty hcons hcs').mp hfind
    obtain ⟨e, he, hrep⟩ := h.exists_old e' (by rw [heq]; simp)
    have hc' := hrep.symm.contributes hcons hc
    obtain ⟨c', hc'mem, hc''⟩ := exists_of_forall₂ hcs e he
    rw [hc''.unique hcons hc'] at hc'mem
    have hkey : key ∈ cs.flatten.map Prod.fst :=
      List.mem_map.mpr ⟨(key, node), List.mem_flatten.mpr ⟨c, hc'mem, hmem⟩, rfl⟩
    have hnone : ∀ (entries : List (Bytes × ChildNode)) (m : ChildNode.Map),
        key ∈ entries.map Prod.fst → (assignAll m entries).find? key ≠ none := by
      intro entries m hentries
      induction entries using List.reverseRecOn with
      | nil => cases hentries
      | append_singleton entries last ih =>
        rw [assignAll_append]
        show ((assignAll m entries).assign last.1 last.2).find? key ≠ none
        rw [SortedMap.find?_assign]
        split
        next => simp
        next hne =>
          rw [List.map_append, List.mem_append] at hentries
          refine ih (hentries.resolve_right fun hlast => hne ?_)
          exact (List.mem_singleton.mp hlast).symm
    exact absurd hold (hnone _ _ hkey)

theorem hashesTo_iff {drvHashes : DrvHashes} (hcached : Cached store xp drvHashes)
    {r : DrvHashModulo} : HashesTo store xp drv maskOutputs drvHashes r ↔
      DerivationHash (PathHash store xp) store xp drv maskOutputs r :=
  hashDerivationModulo_iff hcached.coherent

theorem sameHash_iff {drvHashes : DrvHashes} (hcached : Cached store xp drvHashes)
    (hrep : Replaces (PathHash store xp) drv drv') {r : DrvHashModulo} :
    SameHash store xp drv drv' maskOutputs drvHashes r ↔
      DerivationHash (PathHash store xp) store xp drv' maskOutputs r := by
  have hname : drv'.name = drv.name := by rw [hrep.frame]
  constructor
  · exact fun h => (hashesTo_iff hcached).mp h.hash
  · intro h
    refine ⟨(hashesTo_iff hcached).mpr h, fun r' hr' => ?_⟩
    have hr := ((hashesTo_iff hcached).mp hr').unique consistent_PathHash h
    exact ⟨hr, by rw [hr, hname]⟩

theorem plainInput_of_regular {cs : List (List (Bytes × ChildNode))}
    (hcs : List.Forall₂ (Contributes known) drv.inputDrvs.elems cs) (hplain : PlainNames drv) :
    ∀ i ∈ (assignAll .empty cs.flatten).elems, PlainInput i := by
  have hhex : ∀ h : Hash, Plain (h.toBase16 false) := plain_toBase16
  have hentries : ∀ i ∈ cs.flatten, PlainInput i := by
    intro i hi
    obtain ⟨c, hc, hi⟩ := List.mem_flatten.mp hi
    obtain ⟨e, he, hleaf, h, -, hcontributions⟩ := exists_of_forall₂ hcs.flip c hc
    cases h with
    | drvHash h =>
      cases hcontributions
      cases List.mem_singleton.mp hi
      exact ⟨hhex h, hleaf, hplain e he⟩
    | caOutputHashes hashes =>
      obtain ⟨hs, -, rfl⟩ := Option.map_eq_some_iff.mp hcontributions
      obtain ⟨h, -, rfl⟩ := List.mem_map.mp hi
      refine ⟨hhex h, rfl, fun outputName hname => ?_⟩
      have hout : outputName = str "out" := by
        have hmem : outputName ∈ (SortedSet.ofList [str "out"] : StringSet) := hname
        simpa using hmem
      rw [hout]
      unfold Plain
      decide +kernel
    | deferredDrv => cases hcontributions
  have hfold : ∀ (entries : List (Bytes × ChildNode)) (m : ChildNode.Map),
      (∀ i ∈ entries, PlainInput i) → (∀ i ∈ m.elems, PlainInput i) →
      ∀ i ∈ (assignAll m entries).elems, PlainInput i := by
    intro entries
    induction entries with
    | nil => exact fun m _ hm => hm
    | cons e entries ih =>
      intro m hall hm
      refine ih (m.assign e.1 e.2) (fun i hi => hall i (by simp [hi])) fun i hi => ?_
      rcases mem_of_mem_insertOver hi with rfl | hi
      · exact hall _ (by simp)
      · exact hm i hi
  exact hfold _ _ hentries fun i hi => by cases hi

theorem Replaces.plainNames (h : Replaces known drv drv') (hplain : PlainNames drv) :
    PlainNames drv' := by
  intro e' he'
  obtain ⟨e, he, hrep⟩ := h.exists_old e' he'
  rw [hrep.node_eq]
  exact hplain e he

/-- Replaced inputs keep the hash modulo, and with it the output paths, if they agree. If
SHA-256 tells the two texts apart, they do not keep it otherwise. -/
theorem hashDerivationModulo_replaced {before before' : DrvHashes}
    (hcached : Cached store xp before) (hcached' : Cached store xp before')
    (hrep : Replaces (PathHash store xp) drv drv') {isDeferred : Bool}
    (hty : drv.type = .ok (.inputAddressed isDeferred)) {r : DrvHashModulo}
    (hdrv : HashesTo store xp drv maskOutputs before r) :
    (InputsAgree (PathHash store xp) drv drv' →
      SameHash store xp drv drv' maskOutputs before' r) ∧
    (Set.InjOn store.dirs.hashString
        {text | HashedInput store xp drv maskOutputs text ∨
          HashedInput store xp drv' maskOutputs text} →
      PlainNames drv → SameHash store xp drv drv' maskOutputs before' r →
      InputsAgree (PathHash store xp) drv drv') := by
  have hcons := @consistent_PathHash store xp
  have hty' : drv'.type = .ok (.inputAddressed isDeferred) := by
    rw [hrep.frame]
    exact hty
  rw [sameHash_iff hcached' hrep]
  have hhash := (hashesTo_iff hcached).mp hdrv
  constructor
  · intro hagree
    cases hhash with
    | fixed hty₁ => rw [hty] at hty₁; cases hty₁
    | floating hty₁ => rw [hty] at hty₁; cases hty₁
    | impure hty₁ => rw [hty] at hty₁; cases hty₁
    | deferred _ hinputs =>
      cases hinputs with
      | deferred hfirst =>
        obtain ⟨l, e, l', heq, -, hdefers⟩ := hfirst
        exact .deferred hty' (.deferred (hagree.deferred ⟨e, by rw [heq]; simp, hdefers⟩))
    | regular _ hinputs htext =>
      cases hinputs with
      | regular hcs =>
        obtain ⟨cs', hcs'⟩ := hrep.exists_regular hcons hcs
        have hnone : ∀ e ∈ drv.inputDrvs.elems, ¬Defers (PathHash store xp) e := by
          intro e he
          obtain ⟨c, -, hc⟩ := exists_of_forall₂ hcs e he
          exact hc.not_defers hcons
        have hsame := hrep.assignAll_eq hcons hcs hcs' (hagree.regular hnone)
        obtain ⟨pre, post, rfl, htext'⟩ := hrep.unparse_eq_ok (hasDynamicDrvDep_of_regular hcs)
          (hasDynamicDrvDep_of_regular hcs') htext
        rw [← hsame]
        exact .regular hty' (.regular hcs') (htext' _)
  · intro hinj hplain hhash'
    cases hhash with
    | fixed hty₁ => rw [hty] at hty₁; cases hty₁
    | floating hty₁ => rw [hty] at hty₁; cases hty₁
    | impure hty₁ => rw [hty] at hty₁; cases hty₁
    | deferred _ hinputs =>
      cases hinputs with
      | deferred hfirst =>
        refine ⟨fun _ => ?_, fun hnone => ?_⟩
        · cases hhash' with
          | floating hty₁ => rw [hty'] at hty₁; cases hty₁
          | impure hty₁ => rw [hty'] at hty₁; cases hty₁
          | deferred _ hinputs' =>
            cases hinputs' with
            | deferred hfirst' => exact hfirst'
        · obtain ⟨l, e, l', heq, -, hdefers⟩ := hfirst
          exact absurd hdefers (hnone e (by rw [heq]; simp))
    | regular _ hinputs htext =>
      cases hinputs with
      | regular hcs =>
        refine ⟨fun hdefers => ?_, fun _ key node hlast => ?_⟩
        · obtain ⟨e, he, hdefers⟩ := hdefers
          obtain ⟨c, -, hc⟩ := exists_of_forall₂ hcs e he
          exact absurd hdefers (hc.not_defers hcons)
        · obtain ⟨cs', hcs'⟩ := hrep.exists_regular hcons hcs
          obtain ⟨pre, post, hsplit, hprinted⟩ := hrep.unparse_eq_ok
            (hasDynamicDrvDep_of_regular hcs) (hasDynamicDrvDep_of_regular hcs') htext
          have htext' := hprinted (assignAll .empty cs'.flatten)
          have hhashed := hhash'.unique hcons
            (.regular hty' (.regular hcs') htext')
          have hsame := hinj (.inl ⟨_, .regular hcs, htext⟩) (.inr ⟨_, .regular hcs', htext'⟩)
            (DrvHashModulo.drvHash.inj hhashed)
          rw [hsplit] at hsame
          have hinputs := map_inj_of_unparseInput (plainInput_of_regular hcs hplain)
            (plainInput_of_regular hcs' (hrep.plainNames hplain))
            (List.append_cancel_right (List.append_cancel_left hsame))
          rw [← find?_assignAll_empty hcons hcs']
          rw [← find?_assignAll_empty hcons hcs, SortedSet.eq_of_elems hinputs] at hlast
          exact hlast

end

def srcFingerprint : Bytes :=
  str "source:sha256:" ++ str "000000000000000000000000000000" ++
  str "000000000000000000000000000000" ++ str "0000:/nix/store:src"

def srcText : Bytes :=
  str "fixed:out:r:sha256:" ++ str "000000000000000000000000000000" ++
  str "000000000000000000000000000000" ++ str "0000:/nix/store/" ++
  str "v1bh6bzphg5c2dc9ck7wdd3g1p6g19" ++ str "vd-src"

def toolText : Bytes :=
  str "Derive([(\"dev\",\"/nix/store/" ++ str "zf7qmdd5y04plpcb4v8a99qsdcvlfk" ++
  str "cn-tool-dev\",\"\",\"\"),(\"out\",\"/" ++ str "nix/store/" ++
  str "6dknsswgj3byvgy4gapxbwnbk9hj68" ++ str "pk-tool\",\"\",\"\")],[(" ++
  str "\"3e3b793a9669ec8c9edf28c8aaeaa" ++ str "f210354c985697582c97871ef2c5f4" ++
  str "c3a5d\",[\"out\"])],[],\"x86_64-" ++ str "linux\",\"/bin/sh\",[],[(\"dev\",\"/" ++
  str "nix/store/" ++ str "zf7qmdd5y04plpcb4v8a99qsdcvlfk" ++
  str "cn-tool-dev\"),(\"out\",\"/nix/" ++ str "store/" ++ str "6dknsswgj3byvgy4gapxbwnbk9hj68" ++
  str "pk-tool\")])"

/-- The masked text of the program, with the output of the tool that it uses. -/
def appText (outputName : String) : Bytes :=
  str "Derive([(\"out\",\"\",\"\",\"\")],[(" ++ str "\"500291aaab20f3464bc78814a20e8" ++
  str "ab55b133078f7d14b66ed60d0bb92a" ++ str "b9f5f\",[\"" ++
  str outputName ++
  str "\"])],[],\"x86_64-linux\",\"/bin/" ++ str "sh\",[],[(\"out\",\"\")])"

def sha256OfTools (s : Bytes) : { digest : Bytes // digest.length = 32 } :=
  if s = srcFingerprint then
    ⟨[155, 71, 151, 240, 222, 224, 227, 159, 114, 6, 232, 60, 193, 202, 131, 247, 47, 3, 87, 216,
      246, 224, 103, 60, 211, 143, 87, 89, 189, 98, 97, 9], rfl⟩
  else if s = srcText then
    ⟨[62, 59, 121, 58, 150, 105, 236, 140, 158, 223, 40, 200, 170, 234, 175, 33, 3, 84, 201, 133,
      105, 117, 130, 201, 120, 113, 239, 44, 95, 76, 58, 93], rfl⟩
  else if s = toolText then
    ⟨[80, 2, 145, 170, 171, 32, 243, 70, 75, 199, 136, 20, 162, 14, 138, 181, 91, 19, 48, 120, 247,
      209, 75, 102, 237, 96, 208, 187, 146, 171, 159, 95], rfl⟩
  else if s = appText "dev" then
    ⟨[246, 53, 238, 254, 236, 237, 34, 23, 64, 40, 68, 129, 97, 39, 25, 28, 193, 197, 57, 105, 82,
      173, 229, 234, 148, 237, 68, 145, 159, 70, 18, 8], rfl⟩
  else if s = appText "out" then
    ⟨[0, 234, 29, 2, 236, 10, 9, 206, 52, 52, 221, 158, 97, 88, 214, 234, 246, 172, 2, 179, 178,
      159, 53, 193, 215, 151, 243, 147, 176, 113, 137, 119], rfl⟩
  else ⟨List.replicate 32 0, length_zeros⟩

def toolsDirs : StoreDirConfig := { fetchDirs with sha256 := sha256OfTools }

def storePath (baseName : String) (h : checkBaseName (str baseName) = .ok ()) : StorePath :=
  ⟨str baseName, h⟩

def srcDrvA : StorePath :=
  storePath "ii842irraxx77wfqprzqfzhycilyzi38-src.drv" (checkBaseName_ofList (by decide))

def srcDrvB : StorePath :=
  storePath "6x8xlwf89j09ixmgvf48xnypjwapx520-src.drv" (checkBaseName_ofList (by decide))

def toolDrvA : StorePath :=
  storePath "kjaxx6ykg3g0w61xi9ypvp88i9kmrq1a-tool.drv" (checkBaseName_ofList (by decide))

def toolDrvB : StorePath :=
  storePath "jpdqsx9a09izh0k6c97cdwh3aw79pfv6-tool.drv" (checkBaseName_ofList (by decide))

/-- A file that is fetched, from one of its mirrors. -/
def src (url : String) : Derivation where
  outputs := .assign .empty (str "out") (.caFixed ⟨.nixArchive, zeroHash⟩)
  inputSrcs := .empty
  platform := str "builtin"
  builder := str "builtin:fetchurl"
  args := []
  env := SortedMap.ofList [(str "out", str "/nix/store/v1bh6bzphg5c2dc9ck7wdd3g1p6g19vd-src"),
    (str "url", str url)]
  structuredAttrs := none
  name := str "src"
  inputDrvs := .empty

/-- A tool with two outputs that is built from the file. -/
def tool (srcDrv : StorePath) : Derivation where
  outputs := SortedMap.ofList
    [(str "dev", .inputAddressed (storePath "zf7qmdd5y04plpcb4v8a99qsdcvlfkcn-tool-dev"
        (checkBaseName_ofList (by decide)))),
      (str "out", .inputAddressed (storePath "6dknsswgj3byvgy4gapxbwnbk9hj68pk-tool"
        (checkBaseName_ofList (by decide))))]
  inputSrcs := .empty
  platform := str "x86_64-linux"
  builder := str "/bin/sh"
  args := []
  env := SortedMap.ofList
    [(str "dev", str "/nix/store/zf7qmdd5y04plpcb4v8a99qsdcvlfkcn-tool-dev"),
      (str "out", str "/nix/store/6dknsswgj3byvgy4gapxbwnbk9hj68pk-tool")]
  structuredAttrs := none
  name := str "tool"
  inputDrvs := .assign .empty srcDrv (.leaf (.ofList [str "out"]))

def app (outputA outputB : String) : Derivation where
  outputs := .assign .empty (str "out") .deferred
  inputSrcs := .empty
  platform := str "x86_64-linux"
  builder := str "/bin/sh"
  args := []
  env := .assign .empty (str "out") []
  structuredAttrs := none
  name := str "app"
  inputDrvs := SortedMap.ofList [(toolDrvA, .leaf (.ofList [str outputA])),
    (toolDrvB, .leaf (.ofList [str outputB]))]

def toolsStore : DerivationStore where
  dirs := toolsDirs
  codec := ⟨fun _ => .error (simpleError "dump"), fun _ => .error (simpleError "parse")⟩
  readInvalidDerivation := fun drvPath =>
    if drvPath = srcDrvA then .ok (src "http://a.example/src")
    else if drvPath = srcDrvB then .ok (src "http://b.example/src")
    else if drvPath = toolDrvA then .ok (tool srcDrvA)
    else if drvPath = toolDrvB then .ok (tool srcDrvB)
    else .error (simpleError "no such derivation")

def toolsFeatures : ExperimentalFeatureSettings := fun _ => false

theorem hashes_of_tools :
    (∀ drvPath ∈ [toolDrvA, toolDrvB],
      (pathDerivationModulo toolsStore toolsFeatures 2 drvPath .empty).map Prod.fst =
        .ok (.drvHash (toolsDirs.hashString toolText))) ∧
    ∀ outputs ∈ [("dev", "out"), ("out", "dev")],
      (hashDerivationModulo toolsStore toolsFeatures
        (pathDerivationModulo toolsStore toolsFeatures 2) (app outputs.1 outputs.2) true
          .empty).map Prod.fst =
        .ok (.drvHash (toolsDirs.hashString (appText outputs.1))) := by decide +kernel

theorem pathHash_tool {drvPath : StorePath} (h : drvPath ∈ [toolDrvA, toolDrvB]) :
    PathHash toolsStore toolsFeatures drvPath (.drvHash (toolsDirs.hashString toolText)) := by
  obtain ⟨⟨hash, later⟩, hrun, rfl⟩ := map_eq_ok.mp (hashes_of_tools.1 drvPath h)
  exact (sound_pathDerivationModulo 2 _ _ _ _ Cached.empty.coherent hrun).1

theorem hashesTo_app {outputs : String × String} (h : outputs ∈ [("dev", "out"), ("out", "dev")]) :
    HashesTo toolsStore toolsFeatures (app outputs.1 outputs.2) true .empty
      (.drvHash (toolsDirs.hashString (appText outputs.1))) := by
  obtain ⟨⟨hash, later⟩, hrun, rfl⟩ := map_eq_ok.mp (hashes_of_tools.2 outputs h)
  exact ⟨2, later, hrun⟩

theorem replaces_app :
    Replaces (PathHash toolsStore toolsFeatures) (app "dev" "out") (app "out" "dev") := by
  have hA := @pathHash_tool toolDrvA (by simp)
  have hB := @pathHash_tool toolDrvB (by simp)
  have hkeys : StorePath.cmp toolDrvB toolDrvA = .lt ∧ StorePath.cmp toolDrvA toolDrvB = .gt := by
    decide +kernel
  have helems : ∀ a b, (app a b).inputDrvs.elems =
      [(toolDrvB, .leaf (.ofList [str b])), (toolDrvA, .leaf (.ofList [str a]))] := by
    intro a b
    show insertOver (byKey StorePath.cmp) (toolDrvB, ChildNode.leaf (.ofList [str b]))
      [(toolDrvA, ChildNode.leaf (.ofList [str a]))] = _
    rw [insertOver, byKey, hkeys.1]
  refine ⟨rfl, [(toolDrvA, .leaf (.ofList [str "out"])), (toolDrvB, .leaf (.ofList [str "dev"]))],
    ?_, ?_⟩
  · rw [helems]
    exact .swap _ _ _
  · rw [helems]
    exact .cons (.inr ⟨rfl, _, _, hB, hA, rfl⟩) (.cons (.inr ⟨rfl, _, _, hA, hB, rfl⟩) .nil)

theorem hashDerivationModulo_replaced_app :
    (InputsAgree (PathHash toolsStore toolsFeatures) (app "dev" "out") (app "out" "dev") →
      SameHash toolsStore toolsFeatures (app "dev" "out") (app "out" "dev") true .empty
        (.drvHash (toolsDirs.hashString (appText "dev")))) ∧
    (Set.InjOn toolsDirs.hashString
        {text | HashedInput toolsStore toolsFeatures (app "dev" "out") true text ∨
          HashedInput toolsStore toolsFeatures (app "out" "dev") true text} →
      PlainNames (app "dev" "out") →
      SameHash toolsStore toolsFeatures (app "dev" "out") (app "out" "dev") true .empty
        (.drvHash (toolsDirs.hashString (appText "dev"))) →
      InputsAgree (PathHash toolsStore toolsFeatures) (app "dev" "out") (app "out" "dev")) :=
  hashDerivationModulo_replaced .empty .empty replaces_app
    (show (app "dev" "out").type = .ok (.inputAddressed true) by decide +kernel)
    (@hashesTo_app ("dev", "out") (by simp))

/-- The two programs differ in inputs that were replaced, and have different hashes. -/
theorem hashDerivationModulo_app :
    Replaces (PathHash toolsStore toolsFeatures) (app "dev" "out") (app "out" "dev") ∧
      HashesTo toolsStore toolsFeatures (app "dev" "out") true .empty
        (.drvHash (toolsDirs.hashString (appText "dev"))) ∧
      HashesTo toolsStore toolsFeatures (app "out" "dev") true .empty
        (.drvHash (toolsDirs.hashString (appText "out"))) ∧
      toolsDirs.hashString (appText "dev") ≠ toolsDirs.hashString (appText "out") :=
  ⟨replaces_app, @hashesTo_app ("dev", "out") (by simp),
    @hashesTo_app ("out", "dev") (by simp), by decide +kernel⟩

end Nix.Store.Derivations
