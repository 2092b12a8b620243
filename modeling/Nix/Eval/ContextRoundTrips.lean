import Nix.Eval.ContextPrimops

/-!
`getContext` and `appendContext` undo each other.
-/

set_option linter.dupNamespace false

namespace Nix.Eval.ContextPrimops

open Util.Types Util.Hashes Util.CanonPaths Lib.Results Lib.SortedList Lib.SortedTrees Store.Path
  Store.StoreDirs Store.DerivedPaths Eval.StringContexts

/-! ### Contexts are read back -/

/-- The path of a derivation is constant, and nothing in the names separates texts. -/
def Constant : NixStringContextElem → Prop
  | .opaquePath path => HashName path
  | .drvDeep drvPath => HashName drvPath
  | .built (.opaquePath drvPath) output => HashName drvPath ∧ 33 ∉ output
  | .built (.built _ _) _ => False

theorem parse_toText (xp : ExperimentalFeatureSettings) {e : NixStringContextElem}
    (h : Constant e) : NixStringContextElem.parse xp e.toText = .ok e := by
  cases e with
  | opaquePath path =>
    exact (@NixStringContextElem.parse_toText_iff xp (.opaquePath path) trivial h).mpr
      (Or.inr (Nat.zero_le 1))
  | drvDeep drvPath =>
    exact (@NixStringContextElem.parse_toText_iff xp (.drvDeep drvPath) trivial h).mpr
      (Or.inr (Nat.zero_le 1))
  | built drvPath output =>
    cases drvPath with
    | built drvPath output' => exact h.elim
    | opaquePath drvPath =>
      have hrest : parseRest xp drvPath.baseName = .ok (.opaquePath drvPath) :=
        (@parseRest_toTextRest_iff xp (.opaquePath drvPath) trivial h.1).mpr
          (Or.inr (Nat.zero_le 1))
      have htext : toTextRest (.built (.opaquePath drvPath) output) =
          output ++ 33 :: drvPath.baseName := by
        rw [toTextRest, toTextRest, List.append_assoc]
        rfl
      have hparse : parseRest xp (output ++ 33 :: drvPath.baseName) =
          .ok (.built (.opaquePath drvPath) output) := by
        rw [parseRest]
        split
        next hnone => rw [splitPrefixTo_append h.2] at hnone; cases hnone
        next output' rest hsome =>
          rw [splitPrefixTo_append h.2] at hsome
          cases hsome
          rw [hrest]
          rfl
      rw [NixStringContextElem.toText, htext, show str "!" = [33] from rfl,
        List.singleton_append, NixStringContextElem.parse, if_pos rfl, if_neg (by simp), hparse]
      rfl

variable (state : EvalState)

theorem copyContext_map_toText {l : List NixStringContextElem} (h : ∀ e ∈ l, Constant e)
    (context : NixStringContext) :
    state.copyContext (l.map NixStringContextElem.toText) context =
      .ok (l.foldl SortedSet.insert context) := by
  induction l generalizing context with
  | nil => rfl
  | cons e l ih =>
    obtain ⟨he, hl⟩ := List.forall_mem_cons.mp h
    have hrest := ih hl (context.insert e)
    rw [EvalState.copyContext] at hrest ⊢
    rw [List.map_cons, List.foldlM_cons, parse_toText state.xpSettings he]
    exact hrest

theorem forceStringWith_mkString {context : NixStringContext} (h : ∀ e ∈ context, Constant e)
    (s : Bytes) :
    state.forceStringWith (.mkString s context) .empty = .ok (s, context) := by
  have hcopy := copyContext_map_toText state h .empty
  rw [SortedSet.foldl_insert_elems] at hcopy
  show (state.copyContext (context.elems.map NixStringContextElem.toText) .empty >>= fun context =>
    .ok (s, context)) = _
  rw [hcopy]
  rfl

/-! ### What is gathered for a path -/

def outputOf (drvPath : StorePath) : NixStringContextElem → Option Bytes
  | .built (.opaquePath drvPath') output => if drvPath' = drvPath then some output else none
  | _ => none

def gather (l : List NixStringContextElem) (path : StorePath) : ContextInfo where
  path := .opaquePath path ∈ l
  allOutputs := .drvDeep path ∈ l
  outputs := l.filterMap (outputOf path)

def ContextInfo.add (info : ContextInfo) : NixStringContextElem → ContextInfo
  | .opaquePath _ => { info with path := true }
  | .drvDeep _ => { info with allOutputs := true }
  | .built _ output => { info with outputs := info.outputs ++ [output] }

theorem ContextInfo.add_ne (info : ContextInfo) (e : NixStringContextElem) : info.add e ≠ {} := by
  cases e with
  | opaquePath path => simp [add]
  | drvDeep drvPath => simp [add]
  | built drvPath output => simp [add]

theorem gather_append_singleton {e : NixStringContextElem} (he : Constant e)
    (l : List NixStringContextElem) (path : StorePath) :
    gather (l ++ [e]) path =
      if e.getBaseStorePath = path then (gather l path).add e else gather l path := by
  cases e with
  | opaquePath path' =>
    by_cases heq : path' = path
    · simp [gather, NixStringContextElem.getBaseStorePath, ContextInfo.add, outputOf, heq]
    · simp [gather, NixStringContextElem.getBaseStorePath, outputOf, heq, Ne.symm heq]
  | drvDeep drvPath =>
    by_cases heq : drvPath = path
    · simp [gather, NixStringContextElem.getBaseStorePath, ContextInfo.add, outputOf, heq]
    · simp [gather, NixStringContextElem.getBaseStorePath, outputOf, heq, Ne.symm heq]
  | built drvPath output =>
    cases drvPath with
    | built drvPath output' => exact he.elim
    | opaquePath drvPath =>
      by_cases heq : drvPath = path
      · simp [gather, NixStringContextElem.getBaseStorePath, SingleDerivedPath.getBaseStorePath,
          ContextInfo.add, outputOf, heq]
      · simp [gather, NixStringContextElem.getBaseStorePath, SingleDerivedPath.getBaseStorePath,
          outputOf, heq]

/-- The map has what is gathered for each path of the elements. -/
def Gathers (l : List NixStringContextElem) (contextInfos : ContextInfos) : Prop :=
  ∀ path, contextInfos.find? path = if gather l path = {} then none else some (gather l path)

theorem Gathers.getD {l : List NixStringContextElem} {contextInfos : ContextInfos}
    (h : Gathers l contextInfos) (path : StorePath) :
    (contextInfos.find? path).getD {} = gather l path := by
  rw [h path]
  split
  next hempty => exact hempty.symm
  next => rfl

theorem Gathers.addToInfos {l : List NixStringContextElem} {contextInfos : ContextInfos}
    (h : Gathers l contextInfos) {e : NixStringContextElem} (he : Constant e) :
    ∃ contextInfos', state.addToInfos contextInfos e = .ok contextInfos' ∧
      Gathers (l ++ [e]) contextInfos' := by
  have hok : state.addToInfos contextInfos e =
      .ok (update contextInfos e.getBaseStorePath (·.add e)) := by
    cases e with
    | opaquePath path => rfl
    | drvDeep drvPath => rfl
    | built drvPath output =>
      cases drvPath with
      | opaquePath drvPath => rfl
      | built drvPath output' => exact he.elim
  refine ⟨_, hok, fun path => ?_⟩
  rw [update, SortedMap.find?_assign, gather_append_singleton he]
  by_cases heq : e.getBaseStorePath = path
  · rw [if_pos heq, if_pos heq, heq, h.getD, if_neg (ContextInfo.add_ne _ e)]
  · rw [if_neg heq, if_neg heq]
    exact h path

theorem Gathers.foldlM {l l' : List NixStringContextElem} {contextInfos : ContextInfos}
    (h : Gathers l contextInfos) (hl : ∀ e ∈ l', Constant e) :
    ∃ contextInfos', l'.foldlM state.addToInfos contextInfos = .ok contextInfos' ∧
      Gathers (l ++ l') contextInfos' := by
  induction l' generalizing l contextInfos with
  | nil => exact ⟨contextInfos, rfl, by rwa [List.append_nil]⟩
  | cons e l' ih =>
    obtain ⟨he, hl⟩ := List.forall_mem_cons.mp hl
    obtain ⟨contextInfos', hok, h'⟩ := h.addToInfos state he
    obtain ⟨contextInfos'', hrest, h''⟩ := ih h' hl
    refine ⟨contextInfos'', ?_, by rwa [List.append_assoc] at h''⟩
    rw [List.foldlM_cons, hok]
    exact hrest

theorem find?_attrsOfInfos (contextInfos : ContextInfos) (key : Bytes) (value : Value) :
    (state.attrsOfInfos contextInfos).find? key = some value ↔
      ∃ path info, key = state.store.print path ∧ contextInfos.find? path = some info ∧
        value = info.toValue := by
  have hkeys : ((contextInfos.elems.map fun info =>
      (state.store.print info.1, info.2.toValue)).map Prod.fst).Nodup := by
    rw [List.map_map]
    have hnodup := (strictlySorted_byKey.mp contextInfos.sorted).nodup
    have hmap := hnodup.map (printStorePath_injective state.store.storeDir)
    rwa [List.map_map] at hmap
  rw [EvalState.attrsOfInfos, SortedMap.find?_ofList_of_nodup hkeys, List.mem_map]
  constructor
  · rintro ⟨info, hin, heq⟩
    cases heq
    exact ⟨info.1, info.2, rfl, SortedMap.find?_eq_some.mpr hin, rfl⟩
  · rintro ⟨path, info, rfl, hfind, rfl⟩
    exact ⟨(path, info), SortedMap.find?_eq_some.mp hfind, rfl⟩

theorem getContext_mkString {context : NixStringContext} (h : ∀ e ∈ context, Constant e)
    (s : Bytes) :
    ∃ r : Attrs Value, state.getContext (.mkString s context) = .ok (.ofMembers r) ∧
      ∀ key value, r.find? key = some value ↔
        ∃ path, key = state.store.print path ∧ gather context.elems path ≠ {} ∧
          value = (gather context.elems path).toValue := by
  have hempty : Gathers [] .empty := fun path => rfl
  obtain ⟨contextInfos, hfold, hgathers⟩ := hempty.foldlM state h
  refine ⟨state.attrsOfInfos contextInfos, ?_, fun key value => ?_⟩
  · rw [EvalState.getContext, forceStringWith_mkString state h s]
    show (context.elems.foldlM state.addToInfos .empty >>= fun contextInfos =>
      Except.ok (Value.ofMembers (state.attrsOfInfos contextInfos))) = _
    rw [hfold]
    rfl
  · rw [find?_attrsOfInfos]
    constructor
    · rintro ⟨path, info, hkey, hfind, hvalue⟩
      rw [hgathers path] at hfind
      split at hfind
      next => cases hfind
      next hne =>
        cases hfind
        exact ⟨path, hkey, hne, hvalue⟩
    · rintro ⟨path, hkey, hne, hvalue⟩
      exact ⟨path, _, hkey, (hgathers path).trans (if_neg hne), hvalue⟩

/-! ### What is appended for an attribute -/

namespace EvalState

/-- The names of the attribute `outputs`. -/
def outputNames (attrs : Attrs Value) : Except Error (List Bytes) :=
  match attrs.find? (str "outputs") with
  | some attr => do
      let elems ← state.forceList attr
      elems.mapM state.forceStringNoCtx
  | none => .ok []

def readInfo (v : Value) : Except Error ContextInfo := do
  let attrs ← state.forceAttrs v
  let path ← state.flag attrs (str "path")
  let allOutputs ← state.flag attrs (str "allOutputs")
  let outputs ← state.outputNames attrs
  return { path, allOutputs, outputs }

end EvalState

def ContextInfo.elemsOf (info : ContextInfo) (path : StorePath) : List NixStringContextElem :=
  listIf info.path (NixStringContextElem.opaquePath path) ++
    listIf info.allOutputs (NixStringContextElem.drvDeep path) ++
      info.outputs.map (NixStringContextElem.built (.opaquePath path))

/-- What is asked of an attribute. -/
structure Appendable (i : Bytes × Value) (path : StorePath) (info : ContextInfo) : Prop where
  parses : state.store.parseStorePath i.1 = .ok path
  ensured : state.ensure path = .ok ()
  reads : state.readInfo i.2 = .ok info
  derivation : info.allOutputs ∨ info.outputs ≠ [] → isDerivation i.1

variable {state}

theorem appendPath_eq_ok {path : StorePath} {attrs : Attrs Value}
    {context context' : NixStringContext} :
    state.appendPath path attrs context = .ok context' ↔
      ∃ b, state.flag attrs (str "path") = .ok b ∧
        (listIf b (.opaquePath path)).foldl SortedSet.insert context = context' := by
  rw [EvalState.appendPath, bind_eq_ok]
  refine exists_congr fun b => and_congr_right fun _ => ?_
  cases b with
  | false => exact pure_eq_ok
  | true => exact pure_eq_ok

theorem appendAllOutputs_eq_ok {name : Bytes} {path : StorePath} {attrs : Attrs Value}
    {context context' : NixStringContext} :
    state.appendAllOutputs name path attrs context = .ok context' ↔
      ∃ b, state.flag attrs (str "allOutputs") = .ok b ∧ (b → isDerivation name) ∧
        (listIf b (.drvDeep path)).foldl SortedSet.insert context = context' := by
  rw [EvalState.appendAllOutputs, bind_eq_ok]
  refine exists_congr fun b => and_congr_right fun _ => ?_
  cases b with
  | false => exact pure_eq_ok.trans (and_iff_right nofun).symm
  | true =>
    rw [if_pos rfl]
    by_cases hdrv : isDerivation name
    · rw [if_neg (not_not.mpr hdrv)]
      exact pure_eq_ok.trans (and_iff_right fun _ => hdrv).symm
    · rw [if_pos hdrv]
      exact iff_of_false nofun fun h => hdrv (h.1 rfl)

theorem foldlM_appendOutput_eq_ok {path : StorePath} {elems : List Value}
    {context context' : NixStringContext} :
    elems.foldlM (state.appendOutput path) context = .ok context' ↔
      ∃ outputs, elems.mapM state.forceStringNoCtx = .ok outputs ∧
        (outputs.map (NixStringContextElem.built (.opaquePath path))).foldl
          SortedSet.insert context = context' := by
  induction elems generalizing context with
  | nil =>
    constructor
    · exact fun h => ⟨[], rfl, pure_eq_ok.mp h⟩
    · rintro ⟨outputs, houtputs, h⟩
      cases houtputs
      exact pure_eq_ok.mpr h
  | cons elem elems ih =>
    rw [List.foldlM_cons, bind_eq_ok]
    constructor
    · rintro ⟨context'', happend, h⟩
      obtain ⟨output, houtput, happend⟩ := bind_eq_ok.mp happend
      obtain rfl := pure_eq_ok.mp happend
      obtain ⟨outputs, houtputs, h⟩ := ih.mp h
      refine ⟨output :: outputs, ?_, h⟩
      rw [List.mapM_cons, houtput, houtputs]
      rfl
    · rintro ⟨outputs, houtputs, h⟩
      rw [List.mapM_cons] at houtputs
      obtain ⟨output, houtput, houtputs⟩ := bind_eq_ok.mp houtputs
      obtain ⟨rest, hrest, houtputs⟩ := bind_eq_ok.mp houtputs
      obtain rfl := pure_eq_ok.mp houtputs
      refine ⟨_, ?_, ih.mpr ⟨rest, hrest, h⟩⟩
      rw [EvalState.appendOutput, houtput]
      rfl

theorem appendOutputs_eq_ok {name : Bytes} {path : StorePath} {attrs : Attrs Value}
    {context context' : NixStringContext} :
    state.appendOutputs name path attrs context = .ok context' ↔
      ∃ outputs, state.outputNames attrs = .ok outputs ∧ (outputs ≠ [] → isDerivation name) ∧
        (outputs.map (NixStringContextElem.built (.opaquePath path))).foldl
          SortedSet.insert context = context' := by
  rw [EvalState.appendOutputs, EvalState.outputNames]
  cases attrs.find? (str "outputs") with
  | none =>
    constructor
    · intro h
      cases h
      exact ⟨[], rfl, fun hne => absurd rfl hne, rfl⟩
    · rintro ⟨outputs, houtputs, -, h⟩
      cases houtputs
      exact congrArg Except.ok h
  | some attr =>
    constructor
    · intro h
      obtain ⟨elems, helems, h⟩ := bind_eq_ok.mp h
      split at h
      next => cases h
      next hcond =>
        obtain ⟨outputs, houtputs, h⟩ := foldlM_appendOutput_eq_ok.mp h
        refine ⟨outputs, bind_eq_ok.mpr ⟨elems, helems, houtputs⟩, fun hne => ?_, h⟩
        refine by_contra fun hdrv => hcond ⟨?_, hdrv⟩
        rintro rfl
        cases houtputs
        exact hne rfl
    · rintro ⟨outputs, houtputs, hdrv, h⟩
      obtain ⟨elems, helems, houtputs⟩ := bind_eq_ok.mp houtputs
      refine bind_eq_ok.mpr ⟨elems, helems, ?_⟩
      rw [if_neg]
      · exact foldlM_appendOutput_eq_ok.mpr ⟨outputs, houtputs, h⟩
      · rintro ⟨hne, hnot⟩
        refine hnot (hdrv ?_)
        rintro rfl
        refine hne (List.eq_nil_iff_forall_not_mem.mpr fun elem hin => ?_)
        obtain ⟨output, hout, -⟩ := exists_of_mapM houtputs elem hin
        exact List.not_mem_nil hout

theorem readInfo_eq_ok {v : Value} {info : ContextInfo} :
    state.readInfo v = .ok info ↔ ∃ attrs, state.forceAttrs v = .ok attrs ∧
      state.flag attrs (str "path") = .ok info.path ∧
        state.flag attrs (str "allOutputs") = .ok info.allOutputs ∧
          state.outputNames attrs = .ok info.outputs := by
  rw [EvalState.readInfo, bind_eq_ok]
  refine exists_congr fun attrs => and_congr_right fun _ => ?_
  constructor
  · intro h
    obtain ⟨path, hpath, h⟩ := bind_eq_ok.mp h
    obtain ⟨allOutputs, hall, h⟩ := bind_eq_ok.mp h
    obtain ⟨outputs, houtputs, h⟩ := bind_eq_ok.mp h
    obtain rfl := pure_eq_ok.mp h
    exact ⟨hpath, hall, houtputs⟩
  · rintro ⟨hpath, hall, houtputs⟩
    rw [hpath, hall, houtputs]
    rfl

theorem appendEntry_eq_ok {i : Bytes × Value} {context context' : NixStringContext} :
    state.appendEntry context i = .ok context' ↔
      ∃ path info, Appendable state i path info ∧
        (info.elemsOf path).foldl SortedSet.insert context = context' := by
  rw [EvalState.appendEntry]
  constructor
  · intro h
    split at h
    next => cases h
    next =>
      obtain ⟨path, hparse, h⟩ := bind_eq_ok.mp h
      obtain ⟨_, hensure, h⟩ := bind_eq_ok.mp h
      obtain ⟨attrs, hattrs, h⟩ := bind_eq_ok.mp h
      obtain ⟨context₁, hpath, h⟩ := bind_eq_ok.mp h
      obtain ⟨context₂, hall, h⟩ := bind_eq_ok.mp h
      obtain ⟨b, hb, rfl⟩ := appendPath_eq_ok.mp hpath
      obtain ⟨b', hb', hdrv', rfl⟩ := appendAllOutputs_eq_ok.mp hall
      obtain ⟨outputs, houtputs, hdrv, rfl⟩ := appendOutputs_eq_ok.mp h
      refine ⟨path, ⟨b, b', outputs⟩, ⟨hparse, hensure, ?_, fun h => h.elim hdrv' hdrv⟩, ?_⟩
      · exact readInfo_eq_ok.mpr ⟨attrs, hattrs, hb, hb', houtputs⟩
      · rw [ContextInfo.elemsOf, List.foldl_append, List.foldl_append]
  · rintro ⟨path, info, hi, rfl⟩
    obtain ⟨attrs, hattrs, hpath, hall, houtputs⟩ := readInfo_eq_ok.mp hi.reads
    have hstore : isStorePath state.store i.1 := by
      rw [isStorePath, hi.parses]
      rfl
    rw [if_neg (not_not.mpr hstore)]
    refine bind_eq_ok.mpr ⟨path, hi.parses, bind_eq_ok.mpr ⟨(), hi.ensured,
      bind_eq_ok.mpr ⟨attrs, hattrs, ?_⟩⟩⟩
    refine bind_eq_ok.mpr ⟨_, appendPath_eq_ok.mpr ⟨_, hpath, rfl⟩, ?_⟩
    refine bind_eq_ok.mpr ⟨_, appendAllOutputs_eq_ok.mpr
      ⟨_, hall, fun h => hi.derivation (Or.inl h), rfl⟩, ?_⟩
    refine appendOutputs_eq_ok.mpr ⟨_, houtputs, fun h => hi.derivation (Or.inr h), ?_⟩
    rw [ContextInfo.elemsOf, List.foldl_append, List.foldl_append]

def EvalState.entryElems (state : EvalState) (i : Bytes × Value) : List NixStringContextElem :=
  match state.store.parseStorePath i.1, state.readInfo i.2 with
  | .ok path, .ok info => info.elemsOf path
  | _, _ => []

theorem Appendable.entryElems {i : Bytes × Value} {path : StorePath} {info : ContextInfo}
    (h : Appendable state i path info) : state.entryElems i = info.elemsOf path := by
  rw [EvalState.entryElems, h.parses, h.reads]

theorem foldlM_appendEntry_eq_ok {l : List (Bytes × Value)} {context context' : NixStringContext} :
    l.foldlM state.appendEntry context = .ok context' ↔
      (∀ i ∈ l, ∃ path info, Appendable state i path info) ∧
        (l.flatMap state.entryElems).foldl SortedSet.insert context = context' := by
  induction l generalizing context with
  | nil => exact pure_eq_ok.trans (and_iff_right (List.forall_mem_nil _)).symm
  | cons i l ih =>
    rw [List.foldlM_cons, bind_eq_ok, List.flatMap_cons, List.foldl_append, List.forall_mem_cons]
    constructor
    · rintro ⟨context'', happend, h⟩
      obtain ⟨path, info, hi, rfl⟩ := appendEntry_eq_ok.mp happend
      obtain ⟨hl, h⟩ := ih.mp h
      exact ⟨⟨⟨path, info, hi⟩, hl⟩, by rwa [hi.entryElems]⟩
    · rintro ⟨⟨⟨path, info, hi⟩, hl⟩, h⟩
      rw [hi.entryElems] at h
      exact ⟨_, appendEntry_eq_ok.mpr ⟨path, info, hi, rfl⟩, ih.mpr ⟨hl, h⟩⟩

def EvalState.contextOf (state : EvalState) (attrs : Attrs Value) : NixStringContext :=
  .ofList (attrs.elems.flatMap state.entryElems)

theorem appendContext_eq_ok {s : Bytes} {c v : Value} :
    state.appendContext (.mkString s .empty) c = .ok v ↔
      ∃ attrs, state.forceAttrs c = .ok attrs ∧
        (∀ i ∈ attrs.elems, ∃ path info, Appendable state i path info) ∧
          v = .mkString s (state.contextOf attrs) := by
  have hperm : ∀ attrs : Attrs Value, (state.iterate attrs).Perm attrs.elems := fun attrs =>
    List.perm_insertionSort _ attrs.elems
  have hcontext : ∀ attrs : Attrs Value,
      ((state.iterate attrs).flatMap state.entryElems).foldl SortedSet.insert .empty =
        state.contextOf attrs := by
    intro attrs
    ext e
    rw [SortedSet.mem_foldl_insert, EvalState.contextOf, SortedSet.mem_ofList,
      ((hperm attrs).flatMap_right _).mem_iff]
    exact or_iff_right (SortedSet.not_mem_empty e)
  have hstring : state.forceStringWith (.mkString s .empty) .empty = .ok (s, .empty) :=
    forceStringWith_mkString state (fun e he => absurd he (SortedSet.not_mem_empty e)) s
  have hrun : state.appendContext (.mkString s .empty) c = (do
      let attrs ← state.forceAttrs c
      let context ← (state.iterate attrs).foldlM state.appendEntry .empty
      return .mkString s context) := by
    rw [EvalState.appendContext, hstring]
    rfl
  rw [hrun, bind_eq_ok]
  refine exists_congr fun attrs => and_congr_right fun _ => ?_
  rw [bind_eq_ok]
  constructor
  · rintro ⟨context, hfold, h⟩
    obtain ⟨hall, rfl⟩ := foldlM_appendEntry_eq_ok.mp hfold
    obtain rfl := pure_eq_ok.mp h
    refine ⟨fun i hi => hall i ((hperm attrs).mem_iff.mpr hi), ?_⟩
    rw [hcontext]
  · rintro ⟨hall, rfl⟩
    refine ⟨state.contextOf attrs, ?_, rfl⟩
    exact foldlM_appendEntry_eq_ok.mpr
      ⟨fun i hi => hall i ((hperm attrs).mem_iff.mp hi), hcontext attrs⟩

/-! ### Attributes that were made from a context -/

theorem forceAttrs_ofMembers (attrs : Attrs Value) :
    state.forceAttrs (.ofMembers attrs) = .ok attrs := by
  rw [Value.ofMembers, EvalState.forceAttrs]
  refine congrArg Except.ok (SortedSet.eq_of_elems (List.ext_get ?_ fun i h h' => ?_))
  · simp [ofFamily]
  · simp [ofFamily]

theorem forceList_ofElements (l : List Value) : state.forceList (.ofElements l) = .ok l := by
  rw [Value.ofElements, EvalState.forceList, List.ofFn_get]

theorem mapM_forceStringNoCtx (outputs : List Bytes) :
    (outputs.map fun output => Value.string output []).mapM state.forceStringNoCtx =
      .ok outputs := by
  induction outputs with
  | nil => rfl
  | cons output outputs ih =>
    rw [List.map_cons, List.mapM_cons, ih]
    rfl

theorem find?_ofList_infoAttrs (info : ContextInfo) (name : Bytes) :
    (SortedMap.ofList info.infoAttrs : Attrs Value).find? name =
      if name = str "path" then if info.path then some (.bool true) else none
      else if name = str "allOutputs" then if info.allOutputs then some (.bool true) else none
      else if name = str "outputs" ∧ info.outputs ≠ [] then
        some (.ofElements (info.outputs.map fun output => .string output []))
      else none := by
  have hsingle : ∀ (c : Bool) (key : Bytes) (value : Value),
      ((listIf c (key, value)).reverse.find? (·.1 = name)).map Prod.snd =
        if name = key ∧ c then some value else none := by
    intro c key value
    cases c with
    | false => simp [listIf]
    | true =>
      by_cases hkey : key = name
      · simp [listIf, hkey]
      · simp [listIf, hkey, Ne.symm hkey]
  rw [SortedMap.find?_ofList, ContextInfo.infoAttrs, List.reverse_append, List.reverse_append,
    List.find?_append, List.find?_append, Option.map_or, Option.map_or, hsingle, hsingle, hsingle]
  have hpathAll : str "path" ≠ str "allOutputs" := by decide
  have hpathOutputs : str "path" ≠ str "outputs" := by decide
  have hallOutputs : str "allOutputs" ≠ str "outputs" := by decide
  by_cases hpath : name = str "path"
  · simp [hpath, hpathAll, hpathOutputs]
  · by_cases hall : name = str "allOutputs"
    · simp [hall, hpathAll.symm, hallOutputs]
    · simp [hpath, hall]

theorem readInfo_toValue (info : ContextInfo) : state.readInfo info.toValue = .ok info := by
  refine readInfo_eq_ok.mpr ⟨_, forceAttrs_ofMembers _, ?_, ?_, ?_⟩
  · rw [EvalState.flag, find?_ofList_infoAttrs, if_pos rfl]
    cases info.path <;> rfl
  · rw [EvalState.flag, find?_ofList_infoAttrs, if_neg (by decide), if_pos rfl]
    cases info.allOutputs <;> rfl
  · rw [EvalState.outputNames, find?_ofList_infoAttrs, if_neg (by decide), if_neg (by decide)]
    by_cases hne : info.outputs = []
    · rw [if_neg (by simp [hne]), hne]
    · rw [if_pos ⟨rfl, hne⟩]
      show (state.forceList (.ofElements _) >>= fun elems =>
        elems.mapM state.forceStringNoCtx) = _
      rw [forceList_ofElements]
      exact mapM_forceStringNoCtx info.outputs

/-! ### Gathering and appending -/

theorem mem_elemsOf {info : ContextInfo} {path : StorePath} {e : NixStringContextElem} :
    e ∈ info.elemsOf path ↔ (info.path ∧ e = .opaquePath path) ∨
      (info.allOutputs ∧ e = .drvDeep path) ∨
        ∃ output ∈ info.outputs, e = .built (.opaquePath path) output := by
  rw [ContextInfo.elemsOf, List.mem_append, List.mem_append, or_assoc, mem_listIf, mem_listIf,
    List.mem_map]
  simp only [eq_comm]

theorem outputOf_eq_some {path : StorePath} {e : NixStringContextElem} {output : Bytes} :
    outputOf path e = some output ↔ e = .built (.opaquePath path) output := by
  constructor
  · intro h
    cases e with
    | opaquePath path' => cases h
    | drvDeep drvPath => cases h
    | built drvPath output' =>
      cases drvPath with
      | built drvPath output'' => cases h
      | opaquePath drvPath =>
        rw [outputOf] at h
        split at h
        next hpath =>
          cases h
          rw [hpath]
        next => cases h
  · rintro rfl
    exact if_pos rfl

theorem mem_outputs_gather {l : List NixStringContextElem} {path : StorePath} {output : Bytes} :
    output ∈ (gather l path).outputs ↔ .built (.opaquePath path) output ∈ l := by
  rw [gather, List.mem_filterMap]
  constructor
  · rintro ⟨e, he, heq⟩
    rwa [← outputOf_eq_some.mp heq]
  · exact fun h => ⟨_, h, outputOf_eq_some.mpr rfl⟩

theorem of_mem_elemsOf_gather {l : List NixStringContextElem} {path : StorePath}
    {e : NixStringContextElem} (h : e ∈ (gather l path).elemsOf path) :
    e ∈ l ∧ e.getBaseStorePath = path := by
  rcases mem_elemsOf.mp h with ⟨hin, rfl⟩ | ⟨hin, rfl⟩ | ⟨output, hin, rfl⟩
  · exact ⟨of_decide_eq_true hin, rfl⟩
  · exact ⟨of_decide_eq_true hin, rfl⟩
  · exact ⟨mem_outputs_gather.mp hin, rfl⟩

theorem mem_elemsOf_gather {l : List NixStringContextElem} {e : NixStringContextElem}
    (he : Constant e) (hin : e ∈ l) :
    e ∈ (gather l e.getBaseStorePath).elemsOf e.getBaseStorePath := by
  apply mem_elemsOf.mpr
  cases e with
  | opaquePath path => exact Or.inl ⟨decide_eq_true hin, rfl⟩
  | drvDeep drvPath => exact Or.inr (Or.inl ⟨decide_eq_true hin, rfl⟩)
  | built drvPath output =>
    cases drvPath with
    | built drvPath output' => exact he.elim
    | opaquePath drvPath => exact Or.inr (Or.inr ⟨output, mem_outputs_gather.mpr hin, rfl⟩)

theorem Constant.hashName {e : NixStringContextElem} (h : Constant e) :
    HashName e.getBaseStorePath := by
  cases e with
  | opaquePath path => exact h
  | drvDeep drvPath => exact h
  | built drvPath output =>
    cases drvPath with
    | built drvPath output' => exact h.elim
    | opaquePath drvPath => exact h.1

theorem gather_ne_iff {l : List NixStringContextElem} (hl : ∀ e ∈ l, Constant e)
    {path : StorePath} : gather l path ≠ {} ↔ ∃ e ∈ l, e.getBaseStorePath = path := by
  constructor
  · intro hne
    by_contra hnone
    have hempty : ∀ e, e ∉ (gather l path).elemsOf path := fun e he =>
      hnone ⟨e, of_mem_elemsOf_gather he⟩
    apply hne
    generalize gather l path = info at hempty
    obtain ⟨path', allOutputs, outputs⟩ := info
    have hpath : path' = false := Bool.eq_false_iff.mpr fun h =>
      hempty _ (mem_elemsOf.mpr (Or.inl ⟨h, rfl⟩))
    have hall : allOutputs = false := Bool.eq_false_iff.mpr fun h =>
      hempty _ (mem_elemsOf.mpr (Or.inr (Or.inl ⟨h, rfl⟩)))
    have houtputs : outputs = [] := List.eq_nil_iff_forall_not_mem.mpr fun output h =>
      hempty _ (mem_elemsOf.mpr (Or.inr (Or.inr ⟨output, h, rfl⟩)))
    rw [hpath, hall, houtputs]
  · rintro ⟨e, hin, rfl⟩ hempty
    have hmem := mem_elemsOf_gather (hl e hin) hin
    rw [hempty] at hmem
    exact List.not_mem_nil hmem

/-- The path of a derivation has the name of one. -/
def Derivation : NixStringContextElem → Prop
  | .opaquePath _ => True
  | .drvDeep drvPath => drvPath.isDerivation
  | .built drvPath _ => drvPath.getBaseStorePath.isDerivation

theorem isDerivation_print (cfg : StoreDirConfig) {path : StorePath} (h : path.isDerivation) :
    isDerivation (cfg.print path) := by
  rw [isDerivation, List.isSuffixOf_iff_suffix]
  have hname : str ".drv" <:+ path.name := List.isSuffixOf_iff_suffix.mp h
  have hbase : path.name <:+ path.baseName := List.drop_suffix _ _
  exact (hname.trans hbase).trans (List.suffix_append _ _)

theorem parseStorePath_print_of_hashName (cfg : StoreDirConfig) {path : StorePath}
    (h : HashName path) : cfg.parseStorePath (cfg.print path) = .ok path := by
  rw [parseStorePath_print_iff, show separator path = 45 from h]
  decide

theorem appendable_toValue (hmode : state.readOnlyMode = true) {path : StorePath}
    (hhash : HashName path) {info : ContextInfo}
    (hdrv : info.allOutputs ∨ info.outputs ≠ [] → path.isDerivation) :
    Appendable state (state.store.print path, info.toValue) path info where
  parses := parseStorePath_print_of_hashName state.store hhash
  ensured := by rw [EvalState.ensure, if_neg (not_not.mpr hmode)]
  reads := readInfo_toValue info
  derivation h := isDerivation_print state.store (hdrv h)

theorem appendContext_getContext (hmode : state.readOnlyMode = true) {context : NixStringContext}
    (hconst : ∀ e ∈ context, Constant e) (hdrv : ∀ e ∈ context, Derivation e) (s s' : Bytes) :
    ∃ c, state.getContext (.mkString s' context) = .ok c ∧
      state.appendContext (.mkString s .empty) c = .ok (.mkString s context) := by
  obtain ⟨r, hget, hr⟩ := getContext_mkString state hconst s'
  have hentry : ∀ i ∈ r.elems, ∃ path, i.1 = state.store.print path ∧
      Appendable state i path (gather context.elems path) := by
    rintro ⟨key, value⟩ hi
    obtain ⟨path, rfl, hne, rfl⟩ := (hr key value).mp (SortedMap.find?_eq_some.mpr hi)
    obtain ⟨e, hin, rfl⟩ := (gather_ne_iff hconst).mp hne
    refine ⟨_, rfl, appendable_toValue hmode (hconst e hin).hashName ?_⟩
    rintro (hall | houtputs)
    · exact hdrv (.drvDeep _) (of_decide_eq_true hall)
    · obtain ⟨output, houtput⟩ := List.exists_mem_of_ne_nil _ houtputs
      exact hdrv (.built (.opaquePath _) output) (mem_outputs_gather.mp houtput)
  refine ⟨_, hget, appendContext_eq_ok.mpr ⟨r, forceAttrs_ofMembers r, fun i hi => ?_, ?_⟩⟩
  · obtain ⟨path, -, happend⟩ := hentry i hi
    exact ⟨path, _, happend⟩
  · apply congrArg (Value.mkString s)
    ext e
    rw [EvalState.contextOf, SortedSet.mem_ofList, List.mem_flatMap]
    constructor
    · intro hin
      have hfind := (hr (state.store.print e.getBaseStorePath) _).mpr
        ⟨_, rfl, (gather_ne_iff hconst).mpr ⟨e, hin, rfl⟩, rfl⟩
      have hi := SortedMap.find?_eq_some.mp hfind
      obtain ⟨path, hkey, happend⟩ := hentry _ hi
      obtain rfl := printStorePath_injective state.store.storeDir hkey
      refine ⟨_, hi, ?_⟩
      rw [happend.entryElems]
      exact mem_elemsOf_gather (hconst e hin) hin
    · rintro ⟨i, hi, hin⟩
      obtain ⟨path, -, happend⟩ := hentry i hi
      rw [happend.entryElems] at hin
      exact (of_mem_elemsOf_gather hin).1

/-! ### What is left of a set of attributes -/

namespace EvalState

def infosOf (state : EvalState) (attrs : Attrs Value) (path : StorePath) : List ContextInfo :=
  attrs.elems.filterMap fun i =>
    if state.store.parseStorePath i.1 = .ok path then (state.readInfo i.2).toOption else none

/-- The flags that are set for a path, and its outputs in their order. -/
def merged (state : EvalState) (attrs : Attrs Value) (path : StorePath) : ContextInfo where
  path := (state.infosOf attrs path).any (·.path)
  allOutputs := (state.infosOf attrs path).any (·.allOutputs)
  outputs := (SortedSet.ofList ((state.infosOf attrs path).flatMap (·.outputs)) : StringSet).elems

end EvalState

theorem mem_infosOf {attrs : Attrs Value} {path : StorePath} {info : ContextInfo} :
    info ∈ state.infosOf attrs path ↔ ∃ i ∈ attrs.elems,
      state.store.parseStorePath i.1 = .ok path ∧ state.readInfo i.2 = .ok info := by
  rw [EvalState.infosOf, List.mem_filterMap]
  refine exists_congr fun i => and_congr_right fun _ => ?_
  split
  next hparse =>
    rw [and_iff_right hparse]
    cases state.readInfo i.2 with
    | error e => exact iff_of_false nofun nofun
    | ok info' => simp [Except.toOption]
  next hparse => exact iff_of_false nofun fun h => hparse h.1

theorem mem_contextOf {attrs : Attrs Value} {e : NixStringContextElem} :
    e ∈ state.contextOf attrs ↔
      ∃ path, ∃ info ∈ state.infosOf attrs path, e ∈ info.elemsOf path := by
  rw [EvalState.contextOf, SortedSet.mem_ofList, List.mem_flatMap]
  constructor
  · rintro ⟨i, hi, hin⟩
    rw [EvalState.entryElems] at hin
    split at hin
    next path info hparse hread => exact ⟨path, info, mem_infosOf.mpr ⟨i, hi, hparse, hread⟩, hin⟩
    next => exact absurd hin List.not_mem_nil
  · rintro ⟨path, info, hinfo, hin⟩
    obtain ⟨i, hi, hparse, hread⟩ := mem_infosOf.mp hinfo
    refine ⟨i, hi, ?_⟩
    rw [EvalState.entryElems, hparse, hread]
    exact hin

theorem strictlySorted_outputs {l : List NixStringContextElem} (h : StrictlySorted cmpElem l)
    (path : StorePath) :
    StrictlySorted (compare : Bytes → Bytes → Ordering) (gather l path).outputs := by
  refine List.Pairwise.filterMap (outputOf path) (fun e e' hlt output he output' he' => ?_) h
  obtain rfl := outputOf_eq_some.mp he
  obtain rfl := outputOf_eq_some.mp he'
  have hpath : path.cmp path = .eq := Std.ReflCmp.compare_self
  have hcmp : cmpElem (.built (.opaquePath path) output) (.built (.opaquePath path) output') =
      (path.cmp path).then (compare output output') := rfl
  rwa [hcmp, hpath, Ordering.eq_then] at hlt

theorem gather_contextOf (attrs : Attrs Value) (path : StorePath) :
    gather (state.contextOf attrs).elems path = state.merged attrs path := by
  have hsorted := strictlySorted_outputs (state.contextOf attrs).sorted path
  have hpath : NixStringContextElem.opaquePath path ∈ state.contextOf attrs ↔
      ∃ info ∈ state.infosOf attrs path, info.path := by
    simp [mem_contextOf, mem_elemsOf]
  have hall : NixStringContextElem.drvDeep path ∈ state.contextOf attrs ↔
      ∃ info ∈ state.infosOf attrs path, info.allOutputs := by
    simp [mem_contextOf, mem_elemsOf]
  have houtput : ∀ output, NixStringContextElem.built (.opaquePath path) output ∈
      state.contextOf attrs ↔ ∃ info ∈ state.infosOf attrs path, output ∈ info.outputs := by
    simp [mem_contextOf, mem_elemsOf]
  have houtputs : (gather (state.contextOf attrs).elems path).outputs =
      (state.merged attrs path).outputs := by
    refine hsorted.ext (SortedSet.sorted _) fun output => ?_
    rw [mem_outputs_gather, ← SortedSet.mem_def, houtput, ← List.mem_flatMap]
    exact SortedSet.mem_ofList.symm
  have hpathEq : (gather (state.contextOf attrs).elems path).path =
      (state.merged attrs path).path := by
    rw [Bool.eq_iff_iff, gather, decide_eq_true_iff, EvalState.merged, List.any_eq_true]
    exact hpath
  have hallEq : (gather (state.contextOf attrs).elems path).allOutputs =
      (state.merged attrs path).allOutputs := by
    rw [Bool.eq_iff_iff, gather, decide_eq_true_iff, EvalState.merged, List.any_eq_true]
    exact hall
  exact (ContextInfo.mk.injEq ..).mpr ⟨hpathEq, hallEq, houtputs⟩

/-- Paths are of the form `hash-name`, and no output has a `!` in its name. -/
structure Readable (state : EvalState) (c : Attrs Value) : Prop where
  hashName : ∀ i ∈ c.elems, ∀ path, state.store.parseStorePath i.1 = .ok path → HashName path
  output : ∀ path, ∀ output ∈ (state.merged c path).outputs, 33 ∉ output

theorem Readable.constant {c : Attrs Value} (h : Readable state c) :
    ∀ e ∈ state.contextOf c, Constant e := by
  intro e he
  obtain ⟨path, info, hinfo, hin⟩ := mem_contextOf.mp he
  obtain ⟨i, hi, hparse, -⟩ := mem_infosOf.mp hinfo
  have hhash := h.hashName i hi path hparse
  rcases mem_elemsOf.mp hin with ⟨-, rfl⟩ | ⟨-, rfl⟩ | ⟨output, -, rfl⟩
  · exact hhash
  · exact hhash
  · refine ⟨hhash, h.output path output ?_⟩
    rw [← gather_contextOf]
    exact mem_outputs_gather.mpr he

theorem getContext_appendContext {c : Attrs Value} (hc : Readable state c) {s : Bytes} {v : Value}
    (happend : state.appendContext (.mkString s .empty) (.ofMembers c) = .ok v) :
    ∃ r : Attrs Value, state.getContext v = .ok (.ofMembers r) ∧
      ∀ key value, r.find? key = some value ↔
        ∃ path, key = state.store.print path ∧ state.merged c path ≠ {} ∧
          value = (state.merged c path).toValue := by
  obtain ⟨attrs, hattrs, -, rfl⟩ := appendContext_eq_ok.mp happend
  rw [forceAttrs_ofMembers] at hattrs
  cases hattrs
  obtain ⟨r, hget, hr⟩ := getContext_mkString state hc.constant s
  simp only [gather_contextOf] at hr
  exact ⟨r, hget, hr⟩

/-- In read-only mode a context is appended again as it was. The attributes that are read are
those that were appended, where flags that are false, other attributes and what is empty are
left out, the outputs are sorted, and what is said of one path is put together. -/
theorem contexts_roundTrip (state : EvalState) :
    (state.readOnlyMode = true → ∀ context : NixStringContext, (∀ e ∈ context, Constant e) →
      (∀ e ∈ context, Derivation e) → ∀ s s' : Bytes,
        ∃ c, state.getContext (.mkString s' context) = .ok c ∧
          state.appendContext (.mkString s .empty) c = .ok (.mkString s context)) ∧
    ∀ (c : Attrs Value) (s : Bytes) (v : Value), Readable state c →
      state.appendContext (.mkString s .empty) (.ofMembers c) = .ok v →
        ∃ r : Attrs Value, state.getContext v = .ok (.ofMembers r) ∧
          ∀ key value, r.find? key = some value ↔
            ∃ path, key = state.store.print path ∧ state.merged c path ≠ {} ∧
              value = (state.merged c path).toValue :=
  ⟨fun hmode _ hconst hdrv s s' => appendContext_getContext hmode hconst hdrv s s',
    fun _ _ _ hc happend => getContext_appendContext hc happend⟩

def readOnlyState : EvalState where
  store := dynamicDirs
  xpSettings _ := false
  readOnlyMode := true
  create _ := 0
  ensurePath _ := .ok ()
  queryOutput _ _ := .ok none
  printValue _ := []

theorem hashName_producer : HashName producer :=
  show separator producer = 45 by decide

theorem isDerivation_producer : producer.isDerivation := by
  decide

def unsorted : ContextInfo where
  outputs := [str "out", str "dev"]

def unsortedAttrs : Attrs Value :=
  .ofList [(readOnlyState.store.print producer, unsorted.toValue)]

theorem appendable_unsorted :
    Appendable readOnlyState (readOnlyState.store.print producer, unsorted.toValue) producer
      unsorted :=
  appendable_toValue rfl hashName_producer fun _ => isDerivation_producer

theorem infosOf_unsortedAttrs {path : StorePath} {info : ContextInfo}
    (h : info ∈ readOnlyState.infosOf unsortedAttrs path) : path = producer ∧ info = unsorted := by
  obtain ⟨i, hi, hparse, hread⟩ := mem_infosOf.mp h
  obtain rfl := List.mem_singleton.mp hi
  constructor
  · exact Except.ok.inj (hparse.symm.trans appendable_unsorted.parses)
  · exact Except.ok.inj (hread.symm.trans appendable_unsorted.reads)

theorem appendContext_unsortedAttrs :
    readOnlyState.appendContext (.mkString [] .empty) (.ofMembers unsortedAttrs) =
      .ok (.mkString [] (readOnlyState.contextOf unsortedAttrs)) := by
  refine appendContext_eq_ok.mpr ⟨_, forceAttrs_ofMembers _, fun i hi => ?_, rfl⟩
  obtain rfl := List.mem_singleton.mp hi
  exact ⟨_, _, appendable_unsorted⟩

theorem readable_unsortedAttrs : Readable readOnlyState unsortedAttrs where
  hashName i hi path hparse := by
    obtain rfl := List.mem_singleton.mp hi
    obtain rfl := Except.ok.inj (hparse.symm.trans appendable_unsorted.parses)
    exact hashName_producer
  output path output houtput := by
    obtain ⟨info, hinfo, hin⟩ := List.mem_flatMap.mp (SortedSet.mem_ofList.mp houtput)
    obtain ⟨-, rfl⟩ := infosOf_unsortedAttrs hinfo
    have hoff : ∀ output ∈ unsorted.outputs, 33 ∉ output := by decide
    exact hoff output hin

theorem contexts_roundTrip_producer :
    (∃ c, readOnlyState.getContext (.mkString []
        (.ofList [.opaquePath producer, .drvDeep producer,
          .built (.opaquePath producer) (str "out")])) = .ok c ∧
      readOnlyState.appendContext (.mkString (str "s") .empty) c =
        .ok (.mkString (str "s") (.ofList [.opaquePath producer, .drvDeep producer,
          .built (.opaquePath producer) (str "out")]))) ∧
    ∃ r : Attrs Value, readOnlyState.getContext
        (.mkString [] (readOnlyState.contextOf unsortedAttrs)) = .ok (.ofMembers r) ∧
      ∀ key value, r.find? key = some value ↔
        ∃ path, key = readOnlyState.store.print path ∧
          readOnlyState.merged unsortedAttrs path ≠ {} ∧
            value = (readOnlyState.merged unsortedAttrs path).toValue := by
  have h := contexts_roundTrip readOnlyState
  refine ⟨h.1 rfl _ ?_ ?_ _ _,
    h.2 unsortedAttrs [] _ readable_unsortedAttrs appendContext_unsortedAttrs⟩
  · intro e he
    rcases List.mem_cons.mp (SortedSet.mem_ofList.mp he) with rfl | he
    · exact hashName_producer
    · rcases List.mem_cons.mp he with rfl | he
      · exact hashName_producer
      · obtain rfl := List.mem_singleton.mp he
        exact ⟨hashName_producer, by decide⟩
  · intro e he
    rcases List.mem_cons.mp (SortedSet.mem_ofList.mp he) with rfl | he
    · trivial
    · rcases List.mem_cons.mp he with rfl | he
      · exact isDerivation_producer
      · obtain rfl := List.mem_singleton.mp he
        exact isDerivation_producer

/-- There are no flags that are false, and nothing is empty or twice there. -/
def Irredundant (state : EvalState) (c : Attrs Value) : Prop :=
  ∀ i ∈ c.elems, ∃ path info, i = (state.store.print path, ContextInfo.toValue info) ∧
    info ≠ {} ∧ info.outputs.Nodup

/-- The outputs of a path come back in another order. -/
theorem not_getContext_appendContext :
    ¬∀ (state : EvalState) (c : Attrs Value) (s : Bytes) (v : Value), Irredundant state c →
      state.appendContext (.mkString s .empty) (.ofMembers c) = .ok v →
        state.getContext v = .ok (.ofMembers c) := by
  intro h
  have hirredundant : Irredundant readOnlyState unsortedAttrs := by
    intro i hi
    obtain rfl := List.mem_singleton.mp hi
    exact ⟨producer, unsorted, rfl, by decide, by decide⟩
  have hback := h readOnlyState unsortedAttrs [] _ hirredundant appendContext_unsortedAttrs
  obtain ⟨r, hget, hr⟩ :=
    getContext_appendContext readable_unsortedAttrs appendContext_unsortedAttrs
  have hmembers : Value.ofMembers r = .ofMembers unsortedAttrs :=
    Except.ok.inj (hget.symm.trans hback)
  obtain rfl : r = unsortedAttrs := by
    have hforce := congrArg readOnlyState.forceAttrs hmembers
    rw [forceAttrs_ofMembers, forceAttrs_ofMembers] at hforce
    exact Except.ok.inj hforce
  have hfind : unsortedAttrs.find? (readOnlyState.store.print producer) =
      some unsorted.toValue :=
    SortedMap.find?_eq_some.mpr List.mem_cons_self
  obtain ⟨path, -, -, hvalue⟩ := (hr _ _).mp hfind
  have hinfo : unsorted = readOnlyState.merged unsortedAttrs path := by
    have hread := congrArg readOnlyState.readInfo hvalue
    rw [readInfo_toValue, readInfo_toValue] at hread
    exact Except.ok.inj hread
  have hsorted : StrictlySorted (compare : Bytes → Bytes → Ordering) unsorted.outputs := by
    rw [hinfo]
    exact SortedSet.sorted _
  revert hsorted
  decide

end Nix.Eval.ContextPrimops
