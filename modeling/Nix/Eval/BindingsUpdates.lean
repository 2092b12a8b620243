import Mathlib.Data.Finset.Card
import Mathlib.Data.List.Nodup
import Nix.Eval.BindingsIteration

/-!
What an update operator makes of layers is the union of its operands.
-/

set_option linter.dupNamespace false

namespace Nix.Eval.LayeredBindings

open Util.Types

variable {V : Type}

def names (l : List (Attr V)) : Finset Symbol :=
  (l.map Attr.name).toFinset

theorem mem_names {l : List (Attr V)} {name : Symbol} : name ∈ names l ↔ ∃ a ∈ l, a.name = name := by
  simp [names]

theorem Sorted.card_names {l : List (Attr V)} (h : Sorted l) : (names l).card = l.length := by
  have hnodup : (l.map Attr.name).Nodup :=
    List.pairwise_map.mpr (h.imp fun hlt => Nat.ne_of_lt hlt)
  rw [names, List.toFinset_card_of_nodup hnodup, List.length_map]

@[simp] theorem names_cons (a : Attr V) (l : List (Attr V)) :
    names (a :: l) = insert a.name (names l) := by
  simp [names]

theorem Sorted.notMem_names {a b : Attr V} {l : List (Attr V)} (h : Sorted (b :: l))
    (hlt : a.name < b.name) : a.name ∉ names (b :: l) := by
  rw [mem_names]
  rintro ⟨c, hc, heq⟩
  rcases List.mem_cons.mp hc with rfl | hc
  · exact absurd hlt (heq ▸ Nat.lt_irrefl _)
  · exact absurd (Nat.lt_trans hlt ((List.pairwise_cons.mp h).1 c hc)) (heq ▸ Nat.lt_irrefl _)

theorem Sorted.notMem_names_tail {a : Attr V} {l : List (Attr V)} (h : Sorted (a :: l)) :
    a.name ∉ names l := by
  rw [mem_names]
  rintro ⟨c, hc, heq⟩
  exact absurd ((List.pairwise_cons.mp h).1 c hc) (heq ▸ Nat.lt_irrefl _)

theorem mem_mergeAttrs {is js : List (Attr V)} (his : Sorted is) (hjs : Sorted js) {a : Attr V} :
    a ∈ mergeAttrs is js ↔ a ∈ js ∨ a ∈ is ∧ ∀ b ∈ js, b.name ≠ a.name := by
  induction is, js using mergeAttrs.induct with
  | case1 js => simp [mergeAttrs]
  | case2 i is => simp [mergeAttrs]
  | case3 i is j js heq ih =>
    obtain ⟨hi, his'⟩ := List.pairwise_cons.mp his
    rw [mergeAttrs, if_pos heq, List.mem_cons, ih his' hjs.tail, List.mem_cons, List.mem_cons,
      List.forall_mem_cons]
    constructor
    · rintro (ha | ha | ⟨ha, hnames⟩)
      · exact .inl (.inl ha)
      · exact .inl (.inr ha)
      · exact .inr ⟨.inr ha, heq ▸ Nat.ne_of_lt (hi a ha), hnames⟩
    · rintro ((ha | ha) | ⟨rfl | ha, hne, hnames⟩)
      · exact .inl ha
      · exact .inr (.inl ha)
      · exact absurd heq.symm hne
      · exact .inr (.inr ⟨ha, hnames⟩)
  | case4 i is j js hne hlt ih =>
    have hleft : ∀ b ∈ j :: js, b.name ≠ i.name := by
      intro b hb heq
      exact hjs.notMem_names hlt (mem_names.mpr ⟨b, hb, heq⟩)
    have hcons : a ∈ i :: is ↔ a = i ∨ a ∈ is := List.mem_cons
    rw [mergeAttrs, if_neg hne, if_pos hlt, List.mem_cons, ih his.tail hjs, hcons]
    constructor
    · rintro (rfl | ha | ha)
      · exact .inr ⟨.inl rfl, hleft⟩
      · exact .inl ha
      · exact .inr ⟨.inr ha.1, ha.2⟩
    · rintro (ha | ⟨rfl | ha, hnames⟩)
      · exact .inr (.inl ha)
      · exact .inl rfl
      · exact .inr (.inr ⟨ha, hnames⟩)
  | case5 i is j js hne hge ih =>
    have hlt : j.name < i.name := Nat.lt_of_le_of_ne (Nat.le_of_not_lt hge) (Ne.symm hne)
    have hright : a ∈ i :: is → j.name ≠ a.name := fun ha heq =>
      his.notMem_names hlt (mem_names.mpr ⟨a, ha, heq.symm⟩)
    rw [mergeAttrs, if_neg hne, if_neg hge, List.mem_cons, ih his hjs.tail, List.forall_mem_cons]
    simp only [List.mem_cons] at hright ⊢
    constructor
    · rintro (ha | ha | ⟨ha, hnames⟩)
      · exact .inl (.inl ha)
      · exact .inl (.inr ha)
      · exact .inr ⟨ha, hright ha, hnames⟩
    · rintro ((ha | ha) | ⟨ha, -, hnames⟩)
      · exact .inl ha
      · exact .inr (.inl ha)
      · exact .inr (.inr ⟨ha, hnames⟩)

theorem sorted_mergeAttrs {is js : List (Attr V)} (his : Sorted is) (hjs : Sorted js) :
    Sorted (mergeAttrs is js) := by
  induction is, js using mergeAttrs.induct with
  | case1 js => rwa [mergeAttrs]
  | case2 i is => rwa [mergeAttrs]
  | case3 i is j js heq ih =>
    obtain ⟨hi, his'⟩ := List.pairwise_cons.mp his
    obtain ⟨hj, hjs'⟩ := List.pairwise_cons.mp hjs
    rw [mergeAttrs, if_pos heq]
    refine List.pairwise_cons.mpr ⟨fun a ha => ?_, ih his' hjs'⟩
    rcases (mem_mergeAttrs his' hjs').mp ha with ha | ⟨ha, -⟩
    · exact hj a ha
    · exact heq ▸ hi a ha
  | case4 i is j js hne hlt ih =>
    obtain ⟨hi, his'⟩ := List.pairwise_cons.mp his
    rw [mergeAttrs, if_neg hne, if_pos hlt]
    refine List.pairwise_cons.mpr ⟨fun a ha => ?_, ih his' hjs⟩
    rcases (mem_mergeAttrs his' hjs).mp ha with ha | ⟨ha, -⟩
    · rcases List.mem_cons.mp ha with rfl | ha
      · exact hlt
      · exact Nat.lt_trans hlt ((List.pairwise_cons.mp hjs).1 a ha)
    · exact hi a ha
  | case5 i is j js hne hge ih =>
    obtain ⟨hj, hjs'⟩ := List.pairwise_cons.mp hjs
    have hlt : j.name < i.name := Nat.lt_of_le_of_ne (Nat.le_of_not_lt hge) (Ne.symm hne)
    rw [mergeAttrs, if_neg hne, if_neg hge]
    refine List.pairwise_cons.mpr ⟨fun a ha => ?_, ih his hjs'⟩
    rcases (mem_mergeAttrs his hjs').mp ha with ha | ⟨ha, -⟩
    · exact hj a ha
    · rcases List.mem_cons.mp ha with rfl | ha
      · exact hlt
      · exact Nat.lt_trans hlt ((List.pairwise_cons.mp his).1 a ha)

theorem getInChunk_mergeAttrs {is js : List (Attr V)} (his : Sorted is) (hjs : Sorted js)
    (name : Symbol) :
    getInChunk (mergeAttrs is js) name = (getInChunk js name).or (getInChunk is name) := by
  ext a
  rw [getInChunk_eq_some (sorted_mergeAttrs his hjs), mem_mergeAttrs his hjs, Option.or_eq_some_iff,
    getInChunk_eq_some hjs, getInChunk_eq_none hjs, getInChunk_eq_some his]
  constructor
  · rintro ⟨ha | ⟨ha, hnames⟩, rfl⟩
    · exact .inl ⟨ha, rfl⟩
    · exact .inr ⟨hnames, ha, rfl⟩
  · rintro (⟨ha, rfl⟩ | ⟨hnames, ha, rfl⟩)
    · exact ⟨.inl ha, rfl⟩
    · exact ⟨.inr ⟨ha, hnames⟩, rfl⟩

theorem length_mergeAttrs_le (is js : List (Attr V)) :
    (mergeAttrs is js).length ≤ is.length + js.length := by
  induction is, js using mergeAttrs.induct with
  | case1 js => simp [mergeAttrs]
  | case2 i is => simp [mergeAttrs]
  | case3 i is j js heq ih =>
    rw [mergeAttrs, if_pos heq]
    simp only [List.length_cons]
    omega
  | case4 i is j js hne hlt ih =>
    rw [mergeAttrs, if_neg hne, if_pos hlt]
    simp only [List.length_cons] at ih ⊢
    omega
  | case5 i is j js hne hge ih =>
    rw [mergeAttrs, if_neg hne, if_neg hge]
    simp only [List.length_cons] at ih ⊢
    omega

theorem length_setIntersection {as bs : List (Attr V)} (has : Sorted as) (hbs : Sorted bs) :
    (setIntersection as bs).length = (names as ∩ names bs).card := by
  induction as, bs using setIntersection.induct with
  | case1 bs => simp [setIntersection, names]
  | case2 a as => simp [setIntersection, names]
  | case3 a as b bs hlt ih =>
    rw [setIntersection, if_pos hlt, ih has.tail hbs, names_cons a,
      Finset.insert_inter_of_notMem (hbs.notMem_names hlt)]
  | case4 a as b bs hge hlt ih =>
    rw [setIntersection, if_neg hge, if_pos hlt, ih has hbs.tail, names_cons b,
      Finset.inter_insert_of_notMem (has.notMem_names hlt)]
  | case5 a as b bs hge hle ih =>
    have heq : a.name = b.name := Nat.le_antisymm (Nat.le_of_not_lt hle) (Nat.le_of_not_lt hge)
    rw [setIntersection, if_neg hge, if_neg hle, List.length_cons, ih has.tail hbs.tail,
      names_cons, names_cons, ← heq, ← Finset.insert_inter_distrib, Finset.card_insert_of_notMem]
    exact fun hin => has.notMem_names_tail (Finset.mem_inter.mp hin).1

theorem countP_eq_card {l : List (Attr V)} (h : Sorted l) {s : Finset Symbol} {p : Attr V → Bool}
    (hp : ∀ a, p a = true ↔ a.name ∈ s) : l.countP p = (s ∩ names l).card := by
  have hnames : s ∩ names l = names (l.filter p) := by
    ext name
    simp only [Finset.mem_inter, mem_names, List.mem_filter, hp]
    constructor
    · rintro ⟨hs, a, ha, rfl⟩
      exact ⟨a, ⟨ha, hs⟩, rfl⟩
    · rintro ⟨a, ⟨ha, hs⟩, rfl⟩
      exact ⟨hs, a, ha, rfl⟩
  have hfilter : Sorted (l.filter p) := h.sublist List.filter_sublist
  rw [hnames, hfilter.card_names, List.countP_eq_length_filter]

/-- What holds of the sets that an evaluation makes. -/
structure Bindings.Ok (b : Bindings V) : Prop where
  sorted : ∀ l ∈ b.layers, Sorted l
  flat : b.baseLayer = none → b.size = b.attrs.length
  size : b.size = b.toList.length
  layers : b.layers.length = b.numLayers
  bounded : b.numLayers ≤ maxLayers

theorem getInLayers_name {layers : List (List (Attr V))} (h : ∀ l ∈ layers, Sorted l)
    {name : Symbol} {a : Attr V} (ha : getInLayers layers name = some a) : a.name = name := by
  obtain ⟨l, hl, hget⟩ := List.exists_of_findSome?_eq_some ha
  exact ((getInChunk_eq_some (h l hl)).mp hget).2

namespace Bindings

theorem toList_spec_of_ok {b : Bindings V} (h : b.Ok) :
    Sorted b.toList ∧ ∀ a, a ∈ b.toList ↔ b.get a.name = some a :=
  toList_spec h.sorted h.flat

theorem mem_names_toList {b : Bindings V} (h : ∀ l ∈ b.layers, Sorted l)
    (hflat : b.baseLayer = none → b.size = b.attrs.length) {name : Symbol} :
    name ∈ names b.toList ↔ (b.get name).isSome := by
  have hmem := (toList_spec h hflat).2
  rw [mem_names]
  constructor
  · rintro ⟨a, ha, rfl⟩
    rw [(hmem a).mp ha]
    rfl
  · intro hsome
    obtain ⟨a, ha⟩ := Option.isSome_iff_exists.mp hsome
    have hname : a.name = name := by
      rw [get_eq] at ha
      exact getInLayers_name h ha
    exact ⟨a, (hmem a).mpr (hname ▸ ha), hname⟩

theorem getInChunk_toList {b : Bindings V} (h : b.Ok) (name : Symbol) :
    getInChunk b.toList name = b.get name := by
  obtain ⟨hsorted, hmem⟩ := toList_spec_of_ok h
  ext a
  rw [getInChunk_eq_some hsorted, hmem]
  constructor
  · rintro ⟨ha, rfl⟩
    exact ha
  · intro ha
    have hname : a.name = name := by
      rw [get_eq] at ha
      exact getInLayers_name h.sorted ha
    exact ⟨hname ▸ ha, hname⟩

theorem get_of_empty {b : Bindings V} (h : b.Ok) (hempty : b.empty) (name : Symbol) :
    b.get name = none := by
  have hnil : b.toList = [] :=
    List.eq_nil_of_length_eq_zero (h.size.symm.trans (of_decide_eq_true hempty))
  have hnot := not_congr (@mem_names_toList _ _ h.sorted h.flat name)
  rw [hnil] at hnot
  exact Option.not_isSome_iff_eq_none.mp (hnot.mp (by simp [names]))

end Bindings

namespace BindingsBuilder

theorem foldlM_pushBack {l : List (Attr V)} {builder : BindingsBuilder V}
    (h : builder.attrs.length + l.length ≤ builder.capacity) :
    l.foldlM pushBack builder = .ok { builder with attrs := builder.attrs ++ l } := by
  induction l generalizing builder with
  | nil => simp [pure, Except.pure]
  | cons a l ih =>
    rw [List.length_cons] at h
    have hpush : builder.pushBack a = .ok { builder with attrs := builder.attrs ++ [a] } :=
      if_pos (by omega)
    rw [List.foldlM_cons, hpush]
    refine (ih ?_).trans ?_
    · simp only [List.length_append, List.length_singleton]
      omega
    · simp

theorem ok_alreadySorted {attrs : List (Attr V)} (h : Sorted attrs) (capacity : Nat) :
    (alreadySorted { attrs, capacity }).Ok ∧
      (alreadySorted { attrs, capacity }).toList = attrs ∧
      ∀ name, (alreadySorted { attrs, capacity }).get name = getInChunk attrs name := by
  have hlist : (alreadySorted { attrs, capacity }).toList = attrs :=
    Bindings.toList_of_flat rfl rfl
  refine ⟨⟨?_, fun _ => rfl, ?_, rfl, Nat.le_of_ble_eq_true rfl⟩, hlist, fun _ => rfl⟩
  · exact List.forall_mem_singleton.mpr h
  · rw [hlist]
    rfl

theorem ok_layerOnTopOf {attrs : List (Attr V)} (h : Sorted attrs) {base : Bindings V}
    (hbase : base.Ok) (hfull : ¬ base.isLayerListFull) (capacity : Nat) :
    (alreadySorted { layerOnTopOf { capacity } base with attrs }).Ok ∧
      ∀ name, (alreadySorted { layerOnTopOf { capacity } base with attrs }).get name =
        (getInChunk attrs name).or (base.get name) := by
  generalize hb : alreadySorted { layerOnTopOf { capacity } base with attrs } = b
  have hget : ∀ name, b.get name = (getInChunk attrs name).or (base.get name) := by
    intro name
    rw [← hb, alreadySorted, layerOnTopOf, Bindings.get]
    cases getInChunk attrs name <;> rfl
  have hlayers : b.layers = attrs :: base.layers := by
    rw [← hb]
    rfl
  have hsorted : ∀ l ∈ b.layers, Sorted l := by
    rw [hlayers]
    exact List.forall_mem_cons.mpr ⟨h, hbase.sorted⟩
  have hflat : b.baseLayer = none → b.size = b.attrs.length := by
    rw [← hb]
    exact fun hnone => absurd hnone (Option.some_ne_none _)
  have hduplicates : (if attrs.length > base.size then (setIntersection base.toList attrs).length
      else attrs.countP fun attr => (base.get attr.name).isSome) =
        (names base.toList ∩ names attrs).card := by
    split
    · exact length_setIntersection (Bindings.toList_spec_of_ok hbase).1 h
    · exact countP_eq_card h fun a => (Bindings.mem_names_toList hbase.sorted hbase.flat).symm
  have hsize : b.size = base.size + attrs.length - (names base.toList ∩ names attrs).card := by
    rw [← hduplicates, ← hb]
    rfl
  have hunion : names b.toList = names base.toList ∪ names attrs := by
    ext name
    have hchunk : name ∈ names attrs ↔ (getInChunk attrs name).isSome := by
      rw [mem_names, Option.isSome_iff_exists]
      simp only [getInChunk_eq_some h]
    rw [Finset.mem_union, Bindings.mem_names_toList hsorted hflat,
      Bindings.mem_names_toList hbase.sorted hbase.flat, hchunk, hget, Option.isSome_or,
      Bool.or_eq_true, or_comm]
  have hlength : b.size = b.toList.length := by
    rw [hsize, hbase.size, ← (Bindings.toList_spec hsorted hflat).1.card_names, hunion,
      Finset.card_union, (Bindings.toList_spec_of_ok hbase).1.card_names, h.card_names]
  have hbound : base.numLayers ≠ maxLayers := fun heq => hfull (decide_eq_true heq)
  have hnumLayers : b.numLayers = base.numLayers + 1 := by
    rw [← hb]
    rfl
  refine ⟨⟨hsorted, hflat, hlength, ?_, ?_⟩, hget⟩
  · rw [hlayers, hnumLayers, List.length_cons, hbase.layers]
  · rw [hnumLayers]
    exact Nat.lt_of_le_of_ne hbase.bounded hbound

end BindingsBuilder

theorem opUpdate_spec (layerRhsSizeThreshold : Nat) {b₁ b₂ : Bindings V} (h₁ : b₁.Ok)
    (h₂ : b₂.Ok) : ∃ b, opUpdate layerRhsSizeThreshold b₁ b₂ = .ok b ∧ b.Ok ∧
      ∀ name, b.get name = (b₂.get name).or (b₁.get name) := by
  obtain ⟨hsorted₁, hmem₁⟩ := Bindings.toList_spec_of_ok h₁
  obtain ⟨hsorted₂, hmem₂⟩ := Bindings.toList_spec_of_ok h₂
  unfold opUpdate
  split_ifs with hempty₁ hempty₂ hlayer
  · refine ⟨b₂, rfl, h₂, fun name => ?_⟩
    rw [Bindings.get_of_empty h₁ hempty₁, Option.or_none]
  · refine ⟨b₁, rfl, h₁, fun name => ?_⟩
    rw [Bindings.get_of_empty h₂ hempty₂, Option.none_or]
  · have hcapacity : (BindingsBuilder.layerOnTopOf { capacity := b₂.size } b₁).attrs.length +
        b₂.toList.length ≤ (BindingsBuilder.layerOnTopOf { capacity := b₂.size } b₁).capacity := by
      rw [← h₂.size]
      exact Nat.le_of_eq (Nat.zero_add _)
    obtain ⟨hok, hget⟩ := BindingsBuilder.ok_layerOnTopOf hsorted₂ h₁ hlayer.1 b₂.size
    refine ⟨_, ?_, hok, fun name => ?_⟩
    · dsimp only
      rw [BindingsBuilder.foldlM_pushBack hcapacity]
      rfl
    · rw [hget, Bindings.getInChunk_toList h₂]
  · have hcapacity : (BindingsBuilder.attrs { capacity := b₁.size + b₂.size } : List (Attr V)).length +
        (mergeAttrs b₁.toList b₂.toList).length ≤ b₁.size + b₂.size := by
      rw [h₁.size, h₂.size]
      exact (Nat.zero_add _).trans_le (length_mergeAttrs_le _ _)
    obtain ⟨hok, -, hget⟩ := BindingsBuilder.ok_alreadySorted
      (sorted_mergeAttrs hsorted₁ hsorted₂) (b₁.size + b₂.size)
    refine ⟨_, ?_, hok, fun name => ?_⟩
    · dsimp only
      rw [BindingsBuilder.foldlM_pushBack hcapacity]
      rfl
    · rw [hget, getInChunk_mergeAttrs hsorted₁ hsorted₂, Bindings.getInChunk_toList h₁,
        Bindings.getInChunk_toList h₂]

theorem foldlM_opUpdate (layerRhsSizeThreshold : Nat) {q : List (Bindings V)}
    (hq : ∀ b ∈ q, b.Ok) {v : Bindings V} (hv : v.Ok) :
    ∃ b, q.reverse.foldlM (opUpdate layerRhsSizeThreshold) v = .ok b ∧ b.Ok ∧
      ∀ name, b.get name = (q.findSome? (·.get name)).or (v.get name) := by
  induction q with
  | nil => exact ⟨v, rfl, hv, fun name => rfl⟩
  | cons c q ih =>
    obtain ⟨hc, hq⟩ := List.forall_mem_cons.mp hq
    obtain ⟨b, hfold, hb, hget⟩ := ih hq
    obtain ⟨b', hupdate, hb', hget'⟩ := opUpdate_spec layerRhsSizeThreshold hb hc
    refine ⟨b', ?_, hb', fun name => ?_⟩
    · rw [List.reverse_cons, List.foldlM_append, hfold]
      simp [hupdate, bind, Except.bind, pure, Except.pure]
    · rw [hget', hget, List.findSome?_cons]
      cases c.get name <;> rfl

theorem Bindings.ok_emptyBindings : (emptyBindings : Bindings V).Ok :=
  (BindingsBuilder.ok_alreadySorted .nil 0).1

namespace Expr

theorem find?_name_eq {chunk : List (Attr V)} (h : Sorted chunk) (name : Symbol) :
    chunk.find? (·.name = name) = getInChunk chunk name := by
  cases hget : getInChunk chunk name with
  | none =>
    rw [List.find?_eq_none]
    simpa using (getInChunk_eq_none h).mp hget
  | some a =>
    obtain ⟨ha, rfl⟩ := (getInChunk_eq_some h).mp hget
    cases hfind : chunk.find? (·.name = a.name) with
    | none => simpa using List.find?_eq_none.mp hfind a ha
    | some b =>
      have hname : b.name = a.name := by simpa using List.find?_some hfind
      rw [h.eq_of_name_eq (List.mem_of_find?_eq_some hfind) ha hname]

theorem eval_spec (layerRhsSizeThreshold : Nat) (e : Expr V) :
    (∃ b, e.eval layerRhsSizeThreshold = .ok b ∧ b.Ok ∧ ∀ name, b.get name = e.denote name) ∧
    ∃ q, e.evalForUpdate layerRhsSizeThreshold = .ok q ∧ (∀ b ∈ q, b.Ok) ∧
      ∀ name, q.findSome? (·.get name) = e.denote name := by
  induction e with
  | attrs chunk sorted =>
    obtain ⟨hok, -, hget⟩ := BindingsBuilder.ok_alreadySorted sorted chunk.length
    have hdenote : ∀ name, (attrs chunk sorted).denote name = getInChunk chunk name :=
      find?_name_eq sorted
    refine ⟨⟨_, rfl, hok, fun name => (hget name).trans (hdenote name).symm⟩, _, rfl,
      List.forall_mem_singleton.mpr hok, fun name => ?_⟩
    rw [List.findSome?_cons, hget, hdenote]
    cases getInChunk chunk name <;> rfl
  | opUpdate e₁ e₂ ih₁ ih₂ =>
    obtain ⟨-, q₁, hq₁, hok₁, hget₁⟩ := ih₁
    obtain ⟨-, q₂, hq₂, hok₂, hget₂⟩ := ih₂
    have hok : ∀ b ∈ q₂ ++ q₁, b.Ok := List.forall_mem_append.mpr ⟨hok₂, hok₁⟩
    have hget : ∀ name, (q₂ ++ q₁).findSome? (·.get name) = (opUpdate e₁ e₂).denote name := by
      intro name
      rw [List.findSome?_append, hget₁, hget₂, denote]
    obtain ⟨b, hfold, hb, hbget⟩ :=
      foldlM_opUpdate layerRhsSizeThreshold hok Bindings.ok_emptyBindings
    refine ⟨⟨b, ?_, hb, fun name => ?_⟩, q₂ ++ q₁, ?_, hok, hget⟩
    · rw [eval, hq₂, hq₁]
      exact hfold
    · rw [hbget, hget]
      exact Option.or_none
    · rw [evalForUpdate, hq₂, hq₁]
      rfl
  | other e ih =>
    obtain ⟨⟨b, hb, hok, hget⟩, -⟩ := ih
    refine ⟨⟨b, by rw [eval, hb], hok, hget⟩, [b], ?_, List.forall_mem_singleton.mpr hok,
      fun name => ?_⟩
    · rw [evalForUpdate, hb]
      rfl
    · rw [List.findSome?_cons, hget, denote]
      cases e.denote name <;> rfl

/-- The value of an expression is the union of its operands, whichever way it is layered. -/
theorem eval_denotes (layerRhsSizeThreshold : Nat) (e : Expr V) :
    ∃ b, e.eval layerRhsSizeThreshold = .ok b ∧
      (∀ name, b.get name = e.denote name) ∧
      Sorted b.toList ∧ (∀ a, a ∈ b.toList ↔ b.get a.name = some a) ∧
      b.size = b.toList.length ∧
      b.layers.length = b.numLayers ∧ b.numLayers ≤ maxLayers := by
  obtain ⟨⟨b, hb, hok, hget⟩, -⟩ := eval_spec layerRhsSizeThreshold e
  obtain ⟨hsorted, hmem⟩ := Bindings.toList_spec_of_ok hok
  exact ⟨b, hb, hget, hsorted, hmem, hok.size, hok.layers, hok.bounded⟩

end Expr

end Nix.Eval.LayeredBindings
