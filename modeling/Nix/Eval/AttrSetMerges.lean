import Mathlib.Data.List.Nodup
import Nix.Eval.AttrSets

/-!
Merging two sets: what it does to the meaning of the attributes, and when the displacements of
the moved nodes stay right.
-/

set_option linter.dupNamespace false

namespace Nix.Eval.AttrSets

open Util.Types

variable {α : Type}

section All

variable (P : ExprAttrs α → Prop)

mutual

def Expr.All : Expr α → Prop
  | .other _ => True
  | .attrs s => s.All

def ExprAttrs.All : ExprAttrs α → Prop
  | .mk recursive attrs inheritFromExprs froms dynamicAttrs =>
      P (.mk recursive attrs inheritFromExprs froms dynamicAttrs) ∧ attrs.All ∧ dynamicAttrs.All

def AttrDefs.All : AttrDefs α → Prop
  | .nil => True
  | .plain _ e rest => e.All ∧ rest.All
  | .inherited _ rest => rest.All
  | .inheritedFrom _ _ rest => rest.All

def DynamicAttrs.All : DynamicAttrs α → Prop
  | .nil => True
  | .cons _ e rest => e.All ∧ rest.All

end

variable {P}

theorem ExprAttrs.all_iff (s : ExprAttrs α) :
    s.All P ↔ P s ∧ s.attrs.All P ∧ s.dynamicAttrs.All P := by
  cases s
  rw [ExprAttrs.All]
  rfl

theorem AttrDefs.all_iff {attrs : AttrDefs α} (h : attrs.names.Nodup) :
    attrs.All P ↔ ∀ n e, attrs.find? n = some (.plain e) → e.All P := by
  induction attrs using cons_cases with
  | nil => simp [All, find?]
  | cons name d rest ih =>
      rw [names_cons, List.nodup_cons] at h
      have hname := find?_eq_none.mpr h.1
      have hfind : (∀ n e, (cons name d rest).find? n = some (.plain e) → e.All P) ↔
          (∀ e, d = .plain e → e.All P) ∧ ∀ n e, rest.find? n = some (.plain e) → e.All P := by
        constructor
        · intro hall
          refine ⟨fun e he => hall name e (by rw [find?_cons, if_pos rfl, he]), fun n e hn => ?_⟩
          refine hall n e ?_
          rw [find?_cons, if_neg, hn]
          rintro rfl
          simp [hname] at hn
        · rintro ⟨hd, hrest⟩ n e hn
          rw [find?_cons] at hn
          split at hn
          next => exact hd e (Option.some.inj hn)
          next => exact hrest n e hn
      rw [hfind, ← ih h.2]
      cases d with
      | plain e =>
          constructor
          · rintro ⟨he, hrest⟩
            exact ⟨fun e' heq => by cases heq; exact he, hrest⟩
          · rintro ⟨he, hrest⟩
            exact ⟨he e rfl, hrest⟩
      | inherited => simp [cons, All]
      | inheritedFrom node => simp [cons, All]

theorem DynamicAttrs.all_append (l l' : DynamicAttrs α) :
    (l.append l').All P ↔ l.All P ∧ l'.All P := by
  match l with
  | .nil => simp [append, All]
  | .cons name e rest => rw [append, All, All, all_append rest l', and_assoc]

end All

/-- Every attribute that is inherited from an expression refers to the expression of its own
clause, since the expressions and the nodes of the clauses have the same positions. -/
def ExprAttrs.RightHere (s : ExprAttrs α) : Prop :=
  ∀ node ∈ s.attrs.nodes, s.froms[node]? = some node ∧ node < s.inheritFromExprs.length

def ExprAttrs.Right (s : ExprAttrs α) : Prop := s.All ExprAttrs.RightHere

/-- What the parser keeps true of every set. -/
structure ExprAttrs.RegularHere (s : ExprAttrs α) : Prop where
  nodup : s.attrs.names.Nodup
  length : s.froms.length = s.inheritFromExprs.length
  nodes : ∀ node ∈ s.attrs.nodes, ∃ d, s.froms[node]? = some d ∧ node ≤ d

def ExprAttrs.Regular (s : ExprAttrs α) : Prop := s.All ExprAttrs.RegularHere

mutual

/-- Adding an expression does not shift the node of a clause for several names. -/
def AddOk (s : ExprAttrs α) (name : Symbol) : Expr α → Prop
  | .other _ => True
  | .attrs ae =>
      match s.attrs.find? name with
      | some (.plain (.attrs jAttrs)) => MergeOk jAttrs ae
      | _ => True

/-- There is nothing to shift past, or no two names share a clause of the merged set. -/
def MergeOk (jAttrs : ExprAttrs α) : ExprAttrs α → Prop
  | .mk _ attrs _ _ _ =>
      (jAttrs.inheritFromExprs = [] ∨ attrs.nodes.Nodup) ∧ MoveOk jAttrs attrs

def MoveOk (jAttrs : ExprAttrs α) : AttrDefs α → Prop
  | .nil => True
  | .plain name e rest => AddOk jAttrs name e ∧ MoveOk jAttrs rest
  | .inherited _ rest => MoveOk jAttrs rest
  | .inheritedFrom _ _ rest => MoveOk jAttrs rest

end

theorem mergeOk_iff (j ae : ExprAttrs α) :
    MergeOk j ae ↔ (j.inheritFromExprs = [] ∨ ae.attrs.nodes.Nodup) ∧ MoveOk j ae.attrs := by
  cases ae
  rw [MergeOk]
  rfl

theorem moveOk_iff {j : ExprAttrs α} {attrs : AttrDefs α} (h : attrs.names.Nodup) :
    MoveOk j attrs ↔ ∀ n e, attrs.find? n = some (.plain e) → AddOk j n e := by
  induction attrs using AttrDefs.cons_cases with
  | nil => simp [MoveOk, AttrDefs.find?]
  | cons name d rest ih =>
      rw [AttrDefs.names_cons, List.nodup_cons] at h
      have hname := AttrDefs.find?_eq_none.mpr h.1
      have hfind : (∀ n e, (rest.cons name d).find? n = some (.plain e) → AddOk j n e) ↔
          (∀ e, d = .plain e → AddOk j name e) ∧
            ∀ n e, rest.find? n = some (.plain e) → AddOk j n e := by
        constructor
        · intro hall
          refine ⟨fun e he => hall name e (by rw [AttrDefs.find?_cons, if_pos rfl, he]),
            fun n e hn => ?_⟩
          refine hall n e ?_
          rw [AttrDefs.find?_cons, if_neg, hn]
          rintro rfl
          simp [hname] at hn
        · rintro ⟨hd, hrest⟩ n e hn
          rw [AttrDefs.find?_cons] at hn
          split at hn
          next heq => exact heq ▸ hd e (Option.some.inj hn)
          next => exact hrest n e hn
      rw [hfind, ← ih h.2]
      cases d with
      | plain e =>
          constructor
          · rintro ⟨he, hrest⟩
            exact ⟨fun e' heq => by cases heq; exact he, hrest⟩
          · rintro ⟨he, hrest⟩
            exact ⟨he e rfl, hrest⟩
      | inherited => simp [AttrDefs.cons, MoveOk]
      | inheritedFrom node => simp [AttrDefs.cons, MoveOk]

theorem length_bump (size : Nat) (froms nodes : List Nat) :
    (bump size froms nodes).length = froms.length := by
  induction nodes generalizing froms with
  | nil => rfl
  | cons node nodes ih =>
      rw [bump, List.foldl_cons]
      exact (ih _).trans (List.length_modify _ _ _)

theorem getElem?_bump (size : Nat) (froms nodes : List Nat) (c : Nat) :
    (bump size froms nodes)[c]? = froms[c]?.map (· + nodes.count c * size) := by
  induction nodes generalizing froms with
  | nil => simp [bump]
  | cons node nodes ih =>
      rw [bump, List.foldl_cons, ← bump, ih, List.getElem?_modify, Option.map_eq_map, Option.map_map]
      cases froms[c]? with
      | none => rfl
      | some d =>
          simp only [Option.map_some, Function.comp_apply, List.count_cons, beq_iff_eq]
          split
          next => rw [Nat.add_mul, Nat.one_mul, Nat.add_assoc, Nat.add_comm size]
          next => rfl

/-- A node that `k` names share is right after the shifts when it was right and is shifted by
its own set's size only. -/
theorem shifted_eq_iff {c d k size : Nat} (hle : c ≤ d) (hk : 0 < k) :
    d + k * size = size + c ↔ d = c ∧ (size = 0 ∨ k = 1) := by
  obtain ⟨k, rfl⟩ : ∃ k', k = k' + 1 := ⟨k - 1, by omega⟩
  rw [Nat.add_mul, Nat.one_mul]
  constructor
  · intro h
    have hzero : k * size = 0 := by omega
    refine ⟨by omega, ?_⟩
    rcases Nat.mul_eq_zero.mp hzero with h | h
    · exact .inr (by omega)
    · exact .inl h
  · rintro ⟨rfl, rfl | h⟩
    · simp
    · obtain rfl : k = 0 := by omega
      omega

theorem Moved.mem_nodes {size : Nat} {j r : ExprAttrs α} {attrs : AttrDefs α}
    (h : Moved size j r attrs) (hj : j.attrs.names.Nodup) (hattrs : attrs.names.Nodup)
    {c : Nat} : c ∈ r.attrs.nodes ↔ c ∈ j.attrs.nodes ∨ ∃ c' ∈ attrs.nodes, c = size + c' := by
  rw [AttrDefs.mem_nodes (h.nodup hj), AttrDefs.mem_nodes hj]
  constructor
  · rintro ⟨n, hn⟩
    cases hd : attrs.find? n with
    | none =>
        rw [h.others n hd] at hn
        exact .inl ⟨n, hn⟩
    | some d =>
        obtain ⟨d', hd', hadded⟩ := h.added n d hd
        rw [hn] at hd'
        obtain rfl := Option.some.inj hd'
        generalize hold : j.attrs.find? n = old at hadded
        generalize hshift : d.shift size = shifted at hadded
        cases hadded with
        | new _ =>
            cases d with
            | plain e => simp [AttrDef.shift] at hshift
            | inherited => simp [AttrDef.shift] at hshift
            | inheritedFrom node =>
                simp only [AttrDef.shift, AttrDef.inheritedFrom.injEq] at hshift
                exact .inr ⟨node, (AttrDefs.mem_nodes hattrs).mpr ⟨n, hd⟩, hshift.symm⟩
  · rintro (⟨n, hn⟩ | ⟨c', hc', rfl⟩)
    · cases hd : attrs.find? n with
      | none => exact ⟨n, (h.others n hd).trans hn⟩
      | some d =>
          obtain ⟨d', -, hadded⟩ := h.added n d hd
          rw [hn] at hadded
          cases hadded
    · obtain ⟨n, hn⟩ := (AttrDefs.mem_nodes hattrs).mp hc'
      obtain ⟨d', hd', hadded⟩ := h.added n _ hn
      refine ⟨n, hd'.trans ?_⟩
      generalize hold : j.attrs.find? n = old at hadded
      cases hadded with
      | new _ => rfl

section Names

variable {size : Nat} {j r : ExprAttrs α} {attrs : AttrDefs α} {n : Symbol}

/-- Both sets have a set under a name, and these are merged. -/
structure MergedAt (j r : ExprAttrs α) (attrs : AttrDefs α) (n : Symbol)
    (jn a m : ExprAttrs α) : Prop where
  old : j.attrs.find? n = some (.plain (.attrs jn))
  new : attrs.find? n = some (.plain (.attrs a))
  result : r.attrs.find? n = some (.plain (.attrs m))
  merge : mergeAttrs jn a = .ok m

theorem Moved.of_new (h : Moved size j r attrs) {d : AttrDef α} (hd : attrs.find? n = some d) :
    (j.attrs.find? n = none ∧ r.attrs.find? n = some (d.shift size)) ∨
      ∃ jn a m, MergedAt j r attrs n jn a m := by
  obtain ⟨d', hd', hadded⟩ := h.added n d hd
  generalize hold : j.attrs.find? n = old at hadded
  generalize hshift : d.shift size = shifted at hadded
  cases hadded with
  | new _ => exact .inl ⟨rfl, by rw [hd']⟩
  | @merged jn a m hm =>
      refine .inr ⟨jn, a, m, hold, ?_, hd', hm⟩
      cases d with
      | plain e => rw [hd, ← hshift, AttrDef.shift]; simp
      | inherited => simp [AttrDef.shift] at hshift
      | inheritedFrom node => simp [AttrDef.shift] at hshift

theorem Moved.of_old (h : Moved size j r attrs) {d : AttrDef α} (hd : j.attrs.find? n = some d) :
    (attrs.find? n = none ∧ r.attrs.find? n = some d) ∨ ∃ jn a m, MergedAt j r attrs n jn a m := by
  cases hn : attrs.find? n with
  | none => exact .inl ⟨rfl, (h.others n hn).trans hd⟩
  | some d' =>
      rcases h.of_new hn with ⟨hnone, -⟩ | hmerged
      · simp [hd] at hnone
      · exact .inr hmerged

theorem Moved.of_result (h : Moved size j r attrs) {e : Expr α}
    (he : r.attrs.find? n = some (.plain e)) :
    (attrs.find? n = none ∧ j.attrs.find? n = some (.plain e)) ∨
      (j.attrs.find? n = none ∧ attrs.find? n = some (.plain e)) ∨
      ∃ jn a m, MergedAt j r attrs n jn a m ∧ e = .attrs m := by
  cases hn : attrs.find? n with
  | none => exact .inl ⟨rfl, (h.others n hn).symm.trans he⟩
  | some d =>
      rcases h.of_new hn with ⟨hnone, hr⟩ | ⟨jn, a, m, hm⟩
      · rw [he, Option.some.injEq] at hr
        refine .inr (.inl ⟨hnone, ?_⟩)
        cases d with
        | plain e' => exact congrArg some hr.symm
        | inherited => simp [AttrDef.shift] at hr
        | inheritedFrom node => simp [AttrDef.shift] at hr
      · have hresult := he.symm.trans hm.result
        simp only [Option.some.injEq, AttrDef.plain.injEq] at hresult
        exact .inr (.inr ⟨jn, a, m, hm, hresult⟩)

end Names

theorem ExprAttrs.RegularHere.lt {s : ExprAttrs α} (h : s.RegularHere) {c : Nat}
    (hc : c ∈ s.attrs.nodes) : c < s.inheritFromExprs.length := by
  obtain ⟨d, hd, -⟩ := h.nodes c hc
  rw [← h.length]
  exact (List.getElem?_eq_some_iff.mp hd).1

section Nodes

variable {j ae r : ExprAttrs α}

def mergedFroms (j ae : ExprAttrs α) : List Nat :=
  j.froms ++ bump j.inheritFromExprs.length ae.froms ae.attrs.nodes

theorem mergedFroms_old (hj : j.RegularHere) {c : Nat} (hc : c ∈ j.attrs.nodes) :
    (mergedFroms j ae)[c]? = j.froms[c]? := by
  rw [mergedFroms, List.getElem?_append_left]
  rw [hj.length]
  exact hj.lt hc

theorem mergedFroms_new (hj : j.RegularHere) (c : Nat) :
    (mergedFroms j ae)[j.inheritFromExprs.length + c]? =
      ae.froms[c]?.map (· + ae.attrs.nodes.count c * j.inheritFromExprs.length) := by
  rw [mergedFroms, List.getElem?_append_right (by rw [hj.length]; exact Nat.le_add_right _ _),
    hj.length, Nat.add_sub_cancel_left, getElem?_bump]

/-- The merged set with the attributes of `r`. -/
def mergedSet (j ae r : ExprAttrs α) : ExprAttrs α :=
  .mk j.recursive r.attrs (j.inheritFromExprs ++ ae.inheritFromExprs) (mergedFroms j ae)
    (j.dynamicAttrs.append ae.dynamicAttrs)

theorem Moved.append_eq (h : Moved j.inheritFromExprs.length j r ae.attrs) :
    r.append ae.inheritFromExprs (bump j.inheritFromExprs.length ae.froms ae.attrs.nodes)
      ae.dynamicAttrs = mergedSet j ae r := by
  rw [h.setAttrs]
  rfl

theorem regularHere_merged (hj : j.RegularHere) (hae : ae.RegularHere)
    (h : Moved j.inheritFromExprs.length j r ae.attrs) : (mergedSet j ae r).RegularHere where
  nodup := h.nodup hj.nodup
  length := by
    change (mergedFroms j ae).length = (j.inheritFromExprs ++ ae.inheritFromExprs).length
    rw [mergedFroms, List.length_append, List.length_append, length_bump, hj.length, hae.length]
  nodes c hc := by
    change ∃ d, (mergedFroms j ae)[c]? = some d ∧ c ≤ d
    rcases (h.mem_nodes hj.nodup hae.nodup).mp hc with hc | ⟨c', hc', rfl⟩
    · rw [mergedFroms_old hj hc]
      exact hj.nodes c hc
    · obtain ⟨d, hd, hle⟩ := hae.nodes c' hc'
      rw [mergedFroms_new hj, hd]
      have hcount : 0 < ae.attrs.nodes.count c' := List.count_pos_iff.mpr hc'
      have hmul : 1 * j.inheritFromExprs.length ≤
          ae.attrs.nodes.count c' * j.inheritFromExprs.length := Nat.mul_le_mul_right _ hcount
      refine ⟨_, rfl, ?_⟩
      dsimp only
      omega

theorem rightHere_merged (hj : j.RegularHere) (hae : ae.RegularHere)
    (h : Moved j.inheritFromExprs.length j r ae.attrs) :
    (mergedSet j ae r).RightHere ↔ j.RightHere ∧ ae.RightHere ∧
      (j.inheritFromExprs = [] ∨ ae.attrs.nodes.Nodup) := by
  have hlength : (j.inheritFromExprs ++ ae.inheritFromExprs).length =
      j.inheritFromExprs.length + ae.inheritFromExprs.length := List.length_append
  have hmem : ∀ c, c ∈ (mergedSet j ae r).attrs.nodes ↔
      c ∈ j.attrs.nodes ∨ ∃ c' ∈ ae.attrs.nodes, c = j.inheritFromExprs.length + c' :=
    fun c => h.mem_nodes hj.nodup hae.nodup
  have hnew : ∀ c ∈ ae.attrs.nodes,
      ((mergedFroms j ae)[j.inheritFromExprs.length + c]? =
          some (j.inheritFromExprs.length + c) ↔
        ae.froms[c]? = some c ∧
          (j.inheritFromExprs.length = 0 ∨ ae.attrs.nodes.count c = 1)) := by
    intro c hc
    obtain ⟨d, hd, hle⟩ := hae.nodes c hc
    rw [mergedFroms_new hj, hd, Option.map_some, Option.some.injEq, Option.some.injEq]
    exact shifted_eq_iff hle (List.count_pos_iff.mpr hc)
  constructor
  · intro hm
    have hright : ∀ c ∈ ae.attrs.nodes, ae.froms[c]? = some c ∧
        (j.inheritFromExprs.length = 0 ∨ ae.attrs.nodes.count c = 1) := fun c hc =>
      (hnew c hc).mp (hm _ ((hmem _).mpr (.inr ⟨c, hc, rfl⟩))).1
    refine ⟨fun c hc => ⟨?_, hj.lt hc⟩, fun c hc => ⟨(hright c hc).1, hae.lt hc⟩, ?_⟩
    · rw [← @mergedFroms_old α j ae hj c hc]
      exact (hm c ((hmem c).mpr (.inl hc))).1
    · by_cases hzero : j.inheritFromExprs.length = 0
      · exact .inl (List.length_eq_zero_iff.mp hzero)
      · refine .inr (List.nodup_iff_count_eq_one.mpr fun c hc => ?_)
        exact (hright c hc).2.resolve_left hzero
  · rintro ⟨hjr, haer, hshare⟩ c hc
    change (mergedFroms j ae)[c]? = some c ∧ c < (j.inheritFromExprs ++ ae.inheritFromExprs).length
    rw [hlength]
    rcases (hmem c).mp hc with hc | ⟨c', hc', rfl⟩
    · have hlt := hj.lt hc
      rw [mergedFroms_old hj hc]
      exact ⟨(hjr c hc).1, by omega⟩
    · have hlt := hae.lt hc'
      refine ⟨(hnew c' hc').mpr ⟨(haer c' hc').1, ?_⟩, by omega⟩
      rcases hshare with hempty | hnodup
      · exact .inl (by rw [hempty]; rfl)
      · exact .inr (List.nodup_iff_count_eq_one.mp hnodup c' hc')

end Nodes

/-- What an attribute that points to a node is inherited from. -/
def refer (inheritFromExprs : List α) (froms : List Nat) (node : Nat) : Entry α :=
  match (froms[node]?).bind (inheritFromExprs[·]?) with
  | some e => .inheritedFrom e
  | none => .undefined

mutual

def Expr.resolve : Expr α → Lit α
  | .other a => .other a
  | .attrs s => .set s.resolve

def ExprAttrs.resolve : ExprAttrs α → LitSet α
  | .mk recursive attrs inheritFromExprs froms dynamicAttrs =>
      .mk recursive (attrs.resolve (refer inheritFromExprs froms)) dynamicAttrs.resolve

def AttrDefs.resolve : AttrDefs α → (Nat → Entry α) → Symbol → Entry α
  | .nil, _, _ => .absent
  | .plain s e rest, ref, n => if s = n then .plain e.resolve else rest.resolve ref n
  | .inherited s rest, ref, n => if s = n then .inherited else rest.resolve ref n
  | .inheritedFrom s node rest, ref, n => if s = n then ref node else rest.resolve ref n

def DynamicAttrs.resolve : DynamicAttrs α → LitDynamic α
  | .nil => .nil
  | .cons nameExpr valueExpr rest => .cons nameExpr valueExpr.resolve rest.resolve

end

def AttrDef.resolve (ref : Nat → Entry α) : AttrDef α → Entry α
  | .plain e => .plain e.resolve
  | .inherited => .inherited
  | .inheritedFrom node => ref node

theorem AttrDefs.resolve_eq (attrs : AttrDefs α) (ref : Nat → Entry α) (n : Symbol) :
    attrs.resolve ref n = ((attrs.find? n).map (AttrDef.resolve ref)).getD .absent := by
  induction attrs using cons_cases with
  | nil => rfl
  | cons name d rest ih =>
      have hcons : (cons name d rest).resolve ref n =
          if name = n then d.resolve ref else rest.resolve ref n := by
        cases d <;> rfl
      rw [hcons, find?_cons, ih]
      by_cases h : name = n <;> simp [h]

theorem DynamicAttrs.resolve_append (l l' : DynamicAttrs α) :
    (l.append l').resolve = l.resolve.append l'.resolve := by
  match l with
  | .nil => rfl
  | .cons name e rest =>
      rw [append, resolve, resolve, LitDynamic.append, resolve_append rest l']

@[simp] theorem Entry.absent_union (d : Entry α) : Entry.union .absent d = d := by
  rw [union]

@[simp] theorem Entry.union_absent (d : Entry α) : d.union .absent = d := by
  cases d <;> simp [union]

theorem refer_eq {exprs exprs' : List α} {froms froms' : List Nat} {c c' : Nat}
    (h : froms[c]? = some c) (h' : froms'[c']? = some c') (hexprs : exprs[c]? = exprs'[c']?) :
    refer exprs froms c = refer exprs' froms' c' := by
  rw [refer, refer, h, h', Option.bind_some, Option.bind_some, hexprs]

theorem AttrDef.resolve_congr {ref ref' : Nat → Entry α} {d : AttrDef α}
    (h : ∀ node, d = .inheritedFrom node → ref node = ref' node) :
    d.resolve ref = d.resolve ref' := by
  cases d with
  | plain e => rfl
  | inherited => rfl
  | inheritedFrom node => exact h node rfl

theorem ExprAttrs.nested_induction {P : ExprAttrs α → Prop}
    (h : ∀ s : ExprAttrs α, (∀ n a, s.attrs.find? n = some (.plain (.attrs a)) → P a) → P s)
    (s : ExprAttrs α) : P s := by
  have hsize : ∀ (attrs : AttrDefs α) n a, attrs.find? n = some (.plain (.attrs a)) →
      sizeOf a < sizeOf attrs := by
    intro attrs n a
    induction attrs using AttrDefs.cons_cases with
    | nil => simp [AttrDefs.find?]
    | cons name d rest ih =>
        rw [AttrDefs.find?_cons]
        split
        next =>
          intro hd
          obtain rfl := Option.some.inj hd
          simp only [AttrDefs.cons, AttrDefs.plain.sizeOf_spec, Expr.attrs.sizeOf_spec]
          omega
        next =>
          intro hn
          have hlt := ih hn
          cases d <;> simp [AttrDefs.cons] <;> omega
  induction hn : sizeOf s using Nat.strongRecOn generalizing s with
  | ind k ih =>
      refine h s fun n a ha => ih (sizeOf a) ?_ a rfl
      have hlt := hsize s.attrs n a ha
      cases s
      simp only [ExprAttrs.attrs] at hlt
      rw [← hn]
      simp only [ExprAttrs.mk.sizeOf_spec]
      omega

def MergeSpec (ae : ExprAttrs α) : Prop :=
  ∀ j m, j.Regular → ae.Regular → mergeAttrs j ae = .ok m →
    m.Regular ∧ (m.Right ↔ j.Right ∧ ae.Right ∧ MergeOk j ae) ∧
      (m.Right → m.resolve = j.resolve.union ae.resolve)

section Merge

variable {j ae r : ExprAttrs α}

theorem regular_nested {s : ExprAttrs α} (h : s.Regular) {n : Symbol} {a : ExprAttrs α}
    (hn : s.attrs.find? n = some (.plain (.attrs a))) : a.Regular := by
  obtain ⟨hhere, hattrs, -⟩ := (ExprAttrs.all_iff s).mp h
  exact (AttrDefs.all_iff hhere.nodup).mp hattrs n _ hn

theorem all_merged {P : ExprAttrs α → Prop} (hj : j.Regular) (hae : ae.Regular)
    (h : Moved j.inheritFromExprs.length j r ae.attrs) {C : Symbol → Prop}
    (hmerge : ∀ n jn a m, MergedAt j r ae.attrs n jn a m →
      (m.All P ↔ jn.All P ∧ a.All P ∧ C n))
    (hother : ∀ n e, ae.attrs.find? n = some (.plain e) →
      (∀ jn a m, ¬ MergedAt j r ae.attrs n jn a m) → C n) :
    r.attrs.All P ↔ j.attrs.All P ∧ ae.attrs.All P ∧
      ∀ n e, ae.attrs.find? n = some (.plain e) → C n := by
  have hjd := ((ExprAttrs.all_iff j).mp hj).1.nodup
  have haed := ((ExprAttrs.all_iff ae).mp hae).1.nodup
  rw [AttrDefs.all_iff (h.nodup hjd), AttrDefs.all_iff hjd, AttrDefs.all_iff haed]
  constructor
  · intro hr
    refine ⟨fun n e he => ?_, fun n e he => ?_, fun n e he => ?_⟩
    · rcases h.of_old he with ⟨-, hres⟩ | ⟨jn, a, m, hm⟩
      · exact hr n e hres
      · obtain rfl : e = .attrs jn := by
          have heq := he.symm.trans hm.old
          simpa using heq
        exact ((hmerge n jn a m hm).mp (hr n _ hm.result)).1
    · rcases h.of_new he with ⟨-, hres⟩ | ⟨jn, a, m, hm⟩
      · exact hr n e hres
      · obtain rfl : e = .attrs a := by
          have heq := he.symm.trans hm.new
          simpa using heq
        exact ((hmerge n jn a m hm).mp (hr n _ hm.result)).2.1
    · by_cases hex : ∃ jn a m, MergedAt j r ae.attrs n jn a m
      · obtain ⟨jn, a, m, hm⟩ := hex
        exact ((hmerge n jn a m hm).mp (hr n _ hm.result)).2.2
      · exact hother n e he fun jn a m hm => hex ⟨jn, a, m, hm⟩
  · rintro ⟨hjall, haeall, hC⟩ n e he
    rcases h.of_result he with ⟨-, hold⟩ | ⟨-, hnew⟩ | ⟨jn, a, m, hm, rfl⟩
    · exact hjall n e hold
    · exact haeall n e hnew
    · exact (hmerge n jn a m hm).mpr ⟨hjall n _ hm.old, haeall n _ hm.new, hC n _ hm.new⟩

theorem addOk_of_mergedAt {n : Symbol} {jn a m : ExprAttrs α} {e : Expr α}
    (h : MergedAt j r ae.attrs n jn a m) (he : ae.attrs.find? n = some (.plain e)) :
    AddOk j n e ↔ MergeOk jn a := by
  obtain rfl : e = .attrs a := by
    have heq := he.symm.trans h.new
    simpa using heq
  rw [AddOk, h.old]

theorem addOk_of_not_merged {n : Symbol} {e : Expr α}
    (hmoved : Moved j.inheritFromExprs.length j r ae.attrs)
    (he : ae.attrs.find? n = some (.plain e))
    (h : ∀ jn a m, ¬ MergedAt j r ae.attrs n jn a m) : AddOk j n e := by
  rcases hmoved.of_new he with ⟨hnone, -⟩ | ⟨jn, a, m, hm⟩
  · cases e with
    | other a => rw [AddOk]; trivial
    | attrs a => rw [AddOk, hnone]; trivial
  · exact absurd hm (h jn a m)

theorem mergeSpec (ae : ExprAttrs α) : MergeSpec ae := by
  induction ae using ExprAttrs.nested_induction with
  | h ae ih =>
      intro j m hj hae hm
      obtain ⟨hjhere, hjattrs, hjdyn⟩ := (ExprAttrs.all_iff j).mp hj
      obtain ⟨haehere, haeattrs, haedyn⟩ := (ExprAttrs.all_iff ae).mp hae
      obtain ⟨r, hmoved, rfl⟩ := mergeAttrs_eq_ok haehere.nodup hm
      rw [hmoved.append_eq]
      have hspec : ∀ n jn a m, MergedAt j r ae.attrs n jn a m → m.Regular ∧
          (m.Right ↔ jn.Right ∧ a.Right ∧ MergeOk jn a) ∧
          (m.Right → m.resolve = jn.resolve.union a.resolve) := fun n jn a m h =>
        ih n a h.new jn m (regular_nested hj h.old) (regular_nested hae h.new) h.merge
      have hregular : r.attrs.All ExprAttrs.RegularHere := by
        have hall := all_merged (P := ExprAttrs.RegularHere) hj hae hmoved (C := fun _ => True)
          (fun n jn a m h => ⟨fun _ => ⟨regular_nested hj h.old, regular_nested hae h.new, trivial⟩,
            fun _ => (hspec n jn a m h).1⟩) (fun _ _ _ _ => trivial)
        exact hall.mpr ⟨hjattrs, haeattrs, fun _ _ _ => trivial⟩
      have hrightAttrs : r.attrs.All ExprAttrs.RightHere ↔
          j.attrs.All ExprAttrs.RightHere ∧ ae.attrs.All ExprAttrs.RightHere ∧
            MoveOk j ae.attrs := by
        rw [moveOk_iff haehere.nodup]
        have hall := all_merged (P := ExprAttrs.RightHere) hj hae hmoved
          (C := fun n => ∀ e, ae.attrs.find? n = some (.plain e) → AddOk j n e)
          (fun n jn a m h => by
            refine (hspec n jn a m h).2.1.trans (and_congr_right' (and_congr_right' ?_))
            constructor
            · intro hok e he
              exact (addOk_of_mergedAt h he).mpr hok
            · intro hok
              exact (addOk_of_mergedAt h h.new).mp (hok _ h.new))
          (fun n e _ h e' he' => addOk_of_not_merged hmoved he' h)
        rw [hall]
        refine and_congr_right' (and_congr_right' ?_)
        constructor
        · intro hok n e he
          exact hok n e he e he
        · intro hok n _ _ e he
          exact hok n e he
      have hright : (mergedSet j ae r).Right ↔ j.Right ∧ ae.Right ∧ MergeOk j ae := by
        rw [ExprAttrs.Right, ExprAttrs.Right, ExprAttrs.Right, ExprAttrs.all_iff,
          ExprAttrs.all_iff j, ExprAttrs.all_iff ae, mergeOk_iff,
          rightHere_merged hjhere haehere hmoved]
        change (_ ∧ r.attrs.All _ ∧ (j.dynamicAttrs.append ae.dynamicAttrs).All _) ↔ _
        rw [hrightAttrs, DynamicAttrs.all_append]
        tauto
      refine ⟨?_, hright, fun hmr => ?_⟩
      · rw [ExprAttrs.Regular, ExprAttrs.all_iff]
        refine ⟨regularHere_merged hjhere haehere hmoved, hregular, ?_⟩
        exact (DynamicAttrs.all_append _ _).mpr ⟨hjdyn, haedyn⟩
      · have hmhere := ((ExprAttrs.all_iff _).mp hmr).1
        obtain ⟨hjr, haer, -⟩ := hright.mp hmr
        have hjhr := ((ExprAttrs.all_iff _).mp hjr).1
        have haehr := ((ExprAttrs.all_iff _).mp haer).1
        have hmattrs := (AttrDefs.all_iff (hmoved.nodup hjhere.nodup)).mp
          ((ExprAttrs.all_iff _).mp hmr).2.1
        have hold : ∀ c ∈ j.attrs.nodes, refer (j.inheritFromExprs ++ ae.inheritFromExprs)
            (mergedFroms j ae) c = refer j.inheritFromExprs j.froms c := by
          intro c hc
          have hm' := hmhere c ((hmoved.mem_nodes hjhere.nodup haehere.nodup).mpr (.inl hc))
          refine refer_eq hm'.1 (hjhr c hc).1 ?_
          exact List.getElem?_append_left (hjhere.lt hc)
        have hnew : ∀ c ∈ ae.attrs.nodes, refer (j.inheritFromExprs ++ ae.inheritFromExprs)
            (mergedFroms j ae) (j.inheritFromExprs.length + c) =
              refer ae.inheritFromExprs ae.froms c := by
          intro c hc
          have hm' := hmhere _ ((hmoved.mem_nodes hjhere.nodup haehere.nodup).mpr
            (.inr ⟨c, hc, rfl⟩))
          refine refer_eq hm'.1 (haehr c hc).1 ?_
          rw [List.getElem?_append_right (Nat.le_add_right _ _), Nat.add_sub_cancel_left]
        have htable : ∀ n, r.attrs.resolve (refer (j.inheritFromExprs ++ ae.inheritFromExprs)
            (mergedFroms j ae)) n = (j.attrs.resolve (refer j.inheritFromExprs j.froms) n).union
              (ae.attrs.resolve (refer ae.inheritFromExprs ae.froms) n) := by
          intro n
          rw [AttrDefs.resolve_eq, AttrDefs.resolve_eq, AttrDefs.resolve_eq]
          cases hn : ae.attrs.find? n with
          | none =>
              rw [hmoved.others n hn, Option.map_none, Option.getD_none, Entry.union_absent]
              cases hjn : j.attrs.find? n with
              | none => rfl
              | some d =>
                  refine AttrDef.resolve_congr fun node hd => hold node ?_
                  exact (AttrDefs.mem_nodes hjhere.nodup).mpr ⟨n, hd ▸ hjn⟩
          | some d =>
              rcases hmoved.of_new hn with ⟨hjn, hr⟩ | ⟨jn, a, m, hma⟩
              · rw [hjn, hr, Option.map_none, Option.getD_none, Entry.absent_union]
                cases d with
                | plain e => rfl
                | inherited => rfl
                | inheritedFrom node =>
                    exact hnew node ((AttrDefs.mem_nodes haehere.nodup).mpr ⟨n, hn⟩)
              · have hres := (hspec n jn a m hma).2.2 (hmattrs n _ hma.result)
                obtain rfl := Option.some.inj (hn.symm.trans hma.new)
                rw [hma.old, hma.result]
                simp only [Option.map_some, Option.getD_some, AttrDef.resolve, Expr.resolve, hres,
                  Entry.union, Lit.union]
        obtain ⟨_, _, _, _, _⟩ := j
        obtain ⟨_, _, _, _, _⟩ := ae
        rw [mergedSet, ExprAttrs.resolve, ExprAttrs.resolve, ExprAttrs.resolve, LitSet.union]
        congr 1
        · exact funext htable
        · exact DynamicAttrs.resolve_append _ _

end Merge

end Nix.Eval.AttrSets
