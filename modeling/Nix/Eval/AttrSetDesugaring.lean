import Nix.Eval.AttrSetMerges
import Nix.Lib.Results

/-!
What the parser makes of a sequence of bindings evaluates like the literal with all bindings
written out, exactly when no merge shifts the node of a clause that several names share.
-/

set_option linter.dupNamespace false

namespace Nix.Eval.AttrSets

open Util.Types Lib.Results

variable {α : Type}

def Expr.Right (e : Expr α) : Prop := e.All ExprAttrs.RightHere

def Expr.Regular (e : Expr α) : Prop := e.All ExprAttrs.RegularHere

theorem LitDynamic.append_nil (l : LitDynamic α) : l.append .nil = l := by
  match l with
  | .nil => rfl
  | .cons name value rest => rw [append, append_nil rest]

/-- `r` is `s` where a name that has no definition or a plain one gets a plain one. -/
structure Replaced (s r : ExprAttrs α) (name : Symbol) (old : Option (Expr α)) (e : Expr α) :
    Prop where
  setAttrs : r = s.setAttrs r.attrs
  nodup : s.attrs.names.Nodup → r.attrs.names.Nodup
  others : ∀ n, n ≠ name → r.attrs.find? n = s.attrs.find? n
  old : s.attrs.find? name = old.map .plain
  new : r.attrs.find? name = some (.plain e)

section Replaced

variable {s r : ExprAttrs α} {name : Symbol} {old : Option (Expr α)} {e : Expr α}

theorem Replaced.mem_nodes (h : Replaced s r name old e) (hs : s.attrs.names.Nodup) {c : Nat} :
    c ∈ r.attrs.nodes ↔ c ∈ s.attrs.nodes := by
  rw [AttrDefs.mem_nodes (h.nodup hs), AttrDefs.mem_nodes hs]
  refine exists_congr fun n => ?_
  by_cases hn : n = name
  · subst hn
    rw [h.new, h.old]
    cases old <;> simp
  · rw [h.others n hn]

theorem Replaced.all_iff (h : Replaced s r name old e) (hs : s.attrs.names.Nodup)
    {P : ExprAttrs α → Prop} {C : Prop} (hP : P r ↔ P s)
    (hold : e.All P ↔ (∀ e', old = some e' → e'.All P) ∧ C) : r.All P ↔ s.All P ∧ C := by
  have hdynamic : r.dynamicAttrs = s.dynamicAttrs := by
    rw [h.setAttrs]
    rfl
  have hattrs : r.attrs.All P ↔ s.attrs.All P ∧ C := by
    rw [AttrDefs.all_iff (h.nodup hs), AttrDefs.all_iff hs]
    constructor
    · intro hr
      obtain ⟨hold', hC⟩ := hold.mp (hr name e h.new)
      refine ⟨fun n e' he' => ?_, hC⟩
      by_cases hn : n = name
      · subst hn
        rw [h.old] at he'
        cases old with
        | none => simp at he'
        | some e'' =>
            simp only [Option.map_some, Option.some.injEq, AttrDef.plain.injEq] at he'
            exact hold' e' (congrArg some he')
      · exact hr n e' ((h.others n hn).trans he')
    · rintro ⟨hall, hC⟩ n e' he'
      by_cases hn : n = name
      · subst hn
        rw [h.new, Option.some.injEq, AttrDef.plain.injEq] at he'
        subst he'
        refine hold.mpr ⟨fun e'' he'' => hall n e'' ?_, hC⟩
        rw [h.old, he'']
        rfl
      · exact hall n e' ((h.others n hn).symm.trans he')
  rw [ExprAttrs.all_iff r, ExprAttrs.all_iff s, hP, hattrs, hdynamic]
  tauto

theorem Replaced.rightHere (h : Replaced s r name old e) (hs : s.attrs.names.Nodup) :
    r.RightHere ↔ s.RightHere := by
  have hfroms : r.froms = s.froms := by
    rw [h.setAttrs]
    rfl
  have hexprs : r.inheritFromExprs = s.inheritFromExprs := by
    rw [h.setAttrs]
    rfl
  rw [ExprAttrs.RightHere, ExprAttrs.RightHere, hfroms, hexprs]
  exact forall_congr' fun c => by rw [h.mem_nodes hs]

theorem Replaced.regular (h : Replaced s r name old e) (hs : s.Regular) (he : e.Regular) :
    r.Regular := by
  have hhere := ((ExprAttrs.all_iff s).mp hs).1
  have hfroms : r.froms = s.froms := by
    rw [h.setAttrs]
    rfl
  have hexprs : r.inheritFromExprs = s.inheritFromExprs := by
    rw [h.setAttrs]
    rfl
  have hP : r.RegularHere ↔ s.RegularHere := by
    refine iff_of_true ⟨h.nodup hhere.nodup, ?_, fun c hc => ?_⟩ hhere
    · rw [hfroms, hexprs]
      exact hhere.length
    · rw [hfroms]
      exact hhere.nodes c ((h.mem_nodes hhere.nodup).mp hc)
  have hall : r.All ExprAttrs.RegularHere ↔ s.All ExprAttrs.RegularHere ∧ True := by
    refine h.all_iff hhere.nodup hP (iff_of_true he ⟨fun e' he' => ?_, trivial⟩)
    refine (AttrDefs.all_iff hhere.nodup).mp ((ExprAttrs.all_iff s).mp hs).2.1 name e' ?_
    rw [h.old, he']
    rfl
  exact hall.mpr ⟨hs, trivial⟩

theorem Replaced.resolve (h : Replaced s r name old e) {l : Lit α}
    (hnone : old = none → e.resolve = l)
    (hsome : ∀ e', old = some e' → e.resolve = e'.resolve.union l) :
    r.resolve = s.resolve.union (.single name (.plain l)) := by
  have htable : ∀ ref n, r.attrs.resolve ref n =
      (s.attrs.resolve ref n).union (if n = name then .plain l else .absent) := by
    intro ref n
    rw [AttrDefs.resolve_eq, AttrDefs.resolve_eq]
    by_cases hn : n = name
    · subst hn
      rw [h.new, h.old, if_pos rfl]
      cases old with
      | none => simp [AttrDef.resolve, hnone rfl]
      | some e' => simp [AttrDef.resolve, hsome e' rfl, Entry.union]
    · rw [h.others n hn, if_neg hn, Entry.union_absent]
  have hr := h.setAttrs
  obtain ⟨_, _, _, _, _⟩ := s
  obtain ⟨_, _, _, _, _⟩ := r
  simp only [ExprAttrs.setAttrs, ExprAttrs.mk.injEq, ExprAttrs.recursive,
    ExprAttrs.inheritFromExprs, ExprAttrs.froms, ExprAttrs.dynamicAttrs] at hr
  obtain ⟨rfl, -, rfl, rfl, rfl⟩ := hr
  rw [ExprAttrs.resolve, ExprAttrs.resolve, LitSet.single, LitSet.union]
  congr 1
  · exact funext fun n => htable _ n
  · exact (LitDynamic.append_nil _).symm

end Replaced

/-- What adding something to `s` guarantees: the literal grows by `l`, and the nodes stay right
when the condition `C` holds. -/
structure Grows (s r : ExprAttrs α) (C : Prop) (l : LitSet α) : Prop where
  regular : r.Regular
  right : r.Right ↔ s.Right ∧ C
  resolve : r.Right → r.resolve = s.resolve.union l

theorem Replaced.grows {s r : ExprAttrs α} {name : Symbol} {old : Option (Expr α)} {e : Expr α}
    (h : Replaced s r name old e) (hs : s.Regular) (he : e.Regular) {C : Prop} {l : Lit α}
    (hright : e.Right ↔ (∀ e', old = some e' → e'.Right) ∧ C)
    (hnone : e.Right → old = none → e.resolve = l)
    (hsome : e.Right → ∀ e', old = some e' → e.resolve = e'.resolve.union l) :
    Grows s r C (.single name (.plain l)) := by
  have hnodup := ((ExprAttrs.all_iff s).mp hs).1.nodup
  refine ⟨h.regular hs he, h.all_iff hnodup (h.rightHere hnodup) hright, fun hr => ?_⟩
  have her : e.Right := (AttrDefs.all_iff (h.nodup hnodup)).mp
    ((ExprAttrs.all_iff r).mp hr).2.1 name e h.new
  exact h.resolve (hnone her) (hsome her)

theorem addPlain_grows {s r : ExprAttrs α} {name : Symbol} {e : Expr α} (hs : s.Regular)
    (he : e.Regular) (h : addPlain s name e = .ok r) :
    Grows s r (e.Right ∧ AddOk s name e) (.single name (.plain e.resolve)) := by
  have hadded := AddedAt.of_addPlain h
  obtain ⟨d', hnew, hd'⟩ := hadded.added
  generalize hold : s.attrs.find? name = old at hd'
  generalize hplain : AttrDef.plain e = d at hd'
  cases hd' with
  | new _ =>
      subst hplain
      have hrep : Replaced s r name none e :=
        ⟨hadded.setAttrs, hadded.nodup, hadded.others, hold, hnew⟩
      have hok : AddOk s name e := by
        cases e with
        | other a => rw [AddOk]; trivial
        | attrs ae => rw [AddOk, hold]; trivial
      refine hrep.grows hs he ?_ (fun _ _ => rfl) (fun _ _ hnone => by simp at hnone)
      simp [hok]
  | @merged jn ae m hm =>
      obtain rfl : e = .attrs ae := by simpa using hplain
      have hrep : Replaced s r name (some (.attrs jn)) (.attrs m) :=
        ⟨hadded.setAttrs, hadded.nodup, hadded.others, hold, hnew⟩
      obtain ⟨hregular, hright, hresolve⟩ := mergeSpec ae jn m (regular_nested hs hold) he hm
      refine hrep.grows hs hregular ?_ (fun _ hnone => by simp at hnone) (fun hmr e' he' => ?_)
      · rw [AddOk, hold]
        refine hright.trans (and_congr_left' ?_)
        simp only [Option.some.injEq, forall_eq']
        rfl
      · obtain rfl := Option.some.inj he'
        rw [Expr.resolve, Expr.resolve, Expr.resolve, Lit.union, hresolve hmr]

def AddAttrOk (s : ExprAttrs α) (e : Expr α) : AttrName α → List (AttrName α) → Prop
  | .symbol name, [] => AddOk s name e
  | .expr _, _ => True
  | .symbol name, next :: path =>
      match s.attrs.find? name with
      | some (.plain (.attrs nested)) => AddAttrOk nested e next path
      | _ => True

theorem addAttrOk_empty (e : Expr α) (name : AttrName α) (path : List (AttrName α)) :
    AddAttrOk .empty e name path := by
  cases name with
  | expr a => cases path <;> trivial
  | symbol name => cases path with
    | nil => cases e with
      | other a => rw [AddAttrOk, AddOk]; trivial
      | attrs ae => rw [AddAttrOk, AddOk]; trivial
    | cons next path => rw [AddAttrOk]; trivial

theorem regular_empty : (ExprAttrs.empty : ExprAttrs α).Regular :=
  ⟨⟨List.nodup_nil, rfl, fun _ hc => absurd hc List.not_mem_nil⟩, trivial, trivial⟩

theorem right_empty : (ExprAttrs.empty : ExprAttrs α).Right :=
  ⟨fun _ hc => absurd hc List.not_mem_nil, trivial, trivial⟩

theorem empty_union_nest (l : Lit α) (name : AttrName α) (path : List (AttrName α)) :
    (LitSet.empty false).union (.nest l name path) = .nest l name path := by
  cases name <;> cases path <;>
    simp [LitSet.nest, LitSet.empty, LitSet.single, LitSet.dynamic, LitSet.union,
      LitDynamic.append]

theorem resolve_empty : (ExprAttrs.empty : ExprAttrs α).resolve = .empty false := rfl

theorem pushDynamic_grows {s : ExprAttrs α} (hs : s.Regular) {e : Expr α} (he : e.Regular)
    {C : Prop} (hright : e.Right ↔ C) (nameExpr : α) {l : Lit α}
    (hresolve : e.Right → e.resolve = l) :
    Grows s (s.pushDynamic nameExpr e) C (.dynamic nameExpr l) := by
  obtain ⟨hhere, hattrs, hdynamic⟩ := (ExprAttrs.all_iff s).mp hs
  have hall : ∀ P : ExprAttrs α → Prop, (s.dynamicAttrs.append (.cons nameExpr e .nil)).All P ↔
      s.dynamicAttrs.All P ∧ e.All P := by
    intro P
    rw [DynamicAttrs.all_append, DynamicAttrs.All, DynamicAttrs.All, and_true]
  refine ⟨?_, ?_, fun hr => ?_⟩
  · rw [ExprAttrs.Regular, ExprAttrs.all_iff]
    exact ⟨⟨hhere.nodup, hhere.length, hhere.nodes⟩, hattrs, (hall _).mpr ⟨hdynamic, he⟩⟩
  · rw [ExprAttrs.Right, ExprAttrs.all_iff, ExprAttrs.Right, ExprAttrs.all_iff s, ← hright]
    change (s.RightHere ∧ s.attrs.All _ ∧ (s.dynamicAttrs.append (.cons nameExpr e .nil)).All _) ↔ _
    rw [hall, Expr.Right]
    tauto
  · have her : e.Right := ((hall _).mp ((ExprAttrs.all_iff _).mp hr).2.2).2
    obtain ⟨_, _, _, _, _⟩ := s
    rw [← hresolve her]
    simp [ExprAttrs.pushDynamic, ExprAttrs.resolve, LitSet.dynamic, LitSet.union,
      DynamicAttrs.resolve_append, DynamicAttrs.resolve, ExprAttrs.recursive, ExprAttrs.attrs,
      ExprAttrs.inheritFromExprs, ExprAttrs.froms, ExprAttrs.dynamicAttrs]

theorem addAttr_grows {s r : ExprAttrs α} {e : Expr α} {name : AttrName α}
    {path : List (AttrName α)} (hs : s.Regular) (he : e.Regular)
    (h : addAttr s e name path = .ok r) :
    Grows s r (e.Right ∧ AddAttrOk s e name path) (.nest e.resolve name path) := by
  induction path generalizing s r name with
  | nil =>
      cases name with
      | symbol name => exact addPlain_grows hs he h
      | expr nameExpr =>
          rw [addAttr, Except.ok.injEq] at h
          subst h
          exact pushDynamic_grows hs he (by rw [AddAttrOk, and_true]) nameExpr fun _ => rfl
  | cons next path ih =>
      cases name with
      | symbol name =>
          rw [addAttr] at h
          rw [AddAttrOk, LitSet.nest]
          split at h
          next hname =>
            obtain ⟨nested, hnested, h⟩ := bind_eq_ok.mp h
            obtain rfl := Except.ok.inj h
            have hgrow := ih regular_empty hnested
            have hrep : Replaced s (s.setAttrs (s.attrs.emplace name (.plain (.attrs nested))))
                name none (.attrs nested) := by
              have hadded := AddedAt.of_insertDef (insertDef_eq_ok.mpr
                ⟨hname, rfl⟩ : insertDef s name (.plain (.attrs nested)) = .ok _)
              refine ⟨rfl, hadded.nodup, hadded.others, hname, ?_⟩
              rw [ExprAttrs.attrs_setAttrs, AttrDefs.find?_emplace hname, if_pos rfl]
            refine hrep.grows hs hgrow.regular ?_ (fun hr _ => ?_)
              (fun _ _ hnone => by simp at hnone)
            · refine hgrow.right.trans ?_
              simp [right_empty, addAttrOk_empty, hname]
            · rw [Expr.resolve, hgrow.resolve hr, resolve_empty, empty_union_nest]
          next nested hname =>
            obtain ⟨nested', hnested, h⟩ := bind_eq_ok.mp h
            obtain rfl := Except.ok.inj h
            have hgrow := ih (regular_nested hs hname) hnested
            have hrep : Replaced s (s.setAttrs (s.attrs.update name (.attrs nested')))
                name (some (.attrs nested)) (.attrs nested') := by
              refine ⟨rfl, fun hn => ?_, fun n hn => ?_, hname, ?_⟩
              · rw [ExprAttrs.attrs_setAttrs, AttrDefs.names_update]
                exact hn
              · rw [ExprAttrs.attrs_setAttrs, AttrDefs.find?_update hname, if_neg (Ne.symm hn)]
              · rw [ExprAttrs.attrs_setAttrs, AttrDefs.find?_update hname, if_pos rfl]
            refine hrep.grows hs hgrow.regular ?_ (fun _ hnone => by simp at hnone)
              (fun hr e' he' => ?_)
            · refine hgrow.right.trans (and_congr ?_ ?_)
              · simp only [Option.some.injEq, forall_eq']
                rfl
              · rw [hname]
            · obtain rfl := Option.some.inj he'
              rw [Expr.resolve, Expr.resolve, Lit.union, hgrow.resolve hr]
          next => simp at h
      | expr nameExpr =>
          rw [addAttr] at h
          obtain ⟨nested, hnested, h⟩ := bind_eq_ok.mp h
          obtain rfl := Except.ok.inj h
          have hgrow := ih regular_empty hnested
          refine pushDynamic_grows (e := .attrs nested) hs hgrow.regular ?_ nameExpr fun hr => ?_
          · refine hgrow.right.trans ?_
            simp [right_empty, addAttrOk_empty, AddAttrOk]
          · rw [Expr.resolve, hgrow.resolve hr, resolve_empty, empty_union_nest]

section Inherit

variable {s r : ExprAttrs α} {d : AttrDef α}

/-- A definition of a name that a clause inherits: it points to a node with the right
displacement, if to any. -/
structure InheritDef (s : ExprAttrs α) (d : AttrDef α) : Prop where
  notPlain : ∀ e, d ≠ .plain e
  node : ∀ c, d = .inheritedFrom c → s.froms[c]? = some c ∧ c < s.inheritFromExprs.length

theorem insertDef_grows (hs : s.Regular) (hd : InheritDef s d) {name : Symbol}
    (h : insertDef s name d = .ok r) :
    Grows s r True (.single name (d.resolve (refer s.inheritFromExprs s.froms))) := by
  obtain ⟨hhere, hattrs, hdynamic⟩ := (ExprAttrs.all_iff s).mp hs
  obtain ⟨hname, rfl⟩ := insertDef_eq_ok.mp h
  have hnodup := AttrDefs.nodup_emplace hname d hhere.nodup
  have hnodes : ∀ c, c ∈ (s.attrs.emplace name d).nodes ↔
      c ∈ s.attrs.nodes ∨ d = .inheritedFrom c := by
    intro c
    rw [AttrDefs.mem_nodes hnodup, AttrDefs.mem_nodes hhere.nodup]
    constructor
    · rintro ⟨n, hn⟩
      rw [AttrDefs.find?_emplace hname] at hn
      split at hn
      next => exact .inr (Option.some.inj hn)
      next => exact .inl ⟨n, hn⟩
    · rintro (⟨n, hn⟩ | rfl)
      · refine ⟨n, ?_⟩
        rw [AttrDefs.find?_emplace hname, if_neg, hn]
        rintro rfl
        simp [hname] at hn
      · exact ⟨name, by rw [AttrDefs.find?_emplace hname, if_pos rfl]⟩
  have hall : ∀ P : ExprAttrs α → Prop, (s.attrs.emplace name d).All P ↔ s.attrs.All P := by
    intro P
    rw [AttrDefs.all_iff hnodup, AttrDefs.all_iff hhere.nodup]
    refine forall_congr' fun n => forall_congr' fun e => ?_
    rw [AttrDefs.find?_emplace hname]
    split
    next heq =>
      subst heq
      simp [hname, hd.notPlain e]
    next => rfl
  refine ⟨?_, ?_, fun _ => ?_⟩
  · rw [ExprAttrs.Regular, ExprAttrs.all_iff]
    refine ⟨⟨hnodup, hhere.length, fun c hc => ?_⟩, (hall _).mpr hattrs, hdynamic⟩
    rcases (hnodes c).mp hc with hc | hdc
    · exact hhere.nodes c hc
    · exact ⟨c, (hd.node c hdc).1, Nat.le_refl c⟩
  · rw [and_true, ExprAttrs.Right, ExprAttrs.all_iff, ExprAttrs.Right, ExprAttrs.all_iff s]
    refine and_congr ?_ (and_congr_left' (hall _))
    constructor
    · intro hr c hc
      exact hr c ((hnodes c).mpr (.inl hc))
    · intro hr c hc
      rcases (hnodes c).mp hc with hc | hdc
      · exact hr c hc
      · exact hd.node c hdc
  · have htable : ∀ ref n, (s.attrs.emplace name d).resolve ref n =
        (s.attrs.resolve ref n).union (if n = name then d.resolve ref else .absent) := by
      intro ref n
      rw [AttrDefs.resolve_eq, AttrDefs.resolve_eq, AttrDefs.find?_emplace hname]
      by_cases hn : name = n
      · subst hn
        simp [hname]
      · rw [if_neg hn, if_neg (Ne.symm hn), Entry.union_absent]
    obtain ⟨_, _, _, _, _⟩ := s
    change LitSet.mk _ _ _ = _
    rw [ExprAttrs.resolve, LitSet.single, LitSet.union]
    congr 1
    · exact funext fun n => htable _ n
    · exact (LitDynamic.append_nil _).symm

theorem union_single_names (l : LitSet α) {name : Symbol} {names : List Symbol} {d : Entry α}
    (hd : ∀ e, d ≠ .plain e) (hpresent : d ≠ .absent) :
    (l.union (.single name d)).union (.names d names) = l.union (.names d (name :: names)) := by
  obtain ⟨recursive, table, dynamicAttrs⟩ := l
  have hentry : ∀ n, ((table n).union (if n = name then d else .absent)).union
      (if n ∈ names then d else .absent) =
        (table n).union (if n ∈ name :: names then d else .absent) := by
    intro n
    by_cases hn : n = name
    · have hmem : n ∈ name :: names := by simp [hn]
      rw [if_pos hn, if_pos hmem]
      cases table n <;> cases d <;> split <;> simp_all [Entry.union]
    · simp [hn]
  simp only [LitSet.single, LitSet.names, LitSet.union, hentry, LitDynamic.append_nil]

theorem inheritNames_grows {names : List Symbol} (hs : s.Regular) (hd : InheritDef s d)
    (h : inheritNames d s names = .ok r) :
    Grows s r True (.names (d.resolve (refer s.inheritFromExprs s.froms)) names) := by
  induction names generalizing s with
  | nil =>
      obtain rfl := Except.ok.inj h
      refine ⟨hs, by rw [and_true], fun _ => ?_⟩
      obtain ⟨_, _, _, _, _⟩ := s
      simp [ExprAttrs.resolve, LitSet.names, LitSet.union, LitDynamic.append_nil]
  | cons name names ih =>
      rw [inheritNames] at h
      obtain ⟨t, ht, h⟩ := bind_eq_ok.mp h
      have hgrow := insertDef_grows hs hd ht
      obtain ⟨-, rfl⟩ := insertDef_eq_ok.mp ht
      have hgrow' := ih hgrow.regular ⟨hd.notPlain, hd.node⟩ h
      refine ⟨hgrow'.regular, ?_, fun hr => ?_⟩
      · rw [hgrow'.right, hgrow.right, and_true]
      · rw [hgrow'.resolve hr, hgrow.resolve (hgrow'.right.mp hr).1]
        refine union_single_names _ (fun e => ?_) ?_
        · cases d with
          | plain e' => exact absurd rfl (hd.notPlain e')
          | inherited => simp [AttrDef.resolve]
          | inheritedFrom c =>
              simp only [AttrDef.resolve, refer]
              split <;> simp
        · cases d with
          | plain e' => exact absurd rfl (hd.notPlain e')
          | inherited => simp [AttrDef.resolve]
          | inheritedFrom c =>
              simp only [AttrDef.resolve, refer]
              split <;> simp

theorem pushFrom_spec (hs : s.Regular) (e : α) :
    (pushFrom s e).Regular ∧ ((pushFrom s e).Right ↔ s.Right) ∧
      ((pushFrom s e).Right → (pushFrom s e).resolve = s.resolve) := by
  obtain ⟨hhere, hattrs, hdynamic⟩ := (ExprAttrs.all_iff s).mp hs
  have hdynamic' : ∀ P : ExprAttrs α → Prop, (s.dynamicAttrs.append .nil).All P ↔
      s.dynamicAttrs.All P := by
    intro P
    rw [DynamicAttrs.all_append, DynamicAttrs.All, and_true]
  have hfroms : ∀ c ∈ s.attrs.nodes, (s.froms ++ [s.inheritFromExprs.length])[c]? = s.froms[c]? := by
    intro c hc
    apply List.getElem?_append_left
    rw [hhere.length]
    exact hhere.lt hc
  have hright : (pushFrom s e).RightHere ↔ s.RightHere := by
    refine forall_congr' fun c => forall_congr' fun hc => ?_
    change ((s.froms ++ [s.inheritFromExprs.length])[c]? = some c ∧
      c < (s.inheritFromExprs ++ [e]).length) ↔ _
    have hlt := hhere.lt hc
    rw [hfroms c hc, List.length_append, List.length_singleton]
    refine and_congr_right' (iff_of_true (by omega) hlt)
  refine ⟨?_, ?_, fun hr => ?_⟩
  · rw [ExprAttrs.Regular, ExprAttrs.all_iff]
    refine ⟨⟨hhere.nodup, ?_, fun c hc => ?_⟩, hattrs, (hdynamic' _).mpr hdynamic⟩
    · change (s.froms ++ [_]).length = (s.inheritFromExprs ++ [e]).length
      rw [List.length_append, List.length_append, hhere.length]
      rfl
    · obtain ⟨d, hd, hle⟩ := hhere.nodes c hc
      exact ⟨d, (hfroms c hc).trans hd, hle⟩
  · rw [ExprAttrs.Right, ExprAttrs.all_iff, ExprAttrs.Right, ExprAttrs.all_iff s, hright]
    exact and_congr_right' (and_congr_right' (hdynamic' _))
  · have hhr := ((ExprAttrs.all_iff _).mp hr).1
    have htable : ∀ n, s.attrs.resolve (refer (s.inheritFromExprs ++ [e])
        (s.froms ++ [s.inheritFromExprs.length])) n =
          s.attrs.resolve (refer s.inheritFromExprs s.froms) n := by
      intro n
      rw [AttrDefs.resolve_eq, AttrDefs.resolve_eq]
      cases hn : s.attrs.find? n with
      | none => rfl
      | some d =>
          refine AttrDef.resolve_congr fun c hd => ?_
          have hc := (AttrDefs.mem_nodes hhere.nodup).mpr ⟨n, hd ▸ hn⟩
          refine refer_eq (hhr c hc).1 (hright.mp hhr c hc).1 ?_
          exact List.getElem?_append_left (hhere.lt hc)
    obtain ⟨_, _, _, _, dynamicAttrs⟩ := s
    change LitSet.mk _ _ (dynamicAttrs.append .nil).resolve = _
    rw [ExprAttrs.resolve, DynamicAttrs.resolve_append]
    congr 1
    · exact funext htable
    · exact LitDynamic.append_nil _

end Inherit

mutual

/-- No binding shifts a node that several names share. The condition for a binding is about the
set before it. -/
def SourceOk : Source α → Prop
  | .other _ => True
  | .set _ binds => BindsOk binds

def BindsOk : Binds α → Prop
  | .nil => True
  | .attr accum name path e => BindsOk accum ∧ SourceOk e ∧
      ∀ s e', parseBinds accum = .ok s → parse e = .ok e' → AddAttrOk s e' name path
  | .inherit accum _ => BindsOk accum
  | .inheritFrom accum _ _ => BindsOk accum

end

theorem setRecursive_spec {s : ExprAttrs α} (recursive : Bool) (hs : s.Regular) :
    (s.setRecursive recursive).Regular ∧ ((s.setRecursive recursive).Right ↔ s.Right) ∧
      (s.setRecursive recursive).resolve = s.resolve.setRecursive recursive := by
  obtain ⟨hhere, hattrs, hdynamic⟩ := (ExprAttrs.all_iff s).mp hs
  refine ⟨?_, ?_, ?_⟩
  · rw [ExprAttrs.Regular, ExprAttrs.all_iff]
    exact ⟨⟨hhere.nodup, hhere.length, hhere.nodes⟩, hattrs, hdynamic⟩
  · rw [ExprAttrs.Right, ExprAttrs.all_iff, ExprAttrs.Right, ExprAttrs.all_iff s]
    rfl
  · obtain ⟨_, _, _, _, _⟩ := s
    rfl

mutual

theorem parse_spec {src : Source α} {e : Expr α} (h : parse src = .ok e) :
    e.Regular ∧ (e.Right ↔ SourceOk src) ∧ (e.Right → e.resolve = written src) := by
  match src with
  | .other a =>
      rw [parse, Except.ok.injEq] at h
      subst h
      rw [SourceOk]
      exact ⟨trivial, Iff.rfl, fun _ => rfl⟩
  | .set recursive binds =>
      rw [parse] at h
      obtain ⟨s, hs, h⟩ := bind_eq_ok.mp h
      obtain rfl := Except.ok.inj h
      obtain ⟨hregular, hright, hresolve⟩ := parseBinds_spec hs
      obtain ⟨hregular', hright', hresolve'⟩ := setRecursive_spec recursive hregular
      rw [SourceOk, ← hright, ← hright', Expr.resolve, written, hresolve']
      exact ⟨hregular', Iff.rfl, fun hr => by rw [hresolve (hright'.mp hr)]⟩

theorem parseBinds_spec {binds : Binds α} {s : ExprAttrs α} (h : parseBinds binds = .ok s) :
    s.Regular ∧ (s.Right ↔ BindsOk binds) ∧ (s.Right → s.resolve = writtenBinds binds) := by
  match binds with
  | .nil =>
      rw [parseBinds, Except.ok.injEq] at h
      subst h
      rw [BindsOk]
      exact ⟨regular_empty, iff_of_true right_empty trivial, fun _ => rfl⟩
  | .attr accum name path e =>
      rw [parseBinds] at h
      obtain ⟨t, ht, h⟩ := bind_eq_ok.mp h
      obtain ⟨e', he', h⟩ := bind_eq_ok.mp h
      obtain ⟨hregular, hright, hresolve⟩ := parseBinds_spec ht
      obtain ⟨heregular, heright, heresolve⟩ := parse_spec he'
      have hgrow := addAttr_grows hregular heregular h
      refine ⟨hgrow.regular, ?_, fun hr => ?_⟩
      · rw [hgrow.right, BindsOk, hright, heright]
        refine and_congr_right' (and_congr_right' ⟨fun hok t' e'' ht' he'' => ?_, fun hok => ?_⟩)
        · obtain rfl := Except.ok.inj (ht.symm.trans ht')
          obtain rfl := Except.ok.inj (he'.symm.trans he'')
          exact hok
        · exact hok t e' ht he'
      · obtain ⟨htr, her, -⟩ := hgrow.right.mp hr
        rw [hgrow.resolve hr, hresolve htr, heresolve her, writtenBinds]
  | .inherit accum names =>
      rw [parseBinds] at h
      obtain ⟨t, ht, h⟩ := bind_eq_ok.mp h
      obtain ⟨hregular, hright, hresolve⟩ := parseBinds_spec ht
      have hgrow := inheritNames_grows hregular
        ⟨fun e he => by simp at he, fun c hc => by simp at hc⟩ h
      refine ⟨hgrow.regular, ?_, fun hr => ?_⟩
      · rw [hgrow.right, and_true, BindsOk, hright]
      · rw [hgrow.resolve hr, hresolve (hgrow.right.mp hr).1, writtenBinds]
        rfl
  | .inheritFrom accum e names =>
      rw [parseBinds] at h
      obtain ⟨t, ht, h⟩ := bind_eq_ok.mp h
      obtain ⟨hregular, hright, hresolve⟩ := parseBinds_spec ht
      obtain ⟨hpregular, hpright, hpresolve⟩ := pushFrom_spec hregular e
      have hlength := ((ExprAttrs.all_iff t).mp hregular).1.length
      have hown : (pushFrom t e).froms[t.inheritFromExprs.length]? =
          some t.inheritFromExprs.length := by
        change (t.froms ++ [t.inheritFromExprs.length])[t.inheritFromExprs.length]? = _
        rw [← hlength]
        simp
      have hlast : (pushFrom t e).inheritFromExprs[t.inheritFromExprs.length]? = some e := by
        change (t.inheritFromExprs ++ [e])[t.inheritFromExprs.length]? = _
        simp
      have hgrow := inheritNames_grows hpregular
        ⟨fun e he => by simp at he, fun c hc => by
          obtain rfl := AttrDef.inheritedFrom.inj hc
          exact ⟨hown, (List.getElem?_eq_some_iff.mp hlast).1⟩⟩ h
      refine ⟨hgrow.regular, ?_, fun hr => ?_⟩
      · rw [hgrow.right, and_true, BindsOk, hpright, hright]
      · have hpr := (hgrow.right.mp hr).1
        rw [hgrow.resolve hr, hpresolve hpr, hresolve (hpright.mp hpr), writtenBinds,
          AttrDef.resolve, refer, hown, Option.bind_some, hlast]

end

section Eval

variable (i : Interpretation α)

mutual

theorem Expr.eval_resolve (e : Expr α) (env : i.Env) : e.resolve.eval i env = e.eval i env := by
  match e with
  | .other a => rfl
  | .attrs s => exact s.eval_resolve env

theorem ExprAttrs.eval_resolve (s : ExprAttrs α) (env : i.Env) :
    s.resolve.eval i env = s.eval i env := by
  match s with
  | .mk recursive attrs inheritFromExprs froms dynamicAttrs =>
      rw [ExprAttrs.resolve, LitSet.eval, ExprAttrs.eval, dynamicAttrs.eval_resolve]
      congr 1
      funext name
      exact attrs.eval_resolve inheritFromExprs froms env name

theorem AttrDefs.eval_resolve (attrs : AttrDefs α) (exprs : List α) (froms : List Nat)
    (env : i.Env) (name : Symbol) :
    (attrs.resolve (refer exprs froms) name).eval i env name =
      attrs.eval i env (fun env2 node => ((froms[node]?).bind
        ((exprs.map fun e => i.other e env2)[·]?)).getD i.undefined) name := by
  match attrs with
  | .nil => rfl
  | .plain s e rest =>
      rw [AttrDefs.resolve, AttrDefs.eval, ← rest.eval_resolve exprs froms env name]
      split
      next =>
        rw [Entry.eval]
        exact congrArg some (funext fun env2 => e.eval_resolve env2)
      next => rfl
  | .inherited s rest =>
      rw [AttrDefs.resolve, AttrDefs.eval, ← rest.eval_resolve exprs froms env name]
      split
      next heq =>
        subst heq
        rfl
      next => rfl
  | .inheritedFrom s node rest =>
      rw [AttrDefs.resolve, AttrDefs.eval, ← rest.eval_resolve exprs froms env name]
      split
      next heq =>
        subst heq
        rw [refer]
        cases hd : froms[node]? with
        | none => rfl
        | some d => cases he : exprs[d]? <;> simp [he, Entry.eval]
      next => rfl

theorem DynamicAttrs.eval_resolve (l : DynamicAttrs α) : l.resolve.eval i = l.eval i := by
  match l with
  | .nil => rfl
  | .cons name e rest =>
      rw [DynamicAttrs.resolve, LitDynamic.eval, DynamicAttrs.eval, rest.eval_resolve]
      congr 2
      exact funext fun env => e.eval_resolve env

end

end Eval

/-- A set means the literal with all bindings written out: every attribute that is inherited
from an expression refers to its own clause, and the set evaluates to the same value. -/
def MeansWritten (binds : Binds α) (s : ExprAttrs α) : Prop :=
  s.Right ∧ ∀ (i : Interpretation α) (env : i.Env),
    s.eval i env = (writtenBinds binds).eval i env

/-- Desugaring keeps the meaning of the bindings that the parser accepts exactly when no merge
shifts a node that several names share. -/
theorem parseBinds_meansWritten_iff {binds : Binds α} {s : ExprAttrs α}
    (h : parseBinds binds = .ok s) : MeansWritten binds s ↔ BindsOk binds := by
  obtain ⟨-, hright, hresolve⟩ := parseBinds_spec h
  rw [MeansWritten, ← hright]
  constructor
  · exact fun hm => hm.1
  · intro hr
    refine ⟨hr, fun i env => ?_⟩
    rw [← s.eval_resolve i env, hresolve hr]

/-- `a = { inherit (x) p; }; a.b = 1; a = { inherit (y) q; };` -/
def mergedBinds : Binds String :=
  .attr (.attr (.attr .nil (.symbol 0) [] (.set false (.inheritFrom .nil "x" [10])))
    (.symbol 0) [.symbol 1] (.other "1"))
    (.symbol 0) [] (.set false (.inheritFrom .nil "y" [11]))

def mergedResult : ExprAttrs String :=
  .mk false (.plain 0 (.attrs (.mk false
    (.plain 1 (.other "1") (.inheritedFrom 10 0 (.inheritedFrom 11 1 .nil)))
    ["x", "y"] [0, 1] .nil)) .nil) [] [] .nil

theorem parseBinds_meansWritten_merged : MeansWritten mergedBinds mergedResult ↔
    BindsOk mergedBinds :=
  parseBinds_meansWritten_iff (by rfl)

/-- `a = { inherit (x) p; }; a = { inherit (y) q r; };` -/
def sharedBinds : Binds String :=
  .attr (.attr .nil (.symbol 0) [] (.set false (.inheritFrom .nil "x" [10])))
    (.symbol 0) [] (.set false (.inheritFrom .nil "y" [11, 12]))

/-- The node of `q` and `r` is shifted twice, past the end of the expressions. -/
theorem not_meansWritten_shared :
    ∃ s, parseBinds sharedBinds = .ok s ∧ ¬ MeansWritten sharedBinds s := by
  refine ⟨.mk false (.plain 0 (.attrs (.mk false
    (.inheritedFrom 10 0 (.inheritedFrom 11 1 (.inheritedFrom 12 1 .nil)))
    ["x", "y"] [0, 2] .nil)) .nil) [] [] .nil, rfl, ?_⟩
  rintro ⟨⟨-, ⟨⟨hright, -⟩, -⟩, -⟩, -⟩
  have hnode := (hright 1 (by decide)).1
  simp [ExprAttrs.froms] at hnode

end Nix.Eval.AttrSets
