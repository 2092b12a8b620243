import Mathlib.Data.List.Perm.Basic
import Mathlib.Order.Basic
import Nix.Eval.LayeredBindings

/-!
Iteration over layers comes to each attribute that a lookup finds, in the order of the names.
-/

set_option linter.dupNamespace false

namespace Nix.Eval.LayeredBindings

variable {V : Type}

def Sorted (l : List (Attr V)) : Prop :=
  l.Pairwise (·.name < ·.name)

theorem Sorted.tail {l : List (Attr V)} (h : Sorted l) : Sorted l.tail := by
  cases l with
  | nil => exact h
  | cons a l => exact (List.pairwise_cons.mp h).2

theorem Sorted.dropWhile {l : List (Attr V)} (h : Sorted l) (p : Attr V → Bool) :
    Sorted (l.dropWhile p) :=
  h.sublist (List.dropWhile_suffix p).sublist

theorem Sorted.eq_of_name_eq {l : List (Attr V)} (h : Sorted l) {a b : Attr V} (ha : a ∈ l)
    (hb : b ∈ l) (hname : a.name = b.name) : a = b := by
  induction l with
  | nil => cases ha
  | cons c l ih =>
    obtain ⟨hc, hl⟩ := List.pairwise_cons.mp h
    rcases List.mem_cons.mp ha with rfl | ha'
    · rcases List.mem_cons.mp hb with rfl | hb'
      · rfl
      · exact absurd (hc b hb') (hname ▸ Nat.lt_irrefl _)
    · rcases List.mem_cons.mp hb with rfl | hb'
      · exact absurd (hc a ha') (hname ▸ Nat.lt_irrefl _)
      · exact ih hl ha' hb'

theorem mem_dropWhile_le_iff {l : List (Attr V)} (h : Sorted l) {name : Symbol} {b : Attr V}
    (hb : name < b.name) : b ∈ l.dropWhile (·.name ≤ name) ↔ b ∈ l := by
  induction l with
  | nil => exact Iff.rfl
  | cons a l ih =>
    by_cases ha : a.name ≤ name
    · rw [List.dropWhile_cons_of_pos (by simpa using ha), ih h.tail, List.mem_cons]
      refine (or_iff_right ?_).symm
      rintro rfl
      exact absurd hb (Nat.not_lt_of_le ha)
    · rw [List.dropWhile_cons_of_neg (by simpa using ha)]

namespace CursorHeap

theorem pop_eq_none {heap : CursorHeap V} : heap.pop = none ↔ heap = [] := by
  cases heap with
  | nil => simp [pop]
  | cons c heap =>
    rw [pop]
    split
    · simp
    · split <;> simp

theorem before_trans {c d e : BindingsCursor V} (hcd : c.before d) (hde : d.before e) :
    c.before e := by
  simp only [BindingsCursor.before, decide_eq_true_eq] at *
  grind

theorem before_of_not_before {c d : BindingsCursor V} (h : ¬ c.before d) : d.before c := by
  simp only [BindingsCursor.before, decide_eq_true_eq] at *
  grind

theorem pop_eq_some {heap rest : CursorHeap V} {c : BindingsCursor V}
    (h : heap.pop = some (c, rest)) : heap.Perm (c :: rest) ∧ ∀ d ∈ rest, c.before d := by
  induction heap generalizing c rest with
  | nil => cases h
  | cons e heap ih =>
    rw [pop] at h
    split at h
    next hpop =>
      cases h
      rw [pop_eq_none.mp hpop]
      exact ⟨.refl _, by simp⟩
    next d others hpop =>
      obtain ⟨hperm, hbefore⟩ := ih hpop
      split at h
      next hed =>
        cases h
        refine ⟨hperm.cons e, fun f hf => ?_⟩
        rcases List.mem_cons.mp hf with rfl | hf
        · exact hed
        · exact before_trans hed (hbefore f hf)
      next hed =>
        cases h
        refine ⟨(hperm.cons e).trans (.swap _ _ _), fun f hf => ?_⟩
        rcases List.mem_cons.mp hf with rfl | hf
        · exact before_of_not_before hed
        · exact hbefore f hf

/-- Cursors over sorted ranges that are not at their ends, each of its own priority. -/
structure Ok (heap : CursorHeap V) : Prop where
  sorted : ∀ c ∈ heap, Sorted c.current
  ne_nil : ∀ c ∈ heap, c.current ≠ []
  priorities : heap.Pairwise (·.priority ≠ ·.priority)

theorem Ok.perm {heap heap' : CursorHeap V} (h : Ok heap) (hperm : heap.Perm heap') : Ok heap' where
  sorted c hc := h.sorted c (hperm.mem_iff.mpr hc)
  ne_nil c hc := h.ne_nil c (hperm.mem_iff.mpr hc)
  priorities := (hperm.pairwise_iff fun h => h.symm).mp h.priorities

def Entry (heap : CursorHeap V) (priority : Nat) (a : Attr V) : Prop :=
  ∃ c ∈ heap, c.priority = priority ∧ a ∈ c.current

/-- An attribute that no other one of its name overrides. -/
def Visible (heap : CursorHeap V) (a : Attr V) : Prop :=
  ∃ p, heap.Entry p a ∧ ∀ q b, heap.Entry q b → b.name = a.name → p ≤ q

theorem visible_congr {heap heap' : CursorHeap V} {a : Attr V}
    (h : ∀ p b, b.name = a.name → (heap.Entry p b ↔ heap'.Entry p b)) :
    heap.Visible a ↔ heap'.Visible a := by
  have himp : ∀ {s t : CursorHeap V}, (∀ p b, b.name = a.name → (s.Entry p b ↔ t.Entry p b)) →
      s.Visible a → t.Visible a := by
    rintro s t hst ⟨p, hp, hmin⟩
    exact ⟨p, (hst p a rfl).mp hp, fun q b hq hname => hmin q b ((hst q b hname).mpr hq) hname⟩
  exact ⟨himp h, himp fun p b hname => (h p b hname).symm⟩

theorem entry_perm {heap heap' : CursorHeap V} (h : heap.Perm heap') (p : Nat) (a : Attr V) :
    heap.Entry p a ↔ heap'.Entry p a := by
  simp only [Entry, h.mem_iff]

theorem Ok.pushUnlessEmpty {c : BindingsCursor V} {rest : CursorHeap V} (h : Ok (c :: rest))
    (d : BindingsCursor V)
    (hpriority : d.priority = c.priority) (hsorted : Sorted d.current) :
    Ok (rest.pushUnlessEmpty d) := by
  obtain ⟨hc, hrest⟩ := List.pairwise_cons.mp h.priorities
  have hok : Ok rest :=
    ⟨fun e he => h.sorted e (.tail _ he), fun e he => h.ne_nil e (.tail _ he), hrest⟩
  unfold CursorHeap.pushUnlessEmpty push
  split
  · exact hok
  next hne =>
    refine ⟨?_, ?_, ?_⟩
    · exact List.forall_mem_cons.mpr ⟨hsorted, hok.sorted⟩
    · refine List.forall_mem_cons.mpr ⟨fun heq => hne ?_, hok.ne_nil⟩
      rw [BindingsCursor.empty, heq]
      rfl
    · exact List.pairwise_cons.mpr ⟨fun e he => hpriority ▸ hc e he, hrest⟩

theorem entry_pushUnlessEmpty (c d : BindingsCursor V) {rest : CursorHeap V} {a : Attr V}
    (hpriority : d.priority = c.priority) (hmem : a ∈ d.current ↔ a ∈ c.current) (p : Nat) :
    Entry (c :: rest) p a ↔ (rest.pushUnlessEmpty d).Entry p a := by
  have hcons : ∀ (e : BindingsCursor V), Entry (e :: rest) p a ↔
      (e.priority = p ∧ a ∈ e.current) ∨ rest.Entry p a := by
    intro e
    simp [Entry]
  unfold pushUnlessEmpty push
  split
  next hempty =>
    have hnot : a ∉ d.current := by
      rw [List.isEmpty_iff.mp hempty]
      exact List.not_mem_nil
    rw [hcons]
    refine or_iff_right fun hc => hnot (hmem.mpr hc.2)
  next =>
    rw [hcons, hcons, hpriority, hmem]

theorem consumeAll_eq_some {name : Symbol} {heap rest : CursorHeap V} {c : BindingsCursor V}
    (hok : heap.Ok) (h : heap.consumeAll name = some (c, rest)) :
    Ok (c :: rest) ∧ name < c.name ∧ (∀ d ∈ rest, c.before d) ∧
      ∀ p b, name < b.name → (heap.Entry p b ↔ Entry (c :: rest) p b) := by
  induction heap using consumeAll.induct name with
  | case1 heap hpop =>
    rw [consumeAll_of_pop_none hpop] at h
    cases h
  | case2 heap d others hpop hle ih =>
    rw [consumeAll_of_pop_some hpop, if_pos hle] at h
    obtain ⟨hperm, -⟩ := pop_eq_some hpop
    have hok' := hok.perm hperm
    have hsorted := hok'.sorted d List.mem_cons_self
    obtain ⟨hresult, hlt, hbefore, hentries⟩ :=
      ih (hok'.pushUnlessEmpty (d.consume name) rfl (hsorted.dropWhile _)) h
    refine ⟨hresult, hlt, hbefore, fun p b hb => ?_⟩
    rw [entry_perm hperm, ← hentries p b hb]
    exact entry_pushUnlessEmpty d (d.consume name) rfl (mem_dropWhile_le_iff hsorted hb) p
  | case3 heap d others hpop hlt =>
    rw [consumeAll_of_pop_some hpop, if_neg hlt] at h
    cases h
    obtain ⟨hperm, hbefore⟩ := pop_eq_some hpop
    exact ⟨hok.perm hperm, Nat.lt_of_not_le hlt, hbefore, fun p b _ => entry_perm hperm p b⟩

theorem consumeAll_eq_none {name : Symbol} {heap : CursorHeap V} (hok : heap.Ok)
    (h : heap.consumeAll name = none) (p : Nat) {b : Attr V} (hb : name < b.name) :
    ¬ heap.Entry p b := by
  induction heap using consumeAll.induct name with
  | case1 heap hpop =>
    rw [pop_eq_none.mp hpop]
    rintro ⟨c, hc, -⟩
    cases hc
  | case2 heap d others hpop hle ih =>
    rw [consumeAll_of_pop_some hpop, if_pos hle] at h
    obtain ⟨hperm, -⟩ := pop_eq_some hpop
    have hok' := hok.perm hperm
    have hsorted := hok'.sorted d List.mem_cons_self
    have hnot := ih (hok'.pushUnlessEmpty (d.consume name) rfl (hsorted.dropWhile _)) h
    rw [entry_perm hperm]
    rwa [entry_pushUnlessEmpty d (d.consume name) rfl (mem_dropWhile_le_iff hsorted hb)]
  | case3 heap d others hpop hlt =>
    rw [consumeAll_of_pop_some hpop, if_neg hlt] at h
    cases h

theorem name_le_of_mem {c : BindingsCursor V} (h : Sorted c.current) {a : Attr V}
    (ha : a ∈ c.current) : c.name ≤ a.name := by
  obtain ⟨current, priority⟩ := c
  cases current with
  | nil => cases ha
  | cons b current =>
    rcases List.mem_cons.mp ha with rfl | ha
    · exact Nat.le_refl _
    · exact Nat.le_of_lt ((List.pairwise_cons.mp h).1 a ha)

theorem first_of_entry {c : BindingsCursor V} {rest : CursorHeap V} (hok : Ok (c :: rest))
    (hbefore : ∀ d ∈ rest, c.before d) {p : Nat} {a : Attr V} (h : Entry (c :: rest) p a) :
    c.name < a.name ∨ c.name = a.name ∧ c.priority ≤ p := by
  obtain ⟨d, hd, rfl, ha⟩ := h
  have hle := name_le_of_mem (hok.sorted d hd) ha
  rcases List.mem_cons.mp hd with rfl | hd
  · rcases Nat.eq_or_lt_of_le hle with heq | hlt
    · exact .inr ⟨heq, Nat.le_refl _⟩
    · exact .inl hlt
  · have hcd := hbefore d hd
    simp only [BindingsCursor.before, decide_eq_true_eq] at hcd
    rcases hcd with hlt | ⟨heq, hpriority⟩
    · exact .inl (Nat.lt_of_lt_of_le hlt hle)
    · rw [heq]
      rcases Nat.eq_or_lt_of_le hle with heq' | hlt
      · exact .inr ⟨heq', hpriority⟩
      · exact .inl hlt

theorem Ok.mem_of_entry {c : BindingsCursor V} {rest : CursorHeap V} (h : Ok (c :: rest))
    {a : Attr V} (ha : Entry (c :: rest) c.priority a) : a ∈ c.current := by
  obtain ⟨d, hd, hpriority, ha⟩ := ha
  rcases List.mem_cons.mp hd with rfl | hd
  · exact ha
  · exact absurd hpriority.symm ((List.pairwise_cons.mp h.priorities).1 d hd)

theorem visible_cons_iff {a b : Attr V} {l : List (Attr V)} {c : BindingsCursor V}
    {rest : CursorHeap V} (hok : Ok (c :: rest)) (hc : c.current = a :: l)
    (hbefore : ∀ d ∈ rest, c.before d) :
    Visible (c :: rest) b ↔
      b = a ∨ a.name < b.name ∧ Visible (rest.pushUnlessEmpty c.increment) b := by
  have hname : c.name = a.name := by
    rw [BindingsCursor.name, hc]
    rfl
  have hfront : Entry (c :: rest) c.priority a :=
    ⟨c, List.mem_cons_self, rfl, hc ▸ List.mem_cons_self⟩
  have hlater : a.name < b.name →
      (Visible (c :: rest) b ↔ Visible (rest.pushUnlessEmpty c.increment) b) := by
    refine fun hb => visible_congr fun p e he => entry_pushUnlessEmpty c c.increment rfl ?_ p
    rw [BindingsCursor.increment, hc, List.tail_cons, List.mem_cons]
    refine (or_iff_right ?_).symm
    rintro rfl
    exact Nat.lt_irrefl _ (he ▸ hb)
  constructor
  · intro hvisible
    obtain ⟨p, hp, hmin⟩ := hvisible
    rcases first_of_entry hok hbefore hp with hlt | ⟨heq, hle⟩
    · have hb := hname ▸ hlt
      exact .inr ⟨hb, (hlater hb).mp ⟨p, hp, hmin⟩⟩
    · have hab := hname.symm.trans heq
      obtain rfl := Nat.le_antisymm hle (hmin _ a hfront hab)
      have hin := hok.mem_of_entry hp
      exact .inl ((hok.sorted c List.mem_cons_self).eq_of_name_eq hin
        (hc ▸ List.mem_cons_self) hab.symm)
  · rintro (rfl | ⟨hb, hvisible⟩)
    · refine ⟨c.priority, hfront, fun q e hq he => ?_⟩
      rcases first_of_entry hok hbefore hq with hlt | ⟨-, hle⟩
      · rw [hname, he] at hlt
        exact absurd hlt (Nat.lt_irrefl _)
      · exact hle
    · exact (hlater hb).mpr hvisible

end CursorHeap

namespace Iterator

theorem collect_of_nil {it : Iterator V} (h : it.current = []) : it.collect = [] := by
  rw [collect]
  split
  next => rfl
  next hcons =>
    rw [h] at hcons
    cases hcons

theorem collect_of_cons {it : Iterator V} {a : Attr V} {l : List (Attr V)}
    (h : it.current = a :: l) : it.collect = a :: it.increment.collect := by
  rw [collect]
  split
  next hnil =>
    rw [h] at hnil
    cases hnil
  next hcons =>
    rw [h] at hcons
    cases hcons
    rfl

theorem collect_of_not_doMerge {it : Iterator V} (h : it.doMerge = false) :
    it.collect = it.current := by
  induction it using collect.induct with
  | case1 it hnil => rw [collect_of_nil hnil, hnil]
  | case2 it a l hcons ih =>
    have hincrement : it.increment.doMerge = false ∧ it.increment.current = l := by
      rw [increment, if_neg (by rw [h]; exact Bool.false_ne_true), hcons, List.tail_cons]
      split
      next hl => exact ⟨h, hl.symm⟩
      next => exact ⟨h, rfl⟩
    rw [collect_of_cons hcons, ih hincrement.1, hincrement.2, hcons]

theorem collect_of_doMerge {it : Iterator V} {a : Attr V} {l : List (Attr V)}
    (hmerge : it.doMerge = true) (hok : it.cursorHeap.Ok) (hcurrent : it.current = a :: l) :
    ∃ as, it.collect = a :: as ∧ Sorted (a :: as) ∧
      ∀ b, b ∈ as ↔ a.name < b.name ∧ it.cursorHeap.Visible b := by
  induction it using collect.induct generalizing a l with
  | case1 it hnil =>
    rw [hcurrent] at hnil
    cases hnil
  | case2 it a₀ l₀ hcons ih =>
    obtain ⟨rfl, rfl⟩ := List.cons.inj (hcurrent.symm.trans hcons)
    have hname : it.current.head?.elim 0 Attr.name = a.name := by rw [hcurrent]; rfl
    rw [collect_of_cons hcurrent]
    cases hconsume : it.cursorHeap.consumeAll a.name with
    | none =>
      have hincrement : it.increment.current = [] := by
        rw [increment, if_pos hmerge, hname, hconsume]
        rfl
      refine ⟨[], by rw [collect_of_nil hincrement], List.pairwise_singleton .., fun b => ?_⟩
      refine iff_of_false List.not_mem_nil ?_
      rintro ⟨hb, p, hp, -⟩
      exact CursorHeap.consumeAll_eq_none hok hconsume p hb hp
    | some r =>
      obtain ⟨c, rest⟩ := r
      obtain ⟨hok', hlt, hbefore, hentries⟩ := CursorHeap.consumeAll_eq_some hok hconsume
      obtain ⟨a', l', hc⟩ := List.exists_cons_of_ne_nil (hok'.ne_nil c List.mem_cons_self)
      have hincrement : it.increment = it.next c rest := by
        rw [increment, if_pos hmerge, hname, hconsume]
      have hsorted := (hok'.sorted c List.mem_cons_self).tail
      have hlt' : a.name < a'.name := by
        rw [BindingsCursor.name, hc] at hlt
        exact hlt
      rw [hincrement] at ih ⊢
      obtain ⟨as, has, hsortedAs, hmem⟩ :=
        ih hmerge (hok'.pushUnlessEmpty c.increment rfl hsorted) hc
      refine ⟨a' :: as, by rw [has], List.pairwise_cons.mpr ⟨fun b hb => ?_, hsortedAs⟩, fun b => ?_⟩
      · rcases List.mem_cons.mp hb with rfl | hb
        · exact hlt'
        · exact Nat.lt_trans hlt' ((List.pairwise_cons.mp hsortedAs).1 b hb)
      · have hnext : (it.next c rest).cursorHeap = rest.pushUnlessEmpty c.increment := rfl
        rw [List.mem_cons, hmem, hnext, ← CursorHeap.visible_cons_iff hok' hc hbefore]
        have hsame : a.name < b.name →
            (it.cursorHeap.Visible b ↔ CursorHeap.Visible (c :: rest) b) :=
          fun hb => CursorHeap.visible_congr fun p e he => hentries p e (he ▸ hb)
        constructor
        · intro hvisible
          have hb : a.name < b.name := by
            obtain ⟨p, hp, -⟩ := hvisible
            rcases CursorHeap.first_of_entry hok' hbefore hp with hcb | ⟨hcb, -⟩
            · exact Nat.lt_trans hlt hcb
            · exact hcb ▸ hlt
          exact ⟨hb, (hsame hb).mpr hvisible⟩
        · exact fun ⟨hb, hvisible⟩ => (hsame hb).mp hvisible

end Iterator

theorem find?_le_name {chunk : List (Attr V)} (h : Sorted chunk) {a : Attr V} (ha : a ∈ chunk) :
    chunk.find? (a.name ≤ ·.name) = some a := by
  induction chunk with
  | nil => cases ha
  | cons b chunk ih =>
    obtain ⟨hb, hchunk⟩ := List.pairwise_cons.mp h
    rcases List.mem_cons.mp ha with rfl | ha
    · exact List.find?_cons_of_pos (by simp)
    · rw [List.find?_cons_of_neg (by simpa using hb a ha), ih hchunk ha]

theorem getInChunk_eq_some {chunk : List (Attr V)} (h : Sorted chunk) {name : Symbol}
    {a : Attr V} : getInChunk chunk name = some a ↔ a ∈ chunk ∧ a.name = name := by
  unfold getInChunk
  constructor
  · intro hget
    split at hget
    next i hfind =>
      split at hget
      next heq =>
        cases hget
        exact ⟨List.mem_of_find?_eq_some hfind, heq⟩
      next => cases hget
    next => cases hget
  · rintro ⟨ha, rfl⟩
    rw [find?_le_name h ha]
    exact if_pos rfl

theorem getInChunk_eq_none {chunk : List (Attr V)} (h : Sorted chunk) {name : Symbol} :
    getInChunk chunk name = none ↔ ∀ a ∈ chunk, a.name ≠ name := by
  rw [Option.eq_none_iff_forall_ne_some]
  simp only [ne_eq, getInChunk_eq_some h, not_and]

def getInLayers (layers : List (List (Attr V))) (name : Symbol) : Option (Attr V) :=
  layers.findSome? (getInChunk · name)

theorem Bindings.get_eq (b : Bindings V) (name : Symbol) :
    b.get name = getInLayers b.layers name := by
  induction b using Bindings.layers.induct with
  | case1 attrs n k =>
    rw [get, layers, getInLayers, List.findSome?_cons]
    cases getInChunk attrs name <;> rfl
  | case2 attrs n k base ih =>
    rw [get, layers, getInLayers, List.findSome?_cons, ih]
    cases getInChunk attrs name <;> rfl

theorem ok_cursors {layers : List (List (Attr V))} (h : ∀ l ∈ layers, Sorted l)
    (priority : Nat) :
    CursorHeap.Ok (Bindings.cursors layers priority) ∧
      ∀ c ∈ Bindings.cursors layers priority, priority ≤ c.priority := by
  induction layers generalizing priority with
  | nil => exact ⟨⟨nofun, nofun, .nil⟩, nofun⟩
  | cons l layers ih =>
    obtain ⟨hl, hlayers⟩ := List.forall_mem_cons.mp h
    rw [Bindings.cursors]
    split
    · exact ih hlayers priority
    next hne =>
      obtain ⟨hok, hle⟩ := ih hlayers (priority + 1)
      refine ⟨⟨?_, ?_, ?_⟩, ?_⟩
      · exact List.forall_mem_cons.mpr ⟨hl, hok.sorted⟩
      · exact List.forall_mem_cons.mpr ⟨hne, hok.ne_nil⟩
      · exact List.pairwise_cons.mpr ⟨fun c hc => Nat.ne_of_lt (hle c hc), hok.priorities⟩
      · exact List.forall_mem_cons.mpr ⟨Nat.le_refl _, fun c hc => Nat.le_of_succ_le (hle c hc)⟩

theorem visible_cursors_iff {layers : List (List (Attr V))} (h : ∀ l ∈ layers, Sorted l)
    (priority : Nat) {a : Attr V} :
    CursorHeap.Visible (Bindings.cursors layers priority) a ↔
      getInLayers layers a.name = some a := by
  induction layers generalizing priority with
  | nil =>
    refine iff_of_false ?_ nofun
    rintro ⟨p, ⟨c, hc, -⟩, -⟩
    cases hc
  | cons l layers ih =>
    obtain ⟨hl, hlayers⟩ := List.forall_mem_cons.mp h
    rw [Bindings.cursors, getInLayers, List.findSome?_cons]
    split
    next hnil =>
      rw [hnil]
      exact ih hlayers priority
    next =>
      have hle := (ok_cursors hlayers (priority + 1)).2
      have ih := ih hlayers (priority + 1)
      constructor
      · rintro ⟨p, ⟨c, hc, hp, ha⟩, hmin⟩
        rcases List.mem_cons.mp hc with rfl | hc
        · rw [(getInChunk_eq_some hl).mpr ⟨ha, rfl⟩]
        · have hnone : getInChunk l a.name = none := by
            refine (getInChunk_eq_none hl).mpr fun b hb hname => ?_
            have hpriority := hmin priority b ⟨_, List.mem_cons_self, rfl, hb⟩ hname
            have hlater := hle c hc
            omega
          rw [hnone]
          refine ih.mp ⟨p, ⟨c, hc, hp, ha⟩, fun q b hq hname => ?_⟩
          obtain ⟨d, hd, hdp, hb⟩ := hq
          exact hmin q b ⟨d, .tail _ hd, hdp, hb⟩ hname
      · intro hget
        cases hchunk : getInChunk l a.name with
        | some b =>
          rw [hchunk] at hget
          cases hget
          refine ⟨priority, ⟨_, List.mem_cons_self, rfl, ((getInChunk_eq_some hl).mp hchunk).1⟩, ?_⟩
          rintro q b ⟨c, hc, rfl, -⟩ -
          rcases List.mem_cons.mp hc with rfl | hc
          · exact Nat.le_refl _
          · exact Nat.le_of_succ_le (hle c hc)
        | none =>
          rw [hchunk] at hget
          obtain ⟨p, ⟨c, hc, hp, ha⟩, hmin⟩ := ih.mpr hget
          refine ⟨p, ⟨c, .tail _ hc, hp, ha⟩, ?_⟩
          rintro q b ⟨d, hd, hq, hb⟩ hname
          rcases List.mem_cons.mp hd with rfl | hd
          · exact absurd hname ((getInChunk_eq_none hl).mp hchunk b hb)
          · exact hmin q b ⟨d, hd, hq, hb⟩ hname

theorem Bindings.toList_of_flat {b : Bindings V} (hbase : b.baseLayer = none)
    (hsize : b.size = b.attrs.length) : b.toList = b.attrs := by
  rw [toList, start, hbase]
  dsimp only
  split
  next hempty =>
    have hnil : b.attrs = [] :=
      List.eq_nil_of_length_eq_zero (hsize.symm.trans (of_decide_eq_true hempty))
    rw [Iterator.collect_of_nil rfl, hnil]
  next => rw [Iterator.collect_of_not_doMerge rfl]

theorem Bindings.layers_of_flat {b : Bindings V} (hbase : b.baseLayer = none) :
    b.layers = [b.attrs] := by
  obtain ⟨attrs, n, k, base⟩ := b
  cases hbase
  rfl

theorem Bindings.toList_spec {b : Bindings V} (h : ∀ l ∈ b.layers, Sorted l)
    (hflat : b.baseLayer = none → b.size = b.attrs.length) :
    Sorted b.toList ∧ ∀ a, a ∈ b.toList ↔ b.get a.name = some a := by
  simp only [get_eq]
  cases hbase : b.baseLayer with
  | none =>
    rw [layers_of_flat hbase] at h ⊢
    have hsorted := List.forall_mem_singleton.mp h
    rw [toList_of_flat hbase (hflat hbase)]
    refine ⟨hsorted, fun a => ?_⟩
    have hget : getInLayers [b.attrs] a.name = getInChunk b.attrs a.name := by
      rw [getInLayers, List.findSome?_cons]
      cases getInChunk b.attrs a.name <;> rfl
    rw [hget, getInChunk_eq_some hsorted]
    simp
  | some base =>
    obtain ⟨hok, -⟩ := ok_cursors h 0
    simp only [← visible_cursors_iff h 0]
    cases hpop : (cursors b.layers 0).pop with
    | none =>
      have hstart : b.start = {} := by simp only [start, hbase, hpop]
      rw [toList, hstart, Iterator.collect_of_nil rfl, CursorHeap.pop_eq_none.mp hpop]
      refine ⟨.nil, fun a => iff_of_false List.not_mem_nil ?_⟩
      rintro ⟨p, ⟨c, hc, -⟩, -⟩
      cases hc
    | some r =>
      obtain ⟨c, rest⟩ := r
      have hstart : b.start = ({} : Iterator V).next c rest := by simp only [start, hbase, hpop]
      rw [toList, hstart]
      obtain ⟨hperm, hbefore⟩ := CursorHeap.pop_eq_some hpop
      have hok' := hok.perm hperm
      obtain ⟨a, l, hc⟩ := List.exists_cons_of_ne_nil (hok'.ne_nil c List.mem_cons_self)
      have hsorted := (hok'.sorted c List.mem_cons_self).tail
      have hheap : (({} : Iterator V).next c rest).cursorHeap.Ok :=
        hok'.pushUnlessEmpty c.increment rfl hsorted
      obtain ⟨as, has, hsortedAs, hmem⟩ := Iterator.collect_of_doMerge rfl hheap hc
      rw [has]
      refine ⟨hsortedAs, fun e => ?_⟩
      have hnext : (({} : Iterator V).next c rest).cursorHeap =
        rest.pushUnlessEmpty c.increment := rfl
      have hvisible : CursorHeap.Visible (cursors b.layers 0) e ↔
          CursorHeap.Visible (c :: rest) e :=
        CursorHeap.visible_congr fun p f _ => CursorHeap.entry_perm hperm p f
      rw [List.mem_cons, hmem, hnext, hvisible, CursorHeap.visible_cons_iff hok' hc hbefore]

end Nix.Eval.LayeredBindings
