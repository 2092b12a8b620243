import Mathlib.Data.List.Forall2

/-!
Computations that return a value or an error, read from their success.
-/

namespace Nix.Lib.Results

variable {ε α β : Type}

theorem bind_eq_ok {x : Except ε α} {f : α → Except ε β} {b : β} :
    (x >>= f) = .ok b ↔ ∃ a, x = .ok a ∧ f a = .ok b := by
  cases x with
  | error e => simp [bind, Except.bind]
  | ok a => simp [bind, Except.bind]

theorem bind_eq_error {x : Except ε α} {f : α → Except ε β} {e : ε} :
    (x >>= f) = .error e ↔ x = .error e ∨ ∃ a, x = .ok a ∧ f a = .error e := by
  cases x with
  | error e' => simp [bind, Except.bind]
  | ok a => simp [bind, Except.bind]

theorem pure_eq_ok {a b : α} : (pure a : Except ε α) = .ok b ↔ a = b := by
  simp [pure, Except.pure]

theorem map_eq_ok {x : Except ε α} {f : α → β} {b : β} :
    x.map f = .ok b ↔ ∃ a, x = .ok a ∧ f a = b := by
  cases x <;> simp [Except.map]

theorem map_eq_error {x : Except ε α} {f : α → β} {e : ε} :
    x.map f = .error e ↔ x = .error e := by
  cases x <;> simp [Except.map]

/-! ### Lists -/

theorem mapM_eq_ok {f : α → Except ε β} {l : List α} {l' : List β} :
    l.mapM f = .ok l' ↔ List.Forall₂ (fun a b => f a = .ok b) l l' := by
  induction l generalizing l' with
  | nil => rw [List.mapM_nil, pure_eq_ok, List.forall₂_nil_left_iff, eq_comm]
  | cons a l ih =>
    rw [List.mapM_cons, bind_eq_ok]
    constructor
    · rintro ⟨b, hb, h⟩
      obtain ⟨l'', hl, h⟩ := bind_eq_ok.mp h
      obtain rfl := pure_eq_ok.mp h
      exact .cons hb (ih.mp hl)
    · rintro (_ | ⟨hb, hl⟩)
      exact ⟨_, hb, bind_eq_ok.mpr ⟨_, ih.mpr hl, rfl⟩⟩

theorem exists_of_mapM {f : α → Except ε β} {l : List α} {l' : List β} (h : l.mapM f = .ok l') :
    ∀ a ∈ l, ∃ b ∈ l', f a = .ok b := by
  induction mapM_eq_ok.mp h with
  | nil => exact List.forall_mem_nil _
  | cons hb hl ih =>
    refine List.forall_mem_cons.mpr ⟨⟨_, List.mem_cons_self, hb⟩, fun a ha => ?_⟩
    exact (ih (mapM_eq_ok.mpr hl) a ha).imp fun b => And.imp_left (List.mem_cons_of_mem _)

theorem mem_of_mapM {f : α → Except ε β} {l : List α} {l' : List β} (h : l.mapM f = .ok l')
    {b : β} : b ∈ l' ↔ ∃ a ∈ l, f a = .ok b := by
  constructor
  · induction mapM_eq_ok.mp h with
    | nil => exact fun hb => absurd hb List.not_mem_nil
    | cons hb hl ih =>
      intro hin
      rcases List.mem_cons.mp hin with rfl | hin
      · exact ⟨_, List.mem_cons_self, hb⟩
      · exact (ih (mapM_eq_ok.mpr hl) hin).imp fun a => And.imp_left (List.mem_cons_of_mem _)
  · rintro ⟨a, ha, hb⟩
    obtain ⟨b', hb', heq⟩ := exists_of_mapM h a ha
    cases hb.symm.trans heq
    exact hb'

theorem exists_mapM {f : α → Except ε β} {l : List α} (h : ∀ a ∈ l, ∃ b, f a = .ok b) :
    ∃ l', l.mapM f = .ok l' := by
  induction l with
  | nil => exact ⟨[], rfl⟩
  | cons a l ih =>
    obtain ⟨⟨b, hb⟩, h⟩ := List.forall_mem_cons.mp h
    obtain ⟨l', hl⟩ := ih h
    exact ⟨b :: l', mapM_eq_ok.mpr (.cons hb (mapM_eq_ok.mp hl))⟩

/-- Texts that are all read back. -/
theorem mapM_map_of_ok {f : α → Except ε β} {render : β → α} {l : List β}
    (h : ∀ b ∈ l, f (render b) = .ok b) : (l.map render).mapM f = .ok l := by
  rw [mapM_eq_ok, List.forall₂_map_left_iff]
  exact List.forall₂_same.mpr h

theorem forM_eq_ok {f : α → Except ε Unit} {l : List α} :
    l.forM f = .ok () ↔ ∀ a ∈ l, f a = .ok () := by
  induction l with
  | nil => exact iff_of_true rfl (List.forall_mem_nil _)
  | cons a l ih =>
    rw [List.forM_eq_forM, List.forM_cons, bind_eq_ok, List.forall_mem_cons, ← ih]
    exact ⟨fun ⟨_, ha, hl⟩ => ⟨ha, hl⟩, fun ⟨ha, hl⟩ => ⟨(), ha, hl⟩⟩

/-- Every part in turn, up to the first error. -/
def forEach : {n : Nat} → (Fin n → Except ε α) → Except ε (Fin n → α)
  | 0, _ => .ok nofun
  | _ + 1, f => do
      let first ← f 0
      let rest ← forEach fun i => f i.succ
      return fun i => i.cases first rest

theorem forEach_eq_ok {n : Nat} {f : Fin n → Except ε α} {g : Fin n → α} :
    forEach f = .ok g ↔ ∀ i, f i = .ok (g i) := by
  induction n with
  | zero => exact iff_of_true (congrArg Except.ok (funext fun i => i.elim0)) fun i => i.elim0
  | succ n ih =>
    simp only [forEach, bind_eq_ok, pure_eq_ok, ih]
    constructor
    · rintro ⟨first, hfirst, rest, hrest, rfl⟩ i
      cases i using Fin.cases with
      | zero => exact hfirst
      | succ i => exact hrest i
    · intro h
      refine ⟨g 0, h 0, fun i => g i.succ, fun i => h i.succ, funext fun i => ?_⟩
      cases i using Fin.cases with
      | zero => rfl
      | succ i => rfl

theorem exists_forEach {n : Nat} {f : Fin n → Except ε α} :
    (∃ g, forEach f = .ok g) ↔ ∀ i, ∃ a, f i = .ok a := by
  simp only [forEach_eq_ok]
  exact (Classical.skolem (p := fun i a => f i = .ok a)).symm

/-- Whether the rest has a result does not depend on the first result. -/
theorem exists_bind_eq_ok {x : Except ε α} {f : α → Except ε β} {p q : Prop}
    (hx : (∃ a, x = .ok a) ↔ p) (hf : ∀ a, (∃ b, f a = .ok b) ↔ q) :
    (∃ b, x >>= f = .ok b) ↔ p ∧ q := by
  simp only [bind_eq_ok]
  rw [exists_comm, ← hx, ← exists_and_right]
  refine exists_congr fun a => ?_
  rw [exists_and_left, hf]

theorem exists_bind_pure {x : Except ε α} {f : α → β} {p : Prop} (hx : (∃ a, x = .ok a) ↔ p) :
    (∃ b, (do let a ← x; return f a) = .ok b) ↔ p :=
  (exists_bind_eq_ok hx fun _ => iff_true_intro ⟨_, rfl⟩).trans (and_iff_left trivial)

end Nix.Lib.Results
