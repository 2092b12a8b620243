import Mathlib.Data.List.Basic

namespace Nix.Lib.PrefixReader

/-- A computation that reads from a source in state `σ` and may fail with an
error in `ε`. -/
abbrev Reader (σ ε : Type) := StateT σ (Except ε)

variable {σ τ ε α β γ ι : Type}

/-- Fail with `e` when `c` holds. -/
def throwIf (c : Prop) [Decidable c] (e : ε) : Reader σ ε Unit :=
  if c then throw e else pure ()

/-- A computation that does not read. -/
def fromExcept (x : Except ε α) : Reader σ ε α :=
  fun s => x.map fun a => (a, s)

theorem bind_apply (p : Reader σ ε α) (f : α → Reader σ ε β) (s : σ) :
    (p >>= f) s = (p s).bind fun r => f r.1 r.2 := rfl

@[simp] theorem bind_eq_ok {p : Reader σ ε α} {f : α → Reader σ ε β} {s : σ}
    {r : β × σ} :
    (p >>= f) s = .ok r ↔ ∃ a t, p s = .ok (a, t) ∧ f a t = .ok r := by
  rw [bind_apply]
  cases h : p s with
  | error e => simp [Except.bind]
  | ok x => simp [Except.bind, Prod.ext_iff]

@[simp] theorem pure_eq_ok {a b : α} {s t : σ} :
    (pure a : Reader σ ε α) s = .ok (b, t) ↔ a = b ∧ s = t := by
  change Except.ok (a, s) = .ok (b, t) ↔ _
  simp

@[simp] theorem throw_eq_ok {e : ε} {s : σ} {r : α × σ} :
    (throw e : Reader σ ε α) s = .ok r ↔ False := by
  change Except.error e = .ok r ↔ _
  simp

@[simp] theorem throwIf_eq_ok {c : Prop} [Decidable c] {e : ε} {s t : σ} {u : Unit} :
    (throwIf c e : Reader σ ε Unit) s = .ok (u, t) ↔ ¬c ∧ s = t := by
  by_cases hc : c <;> simp [throwIf, hc]

/-! ### Loops

A loop body either asks for another round in a new loop state or finishes with
a value.  The measure of the source bounds the number of rounds. -/

/-- Run at most `fuel` rounds of `step`. -/
def loopFuel (stuck : ε) (step : ι → Reader σ ε (ι ⊕ α)) : Nat → ι → Reader σ ε α
  | 0, _ => throw stuck
  | fuel + 1, i => do
      match ← step i with
      | .inl i' => loopFuel stuck step fuel i'
      | .inr a => pure a

/-- Run `step` until it finishes, for as many rounds as the measure `μ` of the
source allows. -/
def loop (μ : σ → Nat) (stuck : ε) (step : ι → Reader σ ε (ι ⊕ α)) (i : ι) :
    Reader σ ε α :=
  fun s => loopFuel stuck step (μ s + 1) i s

/-- Every round that asks for another one makes the source smaller. -/
def Progress (μ : σ → Nat) (step : ι → Reader σ ε (ι ⊕ α)) : Prop :=
  ∀ i s i' s', step i s = .ok (.inl i', s') → μ s' < μ s

theorem loopFuel_succ (stuck : ε) (step : ι → Reader σ ε (ι ⊕ α)) (fuel : Nat)
    (i : ι) (s : σ) :
    loopFuel stuck step (fuel + 1) i s =
      (step i s).bind fun r =>
        match r.1 with
        | .inl i' => loopFuel stuck step fuel i' r.2
        | .inr a => .ok (a, r.2) := by
  rw [loopFuel, bind_apply]
  congr 1
  funext r
  cases r.1 <;> rfl

/-- Beyond the measure of the source, more fuel does not change the result. -/
theorem loopFuel_mono {μ : σ → Nat} {stuck : ε} {step : ι → Reader σ ε (ι ⊕ α)}
    (hstep : Progress μ step) {fuel fuel' : Nat} {i : ι} {s : σ}
    (h : μ s < fuel) (h' : μ s < fuel') :
    loopFuel stuck step fuel i s = loopFuel stuck step fuel' i s := by
  induction fuel generalizing fuel' i s with
  | zero => omega
  | succ fuel ih =>
      obtain ⟨fuel', rfl⟩ : ∃ n, fuel' = n + 1 := ⟨fuel' - 1, by omega⟩
      rw [loopFuel_succ, loopFuel_succ]
      cases hs : step i s with
      | error e => rfl
      | ok r =>
          obtain ⟨next | a, s'⟩ := r
          · have hlt : μ s' < μ s := hstep i s next s' hs
            exact ih (s := s') (by omega) (by omega)
          · rfl

/-- A loop whose rounds make progress runs one round and then itself: the
bound on the number of rounds is never reached. -/
theorem loop_unfold {μ : σ → Nat} {stuck : ε} {step : ι → Reader σ ε (ι ⊕ α)}
    (hstep : Progress μ step) (i : ι) (s : σ) :
    loop μ stuck step i s =
      (step i s).bind fun r =>
        match r.1 with
        | .inl i' => loop μ stuck step i' r.2
        | .inr a => .ok (a, r.2) := by
  rw [loop, loopFuel_succ]
  cases hs : step i s with
  | error e => rfl
  | ok r =>
      obtain ⟨next | a, s'⟩ := r
      · have hlt := hstep i s next s' hs
        exact loopFuel_mono hstep (by omega) (by omega)
      · rfl

/-! ### Languages of prefix readers -/

/-- The reader accepts exactly the prefixes `bs` with `L a bs`, returns `a` for
them and leaves the rest unread. -/
def Recognises (p : Reader (List β) ε α) (L : α → List β → Prop) : Prop :=
  ∀ s a rest, p s = .ok (a, rest) ↔ ∃ bs, s = bs ++ rest ∧ L a bs

/-- On input that starts with `bs` the reader returns `a` and leaves the rest. -/
def Reads (p : Reader (List β) ε α) (bs : List β) (a : α) : Prop :=
  ∀ rest, p (bs ++ rest) = .ok (a, rest)

namespace Recognises

variable {p : Reader (List β) ε α} {L L' : α → List β → Prop}

theorem reads (h : Recognises p L) {a : α} {bs : List β} (hL : L a bs) :
    Reads p bs a :=
  fun rest => (h (bs ++ rest) a rest).mpr ⟨bs, rfl, hL⟩

/-- A prefix reader accepts at most one prefix of an input. -/
theorem unique (h : Recognises p L) {a a' : α} {bs bs' rest rest' : List β}
    (hL : L a bs) (hL' : L a' bs') (heq : bs ++ rest = bs' ++ rest') :
    a = a' ∧ bs = bs' ∧ rest = rest' := by
  have h₁ := h.reads hL rest
  have h₂ := h.reads hL' rest'
  rw [heq, h₂] at h₁
  simp only [Except.ok.injEq, Prod.mk.injEq] at h₁
  obtain ⟨rfl, rfl⟩ := h₁
  exact ⟨rfl, List.append_cancel_right heq, rfl⟩

end Recognises

namespace Reads

variable {p : Reader (List β) ε α}

theorem pure (a : α) : Reads (pure a : Reader (List β) ε α) [] a :=
  fun _ => rfl

theorem bind {f : α → Reader (List β) ε γ} {xs ys : List β} {a : α} {c : γ}
    (h : Reads p xs a) (hf : Reads (f a) ys c) : Reads (p >>= f) (xs ++ ys) c := by
  intro rest
  rw [bind_apply, List.append_assoc, h (ys ++ rest)]
  exact hf rest

theorem fromExcept {x : Except ε α} {a : α} (h : x = .ok a) :
    Reads (PrefixReader.fromExcept x : Reader (List β) ε α) [] a := by
  intro rest
  rw [h]
  rfl

/-- The rule of `bind` for a first step that does not read. -/
theorem fromExcept_bind {x : Except ε α} {f : α → Reader (List β) ε γ} {ys : List β} {a : α}
    {c : γ} (h : x = .ok a) (hf : Reads (f a) ys c) : Reads (PrefixReader.fromExcept x >>= f) ys c :=
  bind (fromExcept h) hf

/-- The rule of `bind` for a last step that does not read. -/
theorem bind_pure {f : α → γ} {xs : List β} {a : α} (h : Reads p xs a) :
    Reads (p >>= fun a => Pure.pure (f a)) xs (f a) := by
  intro rest
  rw [bind_apply, h rest]
  rfl

end Reads

/-- What a loop over `step` accepts when every round accepts `T`. -/
inductive LoopLang (T : ι → ι ⊕ α → List β → Prop) : ι → α → List β → Prop
  | done {i : ι} {a : α} {bs : List β} (h : T i (.inr a) bs) : LoopLang T i a bs
  | more {i i' : ι} {a : α} {xs ys : List β} (h : T i (.inl i') xs)
      (rest : LoopLang T i' a ys) : LoopLang T i a (xs ++ ys)

theorem progress_of_recognises {step : ι → Reader (List β) ε (ι ⊕ α)}
    {T : ι → ι ⊕ α → List β → Prop} (hstep : ∀ i, Recognises (step i) (T i))
    (hne : ∀ i i' bs, T i (.inl i') bs → bs ≠ []) : Progress List.length step := by
  intro i s i' s' h
  obtain ⟨bs, rfl, hbs⟩ := (hstep i s _ s').mp h
  have hpos := List.length_pos_of_ne_nil (hne i i' bs hbs)
  simp only [List.length_append]
  omega

/-- A loop whose rounds are recognisers that consume input recognises the
iterated language. -/
theorem Recognises.loop {step : ι → Reader (List β) ε (ι ⊕ α)} {stuck : ε}
    {T : ι → ι ⊕ α → List β → Prop} (hstep : ∀ i, Recognises (step i) (T i))
    (hne : ∀ i i' bs, T i (.inl i') bs → bs ≠ []) (i : ι) :
    Recognises (PrefixReader.loop List.length stuck step i) (LoopLang T i) := by
  have hprog := progress_of_recognises hstep hne
  intro s a rest
  constructor
  · intro h
    induction hn : s.length using Nat.strongRecOn generalizing i s with
    | ind n ih =>
        rw [loop_unfold hprog] at h
        cases hs : step i s with
        | error e => simp [hs, Except.bind] at h
        | ok r =>
            obtain ⟨next | b, s'⟩ := r <;> simp only [hs, Except.bind] at h
            · obtain ⟨xs, rfl, hxs⟩ := (hstep i s _ s').mp hs
              have hlt := hprog i _ next s' hs
              obtain ⟨ys, rfl, hys⟩ := ih s'.length (by omega) next s' h rfl
              exact ⟨xs ++ ys, by simp, .more hxs hys⟩
            · simp only [Except.ok.injEq, Prod.mk.injEq] at h
              obtain ⟨rfl, rfl⟩ := h
              obtain ⟨bs, rfl, hbs⟩ := (hstep i s _ s').mp hs
              exact ⟨bs, rfl, .done hbs⟩
  · rintro ⟨bs, rfl, h⟩
    induction h with
    | done h =>
        rw [loop_unfold hprog, (hstep _).reads h rest]
        rfl
    | more h _ ih =>
        rw [loop_unfold hprog, List.append_assoc, (hstep _).reads h]
        exact ih

/-! ### Simulation between readers of different sources -/

section Simulation

variable {δ ι' : Type}

/-- Related outcomes: both fail alike, or both return related values in related
source states. -/
def OutcomeRel (R : σ → τ → Prop) (V : α → β → Prop) :
    Except ε (α × σ) → Except ε (β × τ) → Prop
  | .ok (a, s), .ok (b, t) => V a b ∧ R s t
  | .error e, .error e' => e = e'
  | _, _ => False

/-- From related sources the two readers have related outcomes. -/
def Simulates (R : σ → τ → Prop) (V : α → β → Prop) (p : Reader σ ε α)
    (q : Reader τ ε β) : Prop :=
  ∀ s t, R s t → OutcomeRel R V (p s) (q t)

namespace Simulates

variable {R : σ → τ → Prop} {V : α → β → Prop} {W : γ → δ → Prop}

theorem pure {a : α} {b : β} (h : V a b) :
    Simulates R V (pure a : Reader σ ε α) (pure b) :=
  fun _ _ hR => ⟨h, hR⟩

theorem throw (e : ε) : Simulates R V (throw e : Reader σ ε α) (throw e) :=
  fun _ _ _ => rfl

theorem throwIf (c : Prop) [Decidable c] (e : ε) :
    Simulates R Eq (throwIf c e : Reader σ ε Unit) (PrefixReader.throwIf c e) := by
  intro s t h
  by_cases hc : c
  · simp only [PrefixReader.throwIf, if_pos hc]
    exact Simulates.throw e s t h
  · simp only [PrefixReader.throwIf, if_neg hc]
    exact Simulates.pure rfl s t h

theorem bind {p : Reader σ ε α} {q : Reader τ ε β} {f : α → Reader σ ε γ}
    {g : β → Reader τ ε δ} (h : Simulates R V p q)
    (hf : ∀ a b, V a b → Simulates R W (f a) (g b)) :
    Simulates R W (p >>= f) (q >>= g) := by
  intro s t hR
  have hpq := h s t hR
  rw [bind_apply, bind_apply]
  cases hp : p s with
  | error e =>
      cases hq : q t with
      | error e' => simpa [hp, hq, OutcomeRel, Except.bind] using hpq
      | ok y => simp [hp, hq, OutcomeRel] at hpq
  | ok x =>
      cases hq : q t with
      | error e' => simp [hp, hq, OutcomeRel] at hpq
      | ok y =>
          simp only [hp, hq, OutcomeRel] at hpq
          obtain ⟨ha, hR'⟩ := hpq
          exact hf x.1 y.1 ha x.2 y.2 hR'

/-- The rule of `bind` for first steps that return equal values. -/
theorem bind_eq {p : Reader σ ε α} {q : Reader τ ε α} {f : α → Reader σ ε γ}
    {g : α → Reader τ ε δ} (h : Simulates R Eq p q)
    (hf : ∀ a, Simulates R W (f a) (g a)) : Simulates R W (p >>= f) (q >>= g) :=
  h.bind fun a _ hab => hab ▸ hf a

theorem loopFuel {I : ι → ι' → Prop} {stuck : ε} {step : ι → Reader σ ε (ι ⊕ α)}
    {step' : ι' → Reader τ ε (ι' ⊕ β)}
    (h : ∀ i i', I i i' → Simulates R (Sum.LiftRel I V) (step i) (step' i'))
    (fuel : Nat) {i : ι} {i' : ι'} (hi : I i i') :
    Simulates R V (PrefixReader.loopFuel stuck step fuel i)
      (PrefixReader.loopFuel stuck step' fuel i') := by
  induction fuel generalizing i i' with
  | zero => exact Simulates.throw stuck
  | succ fuel ih =>
      refine (h i i' hi).bind fun r r' hr => ?_
      cases hr with
      | inl hI => exact ih hI
      | inr hV => exact Simulates.pure hV

theorem loop {I : ι → ι' → Prop} {μ : σ → Nat} {μ' : τ → Nat} {stuck : ε}
    {step : ι → Reader σ ε (ι ⊕ α)} {step' : ι' → Reader τ ε (ι' ⊕ β)}
    (h : ∀ i i', I i i' → Simulates R (Sum.LiftRel I V) (step i) (step' i'))
    (hμ : ∀ s t, R s t → μ s = μ' t) {i : ι} {i' : ι'} (hi : I i i') :
    Simulates R V (PrefixReader.loop μ stuck step i)
      (PrefixReader.loop μ' stuck step' i') := by
  intro s t hR
  simp only [PrefixReader.loop, hμ s t hR]
  exact loopFuel h _ hi s t hR

end Simulates

end Simulation

end Nix.Lib.PrefixReader
