import Mathlib.Data.List.Basic

/-!
Plain recursion that notes down its questions, recursion with a cache, and relations between
computations in two monads.
-/

namespace Nix.Lib.Memo

variable {ε κ σ : Type}

/-! ### Relations between computations -/

/-- A relation between the computations of two monads that goes along with their operations. -/
structure Compatible (ε : Type) (m n : Type → Type) [Monad m] [Monad n] [MonadLift (Except ε) m]
    [MonadLift (Except ε) n] (R : ∀ {α : Type}, m α → n α → Prop) : Prop where
  pure : ∀ {α : Type} (a : α), R (Pure.pure a : m α) (Pure.pure a)
  bind : ∀ {α β : Type} {x : m α} {y : n α} {f : α → m β} {g : α → n β}, R x y →
    (∀ a, R (f a) (g a)) → R (x >>= f) (y >>= g)
  lift : ∀ {α : Type} (x : Except ε α), R (monadLift x : m α) (monadLift x)

/-! ### Plain recursion -/

/-- The result, with what was asked for it. There is none if the recursion is too deep. -/
def Noted (κ ε α : Type) : Type :=
  Option (Except ε (α × List κ))

namespace Noted

variable {α β : Type}

def returned (a : α) (asked : List κ) : Noted κ ε α :=
  some (.ok (a, asked))

def failed (e : ε) : Noted κ ε α :=
  some (.error e)

def diverges : Noted κ ε α :=
  none

/-- Note down a question. -/
def note (k : κ) : Noted κ ε Unit :=
  returned () [k]

/-- What was asked before comes first. -/
def prepend (asked : List κ) : Noted κ ε α → Noted κ ε α
  | none => none
  | some (.error e) => some (.error e)
  | some (.ok (a, asked')) => some (.ok (a, asked ++ asked'))

protected def bind (x : Noted κ ε α) (f : α → Noted κ ε β) : Noted κ ε β :=
  match x with
  | none => none
  | some (.error e) => some (.error e)
  | some (.ok (a, asked)) => (f a).prepend asked

instance : Monad (Noted κ ε) where
  pure a := returned a []
  bind := Noted.bind

instance : MonadLift (Except ε) (Noted κ ε) where
  monadLift
    | .ok a => returned a []
    | .error e => failed e

/-- The result alone. -/
def value (x : Noted κ ε α) : Option (Except ε α) :=
  Option.map (Except.map Prod.fst) x

theorem pure_eq (a : α) : (pure a : Noted κ ε α) = returned a [] := rfl

theorem lift_ok (a : α) : (monadLift (.ok a : Except ε α) : Noted κ ε α) = returned a [] := rfl

theorem lift_error (e : ε) : (monadLift (.error e : Except ε α) : Noted κ ε α) = failed e := rfl

theorem returned_bind (a : α) (asked : List κ) (f : α → Noted κ ε β) :
    (returned a asked >>= f) = (f a).prepend asked := rfl

@[simp] theorem prepend_nil (x : Noted κ ε α) : x.prepend [] = x := by
  match x with
  | none => rfl
  | some (.error e) => rfl
  | some (.ok (a, asked)) => rfl

theorem prepend_eq_diverges {asked : List κ} {x : Noted κ ε α} :
    x.prepend asked = diverges ↔ x = diverges := by
  match x with
  | none => exact Iff.rfl
  | some (.error e) => exact ⟨fun h => (nomatch h), fun h => (nomatch h)⟩
  | some (.ok (a, asked')) => exact ⟨fun h => (nomatch h), fun h => (nomatch h)⟩

theorem pure_bind (a : α) (f : α → Noted κ ε β) : (pure a >>= f : Noted κ ε β) = f a :=
  prepend_nil _

theorem lift_ok_bind (a : α) (f : α → Noted κ ε β) :
    ((monadLift (.ok a : Except ε α) : Noted κ ε α) >>= f) = f a :=
  prepend_nil _

theorem lift_eq_returned {x : Except ε α} {a : α} {asked : List κ}
    (h : (monadLift x : Noted κ ε α) = returned a asked) : x = .ok a := by
  cases x with
  | error e => cases h
  | ok b =>
      cases h
      rfl

theorem lift_bind (x : Except ε α) (f : α → Except ε β) :
    (monadLift (x >>= f) : Noted κ ε β) =
      (monadLift x : Noted κ ε α) >>= fun a => monadLift (f a) := by
  cases x with
  | error e => rfl
  | ok a => exact (prepend_nil _).symm

/-- A result comes from a result, and from what is asked after it. -/
theorem bind_eq_returned {x : Noted κ ε α} {f : α → Noted κ ε β} {b : β} {asked : List κ}
    (h : (x >>= f) = returned b asked) :
    ∃ a before after, x = returned a before ∧ f a = returned b after ∧ asked = before ++ after := by
  match x with
  | none => cases h
  | some (.error e) => cases h
  | some (.ok (a, before)) =>
      have h : (f a).prepend before = returned b asked := h
      match hf : f a with
      | none =>
          rw [hf] at h
          cases h
      | some (.error e) =>
          rw [hf] at h
          cases h
      | some (.ok (b', after)) =>
          rw [hf] at h
          cases h
          exact ⟨a, before, after, rfl, hf, rfl⟩

/-- The results are the same, or the first recursion is too deep. -/
def Below (x y : Noted κ ε α) : Prop :=
  x = diverges ∨ x = y

theorem compatible_below : Compatible ε (Noted κ ε) (Noted κ ε) Below where
  pure _ := .inr rfl
  lift _ := .inr rfl
  bind := by
    intro α β x y f g hx hf
    rcases hx with rfl | rfl
    · exact .inl rfl
    · match x with
      | none => exact .inl rfl
      | some (.error e) => exact .inr rfl
      | some (.ok (a, asked)) =>
          rcases hf a with ha | ha
          · exact .inl (prepend_eq_diverges.mpr ha)
          · exact .inr (congrArg (prepend asked) ha)

theorem Below.of_ne {x y : Noted κ ε α} (h : Below x y) (hx : x ≠ diverges) : x = y :=
  h.resolve_left hx

/-- The recursion has a result. -/
def Ends (x : Noted κ ε α) : Prop :=
  x ≠ diverges

theorem compatible_ends :
    Compatible ε (Noted κ ε) (Noted κ ε) fun x y => x = y ∧ Ends x where
  pure _ := ⟨rfl, fun h => nomatch h⟩
  lift := by
    intro α x
    refine ⟨rfl, ?_⟩
    cases x with
    | ok a => exact fun h => nomatch h
    | error e => exact fun h => nomatch h
  bind := by
    rintro α β x y f g ⟨rfl, hx⟩ hf
    obtain rfl : f = g := funext fun a => (hf a).1
    refine ⟨rfl, ?_⟩
    match x with
    | none => exact absurd rfl hx
    | some (.error e) => exact fun h => nomatch h
    | some (.ok (a, asked)) => exact fun h => (hf a).2 (prepend_eq_diverges.mp h)

theorem ends_bind {x : Noted κ ε α} {f : α → Noted κ ε β} (hx : x.Ends) (hf : ∀ a, (f a).Ends) :
    (x >>= f).Ends :=
  (compatible_ends.bind ⟨rfl, hx⟩ fun a => ⟨rfl, hf a⟩).2

theorem ends_pure (a : α) : (pure a : Noted κ ε α).Ends := fun h => nomatch h

theorem ends_lift (x : Except ε α) : (monadLift x : Noted κ ε α).Ends :=
  (compatible_ends.lift x).2

end Noted

/-! ### Recursion with a cache -/

/-- A recursion that may be too deep, and that may fail. -/
def Cached (σ ε α : Type) : Type :=
  σ → Option (Except ε (α × σ))

namespace Cached

variable {α β : Type}

protected def bind (x : Cached σ ε α) (f : α → Cached σ ε β) : Cached σ ε β := fun s =>
  match x s with
  | none => none
  | some (.error e) => some (.error e)
  | some (.ok (a, s')) => f a s'

instance : Monad (Cached σ ε) where
  pure a := fun s => some (.ok (a, s))
  bind := Cached.bind

instance : MonadLift (Except ε) (Cached σ ε) where
  monadLift x := fun s => some (x.map fun a => (a, s))

def diverges : Cached σ ε α := fun _ => none

def read : Cached σ ε σ := fun s => some (.ok (s, s))

def modify (f : σ → σ) : Cached σ ε Unit := fun s => some (.ok ((), f s))

/-- The result of a run from an empty cache. -/
def run (x : Cached σ ε α) (empty : σ) : Option (Except ε α) :=
  (x empty).map (Except.map Prod.fst)

section

variable (Right : σ → Prop) (known : σ → κ → Prop)

/-- From a cache that is right, the recursion gives what the plain one gives, and then the cache
is right and knows what was asked. -/
def Computes (x : Cached σ ε α) (y : Noted κ ε α) : Prop :=
  ∀ s, Right s →
    match y with
    | none => True
    | some (.error e) => x s = some (.error e)
    | some (.ok (a, asked)) => ∃ s', x s = some (.ok (a, s')) ∧ Right s' ∧
        ∀ k, known s' k ↔ known s k ∨ k ∈ asked

variable {Right known}

theorem computes_diverges (x : Cached σ ε α) : Computes Right known x .diverges :=
  fun _ _ => trivial

theorem compatible_computes :
    Compatible ε (Cached σ ε) (Noted κ ε) (Computes Right known) where
  pure a := fun s hs => ⟨s, rfl, hs, fun k => by simp⟩
  lift := by
    intro α x s hs
    cases x with
    | ok a => exact ⟨s, rfl, hs, fun k => by simp⟩
    | error e => rfl
  bind := by
    intro α β x y f g hx hf s hs
    have hxs := hx s hs
    match y with
    | none => trivial
    | some (.error e) =>
        show Cached.bind x f s = _
        rw [Cached.bind, show x s = some (.error e) from hxs]
    | some (.ok (a, asked)) =>
        obtain ⟨s', heq, hs', hknown⟩ := hxs
        have hrun : (x >>= f) s = f a s' := by
          show Cached.bind x f s = _
          rw [Cached.bind, heq]
        have hfa := hf a s' hs'
        show match (g a).prepend asked with
          | none => True
          | some (.error e) => (x >>= f) s = some (.error e)
          | some (.ok (b, asked)) => ∃ s', (x >>= f) s = some (.ok (b, s')) ∧ Right s' ∧
              ∀ k, known s' k ↔ known s k ∨ k ∈ asked
        rw [hrun]
        match hg : g a with
        | none => trivial
        | some (.error e) =>
            rw [hg] at hfa
            exact hfa
        | some (.ok (b, asked')) =>
            rw [hg] at hfa
            obtain ⟨s'', heq', hs'', hknown'⟩ := hfa
            refine ⟨s'', heq', hs'', fun k => ?_⟩
            rw [hknown', hknown, List.mem_append, or_assoc]

/-- A run from a cache that is right and knows nothing. -/
theorem Computes.run_eq {x : Cached σ ε α} {y : Noted κ ε α} (h : Computes Right known x y)
    {empty : σ} (hempty : Right empty) (hy : y.Ends) : x.run empty = y.value := by
  have hs := h empty hempty
  match y with
  | none => exact absurd rfl hy
  | some (.error e) => exact congrArg (Option.map (Except.map Prod.fst)) hs
  | some (.ok (a, asked)) =>
      obtain ⟨s', heq, -⟩ := hs
      exact congrArg (Option.map (Except.map Prod.fst)) heq

end

end Cached

end Nix.Lib.Memo
