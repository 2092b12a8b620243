import Mathlib.Data.List.Basic
import Nix.Lib.Transitions

/-!
Programs that read and write streams, and two of them that talk to each other.
-/

namespace Nix.Lib.Channels

open Lib.Transitions

variable {β ε α γ δ ζ : Type}

/-! ### Programs -/

inductive Program (β ε α : Type)
  | done (result : α)
  | fail (error : ε)
  | put (b : β) (next : Program β ε α)
  | get (next : β → Program β ε α)

namespace Program

def bind : Program β ε α → (α → Program β ε γ) → Program β ε γ
  | .done a, f => f a
  | .fail e, _ => .fail e
  | .put b next, f => .put b (next.bind f)
  | .get next, f => .get fun b => (next b).bind f

instance : Monad (Program β ε) where
  pure := .done
  bind := bind

def failIf (c : Prop) [Decidable c] (e : ε) : Program β ε Unit :=
  if c then .fail e else .done ()

def onlyIf (c : Bool) (p : Program β ε Unit) : Program β ε Unit :=
  if c then p else .done ()

def write : List β → Program β ε Unit
  | [] => .done ()
  | b :: bs => .put b (write bs)

def read : Nat → Program β ε (List β)
  | 0 => .done []
  | n + 1 => .get fun b => (read n).bind fun bs => .done (b :: bs)

/-- The program returns `a` when it has read `ins` and written `outs`. -/
def Returns : Program β ε α → List β → List β → α → Prop
  | .done a', ins, outs, a => ins = [] ∧ outs = [] ∧ a' = a
  | .fail _, _, _, _ => False
  | .put b next, ins, outs, a => ∃ outs', outs = b :: outs' ∧ next.Returns ins outs' a
  | .get next, ins, outs, a => ∃ b ins', ins = b :: ins' ∧ (next b).Returns ins' outs a

/-- The program writes nothing, and returns `a` on exactly the inputs that `L` has for it. -/
def Reads (p : Program β ε α) (L : α → List β → Prop) : Prop :=
  ∀ ins outs a, p.Returns ins outs a ↔ outs = [] ∧ L a ins

variable {p : Program β ε α} {f : α → Program β ε γ} {ins outs : List β}

@[simp] theorem returns_pure {a a' : α} :
    (pure a' : Program β ε α).Returns ins outs a ↔ ins = [] ∧ outs = [] ∧ a' = a := Iff.rfl

@[simp] theorem returns_fail {e : ε} {a : α} :
    (fail e : Program β ε α).Returns ins outs a ↔ False := Iff.rfl

theorem returns_bind {c : γ} : (p >>= f).Returns ins outs c ↔
    ∃ a ins₁ ins₂ outs₁ outs₂, ins = ins₁ ++ ins₂ ∧ outs = outs₁ ++ outs₂ ∧
      p.Returns ins₁ outs₁ a ∧ (f a).Returns ins₂ outs₂ c := by
  change (p.bind f).Returns ins outs c ↔ _
  induction p generalizing ins outs with
  | done a =>
      constructor
      · intro h
        exact ⟨a, [], ins, [], outs, rfl, rfl, ⟨rfl, rfl, rfl⟩, h⟩
      · rintro ⟨_, _, ins₂, _, outs₂, rfl, rfl, ⟨rfl, rfl, rfl⟩, h⟩
        exact h
  | fail e =>
      constructor
      · exact False.elim
      · rintro ⟨_, _, _, _, _, _, _, h, _⟩
        exact h
  | put b next ih =>
      constructor
      · rintro ⟨outs', rfl, h⟩
        obtain ⟨a, ins₁, ins₂, outs₁, outs₂, rfl, rfl, hp, hf⟩ := ih.mp h
        exact ⟨a, ins₁, ins₂, b :: outs₁, outs₂, rfl, rfl, ⟨outs₁, rfl, hp⟩, hf⟩
      · rintro ⟨a, ins₁, ins₂, _, outs₂, rfl, rfl, ⟨outs₁, rfl, hp⟩, hf⟩
        exact ⟨outs₁ ++ outs₂, rfl, ih.mpr ⟨a, ins₁, ins₂, outs₁, outs₂, rfl, rfl, hp, hf⟩⟩
  | get next ih =>
      constructor
      · rintro ⟨b, ins', rfl, h⟩
        obtain ⟨a, ins₁, ins₂, outs₁, outs₂, rfl, rfl, hp, hf⟩ := (ih b).mp h
        exact ⟨a, b :: ins₁, ins₂, outs₁, outs₂, rfl, rfl, ⟨b, ins₁, rfl, hp⟩, hf⟩
      · rintro ⟨a, _, ins₂, outs₁, outs₂, rfl, rfl, ⟨b, ins₁, rfl, hp⟩, hf⟩
        exact ⟨b, ins₁ ++ ins₂, rfl,
          (ih b).mpr ⟨a, ins₁, ins₂, outs₁, outs₂, rfl, rfl, hp, hf⟩⟩

/-- A program that writes first. -/
theorem returns_write_bind {bs : List β} {f : Unit → Program β ε γ} {c : γ} :
    (write bs >>= f).Returns ins outs c ↔
      ∃ outs', outs = bs ++ outs' ∧ (f ()).Returns ins outs' c := by
  change ((write bs).bind f).Returns ins outs c ↔ _
  induction bs generalizing outs with
  | nil =>
      constructor
      · exact fun h => ⟨outs, rfl, h⟩
      · rintro ⟨_, rfl, h⟩
        exact h
  | cons b bs ih =>
      constructor
      · rintro ⟨outs', rfl, h⟩
        obtain ⟨outs'', rfl, hf⟩ := ih.mp h
        exact ⟨outs'', rfl, hf⟩
      · rintro ⟨outs', rfl, h⟩
        exact ⟨bs ++ outs', rfl, ih.mpr ⟨outs', rfl, h⟩⟩

theorem returns_write {bs : List β} {u : Unit} :
    (write bs : Program β ε Unit).Returns ins outs u ↔ ins = [] ∧ outs = bs := by
  induction bs generalizing outs with
  | nil => exact ⟨fun h => ⟨h.1, h.2.1⟩, fun h => ⟨h.1, h.2, rfl⟩⟩
  | cons b bs ih =>
      constructor
      · rintro ⟨outs', rfl, h⟩
        obtain ⟨rfl, rfl⟩ := ih.mp h
        exact ⟨rfl, rfl⟩
      · rintro ⟨rfl, rfl⟩
        exact ⟨bs, rfl, ih.mpr ⟨rfl, rfl⟩⟩

theorem returns_failIf_bind {c : Prop} [Decidable c] {e : ε} {f : Unit → Program β ε γ} {x : γ} :
    (failIf c e >>= f).Returns ins outs x ↔ ¬c ∧ (f ()).Returns ins outs x := by
  rw [failIf]
  split
  next hc => exact ⟨False.elim, fun h => h.1 hc⟩
  next hc => exact ⟨fun h => ⟨hc, h⟩, fun h => h.2⟩

theorem Reads.congr {L L' : α → List β → Prop} (h : p.Reads L) (hL : ∀ a bs, L a bs ↔ L' a bs) :
    p.Reads L' :=
  fun ins outs a => (h ins outs a).trans (and_congr_right fun _ => hL a ins)

theorem Reads.bind {L : α → List β → Prop} {M : α → γ → List β → Prop} (h : p.Reads L)
    (hf : ∀ a, (f a).Reads (M a)) :
    (p >>= f).Reads fun c bs => ∃ a xs ys, bs = xs ++ ys ∧ L a xs ∧ M a c ys := by
  intro ins outs c
  rw [returns_bind]
  constructor
  · rintro ⟨a, ins₁, ins₂, outs₁, outs₂, rfl, rfl, hp, hf'⟩
    obtain ⟨rfl, hL⟩ := (h _ _ _).mp hp
    obtain ⟨rfl, hM⟩ := (hf a _ _ _).mp hf'
    exact ⟨rfl, a, ins₁, ins₂, rfl, hL, hM⟩
  · rintro ⟨rfl, a, ins₁, ins₂, rfl, hp, hf'⟩
    exact ⟨a, ins₁, ins₂, [], [], rfl, rfl, (h _ _ _).mpr ⟨rfl, hp⟩, (hf a _ _ _).mpr ⟨rfl, hf'⟩⟩

/-- A program that reads first. -/
theorem Reads.returns_bind {L : α → List β → Prop} (h : p.Reads L) {c : γ} :
    (p >>= f).Returns ins outs c ↔
      ∃ a xs ys, ins = xs ++ ys ∧ L a xs ∧ (f a).Returns ys outs c := by
  rw [Program.returns_bind]
  constructor
  · rintro ⟨a, ins₁, ins₂, outs₁, outs₂, rfl, rfl, hp, hf⟩
    obtain ⟨rfl, hL⟩ := (h _ _ _).mp hp
    exact ⟨a, ins₁, ins₂, rfl, hL, hf⟩
  · rintro ⟨a, ins₁, ins₂, rfl, hp, hf⟩
    exact ⟨a, ins₁, ins₂, [], outs, rfl, rfl, (h _ _ _).mpr ⟨rfl, hp⟩, hf⟩

theorem reads_pure (a : α) : (pure a : Program β ε α).Reads fun a' bs => bs = [] ∧ a' = a := by
  intro ins outs a'
  rw [returns_pure, and_left_comm, eq_comm (a := a)]

theorem reads_read (n : Nat) :
    (read n : Program β ε (List β)).Reads fun a bs => bs = a ∧ a.length = n := by
  induction n with
  | zero =>
      intro ins outs a
      constructor
      · rintro ⟨rfl, rfl, rfl⟩
        exact ⟨rfl, rfl, rfl⟩
      · rintro ⟨rfl, rfl, hlen⟩
        rw [List.length_eq_zero_iff.mp hlen]
        exact ⟨rfl, rfl, rfl⟩
  | succ n ih =>
      intro ins outs a
      have hnext : ∀ b, ((read n : Program β ε (List β)) >>= fun bs => pure (b :: bs)).Reads _ :=
        fun b => ih.bind fun bs => reads_pure (b :: bs)
      constructor
      · rintro ⟨b, ins', rfl, h⟩
        obtain ⟨rfl, bs, xs, ys, rfl, ⟨rfl, hlen⟩, rfl, rfl⟩ := (hnext b _ _ _).mp h
        exact ⟨rfl, by rw [List.append_nil], by rw [List.length_cons, hlen]⟩
      · rintro ⟨rfl, rfl, hlen⟩
        obtain ⟨b, bs, rfl⟩ := List.exists_cons_of_length_eq_add_one hlen
        exact ⟨b, bs, rfl, (hnext b _ _ _).mpr
          ⟨rfl, bs, bs, [], (List.append_nil _).symm, ⟨rfl, Nat.succ.inj hlen⟩, rfl, rfl⟩⟩

/-! ### Programs in step -/

/-- When both programs return, and neither has read what the other one has not sent, both have
read all that the other one has sent. -/
def InStep (p : Program β ε α) (q : Program β ε γ) (R : α → γ → Prop) : Prop :=
  ∀ ins outs ins' outs' rest rest' sent sent' a c,
    p.Returns ins outs a → q.Returns ins' outs' c →
    ins ++ rest = outs' ++ sent → ins' ++ rest' = outs ++ sent' →
    ins = outs' ∧ ins' = outs ∧ R a c

theorem InStep.pure {R : α → γ → Prop} {a : α} {c : γ} (h : R a c) :
    InStep (pure a : Program β ε α) (pure c) R := by
  rintro _ _ _ _ _ _ _ _ _ _ ⟨rfl, rfl, rfl⟩ ⟨rfl, rfl, rfl⟩ - -
  exact ⟨rfl, rfl, h⟩

theorem InStep.bind {q : Program β ε γ} {f : α → Program β ε δ} {g : γ → Program β ε ζ}
    {R : α → γ → Prop} {S : δ → ζ → Prop} (h : InStep p q R)
    (hfg : ∀ a c, R a c → InStep (f a) (g c) S) : InStep (p >>= f) (q >>= g) S := by
  intro ins outs ins' outs' rest rest' sent sent' d z hp hq hsent hsent'
  obtain ⟨a, ins₁, ins₂, outs₁, outs₂, rfl, rfl, hp, hf⟩ := returns_bind.mp hp
  obtain ⟨c, ins₁', ins₂', outs₁', outs₂', rfl, rfl, hq, hg⟩ := returns_bind.mp hq
  simp only [List.append_assoc] at hsent hsent'
  obtain ⟨rfl, rfl, hR⟩ := h _ _ _ _ _ _ _ _ a c hp hq hsent hsent'
  obtain ⟨rfl, rfl, hS⟩ := hfg a c hR _ _ _ _ _ _ _ _ d z hf hg
    (List.append_cancel_left hsent) (List.append_cancel_left hsent')
  exact ⟨rfl, rfl, hS⟩

/-- One program writes what the other one reads. -/
theorem inStep_write {q : Program β ε γ} {bs : List β} {L : γ → List β → Prop} (hq : q.Reads L)
    (hL : ∀ c bs' r r', L c bs' → bs' ++ r = bs ++ r' → bs' = bs) :
    InStep (write bs) q fun _ c => L c bs := by
  intro ins outs ins' outs' rest rest' sent sent' u c hp hq' _ hsent'
  obtain ⟨rfl, rfl⟩ := returns_write.mp hp
  obtain ⟨rfl, hc⟩ := (hq _ _ _).mp hq'
  obtain rfl := hL c ins' rest' sent' hc hsent'
  exact ⟨rfl, rfl, hc⟩

theorem InStep.symm {q : Program β ε γ} {R : α → γ → Prop} (h : InStep p q R) :
    InStep q p fun c a => R a c := by
  intro ins outs ins' outs' rest rest' sent sent' c a hq hp hsent hsent'
  obtain ⟨hins, hins', hR⟩ := h _ _ _ _ _ _ _ _ a c hp hq hsent' hsent
  exact ⟨hins', hins, hR⟩

theorem InStep.mono {q : Program β ε γ} {R S : α → γ → Prop} (h : InStep p q R)
    (hRS : ∀ a c, R a c → S a c) : InStep p q S := by
  intro ins outs ins' outs' rest rest' sent sent' a c hp hq hsent hsent'
  obtain ⟨hins, hins', hR⟩ := h _ _ _ _ _ _ _ _ a c hp hq hsent hsent'
  exact ⟨hins, hins', hRS a c hR⟩

theorem InStep.bind_pure {q : Program β ε γ} {f : γ → δ} {R : α → γ → Prop} {S : α → δ → Prop}
    (h : InStep p q R) (hS : ∀ a c, R a c → S a (f c)) :
    InStep p (q >>= fun c => Pure.pure (f c)) S := by
  intro ins outs ins' outs' rest rest' sent sent' a d hp hq hsent hsent'
  obtain ⟨c, ins₁, _, outs₁, _, rfl, rfl, hc, rfl, rfl, rfl⟩ := returns_bind.mp hq
  rw [List.append_nil] at hsent hsent' ⊢
  rw [List.append_nil]
  obtain ⟨hins, hins', hR⟩ := h _ _ _ _ _ _ _ _ a c hp hc hsent hsent'
  exact ⟨hins, hins', hS a c hR⟩

theorem InStep.onlyIf {p q : Program β ε Unit} (c : Bool) (h : InStep p q fun _ _ => True) :
    InStep (onlyIf c p) (onlyIf c q) fun _ _ => True := by
  cases c with
  | true => exact h
  | false => exact InStep.pure trivial

/-! ### Runs -/

/-- The program has become another one when it has read `ins` and written `outs`. -/
inductive Passes (p : Program β ε α) : List β → List β → Program β ε α → Prop
  | refl : Passes p [] [] p
  | put {ins outs : List β} {b : β} {next : Program β ε α}
      (h : Passes p ins outs (.put b next)) : Passes p ins (outs ++ [b]) next
  | get {ins outs : List β} {next : β → Program β ε α} (b : β)
      (h : Passes p ins outs (.get next)) : Passes p (ins ++ [b]) outs (next b)

theorem Passes.returns_append {q : Program β ε α} {ins' outs' : List β} {a : α}
    (h : p.Passes ins outs q) (hq : q.Returns ins' outs' a) :
    p.Returns (ins ++ ins') (outs ++ outs') a := by
  induction h generalizing ins' outs' with
  | refl => exact hq
  | put _ ih =>
      rw [List.append_assoc]
      exact ih ⟨outs', rfl, hq⟩
  | get b _ ih =>
      rw [List.append_assoc]
      exact ih ⟨b, ins', rfl, hq⟩

theorem Passes.returns {a : α} (h : p.Passes ins outs (.done a)) : p.Returns ins outs a := by
  simpa using h.returns_append ⟨rfl, rfl, rfl⟩

/-- What the program does next with what has arrived, and what it sends. -/
def step : Program β ε α → List β → Option (Program β ε α × List β × List β)
  | .put b next, arrived => some (next, arrived, [b])
  | .get next, b :: arrived => some (next b, arrived, [])
  | _, _ => none

theorem Passes.step {q q' : Program β ε α} {arrived arrived' sent : List β}
    (h : p.Passes ins outs q) (hstep : q.step arrived = some (q', arrived', sent)) :
    ∃ read, arrived = read ++ arrived' ∧ p.Passes (ins ++ read) (outs ++ sent) q' := by
  cases q with
  | put b next =>
      cases hstep
      rw [← List.append_nil ins] at h
      exact ⟨[], rfl, h.put⟩
  | get next =>
      cases arrived with
      | nil => cases hstep
      | cons b arrived =>
          cases hstep
          rw [← List.append_nil outs] at h
          exact ⟨[b], rfl, h.get b⟩
  | done a => cases hstep
  | fail e => cases hstep

end Program

/-! ### Two parties -/

/-- A party runs a program, and then another one that depends on its result. -/
inductive Party (β ε α γ : Type)
  | first (p : Program β ε α)
  | second (result : α) (p : Program β ε γ)

namespace Party

/-- The result of the first program, if it has returned. -/
def returned : Party β ε α γ → Option α
  | .first (.done a) => some a
  | .first _ => none
  | .second a _ => some a

/-- The results of both programs, if they have returned. -/
def finished : Party β ε α γ → Option (α × γ)
  | .second a (.done c) => some (a, c)
  | _ => none

def step (k : α → Program β ε γ) (party : Party β ε α γ) (arrived : List β) :
    Option (Party β ε α γ × List β × List β) :=
  match party with
  | .first (.done a) => some (.second a (k a), arrived, [])
  | .first p => (p.step arrived).map fun (p, arrived, sent) => (.first p, arrived, sent)
  | .second a p => (p.step arrived).map fun (p, arrived, sent) => (.second a p, arrived, sent)

/-- What a party has read and written so far. -/
def Did (p : Program β ε α) (k : α → Program β ε γ) (ins outs : List β) : Party β ε α γ → Prop
  | .first q => p.Passes ins outs q
  | .second a q => ∃ ins₁ ins₂ outs₁ outs₂, ins = ins₁ ++ ins₂ ∧ outs = outs₁ ++ outs₂ ∧
      p.Returns ins₁ outs₁ a ∧ (k a).Passes ins₂ outs₂ q

variable {p : Program β ε α} {k : α → Program β ε γ} {party party' : Party β ε α γ}
  {ins outs : List β}

theorem Did.returned {a : α} (h : party.Did p k ins outs) (ha : party.returned = some a) :
    ∃ ins₁ ins₂ outs₁ outs₂, ins = ins₁ ++ ins₂ ∧ outs = outs₁ ++ outs₂ ∧
      p.Returns ins₁ outs₁ a := by
  match party, ha with
  | .first (.done _), rfl =>
      exact ⟨ins, [], outs, [], (List.append_nil _).symm, (List.append_nil _).symm,
        Program.Passes.returns h⟩
  | .second _ _, rfl =>
      obtain ⟨ins₁, ins₂, outs₁, outs₂, hins, houts, hreturns, -⟩ := h
      exact ⟨ins₁, ins₂, outs₁, outs₂, hins, houts, hreturns⟩

theorem Did.finished {a : α} {c : γ} (h : party.Did p k ins outs)
    (hc : party.finished = some (a, c)) :
    ∃ ins₁ ins₂ outs₁ outs₂, ins = ins₁ ++ ins₂ ∧ outs = outs₁ ++ outs₂ ∧
      p.Returns ins₁ outs₁ a ∧ (k a).Returns ins₂ outs₂ c := by
  match party, hc with
  | .second _ (.done _), rfl =>
      obtain ⟨ins₁, ins₂, outs₁, outs₂, hins, houts, hreturns, hpasses⟩ := h
      exact ⟨ins₁, ins₂, outs₁, outs₂, hins, houts, hreturns, hpasses.returns⟩

theorem Did.first {q : Program β ε α} {arrived arrived' sent : List β}
    (h : p.Passes ins outs q)
    (hstep : (q.step arrived).map (fun (q, arrived, sent) =>
      ((Party.first q : Party β ε α γ), arrived, sent)) = some (party', arrived', sent)) :
    ∃ read, arrived = read ++ arrived' ∧ party'.Did p k (ins ++ read) (outs ++ sent) := by
  obtain ⟨⟨q', arrived', sent⟩, hq, heq⟩ := Option.map_eq_some_iff.mp hstep
  cases heq
  exact h.step hq

/-- A step of a party reads some of what has arrived. -/
theorem Did.step {arrived arrived' sent : List β} (h : party.Did p k ins outs)
    (hstep : party.step k arrived = some (party', arrived', sent)) :
    ∃ read, arrived = read ++ arrived' ∧ party'.Did p k (ins ++ read) (outs ++ sent) := by
  match party with
  | .first (.done a) =>
      cases hstep
      refine ⟨[], rfl, ins, [], outs, [], rfl, rfl, Program.Passes.returns h, .refl⟩
  | .first (.fail _) => exact Did.first h hstep
  | .first (.put _ _) => exact Did.first h hstep
  | .first (.get _) => exact Did.first h hstep
  | .second a q =>
      obtain ⟨ins₁, ins₂, outs₁, outs₂, rfl, rfl, hreturns, hpasses⟩ := h
      obtain ⟨⟨q', arrived', sent⟩, hq, heq⟩ := Option.map_eq_some_iff.mp hstep
      cases heq
      obtain ⟨read, rfl, hpasses⟩ := hpasses.step hq
      exact ⟨read, rfl, ins₁, ins₂ ++ read, outs₁, outs₂ ++ sent, List.append_assoc _ _ _,
        List.append_assoc _ _ _, hreturns, hpasses⟩

end Party

/-- Two parties, and what is on its way between them. -/
structure Connection (β ε α γ δ : Type) where
  client : Party β ε α γ
  server : Party β ε α δ
  toServer : List β := []
  toClient : List β := []

inductive Side
  | client
  | server
  deriving DecidableEq

section Connection

variable (pc ps : Program β ε α) (kc : α → Program β ε γ) (ks : α → Program β ε δ)

def start : Connection β ε α γ δ where
  client := .first pc
  server := .first ps

def step (s : Connection β ε α γ δ) : Side → Option (Connection β ε α γ δ)
  | .client => (s.client.step kc s.toClient).map fun (client, toClient, sent) =>
      { s with client, toClient, toServer := s.toServer ++ sent }
  | .server => (s.server.step ks s.toServer).map fun (server, toServer, sent) =>
      { s with server, toServer, toClient := s.toClient ++ sent }

/-- What one party has sent is what the other one has read, and what is on its way. -/
def InTransit (s : Connection β ε α γ δ) : Prop :=
  ∃ ins outs ins' outs', s.client.Did pc kc ins outs ∧ s.server.Did ps ks ins' outs' ∧
    outs = ins' ++ s.toServer ∧ outs' = ins ++ s.toClient

variable {pc ps kc ks}

theorem InTransit.step {s s' : Connection β ε α γ δ} {side : Side} (h : InTransit pc ps kc ks s)
    (hstep : step kc ks s side = some s') : InTransit pc ps kc ks s' := by
  obtain ⟨ins, outs, ins', outs', hclient, hserver, houts, houts'⟩ := h
  cases side with
  | client =>
      obtain ⟨⟨client, toClient, sent⟩, hparty, rfl⟩ := Option.map_eq_some_iff.mp hstep
      obtain ⟨read, hread, hclient⟩ := hclient.step hparty
      refine ⟨ins ++ read, outs ++ sent, ins', outs', hclient, hserver, ?_, ?_⟩
      · rw [houts, List.append_assoc]
      · rw [houts', hread, List.append_assoc]
  | server =>
      obtain ⟨⟨server, toServer, sent⟩, hparty, rfl⟩ := Option.map_eq_some_iff.mp hstep
      obtain ⟨read, hread, hserver⟩ := hserver.step hparty
      refine ⟨ins, outs, ins' ++ read, outs' ++ sent, hclient, hserver, ?_, ?_⟩
      · rw [houts, hread, List.append_assoc]
      · rw [houts', List.append_assoc]

/-- Nothing is lost or made up, however the steps of the parties alternate. -/
theorem inTransit_of_reaches {s : Connection β ε α γ δ}
    (h : Reaches (step kc ks) (fun _ _ => True) (start pc ps) s) : InTransit pc ps kc ks s := by
  refine h.invariant ⟨[], [], [], [], .refl, .refl, rfl, rfl⟩ fun _ _ _ hs _ hstep => ?_
  exact hs.step hstep

/-- Programs in step stay in step, whatever order their steps are in. -/
theorem inStep_of_reaches {R : α → α → Prop} {S : γ → δ → Prop} {s : Connection β ε α γ δ}
    (hfirst : pc.InStep ps R) (hsecond : ∀ a b, R a b → (kc a).InStep (ks b) S)
    (h : Reaches (step kc ks) (fun _ _ => True) (start pc ps) s) :
    (∀ a b, s.client.returned = some a → s.server.returned = some b → R a b) ∧
      ∀ a b c d, s.client.finished = some (a, c) → s.server.finished = some (b, d) →
        S c d ∧ s.toServer = [] ∧ s.toClient = [] := by
  obtain ⟨ins, outs, ins', outs', hclient, hserver, houts, houts'⟩ := inTransit_of_reaches h
  constructor
  · intro a b ha hb
    obtain ⟨ins₁, ins₂, outs₁, outs₂, rfl, rfl, hp⟩ := hclient.returned ha
    obtain ⟨ins₁', ins₂', outs₁', outs₂', rfl, rfl, hq⟩ := hserver.returned hb
    rw [List.append_assoc] at houts houts'
    exact (hfirst _ _ _ _ _ _ _ _ a b hp hq houts'.symm houts.symm).2.2
  · intro a b c d hc hd
    obtain ⟨ins₁, ins₂, outs₁, outs₂, rfl, rfl, hp, hf⟩ := hclient.finished hc
    obtain ⟨ins₁', ins₂', outs₁', outs₂', rfl, rfl, hq, hg⟩ := hserver.finished hd
    have hboth := hfirst.bind hsecond _ _ _ _ s.toClient s.toServer [] [] c d
      (Program.returns_bind.mpr ⟨a, ins₁, ins₂, outs₁, outs₂, rfl, rfl, hp, hf⟩)
      (Program.returns_bind.mpr ⟨b, ins₁', ins₂', outs₁', outs₂', rfl, rfl, hq, hg⟩)
      (by rw [List.append_nil, houts']) (by rw [List.append_nil, houts])
    obtain ⟨hins, hins', hS⟩ := hboth
    refine ⟨hS, ?_, ?_⟩
    · rw [← hins'] at houts
      exact (List.append_right_eq_self.mp houts.symm)
    · rw [← hins] at houts'
      exact (List.append_right_eq_self.mp houts'.symm)

end Connection

end Nix.Lib.Channels
