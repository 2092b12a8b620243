import Mathlib.Algebra.Group.Nat.Defs
import Mathlib.Data.List.Count
import Mathlib.Data.List.Nodup
import Mathlib.Data.List.Perm.Subperm
import Mathlib.Order.Lattice
import Nix.Lib.Transitions

/-!
`Pool`, used by any number of threads.
-/

set_option linter.dupNamespace false

namespace Nix.Util.Pools

open Lib.Transitions

/-- Where a thread is. -/
inductive Pc
  | outside
  /-- In `get`, before the lock. -/
  | locking
  | waiting
  /-- Woken up by a notification. -/
  | notified
  /-- In the factory. -/
  | constructing
  /-- In `~Handle`, before `notify_one`. -/
  | notifying
  /-- A failed `assert`. -/
  | aborted
  deriving DecidableEq

/-- An instance is given by its number in the order of construction. -/
structure Handle where
  r : Nat
  bad : Bool := false

structure State where
  inUse : Nat := 0
  max : Nat
  /-- The last one of the vector first. -/
  idle : List Nat := []
  handles : List Handle := []
  threads : List Pc
  /-- How many instances there have been. -/
  created : Nat := 0
  /-- How many calls of `incCapacity` are not paired yet. -/
  raised : Nat := 0

namespace State

variable (s : State)

def goTo (i : Nat) (t : Pc) : State :=
  { s with threads := s.threads.set i t }

/-- `notify_one`, if it wakes the thread `j`. -/
def notifyOne (j : Nat) : Option State :=
  if .waiting ∈ s.threads then
    if s.threads[j]? = some .waiting then some (s.goTo j .notified) else none
  else some s

/-- `count`. -/
def count : Nat := s.idle.length + s.inUse

def IsFull : Prop := s.idle = [] ∧ s.max ≤ s.inUse

instance : Decidable s.IsFull := inferInstanceAs (Decidable (_ ∧ _))

end State

/-- The first instance that the validator accepts, and what is left. -/
def takeValid (validator : Nat → Bool) : List Nat → Option (Nat × List Nat)
  | [] => none
  | p :: idle => if validator p then some (p, idle) else takeValid validator idle

namespace State

variable (s : State)

/-- `get` with the lock, up to the next wait, the factory or the end. -/
def get (validator : Nat → Bool) (i : Nat) : State :=
  if s.IsFull then s.goTo i .waiting
  else
    match takeValid validator s.idle with
    | some (p, idle) =>
        { s with idle, inUse := s.inUse + 1, handles := ⟨p, false⟩ :: s.handles }.goTo i .outside
    | none => { s with idle := [], inUse := s.inUse + 1 }.goTo i .constructing

/-- `~Handle` of the handle `k`, as far as it has the lock. -/
def release (i k : Nat) : Option State :=
  match s.handles[k]? with
  | none => none
  | some h =>
      let idle := if h.bad then s.idle else h.r :: s.idle
      let handles := s.handles.eraseIdx k
      if s.inUse = 0 then some ({ s with idle, handles }.goTo i .aborted)
      else some ({ s with idle, handles, inUse := s.inUse - 1 }.goTo i .notifying)

def markBad (k : Nat) : State :=
  { s with handles := s.handles.modify k fun h => { h with bad := true } }

end State

/-- What a thread does next. Answers of the validator and of the factory are part of the event. -/
inductive Event
  | get (i : Nat)
  | lock (i : Nat) (validator : Nat → Bool)
  /-- The factory returns. -/
  | construct (i : Nat)
  /-- The factory throws, and the thread `j` is woken up. -/
  | throw (i j : Nat)
  /-- A thread waits no longer without being notified. -/
  | wakeSpuriously (i : Nat)
  | markBad (k : Nat)
  | release (i k : Nat)
  | notify (i j : Nat)
  | flushBad (validator : Nat → Bool)
  | clear
  | incCapacity
  | decCapacity

/-- `size_t` has 64 bits. -/
def step (s : State) : Event → Option State
  | .get i => if s.threads[i]? = some .outside then some (s.goTo i .locking) else none
  | .lock i validator =>
      if s.threads[i]? = some .locking ∨ s.threads[i]? = some .notified then
        some (s.get validator i)
      else none
  | .construct i =>
      if s.threads[i]? = some .constructing then
        some ({ s with created := s.created + 1, handles := ⟨s.created, false⟩ :: s.handles }.goTo i
          .outside)
      else none
  | .throw i j =>
      if s.threads[i]? = some .constructing then
        ({ s with inUse := s.inUse - 1 }.goTo i .outside).notifyOne j
      else none
  | .wakeSpuriously i =>
      if s.threads[i]? = some .waiting then some (s.goTo i .locking) else none
  | .markBad k => some (s.markBad k)
  | .release i k => if s.threads[i]? = some .outside then s.release i k else none
  | .notify i j =>
      if s.threads[i]? = some .notifying then (s.goTo i .outside).notifyOne j else none
  | .flushBad validator => some { s with idle := s.idle.filter validator }
  | .clear => some { s with idle := [] }
  | .incCapacity => some { s with max := (s.max + 1) % 2 ^ 64, raised := s.raised + 1 }
  | .decCapacity => some { s with max := (s.max + (2 ^ 64 - 1)) % 2 ^ 64, raised := s.raised - 1 }

/-- Every `decCapacity` follows an `incCapacity` of its own, and the capacity is a `size_t`. -/
def Paired (s : State) : Event → Prop
  | .incCapacity => s.max + 1 < 2 ^ 64
  | .decCapacity => 0 < s.raised
  | _ => True

instance (s : State) (e : Event) : Decidable (Paired s e) :=
  match e with
  | .incCapacity => inferInstanceAs (Decidable (s.max + 1 < 2 ^ 64))
  | .decCapacity => inferInstanceAs (Decidable (0 < s.raised))
  | .get _ | .lock _ _ | .construct _ | .throw _ _ | .wakeSpuriously _ | .markBad _ | .release _ _
  | .notify _ _ | .flushBad _ | .clear => isTrue trivial

def start (max threads : Nat) : State where
  max
  threads := List.replicate threads .outside

variable {s s' : State} {i j k : Nat} {t u : Pc} {validator : Nat → Bool}

theorem mem_threads (h : s.threads[i]? = some t) : t ∈ s.threads :=
  List.mem_of_getElem? h

theorem mem_goTo (h : s.threads[i]? = some t) : u ∈ (s.goTo i u).threads :=
  List.mem_set (List.getElem?_eq_some_iff.mp h).1 u

theorem of_mem_goTo (h : u ∈ (s.goTo i t).threads) : u ∈ s.threads ∨ u = t :=
  List.mem_or_eq_of_mem_set h

theorem mem_goTo_of_ne (h : s.threads[i]? = some t) (hne : u ≠ t) {t' : Pc} (hu : u ∈ s.threads) :
    u ∈ (s.goTo i t').threads := by
  obtain ⟨n, hn⟩ := List.mem_iff_getElem?.mp hu
  refine List.mem_iff_getElem?.mpr ⟨n, ?_⟩
  rw [State.goTo, List.getElem?_set_ne, hn]
  rintro rfl
  exact hne (Option.some.inj (hn.symm.trans h))

theorem count_goTo (h : s.threads[i]? = some t) :
    (s.goTo i u).threads.count .constructing + (if t = .constructing then 1 else 0) =
      s.threads.count .constructing + if u = .constructing then 1 else 0 := by
  obtain ⟨hi, ht⟩ := List.getElem?_eq_some_iff.mp h
  have hpos : t = .constructing → 0 < s.threads.count .constructing := fun heq =>
    List.count_pos_iff.mpr (heq ▸ mem_threads h)
  rw [State.goTo, List.count_set hi, ht]
  by_cases hconstructing : t = .constructing
  · have hle := hpos hconstructing
    simp only [hconstructing, beq_iff_eq, if_true, beq_self_eq_true]
    omega
  · simp [hconstructing]

def State.instances (s : State) : List Nat := s.handles.map Handle.r ++ s.idle

/-- A thread that waits is woken up by a notification or by a thread that has an instance. -/
def State.Woken (s : State) : Prop :=
  .waiting ∈ s.threads → 0 < s.inUse ∨ .notified ∈ s.threads ∨ .notifying ∈ s.threads

/-- The counters and the instances fit together. -/
structure Sound (capacity : Nat) (s : State) : Prop where
  counted : s.inUse = s.handles.length + s.threads.count .constructing
  nodup : s.instances.Nodup
  old : ∀ r ∈ s.instances, r < s.created
  intact : .aborted ∉ s.threads
  max : s.max = capacity + s.raised
  max_lt : s.max < 2 ^ 64

structure Inv (capacity : Nat) (s : State) : Prop extends Sound capacity s where
  woken : s.Woken

theorem inv_start {capacity threads : Nat} (h : capacity < 2 ^ 64) :
    Inv capacity (start capacity threads) where
  counted := by simp [start, List.count_replicate]
  nodup := List.nodup_nil
  old := nofun
  intact := fun hin => by cases List.eq_of_mem_replicate hin
  woken := fun hin => by cases List.eq_of_mem_replicate hin
  max := rfl
  max_lt := h

/-- After `notify_one`, a thread that waits is not alone. -/
theorem woken_of_notifyOne (h : s.notifyOne j = some s') : s'.Woken := by
  intro hwaiting
  rw [State.notifyOne] at h
  split at h
  next =>
    split at h
    next hj =>
      cases h
      exact .inr (.inl (mem_goTo hj))
    next => cases h
  next hnone =>
    cases h
    exact absurd hwaiting hnone

theorem notifyOne_cases (h : s.notifyOne j = some s') :
    s' = s ∨ s.threads[j]? = some .waiting ∧ s' = s.goTo j .notified := by
  rw [State.notifyOne] at h
  split at h
  next =>
    split at h
    next hj => exact .inr ⟨hj, (Option.some.inj h).symm⟩
    next => cases h
  next => exact .inl (Option.some.inj h).symm

variable {capacity : Nat}

theorem Sound.move (h : Sound capacity s) (hi : s.threads[i]? = some t) {s₁ : State}
    (hthreads : s₁.threads = s.threads) (hmax : s₁.max = s.max) (hraised : s₁.raised = s.raised)
    (hcreated : s₁.created = s.created) (hinstances : s₁.instances.Subperm s.instances)
    (hu : u ≠ .aborted)
    (hcount : s₁.inUse + s.handles.length + (if t = .constructing then 1 else 0) =
      s.inUse + s₁.handles.length + if u = .constructing then 1 else 0) :
    Sound capacity (s₁.goTo i u) where
  counted := by
    have hi₁ : s₁.threads[i]? = some t := hthreads ▸ hi
    have hmoved : (s₁.goTo i u).threads.count .constructing +
        (if t = .constructing then 1 else 0) =
          s₁.threads.count .constructing + if u = .constructing then 1 else 0 := count_goTo hi₁
    have hcounted : s.inUse = s.handles.length + s₁.threads.count .constructing :=
      hthreads ▸ h.counted
    show s₁.inUse = s₁.handles.length + (s₁.goTo i u).threads.count .constructing
    omega
  nodup := by
    obtain ⟨l, hperm, hsublist⟩ := hinstances
    exact hperm.nodup_iff.mp (h.nodup.sublist hsublist)
  old := fun r hr => hcreated ▸ h.old r (hinstances.subset hr)
  intact := fun hin => (of_mem_goTo hin).elim (fun hin => h.intact (hthreads ▸ hin)) hu.symm
  max := by rw [State.goTo, hmax, hraised, h.max]
  max_lt := hmax ▸ h.max_lt

theorem Sound.goTo (h : Sound capacity s) (hi : s.threads[i]? = some t)
    (ht : t ≠ .constructing) (hu : u ≠ .constructing) (hu' : u ≠ .aborted) :
    Sound capacity (s.goTo i u) :=
  h.move hi rfl rfl rfl rfl (List.Subperm.refl _) hu' (by simp [ht, hu])

theorem Sound.notifyOne (h : Sound capacity s) (hs : s.notifyOne j = some s') :
    Sound capacity s' := by
  rcases notifyOne_cases hs with rfl | ⟨hj, rfl⟩
  · exact h
  · exact h.goTo hj nofun nofun nofun

theorem sublist_of_takeValid {idle rest : List Nat} {p : Nat}
    (h : takeValid validator idle = some (p, rest)) : (p :: rest).Sublist idle := by
  induction idle with
  | nil => cases h
  | cons q idle ih =>
    rw [takeValid] at h
    split at h
    · cases h
      exact List.Sublist.refl _
    · exact (ih h).cons q

/-- Besides waiting, `get` uses one more instance. -/
theorem Sound.get (h : Sound capacity s) (hi : s.threads[i]? = some t) (ht : t ≠ .constructing) :
    Sound capacity (s.get validator i) := by
  rw [State.get]
  split
  next => exact h.goTo hi ht nofun nofun
  next =>
    split
    next p idle htake =>
      refine h.move hi rfl rfl rfl rfl ?_ nofun (by simp [ht]; omega)
      have hperm : (p :: (s.handles.map Handle.r ++ idle)).Perm
          (s.handles.map Handle.r ++ p :: idle) := List.perm_middle.symm
      exact hperm.subperm.trans
        ((sublist_of_takeValid htake).append_left (s.handles.map Handle.r)).subperm
    next =>
      refine h.move hi rfl rfl rfl rfl ?_ nofun (by simp [ht]; omega)
      exact ((List.nil_sublist s.idle).append_left (s.handles.map Handle.r)).subperm

theorem Sound.construct (h : Sound capacity s) (hi : s.threads[i]? = some .constructing) :
    Sound capacity (State.goTo
      { s with created := s.created + 1, handles := ⟨s.created, false⟩ :: s.handles } i
        .outside) where
  counted := by
    have hmoved : (s.goTo i .outside).threads.count .constructing + 1 =
        s.threads.count .constructing + 0 := count_goTo hi
    have hcounted : s.inUse = s.handles.length + s.threads.count .constructing := h.counted
    show s.inUse = s.handles.length + 1 + (s.goTo i .outside).threads.count .constructing
    omega
  nodup := List.nodup_cons.mpr ⟨fun hin => Nat.lt_irrefl _ (h.old _ hin), h.nodup⟩
  old := List.forall_mem_cons.mpr
    ⟨Nat.lt_succ_self _, fun r hr => Nat.lt_succ_of_lt (h.old r hr)⟩
  intact := fun hin => (of_mem_goTo hin).elim h.intact nofun
  max := h.max
  max_lt := h.max_lt

theorem Sound.inUse_ne_zero (h : Sound capacity s) {handle : Handle}
    (hk : s.handles[k]? = some handle) : s.inUse ≠ 0 := by
  have hlength : 0 < s.handles.length := List.length_pos_of_mem (List.mem_of_getElem? hk)
  rw [h.counted]
  omega

theorem Sound.release (h : Sound capacity s) (hi : s.threads[i]? = some .outside)
    (hs : s.release i k = some s') : Sound capacity s' ∧ .notifying ∈ s'.threads := by
  rw [State.release] at hs
  cases hk : s.handles[k]? with
  | none => rw [hk] at hs; cases hs
  | some handle =>
    rw [hk] at hs
    obtain ⟨hlt, hhandle⟩ := List.getElem?_eq_some_iff.mp hk
    have hlength : (s.handles.eraseIdx k).length + 1 = s.handles.length := by
      rw [List.length_eraseIdx_of_lt hlt]
      omega
    have hpos : s.inUse ≠ 0 := h.inUse_ne_zero hk
    have hperm : ((s.handles.eraseIdx k).map Handle.r ++ handle.r :: s.idle).Perm
        s.instances := by
      refine List.perm_middle.trans ?_
      have herase : (handle :: s.handles.eraseIdx k).Perm s.handles :=
        hhandle ▸ List.getElem_cons_eraseIdx_perm hlt
      exact (herase.map Handle.r).append_right s.idle
    simp only [if_neg hpos] at hs
    cases hs
    refine ⟨h.move hi rfl rfl rfl rfl ?_ nofun (by simp; omega), mem_goTo hi⟩
    split
    next =>
      exact ((List.sublist_cons_self _ _).append_left _).subperm.trans hperm.subperm
    next => exact hperm.subperm

theorem Inv.withIdle (h : Inv capacity s) {idle : List Nat} (hsublist : idle.Sublist s.idle) :
    Inv capacity { s with idle } where
  counted := h.counted
  nodup := h.nodup.sublist (hsublist.append_left _)
  old := fun r hr => h.old r ((hsublist.append_left _).subset hr)
  intact := h.intact
  woken := h.woken
  max := h.max
  max_lt := h.max_lt

theorem instances_markBad (s : State) (k : Nat) : (s.markBad k).instances = s.instances := by
  have hmap : (s.markBad k).handles.map Handle.r = s.handles.map Handle.r := by
    apply List.ext_getElem?
    intro n
    rw [State.markBad, List.getElem?_map, List.getElem?_map, List.getElem?_modify]
    cases s.handles[n]? with
    | none => rfl
    | some handle => split <;> rfl
  exact congrArg (· ++ s.idle) hmap

theorem Inv.markBad (h : Inv capacity s) (k : Nat) : Inv capacity (s.markBad k) where
  counted := by
    have hlength : (s.markBad k).handles.length = s.handles.length := List.length_modify _ _ _
    rw [hlength]
    exact h.counted
  nodup := (instances_markBad s k).symm ▸ h.nodup
  old := (instances_markBad s k).symm ▸ h.old
  intact := h.intact
  woken := h.woken
  max := h.max
  max_lt := h.max_lt

theorem Inv.withMax (h : Inv capacity s) {max raised : Nat} (hmax : max = capacity + raised)
    (hlt : max < 2 ^ 64) : Inv capacity { s with max, raised } where
  counted := h.counted
  nodup := h.nodup
  old := h.old
  intact := h.intact
  woken := h.woken
  max := hmax
  max_lt := hlt

theorem State.Woken.goTo (h : s.Woken) (hi : s.threads[i]? = some t) (ht : t ≠ .notified)
    (ht' : t ≠ .notifying) (hu : u ≠ .waiting) : (s.goTo i u).Woken := by
  intro hwaiting
  have hin : .waiting ∈ s.threads := (of_mem_goTo hwaiting).resolve_right hu.symm
  exact (h hin).imp_right (Or.imp (mem_goTo_of_ne hi ht.symm) (mem_goTo_of_ne hi ht'.symm))

/-- After `get` had the lock, an instance is used. -/
theorem inUse_get_pos (h : Sound capacity s) (hpos : 0 < capacity) :
    0 < (s.get validator i).inUse := by
  rw [State.get]
  split
  next hfull =>
    have hmax : s.max = capacity + s.raised := h.max
    have hle : s.max ≤ s.inUse := hfull.2
    show 0 < s.inUse
    omega
  next =>
    split
    · exact Nat.succ_pos s.inUse
    · exact Nat.succ_pos s.inUse

theorem Inv.next (hpos : 0 < capacity) (h : Inv capacity s) {e : Event} (hpaired : Paired s e)
    (hs : step s e = some s') : Inv capacity s' := by
  cases e with
  | get i =>
    obtain ⟨hi, hs⟩ := Option.ite_none_right_eq_some.mp hs
    cases hs
    exact ⟨h.toSound.goTo hi nofun nofun nofun, h.woken.goTo hi nofun nofun nofun⟩
  | lock i validator =>
    obtain ⟨hi, hs⟩ := Option.ite_none_right_eq_some.mp hs
    cases hs
    refine ⟨?_, fun _ => .inl (inUse_get_pos h.toSound hpos)⟩
    exact hi.elim (h.toSound.get · nofun) (h.toSound.get · nofun)
  | construct i =>
    obtain ⟨hi, hs⟩ := Option.ite_none_right_eq_some.mp hs
    cases hs
    have hwoken : (s.goTo i .outside).Woken := h.woken.goTo hi nofun nofun nofun
    exact ⟨h.toSound.construct hi, hwoken⟩
  | throw i j =>
    obtain ⟨hi, hs⟩ := Option.ite_none_right_eq_some.mp hs
    refine ⟨Sound.notifyOne ?_ hs, woken_of_notifyOne hs⟩
    have hused : 0 < s.inUse := by
      have hconstructing : 0 < s.threads.count .constructing :=
        List.count_pos_iff.mpr (mem_threads hi)
      have hcounted : s.inUse = s.handles.length + s.threads.count .constructing := h.counted
      omega
    exact h.toSound.move hi rfl rfl rfl rfl (List.Subperm.refl _) nofun (by simp; omega)
  | wakeSpuriously i =>
    obtain ⟨hi, hs⟩ := Option.ite_none_right_eq_some.mp hs
    cases hs
    exact ⟨h.toSound.goTo hi nofun nofun nofun, h.woken.goTo hi nofun nofun nofun⟩
  | markBad k =>
    cases hs
    exact h.markBad k
  | release i k =>
    obtain ⟨hi, hs⟩ := Option.ite_none_right_eq_some.mp hs
    obtain ⟨hsound, hnotifying⟩ := h.toSound.release hi hs
    exact ⟨hsound, fun _ => .inr (.inr hnotifying)⟩
  | notify i j =>
    obtain ⟨hi, hs⟩ := Option.ite_none_right_eq_some.mp hs
    have hsound : Sound capacity (s.goTo i .outside) := h.toSound.goTo hi nofun nofun nofun
    exact ⟨hsound.notifyOne hs, woken_of_notifyOne hs⟩
  | flushBad validator =>
    cases hs
    exact h.withIdle List.filter_sublist
  | clear =>
    cases hs
    exact h.withIdle (List.nil_sublist _)
  | incCapacity =>
    cases hs
    have hmax : s.max = capacity + s.raised := h.max
    have hlt : s.max + 1 < 2 ^ 64 := hpaired
    exact h.withMax (by omega) (by omega)
  | decCapacity =>
    cases hs
    have hmax : s.max = capacity + s.raised := h.max
    have hlt : s.max < 2 ^ 64 := h.max_lt
    have hraised : 0 < s.raised := hpaired
    exact h.withMax (by omega) (by omega)

theorem length_of_takeValid {idle rest : List Nat} {p : Nat}
    (h : takeValid validator idle = some (p, rest)) : rest.length < idle.length :=
  (sublist_of_takeValid h).length_le

theorem idle_ne_nil_or_lt_of_not_waiting (hi : s.threads[i]? = some t)
    (h : (s.get validator i).threads[i]? ≠ some .waiting) : s.idle ≠ [] ∨ s.inUse < s.max := by
  have hfull : ¬ s.IsFull := by
    intro hfull
    rw [State.get, if_pos hfull] at h
    exact h (List.getElem?_set_self (List.getElem?_eq_some_iff.mp hi).1)
  by_cases hidle : s.idle = []
  · exact .inr (Nat.lt_of_not_le fun hle => hfull ⟨hidle, hle⟩)
  · exact .inl hidle

theorem count_get_le (s : State) (validator : Nat → Bool) (i : Nat) :
    (s.get validator i).count ≤ max s.count s.max := by
  rw [State.get]
  split
  next => exact Nat.le_max_left s.count s.max
  next hfull =>
    split
    next p idle htake =>
      have hlt : idle.length < s.idle.length := length_of_takeValid htake
      have hle : idle.length + (s.inUse + 1) ≤ s.idle.length + s.inUse := by omega
      exact hle.trans (Nat.le_max_left s.count s.max)
    next =>
      show 0 + (s.inUse + 1) ≤ max s.count s.max
      by_cases hidle : s.idle = []
      · have hlt : s.inUse < s.max := Nat.lt_of_not_le fun hle => hfull ⟨hidle, hle⟩
        exact (by omega : 0 + (s.inUse + 1) ≤ s.max).trans (Nat.le_max_right s.count s.max)
      · have hlength : 0 < s.idle.length := List.length_pos_iff.mpr hidle
        have hle : 0 + (s.inUse + 1) ≤ s.idle.length + s.inUse := by omega
        exact hle.trans (Nat.le_max_left s.count s.max)

theorem max_get (s : State) (validator : Nat → Bool) (i : Nat) :
    (s.get validator i).max = s.max := by
  rw [State.get]
  split
  · rfl
  · split <;> rfl

theorem count_release_le (h : Sound capacity s) (hs : s.release i k = some s') :
    s'.count ≤ s.count ∧ s'.max = s.max := by
  rw [State.release] at hs
  cases hk : s.handles[k]? with
  | none => rw [hk] at hs; cases hs
  | some handle =>
    rw [hk] at hs
    simp only [if_neg (h.inUse_ne_zero hk)] at hs
    cases hs
    refine ⟨?_, rfl⟩
    show (if handle.bad then s.idle else handle.r :: s.idle).length + (s.inUse - 1) ≤
      s.idle.length + s.inUse
    split
    · exact Nat.add_le_add_left (Nat.sub_le _ _) _
    · have hused : s.inUse ≠ 0 := h.inUse_ne_zero hk
      rw [List.length_cons]
      omega

theorem count_notifyOne (hs : s.notifyOne j = some s') :
    s'.count = s.count ∧ s'.max = s.max := by
  rcases notifyOne_cases hs with rfl | ⟨-, rfl⟩
  · exact ⟨rfl, rfl⟩
  · exact ⟨rfl, rfl⟩

theorem count_le_of_step (h : Sound capacity s) {e : Event} (hpaired : Paired s e)
    (he : e ≠ .decCapacity) (hs : step s e = some s') (hle : s.count ≤ s.max) :
    s'.count ≤ s'.max := by
  cases e with
  | get i =>
    obtain ⟨-, hs⟩ := Option.ite_none_right_eq_some.mp hs
    cases hs
    exact hle
  | lock i validator =>
    obtain ⟨-, hs⟩ := Option.ite_none_right_eq_some.mp hs
    cases hs
    rw [max_get]
    exact (count_get_le s validator i).trans (Nat.max_le.mpr ⟨hle, Nat.le_refl _⟩)
  | construct i =>
    obtain ⟨-, hs⟩ := Option.ite_none_right_eq_some.mp hs
    cases hs
    exact hle
  | throw i j =>
    obtain ⟨-, hs⟩ := Option.ite_none_right_eq_some.mp hs
    obtain ⟨hcount, hmax⟩ := count_notifyOne hs
    rw [hcount, hmax]
    exact (Nat.add_le_add_left (Nat.sub_le _ _) _).trans hle
  | wakeSpuriously i =>
    obtain ⟨-, hs⟩ := Option.ite_none_right_eq_some.mp hs
    cases hs
    exact hle
  | markBad k =>
    cases hs
    exact hle
  | release i k =>
    obtain ⟨hi, hs⟩ := Option.ite_none_right_eq_some.mp hs
    obtain ⟨hcount, hmax⟩ := count_release_le h hs
    exact hmax ▸ hcount.trans hle
  | notify i j =>
    obtain ⟨-, hs⟩ := Option.ite_none_right_eq_some.mp hs
    obtain ⟨hcount, hmax⟩ := count_notifyOne hs
    rw [hcount, hmax]
    exact hle
  | flushBad validator =>
    cases hs
    exact (Nat.add_le_add_right (List.length_filter_le _ _) _).trans hle
  | clear =>
    cases hs
    exact (Nat.add_le_add_right (Nat.zero_le _) _).trans hle
  | incCapacity =>
    cases hs
    have hlt : s.max + 1 < 2 ^ 64 := hpaired
    show s.count ≤ (s.max + 1) % 2 ^ 64
    rw [Nat.mod_eq_of_lt hlt]
    exact Nat.le_succ_of_le hle
  | decCapacity => exact absurd rfl he

theorem Inv.of_reaches {threads : Nat} (hpos : 0 < capacity) (hlt : capacity < 2 ^ 64)
    (h : Reaches step Paired (start capacity threads) s) : Inv capacity s :=
  h.invariant (inv_start hlt) fun _ _ _ hinv => hinv.next hpos

def Raising (s : State) (e : Event) : Prop := Paired s e ∧ e ≠ .decCapacity

theorem count_le_of_reaches {threads : Nat} (hpos : 0 < capacity) (hlt : capacity < 2 ^ 64)
    (h : Reaches step Raising (start capacity threads) s) : s.count ≤ s.max := by
  have hboth : Inv capacity s ∧ s.count ≤ s.max := by
    refine h.invariant (I := fun s => Inv capacity s ∧ s.count ≤ s.max)
      ⟨inv_start hlt, Nat.zero_le _⟩ fun s e s' hinv hok hs => ?_
    exact ⟨hinv.1.next hpos hok.1 hs, count_le_of_step hinv.1.toSound hok.1 hok.2 hs hinv.2⟩
  exact hboth.2

/-- What holds in every state of every run, and what `get` does in it when it does not wait. -/
theorem pool_sound {threads : Nat} (hpos : 0 < capacity) (hlt : capacity < 2 ^ 64) :
    (∀ s, Reaches step Paired (start capacity threads) s →
      s.inUse = s.handles.length + s.threads.count .constructing ∧
      (s.handles.map Handle.r ++ s.idle).Nodup ∧
      .aborted ∉ s.threads ∧
      (.waiting ∈ s.threads →
        0 < s.inUse ∨ .notified ∈ s.threads ∨ .notifying ∈ s.threads) ∧
      ∀ i validator s', step s (.lock i validator) = some s' →
        s'.threads[i]? ≠ some .waiting →
          (s.idle ≠ [] ∨ s.inUse < s.max) ∧ s'.count ≤ max s.count s.max) ∧
    ∀ s, Reaches step Raising (start capacity threads) s →
      ∀ i validator s', step s (.lock i validator) = some s' →
        s'.threads[i]? ≠ some .waiting → s.inUse < s.max := by
  have hlock : ∀ {s s' : State} {i validator}, step s (.lock i validator) = some s' →
      s'.threads[i]? ≠ some .waiting → s' = s.get validator i ∧
        (s.idle ≠ [] ∨ s.inUse < s.max) := by
    intro s s' i validator hs hwaiting
    obtain ⟨hi, hs⟩ := Option.ite_none_right_eq_some.mp hs
    cases hs
    exact ⟨rfl, hi.elim (idle_ne_nil_or_lt_of_not_waiting · hwaiting)
      (idle_ne_nil_or_lt_of_not_waiting · hwaiting)⟩
  constructor
  · intro s h
    have hinv : Inv capacity s := .of_reaches hpos hlt h
    refine ⟨hinv.counted, hinv.nodup, hinv.intact, hinv.woken, fun i validator s' hs hw => ?_⟩
    obtain ⟨rfl, hfree⟩ := hlock hs hw
    exact ⟨hfree, count_get_le s validator i⟩
  · intro s h i validator s' hs hw
    have hcount : s.idle.length + s.inUse ≤ s.max := count_le_of_reaches hpos hlt h
    rcases (hlock hs hw).2 with hidle | hless
    · have hlength : 0 < s.idle.length := List.length_pos_iff.mpr hidle
      omega
    · exact hless

/-- Two threads use the pool while its capacity is raised, and lowered again. -/
def lowered : List Event :=
  [.get 0, .lock 0 fun _ => true, .construct 0, .incCapacity, .get 0, .lock 0 fun _ => true,
    .construct 0, .release 0 0, .notify 0 0, .decCapacity, .get 1]

/-- One instance is used, which is as many as there may be, and one is idle. -/
def loweredState : State where
  inUse := 1
  max := 1
  idle := [1]
  handles := [⟨0, false⟩]
  threads := [.outside, .locking]
  created := 2

theorem reaches_lowered : Reaches step Paired (start 1 2) loweredState :=
  Reaches.start.exec (show exec step Paired (start 1 2) lowered = some loweredState from rfl)

theorem pool_sound_lowered :
    ([0, 1] : List Nat).Nodup ∧ (loweredState.get (fun _ => true) 1).count ≤ 2 := by
  obtain ⟨-, hnodup, -, -, hlock⟩ :=
    (@pool_sound 1 2 Nat.one_pos (by decide)).1 loweredState reaches_lowered
  have hwaiting : (loweredState.get (fun _ => true) 1).threads[1]? ≠ some .waiting := by decide
  exact ⟨hnodup, (hlock 1 (fun _ => true) _ rfl hwaiting).2⟩

/-- An idle instance is handed out beyond the maximum. Without a slot, a thread waits in vain. -/
theorem not_limited_lowered :
    (¬ ∀ s, Reaches step Paired (start 1 2) s → ∀ i validator s',
      step s (.lock i validator) = some s' → s'.threads[i]? ≠ some .waiting → s.inUse < s.max) ∧
    ¬ ∀ s, Reaches step Paired (start 0 1) s → .waiting ∈ s.threads →
      0 < s.inUse ∨ .notified ∈ s.threads ∨ .notifying ∈ s.threads := by
  constructor
  · intro h
    have hwaiting : (loweredState.get (fun _ => true) 1).threads[1]? ≠ some .waiting := by decide
    exact absurd (h loweredState reaches_lowered 1 (fun _ => true) _ rfl hwaiting) (by decide)
  · intro h
    have hreaches : Reaches step Paired (start 0 1) ((start 0 1).goTo 0 .waiting) :=
      Reaches.start.exec (show exec step Paired (start 0 1) [.get 0, .lock 0 fun _ => true] =
        some ((start 0 1).goTo 0 .waiting) from rfl)
    exact absurd (h _ hreaches (by decide)) (by decide)

end Nix.Util.Pools
