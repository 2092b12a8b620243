import Mathlib.Data.Set.Finite.Range
import Nix.Lib.BreadthFirst
import Nix.Lib.Results
import Nix.Lib.SortedList
import Nix.Util.Types

/-!
`builtins.genericClosure`, as a breadth-first search.
-/

set_option linter.dupNamespace false

namespace Nix.Eval.GenericClosure

open Util.Types Lib.BreadthFirst Lib.SortedList

/-- A key that is forced throughout. -/
inductive Key
  | int (n : Int64)
  | string (s : Bytes)
  | list (elems : List Key)

def showType : Key → Bytes
  | .int _ => str "an integer"
  | .string _ => str "a string"
  | .list _ => str "a list"

mutual

/-- `eqValues`, on integers, strings and lists. -/
def eqValues : Key → Key → Bool
  | .int n, .int m => n = m
  | .string s, .string t => s = t
  | .list l, .list l' => l.length = l'.length && eqElems l l'
  | _, _ => false

def eqElems : List Key → List Key → Bool
  | k :: l, k' :: l' => eqValues k k' && eqElems l l'
  | _, _ => true

end

section Compare

variable (print : Key → Bytes)

mutual

/-- `CompareValues`. -/
def compareValues : Key → Key → Except Error Bool
  | .int n, .int m => .ok (n < m)
  | .string s, .string t => .ok (compare s t = .lt)
  | .list l, .list l' => compareElems l l'
  | v₁, v₂ =>
      .error ⟨.error, ⟨"cannot compare %s with %s; values are %s and %s",
        [showType v₁, showType v₂, print v₁, print v₂]⟩⟩

def compareElems : List Key → List Key → Except Error Bool
  | _, [] => .ok false
  | [], _ :: _ => .ok true
  | k :: l, k' :: l' => if !eqValues k k' then compareValues k k' else compareElems l l'

end

variable {α : Type}

/-- `insert` of a `std::map`, which is walked in its order. Nothing is inserted if an equivalent
key is there. -/
def insert (k : Key) (e : α) : List (Key × α) → Except Error (Option (List (Key × α)))
  | [] => .ok (some [(k, e)])
  | (k', e') :: m => do
      if ← compareValues print k k' then return some ((k, e) :: (k', e') :: m)
      else if ← compareValues print k' k then
        let inserted ← insert k e m
        return inserted.map ((k', e') :: ·)
      else return none

variable (key : α → Except Error Key) (operator : α → Except Error (List α))

/-- The loop over the work set. Elements are forced by `key`, and lists of them by `operator`. -/
def closureLoop : Nat → List (Key × α) → List α → List α → Except Error (List α)
  | 0, _, _, _ => .error .diverges
  | _ + 1, _, [], res => .ok res
  | fuel + 1, keyToElem, e :: workSet, res => do
      let k ← key e
      match ← insert print k e keyToElem with
      | none => closureLoop fuel keyToElem workSet res
      | some keyToElem => do
          let newElements ← operator e
          closureLoop fuel keyToElem (workSet ++ newElements) (res ++ [e])

def genericClosure (fuel : Nat) (startSet : List α) : Except Error (List α) :=
  if startSet = [] then .ok startSet else closureLoop print key operator fuel [] startSet []

end Compare

/-- The type of all keys of a closure. -/
inductive KeyType
  | int
  | string
  | list (t : KeyType)

namespace KeyType

def Content : KeyType → Type
  | int => Int64
  | string => Bytes
  | list t => List t.Content

def toKey : (t : KeyType) → t.Content → Key
  | int, n => .int n
  | string, s => .string s
  | list t, l => .list (l.map t.toKey)

instance instOrd : (t : KeyType) → Ord t.Content
  | int => inferInstanceAs (Ord Int64)
  | string => inferInstanceAs (Ord Bytes)
  | list t => @List.instOrd _ (instOrd t)

instance instTransOrd : (t : KeyType) → Std.TransOrd t.Content
  | int => inferInstanceAs (Std.TransOrd Int64)
  | string => inferInstanceAs (Std.TransOrd Bytes)
  | list t =>
      have := instTransOrd t
      inferInstanceAs (Std.TransOrd (List t.Content))

instance instLawfulEqOrd : (t : KeyType) → Std.LawfulEqOrd t.Content
  | int => inferInstanceAs (Std.LawfulEqOrd Int64)
  | string => inferInstanceAs (Std.LawfulEqOrd Bytes)
  | list t =>
      have := instLawfulEqOrd t
      inferInstanceAs (Std.LawfulEqOrd (List t.Content))

instance (t : KeyType) : DecidableEq t.Content := fun _ _ =>
  decidable_of_iff _ Std.LawfulEqOrd.compare_eq_iff_eq

end KeyType

section KeysOfOneType

section Lists

variable {γ : Type} [DecidableEq γ] {toKey : γ → Key}

theorem eqElems_map (h : ∀ a b, eqValues (toKey a) (toKey b) = decide (a = b)) {l l' : List γ}
    (hlen : l.length = l'.length) :
    eqElems (l.map toKey) (l'.map toKey) = decide (l = l') := by
  induction l generalizing l' with
  | nil =>
    obtain rfl := List.length_eq_zero_iff.mp hlen.symm
    rfl
  | cons a l ih =>
    obtain ⟨b, l', rfl⟩ := List.exists_cons_of_length_eq_add_one hlen.symm
    rw [List.map_cons, List.map_cons, eqElems, h, ih (Nat.succ.inj hlen), ← Bool.decide_and,
      decide_eq_decide, List.cons_eq_cons]

theorem eqValues_list_map (h : ∀ a b, eqValues (toKey a) (toKey b) = decide (a = b))
    (l l' : List γ) :
    eqValues (.list (l.map toKey)) (.list (l'.map toKey)) = decide (l = l') := by
  rw [eqValues, List.length_map, List.length_map]
  by_cases hlen : l.length = l'.length
  · rw [decide_eq_true hlen, Bool.true_and, eqElems_map h hlen]
  · rw [decide_eq_false hlen, Bool.false_and]
    exact (decide_eq_false fun heq => hlen (congrArg List.length heq)).symm

variable [Ord γ] [Std.LawfulEqOrd γ] (print : Key → Bytes)

theorem compareElems_map (heq : ∀ a b, eqValues (toKey a) (toKey b) = decide (a = b))
    (hlt : ∀ a b, compareValues print (toKey a) (toKey b) = .ok (decide (compare a b = .lt)))
    (l l' : List γ) :
    compareElems print (l.map toKey) (l'.map toKey) = .ok (decide (compare l l' = .lt)) := by
  induction l generalizing l' with
  | nil => cases l' <;> rfl
  | cons a l ih =>
    cases l' with
    | nil => rfl
    | cons b l' =>
      simp only [List.map_cons, compareElems, heq, List.compare_cons_cons]
      by_cases hab : a = b
      · simp only [hab, Std.ReflOrd.compare_self, Ordering.eq_then]
        exact ih l'
      · have hne : compare a b ≠ .eq := fun h => hab (Std.LawfulEqOrd.compare_eq_iff_eq.mp h)
        rw [decide_eq_false hab, hlt]
        simp [Ordering.then_eq_lt, hne]

end Lists

variable (t : KeyType) (print : Key → Bytes)

theorem eqValues_toKey (c c' : t.Content) :
    eqValues (t.toKey c) (t.toKey c') = decide (c = c') := by
  induction t with
  | int => exact decide_eq_decide.mpr Iff.rfl
  | string => exact decide_eq_decide.mpr Iff.rfl
  | list t ih => exact (eqValues_list_map ih c c').trans (decide_eq_decide.mpr Iff.rfl)

theorem compareValues_toKey (c c' : t.Content) :
    compareValues print (t.toKey c) (t.toKey c') = .ok (decide (compare c c' = .lt)) := by
  induction t with
  | int => exact congrArg Except.ok (decide_eq_decide.mpr compareOfLessAndEq_eq_lt.symm)
  | string => rfl
  | list t ih => exact compareElems_map print (eqValues_toKey t) ih c c'

section Insert

variable {α : Type}

def keyed (m : List (t.Content × α)) : List (Key × α) :=
  m.map (Prod.map t.toKey id)

variable {t} {c : t.Content} {e : α} {m : List (t.Content × α)}

theorem insert_cons (c' : t.Content) (e' : α) :
    insert print (t.toKey c) e (keyed t ((c', e') :: m)) =
      match compare c c' with
      | .lt => .ok (some (keyed t ((c, e) :: (c', e') :: m)))
      | .eq => .ok none
      | .gt => (·.map ((t.toKey c', e') :: ·)) <$> insert print (t.toKey c) e (keyed t m) := by
  show insert print (t.toKey c) e ((t.toKey c', e') :: keyed t m) = _
  rw [insert, compareValues_toKey, compareValues_toKey, @Std.OrientedOrd.eq_swap _ _ _ c' c]
  cases compare c c' <;> rfl

theorem insert_of_mem (hm : StrictlySorted compare (m.map Prod.fst)) (h : c ∈ m.map Prod.fst) :
    insert print (t.toKey c) e (keyed t m) = .ok none := by
  induction m with
  | nil => exact absurd h List.not_mem_nil
  | cons p m ih =>
    obtain ⟨c', e'⟩ := p
    obtain ⟨hlt, hm⟩ := List.pairwise_cons.mp hm
    rw [insert_cons]
    rcases List.mem_cons.mp h with rfl | h
    · rw [Std.ReflOrd.compare_self]
    · rw [Std.OrientedCmp.gt_iff_lt.mpr (hlt c h), ih hm h]
      rfl

theorem insert_of_notMem (h : c ∉ m.map Prod.fst) :
    insert print (t.toKey c) e (keyed t m) =
      .ok (some (keyed t (insertNew (byKey compare) (c, e) m))) := by
  induction m with
  | nil => rfl
  | cons p m ih =>
    obtain ⟨c', e'⟩ := p
    obtain ⟨hne, h⟩ := not_or.mp (List.mem_cons.not.mp h)
    rw [insert_cons, insertNew, ih h]
    have hcompare : compare c c' ≠ .eq := fun heq => hne (Std.LawfulEqOrd.eq_of_compare heq)
    cases hcc : compare c c' with
    | lt => simp only [byKey, hcc]
    | eq => exact absurd hcc hcompare
    | gt =>
      simp only [byKey, hcc]
      rfl

theorem map_fst_insertNew (c : t.Content) (e : α) (m : List (t.Content × α)) :
    (insertNew (byKey compare) (c, e) m).map Prod.fst = insertNew compare c (m.map Prod.fst) := by
  induction m with
  | nil => rfl
  | cons p m ih =>
    rw [List.map_cons, insertNew, insertNew, byKey]
    cases compare c p.1 with
    | lt => rfl
    | eq => rfl
    | gt => exact congrArg (p.1 :: ·) ih

end Insert

section Closure

variable {α : Type} (k : α → t.Content) (operator : α → List α)

theorem closureLoop_toKey (fuel : Nat) {m : List (t.Content × α)} {seen : List t.Content}
    (hm : StrictlySorted compare (m.map Prod.fst)) (hseen : ∀ c, c ∈ m.map Prod.fst ↔ c ∈ seen)
    (workSet res : List α) :
    closureLoop print (fun a => .ok (t.toKey (k a))) (fun a => .ok (operator a)) fuel
        (keyed t m) workSet res =
      match explore k operator fuel seen workSet with
      | none => .error .diverges
      | some kept => .ok (res ++ kept) := by
  induction fuel generalizing m seen workSet res with
  | zero => rfl
  | succ fuel ih =>
    cases workSet with
    | nil =>
      rw [closureLoop, explore]
      exact congrArg Except.ok (List.append_nil res).symm
    | cons e workSet =>
      rw [closureLoop, explore]
      show (insert print (t.toKey (k e)) e (keyed t m)).bind _ = _
      by_cases h : k e ∈ seen
      · rw [insert_of_mem print hm ((hseen _).mpr h), if_pos h]
        exact ih hm hseen workSet res
      · have hins := map_fst_insertNew (k e) e m
        have hseen' : ∀ c, c ∈ (insertNew (byKey compare) (k e, e) m).map Prod.fst ↔
            c ∈ k e :: seen := by
          intro c
          rw [hins, mem_insertNew, hseen, List.mem_cons]
        rw [insert_of_notMem print fun hmem => h ((hseen _).mp hmem), if_neg h]
        refine (ih (hins ▸ hm.insertNew) hseen' (workSet ++ operator e) (res ++ [e])).trans ?_
        cases explore k operator fuel (k e :: seen) (workSet ++ operator e) with
        | none => rfl
        | some kept => exact congrArg Except.ok (List.append_assoc res [e] kept)

theorem genericClosure_toKey (fuel : Nat) (startSet : List α) :
    genericClosure print (fun a => .ok (t.toKey (k a))) (fun a => .ok (operator a)) (fuel + 1)
        startSet =
      match explore k operator (fuel + 1) [] startSet with
      | none => .error .diverges
      | some kept => .ok kept := by
  cases startSet with
  | nil => rfl
  | cons e startSet =>
    rw [genericClosure, if_neg (List.cons_ne_nil _ _)]
    exact @closureLoop_toKey t print α k operator (fuel + 1) [] [] .nil (fun _ => Iff.rfl) _ []

variable {t k operator}

/-- A breadth-first closure. What is found also includes successors of no element but the first
one of each key, since elements are the same if their keys are. -/
structure IsClosure (k : α → t.Content) (operator : α → List α) (startSet result : List α) :
    Prop where
  nodup : (result.map k).Nodup
  complete : ∀ n, ∀ a ∈ (frontier k operator startSet n).1, k a ∈ result.map k
  reachable : (∀ a b, Reaches operator startSet a → Reaches operator startSet b → k a = k b →
      ∀ a' ∈ operator a, ∃ b' ∈ operator b, k b' = k a') →
    ∀ a, Reaches operator startSet a → k a ∈ result.map k
  order : ∃ n, (frontier k operator startSet n).1 = [] ∧
    result = firsts k [] (found k operator startSet n)

theorem isClosure_firsts {startSet : List α} {n : Nat}
    (h : (frontier k operator startSet n).1 = []) :
    IsClosure k operator startSet (firsts k [] (found k operator startSet n)) where
  nodup := nodup_firsts _
  complete _ _ ha := mem_map_firsts_found h ha
  reachable hkeys a ha := by
    obtain ⟨m, b, hb, hkey⟩ := exists_frontier_of_reaches hkeys ha
    rw [← hkey]
    exact mem_map_firsts_found h hb
  order := ⟨n, h, rfl⟩

/-- A closure with finitely many keys is computed, in breadth-first order. -/
theorem genericClosure_isClosure (t : KeyType) (print : Key → Bytes) (k : α → t.Content)
    (operator : α → List α) (startSet : List α)
    (h : {c | ∃ n, ∃ a ∈ (frontier k operator startSet n).1, k a = c}.Finite) :
    ∃ result, IsClosure k operator startSet result ∧ ∃ enough, ∀ fuel ≥ enough,
      genericClosure print (fun a => .ok (t.toKey (k a))) (fun a => .ok (operator a)) fuel
        startSet = .ok result := by
  obtain ⟨n, hn⟩ := exists_frontier_eq_nil h
  refine ⟨_, isClosure_firsts hn, 1 + (found k operator startSet n).length, fun fuel hfuel => ?_⟩
  obtain ⟨more, rfl⟩ := Nat.exists_eq_add_of_le' hfuel
  have hexplore := explore_eq_some hn more
  rw [Nat.add_right_comm] at hexplore
  rw [← Nat.add_assoc, Nat.add_right_comm, genericClosure_toKey, hexplore]

def intKey (n : Int64) : KeyType.int.Content := n

/-- A cycle of two elements. -/
theorem genericClosure_isClosure_cycle :
    ∃ result, IsClosure (fun b => intKey (cond b 1 2)) (fun b => [!b]) [true] result ∧
      ∃ enough, ∀ fuel ≥ enough,
        genericClosure showType (fun b => .ok (KeyType.int.toKey (intKey (cond b 1 2))))
          (fun b => .ok [!b]) fuel [true] = .ok result :=
  genericClosure_isClosure .int showType (fun b => intKey (cond b 1 2)) (fun b => [!b]) [true]
    ((Set.finite_range fun b => intKey (cond b 1 2)).subset fun _ ⟨_, b, _, hb⟩ => ⟨b, hb⟩)

/-- The successors of a second element of a key are lost. -/
theorem not_genericClosure_reachable :
    ¬ ∀ (t : KeyType) (k : Nat → t.Content) (operator : Nat → List Nat) (startSet : List Nat),
      {c | ∃ a, Reaches operator startSet a ∧ k a = c}.Finite →
      ∃ result fuel, genericClosure showType (fun a => .ok (t.toKey (k a)))
          (fun a => .ok (operator a)) fuel startSet = .ok result ∧
        ∀ a, Reaches operator startSet a → k a ∈ result.map k := by
  intro hall
  have hreach : Reaches (fun a => if a = 1 then [2] else []) [0, 1] 2 :=
    .next (.start (List.mem_cons_of_mem _ List.mem_cons_self)) List.mem_cons_self
  have hfinite : {c | ∃ a, Reaches (fun a => if a = 1 then [2] else []) [0, 1] a ∧
      (if a = 2 then intKey 1 else intKey 0) = c}.Finite := by
    refine (Set.toFinite {intKey 0, intKey 1}).subset ?_
    rintro _ ⟨a, -, rfl⟩
    split
    · exact .inr rfl
    · exact .inl rfl
  obtain ⟨result, fuel, hresult, hkeys⟩ := hall .int
    (fun a => if a = 2 then intKey 1 else intKey 0) (fun a => if a = 1 then [2] else []) [0, 1]
    hfinite
  have hkey := hkeys 2 hreach
  match fuel with
  | 0 | 1 | 2 => cases hresult
  | fuel + 3 =>
    obtain rfl := Except.ok.inj hresult
    exact absurd hkey (by decide)

end Closure

end KeysOfOneType

end Nix.Eval.GenericClosure
