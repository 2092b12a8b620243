import Mathlib.Data.List.Basic

/-!
Paths in trees with links, resolved component by component.
-/

namespace Nix.Lib.LinkResolution

/-- A component of a path: the directory itself, its parent, or a name in it. -/
inductive Component (κ : Type)
  | stay
  | up
  | name (k : κ)

/-- A link leads from the root or from its own directory along its target. -/
structure Link (κ : Type) where
  absolute : Bool
  target : List (Component κ)

/-- The directory in which the target of a link begins. -/
def Link.start {κ : Type} (l : Link κ) (dir : List κ) : List κ :=
  if l.absolute then [] else dir

variable {κ ε : Type} (look : List κ → κ → Except ε (Option (Except ε (Link κ))))

/-- The path that a text of components stands for, and the number of links
that it has. The target of a link is resolved before what follows the link. -/
inductive Resolves : List κ → List (Component κ) → Nat → List κ → Prop
  | nil (dir : List κ) : Resolves dir [] 0 dir
  | stay {dir rest n r} (h : Resolves dir rest n r) : Resolves dir (.stay :: rest) n r
  | up {dir rest n r} (h : Resolves dir.dropLast rest n r) : Resolves dir (.up :: rest) n r
  | name {dir k rest n r} (hk : look dir k = .ok none) (h : Resolves (dir ++ [k]) rest n r) :
      Resolves dir (.name k :: rest) n r
  | link {dir k l m mid rest n r} (hk : look dir k = .ok (some (.ok l)))
      (hl : Resolves (l.start dir) l.target m mid) (h : Resolves mid rest n r) :
      Resolves dir (.name k :: rest) (m + n + 1) r

/-- The steps of a traveller, who has only the directory and what is left to go,
with the number of links followed. -/
inductive Walks : List κ → List (Component κ) → Nat → List κ → List (Component κ) → Prop
  | refl (dir : List κ) (todo : List (Component κ)) : Walks dir todo 0 dir todo
  | stay {dir rest n dir' todo} (h : Walks dir rest n dir' todo) :
      Walks dir (.stay :: rest) n dir' todo
  | up {dir rest n dir' todo} (h : Walks dir.dropLast rest n dir' todo) :
      Walks dir (.up :: rest) n dir' todo
  | name {dir k rest n dir' todo} (hk : look dir k = .ok none)
      (h : Walks (dir ++ [k]) rest n dir' todo) : Walks dir (.name k :: rest) n dir' todo
  | link {dir k l rest n dir' todo} (hk : look dir k = .ok (some (.ok l)))
      (h : Walks (l.start dir) (l.target ++ rest) n dir' todo) :
      Walks dir (.name k :: rest) (n + 1) dir' todo

/-- The walk that may follow `n` links. -/
def walk (exceeded : ε) : Nat → List κ → List (Component κ) → Except ε (List κ)
  | _, dir, [] => .ok dir
  | n, dir, .stay :: rest => walk exceeded n dir rest
  | n, dir, .up :: rest => walk exceeded n dir.dropLast rest
  | n, dir, .name k :: rest =>
      match look dir k with
      | .error e => .error e
      | .ok none => walk exceeded n (dir ++ [k]) rest
      | .ok (some link) =>
          match n, link with
          | 0, _ => .error exceeded
          | _ + 1, .error e => .error e
          | n + 1, .ok l => walk exceeded n (l.start dir) (l.target ++ rest)
termination_by n _ todo => (n, todo.length)

/-- What the walk that may follow `n` links ends with, by where it gets. -/
inductive Ends (exceeded : ε) (n : Nat) (dir : List κ) (todo : List (Component κ)) :
    Except ε (List κ) → Prop
  | arrives {m r} (hm : m ≤ n) (h : Walks look dir todo m r []) : Ends exceeded n dir todo (.ok r)
  | exceeds {dir' k rest link} (h : Walks look dir todo n dir' (.name k :: rest))
      (hk : look dir' k = .ok (some link)) : Ends exceeded n dir todo (.error exceeded)
  | fails {m dir' k rest e} (hm : m ≤ n) (h : Walks look dir todo m dir' (.name k :: rest))
      (hk : look dir' k = .error e) : Ends exceeded n dir todo (.error e)
  | unreadable {m dir' k rest e} (hm : m < n) (h : Walks look dir todo m dir' (.name k :: rest))
      (hk : look dir' k = .ok (some (.error e))) : Ends exceeded n dir todo (.error e)

variable {look}

/-! ### Texts in a row -/

section Resolves

variable {dir mid r : List κ} {todo rest : List (Component κ)} {m n : Nat}

/-- A text that is resolved is walked through, whatever follows it. -/
theorem Resolves.walks {dir' : List κ} {todo' : List (Component κ)}
    (h : Resolves look dir todo m mid) (hrest : Walks look mid rest n dir' todo') :
    Walks look dir (todo ++ rest) (m + n) dir' todo' := by
  induction h generalizing rest n with
  | nil dir =>
    rw [Nat.zero_add]
    exact hrest
  | stay h ih => exact .stay (ih hrest)
  | up h ih => exact .up (ih hrest)
  | name hk h ih => exact .name hk (ih hrest)
  | @link dir k l m₁ mid₁ rest₁ m₂ r hk hl h ihl ih =>
    have hwalk := ihl (ih hrest)
    rw [← Nat.add_assoc] at hwalk
    rw [Nat.add_right_comm _ 1]
    exact .link hk hwalk

theorem Resolves.of_append (h : Resolves look dir (todo ++ rest) n r) :
    ∃ m₁ mid m₂, n = m₁ + m₂ ∧ Resolves look dir todo m₁ mid ∧ Resolves look mid rest m₂ r := by
  generalize htext : todo ++ rest = text at h
  induction h generalizing todo with
  | nil dir =>
    obtain ⟨rfl, rfl⟩ := List.append_eq_nil_iff.mp htext
    exact ⟨0, dir, 0, rfl, .nil dir, .nil dir⟩
  | @stay dir _ n r h ih =>
    rcases List.append_eq_cons_iff.mp htext with ⟨rfl, rfl⟩ | ⟨todo, rfl, rfl⟩
    · exact ⟨0, dir, n, (Nat.zero_add n).symm, .nil dir, .stay h⟩
    · obtain ⟨m₁, mid, m₂, hn, hm₁, hm₂⟩ := ih rfl
      exact ⟨m₁, mid, m₂, hn, .stay hm₁, hm₂⟩
  | @up dir _ n r h ih =>
    rcases List.append_eq_cons_iff.mp htext with ⟨rfl, rfl⟩ | ⟨todo, rfl, rfl⟩
    · exact ⟨0, dir, n, (Nat.zero_add n).symm, .nil dir, .up h⟩
    · obtain ⟨m₁, mid, m₂, hn, hm₁, hm₂⟩ := ih rfl
      exact ⟨m₁, mid, m₂, hn, .up hm₁, hm₂⟩
  | @name dir k _ n r hk h ih =>
    rcases List.append_eq_cons_iff.mp htext with ⟨rfl, rfl⟩ | ⟨todo, rfl, rfl⟩
    · exact ⟨0, dir, n, (Nat.zero_add n).symm, .nil dir, .name hk h⟩
    · obtain ⟨m₁, mid, m₂, hn, hm₁, hm₂⟩ := ih rfl
      exact ⟨m₁, mid, m₂, hn, .name hk hm₁, hm₂⟩
  | @link dir k l m mid₀ _ n r hk hl h _ ih =>
    rcases List.append_eq_cons_iff.mp htext with ⟨rfl, rfl⟩ | ⟨todo, rfl, rfl⟩
    · exact ⟨0, dir, m + n + 1, (Nat.zero_add _).symm, .nil dir, .link hk hl h⟩
    · obtain ⟨m₁, mid, m₂, rfl, hm₁, hm₂⟩ := ih rfl
      exact ⟨m + m₁ + 1, mid, m₂, by omega, .link hk hl hm₁, hm₂⟩

/-- Resolving a text is walking it to its end. -/
theorem resolves_iff_walks : Resolves look dir todo n r ↔ Walks look dir todo n r [] := by
  constructor
  · intro h
    have hwalk := h.walks (.refl r [])
    rwa [List.append_nil, Nat.add_zero] at hwalk
  · intro h
    generalize hend : ([] : List (Component κ)) = rest at h
    induction h with
    | refl dir todo =>
      subst hend
      exact .nil dir
    | stay h ih => exact .stay (ih hend)
    | up h ih => exact .up (ih hend)
    | name hk h ih => exact .name hk (ih hend)
    | link hk h ih =>
      obtain ⟨m₁, mid, m₂, rfl, hm₁, hm₂⟩ := (ih hend).of_append
      exact .link hk hm₁ hm₂

/-! ### What is resolved -/

variable {P : κ → Prop} {Q : κ → Prop}

/-- The names of the result are those that are found in the names of the text and of the targets. -/
theorem Resolves.forall_mem (hplain : ∀ dir k, Q k → look dir k = .ok none → P k)
    (htarget : ∀ dir k l, look dir k = .ok (some (.ok l)) → ∀ k', .name k' ∈ l.target → Q k')
    (h : Resolves look dir todo n r) (hdir : ∀ k ∈ dir, P k) (htodo : ∀ k, .name k ∈ todo → Q k) :
    ∀ k ∈ r, P k := by
  induction h with
  | nil dir => exact hdir
  | stay h ih => exact ih hdir fun k hk => htodo k (List.mem_cons_of_mem _ hk)
  | up h ih =>
    exact ih (fun k hk => hdir k ((List.dropLast_sublist _).subset hk))
      fun k hk => htodo k (List.mem_cons_of_mem _ hk)
  | name hk h ih =>
    refine ih (fun k' hk' => ?_) fun k hk => htodo k (List.mem_cons_of_mem _ hk)
    rcases List.mem_append.mp hk' with hin | hin
    · exact hdir k' hin
    · obtain rfl := List.mem_singleton.mp hin
      exact hplain _ _ (htodo _ List.mem_cons_self) hk
  | @link dir k l m mid rest n r hk hl h ihl ih =>
    refine ih (ihl (fun k' hk' => ?_) (htarget dir k l hk)) fun k hk =>
      htodo k (List.mem_cons_of_mem _ hk)
    rw [Link.start] at hk'
    split at hk'
    · exact absurd hk' List.not_mem_nil
    · exact hdir k' hk'

/-- No link is found on the way to a directory. -/
def Clean (look : List κ → κ → Except ε (Option (Except ε (Link κ)))) (r : List κ) : Prop :=
  ∀ dir k, dir ++ [k] <+: r → look dir k = .ok none

theorem Clean.mono (h : Clean look r) (hpre : dir <+: r) : Clean look dir :=
  fun dir' k hk => h dir' k (hk.trans hpre)

theorem clean_nil : Clean look [] := by
  intro dir k hpre
  exact absurd (List.prefix_nil.mp hpre) (by simp)

theorem Clean.concat {k : κ} (h : Clean look dir) (hk : look dir k = .ok none) :
    Clean look (dir ++ [k]) := by
  intro dir' k' hpre
  rcases List.prefix_concat_iff.mp hpre with heq | hpre
  · obtain ⟨rfl, hsingle⟩ := List.append_inj' heq rfl
    obtain rfl := List.singleton_inj.mp hsingle
    exact hk
  · exact h dir' k' hpre

/-- The path that is resolved to has no link on its way. -/
theorem Resolves.clean (h : Resolves look dir todo n r) (hdir : Clean look dir) : Clean look r := by
  induction h with
  | nil dir => exact hdir
  | stay h ih => exact ih hdir
  | up h ih => exact ih (hdir.mono (List.dropLast_prefix _))
  | name hk h ih => exact ih (hdir.concat hk)
  | @link dir k l m mid rest n r hk hl h ihl ih =>
    refine ih (ihl ?_)
    rw [Link.start]
    split
    · exact clean_nil
    · exact hdir

/-- A path without links resolves to itself. -/
theorem Clean.resolves {ks : List κ} (h : Clean look (dir ++ ks)) :
    Resolves look dir (ks.map .name) 0 (dir ++ ks) := by
  induction ks generalizing dir with
  | nil =>
    rw [List.append_nil]
    exact .nil dir
  | cons k ks ih =>
    rw [List.append_cons] at h ⊢
    exact .name (h dir k (List.prefix_append _ _)) (ih h)

end Resolves

/-! ### The walk -/

section Walk

variable {exceeded : ε} {dir : List κ} {todo : List (Component κ)} {n : Nat}

/-- The walk goes where the steps lead. -/
theorem Walks.walk_eq {m : Nat} {dir' : List κ} {todo' : List (Component κ)}
    (h : Walks look dir todo m dir' todo') (hm : m ≤ n) :
    walk look exceeded n dir todo = walk look exceeded (n - m) dir' todo' := by
  induction h generalizing n with
  | refl dir todo => rfl
  | stay h ih =>
    rw [walk]
    exact ih hm
  | up h ih =>
    rw [walk]
    exact ih hm
  | name hk h ih =>
    rw [walk, hk]
    exact ih hm
  | link hk h ih =>
    obtain ⟨n, rfl⟩ : ∃ n', n = n' + 1 := ⟨n - 1, by omega⟩
    rw [walk, hk, Nat.add_sub_add_right]
    exact ih (Nat.le_of_succ_le_succ hm)

theorem Walks.trans {m₁ m₂ : Nat} {dir₁ dir₂ : List κ} {todo₁ todo₂ : List (Component κ)}
    (h₁ : Walks look dir todo m₁ dir₁ todo₁) (h₂ : Walks look dir₁ todo₁ m₂ dir₂ todo₂) :
    Walks look dir todo (m₁ + m₂) dir₂ todo₂ := by
  induction h₁ with
  | refl dir todo =>
    rw [Nat.zero_add]
    exact h₂
  | stay h ih => exact .stay (ih h₂)
  | up h ih => exact .up (ih h₂)
  | name hk h ih => exact .name hk (ih h₂)
  | link hk h ih =>
    rw [Nat.add_right_comm]
    exact .link hk (ih h₂)

/-- The end after some steps is the end. -/
theorem Ends.of_walks {m₁ : Nat} {dir₁ : List κ} {todo₁ : List (Component κ)}
    {x : Except ε (List κ)} (hw : Walks look dir todo m₁ dir₁ todo₁) (h : Ends look exceeded n dir₁ todo₁ x) :
    Ends look exceeded (m₁ + n) dir todo x := by
  cases h with
  | arrives hm h => exact .arrives (Nat.add_le_add_left hm m₁) (hw.trans h)
  | exceeds h hk => exact .exceeds (hw.trans h) hk
  | fails hm h hk => exact .fails (Nat.add_le_add_left hm m₁) (hw.trans h) hk
  | unreadable hm h hk => exact .unreadable (Nat.add_lt_add_left hm m₁) (hw.trans h) hk

theorem ends_walk : Ends look exceeded n dir todo (walk look exceeded n dir todo) := by
  have free : ∀ {n dir todo dir₁ todo₁ x}, Walks look dir todo 0 dir₁ todo₁ →
      Ends look exceeded n dir₁ todo₁ x → Ends look exceeded n dir todo x := by
    intro n dir todo dir₁ todo₁ x hw h
    have hall := h.of_walks hw
    rwa [Nat.zero_add] at hall
  induction n, dir, todo using walk.induct look with
  | case1 n dir =>
    rw [walk]
    exact .arrives (Nat.zero_le n) (.refl dir [])
  | case2 n dir rest ih =>
    rw [walk]
    exact free (.stay (.refl dir rest)) ih
  | case3 n dir rest ih =>
    rw [walk]
    exact free (.up (.refl _ rest)) ih
  | case4 n dir k rest e hk =>
    rw [walk, hk]
    exact .fails (Nat.zero_le n) (.refl dir _) hk
  | case5 n dir k rest hk ih =>
    rw [walk, hk]
    exact free (.name hk (.refl _ rest)) ih
  | case6 dir k rest link hk =>
    rw [walk, hk]
    exact .exceeds (.refl dir _) hk
  | case7 dir k rest n e hk =>
    rw [walk, hk]
    exact .unreadable (Nat.succ_pos n) (.refl dir _) hk
  | case8 dir k rest n l hk ih =>
    rw [walk, hk]
    have hall := ih.of_walks (.link hk (.refl _ (l.target ++ rest)))
    rwa [Nat.zero_add, Nat.add_comm] at hall

/-- The walk has one end. -/
theorem walk_eq_iff {x : Except ε (List κ)} :
    walk look exceeded n dir todo = x ↔ Ends look exceeded n dir todo x := by
  constructor
  · rintro rfl
    exact ends_walk
  · intro h
    cases h with
    | arrives hm h => rw [h.walk_eq hm, walk]
    | exceeds h hk => rw [h.walk_eq (Nat.le_refl n), walk, hk, Nat.sub_self]
    | fails hm h hk => rw [h.walk_eq hm, walk, hk]
    | @unreadable m _ _ _ _ hm h hk =>
      obtain ⟨left, hleft⟩ : ∃ left, n - m = left + 1 := ⟨n - m - 1, by omega⟩
      rw [h.walk_eq (Nat.le_of_lt hm), walk, hk, hleft]

end Walk

end Nix.Lib.LinkResolution
