import Mathlib.Data.List.Sort
import Nix.Util.CanonPaths
import Nix.Util.Strings

/-!
Profiles, their generations, and the routines that delete old ones.
-/

set_option linter.dupNamespace false

namespace Nix.Store.Profiles

open Util.Types Util.Strings Util.CanonPaths

abbrev GenerationNumber := UInt64

structure Generation where
  number : GenerationNumber
  /-- The last component of `path`. -/
  name : Bytes
  creationTime : Int
  deriving DecidableEq

/-- A file of the profile directory. -/
structure Entry where
  name : Bytes
  mtime : Int

/-- A profile: its directory in the order it is listed, and the text of its symlink. -/
structure Profile where
  profileDir : Bytes
  profileName : Bytes
  entries : List Entry
  nodup : (entries.map Entry.name).Nodup
  link : Option Bytes

/-- `s.find(needle)`. -/
def find (needle s : Bytes) : Option Nat :=
  s.tails.findIdx? needle.isPrefixOf

/-- The name of a generation, also where something follows it. -/
def parseName (profileName name : Bytes) : Option GenerationNumber :=
  if name.take (profileName.length + 1) ≠ profileName ++ str "-" then none
  else
    let s := name.drop (profileName.length + 1)
    match find (str "-link") s with
    | none => none
    | some p => string2Int (s.take p)

def makeName (profileName : Bytes) (num : GenerationNumber) : Bytes :=
  profileName ++ str "-" ++ decimal num.toNat ++ str "-link"

namespace Profile

variable (p : Profile)

def parse (name : Bytes) : Option GenerationNumber :=
  parseName p.profileName name

def nameOf (num : GenerationNumber) : Bytes :=
  makeName p.profileName num

def names : List Bytes :=
  p.entries.map Entry.name

def listed : List Generation :=
  p.entries.filterMap fun i => (p.parse i.name).map fun n => ⟨n, i.name, i.mtime⟩

/-- What `findGenerations` gives for the current generation. -/
def curGen : Option GenerationNumber :=
  p.link.bind p.parse

/-- `gens.sort`, which is stable. -/
def gens : List Generation :=
  p.listed.insertionSort (·.number ≤ ·.number)

def unlinkIfExists (name : Bytes) : Profile :=
  { p with
    entries := p.entries.filter (·.name ≠ name)
    nodup := p.nodup.sublist (List.filter_sublist.map Entry.name) }

def deleteGeneration (gen : GenerationNumber) : Profile :=
  p.unlinkIfExists (p.nameOf gen)

def deleteGeneration2 (gen : GenerationNumber) (dryRun : Bool) : Profile :=
  if dryRun then p else p.deleteGeneration gen

end Profile

/-- The directory after a routine, and how the routine ends. -/
abbrev Outcome := Profile × Except Error Unit

/-- Deletes the generations of the list that are to be deleted. -/
def deleteThose (toDelete : GenerationNumber → Bool) (dryRun : Bool) (gens : List Generation)
    (p : Profile) : Profile :=
  gens.foldl (fun p i => if toDelete i.number then p.deleteGeneration2 i.number dryRun else p) p

/-- There has to be a current generation where it is dereferenced. -/
def deleteGenerations (p : Profile) (gensToDelete : List GenerationNumber) (dryRun : Bool) :
    Outcome :=
  match p.curGen with
  | none => (p, .error (.assertion "*curGen"))
  | some curGen =>
      if curGen ∈ gensToDelete then
        (p, .error ⟨.error, ⟨"cannot delete current version of profile %1%", [p.profileName]⟩⟩)
      else (deleteThose (· ∈ gensToDelete) dryRun p.gens p, .ok ())

/-- `iterDropUntil`. -/
def iterDropUntil (cond : Generation → Bool) (i : List Generation) : List Generation :=
  i.dropWhile fun g => !cond g

def deleteGenerationsGreaterThan (p : Profile) (max : GenerationNumber) (dryRun : Bool) : Outcome :=
  if max = 0 then
    (p, .error ⟨.error,
      ⟨"Must keep at least one generation, otherwise the current one would be deleted", []⟩⟩)
  else
    let i := iterDropUntil (fun g => some g.number = p.curGen) p.gens.reverse
    (deleteThose (fun _ => true) dryRun (i.drop max.toNat) p, .ok ())

def deleteOldGenerations (p : Profile) (dryRun : Bool) : Outcome :=
  (deleteThose (fun n => some n ≠ p.curGen) dryRun p.gens p, .ok ())

/-- The last loop of `deleteGenerationsOlderThan`. -/
def deletePrevious (curGen : Option GenerationNumber) (t : Int) (dryRun : Bool) :
    List Generation → Profile → Outcome
  | [], p => (p, .ok ())
  | i :: gens, p =>
      if i.creationTime < t then
        deletePrevious curGen t dryRun gens
          (if some i.number ≠ curGen then p.deleteGeneration2 i.number dryRun else p)
      else (p, .error (.assertion "older(*i)"))

def deleteGenerationsOlderThan (p : Profile) (t : Int) (dryRun : Bool) : Outcome :=
  let i := iterDropUntil (·.creationTime < t) p.gens.reverse
  -- the first older one existed at the time
  deletePrevious p.curGen t dryRun (i.drop 1) p

theorem find_eq {needle s : Bytes} {c : UInt8} (hneedle : needle.head? = some c) (hs : c ∉ s)
    (rest : Bytes) : find needle (s ++ needle ++ rest) = some s.length := by
  induction s with
  | nil =>
      cases hneedle' : needle with
      | nil =>
          rw [hneedle'] at hneedle
          cases hneedle
      | cons b needle' =>
          rw [find, List.nil_append, List.cons_append, List.tails_cons, List.findIdx?_cons]
          simp
  | cons b s ih =>
      obtain ⟨hb, hs⟩ := not_or.mp (List.mem_cons.not.mp hs)
      have hfirst : needle.isPrefixOf (b :: s ++ needle ++ rest) = false := by
        cases needle with
        | nil => cases hneedle
        | cons b' needle' =>
            obtain rfl := Option.some.inj hneedle
            simp [List.isPrefixOf, hb]
      have ih := ih hs
      rw [find] at ih ⊢
      rw [List.cons_append, List.cons_append] at hfirst ⊢
      rw [List.tails_cons, List.findIdx?_cons, hfirst, ih]
      rfl

theorem parseName_makeName (profileName : Bytes) (num : GenerationNumber) :
    parseName profileName (makeName profileName num) = some num := by
  have hlen : (profileName ++ str "-").length = profileName.length + 1 := by
    rw [List.length_append]
    rfl
  have hname : makeName profileName num =
      (profileName ++ str "-") ++ (decimal num.toNat ++ str "-link" ++ []) := by
    rw [makeName, List.append_nil, List.append_assoc, List.append_assoc]
  have hdash : (45 : UInt8) ∉ decimal num.toNat := fun hin =>
    absurd (isDigit_of_mem_decimal hin) (by decide)
  have hfind : find (str "-link") (decimal num.toNat ++ str "-link" ++ []) =
      some (decimal num.toNat).length := find_eq (by rfl) hdash []
  rw [parseName, hname, List.take_left' hlen, List.drop_left' hlen, if_neg (not_not.mpr rfl)]
  simp only [hfind]
  rw [List.append_assoc, List.take_left]
  exact string2Int_decimal num

theorem makeName_injective (profileName : Bytes) : Function.Injective (makeName profileName) := by
  intro m n h
  have hparse := congrArg (parseName profileName) h
  rw [parseName_makeName, parseName_makeName] at hparse
  exact Option.some.inj hparse

namespace Profile

@[simp] theorem nameOf_deleteGeneration2 (p : Profile) (gen : GenerationNumber) (dryRun : Bool) :
    (p.deleteGeneration2 gen dryRun).nameOf = p.nameOf := by
  cases dryRun <;> rfl

theorem mem_names_deleteGeneration2 {p : Profile} {gen : GenerationNumber} {dryRun : Bool}
    {name : Bytes} : name ∈ (p.deleteGeneration2 gen dryRun).names ↔
      name ∈ p.names ∧ (dryRun = false → name ≠ p.nameOf gen) := by
  cases dryRun with
  | true => exact ⟨fun h => ⟨h, nofun⟩, And.left⟩
  | false =>
      rw [names, deleteGeneration2, if_neg Bool.false_ne_true, deleteGeneration, unlinkIfExists,
        List.mem_map, names, List.mem_map]
      constructor
      · rintro ⟨e, he, rfl⟩
        obtain ⟨hin, hne⟩ := List.mem_filter.mp he
        exact ⟨⟨e, hin, rfl⟩, fun _ => of_decide_eq_true hne⟩
      · rintro ⟨⟨e, hin, rfl⟩, hne⟩
        exact ⟨e, List.mem_filter.mpr ⟨hin, decide_eq_true (hne rfl)⟩, rfl⟩

end Profile

theorem mem_names_deleteThose {toDelete : GenerationNumber → Bool} {dryRun : Bool}
    {gens : List Generation} {p : Profile} {name : Bytes} :
    name ∈ (deleteThose toDelete dryRun gens p).names ↔ name ∈ p.names ∧
      (dryRun = false → ∀ g ∈ gens, toDelete g.number = true → name ≠ p.nameOf g.number) := by
  induction gens generalizing p with
  | nil => exact ⟨fun h => ⟨h, fun _ => nofun⟩, And.left⟩
  | cons i gens ih =>
      rw [deleteThose, List.foldl_cons, ← deleteThose, ih, List.forall_mem_cons]
      by_cases hi : toDelete i.number = true
      · rw [if_pos hi, Profile.mem_names_deleteGeneration2, Profile.nameOf_deleteGeneration2]
        constructor
        · rintro ⟨⟨hin, hne⟩, hrest⟩
          exact ⟨hin, fun hrun => ⟨fun _ => hne hrun, hrest hrun⟩⟩
        · rintro ⟨hin, hall⟩
          exact ⟨⟨hin, fun hrun => (hall hrun).1 hi⟩, fun hrun => (hall hrun).2⟩
      · rw [if_neg hi]
        constructor
        · rintro ⟨hin, hrest⟩
          exact ⟨hin, fun hrun => ⟨fun h => absurd h hi, hrest hrun⟩⟩
        · rintro ⟨hin, hall⟩
          exact ⟨hin, fun hrun => (hall hrun).2⟩

theorem deletePrevious_eq {curGen : Option GenerationNumber} {t : Int} {dryRun : Bool}
    {gens : List Generation} (h : ∀ g ∈ gens, g.creationTime < t) (p : Profile) :
    deletePrevious curGen t dryRun gens p =
      (deleteThose (fun n => some n ≠ curGen) dryRun gens p, .ok ()) := by
  induction gens generalizing p with
  | nil => rfl
  | cons i gens ih =>
      obtain ⟨hi, hgens⟩ := List.forall_mem_cons.mp h
      rw [deletePrevious, if_pos hi, ih hgens, deleteThose, deleteThose, List.foldl_cons]
      simp only [decide_eq_true_iff]

theorem deletePrevious_fails {curGen : Option GenerationNumber} {t : Int} {dryRun : Bool}
    {gens : List Generation} {g : Generation} (hg : g ∈ gens) (hold : ¬g.creationTime < t)
    (p : Profile) :
    (deletePrevious curGen t dryRun gens p).2 = .error (.assertion "older(*i)") := by
  induction gens generalizing p with
  | nil => cases hg
  | cons i gens ih =>
      rw [deletePrevious]
      split
      next hi =>
        rcases List.mem_cons.mp hg with rfl | hg
        · exact absurd hi hold
        · exact ih hg _
      next => rfl

end Nix.Store.Profiles
