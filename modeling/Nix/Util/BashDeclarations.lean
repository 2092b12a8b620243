import Nix.Lib.SortedMaps
import Nix.Util.ShellWords

/-!
What bash reads in a script of `declare` commands. A command with other
expansions or of another form is not read.
-/

set_option linter.dupNamespace false

namespace Nix.Util.BashDeclarations

open Util.Types Util.Strings Util.ShellWords Lib.SortedList

inductive Variable
  | scalar (value : Bytes)
  | indexed (values : List Bytes)
  | associative (values : SortedMap (compare : Bytes → Bytes → Ordering) Bytes)
  deriving DecidableEq

/-- The variables of a shell. -/
abbrev Variables := SortedMap (compare : Bytes → Bytes → Ordering) Variable

def isNameByte (c : UInt8) : Bool :=
  65 ≤ c && c ≤ 90 || 97 ≤ c && c ≤ 122 || c = 95 || isDigit c

def isName : Bytes → Bool
  | [] => false
  | c :: s => isNameByte c && !isDigit c && s.all isNameByte

def isBlank (c : UInt8) : Bool := c = 32 || c = 9 || c = 10

def isPlain (c : UInt8) : Bool := isNameByte c || c ∈ str "-+.,/:@%"

def closing : UInt8 := 41

/-- Words of a list in parentheses end at blanks and at the closing one. -/
def endsElement (c : UInt8) : Bool := isBlank c || c = closing

def endsSubscript (c : UInt8) : Bool := c = 93

/-- How the next byte is quoted. -/
inductive Quotes
  | closed
  | opened
  | escaped

/-- A word up to an unquoted byte that ends it, without its quotes, and the rest of the text. -/
def readWord (ends : UInt8 → Bool) : Quotes → Bytes → Option (Bytes × Bytes)
  | .closed, [] => some ([], [])
  | .opened, [] | .escaped, [] => none
  | .escaped, c :: s =>
      -- A quoted newline continues the line.
      if c = 10 then readWord ends .closed s
      else (readWord ends .closed s).map (Prod.map (c :: ·) id)
  | .opened, c :: s =>
      if c = singleQuote then readWord ends .closed s
      else (readWord ends .opened s).map (Prod.map (c :: ·) id)
  | .closed, c :: s =>
      if ends c then some ([], c :: s)
      else if c = singleQuote then readWord ends .opened s
      else if c = backslash then readWord ends .escaped s
      else if isPlain c then (readWord ends .closed s).map (Prod.map (c :: ·) id)
      else none

def expect (start text : Bytes) : Option Bytes :=
  if start <+: text then some (text.drop start.length) else none

def readElements : Nat → Bytes → Option (List Bytes × Bytes)
  | 0, _ => none
  | fuel + 1, text =>
      match text.dropWhile isBlank with
      | [] => none
      | c :: s =>
          if c = closing then some ([], s)
          else do
            let (value, rest) ← readWord endsElement .closed (c :: s)
            let (values, rest) ← readElements fuel rest
            return (value :: values, rest)

/-- The elements of an associative array, `[subscript]=value`. -/
def readSubscripts : Nat → Bytes → Option (List (Bytes × Bytes) × Bytes)
  | 0, _ => none
  | fuel + 1, text =>
      match text.dropWhile isBlank with
      | [] => none
      | c :: s =>
          if c = closing then some ([], s)
          else do
            let rest ← expect (str "[") (c :: s)
            let (subscript, rest) ← readWord endsSubscript .closed rest
            let rest ← expect (str "]=") rest
            let (value, rest) ← readWord endsElement .closed rest
            let (values, rest) ← readSubscripts fuel rest
            return ((subscript, value) :: values, rest)

def readName (text : Bytes) : Option (Bytes × Bytes) := do
  let name := text.takeWhile isNameByte
  let rest ← expect (str "=") (text.drop name.length)
  if isName name then some (name, rest) else none

def readScalar (text : Bytes) : Option ((Bytes × Variable) × Bytes) := do
  let (name, rest) ← readName text
  let (value, rest) ← readWord isBlank .closed rest
  let rest ← expect (str "\n") rest
  return ((name, .scalar value), rest)

def readIndexed (text : Bytes) : Option ((Bytes × Variable) × Bytes) := do
  let (name, rest) ← readName text
  let rest ← expect (str "(") rest
  let (values, rest) ← readElements text.length rest
  let rest ← expect (str "\n") rest
  return ((name, .indexed values), rest)

/-- An element with an empty subscript is an error, and is left out. -/
def readAssociative (text : Bytes) : Option ((Bytes × Variable) × Bytes) := do
  let (name, rest) ← readName text
  let rest ← expect (str "(") rest
  let (values, rest) ← readSubscripts text.length rest
  let rest ← expect (str "\n") rest
  return ((name, .associative (.ofList (values.filter (·.1 ≠ [])))), rest)

def readDeclaration (text : Bytes) : Option ((Bytes × Variable) × Bytes) :=
  match expect (str "declare -a ") text, expect (str "declare -A ") text with
  | some rest, _ => readIndexed rest
  | none, some rest => readAssociative rest
  | none, none => (expect (str "declare ") text).bind readScalar

def readDeclarations : Nat → Bytes → Option (List (Bytes × Variable))
  | _, [] => some []
  | 0, _ :: _ => none
  | fuel + 1, c :: s => do
      let (declared, rest) ← readDeclaration (c :: s)
      let declarations ← readDeclarations fuel rest
      return declared :: declarations

/-- The variables that a script defines. Bash leaves out the NUL bytes of a script. -/
def source (text : Bytes) : Option Variables :=
  let text := text.filter (· ≠ 0)
  (readDeclarations text.length text).map .ofList

example : source (str "declare x='a b'\\''c'\ndeclare -a y=(1 '' -2)\ndeclare -A z=(['k']= )\n") =
    some (.ofList [(str "x", .scalar (str "a b'c")),
      (str "y", .indexed [str "1", [], str "-2"]),
      (str "z", .associative (.ofList [(str "k", [])]))]) := by decide

/-- Words whose bytes are quoted or plain do not end early. -/
structure Ordinary (ends : UInt8 → Bool) : Prop where
  quote : ends singleQuote = false
  escape : ends backslash = false
  plain : ∀ c, isPlain c = true → ends c = false

theorem ordinary_of_mem {ends : UInt8 → Bool} (stops : List UInt8)
    (h : ∀ c, ends c = true → c ∈ stops)
    (hstops : ∀ c ∈ stops, c ≠ singleQuote ∧ c ≠ backslash ∧ isPlain c = false) :
    Ordinary ends := by
  have hends : ∀ c, (c ∈ stops → False) → ends c = false := fun c hc =>
    Bool.eq_false_iff.mpr fun heq => hc (h c heq)
  refine ⟨hends _ fun hc => (hstops _ hc).1 rfl, hends _ fun hc => (hstops _ hc).2.1 rfl, ?_⟩
  intro c hplain
  refine hends c fun hc => ?_
  rw [(hstops c hc).2.2] at hplain
  cases hplain

theorem ordinary_isBlank : Ordinary isBlank :=
  ordinary_of_mem [32, 9, 10] (by simp [isBlank, or_assoc]) (forall_mem_of_all (by decide))

theorem ordinary_endsElement : Ordinary endsElement :=
  ordinary_of_mem [32, 9, 10, closing] (by simp [endsElement, isBlank, or_assoc])
    (forall_mem_of_all (by decide))

theorem ordinary_endsSubscript : Ordinary endsSubscript :=
  ordinary_of_mem [93] (by simp [endsSubscript]) (forall_mem_of_all (by decide))

/-- A text that is read as a value wherever a word may end, and does not begin with a blank. -/
structure ReadsAs (text value : Bytes) : Prop where
  reads : ∀ {ends}, Ordinary ends → ∀ {c rest}, ends c = true →
    readWord ends .closed (text ++ c :: rest) = some (value, c :: rest)
  starts : ∀ c, text.head? = some c → c = singleQuote ∨ isPlain c = true

theorem readWord_end {ends : UInt8 → Bool} {c : UInt8} (hc : ends c = true) (rest : Bytes) :
    readWord ends .closed (c :: rest) = some ([], c :: rest) := by
  rw [readWord, if_pos hc]

theorem readWord_opened {ends : UInt8 → Bool} (h : Ordinary ends) (s rest : Bytes) :
    readWord ends .opened
        (s.flatMap (fun i => if i = singleQuote then str "'\\''" else [i]) ++ singleQuote :: rest) =
      (readWord ends .closed rest).map (Prod.map (s ++ ·) id) := by
  induction s with
  | nil =>
    rw [List.flatMap_nil, List.nil_append, readWord, if_pos rfl]
    exact (congrFun Option.map_id (readWord ends .closed rest)).symm
  | cons c s ih =>
    have hcons : (Prod.map (c :: s ++ ·) id : Bytes × Bytes → Bytes × Bytes) =
        Prod.map (c :: ·) id ∘ Prod.map (s ++ ·) id := rfl
    rw [List.flatMap_cons, List.append_assoc, hcons, ← Option.map_map, ← ih]
    split
    next hc =>
      -- The quotes are closed, and opened again behind the quoted quote.
      rw [hc]
      have hescape : str "'\\''" = [singleQuote, backslash, singleQuote, singleQuote] := rfl
      rw [hescape, List.cons_append, List.cons_append, List.cons_append, List.cons_append,
        List.nil_append, readWord, if_pos rfl, readWord, if_neg (by simp [h.escape]),
        if_neg (by decide), if_pos rfl, readWord, if_neg (by decide), readWord,
        if_neg (by simp [h.quote]), if_pos rfl]
    next hc =>
      rw [List.singleton_append, readWord, if_neg hc]

theorem readsAs_escapeShellArgAlways (s : Bytes) : ReadsAs (escapeShellArgAlways s) s := by
  refine ⟨fun {ends} h {c rest} hc => ?_, fun c hc => ?_⟩
  · have hopen : escapeShellArgAlways s ++ c :: rest = singleQuote ::
        (s.flatMap (fun i => if i = singleQuote then str "'\\''" else [i]) ++
          singleQuote :: c :: rest) := by
      rw [escapeShellArgAlways, List.cons_append, List.cons_append, List.append_assoc,
        List.singleton_append]
    rw [hopen, readWord, if_neg (by simp [h.quote]), if_pos rfl, readWord_opened h,
      readWord_end hc]
    simp
  · exact .inl (Option.some.inj hc).symm

theorem readsAs_of_plain {s : Bytes} (h : ∀ c ∈ s, isPlain c = true) : ReadsAs s s := by
  refine ⟨fun {ends} hends {c rest} hc => ?_, fun c hc => .inr (h c (List.mem_of_head? hc))⟩
  induction s with
  | nil => exact readWord_end hc rest
  | cons d s ih =>
    obtain ⟨hd, hs⟩ := List.forall_mem_cons.mp h
    have hquote : d ≠ singleQuote := by
      rintro rfl
      exact absurd hd (by decide)
    have hescape : d ≠ backslash := by
      rintro rfl
      exact absurd hd (by decide)
    rw [List.cons_append, readWord, if_neg (by simp [hends.plain d hd]), if_neg hquote,
      if_neg hescape, if_pos hd, ih hs]
    rfl

theorem expect_append (start rest : Bytes) : expect start (start ++ rest) = some rest := by
  rw [expect, if_pos (List.prefix_append _ _), List.drop_left]

theorem ReadsAs.head_not_blank {c : UInt8} {s value : Bytes} (h : ReadsAs (c :: s) value) :
    isBlank c = false ∧ c ≠ closing := by
  rcases h.starts c rfl with rfl | hplain
  · decide
  · refine ⟨ordinary_isBlank.plain c hplain, ?_⟩
    rintro rfl
    exact absurd hplain (by decide)

theorem readElements_blank (fuel : Nat) (s : Bytes) :
    readElements fuel (32 :: s) = readElements fuel s := by
  cases fuel with
  | zero => rfl
  | succ fuel => rw [readElements, readElements, List.dropWhile_cons_of_pos rfl]

theorem readElements_words {words : List (Bytes × Bytes)} (h : ∀ w ∈ words, ReadsAs w.1 w.2)
    {fuel : Nat} (hfuel : words.length < fuel) (rest : Bytes) :
    readElements fuel (words.flatMap (fun w => w.1 ++ str " ") ++ (str ")" ++ rest)) =
      some ((words.filter (·.1 ≠ [])).map Prod.snd, rest) := by
  induction words generalizing fuel with
  | nil =>
    obtain ⟨fuel, rfl⟩ : ∃ n, fuel = n + 1 := ⟨fuel - 1, by omega⟩
    rfl
  | cons w words ih =>
    obtain ⟨hw, hwords⟩ := List.forall_mem_cons.mp h
    obtain ⟨text, value⟩ := w
    rw [List.length_cons] at hfuel
    rw [List.flatMap_cons, List.append_assoc, List.append_assoc]
    have hspace : ∀ fuel s, readElements fuel (str " " ++ s) = readElements fuel s :=
      readElements_blank
    cases text with
    | nil =>
      rw [List.nil_append, hspace, ih hwords (by omega), List.filter_cons_of_neg (by simp)]
    | cons c s =>
      obtain ⟨fuel, rfl⟩ : ∃ n, fuel = n + 1 := ⟨fuel - 1, by omega⟩
      obtain ⟨hblank, hclosing⟩ := hw.head_not_blank
      have hread : ∀ rest, readWord endsElement .closed (c :: s ++ (str " " ++ rest)) =
          some (value, str " " ++ rest) := fun rest => hw.reads ordinary_endsElement rfl
      simp only [List.cons_append] at hread ⊢
      rw [readElements, List.dropWhile_cons_of_neg (by simp [hblank])]
      dsimp only
      rw [if_neg hclosing, hread]
      dsimp only [bind, Option.bind]
      rw [hspace, ih hwords (by omega), List.filter_cons_of_pos (by simp)]
      rfl

theorem readSubscripts_blank (fuel : Nat) (s : Bytes) :
    readSubscripts fuel (32 :: s) = readSubscripts fuel s := by
  cases fuel with
  | zero => rfl
  | succ fuel => rw [readSubscripts, readSubscripts, List.dropWhile_cons_of_pos rfl]

theorem readSubscripts_cons {text value : Bytes} (h : ReadsAs text value) (subscript : Bytes)
    (fuel : Nat) (rest : Bytes) :
    readSubscripts (fuel + 1)
        (str "[" ++ escapeShellArgAlways subscript ++ str "]=" ++ text ++ str " " ++ rest) =
      (readSubscripts fuel rest).map (Prod.map ((subscript, value) :: ·) id) := by
  have hsubscript : readWord endsSubscript .closed
      (escapeShellArgAlways subscript ++ (str "]=" ++ (text ++ (str " " ++ rest)))) =
        some (subscript, str "]=" ++ (text ++ (str " " ++ rest))) :=
    (readsAs_escapeShellArgAlways subscript).reads ordinary_endsSubscript rfl
  have hvalue : readWord endsElement .closed (text ++ (str " " ++ rest)) =
      some (value, str " " ++ rest) := h.reads ordinary_endsElement rfl
  have hblank : readSubscripts fuel (str " " ++ rest) = readSubscripts fuel rest :=
    readSubscripts_blank fuel rest
  simp only [List.append_assoc]
  have hopen : ∀ s, readSubscripts (fuel + 1) (str "[" ++ s) = do
      let rest ← expect (str "[") (str "[" ++ s)
      let (subscript, rest) ← readWord endsSubscript .closed rest
      let rest ← expect (str "]=") rest
      let (value, rest) ← readWord endsElement .closed rest
      let (values, rest) ← readSubscripts fuel rest
      return ((subscript, value) :: values, rest) := fun s => rfl
  rw [hopen, expect_append]
  dsimp only [bind, Option.bind]
  rw [hsubscript]
  dsimp only
  rw [expect_append]
  dsimp only
  rw [hvalue]
  dsimp only
  rw [hblank]
  cases readSubscripts fuel rest <;> rfl

theorem readSubscripts_words {words : List (Bytes × Bytes × Bytes)}
    (h : ∀ w ∈ words, ReadsAs w.2.1 w.2.2) {fuel : Nat} (hfuel : words.length < fuel)
    (rest : Bytes) :
    readSubscripts fuel (words.flatMap (fun w => str "[" ++ escapeShellArgAlways w.1 ++ str "]=" ++
      w.2.1 ++ str " ") ++ (str ")" ++ rest)) = some (words.map fun w => (w.1, w.2.2), rest) := by
  obtain ⟨fuel, rfl⟩ : ∃ n, fuel = n + 1 := ⟨fuel - 1, by omega⟩
  induction words generalizing fuel with
  | nil => rfl
  | cons w words ih =>
    obtain ⟨hw, hwords⟩ := List.forall_mem_cons.mp h
    rw [List.length_cons] at hfuel
    obtain ⟨fuel, rfl⟩ : ∃ n, fuel = n + 1 := ⟨fuel - 1, by omega⟩
    rw [List.flatMap_cons, List.append_assoc, readSubscripts_cons hw, ih hwords fuel (by omega)]
    rfl

theorem length_le_length_flatMap {α : Type} {l : List α} {text : α → Bytes}
    (h : ∀ a ∈ l, text a ≠ []) : l.length ≤ (l.flatMap text).length := by
  induction l with
  | nil => exact Nat.zero_le _
  | cons a l ih =>
    obtain ⟨ha, hl⟩ := List.forall_mem_cons.mp h
    have hpos := List.length_pos_of_ne_nil ha
    have hle := ih hl
    rw [List.flatMap_cons, List.length_append, List.length_cons]
    omega

section Commands

variable {name : Bytes}

theorem readName_append (hname : isName name = true) (rest : Bytes) :
    readName (name ++ (str "=" ++ rest)) = some (name, rest) := by
  have hall : ∀ c ∈ name, isNameByte c = true := by
    cases name with
    | nil => exact List.forall_mem_nil _
    | cons c s =>
      rw [isName, Bool.and_eq_true, Bool.and_eq_true, List.all_eq_true] at hname
      exact List.forall_mem_cons.mpr ⟨hname.1.1, hname.2⟩
  have htake : (name ++ (str "=" ++ rest)).takeWhile isNameByte = name := by
    rw [List.takeWhile_append_of_pos hall]
    exact List.append_nil name
  rw [readName, htake, List.drop_left, expect_append]
  exact if_pos hname

theorem readScalar_text (hname : isName name = true) {text value : Bytes} (h : ReadsAs text value)
    (rest : Bytes) : readScalar (name ++ (str "=" ++ (text ++ (str "\n" ++ rest)))) =
      some ((name, .scalar value), rest) := by
  have hvalue : readWord isBlank .closed (text ++ (str "\n" ++ rest)) =
      some (value, str "\n" ++ rest) := h.reads ordinary_isBlank rfl
  rw [readScalar, readName_append hname]
  dsimp only [bind, Option.bind]
  rw [hvalue]
  dsimp only
  rw [expect_append]
  rfl

theorem readIndexed_text (hname : isName name = true) {words : List (Bytes × Bytes)}
    (h : ∀ w ∈ words, ReadsAs w.1 w.2) (rest : Bytes) :
    readIndexed (name ++ (str "=" ++ (str "(" ++
        (words.flatMap (fun w => w.1 ++ str " ") ++ (str ")" ++ (str "\n" ++ rest)))))) =
      some ((name, .indexed ((words.filter (·.1 ≠ [])).map Prod.snd)), rest) := by
  have hlen : words.length ≤ (words.flatMap fun w : Bytes × Bytes => w.1 ++ str " ").length :=
    length_le_length_flatMap fun w _ => List.append_ne_nil_of_right_ne_nil _ (by decide)
  rw [readIndexed, readName_append hname]
  dsimp only [bind, Option.bind]
  rw [expect_append]
  dsimp only
  rw [readElements_words h]
  · dsimp only
    rw [expect_append]
    rfl
  · have hclose : 0 < (str ")").length := by decide
    simp only [List.length_append]
    omega

theorem readAssociative_text (hname : isName name = true) {words : List (Bytes × Bytes × Bytes)}
    (h : ∀ w ∈ words, ReadsAs w.2.1 w.2.2) (rest : Bytes) :
    readAssociative (name ++ (str "=" ++ (str "(" ++ (words.flatMap (fun w => str "[" ++
        escapeShellArgAlways w.1 ++ str "]=" ++ w.2.1 ++ str " ") ++
          (str ")" ++ (str "\n" ++ rest)))))) =
      some ((name, .associative (.ofList ((words.map fun w => (w.1, w.2.2)).filter (·.1 ≠ [])))),
        rest) := by
  have hlen : words.length ≤ (words.flatMap fun w : Bytes × Bytes × Bytes => str "[" ++
      escapeShellArgAlways w.1 ++ str "]=" ++ w.2.1 ++ str " ").length :=
    length_le_length_flatMap fun w _ => List.append_ne_nil_of_right_ne_nil _ (by decide)
  rw [readAssociative, readName_append hname]
  dsimp only [bind, Option.bind]
  rw [expect_append]
  dsimp only
  rw [readSubscripts_words h]
  · dsimp only
    rw [expect_append]
    rfl
  · have hclose : 0 < (str ")").length := by decide
    simp only [List.length_append]
    omega

theorem expect_option (hname : isName name = true) (option : Bytes) (rest : Bytes) :
    expect (str "declare -" ++ option) (str "declare " ++ (name ++ rest)) = none := by
  have hsplit : str "declare -" ++ option = str "declare " ++ (45 :: option) := rfl
  rw [expect, if_neg]
  rw [hsplit, List.prefix_append_right_inj]
  cases name with
  | nil => cases hname
  | cons c s =>
    rw [List.cons_append, List.cons_prefix_cons]
    rintro ⟨rfl, -⟩
    cases hname

theorem readDeclaration_scalar (hname : isName name = true) {text value : Bytes}
    (h : ReadsAs text value) (rest : Bytes) :
    readDeclaration (str "declare " ++ name ++ str "=" ++ text ++ str "\n" ++ rest) =
      some ((name, .scalar value), rest) := by
  have hindexed : ∀ rest, expect (str "declare -a ") (str "declare " ++ (name ++ rest)) = none :=
    expect_option hname (str "a ")
  have hassociative : ∀ rest,
      expect (str "declare -A ") (str "declare " ++ (name ++ rest)) = none :=
    expect_option hname (str "A ")
  simp only [List.append_assoc]
  rw [readDeclaration, hindexed, hassociative, expect_append]
  exact readScalar_text hname h rest

theorem readDeclaration_indexed (hname : isName name = true) {words : List (Bytes × Bytes)}
    (h : ∀ w ∈ words, ReadsAs w.1 w.2) (rest : Bytes) :
    readDeclaration (str "declare -a " ++ name ++ str "=(" ++
        words.flatMap (fun w => w.1 ++ str " ") ++ str ")\n" ++ rest) =
      some ((name, .indexed ((words.filter (·.1 ≠ [])).map Prod.snd)), rest) := by
  simp only [List.append_assoc]
  rw [readDeclaration, expect_append]
  exact readIndexed_text hname h rest

theorem readDeclaration_associative (hname : isName name = true)
    {words : List (Bytes × Bytes × Bytes)} (h : ∀ w ∈ words, ReadsAs w.2.1 w.2.2) (rest : Bytes) :
    readDeclaration (str "declare -A " ++ name ++ str "=(" ++ words.flatMap (fun w => str "[" ++
        escapeShellArgAlways w.1 ++ str "]=" ++ w.2.1 ++ str " ") ++ str ")\n" ++ rest) =
      some ((name, .associative (.ofList ((words.map fun w => (w.1, w.2.2)).filter (·.1 ≠ [])))),
        rest) := by
  have hoption : ∀ s, expect (str "declare -a ") (str "declare -A " ++ s) = none := fun s => rfl
  rw [List.append_assoc, List.append_assoc, List.append_assoc, List.append_assoc, readDeclaration,
    hoption, expect_append]
  exact readAssociative_text hname h rest

end Commands

theorem readDeclarations_flatMap {α : Type} {l : List α} {text : α → Bytes}
    {declared : α → Bytes × Variable}
    (h : ∀ a ∈ l, text a ≠ [] ∧ ∀ rest, readDeclaration (text a ++ rest) = some (declared a, rest))
    {fuel : Nat} (hfuel : l.length ≤ fuel) :
    readDeclarations fuel (l.flatMap text) = some (l.map declared) := by
  induction l generalizing fuel with
  | nil => rw [List.flatMap_nil, readDeclarations, List.map_nil]
  | cons a l ih =>
    obtain ⟨⟨hne, hread⟩, hl⟩ := List.forall_mem_cons.mp h
    rw [List.length_cons] at hfuel
    obtain ⟨fuel, rfl⟩ : ∃ n, fuel = n + 1 := ⟨fuel - 1, by omega⟩
    obtain ⟨c, s, hcons⟩ := List.exists_cons_of_ne_nil hne
    have hfirst := hread (l.flatMap text)
    rw [hcons, List.cons_append] at hfirst
    rw [List.flatMap_cons, hcons, List.cons_append, readDeclarations, hfirst]
    dsimp only [bind, Option.bind]
    rw [ih hl (Nat.le_of_succ_le_succ hfuel)]
    rfl

end Nix.Util.BashDeclarations
