import Nix.Lib.Results
import Nix.Lib.Scanners
import Nix.Util.Types

/-!
String literals: the rules of the scanner that read them, and how they are printed.
-/

set_option linter.dupNamespace false

namespace Nix.Eval.StringLiterals

open Util.Types Lib.Results Lib.Scanners

def quote : UInt8 := 34

def dollar : UInt8 := 36

def backslash : UInt8 := 92

def curly : UInt8 := 123

def unescapeChar (c : UInt8) : UInt8 :=
  if c = 110 then 10 else if c = 114 then 13 else if c = 116 then 9 else c

/-- The loop of `unescapeStr`, with the value of `noNullByte`. The scanner puts a NUL after the
token. -/
def unescapeLoop : Bytes → Bytes × Bool
  | [] => ([], true)
  | c :: s =>
      if c = backslash then
        match s with
        | [] => ([0], true)
        | d :: s =>
            let (t, noNullByte) := unescapeLoop s
            (unescapeChar d :: t, noNullByte)
      else if c = 13 then
        match s with
        | [] => ([10], true)
        | d :: s =>
            let (t, noNullByte) := if d = 10 then unescapeLoop s else unescapeLoop (d :: s)
            (10 :: t, noNullByte)
      else
        let (t, noNullByte) := unescapeLoop s
        (c :: t, c ≠ 0 && noNullByte)

example : unescapeLoop [backslash, 110] = ([10], true) := by
  rw [unescapeLoop, if_pos rfl]
  rfl

theorem unescapeLoop_cons {c : UInt8} (hback : c ≠ backslash) (hcr : c ≠ 13) (s : Bytes) :
    unescapeLoop (c :: s) = (c :: (unescapeLoop s).1, c ≠ 0 && (unescapeLoop s).2) := by
  cases s <;> simp [unescapeLoop, hback, hcr]

def forceNoNullByte (s : Bytes) : Except Error Unit :=
  if (0 : UInt8) ∈ s then
    .error ⟨.error,
      ⟨"input string '%s' cannot be represented as Nix string because it contains null bytes",
        [s.flatMap fun c => if c = 0 then [226, 144, 128] else [c]]⟩⟩
  else .ok ()

def unescapeStr (s : Bytes) : Except Error Bytes := do
  let (t, noNullByte) := unescapeLoop s
  if !noNullByte then forceNoNullByte t
  return t

inductive Token
  | str (value : Bytes)
  | dollarCurly
  | quote
  | eof
  deriving DecidableEq

def char (c : UInt8) : Pattern UInt8 :=
  .oneOf (· = c)

def notIn (cs : Bytes) : Pattern UInt8 :=
  .oneOf (· ∉ cs)

def any : Pattern UInt8 :=
  .oneOf fun _ => true

/-- `[^\$\"\\]|\$[^\{\"\\]|\\{ANY}|\$\\{ANY}`. -/
def strChar : Pattern UInt8 :=
  .alt (notIn [dollar, quote, backslash])
    (.alt (.seq (char dollar) (notIn [curly, quote, backslash]))
      (.alt (.seq (char backslash) any)
        (.seq (char dollar) (.seq (char backslash) any))))

inductive StringAction
  | str
  | dollarCurly
  | quote
  | eof

def danglingRule : Rule UInt8 StringAction :=
  ⟨.seq (.star strChar) (char dollar), some (· = quote), .str⟩

def strRule : Rule UInt8 StringAction :=
  ⟨.plus strChar, none, .str⟩

def dollarCurlyRule : Rule UInt8 StringAction :=
  ⟨.seq (char dollar) (char curly), none, .dollarCurly⟩

def quoteRule : Rule UInt8 StringAction :=
  ⟨char quote, none, .quote⟩

def eofRule : Rule UInt8 StringAction :=
  ⟨.alt (char dollar) (.alt (char backslash) (.seq (char dollar) (char backslash))), none, .eof⟩

def stringRules : List (Rule UInt8 StringAction) :=
  [danglingRule, strRule, dollarCurlyRule, quoteRule, eofRule]

/-- The tokens up to the first one that is not a string, and the text after it. -/
def lexString : Nat → Bytes → Except Error (List Token × Bytes)
  | 0, _ => .error .diverges
  | fuel + 1, text =>
      if text = [] then .ok ([.eof], [])
      else
        match scan stringRules text with
        | none => .error (.assertion "flex scanner jammed")
        | some (rule, n) =>
            let token := text.take (rule.taken n)
            let rest := text.drop (rule.taken n)
            match rule.action with
            | .str => do
                let value ← unescapeStr token
                let (tokens, rest) ← lexString fuel rest
                return (.str value :: tokens, rest)
            | .dollarCurly => .ok ([.dollarCurly], rest)
            | .quote => .ok ([.quote], rest)
            | .eof => .ok ([.eof], rest)

/-- What `printLiteralString` writes for a character, by the one after it. -/
def printLiteralChar (c : UInt8) (next : Option UInt8) : Bytes :=
  if c = quote ∨ c = backslash then [backslash, c]
  else if c = 10 then str "\\n"
  else if c = 13 then str "\\r"
  else if c = 9 then str "\\t"
  else if c = dollar ∧ next = some curly then [backslash, c]
  else [c]

/-- The loop of `printLiteralString`. -/
def printLoop : Bytes → Bytes
  | [] => []
  | c :: s => printLiteralChar c s.head? ++ printLoop s

/-- `printLiteralString`, with no limit of the length. -/
def printLiteralString (string : Bytes) : Bytes :=
  quote :: (printLoop string ++ [quote])

/-- The length of the element of a string at the beginning of a text. -/
def elementLength : Bytes → Option Nat
  | [] => none
  | c :: s =>
      if c = dollar then
        match s with
        | [] => none
        | d :: s =>
            if d = backslash then (if s = [] then none else some 3)
            else if d = curly ∨ d = quote then none
            else some 2
      else if c = quote then none
      else if c = backslash then (if s = [] then none else some 2)
      else some 1

theorem mem_notIn {cs e : Bytes} : e ∈ (notIn cs).lang ↔ ∃ c, c ∉ cs ∧ e = [c] :=
  exists_congr fun _ => and_congr_left' decide_eq_true_iff

theorem mem_char_seq {c : UInt8} {r : Pattern UInt8} {e : Bytes} :
    e ∈ (Pattern.seq (char c) r).lang ↔ ∃ v ∈ r.lang, e = c :: v := by
  refine Language.mem_mul.trans ⟨?_, ?_⟩
  · rintro ⟨_, ⟨d, hd, rfl⟩, v, hv, rfl⟩
    obtain rfl := of_decide_eq_true hd
    exact ⟨v, hv, rfl⟩
  · rintro ⟨v, hv, rfl⟩
    exact ⟨[c], ⟨c, decide_eq_true rfl, rfl⟩, v, hv, rfl⟩

theorem mem_char {c : UInt8} {e : Bytes} : e ∈ (char c).lang ↔ e = [c] := by
  constructor
  · rintro ⟨d, hd, rfl⟩
    rw [of_decide_eq_true hd]
  · rintro rfl
    exact ⟨c, decide_eq_true rfl, rfl⟩

theorem mem_any {e : Bytes} : e ∈ any.lang ↔ ∃ c, e = [c] :=
  exists_congr fun _ => and_iff_right rfl

theorem mem_strChar {e : Bytes} : e ∈ strChar.lang ↔
    (∃ c ∉ [dollar, quote, backslash], e = [c]) ∨
    (∃ c ∉ [curly, quote, backslash], e = [dollar, c]) ∨
    (∃ c, e = [backslash, c]) ∨ ∃ c, e = [dollar, backslash, c] := by
  have hany : ∀ f : Bytes → Bytes, (∃ v ∈ any.lang, e = f v) ↔ ∃ c, e = f [c] := by
    intro f
    constructor
    · rintro ⟨v, hv, rfl⟩
      obtain ⟨c, rfl⟩ := mem_any.mp hv
      exact ⟨c, rfl⟩
    · rintro ⟨c, rfl⟩
      exact ⟨[c], mem_any.mpr ⟨c, rfl⟩, rfl⟩
  rw [strChar, Pattern.lang, Language.mem_add, Pattern.lang, Language.mem_add, Pattern.lang,
    Language.mem_add, mem_notIn, mem_char_seq, mem_char_seq, mem_char_seq, hany (backslash :: ·)]
  refine or_congr Iff.rfl (or_congr ?_ (or_congr Iff.rfl ?_))
  · constructor
    · rintro ⟨v, hv, rfl⟩
      obtain ⟨c, hc, rfl⟩ := mem_notIn.mp hv
      exact ⟨c, hc, rfl⟩
    · rintro ⟨c, hc, rfl⟩
      exact ⟨[c], mem_notIn.mpr ⟨c, hc, rfl⟩, rfl⟩
  · constructor
    · rintro ⟨v, hv, rfl⟩
      obtain ⟨w, hw, rfl⟩ := mem_char_seq.mp hv
      obtain ⟨c, rfl⟩ := mem_any.mp hw
      exact ⟨c, rfl⟩
    · rintro ⟨c, rfl⟩
      exact ⟨[backslash, c], mem_char_seq.mpr ⟨[c], mem_any.mpr ⟨c, rfl⟩, rfl⟩, rfl⟩

theorem elementLength_append {e : Bytes} (he : e ∈ strChar.lang) (v : Bytes) :
    elementLength (e ++ v) = some e.length := by
  rcases mem_strChar.mp he with ⟨c, hc, rfl⟩ | ⟨c, hc, rfl⟩ | ⟨c, rfl⟩ | ⟨c, rfl⟩
  · simp only [List.mem_cons, List.not_mem_nil, or_false, not_or] at hc
    simp [elementLength, hc]
  · simp only [List.mem_cons, List.not_mem_nil, or_false, not_or] at hc
    simp [elementLength, hc]
  · simp [elementLength, backslash, dollar, quote]
  · simp [elementLength]

theorem prefixFree_strChar : PrefixFree strChar.lang := by
  constructor
  · intro h
    have hlength := elementLength_append h []
    cases hlength
  · rintro a ha b hb ⟨t, rfl⟩
    have hlength := elementLength_append hb []
    rw [List.append_nil, elementLength_append ha, List.length_append] at hlength
    have hnil : t.length = 0 := Nat.add_eq_left.mp (Option.some.inj hlength).symm
    rw [List.eq_nil_of_length_eq_zero hnil, List.append_nil]

section Elements

variable {us : List Bytes} {v : Bytes}

theorem elements_append {us' : List Bytes} {v' : Bytes} (hus : ∀ u ∈ us, u ∈ strChar.lang)
    (hv : elementLength v = none) (hus' : ∀ u ∈ us', u ∈ strChar.lang)
    (h : us.flatten ++ v = us'.flatten ++ v') : ∃ ws, us = us' ++ ws := by
  rcases prefixFree_strChar.comparable hus hus' h with ⟨ws, rfl⟩ | hws
  · cases ws with
    | nil => exact ⟨[], by rw [List.append_nil, List.append_nil]⟩
    | cons w ws =>
      rw [List.flatten_append, List.append_assoc, List.flatten_cons, List.append_assoc] at h
      have hw : w ∈ strChar.lang := hus' w (List.mem_append_right _ List.mem_cons_self)
      rw [List.append_cancel_left h, elementLength_append hw] at hv
      cases hv
  · exact hws

theorem eq_of_mem_danglingRule {u v' : Bytes} (hus : ∀ u ∈ us, u ∈ strChar.lang)
    (hv : elementLength v = none) (h : us.flatten ++ v = u ++ v')
    (hu : u ∈ danglingRule.whole.lang) :
    u = us.flatten ++ [dollar, quote] ∧ v = dollar :: quote :: v' := by
  obtain ⟨a, ha, b, ⟨c, hc, rfl⟩, rfl⟩ := Language.mem_mul.mp hu
  obtain rfl := of_decide_eq_true hc
  obtain ⟨x, hx, y, hy, rfl⟩ := Language.mem_mul.mp ha
  obtain rfl := mem_char.mp hy
  obtain ⟨us', rfl, hus'⟩ := Language.mem_kstar.mp hx
  rw [List.append_assoc, List.append_assoc] at h
  obtain ⟨ws, rfl⟩ := elements_append hus hv hus' h
  rw [List.flatten_append, List.append_assoc] at h
  have htail : ws.flatten ++ v = dollar :: quote :: v' := List.append_cancel_left h
  cases ws with
  | nil => exact ⟨by rw [List.append_nil, List.append_assoc]; rfl, htail⟩
  | cons w ws =>
    -- no element begins with a dollar sign and a quote
    have hw : w ∈ strChar.lang := hus w (List.mem_append_right _ List.mem_cons_self)
    have hlength := elementLength_append hw (ws.flatten ++ v)
    rw [List.flatten_cons, List.append_assoc] at htail
    rw [htail] at hlength
    cases hlength

theorem length_le_of_mem_strRule {u v' : Bytes} (hus : ∀ u ∈ us, u ∈ strChar.lang)
    (hv : elementLength v = none) (h : us.flatten ++ v = u ++ v')
    (hu : u ∈ strRule.whole.lang) : us ≠ [] ∧ u.length ≤ us.flatten.length := by
  obtain ⟨x, hx, y, hy, rfl⟩ := Language.mem_mul.mp hu
  obtain ⟨us', rfl, hus'⟩ := Language.mem_kstar.mp hy
  rw [← List.flatten_cons] at h ⊢
  obtain ⟨ws, rfl⟩ := elements_append hus hv (List.forall_mem_cons.mpr ⟨hx, hus'⟩) h
  refine ⟨List.cons_ne_nil _ _, ?_⟩
  rw [List.flatten_append, List.length_append]
  exact Nat.le_add_right _ _

theorem length_le_of_mem_otherRules {r : Rule UInt8 StringAction}
    (hr : r ∈ [dollarCurlyRule, quoteRule, eofRule]) {u v' : Bytes} (hu : u ∈ r.whole.lang) :
    u.length ≤ 2 ∧ ∀ k, elementLength (u ++ v') = some k → u.length ≤ k := by
  simp only [List.mem_cons, List.not_mem_nil, or_false] at hr
  rcases hr with rfl | rfl | rfl
  · obtain ⟨v, hv, rfl⟩ := mem_char_seq.mp hu
    obtain rfl := mem_char.mp hv
    exact ⟨Nat.le_refl 2, nofun⟩
  · obtain rfl := mem_char.mp hu
    exact ⟨Nat.le_succ 1, nofun⟩
  · have hpos : ∀ {t k}, elementLength t = some k → 1 ≤ k := by
      intro t k hk
      rcases Nat.eq_zero_or_pos k with rfl | hpos
      · unfold elementLength at hk
        split at hk
        next => cases hk
        next => split_ifs at hk <;> (try split at hk) <;> (try split_ifs at hk) <;> cases hk
      · exact hpos
    rcases (Language.mem_add _ _ _).mp hu with hu | hu
    · obtain rfl := mem_char.mp hu
      exact ⟨Nat.le_succ 1, fun k hk => hpos hk⟩
    · rcases (Language.mem_add _ _ _).mp hu with hu | hu
      · obtain rfl := mem_char.mp hu
        exact ⟨Nat.le_succ 1, fun k hk => hpos hk⟩
      · obtain ⟨v, hv, rfl⟩ := mem_char_seq.mp hu
        obtain rfl := mem_char.mp hv
        refine ⟨Nat.le_refl 2, fun k hk => ?_⟩
        cases v' with
        | nil => cases hk
        | cons c v' =>
          cases hk
          exact Nat.le_succ 2

end Elements

theorem printLiteralChar_cases (c : UInt8) (next : Option UInt8) :
    (∃ d, printLiteralChar c next = [backslash, d]) ∨
      printLiteralChar c next = [c] ∧ c ≠ quote ∧ c ≠ backslash ∧
        (c = dollar → next ≠ some curly) := by
  unfold printLiteralChar
  split_ifs with hspecial hlf hcr htab hcurly
  · exact .inl ⟨c, rfl⟩
  · exact .inl ⟨110, rfl⟩
  · exact .inl ⟨114, rfl⟩
  · exact .inl ⟨116, rfl⟩
  · exact .inl ⟨c, rfl⟩
  · obtain ⟨hquote, hback⟩ := not_or.mp hspecial
    exact .inr ⟨rfl, hquote, hback, fun hc hnext => hcurly ⟨hc, hnext⟩⟩

theorem printLiteralChar_dollar {next : Option UInt8} (h : next ≠ some curly) :
    printLiteralChar dollar next = [dollar] := by
  rw [printLiteralChar, if_neg (by decide), if_neg (by decide), if_neg (by decide),
    if_neg (by decide), if_neg fun hcurly => h hcurly.2]

theorem printLiteralChar_mem {c : UInt8} {next : Option UInt8}
    (h : c ≠ dollar ∨ next = some curly) : printLiteralChar c next ∈ strChar.lang := by
  rw [mem_strChar]
  rcases printLiteralChar_cases c next with hback | ⟨hself, hquote, hback, hcurly⟩
  · exact .inr (.inr (.inl hback))
  · have hdollar : c ≠ dollar := by
      rintro rfl
      exact h.elim (absurd rfl) (hcurly rfl)
    refine .inl ⟨c, ?_, hself⟩
    simp [hdollar, hquote, hback]

theorem dollar_printLiteralChar_mem {c : UInt8} {next : Option UInt8} (h : c ≠ curly) :
    dollar :: printLiteralChar c next ∈ strChar.lang := by
  rw [mem_strChar]
  rcases printLiteralChar_cases c next with ⟨d, hd⟩ | ⟨hself, hquote, hback, -⟩
  · exact .inr (.inr (.inr ⟨d, by rw [hd]⟩))
  · refine .inr (.inl ⟨c, ?_, by rw [hself]⟩)
    simp [h, hquote, hback]

theorem exists_elements (s : Bytes) :
    ∃ us : List Bytes, (∀ u ∈ us, u ∈ strChar.lang) ∧
      (printLoop s = us.flatten ∨ printLoop s = us.flatten ++ [dollar]) := by
  have hcons : ∀ {u t t' : Bytes}, u ∈ strChar.lang → t' = u ++ t →
      (∃ us : List Bytes, (∀ u ∈ us, u ∈ strChar.lang) ∧
        (t = us.flatten ∨ t = us.flatten ++ [dollar])) →
      ∃ us : List Bytes, (∀ u ∈ us, u ∈ strChar.lang) ∧
        (t' = us.flatten ∨ t' = us.flatten ++ [dollar]) := by
    rintro u t t' hu rfl ⟨us, hus, ht⟩
    refine ⟨u :: us, List.forall_mem_cons.mpr ⟨hu, hus⟩, ?_⟩
    rw [List.flatten_cons, List.append_assoc]
    exact ht.imp (congrArg (u ++ ·)) (congrArg (u ++ ·))
  induction s using List.twoStepInduction with
  | nil => exact ⟨[], fun _ h => absurd h List.not_mem_nil, .inl rfl⟩
  | singleton c =>
    rcases eq_or_ne c dollar with rfl | hc
    · exact ⟨[], fun _ h => absurd h List.not_mem_nil, .inr rfl⟩
    · exact hcons (printLiteralChar_mem (.inl hc)) rfl
        ⟨[], fun _ h => absurd h List.not_mem_nil, .inl rfl⟩
  | cons_cons c d s ih ihd =>
    rcases eq_or_ne c dollar with rfl | hc
    · rcases eq_or_ne d curly with rfl | hd
      · exact hcons (printLiteralChar_mem (.inr rfl)) rfl (ihd curly)
      · -- the dollar sign and the next character make one element
        refine hcons (@dollar_printLiteralChar_mem d s.head? hd) ?_ ih
        have hnext : (d :: s).head? ≠ some curly := fun h => hd (Option.some.inj h)
        rw [printLoop, printLiteralChar_dollar hnext, printLoop]
        rfl
    · exact hcons (printLiteralChar_mem (.inl hc)) rfl (ihd d)

theorem unescapeLoop_printLoop {s : Bytes} (h : (0 : UInt8) ∉ s) :
    unescapeLoop (printLoop s) = (s, true) := by
  induction s with
  | nil => rfl
  | cons c s ih =>
    obtain ⟨hzero, hs⟩ := not_or.mp (mt List.mem_cons.mpr h)
    have hesc : ∀ d, unescapeChar d = c →
        unescapeLoop ([backslash, d] ++ printLoop s) = (c :: s, true) := by
      intro d hd
      simp [unescapeLoop, ih hs, hd]
    rw [printLoop]
    unfold printLiteralChar
    split_ifs with hspecial hlf hcr htab hcurly
    · refine hesc c ?_
      rcases hspecial with rfl | rfl <;> rfl
    · exact hesc 110 hlf.symm
    · exact hesc 114 hcr.symm
    · exact hesc 116 htab.symm
    · refine hesc c ?_
      rw [hcurly.1]
      rfl
    · obtain ⟨-, hback⟩ := not_or.mp hspecial
      show unescapeLoop (c :: printLoop s) = _
      rw [unescapeLoop_cons hback hcr, ih hs]
      simp [Ne.symm hzero]

theorem unescapeStr_printLoop {s : Bytes} (h : (0 : UInt8) ∉ s) :
    unescapeStr (printLoop s) = .ok s := by
  rw [unescapeStr, unescapeLoop_printLoop h]
  rfl

theorem scan_quote (rest : Bytes) :
    scan stringRules (quote :: rest) = some (quoteRule, 1) := by
  have hnil : ∀ u ∈ ([] : List Bytes), u ∈ strChar.lang := fun _ h => absurd h List.not_mem_nil
  have hquote : elementLength (quote :: rest) = none := rfl
  refine @scan_eq_some _ _ [danglingRule, strRule, dollarCurlyRule] [eofRule] quoteRule _ _ ?_ ?_ ?_
  · refine @Pattern.longest_append _ (char quote) [quote] rest (mem_char.mpr rfl) ?_
    intro u v h hu
    rw [mem_char.mp hu]
  · intro r hr u v h hu
    simp only [List.mem_cons, List.not_mem_nil, or_false] at hr
    rcases hr with rfl | rfl | rfl
    · cases (eq_of_mem_danglingRule hnil hquote h hu).2
    · exact absurd rfl (length_le_of_mem_strRule hnil hquote h hu).1
    · obtain ⟨w, -, rfl⟩ := mem_char_seq.mp hu
      cases h
  · intro r hr u v h hu
    obtain rfl := List.mem_singleton.mp hr
    rcases (Language.mem_add _ _ _).mp hu with hu | hu
    · obtain rfl := mem_char.mp hu
      cases h
    · rcases (Language.mem_add _ _ _).mp hu with hu | hu
      · obtain rfl := mem_char.mp hu
        cases h
      · obtain ⟨w, -, rfl⟩ := mem_char_seq.mp hu
        cases h

theorem scan_elements {us : List Bytes} (hus : ∀ u ∈ us, u ∈ strChar.lang) (hne : us ≠ [])
    (rest : Bytes) :
    scan stringRules (us.flatten ++ quote :: rest) = some (strRule, us.flatten.length) := by
  have hquote : elementLength (quote :: rest) = none := rfl
  obtain ⟨u₀, us, rfl⟩ := List.exists_cons_of_ne_nil hne
  obtain ⟨hu₀, hrest⟩ := List.forall_mem_cons.mp hus
  refine @scan_eq_some _ _ [danglingRule] [dollarCurlyRule, quoteRule, eofRule] strRule _ _ ?_ ?_ ?_
  · refine Pattern.longest_append ?_ ?_
    · exact Language.append_mem_mul hu₀ (Language.join_mem_kstar hrest)
    · exact fun u v h hu => (length_le_of_mem_strRule hus hquote h hu).2
  · intro r hr u v h hu
    obtain rfl := List.mem_singleton.mp hr
    cases (eq_of_mem_danglingRule hus hquote h hu).2
  · intro r hr u v h hu
    have hlength : elementLength (u ++ v) = some u₀.length := by
      rw [← h, List.flatten_cons, List.append_assoc, elementLength_append hu₀]
    have hle := (length_le_of_mem_otherRules hr hu).2 _ hlength
    rw [List.flatten_cons, List.length_append]
    omega

theorem scan_dangling {us : List Bytes} (hus : ∀ u ∈ us, u ∈ strChar.lang) (rest : Bytes) :
    scan stringRules (us.flatten ++ dollar :: quote :: rest) =
      some (danglingRule, us.flatten.length + 2) := by
  have hdollar : elementLength (dollar :: quote :: rest) = none := rfl
  refine @scan_eq_some _ _ [] [strRule, dollarCurlyRule, quoteRule, eofRule] danglingRule _ _
    ?_ (fun r hr => absurd hr List.not_mem_nil) ?_
  · have hsplit : us.flatten ++ dollar :: quote :: rest =
        us.flatten ++ [dollar, quote] ++ rest := by
      rw [List.append_assoc]
      rfl
    have hlength : us.flatten.length + 2 = (us.flatten ++ [dollar, quote]).length := by
      rw [List.length_append]
      rfl
    rw [hsplit, hlength]
    refine Pattern.longest_append ?_ fun u v h hu => ?_
    · have hstar : us.flatten ++ [dollar] ∈ (Pattern.seq (.star strChar) (char dollar)).lang :=
        Language.append_mem_mul (Language.join_mem_kstar hus) (mem_char.mpr rfl)
      have hmem := Language.append_mem_mul hstar (mem_char.mpr (rfl : [quote] = [quote]))
      rwa [List.append_assoc] at hmem
    · rw [← hsplit] at h
      rw [(eq_of_mem_danglingRule hus hdollar h hu).1]
  · intro r hr u v h hu
    rcases List.mem_cons.mp hr with rfl | hr
    · have hle := (length_le_of_mem_strRule hus hdollar h hu).2
      omega
    · have hle := (@length_le_of_mem_otherRules r hr u v hu).1
      omega

theorem lexString_quote (fuel : Nat) (rest : Bytes) :
    lexString (fuel + 1) (quote :: rest) = .ok ([.quote], rest) := by
  rw [lexString, if_neg (List.cons_ne_nil _ _), scan_quote]
  rfl

/-- A printed string is read back as one string, or as none if it is empty. -/
theorem lexString_printLiteralString {s : Bytes} (h : (0 : UInt8) ∉ s) (rest : Bytes) :
    ∃ (text : Bytes) (strs : List Bytes), printLiteralString s = quote :: text ∧
      lexString ((text ++ rest).length + 1) (text ++ rest) =
        .ok (strs.map .str ++ [.quote], rest) ∧
      strs.flatten = s := by
  have hvalue := unescapeStr_printLoop h
  obtain ⟨us, hus, hprint⟩ := exists_elements s
  refine ⟨printLoop s ++ [quote], ?_⟩
  have htext : printLoop s ++ [quote] ++ rest = printLoop s ++ quote :: rest := by
    rw [List.append_assoc]
    rfl
  have hstr : ∀ rule : Rule UInt8 StringAction, rule.action = .str → ∀ n,
      rule.taken n = (printLoop s).length →
      scan stringRules (printLoop s ++ quote :: rest) = some (rule, n) →
      lexString ((printLoop s ++ quote :: rest).length + 1) (printLoop s ++ quote :: rest) =
        .ok ([.str s, .quote], rest) := by
    intro rule haction n htaken hscan
    rw [lexString, if_neg (List.append_ne_nil_of_right_ne_nil _ (List.cons_ne_nil _ _)), hscan]
    dsimp only
    rw [haction, htaken, List.take_left, List.drop_left, hvalue]
    have hquote : lexString (printLoop s ++ quote :: rest).length (quote :: rest) =
        .ok ([.quote], rest) := by
      rw [List.length_append, List.length_cons, ← Nat.add_assoc]
      exact lexString_quote _ rest
    show (do
      let (tokens, rest) ← lexString (printLoop s ++ quote :: rest).length (quote :: rest)
      return (Token.str s :: tokens, rest)) = _
    rw [hquote]
    rfl
  rw [htext]
  rcases eq_or_ne us [] with rfl | hne
  · rcases hprint with hprint | hprint
    · rw [hprint, unescapeStr] at hvalue
      obtain rfl : s = [] := (Except.ok.inj hvalue).symm
      exact ⟨[], rfl, lexString_quote _ rest, rfl⟩
    · refine ⟨[s], rfl, hstr danglingRule rfl 2 ?_ ?_, List.append_nil s⟩
      · rw [hprint]
        rfl
      · rw [hprint]
        exact scan_dangling hus rest
  · rcases hprint with hprint | hprint
    · refine ⟨[s], rfl, hstr strRule rfl (printLoop s).length rfl ?_, List.append_nil s⟩
      rw [hprint]
      exact scan_elements hus hne rest
    · refine ⟨[s], rfl, hstr danglingRule rfl (us.flatten.length + 2) ?_ ?_, List.append_nil s⟩
      · rw [hprint, List.length_append]
        rfl
      · rw [hprint, List.append_assoc]
        exact scan_dangling hus rest

theorem lexString_printLiteralString_special :
    ∃ (text : Bytes) (strs : List Bytes),
      printLiteralString (str "$$\x7b\\\"$\n$") = quote :: text ∧
      lexString ((text ++ str "\x7d").length + 1) (text ++ str "\x7d") =
        .ok (strs.map .str ++ [.quote], str "\x7d") ∧
      strs.flatten = str "$$\x7b\\\"$\n$" :=
  lexString_printLiteralString (by decide) _

end Nix.Eval.StringLiterals
