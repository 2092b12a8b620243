import Nix.Eval.IndentedStrings

/-!
Escapes in indented strings: when the spaces that are removed are those of the source lines.
-/

set_option linter.dupNamespace false

namespace Nix.Eval.IndentedStrings

open Util.Types Util.CanonPaths Lib.Results Lib.Scanners Eval.StringLiterals

variable {ε : Type}

section LastLine

variable {m : Nat} {t : Trim} {s a b : Bytes}

theorem dropLastLine_of_notMem (h : newline ∉ s) : dropLastLine s = s := by
  rw [dropLastLine, rfind_eq_none h]

theorem dropLastLine_append (a : Bytes) (hb : newline ∉ b) :
    dropLastLine (a ++ newline :: b) =
      a ++ newline :: if ∀ c ∈ b, c = space then [] else b := by
  have hsplit : a ++ newline :: b = (a ++ [newline]) ++ b := by
    rw [List.append_assoc]
    rfl
  have hlen : (a ++ [newline]).length = a.length + 1 := by
    rw [List.length_append, List.length_singleton]
  rw [dropLastLine, rfind_append_cons a hb]
  dsimp only
  rw [hsplit, ← hlen, List.drop_left, List.take_left]
  split
  next => rfl
  next => rw [List.append_assoc]; rfl

theorem exists_last_newline (h : newline ∈ s) : ∃ a b, s = a ++ newline :: b ∧ newline ∉ b := by
  obtain ⟨b, a, hrev, hb⟩ := List.eq_append_cons_of_mem (List.mem_reverse.mpr h)
  refine ⟨a.reverse, b.reverse, ?_, fun hin => hb (List.mem_reverse.mp hin)⟩
  rw [← List.reverse_reverse s, hrev]
  simp

theorem chars_append (m : Nat) (t : Trim) (a b : Bytes) :
    (t.chars m (a ++ b)).2 = (t.chars m a).2 ++ ((t.chars m a).1.chars m b).2 := by
  induction a generalizing t with
  | nil => rfl
  | cons c a ih =>
    rw [List.cons_append, Trim.chars, Trim.chars]
    dsimp only
    rw [ih]
    split <;> rfl

theorem mem_of_mem_chars {c : UInt8} (h : c ∈ (t.chars m s).2) : c ∈ s := by
  induction s generalizing t with
  | nil => exact h
  | cons d s ih =>
    rw [Trim.chars] at h
    dsimp only at h
    split at h
    next =>
      rcases List.mem_cons.mp h with rfl | h
      · exact List.mem_cons_self
      · exact List.mem_cons_of_mem _ (ih h)
    next => exact List.mem_cons_of_mem _ (ih h)

theorem mem_chars {c : UInt8} (hc : c ≠ space) (h : c ∈ s) : c ∈ (t.chars m s).2 := by
  induction s generalizing t with
  | nil => exact h
  | cons d s ih =>
    rw [Trim.chars]
    dsimp only
    rcases List.mem_cons.mp h with rfl | h
    · have hcopied : (t.char m c).2 = true := by
        unfold Trim.char
        split_ifs
        · rfl
        · rfl
        · rfl
        · rfl
      rw [if_pos hcopied]
      exact List.mem_cons_self
    · split
      next => exact List.mem_cons_of_mem _ (ih h)
      next => exact ih h

theorem chars_eq {mk : UInt8 → Item ε}
    (hmk : ∀ t c, Trim.item m t (mk c) = t.char m c ∧ (mk c).piece = .inl c) (t : Trim)
    (s : Bytes) :
    (t.chars m s).1 = trimState m t (s.map mk) ∧
      (t.chars m s).2.map .inl = (trimItems m t (s.map mk)).map Item.piece := by
  induction s generalizing t with
  | nil => exact ⟨rfl, rfl⟩
  | cons c s ih =>
    obtain ⟨hstate, hout⟩ := ih (t.char m c).1
    rw [Trim.chars, List.map_cons, trimItems, (hmk t c).1]
    dsimp only
    refine ⟨?_, ?_⟩
    · rw [hstate, trimState, trimState, List.foldl_cons, (hmk t c).1]
    · split
      next => rw [List.map_cons, List.map_cons, hout, (hmk t c).2]
      next => exact hout

theorem dropLastLine_chars (ht : t.Settled) (s : Bytes) :
    dropLastLine (t.chars m s).2 = (t.chars m (dropLastLine s)).2 := by
  by_cases hin : newline ∈ s
  · obtain ⟨a, b, rfl, hb⟩ := exists_last_newline hin
    have hmk : ∀ t c, Trim.item m t (.plain c : Item Unit) = t.char m c ∧
        (Item.plain c : Item Unit).piece = .inl c := fun _ _ => ⟨rfl, rfl⟩
    have hsettled : (t.chars m a).1.Settled := by
      rw [(chars_eq hmk t a).1]
      exact settled_trimState ht m _
    have hout : ∀ b', (t.chars m (a ++ newline :: b')).2 =
        (t.chars m a).2 ++ newline :: (Trim.chars m ⟨true, 0⟩ b').2 := by
      intro b'
      have hitem : (t.chars m a).1.char m newline = (⟨true, 0⟩, true) :=
        @item_newline Unit _ hsettled m (.plain newline) rfl
      rw [chars_append, Trim.chars, hitem]
      rfl
    have hnotMem : newline ∉ (Trim.chars m ⟨true, 0⟩ b).2 := fun h => hb (mem_of_mem_chars h)
    rw [hout, dropLastLine_append _ hnotMem, dropLastLine_append a hb, hout]
    have hblank : (∀ c ∈ (Trim.chars m ⟨true, 0⟩ b).2, c = space) ↔ ∀ c ∈ b, c = space := by
      refine ⟨fun h c hc => ?_, fun h c hc => h c (mem_of_mem_chars hc)⟩
      by_contra hne
      exact hne (h c (mem_chars hne hc))
    split
    next h => rw [if_pos (hblank.mp h)]; rfl
    next h => rw [if_neg (mt hblank.mpr h)]
  · rw [dropLastLine_of_notMem hin, dropLastLine_of_notMem fun h => hin (mem_of_mem_chars h)]

/-- The elements of the parts, where the last token may lose its last line. -/
def cutItems : List (IndPart ε) → List (Item ε)
  | [] => []
  | .expr e :: es => .value e :: cutItems es
  | .str token :: es =>
      if es.isEmpty then IndPart.items (.str { token with p := dropLastLine token.p })
      else IndPart.items (.str token) ++ cutItems es

theorem item_token (m : Nat) (hasIndentation : Bool) (t : Trim) (c : UInt8) :
    Trim.item m t (if hasIndentation then .plain c else .escaped c : Item ε) = t.char m c ∧
      (if hasIndentation then .plain c else .escaped c : Item ε).piece = .inl c := by
  cases hasIndentation <;> exact ⟨rfl, rfl⟩

theorem pieces_trimParts (ht : t.Settled) (es : List (IndPart ε)) :
    (trimParts m t es).flatMap Part.pieces = (trimItems m t (cutItems es)).map Item.piece := by
  induction es generalizing t with
  | nil => rfl
  | cons e es ih =>
    cases e with
    | expr e =>
      have hvalue : t.item m (.value e) = (⟨false, 0⟩, true) := rfl
      rw [trimParts, cutItems, List.flatMap_cons, ih fun _ => rfl, trimItems, hvalue]
      rfl
    | str token =>
      obtain ⟨p, hasIndentation⟩ := token
      have hpieces : ∀ (s2 : Bytes) (es2 : List (Part ε)),
          (if s2 ≠ [] then .str s2 :: es2 else es2).flatMap Part.pieces =
            s2.map .inl ++ es2.flatMap Part.pieces := by
        intro s2 es2
        split
        next => rfl
        next h => rw [not_not.mp h]; rfl
      have hchars := chars_eq (item_token (ε := ε) m hasIndentation) t
      rw [trimParts, cutItems]
      dsimp only
      rw [hpieces]
      cases es with
      | nil =>
        have hempty : ([] : List (IndPart ε)).isEmpty = true := rfl
        rw [if_pos hempty, if_pos hempty, dropLastLine_chars ht, (hchars _).2, trimParts,
          List.flatMap_nil, List.append_nil]
        rfl
      | cons e es =>
        have hempty : ¬(e :: es).isEmpty = true := Bool.false_ne_true
        rw [if_neg hempty, if_neg hempty, (hchars p).2, (hchars p).1, trimItems_append,
          List.map_append, ih (settled_trimState ht m _)]
        rfl

end LastLine

def IndPart.IsPlain (e : IndPart ε) : Prop :=
  ∃ p, e = .str ⟨p, true⟩

/-- Escapes are not empty and have no newline before another character, and texts do not follow
each other. -/
structure WellFormed (es : List (IndPart ε)) : Prop where
  escape : ∀ p, .str ⟨p, false⟩ ∈ es → p ≠ [] ∧ (newline ∉ p ∨ p = [newline])
  apart : es.IsChain fun e e' => ¬(e.IsPlain ∧ e'.IsPlain)

theorem cutItems_append_singleton (es : List (IndPart ε)) (e : IndPart ε) :
    cutItems (es ++ [e]) = es.flatMap IndPart.items ++ cutItems [e] := by
  induction es with
  | nil => rfl
  | cons e' es ih =>
    have hempty : ¬(es ++ [e]).isEmpty = true := by simp
    cases e' with
    | expr e' =>
      rw [List.cons_append, cutItems, ih]
      rfl
    | str t =>
      rw [List.cons_append, cutItems, if_neg hempty, ih, List.flatMap_cons, List.append_assoc]

theorem removeBlankEnd_append (is : List (Item ε)) {js : List (Item ε)}
    (hjs : ∀ j ∈ js, ¬j.isNewline = true) (hne : ∃ j ∈ js, ¬j.isSpace = true) :
    joinLines (removeBlankEnd (splitLines (is ++ js))) = is ++ js := by
  obtain ⟨line, hline⟩ := getLast?_splitLines_append is hjs
  obtain ⟨j, hj, hspace⟩ := hne
  rw [removeBlankEnd_of_not_blank hline, joinLines_splitLines]
  intro hall
  exact hspace (List.all_eq_true.mp hall j (List.mem_append_right _ hj))

theorem not_isNewline_of_items {e : IndPart ε} (h : ¬e.IsPlain) :
    ∀ i ∈ e.items, ¬i.isNewline = true ∧ ¬i.isSpace = true := by
  cases e with
  | expr e =>
    intro i hi
    rw [List.mem_singleton.mp hi]
    exact ⟨nofun, nofun⟩
  | str t =>
    obtain ⟨p, hasIndentation⟩ := t
    cases hasIndentation with
    | true => exact absurd ⟨p, rfl⟩ h
    | false =>
      intro i hi
      obtain ⟨c, -, rfl⟩ := List.mem_map.mp hi
      exact ⟨nofun, nofun⟩

theorem WellFormed.items_ne_nil {es : List (IndPart ε)} (hes : WellFormed es) {e : IndPart ε}
    (he : e ∈ es) (h : ¬e.IsPlain) : ∃ i ∈ e.items, ¬i.isSpace = true := by
  have hne : e.items ≠ [] := by
    cases e with
    | expr e => exact List.cons_ne_nil _ _
    | str t =>
      obtain ⟨p, hasIndentation⟩ := t
      cases hasIndentation with
      | true => exact absurd ⟨p, rfl⟩ h
      | false => exact fun hnil => (hes.escape p he).1 (List.map_eq_nil_iff.mp hnil)
  obtain ⟨i, is, hitems⟩ := List.exists_cons_of_ne_nil hne
  have hi : i ∈ e.items := by
    rw [hitems]
    exact List.mem_cons_self
  exact ⟨i, hi, (not_isNewline_of_items h i hi).2⟩

theorem WellFormed.cutItems_eq {es : List (IndPart ε)} (hes : WellFormed es) :
    cutItems es = joinLines (removeBlankEnd (splitLines (es.flatMap IndPart.items))) := by
  rcases List.eq_nil_or_concat es with rfl | ⟨init, last, rfl⟩
  · rfl
  rw [List.concat_eq_append] at hes ⊢
  have hmem : last ∈ init ++ [last] := List.mem_append_right _ List.mem_cons_self
  rw [cutItems_append_singleton, List.flatMap_append, List.flatMap_singleton]
  by_cases hplain : last.IsPlain
  · obtain ⟨p, rfl⟩ := hplain
    have hitems : ∀ p, IndPart.items (.str ⟨p, true⟩ : IndPart ε) = p.map .plain := fun _ => rfl
    have hcut : cutItems [(.str ⟨p, true⟩ : IndPart ε)] = (dropLastLine p).map .plain := rfl
    have hnotMem : ∀ {b : Bytes}, newline ∉ b → ∀ i ∈ b.map (Item.plain : UInt8 → Item ε),
        ¬i.isNewline = true := by
      intro b hb i hi hnewline
      obtain ⟨c, hc, rfl⟩ := List.mem_map.mp hi
      exact hb (of_decide_eq_true hnewline ▸ hc)
    rw [hitems, hcut]
    by_cases hin : newline ∈ p
    · obtain ⟨a, b, rfl, hb⟩ := exists_last_newline hin
      have hsplit : splitLines (init.flatMap IndPart.items ++ (a ++ newline :: b).map .plain) =
          splitLines (init.flatMap IndPart.items ++ a.map .plain) ++ [b.map .plain] := by
        rw [List.map_append, List.map_cons, ← List.append_assoc,
          splitLines_append_newline _ _ rfl, splitLines_of_notMem (hnotMem hb)]
      have hne := splitLines_ne_nil (init.flatMap IndPart.items ++ a.map .plain)
      have hblank : (b.map (Item.plain : UInt8 → Item ε)).all Item.isSpace = true ↔
          ∀ c ∈ b, c = space := by
        rw [List.all_map, List.all_eq_true]
        exact forall₂_congr fun c _ => decide_eq_true_iff
      rw [hsplit, removeBlankEnd, dropLastLine_append a hb]
      split
      next h =>
        rw [if_pos, List.dropLast_concat, joinLines_append_singleton hne, joinLines_splitLines,
          List.append_assoc, List.map_append]
        · rfl
        · refine ⟨?_, fun line hline => ?_⟩
          · have hpos := List.length_pos_of_ne_nil hne
            rw [List.length_append, List.length_singleton]
            omega
          · rw [List.getLast?_concat] at hline
            rw [← Option.some.inj hline]
            exact hblank.mpr h
      next h =>
        rw [if_neg, joinLines_append_singleton hne, joinLines_splitLines, List.append_assoc,
          List.map_append]
        · rfl
        · rintro ⟨-, hall⟩
          exact h (hblank.mp (hall _ (by rw [List.getLast?_concat]; rfl)))
    · rw [dropLastLine_of_notMem hin]
      rcases List.eq_nil_or_concat init with rfl | ⟨init, before, rfl⟩
      · rw [List.flatMap_nil, List.nil_append, splitLines_of_notMem (hnotMem hin), removeBlankEnd,
          if_neg fun h => Nat.lt_irrefl 1 h.1, joinLines_singleton]
      · -- the part before the last text is no text
        rw [List.concat_eq_append] at hes hmem ⊢
        have hbefore : ¬before.IsPlain := by
          intro hplain
          have hchain := hes.apart
          rw [List.append_assoc] at hchain
          exact (List.isChain_cons.mp (List.isChain_append.mp hchain).2.1).1 _ rfl
            ⟨hplain, p, rfl⟩
        obtain ⟨i, hi, hspace⟩ := hes.items_ne_nil (by simp) hbefore
        rw [List.flatMap_append, List.flatMap_singleton, List.append_assoc,
          removeBlankEnd_append]
        · intro j hj
          rcases List.mem_append.mp hj with hj | hj
          · exact (not_isNewline_of_items hbefore j hj).1
          · exact hnotMem hin j hj
        · exact ⟨i, List.mem_append_left _ hi, hspace⟩
  · have hcut : cutItems [last] = last.items := by
      cases last with
      | expr e => rfl
      | str t =>
        obtain ⟨p, hasIndentation⟩ := t
        cases hasIndentation with
        | true => exact absurd ⟨p, rfl⟩ hplain
        | false =>
          have hdrop : dropLastLine p = p := by
            rcases (hes.escape p hmem).2 with hnot | rfl
            · exact dropLastLine_of_notMem hnot
            · simp [dropLastLine, rfind]
          show IndPart.items (.str ⟨dropLastLine p, false⟩) = _
          rw [hdrop]
    rw [hcut, removeBlankEnd_append _ fun j hj => (not_isNewline_of_items hplain j hj).1]
    exact hes.items_ne_nil hmem hplain

theorem WellFormed.minIndent_eq {es : List (IndPart ε)} (hes : WellFormed es) :
    minIndent es = indentation (splitLines (es.flatMap IndPart.items)) := by
  have hfold : ∀ (es' : List (IndPart ε)) (m : Measure), (∀ e ∈ es', e ∈ es) →
      es'.foldl Measure.part m = (es'.flatMap IndPart.items).foldl Measure.item m := by
    intro es' m hes'
    induction es' generalizing m with
    | nil => rfl
    | cons e es' ih =>
      obtain ⟨he, hes'⟩ := List.forall_mem_cons.mp hes'
      rw [List.foldl_cons, List.flatMap_cons, List.foldl_append, ih _ hes', measure_part]
      rintro ⟨p, hasIndentation⟩ rfl hplain
      cases hplain
      exact (hes.escape p he).1
  obtain ⟨line, lines, hlines⟩ :=
    List.exists_cons_of_ne_nil (splitLines_ne_nil (es.flatMap IndPart.items))
  rw [minIndent, hfold es {} fun e he => he, minIndent_foldl _ (Nat.le_refl _), hlines]
  have hle := indentation_le (line :: lines)
  have hrest : Measure.rest {} (line :: lines) = indentation (line :: lines) := by
    rw [Measure.rest]
    split
    next h =>
      rw [indentation_cons h.2]
      exact congrArg (min · _) (Nat.zero_add _)
    next h =>
      rw [indentation_cons_blank]
      by_contra hnot
      exact h ⟨rfl, hnot⟩
  rw [hrest]
  exact Nat.min_eq_right hle

theorem longest_of_scanAction {text : Bytes} {action : IndAction} {n : Nat}
    (h : scanAction indRules text = some (action, n)) :
    ∃ r ∈ indRules, r.action = action ∧ r.pattern.longest text = some n := by
  obtain ⟨r, hr, haction, k, hlongest, htaken⟩ := scanAction_sound h
  have hnone : r.trailing = none := by
    simp only [indRules, List.mem_cons, List.not_mem_nil, or_false] at hr
    rcases hr with rfl | rfl | rfl | rfl | rfl | rfl | rfl | rfl <;> rfl
  rw [Rule.whole, hnone] at hlongest
  rw [Rule.taken, hnone] at htaken
  exact ⟨r, hr, haction, by rw [hlongest, ← htaken]; rfl⟩

theorem longest_text {text : Bytes} {n : Nat} (h : scanAction indRules text = some (.text, n)) :
    (Pattern.plus indChar).longest text = some n := by
  obtain ⟨r, hr, haction, hlongest⟩ := longest_of_scanAction h
  simp only [indRules, List.mem_cons, List.not_mem_nil, or_false] at hr
  rcases hr with rfl | rfl | rfl | rfl | rfl | rfl | rfl | rfl
  · exact hlongest
  all_goals cases haction

theorem take_escape {text : Bytes} {n : Nat} (h : scanAction indRules text = some (.escape, n)) :
    ∃ c, text.take n = [apostrophe, apostrophe, backslash, c] := by
  obtain ⟨r, hr, haction, hlongest⟩ := longest_of_scanAction h
  simp only [indRules, List.mem_cons, List.not_mem_nil, or_false] at hr
  rcases hr with rfl | rfl | rfl | rfl | rfl | rfl | rfl | rfl
  case inr.inr.inr.inr.inl =>
    obtain ⟨u, hu, htake⟩ := mem_char_seq.mp (Pattern.take_longest hlongest).1
    obtain ⟨v, hv, rfl⟩ := mem_char_seq.mp hu
    obtain ⟨w, hw, rfl⟩ := mem_char_seq.mp hv
    obtain ⟨c, rfl⟩ := mem_any.mp hw
    exact ⟨c, htake⟩
  all_goals cases haction

theorem length_pos_of_mem_indChar {e : Bytes} (h : e ∈ indChar.lang) : e ≠ [] := by
  rcases (Language.mem_add _ _ _).mp h with h | h
  · obtain ⟨c, -, rfl⟩ := h
    exact List.cons_ne_nil _ _
  · rcases (Language.mem_add _ _ _).mp h with h | h
    · obtain ⟨v, -, rfl⟩ := mem_char_seq.mp h
      exact List.cons_ne_nil _ _
    · obtain ⟨v, -, rfl⟩ := mem_char_seq.mp h
      exact List.cons_ne_nil _ _

theorem not_text_text {text : Bytes} {n n' : Nat}
    (h : scanAction indRules text = some (.text, n))
    (h' : scanAction indRules (text.drop n) = some (.text, n')) : False := by
  obtain ⟨⟨u, v, rfl, hu, rfl⟩, hmax⟩ := Pattern.longest_eq_some (longest_text h)
  rw [List.drop_left] at h'
  obtain ⟨⟨u', v', rfl, hu', rfl⟩, -⟩ := Pattern.longest_eq_some (longest_text h')
  obtain ⟨x, hx, y, hy, rfl⟩ := Language.mem_mul.mp hu
  obtain ⟨x', hx', y', hy', rfl⟩ := Language.mem_mul.mp hu'
  obtain ⟨ys, rfl, hys⟩ := Language.mem_kstar.mp hy
  obtain ⟨ys', rfl, hys'⟩ := Language.mem_kstar.mp hy'
  have hjoined : x ++ (ys ++ x' :: ys').flatten ∈ (Pattern.plus indChar).lang := by
    refine Language.append_mem_mul hx (Language.join_mem_kstar fun z hz => ?_)
    rcases List.mem_append.mp hz with hz | hz
    · exact hys z hz
    · rcases List.mem_cons.mp hz with rfl | hz
      · exact hx'
      · exact hys' z hz
  have hle := hmax _ v' (by simp) hjoined
  have hpos := List.length_pos_of_ne_nil (length_pos_of_mem_indChar hx')
  simp only [List.flatten_append, List.flatten_cons, List.length_append] at hle
  omega

theorem unescapeStr_escape (c : UInt8) : unescapeStr [backslash, c] = .ok [unescapeChar c] := rfl

theorem wellFormed_of_lexes {text : Bytes} {es : List (IndPart ε)} (h : Lexes text es) :
    WellFormed es := by
  have hnotPlain : ∀ {action : IndAction} {yytext t}, action.token yytext = some (.ok t) →
      t.hasIndentation = true → action = .text := by
    intro action yytext t ht hindent
    cases action with
    | text => rfl
    | dollar | quotes | apostrophe =>
      cases ht
      cases hindent
    | escape =>
      obtain ⟨value, -, hvalue⟩ := bind_eq_ok.mp (Option.some.inj ht)
      cases hvalue
      cases hindent
    | dollarCurly | close => cases ht
  induction h with
  | close h => exact ⟨fun p hp => absurd hp List.not_mem_nil, List.isChain_nil⟩
  | @str text action n t es h ht hes ih =>
    refine ⟨fun p hp => ?_, List.isChain_cons.mpr ⟨?_, ih.apart⟩⟩
    · rcases List.mem_cons.mp hp with heq | hp
      · cases heq
        cases action with
        | text =>
          obtain ⟨_, -, hvalue⟩ := bind_eq_ok.mp (Option.some.inj ht)
          cases hvalue
        | dollar | quotes | apostrophe =>
          cases ht
          decide
        | escape =>
          obtain ⟨value, hvalue, heq⟩ := bind_eq_ok.mp (Option.some.inj ht)
          cases heq
          obtain ⟨c, hc⟩ := take_escape h
          rw [hc] at hvalue
          obtain rfl := Except.ok.inj ((unescapeStr_escape c).symm.trans hvalue)
          refine ⟨List.cons_ne_nil _ _, ?_⟩
          rcases eq_or_ne (unescapeChar c) newline with hn | hn
          · exact .inr (by rw [hn])
          · exact .inl fun hin => hn (List.mem_singleton.mp hin).symm
        | dollarCurly | close => cases ht
      · exact ih.escape p hp
    · rintro e he ⟨⟨p, hp⟩, ⟨q, rfl⟩⟩
      cases hp
      have htext := hnotPlain ht rfl
      cases hes with
      | close => cases he
      | expr => cases he
      | str h' ht' hes' =>
        cases he
        have htext' := hnotPlain ht' rfl
        subst htext htext'
        exact not_text_text h h'
  | expr h hes ih =>
    refine ⟨fun p hp => ?_, List.isChain_cons.mpr ⟨?_, ih.apart⟩⟩
    · rcases List.mem_cons.mp hp with heq | hp
      · cases heq
      · exact ih.escape p hp
    · rintro e he ⟨⟨p, hp⟩, -⟩
      cases hp

theorem escapesApart_splitLines (is : List (Item ε)) :
    EscapesApart is ↔ ∀ line ∈ splitLines is, EscapesApart line := by
  have hnil : EscapesApart ([] : List (Item ε)) := List.isChain_nil
  induction is with
  | nil => exact iff_of_true hnil (List.forall_mem_singleton.mpr hnil)
  | cons i is ih =>
    obtain ⟨line, lines, hlines⟩ := List.exists_cons_of_ne_nil (splitLines_ne_nil is)
    refine List.isChain_cons.trans ?_
    rw [show List.IsChain _ is ↔ _ from ih]
    by_cases hi : i.isNewline = true
    · rw [splitLines_cons_newline hi, List.forall_mem_cons, isNewline_iff.mp hi]
      exact and_congr_left fun _ => iff_of_true (fun _ _ heq => nomatch heq) hnil
    · rw [splitLines_cons hi hlines, hlines, List.forall_mem_cons, List.forall_mem_cons,
        ← and_assoc]
      refine and_congr_left fun _ => ?_
      rw [EscapesApart, EscapesApart, List.isChain_cons]
      refine and_congr_left fun _ => ?_
      -- the next element is on the same line, or is a newline
      cases is with
      | nil =>
        cases hlines
        exact Iff.rfl
      | cons j is =>
        by_cases hj : j.isNewline = true
        · rw [splitLines_cons_newline hj] at hlines
          cases hlines
          refine iff_of_true (fun j' hj' _ => ?_) (fun j' hj' => nomatch hj')
          rw [← Option.some.inj hj', isNewline_iff.mp hj]
          exact fun heq => absurd (Sum.inl.inj heq) (by decide)
        · obtain ⟨line', lines', hlines'⟩ := List.exists_cons_of_ne_nil (splitLines_ne_nil is)
          rw [splitLines_cons hj hlines'] at hlines
          cases hlines
          exact Iff.rfl

theorem mem_removeBlankEnd {lines : List (List (Item ε))} {line : List (Item ε)}
    (h : line ∈ removeBlankEnd lines) : line ∈ lines ∨ line = [] := by
  unfold removeBlankEnd at h
  split at h
  next =>
    rcases List.mem_append.mp h with h | h
    · exact .inl (List.mem_of_mem_dropLast h)
    · exact .inr (List.mem_singleton.mp h)
  next => exact .inl h

theorem mem_or_blank {lines : List (List (Item ε))} {line : List (Item ε)} (h : line ∈ lines) :
    line ∈ removeBlankEnd lines ∨ line.all Item.isSpace = true := by
  unfold removeBlankEnd
  split
  next hblank =>
    have hne : lines ≠ [] := List.ne_nil_of_mem h
    rw [← List.dropLast_concat_getLast hne] at h
    rcases List.mem_append.mp h with h | h
    · exact .inl (List.mem_append_left _ h)
    · right
      rw [List.mem_singleton.mp h]
      exact hblank.2 _ (List.getLast?_eq_some_getLast hne)
  next => exact .inl h

theorem escapesApart_blank {line : List (Item ε)} (h : line.all Item.isSpace = true) :
    EscapesApart line := by
  have happend := @escapesApart_spaces_append _ line [] (List.all_eq_true.mp h)
  rw [List.append_nil] at happend
  exact happend.mpr List.isChain_nil

theorem pieces_stripIndentation (isExprString : ε → Bool) (es : List (IndPart ε)) :
    (stripIndentation isExprString es).pieces =
      (trimParts (minIndent es) {} es).flatMap Part.pieces := by
  cases es with
  | nil => rfl
  | cons e es =>
    have hempty : ¬(e :: es).isEmpty = true := Bool.false_ne_true
    rw [stripIndentation, if_neg hempty]
    split
    next h => rw [h]; rfl
    next s h => rw [h]; exact (List.append_nil _).symm
    next e h =>
      rw [h]
      split <;> rfl
    next => rfl

/-- The result is the lines without their indentation if and only if nothing is indented, or no
newline that an escape makes is followed by a space. -/
theorem stripIndentation_iff {text : Bytes} {es : List (IndPart ε)} (h : Lexes text es)
    (isExprString : ε → Bool) :
    (stripIndentation isExprString es).pieces =
        (stripLines (es.flatMap IndPart.items)).map Item.piece ↔
      indentation (splitLines (es.flatMap IndPart.items)) = 0 ∨
        EscapesApart (es.flatMap IndPart.items) := by
  have hes := wellFormed_of_lexes h
  have hsettled : ({} : Trim).Settled := nofun
  rw [pieces_stripIndentation, hes.minIndent_eq, pieces_trimParts hsettled, hes.cutItems_eq,
    stripLines]
  generalize es.flatMap IndPart.items = is
  have hlines : ∀ line ∈ removeBlankEnd (splitLines is),
      (∀ i ∈ line, ¬i.isNewline = true) ∧ Indented (indentation (splitLines is)) line := by
    intro line hline
    rcases mem_removeBlankEnd hline with hline | rfl
    · refine ⟨notMem_of_mem_splitLines hline, ?_⟩
      by_cases hblank : line.all Item.isSpace = true
      · exact .inl hblank
      · exact .inr (indentation_le_leadingSpaces hline hblank)
    · exact ⟨fun _ hi => absurd hi List.not_mem_nil, .inl rfl⟩
  constructor
  · intro heq
    have hlength := congrArg List.length heq
    rw [List.length_map, List.length_map] at hlength
    have hall := (length_trimItems_joinLines hlines).2 hlength
    by_cases hzero : indentation (splitLines is) = 0
    · exact .inl hzero
    · refine .inr ((escapesApart_splitLines is).mpr fun line hline => ?_)
      rcases mem_or_blank hline with hline | hblank
      · exact (hall line hline).resolve_left hzero
      · exact escapesApart_blank hblank
  · intro hapart
    rw [trimItems_joinLines hlines]
    refine hapart.imp_right fun h line hline => ?_
    rcases mem_removeBlankEnd hline with hline | rfl
    · exact (escapesApart_splitLines is).mp h line hline
    · exact List.isChain_nil

def escapedLines (c : UInt8) : List (IndPart Unit) :=
  [.str ⟨str " a", true⟩, .str ⟨[c], false⟩, .str ⟨str " b", true⟩]

theorem lexes_escapedLines {c : UInt8} (hc : c ∈ [110, 120]) :
    Lexes (str " a''\\" ++ c :: str " b''") (escapedLines (unescapeChar c)) := by
  have hscans : ∀ c ∈ [110, 120], ∀ text, text = str " a''\\" ++ c :: str " b''" →
      scanAction indRules text = some (.text, 2) ∧
      scanAction indRules (text.drop 2) = some (.escape, 4) ∧
      scanAction indRules ((text.drop 2).drop 4) = some (.text, 2) ∧
      scanAction indRules (((text.drop 2).drop 4).drop 2) = some (.close, 2) := by
    simp only [forall_eq]
    decide +kernel
  obtain ⟨htext, hescape, htext', hclose⟩ := hscans c hc _ rfl
  exact .str htext rfl (.str hescape rfl (.str htext' rfl (.close hclose)))

theorem stripIndentation_iff_escapedLines :
    (stripIndentation (fun _ => false) (escapedLines 120)).pieces =
        (stripLines ((escapedLines 120).flatMap IndPart.items)).map Item.piece ↔
      indentation (splitLines ((escapedLines 120).flatMap IndPart.items)) = 0 ∨
        EscapesApart ((escapedLines 120).flatMap IndPart.items) :=
  stripIndentation_iff (@lexes_escapedLines 120 (by decide)) _

/-- The space after an escaped newline is lost. -/
theorem not_stripIndentation_escapedNewline :
    Lexes (str " a''\\n b''") (escapedLines newline) ∧
      (stripIndentation (fun _ => false) (escapedLines newline)).pieces ≠
        (stripLines ((escapedLines newline).flatMap IndPart.items)).map Item.piece := by
  refine ⟨@lexes_escapedLines 110 (by decide), ?_⟩
  decide +kernel

end Nix.Eval.IndentedStrings
