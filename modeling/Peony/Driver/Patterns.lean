import Peony.Driver.Exports
import Peony.Foundation.Glob
import Peony.Layout.Script

namespace Peony

/-! The names that a pattern of a linker script, of an export list or of `--exclude-libs` stands
for. -/

def patternNames (pattern : Text) : Language Char := Glob.language '*' pattern

/-! ## The search for the parts -/

def afterPart (part text : Text) : Option Text :=
  (findFrom part text 0).map fun place => text.drop (place + part.length)

theorem finds_afterPart (part text : Text) :
    Glob.Finds (⊤ * {part}) text (afterPart part text) := by
  have occurs {front back : Text} (isFront : front ∈ (⊤ * {part} : Language Char))
      (same : front ++ back = text) :
      ∃ place < text.length + 1, part <+: text.drop place ∧
        text.drop (place + part.length) = back ∧ place + part.length = front.length := by
    rcases Glob.mem_top_mul.mp isFront with ⟨head, tail, rfl, rfl⟩
    refine ⟨head.length, ?_, ?_, ?_, ?_⟩
    · rw [← same, List.length_append, List.length_append]
      omega
    · rw [← same, List.append_assoc, List.drop_left]
      exact List.prefix_append _ _
    · rw [← same, ← List.length_append, List.drop_left]
    · exact List.length_append.symm
  rw [afterPart]
  cases isFound : findFrom part text 0 with
  | none =>
      rintro front isFront ⟨back, same⟩
      rcases occurs isFront same with ⟨place, inText, isPrefix, -⟩
      have absent := List.find?_range'_eq_none.mp isFound place (Nat.zero_le _)
        (by omega)
      rw [Bool.not_eq_true', ← Bool.not_eq_true, List.isPrefixOf_iff_prefix] at absent
      exact absent isPrefix
  | some place =>
      rcases List.find?_range'_eq_some.mp isFound with ⟨isPrefix, -, least⟩
      rw [List.isPrefixOf_iff_prefix] at isPrefix
      rcases isPrefix with ⟨rest, isRest⟩
      rw [Option.map_some]
      have isDrop : text.drop (place + part.length) = rest := by
        rw [← List.drop_drop, ← isRest, List.drop_left]
      refine ⟨⟨text.take place ++ part,
        Language.append_mem_mul (Glob.mem_top _) rfl, ?_⟩, ?_⟩
      · rw [isDrop, List.append_assoc, isRest, List.take_append_drop]
      · intro front isFront back same
        rcases occurs isFront same with ⟨other, -, isPrefix, isBack, -⟩
        have notBefore : ¬ other < place := by
          intro before
          have absent := least other (Nat.zero_le _) before
          rw [Bool.not_eq_true', ← Bool.not_eq_true, List.isPrefixOf_iff_prefix] at absent
          exact absent isPrefix
        have later : other + part.length =
            place + part.length + (other - place) := by omega
        rw [← isBack, later, ← List.drop_drop]
        exact List.drop_suffix _ _

/-! ## Export and library patterns -/

theorem partsOccur_eq (parts : List Text) (text : Text) :
    partsOccur parts text = (Glob.searchAll afterPart parts text).isSome := by
  induction parts generalizing text with
  | nil => rfl
  | cons part parts induction =>
      rw [partsOccur, Glob.searchAll, afterPart]
      cases findFrom part text 0 with
      | none => rfl
      | some place => exact induction _

theorem partsOccur_iff {parts : List Text} {text : Text} :
    partsOccur parts text = true ↔ text ∈ Glob.spread parts * ⊤ := by
  rw [partsOccur_eq]
  exact (Glob.finds_searchAll finds_afterPart parts text).isSome_iff

/-- A text has a first part, others behind it and a last part at its end exactly when it starts
and ends so and the parts occur in it one behind the other. -/
theorem between_iff (first last text : Text) (middle : List Text) :
    text ∈ {first} * Glob.spread (middle ++ [last]) ↔
      (first <+: text ∧ last <:+ text) ∧
        text ∈ Glob.spread (first :: (middle ++ [last])) * ⊤ := by
  constructor
  · intro isIn
    rcases Glob.mem_literal_mul.mp isIn with ⟨back, isBack, rfl⟩
    refine ⟨⟨List.prefix_append _ _, ?_⟩, ?_⟩
    · rw [Glob.spread_append, Glob.spread_singleton, ← mul_assoc] at isBack
      rcases Language.mem_mul.mp isBack with ⟨front, -, ending, rfl, rfl⟩
      exact (List.suffix_append _ _).trans (List.suffix_append _ _)
    · rw [Glob.spread_cons, ← List.append_nil (first ++ back)]
      have isFirst : first ∈ (⊤ * {first} : Language Char) :=
        Glob.mem_top_mul.mpr ⟨[], first, rfl, rfl⟩
      exact Language.append_mem_mul (Language.append_mem_mul isFirst isBack) (Glob.mem_top _)
  · rintro ⟨⟨⟨back, rfl⟩, isSuffix⟩, isIn⟩
    refine Glob.mem_literal_mul.mpr ⟨back, ?_, rfl⟩
    rcases Glob.mem_mul_top.mp isIn with ⟨start, isStart, rest, same⟩
    rw [Glob.spread_cons] at isStart
    rcases Language.mem_mul.mp isStart with ⟨head, isHead, tail, isTail, rfl⟩
    rcases Glob.mem_top_mul.mp isHead with ⟨skipped, found, isFound, rfl⟩
    rw [Glob.mem_literal] at isFound
    subst found
    -- The others are searched behind an occurrence of the first part that need not be the
    -- start of the text; they are behind the start in any case.
    have behind : tail ++ rest <:+ back := by
      have isWhole : skipped ++ (first ++ (tail ++ rest)) = first ++ back := by
        rw [← same, List.append_assoc, List.append_assoc]
      refine List.suffix_of_suffix_length_le ?_ (List.suffix_append first back) ?_
      · rw [← isWhole, ← List.append_assoc]
        exact List.suffix_append _ _
      · have lengths := congrArg List.length isWhole
        simp only [List.length_append] at lengths ⊢
        omega
    rcases behind with ⟨between, rfl⟩
    rw [Glob.spread_append, Glob.spread_singleton, ← mul_assoc] at isTail ⊢
    rcases Language.mem_mul.mp isTail with ⟨front, isFront, ending, isEnding, rfl⟩
    rw [Glob.mem_literal] at isEnding
    subst ending
    -- The last part ends the text, so it also ends what follows an occurrence of it.
    have ends : last <:+ last ++ rest := by
      refine List.suffix_of_suffix_length_le isSuffix ?_ ?_
      · refine (List.suffix_append (between ++ front) (last ++ rest)).trans ?_
        rw [List.append_assoc, ← List.append_assoc front]
        exact List.suffix_append first _
      · rw [List.length_append]
        exact Nat.le_add_right _ _
    rcases ends with ⟨more, isMore⟩
    have isText : between ++ (front ++ last ++ rest) = between ++ front ++ more ++ last := by
      rw [List.append_assoc front, ← isMore, ← List.append_assoc, ← List.append_assoc]
    have isMiddle : between ++ front ∈ Glob.spread middle * ⊤ := by
      rw [← Glob.top_mul_spread_mul_top]
      exact Language.append_mem_mul (Glob.mem_top _) isFront
    rw [isText]
    refine Language.append_mem_mul ?_ rfl
    rcases Glob.mem_mul_top.mp isMiddle with ⟨start, isStart, other, joined⟩
    rw [← joined, List.append_assoc]
    exact Language.append_mem_mul isStart (Glob.mem_top _)

/-- `wildcard_matches` decides the names of a pattern. -/
theorem wildcardMatches_iff (pattern name : Text) :
    wildcardMatches pattern name = true ↔ name ∈ patternNames pattern := by
  rw [patternNames, Glob.language_eq_spread]
  rw [wildcardMatches]
  have isSplit : pattern.splitOnP (fun char => char == '*') = pattern.splitOn '*' :=
    List.splitOn_eq_splitOnP.symm
  by_cases isStar : pattern = ascii "*"
  · rw [if_pos isStar]
    have split : pattern.splitOn '*' = [[], []] := by
      rw [isStar]
      rfl
    rw [split]
    rw [List.headD_cons, List.tail_cons, Glob.spread_singleton]
    refine iff_of_true rfl (Glob.mem_literal_mul.mpr ⟨name, ?_, rfl⟩)
    exact Glob.mem_top_mul.mpr ⟨name, [], rfl, List.append_nil name⟩
  · rw [if_neg isStar]
    simp only [isSplit]
    rcases List.exists_cons_of_ne_nil (List.splitOn_ne_nil '*' pattern) with
      ⟨first, parts, split⟩
    have atHead := @Glob.first_of_head_star _ _ '*' pattern
    have atEnd := @Glob.last_of_getLast_star _ _ '*' pattern
    rw [split] at atHead atEnd ⊢
    rw [List.headD_cons] at atHead
    rw [List.headD_cons, List.tail_cons]
    rcases List.eq_nil_or_concat parts with rfl | ⟨middle, last, isParts⟩
    · rw [List.length_singleton, if_pos rfl, beq_iff_eq, Glob.eq_of_splitOn_singleton split,
        Glob.spread_nil, mul_one, Glob.mem_literal]
      exact eq_comm
    · rw [List.concat_eq_append] at isParts
      subst isParts
      have several : ¬ (first :: (middle ++ [last])).length = 1 := by
        rw [List.length_cons, List.length_append, List.length_singleton]
        omega
      have isLast : (first :: (middle ++ [last])).getLastD [] = last := by
        rw [List.getLastD_cons, List.getLastD_eq_getLast?, List.getLast?_append,
          List.getLast?_singleton, Option.some_or, Option.getD_some]
      rw [isLast] at atEnd ⊢
      rw [if_neg several, between_iff, ← Glob.spread_filter_mul_top, ← partsOccur_iff]
      have notHead : (pattern.head? ≠ some '*' ∧ (!first.isPrefixOf name) = true) ↔
          ¬ first <+: name := by
        rw [Bool.not_eq_true', ← Bool.not_eq_true, List.isPrefixOf_iff_prefix]
        refine ⟨And.right, fun absent => ⟨fun isHead => absent ?_, absent⟩⟩
        rw [atHead isHead]
        exact List.nil_prefix
      have notEnd : (pattern.getLast? ≠ some '*' ∧ (!last.isSuffixOf name) = true) ↔
          ¬ last <:+ name := by
        rw [Bool.not_eq_true', ← Bool.not_eq_true, List.isSuffixOf_iff_suffix]
        refine ⟨And.right, fun absent => ⟨fun isEnd => absent ?_, absent⟩⟩
        rw [atEnd isEnd]
        exact List.nil_suffix
      rw [if_congr notHead rfl (if_congr notEnd rfl rfl)]
      by_cases starts : first <+: name
      · by_cases ends : last <:+ name
        · rw [if_neg (not_not.mpr starts), if_neg (not_not.mpr ends)]
          exact (and_iff_right ⟨starts, ends⟩).symm
        · rw [if_neg (not_not.mpr starts), if_pos ends]
          exact iff_of_false Bool.false_ne_true fun both => ends both.1.2
      · rw [if_pos starts]
        exact iff_of_false Bool.false_ne_true fun both => starts both.1.1

/-! ## Script patterns -/

theorem matchParts_eq (rest last : Text) (parts : List Text) :
    matchParts rest last parts =
      (Glob.searchAll afterPart (parts.filter fun part => !part.isEmpty) rest).map fun rest =>
        (rest, (parts.filter fun part => !part.isEmpty).getLastD last) := by
  induction parts generalizing rest last with
  | nil => rfl
  | cons part parts induction =>
      rw [matchParts, List.filter_cons]
      cases part with
      | nil =>
          rw [List.isEmpty_nil, if_pos rfl, Bool.not_true, if_neg Bool.false_ne_true]
          exact induction rest last
      | cons char part =>
          rw [List.isEmpty_cons, if_neg Bool.false_ne_true, Bool.not_false, if_pos rfl,
            Glob.searchAll, afterPart]
          cases findFrom (char :: part) rest 0 with
          | none => rfl
          | some place =>
              rw [Option.map_some, Option.bind_some]
              dsimp only
              rw [induction, List.getLastD_cons]

theorem matchFirst_eq {pattern first name : Text}
    (atHead : pattern.head? = some '*' → first = []) :
    matchFirst (pattern.head? != some '*') name first =
      if first <+: name then some (name.drop first.length) else none := by
  rw [matchFirst]
  cases first with
  | nil => rw [List.isEmpty_nil, if_pos rfl, if_pos List.nil_prefix]; rfl
  | cons char rest =>
      have notStar : (pattern.head? != some '*') = true := by
        rw [bne_iff_ne]
        exact fun isStar => nomatch atHead isStar
      rw [List.isEmpty_cons, if_neg Bool.false_ne_true, if_pos notStar, stripPrefix]
      exact if_congr List.isPrefixOf_iff_prefix rfl rfl

theorem anchored_parts {pattern first : Text} {parts : List Text}
    (split : pattern.splitOn '*' = first :: parts) (anchored : pattern.getLast? ≠ some '*') :
    Glob.spread (parts.filter fun part => !part.isEmpty) = Glob.spread parts ∧
      (parts.filter fun part => !part.isEmpty).getLastD [] <:+ pattern := by
  rcases List.eq_nil_or_concat parts with rfl | ⟨middle, last, isParts⟩
  · exact ⟨rfl, List.nil_suffix⟩
  · rw [List.concat_eq_append] at isParts
    subst isParts
    have isLast := @Glob.last_part _ _ '*' pattern
    rw [split, List.getLastD_cons, List.getLastD_eq_getLast?, List.getLast?_append,
      List.getLast?_singleton, Option.some_or, Option.getD_some] at isLast
    have filled : last ≠ [] := by
      intro empty
      rcases isLast.2 empty with rfl | isStar
      · rw [List.splitOn_nil, List.cons.injEq] at split
        exact List.append_ne_nil_of_right_ne_nil _ (List.cons_ne_nil _ _) split.2.symm
      · exact anchored isStar
    refine ⟨Glob.spread_filter middle filled, ?_⟩
    have kept : (!last.isEmpty) = true := by
      rw [Bool.not_eq_true', List.isEmpty_eq_false_iff]
      exact filled
    rw [List.filter_append, List.filter_cons, if_pos kept, List.filter_nil,
      List.getLastD_eq_getLast?, List.getLast?_append, List.getLast?_singleton, Option.some_or,
      Option.getD_some]
    exact isLast.1

/-- The names of a pattern that ends with `*` may go on. -/
theorem open_parts {pattern first : Text} {parts : List Text}
    (split : pattern.splitOn '*' = first :: parts) (isStar : pattern.getLast? = some '*') :
    Glob.spread (parts.filter fun part => !part.isEmpty) * ⊤ = Glob.spread parts := by
  have isLast := Glob.last_of_getLast_star isStar
  rw [split] at isLast
  rcases List.eq_nil_or_concat parts with rfl | ⟨middle, last, isParts⟩
  · rw [List.getLastD_cons, List.getLastD_nil] at isLast
    rw [Glob.eq_of_splitOn_singleton split, isLast] at isStar
    cases isStar
  · rw [List.concat_eq_append] at isParts
    rw [isParts, List.getLastD_cons, List.getLastD_eq_getLast?, List.getLast?_append,
      List.getLast?_singleton, Option.some_or, Option.getD_some] at isLast
    rw [Glob.spread_filter_mul_top, isParts, isLast, Glob.spread_mul_top]

theorem scriptPatternMatches_iff {pattern name : Text} :
    scriptPatternMatches pattern name = true ↔ name ∈ patternNames pattern ∧
      (pattern.getLast? = some '*' ∨
        ∀ front ∈ patternNames pattern, front <+: name → front = name) := by
  rw [scriptPatternMatches]
  by_cases isStar : pattern = ['*']
  · rw [if_pos isStar, isStar]
    have whole : name ∈ patternNames ['*'] := by
      rw [patternNames, Glob.language_cons, if_pos rfl]
      exact Glob.mem_top_mul.mpr ⟨name, [], rfl, List.append_nil name⟩
    exact iff_of_true rfl ⟨whole, Or.inl rfl⟩
  · rw [if_neg isStar]
    rcases List.exists_cons_of_ne_nil (List.splitOn_ne_nil '*' pattern) with
      ⟨first, parts, split⟩
    have names : patternNames pattern = {first} * Glob.spread parts := by
      rw [patternNames, Glob.language_eq_spread, split]
      rfl
    have atHead := @Glob.first_of_head_star _ _ '*' pattern
    rw [split, List.headD_cons] at atHead
    simp only [split, List.headD_cons, List.tail_cons, matchFirst_eq atHead, names]
    by_cases starts : first <+: name
    · rcases starts with ⟨back, rfl⟩
      rw [if_pos (List.prefix_append first back), List.drop_left]
      have finds := Glob.finds_searchAll finds_afterPart
        (parts.filter fun part => !part.isEmpty) back
      dsimp only
      rw [matchParts_eq, Glob.append_mem_literal_mul]
      by_cases ends : pattern.getLast? = some '*'
      · rw [← open_parts split ends, ← finds.isSome_iff, ends, bne_self_eq_false]
        rw [and_iff_left (Or.inl rfl)]
        cases Glob.searchAll afterPart (parts.filter fun part => !part.isEmpty) back with
        | none => exact Iff.rfl
        | some rest => exact Iff.rfl
      · rcases anchored_parts split ends with ⟨sameSpread, isSuffix⟩
        rw [sameSpread] at finds
        have notOpen : (pattern.getLast? != some '*') = true := bne_iff_ne.mpr ends
        have only : (∀ front ∈ {first} * Glob.spread parts, front <+: first ++ back →
              front = first ++ back) ↔
            ∀ front ∈ Glob.spread parts, front <+: back → front = back := by
          constructor
          · intro each front isFront within
            have same := each (first ++ front) (Glob.append_mem_literal_mul.mpr isFront)
              ((List.prefix_append_right_inj first).mpr within)
            exact List.append_cancel_left same
          · intro each front isFront within
            rcases Glob.mem_literal_mul.mp isFront with ⟨other, isOther, rfl⟩
            rw [each other isOther ((List.prefix_append_right_inj first).mp within)]
        rw [or_iff_right ends, only, ← finds.eq_nil_iff, notOpen]
        cases Glob.searchAll afterPart (parts.filter fun part => !part.isEmpty) back with
        | none => exact iff_of_false Bool.false_ne_true nofun
        | some rest =>
            rw [Option.map_some, Option.some.injEq, ← List.isEmpty_iff]
            dsimp only
            rw [List.isSuffixOf_iff_suffix.mpr isSuffix, Bool.not_true, Bool.false_or,
              Bool.true_and]
    · rw [if_neg starts]
      refine iff_of_false Bool.false_ne_true ?_
      rintro ⟨isIn, -⟩
      rcases Glob.mem_literal_mul.mp isIn with ⟨back, -, same⟩
      exact starts ⟨back, same⟩

/-- `script_pattern_matches` is right about a name unless the pattern ends with a part that also
ends a shorter beginning of the name. -/
theorem scriptPattern_right_iff (pattern name : Text) :
    (scriptPatternMatches pattern name = true ↔ name ∈ patternNames pattern) ↔
      (pattern.getLast? = some '*' ∨ name ∉ patternNames pattern ∨
        ∀ front ∈ patternNames pattern, front <+: name → front = name) := by
  rw [scriptPatternMatches_iff, and_iff_left_iff_imp]
  by_cases isIn : name ∈ patternNames pattern
  · rw [imp_iff_right isIn, or_iff_right (not_not.mpr isIn)]
  · exact iff_of_true (fun present => absurd present isIn) (Or.inr (Or.inl isIn))

/-- The pattern `*.a` misses the name `.a.a`. -/
theorem scriptPattern_misses_repeated :
    scriptPatternMatches ['*', '.', 'a'] ['.', 'a', '.', 'a'] = false ∧
      ['.', 'a', '.', 'a'] ∈ patternNames ['*', '.', 'a'] := by
  have split : ['*', '.', 'a'].splitOn '*' = [[], ['.', 'a']] := by decide
  refine ⟨by decide, ?_⟩
  rw [patternNames, Glob.language_eq_spread, split, List.headD_cons, List.tail_cons,
    Glob.spread_singleton]
  have isEnd : ['.', 'a', '.', 'a'] ∈ (⊤ * {['.', 'a']} : Language Char) :=
    Glob.mem_top_mul.mpr ⟨['.', 'a'], ['.', 'a'], rfl, rfl⟩
  exact Glob.mem_literal_mul.mpr ⟨_, isEnd, rfl⟩

end Peony
