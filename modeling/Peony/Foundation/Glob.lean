import Mathlib.Computability.Language

/-! Patterns in which one character stands for any string, and the search for their parts from
left to right. -/

namespace Glob

variable {α : Type*}

/-- The strings of a pattern: `star` is any string, every other character is itself. -/
def language [DecidableEq α] (star : α) (pattern : List α) : Language α :=
  (pattern.map fun char => if char = star then ⊤ else {[char]}).prod

/-- The strings that end with the last of the parts, with each part somewhere behind the one
before. -/
def spread (parts : List (List α)) : Language α :=
  (parts.map fun part => ⊤ * {part}).prod

/-! ## Languages -/

theorem mem_top (s : List α) : s ∈ (⊤ : Language α) := trivial

theorem mem_top_mul {l : Language α} {s : List α} :
    s ∈ ⊤ * l ↔ ∃ front, ∃ back ∈ l, front ++ back = s := by
  rw [Language.mem_mul]
  constructor
  · rintro ⟨front, -, back, isBack, same⟩
    exact ⟨front, back, isBack, same⟩
  · rintro ⟨front, back, isBack, same⟩
    exact ⟨front, mem_top front, back, isBack, same⟩

theorem mem_mul_top {l : Language α} {s : List α} :
    s ∈ l * ⊤ ↔ ∃ front ∈ l, ∃ back, front ++ back = s := by
  rw [Language.mem_mul]
  constructor
  · rintro ⟨front, isFront, back, -, same⟩
    exact ⟨front, isFront, back, same⟩
  · rintro ⟨front, isFront, back, same⟩
    exact ⟨front, isFront, back, mem_top back, same⟩

theorem mem_literal {part s : List α} : s ∈ ({part} : Language α) ↔ s = part := Iff.rfl

theorem mem_literal_mul {part s : List α} {l : Language α} :
    s ∈ {part} * l ↔ ∃ back ∈ l, part ++ back = s := by
  rw [Language.mem_mul]
  constructor
  · rintro ⟨front, rfl, back, isBack, same⟩
    exact ⟨back, isBack, same⟩
  · rintro ⟨back, isBack, same⟩
    exact ⟨part, rfl, back, isBack, same⟩

theorem append_mem_literal_mul {part back : List α} {l : Language α} :
    part ++ back ∈ {part} * l ↔ back ∈ l := by
  rw [mem_literal_mul]
  constructor
  · rintro ⟨other, isOther, same⟩
    rw [← List.append_cancel_left same]
    exact isOther
  · intro isBack
    exact ⟨back, isBack, rfl⟩

theorem literal_nil : ({[]} : Language α) = 1 := rfl

theorem top_mul_top : (⊤ * ⊤ : Language α) = ⊤ := by
  ext s
  rw [mem_top_mul]
  exact ⟨fun _ => mem_top s, fun _ => ⟨[], s, mem_top s, rfl⟩⟩

theorem literal_cons_mul (char : α) (part : List α) :
    ({char :: part} : Language α) = {[char]} * {part} := by
  ext s
  rw [mem_literal_mul, mem_literal]
  constructor
  · rintro rfl
    exact ⟨part, rfl, rfl⟩
  · rintro ⟨back, rfl, rfl⟩
    rfl

/-! ## Parts -/

@[simp] theorem spread_nil : spread ([] : List (List α)) = 1 := rfl

theorem spread_cons (part : List α) (parts : List (List α)) :
    spread (part :: parts) = ⊤ * {part} * spread parts := by
  rw [spread, List.map_cons, List.prod_cons]
  rfl

theorem spread_append (parts more : List (List α)) :
    spread (parts ++ more) = spread parts * spread more := by
  rw [spread, List.map_append, List.prod_append]
  rfl

theorem top_mul_spread {parts : List (List α)} (filled : parts ≠ []) :
    ⊤ * spread parts = spread parts := by
  cases parts with
  | nil => exact absurd rfl filled
  | cons part parts => rw [spread_cons, ← mul_assoc, ← mul_assoc, top_mul_top]

/-- Text may stand before the parts where text may follow them. -/
theorem top_mul_spread_mul_top (parts : List (List α)) :
    ⊤ * (spread parts * ⊤) = spread parts * ⊤ := by
  cases parts with
  | nil => rw [spread_nil, one_mul, top_mul_top]
  | cons part parts => rw [← mul_assoc, top_mul_spread (List.cons_ne_nil _ _)]

/-- Parts of which the last one is empty end anywhere. -/
theorem spread_mul_top (parts : List (List α)) :
    spread (parts ++ [[]]) * ⊤ = spread (parts ++ [[]]) := by
  rw [spread_append, spread_cons, literal_nil, mul_one, spread_nil, mul_one, mul_assoc,
    top_mul_top]

theorem spread_singleton (part : List α) : spread [part] = ⊤ * {part} := by
  rw [spread_cons, spread_nil, mul_one]

theorem spread_filter (parts : List (List α)) {last : List α} (filled : last ≠ []) :
    spread ((parts ++ [last]).filter fun part => !part.isEmpty) = spread (parts ++ [last]) := by
  induction parts with
  | nil =>
      have kept : (!last.isEmpty) = true := by
        rw [Bool.not_eq_true', List.isEmpty_eq_false_iff]
        exact filled
      rw [List.nil_append, List.filter_cons, if_pos kept, List.filter_nil]
  | cons part parts induction =>
      rw [List.cons_append, List.filter_cons]
      cases part with
      | nil =>
          have behind : parts ++ [last] ≠ [] :=
            List.append_ne_nil_of_right_ne_nil _ (List.cons_ne_nil _ _)
          rw [List.isEmpty_nil, Bool.not_true, if_neg Bool.false_ne_true, induction, spread_cons,
            literal_nil, mul_one, top_mul_spread behind]
      | cons char part =>
          rw [List.isEmpty_cons, Bool.not_false, if_pos rfl, spread_cons, induction, spread_cons]

theorem spread_filter_mul_top (parts : List (List α)) :
    spread (parts.filter fun part => !part.isEmpty) * ⊤ = spread parts * ⊤ := by
  induction parts with
  | nil => rfl
  | cons part parts induction =>
      rw [List.filter_cons]
      cases part with
      | nil =>
          rw [List.isEmpty_nil, Bool.not_true, if_neg Bool.false_ne_true, induction, spread_cons,
            literal_nil, mul_one, mul_assoc, top_mul_spread_mul_top]
      | cons char part =>
          rw [List.isEmpty_cons, Bool.not_false, if_pos rfl, spread_cons, spread_cons,
            mul_assoc (⊤ * {char :: part}), induction, mul_assoc (⊤ * {char :: part})]

/-! ## Patterns -/

section Pattern

variable [DecidableEq α] {star : α}

theorem language_cons (char : α) (pattern : List α) :
    language star (char :: pattern) =
      (if char = star then ⊤ else {[char]}) * language star pattern := by
  rw [language, List.map_cons, List.prod_cons]
  rfl

theorem language_eq_spread (pattern : List α) :
    language star pattern =
      {(pattern.splitOn star).headD []} * spread (pattern.splitOn star).tail := by
  induction pattern with
  | nil => rw [List.splitOn_nil, List.headD_cons, List.tail_cons, spread_nil, mul_one]; rfl
  | cons char pattern induction =>
      rw [language_cons, induction, List.splitOn_cons_eq_if_modifyHead]
      rcases List.exists_cons_of_ne_nil (List.splitOn_ne_nil star pattern) with
        ⟨first, parts, isSplit⟩
      rw [isSplit, List.headD_cons, List.tail_cons]
      by_cases isStar : char = star
      · rw [if_pos isStar, if_pos (beq_iff_eq.mpr isStar), List.headD_cons, List.tail_cons,
          spread_cons, literal_nil, one_mul, mul_assoc]
      · rw [if_neg isStar, if_neg (mt beq_iff_eq.mp isStar), List.modifyHead_cons,
          List.headD_cons, List.tail_cons, literal_cons_mul char first, mul_assoc]

theorem splitOn_cons_cases (char : α) (pattern : List α) :
    ∃ first parts, pattern.splitOn star = first :: parts ∧
      (char :: pattern).splitOn star =
        if char = star then [] :: first :: parts else (char :: first) :: parts := by
  rcases List.exists_cons_of_ne_nil (List.splitOn_ne_nil star pattern) with
    ⟨first, parts, isSplit⟩
  refine ⟨first, parts, isSplit, ?_⟩
  rw [List.splitOn_cons_eq_if_modifyHead, isSplit, List.modifyHead_cons]
  exact if_congr beq_iff_eq rfl rfl

theorem first_of_head_star {pattern : List α} (isStar : pattern.head? = some star) :
    (pattern.splitOn star).headD [] = [] := by
  rcases List.head?_eq_some_iff.mp isStar with ⟨rest, rfl⟩
  rcases @splitOn_cons_cases _ _ star star rest with ⟨first, parts, -, isSplit⟩
  rw [isSplit, if_pos rfl, List.headD_cons]

theorem last_of_getLast_star {pattern : List α} (isStar : pattern.getLast? = some star) :
    (pattern.splitOn star).getLastD [] = [] := by
  rcases List.getLast?_eq_some_iff.mp isStar with ⟨front, rfl⟩
  rw [List.splitOn_append_cons_self, List.splitOn_nil, List.getLastD_eq_getLast?,
    List.getLast?_append, List.getLast?_singleton, Option.some_or, Option.getD_some]

/-- A pattern of a single part is that part. -/
theorem eq_of_splitOn_singleton {pattern first : List α}
    (isSplit : pattern.splitOn star = [first]) : pattern = first := by
  have joined := @List.intercalate_splitOn _ pattern _ _ star
  rw [isSplit, List.intercalate_singleton] at joined
  exact joined.symm

theorem last_part (pattern : List α) :
    (pattern.splitOn star).getLastD [] <:+ pattern ∧
      ((pattern.splitOn star).getLastD [] = [] → pattern = [] ∨
        pattern.getLast? = some star) := by
  induction pattern with
  | nil => exact ⟨List.suffix_rfl, fun _ => Or.inl rfl⟩
  | cons char pattern induction =>
      rcases @splitOn_cons_cases _ _ star char pattern with ⟨first, parts, isSplit, isNext⟩
      rw [isSplit] at induction
      rw [isNext]
      cases parts with
      | nil =>
          rw [List.getLastD_cons, List.getLastD_nil] at induction
          by_cases isStar : char = star
          · rw [if_pos isStar, List.getLastD_cons, List.getLastD_cons, List.getLastD_nil]
            refine ⟨induction.1.trans (List.suffix_cons _ _), fun empty => Or.inr ?_⟩
            rcases induction.2 empty with rfl | ends
            · rw [isStar, List.getLast?_singleton]
            · rw [List.getLast?_cons, ends, Option.getD_some]
          · have whole : first = pattern := (eq_of_splitOn_singleton isSplit).symm
            rw [if_neg isStar, List.getLastD_cons, List.getLastD_nil, whole]
            exact ⟨List.suffix_rfl, fun empty => nomatch empty⟩
      | cons second parts =>
          have same (head : List α) : (head :: second :: parts).getLastD [] =
              (first :: second :: parts).getLastD [] := by
            rw [List.getLastD_cons, List.getLastD_cons, List.getLastD_cons, List.getLastD_cons]
          have isLast : (if char = star then [] :: first :: second :: parts
              else (char :: first) :: second :: parts).getLastD [] =
                (first :: second :: parts).getLastD [] := by
            split
            · rw [List.getLastD_cons, List.getLastD_cons, List.getLastD_cons]
            · exact same _
          rw [isLast]
          refine ⟨induction.1.trans (List.suffix_cons _ _), fun empty => Or.inr ?_⟩
          rcases induction.2 empty with rfl | ends
          · rw [List.splitOn_nil] at isSplit
            cases isSplit
          · rw [List.getLast?_cons, ends, Option.getD_some]

end Pattern

/-! ## The search from left to right -/

/-- What a search leaves of a string: what is behind its shortest beginning in the language, if
it has one. -/
def Finds (l : Language α) (s : List α) : Option (List α) → Prop
  | none => ∀ front ∈ l, ¬ front <+: s
  | some rest => (∃ front ∈ l, front ++ rest = s) ∧
      ∀ front ∈ l, ∀ back, front ++ back = s → back <:+ rest

theorem finds_one (s : List α) : Finds 1 s (some s) := by
  refine ⟨⟨[], rfl, rfl⟩, ?_⟩
  rintro front rfl back rfl
  exact List.suffix_rfl

theorem Finds.cons {part : List α} {parts : List (List α)} {s : List α}
    {first : Option (List α)} {others : List α → Option (List α)}
    (isFirst : Finds (⊤ * {part}) s first)
    (isOthers : ∀ middle, Finds (spread parts) middle (others middle)) :
    Finds (spread (part :: parts)) s (first.bind others) := by
  rw [spread_cons]
  cases first with
  | none =>
      intro front isFront within
      rcases Language.mem_mul.mp isFront with ⟨head, isHead, tail, -, rfl⟩
      exact isFirst head isHead ((List.prefix_append head tail).trans within)
  | some middle =>
      rcases isFirst with ⟨⟨head, isHead, rfl⟩, leastHead⟩
      -- A later first part leaves less for the others, and so do the others behind it.
      have later {front back : List α} (isFront : front ∈ ⊤ * {part} * spread parts)
          (same : front ++ back = head ++ middle) :
          ∃ tail ∈ ⊤ * spread parts, tail ++ back = middle := by
        rcases Language.mem_mul.mp isFront with ⟨otherHead, isOther, tail, isTail, rfl⟩
        rw [List.append_assoc] at same
        rcases leastHead otherHead isOther _ same with ⟨between, isBetween⟩
        exact ⟨between ++ tail, mem_top_mul.mpr ⟨between, tail, isTail, rfl⟩,
          by rw [List.append_assoc]; exact isBetween⟩
      have found := isOthers middle
      rw [Option.bind_some]
      cases isRest : others middle with
      | none =>
          rw [isRest] at found
          rintro front isFront ⟨back, same⟩
          rcases later isFront same with ⟨tail, isTail, rfl⟩
          cases parts with
          | nil => exact found [] rfl List.nil_prefix
          | cons next parts =>
              rw [top_mul_spread (List.cons_ne_nil _ _)] at isTail
              exact found tail isTail (List.prefix_append tail back)
      | some rest =>
          rw [isRest] at found
          rcases found with ⟨⟨tail, isTail, rfl⟩, leastTail⟩
          refine ⟨⟨head ++ tail, Language.append_mem_mul isHead isTail, List.append_assoc _ _ _⟩,
            ?_⟩
          intro front isFront back same
          rcases later isFront same with ⟨other, isOther, isMiddle⟩
          cases parts with
          | nil =>
              rw [spread_nil, Language.mem_one] at isTail
              subst isTail
              exact ⟨other, isMiddle⟩
          | cons next parts =>
              rw [top_mul_spread (List.cons_ne_nil _ _)] at isOther
              exact leastTail other isOther back isMiddle

/-- What the parts leave of a string, each of them searched behind the one before. -/
def searchAll (first : List α → List α → Option (List α)) :
    List (List α) → List α → Option (List α)
  | [], s => some s
  | part :: parts, s => (first part s).bind (searchAll first parts)

theorem finds_searchAll {first : List α → List α → Option (List α)}
    (each : ∀ part s, Finds (⊤ * {part}) s (first part s)) (parts : List (List α))
    (s : List α) : Finds (spread parts) s (searchAll first parts s) := by
  induction parts generalizing s with
  | nil => exact finds_one s
  | cons part parts induction => exact (each part s).cons induction

theorem Finds.isSome_iff {l : Language α} {s : List α} {found : Option (List α)}
    (finds : Finds l s found) : found.isSome = true ↔ s ∈ l * ⊤ := by
  rw [mem_mul_top]
  cases found with
  | none =>
      constructor
      · intro isSome
        cases isSome
      · rintro ⟨front, isFront, within⟩
        exact absurd within (finds front isFront)
  | some rest =>
      rcases finds.1 with ⟨front, isFront, same⟩
      exact ⟨fun _ => ⟨front, isFront, rest, same⟩, fun _ => rfl⟩

/-- A search reads the whole string exactly when the string and no shorter beginning of it is in
the language. -/
theorem Finds.eq_nil_iff {l : Language α} {s : List α} {found : Option (List α)}
    (finds : Finds l s found) :
    found = some [] ↔ s ∈ l ∧ ∀ front ∈ l, front <+: s → front = s := by
  cases found with
  | none =>
      constructor
      · intro isEmpty
        cases isEmpty
      · rintro ⟨isIn, -⟩
        exact absurd List.prefix_rfl (finds s isIn)
  | some rest =>
      rcases finds with ⟨⟨front, isFront, rfl⟩, least⟩
      rw [Option.some.injEq]
      constructor
      · rintro rfl
        rw [List.append_nil] at least ⊢
        refine ⟨isFront, ?_⟩
        rintro other isOther ⟨back, same⟩
        have empty := List.suffix_nil.mp (least other isOther back same)
        rw [empty, List.append_nil] at same
        exact same
      · rintro ⟨-, only⟩
        exact List.self_eq_append_right.mp (only front isFront (List.prefix_append front rest))

end Glob
