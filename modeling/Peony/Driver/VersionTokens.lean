import Peony.Driver.Fields
import Peony.Driver.VersionGrammar

namespace Peony

/-! The tokens of a version script without its comments. -/

/-! ## Lines -/

theorem before_cons (needle : Text) (char : Char) (rest : Text) :
    before needle (char :: rest) =
      if needle.isPrefixOf (char :: rest) then [] else char :: before needle rest := by
  conv_lhs => rw [before]

theorem before_concat {needle text : Text} {char : Char} (nonempty : needle ≠ [])
    (absent : char ∉ needle) :
    before needle (text ++ [char]) = before needle text ∨
      before needle (text ++ [char]) = before needle text ++ [char] := by
  induction text with
  | nil =>
      have notPrefix : ¬ needle.isPrefixOf [char] = true := by
        rw [List.isPrefixOf_iff_prefix, ← List.nil_append [char], List.prefix_concat_iff]
        rintro (rfl | isNil)
        · exact absent List.mem_cons_self
        · exact nonempty (List.prefix_nil.mp isNil)
      rw [List.nil_append, before_cons, if_neg notPrefix]
      exact .inr rfl
  | cons head rest induction =>
      have samePrefix : needle.isPrefixOf (head :: rest ++ [char]) =
          needle.isPrefixOf (head :: rest) := by
        rw [Bool.eq_iff_iff, List.isPrefixOf_iff_prefix, List.isPrefixOf_iff_prefix,
          List.prefix_concat_iff, or_iff_right]
        rintro rfl
        exact absent (List.mem_append_right _ List.mem_cons_self)
      rw [before_cons, ← samePrefix, List.cons_append, before_cons]
      split
      · exact .inl rfl
      · exact induction.imp (congrArg _) (congrArg _)

theorem before_append {needle front text : Text} {char : Char} (absent : char ∉ front) :
    before (char :: needle) (front ++ text) = front ++ before (char :: needle) text := by
  induction front with
  | nil => rfl
  | cons head rest induction =>
      rcases not_or.mp (List.mem_cons.not.mp absent) with ⟨different, others⟩
      have notPrefix : ¬ (char :: needle).isPrefixOf (head :: rest ++ text) = true := by
        rw [List.isPrefixOf_iff_prefix, List.cons_append, List.cons_prefix_cons]
        exact fun both => different both.1
      rw [List.cons_append] at notPrefix ⊢
      rw [before_cons, if_neg notPrefix, induction others, List.cons_append]

def isVersionSeparator (char : Char) : Bool := char ∈ ascii " \t\x7b\x7d()"

def lineTokens (line : Text) : List Text := fields isVersionSeparator (withoutLineComment line)

/-- A carriage return at the end of a line is trimmed. -/
theorem lineTokens_concat (line : Text) : lineTokens (line ++ ['\r']) = lineTokens line := by
  have space : IsSpace ['\r'] := List.forall_mem_singleton.mpr rfl
  have hash : '\r' ∉ ascii "#" := by decide
  have slashes : '\r' ∉ ascii "//" := by decide
  unfold lineTokens withoutLineComment
  have someHash : ascii "#" ≠ [] := by decide
  have someSlashes : ascii "//" ≠ [] := by decide
  rcases before_concat someHash hash with same | longer
  · rw [same]
  · rw [longer]
    rcases before_concat someSlashes slashes with same | longer
    · rw [same]
    · rw [longer, fields_append_right space]

theorem lineTokens_chomped (line : Text) :
    lineTokens (if line.getLast? = some '\r' then line.dropLast else line) =
      lineTokens line := by
  split
  · rename_i isLast
    have whole : line.dropLast ++ ['\r'] = line := by
      rw [List.dropLast_append_getLast? _ isLast]
    conv_rhs => rw [← whole, lineTokens_concat]
  · rfl

theorem versionScriptTokens_eq (text : Text) :
    versionScriptTokens text = (text.splitOnP (· == '\n')).flatMap lineTokens := by
  have tokens : versionScriptTokens text = (lines text).flatMap lineTokens := rfl
  rw [tokens, lines, List.flatMap_map]
  simp only [lineTokens_chomped]
  split
  · rename_i isLast
    have whole := List.dropLast_append_getLast? _ isLast
    conv_rhs => rw [← whole, List.flatMap_append, List.flatMap_singleton]
    exact (List.append_nil _).symm
  · rfl

/-! ## Comments -/

/-- A character that does not begin a comment. -/
def IsPlainChar (char : Char) : Prop := char ≠ '#' ∧ char ≠ '/'

def IsPlain (text : Text) : Prop := ∀ char ∈ text, IsPlainChar char

section

variable {front : Text} (plain : IsPlain front)

include plain

theorem IsPlain.lineTokens_eq : lineTokens front = fields isVersionSeparator front := by
  have whole (needle : Text) (char : Char) (absent : char ∉ front) :
      before (char :: needle) front = front := by
    have same : before (char :: needle) (front ++ []) = front ++ before (char :: needle) [] :=
      before_append absent
    rw [List.append_nil, before, List.append_nil] at same
    exact same
  have hash : '#' ∉ front := fun present => (plain _ present).1 rfl
  have slash : '/' ∉ front := fun present => (plain _ present).2 rfl
  unfold lineTokens withoutLineComment
  rw [show ascii "#" = '#' :: [] from rfl, show ascii "//" = '/' :: ['/'] from rfl,
    whole _ _ hash, whole _ _ slash]

theorem IsPlain.lineTokens_comment (comment : LineComment) :
    lineTokens (front ++ comment.text) = lineTokens front := by
  have hash : '#' ∉ front := fun present => (plain _ present).1 rfl
  have slash : '/' ∉ front := fun present => (plain _ present).2 rfl
  rw [plain.lineTokens_eq]
  unfold lineTokens withoutLineComment LineComment.text
  rw [show ascii "#" = '#' :: [] from rfl, show ascii "//" = '/' :: ['/'] from rfl,
    before_append hash]
  cases comment.mark with
  | hash =>
      have none : before ['#'] (CommentMark.hash.text ++ comment.words) = [] := by
        rw [show CommentMark.hash.text = ['#'] from rfl, List.singleton_append, before_cons]
        rfl
      rw [none, before_append slash, before, List.append_nil]
  | slashes =>
      have noHash : '#' ∉ ['/', '/'] := by decide
      rw [show CommentMark.slashes.text = ['/', '/'] from rfl, before_append noHash,
        before_append slash, List.cons_append, before_cons]
      exact congrArg _ (List.append_nil front)

end

theorem LineComment.text_oneLine (comment : LineComment) : '\n' ∉ comment.text := by
  rw [LineComment.text, List.mem_append, not_or]
  refine ⟨?_, comment.oneLine⟩
  cases comment.mark <;> decide

/-- The first text has comments in place of some ends of lines of the second one. -/
inductive Commented : Text → Text → Prop where
  | nil : Commented [] []
  | char {char : Char} {text bare : Text} (plain : IsPlainChar char)
      (rest : Commented text bare) : Commented (char :: text) (char :: bare)
  | comment {text bare : Text} (comment : LineComment) (rest : Commented text bare) :
      Commented (comment.text ++ '\n' :: text) ('\n' :: bare)

namespace Commented

variable {text bare other otherBare : Text}

theorem append (first : Commented text bare) (second : Commented other otherBare) :
    Commented (text ++ other) (bare ++ otherBare) := by
  induction first with
  | nil => exact second
  | char plain _ induction => exact .char plain induction
  | comment comment _ induction =>
      rw [List.append_assoc]
      exact .comment comment induction

theorem of_plain (plain : IsPlain text) : Commented text text := by
  induction text with
  | nil => exact .nil
  | cons char rest induction =>
      rcases List.forall_mem_cons.mp plain with ⟨isPlain, others⟩
      exact .char isPlain (induction others)

theorem flatMap {Item : Type} {items : List Item} {write bareWrite : Item → Text}
    (each : ∀ item ∈ items, Commented (write item) (bareWrite item)) :
    Commented (items.flatMap write) (items.flatMap bareWrite) := by
  induction items with
  | nil => exact .nil
  | cons item rest induction =>
      rcases List.forall_mem_cons.mp each with ⟨first, others⟩
      exact first.append (induction others)

end Commented

/-- What ends a token: a separator or the end of the line. -/
def isBreak (char : Char) : Bool := char == '\n' || isVersionSeparator char

theorem fields_isBreak {line : Text} (oneLine : '\n' ∉ line) :
    fields isBreak line = fields isVersionSeparator line := by
  have same : line.splitOnP isBreak = line.splitOnP isVersionSeparator := by
    induction line with
    | nil => rfl
    | cons char rest induction =>
        rcases not_or.mp (List.mem_cons.not.mp oneLine) with ⟨different, others⟩
        have sameChar : isBreak char = isVersionSeparator char := by
          rw [isBreak, beq_false_of_ne (Ne.symm different), Bool.false_or]
        rw [List.splitOnP_cons_eq_if_modifyHead, List.splitOnP_cons_eq_if_modifyHead,
          sameChar, induction others]
  rw [fields, fields, same]

theorem Commented.versionScriptTokens_eq {text bare : Text} (commented : Commented text bare)
    (last : Option LineComment) :
    versionScriptTokens (text ++ (last.map LineComment.text).getD []) =
      fields isBreak bare := by
  rw [Peony.versionScriptTokens_eq]
  suffices all : ∀ front, IsPlain front → '\n' ∉ front →
      ((front ++ (text ++ (last.map LineComment.text).getD [])).splitOnP
        (· == '\n')).flatMap lineTokens = fields isBreak (front ++ bare) from
    all [] nofun List.not_mem_nil
  have isOneLine {line : Text} (oneLine : '\n' ∉ line) :
      line.splitOnP (· == '\n') = [line] :=
    List.splitOnP_eq_singleton fun char present =>
      beq_false_of_ne fun same => oneLine (same ▸ present)
  have splits (line rest : Text) : (line ++ '\n' :: rest).splitOnP (· == '\n') =
      line.splitOnP (· == '\n') ++ rest.splitOnP (· == '\n') :=
    List.splitOnP_append_cons _ _ rfl
  induction commented with
  | nil =>
      intro front plain oneLine
      rw [List.nil_append, List.append_nil, fields_isBreak oneLine, ← plain.lineTokens_eq]
      cases last with
      | none =>
          rw [Option.map_none, Option.getD_none, List.append_nil, isOneLine oneLine,
            List.flatMap_singleton]
      | some comment =>
          have whole : '\n' ∉ front ++ comment.text :=
            List.mem_append.not.mpr (not_or.mpr ⟨oneLine, comment.text_oneLine⟩)
          rw [Option.map_some, Option.getD_some, isOneLine whole, List.flatMap_singleton,
            plain.lineTokens_comment]
  | @char char text bare isPlain _ induction =>
      intro front plain oneLine
      by_cases isEnd : char = '\n'
      · subst isEnd
        rw [List.cons_append, splits, isOneLine oneLine, List.flatMap_append,
          List.flatMap_singleton, fields_append_cons rfl, fields_isBreak oneLine,
          ← plain.lineTokens_eq]
        exact congrArg _ (induction [] nofun List.not_mem_nil)
      · have longer : IsPlain (front ++ [char]) :=
          List.forall_mem_append.mpr ⟨plain, List.forall_mem_singleton.mpr isPlain⟩
        have stillOne : '\n' ∉ front ++ [char] := by
          rw [List.mem_append, List.mem_singleton]
          exact not_or.mpr ⟨oneLine, Ne.symm isEnd⟩
        have next := induction (front ++ [char]) longer stillOne
        rw [List.append_assoc, List.append_assoc] at next
        exact next
  | comment comment _ induction =>
      intro front plain oneLine
      have whole : '\n' ∉ front ++ comment.text :=
        List.mem_append.not.mpr (not_or.mpr ⟨oneLine, comment.text_oneLine⟩)
      rw [List.append_assoc, List.cons_append, ← List.append_assoc, splits, isOneLine whole,
        List.flatMap_append, List.flatMap_singleton, fields_append_cons rfl,
        fields_isBreak oneLine, ← plain.lineTokens_eq, plain.lineTokens_comment]
      exact congrArg _ (induction [] nofun List.not_mem_nil)

/-! ## Scripts without comments -/

def Blank.bare : Blank → Text
  | .space char _ => [char]
  | .line _ => ['\n']
  | .block _ _ => []

theorem isPlainChar_of_space {char : Char} (isSpace : isWhitespace char = true) :
    IsPlainChar char := by
  constructor <;> rintro rfl <;> exact absurd isSpace (by decide)

theorem isPlainChar_of_name {char : Char} (isName : isNameChar char = true) :
    IsPlainChar char := by
  constructor <;> rintro rfl <;> exact absurd isName (by decide)

theorem isPlain_entry (entry : NameEntry) : IsPlain entry.text := by
  cases entry with
  | star =>
      intro char present
      cases List.mem_singleton.mp present
      constructor <;> decide
  | symbol name => exact fun char present => isPlainChar_of_name (name.plain char present)

theorem keyword_plain (isGlobal : Bool) :
    ∀ char ∈ keyword isGlobal, isNameChar char = true :=
  List.all_eq_true.mp (by cases isGlobal <;> decide)

theorem isPlain_keyword (isGlobal : Bool) : IsPlain (keyword isGlobal) :=
  fun char present => isPlainChar_of_name (keyword_plain isGlobal char present)

theorem isPlain_singleton {char : Char} (different : char ≠ '#' ∧ char ≠ '/') :
    IsPlain [char] := List.forall_mem_singleton.mpr different

theorem commented_gap {gap : Gap} (noBlock : ∀ blank ∈ gap, blank.isBlock = false) :
    Commented (gap.flatMap Blank.text) (gap.flatMap Blank.bare) := by
  apply Commented.flatMap
  intro blank present
  cases blank with
  | space char isSpace => exact .of_plain (isPlain_singleton (isPlainChar_of_space isSpace))
  | line comment => exact .comment comment .nil
  | block words isOpen => exact nomatch noBlock _ present

theorem commented_listed {listed : ListedName}
    (noBlock : ∀ gap ∈ listed.gaps, ∀ blank ∈ gap, blank.isBlock = false) :
    Commented (listed.written Blank.text) (listed.written Blank.bare) := by
  have before := commented_gap (noBlock _ List.mem_cons_self)
  have after := commented_gap (noBlock _ (List.mem_cons_of_mem _ List.mem_cons_self))
  have semicolon : IsPlainChar ';' := by constructor <;> decide
  exact (Commented.append (.of_plain (isPlain_entry _)) before).append
    (.char semicolon after)

theorem commented_list {list : NameList}
    (noBlock : ∀ gap ∈ list.gaps, ∀ blank ∈ gap, blank.isBlock = false) :
    Commented (list.written Blank.text) (list.written Blank.bare) := by
  have before := commented_gap (noBlock _ List.mem_cons_self)
  have after := commented_gap (noBlock _ (List.mem_cons_of_mem _ List.mem_cons_self))
  have names : Commented (list.names.flatMap (ListedName.written Blank.text))
      (list.names.flatMap (ListedName.written Blank.bare)) := by
    apply Commented.flatMap
    intro listed present
    apply commented_listed
    intro gap inGaps
    exact noBlock gap (List.mem_cons_of_mem _ (List.mem_cons_of_mem _
      (List.mem_flatMap_of_mem present inGaps)))
  have colon : IsPlainChar ':' := by constructor <;> decide
  exact (Commented.append (.of_plain (isPlain_keyword _)) before).append
    (.char colon (after.append names))

theorem commented_node {node : VersionNode} (noBlock : node.HasNoBlock) :
    Commented (node.written Blank.text) (node.written Blank.bare) := by
  have gapIn (gap : Gap) (present : gap ∈ node.gaps) := commented_gap (noBlock gap present)
  have lists : Commented (node.lists.flatMap (NameList.written Blank.text))
      (node.lists.flatMap (NameList.written Blank.bare)) := by
    apply Commented.flatMap
    intro list present
    apply commented_list
    intro gap inGaps
    apply noBlock gap
    unfold VersionNode.gaps
    simp only [List.mem_cons, List.mem_flatMap]
    exact .inr (.inr (.inr (.inr (.inr ⟨list, present, inGaps⟩))))
  have name : IsPlain ((node.name.map SymbolName.text).getD []) := by
    cases node.name with
    | none => exact nofun
    | some name => exact isPlain_entry (.symbol name)
  have opening : IsPlainChar '\x7b' := by constructor <;> decide
  have closing : IsPlainChar '\x7d' := by constructor <;> decide
  have semicolon : IsPlainChar ';' := by constructor <;> decide
  have first := gapIn node.first (by simp [VersionNode.gaps])
  have beforeOpen := gapIn node.beforeOpen (by simp [VersionNode.gaps])
  have afterOpen := gapIn node.afterOpen (by simp [VersionNode.gaps])
  have afterClose := gapIn node.afterClose (by simp [VersionNode.gaps])
  have last := gapIn node.last (by simp [VersionNode.gaps])
  exact ((first.append (.of_plain name)).append beforeOpen).append
    (.char opening ((afterOpen.append lists).append
      (.char closing (afterClose.append (.char semicolon last)))))

theorem VersionNode.tokens_eq {node : VersionNode} (noBlock : node.HasNoBlock) :
    versionScriptTokens node.text = fields isBreak (node.written Blank.bare) :=
  (commented_node noBlock).versionScriptTokens_eq node.comment

end Peony
