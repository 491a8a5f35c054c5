import Mathlib.Data.List.TakeWhile
import Peony.Driver.Text

namespace Peony

/-! Trimmed text, and the parts of a text between separators. -/

/-! ## Trimmed text -/

section

variable {front text back : Text}

def IsSpace (text : Text) : Prop := ∀ char ∈ text, isWhitespace char = true

theorem trim_append_left (space : IsSpace front) : trim (front ++ text) = trim text := by
  rw [trim, trimMatches, List.dropWhile_append_of_pos space]
  rfl

theorem trim_append_right (space : IsSpace back) : trim (text ++ back) = trim text := by
  have reversed : ∀ char ∈ back.reverse, isWhitespace char = true := fun char present =>
    space char (List.mem_reverse.mp present)
  rw [trim, trimMatches, trim, trimMatches, List.dropWhile_append]
  cases isEmpty : (text.dropWhile isWhitespace).isEmpty with
  | true =>
      rw [if_pos rfl, List.isEmpty_iff.mp isEmpty, List.dropWhile_eq_nil_iff.mpr space]
  | false =>
      rw [if_neg nofun, List.reverse_append, List.dropWhile_append_of_pos reversed]

theorem trim_eq_self (starts : ∀ char ∈ text.head?, isWhitespace char = false)
    (ends : ∀ char ∈ text.getLast?, isWhitespace char = false) : trim text = text := by
  have front : text.dropWhile isWhitespace = text := by
    cases text with
    | nil => rfl
    | cons char rest =>
        rw [List.dropWhile_cons_of_neg]
        rw [starts char rfl]
        exact nofun
  have back : text.reverse.dropWhile isWhitespace = text.reverse := by
    cases isLast : text.reverse with
    | nil => rfl
    | cons char rest =>
        rw [List.dropWhile_cons_of_neg]
        have atEnd : char ∈ text.getLast? := by
          rw [← List.head?_reverse, isLast]
          rfl
        rw [ends char atEnd]
        exact nofun
  rw [trim, trimMatches, front, back, List.reverse_reverse]

/-- A text is its trimmed part between whitespace. -/
theorem exists_trim (text : Text) :
    ∃ front back, IsSpace front ∧ IsSpace back ∧ text = front ++ trim text ++ back := by
  let rest := text.dropWhile isWhitespace
  refine ⟨text.takeWhile isWhitespace, (rest.reverse.takeWhile isWhitespace).reverse,
    fun char present => List.mem_takeWhile_imp present,
    fun char present => List.mem_takeWhile_imp (List.mem_reverse.mp present), ?_⟩
  have whole : trim text ++ (rest.reverse.takeWhile isWhitespace).reverse = rest := by
    rw [trim, trimMatches, ← List.reverse_append, List.takeWhile_append_dropWhile,
      List.reverse_reverse]
  rw [List.append_assoc, whole, List.takeWhile_append_dropWhile]
theorem mem_of_mem_trim {char : Char} (present : char ∈ trim text) : char ∈ text := by
  rcases exists_trim text with ⟨_, _, _, _, isText⟩
  rw [isText]
  exact List.mem_append_left _ (List.mem_append_right _ present)

end

/-! ## Parts between separators -/

section

variable (isSep : Char → Bool)

/-- The parts between the separators, trimmed, those that are empty left out. -/
def fields (text : Text) : List Text :=
  ((text.splitOnP isSep).map trim).filter fun part => !part.isEmpty

variable {isSep} {front text back rest : Text}

theorem fields_append_cons {sep : Char} (isSeparator : isSep sep = true) :
    fields isSep (front ++ sep :: back) = fields isSep front ++ fields isSep back := by
  rw [fields, List.splitOnP_append_cons _ _ isSeparator, List.map_append, List.filter_append]
  rfl

theorem fields_cons {sep : Char} (isSeparator : isSep sep = true) :
    fields isSep (sep :: back) = fields isSep back := by
  have split : fields isSep ([] ++ sep :: back) = fields isSep [] ++ fields isSep back :=
    fields_append_cons isSeparator
  exact split

theorem fields_whole (whole : ∀ char ∈ text, isSep char = false) :
    fields isSep text = if trim text = [] then [] else [trim text] := by
  rw [fields, List.splitOnP_eq_singleton whole, List.map_singleton, List.filter_singleton]
  cases trim text with
  | nil => rfl
  | cons char rest => rfl

variable (isSep) in
/-- Whether a text has a separator, with what is around the first one. -/
theorem whole_or_split (text : Text) :
    (∀ char ∈ text, isSep char = false) ∨
      ∃ front sep back, text = front ++ sep :: back ∧ isSep sep = true ∧
        ∀ char ∈ front, isSep char = false := by
  induction text with
  | nil => exact .inl nofun
  | cons char rest induction =>
      cases isSeparator : isSep char with
      | true => exact .inr ⟨[], char, rest, rfl, isSeparator, nofun⟩
      | false =>
          rcases induction with whole | ⟨front, sep, back, rfl, isSeparator', plain⟩
          · exact .inl (List.forall_mem_cons.mpr ⟨isSeparator, whole⟩)
          · exact .inr ⟨char :: front, sep, back, rfl, isSeparator',
              List.forall_mem_cons.mpr ⟨isSeparator, plain⟩⟩

theorem fields_append_left (space : IsSpace front) :
    fields isSep (front ++ text) = fields isSep text := by
  induction front with
  | nil => rfl
  | cons char front induction =>
      rcases List.forall_mem_cons.mp space with ⟨isSpace, others⟩
      rw [← induction others, List.cons_append]
      cases isSeparator : isSep char with
      | true => exact fields_cons isSeparator
      | false =>
          rw [fields, List.splitOnP_cons_eq_if_modifyHead, isSeparator, if_neg nofun]
          rcases List.exists_cons_of_ne_nil
            (List.splitOnP_ne_nil isSep (front ++ text)) with ⟨head, parts, split⟩
          have headSame : trim (char :: head) = trim head :=
            trim_append_left (List.forall_mem_singleton.mpr isSpace)
          rw [fields, split, List.modifyHead_cons, List.map_cons, List.map_cons, headSame]

theorem fields_space (space : IsSpace text) : fields isSep text = [] := by
  have none : fields isSep (text ++ []) = fields isSep [] := fields_append_left space
  rw [List.append_nil] at none
  exact none

theorem fields_append_right (space : IsSpace back) :
    fields isSep (text ++ back) = fields isSep text := by
  generalize isLength : text.length = length
  induction length using Nat.strong_induction_on generalizing text with
  | _ length induction =>
  rcases whole_or_split isSep text with
    whole | ⟨front, sep, rest, rfl, isSeparator, _⟩
  · rcases whole_or_split isSep back with
      noSep | ⟨near, sep, far, rfl, isSeparator, plain⟩
    · have all : ∀ char ∈ text ++ back, isSep char = false := fun char present =>
        (List.mem_append.mp present).elim (whole char) (noSep char)
      rw [fields_whole all, fields_whole whole, trim_append_right space]
    · have nearSpace : IsSpace near := fun char present =>
        space char (List.mem_append_left _ present)
      have farSpace : IsSpace far := fun char present =>
        space char (List.mem_append_right _ (List.mem_cons_of_mem _ present))
      have all : ∀ char ∈ text ++ near, isSep char = false := fun char present =>
        (List.mem_append.mp present).elim (whole char) (plain char)
      rw [← List.append_assoc, fields_append_cons isSeparator, fields_space farSpace,
        List.append_nil, fields_whole all, fields_whole whole, trim_append_right nearSpace]
  · have shorter : rest.length < length := by
      rw [← isLength, List.length_append, List.length_cons]
      omega
    rw [List.append_assoc, List.cons_append, fields_append_cons isSeparator,
      fields_append_cons isSeparator, induction _ shorter rfl]

theorem fields_trim (text : Text) : fields isSep (trim text) = fields isSep text := by
  rcases exists_trim text with ⟨front, back, isFront, isBack, isText⟩
  conv_rhs => rw [isText, fields_append_right isBack, fields_append_left isFront]

theorem mem_of_mem_fields {part : Text} {char : Char} (present : part ∈ fields isSep text)
    (inPart : char ∈ part) : char ∈ text := by
  generalize isLength : text.length = length
  induction length using Nat.strong_induction_on generalizing text with
  | _ length induction =>
  rcases whole_or_split isSep text with
    whole | ⟨front, sep, rest, rfl, isSeparator, plain⟩
  · rw [fields_whole whole] at present
    split at present
    · exact absurd present List.not_mem_nil
    · exact mem_of_mem_trim (List.mem_singleton.mp present ▸ inPart)
  · have shorter : rest.length < length := by
      rw [← isLength, List.length_append, List.length_cons]
      omega
    rw [fields_append_cons isSeparator, fields_whole plain] at present
    rcases List.mem_append.mp present with isFront | isRest
    · split at isFront
      · exact absurd isFront List.not_mem_nil
      · exact List.mem_append_left _
          (mem_of_mem_trim (List.mem_singleton.mp isFront ▸ inPart))
    · exact List.mem_append_right _
        (List.mem_cons_of_mem _ (induction _ shorter isRest rfl))

end

/-! ## Bytes -/

theorem encodeUtf8_injective : Function.Injective encodeUtf8 := by
  intro text other same
  have sameEncoded : text.utf8Encode = other.utf8Encode := by
    rw [List.utf8Encode, List.utf8Encode]
    exact congrArg List.toByteArray same
  have decoded (text : Text) : text.utf8Encode.utf8Decode? = some text.toArray :=
    List.utf8Decode?_utf8Encode
  have sameArray := (decoded text).symm.trans (sameEncoded ▸ decoded other)
  exact congrArg Array.toList (Option.some.inj sameArray)

end Peony
