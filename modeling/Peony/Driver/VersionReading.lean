import Mathlib.Data.Fintype.EquivFin
import Peony.Driver.VersionTokens

namespace Peony

/-! Which names a version script exports, and when they are the ones it lists. -/

/-! ## Reading a text -/

def readVersionText (state : VersionScript × Bool) (text : Text) : VersionScript × Bool :=
  (fields isBreak text).foldl VersionScript.token state

def hearName (state : VersionScript × Bool) (name : Text) : VersionScript × Bool :=
  if state.2 then (state.1.allow name, true) else state

def labelText (isGlobal : Bool) : Text := keyword isGlobal ++ [':']

theorem hearName_snd (state : VersionScript × Bool) (name : Text) :
    (hearName state name).2 = state.2 := by
  unfold hearName
  split
  · rename_i opened
    exact opened.symm
  · rfl

theorem hearName_closed {state : VersionScript × Bool} (closed : state.2 = false)
    (name : Text) : hearName state name = state := by
  rw [hearName, closed, if_neg nofun]

theorem foldl_hearName (state : VersionScript × Bool) (names : List Text) :
    names.foldl hearName state =
      if state.2 then (names.foldl VersionScript.allow state.1, true) else state := by
  induction names generalizing state with
  | nil =>
      rcases state with ⟨script, opened⟩
      cases opened <;> rfl
  | cons name rest induction =>
      rw [List.foldl_cons, induction, hearName_snd]
      rcases state with ⟨script, opened⟩
      cases opened <;> rfl

theorem token_label (state : VersionScript × Bool) (isGlobal : Bool) :
    VersionScript.token state (labelText isGlobal) = (state.1, isGlobal) := by
  cases isGlobal <;> rfl

theorem splitOnP_without {isSep : Char → Bool} {text part : Text}
    (present : part ∈ text.splitOnP isSep) : ∀ char ∈ part, isSep char = false := by
  generalize isLength : text.length = length
  induction length using Nat.strong_induction_on generalizing text with
  | _ length induction =>
  rcases whole_or_split isSep text with whole | ⟨front, sep, rest, rfl, isSeparator, plain⟩
  · rw [List.splitOnP_eq_singleton whole] at present
    exact List.mem_singleton.mp present ▸ whole
  · have shorter : rest.length < length := by
      rw [← isLength, List.length_append, List.length_cons]
      omega
    rw [List.splitOnP_append_cons _ _ isSeparator, List.splitOnP_eq_singleton plain] at present
    rcases List.mem_append.mp present with isFront | isRest
    · exact List.mem_singleton.mp isFront ▸ plain
    · exact induction _ shorter isRest rfl

theorem token_names (state : VersionScript × Bool) {token : Text}
    (noLabel : ∀ isGlobal, token ≠ labelText isGlobal) :
    VersionScript.token state token =
      (fields (· == ';') token).foldl hearName state := by
  have names : (((token.splitOnP (· == ';')).map trim).filter fun name =>
      !name.isEmpty && name != ascii ";") = fields (· == ';') token := by
    apply List.filter_congr
    intro name present
    rcases List.mem_map.mp present with ⟨part, isPart, rfl⟩
    have different : trim part ≠ ascii ";" := by
      intro same
      have inPart : ';' ∈ part := mem_of_mem_trim (same ▸ by decide)
      exact nomatch splitOnP_without isPart _ inPart
    rw [bne_iff_ne.mpr different, Bool.and_true]
  have notGlobal : token ≠ ascii "global:" := noLabel true
  have notLocal : token ≠ ascii "local:" := noLabel false
  rw [VersionScript.token, if_neg notGlobal, if_neg notLocal, foldl_hearName, names]

/-! ## Texts that end a token -/

def IsUnbroken (text : Text) : Prop := ∀ char ∈ text, isBreak char = false

section

variable {state : VersionScript × Bool} {text front back rest : Text}

theorem read_append_break {char : Char} (isEnd : isBreak char = true) :
    readVersionText state (front ++ char :: back) =
      readVersionText (readVersionText state front) back := by
  rw [readVersionText, fields_append_cons isEnd, List.foldl_append]
  rfl

theorem read_break {char : Char} (isEnd : isBreak char = true) :
    readVersionText state (char :: rest) = readVersionText state rest := by
  rw [readVersionText, fields_cons isEnd]
  rfl

theorem read_space_left (space : IsSpace front) :
    readVersionText state (front ++ text) = readVersionText state text := by
  rw [readVersionText, fields_append_left space]
  rfl

theorem read_space_right (space : IsSpace back) :
    readVersionText state (text ++ back) = readVersionText state text := by
  rw [readVersionText, fields_append_right space]
  rfl

theorem mem_trim {char : Char} (present : char ∈ text) (notSpace : isWhitespace char = false) :
    char ∈ trim text := by
  rcases exists_trim text with ⟨front, back, isFront, isBack, isText⟩
  rw [isText, List.mem_append, List.mem_append] at present
  rcases present with (inFront | inside) | inBack
  · exact absurd (isFront char inFront) (by rw [notSpace]; nofun)
  · exact inside
  · exact absurd (isBack char inBack) (by rw [notSpace]; nofun)

theorem read_names (unbroken : IsUnbroken text)
    (noLabel : ∀ isGlobal, trim text ≠ labelText isGlobal) :
    readVersionText state text = (fields (· == ';') text).foldl hearName state := by
  rw [readVersionText, fields_whole unbroken, ← fields_trim]
  split
  · rename_i isEmpty
    rw [isEmpty]
    rfl
  · exact token_names state noLabel

theorem noLabel_of_semicolon (present : ';' ∈ text) (isGlobal : Bool) :
    trim text ≠ labelText isGlobal := by
  intro same
  have inLabel : ';' ∈ labelText isGlobal := same ▸ mem_trim present rfl
  exact absurd inLabel (by cases isGlobal <;> decide)

theorem read_semicolon (unbroken : IsUnbroken front) :
    readVersionText state (front ++ ';' :: rest) =
      readVersionText ((fields (· == ';') front).foldl hearName state) (';' :: rest) := by
  have whole {state : VersionScript × Bool} {front rest : Text} (unbrokenFront : IsUnbroken front)
      (unbrokenRest : IsUnbroken rest) : readVersionText state (front ++ ';' :: rest) =
        (fields (· == ';') front ++ fields (· == ';') rest).foldl hearName state := by
    have unbrokenAll : IsUnbroken (front ++ ';' :: rest) :=
      List.forall_mem_append.mpr ⟨unbrokenFront, List.forall_mem_cons.mpr ⟨rfl, unbrokenRest⟩⟩
    rw [read_names unbrokenAll (noLabel_of_semicolon
      (List.mem_append_right _ List.mem_cons_self)), fields_append_cons rfl]
  have chunk {state : VersionScript × Bool} {front rest : Text} (unbrokenFront : IsUnbroken front)
      (unbrokenRest : IsUnbroken rest) : readVersionText state (front ++ ';' :: rest) =
        readVersionText ((fields (· == ';') front).foldl hearName state) (';' :: rest) := by
    rw [whole unbrokenFront unbrokenRest, ← List.nil_append (';' :: rest),
      whole (List.forall_mem_nil _) unbrokenRest, List.foldl_append]
    rfl
  rcases whole_or_split isBreak rest with unbrokenRest | ⟨near, char, far, rfl, isEnd, plain⟩
  · exact chunk unbroken unbrokenRest
  · rw [← List.cons_append, ← List.append_assoc, read_append_break isEnd,
      read_append_break isEnd, chunk unbroken plain]

/-- Whitespace after a semicolon in one line does not matter. -/
theorem read_semicolon_space (space : IsSpace front) (unbroken : IsUnbroken front) :
    readVersionText state (';' :: (front ++ rest)) = readVersionText state (';' :: rest) := by
  have whole {rest : Text} (unbrokenRest : IsUnbroken rest) :
      readVersionText state (';' :: rest) = (fields (· == ';') rest).foldl hearName state := by
    rw [read_names (List.forall_mem_cons.mpr ⟨rfl, unbrokenRest⟩)
      (noLabel_of_semicolon List.mem_cons_self), fields_cons rfl]
  have chunk {rest : Text} (unbrokenRest : IsUnbroken rest) :
      readVersionText state (';' :: (front ++ rest)) =
        readVersionText state (';' :: rest) := by
    rw [whole (List.forall_mem_append.mpr ⟨unbroken, unbrokenRest⟩), whole unbrokenRest,
      fields_append_left space]
  rcases whole_or_split isBreak rest with unbrokenRest | ⟨near, char, far, rfl, isEnd, plain⟩
  · exact chunk unbrokenRest
  · have first : ';' :: (front ++ (near ++ char :: far)) =
        ';' :: (front ++ near) ++ char :: far := by
      rw [← List.append_assoc, List.cons_append]
    have second : ';' :: (near ++ char :: far) = ';' :: near ++ char :: far := rfl
    rw [first, second, read_append_break isEnd, read_append_break isEnd, chunk plain]

end

/-! ## Gaps and names -/

def gapText (gap : Gap) : Text := gap.flatMap Blank.bare

theorem isSpace_gapText (gap : Gap) : IsSpace (gapText gap) := by
  intro char present
  rcases List.mem_flatMap.mp present with ⟨blank, _, inBlank⟩
  cases blank with
  | space other isSpace => exact List.mem_singleton.mp inBlank ▸ isSpace
  | line _ => exact List.mem_singleton.mp inBlank ▸ rfl
  | block _ _ => exact absurd inBlank List.not_mem_nil

theorem isBreak_space {char : Char} (isSpace : isWhitespace char = true) :
    isBreak char = decide (char ∈ ascii " \t\n") := by
  have others : char ∉ ascii "\x7b\x7d()" := by
    intro present
    have none : (ascii "\x7b\x7d()").all fun char => !isWhitespace char := by decide
    have notSpace := List.all_eq_true.mp none char present
    rw [isSpace] at notSpace
    exact nomatch notSpace
  have parts : ascii " \t\x7b\x7d()" = ascii " \t" ++ ascii "\x7b\x7d()" := by decide
  have ends : ascii " \t\n" = ascii " \t" ++ ['\n'] := by decide
  rw [isBreak, isVersionSeparator, parts, ends, Bool.eq_iff_iff]
  simp only [Bool.or_eq_true, beq_iff_eq, decide_eq_true_eq, List.mem_append,
    List.mem_singleton, others, or_false]
  exact or_comm

theorem gapText_separates {gap : Gap} (separates : gap.separates = true) :
    ∃ front char back, gapText gap = front ++ char :: back ∧ isBreak char = true ∧
      IsSpace front ∧ IsSpace back := by
  rcases List.any_eq_true.mp separates with ⟨blank, present, isSeparator⟩
  rcases List.append_of_mem present with ⟨before, after, rfl⟩
  have spaces := isSpace_gapText
  rw [gapText, List.flatMap_append, List.flatMap_cons]
  cases blank with
  | space char isSpace =>
      exact ⟨_, char, _, rfl, (isBreak_space isSpace).trans isSeparator, spaces before,
        spaces after⟩
  | line _ => exact ⟨_, '\n', _, rfl, rfl, spaces before, spaces after⟩
  | block _ _ => exact nomatch isSeparator

theorem gapText_unbroken {gap : Gap} (touches : gap.separates = false) :
    IsUnbroken (gapText gap) := by
  intro char present
  rcases List.mem_flatMap.mp present with ⟨blank, isBlank, inBlank⟩
  have noSeparator := List.any_eq_false.mp touches blank isBlank
  cases blank with
  | space other isSpace =>
      cases List.mem_singleton.mp inBlank
      rw [isBreak_space isSpace]
      exact Bool.eq_false_iff.mpr noSeparator
  | line _ => exact absurd rfl noSeparator
  | block _ _ => exact absurd inBlank List.not_mem_nil

/-- The semicolon in front, unless what follows stands apart from it. -/
def stub (apart : Bool) : Text := if apart then [] else [';']

section

variable {state : VersionScript × Bool} {text rest : Text} {gap : Gap}

theorem read_gap (separates : gap.separates = true) :
    readVersionText state (text ++ (gapText gap ++ rest)) =
      readVersionText (readVersionText state text) rest := by
  rcases gapText_separates separates with ⟨front, char, back, isGap, isEnd, isFront, isBack⟩
  have parts : text ++ (gapText gap ++ rest) = (text ++ front) ++ char :: (back ++ rest) := by
    rw [isGap]
    simp only [List.append_assoc, List.cons_append]
  rw [parts, read_append_break isEnd, read_space_right isFront, read_space_left isBack]

theorem read_stub (apart : Bool) : readVersionText state (stub apart) = state := by
  cases apart with
  | true => rfl
  | false =>
      have unbroken : IsUnbroken (stub false) := List.forall_mem_singleton.mpr rfl
      rw [read_names unbroken (noLabel_of_semicolon List.mem_cons_self)]
      rfl

theorem read_semicolon_gap :
    readVersionText state (';' :: (gapText gap ++ rest)) =
      readVersionText state (stub gap.separates ++ rest) := by
  cases separates : gap.separates with
  | true =>
      have apart : readVersionText state ([';'] ++ (gapText gap ++ rest)) =
          readVersionText (readVersionText state [';']) rest := read_gap separates
      rw [List.singleton_append] at apart
      exact apart.trans (congrArg (readVersionText · rest) (read_stub false))
  | false => exact read_semicolon_space (isSpace_gapText gap) (gapText_unbroken separates)

theorem entry_chars (entry : NameEntry) : ∀ char ∈ entry.text,
    isWhitespace char = false ∧ isBreak char = false ∧ char ≠ ':' ∧ char ≠ ';' := by
  cases entry with
  | star =>
      intro char present
      cases List.mem_singleton.mp present
      decide
  | symbol name =>
      intro char present
      have plain := name.plain char present
      have notName : (ascii "\n \t\x7b\x7d():;").all fun char => !isNameChar char := by decide
      have different (other : Char) (isOther : other ∈ ascii "\n \t\x7b\x7d():;") :
          char ≠ other := by
        rintro rfl
        have no := List.all_eq_true.mp notName char isOther
        rw [plain] at no
        exact nomatch no
      have unbroken : isBreak char = false := by
        rw [isBreak, isVersionSeparator, beq_false_of_ne (different '\n' (by decide)),
          Bool.false_or, decide_eq_false_iff_not]
        intro isSeparator
        refine different char ?_ rfl
        have parts : ascii "\n \t\x7b\x7d():;" =
            '\n' :: (ascii " \t\x7b\x7d()" ++ ascii ":;") := by decide
        rw [parts]
        exact List.mem_cons_of_mem _ (List.mem_append_left _ isSeparator)
      have notSpace : isWhitespace char = false := by
        rw [isNameChar, Bool.and_eq_true, Bool.not_eq_true'] at plain
        exact plain.1
      exact ⟨notSpace, unbroken, different ':' (by decide), different ';' (by decide)⟩

end

/-! ## Parts of a line -/

structure ReadsAs (text name : Text) : Prop where
  unbroken : IsUnbroken text
  noLabel : ∀ isGlobal, trim text ≠ labelText isGlobal
  alone : fields (· == ';') text = [name]

namespace ReadsAs

variable {text name back rest : Text} {state : VersionScript × Bool}

theorem append_space (reads : ReadsAs text name) (space : IsSpace back)
    (unbroken : IsUnbroken back) : ReadsAs (text ++ back) name where
  unbroken := List.forall_mem_append.mpr ⟨reads.unbroken, unbroken⟩
  noLabel := by
    rw [trim_append_right space]
    exact reads.noLabel
  alone := by
    rw [fields_append_right space]
    exact reads.alone

theorem read (reads : ReadsAs text name) :
    readVersionText state text = hearName state name := by
  rw [read_names reads.unbroken reads.noLabel, reads.alone]
  rfl

theorem read_before (reads : ReadsAs text name) :
    readVersionText state (text ++ ';' :: rest) =
      readVersionText (hearName state name) (';' :: rest) := by
  rw [read_semicolon reads.unbroken, reads.alone]
  rfl

theorem read_listed (reads : ReadsAs text name) (beforeEnd afterEnd : Gap) :
    readVersionText state
        (text ++ (gapText beforeEnd ++ ';' :: (gapText afterEnd ++ rest))) =
      readVersionText (hearName state name) (stub afterEnd.separates ++ rest) := by
  cases separates : beforeEnd.separates with
  | true => rw [read_gap separates, reads.read, read_semicolon_gap]
  | false =>
      have longer := reads.append_space (isSpace_gapText beforeEnd) (gapText_unbroken separates)
      rw [← List.append_assoc, longer.read_before, read_semicolon_gap]

end ReadsAs

theorem trim_solid {text : Text} (solid : ∀ char ∈ text, isWhitespace char = false) :
    trim text = text :=
  trim_eq_self (fun char present => solid char (List.mem_of_mem_head? present))
    fun char present => solid char (List.mem_of_mem_getLast? present)

theorem unbroken_stub (apart : Bool) : IsUnbroken (stub apart) := by
  cases apart with
  | true => exact nofun
  | false => exact List.forall_mem_singleton.mpr rfl

theorem fields_stub_append (apart : Bool) {text : Text} (noSemicolon : ';' ∉ text)
    (nonempty : trim text ≠ []) :
    fields (· == ';') (stub apart ++ text) = [trim text] := by
  have whole : ∀ char ∈ text, (char == ';') = false := fun char present =>
    beq_false_of_ne fun same => noSemicolon (same ▸ present)
  have alone : fields (· == ';') text = [trim text] := by
    rw [fields_whole whole, if_neg nonempty]
  cases apart with
  | true => exact alone
  | false => exact (fields_cons rfl).trans alone

theorem trim_entry (entry : NameEntry) : trim entry.text = entry.text :=
  trim_solid fun char present => (entry_chars entry char present).1

theorem entry_nonempty (entry : NameEntry) : entry.text ≠ [] := by
  cases entry with
  | star => decide
  | symbol name => exact name.nonempty

theorem readsAs_entry (apart : Bool) (entry : NameEntry) :
    ReadsAs (stub apart ++ entry.text) entry.text where
  unbroken := List.forall_mem_append.mpr
    ⟨unbroken_stub apart, fun char present => (entry_chars entry char present).2.1⟩
  noLabel := by
    intro isGlobal
    cases apart with
    | false => exact noLabel_of_semicolon List.mem_cons_self isGlobal
    | true =>
        intro same
        change trim entry.text = _ at same
        have colon : ':' ∈ entry.text := by
          rw [← trim_entry, same]
          exact List.mem_append_right _ List.mem_cons_self
        exact (entry_chars entry ':' colon).2.2.1 rfl
  alone := by
    have noSemicolon : ';' ∉ entry.text := fun present =>
      (entry_chars entry ';' present).2.2.2 rfl
    have nonempty : trim entry.text ≠ [] := by
      rw [trim_entry]
      exact entry_nonempty entry
    rw [fields_stub_append apart noSemicolon nonempty, trim_entry]

/-! ## Labels that do not stand apart -/

def WaitsForEnd (text : Text) : Prop :=
  ∃ apart words, text = stub apart ++ words ∧ IsUnbroken words ∧ ';' ∉ words ∧ ':' ∈ words

theorem WaitsForEnd.append {text more : Text} (waits : WaitsForEnd text)
    (unbroken : IsUnbroken more) (noSemicolon : ';' ∉ more) : WaitsForEnd (text ++ more) := by
  rcases waits with ⟨apart, words, rfl, plain, none, colon⟩
  refine ⟨apart, words ++ more, List.append_assoc _ _ _,
    List.forall_mem_append.mpr ⟨plain, unbroken⟩, ?_, List.mem_append_left _ colon⟩
  exact List.mem_append.not.mpr (not_or.mpr ⟨none, noSemicolon⟩)

theorem WaitsForEnd.readsAs {text : Text} (waits : WaitsForEnd text)
    (noLabel : ∀ isGlobal, trim text ≠ labelText isGlobal) :
    ∃ name, ':' ∈ name ∧ ReadsAs text name := by
  rcases waits with ⟨apart, words, rfl, plain, noSemicolon, colon⟩
  have inTrimmed : ':' ∈ trim words := mem_trim colon rfl
  refine ⟨trim words, inTrimmed, ?_, noLabel, ?_⟩
  · exact List.forall_mem_append.mpr ⟨unbroken_stub apart, plain⟩
  · exact fields_stub_append apart noSemicolon (List.ne_nil_of_mem inTrimmed)

theorem WaitsForEnd.colon {text : Text} (waits : WaitsForEnd text) : ':' ∈ text := by
  rcases waits with ⟨_, _, rfl, _, _, colon⟩
  exact List.mem_append_right _ colon

theorem noLabel_of_colon {front back : Text} {char : Char} (colon : ':' ∈ front)
    (notSpace : isWhitespace char = false) (isGlobal : Bool) :
    trim (front ++ char :: back) ≠ labelText isGlobal := by
  intro same
  rcases exists_trim (front ++ char :: back) with ⟨near, far, isNear, isFar, parts⟩
  rw [same] at parts
  let noColon : Char → Bool := (· != ':')
  have first : (near ++ labelText isGlobal ++ far).dropWhile noColon = ':' :: far := by
    have nearPlain : ∀ char ∈ near, noColon char = true := fun char present =>
      bne_iff_ne.mpr fun isColon => nomatch isColon ▸ isNear char present
    have keywordPlain : ∀ char ∈ keyword isGlobal, noColon char = true :=
      List.all_eq_true.mp (by cases isGlobal <;> decide)
    rw [labelText, List.append_assoc, List.append_assoc, List.dropWhile_append_of_pos nearPlain,
      List.dropWhile_append_of_pos keywordPlain]
    rfl
  have someLeft : front.dropWhile noColon ≠ [] := by
    rw [Ne, List.dropWhile_eq_nil_iff]
    exact fun all => absurd (all ':' colon) nofun
  rcases List.exists_cons_of_ne_nil someLeft with ⟨head, rest, isLeft⟩
  have second : (front ++ char :: back).dropWhile noColon = head :: rest ++ char :: back := by
    rw [List.dropWhile_append, isLeft]
    rfl
  rw [parts, first] at second
  have inFar : char ∈ far :=
    (List.cons.inj second).2 ▸ List.mem_append_right _ List.mem_cons_self
  exact absurd (isFar char inFar) (by rw [notSpace]; nofun)

/-! ## What the state tells -/

/-- The names read so far: those of the entries, and others where labels were mixed with
them. Such a one can still wait for its end. -/
structure Tells (state : VersionScript × Bool) (entries : List NameEntry) (mixed : Bool)
    (waits : Prop) : Prop where
  star : state.1.globalWildcard = true ↔ .star ∈ entries
  symbols : mixed = false → ∀ name, name ∈ state.1.exact ↔
    ∃ symbol, .symbol symbol ∈ entries ∧ encodeUtf8 symbol.text = name
  colon : mixed = true →
    (∃ text, ':' ∈ text ∧ encodeUtf8 text ∈ state.1.exact) ∨ (waits ∧ state.2 = true)
  waiting : waits → state.2 = true → mixed = true

namespace Tells

variable {state : VersionScript × Bool} {entries : List NameEntry} {mixed : Bool}
variable {waits : Prop}

theorem empty (opened : Bool) : Tells (VersionScript.empty, opened) [] false False where
  star := ⟨nofun, nofun⟩
  symbols _ name := ⟨fun present => absurd present (Finset.notMem_empty name), nofun⟩
  colon := nofun
  waiting := False.elim

theorem label (tells : Tells state entries mixed False) (isGlobal : Bool) :
    Tells (state.1, isGlobal) entries mixed False where
  star := tells.star
  symbols := tells.symbols
  colon isMixed := .inl ((tells.colon isMixed).resolve_right fun both => both.1)
  waiting := False.elim

theorem wait (tells : Tells state entries mixed waits) :
    Tells state entries (mixed || state.2) True where
  star := tells.star
  symbols notMixed := tells.symbols (Bool.or_eq_false_iff.mp notMixed).1
  colon isMixed := by
    rcases Bool.or_eq_true_iff.mp isMixed with isMixed | opened
    · exact (tells.colon isMixed).imp_right fun both => ⟨trivial, both.2⟩
    · exact .inr ⟨trivial, opened⟩
  waiting _ opened := Bool.or_eq_true_iff.mpr (.inr opened)

theorem hear (tells : Tells state entries mixed False) (entry : NameEntry) :
    Tells (hearName state entry.text) (entries ++ if state.2 then [entry] else []) mixed
      False := by
  cases opened : state.2 with
  | false =>
      rw [hearName_closed opened, if_neg nofun, List.append_nil]
      exact tells
  | true =>
      have wrote : (∃ text, ':' ∈ text ∧ encodeUtf8 text ∈ state.1.exact) ∨ mixed = false := by
        cases isMixed : mixed with
        | false => exact .inr rfl
        | true => exact .inl ((tells.colon isMixed).resolve_right fun both => both.1)
      rw [hearName, opened, if_pos rfl, if_pos rfl]
      cases entry with
      | star =>
          rw [VersionScript.allow, if_pos (show NameEntry.star.text = ascii "*" from rfl)]
          refine ⟨?_, ?_, ?_, False.elim⟩
          · exact ⟨fun _ => List.mem_append_right _ List.mem_cons_self, fun _ => rfl⟩
          · intro notMixed name
            rw [tells.symbols notMixed]
            simp
          · intro isMixed
            exact .inl (wrote.resolve_right (by rw [isMixed]; nofun))
      | symbol symbol =>
          have notStar : symbol.text ≠ ascii "*" := by
            intro same
            have plain := symbol.plain '*' (same ▸ List.mem_cons_self)
            exact absurd plain (by decide)
          rw [VersionScript.allow, if_neg (show (NameEntry.symbol symbol).text ≠ _ from notStar)]
          refine ⟨?_, ?_, ?_, False.elim⟩
          · rw [tells.star]
            simp
          · intro notMixed name
            rw [Finset.mem_insert, tells.symbols notMixed]
            simp only [List.mem_append, List.mem_singleton, NameEntry.symbol.injEq]
            constructor
            · rintro (rfl | ⟨other, present, isName⟩)
              · exact ⟨symbol, .inr rfl, rfl⟩
              · exact ⟨other, .inl present, isName⟩
            · rintro ⟨other, present | rfl, isName⟩
              · exact .inr ⟨other, present, isName⟩
              · exact .inl isName.symm
          · intro isMixed
            rcases wrote.resolve_right (by rw [isMixed]; nofun) with ⟨text, colon, present⟩
            exact .inl ⟨text, colon, Finset.mem_insert_of_mem present⟩

theorem hearAll (tells : Tells state entries mixed False) (more : List NameEntry) :
    Tells (more.foldl (fun state entry => hearName state entry.text) state)
      (entries ++ if state.2 then more else []) mixed False := by
  induction more generalizing state entries with
  | nil =>
      rw [ite_self, List.append_nil]
      exact tells
  | cons entry more induction =>
      have next := induction (tells.hear entry)
      rw [hearName_snd] at next
      cases opened : state.2 <;> simpa [opened] using next

/-- Another word than an entry. -/
theorem noise (tells : Tells state entries mixed waits) {text : Text}
    (notStar : text ≠ ascii "*") :
    Tells (hearName state text) entries (mixed || state.2) True := by
  cases opened : state.2 with
  | false =>
      rw [hearName_closed opened, Bool.or_false]
      exact ⟨tells.star, tells.symbols, fun isMixed => .inl ((tells.colon isMixed).resolve_right
        fun both => nomatch opened.symm.trans both.2), fun _ isOpen =>
          nomatch opened.symm.trans isOpen⟩
  | true =>
      rw [hearName, opened, if_pos rfl, VersionScript.allow, if_neg notStar, Bool.or_true]
      exact ⟨tells.star, nofun, fun _ => .inr ⟨trivial, rfl⟩, fun _ _ => rfl⟩

/-- A word with a colon has come to its end. -/
theorem mix (tells : Tells state entries mixed waits) {text : Text} (colon : ':' ∈ text) :
    Tells (hearName state text) entries (mixed || state.2) False := by
  have notStar : text ≠ ascii "*" := by
    rintro rfl
    exact absurd colon (by decide)
  cases opened : state.2 with
  | false =>
      rw [hearName_closed opened, Bool.or_false]
      exact ⟨tells.star, tells.symbols, fun isMixed => .inl ((tells.colon isMixed).resolve_right
        fun both => nomatch opened.symm.trans both.2), False.elim⟩
  | true =>
      rw [hearName, opened, if_pos rfl, VersionScript.allow, if_neg notStar, Bool.or_true]
      exact ⟨tells.star, nofun, fun _ =>
        .inl ⟨text, colon, Finset.mem_insert_self _ _⟩, False.elim⟩

end Tells

/-! ## Lists of names -/

theorem read_names_list (apart : Bool) (names : List ListedName)
    (state : VersionScript × Bool) (rest : Text) :
    readVersionText state
        (stub apart ++ (names.flatMap (ListedName.written Blank.bare) ++ rest)) =
      readVersionText
        ((names.map ListedName.entry).foldl (fun state entry => hearName state entry.text)
          state)
        (stub ((names.getLast?.map fun listed => listed.afterEnd.separates).getD apart) ++
          rest) := by
  induction names generalizing apart state with
  | nil => rfl
  | cons listed names induction =>
      have parts : stub apart ++
          ((listed :: names).flatMap (ListedName.written Blank.bare) ++ rest) =
          (stub apart ++ listed.entry.text) ++ (gapText listed.beforeEnd ++
            ';' :: (gapText listed.afterEnd ++
              (names.flatMap (ListedName.written Blank.bare) ++ rest))) := by
        simp only [List.flatMap_cons, ListedName.written, gapText, List.append_assoc,
          List.cons_append]
      have lastApart : ((listed :: names).getLast?.map fun listed =>
          listed.afterEnd.separates).getD apart =
            (names.getLast?.map fun listed => listed.afterEnd.separates).getD
              listed.afterEnd.separates := by
        rw [List.getLast?_cons, Option.map_some, Option.getD_some]
        cases names.getLast? <;> rfl
      rw [parts, (readsAs_entry apart listed.entry).read_listed, induction, lastApart]
      rfl

theorem NameList.endsApart_eq (list : NameList) :
    list.endsApart = (list.names.getLast?.map fun listed =>
      listed.afterEnd.separates).getD list.afterColon.separates := by
  unfold NameList.endsApart
  cases list.names.getLast? <;> rfl

/-! ## Labels -/

def keywordName (isGlobal : Bool) : SymbolName where
  text := keyword isGlobal
  nonempty := by cases isGlobal <;> decide
  plain := keyword_plain isGlobal

theorem waitsForEnd_stub (apart : Bool) : ¬ WaitsForEnd (stub apart) := by
  intro waits
  exact absurd waits.colon (by cases apart <;> decide)

/-- A keyword that is not directly before its colon, or does not begin a token, is part of
no label. -/
theorem noLabel_keyword {gap : Gap} (noBlock : ∀ blank ∈ gap, blank.isBlock = false)
    (notEmpty : gap ≠ []) (isGlobal other : Bool) :
    trim (keyword isGlobal ++ (gapText gap ++ [':'])) ≠ labelText other := by
  intro same
  have solid : trim (keyword isGlobal ++ (gapText gap ++ [':'])) =
      keyword isGlobal ++ (gapText gap ++ [':']) := by
    apply trim_eq_self
    · cases isGlobal with
      | true =>
          intro char first
          cases first
          rfl
      | false =>
          intro char first
          cases first
          rfl
    · intro char last
      rw [← List.append_assoc, List.getLast?_concat] at last
      cases last
      rfl
  have someSpace : ∃ char, char ∈ gapText gap := by
    rcases List.exists_cons_of_ne_nil notEmpty with ⟨blank, rest, rfl⟩
    have none := noBlock blank List.mem_cons_self
    rw [gapText, List.flatMap_cons]
    cases blank with
    | space char _ => exact ⟨char, List.mem_append_left _ List.mem_cons_self⟩
    | line _ => exact ⟨'\n', List.mem_append_left _ List.mem_cons_self⟩
    | block _ _ => exact nomatch none
  rcases someSpace with ⟨char, present⟩
  have inLabel : char ∈ labelText other := by
    rw [← same, solid]
    exact List.mem_append_right _ (List.mem_append_left _ present)
  have noSpace : (labelText other).all fun char => !isWhitespace char := by
    cases other <;> decide
  have notSpace := List.all_eq_true.mp noSpace char inLabel
  rw [isSpace_gapText gap char present] at notSpace
  exact nomatch notSpace

theorem noSemicolon_gapText (gap : Gap) : ';' ∉ gapText gap := fun present =>
  nomatch isSpace_gapText gap ';' present

theorem unbroken_keyword (isGlobal : Bool) : IsUnbroken (keyword isGlobal) :=
  fun char present => (entry_chars (.symbol (keywordName isGlobal)) char present).2.1

theorem noSemicolon_keyword (isGlobal : Bool) : ';' ∉ keyword isGlobal := by
  cases isGlobal <;> decide

theorem noLabel_colon (isGlobal : Bool) : trim [':'] ≠ labelText isGlobal := by
  cases isGlobal <;> decide

theorem noLabel_waiting {text : Text} (colon : ':' ∈ text) (isGlobal other : Bool)
    (back : Text) : trim (text ++ (keyword isGlobal ++ back)) ≠ labelText other := by
  cases isGlobal with
  | true => exact noLabel_of_colon colon rfl other
  | false => exact noLabel_of_colon colon rfl other

theorem read_keyword {state : VersionScript × Bool} {text : Text} {entries : List NameEntry}
    {mixed : Bool} (boundary : (∃ apart, text = stub apart) ∨ WaitsForEnd text)
    (tells : Tells state entries mixed (WaitsForEnd text)) (isGlobal : Bool) :
    ∃ word, readVersionText state (text ++ keyword isGlobal) = hearName state word ∧
      Tells (hearName state word) entries (mixed || state.2) True := by
  rcases boundary with ⟨apart, rfl⟩ | waits
  · have reads : ReadsAs (stub apart ++ keyword isGlobal) (keyword isGlobal) :=
      readsAs_entry apart (.symbol (keywordName isGlobal))
    have notStar : keyword isGlobal ≠ ascii "*" := by cases isGlobal <;> decide
    exact ⟨keyword isGlobal, reads.read, tells.noise notStar⟩
  · have longer := waits.append (unbroken_keyword isGlobal) (noSemicolon_keyword isGlobal)
    have noLabel : ∀ other, trim (text ++ keyword isGlobal) ≠ labelText other := by
      intro other
      have kept := noLabel_waiting waits.colon isGlobal other []
      rwa [List.append_nil] at kept
    rcases longer.readsAs noLabel with ⟨word, colon, reads⟩
    refine ⟨word, reads.read, ?_⟩
    have told := (tells.mix colon).wait
    rwa [hearName_snd, Bool.or_assoc, Bool.or_self] at told

/-- After a label the text waits for its end with a colon in it. It is a label for sure
only if nothing was in front of it or before its colon. -/
theorem read_label {state : VersionScript × Bool} {text : Text} {entries : List NameEntry}
    {mixed : Bool} {gap : Gap} (noBlock : ∀ blank ∈ gap, blank.isBlock = false)
    (boundary : (∃ apart, text = stub apart) ∨ WaitsForEnd text)
    (tells : Tells state entries mixed (WaitsForEnd text)) (isGlobal : Bool) :
    ∃ after waiting,
      (∀ rest, readVersionText state
        (text ++ (keyword isGlobal ++ (gapText gap ++ ':' :: rest))) =
          readVersionText after (waiting ++ rest)) ∧
      WaitsForEnd waiting ∧ after.2 = state.2 ∧
      Tells after entries (mixed || state.2) True ∧
      (¬ (text = [] ∧ gap = []) → ∀ other, trim waiting ≠ labelText other) := by
  cases separates : gap.separates with
  | false =>
      refine ⟨state, text ++ (keyword isGlobal ++ (gapText gap ++ [':'])), ?_, ?_, rfl,
        tells.wait, ?_⟩
      · intro rest
        simp only [List.append_assoc, List.cons_append, List.nil_append]
      · have unbroken : IsUnbroken (keyword isGlobal ++ (gapText gap ++ [':'])) :=
          List.forall_mem_append.mpr ⟨unbroken_keyword isGlobal,
            List.forall_mem_append.mpr ⟨gapText_unbroken separates,
              List.forall_mem_singleton.mpr rfl⟩⟩
        have noSemicolon : ';' ∉ keyword isGlobal ++ (gapText gap ++ [':']) := by
          rw [List.mem_append, List.mem_append, not_or, not_or]
          exact ⟨noSemicolon_keyword isGlobal, noSemicolon_gapText gap, by decide⟩
        rcases boundary with ⟨apart, rfl⟩ | waits
        · refine ⟨apart, _, rfl, unbroken, noSemicolon, ?_⟩
          exact List.mem_append_right _ (List.mem_append_right _ List.mem_cons_self)
        · exact waits.append unbroken noSemicolon
      · intro notApart other
        rcases boundary with ⟨apart, rfl⟩ | waits
        · cases apart with
          | false => exact noLabel_of_semicolon List.mem_cons_self other
          | true => exact noLabel_keyword noBlock (fun isEmpty => notApart ⟨rfl, isEmpty⟩) _ _
        · exact noLabel_waiting waits.colon isGlobal other _
  | true =>
      have read (rest : Text) : readVersionText state
          (text ++ (keyword isGlobal ++ (gapText gap ++ ':' :: rest))) =
            readVersionText (readVersionText state (text ++ keyword isGlobal))
              ([':'] ++ rest) := by
        rw [← List.append_assoc, read_gap separates]
        rfl
      have waitsColon : WaitsForEnd [':'] :=
        ⟨true, [':'], rfl, List.forall_mem_singleton.mpr rfl, by decide, List.mem_cons_self⟩
      rcases read_keyword boundary tells isGlobal with ⟨word, isRead, told⟩
      refine ⟨_, [':'], read, waitsColon, ?_, isRead ▸ told, fun _ => noLabel_colon⟩
      rw [isRead, hearName_snd]

theorem read_labelText (state : VersionScript × Bool) (isGlobal : Bool) :
    readVersionText state (labelText isGlobal) = (state.1, isGlobal) := by
  have whole : fields isBreak (labelText isGlobal) = [labelText isGlobal] := by
    cases isGlobal <;> decide
  rw [readVersionText, whole, List.foldl_cons, List.foldl_nil, token_label]

theorem noLabel_stub (apart isGlobal : Bool) : trim (stub apart) ≠ labelText isGlobal := by
  cases apart <;> cases isGlobal <;> decide

theorem foldl_hearName_snd (entries : List NameEntry) (state : VersionScript × Bool) :
    (entries.foldl (fun state entry => hearName state entry.text) state).2 = state.2 := by
  induction entries generalizing state with
  | nil => rfl
  | cons entry entries induction => rw [List.foldl_cons, induction, hearName_snd]

/-! ## One list -/

structure ReadsList (state : VersionScript × Bool) (text : Text) (list : NameList)
    (isLast : Bool) (entries : List NameEntry) (mixed : Bool)
    (after : VersionScript × Bool) (left : Text) : Prop where
  read : ∀ rest, (isLast = true → ∃ tail, rest = '\x7d' :: tail) →
    readVersionText state (text ++ (list.written Blank.bare ++ rest)) =
      readVersionText after (left ++ rest)
  boundary : (∃ apart, left = stub apart) ∨ WaitsForEnd left
  ends : isLast = false → left.isEmpty = list.endsApart
  noLabel : isLast = true → ∀ other, trim left ≠ labelText other
  opened : after.2 = list.opens state.2 text.isEmpty isLast
  tells : Tells after
    (entries ++ if list.opens state.2 text.isEmpty isLast then list.looseEntries else [])
    (mixed || (state.2 && !list.isApart text.isEmpty isLast)) (WaitsForEnd left)

section

variable {state : VersionScript × Bool} {text : Text} {list : NameList} {isLast : Bool}
variable {entries : List NameEntry} {mixed : Bool}

theorem isEmpty_stub (apart : Bool) : (stub apart).isEmpty = apart := by
  cases apart <;> rfl

theorem ReadsList.of_names (after : VersionScript × Bool) (apart : Bool)
    (names : List ListedName)
    (read : ∀ rest, (isLast = true → ∃ tail, rest = '\x7d' :: tail) →
      readVersionText state (text ++ (list.written Blank.bare ++ rest)) =
        readVersionText after
          (stub apart ++ (names.flatMap (ListedName.written Blank.bare) ++ rest)))
    (ends : (names.getLast?.map fun listed => listed.afterEnd.separates).getD apart =
      list.endsApart)
    (loose : list.looseEntries = names.map ListedName.entry)
    (opened : after.2 = list.opens state.2 text.isEmpty isLast)
    (tells : Tells after entries (mixed || (state.2 && !list.isApart text.isEmpty isLast))
      False) :
    ∃ after left, ReadsList state text list isLast entries mixed after left := by
  refine ⟨_, stub list.endsApart, ?_, .inl ⟨_, rfl⟩, fun _ => isEmpty_stub _,
    fun _ => noLabel_stub _, (foldl_hearName_snd (names.map ListedName.entry) after).trans opened,
    ?_⟩
  · intro rest next
    rw [read rest next, read_names_list, ends]
  · rw [eq_false (waitsForEnd_stub _), loose, ← opened]
    exact tells.hearAll _

/-- A label that stands apart says what the names under it are. -/
theorem readsList_apart (tells : Tells state entries mixed (WaitsForEnd text))
    (apart : list.isApart text.isEmpty isLast = true) :
    ∃ after left, ReadsList state text list isLast entries mixed after left := by
  have opens : list.opens state.2 text.isEmpty isLast = list.isGlobal := if_pos apart
  have sameMixed : (mixed || (state.2 && !list.isApart text.isEmpty isLast)) = mixed := by
    rw [apart, Bool.not_true, Bool.and_false, Bool.or_false]
  rw [NameList.isApart, Bool.and_eq_true, Bool.and_eq_true, Bool.or_eq_true,
    Bool.and_eq_true, List.isEmpty_iff, List.isEmpty_iff, List.isEmpty_iff] at apart
  rcases apart with ⟨⟨rfl, direct⟩, after⟩
  have nothing : WaitsForEnd [] = False := eq_false (waitsForEnd_stub true)
  rw [nothing] at tells
  have parts (rest : Text) : list.written Blank.bare ++ rest =
      labelText list.isGlobal ++ (gapText list.afterColon ++
        (list.names.flatMap (ListedName.written Blank.bare) ++ rest)) := by
    rw [NameList.written, direct, labelText]
    simp only [gapText, List.flatMap_nil, List.append_nil, List.append_assoc,
      List.cons_append, List.nil_append]
  have told := sameMixed.symm ▸ tells.label list.isGlobal
  cases separates : list.afterColon.separates with
  | true =>
      refine ReadsList.of_names (state.1, list.isGlobal) true list.names ?_ ?_ ?_
        opens.symm told
      · intro rest _
        rw [List.nil_append, parts, read_gap separates, read_labelText]
        rfl
      · rw [NameList.endsApart_eq, separates]
      · rw [NameList.looseEntries, separates, if_pos rfl, NameList.entries]
  | false =>
      rcases after.resolve_left (by rw [separates]; nofun) with ⟨noNames, rfl⟩
      have loose : list.looseEntries = [] := by
        rw [NameList.looseEntries, NameList.entries, noNames]
        exact ite_self _
      refine ⟨(state.1, list.isGlobal), [], ?_, .inl ⟨true, rfl⟩, nofun,
        fun _ => noLabel_stub true, opens.symm, ?_⟩
      · intro rest next
        rcases next rfl with ⟨tail, rfl⟩
        have closing : isBreak '\x7d' = true := rfl
        rw [List.nil_append, parts, noNames, List.flatMap_nil, List.nil_append,
          ← List.append_assoc, read_append_break closing,
          read_space_right (isSpace_gapText _), read_labelText, read_break closing]
      · rw [loose, ite_self, List.append_nil, nothing]
        exact told

/-- Another label is mixed with what it touches. -/
theorem readsList_mixed (noBlock : ∀ blank ∈ list.beforeColon, blank.isBlock = false)
    (boundary : (∃ apart, text = stub apart) ∨ WaitsForEnd text)
    (tells : Tells state entries mixed (WaitsForEnd text))
    (notApart : list.isApart text.isEmpty isLast = false) :
    ∃ after left, ReadsList state text list isLast entries mixed after left := by
  have opens : list.opens state.2 text.isEmpty isLast = state.2 :=
    if_neg (by rw [notApart]; nofun)
  have isMixed : (mixed || (state.2 && !list.isApart text.isEmpty isLast)) =
      (mixed || state.2) := by
    rw [notApart, Bool.not_false, Bool.and_true]
  rcases read_label noBlock boundary tells list.isGlobal with
    ⟨labelled, waiting, readLabel, waits, sameOpen, told, noLabel⟩
  have parts (rest : Text) : text ++ (list.written Blank.bare ++ rest) =
      text ++ (keyword list.isGlobal ++ (gapText list.beforeColon ++
        ':' :: (gapText list.afterColon ++
          (list.names.flatMap (ListedName.written Blank.bare) ++ rest)))) := by
    rw [NameList.written]
    simp only [gapText, List.append_assoc, List.cons_append]
  have stays : ((mixed || state.2) || labelled.2) = (mixed || state.2) := by
    rw [sameOpen, Bool.or_assoc, Bool.or_self]
  cases separates : list.afterColon.separates with
  | true =>
      have notBare : ¬ (text = [] ∧ list.beforeColon = []) := by
        rintro ⟨rfl, direct⟩
        rw [NameList.isApart, direct, separates] at notApart
        exact nomatch notApart
      rcases waits.readsAs (noLabel notBare) with ⟨word, colon, reads⟩
      have said := told.mix colon
      rw [stays, ← isMixed] at said
      refine ReadsList.of_names (hearName labelled word) true list.names ?_ ?_ ?_ ?_ said
      · intro rest _
        rw [parts, readLabel, read_gap separates, reads.read]
        rfl
      · rw [NameList.endsApart_eq, separates]
      · rw [NameList.looseEntries, separates, if_pos rfl, NameList.entries]
      · rw [hearName_snd, sameOpen, opens]
  | false =>
      have unbrokenGap := gapText_unbroken separates
      have waitsGap := waits.append unbrokenGap (noSemicolon_gapText list.afterColon)
      cases isNames : list.names with
      | nil =>
          have loose : list.looseEntries = [] := by
            rw [NameList.looseEntries, NameList.entries, isNames]
            exact ite_self _
          refine ⟨labelled, waiting ++ gapText list.afterColon, ?_, .inr waitsGap, ?_, ?_,
            sameOpen.trans opens.symm, ?_⟩
          · intro rest _
            rw [parts, readLabel, isNames, List.flatMap_nil, List.nil_append,
              List.append_assoc]
          · intro _
            rw [NameList.endsApart_eq, isNames, separates]
            exact List.isEmpty_eq_false_iff.mpr (List.ne_nil_of_mem waitsGap.colon)
          · intro isLast other
            rw [trim_append_right (isSpace_gapText _)]
            apply noLabel
            rintro ⟨rfl, direct⟩
            rw [NameList.isApart, direct, isNames, isLast, separates] at notApart
            exact nomatch notApart
          · rw [loose, ite_self, List.append_nil, isMixed, eq_true waitsGap]
            exact told
      | cons listed names =>
          have solid (char : Char) (present : char ∈ listed.entry.text) :=
            entry_chars listed.entry char present
          have waitsName := waitsGap.append (fun char present => (solid char present).2.1)
            fun present => (solid ';' present).2.2.2 rfl
          have noLabelName : ∀ other,
              trim (waiting ++ gapText list.afterColon ++ listed.entry.text) ≠
                labelText other := by
            intro other
            rcases List.exists_cons_of_ne_nil (entry_nonempty listed.entry) with
              ⟨char, rest, isText⟩
            rw [isText]
            apply noLabel_of_colon waitsGap.colon
            exact (solid char (isText ▸ List.mem_cons_self)).1
          rcases waitsName.readsAs noLabelName with ⟨word, colon, reads⟩
          have said := told.mix colon
          rw [stays, ← isMixed] at said
          refine ReadsList.of_names (hearName labelled word) listed.afterEnd.separates names
            ?_ ?_ ?_ ?_ said
          · intro rest _
            have inner : (listed :: names).flatMap (ListedName.written Blank.bare) ++ rest =
                listed.entry.text ++ (gapText listed.beforeEnd ++
                  ';' :: (gapText listed.afterEnd ++
                    (names.flatMap (ListedName.written Blank.bare) ++ rest))) := by
              simp only [List.flatMap_cons, ListedName.written, gapText, List.append_assoc,
                List.cons_append]
            rw [parts, readLabel, isNames, inner, ← List.append_assoc, ← List.append_assoc,
              reads.read_listed]
          · rw [NameList.endsApart_eq, isNames, List.getLast?_cons, Option.map_some,
              Option.getD_some]
            cases names.getLast? <;> rfl
          · rw [NameList.looseEntries, separates, if_neg nofun, NameList.entries, isNames]
            rfl
          · rw [hearName_snd, sameOpen, opens]

end

/-! ## All lists -/

theorem read_lists {lists : List NameList} {state : VersionScript × Bool} {text : Text}
    {entries : List NameEntry} {mixed : Bool}
    (noBlock : ∀ list ∈ lists, ∀ blank ∈ list.beforeColon, blank.isBlock = false)
    (boundary : (∃ apart, text = stub apart) ∨ WaitsForEnd text)
    (tells : Tells state entries mixed (WaitsForEnd text))
    (noLabel : lists = [] → ∀ other, trim text ≠ labelText other) :
    ∃ after,
      (∀ tail, readVersionText state
        (text ++ (lists.flatMap (NameList.written Blank.bare) ++ '\x7d' :: tail)) =
          readVersionText after tail) ∧
      Tells after (entries ++ heardEntries state.2 text.isEmpty lists)
        (mixed || mixesLabel state.2 text.isEmpty lists) False := by
  have closing : isBreak '\x7d' = true := rfl
  induction lists generalizing state text entries mixed with
  | nil =>
      rw [heardEntries, mixesLabel, List.append_nil, Bool.or_false]
      rcases boundary with ⟨apart, rfl⟩ | waits
      · rw [eq_false (waitsForEnd_stub apart)] at tells
        refine ⟨state, fun tail => ?_, tells⟩
        rw [List.flatMap_nil, List.nil_append, read_append_break closing, read_stub]
      · rcases waits.readsAs (noLabel rfl) with ⟨word, colon, reads⟩
        have said := tells.mix colon
        refine ⟨hearName state word, fun tail => ?_, ?_⟩
        · rw [List.flatMap_nil, List.nil_append, read_append_break closing, reads.read]
        · have sameMixed : (mixed || state.2) = mixed := by
            cases opened : state.2 with
            | false => exact Bool.or_false mixed
            | true =>
                rw [tells.waiting waits opened]
                rfl
          rwa [sameMixed] at said
  | cons list rest induction =>
      rcases List.forall_mem_cons.mp noBlock with ⟨first, others⟩
      have one : ∃ after left,
          ReadsList state text list rest.isEmpty entries mixed after left := by
        cases apart : list.isApart text.isEmpty rest.isEmpty with
        | true => exact readsList_apart tells apart
        | false => exact readsList_mixed first boundary tells apart
      rcases one with ⟨middle, left, reads⟩
      have noLabelLeft : rest = [] → ∀ other, trim left ≠ labelText other := fun isLast =>
        reads.noLabel (List.isEmpty_iff.mpr isLast)
      rcases induction others reads.boundary reads.tells noLabelLeft with
        ⟨after, readRest, told⟩
      refine ⟨after, fun tail => ?_, ?_⟩
      · rw [List.flatMap_cons, List.append_assoc, reads.read, readRest]
        intro isLast
        rw [List.isEmpty_iff.mp isLast]
        exact ⟨tail, rfl⟩
      · have sameEnd : heardEntries middle.2 left.isEmpty rest =
            heardEntries middle.2 list.endsApart rest ∧
              mixesLabel middle.2 left.isEmpty rest =
                mixesLabel middle.2 list.endsApart rest := by
          cases rest with
          | nil => exact ⟨rfl, rfl⟩
          | cons _ _ =>
              rw [reads.ends rfl]
              exact ⟨rfl, rfl⟩
        rw [sameEnd.1, sameEnd.2, reads.opened, List.append_assoc, Bool.or_assoc] at told
        exact told

/-! ## The whole script -/

/-- Before the first label nothing is listed for export. -/
theorem read_closed {state : VersionScript × Bool} {text : Text} (closed : state.2 = false)
    (noColon : ':' ∉ text) : readVersionText state text = state := by
  have each : ∀ token ∈ fields isBreak text, VersionScript.token state token = state := by
    intro token present
    have noLabel : ∀ isGlobal, token ≠ labelText isGlobal := by
      rintro isGlobal rfl
      exact noColon (mem_of_mem_fields present (List.mem_append_right _ List.mem_cons_self))
    rw [token_names state noLabel, foldl_hearName, closed, if_neg nofun]
  unfold readVersionText
  generalize fields isBreak text = tokens at each
  induction tokens with
  | nil => rfl
  | cons token rest induction =>
      rcases List.forall_mem_cons.mp each with ⟨first, others⟩
      rw [List.foldl_cons, first, induction others]

namespace VersionNode

variable (node : VersionNode)

theorem noColon_head : ':' ∉ node.first.flatMap Blank.bare ++
    (node.name.map SymbolName.text).getD [] ++ node.beforeOpen.flatMap Blank.bare := by
  have noGap (gap : Gap) : ':' ∉ gapText gap := fun present =>
    nomatch isSpace_gapText gap ':' present
  rw [List.mem_append, List.mem_append, not_or, not_or]
  refine ⟨⟨noGap node.first, ?_⟩, noGap node.beforeOpen⟩
  cases node.name with
  | none => exact List.not_mem_nil
  | some name => exact fun present => (entry_chars (.symbol name) ':' present).2.2.1 rfl

variable {node}

theorem tells_parsed (noBlock : node.HasNoBlock) :
    ∃ opened, Tells
      (((versionScriptTokens node.text).foldl VersionScript.token
        (VersionScript.empty, false)).1, opened)
      node.heard (mixesLabel false true node.lists) False := by
  have opening : isBreak '\x7b' = true := rfl
  have noBlocks : ∀ list ∈ node.lists, ∀ blank ∈ list.beforeColon, blank.isBlock = false := by
    intro list present
    apply noBlock list.beforeColon
    unfold VersionNode.gaps
    simp only [List.mem_cons, List.mem_flatMap]
    exact .inr (.inr (.inr (.inr (.inr ⟨list, present, List.mem_cons_self⟩))))
  have start : Tells (VersionScript.empty, false) [] false (WaitsForEnd (stub true)) := by
    rw [eq_false (waitsForEnd_stub true)]
    exact .empty false
  rcases read_lists noBlocks (.inl ⟨true, rfl⟩) start (fun _ => noLabel_stub true) with
    ⟨after, readLists, told⟩
  have afterOpen : IsSpace (node.afterOpen.flatMap Blank.bare) := isSpace_gapText _
  have afterClose : IsSpace (node.afterClose.flatMap Blank.bare) := isSpace_gapText _
  have last : IsSpace (node.last.flatMap Blank.bare) := isSpace_gapText _
  have whole : readVersionText (VersionScript.empty, false) (node.written Blank.bare) =
      after := by
    rw [VersionNode.written, read_append_break opening, read_closed rfl (noColon_head node),
      List.append_assoc, read_space_left afterOpen]
    refine (readLists _).trans ?_
    rw [read_space_left afterClose, ← List.singleton_append, read_space_right last]
    exact read_stub false
  refine ⟨after.2, ?_⟩
  rw [tokens_eq noBlock]
  change Tells ((readVersionText _ _).1, _) _ _ _
  rw [whole]
  exact told

end VersionNode

theorem heardEntries_listed {lists : List NameList} {opened beginsApart : Bool}
    (notMixed : mixesLabel opened beginsApart lists = false) :
    ∀ entry ∈ heardEntries opened beginsApart lists,
      entry ∈ lists.flatMap fun list => if list.isGlobal then list.entries else [] := by
  induction lists generalizing opened beginsApart with
  | nil => exact nofun
  | cons list rest induction =>
      rw [mixesLabel, Bool.or_eq_false_iff] at notMixed
      intro entry present
      rw [List.flatMap_cons]
      rcases List.mem_append.mp present with isFirst | isLater
      · refine List.mem_append_left _ ?_
        cases apart : list.isApart beginsApart rest.isEmpty with
        | true =>
            rw [NameList.opens, apart, if_pos rfl] at isFirst
            cases isGlobal : list.isGlobal with
            | false =>
                rw [isGlobal] at isFirst
                exact absurd isFirst List.not_mem_nil
            | true =>
                rw [isGlobal, if_pos rfl, NameList.looseEntries] at isFirst
                rw [if_pos rfl]
                split at isFirst
                · exact isFirst
                · exact List.mem_of_mem_tail isFirst
        | false =>
            have closed : opened = false := by
              have only := notMixed.1
              rw [apart] at only
              exact (Bool.and_eq_false_iff.mp only).resolve_right nofun
            rw [NameList.opens, apart, closed] at isFirst
            exact absurd isFirst List.not_mem_nil
      · exact List.mem_append_right _ (induction notMixed.2 entry isLater)

theorem SymbolName.eq_of_text {name other : SymbolName} (same : name.text = other.text) :
    name = other := by
  cases name
  cases other
  cases same
  rfl

theorem Tells.exports_iff {node : VersionNode} {script : VersionScript} {opened : Bool}
    (told : Tells (script, opened) node.heard (mixesLabel false true node.lists) False) :
    (∀ name, script.exports name = true ↔ node.Exports name) ↔ node.IsHeard := by
  have exports (name : Name) : script.exports name = true ↔
      script.globalWildcard = true ∨ name ∈ script.exact := by
    rw [VersionScript.exports, Bool.or_eq_true, decide_eq_true_eq]
  simp only [exports, VersionNode.Exports, VersionNode.IsHeard]
  by_cases star : NameEntry.star ∈ node.globals
  · rw [if_pos star, ← told.star]
    constructor
    · intro same
      rcases Infinite.exists_notMem_finset script.exact with ⟨name, absent⟩
      exact ((same name).mpr (.inl star)).resolve_right absent
    · intro wildcard name
      exact ⟨fun _ => .inl star, fun _ => .inl wildcard⟩
  · rw [if_neg star]
    constructor
    · intro same
      have notMixed : mixesLabel false true node.lists = false := by
        rw [Bool.eq_false_iff]
        intro isMixed
        rcases (told.colon isMixed).resolve_right fun both => both.1 with ⟨text, colon, present⟩
        rcases ((same _).mp (.inr present)).resolve_left star with ⟨symbol, _, isText⟩
        have inName : ':' ∈ symbol.text := encodeUtf8_injective isText ▸ colon
        exact (entry_chars (.symbol symbol) ':' inName).2.2.1 rfl
      have noWildcard : ¬ script.globalWildcard = true := fun wildcard =>
        star (heardEntries_listed notMixed _ (told.star.mp wildcard))
      refine ⟨fun entry present => ?_, notMixed⟩
      cases entry with
      | star => exact absurd present star
      | symbol symbol =>
          have isExact := ((same _).mpr (.inr ⟨symbol, present, rfl⟩)).resolve_left noWildcard
          rcases (told.symbols notMixed _).mp isExact with ⟨other, isHeard, sameText⟩
          exact SymbolName.eq_of_text (encodeUtf8_injective sameText) ▸ isHeard
    · rintro ⟨all, notMixed⟩ name
      have noWildcard : ¬ script.globalWildcard = true := fun wildcard =>
        star (heardEntries_listed notMixed _ (told.star.mp wildcard))
      rw [or_iff_right noWildcard, or_iff_right star, told.symbols notMixed]
      apply exists_congr
      intro symbol
      exact and_congr_left' ⟨heardEntries_listed notMixed _, all _⟩

/-- A script without block comments exports the names it lists exactly when they are
heard. -/
theorem VersionNode.exports_iff_isHeard {node : VersionNode} {disk : Disk} {path : Path}
    (noBlock : node.HasNoBlock) (reads : readToString disk path = .ok node.text) :
    ∃ script, parseVersionScript disk path = .ok script ∧
      ((∀ name, script.exports name = true ↔ node.Exports name) ↔ node.IsHeard) := by
  rcases VersionNode.tells_parsed noBlock with ⟨opened, told⟩
  refine ⟨((versionScriptTokens node.text).foldl VersionScript.token
    (VersionScript.empty, false)).1, ?_, ?_⟩
  · rw [parseVersionScript, reads]
    rfl
  · generalize ((versionScriptTokens node.text).foldl VersionScript.token
      (VersionScript.empty, false)).1 = script at told
    exact told.exports_iff

/-! ## Two scripts -/

def writtenFoo : SymbolName := ⟨ascii "foo", by decide,
  List.all_eq_true.mp (by decide)⟩

def writtenSpace : Blank := .space ' ' rfl

/-- `{ global: foo; local: *; };` -/
def spacedNode : VersionNode where
  first := []
  name := none
  beforeOpen := []
  afterOpen := [writtenSpace]
  lists :=
    [⟨true, [], [writtenSpace], [⟨.symbol writtenFoo, [], [writtenSpace]⟩]⟩,
      ⟨false, [], [writtenSpace], [⟨.star, [], [writtenSpace]⟩]⟩]
  afterClose := []
  last := []
  comment := none

def denseNode : VersionNode where
  first := []
  name := none
  beforeOpen := []
  afterOpen := []
  lists := [⟨true, [], [], [⟨.symbol writtenFoo, [], []⟩]⟩]
  afterClose := []
  last := []
  comment := none

def scriptDisk (node : VersionNode) : Disk := Disk.empty.write [] (encodeUtf8 node.text)

theorem exports_iff_isHeard_spaced :
    ∃ script, parseVersionScript (scriptDisk spacedNode) [] = .ok script ∧
      ∀ name, script.exports name = true ↔ spacedNode.Exports name := by
  have noBlock : spacedNode.HasNoBlock := by
    unfold VersionNode.HasNoBlock
    decide
  have reads : readToString (scriptDisk spacedNode) [] = .ok spacedNode.text := by
    decide +kernel
  rcases VersionNode.exports_iff_isHeard noBlock reads with ⟨script, parsed, exports⟩
  exact ⟨script, parsed, exports.mpr (by decide)⟩

theorem not_exports_dense :
    readToString (scriptDisk denseNode) [] = .ok (ascii "\x7bglobal:foo;\x7d;") ∧
      denseNode.text = ascii "\x7bglobal:foo;\x7d;" ∧
      denseNode.Exports (encodeUtf8 (ascii "foo")) ∧
      parseVersionScript (scriptDisk denseNode) [] = .ok VersionScript.empty ∧
      VersionScript.empty.exports (encodeUtf8 (ascii "foo")) = false := by
  have exported : denseNode.Exports (encodeUtf8 (ascii "foo")) :=
    .inr ⟨writtenFoo, by decide, rfl⟩
  refine ⟨by decide +kernel, by decide +kernel, exported, by decide +kernel, rfl⟩

end Peony
