import Peony.Driver.Args

namespace Peony

/-! What the reader of response files makes of the text that a writer of such files
leaves for a list of arguments. -/

/-! ## The writer -/

/-- The characters that mean something to the reader, after a backslash. -/
def escapeChar (char : Char) : Text :=
  if isWhitespace char ∨ char = '"' ∨ char = '\'' ∨ char = '\\' then ['\\', char]
  else [char]

/-- An argument without characters is a pair of quotes. -/
def writeArg (arg : Text) : Text :=
  if arg.isEmpty then ['"', '"'] else arg.flatMap escapeChar

/-- The arguments with a newline between each two. -/
def writeResponseFile : List Text → Text
  | [] => []
  | [arg] => writeArg arg
  | arg :: next :: rest => writeArg arg ++ '\n' :: writeResponseFile (next :: rest)

/-! ## One argument -/

variable (args : List Text) (current : Text)

theorem responseFrom_cons (quote : Option Char) (char : Char) (rest : Text) :
    responseFrom args current quote (char :: rest) =
      if quote = none ∧ isWhitespace char then
        responseFrom (pushArg args current) [] none rest
      else if quote = none ∧ (char = '"' ∨ char = '\'') then
        responseFrom args current (some char) rest
      else if quote = some char then responseFrom args current none rest
      else if char = '\\' then
        match rest with
        | next :: more => responseFrom args (current ++ [next]) quote more
        | [] => responseFrom args (current ++ ['\\']) quote []
      else responseFrom args (current ++ [char]) quote rest := by
  cases rest <;> conv_lhs => rw [responseFrom]

theorem responseFrom_escapeChar (char : Char) (rest : Text) :
    responseFrom args current none (escapeChar char ++ rest) =
      responseFrom args (current ++ [char]) none rest := by
  unfold escapeChar
  split
  · have backslash : isWhitespace '\\' = false := by decide
    simp [responseFrom_cons, backslash]
  · rename_i plain
    simp only [not_or] at plain
    simp [responseFrom_cons, plain]

theorem responseFrom_escaped (arg rest : Text) :
    responseFrom args current none (arg.flatMap escapeChar ++ rest) =
      responseFrom args (current ++ arg) none rest := by
  induction arg generalizing current with
  | nil => simp
  | cons char arg induction =>
      rw [List.flatMap_cons, List.append_assoc, responseFrom_escapeChar, induction,
        List.append_assoc, List.singleton_append]

/-- An argument is read as it was written, behind what was read before it. -/
theorem responseFrom_writeArg (arg rest : Text) :
    responseFrom args current none (writeArg arg ++ rest) =
      responseFrom args (current ++ arg) none rest := by
  unfold writeArg
  split
  · rename_i isEmpty
    rw [List.isEmpty_iff.mp isEmpty, List.append_nil]
    have quote : isWhitespace '"' = false := by decide
    simp [responseFrom_cons, quote]
  · exact responseFrom_escaped args current arg rest

theorem responseFrom_newline (rest : Text) :
    responseFrom args current none ('\n' :: rest) =
      responseFrom (pushArg args current) [] none rest := by
  have newline : isWhitespace '\n' = true := by decide
  simp [responseFrom_cons, newline]

/-! ## All arguments -/

theorem pushArg_eq (arg : Text) :
    pushArg args arg = args ++ [arg].filter fun arg => !arg.isEmpty := by
  unfold pushArg
  cases arg <;> simp

/-- The reader finds the arguments that have characters. -/
theorem responseFrom_writeResponseFile (written : List Text) (terminated : Bool) :
    responseFrom args [] none
        (writeResponseFile written ++ if terminated then ['\n'] else []) =
      .ok (args ++ written.filter fun arg => !arg.isEmpty) := by
  have ending : ∀ (args : List Text) (arg : Text),
      responseFrom args arg none (if terminated then ['\n'] else []) =
        .ok (pushArg args arg) := by
    intro args arg
    cases terminated with
    | false => simp [responseFrom]
    | true =>
        rw [if_pos rfl, responseFrom_newline]
        simp [responseFrom, pushArg]
  induction written generalizing args with
  | nil =>
      rw [writeResponseFile, List.nil_append, ending]
      simp [pushArg]
  | cons arg rest induction =>
      cases rest with
      | nil =>
          rw [writeResponseFile, responseFrom_writeArg, List.nil_append, ending,
            pushArg_eq]
      | cons next more =>
          rw [writeResponseFile, List.append_assoc, responseFrom_writeArg,
            List.nil_append, List.cons_append, responseFrom_newline, induction,
            pushArg_eq, List.append_assoc, ← List.filter_append, List.singleton_append]

/-- The list is read back exactly when each of its arguments has characters, whether or
not a newline ends the text. -/
theorem response_roundTrip_iff (written : List Text) (terminated : Bool) :
    parseResponseFile (writeResponseFile written ++ if terminated then ['\n'] else []) =
        .ok written ↔
      ∀ arg ∈ written, arg ≠ [] := by
  rw [parseResponseFile, responseFrom_writeResponseFile, List.nil_append,
    Except.ok.injEq, List.filter_eq_self]
  refine forall_congr' fun arg => imp_congr_right fun _ => ?_
  cases arg <;> simp

/-- The argument without characters is lost. -/
theorem not_response_roundTrip :
    ¬ ∀ written, parseResponseFile (writeResponseFile written) = .ok written := by
  intro roundTrip
  exact absurd (roundTrip [[]]) (by decide)

end Peony
