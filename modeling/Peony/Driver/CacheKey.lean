import Peony.Driver.Args
import Peony.Foundation.Fallible

namespace Peony

/-! The cache key drops the options that do not change the output wherever their words
stand. It tells two vectors of arguments apart where the parser reads none of these
words as the value of another option. -/

/-! ## The words that the key drops -/

def isScheduler (word : Text) : Bool :=
  word == ascii "--cache-report" || word == ascii "--threads"

/-- The key drops the word and goes on with the next one. -/
def isDroppedAlone (word : Text) : Bool :=
  decide (word ∈ diagnosticFlags) || (ascii "--cache-report=").isPrefixOf word ||
    (ascii "--threads=").isPrefixOf word

def isDropped (word : Text) : Bool := isScheduler word || isDroppedAlone word

def valueNames : List String :=
  ["-o", "--output", "-e", "--entry", "-L", "--library-path", "-T", "--script", "-l",
    "--library", "--defsym", "-plugin", "--plugin", "--threads", "--base-address",
    "--cache-report", "-rpath", "--rpath", "-dynamic-linker", "--dynamic-linker", "-z",
    "--hash-style", "--exclude-libs", "-soname", "-h", "--soname", "--version-script",
    "-u", "--undefined", "--require-defined", "--export-dynamic-symbol",
    "--export-dynamic-symbol-list", "--dynamic-list"]

def wrapFlags : List Text := [ascii "--wrap", ascii "-wrap"]

def valueFlags : List Text := valueNames.map ascii ++ wrapFlags ++ ignoreWithValue

/-- The parser reads no word that the key drops as the value of a flag that the key
keeps. -/
def RolesAgree : List Text → Prop
  | [] => True
  | [_] => True
  | word :: value :: rest =>
      if word ∈ valueFlags then
        (isScheduler word = true ∨ isDropped value = false) ∧ RolesAgree rest
      else RolesAgree (value :: rest)

instance decidableRolesAgree : (words : List Text) → Decidable (RolesAgree words)
  | [] => .isTrue trivial
  | [_] => .isTrue trivial
  | word :: value :: rest =>
      haveI := decidableRolesAgree rest
      haveI := decidableRolesAgree (value :: rest)
      inferInstanceAs (Decidable (if word ∈ valueFlags then
        (isScheduler word = true ∨ isDropped value = false) ∧ RolesAgree rest
        else RolesAgree (value :: rest)))

/-! ## The settings -/

/-- The arguments without those for diagnostics, threads and the cache. -/
def Args.settings (args : Args) : Args :=
  { args with
    rawArgs := []
    incremental := true
    daemon := false
    cacheReport := none
    threads := 0
    stats := false
    trace := false
    traceStack := false
    traceDetail := false }

def ParseState.settings (state : ParseState) : ParseState :=
  { state with args := state.args.settings }

namespace Setter

/-- The settings after the setter come from those before it. -/
def Respects (set : Setter) : Prop :=
  ∀ state, (set state).map ParseState.settings =
    (set state.settings).map ParseState.settings

def IsSilent (set : Setter) : Prop :=
  ∀ state, (set state).map ParseState.settings = .ok state.settings

theorem Respects.exists_ok {set : Setter} (respects : set.Respects)
    {state other next : ParseState} (same : state.settings = other.settings)
    (isNext : set state = .ok next) :
    ∃ last, set other = .ok last ∧ next.settings = last.settings := by
  have alike : (set state).map ParseState.settings =
      (set other).map ParseState.settings := by
    rw [respects state, respects other, same]
  rw [isNext] at alike
  cases isLast : set other with
  | error error =>
      rw [isLast] at alike
      exact nomatch alike
  | ok last =>
      rw [isLast] at alike
      exact ⟨last, rfl, Except.ok.inj alike⟩

theorem IsSilent.settings_eq {set : Setter} (silent : set.IsSilent)
    {state next : ParseState} (isNext : set state = .ok next) :
    next.settings = state.settings := by
  have kept := silent state
  rw [isNext] at kept
  exact Except.ok.inj kept

/-! ## Setters -/

theorem zOption_respects (value : Text) : (zOption value).Respects := by
  intro state
  unfold zOption
  split
  · rfl
  · split
    · rfl
    · split <;> rfl

theorem hashStyle_respects (value : Text) : (hashStyle value).Respects := by
  intro state
  unfold hashStyle
  dsimp only
  split <;> rfl

theorem dynamicList_respects (disk : Disk) (value : Text) :
    (dynamicList disk value).Respects := by
  intro state
  unfold dynamicList
  cases readDynamicSymbolPatterns disk (encodeUtf8 value) <;> rfl

theorem popState_respects : popState.Respects := by
  rintro ⟨_, _, _, _, _, _ | _⟩ <;> rfl

theorem startLib_respects : startLib.Respects := by
  rintro ⟨_, _, _, _, _ | _, _⟩ <;> rfl

theorem endLib_respects : endLib.Respects := by
  rintro ⟨_, _, _, _, _ | _, _⟩ <;> rfl

end Setter

/-! ## Tables -/

theorem flagRow_mem {α : Type} {flag : Text} {rows : List (List String × α)} {found : α}
    (isFound : flagRow flag rows = some found) :
    ∃ row ∈ rows, flag ∈ row.1.map ascii ∧ row.2 = found := by
  rcases Option.map_eq_some_iff.mp isFound with ⟨row, isRow, rfl⟩
  exact ⟨row, List.mem_of_find?_eq_some isRow, by simpa using List.find?_some isRow, rfl⟩

theorem flagRow_isSome_iff {α : Type} {flag : Text} {rows : List (List String × α)} :
    (flagRow flag rows).isSome = true ↔
      flag ∈ (rows.flatMap fun row => row.1).map ascii := by
  rw [flagRow, Option.isSome_map, List.find?_isSome]
  simp only [decide_eq_true_iff, List.mem_map, List.mem_flatMap]
  constructor
  · rintro ⟨row, isRow, name, isName, same⟩
    exact ⟨name, ⟨row, isRow, isName⟩, same⟩
  · rintro ⟨name, ⟨row, isRow, isName⟩, same⟩
    exact ⟨row, isRow, name, isName, same⟩

theorem valueFlag_isSome_iff (disk : Disk) {word : Text} :
    (valueFlag disk word).isSome = true ↔ word ∈ valueNames.map ascii :=
  flagRow_isSome_iff

theorem valueFlag_respects {disk : Disk} {flag : Text} {set : Text → Setter}
    (isFound : valueFlag disk flag = some set) (value : Text) : (set value).Respects := by
  rcases flagRow_mem isFound with ⟨row, present, _, rfl⟩
  clear isFound
  simp only [List.mem_cons, List.not_mem_nil, or_false] at present
  rcases present with rfl | rfl | rfl | rfl | rfl | rfl | rfl | rfl | rfl | rfl | rfl |
    rfl | rfl | rfl | rfl | rfl | rfl | rfl | rfl | rfl | rfl
  all_goals first
    | exact fun _ => rfl
    | exact Setter.zOption_respects value
    | exact Setter.hashStyle_respects value
    | exact Setter.dynamicList_respects disk value

theorem plainFlag_respects {flag : Text} {set : Setter}
    (isFound : plainFlag flag = some set) : set.Respects := by
  rcases flagRow_mem isFound with ⟨row, present, _, rfl⟩
  clear isFound
  simp only [List.mem_cons, List.not_mem_nil, or_false] at present
  rcases present with rfl | rfl | rfl | rfl | rfl | rfl | rfl | rfl | rfl | rfl | rfl |
    rfl | rfl | rfl | rfl | rfl | rfl | rfl | rfl | rfl | rfl | rfl | rfl | rfl | rfl |
    rfl | rfl | rfl | rfl | rfl | rfl | rfl | rfl | rfl | rfl | rfl | rfl | rfl
  all_goals first
    | exact fun _ => rfl
    | exact Setter.popState_respects
    | exact Setter.startLib_respects
    | exact Setter.endLib_respects

theorem respects_of_map {carried : Option Text} {make : Text → Setter}
    (all : ∀ value, (make value).Respects) :
    ∀ set ∈ carried.map make, set.Respects := by
  intro set isSet
  rcases Option.map_eq_some_iff.mp isSet with ⟨value, _, rfl⟩
  exact all value

theorem prefixedFlag_respects (disk : Disk) (word : Text) :
    (prefixedFlag disk word).Respects := by
  unfold prefixedFlag
  dsimp only
  cases isFound : List.findSome? id _ with
  | none => exact fun _ => rfl
  | some set =>
      rcases List.exists_of_findSome?_eq_some isFound with ⟨carried, present, isCarried⟩
      clear isFound
      suffices all : ∀ set ∈ carried, set.Respects by exact all set isCarried
      clear isCarried
      simp only [List.mem_cons, List.not_mem_nil, or_false] at present
      rcases present with rfl | rfl | rfl | rfl | rfl | rfl | rfl | rfl | rfl | rfl |
        rfl | rfl | rfl | rfl | rfl | rfl | rfl | rfl | rfl | rfl | rfl | rfl | rfl | rfl |
        rfl | rfl | rfl | rfl | rfl | rfl | rfl | rfl
      all_goals
        refine respects_of_map fun value => ?_
        first
          | exact fun _ => rfl
          | exact Setter.zOption_respects value
          | exact Setter.hashStyle_respects value
          | exact Setter.dynamicList_respects disk value

/-! ## Words -/

/-- What the parser does with a word that has no value. -/
def wordSetter (disk : Disk) (word : Text) : Setter :=
  (plainFlag word).getD (prefixedFlag disk word)

/-- What the parser does with a flag and the value that follows it. -/
def valueSetter (disk : Disk) (word value : Text) : Setter :=
  match valueFlag disk word with
  | some set => set value
  | none =>
      if word = ascii "--wrap" ∨ word = ascii "-wrap" then .unsupported word else .ok

theorem wordSetter_respects (disk : Disk) (word : Text) :
    (wordSetter disk word).Respects := by
  unfold wordSetter
  cases isPlain : plainFlag word with
  | none => exact prefixedFlag_respects disk word
  | some set => exact plainFlag_respects isPlain

theorem valueSetter_respects (disk : Disk) (word value : Text) :
    (valueSetter disk word value).Respects := by
  unfold valueSetter
  split
  · rename_i isValue
    exact valueFlag_respects isValue value
  · split <;> exact fun _ => rfl

theorem valueFlag_eq_none {disk : Disk} {word : Text} (noValue : word ∉ valueFlags) :
    valueFlag disk word = none := by
  apply Option.not_isSome_iff_eq_none.mp
  intro isValue
  apply noValue
  exact List.mem_append_left _
    (List.mem_append_left _ ((valueFlag_isSome_iff disk).mp isValue))

theorem plainFlag_eq_none {word : Text} (isPassed : word ∈ wrapFlags ++ ignoreWithValue) :
    plainFlag word = none := by
  have all : ((wrapFlags ++ ignoreWithValue).all fun word => (plainFlag word).isNone) =
      true := by decide
  exact Option.isNone_iff_eq_none.mp (List.all_eq_true.mp all word isPassed)

theorem mem_wrapFlags {word : Text} :
    word ∈ wrapFlags ↔ word = ascii "--wrap" ∨ word = ascii "-wrap" := by
  simp [wrapFlags]

theorem parseLoop_word {disk : Disk} {word : Text} (noValue : word ∉ valueFlags)
    (rest : List Text) (state : ParseState) :
    parseLoop disk (word :: rest) state =
      wordSetter disk word state >>= parseLoop disk rest := by
  have notWrap : ¬ (word = ascii "--wrap" ∨ word = ascii "-wrap") := fun isWrap =>
    noValue (List.mem_append_left _ (List.mem_append_right _ (mem_wrapFlags.mpr isWrap)))
  have notIgnored : word ∉ ignoreWithValue := fun isIgnored =>
    noValue (List.mem_append_right _ isIgnored)
  conv_lhs => unfold parseLoop
  rw [valueFlag_eq_none noValue, wordSetter]
  cases plainFlag word with
  | some set => rfl
  | none => simp [notWrap, notIgnored]

theorem mem_passed {disk : Disk} {word : Text} (takesValue : word ∈ valueFlags)
    (noRow : valueFlag disk word = none) : word ∈ wrapFlags ++ ignoreWithValue := by
  rw [valueFlags, List.append_assoc] at takesValue
  refine (List.mem_append.mp takesValue).resolve_left fun isName => ?_
  have found := (valueFlag_isSome_iff disk).mpr isName
  rw [noRow] at found
  exact nomatch found

theorem parseLoop_value {disk : Disk} {word : Text} (takesValue : word ∈ valueFlags)
    (value : Text) (rest : List Text) (state : ParseState) :
    parseLoop disk (word :: value :: rest) state =
      valueSetter disk word value state >>= parseLoop disk rest := by
  conv_lhs => unfold parseLoop
  unfold valueSetter
  cases isValue : valueFlag disk word with
  | some set => rfl
  | none =>
      have isPassed := mem_passed takesValue isValue
      rw [plainFlag_eq_none isPassed]
      by_cases isWrap : word = ascii "--wrap" ∨ word = ascii "-wrap"
      · simp only [isWrap, if_true]
      · have isIgnored : word ∈ ignoreWithValue :=
          (List.mem_append.mp isPassed).resolve_left (isWrap ∘ mem_wrapFlags.mp)
        simp only [isWrap, if_false, isIgnored, if_true]
        rfl

/-! ## Words that the key drops -/

theorem mem_valueFlags_of_isScheduler {word : Text} (isDropped : isScheduler word = true) :
    word ∈ valueFlags := by
  rw [isScheduler, Bool.or_eq_true, beq_iff_eq, beq_iff_eq] at isDropped
  rcases isDropped with rfl | rfl <;> decide

theorem notMem_valueFlags_of_isDroppedAlone {word : Text}
    (isDropped : isDroppedAlone word = true) : word ∉ valueFlags := by
  have none : (valueFlags.all fun flag => !isDroppedAlone flag) = true := by decide
  intro takesValue
  have kept := List.all_eq_true.mp none word takesValue
  rw [isDropped] at kept
  exact nomatch kept

theorem valueSetter_silent (disk : Disk) {word : Text} (isDropped : isScheduler word = true)
    (value : Text) : (valueSetter disk word value).IsSilent := by
  rw [isScheduler, Bool.or_eq_true, beq_iff_eq, beq_iff_eq] at isDropped
  rcases isDropped with rfl | rfl <;> exact fun _ => rfl

/-- So does an option that the key drops alone. -/
theorem wordSetter_silent (disk : Disk) {word : Text}
    (isDropped : isDroppedAlone word = true) : (wordSetter disk word).IsSilent := by
  rw [isDroppedAlone, Bool.or_eq_true, Bool.or_eq_true, decide_eq_true_iff,
    List.isPrefixOf_iff_prefix, List.isPrefixOf_iff_prefix] at isDropped
  rcases isDropped with (isDiagnostic | ⟨value, rfl⟩) | ⟨value, rfl⟩
  · simp only [diagnosticFlags, List.mem_cons, List.not_mem_nil, or_false] at isDiagnostic
    rcases isDiagnostic with rfl | rfl | rfl | rfl | rfl | rfl | rfl <;>
      exact fun _ => rfl
  · exact fun _ => rfl
  · exact fun _ => rfl

theorem cacheKeyArgs_alone {word : Text} (isDropped : isDroppedAlone word = true)
    (rest : List Text) : cacheKeyArgs (word :: rest) = cacheKeyArgs rest := by
  have noScheduler : isScheduler word = false := by
    cases isPaired : isScheduler word with
    | false => rfl
    | true =>
        exact absurd (mem_valueFlags_of_isScheduler isPaired)
          (notMem_valueFlags_of_isDroppedAlone isDropped)
  rw [isScheduler, Bool.or_eq_false_iff, beq_eq_false_iff_ne, beq_eq_false_iff_ne]
    at noScheduler
  rw [isDroppedAlone, Bool.or_eq_true, Bool.or_eq_true, decide_eq_true_iff] at isDropped
  cases rest <;> conv_lhs => unfold cacheKeyArgs
  all_goals
    rcases isDropped with (isDiagnostic | isReport) | isThreads
    · rw [if_pos isDiagnostic]
    · simp [noScheduler, isReport]
    · simp [noScheduler, isThreads]

theorem cacheKeyArgs_scheduler {word : Text} (isDropped : isScheduler word = true)
    (value : Text) (rest : List Text) :
    cacheKeyArgs (word :: value :: rest) = cacheKeyArgs rest := by
  rw [isScheduler, Bool.or_eq_true, beq_iff_eq, beq_iff_eq] at isDropped
  have noDiagnostic : word ∉ diagnosticFlags := by
    rcases isDropped with rfl | rfl <;> decide
  conv_lhs => unfold cacheKeyArgs
  rw [if_neg noDiagnostic, if_pos isDropped]

theorem cacheKeyArgs_kept {word : Text} (isKept : isDropped word = false)
    (rest : List Text) : cacheKeyArgs (word :: rest) = word :: cacheKeyArgs rest := by
  rw [isDropped, isScheduler, isDroppedAlone, Bool.or_eq_false_iff, Bool.or_eq_false_iff,
    Bool.or_eq_false_iff, Bool.or_eq_false_iff, beq_eq_false_iff_ne, beq_eq_false_iff_ne,
    decide_eq_false_iff_not] at isKept
  rcases isKept with ⟨⟨noReport, noThreads⟩, ⟨noDiagnostic, noReportValue⟩, noThreadsValue⟩
  cases rest <;> conv_lhs => unfold cacheKeyArgs
  all_goals simp [noReport, noThreads, noDiagnostic, noReportValue, noThreadsValue]

/-! ## The parse of a key -/

theorem parseLoop_last_respects (disk : Disk) {word : Text}
    (takesValue : word ∈ valueFlags) : Setter.Respects (parseLoop disk [word]) := by
  intro state
  unfold parseLoop
  cases isValue : valueFlag disk word with
  | some set => rfl
  | none =>
      have isPassed := mem_passed takesValue isValue
      rw [plainFlag_eq_none isPassed]
      by_cases isWrap : word = ascii "--wrap" ∨ word = ascii "-wrap"
      · simp only [isWrap, if_true]
        rfl
      · have isIgnored : word ∈ ignoreWithValue :=
          (List.mem_append.mp isPassed).resolve_left (isWrap ∘ mem_wrapFlags.mp)
        simp only [isWrap, if_false, isIgnored, if_true]
        rfl

def KeyParses (disk : Disk) (words : List Text) : Prop :=
  ∀ state other last, ParseState.settings state = ParseState.settings other →
    parseLoop disk words state = .ok last →
    ∃ found, parseLoop disk (cacheKeyArgs words) other = .ok found ∧
      last.settings = found.settings

section

variable {disk : Disk} {word value : Text} {rest : List Text}

theorem keyParses_word (noValue : word ∉ valueFlags) (later : KeyParses disk rest) :
    KeyParses disk (word :: rest) := by
  intro state other last same parsed
  rw [parseLoop_word noValue] at parsed
  rcases bind_ok parsed with ⟨next, isNext, parsed⟩
  have notScheduler : isScheduler word = false :=
    Bool.eq_false_iff.mpr (noValue ∘ mem_valueFlags_of_isScheduler)
  cases isAlone : isDroppedAlone word with
  | true =>
      rw [cacheKeyArgs_alone isAlone]
      have silent := (wordSetter_silent disk isAlone).settings_eq isNext
      exact later next other last (silent.trans same) parsed
  | false =>
      have isKept : isDropped word = false := by
        rw [isDropped, notScheduler, isAlone]
        rfl
      rcases (wordSetter_respects disk word).exists_ok same isNext with
        ⟨after, isAfter, alike⟩
      rcases later next after last alike parsed with ⟨found, isFound, ends⟩
      refine ⟨found, ?_, ends⟩
      rw [cacheKeyArgs_kept isKept, parseLoop_word noValue]
      exact bind_ok_iff.mpr ⟨after, isAfter, isFound⟩

theorem isKept_of_value (takesValue : word ∈ valueFlags)
    (notScheduler : isScheduler word = false) : isDropped word = false := by
  rw [isDropped, notScheduler, Bool.false_or, Bool.eq_false_iff]
  exact fun isAlone => notMem_valueFlags_of_isDroppedAlone isAlone takesValue

theorem keyParses_value (takesValue : word ∈ valueFlags)
    (agree : isScheduler word = true ∨ isDropped value = false)
    (later : KeyParses disk rest) : KeyParses disk (word :: value :: rest) := by
  intro state other last same parsed
  rw [parseLoop_value takesValue] at parsed
  rcases bind_ok parsed with ⟨next, isNext, parsed⟩
  cases isPaired : isScheduler word with
  | true =>
      rw [cacheKeyArgs_scheduler isPaired]
      have silent := (valueSetter_silent disk isPaired value).settings_eq isNext
      exact later next other last (silent.trans same) parsed
  | false =>
      have isKept := isKept_of_value takesValue isPaired
      have valueKept := agree.resolve_left (isPaired ▸ Bool.false_ne_true)
      rcases (valueSetter_respects disk word value).exists_ok same isNext with
        ⟨after, isAfter, alike⟩
      rcases later next after last alike parsed with ⟨found, isFound, ends⟩
      refine ⟨found, ?_, ends⟩
      rw [cacheKeyArgs_kept isKept, cacheKeyArgs_kept valueKept,
        parseLoop_value takesValue]
      exact bind_ok_iff.mpr ⟨after, isAfter, isFound⟩

theorem keyParses_last (takesValue : word ∈ valueFlags) : KeyParses disk [word] := by
  intro state other last same parsed
  cases isPaired : isScheduler word with
  | true =>
      -- Without a value the option is an error.
      rw [isScheduler, Bool.or_eq_true, beq_iff_eq, beq_iff_eq] at isPaired
      rcases isPaired with rfl | rfl <;> exact nomatch parsed
  | false =>
      rw [cacheKeyArgs_kept (isKept_of_value takesValue isPaired)]
      exact (parseLoop_last_respects disk takesValue).exists_ok same parsed

end

theorem keyParses_of_rolesAgree (disk : Disk) {words : List Text}
    (agree : RolesAgree words) : KeyParses disk words := by
  have nothing : KeyParses disk [] := by
    intro state other last same parsed
    cases parsed
    exact ⟨other, rfl, same⟩
  induction words using RolesAgree.induct with
  | case1 => exact nothing
  | case2 word =>
      by_cases takesValue : word ∈ valueFlags
      · exact keyParses_last takesValue
      · exact keyParses_word takesValue nothing
  | case3 word value rest takesValue induction =>
      rw [RolesAgree, if_pos takesValue] at agree
      exact keyParses_value takesValue agree.1 (induction agree.2)
  | case4 word value rest noValue induction =>
      rw [RolesAgree, if_neg noValue] at agree
      exact keyParses_word noValue (induction agree)

/-! ## Two vectors -/

theorem parseExpandedArgs_ok {disk : Disk} {words : List Text} {args : Args}
    (parsed : parseExpandedArgs disk words = .ok args) :
    ∃ last, parseLoop disk words { args := { rawArgs := words } } = .ok last ∧
      last.args = args := by
  rcases bind_ok parsed with ⟨last, isLast, later⟩
  refine ⟨last, isLast, ?_⟩
  dsimp only at later
  split at later
  · rcases bind_ok later with ⟨_, thrown, _⟩
    exact nomatch thrown
  · split at later
    · rcases bind_ok later with ⟨_, thrown, _⟩
      exact nomatch thrown
    · cases later
      rfl

/-- Vectors with the same key have the same settings, if the parser reads none of the
words that the key drops as the value of a flag that it keeps. -/
theorem cacheKey_settings {disk : Disk} {words others : List Text}
    (agree : RolesAgree words) (othersAgree : RolesAgree others)
    (sameKey : cacheKeyArgs words = cacheKeyArgs others) {args otherArgs : Args}
    (parsed : parseExpandedArgs disk words = .ok args)
    (otherParsed : parseExpandedArgs disk others = .ok otherArgs) :
    args.settings = otherArgs.settings := by
  rcases parseExpandedArgs_ok parsed with ⟨last, isLast, rfl⟩
  rcases parseExpandedArgs_ok otherParsed with ⟨otherLast, isOther, rfl⟩
  rcases keyParses_of_rolesAgree disk agree { args := { rawArgs := words } }
    { args := {} } _ rfl isLast with ⟨found, isFound, same⟩
  rcases keyParses_of_rolesAgree disk othersAgree { args := { rawArgs := others } }
    { args := {} } _ rfl isOther with ⟨otherFound, isOtherFound, otherSame⟩
  rw [sameKey, isOtherFound] at isFound
  cases isFound
  exact congrArg ParseState.args (same.trans otherSame.symm)

theorem cacheKey_settings_stats :
    ∃ args otherArgs,
      parseExpandedArgs .empty [ascii "--stats", ascii "-o", ascii "app", ascii "main.o"] =
          .ok args ∧
        parseExpandedArgs .empty [ascii "-o", ascii "app", ascii "--threads", ascii "4",
          ascii "main.o"] = .ok otherArgs ∧
        args.settings = otherArgs.settings :=
  ⟨_, _, rfl, rfl, @cacheKey_settings .empty
    [ascii "--stats", ascii "-o", ascii "app", ascii "main.o"]
    [ascii "-o", ascii "app", ascii "--threads", ascii "4", ascii "main.o"]
    (by decide) (by decide) (by decide) _ _ rfl rfl⟩

/-- The name of the output is an option for the key and a value for the parser. -/
theorem not_cacheKey_settings :
    ¬ ∀ (disk : Disk) (words others : List Text) (args otherArgs : Args),
      cacheKeyArgs words = cacheKeyArgs others →
      parseExpandedArgs disk words = .ok args →
      parseExpandedArgs disk others = .ok otherArgs →
      args.settings = otherArgs.settings := by
  intro separates
  have same := separates .empty [ascii "-o", ascii "--stats", ascii "main.o"]
    [ascii "-o", ascii "main.o"] _ _ (by decide) rfl rfl
  have sameInputs := congrArg Args.inputs same
  exact absurd sameInputs (by decide)

end Peony
