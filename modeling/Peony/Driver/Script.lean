import Mathlib.Data.List.MinMax
import Peony.Cache.Files
import Peony.Driver.Text

namespace Peony

/-! Linker scripts: the references of `GROUP` and `INPUT`, and what `-T` scripts
say about the entry, the base address and the sections. Positions count
characters. -/

/-! ## Errors of the driver -/

inductive DriverError where
  | helpRequested
  | missingValue (flag : Text)
  | unsupportedHashStyle (value : Text)
  | unbalancedPopState
  | nestedStartLib
  | strayEndLib
  | missingEndLib
  | unbalancedState
  | nestingTooDeep
  | recursiveResponseFile (path : Path)
  | unterminatedQuote (quote : Char)
  | unsupportedFlags (flags : List Text)
  | unreadable (path : Path)
  | unsupportedDirective (path : Path) (directive : Text)
  | invalidBaseAddress (value : Text)
  | noInputFiles
  | cannotFind (library : Text)
  /-- The link is handed to another linker. -/
  | handedOff
  /-- The scripts still refer to scripts after so many inputs. -/
  | unfinished
deriving DecidableEq, Repr

def readFile (disk : Disk) (path : Path) : Except DriverError (List UInt8) :=
  match disk.contents path with
  | some bytes => .ok bytes
  | none => .error (.unreadable path)

def readToString (disk : Disk) (path : Path) : Except DriverError Text := do
  match fromUtf8 (← readFile disk path) with
  | some text => return text
  | none => throw (.unreadable path)

/-! ## Comments -/

/-- The bytes outside of the comments, each as the character with its number. -/
def stripComments : Bool → List UInt8 → Text
  | _, [] => []
  | false, 47 :: 42 :: rest => stripComments true rest
  | false, byte :: rest => Char.ofNat byte.toNat :: stripComments false rest
  | true, 42 :: 47 :: rest => stripComments false rest
  | true, _ :: rest => stripComments true rest

def stripBlockComments (text : Text) : Text :=
  stripComments false (encodeUtf8 text)

/-! ## Directives -/

def isWordChar (char : Char) : Bool := char.isAlphanum || char == '_'

/-- Whether no part of a word stands right before `start` or at `stop`. -/
def standsAlone (text : Text) (start stop : Nat) : Bool :=
  (start == 0 || !(text[start - 1]?).any isWordChar) &&
    !(text[stop]?).any isWordChar

/-- The places where a keyword occurs, each looked for after the one before. -/
def occurrences (keyword text : Text) : Nat → Nat → List Nat
  | 0, _ => []
  | fuel + 1, search =>
      match findFrom keyword text search with
      | some place =>
          place :: occurrences keyword text fuel (place + keyword.length)
      | none => []

def skipWs (text : Text) (start : Nat) : Nat :=
  start + ((text.drop start).takeWhile isAsciiWhitespace).length

/-- The place of the delimiter that closes the one the rest begins with. -/
def matchingFrom (left right : Char) : Nat → Nat → Text → Option Nat
  | _, _, [] => none
  | depth, place, char :: rest =>
      if char = left then matchingFrom left right (depth + 1) (place + 1) rest
      else if char = right then
        if depth - 1 = 0 then some place
        else matchingFrom left right (depth - 1) (place + 1) rest
      else matchingFrom left right depth (place + 1) rest

def matchingDelim (text : Text) (opened : Nat) (left right : Char) :
    Option Nat :=
  matchingFrom left right 0 opened (text.drop opened)

/-- The first use of a directive from `start` on: its place, what stands between
its delimiters, and where it ends. -/
def directiveBodyWithPos (text keyword : Text) (start : Nat) :
    Option (Nat × Text × Nat) :=
  (occurrences keyword text (text.length + 1) start).findSome? fun place =>
    let after := place + keyword.length
    if standsAlone text place after then
      let opened := skipWs text after
      let closed :=
        match text[opened]? with
        | some '(' => matchingDelim text opened '(' ')'
        | some '{' => matchingDelim text opened '{' '}'
        | _ => none
      closed.map fun close =>
        (place, slice text (opened + 1) close, close + 1)
    else none

def directiveBody (text keyword : Text) (start : Nat) : Option (Text × Nat) :=
  (directiveBodyWithPos text keyword start).map fun found => found.2

def directiveArg (text keyword : Text) : Option Text :=
  (directiveBody text keyword 0).map fun found => trim found.1

/-- The bodies that `next` finds one after another. -/
def bodiesFrom (next : Nat → Option (Text × Nat)) : Nat → Nat → List Text
  | 0, _ => []
  | fuel + 1, start =>
      match next start with
      | some (body, stop) => body :: bodiesFrom next fuel stop
      | none => []

/-! ## References of input scripts -/

def refKeywords : List Text :=
  [ascii "GROUP", ascii "INPUT", ascii "AS_NEEDED"]

def nextRefDirectiveBody (text : Text) (start : Nat) : Option (Text × Nat) :=
  ((refKeywords.filterMap fun keyword =>
    directiveBodyWithPos text keyword start).argmin fun found => found.1).map
      fun found => found.2

def blankOut (separators : Text) (text : Text) : Text :=
  text.map fun char => if char ∈ separators then ' ' else char

def isScriptRef (word : Text) : Bool :=
  !(word ∈ refKeywords) && word != ascii "/DISCARD/" &&
    ((ascii "-l").isPrefixOf word || '/' ∈ word ||
      (ascii ".o").isSuffixOf word || (ascii ".a").isSuffixOf word ||
      contains word (ascii ".so"))

def parseRefTokens (text : Text) : List Text :=
  ((splitWhitespace (blankOut (ascii "(),") text)).map fun word =>
    trimMatches (· == '\'') (trimMatches (· == '"') word)).filter isScriptRef

def extractScriptRefs (text : Text) : List Text :=
  pushNew []
    ((bodiesFrom (nextRefDirectiveBody text) (text.length + 1) 0).flatMap
      parseRefTokens)

/-! ## Sections of `-T` scripts -/

structure ScriptOutputSection where
  name : Text
  patterns : List Text
deriving DecidableEq, Repr

structure ScriptLayout where
  outputSections : List ScriptOutputSection
  keepPatterns : List Text
deriving DecidableEq, Repr

def ScriptLayout.empty : ScriptLayout := ⟨[], []⟩

def sectionPatterns (body : Text) : List Text :=
  pushNew []
    ((splitWhitespace (blankOut (ascii "()\x7b\x7d;,\":") body)).filter fun word =>
      word.head? == some '.')

def keepPatterns (body : Text) : List Text :=
  pushNew []
    ((bodiesFrom (directiveBody body (ascii "KEEP")) (body.length + 1) 0).flatMap
      sectionPatterns)

def findByteBefore (text : Text) (start : Nat) (needle stop : Char) :
    Option Nat :=
  let skipped := (text.drop start).takeWhile fun char =>
    char != needle && char != stop
  if text[start + skipped.length]? = some needle then
    some (start + skipped.length)
  else none

def ScriptLayout.describe (layout : ScriptLayout) (name sectionBody : Text) :
    ScriptLayout :=
  if name.isEmpty || name = ascii "/DISCARD/" then layout
  else
    let patterns := sectionPatterns sectionBody
    { outputSections := layout.outputSections ++
        [⟨name, if patterns.isEmpty then [name] else patterns⟩]
      keepPatterns := layout.keepPatterns ++ Peony.keepPatterns sectionBody }

def sectionsFrom (body : Text) : Nat → Nat → ScriptLayout → ScriptLayout
  | 0, _, layout => layout
  | fuel + 1, place, layout =>
      let start := place + ((body.drop place).takeWhile fun char =>
        isAsciiWhitespace char || char == ';').length
      match body[start]? with
      | none => layout
      | some char =>
          if char ≠ '.' ∧ char ≠ '/' then
            sectionsFrom body fuel (start + 1) layout
          else
            let word := (body.drop start).takeWhile fun char =>
              !(isAsciiWhitespace char || char ∈ ascii ":\x7b;")
            let stop := start + word.length
            let name := trim word
            let next := skipWs body stop
            if name = ascii "." ∧ body[next]? = some '=' then
              -- An assignment to the location counter.
              let stop := ((findFrom (ascii ";") body next).map (· + 1)).getD
                body.length
              sectionsFrom body fuel stop layout
            else
              match findByteBefore body next ':' ';' with
              | none => sectionsFrom body fuel (stop + 1) layout
              | some colon =>
                  match findFrom (ascii "\x7b") body (colon + 1) with
                  | none => sectionsFrom body fuel (colon + 1) layout
                  | some opened =>
                      match matchingDelim body opened '{' '}' with
                      | none => layout
                      | some close =>
                          sectionsFrom body fuel (close + 1)
                            (layout.describe name
                              (slice body (opened + 1) close))

def parseSectionsLayout (text : Text) : ScriptLayout :=
  match directiveBody text (ascii "SECTIONS") 0 with
  | some (body, _) => sectionsFrom body (body.length + 1) 0 ScriptLayout.empty
  | none => ScriptLayout.empty

def firstNumberToken (expr : Text) : Option Text :=
  match expr.dropWhile fun char => !char.isDigit with
  | [] => none
  | digit :: rest =>
      some (digit :: rest.takeWhile fun char =>
        isAsciiHexdigit char || char == 'x' || char == 'X')

/-- The number in the first assignment to the location counter that has one. -/
def scriptBaseAddress (text : Text) : Option Text := do
  let (body, _) ← directiveBody text (ascii "SECTIONS") 0
  (List.range body.length).findSome? fun place =>
    let next := skipWs body (place + 1)
    if body[place]? = some '.' ∧ body[next]? = some '=' then
      let start := skipWs body (next + 1)
      let stop := (findFrom (ascii ";") body start).getD body.length
      firstNumberToken (trim (slice body start stop))
    else none

/-! ## Controls -/

structure ScriptControls where
  entry : Option Text
  baseAddress : Option Text
  layout : ScriptLayout
deriving DecidableEq, Repr

def ScriptControls.empty : ScriptControls := ⟨none, none, ScriptLayout.empty⟩

def unsupportedDirectives : List Text :=
  [ascii "PROVIDE", ascii "ASSERT", ascii "PHDRS", ascii "MEMORY",
    ascii "SORT", ascii "OVERLAY", ascii "DATA_SEGMENT_RELRO_END",
    ascii "DATA_SEGMENT_ALIGN", ascii "INCLUDE", ascii "OUTPUT_FORMAT",
    ascii "OUTPUT_ARCH"]

def scriptHasToken (text token : Text) : Bool :=
  (occurrences token text (text.length + 1) 0).any fun place =>
    standsAlone text place (place + token.length)

def rejectUnsupportedLinkerScript (text : Text) (path : Path) :
    Except DriverError Unit :=
  match unsupportedDirectives.find? (scriptHasToken text) with
  | some directive => .error (.unsupportedDirective path directive)
  | none => .ok ()

/-- The controls with those of one more script: the entry and the base address of
the last script that has them, the sections of all. -/
def ScriptControls.merge (merged : ScriptControls) (text : Text) :
    ScriptControls :=
  let layout := parseSectionsLayout text
  { entry := (directiveArg text (ascii "ENTRY")).or merged.entry
    baseAddress := (scriptBaseAddress text).or merged.baseAddress
    layout :=
      { outputSections :=
          merged.layout.outputSections ++ layout.outputSections
        keepPatterns := merged.layout.keepPatterns ++ layout.keepPatterns } }

def parseLinkerScriptControls (disk : Disk) (paths : List Path) :
    Except DriverError ScriptControls :=
  paths.foldlM
    (fun merged path => do
      let data ← readFile disk path
      let text := stripBlockComments (fromUtf8Lossy data)
      rejectUnsupportedLinkerScript text path
      return merged.merge text)
    ScriptControls.empty

end Peony
