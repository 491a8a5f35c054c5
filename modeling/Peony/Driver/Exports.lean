import Mathlib.Data.Finset.Insert
import Peony.Driver.Script

namespace Peony

/-! What version scripts and dynamic lists say about the symbols to export. -/

/-! ## Version scripts -/

structure VersionScript where
  exact : Finset Name
  globalWildcard : Bool
deriving DecidableEq

namespace VersionScript

def empty : VersionScript := ⟨∅, false⟩

/-- Whether a symbol is exported under this script. -/
def exports (script : VersionScript) (name : Name) : Bool :=
  script.globalWildcard || name ∈ script.exact

/-- One entry of a `global:` list. -/
def allow (script : VersionScript) (name : Text) : VersionScript :=
  if name = ascii "*" then { script with globalWildcard := true }
  else { script with exact := insert (encodeUtf8 name) script.exact }

/-- One token, with whether the list it stands in is a `global:` one. -/
def token (state : VersionScript × Bool) (token : Text) :
    VersionScript × Bool :=
  if token = ascii "global:" then (state.1, true)
  else if token = ascii "local:" then (state.1, false)
  else if state.2 then
    let names := ((token.splitOnP (· == ';')).map trim).filter fun name =>
      !name.isEmpty && name != ascii ";"
    (names.foldl allow state.1, true)
  else state

end VersionScript

def withoutLineComment (line : Text) : Text :=
  before (ascii "//") (before (ascii "#") line)

def versionScriptTokens (text : Text) : List Text :=
  (lines text).flatMap fun line =>
    (((withoutLineComment line).splitOnP fun char =>
      char ∈ ascii " \t\x7b\x7d()").map trim).filter fun token => !token.isEmpty

def parseVersionScript (disk : Disk) (path : Path) :
    Except DriverError VersionScript := do
  let text ← readToString disk path
  return ((versionScriptTokens text).foldl VersionScript.token
    (VersionScript.empty, false)).1

/-! ## Dynamic lists -/

def dynamicListKeywords : List Text :=
  [ascii "global", ascii "local", ascii "extern", ascii "C",
    ascii "C++", ascii "VERSION", ascii "Base", ascii "global:",
    ascii "local:"]

def isVersionNode (word : Text) : Bool :=
  word.all isWordChar && (ascii "_VER").isSuffixOf word

def readDynamicSymbolPatterns (disk : Disk) (path : Path) :
    Except DriverError (List Text) := do
  let text ← readToString disk path
  let words := (lines (stripBlockComments text)).flatMap fun line =>
    splitWhitespace (blankOut (ascii "\x7b\x7d();,:\t\r\n") (withoutLineComment line))
  return pushNew [] (words.filter fun word =>
    !(word ∈ dynamicListKeywords) && !isVersionNode word)

/-! ## Patterns -/

def partsOccur : List Text → Text → Bool
  | [], _ => true
  | part :: parts, rest =>
      match findFrom part rest 0 with
      | some place => partsOccur parts (rest.drop (place + part.length))
      | none => false

def wildcardMatches (pattern name : Text) : Bool :=
  if pattern = ascii "*" then true
  else
    let parts := pattern.splitOnP (· == '*')
    if parts.length = 1 then pattern == name
    else if pattern.head? ≠ some '*' ∧ !(parts.headD []).isPrefixOf name then
      false
    else if pattern.getLast? ≠ some '*' ∧
        !(parts.getLastD []).isSuffixOf name then false
    else partsOccur (parts.filter fun part => !part.isEmpty) name

def exportPatternMatches (patterns : List Text) (name : Name) : Bool :=
  match fromUtf8 name with
  | some name => patterns.any fun pattern => wildcardMatches pattern name
  | none => false

end Peony
