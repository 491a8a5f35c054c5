import Peony.Driver.Script

namespace Peony

/-! How the patterns of a linker script choose the output section of an input
section, and the input sections to keep. -/

/-- The rest of a name after the first occurrences of the parts, one after the
other, and the last part that is not empty. -/
def matchParts (rest lastNonEmpty : Text) : List Text → Option (Text × Text)
  | [] => some (rest, lastNonEmpty)
  | part :: parts =>
      if part.isEmpty then matchParts rest lastNonEmpty parts
      else
        match findFrom part rest 0 with
        | some pos => matchParts (rest.drop (pos + part.length)) part parts
        | none => none

/-- The rest of a name after the first part of a pattern. -/
def matchFirst (anchoredStart : Bool) (name first : Text) : Option Text :=
  if first.isEmpty then some name
  else if anchoredStart then stripPrefix first name
  else (findFrom first name 0).map fun pos => name.drop (pos + first.length)

def scriptPatternMatches (pattern name : Text) : Bool :=
  if pattern = ['*'] then true
  else
    let anchoredStart := pattern.head? != some '*'
    let anchoredEnd := pattern.getLast? != some '*'
    let parts := pattern.splitOn '*'
    match matchFirst anchoredStart name (parts.headD []) with
    | none => false
    | some rest =>
        match matchParts rest [] parts.tail with
        | none => false
        | some (rest, lastNonEmpty) =>
            !anchoredEnd || (lastNonEmpty.isSuffixOf pattern && rest.isEmpty)

namespace ScriptLayout

def outputForInput (script : ScriptLayout) (inputName : Name) :
    Option Name := do
  let name ← fromUtf8 inputName
  let out ← script.outputSections.find? fun out =>
    out.patterns.any fun pattern => scriptPatternMatches pattern name
  return encodeUtf8 out.name

def orderOf (script : ScriptLayout) (name : Name) : Option Nat :=
  script.outputSections.findIdx? fun out => encodeUtf8 out.name == name

def keepsInput (script : ScriptLayout) (inputName : Name) : Bool :=
  match fromUtf8 inputName with
  | none => false
  | some name =>
      script.keepPatterns.any fun pattern => scriptPatternMatches pattern name

end ScriptLayout

end Peony
