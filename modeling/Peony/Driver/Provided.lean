import Peony.Driver.Args
import Peony.Symbols.Updates

namespace Peony

/-! The symbols that the linker and the command line define. They are defined
before the layout and take their addresses from it. -/

/-! ## Symbols of the linker -/

def linkerSyms : List Name :=
  [nameOf "_GLOBAL_OFFSET_TABLE_", nameOf "__executable_start",
    nameOf "__ehdr_start", nameOf "__bss_start", nameOf "_edata", nameOf "edata",
    nameOf "_end", nameOf "end", nameOf "__dso_handle"]

inductive ProvidedSymbol where
  | fixed (name : Name)
  | sectionStart (name : Name) (sectionName : Name)
  | sectionStop (name : Name) (sectionName : Name)
deriving DecidableEq, Repr

def ProvidedSymbol.name : ProvidedSymbol → Name
  | fixed name => name
  | sectionStart name _ => name
  | sectionStop name _ => name

def cIdentifierSuffix (text : Text) : Bool :=
  match text with
  | [] => false
  | first :: _ => (first == '_' || first.isAlpha) && text.all isWordChar

def startStopSymbol (name : Name) : Option ProvidedSymbol := do
  let text ← fromUtf8 name
  match (stripPrefix (ascii "__start_") text).filter cIdentifierSuffix with
  | some sectionName => some (.sectionStart name (encodeUtf8 sectionName))
  | none =>
      match (stripPrefix (ascii "__stop_") text).filter cIdentifierSuffix with
      | some sectionName => some (.sectionStop name (encodeUtf8 sectionName))
      | none => none

/-- Whether a name is known and no object defines it. -/
def SymbolTable.lacksDefinition (symbols : SymbolTable) (name : Name) : Bool :=
  (symbols.lookup name).any fun res => res.definedIn.isNone

def provideFixed (state : SymbolTable × List ProvidedSymbol) (name : Name) :
    SymbolTable × List ProvidedSymbol :=
  if state.1.lacksDefinition name then
    (state.1.defineAbsolute name 0, state.2 ++ [.fixed name])
  else state

/-- The bounds of sections that are referenced, as the table enumerates them. -/
def startStopSymbols (symbols : SymbolTable) : List ProvidedSymbol :=
  (symbols.resolutions.entries.filter fun entry =>
    entry.2.definedIn.isNone).filterMap fun entry => startStopSymbol entry.1

/-- Define what the linker provides, at address 0, where it is referenced and
nothing defines it. -/
def predefineLinkerSymbols (symbols : SymbolTable) :
    SymbolTable × List ProvidedSymbol :=
  let fixed := linkerSyms.foldl provideFixed (symbols, [])
  (startStopSymbols fixed.1).foldl
    (fun state sym => (state.1.defineAbsolute sym.name 0, state.2 ++ [sym])) fixed

/-- What every definition at an address keeps is kept. -/
theorem predefineLinkerSymbols_keeps {holds : SymbolTable → Prop}
    (keeps : ∀ table name, holds table → holds (table.defineAbsolute name 0))
    {table : SymbolTable} (start : holds table) :
    holds (predefineLinkerSymbols table).1 := by
  have fixed (names : List Name) (state : SymbolTable × List ProvidedSymbol)
      (start : holds state.1) : holds (names.foldl provideFixed state).1 := by
    induction names generalizing state with
    | nil => exact start
    | cons name rest induction =>
        rw [List.foldl_cons, provideFixed]
        split
        · exact induction _ (keeps _ name start)
        · exact induction _ start
  have bounds (syms : List ProvidedSymbol) (state : SymbolTable × List ProvidedSymbol)
      (start : holds state.1) :
      holds (syms.foldl (fun state sym =>
        (state.1.defineAbsolute sym.name 0, state.2 ++ [sym])) state).1 := by
    induction syms generalizing state with
    | nil => exact start
    | cons sym rest induction => exact induction _ (keeps _ sym.name start)
  exact bounds _ _ (fixed linkerSyms (table, []) start)

/-! ## Their addresses -/

def linkerSymbolAddr (layout : Layout) (name : Name) : UInt64 :=
  if name = nameOf "_GLOBAL_OFFSET_TABLE_" then layout.gotBase
  else if name ∈ [nameOf "__executable_start", nameOf "__ehdr_start",
      nameOf "__dso_handle"] then layout.imageBase
  else if name = nameOf "__bss_start" then layout.bssStart
  else if name ∈ [nameOf "_edata", nameOf "edata"] then layout.edata
  else if name ∈ [nameOf "_end", nameOf "end"] then layout.imageEnd
  else 0

def isNamed (sectionName : Name) (out : OutputSection) : Bool :=
  out.name == sectionName || out.name == 46 :: sectionName

def sectionBoundAddr (layout : Layout) (sectionName : Name) (stop : Bool) : UInt64 :=
  match layout.outputSections.find? (isNamed sectionName) with
  | some out => if stop then out.shAddr + out.shSize else out.shAddr
  | none => 0

def ProvidedSymbol.address (layout : Layout) : ProvidedSymbol → UInt64
  | fixed name => linkerSymbolAddr layout name
  | sectionStart _ sectionName => sectionBoundAddr layout sectionName false
  | sectionStop _ sectionName => sectionBoundAddr layout sectionName true

def setLinkerAddresses (symbols : SymbolTable) (layout : Layout)
    (provided : List ProvidedSymbol) : SymbolTable :=
  provided.foldl
    (fun symbols sym => symbols.modify sym.name fun entry =>
      { entry with value := sym.address layout, virtualAddress := sym.address layout })
    symbols

/-! ## Symbols of the command line -/

def splitAssignment (definition : Text) : Option (Text × Text) :=
  if '=' ∈ definition then
    some (definition.takeWhile (· != '='), (definition.dropWhile (· != '=')).tail)
  else none

/-- `SYM=VALUE`, or nothing when it is not of that form. -/
def parseDefsym (definition : Text) : Option (Name × UInt64) := do
  let (name, value) ← splitAssignment definition
  let value ← parseHexOrDec (trim value)
  return (encodeUtf8 (trim name), value)

def defineAll (symbols : SymbolTable) (definitions : List (Name × UInt64)) :
    SymbolTable :=
  definitions.foldl
    (fun symbols definition => symbols.defineAbsolute definition.1 definition.2)
    symbols

/-- `none` when a definition is invalid, which ends the link. -/
def applyDefsym (symbols : SymbolTable) (definitions : List Text) :
    Option SymbolTable :=
  (definitions.mapM parseDefsym).map (defineAll symbols)

/-! ## Exports -/

/-- The part of an object path before the member in parentheses. -/
def archiveOf (path : Text) : Option Text :=
  if '(' ∈ path then some (path.takeWhile (· != '(')) else none

/-- `Path::file_name`, of a path that names a file. -/
def textFileName (path : Text) : Text :=
  (path.reverse.takeWhile (· != '/')).reverse

def archiveStem (name : Text) : Text :=
  match stripPrefix (ascii "lib") name with
  | some rest =>
      if (ascii ".a").isSuffixOf rest then rest.take (rest.length - 2) else name
  | none => name

/-- Whether the options keep the symbols of the defining archive to themselves. -/
def excludedByExcludeLibs (excludeLibs : List Text) (symbols : SymbolTable)
    (res : SymbolResolution) : Bool :=
  if excludeLibs.isEmpty then false
  else
    match (res.definedIn.bind fun objId => symbols.objectPaths[objId.toNat]?).bind
        fun path => archiveOf path.toList with
    | none => false
    | some archive =>
        let name := textFileName archive
        let stem := archiveStem name
        excludeLibs.any fun pattern =>
          pattern == ascii "ALL" || pattern == name || pattern == stem ||
            wildcardMatches pattern name || wildcardMatches pattern stem

def exportsName (args : Args) (versionScript : Option VersionScript) (name : Name) :
    Bool :=
  if args.shared then
    match versionScript with
    | some script => script.exports name
    | none => true
  else args.exportDynamic || exportPatternMatches args.exportDynamicPatterns name

def exportSym (entry : Name × SymbolResolution) : ExportSym where
  name := entry.1
  info := stInfo (if entry.2.binding = .weak then stbWeak else stbGlobal)
    entry.2.stType
  other := entry.2.visibility

def Args.exportRequested (args : Args) : Bool :=
  args.shared || args.exportDynamic || !args.exportDynamicPatterns.isEmpty

def isExported (args : Args) (versionScript : Option VersionScript)
    (symbols : SymbolTable) (entry : Name × SymbolResolution) : Bool :=
  entry.2.isExport && !excludedByExcludeLibs args.excludeLibs symbols entry.2 &&
    exportsName args versionScript entry.1

def exportsOf (args : Args) (versionScript : Option VersionScript)
    (symbols : SymbolTable) : List ExportSym :=
  if args.exportRequested then
    sortBy (fun first second => compare first.name second.name)
      (((symbols.resolutions.entries.map fun entry => (entry.1, entry.2)).filter
        (isExported args versionScript symbols)).map exportSym)
  else []

end Peony
