import Peony.Driver.Exports
import Peony.Layout.Config

namespace Peony

/-! The command line: its parse, the response files it refers to, and the part of
it that the cache hashes. -/

/-! ## Arguments -/

inductive LibraryMode where
  | any | static | dynamic
deriving DecidableEq, Repr

inductive LinkSpecKind where
  | path (path : Path)
  | library (name : Text)
deriving DecidableEq, Repr

structure LinkSpec where
  kind : LinkSpecKind
  wholeArchive : Bool
  asNeeded : Bool
  libraryMode : LibraryMode
  startLibMember : Bool
deriving DecidableEq, Repr

structure Args where
  rawArgs : List Text := []
  inputs : List Path := []
  libraryPaths : List Path := []
  libraries : List Text := []
  linkSpecs : List LinkSpec := []
  output : Path := encodeUtf8 (ascii "a.out")
  incremental : Bool := true
  daemon : Bool := false
  cacheReport : Option Path := none
  threads : UInt64 := 0
  baseAddress : Text := ascii "0x400000"
  baseAddressExplicit : Bool := false
  entry : Text := ascii "_start"
  entryExplicit : Bool := false
  gcSections : Bool := false
  icf : Bool := false
  stats : Bool := false
  trace : Bool := false
  traceStack : Bool := false
  traceDetail : Bool := false
  help : Bool := false
  defsym : List Text := []
  linkerScripts : List Path := []
  plugin : Option Path := none
  buildId : Bool := false
  stripAll : Bool := false
  stripDebug : Bool := false
  emitRelocs : Bool := false
  pie : Bool := false
  noCrt : Bool := false
  dynamicLinker : Option Text := none
  rpaths : List Text := []
  enableNewDtags : Bool := true
  hashStyle : HashStyle := .both
  exportDynamic : Bool := false
  exportDynamicPatterns : List Text := []
  excludeLibs : List Text := []
  noUndefined : Bool := false
  undefined : List Text := []
  requireDefined : List Text := []
  relocatable : Bool := false
  shared : Bool := false
  soname : Option Text := none
  versionScript : Option Path := none
  unsupportedFlags : List Text := []
deriving DecidableEq, Repr

/-! ## Numbers -/

def digitValue (char : Char) : Option Nat :=
  if '0' ≤ char ∧ char ≤ '9' then some (char.toNat - '0'.toNat)
  else if 'a' ≤ char ∧ char ≤ 'z' then some (char.toNat - 'a'.toNat + 10)
  else if 'A' ≤ char ∧ char ≤ 'Z' then some (char.toNat - 'A'.toNat + 10)
  else none

/-- `u64::from_str_radix`. -/
def fromStrRadix (radix : Nat) (text : Text) : Option UInt64 :=
  let digits := if text.head? = some '+' then text.tail else text
  if digits.isEmpty then none
  else
    (digits.foldlM
      (fun value char => do
        let digit ← digitValue char
        let next := value * radix + digit
        if digit < radix ∧ next < 2 ^ 64 then some next else none)
      0).map UInt64.ofNat

def parseHexOrDec (text : Text) : Option UInt64 :=
  match (stripPrefix (ascii "0x") text).or (stripPrefix (ascii "0X") text) with
  | some hex => fromStrRadix 16 hex
  | none => fromStrRadix 10 text

/-! ## The parse -/

/-- The arguments so far and the modes that hold for the inputs that follow. -/
structure ParseState where
  args : Args
  wholeArchive : Bool := false
  asNeeded : Bool := false
  libraryMode : LibraryMode := .any
  startLib : Bool := false
  stateStack : List (Bool × Bool × LibraryMode) := []

abbrev Setter := ParseState → Except DriverError ParseState

namespace Setter

/-- A flag that changes the arguments alone. -/
def args (change : Args → Args) : Setter := fun state =>
  .ok { state with args := change state.args }

/-- The spec of an input under the modes in force. -/
def spec (state : ParseState) (kind : LinkSpecKind) : LinkSpec where
  kind := kind
  wholeArchive := state.wholeArchive
  asNeeded := state.asNeeded
  libraryMode := state.libraryMode
  startLibMember := state.startLib

def pushPath (path : Path) : Setter := fun state =>
  .ok { state with args := { state.args with
    inputs := state.args.inputs ++ [path]
    linkSpecs := state.args.linkSpecs ++ [spec state (.path path)] } }

def pushLibrary (name : Text) : Setter := fun state =>
  .ok { state with args := { state.args with
    libraries := state.args.libraries ++ [name]
    linkSpecs := state.args.linkSpecs ++ [spec state (.library name)] } }

def unsupported (flag : Text) : Setter :=
  args fun a => { a with unsupportedFlags := a.unsupportedFlags ++ [flag] }

def entry (value : Text) : Setter :=
  args fun a => { a with entry := value, entryExplicit := true }

def baseAddress (value : Text) : Setter :=
  args fun a => { a with baseAddress := value, baseAddressExplicit := true }

def threads (value : Text) : Setter :=
  args fun a => { a with threads := (fromStrRadix 10 value).getD 0 }

def hashStyle (value : Text) : Setter := fun state =>
  let style :=
    if value = ascii "sysv" then some HashStyle.sysv
    else if value = ascii "gnu" then some .gnu
    else if value = ascii "both" then some .both
    else none
  match style with
  | some style => args (fun a => { a with hashStyle := style }) state
  | none => .error (.unsupportedHashStyle value)

def excludeLibs (value : Text) : Setter :=
  args fun a => { a with excludeLibs := a.excludeLibs ++
    ((value.splitOnP (· == ',')).map trim).filter fun name => !name.isEmpty }

def zOption (value : Text) : Setter :=
  let value := value.dropWhile (· == '=')
  if value ∈ [ascii "relro", ascii "now", ascii "noexecstack"] then .ok
  else if value = ascii "defs" then args fun a => { a with noUndefined := true }
  else if value = ascii "undefs" then
    args fun a => { a with noUndefined := false }
  else unsupported (ascii "-z " ++ value)

def undefined (value : Text) : Setter :=
  args fun a => { a with undefined := a.undefined ++ [value] }

def requireDefined (value : Text) : Setter :=
  args fun a => { a with
    undefined := a.undefined ++ [value]
    requireDefined := a.requireDefined ++ [value] }

def exportDynamicSymbol (value : Text) : Setter :=
  args fun a => { a with
    exportDynamicPatterns := a.exportDynamicPatterns ++ [value] }

/-- The list is read here, so only its path is among the raw arguments. -/
def dynamicList (disk : Disk) (value : Text) : Setter := fun state => do
  let patterns ← readDynamicSymbolPatterns disk (encodeUtf8 value)
  args (fun a => { a with
    exportDynamicPatterns := a.exportDynamicPatterns ++ patterns }) state

def output (value : Text) : Setter :=
  args fun a => { a with output := encodeUtf8 value }

def libraryPath (value : Text) : Setter :=
  args fun a => { a with libraryPaths := a.libraryPaths ++ [encodeUtf8 value] }

def linkerScript (value : Text) : Setter :=
  args fun a => { a with
    linkerScripts := a.linkerScripts ++ [encodeUtf8 value] }

def plugin (value : Text) : Setter :=
  args fun a => { a with plugin := some (encodeUtf8 value) }

def cacheReport (value : Text) : Setter :=
  args fun a => { a with cacheReport := some (encodeUtf8 value) }

def versionScript (value : Text) : Setter :=
  args fun a => { a with versionScript := some (encodeUtf8 value) }

def defsym (value : Text) : Setter :=
  args fun a => { a with defsym := a.defsym ++ [value] }

def rpath (value : Text) : Setter :=
  args fun a => { a with rpaths := a.rpaths ++ [value] }

def dynamicLinker (value : Text) : Setter :=
  args fun a => { a with dynamicLinker := some value }

def soname (value : Text) : Setter :=
  args fun a => { a with soname := some value }

def popState : Setter := fun state =>
  match state.stateStack with
  | (whole, needed, mode) :: rest =>
      .ok { state with
        wholeArchive := whole
        asNeeded := needed
        libraryMode := mode
        stateStack := rest }
  | [] => .error .unbalancedPopState

def startLib : Setter := fun state =>
  if state.startLib then .error .nestedStartLib
  else .ok { state with startLib := true }

def endLib : Setter := fun state =>
  if state.startLib then .ok { state with startLib := false }
  else .error .strayEndLib

end Setter

def flagRow {α : Type} (flag : Text) (rows : List (List String × α)) : Option α :=
  (rows.find? fun row => flag ∈ row.1.map ascii).map Prod.snd

section

open Setter

def valueFlag (disk : Disk) (flag : Text) : Option (Text → Setter) :=
  flagRow flag
    [(["-o", "--output"], output),
      (["-e", "--entry"], entry),
      (["-L", "--library-path"], libraryPath),
      (["-T", "--script"], linkerScript),
      (["-l", "--library"], pushLibrary),
      (["--defsym"], defsym),
      (["-plugin", "--plugin"], plugin),
      (["--threads"], threads),
      (["--base-address"], baseAddress),
      (["--cache-report"], cacheReport),
      (["-rpath", "--rpath"], rpath),
      (["-dynamic-linker", "--dynamic-linker"], dynamicLinker),
      (["-z"], zOption),
      (["--hash-style"], hashStyle),
      (["--exclude-libs"], excludeLibs),
      (["-soname", "-h", "--soname"], soname),
      (["--version-script"], versionScript),
      (["-u", "--undefined"], undefined),
      (["--require-defined"], requireDefined),
      (["--export-dynamic-symbol"], exportDynamicSymbol),
      (["--export-dynamic-symbol-list", "--dynamic-list"], dynamicList disk)]

def plainFlag (flag : Text) : Option Setter :=
  flagRow flag
    [(["--gc-sections"], args fun a => { a with gcSections := true }),
      (["--no-gc-sections"], args fun a => { a with gcSections := false }),
      (["--stats"], args fun a => { a with stats := true }),
      (["--trace"], args fun a => { a with trace := true }),
      (["--trace-stack"],
        args fun a => { a with trace := true, traceStack := true }),
      (["--trace-detail"],
        args fun a => { a with trace := true, traceDetail := true }),
      (["--help"], args fun a => { a with help := true }),
      (["--icf=all", "--icf=safe", "--icf"],
        args fun a => { a with icf := true }),
      (["--icf=none", "--no-icf"], args fun a => { a with icf := false }),
      (["--build-id"], args fun a => { a with buildId := true }),
      (["--incremental"], args fun a => { a with incremental := true }),
      (["--no-incremental"],
        args fun a => { a with incremental := false, daemon := false }),
      (["--daemon"],
        args fun a => { a with incremental := true, daemon := true }),
      (["-s", "--strip-all"],
        args fun a => { a with stripAll := true, stripDebug := true }),
      (["-S", "--strip-debug"], args fun a => { a with stripDebug := true }),
      (["--emit-relocs", "-q"], args fun a => { a with emitRelocs := true }),
      (["-pie", "--pie"], args fun a => { a with pie := true }),
      (["-no-pie", "--no-pie"], args fun a => { a with pie := false }),
      (["-nostartfiles", "--no-crt"], args fun a => { a with noCrt := true }),
      (["-static", "--static"], fun state =>
        .ok { state with
          libraryMode := .static
          args := { state.args with pie := false } }),
      (["-static-pie", "--static-pie"], unsupported flag),
      (["-Bstatic", "-dn", "-non_shared"],
        fun state => .ok { state with libraryMode := .static }),
      (["-Bdynamic", "-dy"],
        fun state => .ok { state with libraryMode := .dynamic }),
      (["--as-needed"], fun state => .ok { state with asNeeded := true }),
      (["--no-as-needed"], fun state => .ok { state with asNeeded := false }),
      (["--push-state"], fun state =>
        .ok { state with stateStack :=
          (state.wholeArchive, state.asNeeded, state.libraryMode) ::
            state.stateStack }),
      (["--pop-state"], popState),
      (["--whole-archive"],
        fun state => .ok { state with wholeArchive := true }),
      (["--no-whole-archive"],
        fun state => .ok { state with wholeArchive := false }),
      (["--start-lib"], startLib),
      (["--end-lib"], endLib),
      (["--enable-new-dtags"],
        args fun a => { a with enableNewDtags := true }),
      (["--disable-new-dtags"],
        args fun a => { a with enableNewDtags := false }),
      (["--no-undefined", "-zdefs", "--no-allow-shlib-undefined",
        "--unresolved-symbols=report-all"],
        args fun a => { a with noUndefined := true }),
      (["--allow-shlib-undefined", "--unresolved-symbols=ignore-all"],
        args fun a => { a with noUndefined := false }),
      (["-shared", "--shared", "-Bshareable"],
        args fun a => { a with shared := true }),
      (["-r", "--relocatable"], args fun a => { a with relocatable := true }),
      (["--export-dynamic"], args fun a => { a with exportDynamic := true })]

/-- Flags whose value is passed over. -/
def ignoreWithValue : List Text :=
  [ascii "-m", ascii "-plugin", ascii "-plugin-opt", ascii "-rpath-link",
    ascii "-y", ascii "-Y", ascii "-R", ascii "-a", ascii "-A",
    ascii "--sysroot"]

/-- The flags that carry their value, and every other argument. -/
def prefixedFlag (disk : Disk) (arg : Text) : Setter :=
  let rest (front : String) : Option Text := stripPrefix (ascii front) arg
  let longer (front : String) : Option Text :=
    (rest front).filter fun value => !value.isEmpty
  ([(rest "--entry=").map entry,
      (rest "--defsym=").map defsym,
      (rest "--plugin=").map plugin,
      (rest "--threads=").map threads,
      (rest "--base-address=").map baseAddress,
      (rest "--script=").map linkerScript,
      (rest "--build-id").map fun _ => args fun a => { a with buildId := true },
      (rest "--version-script=").map versionScript,
      (rest "-rpath=").map rpath,
      (rest "--rpath=").map rpath,
      (rest "-dynamic-linker=").map dynamicLinker,
      (rest "--dynamic-linker=").map dynamicLinker,
      (rest "--hash-style=").map hashStyle,
      (rest "--cache-report=").map cacheReport,
      (rest "--exclude-libs=").map excludeLibs,
      (longer "-z").map zOption,
      (rest "--wrap=").map fun _ => unsupported arg,
      (rest "-wrap=").map fun _ => unsupported arg,
      (rest "--require-defined=").map requireDefined,
      (rest "--undefined=").map undefined,
      (rest "--export-dynamic-symbol=").map exportDynamicSymbol,
      (rest "--export-dynamic-symbol-list=").map (dynamicList disk),
      (rest "--dynamic-list=").map (dynamicList disk),
      (rest "-soname=").map soname,
      (longer "-h").map soname,
      (rest "-o").map output,
      (rest "-L").map libraryPath,
      (longer "-T").map linkerScript,
      (rest "-plugin=").map plugin,
      (rest "-l").map pushLibrary,
      (rest "-e").map entry,
      -- Another flag, such as a group marker, is ignored.
      (rest "-").map fun _ => .ok].findSome? id).getD
    (pushPath (encodeUtf8 arg))

end

def parseLoop (disk : Disk) : List Text → Setter
  | [], state => .ok state
  | arg :: rest, state =>
      match valueFlag disk arg with
      | some set =>
          match rest with
          | value :: more => do parseLoop disk more (← set value state)
          | [] => .error (.missingValue arg)
      | none =>
          match plainFlag arg with
          | some set => do parseLoop disk rest (← set state)
          | none =>
              if arg = ascii "--wrap" ∨ arg = ascii "-wrap" then do
                let state ← Setter.unsupported arg state
                match rest with
                | _ :: more => parseLoop disk more state
                | [] => return state
              else if arg ∈ ignoreWithValue then
                match rest with
                | _ :: more => parseLoop disk more state
                | [] => .ok state
              else do parseLoop disk rest (← prefixedFlag disk arg state)

def parseExpandedArgs (disk : Disk) (argv : List Text) :
    Except DriverError Args := do
  let state ← parseLoop disk argv { args := { rawArgs := argv } }
  if state.startLib then throw .missingEndLib
  if !state.stateStack.isEmpty then throw .unbalancedState
  return state.args

/-! ## Response files -/

/-- An argument that is complete, when it has any characters. -/
def pushArg (args : List Text) (current : Text) : List Text :=
  if current.isEmpty then args else args ++ [current]

def responseFrom : List Text → Text → Option Char → Text →
    Except DriverError (List Text)
  | args, current, none, [] => .ok (pushArg args current)
  | _, _, some quote, [] => .error (.unterminatedQuote quote)
  | args, current, quote, char :: rest =>
      if quote = none ∧ isWhitespace char then
        responseFrom (pushArg args current) [] none rest
      else if quote = none ∧ (char = '"' ∨ char = '\'') then
        responseFrom args current (some char) rest
      else if quote = some char then responseFrom args current none rest
      else if char = '\\' then
        match rest with
        | next :: more => responseFrom args (current ++ [next]) quote more
        | [] => responseFrom args (current ++ ['\\']) quote []
      else responseFrom args (current ++ [char]) quote rest

def parseResponseFile (text : Text) : Except DriverError (List Text) :=
  responseFrom [] [] none text

def expandResponseArgsInner (disk : Disk) :
    Nat → List Path → List Text → Except DriverError (List Text)
  | 0, _, _ => .error .nestingTooDeep
  | level + 1, seen, argv => do
      let expanded ← argv.mapM fun arg =>
        match arg with
        | '@' :: first :: more => do
            let path := encodeUtf8 (first :: more)
            if path ∈ seen then throw (.recursiveResponseFile path)
            let text ← readToString disk path
            let nested ← parseResponseFile text
            expandResponseArgsInner disk level (path :: seen) nested
        | _ => return [arg]
      return expanded.flatten

def expandResponseArgs (disk : Disk) (argv : List Text) :
    Except DriverError (List Text) :=
  expandResponseArgsInner disk 17 [] argv

def parseArgs (disk : Disk) (argv : List Text) : Except DriverError Args := do
  parseExpandedArgs disk (← expandResponseArgs disk argv)

/-! ## The cache key -/

def diagnosticFlags : List Text :=
  [ascii "--incremental", ascii "--no-incremental", ascii "--daemon",
    ascii "--stats", ascii "--trace", ascii "--trace-stack",
    ascii "--trace-detail"]

/-- The arguments that can affect the output. -/
def cacheKeyArgs : List Text → List Text
  | [] => []
  | arg :: rest =>
      if arg ∈ diagnosticFlags then cacheKeyArgs rest
      else if arg = ascii "--cache-report" ∨ arg = ascii "--threads" then
        match rest with
        | _ :: more => cacheKeyArgs more
        | [] => []
      else if (ascii "--cache-report=").isPrefixOf arg ∨
          (ascii "--threads=").isPrefixOf arg then cacheKeyArgs rest
      else arg :: cacheKeyArgs rest

end Peony
