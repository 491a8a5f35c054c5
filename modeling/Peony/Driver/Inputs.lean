import Peony.Cache.Manifest
import Peony.Driver.Args
import Peony.Load.Load

namespace Peony

/-! From the command line to the ordered list of input files: libraries are
looked up, scripts are replaced by what they refer to, and the startup objects
are put around. -/

/-! ## The host -/

/-- What the driver asks of the machine it runs on besides the files. -/
structure Host where
  /-- Whether the environment switches the cache off. -/
  incrementalDisabled : Bool
  isDirectory : Path → Bool
  /-- The library directories that the C compiler prints. -/
  gccLibraryDirs : List Path
  /-- What the C compiler prints for a file name. -/
  gccFileName : Text → Option Path

/-- `Path::exists`. -/
def Host.hasPath (host : Host) (disk : Disk) (path : Path) : Bool :=
  (disk.file path).isSome || host.isDirectory path

/-! ## Paths -/

/-- `Path::is_absolute`. -/
def isAbsolute (path : Path) : Bool := path.head? == some slash

/-- `Path::join`. -/
def joinPath (directory path : Path) : Path :=
  if isAbsolute path || directory.isEmpty then path
  else if directory.getLast? = some slash then directory ++ path
  else directory ++ slash :: path

/-- A path, last byte first, without separators and `.` parts at its end. -/
def trimPathEnd : List UInt8 → List UInt8
  | [47] => [47]
  | 47 :: rest => trimPathEnd rest
  | 46 :: 47 :: rest => trimPathEnd (47 :: rest)
  | path => path

/-- `Path::parent` of a path that ends with a file name. -/
def parentPath (path : Path) : Path :=
  (trimPathEnd (path.reverse.dropWhile (· != slash))).reverse

/-! ## Kinds of files -/

def elfMagic : List UInt8 := [0x7f, 0x45, 0x4c, 0x46]

def archiveMagics : List (List UInt8) :=
  [ascii "!<arch>\n", ascii "!<thin>\n"].map encodeUtf8

def classifyBytes (header : List UInt8) : FileKind :=
  if archiveMagics.any fun magic => magic.isPrefixOf header then .archive
  else if 18 ≤ header.length ∧ elfMagic.isPrefixOf header ∧
      header[16]? = some 3 ∧ header[17]? = some 0 then .shared
  else .bare

def classifyFile (disk : Disk) (path : Path) : FileKind :=
  classifyBytes (((disk.contents path).getD []).take 20)

def isLinkerScript (disk : Disk) (path : Path) : Bool :=
  match disk.contents path with
  | none => false
  | some bytes =>
      let head := bytes.take 8
      if (elfMagic :: archiveMagics).any fun magic => magic.isPrefixOf head then
        false
      else
        let text := fromUtf8Lossy bytes
        ["GROUP", "INPUT", "AS_NEEDED", "SECTIONS", "ENTRY"].any fun word =>
          contains text (ascii word)

def parseLinkerScript (disk : Disk) (path : Path) :
    Except DriverError (List Text) := do
  let data ← readFile disk path
  return extractScriptRefs (stripBlockComments (fromUtf8Lossy data))

/-! ## Libraries -/

/-- The places a library can have, the directories in their order. -/
def libraryCandidates (search : List Path) (name : Text)
    (extensions : List String) : List Path :=
  search.flatMap fun directory => extensions.map fun extension =>
    joinPath directory (encodeUtf8
      (ascii "lib" ++ name ++ '.' :: ascii extension))

def standardDirs : List Path :=
  ["/usr/lib/x86_64-linux-gnu", "/usr/lib64", "/lib/x86_64-linux-gnu",
    "/lib64", "/usr/lib", "/lib"].map fun path => encodeUtf8 (ascii path)

/-- The explicit directories, then those of the compiler and the system. -/
def librarySearchPaths (host : Host) (explicit : List Path) : List Path :=
  pushNew explicit
    ((host.gccLibraryDirs ++ standardDirs).filter host.isDirectory)

def resolveLibrary (host : Host) (disk : Disk) (name : Text)
    (mode : LibraryMode) (search : List Path) : Except DriverError Path :=
  let extensions :=
    match mode with
    | .static => ["a"]
    | .any | .dynamic => ["so", "a"]
  match (libraryCandidates search name extensions).find?
      (host.hasPath disk) with
  | some path => .ok path
  | none => .error (.cannotFind name)

def resolveScriptRef (host : Host) (disk : Disk) (ref : Text)
    (scriptDir : Path) (search : List Path) : Option Path :=
  match stripPrefix (ascii "-l") ref with
  | some name =>
      (libraryCandidates search name ["so", "a"]).find? (host.hasPath disk)
  | none =>
      let path := encodeUtf8 ref
      ((if isAbsolute path then [path] else []) ++ joinPath scriptDir path ::
        search.map fun directory => joinPath directory path).find?
          (host.hasPath disk)

/-! ## Inputs -/

def resolveInputs (host : Host) (disk : Disk) (args : Args) :
    Except DriverError (List ResolvedInput) := do
  let search := librarySearchPaths host args.libraryPaths
  let inputs ← args.linkSpecs.mapM fun spec => do
    let path ←
      match spec.kind with
      | .path path => pure path
      | .library name => resolveLibrary host disk name spec.libraryMode search
    return {
      path := path
      wholeArchive := spec.wholeArchive
      asNeeded := spec.asNeeded
      startLibMember := spec.startLibMember : ResolvedInput }
  if inputs.isEmpty then throw .noInputFiles
  return inputs

/-- The inputs a script stands for. A reference that cannot be resolved is
dropped. -/
def scriptInputs (host : Host) (disk : Disk) (search : List Path)
    (input : ResolvedInput) : Except DriverError (List ResolvedInput) := do
  let refs ← parseLinkerScript disk input.path
  let paths := refs.filterMap fun ref =>
    resolveScriptRef host disk ref (parentPath input.path) search
  return paths.map fun path => { input with path := path }

def expandQueue (host : Host) (disk : Disk) (search : List Path) :
    Nat → List ResolvedInput → List ResolvedInput →
      Except DriverError (List ResolvedInput)
  | _, out, [] => .ok out
  | 0, _, _ :: _ => .error .unfinished
  | fuel + 1, out, input :: work =>
      if classifyFile disk input.path = .archive ∨
          !isLinkerScript disk input.path then
        expandQueue host disk search fuel (out ++ [input]) work
      else do
        let referenced ← scriptInputs host disk search input
        expandQueue host disk search fuel out (work ++ referenced)

def expandInputs (host : Host) (disk : Disk) (search : List Path) (fuel : Nat)
    (inputs : List ResolvedInput) : Except DriverError (List ResolvedInput) :=
  expandQueue host disk search fuel [] inputs

def resolvedInputPaths (inputs : List ResolvedInput) : List Path :=
  inputs.map ResolvedInput.path

/-! ## Startup objects -/

def findCrt (host : Host) (disk : Disk) (name : String) : Option Path :=
  let file := encodeUtf8 (ascii name)
  ((host.gccLibraryDirs.map fun directory => joinPath directory file).find?
    (host.hasPath disk)).or
      ((host.gccFileName (ascii name)).filter fun path =>
        isAbsolute path && host.hasPath disk path)

def plainInput (path : Path) : ResolvedInput := ⟨path, false, false, false⟩

def injectCrtObjects (host : Host) (disk : Disk) (inputs : List ResolvedInput)
    (args : Args) : List ResolvedInput × List Path :=
  let already := inputs.any fun input =>
    ["Scrt1.o", "crt1.o", "rcrt1.o"].any fun name =>
      fileName input.path == encodeUtf8 (ascii name)
  if already || !args.pie || args.noCrt then (inputs, [])
  else
    let find := findCrt host disk
    match find "Scrt1.o", find "crti.o", find "crtbeginS.o",
        find "crtendS.o", find "crtn.o" with
    | some c1, some ci, some cb, some ce, some cn =>
        ([c1, ci, cb].map plainInput ++ inputs ++ [ce, cn].map plainInput,
          [c1, ci, cb, ce, cn])
    | _, _, _, _, _ => (inputs, [])

/-! ## Handing a link over -/

/-- The byte strings a file with code for a link-time optimizer begins with, and
those it has somewhere. -/
def ltoMagics : List (List UInt8) :=
  [[0x42, 0x43, 0xc0, 0xde], [0xde, 0xc0, 0x17, 0x0b]]

def ltoMarks : List (List UInt8) :=
  [ascii ".gnu.lto_", ascii "__gnu_lto"].map encodeUtf8

def inputLooksLikeLto (disk : Disk) (path : Path) : Bool :=
  match disk.contents path with
  | some bytes =>
      ltoMagics.any (·.isPrefixOf bytes) ||
        ltoMarks.any fun mark => bytes.tails.any mark.isPrefixOf
  | none => false

def handsOffLto (disk : Disk) (args : Args) : Bool :=
  args.plugin.isSome && args.inputs.any (inputLooksLikeLto disk)

/-! ## The driver up to the cache -/

/-- What the driver knows when it comes to the cache: the arguments with what the
scripts say, and the inputs. -/
structure Front where
  args : Args
  baseAddress : UInt64
  controls : ScriptControls
  inputs : List ResolvedInput
  injectedCrt : List Path
deriving DecidableEq

/-- The arguments with the entry and the base address of the scripts where the
command line has none. `-shared` wins against `-pie`. -/
def Args.withControls (args : Args) (controls : ScriptControls) : Args :=
  { args with
    entry :=
      if args.entryExplicit then args.entry
      else controls.entry.getD args.entry
    baseAddress :=
      if args.baseAddressExplicit then args.baseAddress
      else controls.baseAddress.getD args.baseAddress
    pie := args.pie && !args.shared }

/-- The arguments with the cache off where it does not apply. -/
def Args.withCacheMode (args : Args) (host : Host) : Args :=
  { args with
    incremental :=
      args.incremental && !host.incrementalDisabled && !args.relocatable
    daemon := args.daemon && !host.incrementalDisabled && !args.relocatable }

def Args.imageBase (args : Args) : Except DriverError UInt64 :=
  if args.pie || args.shared then .ok 0
  else
    match parseHexOrDec args.baseAddress with
    | some base => .ok base
    | none => .error (.invalidBaseAddress args.baseAddress)

def frontEnd (host : Host) (disk : Disk) (fuel : Nat) (argv : List Text) :
    Except DriverError Front := do
  let parsed ← parseArgs disk argv
  if parsed.help then throw .helpRequested
  if !parsed.unsupportedFlags.isEmpty then
    throw (.unsupportedFlags parsed.unsupportedFlags)
  if handsOffLto disk parsed then throw .handedOff
  let controls ← parseLinkerScriptControls disk parsed.linkerScripts
  let args := (parsed.withCacheMode host).withControls controls
  let base ← args.imageBase
  let resolved ← resolveInputs host disk args
  let expanded ← expandInputs host disk
    (librarySearchPaths host args.libraryPaths) fuel resolved
  let (inputs, injected) :=
    if args.shared then (expanded, [])
    else injectCrtObjects host disk expanded args
  return ⟨args, base, controls, inputs, injected⟩

end Peony
