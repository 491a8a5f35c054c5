import Peony.Layout.Config
import Peony.Layout.Property

namespace Peony

/-! The dynamic symbol, string, version and hash tables, whose sizes are known
before any address is. -/

/-! ## Strings -/

/-- Add a string and its end to a string table. The offset of the string is the
length of the table before. -/
def pushString (table : List UInt8) (name : Name) : List UInt8 :=
  table ++ name ++ [0]

/-- The offsets of strings added one after the other, and the table. -/
def pushStrings (table : List UInt8) : List Name → List UInt32 × List UInt8
  | [] => ([], table)
  | name :: rest =>
      let pushed := pushStrings (pushString table name) rest
      (UInt32.ofNat table.length :: pushed.1, pushed.2)

/-- The offset of a string that may be absent, and the table. -/
def pushOptional (table : List UInt8) (name : Option Name) :
    Option UInt32 × List UInt8 :=
  match name with
  | some name => (some (UInt32.ofNat table.length), pushString table name)
  | none => (none, table)

/-! ## Hashes -/

def elfSysvHash (name : Name) : UInt32 :=
  name.foldl
    (fun h byte =>
      let h := (h <<< 4) + byte.toUInt32
      let g := h &&& 0xf0000000
      (if g != 0 then h ^^^ (g >>> 24) else h) &&& ~~~ g)
    0

/-- Link one symbol in front of the chain of its bucket. -/
def linkHashed (nbucket : UInt32) (tables : List UInt32 × List UInt32)
    (hashed : UInt32 × Name) : List UInt32 × List UInt32 :=
  let h := (elfSysvHash hashed.2 % nbucket).toNat
  (tables.1.set h hashed.1, tables.2.set hashed.1.toNat (tables.1.getD h 0))

/-- The SysV table of the symbols to be found, for as many entries as `.dynsym`
has. -/
def sysvHash (hashed : List (UInt32 × Name)) (totalDynsym : Nat) : List UInt8 :=
  let nbucket := UInt32.ofNat (max hashed.length 1)
  let tables := hashed.foldl (linkHashed nbucket)
    (List.replicate nbucket.toNat 0, List.replicate totalDynsym 0)
  le32 nbucket ++ le32 (UInt32.ofNat totalDynsym) ++ tables.1.flatMap le32 ++
    tables.2.flatMap le32

/-- The table that finds nothing. -/
def stubGnuHash (nsyms : UInt32) : List UInt8 :=
  le32 1 ++ le32 nsyms ++ le32 1 ++ le32 0 ++ toLeBytes 0 ++ le32 0

/-! ## Versions -/

def lastIndexOf (names : List Name) (name : Name) : Option Nat :=
  (names.zipIdx.reverse.find? fun entry => entry.1 == name).map fun entry => entry.2

structure VersionNeed where
  lib : Nat
  version : Name
  index : UInt16
  nameOff : UInt32
deriving DecidableEq, Repr

/-- The versions found so far, the next index, and the string table. -/
structure VersionState where
  needs : List VersionNeed := []
  nextIndex : UInt16 := 2
  dynstr : List UInt8
deriving DecidableEq, Repr

namespace DynamicInfo

variable (dynj : DynamicInfo)

def versionKey (entry : Option Name × Option Name) : Option (Nat × Name) :=
  match entry with
  | (some version, some soname) =>
      (lastIndexOf dynj.needed soname).map fun lib => (lib, version)
  | _ => none

def versionOf (needs : List VersionNeed) (key : Nat × Name) :
    Option VersionNeed :=
  needs.find? fun need => need.lib == key.1 && need.version == key.2

def addVersion (state : VersionState) (entry : Option Name × Option Name) :
    VersionState :=
  match dynj.versionKey entry with
  | none => state
  | some key =>
      if (versionOf state.needs key).isSome then state
      else
        { needs := state.needs ++
            [⟨key.1, key.2, state.nextIndex, UInt32.ofNat state.dynstr.length⟩]
          nextIndex := state.nextIndex + 1
          dynstr := pushString state.dynstr key.2 }

def versions (dynstr : List UInt8) : VersionState :=
  (dynj.importVersions.zip dynj.importSonames).foldl dynj.addVersion
    { dynstr := dynstr }

def versymOf (needs : List VersionNeed) (entry : Option Name × Option Name) :
    UInt16 :=
  (((dynj.versionKey entry).bind (versionOf needs)).map
    VersionNeed.index).getD 1

def versym (needs : List VersionNeed) : List UInt8 :=
  le16 0 ++
    (dynj.importVersions.zip dynj.importSonames).flatMap
      (fun entry => le16 (dynj.versymOf needs entry)) ++
    dynj.exports.flatMap fun _ => le16 1

def vernaux (needs : List VersionNeed) : List UInt8 :=
  needs.zipIdx.flatMap fun (need, place) =>
    le32 (elfSysvHash need.version) ++ le16 0 ++ le16 need.index ++
      le32 need.nameOff ++ le32 (if place + 1 < needs.length then 16 else 0)

def activeLibs (needs : List VersionNeed) : List Nat :=
  (List.range dynj.needed.length).filter fun lib =>
    needs.any fun need => need.lib == lib

def verneed (sonameOff : List UInt32) (needs : List VersionNeed) : List UInt8 :=
  let active := dynj.activeLibs needs
  active.zipIdx.flatMap fun (lib, place) =>
    let versions := needs.filter fun need => need.lib == lib
    let cnt := UInt16.ofNat versions.length
    le16 1 ++ le16 cnt ++ le32 (sonameOff.getD lib 0) ++ le32 16 ++
      le32 (if place + 1 < active.length then 16 + 16 * cnt.toUInt32 else 0) ++
      vernaux versions

end DynamicInfo

/-! ## The tables -/

/-- What is known of the dynamic sections before the layout: their bytes, and
where values are patched in once the addresses are known. -/
structure DynPrebuild where
  blobs : DynBlobs := {}
  neededOff : List UInt32 := []
  sonameDtOff : Option UInt32 := none
  rpathDtOff : Option UInt32 := none
  /-- Exports, each with the offset of its entry in `.dynsym`. -/
  exportPatch : List (Name × Nat) := []
  /-- Imports that are copied, likewise. -/
  copyPatch : List (SymbolId × Nat) := []
deriving DecidableEq, Repr

def defaultInterp : List UInt8 := nameOf "/lib64/ld-linux-x86-64.so.2\x00"

/-- The program interpreter with the byte that ends it. -/
def interpBytes (interp : Option (List UInt8)) : List UInt8 :=
  let bytes := interp.getD defaultInterp
  if bytes.getLast? = some 0 then bytes else bytes ++ [0]

def dynsymEntry (nameOff : UInt32) (info other : UInt8) (size : UInt64) :
    List UInt8 :=
  le32 nameOff ++ [info, other] ++ le16 0 ++ toLeBytes 0 ++ toLeBytes size

namespace LayoutInput

variable (input : LayoutInput)

def copyImports (dynj : DynamicInfo) : List Name :=
  dynj.copyRelocs.filterMap input.symbols.nameById

/-- The `.dynsym` entry of an import. One that is copied has its size. -/
def importEntry (dynj : DynamicInfo) (name : Name) (nameOff : UInt32) :
    List UInt8 :=
  let res := input.symbols.lookup name
  dynsymEntry nameOff
    (stInfo stbGlobal ((res.map SymbolResolution.stType).getD sttNotype)) 0
    (if name ∈ input.copyImports dynj then
      (res.map SymbolResolution.size).getD 0
    else 0)

def copyImportIndices (dynj : DynamicInfo) : List (UInt32 × Name) :=
  (dynj.imports.zipIdx.filter fun entry =>
    decide (entry.1 ∈ input.copyImports dynj)).map fun entry =>
      (UInt32.ofNat (entry.2 + 1), entry.1)

def copyPatches (dynj : DynamicInfo) : List (SymbolId × Nat) :=
  (dynj.imports.zipIdx.filter fun entry =>
    decide (entry.1 ∈ input.copyImports dynj)).filterMap fun entry =>
      (input.symbols.lookup entry.1).map fun res =>
        (res.id, 24 + 24 * entry.2)

def exportIndices (dynj : DynamicInfo) : List (UInt32 × Name) :=
  dynj.exports.zipIdx.map fun entry =>
    (UInt32.ofNat (1 + dynj.imports.length + entry.2), entry.1.name)

/-- The table of the GNU style is built only when it has nothing to find. -/
def gnuHashOf (dynj : DynamicInfo) : List UInt8 :=
  if dynj.exports.isEmpty && (input.copyImportIndices dynj).isEmpty then
    stubGnuHash (UInt32.ofNat (dynj.imports.length + 1))
  else []

/-- The tables of a dynamic output. -/
def prebuildInfo (dynj : DynamicInfo) : Except LayoutError DynPrebuild :=
  let imported := pushStrings [0] dynj.imports
  let needed := pushStrings imported.2 dynj.needed
  let exported := pushStrings needed.2 (dynj.exports.map ExportSym.name)
  let soname := pushOptional exported.2 dynj.soname
  let rpath := pushOptional soname.2 dynj.rpath
  let versions := dynj.versions rpath.2
  let dynsym :=
    List.replicate 24 0 ++
      (dynj.imports.zip imported.1).flatMap
        (fun entry => input.importEntry dynj entry.1 entry.2) ++
      (dynj.exports.zip exported.1).flatMap fun entry =>
        dynsymEntry entry.2 entry.1.info entry.1.other 0
  let verneedNum := (dynj.activeLibs versions.needs).length
  let hashed := input.copyImportIndices dynj ++ exportIndices dynj
  let gnuHash := input.gnuHashOf dynj
  if dynj.hashStyle = .gnu ∧ gnuHash = [] ∧ hashed ≠ [] then
    .error (.unsupported
      (ascii "--hash-style=gnu for exported or copy-relocated symbols"))
  else
    .ok {
      blobs := {
        dynstr := versions.dynstr
        dynsym := dynsym
        hash :=
          if dynj.hashStyle = .gnu then []
          else
            sysvHash hashed (1 + dynj.imports.length + dynj.exports.length)
        gnuHash := if dynj.hashStyle = .sysv then [] else gnuHash
        interp :=
          if input.config.shared then [] else interpBytes dynj.interp
        gnuVersion :=
          if verneedNum = 0 then [] else dynj.versym versions.needs
        gnuVersionR :=
          if verneedNum = 0 then []
          else dynj.verneed needed.1 versions.needs
        verneedNum := UInt64.ofNat verneedNum }
      neededOff := needed.1
      sonameDtOff := soname.1
      rpathDtOff := rpath.1
      exportPatch := dynj.exports.zipIdx.map fun entry =>
        (entry.1.name, 24 + 24 * dynj.imports.length + 24 * entry.2)
      copyPatch := input.copyPatches dynj }

def prebuildDynamic : Except LayoutError DynPrebuild :=
  match input.dynamic with
  | some dynj => input.prebuildInfo dynj
  | none => .ok {}

def importDynsym (dynj : DynamicInfo) (name : Name) : Option UInt32 :=
  (lastIndexOf dynj.imports name).map fun place => UInt32.ofNat (place + 1)

def slotResolution (id : SymbolId) : Option SymbolResolution :=
  (input.symbols.nameById id).bind input.symbols.lookup

/-- A GOT slot that the dynamic linker fills. -/
def isGlobDat (id : SymbolId) : Bool :=
  (input.slotResolution id).any fun res => res.isImport && !res.copyReloc

def nGlobDat : Nat := (input.gotSyms.filter input.isGlobDat).length

def nRelaDyn (dynj : DynamicInfo) : Nat :=
  input.nGlobDat + dynj.nRelative + dynj.nTlsReloc + dynj.copyRelocs.length +
    dynj.nSymbolicData

end LayoutInput

end Peony
