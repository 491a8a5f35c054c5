import Peony.Cache.Files
import Peony.Driver.Text
import Peony.Foundation.KeyedGroups
import Peony.Layout.FoldMeaning
import Peony.Layout.Model
import Peony.Layout.Property

namespace Peony

/-! The relocatable output: sections merged by name, the symbol tables merged, the
relocations kept, and the object file that holds them. -/

namespace Relocatable

/-! ## Merging sections -/

/-- The section types that are dropped from the inputs and built anew: null,
symbol and string tables, relocations, groups and extended indices. -/
def isRegenerated (shType : UInt32) : Bool :=
  shType == 0 || shType == shtSymtab || shType == shtStrtab || shType == shtRela ||
    shType == 9 || shType == 17 || shType == shtSymtabShndx

/-- An input section at its offset in a merged one. -/
structure Part where
  objId : Nat
  secPos : Nat
  offset : UInt64
deriving DecidableEq, Repr

structure OutSection where
  name : Name
  shType : UInt32
  shFlags : UInt64
  shAddralign : UInt64
  size : UInt64
  parts : List Part
deriving DecidableEq, Repr

def alignUp (v a : UInt64) : UInt64 :=
  if a ≤ 1 then v else (v + a - 1) &&& ~~~ (a - 1)

/-- The name of the merged section, which is a string. -/
def outName (name : Name) : Name := encodeUtf8 (fromUtf8Lossy name)

def isMerged (sec : InputSection) : Bool :=
  !(isRegenerated sec.shType || sec.name.isEmpty)

/-- The sections that are merged, in the order in which they are visited. -/
def members (objects : List InputObject) : List Icf.Place :=
  (Icf.places objects).filter fun place => isMerged place.sec

namespace OutSection

/-- The section that the first of its members opens. -/
def start (place : Icf.Place) : OutSection where
  name := outName place.sec.name
  shType := place.sec.shType
  shFlags := place.sec.flags
  shAddralign := max place.sec.align 1
  size := 0
  parts := []

def add (out : OutSection) (place : Icf.Place) : OutSection :=
  let align := max place.sec.align 1
  let offset := alignUp out.size align
  { out with
    size := offset + place.sec.size
    shAddralign := max out.shAddralign align
    shFlags := out.shFlags ||| place.sec.flags
    parts := out.parts ++ [⟨place.objId, place.pos, offset⟩] }

end OutSection

def merging : Grouping Icf.Place OutSection Name where
  keyOf place := outName place.sec.name
  label out := out.name
  start := OutSection.start
  add := OutSection.add
  label_start _ := rfl
  label_add _ _ := rfl

def outSections (objects : List InputObject) : List OutSection :=
  merging.gather (members objects)

/-- Where an input section went: the merged section and the offset in it. -/
def placement (objects : List InputObject) (objId secPos : Nat) :
    Option (Nat × UInt64) :=
  (outSections objects).zipIdx.findSome? fun out =>
    (out.1.parts.find? fun part => part.objId == objId && part.secPos == secPos).map
      fun part => (out.2, part.offset)

/-! ## Merging symbols -/

def shnUndef : UInt16 := 0

def shnCommon : UInt16 := 0xfff2

/-- The header index of a merged section, in the 16 bits of a symbol. -/
def outShndx (outIdx : Nat) : UInt16 := UInt16.ofNat (outIdx + 1)

/-- What an output symbol stands for: a local symbol by its object and raw index,
which is kept with 32 bits, or a global name. -/
inductive SymSource where
  | «local» (objId rawIndex : Nat)
  | global (name : Name)
deriving DecidableEq, Repr

/-- An output symbol before its name has an offset. -/
structure SymRequest where
  source : SymSource
  name : Name
  info : UInt8
  other : UInt8
  shndx : UInt16
  value : UInt64
  size : UInt64
deriving DecidableEq, Repr

/-- The section index and the value of a local symbol; one of a section that was
dropped is dropped. -/
def localPlace (objects : List InputObject) (objId : Nat) (obj : InputObject)
    (sym : InputSymbol) : Option (UInt16 × UInt64) :=
  if sym.stType = sttFile then some (shnAbs, sym.value)
  else
    match sym.sectionIndex with
    | some si =>
        ((obj.sectionPos si).bind (placement objects objId)).map fun placed =>
          (outShndx placed.1, sym.value + placed.2)
    | none => some (shnAbs, sym.value)

def localRequest (objects : List InputObject) (objId : Nat) (obj : InputObject)
    (sym : InputSymbol) : Option SymRequest :=
  if sym.binding ≠ .local then none
  else (localPlace objects objId obj sym).map fun place =>
    { source := .local objId (sym.index % 2 ^ 32)
      name := sym.name
      info := stInfo stbLocal sym.stType
      other := sym.visibility
      shndx := place.1
      value := place.2
      size := sym.size }

def localRequests (objects : List InputObject) : List SymRequest :=
  objects.zipIdx.flatMap fun obj =>
    obj.1.symbols.filterMap (localRequest objects obj.2 obj.1)

/-- The section index, value, size and type of a global symbol. A definition in a
section that was dropped is none. -/
def globalPlace (objects : List InputObject) (res : SymbolResolution) :
    UInt16 × UInt64 × UInt64 × UInt8 :=
  match res.common with
  | some (size, align) => (shnCommon, align, size, sttObject)
  | none =>
      match res.definedIn, res.sectionIndex with
      | some defined, some si =>
          match (objects[defined.toNat]?).bind fun obj =>
              (obj.sectionPos si).bind (placement objects defined.toNat) with
          | some (outIdx, off) => (outShndx outIdx, res.value + off, res.size, res.stType)
          | none => (shnUndef, 0, 0, sttNotype)
      | some _, none => (shnAbs, res.value, res.size, res.stType)
      | none, _ => (shnUndef, 0, 0, sttNotype)

def globalRequest (objects : List InputObject) (name : Name) (res : SymbolResolution) :
    SymRequest :=
  let bind := if res.binding = .weak then stbWeak else stbGlobal
  let place := globalPlace objects res
  { source := .global name
    name := name
    info := stInfo bind place.2.2.2
    other := res.visibility
    shndx := place.1
    value := place.2.1
    size := place.2.2.1 }

def globalRequests (objects : List InputObject) (symbols : SymbolTable) :
    List SymRequest :=
  symbols.resolutions.entries.map fun entry => globalRequest objects entry.1 entry.2

/-- Locals come first. -/
def symRequests (objects : List InputObject) (symbols : SymbolTable) :
    List SymRequest :=
  localRequests objects ++ globalRequests objects symbols

/-- The output index of every symbol, by what it stands for. The first entry of
the table is the null symbol. -/
def symNumbers (objects : List InputObject) (symbols : SymbolTable) :
    List (SymSource × UInt32) :=
  (symRequests objects symbols).zipIdx.map fun request =>
    (request.1.source, UInt32.ofNat (request.2 + 1))

def firstGlobal (objects : List InputObject) : UInt32 :=
  UInt32.ofNat ((localRequests objects).length + 1)

/-- The output index of a symbol: the number that was given to it last. -/
def symNumber (objects : List InputObject) (symbols : SymbolTable)
    (source : SymSource) : Option UInt32 :=
  (symNumbers objects symbols).reverse.lookup source

/-- The symbol of a relocation: a local one of the object, else the global one of
its name, else none, which is index 0. -/
def outSymFor (objects : List InputObject) (symbols : SymbolTable)
    (objId : Nat) (obj : InputObject) (raw : Nat) : UInt32 :=
  match symNumber objects symbols (.local objId raw) with
  | some number => number
  | none =>
      ((obj.symbolByIndex raw).bind fun sym =>
        symNumber objects symbols (.global sym.name)).getD 0

/-! ## Relocations -/

structure Rela where
  offset : UInt64
  sym : UInt32
  rType : UInt32
  addend : Int64
deriving DecidableEq

def relasOfPart (objects : List InputObject) (symbols : SymbolTable) (part : Part) :
    List Rela :=
  match objects[part.objId]? with
  | none => []
  | some obj =>
      match obj.sections[part.secPos]? with
      | none => []
      | some sec => sec.relocs.map fun reloc =>
          { offset := part.offset + reloc.offset
            sym := outSymFor objects symbols part.objId obj (reloc.symbol % 2 ^ 32)
            rType := reloc.rType
            addend := reloc.addend }

def relasOf (objects : List InputObject) (symbols : SymbolTable) (out : OutSection) :
    List Rela :=
  out.parts.flatMap (relasOfPart objects symbols)

/-- The relocation sections: only those merged sections have one that have
relocations. -/
def relaSections (objects : List InputObject) (symbols : SymbolTable) :
    List (Nat × List Rela) :=
  (outSections objects).zipIdx.filterMap fun out =>
    let relas := relasOf objects symbols out.1
    if relas.isEmpty then none else some (out.2, relas)

/-! ## String tables -/

structure StrTab where
  bytes : List UInt8
  seen : List (Name × UInt32)
deriving DecidableEq, Repr

namespace StrTab

def new : StrTab := ⟨[0], []⟩

def intern (table : StrTab) (name : Name) : StrTab × UInt32 :=
  if name.isEmpty then (table, 0)
  else
    match table.seen.lookup name with
    | some off => (table, off)
    | none =>
        let off := UInt32.ofNat table.bytes.length
        (⟨table.bytes ++ name ++ [0], table.seen ++ [(name, off)]⟩, off)

def internAll (table : StrTab) : List Name → StrTab × List UInt32
  | [] => (table, [])
  | name :: rest =>
      let interned := table.intern name
      let others := interned.1.internAll rest
      (others.1, interned.2 :: others.2)

end StrTab

/-! ## The file -/

structure Shdr where
  name : UInt32
  shType : UInt32
  flags : UInt64
  offset : UInt64
  size : UInt64
  link : UInt32
  info : UInt32
  align : UInt64
  entsize : UInt64
deriving DecidableEq, Repr

namespace Shdr

def null : Shdr := ⟨0, 0, 0, 0, 0, 0, 0, 0, 0⟩

def bytes (header : Shdr) : List UInt8 :=
  le32 header.name ++ le32 header.shType ++ toLeBytes header.flags ++
    toLeBytes 0 ++ toLeBytes header.offset ++ toLeBytes header.size ++
    le32 header.link ++ le32 header.info ++ toLeBytes header.align ++
    toLeBytes header.entsize

end Shdr

def symBytes (stName : UInt32) (request : SymRequest) : List UInt8 :=
  le32 stName ++ [request.info, request.other] ++ le16 request.shndx ++
    toLeBytes request.value ++ toLeBytes request.size

def Rela.bytes (rela : Rela) : List UInt8 :=
  toLeBytes rela.offset ++
    toLeBytes ((rela.sym.toUInt64 <<< 32) ||| rela.rType.toUInt64) ++
    toLeBytes rela.addend.toUInt64

def sectionEntsize (shType : UInt32) : UInt64 :=
  if shType = shtSymtab ∨ shType = shtDynsym then symSize
  else if shType = shtRela then relaSize
  else if shType = 9 then 16
  else 0

def resize (file : List UInt8) (off : UInt64) : List UInt8 :=
  file.take off.toNat ++ List.replicate (off.toNat - file.length) 0

/-- Append a table at an aligned offset; the offset is part of the answer. -/
def append (file : List UInt8) (align : UInt64) (data : List UInt8) :
    List UInt8 × UInt64 :=
  let off := alignUp (UInt64.ofNat file.length) align
  (resize file off ++ data, off)

def copyPart (arena : InputArena) (objects : List InputObject) (start : Nat)
    (file : List UInt8) (part : Part) : Option (List UInt8) := do
  let obj ← objects[part.objId]?
  let sec ← obj.sections[part.secPos]?
  let data := arena.bytes sec.data
  let dst := start + part.offset.toNat
  if dst + data.length ≤ file.length then
    some (Buffer.overwrite file ⟨dst, data⟩)
  else none

def appendSection (arena : InputArena) (objects : List InputObject)
    (file : List UInt8) (out : OutSection) : Option (List UInt8 × UInt64) :=
  if out.shType = shtNobits then some (file, UInt64.ofNat file.length)
  else do
    let appended := append file (max out.shAddralign 1)
      (List.replicate out.size.toNat 0)
    let start := (resize file appended.2).length
    let file ← out.parts.foldlM (copyPart arena objects start) appended.1
    return (file, appended.2)

def appendSections (arena : InputArena) (objects : List InputObject) :
    List UInt8 → List OutSection → Option (List UInt8 × List UInt64)
  | file, [] => some (file, [])
  | file, out :: rest => do
      let appended ← appendSection arena objects file out
      let others ← appendSections arena objects appended.1 rest
      return (others.1, appended.2 :: others.2)

def appendRelas : List UInt8 → List (Nat × List Rela) → List UInt8 × List UInt64
  | file, [] => (file, [])
  | file, rela :: rest =>
      let appended := append file 8 (rela.2.flatMap Rela.bytes)
      let others := appendRelas appended.1 rest
      (others.1, appended.2 :: others.2)

def ehdrBytes (shoff : UInt64) (shnum shstrndx : UInt16) : List UInt8 :=
  [0x7f, 0x45, 0x4c, 0x46, 2, 1, 1] ++ List.replicate 9 0 ++ le16 1 ++ le16 62 ++
    le32 1 ++ List.replicate 16 0 ++ toLeBytes shoff ++ List.replicate 4 0 ++
    le16 64 ++ le16 0 ++ le16 0 ++ le16 64 ++ le16 shnum ++ le16 shstrndx

/-- The sections of the file: the null section, the merged ones, the relocation
sections, the symbol table and the two string tables. -/
def shnum (objects : List InputObject) (symbols : SymbolTable) : Nat :=
  1 + (outSections objects).length + (relaSections objects symbols).length + 3

def relaName (objects : List InputObject) (outIdx : Nat) : Name :=
  nameOf ".rela" ++ (((outSections objects)[outIdx]?).map OutSection.name).getD []

def sectionNames (objects : List InputObject) (symbols : SymbolTable) : List Name :=
  (outSections objects).map OutSection.name ++
    (relaSections objects symbols).map (fun rela => relaName objects rela.1) ++
    [nameOf ".symtab", nameOf ".strtab", nameOf ".shstrtab"]

/-- Everything but the headers: the contents of the file, and the offset and the
size of every section after the null section. -/
structure Contents where
  file : List UInt8
  offsets : List UInt64
  sizes : List UInt64

def contents (arena : InputArena) (objects : List InputObject)
    (symbols : SymbolTable) : Option Contents := do
  let outs := outSections objects
  let relas := relaSections objects symbols
  let requests := symRequests objects symbols
  let strtab := StrTab.new.internAll (requests.map SymRequest.name)
  let shstrtab := StrTab.new.internAll (sectionNames objects symbols)
  let symtab := List.replicate 24 0 ++
    (strtab.2.zip requests).flatMap fun sym => symBytes sym.1 sym.2
  let merged ← appendSections arena objects (List.replicate 64 0) outs
  let related := appendRelas merged.1 relas
  let withSymtab := append related.1 8 symtab
  let withStrtab := append withSymtab.1 1 strtab.1.bytes
  let withShstrtab := append withStrtab.1 1 shstrtab.1.bytes
  return {
    file := withShstrtab.1
    offsets := merged.2 ++ related.2 ++ [withSymtab.2, withStrtab.2, withShstrtab.2]
    sizes := outs.map OutSection.size ++
      relas.map (fun rela => UInt64.ofNat (rela.2.flatMap Rela.bytes).length) ++
      [UInt64.ofNat symtab.length, UInt64.ofNat strtab.1.bytes.length,
        UInt64.ofNat shstrtab.1.bytes.length] }

/-- The section headers but for their names, offsets and sizes. -/
def shdrTemplates (objects : List InputObject) (symbols : SymbolTable) : List Shdr :=
  let symtabShndx :=
    1 + (outSections objects).length + (relaSections objects symbols).length
  (outSections objects).map (fun out =>
      { Shdr.null with
        shType := out.shType
        flags := out.shFlags
        align := out.shAddralign
        entsize := sectionEntsize out.shType }) ++
    (relaSections objects symbols).map (fun rela =>
      { Shdr.null with
        shType := shtRela
        link := UInt32.ofNat symtabShndx
        info := UInt32.ofNat (rela.1 + 1)
        align := 8
        entsize := relaSize }) ++
    [{ Shdr.null with
        shType := shtSymtab
        link := UInt32.ofNat (symtabShndx + 1)
        info := firstGlobal objects
        align := 8
        entsize := symSize },
      { Shdr.null with shType := shtStrtab, align := 1 },
      { Shdr.null with shType := shtStrtab, align := 1 }]

/-- The headers of all sections after the null section. -/
def shdrs (objects : List InputObject) (symbols : SymbolTable) (contents : Contents) :
    List Shdr :=
  let names := (StrTab.new.internAll (sectionNames objects symbols)).2
  ((shdrTemplates objects symbols).zip (names.zip
      (contents.offsets.zip contents.sizes))).map fun header =>
    { header.1 with
      name := header.2.1
      offset := header.2.2.1
      size := header.2.2.2 }

/-- The object file; `none` when the bytes of a section do not fit into its size,
which is out of bounds. -/
def emitRelocatable (arena : InputArena) (objects : List InputObject)
    (symbols : SymbolTable) : Option (List UInt8) := do
  let contents ← contents arena objects symbols
  let shoff := alignUp (UInt64.ofNat contents.file.length) 8
  let file := resize contents.file shoff ++ Shdr.null.bytes ++
    (shdrs objects symbols contents).flatMap Shdr.bytes
  let count := shnum objects symbols
  return Buffer.overwrite file
    ⟨0, ehdrBytes shoff (UInt16.ofNat count) (UInt16.ofNat (count - 1))⟩

end Relocatable

end Peony
