import Peony.Foundation.Assoc
import Peony.Layout.Synthetic

namespace Peony

/-! Pass 8: the addresses and file offsets of the output sections. -/

/-! ## One output section -/

def synthesizedSources : List (Name × SecSource) :=
  [ (nameOf ".got", .got), (nameOf ".note.gnu.build-id", .noteBuildId),
    (propertyName, .noteGnuProperty), (nameOf ".interp", .interp),
    (nameOf ".hash", .hash), (nameOf ".gnu.hash", .gnuHash),
    (nameOf ".dynsym", .dynSym), (nameOf ".dynstr", .dynStr),
    (nameOf ".rela.dyn", .relaDyn), (nameOf ".dynamic", .dynamic),
    (nameOf ".plt", .plt), (nameOf ".got.plt", .gotPlt),
    (nameOf ".rela.plt", .relaPlt), (nameOf ".gnu.version", .gnuVersion),
    (nameOf ".gnu.version_r", .gnuVersionR),
    (nameOf ".eh_frame_hdr", .ehFrameHdr) ]

namespace Builder

/-- How the bytes of the section are produced: by its name when the linker has a
section of that name, and otherwise by its members. -/
def source (b : Builder) : SecSource :=
  (synthesizedSources.lookup b.name).getD (if b.isNobits then .bss else .input)

def entsize (b : Builder) : UInt64 :=
  if b.shType = shtSymtab ∨ b.shType = shtDynsym then symSize
  else if b.shType = shtRela then relaSize
  else if b.shType = shtDynamic then 16
  else if b.shType = shtHash then 4
  else if b.shType = shtGnuVersym then 2
  else 0

def output (b : Builder) (base shAddr : UInt64) : OutputSection where
  name := b.name
  kind := b.kind
  shType := b.shType
  shFlags := b.shFlags
  shAddr := shAddr
  shOffset := shAddr - base
  shSize := b.size
  shLink := 0
  shInfo := 0
  shAddralign := b.align
  shEntsize := b.entsize
  shName := 0
  shndx := 0
  contributions := b.contributions
  source := b.source

end Builder

/-! ## The cursor -/

/-- The current address and what has been placed so far. The latest entry of a
section stands first in the maps. -/
structure Placement where
  va : UInt64
  sections : List OutputSection := []
  addresses : List (SectionKey × UInt64) := []
  secToOut : List (SectionKey × Nat) := []
deriving DecidableEq, Repr

namespace Placement

def placeBuilder (base : UInt64) (placed : Placement) (b : Builder) :
    Placement :=
  let shAddr := alignUp placed.va b.align
  { va := shAddr + b.size
    sections := placed.sections ++ [b.output base shAddr]
    addresses := b.contributions.foldl
      (fun addresses c => (c.key, shAddr + c.offset) :: addresses)
      placed.addresses
    secToOut := b.contributions.foldl
      (fun secToOut c => (c.key, placed.sections.length) :: secToOut)
      placed.secToOut }

def place (base : UInt64) (builders : List Builder) (placed : Placement) :
    Placement :=
  builders.foldl (placeBuilder base) placed

def alignVa (placed : Placement) (page : UInt64) : Placement :=
  { placed with va := alignUp placed.va page }

end Placement

/-! ## The segments -/

structure Placed where
  placement : Placement
  roEnd : UInt64
  rx : Option (UInt64 × UInt64)
  /-- Start, end of the file bytes, end in memory. -/
  rw : Option (UInt64 × UInt64 × UInt64)
deriving DecidableEq, Repr

def hasTls (builders : Builders) : Bool :=
  (builders.rwPb ++ builders.rwBss).any Builder.isTls

namespace LayoutInput

variable (input : LayoutInput)

/-- How many program headers are reserved. -/
def phnum (builders : Builders) : UInt64 :=
  UInt64.ofNat (1 +
    (if input.config.buildId then 1 else 0) +
    (if input.dynamic.isSome then if input.config.shared then 1 else 2 else 0) +
    (if hasTls builders then 1 else 0) +
    (if input.nFdes > 0 then 1 else 0) +
    (if builders.ro.any fun b => b.name == propertyName then 1 else 0) +
    (if input.dynamic.isSome then 1 else 0) +
    (1 + (if builders.rx.isEmpty then 0 else 1) +
      (if builders.rwPb.isEmpty && builders.rwBss.isEmpty then 0 else 1)) +
    1)

def headerSize (builders : Builders) : UInt64 :=
  ehdrSize + input.phnum builders * phdrSize

def placeRx (builders : List Builder) (placed : Placement) :
    Placement × Option (UInt64 × UInt64) :=
  if builders.isEmpty then (placed, none)
  else
    let aligned := placed.alignVa input.page
    let after := aligned.place input.base builders
    (after, some (aligned.va, after.va))

/-- The sections that become read-only start the segment and end at a page. -/
def placeRw (rwPb rwBss : List Builder) (placed : Placement) :
    Placement × Option (UInt64 × UInt64 × UInt64) :=
  if rwPb.isEmpty && rwBss.isEmpty then (placed, none)
  else
    let aligned := placed.alignVa input.page
    let relro := rwPb.takeWhile fun b => isRelro b.name
    let others := rwPb.dropWhile fun b => isRelro b.name
    let protectedPart := aligned.place input.base relro
    let padded :=
      if others.isEmpty && rwBss.isEmpty then protectedPart
      else protectedPart.alignVa input.page
    let filled := padded.place input.base others
    let after := filled.place input.base rwBss
    (after, some (aligned.va, filled.va, after.va))

/-- The placement of all loaded sections. -/
def placeAll (ordered : Builders) : Placed :=
  let start : Placement := { va := input.base + input.headerSize ordered }
  let ro := start.place input.base ordered.ro
  let rx := input.placeRx ordered.rx ro
  let writable := relroOrder ordered
  let rw := input.placeRw writable.rwPb writable.rwBss rx.1
  { placement := rw.1, roEnd := ro.va, rx := rx.2, rw := rw.2 }

/-! ## Folded sections -/

/-- Give a folded section the place of the section it is folded onto. -/
def aliasOne (placed : Placement) (dup canon : SectionKey) : Placement :=
  { placed with
    addresses := Assoc.copy placed.addresses dup canon
    secToOut := Assoc.copy placed.secToOut dup canon }

def aliasFolds (placed : Placement) : Placement :=
  match input.foldMap with
  | none => placed
  | some foldMap =>
      foldMap.entries.foldl
        (fun placed entry => aliasOne placed entry.1 entry.2) placed

end LayoutInput

namespace Placed

def fileContentEnd (placed : Placed) (base : UInt64) : UInt64 :=
  match placed.rw, placed.rx with
  | some (_, fileEnd, _), _ => fileEnd - base
  | none, some (_, last) => last - base
  | none, none => placed.roEnd - base

end Placed

end Peony
