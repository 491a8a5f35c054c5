import Peony.Layout.Dynamic
import Peony.Layout.Grouping

namespace Peony

/-! The output sections that the linker adds, and the order in which all output
sections are placed. -/

/-! ## Sections the linker adds -/

namespace Builder

def synthesized (name : Name) (kind : SectionKind) (flags : UInt64)
    (shType : UInt32) (align size : UInt64) (perm : Perm) (isNobits : Bool) :
    Builder where
  name := name
  kind := kind
  shFlags := flags
  shType := shType
  align := align
  size := size
  perm := perm
  isNobits := isNobits
  contributions := []

def readOnly (name : Name) (shType : UInt32) (align size : UInt64) : Builder :=
  synthesized name .other shfAlloc shType align size .ro false

def writable (name : Name) (shType : UInt32) (size : UInt64) : Builder :=
  synthesized name .data (shfAlloc ||| shfWrite) shType 8 size .rw false

end Builder

/-- The output sections by permission and by whether they have file bytes. -/
structure Builders where
  ro : List Builder
  rx : List Builder
  rwPb : List Builder
  rwBss : List Builder
deriving DecidableEq, Repr

def Builder.compareNames (a b : Builder) : Ordering := compare a.name b.name

def bucket (builders : List Builder) : Builders where
  ro := sortBy Builder.compareNames
    (builders.filter fun b => b.perm == .ro)
  rx := sortBy Builder.compareNames
    (builders.filter fun b => b.perm == .rx)
  rwPb := sortBy Builder.compareNames
    (builders.filter fun b => b.perm == .rw && !b.isNobits)
  rwBss := sortBy Builder.compareNames
    (builders.filter fun b => b.perm == .rw && b.isNobits)

/-- Storage in the synthetic `.bss`: the offsets given so far, and the size and
alignment they take. -/
structure BssSpace where
  offsets : List (SymbolId × UInt64) := []
  size : UInt64 := 0
  align : UInt64 := 1
deriving DecidableEq, Repr

def BssSpace.allot (space : BssSpace) (id : SymbolId) (size align : UInt64) :
    BssSpace :=
  let off := alignUp space.size align
  { offsets := space.offsets ++ [(id, off)]
    size := off + size
    align := max space.align align }

namespace LayoutInput

variable (input : LayoutInput)

/-- The tentative definitions with their sizes and alignments, by their ids. -/
def commonSyms : List (SymbolId × UInt64 × UInt64) :=
  sortBy (fun a b => compare a.1.toNat b.1.toNat)
    (input.symbols.resolutions.entries.filterMap fun entry =>
      entry.2.common.map fun common => (entry.2.id, common.1, common.2))

def allotCommon (space : BssSpace) (common : SymbolId × UInt64 × UInt64) :
    BssSpace :=
  space.allot common.1 common.2.1 (max common.2.2 1)

def commonSpace : BssSpace :=
  input.commonSyms.foldl allotCommon {}

def copySyms : List SymbolId := (input.dynamic.map DynamicInfo.copyRelocs).getD []

/-- The symbols to be copied that the table knows, with their sizes. -/
def copyDemands : List (SymbolId × UInt64) :=
  input.copySyms.filterMap fun id =>
    (input.slotResolution id).map fun res => (id, max res.size 1)

def allotCopy (space : BssSpace) (demand : SymbolId × UInt64) : BssSpace :=
  space.allot demand.1 demand.2 (copyRelocAlign demand.2)

/-- The space after the tentative definitions and the copies, with the offsets of
the copies alone. -/
def copySpace : BssSpace :=
  input.copyDemands.foldl allotCopy { input.commonSpace with offsets := [] }

def scalarGotBytes : UInt64 := UInt64.ofNat input.gotSyms.length * 8

def gotTotal : UInt64 := input.scalarGotBytes + input.tls.byteSize

def gnuPropertyNote : List UInt8 :=
  (mergeGnuPropertyNotes input.arena input.objects).getD []

def nFdes : Nat :=
  (((input.objects.flatMap fun obj => obj.sections).filter fun sec =>
    sec.kind == .ehFrame).map fun sec =>
      countFdes (input.arena.bytes sec.data)).sum

def buildIdNoteSize : UInt64 := 32

def synthesize (found : Builders) : Builders where
  ro := found.ro ++
    (if input.gnuPropertyNote.isEmpty then []
      else [Builder.readOnly propertyName shtNote 8
        (UInt64.ofNat input.gnuPropertyNote.length)]) ++
    (if input.config.buildId then
      [Builder.readOnly (nameOf ".note.gnu.build-id") shtNote 4 buildIdNoteSize]
      else []) ++
    (if input.nFdes = 0 then []
      else [Builder.readOnly (nameOf ".eh_frame_hdr") shtProgbits 4
        (12 + 8 * UInt64.ofNat input.nFdes)])
  rx := found.rx
  rwPb := found.rwPb ++
    (if input.gotTotal > 0 then
      [Builder.writable (nameOf ".got") shtProgbits input.gotTotal] else [])
  rwBss := found.rwBss ++
    (if input.copySpace.size > 0 then
      [Builder.synthesized (nameOf ".bss") .bss (shfAlloc ||| shfWrite) shtNobits
        input.copySpace.align input.copySpace.size .rw true] else [])

/-! ## Dynamic sections -/

def roDyn (pre : DynPrebuild) (dynj : DynamicInfo) : List Builder :=
  [ Builder.readOnly (nameOf ".interp") shtProgbits 1
      (UInt64.ofNat pre.blobs.interp.length),
    Builder.readOnly (nameOf ".hash") shtHash 8
      (UInt64.ofNat pre.blobs.hash.length),
    Builder.readOnly (nameOf ".gnu.hash") shtGnuHash 8
      (UInt64.ofNat pre.blobs.gnuHash.length),
    Builder.readOnly (nameOf ".dynsym") shtDynsym 8
      (UInt64.ofNat pre.blobs.dynsym.length),
    Builder.readOnly (nameOf ".dynstr") shtStrtab 1
      (UInt64.ofNat pre.blobs.dynstr.length),
    Builder.readOnly (nameOf ".gnu.version") shtGnuVersym 2
      (UInt64.ofNat pre.blobs.gnuVersion.length),
    Builder.readOnly (nameOf ".gnu.version_r") shtGnuVerneed 8
      (UInt64.ofNat pre.blobs.gnuVersionR.length),
    Builder.readOnly (nameOf ".rela.dyn") shtRela 8
      (UInt64.ofNat (input.nRelaDyn dynj) * relaSize) ]

def nPlt : Nat := input.pltSyms.length

/-- How many entries `.dynamic` has, given the sections it points to. -/
def dynEntries (pre : DynPrebuild) (dynj : DynamicInfo)
    (rx rwPb : List Builder) : Nat :=
  let count (name : Name) (builders : List Builder) :=
    (builders.filter fun b => b.name == name).length
  dynj.needed.length + 4 +
    (if pre.blobs.hash.isEmpty then 0 else 1) +
    (if pre.blobs.gnuHash.isEmpty then 0 else 1) +
    (if pre.sonameDtOff.isSome then 1 else 0) +
    (if pre.rpathDtOff.isSome then 1 else 0) +
    (if input.nRelaDyn dynj > 0 then 3 else 0) +
    (if dynj.nRelative > dynj.nIrelative then 1 else 0) +
    (if input.nPlt > 0 then 4 else 0) +
    (if pre.blobs.verneedNum > 0 then 3 else 0) +
    (count (nameOf ".init") rx + count (nameOf ".fini") rx) +
    (if dynj.pie || dynj.shared then 2 else if input.nPlt > 0 then 1 else 0) +
    (count (nameOf ".init_array") rwPb + count (nameOf ".fini_array") rwPb) * 2 +
    1

/-- The sections that a dynamic output has in addition. -/
def synthesizeDynamic (pre : DynPrebuild) (found : Builders) : Builders :=
  match input.dynamic with
  | none => found
  | some dynj =>
      let plt : Bool := input.nPlt > 0
      let ro := found.ro ++ (input.roDyn pre dynj).filter (fun b => b.size != 0) ++
        (if plt then
          [Builder.readOnly (nameOf ".rela.plt") shtRela 8
            (UInt64.ofNat input.nPlt * relaSize)] else [])
      let rx := found.rx ++
        (if plt then
          [Builder.synthesized (nameOf ".plt") .text (shfAlloc ||| shfExecinstr)
            shtProgbits 16 (UInt64.ofNat input.nPlt * 16) .rx false] else [])
      let rwPb := found.rwPb ++
        (if plt then
          [Builder.writable (nameOf ".got.plt") shtProgbits
            (UInt64.ofNat (input.nPlt + 3) * 8)] else [])
      { ro := ro
        rx := rx
        rwPb := rwPb ++
          [Builder.writable (nameOf ".dynamic") shtDynamic
            (UInt64.ofNat (input.dynEntries pre dynj rx rwPb) * 16)]
        rwBss := found.rwBss }

def scriptOrder (found : Builders) : Builders where
  ro := sortBuildersByScript input.config.script found.ro
  rx := sortBuildersByScript input.config.script found.rx
  rwPb := sortBuildersByScript input.config.script found.rwPb
  rwBss := sortBuildersByScript input.config.script found.rwBss

/-- All output sections that are loaded, before the writable ones are put into
the order of their protection. -/
def orderedBuilders (pre : DynPrebuild) (grouped : List Builder) : Builders :=
  input.scriptOrder (input.synthesizeDynamic pre (input.synthesize (bucket grouped)))

end LayoutInput

/-! ## The writable sections -/

def relroSections : List Name :=
  [nameOf ".data.rel.ro", nameOf ".dynamic", nameOf ".fini_array",
    nameOf ".got", nameOf ".got.plt", nameOf ".init_array"]

def isRelro (name : Name) : Bool := relroSections.contains name

namespace Builder

def isTls (b : Builder) : Bool := b.kind == .tdata || b.kind == .tbss

/-- The sections that become read-only first, then by name, `.tdata` last. -/
def compareRelro (a b : Builder) : Ordering :=
  ((compare (!isRelro a.name) (!isRelro b.name)).then
    (compare a.name b.name)).then
    (compare (a.kind == SectionKind.tdata) (b.kind == SectionKind.tdata))

def compareTbss (a b : Builder) : Ordering :=
  compare (a.kind != SectionKind.tbss) (b.kind != SectionKind.tbss)

end Builder

/-- Raise the alignment of the first section that satisfies a condition. -/
def raiseFirst (raises : Builder → Bool) (align : UInt64) :
    List Builder → List Builder
  | [] => []
  | b :: rest =>
      if raises b then { b with align := max b.align align } :: rest
      else b :: raiseFirst raises align rest

def maxTlsAlign (builders : Builders) : UInt64 :=
  ((builders.rwPb ++ builders.rwBss).filter Builder.isTls).foldl
    (fun align b => max align b.align) 1

/-- The writable sections in their final order. The first TLS section has the
largest alignment of all. -/
def relroOrder (builders : Builders) : Builders :=
  let rwPb := sortBy Builder.compareRelro builders.rwPb
  let rwBss := sortBy Builder.compareTbss builders.rwBss
  let align := maxTlsAlign { builders with rwPb := rwPb, rwBss := rwBss }
  let isTdata (b : Builder) := b.kind == SectionKind.tdata
  if align > 1 then
    if rwPb.any isTdata then
      { builders with
        rwPb := (raiseFirst isTdata align rwPb.reverse).reverse
        rwBss := rwBss }
    else
      { builders with
        rwPb := rwPb
        rwBss := raiseFirst (fun b => b.kind == .tbss) align rwBss }
  else { builders with rwPb := rwPb, rwBss := rwBss }

end Peony
