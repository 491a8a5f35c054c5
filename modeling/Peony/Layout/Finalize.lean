import Peony.Layout.Meta

namespace Peony

/-! What is computed once the addresses of the sections are known: slots, the TLS
block, the entry point and the dynamic sections. -/

/-! ## Slots -/

def vaOf (sections : List OutputSection) (source : SecSource) : UInt64 :=
  ((sections.find? fun s => s.source == source).map
    OutputSection.shAddr).getD 0

def syntheticBss (sections : List OutputSection) : Option OutputSection :=
  sections.find? fun s => s.source == .bss && s.contributions.isEmpty

def commonBase (sections : List OutputSection) : UInt64 :=
  ((syntheticBss sections).map OutputSection.shAddr).getD 0

def rebase (base : UInt64) (offsets : List (SymbolId × UInt64)) :
    List (SymbolId × UInt64) :=
  offsets.map fun entry => (entry.1, base + entry.2)

def allotSlots (size : UInt64) (refs : List TlsRef) (cur : UInt64) :
    List (TlsRef × UInt64) × UInt64 :=
  refs.foldl
    (fun (slots, cur) ref => ((ref, cur) :: slots, cur + size)) ([], cur)

structure TlsGot where
  gd : List (TlsRef × UInt64)
  desc : List (TlsRef × UInt64)
  ldm : Option UInt64
  ie : List (TlsRef × UInt64)
deriving DecidableEq, Repr

def layOutTlsGot (tls : TlsGotInfo) (start : UInt64) : TlsGot :=
  let gd := allotSlots 16 tls.gd start
  let desc := allotSlots 16 tls.desc gd.2
  let afterLdm := if tls.ldm then desc.2 + 16 else desc.2
  { gd := gd.1
    desc := desc.1
    ldm := if tls.ldm then some desc.2 else none
    ie := (allotSlots 8 tls.ie afterLdm).1 }

/-! ## The TLS block -/

structure TlsBlock where
  offsets : List (SectionKey × UInt64) := []
  off : UInt64 := 0
  align : UInt64 := 1
  /-- Address and file offset of the first section. -/
  first : Option (UInt64 × UInt64) := none
  filesz : UInt64 := 0
deriving DecidableEq, Repr

def TlsBlock.add (block : TlsBlock) (s : OutputSection) : TlsBlock :=
  let align := max s.shAddralign 1
  let off := alignUp block.off align
  { offsets := s.contributions.foldl
      (fun offsets c => (c.key, off + c.offset) :: offsets) block.offsets
    off := off + s.shSize
    align := max block.align align
    first := block.first.or (some (s.shAddr, s.shOffset))
    filesz :=
      if s.kind = .tdata then block.filesz + s.shSize else block.filesz }

def tlsSections (sections : List OutputSection) : List OutputSection :=
  (sections.filter fun s => s.kind == .tdata) ++
    sections.filter fun s => s.kind == .tbss

def tlsBlock (sections : List OutputSection) : TlsBlock :=
  (tlsSections sections).foldl TlsBlock.add {}

def TlsBlock.size (block : TlsBlock) : UInt64 := alignUp block.off block.align

namespace LayoutInput

variable (input : LayoutInput)

/-! ## The entry point -/

def resolveEntry (addresses : List (SectionKey × UInt64)) :
    Except LayoutError UInt64 :=
  let name := input.config.entrySymbol
  match (input.symbols.lookup name).filter SymbolResolution.isDefined with
  | none => .error (.noEntry name)
  | some res =>
      match res.sectionIndex, res.definedIn with
      | none, _ => .ok res.value
      | some si, some objId =>
          match addresses.lookup (objId.toNat, si) with
          | some va => .ok (va + res.value)
          | none => .error (.noEntry name)
      -- What has a section has the object of the section.
      | some _, none => .error (.noEntry name)

/-- A shared object needs no entry. -/
def entryAddress (addresses : List (SectionKey × UInt64)) :
    Except LayoutError UInt64 :=
  if input.config.shared then
    match input.resolveEntry addresses with
    | .ok entry => .ok entry
    | .error _ => .ok 0
  else input.resolveEntry addresses

/-! ## Dynamic relocations -/

def relaEntry (offset info : UInt64) : List UInt8 :=
  toLeBytes offset ++ toLeBytes info ++ toLeBytes 0

def symbolicInfo (index rType : UInt32) : UInt64 :=
  (index.toUInt64 <<< 32) ||| rType.toUInt64

def dynIndex (dynj : DynamicInfo) (id : SymbolId) : UInt32 :=
  ((input.symbols.nameById id).bind (importDynsym dynj)).getD 0

def relaGlobDat (dynj : DynamicInfo) (gotBase : UInt64) : List UInt8 :=
  input.gotSyms.zipIdx.flatMap fun (id, place) =>
    if input.isGlobDat id then
      relaEntry (gotBase + UInt64.ofNat place * 8)
        (symbolicInfo (input.dynIndex dynj id) rX8664GlobDat)
    else []

def relaCopy (dynj : DynamicInfo) (copies : List (SymbolId × UInt64)) :
    List UInt8 :=
  copies.flatMap fun (id, va) =>
    if (input.symbols.nameById id).isSome then
      relaEntry va (symbolicInfo (input.dynIndex dynj id) rX8664Copy)
    else []

/-! ## The PLT -/

/-- A defined indirect function, whose slot runs the resolver. -/
def isIfuncSlot (id : SymbolId) : Bool :=
  (input.slotResolution id).any fun res =>
    res.isIfunc && res.isDefined && !res.isImport

/-- `jmp *slot(%rip)` with the bytes that fill the stub. -/
def pltStub (slotVa stubVa : UInt64) : List UInt8 :=
  [0xff, 0x25] ++ le32 (slotVa - (stubVa + 6)).toUInt32 ++
    List.replicate 10 0x90

def slotVa (gotpltBase : UInt64) (place : Nat) : UInt64 :=
  gotpltBase + UInt64.ofNat (place + 3) * 8

def pltBytes (gotpltBase pltBase : UInt64) : List UInt8 :=
  input.pltSyms.zipIdx.flatMap fun (_, place) =>
    pltStub (slotVa gotpltBase place) (pltBase + UInt64.ofNat place * 16)

def gotPltBytes (dynamicVa : UInt64) : List UInt8 :=
  toLeBytes dynamicVa ++ toLeBytes 0 ++ toLeBytes 0 ++
    input.pltSyms.flatMap fun _ => toLeBytes 0

def pltInfo (dynj : DynamicInfo) (id : SymbolId) : UInt64 :=
  if input.isIfuncSlot id then rX8664Irelative.toUInt64
  else symbolicInfo (input.dynIndex dynj id) rX8664JumpSlot

def relaPltBytes (dynj : DynamicInfo) (gotpltBase : UInt64) : List UInt8 :=
  input.pltSyms.zipIdx.flatMap fun (id, place) =>
    relaEntry (slotVa gotpltBase place) (input.pltInfo dynj id)

/-- Where the addends of the resolvers stand in `.rela.plt`. -/
def ifuncPltPatches : List (Nat × SymbolId) :=
  (input.pltSyms.zipIdx.filter fun slot => input.isIfuncSlot slot.1).map
    fun slot => (24 * slot.2 + 16, slot.1)

/-! ## The dynamic section -/

def dynTag (tag val : UInt64) : List UInt8 := toLeBytes tag ++ toLeBytes val

def arrayTags (sections : List OutputSection) (name : Name)
    (addressTag sizeTag : UInt64) : List UInt8 :=
  match sections.find? fun s => s.name == name with
  | some s => dynTag addressTag s.shAddr ++ dynTag sizeTag s.shSize
  | none => []

def addressTag (sections : List OutputSection) (name : Name) (tag : UInt64) :
    List UInt8 :=
  match sections.find? fun s => s.name == name with
  | some s => dynTag tag s.shAddr
  | none => []

def flagTags (dynj : DynamicInfo) : List UInt8 :=
  if dynj.pie then dynTag 30 0x8 ++ dynTag 0x6ffffffb (0x1 ||| 0x08000000)
  else if dynj.shared then dynTag 30 0x8 ++ dynTag 0x6ffffffb 0x1
  else if !input.pltSyms.isEmpty then dynTag 30 0x8
  else []

def dynamicBytes (pre : DynPrebuild) (dynj : DynamicInfo)
    (sections : List OutputSection) : List UInt8 :=
  let va := vaOf sections
  pre.neededOff.flatMap (fun off => dynTag 1 off.toUInt64) ++
    (match pre.sonameDtOff with
      | some off => dynTag 14 off.toUInt64
      | none => []) ++
    (match pre.rpathDtOff with
      | some off => dynTag (if dynj.enableNewDtags then 29 else 15) off.toUInt64
      | none => []) ++
    (if pre.blobs.hash.isEmpty then [] else dynTag 4 (va .hash)) ++
    (if pre.blobs.gnuHash.isEmpty then []
      else dynTag 0x6ffffef5 (va .gnuHash)) ++
    dynTag 5 (va .dynStr) ++ dynTag 6 (va .dynSym) ++
    dynTag 10 (UInt64.ofNat pre.blobs.dynstr.length) ++ dynTag 11 24 ++
    (if input.nRelaDyn dynj > 0 then
      dynTag 7 (va .relaDyn) ++
        dynTag 8 (UInt64.ofNat (input.nRelaDyn dynj) * relaSize) ++
        dynTag 9 relaSize
    else []) ++
    (if dynj.nRelative > dynj.nIrelative then
      dynTag 0x6ffffff9 (UInt64.ofNat (dynj.nRelative - dynj.nIrelative))
    else []) ++
    (if input.pltSyms.isEmpty then []
    else
      dynTag 3 (va .gotPlt) ++
        dynTag 2 (UInt64.ofNat input.pltSyms.length * relaSize) ++
        dynTag 20 7 ++ dynTag 23 (va .relaPlt)) ++
    (if pre.blobs.verneedNum > 0 then
      dynTag 0x6ffffff0 (va .gnuVersion) ++
        dynTag 0x6ffffffe (va .gnuVersionR) ++
        dynTag 0x6fffffff pre.blobs.verneedNum
    else []) ++
    input.flagTags dynj ++
    addressTag sections (nameOf ".init") 12 ++
    addressTag sections (nameOf ".fini") 13 ++
    arrayTags sections (nameOf ".init_array") 25 27 ++
    arrayTags sections (nameOf ".fini_array") 26 28 ++
    dynTag 0 0

/-! ## Patches of the dynamic symbols -/

def exportPlace (placement : Placement)
    (addresses : List (SectionKey × UInt64)) (res : SymbolResolution) :
    UInt16 × UInt64 :=
  match res.sectionIndex with
  | none => (shnAbs, res.value)
  | some si =>
      let key := ((res.definedIn.map UInt32.toNat).getD 0, si)
      match placement.secToOut.lookup key with
      | some out =>
          (UInt16.ofNat (out + 1), (addresses.lookup key).getD 0 + res.value)
      | none => (shnAbs, res.value)

/-- Section, value and size of a `.dynsym` entry, written at its sixth byte. -/
def dynsymPatch (off : Nat) (shndx : UInt16) (value size : UInt64) :
    Buffer.Patch UInt8 :=
  ⟨off + 6, le16 shndx ++ toLeBytes value ++ toLeBytes size⟩

def exportPatches (pre : DynPrebuild) (placement : Placement)
    (addresses : List (SectionKey × UInt64)) : List (Buffer.Patch UInt8) :=
  pre.exportPatch.filterMap fun (name, off) =>
    (input.symbols.lookup name).map fun res =>
      let place := exportPlace placement addresses res
      dynsymPatch off place.1 place.2 res.size

def copyPatchesAt (pre : DynPrebuild) (copies : List (SymbolId × UInt64))
    (bssShndx : UInt16) : List (Buffer.Patch UInt8) :=
  pre.copyPatch.filterMap fun (id, off) => do
    let res ← input.slotResolution id
    let value ← copies.lookup id
    return dynsymPatch off bssShndx value res.size

def bssShndx (sections : List OutputSection) : UInt16 :=
  ((syntheticBss sections).map fun s => s.shndx.toUInt16).getD shnAbs

/-- The bytes of the dynamic sections. `.rela.dyn` is put together after the
layout. -/
def finishBlobs (pre : DynPrebuild) (placement : Placement) (file : FileEnd)
    (gotBase : UInt64) (copies : List (SymbolId × UInt64)) : DynBlobs :=
  match input.dynamic with
  | none => pre.blobs
  | some dynj =>
      let va := vaOf file.sections
      let plt := !input.pltSyms.isEmpty
      { pre.blobs with
        relaGlobDat := input.relaGlobDat dynj gotBase
        relaCopy := input.relaCopy dynj copies
        relaDyn := []
        plt := if plt then input.pltBytes (va .gotPlt) (va .plt) else []
        gotPlt := if plt then input.gotPltBytes (va .dynamic) else []
        relaPlt := if plt then input.relaPltBytes dynj (va .gotPlt) else []
        dynamic := input.dynamicBytes pre dynj file.sections
        dynsym := Buffer.applyAll pre.blobs.dynsym
          (input.exportPatches pre placement file.addresses ++
            input.copyPatchesAt pre copies (bssShndx file.sections)) }

end LayoutInput

end Peony
