import Peony.Emit.SymbolPlaces

namespace Peony

open Relocatable (SymPlace symPlace symPlace_ofNat)

/-! What the headers of an output are read to say about the number of its sections and about
the section of their names. -/

/-! ## Reading -/

def halfAt (file : List UInt8) (place : Nat) : UInt16 :=
  UInt16.ofNat (fromLeBytes ((file.drop place).take 2))

def sectionCount (file : List UInt8) (shoff : Nat) : Nat :=
  if halfAt file 60 = 0 then (wordOf (file.drop (shoff + 32))).toNat
  else (halfAt file 60).toNat

/-- Where the section names are, which the null section has when the file header has no
room for it. -/
def namesPlace (file : List UInt8) (shoff : Nat) : SymPlace :=
  if halfAt file 62 = shnXindex then .section (wordFormat.read (file.drop (shoff + 40))).toNat
  else symPlace (halfAt file 62)

theorem lt_of_namesPlace {file : List UInt8} {shoff number : Nat}
    (read : namesPlace file shoff = .section number) : number < 2 ^ 32 := by
  rw [namesPlace] at read
  split at read
  · rw [← SymPlace.section.inj read]
    exact UInt32.toNat_lt _
  · have small := (symPlace_eq_section_iff.mp read).2.2
    omega

/-! ## The headers -/

section Headers

variable {layout : Layout} {file : List UInt8}

theorem drop_fileHeader (layout : Layout) :
    (fileHeader layout).drop 44 = le16 (eShnum layout) ++ le16 (eShstrndx layout) := by
  rw [fileHeader, List.append_assoc]
  apply List.drop_left'
  simp only [List.length_append, length_le16, length_le32, length_toLeBytes]

theorem halfAt_writeHeaders (opened : 64 ≤ file.length) (behind : 64 ≤ layout.phoff.toNat) :
    halfAt (writeHeaders layout file) 60 = eShnum layout ∧
      halfAt (writeHeaders layout file) 62 = eShstrndx layout := by
  have window (place : Nat) (inHeader : place + 2 ≤ 48) :
      ((writeHeaders layout file).drop (16 + place)).take 2 =
        ((fileHeader layout).drop place).take 2 := by
    rw [writeHeaders, Buffer.applyAll_cons, Buffer.applyAll_cons,
      Buffer.window_applyAll_apart]
    · refine @Buffer.window_overwrite_part _ _ ⟨16, fileHeader layout⟩ place 2 ?_ ?_
      · rw [Buffer.length_overwrite]
        change 16 + (fileHeader layout).length ≤ file.length
        rw [length_fileHeader]
        exact opened
      · change place + 2 ≤ (fileHeader layout).length
        rw [length_fileHeader]
        exact inHeader
    · intro patch isSegment
      rcases List.mem_map.mp isSegment with ⟨⟨header, index⟩, _, rfl⟩
      apply Or.inl
      dsimp only
      omega
  have count := drop_fileHeader layout
  have names : (fileHeader layout).drop 46 = le16 (eShstrndx layout) := by
    rw [show 46 = 44 + 2 from rfl, ← List.drop_drop, count]
    exact List.drop_left' (length_le16 _)
  rw [halfAt, halfAt, window 44 (by omega), window 46 (by omega), count, names,
    List.take_left' (length_le16 _), List.take_of_length_le (Nat.le_of_eq (length_le16 _)),
    fromLeBytes_le16, fromLeBytes_le16, UInt16.ofNat_toNat, UInt16.ofNat_toNat]
  exact ⟨rfl, rfl⟩

theorem halfAt_writeSectionHeaders {place : Nat} (before : place + 2 ≤ layout.shoff.toNat) :
    halfAt (writeSectionHeaders layout file) place = halfAt file place := by
  have numbered (sections : List OutputSection) (buf : List UInt8) :
      ((writeNumbered layout.shoff sections buf).drop place).take 2 =
        (buf.drop place).take 2 := by
    induction sections generalizing buf with
    | nil => rfl
    | cons s rest induction =>
        rw [writeNumbered]
        split
        · rfl
        · rw [induction, Buffer.window_overwrite_apart _ (.inl _)]
          dsimp only
          omega
  rw [halfAt, halfAt, writeSectionHeaders, numbered]
  split
  · rw [Buffer.window_applyAll_apart]
    intro patch isNull
    rcases List.mem_append.mp isNull with isCount | isNames
    · split at isCount
      · rw [List.mem_singleton.mp isCount]
        apply Or.inl
        dsimp only
        omega
      · exact absurd isCount List.not_mem_nil
    · split at isNames
      · rw [List.mem_singleton.mp isNames]
        apply Or.inl
        dsimp only
        omega
      · exact absurd isNames List.not_mem_nil
  · rfl

theorem pairwise_nullPatches (layout : Layout) :
    (nullPatches layout).Pairwise Buffer.Patch.Apart := by
  rw [nullPatches, List.pairwise_append]
  refine ⟨?_, ?_, fun first isFirst second isSecond => ?_⟩
  · split
    · exact List.pairwise_singleton _ _
    · exact .nil
  · split
    · exact List.pairwise_singleton _ _
    · exact .nil
  · split at isFirst
    · split at isSecond
      · rw [List.mem_singleton.mp isFirst, List.mem_singleton.mp isSecond]
        apply Or.inl
        rw [length_toLeBytes]
      · exact absurd isSecond List.not_mem_nil
    · exact absurd isFirst List.not_mem_nil

theorem slice_nullSection (room : layout.shoff.toNat + 64 ≤ file.length)
    (numbered : ∀ s ∈ layout.outputSections, s.shndx ≠ 0) {patch : Buffer.Patch UInt8}
    (present : patch ∈ nullPatches layout)
    (inside : patch.offset + patch.data.length ≤ layout.shoff.toNat + 64) :
    ((writeSectionHeaders layout file).drop patch.offset).take patch.data.length =
      patch.data := by
  rw [writeSectionHeaders, if_pos room, window_writeNumbered numbered inside]
  exact Buffer.slice_applyAll (pairwise_nullPatches layout) present (by omega)

theorem count_nullSection (room : layout.shoff.toNat + 64 ≤ file.length)
    (numbered : ∀ s ∈ layout.outputSections, s.shndx ≠ 0)
    (many : shnLoreserve.toUInt64 ≤ layout.shnum) :
    wordOf ((writeSectionHeaders layout file).drop (layout.shoff.toNat + 32)) =
      layout.shnum := by
  have slice := @slice_nullSection layout file room numbered
    ⟨layout.shoff.toNat + 32, toLeBytes layout.shnum⟩
    (List.mem_append_left _ (by rw [if_pos many]; exact List.mem_singleton_self _))
    (by rw [length_toLeBytes]; dsimp only; omega)
  rw [length_toLeBytes] at slice
  rw [wordOf, slice, fromLeBytes_toLeBytes, UInt64.ofNat_toNat]

theorem names_nullSection (room : layout.shoff.toNat + 64 ≤ file.length)
    (numbered : ∀ s ∈ layout.outputSections, s.shndx ≠ 0)
    (late : shnLoreserve.toUInt64 ≤ layout.shstrndx) :
    wordFormat.read ((writeSectionHeaders layout file).drop (layout.shoff.toNat + 40)) =
      layout.shstrndx.toUInt32 := by
  have slice := @slice_nullSection layout file room numbered
    ⟨layout.shoff.toNat + 40, le32 layout.shstrndx.toUInt32⟩
    (List.mem_append_right _ (by rw [if_pos late]; exact List.mem_singleton_self _))
    (by rw [length_le32]; dsimp only; omega)
  rw [length_le32] at slice
  change UInt32.ofNat (fromLeBytes (List.take 4 _)) = _
  rw [slice, fromLeBytes_le32, UInt32.ofNat_toNat]

end Headers

section Computed

variable {input : LayoutInput} {layout : Layout}
variable (computed : LayoutInput.Computed input layout)
variable (noWrap : input.NoWrap computed.pre)

def IsNamesPlace (layout : Layout) (place : SymPlace) : Prop :=
  ∀ index s, layout.outputSections[index]? = some s → s.source = .shStrTab →
    place = .section (index + 1)

include noWrap

theorem room_of_headers : 64 ≤ layout.phoff.toNat ∧ 64 ≤ layout.shoff.toNat ∧
    layout.shoff.toNat + 64 ≤ layout.fileSize := by
  have laid := LayoutInput.fileRanges_laid computed noWrap
  have phoff : layout.phoff.toNat = 64 :=
    congrArg (fun layout : Layout => layout.phoff.toNat) computed.assembled
  have isTable : (⟨layout.shoff.toNat, layout.shnum.toNat * shdrSize.toNat⟩ : Spans.Span) ∈
      layout.fileRanges := List.mem_append_right _ (List.mem_singleton_self _)
  have inside := (laid.within isTable).2
  have order := laid.pairwise
  rw [Layout.fileRanges, List.append_assoc, List.singleton_append, List.pairwise_cons] at order
  have behind := order.1 _ (List.mem_append_right _ (List.mem_singleton_self _))
  have bound := noWrap.headers
  have count : layout.shnum.toNat = layout.outputSections.length + 1 := by
    rw [LayoutInput.outputSections_eq computed, LayoutInput.shnum_eq computed,
      LayoutInput.outputSections_eq computed, UInt64.toNat_ofNat']
    rw [show shdrSize.toNat = 64 from rfl] at bound
    exact Nat.mod_eq_of_lt (by omega)
  rw [Spans.Span.stop, count, show shdrSize.toNat = 64 from rfl] at inside
  dsimp only at inside
  change 0 + (layout.phoff.toNat + _) ≤ layout.shoff.toNat at behind
  omega

theorem headers_read_iff :
    (∀ file, file.length = layout.fileSize →
      sectionCount (writeSectionHeaders layout (writeHeaders layout file))
          layout.shoff.toNat = layout.outputSections.length + 1 ∧
        IsNamesPlace layout (namesPlace
          (writeSectionHeaders layout (writeHeaders layout file)) layout.shoff.toNat)) ↔
      layout.outputSections.length < 2 ^ 32 := by
  rcases LayoutInput.names_last computed with ⟨front, names, split, isNames, others⟩
  have length : layout.outputSections.length = front.length + 1 := by
    rw [split, List.length_append, List.length_singleton]
  have isLast : layout.outputSections[front.length]? = some names := by
    rw [split, List.getElem?_append_right (Nat.le_refl _), Nat.sub_self]
    rfl
  constructor
  · intro read
    have place := (read (List.replicate layout.fileSize 0) List.length_replicate).2 _ _ isLast
      isNames
    have below := lt_of_namesPlace place
    omega
  · intro few file size
    rcases room_of_headers computed noWrap with ⟨phoff, shoff, room⟩
    rcases @halfAt_writeHeaders layout file (by omega) phoff with ⟨isCount, isPlace⟩
    have numbered : ∀ s ∈ layout.outputSections, s.shndx ≠ 0 := by
      intro s present
      rcases List.getElem?_of_mem present with ⟨index, isIndex⟩
      have below := (List.getElem?_eq_some_iff.mp isIndex).1
      rw [LayoutInput.shndx_eq computed isIndex, ne_eq, ← UInt32.toNat_inj]
      change (UInt32.ofNat (index + 1)).toNat ≠ 0
      rw [UInt32.toNat_ofNat']
      omega
    have shnum : layout.shnum.toNat = layout.outputSections.length + 1 := by
      rw [LayoutInput.shnum_eq computed, UInt64.toNat_ofNat']
      omega
    have shstrndx : layout.shstrndx.toNat = layout.outputSections.length := by
      rw [LayoutInput.shstrndx_eq computed, UInt32.toNat_toUInt64, UInt32.toNat_ofNat']
      omega
    have reserved (word : UInt64) : shnLoreserve.toUInt64 ≤ word ↔ 0xff00 ≤ word.toNat := by
      rw [UInt64.le_iff_toNat_le]
      rfl
    constructor
    · rw [sectionCount, halfAt_writeSectionHeaders (by omega), isCount, eShnum]
      by_cases many : shnLoreserve.toUInt64 ≤ layout.shnum
      · rw [if_pos many, if_pos rfl, count_nullSection (by rw [length_writeHeaders]; omega)
          numbered many, shnum]
      · rw [if_neg many]
        rw [reserved] at many
        have narrow : layout.shnum.toUInt16.toNat = layout.shnum.toNat := by
          rw [UInt64.toNat_toUInt16]
          omega
        rw [if_neg, narrow, shnum]
        intro isZero
        have none : layout.shnum.toUInt16.toNat = 0 := congrArg UInt16.toNat isZero
        omega
    · intro index s isIndex isSource
      have isEnd := LayoutInput.place_of_names computed isIndex isSource
      rw [namesPlace, halfAt_writeSectionHeaders (by omega), isPlace, eShstrndx]
      by_cases late : shnLoreserve.toUInt64 ≤ layout.shstrndx
      · rw [if_pos late, if_pos rfl, names_nullSection (by rw [length_writeHeaders]; omega)
          numbered late, UInt64.toNat_toUInt32, shstrndx, isEnd, Nat.mod_eq_of_lt few]
      · rw [if_neg late]
        rw [reserved] at late
        have narrow : layout.shstrndx.toUInt16.toNat = layout.shstrndx.toNat := by
          rw [UInt64.toNat_toUInt16]
          omega
        have isSection : symPlace layout.shstrndx.toUInt16 = .section (index + 1) := by
          rw [symPlace_eq_section_iff]
          omega
        rw [if_neg, isSection]
        intro isXindex
        have all : layout.shstrndx.toUInt16.toNat = 0xffff := congrArg UInt16.toNat isXindex
        omega

end Computed

end Peony
