import Peony.Driver.DynamicTags
import Peony.Layout.Relro

namespace Peony

/-! The image of `.rela.dyn`, which is put together after the layout, and what `.dynamic`
says about it. -/

open LayoutInput

/-! ## Entries -/

/-- A relocation with its addend, as the dynamic linker reads it. -/
structure Rela where
  site : UInt64
  index : UInt32
  rType : UInt32
  addend : UInt64
deriving DecidableEq

namespace Rela

def bytes (rela : Rela) : List UInt8 :=
  Layout.relaDynEntry rela.site rela.index rela.rType rela.addend

def ofBytes (bytes : List UInt8) : Rela where
  site := wordOf bytes
  index := (wordOf (bytes.drop 8) >>> 32).toUInt32
  rType := (wordOf (bytes.drop 8)).toUInt32
  addend := wordOf ((bytes.drop 8).drop 8)

theorem bytes_eq (rela : Rela) :
    rela.bytes = toLeBytes rela.site ++
      (toLeBytes (symbolicInfo rela.index rela.rType) ++ toLeBytes rela.addend) :=
  List.append_assoc _ _ _

theorem ofBytes_bytes (rela : Rela) : ofBytes rela.bytes = rela := by
  rw [bytes_eq, ofBytes]
  simp only [wordOf_append, drop_toLeBytes, wordOf_toLeBytes, symbolicInfo, toUInt32_joined,
    toUInt32_joined_shift]

theorem width_positive : 0 < 24 := by decide

/-- What is written is read back. -/
def format : RecordFormat Rela UInt8 where
  width := 24
  write := bytes
  read := ofBytes
  positive := width_positive
  length_write _ := rfl
  read_write := ofBytes_bytes

/-- Whether the loader only adds the base address. -/
def isRelative (rela : Rela) : Bool := rela.rType == Layout.rX8664Relative

end Rela

/-! ## The entries of an output -/

/-- The dynamic relocations that are collected are no more than were reserved for. The
indirect functions are among the relative ones. -/
structure Reserved (dynj : DynamicInfo) (relocs : DynamicRelocs)
    (tls : List TlsDynReloc) : Prop where
  relative : relocs.relative.length + dynj.nIrelative ≤ dynj.nRelative
  irelative : relocs.irelative.length ≤ dynj.nIrelative
  tls : tls.length ≤ dynj.nTlsReloc
  symbolic : relocs.symbolic.length ≤ dynj.nSymbolicData

def relativeRelas (relocs : DynamicRelocs) : List Rela :=
  relocs.relative.map fun entry => ⟨entry.1, 0, Layout.rX8664Relative, entry.2⟩

/-- What the loader does more for than to add the base address. -/
def resolvedRelas (relocs : DynamicRelocs) (tls : List TlsDynReloc) : List Rela :=
  relocs.irelative.map (fun entry => ⟨entry.1, 0, rX8664Irelative, entry.2⟩) ++
    tls.map (fun reloc =>
      ⟨reloc.site, reloc.dynsymIndex, reloc.rType, reloc.addend.toUInt64⟩) ++
    relocs.symbolic.map fun entry =>
      ⟨entry.1, entry.2.1, Layout.rX866464, entry.2.2.toUInt64⟩

/-- What is collected after the layout, class by class. -/
def collectedRelas (relocs : DynamicRelocs) (tls : List TlsDynReloc) : List Rela :=
  relativeRelas relocs ++ resolvedRelas relocs tls

theorem isRelative_relativeRelas {relocs : DynamicRelocs} {rela : Rela}
    (present : rela ∈ relativeRelas relocs) : rela.isRelative = true := by
  rcases List.mem_map.mp present with ⟨entry, _, rfl⟩
  rfl

theorem isRelative_resolvedRelas {relocs : DynamicRelocs} {tls : List TlsDynReloc}
    (types : ∀ reloc ∈ tls, reloc.rType ≠ Layout.rX8664Relative) {rela : Rela}
    (present : rela ∈ resolvedRelas relocs tls) : rela.isRelative = false := by
  rcases List.mem_append.mp present with isFront | isSymbolic
  · rcases List.mem_append.mp isFront with isIrelative | isTls
    · rcases List.mem_map.mp isIrelative with ⟨entry, _, rfl⟩
      rfl
    · rcases List.mem_map.mp isTls with ⟨reloc, isReloc, rfl⟩
      exact beq_eq_false_iff_ne.mpr (types reloc isReloc)
  · rcases List.mem_map.mp isSymbolic with ⟨entry, _, rfl⟩
    rfl

theorem length_collectedRelas (relocs : DynamicRelocs) (tls : List TlsDynReloc) :
    (collectedRelas relocs tls).length = relocs.relative.length +
      (relocs.irelative.length + tls.length + relocs.symbolic.length) := by
  rw [collectedRelas, relativeRelas, resolvedRelas]
  simp only [List.length_append, List.length_map]

namespace LayoutInput

variable (input : LayoutInput)

/-- The imports that have a slot. -/
def globDatRelas (dynj : DynamicInfo) (gotBase : UInt64) : List Rela :=
  (input.gotSyms.zipIdx.filter fun slot => input.isGlobDat slot.1).map fun slot =>
    ⟨gotBase + UInt64.ofNat slot.2 * 8, input.dynIndex dynj slot.1, rX8664GlobDat, 0⟩

def copyRelas (dynj : DynamicInfo) (copies : List (SymbolId × UInt64)) : List Rela :=
  (copies.filter fun copy => (input.symbols.nameById copy.1).isSome).map fun copy =>
    ⟨copy.2, input.dynIndex dynj copy.1, rX8664Copy, 0⟩

private theorem flatMap_filter {Item : Type} (chosen : Item → Bool)
    (write : Item → List UInt8) (items : List Item) :
    (items.flatMap fun item => if chosen item then write item else []) =
      (items.filter chosen).flatMap write := by
  induction items with
  | nil => rfl
  | cons item rest induction =>
      rw [List.flatMap_cons, induction, List.filter_cons]
      split
      · rw [List.flatMap_cons]
      · rfl

theorem relaGlobDat_eq (dynj : DynamicInfo) (gotBase : UInt64) :
    input.relaGlobDat dynj gotBase =
      Rela.format.table (input.globDatRelas dynj gotBase) := by
  rw [globDatRelas, RecordFormat.table, List.flatMap_map]
  exact flatMap_filter (fun slot : SymbolId × Nat => input.isGlobDat slot.1) _ _

theorem relaCopy_eq (dynj : DynamicInfo) (copies : List (SymbolId × UInt64)) :
    input.relaCopy dynj copies = Rela.format.table (input.copyRelas dynj copies) := by
  rw [copyRelas, RecordFormat.table, List.flatMap_map]
  exact flatMap_filter
    (fun copy : SymbolId × UInt64 => (input.symbols.nameById copy.1).isSome) _ _

theorem length_globDatRelas (dynj : DynamicInfo) (gotBase : UInt64) :
    (input.globDatRelas dynj gotBase).length = input.nGlobDat := by
  rw [globDatRelas, List.length_map, nGlobDat, ← List.countP_eq_length_filter,
    ← List.countP_eq_length_filter]
  conv => rhs; rw [← List.zipIdx_map_fst 0 input.gotSyms, List.countP_map]
  rfl

theorem length_copyRelas_le {dynj : DynamicInfo} (isDynamic : input.dynamic = some dynj)
    (base : UInt64) :
    (input.copyRelas dynj (rebase base input.copySpace.offsets)).length ≤
      dynj.copyRelocs.length := by
  have allotted (demands : List (SymbolId × UInt64)) (space : BssSpace) :
      (demands.foldl allotCopy space).offsets.length =
        space.offsets.length + demands.length := by
    induction demands generalizing space with
    | nil => rfl
    | cons demand rest induction =>
        rw [List.foldl_cons, induction, allotCopy, BssSpace.allot, List.length_append,
          List.length_singleton, List.length_cons, Nat.add_assoc, Nat.add_comm 1]
  have known : input.copyDemands.length ≤ dynj.copyRelocs.length := by
    have listed : input.copySyms = dynj.copyRelocs := by rw [copySyms, isDynamic]; rfl
    rw [copyDemands, listed]
    exact List.length_filterMap_le _ _
  rw [copyRelas, List.length_map]
  refine (List.length_filter_le _ _).trans ?_
  rw [rebase, List.length_map, copySpace, allotted, List.length_nil, Nat.zero_add]
  exact known

end LayoutInput

/-! ## What is written -/

namespace Layout

/-- How many bytes the collected entries and those of the layout take. -/
def relaDynDemand (layout : Layout) (relocs : DynamicRelocs) (tls : List TlsDynReloc) : Nat :=
  24 * (collectedRelas relocs tls).length +
    (layout.dynBlobs.relaGlobDat ++ layout.dynBlobs.relaCopy).length

def RelaDynFits (layout : Layout) (relocs : DynamicRelocs) (tls : List TlsDynReloc) : Prop :=
  layout.relaDynDemand relocs tls ≤ layout.relaDynSectionSize.toNat

instance (layout : Layout) (relocs : DynamicRelocs) (tls : List TlsDynReloc) :
    Decidable (layout.RelaDynFits relocs tls) :=
  inferInstanceAs (Decidable (_ ≤ _))

theorem entries_wantedRelaDyn (relocs : DynamicRelocs) (tls : List TlsDynReloc) :
    (wantedRelaDyn relocs tls).entries = (collectedRelas relocs tls).map Rela.bytes := by
  rw [RelaDyn.entries, wantedRelaDyn, collectedRelas, relativeRelas, resolvedRelas]
  simp only [List.map_append, List.map_map, List.append_assoc]
  rfl

theorem takeFitting_all {room used : Nat} {entries : List (List UInt8)}
    (fits : used + 24 * entries.length ≤ room) : takeFitting room used entries = entries := by
  refine List.take_of_length_le ?_
  rw [Nat.le_div_iff_mul_le (by decide)]
  omega

theorem writtenRelaDyn_all {room : Nat} {wanted : RelaDyn}
    (fits : 24 * wanted.entries.length ≤ room) : writtenRelaDyn room wanted = wanted := by
  rw [RelaDyn.entries, List.length_append, List.length_append, List.length_append] at fits
  have relative : takeFitting room 0 wanted.relative = wanted.relative :=
    takeFitting_all (by omega)
  have irelative : takeFitting room (24 * wanted.relative.length) wanted.irelative =
      wanted.irelative := takeFitting_all (by omega)
  have tls : takeFitting room (24 * (wanted.relative.length + wanted.irelative.length))
      wanted.tls = wanted.tls := takeFitting_all (by omega)
  have symbolic : takeFitting room (24 * (wanted.relative.length +
      wanted.irelative.length + wanted.tls.length)) wanted.symbolic = wanted.symbolic :=
    takeFitting_all (by omega)
  rw [writtenRelaDyn]
  simp only [relative, irelative, tls, symbolic]

theorem find_mapFirst {chosen : OutputSection → Bool} {change : OutputSection → OutputSection}
    (stays : ∀ s, chosen s = true → chosen (change s) = true) (sections : List OutputSection) :
    (mapFirst chosen change sections).find? chosen = (sections.find? chosen).map change := by
  induction sections with
  | nil => rfl
  | cons s rest induction =>
      rw [mapFirst]
      cases isChosen : chosen s with
      | true =>
          rw [if_pos rfl, List.find?_cons_of_pos (stays s isChosen),
            List.find?_cons_of_pos isChosen]
          rfl
      | false =>
          have notChosen : ¬ chosen s = true := by rw [isChosen]; exact Bool.false_ne_true
          rw [if_neg Bool.false_ne_true, List.find?_cons_of_neg notChosen,
            List.find?_cons_of_neg notChosen, induction]

def relaDynSection (layout : Layout) : Option OutputSection :=
  layout.outputSections.find? fun s => s.source == .relaDyn

variable (layout : Layout) (relocs : DynamicRelocs) (tls : List TlsDynReloc)

/-- The image once everything that is collected has its place. -/
theorem appendAll_of_fits (fits : layout.RelaDynFits relocs tls) :
    layout.appendAllDynamicRelocs relocs tls =
      ((({ layout with dynBlobs := { layout.dynBlobs with
          relaGlobDat := []
          relaCopy := []
          relaDyn := Rela.format.table (collectedRelas relocs tls) ++
            (layout.dynBlobs.relaGlobDat ++ layout.dynBlobs.relaCopy) } }.patchDtTag
          0x6ffffff9 (UInt64.ofNat relocs.relative.length)).patchDtTag 8
            (UInt64.ofNat (layout.relaDynDemand relocs tls))).setRelaDynSize
              (UInt64.ofNat (layout.relaDynDemand relocs tls))) := by
  have small : (layout.dynBlobs.relaGlobDat ++ layout.dynBlobs.relaCopy).length <
      2 ^ 64 :=
    ((Nat.le_add_left _ _).trans fits).trans_lt layout.relaDynSectionSize.toNat_lt
  have room : 24 * (wantedRelaDyn relocs tls).entries.length ≤
      (layout.relaDynSectionSize - UInt64.ofNat (layout.dynBlobs.relaGlobDat ++
        layout.dynBlobs.relaCopy).length).toNat := by
    have exact : (UInt64.ofNat (layout.dynBlobs.relaGlobDat ++
        layout.dynBlobs.relaCopy).length).toNat =
        (layout.dynBlobs.relaGlobDat ++ layout.dynBlobs.relaCopy).length :=
      (UInt64.toNat_ofNat').trans (Nat.mod_eq_of_lt small)
    rw [RelaDynFits, relaDynDemand] at fits
    have smaller : UInt64.ofNat (layout.dynBlobs.relaGlobDat ++
        layout.dynBlobs.relaCopy).length ≤ layout.relaDynSectionSize := by
      rw [UInt64.le_iff_toNat_le, exact]
      exact (Nat.le_add_left _ _).trans fits
    rw [UInt64.toNat_sub_of_le _ _ smaller, exact, entries_wantedRelaDyn, List.length_map]
    omega
  have bytes : (wantedRelaDyn relocs tls).entries.flatten =
      Rela.format.table (collectedRelas relocs tls) := by
    rw [entries_wantedRelaDyn, RecordFormat.table, List.flatMap_def]
    rfl
  have size : (Rela.format.table (collectedRelas relocs tls) ++
      (layout.dynBlobs.relaGlobDat ++ layout.dynBlobs.relaCopy)).length =
      layout.relaDynDemand relocs tls := by
    rw [List.length_append, RecordFormat.length_table, relaDynDemand]
    rfl
  have count : (wantedRelaDyn relocs tls).relative.length = relocs.relative.length :=
    List.length_map _
  simp only [appendAllDynamicRelocs, writtenRelaDyn_all room, bytes, size, count]

end Layout

/-! ## The image is well formed -/

namespace LayoutInput

/-- All entries of the output, in their order. -/
def allRelas (input : LayoutInput) (dynj : DynamicInfo) (layout : Layout)
    (relocs : DynamicRelocs) (tls : List TlsDynReloc) : List Rela :=
  collectedRelas relocs tls ++ input.globDatRelas dynj layout.gotBase ++
    input.copyRelas dynj layout.copyRelocs

/-- `.rela.dyn` of `done` holds all entries and nothing else in the space that `layout`
reserved, and its header and the tags of `.dynamic` say so. -/
structure RelaDynWellFormed (input : LayoutInput) (dynj : DynamicInfo) (layout : Layout)
    (relocs : DynamicRelocs) (tls : List TlsDynReloc) (done : Layout) : Prop where
  entries : Rela.format.readAll done.dynBlobs.relaDyn =
    input.allRelas dynj layout relocs tls
  whole : done.dynBlobs.relaDyn.length =
    24 * (input.allRelas dynj layout relocs tls).length
  within : done.dynBlobs.relaDyn.length ≤ layout.relaDynSectionSize.toNat
  header : ∀ s, done.relaDynSection = some s →
    s.shSize = UInt64.ofNat done.dynBlobs.relaDyn.length
  present : done.dynBlobs.relaDyn ≠ [] → done.relaDynSection.isSome = true
  size : ∀ size, DynEntry.valueOf 8 (DynEntry.format.readAll done.dynBlobs.dynamic) =
    some size → size = UInt64.ofNat done.dynBlobs.relaDyn.length
  sized : done.dynBlobs.relaDyn ≠ [] →
    (DynEntry.valueOf 8 (DynEntry.format.readAll done.dynBlobs.dynamic)).isSome = true
  count : ∀ count,
    DynEntry.valueOf 0x6ffffff9 (DynEntry.format.readAll done.dynBlobs.dynamic) =
      some count → count = UInt64.ofNat relocs.relative.length
  leading : ((input.allRelas dynj layout relocs tls).take relocs.relative.length).all
    Rela.isRelative = true
  others : (∀ reloc ∈ tls, reloc.rType ≠ Layout.rX8664Relative) →
    ((input.allRelas dynj layout relocs tls).takeWhile Rela.isRelative).length =
      relocs.relative.length

section Computed

variable {input : LayoutInput} {layout : Layout} (computed : Computed input layout)
variable {dynj : DynamicInfo} (isDynamic : input.dynamic = some dynj)

include computed isDynamic

theorem blobs_computed :
    layout.dynBlobs.relaGlobDat =
        Rela.format.table (input.globDatRelas dynj layout.gotBase) ∧
      layout.dynBlobs.relaCopy =
        Rela.format.table (input.copyRelas dynj layout.copyRelocs) ∧
      layout.dynBlobs.dynamic =
        input.dynamicBytes computed.pre dynj layout.outputSections := by
  rw [← relaGlobDat_eq, ← relaCopy_eq]
  rcases computed with ⟨pre, entry, _, _, _, _, rfl⟩
  simp only [assemble, finishBlobs, isDynamic, and_self]

theorem relaDynDemand_computed (relocs : DynamicRelocs) (tls : List TlsDynReloc) :
    layout.relaDynDemand relocs tls =
      24 * (input.allRelas dynj layout relocs tls).length := by
  rcases blobs_computed computed isDynamic with ⟨globDat, copy, _⟩
  rw [Layout.relaDynDemand, globDat, copy, List.length_append, RecordFormat.length_table,
    RecordFormat.length_table, allRelas, List.length_append, List.length_append]
  change _ + (24 * _ + 24 * _) = _
  omega

omit isDynamic in
theorem copies_computed : layout.copyRelocs =
    rebase (commonBase layout.outputSections) input.copySpace.offsets := by
  rcases computed with ⟨pre, entry, _, _, _, _, rfl⟩
  rfl

omit computed isDynamic in
theorem take_allRelas (layout : Layout) (relocs : DynamicRelocs) (tls : List TlsDynReloc) :
    (input.allRelas dynj layout relocs tls).take relocs.relative.length =
      relativeRelas relocs := by
  rw [allRelas, collectedRelas, List.append_assoc, List.append_assoc]
  exact List.take_left' (List.length_map _)

omit computed isDynamic in
/-- The relative entries are those at the front. -/
theorem takeWhile_allRelas (layout : Layout) {relocs : DynamicRelocs}
    {tls : List TlsDynReloc} (types : ∀ reloc ∈ tls, reloc.rType ≠ Layout.rX8664Relative) :
    (input.allRelas dynj layout relocs tls).takeWhile Rela.isRelative =
      relativeRelas relocs := by
  have globDat : ∀ rela ∈ input.globDatRelas dynj layout.gotBase,
      rela.isRelative = false := by
    intro rela present
    rcases List.mem_map.mp present with ⟨slot, _, rfl⟩
    rfl
  have copies : ∀ rela ∈ input.copyRelas dynj layout.copyRelocs,
      rela.isRelative = false := by
    intro rela present
    rcases List.mem_map.mp present with ⟨copy, _, rfl⟩
    rfl
  have behind : ∀ rela ∈ resolvedRelas relocs tls ++
      (input.globDatRelas dynj layout.gotBase ++ input.copyRelas dynj layout.copyRelocs),
      rela.isRelative = false := by
    intro rela present
    rcases List.mem_append.mp present with isResolved | isImport
    · exact isRelative_resolvedRelas types isResolved
    · rcases List.mem_append.mp isImport with isGlobDat | isCopy
      · exact globDat rela isGlobDat
      · exact copies rela isCopy
  rw [allRelas, collectedRelas, List.append_assoc, List.append_assoc,
    List.takeWhile_append_of_pos fun rela present => isRelative_relativeRelas present]
  cases rest : resolvedRelas relocs tls ++
      (input.globDatRelas dynj layout.gotBase ++ input.copyRelas dynj layout.copyRelocs) with
  | nil => exact List.append_nil _
  | cons first others =>
      have notRelative := behind first (rest ▸ List.mem_cons_self)
      rw [List.takeWhile_cons_of_neg (by rw [notRelative]; exact Bool.false_ne_true),
        List.append_nil]

theorem relaDyn_appendAll {relocs : DynamicRelocs} {tls : List TlsDynReloc}
    (fits : layout.RelaDynFits relocs tls) :
    (layout.appendAllDynamicRelocs relocs tls).dynBlobs.relaDyn =
      Rela.format.table (input.allRelas dynj layout relocs tls) := by
  rcases blobs_computed computed isDynamic with ⟨globDat, copy, _⟩
  rw [layout.appendAll_of_fits relocs tls fits, allRelas, List.append_assoc,
    RecordFormat.table_append, RecordFormat.table_append, ← globDat, ← copy]
  rfl

theorem exists_dynamic_appendAll {relocs : DynamicRelocs} {tls : List TlsDynReloc}
    (fits : layout.RelaDynFits relocs tls) :
    ∃ entries, DynEntry.format.readAll
        (layout.appendAllDynamicRelocs relocs tls).dynBlobs.dynamic = entries ∧
      DynEntry.valueOf 8 entries =
        (if input.nRelaDyn dynj > 0 then
          some (UInt64.ofNat (layout.relaDynDemand relocs tls))
        else none) ∧
      DynEntry.valueOf 0x6ffffff9 entries =
        if dynj.nRelative > dynj.nIrelative then
          some (UInt64.ofNat relocs.relative.length)
        else none := by
  rcases blobs_computed computed isDynamic with ⟨_, _, isDynamicBytes⟩
  rcases input.exists_relaValues computed.pre dynj layout.outputSections with
    ⟨entries, isTable, hasSize, hasCount⟩
  have atLeast (records : List DynEntry) :
      records.length ≤ (DynEntry.format.table records).length := by
    rw [RecordFormat.length_table]
    exact Nat.le_mul_of_pos_left _ DynEntry.format.positive
  have bytes : (layout.appendAllDynamicRelocs relocs tls).dynBlobs.dynamic =
      DynEntry.format.table (DynEntry.setFirst 8
        (UInt64.ofNat (layout.relaDynDemand relocs tls))
        (DynEntry.setFirst 0x6ffffff9 (UInt64.ofNat relocs.relative.length) entries)) := by
    rw [layout.appendAll_of_fits relocs tls fits]
    simp only [Layout.setRelaDynSize, Layout.patchDtTag]
    rw [isDynamicBytes, isTable, DynEntry.patchTag_table _ _ (atLeast _),
      DynEntry.patchTag_table _ _ (atLeast _)]
  refine ⟨_, rfl, ?_, ?_⟩
  · rw [bytes, RecordFormat.readAll_table, DynEntry.valueOf_setFirst_self (by decide),
      DynEntry.valueOf_setFirst_other (by decide)]
    cases found : DynEntry.valueOf 8 entries with
    | none =>
        rw [found, Option.isSome_none, eq_comm, decide_eq_false_iff_not] at hasSize
        rw [if_neg hasSize]
        rfl
    | some value =>
        rw [found, Option.isSome_some, eq_comm, decide_eq_true_iff] at hasSize
        rw [if_pos hasSize]
        rfl
  · rw [bytes, RecordFormat.readAll_table, DynEntry.valueOf_setFirst_other (by decide),
      DynEntry.valueOf_setFirst_self (by decide)]
    cases found : DynEntry.valueOf 0x6ffffff9 entries with
    | none =>
        rw [found, Option.isSome_none, eq_comm, decide_eq_false_iff_not] at hasCount
        rw [if_neg hasCount]
        rfl
    | some value =>
        rw [found, Option.isSome_some, eq_comm, decide_eq_true_iff] at hasCount
        rw [if_pos hasCount]
        rfl

omit computed isDynamic in
theorem relaDynSection_appendAll {relocs : DynamicRelocs} {tls : List TlsDynReloc}
    (fits : layout.RelaDynFits relocs tls) :
    (layout.appendAllDynamicRelocs relocs tls).relaDynSection =
      layout.relaDynSection.map fun s =>
        { s with shSize := UInt64.ofNat (layout.relaDynDemand relocs tls) } := by
  rw [layout.appendAll_of_fits relocs tls fits]
  exact @Layout.find_mapFirst (fun s => s.source == .relaDyn)
    (fun s => { s with shSize := UInt64.ofNat (layout.relaDynDemand relocs tls) })
    (fun _ isFirst => isFirst) layout.outputSections

theorem length_allRelas_le {relocs : DynamicRelocs} {tls : List TlsDynReloc}
    (reserved : Reserved dynj relocs tls) :
    (input.allRelas dynj layout relocs tls).length ≤ input.nRelaDyn dynj := by
  have copies := input.length_copyRelas_le isDynamic (commonBase layout.outputSections)
  rw [← copies_computed computed] at copies
  have collected := length_collectedRelas relocs tls
  rcases reserved with ⟨relative, irelative, tls, symbolic⟩
  rw [allRelas, List.length_append, List.length_append, length_globDatRelas, collected,
    nRelaDyn]
  omega

theorem wellFormed_of_fits {relocs : DynamicRelocs} {tls : List TlsDynReloc}
    (reserved : Reserved dynj relocs tls) (fits : layout.RelaDynFits relocs tls) :
    input.RelaDynWellFormed dynj layout relocs tls
      (layout.appendAllDynamicRelocs relocs tls) := by
  have bytes := relaDyn_appendAll computed isDynamic fits
  have length : (layout.appendAllDynamicRelocs relocs tls).dynBlobs.relaDyn.length =
      24 * (input.allRelas dynj layout relocs tls).length := by
    rw [bytes, RecordFormat.length_table]
    rfl
  have demand := relaDynDemand_computed computed isDynamic relocs tls
  have sections := relaDynSection_appendAll fits
  rcases exists_dynamic_appendAll computed isDynamic fits with
    ⟨entries, isRead, size, count⟩
  have filled (isFilled :
      (layout.appendAllDynamicRelocs relocs tls).dynBlobs.relaDyn ≠ []) :
      0 < (input.allRelas dynj layout relocs tls).length := by
    refine Nat.pos_of_ne_zero fun none => isFilled (List.eq_nil_of_length_eq_zero ?_)
    rw [length, none]
  have hasRoom := length_allRelas_le computed isDynamic reserved
  exact {
    entries := by rw [bytes, RecordFormat.readAll_table]
    whole := length
    within := by
      rw [length, ← demand]
      exact fits
    header := by
      intro s isFirst
      rw [sections] at isFirst
      rcases Option.map_eq_some_iff.mp isFirst with ⟨reservedSection, _, rfl⟩
      rw [length, ← demand]
    present := by
      intro isFilled
      rw [sections, Option.isSome_map]
      cases found : layout.relaDynSection with
      | some s => rfl
      | none =>
          have noRoom : layout.relaDynSectionSize = 0 := by
            rw [Layout.relaDynSectionSize, ← Layout.relaDynSection, found]
            rfl
          have positive := filled isFilled
          rw [Layout.RelaDynFits, noRoom, demand, UInt64.toNat_zero] at fits
          omega
    size := by
      intro value isValue
      rw [isRead, size] at isValue
      split at isValue
      · rw [length, ← demand]
        exact (Option.some.inj isValue).symm
      · exact nomatch isValue
    sized := by
      intro isFilled
      have positive := filled isFilled
      rw [isRead, size, if_pos (by omega)]
      rfl
    count := by
      intro value isValue
      rw [isRead, count] at isValue
      split at isValue
      · exact (Option.some.inj isValue).symm
      · exact nomatch isValue
    leading := by
      rw [take_allRelas, List.all_eq_true]
      exact fun rela present => isRelative_relativeRelas present
    others := by
      intro types
      rw [takeWhile_allRelas layout types]
      exact List.length_map _ }

def reservedRelaDyn (input : LayoutInput) (dynj : DynamicInfo) : Builder :=
  Builder.readOnly (nameOf ".rela.dyn") shtRela 8
    (UInt64.ofNat (input.nRelaDyn dynj) * relaSize)

omit computed in
theorem mem_added_named {pre : DynPrebuild} {b : Builder} (isAdded : b ∈ input.added pre)
    (named : b.name = nameOf ".rela.dyn") : b = input.reservedRelaDyn dynj := by
  have distinct {own : Builder} (same : b = own)
      (different : own.name ≠ nameOf ".rela.dyn") : b = input.reservedRelaDyn dynj :=
    absurd (same ▸ named) different
  have other {flag : Bool} {own : Builder} (isOwn : b ∈ Builder.only flag own)
      (different : own.name ≠ nameOf ".rela.dyn") : b = input.reservedRelaDyn dynj :=
    distinct (Builder.mem_only.mp isOwn).2 different
  have notes : b ∈ input.addedNotes → b = input.reservedRelaDyn dynj := by
    intro isNote
    rcases List.mem_append.mp isNote with isFront | isHeader
    · rcases List.mem_append.mp isFront with isProperty | isBuildId
      · exact other isProperty (show propertyName ≠ nameOf ".rela.dyn" by decide)
      · exact other isBuildId
          (show nameOf ".note.gnu.build-id" ≠ nameOf ".rela.dyn" by decide)
    · exact other isHeader (show nameOf ".eh_frame_hdr" ≠ nameOf ".rela.dyn" by decide)
  have tables : b ∈ input.addedTables pre → b = input.reservedRelaDyn dynj := by
    intro isTable
    rcases List.mem_append.mp isTable with isDyn | isRelaPlt
    · have listed := (List.mem_filter.mp isDyn).1
      rw [isDynamic, Option.toList_some, List.flatMap_singleton, roDyn] at listed
      simp only [List.mem_cons, List.not_mem_nil, or_false] at listed
      rcases listed with same | same | same | same | same | same | same | same
      · exact distinct same (show nameOf ".interp" ≠ nameOf ".rela.dyn" by decide)
      · exact distinct same (show nameOf ".hash" ≠ nameOf ".rela.dyn" by decide)
      · exact distinct same (show nameOf ".gnu.hash" ≠ nameOf ".rela.dyn" by decide)
      · exact distinct same (show nameOf ".dynsym" ≠ nameOf ".rela.dyn" by decide)
      · exact distinct same (show nameOf ".dynstr" ≠ nameOf ".rela.dyn" by decide)
      · exact distinct same
          (show nameOf ".gnu.version" ≠ nameOf ".rela.dyn" by decide)
      · exact distinct same
          (show nameOf ".gnu.version_r" ≠ nameOf ".rela.dyn" by decide)
      · exact same
    · exact other isRelaPlt (show nameOf ".rela.plt" ≠ nameOf ".rela.dyn" by decide)
  have dynamic : b ∈ input.addedDynamic pre → b = input.reservedRelaDyn dynj := by
    intro isOwn
    rcases List.mem_map.mp isOwn with ⟨_, _, rfl⟩
    exact absurd named (show nameOf ".dynamic" ≠ nameOf ".rela.dyn" by decide)
  rw [added, List.mem_append, List.mem_append, List.mem_append, List.mem_append,
    List.mem_append, List.mem_append] at isAdded
  rcases isAdded with (((((isNote | isTable) | isStub) | isGot) | isSlot) | isOwn) | isBss
  · exact notes isNote
  · exact tables isTable
  · exact other isStub (show nameOf ".plt" ≠ nameOf ".rela.dyn" by decide)
  · exact other isGot (show nameOf ".got" ≠ nameOf ".rela.dyn" by decide)
  · exact other isSlot (show nameOf ".got.plt" ≠ nameOf ".rela.dyn" by decide)
  · exact dynamic isOwn
  · exact other isBss (show nameOf ".bss" ≠ nameOf ".rela.dyn" by decide)

omit computed isDynamic in
theorem name_of_source {b : Builder} (isRelaDyn : b.source = .relaDyn) :
    b.name = nameOf ".rela.dyn" := by
  rw [Builder.source] at isRelaDyn
  cases found : synthesizedSources.lookup b.name with
  | none =>
      rw [found, Option.getD_none] at isRelaDyn
      cases nobits : b.isNobits with
      | true => rw [nobits] at isRelaDyn; cases isRelaDyn
      | false => rw [nobits] at isRelaDyn; cases isRelaDyn
  | some source =>
      rw [found, Option.getD_some] at isRelaDyn
      have each : ∀ entry ∈ synthesizedSources, entry.2 = .relaDyn →
          entry.1 = nameOf ".rela.dyn" := by decide
      exact each _ (Assoc.mem_of_lookup found) isRelaDyn

theorem size_of_own (own : ∀ member ∈ input.contributors,
      input.outName member.sec.name ≠ nameOf ".rela.dyn") {s : OutputSection}
    (isPlaced : s ∈ (input.placeAll (input.ordered computed.pre)).placement.sections)
    (isRelaDyn : s.source = .relaDyn) :
    s.shSize = (input.reservedRelaDyn dynj).size := by
  rcases Pairwise.exists_left (input.placeAll_of (input.ordered computed.pre)).sections
    isPlaced with ⟨raised, among, shAddr, rfl, _⟩
  have powers := (input.classified_ordered computed.pre input.groups).tls_powers
    (groups_aligned computed.aligned)
  rcases exists_unraised powers among with ⟨b, isOrdered, align, rfl, _⟩
  have named : b.name = nameOf ".rela.dyn" := name_of_source isRelaDyn
  change b.size = _
  rcases mem_ordered.mp isOrdered with isGroup | isAdded
  · rcases opens_of_mem_groups isGroup with ⟨first, ⟨rest, members⟩, _, _, _, rfl⟩
    have contributes : first ∈ input.contributors :=
      (mem_membersOf.mp (members ▸ List.mem_cons_self)).1
    exact absurd named (own first contributes)
  · rw [mem_added_named isDynamic isAdded named]

theorem exists_reserved (some : (input.reservedRelaDyn dynj).size ≠ 0) :
    ∃ s ∈ (input.placeAll (input.ordered computed.pre)).placement.sections,
      s.source = .relaDyn := by
  have powers := (input.classified_ordered computed.pre input.groups).tls_powers
    (groups_aligned computed.aligned)
  have isAdded : input.reservedRelaDyn dynj ∈ input.added computed.pre := by
    have isTable : input.reservedRelaDyn dynj ∈ input.addedTables computed.pre := by
      refine List.mem_append_left _ (List.mem_filter.mpr ⟨?_, bne_iff_ne.mpr some⟩)
      rw [isDynamic, Option.toList_some, List.flatMap_singleton, roDyn, reservedRelaDyn]
      simp only [List.mem_cons, true_or, or_true]
    rw [added]
    simp only [List.mem_append, isTable, true_or, or_true]
  rcases exists_raised powers (mem_ordered.mpr (.inr isAdded)) with
    ⟨raised, among, align, rfl, _⟩
  rcases Pairwise.exists_right (input.placeAll_of (input.ordered computed.pre)).sections
    among with ⟨s, isPlaced, _, rfl, _⟩
  exact ⟨_, isPlaced, rfl⟩

theorem exists_relaDynSection (some : (input.reservedRelaDyn dynj).size ≠ 0) :
    ∃ s ∈ (input.placeAll (input.ordered computed.pre)).placement.sections,
      s.source = .relaDyn ∧ layout.relaDynSectionSize = s.shSize := by
  rcases input.fileCursor_extends (input.ordered computed.pre) with ⟨more, _, added, _⟩
  rcases @exists_sections input _ computed.pre computed.entry more
    (by rw [sections_placement]; exact added) with ⟨placed, fileOnly, names, split, shape⟩
  rcases exists_reserved computed isDynamic some with ⟨s, isPlaced, isRelaDyn⟩
  rcases Pairwise.exists_right shape.placed_of isPlaced with ⟨finished, inPlaced, isFinished⟩
  cases found : placed.find? fun s => s.source == .relaDyn with
  | none =>
      have absent := List.find?_eq_none.mp found finished inPlaced
      exact absurd (beq_iff_eq.mpr (isFinished.source.trans isRelaDyn)) absent
  | some first =>
      have chosen := List.find?_some found
      have isFirst : first.source = .relaDyn := beq_iff_eq.mp chosen
      rcases Pairwise.exists_left shape.placed_of (List.mem_of_find?_eq_some found) with
        ⟨before, isBefore, finishes⟩
      have source : before.source = .relaDyn := finishes.source.symm.trans isFirst
      refine ⟨before, isBefore, source, ?_⟩
      have sections : layout.outputSections = placed ++ (fileOnly ++ [names]) :=
        (congrArg Layout.outputSections computed.assembled).trans split
      rw [Layout.relaDynSectionSize, sections, List.find?_append, found, Option.some_or,
        Option.map_some, Option.getD_some]
      exact finishes.shSize (by rw [source]; decide)

theorem fits_of_reserved {relocs : DynamicRelocs} {tls : List TlsDynReloc}
    (reserved : Reserved dynj relocs tls) (small : 24 * input.nRelaDyn dynj < 2 ^ 64)
    (own : ∀ member ∈ input.contributors,
      input.outName member.sec.name ≠ nameOf ".rela.dyn") :
    layout.RelaDynFits relocs tls := by
  have hasRoom := length_allRelas_le computed isDynamic reserved
  have exact : (input.reservedRelaDyn dynj).size.toNat = 24 * input.nRelaDyn dynj := by
    change (UInt64.ofNat (input.nRelaDyn dynj) * relaSize).toNat = _
    rw [UInt64.toNat_mul, UInt64.toNat_ofNat', Nat.mod_mul_mod]
    change (input.nRelaDyn dynj * 24) % 2 ^ 64 = _
    rw [Nat.mul_comm, Nat.mod_eq_of_lt small]
  rw [Layout.RelaDynFits, relaDynDemand_computed computed isDynamic]
  by_cases empty : input.nRelaDyn dynj = 0
  · rw [empty] at hasRoom
    omega
  · have some : (input.reservedRelaDyn dynj).size ≠ 0 := by
      intro isZero
      rw [isZero, UInt64.toNat_zero] at exact
      omega
    rcases exists_relaDynSection computed isDynamic some with
      ⟨s, isPlaced, isRelaDyn, size⟩
    rw [size, size_of_own computed isDynamic own isPlaced isRelaDyn, exact]
    exact Nat.mul_le_mul_left 24 hasRoom

end Computed

/-- The names that input sections get without a linker script end at their second dot. -/
theorem outputSectionName_ne_relaDyn (name : Name) :
    outputSectionName name ≠ nameOf ".rela.dyn" := by
  intro same
  rw [outputSectionName] at same
  generalize (if (fromUtf8 name).isSome = true then name else nameOf ".unknown") = s at same
  split at same
  · rename_i isNote
    rw [same] at isNote
    exact absurd isNote (by decide)
  · cases s with
    | nil => exact absurd same (by decide)
    | cons first rest =>
        dsimp only at same
        split at same
        · rename_i continued
          rw [show rest = (nameOf ".rela.dyn").tail from congrArg List.tail same] at continued
          exact absurd continued (by decide)
        · have tail : (rest.takeWhile fun byte => byte != 46) = (nameOf ".rela.dyn").tail :=
            congrArg List.tail same
          have dot : (46 : UInt8) ∈ rest.takeWhile fun byte => byte != 46 := by
            rw [tail]
            decide
          have kept := List.all_eq_true.mp List.all_takeWhile 46 dot
          exact absurd kept (by decide)

theorem outName_ne_relaDyn {input : LayoutInput}
    (scripts : ∀ script, input.config.script = some script →
      ∀ member ∈ input.contributors,
        script.outputForInput member.sec.name ≠ some (nameOf ".rela.dyn")) :
    ∀ member ∈ input.contributors,
      input.outName member.sec.name ≠ nameOf ".rela.dyn" := by
  intro member contributes
  rw [outName]
  cases isScript : input.config.script with
  | none => exact outputSectionName_ne_relaDyn _
  | some script =>
      rw [Option.bind_some]
      cases chosen : script.outputForInput member.sec.name with
      | none => exact outputSectionName_ne_relaDyn _
      | some out =>
          intro same
          exact scripts script isScript member contributes (chosen.trans (congrArg some same))

section Main

variable {input : LayoutInput} {layout : Layout} {dynj : DynamicInfo}
variable {relocs : DynamicRelocs} {tls : List TlsDynReloc}

theorem fits_of_wellFormed (succeeded : input.computeLayoutIcf = .ok layout)
    (isDynamic : input.dynamic = some dynj)
    (wellFormed : input.RelaDynWellFormed dynj layout relocs tls
      (layout.appendAllDynamicRelocs relocs tls)) : layout.RelaDynFits relocs tls := by
  rcases computed_of_ok succeeded with ⟨computed⟩
  rw [Layout.RelaDynFits, relaDynDemand_computed computed isDynamic, ← wellFormed.whole]
  exact wellFormed.within

/-- The image is well formed exactly when the first section called `.rela.dyn` has room for
it, which it has unless an input section is called so. -/
theorem relaDynWellFormed_iff (succeeded : input.computeLayoutIcf = .ok layout)
    (isDynamic : input.dynamic = some dynj) (reserved : Reserved dynj relocs tls) :
    (input.RelaDynWellFormed dynj layout relocs tls
        (layout.appendAllDynamicRelocs relocs tls) ↔ layout.RelaDynFits relocs tls) ∧
      (24 * input.nRelaDyn dynj < 2 ^ 64 → (∀ script, input.config.script = some script →
        ∀ member ∈ input.contributors,
          script.outputForInput member.sec.name ≠ some (nameOf ".rela.dyn")) →
        layout.RelaDynFits relocs tls) := by
  rcases computed_of_ok succeeded with ⟨computed⟩
  exact ⟨⟨fits_of_wellFormed succeeded isDynamic,
    wellFormed_of_fits computed isDynamic reserved⟩, fun small scripts =>
    fits_of_reserved computed isDynamic reserved small (outName_ne_relaDyn scripts)⟩

end Main

/-! A program with one pointer and a read-only section. -/

private def pointerPlain (index : Nat) (name : String) (kind : SectionKind)
    (flags : UInt64) : InputSection where
  index := index
  name := nameOf name
  kind := kind
  shType := 1
  data := ⟨.owned 0, 0, 8⟩
  align := 8
  size := 8
  flags := flags
  relocs := []

private def pointerStart : InputSymbol where
  index := 1
  name := nameOf "_start"
  binding := .global
  isUndefined := false
  isCommon := false
  isIfunc := false
  stType := 2
  visibility := 0
  sectionIndex := some 1
  value := 0
  size := 8

private def pointerObject : InputObject :=
  InputObject.assemble "main.o" 2 1
    [pointerPlain 1 ".text" .text (shfAlloc ||| shfExecinstr),
      pointerPlain 2 ".constant" .other shfAlloc] [pointerStart] []

private def pointerDynamic : DynamicInfo where
  interp := some (nameOf "/lib64/ld-linux-x86-64.so.2")
  pie := true
  nRelative := 1

/-- The read-only section goes to `.rela.dyn` when a linker script says so. -/
private def pointerInput (script : Option ScriptLayout) : LayoutInput where
  arena := { mmaps := [], owned := [[0, 0, 0, 0, 0, 0, 0, 0]] }
  objects := [pointerObject]
  symbols :=
    match SymbolTable.processAll [⟨pointerObject, []⟩] with
    | .ok table => table
    | .error _ => SymbolTable.new
  dynamic := some pointerDynamic
  config := { script := script }

private def pointerScript : ScriptLayout where
  outputSections := [{ name := ".rela.dyn".toList, patterns := [".constant".toList] }]
  keepPatterns := []

private def pointerRelocs : DynamicRelocs where
  relative := [(0x403000, 0x401000)]

private theorem pointer_reserved : Reserved pointerDynamic pointerRelocs [] := by
  constructor <;> decide

theorem relaDynWellFormed_pointer :
    ∃ layout, (pointerInput none).computeLayoutIcf = .ok layout ∧
      (pointerInput none).RelaDynWellFormed pointerDynamic layout pointerRelocs []
        (layout.appendAllDynamicRelocs pointerRelocs []) := by
  rcases @exists_layout (pointerInput none) (by decide +kernel) with ⟨layout, computed⟩
  have both := relaDynWellFormed_iff computed rfl pointer_reserved
  exact ⟨layout, computed, both.1.mpr (both.2 (by decide +kernel)
    (fun script isScript => nomatch isScript))⟩

/-- The input section comes first and leaves no room. -/
theorem relaDyn_not_wellFormed :
    ∃ layout, (pointerInput (some pointerScript)).computeLayoutIcf = .ok layout ∧
      Reserved pointerDynamic pointerRelocs [] ∧
      ¬ (pointerInput (some pointerScript)).RelaDynWellFormed pointerDynamic layout
        pointerRelocs [] (layout.appendAllDynamicRelocs pointerRelocs []) := by
  rcases @exists_layout (pointerInput (some pointerScript)) (by decide +kernel) with
    ⟨layout, computed⟩
  refine ⟨layout, computed, pointer_reserved, fun wellFormed => ?_⟩
  have tooSmall := @any_of_computed (pointerInput (some pointerScript)) (fun layout =>
    !decide (layout.RelaDynFits pointerRelocs [])) layout (by decide +kernel) computed
  rw [Bool.not_eq_true', decide_eq_false_iff_not] at tooSmall
  exact tooSmall (fits_of_wellFormed computed rfl wellFormed)

end LayoutInput

end Peony
