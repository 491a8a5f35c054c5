import Peony.Layout.ValueSums

namespace Peony

/-! The sums of a layout, and when all of them are those of the integers. -/

open Spans

def SumExact (first second : UInt64) : Prop :=
  (first + second).toNat = first.toNat + second.toNat

theorem sumExact_iff {first second : UInt64} :
    SumExact first second ↔ first.toNat + second.toNat < 2 ^ 64 := by
  rw [SumExact, UInt64.toNat_add]
  constructor
  · intro exact
    rw [← exact]
    exact Nat.mod_lt _ (by decide)
  · exact Nat.mod_eq_of_lt

theorem SumExact.of_le {first second low part : UInt64}
    (exact : SumExact first second) (isLow : low.toNat ≤ first.toNat)
    (isPart : part.toNat ≤ second.toNat) : SumExact low part := by
  rw [sumExact_iff] at exact ⊢
  omega

/-- A difference of signed words is exact when it is a signed word. -/
theorem jump_exact_iff (slot stub : UInt64) :
    (slot.toInt64 - (stub.toInt64 + 6)).toInt =
        (slot.toNat : Int) - (stub.toNat + 6) ↔
      -2 ^ 63 ≤ (slot.toNat : Int) - (stub.toNat + 6) ∧
        (slot.toNat : Int) - (stub.toNat + 6) < 2 ^ 63 := by
  have word (value : UInt64) : value.toInt64.toInt = (value.toNat : Int).bmod (2 ^ 64) :=
    BitVec.toInt_eq_toNat_bmod _
  have six : (6 : Int64).toInt = 6 := rfl
  have difference : (slot.toInt64 - (stub.toInt64 + 6)).toInt =
      ((slot.toNat : Int) - (stub.toNat + 6)).bmod (2 ^ 64) := by
    rw [Int64.toInt_sub, Int64.toInt_add, word, word, six]
    simp
  constructor
  · intro exact
    rw [← exact]
    exact ⟨Int64.le_toInt _, Int64.toInt_lt _⟩
  · rintro ⟨low, high⟩
    rw [difference]
    exact Int.bmod_eq_of_le (by omega) (by omega)

/-! ## The TLS block -/

/-- The sections of the TLS block by their alignments and sizes, and the end of
the block. -/
@[irreducible] def blockRun (shapes : List (UInt64 × UInt64)) : List Cursor.Slot :=
  shapes.map (fun shape => slotOf shape.1 shape.2) ++
    [slotOf (shapes.foldl (fun align shape => max align (max shape.1 1)) 1) 0]

def OutputSection.shape (s : OutputSection) : UInt64 × UInt64 :=
  (s.shAddralign, s.shSize)

def Builder.shape (b : Builder) : UInt64 × UInt64 := (b.align, b.size)

def tlsShapes (sections : List OutputSection) : List (UInt64 × UInt64) :=
  (tlsSections sections).map OutputSection.shape

namespace TlsBlock

theorem foldl_add (sections : List OutputSection) (block : TlsBlock) :
    (sections.foldl add block).off = Cursor.finish block.off
        (sections.map fun s => slotOf s.shAddralign s.shSize) ∧
      (sections.foldl add block).align = sections.foldl
        (fun align s => max align (max s.shAddralign 1)) block.align := by
  induction sections generalizing block with
  | nil => exact ⟨rfl, rfl⟩
  | cons s rest induction =>
      rcases induction (block.add s) with ⟨off, align⟩
      refine ⟨off.trans ?_, align⟩
      rw [List.map_cons]
      change _ = Cursor.finish (Cursor.Slot.advance _ _) _
      rw [← slotOf_max, advance_slotOf]
      rfl

/-- What is in the file is the bytes of the initialized sections. -/
theorem foldl_filesz (sections : List OutputSection) (block : TlsBlock)
    (fits : Cursor.Fits block.off
      (sections.map fun s => slotOf s.shAddralign s.shSize))
    (below : block.filesz.toNat ≤ block.off.toNat) :
    (sections.foldl add block).filesz.toNat = block.filesz.toNat +
      ((sections.filter fun s => s.kind == .tdata).map fun s => s.shSize.toNat).sum := by
  induction sections generalizing block with
  | nil => rfl
  | cons s rest induction =>
      have next : (slotOf s.shAddralign s.shSize).advance block.off =
          (block.add s).off := by
        rw [← slotOf_max, advance_slotOf]
        rfl
      have moved := fits.1.toNat_advance
      have placed := fits.1.le_place
      have restFits := fits.2
      rw [next] at moved restFits
      change (block.add s).off.toNat = ((slotOf s.shAddralign s.shSize).place
        block.off).toNat + s.shSize.toNat at moved
      change block.off.toNat ≤ ((slotOf s.shAddralign s.shSize).place
        block.off).toNat at placed
      have small := (block.add s).off.toNat_lt
      have filesz : (block.add s).filesz.toNat = block.filesz.toNat +
          if s.kind == .tdata then s.shSize.toNat else 0 := by
        by_cases isData : s.kind = .tdata
        · rw [TlsBlock.add, if_pos isData, if_pos (beq_iff_eq.mpr isData),
            UInt64.toNat_add, Nat.mod_eq_of_lt (by omega)]
        · rw [TlsBlock.add, if_neg isData, if_neg (by rwa [beq_iff_eq]), Nat.add_zero]
      rw [List.foldl_cons, induction _ restFits, filesz, List.filter_cons]
      · split
        · rw [List.map_cons, List.sum_cons, Nat.add_assoc]
        · rw [Nat.add_zero]
      · rw [filesz]
        split <;> omega

end TlsBlock

theorem tlsBlock_size (sections : List OutputSection) :
    (tlsBlock sections).size = Cursor.finish 0 (blockRun (tlsShapes sections)) := by
  have added := TlsBlock.foldl_add (tlsSections sections) {}
  rw [TlsBlock.size, tlsBlock, added.1, added.2, blockRun, Cursor.finish_append,
    LayoutInput.finish_single, tlsShapes, List.map_map, List.foldl_map]
  exact (UInt64.add_zero _).symm

theorem blockRun_aligned {shapes : List (UInt64 × UInt64)}
    (powers : ∀ shape ∈ shapes, shape.1.toNat.isPowerOfTwo) :
    ∀ slot ∈ blockRun shapes, slot.IsAligned := by
  have largest (shapes : List (UInt64 × UInt64)) (align : UInt64)
      (power : align.toNat.isPowerOfTwo)
      (each : ∀ shape ∈ shapes, shape.1.toNat.isPowerOfTwo) :
      (shapes.foldl (fun align shape => max align (max shape.1 1))
        align).toNat.isPowerOfTwo := by
    induction shapes generalizing align with
    | nil => exact power
    | cons shape rest induction =>
        refine induction _ ?_ fun other present =>
          each other (List.mem_cons_of_mem _ present)
        rw [toNat_max, toNat_max]
        exact Alignment.isPowerOfTwo_max power
          (Alignment.isPowerOfTwo_max (each shape List.mem_cons_self) ⟨0, rfl⟩)
  intro slot present
  rw [blockRun] at present
  rcases List.mem_append.mp present with inShapes | isEnd
  · rcases List.mem_map.mp inShapes with ⟨shape, isMember, rfl⟩
    exact slotOf_isAligned (powers shape isMember) _
  · rw [List.mem_singleton.mp isEnd]
    exact slotOf_isAligned (largest shapes 1 ⟨0, rfl⟩ powers) 0

def Builders.tlsShapes (builders : Builders) : List (UInt64 × UInt64) :=
  (builders.all.filter (fun b => b.kind == .tdata)).map Builder.shape ++
    (builders.all.filter fun b => b.kind == .tbss).map Builder.shape

namespace LayoutInput

variable (input : LayoutInput)

/-! ## Tables -/

def dynamicEntries (pre : DynPrebuild) (dynj : DynamicInfo) : Nat :=
  input.dynEntries pre dynj
    (input.groupsOf (fun b => b.perm == .rx) ++ input.addedStubs)
    (input.groupsOf (fun b => b.perm == .rw && !b.isNobits) ++ input.addedGot ++
      input.addedSlots)

/-- The sizes of the tables that the linker makes, as words and as integers. -/
def tableSizes (pre : DynPrebuild) (ordered : Builders) : List (UInt64 × Nat) :=
  [ (input.scalarGotBytes, input.gotSyms.length * 8),
    (input.tls.byteSize, input.tls.gd.length * 16 + input.tls.desc.length * 16 +
      (if input.tls.ldm then 16 else 0) + input.tls.ie.length * 8),
    (input.gotTotal, input.gotSyms.length * 8 + (input.tls.gd.length * 16 +
      input.tls.desc.length * 16 + (if input.tls.ldm then 16 else 0) +
      input.tls.ie.length * 8)),
    (12 + 8 * UInt64.ofNat input.nFdes, 12 + 8 * input.nFdes),
    (UInt64.ofNat ((input.symtabPlan ordered).entries.length + 1) * symSize,
      ((input.symtabPlan ordered).entries.length + 1) * symSize.toNat),
    (input.namesSize pre ordered, (input.fileEnd pre ordered).shstrtab.length),
    (input.headersSize pre ordered,
      ((input.fileEnd pre ordered).sections.length + 1) * shdrSize.toNat) ] ++
    match input.dynamic with
    | none => []
    | some dynj =>
        [ (UInt64.ofNat (input.nRelaDyn dynj) * relaSize,
            input.nRelaDyn dynj * relaSize.toNat),
          (UInt64.ofNat input.nPlt * relaSize, input.nPlt * relaSize.toNat),
          (UInt64.ofNat input.nPlt * 16, input.nPlt * 16),
          (UInt64.ofNat (input.nPlt + 3) * 8, (input.nPlt + 3) * 8),
          (UInt64.ofNat (input.dynamicEntries pre dynj) * 16,
            input.dynamicEntries pre dynj * 16) ]

theorem tableSizes_ofNat (pre : DynPrebuild) (ordered : Builders) :
    ∀ table ∈ input.tableSizes pre ordered, table.1 = UInt64.ofNat table.2 := by
  have product (count : Nat) (word : UInt64) :
      UInt64.ofNat count * word = UInt64.ofNat (count * word.toNat) := by
    rw [UInt64.ofNat_mul, UInt64.ofNat_toNat]
  have scalars : input.scalarGotBytes = UInt64.ofNat (input.gotSyms.length * 8) :=
    product _ 8
  have slots : input.tls.byteSize = UInt64.ofNat (input.tls.gd.length * 16 +
      input.tls.desc.length * 16 + (if input.tls.ldm then 16 else 0) +
      input.tls.ie.length * 8) := by
    rw [TlsGotInfo.byteSize]
    cases input.tls.ldm <;>
      simp only [UInt64.ofNat_add, UInt64.ofNat_mul] <;> rfl
  intro table present
  rw [tableSizes] at present
  simp only [List.mem_append, List.mem_cons, List.not_mem_nil, or_false] at present
  rcases present with (rfl | rfl | rfl | rfl | rfl | rfl | rfl) | isDynamic
  · exact scalars
  · exact slots
  · change input.gotTotal = UInt64.ofNat _
    rw [gotTotal, scalars, slots, ← UInt64.ofNat_add]
  · rw [UInt64.ofNat_add, UInt64.ofNat_mul]
    rfl
  · exact product _ symSize
  · rfl
  · exact product _ shdrSize
  · split at isDynamic
    · exact absurd isDynamic List.not_mem_nil
    · simp only [List.mem_cons, List.not_mem_nil, or_false] at isDynamic
      rcases isDynamic with rfl | rfl | rfl | rfl | rfl
      · exact product _ relaSize
      · exact product _ relaSize
      · exact product _ 16
      · exact product _ 8
      · exact product _ 16

theorem tableSizes_exact_iff {pre : DynPrebuild} {ordered : Builders}
    {table : UInt64 × Nat} (present : table ∈ input.tableSizes pre ordered) :
    table.1.toNat = table.2 ↔ table.2 < 2 ^ 64 := by
  rw [input.tableSizes_ofNat pre ordered table present]
  constructor
  · intro exact
    rw [← exact]
    exact UInt64.toNat_lt _
  · exact UInt64.toNat_ofNat_of_lt'

/-! ## Slots -/

def gotRun : List Cursor.Slot :=
  List.replicate input.gotSyms.length (slotOf 1 8) ++
    List.replicate input.tls.gd.length (slotOf 1 16) ++
    List.replicate input.tls.desc.length (slotOf 1 16) ++
    (if input.tls.ldm then [slotOf 1 16] else []) ++
    List.replicate input.tls.ie.length (slotOf 1 8)

def pltRun : List Cursor.Slot := List.replicate input.nPlt (slotOf 1 16)

def gotPltRun : List Cursor.Slot :=
  if input.nPlt > 0 then List.replicate (input.nPlt + 3) (slotOf 1 8) else []

/-- How far a slot is from the end of the jump of its stub. -/
def integerJump (ordered : Builders) (place : Nat) : Int :=
  ((input.integerVa ordered .gotPlt + (place + 3) * 8 : Nat) : Int) -
    ((input.integerVa ordered .plt + place * 16 : Nat) + 6)

/-! ## All sums -/

structure ExactSums (pre : DynPrebuild) (layout : Layout) : Prop where
  headers : (input.headerSize (input.ordered pre)).toNat = ehdrSize.toNat +
      (input.phnum (input.ordered pre)).toNat * phdrSize.toNat ∧
    SumExact input.base ehdrSize
  grouped : ∀ name,
    Cursor.IsExact 0 ((input.membersOf name).map Icf.Place.slot)
  common : Cursor.IsExact 0 input.bssSlots
  tables : ∀ table ∈ input.tableSizes pre (input.ordered pre),
    table.1.toNat = table.2
  addresses : Cursor.IsExact input.base (input.addressRun (input.ordered pre))
  passed : ∀ name ∈ input.passthroughNames,
    Cursor.IsExact 0 ((input.passthroughMembers name).map Icf.Place.passedSlot)
  file : Cursor.IsExact (input.contentEnd (input.ordered pre))
    (input.fileRun pre (input.ordered pre))
  block : Cursor.IsExact 0 (blockRun (tlsShapes layout.outputSections))
  blockBytes : (tlsBlock layout.outputSections).filesz.toNat =
    ((layout.outputSections.filter fun s => s.kind == .tdata).map
      fun s => s.shSize.toNat).sum
  inBlock : ∀ before s after,
    tlsSections layout.outputSections = before ++ s :: after →
      ∀ c ∈ s.contributions,
        SumExact (alignUp (before.foldl TlsBlock.add {}).off s.shAddralign) c.offset
  places : ∀ s ∈ layout.outputSections, ∀ c ∈ s.contributions,
    SumExact s.shAddr c.offset
  ends : ∀ s ∈ layout.outputSections, SumExact s.shAddr s.shSize
  offsets : ∀ s ∈ layout.outputSections, s.isLoaded = true →
    s.shOffset.toNat + input.base.toNat = s.shAddr.toNat
  segments : ∀ header ∈ layout.loadHeaders,
    header.pOffset.toNat + input.base.toNat = header.pVaddr.toNat ∧
      SumExact header.pVaddr header.pMemsz
  storage : ∀ entry ∈ input.commonSpace.offsets ++ input.copySpace.offsets,
    SumExact (commonBase layout.outputSections) entry.2
  got : Cursor.IsExact layout.gotBase input.gotRun
  plt : input.dynamic.isSome = true →
    Cursor.IsExact (vaOf layout.outputSections .plt) input.pltRun ∧
      Cursor.IsExact (vaOf layout.outputSections .gotPlt) input.gotPltRun
  jumps : input.dynamic.isSome = true → ∀ place < input.nPlt,
    let slotVa := vaOf layout.outputSections .gotPlt + UInt64.ofNat (place + 3) * 8
    let stubVa := vaOf layout.outputSections .plt + UInt64.ofNat place * 16
    (slotVa.toInt64 - (stubVa.toInt64 + 6)).toInt =
      (slotVa.toNat : Int) - (stubVa.toNat + 6)
  values : ∀ sum ∈ input.valueSums pre (input.ordered pre), SumExact sum.1 sum.2
  relocated : ∀ sum ∈ input.relocSums layout.outputSections, SumExact sum.1 sum.2

/-- The cursors, the tables, the values of the symbols and the offsets of the emitted
relocations stay below 2^64 in the integers, and the distance from each stub to its
slot is a signed word. -/
structure SumsFit (pre : DynPrebuild) : Prop where
  grouped : ∀ name,
    Cursor.exact 0 ((input.membersOf name).map Icf.Place.slot) < 2 ^ 64
  common : Cursor.exact 0 input.bssSlots < 2 ^ 64
  tables : ∀ table ∈ input.tableSizes pre (input.ordered pre), table.2 < 2 ^ 64
  addresses :
    Cursor.exact input.base.toNat (input.addressRun (input.ordered pre)) < 2 ^ 64
  passed : ∀ name ∈ input.passthroughNames,
    Cursor.exact 0 ((input.passthroughMembers name).map Icf.Place.passedSlot) <
      2 ^ 64
  file :
    Cursor.exact
      (Cursor.exact input.base.toNat (input.contentRun (input.ordered pre)) -
        input.base.toNat) (input.fileRun pre (input.ordered pre)) < 2 ^ 64
  block :
    Cursor.exact 0 (blockRun (relroOrder (input.ordered pre)).tlsShapes) < 2 ^ 64
  jumps : input.dynamic.isSome = true → ∀ place < input.nPlt,
    -2 ^ 63 ≤ input.integerJump (input.ordered pre) place ∧
      input.integerJump (input.ordered pre) place < 2 ^ 63
  values : ∀ sum ∈ input.integerValueSums pre (input.ordered pre),
    sum.1 + sum.2.toNat < 2 ^ 64
  relocated : ∀ sum ∈ input.integerRelocSums (input.ordered pre),
    sum.1 + sum.2.toNat < 2 ^ 64

variable {input}

/-! ## Sections the linker adds -/

theorem mem_got (pre : DynPrebuild) (isNeeded : input.gotTotal > 0) :
    Builder.writable (nameOf ".got") shtProgbits input.gotTotal ∈
      (input.ordered pre).rwPb := by
  have static : Builder.writable (nameOf ".got") shtProgbits input.gotTotal ∈
      (input.synthesize (bucket input.groups)).rwPb := by
    rw [synthesize, if_pos isNeeded]
    exact List.mem_append_right _ List.mem_cons_self
  rw [ordered, orderedBuilders, scriptOrder, mem_sortBuildersByScript,
    synthesizeDynamic]
  split
  · exact static
  · exact List.mem_append_left _ (List.mem_append_left _ static)

theorem mem_bss (pre : DynPrebuild) (isNeeded : input.copySpace.size > 0) :
    Builder.synthesized (nameOf ".bss") .bss (shfAlloc ||| shfWrite) shtNobits
      input.copySpace.align input.copySpace.size .rw true ∈
        (input.ordered pre).rwBss := by
  have static : Builder.synthesized (nameOf ".bss") .bss (shfAlloc ||| shfWrite)
      shtNobits input.copySpace.align input.copySpace.size .rw true ∈
        (input.synthesize (bucket input.groups)).rwBss := by
    rw [synthesize, if_pos isNeeded]
    exact List.mem_append_right _ List.mem_cons_self
  rw [ordered, orderedBuilders, scriptOrder, mem_sortBuildersByScript,
    synthesizeDynamic]
  split <;> exact static

theorem mem_plt (pre : DynPrebuild) (dynamic : input.dynamic.isSome = true)
    (isNeeded : input.nPlt > 0) :
    Builder.synthesized (nameOf ".plt") .text (shfAlloc ||| shfExecinstr)
        shtProgbits 16 (UInt64.ofNat input.nPlt * 16) .rx false ∈
          (input.ordered pre).rx ∧
      Builder.writable (nameOf ".got.plt") shtProgbits
        (UInt64.ofNat (input.nPlt + 3) * 8) ∈ (input.ordered pre).rwPb := by
  rcases Option.isSome_iff_exists.mp dynamic with ⟨dynj, isDynamic⟩
  have isTrue : decide (input.nPlt > 0) = true := decide_eq_true isNeeded
  rw [ordered, orderedBuilders, scriptOrder, mem_sortBuildersByScript,
    mem_sortBuildersByScript, synthesizeDynamic, isDynamic]
  simp only [isTrue, if_true]
  exact ⟨List.mem_append_right _ List.mem_cons_self,
    List.mem_append_left _ (List.mem_append_right _ List.mem_cons_self)⟩

/-! ## What fits is exact -/

theorem exact_replicate (cursor count : Nat) (size : UInt64) :
    Cursor.exact cursor (List.replicate count (slotOf 1 size)) =
      cursor + count * size.toNat := by
  induction count generalizing cursor with
  | zero => simp [Cursor.exact]
  | succ count induction =>
      have first : (slotOf 1 size).exact cursor = cursor + size.toNat :=
        congrArg (· + size.toNat) (Alignment.roundUp_one cursor)
      change Cursor.exact ((slotOf 1 size).exact cursor) _ = _
      rw [induction, first, Nat.succ_mul]
      omega

private theorem one_aligned (size : UInt64) : (slotOf 1 size).IsAligned :=
  slotOf_isAligned ⟨0, rfl⟩ size

theorem gotRun_aligned : ∀ slot ∈ input.gotRun, slot.IsAligned := by
  intro slot present
  simp only [gotRun, List.mem_append, List.mem_replicate, List.mem_ite_nil_right,
    List.mem_singleton] at present
  rcases present with (((⟨_, rfl⟩ | ⟨_, rfl⟩) | ⟨_, rfl⟩) | ⟨_, rfl⟩) | ⟨_, rfl⟩ <;>
    exact one_aligned _

theorem pltRun_aligned : ∀ slot ∈ input.pltRun, slot.IsAligned := by
  intro slot present
  rw [List.eq_of_mem_replicate present]
  exact one_aligned _

theorem gotPltRun_aligned : ∀ slot ∈ input.gotPltRun, slot.IsAligned := by
  intro slot present
  rw [gotPltRun] at present
  split at present
  · rw [List.eq_of_mem_replicate present]
    exact one_aligned _
  · exact absurd present List.not_mem_nil

theorem exact_gotRun (cursor : Nat) :
    Cursor.exact cursor input.gotRun = cursor + (input.gotSyms.length * 8 +
      (input.tls.gd.length * 16 + input.tls.desc.length * 16 +
        (if input.tls.ldm then 16 else 0) + input.tls.ie.length * 8)) := by
  have eight : (8 : UInt64).toNat = 8 := rfl
  have sixteen : (16 : UInt64).toNat = 16 := rfl
  simp only [gotRun, Cursor.exact_append, exact_replicate, eight, sixteen]
  cases input.tls.ldm with
  | false =>
      change cursor + _ + _ + _ + _ = cursor + (_ + (_ + _ + 0 + _))
      omega
  | true =>
      have one := exact_replicate (cursor + input.gotSyms.length * 8 +
        input.tls.gd.length * 16 + input.tls.desc.length * 16) 1 16
      rw [sixteen, List.replicate_one] at one
      rw [if_pos rfl, one, if_pos rfl]
      omega

theorem tlsShapes_assemble (pre : DynPrebuild) (ordered : Builders) (entry : UInt64) :
    tlsShapes (input.assemble pre ordered entry).outputSections =
      (relroOrder ordered).tlsShapes := by
  rcases input.fileCursor_extends ordered with ⟨more, _, added, _⟩
  rcases @exists_sections input _ pre entry more
    (by rw [sections_placement]; exact added) with
    ⟨placed, fileOnly, names, split, shape⟩
  have unplaced {kind : SectionKind} (isTls : kind ≠ .other) :
      (fileOnly ++ [names]).filter (fun s => s.kind == kind) = [] := by
    rw [List.filter_eq_nil_iff]
    intro s present
    have other : s.kind = .other := by
      rcases List.mem_append.mp present with isFileOnly | isNames
      · rcases Pairwise.exists_left shape.others_of isFileOnly with
          ⟨before, isMember, isFinished⟩
        exact isFinished.kind.trans (shape.fileOnly_of before isMember).kind
      · rw [List.mem_singleton.mp isNames]
        exact shape.names_of.kind
    rw [other, beq_iff_eq]
    exact isTls.symm
  have shapes {kind : SectionKind} (isTls : kind ≠ .other) :
      ((input.assemble pre ordered entry).outputSections.filter fun s =>
        s.kind == kind).map OutputSection.shape =
        ((relroOrder ordered).all.filter fun b => b.kind == kind).map
          Builder.shape := by
    rw [split, List.filter_append, unplaced isTls, List.append_nil]
    have finished : (placed.filter fun s => s.kind == kind).map
        OutputSection.shape =
          ((input.placeAll ordered).placement.sections.filter
            fun s => s.kind == kind).map OutputSection.shape := by
      refine Pairwise.map_filter_eq shape.placed_of fun s present finished isFinished => ?_
      rw [isFinished.kind, OutputSection.shape, OutputSection.shape,
        isFinished.shAddralign, isFinished.shSize (source_placed present)]
      exact ⟨rfl, rfl⟩
    refine finished.trans (Pairwise.map_filter_eq
      (input.placeAll_of ordered).sections ?_)
    rintro b _ s ⟨_, rfl, _⟩
    exact ⟨rfl, rfl⟩
  rw [Peony.tlsShapes, tlsSections, List.map_append, shapes (by decide),
    shapes (by decide)]
  rfl

section Computed

variable {layout : Layout} (computed : Computed input layout)

theorem tlsShapes_eq :
    tlsShapes layout.outputSections =
      (relroOrder (input.ordered computed.pre)).tlsShapes :=
  (congrArg (fun layout : Layout => tlsShapes layout.outputSections)
    computed.assembled).trans (tlsShapes_assemble _ _ _)

private theorem find_le {sections : List OutputSection} {ok : OutputSection → Bool}
    (inOrder : sections.Pairwise fun first second =>
      first.shAddr.toNat ≤ second.shAddr.toNat) (more : List OutputSection)
    {s : OutputSection} (present : s ∈ sections) (holds : ok s = true) :
    ((((sections ++ more).find? ok).map OutputSection.shAddr).getD 0).toNat ≤
      s.shAddr.toNat := by
  induction sections with
  | nil => exact absurd present List.not_mem_nil
  | cons first rest induction =>
      rw [List.pairwise_cons] at inOrder
      rw [List.cons_append, List.find?_cons]
      cases isFirst : ok first with
      | true =>
          rcases List.mem_cons.mp present with rfl | inRest
          · exact le_rfl
          · exact inOrder.1 s inRest
      | false =>
          rcases List.mem_cons.mp present with rfl | inRest
          · rw [isFirst] at holds
            exact nomatch holds
          · exact induction inOrder.2 inRest

section Fits

variable (noWrap : input.NoWrap computed.pre)

include noWrap

theorem split_sections :
    ∃ placed others, layout.outputSections = placed ++ others ∧
      List.Forall₂ OutputSection.Finished (input.loaded computed.pre) placed ∧
      ∀ s ∈ others, s.shAddr = 0 ∧ s.shFlags = 0 := by
  rcases laid_fileRun noWrap.file with ⟨more, added, _⟩
  rcases @exists_sections input _ computed.pre computed.entry more added with
    ⟨placed, fileOnly, names, split, shape⟩
  refine ⟨placed, fileOnly ++ [names],
    (congrArg Layout.outputSections computed.assembled).trans split,
    shape.placed_of, ?_⟩
  intro s present
  rcases List.mem_append.mp present with isFileOnly | isNames
  · rcases Pairwise.exists_left shape.others_of isFileOnly with
      ⟨before, isMember, isFinished⟩
    have isFileOnly := shape.fileOnly_of before isMember
    exact ⟨isFinished.shAddr.trans isFileOnly.address,
      isFinished.shFlags.trans isFileOnly.flags⟩
  · rw [List.mem_singleton.mp isNames]
    exact ⟨shape.names_of.shAddr, shape.names_of.shFlags⟩

private theorem placed_end {s : OutputSection}
    (present : s ∈ input.loaded computed.pre) : SumExact s.shAddr s.shSize := by
  have within := (partsLaid noWrap.addresses).image.within
    (List.mem_map_of_mem present)
  exact sumExact_iff.mpr (within.2.trans_lt (UInt64.toNat_lt _))

theorem section_end {s : OutputSection} (present : s ∈ layout.outputSections) :
    SumExact s.shAddr s.shSize := by
  rcases split_sections computed noWrap with ⟨placed, others, split, isPlaced, unloaded⟩
  rw [split] at present
  rcases List.mem_append.mp present with inPlaced | isOther
  · rcases Pairwise.exists_left isPlaced inPlaced with ⟨before, isLoaded, isFinished⟩
    rw [isFinished.shAddr, isFinished.shSize (source_placed isLoaded)]
    exact placed_end computed noWrap isLoaded
  · rw [sumExact_iff, (unloaded s isOther).1]
    exact (Nat.zero_add _).trans_lt (UInt64.toNat_lt _)

theorem offset_le_size {s : OutputSection} (present : s ∈ layout.outputSections)
    {c : SectionContribution} (among : c ∈ s.contributions) :
    c.offset.toNat ≤ s.shSize.toNat :=
  (Nat.le_add_right _ _).trans ((contributions_laid computed noWrap present).within
    (List.mem_map_of_mem among)).2

theorem firstAddress_le {ok : OutputSection → Bool}
    (stable : ∀ s finished, s.Finished finished → ok finished = ok s)
    {s : OutputSection} (present : s ∈ input.loaded computed.pre)
    (holds : ok s = true) :
    (((layout.outputSections.find? ok).map OutputSection.shAddr).getD 0).toNat ≤
      s.shAddr.toNat := by
  rcases split_sections computed noWrap with ⟨placed, others, split, isPlaced, _⟩
  rcases Pairwise.exists_right isPlaced present with ⟨finished, inPlaced, isFinished⟩
  rw [split, ← isFinished.shAddr]
  refine find_le ?_ others inPlaced ((stable s finished isFinished).trans holds)
  have addresses : placed.map (fun s => s.shAddr.toNat) =
      (input.loaded computed.pre).map fun s => s.shAddr.toNat :=
    Pairwise.map_eq isPlaced fun s finished isFinished =>
      congrArg UInt64.toNat isFinished.shAddr
  have inOrder : (placed.map fun s => s.shAddr.toNat).Pairwise (· ≤ ·) := by
    have image := (partsLaid noWrap.addresses).image.pairwise
    rw [List.pairwise_map] at image
    rw [addresses, List.pairwise_map]
    exact image.imp fun below => (Nat.le_add_right _ _).trans below
  exact List.pairwise_map.mp inOrder

omit noWrap in
/-- A section that is added to the writable or the executable ones is placed. -/
theorem exists_added {b : Builder}
    (present : b ∈ (input.ordered computed.pre).rx ++
      ((input.ordered computed.pre).rwPb ++ (input.ordered computed.pre).rwBss)) :
    ∃ s ∈ input.loaded computed.pre, s.source = b.source ∧
      s.contributions = b.contributions ∧ s.shSize = b.size := by
  have raised : ∃ raised ∈ (relroOrder (input.ordered computed.pre)).all,
      b.RaisedTo raised := by
    rcases relroOrder_raised ((input.classified_ordered computed.pre
      input.groups).tls_powers (groups_aligned computed.aligned)) with ⟨rwPb, rwBss⟩
    simp only [Builders.all, relroOrder_ro, relroOrder_rx, List.mem_append]
    rcases List.mem_append.mp present with inRx | inRw
    · exact ⟨b, .inl (.inr inRx), .refl b⟩
    · rcases List.mem_append.mp inRw with inPb | inBss
      · rcases Pairwise.exists_right rwPb (mem_sortBy.mpr inPb) with
          ⟨raised, isMember, raises⟩
        exact ⟨raised, .inr (.inl isMember), raises⟩
      · rcases Pairwise.exists_right rwBss (mem_sortBy.mpr inBss) with
          ⟨raised, isMember, raises⟩
        exact ⟨raised, .inr (.inr isMember), raises⟩
  rcases raised with ⟨raised, isMember, ⟨align, rfl, _⟩⟩
  rcases Pairwise.exists_right (input.placeAll_of _).sections isMember with
    ⟨s, isPlaced, ⟨_, rfl, _⟩⟩
  exact ⟨_, isPlaced, rfl, rfl, rfl⟩

private theorem vaOf_added {b : Builder}
    (present : b ∈ (input.ordered computed.pre).rx ++
      ((input.ordered computed.pre).rwPb ++ (input.ordered computed.pre).rwBss)) :
    SumExact (vaOf layout.outputSections b.source) b.size := by
  rcases exists_added computed present with ⟨s, isPlaced, source, _, size⟩
  rw [← size]
  refine (placed_end computed noWrap isPlaced).of_le ?_ le_rfl
  refine firstAddress_le computed noWrap (fun before finished isFinished => ?_)
    isPlaced (by rw [source, beq_self_eq_true])
  rw [isFinished.source]

/-! ### Slots -/

variable (tables : ∀ table ∈ input.tableSizes computed.pre (input.ordered computed.pre),
  table.1.toNat = table.2)

include tables

omit noWrap in
private theorem gotTotal_toNat :
    input.gotTotal.toNat = input.gotSyms.length * 8 + (input.tls.gd.length * 16 +
      input.tls.desc.length * 16 + (if input.tls.ldm then 16 else 0) +
      input.tls.ie.length * 8) := by
  have present : (input.gotTotal, input.gotSyms.length * 8 +
      (input.tls.gd.length * 16 + input.tls.desc.length * 16 +
        (if input.tls.ldm then 16 else 0) + input.tls.ie.length * 8)) ∈
      input.tableSizes computed.pre (input.ordered computed.pre) := by
    simp [tableSizes]
  exact tables _ present

theorem got_exact : Cursor.IsExact layout.gotBase input.gotRun := by
  rw [Cursor.isExact_iff gotRun_aligned, Cursor.fits_iff gotRun_aligned,
    exact_gotRun, ← gotTotal_toNat computed tables]
  have isBase : (input.assemble computed.pre (input.ordered computed.pre)
      computed.entry).gotBase = vaOf (input.assemble computed.pre
        (input.ordered computed.pre) computed.entry).outputSections .got := by
    simp only [assemble]
  rw [← computed.assembled] at isBase
  rw [isBase]
  rcases Nat.eq_zero_or_pos input.gotTotal.toNat with isZero | positive
  · rw [isZero]
    exact UInt64.toNat_lt _
  · have added := mem_got computed.pre (UInt64.lt_iff_toNat_lt.mpr positive)
    have gotEnd := vaOf_added computed noWrap
      (List.mem_append_right _ (List.mem_append_left _ added))
    have source : (Builder.writable (nameOf ".got") shtProgbits
        input.gotTotal).source = .got := rfl
    rw [source] at gotEnd
    exact sumExact_iff.mp gotEnd

/-- The stubs and their slots end in the address space. -/
theorem plt_ends (dynamic : input.dynamic.isSome = true) (positive : 0 < input.nPlt) :
    (vaOf layout.outputSections .plt).toNat + input.nPlt * 16 < 2 ^ 64 ∧
      (vaOf layout.outputSections .gotPlt).toNat + (input.nPlt + 3) * 8 < 2 ^ 64 := by
  rcases Option.isSome_iff_exists.mp dynamic with ⟨dynj, isDynamic⟩
  have stubs : (UInt64.ofNat input.nPlt * 16).toNat = input.nPlt * 16 :=
    tables (_, _) (by simp [tableSizes, isDynamic])
  have slots : (UInt64.ofNat (input.nPlt + 3) * 8).toNat = (input.nPlt + 3) * 8 :=
    tables (_, _) (by simp [tableSizes, isDynamic])
  have added := mem_plt computed.pre dynamic positive
  have pltEnd := sumExact_iff.mp (vaOf_added computed noWrap
    (List.mem_append_left _ added.1))
  have gotPltEnd := sumExact_iff.mp (vaOf_added computed noWrap
    (List.mem_append_right _ (List.mem_append_left _ added.2)))
  exact ⟨stubs ▸ pltEnd, slots ▸ gotPltEnd⟩

theorem plt_exact (dynamic : input.dynamic.isSome = true) :
    Cursor.IsExact (vaOf layout.outputSections .plt) input.pltRun ∧
      Cursor.IsExact (vaOf layout.outputSections .gotPlt) input.gotPltRun := by
  rw [Cursor.isExact_iff pltRun_aligned, Cursor.fits_iff pltRun_aligned,
    Cursor.isExact_iff gotPltRun_aligned, Cursor.fits_iff gotPltRun_aligned]
  rcases Nat.eq_zero_or_pos input.nPlt with none | positive
  · have empty (cursor : UInt64) : Cursor.exact cursor.toNat [] < 2 ^ 64 :=
      cursor.toNat_lt
    rw [pltRun, gotPltRun, none, if_neg (lt_irrefl 0), List.replicate_zero]
    exact ⟨empty _, empty _⟩
  · rw [pltRun, gotPltRun, if_pos positive, exact_replicate, exact_replicate]
    exact plt_ends computed noWrap tables dynamic positive

/-! ### Storage -/

variable (powers : input.AlignmentsArePowers)

include powers

omit tables in
theorem toNat_vaOf (source : SecSource) :
    (vaOf layout.outputSections source).toNat =
      input.integerVa (input.ordered computed.pre) source := by
  rcases split_sections computed noWrap with ⟨placed, others, split, isPlaced, unplaced⟩
  have pairs : List.Forall₂
      (fun entry s => s.source = entry.1.source ∧ s.shAddr.toNat = entry.2)
      (input.integerSections (input.ordered computed.pre)) placed := by
    refine Pairwise.trans ?_ (loaded_isAt powers noWrap.addresses) isPlaced
    rintro entry _ finished ⟨shAddr, rfl, isStart⟩ isFinished
    exact ⟨isFinished.source, (congrArg UInt64.toNat isFinished.shAddr).trans isStart⟩
  have found : (placed.find? fun s => s.source == source).map
        (fun s => s.shAddr.toNat) =
      ((input.integerSections (input.ordered computed.pre)).find? fun entry =>
        entry.1.source == source).map Prod.snd := by
    rw [← List.head?_filter, ← List.head?_filter, ← List.head?_map, ← List.head?_map]
    refine congrArg List.head? (Pairwise.map_filter_eq pairs ?_)
    intro entry _ s same
    exact ⟨by rw [same.1], same.2⟩
  rw [vaOf, integerVa, ← found, split, List.find?_append]
  cases placed.find? fun s => s.source == source with
  | some s => rfl
  | none =>
      cases isOther : others.find? fun s => s.source == source with
      | none => rfl
      | some s =>
          have zero := (unplaced s (List.mem_of_find?_eq_some isOther)).1
          simp [zero]

theorem jump_exact_iff_fits (dynamic : input.dynamic.isSome = true) {place : Nat}
    (isSlot : place < input.nPlt) :
    let slotVa := vaOf layout.outputSections .gotPlt + UInt64.ofNat (place + 3) * 8
    let stubVa := vaOf layout.outputSections .plt + UInt64.ofNat place * 16
    (slotVa.toInt64 - (stubVa.toInt64 + 6)).toInt =
        (slotVa.toNat : Int) - (stubVa.toNat + 6) ↔
      -2 ^ 63 ≤ input.integerJump (input.ordered computed.pre) place ∧
        input.integerJump (input.ordered computed.pre) place < 2 ^ 63 := by
  have ends := plt_ends computed noWrap tables dynamic ((Nat.zero_le _).trans_lt isSlot)
  have sum {start : UInt64} {count : Nat} {width : UInt64}
      (small : start.toNat + count * width.toNat < 2 ^ 64) :
      (start + UInt64.ofNat count * width).toNat =
        start.toNat + count * width.toNat := by
    have product : (UInt64.ofNat count * width).toNat = count * width.toNat := by
      rw [UInt64.toNat_mul, UInt64.toNat_ofNat', Nat.mod_mul_mod,
        Nat.mod_eq_of_lt ((Nat.le_add_left _ _).trans_lt small)]
    rw [UInt64.toNat_add, product, Nat.mod_eq_of_lt small]
  have eight : (8 : UInt64).toNat = 8 := rfl
  have sixteen : (16 : UInt64).toNat = 16 := rfl
  intro slotVa stubVa
  have slot : slotVa.toNat = _ := sum (by rw [eight]; omega)
  have stub : stubVa.toNat = _ := sum (by rw [sixteen]; omega)
  rw [jump_exact_iff, integerJump, ← toNat_vaOf computed noWrap powers,
    ← toNat_vaOf computed noWrap powers, slot, stub, eight, sixteen]

omit tables in
theorem relocSums_eq :
    (input.relocSums layout.outputSections).map toInteger =
      input.integerRelocSums (input.ordered computed.pre) := by
  rcases split_sections computed noWrap with ⟨placed, others, split, isPlaced, unplaced⟩
  rw [← map_relocSums_loaded powers noWrap, split, relocSums, relocSums]
  refine congrArg (List.map toInteger) ?_
  split
  · have none : others.filter (fun s => takesRelocs s.source s.shFlags) = [] := by
      rw [List.filter_eq_nil_iff]
      intro s present
      rw [takesRelocs, (unplaced s present).2, UInt64.zero_and, bne_self_eq_false,
        Bool.and_false]
      exact Bool.false_ne_true
    rw [List.filter_append, none, List.append_nil, List.flatMap_def, List.flatMap_def]
    refine congrArg List.flatten (Pairwise.map_filter_eq isPlaced ?_)
    intro s _ finished isFinished
    rw [isFinished.source, isFinished.shFlags, isFinished.contributions]
    exact ⟨rfl, rfl⟩
  · rfl

omit tables powers in
theorem storage_exact (fits : Cursor.Fits 0 input.bssSlots) {entry : SymbolId × UInt64}
    (present : entry ∈ input.commonSpace.offsets ++ input.copySpace.offsets) :
    SumExact (commonBase layout.outputSections) entry.2 := by
  have laid := fits.laid
  rw [← copySpace_size] at laid
  have below : entry.2.toNat ≤ input.copySpace.size.toNat := by
    have starts : (input.commonSpace.offsets ++ input.copySpace.offsets).map
        (fun entry => entry.2.toNat) =
          (Cursor.spans 0 input.bssSlots).map Span.start := by
      rw [List.map_append, commonSpace_run.2, copySpace_run.2, commonSpace_run.1,
        bssSlots, Cursor.spans_append, List.map_append, commonSlots, copySlots]
    have isStart : entry.2.toNat ∈ (Cursor.spans 0 input.bssSlots).map Span.start :=
      starts ▸ List.mem_map_of_mem present
    rcases List.mem_map.mp isStart with ⟨span, isSpan, start⟩
    rw [← start]
    exact (Nat.le_add_right _ _).trans (laid.within isSpan).2
  rcases Nat.eq_zero_or_pos input.copySpace.size.toNat with isZero | positive
  · rw [isZero, Nat.le_zero] at below
    rw [sumExact_iff, below]
    exact UInt64.toNat_lt _
  · rcases exists_added computed (List.mem_append_right _ (List.mem_append_right _
      (mem_bss computed.pre (UInt64.lt_iff_toNat_lt.mpr positive)))) with
      ⟨s, isPlaced, source, bare, size⟩
    refine (placed_end computed noWrap isPlaced).of_le ?_ (size ▸ below)
    refine firstAddress_le computed noWrap (fun before finished isFinished => ?_)
      isPlaced ?_
    · rw [isFinished.source, isFinished.contributions]
    · rw [source, bare]
      rfl

end Fits

/-! ### The cursors -/

theorem finish_contentRun (ordered : Builders) :
    Cursor.finish input.base (input.contentRun ordered) =
      input.contentStop ordered := by
  rw [contentRun, Cursor.finish_append, finish_codeRun, contentStop]
  cases hasRw ordered with
  | true => exact finish_dataRun
  | false => rfl

section Powers

variable (powers : input.AlignmentsArePowers)

include powers

theorem contentEnd_toNat {pre : DynPrebuild}
    (fits : Cursor.Fits input.base (input.addressRun (input.ordered pre))) :
    (input.contentEnd (input.ordered pre)).toNat =
      Cursor.exact input.base.toNat (input.contentRun (input.ordered pre)) -
        input.base.toNat := by
  have content := (Cursor.fits_append.mp fits).1
  have aligned : ∀ slot ∈ input.contentRun (input.ordered pre), slot.IsAligned :=
    fun slot present =>
      addressRun_aligned powers pre slot (List.mem_append_left _ present)
  have stop := content.finish_eq aligned
  have above := Cursor.le_exact input.base.toNat
    (input.contentRun (input.ordered pre))
  rw [← stop, finish_contentRun] at above
  rw [contentEnd_eq, ← stop, finish_contentRun,
    UInt64.toNat_sub_of_le _ _ (UInt64.le_iff_toNat_le.mpr above)]

theorem noWrap_of_fits {pre : DynPrebuild}
    (grouped : ∀ name,
      Cursor.Fits 0 ((input.membersOf name).map Icf.Place.slot))
    (passed : ∀ name ∈ input.passthroughNames,
      Cursor.Fits 0 ((input.passthroughMembers name).map Icf.Place.passedSlot))
    (addresses : Cursor.Fits input.base (input.addressRun (input.ordered pre)))
    (file : Cursor.exact
      (Cursor.exact input.base.toNat (input.contentRun (input.ordered pre)) -
        input.base.toNat) (input.fileRun pre (input.ordered pre)) < 2 ^ 64)
    (tables : ∀ table ∈ input.tableSizes pre (input.ordered pre), table.2 < 2 ^ 64) :
    input.NoWrap pre := by
  refine ⟨grouped, passed, addresses, ?_, ?_⟩
  · rw [Cursor.fits_iff (fileRun_aligned powers pre _),
      contentEnd_toNat powers addresses]
    exact file
  · have present : (input.headersSize pre (input.ordered pre),
        ((input.fileEnd pre (input.ordered pre)).sections.length + 1) *
          shdrSize.toNat) ∈ input.tableSizes pre (input.ordered pre) := by
      simp [tableSizes]
    exact tables _ present

theorem noWrap_of_sumsFit {pre : DynPrebuild} (fit : input.SumsFit pre) :
    input.NoWrap pre :=
  noWrap_of_fits powers
    (fun name => (Cursor.fits_iff (grouped_aligned powers name)).mpr (fit.grouped name))
    (fun name listed =>
      (Cursor.fits_iff (passed_aligned powers name)).mpr (fit.passed name listed))
    ((Cursor.fits_iff (addressRun_aligned powers pre)).mpr fit.addresses)
    fit.file fit.tables

theorem tlsShapes_aligned (pre : DynPrebuild) :
    ∀ slot ∈ blockRun (relroOrder (input.ordered pre)).tlsShapes,
      slot.IsAligned := by
  refine blockRun_aligned fun shape present => ?_
  have ofBuilder {keep : Builder → Bool} (among : shape ∈
      ((relroOrder (input.ordered pre)).all.filter keep).map Builder.shape) :
      shape.1.toNat.isPowerOfTwo := by
    rcases List.mem_map.mp among with ⟨b, isMember, rfl⟩
    exact all_aligned powers pre b (List.mem_filter.mp isMember).1
  rcases List.mem_append.mp present with inData | inBss
  · exact ofBuilder inData
  · exact ofBuilder inBss

theorem block_fits {pre : DynPrebuild} (fit : input.SumsFit pre) :
    Cursor.Fits 0 (blockRun (relroOrder (input.ordered pre)).tlsShapes) := by
  have small := fit.block
  have aligned := tlsShapes_aligned powers pre
  generalize blockRun (relroOrder (input.ordered pre)).tlsShapes = slots
    at small aligned
  exact (Cursor.fits_iff aligned).mpr small

theorem inBlock_exact {layout : Layout} (computed : Computed input layout)
    (fit : input.SumsFit computed.pre) {before after : List OutputSection}
    {s : OutputSection}
    (split : tlsSections layout.outputSections = before ++ s :: after)
    {c : SectionContribution} (among : c ∈ s.contributions) :
    SumExact (alignUp (before.foldl TlsBlock.add {}).off s.shAddralign)
      c.offset := by
  have noWrap := noWrap_of_sumsFit powers fit
  have present : s ∈ layout.outputSections := by
    have inBlock : s ∈ tlsSections layout.outputSections := by
      rw [split]
      exact List.mem_append_right _ List.mem_cons_self
    rcases List.mem_append.mp inBlock with inData | inBss
    · exact (List.mem_filter.mp inData).1
    · exact (List.mem_filter.mp inBss).1
  have fits := block_fits powers fit
  rw [← tlsShapes_eq computed, blockRun, Cursor.fits_append, tlsShapes, split, List.map_map, List.map_append,
    Cursor.fits_append] at fits
  have slot := fits.1.2.1
  have off := (TlsBlock.foldl_add before {}).1
  have isEnd : SumExact (alignUp (before.foldl TlsBlock.add {}).off s.shAddralign)
      s.shSize := by
    rw [sumExact_iff, off, ← place_slotOf _ s.shAddralign s.shSize]
    exact slot.2
  exact isEnd.of_le le_rfl (offset_le_size computed noWrap present among)

omit powers in
theorem phnum_le (ordered : Builders) :
    (input.phnum ordered).toNat ≤ 12 := by
  rw [phnum, UInt64.toNat_ofNat']
  refine (Nat.mod_le _ _).trans ?_
  have one (condition : Prop) [Decidable condition] :
      (if condition then 1 else 0) ≤ 1 := by
    split <;> decide
  have absent (condition : Prop) [Decidable condition] :
      (if condition then 0 else 1) ≤ 1 := by
    split <;> decide
  have interp : (if input.dynamic.isSome then
      if input.config.shared then 1 else 2 else 0) ≤ 2 := by
    split
    · split <;> decide
    · decide
  have buildId := one (input.config.buildId = true)
  have tls := one (hasTls ordered = true)
  have frames := one (input.nFdes > 0)
  have property := one (ordered.ro.any (fun b => b.name == propertyName) = true)
  have relro := one (input.dynamic.isSome = true)
  have code := absent (ordered.rx.isEmpty = true)
  have writable := absent ((ordered.rwPb.isEmpty && ordered.rwBss.isEmpty) = true)
  omega
omit powers in
/-- The header of the file and the table of the segments stand in front of all
sections. -/
theorem headers_exact {pre : DynPrebuild}
    (fits : Cursor.Fits input.base (input.addressRun (input.ordered pre))) :
    (input.headerSize (input.ordered pre)).toNat = ehdrSize.toNat +
        (input.phnum (input.ordered pre)).toNat * phdrSize.toNat ∧
      SumExact input.base ehdrSize := by
  have few := @phnum_le input (input.ordered pre)
  have size : (input.headerSize (input.ordered pre)).toNat = ehdrSize.toNat +
      (input.phnum (input.ordered pre)).toNat * phdrSize.toNat := by
    have header : ehdrSize.toNat = 64 := rfl
    have entry : phdrSize.toNat = 56 := rfl
    rw [headerSize, UInt64.toNat_add, UInt64.toNat_mul, header, entry]
    omega
  refine ⟨size, ?_⟩
  have above : SumExact input.base (input.headerSize (input.ordered pre)) := by
    have first := fits.1.2
    rw [place_slotOf_one] at first
    exact sumExact_iff.mpr first
  exact above.of_le le_rfl (by rw [size]; exact Nat.le_add_right _ _)

omit powers in
theorem blockBytes_exact {sections : List OutputSection}
    (fits : Cursor.Fits 0 (blockRun (tlsShapes sections))) :
    (tlsBlock sections).filesz.toNat =
      ((sections.filter fun s => s.kind == .tdata).map fun s => s.shSize.toNat).sum := by
  rw [blockRun, Cursor.fits_append, tlsShapes, List.map_map] at fits
  have filesz := TlsBlock.foldl_filesz (tlsSections sections) {} fits.1 le_rfl
  have zero : sections.filter (fun s => s.kind == .tdata && s.kind == .tbss) = [] := by
    rw [List.filter_eq_nil_iff]
    intro s _
    cases s.kind <;> decide
  rw [tlsBlock, filesz, tlsSections, List.filter_append, List.filter_filter,
    List.filter_filter, zero, List.append_nil]
  simp

omit powers in
theorem sums_exact_iff {sums : List (UInt64 × UInt64)} {integers : List (Nat × UInt64)}
    (same : sums.map toInteger = integers) :
    (∀ sum ∈ sums, SumExact sum.1 sum.2) ↔
      ∀ sum ∈ integers, sum.1 + sum.2.toNat < 2 ^ 64 := by
  rw [← same, List.forall_mem_map]
  exact forall₂_congr fun sum _ => sumExact_iff

theorem exactSums_of_sumsFit {layout : Layout} (computed : Computed input layout)
    (fit : input.SumsFit computed.pre) : input.ExactSums computed.pre layout := by
  have noWrap := noWrap_of_sumsFit powers fit
  have laid := partsLaid noWrap.addresses
  have fits := block_fits powers fit
  have tlsAligned := tlsShapes_aligned powers computed.pre
  rw [← tlsShapes_eq computed] at fits tlsAligned
  have common := bssSlots_aligned powers
  have tables : ∀ table ∈ input.tableSizes computed.pre (input.ordered computed.pre),
      table.1.toNat = table.2 := fun table present =>
    (input.tableSizes_exact_iff present).mpr (fit.tables table present)
  constructor
  · exact headers_exact noWrap.addresses
  · exact fun name =>
      (Cursor.isExact_iff (grouped_aligned powers name)).mpr (noWrap.grouped name)
  · exact (Cursor.isExact_iff common).mpr ((Cursor.fits_iff common).mpr fit.common)
  · exact tables
  · exact (Cursor.isExact_iff (addressRun_aligned powers _)).mpr noWrap.addresses
  · exact fun name listed =>
      (Cursor.isExact_iff (passed_aligned powers name)).mpr (noWrap.passed name listed)
  · exact (Cursor.isExact_iff (fileRun_aligned powers _ _)).mpr noWrap.file
  · exact (Cursor.isExact_iff tlsAligned).mpr fits
  · exact blockBytes_exact fits
  · exact fun before s after split c among =>
      inBlock_exact powers computed fit split among
  · exact fun s present c among => (section_end computed noWrap present).of_le
      le_rfl (offset_le_size computed noWrap present among)
  · exact fun s present => section_end computed noWrap present
  · exact fun s present isLoaded => offset_add_base computed noWrap present isLoaded
  · intro header present
    rw [loadHeaders_eq computed] at present
    rcases List.mem_map.mp present with ⟨load, isLoad, rfl⟩
    exact ⟨laid.offset_add_base isLoad, sumExact_iff.mpr (laid.load_stop_lt isLoad)⟩
  · exact fun entry present => storage_exact computed noWrap
      ((Cursor.fits_iff common).mpr fit.common) present
  · exact got_exact computed noWrap tables
  · exact plt_exact computed noWrap tables
  · exact fun dynamic place isSlot =>
      (jump_exact_iff_fits computed noWrap tables powers dynamic isSlot).mpr
        (fit.jumps dynamic place isSlot)
  · exact (sums_exact_iff (map_valueSums powers noWrap)).mpr fit.values
  · exact (sums_exact_iff (relocSums_eq computed noWrap powers)).mpr fit.relocated

theorem sumsFit_of_exactSums {layout : Layout} (computed : Computed input layout)
    (exact : input.ExactSums computed.pre layout) : input.SumsFit computed.pre := by
  have small {slots : List Cursor.Slot} {cursor : UInt64}
      (aligned : ∀ slot ∈ slots, slot.IsAligned)
      (isExact : Cursor.IsExact cursor slots) :
      Cursor.exact cursor.toNat slots < 2 ^ 64 :=
    (Cursor.fits_iff aligned).mp ((Cursor.isExact_iff aligned).mp isExact)
  have grouped (name : Name) := grouped_aligned powers name
  have passed (name : Name) := passed_aligned powers name
  have addresses := (Cursor.isExact_iff (addressRun_aligned powers _)).mp exact.addresses
  have file := small (fileRun_aligned powers _ _) exact.file
  rw [contentEnd_toNat powers addresses] at file
  have tables : ∀ table ∈ input.tableSizes computed.pre (input.ordered computed.pre),
      table.2 < 2 ^ 64 := fun table present =>
    (input.tableSizes_exact_iff present).mp (exact.tables table present)
  have noWrap := noWrap_of_fits powers
    (fun name => (Cursor.isExact_iff (grouped name)).mp (exact.grouped name))
    (fun name listed => (Cursor.isExact_iff (passed name)).mp (exact.passed name listed))
    addresses file tables
  constructor
  · exact fun name => small (grouped name) (exact.grouped name)
  · exact small (bssSlots_aligned powers) exact.common
  · exact tables
  · exact small (addressRun_aligned powers _) exact.addresses
  · exact fun name listed => small (passed name) (exact.passed name listed)
  · exact file
  · have aligned := tlsShapes_aligned powers computed.pre
    have block := exact.block
    rw [tlsShapes_eq computed] at block
    generalize blockRun (relroOrder (input.ordered computed.pre)).tlsShapes = slots
      at block aligned ⊢
    exact small aligned block
  · exact fun dynamic place isSlot =>
      (jump_exact_iff_fits computed noWrap exact.tables powers dynamic isSlot).mp
        (exact.jumps dynamic place isSlot)
  · exact (sums_exact_iff (map_valueSums powers noWrap)).mp exact.values
  · exact (sums_exact_iff (relocSums_eq computed noWrap powers)).mp exact.relocated

end Powers

/-! ## All sums are exact -/

/-- Given that all alignments are powers of two, the sums of a layout are those of
the integers exactly when none of these passes the largest word. -/
theorem exactSums_iff (powers : input.AlignmentsArePowers) {pre : DynPrebuild}
    (prebuilt : input.prebuildDynamic = .ok pre) {layout : Layout}
    (succeeded : input.computeLayoutIcf = .ok layout) :
    input.ExactSums pre layout ↔ input.SumsFit pre := by
  rcases computed_of_ok succeeded with ⟨computed⟩
  have same : computed.pre = pre := Except.ok.inj (computed.prebuilt.symm.trans prebuilt)
  subst same
  exact ⟨sumsFit_of_exactSums powers computed, exactSums_of_sumsFit powers computed⟩

end Computed

/-! Two objects with a `.bss` of the same size. -/

private def zeroSection (index : Nat) (name : String) (kind : SectionKind)
    (shType : UInt32) (size flags : UInt64) : InputSection where
  index := index
  name := nameOf name
  kind := kind
  shType := shType
  data := ⟨.owned 0, 0, if shType = shtNobits then 0 else 1⟩
  align := 1
  size := size
  flags := flags
  relocs := []

private def zeroesSymbol : InputSymbol where
  index := 1
  name := nameOf "_start"
  binding := .global
  isUndefined := false
  isCommon := false
  isIfunc := false
  stType := 2
  visibility := 0
  sectionIndex := some 1
  value := 0
  size := 1

private def zeroes (index : Nat) (size : UInt64) : InputSection :=
  zeroSection index ".bss" .bss shtNobits size (shfAlloc ||| shfWrite)

private def zeroesObject (size : UInt64) : InputObject :=
  InputObject.assemble "start.o" 2 1
    [zeroSection 1 ".text" .text shtProgbits 1 (shfAlloc ||| shfExecinstr),
      zeroes 2 size] [zeroesSymbol] []

private def zeroObject (size : UInt64) : InputObject :=
  InputObject.assemble "zero.o" 1 0 [zeroes 1 size] [] []

private def zeroInput (size : UInt64) : LayoutInput where
  arena := { mmaps := [], owned := [[0]] }
  objects := [zeroesObject size, zeroObject size]
  symbols :=
    match SymbolTable.processAll [⟨zeroesObject size, []⟩, ⟨zeroObject size, []⟩] with
    | .ok table => table
    | .error _ => SymbolTable.new

private theorem zeroInput_powers (size : UInt64) :
    (zeroInput size).AlignmentsArePowers := by
  have noCommons : (zeroInput size).commonSyms = [] := rfl
  refine ⟨fun common present => ?_, ⟨12, rfl⟩, fun member present => ⟨0, ?_⟩⟩
  · rw [noCommons] at present
    exact absurd present List.not_mem_nil
  · have listed : inputSections (zeroInput size).objects =
        [⟨0, zeroesObject size, 0, zeroSection 1 ".text" .text shtProgbits 1
            (shfAlloc ||| shfExecinstr)⟩,
          ⟨0, zeroesObject size, 1, zeroes 2 size⟩,
          ⟨1, zeroObject size, 0, zeroes 1 size⟩] := rfl
    rw [listed] at present
    simp only [List.mem_cons, List.not_mem_nil, or_false] at present
    rcases present with rfl | rfl | rfl <;> rfl

theorem exactSums_smallZeroes :
    ∃ layout, (zeroInput 16).computeLayoutIcf = .ok layout ∧
      (zeroInput 16).ExactSums {} layout := by
  rcases @exists_layout (zeroInput 16) (by decide +kernel) with ⟨layout, computed⟩
  have powers := zeroInput_powers 16
  have sums {integers : List (Nat × UInt64)} (small : integers.all
      (fun sum => decide (sum.1 + sum.2.toNat < 2 ^ 64)) = true) :
      ∀ sum ∈ integers, sum.1 + sum.2.toNat < 2 ^ 64 :=
    fun sum present => of_decide_eq_true (List.all_eq_true.mp small sum present)
  refine ⟨layout, computed, (exactSums_iff powers rfl computed).mpr ?_⟩
  refine ⟨fun name => ?_, by decide +kernel, by decide +kernel, by decide +kernel,
    by decide +kernel, by decide +kernel, by decide +kernel, fun dynamic => ?_,
    sums (by decide +kernel), sums (by decide +kernel)⟩
  · exact (Cursor.fits_iff (grouped_aligned powers name)).mp
      (grouped_of_contributors (by decide +kernel) name)
  · cases dynamic

/-- The size of `.bss` is 0 although each of its two members has half of the
address space. -/
theorem hugeZeroes_not_exactSums :
    ∃ layout, (zeroInput 0x8000000000000000).computeLayoutIcf = .ok layout ∧
      (zeroInput 0x8000000000000000).AlignmentsArePowers ∧
      (zeroInput 0x8000000000000000).prebuildDynamic = .ok {} ∧
      ¬ (zeroInput 0x8000000000000000).ExactSums {} layout := by
  rcases @exists_layout (zeroInput 0x8000000000000000) (by decide +kernel) with
    ⟨layout, computed⟩
  have powers := zeroInput_powers 0x8000000000000000
  refine ⟨layout, computed, powers, rfl, fun exact => ?_⟩
  have aligned := grouped_aligned powers (nameOf ".bss")
  have small := (Cursor.fits_iff aligned).mp
    ((Cursor.isExact_iff aligned).mp (exact.grouped (nameOf ".bss")))
  revert small
  decide +kernel

end LayoutInput

end Peony
