import Peony.Layout.Geometry

namespace Peony

/-! When the sums of a layout are those of the integers. -/

open Spans

/-! ## Alignments -/

theorem copyRelocAlign_power (size : UInt64) :
    (copyRelocAlign size).toNat.isPowerOfTwo := by
  have least (word : UInt64) :
      (max 1 (min word 16)).toNat = max 1 (min word.toNat 16) := by
    rw [toNat_max]
    have smaller : (min word 16).toNat = min word.toNat 16 := by
      change (if word ≤ 16 then word else 16).toNat = _
      split
      · rename_i below
        exact (min_eq_left (UInt64.le_iff_toNat_le.mp below)).symm
      · rename_i above
        rw [UInt64.le_iff_toNat_le, Nat.not_le] at above
        exact (min_eq_right above.le).symm
    rw [smaller]
    rfl
  rw [copyRelocAlign, least, nextPowerOfTwo]
  split
  · exact ⟨0, rfl⟩
  · rw [UInt64.toNat_ofNat']
    rcases Nat.lt_or_ge ((size.toNat - 1).log2 + 1) 64 with isWord | tooLarge
    · rw [Nat.mod_eq_of_lt (Nat.pow_lt_pow_right (by decide) isWord)]
      rcases Nat.le_total ((size.toNat - 1).log2 + 1) 4 with below | above
      · refine ⟨(size.toNat - 1).log2 + 1, ?_⟩
        have small : 2 ^ ((size.toNat - 1).log2 + 1) ≤ 2 ^ 4 :=
          Nat.pow_le_pow_right (by decide) below
        rw [min_eq_left (show _ ≤ 16 from small), max_eq_right Nat.one_le_two_pow]
      · have large : 2 ^ 4 ≤ 2 ^ ((size.toNat - 1).log2 + 1) :=
          Nat.pow_le_pow_right (by decide) above
        rw [min_eq_right (show 16 ≤ _ from large)]
        exact ⟨4, rfl⟩
    · rw [Nat.mod_eq_zero_of_dvd (Nat.pow_dvd_pow 2 tooLarge)]
      exact ⟨0, rfl⟩

namespace LayoutInput

variable {input : LayoutInput}

/-- Storage in the synthetic `.bss`, as items of the section. -/
def bssSlots (input : LayoutInput) : List Cursor.Slot :=
  input.commonSyms.map (fun common => slotOf (max common.2.2 1) common.2.1) ++
    input.copyDemands.map fun demand => slotOf (copyRelocAlign demand.2) demand.2

structure AlignmentsArePowers (input : LayoutInput) : Prop where
  common : ∀ common ∈ input.commonSyms,
    (max common.2.2 1).toNat.isPowerOfTwo
  page : input.page.toNat.isPowerOfTwo
  sections : ∀ member ∈ inputSections input.objects,
    member.align.toNat.isPowerOfTwo

theorem bssSlots_aligned (powers : input.AlignmentsArePowers) :
    ∀ slot ∈ input.bssSlots, slot.IsAligned := by
  intro slot present
  rcases List.mem_append.mp present with isCommon | isCopy
  · rcases List.mem_map.mp isCommon with ⟨common, among, rfl⟩
    exact slotOf_isAligned (powers.common common among) _
  · rcases List.mem_map.mp isCopy with ⟨demand, _, rfl⟩
    exact slotOf_isAligned (copyRelocAlign_power _) _

/-- Storage is placed like the items of a section. -/
theorem foldl_allot {Item : Type} (id : Item → SymbolId) (size align : Item → UInt64)
    (items : List Item) (space : BssSpace) :
    (items.foldl (fun space item => space.allot (id item) (size item) (align item))
        space).size =
      Cursor.finish space.size
        (items.map fun item => slotOf (align item) (size item)) ∧
    (items.foldl (fun space item => space.allot (id item) (size item) (align item))
        space).offsets.map (fun entry => entry.2.toNat) =
      space.offsets.map (fun entry => entry.2.toNat) ++
        (Cursor.spans space.size
          (items.map fun item => slotOf (align item) (size item))).map
            Span.start := by
  induction items generalizing space with
  | nil => exact ⟨rfl, (List.append_nil _).symm⟩
  | cons item rest induction =>
      have next := induction (space.allot (id item) (size item) (align item))
      have moved : (space.allot (id item) (size item) (align item)).size =
          (slotOf (align item) (size item)).advance space.size :=
        (advance_slotOf _ _ _).symm
      rw [moved] at next
      refine ⟨next.1, next.2.trans ?_⟩
      rw [List.map_cons, Cursor.spans, List.map_cons, Cursor.Slot.span,
        place_slotOf]
      simp [BssSpace.allot]

def commonSlots (input : LayoutInput) : List Cursor.Slot :=
  input.commonSyms.map fun common => slotOf (max common.2.2 1) common.2.1

def copySlots (input : LayoutInput) : List Cursor.Slot :=
  input.copyDemands.map fun demand => slotOf (copyRelocAlign demand.2) demand.2

theorem commonSpace_run :
    input.commonSpace.size = Cursor.finish 0 input.commonSlots ∧
      input.commonSpace.offsets.map (fun entry => entry.2.toNat) =
        (Cursor.spans 0 input.commonSlots).map Span.start :=
  foldl_allot Prod.fst (fun common : SymbolId × UInt64 × UInt64 => common.2.1)
    (fun common => max common.2.2 1) input.commonSyms {}

theorem copySpace_run :
    input.copySpace.size = Cursor.finish input.commonSpace.size input.copySlots ∧
      input.copySpace.offsets.map (fun entry => entry.2.toNat) =
        (Cursor.spans input.commonSpace.size input.copySlots).map Span.start :=
  foldl_allot Prod.fst (Prod.snd : SymbolId × UInt64 → UInt64)
    (fun demand => copyRelocAlign demand.2) input.copyDemands
    { input.commonSpace with offsets := [] }

theorem copySpace_size :
    input.copySpace.size = Cursor.finish 0 input.bssSlots := by
  rw [copySpace_run.1, commonSpace_run.1, bssSlots, Cursor.finish_append]
  rfl

theorem copySpace_align
    (powers : ∀ common ∈ input.commonSyms, (max common.2.2 1).toNat.isPowerOfTwo) :
    input.copySpace.align.toNat.isPowerOfTwo := by
  have commons (commons : List (SymbolId × UInt64 × UInt64)) (space : BssSpace)
      (power : space.align.toNat.isPowerOfTwo)
      (each : ∀ common ∈ commons, (max common.2.2 1).toNat.isPowerOfTwo) :
      (commons.foldl allotCommon space).align.toNat.isPowerOfTwo := by
    induction commons generalizing space with
    | nil => exact power
    | cons common rest induction =>
        refine induction _ ?_ fun other present =>
          each other (List.mem_cons_of_mem _ present)
        change (max space.align (max common.2.2 1)).toNat.isPowerOfTwo
        rw [toNat_max]
        exact Alignment.isPowerOfTwo_max power (each common List.mem_cons_self)
  have copies (demands : List (SymbolId × UInt64)) (space : BssSpace)
      (power : space.align.toNat.isPowerOfTwo) :
      (demands.foldl allotCopy space).align.toNat.isPowerOfTwo := by
    induction demands generalizing space with
    | nil => exact power
    | cons demand rest induction =>
        refine induction _ ?_
        change (max space.align (copyRelocAlign demand.2)).toNat.isPowerOfTwo
        rw [toNat_max]
        exact Alignment.isPowerOfTwo_max power (copyRelocAlign_power _)
  exact copies _ _ (commons _ _ ⟨0, rfl⟩ powers)

/-! ### Output sections -/

private theorem mem_optional {condition : Prop} [Decidable condition]
    {made b : Builder} (present : b ∈ if condition then [made] else []) :
    b = made := by
  split at present
  · exact List.mem_singleton.mp present
  · exact absurd present List.not_mem_nil

private theorem mem_unless {condition : Prop} [Decidable condition]
    {made b : Builder} (present : b ∈ if condition then [] else [made]) :
    b = made := by
  split at present
  · exact absurd present List.not_mem_nil
  · exact List.mem_singleton.mp present

theorem forall_ordered {pre : DynPrebuild} {holds : Builder → Prop}
    (groups : ∀ b ∈ input.groups, holds b)
    (readOnly : ∀ name shType align size, align.toNat.isPowerOfTwo →
      holds (Builder.readOnly name shType align size))
    (writable : ∀ name shType size, holds (Builder.writable name shType size))
    (bss : holds (Builder.synthesized (nameOf ".bss") .bss (shfAlloc ||| shfWrite)
      shtNobits input.copySpace.align input.copySpace.size .rw true))
    (plt : ∀ size, holds (Builder.synthesized (nameOf ".plt") .text
      (shfAlloc ||| shfExecinstr) shtProgbits 16 size .rx false)) :
    ∀ b ∈ (input.ordered pre).ro ++ (input.ordered pre).rx ++
      ((input.ordered pre).rwPb ++ (input.ordered pre).rwBss), holds b := by
  have bucketed {keep : Builder → Bool} {b : Builder}
      (present : b ∈ sortBy Builder.compareNames (input.groups.filter keep)) :
      holds b :=
    groups b (List.mem_filter.mp (mem_sortBy.mp present)).1
  have static : (∀ b ∈ (input.synthesize (bucket input.groups)).ro, holds b) ∧
      (∀ b ∈ (input.synthesize (bucket input.groups)).rx, holds b) ∧
      (∀ b ∈ (input.synthesize (bucket input.groups)).rwPb, holds b) ∧
      ∀ b ∈ (input.synthesize (bucket input.groups)).rwBss, holds b := by
    refine ⟨?_, fun _ present => bucketed present, ?_, ?_⟩
    · intro b present
      simp only [synthesize, List.mem_append] at present
      rcases present with ((inBucket | isNote) | isBuildId) | isFrames
      · exact bucketed inBucket
      · rw [mem_unless isNote]
        exact readOnly _ _ _ _ ⟨3, rfl⟩
      · rw [mem_optional isBuildId]
        exact readOnly _ _ _ _ ⟨2, rfl⟩
      · rw [mem_unless isFrames]
        exact readOnly _ _ _ _ ⟨2, rfl⟩
    · intro b present
      rcases List.mem_append.mp present with inBucket | isGot
      · exact bucketed inBucket
      · rw [mem_optional isGot]
        exact writable _ _ _
    · intro b present
      rcases List.mem_append.mp present with inBucket | isBss
      · exact bucketed inBucket
      · rw [mem_optional isBss]
        exact bss
  have dynamic {dynj : DynamicInfo} {b : Builder}
      (present : b ∈ input.roDyn pre dynj) : holds b := by
    simp only [roDyn, List.mem_cons, List.not_mem_nil, or_false] at present
    rcases present with rfl | rfl | rfl | rfl | rfl | rfl | rfl | rfl
    · exact readOnly _ _ _ _ ⟨0, rfl⟩
    · exact readOnly _ _ _ _ ⟨3, rfl⟩
    · exact readOnly _ _ _ _ ⟨3, rfl⟩
    · exact readOnly _ _ _ _ ⟨3, rfl⟩
    · exact readOnly _ _ _ _ ⟨0, rfl⟩
    · exact readOnly _ _ _ _ ⟨1, rfl⟩
    · exact readOnly _ _ _ _ ⟨3, rfl⟩
    · exact readOnly _ _ _ _ ⟨3, rfl⟩
  intro b present
  simp only [ordered, orderedBuilders, scriptOrder, List.mem_append,
    mem_sortBuildersByScript] at present
  rw [synthesizeDynamic] at present
  split at present
  · rcases present with (inRo | inRx) | (inPb | inBss)
    · exact static.1 b inRo
    · exact static.2.1 b inRx
    · exact static.2.2.1 b inPb
    · exact static.2.2.2 b inBss
  · simp only [List.mem_append] at present
    rcases present with (((inRo | isDyn) | isRela) | (inRx | isPlt)) |
      (((inPb | isGotPlt) | isDynamic) | inBss)
    · exact static.1 b inRo
    · exact dynamic (List.mem_filter.mp isDyn).1
    · rw [mem_optional isRela]
      exact readOnly _ _ _ _ ⟨3, rfl⟩
    · exact static.2.1 b inRx
    · rw [mem_optional isPlt]
      exact plt _
    · exact static.2.2.1 b inPb
    · rw [mem_optional isGotPlt]
      exact writable _ _ _
    · rw [List.mem_singleton.mp isDynamic]
      exact writable _ _ _
    · exact static.2.2.2 b inBss

theorem all_aligned (powers : input.AlignmentsArePowers) (pre : DynPrebuild) :
    ∀ b ∈ (relroOrder (input.ordered pre)).all, b.align.toNat.isPowerOfTwo := by
  have contributors : ∀ member ∈ input.contributors,
      member.align.toNat.isPowerOfTwo := fun member present =>
    powers.sections member (mem_contributors.mp present).1
  have each := @forall_ordered input pre (fun b => b.align.toNat.isPowerOfTwo)
    (groups_aligned contributors) (fun _ _ _ _ power => power)
    (fun _ _ _ => ⟨3, rfl⟩) (copySpace_align powers.common) (fun _ => ⟨4, rfl⟩)
  have writable : ∀ b ∈ (input.ordered pre).rwPb ++ (input.ordered pre).rwBss,
      b.align.toNat.isPowerOfTwo := fun b present =>
    each b (List.mem_append_right _ present)
  rcases @relroOrder_raised (input.ordered pre)
    (fun b present _ => writable b present) with ⟨rwPb, rwBss⟩
  intro raised present
  rw [Builders.all, relroOrder_ro, relroOrder_rx] at present
  rcases List.mem_append.mp present with inCode | inRw
  · exact each raised (List.mem_append_left _ inCode)
  · have origin : ∃ b ∈ (input.ordered pre).rwPb ++ (input.ordered pre).rwBss,
        b.RaisedTo raised := by
      rcases List.mem_append.mp inRw with inPb | inBss
      · rcases Pairwise.exists_left rwPb inPb with ⟨b, isMember, raises⟩
        exact ⟨b, List.mem_append_left _ (mem_sortBy.mp isMember), raises⟩
      · rcases Pairwise.exists_left rwBss inBss with ⟨b, isMember, raises⟩
        exact ⟨b, List.mem_append_right _ (mem_sortBy.mp isMember), raises⟩
    rcases origin with ⟨b, isMember, align, rfl, suits⟩
    exact (suits (writable b isMember)).1

/-! ### Runs -/

section Powers

variable (powers : input.AlignmentsArePowers)

include powers

theorem addressRun_aligned (pre : DynPrebuild) :
    ∀ slot ∈ input.addressRun (input.ordered pre), slot.IsAligned := by
  have part {builders : List Builder}
      (among : ∀ b ∈ builders, b ∈ (relroOrder (input.ordered pre)).all) :
      ∀ slot ∈ builders.map Builder.slot, slot.IsAligned := by
    intro slot present
    rcases List.mem_map.mp present with ⟨b, isMember, rfl⟩
    exact slotOf_isAligned (all_aligned powers pre b (among b isMember)) _
  have page : (slotOf input.page 0).IsAligned := slotOf_isAligned powers.page 0
  have inPb {b : Builder} (present : b ∈ (relroOrder (input.ordered pre)).rwPb) :
      b ∈ (relroOrder (input.ordered pre)).all :=
    List.mem_append_right _ (List.mem_append_left _ present)
  intro slot present
  simp only [addressRun, contentRun, codeRun, dataRun, List.mem_append,
    List.mem_ite_nil_right] at present
  rcases present with (((isHeader | isRo) | ⟨_, isPage | isRx⟩) |
    ⟨_, ((isPage | isRelro) | isPad) | isData⟩) | ⟨_, isBss⟩
  · rw [List.mem_singleton.mp isHeader]
    exact slotOf_isAligned ⟨0, rfl⟩ _
  · refine part (fun b isMember => ?_) slot isRo
    refine List.mem_append_left _ (List.mem_append_left _ ?_)
    rwa [relroOrder_ro]
  · rw [List.mem_singleton.mp isPage]
    exact page
  · refine part (fun b isMember => ?_) slot isRx
    refine List.mem_append_left _ (List.mem_append_right _ ?_)
    rwa [relroOrder_rx]
  · rw [List.mem_singleton.mp isPage]
    exact page
  · exact part (fun b isMember => inPb (List.takeWhile_subset _ isMember)) slot
      isRelro
  · rw [pagePad] at isPad
    split at isPad
    · exact absurd isPad List.not_mem_nil
    · rw [List.mem_singleton.mp isPad]
      exact page
  · exact part (fun b isMember => inPb (List.dropWhile_subset _ isMember)) slot
      isData
  · exact part (fun b isMember => List.mem_append_right _
      (List.mem_append_right _ isMember)) slot isBss

theorem grouped_aligned (name : Name) :
    ∀ slot ∈ (input.membersOf name).map Icf.Place.slot, slot.IsAligned := by
  intro slot present
  rcases List.mem_map.mp present with ⟨member, isMember, rfl⟩
  exact slotOf_isAligned (powers.sections member
    (mem_contributors.mp (mem_membersOf.mp isMember).1).1) _

theorem passedSlot_aligned {member : Contributor}
    (isMember : member ∈ inputSections input.objects) :
    (Icf.Place.passedSlot member).IsAligned := by
  have power := powers.sections member isMember
  rw [Icf.Place.passedSlot, ← slotOf_max, ← Icf.Place.align_eq]
  exact slotOf_isAligned power _

theorem passed_aligned (name : Name) :
    ∀ slot ∈ (input.passthroughMembers name).map Icf.Place.passedSlot,
      slot.IsAligned := by
  intro slot present
  rcases List.mem_map.mp present with ⟨member, isMember, rfl⟩
  exact passedSlot_aligned powers (List.mem_filter.mp isMember).1

theorem passthrough_maxAlign (name : Name) :
    (input.passthrough name).maxAlign.toNat.isPowerOfTwo := by
  have fold (members : List Contributor) (passed : Passthrough)
      (power : passed.maxAlign.toNat.isPowerOfTwo)
      (each : ∀ member ∈ members, member.align.toNat.isPowerOfTwo) :
      (members.foldl Passthrough.add passed).maxAlign.toNat.isPowerOfTwo := by
    induction members generalizing passed with
    | nil => exact power
    | cons member rest induction =>
        refine induction _ ?_ fun other present =>
          each other (List.mem_cons_of_mem _ present)
        change (max passed.maxAlign (max member.sec.align 1)).toNat.isPowerOfTwo
        rw [toNat_max, ← Icf.Place.align_eq]
        exact Alignment.isPowerOfTwo_max power (each member List.mem_cons_self)
  exact fold _ _ ⟨0, rfl⟩ fun member isMember =>
    powers.sections member (List.mem_filter.mp isMember).1

theorem fileRun_aligned (pre : DynPrebuild) (ordered : Builders) :
    ∀ slot ∈ input.fileRun pre ordered, slot.IsAligned := by
  have one (size : UInt64) : (slotOf 1 size).IsAligned :=
    slotOf_isAligned ⟨0, rfl⟩ size
  have four (size : UInt64) : (slotOf 4 size).IsAligned :=
    slotOf_isAligned ⟨2, rfl⟩ size
  have eight (size : UInt64) : (slotOf 8 size).IsAligned :=
    slotOf_isAligned ⟨3, rfl⟩ size
  intro slot present
  simp only [fileRun, metaSlots, List.mem_append, List.mem_cons, List.not_mem_nil,
    or_false, List.mem_ite_nil_left, List.mem_ite_nil_right, List.mem_flatMap]
    at present
  rcases present with (rfl | ((⟨_, isSymtab⟩ | ⟨_, numbered, _, isRela⟩) |
    ⟨name, _, isPassed⟩)) | rfl | rfl | rfl
  · exact eight _
  · simp only [symtabSlots, List.mem_append, List.mem_cons, List.not_mem_nil,
      or_false, List.mem_ite_nil_left] at isSymtab
    rcases isSymtab with (rfl | rfl) | ⟨_, rfl⟩
    · exact one _
    · exact one _
    · exact four _
  · rw [relaSlots] at isRela
    split at isRela
    · exact absurd isRela List.not_mem_nil
    · rw [List.mem_singleton.mp isRela]
      exact eight _
  · rw [passedSlots] at isPassed
    split at isPassed
    · exact absurd isPassed List.not_mem_nil
    · rw [List.mem_singleton.mp isPassed]
      exact slotOf_isAligned (passthrough_maxAlign powers name) _
  · exact one _
  · exact eight _
  · exact one _

end Powers

end LayoutInput

end Peony
