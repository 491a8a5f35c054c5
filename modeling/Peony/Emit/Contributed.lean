import Peony.Emit.Regions
import Peony.Foundation.SameAt

namespace Peony

/-! What the single contributions write, with and without a filter. -/

/-- The context of an emission. -/
def emitCtx (arena : InputArena) (objects : List InputObject) (symbols : SymbolTable)
    (layout : Layout) : DispatchCtx where
  arena := arena
  reloc := {
    symbols := symbols
    layout := layout
    shared := layout.shared
    symIndex := some (SymIndex.build objects symbols) }

/-- What one item writes; nothing when a relocation fails. -/
def DispatchCtx.placed (ctx : DispatchCtx) (bufLen : Nat) (item : WorkItem) :
    List (Buffer.Patch UInt8) :=
  match ctx.itemWrites bufLen (item, item.range 0) with
  | .ok writes => writes
  | .error _ => []

def SectionWriteFilter.keeps (filter : SectionWriteFilter) (s : OutputSection)
    (c : SectionContribution) : Bool :=
  filter.collectsOutputSection s.name && filter.writesContribution c.objectId

section

variable {arena : InputArena} {objects : List InputObject} {symbols : SymbolTable}
variable {layout : Layout} {filter : SectionWriteFilter} {bufLen place : Nat}
variable {ctx : DispatchCtx} {item : WorkItem} {patch : Buffer.Patch UInt8}
variable {copied all : List (Buffer.Patch UInt8)}

/-! ## Items -/

theorem itemWrites_range (ctx : DispatchCtx) (bufLen : Nat) (item : WorkItem) (index : Nat) :
    ctx.itemWrites bufLen (item, item.range index) =
      ctx.itemWrites bufLen (item, item.range 0) := by
  rw [WorkItem.range, WorkItem.range]
  split
  · rfl
  · rfl

theorem placed_of_ok {writes : List (Buffer.Patch UInt8)}
    (isWrites : ctx.itemWrites bufLen (item, item.range 0) = .ok writes) :
    ctx.placed bufLen item = writes := by
  rw [DispatchCtx.placed, isWrites]

theorem covers_placed (fits : item.fileLen ≠ 0 → item.Fits bufLen)
    (isPatch : patch ∈ ctx.placed bufLen item) (covers : patch.Covers place) :
    item.Covers place := by
  rw [DispatchCtx.placed] at isPatch
  cases isWrites : ctx.itemWrites bufLen (item, item.range 0) with
  | error fault =>
      rw [isWrites] at isPatch
      exact absurd isPatch List.not_mem_nil
  | ok writes =>
      rw [isWrites] at isPatch
      have nonempty : ∀ accepted ∈ item.range 0, item.Fits bufLen := by
        intro accepted isRange
        apply fits
        intro empty
        rw [WorkItem.range, if_pos empty] at isRange
        cases isRange
      exact (covers_itemWrites nonempty isWrites isPatch covers).2

theorem copyInputSections_ok_iff :
    copyInputSections arena objects symbols layout filter bufLen = .ok copied ↔
      ItemsFit (collectInputWorkItems layout objects filter) bufLen ∧
      (∀ item ∈ collectInputWorkItems layout objects filter, ∃ writes,
        (emitCtx arena objects symbols layout).itemWrites bufLen (item, item.range 0) =
          .ok writes) ∧
      copied = (collectInputWorkItems layout objects filter).flatMap
        ((emitCtx arena objects symbols layout).placed bufLen) := by
  generalize isItems : collectInputWorkItems layout objects filter = items
  have each (pair : WorkItem × Nat) (writes : List (Buffer.Patch UInt8)) :
      (emitCtx arena objects symbols layout).itemWrites bufLen (pair.1, pair.1.range pair.2) =
          .ok writes ↔
        writes = (emitCtx arena objects symbols layout).placed bufLen pair.1 ∧
          ∃ writes, (emitCtx arena objects symbols layout).itemWrites bufLen
            (pair.1, pair.1.range 0) = .ok writes := by
    rw [itemWrites_range]
    constructor
    · intro isWrites
      exact ⟨(placed_of_ok isWrites).symm, writes, isWrites⟩
    · rintro ⟨rfl, writes, isWrites⟩
      rw [placed_of_ok isWrites]
      exact isWrites
  have paired : items.zip (workRanges items) =
      items.zipIdx.map fun item => (item.1, item.1.range item.2) := by
    rw [workRanges]
    conv => lhs; arg 1; rw [← List.zipIdx_map_fst 0 items]
    rw [List.zip_map']
  have copies (writes : List (List (Buffer.Patch UInt8))) :
      (items.zip (workRanges items)).mapM
          ((emitCtx arena objects symbols layout).itemWrites bufLen) = .ok writes ↔
        writes = items.map ((emitCtx arena objects symbols layout).placed bufLen) ∧
          ∀ item ∈ items, ∃ writes, (emitCtx arena objects symbols layout).itemWrites bufLen
            (item, item.range 0) = .ok writes := by
    rw [paired, List.mapM_map]
    refine (mapM_ok_iff each).trans (and_congr ?_ ?_)
    · conv => rhs; arg 2; rw [← List.zipIdx_map_fst 0 items, List.map_map]
      rfl
    · constructor
      · intro all item present
        rcases List.getElem?_of_mem present with ⟨index, isItem⟩
        exact all (item, index) (List.mk_mem_zipIdx_iff_getElem?.mpr isItem)
      · intro all pair present
        exact all pair.1 (List.fst_mem_of_mem_zipIdx present)
  rw [copyInputSections, isItems]
  constructor
  · intro isCopied
    rcases bind_ok isCopied with ⟨ranges, isRanges, isCopied⟩
    rcases bind_ok isCopied with ⟨writes, areWrites, isResult⟩
    rcases validateWorkItemRanges_ok_iff.mp (mapError_ok_iff.mp isRanges) with ⟨rfl, fit⟩
    rcases (copies writes).mp (mapError_ok_iff.mp areWrites) with ⟨rfl, succeed⟩
    cases isResult
    exact ⟨fit, succeed, rfl⟩
  · rintro ⟨fit, succeed, rfl⟩
    have areWrites := (copies _).mpr ⟨rfl, succeed⟩
    rw [validateWorkItemRanges_ok_iff.mpr ⟨rfl, fit⟩]
    change (((items.zip (workRanges items)).mapM
      ((emitCtx arena objects symbols layout).itemWrites bufLen)).mapError EmitFault.reloc >>=
        fun writes => Except.ok writes.flatten) = _
    rw [areWrites]
    rfl

/-! ## Filters -/

theorem collectInputWorkItems_eq (layout : Layout) (objects : List InputObject)
    (filter : SectionWriteFilter) :
    collectInputWorkItems layout objects filter =
      (layout.outputSections.filter fun s => s.source == .input).flatMap fun s =>
        s.contributions.flatMap fun c =>
          if filter.keeps s c then (workItemOf objects s c).toList else [] := by
  have contributed (s : OutputSection) (contributions : List SectionContribution)
      (collected : filter.collectsOutputSection s.name = true) :
      (contributions.filter fun c => filter.writesContribution c.objectId).filterMap
          (workItemOf objects s) =
        contributions.flatMap fun c =>
          if filter.keeps s c then (workItemOf objects s c).toList else [] := by
    induction contributions with
    | nil => rfl
    | cons c rest induction =>
        rw [List.flatMap_cons, ← induction, SectionWriteFilter.keeps, collected, Bool.true_and,
          List.filter_cons]
        split
        · rw [List.filterMap_cons]
          cases workItemOf objects s c with
          | none => rfl
          | some item => rfl
        · rfl
  have dropped (s : OutputSection) (contributions : List SectionContribution)
      (left : filter.collectsOutputSection s.name = false) :
      (contributions.flatMap fun c =>
        if filter.keeps s c then (workItemOf objects s c).toList else []) = [] := by
    apply List.flatMap_eq_nil_iff.mpr
    intro c _
    rw [SectionWriteFilter.keeps, left, Bool.false_and]
    rfl
  rw [collectInputWorkItems]
  induction layout.outputSections with
  | nil => rfl
  | cons s rest induction =>
      rw [List.filter_cons, List.filter_cons]
      cases s.source == SecSource.input with
      | false => exact induction
      | true =>
          rw [Bool.true_and, if_pos rfl, List.flatMap_cons, ← induction]
          cases collected : filter.collectsOutputSection s.name with
          | true => rw [if_pos rfl, List.flatMap_cons, contributed s _ collected]
          | false =>
              rw [dropped s _ collected]
              rfl

theorem keeps_all (s : OutputSection) (c : SectionContribution) :
    SectionWriteFilter.all.keeps s c = true := rfl

theorem collected_sublist (layout : Layout) (objects : List InputObject)
    (filter : SectionWriteFilter) :
    (collectInputWorkItems layout objects filter).Sublist
      (collectInputWorkItems layout objects .all) := by
  rw [collectInputWorkItems_eq, collectInputWorkItems_eq]
  apply List.Sublist.flatMap_right
  intro s _
  apply List.Sublist.flatMap_right
  intro c _
  rw [keeps_all, if_pos rfl]
  split
  · exact List.Sublist.refl _
  · exact List.nil_sublist _

theorem exists_copied (filter : SectionWriteFilter)
    (isAll : copyInputSections arena objects symbols layout .all bufLen = .ok all) :
    ∃ copied, copyInputSections arena objects symbols layout filter bufLen = .ok copied := by
  rcases copyInputSections_ok_iff.mp isAll with ⟨fit, succeed, _⟩
  have part := collected_sublist layout objects filter
  refine ⟨_, copyInputSections_ok_iff.mpr ⟨⟨?_, fit.disjoint.sublist part⟩, ?_, rfl⟩⟩
  · intro item present
    exact fit.fits item (part.subset present)
  · intro item present
    exact succeed item (part.subset present)

theorem sameAt_copied
    (isAll : copyInputSections arena objects symbols layout .all bufLen = .ok all)
    (isCopied : copyInputSections arena objects symbols layout filter bufLen = .ok copied)
    (outside : ∀ s ∈ layout.outputSections, s.source = .input → ∀ c ∈ s.contributions,
      filter.keeps s c = false → ∀ item ∈ workItemOf objects s c, ¬ item.Covers place) :
    Buffer.SameAt place copied all := by
  rcases copyInputSections_ok_iff.mp isAll with ⟨fit, _, rfl⟩
  rcases copyInputSections_ok_iff.mp isCopied with ⟨_, _, rfl⟩
  rw [collectInputWorkItems_eq, collectInputWorkItems_eq, List.flatMap_assoc,
    List.flatMap_assoc]
  apply Buffer.SameAt.flatMap
  intro s inSections
  rw [List.mem_filter, beq_iff_eq] at inSections
  rw [List.flatMap_assoc, List.flatMap_assoc]
  apply Buffer.SameAt.flatMap
  intro c inContributions
  rw [keeps_all, if_pos rfl]
  cases keeps : filter.keeps s c with
  | true => exact Buffer.SameAt.refl _
  | false =>
      apply Buffer.SameAt.nil_of_outside
      intro patch isPatch covers
      rcases List.mem_flatMap.mp isPatch with ⟨item, isItem, isPatch⟩
      rw [Option.mem_toList] at isItem
      have present := item_of_contribution .all inSections.1 inSections.2 rfl
        inContributions rfl isItem
      exact outside s inSections.1 inSections.2 c inContributions keeps item isItem
        (covers_placed (fit.fits item present) isPatch covers)

end

end Peony
