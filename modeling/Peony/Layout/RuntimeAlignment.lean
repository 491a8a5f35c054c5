import Peony.Layout.Composition
import Peony.Layout.Ranges

namespace Peony

/-! The addresses of sections in memory, once the loader has chosen where the image
begins. -/

/-- The largest alignment of a loaded segment. -/
def Layout.largestAlign (layout : Layout) : Nat :=
  (layout.loadHeaders.map fun header => header.pAlign.toNat).foldl max 0

/-- What the loader may add to every address: a multiple of the largest alignment, or
nothing when the file has fixed addresses. -/
def Layout.IsBias (layout : Layout) (bias : Nat) : Prop :=
  if layout.eType = LayoutInput.etDyn then layout.largestAlign ∣ bias else bias = 0

namespace LayoutInput

/-- Every kept section is aligned in memory, wherever the image is loaded. -/
def RuntimeAligned (input : LayoutInput) (layout : Layout) : Prop :=
  ∀ bias, layout.IsBias bias → ∀ member ∈ input.contributors, ∀ address,
    layout.LaidOutAt member address → member.align.toNat ∣ bias + address.toNat

section Computed

variable {input : LayoutInput} {layout : Layout} (computed : Computed input layout)

include computed

/-- Every loaded segment has the alignment of a page. -/
theorem largestAlign_eq : layout.largestAlign = input.page.toNat := by
  have pages : ∀ load ∈ input.loads (input.ordered computed.pre),
      load.header.pAlign = input.page := by
    intro load isLoad
    rcases mem_loads.mp isLoad with rfl | ⟨_, rfl⟩ | ⟨_, rfl⟩ <;> rfl
  have folded (loads : List Load) (each : ∀ load ∈ loads,
      load.header.pAlign = input.page) (largest : Nat) (below : largest ≤ input.page.toNat) :
      ((loads.map Load.header).map fun header => header.pAlign.toNat).foldl max largest =
        if loads = [] then largest else input.page.toNat := by
    induction loads generalizing largest with
    | nil => rfl
    | cons load rest induction =>
        rw [List.map_cons, List.map_cons, List.foldl_cons, each load List.mem_cons_self,
          max_eq_right below, induction (fun other present =>
            each other (List.mem_cons_of_mem _ present)) _ le_rfl, ite_self,
          if_neg (List.cons_ne_nil _ _)]
  rw [Layout.largestAlign, loadHeaders_eq computed, folded _ pages 0 (Nat.zero_le _),
    if_neg (by simp [loads])]

/-- A kept section lies at a multiple of its alignment in the file's own addresses. -/
theorem laidOutAt_aligned (parsed : ∀ obj ∈ input.objects, obj.Parsed)
    {member : Contributor} (isContributor : member ∈ input.contributors)
    {address : UInt64} (laidOut : layout.LaidOutAt member address) :
    member.align.toNat ∣ address.toNat := by
  rcases laidOut with ⟨s, present, isAlloc, c, among, key, _, _, rfl⟩
  rw [computed.assembled] at present
  rcases exists_placed_of_isAlloc input present isAlloc with ⟨placed, isPlaced, isFinished⟩
  rw [isFinished.contributions] at among
  rcases exists_contributor computed.aligned computed.pre isPlaced among with
    ⟨other, isOther, place⟩
  have same := eq_of_label parsed (mem_contributors.mp isOther).1
    (mem_contributors.mp isContributor).1 (place.key.symm.trans key)
  subst same
  rw [isFinished.shAddr]
  exact place.aligned

theorem exists_laidOutAt {member : Contributor}
    (isContributor : member ∈ input.contributors) :
    ∃ address, layout.LaidOutAt member address := by
  rcases exists_place computed.aligned computed.pre isContributor with
    ⟨placed, isPlaced, c, place⟩
  rcases @mem_outputSections input computed.pre (input.ordered computed.pre)
    computed.entry placed isPlaced with ⟨s, present, isFinished⟩
  rw [← computed.assembled] at present
  refine ⟨_, s, present, ?_, c, ?_, place.key, place.pos, place.size, rfl⟩
  · rw [isFinished.shFlags]
    exact place.isAlloc
  · rw [isFinished.contributions]
    exact place.present

end Computed

/-- Sections are aligned in memory exactly when the image is not moved, or no section
needs more than the alignment of a page. -/
theorem runtimeAligned_iff {input : LayoutInput}
    (parsed : ∀ obj ∈ input.objects, obj.Parsed) {layout : Layout}
    (succeeded : input.computeLayoutIcf = .ok layout) :
    input.RuntimeAligned layout ↔
      (input.config.pie = false ∧ input.config.shared = false) ∨
        ∀ member ∈ input.contributors, member.align.toNat ∣ input.page.toNat := by
  rcases computed_of_ok succeeded with ⟨computed⟩
  have isMoved : layout.eType = etDyn ↔
      ¬ (input.config.pie = false ∧ input.config.shared = false) := by
    rw [computed.assembled]
    change (if input.config.pie || input.config.shared then etDyn else etExec) = etDyn ↔ _
    cases input.config.pie <;> cases input.config.shared <;> decide
  constructor
  · intro aligned
    by_cases fixed : input.config.pie = false ∧ input.config.shared = false
    · exact Or.inl fixed
    · refine Or.inr fun member isContributor => ?_
      rcases exists_laidOutAt computed isContributor with ⟨address, laidOut⟩
      have isBias : layout.IsBias input.page.toNat := by
        rw [Layout.IsBias, if_pos (isMoved.mpr fixed), largestAlign_eq computed]
      have moved := aligned _ isBias member isContributor address laidOut
      exact (Nat.dvd_add_iff_left
        (laidOutAt_aligned computed parsed isContributor laidOut)).mpr moved
  · intro cases bias isBias member isContributor address laidOut
    refine Nat.dvd_add ?_ (laidOutAt_aligned computed parsed isContributor laidOut)
    rw [Layout.IsBias] at isBias
    split at isBias
    · rename_i moved
      rcases cases with fixed | small
      · exact absurd fixed (isMoved.mp moved)
      · rw [largestAlign_eq computed] at isBias
        exact (small member isContributor).trans isBias
    · rw [isBias]
      exact Nat.dvd_zero _

/-! A position-independent executable with one section of code. -/

private def codeSection (align : UInt64) : InputSection where
  index := 1
  name := nameOf ".text"
  kind := .text
  shType := shtProgbits
  data := ⟨.owned 0, 0, 1⟩
  align := align
  size := 1
  flags := shfAlloc ||| shfExecinstr
  relocs := []

private def codeSymbol : InputSymbol where
  index := 1
  name := nameOf "_start"
  binding := .global
  isUndefined := false
  isCommon := false
  isIfunc := false
  stType := 2
  visibility := 0
  sectionIndex := some 1
  value := 0
  size := 1

private def alignedObject (align : UInt64) : InputObject :=
  InputObject.assemble "aligned.o" 1 1 [codeSection align] [codeSymbol] []

private def alignedInput (align : UInt64) : LayoutInput where
  arena := { mmaps := [], owned := [[0xc3]] }
  objects := [alignedObject align]
  symbols :=
    match SymbolTable.processAll [⟨alignedObject align, []⟩] with
    | .ok table => table
    | .error _ => SymbolTable.new
  config := { baseAddress := 0, pie := true }

private theorem alignedInput_parsed (align : UInt64) :
    ∀ obj ∈ (alignedInput align).objects, obj.Parsed := by
  intro obj present
  rw [alignedInput, List.mem_singleton] at present
  subst present
  exact InputObject.assemble_parsed _ _ _ _ _ _ (by simp) (by simp)
    (by simp [codeSection]) (by simp [codeSymbol])

theorem runtimeAligned_small :
    ∃ layout, (alignedInput 16).computeLayoutIcf = .ok layout ∧
      (alignedInput 16).RuntimeAligned layout := by
  rcases @exists_layout (alignedInput 16) (by decide +kernel) with ⟨layout, computed⟩
  have small : (alignedInput 16).contributors.all
      (fun member => member.align == 16) = true := by decide +kernel
  refine ⟨layout, computed, (runtimeAligned_iff (alignedInput_parsed 16) computed).mpr
    (Or.inr fun member isContributor => ?_)⟩
  rw [beq_iff_eq.mp (List.all_eq_true.mp small member isContributor)]
  exact ⟨256, rfl⟩

/-- Code that is aligned to 64 KiB, in an image that is loaded at any page. -/
theorem hugeCode_not_runtimeAligned :
    ∃ layout, (alignedInput 0x10000).computeLayoutIcf = .ok layout ∧
      ¬ (alignedInput 0x10000).RuntimeAligned layout := by
  rcases @exists_layout (alignedInput 0x10000) (by decide +kernel) with
    ⟨layout, succeeded⟩
  refine ⟨layout, succeeded, fun aligned => ?_⟩
  rcases computed_of_ok succeeded with ⟨computed⟩
  have isBias : layout.IsBias 0x1000 := by
    have isDyn : layout.eType = etDyn := congrArg Layout.eType computed.assembled
    rw [Layout.IsBias, if_pos isDyn, largestAlign_eq computed]
    exact ⟨1, rfl⟩
  have isContributor : (⟨0, alignedObject 0x10000, 0, codeSection 0x10000⟩ : Contributor) ∈
      (alignedInput 0x10000).contributors := by
    have listed : (alignedInput 0x10000).contributors =
        [⟨0, alignedObject 0x10000, 0, codeSection 0x10000⟩] := rfl
    rw [listed]
    exact List.mem_singleton_self _
  rcases exists_laidOutAt computed isContributor with ⟨address, laidOut⟩
  have natural := laidOutAt_aligned computed (alignedInput_parsed 0x10000) isContributor
    laidOut
  have moved := aligned _ isBias _ isContributor address laidOut
  have atPage : (0x10000 : Nat) ∣ 0x1000 := (Nat.dvd_add_iff_left natural).mpr moved
  revert atPage
  decide

end LayoutInput

end Peony
