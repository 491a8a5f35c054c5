import Peony.Layout.Ordered

namespace Peony

/-! Which output sections are placed: the groups of the input sections, and those
that the linker adds. -/

/-- One section under a condition. -/
def Builder.only (condition : Bool) (b : Builder) : List Builder :=
  if condition then [b] else []

theorem Builder.mem_only {condition : Bool} {b other : Builder} :
    b ∈ Builder.only condition other ↔ condition = true ∧ b = other := by
  cases condition with
  | false => simp [Builder.only]
  | true => simp [Builder.only]

namespace LayoutInput

variable (input : LayoutInput)

/-! ## What the linker adds -/

def addedGot : List Builder :=
  Builder.only (input.gotTotal > 0)
    (Builder.writable (nameOf ".got") shtProgbits input.gotTotal)

def addedBss : List Builder :=
  Builder.only (input.copySpace.size > 0)
    (Builder.synthesized (nameOf ".bss") .bss (shfAlloc ||| shfWrite) shtNobits
      input.copySpace.align input.copySpace.size .rw true)

def addedNotes : List Builder :=
  Builder.only (!input.gnuPropertyNote.isEmpty)
      (Builder.readOnly propertyName shtNote 8
        (UInt64.ofNat input.gnuPropertyNote.length)) ++
    Builder.only input.config.buildId
      (Builder.readOnly (nameOf ".note.gnu.build-id") shtNote 4 buildIdNoteSize) ++
    Builder.only (input.nFdes != 0)
      (Builder.readOnly (nameOf ".eh_frame_hdr") shtProgbits 4
        (12 + 8 * UInt64.ofNat input.nFdes))

def hasPlt : Bool := input.dynamic.isSome && input.nPlt > 0

def addedTables (pre : DynPrebuild) : List Builder :=
  (input.dynamic.toList.flatMap (input.roDyn pre)).filter (fun b => b.size != 0) ++
    Builder.only input.hasPlt
      (Builder.readOnly (nameOf ".rela.plt") shtRela 8
        (UInt64.ofNat input.nPlt * relaSize))

def addedStubs : List Builder :=
  Builder.only input.hasPlt
    (Builder.synthesized (nameOf ".plt") .text (shfAlloc ||| shfExecinstr)
      shtProgbits 16 (UInt64.ofNat input.nPlt * 16) .rx false)

def addedSlots : List Builder :=
  Builder.only input.hasPlt
    (Builder.writable (nameOf ".got.plt") shtProgbits
      (UInt64.ofNat (input.nPlt + 3) * 8))

/-- The groups of a permission, in the order of their names. -/
def groupsOf (wanted : Builder → Bool) : List Builder :=
  sortBy Builder.compareNames (input.groups.filter wanted)

/-- The size of `.dynamic` follows from the sections it points to. -/
def addedDynamic (pre : DynPrebuild) : List Builder :=
  input.dynamic.toList.map fun dynj =>
    Builder.writable (nameOf ".dynamic") shtDynamic
      (UInt64.ofNat (input.dynEntries pre dynj
        (input.groupsOf (fun b => b.perm == .rx) ++ input.addedStubs)
        (input.groupsOf (fun b => b.perm == .rw && !b.isNobits) ++ input.addedGot ++
          input.addedSlots)) * 16)

/-- The output sections before a linker script orders them. -/
theorem synthesizeDynamic_eq (pre : DynPrebuild) :
    input.synthesizeDynamic pre (input.synthesize (bucket input.groups)) =
      { ro := input.groupsOf (fun b => b.perm == .ro) ++ input.addedNotes ++
          input.addedTables pre
        rx := input.groupsOf (fun b => b.perm == .rx) ++ input.addedStubs
        rwPb := input.groupsOf (fun b => b.perm == .rw && !b.isNobits) ++
          input.addedGot ++ input.addedSlots ++ input.addedDynamic pre
        rwBss := input.groupsOf (fun b => b.perm == .rw && b.isNobits) ++
          input.addedBss } := by
  have got : (if input.gotTotal > 0 then
      [Builder.writable (nameOf ".got") shtProgbits input.gotTotal] else []) =
        input.addedGot := by
    simp only [addedGot, Builder.only, decide_eq_true_eq]
  have bss : (if input.copySpace.size > 0 then
      [Builder.synthesized (nameOf ".bss") .bss (shfAlloc ||| shfWrite) shtNobits
        input.copySpace.align input.copySpace.size .rw true] else []) =
        input.addedBss := by
    simp only [addedBss, Builder.only, decide_eq_true_eq]
  have notes (found : List Builder) : found ++
      (if input.gnuPropertyNote.isEmpty then []
        else [Builder.readOnly propertyName shtNote 8
          (UInt64.ofNat input.gnuPropertyNote.length)]) ++
      (if input.config.buildId then
        [Builder.readOnly (nameOf ".note.gnu.build-id") shtNote 4 buildIdNoteSize]
        else []) ++
      (if input.nFdes = 0 then []
        else [Builder.readOnly (nameOf ".eh_frame_hdr") shtProgbits 4
          (12 + 8 * UInt64.ofNat input.nFdes)]) = found ++ input.addedNotes := by
    simp only [addedNotes, Builder.only, Bool.not_eq_true', bne_iff_ne,
      List.append_assoc, ite_not, Bool.eq_false_iff, ne_eq]
  simp only [synthesizeDynamic, synthesize, got, bss, notes]
  cases isDynamic : input.dynamic with
  | none =>
      simp only [addedTables, addedStubs, addedSlots, addedDynamic, hasPlt, isDynamic,
        Option.isSome_none, Bool.false_and, Builder.only, Option.toList_none,
        List.flatMap_nil, List.filter_nil, List.map_nil, List.append_nil,
        Bool.false_eq_true, if_false]
      rfl
  | some dynj =>
      simp only [addedTables, addedStubs, addedSlots, addedDynamic, hasPlt, isDynamic,
        Option.isSome_some, Bool.true_and, Builder.only, Option.toList_some,
        List.flatMap_cons, List.flatMap_nil, List.append_nil, List.map_cons,
        List.map_nil, List.append_assoc]
      rfl

def added (pre : DynPrebuild) : List Builder :=
  input.addedNotes ++ input.addedTables pre ++ input.addedStubs ++ input.addedGot ++
    input.addedSlots ++ input.addedDynamic pre ++ input.addedBss

variable {input} {b : Builder}

theorem mem_groupsOf {wanted : Builder → Bool} :
    b ∈ input.groupsOf wanted ↔ b ∈ input.groups ∧ wanted b = true := by
  rw [groupsOf, mem_sortBy, List.mem_filter]

theorem mem_ordered {pre : DynPrebuild} :
    b ∈ (input.orderedBuilders pre input.groups).all ↔
      b ∈ input.groups ∨ b ∈ input.added pre := by
  simp only [Builders.all, orderedBuilders, scriptOrder, synthesizeDynamic_eq,
    List.mem_append, mem_sortBuildersByScript, mem_groupsOf, added, beq_iff_eq,
    Bool.and_eq_true, Bool.not_eq_true']
  cases isPerm : b.perm with
  | ro =>
      simp only [reduceCtorEq, and_true, and_false, false_and, false_or]
      tauto
  | rx =>
      simp only [reduceCtorEq, and_true, and_false, false_and, false_or]
      tauto
  | rw =>
      cases isNobits : b.isNobits with
      | false =>
          simp only [reduceCtorEq, and_true, and_false, false_or]
          tauto
      | true =>
          simp only [reduceCtorEq, and_true, and_false, false_or]
          tauto

end LayoutInput

/-! ## Raised alignments -/

section Raised

variable {builders : Builders}
variable (powers : ∀ b ∈ builders.rwPb ++ builders.rwBss, b.isTls = true →
  b.align.toNat.isPowerOfTwo)

include powers

/-- The last sort loses no section and adds none. -/
theorem exists_raised {b : Builder} (present : b ∈ builders.all) :
    ∃ raised ∈ (relroOrder builders).all, b.RaisedTo raised := by
  rcases relroOrder_raised powers with ⟨rwPb, rwBss⟩
  simp only [Builders.all, List.mem_append] at present
  rcases present with (inRo | inRx) | (inPb | inBss)
  · exact ⟨b, by simp [Builders.all, inRo], Builder.RaisedTo.refl b⟩
  · exact ⟨b, by simp [Builders.all, inRx], Builder.RaisedTo.refl b⟩
  · rcases Pairwise.exists_right rwPb (mem_sortBy.mpr inPb) with
      ⟨raised, isMember, raises⟩
    exact ⟨raised, by simp [Builders.all, isMember], raises⟩
  · rcases Pairwise.exists_right rwBss (mem_sortBy.mpr inBss) with
      ⟨raised, isMember, raises⟩
    exact ⟨raised, by simp [Builders.all, isMember], raises⟩

theorem exists_unraised {raised : Builder}
    (present : raised ∈ (relroOrder builders).all) :
    ∃ b ∈ builders.all, b.RaisedTo raised := by
  rcases relroOrder_raised powers with ⟨rwPb, rwBss⟩
  simp only [Builders.all, relroOrder_ro, relroOrder_rx, List.mem_append] at present
  rcases present with (inRo | inRx) | (inPb | inBss)
  · exact ⟨raised, by simp [Builders.all, inRo], Builder.RaisedTo.refl raised⟩
  · exact ⟨raised, by simp [Builders.all, inRx], Builder.RaisedTo.refl raised⟩
  · rcases Pairwise.exists_left rwPb inPb with ⟨b, isMember, raises⟩
    exact ⟨b, by simp [Builders.all, mem_sortBy.mp isMember], raises⟩
  · rcases Pairwise.exists_left rwBss inBss with ⟨b, isMember, raises⟩
    exact ⟨b, by simp [Builders.all, mem_sortBy.mp isMember], raises⟩

end Raised

end Peony
