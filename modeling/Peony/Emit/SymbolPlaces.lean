import Peony.Emit.Merging
import Peony.Emit.Sections
import Peony.Layout.HashIndex
import Peony.Layout.Numbers

namespace Peony

open Relocatable (SymPlace symPlace symPlace_ofNat)

/-! What the section indices of the symbols of an output are read as, beside the sections
that are planned. -/

/-! ## Reading -/

/-- What the section index of a symbol says, with the table of those that do not fit. -/
def extPlace (extended : List UInt8) (place : Nat) (shndx : UInt16) : Option SymPlace :=
  if shndx = shnXindex then
    (wordFormat.readAt extended place).map fun word => .section word.toNat
  else some (symPlace shndx)

/-- The place of an entry of the symbol table that starts at an offset of the file. -/
def symtabPlace (file : List UInt8) (start : Nat) (extended : List UInt8) (place : Nat) :
    Option SymPlace :=
  extPlace extended place (DynSym.ofBytes ((file.drop (start + 24 * place)).take 24)).shndx

/-- The place of an entry of `.dynsym`, which has no table of indices that do not fit. -/
def dynsymPlace (dynsym : List UInt8) (index : Nat) : Option SymPlace :=
  (DynSym.format.readAt dynsym index).bind fun sym => extPlace [] index sym.shndx

/-! ## Encoding -/

theorem symPlace_eq_section_iff {shndx : UInt16} {number : Nat} :
    symPlace shndx = .section number ↔
      shndx.toNat = number ∧ 0 < number ∧ number < 0xff00 := by
  constructor
  · intro same
    rw [symPlace] at same
    split at same
    · cases same
    · rename_i notUndef
      split at same
      · cases same
      · split at same
        · cases same
        · split at same
          · cases same
          · rename_i below
            rw [SymPlace.section.injEq] at same
            subst same
            refine ⟨rfl, Nat.pos_of_ne_zero fun isZero => notUndef ?_, Nat.lt_of_not_le below⟩
            exact UInt16.toNat_inj.mp isZero
  · rintro ⟨rfl, positive, below⟩
    have same := symPlace_ofNat positive below
    rwa [UInt16.ofNat_toNat] at same

theorem extPlace_section_iff {extended : List UInt8} {place number : Nat}
    (positive : 0 < number)
    (extend : shnReservedHi ≤ UInt32.ofNat number →
      wordFormat.readAt extended place = some (UInt32.ofNat number))
    (blank : ¬ shnReservedHi ≤ UInt32.ofNat number →
      ∀ word, wordFormat.readAt extended place = some word → word = 0) :
    extPlace extended place
        (if shnReservedHi ≤ UInt32.ofNat number then shnXindex
          else (UInt32.ofNat number).toUInt16) = some (.section number) ↔
      number < 2 ^ 32 ∧ (number < 0xff00 ∨ 0x10000 ≤ number) := by
  have word : (UInt32.ofNat number).toNat = number % 2 ^ 32 := UInt32.toNat_ofNat'
  have bound : shnReservedHi ≤ UInt32.ofNat number ↔ 0x10000 ≤ number % 2 ^ 32 := by
    rw [UInt32.le_iff_toNat_le, word]
    rfl
  by_cases large : shnReservedHi ≤ UInt32.ofNat number
  · rw [if_pos large, extPlace, if_pos rfl, extend large, Option.map_some, Option.some.injEq,
      SymPlace.section.injEq, word]
    rw [bound] at large
    omega
  · have narrow : (UInt32.ofNat number).toUInt16.toNat = number % 2 ^ 32 := by
      rw [UInt32.toNat_toUInt16, word]
      rw [bound] at large
      omega
    rw [if_neg large, extPlace]
    split
    · rename_i isXindex
      have all : number % 2 ^ 32 = 0xffff := by rw [← narrow, isXindex]; rfl
      constructor
      · intro read
        rcases Option.map_eq_some_iff.mp read with ⟨entry, found, same⟩
        rw [blank large entry found, SymPlace.section.injEq] at same
        exact absurd same (Nat.ne_of_lt positive)
      · omega
    · rw [Option.some.injEq, symPlace_eq_section_iff, narrow]
      rw [bound] at large
      omega

theorem extPlace_abs (extended : List UInt8) (place : Nat) :
    extPlace extended place
        (if shnReservedHi ≤ shnAbs.toUInt32 then shnXindex else shnAbs.toUInt32.toUInt16) =
      some .abs := rfl

theorem extPlace_narrow_iff {place number : Nat} (positive : 0 < number) :
    extPlace [] place (UInt16.ofNat number) = some (.section number) ↔ number < 0xff00 := by
  have narrow : (UInt16.ofNat number).toNat = number % 2 ^ 16 := UInt16.toNat_ofNat'
  rw [extPlace]
  split
  · rename_i isXindex
    have none : wordFormat.readAt [] place = none := rfl
    have all : number % 2 ^ 16 = 0xffff := by rw [← narrow, isXindex]; rfl
    rw [none, Option.map_none]
    constructor
    · exact fun impossible => nomatch impossible
    · omega
  · rw [Option.some.injEq, symPlace_eq_section_iff, narrow]
    omega

/-! ## The planned places -/

namespace LayoutInput

variable (input : LayoutInput)

/-- The section that a local symbol is listed in, if it is listed. -/
def localPlace (placed : Placement) (entry : Nat × InputSymbol) : Option SymPlace :=
  let (objId, sym) := entry
  if sym.binding != .local || sym.isUndefined || sym.isCommon || sym.name.isEmpty then none
  else
    sym.sectionIndex.bind fun si =>
      (placed.addresses.lookup (objId, si)).bind fun _ =>
        (placed.secToOut.lookup (objId, si)).map fun out => .section (out + 1)

def globalPlace (placed : Placement) (res : SymbolResolution) : Option SymPlace :=
  match res.sectionIndex with
  | none => some .abs
  | some si =>
      res.definedIn.bind fun objId =>
        (placed.secToOut.lookup (objId.toNat, si)).map fun out => .section (out + 1)

/-- The planned places of the entries of `.symtab` behind the null symbol. -/
def symtabPlaces (placed : Placement) : List SymPlace :=
  if input.config.strip then []
  else
    (input.objects.zipIdx.flatMap fun numbered =>
      numbered.1.symbols.map fun sym => (numbered.2, sym)).filterMap (localPlace placed) ++
        input.definedGlobals.filterMap fun entry => globalPlace placed entry.2

end LayoutInput

/-- How a plan writes down the place of a symbol. -/
inductive IsNoted : SymPlace → UInt32 → Prop
  | inSection {number : Nat} (positive : 0 < number) :
      IsNoted (.section number) (UInt32.ofNat number)
  | absolute : IsNoted .abs shnAbs.toUInt32

namespace LayoutInput

variable (input : LayoutInput) (placed : Placement)

def Planned (plan : SymtabPlan) (places : List SymPlace) : Prop :=
  List.Forall₂ (fun entry place => IsNoted place entry.shndx) plan.entries places

theorem planned_push {plan : SymtabPlan} {places : List SymPlace} {place : SymPlace}
    {shndx : UInt32} (planned : Planned plan places) (noted : IsNoted place shndx)
    (name : Name) (info : UInt8) (known : Option (UInt64 × UInt64)) :
    Planned (plan.push name shndx info known) (places ++ [place]) :=
  List.rel_append planned (.cons noted .nil)

theorem planned_addLocal {plan : SymtabPlan} {places : List SymPlace}
    (planned : Planned plan places) (entry : Nat × InputSymbol) :
    Planned (input.addLocal placed plan entry)
      (places ++ (localPlace placed entry).toList) := by
  rcases entry with ⟨objId, sym⟩
  rw [addLocal, localPlace]
  split
  · rw [Option.toList_none, List.append_nil]
    exact planned
  · cases sym.sectionIndex with
    | none =>
        rw [Option.bind_none, Option.toList_none, List.append_nil]
        exact planned
    | some si =>
        rw [Option.bind_some]
        dsimp only
        cases placed.secToOut.lookup (objId, si) with
        | none =>
            cases placed.addresses.lookup (objId, si) <;>
              · simp only [Option.bind_none, Option.bind_some, Option.map_none,
                  Option.toList_none, List.append_nil]
                exact planned
        | some out =>
            cases placed.addresses.lookup (objId, si) with
            | none =>
                rw [Option.bind_none, Option.toList_none, List.append_nil]
                exact planned
            | some secVa =>
                exact planned_push planned (.inSection (Nat.succ_pos out)) _ _ _

theorem planned_addGlobal {plan : SymtabPlan} {places : List SymPlace}
    (planned : Planned plan places) (entry : Name × SymbolResolution) :
    Planned (input.addGlobal placed plan entry)
      (places ++ (globalPlace placed entry.2).toList) := by
  rcases entry with ⟨name, res⟩
  rw [addGlobal, globalShndx, globalPlace]
  cases res.sectionIndex with
  | none => exact planned_push planned .absolute _ _ _
  | some si =>
      cases res.definedIn with
      | none =>
          dsimp only [Option.bind_none]
          rw [Option.toList_none, List.append_nil]
          exact planned
      | some objId =>
          dsimp only [Option.bind_some]
          cases placed.secToOut.lookup (objId.toNat, si) with
          | none =>
              rw [Option.map_none, Option.map_none, Option.toList_none, List.append_nil]
              exact planned
          | some out =>
              rw [Option.map_some, Option.map_some]
              dsimp only
              split <;> exact planned_push planned (.inSection (Nat.succ_pos out)) _ _ _

theorem planned_foldl {Item : Type} {step : SymtabPlan → Item → SymtabPlan}
    {placeOf : Item → Option SymPlace}
    (each : ∀ plan places item, Planned plan places →
      Planned (step plan item) (places ++ (placeOf item).toList))
    (items : List Item) {plan : SymtabPlan} {places : List SymPlace}
    (planned : Planned plan places) :
    Planned (items.foldl step plan) (places ++ items.filterMap placeOf) := by
  induction items generalizing plan places with
  | nil =>
      rw [List.filterMap_nil, List.append_nil]
      exact planned
  | cons item rest induction =>
      have next := induction (each plan places item planned)
      rw [List.append_assoc] at next
      rw [List.foldl_cons, List.filterMap_cons]
      cases isPlace : placeOf item with
      | none =>
          rw [isPlace] at next
          exact next
      | some place =>
          rw [isPlace] at next
          exact next

theorem planned_symtabPlan (ordered : Builders) :
    Planned (input.symtabPlan ordered) (input.symtabPlaces (input.placement ordered)) := by
  rw [symtabPlan, symtabPlaces]
  split
  · exact .nil
  · have empty : Planned {} [] := .nil
    have locals := planned_foldl (fun _ _ entry planned =>
      input.planned_addLocal (input.placement ordered) planned entry)
      (input.objects.zipIdx.flatMap fun numbered =>
        numbered.1.symbols.map fun sym => (numbered.2, sym)) empty
    exact planned_foldl (fun _ _ entry planned =>
      input.planned_addGlobal (input.placement ordered) planned entry) _ locals

theorem lt_of_symtabPlaces {ordered : Builders} {number : Nat}
    (present : .section number ∈ input.symtabPlaces (input.placement ordered)) :
    0 < number ∧ number ≤ (input.placement ordered).sections.length := by
  have placed {key : SectionKey} {place : Option SymPlace}
      (isPlace : place = ((input.placement ordered).secToOut.lookup key).map fun out =>
        .section (out + 1)) (same : place = some (.section number)) :
      0 < number ∧ number ≤ (input.placement ordered).sections.length := by
    rw [isPlace] at same
    rcases Option.map_eq_some_iff.mp same with ⟨out, found, equal⟩
    rw [Relocatable.SymPlace.section.injEq] at equal
    subst equal
    exact ⟨Nat.succ_pos out, lt_of_lookup_secToOut found⟩
  rw [symtabPlaces] at present
  split at present
  · exact absurd present List.not_mem_nil
  · rcases List.mem_append.mp present with isLocal | isGlobal
    · rcases List.mem_filterMap.mp isLocal with ⟨⟨objId, sym⟩, _, isPlace⟩
      rw [localPlace] at isPlace
      split at isPlace
      · exact nomatch isPlace
      · rcases Option.bind_eq_some_iff.mp isPlace with ⟨si, _, inSection⟩
        rcases Option.bind_eq_some_iff.mp inSection with ⟨_, _, same⟩
        exact placed rfl same
    · rcases List.mem_filterMap.mp isGlobal with ⟨entry, _, isPlace⟩
      rw [globalPlace] at isPlace
      split at isPlace
      · exact nomatch isPlace
      · rcases Option.bind_eq_some_iff.mp isPlace with ⟨objId, _, same⟩
        exact placed rfl same

end LayoutInput

/-! ## `.symtab` -/

/-- The table has the numbers that do not fit, and 0 for the others. -/
theorem readAt_symtabShndx {entries : List SymEntry} {place : Nat} {entry : SymEntry}
    (found : entries[place]? = some entry) :
    (shnReservedHi ≤ entry.shndx →
        wordFormat.readAt (buildSymtabShndx entries) (place + 1) = some entry.shndx) ∧
      (¬ shnReservedHi ≤ entry.shndx →
        ∀ word, wordFormat.readAt (buildSymtabShndx entries) (place + 1) = some word →
          word = 0) := by
  rw [buildSymtabShndx]
  by_cases any : (entries.any fun entry => decide (shnReservedHi ≤ entry.shndx)) = true
  · have table : le32 0 ++ entries.flatMap (fun entry =>
        le32 (if shnReservedHi ≤ entry.shndx then entry.shndx else 0)) =
        wordFormat.table (0 :: entries.map fun entry =>
          if shnReservedHi ≤ entry.shndx then entry.shndx else 0) := by
      rw [RecordFormat.table_cons, RecordFormat.table, List.flatMap_map]
      rfl
    rcases List.getElem?_eq_some_iff.mp found with ⟨inEntries, rfl⟩
    have read := @RecordFormat.readAt_table _ _ wordFormat (0 :: entries.map fun entry =>
      if shnReservedHi ≤ entry.shndx then entry.shndx else 0) [] (place + 1) (by
        rw [List.length_cons, List.length_map]
        exact Nat.succ_lt_succ inEntries)
    rw [List.append_nil, List.getElem_cons_succ, List.getElem_map] at read
    rw [if_pos any, table, read]
    constructor
    · intro large
      rw [if_pos large]
    · intro small word same
      rw [if_neg small, Option.some.injEq] at same
      exact same.symm
  · rw [if_neg any]
    constructor
    · intro large
      exact absurd (List.any_eq_true.mpr ⟨entry, List.mem_of_getElem? found,
        decide_eq_true large⟩) any
    · intro _ word impossible
      cases impossible

theorem extPlace_noted_iff {entries : List SymEntry} {place : Nat} {entry : SymEntry}
    (found : entries[place]? = some entry) {target : SymPlace}
    (noted : IsNoted target entry.shndx) :
    extPlace (buildSymtabShndx entries) (place + 1)
        (if shnReservedHi ≤ entry.shndx then shnXindex else entry.shndx.toUInt16) =
          some target ↔
      ∀ number, target = .section number →
        number < 2 ^ 32 ∧ (number < 0xff00 ∨ 0x10000 ≤ number) := by
  rcases readAt_symtabShndx found with ⟨extend, blank⟩
  generalize isWord : entry.shndx = word at noted extend blank ⊢
  cases noted with
  | @inSection number positive =>
      rw [extPlace_section_iff positive extend blank]
      constructor
      · intro fits other same
        rw [Relocatable.SymPlace.section.injEq] at same
        rw [← same]
        exact fits
      · intro fits
        exact fits number rfl
  | absolute =>
      constructor
      · intro _ number impossible
        exact nomatch impossible
      · intro _
        exact extPlace_abs _ _

section Written

variable {input : LayoutInput} {layout : Layout}
variable (computed : LayoutInput.Computed input layout)
variable (noWrap : input.NoWrap computed.pre)
variable (sized : symSize.toNat * (layout.symtab.length + 1) < 2 ^ 64)

include noWrap

theorem stop_le_fileSize {s : OutputSection} (present : s ∈ layout.outputSections)
    (isFileBacked : s.isFileBacked = true) :
    s.shOffset.toNat + s.shSize.toNat ≤ layout.fileSize := by
  have inRanges : s.inFile ∈ layout.fileRanges :=
    List.mem_append_left _ (List.mem_append_right _ (List.mem_map_of_mem
      (List.mem_filter.mpr ⟨present, isFileBacked⟩)))
  exact ((LayoutInput.fileRanges_laid computed noWrap).within inRanges).2

include sized

theorem symtabPlace_written {s : OutputSection} (present : s ∈ layout.outputSections)
    (isSymTab : s.source = .symTab) (symbols : SymbolTable) {file : List UInt8}
    (length : file.length = layout.fileSize) {place : Nat} {entry : SymEntry}
    (found : layout.symtab[place]? = some entry) :
    symtabPlace (writeSymtabSection symbols layout s file) s.shOffset.toNat
        layout.symtabShndx (place + 1) =
      extPlace (buildSymtabShndx layout.symtab) (place + 1)
        (if shnReservedHi ≤ entry.shndx then shnXindex else entry.shndx.toUInt16) := by
  rcases LayoutInput.symTab_shape computed present isSymTab with ⟨shType, shSize⟩
  have isFileBacked : s.isFileBacked = true := by
    rw [OutputSection.isFileBacked, shType]
    decide
  have stop := stop_le_fileSize computed noWrap present isFileBacked
  have bound : layout.fileSize < 2 ^ 64 := by
    rw [congrArg Layout.fileSize computed.assembled]
    exact UInt64.toNat_lt _
  have size : s.shSize.toNat = 24 * (layout.symtab.length + 1) := by
    rw [shSize, UInt64.toNat_mul, UInt64.toNat_ofNat']
    rw [show symSize.toNat = 24 from rfl] at sized ⊢
    omega
  have table : layout.symtabShndx = buildSymtabShndx layout.symtab := by
    have shndx := congrArg Layout.symtabShndx computed.assembled
    rw [LayoutInput.symtab_eq computed]
    exact shndx
  have slice := @slice_writeSymtab symbols s.shOffset 0 layout.symtab
    (zeroSection file s.shOffset s.shSize) (by omega)
    (by rw [length_zeroSection]; omega) place entry found
  rw [Nat.zero_add] at slice
  rw [symtabPlace, writeSymtabSection, slice, DynSym.ofBytes_bytes, table]
  rfl

end Written

end Peony
