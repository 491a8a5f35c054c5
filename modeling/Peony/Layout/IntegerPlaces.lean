import Peony.Layout.Added
import Peony.Layout.Exactness

namespace Peony

/-! Where the sections of a layout would be if its sums were those of the
integers. -/

open Spans

/-! ## Runs of output sections -/

/-- Output sections with the addresses they have from an address on. -/
def integerRun (start : Nat) (builders : List Builder) : List (Builder × Nat) :=
  builders.zip (Cursor.starts start (builders.map Builder.slot))

def OutputSection.IsAt (base : UInt64) (placed : Builder × Nat) (s : OutputSection) :
    Prop :=
  ∃ shAddr, s = placed.1.output base shAddr ∧ shAddr.toNat = placed.2

theorem Part.outputs_isAt {va : UInt64} {builders : List Builder}
    (fits : Cursor.Fits va (builders.map Builder.slot))
    (aligned : ∀ slot ∈ builders.map Builder.slot, slot.IsAligned) (base : UInt64) :
    List.Forall₂ (OutputSection.IsAt base) (integerRun va.toNat builders)
      (outputs base va builders) := by
  induction builders generalizing va with
  | nil => exact .nil
  | cons b rest induction =>
      have first := Cursor.Slot.advance_exact (aligned _ List.mem_cons_self) fits.1
      have others := induction fits.2
        (fun slot present => aligned slot (List.mem_cons_of_mem _ present))
      rw [first.2] at others
      have isAt : OutputSection.IsAt base (b, _) (b.output base (b.slot.place va)) :=
        ⟨_, rfl, first.1⟩
      exact .cons isAt others

/-! ## Addresses of sections -/

/-- What orders the sections of the TLS block, with the address. -/
abbrev TlsShape := SectionKind × UInt64 × Nat

def OutputSection.tlsShape (s : OutputSection) : TlsShape :=
  (s.kind, s.shFlags, s.shAddr.toNat)

/-- Where the static TLS block begins. -/
def integerTlsBase (shapes : List TlsShape) : Option Nat :=
  let rank (kind : SectionKind) :=
    if kind = .tdata then 0 else if kind = .tbss then 1 else 2
  ((sortBy (fun a b => (compare (rank a.1) (rank b.1)).then (compare a.2.2 b.2.2))
    (shapes.filter fun shape => shape.2.1 &&& shfTls != 0)).head?).map
      fun shape => shape.2.2

theorem sortBy_map {Item Image : Type} (image : Item → Image)
    (cmp : Image → Image → Ordering) (items : List Item) :
    sortBy cmp (items.map image) =
      (sortBy (fun a b => cmp (image a) (image b)) items).map image :=
  (List.map_insertionSort _ _ image items fun _ _ _ _ => Iff.rfl).symm

theorem toNat_tlsBaseVa (sections : List OutputSection) :
    (tlsBaseVa sections).map UInt64.toNat =
      integerTlsBase (sections.map OutputSection.tlsShape) := by
  rw [integerTlsBase, List.filter_map, sortBy_map, List.head?_map, Option.map_map,
    tlsBaseVa, Option.map_map]
  rfl

namespace LayoutInput

variable (input : LayoutInput) (ordered : Builders)

/-- The loaded output sections with their addresses. -/
def integerSections : List (Builder × Nat) :=
  let after (slots : List Cursor.Slot) := Cursor.exact input.base.toNat slots
  let header := [slotOf 1 (input.headerSize ordered)]
  let relro := [slotOf input.page 0] ++ (input.relroPart ordered).slots
  integerRun (after header) ordered.ro ++
    integerRun (after (header ++ (input.roPart ordered).slots ++ [slotOf input.page 0]))
      ordered.rx ++
    (integerRun (after (input.codeRun ordered ++ [slotOf input.page 0]))
        (input.relroPart ordered).builders ++
      integerRun (after (input.codeRun ordered ++ (relro ++ input.pagePad ordered)))
        (input.dataPart ordered).builders ++
      integerRun (after (input.contentRun ordered)) (relroOrder ordered).rwBss)

/-- The address of the first section with a source, or 0. -/
def integerVa (source : SecSource) : Nat :=
  (((input.integerSections ordered).find? fun placed =>
    placed.1.source == source).map Prod.snd).getD 0

/-! ## Addresses of members -/

/-- The members of an output section with their starts in it. -/
def integerMembers (name : Name) : List (Contributor × Nat) :=
  (input.membersOf name).zip
    (Cursor.starts 0 ((input.membersOf name).map Icf.Place.slot))

/-- What is merged into an output section, with its starts in it. -/
def integerContents (b : Builder) : List (Contributor × Nat) :=
  if b.contributions.isEmpty then [] else input.integerMembers b.name

/-- The addresses of all loaded input sections, the latest first. -/
def integerPlaces : List (SectionKey × Nat) :=
  ((input.integerSections ordered).flatMap fun placed =>
    (input.integerContents placed.1).map fun member =>
      (member.1.label, placed.2 + member.2)).reverse

/-- A folded section has the address of the section it is folded onto. -/
def integerPlacement : List (SectionKey × Nat) :=
  match input.foldMap with
  | none => input.integerPlaces ordered
  | some foldMap => Assoc.copyAll (input.integerPlaces ordered) (foldPairs foldMap)

def integerPassed (name : Name) : List (SectionKey × Nat) :=
  ((input.passthroughMembers name).map Icf.Place.label).zip
    (Cursor.starts 0 ((input.passthroughMembers name).map Icf.Place.passedSlot))

/-- The addresses after all sections of the file are placed. -/
def integerAddresses : List (SectionKey × Nat) :=
  (input.passthroughNames.flatMap input.integerPassed).reverse ++
    input.integerPlacement ordered

/-! ## The sections are where the integers put them -/

structure StartsAt (member : Contributor × Nat) (c : SectionContribution) : Prop where
  identity : (c.key, c.sectionPos) = (member.1.label, member.1.pos)
  start : c.extent.start = member.2

theorem identities_collect (first : Contributor) (members : List Contributor) :
    (input.grouping.collect first members).contributions.map
        (fun c => (c.key, c.sectionPos)) =
      members.map fun member => (member.label, member.pos) := by
  induction members using List.reverseRecOn with
  | nil => rfl
  | append_singleton members member induction =>
      rw [collect_append_singleton, Builder.add, List.map_append, induction,
        List.map_append]
      rfl

structure Suits (placed : Builder × Nat) : Prop where
  contents : List.Forall₂ StartsAt (input.integerContents placed.1)
    placed.1.contributions
  small : ∀ c ∈ placed.1.contributions, placed.2 + c.offset.toNat < 2 ^ 64

section Powers

variable {input ordered} (powers : input.AlignmentsArePowers) {pre : DynPrebuild}

include powers

private theorem part_isAt {part : Part} {before : List Cursor.Slot}
    (begins : before ++ part.slots <+: input.addressRun (input.ordered pre))
    (start : Cursor.finish input.base before = part.start)
    (fits : Cursor.Fits input.base (input.addressRun (input.ordered pre))) :
    List.Forall₂ (OutputSection.IsAt input.base)
      (integerRun (Cursor.exact input.base.toNat before) part.builders)
      (part.sections input.base) := by
  have aligned := addressRun_aligned powers pre
  rcases begins with ⟨rest, split⟩
  rw [← split, List.append_assoc] at fits aligned
  have beforeAligned : ∀ slot ∈ before, slot.IsAligned :=
    fun slot present => aligned slot (List.mem_append_left _ present)
  have partAligned : ∀ slot ∈ part.slots, slot.IsAligned := fun slot present =>
    aligned slot (List.mem_append_right _ (List.mem_append_left _ present))
  rw [Cursor.fits_append, Cursor.fits_append, start] at fits
  rw [← fits.1.finish_eq beforeAligned, start]
  exact Part.outputs_isAt fits.2.1 partAligned input.base

theorem loaded_isAt
    (fits : Cursor.Fits input.base (input.addressRun (input.ordered pre))) :
    List.Forall₂ (OutputSection.IsAt input.base)
      (input.integerSections (input.ordered pre)) (input.loaded pre) := by
  have absent {start : Nat} {part : Part} (none : part.builders = []) :
      List.Forall₂ (OutputSection.IsAt input.base) (integerRun start part.builders)
        (part.sections input.base) := by
    rw [Part.sections, none]
    exact .nil
  rw [loaded, (input.placeAll_eq (input.ordered pre)).1, integerSections]
  refine List.rel_append (List.rel_append ?ro ?rx)
    (List.rel_append (List.rel_append ?relro ?data) ?bss)
  case ro =>
    refine part_isAt powers ?_ finish_header fits
    simp [addressRun, contentRun, codeRun]
  case rx =>
    cases isRx : hasRx (input.ordered pre) with
    | false =>
        rw [hasRx, Bool.not_eq_false', List.isEmpty_iff] at isRx
        exact @absent _ (input.rxPart (input.ordered pre)) isRx
    | true =>
        refine @part_isAt _ powers pre (input.rxPart (input.ordered pre)) _ ?_ ?_ fits
        · simp [addressRun, contentRun, codeRun, isRx, Part.slots, rxPart]
        · rw [Cursor.finish_append, finish_ro, finish_page]
          rfl
  case relro =>
    cases isRw : hasRw (input.ordered pre) with
    | false =>
        refine absent ?_
        simp [relroPart, areEmpty_of_not_hasRw isRw]
    | true =>
        refine part_isAt powers ?_ ?_ fits
        · simp [addressRun, contentRun, dataRun, isRw]
        · rw [Cursor.finish_append, finish_codeRun, finish_page]
          rfl
  case data =>
    cases isRw : hasRw (input.ordered pre) with
    | false =>
        refine absent ?_
        simp [dataPart, areEmpty_of_not_hasRw isRw]
    | true =>
        refine part_isAt powers ?_ ?_ fits
        · simp [addressRun, contentRun, dataRun, isRw]
        · rw [Cursor.finish_append, finish_codeRun, Cursor.finish_append, finish_relro,
            finish_pagePad]
  case bss =>
    cases isRw : hasRw (input.ordered pre) with
    | false =>
        refine @absent _ (input.bssPart (input.ordered pre)) ?_
        simp [bssPart, areEmpty_of_not_hasRw isRw]
    | true =>
        refine @part_isAt _ powers pre (input.bssPart (input.ordered pre)) _ ?_ ?_ fits
        · simp [addressRun, isRw]
        · rw [contentRun, isRw, if_pos rfl, Cursor.finish_append, finish_codeRun,
            finish_dataRun]
          rfl

theorem contents_startAt (noWrap : input.NoWrap pre) {b : Builder}
    (isPlaced : b ∈ (relroOrder (input.ordered pre)).all) :
    List.Forall₂ StartsAt (input.integerContents b) b.contributions ∧
      ∀ c ∈ b.contributions, c.offset.toNat ≤ b.size.toNat := by
  have aligned : ∀ member ∈ input.contributors, member.align.toNat.isPowerOfTwo :=
    fun member present => powers.sections member (mem_contributors.mp present).1
  rcases (input.classified_ordered pre input.groups).exists_origin
    (groups_aligned aligned) isPlaced with ⟨origin, isOrigin, ⟨align, rfl, _⟩⟩
  change List.Forall₂ StartsAt (input.integerContents origin) origin.contributions ∧
    ∀ c ∈ origin.contributions, c.offset.toNat ≤ origin.size.toNat
  rcases isOrigin with isGroup | bare
  · rcases mem_groups.mp isGroup with ⟨first, rest, ofName, isCollected⟩
    have members : input.membersOf origin.name = first :: rest := ofName
    have fits := noWrap.grouped origin.name
    have slots := grouped_aligned powers origin.name
    rw [members] at fits slots
    have extents := @collect_extents input first (first :: rest)
    have identities := @identities_collect input first (first :: rest)
    rw [← isCollected] at extents identities
    have starts : origin.contributions.map (fun c => c.extent.start) =
        Cursor.starts 0 ((first :: rest).map Icf.Place.slot) := by
      have spans := fits.starts_eq slots
      rwa [← extents.2, List.map_map] at spans
    refine ⟨?_, fun c present => ?_⟩
    · rw [integerContents, if_neg, integerMembers, members]
      · exact (Pairwise.zip_of_maps identities starts).imp
          fun _ _ agrees => ⟨agrees.1, agrees.2⟩
      · rw [List.isEmpty_iff]
        intro none
        rw [none] at identities
        exact List.cons_ne_nil _ _ identities.symm
    · have laid := fits.laid
      rw [← extents.1, ← extents.2] at laid
      exact (Nat.le_add_right _ _).trans
        (laid.within (List.mem_map_of_mem present)).2
  · rw [integerContents, bare.1]
    exact ⟨.nil, fun c present => absurd present List.not_mem_nil⟩

theorem suits_sections (noWrap : input.NoWrap pre) :
    ∀ placed ∈ input.integerSections (input.ordered pre), input.Suits placed := by
  intro placed present
  rcases Pairwise.exists_right (loaded_isAt powers noWrap.addresses) present with
    ⟨s, isLoaded, shAddr, rfl, isStart⟩
  rcases Pairwise.exists_left (input.placeAll_of _).sections isLoaded with
    ⟨b, isPlaced, _, same, _⟩
  have contributions : placed.1.contributions = b.contributions :=
    congrArg OutputSection.contributions same
  have name : placed.1.name = b.name := congrArg OutputSection.name same
  have size : placed.1.size = b.size := congrArg OutputSection.shSize same
  have contents := contents_startAt powers noWrap isPlaced
  have within := (partsLaid noWrap.addresses).image.within
    (List.mem_map_of_mem isLoaded)
  constructor
  · rw [integerContents, contributions, name]
    exact contents.1
  · intro c among
    rw [contributions] at among
    rw [← isStart]
    have below := contents.2 c among
    rw [← size] at below
    exact (Nat.add_le_add_left below _).trans_lt
      (within.2.trans_lt (UInt64.toNat_lt _))

end Powers

/-! ## The addresses are those of the integers -/

def toIntegers (addresses : List (SectionKey × UInt64)) : List (SectionKey × Nat) :=
  addresses.map fun entry => (entry.1, entry.2.toNat)

theorem lookup_toIntegers (addresses : List (SectionKey × UInt64)) (key : SectionKey) :
    (toIntegers addresses).lookup key = (addresses.lookup key).map UInt64.toNat := by
  induction addresses with
  | nil => rfl
  | cons entry rest induction =>
      rw [toIntegers, List.map_cons, Assoc.lookup_cons, Assoc.lookup_cons]
      split
      · rfl
      · exact induction

theorem toIntegers_copyAll (addresses : List (SectionKey × UInt64))
    (pairs : List (SectionKey × SectionKey)) :
    toIntegers (Assoc.copyAll addresses pairs) =
      Assoc.copyAll (toIntegers addresses) pairs := by
  induction pairs generalizing addresses with
  | nil => rfl
  | cons pair rest induction =>
      have first : toIntegers (Assoc.copy addresses pair.1 pair.2) =
          Assoc.copy (toIntegers addresses) pair.1 pair.2 := by
        rw [Assoc.copy, Assoc.copy, lookup_toIntegers]
        cases addresses.lookup pair.2 <;> rfl
      exact (induction _).trans (congrArg (Assoc.copyAll · rest) first)

section Powers

variable {input} (powers : input.AlignmentsArePowers) {pre : DynPrebuild}
variable (noWrap : input.NoWrap pre)

include powers noWrap

theorem toIntegers_placeAll :
    toIntegers (input.placeAll (input.ordered pre)).placement.addresses =
      input.integerPlaces (input.ordered pre) := by
  have each : ∀ placed s, (input.Suits placed ∧ OutputSection.IsAt input.base placed s) →
      toIntegers s.places = (input.integerContents placed.1).map fun member =>
        (member.1.label, placed.2 + member.2) := by
    rintro placed _ ⟨suits, shAddr, rfl, isStart⟩
    have small : ∀ c ∈ placed.1.contributions,
        (shAddr + c.offset).toNat = placed.2 + c.offset.toNat := by
      intro c among
      have sum := suits.small c among
      rw [← isStart] at sum ⊢
      rw [UInt64.toNat_add, Nat.mod_eq_of_lt sum]
    rw [toIntegers, OutputSection.places, List.map_map]
    have starts : placed.1.contributions.map (fun c =>
        (c.key, placed.2 + c.offset.toNat)) =
          (input.integerContents placed.1).map fun member =>
            (member.1.label, placed.2 + member.2) := by
      refine Pairwise.map_eq suits.contents fun member c startsAt => ?_
      rw [Prod.mk.injEq]
      refine ⟨congrArg Prod.fst startsAt.identity, ?_⟩
      exact congrArg (placed.2 + ·) startsAt.start
    rw [← starts]
    exact List.map_congr_left fun c among => congrArg (c.key, ·) (small c among)
  have pairs := (List.forall₂_and_left _ _).mpr
    ⟨suits_sections powers noWrap, loaded_isAt powers noWrap.addresses⟩
  rw [(input.placeAll_of _).addresses, toIntegers, List.map_reverse, List.map_flatMap,
    integerPlaces, List.flatMap_def, List.flatMap_def]
  exact congrArg (fun lists => lists.flatten.reverse) (Pairwise.map_eq pairs each)

theorem toIntegers_placement :
    toIntegers (input.placement (input.ordered pre)).addresses =
      input.integerPlacement (input.ordered pre) := by
  have placed := toIntegers_placeAll powers noWrap
  rw [integerPlacement, placement]
  cases isMap : input.foldMap with
  | none =>
      rw [aliasFolds, isMap]
      exact placed
  | some foldMap =>
      rw [addresses_aliasFolds isMap, toIntegers_copyAll, placed]

theorem toIntegers_passed {name : Name} (listed : name ∈ input.passthroughNames) :
    toIntegers ((input.passthrough name).contributions.map fun c => (c.key, c.offset)) =
      input.integerPassed name := by
  have starts := (noWrap.passed name listed).starts_eq (passed_aligned powers name)
  have extents := (passthrough_extents (input.passthroughMembers name)).2
  have keys := keys_passthrough (input.passthroughMembers name)
  rw [← extents, List.map_map] at starts
  rw [integerPassed, ← keys]
  change _ = List.zip _ (Cursor.starts (0 : UInt64).toNat _)
  rw [← starts, toIntegers, List.map_map, List.zip_map']
  rfl

theorem toIntegers_fileCursor :
    toIntegers (input.fileCursor (input.ordered pre)).addresses =
      input.integerAddresses (input.ordered pre) := by
  have passed (names : List Name) (listed : ∀ name ∈ names, name ∈ input.passthroughNames)
      (cursor : FileCursor) :
      toIntegers (names.foldl input.pushPassthrough cursor).addresses =
        (names.flatMap input.integerPassed).reverse ++ toIntegers cursor.addresses := by
    induction names generalizing cursor with
    | nil => rfl
    | cons name rest induction =>
        have first : toIntegers (input.pushPassthrough cursor name).addresses =
            (input.integerPassed name).reverse ++ toIntegers cursor.addresses := by
          rw [← toIntegers_passed powers noWrap (listed name List.mem_cons_self),
            pushPassthrough]
          split
          · rename_i none
            rw [List.isEmpty_iff.mp none]
            rfl
          · dsimp only
            rw [foldl_cons_map fun c : SectionContribution => (c.key, c.offset),
              toIntegers, List.map_append, List.map_reverse]
            rfl
        rw [List.foldl_cons, induction
            (fun other present => listed other (List.mem_cons_of_mem _ present)),
          first, List.flatMap_cons, List.reverse_append, List.append_assoc]
  have symtabs (plan : SymtabPlan) (cursor : FileCursor) :
      (cursor.pushSymtab plan).addresses = cursor.addresses := by
    rw [FileCursor.pushSymtab]
    split <;> rfl
  have relas (plan : SymtabPlan) (cursor : FileCursor) :
      (input.pushRelas plan cursor).addresses = cursor.addresses := by
    have each (sections : List (OutputSection × Nat)) (cursor : FileCursor) :
        (sections.foldl (input.pushRela plan) cursor).addresses = cursor.addresses := by
      induction sections generalizing cursor with
      | nil => rfl
      | cons numbered rest induction =>
          rw [List.foldl_cons, induction, pushRela]
          split
          · rfl
          · simp only
            split <;> rfl
    exact each _ cursor
  rw [fileCursor, layOutMeta, placeMeta, passed _ fun _ => id, integerAddresses,
    ← toIntegers_placement powers noWrap]
  refine congrArg (_ ++ toIntegers ·) ?_
  split
  · rw [relas]
    split
    · rfl
    · rw [symtabs]
  · split
    · rfl
    · rw [symtabs]

theorem toNat_tlsBase :
    (tlsBaseVa (input.placement (input.ordered pre)).sections).map UInt64.toNat =
      integerTlsBase ((input.integerSections (input.ordered pre)).map fun placed =>
        (placed.1.kind, placed.1.shFlags, placed.2)) := by
  rw [toNat_tlsBaseVa, sections_placement]
  refine congrArg integerTlsBase
    (Pairwise.map_eq (loaded_isAt powers noWrap.addresses) ?_)
  rintro placed _ ⟨shAddr, rfl, isStart⟩
  rw [← isStart]
  rfl

end Powers

theorem isSome_secToOut (ordered : Builders) (key : SectionKey) :
    ((input.placement ordered).secToOut.lookup key).isSome =
      ((input.placement ordered).addresses.lookup key).isSome := by
  have lookups {first : List (SectionKey × Nat)} {second : List (SectionKey × UInt64)}
      (same : first.map Prod.fst = second.map Prod.fst) (key : SectionKey) :
      (first.lookup key).isSome = (second.lookup key).isSome := by
    rw [Bool.eq_iff_iff, ← not_iff_not, Bool.not_eq_true, Bool.not_eq_true,
      Option.isSome_eq_false_iff, Option.isSome_eq_false_iff, Option.isNone_iff_eq_none,
      Option.isNone_iff_eq_none, Assoc.lookup_eq_none, Assoc.lookup_eq_none, same]
  have folded (entries : List ((_ : SectionKey) × SectionKey)) (placed : Placement)
      (same : placed.secToOut.map Prod.fst = placed.addresses.map Prod.fst) :
      let after := entries.foldl (fun placed entry => aliasOne placed entry.1 entry.2) placed
      after.secToOut.map Prod.fst = after.addresses.map Prod.fst := by
    induction entries generalizing placed with
    | nil => exact same
    | cons entry rest induction =>
        refine induction (aliasOne placed entry.1 entry.2) ?_
        have found := lookups same entry.2
        simp only [aliasOne, Assoc.copy]
        cases isOut : placed.secToOut.lookup entry.2 <;>
          cases isAddress : placed.addresses.lookup entry.2 <;>
          simp [isOut, isAddress, same] at found ⊢
  have placed : (input.placeAll ordered).placement.secToOut.map Prod.fst =
      (input.placeAll ordered).placement.addresses.map Prod.fst := by
    rw [(input.placeAll_of ordered).secToOut, (input.placeAll_of ordered).addresses,
      List.map_reverse, List.map_reverse, List.map_flatMap, List.map_flatMap]
    refine congrArg List.reverse ?_
    have each : ∀ numbered : OutputSection × Nat,
        (numbered.1.contributions.map fun c => (c.key, numbered.2)).map Prod.fst =
          numbered.1.places.map Prod.fst := by
      intro numbered
      rw [OutputSection.places, List.map_map, List.map_map]
      rfl
    simp only [each]
    conv => rhs; rw [← List.zipIdx_map_fst 0 (input.placeAll ordered).placement.sections]
    rw [List.flatMap_map]
  refine lookups ?_ key
  rw [placement, aliasFolds]
  cases input.foldMap with
  | none => exact placed
  | some foldMap => exact folded foldMap.entries _ placed

end LayoutInput

end Peony
