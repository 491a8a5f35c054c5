import Peony.Emit.ComputedRegions
import Peony.Driver.RelaDyn

namespace Peony

/-! The layout that a link hands to its emission: dynamic relocations and thread-local slots
are put into one that is computed. -/

open Spans

namespace Layout

/-! ## `.rela.dyn` in its place -/

theorem length_takeFitting {room used : Nat} (below : used ≤ room)
    (entries : List (List UInt8)) :
    used + 24 * (takeFitting room used entries).length ≤ room := by
  have taken : (takeFitting room used entries).length ≤ (room - used) / 24 :=
    List.length_take_le _ _
  have fits := Nat.mul_div_le (room - used) 24
  omega

theorem length_writtenRelaDyn (room : Nat) (wanted : RelaDyn) :
    24 * (writtenRelaDyn room wanted).entries.length ≤ room := by
  have relative := length_takeFitting (Nat.zero_le room) wanted.relative
  rw [Nat.zero_add] at relative
  have irelative := length_takeFitting relative wanted.irelative
  rw [← Nat.mul_add] at irelative
  have tls := length_takeFitting irelative wanted.tls
  rw [← Nat.mul_add] at tls
  have symbolic := length_takeFitting tls wanted.symbolic
  rw [← Nat.mul_add] at symbolic
  rw [RelaDyn.entries, List.length_append, List.length_append, List.length_append]
  exact symbolic

theorem length_flatten_written {room : Nat} {relocs : DynamicRelocs} {tls : List TlsDynReloc} :
    (writtenRelaDyn room (wantedRelaDyn relocs tls)).entries.flatten.length =
      24 * (writtenRelaDyn room (wantedRelaDyn relocs tls)).entries.length := by
  have wanted : ∀ entry ∈ (wantedRelaDyn relocs tls).entries, entry.length = 24 := by
    intro entry present
    rw [entries_wantedRelaDyn] at present
    rcases List.mem_map.mp present with ⟨rela, _, rfl⟩
    exact Rela.format.length_write rela
  have each : ∀ entry ∈ (writtenRelaDyn room (wantedRelaDyn relocs tls)).entries,
      entry.length = 24 := by
    intro entry present
    refine wanted entry ?_
    simp only [RelaDyn.entries, writtenRelaDyn, List.mem_append] at present ⊢
    rcases present with ((isRelative | isIrelative) | isTls) | isSymbolic
    · exact .inl (.inl (.inl (List.mem_of_mem_take isRelative)))
    · exact .inl (.inl (.inr (List.mem_of_mem_take isIrelative)))
    · exact .inl (.inr (List.mem_of_mem_take isTls))
    · exact .inr (List.mem_of_mem_take isSymbolic)
  generalize (writtenRelaDyn room (wantedRelaDyn relocs tls)).entries = entries at each
  induction entries with
  | nil => rfl
  | cons entry rest induction =>
      rw [List.flatten_cons, List.length_append, each entry List.mem_cons_self,
        induction fun other isOther => each other (List.mem_cons_of_mem _ isOther),
        List.length_cons, Nat.mul_succ, Nat.add_comm]

variable (layout : Layout) (relocs : DynamicRelocs) (tls : List TlsDynReloc)

/-- The entries of the imports and the copies, which come last. -/
def relaSuffix (layout : Layout) : List UInt8 :=
  layout.dynBlobs.relaGlobDat ++ layout.dynBlobs.relaCopy

/-- The table does not leave its section. -/
theorem length_relaDyn_appendAll
    (suffix : layout.relaSuffix.length ≤ layout.relaDynSectionSize.toNat) :
    (layout.appendAllDynamicRelocs relocs tls).dynBlobs.relaDyn.length ≤
      layout.relaDynSectionSize.toNat := by
  have whole : (UInt64.ofNat layout.relaSuffix.length).toNat = layout.relaSuffix.length :=
    UInt64.toNat_ofNat'.trans
      (Nat.mod_eq_of_lt (suffix.trans_lt layout.relaDynSectionSize.toNat_lt))
  have room : (layout.relaDynSectionSize - UInt64.ofNat layout.relaSuffix.length).toNat =
      layout.relaDynSectionSize.toNat - layout.relaSuffix.length := by
    rw [UInt64.toNat_sub_of_le _ _ (UInt64.le_iff_toNat_le.mpr (whole.trans_le suffix)), whole]
  have written := length_writtenRelaDyn
    (layout.relaDynSectionSize - UInt64.ofNat layout.relaSuffix.length).toNat
    (wantedRelaDyn relocs tls)
  change ((writtenRelaDyn (layout.relaDynSectionSize -
    UInt64.ofNat layout.relaSuffix.length).toNat (wantedRelaDyn relocs tls)).entries.flatten ++
      layout.relaSuffix).length ≤ _
  rw [List.length_append, length_flatten_written]
  omega

theorem length_patchTag (tag value : UInt64) (fuel : Nat) (bytes : List UInt8) :
    (patchTag tag value fuel bytes).length = bytes.length := by
  induction fuel generalizing bytes with
  | zero => rfl
  | succ fuel induction =>
      rw [patchTag]
      split
      · rfl
      · rename_i long
        split
        · rw [List.length_append, List.length_append, List.length_take, length_toLeBytes,
            List.length_drop]
          omega
        · split
          · rfl
          · rw [List.length_append, induction, List.length_take, List.length_drop]
            omega

end Layout

/-! ## Sections that are cut -/

structure OutputSection.Cuts (s cut : OutputSection) : Prop where
  same : cut = { s with shSize := cut.shSize }
  shorter : cut.shSize.toNat ≤ s.shSize.toNat
  only : cut.shSize = s.shSize ∨ s.source = .relaDyn ∧ s.contributions = []

namespace OutputSection.Cuts

variable {s cut : OutputSection} (cuts : s.Cuts cut)

theorem refl (s : OutputSection) : s.Cuts s := ⟨rfl, le_rfl, .inl rfl⟩

include cuts

theorem source : cut.source = s.source := by rw [cuts.same]

theorem contributions : cut.contributions = s.contributions := by rw [cuts.same]

theorem name : cut.name = s.name := by rw [cuts.same]

theorem shAddr : cut.shAddr = s.shAddr := by rw [cuts.same]

theorem shOffset : cut.shOffset = s.shOffset := by rw [cuts.same]

theorem isFileBacked : cut.isFileBacked = s.isFileBacked := by rw [cuts.same]; rfl

theorem isLoaded : cut.isLoaded = s.isLoaded := by rw [cuts.same]; rfl

theorem hasPlace {place : Nat} (inside : cut.HasPlace place) : s.HasPlace place := by
  have shorter := cuts.shorter
  have offset := congrArg UInt64.toNat cuts.shOffset
  have above : cut.shOffset.toNat ≤ place := inside.1
  have below : place < cut.shOffset.toNat + cut.shSize.toNat := inside.2
  exact ⟨by omega, by omega⟩

end OutputSection.Cuts

structure Layout.Cuts (before after : Layout) : Prop where
  sections : List.Forall₂ OutputSection.Cuts before.outputSections after.outputSections
  phoff : after.phoff = before.phoff
  phnum : after.phnum = before.phnum
  segments : after.segments = before.segments
  shoff : after.shoff = before.shoff
  shnum : after.shnum = before.shnum
  fileSize : after.fileSize = before.fileSize

/-- Ranges that end earlier stay apart. -/
theorem laid_of_shorter {low high : Nat} {spans shorter : List Span}
    (laid : Laid low spans high)
    (pairs : List.Forall₂ (fun span other : Span => other.start = span.start ∧
      other.size ≤ span.size) spans shorter) : Laid low shorter high := by
  induction pairs generalizing low with
  | nil => exact .nil laid.le
  | @cons span other rest others same _ induction =>
      cases laid with
      | cons above laid =>
          refine .cons (above.trans same.1.ge) ((induction laid).widen ?_ le_rfl)
          rw [Span.stop, Span.stop, same.1]
          exact Nat.add_le_add_left same.2 _

namespace Layout.Cuts

variable {before after : Layout} (cuts : before.Cuts after)

include cuts

theorem exists_before {cut : OutputSection} (present : cut ∈ after.outputSections) :
    ∃ s ∈ before.outputSections, s.Cuts cut :=
  Pairwise.exists_left cuts.sections present

theorem fileRanges_laid {size : Nat} (laid : Laid 0 before.fileRanges size) :
    Laid 0 after.fileRanges size := by
  refine laid_of_shorter laid ?_
  have sections : List.Forall₂ (fun span other : Span => other.start = span.start ∧
      other.size ≤ span.size)
      ((before.outputSections.filter OutputSection.isFileBacked).map OutputSection.inFile)
      ((after.outputSections.filter OutputSection.isFileBacked).map
        OutputSection.inFile) := by
    have pairs := cuts.sections
    generalize before.outputSections = sections at pairs
    generalize after.outputSections = cutSections at pairs
    induction pairs with
    | nil => exact .nil
    | @cons s cut rest others cutsOne _ induction =>
        rw [List.filter_cons, List.filter_cons, cutsOne.isFileBacked]
        split
        · refine .cons ⟨?_, cutsOne.shorter⟩ induction
          exact congrArg UInt64.toNat cutsOne.shOffset
        · exact induction
  rw [Layout.fileRanges, Layout.fileRanges, cuts.phoff, cuts.phnum, cuts.shoff, cuts.shnum]
  exact List.rel_append
    (List.rel_append (.cons ⟨rfl, le_rfl⟩ .nil) sections) (.cons ⟨rfl, le_rfl⟩ .nil)

theorem exists_find {chosen : OutputSection → Bool}
    (stays : ∀ s cut : OutputSection, s.Cuts cut → chosen cut = chosen s) {cut : OutputSection}
    (found : after.outputSections.find? chosen = some cut) :
    ∃ s, before.outputSections.find? chosen = some s ∧ s.Cuts cut := by
  have pairs := cuts.sections
  generalize before.outputSections = sections at pairs
  generalize after.outputSections = cutSections at pairs found
  induction pairs with
  | nil => cases found
  | @cons s other rest others cutsOne _ induction =>
      rw [List.find?_cons, stays s other cutsOne] at found
      rw [List.find?_cons]
      cases isChosen : chosen s with
      | true =>
          rw [isChosen] at found
          cases found
          exact ⟨s, rfl, cutsOne⟩
      | false =>
          rw [isChosen] at found
          exact induction found

variable {objects : List InputObject}

theorem separate (holds : before.Separate objects)
    (contents : ∀ s ∈ after.outputSections, after.contentSize s.source ≤ s.shSize.toNat)
    (slots : ∀ slot ∈ after.tlsGotWrites, slot.1.toNat + 8 < 2 ^ 64) :
    after.Separate objects where
  laid := by
    rw [cuts.fileSize]
    exact cuts.fileRanges_laid holds.laid
  headers := by
    rw [cuts.phoff]
    exact holds.headers
  segments := by
    rw [cuts.segments, cuts.phnum]
    exact holds.segments
  backed cut present notBss := by
    rcases cuts.exists_before present with ⟨s, isBefore, cutsOne⟩
    rw [cutsOne.isFileBacked]
    exact holds.backed s isBefore (cutsOne.source ▸ notBss)
  extents cut present c among := by
    rcases cuts.exists_before present with ⟨s, isBefore, cutsOne⟩
    rw [cutsOne.contributions] at among
    rcases cutsOne.only with size | ⟨_, none⟩
    · rw [size]
      exact holds.extents s isBefore c among
    · rw [none] at among
      exact absurd among List.not_mem_nil
  items cut present c among item isItem := by
    rcases cuts.exists_before present with ⟨s, isBefore, cutsOne⟩
    rw [cutsOne.contributions] at among
    rw [cutsOne.same] at isItem
    exact holds.items s isBefore c among item isItem
  contents := contents
  slots := by
    refine ⟨fun got isGot => ?_, slots⟩
    rcases cuts.exists_find (fun s cut cutsOne => by rw [cutsOne.source]) isGot with
      ⟨s, isBefore, cutsOne⟩
    have bound := holds.slots.1 s isBefore
    have shorter := cutsOne.shorter
    rw [cutsOne.shAddr]
    omega
  frames eh isEh := by
    rcases cuts.exists_find (fun s cut cutsOne => by rw [cutsOne.name]) isEh with
      ⟨s, isBefore, cutsOne⟩
    rw [cutsOne.source]
    exact holds.frames s isBefore

theorem vacant {place : Nat} (holds : before.Vacant place) : after.Vacant place := by
  refine ⟨?_, ?_, fun cut present notBss inside => ?_⟩
  · rw [Layout.headersStop, cuts.phoff, cuts.phnum]
    exact holds.1
  · rw [cuts.shoff]
    exact holds.2.1
  · rcases cuts.exists_before present with ⟨s, isBefore, cutsOne⟩
    exact holds.2.2 s isBefore (cutsOne.source ▸ notBss) (cutsOne.hasPlace inside)

theorem loadable (holds : before.Loadable) : after.Loadable := by
  have headers : after.loadHeaders = before.loadHeaders := by
    rw [Layout.loadHeaders, cuts.segments]
    rfl
  have inside {s cut : OutputSection} (cutsOne : s.Cuts cut) :
      cut.memory.start = s.memory.start ∧ cut.memory.stop ≤ s.memory.stop := by
    have start : cut.memory.start = s.memory.start := congrArg UInt64.toNat cutsOne.shAddr
    refine ⟨start, ?_⟩
    rw [Span.stop, Span.stop, start]
    exact Nat.add_le_add_left cutsOne.shorter _
  refine ⟨⟨?_, ?_⟩, ?_, fun cut present isLoaded => ?_, fun cut present isLoaded => ?_⟩
  · rw [cuts.phnum, cuts.segments]
    exact holds.counted
  · rw [cuts.phnum]
    exact holds.few
  · rw [headers]
    exact holds.apart
  · rcases cuts.exists_before present with ⟨s, isBefore, cutsOne⟩
    rw [cutsOne.isLoaded] at isLoaded
    rcases holds.sections s isBefore isLoaded with ⟨header, isHeader, contains, brings⟩
    rcases inside cutsOne with ⟨start, stop⟩
    rw [headers]
    refine ⟨header, isHeader, ⟨start ▸ contains.1, stop.trans contains.2⟩, ?_⟩
    cases brings with
    | copied inFile offset vacant =>
        refine .copied (stop.trans inFile) ?_ fun isBss place isPlace => ?_
        · rw [start, cutsOne.shOffset]
          exact offset
        · rw [cutsOne.source] at isBss
          exact cuts.vacant (vacant isBss place (cutsOne.hasPlace isPlace))
    | zeroed isBss behind =>
        refine .zeroed (cutsOne.source.trans isBss) ?_
        rw [start]
        exact behind
  · rcases cuts.exists_before present with ⟨s, isBefore, cutsOne⟩
    rw [cutsOne.isLoaded] at isLoaded
    exact (inside cutsOne).2.trans_lt (holds.addresses s isBefore isLoaded)

end Layout.Cuts

/-! ## Slots of thread-local storage -/

section

variable (objects : List InputObject) (symbols : SymbolTable) (layout : Layout)

theorem writes_all {contents : TlsRef → TlsGotContents} {refs : List TlsRef}
    {slot : UInt64 × UInt64}
    (present : slot ∈ (refs.foldl (fun found ref => found ++ contents ref) {}).staticWrites) :
    ∃ ref, slot ∈ (contents ref).staticWrites := by
  induction refs using List.reverseRecOn with
  | nil => exact absurd present List.not_mem_nil
  | append_singleton refs ref induction =>
      rw [List.foldl_append, List.foldl_cons, List.foldl_nil] at present
      rcases List.mem_append.mp present with before | isLast
      · exact induction before
      · exact ⟨ref, isLast⟩

theorem within_tlsSpans {got : TlsGot} (isGd : layout.tlsGdAddr = got.gd)
    (isLdm : layout.tlsLdmAddr = got.ldm) (isIe : layout.tlsIeAddr = got.ie)
    {start stop : Nat} (laid : Laid start got.spans stop) (small : stop < 2 ^ 64)
    {tls : TlsGotInfo} {shared : Bool} {slot : UInt64 × UInt64}
    (present : slot ∈ (collectTlsGot objects symbols layout tls shared).staticWrites) :
    start ≤ slot.1.toNat ∧ slot.1.toNat + 8 ≤ stop := by
  have second {pair : UInt64} (isPair : ⟨pair.toNat, 16⟩ ∈ got.spans) :
      start ≤ (pair + 8).toNat ∧ (pair + 8).toNat + 8 ≤ stop := by
    have bounds := laid.within isPair
    have eight : (8 : UInt64).toNat = 8 := rfl
    rw [Span.stop] at bounds
    rw [UInt64.toNat_add, eight]
    dsimp only at bounds
    omega
  rw [collectTlsGot] at present
  rcases List.mem_append.mp present with isShared | isIeSlot
  · split at isShared
    · rcases List.mem_append.mp isShared with isPair | isModule
      · rcases List.mem_append.mp isPair with isGdSlot | isDescSlot
        · rcases writes_all isGdSlot with ⟨ref, among⟩
          rw [gdContents] at among
          split at among
          · exact absurd among List.not_mem_nil
          · rename_i pair found
            rw [isGd] at found
            dsimp only at among
            split at among
            · exact absurd among List.not_mem_nil
            · rw [List.mem_singleton.mp among]
              exact second (TlsGot.gd_mem_spans found)
        · rcases writes_all isDescSlot with ⟨ref, among⟩
          rw [descContents] at among
          split at among
          · exact absurd among List.not_mem_nil
          · exact absurd among List.not_mem_nil
      · rw [ldmContents] at isModule
        split at isModule
        · exact absurd isModule List.not_mem_nil
        · rename_i pair found
          rw [isLdm] at found
          rw [List.mem_singleton.mp isModule]
          exact second (TlsGot.ldm_mem_spans found)
    · exact absurd isShared List.not_mem_nil
  · rcases writes_all isIeSlot with ⟨ref, among⟩
    rw [ieContents] at among
    split at among
    · exact absurd among List.not_mem_nil
    · rename_i address found
      rw [isIe] at found
      dsimp only at among
      split at among
      · exact absurd among List.not_mem_nil
      · split at among
        · exact absurd among List.not_mem_nil
        · rw [List.mem_singleton.mp among]
          have bounds := laid.within (TlsGot.ie_mem_spans found)
          exact bounds

end

/-! ## What a link adds to its layout -/

theorem cuts_mapFirst {size : UInt64} {sections : List OutputSection}
    (shorter : ∀ s ∈ sections, s.source = .relaDyn →
      size.toNat ≤ s.shSize.toNat ∧ s.contributions = []) :
    List.Forall₂ OutputSection.Cuts sections
      (Layout.mapFirst (fun s => s.source == .relaDyn) (fun s => { s with shSize := size })
        sections) := by
  induction sections with
  | nil => exact .nil
  | cons s rest induction =>
      rw [Layout.mapFirst]
      split
      · rename_i isRelaDyn
        rw [beq_iff_eq] at isRelaDyn
        rcases shorter s List.mem_cons_self isRelaDyn with ⟨fits, none⟩
        exact .cons ⟨rfl, fits, .inr ⟨isRelaDyn, none⟩⟩
          (List.forall₂_same.mpr fun other _ => OutputSection.Cuts.refl other)
      · exact .cons (OutputSection.Cuts.refl s)
          (induction fun other present => shorter other (List.mem_cons_of_mem _ present))

theorem mem_mapFirst {chosen : OutputSection → Bool} {change : OutputSection → OutputSection}
    {sections : List OutputSection} {s : OutputSection}
    (present : s ∈ Layout.mapFirst chosen change sections) :
    s ∈ sections ∨ ∃ before ∈ sections, s = change before := by
  induction sections with
  | nil => exact absurd present List.not_mem_nil
  | cons first rest induction =>
      rw [Layout.mapFirst] at present
      split at present
      · rcases List.mem_cons.mp present with isFirst | isOther
        · exact .inr ⟨first, List.mem_cons_self, isFirst⟩
        · exact .inl (List.mem_cons_of_mem _ isOther)
      · rcases List.mem_cons.mp present with isFirst | isOther
        · rw [isFirst]
          exact .inl List.mem_cons_self
        · rcases induction isOther with among | ⟨before, among, same⟩
          · exact .inl (List.mem_cons_of_mem _ among)
          · exact .inr ⟨before, List.mem_cons_of_mem _ among, same⟩

namespace Layout

section

variable {layout : Layout} {relocs : DynamicRelocs} {tls : List TlsDynReloc}
variable (suffix : layout.relaSuffix.length ≤ layout.relaDynSectionSize.toNat)
variable (own : ∀ s ∈ layout.outputSections, s.source = .relaDyn →
  s.shSize = layout.relaDynSectionSize ∧ s.contributions = [])

include suffix

theorem toNat_relaDyn_appendAll :
    (UInt64.ofNat (layout.appendAllDynamicRelocs relocs tls).dynBlobs.relaDyn.length).toNat =
      (layout.appendAllDynamicRelocs relocs tls).dynBlobs.relaDyn.length :=
  UInt64.toNat_ofNat'.trans (Nat.mod_eq_of_lt
    ((layout.length_relaDyn_appendAll relocs tls suffix).trans_lt
      layout.relaDynSectionSize.toNat_lt))

include own

theorem cuts_appendAll : layout.Cuts (layout.appendAllDynamicRelocs relocs tls) where
  sections := by
    have fits := layout.length_relaDyn_appendAll relocs tls suffix
    rw [← toNat_relaDyn_appendAll suffix] at fits
    exact cuts_mapFirst fun s present isRelaDyn =>
      ⟨fits.trans_eq (congrArg UInt64.toNat (own s present isRelaDyn).1).symm,
        (own s present isRelaDyn).2⟩
  phoff := rfl
  phnum := rfl
  segments := rfl
  shoff := rfl
  shnum := rfl
  fileSize := rfl

omit suffix own in
theorem mem_appendAll {s : OutputSection}
    (present : s ∈ (layout.appendAllDynamicRelocs relocs tls).outputSections) :
    s ∈ layout.outputSections ∨
      s.shSize = UInt64.ofNat
        (layout.appendAllDynamicRelocs relocs tls).dynBlobs.relaDyn.length := by
  rw [appendAllDynamicRelocs, setRelaDynSize] at present
  rcases mem_mapFirst present with among | ⟨before, _, isCut⟩
  · exact .inl among
  · rw [isCut]
    exact .inr rfl

omit suffix own in
theorem contentSize_appendAll {source : SecSource} (other : source ≠ .relaDyn) :
    (layout.appendAllDynamicRelocs relocs tls).contentSize source =
      layout.contentSize source := by
  have dynamic : (layout.appendAllDynamicRelocs relocs tls).dynBlobs.dynamic.length =
      layout.dynBlobs.dynamic.length := by
    rw [appendAllDynamicRelocs, setRelaDynSize, patchDtTag, patchDtTag, length_patchTag,
      length_patchTag]
  cases source with
  | relaDyn => exact absurd rfl other
  | dynamic => exact dynamic
  | _ => rfl

theorem contents_appendAll
    (contents : ∀ s ∈ layout.outputSections, layout.contentSize s.source ≤ s.shSize.toNat) :
    ∀ s ∈ (layout.appendAllDynamicRelocs relocs tls).outputSections,
      (layout.appendAllDynamicRelocs relocs tls).contentSize s.source ≤ s.shSize.toNat := by
  intro s present
  have cuts := @cuts_appendAll layout relocs tls suffix own
  rcases cuts.exists_before present with ⟨before, isBefore, cutsOne⟩
  have stays := contents before isBefore
  rw [← cutsOne.source] at stays
  by_cases isRelaDyn : s.source = .relaDyn
  · rw [isRelaDyn]
    rcases mem_appendAll present with among | size
    · rw [(own s among isRelaDyn).1]
      exact layout.length_relaDyn_appendAll relocs tls suffix
    · rw [size]
      exact (toNat_relaDyn_appendAll suffix).ge
  · rcases cutsOne.only with size | ⟨isCut, _⟩
    · rw [size]
      exact (contentSize_appendAll isRelaDyn).trans_le stays
    · exact absurd (cutsOne.source.trans isCut) isRelaDyn

end

end Layout

namespace LayoutInput

section

variable (input : LayoutInput) (pre : DynPrebuild) (ordered : Builders) (entry : UInt64)

theorem gotBase_assemble : (input.assemble pre ordered entry).gotBase =
    vaOf (input.assemble pre ordered entry).outputSections .got := by
  simp only [assemble]

theorem tlsSlots_assemble :
    (input.assemble pre ordered entry).tlsGdAddr =
        (layOutTlsGot input.tls ((input.assemble pre ordered entry).gotBase +
          input.scalarGotBytes)).gd ∧
      (input.assemble pre ordered entry).tlsLdmAddr =
        (layOutTlsGot input.tls ((input.assemble pre ordered entry).gotBase +
          input.scalarGotBytes)).ldm ∧
      (input.assemble pre ordered entry).tlsIeAddr =
        (layOutTlsGot input.tls ((input.assemble pre ordered entry).gotBase +
          input.scalarGotBytes)).ie := by
  simp only [assemble, and_self]

end

variable {input : LayoutInput} {layout : Layout} (computed : Computed input layout)

include computed

/-- The slots of thread-local storage are behind the others. -/
theorem tlsSpans_laid (noWrap : input.NoWrap computed.pre) (fits : input.FitsOutput layout) :
    ∃ got : TlsGot, (layout.tlsGdAddr = got.gd ∧ layout.tlsLdmAddr = got.ldm ∧
        layout.tlsIeAddr = got.ie) ∧
      Laid (layout.gotBase.toNat + 8 * layout.gotSlots.length) got.spans
        (layout.gotBase.toNat + 8 * layout.gotSlots.length + input.tls.slotBytes) ∧
      layout.gotBase.toNat + 8 * layout.gotSlots.length + input.tls.slotBytes < 2 ^ 64 := by
  have total := toNat_gotTotal fits.slots
  have isBase : layout.gotBase = vaOf layout.outputSections .got := by
    have isAssembled := input.gotBase_assemble computed.pre (input.ordered computed.pre)
      computed.entry
    rw [← computed.assembled] at isAssembled
    exact isAssembled
  have gotSlots : layout.gotSlots = input.gotSyms :=
    congrArg Layout.gotSlots computed.assembled
  have below : layout.gotBase.toNat + input.gotTotal.toNat < 2 ^ 64 := by
    rw [isBase, vaOf]
    cases found : layout.outputSections.find? fun s => s.source == .got with
    | none =>
        rw [Option.map_none, Option.getD_none, UInt64.toNat_zero, Nat.zero_add]
        exact input.gotTotal.toNat_lt
    | some got =>
        have isGot : got.source = .got := by simpa using List.find?_some found
        have present := List.mem_of_find?_eq_some found
        have size := size_of_source computed fits.ownNames present (by rw [isGot]; rfl)
        rw [isGot] at size
        have last := sumExact_iff.mp (section_end computed noWrap present)
        rw [size] at last
        exact last
  rw [total.2, ← Nat.add_assoc] at below
  have start : (layout.gotBase + input.scalarGotBytes).toNat =
      layout.gotBase.toNat + 8 * layout.gotSlots.length := by
    rw [UInt64.toNat_add, total.1, gotSlots]
    omega
  refine ⟨layOutTlsGot input.tls (layout.gotBase + input.scalarGotBytes), ?_, ?_, ?_⟩
  · have isAssembled := input.tlsSlots_assemble computed.pre (input.ordered computed.pre)
      computed.entry
    rw [← computed.assembled] at isAssembled
    exact isAssembled
  · rw [← start]
    apply layOutTlsGot_laid
    rw [start, gotSlots]
    exact below
  · rw [gotSlots]
    exact below

omit computed in
theorem toNat_reservedRelaDyn (fits : input.FitsOutput layout) {dynj : DynamicInfo}
    (isDynamic : input.dynamic = some dynj) :
    (input.reservedRelaDyn dynj).size.toNat = 24 * input.nRelaDyn dynj := by
  have small := fits.relocs dynj isDynamic
  have twentyFour : relaSize.toNat = 24 := rfl
  change (UInt64.ofNat (input.nRelaDyn dynj) * relaSize).toNat = _
  rw [UInt64.toNat_mul, UInt64.toNat_ofNat', twentyFour]
  omega

theorem relaDynSectionSize_toNat (fits : input.FitsOutput layout) {dynj : DynamicInfo}
    (isDynamic : input.dynamic = some dynj) :
    layout.relaDynSectionSize.toNat = 24 * input.nRelaDyn dynj := by
  have whole := toNat_reservedRelaDyn fits isDynamic
  have reserved : input.reservedSize computed.pre layout .relaDyn =
      (input.reservedRelaDyn dynj).size := by
    rw [reservedSize, isDynamic]
    rfl
  by_cases empty : (input.reservedRelaDyn dynj).size = 0
  · rw [← whole, Layout.relaDynSectionSize]
    cases found : layout.outputSections.find? fun s => s.source == .relaDyn with
    | none => rw [empty, Option.map_none, Option.getD_none]
    | some s =>
        have isRelaDyn : s.source = .relaDyn := by simpa using List.find?_some found
        rw [Option.map_some, Option.getD_some, size_of_source computed fits.ownNames
          (List.mem_of_find?_eq_some found) (by rw [isRelaDyn]; rfl), isRelaDyn, reserved]
  · rcases exists_relaDynSection computed isDynamic empty with ⟨s, isPlaced, isRelaDyn, size⟩
    rcases exists_own computed fits.ownNames isPlaced (by rw [isRelaDyn]; rfl) with
      ⟨b, isAdded, source, sameSize⟩
    rw [size, ← sameSize, size_of_added computed isAdded (by rw [source, isRelaDyn]; rfl),
      source, isRelaDyn, reserved, whole]

theorem toNat_reservedSize (fits : input.FitsOutput layout) {dynj : DynamicInfo}
    (isDynamic : input.dynamic = some dynj) :
    (input.reservedSize computed.pre layout .relaDyn).toNat = 24 * input.nRelaDyn dynj := by
  rw [reservedSize, isDynamic]
  exact toNat_reservedRelaDyn fits isDynamic

theorem relaSuffix_le (fits : input.FitsOutput layout) {dynj : DynamicInfo}
    (isDynamic : input.dynamic = some dynj) :
    layout.relaSuffix.length ≤ layout.relaDynSectionSize.toNat := by
  rcases blobs_computed computed isDynamic with ⟨globDat, copy, _⟩
  have copies := input.length_copyRelas_le isDynamic (commonBase layout.outputSections)
  rw [relaDynSectionSize_toNat computed fits isDynamic, Layout.relaSuffix, globDat, copy,
    List.length_append, RecordFormat.length_table, RecordFormat.length_table,
    length_globDatRelas, copies_computed computed, nRelaDyn]
  change 24 * _ + 24 * _ ≤ _
  omega

end LayoutInput

/-! ## A whole link -/

namespace Link

variable {link : Link}

theorem exists_computed {linked : Linked} (isLinked : link.run = .ok linked) :
    ∃ table layout, link.defined = some table ∧
      (link.layoutInput table).computeLayoutIcf = .ok layout ∧
      linked = ⟨link.finalized table layout,
        link.withDynamicRelocs (link.finalized table layout)
          (patchIfuncPltRelocs layout (link.finalized table layout))⟩ := by
  rw [run] at isLinked
  split at isLinked
  · cases isLinked
  · rename_i table isTable
    split at isLinked
    · cases isLinked
    · rename_i layout isLayout
      exact ⟨table, layout, isTable, isLayout, link.eq_of_checked isLinked⟩

/-- What has to hold of the input of a link so that its output keeps to the sizes and the
addresses that are computed for it. -/
structure Within (link : Link) (table : SymbolTable) (layout : Layout) : Prop where
  noWrap : ∀ pre, (link.layoutInput table).prebuildDynamic = .ok pre →
    (link.layoutInput table).NoWrap pre
  fits : (link.layoutInput table).FitsOutput layout
  foreseen : link.dynamic.isSome = true → (link.layoutInput table).StartupForeseen layout

theorem cuts_patchIfuncPltRelocs (layout : Layout) (symbols : SymbolTable) :
    layout.Cuts (patchIfuncPltRelocs layout symbols) :=
  ⟨List.forall₂_same.mpr fun s _ => OutputSection.Cuts.refl s, rfl, rfl, rfl, rfl, rfl, rfl⟩

theorem contentSize_patchIfuncPltRelocs (layout : Layout) (symbols : SymbolTable)
    (source : SecSource) :
    (patchIfuncPltRelocs layout symbols).contentSize source = layout.contentSize source := by
  cases source with
  | relaPlt => exact Buffer.length_applyAll _ _
  | _ => rfl

section

variable {table symbols : SymbolTable} {layout : Layout}
variable (computed : LayoutInput.Computed (link.layoutInput table) layout)
variable (within : link.Within table layout)

include computed within

theorem cuts_withDynamicRelocs :
    layout.Cuts (link.withDynamicRelocs symbols (patchIfuncPltRelocs layout symbols)) ∧
      ∀ s ∈ (link.withDynamicRelocs symbols
          (patchIfuncPltRelocs layout symbols)).outputSections,
        (link.withDynamicRelocs symbols
          (patchIfuncPltRelocs layout symbols)).contentSize s.source ≤ s.shSize.toNat := by
  have fits := within.fits
  have contents : ∀ s ∈ layout.outputSections,
      (patchIfuncPltRelocs layout symbols).contentSize s.source ≤ s.shSize.toNat := by
    intro s present
    rw [contentSize_patchIfuncPltRelocs]
    exact LayoutInput.contents_of_computed computed fits within.foreseen present
  rw [withDynamicRelocs]
  split
  · rename_i isDynamic
    rcases Option.isSome_iff_exists.mp isDynamic with ⟨dynj, isInfo⟩
    have suffix := LayoutInput.relaSuffix_le computed fits isInfo
    have own : ∀ s ∈ layout.outputSections, s.source = .relaDyn →
        s.shSize = layout.relaDynSectionSize ∧ s.contributions = [] := by
      intro s present isRelaDyn
      refine ⟨?_, (LayoutInput.own_of_computed computed fits.ownNames present
        (by rw [isRelaDyn]; rfl)).2⟩
      rw [LayoutInput.size_of_source computed fits.ownNames present (by rw [isRelaDyn]; rfl),
        isRelaDyn]
      apply UInt64.toNat_inj.mp
      rw [LayoutInput.relaDynSectionSize_toNat computed fits isInfo]
      exact LayoutInput.toNat_reservedSize computed fits isInfo
    dsimp only
    generalize link.tlsContents symbols (patchIfuncPltRelocs layout symbols) = slots
    generalize link.collected symbols (patchIfuncPltRelocs layout symbols) = relocs
    have cuts := @Layout.cuts_appendAll
      { patchIfuncPltRelocs layout symbols with tlsGotWrites := slots.staticWrites }
      relocs slots.relocs suffix own
    refine ⟨⟨cuts.sections, cuts.phoff, cuts.phnum, cuts.segments, cuts.shoff, cuts.shnum,
      cuts.fileSize⟩, ?_⟩
    exact Layout.contents_appendAll suffix own contents
  · exact ⟨cuts_patchIfuncPltRelocs layout symbols, contents⟩

/-- What is written into the slots of thread-local storage stays in these. -/
theorem within_tlsSlots {slot : UInt64 × UInt64}
    (present : slot ∈ (link.withDynamicRelocs symbols
      (patchIfuncPltRelocs layout symbols)).tlsGotWrites) :
    layout.gotBase.toNat + 8 * layout.gotSlots.length ≤ slot.1.toNat ∧
      slot.1.toNat + 8 ≤ layout.gotBase.toNat + 8 * layout.gotSlots.length +
        link.tlsGot.slotBytes ∧
      layout.gotBase.toNat + 8 * layout.gotSlots.length + link.tlsGot.slotBytes < 2 ^ 64 := by
  rcases LayoutInput.tlsSpans_laid computed (within.noWrap _ computed.prebuilt) within.fits with
    ⟨got, ⟨isGd, isLdm, isIe⟩, laid, small⟩
  rw [withDynamicRelocs] at present
  split at present
  · have bounds := within_tlsSpans link.objects symbols (patchIfuncPltRelocs layout symbols)
      isGd isLdm isIe laid small present
    exact ⟨bounds.1, bounds.2, small⟩
  · have none : layout.tlsGotWrites = [] := congrArg Layout.tlsGotWrites computed.assembled
    change slot ∈ layout.tlsGotWrites at present
    rw [none] at present
    exact absurd present List.not_mem_nil

/-- No two writes of the emission are for the same part of the file, and each section can be
loaded. -/
theorem separate_withDynamicRelocs :
    (link.withDynamicRelocs symbols (patchIfuncPltRelocs layout symbols)).Separate
        link.objects ∧
      (link.withDynamicRelocs symbols (patchIfuncPltRelocs layout symbols)).Loadable := by
  have noWrap := within.noWrap _ computed.prebuilt
  have separate := LayoutInput.separate_of_computed computed noWrap within.fits
    within.foreseen
  rcases @cuts_withDynamicRelocs link table symbols layout computed within with ⟨cuts, contents⟩
  refine ⟨cuts.separate separate contents fun slot present => ?_,
    cuts.loadable (LayoutInput.loadable_of_computed computed noWrap separate.backed)⟩
  have bounds := within_tlsSlots computed within present
  omega

end

/-- A link that succeeds with `linked` and keeps to its sizes and its addresses. -/
structure Ran (link : Link) (linked : Linked) : Prop where
  ran : link.run = .ok linked
  within : ∀ table layout, link.defined = some table →
    (link.layoutInput table).computeLayoutIcf = .ok layout → link.Within table layout

theorem Ran.separate {linked : Linked} (ran : link.Ran linked) :
    linked.layout.Separate link.objects ∧ linked.layout.Loadable := by
  rcases exists_computed ran.ran with ⟨table, layout, defined, succeeded, rfl⟩
  rcases LayoutInput.computed_of_ok succeeded with ⟨computed⟩
  exact separate_withDynamicRelocs computed (ran.within table layout defined succeeded)

/-- How a link comes to its layout: it computes it, or takes over the one of an earlier link
that has room for its sections. -/
inductive Yields (link : Link) (linked : Linked) : Prop
  | computed (ran : link.Ran linked) : Yields link linked
  | reused {earlier : Link} {before : Linked} (ran : earlier.Ran before)
      (isReused : link.reuse before.layout = .ok linked)
      (room : ∀ s ∈ before.layout.outputSections, ∀ c ∈ s.contributions,
        ∀ item ∈ workItemOf link.objects s c, item.fileLen.toNat ≤ c.size.toNat) :
      Yields link linked

theorem Yields.separate {linked : Linked} (yields : link.Yields linked) :
    linked.layout.Separate link.objects ∧ linked.layout.Loadable := by
  cases yields with
  | computed ran => exact ran.separate
  | @reused earlier before ran isReused room =>
      rcases ran.separate with ⟨separate, loadable⟩
      rw [reuse] at isReused
      split at isReused
      · cases isReused
      · rw [link.eq_of_checked isReused]
        refine ⟨{ separate with
          items := room
          contents := fun s present => ?_ },
          (cuts_patchIfuncPltRelocs before.layout _).loadable loadable⟩
        rw [contentSize_patchIfuncPltRelocs]
        exact separate.contents s present

end Link

end Peony
