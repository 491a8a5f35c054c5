import Peony.Layout.Added
import Peony.Layout.Sums

namespace Peony

/-! The number of program headers: how many are reserved before anything is placed,
and how many there are in the end. -/

open Spans

/-! ## Sources -/

def SecSource.isPlain : SecSource → Bool
  | .input | .bss | .symTab | .symTabShndx | .strTab | .shStrTab | .relaEmit _ => true
  | _ => false

theorem Builder.source_eq_iff {b : Builder} {name : Name} {source : SecSource}
    (known : synthesizedSources.lookup name = some source)
    (only : ∀ entry ∈ synthesizedSources, entry.2 = source → entry.1 = name)
    (notPlain : source.isPlain = false) : b.source = source ↔ b.name = name := by
  rw [Builder.source]
  constructor
  · intro same
    cases found : synthesizedSources.lookup b.name with
    | some other =>
        rw [found, Option.getD_some] at same
        exact only _ (Assoc.mem_of_lookup found) same
    | none =>
        rw [found, Option.getD_none] at same
        subst same
        split at notPlain <;> cases notPlain
  · intro same
    rw [same, known, Option.getD_some]

namespace LayoutInput

variable (input : LayoutInput)

theorem sources_placeMeta (plan : SymtabPlan) (cursor : FileCursor) :
    ∀ s ∈ (input.placeMeta plan cursor).sections,
      s ∈ cursor.sections ∨ s.source.isPlain = true := by
  rcases input.extends_isMeta plan cursor with ⟨more, sections, _, each⟩
  intro s present
  rw [sections] at present
  rcases List.mem_append.mp present with before | isNew
  · exact Or.inl before
  · right
    cases each s isNew <;> rfl

/-! ## Sections of a layout by their sources -/

variable {input}

theorem exists_source {pre : DynPrebuild} {ordered : Builders} {entry : UInt64}
    {source : SecSource} (notPlain : source.isPlain = false) :
    (∃ s ∈ (input.assemble pre ordered entry).outputSections, s.source = source) ↔
      ∃ b ∈ (relroOrder ordered).all, b.source = source := by
  have placed := (input.placeAll_of ordered).sections
  constructor
  · rintro ⟨finished, present, rfl⟩
    rcases Pairwise.exists_left (input.finished_assemble pre ordered entry) present with
      ⟨s, among, isFinished⟩
    rw [isFinished.source] at notPlain ⊢
    have isPlaced : s ∈ (input.placeAll ordered).placement.sections := by
      rcases List.mem_append.mp among with inFile | isNames
      · rcases input.sources_placeMeta _ _ s inFile with before | isPlain
        · rw [← sections_placement]
          exact before
        · rw [isPlain] at notPlain
          exact nomatch notPlain
      · rw [List.mem_singleton.mp isNames] at notPlain
        exact nomatch notPlain
    rcases Pairwise.exists_left placed isPlaced with ⟨b, isBuilder, _, rfl, _⟩
    exact ⟨b, isBuilder, rfl⟩
  · rintro ⟨b, isBuilder, rfl⟩
    rcases Pairwise.exists_right placed isBuilder with ⟨s, isPlaced, _, rfl, _⟩
    rcases @mem_outputSections input pre ordered entry _ isPlaced with
      ⟨finished, present, isFinished⟩
    exact ⟨finished, present, isFinished.source⟩

theorem exists_name {pre : DynPrebuild} {ordered : Builders} {entry : UInt64} {b : Builder}
    (isBuilder : b ∈ (relroOrder ordered).all) :
    ∃ s ∈ (input.assemble pre ordered entry).outputSections, s.name = b.name := by
  rcases Pairwise.exists_right (input.placeAll_of ordered).sections isBuilder with
    ⟨s, isPlaced, _, rfl, _⟩
  rcases @mem_outputSections input pre ordered entry _ isPlaced with
    ⟨finished, present, _, _, _, _, _, rfl, _⟩
  exact ⟨_, present, rfl⟩

end LayoutInput

/-! ## What is emitted -/

theorem toNat_bit (condition : Prop) [Decidable condition] :
    (if condition then 1 else 0) = (decide condition).toNat := by
  by_cases holds : condition <;> simp [holds]

namespace LayoutInput

variable {input : LayoutInput}

private theorem length_found {sections : List OutputSection} {ok : OutputSection → Bool}
    {make : OutputSection → ProgramHeader} :
    (((sections.find? ok).map make).toList).length = (sections.any ok).toNat := by
  cases found : sections.find? ok with
  | none =>
      have no : sections.any ok = false := by
        rw [List.any_eq_false]
        exact fun s present => by simpa using List.find?_eq_none.mp found s present
      rw [no]
      rfl
  | some s =>
      have yes : sections.any ok = true :=
        List.any_eq_true.mpr ⟨s, List.mem_of_find?_eq_some found, List.find?_some found⟩
      rw [yes]
      rfl

theorem length_loadSegments (base page : UInt64) (ordered : Builders) :
    (loadSegments base page (input.placeAll ordered)).length =
      1 + (hasRx ordered).toNat + (hasRw ordered).toNat := by
  rcases input.placeAll_eq ordered with ⟨_, _, rx, rw'⟩
  rw [loadSegments, rx, rw']
  cases hasRx ordered <;> cases hasRw ordered <;> rfl

/-- How many headers there are. -/
theorem length_segments (phnum : UInt64) (hasGnuProperty : Bool) (ordered : Builders)
    (sections : List OutputSection) (block : TlsBlock) :
    (input.segments phnum hasGnuProperty (input.placeAll ordered) sections
        block).length =
      1 + (input.dynamic.isSome &&
          sections.any fun s => s.source == .interp).toNat +
        (input.config.buildId && sections.any fun s => s.source == .noteBuildId).toNat +
        (1 + (hasRx ordered).toNat + (hasRw ordered).toNat) +
        (hasGnuProperty && sections.any fun s => s.name == propertyName).toNat +
        (input.dynamic.isSome && sections.any fun s => s.source == .dynamic).toNat +
        (decide (block.size > 0)).toNat +
        (sections.any fun s => s.source == .ehFrameHdr).toNat +
        input.dynamic.isSome.toNat + 1 := by
  have guarded (condition : Bool) (ok : OutputSection → Bool)
      (make : OutputSection → ProgramHeader) :
      (if condition then ((sections.find? ok).map make).toList else []).length =
        (condition && sections.any ok).toNat := by
    cases condition with
    | false => rfl
    | true => exact length_found
  have tls : (if block.size > 0 then [tlsSegment block] else []).length =
      (decide (block.size > 0)).toNat := by
    rw [← toNat_bit]
    split <;> rfl
  have relro : (if input.dynamic.isSome then [relroSegment sections] else []).length =
      input.dynamic.isSome.toNat := by
    cases input.dynamic.isSome <;> rfl
  simp only [segments, ofSource, List.length_append, guarded, tls, relro, length_found,
    length_loadSegments, List.length_singleton]

/-! ## What is reserved -/

theorem relroOrder_isEmpty (builders : Builders)
    (powers : ∀ b ∈ builders.rwPb ++ builders.rwBss, b.isTls = true →
      b.align.toNat.isPowerOfTwo) :
    hasRw builders = !(builders.rwPb.isEmpty && builders.rwBss.isEmpty) := by
  rcases relroOrder_raised powers with ⟨rwPb, rwBss⟩
  have same {before after : List Builder} {cmp : Builder → Builder → Ordering}
      (pairs : List.Forall₂ Builder.RaisedTo (sortBy cmp before) after) :
      after.isEmpty = before.isEmpty := by
    have lengths := pairs.length_eq
    rw [(sortBy_perm cmp before).length_eq] at lengths
    rw [Bool.eq_iff_iff, List.isEmpty_iff_length_eq_zero, List.isEmpty_iff_length_eq_zero,
      lengths]
  rw [hasRw, same rwPb, same rwBss]

def reservedHeaders (input : LayoutInput) (builders : Builders) : Nat :=
  1 + input.config.buildId.toNat +
    (input.dynamic.isSome.toNat + (input.dynamic.isSome && !input.config.shared).toNat) +
    (hasTls builders).toNat + (decide (input.nFdes > 0)).toNat +
    (builders.ro.any fun b => b.name == propertyName).toNat + input.dynamic.isSome.toNat +
    (1 + (hasRx builders).toNat +
      (!(builders.rwPb.isEmpty && builders.rwBss.isEmpty)).toNat) + 1

theorem reservedHeaders_le (builders : Builders) :
    input.reservedHeaders builders ≤ 12 := by
  rw [reservedHeaders]
  have note := Bool.toNat_le input.config.buildId
  have dynamic := Bool.toNat_le input.dynamic.isSome
  have interp := Bool.toNat_le (input.dynamic.isSome && !input.config.shared)
  have tls := Bool.toNat_le (hasTls builders)
  have frames := Bool.toNat_le (decide (input.nFdes > 0))
  have property := Bool.toNat_le (builders.ro.any fun b => b.name == propertyName)
  have code := Bool.toNat_le (hasRx builders)
  have data := Bool.toNat_le (!(builders.rwPb.isEmpty && builders.rwBss.isEmpty))
  omega

theorem phnum_eq (builders : Builders) :
    input.phnum builders = UInt64.ofNat (input.reservedHeaders builders) := by
  have dynamic : (if input.dynamic.isSome then if input.config.shared then 1 else 2
      else 0) = input.dynamic.isSome.toNat +
        (input.dynamic.isSome && !input.config.shared).toNat := by
    cases input.dynamic.isSome <;> cases input.config.shared <;> rfl
  have rx : (if builders.rx.isEmpty then 0 else 1) = (hasRx builders).toNat := by
    rw [hasRx]
    cases builders.rx.isEmpty <;> rfl
  have rw' : (if builders.rwPb.isEmpty && builders.rwBss.isEmpty then 0 else 1) =
      (!(builders.rwPb.isEmpty && builders.rwBss.isEmpty)).toNat := by
    cases builders.rwPb.isEmpty && builders.rwBss.isEmpty <;> rfl
  rw [phnum, reservedHeaders, dynamic, rx, rw']
  simp only [toNat_bit, Bool.decide_eq_true]

theorem ofNat_eq_iff_of_small {first second : Nat} (isFirst : first < 2 ^ 64)
    (isSecond : second < 2 ^ 64) :
    UInt64.ofNat first = UInt64.ofNat second ↔ first = second := by
  rw [← UInt64.toNat_inj, UInt64.toNat_ofNat', UInt64.toNat_ofNat',
    Nat.mod_eq_of_lt isFirst, Nat.mod_eq_of_lt isSecond]

/-! ## Where the two counts differ -/

/-- Whether kept input sections are merged into an output section of the name. -/
def hasGroup (input : LayoutInput) (name : Name) : Bool :=
  input.groups.any fun b => b.name == name

/-- Whether there is a thread-local output section among the writable ones. -/
def hasWritableTls (input : LayoutInput) : Bool :=
  input.groups.any fun b => b.isTls && b.perm == .rw

/-- The size of the TLS block that the thread-local output sections make up. -/
def tlsBytes (input : LayoutInput) (pre : DynPrebuild) : UInt64 :=
  Cursor.finish 0 (blockRun (relroOrder (input.ordered pre)).tlsShapes)

/-- Headers that input sections bring although none is reserved for them: an
interpreter in a shared object, a table of frames where no frame is counted, and
TLS data outside the writable sections. -/
def unforeseenHeaders (input : LayoutInput) (pre : DynPrebuild) : Nat :=
  (input.dynamic.isSome && input.config.shared && input.hasGroup (nameOf ".interp")).toNat +
    (input.nFdes == 0 && input.hasGroup (nameOf ".eh_frame_hdr")).toNat +
    (input.tlsBytes pre != 0 && !input.hasWritableTls).toNat

theorem unforeseenHeaders_le (pre : DynPrebuild) : input.unforeseenHeaders pre ≤ 3 := by
  rw [unforeseenHeaders]
  have first := Bool.toNat_le (input.dynamic.isSome && input.config.shared &&
    input.hasGroup (nameOf ".interp"))
  have second := Bool.toNat_le (input.nFdes == 0 && input.hasGroup (nameOf ".eh_frame_hdr"))
  have third := Bool.toNat_le (input.tlsBytes pre != 0 && !input.hasWritableTls)
  omega

/-- Headers that are reserved for something without a byte: thread-local sections,
or an interpreter whose length is 0 as a word. -/
def unusedHeaders (input : LayoutInput) (pre : DynPrebuild) : Nat :=
  (input.hasWritableTls && input.tlsBytes pre == 0).toNat +
    (input.dynamic.isSome && !input.config.shared &&
      UInt64.ofNat pre.blobs.interp.length == 0 &&
      !input.hasGroup (nameOf ".interp")).toNat

/-! ## The check -/

/-- What a computation that passes all checks before the last one has found. -/
structure Checked (input : LayoutInput) where
  pre : DynPrebuild
  entry : UInt64
  prebuilt : input.prebuildDynamic = .ok pre
  aligned : ∀ member ∈ input.contributors, member.align.toNat.isPowerOfTwo
  entered : input.entryAddress
    (input.fileCursor (input.ordered pre)).addresses = .ok entry

namespace Checked

variable (checked : Checked input)

def layout : Layout :=
  input.assemble checked.pre (input.ordered checked.pre) checked.entry

/-- The layout is done unless the numbers of headers differ. -/
theorem computeLayoutIcf_eq :
    input.computeLayoutIcf =
      if UInt64.ofNat checked.layout.segments.length = checked.layout.phnum then
        .ok checked.layout
      else
        .error (.phdrCountMismatch checked.layout.phnum
          (UInt64.ofNat checked.layout.segments.length)) := by
  have grouped : input.groupInputs = .ok input.groups :=
    groupInputs_eq_ok.mpr ⟨checked.aligned, rfl⟩
  have entered := checked.entered
  rw [ordered] at entered
  unfold computeLayoutIcf
  rw [checked.prebuilt]
  simp only [bind, Except.bind, grouped, entered]
  rfl

theorem powers : ∀ b ∈ (input.ordered checked.pre).rwPb ++ (input.ordered checked.pre).rwBss,
    b.isTls = true → b.align.toNat.isPowerOfTwo :=
  (input.classified_ordered checked.pre input.groups).tls_powers
    (groups_aligned checked.aligned)

theorem any_source {name : Name} {source : SecSource}
    (known : synthesizedSources.lookup name = some source)
    (only : ∀ entry ∈ synthesizedSources, entry.2 = source → entry.1 = name)
    (notPlain : source.isPlain = false) :
    (checked.layout.outputSections.any fun s => s.source == source) =
      (input.hasGroup name ||
        (input.added checked.pre).any fun b => b.name == name) := by
  rw [Bool.eq_iff_iff, Bool.or_eq_true, hasGroup]
  simp only [List.any_eq_true, beq_iff_eq]
  rw [layout, exists_source notPlain]
  constructor
  · rintro ⟨raised, present, isSource⟩
    rcases exists_unraised checked.powers present with ⟨b, isBuilder, align, rfl, _⟩
    have named := (Builder.source_eq_iff known only notPlain).mp isSource
    rcases mem_ordered.mp isBuilder with isGroup | isAdded
    · exact Or.inl ⟨b, isGroup, named⟩
    · exact Or.inr ⟨b, isAdded, named⟩
  · intro found
    have isOrdered : ∃ b ∈ (input.ordered checked.pre).all, b.name = name := by
      rcases found with ⟨b, isGroup, named⟩ | ⟨b, isAdded, named⟩
      · exact ⟨b, mem_ordered.mpr (Or.inl isGroup), named⟩
      · exact ⟨b, mem_ordered.mpr (Or.inr isAdded), named⟩
    rcases isOrdered with ⟨b, isBuilder, named⟩
    rcases exists_raised checked.powers isBuilder with ⟨raised, present, align, rfl, _⟩
    exact ⟨_, present, (Builder.source_eq_iff known only notPlain).mpr named⟩

theorem block_size :
    (tlsBlock checked.layout.outputSections).size = input.tlsBytes checked.pre := by
  rw [tlsBlock_size, layout, tlsShapes_assemble, tlsBytes]

theorem hasTls_ordered :
    hasTls (input.ordered checked.pre) = input.hasWritableTls := by
  have classified := input.classified_ordered checked.pre input.groups
  rw [Bool.eq_iff_iff, hasTls, hasWritableTls]
  simp only [List.any_eq_true, Bool.and_eq_true, beq_iff_eq]
  constructor
  · rintro ⟨b, present, isTls⟩
    have origin : b.perm = .rw ∧ (b ∈ input.groups ∨ b.Bare) := by
      rcases List.mem_append.mp present with inPb | inBss
      · have only := classified.rwPb.only b inPb
        simp only [Bool.and_eq_true, beq_iff_eq] at only
        exact ⟨only.1.1, only.2⟩
      · have only := classified.rwBss.only b inBss
        simp only [Bool.and_eq_true, beq_iff_eq] at only
        exact ⟨only.1.1, only.2⟩
    rcases origin.2 with isGroup | bare
    · exact ⟨b, isGroup, isTls, origin.1⟩
    · rw [bare.2] at isTls
      cases isTls
  · rintro ⟨b, isGroup, isTls, isRw⟩
    cases isNobits : b.isNobits with
    | false =>
        exact ⟨b, List.mem_append_left _ (classified.rwPb.has b isGroup
          (by rw [isRw, isNobits]; rfl)), isTls⟩
    | true =>
        exact ⟨b, List.mem_append_right _ (classified.rwBss.has b isGroup
          (by rw [isRw, isNobits]; rfl)), isTls⟩

end Checked

/-! ### Names that the linker adds -/

theorem any_only (condition : Bool) (b : Builder) (ok : Builder → Bool) :
    (Builder.only condition b).any ok = (condition && ok b) := by
  cases condition <;> simp [Builder.only]

theorem any_added (pre : DynPrebuild) (name : Name) :
    ((input.added pre).any fun b => b.name == name) =
      ((!input.gnuPropertyNote.isEmpty && propertyName == name) ||
        (input.config.buildId && nameOf ".note.gnu.build-id" == name) ||
        (input.nFdes != 0 && nameOf ".eh_frame_hdr" == name) ||
        ((input.dynamic.toList.flatMap (input.roDyn pre)).any fun b =>
          b.size != 0 && b.name == name) ||
        (input.hasPlt && nameOf ".rela.plt" == name) ||
        (input.hasPlt && nameOf ".plt" == name) ||
        (decide (input.gotTotal > 0) && nameOf ".got" == name) ||
        (input.hasPlt && nameOf ".got.plt" == name) ||
        (input.dynamic.isSome && nameOf ".dynamic" == name) ||
        (decide (input.copySpace.size > 0) && nameOf ".bss" == name)) := by
  have dynamic : ((input.addedDynamic pre).any fun b => b.name == name) =
      (input.dynamic.isSome && nameOf ".dynamic" == name) := by
    rw [addedDynamic]
    cases input.dynamic with
    | none => rfl
    | some dynj => exact Bool.or_false _
  simp only [added, addedNotes, addedTables, addedStubs, addedGot, addedSlots, addedBss,
    List.any_append, List.any_filter, any_only, dynamic, Bool.or_assoc]
  rfl

theorem any_roDyn (pre : DynPrebuild) {name : Name}
    (others : ∀ other ∈ [nameOf ".hash", nameOf ".gnu.hash", nameOf ".dynsym",
      nameOf ".dynstr", nameOf ".gnu.version", nameOf ".gnu.version_r",
      nameOf ".rela.dyn"], (other == name) = false) :
    ((input.dynamic.toList.flatMap (input.roDyn pre)).any fun b =>
      b.size != 0 && b.name == name) =
        (input.dynamic.isSome && UInt64.ofNat pre.blobs.interp.length != 0 &&
          nameOf ".interp" == name) := by
  simp only [List.mem_cons, List.not_mem_nil, or_false, forall_eq_or_imp,
    forall_eq] at others
  cases input.dynamic with
  | none => rfl
  | some dynj =>
      simp [roDyn, Builder.readOnly, Builder.synthesized, others]

namespace Checked

variable (checked : Checked input)

theorem interp_shared (shared : input.config.shared = true) :
    (input.dynamic.isSome &&
      UInt64.ofNat checked.pre.blobs.interp.length != 0) = false := by
  have prebuilt := checked.prebuilt
  rw [prebuildDynamic] at prebuilt
  cases isDynamic : input.dynamic with
  | none => rfl
  | some dynj =>
      rw [isDynamic] at prebuilt
      change input.prebuildInfo dynj = _ at prebuilt
      unfold prebuildInfo at prebuilt
      simp only [shared, if_true] at prebuilt
      split at prebuilt
      · exact nomatch prebuilt
      · rw [Except.ok.injEq] at prebuilt
        rw [← prebuilt]
        rfl

theorem any_interp :
    (checked.layout.outputSections.any fun s => s.source == .interp) =
      (input.hasGroup (nameOf ".interp") ||
        (input.dynamic.isSome &&
          UInt64.ofNat checked.pre.blobs.interp.length != 0)) := by
  have others : ∀ other ∈ [propertyName, nameOf ".note.gnu.build-id",
      nameOf ".eh_frame_hdr", nameOf ".rela.plt", nameOf ".plt", nameOf ".got",
      nameOf ".got.plt", nameOf ".dynamic", nameOf ".bss"],
        (other == nameOf ".interp") = false := by decide
  simp only [List.mem_cons, List.not_mem_nil, or_false, forall_eq_or_imp,
    forall_eq] at others
  rw [@any_source input checked (nameOf ".interp") .interp (by decide) (by decide) rfl,
    any_added, any_roDyn _ (by decide)]
  simp [others]

theorem any_frames :
    (checked.layout.outputSections.any fun s => s.source == .ehFrameHdr) =
      (input.hasGroup (nameOf ".eh_frame_hdr") || input.nFdes != 0) := by
  have others : ∀ other ∈ [propertyName, nameOf ".note.gnu.build-id",
      nameOf ".interp", nameOf ".rela.plt", nameOf ".plt", nameOf ".got",
      nameOf ".got.plt", nameOf ".dynamic", nameOf ".bss"],
        (other == nameOf ".eh_frame_hdr") = false := by decide
  simp only [List.mem_cons, List.not_mem_nil, or_false, forall_eq_or_imp,
    forall_eq] at others
  rw [@any_source input checked (nameOf ".eh_frame_hdr") .ehFrameHdr (by decide)
      (by decide) rfl,
    any_added, any_roDyn _ (by decide)]
  simp [others]

theorem any_buildId :
    (input.config.buildId &&
      checked.layout.outputSections.any fun s => s.source == .noteBuildId) =
        input.config.buildId := by
  rw [@any_source input checked (nameOf ".note.gnu.build-id") .noteBuildId (by decide)
      (by decide) rfl,
    any_added]
  cases input.config.buildId <;> simp

theorem any_dynamic :
    (input.dynamic.isSome &&
      checked.layout.outputSections.any fun s => s.source == .dynamic) =
        input.dynamic.isSome := by
  rw [@any_source input checked (nameOf ".dynamic") .dynamic (by decide) (by decide) rfl,
    any_added]
  cases input.dynamic.isSome <;> simp

theorem any_property :
    (((input.ordered checked.pre).ro.any fun b => b.name == propertyName) &&
      checked.layout.outputSections.any fun s => s.name == propertyName) =
        (input.ordered checked.pre).ro.any fun b => b.name == propertyName := by
  rw [Bool.and_eq_left_iff_imp]
  intro listed
  rcases List.any_eq_true.mp listed with ⟨b, present, isName⟩
  have isPlaced : b ∈ (relroOrder (input.ordered checked.pre)).all := by
    simp [Builders.all, present]
  rcases @exists_name input checked.pre _ checked.entry b isPlaced with
    ⟨s, isSection, named⟩
  rw [List.any_eq_true]
  exact ⟨s, isSection, by rw [named]; exact isName⟩

private theorem interp_bits (dynamic shared group length : Bool)
    (absent : shared = true → (dynamic && length) = false) :
    (dynamic && (group || (dynamic && length))).toNat +
        (dynamic && !shared && !length && !group).toNat =
      (dynamic && !shared).toNat + (dynamic && shared && group).toNat := by
  revert absent
  cases dynamic <;> cases shared <;> cases group <;> cases length <;> decide

private theorem bits_swap (first second : Bool) :
    first.toNat + (second && !first).toNat =
      second.toNat + (first && !second).toNat := by
  cases first <;> cases second <;> rfl

private theorem or_bits (first second : Bool) :
    (first || second).toNat = second.toNat + (!second && first).toNat := by
  cases first <;> cases second <;> rfl

/-- The two counts differ by what only one of them sees. -/
theorem length_segments_eq :
    checked.layout.segments.length + input.unusedHeaders checked.pre =
      input.reservedHeaders (input.ordered checked.pre) +
        input.unforeseenHeaders checked.pre := by
  have emitted := @length_segments input (input.phnum (input.ordered checked.pre))
    ((input.ordered checked.pre).ro.any fun b => b.name == propertyName)
    (input.ordered checked.pre) checked.layout.outputSections
    (tlsBlock checked.layout.outputSections)
  rw [checked.any_interp, checked.any_frames, checked.any_buildId, checked.any_dynamic,
    checked.any_property, checked.block_size,
    relroOrder_isEmpty _ checked.powers] at emitted
  have positive : decide (input.tlsBytes checked.pre > 0) =
      (input.tlsBytes checked.pre != 0) := by
    rw [Bool.eq_iff_iff, decide_eq_true_eq, bne_iff_ne, gt_iff_lt, UInt64.pos_iff_ne_zero]
  have frames : decide (input.nFdes > 0) = (input.nFdes != 0) := by
    rw [Bool.eq_iff_iff, decide_eq_true_eq, bne_iff_ne, gt_iff_lt, Nat.pos_iff_ne_zero]
  rw [positive] at emitted
  have isSame : checked.layout.segments.length = _ := emitted
  have interp := interp_bits input.dynamic.isSome input.config.shared
    (input.hasGroup (nameOf ".interp"))
    (UInt64.ofNat checked.pre.blobs.interp.length != 0) checked.interp_shared
  have tls := bits_swap (input.tlsBytes checked.pre != 0) input.hasWritableTls
  have table := or_bits (input.hasGroup (nameOf ".eh_frame_hdr")) (input.nFdes != 0)
  simp only [bne, Bool.not_not] at interp tls table isSame
  rw [isSame, reservedHeaders, unusedHeaders, unforeseenHeaders, checked.hasTls_ordered,
    frames]
  simp only [bne]
  omega

/-- There are as many headers as are reserved just when what is not foreseen makes
up for what is not used. -/
theorem count_eq_iff :
    UInt64.ofNat checked.layout.segments.length = checked.layout.phnum ↔
      input.unforeseenHeaders checked.pre = input.unusedHeaders checked.pre := by
  have counts := checked.length_segments_eq
  have reserved := @reservedHeaders_le input (input.ordered checked.pre)
  have unforeseen := @unforeseenHeaders_le input checked.pre
  rw [show checked.layout.phnum = input.phnum (input.ordered checked.pre) from rfl,
    phnum_eq, ofNat_eq_iff_of_small (by omega) (by omega)]
  omega

end Checked

/-- The number of headers that is reserved is met, exactly when the headers that
input sections bring on their own are as many as those that are reserved for
nothing. -/
theorem headerCount_met_iff (checked : Checked input) :
    (∀ predicted actual,
      input.computeLayoutIcf ≠ .error (.phdrCountMismatch predicted actual)) ↔
        input.unforeseenHeaders checked.pre = input.unusedHeaders checked.pre := by
  rw [← checked.count_eq_iff, checked.computeLayoutIcf_eq]
  constructor
  · intro met
    by_contra differ
    rw [if_neg differ] at met
    exact met _ _ rfl
  · intro same predicted actual
    rw [if_pos same]
    exact fun equal => nomatch equal

/-! An executable with thread-local data, and a shared object with the path of an
interpreter in a section of its own, as the C library has it. -/

private def countedSection (index : Nat) (name : String) (kind : SectionKind)
    (flags : UInt64) : InputSection where
  index := index
  name := nameOf name
  kind := kind
  shType := shtProgbits
  data := ⟨.owned 0, 0, 4⟩
  align := 1
  size := 4
  flags := flags
  relocs := []

private def countedStart : InputSymbol where
  index := 1
  name := nameOf "_start"
  binding := .global
  isUndefined := false
  isCommon := false
  isIfunc := false
  stType := 2
  visibility := 0
  sectionIndex := some 1
  value := 0
  size := 4

private def countedObject : InputObject :=
  InputObject.assemble "counter.o" 2 1
    [countedSection 1 ".text" .text (shfAlloc ||| shfExecinstr),
      countedSection 2 ".tdata" .tdata (shfAlloc ||| shfWrite ||| shfTls)]
    [countedStart] []

private def countedInput : LayoutInput where
  arena := { mmaps := [], owned := [[0, 0, 0, 0]] }
  objects := [countedObject]
  symbols :=
    match SymbolTable.processAll [⟨countedObject, []⟩] with
    | .ok table => table
    | .error _ => SymbolTable.new

private def pathInput : LayoutInput where
  arena := { mmaps := [], owned := [[0x6c, 0x64, 0x2e, 0]] }
  objects := [InputObject.assemble "interp.o" 1 0
    [countedSection 1 ".interp" .readOnly shfAlloc] [] []]
  symbols := SymbolTable.new
  dynamic := some { shared := true }
  config := { baseAddress := 0, shared := true }

theorem headerCount_met_counted :
    ∀ predicted actual, countedInput.computeLayoutIcf ≠
      .error (.phdrCountMismatch predicted actual) := by
  have entered : (countedInput.entryAddress
      (countedInput.fileCursor (countedInput.ordered {})).addresses).isOk = true := by
    decide +kernel
  cases isEntry : countedInput.entryAddress
      (countedInput.fileCursor (countedInput.ordered {})).addresses with
  | error failure =>
      rw [isEntry] at entered
      exact nomatch entered
  | ok entry =>
      have ones : countedInput.contributors.all (fun member => member.align == 1) =
          true := by decide +kernel
      have aligned : ∀ member ∈ countedInput.contributors,
          member.align.toNat.isPowerOfTwo := by
        intro member present
        rw [beq_iff_eq.mp (List.all_eq_true.mp ones member present)]
        exact ⟨0, rfl⟩
      have met : countedInput.unforeseenHeaders {} = countedInput.unusedHeaders {} := by
        decide +kernel
      exact (headerCount_met_iff ⟨{}, entry, rfl, aligned, isEntry⟩).mpr met

/-- The path of the interpreter has a header that is not reserved. -/
theorem ownInterp_not_met :
    ¬ ∀ predicted actual, pathInput.computeLayoutIcf ≠
      .error (.phdrCountMismatch predicted actual) := by
  intro met
  have failed : (match pathInput.computeLayoutIcf with
      | .error (.phdrCountMismatch 6 7) => true
      | _ => false) = true := by decide +kernel
  split at failed
  · rename_i same
    exact met 6 7 same
  · exact nomatch failed

end LayoutInput

end Peony
