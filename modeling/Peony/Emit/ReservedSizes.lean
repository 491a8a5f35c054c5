import Peony.Driver.EmittedRelocs
import Peony.Emit.SectionNumbers
import Peony.Emit.Regions
import Peony.Layout.HeaderCount

namespace Peony

/-! Whether what is written to the sections of the linker's own has the size that the layout
has reserved for it. -/

open Spans

namespace LayoutInput

variable {input : LayoutInput}

/-! ## The length of `.dynamic` -/

theorem length_dynTag (tag value : UInt64) : (dynTag tag value).length = 16 := by
  rw [dynTag, List.length_append, length_toLeBytes, length_toLeBytes]

def hasSection (sections : List OutputSection) (name : Name) : Bool :=
  sections.any fun s => s.name == name

/-- The entries for what runs before and after the program, of which each section of an array
has two. -/
def startupEntries (has : Name → Nat) (arrayHas : Name → Nat) : Nat :=
  has (nameOf ".init") + has (nameOf ".fini") +
    (arrayHas (nameOf ".init_array") + arrayHas (nameOf ".fini_array")) * 2

/-- The entries that do not depend on the output sections, without the last one. -/
def fixedEntries (input : LayoutInput) (pre : DynPrebuild) (dynj : DynamicInfo) : Nat :=
  dynj.needed.length + 4 +
    (if pre.blobs.hash.isEmpty then 0 else 1) +
    (if pre.blobs.gnuHash.isEmpty then 0 else 1) +
    (if pre.sonameDtOff.isSome then 1 else 0) +
    (if pre.rpathDtOff.isSome then 1 else 0) +
    (if input.nRelaDyn dynj > 0 then 3 else 0) +
    (if dynj.nRelative > dynj.nIrelative then 1 else 0) +
    (if input.nPlt > 0 then 4 else 0) +
    (if pre.blobs.verneedNum > 0 then 3 else 0) +
    (if dynj.pie || dynj.shared then 2 else if input.nPlt > 0 then 1 else 0)

def countNamed (builders : List Builder) (name : Name) : Nat :=
  (builders.filter fun b => b.name == name).length

theorem dynEntries_eq (pre : DynPrebuild) (dynj : DynamicInfo) (rx rwPb : List Builder) :
    input.dynEntries pre dynj rx rwPb =
      input.fixedEntries pre dynj + startupEntries (countNamed rx) (countNamed rwPb) + 1 := by
  rw [dynEntries, fixedEntries, startupEntries]
  simp only [countNamed]
  omega

theorem length_addressTag (sections : List OutputSection) (name : Name) (tag : UInt64) :
    (addressTag sections name tag).length = 16 * (hasSection sections name).toNat := by
  rw [addressTag, hasSection]
  cases found : sections.find? fun s => s.name == name with
  | none =>
      rw [List.any_eq_false.mpr fun s present => List.find?_eq_none.mp found s present]
      rfl
  | some s =>
      rw [List.any_eq_true.mpr ⟨s, List.mem_of_find?_eq_some found, List.find?_some found⟩]
      exact length_dynTag _ _

theorem length_arrayTags (sections : List OutputSection) (name : Name)
    (addressTag sizeTag : UInt64) :
    (arrayTags sections name addressTag sizeTag).length =
      16 * ((hasSection sections name).toNat * 2) := by
  rw [arrayTags, hasSection]
  cases found : sections.find? fun s => s.name == name with
  | none =>
      rw [List.any_eq_false.mpr fun s present => List.find?_eq_none.mp found s present]
      rfl
  | some s =>
      rw [List.any_eq_true.mpr ⟨s, List.mem_of_find?_eq_some found, List.find?_some found⟩]
      dsimp only
      rw [List.length_append, length_dynTag, length_dynTag]
      rfl

theorem length_flagTags (dynj : DynamicInfo) : (input.flagTags dynj).length =
    16 * (if dynj.pie || dynj.shared then 2 else if input.nPlt > 0 then 1 else 0) := by
  rw [flagTags, nPlt]
  cases dynj.pie with
  | true => rfl
  | false =>
      cases dynj.shared with
      | true => rfl
      | false =>
          cases input.pltSyms with
          | nil => rfl
          | cons id rest => rfl

theorem length_pushStrings (table : List UInt8) (names : List Name) :
    (pushStrings table names).1.length = names.length := by
  induction names generalizing table with
  | nil => rfl
  | cons name rest induction => exact congrArg Nat.succ (induction _)

theorem length_neededOff {pre : DynPrebuild} {dynj : DynamicInfo}
    (prebuilt : input.prebuildInfo dynj = .ok pre) :
    pre.neededOff.length = dynj.needed.length := by
  rw [prebuildInfo] at prebuilt
  split at prebuilt
  · cases prebuilt
  · rw [Except.ok.injEq] at prebuilt
    rw [← prebuilt]
    exact length_pushStrings _ _

theorem length_dynamicBytes {pre : DynPrebuild} {dynj : DynamicInfo}
    (prebuilt : input.prebuildInfo dynj = .ok pre) (sections : List OutputSection) :
    (input.dynamicBytes pre dynj sections).length =
      16 * (input.fixedEntries pre dynj +
        startupEntries (fun name => (hasSection sections name).toNat)
          (fun name => (hasSection sections name).toNat) + 1) := by
  have tags (offsets : List UInt32) :
      (offsets.flatMap fun off => dynTag 1 off.toUInt64).length = 16 * offsets.length := by
    induction offsets with
    | nil => rfl
    | cons off rest induction =>
        rw [List.flatMap_cons, List.length_append, induction, length_dynTag, List.length_cons]
        omega
  have plt : (if input.pltSyms.isEmpty then []
      else
        dynTag 3 (vaOf sections .gotPlt) ++
          dynTag 2 (UInt64.ofNat input.pltSyms.length * relaSize) ++
          dynTag 20 7 ++ dynTag 23 (vaOf sections .relaPlt)).length =
        16 * (if input.nPlt > 0 then 4 else 0) := by
    rw [nPlt]
    cases input.pltSyms <;> rfl
  have guarded {condition : Prop} [Decidable condition] (bytes : List UInt8) (count : Nat)
      (length : bytes.length = 16 * count) :
      (if condition then bytes else []).length = 16 * (if condition then count else 0) := by
    split
    · exact length
    · rfl
  have hash (blob : List UInt8) (tag value : UInt64) :
      (if blob.isEmpty then [] else dynTag tag value).length =
        16 * (if blob.isEmpty then 0 else 1) := by
    split <;> rfl
  unfold dynamicBytes fixedEntries startupEntries
  cases pre.sonameDtOff <;> cases pre.rpathDtOff <;> simp only [List.length_append, tags, hash, plt, length_flagTags,
    length_addressTag, length_arrayTags, length_dynTag, length_neededOff prebuilt,
    guarded (dynTag 7 (vaOf sections .relaDyn) ++
      dynTag 8 (UInt64.ofNat (input.nRelaDyn dynj) * relaSize) ++ dynTag 9 relaSize) 3 rfl,
    guarded (dynTag 0x6ffffff9 (UInt64.ofNat (dynj.nRelative - dynj.nIrelative))) 1 rfl,
    guarded (dynTag 0x6ffffff0 (vaOf sections .gnuVersion) ++
      dynTag 0x6ffffffe (vaOf sections .gnuVersionR) ++
      dynTag 0x6fffffff pre.blobs.verneedNum) 3 rfl, List.length_nil, Option.isSome_none,
    Option.isSome_some, if_true, Bool.false_eq_true, if_false] <;> omega

end LayoutInput

/-! ## What the linker builds -/

/-- The bytes of the section come from no input section. -/
def SecSource.isOwn : SecSource → Bool
  | .input | .bss => false
  | _ => true

namespace LayoutInput

variable {input : LayoutInput}

theorem isPlain_of_own {source : SecSource} (isOwn : source.isOwn = true)
    (placed : isFileSource source = false) : source.isPlain = false := by
  cases source <;> simp_all [SecSource.isOwn, isFileSource, SecSource.isPlain]

def reservedEntries (input : LayoutInput) (pre : DynPrebuild) (dynj : DynamicInfo) : Nat :=
  input.dynEntries pre dynj
    (input.groupsOf (fun b => b.perm == .rx) ++ input.addedStubs)
    (input.groupsOf (fun b => b.perm == .rw && !b.isNobits) ++ input.addedGot ++
      input.addedSlots)

def reservedSize (input : LayoutInput) (pre : DynPrebuild) (layout : Layout) :
    SecSource → UInt64
  | .got => input.gotTotal
  | .ehFrameHdr => 12 + 8 * UInt64.ofNat input.nFdes
  | .relaDyn => UInt64.ofNat ((input.dynamic.map input.nRelaDyn).getD 0) * relaSize
  | .dynamic =>
      UInt64.ofNat ((input.dynamic.map (input.reservedEntries pre)).getD 0) * 16
  | source => UInt64.ofNat (layout.contentSize source)

/-- No output section that input sections are merged into has the name of one of the
linker's. -/
def KeepsOwnNames (input : LayoutInput) : Prop :=
  ∀ b ∈ input.groups, synthesizedSources.lookup b.name = none

instance (input : LayoutInput) : Decidable input.KeepsOwnNames :=
  inferInstanceAs (Decidable (∀ b ∈ input.groups, synthesizedSources.lookup b.name = none))

theorem source_of_known {b : Builder} {source : SecSource}
    (known : synthesizedSources.lookup b.name = some source) : b.source = source := by
  rw [Builder.source, known, Option.getD_some]

/-! ### Kept relocations -/

/-- Each section with kept relocations has the size of its bytes. -/
def RelasSized (cursor : FileCursor) : Prop :=
  ∀ s ∈ cursor.sections, ∀ index, s.source = .relaEmit index →
    ∃ blob, cursor.emitRelocs[index]? = some blob ∧ s.shSize = UInt64.ofNat blob.length

theorem RelasSized.extend {before after : FileCursor} (sized : RelasSized before)
    (isMore : FileCursor.Extends (fun s => ∀ index, s.source ≠ .relaEmit index) before after)
    (kept : after.emitRelocs = before.emitRelocs) : RelasSized after := by
  rcases isMore with ⟨more, sections, _, each⟩
  intro s present index isRela
  rw [sections] at present
  rw [kept]
  rcases List.mem_append.mp present with isOld | isNew
  · exact sized s isOld index isRela
  · exact absurd isRela (each s isNew index)

theorem RelasSized.pushRela {plan : SymtabPlan} {cursor : FileCursor} (sized : RelasSized cursor)
    (numbered : OutputSection × Nat) : RelasSized (input.pushRela plan cursor numbered) := by
  unfold LayoutInput.pushRela
  dsimp only
  split
  · exact sized
  · split
    · exact sized
    · intro s present index isRela
      rcases List.mem_append.mp present with isOld | isNew
      · rcases sized s isOld index isRela with ⟨blob, isBlob, size⟩
        refine ⟨blob, ?_, size⟩
        change (cursor.emitRelocs ++ [input.relaBytes plan numbered.1])[index]? = _
        rw [List.getElem?_append_left (List.getElem?_eq_some_iff.mp isBlob).1]
        exact isBlob
      · rw [List.mem_singleton.mp isNew] at isRela ⊢
        cases isRela
        exact ⟨_, List.getElem?_concat_length, rfl⟩

theorem relasSized_fileCursor (ordered : Builders) : RelasSized (input.fileCursor ordered) := by
  have start : RelasSized (input.metaStart ordered) := by
    intro s present index isRela
    have isFile := isFileSource_placed present
    rw [isRela] at isFile
    cases isFile
  have tables : RelasSized (if input.config.strip then input.metaStart ordered
      else (input.metaStart ordered).pushSymtab (input.symtabPlan ordered)) := by
    refine start.extend ?_ ?_
    · rcases @extends_tables input (input.symtabPlan ordered) (input.metaStart ordered) with
        ⟨more, sections, addresses, each⟩
      refine ⟨more, sections, addresses, fun s isNew index isRela => ?_⟩
      rcases each s isNew with source | source | source
      · cases source.symm.trans isRela
      · cases source.symm.trans isRela
      · cases source.symm.trans isRela
    · split
      · rfl
      · unfold FileCursor.pushSymtab
        dsimp only
        split
        · rfl
        · rfl
  have pushed (cursor : FileCursor) (numbered : List (OutputSection × Nat))
      (sized : RelasSized cursor) :
      RelasSized (numbered.foldl (input.pushRela (input.symtabPlan ordered)) cursor) := by
    induction numbered generalizing cursor with
    | nil => exact sized
    | cons first rest induction => exact induction _ (sized.pushRela first)
  have relas : RelasSized (if input.config.emitRelocs && !input.config.strip then
      input.pushRelas (input.symtabPlan ordered)
        (if input.config.strip then input.metaStart ordered
          else (input.metaStart ordered).pushSymtab (input.symtabPlan ordered))
      else (if input.config.strip then input.metaStart ordered
        else (input.metaStart ordered).pushSymtab (input.symtabPlan ordered))) := by
    split
    · exact pushed _ _ tables
    · exact tables
  refine relas.extend ?_ (emitRelocs_passthroughs _ _)
  rcases @extends_passthroughs input (if input.config.emitRelocs && !input.config.strip then
      input.pushRelas (input.symtabPlan ordered)
        (if input.config.strip then input.metaStart ordered
          else (input.metaStart ordered).pushSymtab (input.symtabPlan ordered))
      else (if input.config.strip then input.metaStart ordered
        else (input.metaStart ordered).pushSymtab (input.symtabPlan ordered))) with
    ⟨more, sections, addresses, each⟩
  refine ⟨more, sections, addresses, fun s isNew index isRela => ?_⟩
  cases (each s isNew).symm.trans isRela

/-! ### Stubs and their slots -/

private theorem length_flatMap_each {Item : Type} {write : Item → List UInt8} {width : Nat}
    (items : List Item) (each : ∀ item, (write item).length = width) :
    (items.flatMap write).length = width * items.length := by
  induction items with
  | nil => rfl
  | cons item rest induction =>
      rw [List.flatMap_cons, List.length_append, induction, each, List.length_cons,
        Nat.mul_succ, Nat.add_comm]

theorem length_pltBytes (gotpltBase pltBase : UInt64) :
    (input.pltBytes gotpltBase pltBase).length = 16 * input.nPlt := by
  rw [pltBytes, @length_flatMap_each _ _ 16 _ fun _ => rfl, List.length_zipIdx, nPlt]

theorem length_gotPltBytes (dynamicVa : UInt64) :
    (input.gotPltBytes dynamicVa).length = 8 * (input.nPlt + 3) := by
  rw [gotPltBytes, List.length_append,
    @length_flatMap_each _ _ 8 _ fun _ => length_toLeBytes _, nPlt]
  change 24 + _ = _
  omega

theorem length_relaPltBytes (dynj : DynamicInfo) (gotpltBase : UInt64) :
    (input.relaPltBytes dynj gotpltBase).length = 24 * input.nPlt := by
  rw [relaPltBytes, @length_flatMap_each _ _ 24 _ fun _ => rfl, List.length_zipIdx, nPlt]

section Computed

variable {layout : Layout} (computed : Computed input layout)

include computed

theorem tables_computed {dynj : DynamicInfo} (isDynamic : input.dynamic = some dynj) :
    layout.dynBlobs.interp = computed.pre.blobs.interp ∧
      layout.dynBlobs.hash = computed.pre.blobs.hash ∧
      layout.dynBlobs.gnuHash = computed.pre.blobs.gnuHash ∧
      layout.dynBlobs.dynsym.length = computed.pre.blobs.dynsym.length ∧
      layout.dynBlobs.dynstr = computed.pre.blobs.dynstr ∧
      layout.dynBlobs.gnuVersion = computed.pre.blobs.gnuVersion ∧
      layout.dynBlobs.gnuVersionR = computed.pre.blobs.gnuVersionR := by
  rcases computed with ⟨pre, entry, _, _, _, _, rfl⟩
  simp only [assemble, finishBlobs, isDynamic, Buffer.length_applyAll, and_self]

theorem stubs_computed (hasPlt : input.hasPlt = true) :
    layout.dynBlobs.plt.length = 16 * input.nPlt ∧
      layout.dynBlobs.gotPlt.length = 8 * (input.nPlt + 3) ∧
      layout.dynBlobs.relaPlt.length = 24 * input.nPlt := by
  rw [LayoutInput.hasPlt, Bool.and_eq_true, decide_eq_true_eq] at hasPlt
  rcases Option.isSome_iff_exists.mp hasPlt.1 with ⟨dynj, isDynamic⟩
  have filled : (!input.pltSyms.isEmpty) = true := by
    have positive := hasPlt.2
    rw [nPlt] at positive
    rw [Bool.not_eq_true', List.isEmpty_eq_false_iff]
    exact List.length_pos_iff.mp positive
  rcases computed with ⟨pre, entry, _, _, _, _, rfl⟩
  simp only [assemble, finishBlobs, isDynamic, filled, if_true, length_pltBytes,
    length_gotPltBytes, length_relaPltBytes, and_self]

theorem size_of_added {b : Builder} (isAdded : b ∈ input.added computed.pre)
    (isOwn : b.source.isOwn = true) :
    b.size = input.reservedSize computed.pre layout b.source := by
  have own (name : Name) (source : SecSource) {other : Builder} (isOther : b = other)
      (named : other.name = name) (known : synthesizedSources.lookup name = some source)
      (size : other.size = input.reservedSize computed.pre layout source) :
      b.size = input.reservedSize computed.pre layout b.source := by
    subst isOther
    rw [← named] at known
    rw [source_of_known known, size]
  have only (name : Name) (source : SecSource) {flag : Bool} {other : Builder}
      (isOther : b ∈ Builder.only flag other) (named : other.name = name)
      (known : synthesizedSources.lookup name = some source)
      (size : flag = true → other.size = input.reservedSize computed.pre layout source) :
      b.size = input.reservedSize computed.pre layout b.source :=
    own name source (Builder.mem_only.mp isOther).2 named known
      (size (Builder.mem_only.mp isOther).1)
  have product (count width : Nat) :
      UInt64.ofNat count * UInt64.ofNat width = UInt64.ofNat (width * count) := by
    rw [Nat.mul_comm, UInt64.ofNat_mul]
  rw [added, List.mem_append, List.mem_append, List.mem_append, List.mem_append,
    List.mem_append, List.mem_append] at isAdded
  rcases isAdded with (((((isNote | isTable) | isStub) | isGot) | isSlot) | isDynamic) | isBss
  · rw [addedNotes, List.mem_append, List.mem_append] at isNote
    rcases isNote with (isProperty | isBuildId) | isFrames
    · refine only propertyName .noteGnuProperty isProperty rfl (by decide) fun _ => ?_
      have note : layout.gnuPropertyNote = input.gnuPropertyNote :=
        congrArg Layout.gnuPropertyNote computed.assembled
      change _ = UInt64.ofNat layout.gnuPropertyNote.length
      rw [note]
      rfl
    · exact only (nameOf ".note.gnu.build-id") .noteBuildId isBuildId rfl (by decide)
        fun _ => rfl
    · exact only (nameOf ".eh_frame_hdr") .ehFrameHdr isFrames rfl (by decide) fun _ => rfl
  · rcases List.mem_append.mp isTable with isDyn | isRelaPlt
    · have listed := (List.mem_filter.mp isDyn).1
      rcases List.mem_flatMap.mp listed with ⟨dynj, isSome, isOne⟩
      have isDynamic := Option.mem_toList.mp isSome
      rcases tables_computed computed isDynamic with
        ⟨interp, hash, gnuHash, dynsym, dynstr, gnuVersion, gnuVersionR⟩
      have sized {first second : List UInt8} (same : first = second) :
          UInt64.ofNat second.length = UInt64.ofNat first.length := by rw [same]
      rw [roDyn] at isOne
      simp only [List.mem_cons, List.not_mem_nil, or_false] at isOne
      rcases isOne with same | same | same | same | same | same | same | same
      · exact own (nameOf ".interp") .interp same rfl (by decide) (sized interp)
      · exact own (nameOf ".hash") .hash same rfl (by decide) (sized hash)
      · exact own (nameOf ".gnu.hash") .gnuHash same rfl (by decide) (sized gnuHash)
      · exact own (nameOf ".dynsym") .dynSym same rfl (by decide)
          (congrArg UInt64.ofNat dynsym.symm)
      · exact own (nameOf ".dynstr") .dynStr same rfl (by decide) (sized dynstr)
      · exact own (nameOf ".gnu.version") .gnuVersion same rfl (by decide) (sized gnuVersion)
      · exact own (nameOf ".gnu.version_r") .gnuVersionR same rfl (by decide)
          (sized gnuVersionR)
      · refine own (nameOf ".rela.dyn") .relaDyn same rfl (by decide) ?_
        rw [reservedSize, isDynamic]
        rfl
    · refine only (nameOf ".rela.plt") .relaPlt isRelaPlt rfl (by decide) fun hasPlt => ?_
      change _ = UInt64.ofNat layout.dynBlobs.relaPlt.length
      rw [(stubs_computed computed hasPlt).2.2]
      exact product _ 24
  · refine only (nameOf ".plt") .plt isStub rfl (by decide) fun hasPlt => ?_
    change _ = UInt64.ofNat layout.dynBlobs.plt.length
    rw [(stubs_computed computed hasPlt).1]
    exact product _ 16
  · exact only (nameOf ".got") .got isGot rfl (by decide) fun _ => rfl
  · refine only (nameOf ".got.plt") .gotPlt isSlot rfl (by decide) fun hasPlt => ?_
    change _ = UInt64.ofNat layout.dynBlobs.gotPlt.length
    rw [(stubs_computed computed hasPlt).2.1]
    exact product _ 8
  · rcases List.mem_map.mp isDynamic with ⟨dynj, isSome, same⟩
    refine own (nameOf ".dynamic") .dynamic same.symm rfl (by decide) ?_
    rw [reservedSize, Option.mem_toList.mp isSome]
    rfl
  · have isBssSource : b.source = .bss := by
      rw [(Builder.mem_only.mp isBss).2]
      change (synthesizedSources.lookup (nameOf ".bss")).getD .bss = .bss
      decide
    rw [isBssSource] at isOwn
    cases isOwn

theorem exists_own (ownNames : input.KeepsOwnNames) {s : OutputSection}
    (isPlaced : s ∈ (input.placeAll (input.ordered computed.pre)).placement.sections)
    (notPlain : s.source.isPlain = false) :
    ∃ b ∈ input.added computed.pre, b.source = s.source ∧ b.size = s.shSize := by
  have powers := (input.classified_ordered computed.pre input.groups).tls_powers
    (groups_aligned computed.aligned)
  rcases Pairwise.exists_left (input.placeAll_of (input.ordered computed.pre)).sections
    isPlaced with ⟨raised, among, shAddr, rfl, _⟩
  rcases exists_unraised powers among with ⟨b, isOrdered, align, rfl, _⟩
  rcases mem_ordered.mp isOrdered with isGroup | isAdded
  · have plain : b.source.isPlain = true := by
      rw [Builder.source, ownNames b isGroup, Option.getD_none]
      cases b.isNobits <;> rfl
    change b.source.isPlain = false at notPlain
    rw [plain] at notPlain
    cases notPlain
  · exact ⟨b, isAdded, rfl, rfl⟩

theorem size_of_source (ownNames : input.KeepsOwnNames) {s : OutputSection}
    (present : s ∈ layout.outputSections) (isOwn : s.source.isOwn = true) :
    s.shSize = input.reservedSize computed.pre layout s.source := by
  rcases input.extends_isMeta (input.symtabPlan (input.ordered computed.pre))
    (input.metaStart (input.ordered computed.pre)) with ⟨more, added, _, each⟩
  change (input.fileCursor (input.ordered computed.pre)).sections =
    (input.placement (input.ordered computed.pre)).sections ++ more at added
  rcases @exists_sections input _ computed.pre computed.entry more added with
    ⟨placed, fileOnly, names, split, shape⟩
  have isOutput : layout.outputSections = placed ++ (fileOnly ++ [names]) :=
    (congrArg Layout.outputSections computed.assembled).trans split
  have symtab : layout.symtab = (input.symtabPlan (input.ordered computed.pre)).entries :=
    congrArg Layout.symtab computed.assembled
  have strtab : layout.strtab = (input.symtabPlan (input.ordered computed.pre)).strtab :=
    congrArg Layout.strtab computed.assembled
  have shndx : layout.symtabShndx =
      buildSymtabShndx (input.symtabPlan (input.ordered computed.pre)).entries :=
    congrArg Layout.symtabShndx computed.assembled
  rw [isOutput, List.mem_append, List.mem_append] at present
  rcases present with isPlaced | isFileOnly | isNames
  · rcases Pairwise.exists_left shape.placed_of isPlaced with ⟨before, among, isFinished⟩
    have isFile := @isFileSource_placed input (input.ordered computed.pre) before
      ((input.sections_placement _).symm ▸ among)
    rw [isFinished.source] at isOwn ⊢
    rw [isFinished.shSize (source_placed among)]
    have notPlain := isPlain_of_own isOwn isFile
    rcases exists_own computed ownNames among notPlain with ⟨b, isAdded, source, size⟩
    rw [← source] at isOwn ⊢
    rw [← size]
    exact size_of_added computed isAdded isOwn
  · rcases Pairwise.exists_left shape.others_of isFileOnly with ⟨before, among, isFinished⟩
    have isMeta := each before among
    rw [isFinished.source, isFinished.shSize isMeta.fileOnly.source]
    cases isMeta with
    | symTab offset =>
        change _ = UInt64.ofNat ((layout.symtab.length + 1) * symSize.toNat)
        rw [symtab, UInt64.ofNat_mul]
        rfl
    | strTab offset =>
        change _ = UInt64.ofNat layout.strtab.length
        rw [strtab]
        rfl
    | symTabShndx offset =>
        change _ = UInt64.ofNat layout.symtabShndx.length
        rw [shndx]
        rfl
    | rela target place index offset =>
        have inFile := List.mem_append_right
          (input.placement (input.ordered computed.pre)).sections among
        rw [← added] at inFile
        rcases relasSized_fileCursor _ _ inFile index rfl with ⟨blob, isBlob, size⟩
        have relocs : layout.emitRelocs =
            (input.fileCursor (input.ordered computed.pre)).emitRelocs :=
          congrArg Layout.emitRelocs computed.assembled
        rw [size]
        change _ = UInt64.ofNat (layout.emitRelocs[index]?.getD []).length
        rw [relocs, isBlob, Option.getD_some]
    | passed name offset listed =>
        rw [isFinished.source] at isOwn
        cases isOwn
  · rw [List.mem_singleton.mp isNames, shape.names_size, shape.names_of.source]
    have table : layout.shstrtab =
        (input.fileEnd computed.pre (input.ordered computed.pre)).shstrtab :=
      congrArg Layout.shstrtab computed.assembled
    change _ = UInt64.ofNat layout.shstrtab.length
    rw [table]
    rfl

/-! ### The entries of `.dynamic` -/

omit computed in
theorem countNamed_append (first second : List Builder) (name : Name) :
    countNamed (first ++ second) name = countNamed first name + countNamed second name := by
  rw [countNamed, List.filter_append, List.length_append]
  rfl

omit computed in
theorem countNamed_eq_zero {builders : List Builder} {name : Name}
    (others : ∀ b ∈ builders, b.name ≠ name) : countNamed builders name = 0 := by
  rw [countNamed, List.length_eq_zero_iff, List.filter_eq_nil_iff]
  intro b present isNamed
  exact others b present (beq_iff_eq.mp isNamed)

omit computed in
theorem countNamed_groupsOf (wanted : Builder → Bool) (name : Name) :
    countNamed (input.groupsOf wanted) name =
      (input.groups.any fun b => wanted b && b.name == name).toNat := by
  have distinct : (input.groups.map Builder.name).Nodup :=
    input.grouping.nodup_gather input.contributors
  have sorted : countNamed (input.groupsOf wanted) name =
      ((input.groups.filter wanted).filter fun b => b.name == name).length :=
    ((sortBy_perm _ _).filter _).length_eq
  rw [sorted]
  generalize input.groups = groups at distinct
  induction groups with
  | nil => rfl
  | cons b rest induction =>
      rw [List.map_cons, List.nodup_cons] at distinct
      have later := induction distinct.2
      rw [List.filter_filter] at later ⊢
      rw [List.any_cons, List.filter_cons]
      by_cases isNamed : b.name = name
      · have others : (rest.any fun b => wanted b && b.name == name) = false := by
          rw [List.any_eq_false]
          intro other present both
          rw [Bool.and_eq_true, beq_iff_eq] at both
          exact distinct.1 (List.mem_map.mpr ⟨other, present, both.2.trans isNamed.symm⟩)
        rw [others] at later ⊢
        cases isWanted : wanted b with
        | false => simpa [isNamed, isWanted] using later
        | true => simpa [isNamed, isWanted] using later
      · have other : (b.name == name) = false := beq_eq_false_iff_ne.mpr isNamed
        rw [other, Bool.and_false, Bool.false_or, Bool.false_and, if_neg Bool.false_ne_true]
        exact later

/-- What runs before and after the program is in the sections for which entries are
reserved. -/
structure StartupForeseen (input : LayoutInput) (layout : Layout) : Prop where
  code : ∀ name ∈ [nameOf ".init", nameOf ".fini"],
    hasSection layout.outputSections name = true →
      ∃ b ∈ input.groups, b.perm = .rx ∧ b.name = name
  arrays : ∀ name ∈ [nameOf ".init_array", nameOf ".fini_array"],
    hasSection layout.outputSections name = true →
      ∃ b ∈ input.groups, b.perm = .rw ∧ b.isNobits = false ∧ b.name = name

theorem hasSection_of_group {b : Builder} (isGroup : b ∈ input.groups) :
    hasSection layout.outputSections b.name = true := by
  have powers := (input.classified_ordered computed.pre input.groups).tls_powers
    (groups_aligned computed.aligned)
  rcases exists_raised powers (mem_ordered.mpr (.inl isGroup)) with
    ⟨raised, among, align, rfl, _⟩
  rcases @exists_name input computed.pre _ computed.entry _ among with ⟨s, present, named⟩
  have isOutput := congrArg Layout.outputSections computed.assembled
  rw [hasSection, isOutput]
  exact List.any_eq_true.mpr ⟨s, present, beq_iff_eq.mpr named⟩

theorem any_le_hasSection (wanted : Builder → Bool) (name : Name) :
    (input.groups.any fun b => wanted b && b.name == name).toNat ≤
      (hasSection layout.outputSections name).toNat := by
  cases found : input.groups.any fun b => wanted b && b.name == name with
  | false => exact Nat.zero_le _
  | true =>
      rcases List.any_eq_true.mp found with ⟨b, isGroup, both⟩
      rw [Bool.and_eq_true, beq_iff_eq] at both
      rw [← both.2, hasSection_of_group computed isGroup]

omit computed in
theorem reservedEntries_eq (pre : DynPrebuild) (dynj : DynamicInfo) :
    input.reservedEntries pre dynj = input.fixedEntries pre dynj +
      startupEntries
        (fun name => (input.groups.any fun b => b.perm == .rx && b.name == name).toNat)
        (fun name => (input.groups.any fun b =>
          (b.perm == .rw && !b.isNobits) && b.name == name).toNat) + 1 := by
  have others (flag : Bool) (b : Builder) (name : Name) (different : b.name ≠ name) :
      countNamed (Builder.only flag b) name = 0 := by
    apply countNamed_eq_zero
    intro other present
    rw [(Builder.mem_only.mp present).2]
    exact different
  have stubs (name : Name) (different : nameOf ".plt" ≠ name) :
      countNamed input.addedStubs name = 0 := others _ _ _ different
  have got (name : Name) (different : nameOf ".got" ≠ name) :
      countNamed input.addedGot name = 0 := others _ _ _ different
  have slots (name : Name) (different : nameOf ".got.plt" ≠ name) :
      countNamed input.addedSlots name = 0 := others _ _ _ different
  rw [reservedEntries, dynEntries_eq, startupEntries, startupEntries]
  simp only [countNamed_append, countNamed_groupsOf, stubs _ (show _ ≠ nameOf ".init" by decide),
    stubs _ (show _ ≠ nameOf ".fini" by decide), got _ (show _ ≠ nameOf ".init_array" by decide),
    got _ (show _ ≠ nameOf ".fini_array" by decide),
    slots _ (show _ ≠ nameOf ".init_array" by decide),
    slots _ (show _ ≠ nameOf ".fini_array" by decide), Nat.add_zero]

theorem foreseen_iff {pre : DynPrebuild} {dynj : DynamicInfo}
    (prebuilt : input.prebuildInfo dynj = .ok pre) :
    16 * input.reservedEntries pre dynj ≤
        (input.dynamicBytes pre dynj layout.outputSections).length ∧
      (16 * input.reservedEntries pre dynj =
          (input.dynamicBytes pre dynj layout.outputSections).length ↔
        input.StartupForeseen layout) := by
  have below := any_le_hasSection computed
  have reserved (wanted : Builder → Bool) (name : Name) :
      (input.groups.any fun b => wanted b && b.name == name).toNat =
          (hasSection layout.outputSections name).toNat ↔
        (hasSection layout.outputSections name = true →
          ∃ b ∈ input.groups, wanted b = true ∧ b.name = name) := by
    have bound := below wanted name
    constructor
    · intro same has
      rw [has] at same
      cases found : input.groups.any fun b => wanted b && b.name == name with
      | false =>
          rw [found] at same
          cases same
      | true =>
          rcases List.any_eq_true.mp found with ⟨b, isGroup, both⟩
          rw [Bool.and_eq_true, beq_iff_eq] at both
          exact ⟨b, isGroup, both⟩
    · intro foreseen
      cases has : hasSection layout.outputSections name with
      | false =>
          rw [has] at bound
          exact Nat.le_zero.mp bound
      | true =>
          rcases foreseen has with ⟨b, isGroup, isWanted, named⟩
          have found : (input.groups.any fun b => wanted b && b.name == name) = true := by
            rw [List.any_eq_true]
            exact ⟨b, isGroup, by rw [isWanted, Bool.true_and, beq_iff_eq]; exact named⟩
          rw [found]
  have code := reserved fun b => b.perm == .rx
  have arrays := reserved fun b => b.perm == .rw && !b.isNobits
  have belowInit := below (fun b => b.perm == .rx) (nameOf ".init")
  have belowFini := below (fun b => b.perm == .rx) (nameOf ".fini")
  have belowInitArray := below (fun b => b.perm == .rw && !b.isNobits) (nameOf ".init_array")
  have belowFiniArray := below (fun b => b.perm == .rw && !b.isNobits) (nameOf ".fini_array")
  simp only [Bool.and_eq_true, beq_iff_eq, Bool.not_eq_true', and_assoc] at code arrays
  rw [reservedEntries_eq, length_dynamicBytes prebuilt, startupEntries, startupEntries]
  refine ⟨by omega, fun same => ⟨fun name present => (code name).mp ?_,
    fun name present => (arrays name).mp ?_⟩, fun foreseen => ?_⟩
  · rw [List.mem_cons, List.mem_singleton] at present
    rcases present with rfl | rfl
    · omega
    · omega
  · rw [List.mem_cons, List.mem_singleton] at present
    rcases present with rfl | rfl
    · omega
    · omega
  · have init := (code _).mpr (foreseen.code _ (List.mem_cons_self))
    have fini := (code _).mpr (foreseen.code _ (List.mem_cons_of_mem _ List.mem_cons_self))
    have initArray := (arrays _).mpr (foreseen.arrays _ (List.mem_cons_self))
    have finiArray := (arrays _).mpr
      (foreseen.arrays _ (List.mem_cons_of_mem _ List.mem_cons_self))
    omega

theorem size_of_dynamic (ownNames : input.KeepsOwnNames) {dynj : DynamicInfo}
    (isDynamic : input.dynamic = some dynj) (small : layout.contentSize .dynamic < 2 ^ 64)
    {s : OutputSection} (present : s ∈ layout.outputSections) (isSource : s.source = .dynamic) :
    s.shSize.toNat ≤ layout.contentSize .dynamic ∧
      (s.shSize.toNat = layout.contentSize .dynamic ↔ input.StartupForeseen layout) := by
  have written : layout.contentSize .dynamic =
      (input.dynamicBytes computed.pre dynj layout.outputSections).length :=
    congrArg List.length (blobs_computed computed isDynamic).2.2
  have foreseen := foreseen_iff computed (prebuilt_of_dynamic computed isDynamic)
  rw [← written] at foreseen
  have size : s.shSize.toNat = 16 * input.reservedEntries computed.pre dynj := by
    rw [size_of_source computed ownNames present (by rw [isSource]; rfl), isSource,
      reservedSize, isDynamic, Option.map_some, Option.getD_some, UInt64.toNat_mul,
      UInt64.toNat_ofNat']
    change (input.reservedEntries computed.pre dynj % 2 ^ 64 * 16) % 2 ^ 64 = _
    have below := foreseen.1.trans_lt small
    omega
  rw [size]
  exact foreseen

end Computed

end LayoutInput

/-- All bytes of the section are known once the file is laid out. -/
def SecSource.isBuilt : SecSource → Bool
  | .input | .bss | .got | .dynamic | .relaDyn | .ehFrameHdr => false
  | _ => true

namespace LayoutInput

/-- What is written to a section of the linker's own is as long as what is reserved for it,
when no input section is merged under its name. In `.dynamic` there is room for all entries
just when what runs before and after the program is where it is looked for. -/
theorem reserved_eq_written {input : LayoutInput} {layout : Layout}
    (succeeded : input.computeLayoutIcf = .ok layout) (ownNames : input.KeepsOwnNames) :
    (∀ s ∈ layout.outputSections, s.source.isBuilt = true →
        s.shSize = UInt64.ofNat (layout.contentSize s.source)) ∧
      (∀ s ∈ layout.outputSections, s.source = .got →
        s.shSize = UInt64.ofNat (layout.contentSize .got) + input.tls.byteSize) ∧
      ∀ dynj, input.dynamic = some dynj → layout.contentSize .dynamic < 2 ^ 64 →
        ∀ s ∈ layout.outputSections, s.source = .dynamic →
          s.shSize.toNat ≤ layout.contentSize .dynamic ∧
            (s.shSize.toNat = layout.contentSize .dynamic ↔
              input.StartupForeseen layout) := by
  rcases computed_of_ok succeeded with ⟨computed⟩
  have gotSlots : layout.gotSlots = input.gotSyms :=
    congrArg Layout.gotSlots computed.assembled
  refine ⟨fun s present isBuilt => ?_, fun s present isGot => ?_,
    fun dynj isDynamic small s present isSource =>
      size_of_dynamic computed ownNames isDynamic small present isSource⟩
  · have isOwn : s.source.isOwn = true := by
      cases source : s.source <;> rw [source] at isBuilt <;> first | rfl | cases isBuilt
    rw [size_of_source computed ownNames present isOwn]
    cases source : s.source <;> rw [source] at isBuilt <;> first | rfl | cases isBuilt
  · rw [size_of_source computed ownNames present (by rw [isGot]; rfl), isGot]
    change input.gotTotal = UInt64.ofNat (layout.gotSlots.length * 8) + _
    rw [gotSlots, UInt64.ofNat_mul]
    rfl

/-! A shared object with code that runs first. -/

private def startupSection (index : Nat) (name : String) (kind : SectionKind)
    (flags : UInt64) : InputSection where
  index := index
  name := nameOf name
  kind := kind
  shType := 1
  data := ⟨.owned 0, 0, 8⟩
  align := 8
  size := 8
  flags := flags
  relocs := []

private def startupObject : InputObject :=
  InputObject.assemble "first.o" 2 0
    [startupSection 1 ".text" .text (shfAlloc ||| shfExecinstr),
      startupSection 2 ".init_array" .data (shfAlloc ||| shfWrite)] [] []

private def startupInput : LayoutInput where
  arena := { mmaps := [], owned := [[0, 0, 0, 0, 0, 0, 0, 0]] }
  objects := [startupObject]
  symbols := SymbolTable.new
  dynamic := some { needed := [nameOf "libc.so.6"], shared := true }
  config := { shared := true }

private def startupFits (layout : Layout) : Bool :=
  decide (layout.contentSize .dynamic < 2 ^ 64) &&
    (layout.outputSections.any fun s => s.source == .dynamic) &&
    !LayoutInput.hasSection layout.outputSections (nameOf ".init") &&
    !LayoutInput.hasSection layout.outputSections (nameOf ".fini") &&
    !LayoutInput.hasSection layout.outputSections (nameOf ".fini_array")

theorem reserved_eq_written_startup :
    ∃ layout, startupInput.computeLayoutIcf = .ok layout ∧
      ∃ s ∈ layout.outputSections, s.source = .dynamic ∧
        s.shSize.toNat = layout.contentSize .dynamic := by
  rcases @exists_layout startupInput (by decide +kernel) with ⟨layout, computed⟩
  have ownNames : startupInput.KeepsOwnNames := by decide +kernel
  have fits := @any_of_computed startupInput startupFits layout (by decide +kernel) computed
  simp only [startupFits, Bool.and_eq_true, Bool.not_eq_true', decide_eq_true_eq,
    List.any_eq_true, beq_iff_eq] at fits
  rcases fits with ⟨⟨⟨⟨small, s, present, isDynamic⟩, noInit⟩, noFini⟩, noFiniArray⟩
  have sizes := ((reserved_eq_written computed ownNames).2.2 _ rfl small s present isDynamic).2
  refine ⟨layout, computed, s, present, isDynamic, sizes.mpr ⟨fun name isName has => ?_,
    fun name isName has => ?_⟩⟩
  · rw [List.mem_cons, List.mem_singleton] at isName
    rcases isName with rfl | rfl
    · rw [noInit] at has
      cases has
    · rw [noFini] at has
      cases has
  · rw [List.mem_cons, List.mem_singleton] at isName
    rcases isName with rfl | rfl
    · decide +kernel
    · rw [noFiniArray] at has
      cases has

end LayoutInput

end Peony
