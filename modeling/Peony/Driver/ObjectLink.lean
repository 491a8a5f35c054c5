import Peony.Driver.Coverage
import Peony.Driver.Link
import Peony.Emit.FullEmission
import Peony.Layout.Composition
import Peony.Object.Merge

namespace Peony

/-! The link of plain objects, from what it reads to the bytes that it writes, and an output
that is left as it is although a link would write another one. -/

/-! ## From reads to bytes -/

namespace Reads

def args (reads : Reads) : Args where
  output := reads.options.output
  entry := reads.options.entry
  gcSections := reads.options.gcSections
  icf := reads.options.icf
  defsym := reads.options.defsym
  buildId := reads.options.buildId
  stripAll := reads.options.stripAll
  stripDebug := reads.options.stripDebug
  emitRelocs := reads.options.emitRelocs
  pie := reads.options.pie
  dynamicLinker := reads.options.dynamicLinker
  rpaths := reads.options.rpaths
  enableNewDtags := reads.options.enableNewDtags
  hashStyle := reads.options.hashStyle
  exportDynamic := reads.options.exportDynamic
  exportDynamicPatterns := reads.options.exportDynamicPatterns
  excludeLibs := reads.options.excludeLibs
  noUndefined := reads.options.noUndefined
  undefined := reads.options.undefined
  requireDefined := reads.options.requireDefined
  relocatable := reads.options.relocatable
  shared := reads.options.shared
  soname := reads.options.soname

/-- The inputs, if all are objects that are linked as they are listed. -/
def bareFiles (reads : Reads) : Option (List BareFile) :=
  (reads.inputs.zip reads.contents).zipIdx.mapM fun entry => do
    let bytes ← entry.1.2
    if classifyBytes (bytes.take 20) = .bare ∧ entry.1.1.startLibMember = false then
      some ⟨UInt32.ofNat entry.2, String.ofList (fromUtf8Lossy entry.1.1.path), bytes⟩
    else none

variable {ElfError : Type} (parseElf : List UInt8 → Except ElfError (ElfFile ElfError))

/-- The link of an executable or a library from objects alone. -/
def objectLink (reads : Reads) : Option Link := do
  if reads.options.relocatable || !reads.injectedCrt.isEmpty then none else
  let files ← reads.bareFiles
  let loaded ← (loadSerial parseElf ⟨files.map BareFile.data, []⟩ files).toOption
  let bare ← (Resolver.empty.resolveAll loaded.2).toOption
  let resolver := bare.forceUndefined (reads.options.undefined.map encodeUtf8)
  let collected := gcSectionsRootedWithStats resolver.objects resolver.symbols
    (encodeUtf8 reads.options.entry) reads.args.exportRequested
  return {
    args := reads.args
    baseAddress := reads.baseAddress
    script := reads.script
    versionScript := reads.versionScript
    arena := loaded.1
    objects := resolver.objects
    symbols := resolver.symbols
    live := (computeLive resolver.objects reads.options.gcSections collected resolver.excluded
      (some reads.script)).asFilter
    foldMap :=
      if reads.options.icf then some (Icf.computeFoldMap loaded.1 resolver.objects) else none }

/-- What such a link writes to a new file. -/
def objectOutput (reads : Reads) : Option (List UInt8) := do
  let link ← reads.objectLink parseElf
  let linked ← link.run.toOption
  (emitFull link.arena link.objects linked.symbols linked.layout none).toOption

def fileSize (reads : Reads) : Option Nat := do
  let link ← reads.objectLink parseElf
  let linked ← link.run.toOption
  return linked.layout.fileSize

end Reads

/-- It fails with an error of whatever kind when it writes nothing. -/
def linkObjects {ElfError : Type} (parseElf : List UInt8 → Except ElfError (ElfFile ElfError)) :
    Linker :=
  fun reads =>
    match reads.objectOutput parseElf with
    | some bytes => .ok bytes
    | none => .error .unfinished

namespace Reads

variable {ElfError : Type} {parseElf : List UInt8 → Except ElfError (ElfFile ElfError)}
variable {reads : Reads}

theorem linkObjects_ok_iff {bytes : List UInt8} :
    linkObjects parseElf reads = .ok bytes ↔ reads.objectOutput parseElf = some bytes := by
  rw [linkObjects]
  cases reads.objectOutput parseElf with
  | none =>
      constructor
      · intro impossible
        cases impossible
      · intro impossible
        cases impossible
  | some written => exact ⟨fun same => congrArg some (Except.ok.inj same),
      fun same => congrArg Except.ok (Option.some.inj same)⟩

theorem length_objectOutput {bytes : List UInt8}
    (written : reads.objectOutput parseElf = some bytes) :
    reads.fileSize parseElf = some bytes.length := by
  rw [objectOutput] at written
  rcases Option.bind_eq_some_iff.mp written with ⟨link, isLink, later⟩
  rcases Option.bind_eq_some_iff.mp later with ⟨linked, isLinked, isOutput⟩
  have emitted := toOption_some_iff.mp isOutput
  rw [emitFull] at emitted
  cases areWrites : emitWrites link.arena link.objects linked.symbols linked.layout .all
      (openOutputMap none linked.layout.fileSize) with
  | error fault =>
      rw [areWrites] at emitted
      cases emitted
  | ok writes =>
      rw [areWrites] at emitted
      cases emitted
      rw [fileSize, isLink, Option.bind_eq_bind, Option.bind_some, isLinked,
        Buffer.length_applyAll, length_openOutputMap]
      rfl

end Reads

/-! ## The gate -/

namespace Rebuild

variable {Hash : Type} {rebuild : Rebuild Hash}

/-- When the gate lets a link return, the recorded output is what a full link of
the later files writes, if and only if what a link reads besides its inputs is
what the recorded link read. -/
theorem outputCurrent_iff (reused : rebuild.Reused) :
    rebuild.OutputCurrent ↔ rebuild.SameSideReads := by
  rcases reused.linked with ⟨_, wrote⟩
  rcases (fullLink_eq_ok reused.entered).mp wrote with ⟨reads, isReads, _⟩
  constructor
  · intro outputCurrent
    -- A linker that writes these bytes from nothing else.
    let linker : Linker := fun seen =>
      if seen = reads then .ok rebuild.bytes else .error .unfinished
    have written := outputCurrent linker
      ((fullLink_eq_ok reused.entered).mpr ⟨reads, isReads, if_pos rfl⟩)
    rcases (fullLink_eq_ok reused.again).mp written with ⟨seen, again, writes⟩
    have same : seen = reads := by
      by_contra different
      have refused : linker seen = .error .unfinished := if_neg different
      rw [refused] at writes
      cases writes
    rw [same] at again
    exact reused.sameSideReads isReads again
  · intro same linker written
    rcases (fullLink_eq_ok reused.entered).mp written with
      ⟨seen, isSeen, writes⟩
    rw [← reused.reads_eq same] at isSeen
    exact (fullLink_eq_ok reused.again).mpr ⟨seen, isSeen, writes⟩

/-! ### A version script that is edited -/

private def scriptPath : Path := encodeUtf8 (ascii "v")

private def objectPath : Path := encodeUtf8 (ascii "a.o")

private def outputPath : Path := encodeUtf8 (ascii "out")

/-- An object that defines the function `f`. -/
@[irreducible] private def libraryObject : List UInt8 :=
  let zeros (count : Nat) : List UInt8 := List.replicate count 0
  let header (name shType flags : UInt8) (offset size link info align entsize : UInt8) :=
    name :: zeros 3 ++ shType :: zeros 3 ++ flags :: zeros 15 ++ offset :: zeros 7 ++
      size :: zeros 7 ++ link :: zeros 3 ++ info :: zeros 3 ++ align :: zeros 7 ++
      entsize :: zeros 7
  let fileHeader := elfMagic ++ [2, 1, 1] ++ zeros 9 ++ [1, 0, 62, 0, 1, 0, 0, 0] ++
    zeros 16 ++ 160 :: zeros 11 ++ [64, 0, 0, 0, 0, 0, 64, 0, 5, 0, 4, 0]
  let text := [0x31, 0xc0, 0xc3, 0x90] ++ zeros 4
  let symbols := zeros 24 ++ [1, 0, 0, 0, 0x12, 0, 1, 0] ++ zeros 8 ++ 3 :: zeros 7
  let names := 0 :: nameOf "f" ++ [0]
  let sectionNames := 0 :: nameOf ".text" ++ 0 :: nameOf ".symtab" ++ 0 :: nameOf ".strtab" ++
    0 :: nameOf ".shstrtab" ++ zeros 5
  fileHeader ++ text ++ symbols ++ names ++ sectionNames ++ zeros 64 ++
    header 1 1 6 64 4 0 0 4 0 ++ header 7 2 0 72 48 3 1 8 24 ++ header 15 3 0 120 3 0 0 1 0 ++
    header 23 3 0 123 33 0 0 1 0

/-- What the reader returns of the object. -/
private def readLibrary (data : List UInt8) : Except Unit (ElfFile Unit) :=
  if data = libraryObject then
    .ok {
      sections :=
        [⟨1, shtProgbits, 0, some (nameOf ".text"), some 6, some (64, 4), some false, .ok [],
            none, [], 4, 4⟩,
          ⟨2, shtSymtab, 1, some (nameOf ".symtab"), some 0, some (72, 48), some false, .ok [],
            none, [], 8, 48⟩,
          ⟨3, shtStrtab, 0, some (nameOf ".strtab"), some 0, some (120, 3), some false, .ok [],
            none, [], 1, 3⟩,
          ⟨4, shtStrtab, 0, some (nameOf ".shstrtab"), some 0, some (123, 33), some false,
            .ok [], none, [], 1, 33⟩]
      symbols := [⟨1, some (nameOf "f"), false, false, false, false, some (2, 0), some 1, 0, 3⟩]
      sectionCount := 4
      symbolCount := 0
      symbolName := fun index => if index = 1 then some (nameOf "f") else none }
  else .error ()

private def bareHost : Host where
  incrementalDisabled := false
  isDirectory := fun _ => false
  gccLibraryDirs := []
  gccFileName := fun _ => none

private def libraryArgv : List Text :=
  [ascii "-shared", ascii "--version-script=v", ascii "a.o",
    ascii "-oout"]

private def exporting : List UInt8 := encodeUtf8 (ascii "\x7b global: f; local: *; \x7d;")

/-- The script with a comment, and one that exports nothing. -/
private def commented : List UInt8 :=
  encodeUtf8 (ascii "\x7b global: f; # all\n local: *; \x7d;")

private def exportingNothing : List UInt8 := encodeUtf8 (ascii "\x7b local: *; \x7d;")

private def libraryMachine : Machine Unit where
  disk := (Disk.empty.write objectPath libraryObject).write scriptPath exporting
  cache := CacheStore.empty Unit
  recordings := []

private def libraryFront : Front where
  args :=
    { rawArgs := libraryArgv
      inputs := [objectPath]
      linkSpecs := [⟨.path objectPath, false, false, .any, false⟩]
      output := outputPath
      shared := true
      versionScript := some scriptPath }
  baseAddress := 0
  controls := ScriptControls.empty
  inputs := [plainInput objectPath]
  injectedCrt := []

private def libraryReads (disk : Disk) : Reads :=
  (libraryFront.reads disk).toOption.getD
    ⟨libraryFront.args.options, 0, ScriptLayout.empty, none, [], [], []⟩

@[irreducible] private def libraryBytes : List UInt8 :=
  ((libraryReads libraryMachine.disk).objectOutput readLibrary).getD []

private def noRecords : RecordRequest Unit where
  output := []
  inputs := []
  argsHash := 0
  sections := []
  symbols := []
  frontEnd := none
  layout := {}

private def savedDisk (script : List UInt8) : Disk :=
  (libraryMachine.disk.write outputPath libraryBytes).write scriptPath script

private def scriptSaved (script : List UInt8) : Rebuild Unit where
  host := bareHost
  argv := libraryArgv
  before := libraryMachine
  beforeFuel := 1
  laterFuel := 1
  front := libraryFront
  bytes := libraryBytes
  later := savedDisk script
  current := libraryFront

private def entersAs (disk : Disk) : Bool :=
  decide (frontEnd bareHost disk 1 libraryArgv = .ok libraryFront) &&
    (libraryFront.reads disk).toOption.isSome

-- All that is evaluated of the links.
private theorem scriptSaved_evaluated :
    (entersAs libraryMachine.disk && entersAs (savedDisk commented) &&
      entersAs (savedDisk exportingNothing) &&
      decide (libraryFront.readVersionScript (savedDisk commented) =
        libraryFront.readVersionScript libraryMachine.disk) &&
      ((libraryReads libraryMachine.disk).objectOutput readLibrary).isSome &&
      (libraryReads libraryMachine.disk).fileSize readLibrary !=
        (libraryReads (savedDisk exportingNothing)).fileSize readLibrary) = true := by
  decide +kernel

private theorem fullLink_library {disk : Disk} (enters : entersAs disk = true) (linker : Linker) :
    frontEnd bareHost disk 1 libraryArgv = .ok libraryFront ∧
      fullLink linker bareHost disk 1 libraryArgv = linker (libraryReads disk) := by
  rw [entersAs, Bool.and_eq_true, decide_eq_true_eq] at enters
  rcases enters with ⟨entered, isRead⟩
  rcases exists_ok_of_isSome isRead with ⟨reads, areReads⟩
  refine ⟨entered, ?_⟩
  rw [fullLink, entered, libraryReads, ok_bind, areReads]
  rfl

private theorem objectOutput_library
    (written : ((libraryReads libraryMachine.disk).objectOutput readLibrary).isSome = true) :
    (libraryReads libraryMachine.disk).objectOutput readLibrary = some libraryBytes := by
  rcases Option.isSome_iff_exists.mp written with ⟨bytes, areBytes⟩
  rw [libraryBytes, areBytes, Option.getD_some]

private theorem scriptSaved_linked :
    fullLink (linkObjects readLibrary) bareHost libraryMachine.disk 1 libraryArgv =
      .ok libraryBytes := by
  have evaluated := scriptSaved_evaluated
  simp only [Bool.and_eq_true] at evaluated
  rcases evaluated with ⟨⟨⟨⟨⟨before, _⟩, _⟩, _⟩, written⟩, _⟩
  rw [(fullLink_library before _).2]
  exact Reads.linkObjects_ok_iff.mpr (objectOutput_library written)

private theorem scriptSaved_reused {script : List UInt8}
    (enters : entersAs (savedDisk script) = true) : (scriptSaved script).Reused where
  stamped := (Disk.stamped_empty.write _ _).write _ _
  entered := by
    have evaluated := scriptSaved_evaluated
    simp only [Bool.and_eq_true] at evaluated
    exact (fullLink_library evaluated.1.1.1.1.1 (linkObjects readLibrary)).1
  linked := ⟨linkObjects readLibrary, scriptSaved_linked⟩
  accepted := by
    have present : ∀ path ∈ libraryFront.paths, (libraryMachine.disk.stat path).isSome := by
      decide
    have noColors : noRecords.sections = [] := rfl
    rcases exists_recordLink libraryBytes noColors present with ⟨recorded, made⟩
    refine ⟨noRecords, recorded, [.write scriptPath script], made, ?_, ?_⟩
    · rw [(recordLink_spec made).1]
      rfl
    · refine (Front.reuses_iff made).mpr ⟨⟨rfl, rfl⟩, fun path isPath => ?_⟩
      have other : path ≠ scriptPath := by
        rintro rfl
        exact absurd isPath (by decide)
      rw [(recordLink_spec made).1]
      exact congrArg (Option.map File.fast) (Disk.file_write_of_ne _ _ other)
  again := (fullLink_library enters (linkObjects readLibrary)).1
  sameOutput := rfl

/-- A comment that is added to the script changes nothing. -/
theorem commentAdded_outputCurrent : (scriptSaved commented).OutputCurrent := by
  have evaluated := scriptSaved_evaluated
  simp only [Bool.and_eq_true, decide_eq_true_eq] at evaluated
  rcases evaluated with ⟨⟨⟨⟨⟨_, enters⟩, _⟩, sameScript⟩, _⟩, _⟩
  exact (outputCurrent_iff (scriptSaved_reused enters)).mpr
    ⟨rfl, rfl, rfl, sameScript, rfl, rfl, fun isRead => absurd isRead (by decide)⟩

/-- The gate lets the link return although the script exports nothing now, and the file of
such a library has another size. -/
theorem symbolRemoved_not_outputCurrent :
    ∃ rebuild : Rebuild Unit, rebuild.Reused ∧ ¬rebuild.OutputCurrent := by
  have evaluated := scriptSaved_evaluated
  simp only [Bool.and_eq_true, bne_iff_ne] at evaluated
  rcases evaluated with ⟨⟨⟨⟨⟨_, _⟩, enters⟩, _⟩, written⟩, resized⟩
  refine ⟨scriptSaved exportingNothing, scriptSaved_reused enters, fun outputCurrent => ?_⟩
  have again : fullLink (linkObjects readLibrary) bareHost (savedDisk exportingNothing) 1
      libraryArgv = .ok libraryBytes := outputCurrent _ scriptSaved_linked
  rw [(fullLink_library enters _).2] at again
  have first := Reads.length_objectOutput (objectOutput_library written)
  have second := Reads.length_objectOutput (Reads.linkObjects_ok_iff.mp again)
  exact resized (first.trans second.symm)

end Rebuild

end Peony
