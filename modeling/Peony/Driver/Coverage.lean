import Peony.Cache.Record
import Peony.Driver.Inputs

namespace Peony

/-! What the no-change gate covers. The gate compares the paths and the stat
fingerprints of the inputs and the hash of the arguments; a link also reads
scripts and symbol lists, and the modes under which a script passes its inputs
on. -/

/-! ## What a link reads -/

/-- The arguments that the link looks at once the inputs are known. -/
structure LinkOptions where
  output : Path
  entry : Text
  gcSections : Bool
  icf : Bool
  defsym : List Text
  buildId : Bool
  stripAll : Bool
  stripDebug : Bool
  emitRelocs : Bool
  pie : Bool
  dynamicLinker : Option Text
  rpaths : List Text
  enableNewDtags : Bool
  hashStyle : HashStyle
  exportDynamic : Bool
  exportDynamicPatterns : List Text
  excludeLibs : List Text
  noUndefined : Bool
  undefined : List Text
  requireDefined : List Text
  relocatable : Bool
  shared : Bool
  soname : Option Text
deriving DecidableEq

def Args.options (args : Args) : LinkOptions where
  output := args.output
  entry := args.entry
  gcSections := args.gcSections
  icf := args.icf
  defsym := args.defsym
  buildId := args.buildId
  stripAll := args.stripAll
  stripDebug := args.stripDebug
  emitRelocs := args.emitRelocs
  pie := args.pie
  dynamicLinker := args.dynamicLinker
  rpaths := args.rpaths
  enableNewDtags := args.enableNewDtags
  hashStyle := args.hashStyle
  exportDynamic := args.exportDynamic
  exportDynamicPatterns := args.exportDynamicPatterns
  excludeLibs := args.excludeLibs
  noUndefined := args.noUndefined
  undefined := args.undefined
  requireDefined := args.requireDefined
  relocatable := args.relocatable
  shared := args.shared
  soname := args.soname

structure Reads where
  options : LinkOptions
  baseAddress : UInt64
  script : ScriptLayout
  versionScript : Option VersionScript
  inputs : List ResolvedInput
  injectedCrt : List Path
  /-- What is in the inputs, in their order. -/
  contents : List (Option (List UInt8))
deriving DecidableEq

namespace Front

def paths (front : Front) : List Path := resolvedInputPaths front.inputs

def argsHash (front : Front) : UInt64 :=
  hashArgs ((cacheKeyArgs front.args.rawArgs).map encodeUtf8)

/-- It is parsed even if no library is linked, and has no say then. -/
def readVersionScript (front : Front) (disk : Disk) :
    Except DriverError (Option VersionScript) :=
  match front.args.versionScript with
  | some path =>
      if front.args.relocatable then .ok none
      else (parseVersionScript disk path).map fun script =>
        if front.args.shared then some script else none
  | none => .ok none

def reads (front : Front) (disk : Disk) : Except DriverError Reads := do
  let versionScript ← front.readVersionScript disk
  return {
    options := front.args.options
    baseAddress := front.baseAddress
    script := front.controls.layout
    versionScript := versionScript
    inputs := front.inputs
    injectedCrt := front.injectedCrt
    contents := front.paths.map disk.contents }

end Front

/-- The rest of the linker: what it writes, as a function of what it reads. -/
abbrev Linker := Reads → Except DriverError (List UInt8)

def fullLink (linker : Linker) (host : Host) (disk : Disk) (fuel : Nat)
    (argv : List Text) : Except DriverError (List UInt8) := do
  let front ← frontEnd host disk fuel argv
  linker (← front.reads disk)

/-! ## The gate -/

variable {Hash : Type}

def Front.request (front : Front) (records : RecordRequest Hash) :
    RecordRequest Hash :=
  { records with
    output := front.args.output
    inputs := front.paths
    argsHash := front.argsHash }

def recordLink (machine : Machine Hash) (front : Front) (bytes : List UInt8)
    (records : RecordRequest Hash) : Option (Machine Hash) :=
  (Action.writeManifest (front.request records)).apply
    { machine with disk := machine.disk.write front.args.output bytes }

def Front.reuses (front : Front) (disk : Disk) (cache : CacheStore Hash) : Bool :=
  front.args.incremental && !front.args.daemon &&
    tryReuse disk cache front.args.output front.paths front.argsHash

/-! ## Edits -/

inductive Edit where
  | write (path : Path) (bytes : List UInt8)
  | remove (path : Path)
  /-- A file takes the place of another with its modification time. -/
  | rename (source target : Path)
deriving DecidableEq, Repr

def Disk.move (disk : Disk) (source target : Path) (file : File) : Disk where
  file := Function.update (disk.remove source).file target (some file)
  clock := disk.clock

def Edit.apply (disk : Disk) : Edit → Disk
  | .write path bytes => disk.write path bytes
  | .remove path => disk.remove path
  | .rename source target =>
      match disk.file source with
      | some file => disk.move source target file
      | none => disk

def edited (disk : Disk) (edits : List Edit) : Disk :=
  edits.foldl Edit.apply disk

structure Disk.Since (start disk : Disk) : Prop where
  clock : start.clock ≤ disk.clock
  origin : ∀ path file, disk.file path = some file →
    (start.clock : Int) < file.fast.mtimeSec ∨
      ∃ origin, start.file origin = some file

theorem Disk.Since.refl (disk : Disk) : Disk.Since disk disk where
  clock := le_refl _
  origin := by
    intro path file present
    exact Or.inr ⟨path, present⟩

theorem Disk.Since.write {start disk : Disk} (since : start.Since disk)
    (path : Path) (bytes : List UInt8) : start.Since (disk.write path bytes) := by
  have clock := since.clock
  constructor
  · rw [Disk.clock_write]
    omega
  · intro other file present
    by_cases same : other = path
    · subst same
      rw [Disk.file_write_self] at present
      cases present
      left
      simp only [FastFingerprint.at]
      omega
    · rw [Disk.file_write_of_ne disk bytes same] at present
      exact since.origin other file present

theorem Disk.Since.remove {start disk : Disk} (since : start.Since disk)
    (path : Path) : start.Since (disk.remove path) := by
  refine ⟨since.clock, ?_⟩
  intro other file present
  by_cases same : other = path
  · subst same
    rw [Disk.file_remove_self] at present
    cases present
  · rw [Disk.file_remove_of_ne disk same] at present
    exact since.origin other file present

theorem Disk.Since.move {start disk : Disk} (since : start.Since disk)
    {source target : Path} {moved : File}
    (found : disk.file source = some moved) :
    start.Since (disk.move source target moved) := by
  refine ⟨since.clock, ?_⟩
  intro other file present
  by_cases same : other = target
  · have here : (disk.move source target moved).file other = some moved := by
      simp [Disk.move, same]
    rw [here] at present
    cases present
    exact since.origin source moved found
  · have elsewhere : (disk.move source target moved).file other =
        (disk.remove source).file other := by
      simp [Disk.move, same]
    rw [elsewhere] at present
    exact (since.remove source).origin other file present

theorem Disk.Since.apply {start disk : Disk} (since : start.Since disk)
    (edit : Edit) : start.Since (edit.apply disk) := by
  cases edit with
  | write path bytes => exact since.write path bytes
  | remove path => exact since.remove path
  | rename source target =>
      rcases found : disk.file source with - | moved
      · simpa only [Edit.apply, found] using since
      · simpa only [Edit.apply, found] using since.move found

theorem since_edited (disk : Disk) (edits : List Edit) :
    disk.Since (edited disk edits) := by
  suffices general : ∀ current, disk.Since current →
      disk.Since (edited current edits) from general disk (Disk.Since.refl disk)
  induction edits with
  | nil =>
      intro current since
      exact since
  | cons edit rest induction =>
      intro current since
      exact induction _ (since.apply edit)

theorem Disk.Since.file_eq {start disk : Disk} (since : start.Since disk)
    (stamped : start.Stamped) {path : Path} {fast : FastFingerprint}
    (before : start.stat path = some fast) (after : disk.stat path = some fast) :
    disk.file path = start.file path := by
  rcases Option.map_eq_some_iff.mp before with ⟨old, oldPresent, oldFast⟩
  rcases Option.map_eq_some_iff.mp after with ⟨file, present, fileFast⟩
  have past := stamped.past path old oldPresent
  rcases since.origin path file present with later | ⟨origin, originPresent⟩
  · rw [fileFast, ← oldFast] at later
    omega
  · have same : origin = path :=
      stamped.apart origin path file old originPresent oldPresent
        (fileFast.trans oldFast.symm)
    rw [present, ← originPresent, same]

/-! ## Coverage -/

def ResolvedInput.modes (input : ResolvedInput) : Bool × Bool × Bool :=
  (input.wholeArchive, input.asNeeded, input.startLibMember)

/-- The same command line twice: a link that is recorded and a later one that
comes to the gate. -/
structure Rebuild (Hash : Type) where
  host : Host
  argv : List Text
  /-- The machine whose files the recorded link reads. -/
  before : Machine Hash
  /-- How far the queue of scripts is followed, in either link. -/
  beforeFuel : Nat
  laterFuel : Nat
  front : Front
  /-- What the recorded link wrote. -/
  bytes : List UInt8
  /-- The files when the later link runs. -/
  later : Disk
  current : Front

namespace Rebuild

structure Reused (rebuild : Rebuild Hash) : Prop where
  stamped : rebuild.before.disk.Stamped
  entered : frontEnd rebuild.host rebuild.before.disk rebuild.beforeFuel
    rebuild.argv = .ok rebuild.front
  linked : ∃ linker, fullLink linker rebuild.host rebuild.before.disk
    rebuild.beforeFuel rebuild.argv = .ok rebuild.bytes
  accepted : ∃ records recorded edits,
    recordLink rebuild.before rebuild.front rebuild.bytes records =
      some recorded ∧
    rebuild.later = edited recorded.disk edits ∧
    rebuild.current.reuses rebuild.later recorded.cache = true
  again : frontEnd rebuild.host rebuild.later rebuild.laterFuel rebuild.argv =
    .ok rebuild.current
  sameOutput : rebuild.current.args.output = rebuild.front.args.output

/-- Whatever the rest of the linker is: what wrote the recorded output writes it
again from the later files. -/
def OutputCurrent (rebuild : Rebuild Hash) : Prop :=
  ∀ linker,
    fullLink linker rebuild.host rebuild.before.disk rebuild.beforeFuel
      rebuild.argv = .ok rebuild.bytes →
    fullLink linker rebuild.host rebuild.later rebuild.laterFuel rebuild.argv =
      .ok rebuild.bytes

structure SameSideReads (rebuild : Rebuild Hash) : Prop where
  /-- The options, the symbol lists among them. -/
  options : rebuild.current.args.options = rebuild.front.args.options
  baseAddress : rebuild.current.baseAddress = rebuild.front.baseAddress
  script : rebuild.current.controls.layout = rebuild.front.controls.layout
  versionScript : rebuild.current.readVersionScript rebuild.later =
    rebuild.front.readVersionScript rebuild.before.disk
  modes : rebuild.current.inputs.map ResolvedInput.modes =
    rebuild.front.inputs.map ResolvedInput.modes
  injectedCrt : rebuild.current.injectedCrt = rebuild.front.injectedCrt
  /-- A link that reads its own output finds there what it writes. -/
  outputRead : rebuild.front.args.output ∈ rebuild.front.paths →
    rebuild.before.disk.contents rebuild.front.args.output =
      some rebuild.bytes

end Rebuild

/-! ### What the gate has compared -/

theorem recordLink_spec {before recorded : Machine Hash} {front : Front}
    {bytes : List UInt8} {records : RecordRequest Hash}
    (made : recordLink before front bytes records = some recorded) :
    recorded.disk = before.disk.write front.args.output bytes ∧
      ∃ manifest,
        recorded.cache.manifest (cacheDir front.args.output) = some manifest ∧
        statInputs recorded.disk front.paths = some manifest.fastInputs ∧
        recorded.disk.stat front.args.output = some manifest.fastOutput ∧
        manifest.version = cacheVersion ∧
        manifest.argsHash = front.argsHash ∧
        manifest.epochKey = computeEpochKey recorded.disk front.paths front.argsHash := by
  rcases apply_writeManifest made with ⟨manifest, content, makes, _, rfl⟩
  rcases makeManifest_spec makes with ⟨output, inputs, version, args, epoch, _⟩
  exact ⟨rfl, manifest, manifest_committed_self .., inputs, output, version, args, epoch⟩

theorem sameInputs_iff {disk recorded : Disk} {inputs : List Path}
    {fastInputs : List (Path × FastFingerprint)}
    (made : statInputs recorded inputs = some fastInputs) :
    sameInputs disk fastInputs inputs = true ↔
      ∀ path ∈ inputs, disk.stat path = recorded.stat path := by
  induction inputs generalizing fastInputs with
  | nil =>
      cases made
      exact ⟨fun _ path absent => absurd absent List.not_mem_nil, fun _ => rfl⟩
  | cons path rest induction =>
      simp only [statInputs, List.mapM_cons, Option.bind_eq_bind,
        Option.bind_eq_some_iff, Option.map_eq_some_iff, Option.pure_def,
        Option.some.injEq] at made
      rcases made with ⟨_, ⟨fast, present, rfl⟩, later, laterMade, rfl⟩
      rw [List.forall_mem_cons, ← induction laterMade, present]
      simp only [sameInputs, List.length_cons, List.zip_cons_cons, List.all_cons,
        Bool.and_eq_true, beq_iff_eq, Nat.add_right_cancel_iff, true_and]
      exact and_left_comm

theorem computeEpochKey_congr {first second : Disk} {inputs : List Path}
    (same : ∀ path ∈ inputs, first.stat path = second.stat path) (argsHash : UInt64) :
    computeEpochKey first inputs argsHash = computeEpochKey second inputs argsHash := by
  apply List.foldl_ext
  intro hash path isInput
  rw [mtimeNanos, mtimeNanos, same path isInput]

/-- The gate lets the command that was recorded return exactly when a stat of each input
and of the output tells what it told then. -/
theorem Front.reuses_iff {before recorded : Machine Hash} {front : Front}
    {bytes : List UInt8} {records : RecordRequest Hash} {later : Disk}
    (made : recordLink before front bytes records = some recorded) :
    front.reuses later recorded.cache = true ↔
      (front.args.incremental = true ∧ front.args.daemon = false) ∧
        ∀ path ∈ front.args.output :: front.paths,
          later.stat path = recorded.disk.stat path := by
  rcases recordLink_spec made with
    ⟨_, manifest, found, inputs, output, version, args, epoch⟩
  have compared : tryReuse later recorded.cache front.args.output front.paths
      front.argsHash = true ↔
      ∀ path ∈ front.args.output :: front.paths,
        later.stat path = recorded.disk.stat path := by
    rw [List.forall_mem_cons, ← sameInputs_iff inputs, output]
    constructor
    · intro reused
      rcases accepted_of_tryReuse reused with ⟨accepted, gate, _, same⟩
      have isManifest := gate.recorded
      rw [found, Option.some.injEq] at isManifest
      subst isManifest
      exact ⟨gate.unmodified, same⟩
    · rintro ⟨unmodified, same⟩
      have key := computeEpochKey_congr ((sameInputs_iff inputs).mp same) front.argsHash
      simp only [tryReuse, found, unmodified, version, args, epoch, key, same, beq_self_eq_true,
        Bool.and_self]
  rw [Front.reuses, Bool.and_eq_true, Bool.and_eq_true, compared, Bool.not_eq_true']

theorem exists_statInputs {disk : Disk} {inputs : List Path}
    (present : ∀ path ∈ inputs, (disk.stat path).isSome) :
    ∃ fastInputs, statInputs disk inputs = some fastInputs := by
  induction inputs with
  | nil => exact ⟨[], rfl⟩
  | cons path rest induction =>
      rw [List.forall_mem_cons] at present
      rcases Option.isSome_iff_exists.mp present.1 with ⟨fast, isFast⟩
      rcases induction present.2 with ⟨later, areLater⟩
      refine ⟨(path, fast) :: later, ?_⟩
      rw [statInputs] at areLater ⊢
      rw [List.mapM_cons, areLater, isFast]
      rfl

/-- A link whose inputs are there is recorded. -/
theorem exists_recordLink {before : Machine Hash} {front : Front} (bytes : List UInt8)
    {records : RecordRequest Hash} (uncolored : records.sections = [])
    (present : ∀ path ∈ front.paths, (before.disk.stat path).isSome) :
    ∃ recorded, recordLink before front bytes records = some recorded := by
  have output : (before.disk.write front.args.output bytes).file front.args.output = _ :=
    Disk.file_write_self _ _ _
  have still : ∀ path ∈ front.paths,
      ((before.disk.write front.args.output bytes).stat path).isSome := by
    intro path isInput
    by_cases isOutput : path = front.args.output
    · rw [isOutput, Disk.stat, output]
      rfl
    · rw [Disk.stat, Disk.file_write_of_ne _ _ isOutput]
      exact present path isInput
  rcases exists_statInputs still with ⟨fastInputs, inputs⟩
  rw [recordLink, Action.apply, makeManifest, Front.request]
  simp only [inputs, recordedContents, uncolored, Disk.stat, Disk.contents, output]
  exact ⟨_, rfl⟩

theorem inputs_eq {left right : List ResolvedInput}
    (paths : resolvedInputPaths left = resolvedInputPaths right)
    (modes : left.map ResolvedInput.modes = right.map ResolvedInput.modes) :
    left = right := by
  induction left generalizing right with
  | nil => exact (List.map_eq_nil_iff.mp paths.symm).symm
  | cons head tail induction =>
      rcases right with - | ⟨other, rest⟩
      · cases paths
      simp only [resolvedInputPaths, List.map_cons, List.cons.injEq,
        ResolvedInput.modes, Prod.mk.injEq] at paths modes
      rw [induction paths.2 modes.2]
      rcases head with ⟨path, whole, needed, member⟩
      rcases other with ⟨otherPath, otherWhole, otherNeeded, otherMember⟩
      simp only at paths modes
      rw [paths.1, modes.1.1, modes.1.2.1, modes.1.2.2]

theorem reads_eq_ok {front : Front} {disk : Disk} {reads : Reads}
    (isReads : front.reads disk = .ok reads) :
    ∃ script, front.readVersionScript disk = .ok script ∧
      { options := front.args.options
        baseAddress := front.baseAddress
        script := front.controls.layout
        versionScript := script
        inputs := front.inputs
        injectedCrt := front.injectedCrt
        contents := front.paths.map disk.contents } = reads := by
  rcases scriptRead : front.readVersionScript disk with error | script
  · rw [Front.reads, scriptRead] at isReads
    cases isReads
  · rw [Front.reads, scriptRead] at isReads
    exact ⟨script, rfl, Except.ok.inj isReads⟩

theorem fullLink_eq_ok {linker : Linker} {host : Host} {disk : Disk}
    {fuel : Nat} {argv : List Text} {front : Front} {bytes : List UInt8}
    (entered : frontEnd host disk fuel argv = .ok front) :
    fullLink linker host disk fuel argv = .ok bytes ↔
      ∃ reads, front.reads disk = .ok reads ∧ linker reads = .ok bytes := by
  rw [fullLink, entered]
  change (front.reads disk).bind linker = .ok bytes ↔ _
  rcases front.reads disk with error | reads
  · simp [Except.bind]
  · simp [Except.bind]

namespace Rebuild

variable {rebuild : Rebuild Hash}

theorem Reused.compared (reused : rebuild.Reused) :
    rebuild.current.paths = rebuild.front.paths ∧
      (∀ path ∈ rebuild.front.paths, rebuild.later.contents path =
        (rebuild.before.disk.write rebuild.front.args.output
          rebuild.bytes).contents path) ∧
      rebuild.later.contents rebuild.front.args.output =
        some rebuild.bytes := by
  rcases reused.accepted with ⟨records, recorded, edits, made, later, accepts⟩
  rcases recordLink_spec made with
    ⟨written, manifest, found, inputs, output, _⟩
  simp only [Front.reuses, Bool.and_eq_true] at accepts
  rcases accepted_of_tryReuse accepts.2 with
    ⟨accepted, gate, _, sameInputs⟩
  have same := gate.recorded
  rw [reused.sameOutput, found] at same
  cases same
  have stamped : recorded.disk.Stamped := by
    rw [written]
    exact reused.stamped.write _ _
  have since : recorded.disk.Since rebuild.later := by
    rw [later]
    exact since_edited recorded.disk edits
  have paths : rebuild.current.paths = rebuild.front.paths := by
    rw [← paths_of_sameInputs sameInputs, paths_of_statInputs inputs]
  -- The fingerprint that was recorded is the one the file has now.
  have unchanged : ∀ {path fast}, recorded.disk.stat path = some fast →
      rebuild.later.stat path = some fast →
      rebuild.later.contents path = recorded.disk.contents path := by
    intro path fast atRecord now
    rw [Disk.contents, since.file_eq stamped atRecord now, Disk.contents]
  refine ⟨paths, ?_, ?_⟩
  · intro path member
    rw [← paths] at member
    rcases stat_of_sameInputs sameInputs member with ⟨fast, entry, now⟩
    rw [unchanged (mem_statInputs inputs entry).2 now, written]
  · have now := gate.unmodified
    rw [reused.sameOutput] at now
    rw [unchanged output now, written]
    simp [Disk.contents]

theorem Reused.contents_eq (reused : rebuild.Reused)
    (outputRead : rebuild.front.args.output ∈ rebuild.front.paths →
      rebuild.before.disk.contents rebuild.front.args.output =
        some rebuild.bytes) :
    rebuild.current.paths.map rebuild.later.contents =
      rebuild.front.paths.map rebuild.before.disk.contents := by
  rcases reused.compared with ⟨paths, contents, _⟩
  rw [paths]
  apply List.map_congr_left
  intro path member
  rw [contents path member]
  by_cases isOutput : path = rebuild.front.args.output
  · subst isOutput
    rw [outputRead member]
    simp [Disk.contents]
  · exact rebuild.before.disk.contents_write_of_ne rebuild.bytes isOutput

theorem Reused.reads_eq (reused : rebuild.Reused)
    (same : rebuild.SameSideReads) :
    rebuild.current.reads rebuild.later =
      rebuild.front.reads rebuild.before.disk := by
  have inputs : rebuild.current.inputs = rebuild.front.inputs :=
    inputs_eq reused.compared.1 same.modes
  simp only [Front.reads, same.versionScript, same.options, same.baseAddress,
    same.script, same.injectedCrt, inputs, reused.contents_eq same.outputRead]

theorem Reused.sameSideReads (reused : rebuild.Reused) {reads : Reads}
    (isReads : rebuild.front.reads rebuild.before.disk = .ok reads)
    (again : rebuild.current.reads rebuild.later = .ok reads) :
    rebuild.SameSideReads := by
  rcases reads_eq_ok isReads with ⟨script, scriptRead, rfl⟩
  rcases reads_eq_ok again with ⟨currentScript, currentRead, fields⟩
  simp only [Reads.mk.injEq] at fields
  rcases fields with
    ⟨options, base, sections, versionScript, inputs, injected, contents⟩
  refine ⟨options, base, sections, ?_, ?_, injected, ?_⟩
  · rw [currentRead, scriptRead, versionScript]
  · rw [inputs]
  · intro isInput
    rcases reused.compared with ⟨paths, _, output⟩
    rw [paths] at contents
    have atOutput := List.map_inj_left.mp contents _ isInput
    rw [← atOutput, output]

end Rebuild

end Peony
