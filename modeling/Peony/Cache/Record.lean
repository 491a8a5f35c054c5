import Peony.Cache.Manifest

namespace Peony

/-! What a process does to the disk, one atomic step at a time: the writes of an
emission and the two writes of a recording. -/

variable {Hash : Type}

/-! ## The machine -/

/-- A recording that was completed: the bytes the output had then and the layout
they were emitted from. The code keeps no such list; the statements do. -/
structure Recording where
  output : Path
  bytes : List UInt8
  layout : Layout
deriving DecidableEq, Repr

structure Machine (Hash : Type) where
  disk : Disk
  cache : CacheStore Hash
  recordings : List Recording

def Machine.empty (Hash : Type) : Machine Hash :=
  ⟨Disk.empty, CacheStore.empty Hash, []⟩

def Machine.lastRecording (machine : Machine Hash) (output : Path) :
    Option Recording :=
  machine.recordings.find? fun recording => recording.output == output

/-! ## Recording a link -/

/-- The arguments of `record_link_with_sections` but the layout blob, and the
layout the output was emitted from. -/
structure RecordRequest (Hash : Type) where
  output : Path
  inputs : List Path
  argsHash : UInt64
  sections : List SectionRecord
  symbols : List CachedSymbolEntry
  frontEnd : Option (FrontEndSnapshot Hash)
  layout : Layout

def statInputs (disk : Disk) (inputs : List Path) :
    Option (List (Path × FastFingerprint)) :=
  inputs.mapM fun path => (disk.stat path).map fun fast => (path, fast)

theorem mem_statInputs {disk : Disk} {inputs : List Path}
    {fastInputs : List (Path × FastFingerprint)}
    (made : statInputs disk inputs = some fastInputs)
    {entry : Path × FastFingerprint} (member : entry ∈ fastInputs) :
    entry.1 ∈ inputs ∧ disk.stat entry.1 = some entry.2 := by
  induction inputs generalizing fastInputs with
  | nil =>
      cases made
      cases member
  | cons path rest induction =>
      simp only [statInputs, List.mapM_cons, Option.bind_eq_bind,
        Option.bind_eq_some_iff, Option.map_eq_some_iff, Option.pure_def,
        Option.some.injEq] at made
      rcases made with ⟨_, ⟨fast, stat, rfl⟩, later, laterMade, rfl⟩
      rcases List.mem_cons.mp member with rfl | laterMember
      · exact ⟨List.mem_cons_self, stat⟩
      · rcases induction laterMade laterMember with ⟨isInput, found⟩
        exact ⟨List.mem_cons_of_mem _ isInput, found⟩

theorem paths_of_statInputs {disk : Disk} {inputs : List Path}
    {fastInputs : List (Path × FastFingerprint)}
    (made : statInputs disk inputs = some fastInputs) :
    fastInputs.map Prod.fst = inputs := by
  induction inputs generalizing fastInputs with
  | nil =>
      cases made
      rfl
  | cons path rest induction =>
      simp only [statInputs, List.mapM_cons, Option.bind_eq_bind,
        Option.bind_eq_some_iff, Option.map_eq_some_iff, Option.pure_def,
        Option.some.injEq] at made
      rcases made with ⟨_, ⟨fast, _, rfl⟩, later, laterMade, rfl⟩
      rw [List.map_cons, induction laterMade]

/-- The content fingerprint recorded earlier for an input whose stat fingerprint
is the recorded one. A path listed twice counts with its last entry. -/
def reusedFingerprint (prior : Option (Manifest Hash)) (path : Path)
    (fast : FastFingerprint) : Option Fingerprint := do
  let manifest ← prior
  let oldFast ← manifest.fastInputs.reverse.lookup path
  let oldContent ← manifest.inputs.reverse.lookup path
  if oldFast = fast then some oldContent else none

def contentFingerprints (disk : Disk) (prior : Option (Manifest Hash))
    (fastInputs : List (Path × FastFingerprint)) :
    Option (List (Path × Fingerprint)) :=
  fastInputs.mapM fun input =>
    match reusedFingerprint prior input.1 input.2 with
    | some fingerprint => some (input.1, fingerprint)
    | none =>
        (disk.contents input.1).map fun bytes =>
          (input.1, Fingerprint.ofBytes bytes)

/-- Contents are hashed only when there are sections to color. -/
def recordedContents (disk : Disk) (cache : CacheStore Hash)
    (request : RecordRequest Hash)
    (fastInputs : List (Path × FastFingerprint)) :
    Option (List (Path × Fingerprint)) :=
  if request.sections.isEmpty then some []
  else contentFingerprints disk (cache.manifest (cacheDir request.output))
    fastInputs

/-- The manifest of a finished link; `none` when a file it describes is
missing. -/
def makeManifest (disk : Disk) (cache : CacheStore Hash)
    (request : RecordRequest Hash) : Option (Manifest Hash) := do
  let fastInputs ← statInputs disk request.inputs
  let inputFps ← recordedContents disk cache request fastInputs
  let fastOutput ← disk.stat request.output
  return {
    version := cacheVersion
    argsHash := request.argsHash
    epochKey := computeEpochKey disk request.inputs request.argsHash
    inputs := inputFps
    fastInputs := fastInputs
    output := Fingerprint.default
    fastOutput := fastOutput
    sections := request.sections
    symbols := request.symbols
    frontEnd := request.frontEnd }

/-! ## Steps -/

inductive Action (Hash : Type) where
  /-- Create the output or cut it to no bytes. -/
  | truncate (output : Path)
  | setLen (output : Path) (size : Nat)
  /-- One write through the map of the output. -/
  | patch (output : Path) (written : Buffer.Patch UInt8)
  | writeLayoutBlob (output : Path) (blob : List UInt8)
  | writeManifest (request : RecordRequest Hash)

/-- The content of a file after `set_len`. -/
def resized (bytes : List UInt8) (size : Nat) : List UInt8 :=
  bytes.take size ++ List.replicate (size - bytes.length) 0

def Machine.storeBlob (machine : Machine Hash) (output : Path)
    (blob : List UInt8) : Machine Hash :=
  { machine with
    disk := machine.disk.tick
    cache := { machine.cache with
      layoutBlob := Function.update machine.cache.layoutBlob (cacheDir output)
        (some ⟨blob, FastFingerprint.at machine.disk.clock blob⟩) } }

def Machine.committed (machine : Machine Hash) (request : RecordRequest Hash)
    (manifest : Manifest Hash) (bytes : List UInt8) : Machine Hash :=
  { machine with
    cache := { machine.cache with
      manifest := Function.update machine.cache.manifest
        (cacheDir request.output) (some manifest) }
    recordings :=
      ⟨request.output, bytes, request.layout⟩ :: machine.recordings }

@[simp] theorem disk_committed (machine : Machine Hash)
    (request : RecordRequest Hash) (manifest : Manifest Hash)
    (bytes : List UInt8) :
    (machine.committed request manifest bytes).disk = machine.disk := rfl

@[simp] theorem manifest_committed_self (machine : Machine Hash)
    (request : RecordRequest Hash) (manifest : Manifest Hash)
    (bytes : List UInt8) :
    (machine.committed request manifest bytes).cache.manifest
      (cacheDir request.output) = some manifest :=
  Function.update_self ..

theorem manifest_committed_of_ne (machine : Machine Hash)
    {request : RecordRequest Hash} {dir : Path} (manifest : Manifest Hash)
    (bytes : List UInt8) (different : dir ≠ cacheDir request.output) :
    (machine.committed request manifest bytes).cache.manifest dir =
      machine.cache.manifest dir :=
  Function.update_of_ne different ..

@[simp] theorem lastRecording_committed_self (machine : Machine Hash)
    (request : RecordRequest Hash) (manifest : Manifest Hash)
    (bytes : List UInt8) :
    (machine.committed request manifest bytes).lastRecording request.output =
      some ⟨request.output, bytes, request.layout⟩ := by
  simp [Machine.committed, Machine.lastRecording]

theorem lastRecording_committed_of_ne (machine : Machine Hash)
    {request : RecordRequest Hash} {output : Path} (manifest : Manifest Hash)
    (bytes : List UInt8) (different : request.output ≠ output) :
    (machine.committed request manifest bytes).lastRecording output =
      machine.lastRecording output := by
  simp [Machine.committed, Machine.lastRecording, different]

/-- One step; `none` when the operating system refuses it. Both cache files are
written beside their place and renamed, so each is replaced as a whole. -/
def Action.apply (machine : Machine Hash) :
    Action Hash → Option (Machine Hash)
  | .truncate output =>
      some { machine with disk := machine.disk.write output [] }
  | .setLen output size =>
      (machine.disk.contents output).map fun bytes =>
        { machine with disk := machine.disk.write output (resized bytes size) }
  | .patch output written =>
      (machine.disk.contents output).map fun bytes =>
        { machine with
          disk := machine.disk.write output (Buffer.overwrite bytes written) }
  | .writeLayoutBlob output blob =>
      some (machine.storeBlob output blob)
  | .writeManifest request => do
      let manifest ← makeManifest machine.disk machine.cache request
      let bytes ← machine.disk.contents request.output
      return machine.committed request manifest bytes

/-- The steps of a process up to the first that is refused. -/
def perform (machine : Machine Hash) : List (Action Hash) → Machine Hash
  | [] => machine
  | action :: rest =>
      match action.apply machine with
      | some next => perform next rest
      | none => machine

/-- The layout blob, when there is one, is written before the manifest that
names its hash. -/
def recordLinkWithSections (request : RecordRequest Hash)
    (layoutBlob : Option (List UInt8)) : List (Action Hash) :=
  (layoutBlob.map (Action.writeLayoutBlob request.output)).toList ++
    [.writeManifest request]

theorem perform_invariant {holds : Machine Hash → Prop}
    {allowed : Action Hash → Prop}
    (preserved : ∀ machine action next, holds machine → allowed action →
      action.apply machine = some next → holds next)
    {machine : Machine Hash} {actions : List (Action Hash)}
    (start : holds machine) (all : ∀ action ∈ actions, allowed action) :
    holds (perform machine actions) := by
  induction actions generalizing machine with
  | nil => exact start
  | cons action rest induction =>
      rw [perform]
      rcases applied : action.apply machine with - | next
      · exact start
      · apply induction
        · exact preserved machine action next start
            (all action List.mem_cons_self) applied
        · intro later member
          exact all later (List.mem_cons_of_mem action member)

theorem makeManifest_spec {disk : Disk} {cache : CacheStore Hash}
    {request : RecordRequest Hash} {manifest : Manifest Hash}
    (made : makeManifest disk cache request = some manifest) :
    disk.stat request.output = some manifest.fastOutput ∧
      statInputs disk request.inputs = some manifest.fastInputs ∧
      manifest.version = cacheVersion ∧
      manifest.argsHash = request.argsHash ∧
      manifest.epochKey =
        computeEpochKey disk request.inputs request.argsHash ∧
      manifest.sections = request.sections ∧
      manifest.symbols = request.symbols ∧
      manifest.frontEnd = request.frontEnd := by
  simp only [makeManifest, Option.bind_eq_bind, Option.bind_eq_some_iff,
    Option.pure_def, Option.some.injEq] at made
  rcases made with ⟨fastInputs, inputsSeen, _, _, fastOutput, outputSeen, rfl⟩
  exact ⟨outputSeen, inputsSeen, rfl, rfl, rfl, rfl, rfl, rfl⟩

def Machine.storeBlob? (machine : Machine Hash) (output : Path) :
    Option (List UInt8) → Machine Hash
  | some blob => machine.storeBlob output blob
  | none => machine

theorem perform_recordLinkWithSections (machine : Machine Hash)
    (request : RecordRequest Hash) (layoutBlob : Option (List UInt8)) :
    perform machine (recordLinkWithSections request layoutBlob) =
      ((Action.writeManifest request).apply
        (machine.storeBlob? request.output layoutBlob)).getD
          (machine.storeBlob? request.output layoutBlob) := by
  have last : ∀ current : Machine Hash,
      perform current [.writeManifest request] =
        ((Action.writeManifest request).apply current).getD current := by
    intro current
    rw [perform]
    rcases (Action.writeManifest request).apply current with - | next
    · rfl
    · rfl
  cases layoutBlob with
  | none => exact last machine
  | some blob => exact last (machine.storeBlob request.output blob)

theorem apply_writeManifest {machine next : Machine Hash}
    {request : RecordRequest Hash}
    (applied : (Action.writeManifest request).apply machine = some next) :
    ∃ manifest bytes,
      makeManifest machine.disk machine.cache request = some manifest ∧
      machine.disk.contents request.output = some bytes ∧
      next = machine.committed request manifest bytes := by
  simp only [Action.apply, Option.bind_eq_bind, Option.bind_eq_some_iff,
    Option.pure_def, Option.some.injEq] at applied
  rcases applied with ⟨manifest, made, bytes, content, rfl⟩
  exact ⟨manifest, bytes, made, content, rfl⟩

/-- What a recording does to the files and to the manifest of its output: the
files stay, and a manifest that is new describes them. -/
structure RecordEffect (before after : Machine Hash)
    (request : RecordRequest Hash) : Prop where
  later : Disk.Later before.disk after.disk
  manifest : ∀ manifest,
    after.cache.manifest (cacheDir request.output) = some manifest →
    before.cache.manifest (cacheDir request.output) = some manifest ∨
      (after.disk.stat request.output = some manifest.fastOutput ∧
        statInputs after.disk request.inputs = some manifest.fastInputs)

theorem recordEffect (machine : Machine Hash) (request : RecordRequest Hash)
    (layoutBlob : Option (List UInt8)) :
    RecordEffect machine
      (perform machine (recordLinkWithSections request layoutBlob)) request := by
  have stored : Disk.Later machine.disk
        (machine.storeBlob? request.output layoutBlob).disk ∧
      (machine.storeBlob? request.output layoutBlob).cache.manifest =
        machine.cache.manifest := by
    cases layoutBlob with
    | none => exact ⟨Disk.Later.refl _, rfl⟩
    | some blob => exact ⟨Disk.later_tick _, rfl⟩
  rw [perform_recordLinkWithSections]
  generalize machine.storeBlob? request.output layoutBlob = current at stored
  rcases applied : (Action.writeManifest request).apply current with - | next
  · refine ⟨stored.1, ?_⟩
    intro manifest found
    rw [Option.getD_none, stored.2] at found
    exact Or.inl found
  · rcases apply_writeManifest applied with ⟨made, bytes, makes, _, rfl⟩
    refine ⟨stored.1, ?_⟩
    intro manifest found
    rw [Option.getD_some, manifest_committed_self] at found
    cases found
    rcases makeManifest_spec makes with ⟨output, inputs, _⟩
    exact Or.inr ⟨output, inputs⟩

end Peony
