import Peony.Cache.Completed
import Peony.Driver.TableRun
import Peony.Foundation.GuardedRun

namespace Peony

/-! An interrupted or failed link is never trusted: what the gates accept is the
output of the last recording that was completed, whatever was killed since. -/

variable {Hash : Type}

/-! ## Runs -/

inductive Event (Hash : Type) where
  /-- An invocation that ends, fails or is killed after so many steps. -/
  | link (invocation : Invocation Hash) (steps : Nat)
  /-- Another program writes or removes a file between two invocations. -/
  | write (path : Path) (bytes : List UInt8)
  | remove (path : Path)

def step [DecidableEq Hash] (backend : Backend Hash) (machine : Machine Hash) :
    Event Hash → Option (Machine Hash)
  | .link invocation steps =>
      some (perform machine
        ((invocation.steps backend machine.disk machine.cache).take steps))
  | .write path bytes =>
      some { machine with disk := machine.disk.write path bytes }
  | .remove path => some { machine with disk := machine.disk.remove path }

/-! ## A layout that is taken over -/

def Layout.HoldsResolvers (layout : Layout) (symbols : SymbolTable) : Prop :=
  ∀ patch ∈ layout.ifuncPltPatches, patch.1 + 8 ≤ layout.dynBlobs.relaPlt.length →
    (layout.dynBlobs.relaPlt.drop patch.1).take 8 =
      toAddend (resolverAddress symbols patch.2)

instance (layout : Layout) (symbols : SymbolTable) :
    Decidable (layout.HoldsResolvers symbols) :=
  inferInstanceAs (Decidable (∀ patch ∈ layout.ifuncPltPatches, _ → _))

theorem length_toAddend (address : UInt64) : (toAddend address).length = 8 := by
  rw [toAddend, List.length_map, List.length_range]

theorem Layout.HoldsResolvers.patched {layout : Layout} {symbols : SymbolTable}
    (holds : layout.HoldsResolvers symbols) :
    patchIfuncPltRelocs layout symbols = layout := by
  have kept : Buffer.applyAll layout.dynBlobs.relaPlt
      (layout.ifuncPltPatches.filterMap
        (addendPatch symbols layout.dynBlobs.relaPlt.length)) =
      layout.dynBlobs.relaPlt := by
    apply Buffer.applyAll_eq_self
    intro write member
    rcases List.mem_filterMap.mp member with ⟨patch, isPatch, made⟩
    rw [addendPatch] at made
    split at made
    case isFalse => cases made
    case isTrue inside =>
      cases made
      rw [length_toAddend]
      exact holds patch isPatch inside
  rw [patchIfuncPltRelocs, kept]

def KeepsResolvers [DecidableEq Hash] (backend : Backend Hash) (machine : Machine Hash) :
    Event Hash → Prop
  | .link invocation _ =>
      match invocation.tryReuseLayout backend machine.disk machine.cache,
        invocation.link.defined with
      | some (cached, _), some table =>
          cached.layout.HoldsResolvers (invocation.link.finalized table cached.layout)
      | _, _ => True
  | _ => True

instance [DecidableEq Hash] (backend : Backend Hash) (machine : Machine Hash)
    (event : Event Hash) : Decidable (KeepsResolvers backend machine event) :=
  match event with
  | .link invocation _ =>
      match reused : invocation.tryReuseLayout backend machine.disk machine.cache,
        found : invocation.link.defined with
      | some (cached, _), some table =>
          decidable_of_iff
            (cached.layout.HoldsResolvers
              (invocation.link.finalized table cached.layout))
            (by simp [KeepsResolvers, reused, found])
      | some _, none => isTrue (by simp [KeepsResolvers, reused, found])
      | none, _ => isTrue (by simp [KeepsResolvers, reused])
  | .write _ _ => isTrue trivial
  | .remove _ => isTrue trivial

/-! ## The invariant -/

/-- A manifest whose output fingerprint is that of a file belongs to the last
recording for that file, and its snapshot describes the layout of the recording. -/
structure Trusted (describes : FrontEndSnapshot Hash → Layout → Prop)
    (machine : Machine Hash) : Prop where
  stamped : machine.disk.Stamped
  past : ∀ dir manifest, machine.cache.manifest dir = some manifest →
    manifest.fastOutput.mtimeSec ≤ machine.disk.clock
  recorded : ∀ dir manifest output file,
    machine.cache.manifest dir = some manifest →
    machine.disk.file output = some file →
    file.fast = manifest.fastOutput →
    cacheDir output = dir ∧
      ∃ recording, machine.lastRecording output = some recording ∧
        recording.bytes = file.bytes ∧
        ∀ snapshot, manifest.frontEnd = some snapshot →
          describes snapshot recording.layout

variable {describes : FrontEndSnapshot Hash → Layout → Prop}

theorem trusted_empty : Trusted describes (Machine.empty Hash) where
  stamped := Disk.stamped_empty
  past := by
    intro dir manifest found
    cases found
  recorded := by
    intro dir manifest output file found
    cases found

/-! ## One step of a process -/

/-- A recording may only name a snapshot that describes the layout the output was
emitted from. -/
def Action.Sound (describes : FrontEndSnapshot Hash → Layout → Prop) :
    Action Hash → Prop
  | .writeManifest request =>
      ∀ snapshot, request.frontEnd = some snapshot → describes snapshot request.layout
  | _ => True

theorem Trusted.write {machine : Machine Hash} (trusted : Trusted describes machine)
    (path : Path) (bytes : List UInt8) :
    Trusted describes { machine with disk := machine.disk.write path bytes } where
  stamped := trusted.stamped.write path bytes
  past := by
    intro dir manifest found
    have old := trusted.past dir manifest found
    rw [Disk.clock_write]
    omega
  recorded := by
    intro dir manifest output file found present same
    by_cases written : output = path
    · -- The write left a fingerprint that no manifest has.
      subst written
      exact absurd same
        (Disk.fast_write_ne (trusted.past dir manifest found) present)
    · rw [Disk.file_write_of_ne machine.disk bytes written] at present
      exact trusted.recorded dir manifest output file found present same

theorem Trusted.remove {machine : Machine Hash}
    (trusted : Trusted describes machine) (path : Path) :
    Trusted describes { machine with disk := machine.disk.remove path } where
  stamped := trusted.stamped.remove path
  past := trusted.past
  recorded := by
    intro dir manifest output file found present same
    by_cases removed : output = path
    · subst removed
      rw [Disk.file_remove_self] at present
      cases present
    · rw [Disk.file_remove_of_ne machine.disk removed] at present
      exact trusted.recorded dir manifest output file found present same

theorem Trusted.writeManifest {machine next : Machine Hash}
    {request : RecordRequest Hash} (trusted : Trusted describes machine)
    (sound : (Action.writeManifest request).Sound describes)
    (applied : (Action.writeManifest request).apply machine = some next) :
    Trusted describes next := by
  rcases apply_writeManifest applied with ⟨manifest, bytes, made, content, rfl⟩
  rcases makeManifest_spec made with ⟨seen, _, _, _, _, _, _, frontEnd⟩
  rcases Option.map_eq_some_iff.mp seen with ⟨written, present, fast⟩
  have bytesSame : written.bytes = bytes := by
    simpa [Disk.contents, present] using content
  constructor
  · exact trusted.stamped
  · intro dir other found
    by_cases here : dir = cacheDir request.output
    · rw [here, manifest_committed_self] at found
      cases found
      have old := trusted.stamped.past request.output written present
      rwa [fast] at old
    · rw [manifest_committed_of_ne machine manifest bytes here] at found
      exact trusted.past dir other found
  · intro dir other output file found outputPresent same
    by_cases here : dir = cacheDir request.output
    · rw [here, manifest_committed_self] at found
      cases found
      -- Only the file whose fingerprint was recorded has it.
      have output_eq : output = request.output :=
        trusted.stamped.apart output request.output file written outputPresent
          present (same.trans fast.symm)
      subst output_eq
      have file_eq : written = file :=
        Option.some.inj (present.symm.trans outputPresent)
      subst file_eq
      refine ⟨here.symm, _, lastRecording_committed_self .., bytesSame.symm, ?_⟩
      intro snapshot named
      rw [frontEnd] at named
      exact sound snapshot named
    · rw [manifest_committed_of_ne machine manifest bytes here] at found
      rcases trusted.recorded dir other output file found outputPresent same
        with ⟨dirSame, recording, last, bytesRecorded, describes⟩
      have different : request.output ≠ output := by
        intro equal
        rw [equal] at here
        exact here dirSame.symm
      refine ⟨dirSame, recording, ?_, bytesRecorded, describes⟩
      rw [lastRecording_committed_of_ne machine manifest bytes different]
      exact last

theorem Trusted.apply {machine next : Machine Hash} {action : Action Hash}
    (trusted : Trusted describes machine) (sound : action.Sound describes)
    (applied : action.apply machine = some next) : Trusted describes next := by
  cases action with
  | truncate output =>
      cases applied
      exact trusted.write output []
  | setLen output size =>
      rcases Option.map_eq_some_iff.mp applied with ⟨bytes, _, rfl⟩
      exact trusted.write output (resized bytes size)
  | patch output written =>
      rcases Option.map_eq_some_iff.mp applied with ⟨bytes, _, rfl⟩
      exact trusted.write output (Buffer.overwrite bytes written)
  | writeLayoutBlob output blob =>
      cases applied
      refine ⟨trusted.stamped.later (Disk.later_tick _), ?_, trusted.recorded⟩
      intro dir manifest found
      have old := trusted.past dir manifest found
      simp only [Machine.storeBlob, Disk.tick]
      omega
  | writeManifest request => exact trusted.writeManifest sound applied

/-! ## What the gates accept -/

def Gated [DecidableEq Hash] (machine : Machine Hash) (output : Path)
    (inputs : List Path) (argsHash : UInt64) : Prop :=
  tryReuse machine.disk machine.cache output inputs argsHash = true ∨
    (loadChangedState machine.disk machine.cache output inputs argsHash).isSome = true

def BytesOfLast (machine : Machine Hash) (output : Path) : Prop :=
  ∃ recording, machine.lastRecording output = some recording ∧
    machine.disk.contents output = some recording.bytes

/-- A blob with the recorded hash is the layout that the last completed recording was
emitted from. -/
def LayoutOfLast (backend : Backend Hash) (machine : Machine Hash) (output : Path) :
    Prop :=
  ∀ manifest snapshot blob layout,
    machine.cache.manifest (cacheDir output) = some manifest →
    manifest.frontEnd = some snapshot →
    readLayoutBlob machine.cache output = some blob →
    backend.blobHash blob = snapshot.blobHash →
    backend.deserializeLayout blob = some layout →
    ∃ recording, machine.lastRecording output = some recording ∧
      layout = recording.layout

theorem accepted_of_gated [DecidableEq Hash] {machine : Machine Hash} {output : Path}
    {inputs : List Path} {argsHash : UInt64}
    (gated : Gated machine output inputs argsHash) :
    ∃ manifest, Accepted machine.disk machine.cache output argsHash manifest := by
  rcases gated with reused | loaded
  · rcases accepted_of_tryReuse reused with ⟨manifest, accepted, _⟩
    exact ⟨manifest, accepted⟩
  · rcases Option.isSome_iff_exists.mp loaded with ⟨state, found⟩
    rcases accepted_of_loadChangedState found with ⟨manifest, accepted, _⟩
    exact ⟨manifest, accepted⟩

theorem Trusted.of_accepted {machine : Machine Hash} {output : Path}
    {argsHash : UInt64} {manifest : Manifest Hash}
    (trusted : Trusted describes machine)
    (accepted : Accepted machine.disk machine.cache output argsHash manifest) :
    ∃ recording, machine.lastRecording output = some recording ∧
      machine.disk.contents output = some recording.bytes ∧
      ∀ snapshot, manifest.frontEnd = some snapshot →
        describes snapshot recording.layout := by
  rcases Option.map_eq_some_iff.mp accepted.unmodified with
    ⟨file, present, fast⟩
  rcases trusted.recorded (cacheDir output) manifest output file
    accepted.recorded present fast with ⟨_, recording, last, bytes, described⟩
  refine ⟨recording, last, ?_, described⟩
  rw [Disk.contents, present, Option.map_some, bytes]

/-! ## Writes of an emission -/

theorem sound_emitWithFilter {disk : Disk} {emission : Emission} {output : Path}
    {layout : Layout} {filter : SectionWriteFilter} {requireSize : Bool}
    {actions : List (Action Hash)}
    (emitted : emitWithFilter disk emission output layout filter requireSize =
      some actions) :
    ∀ action ∈ actions, action.Sound describes := by
  have patches : ∀ writes : List (Buffer.Patch UInt8),
      ∀ action ∈ writes.map (Action.patch output),
        (action : Action Hash).Sound describes := by
    intro writes action member
    rcases List.mem_map.mp member with ⟨written, _, rfl⟩
    trivial
  have recreated : ∀ opened : List UInt8,
      ∀ action ∈ emitWithFilter.recreate emission output layout filter opened,
        (action : Action Hash).Sound describes := by
    intro opened action member
    rcases List.mem_append.mp member with opening | writing
    · simp only [List.mem_cons, List.not_mem_nil, or_false] at opening
      rcases opening with rfl | rfl
      · trivial
      · trivial
    · exact patches _ action writing
  intro action member
  simp only [emitWithFilter] at emitted
  split at emitted
  · split at emitted
    · cases emitted
      exact patches _ action member
    · split at emitted
      · cases emitted
      · cases emitted
        exact recreated _ action member
  · split at emitted
    · cases emitted
    · cases emitted
      exact recreated _ action member

theorem sound_emitSteps [DecidableEq Hash] {disk : Disk} {cache : CacheStore Hash}
    {invocation : Invocation Hash}
    {reused : Option (Invocation.CachedFrontEnd Hash × List Nat)} {layout : Layout} :
    ∀ action ∈ invocation.emitSteps disk cache reused layout,
      action.Sound describes := by
  intro action member
  simp only [Invocation.emitSteps] at member
  rcases patched : Option.bind _ _ with - | actions
  all_goals rw [patched] at member
  · rcases full : emitWithFilter disk invocation.emission invocation.output layout .all
      false with - | actions
    · rw [full] at member
      cases member
    · rw [full] at member
      exact sound_emitWithFilter full action member
  · rcases Option.bind_eq_some_iff.mp patched with ⟨red, _, emitted⟩
    exact sound_emitWithFilter emitted action member

theorem sound_recordLinkWithSections {request : RecordRequest Hash}
    (described : ∀ snapshot, request.frontEnd = some snapshot →
      describes snapshot request.layout)
    (layoutBlob : Option (List UInt8)) :
    ∀ action ∈ recordLinkWithSections request layoutBlob,
      action.Sound describes := by
  intro action member
  rcases List.mem_append.mp member with blob | last
  · rcases layoutBlob with - | bytes
    · cases blob
    · rcases List.mem_singleton.mp blob with rfl
      trivial
  · rcases List.mem_singleton.mp last with rfl
    exact described

/-! ## The layout of a snapshot -/

def FrontEndSnapshot.Describes (backend : Backend Hash)
    (snapshot : FrontEndSnapshot Hash) (layout : Layout) : Prop :=
  ∀ blob found, backend.blobHash blob = snapshot.blobHash →
    backend.deserializeLayout blob = some found → found = layout

variable {backend : Backend Hash}

theorem Trusted.of_loadFrontEnd [DecidableEq Hash] {machine : Machine Hash}
    {invocation : Invocation Hash} {cached : Invocation.CachedFrontEnd Hash}
    (trusted : Trusted (FrontEndSnapshot.Describes backend) machine)
    (loaded : invocation.loadFrontEnd backend machine.disk machine.cache =
      some cached) :
    cached.snapshot.Describes backend cached.layout := by
  simp only [Invocation.loadFrontEnd, Option.bind_eq_bind,
    Option.bind_eq_some_iff, Option.pure_def, Option.some.injEq] at loaded
  rcases loaded with ⟨state, changedState, snapshot, named, layout, read, rfl⟩
  rcases accepted_of_loadChangedState changedState with
    ⟨manifest, accepted, _, _, _, _, frontEnd⟩
  rcases trusted.of_accepted accepted with ⟨recording, _, _, described⟩
  rw [frontEnd] at named
  have describes := described snapshot named
  simp only [cachedLayout, Option.bind_eq_bind, Option.bind_eq_some_iff] at read
  rcases read with ⟨blob, _, decoded⟩
  split at decoded
  case isFalse => cases decoded
  case isTrue hashed =>
    have layout_eq : layout = recording.layout :=
      describes blob layout hashed decoded
    rw [layout_eq]
    exact describes

theorem loadFrontEnd_of_tryReuseLayout [DecidableEq Hash] {disk : Disk}
    {cache : CacheStore Hash} {invocation : Invocation Hash}
    {cached : Invocation.CachedFrontEnd Hash} {changed : List Nat}
    (reused : invocation.tryReuseLayout backend disk cache = some (cached, changed)) :
    invocation.loadFrontEnd backend disk cache = some cached := by
  simp only [Invocation.tryReuseLayout, Option.bind_eq_bind, Option.bind_eq_some_iff,
    Option.pure_def, Option.some.injEq, Prod.mk.injEq] at reused
  rcases reused with ⟨_, _, table, _, found, loaded, _, _, ids, _, _, _, rfl, _⟩
  exact loaded

theorem layout_of_reuse [DecidableEq Hash] {machine : Machine Hash}
    {invocation : Invocation Hash} {steps : Nat}
    {cached : Invocation.CachedFrontEnd Hash} {changed : List Nat} {linked : Linked}
    (keeps : KeepsResolvers backend machine (.link invocation steps))
    (reused : invocation.tryReuseLayout backend machine.disk machine.cache =
      some (cached, changed))
    (isLinked : invocation.link.reuse cached.layout = .ok linked) :
    linked.layout = cached.layout := by
  rw [Link.reuse] at isLinked
  split at isLinked
  · cases isLinked
  · rename_i table isTable
    have holds : cached.layout.HoldsResolvers
        (invocation.link.finalized table cached.layout) := by
      simpa only [KeepsResolvers, reused, isTable] using keeps
    rw [invocation.link.eq_of_checked isLinked]
    exact holds.patched

theorem describes_fresh {snapshot : FrontEndSnapshot Hash} {layout : Layout}
    (hashed : snapshot.blobHash = backend.blobHash (backend.serializeLayout layout)) :
    snapshot.Describes backend layout := by
  intro blob found same decoded
  rw [hashed] at same
  rw [backend.blobHash_injective same] at decoded
  exact backend.decoded layout found decoded

theorem Trusted.describes_emitted [DecidableEq Hash] {machine : Machine Hash}
    (trusted : Trusted (FrontEndSnapshot.Describes backend) machine)
    {invocation : Invocation Hash} {steps : Nat}
    (keeps : KeepsResolvers backend machine (.link invocation steps))
    {reused : Option (Invocation.CachedFrontEnd Hash × List Nat)} {linked : Linked}
    (reuse : invocation.tryReuseLayout backend machine.disk machine.cache = reused)
    (isLinked : invocation.linked reused = .ok linked) :
    ∀ snapshot, (invocation.buildFrontEndSnapshot backend reused linked).1 =
        some snapshot → snapshot.Describes backend linked.layout := by
  intro snapshot built
  simp only [Invocation.buildFrontEndSnapshot] at built
  split at built
  case isFalse => cases built
  case isTrue =>
    rcases reused with - | ⟨cached, changed⟩
    · cases built
      exact describes_fresh rfl
    · cases built
      rw [layout_of_reuse keeps reuse isLinked]
      exact trusted.of_loadFrontEnd (loadFrontEnd_of_tryReuseLayout reuse)

/-! ## One invocation -/

theorem Trusted.sound_tryParseOnlyChanged [DecidableEq Hash] {machine : Machine Hash}
    (trusted : Trusted (FrontEndSnapshot.Describes backend) machine)
    {invocation : Invocation Hash} {actions : List (Action Hash)}
    (taken : invocation.tryParseOnlyChanged backend machine.disk
      machine.cache = some actions) :
    ∀ action ∈ actions, action.Sound (FrontEndSnapshot.Describes backend) := by
  simp only [Invocation.tryParseOnlyChanged, Option.bind_eq_bind,
    Option.bind_eq_some_iff] at taken
  rcases taken with ⟨cached, loaded, changed, _, continued⟩
  split at continued
  case isTrue => cases continued
  case isFalse =>
    simp only [Option.bind_eq_some_iff, Option.pure_def,
      Option.some.injEq] at continued
    rcases continued with ⟨writes, emitted, rfl⟩
    intro action member
    rcases List.mem_append.mp member with writing | recording
    · exact sound_emitWithFilter emitted action writing
    · apply sound_recordLinkWithSections _ _ action recording
      intro snapshot named
      cases named
      exact trusted.of_loadFrontEnd loaded

theorem Trusted.sound_fullPipeline [DecidableEq Hash] {machine : Machine Hash}
    (trusted : Trusted (FrontEndSnapshot.Describes backend) machine)
    {invocation : Invocation Hash} {steps : Nat}
    (keeps : KeepsResolvers backend machine (.link invocation steps)) :
    ∀ action ∈ invocation.fullPipeline backend machine.disk machine.cache,
      action.Sound (FrontEndSnapshot.Describes backend) := by
  intro action member
  rw [Invocation.fullPipeline] at member
  split at member
  case h_1 => cases member
  case h_2 linked isLinked =>
    rcases List.mem_append.mp member with writing | recording
    · exact sound_emitSteps action writing
    · split at recording
      case isFalse => cases recording
      case isTrue =>
        apply sound_recordLinkWithSections _ _ action recording
        exact trusted.describes_emitted keeps rfl isLinked

theorem Trusted.sound_steps [DecidableEq Hash] {machine : Machine Hash}
    (trusted : Trusted (FrontEndSnapshot.Describes backend) machine)
    {invocation : Invocation Hash} {steps : Nat}
    (keeps : KeepsResolvers backend machine (.link invocation steps)) :
    ∀ action ∈ invocation.steps backend machine.disk machine.cache,
      action.Sound (FrontEndSnapshot.Describes backend) := by
  intro action member
  simp only [Invocation.steps] at member
  split at member
  · cases member
  · split at member
    · rcases fast : invocation.tryParseOnlyChanged backend machine.disk
        machine.cache with - | actions
      · rw [fast] at member
        exact trusted.sound_fullPipeline keeps action member
      · rw [fast] at member
        exact trusted.sound_tryParseOnlyChanged fast action member
    · exact trusted.sound_fullPipeline keeps action member

/-! ## Runs -/

theorem Trusted.step [DecidableEq Hash] {machine next : Machine Hash}
    {event : Event Hash} (trusted : Trusted describes machine)
    (sound : ∀ invocation steps, event = .link invocation steps →
      ∀ action ∈ invocation.steps backend machine.disk machine.cache,
        action.Sound describes)
    (taken : step backend machine event = some next) : Trusted describes next := by
  cases event with
  | link invocation steps =>
      cases taken
      apply perform_invariant _ trusted
      · intro action member
        exact sound invocation steps rfl action (List.mem_of_mem_take member)
      · intro machine action next trusted sound applied
        exact trusted.apply sound applied
  | write path bytes =>
      cases taken
      exact trusted.write path bytes
  | remove path =>
      cases taken
      exact trusted.remove path

/-- Whatever the recordings hold. -/
theorem trusted_of_run [DecidableEq Hash] {machine : Machine Hash}
    {events : List (Event Hash)}
    (reached : GuardedRun.run (Peony.step backend) (Machine.empty Hash) events =
      some machine) :
    Trusted (fun _ _ => True) machine := by
  apply GuardedRun.invariant _ trusted_empty (GuardedRun.meets_true _ events) reached
  intro state event next trusted _ taken
  apply trusted.step _ taken
  intro invocation steps _ action _
  cases action with
  | writeManifest request =>
      intro snapshot _
      trivial
  | _ => trivial

theorem describes_of_run [DecidableEq Hash] {machine : Machine Hash}
    {events : List (Event Hash)}
    (keeps : GuardedRun.Meets (Peony.step backend) (KeepsResolvers backend)
      (Machine.empty Hash) events)
    (reached : GuardedRun.run (Peony.step backend) (Machine.empty Hash) events =
      some machine) :
    Trusted (FrontEndSnapshot.Describes backend) machine := by
  apply GuardedRun.invariant _ trusted_empty keeps reached
  intro state event next trusted kept taken
  apply trusted.step _ taken
  intro invocation steps same
  rw [same] at kept
  exact trusted.sound_steps kept

/-- Whatever was run, failed or was killed before: an output that a gate accepts has the
bytes of the last recording completed for it. Where no link that took a cached layout
over found a resolver elsewhere, a blob with the recorded hash is the layout they were
emitted from. -/
theorem accepted_is_last_recording [DecidableEq Hash] {machine : Machine Hash}
    {events : List (Event Hash)}
    (reached : GuardedRun.run (Peony.step backend) (Machine.empty Hash) events =
      some machine) {output : Path} {inputs : List Path} {argsHash : UInt64}
    (gated : Gated machine output inputs argsHash) :
    BytesOfLast machine output ∧
      (GuardedRun.Meets (Peony.step backend) (KeepsResolvers backend)
        (Machine.empty Hash) events → LayoutOfLast backend machine output) := by
  rcases accepted_of_gated gated with ⟨manifest, accepted⟩
  constructor
  · rcases (trusted_of_run reached).of_accepted accepted with ⟨recording, last, bytes, _⟩
    exact ⟨recording, last, bytes⟩
  · intro keeps other snapshot blob layout found named _ hashed decoded
    cases accepted.recorded.symm.trans found
    rcases (describes_of_run keeps reached).of_accepted accepted with
      ⟨recording, last, _, described⟩
    exact ⟨recording, last, described snapshot named blob layout hashed decoded⟩

/-! ### A resolver that a cached layout has elsewhere

An object calls its IFUNC `f` through the PLT and is linked a second time with `f=4096`
read as a definition, not as a library path. The cache takes `--cache-report`, the
output, for an option that has a value, and hashes neither. A section `.interp` of the
object shares its name with another, so that no patch is planned. -/

private def ifuncText : InputSection where
  index := 1
  name := nameOf ".text"
  kind := .text
  shType := 1
  data := ⟨.owned 0, 0, 7⟩
  align := 16
  size := 7
  flags := 6
  relocs := [⟨1, 4, 2, -4⟩]

private def ifuncData : InputSection where
  index := 2
  name := nameOf ".data"
  kind := .data
  shType := 1
  data := ⟨.owned 1, 0, 16⟩
  align := 8
  size := 16
  flags := 3
  relocs := [⟨0, 1, 1, 0⟩]

private def ifuncInterp : InputSection where
  index := 3
  name := nameOf ".interp"
  kind := .readOnly
  shType := 1
  data := ⟨.owned 2, 0, 8⟩
  align := 1
  size := 8
  flags := 2
  relocs := []

private def ifuncObject : InputObject :=
  InputObject.assemble "a.o" 3 2 [ifuncText, ifuncData, ifuncInterp]
    [⟨1, nameOf "_start", .global, false, false, false, 2, 0, some 1, 0, 6⟩,
      ⟨2, nameOf "f", .global, false, false, true, 10, 0, some 1, 6, 1⟩] []

private theorem ifuncObject_parsed : ifuncObject.Parsed :=
  InputObject.assemble_parsed _ _ _ _ _ _ (by decide) (by decide) (by decide) (by decide)

def ifuncArgs (redefined : Bool) : List Text :=
  ["--no-crt", "-pie", "-o", "--cache-report", if redefined then "--defsym" else "-L",
    "f=4096", "a.o"].map ascii

def ifuncLink (redefined : Bool) (stored : UInt8) : Link where
  args :=
    match parseExpandedArgs Disk.empty (ifuncArgs redefined) with
    | .ok args => args
    | .error _ => {}
  baseAddress := 0
  arena :=
    { mmaps := []
      owned := [[0xe8, 0, 0, 0, 0, 0xc3, 0xc3],
        List.replicate 8 0 ++ List.replicate 8 stored, List.replicate 8 0] }
  objects := [ifuncObject]
  symbols :=
    match (TableRun.mk [.addObject "a.o", .processObjectExcluding 0 ifuncObject []]
      [] [] []).imported with
    | .ok table => table
    | .error _ => SymbolTable.new

def ifuncInvocation (redefined : Bool) (stored : UInt8) : Invocation (List UInt8) where
  link := ifuncLink redefined stored
  inputs := [nameOf "a.o"]
  parsesUnchanged := fun _ _ _ => false
  planPartialRelink := fun _ _ _ => none
  emission :=
    { headers := fun _ => []
      sectionData := fun _ layout =>
        (layout.outputSections.filter fun s => s.source == .relaPlt).map fun s =>
          ⟨s.shOffset.toNat, layout.dynBlobs.relaPlt⟩
      tlsGot := fun _ => []
      ehFrameHdr := fun _ _ _ => []
      sectionHeaders := fun _ => []
      buildId := fun _ _ _ => [] }

def ifuncLinked : Linked :=
  match (ifuncLink false 1).run with
  | .ok linked => linked
  | .error _ => ⟨SymbolTable.new, {}⟩

def ifuncBackend : Backend (List UInt8) := backendOf ifuncLinked.layout

def ifuncSnapshot : FrontEndSnapshot (List UInt8) :=
  let fingerprint :=
    ((ifuncLink false 1).layoutInput ifuncLinked.symbols).computeLayoutFingerprint [] none
  { driversHash := fingerprint.driversHash
    blobHash := [1]
    objectDigests := fingerprint.objectDigests
    objectPaths := [nameOf "a.o"] }

def ifuncOutput : Path := nameOf "--cache-report"

/-- `a.o` is linked, edited, and linked with one word changed. -/
def ifuncEvents (redefined : Bool) (steps : Nat) : List (Event (List UInt8)) :=
  [.write (nameOf "a.o") [1], .link (ifuncInvocation false 1) steps,
    .write (nameOf "a.o") [2, 2], .link (ifuncInvocation redefined 2) steps]

private theorem ifunc_parsed (redefined : Bool) (stored : UInt8) :
    parseExpandedArgs Disk.empty (ifuncArgs redefined) =
      .ok (ifuncLink redefined stored).args := by
  cases redefined <;> rfl

private theorem ifunc_output (redefined : Bool) (stored : UInt8) :
    (ifuncInvocation redefined stored).output = ifuncOutput := by
  cases redefined <;> rfl

private theorem ifunc_argsHash (redefined : Bool) (stored : UInt8) :
    (ifuncInvocation redefined stored).argsHash = (ifuncInvocation false 1).argsHash := by
  cases redefined <;> rfl

private theorem ifunc_eligible (redefined : Bool) (stored : UInt8) :
    (ifuncInvocation redefined stored).feEligible = true := by
  cases redefined <;> rfl

private theorem ifunc_linked : (ifuncLink false 1).run = .ok ifuncLinked := by
  have isOk : (ifuncLink false 1).run.toOption.isSome = true := by decide +kernel
  rw [ifuncLinked]
  cases linked : (ifuncLink false 1).run with
  | ok found => rfl
  | error failure =>
      rw [linked] at isOk
      cases isOk

/-- The gate sees the same drivers. -/
private theorem ifunc_drivers (redefined : Bool) :
    ∃ table, (ifuncLink redefined 2).defined = some table ∧
      (((ifuncLink redefined 2).layoutInput table).computeLayoutFingerprint [0]
        (some ifuncSnapshot.objectDigests)).driversHash = ifuncSnapshot.driversHash := by
  have same : ((ifuncLink redefined 2).defined.any fun table =>
      (((ifuncLink redefined 2).layoutInput table).computeLayoutFingerprint [0]
        (some ifuncSnapshot.objectDigests)).driversHash == ifuncSnapshot.driversHash) =
        true := by
    cases redefined <;> decide +kernel
  rw [Option.any_eq_true] at same
  rcases same with ⟨table, isTable, equal⟩
  exact ⟨table, isTable, eq_of_beq equal⟩

def ifuncRequest : RecordRequest (List UInt8) where
  output := ifuncOutput
  inputs := [nameOf "a.o"]
  argsHash := (ifuncInvocation false 1).argsHash
  sections := sectionRecords ifuncLinked.layout
  symbols := symbolRecords ifuncLinked.symbols
  frontEnd := some ifuncSnapshot
  layout := ifuncLinked.layout

private theorem ifunc_snapshot :
    (ifuncInvocation false 1).buildFrontEndSnapshot ifuncBackend none ifuncLinked =
      (some ifuncSnapshot, some [1]) := by
  have serialized : ifuncBackend.serializeLayout ifuncLinked.layout = [1] := by
    simp only [ifuncBackend, backendOf, if_true]
  simp only [Invocation.buildFrontEndSnapshot, ifunc_eligible, if_true, serialized]
  rfl

private theorem ifunc_apart (redefined : Bool) (stored : UInt8) :
    (ifuncInvocation redefined stored).output ∉
      (ifuncInvocation redefined stored).inputs := by
  rw [ifunc_output]
  exact (by decide : ifuncOutput ∉ [nameOf "a.o"])

/-- The first link computes its layout and stores it. -/
private theorem ifunc_first {start : Machine (List UInt8)} {file : File}
    (noManifest : start.cache.manifest (cacheDir ifuncOutput) = none)
    (stored : start.disk.file (nameOf "a.o") = some file) :
    Completed start (perform start
        ((ifuncInvocation false 1).steps ifuncBackend start.disk start.cache))
      ifuncRequest (some [1]) := by
  have fresh : (ifuncInvocation false 1).tryReuseLayout ifuncBackend start.disk
      start.cache = none :=
    tryReuseLayout_of_no_manifest noManifest
  have outdated : tryReuse start.disk start.cache (ifuncInvocation false 1).output
      (ifuncInvocation false 1).inputs (ifuncInvocation false 1).argsHash = false := by
    rw [tryReuse, ifunc_output, noManifest]
  rw [steps_eq_fullPipeline outdated (by intro _ _ _; rfl)]
  have inputs : ∀ path ∈ (ifuncInvocation false 1).inputs,
      ∃ file, start.disk.file path = some file := by
    intro path member
    cases List.mem_singleton.mp member
    exact ⟨file, stored⟩
  have isLinked : (ifuncInvocation false 1).linked none = .ok ifuncLinked := by
    rw [Invocation.linked]
    exact ifunc_linked
  have completed := completed_fullPipeline (rfl :
    (ifuncInvocation false 1).incremental = true) fresh isLinked (ifunc_apart _ _) inputs
  rw [ifunc_snapshot] at completed
  exact completed

/-- What the gate loads for the second link. -/
private theorem ifunc_loaded {start after : Machine (List UInt8)} {disk : Disk}
    {before edited : File} (completed : Completed start after ifuncRequest (some [1]))
    (stored : start.disk.file (nameOf "a.o") = some before)
    (unmodified : disk.stat ifuncOutput = after.disk.stat ifuncOutput)
    (isEdited : disk.file (nameOf "a.o") = some edited)
    (different : edited.fast ≠ before.fast) :
    loadChangedState disk after.cache ifuncOutput [nameOf "a.o"]
        (ifuncInvocation false 1).argsHash =
      some ⟨[nameOf "a.o"], ifuncRequest.sections, ifuncRequest.symbols,
        some ifuncSnapshot⟩ := by
  rcases completed.loadChangedState unmodified with ⟨fastInputs, seen, loaded⟩
  have kept : after.disk.file (nameOf "a.o") = some before := by
    rw [completed.file _ (by decide), stored]
  have isSeen : fastInputs = [(nameOf "a.o", before.fast)] := by
    simp only [ifuncRequest, statInputs, List.mapM_cons, List.mapM_nil, Disk.stat, kept,
      Option.map_some, Option.bind_eq_bind, Option.bind_some, Option.pure_def,
      Option.some.injEq] at seen
    exact seen.symm
  have changed : collectChanged disk fastInputs [nameOf "a.o"] = some [nameOf "a.o"] := by
    rw [isSeen, collectChanged, if_pos rfl, Disk.stat, isEdited]
    simp only [Option.map_some, collectChanged, if_neg different]
  have found : loadChangedState disk after.cache ifuncOutput [nameOf "a.o"]
      (ifuncInvocation false 1).argsHash = _ := loaded
  rw [found]
  exact congrArg (Option.map _) changed

/-- What the gate of the second link makes of it. -/
def ifuncCached : Invocation.CachedFrontEnd (List UInt8) :=
  ⟨⟨[nameOf "a.o"], ifuncRequest.sections, ifuncRequest.symbols, some ifuncSnapshot⟩,
    ifuncSnapshot, ifuncLinked.layout⟩

private theorem ifunc_reused (redefined : Bool) {disk : Disk}
    {cache : CacheStore (List UInt8)}
    (loaded : loadChangedState disk cache ifuncOutput [nameOf "a.o"]
      (ifuncInvocation false 1).argsHash = some ifuncCached.state)
    (blob : readLayoutBlob cache ifuncOutput = some [1]) :
    (ifuncInvocation redefined 2).tryReuseLayout ifuncBackend disk cache =
      some (ifuncCached, [0]) := by
  have frontEnd : (ifuncInvocation redefined 2).loadFrontEnd ifuncBackend disk cache =
      some ifuncCached := by
    have found : loadChangedState disk cache (ifuncInvocation redefined 2).output
        (ifuncInvocation redefined 2).inputs (ifuncInvocation redefined 2).argsHash =
          some ifuncCached.state := by
      rw [ifunc_output, ifunc_argsHash]
      exact loaded
    have layout : cachedLayout ifuncBackend cache (ifuncInvocation redefined 2).output
        ifuncSnapshot = some ifuncLinked.layout := by
      rw [ifunc_output, cachedLayout, blob]
      rfl
    simp only [Invocation.loadFrontEnd, found, Option.bind_eq_bind, Option.bind_some]
    exact congrArg (Option.bind · _) layout
  rcases ifunc_drivers redefined with ⟨table, isTable, same⟩
  have defined : (ifuncInvocation redefined 2).link.defined = some table := isTable
  have paths : ifuncSnapshot.objectPaths = (ifuncInvocation redefined 2).objectPaths := by
    cases redefined <;> rfl
  have changed : changedObjectIds (ifuncInvocation redefined 2).objectPaths
      ifuncCached.state.changedInputs = some [0] := by
    rw [← paths]
    rfl
  exact tryReuseLayout_eq_some (ifunc_eligible _ _) defined frontEnd paths changed same

private theorem ifunc_second (redefined : Bool) {linked : Linked}
    (isLinked : (ifuncLink redefined 2).reuse ifuncLinked.layout = .ok linked)
    {edited : Machine (List UInt8)} {file : File}
    (stored : edited.disk.file (nameOf "a.o") = some file)
    (loaded : loadChangedState edited.disk edited.cache ifuncOutput [nameOf "a.o"]
      (ifuncInvocation false 1).argsHash = some ifuncCached.state)
    (reused : (ifuncInvocation redefined 2).tryReuseLayout ifuncBackend edited.disk
      edited.cache = some (ifuncCached, [0])) :
    Completed edited (perform edited
        ((ifuncInvocation redefined 2).steps ifuncBackend edited.disk edited.cache))
      { ifuncRequest with
        sections := sectionRecords linked.layout
        symbols := symbolRecords linked.symbols
        layout := linked.layout } none := by
  have outdated : tryReuse edited.disk edited.cache (ifuncInvocation redefined 2).output
      (ifuncInvocation redefined 2).inputs (ifuncInvocation redefined 2).argsHash =
        false := by
    rw [ifunc_output, ifunc_argsHash]
    exact tryReuse_of_changed loaded (List.cons_ne_nil _ _)
  have relinked : (ifuncInvocation redefined 2).linked (some (ifuncCached, [0])) =
      .ok linked := by
    rw [Invocation.linked]
    exact isLinked
  have inputs : ∀ path ∈ (ifuncInvocation redefined 2).inputs,
      ∃ file, edited.disk.file path = some file := by
    intro path member
    cases List.mem_singleton.mp member
    exact ⟨file, stored⟩
  have incremental : (ifuncInvocation redefined 2).incremental = true := by
    cases redefined <;> rfl
  have built : (ifuncInvocation redefined 2).buildFrontEndSnapshot ifuncBackend
      (some (ifuncCached, [0])) linked = (some ifuncSnapshot, none) := by
    simp only [Invocation.buildFrontEndSnapshot, ifunc_eligible, if_true]
    rfl
  have completed := completed_fullPipeline incremental reused relinked (ifunc_apart _ _)
    inputs
  rw [built, ifunc_output, ifunc_argsHash] at completed
  rw [steps_eq_fullPipeline outdated (by intro _ _ _; rfl)]
  exact completed

structure IfuncRun (redefined : Bool) (linked : Linked) (steps : Nat)
    (machine : Machine (List UInt8)) : Prop where
  reached : GuardedRun.run (step ifuncBackend) (Machine.empty _)
    (ifuncEvents redefined steps) = some machine
  gated : Gated machine ifuncOutput [nameOf "a.o"] (ifuncInvocation false 1).argsHash
  manifest : ∃ manifest, machine.cache.manifest (cacheDir ifuncOutput) = some manifest ∧
    manifest.frontEnd = some ifuncSnapshot
  blob : readLayoutBlob machine.cache ifuncOutput = some [1]
  recording : ∃ bytes, machine.lastRecording ifuncOutput =
    some ⟨ifuncOutput, bytes, linked.layout⟩
  keeps : (∀ table, (ifuncLink redefined 2).defined = some table →
      ifuncLinked.layout.HoldsResolvers
        ((ifuncLink redefined 2).finalized table ifuncLinked.layout)) →
    GuardedRun.Meets (step ifuncBackend) (KeepsResolvers ifuncBackend)
      (Machine.empty _) (ifuncEvents redefined steps)

private theorem exists_ifuncRun (redefined : Bool) {linked : Linked}
    (isLinked : (ifuncLink redefined 2).reuse ifuncLinked.layout = .ok linked) :
    ∃ steps machine, IfuncRun redefined linked steps machine := by
  have wroteFirst : step ifuncBackend (Machine.empty _) (.write (nameOf "a.o") [1]) =
      some ((Machine.empty (List UInt8)).rewrite (nameOf "a.o") [1]) := rfl
  have stored : ((Machine.empty (List UInt8)).rewrite (nameOf "a.o") [1]).disk.file
      (nameOf "a.o") = some ⟨[1], FastFingerprint.at 0 [1]⟩ := Disk.file_write_self ..
  have noManifest : ((Machine.empty (List UInt8)).rewrite (nameOf "a.o") [1]).cache.manifest
      (cacheDir ifuncOutput) = none := rfl
  generalize (Machine.empty (List UInt8)).rewrite (nameOf "a.o") [1] = start
    at wroteFirst stored noManifest
  have first := ifunc_first noManifest stored
  generalize isFirst : (ifuncInvocation false 1).steps ifuncBackend start.disk
    start.cache = firstSteps at first
  generalize isMiddle : perform start firstSteps = middle at first
  have wroteSecond : step ifuncBackend middle (.write (nameOf "a.o") [2, 2]) =
      some (middle.rewrite (nameOf "a.o") [2, 2]) := rfl
  have isEdited : (middle.rewrite (nameOf "a.o") [2, 2]).disk.file (nameOf "a.o") =
      some ⟨[2, 2], FastFingerprint.at middle.disk.clock [2, 2]⟩ :=
    Disk.file_write_self ..
  have unmodified : (middle.rewrite (nameOf "a.o") [2, 2]).disk.stat ifuncOutput =
      middle.disk.stat ifuncOutput := by
    rw [Disk.stat, Disk.stat]
    exact congrArg _ (Disk.file_write_of_ne middle.disk _ (by decide))
  have sameCache : (middle.rewrite (nameOf "a.o") [2, 2]).cache = middle.cache := rfl
  generalize middle.rewrite (nameOf "a.o") [2, 2] = edited
    at wroteSecond isEdited unmodified sameCache
  have different : FastFingerprint.at middle.disk.clock [2, 2] ≠
      FastFingerprint.at 0 [1] := by
    intro same
    cases congrArg FastFingerprint.len same
  have loaded := ifunc_loaded first stored unmodified isEdited different
  have blob := first.blob
  rw [← sameCache] at loaded blob
  have reused := ifunc_reused redefined loaded blob
  have second := ifunc_second redefined isLinked isEdited loaded reused
  generalize isSecond : (ifuncInvocation redefined 2).steps ifuncBackend edited.disk
    edited.cache = secondSteps at second
  generalize isFinal : perform edited secondSteps = final at second
  have ranFirst : step ifuncBackend start (.link (ifuncInvocation false 1)
      (max firstSteps.length secondSteps.length)) = some middle := by
    rw [step, isFirst, List.take_of_length_le (le_max_left _ _), isMiddle]
  have ranSecond : step ifuncBackend edited (.link (ifuncInvocation redefined 2)
      (max firstSteps.length secondSteps.length)) = some final := by
    rw [step, isSecond, List.take_of_length_le (le_max_right _ _), isFinal]
  refine ⟨max firstSteps.length secondSteps.length, final,
    ⟨?_, Or.inl second.tryReuse, ?_, ?_, second.recording, ?_⟩⟩
  · rw [ifuncEvents, GuardedRun.run_cons, wroteFirst, Option.bind_some,
      GuardedRun.run_cons, ranFirst, Option.bind_some, GuardedRun.run_cons, wroteSecond,
      Option.bind_some, GuardedRun.run_cons, ranSecond, Option.bind_some,
      GuardedRun.run_nil]
  · rcases second.manifest with ⟨manifest, cache, found, made⟩
    rcases makeManifest_spec made with ⟨_, _, _, _, _, _, _, frontEnd⟩
    exact ⟨manifest, found, frontEnd⟩
  · exact second.blob.trans blob
  · intro holds
    refine ⟨trivial, fun next taken => ?_⟩
    cases wroteFirst.symm.trans taken
    refine ⟨?_, fun next taken => ?_⟩
    · have fresh : (ifuncInvocation false 1).tryReuseLayout ifuncBackend start.disk
          start.cache = none :=
        tryReuseLayout_of_no_manifest noManifest
      simp only [KeepsResolvers, fresh]
    · cases ranFirst.symm.trans taken
      refine ⟨trivial, fun next taken => ?_⟩
      cases wroteSecond.symm.trans taken
      refine ⟨?_, fun _ _ => trivial⟩
      simp only [KeepsResolvers, reused]
      split
      case h_1 table isReused isTable =>
        cases isReused
        exact holds table isTable
      case h_2 => trivial

/-- Both links are accepted, and the second one has `f` elsewhere than the blob. -/
theorem ifunc_not_layoutOfLast :
    ifuncObject.Parsed ∧
      (∀ redefined stored, parseExpandedArgs Disk.empty (ifuncArgs redefined) =
        .ok (ifuncLink redefined stored).args) ∧
      ∃ steps machine,
        GuardedRun.run (step ifuncBackend) (Machine.empty _) (ifuncEvents true steps) =
          some machine ∧
        Gated machine ifuncOutput [nameOf "a.o"] (ifuncInvocation false 1).argsHash ∧
        ¬ LayoutOfLast ifuncBackend machine ifuncOutput := by
  refine ⟨ifuncObject_parsed, ifunc_parsed, ?_⟩
  have differs : ((ifuncLink true 2).reuse ifuncLinked.layout).toOption.any
      (fun linked => linked.layout.dynBlobs.relaPlt != ifuncLinked.layout.dynBlobs.relaPlt) =
        true := by
    decide +kernel
  cases isLinked : (ifuncLink true 2).reuse ifuncLinked.layout with
  | error failure =>
      rw [isLinked] at differs
      cases differs
  | ok linked =>
      rw [isLinked] at differs
      rcases exists_ifuncRun true isLinked with ⟨steps, machine, ran⟩
      refine ⟨steps, machine, ran.reached, ran.gated, fun ofLast => ?_⟩
      rcases ran.manifest with ⟨manifest, found, named⟩
      rcases ran.recording with ⟨bytes, last⟩
      rcases ofLast manifest ifuncSnapshot [1] ifuncLinked.layout found named ran.blob rfl
        rfl with ⟨recording, isLast, same⟩
      cases last.symm.trans isLast
      have equal : linked.layout.dynBlobs.relaPlt = ifuncLinked.layout.dynBlobs.relaPlt := by
        rw [same]
      rw [Except.toOption, Option.any_some, equal] at differs
      exact absurd rfl (bne_iff_ne.mp differs)

/-- With the word unchanged the two links meet the condition. -/
theorem ifunc_accepted : ∃ steps machine,
    GuardedRun.run (step ifuncBackend) (Machine.empty _) (ifuncEvents false steps) =
      some machine ∧
    Gated machine ifuncOutput [nameOf "a.o"] (ifuncInvocation false 1).argsHash ∧
    BytesOfLast machine ifuncOutput ∧ LayoutOfLast ifuncBackend machine ifuncOutput := by
  have isOk : ((ifuncLink false 2).reuse ifuncLinked.layout).toOption.isSome = true := by
    decide +kernel
  have holds : ((ifuncLink false 2).defined.all fun table =>
      decide (ifuncLinked.layout.HoldsResolvers
        ((ifuncLink false 2).finalized table ifuncLinked.layout))) = true := by
    decide +kernel
  cases isLinked : (ifuncLink false 2).reuse ifuncLinked.layout with
  | error failure =>
      rw [isLinked] at isOk
      cases isOk
  | ok linked =>
      rcases exists_ifuncRun false isLinked with ⟨steps, machine, ran⟩
      have accepted := accepted_is_last_recording ran.reached ran.gated
      refine ⟨steps, machine, ran.reached, ran.gated, accepted.1, accepted.2 ?_⟩
      apply ran.keeps
      intro table isTable
      rw [isTable] at holds
      exact of_decide_eq_true holds

end Peony
