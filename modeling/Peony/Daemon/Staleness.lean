import Peony.Daemon.Session

namespace Peony

/-! When nothing is reported to have changed, the output is the link of the present
inputs, provided no link was disturbed: the fingerprints a link records belong to
the contents it saw. -/

variable {Hash : Type}

/-! ## Fingerprints that tell contents -/

structure Knows (disk : Disk) (source : Path → Option (List UInt8))
    (fingerprints : List (Path × FastFingerprint)) : Prop where
  past : ∀ entry ∈ fingerprints, entry.2.mtimeSec ≤ disk.clock
  content : ∀ entry ∈ fingerprints, ∀ file,
    disk.file entry.1 = some file → file.fast = entry.2 →
    source entry.1 = some file.bytes

theorem Knows.write {disk : Disk} {source : Path → Option (List UInt8)}
    {fingerprints : List (Path × FastFingerprint)}
    (knows : Knows disk source fingerprints) (path : Path)
    (bytes : List UInt8) :
    Knows (disk.write path bytes) source fingerprints where
  past := by
    intro entry member
    have old := knows.past entry member
    rw [Disk.clock_write]
    omega
  content := by
    intro entry member file present same
    by_cases written : entry.1 = path
    · rw [written] at present
      exact absurd same (Disk.fast_write_ne (knows.past entry member) present)
    · rw [Disk.file_write_of_ne disk bytes written] at present
      exact knows.content entry member file present same

theorem Knows.later {disk later : Disk} {source : Path → Option (List UInt8)}
    {fingerprints : List (Path × FastFingerprint)}
    (knows : Knows disk source fingerprints)
    (after : Disk.Later disk later) : Knows later source fingerprints where
  past := by
    intro entry member
    have old := knows.past entry member
    have clock := after.clock
    omega
  content := by
    intro entry member file present same
    rw [after.file] at present
    exact knows.content entry member file present same

theorem knows_of_current {disk : Disk} {source : Path → Option (List UInt8)}
    {fingerprints : List (Path × FastFingerprint)}
    (past : ∀ entry ∈ fingerprints, entry.2.mtimeSec ≤ disk.clock)
    (current : ∀ entry ∈ fingerprints,
      source entry.1 = disk.contents entry.1) :
    Knows disk source fingerprints where
  past := past
  content := by
    intro entry member file present _
    rw [current entry member, Disk.contents, present, Option.map_some]

theorem Knows.eq_contents {disk : Disk} {source : Path → Option (List UInt8)}
    {fingerprints : List (Path × FastFingerprint)}
    (knows : Knows disk source fingerprints) {path : Path}
    {fast : FastFingerprint} (member : (path, fast) ∈ fingerprints)
    (stat : disk.stat path = some fast) :
    source path = disk.contents path := by
  rcases Option.map_eq_some_iff.mp stat with ⟨file, present, same⟩
  rw [knows.content _ member file present same, Disk.contents, present,
    Option.map_some]

namespace Session

variable {link : List (Option (List UInt8)) → List UInt8}
variable {overlay : List UInt8 → List (Option (List UInt8)) → List UInt8}
variable {backend : Backend Hash} {command : Command}

/-! ## The invariant -/

structure ServesSource (command : Command) (disk : Disk)
    (source : Path → Option (List UInt8)) (daemon : DaemonState Hash) :
    Prop where
  output : daemon.output = command.output
  inputs : daemon.inputPaths = command.inputs
  argsHash : daemon.argsHash = command.argsHash
  length : command.inputs.length = daemon.inputFps.length
  knows : Knows disk source (command.inputs.zip daemon.inputFps)

/-- A link whose view of the inputs is their present content. -/
structure SeesCurrent (command : Command) (session : Session Hash)
    (process : Process) : Prop where
  current : ∀ path bytes, process.seen path = some bytes →
    session.machine.disk.contents path = some bytes
  covered : ∀ path ∈ command.inputs,
    path ∈ process.pending ∨ (process.seen path).isSome
  emitted : process.emitted = true →
    session.source = some process.seen ∧ process.pending = []

structure LinkedFrom (link : List (Option (List UInt8)) → List UInt8)
    (command : Command) (disk : Disk)
    (source : Path → Option (List UInt8)) : Prop where
  bytes : disk.contents command.output =
    some (link (command.inputs.map source))
  apart : command.output ∉ command.inputs
  present : ∀ path ∈ command.inputs, ∃ file, disk.file path = some file

structure Consistent (link : List (Option (List UInt8)) → List UInt8)
    (command : Command) (session : Session Hash) : Prop where
  stamped : session.machine.disk.Stamped
  manifestPast : ∀ manifest,
    session.machine.cache.manifest (cacheDir command.output) = some manifest →
    manifest.fastOutput.mtimeSec ≤ session.machine.disk.clock
  linked : ∀ source, session.source = some source →
    LinkedFrom link command session.machine.disk source
  manifest : ∀ manifest,
    session.machine.cache.manifest (cacheDir command.output) = some manifest →
    session.machine.disk.stat command.output = some manifest.fastOutput →
    ∃ source, session.source = some source ∧
      Knows session.machine.disk source manifest.fastInputs
  daemon : ∀ daemon, session.daemon = some daemon →
    ∃ source, session.source = some source ∧
      ServesSource command session.machine.disk source daemon
  process : ∀ process, session.process = some process →
    SeesCurrent command session process

theorem consistent_start :
    Consistent link command (start Hash) where
  stamped := Disk.stamped_empty
  manifestPast := by
    intro manifest found
    cases found
  linked := by
    intro source none
    cases none
  manifest := by
    intro manifest found
    cases found
  daemon := by
    intro daemon none
    cases none
  process := by
    intro process none
    cases none

/-! ## What the gates know -/

theorem Consistent.of_accepted {session : Session Hash}
    (consistent : Consistent link command session) {manifest : Manifest Hash}
    (accepted : Accepted session.machine.disk session.machine.cache
      command.output command.argsHash manifest) :
    ∃ source, session.source = some source ∧
      Knows session.machine.disk source manifest.fastInputs :=
  consistent.manifest manifest accepted.recorded accepted.unmodified

theorem Consistent.servesSource_of_load [DecidableEq Hash]
    {session : Session Hash} {daemon : DaemonState Hash}
    (consistent : Consistent link command session)
    (loaded : DaemonState.load backend session.machine.disk
      session.machine.cache command.output command.inputs command.argsHash =
        some daemon) :
    ∃ source, session.source = some source ∧
      ServesSource command session.machine.disk source daemon := by
  rcases DaemonState.load_spec loaded with
    ⟨output, inputs, argsHash, manifest, accepted, paths, fps⟩
  rcases consistent.of_accepted accepted with ⟨source, isSource, knows⟩
  -- The baseline has an entry for every input.
  have entry : ∀ path ∈ command.inputs,
      (path, (manifest.fastInputs.lookup path).getD
        FastFingerprint.default) ∈ manifest.fastInputs := by
    intro path member
    rcases found : manifest.fastInputs.lookup path with - | fast
    · rw [← paths] at member
      rcases List.mem_map.mp member with ⟨recorded, recordedMember, rfl⟩
      rw [List.lookup_eq_none_iff] at found
      simpa using found recorded recordedMember
    · rw [Option.getD_some]
      rcases List.lookup_eq_some_iff.mp found with ⟨front, back, split, _⟩
      rw [split]
      simp
  have zipped : ∀ pair ∈ command.inputs.zip daemon.inputFps,
      pair ∈ manifest.fastInputs := by
    intro pair member
    rw [fps, List.zip_map_right, List.mem_map] at member
    rcases member with ⟨twice, member, rfl⟩
    have same : twice.1 = twice.2 := by
      rcases List.mem_iff_getElem.mp member with ⟨place, bound, rfl⟩
      simp
    have pathMember := (List.of_mem_zip member).1
    have found := entry twice.1 pathMember
    simpa [Prod.map, ← same] using found
  refine ⟨source, isSource, output, inputs, argsHash, ?_, ?_⟩
  · rw [fps, List.length_map]
  · exact ⟨fun pair member => knows.past pair (zipped pair member),
      fun pair member => knows.content pair (zipped pair member)⟩

theorem Consistent.servesSource_of_reloaded [DecidableEq Hash]
    {session : Session Hash} {daemon fresh : DaemonState Hash}
    (consistent : Consistent link command session)
    (present : session.daemon = some daemon)
    (reload : daemon.reloaded backend session.machine.disk
      session.machine.cache = some fresh) :
    ∃ source, session.source = some source ∧
      ServesSource command session.machine.disk source fresh := by
  rcases consistent.daemon daemon present with ⟨source, isSource, serves⟩
  rw [DaemonState.reloaded] at reload
  split at reload
  · cases reload
    exact ⟨source, isSource, serves⟩
  · rw [serves.output, serves.inputs, serves.argsHash] at reload
    exact consistent.servesSource_of_load reload

theorem ServesSource.eq_contents {disk : Disk}
    {source : Path → Option (List UInt8)} {daemon : DaemonState Hash}
    (serves : ServesSource command disk source daemon)
    (linked : LinkedFrom link command disk source) {path : Path}
    (member : path ∈ command.inputs)
    (unchanged : path ∉ daemon.changedPaths disk) :
    source path = disk.contents path := by
  rcases exists_mem_zip serves.length member with ⟨fast, zipped⟩
  rcases linked.present path member with ⟨file, present⟩
  have stat : statOrDefault disk path = fast := by
    by_contra different
    apply unchanged
    rw [DaemonState.changedPaths, serves.inputs, List.mem_map]
    refine ⟨(path, fast), List.mem_filter.mpr ⟨zipped, ?_⟩, rfl⟩
    simpa using different
  apply serves.knows.eq_contents zipped
  rw [Disk.stat, present, Option.map_some]
  rw [statOrDefault, Disk.stat, present, Option.map_some,
    Option.getD_some] at stat
  rw [stat]

theorem Consistent.upToDate_of_reports [DecidableEq Hash]
    {session : Session Hash} (consistent : Consistent link command session)
    (reports : session.ReportsNoChange backend command) :
    session.UpToDate link command := by
  -- It is enough that every input has the content of the source.
  have enough : ∀ source, session.source = some source →
      (∀ path ∈ command.inputs,
        source path = session.machine.disk.contents path) →
      session.UpToDate link command := by
    intro source isSource same
    rw [UpToDate, (consistent.linked source isSource).bytes,
      List.map_congr_left same]
  rcases reports with reuse | ⟨daemon, requestHash, state, present, decided⟩
  · rcases accepted_of_tryReuse reuse with ⟨manifest, accepted, _, same⟩
    rcases consistent.of_accepted accepted with ⟨source, isSource, knows⟩
    apply enough source isSource
    intro path member
    rcases stat_of_sameInputs same member with ⟨fast, recorded, stat⟩
    exact knows.eq_contents recorded stat
  · rcases DaemonState.decide_eq_noChange decided with ⟨_, reload, unchanged⟩
    rcases consistent.servesSource_of_reloaded present reload with
      ⟨source, isSource, serves⟩
    apply enough source isSource
    intro path member
    apply serves.eq_contents (consistent.linked source isSource) member
    rw [unchanged]
    exact List.not_mem_nil

/-! ## One event -/

theorem SeesCurrent.seen_of_done {session : Session Hash} {process : Process}
    (sees : SeesCurrent command session process) (done : process.pending = [])
    {path : Path} (member : path ∈ command.inputs) :
    ∃ bytes, process.seen path = some bytes ∧
      session.machine.disk.contents path = some bytes := by
  rcases sees.covered path member with pending | seen
  · rw [done] at pending
    cases pending
  · rcases Option.isSome_iff_exists.mp seen with ⟨bytes, found⟩
    exact ⟨bytes, found, sees.current path bytes found⟩

theorem stat_write_of_ne (disk : Disk) {path other : Path}
    (bytes : List UInt8) (different : other ≠ path) :
    (disk.write path bytes).stat other = disk.stat other := by
  rw [Disk.stat, Disk.file_write_of_ne disk bytes different, Disk.stat]

theorem stat_write {disk : Disk} {fast : FastFingerprint} {path output : Path}
    {bytes : List UInt8} (past : fast.mtimeSec ≤ disk.clock)
    (stat : (disk.write path bytes).stat output = some fast) :
    output ≠ path ∧ disk.stat output = some fast := by
  have elsewhere : output ≠ path := by
    intro same
    rw [same] at stat
    rcases Option.map_eq_some_iff.mp stat with ⟨file, present, equal⟩
    exact Disk.fast_write_ne past present equal
  rw [stat_write_of_ne disk bytes elsewhere] at stat
  exact ⟨elsewhere, stat⟩

theorem LinkedFrom.write {disk : Disk} {source : Path → Option (List UInt8)}
    (linked : LinkedFrom link command disk source) {path : Path}
    (bytes : List UInt8) (elsewhere : command.output ≠ path) :
    LinkedFrom link command (disk.write path bytes) source where
  bytes := by
    rw [Disk.contents_write_of_ne disk bytes elsewhere]
    exact linked.bytes
  apart := linked.apart
  present := by
    intro other member
    by_cases written : other = path
    · rw [written]
      exact ⟨_, Disk.file_write_self ..⟩
    · rw [Disk.file_write_of_ne disk bytes written]
      exact linked.present other member

theorem Consistent.edit {session : Session Hash}
    (consistent : Consistent link command session) {path : Path}
    (bytes : List UInt8) (member : path ∈ command.inputs)
    (undisturbed : ∀ process, session.process = some process →
      process.seen path = none) :
    Consistent link command
      { session with
        machine := { session.machine with
          disk := session.machine.disk.write path bytes } } where
  stamped := consistent.stamped.write path bytes
  manifestPast := by
    intro manifest found
    have old := consistent.manifestPast manifest found
    rw [Disk.clock_write]
    omega
  linked := by
    intro source isSource
    have linked := consistent.linked source isSource
    apply linked.write
    intro same
    rw [← same] at member
    exact linked.apart member
  manifest := by
    intro manifest found stat
    rcases stat_write (consistent.manifestPast manifest found) stat with
      ⟨_, before⟩
    rcases consistent.manifest manifest found before with
      ⟨source, isSource, knows⟩
    exact ⟨source, isSource, knows.write path bytes⟩
  daemon := by
    intro daemon present
    rcases consistent.daemon daemon present with ⟨source, isSource, serves⟩
    exact ⟨source, isSource, serves.output, serves.inputs, serves.argsHash,
      serves.length, serves.knows.write path bytes⟩
  process := by
    intro process present
    have sees := consistent.process process present
    refine ⟨?_, sees.covered, sees.emitted⟩
    intro other content seen
    have different : other ≠ path := by
      intro same
      rw [same, undisturbed process present] at seen
      cases seen
    rw [Disk.contents_write_of_ne _ bytes different]
    exact sees.current other content seen

/-- A link begins with what its view already holds. -/
theorem Consistent.withProcess {session : Session Hash}
    (consistent : Consistent link command session) {process : Process}
    (sees : SeesCurrent command session process) :
    Consistent link command { session with process := some process } where
  stamped := consistent.stamped
  manifestPast := consistent.manifestPast
  linked := consistent.linked
  manifest := consistent.manifest
  daemon := consistent.daemon
  process := by
    intro other present
    cases present
    exact ⟨sees.current, sees.covered, sees.emitted⟩

theorem Consistent.withoutProcess {session : Session Hash}
    (consistent : Consistent link command session) :
    Consistent link command { session with process := none } where
  stamped := consistent.stamped
  manifestPast := consistent.manifestPast
  linked := consistent.linked
  manifest := consistent.manifest
  daemon := consistent.daemon
  process := by
    intro process none
    cases none

theorem Consistent.withDaemon {session : Session Hash}
    (consistent : Consistent link command session)
    {daemon : Option (DaemonState Hash)}
    (serves : ∀ state, daemon = some state →
      ∃ source, session.source = some source ∧
        ServesSource command session.machine.disk source state) :
    Consistent link command { session with daemon := daemon } where
  stamped := consistent.stamped
  manifestPast := consistent.manifestPast
  linked := consistent.linked
  manifest := consistent.manifest
  daemon := serves
  process := by
    intro process present
    have sees := consistent.process process present
    exact ⟨sees.current, sees.covered, sees.emitted⟩

theorem seesCurrent_full (session : Session Hash) :
    SeesCurrent command session
      ⟨false, fun _ => none, command.inputs, false⟩ where
  current := by
    intro path bytes seen
    cases seen
  covered := fun path member => Or.inl member
  emitted := by
    intro emitted
    cases emitted

theorem seesCurrent_relinking {session : Session Hash} {byDaemon : Bool}
    {source : Path → Option (List UInt8)} {changed : List Path}
    (linked : LinkedFrom link command session.machine.disk source)
    (same : ∀ path ∈ command.inputs, path ∉ changed →
      source path = session.machine.disk.contents path) :
    SeesCurrent command session
      (relinking byDaemon source command.inputs changed) where
  current := by
    intro path bytes seen
    simp only [relinking, knownContents] at seen
    split at seen
    case isFalse => cases seen
    case isTrue known =>
      rw [← same path known.1 known.2]
      exact seen
  covered := by
    intro path member
    by_cases pending : path ∈ changed
    · exact Or.inl pending
    · right
      rcases linked.present path member with ⟨file, present⟩
      simp only [relinking, knownContents, member, pending,
        not_false_eq_true, and_self, if_true]
      rw [same path member pending, Disk.contents, present]
      rfl
  emitted := by
    intro emitted
    cases emitted

theorem SeesCurrent.read {session : Session Hash} {process : Process}
    (sees : SeesCurrent command session process) {path : Path}
    {rest : List Path} {bytes : List UInt8}
    (next : process.pending = path :: rest)
    (content : session.machine.disk.contents path = some bytes) :
    SeesCurrent command session (process.reading path rest bytes) where
  current := by
    intro other found seen
    by_cases same : other = path
    · rw [same, seen_reading_self] at seen
      rw [same, content, seen]
    · rw [seen_reading_of_ne process rest bytes same] at seen
      exact sees.current other found seen
  covered := by
    intro other member
    by_cases same : other = path
    · right
      rw [same, seen_reading_self]
      rfl
    · rw [seen_reading_of_ne process rest bytes same]
      rcases sees.covered other member with pending | seen
      · rw [next] at pending
        rcases List.mem_cons.mp pending with equal | later
        · exact absurd equal same
        · exact Or.inl later
      · exact Or.inr seen
  emitted := by
    intro emitted
    have done := (sees.emitted emitted).2
    rw [next] at done
    cases done

theorem emittedBytes_of_settled {session : Session Hash} {process : Process}
    (settled : process.byDaemon = true → session.settled = true) :
    session.emittedBytes link overlay command process =
      link (command.inputs.map process.seen) := by
  apply if_neg
  intro unsettled
  rw [Bool.and_eq_true, Bool.not_eq_true'] at unsettled
  rw [settled unsettled.1] at unsettled
  cases unsettled.2

theorem Consistent.emitting {session : Session Hash}
    (consistent : Consistent link command session) {process : Process}
    (present : session.process = some process) (done : process.pending = [])
    (undisturbed : process.seen command.output = none)
    (settled : process.byDaemon = true → session.settled = true) :
    Consistent link command (session.emitting link overlay command process) := by
  rw [Session.emitting, emittedBytes_of_settled settled]
  have sees := consistent.process process present
  have seen := fun path (member : path ∈ command.inputs) =>
    sees.seen_of_done done member
  have apart : command.output ∉ command.inputs := by
    intro member
    rcases seen command.output member with ⟨bytes, found, _⟩
    rw [undisturbed] at found
    cases found
  have inputsKept : ∀ path ∈ command.inputs, path ≠ command.output := by
    intro path member same
    rw [same] at member
    exact apart member
  constructor
  · exact consistent.stamped.write command.output _
  · intro manifest found
    have old := consistent.manifestPast manifest found
    rw [Disk.clock_write]
    omega
  · intro source isSource
    cases isSource
    refine ⟨?_, apart, ?_⟩
    · simp [Disk.contents]
    · intro path member
      rcases seen path member with ⟨bytes, _, content⟩
      rcases Option.map_eq_some_iff.mp content with ⟨file, filePresent, _⟩
      refine ⟨file, ?_⟩
      rw [Disk.file_write_of_ne _ _ (inputsKept path member)]
      exact filePresent
  · intro manifest found stat
    have elsewhere :=
      (stat_write (consistent.manifestPast manifest found) stat).1
    exact absurd rfl elsewhere
  · intro daemon daemonPresent
    rcases consistent.daemon daemon daemonPresent with ⟨_, _, serves⟩
    refine ⟨process.seen, rfl, serves.output, serves.inputs, serves.argsHash,
      serves.length, ?_⟩
    apply knows_of_current
    · intro entry member
      have old := serves.knows.past entry member
      rw [Disk.clock_write]
      omega
    · intro entry member
      have isInput := (List.of_mem_zip member).1
      rcases seen entry.1 isInput with ⟨bytes, found, content⟩
      rw [found, Disk.contents_write_of_ne _ _ (inputsKept entry.1 isInput), content]
  · intro other otherPresent
    cases otherPresent
    refine ⟨?_, sees.covered, fun _ => ⟨rfl, done⟩⟩
    intro path bytes found
    have different : path ≠ command.output := by
      intro same
      rw [same, undisturbed] at found
      cases found
    rw [Disk.contents_write_of_ne _ _ different]
    exact sees.current path bytes found

theorem LinkedFrom.later {disk later : Disk}
    {source : Path → Option (List UInt8)}
    (linked : LinkedFrom link command disk source)
    (after : Disk.Later disk later) :
    LinkedFrom link command later source where
  bytes := by
    rw [after.contents]
    exact linked.bytes
  apart := linked.apart
  present := by
    rw [after.file]
    exact linked.present

theorem stat_past {disk : Disk} (stamped : disk.Stamped) {path : Path}
    {fast : FastFingerprint} (stat : disk.stat path = some fast) :
    fast.mtimeSec ≤ disk.clock := by
  rcases Option.map_eq_some_iff.mp stat with ⟨file, present, rfl⟩
  exact stamped.past path file present

theorem statOrDefault_past {disk : Disk} (stamped : disk.Stamped)
    (path : Path) : (statOrDefault disk path).mtimeSec ≤ disk.clock := by
  rw [statOrDefault]
  rcases stat : disk.stat path with - | fast
  · exact Int.natCast_nonneg disk.clock
  · exact stat_past stamped stat

theorem Consistent.recorded {session : Session Hash}
    (consistent : Consistent link command session) {process : Process}
    (present : session.process = some process)
    (emitted : process.emitted = true) {request : RecordRequest Hash}
    (output : request.output = command.output)
    (inputs : request.inputs = command.inputs)
    (layoutBlob : Option (List UInt8)) :
    Consistent link command (session.recorded process request layoutBlob) := by
  have sees := consistent.process process present
  rcases sees.emitted emitted with ⟨isSource, done⟩
  have effect := recordEffect session.machine request layoutBlob
  rw [Session.recorded]
  generalize perform session.machine
    (recordLinkWithSections request layoutBlob) = machine at effect
  have later := effect.later
  have stamped := consistent.stamped.later later
  -- The view of the link is still the content of every input.
  have current : ∀ path ∈ command.inputs,
      process.seen path = machine.disk.contents path := by
    intro path member
    rcases sees.seen_of_done done member with ⟨bytes, found, content⟩
    rw [found, later.contents, content]
  have manifestCases := effect.manifest
  rw [output, inputs] at manifestCases
  constructor
  · exact stamped
  · intro manifest found
    rcases manifestCases manifest found with old | ⟨stat, _⟩
    · have past := consistent.manifestPast manifest old
      have clock := later.clock
      simp only
      omega
    · exact stat_past stamped stat
  · intro source sourceHolds
    exact (consistent.linked source sourceHolds).later later
  · intro manifest found stat
    rcases manifestCases manifest found with old | ⟨_, fastInputs⟩
    · rw [later.stat] at stat
      rcases consistent.manifest manifest old stat with
        ⟨source, sourceHolds, knows⟩
      exact ⟨source, sourceHolds, knows.later later⟩
    · refine ⟨process.seen, isSource, knows_of_current ?_ ?_⟩
      · intro entry member
        exact stat_past stamped (mem_statInputs fastInputs member).2
      · intro entry member
        exact current entry.1 (mem_statInputs fastInputs member).1
  · intro daemon daemonPresent
    simp only at daemonPresent
    split at daemonPresent
    · rcases Option.map_eq_some_iff.mp daemonPresent with
        ⟨before, beforePresent, rfl⟩
      rcases consistent.daemon before beforePresent with ⟨_, _, serves⟩
      refine ⟨process.seen, isSource, serves.output, serves.inputs,
        serves.argsHash, ?_, ?_⟩
      · simp [DaemonState.relinked, serves.inputs]
      · apply knows_of_current
        · intro entry member
          have stat := (List.of_mem_zip member).2
          rcases List.mem_map.mp stat with ⟨path, _, same⟩
          rw [← same]
          exact statOrDefault_past stamped path
        · intro entry member
          exact current entry.1 (List.of_mem_zip member).1
    · rcases consistent.daemon daemon daemonPresent with
        ⟨source, sourceHolds, serves⟩
      exact ⟨source, sourceHolds, serves.output, serves.inputs,
        serves.argsHash, serves.length, serves.knows.later later⟩
  · intro other none
    cases none

/-! ## Every event -/

section

variable [DecidableEq Hash] {session next : Session Hash}
variable (consistent : Consistent link command session)

include consistent

theorem Consistent.step_startFull
    (taken : session.step link overlay backend command .startFull = some next) :
    Consistent link command next := by
  simp only [Session.step] at taken
  split at taken
  case h_1 => cases taken
  case h_2 =>
    split at taken
    · cases taken
    · cases taken
      exact consistent.withProcess (seesCurrent_full session)

theorem Consistent.step_startRelink
    (taken : session.step link overlay backend command .startRelink = some next) :
    Consistent link command next := by
  simp only [Session.step] at taken
  split at taken
  case h_2 => cases taken
  case h_1 source state _ isSource loaded =>
    split at taken
    · cases taken
    · cases taken
      apply consistent.withProcess
      apply seesCurrent_relinking (consistent.linked source isSource)
      intro path member unchanged
      rcases accepted_of_loadChangedState loaded with
        ⟨manifest, accepted, lengths, collected, _⟩
      rcases consistent.of_accepted accepted with ⟨other, same, knows⟩
      rw [isSource] at same
      cases same
      rcases stat_of_not_mem_changed collected lengths member unchanged
        with ⟨fast, recorded, stat⟩
      exact knows.eq_contents recorded stat

theorem Consistent.step_loadDaemon
    (taken : session.step link overlay backend command .loadDaemon = some next) :
    Consistent link command next := by
  rcases Option.map_eq_some_iff.mp taken with ⟨daemon, loaded, rfl⟩
  apply consistent.withDaemon
  intro state present
  cases present
  exact consistent.servesSource_of_load loaded

theorem Consistent.relinking {source : Path → Option (List UInt8)}
    {daemon state : DaemonState Hash} (isSource : session.source = some source)
    (present : session.daemon = some daemon)
    (reload : daemon.reloaded backend session.machine.disk session.machine.cache =
      some state) :
    Consistent link command
      { session with
        daemon := some state
        process := some (Session.relinking true source command.inputs
          (state.changedPaths session.machine.disk)) } := by
  rcases consistent.servesSource_of_reloaded present reload with ⟨other, same, serves⟩
  rw [isSource] at same
  cases same
  have linked := consistent.linked source isSource
  have served : Consistent link command { session with daemon := some state } := by
    apply consistent.withDaemon
    intro other same
    cases same
    exact ⟨source, isSource, serves⟩
  apply served.withProcess
  apply @seesCurrent_relinking _ link command
    { session with daemon := some state } true source _ linked
  intro path member unchanged
  exact serves.eq_contents linked member unchanged

theorem Consistent.step_request {requestHash : UInt64}
    (taken : session.step link overlay backend command (.request requestHash) =
      some next) :
    Consistent link command next := by
  simp only [Session.step] at taken
  split at taken
  case h_2 => cases taken
  case h_1 source daemon _ isSource present =>
    split at taken
    case h_1 state decided =>
      cases taken
      apply consistent.withDaemon
      intro other same
      cases same
      rcases DaemonState.decide_eq_fallback decided with kept | reload
      · rw [kept]
        exact consistent.daemon daemon present
      · exact consistent.servesSource_of_reloaded present reload
    case h_2 state decided =>
      cases taken
      apply consistent.withDaemon
      intro other same
      cases same
      exact consistent.servesSource_of_reloaded present
        (DaemonState.decide_eq_noChange decided).2.1
    case h_3 state changed decided =>
      cases taken
      exact consistent.relinking isSource present
        (DaemonState.decide_eq_relink decided).2.1

theorem Consistent.step_read
    (taken : session.step link overlay backend command .read = some next) :
    Consistent link command next := by
  simp only [Session.step] at taken
  split at taken
  case h_2 => cases taken
  case h_1 process present =>
    split at taken
    case h_2 => cases taken
    case h_1 path rest pending =>
      rcases Option.map_eq_some_iff.mp taken with ⟨bytes, content, rfl⟩
      apply consistent.withProcess
      exact (consistent.process process present).read pending content

theorem Consistent.step_emit
    (undisturbed : session.Undisturbed command .emit)
    (taken : session.step link overlay backend command .emit = some next) :
    Consistent link command next := by
  simp only [Session.step] at taken
  split at taken
  case h_2 => cases taken
  case h_1 process present =>
    split at taken
    case isFalse => cases taken
    case isTrue ready =>
      cases taken
      apply consistent.emitting present ready.1
      · exact undisturbed.unread process command.output present rfl
      · intro byDaemon
        exact undisturbed.settled process present byDaemon rfl

theorem Consistent.step_record {sections : List SectionRecord}
    {symbols : List CachedSymbolEntry} {frontEnd : Option (FrontEndSnapshot Hash)}
    {layout : Layout} {layoutBlob : Option (List UInt8)}
    (taken : session.step link overlay backend command
      (.record sections symbols frontEnd layout layoutBlob) = some next) :
    Consistent link command next := by
  simp only [Session.step] at taken
  split at taken
  case h_2 => cases taken
  case h_1 process present =>
    split at taken
    case isFalse => cases taken
    case isTrue emitted =>
      split at taken
      · rcases Option.map_eq_some_iff.mp taken with ⟨daemon, daemonPresent, rfl⟩
        rcases consistent.daemon daemon daemonPresent with ⟨_, _, serves⟩
        exact consistent.recorded present emitted serves.output serves.inputs none
      · cases taken
        exact consistent.recorded present emitted rfl rfl layoutBlob

omit [DecidableEq Hash] in
theorem Consistent.ended {daemon : Option (DaemonState Hash)}
    (kept : daemon = none ∨ daemon = session.daemon) :
    Consistent link command { session with process := none, daemon := daemon } := by
  apply consistent.withoutProcess.withDaemon
  intro state present
  rcases kept with none | same
  · rw [none] at present
    cases present
  · rw [same] at present
    exact consistent.daemon state present

theorem Consistent.step_giveUp
    (taken : session.step link overlay backend command .giveUp = some next) :
    Consistent link command next := by
  simp only [Session.step] at taken
  split at taken
  case h_2 => cases taken
  case h_1 =>
    split at taken
    · cases taken
    · cases taken
      exact consistent.ended (Or.inr rfl)

theorem Consistent.step_kill
    (taken : session.step link overlay backend command .kill = some next) :
    Consistent link command next := by
  simp only [Session.step] at taken
  split at taken
  case h_2 => cases taken
  case h_1 =>
    cases taken
    apply consistent.ended
    split
    · exact Or.inl rfl
    · exact Or.inr rfl

theorem Consistent.step_edit {path : Path} {bytes : List UInt8}
    (undisturbed : session.Undisturbed command (.edit path bytes))
    (taken : session.step link overlay backend command (.edit path bytes) = some next) :
    Consistent link command next := by
  simp only [Session.step] at taken
  split at taken
  case isFalse => cases taken
  case isTrue member =>
    cases taken
    apply consistent.edit bytes member
    intro process present
    exact undisturbed.unread process path present rfl

theorem Consistent.step {event : SessionEvent Hash}
    (undisturbed : session.Undisturbed command event)
    (taken : session.step link overlay backend command event = some next) :
    Consistent link command next := by
  cases event with
  | edit => exact consistent.step_edit undisturbed taken
  | startFull => exact consistent.step_startFull taken
  | startRelink => exact consistent.step_startRelink taken
  | loadDaemon => exact consistent.step_loadDaemon taken
  | request => exact consistent.step_request taken
  | read => exact consistent.step_read taken
  | emit => exact consistent.step_emit undisturbed taken
  | record => exact consistent.step_record taken
  | giveUp => exact consistent.step_giveUp taken
  | kill => exact consistent.step_kill taken

end

/-! ## Runs -/

/-- In a run in which no input is rewritten between the moment a link looks at it
and the recording of its fingerprint, and in which the daemon patches only what recorded
links left, nothing is reported as unchanged unless the output is the link of the present
inputs. -/
theorem upToDate_of_undisturbed [DecidableEq Hash]
    {events : List (SessionEvent Hash)} {session : Session Hash}
    (undisturbed : GuardedRun.Meets (Session.step link overlay backend command)
      (Session.Undisturbed command) (start Hash) events)
    (reached : GuardedRun.run (Session.step link overlay backend command) (start Hash)
      events = some session)
    (reports : session.ReportsNoChange backend command) :
    session.UpToDate link command := by
  have consistent : Consistent link command session := by
    apply GuardedRun.invariant _ consistent_start undisturbed reached
    intro state event next consistent undisturbed taken
    exact consistent.step undisturbed taken
  exact consistent.upToDate_of_reports reports

/-! ### An edit while the linker runs -/

def sampleCommand : Command := ⟨[111], [[105]], 0⟩

/-- The link that puts its inputs one after the other, behind a table of them. -/
def sampleLink (contents : List (Option (List UInt8))) : List UInt8 :=
  let joined := contents.flatMap fun content => content.getD []
  joined ++ joined

/-- The patch that leaves the table as it is. -/
def sampleOverlay (old : List UInt8) (contents : List (Option (List UInt8))) :
    List UInt8 :=
  let joined := contents.flatMap fun content => content.getD []
  old.take (old.length - joined.length) ++ joined

/-- The recording of a layout whose blob is `[1]`. -/
def sampleRecord : SessionEvent (List UInt8) :=
  .record [] [] (some ⟨0, [1], [], [[105]]⟩) {} (some [1])

def sampleRun (events : List (SessionEvent (List UInt8))) : Session (List UInt8) :=
  (GuardedRun.run (Session.step sampleLink sampleOverlay (backendOf {}) sampleCommand)
    (start _) events).getD (start _)

def savedWhileLinking : List (SessionEvent (List UInt8)) :=
  [.edit [105] [1], .startFull, .read, .edit [105] [2], .emit, sampleRecord]

theorem savedWhileLinking_not_upToDate :
    GuardedRun.run (Session.step sampleLink sampleOverlay (backendOf {}) sampleCommand)
        (start _) savedWhileLinking = some (sampleRun savedWhileLinking) ∧
      (sampleRun savedWhileLinking).ReportsNoChange (backendOf {}) sampleCommand ∧
      ¬ (sampleRun savedWhileLinking).UpToDate sampleLink sampleCommand := by
  refine ⟨rfl, Or.inl (by decide +kernel), ?_⟩
  have output : (sampleRun savedWhileLinking).machine.disk.contents
      sampleCommand.output = some [1, 1] := by decide +kernel
  have current : sampleLink (sampleCommand.inputs.map
      (sampleRun savedWhileLinking).machine.disk.contents) = [2, 2] := by
    decide +kernel
  rw [UpToDate, output, current]
  decide

/-- A link of an edited input is killed before it records; the daemon, which knows
nothing of it, patches its output. -/
def killedBeforeRecording : List (SessionEvent (List UInt8)) :=
  [.edit [105] [1], .startFull, .read, .emit, sampleRecord, .loadDaemon,
    .edit [105] [2], .startFull, .read, .emit, .kill,
    .edit [105] [1], .request 0, .read, .emit, sampleRecord]

theorem killedBeforeRecording_not_upToDate :
    GuardedRun.run (Session.step sampleLink sampleOverlay (backendOf {}) sampleCommand)
        (start _) killedBeforeRecording = some (sampleRun killedBeforeRecording) ∧
      (sampleRun killedBeforeRecording).ReportsNoChange (backendOf {}) sampleCommand ∧
      ¬ (sampleRun killedBeforeRecording).UpToDate sampleLink sampleCommand := by
  refine ⟨rfl, Or.inl (by decide +kernel), ?_⟩
  have output : (sampleRun killedBeforeRecording).machine.disk.contents
      sampleCommand.output = some [2, 1] := by decide +kernel
  have current : sampleLink (sampleCommand.inputs.map
      (sampleRun killedBeforeRecording).machine.disk.contents) = [1, 1] := by
    decide +kernel
  rw [UpToDate, output, current]
  decide

def savedAfterLinking : List (SessionEvent (List UInt8)) :=
  [.edit [105] [1], .startFull, .read, .emit, sampleRecord, .loadDaemon,
    .edit [105] [2], .request 0, .read, .emit, sampleRecord]

theorem savedAfterLinking_upToDate :
    (sampleRun savedAfterLinking).UpToDate sampleLink sampleCommand := by
  apply @upToDate_of_undisturbed _ sampleLink sampleOverlay (backendOf {}) sampleCommand _
    savedAfterLinking (sampleRun savedAfterLinking)
  · decide +kernel
  · rfl
  · exact Or.inl (by decide +kernel)

end Session

end Peony
