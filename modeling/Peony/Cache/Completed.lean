import Peony.Cache.Invocation

namespace Peony

/-! What a link leaves that nothing interrupts: its output, and a manifest by which
the gates accept the output. -/

variable {Hash : Type}

/-! ## Steps that are not refused -/

/-- The machine after all steps; `none` when one of them is refused. -/
def performAll (machine : Machine Hash) (actions : List (Action Hash)) :
    Option (Machine Hash) :=
  actions.foldlM Action.apply machine

theorem performAll_cons (machine : Machine Hash) (action : Action Hash)
    (rest : List (Action Hash)) :
    performAll machine (action :: rest) =
      (action.apply machine).bind fun next => performAll next rest :=
  List.foldlM_cons

theorem perform_append {machine middle : Machine Hash}
    {front back : List (Action Hash)} (all : performAll machine front = some middle) :
    perform machine (front ++ back) = perform middle back := by
  induction front generalizing machine with
  | nil =>
      cases all
      rfl
  | cons action rest induction =>
      rw [performAll_cons] at all
      rcases Option.bind_eq_some_iff.mp all with ⟨next, applied, later⟩
      rw [List.cons_append, perform, applied]
      exact induction later

/-! ## Emission -/

structure OutputWritten (before after : Machine Hash) (output : Path) : Prop where
  cache : after.cache = before.cache
  recordings : after.recordings = before.recordings
  file : ∀ other, other ≠ output → after.disk.file other = before.disk.file other
  present : ∃ bytes, after.disk.contents output = some bytes

theorem contents_write_self (disk : Disk) (path : Path) (bytes : List UInt8) :
    (disk.write path bytes).contents path = some bytes := by
  rw [Disk.contents, Disk.file_write_self, Option.map_some]

/-- The machine once a file is written. -/
def Machine.rewrite (machine : Machine Hash) (path : Path) (bytes : List UInt8) :
    Machine Hash :=
  { machine with disk := machine.disk.write path bytes }

theorem outputWritten_rewrite (machine : Machine Hash) (output : Path) (bytes : List UInt8) :
    OutputWritten machine (machine.rewrite output bytes) output where
  cache := rfl
  recordings := rfl
  file := fun _ different => Disk.file_write_of_ne machine.disk bytes different
  present := ⟨bytes, contents_write_self machine.disk output bytes⟩

theorem OutputWritten.trans {before middle after : Machine Hash} {output : Path}
    (first : OutputWritten before middle output) (second : OutputWritten middle after output) :
    OutputWritten before after output where
  cache := second.cache.trans first.cache
  recordings := second.recordings.trans first.recordings
  file := fun other different =>
    (second.file other different).trans (first.file other different)
  present := second.present

theorem outputWritten_of_patches {machine : Machine Hash} {output : Path}
    {bytes : List UInt8} (present : machine.disk.contents output = some bytes)
    (writes : List (Buffer.Patch UInt8)) :
    ∃ after, performAll machine (writes.map (.patch output)) = some after ∧
      OutputWritten machine after output := by
  induction writes generalizing machine bytes with
  | nil => exact ⟨machine, rfl, rfl, rfl, fun _ _ => rfl, bytes, present⟩
  | cons write rest induction =>
      have applied : Action.apply machine (.patch output write) =
          some (machine.rewrite output (Buffer.overwrite bytes write)) := by
        rw [Action.apply, present, Option.map_some, Machine.rewrite]
      have written : (machine.rewrite output (Buffer.overwrite bytes write)).disk.contents
          output = some (Buffer.overwrite bytes write) :=
        contents_write_self machine.disk output _
      rcases induction written with ⟨after, all, written⟩
      refine ⟨after, ?_, (outputWritten_rewrite machine output _).trans written⟩
      rw [List.map_cons, performAll_cons, applied, Option.bind_some, all]

theorem outputWritten_of_recreate (machine : Machine Hash) (emission : Emission)
    (output : Path) (layout : Layout) (filter : SectionWriteFilter)
    (opened : List UInt8) :
    ∃ after, performAll machine
        (emitWithFilter.recreate emission output layout filter opened) = some after ∧
      OutputWritten machine after output := by
  have cut : Action.apply machine (.truncate output) = some (machine.rewrite output []) :=
    rfl
  have content := contents_write_self machine.disk output []
  have sized : Action.apply (machine.rewrite output []) (.setLen output layout.fileSize) =
      some ((machine.rewrite output []).rewrite output (resized [] layout.fileSize)) := by
    rw [Action.apply, Machine.rewrite, content, Option.map_some, Machine.rewrite]
  have present : ((machine.rewrite output []).rewrite output
      (resized [] layout.fileSize)).disk.contents output =
        some (resized [] layout.fileSize) :=
    contents_write_self (machine.disk.write output []) output _
  rcases outputWritten_of_patches present (emission.writes filter layout opened) with
    ⟨after, all, written⟩
  refine ⟨after, ?_, ((outputWritten_rewrite machine output []).trans
    (outputWritten_rewrite _ output _)).trans written⟩
  rw [emitWithFilter.recreate, List.cons_append, List.singleton_append, performAll_cons,
    cut, Option.bind_some, performAll_cons, sized, Option.bind_some, all]

theorem outputWritten_of_emitWithFilter {machine : Machine Hash} {emission : Emission}
    {output : Path} {layout : Layout} {filter : SectionWriteFilter} {requireSize : Bool}
    {actions : List (Action Hash)}
    (emitted : emitWithFilter machine.disk emission output layout filter requireSize =
      some actions) :
    ∃ after, performAll machine actions = some after ∧
      OutputWritten machine after output := by
  simp only [emitWithFilter] at emitted
  split at emitted
  case h_1 bytes present =>
    split at emitted
    · cases emitted
      exact outputWritten_of_patches present _
    · split at emitted
      · cases emitted
      · cases emitted
        exact outputWritten_of_recreate machine emission output layout filter _
  case h_2 =>
    split at emitted
    · cases emitted
    · cases emitted
      exact outputWritten_of_recreate machine emission output layout filter _

theorem exists_emitWithFilter (disk : Disk) (emission : Emission) (output : Path)
    (layout : Layout) (filter : SectionWriteFilter) :
    ∃ actions : List (Action Hash),
      emitWithFilter disk emission output layout filter false = some actions := by
  rw [emitWithFilter]
  split
  · split
    · exact ⟨_, rfl⟩
    · exact ⟨_, rfl⟩
  · exact ⟨_, rfl⟩

theorem outputWritten_of_emitSteps [DecidableEq Hash] (machine : Machine Hash)
    (invocation : Invocation Hash)
    (reused : Option (Invocation.CachedFrontEnd Hash × List Nat)) (layout : Layout) :
    ∃ after, performAll machine
        (invocation.emitSteps machine.disk machine.cache reused layout) = some after ∧
      OutputWritten machine after invocation.output := by
  simp only [Invocation.emitSteps]
  rcases patched : Option.bind _ _ with - | actions
  · rcases exists_emitWithFilter machine.disk invocation.emission invocation.output layout
      .all with ⟨actions, full⟩
    rw [full]
    exact outputWritten_of_emitWithFilter full
  · rcases Option.bind_eq_some_iff.mp patched with ⟨red, _, emitted⟩
    exact outputWritten_of_emitWithFilter emitted

/-! ## Recording -/

theorem exists_mapM {α β : Type*} {change : α → Option β} {entries : List α}
    (all : ∀ entry ∈ entries, ∃ found, change entry = some found) :
    ∃ changed, entries.mapM change = some changed := by
  induction entries with
  | nil => exact ⟨[], rfl⟩
  | cons entry rest induction =>
      rcases all entry List.mem_cons_self with ⟨first, isFirst⟩
      rcases induction fun other later => all other (List.mem_cons_of_mem _ later) with
        ⟨others, areOthers⟩
      refine ⟨first :: others, ?_⟩
      rw [List.mapM_cons, isFirst, areOthers]
      rfl

theorem exists_makeManifest {disk : Disk} (cache : CacheStore Hash)
    {request : RecordRequest Hash}
    (inputs : ∀ path ∈ request.inputs, ∃ file, disk.file path = some file)
    (output : ∃ bytes, disk.contents request.output = some bytes) :
    ∃ manifest, makeManifest disk cache request = some manifest := by
  have seen : ∃ fastInputs, statInputs disk request.inputs = some fastInputs := by
    apply exists_mapM
    intro path member
    rcases inputs path member with ⟨file, present⟩
    exact ⟨(path, file.fast), by rw [Disk.stat, present]; rfl⟩
  rcases seen with ⟨fastInputs, areInputs⟩
  have hashed : ∃ found, recordedContents disk cache request fastInputs = some found := by
    rw [recordedContents]
    split
    · exact ⟨[], rfl⟩
    · apply exists_mapM
      intro entry member
      rcases inputs entry.1 (mem_statInputs areInputs member).1 with ⟨file, present⟩
      rw [Disk.contents, present]
      split
      · exact ⟨_, rfl⟩
      · exact ⟨_, rfl⟩
  rcases hashed with ⟨contents, areContents⟩
  rcases output with ⟨bytes, content⟩
  rcases Option.map_eq_some_iff.mp content with ⟨file, present, _⟩
  simp only [makeManifest, areInputs, areContents, Disk.stat, present, Option.map_some,
    Option.bind_eq_bind, Option.bind_some, Option.pure_def]
  exact ⟨_, rfl⟩

structure Completed (before after : Machine Hash) (request : RecordRequest Hash)
    (layoutBlob : Option (List UInt8)) : Prop where
  file : ∀ other, other ≠ request.output →
    after.disk.file other = before.disk.file other
  manifest : ∃ manifest cache,
    after.cache.manifest (cacheDir request.output) = some manifest ∧
      makeManifest after.disk cache request = some manifest
  blob : readLayoutBlob after.cache request.output =
    layoutBlob.orElse fun _ => readLayoutBlob before.cache request.output
  recording : ∃ bytes, after.lastRecording request.output =
    some ⟨request.output, bytes, request.layout⟩

theorem file_storeBlob (machine : Machine Hash) (output : Path)
    (layoutBlob : Option (List UInt8)) :
    (machine.storeBlob? output layoutBlob).disk.file = machine.disk.file := by
  cases layoutBlob with
  | none => rfl
  | some blob => rfl

theorem readLayoutBlob_storeBlob (machine : Machine Hash) (output : Path)
    (layoutBlob : Option (List UInt8)) :
    readLayoutBlob (machine.storeBlob? output layoutBlob).cache output =
      layoutBlob.orElse fun _ => readLayoutBlob machine.cache output := by
  cases layoutBlob with
  | none => rfl
  | some blob =>
      simp only [Machine.storeBlob?, Machine.storeBlob, readLayoutBlob,
        Function.update_self, Option.map_some]
      rfl

theorem completed_of_recording {before middle : Machine Hash}
    {request : RecordRequest Hash}
    (written : OutputWritten before middle request.output)
    (apart : request.output ∉ request.inputs)
    (inputs : ∀ path ∈ request.inputs, ∃ file, before.disk.file path = some file)
    (layoutBlob : Option (List UInt8)) :
    Completed before (perform middle (recordLinkWithSections request layoutBlob)) request
      layoutBlob := by
  rw [perform_recordLinkWithSections]
  have files := file_storeBlob middle request.output layoutBlob
  have blob := readLayoutBlob_storeBlob middle request.output layoutBlob
  generalize middle.storeBlob? request.output layoutBlob = stored at files blob
  have present : ∃ bytes, stored.disk.contents request.output = some bytes := by
    rcases written.present with ⟨bytes, content⟩
    exact ⟨bytes, by rw [Disk.contents, files]; exact content⟩
  have found : ∀ path ∈ request.inputs, ∃ file, stored.disk.file path = some file := by
    intro path member
    have different : path ≠ request.output := by
      intro same
      rw [same] at member
      exact apart member
    rw [files, written.file path different]
    exact inputs path member
  rcases exists_makeManifest stored.cache found present with ⟨manifest, made⟩
  rcases present with ⟨bytes, content⟩
  have applied : Action.apply stored (.writeManifest request) =
      some (stored.committed request manifest bytes) := by
    simp only [Action.apply, made, content, Option.bind_eq_bind, Option.bind_some,
      Option.pure_def]
  rw [applied, Option.getD_some]
  refine ⟨?_, ⟨manifest, stored.cache, manifest_committed_self .., made⟩, ?_,
    ⟨bytes, lastRecording_committed_self ..⟩⟩
  · intro other different
    rw [disk_committed, files, written.file other different]
  · rw [← written.cache]
    exact blob

theorem completed_fullPipeline [DecidableEq Hash] {backend : Backend Hash}
    {machine : Machine Hash} {invocation : Invocation Hash}
    {reused : Option (Invocation.CachedFrontEnd Hash × List Nat)} {linked : Linked}
    (incremental : invocation.incremental = true)
    (reuse : invocation.tryReuseLayout backend machine.disk machine.cache = reused)
    (isLinked : invocation.linked reused = .ok linked)
    (apart : invocation.output ∉ invocation.inputs)
    (inputs : ∀ path ∈ invocation.inputs, ∃ file, machine.disk.file path = some file) :
    Completed machine
      (perform machine (invocation.fullPipeline backend machine.disk machine.cache))
      { output := invocation.output
        inputs := invocation.inputs
        argsHash := invocation.argsHash
        sections := sectionRecords linked.layout
        symbols := symbolRecords linked.symbols
        frontEnd := (invocation.buildFrontEndSnapshot backend reused linked).1
        layout := linked.layout }
      (invocation.buildFrontEndSnapshot backend reused linked).2 := by
  rcases outputWritten_of_emitSteps machine invocation reused linked.layout with
    ⟨middle, all, written⟩
  simp only [Invocation.fullPipeline, reuse, isLinked, incremental, if_true]
  rw [perform_append all]
  exact completed_of_recording written apart inputs _

/-! ## Which way a link goes -/

theorem collectChanged_of_sameInputs {disk : Disk}
    {recorded : List (Path × FastFingerprint)} {inputs : List Path}
    (same : sameInputs disk recorded inputs = true) :
    collectChanged disk recorded inputs = some [] := by
  induction inputs generalizing recorded with
  | nil =>
      cases recorded with
      | nil => rfl
      | cons entry rest => rfl
  | cons path more induction =>
      cases recorded with
      | nil => rfl
      | cons entry rest =>
          simp only [sameInputs, List.length_cons, List.zip_cons_cons, List.all_cons,
            Bool.and_eq_true, beq_iff_eq, Nat.add_right_cancel_iff] at same
          rcases same with ⟨lengths, ⟨samePath, stat⟩, others⟩
          have later : sameInputs disk rest more = true := by
            rw [sameInputs, Bool.and_eq_true, beq_iff_eq]
            exact ⟨lengths, others⟩
          rw [collectChanged, if_pos samePath, stat]
          simp only [induction later, Option.map_some, if_true]

theorem tryReuse_of_changed [DecidableEq Hash] {disk : Disk} {cache : CacheStore Hash}
    {output : Path} {inputs : List Path} {argsHash : UInt64}
    {state : CachedLinkState Hash}
    (loaded : loadChangedState disk cache output inputs argsHash = some state)
    (changed : state.changedInputs ≠ []) :
    tryReuse disk cache output inputs argsHash = false := by
  cases reused : tryReuse disk cache output inputs argsHash with
  | false => rfl
  | true =>
      rcases accepted_of_tryReuse reused with ⟨manifest, accepted, _, same⟩
      rcases accepted_of_loadChangedState loaded with ⟨other, found, _, collected, _⟩
      cases accepted.recorded.symm.trans found.recorded
      rw [collectChanged_of_sameInputs same, Option.some.injEq] at collected
      exact absurd collected.symm changed

theorem steps_eq_fullPipeline [DecidableEq Hash] {backend : Backend Hash} {disk : Disk}
    {cache : CacheStore Hash} {invocation : Invocation Hash}
    (outdated : tryReuse disk cache invocation.output invocation.inputs
      invocation.argsHash = false)
    (unparsed : ∀ snapshot symbols changed,
      invocation.parsesUnchanged snapshot symbols changed = false) :
    invocation.steps backend disk cache = invocation.fullPipeline backend disk cache := by
  have slow : invocation.tryParseOnlyChanged backend disk cache = none := by
    simp [Invocation.tryParseOnlyChanged, unparsed]
  simp [Invocation.steps, outdated, slow]

/-- Without a manifest a link knows nothing of an earlier one. -/
theorem tryReuseLayout_of_no_manifest [DecidableEq Hash] {backend : Backend Hash}
    {disk : Disk} {cache : CacheStore Hash} {invocation : Invocation Hash}
    (missing : cache.manifest (cacheDir invocation.output) = none) :
    invocation.tryReuseLayout backend disk cache = none := by
  simp [Invocation.tryReuseLayout, Invocation.loadFrontEnd, loadChangedState, missing]

/-- A layout is taken over where everything is as it was recorded. -/
theorem tryReuseLayout_eq_some [DecidableEq Hash] {backend : Backend Hash} {disk : Disk}
    {cache : CacheStore Hash} {invocation : Invocation Hash} {table : SymbolTable}
    {cached : Invocation.CachedFrontEnd Hash} {changed : List Nat}
    (eligible : invocation.feEligible = true)
    (defined : invocation.link.defined = some table)
    (loaded : invocation.loadFrontEnd backend disk cache = some cached)
    (paths : cached.snapshot.objectPaths = invocation.objectPaths)
    (ids : changedObjectIds invocation.objectPaths cached.state.changedInputs =
      some changed)
    (drivers : ((invocation.link.layoutInput table).computeLayoutFingerprint changed
      (some cached.snapshot.objectDigests)).driversHash = cached.snapshot.driversHash) :
    invocation.tryReuseLayout backend disk cache = some (cached, changed) := by
  simp [Invocation.tryReuseLayout, eligible, defined, loaded, paths, ids, drivers]

/-! ## The gates afterwards -/

theorem sameInputs_of_statInputs {disk : Disk} {inputs : List Path}
    {fastInputs : List (Path × FastFingerprint)}
    (seen : statInputs disk inputs = some fastInputs) :
    sameInputs disk fastInputs inputs = true := by
  have paths := paths_of_statInputs seen
  rw [sameInputs, Bool.and_eq_true, beq_iff_eq, List.all_eq_true]
  constructor
  · rw [← paths, List.length_map]
  · intro pair zipped
    rw [← paths, List.zip_map_right] at zipped
    rcases List.mem_map.mp zipped with ⟨twice, isTwice, rfl⟩
    rcases List.mem_iff_getElem.mp isTwice with ⟨place, bound, rfl⟩
    rw [List.length_zip, Nat.min_self] at bound
    simp [(mem_statInputs seen (List.getElem_mem bound)).2]

theorem Completed.tryReuse {before after : Machine Hash} {request : RecordRequest Hash}
    {layoutBlob : Option (List UInt8)}
    (completed : Completed before after request layoutBlob) :
    tryReuse after.disk after.cache request.output request.inputs request.argsHash =
      true := by
  rcases completed.manifest with ⟨manifest, cache, found, made⟩
  rcases makeManifest_spec made with ⟨output, seen, version, args, epoch, _⟩
  simp [Peony.tryReuse, found, output, version, args, epoch,
    sameInputs_of_statInputs seen]

theorem Completed.loadChangedState {before after : Machine Hash}
    {request : RecordRequest Hash} {layoutBlob : Option (List UInt8)}
    (completed : Completed before after request layoutBlob) {disk : Disk}
    (unmodified : disk.stat request.output = after.disk.stat request.output) :
    ∃ fastInputs, statInputs after.disk request.inputs = some fastInputs ∧
      loadChangedState disk after.cache request.output request.inputs request.argsHash =
        (collectChanged disk fastInputs request.inputs).map fun changed =>
          ⟨changed, request.sections, request.symbols, request.frontEnd⟩ := by
  rcases completed.manifest with ⟨manifest, cache, found, made⟩
  rcases makeManifest_spec made with
    ⟨output, seen, version, args, _, sections, symbols, frontEnd⟩
  refine ⟨manifest.fastInputs, seen, ?_⟩
  have lengths : manifest.fastInputs.length = request.inputs.length := by
    rw [← paths_of_statInputs seen, List.length_map]
  rw [Peony.loadChangedState, found, unmodified, output]
  dsimp only
  rw [if_pos ⟨version, args, lengths⟩]
  cases collectChanged disk manifest.fastInputs request.inputs with
  | none => rfl
  | some changed =>
      dsimp only
      rw [if_pos rfl, sections, symbols, frontEnd]
      rfl

end Peony
