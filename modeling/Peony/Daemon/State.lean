import Peony.Cache.Invocation

namespace Peony

/-! The resident daemon: what it keeps in memory, how it loads it from the cache,
and how it decides the answer to a request. -/

def buildCachedSymbolView (entries : List CachedSymbolEntry) : SymbolTable :=
  entries.foldl
    (fun symbols entry => symbols.insertCached entry.name
      (SymbolResolution.cachedDefined entry.virtualAddress entry.gotAddress
        entry.pltAddress entry.size))
    SymbolTable.new

structure DaemonState (Hash : Type) where
  output : Path
  inputPaths : List Path
  argsHash : UInt64
  layout : Layout
  symbols : SymbolTable
  snapshot : FrontEndSnapshot Hash
  cachedSymbols : List CachedSymbolEntry
  /-- The stat fingerprint of every input when it was last linked. -/
  inputFps : List FastFingerprint
  /-- The modification time of the layout blob when it was loaded. -/
  blobMtime : Option (Int × Int)

variable {Hash : Type}

def blobMtime (cache : CacheStore Hash) (output : Path) : Option (Int × Int) :=
  (cache.layoutBlob (cacheDir output)).map fun blob =>
    (blob.fast.mtimeSec, blob.fast.mtimeNsec)

def statOrDefault (disk : Disk) (path : Path) : FastFingerprint :=
  (disk.stat path).getD FastFingerprint.default

namespace DaemonState

/-- The resident state of a cache. The fingerprints to compare with are those the
output was last linked against, not those of the present files. -/
def load [DecidableEq Hash] (backend : Backend Hash) (disk : Disk)
    (cache : CacheStore Hash) (output : Path) (inputs : List Path)
    (argsHash : UInt64) : Option (DaemonState Hash) := do
  let cached ← loadChangedState disk cache output inputs argsHash
  let snapshot ← cached.frontEnd
  let layout ← cachedLayout backend cache output snapshot
  let baseline := (manifestFastInputs cache output).getD []
  return {
    output := output
    inputPaths := inputs
    argsHash := argsHash
    layout := layout
    symbols := buildCachedSymbolView cached.symbols
    snapshot := snapshot
    cachedSymbols := cached.symbols
    inputFps := inputs.map fun path =>
      (baseline.lookup path).getD FastFingerprint.default
    blobMtime := Peony.blobMtime cache output }

/-- Load the state anew when the layout blob was rewritten since. -/
def reloaded [DecidableEq Hash] (backend : Backend Hash) (disk : Disk)
    (cache : CacheStore Hash) (state : DaemonState Hash) :
    Option (DaemonState Hash) :=
  if Peony.blobMtime cache state.output = state.blobMtime then some state
  else load backend disk cache state.output state.inputPaths state.argsHash

/-- The inputs whose stat fingerprint is not the remembered one. -/
def changedPaths (disk : Disk) (state : DaemonState Hash) : List Path :=
  ((state.inputPaths.zip state.inputFps).filter fun input =>
    statOrDefault disk input.1 != input.2).map Prod.fst

/-- What a request comes to before anything is written, with the state that is
resident from then on. -/
inductive Decision (Hash : Type) where
  | fallback (state : DaemonState Hash)
  | noChange (state : DaemonState Hash)
  | relink (state : DaemonState Hash) (changed : List Nat)

/-- The part of `handle` up to the relink. -/
def decide [DecidableEq Hash] (backend : Backend Hash) (disk : Disk)
    (cache : CacheStore Hash) (state : DaemonState Hash)
    (requestHash : UInt64) : Decision Hash :=
  if requestHash = state.argsHash then
    match state.reloaded backend disk cache with
    | some fresh =>
        match changedObjectIds fresh.snapshot.objectPaths
            (fresh.changedPaths disk) with
        | some [] => .noChange fresh
        | some changed => .relink fresh changed
        | none => .fallback fresh
    | none => .fallback state
  else .fallback state

/-- The state after a relink: every input counts with its present fingerprint. -/
def relinked (disk : Disk) (cache : CacheStore Hash)
    (state : DaemonState Hash) : DaemonState Hash :=
  { state with
    inputFps := state.inputPaths.map (statOrDefault disk)
    blobMtime := Peony.blobMtime cache state.output }

/-- What a daemon records after a relink; the layout blob stays. -/
def recordRequest (state : DaemonState Hash) : RecordRequest Hash where
  output := state.output
  inputs := state.inputPaths
  argsHash := state.argsHash
  sections := sectionRecords state.layout
  symbols := state.cachedSymbols
  frontEnd := some state.snapshot
  layout := state.layout

/-! ## What the decisions mean -/

theorem load_spec [DecidableEq Hash] {backend : Backend Hash} {disk : Disk}
    {cache : CacheStore Hash} {output : Path} {inputs : List Path}
    {argsHash : UInt64} {state : DaemonState Hash}
    (loaded : load backend disk cache output inputs argsHash = some state) :
    state.output = output ∧ state.inputPaths = inputs ∧
      state.argsHash = argsHash ∧
      ∃ manifest, Accepted disk cache output argsHash manifest ∧
        manifest.fastInputs.map Prod.fst = inputs ∧
        state.inputFps = inputs.map fun path =>
          (manifest.fastInputs.lookup path).getD FastFingerprint.default := by
  simp only [load, Option.bind_eq_bind, Option.bind_eq_some_iff,
    Option.pure_def, Option.some.injEq] at loaded
  rcases loaded with ⟨cached, changedState, snapshot, _, layout, _, rfl⟩
  rcases accepted_of_loadChangedState changedState with
    ⟨manifest, accepted, lengths, collected, _, _, _⟩
  have baseline : manifestFastInputs cache output =
      some manifest.fastInputs := by
    simp [manifestFastInputs, accepted.recorded, accepted.version]
  refine ⟨rfl, rfl, rfl, manifest, accepted,
    paths_of_collectChanged collected lengths, ?_⟩
  simp only [baseline, Option.getD_some]

theorem changedObjectIds_eq_nil {objectPaths changed : List Path}
    (found : changedObjectIds objectPaths changed = some []) :
    changed = [] := by
  cases changed with
  | nil => rfl
  | cons path rest =>
      simp only [changedObjectIds, List.mapM_cons, Option.bind_eq_bind,
        Option.bind_eq_some_iff, Option.pure_def, Option.some.injEq] at found
      rcases found with ⟨id, _, ids, _, impossible⟩
      cases impossible

theorem decide_eq_noChange [DecidableEq Hash] {backend : Backend Hash}
    {disk : Disk} {cache : CacheStore Hash} {state fresh : DaemonState Hash}
    {requestHash : UInt64}
    (decided : state.decide backend disk cache requestHash =
      .noChange fresh) :
    requestHash = state.argsHash ∧
      state.reloaded backend disk cache = some fresh ∧
      fresh.changedPaths disk = [] := by
  simp only [decide] at decided
  split at decided
  case isFalse => cases decided
  case isTrue same =>
    split at decided
    case h_2 => cases decided
    case h_1 loaded reload =>
      split at decided
      case h_1 ids =>
        cases decided
        exact ⟨same, reload, changedObjectIds_eq_nil ids⟩
      case h_2 => cases decided
      case h_3 => cases decided

theorem decide_eq_fallback [DecidableEq Hash] {backend : Backend Hash}
    {disk : Disk} {cache : CacheStore Hash} {state after : DaemonState Hash}
    {requestHash : UInt64}
    (decided : state.decide backend disk cache requestHash =
      .fallback after) :
    after = state ∨ state.reloaded backend disk cache = some after := by
  simp only [decide] at decided
  split at decided
  case isFalse =>
    cases decided
    exact Or.inl rfl
  case isTrue =>
    split at decided
    case h_2 =>
      cases decided
      exact Or.inl rfl
    case h_1 loaded reload =>
      split at decided
      case h_1 => cases decided
      case h_2 => cases decided
      case h_3 =>
        cases decided
        exact Or.inr reload

theorem decide_eq_relink [DecidableEq Hash] {backend : Backend Hash}
    {disk : Disk} {cache : CacheStore Hash} {state fresh : DaemonState Hash}
    {requestHash : UInt64} {changed : List Nat}
    (decided : state.decide backend disk cache requestHash =
      .relink fresh changed) :
    requestHash = state.argsHash ∧
      state.reloaded backend disk cache = some fresh ∧
      changedObjectIds fresh.snapshot.objectPaths (fresh.changedPaths disk) =
        some changed := by
  simp only [decide] at decided
  split at decided
  case isFalse => cases decided
  case isTrue same =>
    split at decided
    case h_2 => cases decided
    case h_1 loaded reload =>
      split at decided
      case h_1 => cases decided
      case h_2 ids _ found =>
        cases decided
        exact ⟨same, reload, found⟩
      case h_3 => cases decided

end DaemonState

end Peony
