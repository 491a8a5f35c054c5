import Peony.Cache.Record
import Peony.Driver.Link
import Peony.Emit.Filter
import Peony.Layout.Fingerprint

namespace Peony

/-! One invocation of the linker, as the steps it takes on the disk. What the rest
of the linker computes from the inputs is part of the invocation; which path it
takes is decided here, from the cache and the disk, as the driver does. -/

/-! ## Emission -/

/-- The writes of the phases of an emission. The bytes the map had when it was
opened are an argument where a phase reads the image. -/
structure Emission where
  headers : Layout → List (Buffer.Patch UInt8)
  sectionData : SectionWriteFilter → Layout → List (Buffer.Patch UInt8)
  tlsGot : Layout → List (Buffer.Patch UInt8)
  ehFrameHdr : SectionWriteFilter → Layout → List UInt8 →
    List (Buffer.Patch UInt8)
  sectionHeaders : Layout → List (Buffer.Patch UInt8)
  buildId : SectionWriteFilter → Layout → List UInt8 →
    List (Buffer.Patch UInt8)

def Emission.writes (emission : Emission) (filter : SectionWriteFilter)
    (layout : Layout) (opened : List UInt8) : List (Buffer.Patch UInt8) :=
  (if filter.isMinimal then [] else emission.headers layout) ++
    emission.sectionData filter layout ++
    (if filter.isMinimal then [] else emission.tlsGot layout) ++
    emission.ehFrameHdr filter layout opened ++
    (if filter.isMinimal then [] else emission.sectionHeaders layout) ++
    emission.buildId filter layout opened

/-- The steps of `emit_with_filter`; `none` when it declines because the output
does not have the size of the layout. -/
def emitWithFilter {Hash : Type} (disk : Disk) (emission : Emission)
    (output : Path) (layout : Layout) (filter : SectionWriteFilter)
    (requireExistingSize : Bool) : Option (List (Action Hash)) :=
  match disk.contents output with
  | some bytes =>
      if bytes.length = layout.fileSize then
        some ((emission.writes filter layout bytes).map (.patch output))
      else if requireExistingSize then none
      else some (recreate (List.replicate layout.fileSize 0))
  | none =>
      if requireExistingSize then none
      else some (recreate (List.replicate layout.fileSize 0))
where
  recreate (opened : List UInt8) : List (Action Hash) :=
    [.truncate output, .setLen output layout.fileSize] ++
      (emission.writes filter layout opened).map (.patch output)

/-! ## The layout blob -/

/-- The serializer of a layout and the hash of its bytes. No two blobs have one hash,
and a blob that decodes is the encoding of what it decodes to. -/
structure Backend (Hash : Type) where
  serializeLayout : Layout → List UInt8
  deserializeLayout : List UInt8 → Option Layout
  blobHash : List UInt8 → Hash
  decoded : ∀ layout found,
    deserializeLayout (serializeLayout layout) = some found → found = layout
  blobHash_injective : Function.Injective blobHash

/-! ## The invocation -/

structure Invocation (Hash : Type) where
  link : Link
  /-- The resolved inputs, in their order. -/
  inputs : List Path
  /-- Whether each changed object parses, has its recorded digest, and has only
  simple relocations against symbols of the cached view. -/
  parsesUnchanged : FrontEndSnapshot Hash → List CachedSymbolEntry →
    List Nat → Bool
  /-- The red sections of an accepted patch plan. -/
  planPartialRelink : CachedLinkState Hash → Layout → Bool →
    Option (List Name)
  emission : Emission

variable {Hash : Type} [DecidableEq Hash] (backend : Backend Hash)

def cachedLayout (cache : CacheStore Hash) (output : Path)
    (snapshot : FrontEndSnapshot Hash) : Option Layout := do
  let blob ← readLayoutBlob cache output
  if backend.blobHash blob = snapshot.blobHash then
    backend.deserializeLayout blob
  else none

def changedObjectIds (objectPaths changed : List Path) : Option (List Nat) :=
  changed.mapM fun path => objectPaths.idxOf? path

namespace Invocation

def output (invocation : Invocation Hash) : Path := invocation.link.args.output

def argsHash (invocation : Invocation Hash) : UInt64 :=
  hashArgs ((cacheKeyArgs invocation.link.args.rawArgs).map encodeUtf8)

def incremental (invocation : Invocation Hash) : Bool := invocation.link.args.incremental

def feEligible (invocation : Invocation Hash) : Bool :=
  invocation.incremental && !invocation.link.args.gcSections && !invocation.link.args.icf

def objectPaths (invocation : Invocation Hash) : List Path :=
  invocation.link.objects.map fun obj => nameOf obj.path

structure CachedFrontEnd (Hash : Type) where
  state : CachedLinkState Hash
  snapshot : FrontEndSnapshot Hash
  layout : Layout

def loadFrontEnd (disk : Disk) (cache : CacheStore Hash)
    (invocation : Invocation Hash) : Option (CachedFrontEnd Hash) := do
  let state ← loadChangedState disk cache invocation.output
    invocation.inputs invocation.argsHash
  let snapshot ← state.frontEnd
  let layout ← cachedLayout backend cache invocation.output snapshot
  return ⟨state, snapshot, layout⟩

def tryParseOnlyChanged (disk : Disk) (cache : CacheStore Hash)
    (invocation : Invocation Hash) : Option (List (Action Hash)) := do
  let cached ← loadFrontEnd backend disk cache invocation
  let changed ← changedObjectIds cached.snapshot.objectPaths
    cached.state.changedInputs
  if cached.state.changedInputs.isEmpty ||
      !invocation.parsesUnchanged cached.snapshot cached.state.symbols changed
  then none
  else do
    let writes ← emitWithFilter disk invocation.emission invocation.output
      cached.layout (.changedObjects changed) true
    return writes ++ recordLinkWithSections
      { output := invocation.output
        inputs := invocation.inputs
        argsHash := invocation.argsHash
        sections := sectionRecords cached.layout
        symbols := cached.state.symbols
        frontEnd := some cached.snapshot
        layout := cached.layout } none

/-- The cached layout with its snapshot and the ids of the changed objects, when
the current front end has the recorded object set and drivers. -/
def tryReuseLayout (disk : Disk) (cache : CacheStore Hash)
    (invocation : Invocation Hash) :
    Option (CachedFrontEnd Hash × List Nat) := do
  guard invocation.feEligible
  let table ← invocation.link.defined
  let cached ← loadFrontEnd backend disk cache invocation
  guard (cached.snapshot.objectPaths = invocation.objectPaths)
  let changed ← changedObjectIds invocation.objectPaths cached.state.changedInputs
  guard (((invocation.link.layoutInput table).computeLayoutFingerprint changed
    (some cached.snapshot.objectDigests)).driversHash = cached.snapshot.driversHash)
  return (cached, changed)

def linked (invocation : Invocation Hash)
    (reused : Option (CachedFrontEnd Hash × List Nat)) : Except LinkError Linked :=
  match reused with
  | some (cached, _) => invocation.link.reuse cached.layout
  | none => invocation.link.run

def buildFrontEndSnapshot (invocation : Invocation Hash)
    (reused : Option (CachedFrontEnd Hash × List Nat)) (linked : Linked) :
    Option (FrontEndSnapshot Hash) × Option (List UInt8) :=
  if invocation.feEligible then
    match reused with
    | some (cached, _) => (some cached.snapshot, none)
    | none =>
        let fingerprint :=
          (invocation.link.layoutInput linked.symbols).computeLayoutFingerprint [] none
        let blob := backend.serializeLayout linked.layout
        (some
          { driversHash := fingerprint.driversHash
            blobHash := backend.blobHash blob
            objectDigests := fingerprint.objectDigests
            objectPaths := invocation.objectPaths },
          some blob)
  else (none, none)

/-- The steps of the emission: a patch when there is a plan and the output has
the size of the layout, and otherwise everything. -/
def emitSteps (disk : Disk) (cache : CacheStore Hash)
    (invocation : Invocation Hash)
    (reused : Option (CachedFrontEnd Hash × List Nat)) (layout : Layout) :
    List (Action Hash) :=
  let plan :=
    if invocation.incremental then
      (loadChangedState disk cache invocation.output invocation.inputs
        invocation.argsHash).bind fun state =>
          invocation.planPartialRelink state layout reused.isSome
    else none
  let patched := plan.bind fun red =>
    emitWithFilter disk invocation.emission invocation.output layout
      (match reused with
        | some (_, changed) => .changedObjects changed
        | none => .redOnly red) true
  let full := emitWithFilter disk invocation.emission invocation.output layout
    .all false
  (patched.orElse fun _ => full).getD []

/-- The whole pipeline, from the layout on. A link that fails takes no step. -/
def fullPipeline (disk : Disk) (cache : CacheStore Hash)
    (invocation : Invocation Hash) : List (Action Hash) :=
  let reused := tryReuseLayout backend disk cache invocation
  match invocation.linked reused with
  | .error _ => []
  | .ok linked =>
      let (snapshot, blob) := invocation.buildFrontEndSnapshot backend reused linked
      emitSteps disk cache invocation reused linked.layout ++
        if invocation.incremental then
          recordLinkWithSections
            { output := invocation.output
              inputs := invocation.inputs
              argsHash := invocation.argsHash
              sections := sectionRecords linked.layout
              symbols := symbolRecords linked.symbols
              frontEnd := snapshot
              layout := linked.layout } blob
        else []

def steps (disk : Disk) (cache : CacheStore Hash)
    (invocation : Invocation Hash) : List (Action Hash) :=
  if invocation.incremental &&
      tryReuse disk cache invocation.output invocation.inputs
        invocation.argsHash then []
  else
    let fast :=
      if invocation.feEligible then
        tryParseOnlyChanged backend disk cache invocation
      else none
    fast.getD (fullPipeline backend disk cache invocation)

end Invocation

/-! ### A backend for samples -/

def backendOf (known : Layout) : Backend (List UInt8) where
  serializeLayout := fun layout => if layout = known then [1] else []
  deserializeLayout := fun blob => if blob = [1] then some known else none
  blobHash := id
  decoded := by
    intro layout found decoded
    by_cases isKnown : layout = known
    · simp only [isKnown, if_true, Option.some.injEq] at decoded
      rw [← decoded, isKnown]
    · simp [isKnown] at decoded
  blobHash_injective := Function.injective_id

end Peony
