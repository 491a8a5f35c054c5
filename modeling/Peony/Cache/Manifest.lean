import Mathlib.Data.List.Zip
import Peony.Cache.Files
import Peony.Layout.Model

namespace Peony

/-! The cache directory of an output: the manifest, the layout blob beside it, and
the two gates that decide whether the output of an earlier link may be trusted. -/

/-! ## What a manifest holds -/

def cacheVersion : UInt32 := 7

structure SectionRecord where
  name : Name
  fingerprint : Fingerprint
  fileOffset : UInt64
  size : UInt64
  capacity : UInt64
  virtualAddress : UInt64
deriving DecidableEq, Repr

structure CachedSymbolEntry where
  name : Name
  virtualAddress : UInt64
  gotAddress : UInt64
  pltAddress : UInt64
  size : UInt64
deriving DecidableEq, Repr

/-- What a relink needs to know of the front end whose layout is in the blob. -/
structure FrontEndSnapshot (Hash : Type) where
  driversHash : UInt64
  blobHash : Hash
  objectDigests : List UInt64
  objectPaths : List Path
deriving DecidableEq, Repr

structure Manifest (Hash : Type) where
  version : UInt32
  argsHash : UInt64
  epochKey : UInt64
  inputs : List (Path × Fingerprint)
  fastInputs : List (Path × FastFingerprint)
  output : Fingerprint
  fastOutput : FastFingerprint
  sections : List SectionRecord
  symbols : List CachedSymbolEntry
  frontEnd : Option (FrontEndSnapshot Hash)
deriving DecidableEq, Repr

/-- What `load_changed_state` hands to a relink. -/
structure CachedLinkState (Hash : Type) where
  changedInputs : List Path
  sections : List SectionRecord
  symbols : List CachedSymbolEntry
  frontEnd : Option (FrontEndSnapshot Hash)
deriving DecidableEq, Repr

/-- The section records of a finished link: the patchable sections, with no
padding reserved and no content hashed. -/
def sectionRecords (layout : Layout) : List SectionRecord :=
  (layout.outputSections.filter OutputSection.isPatchable).map fun sec =>
    { name := sec.name
      fingerprint := Fingerprint.default
      fileOffset := sec.shOffset
      size := sec.shSize
      capacity := sec.shSize
      virtualAddress := sec.shAddr }

def symbolRecords (symbols : SymbolTable) : List CachedSymbolEntry :=
  symbols.resolutions.entries.filterMap fun entry =>
    if entry.2.id == SymbolId.placeholder then none
    else some
      { name := entry.1
        virtualAddress := entry.2.virtualAddress
        gotAddress := entry.2.gotAddress
        pltAddress := entry.2.pltAddress
        size := entry.2.size }

/-! ## Where the cache lies -/

def slash : UInt8 := 47

def dot : UInt8 := 46

def fileName (path : Path) : Path :=
  (path.reverse.takeWhile (· != slash)).reverse

/-- The name up to its last dot; a name whose only dot is its first byte is all
stem. -/
def fileStem (name : Path) : Path :=
  match name.reverse.dropWhile (· != dot) with
  | [] => name
  | [_] => name
  | _ :: before => before.reverse

/-- `Path::with_extension`. -/
def withExtension (path extension : Path) : Path :=
  path.take (path.length - (fileName path).length) ++
    fileStem (fileName path) ++ dot :: extension

def incrExtension : Path := [105, 110, 99, 114]

def cacheDir (output : Path) : Path := withExtension output incrExtension

/-- `app` and `app.x` have one cache directory. -/
example : cacheDir [97, 112, 112] = cacheDir [97, 112, 112, dot, 120] := by
  decide

/-- The files of the cache directories. A manifest that does not decode counts
as none. -/
structure CacheStore (Hash : Type) where
  manifest : Path → Option (Manifest Hash)
  layoutBlob : Path → Option File

def CacheStore.empty (Hash : Type) : CacheStore Hash :=
  ⟨fun _ => none, fun _ => none⟩

variable {Hash : Type}

def readLayoutBlob (cache : CacheStore Hash) (output : Path) :
    Option (List UInt8) :=
  (cache.layoutBlob (cacheDir output)).map File.bytes

/-! ## The epoch key and the argument hash -/

/-- The nanoseconds of a modification time after the epoch, 0 for one before it
and for a file without one. -/
def mtimeNanos (disk : Disk) (path : Path) : UInt64 :=
  match disk.stat path with
  | some fast =>
      let nanos := fast.mtimeSec * 1000000000 + fast.mtimeNsec
      if nanos < 0 then 0 else UInt64.ofNat nanos.toNat
  | none => 0

def computeEpochKey (disk : Disk) (inputs : List Path) (argsHash : UInt64) :
    UInt64 :=
  inputs.foldl
    (fun hash path =>
      fnvBytes (fnvBytes hash (toLeBytes (mtimeNanos disk path))) path)
    (fnvBytes fnvOffset (toLeBytes argsHash))

def hashArgs (args : List (List UInt8)) : UInt64 :=
  args.foldl (fun hash arg => fnvByte (fnvBytes hash arg) 0x1f) fnvOffset

/-! ## The gates -/

def sameInputs (disk : Disk) (recorded : List (Path × FastFingerprint))
    (inputs : List Path) : Bool :=
  recorded.length == inputs.length &&
    (recorded.zip inputs).all fun pair =>
      pair.1.1 == pair.2 && disk.stat pair.2 == some pair.1.2

def tryReuse (disk : Disk) (cache : CacheStore Hash) (output : Path)
    (inputs : List Path) (argsHash : UInt64) : Bool :=
  match cache.manifest (cacheDir output), disk.stat output with
  | some manifest, some fast =>
      manifest.version == cacheVersion && manifest.argsHash == argsHash &&
        manifest.epochKey == computeEpochKey disk inputs argsHash &&
        sameInputs disk manifest.fastInputs inputs &&
        fast == manifest.fastOutput
  | _, _ => false

/-- The inputs whose fingerprint differs from the recorded one; `none` when the
paths differ or an input is missing. -/
def collectChanged (disk : Disk) :
    List (Path × FastFingerprint) → List Path → Option (List Path)
  | recorded :: rest, current :: more =>
      if recorded.1 = current then
        match disk.stat current with
        | some fast =>
            (collectChanged disk rest more).map fun changed =>
              if fast = recorded.2 then changed else current :: changed
        | none => none
      else none
  | _, _ => some []

def loadChangedState (disk : Disk) (cache : CacheStore Hash) (output : Path)
    (inputs : List Path) (argsHash : UInt64) : Option (CachedLinkState Hash) :=
  match cache.manifest (cacheDir output), disk.stat output with
  | some manifest, some fast =>
      if manifest.version = cacheVersion ∧ manifest.argsHash = argsHash ∧
          manifest.fastInputs.length = inputs.length then
        match collectChanged disk manifest.fastInputs inputs with
        | some changed =>
            if fast = manifest.fastOutput then
              some ⟨changed, manifest.sections, manifest.symbols,
                manifest.frontEnd⟩
            else none
        | none => none
      else none
  | _, _ => none

def manifestFastInputs (cache : CacheStore Hash) (output : Path) :
    Option (List (Path × FastFingerprint)) :=
  (cache.manifest (cacheDir output)).bind fun manifest =>
    if manifest.version = cacheVersion then some manifest.fastInputs else none

/-- What passing either gate says about the output. -/
structure Accepted (disk : Disk) (cache : CacheStore Hash) (output : Path)
    (argsHash : UInt64) (manifest : Manifest Hash) : Prop where
  recorded : cache.manifest (cacheDir output) = some manifest
  version : manifest.version = cacheVersion
  args : manifest.argsHash = argsHash
  unmodified : disk.stat output = some manifest.fastOutput

theorem accepted_of_tryReuse {disk : Disk} {cache : CacheStore Hash}
    {output : Path} {inputs : List Path} {argsHash : UInt64}
    (reused : tryReuse disk cache output inputs argsHash = true) :
    ∃ manifest, Accepted disk cache output argsHash manifest ∧
      manifest.epochKey = computeEpochKey disk inputs argsHash ∧
      sameInputs disk manifest.fastInputs inputs = true := by
  rcases found : cache.manifest (cacheDir output) with - | manifest
  · simp [tryReuse, found] at reused
  rcases present : disk.stat output with - | fast
  · simp [tryReuse, found, present] at reused
  simp only [tryReuse, found, present, Bool.and_eq_true, beq_iff_eq] at reused
  rcases reused with ⟨⟨⟨⟨version, args⟩, epoch⟩, inputsSame⟩, outputSame⟩
  refine ⟨manifest, ⟨found, version, args, ?_⟩, epoch, inputsSame⟩
  rw [present, outputSame]

theorem accepted_of_loadChangedState {disk : Disk} {cache : CacheStore Hash}
    {output : Path} {inputs : List Path} {argsHash : UInt64}
    {state : CachedLinkState Hash}
    (loaded : loadChangedState disk cache output inputs argsHash = some state) :
    ∃ manifest, Accepted disk cache output argsHash manifest ∧
      manifest.fastInputs.length = inputs.length ∧
      collectChanged disk manifest.fastInputs inputs =
        some state.changedInputs ∧
      state.sections = manifest.sections ∧
      state.symbols = manifest.symbols ∧
      state.frontEnd = manifest.frontEnd := by
  rcases found : cache.manifest (cacheDir output) with - | manifest
  · simp [loadChangedState, found] at loaded
  rcases present : disk.stat output with - | fast
  · simp [loadChangedState, found, present] at loaded
  simp only [loadChangedState, found, present] at loaded
  split at loaded
  case isFalse => cases loaded
  case isTrue checks =>
    split at loaded
    case h_2 => cases loaded
    case h_1 changed collected =>
      split at loaded
      case isFalse => cases loaded
      case isTrue same =>
        cases loaded
        refine ⟨manifest, ⟨found, checks.1, checks.2.1, ?_⟩, checks.2.2,
          collected, rfl, rfl, rfl⟩
        rw [present, same]

theorem stat_of_not_mem_changed {disk : Disk}
    {recorded : List (Path × FastFingerprint)} {inputs changed : List Path}
    (collected : collectChanged disk recorded inputs = some changed)
    (lengths : recorded.length = inputs.length) {path : Path}
    (member : path ∈ inputs) (unchanged : path ∉ changed) :
    ∃ fast, (path, fast) ∈ recorded ∧ disk.stat path = some fast := by
  induction inputs generalizing recorded changed with
  | nil => cases member
  | cons current more induction =>
      rcases recorded with - | ⟨⟨recordedPath, recordedFast⟩, rest⟩
      · cases lengths
      rw [collectChanged] at collected
      split at collected
      case isFalse => cases collected
      case isTrue samePath =>
        split at collected
        case h_2 => cases collected
        case h_1 fast present =>
          rcases Option.map_eq_some_iff.mp collected with
            ⟨later, collectedLater, rfl⟩
          by_cases same : fast = recordedFast
          · simp only [same, if_true] at unchanged
            rcases List.mem_cons.mp member with rfl | member
            · refine ⟨fast, ?_, present⟩
              rw [← samePath, same]
              exact List.mem_cons_self
            · rcases induction collectedLater (Nat.succ.inj lengths) member
                unchanged with ⟨old, recordedMember, stat⟩
              exact ⟨old, List.mem_cons_of_mem _ recordedMember, stat⟩
          · simp only [same, if_false, List.mem_cons, not_or] at unchanged
            rcases List.mem_cons.mp member with rfl | member
            · exact absurd rfl unchanged.1
            · rcases induction collectedLater (Nat.succ.inj lengths) member
                unchanged.2 with ⟨old, recordedMember, stat⟩
              exact ⟨old, List.mem_cons_of_mem _ recordedMember, stat⟩

theorem paths_of_collectChanged {disk : Disk}
    {recorded : List (Path × FastFingerprint)} {inputs changed : List Path}
    (collected : collectChanged disk recorded inputs = some changed)
    (lengths : recorded.length = inputs.length) :
    recorded.map Prod.fst = inputs := by
  induction inputs generalizing recorded changed with
  | nil => rw [List.eq_nil_of_length_eq_zero lengths, List.map_nil]
  | cons current more induction =>
      rcases recorded with - | ⟨entry, rest⟩
      · cases lengths
      rw [collectChanged] at collected
      split at collected
      case isFalse => cases collected
      case isTrue samePath =>
        split at collected
        case h_2 => cases collected
        case h_1 =>
          rcases Option.map_eq_some_iff.mp collected with
            ⟨later, collectedLater, _⟩
          rw [List.map_cons, samePath,
            induction collectedLater (Nat.succ.inj lengths)]

theorem exists_mem_zip {α β : Type*} {left : List α} {right : List β}
    (lengths : left.length = right.length) {entry : α} (member : entry ∈ left) :
    ∃ partner, (entry, partner) ∈ left.zip right := by
  induction left generalizing right with
  | nil => cases member
  | cons head tail induction =>
      rcases right with - | ⟨first, rest⟩
      · cases lengths
      rcases List.mem_cons.mp member with rfl | later
      · exact ⟨first, List.mem_cons_self⟩
      · rcases induction (Nat.succ.inj lengths) later with ⟨partner, zipped⟩
        exact ⟨partner, List.mem_cons_of_mem _ zipped⟩

theorem stat_of_sameInputs {disk : Disk}
    {recorded : List (Path × FastFingerprint)} {inputs : List Path}
    (same : sameInputs disk recorded inputs = true) {path : Path}
    (member : path ∈ inputs) :
    ∃ fast, (path, fast) ∈ recorded ∧ disk.stat path = some fast := by
  simp only [sameInputs, Bool.and_eq_true, beq_iff_eq, List.all_eq_true] at same
  rcases same with ⟨lengths, equal⟩
  rcases exists_mem_zip lengths.symm member with ⟨entry, swapped⟩
  have zipped : (entry, path) ∈ recorded.zip inputs := by
    rw [← List.zip_swap]
    exact List.mem_map.mpr ⟨(path, entry), swapped, rfl⟩
  rcases equal _ zipped with ⟨samePath, stat⟩
  simp only at samePath
  refine ⟨entry.2, ?_, stat⟩
  rw [← samePath]
  exact (List.of_mem_zip zipped).1

theorem paths_of_sameInputs {disk : Disk}
    {recorded : List (Path × FastFingerprint)} {inputs : List Path}
    (same : sameInputs disk recorded inputs = true) :
    recorded.map Prod.fst = inputs := by
  simp only [sameInputs, Bool.and_eq_true, beq_iff_eq, List.all_eq_true] at same
  rcases same with ⟨lengths, equal⟩
  apply List.ext_getElem
  · rw [List.length_map, lengths]
  · intro place inLeft inRight
    rw [List.length_map] at inLeft
    have member : (recorded[place], inputs[place]) ∈ recorded.zip inputs := by
      rw [← List.getElem_zip]
      · exact List.getElem_mem _
      · rw [List.length_zip]
        omega
    rw [List.getElem_map]
    exact (equal _ member).1

end Peony
