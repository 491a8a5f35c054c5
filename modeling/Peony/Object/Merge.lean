import Peony.Foundation.Batches
import Peony.Foundation.Fallible
import Peony.Object.ParseBounds

namespace Peony

/-! Objects that are parsed one after the other into one arena, or all on their own and
merged into the arena in their order. -/

structure BareFile where
  fileId : UInt32
  path : String
  data : List UInt8
deriving DecidableEq

/-- An object and the buffers that were decompressed for it. -/
abbrev ParsedBare := InputObject × List (List UInt8)

section

variable {ElfError : Type} (parseElf : List UInt8 → Except ElfError (ElfFile ElfError))

/-- The buffers go to the end of the arena. The names are interned, which leaves them as
they are. -/
def parseBytesInto (arena : InputArena) (file : BareFile) :
    Except (ParseStop ElfError) (InputArena × InputObject) := do
  let (obj, sink) ← parseBacked parseElf (.mmap file.fileId) (UInt32.ofNat arena.owned.length)
    0 [] file.path file.data
  return (arena.extend sink, obj)

def parseBareParallel (ownedBase : UInt32) (file : BareFile) :
    Except (ParseStop ElfError) ParsedBare :=
  parseBacked parseElf (.mmap file.fileId) ownedBase 0 [] file.path file.data

/-! ## Merging -/

def rebaseHandle (base : UInt32) (handle : SectionData) :
    Except (ParseStop ElfError) SectionData :=
  match handle.src with
  | .owned i => do
      let id ← addU32 base i
      return { handle with src := .owned id }
  | .mmap _ => return handle

def rebaseSection (base : UInt32) (sec : InputSection) :
    Except (ParseStop ElfError) InputSection := do
  let data ← rebaseHandle base sec.data
  return { sec with data := data }

/-- The handles of an object without buffers of its own are left as they are. -/
def mergeParsedOwned (arena : InputArena) (parsed : ParsedBare) :
    Except (ParseStop ElfError) (InputArena × InputObject) :=
  if parsed.2.isEmpty then .ok (arena, parsed.1)
  else do
    let sections ← parsed.1.sections.mapM
      (rebaseSection (UInt32.ofNat arena.owned.length))
    return (arena.extend parsed.2, { parsed.1 with sections := sections })

/-- Take the items in their order, each with the arena that the ones before it leave. -/
def loadEach {Item : Type}
    (load : InputArena → Item → Except (ParseStop ElfError) (InputArena × InputObject)) :
    InputArena → List Item → Except (ParseStop ElfError) (InputArena × List InputObject)
  | arena, [] => .ok (arena, [])
  | arena, item :: rest => do
      let (next, obj) ← load arena item
      let (last, others) ← loadEach load next rest
      return (last, obj :: others)

/-! ## The two ways -/

def loadSerial (arena : InputArena) (files : List BareFile) :
    Except (ParseStop ElfError) (InputArena × List InputObject) :=
  loadEach (parseBytesInto parseElf) arena files

/-- A worker parses one file and leaves the result at the place of the file. -/
def parseTask (task : BareFile × Nat) (slots : List (Option ParsedBare)) :
    Except (ParseStop ElfError) (List (Option ParsedBare)) := do
  let parsed ← parseBareParallel parseElf 0 task.1
  return slots.set task.2 (some parsed)

def parseWorkers (files : List BareFile) (batches : List (List (BareFile × Nat)))
    (schedule : List Nat) :
    Batches.Progress (BareFile × Nat) (List (Option ParsedBare)) (ParseStop ElfError) :=
  (Batches.Progress.start (List.replicate files.length none) batches).run
    (parseTask parseElf) schedule

def loadParallel (arena : InputArena) (files : List BareFile)
    (batches : List (List (BareFile × Nat))) (schedule : List Nat) :
    Except (ParseStop ElfError) (InputArena × List InputObject) := do
  let slots ← (parseWorkers parseElf files batches schedule).outcome
  loadEach mergeParsedOwned arena slots.reduceOption

end

/-! ## Rebased handles -/

section

variable {ElfError : Type} {base : UInt32} {handle shifted : SectionData}

theorem addU32_zero (id : UInt32) :
    (addU32 0 id : Except (ParseStop ElfError) UInt32) = .ok id := by
  have fits : (0 : UInt32).toNat + id.toNat < 2 ^ 32 := by
    rw [show (0 : UInt32).toNat = 0 from rfl, Nat.zero_add]
    exact id.toNat_lt
  rw [addU32, if_pos fits, UInt32.zero_add]

theorem rebaseHandle_withLen (len : UInt32) :
    (rebaseHandle base { handle with len := len } : Except (ParseStop ElfError) SectionData) =
      (rebaseHandle base handle).map fun moved => { moved with len := len } := by
  rcases handle with ⟨src, off, oldLen⟩
  cases src with
  | mmap file => rfl
  | owned i =>
      rw [rebaseHandle, rebaseHandle]
      dsimp only
      cases (addU32 base i : Except (ParseStop ElfError) UInt32) with
      | error stop => rfl
      | ok id => rfl

theorem len_of_rebaseHandle
    (moved : (rebaseHandle base handle : Except (ParseStop ElfError) SectionData) =
      .ok shifted) : shifted.len = handle.len := by
  rw [rebaseHandle] at moved
  cases src : handle.src with
  | mmap file =>
      rw [src] at moved
      cases moved
      rfl
  | owned i =>
      rw [src] at moved
      rcases bind_ok moved with ⟨id, _, isShifted⟩
      cases isShifted
      rfl

end

/-! ## Parsing with another base -/

section

variable {ElfError : Type} {file base : UInt32} {path : String} {data : List UInt8}
variable {sink next : List (List UInt8)} {sec : ElfSection ElfError}

theorem sectionHandle_rebase {isCompressed : Bool} {shifted : SectionData}
    {ownedLen : Option UInt64} :
    sectionHandle (.mmap file) base 0 path sink isCompressed sec = .ok (shifted, ownedLen, next) ↔
      ∃ handle, sectionHandle (.mmap file) 0 0 path sink isCompressed sec =
          .ok (handle, ownedLen, next) ∧
        (rebaseHandle base handle : Except (ParseStop ElfError) SectionData) = .ok shifted := by
  rw [sectionHandle, sectionHandle]
  split
  · simp only [bind_ok_iff, addU32_zero]
    constructor
    · rintro ⟨bytes, isBytes, done, isShort, id, isId, isResult⟩
      cases isResult
      refine ⟨_, ⟨bytes, isBytes, done, isShort, _, rfl, rfl⟩, ?_⟩
      rw [rebaseHandle]
      dsimp only
      rw [isId]
      rfl
    · rintro ⟨handle, ⟨bytes, isBytes, done, isShort, id, isId, isResult⟩, moved⟩
      cases isId
      cases isResult
      rw [rebaseHandle] at moved
      rcases bind_ok moved with ⟨id, isId, isShifted⟩
      cases isShifted
      exact ⟨bytes, isBytes, done, isShort, id, isId, rfl⟩
  · split
    · constructor
      · intro isResult
        cases isResult
        exact ⟨_, rfl, rfl⟩
      · rintro ⟨handle, isResult, moved⟩
        cases isResult
        cases moved
        rfl
    · simp only [bind_ok_iff]
      constructor
      · rintro ⟨absOff, isOff, stop, isStop, done, isShort, isResult⟩
        cases isResult
        exact ⟨_, ⟨absOff, isOff, stop, isStop, done, isShort, rfl⟩, rfl⟩
      · rintro ⟨handle, ⟨absOff, isOff, stop, isStop, done, isShort, isResult⟩, moved⟩
        cases isResult
        cases moved
        exact ⟨absOff, isOff, stop, isStop, done, isShort, rfl⟩

/-- Leaving out the terminator changes the length alone. -/
theorem withoutTerminator_rebase {range : UInt64 × UInt64} {handle moved shifted : SectionData}
    {size shorter : UInt64}
    (isMoved : (rebaseHandle base handle : Except (ParseStop ElfError) SectionData) = .ok moved) :
    withoutTerminator data range moved size = (.ok (shifted, shorter) :
        Except (ParseStop ElfError) (SectionData × UInt64)) ↔
      ∃ kept, withoutTerminator data range handle size = (.ok (kept, shorter) :
          Except (ParseStop ElfError) (SectionData × UInt64)) ∧
        (rebaseHandle base kept : Except (ParseStop ElfError) SectionData) = .ok shifted := by
  have sameLen := len_of_rebaseHandle isMoved
  simp only [withoutTerminator, bind_ok_iff]
  constructor
  · rintro ⟨stop, isStop, rawData, isRaw, scan, isScan, ends, isEnds, isResult⟩
    cases ends with
    | true =>
        cases isResult
        refine ⟨_, ⟨stop, isStop, rawData, isRaw, scan, isScan, true, isEnds, rfl⟩, ?_⟩
        rw [rebaseHandle_withLen, isMoved, sameLen]
        rfl
    | false =>
        cases isResult
        exact ⟨_, ⟨stop, isStop, rawData, isRaw, scan, isScan, false, isEnds, rfl⟩, isMoved⟩
  · rintro ⟨kept, ⟨stop, isStop, rawData, isRaw, scan, isScan, ends, isEnds, isResult⟩, isShifted⟩
    refine ⟨stop, isStop, rawData, isRaw, scan, isScan, ends, isEnds, ?_⟩
    cases ends with
    | true =>
        cases isResult
        rw [rebaseHandle_withLen, isMoved] at isShifted
        cases isShifted
        rw [sameLen]
        rfl
    | false =>
        cases isResult
        rw [isMoved] at isShifted
        cases isShifted
        rfl

/-- So does leaving it out of frames alone. -/
theorem trimmed_rebase {isFrame : Prop} [Decidable isFrame] {range : UInt64 × UInt64}
    {handle moved shifted : SectionData} {size shorter : UInt64}
    (isMoved : (rebaseHandle base handle : Except (ParseStop ElfError) SectionData) = .ok moved) :
    (if isFrame then withoutTerminator data range moved size else .ok (moved, size)) =
        (.ok (shifted, shorter) : Except (ParseStop ElfError) (SectionData × UInt64)) ↔
      ∃ kept, (if isFrame then withoutTerminator data range handle size
          else .ok (handle, size)) =
          (.ok (kept, shorter) : Except (ParseStop ElfError) (SectionData × UInt64)) ∧
        (rebaseHandle base kept : Except (ParseStop ElfError) SectionData) = .ok shifted := by
  split
  · exact withoutTerminator_rebase isMoved
  · constructor
    · intro isResult
      cases isResult
      exact ⟨handle, rfl, isMoved⟩
    · rintro ⟨kept, isResult, isShifted⟩
      cases isResult
      rw [isMoved] at isShifted
      cases isShifted
      rfl

theorem exists_len_of_trimmed {isFrame : Prop} [Decidable isFrame] {range : UInt64 × UInt64}
    {handle kept : SectionData} {size shorter : UInt64}
    (isKept : (if isFrame then withoutTerminator data range handle size
      else .ok (handle, size)) =
        (.ok (kept, shorter) : Except (ParseStop ElfError) (SectionData × UInt64))) :
    ∃ len, kept = { handle with len := len } := by
  split at isKept
  · simp only [withoutTerminator, bind_ok_iff] at isKept
    rcases isKept with ⟨_, _, _, _, _, _, ends, _, isResult⟩
    cases ends with
    | true =>
        cases isResult
        exact ⟨_, rfl⟩
    | false =>
        cases isResult
        exact ⟨_, rfl⟩
  · cases isKept
    exact ⟨_, rfl⟩

theorem exists_moved_of_withLen {handle shifted : SectionData} {len : UInt32}
    (isShifted : (rebaseHandle base { handle with len := len } :
      Except (ParseStop ElfError) SectionData) = .ok shifted) :
    ∃ moved, (rebaseHandle base handle : Except (ParseStop ElfError) SectionData) =
      .ok moved := by
  rw [rebaseHandle_withLen] at isShifted
  cases isMoved : (rebaseHandle base handle : Except (ParseStop ElfError) SectionData) with
  | error stop =>
      rw [isMoved] at isShifted
      exact nomatch isShifted
  | ok moved => exact ⟨moved, rfl⟩

theorem rebaseSection_ok {sec shifted : InputSection} :
    (rebaseSection base sec : Except (ParseStop ElfError) InputSection) = .ok shifted ↔
      ∃ handle, (rebaseHandle base sec.data : Except (ParseStop ElfError) SectionData) =
        .ok handle ∧ { sec with data := handle } = shifted := by
  rw [rebaseSection, bind_ok_iff]
  constructor
  · rintro ⟨handle, isHandle, isResult⟩
    cases isResult
    exact ⟨handle, isHandle, rfl⟩
  · rintro ⟨handle, isHandle, rfl⟩
    exact ⟨handle, isHandle, rfl⟩

theorem parseSection_rebase {shifted : InputSection} :
    parseSection (.mmap file) base 0 path data sink sec = .ok (shifted, next) ↔
      ∃ own, parseSection (.mmap file) 0 0 path data sink sec = .ok (own, next) ∧
        (rebaseSection base own : Except (ParseStop ElfError) InputSection) = .ok shifted := by
  rw [parseSection, parseSection]
  simp only [bind_ok_iff, rebaseSection_ok, Prod.exists]
  constructor
  · rintro ⟨moved, ownedLen, between, isHandle, last, size, isTrimmed, isResult⟩
    rcases sectionHandle_rebase.mp isHandle with ⟨handle, isOwn, isMoved⟩
    rcases (trimmed_rebase isMoved).mp isTrimmed with ⟨kept, isKept, isLast⟩
    cases isResult
    exact ⟨_, ⟨handle, ownedLen, _, isOwn, kept, size, isKept, rfl⟩, last, isLast, rfl⟩
  · rintro ⟨own, ⟨handle, ownedLen, between, isOwn, kept, size, isKept, isResult⟩, last,
      isLast, rfl⟩
    cases isResult
    rcases exists_len_of_trimmed isKept with ⟨len, rfl⟩
    rcases exists_moved_of_withLen isLast with ⟨moved, isMoved⟩
    have isShifted := sectionHandle_rebase.mpr ⟨handle, isOwn, isMoved⟩
    exact ⟨moved, ownedLen, _, isShifted, last, size,
      (trimmed_rebase isMoved).mpr ⟨_, isKept, isLast⟩, rfl⟩

theorem parseSections_rebase {secs : List (ElfSection ElfError)}
    {shifted : List InputSection} :
    parseSections (.mmap file) base 0 path data sink secs = .ok (shifted, next) ↔
      ∃ own, parseSections (.mmap file) 0 0 path data sink secs = .ok (own, next) ∧
        (own.mapM (rebaseSection base) : Except (ParseStop ElfError) (List InputSection)) =
          .ok shifted := by
  induction secs generalizing sink shifted with
  | nil =>
      constructor
      · intro isResult
        cases isResult
        exact ⟨[], rfl, rfl⟩
      · rintro ⟨own, isResult, isShifted⟩
        cases isResult
        cases isShifted
        rfl
  | cons sec rest induction =>
      rw [parseSections, parseSections]
      simp only [bind_ok_iff, Prod.exists]
      constructor
      · rintro ⟨first, between, isSection, others, last, areOthers, isResult⟩
        rcases parseSection_rebase.mp isSection with ⟨own, isOwn, isFirst⟩
        cases isResult
        rcases induction.mp areOthers with ⟨kept, isKept, isOthers⟩
        refine ⟨_, ⟨own, between, isOwn, kept, _, isKept, rfl⟩, ?_⟩
        rw [List.mapM_cons, isFirst]
        change (kept.mapM (rebaseSection base) >>= fun later => _) = _
        rw [isOthers]
        rfl
      · rintro ⟨_, ⟨own, between, isOwn, kept, last, isKept, isResult⟩, isShifted⟩
        cases isResult
        rw [List.mapM_cons] at isShifted
        rcases bind_ok isShifted with ⟨first, isFirst, later⟩
        rcases bind_ok later with ⟨others, isOthers, isList⟩
        cases isList
        exact ⟨first, between, parseSection_rebase.mpr ⟨own, isOwn, isFirst⟩, others, _,
          induction.mpr ⟨kept, isKept, isOthers⟩, rfl⟩

theorem index_of_rebaseSections {own shifted : List InputSection}
    (isShifted : (own.mapM (rebaseSection base) :
      Except (ParseStop ElfError) (List InputSection)) = .ok shifted) :
    (shifted.map fun sec => sec.index) = own.map fun sec => sec.index := by
  induction own generalizing shifted with
  | nil =>
      cases isShifted
      rfl
  | cons sec rest induction =>
      rw [List.mapM_cons] at isShifted
      rcases bind_ok isShifted with ⟨first, isFirst, later⟩
      rcases bind_ok later with ⟨others, isOthers, isList⟩
      cases isList
      rcases rebaseSection_ok.mp isFirst with ⟨handle, _, rfl⟩
      rw [List.map_cons, List.map_cons, induction isOthers]

variable {parseElf : List UInt8 → Except ElfError (ElfFile ElfError)} {bytes : List UInt8}

theorem parseBacked_rebase {shifted : InputObject} :
    parseBacked parseElf (.mmap file) base 0 sink path bytes = .ok (shifted, next) ↔
      ∃ own, parseBacked parseElf (.mmap file) 0 0 sink path bytes = .ok (own, next) ∧
        ∃ sections, (own.sections.mapM (rebaseSection base) :
            Except (ParseStop ElfError) (List InputSection)) = .ok sections ∧
          { own with sections := sections } = shifted := by
  rw [parseBacked, parseBacked]
  simp only [bind_ok_iff, Prod.exists]
  constructor
  · rintro ⟨elf, isElf, sections, last, areSections, isResult⟩
    rcases parseSections_rebase.mp areSections with ⟨own, isOwn, isShifted⟩
    cases isResult
    refine ⟨_, ⟨elf, isElf, own, _, isOwn, rfl⟩, sections, isShifted, ?_⟩
    rw [InputObject.assemble, InputObject.assemble, index_of_rebaseSections isShifted]
  · rintro ⟨_, ⟨elf, isElf, own, last, isOwn, isResult⟩, sections, isShifted, rfl⟩
    cases isResult
    refine ⟨elf, isElf, sections, _, parseSections_rebase.mpr ⟨own, isOwn, isShifted⟩, ?_⟩
    rw [InputObject.assemble, InputObject.assemble, index_of_rebaseSections isShifted]
    rfl

/-! ## Objects without buffers of their own -/

theorem sectionHandle_cases {isCompressed : Bool} {handle : SectionData}
    {ownedLen : Option UInt64}
    (isHandle : sectionHandle (.mmap file) base 0 path sink isCompressed sec =
      .ok (handle, ownedLen, next)) :
    (next = sink ∧ ∃ source, handle.src = .mmap source) ∨ next.length = sink.length + 1 := by
  rw [sectionHandle] at isHandle
  split at isHandle
  · simp only [bind_ok_iff] at isHandle
    rcases isHandle with ⟨bytes, _, _, _, id, _, isResult⟩
    cases isResult
    exact .inr List.length_append
  · split at isHandle
    · cases isHandle
      exact .inl ⟨rfl, 0, rfl⟩
    · simp only [bind_ok_iff] at isHandle
      rcases isHandle with ⟨absOff, _, stop, _, _, _, isResult⟩
      cases isResult
      exact .inl ⟨rfl, file, rfl⟩

theorem parseSection_cases {own : InputSection}
    (isOwn : parseSection (.mmap file) base 0 path data sink sec = .ok (own, next)) :
    (next = sink ∧ ∃ source, own.data.src = .mmap source) ∨
      next.length = sink.length + 1 := by
  rw [parseSection] at isOwn
  simp only [bind_ok_iff, Prod.exists] at isOwn
  rcases isOwn with ⟨handle, ownedLen, between, isHandle, kept, size, isKept, isResult⟩
  cases isResult
  rcases exists_len_of_trimmed isKept with ⟨len, rfl⟩
  have backed := sectionHandle_cases isHandle
  exact backed

/-- Without a new buffer all handles are of bytes in files. -/
theorem parseSections_mapped {secs : List (ElfSection ElfError)} {own : List InputSection}
    (areOwn : parseSections (.mmap file) base 0 path data sink secs = .ok (own, next)) :
    sink.length ≤ next.length ∧ (next.length = sink.length →
      ∀ sec ∈ own, ∃ source, sec.data.src = .mmap source) := by
  induction secs generalizing sink own with
  | nil =>
      cases areOwn
      exact ⟨Nat.le_refl _, fun _ sec absent => absurd absent List.not_mem_nil⟩
  | cons sec rest induction =>
      rw [parseSections] at areOwn
      simp only [bind_ok_iff, Prod.exists] at areOwn
      rcases areOwn with ⟨first, between, isFirst, others, last, areOthers, isResult⟩
      cases isResult
      rcases induction areOthers with ⟨grows, mapped⟩
      rcases parseSection_cases isFirst with ⟨rfl, isMapped⟩ | isLonger
      · exact ⟨grows, fun same => List.forall_mem_cons.mpr ⟨isMapped, mapped same⟩⟩
      · refine ⟨by omega, fun same => ?_⟩
        omega

theorem rebaseSections_mapped {own : List InputSection}
    (mapped : ∀ sec ∈ own, ∃ source, sec.data.src = .mmap source) :
    (own.mapM (rebaseSection base) : Except (ParseStop ElfError) (List InputSection)) =
      .ok own := by
  induction own with
  | nil => rfl
  | cons sec rest induction =>
      rcases mapped sec List.mem_cons_self with ⟨source, isMapped⟩
      have unmoved : (rebaseSection base sec : Except (ParseStop ElfError) InputSection) =
          .ok sec := by
        rw [rebaseSection, rebaseHandle, isMapped]
        rfl
      rw [List.mapM_cons, unmoved, ok_bind,
        induction fun other present => mapped other (List.mem_cons_of_mem _ present), ok_bind]
      rfl

theorem parseBacked_mapped {own : InputObject}
    (isOwn : parseBacked parseElf (.mmap file) base 0 [] path bytes = .ok (own, [])) :
    ∀ sec ∈ own.sections, ∃ source, sec.data.src = .mmap source := by
  rw [parseBacked] at isOwn
  simp only [bind_ok_iff, Prod.exists] at isOwn
  rcases isOwn with ⟨elf, _, sections, last, areOwn, isResult⟩
  cases isResult
  exact (parseSections_mapped areOwn).2 rfl

theorem InputArena.extend_nil (arena : InputArena) : arena.extend [] = arena := by
  rw [extend, List.append_nil]

/-! ## One file -/

variable {arena last : InputArena} {item : BareFile} {obj : InputObject}

theorem parseBytesInto_iff :
    parseBytesInto parseElf arena item = .ok (last, obj) ↔
      ∃ parsed, parseBareParallel parseElf 0 item = .ok parsed ∧
        (mergeParsedOwned arena parsed : Except (ParseStop ElfError) (InputArena × InputObject)) =
          .ok (last, obj) := by
  rw [parseBytesInto]
  simp only [bind_ok_iff, Prod.exists, parseBareParallel]
  constructor
  · rintro ⟨shifted, sink, isParsed, isResult⟩
    rcases parseBacked_rebase.mp isParsed with ⟨own, isOwn, sections, isShifted, rfl⟩
    cases isResult
    refine ⟨own, sink, isOwn, ?_⟩
    rw [mergeParsedOwned]
    split
    · rename_i isEmpty
      cases List.isEmpty_iff.mp isEmpty
      rw [rebaseSections_mapped (parseBacked_mapped isOwn)] at isShifted
      cases isShifted
      rw [InputArena.extend_nil]
    · rw [isShifted]
      rfl
  · rintro ⟨own, sink, isOwn, isMerged⟩
    rw [mergeParsedOwned] at isMerged
    split at isMerged
    · rename_i isEmpty
      cases List.isEmpty_iff.mp isEmpty
      cases isMerged
      refine ⟨own, [], parseBacked_rebase.mpr ⟨own, isOwn, own.sections,
        rebaseSections_mapped (parseBacked_mapped isOwn), rfl⟩, ?_⟩
      rw [InputArena.extend_nil]
      rfl
    · rcases bind_ok isMerged with ⟨sections, isShifted, isResult⟩
      cases isResult
      exact ⟨_, sink, parseBacked_rebase.mpr ⟨own, isOwn, sections, isShifted, rfl⟩, rfl⟩

/-! ## All files -/

variable {result : InputArena × List InputObject}

theorem loadSerial_iff {files : List BareFile} :
    loadSerial parseElf arena files = .ok result ↔
      ∃ parsed, files.mapM (parseBareParallel parseElf 0) = .ok parsed ∧
        (loadEach mergeParsedOwned arena parsed :
          Except (ParseStop ElfError) (InputArena × List InputObject)) = .ok result := by
  induction files generalizing arena result with
  | nil =>
      constructor
      · intro isResult
        exact ⟨[], rfl, isResult⟩
      · rintro ⟨parsed, isParsed, isResult⟩
        cases isParsed
        exact isResult
  | cons item rest induction =>
      rw [loadSerial, loadEach, List.mapM_cons]
      simp only [bind_ok_iff, Prod.exists]
      constructor
      · rintro ⟨next, obj, isFirst, last, others, areOthers, isResult⟩
        rcases parseBytesInto_iff.mp isFirst with ⟨own, isOwn, isMerged⟩
        rcases induction.mp areOthers with ⟨parsed, areParsed, areMerged⟩
        refine ⟨own :: parsed, ⟨own.1, own.2, isOwn, parsed, areParsed, rfl⟩, ?_⟩
        rw [loadEach, isMerged, ok_bind]
        dsimp only
        rw [areMerged]
        exact isResult
      · rintro ⟨_, ⟨own, sink, isOwn, parsed, areParsed, isList⟩, isResult⟩
        cases isList
        rw [loadEach] at isResult
        rcases bind_ok isResult with ⟨⟨next, obj⟩, isMerged, later⟩
        rcases bind_ok later with ⟨⟨last, others⟩, areMerged, isLast⟩
        exact ⟨next, obj, parseBytesInto_iff.mpr ⟨_, isOwn, isMerged⟩, last, others,
          induction.mpr ⟨parsed, areParsed, areMerged⟩, isLast⟩

/-! ## The workers -/

variable (parseElf) in
theorem independent_parseTask (files : List BareFile) :
    Batches.Independent (parseTask parseElf) (fun _ => True)
      (fun task => (parseBareParallel parseElf 0 task.1).map fun parsed slots =>
        slots.set task.2 (some parsed)) files.zipIdx where
  works task _ slots _ := by
    rw [parseTask]
    cases parseBareParallel parseElf 0 task.1 with
    | error stop => rfl
    | ok parsed => rfl
  keeps _ _ _ _ _ _ := trivial
  commutes := by
    have distinct : (files.zipIdx.map Prod.snd).Nodup := by
      rw [List.zipIdx_map_snd]
      exact List.nodup_range'
    refine (List.pairwise_map.mp distinct).imp ?_
    intro first second different change other isChange isOther slots _
    cases parsedFirst : parseBareParallel parseElf 0 first.1 with
    | error stop =>
        rw [parsedFirst] at isChange
        exact nomatch isChange
    | ok own =>
        rw [parsedFirst] at isChange
        cases isChange
        cases parsedSecond : parseBareParallel parseElf 0 second.1 with
        | error stop =>
            rw [parsedSecond] at isOther
            exact nomatch isOther
        | ok parsed =>
            rw [parsedSecond] at isOther
            cases isOther
            exact List.set_comm _ _ different

theorem inOrder_parseTask {files : List BareFile} {front slots : List (Option ParsedBare)} :
    Batches.inOrder (parseTask parseElf) (files.zipIdx front.length)
        (front ++ List.replicate files.length none) = .ok slots ↔
      ∃ parsed, files.mapM (parseBareParallel parseElf 0) = .ok parsed ∧
        front ++ parsed.map some = slots := by
  induction files generalizing front with
  | nil =>
      rw [List.zipIdx_nil, Batches.inOrder_nil, List.length_nil, List.replicate_zero]
      constructor
      · intro isSlots
        cases isSlots
        exact ⟨[], rfl, rfl⟩
      · rintro ⟨parsed, isParsed, rfl⟩
        cases isParsed
        rfl
  | cons item rest induction =>
      rw [List.zipIdx_cons, Batches.inOrder_cons, parseTask, List.mapM_cons]
      cases isFirst : parseBareParallel parseElf 0 item with
      | error stop =>
          rw [error_bind, error_bind, error_bind]
          exact ⟨nofun, fun ⟨_, isParsed, _⟩ => nomatch isParsed⟩
      | ok own =>
          have filled : (front ++ List.replicate (item :: rest).length none).set front.length
              (some own) = (front ++ [some own]) ++ List.replicate rest.length none := by
            rw [List.set_append_right _ _ (Nat.le_refl _), Nat.sub_self, List.length_cons,
              List.replicate_succ, List.set_cons_zero, List.append_assoc, List.singleton_append]
          have later := @induction (front ++ [some own])
          rw [List.length_append, List.length_singleton] at later
          rw [ok_bind, ok_bind]
          dsimp only
          rw [pure_bind, filled, later]
          simp only [bind_ok_iff]
          constructor
          · rintro ⟨parsed, areParsed, rfl⟩
            exact ⟨own :: parsed, ⟨parsed, areParsed, rfl⟩,
              by rw [List.map_cons, List.append_assoc, List.singleton_append]⟩
          · rintro ⟨_, ⟨parsed, areParsed, isList⟩, rfl⟩
            cases isList
            exact ⟨parsed, areParsed,
              by rw [List.map_cons, List.append_assoc, List.singleton_append]⟩

end

theorem reduceOption_some {Item : Type} (items : List Item) :
    (items.map some).reduceOption = items := by
  change (items.map some).filterMap id = items
  rw [List.filterMap_map]
  exact List.filterMap_some

/-- Whatever workers parse the files, and in whatever order, merging the results in the
order of the files ends with the arena and the objects that parsing one file after the
other ends with, or fails when that fails. -/
theorem loadParallel_iff_loadSerial {ElfError : Type}
    (parseElf : List UInt8 → Except ElfError (ElfFile ElfError)) (arena : InputArena)
    (files : List BareFile) {batches : List (List (BareFile × Nat))}
    (same : batches.flatten.Perm files.zipIdx) {schedule : List Nat}
    (finished : (parseWorkers parseElf files batches schedule).IsFinished)
    (result : InputArena × List InputObject) :
    loadParallel parseElf arena files batches schedule = .ok result ↔
      loadSerial parseElf arena files = .ok result := by
  have places (slots : List (Option ParsedBare)) :
      (parseWorkers parseElf files batches schedule).outcome = .ok slots ↔
        ∃ parsed, files.mapM (parseBareParallel parseElf 0) = .ok parsed ∧
          parsed.map some = slots :=
    (Batches.outcome_ok_iff (independent_parseTask parseElf files) trivial same finished
      slots).trans (@inOrder_parseTask _ _ files [] slots)
  rw [loadParallel, bind_ok_iff, loadSerial_iff]
  constructor
  · rintro ⟨slots, isSlots, isMerged⟩
    rcases (places slots).mp isSlots with ⟨parsed, areParsed, rfl⟩
    rw [reduceOption_some] at isMerged
    exact ⟨parsed, areParsed, isMerged⟩
  · rintro ⟨parsed, areParsed, isMerged⟩
    refine ⟨parsed.map some, (places _).mpr ⟨parsed, areParsed, rfl⟩, ?_⟩
    rw [reduceOption_some]
    exact isMerged

/-! ## Two files -/

/-- The bytes of an object with the compressed section `.debug_str`. -/
def compressedElf (text checksum : List UInt8) : List UInt8 :=
  let zeros (count : Nat) : List UInt8 := List.replicate count 0
  let fileHeader := [0x7f, 0x45, 0x4c, 0x46, 2, 1, 1] ++ zeros 9 ++
    [1, 0, 62, 0, 1, 0, 0, 0] ++ zeros 16 ++ 128 :: zeros 11 ++
    [64, 0, 0, 0, 0, 0, 64, 0, 3, 0, 2, 0]
  let compressed := [1, 0, 0, 0, 0, 0, 0, 0, 4] ++ zeros 7 ++ 1 :: zeros 7 ++
    [0x78, 1, 1, 4, 0, 0xfb, 0xff] ++ text ++ checksum
  let names := 0 :: nameOf ".debug_str" ++ 0 :: nameOf ".shstrtab" ++ zeros 4
  let textHeader := [1, 0, 0, 0, 1, 0, 0, 0, 0, 8] ++ zeros 14 ++ 64 :: zeros 7 ++
    39 :: zeros 15 ++ 1 :: zeros 15
  let namesHeader := [12, 0, 0, 0, 3, 0, 0, 0] ++ zeros 16 ++ 103 :: zeros 7 ++
    22 :: zeros 15 ++ 1 :: zeros 15
  fileHeader ++ compressed ++ names ++ zeros 64 ++ textHeader ++ namesHeader

/-- What the reader returns of such an object. The text is stored behind the headers of
the file, of the section and of the compressed bytes. -/
def readCompressed (data : List UInt8) : Except Unit (ElfFile Unit) :=
  .ok {
    sections :=
      [⟨1, shtProgbits, 0, some (nameOf ".debug_str"), some 0x800, some (64, 39), some true,
          .ok ((data.drop 95).take 4), none, [], 1, 39⟩,
        ⟨2, shtStrtab, 0, some (nameOf ".shstrtab"), some 0, some (103, 22), some false, .ok [],
          none, [], 1, 22⟩]
    symbols := []
    sectionCount := 2
    symbolCount := 0
    symbolName := fun _ => none }

def compressedFiles : List BareFile :=
  [⟨0, "a.o", compressedElf [0x6f, 0x6e, 0x65, 0] [3, 212, 1, 67]⟩,
    ⟨1, "b.o", compressedElf [0x74, 0x77, 0x6f, 0] [4, 23, 1, 91]⟩]

/-- The second file is parsed first, and the arena has a buffer before. -/
theorem loadParallel_iff_loadSerial_two :
    ∃ result, loadParallel readCompressed
        ⟨compressedFiles.map BareFile.data, [[0x2f]]⟩ compressedFiles
        (compressedFiles.zipIdx.reverse.map fun task => [task]) [0, 1] = .ok result ∧
      result.1.owned = [[0x2f], [0x6f, 0x6e, 0x65, 0], [0x74, 0x77, 0x6f, 0]] ∧
      result.2.map (fun obj => obj.sections.map InputSection.data) =
        [[⟨.owned 1, 0, 4⟩, ⟨.mmap 0, 103, 22⟩], [⟨.owned 2, 0, 4⟩, ⟨.mmap 1, 103, 22⟩]] := by
  have serial : (loadSerial readCompressed ⟨compressedFiles.map BareFile.data, [[0x2f]]⟩
      compressedFiles).toOption.map (fun result => (result.1.owned,
        result.2.map fun obj => obj.sections.map InputSection.data)) =
      some ([[0x2f], [0x6f, 0x6e, 0x65, 0], [0x74, 0x77, 0x6f, 0]],
        [[⟨.owned 1, 0, 4⟩, ⟨.mmap 0, 103, 22⟩], [⟨.owned 2, 0, 4⟩, ⟨.mmap 1, 103, 22⟩]]) := by
    decide +kernel
  cases isLoaded : loadSerial readCompressed ⟨compressedFiles.map BareFile.data, [[0x2f]]⟩
      compressedFiles with
  | error stop =>
      rw [isLoaded] at serial
      exact nomatch serial
  | ok result =>
      rw [isLoaded] at serial
      rcases Prod.mk.inj (Option.some.inj serial) with ⟨isOwned, areHandles⟩
      have opposite : (compressedFiles.zipIdx.reverse.map fun task => [task]).flatten.Perm
          compressedFiles.zipIdx := List.Perm.swap _ _ _
      refine ⟨result, (loadParallel_iff_loadSerial readCompressed _ compressedFiles opposite
        ?_ result).mpr isLoaded, isOwned, areHandles⟩
      intro batch present
      have both : batch ∈ [[], []] := present
      simpa using both

end Peony
