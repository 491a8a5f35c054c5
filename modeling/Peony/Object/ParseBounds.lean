import Peony.Foundation.Fallible
import Peony.Object.Parse

namespace Peony

/-! When a parse ends with an object whose handles are inside of their buffers, or with an
error of the reader. -/

/-! ## Buffers -/

namespace InputArena

/-- The buffer a source stands for, if there is one. -/
def buffer? (arena : InputArena) : DataSrc → Option (List UInt8)
  | .mmap file => arena.mmaps[file.toNat]?
  | .owned id => arena.owned[id.toNat]?

/-- The handle is a range of its buffer. -/
def Denotes (arena : InputArena) (handle : SectionData) : Prop :=
  ∃ buffer, arena.buffer? handle.src = some buffer ∧
    handle.off.toNat + handle.len.toNat ≤ buffer.length

def extend (arena : InputArena) (buffers : List (List UInt8)) : InputArena :=
  { arena with owned := arena.owned ++ buffers }

variable {arena : InputArena} {src : DataSrc} {buffer : List UInt8}

theorem buffer?_extend (found : arena.buffer? src = some buffer)
    (buffers : List (List UInt8)) : (arena.extend buffers).buffer? src = some buffer := by
  cases src with
  | mmap file => exact found
  | owned id =>
      rcases List.getElem?_eq_some_iff.mp found with ⟨inside, _⟩
      exact (List.getElem?_append_left inside).trans found

end InputArena

/-! ## Records of `.eh_frame` stay inside -/

theorem fromLeBytes_lt (bytes : List UInt8) : fromLeBytes bytes < 256 ^ bytes.length := by
  induction bytes with
  | nil => exact Nat.one_pos
  | cons byte rest induction =>
      have small := byte.toNat_lt
      rw [List.length_cons, Nat.pow_succ, fromLeBytes, List.foldr_cons]
      change byte.toNat + 256 * fromLeBytes rest < _
      omega

theorem readU32_lt (data : List UInt8) : readU32 data < 2 ^ 32 := by
  have short : (data.take 4).length ≤ 4 := List.length_take_le _ _
  calc readU32 data < 256 ^ (data.take 4).length := fromLeBytes_lt _
    _ ≤ 256 ^ 4 := Nat.pow_le_pow_right (by decide) short
    _ = 2 ^ 32 := rfl

section

variable {ElfError : Type} {data : List UInt8} {pos : Nat}

theorem addUsize_ok {first second : Nat} (fits : first + second < 2 ^ 64) :
    (addUsize first second : Except (ParseStop ElfError) Nat) = .ok (first + second) :=
  if_pos fits

variable (ElfError) in
theorem readU32At_ok (short : data.length < 2 ^ 63) (inside : pos + 4 ≤ data.length) :
    ∃ number < 2 ^ 32, (readU32At data pos : Except (ParseStop ElfError) Nat) = .ok number := by
  refine ⟨_, readU32_lt ((data.take (pos + 4)).drop pos), ?_⟩
  rw [readU32At, addUsize_ok (by omega), ok_bind, sliceData, if_pos ⟨by omega, inside⟩]
  rfl

variable (ElfError) in
theorem scanRecords_ok (short : data.length < 2 ^ 63) (inside : pos ≤ data.length)
    (fuel : Nat) (scan : EhFrameScan) :
    ∃ ended, (scanRecords data fuel pos scan : Except (ParseStop ElfError) EhFrameScan) =
      .ok ended := by
  induction fuel generalizing pos scan with
  | zero => exact ⟨_, rfl⟩
  | succ fuel induction =>
      rw [scanRecords, addUsize_ok (by omega), ok_bind]
      split
      · exact ⟨_, rfl⟩
      · rename_i reaches
        rcases readU32At_ok ElfError short (Nat.not_lt.mp reaches) with
          ⟨len, small, isLen⟩
        rw [isLen, ok_bind]
        split
        · exact induction (Nat.not_lt.mp reaches) _
        · split
          · exact ⟨_, rfl⟩
          · rw [addUsize_ok (by omega), ok_bind]
            split
            · exact ⟨_, rfl⟩
            · rename_i hasPtr
              rw [addUsize_ok (by omega), ok_bind]
              split
              · exact ⟨_, rfl⟩
              · rename_i hasRecord
                rcases readU32At_ok ElfError short (Nat.not_lt.mp hasPtr) with
                  ⟨ciePtr, _, isPtr⟩
                rw [isPtr, ok_bind]
                exact induction (Nat.not_lt.mp hasRecord) _

variable (ElfError) in
theorem endsWithTerminator_ok (short : data.length < 2 ^ 63) (inside : pos ≤ data.length)
    (fuel : Nat) :
    ∃ ends, (endsWithTerminator data fuel pos : Except (ParseStop ElfError) Bool) =
      .ok ends := by
  induction fuel generalizing pos with
  | zero => exact ⟨_, rfl⟩
  | succ fuel induction =>
      rw [endsWithTerminator, addUsize_ok (by omega), ok_bind]
      split
      · exact ⟨_, rfl⟩
      · rename_i reaches
        rcases readU32At_ok ElfError short (Nat.not_lt.mp reaches) with
          ⟨len, small, isLen⟩
        rw [isLen, ok_bind]
        split
        · exact ⟨_, rfl⟩
        · split
          · exact ⟨_, rfl⟩
          · rw [addUsize_ok (by omega), ok_bind]
            split
            · exact ⟨_, rfl⟩
            · rename_i hasRecord
              exact induction (Nat.not_lt.mp hasRecord)

end

/-! ## What the headers must say -/

namespace ElfSection

variable {ElfError : Type} (sec : ElfSection ElfError)

def inputName : Name := sec.nameBytes.getD []

def kind : SectionKind :=
  classifySection (normalizeDebugSectionName sec.inputName) (sec.shFlags.getD 0)

/-- Whether the bytes are those that decompression leaves. -/
def isDecompressed : Bool := isDebugSectionName sec.inputName && sec.hasCompression == some true

def decompressionFails : Bool :=
  sec.isDecompressed &&
    match sec.uncompressedData with
    | .error _ => true
    | .ok _ => false

/-- Where the bytes in the file end. -/
def fileStop : Nat :=
  let range := sec.fileRange.getD (0, 0)
  range.1.toNat + range.2.toNat

def hasFileBytes : Bool :=
  !(sec.shType == shtNobits || (sec.fileRange.getD (0, 0)).2 == 0)

/-- The section does not end the program. -/
def Passes (length : Nat) : Prop :=
  if sec.isDecompressed then ∀ bytes, sec.uncompressedData = .ok bytes → bytes.length < 2 ^ 32
  else (sec.hasFileBytes = true → sec.fileStop < 2 ^ 32) ∧
    (sec.kind = .ehFrame → sec.fileStop ≤ length)

/-- The handle has a range to stand for. One without bytes is a range of the first mapped
file. -/
def IsInside (arena : InputArena) (length : Nat) : Prop :=
  if sec.isDecompressed then True
  else if sec.hasFileBytes then sec.fileStop ≤ length
  else arena.mmaps ≠ []

end ElfSection

variable {ElfError : Type}

def reachedSections (sections : List (ElfSection ElfError)) : List (ElfSection ElfError) :=
  sections.takeWhile fun sec => !sec.decompressionFails

def AllPass (length owned : Nat) (sections : List (ElfSection ElfError)) : Prop :=
  (∀ sec ∈ reachedSections sections, sec.Passes length) ∧
    owned + (reachedSections sections).countP ElfSection.isDecompressed ≤ 2 ^ 32

/-- No section that is reached ends the program, and if all can be decompressed, each
handle has a range to stand for. -/
def ElfFile.FitsIn (elf : ElfFile ElfError) (arena : InputArena) (length : Nat) : Prop :=
  AllPass length arena.owned.length elf.sections ∧
    ((∀ sec ∈ elf.sections, sec.decompressionFails = false) →
      ∀ sec ∈ elf.sections, sec.IsInside arena length)

/-- The program goes on, and each handle of an object is a range of its buffer. -/
def ParsesSafely (arena : InputArena) :
    Except (ParseStop ElfError) (InputObject × List (List UInt8)) → Prop
  | .ok (obj, sink) => ∀ sec ∈ obj.sections, (arena.extend sink).Denotes sec.data
  | .error (.parse _ _) => True
  | .error (.fault _) => False

/-! ## One section -/

section

variable {arena : InputArena} {backing : DataSrc} {ownedBase : UInt32} {path : String}
variable {data : List UInt8} {sink : List (List UInt8)} {sec : ElfSection ElfError}

/-- Where a record of `.eh_frame` is dropped the handle is only shorter. -/
def IsShorter (shorter handle : SectionData) : Prop :=
  shorter.src = handle.src ∧ shorter.off = handle.off ∧ shorter.len ≤ handle.len

variable (ElfError) in
theorem withoutTerminator_ok (short : data.length < 2 ^ 63) {range : UInt64 × UInt64}
    (inside : range.1.toNat + range.2.toNat ≤ data.length) (handle : SectionData)
    (size : UInt64) :
    ∃ shorter rest, (withoutTerminator data range handle size :
        Except (ParseStop ElfError) (SectionData × UInt64)) = .ok (shorter, rest) ∧
      IsShorter shorter handle := by
  have stop : (range.1 + range.2).toNat = range.1.toNat + range.2.toNat := by
    rw [UInt64.toNat_add, Nat.mod_eq_of_lt (by omega)]
  let rawData := (data.take (range.1 + range.2).toNat).drop range.1.toNat
  have shortRaw : rawData.length < 2 ^ 63 := by
    have fewer := List.length_take_le (range.1 + range.2).toNat data
    have shorter : rawData.length ≤ (data.take (range.1 + range.2).toNat).length := by
      rw [List.length_drop]
      exact Nat.sub_le _ _
    have taken : (data.take (range.1 + range.2).toNat).length ≤ data.length := by
      rw [List.length_take]
      exact Nat.min_le_right _ _
    omega
  rcases scanRecords_ok ElfError shortRaw (Nat.zero_le _) rawData.length {} with
    ⟨scan, isScan⟩
  rcases endsWithTerminator_ok ElfError shortRaw (Nat.zero_le _)
    rawData.length with ⟨ends, isEnd⟩
  rw [withoutTerminator, addU64, if_pos (by omega), ok_bind, sliceData,
    if_pos ⟨by omega, by omega⟩, ok_bind, isScan, ok_bind, endsWithEhTerminator, isEnd, ok_bind]
  cases ends with
  | false => exact ⟨handle, size, rfl, rfl, rfl, UInt32.le_refl _⟩
  | true =>
      refine ⟨_, _, rfl, rfl, rfl, ?_⟩
      change (if handle.len < 4 then 0 else handle.len - 4) ≤ handle.len
      split
      · exact UInt32.zero_le
      · rename_i enough
        exact UInt32.sub_le (UInt32.not_lt.mp enough)

variable (ElfError) in
theorem withoutTerminator_fault {range : UInt64 × UInt64}
    (outside : data.length < range.1.toNat + range.2.toNat) (handle : SectionData)
    (size : UInt64) :
    ∃ fault, (withoutTerminator data range handle size :
        Except (ParseStop ElfError) (SectionData × UInt64)) = .error (.fault fault) := by
  by_cases fits : range.1.toNat + range.2.toNat < 2 ^ 64
  · have stop : (range.1 + range.2).toNat = range.1.toNat + range.2.toNat := by
      rw [UInt64.toNat_add, Nat.mod_eq_of_lt fits]
    rw [withoutTerminator, addU64, if_pos fits, ok_bind, sliceData, if_neg (by omega)]
    exact ⟨_, rfl⟩
  · rw [withoutTerminator, addU64, if_neg fits]
    exact ⟨_, rfl⟩

theorem sectionHandle_none (noBytes : sec.hasFileBytes = false) :
    sectionHandle backing ownedBase 0 path sink false sec =
      .ok (SectionData.empty, none, sink) := by
  rw [ElfSection.hasFileBytes, Bool.not_eq_false', Bool.or_eq_true, beq_iff_eq,
    beq_iff_eq] at noBytes
  rw [sectionHandle, if_neg nofun, if_pos noBytes]
  rfl

theorem sectionHandle_file (hasBytes : sec.hasFileBytes = true)
    (fits : sec.fileStop < 2 ^ 32) :
    sectionHandle backing ownedBase 0 path sink false sec =
      .ok (⟨backing, (sec.fileRange.getD (0, 0)).1.toUInt32,
        (sec.fileRange.getD (0, 0)).2.toUInt32⟩, none, sink) := by
  rw [ElfSection.hasFileBytes, Bool.not_eq_true', Bool.or_eq_false_iff, beq_eq_false_iff_ne,
    beq_eq_false_iff_ne] at hasBytes
  rw [ElfSection.fileStop] at fits
  have noOverflow : (sec.fileRange.getD (0, 0)).1.toNat +
      (sec.fileRange.getD (0, 0)).2.toNat < 2 ^ 64 := Nat.lt_trans fits (by decide)
  have stop : ((sec.fileRange.getD (0, 0)).1 + (sec.fileRange.getD (0, 0)).2).toNat =
      (sec.fileRange.getD (0, 0)).1.toNat + (sec.fileRange.getD (0, 0)).2.toNat := by
    rw [UInt64.toNat_add, Nat.mod_eq_of_lt noOverflow]
  have start : (0 : UInt64).toNat + (sec.fileRange.getD (0, 0)).1.toNat < 2 ^ 64 := by
    rw [UInt64.toNat_zero, Nat.zero_add]
    exact (sec.fileRange.getD (0, 0)).1.toNat_lt
  rw [sectionHandle, if_neg nofun, if_neg (not_or.mpr hasBytes), addU64, if_pos start, ok_bind,
    UInt64.zero_add, addU64, if_pos noOverflow, ok_bind, assertThat, if_pos (by omega)]
  rfl

theorem sectionHandle_fault (hasBytes : sec.hasFileBytes = true)
    (tooLarge : ¬ sec.fileStop < 2 ^ 32) :
    ∃ fault, sectionHandle backing ownedBase 0 path sink false sec = .error (.fault fault) := by
  rw [ElfSection.hasFileBytes, Bool.not_eq_true', Bool.or_eq_false_iff, beq_eq_false_iff_ne,
    beq_eq_false_iff_ne] at hasBytes
  rw [ElfSection.fileStop] at tooLarge
  have start : (0 : UInt64).toNat + (sec.fileRange.getD (0, 0)).1.toNat < 2 ^ 64 := by
    rw [UInt64.toNat_zero, Nat.zero_add]
    exact (sec.fileRange.getD (0, 0)).1.toNat_lt
  rw [sectionHandle, if_neg nofun, if_neg (not_or.mpr hasBytes), addU64, if_pos start, ok_bind,
    UInt64.zero_add]
  by_cases fits : (sec.fileRange.getD (0, 0)).1.toNat +
      (sec.fileRange.getD (0, 0)).2.toNat < 2 ^ 64
  · have stop : ((sec.fileRange.getD (0, 0)).1 + (sec.fileRange.getD (0, 0)).2).toNat =
        (sec.fileRange.getD (0, 0)).1.toNat + (sec.fileRange.getD (0, 0)).2.toNat := by
      rw [UInt64.toNat_add, Nat.mod_eq_of_lt fits]
    rw [addU64, if_pos fits, ok_bind, assertThat, if_neg (by omega)]
    exact ⟨_, rfl⟩
  · rw [addU64, if_neg fits]
    exact ⟨_, rfl⟩

theorem parseSection_error {stop : ParseStop ElfError}
    (isError : sectionHandle backing ownedBase 0 path sink sec.isDecompressed sec =
      .error stop) :
    parseSection backing ownedBase 0 path data sink sec = .error stop := by
  rw [ElfSection.isDecompressed, ElfSection.inputName] at isError
  rw [parseSection, isError, error_bind]

theorem parseSection_ok (short : data.length < 2 ^ 63) {handle : SectionData}
    {ownedLen : Option UInt64} {filled : List (List UInt8)}
    (isHandle : sectionHandle backing ownedBase 0 path sink sec.isDecompressed sec =
      .ok (handle, ownedLen, filled))
    (inside : sec.kind = .ehFrame → sec.fileStop ≤ data.length) :
    ∃ first, parseSection backing ownedBase 0 path data sink sec = .ok (first, filled) ∧
      IsShorter first.data handle ∧ (sec.kind ≠ .ehFrame → first.data = handle) := by
  rw [ElfSection.isDecompressed, ElfSection.inputName] at isHandle
  rw [ElfSection.kind, ElfSection.inputName, ElfSection.fileStop] at inside
  rw [parseSection, isHandle, ok_bind, ElfSection.kind, ElfSection.inputName]
  dsimp only
  by_cases isEhFrame : classifySection (normalizeDebugSectionName (sec.nameBytes.getD []))
      (sec.shFlags.getD 0) = .ehFrame
  · rcases withoutTerminator_ok ElfError short (inside isEhFrame) handle _ with
      ⟨shorter, rest, isShorter, less⟩
    rw [if_pos isEhFrame, isShorter, ok_bind]
    exact ⟨_, rfl, less, fun other => absurd isEhFrame other⟩
  · rw [if_neg isEhFrame, ok_bind]
    exact ⟨_, rfl, ⟨rfl, rfl, UInt32.le_refl _⟩, fun _ => rfl⟩

theorem parseSection_fault {handle : SectionData}
    {ownedLen : Option UInt64} {filled : List (List UInt8)}
    (isHandle : sectionHandle backing ownedBase 0 path sink sec.isDecompressed sec =
      .ok (handle, ownedLen, filled))
    (isEhFrame : sec.kind = .ehFrame) (outside : data.length < sec.fileStop) :
    ∃ fault, parseSection backing ownedBase 0 path data sink sec = .error (.fault fault) := by
  rw [ElfSection.isDecompressed, ElfSection.inputName] at isHandle
  rw [ElfSection.kind, ElfSection.inputName] at isEhFrame
  rw [ElfSection.fileStop] at outside
  rw [parseSection, isHandle, ok_bind]
  dsimp only
  rw [if_pos isEhFrame]
  rcases withoutTerminator_fault ElfError outside handle _ with ⟨fault, isFault⟩
  rw [isFault]
  exact ⟨fault, rfl⟩

/-! ## How a section ends -/

theorem eq_of_classifySection_ehFrame {name : Name} {flags : UInt64}
    (isEhFrame : classifySection name flags = .ehFrame) : name = nameOf ".eh_frame" := by
  unfold classifySection at isEhFrame
  split_ifs at isEhFrame
  all_goals rename_i isName
  all_goals exact eq_of_beq isName

theorem ElfSection.kind_of_isDecompressed (decompressed : sec.isDecompressed = true) :
    sec.kind ≠ .ehFrame := by
  intro isEhFrame
  have isDebug := (Bool.and_eq_true_iff.mp decompressed).1
  have normalized := eq_of_classifySection_ehFrame isEhFrame
  unfold normalizeDebugSectionName at normalized
  split at normalized
  · have second : (some 100 : Option UInt8) = some 101 :=
      congrArg (fun name : Name => name[1]?) normalized
    exact absurd second (by decide)
  · rw [normalized] at isDebug
    exact absurd isDebug (by decide)

/-- The section passes, and there is a number left for its decompressed bytes. -/
def ElfSection.Goes (sec : ElfSection ElfError) (length owned : Nat) : Prop :=
  sec.Passes length ∧ (sec.isDecompressed = true → owned < 2 ^ 32)

/-- How the parse of a section ends. What comes into the sink later does not matter for its
handle. -/
def SectionEnds (arena : InputArena) (length : Nat) (sink : List (List UInt8))
    (sec : ElfSection ElfError) :
    Except (ParseStop ElfError) (InputSection × List (List UInt8)) → Prop
  | .ok (first, filled) =>
      sec.decompressionFails = false ∧ sec.Goes length (arena.owned.length + sink.length) ∧
        ∃ new, filled = sink ++ new ∧ new.length = (if sec.isDecompressed then 1 else 0) ∧
          ∀ more, (arena.extend (filled ++ more)).Denotes first.data ↔
            sec.IsInside arena length
  | .error (.parse _ _) => sec.decompressionFails = true
  | .error (.fault _) =>
      sec.decompressionFails = false ∧ ¬ sec.Goes length (arena.owned.length + sink.length)

theorem denotes_decompressed (counted : ownedBase.toNat = arena.owned.length)
    (room : ownedBase.toNat + sink.length < 2 ^ 32) {bytes : List UInt8}
    (fits : bytes.length < 2 ^ 32) (more : List (List UInt8)) :
    (arena.extend (sink ++ [bytes] ++ more)).Denotes
      ⟨.owned (ownedBase + UInt32.ofNat sink.length), 0, UInt32.ofNat bytes.length⟩ := by
  have fewer : sink.length < 2 ^ 32 := by omega
  have place : (ownedBase + UInt32.ofNat sink.length).toNat =
      arena.owned.length + sink.length := by
    rw [UInt32.toNat_add, UInt32.toNat_ofNat_of_lt' fewer, Nat.mod_eq_of_lt room, counted]
  refine ⟨bytes, ?_, ?_⟩
  · change (arena.owned ++ (sink ++ [bytes] ++ more))[_]? = _
    rw [place, List.getElem?_append_right (by omega), Nat.add_sub_cancel_left,
      List.append_assoc, List.getElem?_append_right (le_refl _), Nat.sub_self]
    rfl
  · change (0 : UInt32).toNat + (UInt32.ofNat bytes.length).toNat ≤ _
    rw [UInt32.toNat_ofNat_of_lt' fits, UInt32.toNat_zero, Nat.zero_add]

theorem denotes_empty {more : List (List UInt8)} :
    (arena.extend more).Denotes SectionData.empty ↔ arena.mmaps ≠ [] := by
  have isBuffer : (arena.extend more).buffer? SectionData.empty.src = arena.mmaps[0]? := rfl
  unfold InputArena.Denotes
  rw [isBuffer]
  cases arena.mmaps with
  | nil =>
      constructor
      · rintro ⟨_, isNone, _⟩
        exact nomatch isNone
      · intro notEmpty
        exact absurd rfl notEmpty
  | cons file rest =>
      constructor
      · intro _
        exact nofun
      · intro _
        exact ⟨file, rfl, Nat.zero_le _⟩

theorem denotes_file (backed : arena.buffer? backing = some data)
    (fits : sec.fileStop < 2 ^ 32) (more : List (List UInt8)) :
    (arena.extend more).Denotes ⟨backing, (sec.fileRange.getD (0, 0)).1.toUInt32,
      (sec.fileRange.getD (0, 0)).2.toUInt32⟩ ↔ sec.fileStop ≤ data.length := by
  rw [ElfSection.fileStop] at fits ⊢
  have start : (sec.fileRange.getD (0, 0)).1.toUInt32.toNat =
      (sec.fileRange.getD (0, 0)).1.toNat := by
    rw [UInt64.toNat_toUInt32, Nat.mod_eq_of_lt (by omega)]
  have length : (sec.fileRange.getD (0, 0)).2.toUInt32.toNat =
      (sec.fileRange.getD (0, 0)).2.toNat := by
    rw [UInt64.toNat_toUInt32, Nat.mod_eq_of_lt (by omega)]
  have isBuffer := InputArena.buffer?_extend backed more
  constructor
  · rintro ⟨buffer, isData, inside⟩
    cases isBuffer.symm.trans isData
    rwa [start, length] at inside
  · intro inside
    refine ⟨data, isBuffer, ?_⟩
    rwa [start, length]

theorem IsShorter.eq_empty {handle : SectionData} (less : IsShorter handle SectionData.empty) :
    handle = SectionData.empty := by
  rcases less with ⟨src, off, len⟩
  rcases handle with ⟨handleSrc, handleOff, handleLen⟩
  have noLen : handleLen = 0 := UInt32.le_antisymm len UInt32.zero_le
  cases src
  cases off
  cases noLen
  rfl

theorem InputArena.Denotes.shorter {handle shorter : SectionData}
    (denotes : arena.Denotes handle) (less : IsShorter shorter handle) :
    arena.Denotes shorter := by
  rcases denotes with ⟨buffer, isBuffer, inside⟩
  rcases less with ⟨src, off, len⟩
  refine ⟨buffer, src ▸ isBuffer, ?_⟩
  have shorterLen := UInt32.le_iff_toNat_le.mp len
  rw [off]
  omega

theorem parseSection_ends_decompressed (short : data.length < 2 ^ 63)
    (counted : ownedBase.toNat = arena.owned.length) (fewer : sink.length < 2 ^ 32)
    (decompressed : sec.isDecompressed = true) :
    SectionEnds arena data.length sink sec
      (parseSection backing ownedBase 0 path data sink sec) := by
  have notEhFrame := sec.kind_of_isDecompressed decompressed
  have passes : sec.Passes data.length ↔
      ∀ bytes, sec.uncompressedData = .ok bytes → bytes.length < 2 ^ 32 := by
    rw [ElfSection.Passes, if_pos decompressed]
  cases isBytes : sec.uncompressedData with
  | error error =>
      have isError : sectionHandle backing ownedBase 0 path sink sec.isDecompressed sec =
          .error (.parse path error) := by
        rw [decompressed, sectionHandle, isBytes]
        rfl
      rw [parseSection_error isError, SectionEnds, ElfSection.decompressionFails,
        decompressed, isBytes]
      rfl
  | ok bytes =>
      have succeeds : sec.decompressionFails = false := by
        rw [ElfSection.decompressionFails, decompressed, isBytes]
        rfl
      have sinkCount : (UInt32.ofNat sink.length).toNat = sink.length :=
        UInt32.toNat_ofNat_of_lt' fewer
      have start {Next : Type} (next : List UInt8 → Except (ParseStop ElfError) Next) :
          (Except.mapError (ParseStop.parse path) (.ok bytes) >>= next) = next bytes := rfl
      by_cases fits : bytes.length < 2 ^ 32
      · by_cases room : ownedBase.toNat + sink.length < 2 ^ 32
        · have isHandle : sectionHandle backing ownedBase 0 path sink sec.isDecompressed sec =
              .ok (⟨.owned (ownedBase + UInt32.ofNat sink.length), 0,
                UInt32.ofNat bytes.length⟩, some (UInt64.ofNat bytes.length),
                sink ++ [bytes]) := by
            rw [decompressed, sectionHandle, if_pos rfl, isBytes, start, assertThat,
              if_pos (Nat.le_sub_one_of_lt fits), ok_bind, addU32,
              if_pos (sinkCount.symm ▸ room), ok_bind]
            rfl
          rcases parseSection_ok short isHandle fun isEhFrame =>
            absurd isEhFrame notEhFrame with ⟨first, isFirst, _, same⟩
          rw [isFirst]
          refine ⟨succeeds, ⟨passes.mpr ?_, fun _ => counted ▸ room⟩, [bytes], rfl,
            (if_pos decompressed).symm, fun more => ?_⟩
          · intro other isOther
            cases isBytes.symm.trans isOther
            exact fits
          · rw [same notEhFrame, ElfSection.IsInside, if_pos decompressed]
            exact iff_true_intro (denotes_decompressed counted room fits more)
        · have isError : sectionHandle backing ownedBase 0 path sink sec.isDecompressed sec =
              .error (.fault .overflow) := by
            rw [decompressed, sectionHandle, if_pos rfl, isBytes, start, assertThat,
              if_pos (Nat.le_sub_one_of_lt fits), ok_bind, addU32,
              if_neg (sinkCount.symm ▸ room), error_bind]
          rw [parseSection_error isError]
          exact ⟨succeeds, fun goes => room (counted ▸ goes.2 decompressed)⟩
      · have tooLong : ¬ bytes.length ≤ 2 ^ 32 - 1 := by omega
        have isError : sectionHandle backing ownedBase 0 path sink sec.isDecompressed sec =
            .error (.fault .assertionFailed) := by
          rw [decompressed, sectionHandle, if_pos rfl, isBytes, start, assertThat,
            if_neg tooLong, error_bind]
        rw [parseSection_error isError]
        exact ⟨succeeds, fun goes => fits (passes.mp goes.1 bytes isBytes)⟩

theorem succeeds_of_plain (decompressed : sec.isDecompressed = false) :
    sec.decompressionFails = false := by
  rw [ElfSection.decompressionFails, decompressed]
  rfl

theorem goes_plain_iff (decompressed : sec.isDecompressed = false) {length owned : Nat} :
    sec.Goes length owned ↔ (sec.hasFileBytes = true → sec.fileStop < 2 ^ 32) ∧
      (sec.kind = .ehFrame → sec.fileStop ≤ length) := by
  rw [ElfSection.Goes, ElfSection.Passes, decompressed, if_neg nofun]
  exact and_iff_left nofun

theorem parseSection_ends_outside (decompressed : sec.isDecompressed = false)
    {handle : SectionData} {ownedLen : Option UInt64} {filled : List (List UInt8)}
    (isHandle : sectionHandle backing ownedBase 0 path sink sec.isDecompressed sec =
      .ok (handle, ownedLen, filled))
    (outside : sec.kind = .ehFrame ∧ data.length < sec.fileStop) :
    SectionEnds arena data.length sink sec
      (parseSection backing ownedBase 0 path data sink sec) := by
  rcases parseSection_fault isHandle outside.1 outside.2 with ⟨fault, isFault⟩
  rw [isFault]
  refine ⟨succeeds_of_plain decompressed, fun passes => ?_⟩
  exact Nat.not_lt.mpr (((goes_plain_iff decompressed).mp passes).2 outside.1) outside.2

theorem parseSection_ends_none (short : data.length < 2 ^ 63)
    (decompressed : sec.isDecompressed = false) (hasBytes : sec.hasFileBytes = false) :
    SectionEnds arena data.length sink sec
      (parseSection backing ownedBase 0 path data sink sec) := by
  have isHandle : sectionHandle backing ownedBase 0 path sink sec.isDecompressed sec =
      .ok (SectionData.empty, none, sink) := by
    rw [decompressed, sectionHandle_none hasBytes]
  by_cases outside : sec.kind = .ehFrame ∧ data.length < sec.fileStop
  · exact parseSection_ends_outside decompressed isHandle outside
  · have bounded : sec.kind = .ehFrame → sec.fileStop ≤ data.length :=
      fun isEhFrame => Nat.not_lt.mp fun beyond => outside ⟨isEhFrame, beyond⟩
    rcases parseSection_ok short isHandle bounded with ⟨first, isFirst, less, _⟩
    have isEmpty : first.data = SectionData.empty := less.eq_empty
    rw [isFirst]
    have noBytes : sec.hasFileBytes = true → sec.fileStop < 2 ^ 32 := fun bytes =>
      absurd (hasBytes.symm.trans bytes) nofun
    have goes : sec.Goes data.length (arena.owned.length + sink.length) :=
      (goes_plain_iff decompressed).mpr ⟨noBytes, bounded⟩
    refine ⟨succeeds_of_plain decompressed, goes, [], (List.append_nil _).symm,
      (if_neg (by rw [decompressed]; nofun)).symm,
      fun more => ?_⟩
    rw [isEmpty, denotes_empty, ElfSection.IsInside, decompressed, hasBytes, if_neg nofun,
      if_neg nofun]

theorem parseSection_ends_file (short : data.length < 2 ^ 63)
    (backed : arena.buffer? backing = some data) (decompressed : sec.isDecompressed = false)
    (hasBytes : sec.hasFileBytes = true) :
    SectionEnds arena data.length sink sec
      (parseSection backing ownedBase 0 path data sink sec) := by
  by_cases fits : sec.fileStop < 2 ^ 32
  · have isHandle : sectionHandle backing ownedBase 0 path sink sec.isDecompressed sec =
        .ok (⟨backing, (sec.fileRange.getD (0, 0)).1.toUInt32,
          (sec.fileRange.getD (0, 0)).2.toUInt32⟩, none, sink) := by
      rw [decompressed, sectionHandle_file hasBytes fits]
    by_cases outside : sec.kind = .ehFrame ∧ data.length < sec.fileStop
    · exact parseSection_ends_outside decompressed isHandle outside
    · have bounded : sec.kind = .ehFrame → sec.fileStop ≤ data.length :=
        fun isEhFrame => Nat.not_lt.mp fun beyond => outside ⟨isEhFrame, beyond⟩
      rcases parseSection_ok short isHandle bounded with ⟨first, isFirst, less, same⟩
      rw [isFirst]
      have goes : sec.Goes data.length (arena.owned.length + sink.length) :=
        (goes_plain_iff decompressed).mpr ⟨fun _ => fits, bounded⟩
      refine ⟨succeeds_of_plain decompressed, goes, [],
        (List.append_nil _).symm, (if_neg (by rw [decompressed]; nofun)).symm,
        fun more => ?_⟩
      rw [ElfSection.IsInside, decompressed, hasBytes, if_neg nofun, if_pos rfl]
      by_cases isEhFrame : sec.kind = .ehFrame
      · have inFile := bounded isEhFrame
        have denotes := (denotes_file backed fits (sink ++ more)).mpr inFile
        exact iff_of_true (denotes.shorter less) inFile
      · rw [same isEhFrame]
        exact denotes_file backed fits _
  · rcases sectionHandle_fault hasBytes fits with ⟨fault, isFault⟩
    rw [parseSection_error (decompressed.symm ▸ isFault)]
    refine ⟨succeeds_of_plain decompressed, fun passes => fits ?_⟩
    exact ((goes_plain_iff decompressed).mp passes).1 hasBytes

theorem parseSection_ends (short : data.length < 2 ^ 63)
    (backed : arena.buffer? backing = some data) (counted : ownedBase.toNat = arena.owned.length)
    (fewer : sink.length < 2 ^ 32) :
    SectionEnds arena data.length sink sec
      (parseSection backing ownedBase 0 path data sink sec) := by
  cases decompressed : sec.isDecompressed with
  | true => exact parseSection_ends_decompressed short counted fewer decompressed
  | false =>
      cases hasBytes : sec.hasFileBytes with
      | false => exact parseSection_ends_none short decompressed hasBytes
      | true => exact parseSection_ends_file short backed decompressed hasBytes

/-! ## All sections -/

variable {rest : List (ElfSection ElfError)} {length owned : Nat}

theorem allPass_cons_failing (fails : sec.decompressionFails = true) :
    AllPass length owned (sec :: rest) ↔ owned ≤ 2 ^ 32 := by
  have none : reachedSections (sec :: rest) = [] := by
    rw [reachedSections, List.takeWhile_cons_of_neg]
    rw [fails]
    nofun
  rw [AllPass, none]
  exact and_iff_right nofun

theorem allPass_cons (succeeds : sec.decompressionFails = false) :
    AllPass length owned (sec :: rest) ↔
      sec.Goes length owned ∧
        AllPass length (owned + if sec.isDecompressed then 1 else 0) rest := by
  have first : reachedSections (sec :: rest) = sec :: reachedSections rest := by
    rw [reachedSections, List.takeWhile_cons_of_pos]
    · rfl
    · rw [succeeds]
      rfl
  rw [AllPass, first, List.forall_mem_cons, List.countP_cons, ElfSection.Goes, AllPass]
  cases sec.isDecompressed with
  | true =>
      simp only [if_true, forall_const]
      constructor
      · rintro ⟨⟨passes, others⟩, counted⟩
        exact ⟨⟨passes, by omega⟩, others, by omega⟩
      · rintro ⟨⟨passes, _⟩, others, counted⟩
        exact ⟨⟨passes, others⟩, by omega⟩
  | false =>
      simp only [Bool.false_eq_true, if_false, IsEmpty.forall_iff, and_true, Nat.add_zero,
        and_assoc]

def SectionsEnd (arena : InputArena) (length : Nat) (sink : List (List UInt8))
    (sections : List (ElfSection ElfError)) :
    Except (ParseStop ElfError) (List InputSection × List (List UInt8)) → Prop
  | .ok (parsed, filled) =>
      AllPass length (arena.owned.length + sink.length) sections ∧
        (∀ sec ∈ sections, sec.decompressionFails = false) ∧
          ∃ new, filled = sink ++ new ∧
            ∀ more, (∀ first ∈ parsed, (arena.extend (filled ++ more)).Denotes first.data) ↔
              ∀ sec ∈ sections, sec.IsInside arena length
  | .error (.parse _ _) =>
      AllPass length (arena.owned.length + sink.length) sections ∧
        ∃ sec ∈ sections, sec.decompressionFails = true
  | .error (.fault _) => ¬ AllPass length (arena.owned.length + sink.length) sections

theorem parseSections_ends (short : data.length < 2 ^ 63)
    (backed : arena.buffer? backing = some data) (counted : ownedBase.toNat = arena.owned.length)
    {sections : List (ElfSection ElfError)}
    (enough : arena.owned.length + sink.length ≤ 2 ^ 32)
    (fewer : sink.length + sections.length < 2 ^ 32) :
    SectionsEnd arena data.length sink sections
      (parseSections backing ownedBase 0 path data sink sections) := by
  induction sections generalizing sink with
  | nil =>
      refine ⟨⟨nofun, enough⟩, nofun, [], (List.append_nil _).symm, fun more => ?_⟩
      exact iff_of_true nofun nofun
  | cons sec rest induction =>
      rw [List.length_cons] at fewer
      have ends : SectionEnds arena data.length sink sec
          (parseSection backing ownedBase 0 path data sink sec) :=
        parseSection_ends short backed counted (by omega)
      rw [parseSections]
      cases isFirst : parseSection backing ownedBase 0 path data sink sec with
      | error stop =>
          rw [isFirst] at ends
          rw [error_bind]
          cases stop with
          | parse path source =>
              exact ⟨(allPass_cons_failing ends).mpr enough, sec, List.mem_cons_self, ends⟩
          | fault fault => exact fun passes => ends.2 ((allPass_cons ends.1).mp passes).1
      | ok found =>
          rcases found with ⟨first, filled⟩
          rw [isFirst] at ends
          rcases ends with ⟨succeeds, goes, new, rfl, newLength, denotes⟩
          have total : arena.owned.length + (sink ++ new).length =
              arena.owned.length + sink.length + if sec.isDecompressed then 1 else 0 := by
            rw [List.length_append, newLength, Nat.add_assoc]
          have stillEnough : arena.owned.length + (sink ++ new).length ≤ 2 ^ 32 := by
            rw [total]
            split
            · rename_i decompressed
              exact goes.2 decompressed
            · exact enough
          have stillFewer : (sink ++ new).length + rest.length < 2 ^ 32 := by
            have atMost : new.length ≤ 1 := by
              rw [newLength]
              split <;> omega
            rw [List.length_append]
            omega
          have later := induction stillEnough stillFewer
          have passes : AllPass data.length (arena.owned.length + sink.length) (sec :: rest) ↔
              AllPass data.length (arena.owned.length + (sink ++ new).length) rest := by
            rw [allPass_cons succeeds, total]
            exact and_iff_right goes
          rw [ok_bind]
          dsimp only
          cases isRest : parseSections backing ownedBase 0 path data (sink ++ new) rest with
          | error stop =>
              rw [isRest] at later
              rw [error_bind]
              cases stop with
              | parse path source =>
                  rcases later with ⟨others, failing, present, fails⟩
                  exact ⟨passes.mpr others, failing, List.mem_cons_of_mem _ present, fails⟩
              | fault fault => exact fun all => later (passes.mp all)
          | ok found =>
              rcases found with ⟨others, filled⟩
              rw [isRest] at later
              rcases later with ⟨othersPass, othersSucceed, more, rfl, othersDenote⟩
              have allSucceed : ∀ other ∈ sec :: rest, other.decompressionFails = false :=
                List.forall_mem_cons.mpr ⟨succeeds, othersSucceed⟩
              refine ⟨passes.mpr othersPass, allSucceed, new ++ more,
                List.append_assoc _ _ _, fun last => ?_⟩
              rw [List.forall_mem_cons, List.forall_mem_cons, othersDenote last,
                List.append_assoc (sink ++ new), denotes (more ++ last)]

/-! ## Objects -/

/-- A parse goes on and leaves handles that are ranges of their buffers exactly when the
headers fit. -/
theorem parseBacked_safe_iff
    {parseElf : List UInt8 → Except ElfError (ElfFile ElfError)}
    (short : data.length < 2 ^ 63) (backed : arena.buffer? backing = some data)
    (counted : ownedBase.toNat = arena.owned.length)
    (numbered : ∀ elf, parseElf data = .ok elf → elf.sections.length < 2 ^ 32) :
    ParsesSafely arena (parseBacked parseElf backing ownedBase 0 [] path data) ↔
      ∀ elf, parseElf data = .ok elf → elf.FitsIn arena data.length := by
  cases isElf : parseElf data with
  | error source =>
      rw [parseBacked, isElf]
      exact iff_of_true trivial nofun
  | ok elf =>
      have enough : arena.owned.length + ([] : List (List UInt8)).length ≤ 2 ^ 32 := by
        rw [← counted]
        exact Nat.le_of_lt ownedBase.toNat_lt
      have fewer : ([] : List (List UInt8)).length + elf.sections.length < 2 ^ 32 := by
        rw [List.length_nil, Nat.zero_add]
        exact numbered elf isElf
      have ends : SectionsEnd arena data.length [] elf.sections
          (parseSections backing ownedBase 0 path data [] elf.sections) :=
        parseSections_ends short backed counted enough fewer
      have fits : (∀ other, (.ok elf : Except ElfError _) = .ok other →
          other.FitsIn arena data.length) ↔ elf.FitsIn arena data.length := by
        constructor
        · intro all
          exact all elf rfl
        · rintro fits other ⟨⟩
          exact fits
      rw [fits, parseBacked, isElf]
      change ParsesSafely arena (parseSections backing ownedBase 0 path data [] elf.sections >>=
        _) ↔ _
      cases isSections : parseSections backing ownedBase 0 path data [] elf.sections with
      | error stop =>
          rw [isSections] at ends
          rw [error_bind]
          cases stop with
          | parse path source =>
              rcases ends with ⟨passes, failing, present, fails⟩
              refine iff_of_true trivial ⟨passes, fun succeed => ?_⟩
              exact nomatch (succeed failing present).symm.trans fails
          | fault fault => exact iff_of_false id fun fits => ends fits.1
      | ok found =>
          rcases found with ⟨parsed, filled⟩
          rw [isSections] at ends
          rcases ends with ⟨passes, succeed, _, _, denotes⟩
          have whole := denotes []
          rw [List.append_nil] at whole
          rw [ok_bind]
          change (∀ sec ∈ parsed, (arena.extend filled).Denotes sec.data) ↔ _
          rw [whole]
          constructor
          · intro inside
            exact ⟨passes, fun _ => inside⟩
          · intro fits
            exact fits.2 succeed

end

/-! ## A small file -/

/-- The bytes of an object with one section `.text`, of which the header says where it is. -/
def smallElf (offset size : UInt8) : List UInt8 :=
  let zeros (count : Nat) : List UInt8 := List.replicate count 0
  let fileHeader := [0x7f, 0x45, 0x4c, 0x46, 2, 1, 1] ++ zeros 9 ++
    [1, 0, 62, 0, 1, 0, 0, 0] ++ zeros 16 ++ 88 :: zeros 11 ++
    [64, 0, 0, 0, 0, 0, 64, 0, 3, 0, 2, 0]
  let text := [0xc3, 0x90, 0x90, 0x90]
  let names := 0 :: nameOf ".text" ++ 0 :: nameOf ".shstrtab" ++ zeros 4
  let textHeader := [1, 0, 0, 0, 1, 0, 0, 0, 6] ++ zeros 15 ++ offset :: zeros 7 ++
    size :: zeros 15 ++ 1 :: zeros 15
  let namesHeader := [7, 0, 0, 0, 3, 0, 0, 0] ++ zeros 16 ++ 68 :: zeros 7 ++ 17 :: zeros 15 ++
    1 :: zeros 15
  fileHeader ++ text ++ names ++ zeros 64 ++ textHeader ++ namesHeader

def smallElfRead (offset size : UInt8) : ElfFile Unit :=
  let range := (offset.toUInt64, size.toUInt64)
  { sections :=
      [⟨1, shtProgbits, 0, some (nameOf ".text"), some 6, some range, some false, .ok [], none,
          [], 1, size.toUInt64⟩,
        ⟨2, shtStrtab, 0, some (nameOf ".shstrtab"), some 0, some (68, 17), some false, .ok [],
          none, [], 1, 17⟩]
    symbols := []
    sectionCount := 2
    symbolCount := 0
    symbolName := fun _ => none }

theorem ElfFile.fitsIn_of_inside {elf : ElfFile ElfError} {arena : InputArena} {length : Nat}
    (short : length < 2 ^ 32) (owned : arena.owned.length = 0)
    (inside : ∀ sec ∈ elf.sections, sec.isDecompressed = false ∧ sec.hasFileBytes = true ∧
      sec.fileStop ≤ length) : elf.FitsIn arena length := by
  have reached : ∀ sec ∈ reachedSections elf.sections, sec ∈ elf.sections :=
    fun sec present => (List.takeWhile_sublist _).mem present
  have none : (reachedSections elf.sections).countP ElfSection.isDecompressed = 0 := by
    apply List.countP_eq_zero.mpr
    intro sec present
    rw [(inside sec (reached sec present)).1]
    nofun
  refine ⟨⟨?_, by rw [none, owned]; decide⟩, fun _ => ?_⟩
  · intro sec present
    rcases inside sec (reached sec present) with ⟨plain, _, stops⟩
    rw [ElfSection.Passes, plain, if_neg nofun]
    exact ⟨fun _ => Nat.lt_of_le_of_lt stops short, fun _ => stops⟩
  · intro sec present
    rcases inside sec present with ⟨plain, hasBytes, stops⟩
    rw [ElfSection.IsInside, plain, hasBytes, if_neg nofun, if_pos rfl]
    exact stops

theorem length_smallElf (offset size : UInt8) : (smallElf offset size).length = 280 := by
  have text : (nameOf ".text").length = 5 := by decide
  have names : (nameOf ".shstrtab").length = 9 := by decide
  simp only [smallElf, List.length_append, List.length_cons, List.length_replicate,
    List.length_nil, text, names]

theorem parseBacked_safe_iff_small :
    ParsesSafely ⟨[smallElf 64 4], []⟩
      (parseBacked (fun _ => .ok (smallElfRead 64 4)) (.mmap 0) 0 0 [] "small.o"
        (smallElf 64 4)) := by
  have numbered : ∀ elf, (.ok (smallElfRead 64 4) : Except Unit _) = .ok elf →
      elf.sections.length < 2 ^ 32 := by
    rintro elf ⟨⟩
    decide
  have short : (smallElf 64 4).length < 2 ^ 63 := by
    rw [length_smallElf]
    decide
  apply (parseBacked_safe_iff short rfl rfl numbered).mpr
  rintro elf ⟨⟩
  rw [length_smallElf]
  exact ElfFile.fitsIn_of_inside (by decide) rfl (by decide +kernel)

theorem ParsesSafely.denotes {arena : InputArena} {handles : List SectionData}
    {result : Except (ParseStop ElfError) (InputObject × List (List UInt8))}
    (safe : ParsesSafely arena result)
    (found : result.toOption.map (fun found => found.1.sections.map InputSection.data) =
      some handles) :
    ∃ sink, ∀ handle ∈ handles, (arena.extend sink).Denotes handle := by
  cases result with
  | error stop => exact nomatch found
  | ok parsed =>
      cases found
      refine ⟨parsed.2, fun handle present => ?_⟩
      rcases List.mem_map.mp present with ⟨sec, isSection, rfl⟩
      exact safe sec isSection

/-- The header says that 255 bytes begin at 64, where the file has 280. -/
theorem not_parsesSafely :
    (smallElf 64 255).length = 280 ∧
      (parseBacked (fun _ => .ok (smallElfRead 64 255)) (.mmap 0) 0 0 [] "small.o"
          (smallElf 64 255)).toOption.map (fun found =>
            found.1.sections.map InputSection.data) =
        some [⟨.mmap 0, 64, 255⟩, ⟨.mmap 0, 68, 17⟩] ∧
      ¬ ParsesSafely ⟨[smallElf 64 255], []⟩
        (parseBacked (fun _ => .ok (smallElfRead 64 255)) (.mmap 0) 0 0 [] "small.o"
          (smallElf 64 255)) := by
  have handles : (parseBacked (fun _ => .ok (smallElfRead 64 255)) (.mmap 0) 0 0 [] "small.o"
      (smallElf 64 255)).toOption.map (fun found =>
        found.1.sections.map InputSection.data) =
      some [⟨.mmap 0, 64, 255⟩, ⟨.mmap 0, 68, 17⟩] := by
    decide +kernel
  refine ⟨length_smallElf 64 255, handles, fun safe => ?_⟩
  rcases safe.denotes handles with ⟨sink, denotes⟩
  rcases denotes _ List.mem_cons_self with ⟨buffer, isBuffer, inside⟩
  cases isBuffer
  rw [length_smallElf] at inside
  exact absurd inside (by decide)

end Peony
