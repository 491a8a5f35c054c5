import Peony.Emit.Dispatch
import Peony.Reloc.Decode

namespace Peony

/-! A relocation reads and writes within its footprint, so that relocations whose
footprints lie apart can be applied in either order. -/

open InPlace (Window Within)

namespace Patching

variable {window : Window} {off : UInt64} {rType : UInt32} {object : String}

/-- The bytes of a slice lie in the window. -/
structure Holds (window : Window) (start len : Nat) : Prop where
  above : window.start ≤ start
  below : start + len ≤ window.start + window.len

theorem Holds.narrow {window : Window} {start len : Nat} (held : Holds window start len)
    (place width : Nat) (within : place + width ≤ len) :
    Holds window (start + place) width :=
  ⟨Nat.le_trans held.above (Nat.le_add_right _ _), by have := held.below; omega⟩

theorem within_copyFromSlice {data : List UInt8}
    (held : Holds window off.toNat data.length) : Within window (copyFromSlice off data) := by
  refine Within.read List.length
    (fun length => if off.toNat + data.length ≤ length then InPlace.write ⟨off.toNat, data⟩
      else throw RelocFault.panic) (fun buf other agree => agree.length) fun length => ?_
  split
  · exact Within.write held.above held.below
  · exact Within.throw _

theorem length_of_checkedI32Bytes {val : Int64} {relocOff : UInt64} {bytes : List UInt8}
    (checked : checkedI32Bytes val rType object relocOff = .ok bytes) :
    bytes.length = 4 := by
  rw [checkedI32Bytes] at checked
  split at checked
  · cases checked
    exact length_le32 _
  · cases checked

theorem within_writeI32 {val : Int64} {relocOff : UInt64}
    (held : Holds window off.toNat 4) :
    Within window (writeI32 off val rType object relocOff) := by
  refine Within.attempt_bind fun bytes checked => within_copyFromSlice ?_
  rw [length_of_checkedI32Bytes checked]
  exact held

theorem within_writeField {field : Field} (held : Holds window off.toNat field.width) :
    Within window (writeField field off rType object) := by
  cases field with
  | u64 val =>
      refine within_copyFromSlice ?_
      rw [toLeBytes, List.length_map, List.length_range]
      exact held
  | i32 val => exact within_writeI32 held
  | u32 val =>
      simp only [writeField, writeU32]
      split
      · exact Within.throw _
      · exact within_copyFromSlice (by rw [length_le32]; exact held)
  | u16 val =>
      simp only [writeField, writeU16]
      split
      · exact Within.throw _
      · exact within_copyFromSlice (by rw [length_le16]; exact held)
  | u8 val =>
      simp only [writeField, writeU8]
      split
      · exact Within.throw _
      · exact within_copyFromSlice held

theorem within_reaching {start len : UInt64} {first : Patching Unit}
    (isFirst : Within window first) :
    Within window (do
      let buf ← get
      if reaches buf start len then first) := by
  refine Within.read (fun buf => reaches buf start len)
    (fun isReached => if isReached then first else pure ()) ?_ fun isReached => ?_
  · intro buf other agree
    rw [reaches, reaches, agree.length]
  · cases isReached with
    | true => exact isFirst
    | false => exact Within.pure _

theorem within_hasPrologue {start : UInt64} {bytes : List UInt8}
    (held : Holds window start.toNat bytes.length) :
    Within window (hasPrologue start bytes) := by
  refine Within.read
    (fun buf => (buf.length, (buf.drop start.toNat).take bytes.length))
    (fun seen => if start.toNat + bytes.length ≤ seen.1 then pure (seen.2 == bytes)
      else throw RelocFault.panic) ?_ fun seen => ?_
  · intro buf other agree
    rw [agree.length, agree.slice held.above held.below]
  · split
    · exact Within.pure _
    · exact Within.throw _

theorem within_guarded {start len : UInt64} {bytes : List UInt8} {first : Patching Unit}
    (held : Holds window start.toNat bytes.length) (isFirst : Within window first) :
    Within window (do
      let buf ← get
      if reaches buf start len then
        if ← hasPrologue start bytes then first) := by
  refine within_reaching (Within.bind (within_hasPrologue held) fun found => ?_)
  cases found with
  | true => exact isFirst
  | false => exact Within.pure _

/-! ## The sequences -/

theorem within_relaxGd {tail : List UInt8} {displacement : Int64}
    (three : tail.length = 3) (held : Holds window (off - 4).toNat 16)
    (unwrapped : (off - 4).toNat + 16 < 18446744073709551616) :
    Within window (relaxGd off tail displacement rType object) := by
  have last : (off - 4 + 12).toNat = (off - 4).toNat + 12 := by
    rw [UInt64.toNat_add]
    exact Nat.mod_eq_of_lt
      (Nat.lt_of_le_of_lt (Nat.add_le_add_left (by decide) _) unwrapped)
  have front : Holds window (off - 4).toNat [(0x66 : UInt8), 0x48, 0x8d].length :=
    held.narrow 0 3 (by omega)
  refine within_guarded front (Within.attempt_bind fun bytes checked => ?_)
  refine Within.bind (within_copyFromSlice ?_) fun _ => within_copyFromSlice ?_
  · simp only [movThreadPointer, List.length_append, List.length_cons, List.length_nil,
      three]
    exact held
  · rw [length_of_checkedI32Bytes checked, last]
    exact held.narrow 12 4 (by omega)

theorem within_relaxLdToLe {addrs : RelocAddrs}
    (held : Holds window (addrs.offset - 3).toNat 12) :
    Within window (relaxLdToLe addrs) :=
  within_reaching (within_copyFromSlice held)

/-- The descriptor and the displacement behind its first three bytes. -/
theorem within_relaxDesc {place : UInt64} {data : List UInt8} {val : Int64}
    (held : Holds window (off - 3).toNat 7) (isField : off.toNat = (off - 3).toNat + 3)
    (isWritten : Holds window place.toNat data.length) :
    Within window (do
      let buf ← get
      if reaches buf (off - 3) 7 then
        if ← hasPrologue (off - 3) [0x48, 0x8d] then
          copyFromSlice place data
          writeI32 off val rType object off) := by
  have front : Holds window (off - 3).toNat [(0x48 : UInt8), 0x8d].length :=
    held.narrow 0 2 (by omega)
  refine within_guarded front (Within.bind (within_copyFromSlice isWritten) fun _ => ?_)
  refine within_writeI32 ?_
  rw [isField]
  exact held.narrow 3 4 (by omega)

theorem within_relaxDescToIe {addrs : RelocAddrs}
    (held : Holds window (addrs.offset - 3).toNat 7)
    (isField : addrs.offset.toNat = (addrs.offset - 3).toNat + 3)
    (unwrapped : (addrs.offset - 3).toNat + 7 < 18446744073709551616) :
    Within window (relaxDescToIe addrs rType object) := by
  refine within_relaxDesc held isField ?_
  have opcode : (addrs.offset - 3 + 1).toNat = (addrs.offset - 3).toNat + 1 := by
    rw [UInt64.toNat_add]
    exact Nat.mod_eq_of_lt
      (Nat.lt_of_le_of_lt (Nat.add_le_add_left (by decide) _) unwrapped)
  rw [opcode]
  exact held.narrow 1 1 (by omega)

theorem within_relaxDescToLe {addrs : RelocAddrs}
    (held : Holds window (addrs.offset - 3).toNat 7)
    (isField : addrs.offset.toNat = (addrs.offset - 3).toNat + 3) :
    Within window (relaxDescToLe addrs rType object) :=
  within_relaxDesc held isField held

theorem within_relaxDescCall (held : Holds window off.toNat 2) :
    Within window (relaxDescCall off) :=
  within_reaching (within_copyFromSlice held)

end Patching

/-! ## The footprint of a relocation -/

theorem patchInPlace_within {rType : UInt32} {addrs : RelocAddrs} {object : String}
    {prefixLen len : Nat} (shape : footprintShape rType = some (prefixLen, len))
    (isPrefix : prefixLen ≤ addrs.offset.toNat)
    (unwrapped : addrs.offset.toNat - prefixLen + len < 18446744073709551616) :
    Within ⟨addrs.offset.toNat - prefixLen, len⟩ (patchInPlace rType addrs object) := by
  unfold patchInPlace
  cases named : RelocType.ofCode rType with
  | none =>
      rw [footprintShape, named] at shape
      cases shape
  | some type =>
      have window {start : UInt64} (isStart : start.toNat = addrs.offset.toNat - prefixLen) :
          Patching.Holds ⟨addrs.offset.toNat - prefixLen, len⟩ start.toNat len :=
        ⟨Nat.le_of_eq isStart.symm, Nat.le_of_eq (by rw [isStart])⟩
      have field {field : Field} (fits : prefixLen + field.width ≤ len) :
          Within ⟨addrs.offset.toNat - prefixLen, len⟩
            (Patching.writeField field addrs.offset rType object) := by
        refine Patching.within_writeField ⟨Nat.sub_le _ _, ?_⟩
        change addrs.offset.toNat + field.width ≤ addrs.offset.toNat - prefixLen + len
        omega
      rw [footprintShape, named] at shape
      cases type
      case none | dtpmod64 | tlsdesc => cases shape
      case tlsgd =>
          cases shape
          have start : (addrs.offset - 4).toNat = addrs.offset.toNat - 4 :=
            toNat_offset_sub isPrefix
          simp only [fieldOf]
          cases addrs.shared with
          | true => exact field (by decide : 4 + 4 ≤ 16)
          | false =>
              cases addrs.tlsImported with
              | true =>
                  exact Patching.within_relaxGd rfl (window start) (by rw [start]; exact unwrapped)
              | false =>
                  exact Patching.within_relaxGd rfl (window start) (by rw [start]; exact unwrapped)
      case tlsld =>
          cases shape
          have start : (addrs.offset - 3).toNat = addrs.offset.toNat - 3 :=
            toNat_offset_sub isPrefix
          simp only [fieldOf]
          cases addrs.shared with
          | true => exact field (by decide : 3 + 4 ≤ 12)
          | false => exact Patching.within_relaxLdToLe (window start)
      case gotpc32Tlsdesc =>
          cases shape
          have start : (addrs.offset - 3).toNat = addrs.offset.toNat - 3 :=
            toNat_offset_sub isPrefix
          have isField : addrs.offset.toNat = (addrs.offset - 3).toNat + 3 := by omega
          simp only [fieldOf]
          cases addrs.shared with
          | true => exact field (by decide : 3 + 4 ≤ 7)
          | false =>
              cases addrs.tlsImported with
              | true =>
                  exact Patching.within_relaxDescToIe (window start) isField
                    (by rw [start]; exact unwrapped)
              | false => exact Patching.within_relaxDescToLe (window start) isField
      case tlsdescCall =>
          cases shape
          simp only [fieldOf]
          cases addrs.shared with
          | true => exact Within.pure _
          | false => exact Patching.within_relaxDescCall (window rfl)
      all_goals
        cases shape
        exact field (Nat.le_refl _)

theorem patchInPlace_of_no_footprint {rType : UInt32}
    (shape : footprintShape rType = none) (addrs : RelocAddrs) (object : String) :
    patchInPlace rType addrs object = pure () := by
  unfold patchInPlace
  cases named : RelocType.ofCode rType with
  | none => rfl
  | some type =>
      rw [footprintShape, named] at shape
      cases type
      case none | dtpmod64 | tlsdesc => rfl
      all_goals cases shape

def RelocationFootprint.window (footprint : RelocationFootprint) : Window where
  start := footprint.start
  len := footprint.len

def footprintCovers (footprint : Option RelocationFootprint) (place : Nat) : Prop :=
  ∃ found ∈ footprint, found.window.Covers place

theorem exists_window {isec : InputSection} {reloc : InputReloc}
    (inside : reloc.Inside isec) (itemIndex relocIndex : Nat) :
    ∃ footprint, relocationFootprint itemIndex relocIndex reloc = .ok footprint ∧
      ∃ window : Window,
        (∀ place, window.Covers place ↔ footprintCovers footprint place) ∧
        ∀ addrs : RelocAddrs, addrs.offset = reloc.offset → ∀ object,
          Within window (patchInPlace reloc.rType addrs object) := by
  cases shape : footprintShape reloc.rType with
  | none =>
      refine ⟨none, by rw [relocationFootprint, shape], ⟨0, 0⟩, fun place => ?_,
        fun addrs _ object => ?_⟩
      · constructor
        · rintro ⟨-, below⟩
          exact absurd below (Nat.not_lt_zero _)
        · rintro ⟨found, impossible, -⟩
          cases impossible
      · rw [patchInPlace_of_no_footprint shape]
        exact Within.pure _
  | some both =>
      rcases both with ⟨prefixLen, len⟩
      rcases inside prefixLen len shape with ⟨isPrefix, within⟩
      refine ⟨some ⟨reloc.offset.toNat - prefixLen, len⟩, ?_,
        ⟨reloc.offset.toNat - prefixLen, len⟩, fun place => ?_, fun addrs same object => ?_⟩
      · rw [relocationFootprint_of_shape shape, if_neg (Nat.not_lt.mpr isPrefix)]
      · constructor
        · intro covered
          exact ⟨_, rfl, covered⟩
        · rintro ⟨found, isFound, covered⟩
          cases isFound
          exact covered
      · rw [← same] at isPrefix within ⊢
        exact patchInPlace_within shape isPrefix
          (Nat.lt_of_le_of_lt within
            (Nat.lt_of_lt_of_le isec.data.len.toNat_lt (by decide)))

theorem patchInPlace_not_panic {isec : InputSection} {reloc : InputReloc}
    (inside : reloc.Inside isec) {addrs : RelocAddrs} (same : addrs.offset = reloc.offset)
    (object : String) {buf : List UInt8} (whole : buf.length = isec.data.len.toNat) :
    (InPlace.exec (patchInPlace reloc.rType addrs object) buf).1 ≠ .error .panic := by
  intro panics
  have contained : Contained buf.length (patchBuf buf reloc.rType addrs object) := by
    refine DispatchCtx.patchBuf_contained ?_
    rw [same, whole]
    exact inside
  apply contained.noPanic
  rw [← outcome_patchInPlace, InPlace.outcome_of_error buf panics]

/-- For every relocation of a section that validation accepts, patching never indexes
outside of the section and changes only bytes of the footprint, whether it succeeds or
fails. Relocations of footprints that lie apart commute. -/
theorem relocations_within_footprints {itemIndex : Nat} {isec : InputSection}
    {accepted : WorkRange}
    (validated : validateItemContainment itemIndex isec accepted = .ok ())
    {buf : List UInt8} (whole : buf.length = isec.data.len.toNat) (object : String) :
    (∀ reloc ∈ isec.relocs, ∀ addrs : RelocAddrs, addrs.offset = reloc.offset →
      ∀ relocIndex, ∃ footprint,
        relocationFootprint itemIndex relocIndex reloc = .ok footprint ∧
        let (result, after) := InPlace.exec (patchInPlace reloc.rType addrs object) buf
        result ≠ .error .panic ∧ after.length = buf.length ∧
          ∀ place, ¬ footprintCovers footprint place → after[place]? = buf[place]?) ∧
    (∀ first ∈ isec.relocs, ∀ second ∈ isec.relocs, ∀ addrs others : RelocAddrs,
      addrs.offset = first.offset → others.offset = second.offset →
      ∀ firstIndex secondIndex footprint other,
        relocationFootprint itemIndex firstIndex first = .ok footprint →
        relocationFootprint itemIndex secondIndex second = .ok other →
        (∀ place, ¬ (footprintCovers footprint place ∧ footprintCovers other place)) →
        let patchFirst := patchInPlace first.rType addrs object
        let patchSecond := patchInPlace second.rType others object
        InPlace.Commute patchFirst patchSecond buf ∧
        ∀ after,
          InPlace.outcome (patchFirst >>= fun _ => patchSecond) buf = .ok after ↔
            InPlace.outcome (patchSecond >>= fun _ => patchFirst) buf = .ok after) := by
  have inside := (validateItemContainment_ok_iff.mp validated).2
  constructor
  · intro reloc present addrs same relocIndex
    rcases exists_window (inside reloc present) itemIndex relocIndex with
      ⟨footprint, isFootprint, window, covers, within⟩
    have isWithin := within addrs same object
    refine ⟨footprint, isFootprint,
      patchInPlace_not_panic (inside reloc present) same object whole,
      isWithin.length buf, fun place outside => isWithin.beside buf place ?_⟩
    rw [covers place]
    exact outside
  · intro first isFirst second isSecond addrs others sameFirst sameSecond firstIndex
      secondIndex footprint other isFootprint isOther apart
    rcases exists_window (inside first isFirst) itemIndex firstIndex with
      ⟨found, isFound, window, covers, within⟩
    rcases exists_window (inside second isSecond) itemIndex secondIndex with
      ⟨otherFound, isOtherFound, otherWindow, otherCovers, otherWithin⟩
    cases isFootprint.symm.trans isFound
    cases isOther.symm.trans isOtherFound
    have commute := (within addrs sameFirst object).commute
      (otherWithin others sameSecond object) (fun place => by
        rw [covers place, otherCovers place]
        exact apart place) buf
    exact ⟨commute, commute.outcome_iff⟩

private def wordSection : InputSection where
  index := 1
  name := nameOf ".data"
  kind := .data
  shType := shtProgbits
  data := ⟨.mmap 0, 0, 12⟩
  align := 1
  size := 12
  flags := shfAlloc
  relocs := [⟨0, RelocType.r64.code, 1, 0⟩, ⟨8, RelocType.pc32.code, 1, 0⟩]

theorem relocations_within_footprints_words :
    InPlace.Commute (patchInPlace RelocType.r64.code (soleAddrs 5) "a.o")
        (patchInPlace RelocType.pc32.code { soleAddrs 5 with offset := 8 } "a.o")
        (List.replicate 12 0) ∧
      ∀ after, InPlace.outcome (patchInPlace RelocType.r64.code (soleAddrs 5) "a.o" >>=
          fun _ => patchInPlace RelocType.pc32.code { soleAddrs 5 with offset := 8 } "a.o")
          (List.replicate 12 0) = .ok after ↔
        InPlace.outcome (patchInPlace RelocType.pc32.code { soleAddrs 5 with offset := 8 }
          "a.o" >>= fun _ => patchInPlace RelocType.r64.code (soleAddrs 5) "a.o")
          (List.replicate 12 0) = .ok after :=
  (relocations_within_footprints (show validateItemContainment 0 wordSection ⟨0, 0, 12⟩ =
      .ok () by decide) (show (List.replicate 12 0).length = _ from rfl) "a.o").2
    ⟨0, RelocType.r64.code, 1, 0⟩ (by decide) ⟨8, RelocType.pc32.code, 1, 0⟩ (by decide)
    (soleAddrs 5) { soleAddrs 5 with offset := 8 } rfl rfl 0 1 (some ⟨0, 8⟩) (some ⟨8, 4⟩)
    rfl rfl (by
      rintro place ⟨⟨first, isFirst, covered⟩, ⟨second, isSecond, otherCovered⟩⟩
      cases isFirst
      cases isSecond
      have below : place < 0 + 8 := covered.2
      have above : 8 ≤ place := otherCovered.1
      omega)

end Peony
