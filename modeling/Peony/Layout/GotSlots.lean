import Peony.Layout.Sums

namespace Peony

/-! Where the slots of `.got` are: those of symbols first, then those of thread-local
storage. -/

open Spans

/-! ## Slots in a row -/

/-- The ranges of slots of one size, in the order in which they are allotted. -/
def slotSpans (size : UInt64) (slots : List (TlsRef × UInt64)) : List Span :=
  slots.reverse.map fun slot => ⟨slot.2.toNat, size.toNat⟩

theorem allotSlots_append (size : UInt64) (refs : List TlsRef) (ref : TlsRef) (cur : UInt64) :
    allotSlots size (refs ++ [ref]) cur =
      ((ref, (allotSlots size refs cur).2) :: (allotSlots size refs cur).1,
        (allotSlots size refs cur).2 + size) := by
  rw [allotSlots, List.foldl_append]
  rfl

theorem allotSlots_laid {size cur : UInt64} {refs : List TlsRef}
    (fits : cur.toNat + size.toNat * refs.length < 2 ^ 64) :
    (allotSlots size refs cur).2.toNat = cur.toNat + size.toNat * refs.length ∧
      Laid cur.toNat (slotSpans size (allotSlots size refs cur).1)
        (cur.toNat + size.toNat * refs.length) := by
  induction refs using List.reverseRecOn with
  | nil => exact ⟨rfl, .nil (Nat.le_add_right _ _)⟩
  | append_singleton refs ref induction =>
      rw [List.length_append, List.length_singleton, Nat.mul_succ] at fits ⊢
      rcases induction (by omega) with ⟨stop, laid⟩
      have last : ((allotSlots size refs cur).2 + size).toNat =
          cur.toNat + (size.toNat * refs.length + size.toNat) := by
        rw [UInt64.toNat_add, stop, Nat.mod_eq_of_lt (by omega), Nat.add_assoc]
      rw [allotSlots_append]
      refine ⟨last, ?_⟩
      have spans : slotSpans size ((ref, (allotSlots size refs cur).2) ::
          (allotSlots size refs cur).1) = slotSpans size (allotSlots size refs cur).1 ++
            [⟨(allotSlots size refs cur).2.toNat, size.toNat⟩] := by
        rw [slotSpans, List.reverse_cons, List.map_append]
        rfl
      rw [spans]
      refine laid.append (.cons stop.ge (.nil ?_))
      change (allotSlots size refs cur).2.toNat + size.toNat ≤ _
      omega

/-! ## Thread-local storage -/

namespace TlsGot

def ldmSpans (got : TlsGot) : List Span :=
  got.ldm.toList.map fun slot => ⟨slot.toNat, 16⟩

/-- The ranges of all slots. -/
def spans (got : TlsGot) : List Span :=
  slotSpans 16 got.gd ++ slotSpans 16 got.desc ++ got.ldmSpans ++ slotSpans 8 got.ie

end TlsGot

/-- How many bytes the slots of thread-local storage take. -/
def TlsGotInfo.slotBytes (tls : TlsGotInfo) : Nat :=
  16 * tls.gd.length + 16 * tls.desc.length + (if tls.ldm then 16 else 0) + 8 * tls.ie.length

theorem TlsGotInfo.byteSize_toNat {tls : TlsGotInfo} (fits : tls.slotBytes < 2 ^ 64) :
    tls.byteSize.toNat = tls.slotBytes := by
  have ldm : (if tls.ldm then (16 : UInt64) else 0).toNat = if tls.ldm then 16 else 0 := by
    cases tls.ldm <;> rfl
  have sixteen : (16 : UInt64).toNat = 16 := rfl
  have eight : (8 : UInt64).toNat = 8 := rfl
  rw [slotBytes] at fits ⊢
  rw [byteSize, UInt64.toNat_add, UInt64.toNat_add, UInt64.toNat_add, UInt64.toNat_mul,
    UInt64.toNat_mul, UInt64.toNat_mul, UInt64.toNat_ofNat', UInt64.toNat_ofNat',
    UInt64.toNat_ofNat', ldm, sixteen, eight]
  generalize (if tls.ldm then 16 else 0) = pair at fits ⊢
  omega

theorem layOutTlsGot_laid {tls : TlsGotInfo} {start : UInt64}
    (fits : start.toNat + tls.slotBytes < 2 ^ 64) :
    Laid start.toNat (layOutTlsGot tls start).spans (start.toNat + tls.slotBytes) := by
  have sixteen : (16 : UInt64).toNat = 16 := rfl
  have eight : (8 : UInt64).toNat = 8 := rfl
  rw [TlsGotInfo.slotBytes] at fits ⊢
  have gd := @allotSlots_laid 16 start tls.gd (by rw [sixteen]; omega)
  rw [sixteen] at gd
  have desc := @allotSlots_laid 16 (allotSlots 16 tls.gd start).2 tls.desc
    (by rw [sixteen, gd.1]; omega)
  rw [sixteen, gd.1] at desc
  generalize isLdm : (if tls.ldm then (allotSlots 16 tls.desc (allotSlots 16 tls.gd start).2).2 + 16
    else (allotSlots 16 tls.desc (allotSlots 16 tls.gd start).2).2) = afterLdm
  have after : afterLdm.toNat = start.toNat + 16 * tls.gd.length + 16 * tls.desc.length +
      (if tls.ldm then 16 else 0) := by
    rw [← isLdm]
    by_cases hasLdm : tls.ldm = true
    · rw [if_pos hasLdm] at fits
      rw [if_pos hasLdm, if_pos hasLdm, UInt64.toNat_add, desc.1, sixteen,
        Nat.mod_eq_of_lt (by omega)]
    · rw [if_neg hasLdm, if_neg hasLdm, desc.1, Nat.add_zero]
  have ldm : Laid (start.toNat + 16 * tls.gd.length + 16 * tls.desc.length)
      (layOutTlsGot tls start).ldmSpans afterLdm.toNat := by
    rw [TlsGot.ldmSpans, layOutTlsGot, after]
    dsimp only
    cases tls.ldm with
    | false => exact .nil (Nat.le_add_right _ _)
    | true =>
        refine .cons desc.1.ge (.nil ?_)
        change (allotSlots 16 tls.desc (allotSlots 16 tls.gd start).2).2.toNat + 16 ≤ _
        rw [desc.1]
        exact le_rfl
  have ie := @allotSlots_laid 8 afterLdm tls.ie (by rw [eight, after]; omega)
  rw [eight] at ie
  have isIe : (layOutTlsGot tls start).ie = (allotSlots 8 tls.ie afterLdm).1 := by
    rw [← isLdm]
    rfl
  have all := ((gd.2.append desc.2).append ldm).append ie.2
  rw [TlsGot.spans, isIe]
  refine all.widen le_rfl ?_
  rw [after]
  omega

theorem mem_slotSpans {size : UInt64} {slots : List (TlsRef × UInt64)} {ref : TlsRef}
    {address : UInt64} (found : slots.lookup ref = some address) :
    ⟨address.toNat, size.toNat⟩ ∈ slotSpans size slots :=
  List.mem_map.mpr ⟨(ref, address), List.mem_reverse.mpr (Assoc.mem_of_lookup found), rfl⟩

namespace TlsGot

variable {got : TlsGot} {ref : TlsRef} {address : UInt64}

theorem gd_mem_spans (found : got.gd.lookup ref = some address) :
    ⟨address.toNat, 16⟩ ∈ got.spans :=
  List.mem_append_left _ (List.mem_append_left _ (List.mem_append_left _
    (mem_slotSpans found)))

theorem ldm_mem_spans (found : got.ldm = some address) : ⟨address.toNat, 16⟩ ∈ got.spans := by
  refine List.mem_append_left _ (List.mem_append_right _ ?_)
  rw [ldmSpans, found]
  exact List.mem_cons_self

theorem ie_mem_spans (found : got.ie.lookup ref = some address) :
    ⟨address.toNat, 8⟩ ∈ got.spans :=
  List.mem_append_right _ (mem_slotSpans found)

end TlsGot

end Peony
