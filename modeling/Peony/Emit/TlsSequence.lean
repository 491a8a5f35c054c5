import Peony.Emit.Footprints
import Peony.Foundation.Fallible

namespace Peony

/-! The instruction sequences that ask for the address of a thread-local symbol, and what an
executable is to make of them. -/

open InPlace (Window Within Agree)

/-! ## The sequences -/

inductive TlsModel where
  | generalDynamic | localDynamic
deriving DecidableEq

/-- The call goes to the stub or through the slot of `__tls_get_addr`. -/
inductive CallForm where
  | direct | indirect
deriving DecidableEq

namespace TlsModel

def relocType : TlsModel → RelocType
  | generalDynamic => .tlsgd
  | localDynamic => .tlsld

/-- `lea x@tlsgd(%rip),%rdi` or `lea x@tlsld(%rip),%rdi`, up to the displacement. -/
def lea : TlsModel → List UInt8
  | generalDynamic => [0x66, 0x48, 0x8d, 0x3d]
  | localDynamic => [0x48, 0x8d, 0x3d]

/-- The call of `__tls_get_addr`, up to the displacement. -/
def call : TlsModel → CallForm → List UInt8
  | generalDynamic, .direct => [0x66, 0x66, 0x48, 0xe8]
  | generalDynamic, .indirect => [0x66, 0x48, 0xff, 0x15]
  | localDynamic, .direct => [0xe8]
  | localDynamic, .indirect => [0xff, 0x15]

/-- The length of the whole sequence. -/
def size (model : TlsModel) (form : CallForm) : Nat :=
  model.lea.length + 4 + (model.call form).length + 4

/-- The Local-Exec sequence of the same length. That of Local-Dynamic only loads the thread
pointer; the offsets are in the instructions that follow. -/
def localExec (model : TlsModel) (form : CallForm) (tp : Int64) : List UInt8 :=
  match model, form with
  | generalDynamic, _ => movThreadPointer ++ [0x48, 0x8d, 0x80] ++ le32 tp.toInt32.toUInt32
  | localDynamic, .direct => [0x66, 0x66, 0x66] ++ movThreadPointer
  | localDynamic, .indirect => [0x66, 0x66, 0x66, 0x66] ++ movThreadPointer

end TlsModel

namespace CallForm

def types : CallForm → List RelocType
  | direct => [.plt32, .pc32]
  | indirect => [.gotpcrel, .gotpcrelx]

end CallForm

/-- The definition of a symbol in this link: object, section and value. -/
def ApplyCtx.definition (ctx : ApplyCtx) (objId symPos : Nat) (sym : InputSymbol) :
    Option (Nat × Nat × UInt64) :=
  if sym.binding = .local then
    sym.sectionIndex.map fun index => (objId, index, sym.value)
  else
    (ctx.resolutionOf objId symPos sym).bind fun res =>
      if res.isDefined then
        res.definedIn.bind fun defined =>
          res.sectionIndex.map fun index => (defined.toNat, index, res.value)
      else none

/-- The footprint of a relocation shares no place with the window. -/
def InputReloc.Apart (reloc : InputReloc) (window : Window) : Prop :=
  ∀ prefixLen len, footprintShape reloc.rType = some (prefixLen, len) →
    ∀ place, ¬ (window.Covers place ∧
      (Window.mk (reloc.offset.toNat - prefixLen) len).Covers place)

/-- A sequence in a section, with its two relocations among those of the section, in either
order, and its symbol, which this link defines. -/
structure TlsSequence (ctx : DispatchCtx) (item : WorkItem) where
  model : TlsModel
  form : CallForm
  start : Nat
  secBuf : List UInt8
  isSlice : ctx.arena.slice item.isec.data = .ok secBuf
  leaDisp : List UInt8
  callDisp : List UInt8
  leaFour : leaDisp.length = 4
  callFour : callDisp.length = 4
  isSequence : (secBuf.drop start).take (model.size form) =
    model.lea ++ (leaDisp ++ (model.call form ++ callDisp))
  lea : InputReloc
  call : InputReloc
  leaType : lea.rType = model.relocType.code
  callType : ∃ type ∈ form.types, call.rType = type.code
  leaPlace : lea.offset.toNat = start + model.lea.length
  callPlace : call.offset.toNat = start + model.lea.length + 4 + (model.call form).length
  callFirst : Bool
  front : List InputReloc
  between : List InputReloc
  rest : List InputReloc
  isRelocs : item.isec.relocs = front ++ (if callFirst then call else lea) ::
    (between ++ (if callFirst then lea else call) :: rest)
  apart : ∀ other ∈ front ++ between ++ rest, other.Apart ⟨start, model.size form⟩
  symPos : Nat
  sym : InputSymbol
  isPos : item.obj.symbolPos lea.symbol = some symPos
  isSym : item.obj.symbols[symPos]? = some sym
  place : Nat × Nat × UInt64
  isDefined : ctx.reloc.definition item.objId symPos sym = some place
  callPos : Nat
  callSym : InputSymbol
  isCallPos : item.obj.symbolPos call.symbol = some callPos
  isCallSym : item.obj.symbols[callPos]? = some callSym
  isCall : callSym.name = ApplyCtx.tlsGetAddr

namespace TlsSequence

variable {ctx : DispatchCtx} {item : WorkItem} (sequence : TlsSequence ctx item)

def size : Nat := sequence.model.size sequence.form

/-- The offset of the symbol from the thread pointer, if its section is in the TLS block. The
addend of the sequence is relative to the end of its displacement. -/
def tpOffset : Option Int64 :=
  (ctx.reloc.layout.tlsOffset sequence.place.1 sequence.place.2.1).map fun base =>
    (base + sequence.place.2.2).toInt64 + sequence.lea.addend -
      ctx.reloc.layout.tlsSize.toInt64 + 4

/-- What is seen is the Local-Exec sequence of the symbol. -/
def Relaxed (seen : List UInt8) : Prop :=
  ∃ tp, (sequence.model = .generalDynamic → sequence.tpOffset = some tp) ∧
    seen = sequence.model.localExec sequence.form tp

/-- A local symbol is relaxed only where its section is placed. -/
def Placed : Prop :=
  sequence.sym.binding = .local →
    (ctx.reloc.layout.addressOf sequence.place.1 sequence.place.2.1).isSome

def callValue : Option Int64 :=
  match ctx.reloc.resolveRelocAction item.obj item.objId sequence.call item.sectionVa with
  | .ok (.patch addrs) => some (addrs.g.toInt64 + addrs.a - addrs.p.toInt64)
  | _ => none

/-- The condition under which the sequence is relaxed: a direct call does no harm; an indirect
one overwrites the offset unless it comes first, or writes the same; and the longer
Local-Dynamic sequence is never rewritten whole. -/
def Relaxes : Prop :=
  sequence.Placed ∧
    match sequence.model, sequence.form with
    | .generalDynamic, .direct => sequence.tpOffset.isSome
    | .generalDynamic, .indirect => ∃ tp, sequence.tpOffset = some tp ∧
        (sequence.callFirst = true ∨
          ∀ value ∈ sequence.callValue, value.toInt32 = tp.toInt32)
    | .localDynamic, .direct => True
    | .localDynamic, .indirect => False

end TlsSequence

/-! ## The relocations -/

def ApplyCtx.applyInPlace (ctx : ApplyCtx) (obj : InputObject) (objId : Nat)
    (reloc : InputReloc) (sectionVa : UInt64) : Patching Unit :=
  match ctx.resolveRelocAction obj objId reloc sectionVa with
  | .error error => throw (.error error)
  | .ok (.skip _) => pure ()
  | .ok (.patch addrs) => patchInPlace reloc.rType addrs obj.path

theorem ApplyCtx.outcome_applyInPlace (ctx : ApplyCtx) (obj : InputObject) (objId : Nat)
    (reloc : InputReloc) (sectionVa : UInt64) (buf : List UInt8) :
    InPlace.outcome (ctx.applyInPlace obj objId reloc sectionVa) buf =
      ctx.applyReloc obj objId reloc sectionVa buf := by
  rw [applyInPlace, applyReloc]
  cases ctx.resolveRelocAction obj objId reloc sectionVa with
  | error error => rfl
  | ok action =>
      cases action with
      | skip reason => rfl
      | patch addrs => exact outcome_patchInPlace buf reloc.rType addrs obj.path

theorem ApplyCtx.agree_applyReloc {ctx : ApplyCtx} {obj : InputObject} {objId : Nat}
    {reloc : InputReloc} {sectionVa : UInt64} {isec : InputSection} {window : Window}
    (inside : reloc.Inside isec) (apart : reloc.Apart window) {buf after : List UInt8}
    (applied : ctx.applyReloc obj objId reloc sectionVa buf = .ok after) :
    Agree window buf after := by
  rw [← outcome_applyInPlace, applyInPlace] at applied
  cases action : ctx.resolveRelocAction obj objId reloc sectionVa with
  | error error => rw [action] at applied; exact nomatch applied
  | ok found =>
      rw [action] at applied
      cases found with
      | skip reason => cases applied; exact Agree.refl
      | patch addrs =>
          have same := ctx.offset_of_patch action
          cases shape : footprintShape reloc.rType with
          | none =>
              dsimp only at applied
              rw [patchInPlace_of_no_footprint shape] at applied
              cases applied
              exact Agree.refl
          | some both =>
              rcases both with ⟨prefixLen, len⟩
              rcases inside prefixLen len shape with ⟨isPrefix, within⟩
              rw [← same] at isPrefix within
              have isWithin := @patchInPlace_within reloc.rType addrs obj.path prefixLen len shape
                isPrefix (Nat.lt_of_le_of_lt within
                  (Nat.lt_of_lt_of_le isec.data.len.toNat_lt (by decide)))
              rw [same] at isWithin
              exact isWithin.agree_of_apart (apart prefixLen len shape) applied

theorem ApplyCtx.agree_applyRelocs {ctx : ApplyCtx} {obj : InputObject} {objId : Nat}
    {relocs : List InputReloc} {sectionVa : UInt64} {isec : InputSection} {window : Window}
    (inside : ∀ reloc ∈ relocs, reloc.Inside isec)
    (apart : ∀ reloc ∈ relocs, reloc.Apart window) {buf after : List UInt8}
    (applied : relocs.foldlM (fun buf reloc => ctx.applyReloc obj objId reloc sectionVa buf)
      buf = .ok after) : Agree window buf after := by
  induction relocs generalizing buf with
  | nil => cases applied; exact Agree.refl
  | cons reloc others induction =>
      rw [List.foldlM_cons] at applied
      rcases bind_ok applied with ⟨next, isNext, later⟩
      have first := agree_applyReloc (inside reloc List.mem_cons_self)
        (apart reloc List.mem_cons_self) isNext
      exact first.trans (induction
        (fun other present => inside other (List.mem_cons_of_mem _ present))
        (fun other present => apart other (List.mem_cons_of_mem _ present)) later)

/-! ## What is written -/

section Written

variable {buf after : List UInt8} {off : UInt64} {rType : UInt32} {object : String}

theorem writeBytes_ok {data : List UInt8} (written : writeBytes buf off data = .ok after) :
    after = Buffer.overwrite buf ⟨off.toNat, data⟩ := by
  rw [writeBytes] at written
  split at written
  · cases written
    rfl
  · cases written

theorem checkedI32Bytes_ok {val : Int64} {relocOff : UInt64} {bytes : List UInt8}
    (checked : checkedI32Bytes val rType object relocOff = .ok bytes) :
    bytes = le32 val.toInt32.toUInt32 := by
  rw [checkedI32Bytes] at checked
  split at checked
  · cases checked
    rfl
  · cases checked

theorem patchBuf_tlsgd {addrs : RelocAddrs} (executable : addrs.shared = false)
    (notImported : addrs.tlsImported = false) :
    patchBuf buf RelocType.tlsgd.code addrs object =
      relaxGdToLe buf addrs RelocType.tlsgd.code object := by
  simp only [patchBuf, RelocType.ofCode_code, fieldOf, executable, notImported,
    Bool.false_eq_true, if_false]

theorem patchBuf_tlsld {addrs : RelocAddrs} (executable : addrs.shared = false) :
    patchBuf buf RelocType.tlsld.code addrs object = relaxLdToLe buf addrs := by
  simp only [patchBuf, RelocType.ofCode_code, fieldOf, executable, Bool.false_eq_true, if_false]

theorem patchBuf_indirect {addrs : RelocAddrs} {type : RelocType}
    (isType : type ∈ CallForm.indirect.types) :
    patchBuf buf type.code addrs object =
      writeI32 buf addrs.offset (addrs.g.toInt64 + addrs.a - addrs.p.toInt64) type.code object
        addrs.offset := by
  simp only [CallForm.types, List.mem_cons, List.not_mem_nil, or_false] at isType
  rcases isType with rfl | rfl
  · rw [patchBuf, RelocType.ofCode_code]
    rfl
  · rw [patchBuf, RelocType.ofCode_code]
    rfl

/-- A General-Dynamic sequence that has its prologue is rewritten whole. -/
theorem window_relaxGd {tail : List UInt8} (three : tail.length = 3) {displacement : Int64}
    {start : Nat} (isStart : off.toNat = start + 4) (inside : start + 16 ≤ buf.length)
    (short : buf.length < 18446744073709551616)
    (isPrologue : (buf.drop start).take 3 = [0x66, 0x48, 0x8d])
    (relaxed : relaxGd buf off tail displacement rType object = .ok after) :
    (after.drop start).take 16 =
      movThreadPointer ++ tail ++ le32 displacement.toInt32.toUInt32 := by
  have place : (off - 4).toNat = start := by
    have four : (4 : UInt64).toNat ≤ off.toNat := by
      rw [isStart]
      exact Nat.le_add_left _ _
    rw [toNat_offset_sub four, isStart]
    exact Nat.add_sub_cancel _ _
  have last : (off - 4 + 12).toNat = start + 12 := by
    rw [UInt64.toNat_add, place]
    exact Nat.mod_eq_of_lt (by change start + 12 < 18446744073709551616; omega)
  have isReached : reaches buf (off - 4) 16 = true := by
    rw [reaches, UInt64.toNat_add, place, decide_eq_true_eq]
    exact Nat.le_trans (Nat.mod_le _ _) inside
  have found : hasPrologue buf (off - 4) [0x66, 0x48, 0x8d] = .ok true := by
    have front : start + [(0x66 : UInt8), 0x48, 0x8d].length ≤ buf.length :=
      Nat.le_trans (Nat.add_le_add_left (by decide) _) inside
    rw [hasPrologue, place, if_pos front]
    change Except.ok ((buf.drop start).take 3 == _) = _
    rw [isPrologue]
    rfl
  rw [relaxGd, if_pos isReached, found] at relaxed
  rcases bind_ok relaxed with ⟨_, isFound, rewritten⟩
  cases isFound
  rw [if_pos rfl] at rewritten
  rcases bind_ok rewritten with ⟨bytes, checked, written⟩
  rcases bind_ok written with ⟨next, isNext, isAfter⟩
  rw [writeBytes_ok isAfter, writeBytes_ok isNext, checkedI32Bytes_ok checked, place, last,
    Buffer.window_overwrite]
  have whole := Buffer.window_overwrite buf start 0 16 (movThreadPointer ++ tail ++ [0, 0, 0, 0])
  rw [Nat.add_zero] at whole
  have length : ((buf.drop start).take 16).length = 16 := by
    rw [List.length_take, List.length_drop]
    omega
  have first : (movThreadPointer ++ tail ++ [0, 0, 0, 0]).length =
      ((buf.drop start).take 16).length := by
    rw [length, List.length_append, List.length_append, three]
    rfl
  have replaced := Buffer.overwrite_middle [] ((buf.drop start).take 16) [] first
  rw [List.append_nil, List.append_nil, List.nil_append, List.nil_append] at replaced
  have twelve : (movThreadPointer ++ tail).length = 12 := by
    rw [List.length_append, three]
    rfl
  have offset := Buffer.overwrite_middle (movThreadPointer ++ tail) [0, 0, 0, 0] []
    (length_le32 displacement.toInt32.toUInt32)
  rw [List.append_nil, List.append_nil, twelve] at offset
  rw [whole]
  change Buffer.overwrite (Buffer.overwrite _ ⟨([] : List UInt8).length, _⟩) _ = _
  rw [replaced, offset]

/-- A Local-Dynamic sequence is rewritten up to its twelfth byte. -/
theorem window_relaxLdToLe {addrs : RelocAddrs} {start len : Nat} (twelve : 12 ≤ len)
    (isStart : addrs.offset.toNat = start + 3) (inside : start + len ≤ buf.length)
    (relaxed : relaxLdToLe buf addrs = .ok after) :
    (after.drop start).take len =
      [0x66, 0x66, 0x66] ++ movThreadPointer ++ ((buf.drop start).take len).drop 12 := by
  have place : (addrs.offset - 3).toNat = start := by
    have three : (3 : UInt64).toNat ≤ addrs.offset.toNat := by
      rw [isStart]
      exact Nat.le_add_left _ _
    rw [toNat_offset_sub three, isStart]
    exact Nat.add_sub_cancel _ _
  have isReached : reaches buf (addrs.offset - 3) 12 = true := by
    rw [reaches, UInt64.toNat_add, place, decide_eq_true_eq]
    exact Nat.le_trans (Nat.mod_le _ _) (Nat.le_trans (Nat.add_le_add_left twelve _) inside)
  rw [relaxLdToLe, if_pos isReached] at relaxed
  have whole := Buffer.window_overwrite buf start 0 len ([0x66, 0x66, 0x66] ++ movThreadPointer)
  rw [Nat.add_zero] at whole
  have first : ([0x66, 0x66, 0x66] ++ movThreadPointer).length =
      (((buf.drop start).take len).take 12).length := by
    rw [List.length_take, List.length_take, List.length_drop]
    change 12 = _
    omega
  have replaced := Buffer.overwrite_middle [] (((buf.drop start).take len).take 12)
    (((buf.drop start).take len).drop 12) first
  rw [List.take_append_drop, List.nil_append, List.nil_append] at replaced
  rw [writeBytes_ok relaxed, place, whole]
  exact replaced

theorem window_writeI32 {val : Int64} {start len : Nat} (isLast : off.toNat + 4 = start + len)
    (four : 4 ≤ len) (inside : start + len ≤ buf.length)
    (written : writeI32 buf off val rType object off = .ok after) :
    (after.drop start).take len =
      ((buf.drop start).take len).take (len - 4) ++ le32 val.toInt32.toUInt32 := by
  rcases bind_ok written with ⟨bytes, checked, isAfter⟩
  have place : off.toNat = start + (len - 4) := by omega
  have length : ((buf.drop start).take len).length = len := by
    rw [List.length_take, List.length_drop]
    omega
  have front : (((buf.drop start).take len).take (len - 4)).length = len - 4 := by
    rw [List.length_take, length]
    exact Nat.min_eq_left (Nat.sub_le _ _)
  have back : (le32 val.toInt32.toUInt32).length =
      (((buf.drop start).take len).drop (len - 4)).length := by
    rw [List.length_drop, length, length_le32]
    omega
  have replaced := Buffer.overwrite_middle (((buf.drop start).take len).take (len - 4))
    (((buf.drop start).take len).drop (len - 4)) [] back
  rw [List.append_nil, List.append_nil, List.take_append_drop, front] at replaced
  rw [writeBytes_ok isAfter, checkedI32Bytes_ok checked, place, Buffer.window_overwrite]
  exact replaced

end Written

/-! ## The two relocations of a sequence -/

namespace TlsSequence

variable {ctx : DispatchCtx} {item : WorkItem} (sequence : TlsSequence ctx item)

theorem relocAddrs_lea (target : ApplyCtx.Target) :
    (ctx.reloc.relocAddrs item.objId sequence.symPos sequence.sym
      (ctx.reloc.resolutionOf item.objId sequence.symPos sequence.sym) target sequence.lea
        item.sectionVa).tlsImported = false ∧
      ∀ tp, sequence.tpOffset = some tp →
        (ctx.reloc.relocAddrs item.objId sequence.symPos sequence.sym
          (ctx.reloc.resolutionOf item.objId sequence.symPos sequence.sym) target sequence.lea
            item.sectionVa).tls.toInt64 + sequence.lea.addend -
          ctx.reloc.layout.tlsSize.toInt64 + 4 = tp := by
  have isTlsType : isTls sequence.lea.rType = true := by
    rw [sequence.leaType]
    cases sequence.model <;> decide
  have isDefined := sequence.isDefined
  rw [ApplyCtx.definition] at isDefined
  by_cases isLocal : sequence.sym.binding = .local
  · rw [if_pos isLocal] at isDefined
    rcases Option.map_eq_some_iff.mp isDefined with ⟨index, isIndex, isPlace⟩
    constructor
    · simp only [ApplyCtx.relocAddrs, isLocal, bne_self_eq_false, Bool.and_false,
        Bool.false_and]
    · intro tp isTp
      rw [tpOffset, ← isPlace] at isTp
      rcases Option.map_eq_some_iff.mp isTp with ⟨base, isBase, rfl⟩
      dsimp only at isBase
      simp only [ApplyCtx.relocAddrs, isTlsType, if_true, ApplyCtx.tlsBlockOffset, isLocal,
        isIndex, Option.bind_some, isBase, Option.map_some, Option.getD_some]
  · rw [if_neg isLocal] at isDefined
    rcases Option.bind_eq_some_iff.mp isDefined with ⟨res, isRes, later⟩
    split at later
    · rcases Option.bind_eq_some_iff.mp later with ⟨defined, isObject, last⟩
      rcases Option.map_eq_some_iff.mp last with ⟨index, isIndex, isPlace⟩
      constructor
      · simp only [ApplyCtx.relocAddrs, isRes, Option.any_some, isObject, Option.isNone_some,
          Bool.and_false]
      · intro tp isTp
        rw [tpOffset, ← isPlace] at isTp
        rcases Option.map_eq_some_iff.mp isTp with ⟨base, isBase, rfl⟩
        dsimp only at isBase
        simp only [ApplyCtx.relocAddrs, isTlsType, if_true, ApplyCtx.tlsBlockOffset, isLocal,
          if_false, isRes, isObject, isIndex, Option.bind_some, isBase, Option.map_some,
          Option.getD_some]
    · exact nomatch later

theorem resolve_lea :
    (¬ sequence.Placed ∧
        ctx.reloc.resolveRelocAction item.obj item.objId sequence.lea item.sectionVa =
          .ok (.skip .missingLocalSectionAddress)) ∨
      (sequence.Placed ∧ ∃ target,
        ctx.reloc.resolveRelocAction item.obj item.objId sequence.lea item.sectionVa =
          .ok (.patch (ctx.reloc.relocAddrs item.objId sequence.symPos sequence.sym
            (ctx.reloc.resolutionOf item.objId sequence.symPos sequence.sym) target
              sequence.lea item.sectionVa))) := by
  have typed : sequence.lea.rType ≠ RelocType.none.code := by
    rw [sequence.leaType]
    cases sequence.model <;> decide
  have kept : ctx.reloc.isRelaxedCall sequence.lea sequence.sym = false := by
    have notCall : (sequence.lea.rType == RelocType.plt32.code ||
        sequence.lea.rType == RelocType.pc32.code) = false := by
      rw [sequence.leaType]
      cases sequence.model <;> decide
    rw [ApplyCtx.isRelaxedCall, notCall, Bool.and_false, Bool.false_and]
  have isDefined := sequence.isDefined
  rw [ApplyCtx.definition] at isDefined
  rw [ApplyCtx.resolveRelocAction, if_neg typed]
  simp only [sequence.isPos, sequence.isSym, kept, Bool.false_eq_true, if_false]
  by_cases isLocal : sequence.sym.binding = .local
  · rw [if_pos isLocal] at isDefined ⊢
    rcases Option.map_eq_some_iff.mp isDefined with ⟨index, isIndex, isPlace⟩
    simp only [ApplyCtx.localTarget, isIndex]
    cases address : ctx.reloc.layout.addressOf item.objId index with
    | none =>
        left
        refine ⟨fun placed => ?_, rfl⟩
        have some := placed isLocal
        rw [← isPlace, address] at some
        cases some
    | some va =>
        right
        refine ⟨fun _ => ?_, _, rfl⟩
        rw [← isPlace, address]
        rfl
  · rw [if_neg isLocal] at isDefined ⊢
    rcases Option.bind_eq_some_iff.mp isDefined with ⟨res, isRes, later⟩
    split at later
    · next known =>
      right
      refine ⟨fun some => absurd some isLocal, ?_⟩
      rw [isRes, ApplyCtx.globalTarget, if_pos known]
      exact ⟨_, rfl⟩
    · cases later

theorem resolve_direct (executable : ctx.reloc.shared = false)
    (direct : sequence.form = .direct) :
    ctx.reloc.resolveRelocAction item.obj item.objId sequence.call item.sectionVa =
      .ok (.skip .relaxedTlsGetAddrCall) := by
  rcases sequence.callType with ⟨type, isType, same⟩
  have named : ctx.reloc.isRelaxedCall sequence.call sequence.callSym = true := by
    rw [ApplyCtx.isRelaxedCall, executable, sequence.isCall, same]
    rw [direct] at isType
    simp only [CallForm.types, List.mem_cons, List.not_mem_nil, or_false] at isType
    rcases isType with rfl | rfl
    · decide
    · decide
  have typed : sequence.call.rType ≠ RelocType.none.code := by
    rw [same]
    rw [direct] at isType
    simp only [CallForm.types, List.mem_cons, List.not_mem_nil, or_false] at isType
    rcases isType with rfl | rfl
    · decide
    · decide
  rw [ApplyCtx.resolveRelocAction, if_neg typed]
  simp only [sequence.isCallPos, sequence.isCallSym]
  rw [if_pos named]

/-! ### The window of a sequence -/

/-- The bytes at the place of the sequence. -/
def window (buf : List UInt8) : List UInt8 := (buf.drop sequence.start).take sequence.size

theorem length_secBuf : sequence.secBuf.length = item.isec.data.len.toNat := by
  have isSlice := sequence.isSlice
  rw [InputArena.slice] at isSlice
  split at isSlice
  · next held =>
    rw [← Except.ok.inj isSlice]
    exact held
  · cases isSlice

theorem inside : sequence.start + sequence.size ≤ item.isec.data.len.toNat := by
  have length := congrArg List.length sequence.isSequence
  rw [List.length_take, List.length_drop, length_secBuf, List.length_append, List.length_append,
    List.length_append, sequence.leaFour, sequence.callFour] at length
  have size : sequence.size = sequence.model.lea.length + 4 +
      (sequence.model.call sequence.form).length + 4 := rfl
  change min sequence.size _ = _ at length
  omega

theorem window_secBuf : sequence.window sequence.secBuf = sequence.model.lea ++
    (sequence.leaDisp ++ (sequence.model.call sequence.form ++ sequence.callDisp)) :=
  sequence.isSequence

theorem length_window {buf : List UInt8} (whole : buf.length = item.isec.data.len.toNat) :
    (sequence.window buf).length = sequence.size := by
  have inside := sequence.inside
  rw [window, List.length_take, List.length_drop]
  omega

theorem window_of_agree {buf other : List UInt8}
    (agree : Agree ⟨sequence.start, sequence.size⟩ buf other) :
    sequence.window other = sequence.window buf :=
  (agree.slice (Nat.le_refl _) (Nat.le_refl _)).symm

section Applied

variable {buf after : List UInt8} (whole : buf.length = item.isec.data.len.toNat)

include whole in
theorem window_lea (executable : ctx.reloc.shared = false)
    (applied : ctx.reloc.applyReloc item.obj item.objId sequence.lea item.sectionVa buf =
      .ok after) :
    (¬ sequence.Placed ∧ after = buf) ∨
      (sequence.Placed ∧
        (sequence.model = .generalDynamic →
          (buf.drop sequence.start).take 3 = [0x66, 0x48, 0x8d] →
          ∃ tp, (∀ offset, sequence.tpOffset = some offset → offset = tp) ∧
            sequence.window after = sequence.model.localExec sequence.form tp) ∧
        (sequence.model = .localDynamic →
          sequence.window after = [0x66, 0x66, 0x66] ++ movThreadPointer ++
            (sequence.window buf).drop 12)) := by
  have inside := sequence.inside
  rcases sequence.resolve_lea with ⟨unplaced, isSkip⟩ | ⟨placed, target, isPatch⟩
  · left
    rw [ApplyCtx.applyReloc, isSkip] at applied
    cases applied
    exact ⟨unplaced, rfl⟩
  · right
    rcases sequence.relocAddrs_lea target with ⟨notImported, isOffset⟩
    rw [ApplyCtx.applyReloc, isPatch] at applied
    have isStart := sequence.leaPlace
    refine ⟨placed, ?_, ?_⟩
    · intro isModel isPrologue
      have size : sequence.size = 16 := by
        rw [TlsSequence.size, isModel]
        cases sequence.form <;> rfl
      rw [sequence.leaType] at applied
      rw [isModel] at applied isStart
      have relaxed := (patchBuf_tlsgd executable notImported).symm.trans applied
      have short := item.isec.data.len.toNat_lt
      have written := window_relaxGd rfl isStart (by omega) (by omega) isPrologue relaxed
      refine ⟨_, fun tp isTp => (isOffset tp isTp).symm, ?_⟩
      rw [window, size, written, isModel]
      rfl
    · intro isModel
      have twelve : 12 ≤ sequence.size := by
        rw [TlsSequence.size, isModel]
        cases sequence.form <;> decide
      rw [sequence.leaType] at applied
      rw [isModel] at applied isStart
      have relaxed := (patchBuf_tlsld executable).symm.trans applied
      exact window_relaxLdToLe twelve isStart (by omega) relaxed

theorem window_direct (executable : ctx.reloc.shared = false)
    (direct : sequence.form = .direct)
    (applied : ctx.reloc.applyReloc item.obj item.objId sequence.call item.sectionVa buf =
      .ok after) : after = buf := by
  rw [ApplyCtx.applyReloc, sequence.resolve_direct executable direct] at applied
  cases applied
  rfl

include whole in
theorem window_indirect (indirect : sequence.form = .indirect)
    (applied : ctx.reloc.applyReloc item.obj item.objId sequence.call item.sectionVa buf =
      .ok after) :
    (sequence.callValue = none ∧ after = buf) ∨
      ∃ value, sequence.callValue = some value ∧
        sequence.window after = (sequence.window buf).take (sequence.size - 4) ++
          le32 value.toInt32.toUInt32 := by
  have inside := sequence.inside
  rcases sequence.callType with ⟨type, isType, same⟩
  rw [indirect] at isType
  rw [ApplyCtx.applyReloc] at applied
  rw [callValue]
  cases action : ctx.reloc.resolveRelocAction item.obj item.objId sequence.call
      item.sectionVa with
  | error error => rw [action] at applied; cases applied
  | ok found =>
      rw [action] at applied
      cases found with
      | skip reason =>
          left
          cases applied
          exact ⟨rfl, rfl⟩
      | patch addrs =>
          right
          refine ⟨_, rfl, ?_⟩
          have place := ctx.reloc.offset_of_patch action
          have isLast : addrs.offset.toNat + 4 = sequence.start + sequence.size := by
            rw [place, sequence.callPlace, TlsSequence.size, TlsModel.size]
            omega
          rw [same] at applied
          have written := (patchBuf_indirect isType).symm.trans applied
          exact window_writeI32 isLast
            (by rw [TlsSequence.size, TlsModel.size]; omega) (by omega) written

include whole in
theorem take_window_call (executable : ctx.reloc.shared = false)
    (applied : ctx.reloc.applyReloc item.obj item.objId sequence.call item.sectionVa buf =
      .ok after) {count : Nat} (front : count ≤ sequence.size - 4) :
    (sequence.window after).take count = (sequence.window buf).take count := by
  cases form : sequence.form with
  | direct => rw [sequence.window_direct executable form applied]
  | indirect =>
      rcases sequence.window_indirect whole form applied with ⟨_, rfl⟩ | ⟨value, _, written⟩
      · rfl
      · have length : ((sequence.window buf).take (sequence.size - 4)).length =
            sequence.size - 4 := by
          rw [List.length_take, sequence.length_window whole]
          exact Nat.min_eq_left (Nat.sub_le _ _)
        rw [written, List.take_append_of_le_length (by rw [length]; exact front),
          List.take_take, Nat.min_eq_left front]

end Applied

/-! ### Both relocations -/

/-- The two relocations in their order, and the buffers around them. -/
theorem exists_steps (inside : ∀ reloc ∈ item.isec.relocs, reloc.Inside item.isec)
    {final : List UInt8} (isBytes : ctx.sectionBytes item = .ok final) :
    ∃ one two three four, one.length = item.isec.data.len.toNat ∧
      three.length = item.isec.data.len.toNat ∧
      sequence.window one = sequence.window sequence.secBuf ∧
      ctx.reloc.applyReloc item.obj item.objId
        (if sequence.callFirst then sequence.call else sequence.lea) item.sectionVa one =
          .ok two ∧
      sequence.window three = sequence.window two ∧
      ctx.reloc.applyReloc item.obj item.objId
        (if sequence.callFirst then sequence.lea else sequence.call) item.sectionVa three =
          .ok four ∧
      sequence.window final = sequence.window four := by
  have whole := sequence.length_secBuf
  have apart := sequence.apart
  rw [DispatchCtx.sectionBytes, sequence.isSlice] at isBytes
  change item.isec.relocs.foldlM _ sequence.secBuf = Except.ok final at isBytes
  rw [sequence.isRelocs] at isBytes inside
  rw [List.foldlM_append] at isBytes
  rcases bind_ok isBytes with ⟨one, isOne, isBytes⟩
  rw [List.foldlM_cons] at isBytes
  rcases bind_ok isBytes with ⟨two, isTwo, isBytes⟩
  rw [List.foldlM_append] at isBytes
  rcases bind_ok isBytes with ⟨three, isThree, isBytes⟩
  rw [List.foldlM_cons] at isBytes
  rcases bind_ok isBytes with ⟨four, isFour, isFinal⟩
  have first := ApplyCtx.agree_applyRelocs
    (fun reloc present => inside reloc (by simp [present]))
    (fun reloc present => apart reloc (by simp [present])) isOne
  have second := ApplyCtx.agree_applyRelocs
    (fun reloc present => inside reloc (by simp [present]))
    (fun reloc present => apart reloc (by simp [present])) isThree
  have third := ApplyCtx.agree_applyRelocs
    (fun reloc present => inside reloc (by simp [present]))
    (fun reloc present => apart reloc (by simp [present])) isFinal
  have oneWhole := first.length.symm.trans whole
  have twoWhole := (ctx.applyReloc_contained (inside _ (by simp)) oneWhole).kept two isTwo
  exact ⟨one, two, three, four, oneWhole,
    second.length.symm.trans (twoWhole.trans oneWhole), sequence.window_of_agree first, isTwo,
    sequence.window_of_agree second, isFour, sequence.window_of_agree third⟩

theorem size_ge : 8 ≤ sequence.size - 4 := by
  rw [TlsSequence.size]
  cases sequence.model <;> cases sequence.form <;> decide

theorem not_relaxed_of_lea {seen : List UInt8}
    (front : seen.take 1 = sequence.model.lea.take 1) : ¬ sequence.Relaxed seen := by
  rintro ⟨tp, _, rfl⟩
  cases isModel : sequence.model with
  | generalDynamic =>
      rw [isModel] at front
      exact absurd front (show ¬ [(0x64 : UInt8)] = [0x66] by decide)
  | localDynamic =>
      rw [isModel] at front
      cases isForm : sequence.form with
      | direct =>
          rw [isForm] at front
          exact absurd front (show ¬ [(0x66 : UInt8)] = [0x48] by decide)
      | indirect =>
          rw [isForm] at front
          exact absurd front (show ¬ [(0x66 : UInt8)] = [0x48] by decide)

theorem not_relaxed_of_short {seen : List UInt8} (isModel : sequence.model = .localDynamic)
    (isForm : sequence.form = .indirect)
    (front : seen.take 4 = [0x66, 0x66, 0x66, 0x64]) : ¬ sequence.Relaxed seen := by
  rintro ⟨tp, _, rfl⟩
  rw [isModel, isForm] at front
  exact absurd front (show ¬ [(0x66 : UInt8), 0x66, 0x66, 0x66] = [0x66, 0x66, 0x66, 0x64] by
    decide)

theorem take_window {buf : List UInt8} (count : Nat) (within : count ≤ sequence.size) :
    (sequence.window buf).take count = (buf.drop sequence.start).take count := by
  rw [window, List.take_take, Nat.min_eq_left within]

theorem take_window_secBuf :
    (sequence.window sequence.secBuf).take 3 = sequence.model.lea.take 3 := by
  rw [sequence.window_secBuf]
  cases sequence.model <;> rfl

theorem relaxed_general_iff (isModel : sequence.model = .generalDynamic) (value : Int64) :
    sequence.Relaxed (TlsModel.localExec .generalDynamic sequence.form value) ↔
      ∃ tp, sequence.tpOffset = some tp ∧ value.toInt32 = tp.toInt32 := by
  rw [Relaxed, isModel]
  constructor
  · rintro ⟨tp, isTp, same⟩
    refine ⟨tp, isTp rfl, ?_⟩
    have words := List.append_cancel_left same
    have equal := congrArg fromLeBytes words
    rw [fromLeBytes_le32, fromLeBytes_le32] at equal
    exact congrArg Int32.ofUInt32 (UInt32.toNat_inj.mp equal)
  · rintro ⟨tp, isTp, same⟩
    refine ⟨tp, fun _ => isTp, ?_⟩
    rw [TlsModel.localExec, TlsModel.localExec, same]

section Relaxes

variable (executable : ctx.reloc.shared = false)
variable (inside : ∀ reloc ∈ item.isec.relocs, reloc.Inside item.isec)
variable {final : List UInt8} (isBytes : ctx.sectionBytes item = .ok final)

include executable inside isBytes

theorem exists_lea (direct : sequence.form = .direct) :
    ∃ buf after, buf.length = item.isec.data.len.toNat ∧
      sequence.window buf = sequence.window sequence.secBuf ∧
      ctx.reloc.applyReloc item.obj item.objId sequence.lea item.sectionVa buf = .ok after ∧
      sequence.window final = sequence.window after := by
  rcases sequence.exists_steps inside isBytes with
    ⟨one, two, three, four, oneWhole, threeWhole, isOne, isTwo, isThree, isFour, isFinal⟩
  cases isFirst : sequence.callFirst with
  | true =>
      rw [isFirst] at isTwo isFour
      have kept := sequence.window_direct executable direct isTwo
      exact ⟨three, four, threeWhole, isThree.trans (kept ▸ isOne), isFour, isFinal⟩
  | false =>
      rw [isFirst] at isTwo isFour
      have kept := sequence.window_direct executable direct isFour
      exact ⟨one, two, oneWhole, isOne, isTwo, isFinal.trans (kept ▸ isThree)⟩

theorem relaxed_direct_iff (direct : sequence.form = .direct) :
    sequence.Relaxed (sequence.window final) ↔ sequence.Relaxes := by
  rcases sequence.exists_lea executable inside isBytes direct with
    ⟨buf, after, whole, isBuf, applied, isFinal⟩
  have three : 3 ≤ sequence.size := by have := sequence.size_ge; omega
  have front := sequence.take_window_secBuf
  rw [← isBuf] at front
  rcases sequence.window_lea whole executable applied with ⟨unplaced, rfl⟩ |
    ⟨placed, general, dynamic⟩
  · have isLea := congrArg (List.take 1) front
    rw [List.take_take, List.take_take, ← isFinal] at isLea
    exact iff_of_false (sequence.not_relaxed_of_lea isLea) fun relaxes => unplaced relaxes.1
  · rw [isFinal]
    cases isModel : sequence.model with
    | generalDynamic =>
        have prologue : (buf.drop sequence.start).take 3 = [0x66, 0x48, 0x8d] := by
          rw [← sequence.take_window 3 three, front, isModel]
          rfl
        rcases general isModel prologue with ⟨value, isValue, written⟩
        rw [written, isModel, sequence.relaxed_general_iff isModel, Relaxes, isModel, direct]
        constructor
        · rintro ⟨tp, isTp, _⟩
          exact ⟨placed, by rw [isTp]; rfl⟩
        · rintro ⟨_, known⟩
          rcases Option.isSome_iff_exists.mp known with ⟨tp, isTp⟩
          exact ⟨tp, isTp, by rw [isValue tp isTp]⟩
    | localDynamic =>
        have length := sequence.length_window whole
        have size : sequence.size = 12 := by
          rw [TlsSequence.size, isModel, direct]
          rfl
        have written := dynamic isModel
        rw [List.drop_eq_nil_of_le (by omega), List.append_nil] at written
        refine iff_of_true ⟨0, fun other => ?_, ?_⟩ ?_
        · rw [isModel] at other
          exact nomatch other
        · rw [written, isModel, direct]
          rfl
        · rw [Relaxes, isModel, direct]
          exact ⟨placed, trivial⟩

theorem relaxed_callFirst_iff (indirect : sequence.form = .indirect)
    (isFirst : sequence.callFirst = true) :
    sequence.Relaxed (sequence.window final) ↔ sequence.Relaxes := by
  rcases sequence.exists_steps inside isBytes with
    ⟨one, two, three, four, oneWhole, threeWhole, isOne, isTwo, isThree, isFour, isFinal⟩
  rw [isFirst] at isTwo isFour
  have large := sequence.size_ge
  have front : (sequence.window three).take 3 = sequence.model.lea.take 3 := by
    rw [isThree, sequence.take_window_call oneWhole executable isTwo (by omega), isOne]
    exact sequence.take_window_secBuf
  rcases sequence.window_lea threeWhole executable isFour with ⟨unplaced, same⟩ |
    ⟨placed, general, dynamic⟩
  · have isLea := congrArg (List.take 1) front
    rw [List.take_take, List.take_take, ← same, ← isFinal] at isLea
    exact iff_of_false (sequence.not_relaxed_of_lea isLea) fun relaxes => unplaced relaxes.1
  · rw [isFinal]
    cases isModel : sequence.model with
    | generalDynamic =>
        have prologue : (three.drop sequence.start).take 3 = [0x66, 0x48, 0x8d] := by
          rw [← sequence.take_window 3 (by omega), front, isModel]
          rfl
        rcases general isModel prologue with ⟨value, isValue, written⟩
        rw [written, isModel, sequence.relaxed_general_iff isModel, Relaxes, isModel, indirect]
        constructor
        · rintro ⟨tp, isTp, _⟩
          exact ⟨placed, tp, isTp, Or.inl isFirst⟩
        · rintro ⟨_, tp, isTp, _⟩
          exact ⟨tp, isTp, by rw [isValue tp isTp]⟩
    | localDynamic =>
        rw [dynamic isModel]
        refine iff_of_false (sequence.not_relaxed_of_short isModel indirect rfl) ?_
        rw [Relaxes, isModel, indirect]
        exact And.right

theorem relaxed_leaFirst_iff (indirect : sequence.form = .indirect)
    (isFirst : sequence.callFirst = false) :
    sequence.Relaxed (sequence.window final) ↔ sequence.Relaxes := by
  rcases sequence.exists_steps inside isBytes with
    ⟨one, two, three, four, oneWhole, threeWhole, isOne, isTwo, isThree, isFour, isFinal⟩
  rw [isFirst] at isTwo isFour
  have large := sequence.size_ge
  have front : (sequence.window one).take 3 = sequence.model.lea.take 3 := by
    rw [isOne]
    exact sequence.take_window_secBuf
  have kept {count : Nat} (within : count ≤ sequence.size - 4) :
      (sequence.window final).take count = (sequence.window two).take count := by
    rw [isFinal, sequence.take_window_call threeWhole executable isFour within, isThree]
  rcases sequence.window_lea oneWhole executable isTwo with ⟨unplaced, same⟩ |
    ⟨placed, general, dynamic⟩
  · have isLea := congrArg (List.take 1) front
    rw [List.take_take, List.take_take, ← same] at isLea
    exact iff_of_false (sequence.not_relaxed_of_lea ((kept (by omega)).trans isLea))
      fun relaxes => unplaced relaxes.1
  · cases isModel : sequence.model with
    | generalDynamic =>
        have prologue : (one.drop sequence.start).take 3 = [0x66, 0x48, 0x8d] := by
          rw [← sequence.take_window 3 (by omega), front, isModel]
          rfl
        have size : sequence.size = 16 := by
          rw [TlsSequence.size, isModel, indirect]
          rfl
        rcases general isModel prologue with ⟨value, isValue, written⟩
        rw [isModel] at written
        rcases sequence.window_indirect threeWhole indirect isFour with ⟨none, same⟩ |
          ⟨displacement, isCall, overwritten⟩
        · rw [isFinal, same, isThree, written, sequence.relaxed_general_iff isModel, Relaxes,
            isModel, indirect]
          constructor
          · rintro ⟨tp, isTp, _⟩
            refine ⟨placed, tp, isTp, Or.inr fun other isOther => ?_⟩
            rw [none] at isOther
            exact nomatch isOther
          · rintro ⟨_, tp, isTp, _⟩
            exact ⟨tp, isTp, by rw [isValue tp isTp]⟩
        · rw [isThree, written, size] at overwritten
          change sequence.window four =
            TlsModel.localExec .generalDynamic sequence.form displacement at overwritten
          rw [isFinal, overwritten, sequence.relaxed_general_iff isModel, Relaxes, isModel,
            indirect]
          constructor
          · rintro ⟨tp, isTp, same⟩
            refine ⟨placed, tp, isTp, Or.inr fun other isOther => ?_⟩
            rw [isCall] at isOther
            cases isOther
            exact same
          · rintro ⟨_, tp, isTp, first | same⟩
            · rw [isFirst] at first
              exact nomatch first
            · exact ⟨tp, isTp, same displacement isCall⟩
    | localDynamic =>
        refine iff_of_false (sequence.not_relaxed_of_short isModel indirect ?_) ?_
        · rw [kept (by omega), dynamic isModel]
          rfl
        · rw [Relaxes, isModel, indirect]
          exact And.right

/-- The bytes of a section that is relocated without an error. -/
theorem relaxed_iff : sequence.Relaxed (sequence.window final) ↔ sequence.Relaxes := by
  cases form : sequence.form with
  | direct => exact sequence.relaxed_direct_iff executable inside isBytes form
  | indirect =>
      cases isFirst : sequence.callFirst with
      | true => exact sequence.relaxed_callFirst_iff executable inside isBytes form isFirst
      | false => exact sequence.relaxed_leaFirst_iff executable inside isBytes form isFirst

end Relaxes

end TlsSequence

end Peony
