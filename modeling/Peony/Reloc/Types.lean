import Peony.Layout.Model

namespace Peony

/-! The x86-64 relocation types, and the slots a scan of the relocations asks
for. -/

/-! ## Relocation types -/

inductive RelocType where
  | none | r64 | pc32 | got32 | plt32 | gotpcrel | r32 | r32s | r16 | pc16 | r8
  | pc8 | dtpmod64 | dtpoff64 | tpoff64 | tlsgd | tlsld | dtpoff32 | gottpoff
  | tpoff32 | pc64 | gotoff64 | gotpc32 | size32 | size64 | gotpc32Tlsdesc
  | tlsdescCall | tlsdesc | gotpcrelx | rexGotpcrelx
deriving DecidableEq, Repr

namespace RelocType

def code : RelocType → UInt32
  | none => 0
  | r64 => 1
  | pc32 => 2
  | got32 => 3
  | plt32 => 4
  | gotpcrel => 9
  | r32 => 10
  | r32s => 11
  | r16 => 12
  | pc16 => 13
  | r8 => 14
  | pc8 => 15
  | dtpmod64 => 16
  | dtpoff64 => 17
  | tpoff64 => 18
  | tlsgd => 19
  | tlsld => 20
  | dtpoff32 => 21
  | gottpoff => 22
  | tpoff32 => 23
  | pc64 => 24
  | gotoff64 => 25
  | gotpc32 => 26
  | size32 => 32
  | size64 => 33
  | gotpc32Tlsdesc => 34
  | tlsdescCall => 35
  | tlsdesc => 36
  | gotpcrelx => 41
  | rexGotpcrelx => 42

def all : List RelocType :=
  [none, r64, pc32, got32, plt32, gotpcrel, r32, r32s, r16, pc16, r8, pc8,
    dtpmod64, dtpoff64, tpoff64, tlsgd, tlsld, dtpoff32, gottpoff, tpoff32, pc64,
    gotoff64, gotpc32, size32, size64, gotpc32Tlsdesc, tlsdescCall, tlsdesc,
    gotpcrelx, rexGotpcrelx]

/-- The type a code stands for, when the linker has a name for it. -/
def ofCode (rType : UInt32) : Option RelocType :=
  all.find? fun type => type.code == rType

@[simp] theorem ofCode_code (type : RelocType) : ofCode type.code = some type := by
  cases type <;> rfl

theorem code_of_ofCode {rType : UInt32} {type : RelocType}
    (named : ofCode rType = some type) : type.code = rType := by
  have found := List.find?_some named
  exact eq_of_beq found

/-- Whether the type is one of thread-local storage. -/
def isTls : RelocType → Bool
  | tpoff32 | tpoff64 | dtpoff32 | dtpoff64 | tlsgd | tlsld | gottpoff
  | gotpc32Tlsdesc | tlsdescCall | tlsdesc => true
  | _ => false

/-- Whether the type references a symbol through the GOT. -/
def needsGot : RelocType → Bool
  | got32 | gotpcrel | gotpcrelx | rexGotpcrelx => true
  | _ => false

/-- Whether the type encodes the address of a symbol itself, so that imported
data needs a copy relocation. -/
def mayNeedCopyReloc : RelocType → Bool
  | r64 | pc64 | r32 | r32s | pc32 | r16 | pc16 | r8 | pc8 => true
  | _ => false

end RelocType

def isTls (rType : UInt32) : Bool :=
  (RelocType.ofCode rType).any RelocType.isTls

def needsGot (rType : UInt32) : Bool :=
  (RelocType.ofCode rType).any RelocType.needsGot

def mayNeedCopyReloc (rType : UInt32) : Bool :=
  (RelocType.ofCode rType).any RelocType.mayNeedCopyReloc

/-! ## Synthetic slots -/

inductive SyntheticSlot where
  | got (id : SymbolId)
  | plt (id : SymbolId)
  | tlsGd (tlsRef : TlsRef)
  | tlsIe (tlsRef : TlsRef)
  | tlsLdm
  | tlsDesc (tlsRef : TlsRef)
deriving DecidableEq, Repr

/-- The slots the relocations require, each once, in the order of their first
use. -/
structure RelocScanResult where
  slots : List SyntheticSlot := []
deriving DecidableEq, Repr

namespace RelocScanResult

def add (result : RelocScanResult) (slot : SyntheticSlot) : RelocScanResult :=
  if slot ∈ result.slots then result else ⟨result.slots ++ [slot]⟩

def gotSymbols (result : RelocScanResult) : List SymbolId :=
  result.slots.filterMap fun
    | .got id => some id
    | _ => none

def pltSymbols (result : RelocScanResult) : List SymbolId :=
  result.slots.filterMap fun
    | .plt id => some id
    | _ => none

def tlsGdRefs (result : RelocScanResult) : List TlsRef :=
  result.slots.filterMap fun
    | .tlsGd tlsRef => some tlsRef
    | _ => none

def tlsIeRefs (result : RelocScanResult) : List TlsRef :=
  result.slots.filterMap fun
    | .tlsIe tlsRef => some tlsRef
    | _ => none

def needsTlsLdm (result : RelocScanResult) : Bool :=
  result.slots.contains .tlsLdm

def tlsDescRefs (result : RelocScanResult) : List TlsRef :=
  result.slots.filterMap fun
    | .tlsDesc tlsRef => some tlsRef
    | _ => none

end RelocScanResult

end Peony
