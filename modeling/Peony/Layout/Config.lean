import Mathlib.Data.List.Sort
import Peony.Foundation.Alignment
import Peony.Gc.Live
import Peony.Layout.Model
import Peony.Layout.Script

namespace Peony

/-! What a layout is computed from, and the small functions that its passes
share. -/

/-! ## Section filters -/

/-- Which input sections the layout emits. -/
inductive SectionFilter where
  | all
  | only (keys : Finset SectionKey)
  | onlyLive (live : LiveSections)
  | except (keys : Finset SectionKey)

def SectionFilter.emits (filter : SectionFilter) (key : SectionKey) : Bool :=
  match filter with
  | .all => true
  | .only keys => decide (key ∈ keys)
  | .onlyLive live => live.contains key
  | .except keys => !decide (key ∈ keys)

/-! ## Errors -/

inductive LayoutError where
  | badAlignment (align : UInt64) (object : String)
  | addressOverflow
  | noEntry (name : Name)
  | undefined (name : Name)
  | phdrCountMismatch (predicted actual : UInt64)
  | unsupported (feature : Text)
deriving DecidableEq, Repr

/-! ## Options and demands -/

inductive HashStyle where
  | sysv | gnu | both
deriving DecidableEq, Repr

/-- A symbol that `.dynsym` lists as an export. -/
structure ExportSym where
  name : Name
  info : UInt8
  other : UInt8
deriving DecidableEq, Repr

structure DynamicInfo where
  /-- Imported names, in the order of `.dynsym`. -/
  imports : List Name := []
  importVersions : List (Option Name) := []
  importSonames : List (Option Name) := []
  needed : List Name := []
  interp : Option (List UInt8) := none
  rpath : Option Name := none
  enableNewDtags : Bool := false
  hashStyle : HashStyle := .both
  pie : Bool := false
  nRelative : Nat := 0
  nIrelative : Nat := 0
  shared : Bool := false
  soname : Option Name := none
  exports : List ExportSym := []
  nTlsReloc : Nat := 0
  copyRelocs : List SymbolId := []
  nSymbolicData : Nat := 0
deriving DecidableEq, Repr

structure TlsGotInfo where
  gd : List TlsRef := []
  ie : List TlsRef := []
  desc : List TlsRef := []
  ldm : Bool := false
deriving DecidableEq, Repr

def TlsGotInfo.byteSize (tls : TlsGotInfo) : UInt64 :=
  UInt64.ofNat tls.gd.length * 16 + UInt64.ofNat tls.desc.length * 16 +
    (if tls.ldm then 16 else 0) + UInt64.ofNat tls.ie.length * 8

structure LayoutConfig where
  baseAddress : UInt64 := 0x400000
  pageSize : UInt64 := 0x1000
  entrySymbol : Name := nameOf "_start"
  buildId : Bool := false
  strip : Bool := false
  stripDebug : Bool := false
  pie : Bool := false
  shared : Bool := false
  emitRelocs : Bool := false
  script : Option ScriptLayout := none
deriving DecidableEq, Repr

structure LayoutInput where
  arena : InputArena
  objects : List InputObject
  symbols : SymbolTable
  gotSyms : List SymbolId := []
  pltSyms : List SymbolId := []
  live : SectionFilter := .all
  dynamic : Option DynamicInfo := none
  config : LayoutConfig := {}
  tls : TlsGotInfo := {}
  foldMap : Option (AList fun _ : SectionKey => SectionKey) := none

def LayoutInput.page (input : LayoutInput) : UInt64 :=
  max input.config.pageSize 1

def LayoutInput.base (input : LayoutInput) : UInt64 := input.config.baseAddress

/-! ## Output sections under construction -/

def SectionContribution.key (c : SectionContribution) : SectionKey :=
  (c.objectId, c.sectionIndex)

inductive Perm where
  | ro | rx | rw
deriving DecidableEq, Repr

structure Builder where
  name : Name
  kind : SectionKind
  shFlags : UInt64
  shType : UInt32
  align : UInt64
  size : UInt64
  perm : Perm
  isNobits : Bool
  contributions : List SectionContribution
deriving DecidableEq, Repr

/-! ## Helpers -/

/-- Whether an input section takes part in the loadable image. -/
def isAllocatable (sec : InputSection) : Bool :=
  sec.isAlloc && sec.kind != .debug && !(nameOf ".note").isPrefixOf sec.name

def permOf (flags : UInt64) : Perm :=
  if flags &&& shfExecinstr != 0 then .rx
  else if flags &&& shfWrite != 0 then .rw
  else .ro

/-- The name up to its second dot. A name that is not a string has a stand-in,
and the rest of the name is looked at only where a character begins there. -/
def outputSectionName (name : Name) : Name :=
  let s := if (fromUtf8 name).isSome then name else nameOf ".unknown"
  if (nameOf ".note.").isPrefixOf s then s
  else
    match s with
    | [] => []
    | first :: rest =>
        if rest.head?.any fun byte => 0x80 ≤ byte && byte < 0xc0 then s
        else first :: rest.takeWhile fun byte => byte != 46

def nextPowerOfTwo (word : UInt64) : UInt64 :=
  if word ≤ 1 then 1 else UInt64.ofNat (2 ^ ((word.toNat - 1).log2 + 1))

def copyRelocAlign (size : UInt64) : UInt64 :=
  max 1 (min (nextPowerOfTwo size) 16)

def alignUp (val align : UInt64) : UInt64 :=
  let align := max align 1
  (val + align - 1) &&& ~~~ (align - 1)

def sortBy {α : Type} (cmp : α → α → Ordering) (items : List α) : List α :=
  items.insertionSort fun first second => cmp first second ≠ .gt

def sortBuildersByScript (script : Option ScriptLayout)
    (builders : List Builder) : List Builder :=
  sortBy (fun a b =>
    let ak := script.bind fun s => s.orderOf a.name
    let bk := script.bind fun s => s.orderOf b.name
    match ak, bk with
    | some aIdx, some bIdx => (compare aIdx bIdx).then (compare a.name b.name)
    | some _, none => .lt
    | none, some _ => .gt
    | none, none => compare a.name b.name) builders

/-! ## Rounding -/

theorem toNat_max (first second : UInt64) :
    (max first second).toNat = max first.toNat second.toNat := by
  change (if first ≤ second then second else first).toNat = _
  split
  · rename_i ordered
    exact (max_eq_right (UInt64.le_iff_toNat_le.mp ordered)).symm
  · rename_i unordered
    rw [UInt64.le_iff_toNat_le, Nat.not_le] at unordered
    exact (max_eq_left unordered.le).symm

theorem alignUp_eq_roundMask (val align : UInt64) :
    alignUp val align = Alignment.roundMask val (max align 1 - 1) := by
  simp only [alignUp, Alignment.roundMask, UInt64.sub_eq_add_neg,
    UInt64.add_assoc]

/-- The mask of an alignment is one less than the alignment. -/
theorem toNat_mask (align : UInt64) :
    (max align 1 - 1).toNat = max align.toNat 1 - 1 := by
  have least : (1 : UInt64) ≤ max align 1 := by
    rw [UInt64.le_iff_toNat_le, toNat_max]
    exact le_max_right _ _
  rw [UInt64.toNat_sub_of_le _ _ least, toNat_max]
  rfl

private theorem mask_of_power {align : UInt64} {bits : Nat}
    (isPower : align.toNat = 2 ^ bits) :
    (max align 1 - 1).toNat = 2 ^ bits - 1 := by
  rw [toNat_mask, isPower, max_eq_left (Nat.one_le_two_pow)]

section PowerOfTwo

variable {align : UInt64} (power : align.toNat.isPowerOfTwo)

include power

theorem toNat_alignUp {val : UInt64}
    (fits : Alignment.roundUp val.toNat align.toNat < 2 ^ 64) :
    (alignUp val align).toNat = Alignment.roundUp val.toNat align.toNat := by
  rcases power with ⟨bits, isPower⟩
  rw [isPower] at fits ⊢
  rw [alignUp_eq_roundMask]
  exact Alignment.toNat_roundMask (mask_of_power isPower) fits

/-- What is rounded up is a multiple of the alignment, also when the sum wraps. -/
theorem dvd_alignUp (val : UInt64) : align.toNat ∣ (alignUp val align).toNat := by
  rcases power with ⟨bits, isPower⟩
  rw [isPower, alignUp_eq_roundMask]
  exact Alignment.dvd_roundMask (mask_of_power isPower) val

/-- A multiple of the alignment stays one when it wraps. -/
theorem dvd_add {first second : UInt64} (isFirst : align.toNat ∣ first.toNat)
    (isSecond : align.toNat ∣ second.toNat) :
    align.toNat ∣ (first + second).toNat := by
  have divides : align.toNat ∣ 2 ^ 64 := by
    rcases power with ⟨bits, isPower⟩
    rw [isPower]
    refine Nat.pow_dvd_pow 2 ?_
    by_contra large
    have bigger : 2 ^ 65 ≤ 2 ^ bits :=
      Nat.pow_le_pow_right (by decide) (by omega)
    have small := align.toNat_lt
    omega
  rw [UInt64.toNat_add]
  exact (Nat.dvd_mod_iff divides).mpr (Nat.dvd_add isFirst isSecond)

end PowerOfTwo

end Peony
