import Peony.Foundation.Representatives
import Peony.Object.Model

namespace Peony

/-! Identical code folding: text sections with equal bytes and relocations that
define nothing address-significant are folded onto the first of them. -/

namespace Icf

/-! ## Fold keys -/

structure FoldKey where
  flags : UInt64
  digest : UInt64 × UInt64
  len : UInt32
  relocs : List (UInt64 × UInt32 × Int64 × Name)
deriving DecidableEq

def contentDigest (bytes : List UInt8) : UInt64 × UInt64 :=
  let prime : UInt64 := 0x00000100000001b3
  bytes.foldl
    (fun (h1, h2) byte =>
      ((h1 ^^^ byte.toUInt64) * prime,
        ((h2 + byte.toUInt64) * prime) ^^^ (h2 >>> 29)))
    (0xcbf29ce484222325, 0x9e3779b97f4a7c15)

def relocTargetName (obj : InputObject) (symbol : Nat) : Option Name :=
  (obj.symbolByIndex symbol).map InputSymbol.name

/-- Everything but `R_X86_64_NONE`, `R_X86_64_PC32` and `R_X86_64_PLT32`. -/
def relocTakesAddress (rType : UInt32) : Bool :=
  !(rType == 0 || rType == 2 || rType == 4)

/-! ## Address significance -/

def shtLlvmAddrsig : UInt32 := 0x6fff4c03

structure AddrTaint where
  byName : List Name
  bySection : List (Nat × Nat)
  objectsWithAddrsig : List Nat
  addrsigSyms : List (Nat × Nat)

def AddrTaint.empty : AddrTaint := ⟨[], [], [], []⟩

/-- One unsigned LEB128 value from the front of the data, and what follows. -/
def readUleb128 : List UInt8 → UInt64 → Nat → Option (UInt64 × List UInt8)
  | [], _, _ => none
  | byte :: rest, result, shift =>
      let result := result |||
        ((byte &&& 0x7f).toUInt64 <<< UInt64.ofNat shift)
      if byte &&& 0x80 == 0 then some (result, rest)
      else if shift + 7 ≥ 64 then none
      else readUleb128 rest result (shift + 7)

/-- The symbol positions an `.llvm_addrsig` table lists, or `none` when it does
not decode. Every value takes at least one byte, so the length of the data is
enough fuel. -/
def addrsigPositions (obj : InputObject) :
    Nat → List UInt8 → Option (List Nat)
  | _, [] => some []
  | 0, _ :: _ => none
  | fuel + 1, data => do
      let (symIdx, rest) ← readUleb128 data 0 0
      let symPos ← obj.symbolPos symIdx.toNat
      let positions ← addrsigPositions obj fuel rest
      return symPos :: positions

def parseAddrsig (arena : InputArena) (taint : AddrTaint)
    (obj : InputObject) (objId : Nat) : AddrTaint :=
  match obj.sections.find? fun sec => sec.shType == shtLlvmAddrsig with
  | none => taint
  | some sec =>
      let data := arena.bytes sec.data
      match addrsigPositions obj data.length data with
      | none => taint
      | some positions =>
          { taint with
            objectsWithAddrsig := objId :: taint.objectsWithAddrsig
            addrsigSyms :=
              positions.map (fun pos => (objId, pos)) ++ taint.addrsigSyms }

def taintOneReloc (obj : InputObject) (objId : Nat) (taint : AddrTaint)
    (reloc : InputReloc) : AddrTaint :=
  if !relocTakesAddress reloc.rType then taint
  else
    match obj.symbolByIndex reloc.symbol with
    | none => taint
    | some sym =>
        if sym.name.isEmpty then
          match sym.sectionIndex with
          | some sectionIndex =>
              { taint with
                bySection := (objId, sectionIndex) :: taint.bySection }
          | none => taint
        else { taint with byName := sym.name :: taint.byName }

def taintObject (arena : InputArena) (taint : AddrTaint) (objId : Nat)
    (obj : InputObject) : AddrTaint :=
  let relocs := obj.sections.flatMap InputSection.relocs
  parseAddrsig arena (relocs.foldl (taintOneReloc obj objId) taint) obj objId

def addressTaint (arena : InputArena) (objects : List InputObject) :
    AddrTaint :=
  objects.zipIdx.foldl
    (fun taint (obj, objId) => taintObject arena taint objId obj)
    AddrTaint.empty

/-- `_ZTV`, `_ZTI` or `_ZTS`. -/
def isCxxUnique (name : Name) : Bool :=
  [95, 90, 84, 86].isPrefixOf name || [95, 90, 84, 73].isPrefixOf name ||
    [95, 90, 84, 83].isPrefixOf name

def symbolSignificant (objId sectionIndex : Nat) (taint : AddrTaint)
    (symPos : Nat) (sym : InputSymbol) : Bool :=
  if sym.sectionIndex != some sectionIndex then false
  else if sym.isUndefined then false
  else if taint.addrsigSyms.contains (objId, symPos) then true
  else if sym.name.isEmpty then false
  else if isCxxUnique sym.name then true
  else if taint.byName.contains sym.name then true
  else if sym.binding == .weak then true
  else sym.binding != Binding.local && sym.visibility == 0

def definesAddressSignificant (obj : InputObject) (objId : Nat)
    (sec : InputSection) (taint : AddrTaint) : Bool :=
  if !taint.objectsWithAddrsig.contains objId then true
  else if taint.bySection.contains (objId, sec.index) then true
  else
    obj.symbols.zipIdx.any fun (sym, symPos) =>
      symbolSignificant objId sec.index taint symPos sym

/-! ## The fold map -/

abbrev FoldMap := AList (fun _ : Nat × Nat => Nat × Nat)

def relocKeys (obj : InputObject) (relocs : List InputReloc) :
    Option (List (UInt64 × UInt32 × Int64 × Name)) :=
  relocs.mapM fun reloc => do
    let name ← relocTargetName obj reloc.symbol
    return (reloc.offset, reloc.rType, reloc.addend, name)

def foldKeyFor (arena : InputArena) (obj : InputObject) (objId pos : Nat)
    (taint : AddrTaint) : Option FoldKey := do
  let sec ← obj.sections[pos]?
  if sec.kind != .text || sec.data.len == 0 then none
  else if definesAddressSignificant obj objId sec taint then none
  else do
    let relocs ← relocKeys obj sec.relocs
    return {
      flags := sec.flags
      digest := contentDigest (arena.bytes sec.data)
      len := sec.data.len
      relocs := relocs }

/-- The canonical sections by key, each with its object, position and section
index, and the folds found so far. -/
structure FoldState where
  canonical : AList (fun _ : FoldKey => Nat × Nat × Nat)
  folds : FoldMap

def bytesAt (arena : InputArena) (objects : List InputObject)
    (objId pos : Nat) : Option (List UInt8) := do
  let obj ← objects[objId]?
  let sec ← obj.sections[pos]?
  return arena.bytes sec.data

def foldSection (arena : InputArena) (objects : List InputObject)
    (taint : AddrTaint) (objId : Nat) (obj : InputObject)
    (state : FoldState) (pos : Nat) : FoldState :=
  match obj.sections[pos]?, foldKeyFor arena obj objId pos taint with
  | some sec, some key =>
      match state.canonical.lookup key with
      | none =>
          { state with
            canonical := state.canonical.insert key (objId, pos, sec.index) }
      | some (canonObj, canonPos, canonIndex) =>
          -- The byte comparison guards against a digest collision.
          if bytesAt arena objects objId pos =
              bytesAt arena objects canonObj canonPos then
            { state with
              folds := state.folds.insert (objId, sec.index)
                (canonObj, canonIndex) }
          else state
  | _, _ => state

def foldObject (arena : InputArena) (objects : List InputObject)
    (taint : AddrTaint) (state : FoldState) (objId : Nat)
    (obj : InputObject) : FoldState :=
  (List.range obj.sections.length).foldl
    (foldSection arena objects taint objId obj) state

def computeFoldMap (arena : InputArena) (objects : List InputObject) :
    FoldMap :=
  let taint := addressTaint arena objects
  (objects.zipIdx.foldl
    (fun state (obj, objId) =>
      foldObject arena objects taint state objId obj)
    (⟨∅, ∅⟩ : FoldState)).folds

end Icf

end Peony
