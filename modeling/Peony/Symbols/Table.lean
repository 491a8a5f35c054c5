import Peony.Object.Model

namespace Peony

/-! The global symbol table: one resolution for each name, built by merging the
non-local symbols of every object in the order the objects are added. -/

/-! ## Resolutions -/

abbrev SymbolId := UInt32

abbrev ObjectId := UInt32

def SymbolId.placeholder : SymbolId := 0xFFFFFFFF

structure SymbolResolution where
  id : SymbolId
  binding : Binding
  definedIn : Option ObjectId
  sectionIndex : Option Nat
  value : UInt64
  size : UInt64
  /-- Size and alignment of a tentative definition awaiting allocation. -/
  common : Option (UInt64 × UInt64)
  isImport : Bool
  copyReloc : Bool
  dynsymIndex : UInt32
  virtualAddress : UInt64
  gotAddress : UInt64
  pltAddress : UInt64
  gottpAddress : UInt64
  version : Option (List UInt8)
  soname : Option String
  isIfunc : Bool
  stType : UInt8
  visibility : UInt8
deriving DecidableEq, Repr

namespace SymbolResolution

def makeUndefinedResolution : SymbolResolution where
  id := SymbolId.placeholder
  binding := .global
  definedIn := none
  sectionIndex := none
  value := 0
  size := 0
  common := none
  isImport := false
  copyReloc := false
  dynsymIndex := 0
  virtualAddress := 0
  gotAddress := 0
  pltAddress := 0
  gottpAddress := 0
  version := none
  soname := none
  isIfunc := false
  stType := 0
  visibility := 0

def cachedDefined (virtualAddress gotAddress pltAddress size : UInt64) :
    SymbolResolution :=
  { makeUndefinedResolution with
    definedIn := some 0
    size := size
    virtualAddress := virtualAddress
    gotAddress := gotAddress
    pltAddress := pltAddress }

def isDefined (resolution : SymbolResolution) : Bool :=
  resolution.definedIn.isSome || resolution.isImport

/-- Whether a shared object lists the symbol in `.dynsym` as an export. -/
def isExport (resolution : SymbolResolution) : Bool :=
  resolution.definedIn.isSome && !resolution.isImport &&
    resolution.common.isNone &&
    (resolution.visibility == 0 || resolution.visibility == 3)

end SymbolResolution

inductive SymbolError where
  | duplicateSymbol (name : Name) (first second : String)
  | undefinedSymbol (name : Name)
deriving DecidableEq, Repr

/-! ## The table -/

structure SymbolTable where
  resolutions : AList (fun _ : Name => SymbolResolution)
  names : List Name
  objectPaths : List String

namespace SymbolTable

def new : SymbolTable := ⟨∅, [], []⟩

def lookup (table : SymbolTable) (name : Name) : Option SymbolResolution :=
  table.resolutions.lookup name

/-- Write the resolution of one name; every other entry keeps its own. -/
def put (table : SymbolTable) (name : Name) (resolution : SymbolResolution) :
    SymbolTable :=
  { table with resolutions := table.resolutions.insert name resolution }

def nextId (table : SymbolTable) : SymbolId :=
  UInt32.ofNat table.names.length

def pushName (table : SymbolTable) (name : Name) : SymbolTable :=
  { table with names := table.names ++ [name] }

def addObject (table : SymbolTable) (path : String) : SymbolTable × ObjectId :=
  ({ table with objectPaths := table.objectPaths ++ [path] },
    UInt32.ofNat table.objectPaths.length)

@[simp] theorem lookup_new (name : Name) : new.lookup name = none := rfl

@[simp] theorem lookup_put_self
    (table : SymbolTable) (name : Name) (resolution : SymbolResolution) :
    (table.put name resolution).lookup name = some resolution :=
  AList.lookup_insert _

theorem lookup_put_of_ne
    (table : SymbolTable) {name other : Name} (resolution : SymbolResolution)
    (different : other ≠ name) :
    (table.put name resolution).lookup other = table.lookup other :=
  AList.lookup_insert_ne different

@[simp] theorem lookup_pushName (table : SymbolTable) (name other : Name) :
    (table.pushName name).lookup other = table.lookup other := rfl

@[simp] theorem lookup_addObject
    (table : SymbolTable) (path : String) (name : Name) :
    (table.addObject path).1.lookup name = table.lookup name := rfl

@[simp] theorem objectPaths_put
    (table : SymbolTable) (name : Name) (resolution : SymbolResolution) :
    (table.put name resolution).objectPaths = table.objectPaths := rfl

@[simp] theorem objectPaths_pushName (table : SymbolTable) (name : Name) :
    (table.pushName name).objectPaths = table.objectPaths := rfl

/-! ## Merging one symbol -/

inductive ConflictAction where
  | satisfyUndef | upgrade | keepExisting | warnLocal
deriving DecidableEq, Repr

/-- Object ids are only ever issued by `addObject`, so the two path lookups of
the error stay inside `objectPaths`. -/
def conflictAction
    (existing : SymbolResolution) (objId : ObjectId) (sym : InputSymbol)
    (objectPaths : List String) : Except SymbolError ConflictAction :=
  match existing.definedIn, existing.binding, sym.binding with
  | none, _, _ => .ok .satisfyUndef
  | some _, .weak, .global => .ok .upgrade
  | some first, .global, .global =>
      .error (.duplicateSymbol sym.name
        (objectPaths.getD first.toNat "") (objectPaths.getD objId.toNat ""))
  | some _, _, .weak => .ok .keepExisting
  | some _, _, _ => .ok .warnLocal

/-- An undefined reference leaves a definition alone and otherwise records the
strongest binding seen so far. -/
def mergeUndefined (table : SymbolTable) (sym : InputSymbol) : SymbolTable :=
  match table.lookup sym.name with
  | some entry =>
      if entry.definedIn.isSome then table
      else if sym.binding = .global then
        table.put sym.name { entry with binding := .global }
      else table
  | none =>
      table.put sym.name
        { SymbolResolution.makeUndefinedResolution with
          binding := sym.binding }

def mergeCommon
    (table : SymbolTable) (objId : ObjectId) (sym : InputSymbol) :
    SymbolTable :=
  let size := sym.size
  let align := max sym.value 1
  match table.lookup sym.name with
  | some entry =>
      match entry.definedIn.isSome, entry.common with
      | true, none => table
      | _, some (entrySize, entryAlign) =>
          table.put sym.name
            { entry with
              common := some (max size entrySize, max align entryAlign)
              size := max size entrySize }
      | false, none =>
          (table.pushName sym.name).put sym.name
            { entry with
              id := table.nextId
              binding := sym.binding
              definedIn := some objId
              sectionIndex := none
              size := size
              common := some (size, align) }
  | none =>
      (table.pushName sym.name).put sym.name
        { SymbolResolution.makeUndefinedResolution with
          id := table.nextId
          binding := sym.binding
          definedIn := some objId
          size := size
          common := some (size, align) }

def mergeDefined
    (table : SymbolTable) (objId : ObjectId) (sym : InputSymbol) :
    Except SymbolError SymbolTable :=
  match table.lookup sym.name with
  | some entry =>
      if entry.common.isSome then
        -- A real definition overrides any prior tentative one. This branch
        -- writes every field of the sibling below except `isIfunc`.
        .ok (table.put sym.name
          { entry with
            binding := sym.binding
            definedIn := some objId
            sectionIndex := sym.sectionIndex
            value := sym.value
            size := sym.size
            common := none
            stType := sym.stType
            visibility := sym.visibility })
      else do
        let action ← conflictAction entry objId sym table.objectPaths
        match action with
        | .satisfyUndef =>
            return (table.pushName sym.name).put sym.name
              { entry with
                id := table.nextId
                binding := sym.binding
                definedIn := some objId
                sectionIndex := sym.sectionIndex
                value := sym.value
                size := sym.size
                isIfunc := sym.isIfunc
                stType := sym.stType
                visibility := sym.visibility }
        | .upgrade =>
            return table.put sym.name
              { entry with
                binding := sym.binding
                definedIn := some objId
                sectionIndex := sym.sectionIndex
                value := sym.value
                size := sym.size
                isIfunc := sym.isIfunc
                stType := sym.stType
                visibility := sym.visibility }
        | .keepExisting => return table
        | .warnLocal => return table
  | none =>
      .ok ((table.pushName sym.name).put sym.name
        { SymbolResolution.makeUndefinedResolution with
          id := table.nextId
          binding := sym.binding
          definedIn := some objId
          sectionIndex := sym.sectionIndex
          value := sym.value
          size := sym.size
          isIfunc := sym.isIfunc
          stType := sym.stType
          visibility := sym.visibility })

def mergeSymbol
    (table : SymbolTable) (objId : ObjectId) (sym : InputSymbol) :
    Except SymbolError SymbolTable :=
  if sym.isUndefined then .ok (table.mergeUndefined sym)
  else if sym.isCommon then .ok (table.mergeCommon objId sym)
  else table.mergeDefined objId sym

/-! ## Merging one object -/

/-- The symbols `processObjectExcluding` passes over: locals, nameless symbols
and those that live in a discarded COMDAT section. -/
def skipsSymbol (excluded : List Nat) (sym : InputSymbol) : Bool :=
  sym.binding == .local || sym.name.isEmpty ||
    (match sym.sectionIndex with
      | some sectionIndex => excluded.contains sectionIndex
      | none => false)

def processObjectExcluding
    (table : SymbolTable) (objId : ObjectId) (obj : InputObject)
    (excluded : List Nat) : Except SymbolError SymbolTable :=
  obj.symbols.foldlM
    (fun table sym =>
      if skipsSymbol excluded sym then .ok table
      else table.mergeSymbol objId sym)
    table

/-! ## Other updates -/

/-- Ensure a strong undefined reference to `name`, as `-u` asks for. -/
def forceUndefined (table : SymbolTable) (name : Name) : SymbolTable :=
  let entry := (table.lookup name).getD
    SymbolResolution.makeUndefinedResolution
  table.put name
    (if entry.isDefined then entry else { entry with binding := .global })

def defineAbsolute
    (table : SymbolTable) (name : Name) (value : UInt64) : SymbolTable :=
  let entry := (table.lookup name).getD
    SymbolResolution.makeUndefinedResolution
  table.put name
    { entry with
      definedIn := some 0
      sectionIndex := none
      value := value
      virtualAddress := value }

def insertCached
    (table : SymbolTable) (name : Name) (resolution : SymbolResolution) :
    SymbolTable :=
  table.put name resolution

def idCount (table : SymbolTable) : Nat := table.names.length

def nameById (table : SymbolTable) (id : SymbolId) : Option Name :=
  table.names[id.toNat]?

end SymbolTable

end Peony
