import Peony.Symbols.Updates

namespace Peony

/-! Names that shared libraries define, and the table seen by ids. -/

structure SharedExport where
  name : Name
  version : Option Name
  size : UInt64
  stType : UInt8
deriving DecidableEq, Repr

namespace SymbolTable

/-- A name that is referenced and has no definition yet becomes an import. -/
def registerSharedExport (soname : String) (table : SymbolTable)
    (exported : SharedExport) : SymbolTable :=
  match table.lookup exported.name with
  | some entry =>
      if entry.definedIn.isNone && !entry.isImport then
        (table.pushName exported.name).put exported.name
          { entry with
            isImport := true
            copyReloc := false
            id := table.nextId
            version := exported.version
            soname := some soname
            size := exported.size
            stType := exported.stType }
      else table
  | none => table

def registerSharedExportSymbols (table : SymbolTable) (exports : List SharedExport)
    (soname : String) : SymbolTable :=
  exports.foldl (registerSharedExport soname) table

/-- The resolutions by their ids, as far as the names have ids. -/
def buildIdIndex (table : SymbolTable) : List (Option SymbolResolution) :=
  table.names.foldl
    (fun index name =>
      match table.lookup name with
      | some entry =>
          if entry.id.toNat < index.length then index.set entry.id.toNat (some entry)
          else index
      | none => index)
    (List.replicate table.names.length none)

end SymbolTable

end Peony
