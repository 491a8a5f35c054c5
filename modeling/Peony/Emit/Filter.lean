import Peony.Object.Model

namespace Peony

inductive SectionWriteFilter where
  | all
  /-- Only the output sections with these names. -/
  | redOnly (red : List Name)
  /-- Only what these objects contribute. -/
  | changedObjects (objects : List Nat)
deriving DecidableEq, Repr

namespace SectionWriteFilter

def collectsOutputSection (filter : SectionWriteFilter) (name : Name) : Bool :=
  match filter with
  | all | changedObjects _ => true
  | redOnly red => red.contains name

def writesContribution (filter : SectionWriteFilter) (objectId : Nat) : Bool :=
  match filter with
  | all | redOnly _ => true
  | changedObjects objects => objects.contains objectId

def zeroesGaps (filter : SectionWriteFilter) (name : Name) : Bool :=
  match filter with
  | all => true
  | redOnly red => red.contains name
  | changedObjects _ => false

/-- Whether headers and synthetic sections are left as they are on disk. -/
def isMinimal (filter : SectionWriteFilter) : Bool :=
  match filter with
  | changedObjects _ => true
  | _ => false

end SectionWriteFilter

end Peony
