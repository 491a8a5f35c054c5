import Mathlib.Data.List.MinMax
import Peony.Symbols.Table

namespace Peony

/-! What symbol resolution is for: the resolution of one name as a function of
everything the objects say about that name, taken as a whole. -/

/-! ## Contributions -/

/-- What one object says about one name. Local symbols are never recorded. -/
structure Contribution where
  object : ObjectId
  symbol : InputSymbol
  visible : symbol.binding ≠ Binding.local
deriving DecidableEq

namespace Contribution

def name (contribution : Contribution) : Name := contribution.symbol.name

def strong (contribution : Contribution) : Bool :=
  contribution.symbol.binding == .global

def isReference (contribution : Contribution) : Bool :=
  contribution.symbol.isUndefined

def isTentative (contribution : Contribution) : Bool :=
  !contribution.symbol.isUndefined && contribution.symbol.isCommon

def isReal (contribution : Contribution) : Bool :=
  !contribution.symbol.isUndefined && !contribution.symbol.isCommon

/-- The alignment of a tentative definition is carried in its value. -/
def align (contribution : Contribution) : UInt64 :=
  max contribution.symbol.value 1

/-- Real definitions come before tentative ones and, among each, strong ones
before weak ones. -/
def rank (contribution : Contribution) : Nat :=
  (if contribution.isReal then 2 else 0) +
    (if contribution.strong then 1 else 0)

theorem binding_of_strong {contribution : Contribution}
    (strong : contribution.strong = true) :
    contribution.symbol.binding = .global := by
  simpa [Contribution.strong] using strong

theorem binding_of_not_strong {contribution : Contribution}
    (notStrong : contribution.strong = false) :
    contribution.symbol.binding = .weak := by
  have visible := contribution.visible
  cases equal : contribution.symbol.binding with
  | «local» => exact absurd equal visible
  | global => simp [Contribution.strong, equal] at notStrong
  | weak => rfl

theorem isReal_eq_false_of_isTentative {contribution : Contribution}
    (tentative : contribution.isTentative = true) :
    contribution.isReal = false := by
  simp only [isTentative, Bool.and_eq_true] at tentative
  simp [isReal, tentative.2]

end Contribution

/-! ## The reference -/

/-- The fields of a resolution that precedence decides. -/
structure Outcome where
  definedIn : Option ObjectId
  sectionIndex : Option Nat
  value : UInt64
  size : UInt64
  binding : Binding
  visibility : UInt8
  stType : UInt8
  isIfunc : Bool
  common : Option (UInt64 × UInt64)
  isImport : Bool
deriving DecidableEq

namespace Precedence

def reals (contributions : List Contribution) : List Contribution :=
  contributions.filter Contribution.isReal

def tentatives (contributions : List Contribution) : List Contribution :=
  contributions.filter Contribution.isTentative

/-- A definition is whatever is not a mere reference. -/
def definitions (contributions : List Contribution) : List Contribution :=
  contributions.filter fun contribution => !contribution.isReference

/-- The first definition of the highest rank. -/
def winner (contributions : List Contribution) : Option Contribution :=
  (definitions contributions).argmax Contribution.rank

def maxSize (contributions : List Contribution) : UInt64 :=
  (tentatives contributions).foldl
    (fun size contribution => max contribution.symbol.size size) 0

def maxAlign (contributions : List Contribution) : UInt64 :=
  (tentatives contributions).foldl
    (fun align contribution => max contribution.align align) 0

/-- A name that is only referenced keeps its strongest binding. -/
def strongest (contributions : List Contribution) : Binding :=
  if contributions.any Contribution.strong then .global else .weak

def realOutcome (winner : Contribution) : Outcome where
  definedIn := some winner.object
  sectionIndex := winner.symbol.sectionIndex
  value := winner.symbol.value
  size := winner.symbol.size
  binding := winner.symbol.binding
  visibility := winner.symbol.visibility
  stType := winner.symbol.stType
  isIfunc := winner.symbol.isIfunc
  common := none
  isImport := false

/-- A tentative definition has no section and no value yet: its storage is
allocated later, with the merged size and alignment. -/
def tentativeOutcome (winner : Contribution) (size align : UInt64) :
    Outcome where
  definedIn := some winner.object
  sectionIndex := none
  value := 0
  size := size
  binding := winner.symbol.binding
  visibility := winner.symbol.visibility
  stType := winner.symbol.stType
  isIfunc := winner.symbol.isIfunc
  common := some (size, align)
  isImport := false

def undefinedOutcome (binding : Binding) : Outcome where
  definedIn := none
  sectionIndex := none
  value := 0
  size := 0
  binding := binding
  visibility := 0
  stType := 0
  isIfunc := false
  common := none
  isImport := false

/-- The resolution of one name by precedence over all contributions to it. -/
def outcome (contributions : List Contribution) : Option Outcome :=
  match winner contributions with
  | some chosen =>
      if chosen.isReal then some (realOutcome chosen)
      else some (tentativeOutcome chosen (maxSize contributions)
        (maxAlign contributions))
  | none =>
      if contributions.isEmpty then none
      else some (undefinedOutcome (strongest contributions))

/-- Two strong real definitions of one name. -/
def Duplicate (contributions : List Contribution) : Prop :=
  2 ≤ (reals contributions).countP Contribution.strong

instance (contributions : List Contribution) :
    Decidable (Duplicate contributions) :=
  inferInstanceAs (Decidable (2 ≤ _))

/-! ## Adding one contribution -/

section Snoc

variable (contributions : List Contribution) (last : Contribution)

theorem reals_snoc :
    reals (contributions ++ [last]) =
      if last.isReal then reals contributions ++ [last]
      else reals contributions := by
  cases real : last.isReal <;> simp [reals, real]

theorem tentatives_snoc :
    tentatives (contributions ++ [last]) =
      if last.isTentative then tentatives contributions ++ [last]
      else tentatives contributions := by
  cases tentative : last.isTentative <;> simp [tentatives, tentative]

theorem definitions_snoc :
    definitions (contributions ++ [last]) =
      if last.isReference then definitions contributions
      else definitions contributions ++ [last] := by
  cases reference : last.isReference <;> simp [definitions, reference]

theorem strongest_snoc :
    strongest (contributions ++ [last]) =
      if last.strong then .global else strongest contributions := by
  cases strong : last.strong <;> simp [strongest, strong]

theorem maxSize_snoc :
    maxSize (contributions ++ [last]) =
      if last.isTentative then max last.symbol.size (maxSize contributions)
      else maxSize contributions := by
  cases tentative : last.isTentative <;>
    simp [maxSize, tentatives_snoc, tentative]

theorem maxAlign_snoc :
    maxAlign (contributions ++ [last]) =
      if last.isTentative then max last.align (maxAlign contributions)
      else maxAlign contributions := by
  cases tentative : last.isTentative <;>
    simp [maxAlign, tentatives_snoc, tentative]

end Snoc

/-! ## Which contributions decide the winner -/

theorem mem_definitions {contributions : List Contribution}
    {contribution : Contribution} :
    contribution ∈ definitions contributions ↔
      contribution ∈ contributions ∧
        (contribution.isReal = true ∨ contribution.isTentative = true) := by
  cases undefined : contribution.symbol.isUndefined <;>
    cases common : contribution.symbol.isCommon <;>
      simp [definitions, Contribution.isReference, Contribution.isReal,
        Contribution.isTentative, undefined, common]

theorem definitions_eq_tentatives {contributions : List Contribution}
    (noReals : reals contributions = []) :
    definitions contributions = tentatives contributions := by
  apply List.filter_congr
  intro contribution member
  have notReal : contribution.isReal = false := by
    simpa [reals] using List.filter_eq_nil_iff.mp noReals contribution member
  cases undefined : contribution.symbol.isUndefined <;>
    simp_all [Contribution.isReference, Contribution.isTentative,
      Contribution.isReal]

end Precedence

end Peony
