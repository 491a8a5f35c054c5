import Peony.Load.ArchivePhase

namespace Peony

/-! Loading a link: bare objects, whole archives, then the two lazy phases, up
to the point where shared libraries are registered. -/

inductive FileKind where
  | bare | archive | shared
deriving DecidableEq, Repr

structure ResolvedInput where
  path : Path
  wholeArchive : Bool
  asNeeded : Bool
  startLibMember : Bool
deriving DecidableEq

def inputPaths (classify : Path → FileKind) (inputs : List ResolvedInput)
    (kind : FileKind) (flag : ResolvedInput → Bool) : List Path :=
  (inputs.filter fun input => classify input.path == kind && flag input).map
    ResolvedInput.path

namespace Resolver

def forceUndefined (resolver : Resolver) (names : List Name) : Resolver :=
  { resolver with
    symbols := names.foldl SymbolTable.forceUndefined resolver.symbols }

def includeWholeArchive (files : Files) (resolver : Resolver) (path : Path) :
    Except LoadError Resolver := do
  let file ← files.readArchive path
  resolver.resolveAll (file.members.filterMap (files.parseMember path))

end Resolver

/-- The two lazy phases of a load. The second starts from the resolver the
first ends with, and its own is the result. -/
structure Loaded where
  startLib : LazyState
  archived : ArchiveState

def Loaded.resolver (loaded : Loaded) : Resolver :=
  loaded.archived.lazy.resolver

def lazyArchives (classify : Path → FileKind) (inputs : List ResolvedInput) :
    List Path :=
  inputPaths classify inputs .archive fun input => !input.wholeArchive

/-- A lazy phase without members does nothing, so the code's test whether there
are any is left out. -/
def loadObjects (files : Files) (classify : Path → FileKind)
    (inputs : List ResolvedInput) (forcedUndefined : List Name) :
    Except LoadError Loaded := do
  let bare ← (inputPaths classify inputs .bare
    fun input => !input.startLibMember).mapM files.parseObject
  let resolver ← Resolver.empty.resolveAll bare
  let resolver := resolver.forceUndefined forcedUndefined
  let resolver ← (inputPaths classify inputs .archive
    ResolvedInput.wholeArchive).foldlM
      (Resolver.includeWholeArchive files) resolver
  let startLibObjects ← (inputPaths classify inputs .bare
    ResolvedInput.startLibMember).mapM files.parseObject
  let startLib ← includeStartLibMembers startLibObjects resolver
  let archived ← includeArchiveMembers files (lazyArchives classify inputs)
    startLib.resolver
  return ⟨startLib, archived⟩

/-! ## The table accounts for what is included -/

namespace Resolver

variable {forced : List Name}

theorem Accounts.resolveAll {resolver final : Resolver}
    {objects : List InputObject} (accounts : Accounts forced resolver)
    (resolved : resolver.resolveAll objects = .ok final) :
    Accounts forced final := by
  unfold Resolver.resolveAll at resolved
  induction objects generalizing resolver with
  | nil =>
      cases resolved
      exact accounts
  | cons obj rest induction =>
      rw [List.foldlM_cons] at resolved
      cases first : resolver.resolve obj with
      | error error => simp [first, bind, Except.bind] at resolved
      | ok next =>
          rw [first] at resolved
          exact induction (accounts.resolve first).1 resolved

theorem Accounts.includeWholeArchives {files : Files}
    {resolver final : Resolver} {paths : List Path}
    (accounts : Accounts forced resolver)
    (included :
      paths.foldlM (includeWholeArchive files) resolver = .ok final) :
    Accounts forced final := by
  induction paths generalizing resolver with
  | nil =>
      cases included
      exact accounts
  | cons path rest induction =>
      rw [List.foldlM_cons] at included
      cases first : includeWholeArchive files resolver path with
      | error error => simp [first, bind, Except.bind] at included
      | ok next =>
          rw [first] at included
          refine induction ?_ included
          unfold includeWholeArchive at first
          cases read : files.readArchive path with
          | error error => simp [read, bind, Except.bind] at first
          | ok file =>
              simp only [read, bind, Except.bind] at first
              exact accounts.resolveAll first

theorem Accounts.sameNames {other : List Name} {resolver : Resolver}
    (accounts : Accounts forced resolver) (same : ∀ name, name ∈ forced ↔ name ∈ other) :
    Accounts other resolver where
  seen := accounts.seen
  inSlot := accounts.inSlot
  defined := accounts.defined
  strong := by
    intro name
    rw [accounts.strong, show forced.contains name = other.contains name by
      rw [Bool.eq_iff_iff, List.contains_iff_mem, List.contains_iff_mem, same]]

theorem Accounts.forceOne {resolver : Resolver}
    (accounts : Accounts forced resolver) (name : Name) :
    Accounts (name :: forced)
      { resolver with symbols := resolver.symbols.forceUndefined name } := by
  have others : ∀ other, other ≠ name →
      (resolver.symbols.forceUndefined name).lookup other =
        resolver.symbols.lookup other :=
    fun other different => SymbolTable.lookup_put_of_ne _ _ different
  obtain ⟨slot, inSlot⟩ := accounts.inSlot name
  have forcedSlot := inSlot.forceUndefined
  have ownDefined : (resolver.symbols.forceUndefined name).isDefined name =
      resolver.symbols.isDefined name := by
    rw [forcedSlot.isDefined, inSlot.isDefined]
    cases slot <;> rfl
  constructor
  · exact accounts.seen
  · intro other
    by_cases equal : other = name
    · subst equal
      exact ⟨_, forcedSlot⟩
    · rw [show (resolver.symbols.forceUndefined name).lookup other = _ from
        others other equal]
      exact accounts.inSlot other
  · intro other
    change (resolver.symbols.forceUndefined name).isDefined other =
      resolver.included.any fun input => input.defines other
    rw [← accounts.defined]
    by_cases equal : other = name
    · rw [equal, ownDefined]
    · unfold SymbolTable.isDefined
      rw [others other equal]
  · intro other
    by_cases equal : other = name
    · subst equal
      have strong : (resolver.symbols.forceUndefined other).stronglyUndefined
          other = !resolver.symbols.isDefined other := by
        rw [forcedSlot.stronglyUndefined, inSlot.isDefined]
        cases slot <;> rfl
      rw [strong, ownDefined]
      simp
    · have same := accounts.strong other
      unfold SymbolTable.stronglyUndefined SymbolTable.isDefined at *
      dsimp only
      rw [others other equal, same]
      simp [equal, included]

theorem Accounts.forceUndefined {resolver : Resolver}
    (accounts : Accounts forced resolver) (names : List Name) :
    Accounts (names.reverse ++ forced) (resolver.forceUndefined names) := by
  unfold Resolver.forceUndefined
  induction names generalizing resolver forced with
  | nil => exact accounts
  | cons name rest induction =>
      rw [List.reverse_cons, List.append_assoc]
      exact induction (accounts.forceOne name)

end Resolver

end Peony
