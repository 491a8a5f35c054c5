import Peony.Load.Demand
import Peony.Load.Extraction

namespace Peony

/-! Whether lazy inclusion leaves nothing behind that the link still needs. The
archive phase does not; the start-lib phase runs only once, before it. -/

namespace Loaded

variable (files : Files) (archives : List Path) (loaded : Loaded)

def StartLibLeft (obj : InputObject) : Prop :=
  ∃ member ∈ loaded.startLib.members, member.obj = some obj

/-- A member of an archive that was never pulled, parsed or not. -/
def ArchiveLeft (obj : InputObject) : Prop :=
  ∃ path ∈ archives, ∃ file, files.readArchive path = .ok file ∧
    ∃ archived ∈ file.members,
      files.parseMember path archived = some obj ∧
      ¬ ∃ member ∈ loaded.archived.lazy.members,
        member.source = some (path, archived.offset) ∧ member.obj = none

/-- No object left out defines a name that is still strongly undefined. -/
def JointlyClosed : Prop :=
  ∀ obj, loaded.StartLibLeft obj ∨ loaded.ArchiveLeft files archives obj →
    ∀ name ∈ memberDefines obj,
      loaded.resolver.symbols.stronglyUndefined name = false

end Loaded

/-- No member that the archives can be asked for refers strongly to a name that a
start-lib object defines and no eager object does. -/
def NoLateDemand (files : Files) (classify : Path → FileKind)
    (inputs : List ResolvedInput) (forcedUndefined : List Name) : Prop :=
  ∀ archived, InArchives files (lazyArchives classify inputs) archived →
    AskedFor (eagerObjects files classify inputs) forcedUndefined
      (IsLazy files classify inputs) archived →
    ∀ name, archived.refersTo name = true →
      ∀ left ∈ startLibObjects files classify inputs, name ∈ memberDefines left →
        EagerlyDefined (eagerObjects files classify inputs) name

/-- No two lazy objects define one name, and references stand in no section. -/
structure Unambiguous (files : Files) (classify : Path → FileKind)
    (inputs : List ResolvedInput) : Prop where
  startLib : (startLibObjects files classify inputs).Pairwise Apart
  across : ∀ obj ∈ startLibObjects files classify inputs, ∀ archived,
    InArchives files (lazyArchives classify inputs) archived → Apart obj archived
  archives : ∀ path archived obj path' archived' obj',
    IsMember files (lazyArchives classify inputs) path archived obj →
    IsMember files (lazyArchives classify inputs) path' archived' obj' →
      Apart obj obj' ∨ path = path' ∧ archived = archived'
  plain : ∀ obj, obj ∈ eagerObjects files classify inputs ∨
    IsLazy files classify inputs obj → obj.Plain

/-- What is asked for among the start-lib objects is asked for without the archives. -/
def AskedForFirst (files : Files) (classify : Path → FileKind)
    (inputs : List ResolvedInput) (forcedUndefined : List Name) : Prop :=
  ∀ obj ∈ startLibObjects files classify inputs,
    AskedFor (eagerObjects files classify inputs) forcedUndefined
      (IsLazy files classify inputs) obj →
    AskedFor (eagerObjects files classify inputs) forcedUndefined
      (fun other => other ∈ startLibObjects files classify inputs) obj

/-- What the phases of a successful load establish: the objects each of them pulls, and
that it leaves nothing wanted. -/
structure Phases (files : Files) (classify : Path → FileKind)
    (inputs : List ResolvedInput) (forced : List Name) (loaded : Loaded)
    (first later : List InputObject) : Prop where
  start : loaded.startLib.Consistent (Resolver.Accounts forced)
  startSettled : loaded.startLib.Settled
  startObjects : loaded.startLib.resolver.objects =
    eagerObjects files classify inputs ++ first
  startTaken : (first ++ offers loaded.startLib.members).Perm
    (startLibObjects files classify inputs)
  startAsked : ∀ obj ∈ first, AskedFor (eagerObjects files classify inputs) forced
    (fun other => other ∈ startLibObjects files classify inputs) obj
  genuine : ∀ member ∈ loaded.archived.lazy.members,
    Genuine files (lazyArchives classify inputs) member
  consistent : loaded.archived.lazy.Consistent (Resolver.Accounts forced)
  closed : loaded.archived.Closed files (lazyArchives classify inputs)
  pulls : loaded.startLib.resolver.Pulls later loaded.resolver
  pulled : ∀ obj, obj ∈ later ↔ ∃ path archived,
    IsMember files (lazyArchives classify inputs) path archived obj ∧
      (path, archived.offset) ∈ sources (taken loaded.archived.lazy.members)

theorem loadObjects_phases {files : Files} {classify : Path → FileKind}
    {inputs : List ResolvedInput} {forcedUndefined : List Name}
    {loaded : Loaded}
    (complete : CompleteIndexes files (lazyArchives classify inputs))
    (loads : loadObjects files classify inputs forcedUndefined =
      .ok loaded) :
    ∃ first later, Phases files classify inputs forcedUndefined loaded first later := by
  simp only [loadObjects, bind, Except.bind] at loads
  split at loads
  · cases loads
  next bareParsed =>
  split at loads
  · cases loads
  next bareOk =>
  split at loads
  · cases loads
  next wholeOk =>
  split at loads
  · cases loads
  next startParsed =>
  split at loads
  · cases loads
  next startOk =>
  split at loads
  · cases loads
  next archivedOk =>
  cases loads
  have bare := Resolver.accounts_empty.resolveAll bareOk
  have accounts := (@Resolver.Accounts.sameNames _ forcedUndefined _
    (bare.forceUndefined forcedUndefined) (by simp)).includeWholeArchives wholeOk
  rcases includeStartLibMembers_settled accounts startOk with
    ⟨start, settled, first, startPulls, startTaken⟩
  rcases includeArchiveMembers_closed complete start.sound archivedOk with
    ⟨genuine, consistent, closed, later, pulls, _⟩
  have eager := Resolver.objects_includeWholeArchives wholeOk
  rw [Resolver.forceUndefined] at eager
  dsimp only at eager
  rw [Resolver.objects_resolveAll bareOk, ← filterMap_of_parsed bareParsed] at eager
  rw [← filterMap_of_parsed startParsed] at startTaken
  have driven : Driven (eagerObjects files classify inputs) forcedUndefined
      (fun obj => obj ∈ startLibObjects files classify inputs) _ :=
    ⟨accounts, [], by rw [List.append_nil]; exact eager, by simp⟩
  exact ⟨first, later, {
    start := start
    startSettled := settled
    startObjects := by rw [startPulls.objects, eager]; rfl
    startTaken := startTaken
    startAsked := (driven.run startPulls fun obj isFirst =>
      startTaken.subset (List.mem_append_left _ isFirst)).2
    genuine := genuine
    consistent := consistent
    closed := closed
    pulls := pulls
    pulled := fun obj => mem_pulled_iff complete archivedOk pulls.objects }⟩

section Closure

variable {files : Files} {classify : Path → FileKind} {inputs : List ResolvedInput}
variable {loaded : Loaded} {forced : List Name} {first later : List InputObject}

theorem Phases.archives_closed
    (phases : Phases files classify inputs forced loaded first later) {obj : InputObject}
    (left : loaded.ArchiveLeft files (lazyArchives classify inputs) obj) {name : Name}
    (defines : name ∈ memberDefines obj) :
    loaded.resolver.symbols.stronglyUndefined name = false := by
  obtain ⟨path, listed, file, read, archived, inside, parsed, notPulled⟩ :=
    left
  by_contra strong
  rw [Bool.not_eq_false] at strong
  have needed : name ∈ loaded.archived.lazy.undefined :=
    (phases.consistent.mirrors name).mpr strong
  have known := phases.closed.covered path listed file read archived inside
    obj parsed name defines needed
  obtain ⟨member, memberInside, source⟩ := List.mem_filterMap.mp known
  -- The member is still waiting, and then it is wanted.
  have held : member.obj.isSome := by
    by_contra gone
    exact notPulled ⟨member, memberInside, source, by simpa using gone⟩
  obtain ⟨path', file', archived', obj', -, read', inside', parsed', source',
    defines', -⟩ := phases.genuine member memberInside
  rw [source, Option.some.injEq, Prod.mk.injEq] at source'
  obtain ⟨rfl, offset⟩ := source'
  obtain rfl : file = file' := by
    rw [read] at read'
    exact Except.ok.inj read'
  obtain rfl := ArchiveFile.eq_of_offset inside inside' offset
  obtain rfl : obj = obj' := by
    rw [parsed] at parsed'
    exact Option.some.inj parsed'
  have unwanted := phases.closed.settled member memberInside held
  rw [Member.wanted, List.any_eq_false] at unwanted
  exact unwanted name (defines' ▸ defines) (by simpa using needed)

theorem Phases.undemanded (phases : Phases files classify inputs forced loaded first later)
    {obj : InputObject} (left : loaded.StartLibLeft obj) {name : Name}
    (defines : name ∈ memberDefines obj) :
    loaded.startLib.resolver.symbols.stronglyUndefined name = false := by
  rcases left with ⟨member, inside, held⟩
  have unwanted := phases.startSettled member inside (by rw [held]; rfl)
  rw [Member.wanted, List.any_eq_false] at unwanted
  have absent := unwanted name (phases.start.defines member inside obj held ▸ defines)
  by_contra strong
  rw [Bool.not_eq_false] at strong
  exact absent (decide_eq_true ((phases.start.mirrors name).mpr strong))

theorem Phases.inArchives (phases : Phases files classify inputs forced loaded first later)
    {obj : InputObject} (isLater : obj ∈ later) :
    InArchives files (lazyArchives classify inputs) obj := by
  rcases (phases.pulled obj).mp isLater with ⟨path, archived, isMember, _⟩
  exact ⟨path, archived, isMember⟩

theorem Phases.objects (phases : Phases files classify inputs forced loaded first later) :
    loaded.resolver.objects = eagerObjects files classify inputs ++ (first ++ later) := by
  rw [phases.pulls.objects, phases.startObjects, List.append_assoc]

theorem Phases.late (phases : Phases files classify inputs forced loaded first later) :
    Driven (eagerObjects files classify inputs) forced (IsLazy files classify inputs)
        loaded.resolver ∧
      ∀ obj ∈ later, AskedFor (eagerObjects files classify inputs) forced
        (IsLazy files classify inputs) obj := by
  have started : Driven (eagerObjects files classify inputs) forced
      (fun obj => obj ∈ startLibObjects files classify inputs) loaded.startLib.resolver :=
    ⟨phases.start.sound, first, phases.startObjects, phases.startAsked⟩
  exact (started.mono fun _ inside => Or.inl inside).run phases.pulls fun _ isLater =>
    Or.inr (phases.inArchives isLater)

theorem Phases.late_reference (phases : Phases files classify inputs forced loaded first later)
    {obj : InputObject} (left : loaded.StartLibLeft obj) {name : Name}
    (defines : name ∈ memberDefines obj)
    (strong : loaded.resolver.symbols.stronglyUndefined name = true) :
    ∃ archived, InArchives files (lazyArchives classify inputs) archived ∧
      AskedFor (eagerObjects files classify inputs) forced (IsLazy files classify inputs)
        archived ∧ archived.refersTo name = true := by
  have quiet := phases.undemanded left defines
  rcases phases.late with ⟨driven, late⟩
  rcases Resolver.included_of_objects ⟨later, phases.pulls.objects⟩ with ⟨more, included⟩
  rw [driven.accounts.strong, Bool.and_eq_true, Bool.not_eq_true', driven.accounts.defined,
    included, List.any_append, Bool.or_eq_false_iff, List.any_append] at strong
  rcases strong with ⟨⟨undefinedBefore, undefinedLate⟩, demanded⟩
  -- Nothing defined the name before the archive phase, and nothing asked for it.
  rw [phases.start.sound.strong, phases.start.sound.defined, undefinedBefore,
    Bool.not_false, Bool.true_and] at quiet
  rw [← Bool.or_assoc, quiet, Bool.false_or, List.any_eq_true] at demanded
  rcases demanded with ⟨input, inside, names⟩
  have isLate : input.obj ∈ later := by
    have mapped := loaded.resolver.map_obj_included
    rw [included, List.map_append, Resolver.map_obj_included, phases.pulls.objects]
      at mapped
    rw [← List.append_cancel_left mapped]
    exact List.mem_map_of_mem inside
  rw [List.any_eq_false] at undefinedLate
  rw [ProcessedObject.namesStrongly_eq (Bool.not_eq_true _ ▸ undefinedLate input inside)]
    at names
  exact ⟨input.obj, phases.inArchives isLate, late _ isLate,
    ProcessedObject.refersTo_of_stronglyReferences names⟩

theorem Phases.mem_startLib (phases : Phases files classify inputs forced loaded first later)
    {obj : InputObject} :
    obj ∈ startLibObjects files classify inputs ↔
      obj ∈ first ∨ loaded.StartLibLeft obj := by
  rw [← phases.startTaken.mem_iff, List.mem_append]
  exact or_congr_right List.mem_filterMap

theorem Phases.apart_of_left
    (phases : Phases files classify inputs forced loaded first later)
    (unambiguous : Unambiguous files classify inputs) {obj other : InputObject}
    (left : loaded.StartLibLeft obj) (isFirst : other ∈ first) : Apart obj other := by
  have apart := unambiguous.startLib
  rw [← phases.startTaken.pairwise_iff fun apart => apart.symm, List.pairwise_append]
    at apart
  exact (apart.2.2 other isFirst obj (List.mem_filterMap.mpr left)).symm

theorem Phases.archiveLeft (phases : Phases files classify inputs forced loaded first later)
    {obj : InputObject} (inside : InArchives files (lazyArchives classify inputs) obj)
    (outside : obj ∉ later) :
    loaded.ArchiveLeft files (lazyArchives classify inputs) obj := by
  rcases inside with ⟨path, archived, isMember⟩
  rcases isMember.inside with ⟨file, read, inFile⟩
  refine ⟨path, isMember.listed, file, read, archived, inFile, isMember.parsed, ?_⟩
  rintro ⟨member, isHeld, source, gone⟩
  apply outside
  apply (phases.pulled obj).mpr
  refine ⟨path, archived, isMember, List.mem_filterMap.mpr ⟨member, ?_, source⟩⟩
  exact List.mem_filter.mpr ⟨isHeld, by rw [gone]; rfl⟩

/-- No object that is left out defines a name of one that is there. -/
theorem Phases.apart (phases : Phases files classify inputs forced loaded first later)
    (unambiguous : Unambiguous files classify inputs) {obj other : InputObject}
    (isLazy : IsLazy files classify inputs obj) (outside : obj ∉ first ++ later)
    (inside : other ∈ first ++ later) : Apart obj other := by
  rw [List.mem_append, not_or] at outside
  have startLib {one : InputObject} (isFirst : one ∈ first) :
      one ∈ startLibObjects files classify inputs :=
    phases.mem_startLib.mpr (.inl isFirst)
  rcases isLazy with isStart | inArchives <;>
    rcases List.mem_append.mp inside with isFirst | isLater
  · rcases phases.mem_startLib.mp isStart with isPulled | left
    · exact absurd isPulled outside.1
    · exact phases.apart_of_left unambiguous left isFirst
  · exact unambiguous.across obj isStart other (phases.inArchives isLater)
  · exact (unambiguous.across other (startLib isFirst) obj inArchives).symm
  · rcases inArchives with ⟨path, archived, isMember⟩
    rcases (phases.pulled other).mp isLater with ⟨path', archived', isMember', _⟩
    rcases unambiguous.archives path archived obj path' archived' other isMember isMember'
      with apart | ⟨rfl, rfl⟩
    · exact apart
    · have same := isMember.parsed.symm.trans isMember'.parsed
      rw [Option.some.inj same] at outside
      exact absurd isLater outside.2

theorem Phases.plain (phases : Phases files classify inputs forced loaded first later)
    (unambiguous : Unambiguous files classify inputs) {obj : InputObject}
    (isObject : obj ∈ loaded.resolver.objects) : obj.Plain := by
  apply unambiguous.plain
  rw [phases.objects, List.mem_append, List.mem_append] at isObject
  rcases isObject with isEager | isFirst | isLater
  · exact .inl isEager
  · exact .inr (.inl (phases.mem_startLib.mpr (.inl isFirst)))
  · exact .inr (.inr (phases.inArchives isLater))

theorem Phases.startReaches
    (phases : Phases files classify inputs forced loaded first later)
    (unambiguous : Unambiguous files classify inputs) {obj : InputObject}
    (asked : AskedFor (eagerObjects files classify inputs) forced
      (fun other => other ∈ startLibObjects files classify inputs) obj) : obj ∈ first := by
  apply Driven.reaches phases.start.sound phases.startObjects ?_ ?_ ?_ asked
  · intro one isObject
    apply phases.plain unambiguous
    rw [phases.pulls.objects]
    exact List.mem_append_left _ isObject
  · intro one isStart outside name defines
    have left := (phases.mem_startLib.mp isStart).resolve_left outside
    exact phases.undemanded left defines
  · intro one isStart outside other isFirst
    have left := (phases.mem_startLib.mp isStart).resolve_left outside
    exact phases.apart_of_left unambiguous left isFirst

theorem Phases.reaches (phases : Phases files classify inputs forced loaded first later)
    (unambiguous : Unambiguous files classify inputs)
    (closed : loaded.JointlyClosed files (lazyArchives classify inputs)) {obj : InputObject}
    (asked : AskedFor (eagerObjects files classify inputs) forced
      (IsLazy files classify inputs) obj) : obj ∈ first ++ later := by
  apply Driven.reaches phases.consistent.sound phases.objects
    (fun one => phases.plain unambiguous) ?_
    (fun one isLazy outside other => phases.apart unambiguous isLazy outside) asked
  intro one isLazy outside name defines
  rw [List.mem_append, not_or] at outside
  refine closed one ?_ name defines
  rcases isLazy with isStart | inArchives
  · exact .inl ((phases.mem_startLib.mp isStart).resolve_left outside.1)
  · exact .inr (phases.archiveLeft inArchives outside.2)

theorem Phases.closed_of_noLateDemand
    (phases : Phases files classify inputs forced loaded first later)
    (calm : NoLateDemand files classify inputs forced) :
    loaded.JointlyClosed files (lazyArchives classify inputs) := by
  rintro obj (left | left) name defines
  · by_contra strong
    rw [Bool.not_eq_false] at strong
    rcases phases.late_reference left defines strong with ⟨archived, inside, asked, refers⟩
    apply (phases.late.1.needed strong).missing
    exact calm archived inside asked name refers obj (phases.mem_startLib.mpr (.inr left))
      defines
  · exact phases.archives_closed left defines

theorem Phases.closed_iff_askedForFirst
    (phases : Phases files classify inputs forced loaded first later)
    (unambiguous : Unambiguous files classify inputs) :
    loaded.JointlyClosed files (lazyArchives classify inputs) ↔
      AskedForFirst files classify inputs forced := by
  constructor
  · intro closed obj isStart asked
    rcases List.mem_append.mp (phases.reaches unambiguous closed asked) with isFirst | isLater
    · exact phases.startAsked obj isFirst
    · rcases asked with ⟨_, wanted, defines, _⟩
      exact absurd defines
        (unambiguous.across obj isStart obj (phases.inArchives isLater) wanted defines)
  · rintro askedFirst obj (left | left) name defines
    · by_contra strong
      rw [Bool.not_eq_false] at strong
      have isStart := phases.mem_startLib.mpr (.inr left)
      have asked := askedFirst obj isStart
        ⟨.inl isStart, name, defines, phases.late.1.needed strong⟩
      have isFirst := phases.startReaches unambiguous asked
      exact phases.apart_of_left unambiguous left isFirst name defines defines
    · exact phases.archives_closed left defines

end Closure

/-- A load is jointly closed when no archive member that can be asked for makes a late
demand on a start-lib object; where no two lazy objects define one name, it is exactly
when what is asked for among the start-lib objects is asked for without the archives. -/
theorem jointlyClosed_of_noLateDemand {files : Files} {classify : Path → FileKind}
    {inputs : List ResolvedInput} {forcedUndefined : List Name}
    {loaded : Loaded}
    (complete : CompleteIndexes files (lazyArchives classify inputs))
    (loads : loadObjects files classify inputs forcedUndefined = .ok loaded) :
    (NoLateDemand files classify inputs forcedUndefined →
        loaded.JointlyClosed files (lazyArchives classify inputs)) ∧
      (Unambiguous files classify inputs →
        (loaded.JointlyClosed files (lazyArchives classify inputs) ↔
          AskedForFirst files classify inputs forcedUndefined)) := by
  rcases loadObjects_phases complete loads with ⟨first, later, phases⟩
  exact ⟨phases.closed_of_noLateDemand, phases.closed_iff_askedForFirst⟩

/-! The main object refers to `a`, which only an archive member defines. That
member refers to `b`, which only a start-lib object defines. When the main object refers
to `b` itself and the member does not, nothing is left behind. -/

private def lateSymbol (name : Name) (isUndefined : Bool) : InputSymbol where
  index := 1
  name := name
  binding := .global
  isUndefined := isUndefined
  isCommon := false
  isIfunc := false
  stType := 0
  visibility := 0
  sectionIndex := if isUndefined then none else some 1
  value := 0
  size := 0

private def lateObject (symbols : List InputSymbol) : InputObject :=
  ⟨"", [], symbols, default, default, []⟩

private def lateArchive : ArchiveFile where
  index := .entries [([97], 8)]
  members := [⟨8, [], []⟩]
  distinct := by decide

private def filesOf (main member : List InputSymbol) : Files where
  parseObject path :=
    if path = [1] then .ok (lateObject main)
    else .ok (lateObject [lateSymbol [98] false])
  readArchive _ := .ok lateArchive
  parseMember _ _ := some (lateObject member)

private def lateFiles : Files :=
  filesOf [lateSymbol [97] true] [lateSymbol [97] false, lateSymbol [98] true]

private def calmFiles : Files :=
  filesOf [lateSymbol [97] true, lateSymbol [98] true] [lateSymbol [97] false]

private def lateClassify (path : Path) : FileKind :=
  if path = [3] then .archive else .bare

private def lateInputs : List ResolvedInput :=
  [⟨[1], false, false, false⟩, ⟨[2], false, false, true⟩,
    ⟨[3], false, false, false⟩]

private theorem filesOf_complete {main member : List InputSymbol}
    (only : ∀ name ∈ memberDefines (lateObject member), name = [97]) :
    CompleteIndexes (filesOf main member) (lazyArchives lateClassify lateInputs) := by
  intro path _ file read symbols index archived inside obj parsed name defines
  cases read
  cases index
  cases parsed
  rw [List.mem_singleton.mp inside, only name defines]
  exact List.mem_singleton.mpr rfl

private theorem late_complete :
    CompleteIndexes lateFiles (lazyArchives lateClassify lateInputs) :=
  filesOf_complete (by simp [memberDefines, lateObject, lateSymbol])

private theorem calm_complete :
    CompleteIndexes calmFiles (lazyArchives lateClassify lateInputs) :=
  filesOf_complete (by simp [memberDefines, lateObject, lateSymbol])

private theorem eq_of_inArchives {main member : List InputSymbol} {obj : InputObject}
    (inside : InArchives (filesOf main member) (lazyArchives lateClassify lateInputs) obj) :
    obj = lateObject member := by
  rcases inside with ⟨path, archived, isMember⟩
  exact (Option.some.inj isMember.parsed).symm

private theorem late_unambiguous : Unambiguous lateFiles lateClassify lateInputs where
  startLib := List.pairwise_singleton _ _
  across := by
    intro obj isStart archived inside
    rw [eq_of_inArchives inside]
    rw [List.mem_singleton.mp isStart]
    simp [Apart, memberDefines, lateObject, lateSymbol]
  archives := by
    intro path archived obj path' archived' obj' isMember isMember'
    right
    rw [List.mem_singleton.mp isMember.listed, List.mem_singleton.mp isMember'.listed]
    rcases isMember.inside with ⟨file, read, inside⟩
    rcases isMember'.inside with ⟨file', read', inside'⟩
    cases read
    cases read'
    rw [List.mem_singleton.mp inside, List.mem_singleton.mp inside']
    exact ⟨rfl, rfl⟩
  plain := by
    have symbols : ∀ names, (lateObject names).symbols = names := fun _ => rfl
    rintro obj (isEager | isStart | inside) sym isSym isUndefined
    · rw [List.mem_singleton.mp isEager, symbols, List.mem_singleton] at isSym
      rw [isSym]
      rfl
    · rw [List.mem_singleton.mp isStart, symbols, List.mem_singleton] at isSym
      rw [isSym] at isUndefined
      cases isUndefined
    · rw [eq_of_inArchives inside, symbols, List.mem_pair] at isSym
      rcases isSym with rfl | rfl
      · cases isUndefined
      · rfl

private theorem calm_noLateDemand : NoLateDemand calmFiles lateClassify lateInputs [] := by
  intro archived inside _ name refers
  rw [eq_of_inArchives inside] at refers
  simp [InputObject.refersTo, ProcessedObject.stronglyReferences, lateObject, lateSymbol]
    at refers

private theorem calm_loads :
    (loadObjects calmFiles lateClassify lateInputs []).toOption.isSome = true := by
  decide

private theorem late_leftOut :
    (loadObjects lateFiles lateClassify lateInputs []).toOption.any
      (fun loaded =>
        loaded.startLib.members.any (fun member =>
          member.obj.any fun obj => (memberDefines obj).contains [98]) &&
        loaded.resolver.symbols.stronglyUndefined [98]) = true := by
  decide

/-- The exact condition at the first link, and the sufficient one at the second. -/
theorem late_and_calm_closed :
    (∃ loaded, loadObjects lateFiles lateClassify lateInputs [] = .ok loaded ∧
      (loaded.JointlyClosed lateFiles (lazyArchives lateClassify lateInputs) ↔
        AskedForFirst lateFiles lateClassify lateInputs [])) ∧
    ∃ loaded, loadObjects calmFiles lateClassify lateInputs [] = .ok loaded ∧
      loaded.JointlyClosed calmFiles (lazyArchives lateClassify lateInputs) := by
  constructor
  · have leftOut := late_leftOut
    cases loads : loadObjects lateFiles lateClassify lateInputs [] with
    | error error => simp [loads, Except.toOption] at leftOut
    | ok loaded =>
        exact ⟨loaded, rfl,
          (jointlyClosed_of_noLateDemand late_complete loads).2 late_unambiguous⟩
  · have succeeds := calm_loads
    cases loads : loadObjects calmFiles lateClassify lateInputs [] with
    | error error => simp [loads, Except.toOption] at succeeds
    | ok loaded =>
        exact ⟨loaded, rfl,
          (jointlyClosed_of_noLateDemand calm_complete loads).1 calm_noLateDemand⟩

/-- The start-lib object is left out although its `b` is still needed. -/
theorem late_not_jointlyClosed :
    ∃ loaded, CompleteIndexes lateFiles
        (lazyArchives lateClassify lateInputs) ∧
      loadObjects lateFiles lateClassify lateInputs [] = .ok loaded ∧
      ¬ loaded.JointlyClosed lateFiles
        (lazyArchives lateClassify lateInputs) := by
  have leftOut := late_leftOut
  cases loads : loadObjects lateFiles lateClassify lateInputs [] with
  | error error => simp [loads, Except.toOption] at leftOut
  | ok loaded =>
      refine ⟨loaded, late_complete, rfl, fun closed => ?_⟩
      simp only [loads, Except.toOption, Option.any_some, Bool.and_eq_true,
        List.any_eq_true] at leftOut
      obtain ⟨⟨member, inside, offers⟩, strong⟩ := leftOut
      obtain ⟨obj, held, defines⟩ := Option.any_eq_true _ _ |>.mp offers
      rw [closed obj (.inl ⟨member, inside, held⟩) [98]
        (by simpa using defines)] at strong
      cases strong

end Peony
