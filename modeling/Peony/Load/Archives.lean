import Mathlib.Data.List.Dedup
import Mathlib.Data.List.Sort
import Peony.Load.Lazy

namespace Peony

/-! Archives: members are parsed only when the symbol index of their archive
offers a name that is undefined, and archives are checked again after every
round that pulls a member. -/

/-! ## Archive files -/

structure ArchiveMember where
  offset : UInt64
  name : List UInt8
  data : List UInt8
deriving DecidableEq

inductive ArchiveIndex where
  | unreadable
  | absent
  | entries (symbols : List (Name × UInt64))

/-- An archive as the archive reader presents it. A member is found by the
offset of its header. -/
structure ArchiveFile where
  index : ArchiveIndex
  members : List ArchiveMember
  distinct : (members.map ArchiveMember.offset).Nodup

/-- What lies outside the loader: reading archives and parsing objects. The
label of a member is made from the archive path and the member name. -/
structure Files where
  parseObject : Path → Except LoadError InputObject
  readArchive : Path → Except LoadError ArchiveFile
  parseMember : Path → ArchiveMember → Option InputObject

namespace ArchiveFile

def matchingOffsets (file : ArchiveFile) (isNeeded : Name → Bool) :
    Option (List UInt64) :=
  match file.index with
  | .unreadable => none
  | .absent => if file.members.isEmpty then some [] else none
  | .entries symbols =>
      some ((symbols.filter fun symbol => isNeeded symbol.1).map Prod.snd)

def memberAt (file : ArchiveFile) (offset : UInt64) : Option ArchiveMember :=
  file.members.find? fun member => member.offset == offset

def sortOffsets (offsets : List UInt64) : List UInt64 :=
  (offsets.insertionSort fun left right => left.toNat ≤ right.toNat).dedup

theorem mem_sortOffsets {offsets : List UInt64} {offset : UInt64} :
    offset ∈ sortOffsets offsets ↔ offset ∈ offsets := by
  simp [sortOffsets]

theorem memberAt_eq_some {file : ArchiveFile} {offset : UInt64}
    {member : ArchiveMember} (found : file.memberAt offset = some member) :
    member ∈ file.members ∧ member.offset = offset :=
  ⟨List.mem_of_find?_eq_some found, by simpa using List.find?_some found⟩

theorem eq_of_offset {file : ArchiveFile} {left right : ArchiveMember}
    (leftMember : left ∈ file.members) (rightMember : right ∈ file.members)
    (equal : left.offset = right.offset) : left = right :=
  List.inj_on_of_nodup_map file.distinct leftMember rightMember equal

end ArchiveFile

/-- The members at new matching offsets, which become seen. The inner `none`
asks for every member instead. -/
def iterArchiveMembersMatching (path : Path) (file : ArchiveFile)
    (isNeeded : Name → Bool) (seen : List UInt64) :
    Except LoadError (Option (List ArchiveMember) × List UInt64) :=
  match file.matchingOffsets isNeeded with
  | none => .ok (none, seen)
  | some offsets =>
      let fresh := (ArchiveFile.sortOffsets offsets).filter fun offset =>
        !seen.contains offset
      match fresh.mapM file.memberAt with
      | none => .error (.archive path)
      | some members => .ok (some members, seen ++ fresh)

/-! ## The archive phase -/

def lazyMembers (files : Files) (path : Path) (members : List ArchiveMember) :
    List Member :=
  members.filterMap fun member =>
    (files.parseMember path member).map fun obj =>
      ⟨some obj, memberDefines obj, some (path, member.offset)⟩

/-- What scanning the pending archives of a round collects. -/
structure Scan where
  nextPending : List Path
  parsedIndexed : List Path
  seenOffsets : Path → List UInt64
  members : List Member
  parsedArchives : Nat

def scanArchive (files : Files) (undefined : Finset Name) (scan : Scan)
    (path : Path) : Except LoadError Scan := do
  let file ← files.readArchive path
  let (matched, seen) ← iterArchiveMembersMatching path file
    (fun name => decide (name ∈ undefined)) (scan.seenOffsets path)
  let seenOffsets := Function.update scan.seenOffsets path seen
  match matched with
  | some [] => return { scan with
      nextPending := scan.nextPending ++ [path]
      seenOffsets := seenOffsets }
  | some members => return { scan with
      parsedIndexed := scan.parsedIndexed ++ [path]
      seenOffsets := seenOffsets
      members := scan.members ++ lazyMembers files path members
      parsedArchives := scan.parsedArchives + 1 }
  | none => return { scan with
      seenOffsets := seenOffsets
      members := scan.members ++ lazyMembers files path file.members
      parsedArchives := scan.parsedArchives + 1 }

structure ArchiveState where
  pending : List Path
  seenOffsets : Path → List UInt64
  lazy : LazyState

/-- One round: scan what is pending, then pull once. The flag tells whether the
loop goes on. -/
def archiveRound (files : Files) (state : ArchiveState) :
    Except LoadError (ArchiveState × Bool) := do
  let scan ← state.pending.foldlM (scanArchive files state.lazy.undefined)
    ⟨[], [], state.seenOffsets, state.lazy.members, 0⟩
  let (next, pulled) ← pullLazyMembers scan.members state.lazy.resolver
    state.lazy.undefined
  let pending :=
    if 0 < pulled then scan.nextPending ++ scan.parsedIndexed
    else scan.nextPending
  return (⟨pending, scan.seenOffsets, next⟩,
    0 < pulled || 0 < scan.parsedArchives)

def archiveLoop (files : Files) : Nat → ArchiveState →
    Except LoadError ArchiveState
  | 0, state => .ok state
  | fuel + 1, state =>
      if state.lazy.undefined = ∅ then .ok state
      else do
        let (next, goesOn) ← archiveRound files state
        if goesOn then archiveLoop files fuel next else return next

def memberCount (files : Files) (archives : List Path) : Nat :=
  (archives.map fun path =>
    match files.readArchive path with
    | .ok file => file.members.length
    | .error _ => 0).sum

/-- Every round that does not end the loop pulls one of the members or retires
one of the archives, which bounds the rounds. -/
def includeArchiveMembers (files : Files) (archives : List Path)
    (resolver : Resolver) : Except LoadError ArchiveState :=
  let unique := archives.reverse.dedup.reverse
  archiveLoop files (memberCount files unique + unique.length + 1)
    ⟨unique, fun _ => [],
      ⟨[], resolver, currentGlobalUndefined resolver.symbols⟩⟩

/-! ## Sources -/

def sources (members : List Member) : List (Path × UInt64) :=
  members.filterMap Member.source

@[simp] theorem sources_append (front back : List Member) :
    sources (front ++ back) = sources front ++ sources back :=
  List.filterMap_append

theorem sources_eq_of_follows {before after : List Member}
    (follows : List.Forall₂ Member.Follows before after) :
    sources after = sources before := by
  induction follows with
  | nil => rfl
  | cons head _ induction =>
      simp only [sources, List.filterMap_cons, head.source] at *
      rw [induction]

theorem mem_sources_lazyMembers {files : Files} {path other : Path}
    {members : List ArchiveMember} {offset : UInt64} :
    (other, offset) ∈ sources (lazyMembers files path members) ↔
      other = path ∧ ∃ member ∈ members, member.offset = offset ∧
        (files.parseMember path member).isSome := by
  simp only [sources, lazyMembers, List.mem_filterMap,
    Option.map_eq_some_iff]
  constructor
  · rintro ⟨_, ⟨member, inside, obj, parsed, rfl⟩, named⟩
    simp only [Option.some.injEq, Prod.mk.injEq] at named
    exact ⟨named.1.symm, member, inside, named.2, by simp [parsed]⟩
  · rintro ⟨rfl, member, inside, rfl, parsed⟩
    obtain ⟨obj, parsed⟩ := Option.isSome_iff_exists.mp parsed
    exact ⟨_, ⟨member, inside, obj, parsed, rfl⟩, rfl⟩

theorem nodup_sources_lazyMembers (files : Files) (path : Path)
    {members : List ArchiveMember}
    (distinct : (members.map ArchiveMember.offset).Nodup) :
    (sources (lazyMembers files path members)).Nodup := by
  induction members with
  | nil => exact List.nodup_nil
  | cons member rest induction =>
      rw [List.map_cons, List.nodup_cons] at distinct
      obtain ⟨fresh, distinctRest⟩ := distinct
      cases parsed : files.parseMember path member with
      | none =>
          simpa [lazyMembers, parsed] using induction distinctRest
      | some obj =>
          have shape : sources (lazyMembers files path (member :: rest)) =
              (path, member.offset) ::
                sources (lazyMembers files path rest) := by
            simp [lazyMembers, sources, parsed]
          rw [shape, List.nodup_cons]
          refine ⟨fun inside => fresh ?_, induction distinctRest⟩
          obtain ⟨-, other, otherInside, equal, -⟩ :=
            mem_sources_lazyMembers.mp inside
          exact List.mem_map.mpr ⟨other, otherInside, equal⟩

/-! ## What has been parsed -/

section Coverage

variable (files : Files) (archives : List Path)

def AllParsed (members : List Member) (path : Path) : Prop :=
  ∀ file, files.readArchive path = .ok file → ∀ member ∈ file.members,
    ∀ obj, files.parseMember path member = some obj →
      (path, member.offset) ∈ sources members

def Covered (members : List Member) (undefined : Finset Name) (path : Path) :
    Prop :=
  ∀ file, files.readArchive path = .ok file → ∀ member ∈ file.members,
    ∀ obj, files.parseMember path member = some obj →
      ∀ name ∈ memberDefines obj, name ∈ undefined →
        (path, member.offset) ∈ sources members

/-- A lazy member is what parsing a member of one of the archives gives. -/
def Genuine (member : Member) : Prop :=
  ∃ path file archived obj, path ∈ archives ∧
    files.readArchive path = .ok file ∧ archived ∈ file.members ∧
    files.parseMember path archived = some obj ∧
    member.source = some (path, archived.offset) ∧
    member.defines = memberDefines obj ∧
    (member.obj = some obj ∨ member.obj = none)

structure IsMember (path : Path) (archived : ArchiveMember) (obj : InputObject) :
    Prop where
  listed : path ∈ archives
  inside : ∃ file, files.readArchive path = .ok file ∧ archived ∈ file.members
  parsed : files.parseMember path archived = some obj

def InArchives (obj : InputObject) : Prop :=
  ∃ path archived, IsMember files archives path archived obj

/-- The index of an archive, where it has one, names every member for every
name the member defines. -/
def CompleteIndexes : Prop :=
  ∀ path ∈ archives, ∀ file, files.readArchive path = .ok file →
    ∀ symbols, file.index = .entries symbols →
      ∀ member ∈ file.members, ∀ obj,
        files.parseMember path member = some obj →
          ∀ name ∈ memberDefines obj, (name, member.offset) ∈ symbols

variable {files archives}

theorem AllParsed.covered {members : List Member} {path : Path}
    (all : AllParsed files members path) (undefined : Finset Name) :
    Covered files members undefined path :=
  fun file read member inside obj parsed _ _ _ =>
    all file read member inside obj parsed

theorem AllParsed.mono {members more : List Member} {path : Path}
    (all : AllParsed files members path)
    (grows : sources members ⊆ sources more) : AllParsed files more path :=
  fun file read member inside obj parsed =>
    grows (all file read member inside obj parsed)

theorem Covered.mono {members more : List Member} {undefined : Finset Name}
    {path : Path} (covered : Covered files members undefined path)
    (grows : sources members ⊆ sources more) :
    Covered files more undefined path :=
  fun file read member inside obj parsed name defines needed =>
    grows (covered file read member inside obj parsed name defines needed)

theorem genuine_lazyMembers {path : Path} {file : ArchiveFile}
    {members : List ArchiveMember} (listed : path ∈ archives)
    (read : files.readArchive path = .ok file)
    (inside : ∀ member ∈ members, member ∈ file.members) :
    ∀ member ∈ lazyMembers files path members,
      Genuine files archives member := by
  intro member made
  obtain ⟨archived, archivedMember, made⟩ := List.mem_filterMap.mp made
  obtain ⟨obj, parsed, rfl⟩ := Option.map_eq_some_iff.mp made
  exact ⟨path, file, archived, obj, listed, read,
    inside archived archivedMember, parsed, rfl, rfl, .inl rfl⟩

theorem Genuine.follows {before after : Member}
    (genuine : Genuine files archives before)
    (follows : before.Follows after) : Genuine files archives after := by
  obtain ⟨path, file, archived, obj, listed, read, inside, parsed, source,
    defines, held⟩ := genuine
  refine ⟨path, file, archived, obj, listed, read, inside, parsed,
    follows.source.trans source, follows.defines.trans defines, ?_⟩
  rcases follows.obj with same | taken
  · rwa [same]
  · exact .inr taken

theorem Genuine.defines_eq {member : Member}
    (genuine : Genuine files archives member) {obj : InputObject}
    (held : member.obj = some obj) : member.defines = memberDefines obj := by
  obtain ⟨_, _, _, obj', _, _, _, _, _, defines, held' | taken⟩ := genuine
  · rw [held'] at held
    cases held
    exact defines
  · simp [taken] at held

theorem IsMember.same {path : Path} {left right : ArchiveMember}
    {leftObject rightObject : InputObject}
    (isLeft : IsMember files archives path left leftObject)
    (isRight : IsMember files archives path right rightObject)
    (sameOffset : left.offset = right.offset) : left = right := by
  rcases isLeft.inside with ⟨file, read, leftInside⟩
  rcases isRight.inside with ⟨file', read', rightInside⟩
  rw [read, Except.ok.injEq] at read'
  subst read'
  exact ArchiveFile.eq_of_offset leftInside rightInside sameOffset

theorem Genuine.inArchives {member : Member}
    (genuine : Genuine files archives member) {obj : InputObject}
    (held : member.obj = some obj) : InArchives files archives obj := by
  obtain ⟨path, file, archived, obj', listed, read, inside, parsed, _, _,
    held' | taken⟩ := genuine
  · rw [held'] at held
    cases held
    exact ⟨path, archived, listed, ⟨file, read, inside⟩, parsed⟩
  · rw [taken] at held
    cases held

end Coverage

end Peony
