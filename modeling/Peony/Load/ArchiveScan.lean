import Peony.Load.Archives

namespace Peony

/-! One scan over the pending archives: which members it parses, and what an
archive that is not parsed further has already given. -/

section Scan

variable {files : Files} {archives : List Path} {undefined : Finset Name}

/-- The archives a scan keeps for the next round, were it to pull a member. -/
def Scan.kept (scan : Scan) : List Path :=
  scan.nextPending ++ scan.parsedIndexed

/-- What holds while the pending archives `rest` are still to be scanned. -/
structure ScanInvariant (files : Files) (archives : List Path)
    (undefined : Finset Name) (scan : Scan) (rest : List Path) : Prop where
  genuine : ∀ member ∈ scan.members, Genuine files archives member
  nodup : (sources scan.members).Nodup
  live : (scan.kept ++ rest).Nodup
  listed : ∀ path ∈ scan.kept ++ rest, path ∈ archives
  recorded : ∀ path ∈ scan.kept ++ rest, ∀ offset,
    (path, offset) ∈ sources scan.members → offset ∈ scan.seenOffsets path
  parsed : ∀ path file, files.readArchive path = .ok file →
    ∀ member ∈ file.members, ∀ obj,
      files.parseMember path member = some obj →
      member.offset ∈ scan.seenOffsets path →
      (path, member.offset) ∈ sources scan.members
  indexed : ∀ path file, files.readArchive path = .ok file →
    scan.seenOffsets path ≠ [] → ∃ symbols, file.index = .entries symbols
  covered : ∀ path ∈ scan.kept, Covered files scan.members undefined path

structure Scanned (files : Files) (before after : Scan)
    (pending : List Path) : Prop where
  members : ∃ more, after.members = before.members ++ more
  count : after.nextPending.length + after.parsedArchives =
    before.nextPending.length + before.parsedArchives + pending.length
  indexedCount : after.parsedIndexed.length + before.parsedArchives ≤
    after.parsedArchives + before.parsedIndexed.length
  grows : ∀ path ∈ before.kept, path ∈ after.kept
  kept : ∀ path ∈ pending,
    path ∈ after.kept ∨ AllParsed files after.members path

theorem Scanned.refl (files : Files) (scan : Scan) :
    Scanned files scan scan [] where
  members := ⟨[], by simp⟩
  count := rfl
  indexedCount := by omega
  grows := fun _ inside => inside
  kept := by simp

theorem Scanned.trans {first second third : Scan} {front back : List Path}
    (left : Scanned files first second front)
    (right : Scanned files second third back) :
    Scanned files first third (front ++ back) where
  members := by
    obtain ⟨more, leftMembers⟩ := left.members
    obtain ⟨more', rightMembers⟩ := right.members
    exact ⟨more ++ more', by rw [rightMembers, leftMembers, List.append_assoc]⟩
  count := by
    have leftCount := left.count
    have rightCount := right.count
    rw [List.length_append]
    omega
  indexedCount := by
    have leftCount := left.indexedCount
    have rightCount := right.indexedCount
    omega
  grows := fun path inside => right.grows path (left.grows path inside)
  kept := by
    intro path inside
    rcases List.mem_append.mp inside with inside | inside
    · rcases left.kept path inside with kept | all
      · exact .inl (right.grows path kept)
      · obtain ⟨more, members⟩ := right.members
        exact .inr (all.mono (by simp [members]))
    · exact right.kept path inside

structure Matched (file : ArchiveFile) (undefined : Finset Name)
    (seen seen' : List UInt64) (members : List ArchiveMember) : Prop where
  indexed : members ≠ [] → ∃ symbols, file.index = .entries symbols
  inside : ∀ member ∈ members, member ∈ file.members
  nodup : (members.map ArchiveMember.offset).Nodup
  fresh : ∀ member ∈ members, member.offset ∉ seen
  seen : seen' = seen ++ members.map ArchiveMember.offset
  matching : ∀ symbols, file.index = .entries symbols →
    ∀ name offset, (name, offset) ∈ symbols → name ∈ undefined →
      offset ∈ seen'
  empty : file.index = .absent → file.members = []
  readable : file.index ≠ .unreadable

private theorem map_offset_of_mapM {file : ArchiveFile}
    {offsets : List UInt64} {members : List ArchiveMember}
    (found : offsets.mapM file.memberAt = some members) :
    members.map ArchiveMember.offset = offsets ∧
      ∀ member ∈ members, member ∈ file.members := by
  induction offsets generalizing members with
  | nil =>
      obtain rfl : [] = members := by simpa using found
      simp
  | cons offset rest induction =>
      simp only [List.mapM_cons, Option.bind_eq_bind,
        Option.bind_eq_some_iff, Option.pure_def, Option.some.injEq] at found
      obtain ⟨member, here, restMembers, restFound, rfl⟩ := found
      obtain ⟨inside, equal⟩ := ArchiveFile.memberAt_eq_some here
      obtain ⟨restOffsets, restInside⟩ := induction restFound
      refine ⟨by simp [equal, restOffsets], ?_⟩
      intro other member'
      rcases List.mem_cons.mp member' with rfl | member'
      · exact inside
      · exact restInside other member'

theorem iterArchiveMembersMatching_some {path : Path} {file : ArchiveFile}
    {seen seen' : List UInt64} {members : List ArchiveMember}
    (matched : iterArchiveMembersMatching path file
      (fun name => decide (name ∈ undefined)) seen =
        .ok (some members, seen')) :
    Matched file undefined seen seen' members := by
  unfold iterArchiveMembersMatching ArchiveFile.matchingOffsets at matched
  cases index : file.index with
  | unreadable => simp [index] at matched
  | absent =>
      simp only [index] at matched
      by_cases none : file.members = []
      · simp [none, ArchiveFile.sortOffsets] at matched
        obtain ⟨rfl, rfl⟩ := matched
        constructor <;> simp [index, none]
      · simp [none] at matched
  | entries symbols =>
      simp only [index] at matched
      split at matched
      · cases matched
      · next found =>
          cases matched
          obtain ⟨offsets, inside⟩ := map_offset_of_mapM found
          refine ⟨fun _ => ⟨symbols, index⟩, inside, ?_, ?_, by rw [offsets],
            ?_, by simp [index], by simp [index]⟩
          · rw [offsets]
            exact (List.nodup_dedup _).filter _
          · intro member member'
            have fresh : member.offset ∈ members.map ArchiveMember.offset :=
              List.mem_map_of_mem member'
            rw [offsets, List.mem_filter] at fresh
            simpa using fresh.2
          · intro symbols' index' name offset entry needed
            obtain rfl : symbols = symbols' := by
              rw [index] at index'
              exact ArchiveIndex.entries.inj index'
            by_cases old : offset ∈ seen
            · exact List.mem_append_left _ old
            · refine List.mem_append_right _ (List.mem_filter.mpr ⟨?_, ?_⟩)
              · rw [ArchiveFile.mem_sortOffsets]
                exact List.mem_map.mpr ⟨(name, offset),
                  List.mem_filter.mpr ⟨entry, by simpa using needed⟩, rfl⟩
              · simpa using old

theorem iterArchiveMembersMatching_none {path : Path} {file : ArchiveFile}
    {seen seen' : List UInt64}
    (matched : iterArchiveMembersMatching path file
      (fun name => decide (name ∈ undefined)) seen = .ok (none, seen')) :
    seen' = seen ∧ ∀ symbols, file.index ≠ .entries symbols := by
  unfold iterArchiveMembersMatching ArchiveFile.matchingOffsets at matched
  cases index : file.index with
  | unreadable => simp_all
  | absent =>
      simp only [index] at matched
      by_cases none : file.members = []
      · simp [none, ArchiveFile.sortOffsets] at matched
      · simp [none] at matched
        simp [matched]
  | entries symbols =>
      simp only [index] at matched
      split at matched <;> cases matched

theorem scanArchive_cases {scan next : Scan} {path : Path}
    (scanned : scanArchive files undefined scan path = .ok next) :
    ∃ file, files.readArchive path = .ok file ∧
      ((∃ seen, iterArchiveMembersMatching path file
            (fun name => decide (name ∈ undefined)) (scan.seenOffsets path) =
              .ok (none, seen) ∧
          next = { scan with
            seenOffsets := Function.update scan.seenOffsets path seen
            members := scan.members ++ lazyMembers files path file.members
            parsedArchives := scan.parsedArchives + 1 }) ∨
        (∃ seen, iterArchiveMembersMatching path file
            (fun name => decide (name ∈ undefined)) (scan.seenOffsets path) =
              .ok (some [], seen) ∧
          next = { scan with
            nextPending := scan.nextPending ++ [path]
            seenOffsets := Function.update scan.seenOffsets path seen }) ∨
        (∃ members seen, members ≠ [] ∧
          iterArchiveMembersMatching path file
            (fun name => decide (name ∈ undefined)) (scan.seenOffsets path) =
              .ok (some members, seen) ∧
          next = { scan with
            parsedIndexed := scan.parsedIndexed ++ [path]
            seenOffsets := Function.update scan.seenOffsets path seen
            members := scan.members ++ lazyMembers files path members
            parsedArchives := scan.parsedArchives + 1 })) := by
  unfold scanArchive at scanned
  cases read : files.readArchive path with
  | error error => simp [read, bind, Except.bind] at scanned
  | ok file =>
      refine ⟨file, rfl, ?_⟩
      simp only [read, bind, Except.bind] at scanned
      cases matched : iterArchiveMembersMatching path file
          (fun name => decide (name ∈ undefined)) (scan.seenOffsets path) with
      | error error => simp [matched] at scanned
      | ok result =>
          obtain ⟨members, seen⟩ := result
          simp only [matched] at scanned
          cases members with
          | none =>
              cases scanned
              exact .inl ⟨seen, rfl, rfl⟩
          | some members =>
              cases members with
              | nil =>
                  cases scanned
                  exact .inr (.inl ⟨seen, rfl, rfl⟩)
              | cons member rest =>
                  cases scanned
                  exact .inr (.inr ⟨member :: rest, seen, by simp, rfl, rfl⟩)

private theorem nodup_append_lazyMembers {scan : Scan} {path : Path}
    {members : List ArchiveMember} (nodup : (sources scan.members).Nodup)
    (recorded : ∀ offset, (path, offset) ∈ sources scan.members →
      offset ∈ scan.seenOffsets path)
    (distinct : (members.map ArchiveMember.offset).Nodup)
    (fresh : ∀ member ∈ members, member.offset ∉ scan.seenOffsets path) :
    (sources (scan.members ++ lazyMembers files path members)).Nodup := by
  rw [sources_append, List.nodup_append]
  refine ⟨nodup, nodup_sources_lazyMembers files path distinct, ?_⟩
  rintro ⟨other, offset⟩ old _ new rfl
  obtain ⟨rfl, member, inside, rfl, -⟩ := mem_sources_lazyMembers.mp new
  exact fresh member inside (recorded member.offset old)

theorem ScanInvariant.parseAll {scan : Scan} {path : Path} {rest : List Path}
    {file : ArchiveFile}
    (invariant : ScanInvariant files archives undefined scan (path :: rest))
    (read : files.readArchive path = .ok file)
    (unindexed : ∀ symbols, file.index ≠ .entries symbols) :
    ScanInvariant files archives undefined
        { scan with
          seenOffsets :=
            Function.update scan.seenOffsets path (scan.seenOffsets path)
          members := scan.members ++ lazyMembers files path file.members
          parsedArchives := scan.parsedArchives + 1 } rest ∧
      Scanned files scan
        { scan with
          seenOffsets :=
            Function.update scan.seenOffsets path (scan.seenOffsets path)
          members := scan.members ++ lazyMembers files path file.members
          parsedArchives := scan.parsedArchives + 1 } [path] := by
  have unseen : scan.seenOffsets path = [] := by
    by_contra some
    obtain ⟨symbols, index⟩ := invariant.indexed path file read some
    exact unindexed symbols index
  have here : path ∈ scan.kept ++ path :: rest := by simp
  have dropped : ∀ other ∈ scan.kept ++ rest,
      other ∈ scan.kept ++ path :: rest ∧ other ≠ path := by
    intro other inside
    have live := invariant.live
    rw [List.nodup_middle, List.nodup_cons] at live
    refine ⟨?_, fun equal => live.1 (equal ▸ inside)⟩
    rcases List.mem_append.mp inside with inside | inside <;> simp [inside]
  rw [Function.update_eq_self]
  constructor
  · constructor
    · intro member inside
      rcases List.mem_append.mp inside with old | new
      · exact invariant.genuine member old
      · exact genuine_lazyMembers (invariant.listed path here) read
          (fun _ inside => inside) member new
    · exact nodup_append_lazyMembers invariant.nodup
        (invariant.recorded path here) file.distinct (by simp [unseen])
    · have live := invariant.live
      rw [List.nodup_middle, List.nodup_cons] at live
      exact live.2
    · exact fun other inside =>
        invariant.listed other (dropped other inside).1
    · intro other inside offset source
      obtain ⟨pending, different⟩ := dropped other inside
      rw [sources_append, List.mem_append] at source
      rcases source with old | new
      · exact invariant.recorded other pending offset old
      · exact absurd (mem_sources_lazyMembers.mp new).1 different
    · intro other file' read' member inside obj parsed seen
      rw [sources_append]
      exact List.mem_append_left _
        (invariant.parsed other file' read' member inside obj parsed seen)
    · exact invariant.indexed
    · exact fun other inside =>
        (invariant.covered other inside).mono (by simp)
  · constructor
    · exact ⟨_, rfl⟩
    · dsimp only [List.length_singleton]
      omega
    · dsimp only
      omega
    · exact fun _ inside => inside
    · intro other inside
      obtain rfl : other = path := by simpa using inside
      refine .inr fun file' read' member inside obj parsed => ?_
      obtain rfl : file = file' := by
        rw [read] at read'
        exact Except.ok.inj read'
      rw [sources_append]
      exact List.mem_append_right _ (mem_sources_lazyMembers.mpr
        ⟨rfl, member, inside, rfl, by simp [parsed]⟩)

theorem ScanInvariant.keep {scan next : Scan} {path : Path}
    {rest : List Path} {file : ArchiveFile} {seen : List UInt64}
    {members : List ArchiveMember}
    (complete : CompleteIndexes files archives)
    (invariant : ScanInvariant files archives undefined scan (path :: rest))
    (read : files.readArchive path = .ok file)
    (matched : Matched file undefined (scan.seenOffsets path) seen members)
    (kept : next.kept.Perm (path :: scan.kept))
    (nextSeen : next.seenOffsets = Function.update scan.seenOffsets path seen)
    (nextMembers :
      next.members = scan.members ++ lazyMembers files path members) :
    ScanInvariant files archives undefined next rest := by
  have here : path ∈ scan.kept ++ path :: rest := by simp
  have perm : (next.kept ++ rest).Perm (scan.kept ++ path :: rest) :=
    (kept.append_right rest).trans List.perm_middle.symm
  have grows : sources scan.members ⊆ sources next.members := by
    rw [nextMembers, sources_append]
    exact List.subset_append_left _ _
  -- Every new source has a new offset, and every new offset is now seen.
  have parsedHere : ∀ member ∈ file.members, ∀ obj,
      files.parseMember path member = some obj → member.offset ∈ seen →
      (path, member.offset) ∈ sources next.members := by
    intro member inside obj parsed offsetSeen
    rw [matched.seen, List.mem_append] at offsetSeen
    rcases offsetSeen with old | new
    · exact grows (invariant.parsed path file read member inside obj parsed old)
    · obtain ⟨other, otherInside, equal⟩ := List.mem_map.mp new
      obtain rfl := ArchiveFile.eq_of_offset
        (matched.inside other otherInside) inside equal
      rw [nextMembers, sources_append]
      exact List.mem_append_right _ (mem_sources_lazyMembers.mpr
        ⟨rfl, other, otherInside, rfl, by simp [parsed]⟩)
  constructor
  · intro member inside
    rw [nextMembers, List.mem_append] at inside
    rcases inside with old | new
    · exact invariant.genuine member old
    · exact genuine_lazyMembers (invariant.listed path here) read
        matched.inside member new
  · rw [nextMembers]
    exact nodup_append_lazyMembers invariant.nodup
      (invariant.recorded path here) matched.nodup matched.fresh
  · exact perm.nodup_iff.mpr invariant.live
  · exact fun other inside =>
      invariant.listed other (perm.mem_iff.mp inside)
  · intro other inside offset source
    rw [nextMembers, sources_append, List.mem_append] at source
    rw [nextSeen]
    by_cases equal : other = path
    · subst equal
      rw [Function.update_self, matched.seen, List.mem_append]
      rcases source with old | new
      · exact .inl (invariant.recorded other here offset old)
      · obtain ⟨-, member, memberInside, rfl, -⟩ :=
          mem_sources_lazyMembers.mp new
        exact .inr (List.mem_map_of_mem memberInside)
    · rw [Function.update_of_ne equal]
      rcases source with old | new
      · exact invariant.recorded other (perm.mem_iff.mp inside) offset old
      · exact absurd (mem_sources_lazyMembers.mp new).1 equal
  · intro other file' read' member inside obj parsed offsetSeen
    rw [nextSeen] at offsetSeen
    by_cases equal : other = path
    · subst equal
      rw [Function.update_self] at offsetSeen
      obtain rfl : file = file' := by
        rw [read] at read'
        exact Except.ok.inj read'
      exact parsedHere member inside obj parsed offsetSeen
    · rw [Function.update_of_ne equal] at offsetSeen
      exact grows
        (invariant.parsed other file' read' member inside obj parsed offsetSeen)
  · intro other file' read' some
    rw [nextSeen] at some
    by_cases equal : other = path
    · subst equal
      obtain rfl : file = file' := by
        rw [read] at read'
        exact Except.ok.inj read'
      by_cases old : scan.seenOffsets other = []
      · refine matched.indexed ?_
        rintro rfl
        simp [matched.seen, old] at some
      · exact invariant.indexed other file read' old
    · rw [Function.update_of_ne equal] at some
      exact invariant.indexed other file' read' some
  · intro other inside
    rcases List.mem_cons.mp (kept.mem_iff.mp inside) with rfl | old
    · intro file' read' member memberInside obj parsed name defines needed
      obtain rfl : file = file' := by
        rw [read] at read'
        exact Except.ok.inj read'
      refine parsedHere member memberInside obj parsed ?_
      cases index : file.index with
      | unreadable => exact absurd index matched.readable
      | absent => simp [matched.empty index] at memberInside
      | entries symbols =>
          exact matched.matching symbols index name member.offset
            (complete other (invariant.listed other here) file read symbols
              index member memberInside obj parsed name defines) needed
    · exact (invariant.covered other old).mono grows

theorem scanArchive_scanned {scan next : Scan} {path : Path}
    {rest : List Path} (complete : CompleteIndexes files archives)
    (invariant : ScanInvariant files archives undefined scan (path :: rest))
    (scanned : scanArchive files undefined scan path = .ok next) :
    ScanInvariant files archives undefined next rest ∧
      Scanned files scan next [path] := by
  obtain ⟨file, read, cases⟩ := scanArchive_cases scanned
  rcases cases with ⟨seen, matched, rfl⟩ | ⟨seen, matched, rfl⟩ |
    ⟨members, seen, some, matched, rfl⟩
  · obtain ⟨rfl, unindexed⟩ := iterArchiveMembersMatching_none matched
    exact invariant.parseAll read unindexed
  · have kept : (scan.nextPending ++ [path] ++ scan.parsedIndexed).Perm
        (path :: scan.kept) := by
      simp [Scan.kept, List.perm_middle]
    refine ⟨invariant.keep complete read
      (iterArchiveMembersMatching_some matched) kept rfl
      (by simp [lazyMembers]), ?_⟩
    constructor
    · exact ⟨[], by simp⟩
    · simp
      omega
    · simp
      omega
    · exact fun other inside =>
        kept.mem_iff.mpr (List.mem_cons_of_mem _ inside)
    · exact fun other inside => .inl (kept.mem_iff.mpr
        (List.mem_cons.mpr (.inl (by simpa using inside))))
  · have kept : (scan.nextPending ++ (scan.parsedIndexed ++ [path])).Perm
        (path :: scan.kept) := by
      rw [← List.append_assoc]
      exact List.perm_append_singleton path scan.kept
    refine ⟨invariant.keep complete read
      (iterArchiveMembersMatching_some matched) kept rfl rfl, ?_⟩
    constructor
    · exact ⟨_, rfl⟩
    · simp
      omega
    · simp
      omega
    · exact fun other inside =>
        kept.mem_iff.mpr (List.mem_cons_of_mem _ inside)
    · exact fun other inside => .inl (kept.mem_iff.mpr
        (List.mem_cons.mpr (.inl (by simpa using inside))))

theorem scan_scanned {scan final : Scan} {pending : List Path}
    (complete : CompleteIndexes files archives)
    (invariant : ScanInvariant files archives undefined scan pending)
    (scanned : pending.foldlM (scanArchive files undefined) scan = .ok final) :
    ScanInvariant files archives undefined final [] ∧
      Scanned files scan final pending := by
  induction pending generalizing scan with
  | nil =>
      cases scanned
      exact ⟨invariant, Scanned.refl files _⟩
  | cons path rest induction =>
      rw [List.foldlM_cons] at scanned
      cases first : scanArchive files undefined scan path with
      | error error => simp [first, bind, Except.bind] at scanned
      | ok next =>
          rw [first] at scanned
          obtain ⟨nextInvariant, step⟩ :=
            scanArchive_scanned complete invariant first
          obtain ⟨finalInvariant, steps⟩ := induction nextInvariant scanned
          exact ⟨finalInvariant, step.trans steps⟩

end Scan

end Peony
