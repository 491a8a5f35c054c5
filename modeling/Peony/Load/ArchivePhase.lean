import Peony.Load.ArchiveScan

namespace Peony

/-! The archive phase as a whole: every round keeps what is known of the
archives, the rounds come to an end, and at the end no member that was left
behind is wanted. -/

section Phase

variable {files : Files} {archives : List Path} {sound : Resolver → Prop}

namespace ArchiveState

def scan (state : ArchiveState) : Scan :=
  ⟨[], [], state.seenOffsets, state.lazy.members, 0⟩

/-- Nothing is wanted: no waiting member, and no member not parsed yet. -/
structure Closed (files : Files) (archives : List Path)
    (state : ArchiveState) : Prop where
  settled : state.lazy.Settled
  covered : ∀ path ∈ archives,
    Covered files state.lazy.members state.lazy.undefined path

/-- What holds between two rounds. An archive that is no longer pending has
given all its members, unless there is nothing left to look for. -/
structure Invariant (files : Files) (archives : List Path)
    (sound : Resolver → Prop) (state : ArchiveState) : Prop where
  consistent : state.lazy.Consistent sound
  ready : ScanInvariant files archives state.lazy.undefined state.scan
    state.pending
  retired : (∀ path ∈ archives, path ∉ state.pending →
      AllParsed files state.lazy.members path) ∨
    state.Closed files archives

/-- How many members have been pulled. -/
def pulled (state : ArchiveState) : Nat :=
  state.lazy.members.length - waiting state.lazy.members

end ArchiveState

theorem waiting_le_length (members : List Member) :
    waiting members ≤ members.length :=
  List.countP_le_length

theorem waiting_append (front back : List Member) :
    waiting (front ++ back) = waiting front + waiting back :=
  List.countP_append

theorem pullLazyMembers_of_unwanted {members : List Member}
    {resolver : Resolver} {undefined : Finset Name}
    (unwanted : ∀ member ∈ members, member.obj.isSome →
      member.wanted undefined = false) :
    pullLazyMembers members resolver undefined =
      .ok (⟨members, resolver, undefined⟩, 0) := by
  induction members with
  | nil => rfl
  | cons member rest induction =>
      have restPulled := induction fun other inside =>
        unwanted other (List.mem_cons_of_mem _ inside)
      unfold pullLazyMembers
      cases held : member.obj with
      | none => simp [restPulled, bind, Except.bind, pure, Except.pure]
      | some obj =>
          have here := unwanted member (List.mem_cons_self ..) (by simp [held])
          simp [here, restPulled, bind, Except.bind, pure, Except.pure]

theorem genuine_follows {before after : List Member}
    (follows : List.Forall₂ Member.Follows before after)
    (genuine : ∀ member ∈ before, Genuine files archives member) :
    ∀ member ∈ after, Genuine files archives member := by
  induction follows with
  | nil => simp
  | cons head _ induction =>
      intro member inside
      rcases List.mem_cons.mp inside with rfl | inside
      · exact (genuine _ (List.mem_cons_self ..)).follows head
      · exact induction
          (fun other inside => genuine other (List.mem_cons_of_mem _ inside))
          member inside

theorem ScanInvariant.next {undefined undefined' : Finset Name} {scan : Scan}
    {members : List Member} {pending : List Path}
    (invariant : ScanInvariant files archives undefined scan [])
    (follows : List.Forall₂ Member.Follows scan.members members)
    (sublist : pending.Sublist scan.kept) :
    ScanInvariant files archives undefined'
      ⟨[], [], scan.seenOffsets, members, 0⟩ pending := by
  have same := sources_eq_of_follows follows
  have kept : ∀ path ∈ pending, path ∈ scan.kept ++ [] := fun path inside =>
    List.mem_append_left _ (sublist.subset inside)
  have live := invariant.live
  rw [List.append_nil] at live
  constructor
  · exact genuine_follows follows invariant.genuine
  · dsimp only
    rw [same]
    exact invariant.nodup
  · exact live.sublist sublist
  · exact fun path inside => invariant.listed path (kept path inside)
  · intro path inside offset source
    exact invariant.recorded path (kept path inside) offset (same ▸ source)
  · intro path file read member inside obj parsed seen
    dsimp only
    rw [same]
    exact invariant.parsed path file read member inside obj parsed seen
  · exact invariant.indexed
  · intro path inside
    cases inside

theorem ArchiveState.Closed.unwanted {state : ArchiveState} {scan : Scan}
    (closed : state.Closed files archives)
    (invariant : ScanInvariant files archives state.lazy.undefined scan [])
    {more : List Member} (members : scan.members = state.lazy.members ++ more) :
    ∀ member ∈ scan.members, member.obj.isSome →
      member.wanted state.lazy.undefined = false := by
  intro member inside held
  rw [members, List.mem_append] at inside
  rcases inside with old | new
  · exact closed.settled member old held
  · by_contra wanted
    rw [Bool.not_eq_false, Member.wanted, List.any_eq_true] at wanted
    obtain ⟨name, defines, needed⟩ := wanted
    obtain ⟨path, file, archived, obj, listed, read, archivedInside, parsed,
      source, definesEqual, -⟩ :=
        invariant.genuine member (members ▸ List.mem_append_right _ new)
    rw [definesEqual] at defines
    have known := closed.covered path listed file read archived archivedInside
      obj parsed name defines (by simpa using needed)
    have distinct := invariant.nodup
    rw [members, sources_append, List.nodup_append] at distinct
    exact distinct.2.2 _ known _
      (List.mem_filterMap.mpr ⟨member, new, source⟩) rfl

structure Round (files : Files) (archives : List Path) (sound : Resolver → Prop)
    (before after : ArchiveState) (goesOn : Bool) : Prop where
  invariant : after.Invariant files archives sound
  pulls : ∃ pulled, before.lazy.resolver.Pulls pulled after.lazy.resolver ∧
    ∀ obj ∈ pulled, InArchives files archives obj
  closed : goesOn = false → after.Closed files archives
  progress : goesOn = true →
    before.pulled + after.pending.length <
        after.pulled + before.pending.length
  pending : after.pending.length ≤ before.pending.length
  pulled : before.pulled ≤ after.pulled

def pendingAfter (scan : Scan) (count : Nat) : List Path :=
  if 0 < count then scan.nextPending ++ scan.parsedIndexed
  else scan.nextPending

theorem archiveRound_cases {before after : ArchiveState} {goesOn : Bool}
    (ran : archiveRound files before = .ok (after, goesOn)) :
    ∃ scan lazy count,
      before.pending.foldlM (scanArchive files before.lazy.undefined)
        before.scan = .ok scan ∧
      pullLazyMembers scan.members before.lazy.resolver
        before.lazy.undefined = .ok (lazy, count) ∧
      after = ⟨pendingAfter scan count, scan.seenOffsets, lazy⟩ ∧
      goesOn = (decide (0 < count) || decide (0 < scan.parsedArchives)) := by
  unfold archiveRound at ran
  cases scanned : before.pending.foldlM
      (scanArchive files before.lazy.undefined) before.scan with
  | error error =>
      rw [ArchiveState.scan] at scanned
      simp [scanned, bind, Except.bind] at ran
  | ok scan =>
      rw [ArchiveState.scan] at scanned
      simp only [scanned, bind, Except.bind] at ran
      cases pulledOk : pullLazyMembers scan.members before.lazy.resolver
          before.lazy.undefined with
      | error error => simp [pulledOk] at ran
      | ok result =>
          obtain ⟨lazy, count⟩ := result
          simp only [pulledOk] at ran
          cases ran
          exact ⟨scan, lazy, count, rfl, pulledOk, rfl, rfl⟩

/-- A round that pulls nothing leaves nothing to be wanted. -/
theorem closed_of_idle {before : ArchiveState} {scan : Scan}
    (invariant : before.Invariant files archives sound)
    (scanInvariant :
      ScanInvariant files archives before.lazy.undefined scan [])
    (scanned : Scanned files before.scan scan before.pending)
    (unwanted : ∀ member ∈ scan.members, member.obj.isSome →
      member.wanted before.lazy.undefined = false)
    (pending : List Path) :
    ArchiveState.Closed files archives
      ⟨pending, scan.seenOffsets,
        ⟨scan.members, before.lazy.resolver, before.lazy.undefined⟩⟩ := by
  obtain ⟨more, members⟩ := scanned.members
  have grows : sources before.lazy.members ⊆ sources scan.members := by
    rw [members, sources_append]
    exact List.subset_append_left _ _
  refine ⟨unwanted, fun path listed => ?_⟩
  by_cases waits : path ∈ before.pending
  · rcases scanned.kept path waits with kept | all
    · exact scanInvariant.covered path kept
    · exact all.covered _
  · rcases invariant.retired with retired | closed
    · exact ((retired path listed waits).mono grows).covered _
    · exact (closed.covered path listed).mono grows

theorem archiveRound_round {before after : ArchiveState} {goesOn : Bool}
    (stable : Resolver.Stable sound) (complete : CompleteIndexes files archives)
    (invariant : before.Invariant files archives sound)
    (ran : archiveRound files before = .ok (after, goesOn)) :
    Round files archives sound before after goesOn := by
  obtain ⟨scan, lazy, count, scanned, pulledOk, rfl, rfl⟩ :=
    archiveRound_cases ran
  obtain ⟨scanInvariant, scanDone⟩ :=
    scan_scanned complete invariant.ready scanned
  have consistent : LazyState.Consistent sound
      ⟨scan.members, before.lazy.resolver, before.lazy.undefined⟩ :=
    ⟨invariant.consistent.sound, invariant.consistent.mirrors,
      fun member inside obj held =>
        (scanInvariant.genuine member inside).defines_eq held⟩
  have pass := pullLazyMembers_pass stable consistent pulledOk
  have follows : List.Forall₂ Member.Follows scan.members lazy.members :=
    pass.follows
  obtain ⟨more, members⟩ := scanDone.members
  have pulls : ∃ pulled, before.lazy.resolver.Pulls pulled lazy.resolver ∧
      ∀ obj ∈ pulled, InArchives files archives obj := by
    rcases pass.pulls with ⟨pulled, pulls, all⟩
    refine ⟨pulled, pulls, fun obj isPulled => ?_⟩
    rcases List.mem_filterMap.mp (all.subset (List.mem_append_left _ isPulled)) with
      ⟨member, inside, held⟩
    exact (scanInvariant.genuine member inside).inArchives held
  -- The counts of members and archives.
  have sameLength := follows.length_eq
  have waits : waiting lazy.members + count = waiting scan.members :=
    pass.waiting
  have scanLength : scan.members.length =
      before.lazy.members.length + more.length := by
    rw [members, List.length_append]
    rfl
  have scanWaiting : waiting scan.members =
      waiting before.lazy.members + waiting more := by
    rw [members, waiting_append]
    rfl
  have moreWaiting := waiting_le_length more
  have beforeWaiting := waiting_le_length before.lazy.members
  have archivesCount : scan.nextPending.length + scan.parsedArchives =
      before.pending.length := by
    simpa [ArchiveState.scan] using scanDone.count
  have indexedCount : scan.parsedIndexed.length ≤ scan.parsedArchives := by
    simpa [ArchiveState.scan] using scanDone.indexedCount
  have sublist : (pendingAfter scan count).Sublist scan.kept := by
    unfold pendingAfter
    split
    · exact List.Sublist.refl _
    · exact List.sublist_append_left _ _
  have ready : ScanInvariant files archives lazy.undefined
      (ArchiveState.scan ⟨pendingAfter scan count, scan.seenOffsets, lazy⟩)
      (pendingAfter scan count) := scanInvariant.next follows sublist
  have pulledMore : before.pulled + count ≤
      ArchiveState.pulled
        ⟨pendingAfter scan count, scan.seenOffsets, lazy⟩ := by
    unfold ArchiveState.pulled
    dsimp only
    omega
  have pendingLength : (pendingAfter scan count).length ≤
      before.pending.length := by
    unfold pendingAfter
    split
    · rw [List.length_append]
      omega
    · omega
  by_cases idle : count = 0
  · obtain ⟨same, unwanted⟩ := pass.idle idle
    subst same
    have closed := closed_of_idle invariant scanInvariant scanDone unwanted
      (pendingAfter scan count)
    refine ⟨⟨pass.consistent, ready, .inr closed⟩, pulls,
      fun _ => closed, fun goesOn => ?_, pendingLength, by omega⟩
    have parsedSome : 0 < scan.parsedArchives := by
      simpa [idle] using goesOn
    have shorter : (pendingAfter scan count).length <
        before.pending.length := by
      simp only [pendingAfter, idle, lt_irrefl, if_false]
      omega
    dsimp only
    omega
  · have retired : ∀ path ∈ archives, path ∉ before.pending →
        AllParsed files before.lazy.members path := by
      rcases invariant.retired with retired | closed
      · exact retired
      · -- A closed state pulls nothing.
        have none : pullLazyMembers scan.members before.lazy.resolver
            before.lazy.undefined = _ :=
          pullLazyMembers_of_unwanted (closed.unwanted scanInvariant members)
        rw [pulledOk] at none
        cases none
        exact absurd rfl idle
    have some : 0 < count := Nat.pos_of_ne_zero idle
    refine ⟨⟨pass.consistent, ready, .inl ?_⟩, pulls, ?_,
      fun _ => ?_, pendingLength, by omega⟩
    · intro path listed gone
      have grows : sources before.lazy.members ⊆ sources lazy.members := by
        rw [sources_eq_of_follows follows, members, sources_append]
        exact List.subset_append_left _ _
      by_cases waits : path ∈ before.pending
      · rcases scanDone.kept path waits with kept | all
        · exact absurd (by simpa [pendingAfter, some, Scan.kept] using kept) gone
        · exact all.mono (sources_eq_of_follows follows ▸ fun _ inside => inside)
      · exact (retired path listed waits).mono grows
    · simp [some]
    · dsimp only
      omega

/-! ## The loop ends -/

/-- Every member of every archive that can be read. -/
def allSources (files : Files) (archives : List Path) :
    List (Path × UInt64) :=
  archives.flatMap fun path =>
    match files.readArchive path with
    | .ok file => file.members.map fun member => (path, member.offset)
    | .error _ => []

theorem length_allSources (files : Files) (archives : List Path) :
    (allSources files archives).length = memberCount files archives := by
  rw [allSources, memberCount, List.length_flatMap]
  congr 1
  apply List.map_congr_left
  intro path _
  cases files.readArchive path <;> simp

theorem length_sources {members : List Member}
    (genuine : ∀ member ∈ members, Genuine files archives member) :
    (sources members).length = members.length := by
  induction members with
  | nil => rfl
  | cons member rest induction =>
      obtain ⟨_, _, _, _, -, -, -, -, source, -⟩ :=
        genuine member (List.mem_cons_self ..)
      have restLength := induction fun other inside =>
        genuine other (List.mem_cons_of_mem _ inside)
      rw [sources, List.filterMap_cons, source]
      simpa [sources] using restLength

theorem length_members_le {members : List Member}
    (genuine : ∀ member ∈ members, Genuine files archives member)
    (nodup : (sources members).Nodup) :
    members.length ≤ memberCount files archives := by
  rw [← length_sources genuine, ← length_allSources]
  apply (nodup.subperm _).length_le
  intro source inside
  obtain ⟨member, memberInside, named⟩ := List.mem_filterMap.mp inside
  obtain ⟨path, file, archived, obj, listed, read, archivedInside, -, source',
    -⟩ := genuine member memberInside
  rw [source', Option.some.injEq] at named
  subst named
  exact List.mem_flatMap.mpr ⟨path, listed, by
    simpa [read] using ⟨archived, archivedInside, rfl⟩⟩

theorem ArchiveState.Invariant.pulled_le {state : ArchiveState}
    (invariant : state.Invariant files archives sound) :
    state.pulled ≤ memberCount files archives :=
  (Nat.sub_le _ _).trans
    (length_members_le invariant.ready.genuine invariant.ready.nodup)

theorem closed_of_empty {state : ArchiveState}
    (none : state.lazy.undefined = ∅) : state.Closed files archives where
  settled := LazyState.settled_of_empty none
  covered := by
    intro path _ file _ member _ obj _ name _ needed
    simp [none] at needed

theorem archiveLoop_closed {fuel : Nat} {before after : ArchiveState}
    (stable : Resolver.Stable sound) (complete : CompleteIndexes files archives)
    (invariant : before.Invariant files archives sound)
    (enough : memberCount files archives + before.pending.length <
      fuel + before.pulled)
    (ran : archiveLoop files fuel before = .ok after) :
    after.Invariant files archives sound ∧ after.Closed files archives ∧
      ∃ pulled, before.lazy.resolver.Pulls pulled after.lazy.resolver ∧
        ∀ obj ∈ pulled, InArchives files archives obj := by
  induction fuel generalizing before with
  | zero =>
      have bound := invariant.pulled_le
      omega
  | succ fuel induction =>
      unfold archiveLoop at ran
      by_cases none : before.lazy.undefined = ∅
      · simp only [none, if_true] at ran
        cases ran
        exact ⟨invariant, closed_of_empty none, [], .none _, by simp⟩
      · simp only [none, if_false] at ran
        cases roundOk : archiveRound files before with
        | error error => simp [roundOk, bind, Except.bind] at ran
        | ok result =>
            obtain ⟨next, goesOn⟩ := result
            have round := archiveRound_round stable complete invariant roundOk
            simp only [roundOk, bind, Except.bind] at ran
            cases goesOn with
            | false =>
                cases ran
                exact ⟨round.invariant, round.closed rfl, round.pulls⟩
            | true =>
                have progress := round.progress rfl
                obtain ⟨final, closed, later, laterPulls, laterInside⟩ :=
                  induction round.invariant (by omega) ran
                obtain ⟨pulled, pulls, inside⟩ := round.pulls
                refine ⟨final, closed, pulled ++ later, pulls.trans laterPulls,
                  fun obj isPulled => ?_⟩
                rcases List.mem_append.mp isPulled with isPulled | isPulled
                · exact inside obj isPulled
                · exact laterInside obj isPulled

def ArchiveState.start (archives : List Path) (resolver : Resolver) : ArchiveState :=
  ⟨archives.reverse.dedup.reverse, fun _ => [],
    ⟨[], resolver, currentGlobalUndefined resolver.symbols⟩⟩

theorem mem_unique {listed : List Path} {path : Path} :
    path ∈ listed.reverse.dedup.reverse ↔ path ∈ listed := by
  simp

theorem ArchiveState.invariant_start (listed : List Path) {resolver : Resolver}
    (isSound : sound resolver) :
    ArchiveState.Invariant files listed.reverse.dedup.reverse sound
      (ArchiveState.start listed resolver) := by
  refine ⟨⟨isSound, mirrors_currentGlobalUndefined resolver, by simp [start]⟩,
    ⟨by simp [start, ArchiveState.scan], by simp [start, ArchiveState.scan, sources], ?_,
      fun path inside => inside, by simp [start, ArchiveState.scan, sources],
      by simp [start, ArchiveState.scan], by simp [start, ArchiveState.scan],
      by simp [start, ArchiveState.scan, Scan.kept]⟩,
    .inl fun path inside outside => absurd inside outside⟩
  exact List.nodup_reverse.mpr (List.nodup_dedup _)

/-- What holds of the paths that are used holds of all. -/
theorem CompleteIndexes.unique {listed : List Path}
    (complete : CompleteIndexes files listed) :
    CompleteIndexes files listed.reverse.dedup.reverse :=
  fun path inside => complete path (mem_unique.mp inside)

theorem ArchiveState.Closed.listed {listed : List Path} {state : ArchiveState}
    (closed : state.Closed files listed.reverse.dedup.reverse) :
    state.Closed files listed where
  settled := closed.settled
  covered path inside := closed.covered path (mem_unique.mpr inside)

theorem Genuine.listed {listed : List Path} {member : Member}
    (genuine : Genuine files listed.reverse.dedup.reverse member) :
    Genuine files listed member := by
  rcases genuine with ⟨path, file, archived, obj, inUnique, rest⟩
  exact ⟨path, file, archived, obj, mem_unique.mp inUnique, rest⟩

theorem InArchives.unique {listed : List Path} {obj : InputObject}
    (inside : InArchives files listed.reverse.dedup.reverse obj) :
    InArchives files listed obj := by
  rcases inside with ⟨path, archived, isMember⟩
  exact ⟨path, archived, mem_unique.mp isMember.listed, isMember.inside, isMember.parsed⟩

theorem includeArchiveMembers_closed {forced : List Name} {listed : List Path}
    {resolver : Resolver} {after : ArchiveState}
    (complete : CompleteIndexes files listed)
    (accounts : resolver.Accounts forced)
    (ran : includeArchiveMembers files listed resolver = .ok after) :
    (∀ member ∈ after.lazy.members, Genuine files listed member) ∧
      after.lazy.Consistent (Resolver.Accounts forced) ∧ after.Closed files listed ∧
      ∃ pulled, resolver.Pulls pulled after.lazy.resolver ∧
        ∀ obj ∈ pulled, InArchives files listed obj := by
  obtain ⟨final, closed, pulled, pulls, inside⟩ := archiveLoop_closed (Resolver.stable_accounts forced)
    complete.unique (ArchiveState.invariant_start listed accounts)
    (by simp [ArchiveState.start, ArchiveState.pulled]) ran
  exact ⟨fun member inside => (final.ready.genuine member inside).listed,
    final.consistent, closed.listed, pulled, pulls, fun obj isPulled =>
      (inside obj isPulled).unique⟩

end Phase

end Peony
