import Peony.Load.ArchivePhase

namespace Peony

/-! What the archive phase does on its way: the members it collects and pulls, round by
round, and that its rounds end. -/

/-! ## The log of a phase -/

structure Pull where
  member : Member
  obj : InputObject
  before : Resolver
  after : Resolver
  undefinedBefore : Finset Name
  undefinedAfter : Finset Name

def pullLog : List Member → Resolver → Finset Name → List Pull
  | [], _, _ => []
  | member :: rest, resolver, undefined =>
      match member.obj with
      | none => pullLog rest resolver undefined
      | some obj =>
          if !member.wanted undefined then pullLog rest resolver undefined
          else
            match resolver.resolve obj with
            | .error _ => []
            | .ok next =>
                ⟨member, obj, resolver, next, undefined,
                  reconcile next.symbols (touched member obj) undefined⟩ ::
                  pullLog rest next
                    (reconcile next.symbols (touched member obj) undefined)

structure RoundLog where
  collected : List Member
  pulls : List Pull

/-- What one round collects and pulls; nothing when an archive cannot be read. -/
def roundLog (files : Files) (state : ArchiveState) : RoundLog :=
  match state.pending.foldlM (scanArchive files state.lazy.undefined) state.scan with
  | .error _ => ⟨[], []⟩
  | .ok scan =>
      ⟨scan.members.drop state.lazy.members.length,
        pullLog scan.members state.lazy.resolver state.lazy.undefined⟩

def loopLog (files : Files) : Nat → ArchiveState → List RoundLog
  | 0, _ => []
  | fuel + 1, state =>
      if state.lazy.undefined = ∅ then []
      else
        roundLog files state ::
          match archiveRound files state with
          | .ok (next, true) => loopLog files fuel next
          | _ => []

def extractionLog (files : Files) (archives : List Path) (resolver : Resolver) :
    List RoundLog :=
  loopLog files
    (memberCount files archives.reverse.dedup.reverse +
      archives.reverse.dedup.reverse.length + 1)
    (ArchiveState.start archives resolver)

def collectedBy (log : List RoundLog) : List Member := log.flatMap RoundLog.collected

def pullsOf (log : List RoundLog) : List Pull := log.flatMap RoundLog.pulls

/-- The members whose objects have been taken. -/
def taken (members : List Member) : List Member :=
  members.filter fun member => member.obj.isNone

/-- The runs of the loop itself, which has no bound on its rounds. -/
inductive Finishes (files : Files) : ArchiveState → Except LoadError ArchiveState → Prop
  | settled {state} (none : state.lazy.undefined = ∅) : Finishes files state (.ok state)
  | failed {state error} (some : state.lazy.undefined ≠ ∅)
      (failure : archiveRound files state = .error error) :
      Finishes files state (.error error)
  | last {state next} (some : state.lazy.undefined ≠ ∅)
      (idle : archiveRound files state = .ok (next, false)) :
      Finishes files state (.ok next)
  | round {state next result} (some : state.lazy.undefined ≠ ∅)
      (goesOn : archiveRound files state = .ok (next, true))
      (later : Finishes files next result) : Finishes files state result

/-! ## One pass -/

structure Pull.Tracked (pull : Pull) : Prop where
  held : pull.member.obj = some pull.obj
  resolved : pull.before.resolve pull.obj = .ok pull.after
  before : Mirrors pull.undefinedBefore pull.before
  after : Mirrors pull.undefinedAfter pull.after
  wanted : pull.member.wanted pull.undefinedBefore = true

theorem tracked_pullLog {members : List Member} {resolver : Resolver}
    {undefined : Finset Name} (mirrors : Mirrors undefined resolver)
    (defines : ∀ member ∈ members, ∀ obj, member.obj = some obj →
      member.defines = memberDefines obj) :
    ∀ pull ∈ pullLog members resolver undefined, pull.Tracked := by
  induction members generalizing resolver undefined with
  | nil => exact fun pull impossible => nomatch impossible
  | cons member rest induction =>
      have later {resolver : Resolver} {undefined : Finset Name}
          (mirrors : Mirrors undefined resolver) :=
        induction mirrors fun other inside => defines other (List.mem_cons_of_mem _ inside)
      intro pull inside
      rw [pullLog] at inside
      split at inside
      · exact later mirrors pull inside
      · rename_i obj held
        split at inside
        · exact later mirrors pull inside
        · rename_i wanted
          split at inside
          · exact nomatch inside
          · rename_i next resolved
            have isDefines := defines member List.mem_cons_self obj held
            rcases List.mem_cons.mp inside with rfl | inside
            · exact ⟨held, resolved, mirrors, mirrors.pull isDefines resolved,
                by simpa using wanted⟩
            · exact later (mirrors.pull isDefines resolved) pull inside

/-- The pulled members wait before the pass, in their order, even when it fails. -/
theorem pullLog_sublist (members : List Member) (resolver : Resolver)
    (undefined : Finset Name) :
    ((pullLog members resolver undefined).map Pull.member).Sublist
      (members.filter fun member => member.obj.isSome) := by
  induction members generalizing resolver undefined with
  | nil => exact List.Sublist.refl _
  | cons member rest induction =>
      rw [pullLog]
      split
      · rename_i isTaken
        rw [List.filter_cons_of_neg (by simp [isTaken])]
        exact induction resolver undefined
      · rename_i obj held
        rw [List.filter_cons_of_pos (by simp [held])]
        split
        · exact (induction resolver undefined).cons _
        · split
          · exact List.nil_sublist _
          · exact (induction _ _).cons_cons _

/-- What a pass that succeeds has done is what it logs. -/
structure Logged (before after : LazyState) (pulls : List Pull) : Prop where
  objects : after.resolver.objects = before.resolver.objects ++ pulls.map Pull.obj
  taken : (sources (taken after.members)).Perm
    (sources (taken before.members) ++ sources (pulls.map Pull.member))

theorem logged_pullLazyMembers {members : List Member} {resolver : Resolver}
    {undefined : Finset Name} {after : LazyState} {count : Nat}
    (pulled : pullLazyMembers members resolver undefined = .ok (after, count)) :
    Logged ⟨members, resolver, undefined⟩ after (pullLog members resolver undefined) := by
  induction members generalizing resolver undefined after count with
  | nil =>
      cases pulled
      exact ⟨by simp [pullLog], by simp [pullLog, Peony.taken, sources]⟩
  | cons member rest induction =>
      unfold pullLazyMembers at pulled
      rw [pullLog]
      cases held : member.obj with
      | none =>
          simp only [held] at pulled ⊢
          cases restPulled : pullLazyMembers rest resolver undefined with
          | error error => simp [restPulled, bind, Except.bind] at pulled
          | ok result =>
              rw [restPulled] at pulled
              cases pulled
              have logged := induction restPulled
              refine ⟨logged.objects, ?_⟩
              have isTaken (others : List Member) :
                  sources (taken (member :: others)) =
                    member.source.toList ++ sources (taken others) := by
                rw [taken, List.filter_cons_of_pos (by simp [held]), sources,
                  List.filterMap_cons]
                cases member.source <;> rfl
              dsimp only
              rw [isTaken, isTaken, List.append_assoc]
              exact logged.taken.append_left _
      | some obj =>
          have notTaken (others : List Member) :
              taken (member :: others) = taken others := by
            rw [taken, List.filter_cons_of_neg (by simp [held])]
            rfl
          simp only [held] at pulled ⊢
          cases wanted : member.wanted undefined with
          | false =>
              simp only [wanted, Bool.not_false, if_true] at pulled ⊢
              cases restPulled : pullLazyMembers rest resolver undefined with
              | error error => simp [restPulled, bind, Except.bind] at pulled
              | ok result =>
                  rw [restPulled] at pulled
                  cases pulled
                  have logged := induction restPulled
                  refine ⟨logged.objects, ?_⟩
                  dsimp only
                  rw [notTaken, notTaken]
                  exact logged.taken
          | true =>
              simp only [wanted, Bool.not_true, Bool.false_eq_true, if_false] at pulled ⊢
              cases resolved : resolver.resolve obj with
              | error error => simp [resolved, bind, Except.bind] at pulled
              | ok next =>
                  simp only [resolved, bind, Except.bind] at pulled
                  cases restPulled : pullLazyMembers rest next
                      (reconcile next.symbols (touched member obj) undefined) with
                  | error error => simp [restPulled] at pulled
                  | ok result =>
                      rw [restPulled] at pulled
                      cases pulled
                      have logged := induction restPulled
                      constructor
                      · dsimp only
                        rw [logged.objects, Resolver.objects_resolve resolved, List.map_cons,
                          List.append_assoc]
                        rfl
                      · dsimp only
                        have isTaken (others : List Member) :
                            sources (taken ({ member with obj := none } :: others)) =
                              member.source.toList ++ sources (taken others) := by
                          rw [taken, List.filter_cons_of_pos rfl, sources,
                            List.filterMap_cons]
                          cases member.source <;> rfl
                        have isPulled (others : List Member) :
                            sources (member :: others) =
                              member.source.toList ++ sources others := by
                          rw [sources, List.filterMap_cons]
                          cases member.source <;> rfl
                        rw [isTaken, notTaken, List.map_cons, isPulled]
                        refine (logged.taken.append_left _).trans ?_
                        rw [← List.append_assoc, ← List.append_assoc]
                        exact List.perm_append_comm.append_right _

/-! ## One round -/

section Rounds

variable {files : Files} {archives : List Path} {sound : Resolver → Prop}

theorem taken_append (front back : List Member) :
    taken (front ++ back) = taken front ++ taken back :=
  List.filter_append _ _

/-- What is parsed has its object. -/
theorem taken_lazyMembers (path : Path) (members : List ArchiveMember) :
    taken (lazyMembers files path members) = [] := by
  rw [taken, List.filter_eq_nil_iff]
  intro member inside
  rcases List.mem_filterMap.mp inside with ⟨archived, _, made⟩
  rcases Option.map_eq_some_iff.mp made with ⟨obj, _, rfl⟩
  exact Bool.false_ne_true

theorem taken_scan {undefined : Finset Name} {scan final : Scan} {pending : List Path}
    (scanned : pending.foldlM (scanArchive files undefined) scan = .ok final) :
    taken final.members = taken scan.members := by
  induction pending generalizing scan with
  | nil =>
      cases scanned
      rfl
  | cons path rest induction =>
      rw [List.foldlM_cons] at scanned
      cases first : scanArchive files undefined scan path with
      | error error => simp [first, bind, Except.bind] at scanned
      | ok next =>
          rw [first] at scanned
          rw [induction scanned]
          rcases scanArchive_cases first with
            ⟨file, _, ⟨_, _, rfl⟩ | ⟨_, _, rfl⟩ | ⟨_, _, _, _, rfl⟩⟩
          · simp [taken_append, taken_lazyMembers]
          · rfl
          · simp [taken_append, taken_lazyMembers]

theorem sources_taken_perm (members : List Member) :
    (sources (taken members) ++
      sources (members.filter fun member => member.obj.isSome)).Perm (sources members) := by
  have split := List.filter_append_perm (fun member : Member => member.obj.isNone) members
  simp only [Option.not_isNone] at split
  rw [← sources_append]
  exact split.filterMap _

structure RoundLog.Fits (files : Files) (archives : List Path) (state : ArchiveState)
    (log : RoundLog) : Prop where
  tracked : ∀ pull ∈ log.pulls, pull.Tracked
  genuine : ∀ member ∈ log.collected ++ log.pulls.map Pull.member,
    Genuine files archives member
  collected : (sources state.lazy.members ++ sources log.collected).Nodup
  pulled : (sources (taken state.lazy.members) ++
    sources (log.pulls.map Pull.member)).Nodup

structure Advances (before after : ArchiveState) (collected : List Member)
    (pulls : List Pull) : Prop where
  objects : after.lazy.resolver.objects =
    before.lazy.resolver.objects ++ pulls.map Pull.obj
  sources : sources after.lazy.members =
    sources before.lazy.members ++ sources collected
  taken : (Peony.sources (taken after.lazy.members)).Perm
    (Peony.sources (taken before.lazy.members) ++ Peony.sources (pulls.map Pull.member))

theorem Advances.refl (state : ArchiveState) : Advances state state [] [] :=
  ⟨by simp, by simp [Peony.sources], by simp [Peony.sources]⟩

theorem Advances.trans {first second third : ArchiveState}
    {collected more : List Member} {pulls others : List Pull}
    (left : Advances first second collected pulls)
    (right : Advances second third more others) :
    Advances first third (collected ++ more) (pulls ++ others) where
  objects := by rw [right.objects, left.objects, List.map_append, List.append_assoc]
  sources := by rw [right.sources, left.sources, sources_append, List.append_assoc]
  taken := by
    rw [List.map_append, sources_append, ← List.append_assoc]
    exact right.taken.trans (left.taken.append_right _)

theorem nodup_sources_members {state : ArchiveState}
    (invariant : state.Invariant files archives sound) :
    (sources state.lazy.members).Nodup :=
  invariant.ready.nodup

theorem nodup_sources_taken {members : List Member} (nodup : (sources members).Nodup) :
    (sources (taken members)).Nodup :=
  nodup.sublist (List.filter_sublist.filterMap _)

theorem fits_roundLog {state : ArchiveState} (complete : CompleteIndexes files archives)
    (invariant : state.Invariant files archives sound) :
    (roundLog files state).Fits files archives state := by
  rw [roundLog]
  split
  · exact ⟨fun pull impossible => (nomatch impossible),
      fun member impossible => (nomatch impossible), by simpa [sources] using nodup_sources_members invariant,
      by simpa [sources] using nodup_sources_taken (nodup_sources_members invariant)⟩
  · rename_i scan scanned
    rcases scan_scanned complete invariant.ready scanned with ⟨scanInvariant, scanDone⟩
    rcases scanDone.members with ⟨more, members⟩
    have dropped : scan.members.drop state.lazy.members.length = more := by
      rw [members]
      exact List.drop_left
    have isTaken : taken scan.members = taken state.lazy.members := taken_scan scanned
    refine ⟨tracked_pullLog invariant.consistent.mirrors fun member inside obj held =>
      (scanInvariant.genuine member inside).defines_eq held, ?_, ?_, ?_⟩
    · intro member inside
      refine scanInvariant.genuine member ?_
      rcases List.mem_append.mp inside with isCollected | isPulled
      · exact List.mem_of_mem_drop isCollected
      · exact List.mem_of_mem_filter ((pullLog_sublist _ _ _).subset isPulled)
    · dsimp only
      rw [dropped, ← sources_append]
      exact members ▸ scanInvariant.nodup
    · have whole := (sources_taken_perm scan.members).nodup_iff.mpr scanInvariant.nodup
      rw [← isTaken]
      exact whole.sublist (((pullLog_sublist _ _ _).filterMap _).append_left _)

theorem advances_archiveRound {before after : ArchiveState} {goesOn : Bool}
    (complete : CompleteIndexes files archives)
    (invariant : before.Invariant files archives sound)
    (ran : archiveRound files before = .ok (after, goesOn)) :
    Advances before after (roundLog files before).collected
      (roundLog files before).pulls := by
  rcases archiveRound_cases ran with ⟨scan, lazy, count, scanned, pulledOk, rfl, rfl⟩
  rcases scan_scanned complete invariant.ready scanned with ⟨scanInvariant, scanDone⟩
  rcases scanDone.members with ⟨more, members⟩
  have log : roundLog files before = ⟨scan.members.drop before.lazy.members.length,
      pullLog scan.members before.lazy.resolver before.lazy.undefined⟩ := by
    rw [roundLog, scanned]
  have dropped : scan.members.drop before.lazy.members.length = more := by
    rw [members]
    exact List.drop_left
  have logged := logged_pullLazyMembers pulledOk
  have consistent : LazyState.Consistent (fun _ => True)
      ⟨scan.members, before.lazy.resolver, before.lazy.undefined⟩ :=
    ⟨trivial, invariant.consistent.mirrors, fun member inside obj held =>
      (scanInvariant.genuine member inside).defines_eq held⟩
  have pass := pullLazyMembers_pass (fun _ _ => trivial) consistent pulledOk
  have follows : List.Forall₂ Member.Follows scan.members lazy.members := pass.follows
  rw [log]
  refine ⟨logged.objects, ?_, ?_⟩
  · dsimp only
    rw [sources_eq_of_follows follows, dropped, ← sources_append]
    exact congrArg sources members
  · have isTaken : taken scan.members = taken before.lazy.members := taken_scan scanned
    rw [← isTaken]
    exact logged.taken

/-! ## All rounds -/

structure LoopFits (files : Files) (archives : List Path) (state : ArchiveState)
    (log : List RoundLog) : Prop where
  tracked : ∀ pull ∈ pullsOf log, pull.Tracked
  genuine : ∀ member ∈ collectedBy log ++ (pullsOf log).map Pull.member,
    Genuine files archives member
  collected : (sources state.lazy.members ++ sources (collectedBy log)).Nodup
  pulled : (sources (taken state.lazy.members) ++
    sources ((pullsOf log).map Pull.member)).Nodup

theorem loopFits_nil {state : ArchiveState}
    (invariant : state.Invariant files archives sound) :
    LoopFits files archives state [] where
  tracked _ impossible := nomatch impossible
  genuine _ impossible := nomatch impossible
  collected := by simpa [collectedBy, sources] using nodup_sources_members invariant
  pulled := by
    simpa [pullsOf, sources] using nodup_sources_taken (nodup_sources_members invariant)

theorem RoundLog.Fits.single {state : ArchiveState} {log : RoundLog}
    (fits : log.Fits files archives state) : LoopFits files archives state [log] where
  tracked := by simpa [pullsOf] using fits.tracked
  genuine := by simpa [collectedBy, pullsOf] using fits.genuine
  collected := by simpa [collectedBy] using fits.collected
  pulled := by simpa [pullsOf] using fits.pulled

theorem RoundLog.Fits.cons {state next : ArchiveState} {log : RoundLog}
    {logs : List RoundLog} (fits : log.Fits files archives state)
    (advances : Advances state next log.collected log.pulls)
    (later : LoopFits files archives next logs) :
    LoopFits files archives state (log :: logs) where
  tracked pull inside := by
    rcases List.mem_append.mp inside with here | after
    · exact fits.tracked pull here
    · exact later.tracked pull after
  genuine member inside := by
    have cases : member ∈ log.collected ++ log.pulls.map Pull.member ∨
        member ∈ collectedBy logs ++ (pullsOf logs).map Pull.member := by
      simp only [collectedBy, pullsOf, List.flatMap_cons, List.map_append,
        List.mem_append] at inside ⊢
      tauto
    rcases cases with here | after
    · exact fits.genuine member here
    · exact later.genuine member after
  collected := by
    have nodup := later.collected
    rw [advances.sources, List.append_assoc, ← sources_append] at nodup
    exact nodup
  pulled := by
    have nodup := later.pulled
    rw [(advances.taken.append_right _).nodup_iff, List.append_assoc, ← sources_append,
      ← List.map_append] at nodup
    exact nodup

theorem loopFits_loopLog (stable : Resolver.Stable sound)
    (complete : CompleteIndexes files archives) (fuel : Nat) {state : ArchiveState}
    (invariant : state.Invariant files archives sound) :
    LoopFits files archives state (loopLog files fuel state) := by
  induction fuel generalizing state with
  | zero => exact loopFits_nil invariant
  | succ fuel induction =>
      rw [loopLog]
      split
      · exact loopFits_nil invariant
      · have fits := fits_roundLog complete invariant
        split
        · rename_i next ran
          have round := archiveRound_round stable complete invariant ran
          exact fits.cons (advances_archiveRound complete invariant ran)
            (induction round.invariant)
        · exact fits.single

theorem advances_archiveLoop (stable : Resolver.Stable sound)
    (complete : CompleteIndexes files archives) (fuel : Nat) {before after : ArchiveState}
    (invariant : before.Invariant files archives sound)
    (ran : archiveLoop files fuel before = .ok after) :
    Advances before after (collectedBy (loopLog files fuel before))
      (pullsOf (loopLog files fuel before)) := by
  induction fuel generalizing before with
  | zero =>
      cases ran
      exact Advances.refl _
  | succ fuel induction =>
      unfold archiveLoop at ran
      rw [loopLog]
      by_cases none : before.lazy.undefined = ∅
      · rw [if_pos none] at ran ⊢
        cases ran
        exact Advances.refl _
      · rw [if_neg none] at ran ⊢
        cases roundOk : archiveRound files before with
        | error error => simp [roundOk, bind, Except.bind] at ran
        | ok result =>
            rcases result with ⟨next, goesOn⟩
            have advances := advances_archiveRound complete invariant roundOk
            have round := archiveRound_round stable complete invariant roundOk
            simp only [roundOk, bind, Except.bind] at ran
            cases goesOn with
            | false =>
                cases ran
                exact advances.trans (Advances.refl _)
            | true => exact advances.trans (induction round.invariant ran)

theorem finishes_archiveLoop (stable : Resolver.Stable sound)
    (complete : CompleteIndexes files archives) {fuel : Nat} {state : ArchiveState}
    (invariant : state.Invariant files archives sound)
    (enough : memberCount files archives + state.pending.length < fuel + state.pulled) :
    Finishes files state (archiveLoop files fuel state) := by
  induction fuel generalizing state with
  | zero =>
      have bound := invariant.pulled_le
      omega
  | succ fuel induction =>
      unfold archiveLoop
      by_cases none : state.lazy.undefined = ∅
      · rw [if_pos none]
        exact .settled none
      · rw [if_neg none]
        cases roundOk : archiveRound files state with
        | error error => exact .failed none roundOk
        | ok result =>
            rcases result with ⟨next, goesOn⟩
            have round := archiveRound_round stable complete invariant roundOk
            cases goesOn with
            | false => exact .last none roundOk
            | true =>
                have progress := round.progress rfl
                exact .round none roundOk (induction round.invariant (by omega))

theorem mem_pulled_iff {listed : List Path} {resolver : Resolver} {after : ArchiveState}
    (complete : CompleteIndexes files listed) {pulled : List InputObject}
    (ran : includeArchiveMembers files listed resolver = .ok after)
    (objects : after.lazy.resolver.objects = resolver.objects ++ pulled)
    {obj : InputObject} :
    obj ∈ pulled ↔ ∃ path archived, IsMember files listed path archived obj ∧
      (path, archived.offset) ∈ sources (taken after.lazy.members) := by
  have stable : Resolver.Stable fun _ => True := fun _ _ => trivial
  have start := @ArchiveState.invariant_start files (fun _ => True) listed resolver trivial
  have fits := loopFits_loopLog stable complete.unique
    (memberCount files listed.reverse.dedup.reverse + listed.reverse.dedup.reverse.length + 1)
    start
  have advances := advances_archiveLoop stable complete.unique _ start ran
  have logged := advances.objects
  rw [objects] at logged
  rw [List.append_cancel_left logged]
  have takenIff : ∀ source, source ∈ sources (taken after.lazy.members) ↔
      source ∈ sources ((pullsOf (extractionLog files listed resolver)).map Pull.member) := by
    intro source
    rw [advances.taken.mem_iff]
    simp [ArchiveState.start, taken, sources, extractionLog]
  have pullMember {pull : Pull} (inside : pull ∈ pullsOf (extractionLog files listed resolver)) :
      ∃ path archived, IsMember files listed path archived pull.obj ∧
        pull.member.source = some (path, archived.offset) := by
    rcases (fits.genuine pull.member (List.mem_append_right _
      (List.mem_map_of_mem inside))).listed with
      ⟨path, file, archived, obj, isListed, read, isInside, parsed, source, _, held⟩
    rw [(fits.tracked pull inside).held] at held
    rcases held with held | gone
    · cases held
      exact ⟨path, archived, ⟨isListed, ⟨file, read, isInside⟩, parsed⟩, source⟩
    · cases gone
  constructor
  · intro isPulled
    rcases List.mem_map.mp isPulled with ⟨pull, inside, rfl⟩
    rcases pullMember inside with ⟨path, archived, isMember, source⟩
    exact ⟨path, archived, isMember, (takenIff _).mpr
      (List.mem_filterMap.mpr ⟨pull.member, List.mem_map_of_mem inside, source⟩)⟩
  · rintro ⟨path, archived, isMember, isTaken⟩
    rcases List.mem_filterMap.mp ((takenIff _).mp isTaken) with ⟨member, isPull, source⟩
    rcases List.mem_map.mp isPull with ⟨pull, inside, rfl⟩
    rcases pullMember inside with ⟨path', archived', isMember', source'⟩
    rw [source, Option.some.injEq, Prod.mk.injEq] at source'
    rcases source' with ⟨rfl, sameOffset⟩
    have same := isMember.same isMember' sameOffset
    subst same
    have sameObject := isMember.parsed.symm.trans isMember'.parsed
    rw [Option.some.inj sameObject]
    exact List.mem_map_of_mem inside

/-! ## The whole phase -/

/-- What the archive phase does, by its log: its loop ends; after each pull the undefined
names are those of the table; each pull claims one of them; no member is collected or
pulled twice; what is not pulled is not wanted in the end; and naming an archive again
changes nothing. -/
structure ExactExtraction (files : Files) (archives : List Path) (resolver : Resolver)
    (log : List RoundLog) (result : Except LoadError ArchiveState) : Prop where
  terminates : Finishes files (ArchiveState.start archives resolver) result
  genuine : ∀ member ∈ collectedBy log ++ (pullsOf log).map Pull.member,
    Genuine files archives member
  resolved : ∀ pull ∈ pullsOf log, pull.member.obj = some pull.obj ∧
    pull.before.resolve pull.obj = .ok pull.after
  mirrored : ∀ pull ∈ pullsOf log,
    pull.undefinedAfter = currentGlobalUndefined pull.after.symbols
  claimed : ∀ pull ∈ pullsOf log, ∃ name ∈ memberDefines pull.obj,
    name ∈ currentGlobalUndefined pull.before.symbols
  collectedOnce : (sources (collectedBy log)).Nodup
  pulledOnce : (sources ((pullsOf log).map Pull.member)).Nodup
  complete : ∀ after, result = .ok after →
    after.lazy.resolver.objects = resolver.objects ++ (pullsOf log).map Pull.obj ∧
      sources after.lazy.members = sources (collectedBy log)
  unwanted : ∀ after, result = .ok after → ∀ path ∈ archives, ∀ file,
    files.readArchive path = .ok file → ∀ member ∈ file.members, ∀ obj,
    files.parseMember path member = some obj →
    (path, member.offset) ∉ sources ((pullsOf log).map Pull.member) →
    ∀ name ∈ memberDefines obj,
      after.lazy.resolver.symbols.stronglyUndefined name = false
  repeated : ∀ front path back, archives = front ++ path :: back → path ∈ front →
    includeArchiveMembers files (front ++ back) resolver = result

theorem Mirrors.eq {undefined : Finset Name} {resolver : Resolver}
    (mirrors : Mirrors undefined resolver) :
    undefined = currentGlobalUndefined resolver.symbols := by
  ext name
  rw [mirrors name, mirrors_currentGlobalUndefined resolver name]

theorem ArchiveState.Closed.not_stronglyUndefined {state : ArchiveState}
    (closed : state.Closed files archives)
    (consistent : state.lazy.Consistent sound)
    (genuine : ∀ member ∈ state.lazy.members, Genuine files archives member)
    {path : Path} (listed : path ∈ archives) {file : ArchiveFile}
    (read : files.readArchive path = .ok file) {member : ArchiveMember}
    (inside : member ∈ file.members) {obj : InputObject}
    (parsed : files.parseMember path member = some obj)
    (left : (path, member.offset) ∉ sources (taken state.lazy.members))
    {name : Name} (defines : name ∈ memberDefines obj) :
    state.lazy.resolver.symbols.stronglyUndefined name = false := by
  by_contra strong
  have needed : name ∈ state.lazy.undefined :=
    (consistent.mirrors name).mpr (by simpa using strong)
  have collected := closed.covered path listed file read member inside obj parsed name
    defines needed
  rcases List.mem_filterMap.mp collected with ⟨found, isFound, source⟩
  cases held : found.obj with
  | none =>
      refine left (List.mem_filterMap.mpr ⟨found, List.mem_filter.mpr ⟨isFound, ?_⟩, source⟩)
      rw [held]
      rfl
  | some other =>
      have unwanted := closed.settled found isFound (by rw [held]; rfl)
      rcases genuine found isFound with
        ⟨path', file', archived, obj', _, read', inside', parsed', source', definesEqual, _⟩
      rw [source, Option.some.injEq, Prod.mk.injEq] at source'
      rcases source' with ⟨rfl, sameOffset⟩
      rw [read, Except.ok.injEq] at read'
      subst read'
      have same := ArchiveFile.eq_of_offset inside inside' sameOffset
      subst same
      rw [parsed, Option.some.injEq] at parsed'
      subst parsed'
      rw [Member.wanted, List.any_eq_false] at unwanted
      refine unwanted name (definesEqual ▸ defines) ?_
      rw [decide_eq_true_eq]
      exact needed

theorem dedup_reverse_of_mem {front : List Path} {path : Path} (back : List Path)
    (inside : path ∈ front) :
    (front ++ path :: back).reverse.dedup = (front ++ back).reverse.dedup := by
  rw [List.reverse_append, List.reverse_cons, List.append_assoc, List.singleton_append,
    List.reverse_append, List.dedup_append, List.dedup_append,
    List.dedup_cons_of_mem (List.mem_reverse.mpr inside)]

/-- The archive phase is an exact fixpoint, from any table and for archives whose
indexes, where they have one, name every parseable member for each name it defines. -/
theorem includeArchiveMembers_exact (files : Files) (archives : List Path)
    (complete : CompleteIndexes files archives) (resolver : Resolver) :
    ExactExtraction files archives resolver (extractionLog files archives resolver)
      (includeArchiveMembers files archives resolver) := by
  have stable : Resolver.Stable fun _ => True := fun _ _ => trivial
  have start := @ArchiveState.invariant_start files (fun _ => True) archives resolver trivial
  have enough : memberCount files archives.reverse.dedup.reverse +
      (ArchiveState.start archives resolver).pending.length <
      memberCount files archives.reverse.dedup.reverse +
        archives.reverse.dedup.reverse.length + 1 +
        (ArchiveState.start archives resolver).pulled := by
    simp [ArchiveState.start, ArchiveState.pulled]
  have fits : LoopFits files _ _ (extractionLog files archives resolver) :=
    loopFits_loopLog stable complete.unique _ start
  have advances {after : ArchiveState}
      (ran : includeArchiveMembers files archives resolver = .ok after) :
      Advances (ArchiveState.start archives resolver) after
        (collectedBy (extractionLog files archives resolver))
        (pullsOf (extractionLog files archives resolver)) :=
    advances_archiveLoop stable complete.unique _ start ran
  exact {
    terminates := finishes_archiveLoop stable complete.unique start enough
    genuine := fun member inside => (fits.genuine member inside).listed
    resolved := fun pull inside => ⟨(fits.tracked pull inside).held,
      (fits.tracked pull inside).resolved⟩
    mirrored := fun pull inside => (fits.tracked pull inside).after.eq
    claimed := by
      intro pull inside
      have tracked := fits.tracked pull inside
      have isGenuine := fits.genuine pull.member
        (List.mem_append_right _ (List.mem_map_of_mem inside))
      rcases List.any_eq_true.mp tracked.wanted with ⟨name, isDefined, needed⟩
      rw [isGenuine.defines_eq tracked.held] at isDefined
      rw [← tracked.before.eq]
      exact ⟨name, isDefined, by simpa using needed⟩
    collectedOnce := (List.nodup_append.mp fits.collected).2.1
    pulledOnce := (List.nodup_append.mp fits.pulled).2.1
    complete := fun after ran => ⟨(advances ran).objects, (advances ran).sources⟩
    unwanted := by
      intro after ran path listed file read member inside obj parsed left name defines
      rcases archiveLoop_closed stable complete.unique start enough ran with
        ⟨final, closed, _⟩
      refine closed.not_stronglyUndefined final.consistent final.ready.genuine
        (mem_unique.mpr listed) read inside parsed (fun isTaken => left ?_) defines
      exact (advances ran).taken.subset isTaken
    repeated := by
      rintro front path back rfl inside
      rw [includeArchiveMembers, includeArchiveMembers, dedup_reverse_of_mem back inside] }

end Rounds

/-! One member defines `a` and refers to `b`, which the other one defines. -/

private def chainSymbol (name : Name) (isUndefined : Bool) : InputSymbol :=
  ⟨1, name, .global, isUndefined, false, false, 0, 0, if isUndefined then none else some 1,
    0, 0⟩

private def chainObject (symbols : List InputSymbol) : InputObject :=
  ⟨"", [], symbols, default, default, []⟩

private def chainArchive : ArchiveFile where
  index := .entries [([98], 80), ([97], 8)]
  members := [⟨8, [], []⟩, ⟨80, [], []⟩]
  distinct := by decide

private def chainFiles : Files where
  parseObject _ := .error (.io [])
  readArchive _ := .ok chainArchive
  parseMember _ member :=
    if member.offset = 8 then some (chainObject [chainSymbol [97] false, chainSymbol [98] true])
    else some (chainObject [chainSymbol [98] false])

private def chainResolver : Resolver :=
  { Resolver.empty with symbols := SymbolTable.new.forceUndefined [97] }

private theorem chain_complete : CompleteIndexes chainFiles [[1], [1]] := by
  intro path _ file read symbols index member inside obj parsed name defines
  cases read
  cases index
  rcases List.mem_cons.mp inside with rfl | inside
  · cases parsed
    simpa [memberDefines, chainObject, chainSymbol] using defines
  · rcases List.mem_singleton.mp inside with rfl
    cases parsed
    simpa [memberDefines, chainObject, chainSymbol] using defines

theorem chain_exact :
    ExactExtraction chainFiles [[1], [1]] chainResolver
        (extractionLog chainFiles [[1], [1]] chainResolver)
        (includeArchiveMembers chainFiles [[1], [1]] chainResolver) ∧
      sources ((pullsOf (extractionLog chainFiles [[1], [1]] chainResolver)).map
        Pull.member) = [([1], 8), ([1], 80)] :=
  ⟨includeArchiveMembers_exact chainFiles [[1], [1]] chain_complete chainResolver,
    by decide⟩

end Peony
