import Peony.Load.Resolver

namespace Peony

/-! Lazy inclusion: a member is resolved only when it defines a name that is
strongly undefined at that moment, and members are tried again until none is. -/

/-! ## Members -/

/-- A lazy member. Its object is taken when it is pulled. The source is not in
the code: it names the archive member a statement is about. -/
structure Member where
  obj : Option InputObject
  defines : List Name
  source : Option (Path × UInt64)

def currentGlobalUndefined (symbols : SymbolTable) : Finset Name :=
  (symbols.resolutions.keys.filter symbols.stronglyUndefined).toFinset

def memberDefines (obj : InputObject) : List Name :=
  (obj.symbols.filter fun sym =>
    !sym.isUndefined && sym.binding != Binding.local &&
      !sym.name.isEmpty).map InputSymbol.name

def touched (member : Member) (obj : InputObject) : List Name :=
  member.defines ++
    (obj.symbols.filter fun sym =>
      sym.isUndefined && !sym.name.isEmpty).map InputSymbol.name

def reconcileName (symbols : SymbolTable) (undefined : Finset Name)
    (name : Name) : Finset Name :=
  if symbols.stronglyUndefined name then insert name undefined
  else undefined.erase name

def reconcile (symbols : SymbolTable) (names : List Name)
    (undefined : Finset Name) : Finset Name :=
  names.foldl (reconcileName symbols) undefined

structure LazyState where
  members : List Member
  resolver : Resolver
  undefined : Finset Name

def Member.wanted (member : Member) (undefined : Finset Name) : Bool :=
  member.defines.any fun name => decide (name ∈ undefined)

def pullLazyMembers : List Member → Resolver → Finset Name →
    Except LoadError (LazyState × Nat)
  | [], resolver, undefined => .ok (⟨[], resolver, undefined⟩, 0)
  | member :: rest, resolver, undefined =>
      match member.obj with
      | none => do
          let (state, pulled) ← pullLazyMembers rest resolver undefined
          return ({ state with members := member :: state.members }, pulled)
      | some obj =>
          if !member.wanted undefined then do
            let (state, pulled) ← pullLazyMembers rest resolver undefined
            return ({ state with members := member :: state.members }, pulled)
          else do
            let next ← resolver.resolve obj
            let (state, pulled) ← pullLazyMembers rest next
              (reconcile next.symbols (touched member obj) undefined)
            return ({ state with
              members := { member with obj := none } :: state.members },
              pulled + 1)

/-- Passes until the undefined set is empty or a pass pulls nothing. Every pass
but the last pulls a member, so the number of members is enough fuel. -/
def startLibLoop : Nat → LazyState → Except LoadError LazyState
  | 0, state => .ok state
  | fuel + 1, state =>
      if state.undefined = ∅ then .ok state
      else do
        let (next, pulled) ←
          pullLazyMembers state.members state.resolver state.undefined
        if pulled = 0 then return next
        else startLibLoop fuel next

def includeStartLibMembers (objects : List InputObject)
    (resolver : Resolver) : Except LoadError LazyState :=
  let members := objects.map fun obj => ⟨some obj, memberDefines obj, none⟩
  startLibLoop (members.length + 1)
    ⟨members, resolver, currentGlobalUndefined resolver.symbols⟩

/-! ## The undefined set mirrors the table -/

/-- The undefined set holds exactly the strongly undefined names. -/
def Mirrors (undefined : Finset Name) (resolver : Resolver) : Prop :=
  ∀ name, name ∈ undefined ↔ resolver.symbols.stronglyUndefined name = true

theorem mirrors_currentGlobalUndefined (resolver : Resolver) :
    Mirrors (currentGlobalUndefined resolver.symbols) resolver := by
  intro name
  simp only [currentGlobalUndefined, List.mem_toFinset, List.mem_filter,
    and_iff_right_iff_imp]
  intro strong
  rw [← AList.mem_keys, ← AList.lookup_isSome, ← SymbolTable.lookup]
  unfold SymbolTable.stronglyUndefined at strong
  cases found : resolver.symbols.lookup name with
  | none => simp [found] at strong
  | some _ => rfl

theorem mem_reconcile (symbols : SymbolTable) (names : List Name)
    (undefined : Finset Name) (name : Name) :
    name ∈ reconcile symbols names undefined ↔
      if name ∈ names then symbols.stronglyUndefined name = true
      else name ∈ undefined := by
  induction names generalizing undefined with
  | nil => simp [reconcile]
  | cons head rest induction =>
      have step : reconcile symbols (head :: rest) undefined =
          reconcile symbols rest (reconcileName symbols undefined head) := rfl
      rw [step, induction]
      by_cases inRest : name ∈ rest
      · simp [inRest]
      · by_cases equal : name = head
        · subst equal
          cases strong : symbols.stronglyUndefined name <;>
            simp [inRest, reconcileName, strong]
        · cases strong : symbols.stronglyUndefined head <;>
            simp [inRest, equal, reconcileName, strong]

theorem Mirrors.pull {undefined : Finset Name} {resolver next : Resolver}
    {member : Member} {obj : InputObject}
    (mirrors : Mirrors undefined resolver)
    (defines : member.defines = memberDefines obj)
    (resolved : resolver.resolve obj = .ok next) :
    Mirrors (reconcile next.symbols (touched member obj) undefined) next := by
  intro name
  rw [mem_reconcile]
  split
  · rfl
  · next untouched =>
      have kept : next.symbols.lookup name = resolver.symbols.lookup name := by
        refine Resolver.lookup_resolve_of_unmerged resolved ?_
        rintro sym isSym notLocal named rfl
        refine untouched ?_
        rw [touched, defines, List.mem_append]
        cases reference : sym.isUndefined with
        | true =>
            exact Or.inr (List.mem_map.mpr ⟨sym,
              List.mem_filter.mpr ⟨isSym, by simp [reference, named]⟩, rfl⟩)
        | false =>
            exact Or.inl (List.mem_map.mpr ⟨sym,
              List.mem_filter.mpr ⟨isSym, by simp [reference, named, notLocal]⟩, rfl⟩)
      rw [mirrors name, SymbolTable.stronglyUndefined, SymbolTable.stronglyUndefined, kept]

/-! ## One pass -/

/-- Members that have not been pulled yet. -/
def waiting (members : List Member) : Nat :=
  members.countP fun member => member.obj.isSome

/-- What holds of a lazy phase between two pulls, beside what resolving keeps. -/
structure LazyState.Consistent (sound : Resolver → Prop) (state : LazyState) :
    Prop where
  sound : sound state.resolver
  mirrors : Mirrors state.undefined state.resolver
  defines : ∀ member ∈ state.members, ∀ obj, member.obj = some obj →
    member.defines = memberDefines obj

def offers (members : List Member) : List InputObject :=
  members.filterMap Member.obj

namespace Resolver

inductive Pulls : Resolver → List InputObject → Resolver → Prop
  | none (resolver : Resolver) : Pulls resolver [] resolver
  | pull {resolver next final : Resolver} {obj : InputObject} {rest : List InputObject}
      {name : Name} (defines : name ∈ memberDefines obj)
      (needed : resolver.symbols.stronglyUndefined name = true)
      (resolved : resolver.resolve obj = .ok next)
      (later : Pulls next rest final) : Pulls resolver (obj :: rest) final

namespace Pulls

variable {first second third : Resolver} {front back : List InputObject}

theorem trans (left : Pulls first front second) (right : Pulls second back third) :
    Pulls first (front ++ back) third := by
  induction left with
  | none _ => exact right
  | pull defines needed resolved _ induction =>
      exact .pull defines needed resolved (induction right)

theorem objects (pulls : Pulls first front second) :
    second.objects = first.objects ++ front := by
  induction pulls with
  | none resolver => exact (List.append_nil _).symm
  | pull _ _ resolved _ induction =>
      rw [induction, objects_resolve resolved, List.append_assoc]
      rfl

end Pulls

end Resolver

/-- The member a pass leaves in the place of another: the same one, or the same
one with its object taken. -/
structure Member.Follows (before after : Member) : Prop where
  source : after.source = before.source
  defines : after.defines = before.defines
  obj : after.obj = before.obj ∨ after.obj = none

theorem Member.Follows.refl (member : Member) : member.Follows member :=
  ⟨rfl, rfl, .inl rfl⟩

theorem Member.Follows.trans {first second third : Member}
    (left : first.Follows second) (right : second.Follows third) :
    first.Follows third where
  source := right.source.trans left.source
  defines := right.defines.trans left.defines
  obj := by
    rcases right.obj with same | taken
    · rw [same]
      exact left.obj
    · exact .inr taken

structure Pass (sound : Resolver → Prop) (before after : LazyState)
    (count : Nat) : Prop where
  consistent : after.Consistent sound
  follows : List.Forall₂ Member.Follows before.members after.members
  waiting : Peony.waiting after.members + count = Peony.waiting before.members
  pulls : ∃ pulled, before.resolver.Pulls pulled after.resolver ∧
    (pulled ++ offers after.members).Perm (offers before.members)
  idle : count = 0 → after = before ∧
    ∀ member ∈ before.members, member.obj.isSome →
      member.wanted before.undefined = false

section Pass

variable {sound : Resolver → Prop} {member : Member} {rest : List Member}
variable {resolver : Resolver} {undefined : Finset Name}

theorem Pass.skip {after : LazyState} {count : Nat}
    (defines : ∀ obj, member.obj = some obj →
      member.defines = memberDefines obj)
    (unwanted : member.obj.isSome → member.wanted undefined = false)
    (pass : Pass sound ⟨rest, resolver, undefined⟩ after count) :
    Pass sound ⟨member :: rest, resolver, undefined⟩
      { after with members := member :: after.members } count where
  consistent := by
    refine ⟨pass.consistent.sound, pass.consistent.mirrors, ?_⟩
    intro other inside obj held
    rcases List.mem_cons.mp inside with rfl | inside
    · exact defines obj held
    · exact pass.consistent.defines other inside obj held
  follows := .cons (Member.Follows.refl member) pass.follows
  waiting := by
    have counted := pass.waiting
    simp only [Peony.waiting, List.countP_cons] at *
    omega
  pulls := by
    rcases pass.pulls with ⟨pulled, pulls, all⟩
    refine ⟨pulled, pulls, ?_⟩
    cases held : member.obj with
    | none => simpa only [offers, List.filterMap_cons, held] using all
    | some obj =>
        simp only [offers, List.filterMap_cons, held]
        exact List.perm_middle.trans (all.cons obj)
  idle := by
    intro none
    obtain ⟨same, unwantedRest⟩ := pass.idle none
    refine ⟨by rw [same], fun other inside held => ?_⟩
    rcases List.mem_cons.mp inside with rfl | inside
    · exact unwanted held
    · exact unwantedRest other inside held

theorem Pass.pull {after : LazyState} {count : Nat} {obj : InputObject}
    {next : Resolver} {name : Name} (held : member.obj = some obj)
    (defines : name ∈ memberDefines obj)
    (needed : resolver.symbols.stronglyUndefined name = true)
    (resolved : resolver.resolve obj = .ok next)
    (pass : Pass sound ⟨rest, next,
      reconcile next.symbols (touched member obj) undefined⟩ after count) :
    Pass sound ⟨member :: rest, resolver, undefined⟩
      { after with members := { member with obj := none } :: after.members }
      (count + 1) where
  consistent := by
    refine ⟨pass.consistent.sound, pass.consistent.mirrors, ?_⟩
    intro other inside obj' other'
    rcases List.mem_cons.mp inside with rfl | inside
    · cases other'
    · exact pass.consistent.defines other inside obj' other'
  follows := .cons ⟨rfl, rfl, .inr rfl⟩ pass.follows
  waiting := by
    have counted := pass.waiting
    simp only [Peony.waiting, List.countP_cons, held, Option.isSome_some,
      Option.isSome_none, if_true, Bool.false_eq_true, if_false] at *
    omega
  pulls := by
    rcases pass.pulls with ⟨pulled, pulls, all⟩
    refine ⟨obj :: pulled, .pull defines needed resolved pulls, ?_⟩
    simp only [offers, List.filterMap_cons, held]
    exact all.cons obj
  idle := by omega

theorem pullLazyMembers_pass {members : List Member} {after : LazyState}
    {count : Nat} (stable : Resolver.Stable sound)
    (consistent : LazyState.Consistent sound ⟨members, resolver, undefined⟩)
    (pulled : pullLazyMembers members resolver undefined =
      .ok (after, count)) :
    Pass sound ⟨members, resolver, undefined⟩ after count := by
  induction members generalizing resolver undefined after count with
  | nil =>
      cases pulled
      exact ⟨consistent, .nil, rfl, ⟨[], .none resolver, .refl _⟩, fun _ => ⟨rfl, by simp⟩⟩
  | cons member rest induction =>
      have restConsistent : LazyState.Consistent sound
          ⟨rest, resolver, undefined⟩ :=
        ⟨consistent.sound, consistent.mirrors, fun other inside =>
          consistent.defines other (List.mem_cons_of_mem _ inside)⟩
      have defines := consistent.defines member (List.mem_cons_self ..)
      unfold pullLazyMembers at pulled
      cases held : member.obj with
      | none =>
          simp only [held] at pulled
          cases restPulled : pullLazyMembers rest resolver undefined with
          | error error => simp [restPulled, bind, Except.bind] at pulled
          | ok result =>
              rw [restPulled] at pulled
              cases pulled
              exact Pass.skip (by simp [held]) (by simp [held])
                (induction restConsistent restPulled)
      | some obj =>
          simp only [held] at pulled
          cases wanted : member.wanted undefined with
          | false =>
              simp only [wanted, Bool.not_false, if_true] at pulled
              cases restPulled : pullLazyMembers rest resolver undefined with
              | error error => simp [restPulled, bind, Except.bind] at pulled
              | ok result =>
                  rw [restPulled] at pulled
                  cases pulled
                  exact Pass.skip defines (fun _ => wanted)
                    (induction restConsistent restPulled)
          | true =>
              simp only [wanted, Bool.not_true, Bool.false_eq_true, if_false]
                at pulled
              cases resolved : resolver.resolve obj with
              | error error => simp [resolved, bind, Except.bind] at pulled
              | ok next =>
                  simp only [resolved, bind, Except.bind] at pulled
                  have nextConsistent : LazyState.Consistent sound
                      ⟨rest, next, reconcile next.symbols
                        (touched member obj) undefined⟩ :=
                    ⟨stable consistent.sound resolved,
                      consistent.mirrors.pull (defines obj held) resolved,
                      restConsistent.defines⟩
                  cases restPulled : pullLazyMembers rest next
                      (reconcile next.symbols (touched member obj)
                        undefined) with
                  | error error => simp [restPulled] at pulled
                  | ok result =>
                      rw [restPulled] at pulled
                      cases pulled
                      rw [Member.wanted, List.any_eq_true] at wanted
                      rcases wanted with ⟨name, isDefined, isNeeded⟩
                      exact Pass.pull held (defines obj held ▸ isDefined)
                        ((consistent.mirrors name).mp (of_decide_eq_true isNeeded))
                        resolved (induction nextConsistent restPulled)

end Pass

/-! ## Whole phases -/

/-- No member that is still there is wanted. -/
def LazyState.Settled (state : LazyState) : Prop :=
  ∀ member ∈ state.members, member.obj.isSome →
    member.wanted state.undefined = false

theorem LazyState.settled_of_empty {state : LazyState}
    (none : state.undefined = ∅) : state.Settled := by
  intro member _ _
  simp [Member.wanted, none]

structure Phase (sound : Resolver → Prop) (before after : LazyState) : Prop where
  consistent : after.Consistent sound
  follows : List.Forall₂ Member.Follows before.members after.members
  pulls : ∃ pulled, before.resolver.Pulls pulled after.resolver ∧
    (pulled ++ offers after.members).Perm (offers before.members)

theorem Phase.refl {sound : Resolver → Prop} {state : LazyState}
    (consistent : state.Consistent sound) : Phase sound state state where
  consistent := consistent
  follows := List.forall₂_same.mpr fun member _ => Member.Follows.refl member
  pulls := ⟨[], .none _, .refl _⟩

theorem follows_trans {first second third : List Member}
    (left : List.Forall₂ Member.Follows first second)
    (right : List.Forall₂ Member.Follows second third) :
    List.Forall₂ Member.Follows first third := by
  induction left generalizing third with
  | nil =>
      cases right
      exact .nil
  | cons head _ induction =>
      cases right with
      | cons head' tail' => exact .cons (head.trans head') (induction tail')

theorem startLibLoop_phase {sound : Resolver → Prop} {fuel : Nat}
    {before after : LazyState} (stable : Resolver.Stable sound)
    (consistent : before.Consistent sound)
    (enough : waiting before.members < fuel)
    (ran : startLibLoop fuel before = .ok after) :
    Phase sound before after ∧ after.Settled := by
  induction fuel generalizing before with
  | zero => omega
  | succ fuel induction =>
      unfold startLibLoop at ran
      by_cases none : before.undefined = ∅
      · simp only [none, if_true] at ran
        cases ran
        exact ⟨Phase.refl consistent, LazyState.settled_of_empty none⟩
      · simp only [none, if_false] at ran
        cases pulled : pullLazyMembers before.members before.resolver
            before.undefined with
        | error error => simp [pulled, bind, Except.bind] at ran
        | ok result =>
            obtain ⟨next, count⟩ := result
            have pass := pullLazyMembers_pass stable consistent pulled
            simp only [pulled, bind, Except.bind] at ran
            by_cases idle : count = 0
            · simp only [idle, if_true] at ran
              cases ran
              obtain ⟨same, unwanted⟩ := pass.idle idle
              exact ⟨⟨pass.consistent, pass.follows, pass.pulls⟩,
                same ▸ unwanted⟩
            · simp only [idle, if_false] at ran
              have counted : waiting next.members + count =
                  waiting before.members := pass.waiting
              obtain ⟨phase, settled⟩ :=
                induction pass.consistent (by omega) ran
              rcases pass.pulls with ⟨pulled, pulls, all⟩
              rcases phase.pulls with ⟨later, laterPulls, laterAll⟩
              refine ⟨⟨phase.consistent, follows_trans pass.follows phase.follows,
                pulled ++ later, pulls.trans laterPulls, ?_⟩, settled⟩
              rw [List.append_assoc]
              exact (laterAll.append_left pulled).trans all

theorem includeStartLibMembers_settled {forced : List Name}
    {objects : List InputObject} {resolver : Resolver} {after : LazyState}
    (accounts : resolver.Accounts forced)
    (ran : includeStartLibMembers objects resolver = .ok after) :
    after.Consistent (Resolver.Accounts forced) ∧ after.Settled ∧
      ∃ pulled, resolver.Pulls pulled after.resolver ∧
        (pulled ++ offers after.members).Perm objects := by
  have start : LazyState.Consistent (Resolver.Accounts forced)
      ⟨objects.map fun obj => ⟨some obj, memberDefines obj, none⟩, resolver,
        currentGlobalUndefined resolver.symbols⟩ := by
    refine ⟨accounts, mirrors_currentGlobalUndefined resolver, ?_⟩
    intro member inside obj held
    obtain ⟨obj', -, rfl⟩ := List.mem_map.mp inside
    cases held
    rfl
  obtain ⟨phase, settled⟩ := startLibLoop_phase (Resolver.stable_accounts forced) start
    (Nat.lt_succ_of_le List.countP_le_length) ran
  have listed : offers (objects.map fun obj => ⟨some obj, memberDefines obj, none⟩) =
      objects := by
    rw [offers, List.filterMap_map]
    exact List.filterMap_some
  rcases phase.pulls with ⟨pulled, pulls, all⟩
  exact ⟨phase.consistent, settled, pulled, pulls, listed ▸ all⟩

end Peony
