import Mathlib.Algebra.Group.Nat.Defs
import Mathlib.Data.List.Nodup
import Peony.Foundation.Chains

namespace Peony

/-! The reverse index of the relocations: for every symbol a list of the relocations that
refer to it, linked through one array of successors. -/

/-- The end of a list. -/
def noEntry : UInt32 := 0xFFFFFFFF

structure RelocReverseIndex where
  heads : List UInt32
  nexts : List UInt32
deriving DecidableEq

/-- The walk along one list. -/
structure RelocChainIter where
  nexts : List UInt32
  current : UInt32

namespace RelocChainIter

def next (iter : RelocChainIter) : Option (UInt32 × RelocChainIter) :=
  if iter.current = noEntry then none
  else
    some (iter.current,
      { iter with current := iter.nexts.getD iter.current.toNat noEntry })

/-- All that the walk visits, unless it takes more steps than the fuel. -/
def drain : Nat → RelocChainIter → Option (List UInt32)
  | 0, _ => none
  | fuel + 1, iter =>
      match iter.next with
      | none => some []
      | some (id, rest) => (drain fuel rest).map fun later => id :: later

/-- The end is never visited. -/
theorem noEntry_not_mem_drain {fuel : Nat} {iter : RelocChainIter} {listed : List UInt32}
    (drained : iter.drain fuel = some listed) : noEntry ∉ listed := by
  induction fuel generalizing iter listed with
  | zero => exact nomatch drained
  | succ fuel induction =>
      rw [drain, next] at drained
      by_cases isEnd : iter.current = noEntry
      · rw [if_pos isEnd] at drained
        cases drained
        exact List.not_mem_nil
      · rw [if_neg isEnd] at drained
        rcases Option.map_eq_some_iff.mp drained with ⟨later, isLater, rfl⟩
        rw [List.mem_cons, not_or]
        exact ⟨Ne.symm isEnd, induction isLater⟩

end RelocChainIter

namespace RelocReverseIndex

def new (symbolCount relocCount : Nat) : RelocReverseIndex where
  heads := List.replicate symbolCount noEntry
  nexts := List.replicate relocCount noEntry

/-- Put a relocation in front of the list of a symbol. -/
def insert (index : RelocReverseIndex) (symbolId relocId : UInt32) : RelocReverseIndex :=
  if index.heads.length ≤ symbolId.toNat ∨ index.nexts.length ≤ relocId.toNat then index
  else
    { heads := index.heads.set symbolId.toNat relocId
      nexts := index.nexts.set relocId.toNat (index.heads.getD symbolId.toNat noEntry) }

def iterRelocs (index : RelocReverseIndex) (symbolId : UInt32) : RelocChainIter where
  nexts := index.nexts
  current := index.heads.getD symbolId.toNat noEntry

/-- The insertions of pairs of a symbol and a relocation, one after the other. -/
def insertEach (index : RelocReverseIndex) (insertions : List (UInt32 × UInt32)) :
    RelocReverseIndex :=
  insertions.foldl (fun index entry => index.insert entry.1 entry.2) index

/-! ## What an index lists -/

/-- The walk along the list of a symbol ends, and has visited each of these relocations
once and no other one. -/
def Enumerates (index : RelocReverseIndex) (symbolId : UInt32) (inserted : UInt32 → Prop) :
    Prop :=
  ∃ listed, (∀ fuel, listed.length < fuel →
      (index.iterRelocs symbolId).drain fuel = some listed) ∧
    listed.Nodup ∧ ∀ id, id ∈ listed ↔ inserted id

def inRange (symbolCount relocCount : Nat) (entry : UInt32 × UInt32) : Bool :=
  entry.1.toNat < symbolCount && entry.2.toNat < relocCount

theorem inRange_iff {symbolCount relocCount : Nat} {entry : UInt32 × UInt32} :
    inRange symbolCount relocCount entry = true ↔
      entry.1.toNat < symbolCount ∧ entry.2.toNat < relocCount := by
  rw [inRange, Bool.and_eq_true, decide_eq_true_iff, decide_eq_true_iff]

def landed (symbolCount relocCount : Nat) (insertions : List (UInt32 × UInt32)) :
    List (UInt32 × UInt32) :=
  insertions.filter (inRange symbolCount relocCount)

/-! ## Insertions -/

section

variable {index : RelocReverseIndex} {symbolId relocId : UInt32}
variable {symbolCount relocCount : Nat} {insertions : List (UInt32 × UInt32)}

theorem insert_outOfRange (outside : index.heads.length ≤ symbolId.toNat ∨
    index.nexts.length ≤ relocId.toNat) : index.insert symbolId relocId = index :=
  if_pos outside

structure HasLengths (index : RelocReverseIndex) (symbolCount relocCount : Nat) : Prop where
  heads : index.heads.length = symbolCount
  nexts : index.nexts.length = relocCount

theorem hasLengths_new (symbolCount relocCount : Nat) :
    (new symbolCount relocCount).HasLengths symbolCount relocCount :=
  ⟨List.length_replicate, List.length_replicate⟩

theorem HasLengths.insert (lengths : index.HasLengths symbolCount relocCount) :
    (index.insert symbolId relocId).HasLengths symbolCount relocCount := by
  rw [RelocReverseIndex.insert]
  split
  · exact lengths
  · exact ⟨(List.length_set ..).trans lengths.heads, (List.length_set ..).trans lengths.nexts⟩

/-- What is out of range can be left out. -/
theorem insertEach_landed (lengths : index.HasLengths symbolCount relocCount)
    (insertions : List (UInt32 × UInt32)) :
    index.insertEach insertions =
      index.insertEach (landed symbolCount relocCount insertions) := by
  induction insertions generalizing index with
  | nil => rfl
  | cons entry rest induction =>
      have kept : (index.insert entry.1 entry.2).HasLengths symbolCount relocCount :=
        lengths.insert
      have later := induction kept
      rw [landed, List.filter_cons]
      split
      · exact later
      · rename_i outside
        rw [inRange_iff, not_and_or, Nat.not_lt, Nat.not_lt, ← lengths.heads,
          ← lengths.nexts] at outside
        rw [insert_outOfRange outside] at later
        rw [insertEach, List.foldl_cons, insert_outOfRange outside]
        exact later

/-! ## The lists in one table -/

/-- The place of a relocation in a table of chains, whose end is 0. -/
def chainSlot (id : UInt32) : Nat := if id = noEntry then 0 else id.toNat + 1

theorem chainSlot_of_ne {id : UInt32} (real : id ≠ noEntry) : chainSlot id = id.toNat + 1 :=
  if_neg real

def chains (index : RelocReverseIndex) : Chains.Table where
  heads := index.heads.map chainSlot
  links := 0 :: index.nexts.map chainSlot

def chainEntry (entry : UInt32 × UInt32) : Nat × Nat := (entry.1.toNat, entry.2.toNat + 1)

theorem chains_new (symbolCount relocCount : Nat) :
    (new symbolCount relocCount).chains = .empty symbolCount (relocCount + 1) := by
  rw [chains, new, List.map_replicate, List.map_replicate]
  rfl

theorem getD_map_chainSlot (ids : List UInt32) (place : Nat) :
    (ids.map chainSlot).getD place 0 = chainSlot (ids.getD place noEntry) := by
  rw [List.getD_eq_getElem?_getD, List.getD_eq_getElem?_getD, List.getElem?_map]
  cases ids[place]? with
  | none => rfl
  | some id => rfl

theorem chains_insert (inside : inRange index.heads.length index.nexts.length
    (symbolId, relocId) = true) (real : relocId ≠ noEntry) :
    (index.insert symbolId relocId).chains =
      index.chains.insert (chainEntry (symbolId, relocId)) := by
  rcases inRange_iff.mp inside with ⟨isSymbol, isReloc⟩
  have notOutside : ¬ (index.heads.length ≤ symbolId.toNat ∨
      index.nexts.length ≤ relocId.toNat) := by
    rw [not_or, Nat.not_le, Nat.not_le]
    exact ⟨isSymbol, isReloc⟩
  rw [insert, if_neg notOutside, chains, chains, Chains.Table.insert, chainEntry,
    List.map_set, List.map_set, chainSlot_of_ne real, getD_map_chainSlot, List.set_cons_succ]

theorem chains_insertEach (lengths : index.HasLengths symbolCount relocCount)
    (inside : ∀ entry ∈ insertions, inRange symbolCount relocCount entry = true)
    (real : ∀ entry ∈ insertions, entry.2 ≠ noEntry) :
    (index.insertEach insertions).chains =
      (insertions.map chainEntry).foldl Chains.Table.insert index.chains := by
  induction insertions generalizing index with
  | nil => rfl
  | cons entry rest induction =>
      have first : inRange index.heads.length index.nexts.length entry = true := by
        rw [lengths.heads, lengths.nexts]
        exact inside entry List.mem_cons_self
      rw [List.map_cons, List.foldl_cons, ← chains_insert first (real entry List.mem_cons_self)]
      exact induction lengths.insert
        (fun other present => inside other (List.mem_cons_of_mem _ present))
        (fun other present => real other (List.mem_cons_of_mem _ present))

/-! ## The walk -/

/-- A walk visits the indices of its path. -/
theorem drain_of_path {nexts ids : List UInt32} {current : UInt32}
    (path : Chains.Path (fun place => (0 :: nexts.map chainSlot)[place]?) (chainSlot current)
      (ids.map fun id => id.toNat + 1)) {fuel : Nat} (enough : ids.length < fuel) :
    RelocChainIter.drain fuel ⟨nexts, current⟩ = some ids := by
  induction ids generalizing current fuel with
  | nil =>
      cases fuel with
      | zero => exact absurd enough (Nat.not_lt_zero _)
      | succ fuel =>
          have isEnd : current = noEntry := by
            by_contra real
            rw [chainSlot_of_ne real] at path
            exact nomatch path
          rw [RelocChainIter.drain, RelocChainIter.next, if_pos isEnd]
  | cons id rest induction =>
      cases fuel with
      | zero => exact absurd enough (Nat.not_lt_zero _)
      | succ fuel =>
          generalize isSlot : chainSlot current = slot at path
          generalize isIds : (id :: rest).map (fun id => id.toNat + 1) = places at path
          cases path with
          | ending => exact nomatch isIds
          | @step _ following _ positive link later =>
              rw [List.map_cons, List.cons.injEq] at isIds
              rcases isIds with ⟨isPlace, isRest⟩
              have real : current ≠ noEntry := fun isEnd =>
                positive (isSlot.symm.trans (if_pos isEnd))
              have isId : current = id := by
                rw [chainSlot_of_ne real, ← isPlace] at isSlot
                exact UInt32.toNat_inj.mp (Nat.succ.inj isSlot)
              rw [← isPlace, List.getElem?_cons_succ, List.getElem?_map] at link
              rcases Option.map_eq_some_iff.mp link with ⟨after, isAfter, rfl⟩
              have moved : nexts.getD current.toNat noEntry = after := by
                rw [List.getD_eq_getElem?_getD, isId, isAfter, Option.getD_some]
              subst isRest
              rw [RelocChainIter.drain, RelocChainIter.next, if_neg real]
              dsimp only
              rw [moved, induction later (Nat.lt_of_succ_lt_succ enough), isId, Option.map_some]

def relocsOf (insertions : List (UInt32 × UInt32)) (symbolId : UInt32) : List UInt32 :=
  ((insertions.filter fun entry => entry.1 == symbolId).map Prod.snd).reverse

theorem members_chainEntry (insertions : List (UInt32 × UInt32)) (symbolId : UInt32) :
    Chains.Table.members (insertions.map chainEntry) symbolId.toNat =
      (relocsOf insertions symbolId).map fun id => id.toNat + 1 := by
  have same : (fun entry => entry.1 == symbolId.toNat) ∘ chainEntry =
      fun entry : UInt32 × UInt32 => entry.1 == symbolId := by
    funext entry
    rw [Function.comp_apply, chainEntry, Bool.eq_iff_iff, beq_iff_eq, beq_iff_eq,
      UInt32.toNat_inj]
  rw [Chains.Table.members, relocsOf, List.filter_map, same, List.map_map, List.map_reverse,
    List.map_map]
  rfl

theorem mem_relocsOf {symbolId id : UInt32} :
    id ∈ relocsOf insertions symbolId ↔ (symbolId, id) ∈ insertions := by
  rw [relocsOf, List.mem_reverse, List.mem_map]
  constructor
  · rintro ⟨⟨own, found⟩, present, rfl⟩
    rcases List.mem_filter.mp present with ⟨among, isSymbol⟩
    rw [← beq_iff_eq.mp isSymbol]
    exact among
  · intro present
    exact ⟨_, List.mem_filter.mpr ⟨present, beq_self_eq_true symbolId⟩, rfl⟩

theorem nodup_relocsOf (distinct : (insertions.map Prod.snd).Nodup) (symbolId : UInt32) :
    (relocsOf insertions symbolId).Nodup := by
  rw [relocsOf, List.nodup_reverse]
  exact distinct.sublist (List.filter_sublist.map Prod.snd)

theorem drain_insertEach
    (distinct : ((landed symbolCount relocCount insertions).map Prod.snd).Nodup)
    (real : ∀ entry ∈ landed symbolCount relocCount insertions, entry.2 ≠ noEntry)
    (symbolId : UInt32) {fuel : Nat}
    (enough : (relocsOf (landed symbolCount relocCount insertions) symbolId).length < fuel) :
    (((new symbolCount relocCount).insertEach insertions).iterRelocs symbolId).drain fuel =
      some (relocsOf (landed symbolCount relocCount insertions) symbolId) := by
  have lengths := hasLengths_new symbolCount relocCount
  rw [insertEach_landed lengths]
  generalize isLanded : landed symbolCount relocCount insertions = entries
    at distinct real enough ⊢
  have inside : ∀ entry ∈ entries, inRange symbolCount relocCount entry = true := by
    intro entry present
    rw [← isLanded] at present
    exact (List.mem_filter.mp present).2
  have built := chains_insertEach lengths inside real
  rw [chains_new] at built
  have holds : (((new symbolCount relocCount).insertEach entries).chains).Holds symbolCount
      (relocCount + 1) (entries.map chainEntry) := by
    rw [built]
    refine Chains.Table.holds_foldl ?_ ?_
    · intro entry present
      rcases List.mem_map.mp present with ⟨own, isOwn, rfl⟩
      rcases inRange_iff.mp (inside own isOwn) with ⟨isSymbol, isReloc⟩
      exact ⟨isSymbol, Nat.succ_ne_zero _, Nat.succ_lt_succ isReloc⟩
    · have shifted : (entries.map chainEntry).map Prod.snd =
          (entries.map Prod.snd).map fun id => id.toNat + 1 := by
        rw [List.map_map, List.map_map]
        rfl
      rw [shifted]
      refine distinct.map fun first second same => ?_
      exact UInt32.toNat_inj.mp (Nat.succ.inj same)
  refine drain_of_path ?_ enough
  rw [← members_chainEntry]
  by_cases isSymbol : symbolId.toNat < symbolCount
  · have path := holds.paths symbolId.toNat isSymbol
    rw [chains, getD_map_chainSlot] at path
    exact path
  · have nothing : relocsOf entries symbolId = [] := by
      rw [List.eq_nil_iff_forall_not_mem]
      intro id present
      exact isSymbol (inRange_iff.mp (inside _ (mem_relocsOf.mp present))).1
    have beyond : ((new symbolCount relocCount).insertEach entries).heads.length ≤
        symbolId.toNat := by
      have own := holds.heads
      rw [chains, List.length_map] at own
      exact Nat.le_trans (Nat.le_of_eq own) (Nat.not_lt.mp isSymbol)
    have isEnd : ((new symbolCount relocCount).insertEach entries).heads.getD symbolId.toNat
        noEntry = noEntry := by
      rw [List.getD_eq_getElem?_getD, List.getElem?_eq_none beyond, Option.getD_none]
    rw [members_chainEntry, nothing, isEnd]
    exact .ending

/-! ## Exactness -/

/-- The end of a list is listed nowhere. -/
theorem Enumerates.not_noEntry {inserted : UInt32 → Prop}
    (isExact : index.Enumerates symbolId inserted) : ¬ inserted noEntry := by
  rcases isExact with ⟨listed, drained, _, same⟩
  intro isInserted
  exact RelocChainIter.noEntry_not_mem_drain (drained _ (Nat.lt_succ_self _))
    ((same noEntry).mpr isInserted)

/-- For every symbol, whether it has relocations or not, or is out of range, the walk along
its list ends and visits the relocations that were inserted under it, each once. -/
def IsExact (symbolCount relocCount : Nat) (insertions : List (UInt32 × UInt32)) : Prop :=
  ∀ symbolId, ((new symbolCount relocCount).insertEach insertions).Enumerates symbolId
    fun id => (symbolId, id) ∈ landed symbolCount relocCount insertions

theorem isExact_of_real
    (distinct : ((landed symbolCount relocCount insertions).map Prod.snd).Nodup)
    (real : ∀ entry ∈ landed symbolCount relocCount insertions, entry.2 ≠ noEntry) :
    IsExact symbolCount relocCount insertions := by
  intro symbolId
  refine ⟨_, fun fuel enough => drain_insertEach distinct real symbolId enough,
    nodup_relocsOf distinct symbolId, fun id => mem_relocsOf⟩

/-- Relocations that are inserted once each are listed exactly, and insertions out of range
change nothing, if and only if no relocation in range has the number that ends a list. -/
theorem insertEach_exact_iff
    (distinct : ((landed symbolCount relocCount insertions).map Prod.snd).Nodup) :
    (IsExact symbolCount relocCount insertions ∧
      ∀ (index : RelocReverseIndex) (symbolId relocId : UInt32),
        index.heads.length ≤ symbolId.toNat ∨ index.nexts.length ≤ relocId.toNat →
          index.insert symbolId relocId = index) ↔
      ∀ entry ∈ insertions, inRange symbolCount relocCount entry = true →
        entry.2 ≠ noEntry := by
  constructor
  · rintro ⟨isExact, -⟩ ⟨symbolId, id⟩ present inside rfl
    exact (isExact symbolId).not_noEntry (List.mem_filter.mpr ⟨present, inside⟩)
  · intro real
    have landedReal : ∀ entry ∈ landed symbolCount relocCount insertions,
        entry.2 ≠ noEntry := by
      intro entry present
      rcases List.mem_filter.mp present with ⟨among, inside⟩
      exact real entry among inside
    exact ⟨isExact_of_real distinct landedReal, fun index symbolId relocId outside =>
      insert_outOfRange outside⟩

end

/-- Three relocations of two symbols, and an insertion for a symbol that does not exist. -/
theorem insertEach_exact_iff_three :
    (IsExact 2 3 [(0, 2), (1, 0), (5, 1), (0, 1)] ∧
      ∀ (index : RelocReverseIndex) (symbolId relocId : UInt32),
        index.heads.length ≤ symbolId.toNat ∨ index.nexts.length ≤ relocId.toNat →
          index.insert symbolId relocId = index) :=
  (insertEach_exact_iff (by decide)).mpr (by simp [noEntry])

/-- With 2^32 relocations the last one is lost. -/
theorem not_isExact_last :
    inRange 1 (2 ^ 32) (0, 0xFFFFFFFF) = true ∧
      ((landed 1 (2 ^ 32) [(0, 0xFFFFFFFF)]).map Prod.snd).Nodup ∧
      ¬ IsExact 1 (2 ^ 32) [(0, 0xFFFFFFFF)] := by
  have inside : inRange 1 (2 ^ 32) (0, 0xFFFFFFFF) = true := by decide
  have isLanded : landed 1 (2 ^ 32) [(0, 0xFFFFFFFF)] = [(0, 0xFFFFFFFF)] := by
    rw [landed, List.filter_cons, if_pos inside, List.filter_nil]
  refine ⟨inside, ?_, fun isExact => ?_⟩
  · rw [isLanded]
    exact List.nodup_singleton _
  · refine (isExact 0).not_noEntry ?_
    rw [isLanded]
    exact List.mem_cons_self

end RelocReverseIndex

end Peony
