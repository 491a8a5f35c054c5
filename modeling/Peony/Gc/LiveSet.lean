import Mathlib.Data.Finset.Card
import Peony.Gc.Live

namespace Peony

/-! The bits of the live sections stand for a set of sections, through every run of
insertions and removals. -/

/-! ## Runs -/

inductive LiveChange where
  | insert (key : SectionKey)
  | remove (key : SectionKey)
deriving DecidableEq, Repr

namespace LiveChange

/-- The bits after the change, and its answer. -/
def apply (live : LiveSections) : LiveChange → LiveSections × Bool
  | insert key => live.insert key
  | remove key => live.remove key

def applySet (inRange : SectionKey → Bool) (keys : Finset SectionKey) :
    LiveChange → Finset SectionKey × Bool
  | insert key =>
      if inRange key then (Insert.insert key keys, decide (key ∉ keys))
      else (keys, false)
  | remove key => (keys.erase key, decide (key ∈ keys))

def runWith {State : Type} (step : State → LiveChange → State × Bool)
    (state : State) : List LiveChange → State × List Bool
  | [] => (state, [])
  | change :: rest =>
      let next := step state change
      let last := runWith step next.1 rest
      (last.1, next.2 :: last.2)

end LiveChange

/-- An object has the first number, and the second one is below the end of the last
word that the indices of its sections need. -/
def LiveSections.inRange (objects : List InputObject) (key : SectionKey) : Bool :=
  objects[key.1]?.any fun obj =>
    decide (key.2 < ((obj.sections.map fun sec => sec.index).max?.getD 0 / 64 + 1) * 64)

namespace LiveSections

theorem covers_new_eq (objects : List InputObject) (key : SectionKey) :
    (new objects).covers key = inRange objects key := by
  unfold covers word new inRange
  rw [List.getElem?_map]
  cases isObject : objects[key.1]? with
  | none => rfl
  | some obj =>
      simp only [Option.map_some, Option.bind_eq_bind, Option.bind_some,
        Option.any_some]
      rw [newWords, List.getElem?_replicate, Bool.eq_iff_iff, Option.isSome_ite,
        decide_eq_true_iff]
      exact Nat.div_lt_iff_lt_mul (by decide)

/-! ## The set that the bits stand for -/

/-- The bits answer as a set whose keys are in range. -/
structure StandsFor (live : LiveSections) (inRange : SectionKey → Bool)
    (keys : Finset SectionKey) : Prop where
  covered : ∀ key, live.covers key = inRange key
  contained : ∀ key, live.contains key = decide (key ∈ keys)
  counted : live.len = keys.card

namespace StandsFor

variable {live : LiveSections} {inRange : SectionKey → Bool}
variable {keys : Finset SectionKey}

theorem new (objects : List InputObject) :
    (new objects).StandsFor (LiveSections.inRange objects) ∅ where
  covered := covers_new_eq objects
  contained key := by rw [contains_new, decide_eq_false (Finset.notMem_empty key)]
  counted := rfl

theorem isNew_eq (stands : live.StandsFor inRange keys) (key : SectionKey) :
    (live.insert key).2 = (inRange key && decide (key ∉ keys)) := by
  rw [insert_isNew, stands.covered, stands.contained, decide_not]

theorem isRemoved_eq (stands : live.StandsFor inRange keys) (key : SectionKey) :
    (live.remove key).2 = decide (key ∈ keys) := by
  rw [remove_isPresent, stands.contained]

theorem insert (stands : live.StandsFor inRange keys) (key : SectionKey) :
    (live.insert key).1.StandsFor inRange
      (if inRange key then Insert.insert key keys else keys) where
  covered other := by rw [covers_insert, stands.covered]
  contained other := by
    rw [contains_insert, stands.contained, stands.covered]
    by_cases isInRange : inRange key = true
    · simp [isInRange, Bool.or_comm]
    · simp [isInRange]
  counted := by
    rw [len_insert, stands.isNew_eq, stands.counted]
    by_cases isInRange : inRange key = true
    · by_cases present : key ∈ keys
      · simp [isInRange, present]
      · simp [isInRange, present, Finset.card_insert_of_notMem]
    · simp [isInRange]

theorem remove (stands : live.StandsFor inRange keys) (key : SectionKey) :
    (live.remove key).1.StandsFor inRange (keys.erase key) where
  covered other := by rw [covers_remove, stands.covered]
  contained other := by
    rw [contains_remove, stands.contained]
    simp [Bool.and_comm]
  counted := by
    rw [len_remove, stands.isRemoved_eq, stands.counted]
    by_cases present : key ∈ keys
    · simp [present, Finset.card_erase_of_mem]
    · simp [present]

theorem apply (stands : live.StandsFor inRange keys) (change : LiveChange) :
    (change.apply live).1.StandsFor inRange (change.applySet inRange keys).1 ∧
      (change.apply live).2 = (change.applySet inRange keys).2 := by
  cases change with
  | insert key =>
      have after := stands.insert key
      have answer := stands.isNew_eq key
      simp only [LiveChange.apply, LiveChange.applySet]
      cases isInRange : inRange key with
      | true =>
          rw [isInRange, if_pos rfl] at after
          rw [isInRange, Bool.true_and] at answer
          exact ⟨after, answer⟩
      | false =>
          rw [isInRange, if_neg Bool.false_ne_true] at after
          rw [isInRange, Bool.false_and] at answer
          exact ⟨after, answer⟩
  | remove key => exact ⟨stands.remove key, stands.isRemoved_eq key⟩

theorem run (stands : live.StandsFor inRange keys) (changes : List LiveChange) :
    let bits := LiveChange.runWith (fun live change => change.apply live) live changes
    let set := LiveChange.runWith (fun keys change => change.applySet inRange keys)
      keys changes
    bits.1.StandsFor inRange set.1 ∧ bits.2 = set.2 := by
  induction changes generalizing live keys with
  | nil => exact ⟨stands, rfl⟩
  | cons change rest induction =>
      rcases stands.apply change with ⟨next, answer⟩
      rcases induction next with ⟨last, answers⟩
      exact ⟨last, congrArg₂ List.cons answer answers⟩

theorem intoHashSet_eq (stands : live.StandsFor inRange keys) :
    live.intoHashSet = keys := by
  ext key
  rw [mem_intoHashSet, stands.contained, decide_eq_true_iff]

end StandsFor

/-- After every run the bits are the set of keys in range that the run makes: the
answers of the run are those of the set, and so are the next ones. -/
theorem answersAsSet (objects : List InputObject) (changes : List LiveChange) :
    let bits := LiveChange.runWith (fun live change => change.apply live)
      (LiveSections.new objects) changes
    let set := LiveChange.runWith
      (fun keys change => change.applySet (inRange objects) keys) ∅ changes
    bits.2 = set.2 ∧
      (∀ key, bits.1.contains key = decide (key ∈ set.1)) ∧
      (∀ key, (bits.1.insert key).2 = true ↔
        inRange objects key = true ∧ key ∉ set.1) ∧
      bits.1.len = set.1.card ∧ bits.1.intoHashSet = set.1 := by
  have ran := (StandsFor.new objects).run changes
  refine ⟨ran.2, ran.1.contained, fun key => ?_, ran.1.counted,
    ran.1.intoHashSet_eq⟩
  rw [ran.1.isNew_eq, Bool.and_eq_true, decide_eq_true_iff]

end LiveSections

end Peony
