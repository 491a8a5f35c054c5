import Mathlib.Algebra.Order.BigOperators.Group.List
import Mathlib.Algebra.Order.Group.Nat
import Mathlib.Data.Finset.Prod
import Peony.Foundation.Words
import Peony.Object.Parsed

namespace Peony

/-! The set of live sections, kept as one bit for each section index of each
object. -/

/-- A section: the number of its object and its index in it. -/
abbrev SectionKey := Nat × Nat

/-! ## Bits of a word -/

namespace LiveSections

def mask (index : Nat) : UInt64 := 1 <<< UInt64.ofNat (index % 64)

def hasBit (word : UInt64) (index : Nat) : Bool := word &&& mask index != 0

theorem mask_toBitVec (index : Nat) :
    (mask index).toBitVec = BitVec.twoPow 64 (index % 64) := by
  rw [mask, UInt64.toBitVec_shiftLeft, BitVec.twoPow_eq]
  simp

theorem hasBit_eq (word : UInt64) (index : Nat) :
    hasBit word index = word.toBitVec.getLsbD (index % 64) := by
  have small : index % 64 < 64 := Nat.mod_lt _ (by decide)
  rw [hasBit, Bool.eq_iff_iff, bne_iff_ne, ne_eq, ← UInt64.toBitVec_inj,
    UInt64.toBitVec_and, mask_toBitVec, BitVec.and_twoPow]
  by_cases present : word.toBitVec.getLsbD (index % 64) = true
  · rw [if_pos present]
    refine iff_of_true ?_ present
    intro zero
    have bit := congrArg (fun bits => bits.getLsbD (index % 64)) zero
    simp [small] at bit
  · rw [if_neg present]
    exact iff_of_false (fun nonzero => nonzero rfl) present

private theorem hasBit_mask (index other : Nat) :
    (mask index).toBitVec.getLsbD (other % 64) =
      decide (other % 64 = index % 64) := by
  have small : index % 64 < 64 := Nat.mod_lt _ (by decide)
  rw [mask_toBitVec, BitVec.getLsbD_twoPow, decide_eq_true small, Bool.true_and]
  exact decide_eq_decide.mpr eq_comm

theorem hasBit_or_mask (word : UInt64) (index other : Nat) :
    hasBit (word ||| mask index) other =
      (hasBit word other || decide (other % 64 = index % 64)) := by
  rw [hasBit_eq, hasBit_eq, UInt64.toBitVec_or, BitVec.getLsbD_or, hasBit_mask]

theorem hasBit_and_not_mask (word : UInt64) (index other : Nat) :
    hasBit (word &&& ~~~ mask index) other =
      (hasBit word other && !decide (other % 64 = index % 64)) := by
  have small : other % 64 < 64 := Nat.mod_lt _ (by decide)
  rw [hasBit_eq, hasBit_eq, UInt64.toBitVec_and, BitVec.getLsbD_and,
    UInt64.toBitVec_not, BitVec.getLsbD_not, hasBit_mask]
  simp [small]

@[simp] theorem hasBit_zero (index : Nat) : hasBit 0 index = false := by
  simp [hasBit]

end LiveSections

/-! ## The set -/

structure LiveSections where
  wordsByObject : List (List UInt64)
  len : Nat
deriving DecidableEq, Repr

namespace LiveSections

def newWords (obj : InputObject) : List UInt64 :=
  List.replicate
    (((obj.sections.map fun sec => sec.index).max?.getD 0) / 64 + 1) 0

def new (objects : List InputObject) : LiveSections where
  wordsByObject := objects.map newWords
  len := 0

def word (live : LiveSections) (key : SectionKey) : Option UInt64 :=
  live.wordsByObject[key.1]? >>= fun words => words[key.2 / 64]?

def setWord (live : LiveSections) (key : SectionKey) (value : UInt64)
    (len : Nat) : LiveSections where
  wordsByObject := live.wordsByObject.modify key.1
    fun words => words.set (key.2 / 64) value
  len := len

/-- The set with the key, and whether it is new. A key without a bit is not
taken. -/
def insert (live : LiveSections) (key : SectionKey) : LiveSections × Bool :=
  match live.word key with
  | none => (live, false)
  | some word =>
      if hasBit word key.2 then (live, false)
      else (live.setWord key (word ||| mask key.2) (live.len + 1), true)

def remove (live : LiveSections) (key : SectionKey) : LiveSections × Bool :=
  match live.word key with
  | none => (live, false)
  | some word =>
      if hasBit word key.2 then
        (live.setWord key (word &&& ~~~ mask key.2) (live.len - 1), true)
      else (live, false)

def contains (live : LiveSections) (key : SectionKey) : Bool :=
  (live.word key).any fun word => hasBit word key.2

/-- Whether there is a bit for the key. -/
def covers (live : LiveSections) (key : SectionKey) : Bool :=
  (live.word key).isSome

/-! ## One bit changes -/

private theorem word_setWord (live : LiveSections) (key other : SectionKey)
    (value : UInt64) (len : Nat) (old : UInt64)
    (found : live.word key = some old) :
    (live.setWord key value len).word other =
      if other.1 = key.1 ∧ other.2 / 64 = key.2 / 64 then some value
      else live.word other := by
  simp only [word, setWord, Option.bind_eq_bind, Option.bind_eq_some_iff,
    List.getElem?_modify] at found ⊢
  rcases found with ⟨words, atObject, atWord⟩
  by_cases sameObject : key.1 = other.1
  · have inside := (List.getElem?_eq_some_iff.mp atWord).1
    rw [← sameObject, atObject]
    by_cases sameWord : key.2 / 64 = other.2 / 64
    · simp [← sameWord, inside]
    · simp [sameWord, Ne.symm sameWord]
  · rw [if_neg (fun both => sameObject both.1.symm)]
    simp [sameObject]

private theorem covers_setWord (live : LiveSections) (key other : SectionKey)
    (value : UInt64) (len : Nat) (old : UInt64)
    (found : live.word key = some old) :
    (live.setWord key value len).covers other = live.covers other := by
  rw [covers, covers, word_setWord _ _ _ _ _ old found]
  split
  · rename_i same
    have sameWord : live.word other = live.word key := by
      simp only [word, same.1, same.2]
    rw [sameWord, found]
    rfl
  · rfl

private theorem key_eq_iff (key other : SectionKey) :
    other = key ↔ (other.1 = key.1 ∧ other.2 / 64 = key.2 / 64) ∧
      other.2 % 64 = key.2 % 64 := by
  rw [Prod.ext_iff]
  omega

@[simp] theorem covers_insert (live : LiveSections) (key other : SectionKey) :
    (live.insert key).1.covers other = live.covers other := by
  unfold insert
  split
  · rfl
  · rename_i word found
    split
    · rfl
    · exact covers_setWord live key other _ _ word found

@[simp] theorem covers_remove (live : LiveSections) (key other : SectionKey) :
    (live.remove key).1.covers other = live.covers other := by
  unfold remove
  split
  · rfl
  · rename_i word found
    split
    · exact covers_setWord live key other _ _ word found
    · rfl

theorem insert_isNew (live : LiveSections) (key : SectionKey) :
    (live.insert key).2 = (live.covers key && !live.contains key) := by
  unfold insert covers contains
  cases found : live.word key with
  | none => rfl
  | some word => cases known : hasBit word key.2 <;> simp [known]

theorem remove_isPresent (live : LiveSections) (key : SectionKey) :
    (live.remove key).2 = live.contains key := by
  unfold remove contains
  cases found : live.word key with
  | none => rfl
  | some word => cases known : hasBit word key.2 <;> simp [known]

theorem len_insert (live : LiveSections) (key : SectionKey) :
    (live.insert key).1.len = live.len + (live.insert key).2.toNat := by
  unfold insert
  split
  · rfl
  · split <;> rfl

theorem len_remove (live : LiveSections) (key : SectionKey) :
    (live.remove key).1.len = live.len - (live.remove key).2.toNat := by
  unfold remove
  split
  · rfl
  · split <;> rfl

theorem contains_insert (live : LiveSections) (key other : SectionKey) :
    (live.insert key).1.contains other =
      (live.contains other || (decide (other = key) && live.covers key)) := by
  unfold insert
  cases found : live.word key with
  | none => simp [covers, found]
  | some word =>
      have covered : live.covers key = true := by simp [covers, found]
      rw [covered, Bool.and_true]
      by_cases known : hasBit word key.2 = true
      · have contained : live.contains key = true := by
          simp [contains, found, known]
        simp only [known, if_true]
        by_cases same : other = key
        · simp [same, contained]
        · simp [same]
      · simp only [known, Bool.false_eq_true, if_false]
        rw [contains, word_setWord _ _ _ _ _ word found]
        by_cases sameWord : other.1 = key.1 ∧ other.2 / 64 = key.2 / 64
        · have otherWord : live.word other = some word := by
            rw [← found]
            simp only [LiveSections.word, sameWord.1, sameWord.2]
          rw [if_pos sameWord, contains, otherWord]
          simp [hasBit_or_mask, key_eq_iff, sameWord]
        · rw [if_neg sameWord, contains]
          simp [key_eq_iff, sameWord]

theorem contains_remove (live : LiveSections) (key other : SectionKey) :
    (live.remove key).1.contains other =
      (live.contains other && !decide (other = key)) := by
  unfold remove
  cases found : live.word key with
  | none =>
      by_cases same : other = key
      · simp [same, contains, found]
      · simp [same]
  | some word =>
      by_cases known : hasBit word key.2 = true
      · simp only [known, if_true]
        rw [contains, word_setWord _ _ _ _ _ word found]
        by_cases sameWord : other.1 = key.1 ∧ other.2 / 64 = key.2 / 64
        · have otherWord : live.word other = some word := by
            rw [← found]
            simp only [LiveSections.word, sameWord.1, sameWord.2]
          rw [if_pos sameWord, contains, otherWord]
          simp [hasBit_and_not_mask, key_eq_iff, sameWord]
        · rw [if_neg sameWord, contains]
          simp [key_eq_iff, sameWord]
      · simp only [known, Bool.false_eq_true, if_false]
        by_cases same : other = key
        · simp [same, contains, found, known]
        · simp [same]

/-! ## The keys whose bit is set -/

/-- The number of the lowest bit that is set. -/
def trailingZeros (word : UInt64) : Nat := word.toBitVec.ctz.toNat

/-- The loop over the bits of one word, the lowest bit first. -/
def wordKeys (objectId wordIndex : Nat) (word : UInt64) : List SectionKey :=
  if word = 0 then []
  else
    (objectId, wordIndex * 64 + trailingZeros word) ::
      wordKeys objectId wordIndex (word &&& (word - 1))
termination_by word.toNat
decreasing_by
  rename_i nonzero
  have positive : 0 < word.toNat := by
    apply Nat.pos_of_ne_zero
    intro zero
    exact nonzero (UInt64.toNat_inj.mp zero)
  have one : (1 : UInt64) ≤ word := UInt64.le_iff_toNat_le.mpr positive
  rw [UInt64.toNat_and, UInt64.toNat_sub_of_le _ _ one]
  exact Nat.lt_of_le_of_lt Nat.and_le_right (Nat.sub_lt positive Nat.one_pos)

theorem trailingZeros_lt {word : UInt64} (nonzero : word ≠ 0) :
    trailingZeros word < 64 := by
  have different : word.toBitVec ≠ 0#64 :=
    fun zero => nonzero (UInt64.toBitVec_inj.mp zero)
  exact BitVec.lt_def.mp (BitVec.ctz_lt_iff_ne_zero.mpr different)

theorem hasBit_clearLowest {word : UInt64} (nonzero : word ≠ 0)
    (index : Nat) :
    hasBit (word &&& (word - 1)) index =
      (hasBit word index && decide (index % 64 ≠ trailingZeros word)) := by
  have different : word.toBitVec ≠ 0#64 :=
    fun zero => nonzero (UInt64.toBitVec_inj.mp zero)
  have positive : (1 : UInt64) ≤ word := by
    apply UInt64.le_iff_toNat_le.mpr
    apply Nat.pos_of_ne_zero
    intro zero
    exact nonzero (UInt64.toNat_inj.mp zero)
  have lowest : word.toNat.testBit (trailingZeros word) = true :=
    BitVec.getLsbD_true_ctz_of_ne_zero different
  have clear : ∀ index < trailingZeros word,
      word.toNat.testBit index = false :=
    fun _ below => BitVec.getLsbD_false_of_lt_ctz below
  have bits := Nat.testBit_and_pred clear lowest (index % 64)
  rw [hasBit_eq, hasBit_eq]
  change (word &&& (word - 1)).toNat.testBit (index % 64) =
    (word.toNat.testBit (index % 64) && _)
  rw [UInt64.toNat_and, UInt64.toNat_sub_of_le _ _ positive]
  exact bits

theorem mem_wordKeys {objectId wordIndex : Nat} {word : UInt64}
    {key : SectionKey} :
    key ∈ wordKeys objectId wordIndex word ↔
      key.1 = objectId ∧ key.2 / 64 = wordIndex ∧ hasBit word key.2 = true := by
  fun_induction wordKeys objectId wordIndex word with
  | case1 => simp
  | case2 word nonzero induction =>
      have small := trailingZeros_lt nonzero
      have lowest : hasBit word (trailingZeros word) = true := by
        rw [hasBit_eq, Nat.mod_eq_of_lt small]
        exact BitVec.getLsbD_true_ctz_of_ne_zero
          (fun zero => nonzero (UInt64.toBitVec_inj.mp zero))
      rw [List.mem_cons, induction, hasBit_clearLowest nonzero,
        Bool.and_eq_true, decide_eq_true_eq, Prod.ext_iff]
      by_cases isLowest : key.2 % 64 = trailingZeros word
      · have present : hasBit word key.2 = true := by
          rw [hasBit_eq, isLowest]
          rw [hasBit_eq, Nat.mod_eq_of_lt small] at lowest
          exact lowest
        simp only [isLowest, present, ne_eq, not_true_eq_false, and_false,
          or_false, and_true]
        omega
      · have apart : key.2 ≠ wordIndex * 64 + trailingZeros word := by omega
        simp [apart, isLowest]

/-- The keys of all bits, taken word by word. -/
def intoHashSet (live : LiveSections) : Finset SectionKey :=
  (live.wordsByObject.zipIdx.flatMap fun (words, objectId) =>
    words.zipIdx.flatMap fun (word, wordIndex) =>
      wordKeys objectId wordIndex word).toFinset

@[simp] theorem mem_intoHashSet {live : LiveSections} {key : SectionKey} :
    key ∈ live.intoHashSet ↔ live.contains key = true := by
  rw [intoHashSet, List.mem_toFinset, List.mem_flatMap]
  simp only [List.mem_flatMap, Prod.exists, List.mem_zipIdx_iff_getElem?,
    mem_wordKeys, contains, word, Option.any_eq_true, Option.bind_eq_bind,
    Option.bind_eq_some_iff]
  constructor
  · rintro ⟨words, _, atObject, word, _, atWord, rfl, rfl, isSet⟩
    exact ⟨word, ⟨words, atObject, atWord⟩, isSet⟩
  · rintro ⟨word, ⟨words, atObject, atWord⟩, isSet⟩
    exact ⟨words, _, atObject, word, _, atWord, rfl, rfl, isSet⟩

/-! ## The empty set -/

@[simp] theorem contains_new (objects : List InputObject) (key : SectionKey) :
    (new objects).contains key = false := by
  cases found : (new objects).word key with
  | none => simp [contains, found]
  | some value =>
      have zero : value = 0 := by
        simp only [LiveSections.word, new, Option.bind_eq_bind,
          Option.bind_eq_some_iff, List.getElem?_map,
          Option.map_eq_some_iff] at found
        rcases found with ⟨_, ⟨obj, _, rfl⟩, isWord⟩
        exact List.eq_of_mem_replicate (List.mem_of_getElem? isWord)
      simp [contains, found, zero]

theorem covers_new {objects : List InputObject} {key : SectionKey}
    {obj : InputObject} (isObject : objects[key.1]? = some obj)
    {sec : InputSection} (member : sec ∈ obj.sections)
    (isIndex : sec.index = key.2) : (new objects).covers key = true := by
  have indices : key.2 ∈ obj.sections.map fun sec => sec.index :=
    List.mem_map.mpr ⟨sec, member, isIndex⟩
  have bounded : key.2 ≤
      (obj.sections.map fun sec => sec.index).max?.getD 0 :=
    List.le_max?_getD_of_mem indices
  have inside : key.2 / 64 < (newWords obj).length := by
    rw [newWords, List.length_replicate]
    exact Nat.lt_succ_of_le (Nat.div_le_div_right bounded)
  simp [covers, word, new, isObject, inside]

/-! ## The keys with a bit -/

def keys (live : LiveSections) : Finset SectionKey :=
  (Finset.range live.wordsByObject.length ×ˢ
    Finset.range (64 * (live.wordsByObject.map List.length).sum)).filter
      fun key => live.covers key

theorem mem_keys {live : LiveSections} {key : SectionKey} :
    key ∈ live.keys ↔ live.covers key = true := by
  rw [keys, Finset.mem_filter, and_iff_right_iff_imp]
  intro covered
  simp only [covers, Option.isSome_iff_exists, word, Option.bind_eq_bind,
    Option.bind_eq_some_iff] at covered
  rcases covered with ⟨_, words, atObject, atWord⟩
  have objectInside := (List.getElem?_eq_some_iff.mp atObject).1
  have wordInside := (List.getElem?_eq_some_iff.mp atWord).1
  have bounded : words.length ≤ (live.wordsByObject.map List.length).sum :=
    List.le_sum_of_mem
      (List.mem_map.mpr ⟨words, List.mem_of_getElem? atObject, rfl⟩)
  rw [Finset.mem_product, Finset.mem_range, Finset.mem_range]
  exact ⟨objectInside, by omega⟩

/-- How many bits are not set. -/
def vacant (live : LiveSections) : Nat :=
  (live.keys.filter fun key => live.contains key = false).card

theorem keys_insert (live : LiveSections) (key : SectionKey) :
    (live.insert key).1.keys = live.keys := by
  ext other
  rw [mem_keys, mem_keys, covers_insert]

theorem vacant_insert (live : LiveSections) (key : SectionKey) :
    (live.insert key).1.vacant + (if (live.insert key).2 then 1 else 0) ≤
      live.vacant := by
  unfold vacant
  rw [keys_insert]
  by_cases new : (live.insert key).2 = true
  · rw [if_pos new]
    rw [insert_isNew, Bool.and_eq_true, Bool.not_eq_true'] at new
    apply Nat.succ_le_of_lt
    apply Finset.card_lt_card
    rw [Finset.ssubset_iff_of_subset]
    · refine ⟨key, ?_, ?_⟩
      · exact Finset.mem_filter.mpr ⟨mem_keys.mpr new.1, new.2⟩
      · simp [contains_insert, new.1]
    · intro other isVacant
      rw [Finset.mem_filter, contains_insert, Bool.or_eq_false_iff] at isVacant
      exact Finset.mem_filter.mpr ⟨isVacant.1, isVacant.2.1⟩
  · rw [if_neg new, Nat.add_zero]
    apply Finset.card_le_card
    intro other isVacant
    rw [Finset.mem_filter, contains_insert, Bool.or_eq_false_iff] at isVacant
    exact Finset.mem_filter.mpr ⟨isVacant.1, isVacant.2.1⟩

end LiveSections

end Peony
