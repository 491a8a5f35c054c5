import Mathlib.Data.Finset.Range
import Mathlib.Data.Finset.Card
import Mathlib.Data.List.Induction
import Peony.Object.Model

namespace Peony

/-! Objects as the parser builds them: its two lookup tables lead from the raw
index of every section and symbol to its position, and from no other index. -/

/-! ## Building a lookup table -/

namespace IndexLookup

theorem lookup_sparseEntries (start : Nat) (positions : List Nat)
    (entries : AList (fun _ : Nat => Nat)) (rawIndex : Nat)
    (fresh : ∀ index, start ≤ index → entries.lookup index = none) :
    (sparseEntries start positions entries).lookup rawIndex =
      if start ≤ rawIndex then
        (positions[rawIndex - start]?).filter fun pos => pos != missingIndex
      else entries.lookup rawIndex := by
  induction positions generalizing start entries with
  | nil =>
      by_cases reached : start ≤ rawIndex
      · simp [sparseEntries, reached, fresh]
      · simp [sparseEntries, reached]
  | cons entry rest induction =>
      rw [sparseEntries, induction]
      · rcases Nat.lt_trichotomy rawIndex start with below | rfl | above
        · rw [if_neg (show ¬ start + 1 ≤ rawIndex by omega),
            if_neg (show ¬ start ≤ rawIndex by omega)]
          split
          · rfl
          · exact AList.lookup_insert_ne (by omega)
        · rw [if_neg (show ¬ rawIndex + 1 ≤ rawIndex by omega),
            if_pos (Nat.le_refl _)]
          by_cases missing : entry = missingIndex
          · simp [missing, fresh, Option.filter]
          · simp [missing, Option.filter]
        · have next : rawIndex - start = (rawIndex - (start + 1)) + 1 := by omega
          rw [if_pos (show start + 1 ≤ rawIndex by omega),
            if_pos (show start ≤ rawIndex by omega), next,
            List.getElem?_cons_succ]
      · intro index later
        split
        · exact fresh index (by omega)
        · rw [AList.lookup_insert_ne (by omega)]
          exact fresh index (by omega)

theorem position_insert (lookup : IndexLookup) (rawIndex pos other : Nat)
    (real : pos ≠ missingIndex) :
    (lookup.insert rawIndex pos).position other =
      if other = rawIndex then some pos else lookup.position other := by
  cases lookup with
  | sparse positions => exact position_insert_sparse positions rawIndex pos other
  | dense positions =>
      rw [insert]
      by_cases inside : rawIndex < positions.length
      · rw [if_pos inside, position, position, List.getElem?_set]
        by_cases equal : other = rawIndex
        · subst equal
          simp [inside, real]
        · rw [if_neg (Ne.symm equal), if_neg equal]
      · rw [if_neg inside]
        show (AList.insert rawIndex pos (sparseEntries 0 positions ∅)).lookup
          other = _
        by_cases equal : other = rawIndex
        · subst equal
          simp
        · rw [AList.lookup_insert_ne equal, if_neg equal,
            lookup_sparseEntries 0 positions ∅ other (by simp)]
          simp [position]

theorem position_withDenseLen (len rawIndex : Nat) :
    (withDenseLen len).position rawIndex = none := by
  by_cases inside : rawIndex < len
  · simp [withDenseLen, position, inside]
  · simp [withDenseLen, position, inside]

def insertEach (lookup : IndexLookup) (insertions : List (Nat × Nat)) : IndexLookup :=
  insertions.foldl (fun lookup entry => lookup.insert entry.1 entry.2) lookup

def lastInserted (insertions : List (Nat × Nat)) (rawIndex : Nat) : Option Nat :=
  (insertions.filter fun entry => entry.1 == rawIndex).getLast?.map Prod.snd

theorem lastInserted_append (insertions : List (Nat × Nat)) (entry : Nat × Nat)
    (rawIndex : Nat) :
    lastInserted (insertions ++ [entry]) rawIndex =
      if rawIndex = entry.1 then some entry.2 else lastInserted insertions rawIndex := by
  rw [lastInserted, List.filter_append]
  by_cases same : rawIndex = entry.1
  · rw [if_pos same, List.filter_cons, if_pos (beq_iff_eq.mpr same.symm), List.filter_nil,
      List.getLast?_concat, Option.map_some]
  · have different : ¬ (entry.1 == rawIndex) = true := fun equal =>
      same (beq_iff_eq.mp equal).symm
    rw [if_neg same, List.filter_cons, if_neg different, List.filter_nil, List.append_nil,
      lastInserted]

/-- A table of any length finds for each index what was inserted last for it, whenever it
was converted. -/
theorem position_insertEach (len : Nat) {insertions : List (Nat × Nat)}
    (real : ∀ entry ∈ insertions, entry.2 < missingIndex) (rawIndex : Nat) :
    ((withDenseLen len).insertEach insertions).position rawIndex =
      lastInserted insertions rawIndex := by
  induction insertions using List.reverseRecOn with
  | nil => exact position_withDenseLen len rawIndex
  | append_singleton earlier entry induction =>
      have before := induction fun other present => real other (List.mem_append_left _ present)
      have small := real entry (List.mem_append_right _ List.mem_cons_self)
      rw [insertEach, List.foldl_append, lastInserted_append, ← before]
      exact position_insert _ entry.1 entry.2 rawIndex (Nat.ne_of_lt small)

/-- The entry from before the conversion is found after it. -/
theorem position_insertEach_converted :
    ((withDenseLen 2).insertEach [(1, 7), (1000, 8), (0, 3), (0, 4)]).position 1 = some 7 :=
  position_insertEach 2 (by decide) 1

/-- Insert raw indices with consecutive positions. -/
def insertAll (lookup : IndexLookup) (start : Nat) : List Nat → IndexLookup
  | [] => lookup
  | rawIndex :: rest => insertAll (lookup.insert rawIndex start) (start + 1) rest

theorem position_insertAll (lookup : IndexLookup) (start : Nat)
    (indices : List Nat) (distinct : indices.Nodup)
    (bounded : start + indices.length ≤ missingIndex)
    (fresh : ∀ rawIndex ∈ indices, lookup.position rawIndex = none)
    (rawIndex pos : Nat) :
    (lookup.insertAll start indices).position rawIndex = some pos ↔
      lookup.position rawIndex = some pos ∨
        (start ≤ pos ∧ indices[pos - start]? = some rawIndex) := by
  induction indices generalizing lookup start with
  | nil => simp [insertAll]
  | cons first rest induction =>
      have parts := List.nodup_cons.mp distinct
      rw [List.length_cons] at bounded
      have freshAfter : ∀ index ∈ rest,
          (lookup.insert first start).position index = none := by
        intro index member
        rw [position_insert _ _ _ _ (by omega), if_neg]
        · exact fresh index (List.mem_cons_of_mem _ member)
        · rintro rfl
          exact parts.1 member
      rw [insertAll, induction _ _ parts.2 (by omega) freshAfter,
        position_insert _ _ _ _ (by omega)]
      by_cases equal : rawIndex = first
      · subst equal
        rw [if_pos rfl, fresh rawIndex (List.mem_cons_self ..)]
        have absent : ∀ place, rest[place]? ≠ some rawIndex := fun place found =>
          parts.1 (List.mem_of_getElem? found)
        constructor
        · rintro (same | ⟨_, found⟩)
          · cases same
            exact .inr ⟨Nat.le_refl _, by simp⟩
          · exact absurd found (absent _)
        · rintro (impossible | ⟨reached, found⟩)
          · cases impossible
          · rcases Nat.eq_or_lt_of_le reached with same | later
            · exact .inl (congrArg some same)
            · have next : pos - start = (pos - (start + 1)) + 1 := by omega
              rw [next, List.getElem?_cons_succ] at found
              exact absurd found (absent _)
      · rw [if_neg equal]
        apply or_congr_right
        constructor
        · rintro ⟨reached, found⟩
          have next : pos - start = (pos - (start + 1)) + 1 := by omega
          rw [next, List.getElem?_cons_succ]
          exact ⟨by omega, found⟩
        · rintro ⟨reached, found⟩
          rcases Nat.eq_or_lt_of_le reached with same | later
          · rw [same, Nat.sub_self, List.getElem?_cons_zero] at found
            exact absurd (Option.some.inj found).symm equal
          · have next : pos - start = (pos - (start + 1)) + 1 := by omega
            rw [next, List.getElem?_cons_succ] at found
            exact ⟨later, found⟩

end IndexLookup

/-! ## Parsed objects -/

namespace InputObject

/-- An object with the lookup tables that `parse_backed` fills while it pushes
the sections and the symbols. The lengths the tables begin with come from the
hints of the two iterators. -/
def assemble (path : String) (sectionCount symbolCount : Nat)
    (sections : List InputSection) (symbols : List InputSymbol)
    (comdatGroups : List ComdatGroup) : InputObject where
  path := path
  sections := sections
  symbols := symbols
  sectionMap := (IndexLookup.withDenseLen (sectionCount + 1)).insertAll 0
    (sections.map fun sec => sec.index)
  symbolMap := (IndexLookup.withDenseLen symbolCount).insertAll 0
    (symbols.map fun sym => sym.index)
  comdatGroups := comdatGroups

/-- What the parser promises of an object. ELF counts sections and symbols with
32 bits. -/
structure Parsed (obj : InputObject) : Prop where
  sectionPos_iff : ∀ rawIndex pos, obj.sectionPos rawIndex = some pos ↔
    ∃ sec, obj.sections[pos]? = some sec ∧ sec.index = rawIndex
  symbolPos_iff : ∀ rawIndex pos, obj.symbolPos rawIndex = some pos ↔
    ∃ sym, obj.symbols[pos]? = some sym ∧ sym.index = rawIndex
  sectionIndex_lt : ∀ sec ∈ obj.sections, sec.index < 2 ^ 32
  symbolIndex_lt : ∀ sym ∈ obj.symbols, sym.index < 2 ^ 32

private theorem length_le_of_bounded {indices : List Nat}
    (distinct : indices.Nodup) (bounded : ∀ index ∈ indices, index < 2 ^ 32) :
    indices.length ≤ 2 ^ 32 := by
  have included : indices.toFinset ⊆ Finset.range (2 ^ 32) := by
    intro index member
    exact Finset.mem_range.mpr (bounded index (List.mem_toFinset.mp member))
  have counted := Finset.card_le_card included
  rwa [Finset.card_range, List.toFinset_card_of_nodup distinct] at counted

private theorem position_assembled {Item : Type*} (index : Item → Nat)
    (len : Nat) (items : List Item)
    (distinct : (items.map index).Nodup)
    (bounded : ∀ item ∈ items, index item < 2 ^ 32) (rawIndex pos : Nat) :
    ((IndexLookup.withDenseLen len).insertAll 0 (items.map index)).position
        rawIndex = some pos ↔
      ∃ item, items[pos]? = some item ∧ index item = rawIndex := by
  have short : (items.map index).length ≤ 2 ^ 32 :=
    length_le_of_bounded distinct fun value member => by
      rcases List.mem_map.mp member with ⟨item, isItem, rfl⟩
      exact bounded item isItem
  rw [IndexLookup.position_insertAll _ 0 _ distinct
    (by unfold IndexLookup.missingIndex; omega)
    fun _ _ => IndexLookup.position_withDenseLen _ _]
  simp [IndexLookup.position_withDenseLen]

theorem assemble_parsed (path : String) (sectionCount symbolCount : Nat)
    (sections : List InputSection) (symbols : List InputSymbol)
    (comdatGroups : List ComdatGroup)
    (distinctSections : (sections.map fun sec => sec.index).Nodup)
    (distinctSymbols : (symbols.map fun sym => sym.index).Nodup)
    (sectionsBounded : ∀ sec ∈ sections, sec.index < 2 ^ 32)
    (symbolsBounded : ∀ sym ∈ symbols, sym.index < 2 ^ 32) :
    (assemble path sectionCount symbolCount sections symbols
      comdatGroups).Parsed where
  sectionPos_iff :=
    position_assembled _ _ sections distinctSections sectionsBounded
  symbolPos_iff :=
    position_assembled _ _ symbols distinctSymbols symbolsBounded
  sectionIndex_lt := sectionsBounded
  symbolIndex_lt := symbolsBounded

namespace Parsed

variable {obj : InputObject} (parsed : obj.Parsed)

include parsed

theorem distinct : (obj.sections.map InputSection.index).Nodup := by
  rw [List.Nodup, List.pairwise_iff_getElem]
  intro first second isFirst isSecond ordered same
  rw [List.length_map] at isFirst isSecond
  rw [List.getElem_map, List.getElem_map] at same
  have atFirst := (parsed.sectionPos_iff obj.sections[first].index first).mpr
    ⟨_, List.getElem?_eq_getElem isFirst, rfl⟩
  have atSecond := (parsed.sectionPos_iff obj.sections[first].index second).mpr
    ⟨_, List.getElem?_eq_getElem isSecond, same.symm⟩
  rw [atFirst, Option.some.injEq] at atSecond
  omega

theorem distinctSymbols : (obj.symbols.map InputSymbol.index).Nodup := by
  rw [List.Nodup, List.pairwise_iff_getElem]
  intro first second isFirst isSecond ordered same
  rw [List.length_map] at isFirst isSecond
  rw [List.getElem_map, List.getElem_map] at same
  have atFirst := (parsed.symbolPos_iff obj.symbols[first].index first).mpr
    ⟨_, List.getElem?_eq_getElem isFirst, rfl⟩
  have atSecond := (parsed.symbolPos_iff obj.symbols[first].index second).mpr
    ⟨_, List.getElem?_eq_getElem isSecond, same.symm⟩
  rw [atFirst, Option.some.injEq] at atSecond
  omega

theorem symbolByIndex_iff (rawIndex : Nat) (sym : InputSymbol) :
    obj.symbolByIndex rawIndex = some sym ↔
      sym ∈ obj.symbols ∧ sym.index = rawIndex := by
  rw [symbolByIndex, Option.bind_eq_bind, Option.bind_eq_some_iff]
  constructor
  · rintro ⟨pos, found, atPos⟩
    rcases (parsed.symbolPos_iff rawIndex pos).mp found with
      ⟨other, same, isIndex⟩
    rw [atPos] at same
    cases same
    exact ⟨List.mem_of_getElem? atPos, isIndex⟩
  · rintro ⟨member, isIndex⟩
    rcases List.getElem?_of_mem member with ⟨pos, atPos⟩
    exact ⟨pos, (parsed.symbolPos_iff rawIndex pos).mpr ⟨sym, atPos, isIndex⟩,
      atPos⟩

theorem symbol_eq_of_index {first second : InputSymbol}
    (isFirst : first ∈ obj.symbols) (isSecond : second ∈ obj.symbols)
    (same : first.index = second.index) : first = second := by
  rcases List.getElem?_of_mem isFirst with ⟨pos, atPos⟩
  rcases List.getElem?_of_mem isSecond with ⟨other, atOther⟩
  have found := (parsed.symbolPos_iff first.index pos).mpr ⟨first, atPos, rfl⟩
  rw [(parsed.symbolPos_iff first.index other).mpr
    ⟨second, atOther, same.symm⟩] at found
  cases found
  rw [atPos] at atOther
  exact Option.some.inj atOther

end Parsed

end InputObject

end Peony
