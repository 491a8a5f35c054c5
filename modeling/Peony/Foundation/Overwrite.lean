import Mathlib.Data.List.Basic

/-! Buffers of a fixed length that are written in place by a list of patches. -/

namespace Buffer

variable {α : Type*}

structure Patch (α : Type*) where
  offset : Nat
  data : List α
deriving DecidableEq, Repr

def Patch.at (patch : Patch α) (place : Nat) (old : α) : α :=
  if patch.offset ≤ place then (patch.data[place - patch.offset]?).getD old
  else old

def Patch.Covers (patch : Patch α) (place : Nat) : Prop :=
  patch.offset ≤ place ∧ place < patch.offset + patch.data.length

theorem Patch.at_of_not_covers {patch : Patch α} {place : Nat}
    (outside : ¬ patch.Covers place) (old : α) : patch.at place old = old := by
  by_cases before : patch.offset ≤ place
  · have behind : patch.data.length ≤ place - patch.offset := by
      rw [Covers, not_and, Nat.not_lt] at outside
      have := outside before
      omega
    rw [Patch.at, if_pos before, List.getElem?_eq_none behind, Option.getD_none]
  · rw [Patch.at, if_neg before]

/-- What is written does not depend on what was there. -/
theorem Patch.at_of_covers {patch : Patch α} {place : Nat} (covers : patch.Covers place)
    (old other : α) : patch.at place old = patch.at place other := by
  have inData : place - patch.offset < patch.data.length :=
    Nat.sub_lt_left_of_lt_add covers.1 covers.2
  rw [Patch.at, Patch.at, if_pos covers.1, if_pos covers.1, List.getElem?_eq_getElem inData,
    Option.getD_some, Option.getD_some]

/-- Replace the content of the buffer from the offset of the patch on; what
would fall behind the end of the buffer is dropped. -/
def overwrite (buffer : List α) (patch : Patch α) : List α :=
  buffer.mapIdx patch.at

def applyAll (buffer : List α) (patches : List (Patch α)) : List α :=
  patches.foldl overwrite buffer

@[simp] theorem length_overwrite (buffer : List α) (patch : Patch α) :
    (overwrite buffer patch).length = buffer.length := by
  simp [overwrite]

theorem getElem?_overwrite (buffer : List α) (patch : Patch α) (place : Nat) :
    (overwrite buffer patch)[place]? = buffer[place]?.map (patch.at place) := by
  simp [overwrite, List.getElem?_mapIdx]

/-- What was written is read back. -/
theorem slice_overwrite {buffer : List α} {patch : Patch α}
    (inside : patch.offset + patch.data.length ≤ buffer.length) :
    ((overwrite buffer patch).drop patch.offset).take patch.data.length = patch.data := by
  apply List.ext_getElem?
  intro place
  by_cases inData : place < patch.data.length
  · have inBuffer : patch.offset + place < buffer.length := by omega
    rw [List.getElem?_take_of_lt inData, List.getElem?_drop, getElem?_overwrite,
      List.getElem?_eq_getElem inBuffer, Option.map_some, Patch.at,
      if_pos (Nat.le_add_right _ _), Nat.add_sub_cancel_left,
      List.getElem?_eq_getElem inData, Option.getD_some]
  · rw [List.getElem?_take_eq_none (Nat.le_of_not_lt inData),
      List.getElem?_eq_none (Nat.le_of_not_lt inData)]

/-- A part of what was written is read back. -/
theorem window_overwrite_part {buffer : List α} {patch : Patch α} {place len : Nat}
    (inside : patch.offset + patch.data.length ≤ buffer.length)
    (inData : place + len ≤ patch.data.length) :
    ((overwrite buffer patch).drop (patch.offset + place)).take len =
      (patch.data.drop place).take len := by
  have whole := slice_overwrite inside
  rw [← List.drop_drop]
  conv => rhs; rw [← whole, List.drop_take, List.take_take,
    Nat.min_eq_left (Nat.le_sub_of_add_le' inData)]

theorem window_congr {first second : List α} {start len : Nat}
    (agree : ∀ index < len, first[start + index]? = second[start + index]?) :
    (first.drop start).take len = (second.drop start).take len := by
  apply List.ext_getElem?
  intro index
  by_cases inWindow : index < len
  · rw [List.getElem?_take_of_lt inWindow, List.getElem?_take_of_lt inWindow,
      List.getElem?_drop, List.getElem?_drop]
    exact agree index inWindow
  · rw [List.getElem?_take_eq_none (Nat.le_of_not_lt inWindow),
      List.getElem?_take_eq_none (Nat.le_of_not_lt inWindow)]

theorem window_overwrite_apart (buffer : List α) {patch : Patch α} {start len : Nat}
    (apart : start + len ≤ patch.offset ∨ patch.offset + patch.data.length ≤ start) :
    ((overwrite buffer patch).drop start).take len = (buffer.drop start).take len := by
  apply window_congr
  intro index inWindow
  have outside : ¬ patch.Covers (start + index) := by
    rintro ⟨atLeast, below⟩
    omega
  rw [getElem?_overwrite]
  cases buffer[start + index]? with
  | none => rfl
  | some value => exact congrArg some (Patch.at_of_not_covers outside value)

theorem window_overwrite (buffer : List α) (start place len : Nat) (data : List α) :
    ((overwrite buffer ⟨start + place, data⟩).drop start).take len =
      overwrite ((buffer.drop start).take len) ⟨place, data⟩ := by
  apply List.ext_getElem?
  intro index
  rw [getElem?_overwrite]
  by_cases inWindow : index < len
  · have same (old : α) : Patch.at ⟨start + place, data⟩ (start + index) old =
        Patch.at ⟨place, data⟩ index old := by
      have shifted : start + index - (start + place) = index - place :=
        Nat.add_sub_add_left _ _ _
      rw [Patch.at, Patch.at, shifted]
      exact if_congr (Nat.add_le_add_iff_left) rfl rfl
    rw [List.getElem?_take_of_lt inWindow, List.getElem?_take_of_lt inWindow,
      List.getElem?_drop, List.getElem?_drop, getElem?_overwrite]
    exact congrArg (fun change => buffer[start + index]?.map change) (funext same)
  · rw [List.getElem?_take_eq_none (Nat.le_of_not_lt inWindow),
      List.getElem?_take_eq_none (Nat.le_of_not_lt inWindow), Option.map_none]

theorem overwrite_middle (front old back : List α) {data : List α}
    (same : data.length = old.length) :
    overwrite (front ++ (old ++ back)) ⟨front.length, data⟩ = front ++ (data ++ back) := by
  apply List.ext_getElem?
  intro index
  rw [getElem?_overwrite]
  by_cases inFront : index < front.length
  · have outside : ¬ Patch.Covers ⟨front.length, data⟩ index := fun covers =>
      absurd covers.1 (Nat.not_le.mpr inFront)
    rw [List.getElem?_append_left inFront, List.getElem?_append_left inFront]
    cases front[index]? with
    | none => rfl
    | some value => exact congrArg some (Patch.at_of_not_covers outside value)
  · have before : front.length ≤ index := Nat.le_of_not_lt inFront
    rw [List.getElem?_append_right before, List.getElem?_append_right before]
    by_cases inData : index - front.length < data.length
    · have inOld : index - front.length < old.length := same ▸ inData
      rw [List.getElem?_append_left inOld, List.getElem?_append_left inData,
        List.getElem?_eq_getElem inOld, List.getElem?_eq_getElem inData, Option.map_some,
        Patch.at, if_pos before]
      dsimp only
      rw [List.getElem?_eq_getElem inData, Option.getD_some]
    · have behind : data.length ≤ index - front.length := Nat.le_of_not_lt inData
      have outside : ¬ Patch.Covers ⟨front.length, data⟩ index := fun covers => by
        have below : index < front.length + data.length := covers.2
        omega
      rw [List.getElem?_append_right behind, List.getElem?_append_right (same ▸ behind), same]
      cases back[index - front.length - old.length]? with
      | none => rfl
      | some value => exact congrArg some (Patch.at_of_not_covers outside value)

theorem overwrite_comm {first second : Patch α}
    (apart : ∀ place, ¬ (first.Covers place ∧ second.Covers place))
    (buffer : List α) :
    overwrite (overwrite buffer first) second =
      overwrite (overwrite buffer second) first := by
  apply List.ext_getElem?
  intro place
  simp only [getElem?_overwrite, Option.map_map]
  congr 1
  funext old
  rw [Function.comp_apply, Function.comp_apply]
  by_cases isFirst : first.Covers place
  · have notSecond : ¬ second.Covers place := fun isSecond =>
      apart place ⟨isFirst, isSecond⟩
    rw [Patch.at_of_not_covers notSecond, Patch.at_of_not_covers notSecond]
  · rw [Patch.at_of_not_covers isFirst, Patch.at_of_not_covers isFirst]

@[simp] theorem applyAll_nil (buffer : List α) : applyAll buffer [] = buffer :=
  rfl

@[simp] theorem applyAll_cons (buffer : List α) (patch : Patch α)
    (rest : List (Patch α)) :
    applyAll buffer (patch :: rest) = applyAll (overwrite buffer patch) rest :=
  rfl

theorem applyAll_append (buffer : List α) (patches more : List (Patch α)) :
    applyAll buffer (patches ++ more) = applyAll (applyAll buffer patches) more :=
  List.foldl_append

@[simp] theorem length_applyAll (buffer : List α) (patches : List (Patch α)) :
    (applyAll buffer patches).length = buffer.length := by
  induction patches generalizing buffer with
  | nil => rfl
  | cons patch rest induction =>
      rw [applyAll_cons, induction, length_overwrite]

def finalAt (patches : List (Patch α)) (place : Nat) (old : α) : α :=
  patches.foldl (fun value patch => patch.at place value) old

theorem getElem?_applyAll (buffer : List α) (patches : List (Patch α))
    (place : Nat) :
    (applyAll buffer patches)[place]? =
      buffer[place]?.map (finalAt patches place) := by
  induction patches generalizing buffer with
  | nil =>
      have unchanged : finalAt ([] : List (Patch α)) place = id := rfl
      rw [unchanged, Option.map_id, applyAll_nil, id]
  | cons patch rest induction =>
      rw [applyAll_cons, induction, getElem?_overwrite, Option.map_map]
      rfl

theorem getElem?_applyAll_of_not_covers {patches : List (Patch α)} {place : Nat}
    (outside : ∀ patch ∈ patches, ¬ patch.Covers place) (buffer : List α) :
    (applyAll buffer patches)[place]? = buffer[place]? := by
  induction patches generalizing buffer with
  | nil => rfl
  | cons patch rest induction =>
      have kept : patch.at place = id :=
        funext (Patch.at_of_not_covers (outside patch List.mem_cons_self))
      rw [applyAll_cons, induction fun other present =>
        outside other (List.mem_cons_of_mem _ present), getElem?_overwrite, kept,
        Option.map_id, id]

/-- What is left at a place that is written does not depend on what was there. -/
theorem getElem?_applyAll_of_covers {patches : List (Patch α)} {place : Nat}
    (covered : ∃ patch ∈ patches, patch.Covers place) {first second : List α}
    (same : first.length = second.length) :
    (applyAll first patches)[place]? = (applyAll second patches)[place]? := by
  induction patches generalizing first second with
  | nil =>
      rcases covered with ⟨patch, absent, _⟩
      exact absurd absent List.not_mem_nil
  | cons patch rest induction =>
      rw [applyAll_cons, applyAll_cons]
      by_cases later : ∃ other ∈ rest, other.Covers place
      · apply induction later
        rw [length_overwrite, length_overwrite, same]
      · have kept : ∀ other ∈ rest, ¬ other.Covers place :=
          fun other present covers => later ⟨other, present, covers⟩
        rcases covered with ⟨other, present, covers⟩
        rcases List.mem_cons.mp present with rfl | inRest
        · rw [getElem?_applyAll_of_not_covers kept, getElem?_applyAll_of_not_covers kept,
            getElem?_overwrite, getElem?_overwrite]
          by_cases inside : place < first.length
          · rw [List.getElem?_eq_getElem inside, List.getElem?_eq_getElem (same ▸ inside),
              Option.map_some, Option.map_some, Patch.at_of_covers covers]
          · rw [List.getElem?_eq_none (Nat.not_lt.mp inside),
              List.getElem?_eq_none (same ▸ Nat.not_lt.mp inside), Option.map_none]
        · exact absurd covers (kept other inRest)

/-- Two buffers are written to the same one if they hold the same wherever nothing is
written. -/
theorem applyAll_eq_of_agree {patches : List (Patch α)} {first second : List α}
    (same : first.length = second.length)
    (agree : ∀ place, (∀ patch ∈ patches, ¬ patch.Covers place) →
      first[place]? = second[place]?) :
    applyAll first patches = applyAll second patches := by
  apply List.ext_getElem?
  intro place
  by_cases covered : ∃ patch ∈ patches, patch.Covers place
  · exact getElem?_applyAll_of_covers covered same
  · have kept : ∀ patch ∈ patches, ¬ patch.Covers place :=
      fun patch present covers => covered ⟨patch, present, covers⟩
    rw [getElem?_applyAll_of_not_covers kept, getElem?_applyAll_of_not_covers kept, agree place kept]

theorem window_applyAll_apart (buffer : List α) {patches : List (Patch α)} {start len : Nat}
    (apart : ∀ patch ∈ patches,
      start + len ≤ patch.offset ∨ patch.offset + patch.data.length ≤ start) :
    ((applyAll buffer patches).drop start).take len = (buffer.drop start).take len := by
  induction patches generalizing buffer with
  | nil => rfl
  | cons patch rest induction =>
      rw [applyAll_cons, induction _ fun other present =>
          apart other (List.mem_cons_of_mem _ present),
        window_overwrite_apart _ (apart patch List.mem_cons_self)]

/-- The patches write no place in common. -/
def Patch.Apart (first second : Patch α) : Prop :=
  first.offset + first.data.length ≤ second.offset ∨
    second.offset + second.data.length ≤ first.offset

theorem slice_applyAll {buffer : List α} {patches : List (Patch α)}
    (apart : patches.Pairwise Patch.Apart) {patch : Patch α} (present : patch ∈ patches)
    (inside : patch.offset + patch.data.length ≤ buffer.length) :
    ((applyAll buffer patches).drop patch.offset).take patch.data.length = patch.data := by
  induction patches generalizing buffer with
  | nil => exact absurd present List.not_mem_nil
  | cons first rest induction =>
      rw [List.pairwise_cons] at apart
      rw [applyAll_cons]
      rcases List.mem_cons.mp present with rfl | inRest
      · rw [window_applyAll_apart _ apart.1]
        exact slice_overwrite inside
      · exact induction apart.2 inRest (by rwa [length_overwrite])

/-- To write what is there changes nothing. -/
theorem overwrite_eq_self {buffer : List α} {patch : Patch α}
    (held : (buffer.drop patch.offset).take patch.data.length = patch.data) :
    overwrite buffer patch = buffer := by
  apply List.ext_getElem?
  intro place
  rw [getElem?_overwrite]
  cases found : buffer[place]? with
  | none => rfl
  | some old =>
      rw [Option.map_some]
      apply congrArg some
      by_cases covers : patch.Covers place
      · have inData : place - patch.offset < patch.data.length :=
          Nat.sub_lt_left_of_lt_add covers.1 covers.2
        have same : patch.data[place - patch.offset]? = some old := by
          rw [← held, List.getElem?_take_of_lt inData, List.getElem?_drop,
            Nat.add_sub_cancel' covers.1, found]
        rw [Patch.at, if_pos covers.1, same, Option.getD_some]
      · exact Patch.at_of_not_covers covers old

theorem applyAll_eq_self {buffer : List α} {patches : List (Patch α)}
    (held : ∀ patch ∈ patches,
      (buffer.drop patch.offset).take patch.data.length = patch.data) :
    applyAll buffer patches = buffer := by
  induction patches with
  | nil => rfl
  | cons patch rest induction =>
      rw [applyAll_cons, overwrite_eq_self (held patch List.mem_cons_self)]
      exact induction fun other later => held other (List.mem_cons_of_mem _ later)

end Buffer
