import Mathlib.Data.List.Induction
import Mathlib.Data.List.Nodup

/-! Groups by key: every item goes to the group with its key, which the first item
with the key opens at the end of the list. -/

/-- How a group is opened for an item and how items are added to it. Neither of
the two changes the key of the group. -/
structure Grouping (Item Group Key : Type*) where
  keyOf : Item → Key
  label : Group → Key
  start : Item → Group
  add : Group → Item → Group
  label_start : ∀ item, label (start item) = keyOf item
  label_add : ∀ group item, label (add group item) = label group

namespace Grouping

variable {Item Group Key : Type*}
variable (grouping : Grouping Item Group Key)

def collect (first : Item) (items : List Item) : Group :=
  items.foldl grouping.add (grouping.start first)

@[simp] theorem label_collect (first : Item) (items : List Item) :
    grouping.label (grouping.collect first items) = grouping.keyOf first := by
  unfold collect
  induction items using List.reverseRecOn with
  | nil => exact grouping.label_start first
  | append_singleton items item induction =>
      rw [List.foldl_append, List.foldl_cons, List.foldl_nil,
        grouping.label_add, induction]

variable [DecidableEq Key]

def put (item : Item) : List Group → List Group
  | [] => [grouping.add (grouping.start item) item]
  | group :: rest =>
      if grouping.label group = grouping.keyOf item then
        grouping.add group item :: rest
      else group :: put item rest

def gather (items : List Item) : List Group :=
  items.foldl (fun groups item => grouping.put item groups) []

@[simp] theorem gather_nil : grouping.gather [] = [] := rfl

theorem gather_append_singleton (items : List Item) (item : Item) :
    grouping.gather (items ++ [item]) =
      grouping.put item (grouping.gather items) := by
  simp [gather]

/-! ## Keys -/

theorem labels_put (item : Item) (groups : List Group) :
    (grouping.put item groups).map grouping.label =
      if grouping.keyOf item ∈ groups.map grouping.label then
        groups.map grouping.label
      else groups.map grouping.label ++ [grouping.keyOf item] := by
  induction groups with
  | nil => simp [put, grouping.label_add, grouping.label_start]
  | cons group rest induction =>
      by_cases same : grouping.label group = grouping.keyOf item
      · simp [put, same, grouping.label_add]
      · rw [put, if_neg same, List.map_cons, induction, List.map_cons]
        by_cases known : grouping.keyOf item ∈ rest.map grouping.label
        · rw [if_pos known, if_pos (List.mem_cons_of_mem _ known)]
        · rw [if_neg known, if_neg]
          · rfl
          · intro member
            rcases List.mem_cons.mp member with equal | inRest
            · exact same equal.symm
            · exact known inRest

/-- Every key of a list once, where it comes first. -/
def firstKeys (keys : List Key) : List Key :=
  keys.foldl (fun seen key => if key ∈ seen then seen else seen ++ [key]) []

theorem labels_gather (items : List Item) :
    (grouping.gather items).map grouping.label =
      firstKeys (items.map grouping.keyOf) := by
  induction items using List.reverseRecOn with
  | nil => rfl
  | append_singleton items item induction =>
      rw [gather_append_singleton, labels_put, induction, firstKeys, firstKeys,
        List.map_append, List.foldl_append]
      rfl

theorem firstKeys_of_nodup {keys : List Key} (distinct : keys.Nodup) :
    firstKeys keys = keys := by
  induction keys using List.reverseRecOn with
  | nil => rfl
  | append_singleton keys key induction =>
      rcases List.nodup_append.mp distinct with ⟨before, -, apart⟩
      have fresh : key ∉ keys := fun member =>
        apart key member key (List.mem_singleton_self key) rfl
      have seen := induction before
      rw [firstKeys] at seen
      rw [firstKeys, List.foldl_append, seen, List.foldl_cons, List.foldl_nil,
        if_neg fresh]

theorem nodup_put {item : Item} {groups : List Group}
    (distinct : (groups.map grouping.label).Nodup) :
    ((grouping.put item groups).map grouping.label).Nodup := by
  rw [labels_put]
  split
  · exact distinct
  · rename_i fresh
    exact List.nodup_append.mpr ⟨distinct, List.nodup_singleton _, by
      intro known member other isItem
      rw [List.mem_singleton] at isItem
      subst isItem
      rintro rfl
      exact fresh member⟩

theorem nodup_gather (items : List Item) :
    ((grouping.gather items).map grouping.label).Nodup := by
  induction items using List.reverseRecOn with
  | nil => exact List.nodup_nil
  | append_singleton items item induction =>
      rw [gather_append_singleton]
      exact grouping.nodup_put induction

/-! ## Members -/

theorem mem_put {item : Item} {groups : List Group}
    (distinct : (groups.map grouping.label).Nodup) (group : Group) :
    group ∈ grouping.put item groups ↔
      (group ∈ groups ∧ grouping.label group ≠ grouping.keyOf item) ∨
      (∃ old ∈ groups, grouping.label old = grouping.keyOf item ∧
        group = grouping.add old item) ∨
      (grouping.keyOf item ∉ groups.map grouping.label ∧
        group = grouping.add (grouping.start item) item) := by
  induction groups with
  | nil => simp [put]
  | cons head rest induction =>
      rw [List.map_cons, List.nodup_cons] at distinct
      by_cases same : grouping.label head = grouping.keyOf item
      · have alone : ∀ other ∈ rest,
            grouping.label other ≠ grouping.keyOf item := by
          intro other member equal
          exact distinct.1 (List.mem_map.mpr ⟨other, member, by rw [equal, same]⟩)
        rw [put, if_pos same]
        constructor
        · intro member
          rcases List.mem_cons.mp member with rfl | inRest
          · exact .inr (.inl ⟨head, List.mem_cons_self, same, rfl⟩)
          · exact .inl ⟨List.mem_cons_of_mem _ inRest, alone group inRest⟩
        · rintro (⟨member, differs⟩ | ⟨old, member, equal, rfl⟩ | ⟨fresh, _⟩)
          · rcases List.mem_cons.mp member with rfl | inRest
            · exact absurd same differs
            · exact List.mem_cons_of_mem _ inRest
          · rcases List.mem_cons.mp member with rfl | inRest
            · exact List.mem_cons_self
            · exact absurd equal (alone old inRest)
          · exact absurd (List.mem_cons.mpr (.inl same.symm)) fresh
      · rw [put, if_neg same, List.mem_cons, induction distinct.2]
        simp only [List.mem_cons, List.map_cons, not_or, exists_eq_or_imp]
        constructor
        · rintro (rfl | ⟨member, differs⟩ | old | ⟨fresh, rfl⟩)
          · exact .inl ⟨.inl rfl, same⟩
          · exact .inl ⟨.inr member, differs⟩
          · exact .inr (.inl (.inr old))
          · exact .inr (.inr ⟨⟨Ne.symm same, fresh⟩, rfl⟩)
        · rintro (⟨rfl | member, differs⟩ | (⟨equal, _⟩ | old) |
            ⟨⟨_, fresh⟩, rfl⟩)
          · exact .inl rfl
          · exact .inr (.inl ⟨member, differs⟩)
          · exact absurd equal same
          · exact .inr (.inr (.inl old))
          · exact .inr (.inr (.inr ⟨fresh, rfl⟩))

theorem mem_labels_gather {items : List Item} {key : Key} :
    key ∈ (grouping.gather items).map grouping.label ↔
      ∃ item ∈ items, grouping.keyOf item = key := by
  induction items using List.reverseRecOn with
  | nil => simp
  | append_singleton items item induction =>
      rw [gather_append_singleton, labels_put]
      simp only [List.mem_append, List.mem_singleton, or_and_right,
        exists_or, exists_eq_left]
      split
      · rename_i known
        rw [induction]
        constructor
        · exact .inl
        · rintro (before | rfl)
          · exact before
          · exact induction.mp known
      · rw [List.mem_append, induction, List.mem_singleton, eq_comm (a := key)]

theorem mem_gather (items : List Item) (group : Group) :
    group ∈ grouping.gather items ↔
      ∃ first rest,
        items.filter (fun item =>
            decide (grouping.keyOf item = grouping.label group)) =
          first :: rest ∧
        group = grouping.collect first (first :: rest) := by
  induction items using List.reverseRecOn generalizing group with
  | nil => simp
  | append_singleton items item induction =>
      rw [gather_append_singleton,
        grouping.mem_put (grouping.nodup_gather items), List.filter_append]
      constructor
      · rintro (⟨member, differs⟩ | ⟨old, member, same, rfl⟩ | ⟨fresh, rfl⟩)
        · rcases (induction group).mp member with ⟨first, rest, ofKey, built⟩
          refine ⟨first, rest, ?_, built⟩
          rw [ofKey, List.filter_cons_of_neg (by simpa using Ne.symm differs)]
          simp
        · rcases (induction old).mp member with ⟨first, rest, ofKey, built⟩
          refine ⟨first, rest ++ [item], ?_, ?_⟩
          · rw [grouping.label_add, ofKey,
              List.filter_cons_of_pos (by simpa using same.symm)]
            simp
          · conv_lhs => rw [built]
            simp [collect]
        · refine ⟨item, [], ?_, by simp [collect]⟩
          rw [grouping.label_add, grouping.label_start,
            List.filter_cons_of_pos (by simp), List.filter_nil]
          have none : items.filter (fun other =>
              decide (grouping.keyOf other = grouping.keyOf item)) = [] := by
            rw [List.filter_eq_nil_iff]
            intro other member equal
            exact fresh (grouping.mem_labels_gather.mpr
              ⟨other, member, of_decide_eq_true equal⟩)
          rw [none, List.nil_append]
      · rintro ⟨first, rest, ofKey, built⟩
        by_cases same : grouping.keyOf item = grouping.label group
        · rw [List.filter_cons_of_pos (by simpa using same),
            List.filter_nil] at ofKey
          right
          cases before : items.filter (fun other =>
              decide (grouping.keyOf other = grouping.label group)) with
          | nil =>
              rw [before, List.nil_append, List.cons.injEq] at ofKey
              rcases ofKey with ⟨rfl, rfl⟩
              refine .inr ⟨?_, built⟩
              intro known
              rcases grouping.mem_labels_gather.mp known with
                ⟨other, member, equal⟩
              have present : other ∈ items.filter (fun other =>
                  decide (grouping.keyOf other = grouping.label group)) :=
                List.mem_filter.mpr
                  ⟨member, decide_eq_true (equal.trans same)⟩
              rw [before] at present
              exact List.not_mem_nil present
          | cons earlier more =>
              rw [before, List.cons_append, List.cons.injEq] at ofKey
              rcases ofKey with ⟨rfl, rfl⟩
              have labelled : grouping.keyOf earlier = grouping.label group := by
                have member : earlier ∈ items.filter (fun other =>
                    decide (grouping.keyOf other = grouping.label group)) :=
                  before ▸ List.mem_cons_self
                exact of_decide_eq_true (List.mem_filter.mp member).2
              refine .inl ⟨grouping.collect earlier (earlier :: more), ?_, ?_, ?_⟩
              · refine (induction _).mpr ⟨earlier, more, ?_, rfl⟩
                rw [grouping.label_collect, labelled, before]
              · rw [grouping.label_collect, labelled, same]
              · rw [built, ← List.cons_append]
                simp [collect]
        · left
          refine ⟨(induction group).mpr ⟨first, rest, ?_, built⟩, Ne.symm same⟩
          rwa [List.filter_cons_of_neg (by simpa using same), List.filter_nil,
            List.append_nil] at ofKey

/-! ## What the groups hold together -/

section Pieces

variable {Piece : Type*} (pieces : Group → List Piece) (piece : Item → Piece)
variable (fresh : ∀ item, pieces (grouping.start item) = [])
variable (grown : ∀ group item,
  pieces (grouping.add group item) = pieces group ++ [piece item])

include fresh grown

theorem pieces_put (item : Item) (groups : List Group) :
    ((grouping.put item groups).flatMap pieces).Perm
      (groups.flatMap pieces ++ [piece item]) := by
  induction groups with
  | nil => simp [put, grown, fresh]
  | cons group rest induction =>
      rw [put]
      split
      · rw [List.flatMap_cons, List.flatMap_cons, grown, List.append_assoc,
          List.append_assoc]
        exact List.perm_append_comm.append_left _
      · rw [List.flatMap_cons, List.flatMap_cons, List.append_assoc]
        exact induction.append_left _

theorem pieces_gather (items : List Item) :
    ((grouping.gather items).flatMap pieces).Perm (items.map piece) := by
  induction items using List.reverseRecOn with
  | nil => rfl
  | append_singleton items item induction =>
      rw [gather_append_singleton, List.map_append]
      exact (grouping.pieces_put pieces piece fresh grown item _).trans
        (induction.append_right _)

end Pieces

end Grouping
