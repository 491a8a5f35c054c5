import Mathlib.Data.List.AList
import Mathlib.Data.List.Induction

/-! Folding the items of a list onto the first item of their class.

Every item may have a key. The first item of a key becomes its representative;
each later item of the key that also compares equal to the representative is
recorded, under its label, as folded onto it. -/

namespace Representatives

variable {Item : Type*} {Key Label : Type*} [DecidableEq Key]
variable [DecidableEq Label]

structure State (Item Key Label : Type*) where
  canonical : AList (fun _ : Key => Item)
  folds : AList (fun _ : Label => Label)

def visit (key : Item → Option Key) (same : Item → Item → Bool)
    (label : Item → Label) (state : State Item Key Label) (item : Item) :
    State Item Key Label :=
  match key item with
  | none => state
  | some itemKey =>
      match state.canonical.lookup itemKey with
      | none =>
          { state with canonical := state.canonical.insert itemKey item }
      | some representative =>
          if same item representative then
            { state with
              folds := state.folds.insert (label item) (label representative) }
          else state

def run (key : Item → Option Key) (same : Item → Item → Bool)
    (label : Item → Label) (items : List Item) : State Item Key Label :=
  items.foldl (visit key same label) ⟨∅, ∅⟩

def first (key : Item → Option Key) (items : List Item) (chosen : Key) :
    Option Item :=
  items.find? fun item => key item = some chosen

structure Folded (key : Item → Option Key) (same : Item → Item → Bool)
    (items : List Item) (item representative : Item) : Prop where
  member : item ∈ items
  keyed : ∃ chosen, key item = some chosen ∧
    first key items chosen = some representative
  different : representative ≠ item
  equal : same item representative = true

variable {key : Item → Option Key} {same : Item → Item → Bool}
variable {label : Item → Label}

theorem first_mem {items : List Item} {chosen : Key} {item : Item}
    (found : first key items chosen = some item) : item ∈ items :=
  List.mem_of_find?_eq_some found

theorem key_of_first {items : List Item} {chosen : Key} {item : Item}
    (found : first key items chosen = some item) : key item = some chosen := by
  simpa using List.find?_some found

theorem first_snoc_of_some {items : List Item} {chosen : Key} {item : Item}
    (last : Item) (found : first key items chosen = some item) :
    first key (items ++ [last]) chosen = some item := by
  unfold first at *
  simp [List.find?_append, found]

theorem first_snoc_of_none {items : List Item} {chosen : Key}
    (last : Item) (missing : first key items chosen = none) :
    first key (items ++ [last]) chosen =
      if key last = some chosen then some last else none := by
  unfold first at *
  rw [List.find?_append, missing, Option.none_or]
  by_cases equal : key last = some chosen <;> simp [equal]

theorem run_snoc (items : List Item) (last : Item) :
    run key same label (items ++ [last]) =
      visit key same label (run key same label items) last := by
  simp [run]

theorem canonical_lookup (items : List Item) (chosen : Key) :
    (run key same label items).canonical.lookup chosen =
      first key items chosen := by
  induction items using List.reverseRecOn generalizing chosen with
  | nil => rfl
  | append_singleton items last induction =>
      rw [run_snoc, visit]
      cases keyed : key last with
      | none =>
          cases found : first key items chosen with
          | none => simp [first_snoc_of_none last found, keyed, induction, found]
          | some item => simp [first_snoc_of_some last found, induction, found]
      | some lastKey =>
          cases known : first key items lastKey with
          | none =>
              simp only [induction, known]
              by_cases equal : chosen = lastKey
              · subst equal
                simp [first_snoc_of_none last known, keyed]
              · rw [AList.lookup_insert_ne equal, induction]
                cases found : first key items chosen with
                | none =>
                    simp [first_snoc_of_none last found, keyed, Ne.symm equal]
                | some item => rw [first_snoc_of_some last found]
          | some representative =>
              have kept : first key (items ++ [last]) chosen =
                  first key items chosen := by
                cases found : first key items chosen with
                | some item => rw [first_snoc_of_some last found]
                | none =>
                    rw [first_snoc_of_none last found, if_neg]
                    intro equal
                    rw [keyed, Option.some.injEq] at equal
                    simp [equal, found] at known
              simp only [induction, known]
              split <;> simp [induction, kept]

theorem Folded.snoc {items : List Item} {item representative : Item}
    (folded : Folded key same items item representative) (last : Item) :
    Folded key same (items ++ [last]) item representative where
  member := List.mem_append_left _ folded.member
  keyed := by
    obtain ⟨chosen, keyed, found⟩ := folded.keyed
    exact ⟨chosen, keyed, first_snoc_of_some last found⟩
  different := folded.different
  equal := folded.equal

theorem Folded.of_snoc {items : List Item} {last item representative : Item}
    (folded : Folded key same (items ++ [last]) item representative)
    (old : item ∈ items) :
    Folded key same items item representative where
  member := old
  keyed := by
    obtain ⟨chosen, keyed, found⟩ := folded.keyed
    refine ⟨chosen, keyed, ?_⟩
    cases known : first key items chosen with
    | some other => rwa [first_snoc_of_some last known] at found
    | none =>
        have missing := List.find?_eq_none.mp known item old
        simp [keyed] at missing
  different := folded.different
  equal := folded.equal

theorem folded_of_lookup (items : List Item)
    (distinct : items.Nodup) {source target : Label}
    (recorded : (run key same label items).folds.lookup source = some target) :
    ∃ item representative, label item = source ∧
      label representative = target ∧
      Folded key same items item representative := by
  induction items using List.reverseRecOn with
  | nil => cases recorded
  | append_singleton items last induction =>
      have older : (run key same label items).folds.lookup source =
            some target →
          ∃ item representative, label item = source ∧
            label representative = target ∧
            Folded key same (items ++ [last]) item representative := by
        intro found
        obtain ⟨item, representative, source, target, folded⟩ :=
          induction (List.nodup_append.mp distinct).1 found
        exact ⟨item, representative, source, target, folded.snoc last⟩
      rw [run_snoc, visit] at recorded
      cases keyed : key last with
      | none => exact older (by simpa [keyed] using recorded)
      | some lastKey =>
          simp only [keyed, canonical_lookup] at recorded
          cases known : first key items lastKey with
          | none => exact older (by simpa [known] using recorded)
          | some representative =>
              simp only [known] at recorded
              cases equal : same last representative with
              | false => exact older (by simpa [equal] using recorded)
              | true =>
                  simp only [equal, if_true] at recorded
                  by_cases own : source = label last
                  · subst own
                    rw [AList.lookup_insert, Option.some.injEq] at recorded
                    refine ⟨last, representative, rfl, recorded, by simp,
                      ⟨lastKey, keyed, first_snoc_of_some last known⟩, ?_,
                      equal⟩
                    rintro rfl
                    have absent := (List.nodup_append.mp distinct).2.2
                    exact absent _ (first_mem known) _ (by simp) rfl
                  · rw [AList.lookup_insert_ne own] at recorded
                    exact older recorded

theorem lookup_of_folded {items : List Item}
    (distinct : (items.map label).Nodup) {item representative : Item}
    (folded : Folded key same items item representative) :
    (run key same label items).folds.lookup (label item) =
      some (label representative) := by
  induction items using List.reverseRecOn with
  | nil => cases folded.member
  | append_singleton items last induction =>
      rw [List.map_append, List.nodup_append] at distinct
      obtain ⟨distinctOld, -, fresh⟩ := distinct
      rw [run_snoc, visit]
      rcases List.mem_append.mp folded.member with old | new
      · have recorded := induction distinctOld (folded.of_snoc old)
        have other : label item ≠ label last :=
          fresh _ (List.mem_map_of_mem old) _ (by simp)
        split
        · exact recorded
        · split
          · exact recorded
          · split
            · rw [AList.lookup_insert_ne other, recorded]
            · exact recorded
      · obtain rfl : item = last := by simpa using new
        obtain ⟨chosen, keyed, found⟩ := folded.keyed
        have known : first key items chosen = some representative := by
          cases known : first key items chosen with
          | some other => rwa [first_snoc_of_some item known] at found
          | none =>
              rw [first_snoc_of_none item known, if_pos keyed,
                Option.some.injEq] at found
              exact absurd found.symm folded.different
        simp [keyed, canonical_lookup, known, folded.equal]

theorem representative_unfolded {items : List Item}
    (distinct : (items.map label).Nodup) {item representative : Item}
    (folded : Folded key same items item representative) :
    (run key same label items).folds.lookup (label representative) = none := by
  rcases folded.keyed with ⟨chosen, _, found⟩
  by_contra recorded
  rcases Option.ne_none_iff_exists'.mp recorded with ⟨target, isFolded⟩
  rcases folded_of_lookup items (List.Nodup.of_map _ distinct) isFolded with
    ⟨other, further, same, _, refolded⟩
  have equal : other = representative :=
    List.inj_on_of_nodup_map distinct refolded.member (first_mem found) same
  subst equal
  rcases refolded.keyed with ⟨again, keyed, foundAgain⟩
  rw [key_of_first found, Option.some.injEq] at keyed
  rw [← keyed, found, Option.some.injEq] at foundAgain
  exact refolded.different foundAgain.symm

end Representatives
