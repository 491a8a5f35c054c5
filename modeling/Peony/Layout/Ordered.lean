import Peony.Foundation.Pairwise
import Peony.Layout.Place

namespace Peony

/-! The ordered output sections are the groups of the input sections, by their
permissions, and sections without contributions. -/

namespace Builder

def keys (b : Builder) : List SectionKey :=
  b.contributions.map SectionContribution.key

/-- A section that nothing contributes to, outside the TLS block. -/
def Bare (b : Builder) : Prop := b.contributions = [] ∧ b.isTls = false

/-- `raised` is the section with an alignment that is a multiple of its own. -/
def RaisedTo (b raised : Builder) : Prop :=
  ∃ align, raised = { b with align := align } ∧
    (b.align.toNat.isPowerOfTwo →
      align.toNat.isPowerOfTwo ∧ b.align.toNat ∣ align.toNat)

theorem RaisedTo.refl (b : Builder) : b.RaisedTo b :=
  ⟨b.align, rfl, fun power => ⟨power, dvd_rfl⟩⟩

end Builder

/-! ## Sorting -/

theorem sortBy_perm {α : Type} (cmp : α → α → Ordering) (items : List α) :
    (sortBy cmp items).Perm items :=
  List.perm_insertionSort _ _

@[simp] theorem mem_sortBy {α : Type} {cmp : α → α → Ordering}
    {items : List α} {item : α} : item ∈ sortBy cmp items ↔ item ∈ items :=
  (sortBy_perm cmp items).mem_iff

@[simp] theorem mem_sortBuildersByScript {script : Option ScriptLayout}
    {builders : List Builder} {b : Builder} :
    b ∈ sortBuildersByScript script builders ↔ b ∈ builders :=
  mem_sortBy

/-! ## Permission classes -/

structure Builder.Selected (grouped : List Builder) (wanted : Builder → Bool)
    (found : List Builder) : Prop where
  has : ∀ b ∈ grouped, wanted b = true → b ∈ found
  only : ∀ b ∈ found, wanted b = true ∧ (b ∈ grouped ∨ b.Bare)

namespace Builder.Selected

variable {grouped found : List Builder} {wanted : Builder → Bool}

theorem append (selected : Builder.Selected grouped wanted found)
    {more : List Builder}
    (added : ∀ b ∈ more, wanted b = true ∧ b.Bare) :
    Builder.Selected grouped wanted (found ++ more) where
  has b isGroup isWanted := List.mem_append_left _ (selected.has b isGroup isWanted)
  only b present := by
    rcases List.mem_append.mp present with before | isNew
    · exact selected.only b before
    · exact ⟨(added b isNew).1, .inr (added b isNew).2⟩

theorem perm (selected : Builder.Selected grouped wanted found)
    {reordered : List Builder} (same : reordered.Perm found) :
    Builder.Selected grouped wanted reordered where
  has b isGroup isWanted := same.mem_iff.mpr (selected.has b isGroup isWanted)
  only b present := selected.only b (same.mem_iff.mp present)

theorem filter (grouped : List Builder) (wanted : Builder → Bool) :
    Builder.Selected grouped wanted (grouped.filter wanted) where
  has _ isGroup isWanted := List.mem_filter.mpr ⟨isGroup, isWanted⟩
  only _ present :=
    ⟨(List.mem_filter.mp present).2, .inl (List.mem_filter.mp present).1⟩

end Builder.Selected

namespace Builders

def all (builders : Builders) : List Builder :=
  builders.ro ++ builders.rx ++ (builders.rwPb ++ builders.rwBss)

/-- The sections of each class, with every group in one of them. -/
structure Classified (grouped : List Builder) (builders : Builders) : Prop where
  ro : Builder.Selected grouped (fun b => b.perm == .ro) builders.ro
  rx : Builder.Selected grouped (fun b => b.perm == .rx) builders.rx
  rwPb : Builder.Selected grouped (fun b => b.perm == .rw && !b.isNobits)
    builders.rwPb
  rwBss : Builder.Selected grouped (fun b => b.perm == .rw && b.isNobits)
    builders.rwBss
  keys : (builders.all.flatMap Builder.keys).Perm (grouped.flatMap Builder.keys)

end Builders

private theorem buckets_perm (grouped : List Builder) :
    (grouped.filter (fun b => b.perm == .ro) ++
      grouped.filter (fun b => b.perm == .rx) ++
      (grouped.filter (fun b => b.perm == .rw && !b.isNobits) ++
        grouped.filter (fun b => b.perm == .rw && b.isNobits))).Perm grouped := by
  induction grouped with
  | nil => rfl
  | cons b rest induction =>
      cases isPerm : b.perm with
      | ro => simpa [isPerm] using induction
      | rx =>
          simp only [isPerm, List.filter_cons, reduceCtorEq, beq_iff_eq, if_true,
            if_false, List.append_assoc, List.cons_append] at induction ⊢
          exact List.perm_middle.trans (induction.cons b)
      | rw =>
          cases isNobits : b.isNobits with
          | false =>
              simp only [isPerm, isNobits, List.filter_cons, reduceCtorEq,
                beq_iff_eq, beq_self_eq_true, Bool.true_and, Bool.not_false,
                if_true, if_false, Bool.false_eq_true, List.cons_append]
                at induction ⊢
              exact List.perm_middle.trans (induction.cons b)
          | true =>
              simp only [isPerm, isNobits, List.filter_cons, reduceCtorEq,
                beq_iff_eq, beq_self_eq_true, Bool.true_and, Bool.not_true,
                if_true, if_false, Bool.false_eq_true, ← List.append_assoc]
                at induction ⊢
              exact List.perm_middle.trans (induction.cons b)

theorem classified_bucket (grouped : List Builder) :
    (bucket grouped).Classified grouped where
  ro := (Builder.Selected.filter _ _).perm (sortBy_perm _ _)
  rx := (Builder.Selected.filter _ _).perm (sortBy_perm _ _)
  rwPb := (Builder.Selected.filter _ _).perm (sortBy_perm _ _)
  rwBss := (Builder.Selected.filter _ _).perm (sortBy_perm _ _)
  keys := by
    refine List.Perm.flatMap_right _ (List.Perm.trans ?_ (buckets_perm grouped))
    exact ((sortBy_perm _ _).append (sortBy_perm _ _)).append
      ((sortBy_perm _ _).append (sortBy_perm _ _))

/-! ## Sections the linker adds -/

namespace Builder.Selected

variable {grouped found : List Builder} {wanted : Builder → Bool}
  {condition : Prop} [Decidable condition] {made : Builder}

theorem appendIf (selected : Builder.Selected grouped wanted found)
    (isWanted : wanted made = true) (bare : made.Bare) :
    Builder.Selected grouped wanted
      (found ++ if condition then [made] else []) := by
  refine selected.append fun b present => ?_
  split at present
  · rw [List.mem_singleton.mp present]
    exact ⟨isWanted, bare⟩
  · exact absurd present List.not_mem_nil

theorem appendUnless (selected : Builder.Selected grouped wanted found)
    (isWanted : wanted made = true) (bare : made.Bare) :
    Builder.Selected grouped wanted
      (found ++ if condition then [] else [made]) := by
  rw [← ite_not]
  exact selected.appendIf isWanted bare

end Builder.Selected

private theorem keys_bare {builders : List Builder}
    (bare : ∀ b ∈ builders, b.Bare) :
    builders.flatMap Builder.keys = [] := by
  rw [List.flatMap_eq_nil_iff]
  intro b present
  rw [Builder.keys, (bare b present).1, List.map_nil]

namespace LayoutInput

variable (input : LayoutInput) {grouped : List Builder} {found : Builders}

theorem roDyn_bare (pre : DynPrebuild) (dynj : DynamicInfo) :
    ∀ b ∈ input.roDyn pre dynj, b.perm = .ro ∧ b.Bare := by
  intro b present
  simp only [roDyn, List.mem_cons, List.not_mem_nil, or_false] at present
  rcases present with rfl | rfl | rfl | rfl | rfl | rfl | rfl | rfl <;>
    exact ⟨rfl, rfl, rfl⟩

theorem classified_synthesize (classified : found.Classified grouped) :
    (input.synthesize found).Classified grouped where
  ro := ((classified.ro.appendUnless rfl ⟨rfl, rfl⟩).appendIf rfl
    ⟨rfl, rfl⟩).appendUnless rfl ⟨rfl, rfl⟩
  rx := classified.rx
  rwPb := classified.rwPb.appendIf rfl ⟨rfl, rfl⟩
  rwBss := classified.rwBss.appendIf rfl ⟨rfl, rfl⟩
  keys := by
    have same : (input.synthesize found).all.flatMap Builder.keys =
        found.all.flatMap Builder.keys := by
      simp [Builders.all, synthesize, apply_ite (List.flatMap Builder.keys),
        Builder.keys, Builder.readOnly, Builder.writable, Builder.synthesized]
    rw [same]
    exact classified.keys

theorem classified_synthesizeDynamic (pre : DynPrebuild)
    (classified : found.Classified grouped) :
    (input.synthesizeDynamic pre found).Classified grouped := by
  unfold synthesizeDynamic
  split
  · exact classified
  · rename_i dynj _
    have bareRo : ∀ b ∈ (input.roDyn pre dynj).filter fun b => b.size != 0,
        b.perm = .ro ∧ b.Bare := fun b present =>
      input.roDyn_bare pre dynj b (List.mem_filter.mp present).1
    exact {
      ro := (classified.ro.append fun b present =>
        ⟨beq_iff_eq.mpr (bareRo b present).1, (bareRo b present).2⟩).appendIf
          rfl ⟨rfl, rfl⟩
      rx := classified.rx.appendIf rfl ⟨rfl, rfl⟩
      rwPb := (classified.rwPb.appendIf rfl ⟨rfl, rfl⟩).append fun b present => by
        rw [List.mem_singleton] at present
        subst present
        exact ⟨rfl, rfl, rfl⟩
      rwBss := classified.rwBss
      keys := by
        have none := keys_bare fun b present => (bareRo b present).2
        refine List.Perm.trans (List.Perm.of_eq ?_) classified.keys
        simp [Builders.all, none, apply_ite (List.flatMap Builder.keys),
          Builder.keys, Builder.readOnly, Builder.writable,
          Builder.synthesized] }

theorem classified_scriptOrder (classified : found.Classified grouped) :
    (input.scriptOrder found).Classified grouped where
  ro := classified.ro.perm (sortBy_perm _ _)
  rx := classified.rx.perm (sortBy_perm _ _)
  rwPb := classified.rwPb.perm (sortBy_perm _ _)
  rwBss := classified.rwBss.perm (sortBy_perm _ _)
  keys := by
    refine List.Perm.trans (List.Perm.flatMap_right _ ?_) classified.keys
    exact ((sortBy_perm _ _).append (sortBy_perm _ _)).append
      ((sortBy_perm _ _).append (sortBy_perm _ _))

theorem classified_ordered (pre : DynPrebuild) (grouped : List Builder) :
    (input.orderedBuilders pre grouped).Classified grouped :=
  input.classified_scriptOrder (input.classified_synthesizeDynamic pre
    (input.classified_synthesize (classified_bucket grouped)))

end LayoutInput

/-! ## The writable sections -/

private theorem raiseFirst_forall₂ (raises : Builder → Bool) {align : UInt64}
    (power : align.toNat.isPowerOfTwo) (builders : List Builder) :
    List.Forall₂ Builder.RaisedTo builders (raiseFirst raises align builders) := by
  induction builders with
  | nil => exact .nil
  | cons b rest induction =>
      rw [raiseFirst]
      split
      · refine .cons ⟨max b.align align, rfl, fun own => ?_⟩
          (List.forall₂_same.mpr fun other _ => Builder.RaisedTo.refl other)
        rw [toNat_max]
        have grown := Alignment.isPowerOfTwo_max own power
        exact ⟨grown, Alignment.dvd_of_le own grown (le_max_left _ _)⟩
      · exact .cons (Builder.RaisedTo.refl b) induction

private theorem foldl_max_power (builders : List Builder) (align : UInt64)
    (power : align.toNat.isPowerOfTwo)
    (powers : ∀ b ∈ builders, b.align.toNat.isPowerOfTwo) :
    (builders.foldl (fun align b => max align b.align) align).toNat.isPowerOfTwo := by
  induction builders generalizing align with
  | nil => exact power
  | cons b rest induction =>
      rw [List.foldl_cons]
      refine induction _ ?_ fun other present =>
        powers other (List.mem_cons_of_mem _ present)
      rw [toNat_max]
      exact Alignment.isPowerOfTwo_max power (powers b List.mem_cons_self)

theorem maxTlsAlign_power {builders : Builders}
    (powers : ∀ b ∈ builders.rwPb ++ builders.rwBss, b.isTls = true →
      b.align.toNat.isPowerOfTwo) :
    (maxTlsAlign builders).toNat.isPowerOfTwo := by
  refine foldl_max_power _ 1 ⟨0, rfl⟩ fun b present => ?_
  rcases List.mem_filter.mp present with ⟨isBuilder, isTls⟩
  exact powers b isBuilder isTls

section Raised

variable {builders : Builders}
variable (powers : ∀ b ∈ builders.rwPb ++ builders.rwBss, b.isTls = true →
  b.align.toNat.isPowerOfTwo)

include powers

theorem relroOrder_raised :
    List.Forall₂ Builder.RaisedTo
        (sortBy Builder.compareRelro builders.rwPb) (relroOrder builders).rwPb ∧
      List.Forall₂ Builder.RaisedTo
        (sortBy Builder.compareTbss builders.rwBss)
        (relroOrder builders).rwBss := by
  have unchanged (sections : List Builder) :
      List.Forall₂ Builder.RaisedTo sections sections :=
    List.forall₂_same.mpr fun b _ => Builder.RaisedTo.refl b
  have power := @maxTlsAlign_power { builders with
    rwPb := sortBy Builder.compareRelro builders.rwPb
    rwBss := sortBy Builder.compareTbss builders.rwBss } fun b present =>
      powers b (((sortBy_perm _ _).append (sortBy_perm _ _)).mem_iff.mp present)
  unfold relroOrder
  simp only
  split
  · split
    · refine ⟨?_, unchanged _⟩
      rw [← List.forall₂_reverse_iff, List.reverse_reverse]
      exact raiseFirst_forall₂ _ power _
    · exact ⟨unchanged _, raiseFirst_forall₂ _ power _⟩
  · exact ⟨unchanged _, unchanged _⟩

end Raised

@[simp] theorem relroOrder_ro (builders : Builders) :
    (relroOrder builders).ro = builders.ro := by
  unfold relroOrder
  simp only
  split
  · split <;> rfl
  · rfl

@[simp] theorem relroOrder_rx (builders : Builders) :
    (relroOrder builders).rx = builders.rx := by
  unfold relroOrder
  simp only
  split
  · split <;> rfl
  · rfl

private theorem keys_raised {sections raised : List Builder}
    (pairs : List.Forall₂ Builder.RaisedTo sections raised) :
    raised.flatMap Builder.keys = sections.flatMap Builder.keys := by
  induction pairs with
  | nil => rfl
  | cons isRaised _ induction =>
      rcases isRaised with ⟨align, rfl, _⟩
      rw [List.flatMap_cons, List.flatMap_cons, induction]
      rfl

namespace Builders.Classified

variable {grouped : List Builder} {builders : Builders}
variable (classified : builders.Classified grouped)
variable (aligned : ∀ b ∈ grouped, b.align.toNat.isPowerOfTwo)

include classified

theorem tls_powers (aligned : ∀ b ∈ grouped, b.align.toNat.isPowerOfTwo) :
    ∀ b ∈ builders.rwPb ++ builders.rwBss, b.isTls = true →
      b.align.toNat.isPowerOfTwo := by
  intro b present isTls
  have origin : b ∈ grouped ∨ b.Bare := by
    rcases List.mem_append.mp present with inPb | inBss
    · exact (classified.rwPb.only b inPb).2
    · exact (classified.rwBss.only b inBss).2
  rcases origin with isGroup | bare
  · exact aligned b isGroup
  · rw [bare.2] at isTls
    exact nomatch isTls

include aligned

/-- The keys of all contributions survive the last sort. -/
theorem keys_relroOrder :
    ((relroOrder builders).all.flatMap Builder.keys).Perm
      (grouped.flatMap Builder.keys) := by
  rcases relroOrder_raised (classified.tls_powers aligned) with ⟨rwPb, rwBss⟩
  refine List.Perm.trans ?_ classified.keys
  simp only [Builders.all, relroOrder_ro, relroOrder_rx, List.flatMap_append,
    keys_raised rwPb, keys_raised rwBss]
  exact (List.Perm.refl _).append
    ((List.Perm.flatMap_right _ (sortBy_perm _ _)).append
      (List.Perm.flatMap_right _ (sortBy_perm _ _)))

theorem exists_placed {b : Builder} (isGroup : b ∈ grouped) :
    ∃ b' ∈ (relroOrder builders).all, b.RaisedTo b' := by
  rcases relroOrder_raised (classified.tls_powers aligned) with ⟨rwPb, rwBss⟩
  cases isPerm : b.perm with
  | ro =>
      refine ⟨b, ?_, Builder.RaisedTo.refl b⟩
      have present := classified.ro.has b isGroup (by rw [isPerm]; rfl)
      simp [Builders.all, present]
  | rx =>
      refine ⟨b, ?_, Builder.RaisedTo.refl b⟩
      have present := classified.rx.has b isGroup (by rw [isPerm]; rfl)
      simp [Builders.all, present]
  | rw =>
      cases isNobits : b.isNobits with
      | false =>
          have present := classified.rwPb.has b isGroup
            (by rw [isPerm, isNobits]; rfl)
          rcases Pairwise.exists_right rwPb (mem_sortBy.mpr present) with
            ⟨b', isMember, raises⟩
          exact ⟨b', by simp [Builders.all, isMember], raises⟩
      | true =>
          have present := classified.rwBss.has b isGroup
            (by rw [isPerm, isNobits]; rfl)
          rcases Pairwise.exists_right rwBss (mem_sortBy.mpr present) with
            ⟨b', isMember, raises⟩
          exact ⟨b', by simp [Builders.all, isMember], raises⟩

theorem exists_origin {raised : Builder}
    (isPlaced : raised ∈ (relroOrder builders).all) :
    ∃ b, (b ∈ grouped ∨ b.Bare) ∧ b.RaisedTo raised := by
  rcases relroOrder_raised (classified.tls_powers aligned) with ⟨rwPb, rwBss⟩
  simp only [Builders.all, relroOrder_ro, relroOrder_rx, List.mem_append]
    at isPlaced
  rcases isPlaced with (inRo | inRx) | (inPb | inBss)
  · exact ⟨raised, (classified.ro.only raised inRo).2,
      Builder.RaisedTo.refl raised⟩
  · exact ⟨raised, (classified.rx.only raised inRx).2,
      Builder.RaisedTo.refl raised⟩
  · rcases Pairwise.exists_left rwPb inPb with ⟨b, isMember, raises⟩
    exact ⟨b, (classified.rwPb.only b (mem_sortBy.mp isMember)).2, raises⟩
  · rcases Pairwise.exists_left rwBss inBss with ⟨b, isMember, raises⟩
    exact ⟨b, (classified.rwBss.only b (mem_sortBy.mp isMember)).2, raises⟩

end Builders.Classified

end Peony
