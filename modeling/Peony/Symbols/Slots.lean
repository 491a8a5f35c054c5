import Peony.Symbols.Precedence

namespace Peony

/-! The entry of one name as a machine with four states. It forgets ids and
addresses and keeps what decides the next merge: which contribution holds the
name, and whether it took over from a tentative definition. -/

inductive Slot where
  | absent
  | undefined (binding : Binding)
  /-- Held by the first tentative definition; the sizes are those merged. -/
  | tentative (first : Contribution) (size align : UInt64)
  /-- Held by a real definition. `overTentative` records that it replaced a
  tentative one. -/
  | definite (holder : Contribution) (overTentative : Bool)

namespace Slot

def mergeReference (next : Contribution) : Slot → Slot
  | .absent => .undefined next.symbol.binding
  | .undefined binding =>
      .undefined (if next.strong then .global else binding)
  | held => held

def mergeTentative (next : Contribution) : Slot → Slot
  | .tentative first size align =>
      .tentative first (max next.symbol.size size) (max next.align align)
  | .definite holder replaces => .definite holder replaces
  | _ => .tentative next next.symbol.size next.align

/-- `none` is the duplicate symbol error. -/
def mergeReal (next : Contribution) : Slot → Option Slot
  | .tentative _ _ _ => some (.definite next true)
  | .definite holder replaces =>
      if !next.strong then some (.definite holder replaces)
      else if holder.strong then none
      else some (.definite next false)
  | _ => some (.definite next false)

def merge (slot : Slot) (next : Contribution) : Option Slot :=
  if next.isReference then some (slot.mergeReference next)
  else if next.isTentative then some (slot.mergeTentative next)
  else slot.mergeReal next

def run (contributions : List Contribution) : Option Slot :=
  contributions.foldlM merge .absent

/-- What the table records for a slot. A tentative entry has no symbol type and
no visibility, and the IFUNC mark of a real definition is lost when it takes
over from a tentative one. -/
def outcome : Slot → Option Outcome
  | .absent => none
  | .undefined binding => some (Precedence.undefinedOutcome binding)
  | .tentative first size align =>
      some { Precedence.tentativeOutcome first size align with
        visibility := 0
        stType := 0
        isIfunc := false }
  | .definite holder replaces =>
      some { Precedence.realOutcome holder with
        isIfunc := holder.symbol.isIfunc && !replaces }

@[simp] theorem run_nil : run [] = some .absent := rfl

theorem run_snoc (contributions : List Contribution) (last : Contribution) :
    run (contributions ++ [last]) =
      (run contributions).bind fun slot => slot.merge last := by
  simp only [run, List.foldlM_append, List.foldlM_cons, List.foldlM_nil]
  cases List.foldlM merge Slot.absent contributions with
  | none => rfl
  | some slot =>
      cases merged : slot.merge last <;> simp [merged]

end Slot

/-! ## What a slot says about the contributions merged into it -/

namespace Precedence

/-- A tentative definition comes before every real one. -/
def tentativeFirst (contributions : List Contribution) : Bool :=
  (contributions.takeWhile fun contribution => !contribution.isReal).any
    Contribution.isTentative

/-- The first real definition comes after a tentative one and no strong
definition takes the name from it later. -/
def overridesTentative (contributions : List Contribution) : Bool :=
  match reals contributions with
  | [] => false
  | first :: rest =>
      tentativeFirst contributions &&
        (first.strong || !rest.any Contribution.strong)

private theorem takeWhile_snoc_of_all {α : Type*} (keep : α → Bool)
    (values : List α) (last : α) (all : ∀ value ∈ values, keep value = true) :
    (values ++ [last]).takeWhile keep =
      values ++ [last].takeWhile keep := by
  rw [List.takeWhile_append_of_pos all]

private theorem takeWhile_snoc_of_exists {α : Type*} (keep : α → Bool)
    (values : List α) (last : α)
    (stops : ∃ value ∈ values, keep value = false) :
    (values ++ [last]).takeWhile keep = values.takeWhile keep := by
  induction values with
  | nil => simp at stops
  | cons head tail induction =>
      cases kept : keep head with
      | false => simp [kept]
      | true =>
          have tailStops : ∃ value ∈ tail, keep value = false := by
            obtain ⟨value, member, stop⟩ := stops
            rcases List.mem_cons.mp member with equal | member
            · simp [equal, kept] at stop
            · exact ⟨value, member, stop⟩
          simpa [kept] using induction tailStops

theorem tentativeFirst_snoc_of_reals {contributions : List Contribution}
    (someReals : reals contributions ≠ []) (last : Contribution) :
    tentativeFirst (contributions ++ [last]) =
      tentativeFirst contributions := by
  obtain ⟨real, member⟩ := List.exists_mem_of_ne_nil _ someReals
  rw [reals, List.mem_filter] at member
  rw [tentativeFirst, takeWhile_snoc_of_exists _ _ _
    ⟨real, member.1, by simp [member.2]⟩, tentativeFirst]

theorem tentativeFirst_snoc_real_of_reals_nil
    {contributions : List Contribution}
    (noReals : reals contributions = []) {last : Contribution}
    (real : last.isReal = true) :
    tentativeFirst (contributions ++ [last]) =
      contributions.any Contribution.isTentative := by
  have all : ∀ contribution ∈ contributions,
      (!contribution.isReal) = true := by
    intro contribution member
    simpa [reals] using List.filter_eq_nil_iff.mp noReals contribution member
  rw [tentativeFirst, takeWhile_snoc_of_all _ _ _ all]
  simp [real]

/-- The contributions a slot in this state stands for. -/
def Describes (contributions : List Contribution) : Slot → Prop
  | .absent => contributions = []
  | .undefined binding =>
      contributions ≠ [] ∧ definitions contributions = [] ∧
        binding = strongest contributions
  | .tentative first size align =>
      reals contributions = [] ∧
        (tentatives contributions).head? = some first ∧
        size = maxSize contributions ∧ align = maxAlign contributions
  | .definite holder replaces =>
      winner contributions = some holder ∧ holder.isReal = true ∧
        (reals contributions).countP Contribution.strong =
          (if holder.strong then 1 else 0) ∧
        replaces = overridesTentative contributions

theorem reals_eq_nil_of_definitions {contributions : List Contribution}
    (noDefinitions : definitions contributions = []) :
    reals contributions = [] := by
  rw [reals, List.filter_eq_nil_iff]
  intro contribution member real
  have defined : contribution ∈ definitions contributions :=
    mem_definitions.mpr ⟨member, .inl real⟩
  simp [noDefinitions] at defined

theorem tentatives_eq_nil_of_definitions {contributions : List Contribution}
    (noDefinitions : definitions contributions = []) :
    tentatives contributions = [] := by
  rw [← definitions_eq_tentatives (reals_eq_nil_of_definitions noDefinitions),
    noDefinitions]

/-- Only a slot held by a strong definition counts one. -/
theorem Describes.not_duplicate {contributions : List Contribution}
    {slot : Slot} (described : Describes contributions slot) :
    ¬ Duplicate contributions := by
  unfold Duplicate
  cases slot with
  | absent =>
      rw [show contributions = [] from described]
      simp [reals]
  | undefined binding =>
      simp [reals_eq_nil_of_definitions described.2.1]
  | tentative first size align => simp [described.1]
  | definite holder replaces =>
      rw [described.2.2.1]
      split <;> omega

section Merge

variable {contributions : List Contribution} {slot : Slot} {last : Contribution}

private theorem flags_of_reference (reference : last.isReference = true) :
    last.isReal = false ∧ last.isTentative = false := by
  simp_all [Contribution.isReference, Contribution.isReal,
    Contribution.isTentative]

private theorem flags_of_tentative (tentative : last.isTentative = true) :
    last.isReal = false ∧ last.isReference = false := by
  simp_all [Contribution.isReference, Contribution.isReal,
    Contribution.isTentative]

private theorem flags_of_real (real : last.isReal = true) :
    last.isTentative = false ∧ last.isReference = false := by
  simp_all [Contribution.isReference, Contribution.isReal,
    Contribution.isTentative]

theorem winner_snoc_of_reference (reference : last.isReference = true) :
    winner (contributions ++ [last]) = winner contributions := by
  simp [winner, definitions_snoc, reference]

theorem winner_snoc_of_definition (definition : last.isReference = false) :
    winner (contributions ++ [last]) =
      match winner contributions with
      | none => some last
      | some holder =>
          if holder.rank < last.rank then some last else some holder := by
  simp only [winner, definitions_snoc, definition, Bool.false_eq_true,
    if_false, List.argmax_concat]
  cases List.argmax Contribution.rank (definitions contributions) <;> rfl

theorem overridesTentative_snoc_of_not_real (notReal : last.isReal = false)
    (someReals : reals contributions ≠ []) :
    overridesTentative (contributions ++ [last]) =
      overridesTentative contributions := by
  simp only [overridesTentative, reals_snoc, notReal, Bool.false_eq_true,
    if_false, tentativeFirst_snoc_of_reals someReals]

theorem reals_ne_nil_of_winner {holder : Contribution}
    (won : winner contributions = some holder)
    (real : holder.isReal = true) : reals contributions ≠ [] := by
  have member := (mem_definitions.mp (List.argmax_mem won)).1
  exact List.ne_nil_of_mem (List.mem_filter.mpr ⟨member, real⟩)

/-- A reference only ever strengthens the binding of an undefined name. -/
theorem describes_mergeReference (described : Describes contributions slot)
    (reference : last.isReference = true) :
    Describes (contributions ++ [last]) (slot.mergeReference last) := by
  obtain ⟨notReal, notTentative⟩ := flags_of_reference reference
  cases slot with
  | absent =>
      rw [show contributions = [] from described]
      refine ⟨by simp, by simp [definitions, reference], ?_⟩
      cases strong : last.strong with
      | true => simp [strongest, strong, Contribution.binding_of_strong strong]
      | false =>
          simp [strongest, strong, Contribution.binding_of_not_strong strong]
  | undefined binding =>
      obtain ⟨-, noDefinitions, equal⟩ := described
      refine ⟨by simp, by simp [definitions_snoc, reference, noDefinitions], ?_⟩
      rw [strongest_snoc, equal]
  | tentative first size align =>
      simpa [Describes, Slot.mergeReference, reals_snoc, tentatives_snoc,
        maxSize_snoc, maxAlign_snoc, notReal, notTentative] using described
  | definite holder replaces =>
      obtain ⟨won, real, count, overEqual⟩ := described
      refine ⟨by rw [winner_snoc_of_reference reference, won], real,
        by simp [reals_snoc, notReal, count], ?_⟩
      rw [overridesTentative_snoc_of_not_real notReal
        (reals_ne_nil_of_winner won real), overEqual]

private theorem rank_lt_of_real {holder : Contribution}
    (real : holder.isReal = true) (tentative : last.isTentative = true) :
    last.rank < holder.rank := by
  have notReal := Contribution.isReal_eq_false_of_isTentative tentative
  simp only [Contribution.rank, real, notReal, if_true, Bool.false_eq_true,
    if_false]
  split <;> split <;> omega

private theorem max_zero (value : UInt64) : max value 0 = value := by
  change (if value ≤ 0 then 0 else value) = value
  split
  · next least => exact (UInt64.le_zero_iff.mp least).symm
  · rfl

theorem describes_first_tentative (noReals : reals contributions = [])
    (noTentatives : tentatives contributions = [])
    (tentative : last.isTentative = true) :
    Describes (contributions ++ [last])
      (.tentative last last.symbol.size last.align) := by
  obtain ⟨notReal, -⟩ := flags_of_tentative tentative
  refine ⟨by simp [reals_snoc, notReal, noReals],
    by simp [tentatives_snoc, tentative, noTentatives], ?_, ?_⟩
  · rw [maxSize_snoc, if_pos tentative, maxSize, noTentatives]
    exact (max_zero _).symm
  · rw [maxAlign_snoc, if_pos tentative, maxAlign, noTentatives]
    exact (max_zero _).symm

theorem describes_mergeTentative (described : Describes contributions slot)
    (tentative : last.isTentative = true) :
    Describes (contributions ++ [last]) (slot.mergeTentative last) := by
  obtain ⟨notReal, notReference⟩ := flags_of_tentative tentative
  cases slot with
  | absent =>
      have empty : contributions = [] := described
      exact describes_first_tentative (by simp [empty, reals])
        (by simp [empty, tentatives]) tentative
  | undefined binding =>
      exact describes_first_tentative
        (reals_eq_nil_of_definitions described.2.1)
        (tentatives_eq_nil_of_definitions described.2.1) tentative
  | tentative first size align =>
      obtain ⟨noReals, head, sizeEqual, alignEqual⟩ := described
      refine ⟨by simp [reals_snoc, notReal, noReals], ?_, ?_, ?_⟩
      · simp [tentatives_snoc, tentative, List.head?_append, head]
      · simp [maxSize_snoc, tentative, sizeEqual]
      · simp [maxAlign_snoc, tentative, alignEqual]
  | definite holder replaces =>
      obtain ⟨won, real, count, overEqual⟩ := described
      refine ⟨?_, real, by simp [reals_snoc, notReal, count], ?_⟩
      · have lower := rank_lt_of_real real tentative
        simp [winner_snoc_of_definition notReference, won, lower.not_gt]
      · rw [overridesTentative_snoc_of_not_real notReal
          (reals_ne_nil_of_winner won real), overEqual]

/-- The first real definition wins over whatever came before it. -/
theorem describes_first_real (noReals : reals contributions = [])
    (real : last.isReal = true) :
    Describes (contributions ++ [last])
      (.definite last (contributions.any Contribution.isTentative)) := by
  obtain ⟨-, notReference⟩ := flags_of_real real
  refine ⟨?_, real, ?_, ?_⟩
  · rw [winner_snoc_of_definition notReference]
    cases won : winner contributions with
    | none => rfl
    | some holder =>
        have holderTentative : holder.isTentative = true := by
          have member := List.argmax_mem won
          rw [definitions_eq_tentatives noReals] at member
          exact (List.mem_filter.mp member).2
        simp [rank_lt_of_real real holderTentative]
  · cases strong : last.strong <;> simp [reals_snoc, real, noReals, strong]
  · simp [overridesTentative, reals_snoc, real, noReals,
      tentativeFirst_snoc_real_of_reals_nil noReals real]

private theorem rank_of_real {contribution : Contribution}
    (real : contribution.isReal = true) :
    contribution.rank = 2 + if contribution.strong then 1 else 0 := by
  simp [Contribution.rank, real]

/-- A second strong real definition is the error; a second weak one changes
nothing; a strong one takes the name from a weak holder. -/
theorem describes_mergeReal (described : Describes contributions slot)
    (real : last.isReal = true) :
    match slot.mergeReal last with
    | none => Duplicate (contributions ++ [last])
    | some next => Describes (contributions ++ [last]) next := by
  obtain ⟨notTentative, notReference⟩ := flags_of_real real
  cases slot with
  | absent =>
      have empty : contributions = [] := described
      subst empty
      have first := @describes_first_real [] last rfl real
      simpa [Slot.mergeReal] using first
  | undefined binding =>
      have noTentatives := tentatives_eq_nil_of_definitions described.2.1
      have none : contributions.any Contribution.isTentative = false := by
        simpa [tentatives] using noTentatives
      simpa [Slot.mergeReal, none] using
        describes_first_real (reals_eq_nil_of_definitions described.2.1) real
  | tentative first size align =>
      obtain ⟨noReals, head, -⟩ := described
      have member : first ∈ tentatives contributions :=
        List.mem_of_mem_head? head
      have some : contributions.any Contribution.isTentative = true := by
        rw [tentatives, List.mem_filter] at member
        exact List.any_eq_true.mpr ⟨first, member⟩
      simpa [Slot.mergeReal, some] using describes_first_real noReals real
  | definite holder replaces =>
      obtain ⟨won, holderReal, count, overEqual⟩ := described
      have someReals := reals_ne_nil_of_winner won holderReal
      obtain ⟨first, rest, shape⟩ := List.exists_cons_of_ne_nil someReals
      cases lastStrong : last.strong with
      | false =>
          simp only [Slot.mergeReal, lastStrong, Bool.not_false, if_true]
          refine ⟨?_, holderReal, ?_, ?_⟩
          · have notHigher : ¬ holder.rank < last.rank := by
              rw [rank_of_real real, rank_of_real holderReal, lastStrong,
                if_neg Bool.false_ne_true]
              omega
            simp [winner_snoc_of_definition notReference, won, notHigher]
          · simp [reals_snoc, real, lastStrong, count]
          · simp [overEqual, overridesTentative, reals_snoc, real, shape,
              lastStrong, tentativeFirst_snoc_of_reals someReals]
      | true =>
          cases holderStrong : holder.strong with
          | true =>
              simp [Slot.mergeReal, lastStrong, holderStrong, Duplicate,
                reals_snoc, real, count]
          | false =>
              simp only [Slot.mergeReal, lastStrong, holderStrong,
                Bool.not_true, Bool.false_eq_true, if_false]
              have noStrong : (reals contributions).countP
                  Contribution.strong = 0 := by
                simpa [holderStrong] using count
              have firstWeak : first.strong = false := by
                rw [List.countP_eq_zero] at noStrong
                simpa using noStrong first (by simp [shape])
              refine ⟨?_, real, ?_, ?_⟩
              · have higher : holder.rank < last.rank := by
                  rw [rank_of_real real, rank_of_real holderReal, lastStrong,
                    holderStrong]
                  decide
                simp [winner_snoc_of_definition notReference, won, higher]
              · simp [reals_snoc, real, lastStrong, noStrong]
              · simp [overridesTentative, reals_snoc, real, shape, firstWeak,
                  lastStrong]

theorem describes_merge (described : Describes contributions slot) :
    match slot.merge last with
    | none => Duplicate (contributions ++ [last])
    | some next => Describes (contributions ++ [last]) next := by
  unfold Slot.merge
  cases reference : last.isReference with
  | true => exact describes_mergeReference described reference
  | false =>
      cases tentative : last.isTentative with
      | true => exact describes_mergeTentative described tentative
      | false =>
          have real : last.isReal = true := by
            simp_all [Contribution.isReference, Contribution.isTentative,
              Contribution.isReal]
          simpa using describes_mergeReal described real

end Merge

theorem Duplicate.snoc {contributions : List Contribution}
    (duplicate : Duplicate contributions) (last : Contribution) :
    Duplicate (contributions ++ [last]) := by
  unfold Duplicate at *
  rw [reals_snoc]
  split
  · rw [List.countP_append]
    omega
  · exact duplicate

theorem describes_run (contributions : List Contribution) :
    match Slot.run contributions with
    | none => Duplicate contributions
    | some slot => Describes contributions slot := by
  induction contributions using List.reverseRecOn with
  | nil => exact rfl
  | append_singleton contributions last induction =>
      rw [Slot.run_snoc]
      cases ran : Slot.run contributions with
      | none =>
          rw [ran] at induction
          exact induction.snoc last
      | some slot =>
          rw [ran] at induction
          exact describes_merge induction

theorem run_eq_none_iff (contributions : List Contribution) :
    Slot.run contributions = none ↔ Duplicate contributions := by
  have described := describes_run contributions
  cases ran : Slot.run contributions with
  | none => simpa [ran] using described
  | some slot =>
      rw [ran] at described
      simpa using described.not_duplicate

/-! ## Where slots and precedence part -/

/-- The winner holds something the table does not record: the IFUNC mark of a
real definition that took over from a tentative one, the symbol type, the
visibility or the IFUNC mark of a tentative definition, or the strength of a
tentative definition that follows a weak one. -/
def LosesFields (contributions : List Contribution) : Prop :=
  match winner contributions with
  | none => False
  | some chosen =>
      if chosen.isReal then
        overridesTentative contributions = true ∧
          chosen.symbol.isIfunc = true
      else
        chosen.symbol.stType ≠ 0 ∨ chosen.symbol.visibility ≠ 0 ∨
          chosen.symbol.isIfunc = true ∨
          ((tentatives contributions).head?.any fun first =>
            !first.strong && chosen.strong) = true

instance (contributions : List Contribution) :
    Decidable (LosesFields contributions) := by
  unfold LosesFields
  split
  · exact instDecidableFalse
  · split <;> infer_instance

/-- Among tentative definitions only the strength counts. -/
theorem rank_of_tentative {contribution : Contribution}
    (tentative : contribution.isTentative = true) :
    contribution.rank = if contribution.strong then 1 else 0 := by
  simp [Contribution.rank,
    Contribution.isReal_eq_false_of_isTentative tentative]

theorem winner_eq_first {contributions : List Contribution}
    {first chosen : Contribution}
    (noReals : reals contributions = [])
    (head : (tentatives contributions).head? = some first)
    (won : winner contributions = some chosen)
    (kept : (!first.strong && chosen.strong) = false) :
    chosen = first := by
  rw [winner, definitions_eq_tentatives noReals] at won
  obtain ⟨rest, shape⟩ : ∃ rest, tentatives contributions = first :: rest := by
    cases shape : tentatives contributions with
    | nil => simp [shape] at head
    | cons other rest =>
        rw [shape, List.head?_cons, Option.some.injEq] at head
        exact ⟨rest, by rw [head]⟩
  have tentative : ∀ contribution ∈ tentatives contributions,
      contribution.isTentative = true :=
    fun contribution member => (List.mem_filter.mp member).2
  have firstRank := rank_of_tentative (tentative first (by simp [shape]))
  have chosenRank := rank_of_tentative (tentative chosen (List.argmax_mem won))
  rw [shape, List.argmax_cons] at won
  cases others : List.argmax Contribution.rank rest with
  | none =>
      rw [others] at won
      exact (Option.some.inj won).symm
  | some other =>
      simp only [others] at won
      split at won
      · next greater =>
          obtain rfl := Option.some.inj won
          rw [firstRank, chosenRank] at greater
          cases firstStrong : first.strong <;>
            cases chosenStrong : other.strong <;>
              simp_all
      · exact (Option.some.inj won).symm

theorem Describes.outcome_eq_iff {contributions : List Contribution}
    {slot : Slot} (described : Describes contributions slot) :
    slot.outcome = outcome contributions ↔ ¬ LosesFields contributions := by
  cases slot with
  | absent =>
      rw [show contributions = [] from described]
      simp [Slot.outcome, outcome, LosesFields, winner, definitions]
  | undefined binding =>
      obtain ⟨nonempty, noDefinitions, equal⟩ := described
      have noWinner : winner contributions = none := by
        simp [winner, noDefinitions]
      simp [Slot.outcome, outcome, LosesFields, noWinner, nonempty, equal]
  | tentative first size align =>
      obtain ⟨noReals, head, sizeEqual, alignEqual⟩ := described
      have firstMember : first ∈ definitions contributions := by
        rw [definitions_eq_tentatives noReals]
        exact List.mem_of_mem_head? head
      obtain ⟨chosen, won⟩ : ∃ chosen, winner contributions = some chosen :=
        Option.ne_none_iff_exists'.mp fun none =>
          List.ne_nil_of_mem firstMember (List.argmax_eq_none.mp none)
      have chosenMember : chosen ∈ tentatives contributions := by
        have member := List.argmax_mem won
        rwa [definitions_eq_tentatives noReals] at member
      have notReal := Contribution.isReal_eq_false_of_isTentative
        (List.mem_filter.mp chosenMember).2
      cases upgraded : !first.strong && chosen.strong with
      | true =>
          simp only [Bool.and_eq_true, Bool.not_eq_true'] at upgraded
          simp [Slot.outcome, outcome, LosesFields, won, notReal, head,
            upgraded, tentativeOutcome,
            Contribution.binding_of_not_strong upgraded.1,
            Contribution.binding_of_strong upgraded.2]
      | false =>
          obtain rfl := winner_eq_first noReals head won upgraded
          simp only [Slot.outcome, outcome, LosesFields, won, notReal, head,
            Option.any_some, upgraded, tentativeOutcome, sizeEqual,
            alignEqual, Bool.false_eq_true, if_false, or_false,
            Option.some.injEq, Outcome.mk.injEq, true_and, and_true]
          grind
  | definite holder replaces =>
      obtain ⟨won, real, -, overEqual⟩ := described
      subst overEqual
      cases replaces : overridesTentative contributions <;>
        simp [Slot.outcome, outcome, LosesFields, won, real, replaces,
          realOutcome]

end Precedence

end Peony
