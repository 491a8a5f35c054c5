import Peony.Foundation.Sorting
import Peony.Layout.Added
import Peony.Layout.Geometry
import Peony.Layout.Permissions

namespace Peony

/-! What the loader makes read-only once the relocations are applied. -/

open Spans

/-! ## Protection -/

/-- What becomes of the bytes of a section. -/
inductive Protection where
  /-- Never written by the program. -/
  | constant
  /-- Read-only after the relocations are applied. -/
  | relro
  | written
deriving DecidableEq, Repr

def Protection.of (flags : UInt64) (name : Name) : Protection :=
  if flags &&& shfAlloc = 0 ∨ flags &&& shfWrite = 0 then .constant
  else if isRelro name then .relro
  else .written

def OutputSection.protection (s : OutputSection) : Protection :=
  Protection.of s.shFlags s.name

def Builder.protection (b : Builder) : Protection :=
  Protection.of b.shFlags b.name

/-- Nothing that becomes read-only follows what stays writable. -/
def Protection.InOrder (first second : Protection) : Prop :=
  ¬ (first = .written ∧ second = .relro)

/-- The integer is in a page that lies inside the range. -/
def HasPage (range : Span) (page x : Nat) : Prop :=
  ∃ number, range.start ≤ number * page ∧ number * page ≤ x ∧
    x < (number + 1) * page ∧ (number + 1) * page ≤ range.stop

/-- The pages that the loader makes read-only have no byte that stays writable,
and what becomes read-only is placed first. -/
structure ProtectsRelro (page : Nat) (layout : Layout) : Prop where
  pages : ∀ header ∈ layout.segments, header.pType = ptGnuRelro →
    ∀ s ∈ layout.outputSections, s.protection = .written →
      ∀ x, s.memory.start ≤ x → x < s.memory.stop →
        ¬ HasPage header.memory page x
  order : (layout.outputSections.map OutputSection.protection).Pairwise
    Protection.InOrder
  below : ∀ s ∈ layout.outputSections, s.protection = .relro →
    ∀ other ∈ layout.outputSections, other.protection = .written →
      s.memory.stop ≤ other.memory.start

theorem Protection.isWritable_iff {flags : UInt64} {name : Name} :
    Protection.of flags name ≠ .constant ↔
      flags &&& shfAlloc ≠ 0 ∧ flags &&& shfWrite ≠ 0 := by
  rw [Protection.of]
  split
  · rename_i isConstant
    simp only [ne_eq, not_true_eq_false, false_iff, not_and_or, not_not]
    exact isConstant
  · rename_i isWritable
    rw [not_or] at isWritable
    refine iff_of_true ?_ isWritable
    split <;> exact nofun

theorem Protection.eq_relro_iff {flags : UInt64} {name : Name} :
    Protection.of flags name = .relro ↔
      Protection.of flags name ≠ .constant ∧ isRelro name = true := by
  rw [Protection.of]
  split
  · simp
  · cases isRelro name <;> simp

theorem Protection.eq_written_iff {flags : UInt64} {name : Name} :
    Protection.of flags name = .written ↔
      Protection.of flags name ≠ .constant ∧ isRelro name = false := by
  rw [Protection.of]
  split
  · simp
  · cases isRelro name <;> simp

theorem OutputSection.isLoaded_of_protection {s : OutputSection}
    (isWritable : s.protection ≠ .constant) : s.isLoaded = true :=
  bne_iff_ne.mpr (Protection.isWritable_iff.mp isWritable).1

theorem OutputSection.Finished.protection {s finished : OutputSection}
    (isFinished : s.Finished finished) : finished.protection = s.protection := by
  rcases isFinished with ⟨_, _, _, _, _, rfl, _⟩
  rfl

/-! ## The protected range -/

/-- The integers of a range of words are in sections that become read-only. -/
structure RelroCovered (sections : List OutputSection) (lo hi : UInt64) : Prop where
  ordered : lo.toNat ≤ hi.toNat
  inside : ∀ x, lo.toNat ≤ x → x < hi.toNat →
    ∃ s ∈ sections, s.protection = .relro ∧ s.memory.start ≤ x ∧ x < s.memory.stop

section Covering

variable {sections : List OutputSection}

theorem RelroCovered.single {s : OutputSection} (present : s ∈ sections)
    (isRelro : s.protection = .relro)
    (fits : s.shAddr.toNat + s.shSize.toNat < 2 ^ 64) :
    RelroCovered sections s.shAddr (s.shAddr + s.shSize) := by
  have stop : (s.shAddr + s.shSize).toNat = s.shAddr.toNat + s.shSize.toNat := by
    rw [UInt64.toNat_add, Nat.mod_eq_of_lt fits]
  refine ⟨by omega, fun x above below => ⟨s, present, isRelro, above, ?_⟩⟩
  rw [stop] at below
  exact below

theorem RelroCovered.extend {lo hi : UInt64} {s : OutputSection}
    (covered : RelroCovered sections lo hi) (present : s ∈ sections)
    (isRelro : s.protection = .relro) (adjacent : hi = s.shAddr)
    (fits : s.shAddr.toNat + s.shSize.toNat < 2 ^ 64) :
    RelroCovered sections lo (s.shAddr + s.shSize) := by
  have next := RelroCovered.single present isRelro fits
  subst adjacent
  refine ⟨covered.ordered.trans next.ordered, fun x above below => ?_⟩
  rcases Nat.lt_or_ge x s.shAddr.toNat with before | after
  · exact covered.inside x above before
  · exact next.inside x after below

theorem extendRelro_covered {among : List OutputSection}
    (each : ∀ s ∈ among, s ∈ sections ∧ s.protection ≠ .constant)
    (fits : ∀ s ∈ sections, s.protection ≠ .constant →
      s.shAddr.toNat + s.shSize.toNat < 2 ^ 64)
    {span : Option (UInt64 × UInt64 × UInt64)}
    (start : ∀ lo hi off, span = some (lo, hi, off) → RelroCovered sections lo hi)
    {lo hi off : UInt64} (found : extendRelro span among = some (lo, hi, off)) :
    RelroCovered sections lo hi := by
  induction among generalizing span with
  | nil => exact start lo hi off found
  | cons s rest induction =>
      have others : ∀ s ∈ rest, s ∈ sections ∧ s.protection ≠ .constant :=
        fun s inRest => each s (List.mem_cons_of_mem _ inRest)
      rcases each s List.mem_cons_self with ⟨present, isWritable⟩
      have bound := fits s present isWritable
      rcases span with _ | ⟨first, last, place⟩
      · rw [extendRelro] at found
        split at found
        · rename_i named
          refine induction others (fun lo hi off isSpan => ?_) found
          rw [Option.some.injEq, Prod.mk.injEq, Prod.mk.injEq] at isSpan
          rcases isSpan with ⟨rfl, rfl, _⟩
          exact .single present (Protection.eq_relro_iff.mpr ⟨isWritable, named⟩) bound
        · refine induction others (fun _ _ _ isSpan => ?_) found
          exact nomatch isSpan
      · have covered := start first last place rfl
        rw [extendRelro] at found
        split at found
        · rename_i named
          rw [Bool.and_eq_true, beq_iff_eq] at named
          refine induction others (fun lo hi off isSpan => ?_) found
          rw [Option.some.injEq, Prod.mk.injEq, Prod.mk.injEq] at isSpan
          rcases isSpan with ⟨rfl, rfl, _⟩
          exact covered.extend present
            (Protection.eq_relro_iff.mpr ⟨isWritable, named.1⟩) named.2 bound
        · rw [Option.some.injEq, Prod.mk.injEq, Prod.mk.injEq] at found
          rcases found with ⟨rfl, rfl, _⟩
          exact covered

/-- Every integer in the range of the header is in a section that becomes
read-only. -/
theorem relroSegment_covered
    (fits : ∀ s ∈ sections, s.protection ≠ .constant →
      s.shAddr.toNat + s.shSize.toNat < 2 ^ 64) {x : Nat}
    (above : (relroSegment sections).memory.start ≤ x)
    (below : x < (relroSegment sections).memory.stop) :
    ∃ s ∈ sections, s.protection = .relro ∧ s.memory.start ≤ x ∧
      x < s.memory.stop := by
  cases found : relroSpan sections with
  | none =>
      rw [relroSegment, found] at below
      exact absurd below (Nat.not_lt_zero x)
  | some span =>
      rcases span with ⟨lo, hi, off⟩
      have covered : RelroCovered sections lo hi := by
        refine extendRelro_covered (fun s among => ?_) fits
          (fun _ _ _ isSpan => ?_) found
        · rcases List.mem_filter.mp (mem_sortBy.mp among) with ⟨present, flags⟩
          rw [Bool.and_eq_true, bne_iff_ne, bne_iff_ne] at flags
          exact ⟨present, Protection.isWritable_iff.mpr flags⟩
        · exact nomatch isSpan
      rw [relroSegment, found] at above below
      change lo.toNat ≤ x at above
      change x < lo.toNat + (hi - lo).toNat at below
      have ordered := covered.ordered
      rw [UInt64.toNat_sub_of_le _ _ (UInt64.le_iff_toNat_le.mpr ordered)] at below
      exact covered.inside x above (by omega)

end Covering

/-! ## The order of the sections -/

namespace Builder

/-- What a linker script lists comes first, in its order, and the rest by name. -/
def compareScript (script : Option ScriptLayout) : Builder → Builder → Ordering :=
  compareLex
    (compareOn fun b => (script.bind fun s => s.orderOf b.name).isNone)
    (compareLex
      (compareOn fun b => (script.bind fun s => s.orderOf b.name).getD 0)
      (compareOn Builder.name))

/-- The order of the sections without bytes in the file. -/
def compareZeroed (script : Option ScriptLayout) : Builder → Builder → Ordering :=
  compareLex compareTbss (compareScript script)

instance : Std.TransCmp compareRelro :=
  inferInstanceAs (Std.TransCmp (compareLex
    (compareLex (compareOn fun b : Builder => !isRelro b.name)
      (compareOn Builder.name))
    (compareOn fun b : Builder => b.kind == SectionKind.tdata)))

instance : Std.TransCmp compareTbss :=
  inferInstanceAs (Std.TransCmp
    (compareOn fun b : Builder => b.kind != SectionKind.tbss))

instance (script : Option ScriptLayout) : Std.TransCmp (compareScript script) :=
  inferInstanceAs (Std.TransCmp (compareLex _ (compareLex _ _)))

instance (script : Option ScriptLayout) : Std.TransCmp (compareZeroed script) :=
  inferInstanceAs (Std.TransCmp (compareLex _ _))

theorem sortBuildersByScript_eq (script : Option ScriptLayout)
    (builders : List Builder) :
    sortBuildersByScript script builders = sortBy (compareScript script) builders := by
  rw [sortBuildersByScript]
  congr 1
  funext a b
  unfold compareScript compareLex compareOn
  dsimp only
  cases script.bind fun s => s.orderOf a.name with
  | none => cases script.bind fun s => s.orderOf b.name <;> rfl
  | some place => cases script.bind fun s => s.orderOf b.name <;> rfl

/-- Sections of different names are in one order or the other. -/
theorem compareZeroed_ne_eq {script : Option ScriptLayout} {a b : Builder}
    (distinct : a.name ≠ b.name) : compareZeroed script a b ≠ .eq := by
  unfold compareZeroed compareScript compareLex compareOn
  intro same
  simp only [Ordering.then_eq_eq, Std.LawfulEqOrd.compare_eq_iff_eq] at same
  exact distinct same.2.2.2

/-- What becomes read-only is sorted in front of what stays writable. -/
theorem inOrder_of_compareRelro {a b : Builder}
    (sorted : Sorting.InOrder compareRelro a b) :
    Protection.InOrder a.protection b.protection := by
  rintro ⟨isWritten, becomesReadOnly⟩
  refine sorted ?_
  unfold compareRelro
  rw [(Protection.eq_written_iff.mp isWritten).2,
    (Protection.eq_relro_iff.mp becomesReadOnly).2]
  rfl

end Builder

namespace LayoutInput

variable {input : LayoutInput}

/-! ### What is placed -/

/-- The flags of a section that is added or grouped fit its permission. -/
structure Flagged (b : Builder) : Prop where
  perm : b.perm = permOf b.shFlags
  isAlloc : b.shFlags &&& shfAlloc ≠ 0

theorem flags_added {pre : DynPrebuild} {b : Builder} (isAdded : b ∈ input.added pre) :
    Flagged b ∧ (b ∈ input.addedBss ∨ b.protection ≠ .written) := by
  have made {name : Name} {kind : SectionKind} {flags : UInt64} {shType : UInt32}
      {align size : UInt64} {perm : Perm} {isNobits : Bool}
      (isPerm : perm = permOf flags) (isAlloc : flags &&& shfAlloc ≠ 0)
      (kept : Protection.of flags name ≠ .written) :
      Flagged (Builder.synthesized name kind flags shType align size perm isNobits) ∧
        (Builder.synthesized name kind flags shType align size perm isNobits ∈
          input.addedBss ∨
        (Builder.synthesized name kind flags shType align size perm
          isNobits).protection ≠ .written) :=
    ⟨⟨isPerm, isAlloc⟩, .inr kept⟩
  have constant (name : Name) : Protection.of shfAlloc name ≠ .written := by
    rw [Protection.of, if_pos (by decide)]
    decide
  simp only [added, List.mem_append] at isAdded
  rcases isAdded with (((((isNote | isTable) | isStub) | isGot) | isSlot) | isDynamic) |
    isBss
  · simp only [addedNotes, List.mem_append, Builder.mem_only] at isNote
    rcases isNote with (⟨_, rfl⟩ | ⟨_, rfl⟩) | ⟨_, rfl⟩ <;>
      exact made rfl (by decide) (constant _)
  · simp only [addedTables, List.mem_append, List.mem_filter, List.mem_flatMap,
      Builder.mem_only] at isTable
    rcases isTable with ⟨⟨dynj, _, listed⟩, _⟩ | ⟨_, rfl⟩
    · simp only [roDyn, List.mem_cons, List.not_mem_nil, or_false] at listed
      rcases listed with rfl | rfl | rfl | rfl | rfl | rfl | rfl | rfl <;>
        exact made rfl (by decide) (constant _)
    · exact made rfl (by decide) (constant _)
  · rw [addedStubs, Builder.mem_only] at isStub
    rcases isStub with ⟨_, rfl⟩
    exact made rfl (by decide) (by decide)
  · rw [addedGot, Builder.mem_only] at isGot
    rcases isGot with ⟨_, rfl⟩
    exact made rfl (by decide) (by decide)
  · rw [addedSlots, Builder.mem_only] at isSlot
    rcases isSlot with ⟨_, rfl⟩
    exact made rfl (by decide) (by decide)
  · rcases List.mem_map.mp isDynamic with ⟨_, _, rfl⟩
    exact made rfl (by decide) (by decide)
  · refine ⟨?_, .inl isBss⟩
    rw [addedBss, Builder.mem_only] at isBss
    rcases isBss with ⟨_, rfl⟩
    exact ⟨(by decide : Perm.rw = permOf (shfAlloc ||| shfWrite)),
      (by decide : (shfAlloc ||| shfWrite) &&& shfAlloc ≠ 0)⟩

/-! ### Output sections and the members that open them -/

/-- The member is the first one of its output section. -/
def Opens (input : LayoutInput) (first : Contributor) : Prop :=
  ∃ rest, input.membersOf (input.outName first.sec.name) = first :: rest

/-- The output section as the member opens it. -/
def opened (input : LayoutInput) (first : Contributor) : Builder :=
  Builder.start (input.outName first.sec.name) first

theorem opens_of_mem_groups {b : Builder} (isGroup : b ∈ input.groups) :
    ∃ first, input.Opens first ∧ ∃ align size contributions,
      b = { input.opened first with
        align := align, size := size, contributions := contributions } := by
  rcases mem_groups.mp isGroup with ⟨first, rest, ofName, isCollected⟩
  have shape := isCollected.trans (collect_shape first _)
  have name : b.name = input.outName first.sec.name := congrArg Builder.name shape
  exact ⟨first, ⟨rest, name ▸ ofName⟩, _, _, _, shape⟩

theorem exists_group_of_opens {first : Contributor} (opens : input.Opens first) :
    ∃ align size contributions, { input.opened first with
      align := align, size := size, contributions := contributions } ∈
        input.groups := by
  rcases opens with ⟨rest, ofName⟩
  have listed : input.grouping.collect first (first :: rest) ∈ input.groups := by
    refine mem_groups.mpr ⟨first, rest, ?_, rfl⟩
    rw [(collect_first first (first :: rest)).1]
    exact ofName
  rw [collect_shape] at listed
  exact ⟨_, _, _, listed⟩

theorem flags_groups {b : Builder} (isGroup : b ∈ input.groups) : Flagged b := by
  refine ⟨?_, groups_isAlloc isGroup⟩
  rcases opens_of_mem_groups isGroup with ⟨first, _, _, _, _, rfl⟩
  change permOf first.sec.flags = permOf (first.sec.flags &&& flagMask)
  rw [permOf, permOf, and_flagMask (by decide), and_flagMask (by decide)]

def placedOrder (input : LayoutInput) (pre : DynPrebuild) : List Builder :=
  (input.ordered pre).ro ++ (input.ordered pre).rx ++
    (sortBy Builder.compareRelro (input.ordered pre).rwPb ++
      sortBy Builder.compareTbss (input.ordered pre).rwBss)

structure GroupsLead (input : LayoutInput) : Prop where
  executable : ∀ b ∈ input.groups, b.perm = .rx → b.protection ≠ .written
  zeroed : ∀ b ∈ input.groups, b.protection = .relro → b.perm = .rw →
    b.isNobits = true → ∀ other, (other ∈ input.groups ∨ other ∈ input.addedBss) →
      other.protection = .written → other.perm = .rw → other.isNobits = true ∧
        Builder.compareZeroed input.config.script b other = .lt

section Order

variable {pre : DynPrebuild} {b : Builder}

theorem flags_ordered (isPlaced : b ∈ (input.ordered pre).all) :
    Flagged b ∧ (b ∈ input.groups ∨ b ∈ input.addedBss ∨ b.protection ≠ .written) := by
  rcases mem_ordered.mp isPlaced with isGroup | isAdded
  · exact ⟨flags_groups isGroup, .inl isGroup⟩
  · exact ⟨(flags_added isAdded).1, .inr (flags_added isAdded).2⟩

theorem Flagged.constant_of_ro (flagged : Flagged b) (isRo : b.perm = .ro) :
    b.protection = .constant := by
  by_contra isWritable
  have writes := (Protection.isWritable_iff.mp isWritable).2
  rw [flagged.perm, permOf, bne_iff_ne.mpr writes] at isRo
  split at isRo <;> cases isRo

theorem mem_addedBss (isBss : b ∈ input.addedBss) :
    b.perm = .rw ∧ b.isNobits = true ∧ b.protection = .written := by
  rw [addedBss, Builder.mem_only] at isBss
  rcases isBss with ⟨_, rfl⟩
  exact ⟨rfl, rfl, (by decide :
    Protection.of (shfAlloc ||| shfWrite) (nameOf ".bss") = .written)⟩

theorem rwBss_ordered :
    (input.ordered pre).rwBss =
      sortBy (Builder.compareScript input.config.script)
        (input.groupsOf (fun b => b.perm == .rw && b.isNobits) ++ input.addedBss) := by
  rw [← Builder.sortBuildersByScript_eq, ordered, orderedBuilders, scriptOrder,
    synthesizeDynamic_eq]

theorem sorted_rwBss :
    (sortBy Builder.compareTbss (input.ordered pre).rwBss).Pairwise
      (Sorting.InOrder (Builder.compareZeroed input.config.script)) := by
  rw [rwBss_ordered]
  exact Sorting.pairwise_then _

theorem mem_rwBss :
    b ∈ (input.ordered pre).rwBss ↔
      (b ∈ input.groups ∧ b.perm = .rw ∧ b.isNobits = true) ∨ b ∈ input.addedBss := by
  rw [rwBss_ordered, mem_sortBy, List.mem_append, mem_groupsOf, Bool.and_eq_true,
    beq_iff_eq]

theorem exists_dynamic (isDynamic : input.dynamic.isSome = true) :
    ∃ b ∈ (input.ordered pre).rwPb, b.protection = .relro := by
  rcases Option.isSome_iff_exists.mp isDynamic with ⟨dynj, isInfo⟩
  rw [ordered, orderedBuilders, scriptOrder, synthesizeDynamic_eq]
  refine ⟨_, mem_sortBuildersByScript.mpr (List.mem_append_right _ (List.mem_map.mpr
    ⟨dynj, Option.mem_toList.mpr isInfo, rfl⟩)), ?_⟩
  change Protection.of (shfAlloc ||| shfWrite) (nameOf ".dynamic") = .relro
  decide

variable (pre) in
private theorem lead_of_order (isDynamic : input.dynamic.isSome = true)
    (order : ((input.placedOrder pre).map Builder.protection).Pairwise
      Protection.InOrder) : input.GroupsLead := by
  have classified := input.classified_ordered pre input.groups
  rw [placedOrder, List.pairwise_map, List.pairwise_append, List.pairwise_append,
    List.pairwise_append] at order
  rcases order with ⟨_, ⟨_, zeroed, across⟩, later⟩
  constructor
  · intro b isGroup isRx isWritten
    rcases @exists_dynamic input pre isDynamic with ⟨dynamic, isPb, isRelro⟩
    have present := classified.rx.has b isGroup (by rw [isRx]; rfl)
    exact later b (List.mem_append_right _ present) dynamic
      (List.mem_append_left _ (mem_sortBy.mpr isPb)) ⟨isWritten, isRelro⟩
  · intro b isGroup isRelro isRw isNobits other among isWritten otherRw
    have inBss : b ∈ (input.ordered pre).rwBss :=
      mem_rwBss.mpr (.inl ⟨isGroup, isRw, isNobits⟩)
    have otherNobits : other.isNobits = true := by
      by_contra notNobits
      have isOther : other ∈ input.groups := by
        rcases among with isOther | isBss
        · exact isOther
        · exact absurd (mem_addedBss isBss).2.1 notNobits
      have inPb := classified.rwPb.has other isOther (by
        rw [otherRw, Bool.eq_false_iff.mpr notNobits]
        rfl)
      exact across other (mem_sortBy.mpr inPb) b (mem_sortBy.mpr inBss)
        ⟨isWritten, isRelro⟩
    have otherInBss : other ∈ (input.ordered pre).rwBss := by
      rcases among with isOther | isBss
      · exact mem_rwBss.mpr (.inl ⟨isOther, otherRw, otherNobits⟩)
      · exact mem_rwBss.mpr (.inr isBss)
    refine ⟨otherNobits, ?_⟩
    have distinct : b ≠ other := by
      rintro rfl
      exact nomatch isRelro.symm.trans isWritten
    have names : b.name ≠ other.name := by
      intro same
      have named := (Protection.eq_relro_iff.mp isRelro).2
      rw [same, (Protection.eq_written_iff.mp isWritten).2] at named
      exact nomatch named
    rcases Pairwise.either (zeroed.and sorted_rwBss) (mem_sortBy.mpr inBss)
      (mem_sortBy.mpr otherInBss) distinct with ⟨_, below⟩ | ⟨inOrder, _⟩
    · cases order : Builder.compareZeroed input.config.script b other with
      | lt => rfl
      | eq => exact absurd order (Builder.compareZeroed_ne_eq names)
      | gt => exact absurd order below
    · exact absurd ⟨isWritten, isRelro⟩ inOrder

private theorem order_of_lead (lead : input.GroupsLead) :
    ((input.placedOrder pre).map Builder.protection).Pairwise
      Protection.InOrder := by
  have classified := input.classified_ordered pre input.groups
  have unwritten {builders : List Builder}
      (none : ∀ b ∈ builders, b.protection ≠ .written) (others : List Builder) :
      ∀ b ∈ builders, ∀ other ∈ others,
        Protection.InOrder b.protection other.protection :=
    fun b present _ _ both => none b present both.1
  have ro : ∀ b ∈ (input.ordered pre).ro, b.protection ≠ .written := by
    intro b present isWritten
    have flagged := (flags_ordered (List.mem_append_left _
      (List.mem_append_left _ present))).1
    have isRo := beq_iff_eq.mp (classified.ro.only b present).1
    exact nomatch (flagged.constant_of_ro isRo).symm.trans isWritten
  have rx : ∀ b ∈ (input.ordered pre).rx, b.protection ≠ .written := by
    intro b present isWritten
    have isRx := beq_iff_eq.mp (classified.rx.only b present).1
    rcases (flags_ordered (List.mem_append_left _
      (List.mem_append_right _ present))).2 with isGroup | isBss | kept
    · exact lead.executable b isGroup isRx isWritten
    · exact nomatch isRx.symm.trans (mem_addedBss isBss).1
    · exact kept isWritten
  have front : ∀ b ∈ (input.ordered pre).ro ++ (input.ordered pre).rx,
      b.protection ≠ .written := by
    intro b present
    rcases List.mem_append.mp present with inRo | inRx
    · exact ro b inRo
    · exact rx b inRx
  have leads {b other : Builder} (isWritten : b.protection = .written)
      (isRw : b.perm = .rw) (among : b ∈ input.groups ∨ b ∈ input.addedBss)
      (isRelro : other.protection = .relro)
      (present : other ∈ (input.ordered pre).rwBss) :
      b.isNobits = true ∧
        Builder.compareZeroed input.config.script other b = .lt := by
    rcases mem_rwBss.mp present with ⟨isGroup, otherRw, isNobits⟩ | isBss
    · exact lead.zeroed other isGroup isRelro otherRw isNobits b among isWritten isRw
    · exact nomatch isRelro.symm.trans (mem_addedBss isBss).2.2
  rw [placedOrder, List.pairwise_map]
  refine List.pairwise_append.mpr ⟨?_, List.pairwise_append.mpr ⟨?_, ?_, ?_⟩,
    unwritten front _⟩
  · exact List.pairwise_of_forall_mem_list fun b present other _ =>
      unwritten front [other] b present other List.mem_cons_self
  · exact (Sorting.pairwise _).imp Builder.inOrder_of_compareRelro
  · refine List.Pairwise.imp_of_mem ?_ sorted_rwBss
    rintro b other isBuilder isOther inOrder ⟨isWritten, isRelro⟩
    have among : (b ∈ input.groups ∨ b ∈ input.addedBss) ∧ b.perm = .rw := by
      rcases mem_rwBss.mp (mem_sortBy.mp isBuilder) with ⟨isGroup, isRw, _⟩ | isBss
      · exact ⟨.inl isGroup, isRw⟩
      · exact ⟨.inr isBss, (mem_addedBss isBss).1⟩
    have before := leads isWritten among.2 among.1 isRelro (mem_sortBy.mp isOther)
    exact inOrder (Std.OrientedCmp.gt_of_lt before.2)
  · rintro b isBuilder other isOther ⟨isWritten, isRelro⟩
    have present := mem_sortBy.mp isBuilder
    have kind := (classified.rwPb.only b present).1
    rw [Bool.and_eq_true, beq_iff_eq, Bool.not_eq_true'] at kind
    have isPlaced : b ∈ (input.ordered pre).all :=
      List.mem_append_right _ (List.mem_append_left _ present)
    rcases (flags_ordered isPlaced).2 with isGroup | isBss | kept
    · have nobits := (leads isWritten kind.1 (.inl isGroup) isRelro
        (mem_sortBy.mp isOther)).1
      exact nomatch kind.2.symm.trans nobits
    · exact nomatch kind.2.symm.trans (mem_addedBss isBss).2.1
    · exact kept isWritten

end Order

/-! ### The layout -/

section Computed

variable {layout : Layout} (computed : Computed input layout)

include computed

theorem tags_eq {Tag : Type} {ofSection : OutputSection → Tag} {ofBuilder : Builder → Tag}
    (finished : ∀ s last : OutputSection, s.Finished last → ofSection last = ofSection s)
    (output : ∀ (b : Builder) base shAddr, ofSection (b.output base shAddr) = ofBuilder b)
    (raised : ∀ b last : Builder, b.RaisedTo last → ofBuilder last = ofBuilder b) :
    ∃ others : List OutputSection, (∀ s ∈ others, s.shFlags = 0) ∧
      layout.outputSections.map ofSection =
        (input.placedOrder computed.pre).map ofBuilder ++ others.map ofSection := by
  rcases input.fileCursor_extends (input.ordered computed.pre) with
    ⟨more, each, sections, _⟩
  have isFinished := input.finished_assemble computed.pre
    (input.ordered computed.pre) computed.entry
  rw [← computed.assembled, sections] at isFinished
  have same := Pairwise.map_eq isFinished finished
  have placed : (input.placeAll
      (input.ordered computed.pre)).placement.sections.map ofSection =
        (relroOrder (input.ordered computed.pre)).all.map ofBuilder :=
    Pairwise.map_eq (input.placeAll_of (input.ordered computed.pre)).sections
      fun b s isOutput => by
        rcases isOutput with ⟨shAddr, rfl, _⟩
        exact output b _ shAddr
  rcases relroOrder_raised ((input.classified_ordered computed.pre
    input.groups).tls_powers (groups_aligned computed.aligned)) with ⟨rwPb, rwBss⟩
  have rwPbKept := Pairwise.map_eq rwPb raised
  have rwBssKept := Pairwise.map_eq rwBss raised
  refine ⟨more ++ [shstrtabSection (input.fileCursor (input.ordered computed.pre))], ?_, ?_⟩
  · intro s among
    rcases List.mem_append.mp among with isFileOnly | isNames
    · exact (each s isFileOnly).flags
    · rw [List.mem_singleton.mp isNames]
      rfl
  · rw [same, List.append_assoc, List.map_append, placed, Builders.all, relroOrder_ro,
      relroOrder_rx, placedOrder]
    simp only [List.map_append]
    rw [show (relroOrder (input.ordered computed.pre)).rwPb.map ofBuilder = _
      from rwPbKept, show (relroOrder (input.ordered computed.pre)).rwBss.map
        ofBuilder = _ from rwBssKept]
    rfl

theorem protections_eq :
    ∃ others : List Protection, (∀ protection ∈ others, protection = .constant) ∧
      layout.outputSections.map OutputSection.protection =
        (input.placedOrder computed.pre).map Builder.protection ++ others := by
  have raised (b last : Builder) (isRaised : b.RaisedTo last) :
      last.protection = b.protection := by
    rcases isRaised with ⟨_, rfl, _⟩
    rfl
  rcases tags_eq computed (fun _ _ isFinished => isFinished.protection) (fun _ _ _ => rfl)
    raised with ⟨others, unloaded, same⟩
  refine ⟨others.map OutputSection.protection, ?_, same⟩
  intro protection present
  rcases List.mem_map.mp present with ⟨s, among, rfl⟩
  rw [OutputSection.protection, unloaded s among, Protection.of, if_pos (.inl rfl)]

theorem mem_segments_relro {header : ProgramHeader}
    (present : header ∈ layout.segments) (isRelro : header.pType = ptGnuRelro) :
    input.dynamic.isSome = true ∧ header = relroSegment layout.outputSections := by
  have headers := input.ptGnuRelro_segments (input.ordered computed.pre)
    computed.pre computed.entry
  rw [← computed.assembled] at headers
  have among : header ∈ layout.segments.filter fun seg => seg.pType == ptGnuRelro :=
    List.mem_filter.mpr ⟨present, beq_iff_eq.mpr isRelro⟩
  rw [headers] at among
  split at among
  · rename_i isDynamic
    exact ⟨isDynamic, List.mem_singleton.mp among⟩
  · exact absurd among List.not_mem_nil

theorem order_iff (isDynamic : input.dynamic.isSome = true) :
    (layout.outputSections.map OutputSection.protection).Pairwise
      Protection.InOrder ↔ input.GroupsLead := by
  rcases protections_eq computed with ⟨others, constant, same⟩
  rw [same]
  constructor
  · intro order
    exact lead_of_order computed.pre isDynamic (List.pairwise_append.mp order).1
  · intro lead
    refine List.pairwise_append.mpr ⟨order_of_lead lead, ?_, ?_⟩
    · refine List.pairwise_of_forall_mem_list fun first isFirst second _ both => ?_
      exact nomatch (constant first isFirst).symm.trans both.1
    · intro first _ second isSecond both
      exact nomatch (constant second isSecond).symm.trans both.2

variable (noWrap : input.NoWrap computed.pre)

include noWrap

theorem fits_loaded : ∀ s ∈ layout.outputSections, s.protection ≠ .constant →
    s.shAddr.toNat + s.shSize.toNat < 2 ^ 64 := by
  intro s present isWritable
  have inImage := (loaded_laid computed noWrap).within (List.mem_map_of_mem
    (List.mem_filter.mpr ⟨present, OutputSection.isLoaded_of_protection isWritable⟩))
  exact inImage.2.trans_lt (UInt64.toNat_lt _)

omit computed noWrap in
theorem mem_loaded {s : OutputSection} (present : s ∈ layout.outputSections)
    {protection : Protection} (isProtection : s.protection = protection)
    (isWritable : protection ≠ .constant) :
    s ∈ layout.outputSections.filter OutputSection.isLoaded :=
  List.mem_filter.mpr ⟨present, OutputSection.isLoaded_of_protection
    (isProtection.trans_ne isWritable)⟩

/-- The protected range has no byte of what stays writable. -/
theorem relro_apart {header : ProgramHeader} (isHeader : header ∈ layout.segments)
    (isRelro : header.pType = ptGnuRelro) {s : OutputSection}
    (present : s ∈ layout.outputSections) (isWritten : s.protection = .written)
    {x : Nat} (above : s.memory.start ≤ x) (below : x < s.memory.stop) :
    ¬ (header.memory.start ≤ x ∧ x < header.memory.stop) := by
  rintro ⟨afterStart, beforeStop⟩
  rw [(mem_segments_relro computed isHeader isRelro).2] at afterStart beforeStop
  rcases relroSegment_covered (fits_loaded computed noWrap) afterStart beforeStop with
    ⟨other, isOther, becomesReadOnly, otherAbove, otherBelow⟩
  have distinct : s ≠ other := by
    rintro rfl
    exact nomatch isWritten.symm.trans becomesReadOnly
  have ordered := List.pairwise_map.mp (loaded_laid computed noWrap).pairwise
  rcases Pairwise.either ordered (mem_loaded present isWritten nofun)
    (mem_loaded isOther becomesReadOnly nofun) distinct with before | after
  · omega
  · omega

/-- What comes first has lower addresses. -/
theorem below_of_order (order : (layout.outputSections.map
      OutputSection.protection).Pairwise Protection.InOrder) :
    ∀ s ∈ layout.outputSections, s.protection = .relro →
      ∀ other ∈ layout.outputSections, other.protection = .written →
        s.memory.stop ≤ other.memory.start := by
  intro s present becomesReadOnly other isOther isWritten
  have distinct : s ≠ other := by
    rintro rfl
    exact nomatch isWritten.symm.trans becomesReadOnly
  have laid := List.pairwise_map.mp (loaded_laid computed noWrap).pairwise
  have placed := (List.pairwise_map.mp order).sublist
    (@List.filter_sublist _ OutputSection.isLoaded _)
  rcases Pairwise.either (laid.and placed) (mem_loaded present becomesReadOnly nofun)
    (mem_loaded isOther isWritten nofun) distinct with before | after
  · exact before.1
  · exact absurd ⟨isWritten, becomesReadOnly⟩ after.2

end Computed

/-- No input section that opens an output section of the executable segment is
written by the program, and those without bytes in the file that become read-only
precede all that stay writable: thread-local storage comes first, then what the
linker script lists, then the others by name. -/
structure RelroLeads (input : LayoutInput) : Prop where
  executable : ∀ first, input.Opens first → (input.opened first).perm = .rx →
    (input.opened first).protection ≠ .written
  zeroed : ∀ first, input.Opens first → (input.opened first).protection = .relro →
    (input.opened first).perm = .rw → (input.opened first).isNobits = true →
      ∀ other, (other ∈ input.addedBss ∨
          ∃ second, input.Opens second ∧ other = input.opened second) →
        other.protection = .written → other.perm = .rw → other.isNobits = true ∧
          Builder.compareZeroed input.config.script (input.opened first) other = .lt

theorem groupsLead_iff : input.GroupsLead ↔ input.RelroLeads := by
  constructor
  · intro lead
    constructor
    · intro first opens
      rcases exists_group_of_opens opens with ⟨_, _, _, isGroup⟩
      have unwritten := lead.executable _ isGroup
      exact unwritten
    · intro first opens isRelro isRw isNobits other among isWritten otherRw
      rcases exists_group_of_opens opens with ⟨_, _, _, isGroup⟩
      rcases among with isBss | ⟨second, opensToo, rfl⟩
      · exact lead.zeroed _ isGroup isRelro isRw isNobits other (.inr isBss) isWritten
          otherRw
      · rcases exists_group_of_opens opensToo with ⟨_, _, _, isOther⟩
        have leads := lead.zeroed _ isGroup isRelro isRw isNobits _ (.inl isOther)
          isWritten otherRw
        exact leads
  · intro lead
    constructor
    · intro b isGroup
      rcases opens_of_mem_groups isGroup with ⟨first, opens, _, _, _, rfl⟩
      exact lead.executable first opens
    · intro b isGroup isRelro isRw isNobits other among isWritten otherRw
      rcases opens_of_mem_groups isGroup with ⟨first, opens, _, _, _, rfl⟩
      rcases among with isOther | isBss
      · rcases opens_of_mem_groups isOther with ⟨second, opensToo, _, _, _, rfl⟩
        have leads := lead.zeroed first opens isRelro isRw isNobits
          (input.opened second) (.inr ⟨second, opensToo, rfl⟩) isWritten otherRw
        exact leads
      · exact lead.zeroed first opens isRelro isRw isNobits other (.inl isBss)
          isWritten otherRw

/-- A layout with a protected range protects only what becomes read-only just when
the input sections that stay writable come last. -/
theorem protectsRelro_iff
    (noWrap : ∀ pre, input.prebuildDynamic = .ok pre → input.NoWrap pre)
    {layout : Layout} (succeeded : input.computeLayoutIcf = .ok layout)
    (hasRelro : ∃ header ∈ layout.segments, header.pType = ptGnuRelro) :
    ProtectsRelro input.page.toNat layout ↔ input.RelroLeads := by
  rcases computed_of_ok succeeded with ⟨computed⟩
  have fits := noWrap computed.pre computed.prebuilt
  rcases hasRelro with ⟨header, isHeader, isRelro⟩
  have isDynamic := (mem_segments_relro computed isHeader isRelro).1
  rw [← groupsLead_iff, ← order_iff computed isDynamic]
  refine ⟨ProtectsRelro.order, fun order => ⟨?_, order, ?_⟩⟩
  · rintro header isHeader isRelro s present isWritten x above below
      ⟨number, start, atPage, inPage, stop⟩
    exact relro_apart computed fits isHeader isRelro present isWritten above below
      ⟨start.trans atPage, inPage.trans_le stop⟩
  · exact below_of_order computed fits order

/-! A program with a section of its own, which is written at run time. -/

private def patchedPlain (index : Nat) (name : String) (kind : SectionKind)
    (flags : UInt64) : InputSection where
  index := index
  name := nameOf name
  kind := kind
  shType := 1
  data := ⟨.owned 0, 0, 8⟩
  align := 8
  size := 8
  flags := flags
  relocs := []

private def patchedStart : InputSymbol where
  index := 1
  name := nameOf "_start"
  binding := .global
  isUndefined := false
  isCommon := false
  isIfunc := false
  stType := 2
  visibility := 0
  sectionIndex := some 1
  value := 0
  size := 8

private def patchedObject (kind : SectionKind) (flags : UInt64) : InputObject :=
  InputObject.assemble "main.o" 2 1
    [patchedPlain 1 ".text" .text (shfAlloc ||| shfExecinstr),
      patchedPlain 2 ".patched" kind flags] [patchedStart] []

private def patchedInput (kind : SectionKind) (flags : UInt64) : LayoutInput where
  arena := { mmaps := [], owned := [[0, 0, 0, 0, 0, 0, 0, 0]] }
  objects := [patchedObject kind flags]
  symbols :=
    match SymbolTable.processAll [⟨patchedObject kind flags, []⟩] with
    | .ok table => table
    | .error _ => SymbolTable.new
  dynamic := some {
    needed := [nameOf "libc.so.6"]
    interp := some (nameOf "/lib64/ld-linux-x86-64.so.2") }

private def patchedData : LayoutInput := patchedInput .data (shfAlloc ||| shfWrite)

private def patchedCode : LayoutInput :=
  patchedInput .text (shfAlloc ||| shfWrite ||| shfExecinstr)

/-- The sums that depend on the tables made for dynamic linking. -/
private def fitsPrebuilt (input : LayoutInput) : Bool :=
  input.prebuildDynamic.toOption.all fun pre =>
    decide (Cursor.Fits input.base (input.addressRun (input.ordered pre))) &&
      decide (Cursor.Fits (input.contentEnd (input.ordered pre))
        (input.fileRun pre (input.ordered pre))) &&
      decide (((input.fileEnd pre (input.ordered pre)).sections.length + 1) *
        shdrSize.toNat < 2 ^ 64)

private theorem noWrap_of_fitsPrebuilt (fits : fitsPrebuilt input = true)
    (each : ∀ member ∈ input.contributors, Cursor.Fits 0
      ((input.membersOf (input.outName member.sec.name)).map Icf.Place.slot))
    (none : input.passthroughNames = []) :
    ∀ pre, input.prebuildDynamic = .ok pre → input.NoWrap pre := by
  intro pre prebuilt
  rw [fitsPrebuilt, prebuilt] at fits
  simp only [Except.toOption, Option.all_some, Bool.and_eq_true,
    decide_eq_true_eq] at fits
  refine ⟨grouped_of_contributors each, fun name listed => ?_, fits.1.1, fits.1.2,
    fits.2⟩
  rw [none] at listed
  exact absurd listed List.not_mem_nil

theorem any_of_computed {holds : Layout → Bool} {layout : Layout}
    (found : input.computeLayoutIcf.toOption.any holds = true)
    (computed : input.computeLayoutIcf = .ok layout) : holds layout = true := by
  rw [computed] at found
  exact found

private theorem hasRelro_of_any {layout : Layout}
    (found : input.computeLayoutIcf.toOption.any (fun layout =>
      layout.segments.any fun seg => seg.pType == ptGnuRelro) = true)
    (computed : input.computeLayoutIcf = .ok layout) :
    ∃ header ∈ layout.segments, header.pType = ptGnuRelro := by
  rcases List.any_eq_true.mp (any_of_computed found computed) with
    ⟨header, present, isRelro⟩
  exact ⟨header, present, beq_iff_eq.mp isRelro⟩

theorem protectsRelro_patchedData :
    ∃ layout, patchedData.computeLayoutIcf = .ok layout ∧
      ProtectsRelro 0x1000 layout := by
  rcases @exists_layout patchedData (by decide +kernel) with ⟨layout, computed⟩
  have opening : ∀ first, patchedData.Opens first →
      first ∈ patchedData.contributors := by
    rintro first ⟨rest, members⟩
    exact (mem_membersOf.mp (members ▸ List.mem_cons_self)).1
  have each : ∀ first ∈ patchedData.contributors,
      ((patchedData.opened first).perm = .rx →
        (patchedData.opened first).protection ≠ .written) ∧
      (patchedData.opened first).protection ≠ .relro := by
    decide +kernel
  refine ⟨layout, computed, (protectsRelro_iff
    (noWrap_of_fitsPrebuilt (by decide +kernel) (by decide +kernel)
      (by decide +kernel)) computed (hasRelro_of_any
        (by decide +kernel) computed)).mpr ⟨?_, ?_⟩⟩
  · exact fun first opens => (each first (opening first opens)).1
  · exact fun first opens isRelro =>
      absurd isRelro (each first (opening first opens)).2

/-- The section that is executable too is placed in front of `.dynamic`. -/
theorem patchedCode_not_protectsRelro :
    ∃ layout, patchedCode.computeLayoutIcf = .ok layout ∧
      (∃ header ∈ layout.segments, header.pType = ptGnuRelro) ∧
      (∀ pre, patchedCode.prebuildDynamic = .ok pre → patchedCode.NoWrap pre) ∧
      ¬ ProtectsRelro 0x1000 layout := by
  rcases @exists_layout patchedCode (by decide +kernel) with ⟨layout, computed⟩
  refine ⟨layout, computed,
    hasRelro_of_any (by decide +kernel) computed,
    noWrap_of_fitsPrebuilt (by decide +kernel) (by decide +kernel)
      (by decide +kernel), fun protects => ?_⟩
  have places := @any_of_computed patchedCode (fun layout =>
    (layout.outputSections.map OutputSection.protection)[5]? == some .written &&
      (layout.outputSections.map OutputSection.protection)[7]? == some .relro)
    layout (by decide +kernel) computed
  rw [Bool.and_eq_true, beq_iff_eq, beq_iff_eq] at places
  rcases List.getElem?_eq_some_iff.mp places.1 with ⟨before, isWritten⟩
  rcases List.getElem?_eq_some_iff.mp places.2 with ⟨after, isReadOnly⟩
  exact List.pairwise_iff_getElem.mp protects.order 5 7 before after (by decide)
    ⟨isWritten, isReadOnly⟩

end LayoutInput

end Peony
