import Peony.Foundation.KeyedGroups
import Peony.Layout.Config
import Peony.Layout.FoldMeaning

namespace Peony

/-! Pass 5: which input sections contribute bytes, and the output sections that
they are merged into. -/

/-! ## The input sections -/

/-- An input section with its object and its position in the object. -/
abbrev Contributor := Icf.Place

namespace Icf.Place

/-- The alignment that the layout takes the section to have. -/
def align (member : Contributor) : UInt64 :=
  if member.sec.align == 0 then 1 else member.sec.align

/-- Whether a symbol of the object lies in the section. Such a section is kept
at size 0, since it marks a boundary. -/
def isAnchored (member : Contributor) : Bool :=
  member.obj.symbols.any fun sym => sym.sectionIndex == some member.sec.index

end Icf.Place

def inputSections (objects : List InputObject) : List Contributor :=
  Icf.places objects

namespace LayoutInput

variable (input : LayoutInput)

/-- The section is to appear in the image: it is allocatable, not an empty one
without a symbol, and the filter lets it pass. -/
def emits (member : Contributor) : Bool :=
  isAllocatable member.sec &&
    !(member.sec.size == 0 && !member.isAnchored) &&
    input.live.emits member.label

def foldsTo (key : SectionKey) : Option SectionKey :=
  input.foldMap.bind fun foldMap => foldMap.lookup key

def contributes (member : Contributor) : Bool :=
  input.emits member && (input.foldsTo member.label).isNone

def contributors : List Contributor :=
  (inputSections input.objects).filter input.contributes

/-- The output section of an input section. -/
def outName (name : Name) : Name :=
  (input.config.script.bind fun script => script.outputForInput name).getD
    (outputSectionName name)

end LayoutInput

/-! ## Output sections -/

def flagMask : UInt64 := shfAlloc ||| shfWrite ||| shfExecinstr ||| shfTls

namespace Builder

def isNobitsKind (kind : SectionKind) : Bool := kind == .bss || kind == .tbss

def shTypeOf (outName : Name) (sec : InputSection) : UInt32 :=
  if isNobitsKind sec.kind then shtNobits
  else if outName = nameOf ".init_array" then shtInitArray
  else if outName = nameOf ".fini_array" then shtFiniArray
  else if outName = nameOf ".preinit_array" then shtPreinitArray
  else if (nameOf ".note").isPrefixOf outName || sec.shType == shtNote then
    shtNote
  else shtProgbits

/-- The output section that the first of its members opens. -/
def start (outName : Name) (member : Contributor) : Builder where
  name := outName
  kind := member.sec.kind
  shFlags := member.sec.flags &&& flagMask
  shType := shTypeOf outName member.sec
  align := member.align
  size := 0
  perm := permOf member.sec.flags
  isNobits := isNobitsKind member.sec.kind
  contributions := []

def add (b : Builder) (member : Contributor) : Builder :=
  let off := alignUp b.size member.align
  { b with
    contributions := b.contributions ++ [{
      objectId := member.objId
      sectionIndex := member.sec.index
      sectionPos := member.pos
      offset := off
      size := member.sec.size }]
    size := off + member.sec.size
    align := max b.align member.align }

end Builder

namespace LayoutInput

variable (input : LayoutInput)

def grouping : Grouping Contributor Builder Name where
  keyOf member := input.outName member.sec.name
  label b := b.name
  start member := Builder.start (input.outName member.sec.name) member
  add := Builder.add
  label_start _ := rfl
  label_add _ _ := rfl

def groupSection (builders : List Builder) (member : Contributor) :
    Except LayoutError (List Builder) :=
  if member.align.toNat.isPowerOfTwo then .ok (input.grouping.put member builders)
  else .error (.badAlignment member.align member.obj.path)

/-- The output sections that the contributors are merged into. -/
def groups : List Builder := input.grouping.gather input.contributors

/-- The output sections in the order in which they are first seen. -/
def groupInputs : Except LayoutError (List Builder) :=
  input.contributors.foldlM input.groupSection []

end LayoutInput

/-! ## What grouping gives -/

theorem mem_inputSections {objects : List InputObject} {member : Contributor} :
    member ∈ inputSections objects ↔
      objects[member.objId]? = some member.obj ∧
        member.obj.sections[member.pos]? = some member.sec :=
  Icf.mem_places

theorem label_nodup_inputSections {objects : List InputObject}
    (parsed : ∀ obj ∈ objects, obj.Parsed) :
    ((inputSections objects).map Icf.Place.label).Nodup := by
  have distinct := Icf.label_nodup_places
    (objects.attach.map fun obj =>
      (⟨obj.1, (parsed obj.1 obj.2).distinct⟩ : ParsedObject))
  rwa [List.map_map, show (ParsedObject.toInputObject ∘ fun obj :
      { obj // obj ∈ objects } =>
        (⟨obj.1, (parsed obj.1 obj.2).distinct⟩ : ParsedObject)) =
      Subtype.val from rfl, List.attach_map_subtype_val] at distinct

theorem eq_of_label {objects : List InputObject}
    (parsed : ∀ obj ∈ objects, obj.Parsed) {first second : Contributor}
    (isFirst : first ∈ inputSections objects)
    (isSecond : second ∈ inputSections objects)
    (same : first.label = second.label) : first = second :=
  List.inj_on_of_nodup_map (label_nodup_inputSections parsed) isFirst isSecond same

namespace LayoutInput

variable {input : LayoutInput}

theorem mem_contributors {member : Contributor} :
    member ∈ input.contributors ↔
      member ∈ inputSections input.objects ∧ input.contributes member = true :=
  List.mem_filter

private theorem foldlM_groupSection (members : List Contributor)
    (before : List Contributor) :
    members.foldlM input.groupSection (input.grouping.gather before) =
      match members.find? fun member => !member.align.toNat.isPowerOfTwo with
      | some member => .error (.badAlignment member.align member.obj.path)
      | none => .ok (input.grouping.gather (before ++ members)) := by
  induction members generalizing before with
  | nil => simp [pure, Except.pure]
  | cons member rest induction =>
      rw [List.foldlM_cons, groupSection]
      by_cases aligned : member.align.toNat.isPowerOfTwo
      · rw [if_pos aligned]
        have next := induction (before ++ [member])
        rw [Grouping.gather_append_singleton] at next
        change rest.foldlM input.groupSection
          (input.grouping.put member (input.grouping.gather before)) = _
        rw [next, List.find?_cons_of_neg (by simpa using aligned),
          List.append_assoc]
        rfl
      · rw [if_neg aligned, List.find?_cons_of_pos (by simpa using aligned)]
        rfl

theorem groupInputs_eq_ok {builders : List Builder} :
    input.groupInputs = .ok builders ↔
      (∀ member ∈ input.contributors, member.align.toNat.isPowerOfTwo) ∧
        builders = input.groups := by
  have run := @foldlM_groupSection input input.contributors []
  rw [Grouping.gather_nil, List.nil_append] at run
  rw [groupInputs, groups, run]
  split
  · rename_i member found
    have bad := List.find?_some found
    rw [Bool.not_eq_true', decide_eq_false_iff_not] at bad
    simp only [reduceCtorEq, false_iff, not_and]
    intro allAligned
    exact absurd (allAligned member (List.mem_of_find?_eq_some found)) bad
  · rename_i noneFound
    rw [List.find?_eq_none] at noneFound
    simp only [Except.ok.injEq, eq_comm (a := builders), iff_and_self]
    intro _ member present
    simpa using noneFound member present

/-! ## What a group holds -/

def Holds (b : Builder) (member : Contributor) (c : SectionContribution) : Prop :=
  c ∈ b.contributions ∧ c.key = member.label ∧ c.sectionPos = member.pos ∧
    c.size = member.sec.size ∧ member.align.toNat ∣ c.offset.toNat

theorem collect_append_singleton (first : Contributor)
    (members : List Contributor) (member : Contributor) :
    input.grouping.collect first (members ++ [member]) =
      (input.grouping.collect first members).add member := by
  simp [Grouping.collect, grouping]

theorem collect_shape (first : Contributor) (members : List Contributor) :
    input.grouping.collect first members =
      { Builder.start (input.outName first.sec.name) first with
        align := (input.grouping.collect first members).align
        size := (input.grouping.collect first members).size
        contributions :=
          (input.grouping.collect first members).contributions } := by
  induction members using List.reverseRecOn with
  | nil => rfl
  | append_singleton members member induction =>
      rw [collect_append_singleton, induction]
      rfl

theorem Holds.add {b : Builder} {member : Contributor}
    {c : SectionContribution} (holds : Holds b member c) (last : Contributor) :
    Holds (b.add last) member c :=
  ⟨List.mem_append_left _ holds.1, holds.2⟩

theorem holds_last (b : Builder) {last : Contributor}
    (aligned : last.align.toNat.isPowerOfTwo) :
    ∃ c, Holds (b.add last) last c :=
  ⟨_, List.mem_append_right _ List.mem_cons_self, rfl, rfl, rfl,
    dvd_alignUp aligned _⟩

theorem collect_holds {first member : Contributor}
    {members : List Contributor} (present : member ∈ members)
    (aligned : ∀ member ∈ members, member.align.toNat.isPowerOfTwo) :
    ∃ c, Holds (input.grouping.collect first members) member c := by
  induction members using List.reverseRecOn with
  | nil => exact absurd present List.not_mem_nil
  | append_singleton members last induction =>
      rw [collect_append_singleton]
      rcases List.mem_append.mp present with before | isLast
      · rcases induction before fun member present =>
          aligned member (List.mem_append_left _ present) with ⟨c, holds⟩
        exact ⟨c, holds.add last⟩
      · rw [List.mem_singleton] at isLast
        subst isLast
        exact holds_last _ (aligned _ present)

theorem collect_held {first : Contributor} {members : List Contributor}
    {c : SectionContribution}
    (present : c ∈ (input.grouping.collect first members).contributions)
    (aligned : ∀ member ∈ members, member.align.toNat.isPowerOfTwo) :
    ∃ member ∈ members, Holds (input.grouping.collect first members) member c := by
  induction members using List.reverseRecOn with
  | nil => exact absurd present List.not_mem_nil
  | append_singleton members last induction =>
      rw [collect_append_singleton] at present ⊢
      rcases List.mem_append.mp present with before | isLast
      · rcases induction before fun member present =>
          aligned member (List.mem_append_left _ present) with
          ⟨member, isMember, holds⟩
        exact ⟨member, List.mem_append_left _ isMember, holds.add last⟩
      · rw [List.mem_singleton] at isLast
        subst isLast
        exact ⟨last, List.mem_append_right _ List.mem_cons_self,
          List.mem_append_right _ List.mem_cons_self, rfl, rfl, rfl,
          dvd_alignUp (aligned last
            (List.mem_append_right _ List.mem_cons_self)) _⟩

theorem collect_align {first : Contributor} {members : List Contributor}
    (firstAligned : first.align.toNat.isPowerOfTwo)
    (aligned : ∀ member ∈ members, member.align.toNat.isPowerOfTwo) :
    (input.grouping.collect first members).align.toNat.isPowerOfTwo ∧
      ∀ member ∈ members,
        member.align.toNat ≤ (input.grouping.collect first members).align.toNat := by
  induction members using List.reverseRecOn with
  | nil => exact ⟨firstAligned, fun member present => absurd present List.not_mem_nil⟩
  | append_singleton members last induction =>
      rcases induction fun member present =>
        aligned member (List.mem_append_left _ present) with ⟨power, above⟩
      have grown : (input.grouping.collect first (members ++ [last])).align.toNat =
          max (input.grouping.collect first members).align.toNat
            last.align.toNat := by
        rw [collect_append_singleton]
        exact toNat_max _ _
      rw [grown]
      refine ⟨Alignment.isPowerOfTwo_max power
        (aligned last (List.mem_append_right _ List.mem_cons_self)), ?_⟩
      intro member present
      rcases List.mem_append.mp present with before | isLast
      · exact (above member before).trans (le_max_left _ _)
      · rw [List.mem_singleton] at isLast
        subst isLast
        exact le_max_right _ _

theorem mem_groups {b : Builder} :
    b ∈ input.groups ↔
      ∃ first rest,
        input.contributors.filter (fun member =>
          decide (input.outName member.sec.name = b.name)) = first :: rest ∧
        b = input.grouping.collect first (first :: rest) :=
  input.grouping.mem_gather input.contributors b

section Groups

variable (aligned : ∀ member ∈ input.contributors,
  member.align.toNat.isPowerOfTwo)

include aligned

theorem exists_group {member : Contributor}
    (present : member ∈ input.contributors) :
    ∃ b ∈ input.groups, ∃ c, Holds b member c ∧
      b.align.toNat.isPowerOfTwo ∧ member.align.toNat ≤ b.align.toNat := by
  have labelled : input.outName member.sec.name ∈
      (input.grouping.gather input.contributors).map input.grouping.label :=
    input.grouping.mem_labels_gather.mpr ⟨member, present, rfl⟩
  rcases List.mem_map.mp labelled with ⟨b, isGroup, isName⟩
  rcases mem_groups.mp isGroup with ⟨first, rest, ofName, rfl⟩
  have among : member ∈ first :: rest := by
    rw [← ofName]
    exact List.mem_filter.mpr ⟨present, decide_eq_true isName.symm⟩
  have membersAligned : ∀ member ∈ first :: rest,
      member.align.toNat.isPowerOfTwo := by
    intro other isMember
    rw [← ofName] at isMember
    exact aligned other (List.mem_filter.mp isMember).1
  rcases @collect_holds input first member _ among membersAligned with ⟨c, holds⟩
  rcases @collect_align input first _
    (membersAligned first List.mem_cons_self) membersAligned with ⟨power, above⟩
  exact ⟨_, isGroup, c, holds, power, above member among⟩

theorem groups_aligned : ∀ b ∈ input.groups, b.align.toNat.isPowerOfTwo := by
  intro b isGroup
  rcases mem_groups.mp isGroup with ⟨first, rest, ofName, rfl⟩
  have membersAligned : ∀ member ∈ first :: rest,
      member.align.toNat.isPowerOfTwo := by
    intro other isMember
    rw [← ofName] at isMember
    exact aligned other (List.mem_filter.mp isMember).1
  exact (@collect_align input first _
    (membersAligned first List.mem_cons_self) membersAligned).1

theorem groups_held {b : Builder} (isGroup : b ∈ input.groups)
    {c : SectionContribution} (present : c ∈ b.contributions) :
    ∃ member ∈ input.contributors, Holds b member c ∧
      input.outName member.sec.name = b.name ∧
      member.align.toNat ≤ b.align.toNat := by
  rcases mem_groups.mp isGroup with ⟨first, rest, ofName, rfl⟩
  have members : ∀ member ∈ first :: rest, member ∈ input.contributors ∧
      input.outName member.sec.name =
        (input.grouping.collect first (first :: rest)).name := by
    intro other isMember
    rw [← ofName, List.mem_filter, decide_eq_true_eq] at isMember
    exact isMember
  have membersAligned : ∀ member ∈ first :: rest,
      member.align.toNat.isPowerOfTwo :=
    fun other isMember => aligned other (members other isMember).1
  rcases collect_held present membersAligned with ⟨member, isMember, holds⟩
  exact ⟨member, (members member isMember).1, holds,
    (members member isMember).2,
    (@collect_align input first _ (membersAligned first List.mem_cons_self)
      membersAligned).2 member isMember⟩

end Groups

end LayoutInput

end Peony
