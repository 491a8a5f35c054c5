import Peony.Gc.Reachability
import Peony.Layout.Script

namespace Peony

/-! The sections a link emits: what the collection leaves live, what the script
keeps, and without the members of discarded groups. The script's sections join
the live set once the traversal is over. -/

/-! ## The filter -/

inductive LiveFilter where
  | all
  | only (live : LiveSections)
  | except (dead : Finset SectionKey)

def keptSections (script : ScriptLayout) (objId : Nat) (obj : InputObject) :
    List SectionKey :=
  (obj.sections.filter fun sec =>
    sec.isAlloc && script.keepsInput sec.name).map fun sec => (objId, sec.index)

def addScriptKeptSections (live : LiveSections) (objects : List InputObject)
    (script : ScriptLayout) : LiveSections :=
  (objects.zipIdx.flatMap fun numbered =>
      keptSections script numbered.2 numbered.1).foldl
    (fun live key => (live.insert key).1) live

/-- The live set with what the script keeps, before groups are discarded. -/
def liveBeforeComdat (objects : List InputObject) (collected : GcOutput)
    (script : Option ScriptLayout) : LiveSections :=
  match script with
  | some script => addScriptKeptSections collected.live objects script
  | none => collected.live

/-- The filter for the layout, given what the collection leaves when it runs. -/
def computeLive (objects : List InputObject) (gc : Bool) (collected : GcOutput)
    (comdatExcluded : List SectionKey) (script : Option ScriptLayout) :
    LiveFilter :=
  if gc then
    .only (comdatExcluded.foldl (fun live key => (live.remove key).1)
      (liveBeforeComdat objects collected script))
  else if comdatExcluded.isEmpty then .all
  else .except comdatExcluded.toFinset

/-! ## What the script adds -/

namespace Gc

/-- An allocated section that a `KEEP` pattern of the script matches. -/
def KeptByScript (objects : List InputObject) (script : ScriptLayout)
    (key : SectionKey) : Prop :=
  ∃ obj, objects[key.1]? = some obj ∧
    ∃ sec ∈ obj.sections, sec.index = key.2 ∧
      sec.isAlloc = true ∧ script.keepsInput sec.name = true

theorem KeptByScript.isSection {objects : List InputObject}
    {script : ScriptLayout} {key : SectionKey}
    (kept : KeptByScript objects script key) : IsSection objects key := by
  rcases kept with ⟨obj, isObject, sec, member, isIndex, _⟩
  exact ⟨obj, isObject, sec, member, isIndex⟩

end Gc

theorem mem_keptSections {objects : List InputObject} {script : ScriptLayout}
    {key : SectionKey} :
    (key ∈ objects.zipIdx.flatMap fun numbered =>
      keptSections script numbered.2 numbered.1) ↔
      Gc.KeptByScript objects script key := by
  simp only [List.mem_flatMap, keptSections, List.mem_map, List.mem_filter,
    Bool.and_eq_true]
  constructor
  · rintro ⟨⟨obj, objId⟩, isObject, sec, ⟨member, isAlloc, keeps⟩, rfl⟩
    exact ⟨obj, List.mem_zipIdx_iff_getElem?.mp isObject, sec, member, rfl,
      isAlloc, keeps⟩
  · rintro ⟨obj, isObject, sec, member, isIndex, isAlloc, keeps⟩
    exact ⟨(obj, key.1), List.mem_zipIdx_iff_getElem?.mpr isObject, sec,
      ⟨member, isAlloc, keeps⟩, Prod.ext rfl isIndex⟩

private theorem contains_foldl_insert (keys : List SectionKey)
    (live : LiveSections) (other : SectionKey) :
    (keys.foldl (fun live key => (live.insert key).1) live).contains other =
        true ↔
      live.contains other = true ∨
        (other ∈ keys ∧ live.covers other = true) := by
  induction keys generalizing live with
  | nil => simp
  | cons key rest induction =>
      rw [List.foldl_cons, induction, LiveSections.contains_insert,
        LiveSections.covers_insert, Bool.or_eq_true, Bool.and_eq_true,
        decide_eq_true_eq, List.mem_cons]
      constructor
      · rintro ((before | ⟨rfl, covered⟩) | ⟨member, covered⟩)
        · exact .inl before
        · exact .inr ⟨.inl rfl, covered⟩
        · exact .inr ⟨.inr member, covered⟩
      · rintro (before | ⟨rfl | member, covered⟩)
        · exact .inl (.inl before)
        · exact .inl (.inr ⟨rfl, covered⟩)
        · exact .inr ⟨member, covered⟩

section Parsed

variable {objects : List InputObject} (parsed : ∀ obj ∈ objects, obj.Parsed)
variable {symbols : SymbolTable} {entrySymbol : Name} {exportRoots : Bool}

include parsed

theorem GcRun.covers {out : GcOutput}
    (run : GcRun objects symbols entrySymbol exportRoots out)
    {key : SectionKey} (isSection : Gc.IsSection objects key) :
    out.live.covers key = true := by
  cases run with
  | @intro maps targetStats final indexed steps finished =>
      have marks := (GcTraversal.marks_seeded parsed symbols entrySymbol
        exportRoots maps targetStats).run steps
      rcases isSection with ⟨obj, isObject, sec, member, isIndex⟩
      exact (marks.covers key).trans
        (LiveSections.covers_new isObject member isIndex)

theorem GcRun.liveBeforeComdat_iff (numbered : objects.length < 2 ^ 32)
    {out : GcOutput} (run : GcRun objects symbols entrySymbol exportRoots out)
    (script : ScriptLayout) {key : SectionKey}
    (isSection : Gc.IsSection objects key) :
    (liveBeforeComdat objects out (some script)).contains key = true ↔
      Worklist.Reachable (Gc.IsRoot objects symbols entrySymbol exportRoots)
          (Gc.References objects symbols) key ∨
        Gc.KeptByScript objects script key := by
  rw [liveBeforeComdat, addScriptKeptSections, contains_foldl_insert,
    mem_keptSections, run.live_iff parsed numbered isSection,
    run.covers parsed isSection]
  exact or_congr_right (and_iff_left rfl)

/-! ## Closure of the live set -/

namespace Gc

/-- The set has every root that is a section, every section that the script
keeps, and every section that one of its sections refers to. -/
def Closed (objects : List InputObject) (symbols : SymbolTable)
    (entrySymbol : Name) (exportRoots : Bool) (script : ScriptLayout)
    (live : LiveSections) : Prop :=
  (∀ key, IsSection objects key →
    IsRoot objects symbols entrySymbol exportRoots key ∨
      KeptByScript objects script key →
    live.contains key = true) ∧
  ∀ source target, IsSection objects target →
    live.contains source = true → References objects symbols source target →
      live.contains target = true

end Gc

/-- The live set is closed exactly when every section that a kept section refers
to is kept too or reached from the roots of the collection. -/
theorem liveBeforeComdat_closed_iff (numbered : objects.length < 2 ^ 32)
    {out : GcOutput} (run : GcRun objects symbols entrySymbol exportRoots out)
    (script : ScriptLayout) :
    Gc.Closed objects symbols entrySymbol exportRoots script
        (liveBeforeComdat objects out (some script)) ↔
      ∀ source target, Gc.KeptByScript objects script source →
        Gc.IsSection objects target →
        Gc.References objects symbols source target →
          Worklist.Reachable
              (Gc.IsRoot objects symbols entrySymbol exportRoots)
              (Gc.References objects symbols) target ∨
            Gc.KeptByScript objects script target := by
  have live : ∀ key, Gc.IsSection objects key → _ := fun key isSection =>
    run.liveBeforeComdat_iff parsed numbered script isSection
  constructor
  · rintro ⟨hasRoots, closed⟩ source target kept isTarget references
    rw [← live target isTarget]
    have sourceLive := hasRoots source kept.isSection (.inr kept)
    exact closed source target isTarget sourceLive references
  · intro keptReferences
    constructor
    · intro key isSection isRoot
      rw [live key isSection]
      exact isRoot.imp_left .root
    · intro source target isTarget sourceLive references
      rw [live source references.isSection] at sourceLive
      rw [live target isTarget]
      rcases sourceLive with reached | kept
      · exact .inl (.step reached references)
      · exact keptReferences source target kept isTarget references

end Parsed

theorem liveBeforeComdat_closed_iff_keepObject :
    Gc.Closed [Gc.keepObject] Gc.keepTable (nameOf "_start") false
        ScriptLayout.empty
        (liveBeforeComdat [Gc.keepObject]
          (gcSectionsRootedWithStats [Gc.keepObject] Gc.keepTable
            (nameOf "_start") false) (some ScriptLayout.empty)) := by
  refine (liveBeforeComdat_closed_iff Gc.keepObject_parsed (by decide)
    (gcSectionsRootedWithStats_run _ _ _ _) ScriptLayout.empty).mpr ?_
  rintro source target ⟨_, _, sec, _, _, _, keeps⟩
  rw [ScriptLayout.keepsInput] at keeps
  split at keeps <;> simp [ScriptLayout.empty] at keeps

/-- `KEEP(*(.text.keep))` keeps the section and drops what it calls. -/
theorem keepPattern_not_closed :
    ¬ Gc.Closed [Gc.keepObject] Gc.keepTable (nameOf "_start") false
        ⟨[], [ascii ".text.keep"]⟩
        (liveBeforeComdat [Gc.keepObject]
          (gcSectionsRootedWithStats [Gc.keepObject] Gc.keepTable
            (nameOf "_start") false) (some ⟨[], [ascii ".text.keep"]⟩)) := by
  rintro ⟨_, closed⟩
  have helper : Gc.IsSection [Gc.keepObject] (0, 3) :=
    ⟨Gc.keepObject, rfl, Gc.textSection 3 ".text.helper" [], by decide, rfl⟩
  have calls : Gc.References [Gc.keepObject] Gc.keepTable (0, 2) (0, 3) :=
    ⟨Gc.keepObject, rfl, Gc.textSection 2 ".text.keep" [⟨1, 4, 2, -4⟩],
      by decide, rfl, ⟨1, 4, 2, -4⟩, by decide,
      Gc.functionSymbol 2 "helper" .local 3, by decide, rfl, rfl⟩
  have helperLive := closed (0, 2) (0, 3) helper (by decide +kernel) calls
  revert helperLive
  decide +kernel

end Peony
