import Peony.Driver.LoadedImage
import Peony.Emit.Relinks

namespace Peony

/-! Runs of links that emit to one file, each with a layout that it computes or takes over. -/

structure Relink where
  link : Link
  linked : Linked
  plan : Option SectionWriteFilter

namespace Relink

def emission (relink : Relink) : LinkEmission where
  arena := relink.link.arena
  objects := relink.link.objects
  symbols := relink.linked.symbols
  layout := relink.linked.layout
  plan := relink.plan

theorem separate {relinks : List Relink}
    (yields : ∀ relink ∈ relinks, relink.link.Yields relink.linked) :
    ∀ e ∈ relinks.map emission, e.layout.Separate e.objects := by
  intro e present
  rcases List.mem_map.mp present with ⟨relink, isRelink, rfl⟩
  exact (yields relink isRelink).separate.1

/-- An emission writes no byte that its report leaves out, but for a table of the frames that
is rewritten alone. -/
theorem allReported_of_yields {relink : Relink} {filter : SectionWriteFilter}
    {opened : List UInt8} {report : EmitWriteReport} {writes : List (Buffer.Patch UInt8)}
    (yields : relink.link.Yields relink.linked)
    (whole : filter.isMinimal = false ∨ relink.linked.layout.firstOf .ehFrameHdr = none)
    (size : opened.length = relink.linked.layout.fileSize)
    (isReport : reportForFilter relink.linked.layout relink.link.objects filter opened.length =
      .ok report)
    (areWrites : emitWrites relink.link.arena relink.link.objects relink.linked.symbols
      relink.linked.layout filter opened = .ok writes) :
    AllReported writes report :=
  yields.separate.1.allReported size whole isReport areWrites

/-- The bytes that are left to an emission decide whether a run of links keeps its file up to
date. -/
theorem relinks_eq_new_iff {relinks : List Relink} {new : LinkEmission → List UInt8}
    (yields : ∀ relink ∈ relinks, relink.link.Yields relink.linked)
    (areNew : ∀ e ∈ relinks.map emission, e.emitNew = .ok (new e))
    (existing : Option (List UInt8)) :
    emitAll existing (relinks.map emission) = .ok ((relinks.map emission).map new) ↔
      Kept new existing (relinks.map emission) :=
  ⟨kept_of_emitAll (separate yields) areNew, emitAll_of_kept (separate yields) areNew⟩

/-- A run of links that begins without a file, and in which each link changes no more than its
plan takes into account, leaves the file of a link that is not incremental after each of them. -/
theorem relinks_of_follows {relinks : List Relink} {new : LinkEmission → List UInt8}
    (yields : ∀ relink ∈ relinks, relink.link.Yields relink.linked)
    (areNew : ∀ e ∈ relinks.map emission, e.emitNew = .ok (new e))
    (chain : (relinks.map emission).IsChain fun previous next =>
      Follows previous next (new previous) (new next)) :
    emitAll none (relinks.map emission) = .ok ((relinks.map emission).map new) := by
  apply (relinks_eq_new_iff yields areNew none).mpr
  have separated := separate yields
  cases emissions : relinks.map emission with
  | nil => trivial
  | cons e rest =>
      rw [emissions] at separated areNew chain
      refine ⟨fun old isOld => ?_, kept_of_follows separated areNew chain⟩
      cases isOld

theorem patchIfuncPltRelocs_of_nil {layout : Layout} (symbols : SymbolTable)
    (none : layout.ifuncPltPatches = []) : patchIfuncPltRelocs layout symbols = layout := by
  have unpatched : layout.ifuncPltPatches.filterMap
      (addendPatch symbols layout.dynBlobs.relaPlt.length) = [] := by
    rw [none]
    rfl
  rw [patchIfuncPltRelocs, unpatched]
  rfl

/-! The image is linked, its data are edited, and it is linked with the layout it has. -/

open Link

def imageRelinked : Linked :=
  match (imageLink 2).reuse imageLinked.layout with
  | .ok linked => linked
  | .error _ => ⟨SymbolTable.new, {}⟩

def imageRelinks : List Relink :=
  [⟨imageLink 1, imageLinked, none⟩, ⟨imageLink 2, imageRelinked, some (.changedObjects [0])⟩]

/-- All that is evaluated of the links. -/
private def relinksFit : Bool :=
  ((imageLink 2).reuse imageLinked.layout).toOption.isSome &&
  imageLinked.layout.ifuncPltPatches.isEmpty &&
  (imageLinked.layout.outputSections.all fun s => s.contributions.all fun c =>
    c.objectId == 0 && (workItemOf (imageLink 2).objects s c).all fun item =>
      decide (item.fileLen.toNat ≤ c.size.toNat)) &&
  imageLinked.layout.ehFrame.isNone &&
  (imageLinked.layout.gotSlots.all fun id =>
    slotAddress imageLinked.symbols id == slotAddress imageRelinked.symbols id) &&
  (imageLinked.layout.symtab.all fun entry =>
    symtabRecord imageLinked.symbols entry == symtabRecord imageRelinked.symbols entry) &&
  ((imageRelinks.map emission).all fun e => (dataWrites e.arena e.objects e.symbols e.layout .all
    e.layout.fileSize).toOption.isSome) &&
  (imageLinked.layout.firstOf .ehFrameHdr).isNone &&
  (reportForFilter imageLinked.layout (imageLink 1).objects (.changedObjects [0])
    imageLinked.layout.fileSize).toOption.isSome &&
  (dataWrites (imageLink 1).arena (imageLink 1).objects imageLinked.symbols imageLinked.layout
    (.changedObjects [0]) imageLinked.layout.fileSize).toOption.isSome

private theorem relinks_evaluated : relinksFit = true := by
  decide +kernel

private theorem imageRelinked_reused :
    (imageLink 2).reuse imageLinked.layout = .ok imageRelinked := by
  have evaluated := relinks_evaluated
  simp only [relinksFit, Bool.and_eq_true] at evaluated
  rcases evaluated with ⟨⟨⟨⟨⟨⟨⟨⟨⟨isOk, _⟩, _⟩, _⟩, _⟩, _⟩, _⟩, _⟩, _⟩, _⟩
  unfold imageRelinked
  rcases exists_ok_of_isSome isOk with ⟨found, linked⟩
  rw [linked]

private theorem imageRelinked_layout : imageRelinked.layout = imageLinked.layout := by
  have evaluated := relinks_evaluated
  simp only [relinksFit, Bool.and_eq_true, List.isEmpty_iff] at evaluated
  rcases evaluated with ⟨⟨⟨⟨⟨⟨⟨⟨⟨_, unpatched⟩, _⟩, _⟩, _⟩, _⟩, _⟩, _⟩, _⟩, _⟩
  have reused := imageRelinked_reused
  rw [reuse] at reused
  split at reused
  · cases reused
  · rw [eq_of_checked _ reused]
    exact patchIfuncPltRelocs_of_nil _ unpatched

private theorem imageRelinks_yields :
    ∀ relink ∈ imageRelinks, relink.link.Yields relink.linked := by
  have evaluated := relinks_evaluated
  simp only [relinksFit, Bool.and_eq_true, List.all_eq_true] at evaluated
  rcases evaluated with ⟨⟨⟨⟨⟨⟨⟨⟨_, each⟩, _⟩, _⟩, _⟩, _⟩, _⟩, _⟩, _⟩
  intro relink present
  rcases List.mem_cons.mp present with rfl | isSecond
  · exact .computed image_ran
  · rw [List.mem_singleton.mp isSecond]
    apply Yields.reused image_ran imageRelinked_reused
    intro s isPlaced c among item isItem
    have fits := (each s isPlaced c among).2
    rw [Option.mem_def.mp isItem] at fits
    exact of_decide_eq_true fits

private theorem imageRelinks_new : ∀ e ∈ imageRelinks.map emission,
    e.emitNew = .ok (e.emitNew.toOption.getD []) := by
  have evaluated := relinks_evaluated
  simp only [relinksFit, Bool.and_eq_true] at evaluated
  intro e present
  have isData := List.all_eq_true.mp evaluated.1.1.1.2 e present
  rcases exists_ok_of_isSome isData with ⟨all, isAll⟩
  have emitted : e.emitNew = _ := emitFull_of_data isAll none
  rw [emitted]
  rfl

theorem allReported_of_yields_image :
    ∃ report writes,
      reportForFilter imageLinked.layout (imageLink 1).objects (.changedObjects [0])
        (List.replicate imageLinked.layout.fileSize (0 : UInt8)).length = .ok report ∧
      emitWrites (imageLink 1).arena (imageLink 1).objects imageLinked.symbols
        imageLinked.layout (.changedObjects [0])
        (List.replicate imageLinked.layout.fileSize 0) = .ok writes ∧
      AllReported writes report := by
  have evaluated := relinks_evaluated
  simp only [relinksFit, Bool.and_eq_true, Option.isNone_iff_eq_none] at evaluated
  rcases evaluated with ⟨⟨⟨_, noTable⟩, isReport⟩, isData⟩
  rcases exists_ok_of_isSome isReport with ⟨report, isReport⟩
  rcases exists_ok_of_isSome isData with ⟨data, isData⟩
  have size : (List.replicate imageLinked.layout.fileSize (0 : UInt8)).length =
      imageLinked.layout.fileSize := List.length_replicate
  rw [← size] at isReport isData
  have areWrites := emitWrites_of_data isData
  exact ⟨report, _, isReport, areWrites,
    @allReported_of_yields ⟨imageLink 1, imageLinked, none⟩ _ _ _ _ (.computed image_ran)
      (.inr noTable) size isReport areWrites⟩

theorem relinks_of_follows_image :
    emitAll none (imageRelinks.map emission) =
      .ok ((imageRelinks.map emission).map fun e => e.emitNew.toOption.getD []) := by
  have evaluated := relinks_evaluated
  simp only [relinksFit, Bool.and_eq_true, List.all_eq_true, beq_iff_eq,
    Option.isNone_iff_eq_none] at evaluated
  rcases evaluated with ⟨⟨⟨⟨⟨⟨⟨⟨_, each⟩, noFrames⟩, slots⟩, entries⟩, _⟩, _⟩, _⟩, _⟩
  apply relinks_of_follows imageRelinks_yields imageRelinks_new
  apply List.IsChain.cons_cons
  · refine @Follows.reused _ _ _ _ [0] rfl imageRelinked_layout ?_ ?_ ?_ ?_ ?_
    · intro id present
      exact slots id (imageRelinked_layout ▸ present)
    · intro entry present
      exact entries entry (imageRelinked_layout ▸ present)
    · intro s present c among
      rfl
    · intro s present c among other
      have isFirst := (each s (imageRelinked_layout ▸ present) c among).1
      exact absurd (List.mem_singleton.mpr isFirst) other
    · intro eh isEh
      have isFrame : imageRelinked.layout.ehFrame = some eh := isEh
      rw [imageRelinked_layout, noFrames] at isFrame
      cases isFrame
  · exact List.isChain_singleton _

end Relink

end Peony
