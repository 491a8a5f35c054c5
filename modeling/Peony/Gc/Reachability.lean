import Peony.Gc.Traversal
import Peony.Symbols.Resolution

namespace Peony

/-! The collection marks what the roots reach. Whatever the loop does next, one
step keeps the invariant of the search, and no run goes on forever. -/

/-! ## Sections and references -/

namespace Gc

def IsSection (objects : List InputObject) (key : SectionKey) : Prop :=
  ∃ obj, objects[key.1]? = some obj ∧
    ∃ sec ∈ obj.sections, sec.index = key.2

/-- A relocation of the first section refers to the second one: through a local
symbol within the object, through any other by what its name resolves to. -/
def References (objects : List InputObject) (symbols : SymbolTable)
    (source target : SectionKey) : Prop :=
  ∃ obj, objects[source.1]? = some obj ∧
    ∃ sec ∈ obj.sections, sec.index = source.2 ∧
      ∃ reloc ∈ sec.relocs, ∃ sym ∈ obj.symbols, sym.index = reloc.symbol ∧
        GcObjectTargets.symbolTarget source.1 sym symbols = some target

def IsRoot (objects : List InputObject) (symbols : SymbolTable)
    (entrySymbol : Name) (exportRoots : Bool) (key : SectionKey) : Prop :=
  ∃ root ∈ collectRoots objects symbols entrySymbol exportRoots,
    root.sectionKey = key

end Gc

namespace GcGraph

def IsRoot (graph : GcGraph) (key : SectionKey) : Prop :=
  ∃ root ∈ graph.roots, root.sectionKey = key

def HasEdge (graph : GcGraph) (source target : SectionKey) : Prop :=
  ∃ edge ∈ graph.edges, edge.source = source ∧ edge.target = target

end GcGraph

namespace GcContext

/-- Some relocation of the section, taken as a work item, has the target. -/
def Refers (ctx : GcContext) (source target : SectionKey) : Prop :=
  ∃ item, ctx.itemForKey source = some item ∧
    target ∈ (ctx.collectTargets item).1

theorem key_of_itemForKey {ctx : GcContext} {key : SectionKey}
    {item : GcWorkItem} (found : ctx.itemForKey key = some item) :
    item.key = key := by
  simp only [itemForKey, Option.bind_eq_bind, Option.bind_eq_some_iff,
    Option.pure_def, Option.some.injEq] at found
  rcases found with ⟨obj, _, pos, _, rfl⟩
  rfl

section Parsed

variable {objects : List InputObject} (parsed : ∀ obj ∈ objects, obj.Parsed)
variable {maps : List GcObjectTargets}

include parsed

theorem itemForKey_iff (key : SectionKey) (item : GcWorkItem) :
    (GcContext.mk objects maps).itemForKey key = some item ↔
      item.key = key ∧ ∃ obj, objects[key.1]? = some obj ∧
        ∃ sec, obj.sections[item.sectionPos]? = some sec ∧
          sec.index = key.2 := by
  simp only [itemForKey, Option.bind_eq_bind, Option.bind_eq_some_iff,
    Option.pure_def, Option.some.injEq]
  constructor
  · rintro ⟨obj, isObject, pos, isPos, rfl⟩
    have objParsed := parsed obj (List.mem_of_getElem? isObject)
    exact ⟨rfl, obj, isObject, (objParsed.sectionPos_iff key.2 pos).mp isPos⟩
  · rintro ⟨rfl, obj, isObject, atPos⟩
    have objParsed := parsed obj (List.mem_of_getElem? isObject)
    exact ⟨obj, isObject, item.sectionPos,
      (objParsed.sectionPos_iff item.key.2 item.sectionPos).mpr atPos, rfl⟩

variable (maps) in
theorem isSection_iff (key : SectionKey) :
    Gc.IsSection objects key ↔
      ∃ item, (GcContext.mk objects maps).itemForKey key = some item := by
  constructor
  · rintro ⟨obj, isObject, sec, member, isIndex⟩
    rcases List.getElem?_of_mem member with ⟨pos, atPos⟩
    refine ⟨⟨key.1, key.2, pos⟩, (itemForKey_iff parsed _ _).mpr ?_⟩
    exact ⟨rfl, obj, isObject, sec, atPos, isIndex⟩
  · rintro ⟨item, found⟩
    rcases (itemForKey_iff parsed _ _).mp found with
      ⟨_, obj, isObject, sec, atPos, isIndex⟩
    exact ⟨obj, isObject, sec, List.mem_of_getElem? atPos, isIndex⟩

variable {symbols : SymbolTable} (indexed : GcTargetMaps symbols objects maps)

include indexed

theorem target_iff {objectId : Nat} {obj : InputObject}
    (isObject : objects[objectId]? = some obj) (symbolIndex : Nat)
    (key : SectionKey) :
    (GcContext.mk objects maps).target objectId symbolIndex = some key ↔
      ∃ sym ∈ obj.symbols, sym.index = symbolIndex ∧
        (GcObjectTargets.symbolTarget objectId sym symbols >>= pack).bind
          unpack = some key := by
  have inside := (List.getElem?_eq_some_iff.mp isObject).1
  rw [← indexed.1] at inside
  have isTargets := List.getElem?_eq_getElem inside
  have objParsed := parsed obj (List.mem_of_getElem? isObject)
  rw [← GcObjectTargets.get_eq_some_iff objParsed
    (indexed.2 _ _ _ isObject isTargets)]
  simp [target, isTargets]

theorem refers_iff (source target : SectionKey) :
    (GcContext.mk objects maps).Refers source target ↔
      ∃ obj, objects[source.1]? = some obj ∧
        ∃ sec ∈ obj.sections, sec.index = source.2 ∧
          ∃ reloc ∈ sec.relocs, ∃ sym ∈ obj.symbols,
            sym.index = reloc.symbol ∧
              (GcObjectTargets.symbolTarget source.1 sym symbols >>= pack).bind
                unpack = some target := by
  constructor
  · rintro ⟨item, found, isTarget⟩
    rcases (itemForKey_iff parsed _ _).mp found with
      ⟨rfl, obj, isObject, sec, atPos, isIndex⟩
    have isSection : (GcContext.mk objects maps).sectionOf item = some sec := by
      change objects[item.objectId]? = some obj at isObject
      simp [sectionOf, isObject, atPos]
    rw [collectTargets, isSection] at isTarget
    rcases List.mem_filterMap.mp isTarget with ⟨reloc, member, resolved⟩
    exact ⟨obj, isObject, sec, List.mem_of_getElem? atPos, isIndex, reloc, member,
      (target_iff parsed indexed isObject _ _).mp resolved⟩
  · rintro ⟨obj, isObject, sec, isSec, isIndex, reloc, member, resolved⟩
    rcases List.getElem?_of_mem isSec with ⟨pos, atPos⟩
    refine ⟨⟨source.1, source.2, pos⟩, (itemForKey_iff parsed _ _).mpr
      ⟨rfl, obj, isObject, sec, atPos, isIndex⟩, ?_⟩
    have isSection : (GcContext.mk objects maps).sectionOf
        ⟨source.1, source.2, pos⟩ = some sec := by
      simp [sectionOf, isObject, atPos]
    rw [collectTargets, isSection]
    exact List.mem_filterMap.mpr ⟨reloc, member,
      (target_iff parsed indexed isObject _ _).mpr resolved⟩

theorem refers_iff_references (numbered : objects.length < 2 ^ 32)
    (source : SectionKey) {target : SectionKey}
    (isSection : Gc.IsSection objects target) :
    (GcContext.mk objects maps).Refers source target ↔
      Gc.References objects symbols source target := by
  have fits : (pack target).bind unpack = some target := by
    rcases isSection with ⟨obj, isObject, sec, member, isIndex⟩
    have inside := (List.getElem?_eq_some_iff.mp isObject).1
    have bounded := (parsed obj (List.mem_of_getElem? isObject)).sectionIndex_lt
      sec member
    rw [isIndex] at bounded
    exact unpack_pack (by omega) bounded
  have resolves : ∀ sym : InputSymbol,
      (GcObjectTargets.symbolTarget source.1 sym symbols >>= pack).bind unpack =
          some target ↔
        GcObjectTargets.symbolTarget source.1 sym symbols = some target := by
    intro sym
    cases GcObjectTargets.symbolTarget source.1 sym symbols with
    | none => simp
    | some found =>
        rw [Option.bind_eq_bind, Option.bind_some]
        constructor
        · intro unpacked
          rw [eq_of_unpack_pack unpacked]
        · intro same
          cases same
          exact fits
  rw [refers_iff parsed indexed]
  simp only [resolves]
  rfl

end Parsed

end GcContext

/-! ## Inserting keys -/

namespace GcTraversal

variable {ctx : GcContext}

theorem covers_foldl_insertKey (keys : List SectionKey) (state : GcTraversal)
    (other : SectionKey) :
    (keys.foldl (insertKey ctx) state).live.covers other =
      state.live.covers other := by
  induction keys generalizing state with
  | nil => rfl
  | cons key rest induction =>
      rw [List.foldl_cons, induction]
      exact LiveSections.covers_insert _ _ _

theorem contains_foldl_insertKey (keys : List SectionKey) (state : GcTraversal)
    (other : SectionKey) :
    (keys.foldl (insertKey ctx) state).live.contains other = true ↔
      state.live.contains other = true ∨
        (other ∈ keys ∧ state.live.covers other = true) := by
  induction keys generalizing state with
  | nil => simp
  | cons key rest induction =>
      rw [List.foldl_cons, induction]
      simp only [insertKey, LiveSections.contains_insert,
        LiveSections.covers_insert, Bool.or_eq_true, Bool.and_eq_true,
        decide_eq_true_eq, List.mem_cons]
      constructor
      · rintro ((before | ⟨rfl, covered⟩) | ⟨member, covered⟩)
        · exact .inl before
        · exact .inr ⟨.inl rfl, covered⟩
        · exact .inr ⟨.inr member, covered⟩
      · rintro (before | ⟨rfl | member, covered⟩)
        · exact .inl (.inl before)
        · exact .inl (.inr ⟨rfl, covered⟩)
        · exact .inr ⟨member, covered⟩

theorem mem_frontier_foldl_insertKey (keys : List SectionKey)
    (state : GcTraversal) (item : GcWorkItem) :
    item ∈ (keys.foldl (insertKey ctx) state).frontier ↔
      item ∈ state.frontier ∨
        ∃ key ∈ keys, state.live.contains key = false ∧
          state.live.covers key = true ∧ ctx.itemForKey key = some item := by
  induction keys generalizing state with
  | nil => simp
  | cons key rest induction =>
      rw [List.foldl_cons, induction]
      simp only [insertKey, LiveSections.insert_isNew,
        LiveSections.contains_insert, LiveSections.covers_insert,
        Bool.or_eq_false_iff, List.mem_cons, exists_eq_or_imp]
      by_cases new : (state.live.covers key && !state.live.contains key) = true
      · have parts := new
        rw [Bool.and_eq_true, Bool.not_eq_true'] at parts
        rw [if_pos new, List.mem_append, Option.mem_toList]
        constructor
        · rintro ((before | found) | ⟨other, member, ⟨absent, _⟩, rest⟩)
          · exact .inl before
          · exact .inr (.inl ⟨parts.2, parts.1, found⟩)
          · exact .inr (.inr ⟨other, member, absent, rest⟩)
        · rintro (before | ⟨_, _, found⟩ | ⟨other, member, absent, covered, found⟩)
          · exact .inl (.inl before)
          · exact .inl (.inr found)
          · by_cases same : other = key
            · subst same
              exact .inl (.inr found)
            · exact .inr ⟨other, member, ⟨absent, by simp [same]⟩, covered, found⟩
      · have known : ∀ other, state.live.covers other = true →
            state.live.contains other = false → other ≠ key := by
          rintro other covered absent rfl
          exact new (by simp [covered, absent])
        rw [if_neg new]
        constructor
        · rintro (before | ⟨other, member, ⟨absent, _⟩, rest⟩)
          · exact .inl before
          · exact .inr (.inr ⟨other, member, absent, rest⟩)
        · rintro (before | ⟨absent, covered, _⟩ | ⟨other, member, absent, covered,
            found⟩)
          · exact .inl before
          · exact absurd rfl (known key covered absent)
          · exact .inr ⟨other, member,
              ⟨absent, by simp [known other covered absent]⟩, covered, found⟩

/-! ## The invariant -/

structure Marks (ctx : GcContext) (began : LiveSections)
    (roots : SectionKey → Prop) (state : GcTraversal) : Prop where
  items : ∀ item ∈ state.frontier, ctx.itemForKey item.key = some item
  marked : ∀ item ∈ state.frontier, state.live.contains item.key = true
  covers : ∀ key, state.live.covers key = began.covers key
  explored : Worklist.Explored roots ctx.Refers
    (fun key => began.covers key = true)
    (fun key => state.live.contains key = true)
    (fun key => ∃ item ∈ state.frontier, item.key = key)

variable {began : LiveSections} {roots : SectionKey → Prop}

private theorem Marks.expand {state start : GcTraversal}
    (marks : Marks ctx began roots state) (batch : List GcWorkItem)
    {keys : List SectionKey} (sameLive : start.live = state.live)
    (split : ∀ item, item ∈ state.frontier ↔
      item ∈ start.frontier ∨ item ∈ batch)
    (collected : ∀ key, key ∈ keys ↔
      ∃ item ∈ batch, key ∈ (ctx.collectTargets item).1) :
    Marks ctx began roots (keys.foldl (insertKey ctx) start) where
  items item member := by
    rcases (mem_frontier_foldl_insertKey ..).mp member with before | ⟨key, _, _, _,
      found⟩
    · exact marks.items item ((split item).mpr (.inl before))
    · rw [GcContext.key_of_itemForKey found]
      exact found
  marked item member := by
    rw [contains_foldl_insertKey]
    rcases (mem_frontier_foldl_insertKey ..).mp member with before | ⟨key, isKey,
      _, covered, found⟩
    · rw [sameLive]
      exact .inl (marks.marked item ((split item).mpr (.inl before)))
    · rw [GcContext.key_of_itemForKey found]
      exact .inr ⟨isKey, covered⟩
  covers key := by
    rw [covers_foldl_insertKey, sameLive]
    exact marks.covers key
  explored := by
    apply marks.explored.expand fun key => ∃ item ∈ batch, item.key = key
    · rintro _ ⟨item, member, rfl⟩
      exact marks.marked item ((split item).mpr (.inr member))
    · intro key
      rw [contains_foldl_insertKey, sameLive, marks.covers key, collected key]
      apply or_congr_right
      constructor
      · rintro ⟨⟨item, member, isTarget⟩, covered⟩
        have itself := marks.items item ((split item).mpr (.inr member))
        exact ⟨item.key, ⟨item, member, rfl⟩, ⟨item, itself, isTarget⟩, covered⟩
      · rintro ⟨_, ⟨item, member, rfl⟩, ⟨other, found, isTarget⟩, covered⟩
        have itself := marks.items item ((split item).mpr (.inr member))
        rw [itself] at found
        cases found
        exact ⟨⟨item, member, isTarget⟩, covered⟩
    · rintro _ ⟨item, member, rfl⟩ notBatch
      refine ⟨item, (mem_frontier_foldl_insertKey ..).mpr (.inl ?_), rfl⟩
      exact ((split item).mp member).resolve_right
        fun inBatch => notBatch ⟨item, inBatch, rfl⟩
    · rintro key target isMarked notBefore ⟨item, found, _⟩
      rw [contains_foldl_insertKey, sameLive] at isMarked
      have added := isMarked.resolve_left notBefore
      refine ⟨item, (mem_frontier_foldl_insertKey ..).mpr (.inr ?_),
        GcContext.key_of_itemForKey found⟩
      rw [sameLive]
      exact ⟨key, added.1, by simpa using notBefore, added.2, found⟩

theorem Marks.step {state next : GcTraversal}
    (marks : Marks ctx began roots state) (step : Step ctx state next) :
    Marks ctx began roots next := by
  cases step with
  | @serial rest item isLast =>
      apply marks.expand [item]
      · rfl
      · intro other
        rw [isLast]
        exact List.mem_append
      · simp
  | @level batches _ perm =>
      apply marks.expand batches.flatten
      · rfl
      · intro other
        rw [← perm.mem_iff]
        simp
      · intro key
        simp only [List.mem_flatMap, List.mem_map, List.mem_flatten]
        constructor
        · rintro ⟨_, ⟨taken, isBatch, rfl⟩, _, isResult, isTarget⟩
          rcases List.mem_map.mp isResult with ⟨item, member, rfl⟩
          exact ⟨item, ⟨taken, isBatch, member⟩, isTarget⟩
        · rintro ⟨item, ⟨taken, isBatch, member⟩, isTarget⟩
          exact ⟨_, ⟨taken, isBatch, rfl⟩, _,
            List.mem_map.mpr ⟨item, member, rfl⟩, isTarget⟩

theorem Marks.run {state final : GcTraversal}
    (marks : Marks ctx began roots state)
    (run : Relation.ReflTransGen (Step ctx) state final) :
    Marks ctx began roots final := by
  induction run with
  | refl => exact marks
  | tail _ step induction => exact induction.step step

/-! ## The roots are seeded -/

private def seedRoot (ctx : GcContext) (state : GcTraversal) (root : GcRoot) :
    GcTraversal :=
  match ctx.itemForKey root.sectionKey with
  | some item => state.insertKnownRoot item
  | none => state

private theorem seedRoot_live (ctx : GcContext) (state : GcTraversal) (root : GcRoot) :
    (seedRoot ctx state root).live =
      if (ctx.itemForKey root.sectionKey).isSome then
        (state.live.insert root.sectionKey).1
      else state.live := by
  unfold seedRoot
  cases found : ctx.itemForKey root.sectionKey with
  | none => simp
  | some item =>
      rw [Option.isSome_some, if_pos rfl, ← GcContext.key_of_itemForKey found]
      unfold insertKnownRoot
      dsimp only
      split <;> rfl

private theorem seedRoot_frontier (ctx : GcContext) (state : GcTraversal) (root : GcRoot) :
    (seedRoot ctx state root).frontier =
      if (state.live.insert root.sectionKey).2 then
        state.frontier ++ (ctx.itemForKey root.sectionKey).toList
      else state.frontier := by
  unfold seedRoot
  cases found : ctx.itemForKey root.sectionKey with
  | none => simp
  | some item =>
      rw [← GcContext.key_of_itemForKey found]
      unfold insertKnownRoot
      dsimp only
      split <;> simp_all

private theorem seeded_iff (ctx : GcContext) (seeds : List GcRoot)
    (state : GcTraversal)
    (fresh : ∀ item, item ∈ state.frontier ↔
      ctx.itemForKey item.key = some item ∧ state.live.contains item.key = true)
    (covered : ∀ key item, ctx.itemForKey key = some item →
      state.live.covers key = true) :
    (∀ key, (state.seedRoots ctx seeds).live.covers key =
      state.live.covers key) ∧
    (∀ key, (state.seedRoots ctx seeds).live.contains key = true ↔
      state.live.contains key = true ∨
        ∃ root ∈ seeds, root.sectionKey = key ∧
          (ctx.itemForKey key).isSome = true) ∧
    ∀ item, item ∈ (state.seedRoots ctx seeds).frontier ↔
      ctx.itemForKey item.key = some item ∧
        (state.seedRoots ctx seeds).live.contains item.key = true := by
  induction seeds generalizing state with
  | nil => exact ⟨fun _ => rfl, by simp [seedRoots], fresh⟩
  | cons root rest induction =>
      have live := seedRoot_live ctx state root
      have frontier := seedRoot_frontier ctx state root
      have coversAfter : ∀ key, (seedRoot ctx state root).live.covers key =
          state.live.covers key := by
        intro key
        rw [live]
        split <;> simp
      have containsAfter : ∀ key,
          (seedRoot ctx state root).live.contains key = true ↔
            state.live.contains key = true ∨
              (root.sectionKey = key ∧ (ctx.itemForKey key).isSome = true) := by
        intro key
        rw [live]
        by_cases isSection : (ctx.itemForKey root.sectionKey).isSome = true
        · rcases Option.isSome_iff_exists.mp isSection with ⟨item, found⟩
          rw [if_pos isSection, LiveSections.contains_insert,
            covered _ _ found, Bool.and_true, Bool.or_eq_true,
            decide_eq_true_eq]
          apply or_congr_right
          constructor
          · rintro rfl
            exact ⟨rfl, isSection⟩
          · exact fun both => both.1.symm
        · rw [if_neg isSection]
          constructor
          · exact .inl
          · rintro (before | ⟨rfl, impossible⟩)
            · exact before
            · exact absurd impossible isSection
      have freshAfter : ∀ item, item ∈ (seedRoot ctx state root).frontier ↔
          ctx.itemForKey item.key = some item ∧
            (seedRoot ctx state root).live.contains item.key = true := by
        intro item
        rw [frontier, containsAfter]
        by_cases new : (state.live.insert root.sectionKey).2 = true
        · rw [if_pos new, List.mem_append, fresh, Option.mem_toList]
          constructor
          · rintro (⟨itself, before⟩ | found)
            · exact ⟨itself, .inl before⟩
            · have same := GcContext.key_of_itemForKey found
              rw [same]
              exact ⟨found, .inr ⟨rfl, by simp [found]⟩⟩
          · rintro ⟨itself, before | ⟨same, _⟩⟩
            · exact .inl ⟨itself, before⟩
            · rw [same]
              exact .inr itself
        · rw [if_neg new, fresh]
          constructor
          · rintro ⟨itself, before⟩
            exact ⟨itself, .inl before⟩
          · rintro ⟨itself, before | ⟨same, _⟩⟩
            · exact ⟨itself, before⟩
            · refine ⟨itself, ?_⟩
              rw [LiveSections.insert_isNew, same, covered _ _ itself,
                Bool.true_and, Bool.not_eq_true, Bool.not_eq_false'] at new
              exact new
      have others := induction (seedRoot ctx state root) freshAfter
        fun key item found => (coversAfter key).trans (covered key item found)
      rw [seedRoots, List.foldl_cons]
      refine ⟨fun key => (others.1 key).trans (coversAfter key), ?_, others.2.2⟩
      intro key
      refine (others.2.1 key).trans ?_
      rw [containsAfter key]
      simp only [List.mem_cons, exists_eq_or_imp, or_assoc]

section Parsed

variable {objects : List InputObject} (parsed : ∀ obj ∈ objects, obj.Parsed)
variable {symbols : SymbolTable} {entrySymbol : Name} {exportRoots : Bool}
variable {maps : List GcObjectTargets} {targetStats : GcTargetStats}

include parsed

variable (symbols entrySymbol exportRoots maps targetStats) in
theorem marks_seeded :
    Marks ⟨objects, maps⟩ (LiveSections.new objects)
      (fun key => Gc.IsRoot objects symbols entrySymbol exportRoots key ∧
        Gc.IsSection objects key)
      (gcSeeded objects symbols entrySymbol exportRoots maps targetStats) := by
  have covered : ∀ key item,
      (GcContext.mk objects maps).itemForKey key = some item →
        (LiveSections.new objects).covers key = true := by
    intro key item found
    rcases (GcContext.itemForKey_iff parsed key item).mp found with
      ⟨_, obj, isObject, sec, atPos, isIndex⟩
    exact LiveSections.covers_new isObject (List.mem_of_getElem? atPos) isIndex
  have seeded := seeded_iff ⟨objects, maps⟩
    (Gc.collectRoots objects symbols entrySymbol exportRoots)
    (GcTraversal.new objects targetStats) (by simp [GcTraversal.new]) covered
  have rootsMarked : (fun key =>
      (gcSeeded objects symbols entrySymbol exportRoots maps
        targetStats).live.contains key = true) =
      fun key => Gc.IsRoot objects symbols entrySymbol exportRoots key ∧
        Gc.IsSection objects key := by
    funext key
    refine propext ((seeded.2.1 key).trans ?_)
    rw [GcContext.isSection_iff parsed maps key, ← Option.isSome_iff_exists]
    simp only [GcTraversal.new, LiveSections.contains_new, Bool.false_eq_true,
      false_or, Gc.IsRoot]
    constructor
    · rintro ⟨root, member, same, isSection⟩
      exact ⟨⟨root, member, same⟩, isSection⟩
    · rintro ⟨⟨root, member, same⟩, isSection⟩
      exact ⟨root, member, same, isSection⟩
  have rootsPending : (fun key => ∃ item ∈ (gcSeeded objects symbols entrySymbol
      exportRoots maps targetStats).frontier, item.key = key) =
      fun key => Gc.IsRoot objects symbols entrySymbol exportRoots key ∧
        Gc.IsSection objects key := by
    rw [← rootsMarked]
    funext key
    apply propext
    constructor
    · rintro ⟨item, member, rfl⟩
      exact ((seeded.2.2 item).mp member).2
    · intro isMarked
      have isRoot := (congrFun rootsMarked key).mp isMarked
      rcases (GcContext.isSection_iff parsed maps key).mp isRoot.2 with
        ⟨item, found⟩
      have same := GcContext.key_of_itemForKey found
      refine ⟨item, (seeded.2.2 item).mpr ?_, same⟩
      rw [same]
      exact ⟨found, isMarked⟩
  constructor
  · intro item member
    exact ((seeded.2.2 item).mp member).1
  · intro item member
    exact ((seeded.2.2 item).mp member).2
  · exact seeded.1
  · rw [rootsMarked, rootsPending]
    apply Worklist.Explored.start
    rintro key ⟨_, isSection⟩
    rcases (GcContext.isSection_iff parsed maps key).mp isSection with
      ⟨item, found⟩
    exact covered key item found

end Parsed

/-! ## Every run ends -/

/-- The bits that can still be set and the items that wait. -/
def remaining (state : GcTraversal) : Nat :=
  state.live.vacant + state.frontier.length

private theorem remaining_insertKey (state : GcTraversal) (key : SectionKey) :
    (state.insertKey ctx key).remaining ≤ state.remaining := by
  have vacant := state.live.vacant_insert key
  unfold remaining insertKey
  dsimp only
  split
  · rename_i new
    rw [if_pos new] at vacant
    have one : (ctx.itemForKey key).toList.length ≤ 1 := by
      cases ctx.itemForKey key <;> simp
    rw [List.length_append]
    omega
  · rename_i known
    rw [if_neg known] at vacant
    omega

private theorem remaining_foldl_insertKey (ctx : GcContext)
    (keys : List SectionKey)
    (state : GcTraversal) :
    (keys.foldl (insertKey ctx) state).remaining ≤ state.remaining := by
  induction keys generalizing state with
  | nil => exact Nat.le_refl _
  | cons key rest induction =>
      exact (induction _).trans (remaining_insertKey state key)

theorem remaining_lt_of_step {state next : GcTraversal}
    (step : Step ctx state next) : next.remaining < state.remaining := by
  cases step with
  | @serial rest item isLast =>
      have folded := remaining_foldl_insertKey ctx
        (ctx.collectTargets item).1
        ({ state with frontier := rest }.countItem (ctx.collectTargets item).2)
      have before : state.remaining = state.live.vacant + (rest.length + 1) := by
        simp [remaining, isLast]
      have popped : ({ state with frontier := rest }.countItem
          (ctx.collectTargets item).2).remaining =
            state.live.vacant + rest.length := rfl
      exact Nat.lt_of_le_of_lt folded (by omega)
  | level nonempty perm =>
      refine Nat.lt_of_le_of_lt (remaining_foldl_insertKey _ _ _) ?_
      have positive := List.length_pos_iff.mpr nonempty
      simp only [remaining, List.length_nil]
      omega

/-- No run of the loop goes on forever. -/
theorem step_terminates (ctx : GcContext) (state : GcTraversal) :
    Acc (fun next before => Step ctx before next) state := by
  induction size : state.remaining using Nat.strong_induction_on
      generalizing state with
  | _ bound induction =>
      subst size
      exact ⟨_, fun next step =>
        induction next.remaining (remaining_lt_of_step step) next rfl⟩

theorem drainSerialStack_run (ctx : GcContext) {fuel : Nat}
    (state : GcTraversal)
    (enough : state.remaining ≤ fuel) :
    Relation.ReflTransGen (Step ctx) state (state.drainSerialStack ctx fuel) ∧
      (state.drainSerialStack ctx fuel).frontier = [] := by
  induction fuel generalizing state with
  | zero =>
      refine ⟨.refl, List.length_eq_zero_iff.mp ?_⟩
      unfold remaining at enough
      rw [drainSerialStack]
      omega
  | succ fuel induction =>
      rw [drainSerialStack]
      split
      · rename_i empty
        exact ⟨.refl, List.getLast?_eq_none_iff.mp empty⟩
      · rename_i item isLast
        have step : Step ctx state
            (state.popItem ctx state.frontier.dropLast item) :=
          .serial (List.dropLast_append_getLast? item isLast).symm
        have less := remaining_lt_of_step step
        have rest := induction (state.popItem ctx state.frontier.dropLast item)
          (by omega)
        exact ⟨.head step rest.1, rest.2⟩

end GcTraversal

theorem gcSectionsRootedWithStats_run (objects : List InputObject)
    (symbols : SymbolTable) (entrySymbol : Name) (exportRoots : Bool) :
    GcRun objects symbols entrySymbol exportRoots
      (gcSectionsRootedWithStats objects symbols entrySymbol exportRoots) := by
  have run := GcTraversal.drainSerialStack_run
    ⟨objects, (targetMaps symbols 0 objects ⟨0, 0, 0⟩).1⟩
    (gcSeeded objects symbols entrySymbol exportRoots
      (targetMaps symbols 0 objects ⟨0, 0, 0⟩).1
      (targetMaps symbols 0 objects ⟨0, 0, 0⟩).2) (Nat.le_refl _)
  exact .intro (targetMaps_ok symbols objects ⟨0, 0, 0⟩) run.1 run.2

/-! ## What is live -/

namespace Gc

/-- A reference the traversal follows: one whose target can be packed. -/
def Follows (objects : List InputObject) (symbols : SymbolTable)
    (source target : SectionKey) : Prop :=
  ∃ obj, objects[source.1]? = some obj ∧
    ∃ sec ∈ obj.sections, sec.index = source.2 ∧
      ∃ reloc ∈ sec.relocs, ∃ sym ∈ obj.symbols, sym.index = reloc.symbol ∧
        (GcObjectTargets.symbolTarget source.1 sym symbols >>= pack).bind
          unpack = some target

theorem Follows.isSection {objects : List InputObject} {symbols : SymbolTable}
    {source target : SectionKey} (follows : Follows objects symbols source target) :
    IsSection objects source := by
  rcases follows with ⟨obj, isObject, sec, member, isIndex, _⟩
  exact ⟨obj, isObject, sec, member, isIndex⟩

theorem References.isSection {objects : List InputObject}
    {symbols : SymbolTable} {source target : SectionKey}
    (references : References objects symbols source target) :
    IsSection objects source := by
  rcases references with ⟨obj, isObject, sec, member, isIndex, _⟩
  exact ⟨obj, isObject, sec, member, isIndex⟩

private theorem reachable_iff {objects : List InputObject}
    {roots moreRoots : SectionKey → Prop}
    {edge moreEdges : SectionKey → SectionKey → Prop}
    (sameRoots : ∀ key, IsSection objects key → (roots key ↔ moreRoots key))
    (sameEdges : ∀ source target, IsSection objects target →
      (edge source target ↔ moreEdges source target))
    (edgeSource : ∀ source target, edge source target → IsSection objects source)
    {key : SectionKey} (isSection : IsSection objects key)
    (reachable : Worklist.Reachable roots edge key) :
    Worklist.Reachable moreRoots moreEdges key := by
  induction reachable with
  | root isRoot => exact .root ((sameRoots _ isSection).mp isRoot)
  | step _ isEdge induction =>
      exact .step (induction (edgeSource _ _ isEdge))
        ((sameEdges _ _ isSection).mp isEdge)

end Gc

section Parsed

variable {objects : List InputObject} (parsed : ∀ obj ∈ objects, obj.Parsed)
variable {symbols : SymbolTable} {entrySymbol : Name} {exportRoots : Bool}

include parsed

theorem GcRun.contains_iff {out : GcOutput}
    (run : GcRun objects symbols entrySymbol exportRoots out)
    (key : SectionKey) :
    out.live.contains key = true ↔
      Worklist.Reachable
        (fun key => Gc.IsRoot objects symbols entrySymbol exportRoots key ∧
          Gc.IsSection objects key)
        (Gc.Follows objects symbols) key ∧
      (LiveSections.new objects).covers key = true := by
  cases run with
  | @intro maps targetStats final indexed steps finished =>
      have marks := (GcTraversal.marks_seeded parsed symbols entrySymbol
        exportRoots maps targetStats).run steps
      have follows : (GcContext.mk objects maps).Refers =
          Gc.Follows objects symbols := by
        funext source target
        exact propext (GcContext.refers_iff parsed indexed source target)
      have explored := marks.explored
      rw [follows] at explored
      apply explored.marked_iff
      · simp [finished]
      · intro source target isEdge
        rcases isEdge.isSection with ⟨obj, isObject, sec, member, isIndex⟩
        exact LiveSections.covers_new isObject member isIndex

theorem GcRun.live_iff (numbered : objects.length < 2 ^ 32) {out : GcOutput}
    (run : GcRun objects symbols entrySymbol exportRoots out)
    {key : SectionKey} (isSection : Gc.IsSection objects key) :
    out.live.contains key = true ↔
      Worklist.Reachable (Gc.IsRoot objects symbols entrySymbol exportRoots)
        (Gc.References objects symbols) key := by
  have covered : (LiveSections.new objects).covers key = true := by
    rcases isSection with ⟨obj, isObject, sec, member, isIndex⟩
    exact LiveSections.covers_new isObject member isIndex
  have sameEdges : ∀ source target, Gc.IsSection objects target →
      (Gc.Follows objects symbols source target ↔
        Gc.References objects symbols source target) := by
    intro source target isTarget
    rw [← GcContext.refers_iff_references parsed
      (targetMaps_ok symbols objects ⟨0, 0, 0⟩) numbered source isTarget,
      GcContext.refers_iff parsed (targetMaps_ok symbols objects ⟨0, 0, 0⟩)]
    rfl
  rw [run.contains_iff parsed key, and_iff_left covered]
  constructor
  · exact Gc.reachable_iff (fun _ isKey => and_iff_left isKey) sameEdges
      (fun _ _ isEdge => isEdge.isSection) isSection
  · exact Gc.reachable_iff (fun _ isKey => (and_iff_left isKey).symm)
      (fun source target isTarget => (sameEdges source target isTarget).symm)
      (fun _ _ isEdge => isEdge.isSection) isSection

/-! ## The extracted graph -/

theorem gcGraphRooted_hasEdge_iff (source target : SectionKey) :
    (gcGraphRooted objects symbols entrySymbol exportRoots).HasEdge source
        target ↔
      Gc.Follows objects symbols source target := by
  have indexed := targetMaps_ok symbols objects ⟨0, 0, 0⟩
  refine Iff.trans ?_ (GcContext.refers_iff parsed indexed source target)
  simp only [GcGraph.HasEdge, gcGraphRooted, extractGraph, mem_sortDedup,
    List.mem_flatMap, List.mem_map]
  constructor
  · rintro ⟨_, ⟨⟨obj, objectId⟩, isObject, ⟨sec, pos⟩, atPos, _, isTarget, rfl⟩,
      rfl, rfl⟩
    have isObject := List.mem_zipIdx_iff_getElem?.mp isObject
    have atPos := List.mem_zipIdx_iff_getElem?.mp atPos
    exact ⟨_, (GcContext.itemForKey_iff parsed _ _).mpr
      ⟨rfl, obj, isObject, sec, atPos, rfl⟩, isTarget⟩
  · rintro ⟨item, found, isTarget⟩
    rcases (GcContext.itemForKey_iff parsed _ _).mp found with
      ⟨rfl, obj, isObject, sec, atPos, isIndex⟩
    have sameItem : item = ⟨item.objectId, sec.index, item.sectionPos⟩ := by
      rw [isIndex]
      rfl
    refine ⟨⟨(item.objectId, sec.index), target, .relocation⟩,
      ⟨(obj, item.objectId), List.mem_zipIdx_iff_getElem?.mpr isObject,
        (sec, item.sectionPos), List.mem_zipIdx_iff_getElem?.mpr atPos, target,
        ?_, rfl⟩, ?_, rfl⟩
    · rw [← sameItem]
      exact isTarget
    · rw [isIndex]
      rfl

omit parsed in
theorem gcGraphRooted_isRoot_iff (key : SectionKey) :
    (gcGraphRooted objects symbols entrySymbol exportRoots).IsRoot key ↔
      Gc.IsRoot objects symbols entrySymbol exportRoots key := by
  simp [GcGraph.IsRoot, gcGraphRooted, extractGraph, Gc.IsRoot]

omit parsed in
theorem mem_modelGcReachable (graph : GcGraph) (key : SectionKey) :
    key ∈ modelGcReachable graph.roots graph.edges ↔
      Worklist.Reachable graph.IsRoot graph.HasEdge key := by
  have sameRoots : graph.IsRoot =
      fun key => key ∈ graph.roots.map fun root => root.sectionKey := by
    funext key
    simp [GcGraph.IsRoot]
  have sameEdges : graph.HasEdge = fun source target =>
      target ∈ (graph.edges.filter fun edge => edge.source = source).map
        fun edge => edge.target := by
    funext source target
    simp [GcGraph.HasEdge, and_assoc]
  rw [sameRoots, sameEdges, modelGcReachable]
  apply Worklist.mem_search_roots_iff
    ((graph.roots.map fun root => root.sectionKey) ++
      graph.edges.map fun edge => edge.target).toFinset
  · intro node member
    exact List.mem_toFinset.mpr (List.mem_append_left _ member)
  · intro source target isTarget
    rcases List.mem_map.mp isTarget with ⟨edge, member, rfl⟩
    exact List.mem_toFinset.mpr (List.mem_append_right _
      (List.mem_map.mpr ⟨edge, List.mem_of_mem_filter member, rfl⟩))
  · refine (List.toFinset_card_le _).trans ?_
    simp

/-- Over the sections, what is live is what the extracted graph reaches, which is
what the references reach and what the search of the checker finds. A run is any
order of serial turns and levels, with any split of each level, over targets
indexed in either form; all of them end, the one on a single thread is one of
them, and they mark the same keys. -/
theorem gcSections_reachable (numbered : objects.length < 2 ^ 32) :
    GcRun objects symbols entrySymbol exportRoots
        (gcSectionsRootedWithStats objects symbols entrySymbol exportRoots) ∧
      (∀ maps state, Acc (fun next before =>
        GcTraversal.Step ⟨objects, maps⟩ before next) state) ∧
      ∀ out, GcRun objects symbols entrySymbol exportRoots out →
        (∀ key, Gc.IsSection objects key →
          (key ∈ out.live.intoHashSet ↔
            Worklist.Reachable
              (gcGraphRooted objects symbols entrySymbol exportRoots).IsRoot
              (gcGraphRooted objects symbols entrySymbol exportRoots).HasEdge
              key) ∧
          (key ∈ out.live.intoHashSet ↔
            Worklist.Reachable
              (Gc.IsRoot objects symbols entrySymbol exportRoots)
              (Gc.References objects symbols) key) ∧
          (key ∈ out.live.intoHashSet ↔
            key ∈ modelGcReachable
              (gcGraphRooted objects symbols entrySymbol exportRoots).roots
              (gcGraphRooted objects symbols entrySymbol exportRoots).edges)) ∧
        ∀ other, GcRun objects symbols entrySymbol exportRoots other →
          out.live.intoHashSet = other.live.intoHashSet := by
  refine ⟨gcSectionsRootedWithStats_run objects symbols entrySymbol exportRoots,
    fun maps state => GcTraversal.step_terminates _ state, fun out run => ⟨?_, ?_⟩⟩
  · intro key isSection
    have byReferences := run.live_iff parsed numbered isSection
    have graphRoots :
        (gcGraphRooted objects symbols entrySymbol exportRoots).IsRoot =
          Gc.IsRoot objects symbols entrySymbol exportRoots :=
      funext fun key => propext (gcGraphRooted_isRoot_iff key)
    have graphEdges :
        (gcGraphRooted objects symbols entrySymbol exportRoots).HasEdge =
          Gc.Follows objects symbols :=
      funext fun source => funext fun target =>
        propext (gcGraphRooted_hasEdge_iff parsed source target)
    have covered : (LiveSections.new objects).covers key = true := by
      rcases isSection with ⟨obj, isObject, sec, member, isIndex⟩
      exact LiveSections.covers_new isObject member isIndex
    have byGraph : out.live.contains key = true ↔
        Worklist.Reachable
          (gcGraphRooted objects symbols entrySymbol exportRoots).IsRoot
          (gcGraphRooted objects symbols entrySymbol exportRoots).HasEdge
          key := by
      rw [run.contains_iff parsed key, and_iff_left covered, graphRoots,
        graphEdges]
      constructor
      · exact Worklist.Reachable.mono fun _ both => both.1
      · exact Gc.reachable_iff (fun _ isKey => (and_iff_left isKey).symm)
          (fun _ _ _ => Iff.rfl) (fun _ _ isEdge => isEdge.isSection) isSection
    rw [LiveSections.mem_intoHashSet]
    exact ⟨byGraph, byReferences, byGraph.trans (mem_modelGcReachable _ key).symm⟩
  · intro other otherRun
    ext key
    rw [LiveSections.mem_intoHashSet, LiveSections.mem_intoHashSet,
      run.contains_iff parsed key, otherRun.contains_iff parsed key]

end Parsed

/-! An object whose section `.text.keep` calls `helper` while nothing refers to
it. -/

namespace Gc

def textSection (index : Nat) (name : String) (relocs : List InputReloc) :
    InputSection where
  index := index
  name := nameOf name
  kind := .text
  shType := 1
  data := SectionData.empty
  align := 1
  size := 8
  flags := shfAlloc ||| shfExecinstr
  relocs := relocs

def functionSymbol (index : Nat) (name : String) (binding : Binding)
    (sectionIndex : Nat) : InputSymbol where
  index := index
  name := nameOf name
  binding := binding
  isUndefined := false
  isCommon := false
  isIfunc := false
  stType := 2
  visibility := 0
  sectionIndex := some sectionIndex
  value := 0
  size := 8

def keepObject : InputObject :=
  InputObject.assemble "keep.o" 3 2
    [textSection 1 ".text.start" [],
      textSection 2 ".text.keep" [⟨1, 4, 2, -4⟩],
      textSection 3 ".text.helper" []]
    [functionSymbol 1 "_start" .global 1, functionSymbol 2 "helper" .local 3] []

def keepTable : SymbolTable :=
  match SymbolTable.processAll [⟨keepObject, []⟩] with
  | .ok table => table
  | .error _ => SymbolTable.new

theorem keepObject_parsed : ∀ obj ∈ [keepObject], obj.Parsed := by
  intro obj member
  rw [List.mem_singleton] at member
  subst member
  exact InputObject.assemble_parsed _ _ _ _ _ _ (by decide) (by decide)
    (by decide) (by decide)

end Gc

theorem gcSections_reachable_keepObject :
    (0, 1) ∈ (gcSectionsRootedWithStats [Gc.keepObject] Gc.keepTable
        (nameOf "_start") false).live.intoHashSet ↔
      (0, 1) ∈ modelGcReachable
        (gcGraphRooted [Gc.keepObject] Gc.keepTable (nameOf "_start") false).roots
        (gcGraphRooted [Gc.keepObject] Gc.keepTable
          (nameOf "_start") false).edges := by
  have reachable := @gcSections_reachable [Gc.keepObject]
    Gc.keepObject_parsed Gc.keepTable (nameOf "_start") false (by decide)
  have isSection : Gc.IsSection [Gc.keepObject] (0, 1) :=
    ⟨Gc.keepObject, rfl, Gc.textSection 1 ".text.start" [], by decide, rfl⟩
  exact ((reachable.2.2 _ reachable.1).1 (0, 1) isSection).2.2

end Peony
