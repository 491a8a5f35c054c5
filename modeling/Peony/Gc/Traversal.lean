import Mathlib.Data.List.Perm.Basic
import Mathlib.Data.Prod.Lex
import Peony.Foundation.Worklist
import Peony.Gc.Targets
import Peony.Object.Elf

namespace Peony

/-! Section garbage collection: the roots, the graph of references, and the
traversal that marks the live sections, one item at a time or a level of the
frontier at once. -/

/-! ## Roots and edges -/

inductive GcRootReason where
  | entry | export | initFini | ehFrame | gccExceptTable | retainFlag
deriving DecidableEq, Repr, Ord

structure GcRoot where
  sectionKey : SectionKey
  reason : GcRootReason
deriving DecidableEq, Repr

inductive GcEdgeReason where
  | relocation
deriving DecidableEq, Repr

structure GcEdge where
  source : SectionKey
  target : SectionKey
  reason : GcEdgeReason
deriving DecidableEq, Repr

structure GcGraph where
  roots : List GcRoot
  edges : List GcEdge
deriving DecidableEq, Repr

def compareKeys (left right : SectionKey) : Ordering :=
  (compare left.1 right.1).then (compare left.2 right.2)

def GcRoot.compare (left right : GcRoot) : Ordering :=
  (compareKeys left.sectionKey right.sectionKey).then
    (Ord.compare left.reason right.reason)

def GcEdge.compare (left right : GcEdge) : Ordering :=
  (compareKeys left.source right.source).then
    (compareKeys left.target right.target)

/-- `sort_unstable` and `dedup`: what is equal stands together once sorted. -/
def sortDedup {Item : Type} [DecidableEq Item]
    (compare : Item → Item → Ordering) (items : List Item) : List Item :=
  (items.mergeSort fun left right => (compare left right).isLE).dedup

@[simp] theorem mem_sortDedup {Item : Type} [DecidableEq Item]
    {compare : Item → Item → Ordering} {items : List Item} {item : Item} :
    item ∈ sortDedup compare items ↔ item ∈ items := by
  rw [sortDedup, List.mem_dedup, List.mem_mergeSort]

namespace Gc

def implicitRootReasons (sec : InputSection) : List GcRootReason :=
  (if (nameOf ".init").isPrefixOf sec.name || (nameOf ".fini").isPrefixOf sec.name
      || (nameOf ".preinit_array").isPrefixOf sec.name then [.initFini] else []) ++
    (if (nameOf ".eh_frame").isPrefixOf sec.name then [.ehFrame] else []) ++
    (if (nameOf ".gcc_except_table").isPrefixOf sec.name then [.gccExceptTable]
      else []) ++
    (if sec.flags &&& shfGnuRetain != 0 then [.retainFlag] else [])

def definingSection (res : SymbolResolution) : Option SectionKey := do
  let defined ← res.definedIn
  let sectionIndex ← res.sectionIndex
  return (defined.toNat, sectionIndex)

def objectRoots (objectId : Nat) (obj : InputObject) : List GcRoot :=
  (obj.sections.filter fun sec => sec.isAlloc).flatMap fun sec =>
    (implicitRootReasons sec).map fun reason => ⟨(objectId, sec.index), reason⟩

def collectRoots (objects : List InputObject) (symbols : SymbolTable)
    (entrySymbol : Name) (exportRoots : Bool) : List GcRoot :=
  (((symbols.lookup entrySymbol).bind definingSection).toList.map
      fun key => ⟨key, .entry⟩) ++
    (if exportRoots then
      ((symbols.resolutions.entries.filter fun entry =>
          entry.2.isExport).filterMap fun entry => definingSection entry.2).map
        fun key => ⟨key, .export⟩
    else []) ++
    objects.zipIdx.flatMap fun numbered => objectRoots numbered.2 numbered.1

end Gc

/-! ## Work items -/

structure GcWorkItem where
  objectId : Nat
  sectionIndex : Nat
  sectionPos : Nat
deriving DecidableEq, Repr

def GcWorkItem.key (item : GcWorkItem) : SectionKey :=
  (item.objectId, item.sectionIndex)

structure GcContext where
  objects : List InputObject
  targets : List GcObjectTargets

namespace GcContext

def itemForKey (ctx : GcContext) (key : SectionKey) : Option GcWorkItem := do
  let obj ← ctx.objects[key.1]?
  let sectionPos ← obj.sectionPos key.2
  return ⟨key.1, key.2, sectionPos⟩

def sectionOf (ctx : GcContext) (item : GcWorkItem) : Option InputSection := do
  let obj ← ctx.objects[item.objectId]?
  obj.sections[item.sectionPos]?

def target (ctx : GcContext) (objectId symbolIndex : Nat) : Option SectionKey :=
  ctx.targets[objectId]? >>= fun targets => targets.get symbolIndex

/-- The targets of the relocations of an item, and how many relocations it has. -/
def collectTargets (ctx : GcContext) (item : GcWorkItem) :
    List SectionKey × Nat :=
  match ctx.sectionOf item with
  | none => ([], 0)
  | some sec =>
      (sec.relocs.filterMap fun reloc => ctx.target item.objectId reloc.symbol,
        sec.relocs.length)

end GcContext

/-! ## The traversal -/

structure GcStats where
  roots : Nat
  traversedSections : Nat
  scannedRelocs : Nat
  liveSections : Nat
  targetSymbols : Nat
  denseTargetObjects : Nat
  sparseTargetObjects : Nat
deriving DecidableEq, Repr

def GcStats.withTargets (targets : GcTargetStats) : GcStats where
  roots := 0
  traversedSections := 0
  scannedRelocs := 0
  liveSections := 0
  targetSymbols := targets.entries
  denseTargetObjects := targets.denseObjects
  sparseTargetObjects := targets.sparseObjects

structure GcOutput where
  live : LiveSections
  stats : GcStats
deriving DecidableEq, Repr

structure GcTraversal where
  live : LiveSections
  frontier : List GcWorkItem
  stats : GcStats
deriving DecidableEq, Repr

namespace GcTraversal

def new (objects : List InputObject) (targetStats : GcTargetStats) :
    GcTraversal where
  live := LiveSections.new objects
  frontier := []
  stats := GcStats.withTargets targetStats

def insertKey (ctx : GcContext) (state : GcTraversal) (key : SectionKey) :
    GcTraversal :=
  let inserted := state.live.insert key
  { state with
    live := inserted.1
    frontier :=
      if inserted.2 then state.frontier ++ (ctx.itemForKey key).toList
      else state.frontier }

def insertKnownRoot (state : GcTraversal) (item : GcWorkItem) : GcTraversal :=
  let inserted := state.live.insert item.key
  if inserted.2 then
    { state with
      live := inserted.1
      frontier := state.frontier ++ [item]
      stats := { state.stats with roots := state.stats.roots + 1 } }
  else { state with live := inserted.1 }

def seedRoots (ctx : GcContext) (state : GcTraversal) (roots : List GcRoot) :
    GcTraversal :=
  roots.foldl
    (fun state root =>
      match ctx.itemForKey root.sectionKey with
      | some item => state.insertKnownRoot item
      | none => state)
    state

def countItem (state : GcTraversal) (scanned : Nat) : GcTraversal :=
  { state with stats := { state.stats with
      traversedSections := state.stats.traversedSections + 1
      scannedRelocs := state.stats.scannedRelocs + scanned } }

/-- One turn of the serial loop, which takes the last item of the frontier. -/
def popItem (ctx : GcContext) (state : GcTraversal) (rest : List GcWorkItem)
    (item : GcWorkItem) : GcTraversal :=
  let collected := ctx.collectTargets item
  collected.1.foldl (insertKey ctx)
    ({ state with frontier := rest }.countItem collected.2)

/-- A level of the frontier, each batch being what one worker took in the order
it took it. The batches stand in the order the workers hand in their results. -/
def drainParallelLevel (ctx : GcContext) (state : GcTraversal)
    (batches : List (List GcWorkItem)) : GcTraversal :=
  let collected := batches.map fun batch => batch.map ctx.collectTargets
  let candidates := collected.flatMap fun results =>
    results.flatMap fun result => result.1
  let scanned := (collected.flatMap fun results =>
    results.map fun result => result.2).sum
  candidates.foldl (insertKey ctx)
    { state with
      frontier := []
      stats := { state.stats with
        traversedSections :=
          state.stats.traversedSections + state.frontier.length
        scannedRelocs := state.stats.scannedRelocs + scanned } }

/-- What the loop of the traversal can do next. How a level is dealt to workers
and in which order they steal from each other is left open: every item of the
frontier is taken by one worker. -/
inductive Step (ctx : GcContext) : GcTraversal → GcTraversal → Prop where
  | serial {state : GcTraversal} {rest : List GcWorkItem} {item : GcWorkItem} :
      state.frontier = rest ++ [item] →
      Step ctx state (state.popItem ctx rest item)
  | level {state : GcTraversal} {batches : List (List GcWorkItem)} :
      state.frontier ≠ [] → batches.flatten.Perm state.frontier →
      Step ctx state (state.drainParallelLevel ctx batches)

def finish (state : GcTraversal) : GcOutput where
  live := state.live
  stats := { state.stats with liveSections := state.live.len }

def drainSerialStack (ctx : GcContext) : Nat → GcTraversal → GcTraversal
  | 0, state => state
  | fuel + 1, state =>
      match state.frontier.getLast? with
      | none => state
      | some item =>
          drainSerialStack ctx fuel
            (state.popItem ctx state.frontier.dropLast item)

end GcTraversal

/-! ## Garbage collection -/

/-- The traversal before its loop, over any index of the targets. -/
def gcSeeded (objects : List InputObject) (symbols : SymbolTable)
    (entrySymbol : Name) (exportRoots : Bool)
    (maps : List GcObjectTargets) (targetStats : GcTargetStats) : GcTraversal :=
  (GcTraversal.new objects targetStats).seedRoots ⟨objects, maps⟩
    (Gc.collectRoots objects symbols entrySymbol exportRoots)

/-- An output of the collection: some run of its loop, over targets indexed in
either form, leaves an empty frontier. -/
inductive GcRun (objects : List InputObject) (symbols : SymbolTable)
    (entrySymbol : Name) (exportRoots : Bool) : GcOutput → Prop where
  | intro {maps : List GcObjectTargets} {targetStats : GcTargetStats}
      {final : GcTraversal} :
      GcTargetMaps symbols objects maps →
      Relation.ReflTransGen (GcTraversal.Step ⟨objects, maps⟩)
        (gcSeeded objects symbols entrySymbol exportRoots maps targetStats)
        final →
      final.frontier = [] →
      GcRun objects symbols entrySymbol exportRoots final.finish

/-- The collection on one thread. -/
def gcSectionsRootedWithStats (objects : List InputObject)
    (symbols : SymbolTable) (entrySymbol : Name) (exportRoots : Bool) :
    GcOutput :=
  let targets := targetMaps symbols 0 objects ⟨0, 0, 0⟩
  let seeded :=
    gcSeeded objects symbols entrySymbol exportRoots targets.1 targets.2
  (seeded.drainSerialStack ⟨objects, targets.1⟩
    (seeded.live.vacant + seeded.frontier.length)).finish

def extractGraph (ctx : GcContext) (symbols : SymbolTable) (entrySymbol : Name)
    (exportRoots : Bool) : GcGraph where
  roots := sortDedup GcRoot.compare
    (Gc.collectRoots ctx.objects symbols entrySymbol exportRoots)
  edges := sortDedup GcEdge.compare
    (ctx.objects.zipIdx.flatMap fun numbered =>
      numbered.1.sections.zipIdx.flatMap fun placed =>
        (ctx.collectTargets ⟨numbered.2, placed.1.index, placed.2⟩).1.map
          fun target =>
            ⟨(numbered.2, placed.1.index), target, .relocation⟩)

def gcGraphRooted (objects : List InputObject) (symbols : SymbolTable)
    (entrySymbol : Name) (exportRoots : Bool) : GcGraph :=
  extractGraph ⟨objects, (targetMaps symbols 0 objects ⟨0, 0, 0⟩).1⟩ symbols
    entrySymbol exportRoots

/-- The search of the checker over an extracted graph. -/
def modelGcReachable (roots : List GcRoot) (edges : List GcEdge) :
    Finset SectionKey :=
  let successors := fun key =>
    (edges.filter fun edge => edge.source = key).map fun edge => edge.target
  Worklist.search successors (roots.length + edges.length)
    ((roots.map fun root => root.sectionKey).foldl Worklist.push (∅, []))

end Peony
