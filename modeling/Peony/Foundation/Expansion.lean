import Mathlib.Data.List.Sort
import Mathlib.Data.Set.Finite.Lattice
import Mathlib.Logic.Relation
import Mathlib.Order.WellFoundedSet

/-! Nodes that are replaced by their parts until only nodes without parts are left: each
in its place, and by a queue that puts the parts of a node behind all nodes that wait. -/

namespace Expansion

/-! ## Cycles -/

section Cycles

variable {Node : Type*} {part : Node → Node → Prop} {start : Node}

theorem acyclic_of_acc (accessible : Acc part start) {node : Node}
    (below : Relation.ReflTransGen part node start) : ¬ Relation.TransGen part node node := by
  have nodeAccessible : Acc (Relation.TransGen part) node := by
    rcases Relation.reflTransGen_iff_eq_or_transGen.mp below with rfl | isBelow
    · exact accessible.transGen
    · exact accessible.transGen.inv isBelow
  induction nodeAccessible with
  | intro node _ induction =>
      intro cycle
      exact induction node cycle (Relation.TransGen.to_reflTransGen cycle |>.trans below) cycle

theorem acc_of_acyclic
    (finite : {node | Relation.ReflTransGen part node start}.Finite)
    (acyclic : ∀ node, Relation.ReflTransGen part node start →
      ¬ Relation.TransGen part node node) : Acc part start := by
  let Below := {node // Relation.ReflTransGen part node start}
  let isUnder : Below → Below → Prop := fun node other =>
    Relation.TransGen part node.1 other.1
  have : Finite Below := finite
  have : IsTrans Below isUnder := ⟨fun _ _ _ => Relation.TransGen.trans⟩
  have : Std.Irrefl isUnder := ⟨fun node => acyclic node.1 node.2⟩
  have wellFounded : WellFounded isUnder := Finite.wellFounded_of_trans_of_irrefl isUnder
  suffices all : ∀ node : Below, Acc part node.1 from all ⟨start, .refl⟩
  intro node
  induction node using wellFounded.induction with
  | h node induction =>
      refine .intro _ fun next isPart => ?_
      exact induction ⟨next, .head isPart node.2⟩ (.single isPart)

end Cycles

/-! ## Expansion in place -/

variable {Node : Type*} (parts : Node → Option (List Node))

def IsPart (next node : Node) : Prop := ∃ nodes, parts node = some nodes ∧ next ∈ nodes

/-- What stands in place of the nodes, with how deep it was found, after so many
steps. -/
inductive InPlace : Nat → List Node → List (Node × Nat) → Nat → Prop where
  | nil {depth : Nat} : InPlace depth [] [] 0
  | keep {depth steps : Nat} {node : Node} {rest : List Node} {listed : List (Node × Nat)}
      (whole : parts node = none) (later : InPlace depth rest listed steps) :
      InPlace depth (node :: rest) ((node, depth) :: listed) (steps + 1)
  | replace {depth steps innerSteps : Nat} {node : Node} {nodes rest : List Node}
      {inner listed : List (Node × Nat)} (split : parts node = some nodes)
      (inside : InPlace (depth + 1) nodes inner innerSteps)
      (later : InPlace depth rest listed steps) :
      InPlace depth (node :: rest) (inner ++ listed) (innerSteps + steps + 1)

namespace InPlace

variable {parts}
variable {depth steps otherSteps : Nat} {nodes others : List Node}
variable {listed otherListed : List (Node × Nat)}

theorem append (first : InPlace parts depth nodes listed steps)
    (second : InPlace parts depth others otherListed otherSteps) :
    InPlace parts depth (nodes ++ others) (listed ++ otherListed) (steps + otherSteps) := by
  induction first with
  | nil =>
      rw [Nat.zero_add]
      exact second
  | keep whole _ induction =>
      rw [Nat.add_right_comm]
      exact .keep whole (induction second)
  | replace split inside _ _ induction =>
      rw [List.append_assoc, Nat.add_right_comm, Nat.add_assoc _ _ otherSteps]
      exact .replace split inside (induction second)

theorem le_depth (expansion : InPlace parts depth nodes listed steps) :
    ∀ item ∈ listed, depth ≤ item.2 := by
  induction expansion with
  | nil => exact nofun
  | keep _ _ induction => exact List.forall_mem_cons.mpr ⟨le_rfl, induction⟩
  | replace _ _ _ inside later =>
      intro item present
      rcases List.mem_append.mp present with isInner | isLater
      · exact (Nat.le_succ _).trans (inside item isInner)
      · exact later item isLater

theorem unique (expansion : InPlace parts depth nodes listed steps)
    (other : InPlace parts depth nodes otherListed otherSteps) : listed = otherListed := by
  induction expansion generalizing otherListed otherSteps with
  | nil =>
      cases other
      rfl
  | keep whole _ induction =>
      cases other with
      | keep _ later => rw [induction later]
      | replace split _ _ => exact nomatch whole.symm.trans split
  | replace split _ _ inside later =>
      cases other with
      | keep whole _ => exact nomatch whole.symm.trans split
      | replace isSplit isInside isLater =>
          cases split.symm.trans isSplit
          rw [inside isInside, later isLater]

theorem exists_of_each
    (each : ∀ node ∈ nodes, ∃ listed steps, InPlace parts depth [node] listed steps) :
    ∃ listed steps, InPlace parts depth nodes listed steps := by
  induction nodes with
  | nil => exact ⟨_, _, .nil⟩
  | cons node rest induction =>
      rcases List.forall_mem_cons.mp each with ⟨⟨_, _, first⟩, others⟩
      rcases induction others with ⟨_, _, second⟩
      exact ⟨_, _, first.append second⟩

/-- Nodes without a cycle below them have an expansion. -/
theorem exists_of_acc (accessible : ∀ node ∈ nodes, Acc (IsPart parts) node) :
    ∃ listed steps, InPlace parts depth nodes listed steps := by
  suffices each : ∀ node, Acc (IsPart parts) node → ∀ depth, ∃ listed steps,
      InPlace parts depth [node] listed steps from
    exists_of_each fun node present => each node (accessible node present) depth
  intro node isAccessible
  induction isAccessible with
  | intro node _ induction =>
      intro depth
      cases isWhole : parts node with
      | none => exact ⟨_, _, .keep isWhole .nil⟩
      | some nodes =>
          have inner : ∃ listed steps, InPlace parts (depth + 1) nodes listed steps :=
            exists_of_each fun next present => induction next ⟨nodes, isWhole, present⟩ _
          rcases inner with ⟨_, _, inside⟩
          exact ⟨_, _, .replace isWhole inside .nil⟩

end InPlace

/-! ## The queue -/

def queue : Nat → List Node → List Node → Option (List Node)
  | _, out, [] => some out
  | 0, _, _ :: _ => none
  | fuel + 1, out, node :: work =>
      match parts node with
      | none => queue fuel (out ++ [node]) work
      | some nodes => queue fuel out (work ++ nodes)

variable {parts}

theorem acc_of_queue {fuel : Nat} {out work ended : List Node}
    (ends : queue parts fuel out work = some ended) :
    ∀ node ∈ work, Acc (IsPart parts) node := by
  induction fuel generalizing out work with
  | zero =>
      cases work with
      | nil => exact nofun
      | cons node rest => exact nomatch ends
  | succ fuel induction =>
      cases work with
      | nil => exact nofun
      | cons node rest =>
          rw [queue] at ends
          cases isWhole : parts node with
          | none =>
              rw [isWhole] at ends
              refine List.forall_mem_cons.mpr ⟨.intro _ ?_, induction ends⟩
              rintro next ⟨nodes, isSplit, _⟩
              exact nomatch isWhole.symm.trans isSplit
          | some nodes =>
              rw [isWhole] at ends
              have all := induction ends
              refine List.forall_mem_cons.mpr ⟨.intro _ ?_, fun other present =>
                all other (List.mem_append_left _ present)⟩
              rintro next ⟨_, isSplit, present⟩
              cases isWhole.symm.trans isSplit
              exact all next (List.mem_append_right _ present)

/-! ## The order of the queue -/

def NotDeeper (first second : Node × Nat) : Prop := first.2 ≤ second.2

instance : DecidableRel (@NotDeeper Node) := fun first second =>
  inferInstanceAs (Decidable (first.2 ≤ second.2))

instance : Std.Total (@NotDeeper Node) := ⟨fun first second => le_total first.2 second.2⟩

instance : IsTrans (Node × Nat) NotDeeper := ⟨fun _ _ _ => le_trans⟩

def byDepth (listed : List (Node × Nat)) : List (Node × Nat) :=
  listed.insertionSort NotDeeper

theorem byDepth_least {item : Node × Nat} {before after : List (Node × Nat)}
    (deeper : ∀ other ∈ before, item.2 < other.2)
    (notHigher : ∀ other ∈ after, item.2 ≤ other.2) :
    byDepth (before ++ item :: after) = item :: byDepth (before ++ after) := by
  induction before with
  | nil =>
      rw [List.nil_append, List.nil_append, byDepth, List.insertionSort]
      have sorted : ∀ other ∈ byDepth after, item.2 ≤ other.2 := fun other present =>
        notHigher other ((List.perm_insertionSort _ after).mem_iff.mp present)
      change List.orderedInsert NotDeeper item (byDepth after) = _
      cases isSorted : byDepth after with
      | nil => rfl
      | cons head rest =>
          have isLeast : NotDeeper item head := sorted head (isSorted ▸ List.mem_cons_self)
          rw [List.orderedInsert, if_pos isLeast]
  | cons other rest induction =>
      rcases List.forall_mem_cons.mp deeper with ⟨isDeeper, others⟩
      rw [List.cons_append, byDepth, List.insertionSort]
      change List.orderedInsert NotDeeper other (byDepth (rest ++ item :: after)) = _
      rw [induction others, List.orderedInsert,
        if_neg (show ¬ NotDeeper other item from Nat.not_le.mpr isDeeper)]
      rfl

/-- The queue lists the nodes of one depth after the other. Those that wait are one
step deeper than those that are in front of them. -/
theorem queue_eq_byDepth {depth steps waitingSteps : Nat} {nodes waiting : List Node}
    {listed waitingListed : List (Node × Nat)}
    (front : InPlace parts depth nodes listed steps)
    (back : InPlace parts (depth + 1) waiting waitingListed waitingSteps)
    (extra : Nat) (out : List Node) :
    queue parts (steps + waitingSteps + extra) out (nodes ++ waiting) =
      some (out ++ (byDepth (waitingListed ++ listed)).map Prod.fst) := by
  -- One step takes a node away; an empty front gives way to what waits.
  generalize isBound : 2 * (steps + waitingSteps) + (1 - steps) = bound
  induction bound using Nat.strong_induction_on
    generalizing depth steps waitingSteps nodes waiting listed waitingListed out with
  | _ bound induction =>
  cases front with
  | nil =>
      by_cases isDone : waitingSteps = 0
      · cases back with
        | nil => simp [queue, byDepth]
        | keep _ _ => exact absurd isDone (Nat.succ_ne_zero _)
        | replace _ _ _ => exact absurd isDone (Nat.succ_ne_zero _)
      · have less : 2 * (waitingSteps + 0) + (1 - waitingSteps) < bound := by omega
        have moved := induction _ less back .nil out rfl
        simpa using moved
  | @keep _ steps node rest listed whole later =>
      have least : byDepth (waitingListed ++ (node, depth) :: listed) =
          (node, depth) :: byDepth (waitingListed ++ listed) :=
        byDepth_least back.le_depth later.le_depth
      have less : 2 * (steps + waitingSteps) + (1 - steps) < bound := by omega
      have next := induction _ less later back (out ++ [node]) rfl
      rw [show steps + 1 + waitingSteps + extra = steps + waitingSteps + extra + 1 by omega,
        List.cons_append, queue, whole, least]
      simpa using next
  | @replace _ steps innerSteps node nodes rest inner listed split inside later =>
      have less : 2 * (steps + (waitingSteps + innerSteps)) + (1 - steps) < bound := by
        omega
      have next := induction _ less later (back.append inside) out rfl
      rw [show innerSteps + steps + 1 + waitingSteps + extra =
          steps + (waitingSteps + innerSteps) + extra + 1 by omega,
        List.cons_append, queue, split]
      simpa using next

theorem queue_ends_iff {work : List Node} :
    (∃ fuel, queue parts fuel [] work ≠ none) ↔
      ∀ node ∈ work, Acc (IsPart parts) node := by
  constructor
  · rintro ⟨fuel, ends⟩
    rcases Option.ne_none_iff_exists'.mp ends with ⟨ended, isEnd⟩
    exact acc_of_queue isEnd
  · intro accessible
    rcases InPlace.exists_of_acc accessible with ⟨listed, steps, expansion⟩
    refine ⟨steps + 0 + 0, ?_⟩
    have ended := queue_eq_byDepth (expansion : InPlace parts 0 _ _ _) .nil 0 []
    rw [List.append_nil] at ended
    rw [ended]
    exact Option.some_ne_none _

/-! ## Where both orders agree -/

/-- Items whose depth never falls are in their order. -/
theorem byDepth_eq_self {listed : List (Node × Nat)} :
    byDepth listed = listed ↔ listed.Pairwise NotDeeper := by
  constructor
  · intro same
    rw [← same]
    exact List.pairwise_insertionSort _ _
  · exact List.Pairwise.insertionSort_eq

theorem eq_of_nodes_eq {listed other : List (Node × Nat)} (same : listed.Perm other)
    (nodes : listed.map Prod.fst = other.map Prod.fst)
    (distinct : (other.map Prod.fst).Nodup) : listed = other := by
  have depths : ∀ item ∈ listed, ∀ next ∈ other, item.1 = next.1 → item = next := by
    intro item present next isNext sameNode
    exact List.inj_on_of_nodup_map distinct (same.mem_iff.mp present) isNext sameNode
  apply List.ext_getElem?
  intro place
  have node := congrArg (fun nodes => nodes[place]?) nodes
  simp only [List.getElem?_map] at node
  cases atListed : listed[place]? with
  | none =>
      rw [atListed, Option.map_none] at node
      exact (Option.map_eq_none_iff.mp node.symm).symm
  | some item =>
      rw [atListed, Option.map_some] at node
      rcases Option.map_eq_some_iff.mp node.symm with ⟨next, isNext, sameNode⟩
      rw [isNext, depths item (List.mem_of_getElem? atListed) next
        (List.mem_of_getElem? isNext) sameNode.symm]

/-- Where no node is found twice, the order of depths is that in place exactly when the
depth never falls. -/
theorem byDepth_nodes_iff {listed : List (Node × Nat)}
    (distinct : (listed.map Prod.fst).Nodup) :
    (byDepth listed).map Prod.fst = listed.map Prod.fst ↔ listed.Pairwise NotDeeper := by
  rw [← byDepth_eq_self]
  refine ⟨fun same => ?_, congrArg _⟩
  exact eq_of_nodes_eq (List.perm_insertionSort _ listed) same distinct

end Expansion
