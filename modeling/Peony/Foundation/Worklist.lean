import Mathlib.Data.Finset.Card
import Mathlib.Data.Finset.Dedup

/-! Reachability along the edges of a graph, and the searches that keep a list of
the nodes still to be expanded. -/

namespace Worklist

variable {Node : Type*}

/-! ## Reachability -/

inductive Reachable (roots : Node → Prop) (edge : Node → Node → Prop) :
    Node → Prop where
  | root {node : Node} : roots node → Reachable roots edge node
  | step {source target : Node} :
      Reachable roots edge source → edge source target →
        Reachable roots edge target

theorem Reachable.mono {roots moreRoots : Node → Prop}
    {edge : Node → Node → Prop}
    (included : ∀ node, roots node → moreRoots node)
    {node : Node} (reachable : Reachable roots edge node) :
    Reachable moreRoots edge node := by
  induction reachable with
  | root isRoot => exact .root (included _ isRoot)
  | step _ isEdge induction => exact .step induction isEdge

/-! ## The invariant of a search -/

/-- The state of a search: the nodes it has marked, all of them among those it
can mark, and the marked nodes it has not expanded yet. -/
structure Explored (roots : Node → Prop) (edge : Node → Node → Prop)
    (markable marked pending : Node → Prop) : Prop where
  rootsMarked : ∀ node, roots node → marked node
  sound : ∀ node, marked node → Reachable roots edge node ∧ markable node
  closed : ∀ source target, marked source → ¬ pending source →
    edge source target → markable target → marked target

namespace Explored

variable {roots : Node → Prop} {edge : Node → Node → Prop}
variable {markable marked pending : Node → Prop}

theorem start (rootsMarkable : ∀ node, roots node → markable node) :
    Explored roots edge markable roots roots where
  rootsMarked _ isRoot := isRoot
  sound node isRoot := ⟨.root isRoot, rootsMarkable node isRoot⟩
  closed _ _ marked notPending := absurd marked notPending

/-- Expanding a batch of marked nodes marks the ends of their edges. What is
pending afterwards has the pending nodes outside of the batch and every newly
marked node that has an edge. -/
theorem expand (explored : Explored roots edge markable marked pending)
    (batch : Node → Prop) {markedAfter pendingAfter : Node → Prop}
    (batchMarked : ∀ node, batch node → marked node)
    (marks : ∀ node, markedAfter node ↔
      marked node ∨ ∃ source, batch source ∧ edge source node ∧ markable node)
    (keeps : ∀ node, pending node → ¬ batch node → pendingAfter node)
    (adds : ∀ node target, markedAfter node → ¬ marked node →
      edge node target → pendingAfter node) :
    Explored roots edge markable markedAfter pendingAfter where
  rootsMarked node isRoot :=
    (marks node).mpr (.inl (explored.rootsMarked node isRoot))
  sound node isMarked := by
    rcases (marks node).mp isMarked with before | ⟨source, inBatch, isEdge, can⟩
    · exact explored.sound node before
    · have reached := (explored.sound source (batchMarked source inBatch)).1
      exact ⟨.step reached isEdge, can⟩
  closed source target isMarked notPending isEdge can := by
    by_cases before : marked source
    · by_cases inBatch : batch source
      · exact (marks target).mpr (.inr ⟨source, inBatch, isEdge, can⟩)
      · have notBefore : ¬ pending source := fun isPending =>
          notPending (keeps source isPending inBatch)
        exact (marks target).mpr
          (.inl (explored.closed source target before notBefore isEdge can))
    · exact absurd (adds source target isMarked before isEdge) notPending

theorem marked_iff (explored : Explored roots edge markable marked pending)
    (finished : ∀ node, ¬ pending node)
    (sourcesMarkable : ∀ source target, edge source target → markable source)
    (node : Node) :
    marked node ↔ Reachable roots edge node ∧ markable node := by
  constructor
  · exact explored.sound node
  · rintro ⟨reachable, can⟩
    cases reachable with
    | root isRoot => exact explored.rootsMarked node isRoot
    | step reached isEdge =>
        -- every node with an edge is markable, so the path is marked throughout
        have sourceMarked : ∀ source, Reachable roots edge source →
            markable source → marked source := by
          intro source reached
          induction reached with
          | root isRoot => exact fun _ => explored.rootsMarked _ isRoot
          | step _ isEdge induction =>
              intro can
              exact explored.closed _ _
                (induction (sourcesMarkable _ _ isEdge)) (finished _) isEdge can
        exact explored.closed _ _
          (sourceMarked _ reached (sourcesMarkable _ _ isEdge)) (finished _)
          isEdge can

end Explored

/-! ## Depth-first search with a stack -/

section Stack

variable [DecidableEq Node]

/-- Put a node that has not been seen on the stack. -/
def push (state : Finset Node × List Node) (node : Node) :
    Finset Node × List Node :=
  if node ∈ state.1 then state else (insert node state.1, node :: state.2)

def search (successors : Node → List Node) :
    Nat → Finset Node × List Node → Finset Node
  | 0, state => state.1
  | _ + 1, (seen, []) => seen
  | fuel + 1, (seen, node :: stack) =>
      search successors fuel ((successors node).foldl push (seen, stack))

theorem mem_seen_foldl_push (targets : List Node)
    (state : Finset Node × List Node) (node : Node) :
    node ∈ (targets.foldl push state).1 ↔ node ∈ state.1 ∨ node ∈ targets := by
  induction targets generalizing state with
  | nil => simp
  | cons target rest induction =>
      rw [List.foldl_cons, induction, List.mem_cons]
      by_cases known : target ∈ state.1
      · rw [push, if_pos known]
        constructor
        · exact fun member => member.imp_right .inr
        · rintro (member | rfl | member)
          · exact .inl member
          · exact .inl known
          · exact .inr member
      · rw [push, if_neg known, Finset.mem_insert]
        tauto

theorem mem_stack_foldl_push (targets : List Node)
    (state : Finset Node × List Node) (node : Node) :
    node ∈ (targets.foldl push state).2 ↔
      node ∈ state.2 ∨ (node ∈ targets ∧ node ∉ state.1) := by
  induction targets generalizing state with
  | nil => simp
  | cons target rest induction =>
      rw [List.foldl_cons, induction, List.mem_cons]
      by_cases known : target ∈ state.1
      · rw [push, if_pos known]
        constructor
        · rintro (member | ⟨member, fresh⟩)
          · exact .inl member
          · exact .inr ⟨.inr member, fresh⟩
        · rintro (member | ⟨rfl | member, fresh⟩)
          · exact .inl member
          · exact absurd known fresh
          · exact .inr ⟨member, fresh⟩
      · rw [push, if_neg known, List.mem_cons, Finset.mem_insert, not_or]
        constructor
        · rintro ((rfl | member) | ⟨member, _, fresh⟩)
          · exact .inr ⟨.inl rfl, known⟩
          · exact .inl member
          · exact .inr ⟨.inr member, fresh⟩
        · rintro (member | ⟨rfl | member, fresh⟩)
          · exact .inl (.inr member)
          · exact .inl (.inl rfl)
          · by_cases equal : node = target
            · exact .inl (.inl equal)
            · exact .inr ⟨member, equal, fresh⟩

theorem card_foldl_push (targets : List Node)
    (state : Finset Node × List Node) :
    (targets.foldl push state).1.card + state.2.length =
      state.1.card + (targets.foldl push state).2.length := by
  induction targets generalizing state with
  | nil => rfl
  | cons target rest induction =>
      rw [List.foldl_cons]
      have afterPush := induction (push state target)
      have onePush : (push state target).1.card + state.2.length =
          state.1.card + (push state target).2.length := by
        unfold push
        split
        · rfl
        · rename_i fresh
          rw [Finset.card_insert_of_notMem fresh, List.length_cons]
          omega
      omega

variable {successors : Node → List Node} {roots : Node → Prop}

private theorem Explored.pop {seen : Finset Node} {node : Node}
    {stack : List Node}
    (explored : Explored roots (fun source target => target ∈ successors source)
      (fun _ => True) (fun other => other ∈ seen)
      (fun other => other ∈ node :: stack))
    (nodeSeen : node ∈ seen) :
    Explored roots (fun source target => target ∈ successors source)
      (fun _ => True)
      (fun other => other ∈ ((successors node).foldl push (seen, stack)).1)
      (fun other => other ∈ ((successors node).foldl push (seen, stack)).2) := by
  apply explored.expand fun other => other = node
  · rintro _ rfl
    exact nodeSeen
  · intro other
    simp [mem_seen_foldl_push]
  · intro other isPending notNode
    rw [mem_stack_foldl_push]
    exact .inl ((List.mem_cons.mp isPending).resolve_left notNode)
  · intro other _ isSeen notBefore _
    rw [mem_seen_foldl_push] at isSeen
    rw [mem_stack_foldl_push]
    exact .inr ⟨isSeen.resolve_left notBefore, notBefore⟩

theorem mem_search_iff {within : Finset Node}
    (targetsWithin : ∀ source, ∀ target ∈ successors source, target ∈ within)
    {fuel : Nat} {seen : Finset Node} {stack : List Node}
    (seenWithin : seen ⊆ within)
    (stackSeen : ∀ node ∈ stack, node ∈ seen)
    (explored : Explored roots (fun source target => target ∈ successors source)
      (fun _ => True) (fun node => node ∈ seen) (fun node => node ∈ stack))
    (enough : within.card + stack.length ≤ fuel + seen.card) (node : Node) :
    node ∈ search successors fuel (seen, stack) ↔
      Reachable roots (fun source target => target ∈ successors source) node := by
  induction fuel generalizing seen stack with
  | zero =>
      have bounded := Finset.card_le_card seenWithin
      have empty : stack = [] := List.length_eq_zero_iff.mp (by omega)
      subst empty
      rw [search, explored.marked_iff (by simp) (fun _ _ _ => trivial) node]
      exact and_iff_left trivial
  | succ fuel induction =>
      cases stack with
      | nil =>
          rw [search, explored.marked_iff (by simp) (fun _ _ _ => trivial) node]
          exact and_iff_left trivial
      | cons top stack =>
          rw [search]
          have counted := card_foldl_push (successors top) (seen, stack)
          have topSeen : top ∈ seen := stackSeen top (List.mem_cons_self ..)
          apply induction
          · intro other isSeen
            rcases (mem_seen_foldl_push ..).mp isSeen with before | isTarget
            · exact seenWithin before
            · exact targetsWithin top other isTarget
          · intro other isPending
            rw [mem_seen_foldl_push]
            rcases (mem_stack_foldl_push ..).mp isPending with before | fresh
            · exact .inl (stackSeen other (List.mem_cons_of_mem _ before))
            · exact .inr fresh.1
          · exact explored.pop topSeen
          · simp only [List.length_cons] at enough
            simp only at counted
            omega

theorem mem_search_roots_iff {rootNodes : List Node} (within : Finset Node)
    (rootsWithin : ∀ node ∈ rootNodes, node ∈ within)
    (targetsWithin : ∀ source, ∀ target ∈ successors source, target ∈ within)
    {fuel : Nat} (enough : within.card ≤ fuel) (node : Node) :
    node ∈ search successors fuel (rootNodes.foldl push (∅, [])) ↔
      Reachable (fun node => node ∈ rootNodes)
        (fun source target => target ∈ successors source) node := by
  have counted := card_foldl_push rootNodes (∅, [])
  have seenIff : ∀ other, other ∈ (rootNodes.foldl push (∅, [])).1 ↔
      other ∈ rootNodes := by simp [mem_seen_foldl_push]
  have stackIff : ∀ other, other ∈ (rootNodes.foldl push (∅, [])).2 ↔
      other ∈ rootNodes := by simp [mem_stack_foldl_push]
  apply mem_search_iff targetsWithin
  · intro other isSeen
    exact rootsWithin other ((seenIff other).mp isSeen)
  · intro other isPending
    exact (seenIff other).mpr ((stackIff other).mp isPending)
  · simp only [seenIff, stackIff]
    exact Explored.start fun _ _ => trivial
  · simp only [List.length_nil, Finset.card_empty] at counted
    omega

end Stack

end Worklist
