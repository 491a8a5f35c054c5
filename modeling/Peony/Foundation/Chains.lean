import Mathlib.Data.List.Induction

/-! Lists of indices that are linked through one array of successors, with a head for every
bucket. The index 0 ends a list. -/

namespace Chains

/-! ## Lists in an array -/

/-- The indices on the way from a start to the end of its list. -/
inductive Path (next : Nat → Option Nat) : Nat → List Nat → Prop
  | ending : Path next 0 []
  | step {index following : Nat} {rest : List Nat} (positive : index ≠ 0)
      (link : next index = some following) (path : Path next following rest) :
      Path next index (index :: rest)

theorem Path.congr {next other : Nat → Option Nat} {start : Nat} {indices : List Nat}
    (path : Path next start indices) (same : ∀ index ∈ indices, other index = next index) :
    Path other start indices := by
  induction path with
  | ending => exact .ending
  | step positive link _ induction =>
      exact .step positive ((same _ List.mem_cons_self).trans link)
        (induction fun index present => same index (List.mem_cons_of_mem _ present))

/-- The first index of a list that satisfies a condition, for at most as many steps as the
fuel. The search fails where a link is missing or the fuel runs out. -/
def search (next : Nat → Option Nat) (wanted : Nat → Bool) : Nat → Nat → Option (Option Nat)
  | 0, _ => none
  | fuel + 1, index =>
      if index = 0 then some none
      else if wanted index then some (some index)
      else (next index).bind (search next wanted fuel)

theorem Path.search_eq {next : Nat → Option Nat} {start : Nat} {indices : List Nat}
    (path : Path next start indices) (wanted : Nat → Bool) {fuel : Nat}
    (enough : indices.length < fuel) :
    search next wanted fuel start = some (indices.find? wanted) := by
  induction path generalizing fuel with
  | ending =>
      cases fuel with
      | zero => exact absurd enough (Nat.not_lt_zero _)
      | succ fuel => rfl
  | @step index following rest positive link _ induction =>
      cases fuel with
      | zero => exact absurd enough (Nat.not_lt_zero _)
      | succ fuel =>
          rw [search, if_neg positive]
          cases isWanted : wanted index with
          | true => rw [if_pos rfl, List.find?_cons_of_pos isWanted]
          | false =>
              have skipped : ¬ wanted index = true := by
                rw [isWanted]
                exact Bool.false_ne_true
              rw [if_neg Bool.false_ne_true, link, Option.bind_some,
                List.find?_cons_of_neg skipped]
              exact induction (Nat.lt_of_succ_lt_succ enough)

theorem wanted_of_search {next : Nat → Option Nat} {wanted : Nat → Bool} {fuel start : Nat}
    {index : Nat} (found : search next wanted fuel start = some (some index)) :
    wanted index = true := by
  induction fuel generalizing start with
  | zero => exact nomatch found
  | succ fuel induction =>
      rw [search] at found
      split at found
      · exact nomatch found
      · split at found
        · rename_i isWanted
          cases found
          exact isWanted
        · rcases Option.bind_eq_some_iff.mp found with ⟨following, _, later⟩
          exact induction later

theorem search_invariant (holds : Nat → Prop) {next : Nat → Option Nat} {wanted : Nat → Bool}
    (step : ∀ index following, holds index → next index = some following → holds following)
    {fuel start : Nat} (first : holds start) {index : Nat}
    (found : search next wanted fuel start = some (some index)) : holds index := by
  induction fuel generalizing start with
  | zero => exact nomatch found
  | succ fuel induction =>
      rw [search] at found
      split at found
      · exact nomatch found
      · split at found
        · cases found
          exact first
        · rcases Option.bind_eq_some_iff.mp found with ⟨following, link, later⟩
          exact induction (step _ _ first link) later

/-! ## Buckets -/

structure Table where
  heads : List Nat
  links : List Nat

namespace Table

def next (table : Table) (index : Nat) : Option Nat := table.links[index]?

/-- Link an index in front of the list of a bucket. -/
def insert (table : Table) (entry : Nat × Nat) : Table where
  heads := table.heads.set entry.1 entry.2
  links := table.links.set entry.2 (table.heads.getD entry.1 0)

def empty (buckets indices : Nat) : Table where
  heads := List.replicate buckets 0
  links := List.replicate indices 0

/-- The indices of a bucket, the latest one first. -/
def members (entries : List (Nat × Nat)) (bucket : Nat) : List Nat :=
  ((entries.filter fun entry => entry.1 == bucket).map Prod.snd).reverse

/-- The lists are those of the entries that were inserted. -/
structure Holds (table : Table) (buckets indices : Nat) (entries : List (Nat × Nat)) :
    Prop where
  heads : table.heads.length = buckets
  links : table.links.length = indices
  paths : ∀ bucket < buckets,
    Path table.next (table.heads.getD bucket 0) (members entries bucket)

theorem holds_empty (buckets indices : Nat) : (empty buckets indices).Holds buckets indices []
    where
  heads := List.length_replicate
  links := List.length_replicate
  paths bucket inRange := by
    have start : (empty buckets indices).heads.getD bucket 0 = 0 := by
      rw [empty, List.getD_eq_getElem?_getD, List.getElem?_replicate, if_pos inRange]
      rfl
    rw [start]
    exact .ending

structure Fresh (buckets indices : Nat) (entries : List (Nat × Nat)) (entry : Nat × Nat) :
    Prop where
  bucket : entry.1 < buckets
  positive : entry.2 ≠ 0
  index : entry.2 < indices
  absent : entry.2 ∉ entries.map Prod.snd

theorem members_append (entries : List (Nat × Nat)) (entry : Nat × Nat) (bucket : Nat) :
    members (entries ++ [entry]) bucket =
      if entry.1 = bucket then entry.2 :: members entries bucket
      else members entries bucket := by
  rw [members, List.filter_append, List.map_append, List.reverse_append]
  by_cases isBucket : entry.1 = bucket
  · rw [if_pos isBucket, List.filter_cons, if_pos (beq_iff_eq.mpr isBucket)]
    rfl
  · rw [if_neg isBucket, List.filter_cons, if_neg (by rwa [beq_iff_eq])]
    rfl

theorem mem_members {entries : List (Nat × Nat)} {bucket index : Nat} :
    index ∈ members entries bucket ↔ (bucket, index) ∈ entries := by
  rw [members, List.mem_reverse, List.mem_map]
  constructor
  · rintro ⟨⟨own, found⟩, present, rfl⟩
    rcases List.mem_filter.mp present with ⟨among, isBucket⟩
    rw [← beq_iff_eq.mp isBucket]
    exact among
  · intro present
    exact ⟨_, List.mem_filter.mpr ⟨present, beq_self_eq_true bucket⟩, rfl⟩

theorem Holds.insert {table : Table} {buckets indices : Nat} {entries : List (Nat × Nat)}
    {entry : Nat × Nat} (holds : table.Holds buckets indices entries)
    (fresh : Fresh buckets indices entries entry) :
    (table.insert entry).Holds buckets indices (entries ++ [entry]) where
  heads := (List.length_set ..).trans holds.heads
  links := (List.length_set ..).trans holds.links
  paths bucket inRange := by
    have kept : Path (table.insert entry).next (table.heads.getD bucket 0)
        (members entries bucket) := by
      refine (holds.paths bucket inRange).congr fun index present => ?_
      have other : entry.2 ≠ index := by
        rintro rfl
        exact fresh.absent (List.mem_map.mpr ⟨_, mem_members.mp present, rfl⟩)
      exact List.getElem?_set_ne other
    rw [members_append]
    by_cases isBucket : entry.1 = bucket
    · have start : (table.insert entry).heads.getD bucket 0 = entry.2 := by
        rw [Table.insert, ← isBucket, List.getD_eq_getElem?_getD,
          List.getElem?_set_self (holds.heads ▸ fresh.bucket)]
        rfl
      have link : (table.insert entry).next entry.2 = some (table.heads.getD bucket 0) := by
        rw [← isBucket]
        exact List.getElem?_set_self (holds.links ▸ fresh.index)
      rw [if_pos isBucket, start]
      exact .step fresh.positive link kept
    · have start : (table.insert entry).heads.getD bucket 0 = table.heads.getD bucket 0 := by
        rw [Table.insert, List.getD_eq_getElem?_getD, List.getElem?_set_ne isBucket,
          List.getD_eq_getElem?_getD]
      rw [if_neg isBucket, start]
      exact kept

theorem holds_foldl {buckets indices : Nat} {entries : List (Nat × Nat)}
    (inRange : ∀ entry ∈ entries, entry.1 < buckets ∧ entry.2 ≠ 0 ∧ entry.2 < indices)
    (distinct : (entries.map Prod.snd).Nodup) :
    (entries.foldl insert (empty buckets indices)).Holds buckets indices entries := by
  induction entries using List.reverseRecOn with
  | nil => exact holds_empty buckets indices
  | append_singleton entries entry induction =>
      rw [List.map_append, List.nodup_append] at distinct
      rcases distinct with ⟨earlier, _, apart⟩
      rw [List.foldl_append]
      refine (induction (fun other present => inRange other (List.mem_append_left _ present))
        earlier).insert ?_
      rcases inRange entry (List.mem_append_right _ List.mem_cons_self) with
        ⟨bucket, positive, index⟩
      exact ⟨bucket, positive, index, fun present =>
        apart entry.2 present entry.2 List.mem_cons_self rfl⟩

end Table

end Chains
