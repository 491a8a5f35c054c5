import Peony.Foundation.Records

/-! Records that lie anywhere in a table, each with the distance to the next one. The
distance 0 ends the list. -/

universe u v w x

namespace RecordFormat

variable {Record : Type u} {Byte : Type v} {Result : Type w}
variable (format : RecordFormat Record Byte)

def recordAt (bytes : List Byte) (offset : Nat) : Option Record :=
  if offset + format.width ≤ bytes.length then
    some (format.read ((bytes.drop offset).take format.width))
  else none

theorem recordAt_append (front : List Byte) (record : Record) (rest : List Byte) :
    format.recordAt (front ++ (format.write record ++ rest)) front.length = some record := by
  have reaches : front.length + format.width ≤
      (front ++ (format.write record ++ rest)).length := by
    rw [List.length_append, List.length_append, format.length_write]
    exact Nat.add_le_add_left (Nat.le_add_right _ _) _
  rw [recordAt, if_pos reaches, List.drop_left, take_write, format.read_write]

/-- Visit the records from an offset on, at most as many as the fuel. The walk fails when a
record or a visit does, or when it is not at the end of the list by then. -/
def follow (next : Record → Nat) (visit : List Byte → Nat → Record → Option Result) :
    Nat → List Byte → Nat → Option (List Result)
  | 0, _, _ => none
  | fuel + 1, bytes, offset =>
      (format.recordAt bytes offset).bind fun record =>
        (visit bytes offset record).bind fun result =>
          if next record = 0 then some [result]
          else
            (follow next visit fuel bytes (offset + next record)).map fun results =>
              result :: results

/-- A record and what stands between it and the next one. -/
abbrev Block (Record : Type u) (Byte : Type v) := Record × List Byte

def blockBytes (block : Block Record Byte) : List Byte := format.write block.1 ++ block.2

inductive Linked (next : Record → Nat) : List (Block Record Byte) → Prop
  | last {block : Block Record Byte} (ends : next block.1 = 0) : Linked next [block]
  | step {block following : Block Record Byte} {rest : List (Block Record Byte)}
      (link : next block.1 = format.width + block.2.length)
      (linked : Linked next (following :: rest)) : Linked next (block :: following :: rest)

theorem linked_of_getElem {next : Record → Nat} {blocks : List (Block Record Byte)}
    (filled : blocks ≠ [])
    (each : ∀ place, ∀ inRange : place < blocks.length, next blocks[place].1 =
      if place + 1 < blocks.length then format.width + blocks[place].2.length else 0) :
    format.Linked next blocks := by
  induction blocks with
  | nil => exact absurd rfl filled
  | cons block rest induction =>
      have first := each 0 (Nat.zero_lt_succ _)
      cases rest with
      | nil => exact .last first
      | cons following others =>
          have goesOn : 0 + 1 < (block :: following :: others).length :=
            Nat.succ_lt_succ (Nat.zero_lt_succ _)
          rw [if_pos goesOn] at first
          refine .step first (induction (List.cons_ne_nil _ _) fun place inRange => ?_)
          have later := each (place + 1) (Nat.succ_lt_succ inRange)
          simp only [List.getElem_cons_succ, List.length_cons, Nat.add_lt_add_iff_right]
            at later ⊢
          exact later

theorem follow_linked {Item : Type x} {block : Item → Block Record Byte} {next : Record → Nat}
    {visit : List Byte → Nat → Record → Option Result} {result : Item → Result}
    {items : List Item} (linked : format.Linked next (items.map block)) {fuel : Nat}
    (enough : items.length ≤ fuel)
    (visits : ∀ item ∈ items, ∀ front rest : List Byte,
      visit (front ++ (format.blockBytes (block item) ++ rest)) front.length (block item).1 =
        some (result item)) (front rest : List Byte) :
    format.follow next visit fuel
      (front ++ (items.flatMap (fun item => format.blockBytes (block item)) ++ rest))
      front.length = some (items.map result) := by
  induction items generalizing fuel front with
  | nil => exact nomatch linked
  | cons item others induction =>
      cases fuel with
      | zero => exact absurd enough (Nat.not_succ_le_zero _)
      | succ fuel =>
          have whole : front ++ ((item :: others).flatMap
              (fun item => format.blockBytes (block item)) ++ rest) =
              front ++ (format.blockBytes (block item) ++
                (others.flatMap (fun item => format.blockBytes (block item)) ++ rest)) := by
            rw [List.flatMap_cons, List.append_assoc]
          have visited := visits item List.mem_cons_self front
            (others.flatMap (fun item => format.blockBytes (block item)) ++ rest)
          have read := format.recordAt_append front (block item).1 ((block item).2 ++
            (others.flatMap (fun item => format.blockBytes (block item)) ++ rest))
          rw [← List.append_assoc (format.write (block item).1), ← blockBytes] at read
          rw [whole, follow, read, Option.bind_some, visited, Option.bind_some]
          cases others with
          | nil =>
              cases linked with
              | last ends => rw [if_pos ends]; rfl
          | cons following others =>
              cases linked with
              | step link linked =>
                  have goesOn : next (block item).1 ≠ 0 := by
                    rw [link]
                    exact Nat.ne_of_gt
                      (Nat.lt_of_lt_of_le format.positive (Nat.le_add_right _ _))
                  have moved : front.length + next (block item).1 =
                      (front ++ format.blockBytes (block item)).length := by
                    rw [link, List.length_append, blockBytes, List.length_append,
                      format.length_write]
                  have later := induction linked (Nat.le_of_succ_le_succ enough)
                    (fun other present => visits other (List.mem_cons_of_mem _ present))
                    (front ++ format.blockBytes (block item))
                  rw [List.append_assoc, ← moved] at later
                  rw [if_neg goesOn, later]
                  rfl

end RecordFormat
