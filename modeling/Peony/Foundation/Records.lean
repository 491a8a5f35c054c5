import Mathlib.Data.List.Basic

/-! Tables of records of one size, which are written one behind the other and read back. -/

universe u v

structure RecordFormat (Record : Type u) (Byte : Type v) where
  width : Nat
  write : Record → List Byte
  read : List Byte → Record
  positive : 0 < width
  length_write : ∀ record, (write record).length = width
  read_write : ∀ record, read (write record) = record

namespace RecordFormat

variable {Record : Type u} {Byte : Type v} (format : RecordFormat Record Byte)

def table (records : List Record) : List Byte := records.flatMap format.write

def readUpTo : Nat → List Byte → List Record
  | 0, _ => []
  | fuel + 1, bytes =>
      if bytes.length < format.width then []
      else
        format.read (bytes.take format.width) ::
          readUpTo fuel (bytes.drop format.width)

def readAll (bytes : List Byte) : List Record := format.readUpTo bytes.length bytes

def readAt (bytes : List Byte) (place : Nat) : Option Record :=
  if format.width * (place + 1) ≤ bytes.length then
    some (format.read ((bytes.drop (format.width * place)).take format.width))
  else none

/-! ## Writing -/

@[simp] theorem table_nil : format.table [] = [] := rfl

theorem table_cons (record : Record) (rest : List Record) :
    format.table (record :: rest) = format.write record ++ format.table rest :=
  List.flatMap_cons

theorem table_append (records more : List Record) :
    format.table (records ++ more) = format.table records ++ format.table more :=
  List.flatMap_append

@[simp] theorem length_table (records : List Record) :
    (format.table records).length = format.width * records.length := by
  induction records with
  | nil => rfl
  | cons record rest induction =>
      rw [table_cons, List.length_append, format.length_write, induction,
        List.length_cons, Nat.mul_succ, Nat.add_comm]

/-! ## Reading what is written -/

theorem take_write (record : Record) (rest : List Byte) :
    (format.write record ++ rest).take format.width = format.write record := by
  rw [← format.length_write record, List.take_left]

theorem drop_write (record : Record) (rest : List Byte) :
    (format.write record ++ rest).drop format.width = rest := by
  rw [← format.length_write record, List.drop_left]

theorem drop_table (records : List Record) (rest : List Byte) :
    (format.table records ++ rest).drop (format.width * records.length) = rest := by
  rw [← format.length_table, List.drop_left]

theorem readUpTo_table {fuel : Nat} {records : List Record}
    (enough : records.length ≤ fuel) :
    format.readUpTo fuel (format.table records) = records := by
  induction records generalizing fuel with
  | nil =>
      cases fuel with
      | zero => rfl
      | succ fuel => exact if_pos format.positive
  | cons record rest induction =>
      cases fuel with
      | zero => exact absurd enough (Nat.not_succ_le_zero _)
      | succ fuel =>
          have long : ¬ (format.write record ++ format.table rest).length < format.width := by
            rw [List.length_append, format.length_write]
            exact Nat.not_lt.mpr (Nat.le_add_right _ _)
          rw [table_cons, readUpTo, if_neg long, take_write, drop_write,
            format.read_write, induction (Nat.le_of_succ_le_succ enough)]

@[simp] theorem readAll_table (records : List Record) :
    format.readAll (format.table records) = records := by
  refine format.readUpTo_table ?_
  rw [length_table]
  exact Nat.le_mul_of_pos_left _ format.positive

theorem readAt_table {records : List Record} {rest : List Byte} {place : Nat}
    (inTable : place < records.length) :
    format.readAt (format.table records ++ rest) place = some records[place] := by
  have reaches : format.width * (place + 1) ≤ (format.table records ++ rest).length := by
    rw [List.length_append, length_table]
    exact Nat.le_trans (Nat.mul_le_mul_left _ inTable) (Nat.le_add_right _ _)
  have split : format.table records ++ rest =
      format.table (records.take place) ++
        (format.write records[place] ++
          (format.table (records.drop (place + 1)) ++ rest)) := by
    conv => lhs; rw [← List.take_append_drop place records, List.drop_eq_getElem_cons inTable]
    rw [table_append, table_cons, List.append_assoc, List.append_assoc]
  have front : format.width * place =
      format.width * (records.take place).length := by
    rw [List.length_take, Nat.min_eq_left (Nat.le_of_lt inTable)]
  rw [readAt, if_pos reaches, split, front, drop_table, take_write, format.read_write]

theorem readAt_table_none {records : List Record} {place : Nat}
    (behind : records.length ≤ place) :
    format.readAt (format.table records) place = none := by
  refine if_neg ?_
  rw [length_table, Nat.not_le]
  exact (Nat.mul_lt_mul_left format.positive).mpr (Nat.lt_succ_of_le behind)

end RecordFormat
