import Peony.Foundation.Records
import Peony.Layout.Dynamic
import Peony.Object.Words

namespace Peony

/-! The string table of a dynamic output and the entries of `.dynsym`, read back. -/

/-! ## Strings -/

def stringAt (table : List UInt8) (offset : Nat) : Name :=
  (table.drop offset).takeWhile fun byte => byte != 0

theorem stringAt_append {name : Name} (noEnd : (0 : UInt8) ∉ name)
    (front rest : List UInt8) : stringAt (front ++ (name ++ 0 :: rest)) front.length = name := by
  have inName : ∀ byte ∈ name, (byte != 0) = true := by
    intro byte present
    rw [bne_iff_ne]
    rintro rfl
    exact noEnd present
  rw [stringAt, List.drop_left, List.takeWhile_append_of_pos inName,
    List.takeWhile_cons_of_neg (by decide), List.append_nil]

def stringBytes (names : List Name) : List UInt8 := names.flatMap fun name => name ++ [0]

theorem stringBytes_cons (name : Name) (rest : List Name) :
    stringBytes (name :: rest) = name ++ [0] ++ stringBytes rest :=
  List.flatMap_cons

theorem stringBytes_append (names more : List Name) :
    stringBytes (names ++ more) = stringBytes names ++ stringBytes more :=
  List.flatMap_append

def offsetsFrom (start : Nat) : List Name → List Nat
  | [] => []
  | name :: rest => start :: offsetsFrom (start + (name.length + 1)) rest

@[simp] theorem length_offsetsFrom (start : Nat) (names : List Name) :
    (offsetsFrom start names).length = names.length := by
  induction names generalizing start with
  | nil => rfl
  | cons name rest induction =>
      rw [offsetsFrom, List.length_cons, induction, List.length_cons]

theorem getElem?_offsetsFrom (start : Nat) (names : List Name) {place : Nat}
    (inRange : place < names.length) :
    (offsetsFrom start names)[place]? =
      some (start + (stringBytes (names.take place)).length) := by
  induction names generalizing start place with
  | nil => exact absurd inRange (Nat.not_lt_zero _)
  | cons name rest induction =>
      cases place with
      | zero => rfl
      | succ place =>
          rw [offsetsFrom, List.getElem?_cons_succ,
            induction _ (Nat.lt_of_succ_lt_succ inRange), List.take_succ_cons,
            stringBytes_cons, List.length_append, List.length_append, List.length_singleton,
            Nat.add_assoc]

theorem pushStrings_eq (table : List UInt8) (names : List Name) :
    pushStrings table names =
      ((offsetsFrom table.length names).map UInt32.ofNat, table ++ stringBytes names) := by
  induction names generalizing table with
  | nil => rw [pushStrings, stringBytes, List.flatMap_nil, List.append_nil]; rfl
  | cons name rest induction =>
      have longer : (pushString table name).length = table.length + (name.length + 1) := by
        rw [pushString, List.length_append, List.length_append, Nat.add_assoc]
        rfl
      rw [pushStrings, induction, longer, offsetsFrom, stringBytes_cons, pushString,
        List.map_cons, List.append_assoc, List.append_assoc, List.append_assoc]

/-- A string is read back where it starts. -/
theorem stringAt_offset {names : List Name} {place : Nat} (inRange : place < names.length)
    (noEnd : (0 : UInt8) ∉ names[place]) (table rest : List UInt8) :
    stringAt (table ++ stringBytes names ++ rest)
      (table.length + (stringBytes (names.take place)).length) = names[place] := by
  have split : stringBytes names = stringBytes (names.take place) ++
      (names[place] ++ 0 :: stringBytes (names.drop (place + 1))) := by
    conv =>
      lhs
      rw [← List.take_append_drop place names, List.drop_eq_getElem_cons inRange]
    rw [stringBytes_append, stringBytes_cons, List.append_assoc]
    rfl
  have whole : table ++ stringBytes names ++ rest =
      (table ++ stringBytes (names.take place)) ++
        (names[place] ++ 0 :: (stringBytes (names.drop (place + 1)) ++ rest)) := by
    rw [split]
    simp only [List.append_assoc, List.cons_append]
  rw [whole, ← List.length_append]
  exact stringAt_append noEnd _ _

theorem length_stringBytes_take_lt {names : List Name} {place : Nat}
    (inRange : place < names.length) :
    (stringBytes (names.take place)).length < (stringBytes names).length := by
  conv =>
    rhs
    rw [← List.take_append_drop place names, List.drop_eq_getElem_cons inRange]
  rw [stringBytes_append, List.length_append, stringBytes_cons, List.length_append,
    List.length_append, List.length_singleton]
  omega

/-! ## Words -/

def wordFormat : RecordFormat UInt32 UInt8 where
  width := 4
  write := le32
  read bytes := UInt32.ofNat (readU32 bytes)
  positive := by decide
  length_write := length_le32
  read_write word := by
    rw [readU32, List.take_of_length_le (Nat.le_of_eq (length_le32 word)), fromLeBytes_le32,
      UInt32.ofNat_toNat]

/-! ## Dynamic symbols -/

/-- An entry of `.dynsym`. -/
structure DynSym where
  nameOff : UInt32
  info : UInt8 := 0
  other : UInt8 := 0
  shndx : UInt16 := 0
  value : UInt64 := 0
  size : UInt64 := 0
deriving DecidableEq

namespace DynSym

def bytes (sym : DynSym) : List UInt8 :=
  le32 sym.nameOff ++ [sym.info, sym.other] ++ le16 sym.shndx ++ toLeBytes sym.value ++
    toLeBytes sym.size

def ofBytes (bytes : List UInt8) : DynSym where
  nameOff := UInt32.ofNat (readU32 bytes)
  info := bytes.getD 4 0
  other := bytes.getD 5 0
  shndx := UInt16.ofNat (fromLeBytes ((bytes.drop 6).take 2))
  value := wordOf (bytes.drop 8)
  size := wordOf (bytes.drop 16)

theorem ofBytes_bytes (sym : DynSym) : ofBytes sym.bytes = sym := by
  have name : UInt32.ofNat (readU32 sym.bytes) = sym.nameOff := wordFormat.read_write _
  have shndx : UInt16.ofNat (fromLeBytes (le16 sym.shndx)) = sym.shndx := by
    rw [fromLeBytes_le16, UInt16.ofNat_toNat]
  have value : wordOf (toLeBytes sym.value ++ toLeBytes sym.size) = sym.value :=
    wordOf_append _ _
  have size : wordOf (toLeBytes sym.size) = sym.size := wordOf_toLeBytes _
  rw [ofBytes, name]
  change DynSym.mk _ sym.info sym.other (UInt16.ofNat (fromLeBytes (le16 sym.shndx)))
    (wordOf (toLeBytes sym.value ++ toLeBytes sym.size)) (wordOf (toLeBytes sym.size)) = sym
  rw [shndx, value, size]

def format : RecordFormat DynSym UInt8 where
  width := 24
  write := bytes
  read := ofBytes
  positive := by decide
  length_write _ := rfl
  read_write := ofBytes_bytes

end DynSym

end Peony
