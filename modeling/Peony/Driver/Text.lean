import Mathlib.Data.List.Basic
import Mathlib.Data.List.Induction

namespace Peony

/-! Text as the driver handles it: lists of characters, with the operations of the
standard library that the driver uses on strings. -/

abbrev Text := List Char

instance lawfulBEqText : LawfulBEq Text := List.instLawfulBEq

/-- The characters of a literal that has one byte for each. -/
def ascii (literal : String) : Text :=
  literal.toUTF8.data.toList.map fun byte => Char.ofNat byte.toNat

/-! ## UTF-8 -/

def encodeUtf8 (text : Text) : List UInt8 := text.flatMap String.utf8EncodeChar

/-- A sequence that is not complete: how many bytes are missing, the range of the
next one, and the bits so far. -/
structure Pending where
  missing : Nat
  lower : Nat
  upper : Nat
  value : Nat
deriving DecidableEq, Repr

/-- What the first byte of a sequence of two to four bytes says. -/
def Pending.start (byte : Nat) : Option Pending :=
  if 0xc2 ≤ byte ∧ byte ≤ 0xdf then some ⟨1, 0x80, 0xbf, byte - 0xc0⟩
  else if 0xe0 ≤ byte ∧ byte ≤ 0xef then
    some ⟨2, if byte = 0xe0 then 0xa0 else 0x80,
      if byte = 0xed then 0x9f else 0xbf, byte - 0xe0⟩
  else if 0xf0 ≤ byte ∧ byte ≤ 0xf4 then
    some ⟨3, if byte = 0xf0 then 0x90 else 0x80,
      if byte = 0xf4 then 0x8f else 0xbf, byte - 0xf0⟩
  else none

def beginSequence (byte : UInt8) : List (Option Char) × Option Pending :=
  if byte.toNat < 0x80 then ([some (Char.ofNat byte.toNat)], none)
  else
    match Pending.start byte.toNat with
    | some pending => ([], some pending)
    | none => ([none], none)

/-- What the next byte completes, and what it leaves open. A byte that does not
go on with the open sequence ends it and begins another one. -/
def decodeByte (opened : Option Pending) (byte : UInt8) :
    List (Option Char) × Option Pending :=
  match opened with
  | none => beginSequence byte
  | some pending =>
      let value := pending.value * 64 + (byte.toNat - 0x80)
      if pending.lower ≤ byte.toNat ∧ byte.toNat ≤ pending.upper then
        if pending.missing = 1 then ([some (Char.ofNat value)], none)
        else ([], some ⟨pending.missing - 1, 0x80, 0xbf, value⟩)
      else
        let begun := beginSequence byte
        (none :: begun.1, begun.2)

/-- The characters of a byte string. Each longest piece that no sequence goes on
from is one `none`. -/
def decodeUtf8 (opened : Option Pending) : List UInt8 → List (Option Char)
  | [] => if opened.isSome then [none] else []
  | byte :: rest =>
      let decoded := decodeByte opened byte
      decoded.1 ++ decodeUtf8 decoded.2 rest

/-- `String::from_utf8_lossy`. -/
def fromUtf8Lossy (bytes : List UInt8) : Text :=
  (decodeUtf8 none bytes).map fun char => char.getD (Char.ofNat 0xfffd)

/-- `String::from_utf8`. -/
def fromUtf8 (bytes : List UInt8) : Option Text :=
  (decodeUtf8 none bytes).mapM id

private theorem encode_ofNat : ∀ n < 0x80,
    String.utf8EncodeChar (Char.ofNat n) = [UInt8.ofNat n] := by decide

theorem encodeUtf8_fromUtf8Lossy {bytes : List UInt8}
    (isAscii : ∀ byte ∈ bytes, byte.toNat < 0x80) :
    encodeUtf8 (fromUtf8Lossy bytes) = bytes := by
  induction bytes with
  | nil => rfl
  | cons byte rest induction =>
      have small := isAscii byte List.mem_cons_self
      have others := induction fun other present =>
        isAscii other (List.mem_cons_of_mem _ present)
      rw [fromUtf8Lossy, decodeUtf8, decodeByte, beginSequence, if_pos small,
        List.singleton_append, List.map_cons, encodeUtf8, List.flatMap_cons,
        Option.getD_some, encode_ofNat _ small, UInt8.ofNat_toNat]
      exact congrArg (byte :: ·) others

/-! ## Strings -/

/-- The characters with the Unicode property White_Space. -/
def isWhitespace (char : Char) : Bool :=
  let code := char.toNat
  (0x09 ≤ code && code ≤ 0x0d) || code == 0x20 || code == 0x85 ||
    code == 0xa0 || code == 0x1680 || (0x2000 ≤ code && code ≤ 0x200a) ||
    code == 0x2028 || code == 0x2029 || code == 0x202f || code == 0x205f ||
    code == 0x3000

def isAsciiWhitespace (char : Char) : Bool :=
  char == ' ' || char == '\t' || char == '\n' || char == '\r' ||
    char == '\x0c'

def isAsciiHexdigit (char : Char) : Bool :=
  char.isDigit || ('a' ≤ char && char ≤ 'f') || ('A' ≤ char && char ≤ 'F')

/-- Cut off the characters at both ends that `drop` holds of. -/
def trimMatches (drop : Char → Bool) (text : Text) : Text :=
  ((text.dropWhile drop).reverse.dropWhile drop).reverse

def trim (text : Text) : Text := trimMatches isWhitespace text

def splitWhitespace (text : Text) : List Text :=
  (text.splitOnP isWhitespace).filter fun word => !word.isEmpty

def lines (text : Text) : List Text :=
  let pieces := text.splitOnP (· == '\n')
  let pieces :=
    if pieces.getLast? = some [] then pieces.dropLast else pieces
  pieces.map fun line =>
    if line.getLast? = some '\r' then line.dropLast else line

def before (needle text : Text) : Text :=
  match text with
  | [] => []
  | head :: tail =>
      if needle.isPrefixOf text then [] else head :: before needle tail

def findFrom (needle text : Text) (start : Nat) : Option Nat :=
  (List.range' start (text.length + 1 - start)).find? fun place =>
    needle.isPrefixOf (text.drop place)

def contains (text needle : Text) : Bool := (findFrom needle text 0).isSome

def stripPrefix (front text : Text) : Option Text :=
  if front.isPrefixOf text then some (text.drop front.length) else none

def slice (text : Text) (start stop : Nat) : Text :=
  (text.take stop).drop start

/-- The list with every entry that is not in it yet added at the end. -/
def pushNew {α : Type} [DecidableEq α] (found more : List α) : List α :=
  more.foldl
    (fun found entry => if entry ∈ found then found else found ++ [entry]) found

theorem pushNew_append {α : Type} [DecidableEq α] (found front back : List α) :
    pushNew found (front ++ back) = pushNew (pushNew found front) back :=
  List.foldl_append

@[simp] theorem mem_pushNew {α : Type} [DecidableEq α] {found more : List α} {entry : α} :
    entry ∈ pushNew found more ↔ entry ∈ found ∨ entry ∈ more := by
  induction more using List.reverseRecOn with
  | nil => exact (or_iff_left List.not_mem_nil).symm
  | append_singleton more last induction =>
      rw [pushNew_append, List.mem_append, ← or_assoc, ← induction, List.mem_singleton]
      change entry ∈ (if last ∈ pushNew found more then pushNew found more
        else pushNew found more ++ [last]) ↔ _
      split
      · rename_i present
        refine ⟨Or.inl, fun either => either.elim id ?_⟩
        rintro rfl
        exact present
      · rw [List.mem_append, List.mem_singleton]

theorem nodup_pushNew {α : Type} [DecidableEq α] {found : List α} (distinct : found.Nodup)
    (more : List α) : (pushNew found more).Nodup := by
  induction more using List.reverseRecOn with
  | nil => exact distinct
  | append_singleton more last induction =>
      rw [pushNew_append]
      change (if last ∈ pushNew found more then pushNew found more
        else pushNew found more ++ [last]).Nodup
      split
      · exact induction
      · rename_i absent
        exact List.nodup_append.mpr ⟨induction, List.pairwise_singleton _ _, by
          rintro entry isOld other isNew rfl
          exact absent (List.mem_singleton.mp isNew ▸ isOld)⟩

end Peony
