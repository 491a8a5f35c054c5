import Peony.Object.Model

namespace Peony

/-! The records of an `.eh_frame` section. -/

def fromLeBytes (bytes : List UInt8) : Nat :=
  bytes.foldr (fun byte rest => byte.toNat + 256 * rest) 0

/-- The 32-bit number at the front of the data. -/
def readU32 (data : List UInt8) : Nat := fromLeBytes (data.take 4)

/-- How many records there are of each kind, and how many bytes follow the last
one. -/
structure EhFrameScan where
  cies : Nat := 0
  fdes : Nat := 0
  terms : Nat := 0
  leftover : Nat := 0
deriving DecidableEq, Repr

/-- The loop over the records, with the data from the current one on. Every
record takes at least four bytes. -/
def scanEhFrameFrom : Nat → List UInt8 → EhFrameScan → EhFrameScan
  | 0, rest, scan => { scan with leftover := rest.length }
  | fuel + 1, rest, scan =>
      if rest.length < 4 then { scan with leftover := rest.length }
      else
        let len := readU32 rest
        if len = 0 then
          scanEhFrameFrom fuel (rest.drop 4) { scan with terms := scan.terms + 1 }
        else if len = 0xffffffff then { scan with leftover := rest.length }
        else if rest.length < 8 ∨ rest.length < 4 + len then
          { scan with leftover := rest.length }
        else
          scanEhFrameFrom fuel (rest.drop (4 + len))
            (if readU32 (rest.drop 4) = 0 then
              { scan with cies := scan.cies + 1 }
            else { scan with fdes := scan.fdes + 1 })

def scanEhFrame (data : List UInt8) : EhFrameScan :=
  scanEhFrameFrom data.length data {}

def countFdes (data : List UInt8) : Nat := (scanEhFrame data).fdes

/-! ## The frame descriptions -/

/-- A frame description: the offset of its record, that of its first address, and the
address, which is relative to its own place. -/
structure Fde where
  pos : Nat
  pcBeginOff : Nat
  rel : Int64
deriving DecidableEq

/-- The loop over the records, with the data from the position on. -/
def iterFdesFrom : Nat → Nat → List UInt8 → List Fde
  | 0, _, _ => []
  | fuel + 1, pos, rest =>
      if rest.length < 4 then []
      else
        let len := readU32 rest
        if len = 0 then iterFdesFrom fuel (pos + 4) (rest.drop 4)
        else if len = 0xffffffff then []
        else if rest.length < 12 ∨ rest.length < 4 + len then []
        else
          let later := iterFdesFrom fuel (pos + 4 + len) (rest.drop (4 + len))
          if readU32 (rest.drop 4) = 0 then later
          else
            { pos := pos
              pcBeginOff := pos + 8
              rel := (UInt32.ofNat (readU32 (rest.drop 8))).toInt32.toInt64 } :: later

def iterFdes (data : List UInt8) : List Fde := iterFdesFrom data.length 0 data

end Peony
