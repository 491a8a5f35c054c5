import Peony.Object.Model

namespace Peony

/-! The ELF constants the linker tests sections against. -/

def nameOf (literal : String) : Name := literal.toUTF8.data.toList

/-! ## Section types -/

def shtProgbits : UInt32 := 1

def shtSymtab : UInt32 := 2

def shtStrtab : UInt32 := 3

def shtRela : UInt32 := 4

def shtHash : UInt32 := 5

def shtDynamic : UInt32 := 6

def shtNote : UInt32 := 7

def shtNobits : UInt32 := 8

def shtDynsym : UInt32 := 11

def shtInitArray : UInt32 := 14

def shtFiniArray : UInt32 := 15

def shtPreinitArray : UInt32 := 16

def shtSymtabShndx : UInt32 := 18

def shtGnuHash : UInt32 := 0x6ffffff6

def shtGnuVerneed : UInt32 := 0x6ffffffe

def shtGnuVersym : UInt32 := 0x6fffffff

/-! ## Section flags -/

def shfWrite : UInt64 := 0x1

def shfAlloc : UInt64 := 2

def shfExecinstr : UInt64 := 0x4

def shfTls : UInt64 := 0x400

def shfGnuRetain : UInt64 := 0x00200000

/-! ## Sizes of the records of a file -/

def ehdrSize : UInt64 := 64

def phdrSize : UInt64 := 56

def shdrSize : UInt64 := 64

def symSize : UInt64 := 24

def relaSize : UInt64 := 24

/-! ## Section indices and symbols -/

def shnAbs : UInt16 := 0xfff1

def stbLocal : UInt8 := 0

def stbGlobal : UInt8 := 1

def stbWeak : UInt8 := 2

def sttNotype : UInt8 := 0

def sttObject : UInt8 := 1

def sttFunc : UInt8 := 2

def sttFile : UInt8 := 4

def sttTls : UInt8 := 6

def sttGnuIfunc : UInt8 := 10

def stvHidden : UInt8 := 2

def stvProtected : UInt8 := 3

def stInfo (bind type : UInt8) : UInt8 := (bind <<< 4) ||| (type &&& 0xf)

/-! ## Dynamic relocations -/

def rX8664Copy : UInt32 := 5

def rX8664GlobDat : UInt32 := 6

def rX8664JumpSlot : UInt32 := 7

def rX8664Irelative : UInt32 := 37

namespace InputSection

def isAlloc (sec : InputSection) : Bool := sec.flags &&& shfAlloc != 0

end InputSection

end Peony
