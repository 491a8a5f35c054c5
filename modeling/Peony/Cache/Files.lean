import Peony.Object.Model

namespace Peony

/-! Files, what one `stat()` tells about a file, and the hashes of the cache. -/

/-! ## FNV-1a -/

def fnvOffset : UInt64 := 0xcbf29ce484222325

def fnvPrime : UInt64 := 0x00000100000001b3

def fnvByte (hash : UInt64) (byte : UInt8) : UInt64 :=
  (hash ^^^ byte.toUInt64) * fnvPrime

def fnvBytes (hash : UInt64) (data : List UInt8) : UInt64 :=
  data.foldl fnvByte hash

def toLeBytes (word : UInt64) : List UInt8 :=
  (List.range 8).map fun place => (word >>> UInt64.ofNat (8 * place)).toUInt8

/-- Length and content hash. -/
structure Fingerprint where
  len : UInt64
  hash : UInt64
deriving DecidableEq, Repr

def Fingerprint.ofBytes (data : List UInt8) : Fingerprint :=
  ⟨UInt64.ofNat data.length, fnvBytes fnvOffset data⟩

def Fingerprint.default : Fingerprint := ⟨0, 0⟩

/-! ## Stat fingerprints -/

/-- Size, modification time and inode. The seconds and nanoseconds are kept
apart, as two exact fields. -/
structure FastFingerprint where
  len : Nat
  mtimeSec : Int
  mtimeNsec : Int
  inode : Nat
deriving DecidableEq, Repr

/-- What a stat that fails is replaced by. -/
def FastFingerprint.default : FastFingerprint := ⟨0, 0, 0, 0⟩

/-- The stat fingerprint of a file written at tick `clock` of the disk. -/
def FastFingerprint.at (clock : Nat) (bytes : List UInt8) : FastFingerprint :=
  ⟨bytes.length, (clock : Int) + 1, 0, 0⟩

structure File where
  bytes : List UInt8
  fast : FastFingerprint
deriving DecidableEq, Repr

/-! ## The disk -/

/-- The files outside the cache directories. Every write takes the next tick of
the clock, so that no two writes leave the same stat fingerprint. -/
structure Disk where
  file : Path → Option File
  clock : Nat

namespace Disk

def empty : Disk := ⟨fun _ => none, 0⟩

def write (disk : Disk) (path : Path) (bytes : List UInt8) : Disk where
  file := Function.update disk.file path
    (some ⟨bytes, FastFingerprint.at disk.clock bytes⟩)
  clock := disk.clock + 1

def remove (disk : Disk) (path : Path) : Disk :=
  { disk with file := Function.update disk.file path none }

/-- Let a write elsewhere take the next tick. -/
def tick (disk : Disk) : Disk := { disk with clock := disk.clock + 1 }

/-- `FastFingerprint::of_file`. -/
def stat (disk : Disk) (path : Path) : Option FastFingerprint :=
  (disk.file path).map File.fast

def contents (disk : Disk) (path : Path) : Option (List UInt8) :=
  (disk.file path).map File.bytes

@[simp] theorem file_write_self (disk : Disk) (path : Path) (bytes : List UInt8) :
    (disk.write path bytes).file path =
      some ⟨bytes, FastFingerprint.at disk.clock bytes⟩ := by
  simp [write]

theorem file_write_of_ne (disk : Disk) {path other : Path} (bytes : List UInt8)
    (different : other ≠ path) :
    (disk.write path bytes).file other = disk.file other := by
  simp [write, different]

theorem contents_write_of_ne (disk : Disk) {path other : Path}
    (bytes : List UInt8) (different : other ≠ path) :
    (disk.write path bytes).contents other = disk.contents other := by
  rw [contents, file_write_of_ne disk bytes different, contents]

@[simp] theorem clock_write (disk : Disk) (path : Path) (bytes : List UInt8) :
    (disk.write path bytes).clock = disk.clock + 1 := rfl

@[simp] theorem file_remove_self (disk : Disk) (path : Path) :
    (disk.remove path).file path = none := by
  simp [remove]

theorem file_remove_of_ne (disk : Disk) {path other : Path}
    (different : other ≠ path) :
    (disk.remove path).file other = disk.file other := by
  simp [remove, different]

@[simp] theorem clock_remove (disk : Disk) (path : Path) :
    (disk.remove path).clock = disk.clock := rfl

/-! ### Stat fingerprints tell writes apart -/

/-- Every stamp was given before the present tick, and no two files share one. -/
structure Stamped (disk : Disk) : Prop where
  past : ∀ path file, disk.file path = some file →
    file.fast.mtimeSec ≤ disk.clock
  apart : ∀ left right leftFile rightFile,
    disk.file left = some leftFile → disk.file right = some rightFile →
    leftFile.fast = rightFile.fast → left = right

theorem stamped_empty : empty.Stamped where
  past := by
    intro path file present
    cases present
  apart := by
    intro left right leftFile rightFile present
    cases present

theorem Stamped.write {disk : Disk} (stamped : disk.Stamped) (path : Path)
    (bytes : List UInt8) : (disk.write path bytes).Stamped where
  past := by
    intro other file present
    rw [clock_write]
    by_cases same : other = path
    · subst same
      rw [file_write_self] at present
      cases present
      simp [FastFingerprint.at]
    · rw [file_write_of_ne disk bytes same] at present
      have old := stamped.past other file present
      omega
  apart := by
    -- A file that was not written now has a stamp from an earlier tick.
    have older : ∀ other file, other ≠ path → disk.file other = some file →
        file.fast ≠ FastFingerprint.at disk.clock bytes := by
      intro other file _ present equal
      have past := stamped.past other file present
      rw [equal] at past
      simp only [FastFingerprint.at] at past
      omega
    intro left right leftFile rightFile leftPresent rightPresent equal
    by_cases leftSame : left = path
    · by_cases rightSame : right = path
      · rw [leftSame, rightSame]
      · rw [file_write_of_ne disk bytes rightSame] at rightPresent
        rw [leftSame, file_write_self] at leftPresent
        cases leftPresent
        exact absurd equal.symm (older right rightFile rightSame rightPresent)
    · rw [file_write_of_ne disk bytes leftSame] at leftPresent
      by_cases rightSame : right = path
      · rw [rightSame, file_write_self] at rightPresent
        cases rightPresent
        exact absurd equal (older left leftFile leftSame leftPresent)
      · rw [file_write_of_ne disk bytes rightSame] at rightPresent
        exact stamped.apart left right leftFile rightFile leftPresent
          rightPresent equal

theorem Stamped.remove {disk : Disk} (stamped : disk.Stamped) (path : Path) :
    (disk.remove path).Stamped := by
  have kept : ∀ other file, (disk.remove path).file other = some file →
      disk.file other = some file := by
    intro other file present
    by_cases same : other = path
    · rw [same, file_remove_self] at present
      cases present
    · rwa [file_remove_of_ne disk same] at present
  constructor
  · intro other file present
    exact stamped.past other file (kept other file present)
  · intro left right leftFile rightFile leftPresent rightPresent equal
    exact stamped.apart left right leftFile rightFile
      (kept left leftFile leftPresent) (kept right rightFile rightPresent) equal

structure Later (disk later : Disk) : Prop where
  file : later.file = disk.file
  clock : disk.clock ≤ later.clock

theorem Later.refl (disk : Disk) : Later disk disk := ⟨rfl, le_refl _⟩

theorem later_tick (disk : Disk) : Later disk disk.tick :=
  ⟨rfl, Nat.le_succ _⟩

theorem Later.contents {disk later : Disk} (after : Later disk later) :
    later.contents = disk.contents := by
  funext path
  rw [Disk.contents, after.file, Disk.contents]

theorem Later.stat {disk later : Disk} (after : Later disk later) :
    later.stat = disk.stat := by
  funext path
  rw [Disk.stat, after.file, Disk.stat]

theorem Stamped.later {disk later : Disk} (stamped : disk.Stamped)
    (after : Later disk later) : later.Stamped where
  past := by
    intro path file present
    rw [after.file] at present
    have old := stamped.past path file present
    have clock := after.clock
    omega
  apart := by
    intro left right leftFile rightFile leftPresent rightPresent equal
    rw [after.file] at leftPresent rightPresent
    exact stamped.apart left right leftFile rightFile leftPresent rightPresent
      equal

theorem fast_write_ne {disk : Disk} {fast : FastFingerprint} {path : Path}
    {bytes : List UInt8} {file : File} (past : fast.mtimeSec ≤ disk.clock)
    (present : (disk.write path bytes).file path = some file) :
    file.fast ≠ fast := by
  rw [file_write_self] at present
  cases present
  intro equal
  rw [← equal] at past
  simp only [FastFingerprint.at] at past
  omega

end Disk

end Peony
