import Peony.Emit.HeaderNumbers
import Peony.Emit.Merging

namespace Peony

/-! The file of a relocatable link as a reader finds it: its section headers, its relocation
sections and its symbol table. -/

namespace Relocatable

/-! ## Reading -/

attribute [ext] Shdr

namespace Shdr

/-- The address is passed over. -/
def ofBytes (bytes : List UInt8) : Shdr where
  name := wordFormat.read bytes
  shType := wordFormat.read (bytes.drop 4)
  flags := wordOf (bytes.drop 8)
  offset := wordOf (bytes.drop 24)
  size := wordOf (bytes.drop 32)
  link := wordFormat.read (bytes.drop 40)
  info := wordFormat.read (bytes.drop 44)
  align := wordOf (bytes.drop 48)
  entsize := wordOf (bytes.drop 56)

theorem ofBytes_bytes (header : Shdr) : ofBytes header.bytes = header := by
  have word (value : UInt32) (rest : List UInt8) : wordFormat.read (le32 value ++ rest) = value :=
    ofNat_readU32_le32 value rest
  rw [ofBytes]
  simp only [bytes, List.append_assoc]
  have name := word header.name (le32 header.shType ++ (toLeBytes header.flags ++
    (toLeBytes 0 ++ (toLeBytes header.offset ++ (toLeBytes header.size ++ (le32 header.link ++
      (le32 header.info ++ (toLeBytes header.align ++ toLeBytes header.entsize))))))))
  have shType := word header.shType (toLeBytes header.flags ++
    (toLeBytes 0 ++ (toLeBytes header.offset ++ (toLeBytes header.size ++ (le32 header.link ++
      (le32 header.info ++ (toLeBytes header.align ++ toLeBytes header.entsize)))))))
  have link := word header.link (le32 header.info ++ (toLeBytes header.align ++
    toLeBytes header.entsize))
  have info := word header.info (toLeBytes header.align ++ toLeBytes header.entsize)
  have flags := wordOf_append header.flags (toLeBytes 0 ++ (toLeBytes header.offset ++
    (toLeBytes header.size ++ (le32 header.link ++ (le32 header.info ++
      (toLeBytes header.align ++ toLeBytes header.entsize))))))
  have offset := wordOf_append header.offset (toLeBytes header.size ++ (le32 header.link ++
    (le32 header.info ++ (toLeBytes header.align ++ toLeBytes header.entsize))))
  have size := wordOf_append header.size (le32 header.link ++ (le32 header.info ++
    (toLeBytes header.align ++ toLeBytes header.entsize)))
  have align := wordOf_append header.align (toLeBytes header.entsize)
  have entsize := wordOf_toLeBytes header.entsize
  exact Shdr.ext name shType flags offset size link info align entsize

def format : RecordFormat Shdr UInt8 where
  width := 64
  write := bytes
  read := ofBytes
  positive := by decide
  length_write _ := rfl
  read_write := ofBytes_bytes

end Shdr

namespace Rela

def ofBytes (bytes : List UInt8) : Rela where
  offset := wordOf bytes
  sym := (wordOf (bytes.drop 8) >>> 32).toUInt32
  rType := (wordOf (bytes.drop 8)).toUInt32
  addend := (wordOf ((bytes.drop 8).drop 8)).toInt64

theorem ofBytes_bytes (rela : Rela) : ofBytes rela.bytes = rela := by
  rw [bytes, List.append_assoc, ofBytes]
  simp only [wordOf_append, drop_toLeBytes, wordOf_toLeBytes, toUInt32_joined,
    toUInt32_joined_shift, Int64.toInt64_toUInt64]

def format : RecordFormat Rela UInt8 where
  width := 24
  write := bytes
  read := ofBytes
  positive := Nat.zero_lt_succ 23
  length_write _ := rfl
  read_write := ofBytes_bytes

end Rela

/-- The bytes that a section header leads to. -/
def sectionOf (file : List UInt8) (header : Shdr) : List UInt8 :=
  (file.drop header.offset.toNat).take header.size.toNat

/-- The file header says where the section headers are and how many. -/
def readHeaders (file : List UInt8) : List Shdr :=
  Shdr.format.readUpTo (halfAt file 60).toNat (file.drop (wordOf (file.drop 40)).toNat)

/-- The entries of a relocation section, with the number of the section that they are for. -/
def readRela (file : List UInt8) (header : Shdr) : Option (Nat × List Rela) :=
  if header.shType = shtRela then
    some (header.info.toNat, Rela.format.readAll (sectionOf file header))
  else none

def readRelas (file : List UInt8) : List (Nat × List Rela) :=
  (readHeaders file).filterMap (readRela file)

structure ReadSymbol where
  name : Name
  info : UInt8
  other : UInt8
  shndx : UInt16
  value : UInt64
  size : UInt64
deriving DecidableEq

def ReadSymbol.named (strings : List UInt8) (sym : DynSym) : ReadSymbol where
  name := stringAt strings sym.nameOff.toNat
  info := sym.info
  other := sym.other
  shndx := sym.shndx
  value := sym.value
  size := sym.size

/-- The entries of the symbol table, with their names from the section it is linked to. -/
def readSymbols (file : List UInt8) : List ReadSymbol :=
  let headers := readHeaders file
  match headers.find? fun header => header.shType == shtSymtab with
  | none => []
  | some table =>
      (DynSym.format.readAll (sectionOf file table)).map
        (ReadSymbol.named ((headers[table.link.toNat]?.map (sectionOf file)).getD []))

def SymRequest.read (request : SymRequest) : ReadSymbol where
  name := request.name
  info := request.info
  other := request.other
  shndx := request.shndx
  value := request.value
  size := request.size

/-! ## What is appended -/

variable {objects : List InputObject} {arena : InputArena} {symbols : SymbolTable}

theorem exists_gap {value align : UInt64} (small : value.toNat + align.toNat < 2 ^ 64) :
    ∃ gap ≤ align.toNat, (alignUp value align).toNat = value.toNat + gap := by
  rw [alignUp]
  split
  · exact ⟨0, Nat.zero_le _, rfl⟩
  · rename_i large
    have positive : 1 ≤ align.toNat := by
      have notLess := UInt64.le_iff_toNat_le.not.mp large
      have one : (1 : UInt64).toNat = 1 := rfl
      omega
    have mask : (align - 1).toNat = align.toNat - 1 :=
      UInt64.toNat_sub_of_le _ _ (UInt64.le_iff_toNat_le.mpr positive)
    have sum : value.toNat + (align - 1).toNat < 2 ^ 64 := by omega
    have same : value + align - 1 = value + (align - 1) := by
      rw [UInt64.sub_eq_add_neg, UInt64.sub_eq_add_neg, UInt64.add_assoc]
    have rounded := Alignment.toNat_roundMask_of_sum sum
    rw [Alignment.roundMask, ← same] at rounded
    have above := Alignment.le_roundBits value.toNat (align - 1).toNat
    have below : Alignment.roundBits value.toNat (align - 1).toNat ≤
        value.toNat + (align - 1).toNat := Nat.sub_le _ _
    refine ⟨Alignment.roundBits value.toNat (align - 1).toNat - value.toNat, ?_, ?_⟩
    · omega
    · rw [rounded]
      omega

theorem resize_eq {file : List UInt8} {off : UInt64} {gap : Nat}
    (isOff : off.toNat = file.length + gap) :
    resize file off = file ++ List.replicate gap 0 := by
  rw [resize, isOff, List.take_of_length_le (Nat.le_add_right _ _), Nat.add_sub_cancel_left]

theorem append_eq {file : List UInt8} {align : UInt64} (data : List UInt8)
    (small : file.length + align.toNat < 2 ^ 64) :
    ∃ gap ≤ align.toNat, ∃ off : UInt64, off.toNat = file.length + gap ∧
      append file align data = (file ++ List.replicate gap 0 ++ data, off) := by
  have length : (UInt64.ofNat file.length).toNat = file.length := by
    rw [UInt64.toNat_ofNat']
    exact Nat.mod_eq_of_lt (by omega)
  have sum : (UInt64.ofNat file.length).toNat + align.toNat < 2 ^ 64 := by
    rw [length]
    exact small
  rcases exists_gap sum with ⟨gap, isSmall, isOff⟩
  rw [length] at isOff
  refine ⟨gap, isSmall, _, isOff, ?_⟩
  rw [append, resize_eq isOff]

/-- The bytes lie in the file from an offset on, behind the file header. -/
structure LiesAt (file : List UInt8) (off : UInt64) (data : List UInt8) : Prop where
  behind : 64 ≤ off.toNat
  held : data <+: file.drop off.toNat

theorem LiesAt.eq_take {file data : List UInt8} {off : UInt64} (lies : LiesAt file off data) :
    (file.drop off.toNat).take data.length = data :=
  (List.prefix_iff_eq_take.mp lies.held).symm

theorem LiesAt.length_le {file data : List UInt8} {off : UInt64} (lies : LiesAt file off data) :
    data.length ≤ file.length := by
  have inside := lies.held.length_le
  rw [List.length_drop] at inside
  omega

/-- The file keeps what it had, and is longer by no more than the given space. -/
structure Grows (file : List UInt8) (space : Nat) (grown : List UInt8) : Prop where
  kept : file <+: grown
  length : grown.length ≤ file.length + space

namespace Grows

variable {file grown last : List UInt8} {space more : Nat}

theorem trans (first : Grows file space grown) (second : Grows grown more last) :
    Grows file (space + more) last where
  kept := first.kept.trans second.kept
  length := by
    have firstLength := first.length
    have secondLength := second.length
    omega

/-- What lies in the file is still there. -/
theorem lies (grows : Grows file space grown) {data : List UInt8} {off : UInt64}
    (lies : LiesAt file off data) : LiesAt grown off data where
  behind := lies.behind
  held := lies.held.trans (grows.kept.drop off.toNat)

end Grows

theorem grows_append {file : List UInt8} {align : UInt64} (data : List UInt8)
    (small : file.length + align.toNat < 2 ^ 64) :
    Grows file (align.toNat + data.length) (append file align data).1 ∧
      (64 ≤ file.length → LiesAt (append file align data).1 (append file align data).2 data) := by
  rcases append_eq data small with ⟨gap, isSmall, off, isOff, appended⟩
  rw [appended]
  have length : (file ++ List.replicate gap (0 : UInt8)).length = off.toNat := by
    rw [List.length_append, List.length_replicate, isOff]
  refine ⟨⟨?_, ?_⟩, fun long => ⟨by dsimp only; omega, ?_⟩⟩
  · rw [List.append_assoc]
    exact List.prefix_append _ _
  · rw [List.length_append, length, isOff]
    omega
  · rw [← length, List.drop_left]

theorem take_copyPart {start : Nat} {file copied : List UInt8}
    {part : Part} (copies : copyPart arena objects start file part = some copied) :
    copied.length = file.length ∧ copied.take start = file.take start := by
  simp only [copyPart, bind, Option.bind_eq_some_iff] at copies
  rcases copies with ⟨obj, _, sec, _, written⟩
  split at written
  · rw [← Option.some.inj written]
    refine ⟨Buffer.length_overwrite _ _, ?_⟩
    have apart := @Buffer.window_overwrite_apart _ file
      ⟨start + part.offset.toNat, arena.bytes sec.data⟩ 0 start (.inl (by dsimp only; omega))
    rw [List.drop_zero, List.drop_zero] at apart
    exact apart
  · cases written

theorem take_copyParts {start : Nat} {file copied : List UInt8}
    {parts : List Part} (copies : parts.foldlM (copyPart arena objects start) file = some copied) :
    copied.length = file.length ∧ copied.take start = file.take start := by
  induction parts generalizing file with
  | nil =>
      cases copies
      exact ⟨rfl, rfl⟩
  | cons part rest induction =>
      rw [List.foldlM_cons] at copies
      rcases Option.bind_eq_some_iff.mp copies with ⟨middle, isMiddle, later⟩
      rcases take_copyPart isMiddle with ⟨length, front⟩
      rcases induction later with ⟨lastLength, lastFront⟩
      exact ⟨lastLength.trans length, lastFront.trans front⟩

theorem grows_appendSection {file : List UInt8} {out : OutSection}
    {appended : List UInt8 × UInt64} (small : file.length + (max out.shAddralign 1).toNat < 2 ^ 64)
    (succeeds : appendSection arena objects file out = some appended) :
    Grows file ((max out.shAddralign 1).toNat + out.size.toNat) appended.1 := by
  rw [appendSection] at succeeds
  split at succeeds
  · cases succeeds
    exact ⟨List.prefix_rfl, Nat.le_add_right _ _⟩
  · rcases Option.bind_eq_some_iff.mp succeeds with ⟨copied, copies, isLast⟩
    cases isLast
    rcases take_copyParts copies with ⟨length, front⟩
    rcases grows_append (List.replicate out.size.toNat 0) small with ⟨grows, _⟩
    rcases append_eq (List.replicate out.size.toNat 0) small with ⟨gap, _, off, isOff, isAppended⟩
    rw [List.length_replicate] at grows
    refine ⟨?_, length ▸ grows.length⟩
    have before : file.length ≤ (resize file off).length := by
      rw [resize_eq isOff, List.length_append]
      exact Nat.le_add_right _ _
    have kept := congrArg (List.take file.length) front
    rw [isAppended] at kept
    rw [List.take_take, List.take_take, Nat.min_eq_left before] at kept
    rw [List.prefix_iff_eq_take, kept, List.append_assoc, List.take_left]

def sectionSpace (outs : List OutSection) : Nat :=
  (outs.map fun out => (max out.shAddralign 1).toNat + out.size.toNat).sum

theorem grows_appendSections {file : List UInt8} {outs : List OutSection}
    {appended : List UInt8 × List UInt64} (small : file.length + sectionSpace outs < 2 ^ 64)
    (succeeds : appendSections arena objects file outs = some appended) :
    Grows file (sectionSpace outs) appended.1 ∧ appended.2.length = outs.length := by
  induction outs generalizing file appended with
  | nil =>
      cases succeeds
      exact ⟨⟨List.prefix_rfl, Nat.le_refl _⟩, rfl⟩
  | cons out rest induction =>
      rw [sectionSpace, List.map_cons, List.sum_cons] at small
      rw [appendSections] at succeeds
      rcases Option.bind_eq_some_iff.mp succeeds with ⟨first, isFirst, others⟩
      rcases Option.bind_eq_some_iff.mp others with ⟨later, isLater, isLast⟩
      cases isLast
      have grows := grows_appendSection (by omega) isFirst
      have length := grows.length
      rcases induction (by rw [sectionSpace]; omega) isLater with ⟨laterGrows, count⟩
      exact ⟨grows.trans laterGrows, congrArg Nat.succ count⟩

def relaSpace (relas : List (Nat × List Rela)) : Nat :=
  (relas.map fun rela => 8 + 24 * rela.2.length).sum

theorem grows_appendRelas {file : List UInt8} {relas : List (Nat × List Rela)}
    (long : 64 ≤ file.length) (small : file.length + relaSpace relas < 2 ^ 64) :
    Grows file (relaSpace relas) (appendRelas file relas).1 ∧
      List.Forall₂ (fun rela off => LiesAt (appendRelas file relas).1 off
        (Rela.format.table rela.2)) relas (appendRelas file relas).2 := by
  induction relas generalizing file with
  | nil => exact ⟨⟨List.prefix_rfl, Nat.le_refl _⟩, .nil⟩
  | cons rela rest induction =>
      rw [relaSpace, List.map_cons, List.sum_cons] at small
      have eight : (8 : UInt64).toNat = 8 := rfl
      rcases @grows_append file 8 (Rela.format.table rela.2) (by omega) with ⟨grows, held⟩
      have size : (Rela.format.table rela.2).length = 24 * rela.2.length :=
        Rela.format.length_table rela.2
      rw [size, eight] at grows
      have length := grows.length
      rcases @induction (append file 8 (Rela.format.table rela.2)).1
        (Nat.le_trans long grows.kept.length_le) (by rw [relaSpace]; omega) with
        ⟨laterGrows, others⟩
      exact ⟨grows.trans laterGrows, .cons (laterGrows.lies (held long)) others⟩

/-! ## Names -/

theorem stringAt_of_prefix {table : List UInt8} {offset : Nat} {name : Name}
    (noEnd : (0 : UInt8) ∉ name) (held : name ++ [0] <+: table.drop offset) :
    stringAt table offset = name := by
  rcases held with ⟨rest, isRest⟩
  have inName : ∀ byte ∈ name, (byte != 0) = true := by
    intro byte present
    rw [bne_iff_ne]
    intro isEnd
    exact noEnd (isEnd ▸ present)
  rw [stringAt, ← isRest, List.append_assoc, List.takeWhile_append_of_pos inName,
    List.singleton_append, List.takeWhile_cons_of_neg (by decide), List.append_nil]

namespace StrTab

/-- Every string that was interned lies at its offset. -/
structure Holds (table : StrTab) : Prop where
  front : [0] <+: table.bytes
  seen : ∀ entry ∈ table.seen, entry.1 ++ [0] <+: table.bytes.drop entry.2.toNat

theorem holds_new : new.Holds := ⟨List.prefix_rfl, fun _ present => nomatch present⟩

theorem length_internAll (table : StrTab) (names : List Name) :
    (table.internAll names).2.length = names.length := by
  induction names generalizing table with
  | nil => rfl
  | cons name rest induction => exact congrArg Nat.succ (induction _)

theorem prefix_intern (table : StrTab) (name : Name) :
    table.bytes <+: (table.intern name).1.bytes := by
  rw [intern]
  split
  · exact List.prefix_rfl
  · cases table.seen.lookup name with
    | some off => exact List.prefix_rfl
    | none =>
        dsimp only
        rw [List.append_assoc]
        exact List.prefix_append _ _

theorem holds_intern {table : StrTab} {name : Name} (holds : table.Holds)
    (small : (table.intern name).1.bytes.length < 2 ^ 32) :
    (table.intern name).1.Holds ∧
      name ++ [0] <+: (table.intern name).1.bytes.drop (table.intern name).2.toNat := by
  have grown := table.prefix_intern name
  rw [intern] at small grown ⊢
  split at small
  · rename_i isEmpty
    rw [if_pos isEmpty, List.isEmpty_iff.mp isEmpty]
    exact ⟨holds, holds.front⟩
  · rename_i nonempty
    rw [if_neg nonempty] at grown ⊢
    cases known : table.seen.lookup name with
    | some off => exact ⟨holds, holds.seen _ (Assoc.mem_of_lookup known)⟩
    | none =>
        rw [known] at small grown
        dsimp only at small grown ⊢
        have off : (UInt32.ofNat table.bytes.length).toNat = table.bytes.length := by
          rw [List.length_append, List.length_append] at small
          exact UInt32.toNat_ofNat_of_lt (show _ < 2 ^ 32 by omega)
        have held : name ++ [0] <+: (table.bytes ++ name ++ [0]).drop
            (UInt32.ofNat table.bytes.length).toNat := by
          rw [off, List.append_assoc, List.drop_left]
        refine ⟨⟨holds.front.trans grown, ?_⟩, held⟩
        intro entry present
        rcases List.mem_append.mp present with before | isNew
        · exact (holds.seen entry before).trans (grown.drop _)
        · rw [List.mem_singleton.mp isNew]
          exact held

theorem prefix_internAll (table : StrTab) (names : List Name) :
    table.bytes <+: (table.internAll names).1.bytes := by
  induction names generalizing table with
  | nil => exact List.prefix_rfl
  | cons name rest induction => exact (table.prefix_intern name).trans (induction _)

theorem internAll_held {table : StrTab} {names : List Name} (holds : table.Holds)
    (small : (table.internAll names).1.bytes.length < 2 ^ 32) :
    List.Forall₂ (fun name off => name ++ [0] <+: (table.internAll names).1.bytes.drop
      off.toNat) names (table.internAll names).2 := by
  induction names generalizing table with
  | nil => exact .nil
  | cons name rest induction =>
      have later := prefix_internAll (table.intern name).1 rest
      rcases holds_intern holds (Nat.lt_of_le_of_lt later.length_le small) with
        ⟨next, held⟩
      exact .cons (held.trans (later.drop _)) (induction next small)

end StrTab

/-! ## The contents -/

def symbolNames (objects : List InputObject) (symbols : SymbolTable) : StrTab × List UInt32 :=
  StrTab.new.internAll ((symRequests objects symbols).map SymRequest.name)

def headerNames (objects : List InputObject) (symbols : SymbolTable) : StrTab × List UInt32 :=
  StrTab.new.internAll (sectionNames objects symbols)

/-- The entries of `.symtab`, behind the null symbol. -/
def symRecords (objects : List InputObject) (symbols : SymbolTable) : List DynSym :=
  ((symbolNames objects symbols).2.zip (symRequests objects symbols)).map fun sym =>
    { nameOff := sym.1
      info := sym.2.info
      other := sym.2.other
      shndx := sym.2.shndx
      value := sym.2.value
      size := sym.2.size }

/-- The places of the file can be numbered: its bytes, its sections and its names. -/
structure FileFits (objects : List InputObject) (symbols : SymbolTable) : Prop where
  space : 64 + sectionSpace (outSections objects) + relaSpace (relaSections objects symbols) +
    (8 + 24 * ((symRequests objects symbols).length + 1)) +
    (1 + (symbolNames objects symbols).1.bytes.length) +
    (1 + (headerNames objects symbols).1.bytes.length) +
    (8 + 64 * shnum objects symbols) < 2 ^ 64
  numbers : shnum objects symbols < 2 ^ 16
  names : (symbolNames objects symbols).1.bytes.length < 2 ^ 32
  noEnd : ∀ request ∈ symRequests objects symbols, (0 : UInt8) ∉ request.name

theorem length_symRecords :
    (symRecords objects symbols).length = (symRequests objects symbols).length := by
  rw [symRecords, List.length_map, List.length_zip, symbolNames, StrTab.length_internAll,
    List.length_map, Nat.min_self]

/-- What the contents of the file are, from the front on. -/
structure Contents.Holds (objects : List InputObject) (symbols : SymbolTable)
    (contents : Contents) (merged related : List UInt64) (table strings names : UInt64) :
    Prop where
  grows : Grows (List.replicate 64 0) (sectionSpace (outSections objects) +
    relaSpace (relaSections objects symbols) +
    (8 + 24 * ((symRequests objects symbols).length + 1)) +
    (1 + (symbolNames objects symbols).1.bytes.length) +
    (1 + (headerNames objects symbols).1.bytes.length)) contents.file
  offsets : contents.offsets = merged ++ related ++ [table, strings, names]
  sizes : contents.sizes = (outSections objects).map OutSection.size ++
    (relaSections objects symbols).map
      (fun rela => UInt64.ofNat (rela.2.flatMap Rela.bytes).length) ++
    [UInt64.ofNat (DynSym.format.table ({ nameOff := 0 } :: symRecords objects symbols)).length,
      UInt64.ofNat (symbolNames objects symbols).1.bytes.length,
      UInt64.ofNat (headerNames objects symbols).1.bytes.length]
  merged : merged.length = (outSections objects).length
  related : List.Forall₂ (fun rela off => LiesAt contents.file off
    (Rela.format.table rela.2)) (relaSections objects symbols) related
  table : LiesAt contents.file table
    (DynSym.format.table ({ nameOff := 0 } :: symRecords objects symbols))
  strings : LiesAt contents.file strings (symbolNames objects symbols).1.bytes

theorem table_symRecords :
    DynSym.format.table ({ nameOff := 0 } :: symRecords objects symbols) =
      List.replicate 24 0 ++
        ((symbolNames objects symbols).2.zip (symRequests objects symbols)).flatMap
          fun sym => symBytes sym.1 sym.2 := by
  rw [RecordFormat.table_cons, symRecords, RecordFormat.table, List.flatMap_map]
  rfl

theorem holds_contents (fits : FileFits objects symbols) {made : Contents}
    (isMade : contents arena objects symbols = some made) :
    ∃ merged related table strings names,
      made.Holds objects symbols merged related table strings names := by
  have space := fits.space
  have eight : (8 : UInt64).toNat = 8 := rfl
  have one : (1 : UInt64).toNat = 1 := rfl
  have start : (List.replicate 64 (0 : UInt8)).length = 64 := List.length_replicate
  have size : (DynSym.format.table ({ nameOff := 0 } :: symRecords objects symbols)).length =
      24 * ((symRequests objects symbols).length + 1) := by
    rw [RecordFormat.length_table, List.length_cons, length_symRecords]
    rfl
  rw [contents] at isMade
  rcases Option.bind_eq_some_iff.mp isMade with ⟨first, isFirst, rest⟩
  dsimp only at rest
  rw [show StrTab.new.internAll ((symRequests objects symbols).map SymRequest.name) =
      symbolNames objects symbols from rfl,
    show StrTab.new.internAll (sectionNames objects symbols) = headerNames objects symbols
      from rfl, ← table_symRecords] at rest
  rcases grows_appendSections (by rw [start]; omega) isFirst with ⟨mergedGrows, count⟩
  have firstLength := mergedGrows.length
  rw [start] at firstLength
  have long : 64 ≤ first.1.length := by
    have kept := mergedGrows.kept.length_le
    rwa [start] at kept
  rcases @grows_appendRelas first.1 (relaSections objects symbols) long (by omega) with
    ⟨relatedGrows, related⟩
  have relatedLength := relatedGrows.length
  generalize appendRelas first.1 (relaSections objects symbols) = withRelas
    at rest relatedGrows related relatedLength
  rcases @grows_append withRelas.1 8
    (DynSym.format.table ({ nameOff := 0 } :: symRecords objects symbols)) (by omega) with
    ⟨tableGrows, table⟩
  rw [eight, size] at tableGrows
  have tableLength := tableGrows.length
  generalize append withRelas.1 8
    (DynSym.format.table ({ nameOff := 0 } :: symRecords objects symbols)) = withTable
    at rest tableGrows table tableLength
  rcases @grows_append withTable.1 1 (symbolNames objects symbols).1.bytes (by omega) with
    ⟨stringsGrows, strings⟩
  rw [one] at stringsGrows
  have stringsLength := stringsGrows.length
  generalize append withTable.1 1 (symbolNames objects symbols).1.bytes = withStrings
    at rest stringsGrows strings stringsLength
  rcases @grows_append withStrings.1 1 (headerNames objects symbols).1.bytes (by omega) with
    ⟨namesGrows, _⟩
  rw [one] at namesGrows
  cases rest
  have later := (tableGrows.trans stringsGrows).trans namesGrows
  exact ⟨first.2, withRelas.2, withTable.2, withStrings.2, _, {
    grows := (((mergedGrows.trans relatedGrows).trans tableGrows).trans stringsGrows).trans
      namesGrows
    offsets := rfl
    sizes := rfl
    merged := count
    related := related.imp fun rela off held => later.lies held
    table := (stringsGrows.trans namesGrows).lies
      (table (Nat.le_trans long relatedGrows.kept.length_le))
    strings := namesGrows.lies (strings (Nat.le_trans long
      (relatedGrows.trans tableGrows).kept.length_le)) }⟩

/-! ## The headers -/

theorem length_shdrs {made : Contents} {merged related : List UInt64}
    {table strings names : UInt64}
    (holds : made.Holds objects symbols merged related table strings names) :
    (shdrs objects symbols made).length + 1 = shnum objects symbols := by
  have relatedCount := holds.related.length_eq
  rw [shdrs, List.length_map, List.length_zip, List.length_zip, List.length_zip,
    StrTab.length_internAll, shdrTemplates, sectionNames, holds.offsets, holds.sizes, shnum]
  simp only [List.length_append, List.length_map, List.length_cons, List.length_nil,
    holds.merged, ← relatedCount]
  omega

theorem drop_overwrite_front {data : List UInt8} {file : List UInt8} {start : Nat}
    (behind : data.length ≤ start) :
    (Buffer.overwrite file ⟨0, data⟩).drop start = file.drop start := by
  have window := @Buffer.window_overwrite_apart _ file ⟨0, data⟩ start file.length
    (.inr (by dsimp only; omega))
  rwa [List.take_of_length_le, List.take_of_length_le] at window
  · rw [List.length_drop]
    exact Nat.sub_le _ _
  · rw [List.length_drop, Buffer.length_overwrite]
    exact Nat.sub_le _ _

theorem length_ehdrBytes (shoff : UInt64) (count names : UInt16) :
    (ehdrBytes shoff count names).length = 64 := by
  simp only [ehdrBytes, List.length_append, length_le16, length_le32, length_toLeBytes,
    List.length_replicate, List.length_cons, List.length_nil]

theorem drop_ehdrBytes (shoff : UInt64) (count names : UInt16) :
    (ehdrBytes shoff count names).drop 40 = toLeBytes shoff ++ (List.replicate 4 0 ++
      (le16 64 ++ (le16 0 ++ (le16 0 ++ (le16 64 ++ (le16 count ++ le16 names)))))) ∧
    (ehdrBytes shoff count names).drop 60 = le16 count ++ le16 names := by
  simp only [ehdrBytes, List.append_assoc]
  constructor
  · rfl
  · rfl

theorem exists_contents (emitted : emitRelocatable arena objects symbols = some file) :
    ∃ made, contents arena objects symbols = some made ∧ ∃ shoff : UInt64,
      shoff = alignUp (UInt64.ofNat made.file.length) 8 ∧
      file = Buffer.overwrite (resize made.file shoff ++ Shdr.null.bytes ++
          (shdrs objects symbols made).flatMap Shdr.bytes)
        ⟨0, ehdrBytes shoff (UInt16.ofNat (shnum objects symbols))
          (UInt16.ofNat (shnum objects symbols - 1))⟩ := by
  rw [emitRelocatable] at emitted
  rcases Option.bind_eq_some_iff.mp emitted with ⟨made, isMade, rest⟩
  cases rest
  exact ⟨made, isMade, _, rfl, rfl⟩

/-- The section headers are read as they are written, and what lies behind the file header is
kept. -/
theorem readHeaders_emitted (fits : FileFits objects symbols)
    (emitted : emitRelocatable arena objects symbols = some file) :
    ∃ made merged related table strings names,
      made.Holds objects symbols merged related table strings names ∧
      readHeaders file = Shdr.null :: shdrs objects symbols made ∧
      ∀ off data, LiesAt made.file off data → LiesAt file off data ∧ data.length < 2 ^ 64 := by
  rcases exists_contents emitted with ⟨made, isMade, shoff, isShoff, isFile⟩
  rcases holds_contents fits isMade with ⟨merged, related, table, strings, names, holds⟩
  refine ⟨made, merged, related, table, strings, names, holds, ?_⟩
  have space := fits.space
  have numbers := fits.numbers
  have long : 64 ≤ made.file.length := by
    have kept := holds.grows.kept.length_le
    rwa [List.length_replicate] at kept
  have short := holds.grows.length
  rw [List.length_replicate] at short
  have length : (UInt64.ofNat made.file.length).toNat = made.file.length := by
    rw [UInt64.toNat_ofNat']
    exact Nat.mod_eq_of_lt (by omega)
  have eight : (8 : UInt64).toNat = 8 := rfl
  rcases @exists_gap (UInt64.ofNat made.file.length) 8 (by omega) with ⟨gap, _, isOff⟩
  rw [← isShoff, length] at isOff
  have whole : resize made.file shoff = made.file ++ List.replicate gap 0 := resize_eq isOff
  have wholeLength : (resize made.file shoff).length = shoff.toNat := by
    rw [whole, List.length_append, List.length_replicate, isOff]
  generalize isBody : resize made.file shoff ++ Shdr.null.bytes ++
    (shdrs objects symbols made).flatMap Shdr.bytes = body at isFile
  have opened : 64 ≤ body.length := by
    rw [← isBody, List.length_append, List.length_append, wholeLength]
    omega
  have front (place len : Nat) (inHeader : place + len ≤ 64) : (file.drop place).take len =
      ((ehdrBytes shoff (UInt16.ofNat (shnum objects symbols))
        (UInt16.ofNat (shnum objects symbols - 1))).drop place).take len := by
    have window := @Buffer.window_overwrite_part _ body ⟨0, ehdrBytes shoff
      (UInt16.ofNat (shnum objects symbols)) (UInt16.ofNat (shnum objects symbols - 1))⟩
      place len (by rw [length_ehdrBytes]; exact opened) (by rw [length_ehdrBytes]; exact inHeader)
    rwa [← isFile, Nat.zero_add] at window
  have behind (start : Nat) (after : 64 ≤ start) : file.drop start = body.drop start := by
    rw [isFile]
    exact drop_overwrite_front (by rw [length_ehdrBytes]; exact after)
  constructor
  · have isShnum : halfAt file 60 = UInt16.ofNat (shnum objects symbols) := by
      rw [halfAt, front 60 2 (by decide), (drop_ehdrBytes _ _ _).2, ofNat_fromLeBytes_le16]
    have isPlace : wordOf (file.drop 40) = shoff := by
      rw [wordOf, front 40 8 (by decide), (drop_ehdrBytes _ _ _).1]
      exact wordOf_append shoff _
    have count : (UInt16.ofNat (shnum objects symbols)).toNat = shnum objects symbols := by
      rw [UInt16.toNat_ofNat']
      exact Nat.mod_eq_of_lt numbers
    have tables : file.drop shoff.toNat =
        Shdr.format.table (Shdr.null :: shdrs objects symbols made) := by
      rw [behind _ (by omega), ← isBody, List.append_assoc, ← wholeLength, List.drop_left]
      rfl
    rw [readHeaders, isShnum, isPlace, count, tables, RecordFormat.readUpTo_table]
    rw [List.length_cons, length_shdrs holds]
  · intro off data lies
    refine ⟨⟨lies.behind, ?_⟩, ?_⟩
    · rw [behind _ lies.behind, ← isBody, whole, List.append_assoc, List.append_assoc]
      exact lies.held.trans ((List.prefix_append _ _).drop _)
    · have inside := lies.length_le
      omega

/-! ## The sections -/

/-- Sections that are built anew are none of the merged ones. -/
theorem not_isRegenerated {out : OutSection} (present : out ∈ outSections objects) :
    isRegenerated out.shType = false := by
  rcases (merging.mem_gather (members objects) out).mp present with ⟨first, rest, ofName, built⟩
  have kept (places : List Icf.Place) (start : OutSection) :
      (places.foldl OutSection.add start).shType = start.shType := by
    induction places generalizing start with
    | nil => rfl
    | cons place rest induction => exact induction _
  have isType : out.shType = first.sec.shType := by
    rw [built]
    exact kept _ _
  have isFirst : first ∈ members objects := by
    apply List.mem_of_mem_filter
    rw [ofName]
    exact List.mem_cons_self
  have isMember := (List.mem_filter.mp isFirst).2
  rw [isMerged, Bool.not_eq_true', Bool.or_eq_false_iff] at isMember
  rw [isType]
  exact isMember.1

def headed (header : Shdr × UInt32 × UInt64 × UInt64) : Shdr :=
  { header.1 with
    name := header.2.1
    offset := header.2.2.1
    size := header.2.2.2 }

/-- The header of a relocation section says what it is for and where its entries are. -/
structure Leads (objects : List InputObject) (symbols : SymbolTable) (made : Contents)
    (rela : Nat × List Rela) (header : Shdr) : Prop where
  shType : header.shType = shtRela
  info : header.info = UInt32.ofNat (rela.1 + 1)
  link : header.link = UInt32.ofNat
    (1 + (outSections objects).length + (relaSections objects symbols).length)
  size : header.size = UInt64.ofNat (rela.2.flatMap Rela.bytes).length
  lies : LiesAt made.file header.offset (Rela.format.table rela.2)

theorem leads_zip {made : Contents} {relas : List (Nat × List Rela)} {related : List UInt64}
    {names : List UInt32} (count : names.length = relas.length)
    (held : List.Forall₂ (fun rela off => LiesAt made.file off (Rela.format.table rela.2))
      relas related) :
    List.Forall₂ (Leads objects symbols made) relas
      (((relas.map fun rela =>
        { Shdr.null with
          shType := shtRela
          link := UInt32.ofNat
            (1 + (outSections objects).length + (relaSections objects symbols).length)
          info := UInt32.ofNat (rela.1 + 1)
          align := 8
          entsize := relaSize }).zip (names.zip (related.zip (relas.map fun rela =>
            UInt64.ofNat (rela.2.flatMap Rela.bytes).length)))).map headed) := by
  induction held generalizing names with
  | nil => exact .nil
  | cons isHeld others induction =>
      cases names with
      | nil => cases count
      | cons name names =>
          exact .cons ⟨rfl, rfl, rfl, rfl, isHeld⟩ (induction (Nat.succ.inj count))

theorem exists_parts {Item : Type} {items : List Item} {first second : Nat}
    (count : items.length = first + second + 3) :
    ∃ front middle one two three, items = front ++ middle ++ [one, two, three] ∧
      front.length = first ∧ middle.length = second := by
  have tail : (items.drop (first + second)).length = 3 := by
    rw [List.length_drop]
    omega
  rcases List.length_eq_three.mp tail with ⟨one, two, three, isTail⟩
  refine ⟨items.take first, (items.drop first).take second, one, two, three, ?_, ?_, ?_⟩
  · rw [← isTail, ← List.drop_drop, List.append_assoc, List.take_append_drop,
      List.take_append_drop]
  · rw [List.length_take]
    omega
  · rw [List.length_take, List.length_drop]
    omega

/-- The headers in three parts: merged sections, relocation sections, and tables. -/
structure HeaderParts (objects : List InputObject) (symbols : SymbolTable) (made : Contents)
    (table strings : UInt64) (front middle : List Shdr) (symtab strtab shstrtab : Shdr) :
    Prop where
  parts : shdrs objects symbols made = front ++ middle ++ [symtab, strtab, shstrtab]
  count : front.length = (outSections objects).length
  merged : ∀ header ∈ front, isRegenerated header.shType = false
  related : List.Forall₂ (Leads objects symbols made) (relaSections objects symbols) middle
  isSymtab : symtab.shType = shtSymtab
  offset : symtab.offset = table
  size : symtab.size = UInt64.ofNat
    (DynSym.format.table ({ nameOff := 0 } :: symRecords objects symbols)).length
  link : symtab.link = UInt32.ofNat
    (1 + (outSections objects).length + (relaSections objects symbols).length + 1)
  isStrtab : strtab.shType = shtStrtab
  strings : strtab.offset = strings
  length : strtab.size = UInt64.ofNat (symbolNames objects symbols).1.bytes.length
  isNames : shstrtab.shType = shtStrtab

theorem exists_headerParts {made : Contents} {merged related : List UInt64}
    {table strings names : UInt64}
    (holds : made.Holds objects symbols merged related table strings names) :
    ∃ front middle symtab strtab shstrtab,
      HeaderParts objects symbols made table strings front middle symtab strtab shstrtab := by
  have relatedCount := holds.related.length_eq
  have count : (headerNames objects symbols).2.length = (outSections objects).length +
      (relaSections objects symbols).length + 3 := by
    rw [headerNames, StrTab.length_internAll, sectionNames, List.length_append,
      List.length_append, List.length_map, List.length_map]
    rfl
  rcases exists_parts count with ⟨first, second, one, two, three, split, isFirst, isSecond⟩
  refine ⟨(((outSections objects).map fun out =>
      { Shdr.null with
        shType := out.shType
        flags := out.shFlags
        align := out.shAddralign
        entsize := sectionEntsize out.shType }).zip
          (first.zip (merged.zip ((outSections objects).map OutSection.size)))).map headed, _,
    headed ({ Shdr.null with
        shType := shtSymtab
        link := UInt32.ofNat
          (1 + (outSections objects).length + (relaSections objects symbols).length + 1)
        info := firstGlobal objects
        align := 8
        entsize := symSize }, one, table, UInt64.ofNat (DynSym.format.table
          ({ nameOff := 0 } :: symRecords objects symbols)).length),
    headed ({ Shdr.null with shType := shtStrtab, align := 1 }, two, strings,
      UInt64.ofNat (symbolNames objects symbols).1.bytes.length),
    headed ({ Shdr.null with shType := shtStrtab, align := 1 }, three, names,
      UInt64.ofNat (headerNames objects symbols).1.bytes.length),
    { parts := ?_
      count := ?_
      merged := ?_
      related := leads_zip isSecond holds.related
      isSymtab := rfl
      offset := rfl
      size := rfl
      link := rfl
      isStrtab := rfl
      strings := rfl
      length := rfl
      isNames := rfl }⟩
  · have zipped : shdrs objects symbols made = ((shdrTemplates objects symbols).zip
        ((headerNames objects symbols).2.zip (made.offsets.zip made.sizes))).map headed := rfl
    rw [zipped, split, holds.offsets, holds.sizes, shdrTemplates,
      List.zip_append, List.zip_append, List.zip_append, List.zip_append, List.zip_append,
      List.zip_append, List.map_append, List.map_append]
    · rfl
    all_goals
      simp only [List.length_append, List.length_map, List.length_zip, holds.merged,
        ← relatedCount, isFirst, isSecond, Nat.min_self]
  · simp only [List.length_map, List.length_zip, holds.merged, isFirst, Nat.min_self]
  · intro header present
    rcases List.mem_map.mp present with ⟨parts, isParts, rfl⟩
    rcases List.mem_map.mp (List.of_mem_zip isParts).1 with ⟨out, isOut, isTemplate⟩
    have isType : (headed parts).shType = out.shType := by
      rw [headed, ← isTemplate]
    rw [isType]
    exact not_isRegenerated isOut

/-! ## What is read -/

theorem sectionOf_eq {file data : List UInt8} {header : Shdr}
    (lies : LiesAt file header.offset data) (isSize : header.size = UInt64.ofNat data.length)
    (small : data.length < 2 ^ 64) : sectionOf file header = data := by
  have size : header.size.toNat = data.length := by
    rw [isSize, UInt64.toNat_ofNat']
    exact Nat.mod_eq_of_lt small
  rw [sectionOf, size, lies.eq_take]

theorem readRela_of_other {header : Shdr} (other : header.shType ≠ shtRela) :
    readRela file header = none := if_neg other

theorem readRela_of_leads {made : Contents} {rela : Nat × List Rela} {header : Shdr}
    (leads : Leads objects symbols made rela header) (numbered : rela.1 + 1 < 2 ^ 32)
    (kept : ∀ off data, LiesAt made.file off data → LiesAt file off data ∧ data.length < 2 ^ 64) :
    readRela file header = some (rela.1 + 1, rela.2) := by
  rcases kept _ _ leads.lies with ⟨lies, small⟩
  have number : (UInt32.ofNat (rela.1 + 1)).toNat = rela.1 + 1 :=
    UInt32.toNat_ofNat_of_lt numbered
  rw [readRela, if_pos leads.shType, leads.info, number, sectionOf_eq lies leads.size small,
    RecordFormat.readAll_table]

theorem filterMap_readRela {made : Contents} {relas : List (Nat × List Rela)}
    {headers : List Shdr} (leads : List.Forall₂ (Leads objects symbols made) relas headers)
    (numbered : ∀ rela ∈ relas, rela.1 + 1 < 2 ^ 32)
    (kept : ∀ off data, LiesAt made.file off data → LiesAt file off data ∧ data.length < 2 ^ 64) :
    headers.filterMap (readRela file) = relas.map fun rela => (rela.1 + 1, rela.2) := by
  induction leads with
  | nil => rfl
  | cons isLed others induction =>
      rw [List.filterMap_cons_some
        (readRela_of_leads isLed (numbered _ List.mem_cons_self) kept),
        induction fun rela present => numbered rela (List.mem_cons_of_mem _ present)]
      rfl

theorem number_of_relaSection {rela : Nat × List Rela}
    (present : rela ∈ relaSections objects symbols) : rela.1 < (outSections objects).length := by
  rw [relaSections] at present
  rcases List.mem_filterMap.mp present with ⟨out, isOut, isRela⟩
  have inside := List.snd_lt_of_mem_zipIdx isOut
  dsimp only at isRela
  split at isRela
  · cases isRela
  · cases isRela
    exact inside

/-- The relocations of each merged section are read as they were collected. -/
theorem readRelas_emitted (fits : FileFits objects symbols)
    (emitted : emitRelocatable arena objects symbols = some file) :
    readRelas file = (relaSections objects symbols).map fun rela => (rela.1 + 1, rela.2) := by
  rcases readHeaders_emitted fits emitted with
    ⟨made, merged, related, table, strings, names, holds, headers, kept⟩
  rcases exists_headerParts holds with ⟨front, middle, symtab, strtab, shstrtab, headed⟩
  have noFront : front.filterMap (readRela file) = [] := by
    apply List.filterMap_eq_nil_iff.mpr
    intro header present
    apply readRela_of_other
    intro isRela
    have anew := headed.merged header present
    rw [isRela] at anew
    cases anew
  have noTables : [symtab, strtab, shstrtab].filterMap (readRela file) = [] := by
    apply List.filterMap_eq_nil_iff.mpr
    intro header present
    apply readRela_of_other
    simp only [List.mem_cons, List.not_mem_nil, or_false] at present
    rcases present with rfl | rfl | rfl
    · rw [headed.isSymtab]
      decide
    · rw [headed.isStrtab]
      decide
    · rw [headed.isNames]
      decide
  have numbered : ∀ rela ∈ relaSections objects symbols, rela.1 + 1 < 2 ^ 32 := by
    intro rela present
    have inside := number_of_relaSection present
    have numbers := fits.numbers
    rw [shnum] at numbers
    omega
  rw [readRelas, headers, headed.parts, List.filterMap_cons_none (readRela_of_other (by decide)),
    List.filterMap_append, List.filterMap_append, noFront, noTables, List.nil_append,
    List.append_nil, filterMap_readRela headed.related numbered kept]

theorem map_named {strings : List UInt8} {requests : List SymRequest} {offs : List UInt32}
    (held : List.Forall₂ (fun name off => name ++ [0] <+: strings.drop off.toNat)
      (requests.map SymRequest.name) offs)
    (noEnd : ∀ request ∈ requests, (0 : UInt8) ∉ request.name) :
    ((offs.zip requests).map fun sym =>
      ReadSymbol.named strings
        { nameOff := sym.1
          info := sym.2.info
          other := sym.2.other
          shndx := sym.2.shndx
          value := sym.2.value
          size := sym.2.size }) = requests.map SymRequest.read := by
  induction requests generalizing offs with
  | nil => rw [List.zip_nil_right]; rfl
  | cons request rest induction =>
      rw [List.map_cons] at held
      cases held with
      | cons isHeld others =>
          have later := induction others fun other present =>
            noEnd other (List.mem_cons_of_mem _ present)
          rw [List.zip_cons_cons, List.map_cons, List.map_cons, later, ReadSymbol.named,
            stringAt_of_prefix (noEnd request List.mem_cons_self) isHeld]
          rfl

theorem find?_symtab {made : Contents} {table strings : UInt64} {front middle : List Shdr}
    {symtab strtab shstrtab : Shdr} (headed : HeaderParts objects symbols made table strings
      front middle symtab strtab shstrtab) :
    (Shdr.null :: shdrs objects symbols made).find? (fun header => header.shType == shtSymtab) =
      some symtab := by
  have noFront : front.find? (fun header => header.shType == shtSymtab) = none := by
    apply List.find?_eq_none.mpr
    intro header present isSymtab
    have anew := headed.merged header present
    rw [beq_iff_eq.mp isSymtab] at anew
    cases anew
  have noMiddle : middle.find? (fun header => header.shType == shtSymtab) = none := by
    apply List.find?_eq_none.mpr
    intro header present isSymtab
    rcases Pairwise.exists_left headed.related present with ⟨rela, _, leads⟩
    rw [leads.shType] at isSymtab
    exact absurd isSymtab (by decide)
  have isFound : [symtab, strtab, shstrtab].find? (fun header => header.shType == shtSymtab) =
      some symtab := List.find?_cons_of_pos (beq_iff_eq.mpr headed.isSymtab)
  rw [headed.parts, List.find?_cons_of_neg (by decide), List.find?_append, List.find?_append,
    noFront, noMiddle, isFound]
  rfl

/-- The symbols are read as they were asked for, behind the null symbol. -/
theorem readSymbols_emitted (fits : FileFits objects symbols)
    (emitted : emitRelocatable arena objects symbols = some file) :
    readSymbols file =
      ⟨[], 0, 0, 0, 0, 0⟩ :: (symRequests objects symbols).map SymRequest.read := by
  rcases readHeaders_emitted fits emitted with
    ⟨made, merged, related, table, strings, names, holds, headers, kept⟩
  rcases exists_headerParts holds with ⟨front, middle, symtab, strtab, shstrtab, headed⟩
  have numbers := fits.numbers
  rw [shnum] at numbers
  have link : symtab.link.toNat =
      1 + (outSections objects).length + (relaSections objects symbols).length + 1 := by
    rw [headed.link]
    exact UInt32.toNat_ofNat_of_lt (show _ < 2 ^ 32 by omega)
  have isStrings : (Shdr.null :: shdrs objects symbols made)[symtab.link.toNat]? =
      some strtab := by
    have length : (front ++ middle).length + 1 = (outSections objects).length +
        (relaSections objects symbols).length + 1 := by
      rw [List.length_append, headed.count, ← headed.related.length_eq]
    rw [link, List.getElem?_cons_succ, headed.parts,
      List.getElem?_append_right (by omega), show 1 + (outSections objects).length +
        (relaSections objects symbols).length - (front ++ middle).length = 1 by omega]
    rfl
  have tableLies := kept _ _ holds.table
  have stringsLie := kept _ _ holds.strings
  rw [← headed.offset] at tableLies
  rw [← headed.strings] at stringsLie
  have held := StrTab.internAll_held StrTab.holds_new fits.names
  have nullName : stringAt (symbolNames objects symbols).1.bytes 0 = [] :=
    stringAt_of_prefix List.not_mem_nil (StrTab.prefix_internAll StrTab.new _)
  simp only [readSymbols, headers, find?_symtab headed, isStrings, Option.map_some,
    Option.getD_some]
  rw [sectionOf_eq tableLies.1 headed.size tableLies.2,
    sectionOf_eq stringsLie.1 headed.length stringsLie.2, RecordFormat.readAll_table,
    List.map_cons, symRecords, List.map_map]
  congr 1
  · rw [ReadSymbol.named]
    exact congrArg (fun name => ReadSymbol.mk name 0 0 0 0 0) nullName
  · exact map_named held fits.noEnd

/-! ## What a reader finds -/

/-- A reader of the file finds the relocations of each merged section that has any, once, and
the symbols under their numbers. -/
structure ReadsBack (objects : List InputObject) (symbols : SymbolTable) (file : List UInt8) :
    Prop where
  relocs : ∀ name ∈ mergedNames objects, relocSources objects name ≠ [] →
    ∃ relas, (sectionNumber objects name, relas) ∈ readRelas file ∧
      List.Forall₂ (Carries objects symbols) (relocSources objects name) relas
  once : ((readRelas file).map Prod.fst).Nodup
  only : ∀ read ∈ readRelas file, ∃ name ∈ mergedNames objects,
    relocSources objects name ≠ [] ∧ read.1 = sectionNumber objects name
  symbols : ∀ number entry, symEntry objects symbols number = some entry →
    (readSymbols file)[number.toNat]? = some entry.read

theorem mem_relaSections {index : Nat} {relas : List Rela} :
    (index, relas) ∈ relaSections objects symbols ↔ ∃ out, (outSections objects)[index]? = some out ∧
      relasOf objects symbols out = relas ∧ relas ≠ [] := by
  rw [relaSections, List.mem_filterMap]
  constructor
  · intro found
    rcases found with ⟨⟨out, place⟩, isOut, isRela⟩
    dsimp only at isRela
    split at isRela
    · cases isRela
    · rename_i nonempty
      cases isRela
      refine ⟨out, List.mk_mem_zipIdx_iff_getElem?.mp isOut, rfl, fun isNil => ?_⟩
      exact nonempty (List.isEmpty_iff.mpr isNil)
  · intro found
    rcases found with ⟨out, isOut, rfl, nonempty⟩
    refine ⟨(out, index), List.mk_mem_zipIdx_iff_getElem?.mpr isOut, ?_⟩
    exact if_neg fun isEmpty => nonempty (List.isEmpty_iff.mp isEmpty)

theorem nodup_relaSections :
    ((relaSections objects symbols).map fun rela => rela.1 + 1).Nodup := by
  have increase : (outSections objects).zipIdx.Pairwise fun first second =>
      first.2 < second.2 := by
    apply List.pairwise_map.mp
    rw [List.zipIdx_map_snd]
    exact List.pairwise_lt_range'
  apply List.pairwise_map.mpr
  rw [relaSections]
  apply List.pairwise_filterMap.mpr
  apply increase.imp
  intro first second before one isOne two isTwo
  dsimp only at isOne isTwo
  split at isOne
  · cases isOne
  split at isTwo
  · cases isTwo
  cases isOne
  cases isTwo
  dsimp only
  omega

theorem relasOf_eq_nil_iff {out : OutSection} (isOut : out ∈ outSections objects) :
    relasOf objects symbols out = [] ↔ relocSources objects out.name = [] := by
  rw [relasOf_eq isOut, relocSources_eq, List.map_eq_nil_iff, List.map_eq_nil_iff]

/-- The file of a relocatable link whose inputs can be encoded, read by what its headers say,
has every relocation and every symbol. -/
theorem readsBack_emitted (parsed : ∀ obj ∈ objects, obj.Parsed)
    (encodes : Encodes objects symbols) (fits : FileFits objects symbols)
    (emitted : emitRelocatable arena objects symbols = some file) :
    ReadsBack objects symbols file where
  relocs name isName nonempty := by
    rcases getElem?_outSections isName with ⟨out, isOut, rfl⟩
    have present := List.mem_of_getElem? isOut
    refine ⟨relasOf objects symbols out, ?_, (encodes.preserves parsed).relocs out present⟩
    rw [readRelas_emitted fits emitted, sectionNumber]
    apply List.mem_map.mpr
    refine ⟨(_, relasOf objects symbols out), mem_relaSections.mpr ⟨out, isOut, rfl, ?_⟩, rfl⟩
    exact fun isNil => nonempty ((relasOf_eq_nil_iff present).mp isNil)
  once := by
    rw [readRelas_emitted fits emitted, List.map_map]
    exact nodup_relaSections
  only read present := by
    rw [readRelas_emitted fits emitted] at present
    rcases List.mem_map.mp present with ⟨⟨index, relas⟩, isRela, rfl⟩
    rcases mem_relaSections.mp isRela with ⟨out, isOut, rfl, nonempty⟩
    have isSection := List.mem_of_getElem? isOut
    refine ⟨out.name, ?_, fun isNil => nonempty ((relasOf_eq_nil_iff isSection).mpr isNil), ?_⟩
    · rw [← map_name_outSections]
      exact List.mem_map_of_mem isSection
    · rw [sectionNumber, name_of_getElem? isOut]
  symbols number entry isEntry := by
    rw [symEntry] at isEntry
    split at isEntry
    · cases isEntry
    · rename_i notNull
      have positive : 0 < number.toNat := by
        apply Nat.pos_of_ne_zero
        intro isZero
        exact notNull (UInt32.toNat_inj.mp isZero)
      rw [readSymbols_emitted fits emitted, ← Nat.sub_add_cancel positive,
        List.getElem?_cons_succ, List.getElem?_map, isEntry]
      rfl

theorem readsBack_callObject :
    ∃ file, emitRelocatable ⟨[], []⟩ [callObject] SymbolTable.new = some file ∧
      ReadsBack [callObject] SymbolTable.new file := by
  have succeeds : (emitRelocatable ⟨[], []⟩ [callObject] SymbolTable.new).isSome = true := by
    decide +kernel
  rcases Option.isSome_iff_exists.mp succeeds with ⟨file, emitted⟩
  refine ⟨file, emitted, readsBack_emitted (fun _ present =>
    List.mem_singleton.mp present ▸ callObject_parsed) callObject_encodes ?_ emitted⟩
  constructor
  · decide +kernel
  · decide +kernel
  · decide +kernel
  · decide +kernel

end Relocatable

end Peony
