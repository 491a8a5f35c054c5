import Mathlib.Data.Nat.Bitwise
import Peony.Foundation.Chains
import Peony.Layout.StringTable

namespace Peony

/-! The SysV hash table as an index of `.dynsym`: what the lookup of a dynamic linker finds
in the tables of an output. -/

/-! ## The hash -/

/-- One step of the standard's hash: shift a byte in, and fold the four bits at the top back
to the bits 4 to 7. -/
def hashStep (hash : Nat) (byte : UInt8) : Nat :=
  let shifted := (16 * hash + byte.toNat) % 2 ^ 32
  (shifted % 2 ^ 28) ^^^ (shifted / 2 ^ 28 * 2 ^ 4)

def standardHash (name : Name) : Nat := name.foldl hashStep 0

theorem getLsbD_topMask (place : Nat) :
    (0xf0000000#32).getLsbD place = decide (28 ≤ place ∧ place < 32) := by
  by_cases inWord : place < 32
  · have each : ∀ place : Fin 32, (0xf0000000#32).getLsbD place.val =
        decide (28 ≤ place.val ∧ place.val < 32) := by decide
    exact each ⟨place, inWord⟩
  · rw [BitVec.getLsbD_of_ge _ _ (Nat.le_of_not_lt inWord)]
    simp [inWord]

theorem toNat_foldTop (word : UInt32) :
    ((word ^^^ ((word &&& 0xf0000000) >>> 24)) &&& ~~~ (word &&& 0xf0000000)).toNat =
      (word.toNat % 2 ^ 28) ^^^ (word.toNat / 2 ^ 28 * 2 ^ 4) := by
  have bits : ((word ^^^ ((word &&& 0xf0000000) >>> 24)) &&&
      ~~~ (word &&& 0xf0000000)).toBitVec =
      (word.toBitVec ^^^ ((word.toBitVec &&& 0xf0000000#32) >>> 24)) &&&
        ~~~ (word.toBitVec &&& 0xf0000000#32) := rfl
  apply Nat.eq_of_testBit_eq
  intro place
  rw [← UInt32.toNat_toBitVec, BitVec.testBit_toNat, Nat.testBit_xor,
    Nat.testBit_mod_two_pow, Nat.testBit_mul_two_pow, Nat.testBit_div_two_pow,
    ← UInt32.toNat_toBitVec, BitVec.testBit_toNat, BitVec.testBit_toNat, bits]
  simp only [BitVec.getLsbD_and, BitVec.getLsbD_xor, BitVec.getLsbD_not,
    BitVec.getLsbD_ushiftRight]
  rw [getLsbD_topMask, getLsbD_topMask]
  by_cases low : place < 28
  · have notTop : ¬ 28 ≤ place := by omega
    have inWord : place < 32 := by omega
    by_cases shifted : 4 ≤ place
    · have same : place - 4 + 28 = 24 + place := by omega
      have isTop : 28 ≤ 24 + place := by omega
      rw [same]
      by_cases inside : 24 + place < 32
      · simp [notTop, inWord, isTop, inside, shifted, low]
      · have none := BitVec.getLsbD_of_ge word.toBitVec _ (Nat.le_of_not_lt inside)
        simp [notTop, inWord, none, shifted, low]
    · have notTopToo : ¬ 28 ≤ 24 + place := by omega
      simp [notTop, inWord, notTopToo, shifted, low]
  · have behind := BitVec.getLsbD_of_ge word.toBitVec (place - 4 + 28) (by omega)
    have farther := BitVec.getLsbD_of_ge word.toBitVec (24 + place) (by omega)
    rw [behind, farther]
    by_cases inWord : place < 32
    · simp [low, inWord, Nat.le_of_not_lt low]
    · have none := BitVec.getLsbD_of_ge word.toBitVec _ (Nat.le_of_not_lt inWord)
      simp [low, none]

theorem toNat_elfSysvHash (name : Name) : (elfSysvHash name).toNat = standardHash name := by
  have step (hash : UInt32) (byte : UInt8) :
      ((if (hash <<< 4) + byte.toUInt32 &&& 0xf0000000 != 0 then
          ((hash <<< 4) + byte.toUInt32) ^^^
            (((hash <<< 4) + byte.toUInt32 &&& 0xf0000000) >>> 24)
        else (hash <<< 4) + byte.toUInt32) &&&
          ~~~ ((hash <<< 4) + byte.toUInt32 &&& 0xf0000000)).toNat =
        hashStep hash.toNat byte := by
    have shifted : ((hash <<< 4) + byte.toUInt32).toNat =
        (16 * hash.toNat + byte.toNat) % 2 ^ 32 := by
      rw [UInt32.toNat_add, UInt32.toNat_shiftLeft, UInt8.toNat_toUInt32]
      change (hash.toNat <<< 4 % 2 ^ 32 + byte.toNat) % 2 ^ 32 = _
      rw [Nat.shiftLeft_eq]
      omega
    rw [hashStep, ← shifted, ← toNat_foldTop]
    generalize (hash <<< 4) + byte.toUInt32 = word
    split
    · rfl
    · rename_i isZero
      have none : word &&& 0xf0000000 = 0 := by simpa using isZero
      rw [none]
      simp
  have fold (bytes : List UInt8) (hash : UInt32) :
      (bytes.foldl (fun (h : UInt32) byte =>
        let h := (h <<< 4) + byte.toUInt32
        let g := h &&& 0xf0000000
        (if g != 0 then h ^^^ (g >>> 24) else h) &&& ~~~ g) hash).toNat =
        bytes.foldl hashStep hash.toNat := by
    induction bytes generalizing hash with
    | nil => rfl
    | cons byte rest induction =>
        rw [List.foldl_cons, List.foldl_cons, induction]
        congr 1
        exact step hash byte
  exact fold name 0

/-! ## The lookup -/

def hashWord (hash : List UInt8) (place : Nat) : Option Nat :=
  (wordFormat.readAt hash place).map UInt32.toNat

def dynsymName (blobs : DynBlobs) (index : Nat) : Option Name :=
  (DynSym.format.readAt blobs.dynsym index).map fun sym =>
    stringAt blobs.dynstr sym.nameOff.toNat

/-- The lookup of a dynamic linker: the head of the bucket of the name, and from there along
the chain up to an entry of the name. It fails when it reads beyond the table, finds no
bucket, or is not at the end after as many steps as the fuel. -/
def sysvLookup (fuel : Nat) (blobs : DynBlobs) (name : Name) : Option (Option Nat) :=
  (hashWord blobs.hash 0).bind fun nbucket =>
    if nbucket = 0 then none
    else
      (hashWord blobs.hash (2 + standardHash name % nbucket)).bind
        (Chains.search (fun index => hashWord blobs.hash (2 + nbucket + index))
          (fun index => dynsymName blobs index == some name) fuel)

/-- The table finds each of the symbols, given by index and name, and nothing else. -/
structure HashIndexes (blobs : DynBlobs) (hashed : List (Nat × Name)) : Prop where
  finds : ∀ entry ∈ hashed, ∀ fuel, hashed.length < fuel →
    sysvLookup fuel blobs entry.2 = some (some entry.1)
  misses : ∀ name, (∀ entry ∈ hashed, entry.2 ≠ name) → ∀ fuel, hashed.length < fuel →
    sysvLookup fuel blobs name = some none

/-! ## What a lookup that succeeds shows -/

theorem hashWord_lt {hash : List UInt8} {place word : Nat}
    (isWord : hashWord hash place = some word) : word < 2 ^ 32 := by
  rcases Option.map_eq_some_iff.mp isWord with ⟨read, _, rfl⟩
  exact read.toNat_lt

theorem found_of_sysvLookup {fuel : Nat} {blobs : DynBlobs} {name : Name} {index : Nat}
    (found : sysvLookup fuel blobs name = some (some index)) :
    index < 2 ^ 32 ∧ dynsymName blobs index = some name := by
  rcases Option.bind_eq_some_iff.mp found with ⟨nbucket, _, inBucket⟩
  split at inBucket
  · exact nomatch inBucket
  · rcases Option.bind_eq_some_iff.mp inBucket with ⟨start, isStart, searched⟩
    exact ⟨Chains.search_invariant (fun index => index < 2 ^ 32)
      (fun _ _ _ link => hashWord_lt link) (hashWord_lt isStart) searched,
      beq_iff_eq.mp (Chains.wanted_of_search searched)⟩

/-! ## The table as it is built -/

theorem hashWord_table {words : List UInt32} {place : Nat} :
    hashWord (wordFormat.table words) place = words[place]?.map UInt32.toNat := by
  rw [hashWord]
  by_cases inRange : place < words.length
  · have read := @RecordFormat.readAt_table _ _ wordFormat words [] place inRange
    rw [List.append_nil] at read
    rw [read, List.getElem?_eq_getElem inRange]
  · rw [wordFormat.readAt_table_none (Nat.le_of_not_lt inRange),
      List.getElem?_eq_none (Nat.le_of_not_lt inRange)]

/-- The heads and the successors by the numbers that they stand for. -/
def chainTable (tables : List UInt32 × List UInt32) : Chains.Table where
  heads := tables.1.map UInt32.toNat
  links := tables.2.map UInt32.toNat

/-- The bucket and the index of a symbol. -/
def chainEntry (nbucket : UInt32) (hashed : UInt32 × Name) : Nat × Nat :=
  (standardHash hashed.2 % nbucket.toNat, hashed.1.toNat)

theorem chainTable_linkHashed (nbucket : UInt32) (tables : List UInt32 × List UInt32)
    (hashed : UInt32 × Name) :
    chainTable (linkHashed nbucket tables hashed) =
      (chainTable tables).insert (chainEntry nbucket hashed) := by
  have bucket : (elfSysvHash hashed.2 % nbucket).toNat =
      standardHash hashed.2 % nbucket.toNat := by
    rw [UInt32.toNat_mod, toNat_elfSysvHash]
  rw [linkHashed, chainTable, Chains.Table.insert, chainEntry, bucket]
  simp only [List.map_set, chainTable, List.getD_eq_getElem?_getD, List.getElem?_map]
  cases tables.1[standardHash hashed.2 % nbucket.toNat]? with
  | none => rfl
  | some head => rfl

theorem chainTable_foldl (nbucket : UInt32) (hashed : List (UInt32 × Name))
    (tables : List UInt32 × List UInt32) :
    chainTable (hashed.foldl (linkHashed nbucket) tables) =
      (hashed.map (chainEntry nbucket)).foldl Chains.Table.insert (chainTable tables) := by
  induction hashed generalizing tables with
  | nil => rfl
  | cons first rest induction =>
      rw [List.foldl_cons, induction, chainTable_linkHashed, List.map_cons, List.foldl_cons]

theorem chainTable_empty (buckets indices : Nat) :
    chainTable (List.replicate buckets 0, List.replicate indices 0) =
      Chains.Table.empty buckets indices := by
  rw [chainTable, Chains.Table.empty, List.map_replicate, List.map_replicate]
  rfl

def bucketCount (hashed : List (UInt32 × Name)) : UInt32 :=
  UInt32.ofNat (max hashed.length 1)

theorem sysvHash_eq (hashed : List (UInt32 × Name)) (total : Nat) :
    ∃ tables : List UInt32 × List UInt32,
      sysvHash hashed total = wordFormat.table
        (bucketCount hashed :: UInt32.ofNat total :: (tables.1 ++ tables.2)) ∧
      chainTable tables =
        (hashed.map (chainEntry (bucketCount hashed))).foldl Chains.Table.insert
          (Chains.Table.empty (bucketCount hashed).toNat total) := by
  refine ⟨hashed.foldl (linkHashed (bucketCount hashed))
    (List.replicate (bucketCount hashed).toNat 0, List.replicate total 0), ?_, ?_⟩
  · rw [RecordFormat.table_cons, RecordFormat.table_cons, RecordFormat.table_append,
      ← List.append_assoc, ← List.append_assoc]
    rfl
  · rw [chainTable_foldl, chainTable_empty]

theorem toNat_bucketCount {hashed : List (UInt32 × Name)} (few : hashed.length < 2 ^ 32) :
    (bucketCount hashed).toNat = max hashed.length 1 := by
  rw [bucketCount, UInt32.toNat_ofNat']
  exact Nat.mod_eq_of_lt (by omega)

theorem sysvLookup_eq {blobs : DynBlobs} {hashed : List (UInt32 × Name)} {total : Nat}
    (isHash : blobs.hash = sysvHash hashed total)
    (few : hashed.length < 2 ^ 32)
    (inRange : ∀ entry ∈ hashed, entry.1.toNat ≠ 0 ∧ entry.1.toNat < total)
    (distinct : (hashed.map fun entry => entry.1.toNat).Nodup) (name : Name) {fuel : Nat}
    (enough : hashed.length < fuel) :
    sysvLookup fuel blobs name =
      some ((Chains.Table.members (hashed.map (chainEntry (bucketCount hashed)))
        (standardHash name % (bucketCount hashed).toNat)).find?
          fun index => dynsymName blobs index == some name) := by
  rcases sysvHash_eq hashed total with ⟨tables, isTable, chains⟩
  have positive : 0 < (bucketCount hashed).toNat := by
    rw [toNat_bucketCount few]
    exact Nat.lt_of_lt_of_le Nat.one_pos (Nat.le_max_right _ _)
  have inBuckets (other : Name) :
      standardHash other % (bucketCount hashed).toNat < (bucketCount hashed).toNat :=
    Nat.mod_lt _ positive
  have holds : (chainTable tables).Holds (bucketCount hashed).toNat total
      (hashed.map (chainEntry (bucketCount hashed))) := by
    rw [chains]
    refine Chains.Table.holds_foldl ?_ ?_
    · intro entry present
      rcases List.mem_map.mp present with ⟨own, isHashed, rfl⟩
      exact ⟨inBuckets _, inRange own isHashed⟩
    · rw [List.map_map]
      exact distinct
  have lengthHeads : tables.1.length = (bucketCount hashed).toNat :=
    (List.length_map _).symm.trans holds.heads
  have first : hashWord blobs.hash 0 = some (bucketCount hashed).toNat := by
    rw [isHash, isTable, hashWord_table]
    rfl
  have start : hashWord blobs.hash (2 + standardHash name % (bucketCount hashed).toNat) =
      some ((chainTable tables).heads.getD
        (standardHash name % (bucketCount hashed).toNat) 0) := by
    have inHeads : standardHash name % (bucketCount hashed).toNat < tables.1.length :=
      lengthHeads ▸ inBuckets name
    rw [isHash, isTable, hashWord_table, Nat.add_comm 2, List.getElem?_cons_succ,
      List.getElem?_cons_succ, List.getElem?_append_left inHeads,
      List.getElem?_eq_getElem inHeads, chainTable, List.getD_eq_getElem?_getD,
      List.getElem?_map, List.getElem?_eq_getElem inHeads]
    rfl
  have links : (fun index => hashWord blobs.hash (2 + (bucketCount hashed).toNat + index)) =
      (chainTable tables).next := by
    funext index
    have place : 2 + (bucketCount hashed).toNat + index = tables.1.length + index + 1 + 1 := by
      rw [lengthHeads]
      omega
    rw [isHash, isTable, hashWord_table, place, List.getElem?_cons_succ,
      List.getElem?_cons_succ, List.getElem?_append_right (Nat.le_add_right _ _),
      Nat.add_sub_cancel_left, Chains.Table.next, chainTable, List.getElem?_map]
  have short : (Chains.Table.members (hashed.map (chainEntry (bucketCount hashed)))
      (standardHash name % (bucketCount hashed).toNat)).length < fuel := by
    refine Nat.lt_of_le_of_lt ?_ enough
    rw [Chains.Table.members, List.length_reverse, List.length_map]
    exact Nat.le_trans (List.length_filter_le _ _) (Nat.le_of_eq (List.length_map _))
  rw [sysvLookup, first, Option.bind_some, if_neg (Nat.ne_of_gt positive), start,
    Option.bind_some, links]
  exact (holds.paths _ (inBuckets name)).search_eq _ short

private theorem toNat_ofNat_small {index : Nat} (small : index < 2 ^ 32) :
    (UInt32.ofNat index).toNat = index :=
  (UInt32.toNat_ofNat').trans (Nat.mod_eq_of_lt small)

section Readable

variable {hashed : List (Nat × Name)}

/-- The symbols with their indices as they are written. -/
def hashedWords (hashed : List (Nat × Name)) : List (UInt32 × Name) :=
  hashed.map fun entry => (UInt32.ofNat entry.1, entry.2)

variable (small : ∀ entry ∈ hashed, entry.1 < 2 ^ 32)

include small

theorem toNat_hashedWords :
    (hashedWords hashed).map (fun entry => entry.1.toNat) = hashed.map Prod.fst := by
  rw [hashedWords, List.map_map]
  refine List.map_congr_left fun entry present => ?_
  exact toNat_ofNat_small (small entry present)

theorem length_lt_of_small (positive : ∀ entry ∈ hashed, entry.1 ≠ 0)
    (indices : (hashed.map Prod.fst).Nodup) : hashed.length < 2 ^ 32 := by
  have distinct : (0 :: hashed.map Prod.fst).Nodup := by
    refine List.nodup_cons.mpr ⟨fun present => ?_, indices⟩
    rcases List.mem_map.mp present with ⟨entry, isHashed, isZero⟩
    exact positive entry isHashed isZero
  have within : 0 :: hashed.map Prod.fst ⊆ List.range (2 ^ 32) := by
    intro index present
    rw [List.mem_range]
    rcases List.mem_cons.mp present with rfl | isIndex
    · exact Nat.two_pow_pos 32
    · rcases List.mem_map.mp isIndex with ⟨entry, isHashed, rfl⟩
      exact small entry isHashed
  have bound := (List.subperm_of_subset distinct within).length_le
  rw [List.length_range, List.length_cons, List.length_map] at bound
  exact bound

theorem mem_members_hashed {nbucket : UInt32} {bucket index : Nat} :
    index ∈ Chains.Table.members ((hashedWords hashed).map (chainEntry nbucket)) bucket ↔
      ∃ entry ∈ hashed, entry.1 = index ∧
        standardHash entry.2 % nbucket.toNat = bucket := by
  rw [Chains.Table.mem_members, hashedWords, List.map_map, List.mem_map]
  refine exists_congr fun entry => and_congr_right fun present => ?_
  rw [Function.comp_apply, chainEntry, Prod.mk.injEq]
  dsimp only
  rw [toNat_ofNat_small (small entry present), And.comm]

theorem hashIndexes_of_readable {blobs : DynBlobs} {total : Nat}
    (isHash : blobs.hash = sysvHash (hashedWords hashed) total)
    (inRange : ∀ entry ∈ hashed, entry.1 ≠ 0 ∧ entry.1 < total)
    (indices : (hashed.map Prod.fst).Nodup) (names : (hashed.map Prod.snd).Nodup)
    (readable : ∀ entry ∈ hashed, dynsymName blobs entry.1 = some entry.2) :
    HashIndexes blobs hashed := by
  have few := length_lt_of_small small (fun entry present => (inRange entry present).1) indices
  have sameLength : (hashedWords hashed).length = hashed.length := List.length_map _
  have words : ∀ entry ∈ hashedWords hashed,
      entry.1.toNat ≠ 0 ∧ entry.1.toNat < total := by
    intro entry present
    rcases List.mem_map.mp present with ⟨own, isHashed, rfl⟩
    dsimp only
    rw [toNat_ofNat_small (small own isHashed)]
    exact inRange own isHashed
  have walk (name : Name) {fuel : Nat} (enough : hashed.length < fuel) :=
    sysvLookup_eq isHash (sameLength ▸ few) words
      ((toNat_hashedWords small).symm ▸ indices) name (sameLength ▸ enough)
  have unique {entry other : Nat × Name} (isHashed : entry ∈ hashed)
      (isOther : other ∈ hashed) (sameName : entry.2 = other.2) : entry = other :=
    List.inj_on_of_nodup_map names isHashed isOther sameName
  constructor
  · intro entry present fuel enough
    rw [walk entry.2 enough]
    cases found : (Chains.Table.members
        ((hashedWords hashed).map (chainEntry (bucketCount (hashedWords hashed))))
        (standardHash entry.2 % (bucketCount (hashedWords hashed)).toNat)).find?
        fun index => dynsymName blobs index == some entry.2 with
    | none =>
        have isMember := (@mem_members_hashed _ small
          (bucketCount (hashedWords hashed)) _ _).mpr ⟨entry, present, rfl, rfl⟩
        have skipped := List.find?_eq_none.mp found entry.1 isMember
        exact absurd (beq_iff_eq.mpr (readable entry present)) skipped
    | some index =>
        have isWanted := List.find?_some found
        rcases (mem_members_hashed small).mp (List.mem_of_find?_eq_some found) with
          ⟨other, isOther, rfl, _⟩
        have sameName : some other.2 = some entry.2 :=
          (readable other isOther).symm.trans (beq_iff_eq.mp isWanted)
        rw [unique isOther present (Option.some.inj sameName)]
  · intro name unknown fuel enough
    rw [walk name enough]
    refine congrArg some (List.find?_eq_none.mpr fun index isMember isWanted => ?_)
    rcases (mem_members_hashed small).mp isMember with ⟨entry, present, rfl, _⟩
    have sameName : some entry.2 = some name :=
      (readable entry present).symm.trans (beq_iff_eq.mp isWanted)
    exact unknown entry present (Option.some.inj sameName)

end Readable

/-- A table that finds every symbol can read it by its name, which is that of no other. -/
theorem readable_of_hashIndexes {blobs : DynBlobs} {hashed : List (Nat × Name)}
    (indexes : HashIndexes blobs hashed) (indices : (hashed.map Prod.fst).Nodup) :
    (∀ entry ∈ hashed, entry.1 < 2 ^ 32 ∧ dynsymName blobs entry.1 = some entry.2) ∧
      (hashed.map Prod.snd).Nodup := by
  have lookup (entry : Nat × Name) (present : entry ∈ hashed) :=
    indexes.finds entry present (hashed.length + 1) (Nat.lt_succ_self _)
  refine ⟨fun entry present => found_of_sysvLookup (lookup entry present), ?_⟩
  refine List.Nodup.map_on ?_ (List.Nodup.of_map _ indices)
  intro entry present other isOther sameName
  have first := lookup entry present
  rw [sameName, lookup other isOther] at first
  exact Prod.ext (Option.some.inj (Option.some.inj first)).symm sameName

end Peony
