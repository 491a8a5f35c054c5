import Peony.Gc.Live
import Peony.Symbols.Table

namespace Peony

/-! The sections that the symbols of an object stand for, found by the raw index
of the symbol. -/

/-! ## Packed sections -/

def noTarget : UInt64 := 0xFFFFFFFFFFFFFFFF

/-- Both numbers have to fit in 32 bits. -/
def pack (key : SectionKey) : Option UInt64 :=
  if key.1 < 2 ^ 32 ∧ key.2 < 2 ^ 32 then
    some (UInt64.ofNat key.1 <<< 32 ||| UInt64.ofNat key.2)
  else none

def unpack (value : UInt64) : Option SectionKey :=
  if value = noTarget then none
  else some ((value >>> 32).toNat, (value &&& 0xFFFFFFFF).toNat)

private theorem toNat_packed {high low : Nat} (highFits : high < 2 ^ 32)
    (lowFits : low < 2 ^ 32) :
    (UInt64.ofNat high <<< 32 ||| UInt64.ofNat low).toNat =
      high * 2 ^ 32 + low := by
  rw [UInt64.toNat_or, UInt64.toNat_shiftLeft, UInt64.toNat_ofNat',
    UInt64.toNat_ofNat', Nat.mod_eq_of_lt (by omega : high < 2 ^ 64),
    Nat.mod_eq_of_lt (by omega : low < 2 ^ 64)]
  have shift : (32 : UInt64).toNat % 64 = 32 := rfl
  rw [shift, Nat.mod_eq_of_lt (by rw [Nat.shiftLeft_eq]; omega),
    ← Nat.shiftLeft_add_eq_or_of_lt lowFits, Nat.shiftLeft_eq]

/-- A key whose two numbers fit in 32 bits comes back, the greatest one apart. -/
theorem unpack_pack {key : SectionKey} (objectFits : key.1 < 2 ^ 32 - 1)
    (sectionFits : key.2 < 2 ^ 32) : (pack key).bind unpack = some key := by
  have toNat := toNat_packed (by omega : key.1 < 2 ^ 32) sectionFits
  rw [pack, if_pos ⟨by omega, sectionFits⟩, Option.bind_some, unpack, if_neg]
  · congr 1
    rw [Prod.ext_iff]
    constructor
    · rw [UInt64.toNat_shiftRight, toNat]
      show (key.1 * 2 ^ 32 + key.2) >>> 32 = key.1
      rw [Nat.shiftRight_eq_div_pow]
      omega
    · rw [UInt64.toNat_and, toNat]
      show (key.1 * 2 ^ 32 + key.2) &&& (2 ^ 32 - 1) = key.2
      rw [Nat.and_two_pow_sub_one_eq_mod]
      omega
  · intro equal
    have same := congrArg UInt64.toNat equal
    rw [toNat] at same
    have greatest : noTarget.toNat = 2 ^ 64 - 1 := rfl
    omega

theorem eq_of_unpack_pack {key found : SectionKey}
    (unpacked : (pack key).bind unpack = some found) : key = found := by
  by_cases fits : key.1 < 2 ^ 32 ∧ key.2 < 2 ^ 32
  · by_cases small : key.1 < 2 ^ 32 - 1
    · rw [unpack_pack small fits.2] at unpacked
      exact Option.some.inj unpacked
    · have toNat := toNat_packed fits.1 fits.2
      rw [pack, if_pos fits, Option.bind_some, unpack] at unpacked
      split at unpacked
      · cases unpacked
      · cases unpacked
        rw [Prod.ext_iff]
        constructor
        · rw [UInt64.toNat_shiftRight, toNat]
          show key.1 = (key.1 * 2 ^ 32 + key.2) >>> 32
          rw [Nat.shiftRight_eq_div_pow]
          omega
        · rw [UInt64.toNat_and, toNat]
          show key.2 = (key.1 * 2 ^ 32 + key.2) &&& (2 ^ 32 - 1)
          rw [Nat.and_two_pow_sub_one_eq_mod]
          omega
  · rw [pack, if_neg fits] at unpacked
    cases unpacked

/-! ## The targets of one object -/

structure GcTargetStats where
  entries : Nat
  denseObjects : Nat
  sparseObjects : Nat
deriving DecidableEq, Repr

inductive GcObjectTargets where
  | dense (targets : List UInt64)
  | sparse (targets : AList (fun _ : Nat => UInt64))
  | empty

namespace GcObjectTargets

/-- The section a symbol stands for: a local symbol the one it is defined in,
any other the one the table resolves its name to. -/
def symbolTarget (objectId : Nat) (sym : InputSymbol) (symbols : SymbolTable) :
    Option SectionKey :=
  if sym.binding = .local then
    sym.sectionIndex.map fun sectionIndex => (objectId, sectionIndex)
  else do
    let res ← symbols.lookup sym.name
    let defined ← res.definedIn
    let sectionIndex ← res.sectionIndex
    return (defined.toNat, sectionIndex)

def resolveSymbolTarget (objectId : Nat) (sym : InputSymbol)
    (symbols : SymbolTable) : Option UInt64 :=
  symbolTarget objectId sym symbols >>= pack

def denseTargets (objectId : Nat) (symbols : SymbolTable) (maxIndex : Nat)
    (syms : List InputSymbol) : List UInt64 :=
  syms.foldl
    (fun targets sym =>
      match resolveSymbolTarget objectId sym symbols with
      | some target => targets.set sym.index target
      | none => targets)
    (List.replicate (maxIndex + 1) noTarget)

def sparseTargets (objectId : Nat) (symbols : SymbolTable)
    (syms : List InputSymbol) : AList (fun _ : Nat => UInt64) :=
  syms.foldl
    (fun targets sym =>
      match resolveSymbolTarget objectId sym symbols with
      | some target => targets.insert sym.index target
      | none => targets)
    ∅

def resolvedCount (objectId : Nat) (symbols : SymbolTable)
    (syms : List InputSymbol) : Nat :=
  syms.countP fun sym => (resolveSymbolTarget objectId sym symbols).isSome

def denseLimit (obj : InputObject) : Nat :=
  max (min (obj.symbols.length * 4) (2 ^ 64 - 1)) 64

def buildObjectTargets (objectId : Nat) (obj : InputObject)
    (symbols : SymbolTable) (stats : GcTargetStats) :
    GcObjectTargets × GcTargetStats :=
  match (obj.symbols.map fun sym => sym.index).max? with
  | none => (.empty, stats)
  | some maxIndex =>
      let entries := stats.entries + resolvedCount objectId symbols obj.symbols
      if maxIndex ≤ denseLimit obj then
        (.dense (denseTargets objectId symbols maxIndex obj.symbols),
          { stats with
            entries := entries, denseObjects := stats.denseObjects + 1 })
      else
        (.sparse (sparseTargets objectId symbols obj.symbols),
          { stats with
            entries := entries, sparseObjects := stats.sparseObjects + 1 })

def get (targets : GcObjectTargets) (symbolIndex : Nat) : Option SectionKey :=
  match targets with
  | .dense targets => targets[symbolIndex]? >>= unpack
  | .sparse targets => targets.lookup symbolIndex >>= unpack
  | .empty => none

inductive Indexes (objectId : Nat) (obj : InputObject) (symbols : SymbolTable) :
    GcObjectTargets → Prop where
  | empty : obj.symbols = [] → Indexes objectId obj symbols .empty
  | dense {maxIndex : Nat} :
      (obj.symbols.map fun sym => sym.index).max? = some maxIndex →
      Indexes objectId obj symbols
        (.dense (denseTargets objectId symbols maxIndex obj.symbols))
  | sparse :
      Indexes objectId obj symbols
        (.sparse (sparseTargets objectId symbols obj.symbols))

theorem buildObjectTargets_indexes (objectId : Nat) (obj : InputObject)
    (symbols : SymbolTable) (stats : GcTargetStats) :
    Indexes objectId obj symbols
      (buildObjectTargets objectId obj symbols stats).1 := by
  unfold buildObjectTargets
  split
  · rename_i none
    exact .empty (List.map_eq_nil_iff.mp (List.max?_eq_none_iff.mp none))
  · rename_i maxIndex isMax
    split
    · exact .dense isMax
    · exact .sparse

/-! ## Both forms find the same targets -/

private def lastTarget (objectId : Nat) (symbols : SymbolTable)
    (symbolIndex : Nat) (syms : List InputSymbol) : Option UInt64 :=
  (syms.reverse.filter fun sym => sym.index = symbolIndex).findSome?
    fun sym => resolveSymbolTarget objectId sym symbols

private theorem lastTarget_snoc (objectId : Nat) (symbols : SymbolTable)
    (symbolIndex : Nat) (syms : List InputSymbol) (sym : InputSymbol) :
    lastTarget objectId symbols symbolIndex (syms ++ [sym]) =
      if sym.index = symbolIndex then
        (resolveSymbolTarget objectId sym symbols).or
          (lastTarget objectId symbols symbolIndex syms)
      else lastTarget objectId symbols symbolIndex syms := by
  rw [lastTarget, List.reverse_append, List.reverse_singleton,
    List.singleton_append, List.filter_cons]
  by_cases same : sym.index = symbolIndex
  · rw [if_pos (by simpa using same), if_pos same, List.findSome?_cons]
    cases resolveSymbolTarget objectId sym symbols <;> rfl
  · rw [if_neg (by simpa using same), if_neg same]
    rfl

private theorem sparseTargets_lookup (objectId : Nat) (symbols : SymbolTable)
    (symbolIndex : Nat) (syms : List InputSymbol) :
    (sparseTargets objectId symbols syms).lookup symbolIndex =
      lastTarget objectId symbols symbolIndex syms := by
  induction syms using List.reverseRecOn with
  | nil => rfl
  | append_singleton front sym induction =>
      rw [lastTarget_snoc, ← induction, sparseTargets, List.foldl_append,
        List.foldl_cons, List.foldl_nil]
      cases resolveSymbolTarget objectId sym symbols with
      | none => simp [sparseTargets]
      | some target =>
          by_cases same : sym.index = symbolIndex
          · subst same
            simp
          · rw [if_neg same]
            exact AList.lookup_insert_ne (Ne.symm same)

private theorem denseTargets_length (objectId : Nat) (symbols : SymbolTable)
    (maxIndex : Nat) (syms : List InputSymbol) :
    (denseTargets objectId symbols maxIndex syms).length = maxIndex + 1 := by
  induction syms using List.reverseRecOn with
  | nil => simp [denseTargets]
  | append_singleton front sym induction =>
      rw [denseTargets, List.foldl_append, List.foldl_cons, List.foldl_nil]
      split
      · rw [List.length_set]
        exact induction
      · exact induction

private theorem denseTargets_getElem? (objectId : Nat) (symbols : SymbolTable)
    (symbolIndex maxIndex : Nat) (inside : symbolIndex ≤ maxIndex)
    (syms : List InputSymbol) :
    (denseTargets objectId symbols maxIndex syms)[symbolIndex]? =
      some ((lastTarget objectId symbols symbolIndex syms).getD noTarget) := by
  induction syms using List.reverseRecOn with
  | nil =>
      rw [denseTargets, List.foldl_nil, List.getElem?_replicate,
        if_pos (by omega)]
      rfl
  | append_singleton front sym induction =>
      have length := denseTargets_length objectId symbols maxIndex front
      rw [lastTarget_snoc, denseTargets, List.foldl_append, List.foldl_cons,
        List.foldl_nil]
      change (match resolveSymbolTarget objectId sym symbols with
        | some target =>
            (denseTargets objectId symbols maxIndex front).set sym.index target
        | none => denseTargets objectId symbols maxIndex front)[symbolIndex]? = _
      cases resolveSymbolTarget objectId sym symbols with
      | none => simp [induction]
      | some target =>
          by_cases same : sym.index = symbolIndex
          · subst same
            rw [List.getElem?_set_self (by omega)]
            simp
          · rw [List.getElem?_set_ne same, if_neg same, induction]

private theorem get_eq_lastTarget {objectId : Nat} {obj : InputObject}
    {symbols : SymbolTable} {targets : GcObjectTargets}
    (indexes : Indexes objectId obj symbols targets) (symbolIndex : Nat) :
    targets.get symbolIndex =
      (lastTarget objectId symbols symbolIndex obj.symbols).bind unpack := by
  cases indexes with
  | empty none =>
      rw [none]
      rfl
  | sparse => rw [get, sparseTargets_lookup, Option.bind_eq_bind]
  | @dense maxIndex isMax =>
      rw [get, Option.bind_eq_bind]
      by_cases inside : symbolIndex ≤ maxIndex
      · rw [denseTargets_getElem? objectId symbols symbolIndex maxIndex inside]
        cases lastTarget objectId symbols symbolIndex obj.symbols <;> rfl
      · -- no symbol has an index above the greatest one
        have absent : obj.symbols.reverse.filter
            (fun sym => sym.index = symbolIndex) = [] := by
          rw [List.filter_eq_nil_iff]
          intro sym member same
          have isIndex : sym.index ∈ obj.symbols.map fun sym => sym.index :=
            List.mem_map.mpr ⟨sym, List.mem_reverse.mp member, rfl⟩
          have bounded := @List.le_max?_getD_of_mem _ _ 0 isIndex
          rw [isMax, Option.getD_some, of_decide_eq_true same] at bounded
          exact inside bounded
        rw [List.getElem?_eq_none
          (by rw [denseTargets_length]; omega), lastTarget, absent]
        rfl

theorem get_eq_some_iff {objectId : Nat} {obj : InputObject}
    (parsed : obj.Parsed) {symbols : SymbolTable} {targets : GcObjectTargets}
    (indexes : Indexes objectId obj symbols targets)
    (symbolIndex : Nat) (key : SectionKey) :
    targets.get symbolIndex = some key ↔
      ∃ sym ∈ obj.symbols, sym.index = symbolIndex ∧
        (symbolTarget objectId sym symbols >>= pack).bind unpack = some key := by
  rw [get_eq_lastTarget indexes, Option.bind_eq_some_iff, lastTarget]
  constructor
  · rintro ⟨word, found, unpacked⟩
    rcases List.exists_of_findSome?_eq_some found with ⟨sym, member, resolved⟩
    rw [List.mem_filter, List.mem_reverse, decide_eq_true_eq] at member
    refine ⟨sym, member.1, member.2, ?_⟩
    rw [resolveSymbolTarget] at resolved
    rw [resolved]
    exact unpacked
  · rintro ⟨sym, member, same, resolved⟩
    rcases Option.bind_eq_some_iff.mp resolved with ⟨word, packed, unpacked⟩
    have only : ∀ other ∈ obj.symbols.reverse.filter
        (fun sym => sym.index = symbolIndex), other = sym := by
      intro other isOther
      rw [List.mem_filter, List.mem_reverse, decide_eq_true_eq] at isOther
      exact parsed.symbol_eq_of_index isOther.1 member
        (isOther.2.trans same.symm)
    refine ⟨word, ?_, unpacked⟩
    have present : sym ∈ obj.symbols.reverse.filter
        (fun sym => sym.index = symbolIndex) := by
      simp [member, same]
    revert only present
    cases obj.symbols.reverse.filter (fun sym => sym.index = symbolIndex) with
    | nil =>
        intro _ present
        cases present
    | cons first rest =>
        intro only _
        rw [List.findSome?_cons, only first (List.mem_cons_self ..),
          resolveSymbolTarget, packed]

end GcObjectTargets

/-! ## The targets of all objects -/

def targetMaps (symbols : SymbolTable) : Nat → List InputObject →
    GcTargetStats → List GcObjectTargets × GcTargetStats
  | _, [], stats => ([], stats)
  | objectId, obj :: rest, stats =>
      let built :=
        GcObjectTargets.buildObjectTargets objectId obj symbols stats
      let others := targetMaps symbols (objectId + 1) rest built.2
      (built.1 :: others.1, others.2)

/-- The indices of all objects, each in either form. -/
def GcTargetMaps (symbols : SymbolTable) (objects : List InputObject)
    (maps : List GcObjectTargets) : Prop :=
  maps.length = objects.length ∧
    ∀ objectId obj targets, objects[objectId]? = some obj →
      maps[objectId]? = some targets →
        GcObjectTargets.Indexes objectId obj symbols targets

theorem targetMaps_indexes (symbols : SymbolTable) (start : Nat)
    (objects : List InputObject) (stats : GcTargetStats) :
    (targetMaps symbols start objects stats).1.length = objects.length ∧
      ∀ place obj targets, objects[place]? = some obj →
        (targetMaps symbols start objects stats).1[place]? = some targets →
          GcObjectTargets.Indexes (start + place) obj symbols targets := by
  induction objects generalizing start stats with
  | nil => simp [targetMaps]
  | cons first rest induction =>
      rw [targetMaps]
      have others := induction (start + 1)
        (GcObjectTargets.buildObjectTargets start first symbols stats).2
      refine ⟨by simp [others.1], ?_⟩
      intro place obj targets isObject isTargets
      cases place with
      | zero =>
          cases isObject
          cases isTargets
          exact GcObjectTargets.buildObjectTargets_indexes ..
      | succ place =>
          have indexes := others.2 place obj targets isObject isTargets
          rwa [Nat.add_assoc, Nat.add_comm 1] at indexes

theorem targetMaps_ok (symbols : SymbolTable) (objects : List InputObject)
    (stats : GcTargetStats) :
    GcTargetMaps symbols objects (targetMaps symbols 0 objects stats).1 := by
  have indexed := targetMaps_indexes symbols 0 objects stats
  refine ⟨indexed.1, fun objectId obj targets isObject isTargets => ?_⟩
  have indexes := indexed.2 objectId obj targets isObject isTargets
  rwa [Nat.zero_add] at indexes

end Peony
