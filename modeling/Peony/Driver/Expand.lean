import Peony.Driver.Inputs
import Peony.Foundation.Expansion
import Peony.Foundation.Fallible

namespace Peony

/-! When the expansion of linker scripts among the inputs ends, and in which order it
leaves the inputs. -/

section

variable (host : Host) (disk : Disk) (search : List Path)

/-- An input that stands for others: text with a directive, and not an archive. -/
def isScript (path : Path) : Bool :=
  classifyFile disk path != .archive && isLinkerScript disk path

/-- What the references of a script are resolved to. -/
def referredPaths (path : Path) : List Path :=
  (extractScriptRefs (stripBlockComments
    (fromUtf8Lossy ((disk.contents path).getD [])))).filterMap fun ref =>
      resolveScriptRef host disk ref (parentPath path) search

def scriptParts (input : ResolvedInput) : Option (List ResolvedInput) :=
  if isScript disk input.path then
    some ((referredPaths host disk search input.path).map fun path =>
      { input with path := path })
  else none

/-- The first file is a script with a reference to the second one. -/
def Refers (path next : Path) : Prop :=
  isScript disk path = true ∧ next ∈ referredPaths host disk search path

variable {disk} in
theorem exists_contents {path : Path} (script : isScript disk path = true) :
    ∃ bytes, disk.contents path = some bytes := by
  rw [isScript, Bool.and_eq_true, isLinkerScript] at script
  cases found : disk.contents path with
  | none =>
      rw [found] at script
      exact nomatch script.2
  | some bytes => exact ⟨bytes, rfl⟩

variable {disk} in
theorem scriptInputs_eq {input : ResolvedInput} (script : isScript disk input.path = true) :
    scriptInputs host disk search input =
      .ok ((referredPaths host disk search input.path).map fun path =>
        { input with path := path }) := by
  rcases exists_contents script with ⟨bytes, isContents⟩
  rw [scriptInputs, parseLinkerScript, readFile, referredPaths, isContents]
  rfl

variable {disk} in
theorem plain_iff {path : Path} :
    (classifyFile disk path = .archive ∨ !isLinkerScript disk path) ↔
      isScript disk path = false := by
  rw [isScript, Bool.and_eq_false_iff, bne_eq_false_iff_eq, Bool.not_eq_true']

theorem expandQueue_eq (fuel : Nat) (out work : List ResolvedInput) :
    expandQueue host disk search fuel out work =
      ((Expansion.queue (scriptParts host disk search) fuel out work).map Except.ok).getD
        (.error .unfinished) := by
  induction fuel generalizing out work with
  | zero => cases work <;> rfl
  | succ fuel induction =>
      cases work with
      | nil => rfl
      | cons input work =>
          rw [expandQueue, Expansion.queue, scriptParts]
          cases script : isScript disk input.path with
          | false =>
              rw [if_pos (plain_iff.mpr script)]
              exact induction _ _
          | true =>
              have notPlain : ¬ (classifyFile disk input.path = .archive ∨
                  !isLinkerScript disk input.path) := by
                rw [plain_iff, script]
                intro isPlain
                cases isPlain
              rw [if_neg notPlain, scriptInputs_eq host search script]
              exact induction _ _

/-! ## Scripts and what they refer to -/

theorem isPart_iff {input next : ResolvedInput} :
    Expansion.IsPart (scriptParts host disk search) next input ↔
      Refers host disk search input.path next.path ∧ next = { input with path := next.path } := by
  unfold Expansion.IsPart scriptParts Refers
  cases isScript disk input.path with
  | false =>
      constructor
      · rintro ⟨nodes, isSplit, _⟩
        exact nomatch isSplit
      · intro both
        exact nomatch both.1.1
  | true =>
      constructor
      · rintro ⟨nodes, isSplit, present⟩
        cases isSplit
        rcases List.mem_map.mp present with ⟨path, referred, rfl⟩
        exact ⟨⟨rfl, referred⟩, rfl⟩
      · rintro ⟨⟨_, referred⟩, isNext⟩
        exact ⟨_, rfl, isNext ▸ List.mem_map_of_mem referred⟩

theorem acc_parts_iff {input : ResolvedInput} :
    Acc (Expansion.IsPart (scriptParts host disk search)) input ↔
      Acc (Function.swap (Refers host disk search)) input.path := by
  constructor
  · intro accessible
    induction accessible with
    | intro input _ induction =>
        refine .intro _ fun path referred => ?_
        exact induction { input with path := path }
          ((isPart_iff host disk search).mpr ⟨referred, rfl⟩)
  · intro accessible
    generalize isPath : input.path = path at accessible
    induction accessible generalizing input with
    | intro path _ induction =>
        refine .intro _ fun next isPart => ?_
        cases isPath
        exact induction next.path ((isPart_iff host disk search).mp isPart).1 rfl

variable {disk} in
theorem finite_referred (files : {path | (disk.file path).isSome}.Finite) (start : Path) :
    {path | Relation.ReflTransGen (Function.swap (Refers host disk search))
      path start}.Finite := by
  have lists : (⋃ path ∈ {path | (disk.file path).isSome},
      {next | next ∈ referredPaths host disk search path}).Finite :=
    files.biUnion fun path _ => List.finite_toSet _
  refine (lists.insert start).subset fun path below => ?_
  rcases Relation.ReflTransGen.cases_head below with rfl | ⟨script, refers, _⟩
  · exact Set.mem_insert _ _
  · rcases exists_contents refers.1 with ⟨bytes, isContents⟩
    have isFile : (disk.file script).isSome := by
      rw [Disk.contents] at isContents
      rcases Option.map_eq_some_iff.mp isContents with ⟨file, isFile, _⟩
      rw [isFile]
      rfl
    exact Set.mem_insert_of_mem _ (Set.mem_biUnion isFile refers.2)

/-- A file is the end of no endless chain of references exactly when no file it leads to
leads back to itself. -/
theorem acc_refers_iff (files : {path | (disk.file path).isSome}.Finite) {start : Path} :
    Acc (Function.swap (Refers host disk search)) start ↔
      ∀ path, Relation.ReflTransGen (Refers host disk search) start path →
        ¬ Relation.TransGen (Refers host disk search) path path := by
  constructor
  · intro accessible path leads cycle
    exact Expansion.acyclic_of_acc accessible (Relation.reflTransGen_swap.mpr leads)
      (Relation.transGen_swap.mpr cycle)
  · intro acyclic
    apply Expansion.acc_of_acyclic (finite_referred host search files start)
    intro path below cycle
    exact acyclic path (Relation.reflTransGen_swap.mp below)
      (Relation.transGen_swap.mp cycle)

/-! ## The end -/

theorem expandInputs_ends_iff_acc {inputs : List ResolvedInput} :
    (∃ fuel, expandInputs host disk search fuel inputs ≠ .error .unfinished) ↔
      ∀ input ∈ inputs, Acc (Function.swap (Refers host disk search)) input.path := by
  have ends (fuel : Nat) : expandInputs host disk search fuel inputs ≠ .error .unfinished ↔
      Expansion.queue (scriptParts host disk search) fuel [] inputs ≠ none := by
    rw [expandInputs, expandQueue_eq]
    cases Expansion.queue (scriptParts host disk search) fuel [] inputs with
    | none => exact ⟨fun unfinished => absurd rfl unfinished, fun ended => absurd rfl ended⟩
    | some out => exact ⟨fun _ => nofun, fun _ => nofun⟩
  rw [exists_congr ends, Expansion.queue_ends_iff]
  exact forall₂_congr fun input _ => acc_parts_iff host disk search

/-- In a finite file system the expansion of the inputs ends exactly when no script that
is met leads back to itself. -/
theorem expandInputs_ends_iff (files : {path | (disk.file path).isSome}.Finite)
    {inputs : List ResolvedInput} :
    (∃ fuel, expandInputs host disk search fuel inputs ≠ .error .unfinished) ↔
      ∀ input ∈ inputs, ∀ path,
        Relation.ReflTransGen (Refers host disk search) input.path path →
          ¬ Relation.TransGen (Refers host disk search) path path := by
  rw [expandInputs_ends_iff_acc]
  exact forall₂_congr fun input _ => acc_refers_iff host disk search files

/-! ## The order -/

/-- Scripts that do not lead back to themselves have one expansion in place, and the
expansion of the inputs leaves it by depth: the inputs that no script stands for, then
those of the scripts among them, and so on. Both are the same exactly when putting the
expansion by depth does not change it, for inputs that are all different exactly when
none comes after a deeper one. -/
theorem expandInputs_inPlace_iff (files : {path | (disk.file path).isSome}.Finite)
    {inputs : List ResolvedInput}
    (acyclic : ∀ input ∈ inputs, ∀ path,
      Relation.ReflTransGen (Refers host disk search) input.path path →
        ¬ Relation.TransGen (Refers host disk search) path path) :
    ∃ listed steps,
      Expansion.InPlace (scriptParts host disk search) 0 inputs listed steps ∧
      (∀ other otherSteps,
        Expansion.InPlace (scriptParts host disk search) 0 inputs other otherSteps →
          other = listed) ∧
      ∀ fuel, steps ≤ fuel → ∃ out, expandInputs host disk search fuel inputs = .ok out ∧
        (out = listed.map Prod.fst ↔
          (Expansion.byDepth listed).map Prod.fst = listed.map Prod.fst) ∧
        ((listed.map Prod.fst).Nodup →
          (out = listed.map Prod.fst ↔ listed.Pairwise Expansion.NotDeeper)) := by
  have accessible : ∀ input ∈ inputs,
      Acc (Expansion.IsPart (scriptParts host disk search)) input := by
    intro input present
    rw [acc_parts_iff, acc_refers_iff host disk search files]
    exact acyclic input present
  rcases Expansion.InPlace.exists_of_acc accessible with ⟨listed, steps, expansion⟩
  refine ⟨listed, steps, expansion, fun _ _ other => other.unique expansion, ?_⟩
  intro fuel enough
  have ended := Expansion.queue_eq_byDepth expansion .nil (fuel - steps) []
  rw [Nat.add_zero, Nat.add_sub_cancel' enough, List.append_nil, List.nil_append,
    List.nil_append] at ended
  refine ⟨(Expansion.byDepth listed).map Prod.fst, ?_, Iff.rfl,
    Expansion.byDepth_nodes_iff⟩
  rw [expandInputs, expandQueue_eq, ended]
  rfl

end

/-! ## Inputs that show it -/

def pathOf (name : String) : Path := encodeUtf8 (ascii name)

def plainHost : Host := ⟨false, fun _ => false, [], fun _ => none⟩

theorem finite_files_write {disk : Disk} (files : {path | (disk.file path).isSome}.Finite)
    (path : Path) (bytes : List UInt8) :
    {other | ((disk.write path bytes).file other).isSome}.Finite := by
  refine (files.insert path).subset fun other isFile => ?_
  by_cases same : other = path
  · exact Set.mem_insert_iff.mpr (.inl same)
  · rw [Set.mem_ofPred_eq, Disk.file_write_of_ne _ _ same] at isFile
    exact Set.mem_insert_of_mem _ isFile

theorem finite_files_empty : {path | (Disk.empty.file path).isSome}.Finite := by
  simp [Disk.empty]

def ownScript : Disk := Disk.empty.write (pathOf "libc.so") (pathOf "INPUT(libc.so)")

theorem ownScript_reads :
    scriptParts plainHost ownScript [] (plainInput (pathOf "libc.so")) =
        some [plainInput (pathOf "libc.so")] ∧
      Refers plainHost ownScript [] (pathOf "libc.so") (pathOf "libc.so") := by
  unfold Refers
  decide +kernel

theorem not_expandInputs_ends :
    {path | (ownScript.file path).isSome}.Finite ∧
      ∀ fuel, expandInputs plainHost ownScript [] fuel [plainInput (pathOf "libc.so")] =
        .error .unfinished := by
  refine ⟨finite_files_write finite_files_empty _ _, fun fuel => ?_⟩
  have endless : Expansion.queue (scriptParts plainHost ownScript []) fuel []
      [plainInput (pathOf "libc.so")] = none := by
    induction fuel with
    | zero => rfl
    | succ fuel induction => rwa [Expansion.queue, ownScript_reads.1]
  rw [expandInputs, expandQueue_eq, endless]
  rfl

/-- A script that refers to one of two object files. -/
def oneScript : Disk :=
  ((Disk.empty.write (pathOf "b.o") elfMagic).write (pathOf "a.o") elfMagic).write
    (pathOf "a.ld") (pathOf "INPUT(a.o)")

theorem finite_oneScript : {path | (oneScript.file path).isSome}.Finite :=
  finite_files_write (finite_files_write (finite_files_write finite_files_empty _ _) _ _) _ _

theorem oneScript_refers :
    referredPaths plainHost oneScript [] (pathOf "a.ld") = [pathOf "a.o"] ∧
      isScript oneScript (pathOf "a.o") = false ∧
      isScript oneScript (pathOf "b.o") = false := by
  decide +kernel

theorem oneScript_acyclic :
    ∀ input ∈ [plainInput (pathOf "b.o"), plainInput (pathOf "a.ld")], ∀ path,
      Relation.ReflTransGen (Refers plainHost oneScript []) input.path path →
        ¬ Relation.TransGen (Refers plainHost oneScript []) path path := by
  rcases oneScript_refers with ⟨refers, first, second⟩
  have ofObject {path : Path} (noScript : isScript oneScript path = false) :
      Acc (Function.swap (Refers plainHost oneScript [])) path := by
    apply Acc.intro
    intro next isNext
    exact Bool.noConfusion (noScript.symm.trans isNext.1)
  have ofScript : Acc (Function.swap (Refers plainHost oneScript [])) (pathOf "a.ld") := by
    apply Acc.intro
    intro next isNext
    have isObject := isNext.2
    rw [refers, List.mem_singleton] at isObject
    rw [isObject]
    exact ofObject first
  intro input present
  apply (acc_refers_iff plainHost oneScript [] finite_oneScript).mp
  rcases List.mem_cons.mp present with rfl | isScript
  · exact ofObject second
  · rw [List.mem_singleton.mp isScript]
    exact ofScript

theorem expandInputs_ends_iff_ownScript :
    (¬ ∃ fuel, expandInputs plainHost ownScript [] fuel
        [plainInput (pathOf "libc.so")] ≠ .error .unfinished) ∧
      ∃ fuel, expandInputs plainHost oneScript [] fuel
        [plainInput (pathOf "b.o"), plainInput (pathOf "a.ld")] ≠ .error .unfinished := by
  constructor
  · rw [expandInputs_ends_iff plainHost ownScript []
      (finite_files_write finite_files_empty _ _)]
    intro acyclic
    exact acyclic _ List.mem_cons_self _ .refl (.single ownScript_reads.2)
  · exact (expandInputs_ends_iff plainHost oneScript [] finite_oneScript).mpr
      oneScript_acyclic

theorem oneScript_parts :
    scriptParts plainHost oneScript [] (plainInput (pathOf "a.ld")) =
        some [plainInput (pathOf "a.o")] ∧
      scriptParts plainHost oneScript [] (plainInput (pathOf "a.o")) = none ∧
      scriptParts plainHost oneScript [] (plainInput (pathOf "b.o")) = none := by
  decide +kernel

theorem not_expandInputs_inPlace :
    Expansion.InPlace (scriptParts plainHost oneScript []) 0
        [plainInput (pathOf "a.ld"), plainInput (pathOf "b.o")]
        [(plainInput (pathOf "a.o"), 1), (plainInput (pathOf "b.o"), 0)] 3 ∧
      expandInputs plainHost oneScript [] 3
          [plainInput (pathOf "a.ld"), plainInput (pathOf "b.o")] =
        .ok [plainInput (pathOf "b.o"), plainInput (pathOf "a.o")] := by
  rcases oneScript_parts with ⟨script, first, second⟩
  constructor
  · exact .replace script (.keep first .nil) (.keep second .nil)
  · rw [expandInputs, expandQueue_eq]
    simp only [Expansion.queue, script, first, second, List.nil_append, List.cons_append]
    rfl

theorem expandInputs_inPlace_iff_oneScript :
    ∃ listed steps,
      Expansion.InPlace (scriptParts plainHost oneScript []) 0
        [plainInput (pathOf "b.o"), plainInput (pathOf "a.ld")] listed steps ∧
      ∀ fuel, steps ≤ fuel → ∃ out,
        expandInputs plainHost oneScript [] fuel
          [plainInput (pathOf "b.o"), plainInput (pathOf "a.ld")] = .ok out ∧
        (out = listed.map Prod.fst ↔
          (Expansion.byDepth listed).map Prod.fst = listed.map Prod.fst) := by
  rcases expandInputs_inPlace_iff plainHost oneScript [] finite_oneScript oneScript_acyclic with
    ⟨listed, steps, expansion, _, ended⟩
  refine ⟨listed, steps, expansion, fun fuel enough => ?_⟩
  rcases ended fuel enough with ⟨out, isOut, same, _⟩
  exact ⟨out, isOut, same⟩

end Peony
