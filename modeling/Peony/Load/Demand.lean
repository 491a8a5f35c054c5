import Peony.Foundation.Fallible
import Peony.Load.Load

namespace Peony

/-! What the inputs of a link can come to ask for, told from the inputs alone: which
objects are there whatever is undefined, and the names that follow from their references
and from the references of the lazy objects that offer a name asked for. -/

/-! ## The objects of the inputs -/

section Inputs

variable (files : Files) (classify : Path → FileKind) (inputs : List ResolvedInput)

def wholeMembers (path : Path) : List InputObject :=
  match files.readArchive path with
  | .ok file => file.members.filterMap (files.parseMember path)
  | .error _ => []

/-- The bare objects, then the members of the whole archives. -/
def eagerObjects : List InputObject :=
  (inputPaths classify inputs .bare fun input => !input.startLibMember).filterMap
      (fun path => (files.parseObject path).toOption) ++
    (inputPaths classify inputs .archive ResolvedInput.wholeArchive).flatMap
      (wholeMembers files)

def startLibObjects : List InputObject :=
  (inputPaths classify inputs .bare ResolvedInput.startLibMember).filterMap
    fun path => (files.parseObject path).toOption

/-- An object that is resolved only on demand. -/
def IsLazy (obj : InputObject) : Prop :=
  obj ∈ startLibObjects files classify inputs ∨
    InArchives files (lazyArchives classify inputs) obj

end Inputs

theorem filterMap_of_parsed {Source Error : Type} {parse : Source → Except Error InputObject}
    {sources : List Source} {objects : List InputObject}
    (parsed : sources.mapM parse = .ok objects) :
    sources.filterMap (fun source => (parse source).toOption) = objects := by
  have related := forall₂_of_mapM parsed
  clear parsed
  induction related with
  | nil => rfl
  | cons here _ induction =>
      rw [List.filterMap_cons, here]
      exact congrArg _ induction

namespace Resolver

theorem objects_resolveAll {objects : List InputObject} {resolver next : Resolver}
    (resolved : resolver.resolveAll objects = .ok next) :
    next.objects = resolver.objects ++ objects := by
  rw [resolveAll] at resolved
  induction objects generalizing resolver with
  | nil =>
      cases resolved
      exact (List.append_nil _).symm
  | cons obj rest induction =>
      rw [List.foldlM_cons] at resolved
      cases first : resolver.resolve obj with
      | error failure =>
          rw [first] at resolved
          cases resolved
      | ok middle =>
          rw [first] at resolved
          rw [induction resolved, objects_resolve first, List.append_assoc]
          rfl

theorem objects_includeWholeArchives {files : Files} {paths : List Path}
    {resolver next : Resolver}
    (included : paths.foldlM (includeWholeArchive files) resolver = .ok next) :
    next.objects = resolver.objects ++ paths.flatMap (wholeMembers files) := by
  induction paths generalizing resolver with
  | nil =>
      cases included
      exact (List.append_nil _).symm
  | cons path rest induction =>
      rw [List.foldlM_cons] at included
      cases first : includeWholeArchive files resolver path with
      | error failure =>
          rw [first] at included
          cases included
      | ok middle =>
          rw [first] at included
          have members : middle.objects = resolver.objects ++ wholeMembers files path := by
            rw [includeWholeArchive] at first
            rw [wholeMembers]
            cases read : files.readArchive path with
            | error failure =>
                rw [read] at first
                cases first
            | ok file =>
                rw [read] at first
                exact objects_resolveAll first
          rw [induction included, members, List.append_assoc]
          rfl

end Resolver

/-! ## What is asked for -/

/-- A strong reference of the object, whatever sections it loses. -/
def InputObject.refersTo (obj : InputObject) (name : Name) : Bool :=
  ProcessedObject.stronglyReferences ⟨obj, []⟩ name

/-- References stand in no section, as the parser leaves them. -/
def InputObject.Plain (obj : InputObject) : Prop :=
  ∀ sym ∈ obj.symbols, sym.isUndefined = true → sym.sectionIndex = none

/-- No name is defined by both objects. -/
def Apart (left right : InputObject) : Prop :=
  ∀ name ∈ memberDefines left, name ∉ memberDefines right

theorem Apart.symm {left right : InputObject} (apart : Apart left right) :
    Apart right left :=
  fun name inRight inLeft => apart name inLeft inRight

section Demand

variable (eager : List InputObject) (forced : List Name) (offered : InputObject → Prop)

/-- An eager object defines the name outside the groups it loses to an earlier one. -/
def EagerlyDefined (name : Name) : Prop :=
  ∃ input ∈ (processed eager).2, input.defines name = true

/-- A name that no eager object defines and that is asked for: with `-u`, by an eager
object, or by an object on offer that defines a name asked for. -/
inductive Needed : Name → Prop
  | forced {name : Name} (isForced : name ∈ forced)
      (missing : ¬ EagerlyDefined eager name) : Needed name
  | eager {name : Name} {obj : InputObject} (isEager : obj ∈ eager)
      (refers : obj.refersTo name = true) (missing : ¬ EagerlyDefined eager name) :
      Needed name
  | offered {name wanted : Name} {obj : InputObject} (onOffer : offered obj)
      (defines : wanted ∈ memberDefines obj) (asked : Needed wanted)
      (refers : obj.refersTo name = true) (missing : ¬ EagerlyDefined eager name) :
      Needed name

def AskedFor (obj : InputObject) : Prop :=
  offered obj ∧ ∃ wanted ∈ memberDefines obj, Needed eager forced offered wanted

structure Driven (resolver : Resolver) : Prop where
  accounts : resolver.Accounts forced
  objects : ∃ added, resolver.objects = eager ++ added ∧
    ∀ obj ∈ added, AskedFor eager forced offered obj

variable {eager forced offered}

theorem Needed.missing {name : Name} (needed : Needed eager forced offered name) :
    ¬ EagerlyDefined eager name := by
  cases needed with
  | forced _ missing => exact missing
  | eager _ _ missing => exact missing
  | offered _ _ _ _ missing => exact missing

theorem Needed.mono {more : InputObject → Prop} {name : Name}
    (needed : Needed eager forced offered name) (covers : ∀ obj, offered obj → more obj) :
    Needed eager forced more name := by
  induction needed with
  | forced isForced missing => exact .forced isForced missing
  | eager isEager refers missing => exact .eager isEager refers missing
  | offered onOffer defines _ refers missing induction =>
      exact .offered (covers _ onOffer) defines induction refers missing

end Demand

/-! ## Objects and their processed forms -/

theorem map_obj_processed (objects : List InputObject) :
    (processed objects).2.map ProcessedObject.obj = objects := by
  induction objects using List.reverseRecOn with
  | nil => rfl
  | append_singleton front obj induction =>
      rw [processed_snoc, includeNext, List.map_append, induction]
      rfl

theorem Resolver.map_obj_included (resolver : Resolver) :
    resolver.included.map ProcessedObject.obj = resolver.objects :=
  map_obj_processed resolver.objects

namespace ProcessedObject

theorem merges_of_excluding {input : ProcessedObject} {name : Name} {sym : InputSymbol}
    (merges : input.merges name sym = true) :
    ProcessedObject.merges ⟨input.obj, []⟩ name sym = true := by
  simp only [ProcessedObject.merges, SymbolTable.skipsSymbol, Bool.and_eq_true,
    Bool.not_eq_true', Bool.or_eq_false_iff] at merges ⊢
  refine ⟨⟨merges.1.1, ?_⟩, merges.2⟩
  cases sym.sectionIndex <;> simp

theorem refersTo_of_stronglyReferences {input : ProcessedObject} {name : Name}
    (references : input.stronglyReferences name = true) :
    input.obj.refersTo name = true := by
  rw [stronglyReferences, List.any_eq_true] at references
  rcases references with ⟨sym, isSym, holds⟩
  rw [Bool.and_eq_true] at holds
  rw [InputObject.refersTo, stronglyReferences, List.any_eq_true]
  exact ⟨sym, isSym, by rw [merges_of_excluding holds.1, holds.2]; rfl⟩

theorem namesStrongly_of_references {input : ProcessedObject} {name : Name}
    (references : input.stronglyReferences name = true) :
    input.namesStrongly name = true := by
  rw [stronglyReferences, List.any_eq_true] at references
  rcases references with ⟨sym, isSym, holds⟩
  simp only [Bool.and_eq_true] at holds
  rw [namesStrongly, List.any_eq_true]
  exact ⟨sym, isSym, by rw [holds.1, holds.2.2]; rfl⟩

theorem mem_memberDefines {input : ProcessedObject} {name : Name}
    (defines : input.defines name = true) : name ∈ memberDefines input.obj := by
  rw [ProcessedObject.defines, List.any_eq_true] at defines
  rcases defines with ⟨sym, isSym, holds⟩
  simp only [merges, SymbolTable.skipsSymbol, Bool.and_eq_true, Bool.not_eq_true',
    Bool.or_eq_false_iff, beq_iff_eq] at holds
  rcases holds with ⟨⟨⟨⟨notLocal, named⟩, _⟩, rfl⟩, notUndefined⟩
  apply List.mem_map_of_mem
  rw [List.mem_filter]
  exact ⟨isSym, by simp [notUndefined, named, bne, notLocal]⟩

end ProcessedObject

theorem ProcessedObject.stronglyReferences_of_refersTo {input : ProcessedObject} {name : Name}
    (plain : input.obj.Plain) (refers : input.obj.refersTo name = true) :
    input.stronglyReferences name = true := by
  rw [InputObject.refersTo, stronglyReferences, List.any_eq_true] at refers
  rcases refers with ⟨sym, isSym, holds⟩
  rw [stronglyReferences, List.any_eq_true]
  refine ⟨sym, isSym, ?_⟩
  simp only [Bool.and_eq_true] at holds
  have nowhere := plain sym isSym holds.2.1
  simp only [merges, SymbolTable.skipsSymbol, nowhere] at holds ⊢
  simpa using holds

/-! ## Runs of pulls -/

namespace Driven

variable {eager : List InputObject} {forced : List Name} {offered : InputObject → Prop}
variable {resolver : Resolver}

theorem mono {more : InputObject → Prop} (driven : Driven eager forced offered resolver)
    (covers : ∀ obj, offered obj → more obj) : Driven eager forced more resolver := by
  rcases driven.objects with ⟨added, objects, asked⟩
  refine ⟨driven.accounts, added, objects, fun obj inside => ?_⟩
  rcases asked obj inside with ⟨onOffer, wanted, defines, needed⟩
  exact ⟨covers obj onOffer, wanted, defines, needed.mono covers⟩

theorem defined_of_eager (driven : Driven eager forced offered resolver) {name : Name}
    (defined : EagerlyDefined eager name) :
    ∃ input ∈ resolver.included, input.defines name = true := by
  rcases driven.objects with ⟨added, objects, _⟩
  rcases processed_append eager added with ⟨more, split⟩
  rcases defined with ⟨input, inside, defines⟩
  refine ⟨input, ?_, defines⟩
  rw [Resolver.included, objects, split]
  exact List.mem_append_left _ inside

theorem needed (driven : Driven eager forced offered resolver) {name : Name}
    (strong : resolver.symbols.stronglyUndefined name = true) :
    Needed eager forced offered name := by
  rw [driven.accounts.strong, Bool.and_eq_true, Bool.not_eq_true', driven.accounts.defined,
    List.any_eq_false, Bool.or_eq_true] at strong
  rcases strong with ⟨undefined, demanded⟩
  have missing : ¬ EagerlyDefined eager name := by
    intro defined
    rcases driven.defined_of_eager defined with ⟨input, inside, defines⟩
    exact undefined input inside defines
  rcases demanded with isForced | named
  · exact .forced (List.contains_iff_mem.mp isForced) missing
  · rw [List.any_eq_true] at named
    rcases named with ⟨input, inside, names⟩
    have refers : input.obj.refersTo name = true := by
      apply ProcessedObject.refersTo_of_stronglyReferences
      rw [← ProcessedObject.namesStrongly_eq (Bool.not_eq_true _ ▸ undefined input inside)]
      exact names
    have isObject : input.obj ∈ resolver.objects := by
      rw [← resolver.map_obj_included]
      exact List.mem_map_of_mem inside
    rcases driven.objects with ⟨added, objects, asked⟩
    rw [objects, List.mem_append] at isObject
    rcases isObject with isEager | isAdded
    · exact .eager isEager refers missing
    · rcases asked _ isAdded with ⟨onOffer, wanted, defines, askedFor⟩
      exact .offered onOffer defines askedFor refers missing

theorem pull (driven : Driven eager forced offered resolver) {next : Resolver}
    {obj : InputObject} {name : Name} (onOffer : offered obj)
    (defines : name ∈ memberDefines obj)
    (strong : resolver.symbols.stronglyUndefined name = true)
    (resolved : resolver.resolve obj = .ok next) :
    AskedFor eager forced offered obj ∧ Driven eager forced offered next := by
  have asked : AskedFor eager forced offered obj :=
    ⟨onOffer, name, defines, driven.needed strong⟩
  refine ⟨asked, (driven.accounts.resolve resolved).1, ?_⟩
  rcases driven.objects with ⟨added, objects, allAsked⟩
  refine ⟨added ++ [obj], ?_, ?_⟩
  · rw [Resolver.objects_resolve resolved, objects, List.append_assoc]
  · intro one inside
    rcases List.mem_append.mp inside with inside | inside
    · exact allAsked one inside
    · rw [List.mem_singleton.mp inside]
      exact asked

theorem run {first second : Resolver} {pulled : List InputObject}
    (driven : Driven eager forced offered first) (pulls : first.Pulls pulled second)
    (onOffer : ∀ obj ∈ pulled, offered obj) :
    Driven eager forced offered second ∧
      ∀ obj ∈ pulled, AskedFor eager forced offered obj := by
  induction pulls with
  | none resolver => exact ⟨driven, by simp⟩
  | pull defines strong resolved _ induction =>
      rcases driven.pull (onOffer _ (List.mem_cons_self ..)) defines strong resolved with
        ⟨asked, nextDriven⟩
      rcases induction nextDriven fun obj inside =>
        onOffer obj (List.mem_cons_of_mem _ inside) with ⟨finalDriven, allAsked⟩
      refine ⟨finalDriven, fun obj inside => ?_⟩
      rcases List.mem_cons.mp inside with rfl | inside
      · exact asked
      · exact allAsked obj inside

theorem reaches {added : List InputObject} (accounts : resolver.Accounts forced)
    (objects : resolver.objects = eager ++ added)
    (plain : ∀ obj ∈ resolver.objects, obj.Plain)
    (closed : ∀ obj, offered obj → obj ∉ added → ∀ name ∈ memberDefines obj,
      resolver.symbols.stronglyUndefined name = false)
    (apart : ∀ obj, offered obj → obj ∉ added → ∀ other ∈ added, Apart obj other)
    {obj : InputObject} (asked : AskedFor eager forced offered obj) : obj ∈ added := by
  rcases processed_append eager added with ⟨more, split⟩
  have included : resolver.included = (processed eager).2 ++ more := by
    rw [Resolver.included, objects, split]
  have mapped : more.map ProcessedObject.obj = added := by
    have whole := resolver.map_obj_included
    rw [included, List.map_append, map_obj_processed, objects] at whole
    exact List.append_cancel_left whole
  -- A name that is missing and demanded is defined by what was added, if it is not wanted.
  have settled : ∀ name, ¬ EagerlyDefined eager name →
      (name ∈ forced ∨ ∃ one ∈ resolver.objects, one.refersTo name = true) →
      ∀ obj, offered obj → name ∈ memberDefines obj → obj ∈ added := by
    intro name missing demanded obj onOffer defines
    by_contra outside
    have quiet := closed obj onOffer outside name defines
    have isDemanded : (forced.contains name ||
        resolver.included.any fun input => input.namesStrongly name) = true := by
      rw [Bool.or_eq_true]
      rcases demanded with isForced | ⟨one, isObject, refers⟩
      · exact .inl (List.contains_iff_mem.mpr isForced)
      · refine .inr (List.any_eq_true.mpr ?_)
        rw [← resolver.map_obj_included] at isObject
        rcases List.mem_map.mp isObject with ⟨input, inside, rfl⟩
        have isPlain := plain input.obj
          (resolver.map_obj_included ▸ List.mem_map_of_mem inside)
        have references := ProcessedObject.stronglyReferences_of_refersTo isPlain refers
        exact ⟨input, inside, ProcessedObject.namesStrongly_of_references references⟩
    rw [accounts.strong, isDemanded, Bool.and_true, Bool.not_eq_false', accounts.defined,
      List.any_eq_true] at quiet
    rcases quiet with ⟨input, inside, inputDefines⟩
    rw [included, List.mem_append] at inside
    rcases inside with isEager | isMore
    · exact missing ⟨input, isEager, inputDefines⟩
    · have isAdded : input.obj ∈ added := mapped ▸ List.mem_map_of_mem isMore
      exact apart obj onOffer outside input.obj isAdded name defines
        (ProcessedObject.mem_memberDefines inputDefines)
  rcases asked with ⟨onOffer, wanted, defines, needed⟩
  induction needed generalizing obj with
  | forced isForced missing => exact settled _ missing (.inl isForced) obj onOffer defines
  | eager isEager refers missing =>
      refine settled _ missing (.inr ⟨_, ?_, refers⟩) obj onOffer defines
      rw [objects]
      exact List.mem_append_left _ isEager
  | offered otherOffer otherDefines _ refers missing induction =>
      refine settled _ missing (.inr ⟨_, ?_, refers⟩) obj onOffer defines
      rw [objects]
      exact List.mem_append_right _ (induction otherOffer otherDefines)

end Driven

end Peony
