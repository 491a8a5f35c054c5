import Peony.Daemon.State
import Peony.Foundation.GuardedRun

namespace Peony

/-! Links of one command line, by one-shot processes and by the daemon, step by
step, with an editor that rewrites inputs between any two steps. A link looks at
the inputs, leaves the output, and records the fingerprints it then finds. -/

/-- The command line: what is linked, into what, with which arguments. -/
structure Command where
  output : Path
  inputs : List Path
  argsHash : UInt64

/-- A link under way. -/
structure Process where
  byDaemon : Bool
  /-- The content of the inputs it has looked at: those it read, and those whose
  fingerprint told it that they are as the output has them. -/
  seen : Path → Option (List UInt8)
  /-- The inputs it has still to read. -/
  pending : List Path
  emitted : Bool

/-- The link once it has read the first pending input. -/
def Process.reading (process : Process) (path : Path) (rest : List Path)
    (bytes : List UInt8) : Process :=
  { process with
    seen := Function.update process.seen path (some bytes)
    pending := rest }

@[simp] theorem seen_reading_self (process : Process) (path : Path)
    (rest : List Path) (bytes : List UInt8) :
    (process.reading path rest bytes).seen path = some bytes :=
  Function.update_self ..

theorem seen_reading_of_ne (process : Process) {path other : Path}
    (rest : List Path) (bytes : List UInt8) (different : other ≠ path) :
    (process.reading path rest bytes).seen other = process.seen other :=
  Function.update_of_ne different ..

structure Session (Hash : Type) where
  machine : Machine Hash
  /-- The input contents that the last emission saw. -/
  source : Option (Path → Option (List UInt8))
  /-- Whether the output is as the last completed recording left it. -/
  settled : Bool
  process : Option Process
  daemon : Option (DaemonState Hash)

inductive SessionEvent (Hash : Type) where
  /-- The editor replaces an input. -/
  | edit (path : Path) (bytes : List UInt8)
  /-- A one-shot link that parses every input. -/
  | startFull
  /-- A one-shot link that parses the changed inputs only. -/
  | startRelink
  | loadDaemon
  | request (argsHash : UInt64)
  | read
  | emit
  /-- The link records the output; a one-shot link brings the metadata. -/
  | record (sections : List SectionRecord) (symbols : List CachedSymbolEntry)
      (frontEnd : Option (FrontEndSnapshot Hash)) (layout : Layout)
      (layoutBlob : Option (List UInt8))
  /-- A relink is declined before it writes. -/
  | giveUp
  /-- The process that links is killed. -/
  | kill

variable {Hash : Type}

namespace Session

def start (Hash : Type) : Session Hash :=
  ⟨Machine.empty Hash, none, false, none, none⟩

def knownContents (source : Path → Option (List UInt8))
    (inputs changed : List Path) (path : Path) : Option (List UInt8) :=
  if path ∈ inputs ∧ path ∉ changed then source path else none

def relinking (byDaemon : Bool) (source : Path → Option (List UInt8))
    (inputs changed : List Path) : Process where
  byDaemon := byDaemon
  seen := knownContents source inputs changed
  pending := changed
  emitted := false

def recordRequest (command : Command) (sections : List SectionRecord)
    (symbols : List CachedSymbolEntry)
    (frontEnd : Option (FrontEndSnapshot Hash)) (layout : Layout) :
    RecordRequest Hash :=
  ⟨command.output, command.inputs, command.argsHash, sections, symbols,
    frontEnd, layout⟩

variable [DecidableEq Hash]
variable (link : List (Option (List UInt8)) → List UInt8)
variable (overlay : List UInt8 → List (Option (List UInt8)) → List UInt8)
variable (backend : Backend Hash) (command : Command)

/-- Whether a one-shot link finds that it has nothing to do. -/
def reuses (session : Session Hash) : Bool :=
  tryReuse session.machine.disk session.machine.cache command.output
    command.inputs command.argsHash

def decision (session : Session Hash) (daemon : DaemonState Hash)
    (requestHash : UInt64) : DaemonState.Decision Hash :=
  daemon.decide backend session.machine.disk session.machine.cache requestHash

/-- The bytes a link leaves. A one-shot link writes everything, or patches an output
that its manifest describes. The daemon patches what changed over whatever it finds,
and what it leaves is the link of what it saw if that was left by a recorded link. -/
def emittedBytes (session : Session Hash) (process : Process) : List UInt8 :=
  if process.byDaemon && !session.settled then
    overlay ((session.machine.disk.contents command.output).getD [])
      (command.inputs.map process.seen)
  else link (command.inputs.map process.seen)

/-- What a link leaves once it has emitted. -/
def emitting (session : Session Hash) (process : Process) : Session Hash :=
  { session with
    machine := { session.machine with
      disk := session.machine.disk.write command.output
        (session.emittedBytes link overlay command process) }
    source := some process.seen
    settled := false
    process := some { process with emitted := true } }

/-- What a link leaves once it has recorded. -/
def recorded (session : Session Hash) (process : Process)
    (request : RecordRequest Hash) (layoutBlob : Option (List UInt8)) :
    Session Hash :=
  let machine :=
    perform session.machine (recordLinkWithSections request layoutBlob)
  { session with
    machine := machine
    settled := true
    process := none
    daemon :=
      if process.byDaemon then
        session.daemon.map (DaemonState.relinked machine.disk machine.cache)
      else session.daemon }

def step (session : Session Hash) : SessionEvent Hash → Option (Session Hash)
  | .edit path bytes =>
      if path ∈ command.inputs then
        some { session with
          machine := { session.machine with
            disk := session.machine.disk.write path bytes } }
      else none
  | .startFull =>
      match session.process with
      | some _ => none
      | none =>
          if session.reuses command then none
          else some { session with
            process := some ⟨false, fun _ => none, command.inputs, false⟩ }
  | .startRelink =>
      match session.process, session.source,
        loadChangedState session.machine.disk session.machine.cache
          command.output command.inputs command.argsHash with
      | none, some source, some state =>
          if session.reuses command || state.changedInputs.isEmpty then none
          else some { session with
            process := some
              (relinking false source command.inputs state.changedInputs) }
      | _, _, _ => none
  | .loadDaemon =>
      (DaemonState.load backend session.machine.disk session.machine.cache
        command.output command.inputs command.argsHash).map fun daemon =>
          { session with daemon := some daemon }
  | .request requestHash =>
      match session.process, session.source, session.daemon with
      | none, some source, some daemon =>
          match session.decision backend daemon requestHash with
          | .fallback state => some { session with daemon := some state }
          | .noChange state => some { session with daemon := some state }
          | .relink state _ =>
              some { session with
                daemon := some state
                process := some
                  (relinking true source command.inputs
                    (state.changedPaths session.machine.disk)) }
      | _, _, _ => none
  | .read =>
      match session.process with
      | some process =>
          match process.pending with
          | path :: rest =>
              (session.machine.disk.contents path).map fun bytes =>
                { session with
                  process := some (process.reading path rest bytes) }
          | [] => none
      | none => none
  | .emit =>
      match session.process with
      | some process =>
          if process.pending = [] ∧ process.emitted = false then
            some (session.emitting link overlay command process)
          else none
      | none => none
  | .record sections symbols frontEnd layout layoutBlob =>
      match session.process with
      | some process =>
          if process.emitted then
            if process.byDaemon then
              session.daemon.map fun daemon =>
                session.recorded process daemon.recordRequest none
            else
              some (session.recorded process
                (recordRequest command sections symbols frontEnd layout)
                layoutBlob)
          else none
      | none => none
  | .giveUp =>
      match session.process with
      | some process =>
          if process.emitted then none
          else some { session with process := none }
      | none => none
  | .kill =>
      match session.process with
      | some process =>
          some { session with
            process := none
            daemon := if process.byDaemon then none else session.daemon }
      | none => none

/-- The output is the link of the present inputs. -/
def UpToDate (session : Session Hash) : Prop :=
  session.machine.disk.contents command.output =
    some (link (command.inputs.map session.machine.disk.contents))

/-- Somebody reports that nothing changed: a one-shot link that reuses the output
or the daemon. -/
def ReportsNoChange (session : Session Hash) : Prop :=
  session.reuses command = true ∨
    ∃ daemon requestHash state, session.daemon = some daemon ∧
      session.decision backend daemon requestHash = .noChange state

/-- The file an event writes, of those that can be inputs. -/
def written (event : SessionEvent Hash) : Option Path :=
  match event with
  | .edit path _ => some path
  | .emit => some command.output
  | _ => none

def isEmit (event : SessionEvent Hash) : Bool :=
  match event with
  | .emit => true
  | _ => false

/-- No input is rewritten between the moment the running link looks at it and the
recording of its fingerprint, and the daemon patches no output but one that a recorded
link left. -/
structure Undisturbed (session : Session Hash) (event : SessionEvent Hash) : Prop where
  unread : ∀ process path, session.process = some process →
    written command event = some path → process.seen path = none
  settled : ∀ process, session.process = some process → process.byDaemon = true →
    isEmit event = true → session.settled = true

instance (session : Session Hash) (event : SessionEvent Hash) :
    Decidable (session.Undisturbed command event) :=
  match found : session.process with
  | none => isTrue ⟨by simp [found], by simp [found]⟩
  | some process =>
      decidable_of_iff
        ((∀ path, written command event = some path → (process.seen path).isNone) ∧
          (process.byDaemon = true → isEmit event = true → session.settled = true))
        (by
          constructor
          · rintro ⟨unread, settled⟩
            constructor
            · intro other path same wrote
              cases found.symm.trans same
              exact Option.isNone_iff_eq_none.mp (unread path wrote)
            · intro other same
              cases found.symm.trans same
              exact settled
          · intro undisturbed
            exact ⟨fun path wrote => Option.isNone_iff_eq_none.mpr
              (undisturbed.unread process path found wrote),
              undisturbed.settled process found⟩)

end Session

end Peony
