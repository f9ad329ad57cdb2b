import PyCircuit.Lib.Locking
import PyCircuit.Publication.Protocol
import Mathlib.Data.String.Basic
import Mathlib.Data.List.Lex
import Mathlib.Data.List.Sort

/-!
# Lock sets

The commands of `_publication.py` as programs of a process: steps on the files of a destination and
on its control directory, and requests and releases of its lock. `lockSet` is
`_publication_lock_set` together with what the caller does under the locks, `recoverPublication` is
`_recover_publication`, `readPublished` is `_read_published`, and `publishLocked` is
`_publish_artifact` without a lock set of the caller.

The two `while True` loops run for at most `fuel` rounds. A program that has no round left raises;
what is shown about every program for every `fuel` holds for every initial part of the loop.
-/

set_option autoImplicit false

namespace PyCircuit.Publication

open PyCircuit.Lib

/-! ## Destinations -/

/-- The components of an absolute path. -/
abbrev Location := List String

/-- A destination, as `_paths_for` splits it. -/
structure Destination where
  parent : Location
  name : String
  deriving DecidableEq, Repr

/-- `paths.destination`. -/
def Destination.location (d : Destination) : Location := d.parent ++ [d.name]

/-- `paths.control`. -/
def Destination.control (d : Destination) : Location :=
  d.parent ++ ["." ++ d.name ++ ".pycircuit-publication"]

/-- `str` of a path. -/
def locationText (l : Location) : String :=
  match l with
  | "/" :: rest => "/" ++ String.intercalate "/" rest
  | l => String.intercalate "/" l

section Keys

variable (normalize : String → String)

/-- `_normalized_path_parts`, where `normalize` is the normal form of one component. -/
def normalizedPathParts (l : Location) : List String := l.map normalize

/-- `_paths_conflict`. -/
def pathsConflict (left right : Location) : Bool :=
  let leftParts := normalizedPathParts normalize left
  let rightParts := normalizedPathParts normalize right
  let limit := min leftParts.length rightParts.length
  leftParts.take limit == rightParts.take limit

/-- The key by which the entries of a lock set are sorted and found. -/
def Destination.key (d : Destination) : List String := normalizedPathParts normalize d.location

end Keys

/-! ## Steps -/

/-- The steps on the control directory, its marker `owner.json` and its lock file. -/
inductive ControlOp where
  | kind (f : ControlFile)
  | mkdir
  | create
  | list
  | readJson (f : ControlFile)
  | openTruncate
  | write (value : Json)
  | replace
  | unlink
  | sync

@[reducible] def ControlAns : ControlOp → Type
  | .kind _ => Option Kind
  | .list => List String
  | .readJson _ => Json
  | _ => Unit

/-- The steps of a command. `enter` and `leave` are the call of a read callback and its end. -/
inductive HostOp (ι : Type) where
  | file (d : Destination) (o : Op ι)
  | control (d : Destination) (o : ControlOp)
  | enter (d : Destination)
  | leave (d : Destination)

@[reducible] def HostAns {ι : Type} : HostOp ι → Type
  | .file _ o => Ans o
  | .control _ o => ControlAns o
  | .enter _ => Unit
  | .leave _ => Unit

/-- A program of a process that works on published artifacts. -/
abbrev CommandProg (ι α : Type) : Type := LockProg (HostOp ι) HostAns Destination Fault α

section Programs

variable {ι α : Type}

/-- A program over the files of one destination, as a part of a command. -/
def onFiles (d : Destination) : FileProg ι α → CommandProg ι α
  | .pure a => .pure a
  | .raise e => .raise e
  | .call o next => .call (.op (.file d o)) fun r => onFiles d (next r)

/-- One step on the control directory. -/
def onControl (d : Destination) (o : ControlOp) : CommandProg ι (ControlAns o) :=
  Prog.perform (LockOp.op (HostOp.control d o))

/-- `flock` on the lock file of a destination. -/
def acquire (d : Destination) (shared : Bool) : CommandProg ι Unit :=
  Prog.perform (LockOp.lock d shared)

def release (d : Destination) : CommandProg ι Unit :=
  Prog.perform (LockOp.unlock d)

/-- `with fs.lock(paths.lock, shared=shared)`. -/
def withLock (d : Destination) (shared : Bool) (body : CommandProg ι α) : CommandProg ι α := do
  acquire d shared
  let a ← Prog.tryCatch body fun e => do
    release d
    throw e
  release d
  pure a

/-! ## The control directory -/

/-- `_CONTROL_NAMES`. -/
def controlNames : List String :=
  ["owner.json", "owner.json.tmp", "lock", "journal.json", "journal.json.tmp", "stage", "previous"]

/-- The record in `owner.json`. -/
def controlMarker (d : Destination) : Json :=
  .obj [("destination", .str d.name), ("kind", .str "pycircuit-publication-control")]

/-- A string field of a record has the given value. -/
def Json.hasText (fields : List (String × Json)) (name value : String) : Bool :=
  match Json.get? fields name with
  | some (.str s) => s == value
  | _ => false

/-- `value == expected` for the marker of a destination. -/
def isControlMarker (d : Destination) : Json → Bool
  | .obj fields =>
    Json.closed fields ["destination", "kind"] && Json.hasText fields "destination" d.name &&
      Json.hasText fields "kind" "pycircuit-publication-control"
  | _ => false

/-- `_read_control_owner`. -/
def readControlOwner (d : Destination) : CommandProg ι Unit := do
  let value ← onControl d (.readJson .owner)
  if isControlMarker d value then pure ()
  else throw (.publication "publication control owner is invalid" none)

/-- The control directory is listed and holds nothing but the names of the protocol. -/
def listControl (d : Destination) : CommandProg ι (List String) := do
  let entries ← onControl d .list
  if entries.all controlNames.contains then pure entries
  else throw (.publication "publication control contains unknown entries" none)

/-- `except FileExistsError: pass`. -/
def orExists (p : CommandProg ι Unit) : CommandProg ι Unit :=
  Prog.tryCatch p fun e => if e = .os "File exists" then pure () else throw e

/-- `write_json_atomic` for the marker, with its check of the temporary file. -/
def writeMarker (d : Destination) : CommandProg ι Unit := do
  let temporary ← onControl d (.kind .ownerTmp)
  if temporary = none ∨ temporary = some .file then
    onControl d .openTruncate
    onControl d (.write (controlMarker d))
    onControl d .sync
    let value ← onControl d (.readJson .ownerTmp)
    if isControlMarker d value then
      onControl d .replace
      onControl d .sync
    else throw (.publication "publication control owner verification failed" none)
  else throw (.controlFile "publication temporary metadata is not a file" .ownerTmp)

/-- The part of `_bootstrap` under the lock. -/
def initializeControl (d : Destination) : CommandProg ι Unit := do
  let owner ← onControl d (.kind .owner)
  if owner = none then
    writeMarker d
    readControlOwner d
  else pure ()

/-- `_bootstrap` when the control directory has no marker. -/
def bootstrapUnowned (d : Destination) (entries : List String) (lockKind : Option Kind) :
    CommandProg ι Unit := do
  if !entries.all ["lock", "owner.json.tmp"].contains then
    throw (.publication "uninitialized publication control has transaction data" none)
  else if lockKind = none then
    orExists (do
      onControl d .create
      onControl d .sync)
    let created ← onControl d (.kind .lock)
    if created ≠ some .file then
      throw (.publication "publication lock is not a regular file" none)
    else withLock d false (initializeControl d)
  else if lockKind ≠ some .file then
    throw (.publication "publication lock is not a regular file" none)
  else withLock d false (initializeControl d)

/-- The control directory is there, or is made. -/
def openControl (d : Destination) : CommandProg ι Unit := do
  let control ← onControl d (.kind .directory)
  if control = none then
    orExists (do
      onControl d .mkdir
      onControl d .sync)
    let made ← onControl d (.kind .directory)
    if made ≠ some .directory then
      throw (.publication "publication control path is not a directory" none)
    else pure ()
  else if control ≠ some .directory then
    throw (.publication "publication control path is not a directory" none)
  else pure ()

/-- `_bootstrap`. -/
def bootstrap (d : Destination) : CommandProg ι Unit := do
  openControl d
  let entries ← listControl d
  let ownerKind ← onControl d (.kind .owner)
  let lockKind ← onControl d (.kind .lock)
  if ownerKind = none then bootstrapUnowned d entries lockKind
  else if ownerKind ≠ some .file then
    throw (.publication "publication control owner is not a regular file" none)
  else if lockKind ≠ some .file then
    throw (.publication "initialized publication control has no valid lock" none)
  else readControlOwner d

/-- `_require_initialized_control`. -/
def requireInitializedControl (d : Destination) : CommandProg ι Unit := do
  let control ← onControl d (.kind .directory)
  if control ≠ some .directory then
    throw (.publication "unmanaged publication input is not accepted" none)
  else
    let ownerKind ← onControl d (.kind .owner)
    let lockKind ← onControl d (.kind .lock)
    if ownerKind ≠ some .file ∨ lockKind ≠ some .file then
      throw (.publication "publication input control is not initialized" none)
    else readControlOwner d

/-- A metadata path of the transaction is free or a file. -/
def requireMetadata (r : Record) (name : String) : FileProg ι Unit := do
  let actual ← kind (.metadata r)
  if actual = none ∨ actual = some .file then pure ()
  else throw (.publication ("publication metadata is not a file: " ++ name) none)

/-- A transaction path is free, a directory or a file. -/
def requireTransaction (s : Slot) (name : String) : FileProg ι Unit := do
  let actual ← kind (.artifact s)
  if actual = none ∨ actual = some .directory ∨ actual = some .file then pure ()
  else throw (.publication ("publication transaction path is unsafe: " ++ name) none)

/-- `_validate_control`. -/
def validateControl (d : Destination) (cleanupTemporary : Bool) : CommandProg ι Unit := do
  readControlOwner d
  let lockKind ← onControl d (.kind .lock)
  if lockKind ≠ some .file then
    throw (.controlFile ("publication object has type " ++ kindText lockKind ++ ", expected file")
      .lock)
  else
    let _ ← listControl d
    let temporary ← onControl d (.kind .ownerTmp)
    if temporary ≠ none ∧ temporary ≠ some .file then
      throw (.publication "publication metadata is not a file: owner.json.tmp" none)
    else
      onFiles d (requireMetadata .journal "journal.json")
      onFiles d (requireMetadata .journalTmp "journal.json.tmp")
      onFiles d (requireTransaction .stage "stage")
      onFiles d (requireTransaction .previous "previous")
      if cleanupTemporary ∧ temporary = some .file then
        onControl d .unlink
        onControl d .sync
      else pure ()

/-! ## Stable reads -/

/-- A caller's validator. -/
abbrev Validator (ι : Type) : Type := Artifact ι → OwnerFields → Except Fault Unit

/-- The context of the functions of the protocol at a destination. -/
def Destination.context (d : Destination) (isidentifier : String → Bool) (validate : Validator ι) :
    Context ι :=
  ⟨isidentifier, d.name, validate⟩

variable {isidentifier : String → Bool}

/-- `_validate_stable_artifact`, for the validator of the context. -/
def validateStableArtifact (ctx : Context ι) (owner : OwnerFields) : FileProg ι Unit := do
  let actual ← kind (.artifact .destination)
  if actual ≠ some (artifactKind owner) then
    throw (.publication "published stable artifact is missing or unsafe"
      (some (.artifact .destination)))
  else
    Prog.tryCatch (runValidator ctx .destination owner)
      (validationFailed "published stable view validation failed" .destination)

/-- What a reader does under the shared lock before the artifact is read (`_read_published`,
`_publication_lock_set`). The answer tells whether a recovery has to come first. -/
def checkPublished (d : Destination) (mismatch : String) (owner : Owner isidentifier)
    (stable recovery : Validator ι) : FileProg ι Bool := do
  let ctx := d.context isidentifier recovery
  let journal ← readJournal ctx false
  match journal with
  | some j =>
    if j.phase ≠ .committed then pure true
    else if j.owner.fields ≠ owner.fields then throw (.publication mismatch none)
    else
      validateStableState ctx journal
      validateArtifact ctx .destination owner.fields
      validateStableArtifact (d.context isidentifier stable) owner.fields
      pure false
  | none =>
    validateStableState ctx journal
    validateStableArtifact (d.context isidentifier stable) owner.fields
    pure false

/-- `looks` reads of the artifact. -/
def readMany (d : Destination) : Nat → CommandProg ι Unit
  | 0 => pure ()
  | n + 1 => do
      let _ ← onFiles d (act (.read .destination))
      readMany d n

/-- The call of a read callback begins. -/
def enter (d : Destination) : CommandProg ι Unit := Prog.perform (LockOp.op (HostOp.enter d))

/-- The call of a read callback ends. -/
def leave (d : Destination) : CommandProg ι Unit := Prog.perform (LockOp.op (HostOp.leave d))

/-- The call of a read callback: it looks at the artifact any number of times, and returns or
raises. -/
def callback (d : Destination) (looks : Nat) (result : Except Fault Unit) : CommandProg ι Unit := do
  enter d
  readMany d looks
  leave d
  Prog.ofExcept result

/-! ## Lock sets -/

/-- `_PublicationInput`. -/
structure Input (ι : Type) where
  destination : Destination
  owner : Json
  stableValidate : Validator ι
  recoveryValidate : Validator ι

/-- `_PublicationOutput`. -/
structure Output (ι : Type) where
  destination : Destination
  recoveryValidate : Validator ι

/-- `_LockEntry`; the owner and the stable validator are those of an input. -/
inductive LockEntry (isidentifier : String → Bool) (ι : Type) where
  | input (destination : Destination) (owner : Owner isidentifier)
      (stableValidate recoveryValidate : Validator ι)
  | output (destination : Destination) (recoveryValidate : Validator ι)

namespace LockEntry

def destination : LockEntry isidentifier ι → Destination
  | .input d _ _ _ => d
  | .output d _ => d

def exclusive : LockEntry isidentifier ι → Bool
  | .input _ _ _ _ => false
  | .output _ _ => true

def recoveryValidate : LockEntry isidentifier ι → Validator ι
  | .input _ _ _ v => v
  | .output _ v => v

end LockEntry

section Entries

variable (normalize : String → String)

/-- The paths that a pair of entries must keep apart. -/
def conflictOf (left right : LockEntry isidentifier ι) : Option (Location × Location) :=
  let lefts := [left.destination.location, left.destination.control]
  let rights := [right.destination.location, right.destination.control]
  (lefts.product rights).find? fun pair => pathsConflict normalize pair.1 pair.2

/-- The first conflict of an entry with a later one. -/
def firstConflict : List (LockEntry isidentifier ι) → Option (Location × Location)
  | [] => none
  | left :: rest => (rest.findSome? (conflictOf normalize left)).or (firstConflict rest)

/-- The entry of an input; its owner is checked. -/
def inputEntry (isidentifier : String → Bool) (request : Input ι) :
    Except Fault (LockEntry isidentifier ι) :=
  match validateOwner isidentifier request.owner with
  | .ok owner =>
    .ok (.input request.destination owner request.stableValidate request.recoveryValidate)
  | .error m => .error (.publication m none)

/-- Entries without a conflict, sorted by their keys. -/
def orderEntries (entries : List (LockEntry isidentifier ι)) :
    Except Fault (List (LockEntry isidentifier ι)) :=
  match firstConflict normalize entries with
  | some (left, right) =>
    .error (.publication ("publication lock paths are equal or ancestor-related: " ++
      locationText left ++ " and " ++ locationText right) none)
  | none =>
    .ok (entries.insertionSort fun a b =>
      a.destination.key normalize ≤ b.destination.key normalize)

/-- `_lock_entries`. -/
def lockEntries (isidentifier : String → Bool) (inputs : List (Input ι))
    (outputs : List (Output ι)) : Except Fault (List (LockEntry isidentifier ι)) := do
  let shared ← inputs.mapM (inputEntry isidentifier)
  orderEntries normalize (shared ++ outputs.map fun request =>
    .output request.destination request.recoveryValidate)

/-- `_PublicationLocks.require`. -/
def requireLock (entries : List (LockEntry isidentifier ι)) (d : Destination) (exclusive : Bool) :
    Except Fault (LockEntry isidentifier ι) :=
  let refused := Except.error (Fault.publication
    ("publication destination is not held with " ++ (if exclusive then "exclusive" else "shared")
      ++ " access: " ++ locationText d.location) none)
  match entries.find? fun e => e.destination.key normalize == d.key normalize with
  | some entry => if exclusive && !entry.exclusive then refused else .ok entry
  | none => refused

/-- What a command does under its locks: `locks.snapshot`, or a publication with `locks=`. -/
inductive Use (ι : Type) where
  | snapshot (d : Destination) (looks : Nat) (result : Except Fault Unit)
  | publish (d : Destination) (req : Request ι) (validate : Validator ι)

/-- `_PublicationLocks.snapshot`. -/
def snapshot (entries : List (LockEntry isidentifier ι)) (d : Destination) (looks : Nat)
    (result : Except Fault Unit) : CommandProg ι Unit := do
  let entry ← Prog.ofExcept (requireLock normalize entries d false)
  if entry.exclusive then
    throw (.publication "publication output is not an input snapshot" none)
  else callback entry.destination looks result

/-- `_publish_artifact` with the lock set of the caller. -/
def publishHeld (entries : List (LockEntry isidentifier ι)) (d : Destination) (req : Request ι)
    (validate : Validator ι) : CommandProg ι Unit := do
  let entry ← Prog.ofExcept (requireLock normalize entries d true)
  let _ ← onFiles entry.destination
    (publishArtifact (entry.destination.context isidentifier validate) req)
  pure ()

/-- The calls of a command under its locks, one after the other. -/
def runUses (entries : List (LockEntry isidentifier ι)) : List (Use ι) → CommandProg ι Unit
  | [] => pure ()
  | .snapshot d looks result :: rest => do
      snapshot normalize entries d looks result
      runUses entries rest
  | .publish d req validate :: rest => do
      publishHeld normalize entries d req validate
      runUses entries rest

end Entries

/-- Before the locks: the control directory of an output is made, that of an input must be there. -/
def prepareEntries : List (LockEntry isidentifier ι) → CommandProg ι Unit
  | [] => pure ()
  | .input d _ _ _ :: rest => do
      requireInitializedControl d
      prepareEntries rest
  | .output d _ :: rest => do
      bootstrap d
      prepareEntries rest

/-- The locks of all entries, in their order, around `body`. -/
def withLocks : List (LockEntry isidentifier ι) → CommandProg ι α → CommandProg ι α
  | [], body => body
  | entry :: rest, body => withLock entry.destination (!entry.exclusive) (withLocks rest body)

/-- One entry under the locks: an output is recovered, and for an input the answer tells whether it
has to be. -/
def checkEntry : LockEntry isidentifier ι → CommandProg ι Bool
  | .output d recovery => do
      validateControl d true
      onFiles d (recoverLocked (d.context isidentifier recovery))
      pure false
  | .input d owner stable recovery => do
      validateControl d false
      onFiles d (checkPublished d "published input owner does not match" owner stable recovery)

/-- The first input that has to be recovered. -/
def checkEntries :
    List (LockEntry isidentifier ι) → CommandProg ι (Option (LockEntry isidentifier ι))
  | [] => pure none
  | entry :: rest => do
      let recover ← checkEntry entry
      if recover then pure (some entry) else checkEntries rest

/-- `_recover_publication`. -/
def recoverPublication (isidentifier : String → Bool) (d : Destination) (validate : Validator ι) :
    CommandProg ι Unit := do
  bootstrap d
  withLock d false (do
    validateControl d true
    let journal ← onFiles d (readJournal (d.context isidentifier validate) true)
    if journal.isNone then pure ()
    else onFiles d (recoverLocked (d.context isidentifier validate)))

/-- One round of `_publication_lock_set`: the input that has to be recovered, or the end. -/
def lockRound (normalize : String → String) (entries : List (LockEntry isidentifier ι))
    (uses : List (Use ι)) : CommandProg ι (Option (LockEntry isidentifier ι)) := do
  prepareEntries entries
  withLocks entries (do
    let pending ← checkEntries entries
    match pending with
    | some entry => pure (some entry)
    | none =>
      runUses normalize entries uses
      pure none)

/-- The loop of `_publication_lock_set`. -/
def lockRounds (normalize : String → String) (entries : List (LockEntry isidentifier ι))
    (uses : List (Use ι)) : Nat → CommandProg ι Unit
  | 0 => throw (.os "no round left")
  | fuel + 1 => do
      let pending ← lockRound normalize entries uses
      match pending with
      | some entry =>
        recoverPublication isidentifier entry.destination entry.recoveryValidate
        lockRounds normalize entries uses fuel
      | none => pure ()

/-- `_publication_lock_set` and the calls of its `with` statement. -/
def lockSet (isidentifier : String → Bool) (normalize : String → String) (fuel : Nat)
    (inputs : List (Input ι)) (outputs : List (Output ι)) (uses : List (Use ι)) :
    CommandProg ι Unit := do
  let entries ← Prog.ofExcept (lockEntries normalize isidentifier inputs outputs)
  lockRounds normalize entries uses fuel

/-- `_publish_artifact` without a lock set of the caller. -/
def publishLocked (isidentifier : String → Bool) (normalize : String → String) (fuel : Nat)
    (d : Destination) (req : Request ι) (validate : Validator ι) : CommandProg ι Unit :=
  match validateOwner isidentifier req.owner with
  | .error m => throw (.publication m none)
  | .ok _ => lockSet isidentifier normalize fuel [] [⟨d, validate⟩] [.publish d req validate]

/-- One round of `_read_published`. -/
def readRound (d : Destination) (owner : Owner isidentifier) (stable recovery : Validator ι)
    (looks : Nat) (result : Except Fault Unit) : CommandProg ι Bool :=
  withLock d true (do
    validateControl d false
    let recover ← onFiles d
      (checkPublished d "published artifact owner does not match" owner stable recovery)
    if recover then pure true
    else
      callback d looks result
      pure false)

/-- The loop of `_read_published`. -/
def readRounds (d : Destination) (owner : Owner isidentifier) (stable recovery : Validator ι)
    (looks : Nat) (result : Except Fault Unit) : Nat → CommandProg ι Unit
  | 0 => throw (.os "no round left")
  | fuel + 1 => do
      let recover ← readRound d owner stable recovery looks result
      if recover then
        recoverPublication isidentifier d recovery
        readRounds d owner stable recovery looks result fuel
      else pure ()

/-- `_read_published`. -/
def readPublished (isidentifier : String → Bool) (fuel : Nat) (d : Destination) (owner : Json)
    (stable recovery : Validator ι) (looks : Nat) (result : Except Fault Unit) :
    CommandProg ι Unit := do
  match validateOwner isidentifier owner with
  | .error m => throw (.publication m none)
  | .ok expected =>
    requireInitializedControl d
    readRounds d expected stable recovery looks result fuel

/-- The calls that a process makes. -/
inductive Command (ι : Type) where
  | publish (d : Destination) (req : Request ι) (validate : Validator ι)
  | recover (d : Destination) (validate : Validator ι)
  | read (d : Destination) (owner : Json) (stable recovery : Validator ι) (looks : Nat)
      (result : Except Fault Unit)
  | locks (inputs : List (Input ι)) (outputs : List (Output ι)) (uses : List (Use ι))

/-- The program of a call. -/
def Command.program (isidentifier : String → Bool) (normalize : String → String) (fuel : Nat) :
    Command ι → CommandProg ι Unit
  | .publish d req validate => publishLocked isidentifier normalize fuel d req validate
  | .recover d validate => recoverPublication isidentifier d validate
  | .read d owner stable recovery looks result =>
    readPublished isidentifier fuel d owner stable recovery looks result
  | .locks inputs outputs uses => lockSet isidentifier normalize fuel inputs outputs uses

end Programs

end PyCircuit.Publication
