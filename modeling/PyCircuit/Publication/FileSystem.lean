import PyCircuit.Lib.CrashProgram
import PyCircuit.Publication.Records

/-!
# The files of one publication

The control directory of a destination holds the artifact being built (`stage`), the artifact being
replaced (`previous`), the journal and its temporary file. `Disk` is the content of these paths and
of the destination. `Op` lists the atomic steps of `_publication_fs.py`; the functions after it are
the methods of `_PublicationFileSystem` that the protocol calls, each a program over these steps.

A metadata file is `incomplete` from the moment it is opened for writing until its whole text is
written: no proper initial part of the text of a JSON object is a JSON text.

The fault hooks of the source do nothing outside its tests and are left out, and so are the checks
of symbolic links and volumes, which only concern other processes.
-/

set_option autoImplicit false

namespace PyCircuit.Publication

open PyCircuit.Lib

/-- The answers of `_PublicationFileSystem.kind`. -/
inductive Kind where
  | file
  | directory
  | link
  | other
  deriving DecidableEq, Repr

def Kind.text : Kind → String
  | .file => "'file'"
  | .directory => "'directory'"
  | .link => "'link'"
  | .other => "'other'"

/-- `repr` of the answer of `kind`. -/
def kindText : Option Kind → String
  | none => "None"
  | some k => k.text

/-- A published file or tree. The entries of a tree are listed in the order in which
`os.walk(topdown=False)` visits them; those of a file are its content. -/
structure Artifact (ι : Type) where
  kind : Kind
  items : List ι
  deriving DecidableEq, Repr

/-- Content of a metadata file. -/
inductive Metadata where
  | incomplete
  | complete (value : Json)

/-- The paths that hold artifacts. -/
inductive Slot where
  | destination
  | stage
  | previous
  deriving DecidableEq, Repr

/-- The paths that hold metadata. -/
inductive Record where
  | journal
  | journalTmp
  deriving DecidableEq, Repr

inductive Path where
  | artifact (s : Slot)
  | metadata (r : Record)
  deriving DecidableEq, Repr

/-- The control directory and the files of it that are no part of a transaction. -/
inductive ControlFile where
  | directory
  | owner
  | ownerTmp
  | lock
  deriving DecidableEq, Repr

/-- The exceptions of the publication code. The path is the one named at the end of the message. -/
inductive Fault where
  | publication (message : String) (path : Option Path)
  | cancelled (message : String)
  | fileSystem (message : String) (path : Path)
  | controlFile (message : String) (file : ControlFile)
  | os (message : String)
  deriving DecidableEq, Repr

/-- Content of the paths of one destination. -/
structure Disk (ι : Type) where
  destination : Option (Artifact ι)
  stage : Option (Artifact ι)
  previous : Option (Artifact ι)
  journal : Option Metadata
  journalTmp : Option Metadata

section

variable {ι : Type}

variable (d : Disk ι) (r : Record) (s : Slot)

namespace Disk

def slot (d : Disk ι) : Slot → Option (Artifact ι)
  | .destination => d.destination
  | .stage => d.stage
  | .previous => d.previous

def setSlot (d : Disk ι) : Slot → Option (Artifact ι) → Disk ι
  | .destination, a => { d with destination := a }
  | .stage, a => { d with stage := a }
  | .previous, a => { d with previous := a }

def record (d : Disk ι) : Record → Option Metadata
  | .journal => d.journal
  | .journalTmp => d.journalTmp

def setRecord (d : Disk ι) : Record → Option Metadata → Disk ι
  | .journal, m => { d with journal := m }
  | .journalTmp, m => { d with journalTmp := m }

/-- `_PublicationFileSystem.kind`. -/
def kind (d : Disk ι) : Path → Option Kind
  | .artifact s => (d.slot s).map Artifact.kind
  | .metadata r => (d.record r).map fun _ => .file

@[simp] theorem slot_setSlot (a : Option (Artifact ι)) : (d.setSlot s a).slot s = a := by
  cases s <;> rfl

@[simp] theorem setSlot_setSlot (a b : Option (Artifact ι)) :
    (d.setSlot s a).setSlot s b = d.setSlot s b := by
  cases s <;> rfl

@[simp] theorem setSlot_slot : d.setSlot s (d.slot s) = d := by
  cases s <;> rfl

@[simp] theorem record_setRecord (m : Option Metadata) : (d.setRecord r m).record r = m := by
  cases r <;> rfl

@[simp] theorem setRecord_record : d.setRecord r (d.record r) = d := by
  cases r <;> rfl

end Disk

/-- The atomic steps. `walk` and `read` look at an artifact, `put` is one step of the builder and
`unlinkEntry` removes the first remaining entry of a tree. -/
inductive Op (ι : Type) where
  | kind (p : Path)
  | mkdir (s : Slot)
  | put (s : Slot) (a : Artifact ι)
  | read (s : Slot)
  | walk (s : Slot)
  | unlinkEntry (s : Slot)
  | rmdir (s : Slot)
  | rename (source target : Slot)
  | unlink (p : Path)
  | openTruncate (r : Record)
  | write (r : Record) (value : Json)
  | replace (source target : Record)
  | readJson (r : Record)
  | sync (p : Path)

/-- Type of the answer to a step. -/
@[reducible] def Ans : Op ι → Type
  | .kind _ => Option Kind
  | .read _ => Option (Artifact ι)
  | .walk _ => List ι
  | .readJson _ => Json
  | _ => Unit

/-- One atomic step. -/
def Disk.step : Machine (Op ι) Ans Fault (Disk ι)
  | .kind p, d => (.ok (d.kind p), d)
  | .mkdir s, d =>
    match d.slot s with
    | none => (.ok (), d.setSlot s (some ⟨.directory, []⟩))
    | some _ => (.error (.os "File exists"), d)
  | .put s a, d => (.ok (), d.setSlot s (some a))
  | .read s, d => (.ok (d.slot s), d)
  | .walk s, d => (.ok (((d.slot s).map Artifact.items).getD []), d)
  | .unlinkEntry s, d =>
    match d.slot s with
    | some ⟨k, _ :: items⟩ => (.ok (), d.setSlot s (some ⟨k, items⟩))
    | _ => (.error (.os "No such file or directory"), d)
  | .rmdir s, d =>
    match d.slot s with
    | some ⟨.directory, []⟩ => (.ok (), d.setSlot s none)
    | some ⟨.directory, _ :: _⟩ => (.error (.os "Directory not empty"), d)
    | some _ => (.error (.os "Not a directory"), d)
    | none => (.error (.os "No such file or directory"), d)
  | .rename source target, d =>
    match d.slot source with
    | some a => (.ok (), (d.setSlot source none).setSlot target (some a))
    | none => (.error (.os "No such file or directory"), d)
  | .unlink (.artifact s), d =>
    match d.slot s with
    | some a =>
      if a.kind = .directory then (.error (.os "Is a directory"), d)
      else (.ok (), d.setSlot s none)
    | none => (.error (.os "No such file or directory"), d)
  | .unlink (.metadata r), d =>
    match d.record r with
    | some _ => (.ok (), d.setRecord r none)
    | none => (.error (.os "No such file or directory"), d)
  | .openTruncate r, d => (.ok (), d.setRecord r (some .incomplete))
  | .write r v, d => (.ok (), d.setRecord r (some (.complete v)))
  | .replace source target, d =>
    match d.record source with
    | some m => (.ok (), (d.setRecord source none).setRecord target (some m))
    | none => (.error (.os "No such file or directory"), d)
  | .readJson r, d =>
    match d.record r with
    | some (.complete v) => (.ok v, d)
    | some .incomplete =>
      (.error (.fileSystem "publication metadata is not valid JSON" (.metadata r)), d)
    | none => (.error (.os "No such file or directory"), d)
  | .sync _, d => (.ok (), d)

/-- A program over the files of one publication. -/
abbrev FileProg (ι : Type) (α : Type) : Type := Prog (Op ι) Ans Fault α

/-- The program of one atomic step. -/
def act (o : Op ι) : FileProg ι (Ans o) := Prog.perform o

/-- `_PublicationFileSystem.kind`. -/
def kind (p : Path) : FileProg ι (Option Kind) := act (.kind p)

/-- `_PublicationFileSystem.require_kind`. -/
def requireKind (p : Path) (expected : Kind) : FileProg ι Unit := do
  let actual ← kind p
  if actual = some expected then pure ()
  else throw (.fileSystem ("publication object has type " ++ kindText actual ++ ", expected "
    ++ expected.text) p)

/-- `validate_plain_tree`; the entries of an `Artifact` are plain files and directories. -/
def validatePlainTree (root : Slot) : FileProg ι Unit := do
  requireKind (.artifact root) .directory
  let _ ← act (.walk root)
  pure ()

/-- `_PublicationFileSystem.mkdir`. -/
def mkdir (s : Slot) : FileProg ι Unit := do
  act (.mkdir s)
  act (.sync (.artifact s))

/-- `_PublicationFileSystem.rename`: the destination must be free. -/
def rename (source target : Slot) : FileProg ι Unit := do
  let occupied ← kind (.artifact target)
  if occupied = none then
    act (.rename source target)
    act (.sync (.artifact target))
  else throw (.fileSystem "publication rename destination already exists" (.artifact target))

/-- `_PublicationFileSystem.remove_file`. -/
def removeFile (p : Path) : FileProg ι Unit := do
  match ← kind p with
  | none => pure ()
  | some .file =>
    act (.unlink p)
    act (.sync p)
  | some _ => throw (.fileSystem "publication cleanup expected a file" p)

/-- The loop of `remove_tree` over the entries that `os.walk` lists. -/
def removeEntries (root : Slot) : List ι → FileProg ι Unit
  | [] => pure ()
  | _ :: rest => do
      act (.unlinkEntry root)
      removeEntries root rest

/-- `_PublicationFileSystem.remove_tree`. -/
def removeTree (root : Slot) : FileProg ι Unit := do
  match ← kind (.artifact root) with
  | none => pure ()
  | some _ =>
    validatePlainTree root
    let entries ← act (.walk root)
    removeEntries root entries
    act (.rmdir root)
    act (.sync (.artifact root))

/-- `_PublicationFileSystem.write_json_atomic`. -/
def writeJsonAtomic (final temporary : Record) (value : Json) : FileProg ι Unit := do
  match ← kind (.metadata temporary) with
  | none | some .file =>
    act (.openTruncate temporary)
    act (.write temporary value)
    act (.sync (.metadata temporary))
    act (.replace temporary final)
    act (.sync (.metadata final))
  | some _ =>
    throw (.fileSystem "publication temporary metadata is not a file" (.metadata temporary))

/-- `sync_file`, and `sync_tree` for a tree. -/
def syncArtifact (s : Slot) (expected : Kind) : FileProg ι Unit := do
  if expected = .file then act (.sync (.artifact s))
  else
    validatePlainTree s
    act (.sync (.artifact s))

end

end PyCircuit.Publication
