import Mathlib.Tactic.Common

/-!
# Owner and journal records of a publication

`_publication.py` keeps two JSON records. The owner names the source of an artifact; the journal
names the owner, the destination, whether the destination held an artifact before, and the phase of
the publication. Both are checked field by field before they are used (`_validate_owner`,
`_validate_journal`).

An `Owner` is an owner record together with the proof that its fields pass the checks, so a value
that `_validate_owner` rejects cannot be built. `validateJournal_toJson` is the round trip of the
journal: the record written by `_write_journal` is read back unchanged by `_read_journal`.
-/

set_option autoImplicit false

namespace PyCircuit.Publication

/-- JSON values. The keys of an object are written in sorted order, as `json.dumps(...,
sort_keys=True)` writes them. -/
inductive Json where
  | null
  | bool (b : Bool)
  | num (n : Int)
  | str (s : String)
  | arr (items : List Json)
  | obj (fields : List (String × Json))

/-- `value.get(key)` on a `dict`. -/
def Json.get? : List (String × Json) → String → Option Json
  | [], _ => none
  | (name, value) :: rest, key => if name = key then some value else Json.get? rest key

/-- `set(value) == names`. -/
def Json.closed (fields : List (String × Json)) (names : List String) : Bool :=
  fields.all (fun f => names.contains f.1) && names.all (fun n => (Json.get? fields n).isSome)

/-- The artifact kinds of `_ARTIFACT_KINDS`. -/
inductive OwnerKind where
  | sourceUnit
  | generated
  | program
  | anchor
  deriving DecidableEq, Repr

/-- The two emission targets. -/
inductive Target where
  | cpp
  | verilog
  deriving DecidableEq, Repr

/-- Publication phases, `_PHASES`. -/
inductive Phase where
  | preparing
  | prepared
  | rollbackRestore
  | rollbackCleanup
  | committed
  deriving DecidableEq, Repr

/-- Spelling of a kind in the records. -/
def OwnerKind.text : OwnerKind → String
  | .sourceUnit => "source-unit"
  | .generated => "generated"
  | .program => "program"
  | .anchor => "anchor"

/-- Spelling of a target in the records. -/
def Target.text : Target → String
  | .cpp => "cpp"
  | .verilog => "verilog"

/-- Spelling of a phase in the records. -/
def Phase.text : Phase → String
  | .preparing => "preparing"
  | .prepared => "prepared"
  | .rollbackRestore => "rollback_restore"
  | .rollbackCleanup => "rollback_cleanup"
  | .committed => "committed"

/-- The kind spelled by a string, if there is one. -/
def OwnerKind.ofText : String → Option OwnerKind
  | "source-unit" => some .sourceUnit
  | "generated" => some .generated
  | "program" => some .program
  | "anchor" => some .anchor
  | _ => none

/-- The target spelled by a string, if there is one. -/
def Target.ofText : String → Option Target
  | "cpp" => some .cpp
  | "verilog" => some .verilog
  | _ => none

/-- The phase spelled by a string, if there is one. -/
def Phase.ofText : String → Option Phase
  | "preparing" => some .preparing
  | "prepared" => some .prepared
  | "rollback_restore" => some .rollbackRestore
  | "rollback_cleanup" => some .rollbackCleanup
  | "committed" => some .committed
  | _ => none

@[simp] theorem OwnerKind.ofText_text (k : OwnerKind) : OwnerKind.ofText k.text = some k := by
  cases k <;> rfl

@[simp] theorem Target.ofText_text (t : Target) : Target.ofText t.text = some t := by
  cases t <;> rfl

@[simp] theorem Phase.ofText_text (p : Phase) : Phase.ofText p.text = some p := by
  cases p <;> rfl

/-- The source of an artifact. -/
structure Source where
  package : String
  path : String
  deriving DecidableEq, Repr

/-- Fields of an owner record; the constructor is the `kind` field. -/
inductive OwnerFields where
  | sourceUnit (source : Source)
  | generated (source : Source) (definition : String) (target : Target)
  | program (source : Source) (definition : String)
  | anchor (source : Source) (definition : String)
  deriving DecidableEq, Repr

def OwnerFields.kind : OwnerFields → OwnerKind
  | .sourceUnit _ => .sourceUnit
  | .generated _ _ _ => .generated
  | .program _ _ => .program
  | .anchor _ _ => .anchor

def OwnerFields.source : OwnerFields → Source
  | .sourceUnit s => s
  | .generated s _ _ => s
  | .program s _ => s
  | .anchor s _ => s

section Checks

/- `str.isidentifier` of the host language. -/
variable (isidentifier : String → Bool)

/-- Components between the separators `sep`, as `str.split` gives them. -/
def splitOn (sep : Char) (text : String) : List String :=
  (text.toList.splitOn sep).map String.ofList

/-- `_validate_package`. -/
def validatePackage (package : String) : Except String Unit :=
  if package = "" then .ok ()
  else if (splitOn '.' package).any (fun c => c = "" || !isidentifier c) then
    .error "publication source package is invalid"
  else .ok ()

/-- `PurePosixPath(path).suffix` for a path whose last component is `name`: the text from the last
dot on, when that dot is neither the first nor the last character. -/
def suffix (name : String) : String :=
  let chars := name.toList
  let stem := (chars.reverse.dropWhile (· ≠ '.')).reverse
  let ext := (chars.reverse.takeWhile (· ≠ '.')).reverse
  if stem.length ≤ 1 ∨ ext = [] then "" else String.ofList ('.' :: ext)

/-- `_validate_source_path`. -/
def validateSourcePath (path : String) : Except String Unit :=
  if path = "" ∨ path.toList.contains '\\' ∨ path.toList.contains (Char.ofNat 0) then
    .error "publication source path is invalid"
  else if path.toList.head? = some '/' ∨ suffix ((splitOn '/' path).getLastD "") ≠ ".py" then
    .error "publication source path is invalid"
  else if (splitOn '/' path).any (fun c => ["", ".", ".."].contains c) then
    .error "publication source path is invalid"
  else .ok ()

/-- `_validate_qualified_symbol`. -/
def validateQualifiedSymbol (symbol : String) : Except String Unit :=
  let chars := symbol.toList
  if chars.length < 4 ∨ chars.take 2 ≠ ['@', '"'] ∨ chars.getLast? ≠ some '"' then
    .error "publication definition is not canonical"
  else if (splitOn '.' (String.ofList (chars.drop 2).dropLast)).any
      (fun c => c = "" || !isidentifier c) then
    .error "publication definition is not canonical"
  else .ok ()

/-- The checks `_validate_owner` makes on the values of the fields. -/
def OwnerFields.check (o : OwnerFields) : Except String Unit := do
  validatePackage isidentifier o.source.package
  validateSourcePath o.source.path
  match o with
  | .sourceUnit _ => pure ()
  | .generated _ d _ => validateQualifiedSymbol isidentifier d
  | .program _ d => validateQualifiedSymbol isidentifier d
  | .anchor _ d => validateQualifiedSymbol isidentifier d

/-- A checked owner record. -/
structure Owner where
  fields : OwnerFields
  valid : fields.check isidentifier = .ok ()

/-- The checked record of fields that pass the checks. -/
def Owner.ofFields (o : OwnerFields) : Except String (Owner isidentifier) :=
  match h : o.check isidentifier with
  | .ok () => .ok ⟨o, h⟩
  | .error e => .error e

/-- `_validate_owner`: the field sets are closed, the values are strings and pass the checks. -/
def validateOwner (value : Json) : Except String (Owner isidentifier) := do
  let .obj fields := value | .error "publication owner is not an object"
  let some (.str kind) := Json.get? fields "kind"
    | .error "publication owner fields are not closed"
  let some kind := OwnerKind.ofText kind | .error "publication owner fields are not closed"
  let names := match kind with
    | .sourceUnit => ["kind", "source"]
    | .generated => ["kind", "source", "definition", "target"]
    | .program => ["kind", "source", "definition"]
    | .anchor => ["kind", "source", "definition"]
  if !Json.closed fields names then .error "publication owner fields are not closed"
  let some (.obj source) := Json.get? fields "source"
    | .error "publication source owner fields are not closed"
  if !Json.closed source ["package", "path"] then
    .error "publication source owner fields are not closed"
  let some (.str package) := Json.get? source "package"
    | .error "publication source owner values must be strings"
  let some (.str path) := Json.get? source "path"
    | .error "publication source owner values must be strings"
  -- the values of the source are checked before the definition is looked at
  validatePackage isidentifier package
  validateSourcePath path
  let source : Source := ⟨package, path⟩
  match kind with
  | .sourceUnit => Owner.ofFields isidentifier (.sourceUnit source)
  | .generated =>
    let some (.str definition) := Json.get? fields "definition"
      | .error "publication definition is invalid"
    validateQualifiedSymbol isidentifier definition
    let some (.str target) := Json.get? fields "target"
      | .error "publication target is invalid"
    let some target := Target.ofText target | .error "publication target is invalid"
    Owner.ofFields isidentifier (.generated source definition target)
  | .program =>
    let some (.str definition) := Json.get? fields "definition"
      | .error "publication definition is invalid"
    Owner.ofFields isidentifier (.program source definition)
  | .anchor =>
    let some (.str definition) := Json.get? fields "definition"
      | .error "publication definition is invalid"
    Owner.ofFields isidentifier (.anchor source definition)

/-- The record of an owner. -/
def OwnerFields.toJson (o : OwnerFields) : Json :=
  let source := Json.obj [("package", .str o.source.package), ("path", .str o.source.path)]
  let kind := Json.str o.kind.text
  match o with
  | .sourceUnit _ => .obj [("kind", kind), ("source", source)]
  | .generated _ d t =>
    .obj [("definition", .str d), ("kind", kind), ("source", source), ("target", .str t.text)]
  | .program _ d => .obj [("definition", .str d), ("kind", kind), ("source", source)]
  | .anchor _ d => .obj [("definition", .str d), ("kind", kind), ("source", source)]

/-- A checked journal. -/
structure Journal where
  owner : Owner isidentifier
  destination : String
  hadPrevious : Bool
  phase : Phase

variable {isidentifier}

/-- The record of a journal. -/
def Journal.toJson (j : Journal isidentifier) : Json :=
  .obj [("artifact", .str j.owner.fields.kind.text), ("destination", .str j.destination),
    ("had_previous", .bool j.hadPrevious), ("kind", .str "pycircuit-publication"),
    ("owner", j.owner.fields.toJson), ("phase", .str j.phase.text)]

/-- `_journal`: a new publication starts in the phase `preparing`. -/
def journal (owner : Owner isidentifier) (destination : String) (hadPrevious : Bool) :
    Journal isidentifier :=
  ⟨owner, destination, hadPrevious, .preparing⟩

variable (isidentifier)

/-- `_validate_journal`. -/
def validateJournal (value : Json) (destination : String) :
    Except String (Journal isidentifier) := do
  let .obj fields := value | .error "publication journal is not an object"
  if !Json.closed fields ["kind", "artifact", "destination", "owner", "had_previous", "phase"] then
    .error "publication journal fields are not closed"
  let some (.str "pycircuit-publication") := Json.get? fields "kind"
    | .error "publication journal kind is invalid"
  let some (.str dest) := Json.get? fields "destination"
    | .error "publication journal destination is invalid"
  if dest ≠ destination then .error "publication journal destination is invalid"
  let some (.bool hadPrevious) := Json.get? fields "had_previous"
    | .error "publication journal had_previous is invalid"
  let some (.str phase) := Json.get? fields "phase"
    | .error "publication journal phase is invalid"
  let some phase := Phase.ofText phase | .error "publication journal phase is invalid"
  let owner ← match Json.get? fields "owner" with
    | some v => validateOwner isidentifier v
    | none => .error "publication owner is not an object"
  let some (.str artifact) := Json.get? fields "artifact"
    | .error "publication journal artifact is invalid"
  if artifact ≠ owner.fields.kind.text then .error "publication journal artifact is invalid"
  pure ⟨owner, dest, hadPrevious, phase⟩

variable {isidentifier}

theorem Owner.ofFields_fields (o : Owner isidentifier) :
    Owner.ofFields isidentifier o.fields = .ok o := by
  obtain ⟨fields, valid⟩ := o
  unfold Owner.ofFields
  split
  · rfl
  · rename_i e h
    rw [valid] at h
    cases h

theorem OwnerFields.check_source {o : OwnerFields} (h : o.check isidentifier = .ok ()) :
    validatePackage isidentifier o.source.package = .ok () ∧
      validateSourcePath o.source.path = .ok () := by
  unfold OwnerFields.check at h
  cases hp : validatePackage isidentifier o.source.package with
  | error e => rw [hp] at h; cases h
  | ok u =>
    rw [hp] at h
    cases hs : validateSourcePath o.source.path with
    | error e => rw [hs] at h; cases h
    | ok u => exact ⟨rfl, rfl⟩

theorem OwnerFields.check_definition {s : Source} {d : String} {t : Target}
    (h : (OwnerFields.generated s d t).check isidentifier = .ok ()) :
    validateQualifiedSymbol isidentifier d = .ok () := by
  obtain ⟨hp, hs⟩ := OwnerFields.check_source h
  simpa only [OwnerFields.check, hp, hs, bind, Except.bind] using h

/-- A checked owner passes the check again, with the same fields. -/
theorem validateOwner_toJson (o : Owner isidentifier) :
    validateOwner isidentifier o.fields.toJson = .ok o := by
  have hfields := Owner.ofFields_fields o
  obtain ⟨o, valid⟩ := o
  obtain ⟨hp, hs⟩ := OwnerFields.check_source valid
  cases o with
  | sourceUnit s | program s d | anchor s d =>
    simp only [OwnerFields.source] at hp hs
    simpa [validateOwner, OwnerFields.toJson, OwnerFields.kind, OwnerFields.source, Json.get?,
      Json.closed, hp, hs, bind, Except.bind] using hfields
  | generated s d t =>
    have hd := OwnerFields.check_definition valid
    simp only [OwnerFields.source] at hp hs
    simpa [validateOwner, OwnerFields.toJson, OwnerFields.kind, OwnerFields.source, Json.get?,
      Json.closed, hp, hs, hd, bind, Except.bind] using hfields

/-- The record of a journal is accepted for its own destination and read back unchanged. -/
theorem validateJournal_toJson (j : Journal isidentifier) :
    validateJournal isidentifier j.toJson j.destination = .ok j := by
  have howner := validateOwner_toJson j.owner
  simp [validateJournal, Journal.toJson, Json.get?, Json.closed, howner, bind,
    Except.bind, pure, Except.pure]

end Checks

end PyCircuit.Publication
