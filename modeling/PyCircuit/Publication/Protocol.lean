import PyCircuit.Publication.FileSystem

/-!
# The publication protocol

`publishArtifact` is `_publish_artifact` once the lock of the destination is held, `recoverLocked`
is `_recover_locked`, and the functions before them are the checks and moves they are made of. The
journal on disk decides what a recovery does: a committed publication is finished, any other one is
rolled back.
-/

set_option autoImplicit false

namespace PyCircuit.Publication

open PyCircuit.Lib

/-- `_PublicationResult`. -/
structure PublicationResult where
  committed : Bool
  warnings : List String
  deriving DecidableEq, Repr

def PublicationResult.cleanupPending (r : PublicationResult) : Bool :=
  r.warnings.contains "publication_cleanup_pending"

/-- What the functions share: the name of the destination, the caller's validator, and
`str.isidentifier`. -/
structure Context (ι : Type) where
  isidentifier : String → Bool
  destinationName : String
  validate : Artifact ι → OwnerFields → Except Fault Unit

/-- The arguments of `_publish_artifact`. The builder leaves the contents `drafts` one after the
other at the stage path, and then either raises or leaves its result. -/
structure Request (ι : Type) where
  owner : Json
  replace : Bool
  cancelled : String → Bool
  drafts : List (List ι)
  result : Except Fault (List ι)

section

variable {ι : Type} (ctx : Context ι)

/-- `_artifact_kind`. -/
def artifactKind (owner : OwnerFields) : Kind :=
  if owner.kind = .program then .file else .directory

/-- `_artifact_exists`. -/
def artifactExists (s : Slot) (owner : OwnerFields) : FileProg ι Bool := do
  let actual ← kind (.artifact s)
  if actual = none ∨ actual = some (artifactKind owner) then
    pure (decide (actual = some (artifactKind owner)))
  else throw (.publication ("publication artifact has type " ++ kindText actual ++ ", expected "
    ++ (artifactKind owner).text) (some (.artifact s)))

/-- The call `validate(path, owner)` on what is at the path. -/
def runValidator (s : Slot) (owner : OwnerFields) : FileProg ι Unit := do
  match ← act (.read s) with
  | none => throw (.os "No such file or directory")
  | some a => Prog.ofExcept (ctx.validate a owner)

/-- The `except` clauses around the call: an exception that is no publication error is replaced. -/
def validationFailed (message : String) (s : Slot) : Fault → FileProg ι Unit
  | .publication m p => throw (.publication m p)
  | .cancelled m => throw (.cancelled m)
  | _ => throw (.publication message (some (.artifact s)))

/-- The `try` statement of `_validate_artifact`. -/
def callValidate (s : Slot) (owner : OwnerFields) : FileProg ι Unit :=
  Prog.tryCatch (runValidator ctx s owner)
    (validationFailed "published artifact validation failed" s)

/-- `_validate_artifact`. -/
def validateArtifact (s : Slot) (owner : OwnerFields) : FileProg ι Unit := do
  let expected := artifactKind owner
  let actual ← kind (.artifact s)
  if actual ≠ some expected then
    throw (.publication ("publication artifact has type " ++ kindText actual ++ ", expected "
      ++ expected.text) (some (.artifact s)))
  else
    if expected = .directory ∧ owner.kind ≠ .anchor then validatePlainTree s
    callValidate ctx s owner

/-- `_remove_artifact`. -/
def removeArtifact (s : Slot) (owner : OwnerFields) : FileProg ι Unit := do
  match ← kind (.artifact s) with
  | none => pure ()
  | some actual =>
    if actual ≠ artifactKind owner then
      throw (.publication ("publication cleanup has type " ++ actual.text ++ ", expected "
        ++ (artifactKind owner).text) (some (.artifact s)))
    else if artifactKind owner = .file then removeFile (.artifact s)
    else removeTree s

/-- `_write_journal`: the journal is checked before it is written. -/
def writeJournal (j : Journal ctx.isidentifier) : FileProg ι Unit := do
  match validateJournal ctx.isidentifier j.toJson ctx.destinationName with
  | .error m => throw (.publication m none)
  | .ok _ => writeJsonAtomic .journal .journalTmp j.toJson

/-- `_read_journal`. -/
def readJournal (cleanupTemporary : Bool) :
    FileProg ι (Option (Journal ctx.isidentifier)) := do
  let journalKind ← kind (.metadata .journal)
  let tmpKind ← kind (.metadata .journalTmp)
  if journalKind = none then
    if tmpKind = some .file then
      let stage ← kind (.artifact .stage)
      let previous ← kind (.artifact .previous)
      if stage ≠ none ∨ previous ≠ none then
        throw (.publication "journal temporary exists with transaction directories" none)
      else if cleanupTemporary then removeFile (.metadata .journalTmp)
    pure none
  else
    let value ← act (.readJson .journal)
    match validateJournal ctx.isidentifier value ctx.destinationName with
    | .error m => throw (.publication m none)
    | .ok j =>
      if tmpKind = some .file ∧ cleanupTemporary then removeFile (.metadata .journalTmp)
      pure (some j)

/-- `_validate_stable_state`. -/
def validateStableState (journal : Option (Journal ctx.isidentifier)) : FileProg ι Unit := do
  let stage ← kind (.artifact .stage)
  let previous ← kind (.artifact .previous)
  match journal with
  | none =>
    if stage ≠ none ∨ previous ≠ none then
      throw (.publication "transaction artifacts exist without journal" none)
    else pure ()
  | some j =>
    if j.phase ≠ .committed then
      throw (.publication "stable read requires a committed publication" none)
    else if stage ≠ none then
      throw (.publication "committed publication still has a stage artifact" none)
    else if !j.hadPrevious ∧ previous ≠ none then
      throw (.publication "new committed publication has previous output" none)
    else pure ()

/-- What a reader does first under the shared lock (`_read_published`, `_publication_lock_set`): an
uncommitted journal asks for a recovery, otherwise the state must be stable. -/
def readStableJournal : FileProg ι (Option (Option (Journal ctx.isidentifier))) := do
  let journal ← readJournal ctx false
  match journal with
  | some j =>
    if j.phase ≠ .committed then pure none
    else
      validateStableState ctx journal
      pure (some journal)
  | none =>
    validateStableState ctx journal
    pure (some journal)

/-- The removals at the end of `_finish_committed`. -/
def cleanupCommitted (j : Journal ctx.isidentifier) : FileProg ι PublicationResult := do
  removeArtifact .previous j.owner.fields
  removeFile (.metadata .journalTmp)
  removeFile (.metadata .journal)
  pure ⟨true, []⟩

/-- The checks at the start of `_finish_committed`. -/
def checkCommitted (j : Journal ctx.isidentifier) : FileProg ι Unit := do
  let stage ← kind (.artifact .stage)
  if stage ≠ none then
    throw (.publication "committed publication still has a stage artifact" none)
  else
    validateArtifact ctx .destination j.owner.fields
    if j.hadPrevious then pure ()
    else
      let previous ← kind (.artifact .previous)
      if previous ≠ none then
        throw (.publication "new committed publication has previous output" none)
      else pure ()

/-- The `except OSError` clause of `_finish_committed`: unless the journal is gone, the cleanup is
left to a later recovery. -/
def cleanupFailed : Fault → FileProg ι PublicationResult
  | .os _ => do
      let journal ← kind (.metadata .journal)
      if journal = none then pure ⟨true, []⟩
      else pure ⟨true, ["publication_cleanup_pending"]⟩
  | e => throw e

/-- The `try` statement of `_finish_committed`. -/
def removeCommitted (j : Journal ctx.isidentifier) : FileProg ι PublicationResult :=
  Prog.tryCatch (cleanupCommitted ctx j) cleanupFailed

/-- `_finish_committed`. -/
def finishCommitted (j : Journal ctx.isidentifier) : FileProg ι PublicationResult := do
  checkCommitted ctx j
  removeCommitted ctx j

/-- `_validate_preparing` and `_validate_restored` differ in their messages only: the previous path
is empty and the destination holds a valid artifact exactly when it did before. -/
def validateUnmoved (occupied wrong : String) (j : Journal ctx.isidentifier) : FileProg ι Unit := do
  let previous ← kind (.artifact .previous)
  if previous ≠ none then throw (.publication occupied none)
  else
    let destination ← artifactExists .destination j.owner.fields
    if destination ≠ j.hadPrevious then throw (.publication wrong none)
    else if destination then validateArtifact ctx .destination j.owner.fields
    else pure ()

/-- `_validate_preparing`. -/
def validatePreparing (j : Journal ctx.isidentifier) : FileProg ι Unit :=
  validateUnmoved ctx "preparing transaction unexpectedly has previous output"
    "preparing transaction destination state is invalid" j

/-- `_validate_restored`. -/
def validateRestored (j : Journal ctx.isidentifier) : FileProg ι Unit :=
  validateUnmoved ctx "rollback left a previous artifact"
    "rollback did not restore destination state" j

/-- `_validate_prepared_combination`. -/
def validatePreparedCombination (j : Journal ctx.isidentifier) : FileProg ι Unit := do
  let destination ← artifactExists .destination j.owner.fields
  let stage ← artifactExists .stage j.owner.fields
  let previous ← artifactExists .previous j.owner.fields
  let valid :=
    if j.hadPrevious then
      (previous && !destination) || (previous && destination && !stage)
        || (!previous && destination && stage)
    else !previous && !(destination && stage)
  if !valid then
    throw (.publication "prepared transaction path combination is invalid" none)
  else pure ()

/-- `_restore_previous`. -/
def restorePrevious (j : Journal ctx.isidentifier) : FileProg ι Unit := do
  let destination ← artifactExists .destination j.owner.fields
  let stage ← artifactExists .stage j.owner.fields
  let previous ← artifactExists .previous j.owner.fields
  if j.hadPrevious then
    if previous && !destination then rename .previous .destination
    else if previous && destination && !stage then
      rename .destination .stage
      rename .previous .destination
    else if !previous && destination && stage then pure ()
    else throw (.publication "rollback restore path combination is invalid" none)
  else if previous then
    throw (.publication "new publication unexpectedly has previous output" none)
  else if destination && !stage then rename .destination .stage
  else if !destination then pure ()
  else throw (.publication "new publication rollback state is invalid" none)

/-- `_recover_locked` in the phase `rollback_cleanup`. -/
def rollbackCleanup (j : Journal ctx.isidentifier) : FileProg ι Unit := do
  validateRestored ctx j
  removeArtifact .stage j.owner.fields
  removeFile (.metadata .journalTmp)
  removeFile (.metadata .journal)

/-- `_recover_locked` in the phase `rollback_restore`. -/
def rollbackRestore (j : Journal ctx.isidentifier) : FileProg ι Unit := do
  restorePrevious ctx j
  validateRestored ctx j
  writeJournal ctx { j with phase := .rollbackCleanup }
  rollbackCleanup ctx { j with phase := .rollbackCleanup }

/-- `_recover_locked`. -/
def recoverLocked : FileProg ι Unit := do
  match ← readJournal ctx true with
  | none =>
    let stage ← kind (.artifact .stage)
    let previous ← kind (.artifact .previous)
    if stage ≠ none ∨ previous ≠ none then
      throw (.publication "transaction artifacts exist without journal" none)
    else pure ()
  | some j =>
    match j.phase with
    | .committed =>
      let result ← finishCommitted ctx j
      if result.cleanupPending then
        throw (.publication "committed publication cleanup is still pending" none)
      else pure ()
    | .preparing =>
      validatePreparing ctx j
      writeJournal ctx { j with phase := .rollbackCleanup }
      rollbackCleanup ctx { j with phase := .rollbackCleanup }
    | .prepared =>
      validatePreparedCombination ctx j
      writeJournal ctx { j with phase := .rollbackRestore }
      rollbackRestore ctx { j with phase := .rollbackRestore }
    | .rollbackRestore => rollbackRestore ctx j
    | .rollbackCleanup => rollbackCleanup ctx j

variable (req : Request ι)

/-- `_cancel_or_raise`. -/
def cancelOrRaise (point : String) : FileProg ι Unit :=
  if req.cancelled point then throw (.cancelled ("publication cancelled at " ++ point))
  else pure ()

/-- The builder's contents, one after the other. -/
def putAll (k : Kind) : List (List ι) → FileProg ι Unit
  | [] => pure ()
  | items :: rest => do
      act (.put .stage ⟨k, items⟩)
      putAll k rest

/-- The call `build(paths.stage)`. -/
def build (k : Kind) : FileProg ι Unit := do
  putAll k req.drafts
  match req.result with
  | .ok items => act (.put .stage ⟨k, items⟩)
  | .error e => throw e

/-- The stage is built, checked and flushed. -/
def completeStage (owner : OwnerFields) : FileProg ι Unit := do
  build req (artifactKind owner)
  validateArtifact ctx .stage owner
  syncArtifact .stage (artifactKind owner)
  cancelOrRaise req "after_stage"

/-- `_publish_artifact` from the first journal write to the stage being complete. -/
def prepareStage (j : Journal ctx.isidentifier) : FileProg ι Unit := do
  writeJournal ctx j
  cancelOrRaise req "after_preparing"
  if artifactKind j.owner.fields = .directory then
    mkdir .stage
    completeStage ctx req j.owner.fields
  else completeStage ctx req j.owner.fields

/-- The stage becomes the destination. -/
def installDestination (owner : OwnerFields) : FileProg ι Unit := do
  rename .stage .destination
  cancelOrRaise req "after_destination_installed"
  validateArtifact ctx .destination owner

/-- `_publish_artifact` from the `prepared` journal to the destination being installed. -/
def installStage (j : Journal ctx.isidentifier) : FileProg ι Unit := do
  writeJournal ctx { j with phase := .prepared }
  cancelOrRaise req "after_prepared"
  if j.hadPrevious then
    rename .destination .previous
    cancelOrRaise req "after_previous_saved"
    installDestination ctx req j.owner.fields
  else installDestination ctx req j.owner.fields

/-- The `except Exception` clause. It is entered before the flag `committed` is set, since the
statement after the committed journal write raises nothing. -/
def rollback (e : Fault) : FileProg ι (Option PublicationResult) := do
  match ← readJournal ctx true with
  | some j =>
    if j.phase = .committed then
      let result ← finishCommitted ctx j
      pure (some result)
    else
      recoverLocked ctx
      throw e
  | none =>
    recoverLocked ctx
    throw e

/-- The body of the `try` statement of `_publish_artifact`. -/
def commitJournal (j : Journal ctx.isidentifier) : FileProg ι (Option PublicationResult) := do
  prepareStage ctx req j
  installStage ctx req j
  writeJournal ctx { j with phase := .committed }
  pure none

/-- `_publish_artifact` from the `try` statement on, for the given last call. -/
def publishJournaled (finish : Journal ctx.isidentifier → FileProg ι PublicationResult)
    (j : Journal ctx.isidentifier) : FileProg ι PublicationResult := do
  match ← Prog.tryCatch (commitJournal ctx req j) (rollback ctx) with
  | some result => pure result
  | none => finish { j with phase := .committed }

/-- `_publish_artifact` before the `try` statement: the destination is free or may be replaced. -/
def openTransaction : FileProg ι (Journal ctx.isidentifier) := do
  match validateOwner ctx.isidentifier req.owner with
  | .error m => throw (.publication m none)
  | .ok owner =>
    if req.cancelled "before_prepare" then
      throw (.cancelled "publication cancelled before preparation")
    else
      let hadPrevious ← artifactExists .destination owner.fields
      if hadPrevious then
        if !req.replace then throw (.publication "publication destination already exists" none)
        else
          validateArtifact ctx .destination owner.fields
          pure (journal owner ctx.destinationName true)
      else pure (journal owner ctx.destinationName false)

/-- `_publish_artifact` with another call in the place of `_finish_committed`. -/
def publishWith (finish : Journal ctx.isidentifier → FileProg ι PublicationResult) :
    FileProg ι PublicationResult := do
  let j ← openTransaction ctx req
  publishJournaled ctx req finish j

/-- `_publish_artifact` under the lock of the destination. -/
def publishArtifact : FileProg ι PublicationResult :=
  publishWith ctx req (finishCommitted ctx)

end

end PyCircuit.Publication
