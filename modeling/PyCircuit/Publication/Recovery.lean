import PyCircuit.Publication.Steps

/-!
# Crash recovery of publications

`Reachable` lists the disks that a killed publication, or a killed recovery after it, can leave
behind. Before the commit the old artifact is at the destination or at the previous path, and the
phase of the journal tells which moves may have been made; after it the new artifact is at the
destination and only the previous one may be left.

`recoverLocked_ensures` shows that a recovery keeps this condition at every step, raises no
exception, and ends with the new artifact after a commit and with the old one otherwise.
-/

set_option autoImplicit false

namespace PyCircuit.Publication

open PyCircuit.Lib Prog

section

variable {ι : Type} {ctx : Context ι}

/-- The journal of a publication in the given phase. -/
def Context.journalIn (ctx : Context ι) (owner : Owner ctx.isidentifier)
    (old : Option (Artifact ι)) (phase : Phase) : Journal ctx.isidentifier :=
  ⟨owner, ctx.destinationName, old.isSome, phase⟩

/-- The places of the old and the new artifact between the `prepared` journal and the commit, as
destination, stage and previous. -/
inductive Placed (old : Option (Artifact ι)) (new : Artifact ι) :
    Option (Artifact ι) → Option (Artifact ι) → Option (Artifact ι) → Prop where
  | staged : Placed old new old (some new) none
  | saved (h : old.isSome) : Placed old new none (some new) old
  | installed : Placed old new (some new) none old

/-- The disks that a kill can leave behind. The bit tells whether the journal has been in the phase
`committed`. -/
inductive Reachable (owner : Owner ctx.isidentifier) (old : Option (Artifact ι))
    (new : Artifact ι) : Watched ι → Prop where
  | idle (tmp : Option Metadata) : Reachable owner old new (⟨old, none, none, none, tmp⟩, false)
  | preparing (stage : Option (Artifact ι)) (tmp : Option Metadata)
      (hstage : ∀ a ∈ stage, a.kind = artifactKind owner.fields) :
      Reachable owner old new
        (⟨old, stage, none, (ctx.journalIn owner old .preparing).onDisk, tmp⟩, false)
  | prepared (destination stage previous : Option (Artifact ι)) (tmp : Option Metadata)
      (hplaced : Placed old new destination stage previous) :
      Reachable owner old new
        (⟨destination, stage, previous, (ctx.journalIn owner old .prepared).onDisk, tmp⟩, false)
  | restoring (destination stage previous : Option (Artifact ι)) (tmp : Option Metadata)
      (hplaced : Placed old new destination stage previous) :
      Reachable owner old new
        (⟨destination, stage, previous, (ctx.journalIn owner old .rollbackRestore).onDisk, tmp⟩,
          false)
  | cleaning (stage : Option (Artifact ι)) (tmp : Option Metadata)
      (hstage : ∀ a ∈ stage, a.kind = artifactKind owner.fields) :
      Reachable owner old new
        (⟨old, stage, none, (ctx.journalIn owner old .rollbackCleanup).onDisk, tmp⟩, false)
  | committed (previous : Option (Artifact ι)) (tmp : Option Metadata)
      (hprevious : ∀ a ∈ previous, a.kind = artifactKind owner.fields)
      (hold : old = none → previous = none) :
      Reachable owner old new
        (⟨some new, none, previous, (ctx.journalIn owner old .committed).onDisk, tmp⟩, true)
  | finished : Reachable owner old new (⟨some new, none, none, none, none⟩, true)

/-- The destination starts absent or valid, and the validator accepts exactly the complete old and
the complete new artifact. -/
structure Setting (owner : Owner ctx.isidentifier) (old : Option (Artifact ι))
    (new : Artifact ι) : Prop where
  oldKind : ∀ a ∈ old, a.kind = artifactKind owner.fields
  newKind : new.kind = artifactKind owner.fields
  accepts : ∀ a, ctx.validate a owner.fields = .ok () ↔ some a = old ∨ a = new

variable {owner : Owner ctx.isidentifier} {old : Option (Artifact ι)} {new : Artifact ι}

/-- What the steps rely on: both artifacts have the kind of the owner, and the destination starts
absent or valid. -/
structure Sides (owner : Owner ctx.isidentifier) (old : Option (Artifact ι))
    (new : Artifact ι) : Prop where
  oldKind : ∀ a ∈ old, a.kind = artifactKind owner.fields
  newKind : new.kind = artifactKind owner.fields
  validOld : ∀ a ∈ old, ctx.validate a owner.fields = .ok ()

theorem Setting.sides (h : Setting owner old new) : Sides owner old new where
  oldKind := h.oldKind
  newKind := h.newKind
  validOld := fun a ha => (h.accepts a).mpr (Or.inl ha.symm)

theorem Setting.valid_new (h : Setting owner old new) : ctx.validate new owner.fields = .ok () :=
  (h.accepts new).mpr (Or.inr rfl)

/-- What is at a place has the kind of the owner. -/
abbrev OfKind (owner : Owner ctx.isidentifier) (place : Option (Artifact ι)) : Prop :=
  ∀ a ∈ place, a.kind = artifactKind owner.fields

theorem ofKind_none (owner : Owner ctx.isidentifier) :
    OfKind owner (none : Option (Artifact ι)) := by
  rintro a ⟨⟩

theorem Sides.ofKind_new (h : Sides owner old new) : OfKind owner (some new) := by
  rintro a ⟨⟩
  exact h.newKind

variable {destination stage previous : Option (Artifact ι)}

theorem Placed.kinds (h : Sides owner old new) (hp : Placed old new destination stage previous) :
    OfKind owner destination ∧ OfKind owner stage ∧ OfKind owner previous := by
  cases hp with
  | staged => exact ⟨h.oldKind, h.ofKind_new, ofKind_none owner⟩
  | saved _ => exact ⟨ofKind_none owner, h.ofKind_new, h.oldKind⟩
  | installed => exact ⟨h.ofKind_new, ofKind_none owner, h.oldKind⟩

/-- Before the commit a reachable disk has no journal, or one of an earlier phase. -/
theorem Reachable.uncommitted {d : Disk ι} (hs : Reachable owner old new (d, false)) :
    (∃ tmp, d = ⟨old, none, none, none, tmp⟩) ∨
      ∃ phase ≠ Phase.committed, d.journal = (ctx.journalIn owner old phase).onDisk := by
  cases hs with
  | idle tmp => exact .inl ⟨tmp, rfl⟩
  | preparing stage tmp hstage => exact .inr ⟨.preparing, by decide, rfl⟩
  | prepared d s p tmp hplaced => exact .inr ⟨.prepared, by decide, rfl⟩
  | restoring d s p tmp hplaced => exact .inr ⟨.rollbackRestore, by decide, rfl⟩
  | cleaning stage tmp hstage => exact .inr ⟨.rollbackCleanup, by decide, rfl⟩

/-- The watched bit covers the journal on every disk of `Reachable`. -/
theorem reachable_accounts : Accounts ctx (Reachable owner old new) := by
  rintro ⟨d, b⟩ hs hc
  cases b with
  | true => rfl
  | false =>
    obtain ⟨tmp, rfl⟩ | ⟨phase, hphase, hj⟩ := hs.uncommitted
    · rw [committedOnDisk_of_none rfl] at hc
      cases hc
    · rw [committedOnDisk_of_onDisk hj rfl] at hc
      exact absurd (of_decide_eq_true hc) hphase

/-- The disk after a recovery: the new artifact after a commit, the old one otherwise, and nothing
in the control directory. -/
def recovered (old : Option (Artifact ι)) (new : Artifact ι) (committed : Bool) : Disk ι :=
  ⟨if committed then some new else old, none, none, none, none⟩

/-- The program keeps `Reachable` at every step. -/
abbrev Reaches {α : Type} (owner : Owner ctx.isidentifier) (old : Option (Artifact ι))
    (new : Artifact ι) (p : FileProg ι α) (Q : α → Watched ι → Prop)
    (E : Fault → Watched ι → Prop) (s : Watched ι) : Prop :=
  p.Ensures (watchedStep ctx) (Reachable owner old new) Q E s

/-- The disk before a publication. -/
abbrev initial (old : Option (Artifact ι)) (tmp : Option Metadata) : Watched ι :=
  (⟨old, none, none, none, tmp⟩, false)

/-- A disk with the journal of a publication that is not committed. -/
abbrev pending (owner : Owner ctx.isidentifier) (old : Option (Artifact ι)) (phase : Phase)
    (destination stage previous : Option (Artifact ι)) (tmp : Option Metadata) : Watched ι :=
  (⟨destination, stage, previous, (ctx.journalIn owner old phase).onDisk, tmp⟩, false)

theorem Reachable.removeTmp {s : Watched ι} (hs : Reachable owner old new s) :
    Reachable owner old new ({ s.1 with journalTmp := none }, s.2) := by
  cases hs with
  | idle tmp => exact .idle none
  | preparing stage tmp hstage => exact .preparing stage none hstage
  | prepared d st p tmp hplaced => exact .prepared d st p none hplaced
  | restoring d st p tmp hplaced => exact .restoring d st p none hplaced
  | cleaning stage tmp hstage => exact .cleaning stage none hstage
  | committed previous tmp hprevious hold => exact .committed previous none hprevious hold
  | finished => exact .finished

/-- A journal of the publication is read, and its temporary file is removed. -/
theorem Reachable.readJournal {s : Watched ι} {phase : Phase} {E : Fault → Watched ι → Prop}
    {Q : Option (Journal ctx.isidentifier) → Watched ι → Prop} (hs : Reachable owner old new s)
    (hj : s.1.journal = (ctx.journalIn owner old phase).onDisk)
    (hQ : Q (some (ctx.journalIn owner old phase)) ({ s.1 with journalTmp := none }, s.2)) :
    Reaches owner old new (readJournal ctx true) Q E s :=
  readJournal_ensures_some reachable_accounts hj rfl hs hs.removeTmp hQ

section Rollback

variable (h : Sides owner old new) {E : Fault → Watched ι → Prop}
  {Q : Unit → Watched ι → Prop}
include h

theorem validateUnmoved_old {occupied wrong : String} {journal tmp : Option Metadata}
    {phase : Phase} :
    (validateUnmoved ctx occupied wrong (ctx.journalIn owner old phase)).Observes Disk.step
      ⟨old, stage, none, journal, tmp⟩ (.ok ()) :=
  validateUnmoved_observes rfl rfl h.oldKind h.validOld

/-- In the phase `rollback_cleanup` the stage and the journal are removed. -/
theorem rollbackCleanup_ensures (stage : Option (Artifact ι)) (tmp : Option Metadata)
    (hstage : OfKind owner stage) (hQ : Q () (recovered old new false, false)) :
    Reaches owner old new (rollbackCleanup ctx (ctx.journalIn owner old .rollbackCleanup)) Q E
      (pending owner old .rollbackCleanup old stage none tmp) := by
  have hC : Accounts ctx (Reachable owner old new) := reachable_accounts
  have hempty : ∀ tmp, Reachable owner old new
      (pending owner old .rollbackCleanup old none none tmp) :=
    fun tmp => .cleaning none tmp (ofKind_none owner)
  refine ensures_observe hC (validateUnmoved_old h) ?_
  refine Ensures.bind (removeArtifact_ensures (s := .stage) hC hstage ?_ ?_)
  · intro rest hrest _
    exact Reachable.cleaning rest tmp hrest
  refine Ensures.bind (removeFile_ensures hC (hempty tmp) (hempty none) ?_)
  exact removeFile_ensures hC (hempty none) (Reachable.idle none) hQ

/-- `_restore_previous` moves the new artifact back to the stage and the old one to the
destination, from whichever places they are at. -/
theorem restorePrevious_ensures (tmp : Option Metadata)
    (hplaced : Placed old new destination stage previous)
    (hQ : Q () (pending owner old .rollbackRestore old (some new) none tmp)) :
    Reaches owner old new (restorePrevious ctx (ctx.journalIn owner old .rollbackRestore)) Q E
      (pending owner old .rollbackRestore destination stage previous tmp) := by
  have hC : Accounts ctx (Reachable owner old new) := reachable_accounts
  obtain ⟨hkd, hks, hkp⟩ := hplaced.kinds h
  have hat : ∀ {d s p}, Placed old new d s p →
      Reachable owner old new (pending owner old .rollbackRestore d s p tmp) :=
    fun hp => Reachable.restoring _ _ _ tmp hp
  refine ensures_observe hC (artifactExists_observes (s := .destination) hkd) ?_
  refine ensures_observe hC (artifactExists_observes (s := .stage) hks) ?_
  refine ensures_observe hC (artifactExists_observes (s := .previous) hkp) ?_
  cases hold : old with
  | none =>
    subst hold
    -- without an old artifact only the new one may have to go back to the stage
    cases hplaced with
    | staged => exact ⟨hat .staged, hQ⟩
    | saved hsome => cases hsome
    | installed => exact rename_ensures hC rfl rfl (hat .installed) (hat .staged) hQ
  | some a =>
    subst hold
    cases hplaced with
    | staged => exact ⟨hat .staged, hQ⟩
    | saved hsome => exact rename_ensures hC rfl rfl (hat (.saved hsome)) (hat .staged) hQ
    | installed =>
      refine Ensures.bind
        (rename_ensures hC rfl rfl (hat .installed) (hat (.saved rfl)) ?_)
      exact rename_ensures hC rfl rfl (hat (.saved rfl)) (hat .staged) hQ

theorem rollbackRestore_ensures (tmp : Option Metadata)
    (hplaced : Placed old new destination stage previous)
    (hQ : Q () (recovered old new false, false)) :
    Reaches owner old new (rollbackRestore ctx (ctx.journalIn owner old .rollbackRestore)) Q E
      (pending owner old .rollbackRestore destination stage previous tmp) := by
  have hC : Accounts ctx (Reachable owner old new) := reachable_accounts
  refine Ensures.bind (restorePrevious_ensures h tmp hplaced ?_)
  refine ensures_observe hC (validateUnmoved_old h) ?_
  refine Ensures.bind (writeJournal_ensures hC rfl ?_ ?_ ?_)
  · intro tmp'
    exact Reachable.restoring _ _ _ tmp' .staged
  · exact Reachable.cleaning (some new) none h.ofKind_new
  · exact rollbackCleanup_ensures h (some new) none h.ofKind_new hQ

end Rollback

section Commit

variable (h : Sides owner old new) {E : Fault → Watched ι → Prop}
  {Q : PublicationResult → Watched ι → Prop}
include h

/-- The checks after the commit pass. -/
theorem checkCommitted_observes {journal tmp : Option Metadata}
    (hnew : ctx.validate new owner.fields = .ok ()) (hold : old = none → previous = none) :
    (checkCommitted ctx (ctx.journalIn owner old .committed)).Observes Disk.step
      ⟨some new, none, previous, journal, tmp⟩ (.ok ()) := by
  refine Observes.bind (kind_observes _ _) ?_
  rw [if_neg (by simp [Disk.kind, Disk.slot])]
  refine Observes.bind (validateArtifact_observes (a := new) rfl h.newKind hnew) ?_
  cases hcase : old with
  | none =>
    rw [hold hcase]
    exact Observes.bind (kind_observes _ _) rfl
  | some a => rfl

omit h in
/-- After the commit the previous artifact and the journal are removed. -/
theorem cleanupCommitted_ensures (previous : Option (Artifact ι)) (tmp : Option Metadata)
    (hprevious : OfKind owner previous) (hold : old = none → previous = none)
    (hQ : Q ⟨true, []⟩ (recovered old new true, true)) :
    Reaches owner old new (cleanupCommitted ctx (ctx.journalIn owner old .committed)) Q E
      (⟨some new, none, previous, (ctx.journalIn owner old .committed).onDisk, tmp⟩, true) := by
  have hC : Accounts ctx (Reachable owner old new) := reachable_accounts
  refine Ensures.bind (removeArtifact_ensures (s := .previous) hC hprevious ?_ ?_)
  · intro rest hrest hempty
    exact Reachable.committed rest tmp hrest fun hnil => hempty (hold hnil)
  have hat : ∀ tmp', Reachable owner old new
      (⟨some new, none, none, (ctx.journalIn owner old .committed).onDisk, tmp'⟩, true) :=
    fun tmp' => Reachable.committed none tmp' (ofKind_none owner) fun _ => rfl
  refine Ensures.bind (removeFile_ensures hC (hat tmp) (hat none) ?_)
  refine Ensures.bind (removeFile_ensures hC (hat none) Reachable.finished ?_)
  exact ⟨Reachable.finished, hQ⟩

/-- A committed publication is finished. -/
theorem finishCommitted_ensures (hnew : ctx.validate new owner.fields = .ok ())
    (previous : Option (Artifact ι)) (tmp : Option Metadata)
    (hprevious : OfKind owner previous) (hold : old = none → previous = none)
    (hQ : Q ⟨true, []⟩ (recovered old new true, true)) :
    Reaches owner old new (finishCommitted ctx (ctx.journalIn owner old .committed)) Q E
      (⟨some new, none, previous, (ctx.journalIn owner old .committed).onDisk, tmp⟩, true) :=
  ensures_observe reachable_accounts (checkCommitted_observes h hnew hold)
    (Ensures.tryCatch (cleanupCommitted_ensures previous tmp hprevious hold hQ))

end Commit

section Runs

variable (h : Sides owner old new)
include h

/-- Where a recovery may find the two artifacts, the path combination check passes. -/
theorem validatePreparedCombination_observes {journal tmp : Option Metadata} {phase : Phase}
    (hplaced : Placed old new destination stage previous) :
    (validatePreparedCombination ctx (ctx.journalIn owner old phase)).Observes Disk.step
      ⟨destination, stage, previous, journal, tmp⟩ (.ok ()) := by
  obtain ⟨hkd, hks, hkp⟩ := hplaced.kinds h
  refine Observes.bind (artifactExists_observes (s := .destination) hkd) ?_
  refine Observes.bind (artifactExists_observes (s := .stage) hks) ?_
  refine Observes.bind (artifactExists_observes (s := .previous) hkp) ?_
  cases hold : old with
  | none =>
    subst hold
    cases hplaced with
    | staged => rfl
    | saved hsome => cases hsome
    | installed => rfl
  | some a =>
    subst hold
    cases hplaced with
    | staged | saved hsome | installed => rfl

/-- A recovery of any reachable disk stays among the reachable disks at every step, raises no
exception, and ends in the recovered disk. -/
theorem recoverLocked_ensures {s : Watched ι} (hs : Reachable owner old new s)
    (hnew : s.2 = true → ctx.validate new owner.fields = .ok ()) :
    Reaches owner old new (recoverLocked ctx) (fun _ t => t = (recovered old new s.2, s.2))
      (fun _ _ => False) s := by
  have hC : Accounts ctx (Reachable owner old new) := reachable_accounts
  cases hs with
  | idle tmp =>
    refine Ensures.bind (readJournal_ensures_none hC rfl rfl rfl (Reachable.idle tmp)
      (Reachable.idle none) ?_)
    exact ensures_observe hC (kind_observes _ _)
      (ensures_observe hC (kind_observes _ _) ⟨Reachable.idle none, rfl⟩)
  | preparing stage tmp hstage =>
    refine Ensures.bind (Reachable.readJournal (.preparing stage tmp hstage) rfl ?_)
    refine ensures_observe hC (validateUnmoved_old h) ?_
    refine Ensures.bind (writeJournal_ensures hC rfl ?_ ?_ ?_)
    · intro tmp'
      exact Reachable.preparing stage tmp' hstage
    · exact Reachable.cleaning stage none hstage
    · exact rollbackCleanup_ensures h stage none hstage rfl
  | prepared d st p tmp hplaced =>
    refine Ensures.bind (Reachable.readJournal (.prepared d st p tmp hplaced) rfl ?_)
    refine ensures_observe hC (validatePreparedCombination_observes h hplaced) ?_
    refine Ensures.bind (writeJournal_ensures hC rfl ?_ ?_ ?_)
    · intro tmp'
      exact Reachable.prepared d st p tmp' hplaced
    · exact Reachable.restoring d st p none hplaced
    · exact rollbackRestore_ensures h none hplaced rfl
  | restoring d st p tmp hplaced =>
    refine Ensures.bind (Reachable.readJournal (.restoring d st p tmp hplaced) rfl ?_)
    exact rollbackRestore_ensures h none hplaced rfl
  | cleaning stage tmp hstage =>
    refine Ensures.bind (Reachable.readJournal (.cleaning stage tmp hstage) rfl ?_)
    exact rollbackCleanup_ensures h stage none hstage rfl
  | committed previous tmp hprevious hold =>
    refine Ensures.bind
      (Reachable.readJournal (.committed previous tmp hprevious hold) rfl ?_)
    refine Ensures.bind (finishCommitted_ensures h (hnew rfl) previous none hprevious hold ?_)
    exact ⟨Reachable.finished, rfl⟩
  | finished =>
    refine Ensures.bind (readJournal_ensures_none hC rfl rfl rfl Reachable.finished
      Reachable.finished ?_)
    exact ensures_observe hC (kind_observes _ _)
      (ensures_observe hC (kind_observes _ _) ⟨Reachable.finished, rfl⟩)

end Runs

end

end PyCircuit.Publication
