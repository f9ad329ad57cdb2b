import PyCircuit.Publication.Atomicity
import PyCircuit.Lib.Injection

/-!
# Observable failures of a publication

A `Plan` lets one step of `_publish_artifact` raise an exception, in the place of the step or after
it has taken effect. Up to the write of the committed journal the step lies in a part without
handlers, so the exception handler starts from a disk that a kill could have left there
(`run_inject_of_lt`), and `Reachable` tells what it finds. After that write the publication is
committed whatever happens, but the call does not always return: `_finish_committed` catches the
`OSError` of a removal and nothing else.
-/

set_option autoImplicit false

namespace PyCircuit.Publication

open PyCircuit.Lib
open Prog hiding pure

section

variable {ι : Type} {ctx : Context ι}

/-! ## Parts without handlers -/

section Abrupt

variable {R : Fault → Fault → Prop} (hR : ∀ e, R e e)

include hR

theorem act_abrupt (o : Op ι) : (act o).Abrupt R := Abrupt.perform hR o

theorem kind_abrupt (p : Path) : (kind p : FileProg ι (Option Kind)).Abrupt R :=
  act_abrupt hR (.kind p)

theorem validatePlainTree_abrupt (s : Slot) : (validatePlainTree s : FileProg ι Unit).Abrupt R :=
  .bind (.bind (kind_abrupt hR _) fun _ => .ite trivial trivial) fun _ =>
    .bind (act_abrupt hR (.walk s)) fun _ => trivial

theorem rename_abrupt (source target : Slot) :
    (rename source target : FileProg ι Unit).Abrupt R :=
  .bind (kind_abrupt hR _) fun _ =>
    .ite (.bind (act_abrupt hR _) fun _ => act_abrupt hR (.sync _)) trivial

theorem removeFile_abrupt (p : Path) : (removeFile p : FileProg ι Unit).Abrupt R := by
  refine .bind (kind_abrupt hR p) fun actual => ?_
  cases actual with
  | none => trivial
  | some k =>
    cases k with
    | file => exact .bind (act_abrupt hR (.unlink p)) fun _ => act_abrupt hR (.sync p)
    | directory | link | other => trivial

theorem removeEntries_abrupt (s : Slot) (items : List ι) : (removeEntries s items).Abrupt R := by
  induction items with
  | nil => trivial
  | cons x rest ih => exact .bind (act_abrupt hR (.unlinkEntry s)) fun _ => ih

theorem removeTree_abrupt (s : Slot) : (removeTree s : FileProg ι Unit).Abrupt R := by
  refine .bind (kind_abrupt hR _) fun actual => ?_
  cases actual with
  | none => trivial
  | some k =>
    refine .bind (validatePlainTree_abrupt hR s) fun _ => ?_
    refine .bind (act_abrupt hR (.walk s)) fun entries => ?_
    refine .bind (removeEntries_abrupt hR s entries) fun _ => ?_
    exact .bind (act_abrupt hR (.rmdir s)) fun _ => act_abrupt hR (.sync _)

theorem artifactExists_abrupt (s : Slot) (owner : OwnerFields) :
    (artifactExists s owner : FileProg ι Bool).Abrupt R :=
  .bind (kind_abrupt hR _) fun _ => .ite trivial trivial

theorem removeArtifact_abrupt (s : Slot) (owner : OwnerFields) :
    (removeArtifact s owner : FileProg ι Unit).Abrupt R := by
  refine .bind (kind_abrupt hR _) fun actual => ?_
  cases actual with
  | none => trivial
  | some k =>
    exact .ite trivial (.ite (removeFile_abrupt hR _) (removeTree_abrupt hR s))

theorem writeJournal_abrupt (j : Journal ctx.isidentifier) : (writeJournal ctx j).Abrupt R := by
  unfold writeJournal
  cases validateJournal ctx.isidentifier j.toJson ctx.destinationName with
  | error m => trivial
  | ok _ =>
    have hsteps : (do
        act (.openTruncate .journalTmp)
        act (.write .journalTmp j.toJson)
        act (.sync (.metadata .journalTmp))
        act (.replace .journalTmp .journal)
        act (.sync (.metadata .journal)) : FileProg ι Unit).Abrupt R :=
      .bind (act_abrupt hR _) fun _ => .bind (act_abrupt hR (.write _ _)) fun _ =>
        .bind (act_abrupt hR (.sync _)) fun _ => .bind (act_abrupt hR (.replace _ _)) fun _ =>
          act_abrupt hR (.sync _)
    refine .bind (kind_abrupt hR _) fun actual => ?_
    cases actual with
    | none => exact hsteps
    | some k =>
      cases k with
      | file => exact hsteps
      | directory | link | other => trivial

theorem cleanupCommitted_abrupt (j : Journal ctx.isidentifier) :
    (cleanupCommitted ctx j).Abrupt R :=
  .bind (removeArtifact_abrupt hR _ _) fun _ => .bind (removeFile_abrupt hR _) fun _ =>
    .bind (removeFile_abrupt hR _) fun _ => trivial

end Abrupt

/-- An exception ends the program, and may be replaced on the way. -/
abbrev Ends {α : Type} (p : FileProg ι α) : Prop := p.Abrupt fun _ _ => True

theorem validateArtifact_ends (s : Slot) (owner : OwnerFields) :
    Ends (validateArtifact ctx s owner) := by
  have hcall : Ends (callValidate ctx s owner) := by
    refine Abrupt.tryCatch (.bind (act_abrupt (fun _ => trivial) (.read s)) fun a => ?_)
      (validationFailed_raises _ s)
    cases a with
    | none => trivial
    | some a => exact .ofExcept _
  refine .bind (kind_abrupt (fun _ => trivial) _) fun actual => .ite trivial (.ite ?_ hcall)
  exact .bind (validatePlainTree_abrupt (fun _ => trivial) s) fun _ => hcall

section Ends

variable {req : Request ι}

theorem cancelOrRaise_ends (point : String) : Ends (cancelOrRaise req point) :=
  .ite trivial trivial

theorem putAll_ends (k : Kind) (drafts : List (List ι)) : Ends (putAll k drafts) := by
  induction drafts with
  | nil => trivial
  | cons items rest ih =>
    exact .bind (act_abrupt (fun _ => trivial) (.put .stage ⟨k, items⟩)) fun _ => ih

theorem completeStage_ends (owner : OwnerFields) : Ends (completeStage ctx req owner) := by
  have hbuild : Ends (build req (artifactKind owner)) := by
    refine .bind (putAll_ends _ _) fun _ => ?_
    cases req.result with
    | ok items => exact act_abrupt (fun _ => trivial) (.put .stage ⟨artifactKind owner, items⟩)
    | error e => trivial
  refine .bind hbuild fun _ => .bind (validateArtifact_ends _ _) fun _ => .bind ?_ fun _ =>
    cancelOrRaise_ends _
  exact .ite (act_abrupt (fun _ => trivial) (.sync _))
    (.bind (validatePlainTree_abrupt (fun _ => trivial) _) fun _ =>
      act_abrupt (fun _ => trivial) (.sync _))

section

variable (j : Journal ctx.isidentifier)
include j

theorem prepareStage_ends : Ends (prepareStage ctx req j) :=
  .bind (writeJournal_abrupt (fun _ => trivial) j) fun _ => .bind (cancelOrRaise_ends _) fun _ =>
    .ite (.bind (.bind (act_abrupt (fun _ => trivial) (.mkdir _)) fun _ =>
        act_abrupt (fun _ => trivial) (.sync _)) fun _ => completeStage_ends _)
      (completeStage_ends _)

theorem installStage_ends : Ends (installStage ctx req j) := by
  have hinstall : Ends (installDestination ctx req j.owner.fields) :=
    .bind (rename_abrupt (fun _ => trivial) _ _) fun _ => .bind (cancelOrRaise_ends _) fun _ =>
      validateArtifact_ends _ _
  exact .bind (writeJournal_abrupt (fun _ => trivial) _) fun _ => .bind (cancelOrRaise_ends _)
    fun _ => .ite (.bind (rename_abrupt (fun _ => trivial) _ _) fun _ =>
      .bind (cancelOrRaise_ends _) fun _ => hinstall) hinstall

theorem commitJournal_ends : Ends (commitJournal ctx req j) :=
  .bind (prepareStage_ends j) fun _ => .bind (installStage_ends j) fun _ =>
    .bind (writeJournal_abrupt (fun _ => trivial) _) fun _ => trivial

omit j in
theorem openTransaction_ends : Ends (openTransaction ctx req) := by
  unfold openTransaction
  cases validateOwner ctx.isidentifier req.owner with
  | error m => trivial
  | ok owner =>
    refine .ite trivial (.bind (artifactExists_abrupt (fun _ => trivial) _ _) fun _ => ?_)
    exact .ite (.ite trivial (.bind (validateArtifact_ends _ _) fun _ => trivial)) trivial

theorem checkCommitted_ends : Ends (checkCommitted ctx j) :=
  .bind (kind_abrupt (fun _ => trivial) _) fun _ => .ite trivial
    (.bind (validateArtifact_ends _ _) fun _ => .ite trivial
      (.bind (kind_abrupt (fun _ => trivial) _) fun _ => .ite trivial trivial))

end

end Ends

/-! ## The steps of a publication -/

section Steps

variable (ctx) (req : Request ι) (start : Disk ι)

/-- The number of steps up to the write of the committed journal, that write included. -/
def commitSteps : Nat :=
  (publishWith ctx req fun _ => pure ⟨true, []⟩).length Disk.step start

/-- The number of steps up to the first removal after the commit. -/
def checkSteps : Nat :=
  (publishWith ctx req fun j => do
    checkCommitted ctx j
    pure ⟨true, []⟩).length Disk.step start

/-- The number of all steps. -/
def allSteps : Nat :=
  (publishArtifact ctx req).length Disk.step start

/-- The exception is raised after the committed journal has been written, by one of the checks that
come before the removals, or by a removal and is no `OSError`. -/
def RaisedLate : Plan Fault → Prop
  | .clear => False
  | .armed n _ e =>
    commitSteps ctx req start ≤ n ∧ n < allSteps ctx req start ∧
      (n < checkSteps ctx req start ∨ ∀ m, e ≠ .os m)

end Steps

/-! ## A publication that would have succeeded -/

section Struck

variable {owner : Owner ctx.isidentifier} {old : Option (Artifact ι)} {new : Artifact ι}
  {req : Request ι} {tmp : Option Metadata}

/-- The disk and the journal when the body of the `try` statement has been left. -/
def committedDisk (owner : Owner ctx.isidentifier) (old : Option (Artifact ι))
    (new : Artifact ι) : Watched ι :=
  (⟨some new, none, old, (ctx.journalIn owner old .committed).onDisk, none⟩, true)

/-- The two parts of a publication up to the commit, when nothing is raised. -/
structure Commits (owner : Owner ctx.isidentifier) (old : Option (Artifact ι)) (new : Artifact ι)
    (req : Request ι) (tmp : Option Metadata) : Prop where
  opened : (openTransaction ctx req).run (watchedStep ctx) (⟨old, none, none, none, tmp⟩, false) =
    (.ok (ctx.journalIn owner old .preparing), (⟨old, none, none, none, tmp⟩, false))
  committed : (commitJournal ctx req (ctx.journalIn owner old .preparing)).run (watchedStep ctx)
    (⟨old, none, none, none, tmp⟩, false) = (.ok none, committedDisk owner old new)
  built : Built ctx owner req new

section Parts

variable (h : Sides owner old new) (howner : validateOwner ctx.isidentifier req.owner = .ok owner)
  (hbuild : Builds ctx owner req new)

include h howner hbuild

omit hbuild in
theorem openTransaction_watched (tmp : Option Metadata) :
    ∃ r, (openTransaction ctx req).Observes (watchedStep ctx) (initial old tmp)
        r ∧ ∀ j, r = .ok j → j = ctx.journalIn owner old .preparing := by
  obtain ⟨r, hobs, hr⟩ := openTransaction_observes h tmp howner
  refine ⟨r, hobs.watch fun hseen => ?_, hr⟩
  exact absurd (hseen.symm.trans (committedOnDisk_of_none rfl)) (by decide)

/-- A publication that returns has run through both parts. -/
theorem commits_of_run {r : PublicationResult} {d : Disk ι}
    (hrun : (publishArtifact ctx req).run Disk.step ⟨old, none, none, none, tmp⟩ = (.ok r, d)) :
    Commits owner old new req tmp := by
  obtain ⟨hfst, hsnd⟩ := run_watch_fst Disk.step (committedOnDisk ctx) (publishArtifact ctx req)
    ⟨old, none, none, none, tmp⟩ false
  rw [hrun] at hfst hsnd
  have hclean : (publishArtifact ctx req).run (watchedStep ctx)
      (initial old tmp) = (.ok r, d, _) :=
    Prod.ext hfst (Prod.ext hsnd rfl)
  obtain ⟨j, s₁, hopen, hjournaled⟩ := run_bind_inv hclean
  obtain ⟨early, s₂, htry, -⟩ := run_bind_inv hjournaled
  -- nothing but the disk is looked at before the `try` statement
  obtain ⟨r₀, hobs, hr₀⟩ := openTransaction_watched h howner tmp
  have hopen' := hobs.run
  obtain ⟨rfl, rfl⟩ := Prod.mk.inj (hopen.symm.trans hopen')
  obtain rfl := hr₀ j rfl
  have hbody := commitJournal_ensures (R := fun r t => r = none ∧
    Built ctx owner req new ∧ t = committedDisk owner old new)
    (E := fun _ t => Reachable owner old new t ∧ t.2 = false) h tmp hbuild
    (fun _ _ ht hf => ⟨ht, hf⟩) (fun hbuilt => ⟨rfl, hbuilt, rfl⟩)
  rcases run_tryCatch_inv htry with hcommit | ⟨e, u, hraise, hroll⟩
  · obtain ⟨rfl, hbuilt, rfl⟩ := hbody.of_run_ok hcommit
    exact ⟨hopen, hcommit, hbuilt⟩
  · -- the handler would have raised again
    obtain ⟨hu, hfalse⟩ := hbody.of_run_error hraise
    obtain ⟨d', b⟩ := u
    obtain rfl : b = false := hfalse
    exact ((rollback_uncommitted h hu).of_run_ok hroll).elim

/-- The disks inside the body of the `try` statement: once the journal is committed it stays. -/
def InBody (owner : Owner ctx.isidentifier) (old : Option (Artifact ι)) (new : Artifact ι)
    (t : Watched ι) : Prop :=
  Reachable owner old new t ∧ (t.2 = true → t.1.journal ≠ none)

omit howner in
theorem commitJournal_inBody (tmp : Option Metadata) :
    (commitJournal ctx req (ctx.journalIn owner old .preparing)).Ensures (watchedStep ctx)
      (InBody owner old new) (fun _ _ => True) (fun _ _ => True) (initial old tmp) := by
  have huncommitted : ∀ t, Reachable owner old new t ∧ t.2 = false → InBody owner old new t := by
    rintro t ⟨ht, hfalse⟩
    exact ⟨ht, fun htrue => absurd (htrue.symm.trans hfalse) (by decide)⟩
  have hC : Accounts ctx (InBody owner old new) := fun s hs => reachable_accounts s hs.1
  -- the bit is not set before the last write, whatever is raised
  have hprepare := prepareStage_ensures
    (Q := fun _ t => Built ctx owner req new ∧
      t = pending owner old .preparing old (some new) none none)
    (E := fun _ t => t.2 = false) h tmp hbuild (fun _ _ _ hf => hf) (fun hbuilt => ⟨hbuilt, rfl⟩)
  have hprepare' := (hprepare.unset (by rintro _ t ⟨-, rfl⟩; rfl) fun _ _ hf => hf).mono_crash
    huncommitted
  refine Ensures.bind (hprepare'.mono ?_ fun _ _ _ _ => trivial)
  rintro _ t - ⟨hbuilt, rfl⟩
  have hinstall : Reaches owner old new (installStage ctx req _)
      (fun _ t => t = pending owner old .prepared (some new) none old none)
      (fun _ t => t.2 = false) (pending owner old .preparing old (some new) none none) :=
    installStage_ensures h hbuilt.2 (fun _ _ _ hf => hf) rfl
  have hinstall' := (hinstall.unset (by rintro _ t rfl; rfl) fun _ _ hf => hf).mono_crash
    huncommitted
  refine Ensures.bind (hinstall'.mono ?_ fun _ _ _ _ => trivial)
  rintro _ t - rfl
  have hcommitted : InBody owner old new (committedDisk owner old new) :=
    ⟨Reachable.committed old none h.oldKind id, fun _ => Option.some_ne_none _⟩
  refine Ensures.bind (writeJournal_ensures hC rfl ?_ hcommitted ⟨hcommitted, trivial⟩)
  intro tmp'
  exact huncommitted _ ⟨Reachable.prepared _ _ _ tmp' .installed, rfl⟩

end Parts

section Plans

variable (h : Sides owner old new) (hc : Commits owner old new req tmp) {n : Nat}
  (effective : Bool) (e : Fault)

/-- The number of steps before the `try` statement. -/
def openSteps (ctx : Context ι) (req : Request ι) (s : Watched ι) : Nat :=
  (openTransaction ctx req).length (watchedStep ctx) s

/-- The number of steps of the body of the `try` statement. -/
def bodySteps (owner : Owner ctx.isidentifier) (old : Option (Artifact ι)) (req : Request ι)
    (s : Watched ι) : Nat :=
  (commitJournal ctx req (ctx.journalIn owner old .preparing)).length (watchedStep ctx) s

/-- The number of steps of a call that follows the body. -/
abbrev callSteps {α : Type} (owner : Owner ctx.isidentifier) (old : Option (Artifact ι))
    (new : Artifact ι) (call : Journal ctx.isidentifier → FileProg ι α) : Nat :=
  (call (ctx.journalIn owner old .committed)).length (watchedStep ctx) (committedDisk owner old new)

include hc

section

variable (finish : Journal ctx.isidentifier → FileProg ι PublicationResult)
include finish

theorem publishWith_length :
    (publishWith ctx req finish).length Disk.step ⟨old, none, none, none, tmp⟩ =
      openSteps ctx req (initial old tmp) +
        (bodySteps owner old req (initial old tmp) + callSteps owner old new finish) := by
  have hjournaled : (publishJournaled ctx req finish (ctx.journalIn owner old .preparing)).length
      (watchedStep ctx) (initial old tmp) =
        bodySteps owner old req (initial old tmp) + callSteps owner old new finish := by
    refine (length_bind_ok (run_tryCatch_ok hc.committed)).trans ?_
    rw [length_tryCatch_ok hc.committed]
    rfl
  rw [← length_watch Disk.step (committedOnDisk ctx) _ _ false]
  refine (length_bind_ok hc.opened).trans ?_
  rw [hjournaled]
  rfl

/-- An exception planned for after the commit strikes in the last call. -/
theorem publishWith_run_late
    (hn : openSteps ctx req (initial old tmp) + bodySteps owner old req (initial old tmp) ≤ n) :
    (publishWith ctx req finish).run (inject (watchedStep ctx))
        (initial old tmp, .armed n effective e) =
      (finish (ctx.journalIn owner old .committed)).run (inject (watchedStep ctx))
        (committedDisk owner old new,
          .armed (n - openSteps ctx req (initial old tmp) -
            bodySteps owner old req (initial old tmp)) effective e) := by
  have hopen := run_inject_of_length_le effective e
    (Nat.le_trans (Nat.le_add_right _ _) hn)
  rw [hc.opened] at hopen
  have hbody := run_inject_of_length_le effective e
    (p := commitJournal ctx req (ctx.journalIn owner old .preparing))
    (s := initial old tmp) (Nat.le_sub_of_add_le' hn)
  rw [hc.committed] at hbody
  exact (run_bind_ok hopen).trans (run_bind_ok (run_tryCatch_ok hbody))

omit hc in
/-- An exception before the `try` statement leaves the disk as it was. -/
theorem publishWith_struck_open {s : Watched ι} {r : Except Fault (Journal ctx.isidentifier)}
    (hobs : (openTransaction ctx req).Observes (watchedStep ctx) s r)
    (hn : n < openSteps ctx req s) :
    ∃ e', (publishWith ctx req finish).run (inject (watchedStep ctx))
        (s, .armed n effective e) = (.error e', s, .clear) := by
  obtain ⟨e', -, hrun⟩ := run_inject_of_lt effective e
    openTransaction_ends hn
  rw [hobs.crashAfter] at hrun
  exact ⟨e', run_bind_error hrun⟩

include h in
/-- An exception in the body of the `try` statement finds a disk of `InBody`, and the handler
decides by the journal on it. -/
theorem publishWith_struck_body (hbuild : Builds ctx owner req new)
    (hle : openSteps ctx req (initial old tmp) ≤ n)
    (hlt : n < openSteps ctx req (initial old tmp) + bodySteps owner old req (initial old tmp)) :
    (publishWith ctx req finish).run (inject (watchedStep ctx))
          (initial old tmp, .armed n effective e) =
        (.ok ⟨true, []⟩, (recovered old new true, true), .clear) ∨
      ∃ e', (publishWith ctx req finish).run (inject (watchedStep ctx))
          (initial old tmp, .armed n effective e) =
        (.error e', (recovered old new false, false), .clear) := by
  have hopen := run_inject_of_length_le effective e hle
  rw [hc.opened] at hopen
  obtain ⟨e₁, -, hbody⟩ := run_inject_of_lt effective e
    (n := n - openSteps ctx req (initial old tmp))
    (p := commitJournal ctx req (ctx.journalIn owner old .preparing)) (commitJournal_ends _)
    (Nat.sub_lt_left_of_lt_add hle hlt)
  have hcrash := (commitJournal_inBody h hbuild tmp).crashAfter
    (if effective then n - openSteps ctx req (initial old tmp) + 1
      else n - openSteps ctx req (initial old tmp))
  -- the handler runs without a further exception
  have hroll := run_tryCatch_error (rollback ctx) hbody
  rw [run_inject_clear] at hroll
  revert hcrash hroll
  generalize (commitJournal ctx req (ctx.journalIn owner old .preparing)).crashAfter
    (watchedStep ctx) _ _ = t
  obtain ⟨d, b⟩ := t
  rintro ⟨ht, hjournal⟩ hroll
  cases b with
  | false =>
    right
    obtain ⟨-, hno, herr⟩ := (rollback_uncommitted (e := e₁) h ht).run
    cases hres : ((rollback ctx e₁).run (watchedStep ctx) (d, false)).1 with
    | ok early => exact (hno early hres).elim
    | error e' =>
      rw [hres, (herr e' hres).2] at hroll
      exact ⟨e', (run_bind_ok hopen).trans (run_bind_error hroll)⟩
  | true =>
    left
    cases ht with
    | committed previous tmp' hprevious hold =>
      obtain ⟨early, hok, rfl, hend⟩ :=
        (rollback_committed (e := e₁) h hc.built.2 previous tmp' hprevious hold).run_ok
      rw [hok, hend] at hroll
      exact (run_bind_ok hopen).trans (run_bind_ok hroll)
    | finished => exact absurd rfl (hjournal rfl)

end

omit hc in
/-- An `OSError` of a removal is no failure of the call. -/
theorem cleanupFailed_os (ctx : Context ι) (m : String) (d : Disk ι) :
    ∃ w, (cleanupFailed (.os m)).run (watchedStep ctx) (d, true) = (.ok ⟨true, w⟩, (d, true)) := by
  have hkind : (kind (.metadata .journal)).run (watchedStep ctx) (d, true) =
      (.ok (d.kind (.metadata .journal)), (d, true)) := rfl
  by_cases hjournal : d.kind (.metadata .journal) = none
  · refine ⟨[], (run_bind_ok hkind).trans ?_⟩
    rw [if_pos hjournal]
    rfl
  · refine ⟨["publication_cleanup_pending"], (run_bind_ok hkind).trans ?_⟩
    rw [if_neg hjournal]
    rfl

omit hc in
theorem cleanupFailed_other {e : Fault} (he : ∀ m, e ≠ .os m) :
    (cleanupFailed e : FileProg ι PublicationResult) = .raise e := by
  cases e with
  | os m => exact absurd rfl (he m)
  | publication m p | cancelled m | fileSystem m p | controlFile m c => rfl

omit hc in
include h in
/-- A removal that raises leaves a committed publication. The call returns if it was an
`OSError`. -/
theorem removeCommitted_struck :
    ∃ r t plan, (removeCommitted ctx (ctx.journalIn owner old .committed)).run
          (inject (watchedStep ctx)) (committedDisk owner old new, .armed n effective e) =
        (r, t, plan) ∧ Reachable owner old new t ∧ t.2 = true ∧
      ((∃ w, r = .ok ⟨true, w⟩) ↔
        ¬ (n < callSteps owner old new (removeCommitted ctx) ∧ ∀ m, e ≠ .os m)) := by
  have hcleanup : Reaches owner old new (cleanupCommitted ctx (ctx.journalIn owner old .committed))
      (fun r t => r = ⟨true, []⟩ ∧ t = (recovered old new true, true)) (fun _ _ => False)
      (committedDisk owner old new) :=
    cleanupCommitted_ensures old none h.oldKind id ⟨rfl, rfl⟩
  obtain ⟨_, hok, rfl, hend⟩ := hcleanup.run_ok
  have hclean : (cleanupCommitted ctx (ctx.journalIn owner old .committed)).run (watchedStep ctx)
      (committedDisk owner old new) = (.ok ⟨true, []⟩, (recovered old new true, true)) :=
    Prod.ext hok hend
  have hsteps : callSteps owner old new (removeCommitted ctx) =
      callSteps owner old new (cleanupCommitted ctx) := length_tryCatch_ok hclean
  rw [hsteps]
  rcases Nat.lt_or_ge n (callSteps owner old new (cleanupCommitted ctx)) with hstruck | hstruck
  · obtain ⟨_, rfl, hrun⟩ := run_inject_of_lt (R := Eq) effective e
      (cleanupCommitted_abrupt (fun _ => rfl) _) hstruck
    have hcrash := hcleanup.crashAfter (if effective then n + 1 else n)
    have hbit : ((cleanupCommitted ctx (ctx.journalIn owner old .committed)).crashAfter
        (watchedStep ctx) (if effective then n + 1 else n) (committedDisk owner old new)).2 =
          true :=
      crashAfter_watch_of_true Disk.step (committedOnDisk ctx) _ _ _
    revert hrun hcrash hbit
    generalize (cleanupCommitted ctx (ctx.journalIn owner old .committed)).crashAfter
      (watchedStep ctx) (if effective then n + 1 else n) (committedDisk owner old new) = t
    intro hrun hcrash hbit
    obtain ⟨d, b⟩ := t
    obtain rfl : b = true := hbit
    have hhandler := run_tryCatch_error cleanupFailed hrun
    rw [run_inject_clear] at hhandler
    by_cases hos : ∀ m, e ≠ .os m
    · rw [cleanupFailed_other hos] at hhandler
      refine ⟨.error e, _, _, hhandler, hcrash, rfl, ?_, ?_⟩
      · rintro ⟨w, hw⟩
        cases hw
      · intro hnot
        exact absurd ⟨hstruck, hos⟩ hnot
    · obtain ⟨m, hm⟩ := not_forall.mp hos
      obtain rfl := not_not.mp hm
      obtain ⟨w, hw⟩ := cleanupFailed_os ctx m d
      rw [hw] at hhandler
      exact ⟨_, _, _, hhandler, hcrash, rfl, fun _ hboth => hos hboth.2, fun _ => ⟨w, rfl⟩⟩
  · have hremove := run_inject_of_length_le effective e hstruck
    rw [hclean] at hremove
    refine ⟨_, _, _, run_tryCatch_ok hremove, Reachable.finished, rfl, ?_, ?_⟩
    · rintro - ⟨hlt, -⟩
      exact absurd hlt (Nat.not_lt.mpr hstruck)
    · exact fun _ => ⟨[], rfl⟩

include h in
theorem checkCommitted_watched :
    (checkCommitted ctx (ctx.journalIn owner old .committed)).Observes (watchedStep ctx)
      (committedDisk owner old new) (.ok ()) :=
  (checkCommitted_observes h hc.built.2 id).watch
    (reachable_accounts _ (Reachable.committed old none h.oldKind id))

include h in
/-- After the commit the call returns unless a check is struck, or a removal raises something else
than an `OSError`. -/
theorem finishCommitted_struck :
    ∃ r t plan, (finishCommitted ctx (ctx.journalIn owner old .committed)).run
          (inject (watchedStep ctx)) (committedDisk owner old new, .armed n effective e) =
        (r, t, plan) ∧ Reachable owner old new t ∧ t.2 = true ∧
      ((∃ w, r = .ok ⟨true, w⟩) ↔
        ¬ (n < callSteps owner old new (finishCommitted ctx) ∧
          (n < callSteps owner old new (checkCommitted ctx) ∨ ∀ m, e ≠ .os m))) := by
  have hcommitted : Reachable owner old new (committedDisk owner old new) :=
    Reachable.committed old none h.oldKind id
  have hobs := checkCommitted_watched h hc
  have hlength : callSteps owner old new (finishCommitted ctx) =
      callSteps owner old new (checkCommitted ctx) +
        callSteps owner old new (removeCommitted ctx) := length_bind_ok hobs.run
  rw [hlength]
  rcases Nat.lt_or_ge n (callSteps owner old new (checkCommitted ctx)) with hcheck | hcheck
  · obtain ⟨e', -, hrun⟩ := run_inject_of_lt effective e
      (checkCommitted_ends _) hcheck
    rw [hobs.crashAfter] at hrun
    refine ⟨.error e', _, _, run_bind_error hrun, hcommitted, rfl, ?_, ?_⟩
    · rintro ⟨w, hw⟩
      cases hw
    · intro hnot
      exact absurd ⟨Nat.lt_add_right _ hcheck, Or.inl hcheck⟩ hnot
  · have hpass := run_inject_of_length_le effective e hcheck
    rw [hobs.run] at hpass
    obtain ⟨r, t, plan, hrun, ht, hbit, hiff⟩ := removeCommitted_struck h effective e
      (n := n - callSteps owner old new (checkCommitted ctx))
    refine ⟨r, t, plan, (run_bind_ok hpass).trans hrun, ht, hbit, hiff.trans ?_⟩
    refine not_congr (and_congr ?_ ?_)
    · omega
    · exact (or_iff_right (Nat.not_lt.mpr hcheck)).symm

end Plans

/-- The result and the watched disk of a call: the new artifact after a commit, with a result unless
the exception was raised late, and otherwise an exception and the destination as it was. -/
def Outcome (owner : Owner ctx.isidentifier) (old : Option (Artifact ι)) (req : Request ι)
    (late : Prop) (r : Except Fault PublicationResult) (t : Watched ι) : Prop :=
  (t.2 = true → ∃ items, req.result = .ok items ∧
    t.1.destination = some ⟨artifactKind owner.fields, items⟩ ∧ t.1.stage = none ∧
      ((∃ w, r = .ok ⟨true, w⟩) ↔ ¬ late)) ∧
  (t.2 = false → (∃ e, r = .error e) ∧ t.1.destination = old ∧ t.1.stage = none ∧
    t.1.previous = none ∧ t.1.journal = none)

theorem Reachable.destination_of_committed {d : Disk ι} (hd : Reachable owner old new (d, true)) :
    d.destination = some new ∧ d.stage = none := by
  cases hd with
  | committed previous tmp hprevious hold | finished => exact ⟨rfl, rfl⟩

theorem outcome_committed (h : Sides owner old new) (hbuilt : Built ctx owner req new)
    {late : Prop} {r : Except Fault PublicationResult} {t : Watched ι}
    (ht : Reachable owner old new t) (hbit : t.2 = true)
    (hr : (∃ w, r = .ok ⟨true, w⟩) ↔ ¬ late) : Outcome owner old req late r t := by
  obtain ⟨d, b⟩ := t
  obtain rfl : b = true := hbit
  obtain ⟨hdestination, hstage⟩ := ht.destination_of_committed
  refine ⟨fun _ => ⟨new.items, hbuilt.1, ?_, hstage, hr⟩, fun hfalse => nomatch hfalse⟩
  rw [hdestination, ← h.newKind]

theorem outcome_raised {late : Prop} {e : Fault} {tmp : Option Metadata} :
    Outcome owner old req late (.error e) (initial old tmp) :=
  ⟨(fun htrue => nomatch htrue), fun _ => ⟨⟨e, rfl⟩, rfl, rfl, rfl, rfl⟩⟩

/-- The outcome of a publication whose only failure is the planned exception. -/
theorem publishArtifact_struck (h : Sides owner old new)
    (howner : validateOwner ctx.isidentifier req.owner = .ok owner)
    (hbuild : Builds ctx owner req new) (hc : Commits owner old new req tmp) (n : Nat)
    (effective : Bool) (e : Fault) :
    let start : Disk ι := ⟨old, none, none, none, tmp⟩
    let out := (publishArtifact ctx req).run (inject (watchedStep ctx))
      ((start, false), .armed n effective e)
    Outcome owner old req (RaisedLate ctx req start (.armed n effective e)) out.1 out.2.1 := by
  intro start out
  have hcommitSteps : commitSteps ctx req start =
      openSteps ctx req (start, false) + bodySteps owner old req (start, false) :=
    publishWith_length hc _
  have hcheckSteps : checkSteps ctx req start = openSteps ctx req (start, false) +
      (bodySteps owner old req (start, false) + callSteps owner old new (checkCommitted ctx)) := by
    refine (publishWith_length hc _).trans ?_
    have hcheck : callSteps owner old new (fun j => do
        checkCommitted ctx j
        pure ⟨true, []⟩ : _ → FileProg ι PublicationResult) = _ :=
      length_bind_ok (checkCommitted_watched h hc).run
    rw [hcheck]
    rfl
  have hallSteps : allSteps ctx req start = openSteps ctx req (start, false) +
      (bodySteps owner old req (start, false) + callSteps owner old new (finishCommitted ctx)) :=
    publishWith_length hc _
  rcases Nat.lt_or_ge n (openSteps ctx req (start, false)) with hopen | hopen
  · obtain ⟨r, hobs, -⟩ := openTransaction_watched h howner tmp
    obtain ⟨e', hrun⟩ := publishWith_struck_open effective e (finishCommitted ctx) hobs hopen
    have hout : out = _ := hrun
    rw [hout]
    exact outcome_raised
  rcases Nat.lt_or_ge n (openSteps ctx req (start, false) + bodySteps owner old req (start, false))
    with hbody | hbody
  · have hnotLate : ¬ RaisedLate ctx req start (.armed n effective e) := by
      rintro ⟨hle, -⟩
      omega
    rcases publishWith_struck_body h hc effective e (finishCommitted ctx)
      hbuild hopen hbody with hrun | ⟨e', hrun⟩
    · have hout : out = _ := hrun
      rw [hout]
      exact outcome_committed h hc.built Reachable.finished rfl
        ⟨fun _ => hnotLate, fun _ => ⟨[], rfl⟩⟩
    · have hout : out = _ := hrun
      rw [hout]
      exact outcome_raised
  · have hlate := publishWith_run_late hc effective e (finishCommitted ctx)
      hbody
    obtain ⟨r, t, plan, hrun, ht, hbit, hr⟩ := finishCommitted_struck h hc effective e
      (n := n - openSteps ctx req (start, false) -
        bodySteps owner old req (start, false))
    have hout : out = (r, t, plan) := hlate.trans hrun
    rw [hout]
    refine outcome_committed h hc.built ht hbit (hr.trans (not_congr ?_))
    simp only [RaisedLate, hcommitSteps, hcheckSteps, hallSteps]
    constructor
    · rintro ⟨hlt, hcase⟩
      refine ⟨hbody, by omega, hcase.imp (fun hcheck => ?_) id⟩
      omega
    · rintro ⟨-, hlt, hcase⟩
      refine ⟨by omega, hcase.imp (fun hcheck => ?_) id⟩
      omega

end Struck

/-- One step of a publication raises an exception or a cancellation: a step planned for it, when
the call would have returned without, or a step that raises by itself. If the journal on disk has
been in the phase `committed`, the destination holds what was built and the call returns, unless
the step comes after the write of that journal and is a check, or a removal that raises something
else than an `OSError`. Otherwise the call raises and the destination is what it was before. -/
theorem publication_failure (ctx : Context ι) (owner : Owner ctx.isidentifier)
    (old : Option (Artifact ι)) (req : Request ι) (tmp : Option Metadata) (plan : Plan Fault)
    (hold : ∀ a ∈ old,
      a.kind = artifactKind owner.fields ∧ ctx.validate a owner.fields = .ok ())
    (howner : validateOwner ctx.isidentifier req.owner = .ok owner)
    (hsingle : plan = .clear ∨ ∃ r,
      ((publishArtifact ctx req).run Disk.step ⟨old, none, none, none, tmp⟩).1 = .ok r) :
    let start : Disk ι := ⟨old, none, none, none, tmp⟩
    let out := (publishArtifact ctx req).run (inject Disk.step) (start, plan)
    let reached := ∃ m, ((publishArtifact ctx req).crashAfter (inject Disk.step) m
      (start, plan)).1.phase ctx = some .committed
    (reached → ∃ items, req.result = .ok items ∧
      out.2.1.destination = some ⟨artifactKind owner.fields, items⟩ ∧ out.2.1.stage = none ∧
        ((∃ w, out.1 = .ok ⟨true, w⟩) ↔ ¬ RaisedLate ctx req start plan)) ∧
    (¬ reached → (∃ e, out.1 = .error e) ∧ out.2.1.destination = old ∧ out.2.1.stage = none ∧
      out.2.1.previous = none ∧ out.2.1.journal = none) := by
  intro start out reached
  -- what the builder leaves is the new artifact, and any other one will do if it raises
  obtain ⟨new, hnewKind, hbuild⟩ : ∃ new : Artifact ι, new.kind = artifactKind owner.fields ∧
      Builds ctx owner req new := by
    cases hresult : req.result with
    | ok items =>
      refine ⟨⟨artifactKind owner.fields, items⟩, rfl, ?_⟩
      intro items' hitems' _
      rw [hresult] at hitems'
      cases hitems'
      rfl
    | error e =>
      refine ⟨⟨artifactKind owner.fields, []⟩, rfl, ?_⟩
      intro items' hitems' _
      rw [hresult] at hitems'
      cases hitems'
  have h : Sides owner old new :=
    ⟨fun a ha => (hold a ha).1, hnewKind, fun a ha => (hold a ha).2⟩
  obtain ⟨b, hrun, hb⟩ := run_inject_watch Disk.step (committedOnDisk ctx)
    (publishArtifact ctx req) (s := start) (b := false) plan (fun hseen =>
      absurd (hseen.symm.trans (committedOnDisk_of_none rfl)) (by decide))
  have hreached : b = true ↔ reached := by
    rw [hb]
    simp only [committedOnDisk, decide_eq_true_eq, reached, Bool.false_eq_true, false_or]
  have houtcome : Outcome owner old req (RaisedLate ctx req start plan) out.1 (out.2.1, b) := by
    have hwatched : Outcome owner old req (RaisedLate ctx req start plan)
        ((publishArtifact ctx req).run (inject (watchedStep ctx)) ((start, false), plan)).1
        ((publishArtifact ctx req).run (inject (watchedStep ctx)) ((start, false), plan)).2.1 := by
      cases plan with
      | clear =>
        rw [run_inject_clear]
        have hensures := publishArtifact_ensures h tmp howner hbuild
        cases hres : (publishArtifact ctx req).run (watchedStep ctx) (start, false) with
        | mk res t =>
          cases res with
          | ok r =>
            obtain ⟨rfl, hbuilt, rfl⟩ := hensures.of_run_ok hres
            exact outcome_committed h hbuilt Reachable.finished rfl
              ⟨fun _ => id, fun _ => ⟨[], rfl⟩⟩
          | error e =>
            obtain ⟨tmp', rfl⟩ := hensures.of_run_error hres
            exact outcome_raised
      | armed n effective e =>
        rcases hsingle with hclear | ⟨r, hr⟩
        · cases hclear
        · exact publishArtifact_struck h howner hbuild
            (commits_of_run h howner hbuild (Prod.ext hr rfl)) n effective e
    have hrun' : (publishArtifact ctx req).run (inject (watchedStep ctx))
      ((start, false), plan) = _ := hrun
    rw [hrun'] at hwatched
    exact hwatched
  refine ⟨fun hr => houtcome.1 (hreached.mpr hr), fun hr => houtcome.2 ?_⟩
  cases hbit : b with
  | false => rfl
  | true => exact absurd (hreached.mp hbit) hr

/-- The replacement by the committed journal takes effect and raises: the call still returns. -/
theorem publication_failure_commit_write :
    let out := (publishArtifact sampleContext sampleRequest).run (inject Disk.step)
      (⟨some sampleOld, none, none, none, none⟩, .armed 43 true (.os "Input/output error"))
    out.2.1.destination = some sampleNew ∧ out.2.1.stage = none := by
  have h := publication_failure sampleContext sampleOwner (some sampleOld) sampleRequest none
    (.armed 43 true (.os "Input/output error")) (by rintro a ⟨⟩; exact ⟨rfl, rfl⟩)
    (validateOwner_toJson sampleOwner) (Or.inr ⟨⟨true, []⟩, rfl⟩)
  obtain ⟨items, hitems, hdestination, hstage, -⟩ := h.1 ⟨44, rfl⟩
  cases hitems
  exact ⟨hdestination, hstage⟩

/-- The flush after the removal of the previous tree finds that the directory has changed: the
publication is committed, but the exception is no `OSError` and the call raises it. -/
theorem removal_failure_raised :
    let start : Disk Nat := ⟨some sampleOld, none, none, none, none⟩
    let raised := Fault.fileSystem "publication directory changed while opening"
      (.artifact .previous)
    let out := (publishArtifact sampleContext sampleRequest).run (inject Disk.step)
      (start, .armed 57 false raised)
    ((publishArtifact sampleContext sampleRequest).run Disk.step start).1 = .ok ⟨true, []⟩ ∧
      ((publishArtifact sampleContext sampleRequest).crashAfter (inject Disk.step) 45
        (start, .armed 57 false raised)).1.phase sampleContext = some .committed ∧
      out.1 = .error raised ∧ out.2.1.phase sampleContext = some .committed :=
  ⟨rfl, rfl, rfl, rfl⟩

end

end PyCircuit.Publication
