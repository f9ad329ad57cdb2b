import PyCircuit.Publication.Recovery

/-!
# Crash atomicity of publications

A publication keeps the condition `Reachable` at every step (`publishArtifact_ensures`): with the
recovery lemma this gives the two results about every schedule of kills, that the next complete
recovery leaves exactly the new or exactly the old artifact, and that no recovery is ever refused.
-/

set_option autoImplicit false

namespace PyCircuit.Publication

open PyCircuit.Lib Prog

section

variable {ι : Type} {ctx : Context ι} {owner : Owner ctx.isidentifier}
  {old : Option (Artifact ι)} {new : Artifact ι}

/-! ## Parts of the publication -/

section Parts

variable {C : Watched ι → Prop} {Q : Unit → Watched ι → Prop} {E : Fault → Watched ι → Prop}
  {d : Disk ι} {b : Bool} {req : Request ι}

theorem cancelOrRaise_ensures {point : String} (hd : C (d, b)) (hE : ∀ e, E e (d, b))
    (hQ : Q () (d, b)) :
    (cancelOrRaise req point).Ensures (watchedStep ctx) C Q E (d, b) := by
  unfold cancelOrRaise
  split
  · exact ⟨hd, hE _⟩
  · exact ⟨hd, hQ⟩

/-- Every content the builder leaves at the stage path has the kind of the artifact. -/
theorem putAll_ensures (hC : Accounts ctx C) (k : Kind) (drafts : List (List ι))
    (hd : C (d, b)) (hput : ∀ items, C (d.setSlot .stage (some ⟨k, items⟩), b))
    (hQ : ∀ stage, C (d.setSlot .stage stage, b) → Q () (d.setSlot .stage stage, b)) :
    (putAll k drafts).Ensures (watchedStep ctx) C Q E (d, b) := by
  induction drafts generalizing d with
  | nil =>
    refine ⟨hd, ?_⟩
    have hsame := d.setSlot_slot .stage
    have h := hQ (d.slot .stage)
    rw [hsame] at h
    exact h hd
  | cons items rest ih =>
    refine Ensures.bind (act_ensures_same (o := .put .stage ⟨k, items⟩) hC rfl hd
      (hput items) ?_)
    refine ih (hput items) ?_ ?_
    · intro items'
      exact hput items'
    · intro stage hstage
      exact hQ stage hstage

theorem build_ensures (hC : Accounts ctx C) (k : Kind) (hd : C (d, b))
    (hput : ∀ items, C (d.setSlot .stage (some ⟨k, items⟩), b))
    (hE : ∀ e stage, C (d.setSlot .stage stage, b) → E e (d.setSlot .stage stage, b))
    (hQ : ∀ items, req.result = .ok items → Q () (d.setSlot .stage (some ⟨k, items⟩), b)) :
    (build req k).Ensures (watchedStep ctx) C Q E (d, b) := by
  refine Ensures.bind (putAll_ensures hC k req.drafts hd hput ?_)
  intro stage hstage
  cases hr : req.result with
  | ok items =>
    refine act_ensures_same (o := .put .stage ⟨k, items⟩) hC ?_ hstage (hput items) (hQ items hr)
    simp [Disk.step]
  | error e => exact ⟨hstage, hE e stage hstage⟩

end Parts

section Publish

variable (h : Sides owner old new) {req : Request ι} {E : Fault → Watched ι → Prop}
  {Q : Unit → Watched ι → Prop}
include h

theorem syncArtifact_observes {d : Disk ι} (hd : d.stage = some new) :
    (syncArtifact .stage (artifactKind owner.fields)).Observes Disk.step d (.ok ()) := by
  unfold syncArtifact
  split
  · exact ⟨rfl, rfl⟩
  · next hdir =>
    refine Observes.bind (validatePlainTree_observes ?_) ⟨rfl, rfl⟩
    have hk := artifactKind_directory hdir
    simp [Disk.kind, Disk.slot, hd, h.newKind, hk]

/-- The result of the builder is the new artifact if the validator accepts it. -/
def Builds (ctx : Context ι) (owner : Owner ctx.isidentifier) (req : Request ι)
    (new : Artifact ι) : Prop :=
  ∀ items, req.result = .ok items →
    ctx.validate ⟨artifactKind owner.fields, items⟩ owner.fields = .ok () →
      new = ⟨artifactKind owner.fields, items⟩

/-- The new artifact was built, and the validator accepts it. -/
def Built (ctx : Context ι) (owner : Owner ctx.isidentifier) (req : Request ι)
    (new : Artifact ι) : Prop :=
  req.result = .ok new.items ∧ ctx.validate new owner.fields = .ok ()

/-- A stage of the right kind is completed to the new artifact. -/
theorem completeStage_ensures (stage : Option (Artifact ι))
    (hstage : OfKind owner stage) (hbuild : Builds ctx owner req new)
    (hE : ∀ e t, Reachable owner old new t → t.2 = false → E e t)
    (hQ : Built ctx owner req new →
      Q () (pending owner old .preparing old (some new) none none)) :
    Reaches owner old new (completeStage ctx req owner.fields) Q E
      (pending owner old .preparing old stage none none) := by
  have hC : Accounts ctx (Reachable owner old new) := reachable_accounts
  have hput : ∀ items, Reachable owner old new
      (pending owner old .preparing old (some ⟨artifactKind owner.fields, items⟩) none none) := by
    intro items
    refine Reachable.preparing _ none ?_
    rintro a ⟨⟩
    rfl
  refine Ensures.bind (build_ensures hC _ (Reachable.preparing stage none hstage) hput
    (fun e _ hs => hE e _ hs rfl) ?_)
  intro items hitems
  obtain ⟨r, hobs, hr⟩ := validateArtifact_result ctx (s := .stage)
    (d := ⟨old, some ⟨artifactKind owner.fields, items⟩, none,
      (ctx.journalIn owner old .preparing).onDisk, none⟩) rfl rfl
  refine Ensures.bind (ensures_of_observes hobs hC (hput items) ?_
    (fun e _ => hE e _ (hput items) rfl))
  rintro u rfl
  -- the validator accepts what was built, so it is the new artifact
  have hvalid := hr.mp rfl
  have hnew := hbuild items hitems hvalid
  subst hnew
  refine ensures_observe hC (syncArtifact_observes h rfl) ?_
  exact cancelOrRaise_ensures (hput items) (fun e => hE e _ (hput items) rfl) (hQ ⟨hitems, hvalid⟩)

/-- The stage is built under the `preparing` journal. -/
theorem prepareStage_ensures (tmp : Option Metadata)
    (hbuild : Builds ctx owner req new)
    (hE : ∀ e t, Reachable owner old new t → t.2 = false → E e t)
    (hQ : Built ctx owner req new →
      Q () (pending owner old .preparing old (some new) none none)) :
    Reaches owner old new (prepareStage ctx req (ctx.journalIn owner old .preparing)) Q E
      (initial old tmp) := by
  have hC : Accounts ctx (Reachable owner old new) := reachable_accounts
  have hnone : Reachable owner old new (pending owner old .preparing old none none none) :=
    Reachable.preparing none none (ofKind_none owner)
  refine Ensures.bind (writeJournal_ensures hC rfl Reachable.idle hnone ?_)
  refine Ensures.bind (cancelOrRaise_ensures hnone (fun e => hE e _ hnone rfl) ?_)
  split
  · next hdir =>
    have hempty : OfKind owner (some (⟨.directory, []⟩ : Artifact ι)) := by
      rintro a ⟨⟩
      exact hdir.symm
    have hmade : Reachable owner old new (pending owner old .preparing old _ none none) :=
      .preparing _ none hempty
    refine Ensures.bind (Ensures.bind ?_)
    refine act_ensures_same (o := .mkdir .stage) hC rfl hnone hmade ?_
    exact act_ensures_same (o := .sync _) hC rfl hmade hmade
      (completeStage_ensures h _ hempty hbuild hE hQ)
  · exact completeStage_ensures h none (ofKind_none owner) hbuild hE hQ

theorem installDestination_ensures (hnew : ctx.validate new owner.fields = .ok ())
    {d p : Option (Artifact ι)} (hd : d = none) (hp : p = old)
    (hplaced : Placed old new d (some new) p)
    (hE : ∀ e t, Reachable owner old new t → t.2 = false → E e t)
    (hQ : Q () (pending owner old .prepared (some new) none old none)) :
    Reaches owner old new (installDestination ctx req owner.fields) Q E
      (pending owner old .prepared d (some new) p none) := by
  have hC : Accounts ctx (Reachable owner old new) := reachable_accounts
  have hinstalled :
      Reachable owner old new (pending owner old .prepared (some new) none old none) :=
    Reachable.prepared _ _ _ none .installed
  subst hd hp
  refine Ensures.bind (rename_ensures hC rfl rfl (Reachable.prepared _ _ _ none hplaced)
    hinstalled ?_)
  refine Ensures.bind
    (cancelOrRaise_ensures hinstalled (fun e => hE e _ hinstalled rfl) ?_)
  exact ensures_of_observes (validateArtifact_observes (a := new) rfl h.newKind hnew) hC hinstalled
    (fun _ _ => hQ) (fun _ he => nomatch he)

/-- The artifacts are moved under the `prepared` journal. -/
theorem installStage_ensures (hvalid : ctx.validate new owner.fields = .ok ())
    (hE : ∀ e t, Reachable owner old new t → t.2 = false → E e t)
    (hQ : Q () (pending owner old .prepared (some new) none old none)) :
    Reaches owner old new (installStage ctx req (ctx.journalIn owner old .preparing)) Q E
      (pending owner old .preparing old (some new) none none) := by
  have hC : Accounts ctx (Reachable owner old new) := reachable_accounts
  have hstaged : Reachable owner old new (pending owner old .prepared old (some new) none none) :=
    Reachable.prepared _ _ _ none .staged
  refine Ensures.bind (writeJournal_ensures hC rfl
    (fun tmp => Reachable.preparing (some new) tmp h.ofKind_new) hstaged ?_)
  refine Ensures.bind (cancelOrRaise_ensures hstaged (fun e => hE e _ hstaged rfl) ?_)
  cases hold : old with
  | none =>
    subst hold
    exact installDestination_ensures h hvalid rfl rfl .staged hE hQ
  | some a =>
    subst hold
    have hsaved : Reachable owner (some a) new
        (pending owner (some a) .prepared none (some new) (some a) none) :=
      Reachable.prepared _ _ _ none (.saved rfl)
    refine Ensures.bind (rename_ensures hC rfl rfl hstaged hsaved ?_)
    refine Ensures.bind (cancelOrRaise_ensures hsaved (fun e => hE e _ hsaved rfl) ?_)
    exact installDestination_ensures h hvalid rfl rfl (.saved rfl) hE hQ

/-- The exception handler finishes a committed publication. -/
theorem rollback_committed {e : Fault} (hnew : ctx.validate new owner.fields = .ok ())
    (previous : Option (Artifact ι)) (tmp : Option Metadata) (hprevious : OfKind owner previous)
    (hold : old = none → previous = none) :
    Reaches owner old new (rollback ctx e)
      (fun r t => r = some ⟨true, []⟩ ∧ t = (recovered old new true, true)) (fun _ _ => False)
      (⟨some new, none, previous, (ctx.journalIn owner old .committed).onDisk, tmp⟩, true) := by
  refine Ensures.bind
    (Reachable.readJournal (.committed previous tmp hprevious hold) rfl ?_)
  refine Ensures.bind (finishCommitted_ensures h hnew previous none hprevious hold ?_)
  exact ⟨Reachable.finished, rfl, rfl⟩

/-- The exception handler rolls back any other publication before the exception is raised again. -/
theorem rollback_uncommitted {e : Fault} {d : Disk ι} (hs : Reachable owner old new (d, false)) :
    Reaches owner old new (rollback ctx e) (fun _ _ => False)
      (fun e' t => e' = e ∧ t = (recovered old new false, false)) (d, false) := by
  have hrecover : ∀ d, Reachable owner old new (d, false) →
      Reaches owner old new (do
        recoverLocked ctx
        throw e : FileProg ι (Option PublicationResult)) (fun _ _ => False)
        (fun e' u => e' = e ∧ u = (recovered old new false, false)) (d, false) := by
    intro d hd
    refine Ensures.bind ((recoverLocked_ensures h hd (fun hbit => nomatch hbit)).mono ?_ ?_)
    · rintro ⟨⟩ u hu rfl
      exact ⟨hu, rfl, rfl⟩
    · intro e' u _ hfalse
      exact hfalse.elim
  obtain ⟨tmp, rfl⟩ | ⟨phase, hphase, hj⟩ := hs.uncommitted
  · refine Ensures.bind (readJournal_ensures_none reachable_accounts rfl rfl rfl hs
      (Reachable.idle none) ?_)
    exact hrecover _ (Reachable.idle none)
  · refine Ensures.bind (hs.readJournal hj ?_)
    have hother : (ctx.journalIn owner old phase).phase ≠ .committed := hphase
    simp only
    rw [if_neg hother]
    exact hrecover _ hs.removeTmp

/-- The body of the `try` statement ends with the committed journal on disk and the new artifact
installed; its exceptions are raised before the commit. -/
theorem commitJournal_ensures {R : Option PublicationResult → Watched ι → Prop}
    (tmp : Option Metadata) (hbuild : Builds ctx owner req new)
    (hE : ∀ e t, Reachable owner old new t → t.2 = false → E e t)
    (hR : Built ctx owner req new →
      R none (⟨some new, none, old, (ctx.journalIn owner old .committed).onDisk, none⟩, true)) :
    Reaches owner old new (commitJournal ctx req (ctx.journalIn owner old .preparing)) R E
      (initial old tmp) := by
  have hcommitted : Reachable owner old new
      (⟨some new, none, old, (ctx.journalIn owner old .committed).onDisk, none⟩, true) :=
    Reachable.committed old none h.oldKind id
  refine Ensures.bind (prepareStage_ensures h tmp hbuild hE fun hbuilt => ?_)
  refine Ensures.bind (installStage_ensures h hbuilt.2 hE ?_)
  refine Ensures.bind (writeJournal_ensures reachable_accounts rfl
    (fun tmp' => Reachable.prepared _ _ _ tmp' .installed) hcommitted ?_)
  exact ⟨hcommitted, hR hbuilt⟩

theorem publishJournaled_ensures (tmp : Option Metadata) (hbuild : Builds ctx owner req new) :
    Reaches owner old new
      (publishJournaled ctx req (finishCommitted ctx) (ctx.journalIn owner old .preparing))
      (fun r t => r = ⟨true, []⟩ ∧ Built ctx owner req new ∧
        t = (recovered old new true, true))
      (fun _ t => ∃ tmp', t = initial old tmp')
      (initial old tmp) := by
  -- every exception of the body is raised before the commit, so the handler rolls back
  refine Ensures.bind (Ensures.tryCatch (Ensures.mono
    (commitJournal_ensures (E := fun _ t => Reachable owner old new t ∧ t.2 = false) h tmp hbuild
      (fun _ _ ht hf => ⟨ht, hf⟩) fun hbuilt => ?_) (fun _ _ _ hq => hq) ?_))
  · exact finishCommitted_ensures h hbuilt.2 old none h.oldKind id ⟨rfl, hbuilt, rfl⟩
  · rintro e ⟨d, b⟩ - ⟨ht, rfl⟩
    refine (rollback_uncommitted h ht).mono ?_ ?_
    · intro r u _ hno
      exact hno.elim
    · rintro e' u - ⟨-, rfl⟩
      exact ⟨none, rfl⟩

/-- Before the `try` statement the disk is only looked at. -/
theorem openTransaction_observes (tmp : Option Metadata)
    (howner : validateOwner ctx.isidentifier req.owner = .ok owner) :
    ∃ r, (openTransaction ctx req).Observes Disk.step ⟨old, none, none, none, tmp⟩ r ∧
      ∀ j, r = .ok j → j = ctx.journalIn owner old .preparing := by
  unfold openTransaction
  rw [howner]
  simp only
  by_cases hcancel : req.cancelled "before_prepare" = true
  · rw [if_pos hcancel]
    exact ⟨.error (.cancelled "publication cancelled before preparation"), rfl, by rintro j ⟨⟩⟩
  rw [if_neg hcancel]
  cases hold : old with
  | none =>
    refine ⟨.ok (journal owner ctx.destinationName false),
      Observes.bind (artifactExists_observes (s := .destination) ?_) rfl, ?_⟩
    · rintro a ⟨⟩
    · rintro j ⟨⟩
      rfl
  | some a =>
    subst hold
    have hexists := artifactExists_observes (d := ⟨some a, none, none, none, tmp⟩)
      (s := .destination) h.oldKind
    by_cases hreplace : req.replace = true
    · refine ⟨.ok (journal owner ctx.destinationName true), Observes.bind hexists ?_, ?_⟩
      · rw [if_pos (by simp [Disk.slot]), if_neg (by simp [hreplace])]
        exact Observes.bind (validateArtifact_observes (a := a) rfl (h.oldKind a rfl)
          (h.validOld a rfl)) rfl
      · rintro j ⟨⟩
        rfl
    · refine ⟨.error (.publication "publication destination already exists" none),
        Observes.bind hexists ?_, by rintro j ⟨⟩⟩
      rw [if_pos (by simp [Disk.slot]), if_pos (by simp [hreplace])]
      rfl

/-- A publication keeps `Reachable` at every step. It returns with the new artifact installed, or
raises with the destination as it was and nothing but an old temporary file left. -/
theorem publishArtifact_ensures (tmp : Option Metadata)
    (howner : validateOwner ctx.isidentifier req.owner = .ok owner)
    (hbuild : Builds ctx owner req new) :
    Reaches owner old new (publishArtifact ctx req)
      (fun r t => r = ⟨true, []⟩ ∧ Built ctx owner req new ∧
        t = (recovered old new true, true))
      (fun _ t => ∃ tmp', t = initial old tmp')
      (initial old tmp) := by
  obtain ⟨r, hobs, hr⟩ := openTransaction_observes h tmp howner
  refine Ensures.bind (ensures_of_observes hobs reachable_accounts (Reachable.idle tmp) ?_ ?_)
  · intro j hj
    rw [hr j hj]
    exact publishJournaled_ensures h tmp hbuild
  · exact fun _ _ => ⟨tmp, rfl⟩

end Publish

/-! ## Schedules of kills -/

/-- The disk left by a publication killed after `n` steps and then by recoveries killed after the
numbers of steps in `ns`. -/
def crashed (ctx : Context ι) (req : Request ι) (n : Nat) (ns : List Nat) (start : Disk ι) :
    Disk ι :=
  (recoverLocked ctx).crashRuns Disk.step ns
    ((publishArtifact ctx req).crashAfter Disk.step n start)

/-- The journal of the publication killed after `n` steps had reached the phase `committed`. -/
def reachedCommitted (ctx : Context ι) (req : Request ι) (n : Nat) (start : Disk ι) : Prop :=
  ∃ m ≤ n, ((publishArtifact ctx req).crashAfter Disk.step m start).phase ctx = some .committed

/-- A killed recovery leaves a reachable disk, and commits nothing. -/
theorem recoverLocked_crashAfter (h : Setting owner old new) {b : Bool} (n : Nat) (d : Disk ι)
    (hd : Reachable owner old new (d, b)) :
    Reachable owner old new ((recoverLocked ctx).crashAfter Disk.step n d, b) := by
  have hrun := recoverLocked_ensures h.sides hd fun _ => h.valid_new
  have hcrash := hrun.crashAfter n
  have hbit : ((recoverLocked ctx).crashAfter (watchedStep ctx) n (d, b)).2 = b := by
    cases b with
    | true => exact crashAfter_watch_of_true _ _ _ n d
    | false =>
      cases hc : ((recoverLocked ctx).crashAfter (watchedStep ctx) n (d, false)).2 with
      | false => rfl
      | true =>
        have hend := run_watch_of_crashAfter _ _ _ n d false hc
        obtain ⟨-, -, hlast⟩ := hrun.run_ok
        have hsnd : _ = false := congrArg Prod.snd hlast
        exact absurd (hend.symm.trans hsnd) (by decide)
  have hdisk := crashAfter_watch_fst Disk.step (committedOnDisk ctx) (recoverLocked ctx) n d b
  have hpair : (recoverLocked ctx).crashAfter (watchedStep ctx) n (d, b) =
      ((recoverLocked ctx).crashAfter Disk.step n d, b) := Prod.ext hdisk hbit
  rw [← hpair]
  exact hcrash

/-- Every schedule of kills leaves a reachable disk; its bit tells whether the publication was
committed. -/
theorem crashed_reachable (h : Setting owner old new) {req : Request ι}
    (howner : validateOwner ctx.isidentifier req.owner = .ok owner)
    (hbuild : ∀ items, req.result = .ok items → new = ⟨artifactKind owner.fields, items⟩)
    (tmp : Option Metadata) (n : Nat) (ns : List Nat) :
    ∃ b, Reachable owner old new (crashed ctx req n ns ⟨old, none, none, none, tmp⟩, b) ∧
      (b = true ↔ reachedCommitted ctx req n ⟨old, none, none, none, tmp⟩) := by
  have hpublish := (publishArtifact_ensures h.sides tmp howner
    fun items hitems _ => hbuild items hitems).crashAfter n
  have hfst := crashAfter_watch_fst Disk.step (committedOnDisk ctx) (publishArtifact ctx req) n
    ⟨old, none, none, none, tmp⟩ false
  have hsnd := crashAfter_watch_snd Disk.step (committedOnDisk ctx) (publishArtifact ctx req) n
    ⟨old, none, none, none, tmp⟩
  rw [committedOnDisk_of_none rfl] at hsnd
  refine ⟨_, ?_, hsnd.trans ?_⟩
  · refine crashRuns_invariant (C := fun d => Reachable owner old new (d, _))
      (fun m d hd => recoverLocked_crashAfter h m d hd) ns ?_
    rw [← hfst]
    exact hpublish
  · simp only [committedOnDisk, decide_eq_true_eq, reachedCommitted]

/-- Whatever the schedule of kills, the next complete recovery empties the control directory and
leaves the new artifact at the destination if the journal had reached the phase `committed`, and
what the destination held before the publication otherwise. -/
theorem recovery_all_or_nothing (ctx : Context ι) (owner : Owner ctx.isidentifier)
    (old : Option (Artifact ι)) (new : Artifact ι) (req : Request ι) (tmp : Option Metadata)
    (h : Setting owner old new) (howner : validateOwner ctx.isidentifier req.owner = .ok owner)
    (hbuild : ∀ items, req.result = .ok items → new = ⟨artifactKind owner.fields, items⟩)
    (n : Nat) (ns : List Nat) :
    let start : Disk ι := ⟨old, none, none, none, tmp⟩
    let last := ((recoverLocked ctx).run Disk.step (crashed ctx req n ns start)).2
    last.stage = none ∧ last.previous = none ∧ last.journal = none ∧ last.journalTmp = none ∧
      (reachedCommitted ctx req n start → last.destination = some new) ∧
      (¬ reachedCommitted ctx req n start → last.destination = old) := by
  intro start last
  obtain ⟨b, hreach, hb⟩ := crashed_reachable h howner hbuild tmp n ns
  obtain ⟨-, -, hlast⟩ := (recoverLocked_ensures h.sides hreach fun _ => h.valid_new).run_ok
  have hdisk : last = recovered old new b := by
    have hfst := (run_watch_fst Disk.step (committedOnDisk ctx) (recoverLocked ctx)
      (crashed ctx req n ns start) b).2
    exact hfst.symm.trans (congrArg Prod.fst hlast)
  rw [hdisk]
  refine ⟨rfl, rfl, rfl, rfl, ?_, ?_⟩
  · intro hcommitted
    rw [hb.mpr hcommitted]
    rfl
  · intro hcommitted
    have hfalse : b = false := by
      cases hbit : b with
      | false => rfl
      | true => exact absurd (hb.mp hbit) hcommitted
    rw [hfalse]
    rfl

/-! A replaced tree: the old artifact has one entry, the builder leaves two drafts. -/

def sampleOld : Artifact Nat := ⟨.directory, [1]⟩

def sampleNew : Artifact Nat := ⟨.directory, [2, 3]⟩

def sampleContext : Context Nat where
  isidentifier := fun _ => true
  destinationName := "out"
  validate := fun a _ =>
    if a = sampleOld ∨ a = sampleNew then .ok () else .error (.os "damaged artifact")

def sampleOwner : Owner sampleContext.isidentifier where
  fields := .sourceUnit ⟨"", "top.py"⟩
  valid := by
    simp [OwnerFields.check, OwnerFields.source, validatePackage, validateSourcePath, splitOn,
      suffix]
    rfl

def sampleRequest : Request Nat where
  owner := sampleOwner.fields.toJson
  replace := true
  cancelled := fun _ => false
  drafts := [[], [2]]
  result := .ok [2, 3]

theorem sampleSetting : Setting sampleOwner (some sampleOld) sampleNew where
  oldKind := by
    rintro a ⟨⟩
    rfl
  newKind := rfl
  accepts := by
    intro a
    by_cases ha : a = sampleOld ∨ a = sampleNew
    · simp [sampleContext, ha]
    · simp [sampleContext, ha]

theorem recovery_all_or_nothing_sample :
    let start : Disk Nat := ⟨some sampleOld, none, none, none, none⟩
    let last := ((recoverLocked sampleContext).run Disk.step
      (crashed sampleContext sampleRequest 40 [2, 5] start)).2
    last.stage = none ∧ last.previous = none ∧ last.journal = none ∧ last.journalTmp = none ∧
      (reachedCommitted sampleContext sampleRequest 40 start → last.destination = some sampleNew) ∧
      (¬ reachedCommitted sampleContext sampleRequest 40 start →
        last.destination = some sampleOld) :=
  recovery_all_or_nothing sampleContext sampleOwner (some sampleOld) sampleNew sampleRequest none
    sampleSetting (validateOwner_toJson sampleOwner) (by rintro items ⟨⟩; rfl) 40 [2, 5]

/-- A reader of a reachable disk asks for a recovery, or finds a stable state. -/
theorem readStableJournal_observes {d : Disk ι} {b : Bool} (hd : Reachable owner old new (d, b)) :
    ∃ r, (readStableJournal ctx).Observes Disk.step d (.ok r) := by
  cases b with
  | false =>
    obtain ⟨tmp, rfl⟩ | ⟨phase, hphase, hj⟩ := hd.uncommitted
    · refine ⟨some none, Observes.bind (readJournal_observes_none rfl rfl rfl) ?_⟩
      exact Observes.bind (Observes.bind (kind_observes _ _)
        (Observes.bind (kind_observes _ _) rfl)) rfl
    · refine ⟨none, Observes.bind (readJournal_observes_some hj rfl) ?_⟩
      have hother : (ctx.journalIn owner old phase).phase ≠ .committed := hphase
      simp only
      rw [if_pos hother]
      rfl
  | true =>
    cases hd with
    | committed previous tmp hprevious hold =>
      refine ⟨some (some (ctx.journalIn owner old .committed)),
        Observes.bind (readJournal_observes_some rfl rfl) ?_⟩
      refine Observes.bind (a := ()) ?_ rfl
      refine Observes.bind (kind_observes _ _) (Observes.bind (kind_observes _ _) ?_)
      cases hold' : old with
      | none =>
        subst hold'
        rw [hold rfl]
        rfl
      | some a => rfl
    | finished =>
      refine ⟨some none, Observes.bind (readJournal_observes_none rfl rfl rfl) ?_⟩
      exact Observes.bind (Observes.bind (kind_observes _ _)
        (Observes.bind (kind_observes _ _) rfl)) rfl

/-- Whatever the schedule of kills, the next recovery returns, and a reader finds no state that the
stable state check refuses. -/
theorem recovery_never_refused (ctx : Context ι) (owner : Owner ctx.isidentifier)
    (old : Option (Artifact ι)) (new : Artifact ι) (req : Request ι) (tmp : Option Metadata)
    (h : Setting owner old new) (howner : validateOwner ctx.isidentifier req.owner = .ok owner)
    (hbuild : ∀ items, req.result = .ok items → new = ⟨artifactKind owner.fields, items⟩)
    (n : Nat) (ns : List Nat) :
    let disk := crashed ctx req n ns ⟨old, none, none, none, tmp⟩
    ((recoverLocked ctx).run Disk.step disk).1 = .ok () ∧
      ∃ r, ((readStableJournal ctx).run Disk.step disk).1 = .ok r := by
  intro disk
  obtain ⟨b, hreach, -⟩ := crashed_reachable h howner hbuild tmp n ns
  constructor
  · obtain ⟨a, hok, -⟩ := (recoverLocked_ensures h.sides hreach fun _ => h.valid_new).run_ok
    have hfst := (run_watch_fst Disk.step (committedOnDisk ctx) (recoverLocked ctx) disk b).1
    exact hfst.symm.trans hok
  · obtain ⟨r, hr⟩ := readStableJournal_observes hreach
    exact ⟨r, congrArg Prod.fst hr.run⟩

theorem recovery_never_refused_sample :
    let disk := crashed sampleContext sampleRequest 40 [2, 5]
      ⟨some sampleOld, none, none, none, none⟩
    ((recoverLocked sampleContext).run Disk.step disk).1 = .ok () ∧
      ∃ r, ((readStableJournal sampleContext).run Disk.step disk).1 = .ok r :=
  recovery_never_refused sampleContext sampleOwner (some sampleOld) sampleNew sampleRequest none
    sampleSetting (validateOwner_toJson sampleOwner) (by rintro items ⟨⟩; rfl) 40 [2, 5]

end

end PyCircuit.Publication
