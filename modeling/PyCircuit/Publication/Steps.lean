import PyCircuit.Publication.Protocol

/-!
# What the parts of the protocol do

One lemma for each part of the protocol. The checks only look at the disk (`Observes`); the moves,
removals and journal writes are specified by `Ensures`, where the crash condition `C` is asked for
at every disk a kill can leave behind.

The machine is watched: beside the disk it keeps whether the journal on disk has ever been in the
phase `committed`. All lemmas are for a crash condition that accounts for that bit (`Accounts`).
-/

set_option autoImplicit false

namespace PyCircuit.Publication

open PyCircuit.Lib
open Prog hiding pure bind

section

variable {ι : Type} (ctx : Context ι)

/-- The phase recorded by the journal on disk. -/
def Disk.phase (d : Disk ι) : Option Phase :=
  match d.journal with
  | some (.complete v) =>
    match validateJournal ctx.isidentifier v ctx.destinationName with
    | .ok j => some j.phase
    | .error _ => none
  | _ => none

/-- The journal on disk is in the phase `committed`. -/
def committedOnDisk (d : Disk ι) : Bool :=
  decide (d.phase ctx = some .committed)

/-- The disk together with whether the journal has been in the phase `committed`. -/
abbrev Watched (ι : Type) : Type := Disk ι × Bool

def watchedStep : Machine (Op ι) Ans Fault (Watched ι) :=
  Prog.watch Disk.step (committedOnDisk ctx)

/-- The metadata file of a journal. -/
def Journal.onDisk {ctx : Context ι} (j : Journal ctx.isidentifier) : Option Metadata :=
  some (.complete j.toJson)

variable {ctx}

variable {d : Disk ι}

variable {o : Op ι} {j : Journal ctx.isidentifier}

theorem phase_of_onDisk (hd : d.journal = j.onDisk) (hj : j.destination = ctx.destinationName) :
    d.phase ctx = some j.phase := by
  have hvalid := validateJournal_toJson j
  rw [hj] at hvalid
  simp only [Disk.phase, hd, Journal.onDisk, hvalid]

theorem committedOnDisk_of_onDisk (hd : d.journal = j.onDisk)
    (hj : j.destination = ctx.destinationName) :
    committedOnDisk ctx d = decide (j.phase = .committed) := by
  simp only [committedOnDisk, phase_of_onDisk hd hj, Option.some.injEq]

theorem committedOnDisk_of_none (hd : d.journal = none) :
    committedOnDisk ctx d = false := by
  simp [committedOnDisk, Disk.phase, hd]

variable (ctx) in
/-- A crash condition that only holds where the watched bit covers the journal on disk. -/
def Accounts (C : Watched ι → Prop) : Prop :=
  ∀ s, C s → committedOnDisk ctx s.1 = true → s.2 = true

theorem artifactKind_directory {owner : OwnerFields} (h : artifactKind owner ≠ .file) :
    artifactKind owner = .directory := by
  unfold artifactKind at h ⊢
  split
  · next hprogram => exact absurd (if_pos hprogram) h
  · rfl

/-! ## Checks -/

section Observations

variable {d : Disk ι} {owner : OwnerFields} {s : Slot}

theorem kind_observes (d : Disk ι) (p : Path) :
    (kind p).Observes Disk.step d (.ok (d.kind p)) := ⟨rfl, rfl⟩

theorem validatePlainTree_observes (h : d.kind (.artifact s) = some .directory) :
    (validatePlainTree s).Observes Disk.step d (.ok ()) := by
  have hkind : (requireKind (.artifact s) .directory).Observes Disk.step d (.ok ()) := by
    refine Observes.bind (kind_observes d _) ?_
    rw [h]
    rfl
  exact Observes.bind hkind
    (Observes.bind (Observes.perform (o := Op.walk s) rfl) rfl)

theorem artifactExists_observes (h : ∀ a ∈ d.slot s, a.kind = artifactKind owner) :
    (artifactExists s owner).Observes Disk.step d (.ok (d.slot s).isSome) := by
  refine Observes.bind (kind_observes d _) ?_
  cases hs : d.slot s with
  | none =>
    have hk : d.kind (.artifact s) = none := by simp [Disk.kind, hs]
    rw [hk]
    rfl
  | some a =>
    have hk : d.kind (.artifact s) = some (artifactKind owner) := by
      simp [Disk.kind, hs, h a hs]
    rw [hk]
    simp [Observes, pure]

theorem validationFailed_raises (message : String) (s : Slot) (e : Fault) :
    ∃ e', (validationFailed message s e : FileProg ι Unit) = .raise e' := by
  cases e <;> exact ⟨_, rfl⟩

variable {a : Artifact ι}

/-- The validator is called on the artifact at the path. -/
theorem callValidate_observes (ctx : Context ι) (owner : OwnerFields)
    (hs : d.slot s = some a) :
    ∃ r, (callValidate ctx s owner).Observes Disk.step d r ∧
      (r = .ok () ↔ ctx.validate a owner = .ok ()) := by
  have hread : (runValidator ctx s owner).Observes Disk.step d (ctx.validate a owner) := by
    refine Observes.bind (Observes.perform (o := Op.read s) rfl) ?_
    rw [hs]
    exact Observes.ofExcept d _
  cases hv : ctx.validate a owner with
  | ok u =>
    rw [hv] at hread
    exact ⟨.ok u, hread.tryCatch, Iff.rfl⟩
  | error e =>
    rw [hv] at hread
    obtain ⟨e', he'⟩ := validationFailed_raises (ι := ι) _ s e
    refine ⟨.error e', hread.tryCatch_error ?_, by simp⟩
    rw [he']
    rfl

/-- The check of an artifact of the right kind passes exactly when the validator accepts it. -/
theorem validateArtifact_result (ctx : Context ι) (hs : d.slot s = some a)
    (hk : a.kind = artifactKind owner) :
    ∃ r, (validateArtifact ctx s owner).Observes Disk.step d r ∧
      (r = .ok () ↔ ctx.validate a owner = .ok ()) := by
  have hkind : d.kind (.artifact s) = some (artifactKind owner) := by simp [Disk.kind, hs, hk]
  obtain ⟨r, hcall, hr⟩ := callValidate_observes ctx owner hs
  refine ⟨r, Observes.bind (kind_observes d _) ?_, hr⟩
  rw [hkind, if_neg (by simp)]
  by_cases htree : artifactKind owner = .directory ∧ owner.kind ≠ .anchor
  · rw [if_pos htree]
    rw [htree.1] at hkind
    exact Observes.bind (validatePlainTree_observes hkind) hcall
  · rw [if_neg htree]
    exact hcall

theorem validateArtifact_observes (hs : d.slot s = some a)
    (hk : a.kind = artifactKind owner) (hv : ctx.validate a owner = .ok ()) :
    (validateArtifact ctx s owner).Observes Disk.step d (.ok ()) := by
  obtain ⟨r, hobs, hr⟩ := validateArtifact_result ctx hs hk
  rw [hr.mpr hv] at hobs
  exact hobs

theorem readJournal_observes_none (hj : d.journal = none) (hs : d.stage = none)
    (hp : d.previous = none) : (readJournal ctx false).Observes Disk.step d (.ok none) := by
  refine Observes.bind (kind_observes d _) ?_
  refine Observes.bind (kind_observes d _) ?_
  rw [if_pos (by simp [Disk.kind, Disk.record, hj])]
  by_cases ht : d.kind (.metadata .journalTmp) = some .file
  · rw [if_pos ht]
    refine Observes.bind (kind_observes d _) ?_
    refine Observes.bind (kind_observes d _) ?_
    rw [if_neg (by simp [Disk.kind, Disk.slot, hs, hp])]
    rfl
  · rw [if_neg ht]
    rfl

theorem readJournal_observes_some (hj : d.journal = j.onDisk)
    (hdest : j.destination = ctx.destinationName) :
    (readJournal ctx false).Observes Disk.step d (.ok (some j)) := by
  have hvalid := validateJournal_toJson j
  rw [hdest] at hvalid
  have hread : Disk.step (.readJson .journal) d = (.ok j.toJson, d) := by
    simp [Disk.step, Disk.record, hj, Journal.onDisk]
  refine Observes.bind (kind_observes d _) ?_
  refine Observes.bind (kind_observes d _) ?_
  rw [if_neg (by simp [Disk.kind, Disk.record, hj, Journal.onDisk])]
  refine Observes.bind (Observes.perform (o := Op.readJson .journal) hread) ?_
  simp only [hvalid]
  rw [if_neg (by simp)]
  rfl

/-- Nothing has been moved: the previous path is empty and the destination is as it was. -/
theorem validateUnmoved_observes {occupied wrong : String} {j : Journal ctx.isidentifier}
    (hp : d.previous = none) (hj : j.hadPrevious = d.destination.isSome)
    (hk : ∀ a ∈ d.destination, a.kind = artifactKind j.owner.fields)
    (hv : ∀ a ∈ d.destination, ctx.validate a j.owner.fields = .ok ()) :
    (validateUnmoved ctx occupied wrong j).Observes Disk.step d (.ok ()) := by
  refine Observes.bind (kind_observes d _) ?_
  rw [if_neg (by simp [Disk.kind, Disk.slot, hp])]
  refine Observes.bind (artifactExists_observes (s := .destination) hk) ?_
  cases hd : d.destination with
  | none => simp [Disk.slot, hd, hj, Observes, pure]
  | some a =>
    rw [if_neg (by simp [Disk.slot, hj]), if_pos (by simp [Disk.slot, hd])]
    exact validateArtifact_observes (a := a) hd (hk a hd) (hv a hd)

end Observations

/-! ## Moves, removals and journal writes -/

section Effects

variable {C : Watched ι → Prop} {E : Fault → Watched ι → Prop} {d : Disk ι} {b : Bool}

/-- A check drops out of the program; the crash condition is part of what is left. -/
theorem ensures_observe {α β : Type} {p : FileProg ι α} {f : α → FileProg ι β}
    {Q : β → Watched ι → Prop} {a : α} (hC : Accounts ctx C)
    (hp : p.Observes Disk.step d (.ok a)) (hf : (f a).Ensures (watchedStep ctx) C Q E (d, b)) :
    (bind p f).Ensures (watchedStep ctx) C Q E (d, b) :=
  Ensures.observe (hp.watch (hC (d, b) hf.crash_start)) hf

/-- A check at the end of a program. -/
theorem ensures_of_observes {α : Type} {p : FileProg ι α} {Q : α → Watched ι → Prop}
    {r : Except Fault α} (hp : p.Observes Disk.step d r) (hC : Accounts ctx C) (hd : C (d, b))
    (hQ : ∀ a, r = .ok a → Q a (d, b)) (hE : ∀ e, r = .error e → E e (d, b)) :
    p.Ensures (watchedStep ctx) C Q E (d, b) :=
  (hp.watch (hC (d, b) hd)).ensures hd hQ hE

/-- One atomic step that succeeds. -/
theorem act_ensures {a : Ans o} {d' : Disk ι} {Q : Ans o → Watched ι → Prop}
    (hstep : Disk.step o d = (.ok a, d')) (hd : C (d, b))
    (hd' : C (d', b || committedOnDisk ctx d')) (hQ : Q a (d', b || committedOnDisk ctx d')) :
    (act o).Ensures (watchedStep ctx) C Q E (d, b) := by
  have hwatch : watchedStep ctx o (d, b) = (.ok a, (d', b || committedOnDisk ctx d')) := by
    simp [watchedStep, watch, hstep]
  refine Ensures.perform hd ?_ ?_ ?_
  · rw [hwatch]
    exact hd'
  · intro a' ha'
    rw [hwatch] at ha' ⊢
    cases ha'
    exact hQ
  · intro e he
    rw [hwatch] at he
    cases he

theorem Accounts.next (hC : Accounts ctx C) (h : C (d, b)) : (b || committedOnDisk ctx d) = b :=
  Bool.or_eq_left_iff_imp.mpr (hC (d, b) h)

/-- One atomic step to a disk for which the watched bit needs no change. -/
theorem act_ensures_same {a : Ans o} {d' : Disk ι} {Q : Ans o → Watched ι → Prop}
    (hC : Accounts ctx C) (hstep : Disk.step o d = (.ok a, d')) (hd : C (d, b)) (hd' : C (d', b))
    (hQ : Q a (d', b)) : (act o).Ensures (watchedStep ctx) C Q E (d, b) := by
  have hb := hC.next hd'
  refine act_ensures hstep hd ?_ ?_
  · rw [hb]
    exact hd'
  · rw [hb]
    exact hQ

variable {Q : Unit → Watched ι → Prop}

section

variable (hC : Accounts ctx C)
include hC

/-- Such a step, and the path synchronized after it. -/
theorem synced_ensures {a : Ans o} {d' : Disk ι} {p : Path} (hstep : Disk.step o d = (.ok a, d'))
    (hd : C (d, b)) (hd' : C (d', b)) (hQ : Q () (d', b)) :
    (bind (act o) fun _ => act (.sync p)).Ensures (watchedStep ctx) C Q E (d, b) :=
  Ensures.bind (act_ensures_same hC hstep hd hd'
    (act_ensures_same (o := .sync p) hC rfl hd' hd' hQ))

theorem rename_ensures {source target : Slot} {a : Artifact ι} (hs : d.slot source = some a)
    (ht : d.slot target = none) (hd : C (d, b))
    (hd' : C ((d.setSlot source none).setSlot target (some a), b))
    (hQ : Q () ((d.setSlot source none).setSlot target (some a), b)) :
    (rename source target).Ensures (watchedStep ctx) C Q E (d, b) := by
  refine ensures_observe hC (kind_observes d _) ?_
  rw [if_pos (by simp [Disk.kind, ht])]
  exact synced_ensures (o := .rename source target) (a := ()) hC (by simp only [Disk.step, hs]) hd
    hd' hQ

theorem removeFile_ensures {r : Record} (hd : C (d, b)) (hd' : C (d.setRecord r none, b))
    (hQ : Q () (d.setRecord r none, b)) :
    (removeFile (.metadata r)).Ensures (watchedStep ctx) C Q E (d, b) := by
  refine ensures_observe hC (kind_observes d _) ?_
  cases hr : d.record r with
  | none =>
    have hsame : d.setRecord r none = d := by
      rw [← hr]
      exact d.setRecord_record r
    rw [hsame] at hQ
    simp only [Disk.kind, hr, Option.map_none]
    exact ⟨hd, hQ⟩
  | some m =>
    simp only [Disk.kind, hr, Option.map_some]
    exact synced_ensures (o := .unlink (.metadata r)) (a := ()) hC (by simp only [Disk.step, hr]) hd
      hd' hQ

theorem removeEntries_ensures {s : Slot} (items : List ι)
    (hd : ∀ rest, C (d.setSlot s (some ⟨.directory, rest⟩), b))
    (hQ : Q () (d.setSlot s (some ⟨.directory, []⟩), b)) :
    (removeEntries s items).Ensures (watchedStep ctx) C Q E
      (d.setSlot s (some ⟨.directory, items⟩), b) := by
  induction items with
  | nil => exact ⟨hd [], hQ⟩
  | cons x rest ih =>
    refine Ensures.bind
      (act_ensures_same (o := .unlinkEntry s) (a := ()) hC ?_ (hd _) (hd rest) ih)
    simp [Disk.step]

/-- A removed artifact may be left partially removed by a kill, but keeps its kind. -/
theorem removeArtifact_ensures {s : Slot} {owner : OwnerFields}
    (hk : ∀ a ∈ d.slot s, a.kind = artifactKind owner)
    (hd : ∀ rest, (∀ a ∈ rest, a.kind = artifactKind owner) → (d.slot s = none → rest = none) →
      C (d.setSlot s rest, b))
    (hQ : Q () (d.setSlot s none, b)) :
    (removeArtifact s owner).Ensures (watchedStep ctx) C Q E (d, b) := by
  have hnone : C (d.setSlot s none, b) := hd none (by simp) fun _ => rfl
  have hstart : C (d, b) := by
    have h := hd (d.slot s) hk id
    rwa [d.setSlot_slot] at h
  refine ensures_observe hC (kind_observes d _) ?_
  cases hs : d.slot s with
  | none =>
    have hsame : d.setSlot s none = d := by
      rw [← hs]
      exact d.setSlot_slot s
    rw [hsame] at hQ
    simp only [Disk.kind, hs, Option.map_none]
    exact ⟨hstart, hQ⟩
  | some a =>
    obtain ⟨k, items⟩ := a
    have hka : k = artifactKind owner := hk _ hs
    have hkind : d.kind (.artifact s) = some k := by simp [Disk.kind, hs]
    rw [hkind]
    simp only
    rw [if_neg (by simp [hka])]
    by_cases hfile : artifactKind owner = .file
    · rw [hfile] at hka
      subst hka
      rw [if_pos hfile]
      refine ensures_observe hC (kind_observes d _) ?_
      rw [hkind]
      exact synced_ensures (o := .unlink (.artifact s)) (a := ()) hC (by simp [Disk.step, hs])
        hstart hnone hQ
    · rw [if_neg hfile]
      have hdir := artifactKind_directory hfile
      rw [hdir] at hka
      subst hka
      have hrest : ∀ rest, C (d.setSlot s (some ⟨.directory, rest⟩), b) := by
        intro rest
        refine hd _ ?_ ?_
        · rintro a ⟨⟩
          exact hdir.symm
        · intro hempty
          rw [hs] at hempty
          cases hempty
      have hsame : d = d.setSlot s (some ⟨.directory, items⟩) := by
        rw [← hs]
        exact (d.setSlot_slot s).symm
      refine ensures_observe hC (kind_observes d _) ?_
      rw [hkind]
      refine ensures_observe hC (validatePlainTree_observes hkind) ?_
      refine ensures_observe hC (Observes.perform (o := Op.walk s) rfl) ?_
      rw [hs]
      refine Ensures.bind ?_
      rw [hsame]
      refine removeEntries_ensures hC items hrest ?_
      exact synced_ensures (o := .rmdir s) (a := ()) hC (by simp [Disk.step]) (hrest []) hnone hQ

/-- A journal write is a new temporary file followed by one replacement. -/
theorem writeJournal_ensures (hj : j.destination = ctx.destinationName)
    (hd : ∀ tmp, C ({ d with journalTmp := tmp }, b))
    (hd' : C ({ d with journal := j.onDisk, journalTmp := none },
      b || decide (j.phase = .committed)))
    (hQ : Q () ({ d with journal := j.onDisk, journalTmp := none },
      b || decide (j.phase = .committed))) :
    (writeJournal ctx j).Ensures (watchedStep ctx) C Q E (d, b) := by
  have hvalid := validateJournal_toJson j
  rw [hj] at hvalid
  have hseen := committedOnDisk_of_onDisk (d := { d with journal := j.onDisk, journalTmp := none })
    rfl hj
  have hwrite : (writeJsonAtomic .journal .journalTmp j.toJson).Ensures (watchedStep ctx) C Q E
      (d, b) := by
    refine ensures_observe hC (kind_observes d _) ?_
    have hkind : d.kind (.metadata .journalTmp) = none ∨
        d.kind (.metadata .journalTmp) = some .file := by
      cases h : d.journalTmp <;> simp [Disk.kind, Disk.record, h]
    have hsteps : (do
        act (.openTruncate .journalTmp)
        act (.write .journalTmp j.toJson)
        act (.sync (.metadata .journalTmp))
        act (.replace .journalTmp .journal)
        act (.sync (.metadata .journal)) : FileProg ι Unit).Ensures (watchedStep ctx) C Q E
        (d, b) := by
      refine Ensures.bind (act_ensures_same (o := .openTruncate .journalTmp) hC rfl
        (hd d.journalTmp) (hd (some .incomplete)) ?_)
      refine Ensures.bind (act_ensures_same (o := .write .journalTmp j.toJson) hC rfl
        (hd _) (hd (some (.complete j.toJson))) ?_)
      refine Ensures.bind (act_ensures_same (o := .sync _) hC rfl (hd _) (hd _) ?_)
      have hreplace : Disk.step (.replace .journalTmp .journal)
          { d with journalTmp := some (.complete j.toJson) } =
            (.ok (), { d with journal := j.onDisk, journalTmp := none }) := rfl
      refine Ensures.bind (act_ensures hreplace (hd _) ?_ ?_)
      · rw [hseen]
        exact hd'
      · rw [hseen]
        exact act_ensures_same (o := .sync _) hC rfl hd' hd' hQ
    rcases hkind with hkind | hkind <;> rw [hkind] <;> exact hsteps
  unfold writeJournal
  rw [hvalid]
  exact hwrite

/-- Without a journal only its temporary file is removed. -/
theorem readJournal_ensures_none {Q : Option (Journal ctx.isidentifier) → Watched ι → Prop}
    (hj : d.journal = none) (hs : d.stage = none) (hp : d.previous = none) (hd : C (d, b))
    (hd' : C ({ d with journalTmp := none }, b)) (hQ : Q none ({ d with journalTmp := none }, b)) :
    (readJournal ctx true).Ensures (watchedStep ctx) C Q E (d, b) := by
  refine ensures_observe hC (kind_observes d _) ?_
  refine ensures_observe hC (kind_observes d _) ?_
  rw [if_pos (by simp [Disk.kind, Disk.record, hj])]
  cases ht : d.journalTmp with
  | none =>
    have hsame : ({ d with journalTmp := none } : Disk ι) = d := by rw [← ht]
    rw [hsame] at hQ
    rw [if_neg (by simp [Disk.kind, Disk.record, ht])]
    exact ⟨hd, hQ⟩
  | some m =>
    rw [if_pos (by simp [Disk.kind, Disk.record, ht])]
    refine ensures_observe hC (kind_observes d _) ?_
    refine ensures_observe hC (kind_observes d _) ?_
    rw [if_neg (by simp [Disk.kind, Disk.slot, hs, hp])]
    exact Ensures.bind (removeFile_ensures hC hd hd' ⟨hd', hQ⟩)

/-- A journal of this destination is returned; its temporary file is removed. -/
theorem readJournal_ensures_some {Q : Option (Journal ctx.isidentifier) → Watched ι → Prop}
    {j : Journal ctx.isidentifier} (hj : d.journal = j.onDisk)
    (hdest : j.destination = ctx.destinationName) (hd : C (d, b))
    (hd' : C ({ d with journalTmp := none }, b))
    (hQ : Q (some j) ({ d with journalTmp := none }, b)) :
    (readJournal ctx true).Ensures (watchedStep ctx) C Q E (d, b) := by
  have hvalid := validateJournal_toJson j
  rw [hdest] at hvalid
  refine ensures_observe hC (kind_observes d _) ?_
  refine ensures_observe hC (kind_observes d _) ?_
  rw [if_neg (by simp [Disk.kind, Disk.record, hj, Journal.onDisk])]
  have hread : Disk.step (.readJson .journal) d = (.ok j.toJson, d) := by
    simp [Disk.step, Disk.record, hj, Journal.onDisk]
  refine ensures_observe hC (Observes.perform (o := Op.readJson .journal) hread) ?_
  simp only [hvalid]
  cases ht : d.journalTmp with
  | none =>
    have hsame : ({ d with journalTmp := none } : Disk ι) = d := by rw [← ht]
    rw [hsame] at hQ
    rw [if_neg (by simp [Disk.kind, Disk.record, ht])]
    exact ⟨hd, hQ⟩
  | some m =>
    rw [if_pos (by simp [Disk.kind, Disk.record, ht])]
    refine Ensures.bind ?_
    exact removeFile_ensures hC hd hd' ⟨hd', hQ⟩

end

end Effects

end

end PyCircuit.Publication
