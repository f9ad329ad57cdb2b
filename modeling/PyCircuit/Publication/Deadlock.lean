import PyCircuit.Publication.LockSet
import PyCircuit.Lib.Fallible
import Mathlib.Data.List.Pairwise
import Mathlib.Data.List.ProdSigma

/-!
# Lock sets do not deadlock

Every command requests its locks in the strict order of the normalized paths. The entries of a lock
set are sorted by that key, and two entries with one key are refused as conflicting
(`lockEntries_strict`); the locks of `_bootstrap` and `_recover_publication` are requested while the
command holds none. So the order argument of `Host.no_cycle` applies to any number of processes.
-/

set_option autoImplicit false

namespace PyCircuit.Publication

open PyCircuit.Lib Prog

variable (fuel : Nat) (d : Destination)

section

variable {ι α β : Type} {isidentifier : String → Bool} {normalize : String → String}

/-! ## Balanced parts -/

/-- The part ends with the locks it starts with, and requests locks in ascending order above
them. -/
def Balanced (normalize : String → String) (held : List (Destination × Bool))
    (p : CommandProg ι α) : Prop :=
  AscendingTo (Destination.key normalize) held p held

section Parts

variable {held : List (Destination × Bool)}

theorem Balanced.pure (a : α) : Balanced normalize held (.pure a : CommandProg ι α) := rfl

theorem Balanced.raise (e : Fault) : Balanced normalize held (.raise e : CommandProg ι α) := rfl

variable {p : CommandProg ι α}

theorem Balanced.bind {f : α → CommandProg ι β}
    (hp : Balanced normalize held p) (hf : ∀ a, Balanced normalize held (f a)) :
    Balanced normalize held (p.bind f) :=
  AscendingTo.bind hp rfl hf

theorem Balanced.tryCatch {handler : Fault → CommandProg ι α}
    (hp : Balanced normalize held p) (hh : ∀ e, Balanced normalize held (handler e)) :
    Balanced normalize held (Prog.tryCatch p handler) :=
  AscendingTo.tryCatch hp hh

theorem Balanced.ite {c : Prop} [Decidable c] {q : CommandProg ι α}
    (hp : Balanced normalize held p) (hq : Balanced normalize held q) :
    Balanced normalize held (if c then p else q) :=
  Safe.ite (fun _ => hp) (fun _ => hq)

theorem Balanced.ofExcept (r : Except Fault α) :
    Balanced normalize held (Prog.ofExcept r : CommandProg ι α) :=
  Safe.ofExcept (fun _ _ => rfl) (fun _ _ => rfl)

/-- A step on the store leaves the locks. -/
theorem Balanced.step (o : HostOp ι) :
    Balanced normalize held (perform (LockOp.op o) : CommandProg ι (HostAns o)) :=
  ⟨trivial, fun r t ht => by
    cases r with
    | ok a => exact ht
    | error e => exact ht⟩

theorem Balanced.onControl (o : ControlOp) :
    Balanced normalize held (onControl d o : CommandProg ι (ControlAns o)) :=
  Balanced.step (.control d o)

/-- The functions of the protocol request no locks. -/
theorem Balanced.onFiles (p : FileProg ι α) : Balanced normalize held (onFiles d p) := by
  induction p with
  | pure a | raise e => rfl
  | call o next ih =>
    refine ⟨trivial, ?_⟩
    rintro r t rfl
    exact ih r

/-- A `with` statement requests a lock above those held, and releases it at each of its ends. -/
theorem Balanced.withLock {d : Destination} {shared : Bool} {body : CommandProg ι α}
    (habove : ∀ b ∈ held, b.1.key normalize < d.key normalize)
    (hbody : Balanced normalize ((d, shared) :: held) body) :
    Balanced normalize held (withLock d shared body) := by
  have hreleased : released d ((d, shared) :: held) = held := by simp [released]
  have hrelease : ∀ {β : Type} {Q : β → List (Destination × Bool) → Prop}
      {next : CommandProg ι β},
      next.Safe (Above (Destination.key normalize)) Holds Q (fun _ t => t = held) held →
        ((release d : CommandProg ι Unit).bind fun _ => next).Safe
          (Above (Destination.key normalize)) Holds Q (fun _ t => t = held)
          ((d, shared) :: held) := by
    intro β Q next hnext
    refine Safe.bind (Safe.perform trivial ?_ ?_)
    · rintro a t ⟨-, rfl⟩
      rw [hreleased]
      exact hnext
    · rintro e t ⟨hr, -⟩
      cases hr
  refine Safe.bind (Safe.perform habove ?_ ?_)
  · rintro a t (⟨-, rfl⟩ | ⟨⟨e, he⟩, -⟩)
    · refine Safe.bind (Safe.tryCatch (Safe.mono hbody ?_ ?_))
      · rintro b t rfl
        exact hrelease rfl
      · rintro e t rfl
        exact hrelease rfl
    · cases he
  · rintro e t (⟨hr, -⟩ | ⟨-, rfl⟩)
    · cases hr
    · rfl

end Parts

/-! ## Strict order of the entries -/

theorem pathsConflict_of_key_eq {left right : Location}
    (h : normalizedPathParts normalize left = normalizedPathParts normalize right) :
    pathsConflict normalize left right = true := by
  simp [pathsConflict, h]

theorem key_ne_of_conflictOf {left right : LockEntry isidentifier ι}
    (h : conflictOf normalize left right = none) :
    left.destination.key normalize ≠ right.destination.key normalize := by
  intro hkey
  have hnone := List.find?_eq_none.mp h (left.destination.location, right.destination.location)
    (List.mem_product.mpr ⟨List.mem_cons_self, List.mem_cons_self⟩)
  exact hnone (pathsConflict_of_key_eq hkey)

variable {entries : List (LockEntry isidentifier ι)}

theorem firstConflict_pairwise (h : firstConflict normalize entries = none) :
    entries.Pairwise fun a b => a.destination.key normalize ≠ b.destination.key normalize := by
  induction entries with
  | nil => exact List.Pairwise.nil
  | cons left rest ih =>
    obtain ⟨hleft, hrest⟩ := Option.or_eq_none_iff.mp h
    refine List.Pairwise.cons ?_ (ih hrest)
    intro right hright
    exact key_ne_of_conflictOf (List.findSome?_eq_none_iff.mp hleft right hright)

/-- The entries of a lock set are in the strict order of their keys. -/
theorem orderEntries_strict {unsorted : List (LockEntry isidentifier ι)}
    (h : orderEntries normalize unsorted = .ok entries) :
    entries.Pairwise fun a b => a.destination.key normalize < b.destination.key normalize := by
  cases hconflict : firstConflict normalize unsorted with
  | some pair =>
    rw [orderEntries, hconflict] at h
    cases h
  | none =>
    rw [orderEntries, hconflict] at h
    cases h
    have hperm := List.perm_insertionSort (fun a b : LockEntry isidentifier ι =>
      a.destination.key normalize ≤ b.destination.key normalize) unsorted
    have hdistinct := (hperm.symm.pairwise_iff (fun {a b} hab => Ne.symm hab)).mp
      (firstConflict_pairwise hconflict)
    have hsorted := List.pairwise_insertionSort (fun a b : LockEntry isidentifier ι =>
      a.destination.key normalize ≤ b.destination.key normalize) unsorted
    exact (hsorted.and hdistinct).imp fun hab => lt_of_le_of_ne hab.1 hab.2

theorem lockEntries_strict {inputs : List (Input ι)} {outputs : List (Output ι)}
    (h : lockEntries normalize isidentifier inputs outputs = .ok entries) :
    entries.Pairwise fun a b => a.destination.key normalize < b.destination.key normalize := by
  obtain ⟨shared, -, hsorted⟩ := Fallible.bind_eq_ok.mp h
  exact orderEntries_strict hsorted

/-! ## The commands -/

section Commands

variable {held : List (Destination × Bool)}

theorem readControlOwner_balanced :
    Balanced normalize held (readControlOwner d : CommandProg ι Unit) :=
  .bind (.onControl d _) fun _ => .ite (.pure ()) (.raise _)

theorem listControl_balanced :
    Balanced normalize held (listControl d : CommandProg ι (List String)) :=
  .bind (.onControl d _) fun _ => .ite (.pure _) (.raise _)

theorem orExists_balanced {p : CommandProg ι Unit}
    (hp : Balanced normalize held p) : Balanced normalize held (orExists p) :=
  .tryCatch hp fun _ => .ite (.pure ()) (.raise _)

theorem initializeControl_balanced :
    Balanced normalize held (initializeControl d : CommandProg ι Unit) := by
  have hmarker : Balanced normalize held (writeMarker d : CommandProg ι Unit) := by
    refine .bind (.onControl d _) fun _ => .ite ?_ (.raise _)
    refine .bind (.onControl d .openTruncate) fun _ => .bind (.onControl d (.write _)) fun _ =>
      .bind (.onControl d .sync) fun _ => .bind (.onControl d _) fun _ => .ite ?_ (.raise _)
    exact .bind (.onControl d .replace) fun _ => .onControl d .sync
  exact .bind (.onControl d _) fun _ =>
    .ite (.bind hmarker fun _ => readControlOwner_balanced d) (.pure ())

/-- The lock of `_bootstrap` is the only one held. -/
theorem bootstrap_balanced : Balanced normalize [] (bootstrap d : CommandProg ι Unit) := by
  have hlocked : Balanced normalize []
      (withLock d false (initializeControl d) : CommandProg ι Unit) :=
    .withLock (List.forall_mem_nil _) (initializeControl_balanced d)
  have hopen : Balanced normalize [] (openControl d : CommandProg ι Unit) := by
    refine .bind (.onControl d _) fun _ => .ite (.bind (orExists_balanced ?_) fun _ => ?_)
      (.ite (.raise _) (.pure ()))
    · exact .bind (.onControl d .mkdir) fun _ => .onControl d .sync
    · exact .bind (.onControl d _) fun _ => .ite (.raise _) (.pure ())
  have hunowned : ∀ entries lockKind,
      Balanced normalize [] (bootstrapUnowned d entries lockKind : CommandProg ι Unit) := by
    intro entries lockKind
    refine .ite (.raise _) (.ite (.bind (orExists_balanced ?_) fun _ => ?_)
      (.ite (.raise _) hlocked))
    · exact .bind (.onControl d .create) fun _ => .onControl d .sync
    · exact .bind (.onControl d _) fun _ => .ite (.raise _) hlocked
  refine .bind hopen fun _ => .bind (listControl_balanced d) fun entries =>
    .bind (.onControl d _) fun _ => .bind (.onControl d _) fun lockKind =>
      .ite (hunowned entries lockKind) ?_
  exact .ite (.raise _) (.ite (.raise _) (readControlOwner_balanced d))

theorem requireInitializedControl_balanced :
    Balanced normalize [] (requireInitializedControl d : CommandProg ι Unit) :=
  .bind (.onControl d _) fun _ => .ite (.raise _) (.bind (.onControl d _) fun _ =>
    .bind (.onControl d _) fun _ => .ite (.raise _) (readControlOwner_balanced d))

theorem validateControl_balanced (cleanup : Bool) :
    Balanced normalize held (validateControl d cleanup : CommandProg ι Unit) := by
  refine .bind (readControlOwner_balanced d) fun _ => .bind (.onControl d _) fun _ =>
    .ite (.raise _) (.bind (listControl_balanced d) fun _ => .bind (.onControl d _) fun _ =>
      .ite (.raise _) ?_)
  refine .bind (.onFiles d _) fun _ => .bind (.onFiles d _) fun _ => .bind (.onFiles d _) fun _ =>
    .bind (.onFiles d _) fun _ => .ite ?_ (.pure ())
  exact .bind (.onControl d .unlink) fun _ => .onControl d .sync

theorem callback_balanced (looks : Nat) (result : Except Fault Unit) :
    Balanced normalize held (callback d looks result : CommandProg ι Unit) := by
  have hreads : Balanced normalize held (readMany d looks : CommandProg ι Unit) := by
    induction looks with
    | zero => exact .pure ()
    | succ n ih => exact .bind (.onFiles d _) fun _ => ih
  exact .bind (.step _) fun _ => .bind hreads fun _ => .bind (.step _) fun _ => .ofExcept result

theorem runUses_balanced (entries : List (LockEntry isidentifier ι)) (uses : List (Use ι)) :
    Balanced normalize held (runUses normalize entries uses) := by
  induction uses with
  | nil => exact .pure ()
  | cons use rest ih =>
    cases use with
    | snapshot d looks result =>
      refine .bind (.bind (.ofExcept _) fun entry => ?_) fun _ => ih
      exact .ite (.raise _) (callback_balanced _ looks result)
    | publish d req validate =>
      refine .bind (.bind (.ofExcept _) fun entry => ?_) fun _ => ih
      exact .bind (.onFiles _ _) fun _ => .pure ()

theorem prepareEntries_balanced (entries : List (LockEntry isidentifier ι)) :
    Balanced normalize [] (prepareEntries entries : CommandProg ι Unit) := by
  induction entries with
  | nil => exact .pure ()
  | cons entry rest ih =>
    cases entry with
    | input d owner stable recovery =>
      exact .bind (requireInitializedControl_balanced d) fun _ => ih
    | output d recovery => exact .bind (bootstrap_balanced d) fun _ => ih

theorem checkEntries_balanced (entries : List (LockEntry isidentifier ι)) :
    Balanced normalize held (checkEntries entries) := by
  induction entries with
  | nil => exact .pure none
  | cons entry rest ih =>
    refine .bind ?_ fun recover => .ite (.pure _) ih
    cases entry with
    | input d owner stable recovery =>
      exact .bind (validateControl_balanced d false) fun _ => .onFiles d _
    | output d recovery =>
      exact .bind (validateControl_balanced d true) fun _ => .bind (.onFiles d _) fun _ =>
        .pure false

/-- The locks of the entries are taken in the order of their keys, each above all before it. -/
theorem withLocks_balanced {entries : List (LockEntry isidentifier ι)} {body : CommandProg ι α}
    (hbody : ∀ held, Balanced normalize held body)
    (hstrict : entries.Pairwise fun a b =>
      a.destination.key normalize < b.destination.key normalize)
    (habove : ∀ entry ∈ entries, ∀ b ∈ held,
      b.1.key normalize < entry.destination.key normalize) :
    Balanced normalize held (withLocks entries body) := by
  induction entries generalizing held with
  | nil => exact hbody held
  | cons entry rest ih =>
    obtain ⟨hfirst, hrest⟩ := List.pairwise_cons.mp hstrict
    refine .withLock (habove entry List.mem_cons_self) (ih hrest ?_)
    intro later hlater
    exact List.forall_mem_cons.mpr
      ⟨hfirst later hlater, habove later (List.mem_cons_of_mem _ hlater)⟩

theorem recoverPublication_balanced (validate : Validator ι) :
    Balanced normalize [] (recoverPublication isidentifier d validate) := by
  refine .bind (bootstrap_balanced d) fun _ => .withLock (List.forall_mem_nil _) ?_
  exact .bind (validateControl_balanced d true) fun _ => .bind (.onFiles d _) fun _ =>
    .ite (.pure ()) (.onFiles d _)

/-- The input to recover is recovered when the locks of the round have been released. -/
theorem lockRounds_balanced {entries : List (LockEntry isidentifier ι)} (uses : List (Use ι))
    (hstrict : entries.Pairwise fun a b =>
      a.destination.key normalize < b.destination.key normalize) (fuel : Nat) :
    Balanced normalize [] (lockRounds normalize entries uses fuel) := by
  have hround : Balanced normalize [] (lockRound normalize entries uses) := by
    refine .bind (prepareEntries_balanced entries) fun _ => withLocks_balanced ?_ hstrict ?_
    · intro held
      refine .bind (checkEntries_balanced entries) fun pending => ?_
      cases pending with
      | some entry => exact .pure _
      | none => exact .bind (runUses_balanced entries uses) fun _ => .pure _
    · exact fun _ _ => List.forall_mem_nil _
  induction fuel with
  | zero => exact .raise _
  | succ fuel ih =>
    refine .bind hround fun pending => ?_
    cases pending with
    | some entry => exact .bind (recoverPublication_balanced _ _) fun _ => ih
    | none => exact .pure ()

theorem lockSet_balanced (inputs : List (Input ι)) (outputs : List (Output ι))
    (uses : List (Use ι)) :
    Balanced normalize [] (lockSet isidentifier normalize fuel inputs outputs uses) := by
  unfold lockSet
  cases hentries : lockEntries normalize isidentifier inputs outputs with
  | ok entries => exact lockRounds_balanced uses (lockEntries_strict hentries) fuel
  | error e => exact .raise e

theorem readRounds_balanced (owner : Owner isidentifier) (stable recovery : Validator ι)
    (looks : Nat) (result : Except Fault Unit) (fuel : Nat) :
    Balanced normalize [] (readRounds d owner stable recovery looks result fuel) := by
  induction fuel with
  | zero => exact .raise _
  | succ fuel ih =>
    refine .bind (.withLock (List.forall_mem_nil _) ?_) fun recover =>
      .ite (.bind (recoverPublication_balanced d recovery) fun _ => ih) (.pure ())
    refine .bind (validateControl_balanced d false) fun _ => .bind (.onFiles d _) fun _ =>
      .ite (.pure _) ?_
    exact .bind (callback_balanced d looks result) fun _ => .pure _

/-- Every call requests locks in ascending order and releases them all. -/
theorem program_ascending (c : Command ι) :
    Ascending (Destination.key normalize) (c.program isidentifier normalize fuel) := by
  cases c with
  | publish d req validate =>
    show Balanced normalize [] (publishLocked isidentifier normalize fuel d req validate)
    unfold publishLocked
    cases validateOwner isidentifier req.owner with
    | ok owner => exact lockSet_balanced fuel [] _ _
    | error m => exact .raise _
  | recover d validate => exact recoverPublication_balanced d validate
  | read d owner stable recovery looks result =>
    show Balanced normalize []
      (readPublished isidentifier fuel d owner stable recovery looks result)
    unfold readPublished
    cases validateOwner isidentifier owner with
    | ok expected =>
      exact .bind (requireInitializedControl_balanced d) fun _ =>
        readRounds_balanced d expected stable recovery looks result fuel
    | error m => exact .raise _
  | locks inputs outputs uses => exact lockSet_balanced fuel inputs outputs uses

end Commands

/-- The environment of processes that make the calls of `_publication.py`, for any answers to the
steps on the file system. -/
def publicationHost {ρ σ π : Type} (isidentifier : String → Bool) (normalize : String → String)
    (file : Destination → ρ) (answer : π → Machine (HostOp ι) HostAns Fault σ)
    (killed : π → σ → σ) : Host (HostOp ι) HostAns Destination ρ Fault σ π where
  file := file
  answer := answer
  killed := killed
  commands := fun _ p => ∃ fuel c, p = Command.program isidentifier normalize fuel c

def sampleHost : Host (HostOp Nat) HostAns Destination Destination Fault Unit Bool :=
  publicationHost (fun _ => true) id id
    (fun _ o _ => (match o with
      | .control _ (.kind .directory) => .ok (some .directory)
      | .control _ (.kind .owner) | .control _ (.kind .lock) => .ok (some .file)
      | .control _ .list => .ok ["owner.json", "lock"]
      | .control d (.readJson .owner) => .ok (controlMarker d)
      | _ => .error (.os "Input/output error"), ()))
    fun _ => id

def sampleRecovery : CommandProg Nat Unit :=
  Command.program (fun _ => true) id 1 (.recover ⟨["/"], "out"⟩ fun _ _ => .ok ())

/-- Both processes have come to the request of the lock. -/
def sampleRequests : System (HostOp Nat) HostAns Destination Fault Unit Bool :=
  let none : System (HostOp Nat) HostAns Destination Fault Unit Bool :=
    ⟨fun _ => ⟨.pure (), []⟩, ()⟩
  let first := sampleHost.advance true 5 (none.move true ⟨sampleRecovery, []⟩ ())
  sampleHost.advance false 5 (first.move false ⟨sampleRecovery, []⟩ ())

theorem sampleRequests_runs : sampleHost.Runs () sampleRequests := by
  have hfirst : sampleHost.Runs () _ := .single (.start true sampleRecovery trivial ⟨1, _, rfl⟩)
  have hsecond := (Host.Runs.advance hfirst true 5).tail
    (.start false sampleRecovery trivial ⟨1, _, rfl⟩)
  exact Host.Runs.advance hsecond false 5

/-- One process has got the lock, and the other one waits for it. -/
def sampleHolds : System (HostOp Nat) HostAns Destination Fault Unit Bool :=
  Host.grant sampleRequests true

theorem sampleHolds_runs : sampleHost.Runs () sampleHolds :=
  Host.Runs.grant sampleRequests_runs true (Bool.forall_bool.mpr ⟨rfl, rfl⟩)

/-- A process whose call has returned or raised holds no lock, in every run and whatever fails. -/
theorem finished_holds_no_lock {ρ σ π : Type} [DecidableEq π] (isidentifier : String → Bool)
    (normalize : String → String) (file : Destination → ρ)
    (answer : π → Machine (HostOp ι) HostAns Fault σ) (killed : π → σ → σ) (store : σ)
    (s : System (HostOp ι) HostAns Destination Fault σ π)
    (hs : (publicationHost isidentifier normalize file answer killed).Runs store s) (i : π)
    (hfinished : (s.process i).rest.Finished) : (s.process i).held = [] := by
  have hcommands : ∀ j p, (publicationHost isidentifier normalize file answer killed).commands j p →
      Ascending (Destination.key normalize) p := by
    rintro j p ⟨fuel, c, rfl⟩
    exact program_ascending fuel c
  have hi := Ordered.runs hcommands hs i
  cases hrest : (s.process i).rest with
  | pure a | raise e =>
    rw [hrest] at hi
    exact hi
  | call o next =>
    rw [hrest] at hfinished
    exact hfinished.elim

/-- The recovery that holds the lock fails, releases it and raises. -/
theorem finished_holds_no_lock_raised :
    let s := sampleHost.advance true 5 sampleHolds
    (sampleHolds.process true).held ≠ [] ∧ (s.process true).rest.Finished ∧
      (s.process true).held = [] := by
  have hrun := Host.Runs.advance sampleHolds_runs true 5
  exact ⟨List.cons_ne_nil _ _, trivial,
    finished_holds_no_lock (fun _ => true) id id _ _ () _ hrun true trivial⟩

end

end PyCircuit.Publication
