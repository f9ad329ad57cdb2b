import PyCircuit.Lib.Demonic
import Mathlib.Logic.Relation
import Mathlib.Order.Basic
import Mathlib.Logic.Function.Basic

/-!
# Processes that share a store and block on advisory locks

A process runs a program whose operations are steps on a shared store, requests for a shared or
exclusive lock, and releases. `Host.Step` interleaves the operations of any family of processes: a
request waits as long as the lock file is held in a conflicting mode, a kill releases every lock of
the process, and a process that has come to the end of a program starts another one.

`Host.no_cycle` is the order argument against deadlocks. If the requests of every program are for
names that rank above all names it holds (`Ascending`), then no state of a run has a cycle of
processes that each wait for a lock held by the next.
-/

set_option autoImplicit false

namespace PyCircuit.Lib

/-- The operations of a process: a step on the store, or one on the lock with a given name. -/
inductive LockOp (Op ν : Type) where
  | op (o : Op)
  | lock (name : ν) (shared : Bool)
  | unlock (name : ν)

/-- Type of the answer to an operation. -/
@[reducible] def LockAns {Op ν : Type} (Ans : Op → Type) : LockOp Op ν → Type
  | .op o => Ans o
  | .lock _ _ => Unit
  | .unlock _ => Unit

/-- A program of a process. -/
abbrev LockProg (Op : Type) (Ans : Op → Type) (ν ε α : Type) : Type :=
  Prog (LockOp Op ν) (LockAns Ans) ε α

/-- The rest of the program of a process, and the locks it holds, the latest first. -/
structure Process (Op : Type) (Ans : Op → Type) (ν ε : Type) where
  rest : LockProg Op Ans ν ε Unit
  held : List (ν × Bool)

/-- A family of processes and the store they share. -/
structure System (Op : Type) (Ans : Op → Type) (ν ε σ π : Type) where
  process : π → Process Op Ans ν ε
  store : σ

/-- The environment of the processes: the lock file that a name stands for, the answers to the steps
on the store, what a kill does to it, and the programs that a process may start. -/
structure Host (Op : Type) (Ans : Op → Type) (ν ρ ε σ π : Type) where
  file : ν → ρ
  answer : π → Machine Op Ans ε σ
  killed : π → σ → σ
  commands : π → LockProg Op Ans ν ε Unit → Prop

section

variable {Op : Type} {Ans : Op → Type} {ν ρ ε σ π : Type}

/-- A program at its end. -/
def Prog.Finished {α : Type} : LockProg Op Ans ν ε α → Prop
  | .pure _ => True
  | .raise _ => True
  | .call _ _ => False

/-- The locks left after the release of a name. -/
def released [DecidableEq ν] (name : ν) (held : List (ν × Bool)) : List (ν × Bool) :=
  held.eraseP fun b => b.1 = name

/-- The state after process `i` has moved. -/
def System.move [DecidableEq π] (s : System Op Ans ν ε σ π) (i : π) (p : Process Op Ans ν ε)
    (t : σ) :
    System Op Ans ν ε σ π :=
  ⟨Function.update s.process i p, t⟩

namespace Host

variable [DecidableEq ν] [DecidableEq π] (H : Host Op Ans ν ρ ε σ π)

/-- A request for the lock of a name conflicts with a lock that is held. -/
def Conflicts (name : ν) (shared : Bool) (b : ν × Bool) : Prop :=
  H.file b.1 = H.file name ∧ ¬ (b.2 = true ∧ shared = true)

/-- One step of one process. -/
inductive Step : System Op Ans ν ε σ π → System Op Ans ν ε σ π → Prop where
  | op {s : System Op Ans ν ε σ π} (i : π) (o : Op)
      (next : Except ε (Ans o) → LockProg Op Ans ν ε Unit)
      (h : (s.process i).rest = .call (.op o) next) :
      Step s (s.move i ⟨next (H.answer i o s.store).1, (s.process i).held⟩
        (H.answer i o s.store).2)
  | lock {s : System Op Ans ν ε σ π} (i : π) (name : ν) (shared : Bool)
      (next : Except ε Unit → LockProg Op Ans ν ε Unit)
      (h : (s.process i).rest = .call (.lock name shared) next)
      (hfree : ∀ j, ∀ b ∈ (s.process j).held, ¬ H.Conflicts name shared b) :
      Step s (s.move i ⟨next (.ok ()), (name, shared) :: (s.process i).held⟩ s.store)
  | lockFailed {s : System Op Ans ν ε σ π} (i : π) (name : ν) (shared : Bool)
      (next : Except ε Unit → LockProg Op Ans ν ε Unit) (e : ε)
      (h : (s.process i).rest = .call (.lock name shared) next) :
      Step s (s.move i ⟨next (.error e), (s.process i).held⟩ s.store)
  | unlock {s : System Op Ans ν ε σ π} (i : π) (name : ν)
      (next : Except ε Unit → LockProg Op Ans ν ε Unit)
      (h : (s.process i).rest = .call (.unlock name) next) :
      Step s (s.move i ⟨next (.ok ()), released name (s.process i).held⟩ s.store)
  | start {s : System Op Ans ν ε σ π} (i : π) (p : LockProg Op Ans ν ε Unit)
      (hfinished : (s.process i).rest.Finished) (hp : H.commands i p) :
      Step s (s.move i ⟨p, (s.process i).held⟩ s.store)
  | kill {s : System Op Ans ν ε σ π} (i : π) :
      Step s (s.move i ⟨.pure (), []⟩ (H.killed i s.store))

/-- The states of the runs from a store on which no process has started. -/
def Runs (store : σ) : System Op Ans ν ε σ π → Prop :=
  Relation.ReflTransGen H.Step ⟨fun _ => ⟨.pure (), []⟩, store⟩

/-- Process `i` requests a lock that process `j` holds in a conflicting mode. -/
def Waits (s : System Op Ans ν ε σ π) (i j : π) : Prop :=
  ∃ name shared next, (s.process i).rest = .call (.lock name shared) next ∧
    ∃ b ∈ (s.process j).held, H.Conflicts name shared b

variable {H} {s : System Op Ans ν ε σ π} {store : σ}

/-- Process `i` makes its next `n` steps, as far as these are steps on the store and releases. -/
def advance (H : Host Op Ans ν ρ ε σ π) (i : π) :
    Nat → System Op Ans ν ε σ π → System Op Ans ν ε σ π
  | 0, s => s
  | n + 1, s =>
    match (s.process i).rest with
    | .call (.op o) next =>
      H.advance i n (s.move i ⟨next (H.answer i o s.store).1, (s.process i).held⟩
        (H.answer i o s.store).2)
    | .call (.unlock name) next =>
      H.advance i n (s.move i ⟨next (.ok ()), released name (s.process i).held⟩ s.store)
    | _ => s

theorem Runs.advance (hs : H.Runs store s) (i : π) (n : Nat) :
    H.Runs store (H.advance i n s) := by
  induction n generalizing s with
  | zero => exact hs
  | succ n ih =>
    rw [Host.advance]
    split
    · next o next h => exact ih (hs.tail (.op i o next h))
    · next name next h => exact ih (hs.tail (.unlock i name next h))
    · exact hs

/-- Process `i` gets the lock it requests. -/
def grant (s : System Op Ans ν ε σ π) (i : π) : System Op Ans ν ε σ π :=
  match (s.process i).rest with
  | .call (.lock name shared) next =>
    s.move i ⟨next (.ok ()), (name, shared) :: (s.process i).held⟩ s.store
  | _ => s

theorem Runs.grant (hs : H.Runs store s) (i : π) (hfree : ∀ j, (s.process j).held = []) :
    H.Runs store (Host.grant s i) := by
  rw [Host.grant]
  split
  · next name shared next h =>
    refine hs.tail (.lock i name shared next h fun j b hb => ?_)
    rw [hfree j] at hb
    cases hb
  · exact hs

end Host

/-! ## The order argument -/

section Order

variable [DecidableEq ν] {K : Type} [Preorder K] (rank : ν → K)

/-- A request is for a name above all names held. -/
def Above : LockOp Op ν → List (ν × Bool) → Prop
  | .op _, _ => True
  | .lock name _, held => ∀ b ∈ held, rank b.1 < rank name
  | .unlock _, _ => True

/-- What an operation does to the locks of the process. -/
def Holds : (o : LockOp Op ν) → List (ν × Bool) → Except ε (LockAns Ans o) →
    List (ν × Bool) → Prop
  | .op _, held, _, held' => held' = held
  | .lock name shared, held, r, held' =>
    r = .ok () ∧ held' = (name, shared) :: held ∨ (∃ e, r = .error e) ∧ held' = held
  | .unlock name, held, r, held' => r = .ok () ∧ held' = released name held

/-- The program only requests locks above those it holds, and ends with those in `last`. -/
def AscendingTo {α : Type} (last : List (ν × Bool)) (p : LockProg Op Ans ν ε α)
    (held : List (ν × Bool)) : Prop :=
  p.Safe (Above rank) Holds (fun _ t => t = last) (fun _ t => t = last) held

/-- The program only requests locks above those it holds and releases them all. -/
def Ascending (p : LockProg Op Ans ν ε Unit) : Prop := AscendingTo rank [] p []

variable {rank}

theorem AscendingTo.bind {α β : Type} {p : LockProg Op Ans ν ε α}
    {f : α → LockProg Op Ans ν ε β} {held last : List (ν × Bool)}
    (hp : AscendingTo rank held p held) (hlast : held = last)
    (hf : ∀ a, AscendingTo rank last (f a) held) : AscendingTo rank last (p.bind f) held := by
  refine Prog.Safe.bind (Prog.Safe.mono hp ?_ ?_)
  · rintro a t rfl
    exact hf a
  · rintro e t rfl
    exact hlast

theorem AscendingTo.tryCatch {α : Type} {p : LockProg Op Ans ν ε α}
    {handler : ε → LockProg Op Ans ν ε α} {held : List (ν × Bool)}
    (hp : AscendingTo rank held p held) (hh : ∀ e, AscendingTo rank held (handler e) held) :
    AscendingTo rank held (p.tryCatch handler) held := by
  refine Prog.Safe.tryCatch (Prog.Safe.mono hp (fun _ _ ht => ht) ?_)
  rintro e t rfl
  exact hh e

variable {H : Host Op Ans ν ρ ε σ π}

/-- Every process is inside an ascending program. -/
def Ordered (rank : ν → K) (s : System Op Ans ν ε σ π) : Prop :=
  ∀ i, AscendingTo rank [] (s.process i).rest (s.process i).held

variable [DecidableEq π]

variable {s : System Op Ans ν ε σ π}

/-- A move of one process keeps the order if its new program is ascending. -/
theorem Ordered.move (hs : Ordered rank s) {i : π}
    {p : Process Op Ans ν ε} {t : σ} (hp : AscendingTo rank [] p.rest p.held) :
    Ordered rank (s.move i p t) := by
  intro j
  by_cases hj : j = i
  · subst hj
    simp only [System.move, Function.update_self]
    exact hp
  · simp only [System.move, Function.update_of_ne hj]
    exact hs j

theorem Ordered.step (hcommands : ∀ i p, H.commands i p → Ascending rank p)
    {t : System Op Ans ν ε σ π} (hs : Ordered rank s) (hst : H.Step s t) : Ordered rank t := by
  cases hst with
  | op i o next h =>
    have hi := hs i
    rw [h] at hi
    exact hs.move (hi.2 _ _ rfl)
  | lock i name shared next h hfree =>
    have hi := hs i
    rw [h] at hi
    exact hs.move (hi.2 _ _ (Or.inl ⟨rfl, rfl⟩))
  | lockFailed i name shared next e h =>
    have hi := hs i
    rw [h] at hi
    exact hs.move (hi.2 _ _ (Or.inr ⟨⟨e, rfl⟩, rfl⟩))
  | unlock i name next h =>
    have hi := hs i
    rw [h] at hi
    exact hs.move (hi.2 _ _ ⟨rfl, rfl⟩)
  | start i p hfinished hp =>
    -- a finished program has released all its locks
    have hheld : (s.process i).held = [] := by
      have hi := hs i
      cases hrest : (s.process i).rest with
      | pure a | raise e =>
        rw [hrest] at hi
        exact hi
      | call o next =>
        rw [hrest] at hfinished
        exact hfinished.elim
    refine hs.move ?_
    rw [hheld]
    exact hcommands i p hp
  | kill i => exact hs.move rfl

theorem Ordered.runs (hcommands : ∀ i p, H.commands i p → Ascending rank p) {store : σ}
    (hs : H.Runs store s) : Ordered rank s := by
  induction hs with
  | refl => exact fun _ => rfl
  | tail _ hst ih => exact ih.step hcommands hst

omit [DecidableEq π] in
/-- The ranks of the requests rise along a chain of waiting processes. -/
theorem Host.rank_lt_of_waits (hfile : ∀ a b, H.file a = H.file b → rank a = rank b)
    (hs : Ordered rank s) {i j : π}
    (hij : Relation.TransGen (H.Waits s) i j) {name name' : ν} {shared shared' : Bool}
    {next next' : Except ε Unit → LockProg Op Ans ν ε Unit}
    (hi : (s.process i).rest = .call (.lock name shared) next)
    (hj : (s.process j).rest = .call (.lock name' shared') next') : rank name < rank name' := by
  -- the process that is waited for requests a name above the lock it holds
  have hone : ∀ {k l : π} {a a' : ν} {m m' : Bool}
      {f f' : Except ε Unit → LockProg Op Ans ν ε Unit},
      H.Waits s k l → (s.process k).rest = .call (.lock a m) f →
        (s.process l).rest = .call (.lock a' m') f' → rank a < rank a' := by
    intro k l a a' m m' f f' hkl hk hl
    obtain ⟨b, mode, g, hrest, held, hmem, hsame, -⟩ := hkl
    rw [hrest] at hk
    cases hk
    have habove := hs l
    rw [hl] at habove
    have hlt := habove.1 held hmem
    rwa [hfile _ _ hsame] at hlt
  induction hij generalizing name' shared' next' with
  | single hwait => exact hone hwait hi hj
  | tail _ hwait ih =>
    obtain ⟨b, mode, g, hrest, hheld⟩ := id hwait
    exact lt_trans (ih hrest) (hone hwait hrest hj)

/-- No reachable state has a cycle of processes that each wait for a lock held by the next. -/
theorem Host.no_cycle (hfile : ∀ a b, H.file a = H.file b → rank a = rank b)
    (hcommands : ∀ i p, H.commands i p → Ascending rank p) {store : σ}
    (hs : H.Runs store s) (i : π) :
    ¬ Relation.TransGen (H.Waits s) i i := by
  intro hcycle
  obtain ⟨j, ⟨name, shared, next, hrest, -⟩, -⟩ := Relation.TransGen.head'_iff.mp hcycle
  exact lt_irrefl _ (H.rank_lt_of_waits hfile (Ordered.runs hcommands hs) hcycle hrest hrest)

end Order

end

end PyCircuit.Lib
