import Mathlib.Tactic.Common

/-!
# Programs of atomic operations that may be killed between two steps

A program asks for atomic operations one at a time and continues with the answer, which may be an
exception. A machine answers one operation from the current store. `Prog.run` executes a program to
its end and `Prog.crashAfter n` gives the store left behind when the process is killed after at most
`n` operations.

`Prog.Ensures` is the weakest precondition of a program with three postconditions: on a normal
return, on an exception, and at every store a kill can leave behind. The rules for sequencing and
for handlers are `Ensures.bind` and `Ensures.tryCatch`; `crashRuns_invariant` is the rule for a
recovery program that is itself killed any number of times.

`Prog.Observes` describes a program that only looks at the store: it leaves the store as it is and
has the given result. Such a program drops out of an `Ensures` goal by `Ensures.observe`.

`watch` adds one bit to the store of a machine that records whether a condition has held at some
store of the run.
-/

set_option autoImplicit false

namespace PyCircuit.Lib

universe u

/-- A program over the operations `Op`, where `Ans o` is the type of the answer to `o` and `ε` the
type of the exceptions. -/
inductive Prog (Op : Type) (Ans : Op → Type) (ε α : Type) : Type where
  | pure (a : α)
  | raise (e : ε)
  | call (o : Op) (next : Except ε (Ans o) → Prog Op Ans ε α)

/-- A machine answers one operation and moves to the next store. -/
abbrev Machine (Op : Type) (Ans : Op → Type) (ε σ : Type) : Type :=
  (o : Op) → σ → Except ε (Ans o) × σ

namespace Prog

variable {Op : Type} {Ans : Op → Type} {ε σ α β : Type}

/-- Sequencing: the second program runs on the value of the first. -/
def bind : Prog Op Ans ε α → (α → Prog Op Ans ε β) → Prog Op Ans ε β
  | .pure a, f => f a
  | .raise e, _ => .raise e
  | .call o next, f => .call o fun r => (next r).bind f

/-- The handler `h` runs in the place of an exception of the program. -/
def tryCatch : Prog Op Ans ε α → (ε → Prog Op Ans ε α) → Prog Op Ans ε α
  | .pure a, _ => .pure a
  | .raise e, h => h e
  | .call o next, h => .call o fun r => (next r).tryCatch h

/-- The program of a computed result. -/
def ofExcept : Except ε α → Prog Op Ans ε α
  | .ok a => .pure a
  | .error e => .raise e

/-- One operation; an exception of the machine is raised. -/
def perform (o : Op) : Prog Op Ans ε (Ans o) := .call o ofExcept

instance : Monad (Prog Op Ans ε) where
  pure := .pure
  bind := .bind

instance : MonadExcept ε (Prog Op Ans ε) where
  throw := .raise
  tryCatch := .tryCatch

/-- The complete execution from a store: the result and the last store. -/
def run (step : Machine Op Ans ε σ) : Prog Op Ans ε α → σ → Except ε α × σ
  | .pure a, s => (.ok a, s)
  | .raise e, s => (.error e, s)
  | .call o next, s => (next (step o s).1).run step (step o s).2

/-- The store left behind when the process is killed after at most `n` operations. -/
def crashAfter (step : Machine Op Ans ε σ) : Nat → Prog Op Ans ε α → σ → σ
  | 0, _, s => s
  | _ + 1, .pure _, s => s
  | _ + 1, .raise _, s => s
  | n + 1, .call o next, s => crashAfter step n (next (step o s).1) (step o s).2

/-- A program run again after each of a list of kills: the `i`-th run is killed after `ns[i]`
operations. -/
def crashRuns (step : Machine Op Ans ε σ) (p : Prog Op Ans ε α) (ns : List Nat) (s : σ) : σ :=
  ns.foldl (fun t n => p.crashAfter step n t) s

/-- From the store `s` every store of the run satisfies `C`, a normal return satisfies `Q` and an
exception satisfies `E`. -/
def Ensures (step : Machine Op Ans ε σ) (C : σ → Prop) (Q : α → σ → Prop) (E : ε → σ → Prop) :
    Prog Op Ans ε α → σ → Prop
  | .pure a, s => C s ∧ Q a s
  | .raise e, s => C s ∧ E e s
  | .call o next, s => C s ∧ Ensures step C Q E (next (step o s).1) (step o s).2

variable {t : σ} {o : Op} {handler : ε → Prog Op Ans ε α} {e : ε}

section Rules

variable {step : Machine Op Ans ε σ} {C : σ → Prop} {Q Q' : α → σ → Prop} {E E' : ε → σ → Prop}

variable {p : Prog Op Ans ε α} {s : σ}

section

variable (h : p.Ensures step C Q E s)
include h

/-- Every run starts in a store that satisfies the crash condition. -/
theorem Ensures.crash_start : C s := by
  cases p with
  | pure a | raise e | call o next => exact h.1

theorem Ensures.mono (hQ : ∀ a t, C t → Q a t → Q' a t) (hE : ∀ e t, C t → E e t → E' e t) :
    p.Ensures step C Q' E' s := by
  induction p generalizing s with
  | pure a => exact ⟨h.1, hQ a s h.1 h.2⟩
  | raise e => exact ⟨h.1, hE e s h.1 h.2⟩
  | call o next ih => exact ⟨h.1, ih _ h.2⟩

theorem Ensures.mono_crash {C' : σ → Prop} (hC : ∀ t, C t → C' t) : p.Ensures step C' Q E s := by
  induction p generalizing s with
  | pure a | raise e => exact ⟨hC s h.1, h.2⟩
  | call o next ih => exact ⟨hC s h.1, ih _ h.2⟩

omit h in
/-- Sequencing rule. -/
theorem Ensures.bind {f : α → Prog Op Ans ε β} {R : β → σ → Prop}
    (h : p.Ensures step C (fun a t => (f a).Ensures step C R E t) E s) :
    (p.bind f).Ensures step C R E s := by
  induction p generalizing s with
  | pure a => exact h.2
  | raise e => exact h
  | call o next ih => exact ⟨h.1, ih _ h.2⟩

omit h in
/-- Handler rule: the exceptions of the program are handled from the store they leave. -/
theorem Ensures.tryCatch (h : p.Ensures step C Q (fun e t => (handler e).Ensures step C Q E t) s) :
    (p.tryCatch handler).Ensures step C Q E s := by
  induction p generalizing s with
  | pure a => exact h
  | raise e => exact h.2
  | call o next ih => exact ⟨h.1, ih _ h.2⟩

omit h in
theorem Ensures.perform {Q : Ans o → σ → Prop} (hs : C s) (ht : C (step o s).2)
    (hok : ∀ a, (step o s).1 = .ok a → Q a (step o s).2)
    (herr : ∀ e, (step o s).1 = .error e → E e (step o s).2) :
    (Prog.perform o).Ensures step C Q E s := by
  refine ⟨hs, ?_⟩
  cases hr : (step o s).1 with
  | ok a => exact ⟨ht, hok a hr⟩
  | error e => exact ⟨ht, herr e hr⟩

/-- The crash condition holds at every store a kill can leave behind. -/
theorem Ensures.crashAfter (n : Nat) : C (p.crashAfter step n s) := by
  induction n generalizing p s with
  | zero => exact h.crash_start
  | succ n ih =>
    cases p with
    | pure a | raise e => exact h.1
    | call o next => exact ih h.2

/-- The result of the complete execution satisfies the postcondition of its kind. -/
theorem Ensures.run : C (p.run step s).2 ∧
      (∀ a, (p.run step s).1 = .ok a → Q a (p.run step s).2) ∧
      (∀ e, (p.run step s).1 = .error e → E e (p.run step s).2) := by
  induction p generalizing s with
  | pure a =>
    refine ⟨h.1, ?_, ?_⟩
    · rintro b ⟨⟩
      exact h.2
    · rintro e ⟨⟩
  | raise e =>
    refine ⟨h.1, ?_, ?_⟩
    · rintro a ⟨⟩
    · rintro e' ⟨⟩
      exact h.2
  | call o next ih => exact ih _ h.2

theorem Ensures.of_run_ok {a : α} (hrun : p.run step s = (.ok a, t)) : Q a t := by
  have hok := h.run.2.1 a
  rw [hrun] at hok
  exact hok rfl

theorem Ensures.of_run_error (hrun : p.run step s = (.error e, t)) : E e t := by
  have herr := h.run.2.2 e
  rw [hrun] at herr
  exact herr rfl

end

/-- A program that never raises an exception returns. -/
theorem Ensures.run_ok (h : p.Ensures step C Q (fun _ _ => False) s) :
    ∃ a, (p.run step s).1 = .ok a ∧ Q a (p.run step s).2 := by
  obtain ⟨-, hok, herr⟩ := h.run
  cases hr : (p.run step s).1 with
  | ok a => exact ⟨a, rfl, hok a hr⟩
  | error e => exact (herr e hr).elim

/-- Recovery rule: a condition that a killed run keeps, whatever point it is killed at, holds after
any number of killed runs. -/
theorem crashRuns_invariant
    (hp : ∀ n s, C s → C (p.crashAfter step n s)) (ns : List Nat) (hs : C s) :
    C (p.crashRuns step ns s) := by
  induction ns generalizing s with
  | nil => exact hs
  | cons n ns ih => exact ih (hp n s hs)

end Rules

section Observation

variable {step : Machine Op Ans ε σ}

/-- Every operation of the run leaves the store `s` as it is, and the result is `r`. -/
def Observes (step : Machine Op Ans ε σ) : Prog Op Ans ε α → σ → Except ε α → Prop
  | .pure a, _, r => r = .ok a
  | .raise e, _, r => r = .error e
  | .call o next, s, r => (step o s).2 = s ∧ Observes step (next (step o s).1) s r

variable {a : α} {f : α → Prog Op Ans ε β} {p : Prog Op Ans ε α} {s : σ} {r : Except ε α}

theorem Observes.bind
    {r : Except ε β} (hp : p.Observes step s (.ok a)) (hf : (f a).Observes step s r) :
    (p.bind f).Observes step s r := by
  induction p with
  | pure b =>
    cases hp
    exact hf
  | raise e => cases hp
  | call o next ih => exact ⟨hp.1, ih _ hp.2⟩

theorem Observes.perform {a : Ans o} (h : step o s = (.ok a, s)) :
    (Prog.perform o).Observes step s (.ok a) := by
  refine ⟨congrArg Prod.snd h, ?_⟩
  rw [h]
  rfl

theorem Observes.ofExcept (s : σ) (r : Except ε α) :
    (Prog.ofExcept r : Prog Op Ans ε α).Observes step s r := by
  cases r with
  | ok a | error e => rfl

theorem Observes.tryCatch (hp : p.Observes step s (.ok a)) :
    (p.tryCatch handler).Observes step s (.ok a) := by
  induction p with
  | pure b => exact hp
  | raise e => cases hp
  | call o next ih => exact ⟨hp.1, ih _ hp.2⟩

theorem Observes.tryCatch_error (hp : p.Observes step s (.error e))
    (hr : (handler e).Observes step s r) : (p.tryCatch handler).Observes step s r := by
  induction p with
  | pure b => cases hp
  | raise e' =>
    cases hp
    exact hr
  | call o next ih => exact ⟨hp.1, ih _ hp.2⟩

/-- An observation leaves the store, so only the rest of the program is left to prove. -/
theorem Ensures.observe {C : σ → Prop} {R : β → σ → Prop} {E : ε → σ → Prop}
    (hp : p.Observes step s (.ok a)) (hf : (f a).Ensures step C R E s) :
    (p.bind f).Ensures step C R E s := by
  induction p with
  | pure b =>
    cases hp
    exact hf
  | raise e => cases hp
  | call o next ih =>
    refine ⟨hf.crash_start, ?_⟩
    rw [hp.1]
    exact ih _ hp.2

/-- An observation as a whole program. -/
theorem Observes.ensures {C : σ → Prop} {Q : α → σ → Prop} {E : ε → σ → Prop}
    (hp : p.Observes step s r) (hC : C s)
    (hQ : ∀ a, r = .ok a → Q a s) (hE : ∀ e, r = .error e → E e s) :
    p.Ensures step C Q E s := by
  induction p with
  | pure a => exact ⟨hC, hQ a hp⟩
  | raise e => exact ⟨hC, hE e hp⟩
  | call o next ih =>
    refine ⟨hC, ?_⟩
    rw [hp.1]
    exact ih _ hp.2

theorem Observes.run (h : p.Observes step s r) :
    p.run step s = (r, s) := by
  induction p with
  | pure a | raise e => rw [h]; rfl
  | call o next ih =>
    show (next (step o s).1).run step (step o s).2 = (r, s)
    rw [h.1]
    exact ih _ h.2

theorem Observes.crashAfter (h : p.Observes step s r) (n : Nat) : p.crashAfter step n s = s := by
  induction n generalizing p with
  | zero => rfl
  | succ n ih =>
    cases p with
    | pure a | raise e => rfl
    | call o next =>
      show (next (step o s).1).crashAfter step n (step o s).2 = s
      rw [h.1]
      exact ih h.2

end Observation

section Watch

/-- The machine with one more bit in its store: whether `seen` has held at some store. -/
def watch (step : Machine Op Ans ε σ) (seen : σ → Bool) : Machine Op Ans ε (σ × Bool) :=
  fun o s => ((step o s.1).1, (step o s.1).2, s.2 || seen (step o s.1).2)

variable (step : Machine Op Ans ε σ) (seen : σ → Bool)

variable {step seen} in
/-- An observation of a store that the bit already accounts for leaves the bit. -/
theorem Observes.watch {p : Prog Op Ans ε α} {s : σ} {b : Bool} {r : Except ε α}
    (h : p.Observes step s r) (hb : seen s = true → b = true) :
    p.Observes (watch step seen) (s, b) r := by
  induction p with
  | pure a | raise e => exact h
  | call o next ih =>
    refine ⟨?_, ih _ h.2⟩
    show ((step o s).2, b || seen (step o s).2) = (s, b)
    rw [h.1, Bool.or_eq_left_iff_imp.mpr hb]

theorem run_watch_fst (p : Prog Op Ans ε α) (s : σ) (b : Bool) :
    (p.run (watch step seen) (s, b)).1 = (p.run step s).1 ∧
      (p.run (watch step seen) (s, b)).2.1 = (p.run step s).2 := by
  induction p generalizing s b with
  | pure a | raise e => exact ⟨rfl, rfl⟩
  | call o next ih => exact ih _ _ _

/-- The bit is never cleared. -/
theorem run_watch_of_true (p : Prog Op Ans ε α) (s : σ) :
    (p.run (watch step seen) (s, true)).2.2 = true := by
  induction p generalizing s with
  | pure a | raise e => rfl
  | call o next ih => exact ih _ _

theorem crashAfter_watch_of_true (p : Prog Op Ans ε α) (n : Nat) (s : σ) :
    (p.crashAfter (watch step seen) n (s, true)).2 = true := by
  induction n generalizing p s with
  | zero => rfl
  | succ n ih =>
    cases p with
    | pure a | raise e => rfl
    | call o next => exact ih _ _

/-- A bit that is set at a kill is set at the end of the complete run. -/
theorem run_watch_of_crashAfter (p : Prog Op Ans ε α) (n : Nat) (s : σ) (b : Bool)
    (h : (p.crashAfter (watch step seen) n (s, b)).2 = true) :
    (p.run (watch step seen) (s, b)).2.2 = true := by
  induction n generalizing p s b with
  | zero =>
    have hb : b = true := h
    rw [hb]
    exact run_watch_of_true step seen p s
  | succ n ih =>
    cases p with
    | pure a | raise e => exact h
    | call o next => exact ih (next (step o s).1) (step o s).2 _ h

variable {step seen} in
/-- A bit that is not set at the end of a run is not set at any store of it. -/
theorem Ensures.unset {C : σ × Bool → Prop} {Q : α → σ × Bool → Prop} {E : ε → σ × Bool → Prop}
    {p : Prog Op Ans ε α} {s : σ × Bool} (h : p.Ensures (watch step seen) C Q E s)
    (hQ : ∀ a t, Q a t → t.2 = false) (hE : ∀ e t, E e t → t.2 = false) :
    p.Ensures (watch step seen) (fun t => C t ∧ t.2 = false) Q E s := by
  induction p generalizing s with
  | pure a => exact ⟨⟨h.1, hQ a s h.2⟩, h.2⟩
  | raise e => exact ⟨⟨h.1, hE e s h.2⟩, h.2⟩
  | call o next ih =>
    have hnext := ih _ h.2
    refine ⟨⟨h.1, ?_⟩, hnext⟩
    have hbit : (s.2 || seen (step o s.1).2) = false := hnext.crash_start.2
    exact (Bool.or_eq_false_iff.mp hbit).1

theorem crashAfter_watch_fst (p : Prog Op Ans ε α) (n : Nat) (s : σ) (b : Bool) :
    (p.crashAfter (watch step seen) n (s, b)).1 = p.crashAfter step n s := by
  induction n generalizing p s b with
  | zero => rfl
  | succ n ih =>
    cases p with
    | pure a | raise e => rfl
    | call o next => exact ih _ _ _

/-- The watched bit at a kill tells whether the condition held at some store up to it. -/
theorem crashAfter_watch_snd (p : Prog Op Ans ε α) (n : Nat) (s : σ) :
    (p.crashAfter (watch step seen) n (s, seen s)).2 = true ↔
      ∃ m ≤ n, seen (p.crashAfter step m s) = true := by
  have key : ∀ (n : Nat) (p : Prog Op Ans ε α) (s : σ) (b : Bool),
      (p.crashAfter (watch step seen) n (s, b || seen s)).2 = true ↔
        b = true ∨ ∃ m ≤ n, seen (p.crashAfter step m s) = true := by
    intro n
    induction n with
    | zero =>
      intro p s b
      simp [Prog.crashAfter]
    | succ n ih =>
      intro p s b
      -- the stores up to the kill are the start and the stores of the rest of the run
      have split : (∃ m ≤ n + 1, seen (p.crashAfter step m s) = true) ↔
          seen s = true ∨ ∃ m ≤ n, seen (p.crashAfter step (m + 1) s) = true := by
        constructor
        · rintro ⟨m, hm, h⟩
          cases m with
          | zero => exact Or.inl h
          | succ m => exact Or.inr ⟨m, by omega, h⟩
        · rintro (h | ⟨m, hm, h⟩)
          · exact ⟨0, by omega, h⟩
          · exact ⟨m + 1, by omega, h⟩
      rw [split]
      cases p with
      | pure a | raise e =>
        simp only [Prog.crashAfter, Bool.or_eq_true]
        constructor
        · rintro (h | h)
          · exact Or.inl h
          · exact Or.inr (Or.inl h)
        · rintro (h | h | ⟨-, -, h⟩)
          · exact Or.inl h
          · exact Or.inr h
          · exact Or.inr h
      | call o next =>
        have h := ih (next (step o s).1) (step o s).2 (b || seen s)
        rw [Bool.or_eq_true, or_assoc] at h
        exact h
  have h := key n p s false
  simpa using h

end Watch

end Prog

end PyCircuit.Lib
