import PyCircuit.Lib.CrashProgram

/-!
# Programs with one injected exception

`Prog.inject` turns a machine into one that answers a single chosen operation with an exception,
either in the place of the operation or after it has taken effect, and answers every other operation
as before. The choice is a `Plan`.

An exception that strikes after the end of a program does not change its run
(`run_inject_of_length_le`). One that strikes inside a program without handlers (`Abrupt`) ends it
in a store that a kill could have left behind (`run_inject_of_lt`), so what `Ensures` says about
kills is what the handlers of the program around it start from.
-/

set_option autoImplicit false

namespace PyCircuit.Lib

/-- Which operation is answered with an exception: the one that `after` others come before, and
whether it takes effect all the same. -/
inductive Plan (ε : Type) where
  | clear
  | armed (after : Nat) (effective : Bool) (error : ε)
  deriving DecidableEq, Repr

namespace Prog

variable {Op : Type} {Ans : Op → Type} {ε σ α β : Type}

/-- The machine under a plan. -/
def inject (step : Machine Op Ans ε σ) : Machine Op Ans ε (σ × Plan ε)
  | o, (s, .clear) => ((step o s).1, (step o s).2, .clear)
  | o, (s, .armed 0 effective e) => (.error e, if effective then (step o s).2 else s, .clear)
  | o, (s, .armed (n + 1) effective e) => ((step o s).1, (step o s).2, .armed n effective e)

/-- The number of operations of the complete execution. -/
def length (step : Machine Op Ans ε σ) : Prog Op Ans ε α → σ → Nat
  | .pure _, _ => 0
  | .raise _, _ => 0
  | .call o next, s => (next (step o s).1).length step (step o s).2 + 1

/-- An exception of any operation ends the program, with an exception related by `R`. -/
def Abrupt (R : ε → ε → Prop) : Prog Op Ans ε α → Prop
  | .pure _ => True
  | .raise _ => True
  | .call _ next => (∀ e, ∃ e', next (.error e) = .raise e' ∧ R e e') ∧ ∀ a, Abrupt R (next (.ok a))

section Sequencing

variable {step : Machine Op Ans ε σ} {s t : σ}

variable {a : α} {f : α → Prog Op Ans ε β} {p : Prog Op Ans ε α} {handler : ε → Prog Op Ans ε α}

theorem run_bind_ok (h : p.run step s = (.ok a, t)) : (p.bind f).run step s = (f a).run step t := by
  induction p generalizing s with
  | pure b =>
    cases h
    rfl
  | raise e => cases h
  | call o next ih => exact ih _ h

theorem run_bind_error {e : ε}
    (h : p.run step s = (.error e, t)) : (p.bind f).run step s = (.error e, t) := by
  induction p generalizing s with
  | pure b => cases h
  | raise e' =>
    cases h
    rfl
  | call o next ih => exact ih _ h

theorem run_tryCatch_ok
    (h : p.run step s = (.ok a, t)) : (p.tryCatch handler).run step s = (.ok a, t) := by
  induction p generalizing s with
  | pure b => exact h
  | raise e => cases h
  | call o next ih => exact ih _ h

theorem run_tryCatch_error (handler : ε → Prog Op Ans ε α) {e : ε}
    (h : p.run step s = (.error e, t)) :
    (p.tryCatch handler).run step s = (handler e).run step t := by
  induction p generalizing s with
  | pure b => cases h
  | raise e' =>
    cases h
    rfl
  | call o next ih => exact ih _ h

/-- A sequence that returns has run its first program to a value. -/
theorem run_bind_inv {b : β}
    (h : (p.bind f).run step s = (.ok b, t)) :
    ∃ a u, p.run step s = (.ok a, u) ∧ (f a).run step u = (.ok b, t) := by
  induction p generalizing s with
  | pure a => exact ⟨a, s, rfl, h⟩
  | raise e => cases h
  | call o next ih => exact ih _ h

/-- A `try` statement that returns has run its body to a value, or its handler. -/
theorem run_tryCatch_inv (h : (p.tryCatch handler).run step s = (.ok a, t)) :
    p.run step s = (.ok a, t) ∨
      ∃ e u, p.run step s = (.error e, u) ∧ (handler e).run step u = (.ok a, t) := by
  induction p generalizing s with
  | pure b => exact Or.inl h
  | raise e => exact Or.inr ⟨e, s, rfl, h⟩
  | call o next ih => exact ih _ h

theorem length_bind_ok (h : p.run step s = (.ok a, t)) :
    (p.bind f).length step s = p.length step s + (f a).length step t := by
  induction p generalizing s with
  | pure b =>
    cases h
    exact (Nat.zero_add _).symm
  | raise e => cases h
  | call o next ih =>
    have hnext := ih _ h
    simp only [Prog.bind, Prog.length]
    omega

theorem length_tryCatch_ok
    (h : p.run step s = (.ok a, t)) : (p.tryCatch handler).length step s = p.length step s := by
  induction p generalizing s with
  | pure b => rfl
  | raise e => cases h
  | call o next ih =>
    have hnext := ih _ h
    simp only [Prog.tryCatch, Prog.length]
    omega

end Sequencing

section Abrupt

variable {R : ε → ε → Prop}

variable {p : Prog Op Ans ε α}

theorem Abrupt.bind {f : α → Prog Op Ans ε β} (hp : p.Abrupt R)
    (hf : ∀ a, (f a).Abrupt R) : (p.bind f).Abrupt R := by
  induction p with
  | pure a => exact hf a
  | raise e => trivial
  | call o next ih =>
    refine ⟨?_, fun a => ih _ (hp.2 a)⟩
    intro e
    obtain ⟨e', he, hR⟩ := hp.1 e
    refine ⟨e', ?_, hR⟩
    show (next (.error e)).bind f = _
    rw [he]
    rfl

theorem Abrupt.perform (hR : ∀ e, R e e) (o : Op) :
    (Prog.perform o : Prog Op Ans ε (Ans o)).Abrupt R :=
  ⟨fun e => ⟨e, rfl, hR e⟩, fun _ => trivial⟩

theorem Abrupt.ofExcept (r : Except ε α) : (Prog.ofExcept r : Prog Op Ans ε α).Abrupt R := by
  cases r with
  | ok a | error e => trivial

theorem Abrupt.ite {c : Prop} [Decidable c] {q : Prog Op Ans ε α} (hp : p.Abrupt R)
    (hq : q.Abrupt R) : (if c then p else q).Abrupt R := by
  by_cases h : c
  · rw [if_pos h]
    exact hp
  · rw [if_neg h]
    exact hq

/-- A handler that only replaces the exception. -/
theorem Abrupt.tryCatch {handler : ε → Prog Op Ans ε α}
    (hp : p.Abrupt fun _ _ => True) (hh : ∀ e, ∃ e', handler e = .raise e') :
    (p.tryCatch handler).Abrupt fun _ _ => True := by
  induction p with
  | pure a => trivial
  | raise e =>
    obtain ⟨e', he⟩ := hh e
    rw [Prog.tryCatch, he]
    trivial
  | call o next ih =>
    refine ⟨?_, fun a => ih _ (hp.2 a)⟩
    intro e
    obtain ⟨e₁, he₁, -⟩ := hp.1 e
    obtain ⟨e₂, he₂⟩ := hh e₁
    refine ⟨e₂, ?_, trivial⟩
    show (next (.error e)).tryCatch handler = _
    rw [he₁]
    exact he₂

end Abrupt

section Injection

variable {step : Machine Op Ans ε σ}

/-- Without an exception to come the run is the run of the machine. -/
theorem run_inject_clear (p : Prog Op Ans ε α) (s : σ) :
    p.run (inject step) (s, .clear) = ((p.run step s).1, (p.run step s).2, .clear) := by
  induction p generalizing s with
  | pure a | raise e => rfl
  | call o next ih => exact ih _ _

/-- An exception that is planned for after the end of a run leaves the run as it is. -/
theorem run_inject_of_length_le {n : Nat} (effective : Bool) (e : ε) {p : Prog Op Ans ε α}
    {s : σ} (h : p.length step s ≤ n) :
    p.run (inject step) (s, .armed n effective e) =
      ((p.run step s).1, (p.run step s).2, .armed (n - p.length step s) effective e) := by
  induction p generalizing s n with
  | pure a | raise e' => rfl
  | call o next ih =>
    cases n with
    | zero => exact absurd h (Nat.not_succ_le_zero _)
    | succ n =>
      have hnext := ih (step o s).1 (Nat.le_of_succ_le_succ h)
      have hsub : n + 1 - (Prog.call o next).length step s =
          n - (next (step o s).1).length step (step o s).2 := Nat.succ_sub_succ _ _
      rw [hsub]
      exact hnext

/-- An exception that strikes inside a program without handlers ends it in a store that a kill
before or after the operation leaves behind. -/
theorem run_inject_of_lt {R : ε → ε → Prop} {n : Nat} (effective : Bool) (e : ε)
    {p : Prog Op Ans ε α} {s : σ} (hp : p.Abrupt R) (h : n < p.length step s) :
    ∃ e', R e e' ∧ p.run (inject step) (s, .armed n effective e) =
      (.error e', p.crashAfter step (if effective then n + 1 else n) s, .clear) := by
  induction p generalizing s n with
  | pure a | raise e' => exact absurd h (Nat.not_lt_zero _)
  | call o next ih =>
    cases n with
    | zero =>
      obtain ⟨e', he, hR⟩ := hp.1 e
      refine ⟨e', hR, ?_⟩
      show (next (.error e)).run (inject step) (if effective then (step o s).2 else s, .clear) = _
      rw [he]
      cases effective with
      | false | true => rfl
    | succ n =>
      have hlt : n < (next (step o s).1).length step (step o s).2 := Nat.lt_of_succ_lt_succ h
      -- the operation before the exception is answered, and its exceptions end the program
      cases hr : (step o s).1 with
      | error e₁ =>
        obtain ⟨e₂, he₂, -⟩ := hp.1 e₁
        rw [hr, he₂] at hlt
        exact absurd hlt (Nat.not_lt_zero _)
      | ok a =>
        rw [hr] at hlt
        obtain ⟨e', hR, hrun⟩ := ih (.ok a) (hp.2 a) hlt
        refine ⟨e', hR, ?_⟩
        show (next (step o s).1).run (inject step) ((step o s).2, .armed n effective e) = _
        rw [hr, hrun]
        cases effective <;> simp [Prog.crashAfter, hr]

end Injection

section Watch

variable (step : Machine Op Ans ε σ) (seen : σ → Bool)

theorem length_watch (p : Prog Op Ans ε α) (s : σ) (b : Bool) :
    p.length (watch step seen) (s, b) = p.length step s := by
  induction p generalizing s b with
  | pure a | raise e => rfl
  | call o next ih =>
    have h := ih (step o s).1 (step o s).2 (b || seen (step o s).2)
    exact congrArg (· + 1) h

/-- One operation of the watched machine under a plan: the answer, the store and the plan are those
of the machine under the plan, and the bit takes the new store into account. -/
theorem inject_watch_step (o : Op) {s : σ} {b : Bool} (plan : Plan ε)
    (hb : seen s = true → b = true) :
    ∃ b', inject (watch step seen) o ((s, b), plan) =
        ((inject step o (s, plan)).1, ((inject step o (s, plan)).2.1, b'),
          (inject step o (s, plan)).2.2) ∧
      (b' = true ↔ b = true ∨ seen (inject step o (s, plan)).2.1 = true) := by
  cases plan with
  | clear => exact ⟨_, rfl, by simp [inject]⟩
  | armed n effective e =>
    cases n with
    | zero =>
      cases effective with
      | true => exact ⟨_, rfl, by simp [inject]⟩
      | false =>
        refine ⟨b, rfl, Or.inl, ?_⟩
        rintro (h | h)
        · exact h
        · exact hb h
    | succ n => exact ⟨_, rfl, by simp [inject]⟩

/-- Under a plan the watched bit tells whether the condition has held at some store of the run. -/
theorem run_inject_watch (p : Prog Op Ans ε α) {s : σ} {b : Bool} (plan : Plan ε)
    (hb : seen s = true → b = true) :
    ∃ b', p.run (inject (watch step seen)) ((s, b), plan) =
        ((p.run (inject step) (s, plan)).1, ((p.run (inject step) (s, plan)).2.1, b'),
          (p.run (inject step) (s, plan)).2.2) ∧
      (b' = true ↔ b = true ∨ ∃ m, seen (p.crashAfter (inject step) m (s, plan)).1 = true) := by
  induction p generalizing s b plan with
  | pure a | raise e =>
    refine ⟨b, rfl, Or.inl, ?_⟩
    rintro (h | ⟨m, hm⟩)
    · exact h
    · cases m with
      | zero | succ m => exact hb hm
  | call o next ih =>
    obtain ⟨b₁, hstep, hb₁⟩ := inject_watch_step step seen o plan hb
    obtain ⟨b', hrun, hb'⟩ := ih (inject step o (s, plan)).1 (inject step o (s, plan)).2.2
      fun h => hb₁.mpr (Or.inr h)
    refine ⟨b', ?_, ?_, ?_⟩
    · show (next (inject (watch step seen) o ((s, b), plan)).1).run _
        (inject (watch step seen) o ((s, b), plan)).2 = _
      rw [hstep]
      exact hrun
    · intro h
      rcases hb'.mp h with h | ⟨m, hm⟩
      · rcases hb₁.mp h with h | h
        · exact Or.inl h
        · exact Or.inr ⟨1, h⟩
      · exact Or.inr ⟨m + 1, hm⟩
    · rintro (h | ⟨m, hm⟩)
      · exact hb'.mpr (Or.inl (hb₁.mpr (Or.inl h)))
      · cases m with
        | zero => exact hb'.mpr (Or.inl (hb₁.mpr (Or.inl (hb hm))))
        | succ m => exact hb'.mpr (Or.inr ⟨m, hm⟩)

end Watch

end Prog

end PyCircuit.Lib
