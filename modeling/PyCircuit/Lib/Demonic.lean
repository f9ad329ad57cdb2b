import PyCircuit.Lib.CrashProgram

/-!
# Programs whose operations are answered by the environment

`Prog.Safe` is the weakest precondition of a program when the answers are not computed by a machine
but chosen by an environment within a relation `R`: every operation has to be allowed by the guard
`G` at the current state, and the rest of the program has to be safe for every answer and every next
state that `R` permits. The state is whatever the argument keeps track of.

The rules for sequencing and handlers are those of `Prog.Ensures`.
-/

set_option autoImplicit false

namespace PyCircuit.Lib

namespace Prog

variable {Op : Type} {Ans : Op → Type} {ε σ α β : Type}

/-- Every operation is allowed by `G` whatever answers `R` permits, and the results satisfy `Q` and
`E`. -/
def Safe (G : Op → σ → Prop) (R : (o : Op) → σ → Except ε (Ans o) → σ → Prop) (Q : α → σ → Prop)
    (E : ε → σ → Prop) : Prog Op Ans ε α → σ → Prop
  | .pure a, s => Q a s
  | .raise e, s => E e s
  | .call o next, s => G o s ∧ ∀ r t, R o s r t → Safe G R Q E (next r) t

variable {G : Op → σ → Prop} {R : (o : Op) → σ → Except ε (Ans o) → σ → Prop}
  {Q Q' : α → σ → Prop} {E E' : ε → σ → Prop}

variable {p : Prog Op Ans ε α} {s : σ}

theorem Safe.mono (h : p.Safe G R Q E s)
    (hQ : ∀ a t, Q a t → Q' a t) (hE : ∀ e t, E e t → E' e t) : p.Safe G R Q' E' s := by
  induction p generalizing s with
  | pure a => exact hQ a s h
  | raise e => exact hE e s h
  | call o next ih => exact ⟨h.1, fun r t ht => ih r (h.2 r t ht)⟩

theorem Safe.bind {f : α → Prog Op Ans ε β} {P : β → σ → Prop}
    (h : p.Safe G R (fun a t => (f a).Safe G R P E t) E s) : (p.bind f).Safe G R P E s := by
  induction p generalizing s with
  | pure a | raise e => exact h
  | call o next ih => exact ⟨h.1, fun r t ht => ih r (h.2 r t ht)⟩

theorem Safe.tryCatch {handler : ε → Prog Op Ans ε α}
    (h : p.Safe G R Q (fun e t => (handler e).Safe G R Q E t) s) :
    (p.tryCatch handler).Safe G R Q E s := by
  induction p generalizing s with
  | pure a | raise e => exact h
  | call o next ih => exact ⟨h.1, fun r t ht => ih r (h.2 r t ht)⟩

theorem Safe.perform {o : Op} {Q : Ans o → σ → Prop} (hG : G o s)
    (hok : ∀ a t, R o s (.ok a) t → Q a t) (herr : ∀ e t, R o s (.error e) t → E e t) :
    (Prog.perform o).Safe G R Q E s := by
  refine ⟨hG, ?_⟩
  intro r t ht
  cases r with
  | ok a => exact hok a t ht
  | error e => exact herr e t ht

theorem Safe.ofExcept {r : Except ε α} (hok : ∀ a, r = .ok a → Q a s)
    (herr : ∀ e, r = .error e → E e s) : (Prog.ofExcept r : Prog Op Ans ε α).Safe G R Q E s := by
  cases r with
  | ok a => exact hok a rfl
  | error e => exact herr e rfl

theorem Safe.ite {c : Prop} [Decidable c] {q : Prog Op Ans ε α}
    (hp : c → p.Safe G R Q E s) (hq : ¬ c → q.Safe G R Q E s) :
    (if c then p else q).Safe G R Q E s := by
  by_cases h : c
  · rw [if_pos h]
    exact hp h
  · rw [if_neg h]
    exact hq h

end Prog

end PyCircuit.Lib
