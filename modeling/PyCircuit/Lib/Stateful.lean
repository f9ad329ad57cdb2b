import Mathlib.Tactic.Common

/-!
# Invariants of stateful programs

`Keeps I m Q` says that a program on a state keeps the invariant `I` and returns a value with `Q`.
A program that may give up returns an option; `Attempts I m Q` says that it keeps the invariant,
also when it gives up, and that a value it returns has `Q`.
-/

set_option autoImplicit false

namespace PyCircuit.Lib

universe u

variable {σ α β : Type u} {I : σ → Prop}

/-- The program keeps `I` and returns a value with `Q`. -/
def Keeps (I : σ → Prop) (m : StateM σ α) (Q : α → Prop) : Prop :=
  ∀ s, I s → I (m.run s).2 ∧ Q (m.run s).1

/-- The program keeps `I`, and a value it returns has `Q`. -/
def Attempts (I : σ → Prop) (m : OptionT (StateM σ) α) (Q : α → Prop) : Prop :=
  Keeps I m.run fun result => ∀ a, result = some a → Q a

namespace Keeps

variable {Q : α → Prop} {m : StateM σ α}

theorem pure {a : α} (h : Q a) : Keeps I (Pure.pure a) Q := by
  intro s hs
  exact ⟨hs, h⟩

theorem mono {P : α → Prop} (hm : Keeps I m P) (h : ∀ a, P a → Q a) :
    Keeps I m Q := by
  intro s hs
  obtain ⟨hs', ha⟩ := hm s hs
  exact ⟨hs', h _ ha⟩

theorem bind {f : α → StateM σ β} {P : α → Prop} {Q : β → Prop}
    (hm : Keeps I m P) (hf : ∀ a, P a → Keeps I (f a) Q) : Keeps I (m >>= f) Q := by
  intro s hs
  obtain ⟨hs', ha⟩ := hm s hs
  exact hf _ ha _ hs'

theorem get : Keeps I MonadState.get I := by
  intro s hs
  exact ⟨hs, hs⟩

theorem modify {f : σ → σ} (h : ∀ s, I s → I (f s)) : Keeps I (modify f) fun _ => True := by
  intro s hs
  exact ⟨h s hs, trivial⟩

theorem ite {c : Prop} [Decidable c] {n : StateM σ α} (hm : c → Keeps I m Q)
    (hn : ¬ c → Keeps I n Q) : Keeps I (if c then m else n) Q := by
  split
  · next hc => exact hm hc
  · next hc => exact hn hc

end Keeps

namespace Attempts

variable {Q : α → Prop}

theorem pure {a : α} (h : Q a) : Attempts I (Pure.pure a) Q := by
  intro s hs
  refine ⟨hs, ?_⟩
  rintro b ⟨⟩
  exact h

theorem failure : Attempts I (Alternative.failure : OptionT (StateM σ) α) Q := by
  intro s hs
  refine ⟨hs, ?_⟩
  rintro b ⟨⟩

theorem bind {m : OptionT (StateM σ) α} {f : α → OptionT (StateM σ) β} {P : α → Prop}
    {Q : β → Prop} (hm : Attempts I m P) (hf : ∀ a, P a → Attempts I (f a) Q) :
    Attempts I (m >>= f) Q := by
  have hnext : ∀ result : Option α, (∀ a, result = some a → P a) →
      Keeps I (match result with
        | some a => (f a).run
        | none => Pure.pure none) fun result => ∀ b, result = some b → Q b := by
    intro result hresult
    cases result with
    | none => exact Keeps.pure fun b hb => nomatch hb
    | some a => exact hf a (hresult a rfl)
  exact Keeps.bind hm hnext

theorem mono {m : OptionT (StateM σ) α} {P : α → Prop} (hm : Attempts I m P)
    (h : ∀ a, P a → Q a) : Attempts I m Q :=
  Keeps.mono hm fun _ hresult a ha => h a (hresult a ha)

/-- A program that does not give up. -/
theorem lift {m : StateM σ α} (hm : Keeps I m Q) :
    Attempts I (monadLift m : OptionT (StateM σ) α) Q := by
  intro s hs
  obtain ⟨hs', ha⟩ := hm s hs
  refine ⟨hs', ?_⟩
  rintro b ⟨⟩
  exact ha

theorem ite {c : Prop} [Decidable c] {m n : OptionT (StateM σ) α}
    (hm : c → Attempts I m Q) (hn : ¬ c → Attempts I n Q) : Attempts I (if c then m else n) Q := by
  split
  · next hc => exact hm hc
  · next hc => exact hn hc

end Attempts

end PyCircuit.Lib
