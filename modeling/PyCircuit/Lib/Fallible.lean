import Mathlib.Data.List.FinRange
import Mathlib.Logic.Function.Basic

/-!
# Fallible computations

Inversion of a sequence of computations that may fail, loops that visit every position of an array
once, and the invariant rule of counted loops.
-/

set_option autoImplicit false

namespace PyCircuit.Lib

namespace Fallible

variable {ε α β : Type}

@[simp] theorem ok_bind (a : α) (f : α → Except ε β) : (Except.ok a >>= f) = f a := rfl

@[simp] theorem error_bind (e : ε) (f : α → Except ε β) : (Except.error e >>= f) = .error e := rfl

/-- A sequence succeeds when its parts do. -/
theorem bind_eq_ok {x : Except ε α} {f : α → Except ε β} {b : β} :
    (x >>= f) = .ok b ↔ ∃ a, x = .ok a ∧ f a = .ok b := by
  cases x with
  | error e => exact ⟨nofun, fun ⟨_, h, _⟩ => nomatch h⟩
  | ok a => exact ⟨fun h => ⟨a, rfl, h⟩, fun ⟨_, ha, hb⟩ => Except.ok.inj ha ▸ hb⟩

/-- The rest of a sequence whose first part can only have one result. -/
theorem ok_of_bind {x : Except ε α} {f : α → Except ε β} {a : α} {b : β}
    (hx : ∀ {r}, x = .ok r → r = a) (h : (x >>= f) = .ok b) : f a = .ok b := by
  obtain ⟨r, hr, hrest⟩ := bind_eq_ok.mp h
  rwa [← hx hr]

/-- A check was passed. -/
theorem guard_eq_ok {c : Prop} [Decidable c] {e : ε} {x : Except ε α} {a : α} :
    (if c then .error e else x) = .ok a ↔ ¬ c ∧ x = .ok a := by
  split
  · next hc => exact ⟨nofun, fun h => absurd hc h.1⟩
  · next hc => exact ⟨fun h => ⟨hc, h⟩, And.right⟩

/-- A computation that can only fail with some errors. -/
def FailsWith (P : ε → Prop) (x : Except ε α) : Prop := ∀ e, x = .error e → P e

theorem FailsWith.ok (P : ε → Prop) (a : α) : FailsWith P (.ok a : Except ε α) := nofun

theorem FailsWith.error {P : ε → Prop} {e : ε} (h : P e) : FailsWith P (.error e : Except ε α) :=
  fun _ heq => Except.error.inj heq ▸ h

theorem FailsWith.guard {P : ε → Prop} {c : Prop} [Decidable c] {e : ε} {x : Except ε α} (h : P e)
    (hx : ¬ c → FailsWith P x) : FailsWith P (if c then .error e else x) := by
  split
  · next hc => exact .error h
  · next hc => exact hx hc

theorem FailsWith.bind {P : ε → Prop} {x : Except ε α} {f : α → Except ε β} (hx : FailsWith P x)
    (hf : ∀ a, x = .ok a → FailsWith P (f a)) : FailsWith P (x >>= f) := by
  cases x with
  | error e => exact FailsWith.error (hx e rfl)
  | ok a => exact hf a rfl

end Fallible

/-! ## Loops over an array -/

namespace Loop

variable {n : Nat} {β ε : Type}

/-- One step writes the slot of its position. -/
def visit (f : Fin n → β → Except ε β) (s : Fin n → β) (i : Fin n) : Except ε (Fin n → β) :=
  (f i (s i)).map fun b => Function.update s i b

variable {f : Fin n → β → Except ε β}

/-- A loop over some positions, each once, writes these when no step fails. -/
theorem foldlM_ok {r : Fin n → β} {positions : List (Fin n)}
    (hnodup : positions.Nodup) (s : Fin n → β) (h : ∀ i ∈ positions, f i (s i) = .ok (r i)) :
    ∃ t, positions.foldlM (visit f) s = .ok t ∧ (∀ i ∈ positions, t i = r i) ∧
      ∀ i, i ∉ positions → t i = s i := by
  induction positions generalizing s with
  | nil => exact ⟨s, rfl, nofun, fun _ _ => rfl⟩
  | cons p rest ih =>
    obtain ⟨hp, hrest⟩ := List.nodup_cons.mp hnodup
    have hvisit : visit f s p = .ok (Function.update s p (r p)) := by
      rw [visit, h p List.mem_cons_self]
      rfl
    have hother : ∀ i, i ≠ p → Function.update s p (r p) i = s i := fun i hne =>
      Function.update_of_ne hne (r p) s
    obtain ⟨t, hfold, hwritten, hkept⟩ := ih hrest (Function.update s p (r p)) (by
      intro i hi
      rw [hother i fun heq => hp (heq ▸ hi)]
      exact h i (List.mem_cons_of_mem p hi))
    refine ⟨t, ?_, ?_, ?_⟩
    · rw [List.foldlM_cons, hvisit]
      exact hfold
    · refine List.forall_mem_cons.mpr ⟨?_, hwritten⟩
      rw [hkept p hp, Function.update_self]
    · intro i hi
      rw [List.mem_cons, not_or] at hi
      rw [hkept i hi.2, hother i hi.1]

/-- A loop fails with the error of one of its steps. -/
theorem foldlM_error {positions : List (Fin n)}
    (hnodup : positions.Nodup) (s : Fin n → β) {p : Fin n} (hp : p ∈ positions)
    (h : ∃ e, f p (s p) = .error e) :
    ∃ e i, positions.foldlM (visit f) s = .error e ∧ i ∈ positions ∧ f i (s i) = .error e := by
  induction positions generalizing s with
  | nil => cases hp
  | cons q rest ih =>
    obtain ⟨hq, hrest⟩ := List.nodup_cons.mp hnodup
    rw [List.foldlM_cons]
    cases hvisit : f q (s q) with
    | error e =>
      refine ⟨e, q, ?_, List.mem_cons_self, hvisit⟩
      rw [visit, hvisit]
      rfl
    | ok b =>
      have hpq : p ∈ rest := by
        rcases List.mem_cons.mp hp with rfl | hmem
        · obtain ⟨e, he⟩ := h
          rw [he] at hvisit
          cases hvisit
        · exact hmem
      have hother : ∀ i ∈ rest, Function.update s q b i = s i := by
        intro i hi
        have hne : i ≠ q := fun heq => hq (heq ▸ hi)
        exact Function.update_of_ne hne b s
      obtain ⟨e, i, hfold, hi, hfi⟩ := ih hrest (Function.update s q b) hpq (by
        rw [hother p hpq]
        exact h)
      rw [hother i hi] at hfi
      refine ⟨e, i, ?_, List.mem_cons_of_mem q hi, hfi⟩
      rw [visit, hvisit]
      exact hfold

/-- A loop over every position. -/
theorem finRange_ok {r s : Fin n → β}
    (h : ∀ i, f i (s i) = .ok (r i)) : (List.finRange n).foldlM (visit f) s = .ok r := by
  obtain ⟨t, hfold, hwritten, -⟩ := foldlM_ok (List.nodup_finRange n) s fun i _ => h i
  obtain rfl : t = r := funext fun i => hwritten i (List.mem_finRange i)
  exact hfold

theorem finRange_error {s : Fin n → β} {p : Fin n}
    (h : ∃ e, f p (s p) = .error e) :
    ∃ e i, (List.finRange n).foldlM (visit f) s = .error e ∧ f i (s i) = .error e := by
  obtain ⟨e, i, hfold, -, hfi⟩ :=
    foldlM_error (List.nodup_finRange n) s (List.mem_finRange p) h
  exact ⟨e, i, hfold, hfi⟩

/-! ## Counted loops -/

/-- What every round keeps holds after the loop. -/
theorem foldl_invariant {α : Type} (inv : Nat → α → Prop) {f : α → Fin n → α} {init : α}
    (hinit : inv 0 init) (hround : ∀ (i : Fin n) s, inv i s → inv (i + 1) (f s i)) :
    inv n (Fin.foldl n f init) := by
  induction n with
  | zero => exact hinit
  | succ n ih =>
    rw [Fin.foldl_succ_last]
    exact hround (Fin.last n) _ (ih fun i s hs => hround i.castSucc s hs)

end Loop

end PyCircuit.Lib
