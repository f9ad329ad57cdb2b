import Mathlib.Data.Set.Basic
import PyCircuit.Lib.Bus

/-!
# Completions of a partially known bus

A bus with wires that are not known stands for the bit vectors that agree with its known wires, its
completions. A bus is a sound description of a set of bit vectors when all of them are completions
of it, and an exact one when each wire that is not known takes both values in the set.

A connective of wires that does so at one wire (`Logic.Lifts`, `Logic.Lifts₂`) does so at every wire
of a bus (`Bus.exact_map`, `Bus.exact_map₂`), and so does moving wires (`Bus.exact_rewire`).
-/

set_option autoImplicit false

namespace PyCircuit.Lib

namespace Logic

/-- The wire may carry the bit. -/
def Admits (a : Logic) (c : Bool) : Prop := ∀ p, a = ofBool p → c = p

instance (a : Logic) (c : Bool) : Decidable (a.Admits c) := inferInstanceAs (Decidable (∀ _, _))

theorem admits_ofBool {p c : Bool} : (ofBool p).Admits c ↔ c = p :=
  ⟨fun h => h p rfl, fun h _ hq => h.trans (ofBool_inj hq)⟩

theorem admits_of_not_known {a : Logic} (h : ¬ a.Known) (c : Bool) : a.Admits c :=
  fun p hp => absurd (hp ▸ ofBool_known p) h

/-- What a wire may carry. -/
theorem exists_admits (a : Logic) : ∃ c, a.Admits c := by
  cases a <;> decide

/-- The connective describes the operation of bits, and leaves unknown only what is not
determined. -/
def Lifts₂ (op : Logic → Logic → Logic) (g : Bool → Bool → Bool) : Prop :=
  ∀ a b, (∀ p q, a.Admits p → b.Admits q → (op a b).Admits (g p q)) ∧
    (¬ (op a b).Known → ∀ c, ∃ p q, a.Admits p ∧ b.Admits q ∧ g p q = c)

theorem and_lifts : Lifts₂ and (· && ·) := by
  intro a b
  cases a <;> cases b <;> decide

theorem or_lifts : Lifts₂ or (· || ·) := by
  intro a b
  cases a <;> cases b <;> decide

theorem xor_lifts : Lifts₂ xor (· ^^ ·) := by
  intro a b
  cases a <;> cases b <;> decide

/-- The same for an operation of one bit. -/
def Lifts (op : Logic → Logic) (g : Bool → Bool) : Prop :=
  ∀ a, (∀ p, a.Admits p → (op a).Admits (g p)) ∧ (¬ (op a).Known → ∀ c, ∃ p, a.Admits p ∧ g p = c)

theorem not_lifts : Lifts not (!·) := by
  intro a
  cases a <;> decide

/-- A selection describes the conditional of bits. -/
theorem select_lifts (c a b : Logic) :
    (∀ k p q, c.Admits k → a.Admits p → b.Admits q → (select c a b).Admits (if k then p else q)) ∧
      (¬ (select c a b).Known → ∀ d, ∃ k p q, c.Admits k ∧ a.Admits p ∧ b.Admits q ∧
        (if k then p else q) = d) := by
  cases c <;> cases a <;> cases b <;> decide

end Logic

namespace Bus

variable {m n : Nat}

/-- The bit vector agrees with the known wires. -/
def Completes (b : Bus n) (v : BitVec n) : Prop := ∀ i : Fin n, (b i).Admits (v.getLsbD i)

/-- The known wires are right for every result. -/
def Sound (b : Bus n) (results : Set (BitVec n)) : Prop := ∀ v ∈ results, b.Completes v

/-- The known wires are right, and no other wire is determined. -/
def Exact (b : Bus n) (results : Set (BitVec n)) : Prop :=
  b.Sound results ∧
    ∀ i, ¬ (b i).Known → ∃ v ∈ results, ∃ v' ∈ results, v.getLsbD i ≠ v'.getLsbD i

variable {b a : Bus n} {k : Nat}

/-- Each wire that is not known takes both values. -/
theorem exact_of_both {results : Set (BitVec n)} (hsound : b.Sound results)
    (hboth : ∀ i, ¬ (b i).Known → ∀ c, ∃ v ∈ results, v.getLsbD i = c) : b.Exact results := by
  refine ⟨hsound, fun i hi => ?_⟩
  obtain ⟨v, hv, hfalse⟩ := hboth i hi false
  obtain ⟨v', hv', htrue⟩ := hboth i hi true
  refine ⟨v, hv, v', hv', ?_⟩
  rw [hfalse, htrue]
  exact Bool.false_ne_true

theorem sound_unknown (results : Set (BitVec n)) : (unknown : Bus n).Sound results :=
  fun _ _ _ => Logic.admits_of_not_known (show ¬ Logic.x.Known by decide) _

theorem completes_ofBitVec {v w : BitVec n} : (ofBitVec v).Completes w ↔ w = v := by
  constructor
  · intro h
    apply BitVec.eq_of_getLsbD_eq
    intro i hi
    exact Logic.admits_ofBool.mp (h ⟨i, hi⟩)
  · rintro rfl i
    exact Logic.admits_ofBool.mpr rfl

/-- Bits that the wires may carry make a completion. -/
theorem exists_completes (f : Fin n → Bool) (h : ∀ i, (b i).Admits (f i)) :
    ∃ v, b.Completes v ∧ ∀ i : Fin n, v.getLsbD i = f i := by
  have hbits : ∀ i : Fin n, (BitVec.ofNat n (Nat.ofBits f)).getLsbD i = f i := by
    intro i
    rw [BitVec.getLsbD_ofNat, Nat.testBit_ofBits_lt _ _ i.isLt, decide_eq_true i.isLt,
      Bool.true_and]
  exact ⟨_, fun i => (hbits i).symm ▸ h i, hbits⟩

/-- A completion with a given bit at one wire. -/
theorem exists_completes_at (b : Bus n) (i : Fin n) {c : Bool} (h : (b i).Admits c) :
    ∃ v, b.Completes v ∧ v.getLsbD i = c := by
  choose f hf using fun j => (b j).exists_admits
  obtain ⟨v, hv, hbits⟩ := exists_completes (b := b) (Function.update f i c) fun j => by
    by_cases hj : j = i
    · subst hj
      rw [Function.update_self]
      exact h
    · rw [Function.update_of_ne hj]
      exact hf j
  exact ⟨v, hv, by rw [hbits, Function.update_self]⟩

theorem exists_completion (b : Bus n) : ∃ v, b.Completes v := by
  choose f hf using fun j => (b j).exists_admits
  obtain ⟨v, hv, -⟩ := exists_completes f hf
  exact ⟨v, hv⟩

/-- The results of an operation on the completions of a bus. -/
def outcomes (a : Bus n) (f : BitVec n → BitVec m) : Set (BitVec m) :=
  {r | ∃ v, a.Completes v ∧ f v = r}

/-- The results of an operation on the completions of two buses. -/
def outcomes₂ {k : Nat} (a : Bus n) (b : Bus k) (f : BitVec n → BitVec k → BitVec m) :
    Set (BitVec m) :=
  {r | ∃ v w, a.Completes v ∧ b.Completes w ∧ f v w = r}

/-- Operands with known wires have one result. -/
theorem outcomes₂_ofBitVec (v : BitVec n) (w : BitVec k)
    (f : BitVec n → BitVec k → BitVec m) :
    outcomes₂ (ofBitVec v) (ofBitVec w) f = {f v w} := by
  ext r
  constructor
  · rintro ⟨v', w', hv, hw, rfl⟩
    rw [completes_ofBitVec.mp hv, completes_ofBitVec.mp hw]
    rfl
  · rintro rfl
    exact ⟨v, w, completes_ofBitVec.mpr rfl, completes_ofBitVec.mpr rfl, rfl⟩

/-- A known second operand is fixed. -/
theorem outcomes₂_ofBitVec_right (a : Bus n) (w : BitVec k)
    (f : BitVec n → BitVec k → BitVec m) :
    outcomes₂ a (ofBitVec w) f = outcomes a fun v => f v w := by
  ext r
  constructor
  · rintro ⟨v, w', hv, hw, rfl⟩
    exact ⟨v, hv, by rw [completes_ofBitVec.mp hw]⟩
  · rintro ⟨v, hv, rfl⟩
    exact ⟨v, w, hv, completes_ofBitVec.mpr rfl, rfl⟩

/-- A known bus describes its value, and nothing else. -/
theorem exact_ofBitVec {v : BitVec n} {results : Set (BitVec n)} (h : ∀ r ∈ results, r = v) :
    (ofBitVec v).Exact results :=
  ⟨fun r hr => completes_ofBitVec.mpr (h r hr), fun i hi => absurd (known_ofBitVec v i) hi⟩

/-- A connective of wires describes the operation of all bits. -/
theorem exact_map₂ {op : Logic → Logic → Logic} {g : Bool → Bool → Bool} (hop : Logic.Lifts₂ op g)
    {f : BitVec n → BitVec n → BitVec n}
    (hf : ∀ v w (i : Fin n), (f v w).getLsbD i = g (v.getLsbD i) (w.getLsbD i)) (a b : Bus n) :
    Exact (fun i => op (a i) (b i)) (outcomes₂ a b f) := by
  apply exact_of_both
  · rintro _ ⟨v, w, hv, hw, rfl⟩ i
    rw [hf]
    exact (hop (a i) (b i)).1 _ _ (hv i) (hw i)
  · intro i hi c
    obtain ⟨p, q, hp, hq, hc⟩ := (hop (a i) (b i)).2 hi c
    obtain ⟨v, hv, hvi⟩ := exists_completes_at a i hp
    obtain ⟨w, hw, hwi⟩ := exists_completes_at b i hq
    refine ⟨f v w, ⟨v, w, hv, hw, rfl⟩, ?_⟩
    rw [hf, hvi, hwi, hc]

theorem exact_map {op : Logic → Logic} {g : Bool → Bool} (hop : Logic.Lifts op g)
    {f : BitVec n → BitVec n} (hf : ∀ v (i : Fin n), (f v).getLsbD i = g (v.getLsbD i))
    (a : Bus n) :
    Exact (fun i => op (a i)) (outcomes a f) := by
  apply exact_of_both
  · rintro _ ⟨v, hv, rfl⟩ i
    rw [hf]
    exact (hop (a i)).1 _ (hv i)
  · intro i hi c
    obtain ⟨p, hp, hc⟩ := (hop (a i)).2 hi c
    obtain ⟨v, hv, hvi⟩ := exists_completes_at a i hp
    refine ⟨f v, ⟨v, hv, rfl⟩, ?_⟩
    rw [hf, hvi, hc]

/-- Wires that are known or carry a wire of the operand describe the operation that moves the bits
in the same way. -/
theorem exact_rewire {r : Bus m} {f : BitVec n → BitVec m}
    (h : ∀ i, (∃ c, r i = .ofBool c ∧ ∀ v, (f v).getLsbD i = c) ∨
      ∃ j, r i = a j ∧ ∀ v, (f v).getLsbD i = v.getLsbD j) :
    r.Exact (outcomes a f) := by
  apply exact_of_both
  · rintro _ ⟨v, hv, rfl⟩ i
    rcases h i with ⟨c, hr, hf⟩ | ⟨j, hr, hf⟩
    · rw [hr, hf]
      exact Logic.admits_ofBool.mpr rfl
    · rw [hr, hf]
      exact hv j
  · intro i hi c
    rcases h i with ⟨b, hr, -⟩ | ⟨j, hr, hf⟩
    · exact absurd (hr ▸ Logic.ofBool_known b) hi
    · obtain ⟨v, hv, hvj⟩ := exists_completes_at a j (hr ▸ Logic.admits_of_not_known hi c)
      exact ⟨f v, ⟨v, hv, rfl⟩, (hf v).trans hvj⟩

/-- The same for wires of two operands. -/
theorem exact_rewire₂ {r : Bus m} {b : Bus k}
    {f : BitVec n → BitVec k → BitVec m}
    (h : ∀ i, (∃ j, r i = a j ∧ ∀ v w, (f v w).getLsbD i = v.getLsbD j) ∨
      ∃ j, r i = b j ∧ ∀ v w, (f v w).getLsbD i = w.getLsbD j) :
    r.Exact (outcomes₂ a b f) := by
  apply exact_of_both
  · rintro _ ⟨v, w, hv, hw, rfl⟩ i
    rcases h i with ⟨j, hr, hf⟩ | ⟨j, hr, hf⟩
    · rw [hr, hf]
      exact hv j
    · rw [hr, hf]
      exact hw j
  · intro i hi c
    obtain ⟨v, hv⟩ := a.exists_completion
    obtain ⟨w, hw⟩ := b.exists_completion
    rcases h i with ⟨j, hr, hf⟩ | ⟨j, hr, hf⟩
    · obtain ⟨v', hv', hvj⟩ := exists_completes_at a j (hr ▸ Logic.admits_of_not_known hi c)
      exact ⟨f v' w, ⟨v', w, hv', hw, rfl⟩, (hf v' w).trans hvj⟩
    · obtain ⟨w', hw', hwj⟩ := exists_completes_at b j (hr ▸ Logic.admits_of_not_known hi c)
      exact ⟨f v w', ⟨v, w', hv, hw', rfl⟩, (hf v w').trans hwj⟩

/-- The results of a selection between two buses. -/
def selections (c : Bus 1) (a b : Bus n) : Set (BitVec n) :=
  {r | ∃ k v w, c.Completes k ∧ a.Completes v ∧ b.Completes w ∧ (if k.getLsbD 0 then v else w) = r}

/-- Selecting wire by wire describes the selection. -/
theorem exact_select (c : Bus 1) (a b : Bus n) :
    Exact (fun i => (c 0).select (a i) (b i)) (selections c a b) := by
  apply exact_of_both
  · rintro _ ⟨k, v, w, hk, hv, hw, rfl⟩ i
    have hbit : (if k.getLsbD 0 then v else w).getLsbD i =
        if k.getLsbD 0 then v.getLsbD i else w.getLsbD i := by
      split <;> rfl
    rw [hbit]
    exact (Logic.select_lifts (c 0) (a i) (b i)).1 _ _ _ (hk 0) (hv i) (hw i)
  · intro i hi d
    obtain ⟨k, p, q, hk, hp, hq, hd⟩ := (Logic.select_lifts (c 0) (a i) (b i)).2 hi d
    obtain ⟨u, hu, hui⟩ := exists_completes_at c 0 hk
    obtain ⟨v, hv, hvi⟩ := exists_completes_at a i hp
    obtain ⟨w, hw, hwi⟩ := exists_completes_at b i hq
    refine ⟨_, ⟨u, v, w, hu, hv, hw, rfl⟩, ?_⟩
    have hsel : u.getLsbD 0 = k := hui
    rw [hsel, ← hd]
    cases k with
    | true => exact hvi
    | false => exact hwi

/-! ## Equality of two buses -/

/-- Buses without wires that are known to differ have a common completion. -/
theorem exists_equal_completions (h : ∀ i, ∃ c, (a i).Admits c ∧ (b i).Admits c) :
    ∃ v, a.Completes v ∧ b.Completes v := by
  choose f hf using h
  obtain ⟨v, hv, hbits⟩ := exists_completes f fun i => (hf i).1
  exact ⟨v, hv, fun i => (hbits i).symm ▸ (hf i).2⟩

/-- A wire that is not known lets completions differ. -/
theorem exists_distinct_completions {i : Fin n}
    (h : ¬ (a i).Known ∨ ¬ (b i).Known) : ∃ v w, a.Completes v ∧ b.Completes w ∧ v ≠ w := by
  rcases h with h | h
  · obtain ⟨w, hw⟩ := b.exists_completion
    obtain ⟨v, hv, hvi⟩ := exists_completes_at a i (Logic.admits_of_not_known h (!w.getLsbD i))
    refine ⟨v, w, hv, hw, fun heq => ?_⟩
    rw [heq] at hvi
    exact Bool.not_ne_self _ hvi.symm
  · obtain ⟨v, hv⟩ := a.exists_completion
    obtain ⟨w, hw, hwi⟩ := exists_completes_at b i (Logic.admits_of_not_known h (!v.getLsbD i))
    refine ⟨v, w, hv, hw, fun heq => ?_⟩
    rw [heq] at hwi
    exact Bool.not_ne_self _ hwi.symm

end Bus

end PyCircuit.Lib
