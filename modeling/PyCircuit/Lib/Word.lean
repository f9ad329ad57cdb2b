import PyCircuit.Lib.Logic
import Mathlib.Data.Nat.Bitwise

/-!
# Four-state words

Lists of wires, lowest bit first. `Word.known?` is the unsigned value of a word whose bits are all
known. Two words are known to differ when some bit is known in both and not the same; words of
different widths are compared with zeros above their highest bits. `Word.eq` is the equality
operator of hardware simulation, which is one for known equal words, zero for words known to differ,
and unknown otherwise.
-/

set_option autoImplicit false

namespace PyCircuit.Lib

/-- A four-state word, lowest bit first. -/
abbrev Word : Type := List Logic

namespace Word

/-- The width-one view of a word. -/
def bit (v : Word) : Logic := v.headD .x

/-- The conditional operator on words. -/
def select (c : Logic) (a b : Word) : Word :=
  match c with
  | .one => a
  | .zero => b
  | _ => List.zipWith Logic.merge a b

/-- The equality operator. -/
def eq (a b : Word) : Logic := (List.zipWith Logic.xnor a b).foldr Logic.and .one

/-- The unsigned value of a word whose bits are all known. -/
def known? : Word → Option Nat
  | [] => some 0
  | .zero :: rest => (known? rest).map fun n => 2 * n
  | .one :: rest => (known? rest).map fun n => 2 * n + 1
  | _ :: _ => none

/-- The known word of a number. -/
def ofNat (width n : Nat) : Word := (List.range width).map fun i => .ofBool (n.testBit i)

/-- Zero extension. -/
def zext (width : Nat) (v : Word) : Word := v ++ List.replicate (width - v.length) .zero

/-- Some bit is known in both words and not the same. -/
def Differ (a b : Word) : Prop :=
  ∃ i p, a.getD i .zero = .ofBool p ∧ b.getD i .zero = .ofBool (!p)

theorem select_singleton (l a b : Logic) : select l [a] [b] = [Logic.select l a b] := by
  cases l <;> rfl

variable {n : Nat} {a b : Word}

theorem known?_cons_eq_some {l : Logic} {rest : Word} (h : known? (l :: rest) = some n) :
    ∃ b m, l = .ofBool b ∧ known? rest = some m ∧ n = Nat.bit b m := by
  cases l with
  | zero =>
    obtain ⟨m, hm, rfl⟩ := Option.map_eq_some_iff.mp h
    exact ⟨false, m, rfl, hm, rfl⟩
  | one =>
    obtain ⟨m, hm, rfl⟩ := Option.map_eq_some_iff.mp h
    exact ⟨true, m, rfl, hm, rfl⟩
  | x | z => cases h

/-- The bits of a known word are those of its value. -/
theorem getD_of_known (h : known? a = some n) (i : Nat) :
    a.getD i .zero = .ofBool (n.testBit i) := by
  induction a generalizing n i with
  | nil =>
    obtain rfl : 0 = n := Option.some.inj h
    simp
  | cons l rest ih =>
    obtain ⟨b, m, rfl, hm, rfl⟩ := known?_cons_eq_some h
    cases i with
    | zero => simp
    | succ i =>
      rw [Nat.testBit_bit_succ]
      exact ih hm i

/-- Words of one value do not differ. -/
theorem not_differ_of_known (ha : known? a = some n)
    (hb : known? b = some n) : ¬ Differ a b := by
  rintro ⟨i, p, hp, hq⟩
  rw [getD_of_known ha] at hp
  rw [getD_of_known hb, hp] at hq
  cases p <;> cases hq

/-- Words of two values differ. -/
theorem differ_of_known {m : Nat} (ha : known? a = some m) (hb : known? b = some n)
    (hne : m ≠ n) : Differ a b := by
  obtain ⟨i, hi⟩ := Nat.exists_testBit_ne_of_ne hne
  refine ⟨i, m.testBit i, getD_of_known ha i, ?_⟩
  rw [getD_of_known hb i]
  cases hm : m.testBit i <;> cases hn : n.testBit i <;> simp_all

theorem eq_cons (l r : Logic) (a b : Word) : eq (l :: a) (r :: b) = (l.xnor r).and (eq a b) := rfl

theorem eq_comm (a b : Word) : eq a b = eq b a := by
  unfold eq
  rw [List.zipWith_comm_of_comm Logic.xnor_comm]

theorem length_zext {width : Nat} {v : Word} (h : v.length ≤ width) :
    (zext width v).length = width := by
  rw [zext, List.length_append, List.length_replicate]
  omega

theorem length_ofNat (width n : Nat) : (ofNat width n).length = width := by
  rw [ofNat, List.length_map, List.length_range]

theorem known?_replicate_zero (n : Nat) : known? (List.replicate n .zero) = some 0 := by
  induction n with
  | zero => rfl
  | succ n ih => simp [List.replicate_succ, known?, ih]

/-- Zero extension keeps the value. -/
theorem known?_zext (width : Nat) (v : Word) : known? (zext width v) = known? v := by
  unfold zext
  generalize width - v.length = n
  induction v with
  | nil => exact known?_replicate_zero n
  | cons l rest ih => cases l <;> simp [known?, ih]

/-- Known equal words have the same value. -/
theorem known_of_eq_one (hlen : a.length = b.length) (h : eq a b = .one) :
    ∃ n, known? a = some n ∧ known? b = some n := by
  induction a generalizing b with
  | nil =>
    obtain rfl : b = [] := List.length_eq_zero_iff.mp hlen.symm
    exact ⟨0, rfl, rfl⟩
  | cons l a ih =>
    cases b with
    | nil => cases hlen
    | cons r b =>
      rw [eq_cons, Logic.and_eq_one] at h
      obtain ⟨n, hn, hn'⟩ := ih (Nat.succ.inj hlen) h.2
      obtain ⟨c, rfl, rfl⟩ := Logic.xnor_eq_one.mp h.1
      cases c with
      | false => exact ⟨2 * n, by simp [known?, hn], by simp [known?, hn']⟩
      | true => exact ⟨2 * n + 1, by simp [known?, hn], by simp [known?, hn']⟩

/-- The equality of two words is zero only if they are known to differ. -/
theorem differ_of_eq_zero (h : eq a b = .zero) : Differ a b := by
  induction a generalizing b with
  | nil => cases h
  | cons l a ih =>
    cases b with
    | nil => cases h
    | cons r b =>
      rw [eq_cons, Logic.and_eq_zero] at h
      rcases h with hbit | hrest
      · obtain ⟨p, rfl, rfl⟩ := Logic.xnor_eq_zero.mp hbit
        exact ⟨0, p, rfl, rfl⟩
      · obtain ⟨i, p, hp, hq⟩ := ih hrest
        exact ⟨i + 1, p, hp, hq⟩

end Word

end PyCircuit.Lib
