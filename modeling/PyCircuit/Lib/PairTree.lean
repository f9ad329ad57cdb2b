import Mathlib.Algebra.Ring.Nat
import Mathlib.Data.List.Basic
import Mathlib.Data.Nat.Log
import Mathlib.Logic.Function.Iterate

/-!
# Reductions by pairs

A binary tree says in which way the elements of a list are combined. Combining neighbours level by
level, with an odd element kept for the next level, is the evaluation of one tree that depends on
the number of the elements only. Its leaves are the elements in their order, so that for an
associative operation the result is the fold from the left.
-/

set_option autoImplicit false

namespace PyCircuit.Lib

/-- Binary trees with elements at the leaves. -/
inductive PairTree (α : Type) where
  | leaf (a : α)
  | node (left right : PairTree α)
  deriving DecidableEq, Repr

namespace PairTree

variable {α β γ : Type}

/-- The elements from the left to the right. -/
def leaves : PairTree α → List α
  | leaf a => [a]
  | node left right => left.leaves ++ right.leaves

/-- The combination of the elements. -/
def eval (op : β → β → β) (f : α → β) : PairTree α → β
  | leaf a => f a
  | node left right => op (left.eval op f) (right.eval op f)

theorem leaves_ne_nil (t : PairTree α) : t.leaves ≠ [] := by
  induction t with
  | leaf a => exact List.cons_ne_nil _ _
  | node left right ihl _ => exact List.append_ne_nil_of_left_ne_nil ihl _

/-- Another element at every leaf. -/
def map (g : α → γ) : PairTree α → PairTree γ
  | leaf a => leaf (g a)
  | node left right => node (left.map g) (right.map g)

theorem leaves_map (g : α → γ) (t : PairTree α) : (t.map g).leaves = t.leaves.map g := by
  induction t with
  | leaf a => rfl
  | node left right ihl ihr => rw [map, leaves, leaves, List.map_append, ihl, ihr]

theorem eval_map (op : β → β → β) (f : γ → β) (g : α → γ) (t : PairTree α) :
    (t.map g).eval op f = t.eval op (f ∘ g) := by
  induction t with
  | leaf a => rfl
  | node left right ihl ihr => rw [map, eval, eval, ihl, ihr]

variable {op : β → β → β} {f : α → β} {t : PairTree α}

/-- A map that respects the operations respects the combination. -/
theorem map_eval {op' : γ → γ → γ} {g : β → γ}
    (h : ∀ a b, g (op a b) = op' (g a) (g b)) (f : α → β) (t : PairTree α) :
    g (t.eval op f) = t.eval op' (g ∘ f) := by
  induction t with
  | leaf a => rfl
  | node left right ihl ihr => rw [eval, eval, h, ihl, ihr]

/-- What the operation keeps holds of the combination. -/
theorem eval_induction {P : β → Prop}
    (hop : ∀ a b, P a → P b → P (op a b)) (hf : ∀ a ∈ t.leaves, P (f a)) :
    P (t.eval op f) := by
  induction t with
  | leaf a => exact hf a List.mem_cons_self
  | node left right ihl ihr =>
    exact hop _ _ (ihl fun a ha => hf a (List.mem_append_left _ ha))
      (ihr fun a ha => hf a (List.mem_append_right _ ha))

/-- Only the elements at the leaves matter. -/
theorem eval_congr {g : α → β} (h : ∀ a ∈ t.leaves, f a = g a) :
    t.eval op f = t.eval op g := by
  induction t with
  | leaf a => exact h a List.mem_cons_self
  | node left right ihl ihr =>
    rw [eval, eval, ihl fun a ha => h a (List.mem_append_left _ ha),
      ihr fun a ha => h a (List.mem_append_right _ ha)]

/-- Two operations that agree where the elements lie give the same combination. -/
theorem eval_congr_op {op' : β → β → β} {P : β → Prop}
    (hop : ∀ a b, P a → P b → P (op a b) ∧ op a b = op' a b)
    (hf : ∀ a ∈ t.leaves, P (f a)) : t.eval op f = t.eval op' f := by
  induction t with
  | leaf a => rfl
  | node left right ihl ihr =>
    have hl : ∀ a ∈ left.leaves, P (f a) := fun a ha => hf a (List.mem_append_left _ ha)
    have hr : ∀ a ∈ right.leaves, P (f a) := fun a ha => hf a (List.mem_append_right _ ha)
    have hkeep := fun a b ha hb => (hop a b ha hb).1
    rw [eval, eval, ← ihl hl, ← ihr hr]
    exact (hop _ _ (eval_induction hkeep hl) (eval_induction hkeep hr)).2

/-- The combination by an associative operation is the fold from the left. -/
theorem eval_eq_foldl [Std.Associative op] {a : β}
    {rest : List β} (h : t.leaves.map f = a :: rest) : t.eval op f = rest.foldl op a := by
  induction t generalizing a rest with
  | leaf b =>
    obtain ⟨rfl, rfl⟩ := List.cons.inj h
    rfl
  | node left right ihl ihr =>
    obtain ⟨b, l, hl⟩ := List.exists_cons_of_ne_nil (mt List.map_eq_nil_iff.mp left.leaves_ne_nil)
    obtain ⟨c, r, hr⟩ := List.exists_cons_of_ne_nil (mt List.map_eq_nil_iff.mp right.leaves_ne_nil)
    rw [leaves, List.map_append, hl, hr, List.cons_append] at h
    obtain ⟨rfl, rfl⟩ := List.cons.inj h
    rw [eval, ihl hl, ihr hr, List.foldl_append, List.foldl_cons, List.foldl_assoc]

end PairTree

namespace Pairs

variable {α β : Type}

/-- One level: neighbours are combined, an odd element stays. -/
def halve (op : β → β → β) : List β → List β
  | [] => []
  | [a] => [a]
  | a :: b :: rest => op a b :: halve op rest

variable (op : β → β → β)

variable (k n : Nat) (list : List β)

theorem length_halve : (halve op list).length = (list.length + 1) / 2 := by
  induction list using halve.induct with
  | case1 | case2 a => simp [halve]
  | case3 a b rest ih =>
    rw [halve, List.length_cons, ih, List.length_cons, List.length_cons]
    omega

theorem getElem?_halve (i : Nat) :
    (halve op list)[i]? =
      if 2 * i + 1 < list.length then
        (list[2 * i]?).bind fun a => (list[2 * i + 1]?).map fun b => op a b
      else list[2 * i]? := by
  induction list using halve.induct generalizing i with
  | case1 => simp [halve]
  | case2 a =>
    cases i with
    | zero | succ i => simp [halve]
  | case3 a b rest ih =>
    rw [halve]
    cases i with
    | zero => simp
    | succ i =>
      rw [List.getElem?_cons_succ, ih]
      have hshift : 2 * (i + 1) = 2 * i + 1 + 1 := by omega
      simp [hshift]

/-- One level of an even number of elements. -/
theorem halve_range (f : Nat → β) :
    halve op ((List.range (2 * n)).map f) =
      (List.range n).map fun c => op (f (2 * c)) (f (2 * c + 1)) := by
  apply List.ext_getElem?
  intro i
  rw [getElem?_halve, List.length_map, List.length_range]
  by_cases hi : i < n
  · rw [if_pos (by omega), List.getElem?_map, List.getElem?_map, List.getElem?_map,
      List.getElem?_range hi, List.getElem?_range (show 2 * i < 2 * n by omega),
      List.getElem?_range (show 2 * i + 1 < 2 * n by omega)]
    rfl
  · rw [if_neg (by omega), List.getElem?_eq_none, List.getElem?_eq_none]
    · rw [List.length_map, List.length_range]
      omega
    · rw [List.length_map, List.length_range]
      omega

/-- The levels one after the other. -/
def levels (k : Nat) (list : List β) : List β := (halve op)^[k] list

theorem levels_succ : levels op (k + 1) list = halve op (levels op k list) :=
  Function.iterate_succ_apply' ..

theorem levels_halve : levels op k (halve op list) = levels op (k + 1) list :=
  (Function.iterate_succ_apply ..).symm

/-- The number of elements that are left. -/
theorem length_levels : (levels op k list).length = (list.length + (2 ^ k - 1)) / 2 ^ k := by
  induction k with
  | zero => simp [levels]
  | succ k ih =>
    have hpos := Nat.two_pow_pos k
    rw [levels_succ, length_halve, ih, Nat.pow_succ, ← Nat.div_div_eq_div_mul]
    congr 1
    rw [← Nat.add_div_right _ hpos]
    congr 1
    omega

/-- One element is left. -/
theorem length_levels_clog {list : List β} (h : 0 < list.length) :
    (levels op (Nat.clog 2 list.length) list).length = 1 := by
  have hle : list.length ≤ 2 ^ Nat.clog 2 list.length := Nat.le_pow_clog (by decide) _
  rw [length_levels]
  apply Nat.div_eq_of_lt_le
  · omega
  · omega

section Homomorphism

variable {op} {γ : Type} {op' : γ → γ → γ} {g : β → γ}

theorem map_halve (h : ∀ a b, g (op a b) = op' (g a) (g b)) (list : List β) :
    (halve op list).map g = halve op' (list.map g) := by
  induction list using halve.induct with
  | case1 | case2 a => rfl
  | case3 a b rest ih => rw [halve, List.map_cons, List.map_cons, List.map_cons, halve, ih, h]

theorem map_levels (h : ∀ a b, g (op a b) = op' (g a) (g b)) (k : Nat) (list : List β) :
    (levels op k list).map g = levels op' k (list.map g) := by
  induction k with
  | zero => rfl
  | succ k ih => rw [levels_succ, levels_succ, map_halve h, ih]

end Homomorphism

/-! ## The tree of a number of elements -/

/-- The trees after some levels. -/
def forest (k n : Nat) : List (PairTree Nat) :=
  levels PairTree.node k ((List.range n).map PairTree.leaf)

theorem leaves_halve (list : List (PairTree α)) :
    (halve PairTree.node list).flatMap PairTree.leaves = list.flatMap PairTree.leaves := by
  induction list using halve.induct with
  | case1 | case2 a => rfl
  | case3 a b rest ih =>
    rw [halve, List.flatMap_cons, ih, PairTree.leaves, List.flatMap_cons, List.flatMap_cons,
      List.append_assoc]

theorem leaves_forest : (forest k n).flatMap PairTree.leaves = List.range n := by
  induction k with
  | zero =>
    change ((List.range n).map PairTree.leaf).flatMap PairTree.leaves = _
    rw [List.flatMap_map]
    exact List.flatMap_singleton' _
  | succ k ih => rw [forest, levels_succ, leaves_halve, ← forest, ih]

/-- The tree by which the levels combine some elements. -/
theorem exists_tree {n : Nat} (h : 0 < n) :
    ∃ t : PairTree Nat, t.leaves = List.range n ∧
      ∀ {β : Type} (op : β → β → β) (f : Nat → β),
        levels op (Nat.clog 2 n) ((List.range n).map f) = [t.eval op f] := by
  have hlength : (forest (Nat.clog 2 n) n).length = 1 := by
    have hpos : 0 < ((List.range n).map PairTree.leaf).length := by simpa using h
    have hone := length_levels_clog PairTree.node hpos
    rwa [List.length_map, List.length_range] at hone
  obtain ⟨t, ht⟩ := List.length_eq_one_iff.mp hlength
  refine ⟨t, ?_, fun op f => ?_⟩
  · have hleaves := leaves_forest (Nat.clog 2 n) n
    rwa [ht, List.flatMap_singleton] at hleaves
  · have hnode : ∀ a b : PairTree Nat, (a.node b).eval op f = op (a.eval op f) (b.eval op f) :=
      fun _ _ => rfl
    have hmap := map_levels hnode (Nat.clog 2 n) ((List.range n).map PairTree.leaf)
    rw [← forest, ht, List.map_map] at hmap
    exact hmap.symm

end Pairs

end PyCircuit.Lib
