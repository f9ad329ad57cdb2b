import Mathlib.Data.List.Nodup
import Mathlib.Logic.Function.Basic

/-!
# Heaps of owned objects

A heap holds one object of its own type for every name. A visit applies one operation to the object
of a name; a traversal visits the names of a list in order. What a traversal does to an object does
not depend on the other objects, so it is enough to know the operation: an object named once is
visited once, and what every visit establishes or keeps holds after the traversal.
-/

set_option autoImplicit false

namespace PyCircuit.Lib

namespace Heap

variable {ι : Type} [DecidableEq ι] {β : ι → Type}

/-- Apply an operation to the object of one name. -/
def visit (f : ∀ l, β l → β l) (heap : ∀ l, β l) (l : ι) : ∀ l, β l :=
  Function.update heap l (f l (heap l))

variable (f : ∀ l, β l → β l) {names : List ι} (heap : ∀ l, β l)

@[simp] theorem visit_self (l : ι) : visit f heap l l = f l (heap l) := Function.update_self ..

theorem visit_of_ne {l k : ι} (h : k ≠ l) : visit f heap l k = heap k := Function.update_of_ne h ..

/-- Visit the names of a list in order. -/
def traverse (f : ∀ l, β l → β l) (names : List ι) (heap : ∀ l, β l) : ∀ l, β l :=
  names.foldl (visit f) heap

@[simp] theorem traverse_cons (l : ι) (names : List ι) (heap : ∀ l, β l) :
    traverse f (l :: names) heap = traverse f names (visit f heap l) := rfl

/-- A traversal of traversals. -/
theorem traverse_flatMap {α : Type} (f : ∀ l, β l → β l) (names : α → List ι) (xs : List α)
    (heap : ∀ l, β l) :
    traverse f (xs.flatMap names) heap =
      xs.foldl (fun heap x => traverse f (names x) heap) heap := by
  induction xs generalizing heap with
  | nil => rfl
  | cons x xs ih =>
    rw [List.flatMap_cons, List.foldl_cons, ← ih]
    exact List.foldl_append ..

theorem traverse_of_notMem {l : ι} (h : l ∉ names) : traverse f names heap l = heap l := by
  induction names generalizing heap with
  | nil => rfl
  | cons k names ih =>
    rw [List.mem_cons, not_or] at h
    rw [traverse_cons, ih _ h.2, visit_of_ne f heap h.1]

/-- An object that is named once is visited once. -/
theorem traverse_of_mem (hnodup : names.Nodup) (heap : ∀ l, β l) {l : ι} (h : l ∈ names) :
    traverse f names heap l = f l (heap l) := by
  induction names generalizing heap with
  | nil => cases h
  | cons k names ih =>
    obtain ⟨hk, hnames⟩ := List.nodup_cons.mp hnodup
    rw [traverse_cons]
    rcases List.mem_cons.mp h with rfl | hmem
    · rw [traverse_of_notMem f _ hk, visit_self]
    · have hne : l ≠ k := fun heq => hk (heq ▸ hmem)
      rw [ih hnames _ hmem, visit_of_ne f heap hne]

/-- What no visit changes, no traversal changes. -/
theorem traverse_keeps {γ : ι → Type} (g : ∀ l, β l → γ l) {f : ∀ l, β l → β l}
    (hkeeps : ∀ l b, g l (f l b) = g l b) (names : List ι) (heap : ∀ l, β l) (l : ι) :
    g l (traverse f names heap l) = g l (heap l) := by
  induction names generalizing heap with
  | nil => rfl
  | cons k names ih =>
    rw [traverse_cons, ih]
    by_cases h : l = k
    · subst h
      rw [visit_self, hkeeps]
    · rw [visit_of_ne f heap h]

/-- What every visit establishes holds of the named objects, however often they are named. -/
theorem traverse_establishes {p : ∀ l, β l → Prop} {f : ∀ l, β l → β l}
    (hf : ∀ l b, p l (f l b)) {names : List ι} (heap : ∀ l, β l) {l : ι} (h : l ∈ names) :
    p l (traverse f names heap l) := by
  -- The last visit decides: the rest of the list has one more, or it leaves the object alone.
  induction names generalizing heap with
  | nil => cases h
  | cons k names ih =>
    rw [traverse_cons]
    by_cases hmem : l ∈ names
    · exact ih _ hmem
    · obtain rfl : l = k := (List.mem_cons.mp h).resolve_right hmem
      rw [traverse_of_notMem f _ hmem, visit_self]
      exact hf l _

end Heap

end PyCircuit.Lib
