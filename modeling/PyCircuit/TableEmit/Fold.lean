import PyCircuit.Gfsim.Returns
import PyCircuit.Lib.BusSlice
import PyCircuit.Lib.PairTree

/-!
# The reduction of a table

The fold of a table is emitted twice. The C++ text reduces an array in place, level by level, until
one node is left; the Verilog text generates one bus for every level. Both are modelled over the
operation that combines two elements, and both evaluate one tree, which depends on the number of the
elements only.
-/

set_option autoImplicit false

namespace PyCircuit.TableEmit

open Lib Gfsim Gfsim.FourState

/-! ## The kinds of folds -/

inductive FoldKind where
  | add | mul | and | or | xor | min | max
  deriving DecidableEq, Repr

namespace FoldKind

variable {w : Nat}

/-- The combination in the C++ text. -/
def combine (kind : FoldKind) (left right : FourState w) : Except String (FourState w) :=
  match kind with
  | add => FourState.add left right
  | mul => FourState.mul left right
  | and => bitAnd left right
  | or => bitOr left right
  | xor => bitXor left right
  | min => do select (← compare .ule left right) left right
  | max => do select (← compare .uge left right) left right

/-- The operation on buses, for a way to choose the smaller or the larger one. -/
def onBuses (choice : Logic → Bus w → Bus w → Bus w) (kind : FoldKind) (a b : Bus w) : Bus w :=
  match kind with
  | add => Bus.strict (· + ·) a b
  | mul => Bus.strict (· * ·) a b
  | and => Bus.bitwise .and a b
  | or => Bus.bitwise .or a b
  | xor => Bus.bitwise .xor a b
  | min => choice (Bus.ordered (fun v u => v.ule u) a b) a b
  | max => choice (Bus.ordered (fun v u => u.ule v) a b) a b

/-- The combination in the Verilog text. -/
def expression (kind : FoldKind) (a b : Bus w) : Bus w := kind.onBuses Bus.conditional a b

/-- The operation on words. -/
def apply (kind : FoldKind) (a b : BitVec w) : BitVec w :=
  match kind with
  | add => a + b
  | mul => a * b
  | and => a &&& b
  | or => a ||| b
  | xor => a ^^^ b
  | min => if a.ule b then a else b
  | max => if b.ule a then a else b

/-- The fold from the left to the right. -/
def sequential (kind : FoldKind) : List (BitVec w) → BitVec w
  | [] => 0#w
  | a :: rest => rest.foldl kind.apply a

end FoldKind

/-! ## The C++ text -/

section Cpp

variable {α : Type}

/-- A read of `pyc_tree`. -/
def read (tree : List α) (i : Nat) : Except String α :=
  match tree[i]? with
  | some a => .ok a
  | none => .error "array index out of range"

/-- A write of `pyc_tree`. -/
def write (tree : List α) (i : Nat) (a : α) : Except String (List α) :=
  if i < tree.length then .ok (tree.set i a) else .error "array index out of range"

variable (combine : α → α → Except String α)

/-- The body of the loop over the pairs. -/
def combinePair (tree : List α) (pair : Nat) : Except String (List α) := do
  let left ← read tree (2 * pair)
  let right ← read tree (2 * pair + 1)
  write tree pair (← combine left right)

/-- The loop over the pairs of a level. -/
def combinePairs (pairs : Nat) (tree : List α) : Except String (List α) :=
  (List.range pairs).foldlM (combinePair combine) tree

/-- An odd node moves behind the pairs. -/
def keepOdd (nodes : Nat) (tree : List α) : Except String (List α) :=
  if nodes % 2 = 1 then do write tree (nodes / 2) (← read tree (nodes - 1)) else .ok tree

/-- The loop over the levels and the result. -/
def reduceTree (nodes : Nat) (tree : List α) : Except String α :=
  if 1 < nodes then do
    let tree ← combinePairs combine (nodes / 2) tree
    let tree ← keepOdd nodes tree
    reduceTree ((nodes + 1) / 2) tree
  else read tree 0
  termination_by nodes

end Cpp

/-- The C++ text for one instance. -/
def foldCpp {w : Nat} (kind : FoldKind) (n : Nat) (elements : Nat → FourState w) :
    Except String (FourState w) :=
  reduceTree kind.combine n ((List.range n).map elements)

/-! ## The Verilog text -/

section Verilog

variable {n w : Nat} (expression : Bus w → Bus w → Bus w)

/-- The nodes of a level. -/
def previousCount (n level : Nat) : Nat := (n + (2 ^ level - 1)) / 2 ^ level

/-- What drives the destination of a lane. -/
def laneDriver (previous : Bus (n * w)) (level lane : Nat) : Bus w :=
  let a := previous.slice ((n - 1 - 2 * lane) * w) w
  let b := previous.slice ((n - 2 - 2 * lane) * w) w
  if 2 * lane + 1 < previousCount n level then expression a b else a

/-- The drivers of some lanes of a level; the other wires of the level have none. -/
def drive (previous : Bus (n * w)) (level lanes : Nat) : Bus (n * w) :=
  (List.range lanes).foldl
    (fun wires lane =>
      wires.setSlice ((n - 1 - lane) * w) (laneDriver expression previous level lane))
    Bus.undriven

/-- The bus of a level. -/
def levelWires (input : Bus (n * w)) : Nat → Bus (n * w)
  | 0 => input
  | level + 1 =>
    drive expression (levelWires input level) level ((previousCount n level + 1) / 2)

/-- The result of the generated levels. -/
def reduceWires (input : Bus (n * w)) : Bus w :=
  (levelWires expression input (Nat.clog 2 n)).slice ((n - 1) * w) w

end Verilog

/-- The Verilog text. -/
def foldVerilog {n w : Nat} (kind : FoldKind) (input : Bus (n * w)) : Bus w :=
  reduceWires kind.expression input

end PyCircuit.TableEmit
