import PyCircuit.TableEmit.Fold

/-!
# Both reductions evaluate one tree

After some levels the first nodes of the C++ array, and the driven slices of the Verilog bus, are
the elements combined by pairs as often. The combined list has one element after as many levels as
the number of elements has bits, so both results are the value of the tree of the pairs. For known
elements and an associative operation that value is the sequential fold.
-/

set_option autoImplicit false

namespace PyCircuit.TableEmit

open Lib Gfsim Gfsim.FourState Fallible

/-! ## The array -/

section Cpp

variable {α : Type} {combine : α → α → Except String α} {op : α → α → α}

variable {a : α} {tree : List α} {nodes : Nat}

theorem read_eq {i : Nat} (h : tree[i]? = some a) :
    read tree i = .ok a := by
  rw [read, h]

theorem write_eq {i : Nat} (h : i < tree.length) (a : α) :
    write tree i a = .ok (tree.set i a) := if_pos h

variable (hop : ∀ a b, combine a b = .ok (op a b))

include hop in
theorem combinePair_eq {pair : Nat} {b : α} (ha : tree[2 * pair]? = some a)
    (hb : tree[2 * pair + 1]? = some b) :
    combinePair combine tree pair = .ok (tree.set pair (op a b)) := by
  have hlt : pair < tree.length := by
    have := (List.getElem?_eq_some_iff.mp ha).1
    omega
  simp only [combinePair, read_eq ha, read_eq hb, hop, write_eq hlt, ok_bind]

include hop in
/-- The pairs are read before they are overwritten. -/
theorem combinePairs_eq {pairs : Nat} (h : 2 * pairs ≤ tree.length) :
    ∃ tree', combinePairs combine pairs tree = .ok tree' ∧ tree'.length = tree.length ∧
      (∀ i < pairs, tree'[i]? = (tree[2 * i]?).bind fun a => (tree[2 * i + 1]?).map (op a)) ∧
      ∀ i, pairs ≤ i → tree'[i]? = tree[i]? := by
  induction pairs with
  | zero => exact ⟨tree, rfl, rfl, fun i hi => absurd hi (Nat.not_lt_zero i), fun i _ => rfl⟩
  | succ pairs ih =>
    obtain ⟨tree', hrun, hlength, hdone, hrest⟩ := ih (by omega)
    obtain ⟨a, ha⟩ : ∃ a, tree[2 * pairs]? = some a :=
      ⟨_, List.getElem?_eq_getElem (by omega)⟩
    obtain ⟨b, hb⟩ : ∃ b, tree[2 * pairs + 1]? = some b :=
      ⟨_, List.getElem?_eq_getElem (by omega)⟩
    have hpair := combinePair_eq hop ((hrest _ (by omega)).trans ha)
      ((hrest _ (by omega)).trans hb)
    refine ⟨tree'.set pairs (op a b), ?_, (List.length_set ..).trans hlength, ?_, ?_⟩
    · rw [combinePairs] at hrun ⊢
      rw [List.range_succ, List.foldlM_append, hrun, ok_bind, List.foldlM_cons, hpair,
        ok_bind, List.foldlM_nil]
      rfl
    · intro i hi
      by_cases hlast : i = pairs
      · subst hlast
        rw [List.getElem?_set_self (by omega), ha, hb]
        rfl
      · rw [List.getElem?_set_ne (Ne.symm hlast), hdone i (by omega)]
    · intro i hi
      rw [List.getElem?_set_ne (by omega), hrest i (by omega)]

theorem keepOdd_eq (hpos : 0 < nodes) (h : nodes ≤ tree.length) :
    ∃ tree', keepOdd nodes tree = .ok tree' ∧ tree'.length = tree.length ∧
      (∀ i < nodes / 2, tree'[i]? = tree[i]?) ∧
      (nodes % 2 = 1 → tree'[nodes / 2]? = tree[nodes - 1]?) := by
  rw [keepOdd]
  by_cases hodd : nodes % 2 = 1
  · have hlast := List.getElem?_eq_getElem (l := tree) (i := nodes - 1) (by omega)
    have hlt : nodes / 2 < tree.length := by omega
    refine ⟨_, by rw [if_pos hodd, read_eq hlast, ok_bind, write_eq hlt],
      List.length_set .., ?_, ?_⟩
    · intro i hi
      exact List.getElem?_set_ne (by omega)
    · intro _
      rw [List.getElem?_set_self hlt, hlast]
  · exact ⟨tree, if_neg hodd, rfl, fun i _ => rfl, fun h => absurd h hodd⟩

include hop in
/-- One pass of the outer loop halves the nodes. -/
theorem level_eq (hpos : 0 < nodes) (h : nodes ≤ tree.length) :
    ∃ tree₁ tree₂, combinePairs combine (nodes / 2) tree = .ok tree₁ ∧
      keepOdd nodes tree₁ = .ok tree₂ ∧ (nodes + 1) / 2 ≤ tree₂.length ∧
      tree₂.take ((nodes + 1) / 2) = Pairs.halve op (tree.take nodes) := by
  obtain ⟨tree₁, hpairs, hlength₁, hdone, hrest⟩ :=
    combinePairs_eq hop (show 2 * (nodes / 2) ≤ tree.length by omega)
  obtain ⟨tree₂, hkeep, hlength₂, hkept, hodd⟩ :=
    keepOdd_eq hpos (show nodes ≤ tree₁.length by omega)
  refine ⟨tree₁, tree₂, hpairs, hkeep, by omega, ?_⟩
  apply List.ext_getElem?
  intro i
  rw [Pairs.getElem?_halve, List.length_take, Nat.min_eq_left h]
  by_cases hpair : 2 * i + 1 < nodes
  · rw [if_pos hpair, List.getElem?_take_of_lt (by omega), hkept i (by omega), hdone i (by omega),
      List.getElem?_take_of_lt (by omega), List.getElem?_take_of_lt hpair]
  · rw [if_neg hpair]
    by_cases hlast : 2 * i < nodes
    · have hi : i = nodes / 2 := by omega
      rw [List.getElem?_take_of_lt (by omega), List.getElem?_take_of_lt hlast, hi,
        hodd (by omega), hrest _ (by omega)]
      congr 1
      omega
    · rw [List.getElem?_take_eq_none (by omega), List.getElem?_take_eq_none (by omega)]

include hop in
/-- The loop returns the one node that the levels leave. -/
theorem reduceTree_eq (hpos : 0 < nodes) (h : nodes ≤ tree.length)
    (ha : Pairs.levels op (Nat.clog 2 nodes) (tree.take nodes) = [a]) :
    reduceTree combine nodes tree = .ok a := by
  induction nodes using Nat.strong_induction_on generalizing tree with
  | _ nodes ih =>
    rw [reduceTree]
    by_cases hmany : 1 < nodes
    · obtain ⟨tree₁, tree₂, hpairs, hkeep, hlength, htake⟩ := level_eq hop hpos h
      rw [if_pos hmany, hpairs, ok_bind, hkeep, ok_bind]
      have hclog : Nat.clog 2 nodes = Nat.clog 2 ((nodes + 1) / 2) + 1 :=
        Nat.clog_of_two_le (by decide) hmany
      rw [hclog, ← Pairs.levels_halve, ← htake] at ha
      exact ih _ (by omega) (by omega) hlength ha
    · obtain rfl : nodes = 1 := by omega
      rw [if_neg hmany]
      apply read_eq
      rw [Nat.clog_one_right] at ha
      have hget := congrArg (·[0]?) ha
      rw [← List.getElem?_take_of_lt Nat.one_pos]
      exact hget

end Cpp

/-! ## The generated levels -/

section Verilog

variable {n w : Nat} (expression : Bus w → Bus w → Bus w)

/-- A driven slice keeps its driver, because the slices of the lanes do not overlap. -/
theorem slice_drive {lanes lane : Nat} (hle : lanes ≤ n) (h : lane < lanes)
    (previous : Bus (n * w)) (level : Nat) :
    (drive expression previous level lanes).slice (Bus.elementLow n w lane) w =
      laneDriver expression previous level lane := by
  induction lanes with
  | zero => exact absurd h (Nat.not_lt_zero lane)
  | succ lanes ih =>
    rw [drive, List.range_succ, List.foldl_append, List.foldl_cons, List.foldl_nil, ← drive]
    by_cases hlast : lane = lanes
    · subst hlast
      exact Bus.slice_setSlice (Bus.elementLow_le (by omega)) _ _
    · rw [← ih (by omega) (by omega)]
      exact Bus.slice_setSlice_of_disjoint
        (Bus.elementLow_disjoint (by omega) (by omega) hlast) _ _

theorem previousCount_le (n level : Nat) : previousCount n level ≤ n := by
  have htwo := Nat.two_pow_pos level
  rw [previousCount, Nat.div_le_iff_le_mul_add_pred htwo, Nat.mul_comm]
  have := Nat.le_mul_of_pos_right n htwo
  omega

/-- The driven slices of a level are the elements combined by pairs. -/
theorem levelWires_eq (elements : Nat → Bus w) (level : Nat) :
    ∀ lane < previousCount n level,
      (Pairs.levels expression level ((List.range n).map elements))[lane]? =
        some ((levelWires expression (Bus.table elements : Bus (n * w)) level).slice
          (Bus.elementLow n w lane) w) := by
  induction level with
  | zero =>
    intro lane hlane
    have hlt : lane < n := by simpa [previousCount] using hlane
    rw [levelWires, Bus.slice_table hlt]
    simp [Pairs.levels, hlt]
  | succ level ih =>
    intro lane hlane
    have hlength : (Pairs.levels expression level ((List.range n).map elements)).length =
        previousCount n level := by
      rw [Pairs.length_levels, List.length_map, List.length_range, previousCount]
    have hnext : (Pairs.levels expression (level + 1) ((List.range n).map elements)).length =
        previousCount n (level + 1) := by
      rw [Pairs.length_levels, List.length_map, List.length_range, previousCount]
    have hhalf : previousCount n (level + 1) = (previousCount n level + 1) / 2 := by
      rw [← hnext, Pairs.levels_succ, Pairs.length_halve, hlength]
    have hle := previousCount_le n level
    rw [levelWires, slice_drive _ (by omega) (by omega), Pairs.levels_succ,
      Pairs.getElem?_halve, hlength, laneDriver]
    have ha := ih (2 * lane) (by omega)
    by_cases hpair : 2 * lane + 1 < previousCount n level
    · have hb := ih (2 * lane + 1) hpair
      have hlow : n - 2 - 2 * lane = n - 1 - (2 * lane + 1) := by omega
      rw [if_pos hpair, if_pos hpair, ha, hb, hlow]
      rfl
    · rw [if_neg hpair, if_neg hpair, ha]
      rfl

/-- The result is the one node that the levels leave. -/
theorem reduceWires_eq {elements : Nat → Bus w} {a : Bus w}
    (ha : Pairs.levels expression (Nat.clog 2 n) ((List.range n).map elements) = [a]) :
    reduceWires expression (Bus.table elements : Bus (n * w)) = a := by
  have hlength := congrArg List.length ha
  rw [Pairs.length_levels, List.length_map, List.length_range] at hlength
  have hget := levelWires_eq expression elements (Nat.clog 2 n) 0
    (by rw [previousCount, hlength]; exact Nat.one_pos)
  rw [ha] at hget
  exact (Option.some.inj hget).symm

end Verilog

/-! ## The operations -/

namespace FoldKind

variable {w : Nat}

theorem combine_returns (kind : FoldKind) (x y : FourState w) :
    Returns (kind.combine x y) (kind.onBuses Bus.select x.bus y.bus) := by
  have hchoice : ∀ predicate : ComparePredicate, predicate.Ordered →
      Returns (compare predicate x y >>= fun c => select c x y)
        (Bus.select (Bus.ordered predicate.holds x.bus y.bus) x.bus y.bus) := by
    intro predicate hordered
    refine (compare_ordered_bus hordered x y).bind fun c hc => ?_
    have hselect := select_returns c x y
    rw [hc] at hselect
    exact hselect
  cases kind with
  | add => exact add_bus x y
  | mul => exact mul_bus x y
  | and => exact bitAnd_returns x y
  | or => exact bitOr_returns x y
  | xor => exact bitXor_returns x y
  | min => exact hchoice .ule ⟨by decide, by decide, by decide⟩
  | max => exact hchoice .uge ⟨by decide, by decide, by decide⟩

/-- For known operands both ways to choose give the operation on words. -/
theorem onBuses_ofBitVec {choice : Logic → Bus w → Bus w → Bus w}
    (hchoice : ∀ (c : Bool) (a b : Bus w), choice (.ofBool c) a b = if c then a else b)
    (kind : FoldKind) (v u : BitVec w) :
    kind.onBuses choice (Bus.ofBitVec v) (Bus.ofBitVec u) = Bus.ofBitVec (kind.apply v u) := by
  cases kind with
  | add | mul => exact Bus.strict_ofBitVec _ v u
  | and => exact Bus.bitwise_and_ofBitVec v u
  | or => exact Bus.bitwise_or_ofBitVec v u
  | xor => exact Bus.bitwise_xor_ofBitVec v u
  | min | max => rw [onBuses, Bus.ordered_ofBitVec, hchoice, apply, apply_ite Bus.ofBitVec]

theorem apply_min_assoc (a b c : BitVec w) :
    min.apply (min.apply a b) c = min.apply a (min.apply b c) := by
  simp only [apply, BitVec.ule_eq_decide, decide_eq_true_eq]
  grind

theorem apply_max_assoc (a b c : BitVec w) :
    max.apply (max.apply a b) c = max.apply a (max.apply b c) := by
  simp only [apply, BitVec.ule_eq_decide, decide_eq_true_eq]
  grind

instance (kind : FoldKind) : Std.Associative (kind.apply (w := w)) where
  assoc a b c := by
    cases kind with
    | add => exact BitVec.add_assoc a b c
    | mul => exact BitVec.mul_assoc a b c
    | and => exact BitVec.and_assoc a b c
    | or => exact BitVec.or_assoc a b c
    | xor => exact BitVec.xor_assoc a b c
    | min => exact apply_min_assoc a b c
    | max => exact apply_max_assoc a b c

end FoldKind

/-! ## The two texts -/

/-- Wires that carry zero, one or unknown. -/
def Driven {w : Nat} (b : Bus w) : Prop := ∀ i, b i ≠ .z

variable {w n : Nat} {t : PairTree Nat}

theorem driven_strict (f : BitVec w → BitVec w → BitVec w) (a b : Bus w) :
    Driven (Bus.strict f a b) := by
  rcases Bus.strict_eq f a b with ⟨v, hv⟩ | hunknown
  · intro i
    rw [hv, Bus.ofBitVec]
    cases v.getLsbD i <;> decide
  · intro i
    rw [hunknown, Bus.unknown]
    decide

/-- On driven wires the two ways to choose agree. -/
theorem onBuses_driven (kind : FoldKind) {a b : Bus w} (ha : Driven a)
    (hb : Driven b) :
    Driven (kind.onBuses Bus.select a b) ∧ kind.onBuses Bus.select a b = kind.expression a b := by
  have hchoice : ∀ c : Logic, Driven (Bus.select c a b) ∧
      Bus.select c a b = Bus.conditional c a b := by
    intro c
    constructor
    · intro i
      have hai := ha i
      have hbi := hb i
      revert hai hbi
      rw [Bus.select]
      cases c <;> cases a i <;> cases b i <;> decide
    · funext i
      exact (Logic.conditional_eq_select (ha i)).symm
  have hbitwise : ∀ op : Logic → Logic → Logic, (∀ l r, op l r ≠ .z) →
      Driven (Bus.bitwise op a b) := fun op hop i => hop _ _
  cases kind with
  | add | mul => exact ⟨driven_strict _ a b, rfl⟩
  | and | or | xor => exact ⟨hbitwise _ (by intro l r; cases l <;> cases r <;> decide), rfl⟩
  | min | max => exact hchoice _

theorem reduceTree_range {α : Type} (hn : 0 < n)
    (ht : ∀ {β : Type} (op : β → β → β) (f : Nat → β),
      Pairs.levels op (Nat.clog 2 n) ((List.range n).map f) = [t.eval op f])
    {combine : α → α → Except String α} {op : α → α → α}
    (hop : ∀ a b, combine a b = .ok (op a b)) (elements : Nat → α) :
    reduceTree combine n ((List.range n).map elements) = .ok (t.eval op elements) := by
  have htake : ((List.range n).map elements).take n = (List.range n).map elements :=
    List.take_of_length_le (by simp)
  apply reduceTree_eq hop hn (by simp)
  rw [htake, ht]

/-- The C++ text returns the value of the tree. -/
theorem foldCpp_returns (hn : 0 < n)
    (ht : ∀ {β : Type} (op : β → β → β) (f : Nat → β),
      Pairs.levels op (Nat.clog 2 n) ((List.range n).map f) = [t.eval op f])
    (kind : FoldKind) (elements : Nat → FourState w) :
    Returns (foldCpp kind n elements)
      (t.eval (kind.onBuses Bus.select) fun i => (elements i).bus) := by
  choose op hop hbus using fun x y : FourState w => kind.combine_returns x y
  exact ⟨t.eval op elements, reduceTree_range hn ht hop elements, PairTree.map_eval hbus elements t⟩

/-- Known elements are combined to their sequential fold. -/
theorem eval_known (hn : 0 < n) (hleaves : t.leaves = List.range n)
    {choice : Logic → Bus w → Bus w → Bus w}
    (hchoice : ∀ (c : Bool) (a b : Bus w), choice (.ofBool c) a b = if c then a else b)
    (kind : FoldKind) {contents : Nat → Bus w} {values : Nat → BitVec w}
    (hvalues : ∀ i < n, contents i = .ofBitVec (values i)) :
    t.eval (kind.onBuses choice) contents =
      .ofBitVec (kind.sequential ((List.range n).map values)) := by
  have hcongr : ∀ i ∈ t.leaves, contents i = (Bus.ofBitVec ∘ values) i := by
    intro i hi
    rw [hleaves, List.mem_range] at hi
    exact hvalues i hi
  obtain ⟨first, rest, hlist⟩ : ∃ first rest, (List.range n).map values = first :: rest :=
    List.exists_cons_of_ne_nil (by simp; omega)
  have hword : ∀ v u, Bus.ofBitVec (kind.apply v u) =
      kind.onBuses choice (.ofBitVec v) (.ofBitVec u) :=
    fun v u => (FoldKind.onBuses_ofBitVec hchoice kind v u).symm
  rw [PairTree.eval_congr hcongr, ← PairTree.map_eval hword,
    PairTree.eval_eq_foldl (hleaves ▸ hlist), hlist, FoldKind.sequential]

/-- For every number of elements there is one tree with every element at one leaf, in order, such
that the loops of the C++ text and the levels of the Verilog text combine the elements as the tree
says, whatever the operation is. For known contents both results are the sequential fold, and on
contents of zeros, ones and unknowns the results are equal. -/
theorem fold_sequential {n : Nat} (hn : 0 < n) :
    ∃ t : PairTree Nat, t.leaves = List.range n ∧
      (∀ {α : Type} (combine : α → α → Except String α) (op : α → α → α),
        (∀ a b, combine a b = .ok (op a b)) → ∀ elements : Nat → α,
          reduceTree combine n ((List.range n).map elements) = .ok (t.eval op elements)) ∧
      (∀ {w : Nat} (expression : Bus w → Bus w → Bus w) (elements : Nat → Bus w),
        reduceWires expression (Bus.table elements : Bus (n * w)) = t.eval expression elements) ∧
      ∀ {w : Nat} (kind : FoldKind) (elements : Nat → FourState w),
        (∀ values : Nat → BitVec w, (∀ i < n, (elements i).bus = .ofBitVec (values i)) →
          Returns (foldCpp kind n elements)
              (.ofBitVec (kind.sequential ((List.range n).map values))) ∧
            foldVerilog kind (Bus.table fun i => (elements i).bus : Bus (n * w)) =
              .ofBitVec (kind.sequential ((List.range n).map values))) ∧
        ((∀ i < n, Driven (elements i).bus) →
          Returns (foldCpp kind n elements)
            (foldVerilog kind (Bus.table fun i => (elements i).bus : Bus (n * w)))) := by
  obtain ⟨t, hleaves, ht⟩ := Pairs.exists_tree hn
  have hwires : ∀ {w : Nat} (expression : Bus w → Bus w → Bus w) (elements : Nat → Bus w),
      reduceWires expression (Bus.table elements : Bus (n * w)) = t.eval expression elements :=
    fun expression elements => reduceWires_eq expression (ht expression elements)
  refine ⟨t, hleaves, fun _ _ => reduceTree_range hn ht, hwires,
    fun {w} kind elements => ⟨?_, ?_⟩⟩
  · intro values hvalues
    constructor
    · have hreturns := foldCpp_returns hn ht kind elements
      rwa [eval_known hn hleaves Bus.select_ofBool kind hvalues] at hreturns
    · rw [foldVerilog, hwires]
      exact eval_known hn hleaves Bus.conditional_ofBool kind hvalues
  · intro hdriven
    have hreturns := foldCpp_returns hn ht kind elements
    have hleaf : ∀ i ∈ t.leaves, Driven (elements i).bus := by
      intro i hi
      rw [hleaves, List.mem_range] at hi
      exact hdriven i hi
    rw [PairTree.eval_congr_op (fun a b => onBuses_driven kind) hleaf] at hreturns
    rw [foldVerilog, hwires]
    exact hreturns

theorem fold_sequential_three : ∃ t : PairTree Nat, t.leaves = List.range 3 ∧
    reduceTree (fun a b : Nat => .ok (a + b)) 3 [1, 2, 4] =
      .ok (t.eval (· + ·) fun i => 2 ^ i) := by
  obtain ⟨t, hleaves, hloop, -, -⟩ := fold_sequential (n := 3) (by decide)
  exact ⟨t, hleaves, hloop _ (· + ·) (fun _ _ => rfl) fun i => 2 ^ i⟩

end PyCircuit.TableEmit
