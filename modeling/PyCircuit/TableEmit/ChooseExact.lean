import PyCircuit.TableEmit.Choose
import Mathlib.Data.List.Perm.Basic

/-!
# The choice is the ordered list of the set bits

The C++ text gives the states of the Verilog text at every mask. At a known mask a pass takes the
head of the list of the set bits in the order of the choice and leaves its tail, so that the pass of
rank `k` takes the element of rank `k`.
-/

set_option autoImplicit false

namespace PyCircuit.TableEmit

open Lib Gfsim Gfsim.FourState Fallible

variable {n w : Nat}

/-! ## The chain of conditionals as a fold -/

theorem conditional_ofBitVec (c : Logic) (v : BitVec w) (b : Bus w) :
    Bus.conditional c (Bus.ofBitVec v) b = Bus.select c (Bus.ofBitVec v) b := by
  funext i
  apply Logic.conditional_eq_select
  rw [Bus.ofBitVec]
  cases v.getLsbD i <;> decide

variable (remaining : FourState n) (order : Order) (mask : Bus n) (pass : Nat) (m : BitVec n)

theorem scanOrder_eq (n : Nat) : scanOrder order n = (List.range n).map (scanned order n) := by
  cases order with
  | low =>
    apply List.ext_getElem
    · simp [scanOrder]
    · intro i hi _
      simp [scanOrder, scanned]
  | high => exact (List.map_id _).symm

variable {k : Nat} {index : Bus w} {slot : Slot w} {valid : Logic} {bits : List Nat}

theorem lt_of_mem_scanOrder (h : k ∈ scanOrder order n) : k < n := by
  cases order with
  | low => exact List.mem_range.mp (List.mem_reverse.mp h)
  | high => exact List.mem_range.mp h

/-- The chain of the Verilog text over the values of `pyc_bit`. -/
def indexFold (mask : Bus n) (bits : List Nat) (index : Bus w) : Bus w :=
  bits.foldl
    (fun index k => Bus.select (mask.wireAt k) (Bus.ofBitVec (.ofNat w k)) index) index

def validFold (mask : Bus n) (bits : List Nat) (valid : Logic) : Logic :=
  bits.foldl (fun valid k => valid.or (mask.wireAt k)) valid

theorem indexWires_eq :
    indexWires w order mask n =
      indexFold mask (scanOrder order n) (Bus.ofBitVec (.ofNat w 0)) := by
  have hsteps : ∀ steps, indexWires w order mask steps =
      indexFold mask ((List.range steps).map (scanned order n)) (Bus.ofBitVec (.ofNat w 0)) := by
    intro steps
    induction steps with
    | zero => rfl
    | succ steps ih =>
      rw [indexWires, ih, conditional_ofBitVec, List.range_succ, List.map_append]
      simp only [indexFold, List.foldl_append, List.map_cons, List.map_nil, List.foldl_cons,
        List.foldl_nil]
  rw [hsteps, scanOrder_eq]

instance : RightCommutative Logic.or where
  right_comm a b c := by cases a <;> cases b <;> cases c <;> rfl

theorem validWire_eq : validWire mask = validFold mask (scanOrder order n) .zero := by
  have hbits : List.ofFn mask = (List.range n).map fun k => mask.wireAt k := by
    apply List.ext_getElem
    · simp
    · intro i hi _
      simp only [List.length_ofFn] at hi
      simp [Bus.wireAt_of_lt mask hi]
  have hperm : (scanOrder order n).Perm (List.range n) := by
    cases order with
    | low => exact List.reverse_perm _
    | high => exact List.Perm.refl _
  have hfold : ∀ bits : List Nat, validFold mask bits .zero =
      (bits.map fun k => mask.wireAt k).foldl .or .zero := by
    intro bits
    rw [validFold, List.foldl_map]
  rw [hfold, validWire, Bus.reduceOr, hbits]
  exact ((hperm.map _).foldl_eq _).symm

/-! ## The C++ text -/

/-- A slot that carries the given wires. -/
def Slot.Carries (slot : Slot w) (index : Bus w) (valid : Logic) : Prop :=
  slot.index.bus = index ∧ slot.valid.bus = Bus.wire valid

theorem scanBit_eq (hw : 0 < w) (hslot : slot.Carries index valid) {bit : Nat} (hbit : bit < n)
    (hword : bit < 2 ^ 64) :
    ∃ slot', scanBit remaining slot bit = .ok slot' ∧
      slot'.Carries
        (Bus.select (remaining.bus.wireAt bit) (Bus.ofBitVec (.ofNat w bit)) index)
        (valid.or (remaining.bus.wireAt bit)) := by
  obtain ⟨hindex, hvalid⟩ := hslot
  obtain ⟨hit, hhit, hhitBus⟩ :=
    extract_bus Nat.one_pos (show bit + 1 ≤ n from hbit) remaining
  obtain ⟨valid', hor, horBus⟩ := bitOr_returns slot.valid hit
  obtain ⟨number, hnumber, hnumberBus⟩ := literal_returns hw hword
  obtain ⟨index', hselect, hselectBus⟩ := select_returns hit number slot.index
  refine ⟨⟨index', valid'⟩, ?_, ?_, ?_⟩
  · simp only [scanBit, hhit, hor, hnumber, hselect, ok_bind]
  · rw [hselectBus, hhitBus, hnumberBus, hindex, Bus.slice_one]
  · rw [horBus, hvalid, hhitBus, Bus.slice_one]
    funext i
    obtain rfl : i = 0 := Subsingleton.elim i 0
    rfl

theorem scanBits_eq (hw : 0 < w) (hbits : ∀ k ∈ bits, k < n) (hsize : n ≤ 2 ^ 64)
    (hslot : slot.Carries index valid) :
    ∃ slot', bits.foldlM (scanBit remaining) slot = .ok slot' ∧
      slot'.Carries (indexFold remaining.bus bits index) (validFold remaining.bus bits valid) := by
  induction bits generalizing slot index valid with
  | nil => exact ⟨slot, rfl, hslot⟩
  | cons k bits ih =>
    obtain ⟨hk, hrest⟩ := List.forall_mem_cons.mp hbits
    obtain ⟨slot', hstep, hcarries⟩ :=
      scanBit_eq remaining hw hslot hk (hk.trans_le hsize)
    obtain ⟨final, hloop, hfinal⟩ := ih hrest hcarries
    refine ⟨final, ?_, hfinal⟩
    rw [List.foldlM_cons, hstep, ok_bind, hloop]

theorem scan_eq (hw : 0 < w) (hsize : n ≤ 2 ^ 64) (order : Order) (remaining : FourState n) :
    ∃ slot, scan w order remaining = .ok slot ∧
      slot.Carries (indexWires w order remaining.bus n) (validWire remaining.bus) := by
  obtain ⟨index, hindex, hindexBus⟩ := literal_returns hw (k := 0) (by decide)
  obtain ⟨valid, hvalid, hvalidBus⟩ := literal_returns Nat.one_pos (k := 0) (by decide)
  have hwire : Bus.ofBitVec (BitVec.ofNat 1 0) = Bus.wire .zero := by
    funext i
    obtain rfl : i = 0 := Subsingleton.elim i 0
    rfl
  rw [hwire] at hvalidBus
  have hstart : (Slot.mk index valid).Carries (Bus.ofBitVec (.ofNat w 0)) .zero :=
    ⟨hindexBus, hvalidBus⟩
  obtain ⟨slot, hloop, hcarries⟩ :=
    scanBits_eq remaining hw (fun k => lt_of_mem_scanOrder order) hsize hstart
  refine ⟨slot, ?_, ?_⟩
  · simp only [scan, hindex, hvalid, ok_bind]
    exact hloop
  · rwa [indexWires_eq, validWire_eq order]

/-- The wire that is left of a bit. -/
def keptWire (index : Bus w) (valid hit : Logic) (bit : Nat) : Logic :=
  hit.and (valid.and (Bus.equal index (Bus.ofBitVec (.ofNat w bit)))).not

theorem removeBit_eq (hw : 0 < w)
    (hslot : slot.Carries index valid) (remaining : FourState n) {bit : Nat} (hbit : bit < n)
    (hword : bit < 2 ^ 64) :
    ∃ remaining', removeBit slot remaining bit = .ok remaining' ∧
      remaining'.bus = remaining.bus.setSlice bit
        (Bus.wire (keptWire index valid (remaining.bus.wireAt bit) bit)) := by
  obtain ⟨hindex, hvalid⟩ := hslot
  obtain ⟨number, hnumber, hnumberBus⟩ := literal_returns hw hword
  obtain ⟨equal, hequal, hequalBus⟩ := compare_eq_bus slot.index number
  obtain ⟨remove, hremove, hremoveBus⟩ := bitAnd_returns slot.valid equal
  obtain ⟨hit, hhit, hhitBus⟩ :=
    extract_bus Nat.one_pos (show bit + 1 ≤ n from hbit) remaining
  obtain ⟨keep, hkeep, hkeepBus⟩ := bitNot_returns remove
  obtain ⟨kept, hkept, hkeptBus⟩ := bitAnd_returns hit keep
  refine ⟨remaining.assignSlice remaining.one_le bit kept, ?_, ?_⟩
  · simp only [removeBit, hnumber, hequal, hremove, hhit, hkeep, hkept, ok_bind]
  · rw [assignSlice_bus remaining (show bit + 1 ≤ n from hbit)]
    congr 1
    rw [hkeptBus, hkeepBus, hremoveBus, hequalBus, hhitBus, hindex, hvalid, hnumberBus,
      Bus.slice_one]
    funext i
    obtain rfl : i = 0 := Subsingleton.elim i 0
    rfl

/-- A bit is cleared from its own state, so the loop is the assignment of all bits at once. -/
theorem removeBits_eq (hw : 0 < w)
    (hsize : n ≤ 2 ^ 64) (hslot : slot.Carries index valid) (remaining : FourState n)
    {bits : Nat} (hbits : bits ≤ n) :
    ∃ remaining', (List.range bits).foldlM (removeBit slot) remaining = .ok remaining' ∧
      ∀ i : Fin n, remaining'.bus i =
        if i.val < bits then keptWire index valid (remaining.bus i) i else remaining.bus i := by
  induction bits with
  | zero => exact ⟨remaining, rfl, fun i => (if_neg (Nat.not_lt_zero _)).symm⟩
  | succ bits ih =>
    obtain ⟨before, hloop, hbefore⟩ := ih (by omega)
    obtain ⟨after, hstep, hafter⟩ :=
      removeBit_eq hw hslot before (show bits < n by omega) (by omega)
    refine ⟨after, ?_, ?_⟩
    · rw [List.range_succ, List.foldlM_append, hloop, ok_bind, List.foldlM_cons, hstep,
        ok_bind, List.foldlM_nil]
      rfl
    · intro i
      rw [hafter, Bus.setSlice]
      by_cases hnow : bits ≤ i.val ∧ i.val - bits < 1
      · obtain rfl : bits = i.val := by omega
        rw [dif_pos hnow, if_pos (Nat.lt_succ_self _), Bus.wireAt_of_lt _ i.isLt, hbefore,
          if_neg (Nat.lt_irrefl _)]
        rfl
      · rw [dif_neg hnow, hbefore]
        by_cases hlt : i.val < bits
        · rw [if_pos hlt, if_pos (by omega)]
        · rw [if_neg hlt, if_neg (by omega)]

/-- One pass of the C++ text. -/
theorem pass_eq (hw : 0 < w) (hsize : n ≤ 2 ^ 64) (order : Order) (remaining : FourState n) :
    ∃ slot remaining', scan w order remaining = .ok slot ∧
      (List.range n).foldlM (removeBit slot) remaining = .ok remaining' ∧
      slot.Carries (indexWires w order remaining.bus n) (validWire remaining.bus) ∧
      remaining'.bus = nextMask w order remaining.bus := by
  obtain ⟨slot, hscan, hcarries⟩ := scan_eq hw hsize order remaining
  obtain ⟨remaining', hremove, hbus⟩ := removeBits_eq hw hsize hcarries remaining le_rfl
  refine ⟨slot, remaining', hscan, hremove, hcarries, ?_⟩
  funext i
  rw [hbus, if_pos i.isLt]
  rfl

theorem maskWires_succ :
    maskWires w order (nextMask w order mask) pass = maskWires w order mask (pass + 1) := by
  induction pass with
  | zero => rfl
  | succ pass ih =>
    rw [maskWires, ih]
    rfl

theorem chooseVerilog_succ :
    chooseVerilog w order (nextMask w order mask) pass =
      chooseVerilog w order mask (pass + 1) := by
  rw [chooseVerilog, chooseVerilog, maskWires_succ]

/-- The passes of the C++ text give the wires of the Verilog text. -/
theorem chooseCpp_eq (hw : 0 < w) (hsize : n ≤ 2 ^ 64) (order : Order) (count : Nat)
    (remaining : FourState n) :
    ∃ slots, chooseCpp w order count remaining = .ok slots ∧ slots.length = count ∧
      ∀ (k : Nat) (slot : Slot w), slots[k]? = some slot →
        slot.Carries (chooseVerilog w order remaining.bus k).1
          (chooseVerilog w order remaining.bus k).2 := by
  induction count generalizing remaining with
  | zero => exact ⟨[], rfl, rfl, fun k slot h => by cases h⟩
  | succ count ih =>
    obtain ⟨slot, remaining', hscan, hremove, hcarries, hbus⟩ :=
      pass_eq hw hsize order remaining
    obtain ⟨slots, hrest, hlength, hslots⟩ := ih remaining'
    refine ⟨slot :: slots, ?_, congrArg (· + 1) hlength, ?_⟩
    · simp only [chooseCpp, hscan, hremove, hrest, ok_bind]
    · intro k slot' hk
      cases k with
      | zero =>
        obtain rfl : slot = slot' := Option.some.inj hk
        exact hcarries
      | succ k =>
        have hlater := hslots k slot' hk
        rwa [hbus, chooseVerilog_succ] at hlater

/-! ## Known masks -/

/-- The bits in the order of the choice. -/
def candidates (order : Order) (n : Nat) : List Nat :=
  match order with
  | .low => List.range n
  | .high => (List.range n).reverse

theorem scanOrder_eq_reverse (n : Nat) : scanOrder order n = (candidates order n).reverse := by
  cases order with
  | low => rfl
  | high => exact (List.reverse_reverse _).symm

theorem mem_candidates {order : Order} : k ∈ candidates order n ↔ k < n := by
  cases order with
  | low => exact List.mem_range
  | high => exact List.mem_reverse.trans List.mem_range

theorem nodup_candidates (n : Nat) : (candidates order n).Nodup := by
  cases order with
  | low => exact List.nodup_range
  | high => exact List.nodup_reverse.mpr List.nodup_range

theorem chosen_eq : chosen order m = (candidates order n).filter fun i => m.getLsbD i := by
  cases order with
  | low => rfl
  | high => exact (List.filter_reverse ..).symm

theorem length_chosen : (chosen order m).length = (setBits m).length := by
  cases order with
  | low => rfl
  | high => exact List.length_reverse

theorem wireAt_ofBitVec (h : k < n) : (Bus.ofBitVec m).wireAt k = .ofBool (m.getLsbD k) :=
  Bus.wireAt_of_lt _ h

/-- The last hit of the scan is the first one in the order of the choice. -/
theorem indexFold_known (hbits : ∀ k ∈ bits, k < n) :
    indexFold (Bus.ofBitVec m) bits.reverse (Bus.ofBitVec (.ofNat w 0)) =
      Bus.ofBitVec (.ofNat w (((bits.filter fun i => m.getLsbD i).head?).getD 0)) := by
  rw [indexFold, List.foldl_reverse]
  induction bits with
  | nil => rfl
  | cons k bits ih =>
    obtain ⟨hk, hrest⟩ := List.forall_mem_cons.mp hbits
    rw [List.foldr_cons, ih hrest, wireAt_ofBitVec m hk, Bus.select_ofBool]
    by_cases hbit : m.getLsbD k = true
    · rw [if_pos hbit, List.filter_cons_of_pos hbit]
      rfl
    · rw [if_neg hbit, List.filter_cons_of_neg hbit]

theorem validFold_known (hbits : ∀ k ∈ bits, k < n) (before : Bool) :
    validFold (Bus.ofBitVec m) bits (.ofBool before) =
      .ofBool (before || bits.any fun i => m.getLsbD i) := by
  induction bits generalizing before with
  | nil => rw [List.any_nil, Bool.or_false]; rfl
  | cons k bits ih =>
    obtain ⟨hk, hrest⟩ := List.forall_mem_cons.mp hbits
    have hstep : validFold (Bus.ofBitVec m) (k :: bits) (.ofBool before) =
        validFold (Bus.ofBitVec m) bits ((Logic.ofBool before).or
          ((Bus.ofBitVec m).wireAt k)) := rfl
    rw [hstep, wireAt_ofBitVec m hk, Logic.or_ofBool, ih hrest, List.any_cons, Bool.or_assoc]

theorem indexWires_known :
    indexWires w order (Bus.ofBitVec m) n =
      Bus.ofBitVec (.ofNat w (((chosen order m).head?).getD 0)) := by
  rw [indexWires_eq, scanOrder_eq_reverse, indexFold_known m fun k => mem_candidates.mp, chosen_eq]

theorem validWire_known :
    validWire (Bus.ofBitVec m) = .ofBool (decide (0 < (chosen order m).length)) := by
  have hany : ((scanOrder order n).any fun i => m.getLsbD i) =
      decide (0 < (chosen order m).length) := by
    rw [scanOrder_eq_reverse, List.any_reverse, chosen_eq, Bool.eq_iff_iff, decide_eq_true_iff,
      List.length_pos_iff_exists_mem, List.any_eq_true]
    simp only [List.mem_filter]
  have hfold := validFold_known m (fun k => lt_of_mem_scanOrder order) false
  rw [Bool.false_or, hany] at hfold
  rw [validWire_eq order]
  exact hfold

theorem ofNat_eq_iff {i j : Nat} (hindex : n - 1 < 2 ^ w) (hi : i < n) (hj : j < n) :
    BitVec.ofNat w i = BitVec.ofNat w j ↔ i = j := by
  constructor
  · intro h
    have hnat := congrArg BitVec.toNat h
    rw [BitVec.toNat_ofNat, BitVec.toNat_ofNat, Nat.mod_eq_of_lt (by omega),
      Nat.mod_eq_of_lt (by omega)] at hnat
    exact hnat
  · exact congrArg _

/-- A pass clears the head of the chosen bits. -/
theorem nextMask_known (hindex : n - 1 < 2 ^ w) (order : Order) (m : BitVec n) :
    ∃ m' : BitVec n, nextMask w order (Bus.ofBitVec m) = Bus.ofBitVec m' ∧
      chosen order m' = (chosen order m).tail := by
  have hwire : ∀ i : Fin n, nextMask w order (Bus.ofBitVec m) i =
      .ofBool (m.getLsbD i && !decide ((chosen order m).head? = some i.val)) := by
    intro i
    rw [nextMask, validWire_known order, indexWires_known, Bus.equal_ofBitVec, Bus.ofBitVec,
      Logic.and_ofBool, Logic.not_ofBool, Logic.and_ofBool]
    congr 3
    cases hlist : chosen order m with
    | nil => rfl
    | cons k rest =>
      have hk : k < n := by
        have hmem : k ∈ chosen order m := hlist ▸ List.mem_cons_self
        rw [chosen_eq, List.mem_filter] at hmem
        exact mem_candidates.mp hmem.1
      simp only [List.length_cons, Nat.zero_lt_succ, decide_true, Bool.true_and, List.head?_cons,
        Option.getD_some, ofNat_eq_iff hindex hk i.isLt, Option.some.injEq]
  have hknown : (nextMask w order (Bus.ofBitVec m)).Known := by
    intro i
    rw [hwire]
    exact Logic.ofBool_known _
  refine ⟨(nextMask w order (Bus.ofBitVec m)).value, (Bus.ofBitVec_value hknown).symm, ?_⟩
  have hbit : ∀ k ∈ candidates order n, (nextMask w order (Bus.ofBitVec m)).value.getLsbD k =
      (!decide ((chosen order m).head? = some k) && m.getLsbD k) := by
    intro k hk
    have hlt := mem_candidates.mp hk
    have hget := Bus.getLsbD_value (nextMask w order (Bus.ofBitVec m)) ⟨k, hlt⟩
    rw [hwire] at hget
    rw [hget, Bool.and_comm (!decide _)]
    cases (m.getLsbD k && !decide ((chosen order m).head? = some k)) with
    | false | true => rfl
  rw [chosen_eq, List.filter_congr hbit, ← List.filter_filter, ← chosen_eq]
  have hnodup : (chosen order m).Nodup := by
    rw [chosen_eq]
    exact (nodup_candidates order n).filter _
  cases hlist : chosen order m with
  | nil => rfl
  | cons k rest =>
    rw [hlist] at hnodup
    obtain ⟨hout, -⟩ := List.nodup_cons.mp hnodup
    simp only [List.head?_cons, List.tail_cons]
    rw [List.filter_cons_of_neg (by simp), List.filter_eq_self]
    intro i hi
    have hne : k ≠ i := fun h => hout (h ▸ hi)
    simp [hne]

theorem maskWires_known (hindex : n - 1 < 2 ^ w) (order : Order) (m : BitVec n) (pass : Nat) :
    ∃ m' : BitVec n, maskWires w order (Bus.ofBitVec m) pass = Bus.ofBitVec m' ∧
      chosen order m' = (chosen order m).drop pass := by
  induction pass with
  | zero => exact ⟨m, rfl, rfl⟩
  | succ pass ih =>
    obtain ⟨before, hmask, hbefore⟩ := ih
    obtain ⟨after, hnext, hafter⟩ := nextMask_known hindex order before
    refine ⟨after, ?_, ?_⟩
    · rw [maskWires, hmask, hnext]
    · rw [hafter, hbefore, List.tail_drop]

/-- The position that a slot reports. -/
def slotPosition (order : Order) (m : BitVec n) (k : Nat) : Nat := ((chosen order m)[k]?).getD 0

theorem chooseVerilog_known (hindex : n - 1 < 2 ^ w) (order : Order) (m : BitVec n) (k : Nat) :
    chooseVerilog w order (Bus.ofBitVec m) k =
      (Bus.ofBitVec (.ofNat w (slotPosition order m k)),
        .ofBool (decide (k < (setBits m).length))) := by
  obtain ⟨m', hmask, hchosen⟩ := maskWires_known hindex order m k
  rw [chooseVerilog, hmask, indexWires_known, validWire_known order, hchosen, List.head?_drop,
    List.length_drop, length_chosen, slotPosition]
  simp only [Nat.sub_pos_iff_lt]

/-- The chosen positions follow the order. -/
def Order.Before : Order → Nat → Nat → Prop
  | .low, i, j => i < j
  | .high, i, j => j < i

theorem pairwise_chosen : (chosen order m).Pairwise order.Before := by
  have hsorted : (setBits m).Pairwise (· < ·) := List.pairwise_lt_range.filter _
  cases order with
  | low => exact hsorted
  | high => exact List.pairwise_reverse.mpr hsorted

theorem slotPosition_before {j : Nat} (hjk : j < k) (hk : k < (setBits m).length) :
    order.Before (slotPosition order m j) (slotPosition order m k) := by
  rw [← length_chosen order] at hk
  have hbefore := List.pairwise_iff_getElem.mp (pairwise_chosen order m) j k (hjk.trans hk) hk hjk
  rwa [slotPosition, slotPosition, List.getElem?_eq_getElem hk,
    List.getElem?_eq_getElem (hjk.trans hk)]

theorem slotPosition_lt (hn : 0 < n) : slotPosition order m k < n := by
  rw [slotPosition]
  cases hget : (chosen order m)[k]? with
  | none => exact hn
  | some i =>
    have hmem := List.mem_of_getElem? hget
    rw [chosen_eq, List.mem_filter] at hmem
    exact mem_candidates.mp hmem.1

/-- Both texts give the same states at every mask. At a known mask the slot of rank `k` is valid
when more than `k` bits are set, and then it has the position of the set bit of rank `k` in the
order of the choice; otherwise its index is zero. The positions of the valid slots follow the
order. -/
theorem choose_kth (hw : 0 < w) (hindex : n - 1 < 2 ^ w) (hsize : n < 2 ^ 63) (order : Order)
    (count : Nat) (mask : FourState n) :
    ∃ slots, chooseCpp w order count mask = .ok slots ∧ slots.length = count ∧
      (∀ (k : Nat) (slot : Slot w), slots[k]? = some slot →
        slot.index.bus = (chooseVerilog w order mask.bus k).1 ∧
        slot.valid.bus = Bus.wire (chooseVerilog w order mask.bus k).2) ∧
      ∀ m : BitVec n, mask.bus = Bus.ofBitVec m →
        (∀ (k : Nat) (slot : Slot w), slots[k]? = some slot →
          slot.valid.bus = Bus.wire (.ofBool (decide (k < (setBits m).length))) ∧
          slot.index.bus = Bus.ofBitVec (.ofNat w (slotPosition order m k)) ∧
          (BitVec.ofNat w (slotPosition order m k)).toNat = slotPosition order m k ∧
          ((setBits m).length ≤ k → slotPosition order m k = 0)) ∧
        ∀ j k, j < k → k < (setBits m).length →
          order.Before (slotPosition order m j) (slotPosition order m k) := by
  obtain ⟨slots, hrun, hlength, hslots⟩ :=
    chooseCpp_eq hw (hsize.le.trans (by decide)) order count mask
  refine ⟨slots, hrun, hlength, hslots, fun m hm => ⟨?_, fun j k => slotPosition_before order m⟩⟩
  intro k slot hslot
  obtain ⟨hindexBus, hvalidBus⟩ := hslots k slot hslot
  rw [hm, chooseVerilog_known hindex] at hindexBus hvalidBus
  have hposition := slotPosition_lt order m (k := k) mask.value.positive
  refine ⟨hvalidBus, hindexBus, ?_, ?_⟩
  · rw [BitVec.toNat_ofNat, Nat.mod_eq_of_lt (by omega)]
  · intro hle
    rw [← length_chosen order] at hle
    rw [slotPosition, List.getElem?_eq_none hle, Option.getD_none]

theorem choose_kth_secondOfTwo : ∃ (mask : FourState 4) (slots : List (Slot 2)),
    mask.bus = Bus.ofBitVec 10#4 ∧ chooseCpp 2 .low 2 mask = .ok slots ∧
      ∀ slot, slots[1]? = some slot → slot.index.bus = Bus.ofBitVec 3#2 := by
  obtain ⟨mask, -, hmask⟩ := literal_returns (show 0 < 4 by decide) (k := 10) (by decide)
  obtain ⟨slots, hrun, -, -, hknown⟩ :=
    choose_kth (w := 2) (by decide) (by decide) (by decide) .low 2 mask
  refine ⟨mask, slots, hmask, hrun, fun slot hslot => ?_⟩
  have hposition : slotPosition .low 10#4 1 = 3 := by decide
  obtain ⟨-, hindex, -⟩ := (hknown 10#4 hmask).1 1 slot hslot
  rwa [hposition] at hindex

end PyCircuit.TableEmit
