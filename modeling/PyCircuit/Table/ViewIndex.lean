import Mathlib.Data.List.GetD
import PyCircuit.Table.ViewOrdinal

/-!
# Emitted index expressions

`HardwareEmitContext::viewIndex` writes the source ordinal of a view as an expression over the
ordinal of the result, in the text of the generated C++ or Verilog. The expressions stand here as
trees; a rendered static parameter stands for its value. The shift of a rotation is a literal, a
remainder of a literal or a call of `pyc_mod`, after which of the parameters are closed. Read as
integer arithmetic, each of these expressions is the source ordinal.
-/

set_option autoImplicit false

namespace PyCircuit.Table

open Lib Fallible RowMajor

/-! ## Expressions -/

inductive IndexExpr
  | ordinal
  | static (value : Int)
  | add (a b : IndexExpr)
  | sub (a b : IndexExpr)
  | mul (a b : IndexExpr)
  | div (a b : IndexExpr)
  | mod (a b : IndexExpr)
  /-- The text `a == b ? yes : no`. -/
  | ifEqual (a b yes no : IndexExpr)
  | pycMod (a b : IndexExpr)
  | pycModWords (words : List Nat) (negative : Bool) (modulus : IndexExpr)

/-- The support function `pyc_mod` of both targets. -/
def pycMod (a b : Int) : Int :=
  let r := a.tmod b
  if r ≠ 0 ∧ decide (r < 0) ≠ decide (b < 0) then r + b else r

/-- One word of `pyc_mod_words`, from its top bit on. -/
def wordRemainder (modulus word : Nat) : Nat → Nat → Nat
  | 0, remainder => remainder
  | bit + 1, remainder =>
    wordRemainder modulus word bit
      ((remainder * 2 + (word / 2 ^ bit) % 2) % 2 ^ 64 % modulus)

/-- The words of `pyc_mod_words`, the last one first. -/
def wordsRemainder (modulus : Nat) : List Nat → Nat
  | [] => 0
  | word :: words => wordRemainder modulus word 64 (wordsRemainder modulus words)

/-- The support function `pyc_mod_words` of the C++ target. -/
def pycModWords (words : List Nat) (negative : Bool) (modulus : Nat) : Nat :=
  let remainder := wordsRemainder modulus words
  if negative ∧ remainder ≠ 0 then modulus - remainder else remainder

def IndexExpr.eval (k : Nat) : IndexExpr → Int
  | .ordinal => k
  | .static value => value
  | .add a b => a.eval k + b.eval k
  | .sub a b => a.eval k - b.eval k
  | .mul a b => a.eval k * b.eval k
  | .div a b => (a.eval k).tdiv (b.eval k)
  | .mod a b => (a.eval k).tmod (b.eval k)
  | .ifEqual a b yes no => if a.eval k = b.eval k then yes.eval k else no.eval k
  | .pycMod a b => Table.pycMod (a.eval k) (b.eval k)
  | .pycModWords words negative modulus =>
    Table.pycModWords words negative (modulus.eval k).toNat

theorem IndexExpr.eval_static (k : Nat) (value : Int) : (static value).eval k = value := by
  rw [IndexExpr.eval]

/-! ## The emitter -/

/-- Which static expressions of a view have no parameter of the family in them. -/
structure Closed where
  shape : List Bool
  sizes : List Bool
  axis : Bool
  offset : Bool

/-- The distances along the axes, from the last one on. -/
def strideExprs : List Nat → List IndexExpr
  | [] => []
  | [_] => [.static 1]
  | _ :: extent :: rest =>
    match strideExprs (extent :: rest) with
    | [] => []
    | stride :: strides => .mul stride (.static extent) :: stride :: strides

/-- The text `((ordinal / (stride)) % (extent))`. -/
def outCoordinate (stride : IndexExpr) (extent : Nat) : IndexExpr :=
  .mod (.div .ordinal stride) (.static extent)

def coordinateExprs (out : List Nat) : List IndexExpr :=
  (strideExprs out).zipWith outCoordinate out

/-- The 64-bit words of a magnitude, the lowest one first. -/
def magnitudeWords (magnitude : Nat) : List Nat :=
  (List.range (max 1 ((magnitude.size + 63) / 64))).map fun word =>
    magnitude / 2 ^ (64 * word) % 2 ^ 64

/-- The shift of a rotation, as the text for one axis has it. -/
def shiftExpr (rtl : Bool) (closed : Closed) (axisStatic offset : Int) (extents : List Nat)
    (axis : Nat) : Except String IndexExpr :=
  let extent := extents.getD axis 0
  if closed.shape.all id ∧ closed.offset ∧ closed.axis then do
    let source ← getViewSourceOrdinal (.rotate axisStatic offset) extents extents 0
    .ok (.static (source / product (extents.drop (axis + 1)) % extent : Nat))
  else if closed.offset then
    if rtl then
      let remainder := IndexExpr.mod (.static offset.natAbs) (.static extent)
      if offset < 0 then
        .ok (.ifEqual remainder (.static 0) (.static 0) (.sub (.static extent) remainder))
      else .ok remainder
    else .ok (.pycModWords (magnitudeWords offset.natAbs) (decide (offset < 0)) (.static extent))
  else .ok (.pycMod (.static offset) (.static extent))

/-- The source coordinate of one axis. -/
def coordinateExpr (rtl : Bool) (closed : Closed) (view : View) (extents out : List Nat)
    (axis : Nat) : Except String IndexExpr :=
  let coordinates := coordinateExprs out
  let coordinate := coordinates.getD axis (.static 0)
  match view with
  | .reshape _ => .error "unverified table view kind"
  | .slice offsets _ strides =>
    -- the coordinate of a single element is zero: its stride is not written
    if closed.sizes.getD axis false ∧ out.getD axis 0 = 1 then
      .ok (.static (offsets.getD axis 0))
    else
      .ok (.add (.static (offsets.getD axis 0))
        (.mul coordinate (.static (strides.getD axis 0))))
  | .transpose axes =>
    .ok ((axes.zip coordinates).foldl
      (fun sum p => .add sum (.ifEqual (.static p.1) (.static axis) p.2 (.static 0)))
      (.static 0))
  | .rotate axisStatic offset => do
      let shift ← shiftExpr rtl closed axisStatic offset extents axis
      let rotated := IndexExpr.mod (.add coordinate shift) (.static (extents.getD axis 0))
      .ok (.ifEqual (.static axisStatic) (.static axis) rotated coordinate)

def viewIndex (rtl : Bool) (closed : Closed) (view : View) (extents out : List Nat) :
    Except String IndexExpr :=
  match view with
  | .reshape _ => .ok .ordinal
  | view => do
      let coordinates ←
        (List.range extents.length).mapM (coordinateExpr rtl closed view extents out)
      .ok ((coordinates.zip (strideExprs extents)).foldl
        (fun result p => .add result (.mul p.1 p.2)) (.static 0))

/-! ## The support functions -/

theorem pycMod_eq (a : Int) {b : Nat} (h : 0 < b) : pycMod a b = a % b := by
  rw [pycMod, ← tmod_floor a h]
  have hb : ¬ (b : Int) < 0 := by omega
  by_cases hneg : a.tmod b < 0
  · have hcond : a.tmod b ≠ 0 ∧ decide (a.tmod b < 0) ≠ decide ((b : Int) < 0) := by
      refine ⟨hneg.ne, ?_⟩
      rw [decide_eq_true hneg, decide_eq_false hb]
      decide
    rw [if_pos hcond, if_pos hneg]
  · have hcond : ¬ (a.tmod b ≠ 0 ∧ decide (a.tmod b < 0) ≠ decide ((b : Int) < 0)) := by
      rintro ⟨_, hne⟩
      exact hne (by rw [decide_eq_false hneg, decide_eq_false hb])
    rw [if_neg hcond, if_neg hneg]

variable (magnitude : Nat) (rtl : Bool) (closed : Closed)

section Words

variable {modulus : Nat}

/-- The bits of a word enter the remainder from the top. -/
theorem wordRemainder_eq (hlt : modulus < 2 ^ 63) (word : Nat) {bits remainder : Nat}
    (h : remainder < modulus) :
    wordRemainder modulus word bits remainder =
      (remainder * 2 ^ bits + word % 2 ^ bits) % modulus := by
  induction bits generalizing remainder with
  | zero =>
    rw [wordRemainder, Nat.pow_zero, Nat.mul_one, Nat.mod_one, Nat.add_zero, Nat.mod_eq_of_lt h]
  | succ bit ih =>
    have hbit : word / 2 ^ bit % 2 < 2 := Nat.mod_lt _ (by decide)
    rw [wordRemainder, Nat.mod_eq_of_lt (show _ < 2 ^ 64 by omega),
      ih (Nat.mod_lt _ (Nat.zero_lt_of_lt h)), ← Nat.mod_add_mod, Nat.mul_mod, Nat.mod_mod,
      ← Nat.mul_mod, Nat.mod_add_mod, Nat.mod_pow_succ, Nat.pow_succ]
    congr 1
    rw [Nat.add_mul, Nat.mul_assoc, Nat.mul_comm 2, Nat.mul_comm (word / 2 ^ bit % 2)]
    omega

/-- The number of some words, the lowest one first. -/
def wordsValue : List Nat → Nat
  | [] => 0
  | word :: words => wordsValue words * 2 ^ 64 + word % 2 ^ 64

theorem wordsRemainder_eq (hpos : 0 < modulus) (hlt : modulus < 2 ^ 63) (words : List Nat) :
    wordsRemainder modulus words = wordsValue words % modulus := by
  induction words with
  | nil => exact (Nat.zero_mod modulus).symm
  | cons word words ih =>
    rw [wordsRemainder, ih, wordRemainder_eq hlt word (Nat.mod_lt _ hpos), wordsValue,
      ← Nat.mod_add_mod, Nat.mul_mod, Nat.mod_mod, ← Nat.mul_mod, Nat.mod_add_mod]

theorem wordsValue_range (count : Nat) :
    wordsValue ((List.range count).map fun word => magnitude / 2 ^ (64 * word) % 2 ^ 64) =
      magnitude % 2 ^ (64 * count) := by
  induction count generalizing magnitude with
  | zero => rw [Nat.mul_zero, Nat.pow_zero, Nat.mod_one]; rfl
  | succ count ih =>
    have hnext : ((fun word => magnitude / 2 ^ (64 * word) % 2 ^ 64) ∘ Nat.succ) =
        fun word => magnitude / 2 ^ 64 / 2 ^ (64 * word) % 2 ^ 64 := by
      funext word
      rw [Function.comp_apply, Nat.succ_eq_add_one, Nat.mul_succ, Nat.add_comm, Nat.pow_add,
        Nat.div_div_eq_div_mul]
    rw [List.range_succ_eq_map, List.map_cons, List.map_map, hnext, wordsValue, ih,
      Nat.mul_zero, Nat.pow_zero, Nat.div_one, Nat.mod_mod, Nat.mul_succ, Nat.add_comm (64 * count),
      Nat.pow_add, Nat.mod_mul]
    omega

theorem magnitudeWords_value : wordsValue (magnitudeWords magnitude) = magnitude := by
  rw [magnitudeWords, wordsValue_range]
  apply Nat.mod_eq_of_lt
  exact (Nat.lt_size_self magnitude).trans_le (Nat.pow_le_pow_right (by decide) (by omega))

end Words

/-- The remainder of a magnitude, taken from the modulus when the number is negative. -/
theorem remainder_of_magnitude (offset : Int) (extent : Nat) :
    offset % extent =
      if offset < 0 then
        if offset.natAbs % extent = 0 then 0 else (extent : Int) - (offset.natAbs % extent : Nat)
      else (offset.natAbs % extent : Nat) := by
  by_cases hneg : offset < 0
  · obtain ⟨n, hn⟩ : ∃ n : Nat, offset = -(n : Int) := ⟨offset.natAbs, by omega⟩
    subst hn
    rw [if_pos hneg, Int.natAbs_neg, Int.natAbs_natCast, Int.neg_emod, Int.natAbs_natCast,
      Int.natCast_mod]
    apply if_congr _ rfl rfl
    rw [Int.natCast_dvd_natCast, Nat.dvd_iff_mod_eq_zero]
  · obtain ⟨n, rfl⟩ := Int.eq_ofNat_of_zero_le (Int.not_lt.mp hneg)
    rw [if_neg hneg, Int.natAbs_natCast, Int.natCast_mod]

theorem pycModWords_eq (offset : Int) {extent : Nat} (hpos : 0 < extent) (hlt : extent < 2 ^ 63) :
    (pycModWords (magnitudeWords offset.natAbs) (decide (offset < 0)) extent : Int) =
      offset % extent := by
  have hmod : offset.natAbs % extent < extent := Nat.mod_lt _ hpos
  rw [pycModWords, wordsRemainder_eq hpos hlt, magnitudeWords_value,
    remainder_of_magnitude offset]
  by_cases hneg : offset < 0
  · by_cases hzero : offset.natAbs % extent = 0
    · simp [hneg, hzero]
    · simp only [hneg, hzero, decide_true, ne_eq, not_false_eq_true, and_self, if_true, if_false]
      omega
  · simp [hneg]

/-! ## Evaluation of the parts -/

section Evaluation

variable {k : Nat}

theorem strideExprs_eval (shape : List Nat) :
    (strideExprs shape).map (IndexExpr.eval k) = (strides shape).map Nat.cast := by
  induction shape with
  | nil => rfl
  | cons first shape ih =>
    cases shape with
    | nil => rfl
    | cons extent rest =>
      rw [strideExprs]
      cases hstrides : strideExprs (extent :: rest) with
      | nil =>
        rw [hstrides] at ih
        cases ih
      | cons stride strides =>
        rw [hstrides] at ih
        have hfirst : stride.eval k = (size rest : Int) := (List.cons.inj ih).1
        have hvalue : (IndexExpr.mul stride (.static extent)).eval k =
            ((extent * size rest : Nat) : Int) := by
          rw [IndexExpr.eval, hfirst, IndexExpr.eval_static, Nat.cast_mul, Int.mul_comm]
        rw [List.map_cons, hvalue, ih]
        rfl

theorem outCoordinate_eval {expr : IndexExpr} {stride : Nat} (h : expr.eval k = stride)
    (extent : Nat) : (outCoordinate expr extent).eval k = (k / stride % extent : Nat) := by
  rw [outCoordinate, IndexExpr.eval, IndexExpr.eval_static, IndexExpr.eval, IndexExpr.eval, h,
    ← Int.ofNat_tdiv, ← Int.ofNat_tmod]

theorem outCoordinates_eval {exprs : List IndexExpr} {strides : List Nat} (shape : List Nat)
    (h : exprs.map (IndexExpr.eval k) = strides.map Nat.cast) :
    (exprs.zipWith outCoordinate shape).map (IndexExpr.eval k) =
      (strides.zipWith (fun stride extent => k / stride % extent) shape).map Nat.cast := by
  induction exprs generalizing strides shape with
  | nil =>
    cases strides with
    | nil => rfl
    | cons => cases h
  | cons expr exprs ih =>
    cases strides with
    | nil => cases h
    | cons stride strides =>
      cases shape with
      | nil => rfl
      | cons extent shape =>
        obtain ⟨hfirst, hrest⟩ := List.cons.inj h
        rw [List.zipWith_cons_cons, List.map_cons, outCoordinate_eval hfirst, ih shape hrest]
        rfl

theorem coordinateExprs_eval {out : List Nat} (h : k < size out) :
    (coordinateExprs out).map (IndexExpr.eval k) =
      (coordinates out k).map Nat.cast := by
  rw [coordinateExprs, outCoordinates_eval out (strideExprs_eval out), div_mod_strides,
    Nat.mod_eq_of_lt h]

theorem coordinateExprs_getD {out : List Nat} (h : k < size out) (axis : Nat) :
    ((coordinateExprs out).getD axis (.static 0)).eval k =
      ((coordinates out k).getD axis 0 : Nat) := by
  rw [← List.getD_map (coordinateExprs out) (.static 0) (IndexExpr.eval k), coordinateExprs_eval h]
  exact List.getD_map (coordinates out k) 0 Nat.cast

/-- The sum of the products over the axes. -/
theorem sumExpr_eval (terms strides : List IndexExpr) (cs ws : List Nat) (acc : IndexExpr)
    (hterms : terms.map (IndexExpr.eval k) = cs.map Nat.cast)
    (hstrides : strides.map (IndexExpr.eval k) = ws.map Nat.cast) :
    ((terms.zip strides).foldl (fun result p => IndexExpr.add result (.mul p.1 p.2)) acc).eval k =
      acc.eval k + ((cs.zipWith (· * ·) ws).sum : Nat) := by
  induction terms generalizing strides cs ws acc with
  | nil =>
    cases cs with
    | nil => simp
    | cons => cases hterms
  | cons term terms ih =>
    cases cs with
    | nil => cases hterms
    | cons c cs =>
      cases strides with
      | nil =>
        cases ws with
        | nil => simp
        | cons => cases hstrides
      | cons stride strides =>
        cases ws with
        | nil => cases hstrides
        | cons w ws =>
          obtain ⟨hterm, hterms⟩ := List.cons.inj hterms
          obtain ⟨hstride, hstrides⟩ := List.cons.inj hstrides
          rw [List.zip_cons_cons, List.foldl_cons, ih strides cs ws _ hterms hstrides,
            IndexExpr.eval, IndexExpr.eval, hterm, hstride, List.zipWith_cons_cons,
            List.sum_cons, Nat.cast_add, Nat.cast_mul, Int.add_assoc]

end Evaluation

/-! ## The source coordinate of one axis -/

theorem ifEqual_of_eq {k : Nat} {a b : Int} (h : a = b) (yes no : IndexExpr) :
    (IndexExpr.ifEqual (.static a) (.static b) yes no).eval k = yes.eval k := if_pos h

theorem ifEqual_of_ne {k : Nat} {a b : Int} (h : a ≠ b) (yes no : IndexExpr) :
    (IndexExpr.ifEqual (.static a) (.static b) yes no).eval k = no.eval k := if_neg h

theorem Slices.getD_source {extents out coords : List Nat} {offsets sizes strides : List Int}
    (h : Slices extents offsets sizes strides out) (hwithin : Within coords out)
    {axis : Nat} (haxis : axis < extents.length) :
    (((View.slice offsets sizes strides).sourceCoordinates extents coords).getD axis 0 : Int) =
      offsets.getD axis 0 + coords.getD axis 0 * strides.getD axis 0 := by
  induction h generalizing coords axis with
  | nil => cases haxis
  | @cons extent offset size stride extents offsets sizes strides out hsize hstride hlast rest ih =>
    cases hwithin with
    | @cons c _ coords _ hc hcoords =>
      rw [sourceCoordinates_slice_cons]
      cases axis with
      | zero =>
        rw [List.getD_cons_zero, Nat.cast_add, Nat.cast_mul]
        rfl
      | succ axis => exact ih hcoords (Nat.lt_of_succ_lt_succ haxis)

section Transpose

variable {k axis : Nat} {perm coords : List Nat} {exprs : List IndexExpr}

/-- The sum over the axes of a transpose, from some partial sum on. -/
def transposeSum (axes : List Int) (exprs : List IndexExpr) (axis : Nat) (acc : IndexExpr) :
    IndexExpr :=
  (axes.zip exprs).foldl
    (fun sum p => .add sum (.ifEqual (.static p.1) (.static axis) p.2 (.static 0))) acc

theorem transposeSum_cons (value : Int) (axes : List Int) (expr : IndexExpr) (acc : IndexExpr) :
    transposeSum (value :: axes) (expr :: exprs) axis acc = transposeSum axes exprs axis
      (.add acc (.ifEqual (.static value) (.static axis) expr (.static 0))) := rfl

theorem transposeSum_frame (hnot : axis ∉ perm) (acc : IndexExpr) :
    (transposeSum (perm.map Int.ofNat) exprs axis acc).eval k = acc.eval k := by
  induction perm generalizing exprs acc with
  | nil => rfl
  | cons first perm ih =>
    cases exprs with
    | nil => rfl
    | cons expr exprs =>
      obtain ⟨hne, hrest⟩ := List.ne_and_not_mem_of_not_mem_cons hnot
      have hdiffer : ¬ Int.ofNat first = (axis : Int) :=
        fun heq => hne (Int.ofNat.inj heq).symm
      rw [List.map_cons, transposeSum_cons, ih hrest, IndexExpr.eval, ifEqual_of_ne hdiffer]
      exact Int.add_zero _

/-- One axis alone contributes its coordinate. -/
theorem transposeSum_eval (hnodup : perm.Nodup)
    (hexprs : exprs.map (IndexExpr.eval k) = coords.map Nat.cast)
    (hlength : coords.length = perm.length) {i : Nat} (hi : perm[i]? = some axis)
    (acc : IndexExpr) :
    (transposeSum (perm.map Int.ofNat) exprs axis acc).eval k =
      acc.eval k + (coords.getD i 0 : Nat) := by
  induction perm generalizing exprs coords i acc with
  | nil => cases hi
  | cons first perm ih =>
    obtain ⟨hfirst, hrest⟩ := List.nodup_cons.mp hnodup
    cases coords with
    | nil => cases hlength
    | cons c coords =>
      cases exprs with
      | nil => cases hexprs
      | cons expr exprs =>
        obtain ⟨hexpr, hexprs⟩ := List.cons.inj hexprs
        rw [List.map_cons, transposeSum_cons]
        cases i with
        | zero =>
          cases hi
          rw [transposeSum_frame hfirst, IndexExpr.eval,
            ifEqual_of_eq (Int.ofNat_eq_natCast axis), hexpr, List.getD_cons_zero]
        | succ i =>
          have hdiffer : ¬ Int.ofNat first = (axis : Int) := by
            intro heq
            exact hfirst (Int.ofNat.inj heq ▸ List.mem_of_getElem? hi)
          rw [ih hrest hexprs (Nat.succ.inj hlength) hi, IndexExpr.eval,
            ifEqual_of_ne hdiffer, IndexExpr.eval, Int.add_zero, List.getD_cons_succ]

end Transpose

section Rotation

variable {extents : List Nat} {axis offset : Int} {selected extent : Nat}

/-- The shift of a closed rotation is the coordinate of the element that the first one is. -/
theorem closedShift_eq (h : Accepted (.rotate axis offset) extents extents)
    (hrotates : Rotates extents axis selected extent) :
    (View.rotate axis offset).sourceOrdinal extents extents 0 /
        product (extents.drop (selected + 1)) % extent = (offset % extent).toNat := by
  have hzero : 0 < size extents := size_pos h.input.positive
  obtain ⟨hlt, _⟩ := List.getElem?_eq_some_iff.mp hrotates.get
  have hwithin := coordinates_within hzero
  have hkind : ∀ shape, View.rotate axis offset ≠ .reshape shape := fun _ => nofun
  have hbelow := (h.source_exact hkind hwithin).2
  have hfirst : (coordinates extents 0).getD selected 0 = 0 := by
    rw [coordinates_getD hzero hrotates.get, Nat.zero_div, Nat.zero_mod]
  rw [h.input.product_drop, ← coordinates_getD _ hrotates.get]
  · rw [Accepted.sourceOrdinal_eq hkind, coordinates_ordinal hbelow,
      hrotates.sourceCoordinates_eq, hfirst, List.getD_eq_getElem?_getD,
      List.getElem?_set_self (by rwa [hwithin.length_eq]), Nat.cast_zero, Int.zero_add]
    rfl
  · exact (h.sourceOrdinal_exact hzero).2

/-- Whatever is closed, and on both targets, the shift is the floor remainder of the offset. -/
theorem shiftExpr_eval (h : Accepted (.rotate axis offset) extents extents)
    (hrotates : Rotates extents axis selected extent) (j k : Nat) :
    ∃ e, shiftExpr rtl closed axis offset extents j = .ok e ∧
      (j = selected → e.eval k = offset % extent) := by
  have hmem := List.mem_of_getElem? hrotates.get
  have hpos := h.input.positive extent hmem
  have hsmall := h.input.extent_lt hmem
  have hzero : 0 < size extents := size_pos h.input.positive
  rw [shiftExpr]
  by_cases hclosed : closed.shape.all id = true ∧ closed.offset = true ∧ closed.axis = true
  · refine ⟨_, by rw [if_pos hclosed, (h.sourceOrdinal_exact hzero).1, ok_bind], ?_⟩
    rintro rfl
    rw [IndexExpr.eval, hrotates.getD_eq, closedShift_eq h hrotates]
    exact Int.toNat_of_nonneg (Int.emod_nonneg _ (by omega))
  rw [if_neg hclosed]
  by_cases hoffset : closed.offset = true
  swap
  · refine ⟨_, if_neg hoffset, ?_⟩
    rintro rfl
    rw [IndexExpr.eval, hrotates.getD_eq]
    exact pycMod_eq offset hpos
  rw [if_pos hoffset]
  cases rtl with
  | false =>
    refine ⟨_, if_neg Bool.false_ne_true, ?_⟩
    rintro rfl
    rw [IndexExpr.eval, hrotates.getD_eq]
    exact pycModWords_eq offset hpos hsmall
  | true =>
    rw [if_pos rfl]
    have hremainder : (IndexExpr.mod (.static offset.natAbs) (.static extent)).eval k =
        (offset.natAbs % extent : Nat) := (Int.ofNat_tmod _ _).symm
    by_cases hneg : offset < 0
    · refine ⟨_, if_pos hneg, ?_⟩
      rintro rfl
      rw [hrotates.getD_eq, remainder_of_magnitude offset extent, if_pos hneg]
      rw [IndexExpr.eval, IndexExpr.eval, IndexExpr.eval, IndexExpr.eval, hremainder]
      exact if_congr Int.natCast_eq_zero rfl rfl
    · refine ⟨_, if_neg hneg, ?_⟩
      rintro rfl
      rw [hrotates.getD_eq, remainder_of_magnitude offset extent, if_neg hneg, hremainder]

/-- The moved coordinate on the selected axis, the same coordinate on the others. -/
theorem rotatedExpr_eval (hrotates : Rotates extents axis selected extent) {coords : List Nat}
    (hwithin : Within coords extents) {j k : Nat} {coordinate shift : IndexExpr}
    (hcoordinate : coordinate.eval k = (coords.getD j 0 : Nat))
    (hshift : j = selected → shift.eval k = offset % extent) :
    (IndexExpr.ifEqual (.static axis) (.static j)
        (.mod (.add coordinate shift) (.static (extents.getD j 0))) coordinate).eval k =
      (((View.rotate axis offset).sourceCoordinates extents coords).getD j 0 : Nat) := by
  rw [hrotates.sourceCoordinates_eq]
  by_cases hj : j = selected
  · have hpos : (0 : Int) < extent := by
      have := hwithin.getD_lt hrotates.get
      omega
    have hmod := Int.emod_nonneg offset hpos.ne'
    obtain ⟨hlt, _⟩ := List.getElem?_eq_some_iff.mp hrotates.get
    have hset : (coords.set selected
        (((coords.getD selected 0 : Int) + offset) % extent).toNat).getD selected 0 =
          (((coords.getD selected 0 : Int) + offset) % extent).toNat := by
      rw [List.getD_eq_getElem?_getD, List.getElem?_set_self (by rwa [hwithin.length_eq])]
      rfl
    rw [hj] at hcoordinate ⊢
    rw [ifEqual_of_eq hrotates.axis_eq, hset, hrotates.getD_eq,
      Int.toNat_of_nonneg (Int.emod_nonneg _ hpos.ne'), IndexExpr.eval, IndexExpr.eval,
      IndexExpr.eval, hcoordinate, hshift hj, Int.tmod_eq_emod_of_nonneg (by omega),
      Int.add_emod_emod]
  · have hne : axis ≠ (j : Int) := by
      rw [hrotates.axis_eq]
      omega
    rw [ifEqual_of_ne hne, hcoordinate, List.getD_eq_getElem?_getD, List.getD_eq_getElem?_getD,
      List.getElem?_set_ne (Ne.symm hj)]

end Rotation

/-! ## The whole expression -/

section Whole

variable {view : View} {extents out : List Nat} {k : Nat}

theorem coordinateExpr_eval (h : Accepted view extents out) (hkind : ∀ shape, view ≠ .reshape shape)
    (hk : k < size out) {axis : Nat} (haxis : axis < extents.length) :
    ∃ e, coordinateExpr rtl closed view extents out axis = .ok e ∧ e.eval k =
      ((view.sourceCoordinates extents (coordinates out k)).getD axis 0 : Nat) := by
  have hwithin := coordinates_within hk
  have hcoordinate := coordinateExprs_getD hk axis
  cases view with
  | reshape shape => exact absurd rfl (hkind shape)
  | slice offsets sizes strides =>
    have hslices := sliceShape_sound (fun e he => h.input.extent_lt he) h.shape
    have hsource := hslices.getD_source hwithin haxis
    by_cases hsingle : closed.sizes.getD axis false = true ∧ out.getD axis 0 = 1
    · refine ⟨_, if_pos hsingle, ?_⟩
      have hlength : axis < out.length := by rwa [hslices.valid.2.2]
      have hextent : out[axis]? = some 1 := by
        rw [← hsingle.2, List.getD_eq_getElem?_getD, List.getElem?_eq_getElem hlength]
        rfl
      have hzero := Nat.lt_one_iff.mp (hwithin.getD_lt hextent)
      rw [hsource, hzero, Nat.cast_zero, Int.zero_mul, Int.add_zero, IndexExpr.eval]
    · refine ⟨_, if_neg hsingle, ?_⟩
      rw [hsource, IndexExpr.eval, IndexExpr.eval, IndexExpr.eval, IndexExpr.eval, hcoordinate]
  | transpose axes =>
    obtain ⟨perm, ht⟩ := viewShape_transpose_sound (rankSchema_length h.schema) h.shape
    obtain ⟨i, hi⟩ := ht.exists_position haxis
    have hlength := hwithin.length_eq.trans ht.length_out
    refine ⟨_, rfl, ?_⟩
    have hsum := transposeSum_eval ht.nodup (coordinateExprs_eval hk) hlength hi (.static 0)
    rw [← ht.axes_eq] at hsum
    refine hsum.trans ?_
    rw [IndexExpr.eval, Int.zero_add, List.getD_eq_getElem?_getD, List.getD_eq_getElem?_getD,
      ht.sourceCoordinates_get hi hlength]
  | rotate axisStatic offset =>
    obtain ⟨rfl, selected, extent, hrotates⟩ := viewShape_rotate_sound h.shape
    obtain ⟨shift, hshift, hvalue⟩ := shiftExpr_eval rtl closed h hrotates axis k
    refine ⟨_, by rw [coordinateExpr, hshift, ok_bind], ?_⟩
    exact rotatedExpr_eval hrotates hwithin hcoordinate hvalue

/-- The loop over the axes gives an expression for each. -/
theorem mapM_eval {f : Nat → Except String IndexExpr} {g : Nat → Nat} {axes : List Nat}
    (h : ∀ axis ∈ axes, ∃ e, f axis = .ok e ∧ e.eval k = (g axis : Nat)) :
    ∃ terms, axes.mapM f = .ok terms ∧
      terms.map (IndexExpr.eval k) = (axes.map g).map Nat.cast := by
  induction axes with
  | nil => exact ⟨[], rfl, rfl⟩
  | cons axis axes ih =>
    obtain ⟨⟨e, he, hvalue⟩, hrest⟩ := List.forall_mem_cons.mp h
    obtain ⟨terms, hterms, hvalues⟩ := ih hrest
    refine ⟨e :: terms, ?_, ?_⟩
    · rw [List.mapM_cons, he, ok_bind, hterms, ok_bind]
      rfl
    · rw [List.map_cons, List.map_cons, List.map_cons, hvalue, hvalues]

/-- The emitted expression is the source ordinal. -/
theorem viewIndex_eval (h : Accepted view extents out) (hk : k < size out) :
    ∃ e, viewIndex rtl closed view extents out = .ok e ∧
      e.eval k = (view.sourceOrdinal extents out k : Nat) := by
  by_cases hreshape : ∃ shape, view = .reshape shape
  · obtain ⟨shape, rfl⟩ := hreshape
    exact ⟨.ordinal, rfl, rfl⟩
  have hkind : ∀ shape, view ≠ .reshape shape := fun shape heq => hreshape ⟨shape, heq⟩
  have hbelow := (h.source_exact hkind (coordinates_within hk)).2
  have hlength := hbelow.length_eq
  obtain ⟨terms, hterms, hvalues⟩ := mapM_eval (fun axis haxis =>
    coordinateExpr_eval rtl closed h hkind hk (List.mem_range.mp haxis))
  have hsum := sumExpr_eval terms (strideExprs extents) _ _ (.static 0) hvalues
    (strideExprs_eval extents)
  rw [← hlength, map_getD_range, sum_strides hlength, IndexExpr.eval, Int.zero_add,
    ← Accepted.sourceOrdinal_eq hkind] at hsum
  refine ⟨_, ?_, hsum⟩
  rw [viewIndex, hterms, ok_bind]
  exact hkind

end Whole

/-- Views address the right elements: on every accepted view and every ordinal of its result, the
computed source ordinal is that of the coordinate mapping and in range, and every expression that is
emitted for it has this value. Distinct elements have distinct sources, every element of the source
is reached unless the view is a slice, and the same holds of chains of views. -/
theorem views_address :
    (∀ (view : View) (extents out : List Nat), Accepted view extents out →
      Valid out ∧
      (∀ ordinal < size out,
        getViewSourceOrdinal view extents out ordinal =
            .ok (view.sourceOrdinal extents out ordinal) ∧
          view.sourceOrdinal extents out ordinal < size extents ∧
          ∀ (rtl : Bool) (closed : Closed), ∃ e, viewIndex rtl closed view extents out = .ok e ∧
            e.eval ordinal = (view.sourceOrdinal extents out ordinal : Nat)) ∧
      (∀ i < size out, ∀ j < size out,
        getViewSourceOrdinal view extents out i = getViewSourceOrdinal view extents out j →
          i = j) ∧
      ((∀ offsets sizes strides, view ≠ .slice offsets sizes strides) →
        ∀ s < size extents, ∃ i < size out,
          getViewSourceOrdinal view extents out i = .ok s)) ∧
    ∀ (views : List View) (extents out : List Nat), Chain extents views out →
      Addresses (size out) (size extents) (chainSourceOrdinal views extents) ∧
      ((∀ view ∈ views, ∀ offsets sizes strides, view ≠ .slice offsets sizes strides) →
        ∀ s < size extents, ∃ i < size out,
          chainSourceOrdinal views extents i = .ok s) := by
  refine ⟨fun view extents out h => ⟨h.valid_out.1, fun ordinal hlt => ?_, ?_, ?_⟩,
    fun views extents out h => ⟨h.addresses, ?_⟩⟩
  · obtain ⟨hordinal, hrange⟩ := h.sourceOrdinal_exact hlt
    exact ⟨hordinal, hrange, fun rtl closed => viewIndex_eval rtl closed h hlt⟩
  · exact h.addresses.injective
  · intro hkind s hs
    have haddresses := h.addresses
    rw [h.valid_out.2 hkind] at haddresses ⊢
    exact haddresses.surjective hs
  · intro hkind s hs
    have haddresses := h.addresses
    rw [h.size_eq hkind] at haddresses ⊢
    exact haddresses.surjective hs

theorem rotateBack_accepted : Accepted (.rotate 1 (-5)) [2, 3] [2, 3] where
  input := ⟨by decide, by decide, by decide⟩
  schema := rfl
  shape := by decide +kernel

/-- Element `(1, 1)` of a table of two rows of three, turned by minus five, is element `(1, 2)`. -/
theorem views_address_rotateBack :
    getViewSourceOrdinal (.rotate 1 (-5)) [2, 3] [2, 3] 4 = .ok 5 :=
  ((views_address.1 _ _ _ rotateBack_accepted).2.1 4 (by decide)).1

end PyCircuit.Table
