import Mathlib.Data.List.Perm.Subperm
import PyCircuit.Table.View

/-!
# The coordinates of accepted views

What the check of each kind of view establishes, and that the widths of the computations hold every
value that occurs in them: the computed coordinates are those of the mapping, they are below the
extents, and distinct coordinates of the view are distinct ones of the source.
-/

set_option autoImplicit false

namespace PyCircuit.Table

open Lib Fallible RowMajor

/-! ## Row-major order in 64-bit words -/

variable {n c bits extent : Nat} {shape coords extents out : List Nat}
  {offsets sizes strides : List Int}

theorem foldl_product (shape : List Nat) (hpos : ∀ e ∈ shape, 0 < e)
    (h : n * size shape < 2 ^ 63) :
    shape.foldl (fun n x => n * x % 2 ^ 64) n = n * size shape := by
  induction shape generalizing n with
  | nil => exact (Nat.mul_one n).symm
  | cons e shape ih =>
    obtain ⟨_, hrest⟩ := List.forall_mem_cons.mp hpos
    rw [size, ← Nat.mul_assoc] at h ⊢
    have hle := Nat.le_mul_of_pos_right (n * e) (size_pos hrest)
    rw [List.foldl_cons, Nat.mod_eq_of_lt (by omega), ih hrest h]

theorem size_drop_le (hpos : ∀ e ∈ shape, 0 < e) (count : Nat) :
    size (shape.drop count) ≤ size shape := by
  induction shape generalizing count with
  | nil => rw [List.drop_nil]
  | cons e shape ih =>
    obtain ⟨he, hrest⟩ := List.forall_mem_cons.mp hpos
    cases count with
    | zero => exact le_refl _
    | succ count => exact (ih hrest count).trans (Nat.le_mul_of_pos_left _ he)

theorem Valid.product_eq (h : Valid shape) :
    product shape = size shape := by
  rw [product, foldl_product shape h.positive (by rw [Nat.one_mul]; exact h.size_lt), Nat.one_mul]

theorem Valid.product_drop (h : Valid shape) (count : Nat) :
    product (shape.drop count) = size (shape.drop count) := by
  have hpos : ∀ e ∈ shape.drop count, 0 < e := fun e he => h.positive e (List.mem_of_mem_drop he)
  have hle : size (shape.drop count) ≤ size shape :=
    size_drop_le h.positive count
  rw [product, foldl_product _ hpos, Nat.one_mul]
  rw [Nat.one_mul]
  exact lt_of_le_of_lt hle h.size_lt

theorem delinearize_eq (shape : List Nat) (k : Nat) :
    delinearize shape k =
      (coordinates shape (k % size shape), k / size shape) := by
  induction shape with
  | nil => rw [delinearize, coordinates, size, Nat.div_one]
  | cons e shape ih =>
    rw [delinearize, ih, coordinates, size, Nat.mod_mul_left_div_self,
      Nat.mod_mul_left_mod, Nat.mul_comm e, ← Nat.div_div_eq_div_mul]

theorem linearize_eq (hwithin : Within coords shape)
    (h : (n + 1) * size shape ≤ 2 ^ 63) :
    linearize shape coords n = n * size shape + ordinal shape coords := by
  induction hwithin generalizing n with
  | nil => rw [linearize, size, ordinal] <;> simp
  | @cons c e coords shape hc hrest ih =>
    have hpos : 0 < size shape := Nat.zero_lt_of_lt (ordinal_lt hrest)
    have hnext : (n * e + c + 1) * size shape ≤ 2 ^ 63 := by
      refine le_trans ?_ h
      rw [size, ← Nat.mul_assoc]
      apply Nat.mul_le_mul_right
      rw [Nat.succ_mul]
      omega
    have hword := Nat.le_mul_of_pos_right (n * e + c + 1) hpos
    rw [linearize, Nat.mod_eq_of_lt (by omega), ih hnext, size, ordinal]
    rw [Nat.add_mul, Nat.mul_assoc, Nat.add_assoc]

theorem Valid.linearize_eq (h : Valid shape)
    (hwithin : Within coords shape) :
    linearize shape coords 0 = ordinal shape coords := by
  rw [Table.linearize_eq hwithin (by rw [Nat.zero_add, Nat.one_mul]; exact h.size_lt.le),
    Nat.zero_mul, Nat.zero_add]

theorem Valid.extent_lt (h : Valid shape) {e : Nat} (he : e ∈ shape) :
    e < 2 ^ 63 := by
  refine lt_of_le_of_lt ?_ h.size_lt
  have hpos := h.positive
  clear h
  induction shape with
  | nil => cases he
  | cons first shape ih =>
    obtain ⟨hfirst, hrest⟩ := List.forall_mem_cons.mp hpos
    rw [size]
    cases he with
    | head => exact Nat.le_mul_of_pos_right _ (size_pos hrest)
    | tail _ he => exact (ih he hrest).trans (Nat.le_mul_of_pos_left _ hfirst)

/-! ## Slices -/

/-- The facts that the check of a slice establishes, axis by axis. -/
inductive Slices : List Nat → List Int → List Int → List Int → List Nat → Prop
  | nil (offsets sizes strides : List Int) : Slices [] offsets sizes strides []
  | cons {extent offset size stride : Nat} {extents : List Nat} {offsets sizes strides : List Int}
      {out : List Nat} (hsize : 0 < size) (hstride : 0 < stride)
      (hlast : offset + (size - 1) * stride < extent)
      (rest : Slices extents offsets sizes strides out) :
      Slices (extent :: extents) ((offset : Int) :: offsets) ((size : Int) :: sizes)
        ((stride : Int) :: strides) (size :: out)

/-- A product of two numbers and a number of the width of one of them fit both widths together. -/
theorem affine_lt {a b m : Nat} (ha : a < 2 ^ m) (hb : b < 2 ^ n) (hc : c < 2 ^ m) :
    a + b * c < 2 ^ (m + n) := by
  have hproduct : b * c ≤ (2 ^ n - 1) * (2 ^ m - 1) := Nat.mul_le_mul (by omega) (by omega)
  have hsum : (2 ^ m - 1) + (2 ^ n - 1) * (2 ^ m - 1) = 2 ^ n * (2 ^ m - 1) := by
    rw [Nat.add_comm, ← Nat.succ_mul, Nat.succ_eq_add_one, Nat.sub_add_cancel Nat.one_le_two_pow]
  have hstrict : 2 ^ n * (2 ^ m - 1) < 2 ^ n * 2 ^ m :=
    Nat.mul_lt_mul_of_pos_left (by omega) (Nat.two_pow_pos n)
  rw [pow_add, Nat.mul_comm (2 ^ m)]
  omega

theorem toNat_affine {a b : Nat} {x y z : BitVec bits} (hx : x.toNat = a)
    (hy : y.toNat = b) (hz : z.toNat = c) (h : a + b * c < 2 ^ bits) :
    (x + y * z).toNat = a + b * c := by
  rw [BitVec.toNat_add, BitVec.toNat_mul, hx, hy, hz, Nat.add_mod_mod, Nat.mod_eq_of_lt h]

theorem natCast_lt_two_pow (h : bitWidth n ≤ bits) : n < 2 ^ bits := by
  have hlt := lt_two_pow_bitWidth (Int.natCast_nonneg n)
  have hnat : n < 2 ^ bitWidth n := by exact_mod_cast hlt
  exact hnat.trans_le (Nat.pow_le_pow_right (by decide) h)

theorem extendInteger_natCast (h : n < 2 ^ bits) :
    (extendInteger n bits).toNat = n :=
  extendInteger_toNat (Int.natCast_nonneg n) (by exact_mod_cast h)

theorem pred_toNat (hpos : 0 < n) (h : n < 2 ^ bits) :
    (extendInteger n bits - .ofNat bits 1).toNat = n - 1 := by
  have hone : (BitVec.ofNat bits 1).toNat = 1 := by
    rw [BitVec.toNat_ofNat, Nat.mod_eq_of_lt (by omega)]
  rw [BitVec.toNat_sub_of_le, extendInteger_natCast h, hone]
  rw [BitVec.le_def, extendInteger_natCast h, hone]
  exact hpos

/-- The width of the check holds the last coordinate. -/
theorem sliceExtent_natCast {o t : Nat} (hextent : extent < 2 ^ 63) (hn : 0 < n)
    (ht : 0 < t) :
    sliceExtent extent o n t =
      if extent ≤ o + (n - 1) * t then .error "slice exceeds table extent"
      else getZExtValue (extendInteger n (bitWidth n)) := by
  have hsigns : ¬ ((o : Int) < 0 ∨ (n : Int) < 0 ∨ (n : Int) = 0 ∨ (t : Int) < 0 ∨
      (t : Int) = 0) := by omega
  rw [sliceExtent, if_neg hsigns]
  generalize hwide : max (max (max (bitWidth o) (bitWidth n)) (bitWidth t)) 65 = wide
  have ho : o < 2 ^ wide := natCast_lt_two_pow (by omega)
  have hsize : n < 2 ^ wide := natCast_lt_two_pow (by omega)
  have hstride : t < 2 ^ wide := natCast_lt_two_pow (by omega)
  have hmono : 2 ^ wide ≤ 2 ^ (wide * 2 + 1) := Nat.pow_le_pow_right (by decide) (by omega)
  have hsmall : 2 ^ 63 ≤ 2 ^ (wide * 2 + 1) := Nat.pow_le_pow_right (by decide) (by omega)
  have hlast := toNat_affine (extendInteger_natCast (ho.trans_le hmono))
    (pred_toNat hn (hsize.trans_le hmono)) (extendInteger_natCast (hstride.trans_le hmono))
    ((affine_lt ho (show n - 1 < 2 ^ wide by omega) hstride).trans_le
      (Nat.pow_le_pow_right (by decide) (by omega)))
  apply if_congr _ rfl rfl
  rw [BitVec.le_def, hlast, BitVec.toNat_ofNat, Nat.mod_eq_of_lt (by omega)]

theorem sliceExtent_sound {out : Nat} {offset size stride : Int} (hextent : extent < 2 ^ 63)
    (h : sliceExtent extent offset size stride = .ok out) :
    ∃ o t : Nat, offset = o ∧ size = out ∧ stride = t ∧ 0 < out ∧ 0 < t ∧
      o + (out - 1) * t < extent := by
  by_cases hsigns : offset < 0 ∨ size < 0 ∨ size = 0 ∨ stride < 0 ∨ stride = 0
  · rw [sliceExtent, if_pos hsigns] at h
    cases h
  obtain ⟨o, rfl⟩ := Int.eq_ofNat_of_zero_le (show 0 ≤ offset by omega)
  obtain ⟨n, rfl⟩ := Int.eq_ofNat_of_zero_le (show 0 ≤ size by omega)
  obtain ⟨t, rfl⟩ := Int.eq_ofNat_of_zero_le (show 0 ≤ stride by omega)
  have hn : 0 < n := by omega
  have ht : 0 < t := by omega
  rw [sliceExtent_natCast hextent hn ht] at h
  obtain ⟨hexceeds, h⟩ := guard_eq_ok.mp h
  have hvalue := extendInteger_natCast (natCast_lt_two_pow (le_refl (bitWidth n)))
  have hout : n = out := by
    rw [getZExtValue] at h
    split_ifs at h
    cases h
    exact hvalue.symm
  subst hout
  exact ⟨o, t, rfl, rfl, rfl, hn, ht, Nat.lt_of_not_le hexceeds⟩

theorem sliceExtent_complete {o t : Nat} (hextent : extent < 2 ^ 63) (hn : 0 < n)
    (ht : 0 < t) (hlast : o + (n - 1) * t < extent) : sliceExtent extent o n t = .ok n := by
  have hle : n - 1 ≤ (n - 1) * t := Nat.le_mul_of_pos_right _ ht
  have hvalue := extendInteger_natCast (natCast_lt_two_pow (le_refl (bitWidth n)))
  rw [sliceExtent_natCast hextent hn ht, if_neg (Nat.not_le.mpr hlast),
    getZExtValue_of_lt (by omega), hvalue]

theorem sliceShape_sound (hextents : ∀ e ∈ extents, e < 2 ^ 63)
    (h : sliceShape extents offsets sizes strides = .ok out) :
    Slices extents offsets sizes strides out := by
  fun_induction sliceShape extents offsets sizes strides generalizing out with
  | case1 offsets sizes strides =>
    cases h
    exact .nil offsets sizes strides
  | case2 extent extents offset offsets size sizes stride strides ih =>
    obtain ⟨hextent, hrest⟩ := List.forall_mem_cons.mp hextents
    obtain ⟨first, hfirst, h⟩ := bind_eq_ok.mp h
    obtain ⟨rest, htail, h⟩ := bind_eq_ok.mp h
    cases h
    obtain ⟨o, t, rfl, rfl, rfl, hsize, hstride, hlast⟩ := sliceExtent_sound hextent hfirst
    exact .cons hsize hstride hlast (ih hrest htail)
  | case3 => cases h

/-- A coordinate of a slice is below the extent, and its width holds it. -/
theorem sliceCoordinate_exact {offset size stride : Nat} (hc : c < size)
    (hstride : 0 < stride) (hlast : offset + (size - 1) * stride < extent)
    (hextent : extent < 2 ^ 63) :
    offset + c * stride < extent ∧
      sliceCoordinate offset stride c = .ok (offset + c * stride) := by
  have hle : c * stride ≤ (size - 1) * stride := Nat.mul_le_mul_right _ (by omega)
  have hcoordinate : c ≤ c * stride := Nat.le_mul_of_pos_right _ hstride
  refine ⟨by omega, ?_⟩
  rw [sliceCoordinate]
  generalize hwide : max (bitWidth offset) (bitWidth stride) = wide
  have hpos : 0 < wide := by
    rw [← hwide, bitWidth, if_neg (by omega)]
    omega
  have ho : offset < 2 ^ wide := natCast_lt_two_pow (by omega)
  have ht : stride < 2 ^ wide := natCast_lt_two_pow (by omega)
  have hmono : 2 ^ wide ≤ 2 ^ (wide + 64) := Nat.pow_le_pow_right (by decide) (by omega)
  have hword : 2 ^ 64 ≤ 2 ^ (wide + 64) := Nat.pow_le_pow_right (by decide) (by omega)
  have hfits := affine_lt ho (show c < 2 ^ 64 by omega) ht
  have hc : (BitVec.ofNat (wide + 64) c).toNat = c := by
    rw [BitVec.toNat_ofNat, Nat.mod_eq_of_lt (by omega)]
  have hvalue := toNat_affine (extendInteger_natCast (ho.trans_le hmono)) hc
    (extendInteger_natCast (ht.trans_le hmono)) hfits
  rw [Nat.max_eq_right (show 65 ≤ wide + 64 by omega)]
  rw [getZExtValue_of_lt (by omega), hvalue]

theorem sourceCoordinates_slice_cons (extent offset stride c : Nat) (size : Int)
    (extents coords : List Nat) (offsets sizes strides : List Int) :
    (View.slice ((offset : Int) :: offsets) (size :: sizes)
        ((stride : Int) :: strides)).sourceCoordinates (extent :: extents) (c :: coords) =
      (offset + c * stride) ::
        (View.slice offsets sizes strides).sourceCoordinates extents coords := by
  have hvalue : ((offset : Int) + (c : Int) * (stride : Int)).toNat = offset + c * stride := by
    exact_mod_cast Int.toNat_natCast (offset + c * stride)
  rw [← hvalue]
  rfl

section

variable (h : Slices extents offsets sizes strides out)
include h

/-- The source coordinates of a slice, in range. -/
theorem Slices.source (hextents : ∀ e ∈ extents, e < 2 ^ 63) (hwithin : Within coords out) :
    sliceSource coords offsets strides =
        .ok ((View.slice offsets sizes strides).sourceCoordinates extents coords) ∧
      Within ((View.slice offsets sizes strides).sourceCoordinates extents coords)
        extents := by
  induction h generalizing coords with
  | nil offsets sizes strides =>
    cases hwithin
    exact ⟨rfl, .nil⟩
  | @cons extent offset size stride extents offsets sizes strides out hsize hstride hlast rest ih =>
    obtain ⟨hextent, hrest⟩ := List.forall_mem_cons.mp hextents
    cases hwithin with
    | @cons c _ coords _ hc hcoords =>
      obtain ⟨hlt, hfirst⟩ := sliceCoordinate_exact hc hstride hlast hextent
      obtain ⟨htail, hbelow⟩ := ih hrest hcoords
      rw [sourceCoordinates_slice_cons]
      constructor
      · rw [sliceSource, hfirst, ok_bind, htail]
        rfl
      · exact .cons hlt hbelow

theorem Slices.injective {a b : List Nat} (ha : Within a out) (hb : Within b out)
    (heq : (View.slice offsets sizes strides).sourceCoordinates extents a =
      (View.slice offsets sizes strides).sourceCoordinates extents b) :
    a = b := by
  induction h generalizing a b with
  | nil offsets sizes strides =>
    cases ha
    cases hb
    rfl
  | @cons extent offset size stride extents offsets sizes strides out hsize hstride hlast rest ih =>
    cases ha with
    | @cons c _ cs _ hc hcs =>
      cases hb with
      | @cons d _ ds _ hd hds =>
        rw [sourceCoordinates_slice_cons, sourceCoordinates_slice_cons] at heq
        obtain ⟨hfirst, hrest⟩ := List.cons.inj heq
        have hcoordinate : c * stride = d * stride := by omega
        rw [Nat.eq_of_mul_eq_mul_right hstride hcoordinate, ih hcs hds hrest]

theorem Slices.valid : (∀ e ∈ out, 0 < e) ∧ size out ≤ size extents ∧
      out.length = extents.length := by
  induction h with
  | nil => exact ⟨fun e he => absurd he List.not_mem_nil, le_refl _, rfl⟩
  | @cons extent offset size stride extents offsets sizes strides out hsize hstride hlast rest ih =>
    obtain ⟨hpos, hle, hlength⟩ := ih
    have hfirst : size - 1 ≤ (size - 1) * stride := Nat.le_mul_of_pos_right _ hstride
    refine ⟨List.forall_mem_cons.mpr ⟨hsize, hpos⟩, ?_, congrArg (· + 1) hlength⟩
    exact Nat.mul_le_mul (by omega) hle

end

/-! ## Transposes -/

/-- Read as words, axes that are not negative are themselves. -/
theorem vectorStatic_natCast {values : List Int} {perm : List Nat}
    (h : vectorStatic values = .ok (perm.map Int.ofNat)) : values = perm.map Int.ofNat := by
  rw [vectorStatic] at h
  induction values generalizing perm with
  | nil =>
    cases perm with
    | nil => rfl
    | cons => cases h
  | cons value values ih =>
    rw [List.mapM_cons] at h
    obtain ⟨first, hfirst, h⟩ := bind_eq_ok.mp h
    obtain ⟨rest, hrest, h⟩ := bind_eq_ok.mp h
    cases perm with
    | nil => cases h
    | cons k perm =>
      cases h
      rw [List.map_cons, ← ih hrest, signedStatic_nonneg hfirst (Int.natCast_nonneg k)]

theorem transposeShape_sound {seen : List Nat} {axes : List Int}
    (h : transposeShape extents axes seen = .ok out) :
    ∃ perm : List Nat, axes = perm.map Int.ofNat ∧ perm.Nodup ∧
      (∀ k ∈ perm, k < extents.length ∧ k ∉ seen) ∧ out = perm.map fun k => extents.getD k 0 := by
  induction axes generalizing seen out with
  | nil =>
    cases h
    exact ⟨[], rfl, List.nodup_nil, fun k hk => absurd hk List.not_mem_nil, rfl⟩
  | cons axis axes ih =>
    rw [transposeShape] at h
    obtain ⟨hcheck, h⟩ := guard_eq_ok.mp h
    obtain ⟨rest, hrest, h⟩ := bind_eq_ok.mp h
    cases h
    obtain ⟨hsign, hrange, hseen⟩ : ¬ axis < 0 ∧ axis.toNat < extents.length ∧
        axis.toNat ∉ seen := by
      rw [not_or, not_or, Nat.not_le] at hcheck
      exact hcheck
    obtain ⟨perm, haxes, hnodup, hperm, hout⟩ := ih hrest
    refine ⟨axis.toNat :: perm, ?_, ?_, ?_, ?_⟩
    · rw [haxes, List.map_cons, Int.ofNat_eq_natCast, Int.toNat_of_nonneg (Int.not_lt.mp hsign)]
    · refine List.nodup_cons.mpr ⟨fun hmem => ?_, hnodup⟩
      exact (hperm _ hmem).2 List.mem_cons_self
    · refine List.forall_mem_cons.mpr ⟨⟨hrange, hseen⟩, fun k hk => ?_⟩
      exact ⟨(hperm k hk).1, fun hmem => (hperm k hk).2 (List.mem_cons_of_mem _ hmem)⟩
    · rw [hout, List.map_cons]

theorem rankSchema_length {values : List Int} {rank : Nat} (h : rankSchema values rank = .ok ()) :
    values.length = rank := by
  by_contra hne
  rw [rankSchema, if_pos (Or.inl hne)] at h
  cases h

/-- The facts that the check of a transpose establishes. -/
structure Transposes (extents : List Nat) (axes : List Int) (perm out : List Nat) : Prop where
  axes_eq : axes = perm.map Int.ofNat
  range : perm.Perm (List.range extents.length)
  out_eq : out = perm.map fun k => extents.getD k 0
  static : vectorStatic axes = .ok (perm.map Int.ofNat)

theorem viewShape_transpose_sound {axes : List Int}
    (hrank : axes.length = extents.length)
    (h : viewShape (.transpose axes) extents = .ok out) :
    ∃ perm, Transposes extents axes perm out := by
  obtain ⟨values, hvalues, hshape⟩ := bind_eq_ok.mp h
  obtain ⟨perm, rfl, hnodup, hperm, hout⟩ := transposeShape_sound hshape
  have haxes := vectorStatic_natCast hvalues
  refine ⟨perm, haxes, ?_, hout, hvalues⟩
  have hsubset : perm ⊆ List.range extents.length :=
    fun k hk => List.mem_range.mpr (hperm k hk).1
  apply (List.subperm_of_subset hnodup hsubset).perm_of_length_le
  rw [List.length_range, ← hrank, haxes, List.length_map]

section Permutation

variable {perm coords source : List Nat}

theorem length_transposeSource :
    (transposeSource (perm.map Int.ofNat) coords source).length = source.length := by
  induction perm generalizing coords source with
  | nil => rfl
  | cons k perm ih =>
    cases coords with
    | nil => rfl
    | cons c coords => exact ih.trans List.length_set

theorem transposeSource_frame {k : Nat} (hk : k ∉ perm) :
    (transposeSource (perm.map Int.ofNat) coords source)[k]? = source[k]? := by
  induction perm generalizing coords source with
  | nil => rfl
  | cons first perm ih =>
    cases coords with
    | nil => rfl
    | cons c coords =>
      obtain ⟨hne, hrest⟩ := List.ne_and_not_mem_of_not_mem_cons hk
      refine (ih hrest).trans ?_
      exact List.getElem?_set_ne (Ne.symm hne)

/-- Distinct axes: the coordinate of each one stays where it was written. -/
theorem transposeSource_get (hnodup : perm.Nodup) (hlength : coords.length = perm.length)
    {i k : Nat} (hi : perm[i]? = some k) (hk : k < source.length) :
    (transposeSource (perm.map Int.ofNat) coords source)[k]? = coords[i]? := by
  induction perm generalizing coords source i with
  | nil => cases hi
  | cons first perm ih =>
    obtain ⟨hfirst, hrest⟩ := List.nodup_cons.mp hnodup
    cases coords with
    | nil => cases hlength
    | cons c coords =>
      cases i with
      | zero =>
        cases hi
        refine (transposeSource_frame hfirst).trans ?_
        exact List.getElem?_set_self hk
      | succ i =>
        exact ih hrest (Nat.succ.inj hlength) hi (by rwa [List.length_set])

end Permutation

theorem size_perm {a b : List Nat} (h : a.Perm b) : size a = size b := by
  induction h with
  | nil => rfl
  | cons e _ ih => rw [size, size, ih]
  | swap e f rest =>
    rw [size, size, size, size, Nat.mul_left_comm]
  | trans _ _ ih₁ ih₂ => exact ih₁.trans ih₂

theorem map_getD_range (l : List Nat) :
    (List.range l.length).map (fun k => l.getD k 0) = l := by
  apply List.ext_getElem
  · rw [List.length_map, List.length_range]
  · intro k _ hk
    rw [List.getElem_map, List.getElem_range, List.getD_eq_getElem?_getD,
      List.getElem?_eq_getElem hk]
    rfl

namespace Transposes

variable {extents perm out coords : List Nat} {axes : List Int}

theorem nodup (h : Transposes extents axes perm out) : perm.Nodup :=
  h.range.nodup_iff.mpr List.nodup_range

theorem length_perm (h : Transposes extents axes perm out) : perm.length = extents.length :=
  h.range.length_eq.trans List.length_range

theorem length_out (h : Transposes extents axes perm out) : out.length = perm.length := by
  rw [h.out_eq, List.length_map]

variable {k i : Nat}

/-- Every axis of the source is an axis of the view. -/
theorem exists_position (h : Transposes extents axes perm out)
    (hk : k < extents.length) : ∃ i : Nat, perm[i]? = some k :=
  List.mem_iff_getElem?.mp (h.range.mem_iff.mpr (List.mem_range.mpr hk))

section

variable (h : Transposes extents axes perm out) (hi : perm[i]? = some k)
include h hi

theorem axis_lt : k < extents.length :=
  List.mem_range.mp (h.range.mem_iff.mp (List.mem_of_getElem? hi))

theorem idxOf_axes : axes.idxOf (k : Int) = i := by
  have hnodup : axes.Nodup := h.axes_eq ▸ h.nodup.map fun _ _ => Int.ofNat.inj
  have haxis : axes[i]? = some (k : Int) := by
    rw [h.axes_eq, List.getElem?_map, hi]
    rfl
  obtain ⟨hlt, hget⟩ := List.getElem?_eq_some_iff.mp haxis
  rw [← hget]
  exact hnodup.idxOf_getElem i hlt

/-- Axis `i` of the view is axis `axes[i]` of the source. -/
theorem sourceCoordinates_get (hlength : coords.length = perm.length) :
    ((View.transpose axes).sourceCoordinates extents coords)[k]? = coords[i]? := by
  obtain ⟨hlt, _⟩ := List.getElem?_eq_some_iff.mp hi
  rw [View.sourceCoordinates, List.getElem?_map, List.getElem?_range (h.axis_lt hi),
    Option.map_some,
    h.idxOf_axes hi, List.getD_eq_getElem?_getD, List.getElem?_eq_getElem (hlength ▸ hlt)]
  rfl

end

theorem length_sourceCoordinates :
    ((View.transpose axes).sourceCoordinates extents coords).length = extents.length := by
  rw [View.sourceCoordinates, List.length_map, List.length_range]

section

variable (h : Transposes extents axes perm out)
include h

theorem source (hwithin : Within coords out) :
    viewSource (.transpose axes) extents coords =
      .ok ((View.transpose axes).sourceCoordinates extents coords) := by
  have hlength : coords.length = perm.length := hwithin.length_eq.trans h.length_out
  have hsource : transposeSource (perm.map Int.ofNat) coords coords =
      (View.transpose axes).sourceCoordinates extents coords := by
    apply List.ext_getElem?
    intro k
    by_cases hk : k < extents.length
    · obtain ⟨i, hi⟩ := h.exists_position hk
      have hrange : k < coords.length := by rwa [hlength, h.length_perm]
      rw [transposeSource_get h.nodup hlength hi hrange, h.sourceCoordinates_get hi hlength]
    · rw [Nat.not_lt] at hk
      rw [List.getElem?_eq_none, List.getElem?_eq_none]
      · rwa [length_sourceCoordinates]
      · rwa [length_transposeSource, hlength, h.length_perm]
  rw [viewSource, h.static, ok_bind, hsource]

theorem within (hwithin : Within coords out) :
    Within ((View.transpose axes).sourceCoordinates extents coords) extents := by
  have hlength : coords.length = perm.length := hwithin.length_eq.trans h.length_out
  refine List.forall₂_iff_get.mpr ⟨length_sourceCoordinates, fun k hk hextent => ?_⟩
  obtain ⟨i, hi⟩ := h.exists_position hextent
  obtain ⟨hlt, hget⟩ := List.getElem?_eq_some_iff.mp hi
  have hcoordinate := (List.forall₂_iff_get.mp hwithin).2 i (hlength ▸ hlt) (h.length_out ▸ hlt)
  have hvalue := h.sourceCoordinates_get hi hlength
  rw [List.getElem?_eq_getElem hk, List.getElem?_eq_getElem (hlength ▸ hlt)] at hvalue
  have hbound : out[i]? = some extents[k] := by
    rw [h.out_eq, List.getElem?_map, hi, Option.map_some, List.getD_eq_getElem?_getD,
      List.getElem?_eq_getElem hextent]
    rfl
  rw [List.getElem?_eq_getElem (h.length_out ▸ hlt)] at hbound
  change _ < extents[k]
  rw [← Option.some.inj hbound]
  exact lt_of_eq_of_lt (Option.some.inj hvalue) hcoordinate

theorem injective {a b : List Nat} (ha : Within a out) (hb : Within b out)

    (heq : (View.transpose axes).sourceCoordinates extents a =
      (View.transpose axes).sourceCoordinates extents b) :
    a = b := by
  have hlengtha : a.length = perm.length := ha.length_eq.trans h.length_out
  have hlengthb : b.length = perm.length := hb.length_eq.trans h.length_out
  apply List.ext_getElem?
  intro i
  by_cases hi : i < perm.length
  · have hk := List.getElem?_eq_getElem hi
    rw [← h.sourceCoordinates_get hk hlengtha, heq, h.sourceCoordinates_get hk hlengthb]
  · rw [Nat.not_lt] at hi
    rw [List.getElem?_eq_none (hlengtha ▸ hi), List.getElem?_eq_none (hlengthb ▸ hi)]

theorem perm_extents : out.Perm extents := by
  have hmap := h.range.map fun k => extents.getD k 0
  rwa [map_getD_range, ← h.out_eq] at hmap

end

end Transposes

/-! ## Rotations -/

/-- The facts that the check of a rotation establishes. -/
structure Rotates (extents : List Nat) (axis : Int) (k extent : Nat) : Prop where
  axis_eq : axis = k
  get : extents[k]? = some extent
  static : signedStatic axis = .ok (k : Int)

theorem viewShape_rotate_sound {axis offset : Int}
    (h : viewShape (.rotate axis offset) extents = .ok out) :
    out = extents ∧ ∃ k extent, Rotates extents axis k extent := by
  obtain ⟨value, hvalue, h⟩ := bind_eq_ok.mp h
  obtain ⟨hcheck, h⟩ := guard_eq_ok.mp h
  obtain ⟨_, _, h⟩ := bind_eq_ok.mp h
  cases h
  rw [not_or, Int.not_lt, Nat.not_le] at hcheck
  obtain ⟨k, rfl⟩ := Int.eq_ofNat_of_zero_le hcheck.1
  have hlt : k < extents.length := hcheck.2
  exact ⟨rfl, k, extents[k], signedStatic_nonneg hvalue hcheck.1,
    List.getElem?_eq_getElem hlt, hvalue⟩

namespace Rotates

variable {extents coords : List Nat} {axis offset : Int} {k extent : Nat}

section

variable (h : Rotates extents axis k extent)
include h

theorem getD_eq : extents.getD k 0 = extent := by
  rw [List.getD_eq_getElem?_getD, h.get]
  rfl

theorem sourceCoordinates_eq (offset : Int) (coords : List Nat) :
    (View.rotate axis offset).sourceCoordinates extents coords =
      coords.set k (((coords.getD k 0 : Int) + offset) % extent).toNat := by
  rw [View.sourceCoordinates, h.axis_eq, Int.toNat_natCast, h.getD_eq]

omit h in
/-- The sum of a coordinate and the shift is below `2^64`. -/
theorem shifted_eq {c : Nat} (hc : c < extent) (hsmall : extent < 2 ^ 63) (offset : Int) :
    (c + (offset % extent).toNat) % 2 ^ 64 % extent = (((c : Int) + offset) % extent).toNat := by
  have hpos : 0 < (extent : Int) := by omega
  have hnonneg := Int.emod_nonneg offset hpos.ne'
  have hlt := Int.emod_lt_of_pos offset hpos
  rw [Nat.mod_eq_of_lt (show c + (offset % extent).toNat < 2 ^ 64 by omega)]
  rw [← Int.add_emod_emod, ← Int.toNat_natCast ((c + (offset % extent).toNat) % extent),
    Int.natCast_mod, Int.natCast_add, Int.toNat_of_nonneg hnonneg]

theorem source (hvalid : Valid extents) (hwithin : Within coords extents) :
    viewSource (.rotate axis offset) extents coords =
      .ok ((View.rotate axis offset).sourceCoordinates extents coords) := by
  have hmem := List.mem_of_getElem? h.get
  have hpos := hvalid.positive extent hmem
  have hsmall := hvalid.extent_lt hmem
  obtain ⟨hlt, _⟩ := List.getElem?_eq_some_iff.mp h.get
  have hcheck : ¬ ((k : Int) < 0 ∨ extents.length ≤ (k : Int).toNat) := by
    rw [Int.toNat_natCast]
    omega
  rw [viewSource, h.static, ok_bind, if_neg hcheck, Int.toNat_natCast, h.getD_eq]
  dsimp only
  rw [rotateOffset_exact offset hpos hsmall, ok_bind, h.sourceCoordinates_eq,
    shifted_eq (hwithin.getD_lt h.get) hsmall]

theorem within (hpos : 0 < extent) (hwithin : Within coords extents) :
    Within ((View.rotate axis offset).sourceCoordinates extents coords) extents := by
  rw [h.sourceCoordinates_eq]
  refine hwithin.set h.get ?_
  have hnonneg := Int.emod_nonneg ((coords.getD k 0 : Int) + offset)
    (Int.natCast_ne_zero.mpr hpos.ne')
  have hlt := Int.emod_lt_of_pos ((coords.getD k 0 : Int) + offset) (Int.natCast_pos.mpr hpos)
  omega

omit h in
/-- Two coordinates below the extent that are moved to one were one. -/
theorem moved_injective {a b : Nat} (ha : a < extent) (hb : b < extent)
    (h : (((a : Int) + offset) % extent).toNat = (((b : Int) + offset) % extent).toNat) :
    a = b := by
  have hpos : (extent : Int) ≠ 0 := by omega
  have hmod : ((a : Int) + offset) % extent = ((b : Int) + offset) % extent := by
    have := Int.emod_nonneg ((a : Int) + offset) hpos
    have := Int.emod_nonneg ((b : Int) + offset) hpos
    omega
  rw [Int.emod_add_cancel_right, Int.emod_eq_of_lt (by omega) (by omega),
    Int.emod_eq_of_lt (by omega) (by omega)] at hmod
  omega

theorem injective {a b : List Nat} (ha : Within a extents) (hb : Within b extents)
    (heq : (View.rotate axis offset).sourceCoordinates extents a =
      (View.rotate axis offset).sourceCoordinates extents b) :
    a = b := by
  rw [h.sourceCoordinates_eq, h.sourceCoordinates_eq] at heq
  obtain ⟨hlt, _⟩ := List.getElem?_eq_some_iff.mp h.get
  have hlta : k < a.length := by rwa [ha.length_eq]
  have hltb : k < b.length := by rwa [hb.length_eq]
  have hmoved := congrArg (fun l : List Nat => l[k]?) heq
  simp only [List.getElem?_set_self hlta, List.getElem?_set_self hltb, Option.some.injEq] at hmoved
  have hk := moved_injective (ha.getD_lt h.get) (hb.getD_lt h.get) hmoved
  apply List.ext_getElem?
  intro i
  by_cases hi : k = i
  · subst hi
    rw [List.getD_eq_getElem?_getD, List.getD_eq_getElem?_getD, List.getElem?_eq_getElem hlta,
      List.getElem?_eq_getElem hltb] at hk
    rw [List.getElem?_eq_getElem hlta, List.getElem?_eq_getElem hltb]
    exact congrArg some hk
  · have hother := congrArg (fun l : List Nat => l[i]?) heq
    simpa only [List.getElem?_set_ne hi] using hother

end

end Rotates

end PyCircuit.Table
