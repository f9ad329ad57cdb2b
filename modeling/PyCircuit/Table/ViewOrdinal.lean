import Mathlib.Data.Fintype.EquivFin
import PyCircuit.Table.ViewAxes

/-!
# Views address the right elements

For an accepted view the computed ordinal is the one of the coordinate mapping, it is in range, and
distinct elements of the view are distinct elements of the source. Chains of views inherit this.
-/

set_option autoImplicit false

namespace PyCircuit.Table

open Lib Fallible RowMajor

/-! ## Accepted views -/

namespace Accepted

variable {view : View} {extents out coords : List Nat}

section

variable (h : Accepted view extents out)
include h

/-- The source coordinates are computed exactly and are in range. -/
theorem source_exact (hkind : ∀ shape, view ≠ .reshape shape) (hwithin : Within coords out) :
    viewSource view extents coords = .ok (view.sourceCoordinates extents coords) ∧
      Within (view.sourceCoordinates extents coords) extents := by
  obtain ⟨hvalid, hschema, hshape⟩ := h
  cases view with
  | reshape shape => exact absurd rfl (hkind shape)
  | slice offsets sizes strides =>
    have hslices := sliceShape_sound (fun e he => hvalid.extent_lt he) hshape
    exact hslices.source (fun e he => hvalid.extent_lt he) hwithin
  | transpose axes =>
    obtain ⟨perm, htransposes⟩ := viewShape_transpose_sound (rankSchema_length hschema) hshape
    exact ⟨htransposes.source hwithin, htransposes.within hwithin⟩
  | rotate axis offset =>
    obtain ⟨rfl, k, extent, hrotates⟩ := viewShape_rotate_sound hshape
    have hpos := hvalid.positive extent (List.mem_of_getElem? hrotates.get)
    exact ⟨hrotates.source hvalid hwithin, hrotates.within hpos hwithin⟩

theorem sourceCoordinates_injective {a b : List Nat} (ha : Within a out) (hb : Within b out)
    (heq : view.sourceCoordinates extents a = view.sourceCoordinates extents b) : a = b := by
  obtain ⟨hvalid, hschema, hshape⟩ := h
  cases view with
  | reshape shape => exact heq
  | slice offsets sizes strides =>
    have hslices := sliceShape_sound (fun e he => hvalid.extent_lt he) hshape
    exact hslices.injective ha hb heq
  | transpose axes =>
    obtain ⟨perm, htransposes⟩ := viewShape_transpose_sound (rankSchema_length hschema) hshape
    exact htransposes.injective ha hb heq
  | rotate axis offset =>
    obtain ⟨rfl, k, extent, hrotates⟩ := viewShape_rotate_sound hshape
    exact hrotates.injective ha hb heq

/-- The shape of the result is a valid one, with as many elements as the source unless the view is a
slice. -/
theorem valid_out : Valid out ∧ ((∀ offsets sizes strides, view ≠ .slice offsets sizes strides) →
      size out = size extents) := by
  obtain ⟨hvalid, hschema, hshape⟩ := h
  cases view with
  | reshape shape =>
    obtain ⟨resolved, hresolved, h⟩ := bind_eq_ok.mp hshape
    have hout := (resolveShape_eq_ok.mp hresolved).2
    obtain ⟨hproduct, h⟩ := guard_eq_ok.mp h
    cases h
    rw [not_not, hout.product_eq, hvalid.product_eq] at hproduct
    exact ⟨hout, fun _ => hproduct⟩
  | slice offsets sizes strides =>
    have hslices := sliceShape_sound (fun e he => hvalid.extent_lt he) hshape
    obtain ⟨hpos, hle, hlength⟩ := hslices.valid
    refine ⟨⟨fun hnil => ?_, hpos, lt_of_le_of_lt hle hvalid.size_lt⟩, ?_⟩
    · rw [hnil] at hlength
      exact hvalid.ne_nil (List.eq_nil_of_length_eq_zero hlength.symm)
    · exact fun hkind => absurd rfl (hkind offsets sizes strides)
  | transpose axes =>
    obtain ⟨perm, htransposes⟩ := viewShape_transpose_sound (rankSchema_length hschema) hshape
    have hperm := htransposes.perm_extents
    refine ⟨⟨fun hnil => ?_, ?_, ?_⟩, fun _ => size_perm hperm⟩
    · rw [hnil] at hperm
      exact hvalid.ne_nil hperm.nil_eq.symm
    · exact fun e he => hvalid.positive e (hperm.mem_iff.mp he)
    · exact size_perm hperm ▸ hvalid.size_lt
  | rotate axis offset =>
    obtain ⟨rfl, _⟩ := viewShape_rotate_sound hshape
    exact ⟨hvalid, fun _ => rfl⟩

omit h in
theorem getViewSourceOrdinal_eq (hkind : ∀ shape, view ≠ .reshape shape) {ordinal : Nat}
    (hlt : ordinal < product out) :
    getViewSourceOrdinal view extents out ordinal = (do
      let source ← viewSource view extents (delinearize out ordinal).1
      .ok (linearize extents source 0)) := by
  rw [getViewSourceOrdinal, if_neg (Nat.not_le.mpr hlt)]
  cases view with
  | reshape shape => exact absurd rfl (hkind shape)
  | slice | transpose | rotate => rfl

omit h in
theorem sourceOrdinal_eq (hkind : ∀ shape, view ≠ .reshape shape) (ordinal : Nat) :
    view.sourceOrdinal extents out ordinal = RowMajor.ordinal extents
      (view.sourceCoordinates extents (coordinates out ordinal)) := by
  cases view with
  | reshape shape => exact absurd rfl (hkind shape)
  | slice | transpose | rotate => rfl

/-- The source ordinal is the one of the coordinate mapping, and it is in range. -/
theorem sourceOrdinal_exact {ordinal : Nat} (hlt : ordinal < size out) :
    getViewSourceOrdinal view extents out ordinal = .ok (view.sourceOrdinal extents out ordinal) ∧
      view.sourceOrdinal extents out ordinal < size extents := by
  obtain ⟨hout, hsize⟩ := h.valid_out
  have hwithin := coordinates_within hlt
  have hcoords : (delinearize out ordinal).1 = coordinates out ordinal := by
    rw [delinearize_eq, Nat.mod_eq_of_lt hlt]
  have hrange : ordinal < product out := by rwa [hout.product_eq]
  by_cases hkind : ∃ shape, view = .reshape shape
  · obtain ⟨shape, rfl⟩ := hkind
    constructor
    · rw [getViewSourceOrdinal, if_neg (Nat.not_le.mpr hrange)]
      dsimp only
      rw [hcoords, hout.linearize_eq hwithin, ordinal_coordinates hlt, View.sourceOrdinal]
    · exact hsize (fun _ _ _ => nofun) ▸ hlt
  · have hother : ∀ shape, view ≠ .reshape shape := fun shape heq => hkind ⟨shape, heq⟩
    obtain ⟨hsource, hbelow⟩ := h.source_exact hother hwithin
    rw [getViewSourceOrdinal_eq hother hrange, hcoords, hsource, ok_bind,
      h.input.linearize_eq hbelow, sourceOrdinal_eq hother]
    exact ⟨rfl, ordinal_lt hbelow⟩

/-- Distinct elements of a view are distinct elements of the source. -/
theorem sourceOrdinal_injective {i j : Nat} (hi : i < size out) (hj : j < size out)
    (heq : view.sourceOrdinal extents out i = view.sourceOrdinal extents out j) : i = j := by
  by_cases hkind : ∃ shape, view = .reshape shape
  · obtain ⟨shape, rfl⟩ := hkind
    exact heq
  · have hother : ∀ shape, view ≠ .reshape shape := fun shape heq => hkind ⟨shape, heq⟩
    rw [sourceOrdinal_eq hother, sourceOrdinal_eq hother] at heq
    have hwithini := coordinates_within hi
    have hwithinj := coordinates_within hj
    have hcoords := ordinal_injective (h.source_exact hother hwithini).2
      (h.source_exact hother hwithinj).2 heq
    have hboth := h.sourceCoordinates_injective hwithini hwithinj hcoords
    rw [← ordinal_coordinates hi, hboth, ordinal_coordinates hj]

end

end Accepted

/-! ## Chains of views -/

/-- Views applied one after another, from the source to the result. -/
inductive Chain : List Nat → List View → List Nat → Prop
  | nil {shape : List Nat} (valid : Valid shape) : Chain shape [] shape
  | cons {view : View} {views : List View} {extents mid out : List Nat}
      (first : Accepted view extents mid) (rest : Chain mid views out) :
      Chain extents (view :: views) out

/-- The source of an element of the last view, from the last view back to the first. -/
def chainSourceOrdinal : List View → List Nat → Nat → Except String Nat
  | [], _, ordinal => .ok ordinal
  | view :: views, extents, ordinal => do
      let mid ← viewShape view extents
      let source ← chainSourceOrdinal views mid ordinal
      getViewSourceOrdinal view extents mid source

/-- A function from the ordinals below a number, in range and injective. -/
structure Addresses (n m : Nat) (source : Nat → Except String Nat) : Prop where
  in_range : ∀ i < n, ∃ s < m, source i = .ok s
  injective : ∀ i < n, ∀ j < n, source i = source j → i = j

theorem Addresses.surjective {n : Nat} {source : Nat → Except String Nat}
    (h : Addresses n n source) {s : Nat} (hs : s < n) : ∃ i < n, source i = .ok s := by
  choose f hf hsource using h.in_range
  have hinjective : Function.Injective fun i : Fin n => (⟨f i i.isLt, hf i i.isLt⟩ : Fin n) := by
    intro i j hij
    apply Fin.ext
    apply h.injective i i.isLt j j.isLt
    rw [hsource i i.isLt, hsource j j.isLt, Fin.mk.inj hij]
  obtain ⟨i, hi⟩ := Finite.surjective_of_injective hinjective ⟨s, hs⟩
  exact ⟨i, i.isLt, by rw [hsource i i.isLt, Fin.mk.inj hi]⟩

theorem Accepted.addresses {view : View} {extents out : List Nat} (h : Accepted view extents out) :
    Addresses (size out) (size extents)
      (getViewSourceOrdinal view extents out) where
  in_range i hi := ⟨_, (h.sourceOrdinal_exact hi).2, (h.sourceOrdinal_exact hi).1⟩
  injective i hi j hj heq := by
    rw [(h.sourceOrdinal_exact hi).1, (h.sourceOrdinal_exact hj).1] at heq
    exact h.sourceOrdinal_injective hi hj (Except.ok.inj heq)

/-- A chain is in range and injective because each of its views is. -/
theorem Chain.addresses {views : List View} {extents out : List Nat} (h : Chain extents views out) :
    Addresses (size out) (size extents) (chainSourceOrdinal views extents) := by
  induction h with
  | nil =>
    refine ⟨fun i hi => ⟨i, hi, rfl⟩, fun i _ j _ heq => Except.ok.inj heq⟩
  | @cons view views extents mid out first rest ih =>
    have hstep : ∀ i, chainSourceOrdinal (view :: views) extents i =
        (chainSourceOrdinal views mid i >>= getViewSourceOrdinal view extents mid) := by
      intro i
      rw [chainSourceOrdinal, first.shape, ok_bind]
    constructor
    · intro i hi
      obtain ⟨s, hs, hsource⟩ := ih.in_range i hi
      rw [hstep, hsource, ok_bind]
      exact first.addresses.in_range s hs
    · intro i hi j hj heq
      obtain ⟨s, hs, hsource⟩ := ih.in_range i hi
      obtain ⟨t, ht, htarget⟩ := ih.in_range j hj
      rw [hstep, hstep, hsource, htarget, ok_bind, ok_bind] at heq
      apply ih.injective i hi j hj
      rw [hsource, htarget, first.addresses.injective s hs t ht heq]

/-- Without slices every view of a chain keeps the number of the elements. -/
theorem Chain.size_eq {views : List View} {extents out : List Nat} (h : Chain extents views out)
    (hkind : ∀ view ∈ views, ∀ offsets sizes strides, view ≠ .slice offsets sizes strides) :
    size out = size extents := by
  induction h with
  | nil => rfl
  | cons first _ ih =>
    obtain ⟨hfirst, hrest⟩ := List.forall_mem_cons.mp hkind
    exact (ih hrest).trans (first.valid_out.2 hfirst)

end PyCircuit.Table
