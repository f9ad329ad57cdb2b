import PyCircuit.Gfsim.AssignSlice
import PyCircuit.Gfsim.Returns
import PyCircuit.PackedLayout.Layout

/-!
# The packing of runtime values

`hardware_traits` of `wire.h` packs bits, structs and tables recursively. The fields of a struct are
placed from the top of the packed value down, the elements of a table likewise. Nested tables are
one table of their scalar payloads. An enumeration is a struct with its code as the only member.
-/

set_option autoImplicit false

namespace PyCircuit.PackedLayout

open Lib Gfsim

/-! ## Payload types -/

mutual

/-- A payload type of the runtime. -/
inductive Payload where
  | bits (width : Nat)
  | struct (members : Members)
  | table (size : Nat) (element : Payload)

/-- The types of the members of a struct in the order of the layout. -/
inductive Members where
  | nil
  | cons (type : Payload) (rest : Members)

end

mutual

/-- `hardware_traits<T>::width`. -/
def Payload.width : Payload → Nat
  | .bits width => width
  | .struct members => members.width
  | .table size element => size * element.width

def Members.width : Members → Nat
  | .nil => 0
  | .cons type rest => type.width + rest.width

end

mutual

/-- Every width and every size is positive. Packing needs no more; the assertions that an `unsigned`
holds the widths are in `Payload.Asserted`. -/
def Payload.WellFormed : Payload → Prop
  | .bits width => 0 < width
  | .struct members => 0 < members.width ∧ members.AllWellFormed
  | .table size element => 0 < size ∧ element.WellFormed

def Members.AllWellFormed : Members → Prop
  | .nil => True
  | .cons type rest => type.WellFormed ∧ rest.AllWellFormed

end

mutual

/-- The values of a payload type. -/
def Payload.Value : Payload → Type
  | .bits width => Bits width
  | .struct members => members.Values
  | .table size element => Fin size → element.Value

def Members.Values : Members → Type
  | .nil => PUnit
  | .cons type rest => type.Value × rest.Values

end

theorem Payload.width_pos : (type : Payload) → type.WellFormed → 0 < type.width
  | .bits _, h => h
  | .struct _, h => h.1
  | .table _ element, h => Nat.mul_pos h.1 (element.width_pos h.2)

mutual

/-- The static assertions of `wire.h`. -/
def Payload.Asserted : Payload → Prop
  | .bits width => 0 < width ∧ width < 2 ^ 32
  | .struct members => (0 < members.width ∧ members.width ≤ 2 ^ 32 - 1) ∧ members.AllAsserted
  | .table size element => (0 < size ∧ size ≤ (2 ^ 32 - 1) / element.width) ∧ element.Asserted

def Members.AllAsserted : Members → Prop
  | .nil => True
  | .cons type rest => type.Asserted ∧ rest.AllAsserted

end

mutual

/-- The bound on the whole width is all that the assertions add. -/
theorem Payload.asserted_iff : (type : Payload) →
    (type.Asserted ↔ type.WellFormed ∧ type.width < 2 ^ 32)
  | .bits _ => Iff.rfl
  | .struct members => by
    refine ⟨fun ⟨⟨hpos, hle⟩, hall⟩ => ?_, fun ⟨⟨hpos, hall⟩, hlt⟩ => ?_⟩
    · have hlt : members.width < 2 ^ 32 := by omega
      exact ⟨⟨hpos, (members.allAsserted_iff hlt).mp hall⟩, hlt⟩
    · exact ⟨⟨hpos, by rw [Payload.width] at hlt; omega⟩, (members.allAsserted_iff hlt).mpr hall⟩
  | .table size element => by
    rw [Payload.Asserted, element.asserted_iff, Payload.WellFormed, Payload.width]
    refine ⟨fun ⟨⟨hpos, hle⟩, hwf, _⟩ => ?_, fun ⟨⟨hpos, hwf⟩, hlt⟩ => ?_⟩
    · have := (Nat.le_div_iff_mul_le (element.width_pos hwf)).mp hle
      exact ⟨⟨hpos, hwf⟩, by omega⟩
    · have helement : element.width ≤ size * element.width := Nat.le_mul_of_pos_left _ hpos
      exact ⟨⟨hpos, (Nat.le_div_iff_mul_le (element.width_pos hwf)).mpr (by omega)⟩, hwf, by omega⟩

theorem Members.allAsserted_iff : (members : Members) → members.width < 2 ^ 32 →
    (members.AllAsserted ↔ members.AllWellFormed)
  | .nil, _ => Iff.rfl
  | .cons type rest, h => by
    rw [Members.width] at h
    have htype : type.width < 2 ^ 32 := by omega
    rw [Members.AllAsserted, Members.AllWellFormed, type.asserted_iff, and_iff_left htype,
      rest.allAsserted_iff (by omega)]

end

/-! ## Packing and unpacking -/

/-- `shl(zext<width>(packed), offset)`. -/
def place {width total : Nat} (h : width ≤ total) (packed : Bits width) (offset : Nat) :
    Bits total := shl (zext h packed) offset

/-- The loop that packs the elements of a table. -/
def packElements {size width : Nat} (hsize : 0 < size) (hwidth : 0 < width)
    (elements : Fin size → Bits width) : Bits (size * width) :=
  (List.finRange size).foldl
    (fun result ordinal => result.or (place (Nat.le_mul_of_pos_left width hsize)
      (elements ordinal) (Bus.elementLow size width ordinal)))
    (Bits.zero (Nat.mul_pos hsize hwidth))

mutual

def Payload.pack : (type : Payload) → type.WellFormed → type.Value → Bits type.width
  | .bits _, _, value => value
  | .struct members, h, value =>
    members.packFields (Nat.le_refl _) h.2 value members.width (Bits.zero h.1)
  | .table _ element, h, value =>
    packElements h.1 (element.width_pos h.2) fun ordinal => element.pack h.2 (value ordinal)

/-- The calls of `packField`. -/
def Members.packFields {total : Nat} : (members : Members) → members.width ≤ total →
    members.AllWellFormed → members.Values → Nat → Bits total → Bits total
  | .nil, _, _, _, _, result => result
  | .cons type rest, hle, h, value, offset, result =>
    rest.packFields (Nat.le_of_add_left_le hle) h.2 value.2 (offset - type.width)
      (result.or (place (Nat.le_of_add_right_le hle) (type.pack h.1 value.1)
        (offset - type.width)))

end

mutual

def Payload.unpack : (type : Payload) → type.WellFormed → Bits type.width → type.Value
  | .bits _, _, packed => packed
  | .struct members, h, packed =>
    members.unpackFields (Nat.le_refl _) h.2 packed members.width
  | .table size element, h, packed => fun ordinal =>
    element.unpack h.2 (extract (element.width_pos h.2) (Nat.le_mul_of_pos_left _ h.1) packed
      (Bus.elementLow size element.width ordinal))

/-- The calls of `unpackField`. -/
def Members.unpackFields {total : Nat} : (members : Members) → members.width ≤ total →
    members.AllWellFormed → Bits total → Nat → members.Values
  | .nil, _, _, _, _ => ⟨⟩
  | .cons type rest, hle, h, packed, offset =>
    (type.unpack h.1 (extract (type.width_pos h.1) (Nat.le_of_add_right_le hle) packed
      (offset - type.width)),
    rest.unpackFields (Nat.le_of_add_left_le hle) h.2 packed (offset - type.width))

end

/-! ## The bits of packed values -/

theorem bit_place {width total offset : Nat} (h : width ≤ total) (hfits : offset + width ≤ total)
    (packed : Bits width) (i : Nat) :
    (place h packed offset).bit i = (decide (offset ≤ i) && packed.bit (i - offset)) := by
  rw [place, bit_shl, bit_zext]
  by_cases hi : i < total
  · rw [decide_eq_true hi, Bool.true_and]
  · rw [packed.bit_of_le (show width ≤ i - offset by omega), Bool.and_false]

/-- A bit of an element of a table. -/
theorem bit_packElements {size width : Nat} (hsize : 0 < size) (hwidth : 0 < width)
    (elements : Fin size → Bits width) (ordinal : Fin size) {k : Nat} (hk : k < width) :
    (packElements hsize hwidth elements).bit (Bus.elementLow size width ordinal + k) =
      (elements ordinal).bit k := by
  let i := Bus.elementLow size width ordinal + k
  have hround := fun (result : Bits (size * width)) (o : Fin size) =>
    (result.bit_or _ i).trans (congrArg (result.bit i || ·)
      (bit_place (Nat.le_mul_of_pos_left width hsize) (Bus.elementLow_le o.isLt) (elements o) i))
  rw [packElements, foldl_eq_any (Bits.bit · i) hround, Bits.bit_zero, Bool.false_or,
    Bool.eq_iff_iff, List.any_eq_true]
  constructor
  · rintro ⟨o, -, hbit⟩
    rw [Bool.and_eq_true, decide_eq_true_eq] at hbit
    obtain ⟨hle, hbit⟩ := hbit
    have hin : Bus.elementLow size width ordinal + k - Bus.elementLow size width o < width := by
      by_contra hout
      rw [(elements o).bit_of_le (Nat.le_of_not_lt hout)] at hbit
      cases hbit
    obtain rfl : o = ordinal := by
      by_contra hne
      have := Bus.elementLow_disjoint (w := width) o.isLt ordinal.isLt
        fun h => hne (Fin.ext h)
      omega
    rwa [Nat.add_sub_cancel_left] at hbit
  · intro hbit
    refine ⟨ordinal, List.mem_finRange _, ?_⟩
    rw [Nat.add_sub_cancel_left, hbit, decide_eq_true (Nat.le_add_right ..), Bool.true_and]

/-- A bit of the members of a struct, the first of which is on top. -/
def Members.fieldBit : (members : Members) → members.AllWellFormed → members.Values → Nat → Bool
  | .nil, _, _, _ => false
  | .cons type rest, h, value, i =>
    if rest.width ≤ i then (type.pack h.1 value.1).bit (i - rest.width)
    else rest.fieldBit h.2 value.2 i

theorem Members.fieldBit_of_le : ∀ (members : Members) (h : members.AllWellFormed)
    (value : members.Values) {i : Nat}, members.width ≤ i → members.fieldBit h value i = false
  | .nil, _, _, _, _ => rfl
  | .cons type rest, h, value, i, hi => by
      rw [Members.width] at hi
      rw [Members.fieldBit, if_pos (by omega), Bits.bit_of_le _ (by omega)]

theorem Members.bit_packFields {total : Nat} : ∀ (members : Members)
    (hle : members.width ≤ total) (h : members.AllWellFormed) (value : members.Values)
    (result : Bits total) (i : Nat),
    (members.packFields hle h value members.width result).bit i =
      (result.bit i || members.fieldBit h value i)
  | .nil, _, _, _, result, i => (Bool.or_false _).symm
  | .cons type rest, hle, h, value, result, i => by
      have hoffset : (Members.cons type rest).width - type.width = rest.width :=
        Nat.add_sub_cancel_left ..
      have hfits : rest.width + type.width ≤ total := by
        rwa [Members.width, Nat.add_comm] at hle
      rw [Members.packFields, hoffset, rest.bit_packFields, Bits.bit_or, bit_place _ hfits,
        Members.fieldBit, Bool.or_assoc]
      by_cases hi : rest.width ≤ i
      · rw [decide_eq_true hi, if_pos hi, rest.fieldBit_of_le h.2 value.2 hi, Bool.true_and,
          Bool.or_false]
      · rw [decide_eq_false hi, if_neg hi, Bool.false_and, Bool.false_or]

theorem Payload.bit_pack_struct (members : Members) (h : (Payload.struct members).WellFormed)
    (value : members.Values) (i : Nat) :
    ((Payload.struct members).pack h value).bit i = members.fieldBit h.2 value i := by
  have hfields := members.bit_packFields (Nat.le_refl _) h.2 value (Bits.zero h.1) i
  rwa [Bits.bit_zero, Bool.false_or] at hfields

/-! ## Unpacking after packing -/

theorem extract_eq {width total low : Nat} (hpos : 0 < width) (hle : width ≤ total)
    {packed : Bits total} {part : Bits width}
    (h : ∀ k, k < width → packed.bit (low + k) = part.bit k) :
    extract hpos hle packed low = part := by
  apply Bits.ext_bit
  intro k hk
  rw [bit_extract, decide_eq_true hk, Bool.true_and, Nat.add_comm, h k hk]

mutual

theorem Payload.unpack_pack : ∀ (type : Payload) (h : type.WellFormed) (value : type.Value),
    type.unpack h (type.pack h value) = value
  | .bits _, _, _ => rfl
  | .struct members, h, value =>
    members.unpackFields_eq _ h.2 value fun i _ => Payload.bit_pack_struct members h value i
  | .table size element, h, value => by
      funext ordinal
      have helement := extract_eq (element.width_pos h.2) (Nat.le_mul_of_pos_left _ h.1)
        fun k hk => bit_packElements h.1 (element.width_pos h.2)
          (fun ordinal => element.pack h.2 (value ordinal)) ordinal hk
      exact (congrArg (element.unpack h.2) helement).trans
        (element.unpack_pack h.2 (value ordinal))

theorem Members.unpackFields_eq {total : Nat} {packed : Bits total} : ∀ (members : Members)
    (hle : members.width ≤ total) (h : members.AllWellFormed) (value : members.Values),
    (∀ i, i < members.width → packed.bit i = members.fieldBit h value i) →
    members.unpackFields hle h packed members.width = value
  | .nil, _, _, _, _ => rfl
  | .cons type rest, hle, h, value, hbits => by
      have hoffset : (Members.cons type rest).width - type.width = rest.width :=
        Nat.add_sub_cancel_left ..
      have htype : ∀ k, k < type.width →
          packed.bit (rest.width + k) = (type.pack h.1 value.1).bit k := by
        intro k hk
        rw [hbits _ (by rw [Members.width]; omega), Members.fieldBit,
          if_pos (Nat.le_add_right ..), Nat.add_sub_cancel_left]
      have hrest : ∀ i, i < rest.width → packed.bit i = rest.fieldBit h.2 value.2 i := by
        intro i hi
        rw [hbits _ (by rw [Members.width]; omega), Members.fieldBit, if_neg (by omega)]
      rw [Members.unpackFields, hoffset, extract_eq _ _ htype, type.unpack_pack h.1 value.1,
        rest.unpackFields_eq _ h.2 value.2 hrest]
      rfl

end

/-! ## Packing after unpacking -/

mutual

theorem Payload.pack_unpack : ∀ (type : Payload) (h : type.WellFormed) (packed : Bits type.width),
    type.pack h (type.unpack h packed) = packed
  | .bits _, _, _ => rfl
  | .struct members, h, packed => by
      refine Bits.ext_bit fun i hi => ?_
      exact (Payload.bit_pack_struct members h _ i).trans (members.fieldBit_unpackFields _ h.2 hi)
  | .table size element, h, packed => by
      refine Bits.ext_bit fun i hi => ?_
      have hwidth := element.width_pos h.2
      have hk := Nat.mod_lt i hwidth
      have hrow : i / element.width < size := (Nat.div_lt_iff_lt_mul hwidth).mpr hi
      rw [← Nat.div_add_mod' i element.width]
      generalize i / element.width = row, i % element.width = k at hk hrow ⊢
      -- the elements are stored from the last one up
      have hlow : row * element.width = Bus.elementLow size element.width (size - 1 - row) := by
        rw [Bus.elementLow, show size - 1 - (size - 1 - row) = row by omega]
      rw [hlow]
      refine (bit_packElements h.1 hwidth _ ⟨size - 1 - row, by omega⟩ hk).trans ?_
      rw [Payload.unpack, element.pack_unpack]
      refine (bit_extract ..).trans ?_
      rw [decide_eq_true hk, Bool.true_and, Nat.add_comm]
      rfl

theorem Members.fieldBit_unpackFields {total : Nat} {packed : Bits total} : ∀ (members : Members)
    (hle : members.width ≤ total) (h : members.AllWellFormed) {i : Nat}, i < members.width →
    members.fieldBit h (members.unpackFields hle h packed members.width) i = packed.bit i
  | .nil, _, _, _, hi => absurd hi (Nat.not_lt_zero _)
  | .cons type rest, hle, h, i, hi => by
      have hoffset : (Members.cons type rest).width - type.width = rest.width :=
        Nat.add_sub_cancel_left ..
      rw [Members.width] at hi
      rw [Members.unpackFields, hoffset]
      change (if rest.width ≤ i then _ else _) = _
      split
      · next hrest =>
        rw [type.pack_unpack, bit_extract, decide_eq_true (by omega), Bool.true_and,
          Nat.sub_add_cancel hrest]
      · next hrest => exact rest.fieldBit_unpackFields _ h.2 (by omega)

end

/-- Every word of the packed width is the packed form of exactly one value. -/
theorem pack_bijective (type : Payload) (h : type.WellFormed) : Function.Bijective (type.pack h) :=
  Function.bijective_iff_has_inverse.mpr ⟨type.unpack h, type.unpack_pack h, type.pack_unpack h⟩

/-- A struct of three bits above a table of two pairs of bits. -/
def framePayload : Payload := .struct (.cons (.bits 3) (.cons (.table 2 (.bits 2)) .nil))

theorem framePayload_wellFormed : framePayload.WellFormed :=
  ⟨by decide, Nat.zero_lt_succ 2, ⟨Nat.two_pos, Nat.two_pos⟩, trivial⟩

/-- The frame 5, [1, 2] is packed as the bits 101 01 10. -/
theorem pack_bijective_frame :
    Function.Bijective (framePayload.pack framePayload_wellFormed) ∧
      (framePayload.pack framePayload_wellFormed (.ofLow (Nat.zero_lt_succ 2) 5, fun ordinal =>
        .ofLow Nat.two_pos (.ofNat 64 (ordinal.val + 1)), ⟨⟩)).toNat = 0b1010110 :=
  ⟨pack_bijective framePayload framePayload_wellFormed, by decide +kernel⟩

end PyCircuit.PackedLayout
