import PyCircuit.PackedLayout.Traits

/-!
# The compiler and the runtime agree on the packed layout

The payload of a type has the width of the type, and the packed value of a payload has in the slice
of every leaf the packed value that the path of the leaf leads to. In four states the leaves are
assigned slice by slice, and a table packs its three planes; both are read back unchanged.
-/

set_option autoImplicit false

namespace PyCircuit.PackedLayout

open Lib Gfsim Gfsim.FourState

/-! ## The payload of a type -/

/-- A table of payloads; the shapes of nested tables are concatenated. -/
def Payload.repeated (size : Nat) : Payload → Payload
  | .table inner element => .table (size * inner) element
  | .bits width => .table size (.bits width)
  | .struct members => .table size (.struct members)

mutual

/-- The payload that is emitted for a type. -/
def HwType.payload : HwType → Payload
  | .bits width => .bits width
  | .enumeration _ width => .struct (.cons (.bits width) .nil)
  | .table extents element => element.payload.repeated (RowMajor.size extents)
  | .record _ fields => .struct fields.members

def Fields.members : Fields → Members
  | .nil => .nil
  | .cons _ type rest => .cons type.payload rest.members

end

theorem Payload.width_repeated (size : Nat) (type : Payload) :
    (type.repeated size).width = size * type.width := by
  cases type with
  | bits width | struct members => rfl
  | table inner element => exact Nat.mul_assoc ..

theorem Payload.wellFormed_repeated {size : Nat} {type : Payload} (hsize : 0 < size)
    (h : type.WellFormed) : (type.repeated size).WellFormed := by
  cases type with
  | bits width | struct members => exact ⟨hsize, h⟩
  | table inner element => exact ⟨Nat.mul_pos hsize h.1, h.2⟩

mutual

theorem HwType.width_payload : ∀ type : HwType, type.payload.width = type.width
  | .bits _ => rfl
  | .enumeration _ _ => rfl
  | .table extents element => by
      rw [HwType.payload, Payload.width_repeated, element.width_payload, HwType.width]
  | .record _ fields => fields.width_members

theorem Fields.width_members : ∀ fields : Fields, fields.members.width = fields.width
  | .nil => rfl
  | .cons _ type rest => by
      rw [Fields.members, Members.width, type.width_payload, rest.width_members, Fields.width]

end

mutual

theorem HwType.width_pos : (type : HwType) → type.WellFormed → 0 < type.width
  | .bits _, h => h
  | .enumeration _ _, h => h
  | .table _ element, h => Nat.mul_pos (Valid.size_pos h.1) (element.width_pos h.2)
  | .record _ fields, h => fields.width_pos h.1 h.2.2

theorem Fields.width_pos : (fields : Fields) → fields ≠ .nil → fields.AllWellFormed →
    0 < fields.width
  | .nil, hne, _ => absurd rfl hne
  | .cons _ type rest, _, h => Nat.add_pos_left (type.width_pos h.1) rest.width

end

mutual

theorem HwType.payload_wellFormed : (type : HwType) → type.WellFormed → type.payload.WellFormed
  | .bits _, h => h
  | .enumeration _ _, h => ⟨h, h, trivial⟩
  | .table _ element, h =>
    Payload.wellFormed_repeated (Valid.size_pos h.1) (element.payload_wellFormed h.2)
  | .record _ fields, h =>
    ⟨fields.width_members.symm ▸ fields.width_pos h.1 h.2.2, fields.members_wellFormed h.2.2⟩

theorem Fields.members_wellFormed : (fields : Fields) → fields.AllWellFormed →
    fields.members.AllWellFormed
  | .nil, _ => trivial
  | .cons _ type rest, h => ⟨type.payload_wellFormed h.1, rest.members_wellFormed h.2⟩

end

/-! ## The value at a path -/

mutual

/-- The packed value that a path of field names leads to. -/
def HwType.valueAt : (type : HwType) → type.payload.WellFormed → type.payload.Value →
    List String → Option (Sigma Bits)
  | .record _ fields, h, value, name :: path => fields.valueAt h.2 value name path
  | .bits width, h, value, [] => some ⟨_, (HwType.bits width).payload.pack h value⟩
  | .enumeration name width, h, value, [] =>
    some ⟨_, (HwType.enumeration name width).payload.pack h value⟩
  | .table extents element, h, value, [] =>
    some ⟨_, (HwType.table extents element).payload.pack h value⟩
  | _, _, _, _ => none

def Fields.valueAt : (fields : Fields) → fields.members.AllWellFormed → fields.members.Values →
    String → List String → Option (Sigma Bits)
  | .nil, _, _, _, _ => none
  | .cons field type rest, h, value, name, path =>
    if field = name then type.valueAt h.1 value.1 path else rest.valueAt h.2 value.2 name path

end

/-- The slice of a leaf above `low` has the bits of a packed value. -/
def PackedLeaf.Holds (leaf : PackedLeaf) (low : Nat) (bit : Nat → Bool) (part : Sigma Bits) :
    Prop :=
  part.1 = leaf.width ∧ ∀ i, i < leaf.width → bit (leaf.low - low + i) = part.2.bit i

/-- A type that is one leaf. -/
theorem holds_whole {type : HwType} (h : type.payload.WellFormed) (value : type.payload.Value)
    (path : List String) (low : Nat) :
    PackedLeaf.Holds ⟨path, type, low, type.width⟩ low (type.payload.pack h value).bit
      ⟨_, type.payload.pack h value⟩ := by
  refine ⟨type.width_payload, fun i _ => ?_⟩
  rw [Nat.sub_self, Nat.zero_add]

mutual

/-- The path of a leaf leads to the value in its slice. -/
theorem HwType.holds (path : List String) (low : Nat) : (type : HwType) → type.WellFormed →
    (h : type.payload.WellFormed) → (value : type.payload.Value) →
    ∀ leaf ∈ type.leaves path low, ∃ suffix part, leaf.path = path ++ suffix ∧
      type.valueAt h value suffix = some part ∧
      leaf.Holds low (type.payload.pack h value).bit part
  | .bits width, _, h, value, leaf, hleaf => by
      obtain rfl := List.mem_singleton.mp hleaf
      exact ⟨[], _, (List.append_nil _).symm, rfl, holds_whole h value path low⟩
  | .enumeration name width, _, h, value, leaf, hleaf => by
      obtain rfl := List.mem_singleton.mp hleaf
      exact ⟨[], _, (List.append_nil _).symm, rfl, holds_whole h value path low⟩
  | .table extents element, _, h, value, leaf, hleaf => by
      obtain rfl := List.mem_singleton.mp hleaf
      exact ⟨[], _, (List.append_nil _).symm, rfl, holds_whole h value path low⟩
  | .record name fields, hwf, h, value, leaf, hleaf => by
      obtain ⟨field, suffix, part, -, hpath, hvalue, hwidth, hbits⟩ :=
        fields.holds path low hwf.2.1 hwf.2.2 h.2 value leaf hleaf
      refine ⟨field :: suffix, part, hpath, hvalue, hwidth, fun i hi => ?_⟩
      exact (Payload.bit_pack_struct fields.members h value _).trans (hbits i hi)

theorem Fields.holds (path : List String) (low : Nat) : (fields : Fields) →
    fields.names.Nodup → fields.AllWellFormed → (h : fields.members.AllWellFormed) →
    (value : fields.members.Values) →
    ∀ leaf ∈ fields.leaves path low, ∃ name suffix part, name ∈ fields.names ∧
      leaf.path = path ++ name :: suffix ∧ fields.valueAt h value name suffix = some part ∧
      leaf.Holds low (fields.members.fieldBit h value) part
  | .nil, _, _, _, _, leaf, hleaf => absurd hleaf List.not_mem_nil
  | .cons name type rest, hnames, hwf, h, value, leaf, hleaf => by
      obtain ⟨hfresh, hnodup⟩ := List.nodup_cons.mp hnames
      have hrestWidth : rest.members.width = rest.width := rest.width_members
      rw [Fields.leaves, List.mem_append] at hleaf
      rcases hleaf with hleaf | hleaf
      · -- the first field lies above the others
        obtain ⟨suffix, part, hpath, hvalue, hwidth, hbits⟩ :=
          type.holds (path ++ [name]) (low + rest.width) hwf.1 h.1 value.1 leaf hleaf
        obtain ⟨habove, -⟩ := (HwType.tiles _ _ type).within leaf hleaf
        refine ⟨name, suffix, part, List.mem_cons_self, ?_, ?_, hwidth, fun i hi => ?_⟩
        · rw [hpath, List.append_assoc]
          rfl
        · rw [Fields.valueAt, if_pos rfl]
          exact hvalue
        · have hle : rest.members.width ≤ leaf.low - low + i := by omega
          have hindex : leaf.low - low + i - rest.members.width =
              leaf.low - (low + rest.width) + i := by omega
          rw [← hbits i hi, ← hindex]
          exact if_pos hle
      · obtain ⟨field, suffix, part, hmem, hpath, hvalue, hwidth, hbits⟩ :=
          rest.holds path low hnodup hwf.2 h.2 value.2 leaf hleaf
        obtain ⟨hlow, hbelow⟩ := (Fields.tiles _ _ rest).within leaf hleaf
        have hne : name ≠ field := fun heq => hfresh (heq ▸ hmem)
        refine ⟨field, suffix, part, List.mem_cons_of_mem _ hmem, hpath, ?_, hwidth,
          fun i hi => ?_⟩
        · rw [Fields.valueAt, if_neg hne]
          exact hvalue
        · have hlt : ¬ rest.members.width ≤ leaf.low - low + i := by omega
          rw [← hbits i hi]
          exact if_neg hlt

end

/-! ## Four states -/

/-- The state of the wires of a leaf. -/
structure LeafState where
  leaf : PackedLeaf
  state : FourState leaf.width

/-- The assignment of a leaf to its slice of the wires of the whole value. -/
def LeafState.assign {width : Nat} (wire : FourState width) (part : LeafState) :
    FourState width :=
  if h : part.leaf.width ≤ width then wire.assignSlice h part.leaf.low part.state else wire

/-- The assignments of the leaves. -/
def assignLeaves {width : Nat} (wire : FourState width) (parts : List LeafState) :
    FourState width :=
  parts.foldl LeafState.assign wire

theorem LeafState.assign_bus {width : Nat} (wire : FourState width) {part : LeafState}
    (h : part.leaf.low + part.leaf.width ≤ width) :
    (part.assign wire).bus = wire.bus.setSlice part.leaf.low part.state.bus := by
  rw [LeafState.assign, dif_pos (Nat.le_of_add_left_le h)]
  exact assignSlice_bus wire h part.state

/-- Assignments below a slice leave it. -/
theorem slice_assignLeaves {width : Nat} {parts : List LeafState} {low high : Nat}
    (htiles : Tiles (parts.map LeafState.leaf) low high) (hhigh : high ≤ width) {other u : Nat}
    (hother : high ≤ other) (wire : FourState width) :
    (assignLeaves wire parts).bus.slice other u = wire.bus.slice other u := by
  induction parts generalizing high wire with
  | nil => rfl
  | cons part parts ih =>
    obtain ⟨htop, hrest⟩ := htiles
    have hle : part.leaf.low + part.leaf.width ≤ width := by omega
    have hstep := ih hrest (by omega) (by omega) (part.assign wire)
    rw [assignLeaves, List.foldl_cons, ← assignLeaves, hstep, LeafState.assign_bus wire hle]
    exact Bus.slice_setSlice_of_disjoint (.inr (by omega)) _ _

/-- Every leaf is read back from its slice. -/
theorem extract_assignLeaves {width : Nat} {parts : List LeafState} {low high : Nat}
    (htiles : Tiles (parts.map LeafState.leaf) low high) (hhigh : high ≤ width)
    (wire : FourState width) :
    ∀ part ∈ parts, Returns
      (FourState.extract part.state.value.positive (assignLeaves wire parts) part.leaf.low)
      part.state.bus := by
  induction parts generalizing high wire with
  | nil => exact fun part hpart => absurd hpart List.not_mem_nil
  | cons first parts ih =>
    obtain ⟨htop, hrest⟩ := htiles
    have hle : first.leaf.low + first.leaf.width ≤ width := by omega
    refine List.forall_mem_cons.mpr ⟨?_, ih hrest (by omega) (first.assign wire)⟩
    have hextract := extract_bus first.state.value.positive hle
      (assignLeaves wire (first :: parts))
    have hslice := slice_assignLeaves hrest (by omega) (Nat.le_refl first.leaf.low)
      (first.assign wire) (u := first.leaf.width)
    rw [assignLeaves, List.foldl_cons, ← assignLeaves, hslice, LeafState.assign_bus wire hle,
      Bus.slice_setSlice hle] at hextract
    exact hextract

/-- `wire<table>::packed`. -/
def packedTable {size width : Nat} (hsize : 0 < size) (hwidth : 0 < width)
    (lanes : Fin size → FourState width) : Except String (FourState (size * width)) :=
  fromMasks (packElements hsize hwidth fun i => (lanes i).value)
    (packElements hsize hwidth fun i => (lanes i).knownMask)
    (packElements hsize hwidth fun i => (lanes i).zMask)

/-- The lane of a bit of a packed table. -/
theorem exists_lane {size width i : Nat} (h : i < size * width) :
    ∃ (ordinal : Fin size) (k : Fin width), i = Bus.elementLow size width ordinal + k := by
  have hwidth : 0 < width := Nat.pos_of_lt_mul_left h
  have hrow : i / width < size := (Nat.div_lt_iff_lt_mul hwidth).mpr h
  have hsplit := (Nat.div_add_mod' i width).symm
  generalize i / width = row at hrow hsplit
  refine ⟨⟨size - 1 - row, by omega⟩, ⟨i % width, Nat.mod_lt i hwidth⟩, ?_⟩
  have hback : size - 1 - (size - 1 - row) = row := by omega
  rw [Bus.elementLow, hback]
  exact hsplit

/-- The lanes of a table are read back from its packed value. -/
theorem packedTable_returns {size width : Nat} (hsize : 0 < size) (hwidth : 0 < width)
    (lanes : Fin size → FourState width) :
    ∃ packed, packedTable hsize hwidth lanes = .ok packed ∧ ∀ ordinal : Fin size,
      Returns (FourState.extract hwidth packed (Bus.elementLow size width ordinal))
        (lanes ordinal).bus := by
  have hinvariant : invariantHolds (packElements hsize hwidth fun i => (lanes i).knownMask)
      (packElements hsize hwidth fun i => (lanes i).zMask) = true := by
    rw [invariantHolds_iff]
    intro i hi
    obtain ⟨ordinal, k, rfl⟩ := exists_lane hi
    rw [bit_packElements _ _ _ _ k.isLt, bit_packElements _ _ _ _ k.isLt]
    exact invariantHolds_iff.mp (lanes ordinal).invariant k k.isLt
  refine ⟨_, dif_pos hinvariant, fun ordinal => ?_⟩
  have hle := Bus.elementLow_le (w := width) ordinal.isLt
  refine Eq.subst ?_ (extract_bus hwidth hle _)
  funext k
  have hlt : Bus.elementLow size width ordinal + k.val < size * width := by omega
  rw [Bus.slice, dif_pos hlt, bus_apply, bus_apply]
  rw [bit_packElements _ _ _ _ k.isLt, bit_packElements _ _ _ _ k.isLt,
    bit_packElements _ _ _ _ k.isLt]

/-! ## Agreement -/

/-- For every well-formed type whose width is below `2^64` the compiler's leaves are those of the
declaration order, with the first field on top. They tile the packed value. The runtime accepts the
type when its width is below `2^32`; it packs the value of every leaf into the slice of the leaf,
and unpacking after packing is the identity. In four states the leaves that are assigned to their
slices, and the lanes of a packed table, are read back unchanged. -/
theorem layout_agreement {type : HwType} (hwf : type.WellFormed) (hwidth : type.width < 2 ^ 64) :
    ∃ leaves, getLeaves type = .ok leaves ∧ leaves = type.leaves [] 0 ∧
      getPackedWidth type = .ok type.width ∧ type.payload.width = type.width ∧
      (type.payload.Asserted ↔ type.width < 2 ^ 32) ∧
      (∀ leaf ∈ leaves, leaf.low + leaf.width ≤ type.width) ∧
      (leaves.Pairwise fun a b => b.low + b.width ≤ a.low) ∧
      (∀ i < type.width, ∃ leaf ∈ leaves, leaf.low ≤ i ∧ i < leaf.low + leaf.width) ∧
      (∀ value : type.payload.Value,
        (∀ leaf ∈ leaves, ∃ part,
          type.valueAt (type.payload_wellFormed hwf) value leaf.path = some part ∧
          part.1 = leaf.width ∧ ∀ i < leaf.width,
            (type.payload.pack (type.payload_wellFormed hwf) value).bit (leaf.low + i) =
              part.2.bit i) ∧
        type.payload.unpack (type.payload_wellFormed hwf)
          (type.payload.pack (type.payload_wellFormed hwf) value) = value) ∧
      (∀ (wire : FourState type.width) (parts : List LeafState),
        parts.map LeafState.leaf = leaves → ∀ part ∈ parts, Returns
          (FourState.extract part.state.value.positive (assignLeaves wire parts) part.leaf.low)
          part.state.bus) ∧
      ∀ {size width : Nat} (hsize : 0 < size) (hlane : 0 < width)
        (lanes : Fin size → FourState width),
        ∃ packed, packedTable hsize hlane lanes = .ok packed ∧ ∀ ordinal : Fin size,
          Returns (FourState.extract hlane packed (Bus.elementLow size width ordinal))
            (lanes ordinal).bus := by
  have htiles := HwType.tiles [] 0 type
  rw [Nat.zero_add] at htiles
  refine ⟨_, getLeaves_eq hwf hwidth, rfl, getPackedWidth_eq hwf hwidth, type.width_payload, ?_,
    fun leaf hleaf => (htiles.within leaf hleaf).2, htiles.descending,
    fun i hi => htiles.covers (Nat.zero_le i) hi, fun value => ⟨fun leaf hleaf => ?_, ?_⟩,
    fun wire parts hparts => ?_, packedTable_returns⟩
  · rw [Payload.asserted_iff, type.width_payload, and_iff_right (type.payload_wellFormed hwf)]
  · obtain ⟨suffix, part, hpath, hvalue, hpart, hbits⟩ :=
      type.holds [] 0 hwf (type.payload_wellFormed hwf) value leaf hleaf
    rw [hpath]
    refine ⟨part, hvalue, hpart, fun i hi => ?_⟩
    have hbit := hbits i hi
    rwa [Nat.sub_zero] at hbit
  · exact type.payload.unpack_pack _ value
  · rw [← hparts] at htiles
    exact extract_assignLeaves htiles le_rfl wire

/-- A packet of a flag above a pair of bytes. -/
def packetType : HwType :=
  .record "packet" (.cons "valid" (.bits 1) (.cons "data" (.table [2] (.bits 8)) .nil))

theorem layout_agreement_packet : getLeaves packetType =
    .ok [⟨["valid"], .bits 1, 16, 1⟩, ⟨["data"], .table [2] (.bits 8), 0, 16⟩] := by
  have hbytes : Table.Valid [2] := ⟨by decide, by decide, by decide⟩
  have hwf : packetType.WellFormed :=
    ⟨by decide, by decide, Nat.one_pos, ⟨hbytes, Nat.zero_lt_succ 7⟩, trivial⟩
  obtain ⟨leaves, hleaves, rfl, -⟩ := layout_agreement hwf (by decide)
  exact hleaves

end PyCircuit.PackedLayout
