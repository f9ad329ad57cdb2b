import PyCircuit.Table.Parameter
import PyCircuit.Table.Shape

/-!
# Table views

A view reads the elements of a table in another shape: `reshape` keeps the row, `slice` keeps some
coordinates of each axis, `transpose` permutes the axes and `rotate` turns one axis. `viewShape`
checks the parameters and gives the shape of the result, and
`HardwareAnalysis::getViewSourceOrdinal` gives the element of the source that an element of the
result is. Its ordinals are 64-bit words.
-/

set_option autoImplicit false

namespace PyCircuit.Table

open Lib

/-- The kinds of views with their static parameters. -/
inductive View
  | reshape (shape : List Int)
  | slice (offsets sizes strides : List Int)
  | transpose (axes : List Int)
  | rotate (axis offset : Int)

/-! ## The shape of a view -/

/-- One list of parameters has an entry for each axis. -/
def rankSchema (values : List Int) (rank : Nat) : Except String Unit :=
  if values.length ≠ rank ∨ values = [] then .error "view parameter rank mismatch" else .ok ()

def viewSchema : View → Nat → Except String Unit
  | .reshape shape, _ =>
    if shape = [] then .error "view parameter rank mismatch" else .ok ()
  | .slice offsets sizes strides, rank => do
      rankSchema offsets rank
      rankSchema sizes rank
      rankSchema strides rank
  | .transpose axes, rank => rankSchema axes rank
  | .rotate _ _, _ => .ok ()

/-- The number of the elements as a 64-bit word. -/
def product (shape : List Nat) : Nat := shape.foldl (fun n x => n * x % 2 ^ 64) 1

/-- One axis of a slice: its last coordinate is computed in a width that holds the product. -/
def sliceExtent (extent : Nat) (offset size stride : Int) : Except String Nat :=
  if offset < 0 ∨ size < 0 ∨ size = 0 ∨ stride < 0 ∨ stride = 0 then
    .error "slice requires nonnegative offsets and positive sizes/strides"
  else
    let bits := max (max (max (bitWidth offset) (bitWidth size)) (bitWidth stride)) 65 * 2 + 1
    let last := extendInteger offset bits +
      (extendInteger size bits - .ofNat bits 1) * extendInteger stride bits
    if BitVec.ofNat bits extent ≤ last then .error "slice exceeds table extent"
    else getZExtValue (extendInteger size (bitWidth size))

def sliceShape : List Nat → List Int → List Int → List Int → Except String (List Nat)
  | [], _, _, _ => .ok []
  | extent :: extents, offset :: offsets, size :: sizes, stride :: strides => do
      let first ← sliceExtent extent offset size stride
      let rest ← sliceShape extents offsets sizes strides
      .ok (first :: rest)
  | _, _, _, _ => .error "index out of range"

/-- The loop over the axes of a transpose, with those already seen. -/
def transposeShape (extents : List Nat) : List Int → List Nat → Except String (List Nat)
  | [], _ => .ok []
  | axis :: axes, seen =>
    if axis < 0 ∨ extents.length ≤ axis.toNat ∨ axis.toNat ∈ seen then
      .error "transpose axes must be a rank permutation"
    else do
      let rest ← transposeShape extents axes (axis.toNat :: seen)
      .ok (extents.getD axis.toNat 0 :: rest)

def viewShape : View → List Nat → Except String (List Nat)
  | .reshape shape, extents => do
      let out ← resolveShape shape
      if product out ≠ product extents then .error "reshape must preserve element count"
      else .ok out
  | .slice offsets sizes strides, extents => sliceShape extents offsets sizes strides
  | .transpose axes, extents => do
      let axes ← vectorStatic axes
      transposeShape extents axes []
  | .rotate axis offset, extents => do
      let axis ← signedStatic axis
      if axis < 0 ∨ extents.length ≤ axis.toNat then .error "rotate axis out of range"
      else do
        let _ ← rotateOffset offset (extents.getD axis.toNat 0)
        .ok extents

/-! ## The source of an element -/

/-- The coordinates of an ordinal, from the last axis on, and what remains of the ordinal. -/
def delinearize : List Nat → Nat → List Nat × Nat
  | [], ordinal => ([], ordinal)
  | extent :: extents, ordinal =>
    let (coords, rest) := delinearize extents ordinal
    (rest % extent :: coords, rest / extent)

/-- The ordinal of some coordinates as a 64-bit word. -/
def linearize : List Nat → List Nat → Nat → Nat
  | extent :: extents, c :: coords, n => linearize extents coords ((n * extent + c) % 2 ^ 64)
  | _, _, n => n

def sliceCoordinate (offset stride : Int) (c : Nat) : Except String Nat :=
  let bits := max 65 (max (bitWidth offset) (bitWidth stride) + 64)
  getZExtValue (extendInteger offset bits + .ofNat bits c * extendInteger stride bits)

def sliceSource : List Nat → List Int → List Int → Except String (List Nat)
  | [], _, _ => .ok []
  | c :: coords, offset :: offsets, stride :: strides => do
      let first ← sliceCoordinate offset stride c
      let rest ← sliceSource coords offsets strides
      .ok (first :: rest)
  | _, _, _ => .error "index out of range"

/-- The writes of a transpose over the source coordinates. -/
def transposeSource : List Int → List Nat → List Nat → List Nat
  | axis :: axes, c :: coords, source => transposeSource axes coords (source.set axis.toNat c)
  | _, _, source => source

def viewSource : View → List Nat → List Nat → Except String (List Nat)
  | .reshape _, _, coords => .ok coords
  | .slice offsets _ strides, _, coords => sliceSource coords offsets strides
  | .transpose axes, _, coords => do
      let axes ← vectorStatic axes
      .ok (transposeSource axes coords coords)
  | .rotate axis offset, extents, coords => do
      let axis ← signedStatic axis
      if axis < 0 ∨ extents.length ≤ axis.toNat then .error "rotate axis out of range"
      else do
        let extent := extents.getD axis.toNat 0
        let shift ← rotateOffset offset extent
        .ok (coords.set axis.toNat ((coords.getD axis.toNat 0 + shift) % 2 ^ 64 % extent))

def getViewSourceOrdinal (view : View) (extents out : List Nat) (ordinal : Nat) :
    Except String Nat :=
  if product out ≤ ordinal then .error "view output ordinal out of range"
  else
    let coords := (delinearize out ordinal).1
    match view with
    | .reshape _ => .ok (linearize out coords 0)
    | view => do
        let source ← viewSource view extents coords
        .ok (linearize extents source 0)

/-! ## The mapping of coordinates -/

/-- The coordinates of the source: a slice starts at its offset and goes on by its stride, axis `i`
of a transpose is axis `axes[i]` of the source, and a rotation adds its offset to one coordinate,
modulo the extent. -/
def View.sourceCoordinates : View → List Nat → List Nat → List Nat
  | .reshape _, _, coords => coords
  | .slice offsets _ strides, _, coords =>
    coords.zipWith (fun c p => (p.1 + c * p.2).toNat) (offsets.zip strides)
  | .transpose axes, extents, coords =>
    (List.range extents.length).map fun (axis : Nat) => coords.getD (axes.idxOf (axis : Int)) 0
  | .rotate axis offset, extents, coords =>
    coords.set axis.toNat
      (((coords.getD axis.toNat 0 : Int) + offset) % (extents.getD axis.toNat 0 : Int)).toNat

/-- The ordinal in the source; a reshape keeps the ordinal. -/
def View.sourceOrdinal (view : View) (extents out : List Nat) (ordinal : Nat) : Nat :=
  match view with
  | .reshape _ => ordinal
  | view => RowMajor.ordinal extents
      (view.sourceCoordinates extents (RowMajor.coordinates out ordinal))

/-- A view that the verifier accepts on a table, with the shape of its result. -/
structure Accepted (view : View) (extents out : List Nat) : Prop where
  input : Valid extents
  schema : viewSchema view extents.length = .ok ()
  shape : viewShape view extents = .ok out

end PyCircuit.Table
