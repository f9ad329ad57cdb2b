import PyCircuit.Lib.Word
import Mathlib.Data.Fintype.Basic

/-!
# Owners and the commit of a write domain

An owner holds a value of a hardware type: bits, a record of named fields, or a table of elements. A
write domain of an owner is a list of selectors with a mask: a field selector goes into a record, an
index selector into every element of a table, where the mask has a bit for each element.

`compose` is the recursion of `materializeDomainCommit`, evaluated: it replaces the leaves of the
old value that the domains cover by those of the candidate, where the candidate is enabled and the
mask is one. `compose_read` is its meaning at each leaf.
-/

set_option autoImplicit false

namespace PyCircuit.Commit

open PyCircuit.Lib

/-! ## Types, values and leaves -/

/-- Hardware types. The fields of a record have different names. -/
inductive Ty where
  | leaf
  | struct (arity : Nat) (name : Fin arity → String) (distinct : Function.Injective name)
      (member : Fin arity → Ty)
  | table (size : Nat) (element : Ty)

/-- Values of a type. -/
inductive Value : Ty → Type where
  | leaf (bits : Word) : Value .leaf
  | struct {arity : Nat} {name : Fin arity → String} {distinct : Function.Injective name}
      {member : Fin arity → Ty} (fields : (i : Fin arity) → Value (member i)) :
      Value (.struct arity name distinct member)
  | table {size : Nat} {element : Ty} (elements : Fin size → Value element) :
      Value (.table size element)

def Value.bits : Value .leaf → Word
  | .leaf bits => bits

/-- `struct.get`. -/
def Value.field {arity : Nat} {name : Fin arity → String} {distinct : Function.Injective name}
    {member : Fin arity → Ty} :
    Value (.struct arity name distinct member) → (i : Fin arity) → Value (member i)
  | .struct fields => fields

def Value.element {size : Nat} {element : Ty} :
    Value (.table size element) → Fin size → Value element
  | .table elements => elements

/-- Positions of the leaves of a type. -/
inductive Leaf : Ty → Type where
  | here : Leaf .leaf
  | field {arity : Nat} {name : Fin arity → String} {distinct : Function.Injective name}
      {member : Fin arity → Ty} (i : Fin arity) (rest : Leaf (member i)) :
      Leaf (.struct arity name distinct member)
  | element {size : Nat} {element : Ty} (i : Fin size) (rest : Leaf element) :
      Leaf (.table size element)

def Leaf.read : {ty : Ty} → Leaf ty → Value ty → Word
  | _, .here, v => v.bits
  | _, .field i rest, v => rest.read (v.field i)
  | _, .element i rest, v => rest.read (v.element i)

/-- Values are determined by their leaves. -/
theorem Value.ext {ty : Ty} {v w : Value ty} (h : ∀ l : Leaf ty, l.read v = l.read w) : v = w := by
  induction v with
  | leaf bits =>
    cases w with
    | leaf bits' => exact congrArg Value.leaf (h .here)
  | struct fields ih =>
    cases w with
    | struct fields' =>
      congr 1
      funext i
      exact ih i fun l => h (.field i l)
  | table elements ih =>
    cases w with
    | table elements' =>
      congr 1
      funext i
      exact ih i fun l => h (.element i l)

/-- `value.merge` of a whole value. -/
def Value.merge (guard : Logic) : {ty : Ty} → Value ty → Value ty → Value ty
  | .leaf, value, base => .leaf (Word.select guard value.bits base.bits)
  | .struct _ _ _ _, value, base => .struct fun i => (value.field i).merge guard (base.field i)
  | .table _ _, value, base => .table fun i => (value.element i).merge guard (base.element i)

theorem read_merge {ty : Ty} (l : Leaf ty) (guard : Logic) (value base : Value ty) :
    l.read (value.merge guard base) = Word.select guard (l.read value) (l.read base) := by
  induction l with
  | here => rfl
  | field i rest ih => exact ih (value.field i) (base.field i)
  | element i rest ih => exact ih (value.element i) (base.element i)

/-! ## Write domains -/

inductive Selector where
  | field (name : String)
  | index
  deriving DecidableEq, Repr

/-- The parser of write domains: fields of records, and at most one index into a table, whose size
is the result. -/
def Ty.parse : Ty → List Selector → Option (Option Nat)
  | _, [] => some none
  | .struct arity name _ member, .field f :: rest =>
    match (List.finRange arity).find? fun i => name i = f with
    | some i => (member i).parse rest
    | none => none
  | .table size element, .index :: rest =>
    match element.parse rest with
    | some none => some (some size)
    | _ => none
  | _, _ => none

/-- The mask of a domain: one bit, or a bit for each element of the selected table. -/
inductive Mask where
  | bit (l : Logic)
  | table (bits : Nat → Logic)

/-- The mask in one element of a table; a single bit holds for every element. -/
def Mask.at : Mask → Nat → Mask
  | .bit l, _ => .bit l
  | .table bits, i => .bit (bits i)

/-- `DomainCommitUse`. -/
structure Use where
  path : List Selector
  mask : Mask

/-- The domains that reach a field of a record. -/
def fieldUses (uses : List Use) (name : String) : List Use :=
  uses.filterMap fun use =>
    match use.path with
    | [] => some use
    | .field f :: rest => if f = name then some ⟨rest, use.mask⟩ else none
    | .index :: _ => none

/-- A domain inside an element of a table, whose selector has to be an index. -/
def Use.inElement (use : Use) (i : Nat) : Option Use :=
  match use.path with
  | [] => some ⟨[], use.mask.at i⟩
  | .index :: rest => some ⟨rest, use.mask.at i⟩
  | .field _ :: _ => none

/-- The bit of a domain that has reached a leaf. -/
def Use.leafBit (use : Use) : Option Logic :=
  match use with
  | ⟨[], .bit l⟩ => some l
  | _ => none

def joinMasks (mask : Logic) : List Use → Option Logic
  | [] => some mask
  | use :: rest =>
    match use.leafBit with
    | some l => joinMasks (mask.or l) rest
    | none => none

/-- The masks of the domains at a leaf, joined by `or`. -/
def leafMask : List Use → Option Logic
  | [] => none
  | use :: rest =>
    match use.leafBit with
    | some l => joinMasks l rest
    | none => none

/-- One undivided domain of a table. -/
def wholeMask (uses : List Use) : Option Logic :=
  match uses with
  | [use] => use.leafBit
  | _ => none

/-- Parts of a value that are all there. -/
def gather {n : Nat} {F : Fin n → Type} (part : (i : Fin n) → Option (F i)) :
    Option ((i : Fin n) → F i) :=
  if h : ∀ i, (part i).isSome then some fun i => (part i).get (h i) else none

/-- `compose` of `materializeDomainCommit`. -/
def compose : (ty : Ty) → Nat → Value ty → Value ty → Logic → List Use → Option (Value ty)
  | .leaf, depth, base, candidate, enable, uses =>
    if depth > 128 then none
    else if uses.isEmpty then some base
    else (leafMask uses).map fun mask => candidate.merge (enable.and mask) base
  | .struct _ name _ member, depth, base, candidate, enable, uses =>
    if depth > 128 then none
    else if uses.isEmpty then some base
    else
      let fields := gather fun i =>
        if (fieldUses uses (name i)).isEmpty then some (base.field i)
        else compose (member i) (depth + 1) (base.field i) (candidate.field i) enable
          (fieldUses uses (name i))
      fields.map .struct
  | .table size element, depth, base, candidate, enable, uses =>
    if depth > 128 then none
    else if uses.isEmpty then some base
    else
      match wholeMask uses with
      | some mask => some (candidate.merge (enable.and mask) base)
      | none =>
        if size = 0 then none
        else
          let elements := gather fun i =>
            match uses.mapM fun use => use.inElement i with
            | some nested =>
              compose element (depth + 1) (base.element i) (candidate.element i) enable nested
            | none => none
          elements.map .table

/-- `materializeDomainCommit`: a candidate without domains writes the whole owner. -/
def materializeDomainCommit {ty : Ty} (previous current : Value ty) (enabled : Logic)
    (domains : List Use) : Option (Value ty) :=
  compose ty 0 previous current enabled
    (if domains.isEmpty then [⟨[], .bit (.ofBool true)⟩] else domains)

/-! ## Coverage -/

/-- The domain reaches the leaf, and its mask is one there. -/
def Leaf.covered : {ty : Ty} → Leaf ty → List Selector → Mask → Bool
  | _, .here, [], .bit l => l = .one
  | _, .here, _, _ => false
  | _, .field _ rest, [], mask => rest.covered [] mask
  | .struct _ name _ _, .field i rest, .field f :: path, mask =>
    name i = f && rest.covered path mask
  | _, .field _ _, .index :: _, _ => false
  | _, .element i rest, [], mask => rest.covered [] (mask.at i)
  | _, .element i rest, .index :: path, mask => rest.covered path (mask.at i)
  | _, .element _ _, .field _ :: _, _ => false

def Mask.Known : Mask → Prop
  | .bit l => l.Known
  | .table bits => ∀ i, (bits i).Known

theorem Mask.Known.at {mask : Mask} (h : mask.Known) (i : Nat) : (mask.at i).Known := by
  cases mask with
  | bit l => exact h
  | table bits => exact h i

variable {uses : List Use} {ty : Ty} {use : Use} {mask result l : Logic} {n depth size arity : Nat}
  {F : Fin n → Type} {part : (i : Fin n) → Option (F i)} {name : Fin arity → String}
  {distinct : Function.Injective name} {member : Fin arity → Ty}

/-- A domain without selectors covers every leaf where its bit is one. -/
theorem covered_whole (l : Leaf ty) (b : Logic) : l.covered [] (.bit b) = decide (b = .one) := by
  induction l with
  | here => rfl
  | field i rest ih | element i rest ih => exact ih

theorem gather_eq_some {v : (i : Fin n) → F i} (h : gather part = some v) (i : Fin n) :
    part i = some (v i) := by
  unfold gather at h
  split at h
  · next hall =>
    have hv := congrFun (Option.some.inj h) i
    rw [← hv]
    exact (Option.some_get _).symm
  · cases h

theorem gather_isSome : (gather part).isSome = true ↔ ∀ i, (part i).isSome = true := by
  unfold gather
  split
  · next hall => exact ⟨fun _ => hall, fun _ => rfl⟩
  · next hall => exact ⟨fun h => (nomatch h), fun h => absurd h hall⟩

theorem leafBit_eq_some (h : use.leafBit = some l) : use = ⟨[], .bit l⟩ := by
  unfold Use.leafBit at h
  split at h
  · obtain rfl := Option.some.inj h
    rfl
  · cases h

theorem leafBit_covered (h : use.leafBit = some l) :
    Leaf.here.covered use.path use.mask = decide (l = .one) := by
  rw [leafBit_eq_some h]
  rfl

theorem leafBit_known (h : use.leafBit = some l) (hknown : use.mask.Known) : l.Known := by
  rw [leafBit_eq_some h] at hknown
  exact hknown

theorem ofBool_decide_one (h : l.Known) : l = .ofBool (decide (l = .one)) := by
  rcases h with rfl | rfl <;> rfl

theorem joinMasks_eq {uses : List Use} (hmask : mask.Known) (hknown : ∀ use ∈ uses, use.mask.Known)
    (h : joinMasks mask uses = some result) :
    result = .ofBool (decide (mask = .one) ||
      uses.any fun use => Leaf.here.covered use.path use.mask) := by
  induction uses generalizing mask with
  | nil =>
    obtain rfl : mask = result := Option.some.inj h
    rw [List.any_nil, Bool.or_false]
    exact ofBool_decide_one hmask
  | cons use rest ih =>
    rw [joinMasks] at h
    cases hbit : use.leafBit with
    | none =>
      rw [hbit] at h
      cases h
    | some l =>
      rw [hbit] at h
      have hl := leafBit_known hbit (hknown use List.mem_cons_self)
      have hor : mask.or l = .ofBool (decide (mask = .one) || decide (l = .one)) := by
        rw [← Logic.or_ofBool, ← ofBool_decide_one hmask, ← ofBool_decide_one hl]
      have hor_known : (mask.or l).Known := by
        rw [hor]
        exact Logic.ofBool_known _
      rw [ih hor_known (List.forall_mem_cons.mp hknown).2 h,
        List.any_cons, leafBit_covered hbit, ← Bool.or_assoc]
      congr 2
      rw [hor]
      cases hm : (decide (mask = .one) || decide (l = .one)) <;> rfl

/-- The joined mask of a leaf is one exactly when some domain covers the leaf. -/
theorem leafMask_eq {uses : List Use} (hknown : ∀ use ∈ uses, use.mask.Known)
    (h : leafMask uses = some result) :
    result = .ofBool (uses.any fun use => Leaf.here.covered use.path use.mask) := by
  cases uses with
  | nil => cases h
  | cons use rest =>
    rw [leafMask] at h
    cases hbit : use.leafBit with
    | none =>
      rw [hbit] at h
      cases h
    | some l =>
      rw [hbit] at h
      have hl := leafBit_known hbit (hknown use List.mem_cons_self)
      rw [joinMasks_eq hl (List.forall_mem_cons.mp hknown).2 h,
        List.any_cons, leafBit_covered hbit]

theorem mem_fieldUses {uses : List Use} {name : String} {use : Use}
    (h : use ∈ fieldUses uses name) : ∃ outer ∈ uses, use.mask = outer.mask ∧
      (outer.path = [] ∧ use.path = [] ∨ outer.path = .field name :: use.path) := by
  obtain ⟨outer, houter, hsome⟩ := List.mem_filterMap.mp h
  refine ⟨outer, houter, ?_⟩
  split at hsome
  · next hpath =>
    obtain rfl : outer = use := Option.some.inj hsome
    exact ⟨rfl, Or.inl ⟨hpath, hpath⟩⟩
  · next f rest hpath =>
    split at hsome
    · next hf =>
      subst hf
      obtain rfl := Option.some.inj hsome
      exact ⟨rfl, Or.inr hpath⟩
    · cases hsome
  · cases hsome

/-- A leaf of a field is covered by the domains that reach the field. -/
theorem fieldUses_covered (i : Fin arity) (rest : Leaf (member i)) (uses : List Use) :
    ((fieldUses uses (name i)).any fun use => rest.covered use.path use.mask) =
      uses.any fun use =>
        (Leaf.field i rest : Leaf (.struct arity name distinct member)).covered use.path
          use.mask := by
  induction uses with
  | nil => rfl
  | cons use others ih =>
    obtain ⟨path, mask⟩ := use
    rw [fieldUses, List.filterMap_cons, List.any_cons, ← ih]
    cases path with
    | nil => rfl
    | cons selector path =>
      cases selector with
      | index => rfl
      | field f =>
        by_cases hf : f = name i
        · subst hf
          simp [fieldUses, Leaf.covered]
        · have hf' : ¬ name i = f := fun h => hf h.symm
          simp [fieldUses, Leaf.covered, hf, hf']

theorem inElement_eq_some {nested : Use} {i : Nat} (h : use.inElement i = some nested) :
    nested.mask = use.mask.at i ∧
      (use.path = [] ∧ nested.path = [] ∨ use.path = .index :: nested.path) := by
  unfold Use.inElement at h
  split at h
  · next hpath =>
    obtain rfl := Option.some.inj h
    exact ⟨rfl, Or.inl ⟨hpath, rfl⟩⟩
  · next rest hpath =>
    obtain rfl := Option.some.inj h
    exact ⟨rfl, Or.inr hpath⟩
  · cases h

theorem inElement_covered {element : Ty} (i : Fin size) (rest : Leaf element) {use nested : Use}
    (h : use.inElement i = some nested) :
    rest.covered nested.path nested.mask =
      (Leaf.element i rest : Leaf (.table size element)).covered use.path use.mask := by
  obtain ⟨hmask, ⟨hpath, hnil⟩ | hpath⟩ := inElement_eq_some h
  · rw [hmask, hpath, hnil, Leaf.covered]
  · rw [hmask, hpath, Leaf.covered]

/-- A leaf of an element is covered by the domains taken into the element. -/
theorem mapM_inElement {element : Ty} (i : Fin size) (rest : Leaf element) {uses nested : List Use}
    (h : (uses.mapM fun use => use.inElement i) = some nested) :
    ((nested.any fun use => rest.covered use.path use.mask) = uses.any fun use =>
        (Leaf.element i rest : Leaf (.table size element)).covered use.path use.mask) ∧
      ((∀ use ∈ uses, use.mask.Known) → ∀ use ∈ nested, use.mask.Known) := by
  induction uses generalizing nested with
  | nil =>
    obtain rfl : [] = nested := by simpa using h
    exact ⟨rfl, fun _ use hmem => nomatch hmem⟩
  | cons use others ih =>
    simp only [List.mapM_cons, Option.bind_eq_bind, Option.bind_eq_some_iff, Option.pure_def,
      Option.some.injEq] at h
    obtain ⟨first, hfirst, tail, htail, rfl⟩ := h
    obtain ⟨hcovered, hknown⟩ := ih htail
    refine ⟨?_, ?_⟩
    · rw [List.any_cons, List.any_cons, inElement_covered i rest hfirst, hcovered]
    · intro hall
      obtain ⟨huse, hothers⟩ := List.forall_mem_cons.mp hall
      refine List.forall_mem_cons.mpr ⟨?_, hknown hothers⟩
      rw [(inElement_eq_some hfirst).1]
      exact huse.at i

theorem wholeMask_eq_some (h : wholeMask uses = some mask) : uses = [⟨[], .bit mask⟩] := by
  unfold wholeMask at h
  split at h
  · rw [leafBit_eq_some h]
  · cases h

theorem select_guard (e c : Bool) (value base : Word) :
    Word.select ((Logic.ofBool e).and (.ofBool c)) value base = if e && c then value else base := by
  cases e <;> cases c <;> rfl

/-- The commit of known domains: a leaf takes the value of the candidate where the candidate is
enabled and a domain covers the leaf, and keeps its old value elsewhere. -/
theorem compose_read {base candidate v : Value ty} {e : Bool} {uses : List Use}
    (hknown : ∀ use ∈ uses, use.mask.Known)
    (h : compose ty depth base candidate (.ofBool e) uses = some v) (l : Leaf ty) :
    l.read v =
      if e && uses.any fun use => l.covered use.path use.mask then l.read candidate
      else l.read base := by
  induction l generalizing depth uses with
  | here =>
    rw [compose] at h
    split at h
    · cases h
    split at h
    · next hempty =>
      obtain rfl := Option.some.inj h
      simp [List.isEmpty_iff.mp hempty]
    obtain ⟨mask, hmask, rfl⟩ := Option.map_eq_some_iff.mp h
    rw [leafMask_eq hknown hmask, read_merge, select_guard]
  | @field arity name distinct member i rest ih =>
    rw [compose] at h
    split at h
    · cases h
    split at h
    · next hempty =>
      obtain rfl := Option.some.inj h
      simp [List.isEmpty_iff.mp hempty]
    obtain ⟨fields, hfields, rfl⟩ := Option.map_eq_some_iff.mp h
    have hi := gather_eq_some hfields i
    rw [← fieldUses_covered i rest uses]
    split at hi
    · next hnone =>
      obtain hv : base.field i = fields i := Option.some.inj hi
      rw [List.isEmpty_iff.mp hnone, List.any_nil, Bool.and_false,
        if_neg Bool.false_ne_true]
      show rest.read (fields i) = rest.read (base.field i)
      rw [hv]
    · refine ih ?_ hi
      intro use huse
      obtain ⟨outer, houter, hmask, -⟩ := mem_fieldUses huse
      rw [hmask]
      exact hknown outer houter
  | @element size element i rest ih =>
    rw [compose] at h
    split at h
    · cases h
    split at h
    · next hempty =>
      obtain rfl := Option.some.inj h
      simp [List.isEmpty_iff.mp hempty]
    split at h
    · next mask hwhole =>
      obtain rfl := Option.some.inj h
      obtain rfl := wholeMask_eq_some hwhole
      have hmask : mask.Known := hknown _ List.mem_cons_self
      rw [read_merge, List.any_cons, List.any_nil, Bool.or_false, covered_whole,
        ← select_guard, ← ofBool_decide_one hmask]
    split at h
    · cases h
    obtain ⟨elements, helements, rfl⟩ := Option.map_eq_some_iff.mp h
    have hi := gather_eq_some helements i
    split at hi
    · next nested hnested =>
      obtain ⟨hcover, hknown'⟩ := mapM_inElement i rest hnested
      rw [← hcover]
      exact ih (hknown' hknown) hi
    · cases hi

/-! ## Success -/

/-- Whether a commit succeeds does not depend on the values. -/
theorem compose_isSome_congr {base candidate base' candidate' : Value ty} {enable enable' : Logic}
    {uses : List Use} (h : (compose ty depth base candidate enable uses).isSome = true) :
    (compose ty depth base' candidate' enable' uses).isSome = true := by
  induction ty generalizing depth uses with
  | leaf =>
    rw [compose] at h ⊢
    split
    · next hdepth =>
      rw [if_pos hdepth] at h
      cases h
    · next hdepth =>
      rw [if_neg hdepth] at h
      split
      · rfl
      · next hempty =>
        rw [if_neg hempty, Option.isSome_map] at h
        rw [Option.isSome_map]
        exact h
  | struct arity name distinct member ih =>
    rw [compose] at h ⊢
    split
    · next hdepth =>
      rw [if_pos hdepth] at h
      cases h
    · next hdepth =>
      rw [if_neg hdepth] at h
      split
      · rfl
      · next hempty =>
        rw [if_neg hempty, Option.isSome_map, gather_isSome] at h
        rw [Option.isSome_map, gather_isSome]
        intro i
        have hi := h i
        split
        · rfl
        · next hsome =>
          rw [if_neg hsome] at hi
          exact ih i hi
  | table size element ih =>
    rw [compose] at h ⊢
    split
    · next hdepth =>
      rw [if_pos hdepth] at h
      cases h
    · next hdepth =>
      rw [if_neg hdepth] at h
      split
      · rfl
      · next hempty =>
        rw [if_neg hempty] at h
        split
        · rfl
        · next hwhole =>
          rw [hwhole] at h
          split
          · next hsize =>
            simp [hsize] at h
          · next hsize =>
            simp only [if_neg hsize] at h
            rw [Option.isSome_map, gather_isSome] at h ⊢
            intro i
            have hi := h i
            split
            · next nested hnested =>
              rw [hnested] at hi
              exact ih hi
            · next hnested =>
              rw [hnested] at hi
              cases hi

/-- The levels of a type fit the recursion bound, and its tables have elements. -/
def Ty.Fits : Ty → Nat → Prop
  | .leaf, depth => depth ≤ 128
  | .struct _ _ _ member, depth => depth ≤ 128 ∧ ∀ i, (member i).Fits (depth + 1)
  | .table size element, depth => depth ≤ 128 ∧ size ≠ 0 ∧ element.Fits (depth + 1)

/-- The selectors were parsed, and the mask has the shape that goes with them. -/
def Use.Valid (ty : Ty) (use : Use) : Prop :=
  match use.mask with
  | .bit _ => ty.parse use.path = some none
  | .table _ => ∃ size, ty.parse use.path = some (some size)

theorem Use.Valid.leafBit (h : use.Valid .leaf) : use.leafBit.isSome = true := by
  obtain ⟨path, mask⟩ := use
  cases path with
  | nil =>
    cases mask with
    | bit l => rfl
    | table bits =>
      obtain ⟨size, hsize⟩ := h
      cases hsize
  | cons selector rest =>
    cases mask with
    | bit l => cases selector <;> cases h
    | table bits =>
      obtain ⟨size, hsize⟩ := h
      cases selector <;> cases hsize

theorem joinMasks_isSome {uses : List Use} (h : ∀ use ∈ uses, use.Valid .leaf) (mask : Logic) :
    (joinMasks mask uses).isSome = true := by
  induction uses generalizing mask with
  | nil => rfl
  | cons use rest ih =>
    obtain ⟨l, hl⟩ := Option.isSome_iff_exists.mp (h use List.mem_cons_self).leafBit
    rw [joinMasks, hl]
    exact ih (List.forall_mem_cons.mp h).2 _

theorem leafMask_isSome {uses : List Use} (h : ∀ use ∈ uses, use.Valid .leaf)
    (hne : ¬ uses.isEmpty = true) : (leafMask uses).isSome = true := by
  cases uses with
  | nil => exact absurd rfl hne
  | cons use rest =>
    obtain ⟨l, hl⟩ := Option.isSome_iff_exists.mp (h use List.mem_cons_self).leafBit
    rw [leafMask, hl]
    exact joinMasks_isSome (List.forall_mem_cons.mp h).2 l

theorem parse_nil (ty : Ty) : ty.parse [] = some none := by
  cases ty <;> rfl

/-- The first field of a name is the field of that name. -/
theorem find_name (distinct : Function.Injective name) (i : Fin arity) :
    (List.finRange arity).find? (fun j => name j = name i) = some i := by
  cases hfind : (List.finRange arity).find? (fun j => name j = name i) with
  | none =>
    have hnone := List.find?_eq_none.mp hfind i (List.mem_finRange i)
    simp at hnone
  | some j =>
    have hj := List.find?_some hfind
    rw [distinct (of_decide_eq_true hj)]

theorem parse_field (distinct : Function.Injective name) (member : Fin arity → Ty) (i : Fin arity)
    (rest : List Selector) :
    (Ty.struct arity name distinct member).parse (.field (name i) :: rest) =
      (member i).parse rest := by
  rw [Ty.parse, find_name distinct i]

theorem Use.Valid.field {uses : List Use}
    (h : ∀ use ∈ uses, use.Valid (.struct arity name distinct member)) (i : Fin arity) {use : Use}
    (huse : use ∈ fieldUses uses (name i)) : use.Valid (member i) := by
  obtain ⟨outer, houter, hmask, hpath⟩ := mem_fieldUses huse
  have hvalid := h outer houter
  unfold Use.Valid at hvalid ⊢
  rw [hmask]
  rcases hpath with ⟨hnil, hnil'⟩ | hcons
  · rw [hnil, parse_nil] at hvalid
    rw [hnil', parse_nil]
    exact hvalid
  · rw [hcons, parse_field] at hvalid
    exact hvalid

theorem Use.Valid.inElement {element : Ty} {use : Use} (h : use.Valid (.table size element))
    (i : Nat) : ∃ nested, use.inElement i = some nested ∧ nested.Valid element := by
  obtain ⟨path, mask⟩ := use
  cases path with
  | nil =>
    refine ⟨⟨[], mask.at i⟩, rfl, ?_⟩
    cases mask with
    | bit l | table bits => exact parse_nil element
  | cons selector rest =>
    -- the rest of an indexed path has no index
    have hrest : selector = .index ∧ element.parse rest = some none := by
      cases selector with
      | field f =>
        cases mask with
        | bit l => cases h
        | table bits =>
          obtain ⟨_, hsome⟩ := h
          cases hsome
      | index =>
        refine ⟨rfl, ?_⟩
        have hparse : (Ty.table size element).parse (.index :: rest) ≠ none := by
          cases mask with
          | bit l =>
            intro hnone
            exact nomatch (Eq.symm h).trans hnone
          | table bits =>
            obtain ⟨_, hsome⟩ := h
            intro hnone
            exact nomatch hsome.symm.trans hnone
        rw [Ty.parse] at hparse
        split at hparse
        · next hnone => exact hnone
        · exact absurd rfl hparse
    obtain ⟨rfl, hrest⟩ := hrest
    refine ⟨⟨rest, mask.at i⟩, rfl, ?_⟩
    cases mask with
    | bit l | table bits => exact hrest

theorem mapM_inElement_valid {element : Ty} {uses : List Use}
    (h : ∀ use ∈ uses, use.Valid (.table size element)) (i : Nat) :
    ∃ nested, (uses.mapM fun use => use.inElement i) = some nested ∧
      ∀ use ∈ nested, use.Valid element := by
  induction uses with
  | nil => exact ⟨[], rfl, fun use hmem => nomatch hmem⟩
  | cons use rest ih =>
    obtain ⟨nested, hnested, hvalid⟩ := ih (List.forall_mem_cons.mp h).2
    obtain ⟨first, hfirst, hfirst'⟩ := (h use List.mem_cons_self).inElement i
    refine ⟨first :: nested, ?_, ?_⟩
    · simp [List.mapM_cons, hfirst, hnested]
    · exact List.forall_mem_cons.mpr ⟨hfirst', hvalid⟩

/-- The commit of parsed domains succeeds. -/
theorem compose_isSome (hfits : ty.Fits depth) (base candidate : Value ty) (enable : Logic)
    {uses : List Use} (h : ∀ use ∈ uses, use.Valid ty) :
    (compose ty depth base candidate enable uses).isSome = true := by
  induction ty generalizing depth uses with
  | leaf =>
    rw [compose, if_neg (Nat.not_lt.mpr hfits)]
    split
    · rfl
    · next hempty =>
      rw [Option.isSome_map]
      exact leafMask_isSome h hempty
  | struct arity name distinct member ih =>
    obtain ⟨hdepth, hmember⟩ := hfits
    rw [compose, if_neg (Nat.not_lt.mpr hdepth)]
    split
    · rfl
    · rw [Option.isSome_map, gather_isSome]
      intro i
      split
      · rfl
      · exact ih i (hmember i) _ _ fun use huse => Use.Valid.field h i huse
  | table size element ih =>
    obtain ⟨hdepth, hsize, helement⟩ := hfits
    rw [compose, if_neg (Nat.not_lt.mpr hdepth)]
    split
    · rfl
    · split
      · rfl
      · rw [Option.isSome_map, gather_isSome]
        intro i
        obtain ⟨nested, hnested, hvalid⟩ := mapM_inElement_valid h i
        rw [hnested]
        exact ih helement _ _ hvalid

end PyCircuit.Commit
