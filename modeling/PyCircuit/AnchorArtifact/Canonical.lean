import Mathlib.Data.List.Lex
import Mathlib.Data.List.Sort
import PyCircuit.Lib.Decimal
import PyCircuit.Lib.Hex

/-!
# Canonical texts of anchor descriptions

`canonical` of `AnchorArtifact.cpp` writes a JSON value without blanks and with sorted keys; the
identity of an anchor is the hash of that text. The text of a value is read back without a doubt:
two values have one text exactly when they differ in the order of object keys only.

JSON v1 has strings, integers, arrays and objects. On null, booleans and fractions, which it does
not have, `canonical` fails.
-/

set_option autoImplicit false

namespace PyCircuit.AnchorArtifact

open PyCircuit.Lib

/-! ## The encoder -/

abbrev Text : Type := List UInt8

/-- Values of JSON v1; the fields of an object in the order in which its map lists them. -/
inductive Json where
  | string (text : Text)
  | integer (value : Int)
  | array (items : List Json)
  | object (fields : List (Text × Json))

abbrev Field : Type := Text × Json

/-- One byte of a quoted text. -/
def escape (c : UInt8) : Text :=
  if c = 34 then [92, 34]
  else if c = 92 then [92, 92]
  else if c = 8 then [92, 98]
  else if c = 12 then [92, 102]
  else if c = 10 then [92, 110]
  else if c = 13 then [92, 114]
  else if c = 9 then [92, 116]
  else if c < 32 then [92, 117, 48, 48] ++ hexPair c
  else [c]

def quote (text : Text) : Text := 34 :: text.flatMap escape ++ [34]

/-- The fields as `std::map` lists them, by the bytes of their names. -/
def sortFields {β : Type} (fields : List (Text × β)) : List (Text × β) :=
  fields.insertionSort fun a b => a.1.map UInt8.toNat ≤ b.1.map UInt8.toNat

/-- A text is appended, after a comma unless it is the first. -/
def appendText (out text : Text) : Text :=
  (if out.length > 1 then out ++ [44] else out) ++ text

def fieldText (field : Text × Text) : Text := quote field.1 ++ 58 :: field.2

/-- What a recursion over a value does in each case. -/
structure Cases (β : Type) where
  string : Text → β
  integer : Int → β
  array : List β → β
  object : List (Text × β) → β

mutual
/-- The recursion, with the results for the items of arrays and objects. -/
def Json.fold {β : Type} (c : Cases β) : Json → β
  | .string text => c.string text
  | .integer value => c.integer value
  | .array items => c.array (foldItems c items)
  | .object fields => c.object (foldFields c fields)
def foldItems {β : Type} (c : Cases β) : List Json → List β
  | [] => []
  | item :: items => item.fold c :: foldItems c items
def foldFields {β : Type} (c : Cases β) : List Field → List (Text × β)
  | [] => []
  | (name, item) :: fields => (name, item.fold c) :: foldFields c fields
end

def canonical : Json → Text :=
  Json.fold
    { string := quote
      integer := decimal
      array := fun texts => texts.foldl appendText [91] ++ [93]
      object := fun fields => ((sortFields fields).map fieldText).foldl appendText [123] ++ [125] }

/-! ## Values up to the order of keys -/

/-- The second value is the first one with the fields of some objects in another order. -/
inductive Reordered : Json → Json → Prop
  | refl (v : Json) : Reordered v v
  | trans {u v w : Json} : Reordered u v → Reordered v w → Reordered u w
  | item {v w : Json} (before after : List Json) : Reordered v w →
      Reordered (.array (before ++ v :: after)) (.array (before ++ w :: after))
  | field {v w : Json} (name : Text) (before after : List Field) :
      Reordered v w →
      Reordered (.object (before ++ (name, v) :: after)) (.object (before ++ (name, w) :: after))
  | fields {fs gs : List Field} : fs.Perm gs → Reordered (.object fs) (.object gs)

/-- Every object has distinct keys. -/
inductive Distinct : Json → Prop
  | string (text : Text) : Distinct (.string text)
  | integer (value : Int) : Distinct (.integer value)
  | array {items : List Json} : (∀ v ∈ items, Distinct v) → Distinct (.array items)
  | object {fields : List Field} : (fields.map Prod.fst).Nodup →
      (∀ p ∈ fields, Distinct p.2) → Distinct (.object fields)

variable {β : Type} (c : Cases β) {v w : Json} {r r' : Text}

theorem Json.induct {P : Json → Prop} (string : ∀ text, P (.string text))
    (integer : ∀ value, P (.integer value))
    (array : ∀ items, (∀ v ∈ items, P v) → P (.array items))
    (object : ∀ fields, (∀ p ∈ fields, P p.2) → P (.object fields)) (v : Json) : P v := by
  refine @Json.rec P (fun items => ∀ v ∈ items, P v) (fun fields => ∀ p ∈ fields, P p.2)
    (fun p => P p.2) string integer array object ?_ ?_ ?_ ?_ (fun _ _ h => h) v
  · simp
  · simp_all
  · simp
  · simp_all

theorem fold_array (items : List Json) :
    (Json.array items).fold c = c.array (items.map (Json.fold c)) := by
  have hitems : foldItems c items = items.map (Json.fold c) := by
    induction items with
    | nil => rw [foldItems, List.map_nil]
    | cons v items ih => rw [foldItems, List.map_cons, ih]
  rw [Json.fold, hitems]

theorem fold_object (fields : List Field) :
    (Json.object fields).fold c = c.object (fields.map fun p => (p.1, p.2.fold c)) := by
  have hfields : foldFields c fields = fields.map fun p => (p.1, p.2.fold c) := by
    induction fields with
    | nil => rw [foldFields, List.map_nil]
    | cons p fields ih => rw [foldFields, List.map_cons, ih]
  rw [Json.fold, hfields]

/-! ## Quoted texts -/

/-- The first byte of a quoted text; none at the closing quote. -/
def unescape : Text → Option (UInt8 × Text)
  | [] => none
  | c :: rest =>
    if c = 34 then none
    else if c = 92 then
      match rest with
      | [] => none
      | d :: rest =>
        if d = 117 then some (hexValue (rest.getD 2 0) * 16 + hexValue (rest.getD 3 0), rest.drop 4)
        else if d = 98 then some (8, rest)
        else if d = 102 then some (12, rest)
        else if d = 110 then some (10, rest)
        else if d = 114 then some (13, rest)
        else if d = 116 then some (9, rest)
        else some (d, rest)
    else some (c, rest)

theorem unescape_escape (c : UInt8) (rest : Text) :
    unescape (escape c ++ rest) = some (c, rest) := by
  rw [escape]
  split_ifs with h₁ h₂ h₃ h₄ h₅ h₆ h₇ h₈
  · rw [h₁]; rfl
  · rw [h₂]; rfl
  · rw [h₃]; rfl
  · rw [h₄]; rfl
  · rw [h₅]; rfl
  · rw [h₆]; rfl
  · rw [h₇]; rfl
  · simp [unescape, hexPair, hexValue_hexPair]
  · simp [unescape, h₁, h₂]

theorem quote_cancel {s t : Text} (h : quote s ++ r = quote t ++ r') :
    s = t ∧ r = r' := by
  replace h : s.flatMap escape ++ 34 :: r = t.flatMap escape ++ 34 :: r' := by
    simpa [quote] using h
  induction s generalizing t with
  | nil =>
    cases t with
    | nil => simpa using h
    | cons b t =>
      have hread := congrArg unescape h
      rw [List.flatMap_cons, List.append_assoc, unescape_escape] at hread
      cases hread
  | cons a s ih =>
    have hread := congrArg unescape h
    rw [List.flatMap_cons, List.append_assoc, unescape_escape] at hread
    cases t with
    | nil => cases hread
    | cons b t =>
      rw [List.flatMap_cons, List.append_assoc, unescape_escape] at hread
      obtain ⟨rfl, hrest⟩ := Prod.mk.inj (Option.some.inj hread)
      obtain ⟨rfl, hr⟩ := ih hrest
      exact ⟨rfl, hr⟩

/-! ## The text of a value in its own order -/

/-- The texts with commas between them. -/
def joined : List Text → Text
  | [] => []
  | text :: texts => text ++ texts.flatMap (44 :: ·)

theorem foldl_appendText {texts : List Text} (c : UInt8) (h : [] ∉ texts) :
    texts.foldl appendText [c] = c :: joined texts := by
  have hlong : ∀ (texts : List Text) (out : Text), 1 < out.length →
      texts.foldl appendText out = out ++ texts.flatMap (44 :: ·) := by
    intro texts
    induction texts with
    | nil => simp
    | cons text texts ih =>
      intro out hout
      rw [List.foldl_cons, appendText, if_pos hout, ih _ (by simp; omega)]
      simp
  cases texts with
  | nil => rfl
  | cons text texts =>
    have htext : text ≠ [] := fun heq => h (heq ▸ List.mem_cons_self)
    rw [List.foldl_cons, appendText, if_neg (by simp), hlong _ _ (by
      simpa using List.length_pos_of_ne_nil htext)]
    rfl

/-- The text with the fields of every object in the order of the value. -/
def print : Json → Text :=
  Json.fold
    { string := quote
      integer := decimal
      array := fun texts => 91 :: joined texts ++ [93]
      object := fun fields => 123 :: joined (fields.map fieldText) ++ [125] }

theorem print_array (items : List Json) :
    print (.array items) = 91 :: joined (items.map print) ++ [93] := fold_array _ items

theorem print_object (fields : List Field) :
    print (.object fields) =
      123 :: joined (fields.map fun p => fieldText (p.1, print p.2)) ++ [125] := by
  refine (fold_object _ fields).trans ?_
  dsimp only
  rw [List.map_map]
  rfl

/-- What the first byte of a text tells. -/
def Json.kind : Json → Nat
  | .string _ => 0
  | .integer _ => 1
  | .array _ => 2
  | .object _ => 3

def firstKind (b : UInt8) : Nat :=
  if b = 34 then 0 else if b = 91 then 2 else if b = 123 then 3 else 1

theorem decimal_head (n : Int) : ∃ b t, decimal n = b :: t ∧ (b = 45 ∨ isDecimal b = true) := by
  cases n with
  | ofNat n =>
    obtain ⟨b, t, ht⟩ := List.exists_cons_of_ne_nil (digits_ne_nil n)
    exact ⟨b, t, ht, .inr (isDecimal_of_mem (ht ▸ List.mem_cons_self))⟩
  | negSucc n => exact ⟨45, _, rfl, .inl rfl⟩

theorem firstKind_decimal (b : UInt8) (h : b = 45 ∨ isDecimal b = true) :
    firstKind b = 1 ∧ b ≠ 93 ∧ b ≠ 125 := by
  revert b
  exact forall_byte (by decide +kernel)

/-- The first byte tells the kind of the value, and closes nothing. -/
theorem print_head (v : Json) :
    ∃ b t, print v = b :: t ∧ firstKind b = v.kind ∧ b ≠ 93 ∧ b ≠ 125 := by
  cases v with
  | string text => exact ⟨34, _, rfl, rfl, by decide, by decide⟩
  | integer n =>
    obtain ⟨b, t, ht, hb⟩ := decimal_head n
    exact ⟨b, t, ht, firstKind_decimal b hb⟩
  | array items => exact ⟨91, _, print_array items, rfl, by decide, by decide⟩
  | object fields => exact ⟨123, _, print_object fields, rfl, by decide, by decide⟩

/-- What follows a value does not go on with a digit. -/
def Ends (r : Text) : Prop := ∀ b ∈ r.head?, isDecimal b = false

theorem decimal_cancel {m n : Int} (hr : Ends r) (hr' : Ends r')
    (h : decimal m ++ r = decimal n ++ r') : m = n ∧ r = r' := by
  have hsign : ∀ {k : Nat} {s : Text}, digits k ++ r ≠ 45 :: s ∧ digits k ++ r' ≠ 45 :: s := by
    intro k s
    obtain ⟨b, t, ht⟩ := List.exists_cons_of_ne_nil (digits_ne_nil k)
    have hb : isDecimal b = true := isDecimal_of_mem (n := k) (ht ▸ List.mem_cons_self)
    rw [ht]
    constructor <;> rintro heq <;> (obtain rfl := (List.cons.inj heq).1; cases hb)
  cases m with
  | ofNat m =>
    cases n with
    | ofNat n =>
      obtain ⟨rfl, hrest⟩ := digits_cancel hr hr' h
      exact ⟨rfl, hrest⟩
    | negSucc n => exact absurd h hsign.1
  | negSucc m =>
    cases n with
    | ofNat n => exact absurd h.symm hsign.2
    | negSucc n =>
      obtain ⟨hmn, hrest⟩ := digits_cancel hr hr' (List.cons.inj h).2
      exact ⟨by rw [Nat.succ.inj hmn], hrest⟩

theorem ends_tail (texts : List Text) {c : UInt8} (hc : isDecimal c = false)
    (r : Text) : Ends (texts.flatMap (44 :: ·) ++ c :: r) := by
  cases texts with
  | nil => simpa [Ends] using hc
  | cons text texts => simp [Ends, isDecimal]

/-- The text of `x` is that of nothing else, whatever follows it. -/
def Cuts {α : Type} (f : α → Text) (x : α) : Prop :=
  ∀ (y : α) (s s' : Text), Ends s → Ends s' → f x ++ s = f y ++ s' → x = y ∧ s = s'

section Texts

variable {α : Type} {f : α → Text} {xs ys : List α} {c : UInt8}

theorem tail_cancel (hcut : ∀ x ∈ xs, Cuts f x) (hc : isDecimal c = false) (hcomma : c ≠ 44)
    (h : (xs.map f).flatMap (44 :: ·) ++ c :: r = (ys.map f).flatMap (44 :: ·) ++ c :: r') :
    xs = ys ∧ r = r' := by
  induction xs generalizing ys with
  | nil =>
    cases ys with
    | nil => simpa using h
    | cons y ys => exact absurd (List.cons.inj h).1 hcomma
  | cons x xs ih =>
    cases ys with
    | nil => exact absurd (List.cons.inj h).1.symm hcomma
    | cons y ys =>
      simp only [List.map_cons, List.flatMap_cons, List.cons_append, List.append_assoc,
        List.cons.injEq, true_and] at h
      obtain ⟨rfl, hrest⟩ := hcut x List.mem_cons_self y _ _ (ends_tail _ hc _) (ends_tail _ hc _) h
      obtain ⟨rfl, hr⟩ := ih (List.forall_mem_cons.mp hcut).2 hrest
      exact ⟨rfl, hr⟩

/-- Joined texts, none of which begins with the closing byte. -/
theorem joined_cancel (hcut : ∀ x ∈ xs, Cuts f x) (hc : isDecimal c = false) (hcomma : c ≠ 44)
    (hhead : ∀ x s s', f x ++ s ≠ c :: s')
    (h : joined (xs.map f) ++ c :: r = joined (ys.map f) ++ c :: r') : xs = ys ∧ r = r' := by
  cases xs with
  | nil =>
    cases ys with
    | nil => simpa [joined] using h
    | cons y ys => exact absurd h.symm (by simpa [joined] using hhead y _ _)
  | cons x xs =>
    cases ys with
    | nil => exact absurd h (by simpa [joined] using hhead x _ _)
    | cons y ys => exact tail_cancel hcut hc hcomma (by simpa [joined] using h)

end Texts

theorem kind_eq (h : print v ++ r = print w ++ r') : v.kind = w.kind := by
  obtain ⟨b, s, hv, hkind, -⟩ := print_head v
  obtain ⟨b', s', hw, hkind', -⟩ := print_head w
  rw [hv, hw] at h
  rw [← hkind, ← hkind', (List.cons.inj h).1]

/-- A text is the text of one value. -/
theorem print_cuts (v : Json) : Cuts print v := by
  induction v using Json.induct with
  | string text =>
    intro w r r' _ _ h
    cases w with
    | string text' =>
      obtain ⟨rfl, hrest⟩ := quote_cancel h
      exact ⟨rfl, hrest⟩
    | _ => cases kind_eq h
  | integer n =>
    intro w r r' hr hr' h
    cases w with
    | integer n' =>
      obtain ⟨rfl, hrest⟩ := decimal_cancel hr hr' h
      exact ⟨rfl, hrest⟩
    | _ => cases kind_eq h
  | array items ih =>
    intro w r r' _ _ h
    cases w with
    | array items' =>
      simp only [print_array, List.cons_append, List.append_assoc, List.cons.injEq, true_and,
        List.nil_append] at h
      have hhead : ∀ (x : Json) (s s' : Text), print x ++ s ≠ 93 :: s' := by
        intro x s s' heq
        obtain ⟨b, t, hx, -, hb, -⟩ := print_head x
        rw [hx] at heq
        exact hb (List.cons.inj heq).1
      obtain ⟨rfl, hrest⟩ := joined_cancel ih (by decide) (by decide) hhead h
      exact ⟨rfl, hrest⟩
    | _ => cases kind_eq h
  | object fields ih =>
    intro w r r' _ _ h
    cases w with
    | object fields' =>
      simp only [print_object, List.cons_append, List.append_assoc, List.cons.injEq, true_and,
        List.nil_append] at h
      have hcut : ∀ x ∈ fields, Cuts (fun p => fieldText (p.1, print p.2)) x := by
        intro x hx y s s' hs hs' heq
        simp only [fieldText, List.append_assoc, List.cons_append] at heq
        obtain ⟨hname, hvalue⟩ := quote_cancel heq
        obtain ⟨hitem, hrest⟩ := ih x hx y.2 s s' hs hs' (List.cons.inj hvalue).2
        exact ⟨Prod.ext hname hitem, hrest⟩
      obtain ⟨rfl, hrest⟩ := joined_cancel hcut (by decide) (by decide)
        (by simp [fieldText, quote]) h
      exact ⟨rfl, hrest⟩
    | _ => cases kind_eq h

/-! ## Sorted fields -/

/-- The value with the fields of every object in the order of their names. -/
def normalize : Json → Json :=
  Json.fold ⟨.string, .integer, .array, fun fields => .object (sortFields fields)⟩

theorem normalize_array (items : List Json) :
    normalize (.array items) = .array (items.map normalize) := fold_array _ items

theorem normalize_object (fields : List Field) :
    normalize (.object fields) = .object (sortFields (fields.map fun p => (p.1, normalize p.2))) :=
  fold_object _ fields

theorem print_ne_nil (v : Json) : print v ≠ [] := by
  obtain ⟨b, t, hv, -⟩ := print_head v
  simp [hv]

/-- The canonical text is the text of the normal form. -/
theorem canonical_eq (v : Json) : canonical v = print (normalize v) := by
  induction v using Json.induct with
  | string text | integer value => rfl
  | array items ih =>
    have hitems : items.map canonical = (items.map normalize).map print := by
      rw [List.map_map]
      exact List.map_congr_left ih
    rw [normalize_array, print_array, ← hitems, canonical, fold_array, ← canonical]
    dsimp only
    rw [foldl_appendText, hitems]
    simp [print_ne_nil, hitems]
  | object fields ih =>
    have hfields : (fields.map fun p => (p.1, normalize p.2)).map (fun p => (p.1, print p.2)) =
        fields.map fun p => (p.1, canonical p.2) := by
      rw [List.map_map]
      exact List.map_congr_left fun p hp => by rw [ih p hp]; rfl
    have hsort := List.map_insertionSort
      (fun a b : Text × Json => a.1.map UInt8.toNat ≤ b.1.map UInt8.toNat)
      (fun a b : Text × Text => a.1.map UInt8.toNat ≤ b.1.map UInt8.toNat)
      (fun p => (p.1, print p.2)) (fields.map fun p => (p.1, normalize p.2))
      fun _ _ _ _ => Iff.rfl
    rw [hfields] at hsort
    rw [normalize_object, print_object, canonical, fold_object, ← canonical]
    dsimp only
    rw [sortFields, ← hsort, List.map_map, foldl_appendText]
    · rfl
    · simp [fieldText, quote]

theorem Reordered.symm (h : Reordered v w) : Reordered w v := by
  induction h with
  | refl v => exact .refl v
  | trans _ _ ih ih' => exact ih'.trans ih
  | item before after _ ih => exact .item before after ih
  | field name before after _ ih => exact .field name before after ih
  | fields hperm => exact .fields hperm.symm

/-- Elements that are replaced one after the other. -/
theorem reordered_map {α : Type} {C : List α → Json} {R : α → α → Prop} {f : α → α}
    (hC : ∀ before after x y, R x y →
      Reordered (C (before ++ x :: after)) (C (before ++ y :: after)))
    (xs before : List α) (h : ∀ x ∈ xs, R x (f x)) :
    Reordered (C (before ++ xs)) (C (before ++ xs.map f)) := by
  induction xs generalizing before with
  | nil => exact .refl _
  | cons x xs ih =>
    have hrest := ih (before ++ [f x]) (List.forall_mem_cons.mp h).2
    simp only [List.append_assoc, List.singleton_append] at hrest
    exact (hC before xs x (f x) (h x List.mem_cons_self)).trans hrest

theorem reordered_normalize (v : Json) : Reordered v (normalize v) := by
  induction v using Json.induct with
  | string text | integer value => exact .refl _
  | array items ih =>
    rw [normalize_array]
    exact reordered_map (fun before after _ _ => .item before after) items [] ih
  | object fields ih =>
    have hfields := reordered_map (C := .object) (R := fun p q => p.1 = q.1 ∧ Reordered p.2 q.2)
      (f := fun p => (p.1, normalize p.2)) (fun before after x y hxy => ?_) fields []
      fun p hp => ⟨rfl, ih p hp⟩
    · rw [normalize_object]
      exact hfields.trans (.fields (List.perm_insertionSort ..).symm)
    · obtain ⟨name, x⟩ := x
      obtain ⟨name', y⟩ := y
      obtain ⟨rfl, hxy⟩ := hxy
      exact .field name before after hxy

/-- Fields with distinct names have one order. -/
theorem sortFields_perm {fs gs : List Field} (h : fs.Perm gs)
    (hnodup : (fs.map Prod.fst).Nodup) : sortFields fs = sortFields gs := by
  let r : Text × Json → Text × Json → Prop :=
    fun a b => a.1.map UInt8.toNat ≤ b.1.map UInt8.toNat
  have : Std.Total r := ⟨fun a b => le_total _ _⟩
  have : IsTrans _ r := ⟨fun a b c => le_trans⟩
  apply @List.Perm.eq_of_pairwise _ r _ _ _ (List.pairwise_insertionSort r fs)
    (List.pairwise_insertionSort r gs)
    ((List.perm_insertionSort r fs).trans (h.trans (List.perm_insertionSort r gs).symm))
  intro a b ha hb hab hba
  have hname : a.1 = b.1 :=
    List.map_injective_iff.mpr (fun _ _ => UInt8.toNat_inj.mp) (le_antisymm hab hba)
  have ha : a ∈ fs := (List.perm_insertionSort r fs).mem_iff.mp ha
  have hb : b ∈ fs := h.mem_iff.mpr ((List.perm_insertionSort r gs).mem_iff.mp hb)
  exact List.inj_on_of_nodup_map hnodup ha hb hname

theorem Reordered.normalize_eq (h : Reordered v w) (hv : Distinct v) :
    Distinct w ∧ normalize v = normalize w := by
  induction h with
  | refl v => exact ⟨hv, rfl⟩
  | trans _ _ ih ih' =>
    obtain ⟨hmid, heq⟩ := ih hv
    obtain ⟨hw, heq'⟩ := ih' hmid
    exact ⟨hw, heq.trans heq'⟩
  | item before after _ ih =>
    cases hv with
    | array hitems =>
      simp only [List.forall_mem_append, List.forall_mem_cons] at hitems
      obtain ⟨hw, heq⟩ := ih hitems.2.1
      refine ⟨.array ?_, by simp [normalize_array, heq]⟩
      simp only [List.forall_mem_append, List.forall_mem_cons]
      exact ⟨hitems.1, hw, hitems.2.2⟩
  | field name before after _ ih =>
    cases hv with
    | object hnodup hfields =>
      simp only [List.forall_mem_append, List.forall_mem_cons] at hfields
      obtain ⟨hw, heq⟩ := ih hfields.2.1
      refine ⟨.object (by simpa using hnodup) ?_, by simp [normalize_object, heq]⟩
      simp only [List.forall_mem_append, List.forall_mem_cons]
      exact ⟨hfields.1, hw, hfields.2.2⟩
  | fields hperm =>
    cases hv with
    | object hnodup hfields =>
      refine ⟨.object ((hperm.map _).nodup_iff.mp hnodup)
        fun p hp => hfields p (hperm.mem_iff.mpr hp), ?_⟩
      rw [normalize_object, normalize_object,
        sortFields_perm (hperm.map _) (by simpa [List.map_map, Function.comp_def] using hnodup)]

/-- A value with distinct keys has the canonical text of another one exactly when they differ in the
order of keys only. -/
theorem canonical_unambiguous {v w : Json} (hv : Distinct v) :
    canonical v = canonical w ↔ Reordered v w := by
  rw [canonical_eq, canonical_eq]
  constructor
  · intro h
    have hend : Ends [] := by simp [Ends]
    have heq := (print_cuts (normalize v) (normalize w) [] [] hend hend (by simpa using h)).1
    exact (heq ▸ reordered_normalize v).trans (reordered_normalize w).symm
  · intro h
    rw [(h.normalize_eq hv).2]

/-- Two fields in both orders. -/
theorem canonical_unambiguous_swap :
    Distinct (.object [([98], .integer 1), ([97], .string [])]) ∧
      canonical (.object [([98], .integer 1), ([97], .string [])]) =
        canonical (.object [([97], .string []), ([98], .integer 1)]) :=
  have hv : Distinct (.object [([98], .integer 1), ([97], .string [])]) :=
    .object (by decide) (by simp [Distinct.integer, Distinct.string])
  ⟨hv, (canonical_unambiguous hv).mpr (.fields (.swap ..))⟩

end PyCircuit.AnchorArtifact
