import PyCircuit.Lib.Decimal
import PyCircuit.Lib.Hex

/-!
# Literals of the source transport

`_mlir_string` quotes a Python string and `_integer_decimal` prints an integer
(`_source_transport.py`). A Python string is a list of code points, lone surrogates among them, and
its `surrogatepass` encoding gives a surrogate the three bytes of any other code point of its size.

`readString` is the reader the literals are written for: it stops at the first quote that is not
escaped and takes a backslash only with two digits after it.
-/

set_option autoImplicit false

namespace PyCircuit.SourceTransport

open PyCircuit.Lib

/-! ## The encoding of a string -/

abbrev CodePoint := Fin 0x110000

/-- A byte after the first one of a code point. -/
def continuation (n : Nat) : UInt8 := .ofNat (0x80 + n % 64)

def encodePoint (c : CodePoint) : List UInt8 :=
  let n := c.val
  if n < 0x80 then [.ofNat n]
  else if n < 0x800 then [.ofNat (0xC0 + n / 64), continuation n]
  else if n < 0x10000 then [.ofNat (0xE0 + n / 4096), continuation (n / 64), continuation n]
  else [.ofNat (0xF0 + n / 262144), continuation (n / 4096), continuation (n / 64), continuation n]

/-- The call `value.encode("utf-8", errors="surrogatepass")`. -/
def encode (value : List CodePoint) : List UInt8 := value.flatMap encodePoint

/-- The code point at the front of an encoding; its first byte tells how many follow. -/
def decodePoint : List UInt8 → Option (Nat × List UInt8)
  | a :: rest =>
    if a.toNat < 0x80 then some (a.toNat, rest)
    else match rest with
    | b :: rest =>
      let low := b.toNat - 0x80
      if a.toNat < 0xE0 then some ((a.toNat - 0xC0) * 64 + low, rest)
      else match rest with
      | c :: rest =>
        let low := low * 64 + (c.toNat - 0x80)
        if a.toNat < 0xF0 then some ((a.toNat - 0xE0) * 4096 + low, rest)
        else match rest with
        | d :: rest => some ((a.toNat - 0xF0) * 262144 + low * 64 + (d.toNat - 0x80), rest)
        | [] => none
      | [] => none
    | [] => none
  | [] => none

theorem toNat_continuation (n : Nat) : (continuation n).toNat = 0x80 + n % 64 := by
  rw [continuation, UInt8.toNat_ofNat']
  omega

theorem toNat_lead {n : Nat} (h : n < 256) : (UInt8.ofNat n).toNat = n :=
  UInt8.toNat_ofNat_of_lt' h

theorem decodePoint_encodePoint (c : CodePoint) (rest : List UInt8) :
    decodePoint (encodePoint c ++ rest) = some (c.val, rest) := by
  have hc := c.isLt
  simp only [encodePoint]
  -- one case for each number of bytes, as the encoder has them
  split
  · simp (disch := omega) only [List.cons_append, List.nil_append, decodePoint, toNat_lead, if_pos]
  split
  · simp (disch := omega) only [List.cons_append, List.nil_append, decodePoint, toNat_lead,
      toNat_continuation, if_neg, if_pos]
    exact congrArg (fun n => some (n, rest)) (by omega)
  split
  · simp (disch := omega) only [List.cons_append, List.nil_append, decodePoint, toNat_lead,
      toNat_continuation, if_neg, if_pos]
    exact congrArg (fun n => some (n, rest)) (by omega)
  · simp (disch := omega) only [List.cons_append, List.nil_append, decodePoint, toNat_lead,
      toNat_continuation, if_neg]
    exact congrArg (fun n => some (n, rest)) (by omega)

theorem encode_injective : Function.Injective encode := by
  intro value
  induction value with
  | nil =>
    intro value' h
    cases value' with
    | nil => rfl
    | cons c rest =>
      have hread := decodePoint_encodePoint c (encode rest)
      rw [show encodePoint c ++ encode rest = [] from h.symm] at hread
      cases hread
  | cons c rest ih =>
    intro value' h
    have hread := decodePoint_encodePoint c (encode rest)
    cases value' with
    | nil =>
      rw [show encodePoint c ++ encode rest = [] from h] at hread
      cases hread
    | cons c' rest' =>
      have hread' := decodePoint_encodePoint c' (encode rest')
      rw [show encodePoint c' ++ encode rest' = encodePoint c ++ encode rest from h.symm, hread,
        Option.some.injEq, Prod.mk.injEq] at hread'
      rw [Fin.ext hread'.1, ih hread'.2]

/-! ## String literals -/

/-- A digit of the format `02X`. -/
def upperDigit (n : UInt8) : UInt8 := if n < 10 then 48 + n else 55 + n

def quoteByte (byte : UInt8) : List UInt8 :=
  if 0x20 ≤ byte ∧ byte ≤ 0x7E ∧ byte ≠ 0x22 ∧ byte ≠ 0x5C then [byte]
  else [0x5C, upperDigit (byte >>> 4), upperDigit (byte &&& 15)]

/-- The function `_mlir_string`. -/
def mlirString (value : List CodePoint) : List UInt8 :=
  0x22 :: ((encode value).flatMap quoteByte ++ [0x22])

def readDigit (c : UInt8) : Option UInt8 :=
  if 48 ≤ c ∧ c ≤ 57 then some (c - 48) else if 65 ≤ c ∧ c ≤ 70 then some (c - 55) else none

/-- The bytes up to the first quote that is not escaped, and the text after it. -/
def readBody : List UInt8 → Option (List UInt8 × List UInt8)
  | [] => none
  | c :: rest =>
    if c = 0x22 then some ([], rest)
    else if c = 0x5C then
      match rest with
      | high :: low :: rest => do
        let byte := (← readDigit high) * 16 + (← readDigit low)
        let (bytes, rest) ← readBody rest
        some (byte :: bytes, rest)
      | _ => none
    else do
      let (bytes, rest) ← readBody rest
      some (c :: bytes, rest)

/-- A literal at the front of a text: the bytes it stands for, and the text after it. -/
def readString : List UInt8 → Option (List UInt8 × List UInt8)
  | c :: rest => if c = 0x22 then readBody rest else none
  | [] => none

theorem readDigit_upperDigit (b : UInt8) :
    readDigit (upperDigit (b >>> 4)) = some (b >>> 4) ∧
      readDigit (upperDigit (b &&& 15)) = some (b &&& 15) ∧ (b >>> 4) * 16 + (b &&& 15) = b := by
  revert b
  exact forall_byte (by decide +kernel)

theorem quoteByte_printable (b : UInt8) : ∀ c ∈ quoteByte b, 0x20 ≤ c ∧ c ≤ 0x7E := by
  have hall : (quoteByte b).all (fun c => 0x20 ≤ c && c ≤ 0x7E) = true := by
    revert b
    exact forall_byte (by decide +kernel)
  simpa using hall

theorem readBody_quoteByte (b : UInt8) (rest : List UInt8) :
    readBody (quoteByte b ++ rest) = (readBody rest).map fun read => (b :: read.1, read.2) := by
  unfold quoteByte
  split
  · next h =>
    conv_lhs => unfold readBody
    simp only [List.singleton_append, if_neg h.2.2.1, if_neg h.2.2.2]
    cases readBody rest <;> rfl
  · obtain ⟨hhigh, hlow, hbyte⟩ := readDigit_upperDigit b
    simp only [List.cons_append, List.nil_append, readBody, hhigh, hlow, Option.bind_eq_bind,
      Option.bind_some, hbyte]
    cases readBody rest <;> rfl

theorem readBody_flatMap (bytes rest : List UInt8) :
    readBody (bytes.flatMap quoteByte ++ 0x22 :: rest) = some (bytes, rest) := by
  induction bytes with
  | nil =>
    unfold readBody
    exact if_pos rfl
  | cons b bytes ih => rw [List.flatMap_cons, List.append_assoc, readBody_quoteByte, ih]; rfl

/-- A literal is read back up to its closing quote, whatever follows it. -/
theorem readString_mlirString (value : List CodePoint) (rest : List UInt8) :
    readString (mlirString value ++ rest) = some (encode value, rest) := by
  rw [mlirString, List.cons_append, List.append_assoc]
  exact readBody_flatMap (encode value) rest

theorem mlirString_printable (value : List CodePoint) :
    ∀ c ∈ mlirString value, 0x20 ≤ c ∧ c ≤ 0x7E := by
  intro c hc
  rw [mlirString, List.mem_cons, List.mem_append, List.mem_singleton, List.mem_flatMap] at hc
  rcases hc with rfl | ⟨b, -, hb⟩ | rfl
  · decide
  · exact quoteByte_printable b c hb
  · decide

/-! ## Integer literals -/

/-- The loop `while remaining`, which divides at most `remaining` times. -/
def chunksLoop : Nat → Nat → List Nat
  | 0, _ => []
  | fuel + 1, remaining =>
    if remaining = 0 then []
    else remaining % 1000000000 :: chunksLoop fuel (remaining / 1000000000)

/-- A chunk in the format `09d`. -/
def paddedChunk (chunk : Nat) : List UInt8 :=
  List.replicate (9 - (digits chunk).length) 48 ++ digits chunk

/-- The last chunk without padding, then the others from the last but one on. -/
def chunksText (chunks : List Nat) : List UInt8 :=
  digits (chunks.getLastD 0) ++ chunks.dropLast.reverse.flatMap paddedChunk

/-- The function `_integer_decimal`. -/
def integerDecimal (value : Int) : List UInt8 :=
  if value = 0 then [48]
  else
    let sign := if value < 0 then [45] else []
    let remaining := (if value < 0 then -value else value).toNat
    sign ++ chunksText (chunksLoop remaining remaining)

theorem chunksLoop_eq {fuel remaining : Nat} (h : remaining ≤ fuel) :
    chunksLoop fuel remaining = Nat.digits 1000000000 remaining := by
  induction fuel generalizing remaining with
  | zero => rw [Nat.le_zero.mp h]; rfl
  | succ fuel ih =>
    rw [chunksLoop]
    split
    · next hzero => rw [hzero, Nat.digits_zero]
    · rw [ih (by omega), ← Nat.digits_def' (by decide) (by omega)]

theorem length_paddedChunk {chunk : Nat} (h : chunk < 1000000000) :
    (paddedChunk chunk).length = 9 := by
  have hlength := length_digits_le (by decide : 0 < 9) h
  rw [paddedChunk, List.length_append, List.length_replicate]
  omega

theorem digitsValue_paddedChunk (chunk : Nat) : digitsValue (paddedChunk chunk) = chunk := by
  rw [paddedChunk, digitsValue_append, digitsValue_replicate_zero, digitsValue_digits]
  omega

/-- A text of digits without a leading zero, unless it is the digit zero. -/
structure CanonicalDigits (text : List UInt8) : Prop where
  nonempty : text ≠ []
  decimal : ∀ b ∈ text, isDecimal b = true
  leading : text.head? = some 48 → text = [48]

theorem chunksText_cons (chunk : Nat) {rest : List Nat} (h : rest ≠ []) :
    chunksText (chunk :: rest) = chunksText rest ++ paddedChunk chunk := by
  cases rest with
  | nil => exact absurd rfl h
  | cons next rest => simp [chunksText]

theorem chunksText_ne_nil (chunks : List Nat) : chunksText chunks ≠ [] :=
  List.append_ne_nil_of_left_ne_nil (digits_ne_nil _) _

/-- What the chunks of a positive number, least significant first, are printed as. -/
theorem chunksText_spec {chunks : List Nat} (hne : chunks ≠ []) (hlast : chunks.getLast hne ≠ 0)
    (hlt : ∀ chunk ∈ chunks, chunk < 1000000000) :
    (∀ b ∈ chunksText chunks, isDecimal b = true) ∧ (chunksText chunks).head? ≠ some 48 ∧
      digitsValue (chunksText chunks) = Nat.ofDigits 1000000000 chunks := by
  induction chunks with
  | nil => exact absurd rfl hne
  | cons chunk rest ih =>
    by_cases hrest : rest = []
    · subst hrest
      have htext : chunksText [chunk] = digits chunk := List.append_nil _
      rw [htext, digitsValue_digits, Nat.ofDigits_singleton]
      exact ⟨fun b => isDecimal_of_mem, digits_head hlast, rfl⟩
    · rw [List.getLast_cons hrest] at hlast
      obtain ⟨hdecimal, hhead, hvalue⟩ := ih hrest hlast (List.forall_mem_cons.mp hlt).2
      have hchunk := hlt chunk List.mem_cons_self
      rw [chunksText_cons chunk hrest]
      refine ⟨?_, ?_, ?_⟩
      · intro b hb
        rw [List.mem_append, paddedChunk, List.mem_append] at hb
        rcases hb with hb | hb | hb
        · exact hdecimal b hb
        · rw [List.eq_of_mem_replicate hb]
          rfl
        · exact isDecimal_of_mem hb
      · rw [List.head?_append_of_ne_nil _ (chunksText_ne_nil rest)]
        exact hhead
      · rw [digitsValue_append, hvalue, length_paddedChunk hchunk, digitsValue_paddedChunk,
          Nat.ofDigits_cons]
        omega

/-- The text of an integer is its sign and canonical digits, which are read back in base ten. -/
theorem integerDecimal_spec (value : Int) :
    ∃ text, integerDecimal value = (if value < 0 then [45] else []) ++ text ∧
      CanonicalDigits text ∧ digitsValue text = value.natAbs := by
  by_cases hzero : value = 0
  · subst hzero
    exact ⟨digits 0, rfl, ⟨digits_ne_nil 0, fun b => isDecimal_of_mem, fun _ => rfl⟩, rfl⟩
  · have hremaining : (if value < 0 then -value else value).toNat = value.natAbs := by
      split <;> omega
    have hne : Nat.digits 1000000000 value.natAbs ≠ [] :=
      Nat.digits_ne_nil_iff_ne_zero.mpr (Int.natAbs_ne_zero.mpr hzero)
    obtain ⟨hdecimal, hhead, hvalue⟩ := chunksText_spec hne
      (Nat.getLast_digit_ne_zero _ (Int.natAbs_ne_zero.mpr hzero))
      fun _ => Nat.digits_lt_base (by decide)
    refine ⟨chunksText (Nat.digits 1000000000 value.natAbs), ?_, ?_, ?_⟩
    · simp only [integerDecimal, if_neg hzero, hremaining, chunksLoop_eq (Nat.le_refl _)]
    · exact ⟨chunksText_ne_nil _, hdecimal, fun h => absurd h hhead⟩
    · rw [hvalue, Nat.ofDigits_digits]

/-- Literals of strings are printable and read back as the encoding, so they tell the strings apart,
and literals of integers are canonical and read back as the integer. -/
theorem literals_lossless :
    (∀ (value : List CodePoint) (rest : List UInt8),
      (∀ c ∈ mlirString value, 0x20 ≤ c ∧ c ≤ 0x7E) ∧
        readString (mlirString value ++ rest) = some (encode value, rest)) ∧
    Function.Injective mlirString ∧
    ∀ value : Int, ∃ text, integerDecimal value = (if value < 0 then [45] else []) ++ text ∧
      CanonicalDigits text ∧ digitsValue text = value.natAbs := by
  refine ⟨?_, ?_, integerDecimal_spec⟩
  · intro value rest
    exact ⟨mlirString_printable value, readString_mlirString value rest⟩
  · intro value value' h
    have hread := readString_mlirString value []
    rw [h, readString_mlirString, Option.some.injEq, Prod.mk.injEq] at hread
    exact encode_injective hread.1.symm

end PyCircuit.SourceTransport
