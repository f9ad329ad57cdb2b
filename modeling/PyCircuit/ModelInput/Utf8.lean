import PyCircuit.Lib.Utf8
import PyCircuit.ModelInput.Decoder

/-!
# The UTF-8 test

`isValidUtf8` accepts exactly the encodings of character lists: its tests of a sequence say that the
sequence is the encoding of the code point it computes.
-/

set_option autoImplicit false

namespace PyCircuit.ModelInput

/-! ## The bits of a byte -/

variable {lead : UInt8} {tail rest bytes : Bytes} (b : UInt8)

theorem exists_byte : ∃ n : Fin 256, UInt8.ofNat n = b :=
  ⟨⟨b.toNat, b.toNat_lt⟩, UInt8.ofNat_toNat⟩

/-- The masks of a first byte are ranges. -/
theorem leadForm_eq (lead : UInt8) :
    leadForm lead =
      if 0xc0 ≤ lead.toNat ∧ lead.toNat < 0xe0 then some (1, lead.toNat - 0xc0, 0x80)
      else if 0xe0 ≤ lead.toNat ∧ lead.toNat < 0xf0 then some (2, lead.toNat - 0xe0, 0x800)
      else if 0xf0 ≤ lead.toNat ∧ lead.toNat < 0xf8 then some (3, lead.toNat - 0xf0, 0x10000)
      else none := by
  obtain ⟨n, rfl⟩ := exists_byte lead
  revert n
  decide +kernel

theorem continuation_iff : b &&& 0xc0 = 0x80 ↔ 0x80 ≤ b.toNat ∧ b.toNat < 0xc0 := by
  obtain ⟨n, rfl⟩ := exists_byte b
  revert n
  decide +kernel

theorem continuation_bits : (b &&& 0x3f).toNat = b.toNat % 64 := by
  obtain ⟨n, rfl⟩ := exists_byte b
  revert n
  decide +kernel

theorem addContinuation_eq (codePoint : Nat) (b : UInt8) :
    addContinuation codePoint b = codePoint * 64 + b.toNat % 64 := by
  have hlt : b.toNat % 64 < 2 ^ 6 := Nat.mod_lt _ (by decide)
  rw [addContinuation, continuation_bits, ← Nat.shiftLeft_add_eq_or_of_lt hlt, Nat.shiftLeft_eq]

/-! ## Sequences -/

/-- A first byte with its continuation bytes passes the tests of `isValidUtf8`, and this is its code
point. -/
structure Sequence (lead : UInt8) (tail : Bytes) (codePoint : Nat) : Prop where
  high : 0x80 ≤ lead.toNat
  form : ∃ bits minimum, leadForm lead = some (tail.length, bits, minimum) ∧
    codePoint = tail.foldl addContinuation bits ∧ minimum ≤ codePoint
  tail_cont : ∀ b ∈ tail, b &&& 0xc0 = 0x80
  valid : codePoint.isValidChar

theorem isValidChar_iff (codePoint : Nat) :
    codePoint.isValidChar ↔
      ¬ (codePoint > 0x10ffff ∨ (codePoint ≥ 0xd800 ∧ codePoint ≤ 0xdfff)) := by
  omega

variable {codePoint n fuel : Nat}

theorem ofNat_val (h : codePoint.isValidChar) :
    (Char.ofNat codePoint).val.toNat = codePoint := by
  rw [Char.ofNat, dif_pos h]
  rfl

theorem byte_eq {b : UInt8} (h : b.toNat = n) : UInt8.ofNat n = b := by
  rw [← h, UInt8.ofNat_toNat]

/-- An accepted sequence is the encoding of its code point. -/
theorem Sequence.encode (h : Sequence lead tail codePoint) :
    String.utf8EncodeChar (Char.ofNat codePoint) = lead :: tail := by
  obtain ⟨bits, minimum, hform, hcode, hminimum⟩ := h.form
  have htail := h.tail_cont
  have hvalid := (isValidChar_iff codePoint).mp h.valid
  rw [String.utf8EncodeChar]
  simp only [ofNat_val h.valid]
  rw [leadForm_eq] at hform
  split_ifs at hform with htwo hthree hfour
  · simp only [Option.some.injEq, Prod.mk.injEq] at hform
    obtain ⟨hlength, rfl, rfl⟩ := hform
    obtain ⟨a, rfl⟩ := List.length_eq_one_iff.mp hlength.symm
    have ha := (continuation_iff a).mp (htail a (by simp))
    simp only [List.foldl_cons, List.foldl_nil, addContinuation_eq] at hcode
    rw [if_neg (by omega), if_pos (by omega), byte_eq (b := lead) (by omega),
      byte_eq (b := a) (by omega)]
  · simp only [Option.some.injEq, Prod.mk.injEq] at hform
    obtain ⟨hlength, rfl, rfl⟩ := hform
    obtain ⟨a, b, rfl⟩ := List.length_eq_two.mp hlength.symm
    have ha := (continuation_iff a).mp (htail a (by simp))
    have hb := (continuation_iff b).mp (htail b (by simp))
    simp only [List.foldl_cons, List.foldl_nil, addContinuation_eq] at hcode
    rw [if_neg (by omega), if_neg (by omega), if_pos (by omega),
      byte_eq (b := lead) (by omega), byte_eq (b := a) (by omega), byte_eq (b := b) (by omega)]
  · simp only [Option.some.injEq, Prod.mk.injEq] at hform
    obtain ⟨hlength, rfl, rfl⟩ := hform
    obtain ⟨a, b, c, rfl⟩ := List.length_eq_three.mp hlength.symm
    have ha := (continuation_iff a).mp (htail a (by simp))
    have hb := (continuation_iff b).mp (htail b (by simp))
    have hc := (continuation_iff c).mp (htail c (by simp))
    simp only [List.foldl_cons, List.foldl_nil, addContinuation_eq] at hcode
    rw [if_neg (by omega), if_neg (by omega), if_neg (by omega),
      byte_eq (b := lead) (by omega), byte_eq (b := a) (by omega), byte_eq (b := b) (by omega),
      byte_eq (b := c) (by omega)]

theorem toNat_ofNat_byte (h : n < 256) : (UInt8.ofNat n).toNat = n :=
  UInt8.toNat_ofNat_of_lt' h

theorem continuation_ofNat (h : n < 64) : UInt8.ofNat (n + 128) &&& 0xc0 = 0x80 := by
  rw [continuation_iff, toNat_ofNat_byte (by omega)]
  omega

/-- The encoding of a character outside ASCII is an accepted sequence. -/
theorem sequence_encode {c : Char} (h : ¬ c.val.toNat ≤ 127) :
    ∃ lead tail, String.utf8EncodeChar c = lead :: tail ∧ Sequence lead tail c.val.toNat := by
  have hvalid : c.val.toNat.isValidChar := c.valid
  have hrange := (isValidChar_iff _).mp hvalid
  simp only [String.utf8EncodeChar]
  generalize c.val.toNat = v at h hvalid hrange
  rw [if_neg h]
  split_ifs with htwo hthree
  · refine ⟨_, _, rfl, ?_, ⟨v / 64, 0x80, ?_, ?_, ?_⟩, ?_, hvalid⟩
    · rw [toNat_ofNat_byte (by omega)]
      omega
    · rw [leadForm_eq, toNat_ofNat_byte (by omega), if_pos (by omega)]
      simp only [List.length_cons, List.length_nil, Option.some.injEq, Prod.mk.injEq, and_true,
        true_and]
      omega
    · simp only [List.foldl_cons, List.foldl_nil, addContinuation_eq]
      rw [toNat_ofNat_byte (by omega)]
      omega
    · omega
    · simp only [List.mem_cons, List.not_mem_nil, or_false, forall_eq]
      exact continuation_ofNat (by omega)
  · refine ⟨_, _, rfl, ?_, ⟨v / 4096, 0x800, ?_, ?_, ?_⟩, ?_, hvalid⟩
    · rw [toNat_ofNat_byte (by omega)]
      omega
    · rw [leadForm_eq, toNat_ofNat_byte (by omega), if_neg (by omega), if_pos (by omega)]
      simp only [List.length_cons, List.length_nil, Option.some.injEq, Prod.mk.injEq, and_true,
        true_and]
      omega
    · simp only [List.foldl_cons, List.foldl_nil, addContinuation_eq]
      rw [toNat_ofNat_byte (by omega), toNat_ofNat_byte (by omega)]
      omega
    · omega
    · simp only [List.mem_cons, List.not_mem_nil, or_false, forall_eq_or_imp, forall_eq]
      exact ⟨continuation_ofNat (by omega), continuation_ofNat (by omega)⟩
  · refine ⟨_, _, rfl, ?_, ⟨v / 262144, 0x10000, ?_, ?_, ?_⟩, ?_, hvalid⟩
    · rw [toNat_ofNat_byte (by omega)]
      omega
    · rw [leadForm_eq, toNat_ofNat_byte (by omega), if_neg (by omega), if_neg (by omega),
        if_pos (by omega)]
      simp only [List.length_cons, List.length_nil, Option.some.injEq, Prod.mk.injEq, and_true,
        true_and]
      omega
    · simp only [List.foldl_cons, List.foldl_nil, addContinuation_eq]
      rw [toNat_ofNat_byte (by omega), toNat_ofNat_byte (by omega), toNat_ofNat_byte (by omega)]
      omega
    · omega
    · simp only [List.mem_cons, List.not_mem_nil, or_false, forall_eq_or_imp, forall_eq]
      exact ⟨continuation_ofNat (by omega), continuation_ofNat (by omega),
        continuation_ofNat (by omega)⟩

/-! ## The loop -/

theorem validFrom_ascii {b : UInt8} {rest : Bytes} (h : b.toNat < 128) :
    validFrom (fuel + 1) (b :: rest) = validFrom fuel rest := by
  rw [validFrom, if_pos (UInt8.lt_iff_toNat_lt.mpr h)]

theorem validFrom_sequence (h : Sequence lead tail codePoint) :
    validFrom (fuel + 1) (lead :: (tail ++ rest)) = validFrom fuel rest := by
  obtain ⟨bits, minimum, hform, rfl, hminimum⟩ := h.form
  have hvalid := (isValidChar_iff _).mp h.valid
  have hlead : ¬ lead < 0x80 := fun hlt => by
    exact Nat.not_lt.mpr h.high (UInt8.lt_iff_toNat_lt.mp hlt)
  have htail : (tail.any fun continuation => continuation &&& 0xc0 != 0x80) = false := by
    rw [List.any_eq_false]
    intro b hb
    simp [h.tail_cont b hb]
  rw [validFrom, if_neg hlead, hform]
  simp only [List.take_left, List.drop_left, List.length_append]
  rw [if_neg (by omega), htail, if_neg Bool.false_ne_true, if_neg (by omega)]

theorem validFrom_of_isUtf8 (hfuel : bytes.length ≤ fuel) (h : IsUtf8 bytes) :
    validFrom fuel bytes = true := by
  obtain ⟨text, rfl⟩ := h
  induction text generalizing fuel with
  | nil => cases fuel <;> rfl
  | cons c rest ih =>
    rw [List.flatMap_cons] at hfuel ⊢
    by_cases hc : c.val.toNat ≤ 127
    · rw [IsUtf8.encodeChar_ascii hc] at hfuel ⊢
      cases fuel with
      | zero => simp at hfuel
      | succ fuel =>
        rw [List.singleton_append, validFrom_ascii (by rw [toNat_ofNat_byte] <;> omega)]
        exact ih (by simpa using hfuel)
    · obtain ⟨lead, tail, hencode, hsequence⟩ := sequence_encode hc
      rw [hencode] at hfuel ⊢
      cases fuel with
      | zero => simp at hfuel
      | succ fuel =>
        rw [List.cons_append, validFrom_sequence hsequence]
        refine ih ?_
        simp only [List.cons_append, List.length_cons, List.length_append] at hfuel
        omega

theorem isUtf8_of_validFrom (h : validFrom fuel bytes = true) : IsUtf8 bytes := by
  induction fuel generalizing bytes with
  | zero =>
    cases bytes with
    | nil => exact IsUtf8.nil
    | cons b rest => cases h
  | succ fuel ih =>
    cases bytes with
    | nil => exact IsUtf8.nil
    | cons lead rest =>
      by_cases hlead : lead < 0x80
      · have hascii : lead.toNat < 128 := UInt8.lt_iff_toNat_lt.mp hlead
        rw [validFrom_ascii hascii] at h
        exact IsUtf8.cons hascii (ih h)
      · rw [validFrom, if_neg hlead] at h
        cases hform : leadForm lead with
        | none => rw [hform] at h; cases h
        | some form =>
          obtain ⟨count, bits, minimum⟩ := form
          rw [hform] at h
          simp only [] at h
          split_ifs at h with hshort hbad hrange
          have hlength : (rest.take count).length = count :=
            List.length_take_of_le (by omega)
          have hsequence : Sequence lead (rest.take count)
              ((rest.take count).foldl addContinuation bits) := by
            refine ⟨?_, ⟨bits, minimum, by rw [hlength]; exact hform, rfl, by omega⟩, ?_,
              (isValidChar_iff _).mpr (by omega)⟩
            · rw [UInt8.lt_iff_toNat_lt] at hlead
              exact Nat.not_lt.mp hlead
            · intro b hb
              by_contra hne
              exact hbad (List.any_eq_true.mpr ⟨b, hb, by simp [hne]⟩)
          have hchar : IsUtf8 (lead :: rest.take count) := by
            rw [← hsequence.encode]
            exact ⟨[_], List.flatMap_singleton ..⟩
          have hrest := hchar.append (ih h)
          rwa [List.cons_append, List.take_append_drop] at hrest

/-- `isValidUtf8` accepts exactly the encodings of character lists. -/
theorem isValidUtf8_iff (bytes : Bytes) : isValidUtf8 bytes = true ↔ IsUtf8 bytes :=
  ⟨isUtf8_of_validFrom, validFrom_of_isUtf8 (Nat.le_refl _)⟩

end PyCircuit.ModelInput
