import PyCircuit.Lib.Decimal
import PyCircuit.ModelInput.Utf8

/-!
# Integers and strings

What the scanner reads back from the text that the printer writes for one integer or one string, and
what it can read at all.
-/

set_option autoImplicit false

namespace PyCircuit.ModelInput

/-! ## Tokens -/

theorem take_append (token rest : Bytes) : take token (token ++ rest) = some rest := by
  rw [take, if_pos (List.isPrefixOf_iff_prefix.mpr (List.prefix_append token rest)), List.drop_left]

variable {b : UInt8} {name : Bytes}

/-- A token does not match a text that starts with another byte. -/
theorem take_cons_ne {a : UInt8} (h : a ≠ b) (token rest : Bytes) :
    take (a :: token) (b :: rest) = none := by
  rw [take, if_neg]
  simp [List.isPrefixOf, h]

/-! ## Integers -/

theorem isDigit_iff (b : UInt8) : isDigit b = true ↔ 0x30 ≤ b.toNat ∧ b.toNat ≤ 0x39 := by
  simp only [isDigit, Bool.and_eq_true, decide_eq_true_eq, UInt8.le_iff_toNat_le]
  rfl

theorem decimal_eq (value : UInt64) : decimal value = Lib.digits value.toNat := by
  rw [decimal, Lib.digits, List.map_reverse]

theorem decimal_digits (value : UInt64) : ∀ b ∈ decimal value, isDigit b = true := by
  intro b hb
  rw [decimal_eq] at hb
  exact Lib.isDecimal_of_mem hb

variable {e : UInt8} (value : UInt64) (result rest : Bytes)

theorem decimal_ne_nil : decimal value ≠ [] := by
  rw [decimal_eq]
  exact Lib.digits_ne_nil _

/-- Only the text of zero starts with a zero. -/
theorem decimal_head : ¬ ((decimal value).length > 1 ∧ (decimal value).head? = some 0x30) := by
  rintro ⟨hlength, hhead⟩
  rw [decimal_eq] at hlength hhead
  by_cases hzero : value.toNat = 0
  · rw [hzero] at hlength
    exact absurd hlength (by decide)
  · exact Lib.digits_head hzero hhead

theorem digitsValue_decimal : digitsValue (decimal value) = value.toNat := by
  have hvalue : ∀ text, digitsValue text = Lib.digitsValue text := by
    intro text
    rw [digitsValue, Lib.digitsValue, Nat.ofDigits_eq_foldr, List.foldr_map, List.foldr_reverse]
    simp only [Nat.cast_id, Nat.add_comm, Nat.mul_comm]
  rw [decimal_eq, hvalue, Lib.digitsValue_digits]

theorem unsignedInteger_decimal (hb : isDigit b = false) (rest : Bytes) :
    unsignedInteger (decimal value ++ b :: rest) = some (value, b :: rest) := by
  have htake : (decimal value ++ b :: rest).takeWhile isDigit = decimal value := by
    rw [List.takeWhile_append_of_pos (decimal_digits value), List.takeWhile_cons, hb]
    simp
  have hdrop : (decimal value ++ b :: rest).dropWhile isDigit = b :: rest := by
    rw [List.dropWhile_append_of_pos (decimal_digits value), List.dropWhile_cons, hb]
    simp
  have hcanonical : ¬ (decimal value = [] ∨
      ((decimal value).length > 1 ∧ (decimal value).head? = some 0x30)) :=
    not_or.mpr ⟨decimal_ne_nil value, decimal_head value⟩
  have hchars : fromChars (decimal value) = some value := by
    rw [fromChars, digitsValue_decimal, if_pos value.toNat_lt, UInt64.ofNat_toNat]
  simp only [unsignedInteger, htake, hdrop]
  rw [if_neg hcanonical, hchars]
  rfl

theorem null_decimal : null (decimal value ++ rest) = none := by
  cases hdecimal : decimal value with
  | nil => exact absurd hdecimal (decimal_ne_nil value)
  | cons b digits =>
    have hb : isDigit b = true :=
      decimal_digits value b (by rw [hdecimal]; exact List.mem_cons_self)
    have hne : 0x6e ≠ b := by
      rintro rfl
      exact absurd hb (by decide)
    exact take_cons_ne hne _ _

theorem optionalUnsigned_text (limit : Option UInt64) (hb : isDigit b = false)
    (rest : Bytes) :
    optionalUnsigned (optionalText limit ++ b :: rest) = some (limit, b :: rest) := by
  cases limit with
  | none =>
    have hnull : null (ascii "null" ++ b :: rest) = some (b :: rest) := take_append _ _
    rw [optionalText, optionalUnsigned, hnull]
  | some value =>
    rw [optionalText, optionalUnsigned, null_decimal, unsignedInteger_decimal value hb]
    rfl

/-! ## Strings -/

/-- A name the printer can write: its only control characters are backspace, form feed, newline,
carriage return and tab. -/
def Clean (name : Bytes) : Prop :=
  ∀ b ∈ name, b < 0x20 → b ∈ ([0x08, 0x0c, 0x0a, 0x0d, 0x09] : Bytes)

/-- The text between the quotation marks. -/
def escaped (name : Bytes) : Bytes := name.flatMap fun b => (escape b).getD []

theorem escape_cases (b : UInt8) :
    (∃ e, escape b = some [0x5c, e] ∧ unescape e = some b ∧ e.toNat < 128 ∧ b.toNat < 128) ∨
    (escape b = some [b] ∧ b ≠ 0x22 ∧ b ≠ 0x5c ∧ ¬ b < 0x20) ∨
    (escape b = none ∧ b < 0x20 ∧ b ∉ ([0x08, 0x0c, 0x0a, 0x0d, 0x09] : Bytes)) := by
  rw [escape]
  split_ifs with h1 h2 h3 h4 h5 h6 h7 h8
  · exact Or.inl ⟨_, rfl, by rw [h1]; decide, by decide, by rw [h1]; decide⟩
  · exact Or.inl ⟨_, rfl, by rw [h2]; decide, by decide, by rw [h2]; decide⟩
  · exact Or.inl ⟨_, rfl, by rw [h3]; decide, by decide, by rw [h3]; decide⟩
  · exact Or.inl ⟨_, rfl, by rw [h4]; decide, by decide, by rw [h4]; decide⟩
  · exact Or.inl ⟨_, rfl, by rw [h5]; decide, by decide, by rw [h5]; decide⟩
  · exact Or.inl ⟨_, rfl, by rw [h6]; decide, by decide, by rw [h6]; decide⟩
  · exact Or.inl ⟨_, rfl, by rw [h7]; decide, by decide, by rw [h7]; decide⟩
  · exact Or.inr (Or.inr ⟨rfl, h8, by simp [h3, h4, h5, h6, h7]⟩)
  · exact Or.inr (Or.inl ⟨rfl, h1, h2, h8⟩)

/-- The text of a byte that can be written: two bytes or itself. -/
theorem escape_clean (h : b < 0x20 → b ∈ ([0x08, 0x0c, 0x0a, 0x0d, 0x09] : Bytes)) :
    (∃ e, escape b = some [0x5c, e] ∧ unescape e = some b ∧ e.toNat < 128 ∧ b.toNat < 128) ∨
    (escape b = some [b] ∧ b ≠ 0x22 ∧ b ≠ 0x5c ∧ ¬ b < 0x20) := by
  rcases escape_cases b with hpair | hself | ⟨_, hlow, hnot⟩
  · exact Or.inl hpair
  · exact Or.inr hself
  · exact absurd (h hlow) hnot

theorem unescape_clean (h : unescape e = some b) (hlow : b < 0x20) :
    b ∈ ([0x08, 0x0c, 0x0a, 0x0d, 0x09] : Bytes) := by
  rw [unescape] at h
  split_ifs at h <;> cases h <;> revert hlow <;> decide

theorem Clean.of_cons (h : Clean (b :: name)) :
    (b < 0x20 → b ∈ ([0x08, 0x0c, 0x0a, 0x0d, 0x09] : Bytes)) ∧ Clean name :=
  ⟨h b List.mem_cons_self, (List.forall_mem_cons.mp h).2⟩

theorem Clean.append_singleton (h : Clean name)
    (hb : b < 0x20 → b ∈ ([0x08, 0x0c, 0x0a, 0x0d, 0x09] : Bytes)) : Clean (name ++ [b]) :=
  List.forall_mem_append.mpr ⟨h, List.forall_mem_singleton.mpr hb⟩

theorem mapM_escape (h : Clean name) :
    ∃ parts, name.mapM escape = some parts ∧ parts.flatten = escaped name := by
  induction name with
  | nil => exact ⟨[], rfl, rfl⟩
  | cons b rest ih =>
    obtain ⟨hb, hrest⟩ := h.of_cons
    obtain ⟨parts, hparts, hflatten⟩ := ih hrest
    obtain ⟨part, hpart⟩ : ∃ part, escape b = some part := by
      rcases escape_clean hb with ⟨e, hescape, _⟩ | ⟨hescape, _⟩ <;> exact ⟨_, hescape⟩
    refine ⟨part :: parts, ?_, ?_⟩
    · rw [List.mapM_cons, hpart, hparts]
      rfl
    · rw [List.flatten_cons, hflatten, escaped, escaped, List.flatMap_cons, hpart,
        Option.getD_some]

theorem quote_clean (h : Clean name) :
    quote name = 0x22 :: (escaped name ++ [0x22]) := by
  obtain ⟨parts, hparts, hflatten⟩ := mapM_escape h
  rw [quote, hparts]
  simp only [hflatten]
  rfl

theorem stringBody_quote : stringBody result (0x22 :: rest) = some (result, rest) := by
  rw [stringBody.eq_def]
  exact if_pos rfl

theorem stringBody_plain (hquote : b ≠ 0x22) (hslash : b ≠ 0x5c) (hlow : ¬ b < 0x20)
    (result rest : Bytes) : stringBody result (b :: rest) = stringBody (result ++ [b]) rest := by
  rw [stringBody.eq_def]
  simp only [if_neg hquote, if_neg hlow, if_pos hslash]

theorem stringBody_escape (h : unescape e = some b) (result rest : Bytes) :
    stringBody result (0x5c :: e :: rest) = stringBody (result ++ [b]) rest := by
  rw [stringBody.eq_def]
  simp only [h]
  rfl

theorem stringBody_escaped (h : Clean name) (result rest : Bytes) :
    stringBody result (escaped name ++ 0x22 :: rest) = some (result ++ name, rest) := by
  induction name generalizing result with
  | nil =>
    rw [List.append_nil]
    exact stringBody_quote result rest
  | cons b tail ih =>
    obtain ⟨hb, htail⟩ := h.of_cons
    have hcons : result ++ b :: tail = (result ++ [b]) ++ tail := by simp
    rw [escaped, List.flatMap_cons, ← escaped, hcons, ← ih htail]
    rcases escape_clean hb with ⟨e, hescape, hunescape, _⟩ | ⟨hescape, hquote, hslash, hlow⟩
    · rw [hescape, Option.getD_some, List.append_assoc]
      exact stringBody_escape hunescape result _
    · rw [hescape, Option.getD_some, List.append_assoc]
      exact stringBody_plain hquote hslash hlow result _

theorem string_quote (h : Clean name) (rest : Bytes) :
    string (quote name ++ rest) = some (name, rest) := by
  have htake : take [0x22] (quote name ++ rest) = some (escaped name ++ 0x22 :: rest) := by
    rw [quote_clean h]
    simpa using take_append [0x22] (escaped name ++ 0x22 :: rest)
  rw [string, htake, Option.bind_some, stringBody_escaped h]
  rfl

/-- The scanner only builds names that the printer can write. -/
theorem stringBody_clean {input result rest : Bytes} (hresult : Clean result)
    (h : stringBody result input = some (name, rest)) : Clean name := by
  induction hlength : input.length using Nat.strongRecOn generalizing input result with
  | _ length ih =>
    cases input with
    | nil => cases h
    | cons value tail =>
      rw [stringBody.eq_def] at h
      simp only [] at h
      split_ifs at h with hquote hlow hslash
      · cases h
        exact hresult
      · exact ih tail.length (by rw [← hlength]; exact Nat.lt_succ_self _)
          (hresult.append_singleton fun hlt => absurd hlt hlow) h rfl
      · cases tail with
        | nil => cases h
        | cons e tail =>
          cases hunescape : unescape e with
          | none => simp [hunescape] at h
          | some byte =>
            simp only [hunescape] at h
            exact ih tail.length (by rw [← hlength, List.length_cons, List.length_cons]; omega)
              (hresult.append_singleton (unescape_clean hunescape)) h rfl

theorem string_clean {input rest : Bytes} (h : string input = some (name, rest)) :
    Clean name := by
  rw [string, Option.bind_eq_some_iff] at h
  obtain ⟨body, _, hbody⟩ := h
  exact stringBody_clean (List.forall_mem_nil _) hbody

/-! ## The encoding of a name -/

theorem isUtf8_escaped_char {c : Char} (h : Clean (String.utf8EncodeChar c)) :
    IsUtf8 (escaped (String.utf8EncodeChar c)) := by
  by_cases hc : c.val.toNat ≤ 127
  · rw [IsUtf8.encodeChar_ascii hc] at h ⊢
    have hascii : (UInt8.ofNat c.val.toNat).toNat < 128 := by
      rw [toNat_ofNat_byte (by omega)]
      omega
    refine IsUtf8.of_ascii fun x hx => ?_
    rw [escaped, List.flatMap_cons, List.flatMap_nil, List.append_nil] at hx
    rcases escape_clean h.of_cons.1 with ⟨e, hescape, _, he, _⟩ | ⟨hescape, _⟩
    · rw [hescape, Option.getD_some] at hx
      rcases List.mem_cons.mp hx with rfl | hx
      · decide
      · exact List.mem_singleton.mp hx ▸ he
    · rw [hescape, Option.getD_some] at hx
      exact List.mem_singleton.mp hx ▸ hascii
  · -- no byte of a longer encoding is escaped
    have hself : ∀ bytes : Bytes, (∀ b ∈ bytes, 128 ≤ b.toNat) → Clean bytes →
        escaped bytes = bytes := by
      intro bytes hbytes hclean
      induction bytes with
      | nil => rfl
      | cons b rest ih =>
        obtain ⟨hb, hrest⟩ := hclean.of_cons
        have hhigh := hbytes b List.mem_cons_self
        have htail := ih (List.forall_mem_cons.mp hbytes).2 hrest
        rw [escaped] at htail
        rcases escape_clean hb with ⟨e, _, _, _, hlow⟩ | ⟨hescape, _⟩
        · omega
        · rw [escaped, List.flatMap_cons, hescape, htail]
          rfl
    rw [hself _ (IsUtf8.encodeChar_high hc) h]
    exact ⟨[c], List.flatMap_singleton ..⟩

theorem isUtf8_escaped (hclean : Clean name) (h : IsUtf8 name) :
    IsUtf8 (escaped name) := by
  obtain ⟨text, rfl⟩ := h
  induction text with
  | nil => exact IsUtf8.nil
  | cons c rest ih =>
    rw [List.flatMap_cons] at hclean ⊢
    have hc : Clean (String.utf8EncodeChar c) := fun b hb => hclean b (List.mem_append_left _ hb)
    have hrest : Clean (rest.flatMap String.utf8EncodeChar) :=
      fun b hb => hclean b (List.mem_append_right _ hb)
    rw [escaped, List.flatMap_append]
    exact (isUtf8_escaped_char hc).append (ih hrest)

theorem isUtf8_of_escaped (hclean : Clean name) {before : Bytes}
    (h : IsUtf8 (before ++ escaped name)) : IsUtf8 (before ++ name) := by
  induction name generalizing before with
  | nil => exact h
  | cons b rest ih =>
    obtain ⟨hb, hrest⟩ := hclean.of_cons
    rw [escaped, List.flatMap_cons, ← escaped] at h
    rcases escape_clean hb with ⟨e, hescape, _, he, hlow⟩ | ⟨hescape, _⟩
    · rw [hescape, Option.getD_some] at h
      obtain ⟨hbefore, hafter⟩ := IsUtf8.split (by decide : (0x5c : UInt8).toNat < 128) h
      have htail : IsUtf8 ([] ++ escaped rest) := IsUtf8.tail he hafter
      exact hbefore.append (IsUtf8.cons hlow (ih hrest htail))
    · rw [hescape, Option.getD_some, ← List.append_assoc] at h
      simpa using ih hrest h

end PyCircuit.ModelInput
