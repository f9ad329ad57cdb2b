import Mathlib.Data.List.Basic

/-!
# UTF-8

A byte string is UTF-8 when it is the encoding of a list of characters. ASCII bytes only encode
themselves, so a text can be cut at each of them.
-/

set_option autoImplicit false

namespace PyCircuit

/-- The byte string encodes a list of characters. -/
def IsUtf8 (bytes : List UInt8) : Prop :=
  ∃ text : List Char, text.flatMap String.utf8EncodeChar = bytes

namespace IsUtf8

theorem nil : IsUtf8 [] := ⟨[], rfl⟩

theorem append {xs ys : List UInt8} (hxs : IsUtf8 xs) (hys : IsUtf8 ys) : IsUtf8 (xs ++ ys) := by
  obtain ⟨left, rfl⟩ := hxs
  obtain ⟨right, rfl⟩ := hys
  exact ⟨left ++ right, List.flatMap_append⟩

theorem encodeChar_ascii {c : Char} (h : c.val.toNat ≤ 127) :
    String.utf8EncodeChar c = [UInt8.ofNat c.val.toNat] := if_pos h

/-- A character outside ASCII is encoded without ASCII bytes. -/
theorem encodeChar_high {c : Char} (h : ¬ c.val.toNat ≤ 127) :
    ∀ b ∈ String.utf8EncodeChar c, 128 ≤ b.toNat := by
  have hlow : ∀ a k : Nat, k < 64 → a + k < 256 → 128 ≤ a → 128 ≤ (UInt8.ofNat (k + a)).toNat := by
    intro a k _ hlt ha
    rw [UInt8.toNat_ofNat']
    omega
  intro b hb
  rw [String.utf8EncodeChar, if_neg h] at hb
  split at hb
  · simp only [List.mem_cons, List.not_mem_nil, or_false] at hb
    rcases hb with rfl | rfl <;> exact hlow _ _ (by omega) (by omega) (by omega)
  · split at hb
    · simp only [List.mem_cons, List.not_mem_nil, or_false] at hb
      rcases hb with rfl | rfl | rfl <;> exact hlow _ _ (by omega) (by omega) (by omega)
    · simp only [List.mem_cons, List.not_mem_nil, or_false] at hb
      rcases hb with rfl | rfl | rfl | rfl <;> exact hlow _ _ (by omega) (by omega) (by omega)

variable {b : UInt8} {bytes : List UInt8}

theorem singleton (h : b.toNat < 128) : IsUtf8 [b] := by
  have hvalid : b.toNat.isValidChar := Or.inl (by omega)
  refine ⟨[Char.ofNat b.toNat], ?_⟩
  have hval : (Char.ofNat b.toNat).val.toNat = b.toNat := by
    rw [Char.ofNat, dif_pos hvalid]
    rfl
  rw [List.flatMap_cons, List.flatMap_nil, List.append_nil, encodeChar_ascii (by omega), hval,
    UInt8.ofNat_toNat]

theorem cons (h : b.toNat < 128) (hbytes : IsUtf8 bytes) :
    IsUtf8 (b :: bytes) :=
  (singleton h).append hbytes

theorem of_ascii (h : ∀ b ∈ bytes, b.toNat < 128) : IsUtf8 bytes := by
  induction bytes with
  | nil => exact nil
  | cons b rest ih =>
    exact cons (h b List.mem_cons_self) (ih (List.forall_mem_cons.mp h).2)

/-- A text splits at an ASCII byte. -/
theorem split {xs ys : List UInt8} (hb : b.toNat < 128) (h : IsUtf8 (xs ++ b :: ys)) :
    IsUtf8 xs ∧ IsUtf8 ys := by
  obtain ⟨text, htext⟩ := h
  induction text generalizing xs with
  | nil => cases xs <;> cases htext
  | cons c rest ih =>
    rw [List.flatMap_cons] at htext
    rcases List.append_eq_append_iff.mp htext with ⟨tail, rfl, hrest⟩ | ⟨tail, hc, hrest⟩
    · -- the character is before the byte
      obtain ⟨htail, hys⟩ := ih hrest
      exact ⟨append ⟨[c], by simp⟩ htail, hys⟩
    · cases tail with
      | nil =>
        rw [List.append_nil] at hc
        have hempty : rest.flatMap String.utf8EncodeChar = [] ++ b :: ys := by
          simpa using hrest.symm
        exact ⟨⟨[c], by simp [hc]⟩, (ih hempty).2⟩
      | cons d tail =>
        -- the byte is in the encoding of the character, which is then ASCII
        obtain ⟨rfl, hys⟩ : d = b ∧ tail ++ rest.flatMap String.utf8EncodeChar = ys := by
          simpa [eq_comm] using hrest
        have hmem : d ∈ String.utf8EncodeChar c := by rw [hc]; simp
        have hascii : c.val.toNat ≤ 127 := by
          by_contra hhigh
          have := encodeChar_high hhigh d hmem
          omega
        rw [encodeChar_ascii hascii] at hc
        obtain ⟨rfl, rfl⟩ : xs = [] ∧ tail = [] := by
          cases xs with
          | nil => exact ⟨rfl, by simpa using (List.cons.inj hc).2.symm⟩
          | cons x xs => simp at hc
        exact ⟨nil, rest, by simpa using hys⟩

theorem tail (hb : b.toNat < 128) (h : IsUtf8 (b :: bytes)) :
    IsUtf8 bytes := by
  have hempty : IsUtf8 ([] ++ b :: bytes) := h
  exact (split hb hempty).2

end IsUtf8

end PyCircuit
