import Mathlib.Data.List.Basic

/-!
# Hexadecimal digits of bytes

A byte as two lowercase digits. The digits determine the byte, and a text of such pairs determines
the bytes.
-/

set_option autoImplicit false

namespace PyCircuit.Lib

/-- The bytes of a text. -/
def ascii (text : String) : List UInt8 := text.toUTF8.data.toList

/-- The entry of the table `"0123456789abcdef"`. -/
def hexDigit (n : UInt8) : UInt8 := if n < 10 then 48 + n else 87 + n

/-- The two digits of a byte. -/
def hexPair (b : UInt8) : List UInt8 := [hexDigit (b >>> 4), hexDigit (b &&& 15)]

/-- A property of all bytes is a property of 256 numbers. -/
theorem forall_byte {p : UInt8 → Prop} (h : ∀ n : Fin 256, p (.ofNat n)) (b : UInt8) : p b := by
  have hb := h ⟨b.toNat, b.toNat_lt⟩
  rwa [UInt8.ofNat_toNat] at hb

/-- The value of a digit. -/
def hexValue (c : UInt8) : UInt8 := if c < 58 then c - 48 else c - 87

theorem hexValue_hexPair (b : UInt8) :
    hexValue (hexDigit (b >>> 4)) * 16 + hexValue (hexDigit (b &&& 15)) = b := by
  revert b
  exact forall_byte (by decide +kernel)

theorem hexPair_injective {a b : UInt8} (h : hexPair a = hexPair b) : a = b := by
  obtain ⟨hhigh, hlow⟩ : hexDigit (a >>> 4) = hexDigit (b >>> 4) ∧
      hexDigit (a &&& 15) = hexDigit (b &&& 15) := by simpa [hexPair] using h
  rw [← hexValue_hexPair a, ← hexValue_hexPair b, hhigh, hlow]

theorem flatMap_hexPair_injective {xs ys : List UInt8}
    (h : xs.flatMap hexPair = ys.flatMap hexPair) :
    xs = ys := by
  induction xs generalizing ys with
  | nil => cases ys <;> simp_all [hexPair]
  | cons x xs ih =>
    cases ys with
    | nil => simp [hexPair] at h
    | cons y ys =>
      obtain ⟨hpair, hrest⟩ := List.append_inj h rfl
      rw [hexPair_injective hpair, ih hrest]

end PyCircuit.Lib
