import Mathlib.Algebra.Group.Nat.Defs
import Mathlib.Data.Nat.Init

/-!
# Little-endian words and packed bits

What a byte-addressed store needs to know about the values it holds: a 32-bit
word is four bytes, least significant first, and a byte is eight bits, least
significant first.  Both directions are stated on functions `ℕ → _`, so that a
reader of an array applies them at any offset without slicing.

* `wordByte` / `wordOf`, with `wordOf_wordByte` and `wordByte_wordOf`;
* `byteBit` / `byteOf`, with `byteOf_byteBit` and `byteBit_byteOf`.
-/

namespace LittleEndian

/-! ## Words -/

/-- Byte `k` of a 32-bit word. -/
def wordByte (w : UInt32) (k : ℕ) : UInt8 := UInt8.ofNat (w.toNat / 256 ^ k)

/-- The 32-bit word whose bytes are `b 0`, …, `b 3`. -/
def wordOf (b : ℕ → UInt8) : UInt32 :=
  UInt32.ofNat
    ((b 0).toNat + 256 * (b 1).toNat + 65536 * (b 2).toNat + 16777216 * (b 3).toNat)

theorem toNat_wordOf (b : ℕ → UInt8) : (wordOf b).toNat =
    (b 0).toNat + 256 * (b 1).toNat + 65536 * (b 2).toNat + 16777216 * (b 3).toNat := by
  have h0 := (b 0).toNat_lt
  have h1 := (b 1).toNat_lt
  have h2 := (b 2).toNat_lt
  have h3 := (b 3).toNat_lt
  rw [wordOf, UInt32.toNat_ofNat']
  omega

theorem toNat_wordByte (w : UInt32) (k : ℕ) :
    (wordByte w k).toNat = w.toNat / 256 ^ k % 256 := by
  rw [wordByte, UInt8.toNat_ofNat']

/-- Reading back the bytes of a word gives the word. -/
@[simp] theorem wordOf_wordByte (w : UInt32) : wordOf (wordByte w) = w := by
  have hw := w.toNat_lt
  apply UInt32.toNat.inj
  rw [toNat_wordOf]
  simp only [toNat_wordByte]
  omega

/-- The bytes of a word read from memory are the bytes that were there. -/
theorem wordByte_wordOf (b : ℕ → UInt8) {k : ℕ} (hk : k < 4) : wordByte (wordOf b) k = b k := by
  have h0 := (b 0).toNat_lt
  have h1 := (b 1).toNat_lt
  have h2 := (b 2).toNat_lt
  have h3 := (b 3).toNat_lt
  apply UInt8.toNat.inj
  rw [toNat_wordByte, toNat_wordOf]
  obtain rfl | rfl | rfl | rfl : k = 0 ∨ k = 1 ∨ k = 2 ∨ k = 3 := by omega
  all_goals omega

theorem wordOf_congr {b c : ℕ → UInt8} (h : ∀ k < 4, b k = c k) : wordOf b = wordOf c := by
  rw [wordOf, wordOf, h 0 (by omega), h 1 (by omega), h 2 (by omega), h 3 (by omega)]

@[simp] theorem wordOf_zero : wordOf (fun _ => 0) = 0 := rfl

/-! ## Bits -/

/-- Bit `t` of a byte. -/
def byteBit (b : UInt8) (t : ℕ) : Bool := b.toNat.testBit t

/-- The byte whose bits are `f 0`, …, `f 7`. -/
def byteOf (f : ℕ → Bool) : UInt8 := UInt8.ofNat (Nat.ofBits fun t : Fin 8 => f t)

theorem toNat_byteOf (f : ℕ → Bool) :
    (byteOf f).toNat = Nat.ofBits fun t : Fin 8 => f t := by
  have h := Nat.ofBits_lt_two_pow fun t : Fin 8 => f t
  rw [byteOf, UInt8.toNat_ofNat']
  exact Nat.mod_eq_of_lt h

theorem byteBit_byteOf (f : ℕ → Bool) {t : ℕ} (ht : t < 8) : byteBit (byteOf f) t = f t := by
  rw [byteBit, toNat_byteOf, Nat.testBit_ofBits_lt _ _ ht]

@[simp] theorem byteOf_byteBit (b : UInt8) : byteOf (byteBit b) = b := by
  apply UInt8.toNat.inj
  rw [toNat_byteOf]
  exact (Nat.ofBits_testBit b.toNat 8).trans (Nat.mod_eq_of_lt b.toNat_lt)

theorem byteOf_congr {f g : ℕ → Bool} (h : ∀ t < 8, f t = g t) : byteOf f = byteOf g := by
  rw [byteOf, byteOf]
  congr 2
  funext t
  exact h t t.isLt

end LittleEndian
