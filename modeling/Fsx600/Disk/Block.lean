import Fsx600.Lib.LittleEndian
import Mathlib.Tactic.Common

/-!
# Blocks

A block is `FS_BLOCK_SIZE = 1024` bytes of memory.  The C code casts the same buffer to
`char *`, `int *` and `struct fs_dirent *` in turn, and a recycled block is read
under another type than the one it was written under, so bytes are the ground
truth here and everything else is a view of them.

* `Block.byte`, `Block.memcpy`: the `char *` view;
* `Block.word`, `Block.setWord`, `Block.ofWords`: the `int *` view;
* `mapBit`, `mapBlock`: the `fd_set *` view of a run of blocks.
-/

namespace Fsx600

open LittleEndian

/-- A block of the image, or a `malloc(FS_BLOCK_SIZE)` buffer. -/
def Block : Type := Fin 1024 → UInt8

namespace Block

/-- Byte `x` of a block; zero past its end. -/
def byte (b : Block) (x : ℕ) : UInt8 := if h : x < 1024 then b ⟨x, h⟩ else 0

/-- The block with the given bytes. -/
def ofFn (f : ℕ → UInt8) : Block := fun x => f x

@[simp] theorem byte_ofFn (f : ℕ → UInt8) {x : ℕ} (hx : x < 1024) :
    (ofFn f).byte x = f x := by
  simp [byte, ofFn, hx]

theorem byte_of_le (b : Block) {x : ℕ} (hx : 1024 ≤ x) : b.byte x = 0 := by
  simp [byte, Nat.not_lt.mpr hx]

@[ext] theorem ext {b c : Block} (h : ∀ x < 1024, b.byte x = c.byte x) : b = c := by
  funext x
  have hx := h x x.isLt
  simpa [byte, x.isLt] using hx

instance : DecidableEq Block := fun b c =>
  decidable_of_iff (∀ x < 1024, b.byte x = c.byte x) ⟨ext, fun h _ _ => by rw [h]⟩

/-- `memset(block, 0, FS_BLOCK_SIZE)`. -/
def zero : Block := ofFn fun _ => 0

@[simp] theorem byte_zero (x : ℕ) : zero.byte x = 0 := by
  by_cases hx : x < 1024
  · simp [zero, hx]
  · exact byte_of_le _ (Nat.le_of_not_lt hx)

/-- `memcpy(block + start, buf, n)`. -/
def memcpy (b : Block) (start : ℕ) (buf : ℕ → UInt8) (n : ℕ) : Block :=
  ofFn fun x => if start ≤ x ∧ x < start + n then buf (x - start) else b.byte x

theorem byte_memcpy (b : Block) (start : ℕ) (buf : ℕ → UInt8) (n : ℕ) {x : ℕ}
    (hx : x < 1024) : (b.memcpy start buf n).byte x =
      if start ≤ x ∧ x < start + n then buf (x - start) else b.byte x := by
  rw [memcpy, byte_ofFn _ hx]

/-! ## Words

`ADDR_PER_BLOCK = 256` of them to a block. -/

/-- Entry `i` of the block read as an array of 32-bit words. -/
def word (b : Block) (i : ℕ) : UInt32 := wordOf fun k => b.byte (4 * i + k)

/-- Store a word at index `i`. -/
def setWord (b : Block) (i : ℕ) (w : UInt32) : Block :=
  ofFn fun x => if x / 4 = i then wordByte w (x % 4) else b.byte x

/-- The block that holds the given words. -/
def ofWords (f : ℕ → UInt32) : Block := ofFn fun x => wordByte (f (x / 4)) (x % 4)

@[simp] theorem word_ofWords (f : ℕ → UInt32) {i : ℕ} (hi : i < 256) :
    (ofWords f).word i = f i := by
  rw [word, ← wordOf_wordByte (f i)]
  refine wordOf_congr fun k hk => ?_
  have hdiv : (4 * i + k) / 4 = i := by omega
  have hmod : (4 * i + k) % 4 = k := by omega
  rw [ofWords, byte_ofFn _ (by omega), hdiv, hmod]

/-- A block is determined by its words. -/
@[simp] theorem ofWords_word (b : Block) : ofWords b.word = b := by
  refine Block.ext fun x hx => ?_
  rw [ofWords, byte_ofFn _ hx, word, wordByte_wordOf _ (Nat.mod_lt _ (by omega))]
  congr 1
  omega

theorem ext_word {b c : Block} (h : ∀ k, b.word k = c.word k) : b = c := by
  rw [← ofWords_word b, ← ofWords_word c, funext h]

@[simp] theorem word_setWord_self (b : Block) {i : ℕ} (w : UInt32) (hi : i < 256) :
    (b.setWord i w).word i = w := by
  conv_rhs => rw [← wordOf_wordByte w]
  rw [word]
  refine wordOf_congr fun k hk => ?_
  have hdiv : (4 * i + k) / 4 = i := by omega
  have hmod : (4 * i + k) % 4 = k := by omega
  rw [setWord, byte_ofFn _ (by omega), if_pos hdiv, hmod]

theorem word_of_le (b : Block) {i : ℕ} (hi : 256 ≤ i) : b.word i = 0 := by
  rw [word, ← wordOf_zero]
  refine wordOf_congr fun k _ => byte_of_le _ ?_
  omega

theorem word_setWord_of_ne (b : Block) {i j : ℕ} (w : UInt32) (hij : j ≠ i) :
    (b.setWord i w).word j = b.word j := by
  by_cases hj : j < 256
  · refine wordOf_congr fun k hk => ?_
    have hdiv : (4 * j + k) / 4 ≠ i := by omega
    rw [setWord, byte_ofFn _ (by omega), if_neg hdiv]
  · rw [word_of_le _ (Nat.le_of_not_lt hj), word_of_le _ (Nat.le_of_not_lt hj)]

@[simp] theorem word_zero (i : ℕ) : zero.word i = 0 := by
  simp only [word, byte_zero, wordOf_zero]

end Block

/-! ## Bitmaps

A bitmap of `sz` blocks is an `fd_set` of `8192 * sz` bits, 8192 to a block.  In memory it is a
function on bit numbers; `mapBlock` is what a run of blocks on disk holds for it
and `mapBit` reads such a run back. -/

/-- `FD_ISSET(i, map)` on a run of blocks. -/
def mapBit (f : ℕ → Block) (i : ℕ) : Bool :=
  byteBit ((f (i / 8192)).byte (i % 8192 / 8)) (i % 8)

/-- Block `k` of a bitmap laid out on disk. -/
def mapBlock (m : ℕ → Bool) (k : ℕ) : Block :=
  Block.ofFn fun x => byteOf fun t => m (8192 * k + 8 * x + t)

/-- A bitmap written out and read back is the bitmap. -/
@[simp] theorem mapBit_mapBlock (m : ℕ → Bool) (i : ℕ) : mapBit (mapBlock m) i = m i := by
  rw [mapBit, mapBlock, Block.byte_ofFn _ (by omega),
    byteBit_byteOf _ (Nat.mod_lt _ (by omega))]
  congr 1
  omega

/-- A run of blocks is determined by its bits. -/
theorem mapBlock_eq {m : ℕ → Bool} {f : ℕ → Block} {k : ℕ}
    (h : ∀ i, i / 8192 = k → m i = mapBit f i) : mapBlock m k = f k := by
  refine Block.ext fun x hx => ?_
  rw [mapBlock, Block.byte_ofFn _ hx, ← byteOf_byteBit ((f k).byte x)]
  refine byteOf_congr fun t ht => ?_
  have hdiv : (8192 * k + 8 * x + t) / 8192 = k := by omega
  have hmod : (8192 * k + 8 * x + t) % 8192 / 8 = x := by omega
  have hbit : (8192 * k + 8 * x + t) % 8 = t := by omega
  rw [h _ hdiv, mapBit, hdiv, hmod, hbit]

/-- A block of a bitmap is determined by the bits that it holds. -/
theorem mapBlock_congr {m m' : ℕ → Bool} {k : ℕ} (h : ∀ i, i / 8192 = k → m' i = m i) :
    mapBlock m' k = mapBlock m k :=
  mapBlock_eq fun i hi => (h i hi).trans (mapBit_mapBlock m i).symm

/-- A run of blocks holds a bitmap exactly when every bit of it reads as in the bitmap. -/
theorem forall_eq_mapBlock_iff {m : ℕ → Bool} {f : ℕ → Block} {sz : ℕ} :
    (∀ k < sz, f k = mapBlock m k) ↔ ∀ i < 8192 * sz, mapBit f i = m i := by
  constructor
  · intro h i hi
    rw [mapBit, h (i / 8192) (by omega), ← mapBit, mapBit_mapBlock]
  · intro h k hk
    exact (mapBlock_eq fun i hi => (h i (by omega)).symm).symm

end Fsx600
