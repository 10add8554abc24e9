import Fsx600.Disk.Block
import Fsx600.Lib.Checked
import Fsx600.Lib.RangeArray

/-!
# The image device

`image.c`: a file with a descriptor open on it, read and written in units of `BLOCK_SIZE` bytes.
What it is asked for are numbers of blocks, and what it asks the kernel for are numbers of bytes;
both it computes in `int`, which is modelled as arithmetic modulo `2^32`.

`pread` and `pwrite` transfer all that they are asked for, as far as there is a file to read from.
What the functions print is left out; a failed assertion, and an error that ends in `assert(0)`, is
an `ImageFault`.
-/

namespace Fsx600

open RangeArray

/-! ## Files -/

/-- A regular file: `st_size` bytes. -/
structure File where
  size : ℕ
  byte : ℕ → UInt8
  byte_of_le : ∀ x, size ≤ x → byte x = 0

/-- Block `b` of a buffer or of a file. -/
def blockAt (bytes : ℕ → UInt8) (b : ℕ) : Block := group 1024 bytes b

namespace File

/-- `pread(fd, buf, count, offset)`: the return value and the buffer. -/
def pread (f : File) (buf : ℕ → UInt8) (count : UInt64) (offset : Int64) : Int64 × (ℕ → UInt8) :=
  if offset < 0 ∨ 2 ^ 63 ≤ count.toNat then (-1, buf)
  else
    let n := min count.toNat (f.size - offset.toNatClampNeg)
    (Int64.ofNat n, store buf ⟨0, n, fun x => f.byte (offset.toNatClampNeg + x)⟩)

/-- The file with the bytes of `buf` from `first` on, longer than before if need be. -/
def put (f : File) (buf : ℕ → UInt8) (count first : ℕ) : File where
  size := if count = 0 then f.size else max f.size (first + count)
  byte := store f.byte ⟨first, count, buf⟩
  byte_of_le := fun x hx => by
    have hnot : ¬ (Write.mk first count buf).Covers x := by
      rintro ⟨hle, hlt⟩
      dsimp only at hle hlt
      split at hx <;> omega
    rw [store_of_not_covers hnot]
    exact f.byte_of_le x (by split at hx <;> omega)

/-- `pwrite(fd, buf, count, offset)`: the return value and the file. -/
def pwrite (f : File) (buf : ℕ → UInt8) (count : UInt64) (offset : Int64) : Int64 × File :=
  if offset < 0 ∨ 2 ^ 63 ≤ count.toNat then (-1, f)
  else (Int64.ofNat count.toNat, f.put buf count.toNat offset.toNatClampNeg)

end File

/-! ## The operations -/

/-- The ways the device can stop the program. -/
inductive ImageFault where
  /-- `assert(offset >= 0 && offset+len <= im->nblks)`. -/
  | bounds
  /-- "read error on %s: %s". -/
  | readError
  /-- "short read on %s: %s". -/
  | shortRead
  /-- "write error on %s: %s". -/
  | writeError
  deriving DecidableEq

abbrev SUCCESS : Int32 := 0
abbrev E_UNAVAIL : Int32 := -2

/-- `struct image_dev`, with the file that `fd` is open on. -/
structure ImageDev where
  file : File
  /-- `fd == -1`. -/
  failed : Bool
  nblks : Int32

/-- `len*BLOCK_SIZE`, as it is passed to `pread` and `pwrite`. -/
def countArg (len : Int32) : UInt64 := (len * 1024).toInt64.toUInt64

/-- `offset*BLOCK_SIZE`, as it is passed to `pread` and `pwrite`. -/
def offsetArg (offset : Int32) : Int64 := (offset * 1024).toInt64

/-- `image_create` on a file that can be opened. -/
def imageCreate (f : File) : ImageDev := ⟨f, false, Int32.ofNat (f.size / 1024)⟩

namespace ImageDev

variable (im : ImageDev)

/-- The assertion of `image_read` and `image_write`. -/
def InRange (offset len : Int32) : Prop := 0 ≤ offset ∧ offset + len ≤ im.nblks

instance (offset len : Int32) : Decidable (im.InRange offset len) :=
  inferInstanceAs (Decidable (_ ∧ _))

/-- `image_read`: the return code and the buffer. -/
def imageRead (offset len : Int32) (buf : ℕ → UInt8) : Except ImageFault (Int32 × (ℕ → UInt8)) :=
  if im.failed then .ok (E_UNAVAIL, buf)
  else if im.InRange offset len then
    let (n, buf) := im.file.pread buf (countArg len) (offsetArg offset)
    let result := n.toInt32
    if result < 0 then .error .readError
    else if result ≠ len * 1024 then .error .shortRead
    else .ok (SUCCESS, buf)
  else .error .bounds

/-- `image_write`: the return code and the device. -/
def imageWrite (offset len : Int32) (buf : ℕ → UInt8) : Except ImageFault (Int32 × ImageDev) :=
  if im.failed then .ok (E_UNAVAIL, im)
  else if im.InRange offset len then
    let (n, file) := im.file.pwrite buf (countArg len) (offsetArg offset)
    let result := n.toInt32
    if result ≠ len * 1024 then .error .writeError
    else .ok (SUCCESS, { im with file })
  else .error .bounds

end ImageDev

/-! ## Sequences of requests -/

/-- A call of `image_read` or `image_write`. -/
inductive Request where
  | read (offset len : Int32) (buf : ℕ → UInt8)
  | write (offset len : Int32) (buf : ℕ → UInt8)

namespace Request

def offset : Request → Int32
  | read offset _ _ | write offset _ _ => offset

def len : Request → Int32
  | read _ len _ | write _ len _ => len

/-- The call passes the assertion on a device of `nblks` blocks, and its length is not negative. -/
def Passes (nblks : Int32) (a : Request) : Prop :=
  (0 ≤ a.offset ∧ a.offset + a.len ≤ nblks) ∧ 0 ≤ a.len

instance (nblks : Int32) (a : Request) : Decidable (a.Passes nblks) :=
  inferInstanceAs (Decidable (_ ∧ _))

end Request

namespace ImageDev

/-- One call: the return code, the buffer and the device. -/
def serve (im : ImageDev) : Request → Except ImageFault (Int32 × (ℕ → UInt8) × ImageDev)
  | .read offset len buf => do
    let (r, buf) ← im.imageRead offset len buf
    .ok (r, buf, im)
  | .write offset len buf => do
    let (r, im) ← im.imageWrite offset len buf
    .ok (r, buf, im)

/-- Calls one after another. -/
def serveAll (im : ImageDev) : List Request → Except ImageFault ImageDev
  | [] => .ok im
  | a :: rest => do
    let (_, _, im) ← im.serve a
    im.serveAll rest

end ImageDev

end Fsx600
