/-
  The C types of the server: integers with the implicit conversions of their
  operations, C strings, and blocks of memory.

  `int` is 32 bit, `unsigned` 32 bit, `size_t` and `unsigned long` 64 bit; a
  value is an integer, and a conversion reduces it to the range of its type.
  Strings are given without their terminator.
-/
import Mathlib.Data.Int.ModEq
import Mathlib.Data.UInt

namespace FileStorage

/-! ## Integers -/

def INT_MAX : ℕ := 2147483647

/-- Conversion to `int`. -/
def i32 (x : ℤ) : ℤ := Int.bmod x 4294967296

/-- Conversion to `unsigned`. -/
def u32 (x : ℤ) : ℤ := x % 4294967296

/-- Conversion to `size_t` or `unsigned long`. -/
def u64 (x : ℤ) : ℤ := x % 18446744073709551616

theorem i32_eq {x : ℤ} (h₁ : -2147483648 ≤ x) (h₂ : x ≤ 2147483647) : i32 x = x := by
  unfold i32; rw [Int.bmod_def]; split <;> omega

theorem i32_bounds (x : ℤ) : -2147483648 ≤ i32 x ∧ i32 x ≤ 2147483647 := by
  unfold i32; rw [Int.bmod_def]; split <;> omega

theorem i32_congr {x y : ℤ} (h : x % 4294967296 = y % 4294967296) : i32 x = i32 y := by
  simp only [i32, Int.bmod_def, Nat.cast_ofNat, h]

@[simp] theorem i32_u64 (x : ℤ) : i32 (u64 x) = i32 x := by
  apply i32_congr; unfold u64; omega

@[simp] theorem i32_u32 (x : ℤ) : i32 (u32 x) = i32 x := by
  apply i32_congr; unfold u32; omega

@[simp] theorem i32_u64_add (x y : ℤ) : i32 (u64 x + y) = i32 (x + y) := by
  apply i32_congr; unfold u64; omega

@[simp] theorem i32_i32_add (x y : ℤ) : i32 (i32 x + y) = i32 (x + y) := by
  apply i32_congr; unfold i32; rw [Int.bmod_def]; split <;> omega

@[simp] theorem i32_sub_u32 (x y : ℤ) : i32 (x - u32 y) = i32 (x - y) := by
  apply i32_congr; unfold u32; omega

@[simp] theorem i32_sub_i32 (x y : ℤ) : i32 (x - i32 y) = i32 (x - y) := by
  apply i32_congr; unfold i32; rw [Int.bmod_def]; split <;> omega

theorem u64_eq {x : ℤ} (h₁ : 0 ≤ x) (h₂ : x < 18446744073709551616) : u64 x = x :=
  Int.emod_eq_of_lt h₁ h₂

/-! ## Strings and blocks of memory -/

abbrev Byte := UInt8

abbrev CString := List Byte

/-- A string literal (ASCII). -/
def str (s : String) : CString := s.toList.map fun c => UInt8.ofNat c.toNat

/-- `calloc(1, n)`: a block of `n` zero bytes. -/
def calloc (n : ℕ) : List Byte := List.replicate n 0

/-- The block `dst` after `memcpy(dst + off, src, |src|)`.  If the copy runs past
    the end of the block, this is not all it does: the bytes that are left over
    overwrite what follows in memory. -/
def memcpy (dst : List Byte) (off : ℕ) (src : List Byte) : List Byte :=
  dst.take off ++ src.take (dst.length - off) ++ dst.drop (off + src.length)

@[simp] theorem length_calloc (n : ℕ) : (calloc n).length = n := List.length_replicate

@[simp] theorem length_memcpy (dst : List Byte) (off : ℕ) (src : List Byte) :
    (memcpy dst off src).length = dst.length := by
  simp only [memcpy, List.length_append, List.length_take, List.length_drop]; omega

/-- Copying a whole block into one of the same length. -/
theorem memcpy_calloc {n : ℕ} {src : List Byte} (h : src.length = n) :
    memcpy (calloc n) 0 src = src := by
  have hdrop : (calloc n).drop (0 + src.length) = [] := by simp [h]
  rw [memcpy, hdrop]
  simp [h]

end FileStorage
