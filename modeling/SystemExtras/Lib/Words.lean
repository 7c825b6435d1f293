import Mathlib.Algebra.Order.Floor.Div
import Mathlib.Tactic

/-!
# Machine words

C's unsigned arithmetic on natural numbers: a value of a `w`-bit type is a
natural number below `2 ^ w`, and an operation is the natural one followed by
the reduction that the assignment makes.  Only the reductions that a program
relies on, or could trip over, are written out; `u32_of_lt` and its siblings
remove them where the value is known to fit.
-/

namespace SystemExtras

/-- Conversion to an 8-bit unsigned integer. -/
def u8 (n : ℕ) : ℕ := n % 2 ^ 8

/-- Conversion to a 16-bit unsigned integer. -/
def u16 (n : ℕ) : ℕ := n % 2 ^ 16

/-- Conversion to a 32-bit unsigned integer. -/
def u32 (n : ℕ) : ℕ := n % 2 ^ 32

/-- Conversion to a 64-bit unsigned integer. -/
def u64 (n : ℕ) : ℕ := n % 2 ^ 64

/-- Conversion to a `size_t` or an `unsigned long` of `w` bits. -/
def sizeT (w n : ℕ) : ℕ := n % 2 ^ w

/-- `a - b` in 32 bits. -/
def sub32 (a b : ℕ) : ℕ := u32 (a + (2 ^ 32 - b))

/-- `a - b` in 64 bits. -/
def sub64 (a b : ℕ) : ℕ := u64 (a + (2 ^ 64 - b))

/-- Conversion of a 32-bit pattern to a signed `int`. -/
def s32 (n : ℕ) : ℤ := if u32 n < 2 ^ 31 then u32 n else (u32 n : ℤ) - 2 ^ 32

/-- Conversion of a signed integer to a 32-bit unsigned one. -/
def toU32 (z : ℤ) : ℕ := (z % 2 ^ 32).toNat

/-- `DIV_ROUND_UP(x, y)` with 32-bit operands. -/
def divRoundUp32 (x y : ℕ) : ℕ := u32 (x + y - 1) / y

/-- `DIV_ROUND_UP(x, y)` with a 64-bit operand. -/
def divRoundUp64 (x y : ℕ) : ℕ := u64 (x + y - 1) / y

@[simp] theorem u16_lt (n : ℕ) : u16 n < 2 ^ 16 := Nat.mod_lt _ (by decide)

@[simp] theorem u32_lt (n : ℕ) : u32 n < 2 ^ 32 := Nat.mod_lt _ (by decide)

@[simp] theorem u64_lt (n : ℕ) : u64 n < 2 ^ 64 := Nat.mod_lt _ (by decide)

theorem u16_of_lt {n : ℕ} (h : n < 2 ^ 16) : u16 n = n := Nat.mod_eq_of_lt h

theorem u32_of_lt {n : ℕ} (h : n < 2 ^ 32) : u32 n = n := Nat.mod_eq_of_lt h

theorem u64_of_lt {n : ℕ} (h : n < 2 ^ 64) : u64 n = n := Nat.mod_eq_of_lt h

theorem s32_of_lt {n : ℕ} (h : n < 2 ^ 31) : s32 n = n := by
  unfold s32 u32
  rw [Nat.mod_eq_of_lt (by omega), if_pos h]

theorem toU32_of_lt {z : ℤ} {n : ℕ} (hz : z = n) (h : n < 2 ^ 32) : toU32 z = n := by
  unfold toU32
  omega

theorem sub32_of_le {a b : ℕ} (hb : b ≤ a) (ha : a < 2 ^ 32) : sub32 a b = a - b := by
  unfold sub32 u32
  omega

theorem sub64_of_le {a b : ℕ} (hb : b ≤ a) (ha : a < 2 ^ 64) : sub64 a b = a - b := by
  unfold sub64 u64
  omega

/-- There are no more than `n` numbers below `n`. -/
theorem length_le_of_nodup {l : List ℕ} {n : ℕ} (hnodup : l.Nodup) (hlt : ∀ a ∈ l, a < n) :
    l.length ≤ n := by
  have hsub : l ⊆ List.range n := fun a ha => List.mem_range.mpr (hlt a ha)
  exact (hnodup.subperm hsub).length_le.trans_eq List.length_range

/-- Where nothing wraps, `DIV_ROUND_UP` is the ceiling quotient. -/
theorem divRoundUp32_eq {x y : ℕ} (h : x + y - 1 < 2 ^ 32) : divRoundUp32 x y = x ⌈/⌉ y := by
  rw [divRoundUp32, u32_of_lt h, Nat.ceilDiv_eq_add_pred_div]

theorem divRoundUp64_eq {x y : ℕ} (h : x + y - 1 < 2 ^ 64) : divRoundUp64 x y = x ⌈/⌉ y := by
  rw [divRoundUp64, u64_of_lt h, Nat.ceilDiv_eq_add_pred_div]

end SystemExtras
