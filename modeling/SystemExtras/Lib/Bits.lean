import SystemExtras.Lib.Bytes
import Mathlib.Data.Nat.Bitwise

/-!
# Bitmaps in byte memories

A bitmap keeps bit `b` in byte `b / 8` under the mask `1 << (b % 8)`.  The four
operations C programs use on such a map (test a bit, set a bit, set a whole
byte, clear a bit) are defined here on bytes, as the programs write them, and
described on bits: `bit_orBit`, `bit_fillByte` and `bit_andNotBit` say which bits
an operation changes, so that no proof about a bitmap looks at bytes again.

`clear m n` is the set of clear bits below `n`, and counting it is how a free
count is compared with a bitmap.
-/

namespace SystemExtras.Mem

/-- Bit `b` of the bitmap. -/
def bit (m : Mem) (b : ℕ) : Bool := (m (b / 8)).toNat.testBit (b % 8)

/-- `m[b / 8] |= 1 << (b % 8)`. -/
def orBit (m : Mem) (b : ℕ) : Mem := fun x =>
  if x = b / 8 then UInt8.ofNat ((m x).toNat ||| 2 ^ (b % 8)) else m x

/-- `m[b / 8] = 0xFF`. -/
def fillByte (m : Mem) (b : ℕ) : Mem := fun x => if x = b / 8 then 0xFF else m x

/-- `m[b / 8] &= ~(1 << (b % 8))`. -/
def andNotBit (m : Mem) (b : ℕ) : Mem := fun x =>
  if x = b / 8 then UInt8.ofNat ((m x).toNat &&& (255 ^^^ 2 ^ (b % 8))) else m x

theorem testBit_ofNat_byte {n i : ℕ} (hi : i < 8) :
    (UInt8.ofNat n).toNat.testBit i = n.testBit i := by
  rw [UInt8.toNat_ofNat', Nat.testBit_mod_two_pow]
  simp [hi]

theorem bit_orBit (m : Mem) (b c : ℕ) : (m.orBit b).bit c = (m.bit c || decide (c = b)) := by
  have hc := Nat.mod_lt c (show 0 < 8 by decide)
  unfold bit orBit
  by_cases hbyte : c / 8 = b / 8
  · have hsame : (b % 8 = c % 8) ↔ (c = b) := by omega
    rw [if_pos hbyte, testBit_ofNat_byte hc, Nat.testBit_or, Nat.testBit_two_pow]
    simp only [hsame]
  · have hne : c ≠ b := fun h => hbyte (h ▸ rfl)
    rw [if_neg hbyte]
    simp [hne]

theorem bit_fillByte (m : Mem) (b c : ℕ) :
    (m.fillByte b).bit c = (m.bit c || decide (c / 8 = b / 8)) := by
  have hc := Nat.mod_lt c (show 0 < 8 by decide)
  unfold bit fillByte
  by_cases hbyte : c / 8 = b / 8
  · have hones : (255 : ℕ).testBit (c % 8) = true := by
      rw [show (255 : ℕ) = 2 ^ 8 - 1 by decide, Nat.testBit_two_pow_sub_one]
      simp [hc]
    rw [if_pos hbyte]
    simpa [hbyte] using hones
  · rw [if_neg hbyte]
    simp [hbyte]

theorem bit_andNotBit (m : Mem) (b c : ℕ) :
    (m.andNotBit b).bit c = (m.bit c && decide (c ≠ b)) := by
  have hc := Nat.mod_lt c (show 0 < 8 by decide)
  unfold bit andNotBit
  by_cases hbyte : c / 8 = b / 8
  · have hsame : (b % 8 = c % 8) ↔ (c = b) := by omega
    have hones : (255 : ℕ).testBit (c % 8) = true := by
      rw [show (255 : ℕ) = 2 ^ 8 - 1 by decide, Nat.testBit_two_pow_sub_one]
      simp [hc]
    rw [if_pos hbyte, testBit_ofNat_byte hc, Nat.testBit_and, Nat.testBit_xor,
      Nat.testBit_two_pow, hones]
    simp only [hsame, Bool.true_xor, decide_not]
  · have hne : c ≠ b := fun h => hbyte (h ▸ rfl)
    rw [if_neg hbyte]
    simp [hne]

@[simp] theorem bit_zero (b : ℕ) : Mem.zero.bit b = false := by simp [bit, zero]

/-- A byte is zero exactly when its eight bits are clear. -/
theorem byte_eq_zero_iff (m : Mem) (k : ℕ) :
    m k = 0 ↔ ∀ c, c / 8 = k → m.bit c = false := by
  constructor
  · rintro h c rfl
    simp [bit, h]
  · intro h
    apply UInt8.toNat.inj
    apply Nat.eq_of_testBit_eq
    intro i
    by_cases hi : i < 8
    · have := h (8 * k + i) (by omega)
      unfold bit at this
      rw [show (8 * k + i) / 8 = k by omega, show (8 * k + i) % 8 = i by omega] at this
      simpa using this
    · have hlt : (m k).toNat < 2 ^ i :=
        (m k).toNat_lt.trans_le (Nat.pow_le_pow_right (by decide) (not_lt.mp hi))
      rw [Nat.testBit_lt_two_pow hlt]
      simp

/-- The clear bits below `n`. -/
def clear (m : Mem) (n : ℕ) : Finset ℕ := (Finset.range n).filter fun b => m.bit b = false

theorem mem_clear {m : Mem} {n b : ℕ} : b ∈ m.clear n ↔ b < n ∧ m.bit b = false := by
  simp [clear]

/-- A bitmap whose clear bits below `n` are an interval has as many of them as
the interval is long. -/
theorem card_clear_of_interval {m : Mem} {n : ℕ} (lo hi : ℕ) (hhi : hi ≤ n)
    (h : ∀ b < n, m.bit b = false ↔ lo ≤ b ∧ b < hi) : (m.clear n).card = hi - lo := by
  have : m.clear n = Finset.Ico lo hi := by
    ext b
    rw [mem_clear, Finset.mem_Ico]
    constructor
    · rintro ⟨hb, hbit⟩
      exact (h b hb).mp hbit
    · intro hb
      exact ⟨by omega, (h b (by omega)).mpr hb⟩
  rw [this, Nat.card_Ico]

/-! ## Setting a range of bits -/

/-- `m'` is `m` with the bits `[lo, hi)` set. -/
def SetsRange (m m' : Mem) (lo hi : ℕ) : Prop :=
  ∀ c, m'.bit c = (m.bit c || decide (lo ≤ c ∧ c < hi))

/-- The bits `[lo, hi)` of `m` are clear. -/
def ClearRange (m : Mem) (lo hi : ℕ) : Prop := ∀ c, lo ≤ c → c < hi → m.bit c = false

namespace SetsRange

variable {m m' m'' : Mem} {lo mid hi : ℕ}

theorem refl (m : Mem) (lo : ℕ) : SetsRange m m lo lo := by
  intro c
  have : ¬ (lo ≤ c ∧ c < lo) := by omega
  simp [this]

theorem trans (h₁ : SetsRange m m' lo mid) (h₂ : SetsRange m' m'' mid hi) (hlm : lo ≤ mid)
    (hmh : mid ≤ hi) : SetsRange m m'' lo hi := by
  intro c
  rw [h₂ c, h₁ c, Bool.or_assoc, ← Bool.decide_or]
  have hsplit : (lo ≤ c ∧ c < mid ∨ mid ≤ c ∧ c < hi) ↔ (lo ≤ c ∧ c < hi) := by omega
  simp only [hsplit]

theorem orBit (m : Mem) (b : ℕ) : SetsRange m (m.orBit b) b (b + 1) := by
  intro c
  have hone : (c = b) ↔ (b ≤ c ∧ c < b + 1) := by omega
  rw [bit_orBit]
  simp only [hone]

theorem fillByte (m : Mem) {b : ℕ} (hb : b % 8 = 0) : SetsRange m (m.fillByte b) b (b + 8) := by
  intro c
  have hbyte : (c / 8 = b / 8) ↔ (b ≤ c ∧ c < b + 8) := by omega
  rw [bit_fillByte]
  simp only [hbyte]

/-- A range that is clear stays clear above what was set. -/
theorem clearRange (h : SetsRange m m' lo mid) (hlm : lo ≤ mid) {k : ℕ}
    (hclear : ClearRange m lo k) : ClearRange m' mid k := by
  intro c h₁ h₂
  have hout : ¬ (lo ≤ c ∧ c < mid) := by omega
  rw [h c]
  simp [hclear c (by omega) h₂, hout]

end SetsRange

/-! ## Clearing a range of bits -/

/-- `m'` is `m` with the bits `[lo, hi)` cleared. -/
def ClearsRange (m m' : Mem) (lo hi : ℕ) : Prop :=
  ∀ c, m'.bit c = (m.bit c && !decide (lo ≤ c ∧ c < hi))

namespace ClearsRange

variable {m m' m'' : Mem} {lo mid hi : ℕ}

theorem refl (m : Mem) (lo : ℕ) : ClearsRange m m lo lo := by
  intro c
  have : ¬ (lo ≤ c ∧ c < lo) := by omega
  simp [this]

/-- A range is cleared from above. -/
theorem trans (h₁ : ClearsRange m m' mid hi) (h₂ : ClearsRange m' m'' lo mid) (hlm : lo ≤ mid)
    (hmh : mid ≤ hi) : ClearsRange m m'' lo hi := by
  intro c
  have hsplit : (lo ≤ c ∧ c < hi) ↔ (mid ≤ c ∧ c < hi ∨ lo ≤ c ∧ c < mid) := by omega
  rw [h₂ c, h₁ c, Bool.and_assoc, ← Bool.not_or, ← Bool.decide_or]
  simp only [hsplit]

theorem andNotBit (m : Mem) (b : ℕ) : ClearsRange m (m.andNotBit b) b (b + 1) := by
  intro c
  have hone : (b ≤ c ∧ c < b + 1) ↔ c = b := by omega
  simp only [bit_andNotBit, hone]
  simp

end ClearsRange

end SystemExtras.Mem
