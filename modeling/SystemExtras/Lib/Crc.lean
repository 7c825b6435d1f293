import Mathlib.Tactic

/-!
# Cyclic redundancy checks of 16 bits, a byte at a time

A step takes a byte, looks up a word in a table of 256, and shifts the remainder down by
one byte.  If the high bytes of the words are all different, a step loses nothing: the
remainder before it can be told from the one behind it (`crcStep_injective`), and so can
two bytes that are read one after the other (`crcStep_crcStep_inj`).  So a change of two
neighbouring bytes always shows in the check (`crc_eq_iff_of_pair`).
-/

namespace SystemExtras

/-- One step of the check. -/
def crcStep (table : UInt8 → UInt16) (crc : UInt16) (byte : UInt8) : UInt16 :=
  table (crc.toUInt8 ^^^ byte) ^^^ (crc >>> 8)

/-- The check of a list of bytes. -/
def crc (table : UInt8 → UInt16) (start : UInt16) (bytes : List UInt8) : UInt16 :=
  bytes.foldl (crcStep table) start

/-- The high bytes of the table are all different. -/
def HighBytesDiffer (table : UInt8 → UInt16) : Prop :=
  Function.Injective fun i => table i >>> 8

section Crc

variable {table : UInt8 → UInt16} {c c' start : UInt16} {a a' b b' : UInt8} {l r : List UInt8}

/-- The shifted remainder has no high byte. -/
theorem crcStep_high (c : UInt16) (b : UInt8) :
    crcStep table c b >>> 8 = table (c.toUInt8 ^^^ b) >>> 8 := by
  have hzero : c >>> 8 >>> 8 = 0 := by
    apply UInt16.toNat_inj.mp
    have hlt := c.toNat_lt
    simp only [UInt16.toNat_shiftRight]
    simp [Nat.shiftRight_eq_div_pow]
    omega
  unfold crcStep
  rw [UInt16.shiftRight_xor, hzero, UInt16.xor_zero]

theorem eq_of_bytes (hlow : c.toUInt8 = c'.toUInt8) (hhigh : c >>> 8 = c' >>> 8) : c = c' := by
  have h₁ : c.toNat % 256 = c'.toNat % 256 := by simpa using congrArg UInt8.toNat hlow
  have h₂ : c.toNat / 256 = c'.toNat / 256 := by
    simpa [Nat.shiftRight_eq_div_pow] using congrArg UInt16.toNat hhigh
  apply UInt16.toNat_inj.mp
  omega

theorem crc_append (start : UInt16) (l r : List UInt8) :
    crc table start (l ++ r) = crc table (crc table start l) r := List.foldl_append

theorem crc_cons (start : UInt16) (b : UInt8) (r : List UInt8) :
    crc table start (b :: r) = crc table (crcStep table start b) r := rfl

variable (htable : HighBytesDiffer table)

include htable

/-- What a step knows afterwards. -/
theorem crcStep_inj (h : crcStep table c b = crcStep table c' b') :
    c.toUInt8 ^^^ b = c'.toUInt8 ^^^ b' ∧ c >>> 8 = c' >>> 8 := by
  have hindex : c.toUInt8 ^^^ b = c'.toUInt8 ^^^ b' := by
    apply htable
    change table _ >>> 8 = table _ >>> 8
    rw [← crcStep_high, ← crcStep_high, h]
  refine ⟨hindex, ?_⟩
  unfold crcStep at h
  rw [hindex] at h
  exact (UInt16.xor_right_inj _).mp h

theorem crcStep_injective (b : UInt8) : Function.Injective fun c => crcStep table c b := by
  intro c c' h
  obtain ⟨hindex, hhigh⟩ := crcStep_inj htable h
  exact eq_of_bytes ((UInt8.xor_left_inj _).mp hindex) hhigh

theorem crcStep_crcStep_inj
    (h : crcStep table (crcStep table c a) b = crcStep table (crcStep table c a') b') :
    a = a' ∧ b = b' := by
  obtain ⟨hindex, hhigh⟩ := crcStep_inj htable h
  rw [crcStep_high, crcStep_high] at hhigh
  have ha : a = a' := (UInt8.xor_right_inj _).mp (htable hhigh)
  subst ha
  exact ⟨rfl, (UInt8.xor_right_inj _).mp hindex⟩

theorem crc_injective (l : List UInt8) : Function.Injective fun c => crc table c l := by
  induction l with
  | nil => exact Function.injective_id
  | cons b rest ih => exact ih.comp (crcStep_injective htable b)

/-- **Two neighbouring bytes that change show in the check.** -/
theorem crc_eq_iff_of_pair :
    crc table start (l ++ a :: b :: r) = crc table start (l ++ a' :: b' :: r) ↔ a = a' ∧ b = b' := by
  constructor
  · intro h
    rw [crc_append, crc_append, crc_cons, crc_cons, crc_cons, crc_cons] at h
    exact crcStep_crcStep_inj htable (crc_injective htable r h)
  · rintro ⟨rfl, rfl⟩
    rfl

end Crc

end SystemExtras
