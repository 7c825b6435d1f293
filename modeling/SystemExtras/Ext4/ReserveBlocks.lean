import SystemExtras.Lib.Run
import SystemExtras.Ext4.Allocate

/-!
# `reserve_blocks` bit by bit

`reserve_blocks` sets bits one by one up to a byte boundary, then whole bytes, and then the bits
that are left.  Each of the three loops is described in two directions: what it has done when it
comes to its end, and that it does so on a clear range that fits the buffer.  What it has done is
that it `Reserves` the blocks it has gone past, that is, they were clear and now are set; so a range
that reaches over a set bit stops one of the loops.

The second loop is the one that has to be aligned.  Its bound counts bytes from the first block and
not from the first byte, but the first loop leaves it either at a byte boundary or with no byte to
set.
-/

namespace SystemExtras.Ext4

open Mem

/-- The blocks `[lo, hi)` go from free to used. -/
structure Reserves (m m' : Mem) (lo hi : ℕ) : Prop where
  clear : ClearRange m lo hi
  sets : SetsRange m m' lo hi

namespace Reserves

variable {m m' m'' : Mem} {lo mid hi : ℕ}

theorem refl (m : Mem) (lo : ℕ) : Reserves m m lo lo :=
  ⟨fun c h₁ h₂ => by omega, SetsRange.refl m lo⟩

/-- What is clear after some bits were set was clear before. -/
theorem trans (h₁ : Reserves m m' lo mid) (h₂ : Reserves m' m'' mid hi) (hlm : lo ≤ mid)
    (hmh : mid ≤ hi) : Reserves m m'' lo hi := by
  refine ⟨fun c hlo hhi => ?_, h₁.sets.trans h₂.sets hlm hmh⟩
  by_cases hc : c < mid
  · exact h₁.clear c hlo hc
  · have hbit := h₂.clear c (by omega) hhi
    rw [h₁.sets c, Bool.or_eq_false_iff] at hbit
    exact hbit.1

end Reserves

section Loops

variable {cap num block block' : ℕ} {m m' : Mem}

/-- `bitmap_set_bit` returns 0 for a clear bit. -/
theorem reserves_of_setBit (h : bitmapSetBit cap m block = .ok (false, m')) :
    Reserves m m' block (block + 1) := by
  unfold bitmapSetBit at h
  split_ifs at h with hcap hbit
  · cases h
  · cases h
    refine ⟨fun c h₁ h₂ => ?_, SetsRange.orBit m block⟩
    rw [show c = block by omega]
    exact Bool.not_eq_true _ ▸ hbit

/-- `bitmap_set_8_bits` returns 0 for a byte of clear bits. -/
theorem reserves_of_set8Bits (hbyte : block % 8 = 0)
    (h : bitmapSet8Bits cap m block = .ok (false, m')) : Reserves m m' block (block + 8) := by
  unfold bitmapSet8Bits at h
  split_ifs at h with hcap
  obtain ⟨hzero, rfl⟩ : (m (block / 8) != 0) = false ∧ m.fillByte block = m' := by
    simpa using h
  have hclear := (byte_eq_zero_iff m (block / 8)).mp (by simpa using hzero)
  exact ⟨fun c h₁ h₂ => hclear c (by omega), SetsRange.fillByte m hbyte⟩

/-- The first loop ends with the request or at a byte boundary. -/
theorem reserves_of_head (left : ℕ) : ∀ {left' block : ℕ} {m : Mem},
    reserveHead cap left block m = .ok (left', block', m') →
    left' ≤ left ∧ block' = block + (left - left') ∧ (left' = 0 ∨ block' % 8 = 0) ∧
      Reserves m m' block block' := by
  induction left with
  | zero =>
      intro left' block m h
      cases h
      exact ⟨le_rfl, rfl, Or.inl rfl, Reserves.refl _ _⟩
  | succ left ih =>
      intro left' block m h
      rw [reserveHead] at h
      split_ifs at h with hbyte
      · obtain ⟨⟨old, m₁⟩, hset, hrest⟩ := bind_eq_ok.mp h
        cases old with
        | true => cases hrest
        | false =>
            obtain ⟨hle, hblock, hstop, htail⟩ := ih hrest
            have hfirst := reserves_of_setBit hset
            exact ⟨by omega, by omega, hstop, hfirst.trans htail (by omega) (by omega)⟩
      · cases h
        exact ⟨le_rfl, by omega, Or.inr (by omega), Reserves.refl _ _⟩

/-- The second loop goes on in whole bytes, if it starts at one. -/
theorem reserves_of_bytes (fuel : ℕ) : ∀ {i i' block : ℕ} {m : Mem},
    i ≤ num → (i = num ∨ block % 8 = 0) →
    reserveBytes cap num fuel i block m = .ok (i', block', m') →
    i ≤ i' ∧ i' ≤ num ∧ block' = block + (i' - i) ∧ Reserves m m' block block' := by
  induction fuel with
  | zero =>
      intro i i' block m hi _ h
      cases h
      exact ⟨le_rfl, hi, by omega, Reserves.refl _ _⟩
  | succ fuel ih =>
      intro i i' block m hi hbyte h
      rw [reserveBytes] at h
      split_ifs at h with hround
      · obtain ⟨⟨old, m₁⟩, hset, hrest⟩ := bind_eq_ok.mp h
        have hboundary : block % 8 = 0 := by omega
        cases old with
        | true => cases hrest
        | false =>
            obtain ⟨hle, hnum, hblock, htail⟩ := ih (by omega) (by omega) hrest
            have hfirst := reserves_of_set8Bits hboundary hset
            exact ⟨by omega, hnum, by omega, hfirst.trans htail (by omega) (by omega)⟩
      · cases h
        exact ⟨le_rfl, hi, by omega, Reserves.refl _ _⟩

/-- The third loop sets the bits that are left. -/
theorem reserves_of_tail (left : ℕ) : ∀ {block : ℕ} {m : Mem},
    reserveTail cap left block m = .ok m' → Reserves m m' block (block + left) := by
  induction left with
  | zero =>
      intro block m h
      cases h
      exact Reserves.refl _ _
  | succ left ih =>
      intro block m h
      rw [reserveTail] at h
      obtain ⟨⟨old, m₁⟩, hset, hrest⟩ := bind_eq_ok.mp h
      cases old with
      | true => cases hrest
      | false =>
          have hsum : block + 1 + left = block + (left + 1) := by omega
          have htail := hsum ▸ ih hrest
          exact (reserves_of_setBit hset).trans htail (by omega) (by omega)

end Loops

section Clear

variable {cap block num left i : ℕ} {m : Mem}

theorem bitmapSetBit_of_clear (hcap : block < 8 * cap) (hclear : m.bit block = false) :
    bitmapSetBit cap m block = .ok (false, m.orBit block) := by
  have : ¬ cap ≤ block / 8 := by omega
  simp [bitmapSetBit, this, hclear]

theorem bitmapSet8Bits_of_clear (hcap : block + 8 ≤ 8 * cap) (hbyte : block % 8 = 0)
    (hclear : ClearRange m block (block + 8)) :
    bitmapSet8Bits cap m block = .ok (false, m.fillByte block) := by
  have hnot : ¬ cap ≤ block / 8 := by omega
  have hzero : m (block / 8) = 0 := by
    rw [byte_eq_zero_iff]
    intro c hc
    exact hclear c (by omega) (by omega)
  simp [bitmapSet8Bits, hnot, hzero]

theorem reserveHead_of_clear (hcap : block + left ≤ 8 * cap)
    (hclear : ClearRange m block (block + left)) :
    ∃ r, reserveHead cap left block m = .ok r := by
  induction left generalizing block m with
  | zero => exact ⟨_, rfl⟩
  | succ left ih =>
      by_cases hbyte : block % 8 ≠ 0
      · have hsum : block + 1 + left = block + (left + 1) := by omega
        have hrest := (SetsRange.orBit m block).clearRange (by omega) hclear
        obtain ⟨r, hrun⟩ := @ih (block + 1) _ (by omega) (hsum ▸ hrest)
        refine ⟨r, ?_⟩
        rw [reserveHead, if_pos hbyte,
          bitmapSetBit_of_clear (by omega) (hclear block le_rfl (by omega))]
        exact hrun
      · exact ⟨_, by rw [reserveHead, if_neg hbyte]⟩

theorem reserveBytes_of_clear (fuel : ℕ) (hi : i ≤ num) (hbyte : i = num ∨ block % 8 = 0)
    (hcap : block + (num - i) ≤ 8 * cap) (hclear : ClearRange m block (block + (num - i))) :
    ∃ r, reserveBytes cap num fuel i block m = .ok r := by
  induction fuel generalizing i block m with
  | zero => exact ⟨_, rfl⟩
  | succ fuel ih =>
      by_cases hround : i + 8 ≤ num / 8 * 8
      · have hboundary : block % 8 = 0 := by omega
        have hfull : ClearRange m block (block + 8) := fun c h₁ h₂ => hclear c h₁ (by omega)
        have hsum : block + 8 + (num - (i + 8)) = block + (num - i) := by omega
        have hrest := (SetsRange.fillByte m hboundary).clearRange (by omega) hclear
        obtain ⟨r, hrun⟩ := @ih (block + 8) (i + 8) _ (by omega) (by omega) (by omega)
          (hsum ▸ hrest)
        refine ⟨r, ?_⟩
        rw [reserveBytes, if_pos hround, bitmapSet8Bits_of_clear (by omega) hboundary hfull]
        exact hrun
      · exact ⟨_, by rw [reserveBytes, if_neg hround]⟩

theorem reserveTail_of_clear (hcap : block + left ≤ 8 * cap)
    (hclear : ClearRange m block (block + left)) :
    ∃ m', reserveTail cap left block m = .ok m' := by
  induction left generalizing block m with
  | zero => exact ⟨_, rfl⟩
  | succ left ih =>
      have hsum : block + 1 + left = block + (left + 1) := by omega
      have hrest := (SetsRange.orBit m block).clearRange (by omega) hclear
      obtain ⟨m', hrun⟩ := @ih (block + 1) _ (by omega) (hsum ▸ hrest)
      refine ⟨m', ?_⟩
      rw [reserveTail, bitmapSetBit_of_clear (by omega) (hclear block le_rfl (by omega))]
      exact hrun

end Clear

section Call

variable {cap : ℕ} {bg bg' : BlockGroupInfo} {start num : ℕ}

/-- A request for more than is free is turned down. -/
theorem reserveBlocks_of_gt (h : bg.freeBlocks < num) :
    reserveBlocks cap bg start num = .ok none := by
  simp [reserveBlocks, h]

/-- What a call that returns 0 has done.  Only the block and inode bitmaps, the free count and the
cursor are written. -/
theorem reserveBlocks_eq_some (h : reserveBlocks cap bg start num = .ok (some bg')) :
    num ≤ bg.freeBlocks ∧ Reserves bg.bitmaps bg'.bitmaps start (start + num) ∧
    bg' = { bg with
      bitmaps := bg'.bitmaps
      freeBlocks := bg.freeBlocks - num
      firstFreeBlock := if start = bg.firstFreeBlock then u32 (start + num)
        else bg.firstFreeBlock } := by
  by_cases hfree : bg.freeBlocks < num
  · rw [reserveBlocks_of_gt hfree] at h
    cases h
  rw [reserveBlocks, if_neg hfree] at h
  obtain ⟨⟨left, block₁, m₁⟩, hhead, h⟩ := bind_eq_ok.mp h
  obtain ⟨⟨i, block₂, m₂⟩, hbytes, h⟩ := bind_eq_ok.mp h
  obtain ⟨m₃, htail, h⟩ := bind_eq_ok.mp h
  obtain ⟨hleft, hblock₁, hstop, hfirst⟩ := reserves_of_head num hhead
  obtain ⟨hi, hnum, hblock₂, hsecond⟩ := reserves_of_bytes (num / 8) (by omega) (by omega) hbytes
  have hend : block₂ + (num - i) = start + num := by omega
  have hthird := hend ▸ reserves_of_tail (num - i) htail
  have hall := (hfirst.trans hsecond (by omega) (by omega)).trans hthird (by omega) (by omega)
  cases h
  exact ⟨by omega, hall, rfl⟩

variable (cap) in
/-- `reserve_blocks` on a clear range inside the buffer. -/
theorem reserveBlocks_of_clear (hfree : num ≤ bg.freeBlocks) (hcap : start + num ≤ 8 * cap)
    (hclear : ClearRange bg.bitmaps start (start + num)) :
    ∃ bitmap', reserveBlocks cap bg start num = .ok (some { bg with
        bitmaps := bitmap'
        freeBlocks := bg.freeBlocks - num
        firstFreeBlock :=
          if start = bg.firstFreeBlock then u32 (start + num) else bg.firstFreeBlock }) ∧
      SetsRange bg.bitmaps bitmap' start (start + num) := by
  obtain ⟨⟨left, block₁, m₁⟩, hhead⟩ := reserveHead_of_clear hcap hclear
  obtain ⟨hleft, hblock₁, hstop, hfirst⟩ := reserves_of_head num hhead
  have hclear₁ := hfirst.sets.clearRange (by omega) hclear
  have hend₁ : block₁ + (num - (num - left)) = start + num := by omega
  obtain ⟨⟨i, block₂, m₂⟩, hbytes⟩ := reserveBytes_of_clear (num / 8) (by omega) (by omega)
    (hend₁.trans_le hcap) (hend₁ ▸ hclear₁)
  obtain ⟨hi, hnum, hblock₂, hsecond⟩ := reserves_of_bytes (num / 8) (by omega) (by omega) hbytes
  have hclear₂ := hsecond.sets.clearRange (by omega) hclear₁
  have hend₂ : block₂ + (num - i) = start + num := by omega
  obtain ⟨m₃, htail⟩ := reserveTail_of_clear (hend₂.trans_le hcap) (hend₂ ▸ hclear₂)
  have hrun : reserveBlocks cap bg start num = .ok (some { bg with
      bitmaps := m₃
      freeBlocks := bg.freeBlocks - num
      firstFreeBlock :=
        if start = bg.firstFreeBlock then u32 (start + num) else bg.firstFreeBlock }) := by
    rw [reserveBlocks, if_neg (not_lt.mpr hfree), hhead, bind_ok]
    simp only [hbytes, htail, bind_ok]
  exact ⟨m₃, hrun, (reserveBlocks_eq_some hrun).2.1.sets⟩

end Call

/-- **Byte-wise reservation is bit-wise reservation.**  The buffer has the two bitmaps of a group,
one block each. -/
theorem reserveBlocks_iff (blockSize : ℕ) (bg : BlockGroupInfo) (start num : ℕ)
    (hroom : start + num ≤ 8 * blockSize) :
    ((∃ bg', reserveBlocks (2 * blockSize) bg start num = .ok (some bg')) ↔
      num ≤ bg.freeBlocks ∧ ∀ b, start ≤ b → b < start + num → bg.bitmaps.bit b = false) ∧
    ∀ bg', reserveBlocks (2 * blockSize) bg start num = .ok (some bg') →
      (∀ b, bg'.bitmaps.bit b = true ↔
        start ≤ b ∧ b < start + num ∨ bg.bitmaps.bit b = true) ∧
      bg' = { bg with
        bitmaps := bg'.bitmaps
        freeBlocks := bg.freeBlocks - num
        firstFreeBlock := if start = bg.firstFreeBlock then u32 (start + num)
          else bg.firstFreeBlock } := by
  refine ⟨⟨?_, ?_⟩, ?_⟩
  · rintro ⟨bg', hrun⟩
    obtain ⟨hfree, hreserves, -⟩ := reserveBlocks_eq_some hrun
    exact ⟨hfree, hreserves.clear⟩
  · rintro ⟨hfree, hclear⟩
    obtain ⟨m', hrun, -⟩ := reserveBlocks_of_clear (2 * blockSize) hfree (by omega) hclear
    exact ⟨_, hrun⟩
  · intro bg' hrun
    obtain ⟨-, hreserves, hfields⟩ := reserveBlocks_eq_some hrun
    refine ⟨fun b => ?_, hfields⟩
    rw [hreserves.sets b, Bool.or_eq_true, decide_eq_true_iff, or_comm]

/-- Blocks 3 to 20 of an empty bitmap can be reserved: five bits, a byte and five bits. -/
theorem reserveBlocks_iff_three : ∃ bg',
    reserveBlocks (2 * 1024) ⟨0, 0, 0, false, Mem.zero, none, 18, 3, 0, 0, 0, 0⟩ 3 18 =
      .ok (some bg') :=
  (reserveBlocks_iff 1024 _ 3 18 (by decide)).1.mpr ⟨le_rfl, fun b _ _ => Mem.bit_zero b⟩

end SystemExtras.Ext4
