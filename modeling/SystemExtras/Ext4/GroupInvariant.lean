import SystemExtras.Ext4.ReserveBlocks

/-!
# One block group: bitmap, free count and cursor

`GroupInv` is what the allocator keeps true of a group at all times: the blocks
of the group below its cursor `first_free_block` are taken, those from the
cursor on are free up to the end of the device, and what lies beyond the end is
marked taken.  It holds after `init_bg` (`initBg_spec`), where the `u32` overrun
of a group that ends before the device does is too large to be reserved, and it
survives taking blocks at the cursor (`GroupInv.take`) and giving the last one
back (`GroupInv.giveBack`).
-/

namespace SystemExtras.Ext4

open Mem

/-! ## Where a group lies -/

namespace Geometry

variable (g : Geometry)

/-- The first block of group `i`, as a number. -/
def start (i : ℕ) : ℕ := g.aux.firstDataBlock + i * g.info.blocksPerGroup

/-- The number of blocks of group `i` that exist: all of them, or what is left
of the device. -/
def groupSize (i : ℕ) : ℕ := min g.info.blocksPerGroup (g.aux.lenBlocks - g.start i)

/-- A geometry the allocator can work on: block numbers are 32-bit, a block of
bitmap covers a group, and every group has room for its header. -/
structure Fits : Prop where
  lenBlocks_lt : g.aux.lenBlocks < 2 ^ 32
  blocksPerGroup_le : g.info.blocksPerGroup ≤ 8 * g.info.blockSize
  header_le : ∀ i < g.aux.groups, g.headerBlocks i ≤ g.groupSize i
  size_pos : ∀ i < g.aux.groups, 0 < g.groupSize i

variable {g}

theorem groupSize_le (i : ℕ) : g.groupSize i ≤ g.info.blocksPerGroup := min_le_left _ _

theorem Fits.start_lt (hg : g.Fits) {i : ℕ} (hi : i < g.aux.groups) :
    g.start i < g.aux.lenBlocks := by
  have hpos := hg.size_pos i hi
  unfold groupSize at hpos
  omega

theorem Fits.firstBlock_eq (hg : g.Fits) {i : ℕ} (hi : i < g.aux.groups) :
    g.firstBlock i = g.start i :=
  u32_of_lt ((hg.start_lt hi).trans hg.lenBlocks_lt)

theorem start_add_groupSize_le (hg : g.Fits) {i : ℕ} (hi : i < g.aux.groups) :
    g.start i + g.groupSize i ≤ g.aux.lenBlocks := by
  have := hg.start_lt hi
  unfold groupSize
  omega

/-- Blocks of different groups are different. -/
theorem group_unique {i j a b : ℕ} (ha : a < g.info.blocksPerGroup)
    (hb : b < g.info.blocksPerGroup) (h : g.start i + a = g.start j + b) : i = j ∧ a = b := by
  have hpos : 0 < g.info.blocksPerGroup := by omega
  have hsum : a + g.info.blocksPerGroup * i = b + g.info.blocksPerGroup * j := by
    unfold start at h
    rw [Nat.mul_comm _ i, Nat.mul_comm _ j]
    omega
  have hdiv := congrArg (· / g.info.blocksPerGroup) hsum
  simp only [Nat.add_mul_div_left _ _ hpos, Nat.div_eq_of_lt ha, Nat.div_eq_of_lt hb,
    Nat.zero_add] at hdiv
  subst hdiv
  exact ⟨rfl, by omega⟩

/-- The overrun that `init_bg` computes: the missing blocks of the last group, or
else more than any group has. -/
theorem Fits.overrun (hg : g.Fits) {i : ℕ} (hi : i < g.aux.groups) :
    u32 (sub64 (u32 (g.start i + g.info.blocksPerGroup)) g.aux.lenBlocks) =
        g.info.blocksPerGroup - g.groupSize i ∨
      g.groupSize i = g.info.blocksPerGroup ∧ g.info.blocksPerGroup - g.headerBlocks i <
        u32 (sub64 (u32 (g.start i + g.info.blocksPerGroup)) g.aux.lenBlocks) := by
  have hstart := hg.start_lt hi
  have hlen := hg.lenBlocks_lt
  have hheader := hg.header_le i hi
  have hbpg := g.info.blocksPerGroup_lt
  unfold groupSize sub64 u64 u32 at *
  rcases Nat.lt_or_ge (g.start i + g.info.blocksPerGroup) g.aux.lenBlocks with hlt | hge
  · right
    omega
  · left
    omega

end Geometry

/-! ## The invariant of a group -/

/-- What holds of group `i` at every moment.  In the second case of `limit` the
group has no block besides its header, and reserving what lies beyond the end of
the device has moved the cursor along. -/
structure GroupInv (g : Geometry) (i : ℕ) (bg : BlockGroupInfo) : Prop where
  firstBlock : bg.firstBlock = g.start i
  headerBlocks : bg.headerBlocks = g.headerBlocks i
  header_le : g.headerBlocks i ≤ bg.firstFreeBlock
  used : ∀ b < g.info.blocksPerGroup, bg.bitmaps.bit b =
    decide (b < bg.firstFreeBlock ∨ bg.firstFreeBlock + bg.freeBlocks ≤ b)
  limit : bg.firstFreeBlock + bg.freeBlocks = g.groupSize i ∨
    bg.freeBlocks = 0 ∧ bg.firstFreeBlock = g.info.blocksPerGroup ∧
      g.groupSize i = g.headerBlocks i

namespace GroupInv

variable {g : Geometry} {i : ℕ} {bg : BlockGroupInfo}

theorem end_le (h : GroupInv g i bg) :
    bg.firstFreeBlock + bg.freeBlocks ≤ g.info.blocksPerGroup := by
  have := Geometry.groupSize_le (g := g) i
  rcases h.limit with h | h <;> omega

/-- A group with a free block is in the first case of `limit`. -/
theorem limit_of_pos (h : GroupInv g i bg) (hpos : 0 < bg.freeBlocks) :
    bg.firstFreeBlock + bg.freeBlocks = g.groupSize i := by
  rcases h.limit with h | h <;> omega

/-- So is a group that has a block besides its header. -/
theorem limit_of_lt (h : GroupInv g i bg) (hroom : g.headerBlocks i < g.groupSize i) :
    bg.firstFreeBlock + bg.freeBlocks = g.groupSize i := by
  rcases h.limit with h | h <;> omega

/-- The free count is the number of clear bits. -/
theorem card_clear (h : GroupInv g i bg) :
    (bg.bitmaps.clear g.info.blocksPerGroup).card = bg.freeBlocks := by
  rw [Mem.card_clear_of_interval bg.firstFreeBlock (bg.firstFreeBlock + bg.freeBlocks) h.end_le]
  · omega
  · intro b hb
    rw [h.used b hb]
    simp only [decide_eq_false_iff_not]
    omega

end GroupInv

/-! ## What the operations do to a group -/

/-- Group `bg` after `len` blocks have been taken at its cursor, `bitmap` being
the new bitmap. -/
def BlockGroupInfo.take (bg : BlockGroupInfo) (len : ℕ) (bitmap : Mem) : BlockGroupInfo :=
  { bg with
    bitmaps := bitmap
    freeBlocks := bg.freeBlocks - len
    firstFreeBlock := bg.firstFreeBlock + len
    dataBlocksUsed := u32 (bg.dataBlocksUsed + len) }

/-- Group `bg` after the block below its cursor has been given back. -/
def BlockGroupInfo.giveBack (bg : BlockGroupInfo) : BlockGroupInfo :=
  { bg with
    bitmaps := bg.bitmaps.andNotBit (bg.firstFreeBlock - 1)
    freeBlocks := bg.freeBlocks + 1
    firstFreeBlock := bg.firstFreeBlock - 1 }

namespace GroupInv

variable {g : Geometry} {i : ℕ} {bg : BlockGroupInfo}

theorem clearRange (h : GroupInv g i bg) {len : ℕ} (hlen : len ≤ bg.freeBlocks) :
    ClearRange bg.bitmaps bg.firstFreeBlock (bg.firstFreeBlock + len) := by
  intro c h₁ h₂
  have := h.end_le
  rw [h.used c (by omega), decide_eq_false_iff_not]
  omega

/-- Reserving at the cursor succeeds when enough is free. -/
theorem reserveBlocks_cursor (hg : g.Fits) (h : GroupInv g i bg) {len : ℕ}
    (hlen : len ≤ bg.freeBlocks) :
    ∃ bitmap, SetsRange bg.bitmaps bitmap bg.firstFreeBlock (bg.firstFreeBlock + len) ∧
      reserveBlocks g.bitmapsSize bg bg.firstFreeBlock len = .ok (some { bg with
        bitmaps := bitmap
        freeBlocks := bg.freeBlocks - len
        firstFreeBlock := bg.firstFreeBlock + len }) := by
  have hend := h.end_le
  have hbpg := hg.blocksPerGroup_le
  have hlt := g.info.blocksPerGroup_lt
  obtain ⟨bitmap, hrun, hset⟩ := reserveBlocks_of_clear g.bitmapsSize hlen
    (by unfold Geometry.bitmapsSize; omega) (h.clearRange hlen)
  rw [if_pos rfl, u32_of_lt (by omega)] at hrun
  exact ⟨bitmap, hset, hrun⟩

theorem take (h : GroupInv g i bg) {len : ℕ} (hlen : len ≤ bg.freeBlocks) {bitmap : Mem}
    (hset : SetsRange bg.bitmaps bitmap bg.firstFreeBlock (bg.firstFreeBlock + len)) :
    GroupInv g i (bg.take len bitmap) where
  firstBlock := h.firstBlock
  headerBlocks := h.headerBlocks
  header_le := h.header_le.trans (Nat.le_add_right _ _)
  used := by
    intro b hb
    show bitmap.bit b = decide (b < bg.firstFreeBlock + len ∨
      bg.firstFreeBlock + len + (bg.freeBlocks - len) ≤ b)
    rw [hset b, h.used b hb, ← Bool.decide_or]
    exact decide_eq_decide.mpr (by omega)
  limit := by
    show bg.firstFreeBlock + len + (bg.freeBlocks - len) = g.groupSize i ∨
      bg.freeBlocks - len = 0 ∧ bg.firstFreeBlock + len = g.info.blocksPerGroup ∧
        g.groupSize i = g.headerBlocks i
    rcases h.limit with h | h <;> omega

theorem giveBack (h : GroupInv g i bg) (hpos : g.headerBlocks i < bg.firstFreeBlock)
    (hlimit : bg.firstFreeBlock + bg.freeBlocks = g.groupSize i) :
    GroupInv g i bg.giveBack where
  firstBlock := h.firstBlock
  headerBlocks := h.headerBlocks
  header_le := by
    show g.headerBlocks i ≤ bg.firstFreeBlock - 1
    omega
  used := by
    intro b hb
    show (bg.bitmaps.andNotBit (bg.firstFreeBlock - 1)).bit b =
      decide (b < bg.firstFreeBlock - 1 ∨ bg.firstFreeBlock - 1 + (bg.freeBlocks + 1) ≤ b)
    rw [bit_andNotBit, h.used b hb, ← Bool.decide_and]
    exact decide_eq_decide.mpr (by omega)
  limit := by
    left
    show bg.firstFreeBlock - 1 + (bg.freeBlocks + 1) = g.groupSize i
    omega

/-- `free_blocks` on one block. -/
theorem freeBlocks_one (hg : g.Fits) (h : GroupInv g i bg) (hpos : 0 < bg.firstFreeBlock) :
    freeBlocks g.bitmapsSize bg 1 = .ok bg.giveBack := by
  have hend := h.end_le
  have hbpg := hg.blocksPerGroup_le
  have hlt := g.info.blocksPerGroup_lt
  have hsub : sub32 bg.firstFreeBlock 1 = bg.firstFreeBlock - 1 :=
    sub32_of_le (by omega) (by omega)
  have hcap : ¬ g.bitmapsSize ≤ (bg.firstFreeBlock - 1) / 8 := by
    unfold Geometry.bitmapsSize
    omega
  unfold freeBlocks freeBlocksLoop
  rw [hsub, if_neg hcap]
  have hone : u32 (bg.freeBlocks + 1) = bg.freeBlocks + 1 := u32_of_lt (by omega)
  simp [freeBlocksLoop, BlockGroupInfo.giveBack, hone, Except.bind, bind]

end GroupInv

/-! ## `init_bg` -/

/-- A group as `init_bg` leaves it. -/
structure FreshGroup (g : Geometry) (i : ℕ) (bg : BlockGroupInfo) : Prop where
  inv : GroupInv g i bg
  dataBlocksUsed : bg.dataBlocksUsed = 0
  hasSuperblock : bg.hasSuperblock = g.hasSuperBlock i
  inodeTable : bg.inodeTable = none
  freeInodes : bg.freeInodes = g.info.inodesPerGroup
  firstFreeInode : bg.firstFreeInode = 1
  flags : bg.flags = EXT4_BG_INODE_UNINIT
  usedDirs : bg.usedDirs = 0
  free : bg.freeBlocks = g.groupSize i - g.headerBlocks i
  beyond : ∀ c, g.info.blocksPerGroup ≤ c → bg.bitmaps.bit c = false

/-- Group `i` when its header is reserved. -/
def headedBg (g : Geometry) (i : ℕ) (bitmap : Mem) : BlockGroupInfo :=
  { initialBg g i with
    bitmaps := bitmap
    freeBlocks := g.info.blocksPerGroup - g.headerBlocks i
    firstFreeBlock := g.headerBlocks i }

section Init

variable {g : Geometry} {i : ℕ}

theorem reserveBlocks_header (hg : g.Fits) (hi : i < g.aux.groups) :
    ∃ bitmap, reserveBlocks g.bitmapsSize (initialBg g i) 0 (g.headerBlocks i) =
        .ok (some (headedBg g i bitmap)) ∧
      ∀ c, bitmap.bit c = decide (c < g.headerBlocks i) := by
  have hheader := hg.header_le i hi
  have hsize := g.groupSize_le i
  have hbpg := hg.blocksPerGroup_le
  have hlt := g.info.blocksPerGroup_lt
  have hfree : g.headerBlocks i ≤ (initialBg g i).freeBlocks := hheader.trans hsize
  have hcap : 0 + g.headerBlocks i ≤ 8 * g.bitmapsSize := by
    unfold Geometry.bitmapsSize
    omega
  obtain ⟨bitmap, hrun, hset⟩ := reserveBlocks_of_clear g.bitmapsSize hfree hcap
    (fun c _ _ => bit_zero c)
  refine ⟨bitmap, ?_, ?_⟩
  · rw [hrun]
    have hend : u32 (g.headerBlocks i) = g.headerBlocks i := u32_of_lt (by omega)
    simp [headedBg, initialBg, hend]
  · intro c
    rw [hset c]
    simp [initialBg]

/-- A group all of whose blocks exist needs nothing more. -/
theorem headedBg_fresh (hg : g.Fits) (hi : i < g.aux.groups) {bitmap : Mem}
    (hbit : ∀ c, bitmap.bit c = decide (c < g.headerBlocks i))
    (hwhole : g.groupSize i = g.info.blocksPerGroup) : FreshGroup g i (headedBg g i bitmap) where
  inv := {
    firstBlock := hg.firstBlock_eq hi
    headerBlocks := rfl
    header_le := le_rfl
    used := by
      intro b hb
      have hheader := hg.header_le i hi
      simp only [headedBg, hbit b]
      exact decide_eq_decide.mpr (by omega)
    limit := by
      have hheader := hg.header_le i hi
      left
      simp only [headedBg]
      omega }
  dataBlocksUsed := rfl
  hasSuperblock := rfl
  inodeTable := rfl
  freeInodes := rfl
  firstFreeInode := rfl
  flags := rfl
  usedDirs := rfl
  free := by rw [hwhole]; rfl
  beyond := by
    intro c hc
    have hheader := hg.header_le i hi
    simp only [headedBg, hbit c, decide_eq_false_iff_not]
    omega

/-- The cut of a last group of which only a part exists. -/
theorem headedBg_cut (hg : g.Fits) (hi : i < g.aux.groups) {bitmap : Mem}
    (hbit : ∀ c, bitmap.bit c = decide (c < g.headerBlocks i)) :
    ∃ bg, reserveBlocks g.bitmapsSize (headedBg g i bitmap) (g.groupSize i)
        (g.info.blocksPerGroup - g.groupSize i) = .ok (some bg) ∧ FreshGroup g i bg := by
  have hheader := hg.header_le i hi
  have hsize := g.groupSize_le i
  have hbpg := hg.blocksPerGroup_le
  have hlt := g.info.blocksPerGroup_lt
  have hsum : g.groupSize i + (g.info.blocksPerGroup - g.groupSize i) = g.info.blocksPerGroup := by
    omega
  have hfree : g.info.blocksPerGroup - g.groupSize i ≤ (headedBg g i bitmap).freeBlocks := by
    simp only [headedBg]
    omega
  have hcap : g.groupSize i + (g.info.blocksPerGroup - g.groupSize i) ≤ 8 * g.bitmapsSize := by
    unfold Geometry.bitmapsSize
    omega
  have hclear : ClearRange (headedBg g i bitmap).bitmaps (g.groupSize i)
      (g.groupSize i + (g.info.blocksPerGroup - g.groupSize i)) := by
    intro c h₁ _
    show bitmap.bit c = false
    rw [hbit c, decide_eq_false_iff_not]
    omega
  obtain ⟨bitmap', hrun, hset⟩ := reserveBlocks_of_clear g.bitmapsSize hfree hcap hclear
  rw [hsum] at hrun hset
  have hbit' : ∀ c, bitmap'.bit c =
      decide (c < g.headerBlocks i ∨ g.groupSize i ≤ c ∧ c < g.info.blocksPerGroup) := by
    intro c
    rw [hset c]
    show (bitmap.bit c || _) = _
    rw [hbit c, ← Bool.decide_or]
  have hleft : g.info.blocksPerGroup - g.headerBlocks i - (g.info.blocksPerGroup - g.groupSize i) =
      g.groupSize i - g.headerBlocks i := by omega
  obtain ⟨cursor, hcursor, hcases⟩ : ∃ cursor, (if g.groupSize i =
      (headedBg g i bitmap).firstFreeBlock then u32 g.info.blocksPerGroup
      else (headedBg g i bitmap).firstFreeBlock) = cursor ∧
      (g.groupSize i = g.headerBlocks i ∧ cursor = g.info.blocksPerGroup ∨
        g.groupSize i ≠ g.headerBlocks i ∧ cursor = g.headerBlocks i) := by
    by_cases hclosed : g.groupSize i = g.headerBlocks i
    · exact ⟨_, if_pos hclosed, Or.inl ⟨hclosed, u32_of_lt hlt⟩⟩
    · exact ⟨_, if_neg hclosed, Or.inr ⟨hclosed, rfl⟩⟩
  rw [hcursor] at hrun
  refine ⟨_, hrun, ?_⟩
  exact {
    inv := {
      firstBlock := hg.firstBlock_eq hi
      headerBlocks := rfl
      header_le := by
        show g.headerBlocks i ≤ cursor
        omega
      used := by
        intro b hb
        simp only [headedBg, hbit' b, hleft]
        exact decide_eq_decide.mpr (by omega)
      limit := by
        simp only [headedBg, hleft]
        omega }
    dataBlocksUsed := rfl
    hasSuperblock := rfl
    inodeTable := rfl
    freeInodes := rfl
    firstFreeInode := rfl
    flags := rfl
    usedDirs := rfl
    free := hleft
    beyond := by
      intro c hc
      rw [hbit' c, decide_eq_false_iff_not]
      omega }

/-- `init_bg` succeeds on a geometry that fits.  Of a group that ends before the
device does, the overrun wraps to more blocks than are free, and the second
reservation is turned down. -/
theorem initBg_spec (hg : g.Fits) (hi : i < g.aux.groups) :
    ∃ bg, initBg g i = .ok bg ∧ FreshGroup g i bg := by
  obtain ⟨bitmap, hheader, hbit⟩ := reserveBlocks_header hg hi
  have hinit : initBg g i = reserveOverrun g (headedBg g i bitmap) := by
    show (reserveBlocks g.bitmapsSize (initialBg g i) 0 (g.headerBlocks i) >>= _) = _
    rw [hheader]
    rfl
  have hfirst : (headedBg g i bitmap).firstBlock = g.start i := hg.firstBlock_eq hi
  rw [hinit]
  unfold reserveOverrun
  simp only [hfirst]
  rcases hg.overrun hi with hover | ⟨hwhole, hover⟩
  · rw [hover]
    have hsub : sub32 g.info.blocksPerGroup (g.info.blocksPerGroup - g.groupSize i) =
        g.groupSize i := by
      have hsize := g.groupSize_le i
      rw [sub32_of_le (Nat.sub_le _ _) g.info.blocksPerGroup_lt]
      omega
    split
    · obtain ⟨bg, hcut, hfresh⟩ := headedBg_cut hg hi hbit
      refine ⟨bg, ?_, hfresh⟩
      rw [hsub, hcut]
      rfl
    · have hsize := g.groupSize_le i
      exact ⟨_, rfl, headedBg_fresh hg hi hbit (by omega)⟩
  · refine ⟨_, ?_, headedBg_fresh hg hi hbit hwhole⟩
    rw [if_pos (by omega), reserveBlocks_of_gt hover]
    rfl

end Init

end SystemExtras.Ext4
