import SystemExtras.Ext4.IndirectCount
import SystemExtras.Ext4.Parameters

/-!
# Divisors that are zero

The parameters that the user gives are completed by rounding, aligning and multiplying
in 32 bits, and what comes out are the divisors of the next step.  Some of them can be
zero: the default size of a group of very large blocks, the number of inodes in a block
that is smaller than one, the number of groups of a device without blocks or with almost
2^32 of them, and the squares that `ext4_create_fs_aux_info` keeps in `blocks_per_dind`
and `blocks_per_tind`.

`blocks_per_tind` is a multiple of 2^32 before it is cut down, whatever the block size
is, so that `indirect_blocks_needed` divides by zero for every file that would need a
third level.  `dividesWell_iff` lists all cases.
-/

namespace SystemExtras.Ext4

/-! ## Every divisor -/

/-- No division of `make_ext4fs_internal` up to `ext4_create_fs_aux_info` is by zero, and none of
`indirect_blocks_needed(len)` after that. -/
def DividesWell (user : FsInfo) (len : ℕ) : Prop :=
  ∃ info aux, makeInfo user = some info ∧ ext4CreateFsAuxInfo info = some aux ∧
    indirectBlocksNeeded aux len ≠ .error .undefined

/-- The number of blocks of a group, which is a default unless the user gives one. -/
def FsInfo.groupLength (user : FsInfo) : ℕ := orDefault user.blocksPerGroup (8 * user.blockSize)

/-- The number of blocks of the device, in 32 bits. -/
def FsInfo.deviceBlocks (user : FsInfo) : ℕ := user.len / user.blockSize % 2 ^ 32

/-- How many blocks of a file the first two levels of pointer blocks lead to. -/
def twoLevels (blockSize : ℕ) : ℕ :=
  EXT4_NDIR_BLOCKS + blockSize / 4 +
    if blockSize < 2 ^ 18 then blockSize / 4 * (blockSize / 4) else 0

/-! ## Rounding -/

theorem and_sub_two_pow {n k : ℕ} (hk : k ≤ 64) (hn : n < 2 ^ 64) :
    n &&& (2 ^ 64 - 2 ^ k) = n / 2 ^ k * 2 ^ k := by
  have hmask : 2 ^ 64 - 2 ^ k = (2 ^ (64 - k) - 1) * 2 ^ k := by
    rw [Nat.sub_mul, ← pow_add, Nat.sub_add_cancel hk, one_mul]
  have hpow : n / 2 ^ k < 2 ^ (64 - k) := by
    rw [Nat.div_lt_iff_lt_mul (Nat.two_pow_pos k), ← pow_add, Nat.sub_add_cancel hk]
    exact hn
  have hdiv : (n &&& (2 ^ 64 - 2 ^ k)) / 2 ^ k = n / 2 ^ k := by
    rw [Nat.and_div_two_pow, hmask, Nat.mul_div_cancel _ (Nat.two_pow_pos k),
      Nat.and_two_pow_sub_one_eq_mod, Nat.mod_eq_of_lt hpow]
  have hmod : (n &&& (2 ^ 64 - 2 ^ k)) % 2 ^ k = 0 := by
    rw [Nat.and_mod_two_pow, hmask, Nat.mul_mod_left, Nat.and_zero]
  have hsum := Nat.div_add_mod' (n &&& (2 ^ 64 - 2 ^ k)) (2 ^ k)
  rw [hdiv, hmod, Nat.add_zero] at hsum
  exact hsum.symm

theorem divRoundUp64_mul {q b : ℕ} (hb : 0 < b) (h : q * b + b ≤ 2 ^ 64) :
    divRoundUp64 (q * b) b = q := by
  rw [divRoundUp64_eq (by omega), Nat.ceilDiv_eq_add_pred_div, Nat.add_sub_assoc hb,
    Nat.add_comm, Nat.add_mul_div_right _ _ hb, Nat.div_eq_of_lt (by omega), Nat.zero_add]

/-- The sum in `DIV_ROUND_UP` wraps around when the divisor is too large for what is left. -/
theorem divRoundUp32_ne_zero {x y : ℕ} (hx : x < 2 ^ 32) (hy : 0 < y) (hy' : y < 2 ^ 32) :
    divRoundUp32 x y ≠ 0 ↔ 0 < x ∧ x + y ≤ 2 ^ 32 := by
  unfold divRoundUp32 u32
  rw [← Nat.pos_iff_ne_zero, Nat.div_pos_iff]
  omega

/-! ## The parameters -/

theorem isSome_computeInodesPerGroup (len blockSize blocksPerGroup inodes inodeSize : ℕ) :
    (computeInodesPerGroup len blockSize blocksPerGroup inodes inodeSize).isSome ↔
      blockGroups len blockSize blocksPerGroup ≠ 0 ∧ blockSize / inodeSize ≠ 0 := by
  unfold computeInodesPerGroup
  dsimp only
  split
  · rename_i hzero
    exact iff_of_false Bool.false_ne_true (not_and_or.mpr (hzero.imp not_not_intro not_not_intro))
  · rename_i hpos
    exact iff_of_true rfl (not_or.mp hpos)

/-- The completed parameters exist unless a group is empty or one of the two divisors of
`compute_inodes_per_group` is zero. -/
theorem isSome_makeInfo (user : FsInfo) : (makeInfo user).isSome ↔
    orDefault user.blocksPerGroup (computeBlocksPerGroup (orDefault user.blockSize computeBlockSize)) ≠ 0 ∧
      blockGroups (user.len &&& (2 ^ 64 - orDefault user.blockSize computeBlockSize))
        (orDefault user.blockSize computeBlockSize)
        (orDefault user.blocksPerGroup
          (computeBlocksPerGroup (orDefault user.blockSize computeBlockSize))) ≠ 0 ∧
      orDefault user.blockSize computeBlockSize / orDefault user.inodeSize 256 ≠ 0 := by
  rw [← isSome_computeInodesPerGroup _ _ _ (orDefault user.inodes (computeInodes
    (user.len &&& (2 ^ 64 - orDefault user.blockSize computeBlockSize))
    (orDefault user.blockSize computeBlockSize))) _]
  unfold makeInfo
  dsimp only
  split
  · rename_i hzero
    exact iff_of_false Bool.false_ne_true fun h => h.1 hzero
  · rename_i hpos
    split
    · rename_i hnone
      rw [hnone]
      exact iff_of_false Bool.false_ne_true fun h => Bool.false_ne_true h.2
    · rename_i hsome
      refine iff_of_true rfl ⟨hpos, ?_⟩
      rw [hsome]
      rfl

theorem blockSize_of_makeInfo {user info : FsInfo} (h : makeInfo user = some info) :
    info.blockSize = orDefault user.blockSize computeBlockSize ∧ info.blocksPerGroup ≠ 0 := by
  unfold makeInfo at h
  dsimp only at h
  split at h
  · cases h
  · rename_i hpos
    split at h
    · cases h
    · cases h
      exact ⟨rfl, hpos⟩

/-! ## Pointer blocks -/

/-- The third level divides by zero. -/
theorem indirectBlocksNeeded_eq_undefined_iff {aux : FsAuxInfo} {len : ℕ}
    (hind : 0 < aux.blocksPerInd)
    (htind : aux.blocksPerTind = 0) : indirectBlocksNeeded aux len = .error .undefined ↔
      EXT4_NDIR_BLOCKS + aux.blocksPerInd + aux.blocksPerDind < len := by
  unfold indirectBlocksNeeded
  by_cases hdirect : len ≤ EXT4_NDIR_BLOCKS
  · rw [if_pos hdirect]
    exact iff_of_false (by simp) (by omega)
  · rw [if_neg hdirect]
    dsimp only
    rw [divRoundUpBy, if_neg (by omega), bind_ok]
    by_cases hone : len - EXT4_NDIR_BLOCKS ≤ aux.blocksPerInd
    · rw [if_pos hone]
      exact iff_of_false (by simp) (by omega)
    · rw [if_neg hone]
      by_cases hdind : aux.blocksPerDind = 0
      · rw [divRoundUpBy, if_pos hdind, bind_error]
        exact iff_of_true rfl (by omega)
      · rw [divRoundUpBy, if_neg hdind, bind_ok]
        by_cases htwo : len - EXT4_NDIR_BLOCKS - aux.blocksPerInd ≤ aux.blocksPerDind
        · rw [if_pos htwo]
          exact iff_of_false (by simp) (by omega)
        · rw [if_neg htwo, divRoundUpBy, if_pos htind, bind_error]
          exact iff_of_true rfl (by omega)

/-- The square of a power of two is zero in 32 bits if the power is large enough, and its square is
zero from blocks of 1024 bytes on. -/
theorem blocksPer_of_two_pow {info : FsInfo} {aux : FsAuxInfo} {k : ℕ} (hk : 10 ≤ k)
    (hsize : info.blockSize = 2 ^ k) (h : ext4CreateFsAuxInfo info = some aux) :
    aux.blocksPerTind = 0 ∧ EXT4_NDIR_BLOCKS + aux.blocksPerInd + aux.blocksPerDind =
      twoLevels info.blockSize := by
  have hlt : k < 32 := (Nat.pow_lt_pow_iff_right one_lt_two).mp (hsize ▸ info.blockSize_lt)
  obtain ⟨hdind, htind⟩ := blocksPer_of_create h
  rw [twoLevels, htind, (FsAuxInfo.of_create h).blocksPerInd, hdind, hsize]
  interval_cases k <;> decide

/-! ## The condition -/

section Condition

variable {user : FsInfo} {k : ℕ} (hk : 10 ≤ k) (hsize : user.blockSize = 2 ^ k)

include hk hsize

/-- The size of a group is zero when it is left to the default and blocks are very large. -/
theorem blocksPerGroup_ne_zero_iff :
    orDefault user.blocksPerGroup (computeBlocksPerGroup user.blockSize) ≠ 0 ↔
      (user.blocksPerGroup = 0 → user.blockSize < 2 ^ 29) := by
  have hlt : k < 32 := (Nat.pow_lt_pow_iff_right one_lt_two).mp (hsize ▸ user.blockSize_lt)
  unfold orDefault
  split
  · rename_i hzero
    rw [hsize, computeBlocksPerGroup]
    simp only [hzero, forall_const]
    interval_cases k <;> decide
  · rename_i hpos
    exact iff_of_true hpos fun hzero => absurd hzero hpos

omit hk hsize in
theorem groupLength_eq (h : user.blocksPerGroup = 0 → user.blockSize < 2 ^ 29) :
    orDefault user.blocksPerGroup (computeBlocksPerGroup user.blockSize) = user.groupLength := by
  unfold FsInfo.groupLength orDefault
  split
  · rename_i hzero
    have hlt := h hzero
    rw [computeBlocksPerGroup, u32_of_lt (by omega), Nat.mul_comm]
  · rfl

/-- There is a group unless the device has no block, or so many that the sum of the rounding wraps
around. -/
theorem blockGroups_ne_zero_iff (hpos : 0 < user.groupLength) (hlt : user.groupLength < 2 ^ 32) :
    blockGroups (user.len &&& (2 ^ 64 - user.blockSize)) user.blockSize user.groupLength ≠ 0 ↔
      0 < user.deviceBlocks ∧ user.deviceBlocks + user.groupLength ≤ 2 ^ 32 := by
  have hword := user.blockSize_lt
  have hlen := user.len_lt
  have hmul := Nat.div_mul_le_self user.len user.blockSize
  have hb : 0 < user.blockSize := by
    rw [hsize]
    exact Nat.two_pow_pos k
  have hk' : k < 32 := (Nat.pow_lt_pow_iff_right one_lt_two).mp (hsize ▸ hword)
  have hround : user.len &&& (2 ^ 64 - user.blockSize) =
      user.len / user.blockSize * user.blockSize := by
    rw [hsize, and_sub_two_pow (by omega) (by omega)]
  rw [blockGroups, hround, divRoundUp64_mul hb (by omega)]
  exact divRoundUp32_ne_zero (u32_lt _) hpos hlt

theorem isSome_makeInfo_iff : (makeInfo user).isSome ↔
    (user.blocksPerGroup = 0 → user.blockSize < 2 ^ 29) ∧ user.inodeSize ≤ user.blockSize ∧
      0 < user.deviceBlocks ∧ user.deviceBlocks + user.groupLength ≤ 2 ^ 32 := by
  have hbig : 2 ^ 10 ≤ user.blockSize := by
    rw [hsize]
    exact Nat.pow_le_pow_right two_pos hk
  have hdefault : orDefault user.blockSize computeBlockSize = user.blockSize := if_neg (by omega)
  rw [isSome_makeInfo, hdefault, blocksPerGroup_ne_zero_iff hk hsize, Nat.div_ne_zero_iff]
  refine and_congr_right fun hgroup => ?_
  have heq := groupLength_eq hgroup
  have hpos : 0 < user.groupLength := by
    rw [← heq]
    exact Nat.pos_of_ne_zero ((blocksPerGroup_ne_zero_iff hk hsize).mpr hgroup)
  have hlt : user.groupLength < 2 ^ 32 := by
    rw [← heq]
    exact orDefault_lt user.blocksPerGroup_lt (u32_lt _)
  rw [heq, blockGroups_ne_zero_iff hk hsize hpos hlt, and_comm]
  refine and_congr_left fun _ => ?_
  unfold orDefault
  split <;> omega

/-- **Zero divisors.**  The parameters are completed without a division by zero if and only if a
group has a size, an inode fits in a block, and the device has at least one block and not so many
that the count of groups wraps around; after that, a file of `len` blocks is counted without one if
and only if two levels of pointer blocks are enough for it. -/
theorem dividesWell_iff {len : ℕ} : DividesWell user len ↔
    ((user.blocksPerGroup = 0 → user.blockSize < 2 ^ 29) ∧ user.inodeSize ≤ user.blockSize ∧
      0 < user.deviceBlocks ∧ user.deviceBlocks + user.groupLength ≤ 2 ^ 32) ∧
        len ≤ twoLevels user.blockSize := by
  have hbig : 2 ^ 10 ≤ user.blockSize := by
    rw [hsize]
    exact Nat.pow_le_pow_right two_pos hk
  have hdefault : orDefault user.blockSize computeBlockSize = user.blockSize := if_neg (by omega)
  have hcount : ∀ {info aux}, makeInfo user = some info → ext4CreateFsAuxInfo info = some aux →
      (indirectBlocksNeeded aux len ≠ .error .undefined ↔ len ≤ twoLevels user.blockSize) := by
    intro info aux hmake haux
    have hsame : info.blockSize = user.blockSize := (blockSize_of_makeInfo hmake).1.trans hdefault
    obtain ⟨htind, htwo⟩ := blocksPer_of_two_pow hk (hsame.trans hsize) haux
    have hind : 0 < aux.blocksPerInd := by
      rw [(FsAuxInfo.of_create haux).blocksPerInd]
      omega
    rw [Ne, indirectBlocksNeeded_eq_undefined_iff hind htind, htwo, hsame, not_lt]
  rw [← isSome_makeInfo_iff hk hsize]
  constructor
  · intro ⟨info, aux, hmake, haux, hneeded⟩
    rw [hmake]
    exact ⟨rfl, (hcount hmake haux).mp hneeded⟩
  · intro ⟨hmake, hlen⟩
    obtain ⟨info, hmake⟩ := Option.isSome_iff_exists.mp hmake
    obtain ⟨hsame, hpos⟩ := blockSize_of_makeInfo hmake
    have haux : ∃ aux, ext4CreateFsAuxInfo info = some aux := by
      unfold ext4CreateFsAuxInfo
      rw [if_neg (by omega)]
      exact ⟨_, rfl⟩
    obtain ⟨aux, haux⟩ := haux
    exact ⟨info, aux, hmake, haux, (hcount hmake haux).mpr hlen⟩

end Condition

/-- A file of 1000 blocks of 4 KiB on 64 MiB. -/
theorem dividesWell_iff_64M : DividesWell (userInfo 4096 (2 ^ 26)) 1000 :=
  (dividesWell_iff (k := 12) (by decide) rfl).mpr (by decide)

/-- The options `-b 4096`, `-l 64m` and `-I 8192`. -/
def largeInodes : FsInfo :=
  { userInfo (2 ^ 12) (64 * 2 ^ 20) with
    inodeSize := 2 ^ 13
    inRange := by decide }

/-- An inode that is larger than a block makes the parameters divide by zero, and with nothing but
`-b 4096` and `-l 64m` a file that needs a third level makes `indirect_blocks_needed` do so. -/
theorem not_dividesWell_64M : ¬ DividesWell largeInodes 0 ∧
    ¬ DividesWell (userInfo 4096 (2 ^ 26)) (12 + 2 ^ 10 + 2 ^ 20 + 1) := by
  constructor
  · intro ⟨info, aux, hmake, _⟩
    have hnone : (makeInfo largeInodes).isSome = false := by decide
    rw [hmake] at hnone
    cases hnone
  · intro ⟨info, aux, hmake, haux, hneeded⟩
    have hsize : info.blockSize = 2 ^ 12 := (blockSize_of_makeInfo hmake).1
    obtain ⟨htind, htwo⟩ := blocksPer_of_two_pow (by decide) hsize haux
    have hind := (FsAuxInfo.of_create haux).blocksPerInd
    refine hneeded ((indirectBlocksNeeded_eq_undefined_iff (by omega) htind).mpr ?_)
    rw [htwo, hsize]
    decide

end SystemExtras.Ext4
