import SystemExtras.Ext4.ImageRead

/-!
# The default parameters

Where the groups and the inodes are left to `make_ext4fs_internal`, and blocks have
4 KiB, what it computes is nearly always what the allocator and a reader need, up to
8 TiB (`defaults_iff`).  Two kinds of length are left, both because of the last group.

* It is kept as soon as its header fits.  The invariants of the allocator ask for two
  blocks behind the header.
* The blocks of descriptors are counted before it is given up.  Where it was the first
  group of a block of descriptors, a reader counts one block less.
-/

namespace SystemExtras.Ext4

/-- Parameters of which the user has given a length, a journal, a label and 4 KiB blocks at most. -/
structure FsInfo.Plain (user : FsInfo) : Prop where
  blockSize : user.blockSize = 0 ∨ user.blockSize = 4096
  blocksPerGroup : user.blocksPerGroup = 0
  inodes : user.inodes = 0
  inodeSize : user.inodeSize = 0
  featIncompat : user.featIncompat = 0
  len_le : user.len ≤ 2 ^ 43

/-- What they are completed to. -/
structure FsInfo.Standard (info : FsInfo) : Prop where
  blockSize : info.blockSize = 4096
  blocksPerGroup : info.blocksPerGroup = 32768
  inodeSize : info.inodeSize = 256
  inodesPerGroup_le : info.inodesPerGroup ≤ 8192
  reserve_le : info.bgDescReserveBlocks ≤ 1024
  featIncompat : info.featIncompat = EXT4_FEATURE_INCOMPAT_EXTENTS ||| EXT4_FEATURE_INCOMPAT_FILETYPE
  len_le : info.len ≤ 2 ^ 43

/-- A quarter of the blocks are inodes, and these are divided among the groups. -/
theorem inodesPerGroup_le_of_default {len : ℕ} {r : ℕ × ℕ} (hlen : len ≤ 2 ^ 43)
    (h : computeInodesPerGroup len 4096 32768 (computeInodes len 4096) 256 = some r) :
    r.1 ≤ 8192 := by
  have hblocks : divRoundUp64 len 4096 ≤ 2 ^ 31 := by
    rw [divRoundUp64, u64_of_lt (by omega)]
    omega
  have hinodes : computeInodes len 4096 = divRoundUp64 len 4096 / 4 := u32_of_lt (by omega)
  have hgroups : divRoundUp64 len 4096 ≤ 32768 * blockGroups len 4096 32768 := by
    rw [blockGroups, u32_of_lt (by omega), divRoundUp32, u32_of_lt (by omega)]
    omega
  have hgroups_le : blockGroups len 4096 32768 ≤ 2 ^ 16 := by
    rw [blockGroups, u32_of_lt (by omega), divRoundUp32, u32_of_lt (by omega)]
    omega
  unfold computeInodesPerGroup at h
  simp only at h
  split at h
  · cases h
  · rename_i hne
    have hpos : 0 < blockGroups len 4096 32768 := by omega
    cases h
    have hper : divRoundUp32 (computeInodes len 4096) (blockGroups len 4096 32768) ≤ 8192 := by
      rw [hinodes, divRoundUp32, u32_of_lt (by omega)]
      refine Nat.le_of_lt_succ ((Nat.div_lt_iff_lt_mul hpos).mpr ?_)
      omega
    have haligned : divRoundUp32 (divRoundUp32 (computeInodes len 4096)
        (blockGroups len 4096 32768)) (4096 / 256) ≤ 512 := by
      rw [divRoundUp32, u32_of_lt (by omega)]
      omega
    refine (Nat.mod_le _ _).trans ?_
    calc 4096 / 256 * divRoundUp32 (divRoundUp32 (computeInodes len 4096)
          (blockGroups len 4096 32768)) (4096 / 256)
        ≤ 4096 / 256 * 512 := Nat.mul_le_mul_left _ haligned
      _ = 8192 := by decide

theorem standard_of_makeInfo {user info : FsInfo} (hp : user.Plain)
    (hmake : makeInfo user = some info) : info.Standard := by
  have hbs : orDefault user.blockSize computeBlockSize = 4096 := by
    rcases hp.blockSize with hzero | hgiven
    · rw [hzero]
      rfl
    · rw [hgiven]
      rfl
  have hbpg : orDefault user.blocksPerGroup (computeBlocksPerGroup 4096) = 32768 := by
    rw [hp.blocksPerGroup]
    rfl
  have hisize : orDefault user.inodeSize 256 = 256 := by
    rw [hp.inodeSize]
    rfl
  have hreserve := reserve_le_of_makeInfo hmake
  unfold makeInfo at hmake
  simp only at hmake
  split at hmake
  · cases hmake
  · split at hmake
    · cases hmake
    · rename_i perGroup inodes hper
      cases hmake
      have hlen : user.len &&& (2 ^ 64 - orDefault user.blockSize computeBlockSize) ≤ 2 ^ 43 :=
        Nat.and_le_left.trans hp.len_le
      refine ⟨hbs, ?_, hisize, ?_, ?_, ?_, hlen⟩
      · dsimp only
        rw [hbs, hbpg]
      · rw [hbs] at hper hlen
        rw [hbpg, hisize, hp.inodes] at hper
        exact inodesPerGroup_le_of_default hlen hper
      · dsimp only at hreserve ⊢
        rw [hbs] at hreserve ⊢
        exact hreserve
      · dsimp only
        rw [hp.featIncompat, Nat.zero_or]

section Derived

variable {g : Geometry} (hs : g.info.Standard)

include hs

theorem FsInfo.Standard.rawLenBlocks_le : g.info.rawLenBlocks ≤ 2 ^ 31 := by
  have hlen := hs.len_le
  unfold FsInfo.rawLenBlocks
  rw [hs.blockSize]
  omega

theorem FsInfo.Standard.firstDataBlock_eq : g.info.firstDataBlock = 0 := by
  unfold FsInfo.firstDataBlock
  rw [hs.blockSize]
  rfl

theorem FsInfo.Standard.lastGroupSize_eq : g.info.lastGroupSize = g.info.rawLenBlocks % 32768 := by
  rw [g.info.lastGroupSize_eq (by rw [hs.blocksPerGroup]; decide), hs.blocksPerGroup]

theorem FsInfo.Standard.rawGroups_eq : g.info.rawGroups = (g.info.rawLenBlocks + 32767) / 32768 := by
  have hraw := hs.rawLenBlocks_le
  unfold FsInfo.rawGroups
  rw [hs.firstDataBlock_eq, hs.blocksPerGroup, sub64_of_le (Nat.zero_le _) (by omega), Nat.sub_zero,
    divRoundUp64, u64_of_lt (by omega), u32_of_lt (by omega)]
  omega

/-- What is kept of the device, and of its groups. -/
theorem FsInfo.Standard.kept :
    g.aux.lenBlocks = (if g.info.DropsLastGroup then 32768 * (g.info.rawLenBlocks / 32768)
      else g.info.rawLenBlocks) ∧
    g.aux.groups = if g.info.DropsLastGroup then g.info.rawLenBlocks / 32768
      else (g.info.rawLenBlocks + 32767) / 32768 := by
  have hraw := hs.rawLenBlocks_le
  have hof := FsAuxInfo.of_create g.create
  rw [hof.lenBlocks, hof.groups, hs.rawGroups_eq]
  by_cases hdrop : g.info.DropsLastGroup
  · have hlast := hdrop.1
    rw [hs.lastGroupSize_eq] at hlast
    rw [if_pos hdrop, if_pos hdrop, if_pos hdrop, if_pos hdrop, hs.lastGroupSize_eq,
      sub64_of_le (Nat.mod_le _ _) (by omega), sub32_of_le (by omega) (by omega)]
    constructor <;> omega
  · rw [if_neg hdrop, if_neg hdrop, if_neg hdrop, if_neg hdrop]
    exact ⟨rfl, rfl⟩

theorem FsInfo.Standard.headerSize_le (i : ℕ) : g.info.headerSize i ≤ 2563 := by
  have hraw := hs.rawLenBlocks_le
  have hper := hs.inodesPerGroup_le
  have hreserve := hs.reserve_le
  have htable : g.info.inodeTableBlocks ≤ 512 := by
    unfold FsInfo.inodeTableBlocks
    rw [hs.inodeSize, hs.blockSize, u32_of_lt (by omega), divRoundUp32, u32_of_lt (by omega)]
    omega
  have hdesc : g.info.bgDescBlocks ≤ 1024 := by
    unfold FsInfo.bgDescBlocks sizeofGroupDesc
    rw [hs.rawGroups_eq, hs.blockSize, divRoundUp64, u64_of_lt (by omega), u32_of_lt (by omega)]
    omega
  unfold FsInfo.headerSize
  split <;> omega

theorem FsInfo.Standard.start_eq (i : ℕ) : g.start i = i * 32768 := by
  have hfirst := (FsAuxInfo.of_create g.create).firstDataBlock
  rw [Geometry.start, hfirst, hs.firstDataBlock_eq, hs.blocksPerGroup, Nat.zero_add]

/-- The header and the size of a group that is kept and not full. -/
theorem FsInfo.Standard.last_group (hbuilt : g.Built)
    (hdrop : ¬ g.info.DropsLastGroup) {i : ℕ} (hi : i < g.aux.groups)
    (hfull : ¬ 32768 * (i + 1) ≤ g.info.rawLenBlocks) :
    g.headerBlocks i = g.info.lastHeaderSize ∧ g.groupSize i = g.info.lastGroupSize := by
  have hraw := hs.rawLenBlocks_le
  obtain ⟨hlen, hgroups⟩ := hs.kept
  rw [if_neg hdrop] at hlen hgroups
  have hplace : sub32 g.info.rawGroups 1 = i := by
    rw [hs.rawGroups_eq, sub32_of_le (by omega) (by omega)]
    omega
  have hhead := FsInfo.lastHeaderSize_eq hbuilt.blockSize_ge hbuilt.reserve_le
  rw [hplace] at hhead
  rw [hbuilt.headerBlocks_eq, hhead, Geometry.groupSize, hs.start_eq, hs.blocksPerGroup, hlen,
    hs.lastGroupSize_eq]
  exact ⟨rfl, by omega⟩

end Derived

/-- The allocator can work on it, unless the last group has been kept for its header and one block
at most. -/
theorem FsInfo.Standard.usable_iff {g : Geometry} (hs : g.info.Standard) :
    g.Usable ↔ g.info.lastGroupSize ≠ g.info.lastHeaderSize ∧
      g.info.lastGroupSize ≠ g.info.lastHeaderSize + 1 := by
  have hraw := hs.rawLenBlocks_le
  have hper := hs.inodesPerGroup_le
  obtain ⟨hlen, hgroups⟩ := hs.kept
  have hbuilt : g.Built := by
    refine ⟨?_, ?_, ?_⟩
    all_goals rw [hs.blockSize]
    · decide
    · decide
    · exact hs.reserve_le
  constructor
  · -- such a group is not given up, and has no two blocks for data
    intro hu
    by_contra hlast
    have hpos : 2 ≤ g.info.lastHeaderSize := by
      rw [FsInfo.lastHeaderSize_eq hbuilt.blockSize_ge hbuilt.reserve_le]
      exact FsInfo.two_le_headerSize _
    have hdrop : ¬ g.info.DropsLastGroup := by
      unfold FsInfo.DropsLastGroup
      omega
    have hsize := hs.lastGroupSize_eq
    rw [if_neg hdrop] at hgroups
    have hi : g.info.rawLenBlocks / 32768 < g.aux.groups := by omega
    obtain ⟨hheader, hgroup⟩ := hs.last_group hbuilt hdrop hi (by omega)
    have hroom := hu.roomy.size_ge _ hi
    omega
  · intro hlast
    have hlen_le : g.aux.lenBlocks ≤ 2 ^ 31 := by
      rw [hlen]
      split <;> omega
    have hgroups_le : g.aux.groups ≤ 2 ^ 16 := by
      rw [hgroups]
      split <;> omega
    refine ⟨⟨by omega, ?_, fun i hi => ?_⟩, ?_, hbuilt, ⟨?_, ?_, ?_, ?_⟩, hs.blockSize.le, 12,
      by decide, hs.blockSize⟩
    · rw [hs.blocksPerGroup, hs.blockSize]
    · by_cases hfull : 32768 * (i + 1) ≤ g.info.rawLenBlocks
      · have hheader := hs.headerSize_le i
        have hkept : 32768 * (i + 1) ≤ g.aux.lenBlocks := by
          rw [hlen]
          split <;> omega
        rw [hbuilt.headerBlocks_eq, Geometry.groupSize, hs.start_eq, hs.blocksPerGroup]
        omega
      · have hdrop : ¬ g.info.DropsLastGroup := by
          intro hdrop
          rw [hgroups, if_pos hdrop] at hi
          omega
        obtain ⟨hheader, hgroup⟩ := hs.last_group hbuilt hdrop hi hfull
        rw [hgroups, if_neg hdrop] at hi
        have hsize := hs.lastGroupSize_eq
        unfold FsInfo.DropsLastGroup at hdrop
        omega
    · unfold Geometry.Small
      rw [hs.blocksPerGroup]
      decide
    · rw [hs.blockSize]
      omega
    · have hmul := Nat.mul_le_mul hgroups_le hper
      omega
    · rw [hs.inodeSize, hs.blockSize]
      omega
    · rw [hs.inodeSize]
      decide

/-- It can be read back, unless the last group has been given up and was the first one of a block of
descriptors. -/
theorem FsInfo.Standard.readable_iff {g : Geometry} (hs : g.info.Standard) :
    g.Readable ↔ (g.info.DropsLastGroup → g.info.rawGroups % 128 ≠ 1) := by
  constructor
  · intro hr hdrop
    have hdesc := (hr.survives.descriptors hdrop).2
    rw [hs.blockSize] at hdesc
    exact hdesc
  · intro hdesc
    have hreserve := hs.reserve_le
    refine ⟨⟨⟨2, by decide, hs.blockSize⟩, ?_, by omega, fun _ h => ?_, fun hdrop => ⟨?_, ?_⟩⟩, ?_, ?_, ?_⟩
    · rw [hs.inodeSize]
      decide
    · rw [hs.blockSize] at h
      exact absurd h.1 (by decide)
    · have hlast := hdrop.1
      have hraw := hs.rawLenBlocks_le
      rw [hs.lastGroupSize_eq] at hlast
      rw [hs.rawGroups_eq]
      omega
    · rw [hs.blockSize]
      exact hdesc hdrop
    · rw [hs.inodeSize, hs.blockSize]
      decide
    · rw [hs.featIncompat]
      decide
    · rw [hs.featIncompat]
      decide

/-- Which lengths the completed parameters are good for. -/
theorem defaults_iff {g : Geometry} {user : FsInfo} (hp : user.Plain)
    (hmake : makeInfo user = some g.info) :
    (g.Usable ↔ g.info.lastGroupSize ≠ g.info.lastHeaderSize ∧
      g.info.lastGroupSize ≠ g.info.lastHeaderSize + 1) ∧
    (g.Readable ↔ (g.info.DropsLastGroup → g.info.rawGroups % 128 ≠ 1)) :=
  have hs := standard_of_makeInfo hp hmake
  ⟨hs.usable_iff, hs.readable_iff⟩

theorem defaults_iff_64M : geometry64M.Usable ∧ geometry64M.Readable := by
  have hplain : (userInfo 4096 (2 ^ 26)).Plain := ⟨.inr rfl, rfl, rfl, rfl, rfl, by decide⟩
  have hmake : makeInfo (userInfo 4096 (2 ^ 26)) = some geometry64M.info := by decide
  obtain ⟨husable, hreadable⟩ := defaults_iff hplain hmake
  exact ⟨husable.mpr (by decide), hreadable.mpr (by decide)⟩

end SystemExtras.Ext4
