import SystemExtras.Lib.Bytes
import SystemExtras.Ext4.Geometry

/-!
# The superblock: writing it and reading it back

`ext4_fill_in_sb` writes the filesystem parameters into a superblock buffer and
`ext4_parse_sb` reads them back, recomputing every derived number by running
`ext4_create_fs_aux_info` on what it read.  The reader therefore works on the
length *after* a last group was given up, and the round trip asks whether the
derivation is a fixpoint there.

It is not always one.  `roundTrip_iff` gives the exact condition: the fields
must fit their on-disk widths, and if the last group was given up, its loss
must not change the number of descriptor blocks (which the writer had computed
from the larger count) nor, with 1024-byte blocks, have been decided on a
remainder that only the block in front of group 0 made up.
-/

namespace SystemExtras.Ext4

/-! ## Members of `struct ext4_super_block` -/

namespace Sb

def inodesCount : Field := ⟨0, 4⟩
def blocksCountLo : Field := ⟨4, 4⟩
def rBlocksCountLo : Field := ⟨8, 4⟩
def freeBlocksCountLo : Field := ⟨12, 4⟩
def freeInodesCount : Field := ⟨16, 4⟩
def firstDataBlock : Field := ⟨20, 4⟩
def logBlockSize : Field := ⟨24, 4⟩
def obsoLogFragSize : Field := ⟨28, 4⟩
def blocksPerGroup : Field := ⟨32, 4⟩
def obsoFragsPerGroup : Field := ⟨36, 4⟩
def inodesPerGroup : Field := ⟨40, 4⟩
def mtime : Field := ⟨44, 4⟩
def wtime : Field := ⟨48, 4⟩
def mntCount : Field := ⟨52, 2⟩
def maxMntCount : Field := ⟨54, 2⟩
def magic : Field := ⟨56, 2⟩
def state : Field := ⟨58, 2⟩
def errors : Field := ⟨60, 2⟩
def minorRevLevel : Field := ⟨62, 2⟩
def lastcheck : Field := ⟨64, 4⟩
def checkinterval : Field := ⟨68, 4⟩
def creatorOs : Field := ⟨72, 4⟩
def revLevel : Field := ⟨76, 4⟩
def defResuid : Field := ⟨80, 2⟩
def defResgid : Field := ⟨82, 2⟩
def firstIno : Field := ⟨84, 4⟩
def inodeSize : Field := ⟨88, 2⟩
def blockGroupNr : Field := ⟨90, 2⟩
def featureCompat : Field := ⟨92, 4⟩
def featureIncompat : Field := ⟨96, 4⟩
def featureRoCompat : Field := ⟨100, 4⟩
def uuid : ℕ := 104
def volumeName : ℕ := 120
def lastMounted : ℕ := 136
def algorithmUsageBitmap : Field := ⟨200, 4⟩
def preallocBlocks : Field := ⟨204, 1⟩
def preallocDirBlocks : Field := ⟨205, 1⟩
def reservedGdtBlocks : Field := ⟨206, 2⟩
def journalInum : Field := ⟨224, 4⟩
def journalDev : Field := ⟨228, 4⟩
def lastOrphan : Field := ⟨232, 4⟩
def hashSeed0 : Field := ⟨236, 4⟩
def defHashVersion : Field := ⟨252, 1⟩
def reservedCharPad : Field := ⟨253, 1⟩
def descSize : Field := ⟨254, 2⟩
def defaultMountOpts : Field := ⟨256, 4⟩
def firstMetaBg : Field := ⟨260, 4⟩
def mkfsTime : Field := ⟨264, 4⟩
def jnlBlocks : ℕ := 268
def blocksCountHi : Field := ⟨336, 4⟩
def rBlocksCountHi : Field := ⟨340, 4⟩
def freeBlocksCountHi : Field := ⟨344, 4⟩
def minExtraIsize : Field := ⟨348, 2⟩
def wantExtraIsize : Field := ⟨350, 2⟩
def flags : Field := ⟨352, 4⟩
def raidStride : Field := ⟨356, 2⟩
def mmpInterval : Field := ⟨358, 2⟩
def mmpBlock : Field := ⟨360, 8⟩
def raidStripeWidth : Field := ⟨368, 4⟩
def logGroupsPerFlex : Field := ⟨372, 1⟩
def kbytesWritten : Field := ⟨376, 8⟩

/-- `sizeof(struct ext4_super_block)`. -/
def size : ℕ := 1024

end Sb

/-! ## Members of `struct ext2_group_desc` -/

namespace GroupDesc

def bgBlockBitmap : Field := ⟨0, 4⟩
def bgInodeBitmap : Field := ⟨4, 4⟩
def bgInodeTable : Field := ⟨8, 4⟩
def bgFreeBlocksCount : Field := ⟨12, 2⟩
def bgFreeInodesCount : Field := ⟨14, 2⟩
def bgUsedDirsCount : Field := ⟨16, 2⟩
def bgFlags : Field := ⟨18, 2⟩

end GroupDesc

/-! ## The writer -/

/-- The shift loop of `log_2`; an `int` has at most 31 bits to shift out. -/
def log2Loop : ℕ → ℕ → ℕ → ℕ
  | 0, i, _ => i
  | fuel + 1, i, j => if j > 0 then log2Loop fuel (i + 1) (j / 2) else i

/-- `log_2`, as the `u32` it is stored into: `-1` for zero. -/
def log_2 (j : ℕ) : ℕ := sub32 (log2Loop 32 0 j) 1

/-- The assignments of `ext4_fill_in_sb` up to the features. -/
def fillInSbHead (info : FsInfo) (aux : FsAuxInfo) : List (Field × ℕ) := [
  (Sb.inodesCount, u32 (info.inodesPerGroup * aux.groups)),
  (Sb.blocksCountLo, u32 aux.lenBlocks),
  (Sb.rBlocksCountLo, 0),
  (Sb.freeBlocksCountLo, 0),
  (Sb.freeInodesCount, 0),
  (Sb.firstDataBlock, aux.firstDataBlock),
  (Sb.logBlockSize, log_2 (info.blockSize / 1024)),
  (Sb.obsoLogFragSize, log_2 (info.blockSize / 1024)),
  (Sb.blocksPerGroup, info.blocksPerGroup),
  (Sb.obsoFragsPerGroup, info.blocksPerGroup),
  (Sb.inodesPerGroup, info.inodesPerGroup),
  (Sb.mtime, 0),
  (Sb.wtime, 0),
  (Sb.mntCount, 0),
  (Sb.maxMntCount, 0xFFFF),
  (Sb.magic, EXT4_SUPER_MAGIC),
  (Sb.state, EXT4_VALID_FS),
  (Sb.errors, 2),
  (Sb.minorRevLevel, 0),
  (Sb.lastcheck, 0),
  (Sb.checkinterval, 0),
  (Sb.creatorOs, 0),
  (Sb.revLevel, 1),
  (Sb.defResuid, 0),
  (Sb.defResgid, 0),
  (Sb.firstIno, EXT4_GOOD_OLD_FIRST_INO),
  (Sb.inodeSize, info.inodeSize),
  (Sb.blockGroupNr, 0),
  (Sb.featureCompat, info.featCompat),
  (Sb.featureIncompat, info.featIncompat),
  (Sb.featureRoCompat, info.featRoCompat)]

/-- The assignments of `ext4_fill_in_sb` after the names. -/
def fillInSbTail (info : FsInfo) (aux : FsAuxInfo) : List (Field × ℕ) := [
  (Sb.algorithmUsageBitmap, 0),
  (Sb.reservedGdtBlocks, info.bgDescReserveBlocks),
  (Sb.preallocBlocks, 0),
  (Sb.preallocDirBlocks, 0)] ++
  (if info.featCompat &&& EXT4_FEATURE_COMPAT_HAS_JOURNAL ≠ 0 then
    [(Sb.journalInum, EXT4_JOURNAL_INO)] else []) ++ [
  (Sb.journalDev, 0),
  (Sb.lastOrphan, 0),
  (Sb.hashSeed0, 0),
  (Sb.defHashVersion, 2),
  (Sb.reservedCharPad, 1),
  (Sb.descSize, sizeofGroupDesc),
  (Sb.defaultMountOpts, 0),
  (Sb.firstMetaBg, 0),
  (Sb.mkfsTime, 0),
  (Sb.blocksCountHi, aux.lenBlocks / 2 ^ 32),
  (Sb.rBlocksCountHi, 0),
  (Sb.freeBlocksCountHi, 0),
  (Sb.minExtraIsize, sizeofInode - EXT4_GOOD_OLD_INODE_SIZE),
  (Sb.wantExtraIsize, sizeofInode - EXT4_GOOD_OLD_INODE_SIZE),
  (Sb.flags, 0),
  (Sb.raidStride, 0),
  (Sb.mmpInterval, 0),
  (Sb.mmpBlock, 0),
  (Sb.raidStripeWidth, 0),
  (Sb.logGroupsPerFlex, 0),
  (Sb.kbytesWritten, 0)]

/-- `strncpy` of a C string into a zeroed buffer of `n` bytes. -/
def strncpyInto (m : Mem) (a n : ℕ) (s : List UInt8) : Mem :=
  m.storeBytes a ((s.takeWhile (· ≠ 0)).take n)

/-- The superblock part of `ext4_fill_in_sb`, on the zeroed buffer that
`ext4_create_fs_aux_info` made.  `uuid` is what `generate_uuid` hashes out of
the label. -/
def ext4FillInSb (uuid : Mem) (info : FsInfo) (aux : FsAuxInfo) : Mem :=
  let sb := Mem.zero.assign (fillInSbHead info aux)
  let sb := sb.blit Sb.uuid 16 uuid 0
  let sb := strncpyInto (sb.fill Sb.volumeName 16 0) Sb.volumeName 16 info.label
  let sb := sb.fill Sb.lastMounted 64 0
  sb.assign (fillInSbTail info aux)

/-! ## The reader -/

/-- `1024 << s_log_block_size`, which C defines only while the result fits an `int`. -/
def shiftBlockSize (log : ℕ) : Option ℕ := if log < 21 then some (1024 * 2 ^ log) else none

theorem shiftBlockSize_eq_some {log bs : ℕ} :
    shiftBlockSize log = some bs ↔ log < 21 ∧ bs = 1024 * 2 ^ log := by
  unfold shiftBlockSize
  split
  · simp [*, eq_comm]
  · simp [*]

theorem shiftBlockSize_lt {log bs : ℕ} (h : shiftBlockSize log = some bs) : bs < 2 ^ 32 := by
  obtain ⟨hlog, rfl⟩ := shiftBlockSize_eq_some.mp h
  have : 2 ^ log ≤ 2 ^ 20 := Nat.pow_le_pow_right (by decide) (by omega)
  omega

/-- The `struct fs_info` that `ext4_parse_sb` fills in, `old` being what was
there before (the journal parameters are not read back). -/
def parseInfo (old : FsInfo) (sb : Mem) (bs len : ℕ) (hbs : bs < 2 ^ 32) (hlen : len < 2 ^ 63) :
    FsInfo where
  len := len
  blockSize := bs
  blocksPerGroup := Sb.blocksPerGroup.get sb
  inodesPerGroup := Sb.inodesPerGroup.get sb
  inodeSize := Sb.inodeSize.get sb
  inodes := Sb.inodesCount.get sb
  journalBlocks := old.journalBlocks
  featRoCompat := u16 (Sb.featureRoCompat.get sb)
  featCompat := u16 (Sb.featureCompat.get sb)
  featIncompat := u16 (Sb.featureIncompat.get sb)
  bgDescReserveBlocks := Sb.reservedGdtBlocks.get sb
  label := sb.bytes Sb.volumeName 16
  noJournal := old.noJournal
  inRange := ⟨hlen, hbs, Sb.blocksPerGroup.get_lt sb, Sb.inodesPerGroup.get_lt sb,
    (Sb.inodeSize.get_lt sb).trans (by decide), Sb.inodesCount.get_lt sb, old.journalBlocks_lt,
    u16_lt _, u16_lt _, u16_lt _, (Sb.reservedGdtBlocks.get_lt sb).trans (by decide)⟩

/-- The block count of a superblock. -/
def sbLenBlocks (sb : Mem) : ℕ := Sb.blocksCountHi.get sb * 2 ^ 32 + Sb.blocksCountLo.get sb

/-- `ext4_parse_sb`. -/
def ext4ParseSb (old : FsInfo) (sb : Mem) : Except Stop (FsInfo × FsAuxInfo) :=
  if Sb.magic.get sb ≠ EXT4_SUPER_MAGIC then .error (.error "superblock magic incorrect")
  else if Sb.state.get sb &&& EXT4_VALID_FS ≠ EXT4_VALID_FS then
    .error (.error "filesystem state not valid")
  else
    match hbs : shiftBlockSize (Sb.logBlockSize.get sb) with
    | none => .error .undefined
    | some bs =>
        -- a length with the sign bit set is negative as an `s64`
        if hlen : u64 (bs * sbLenBlocks sb) < 2 ^ 63 then
          let info := parseInfo old sb bs (u64 (bs * sbLenBlocks sb)) (shiftBlockSize_lt hbs) hlen
          match ext4CreateFsAuxInfo info with
          | none => .error .undefined
          | some aux =>
              if aux.firstDataBlock ≠ Sb.firstDataBlock.get sb then
                .error (.criticalError "first data block does not match")
              else .ok (info, aux)
        else .error .undefined

/-! ## What the writer leaves in the buffer -/

section Written

variable (uuid : Mem) (info : FsInfo) (aux : FsAuxInfo)

theorem offset_of_mem_fillInSbTail :
    ∀ g ∈ (fillInSbTail info aux).map Prod.fst, 200 ≤ g.offset := by
  unfold fillInSbTail
  split <;> simp only [List.cons_append, List.nil_append, List.map_cons, List.map_nil] <;> decide

/-- The members in front of the UUID keep what the first run of assignments
gave them. -/
theorem get_fillInSb_head {f : Field} (hf : f.offset + f.width ≤ 104) :
    f.get (ext4FillInSb uuid info aux) = f.get (Mem.zero.assign (fillInSbHead info aux)) := by
  have htail : ∀ p ∈ fillInSbTail info aux, f.Disjoint p.1 := by
    intro p hp
    have := offset_of_mem_fillInSbTail info aux p.1 (List.mem_map_of_mem hp)
    exact Or.inl (by omega)
  unfold ext4FillInSb
  rw [Field.get_assign_of_disjoint htail]
  apply Mem.load_congr
  intro i hi
  have hlt : f.offset + i < 104 := by omega
  have hmounted : ¬ (Sb.lastMounted ≤ f.offset + i ∧ f.offset + i < Sb.lastMounted + 64) := by
    unfold Sb.lastMounted
    omega
  have hname : ∀ n, ¬ (Sb.volumeName ≤ f.offset + i ∧ f.offset + i < Sb.volumeName + n) := by
    unfold Sb.volumeName
    omega
  have huuid : ¬ (Sb.uuid ≤ f.offset + i ∧ f.offset + i < Sb.uuid + 16) := by
    unfold Sb.uuid
    omega
  simp only [Mem.fill, strncpyInto, Mem.storeBytes, Mem.blit, if_neg hmounted, if_neg (hname _),
    if_neg huuid]

theorem fillInSbHead_pairwise :
    ((fillInSbHead info aux).map Prod.fst).Pairwise Field.Disjoint := by
  simp only [fillInSbHead, List.map_cons, List.map_nil]
  decide

theorem fillInSbTail_pairwise :
    ((fillInSbTail info aux).map Prod.fst).Pairwise Field.Disjoint := by
  unfold fillInSbTail
  split <;> simp only [List.cons_append, List.nil_append, List.map_cons, List.map_nil] <;> decide

theorem get_fillInSb_of_head {f : Field} {v : ℕ} (i : ℕ)
    (hi : (fillInSbHead info aux)[i]? = some (f, v)) (hf : f.offset + f.width ≤ 104) :
    f.get (ext4FillInSb uuid info aux) = v % 256 ^ f.width := by
  rw [get_fillInSb_head uuid info aux hf, Field.get_assign (fillInSbHead_pairwise info aux) i hi]

theorem get_fillInSb_of_tail {f : Field} {v : ℕ} (i : ℕ)
    (hi : (fillInSbTail info aux)[i]? = some (f, v)) :
    f.get (ext4FillInSb uuid info aux) = v % 256 ^ f.width :=
  Field.get_assign (fillInSbTail_pairwise info aux) i hi _

/-- The values that the reader will find in a written superblock. -/
structure SbHolds (sb : Mem) (info : FsInfo) (aux : FsAuxInfo) : Prop where
  magic : Sb.magic.get sb = EXT4_SUPER_MAGIC
  state : Sb.state.get sb = EXT4_VALID_FS
  firstDataBlock : Sb.firstDataBlock.get sb = u32 aux.firstDataBlock
  logBlockSize : Sb.logBlockSize.get sb = log_2 (info.blockSize / 1024)
  blocksPerGroup : Sb.blocksPerGroup.get sb = info.blocksPerGroup
  inodesPerGroup : Sb.inodesPerGroup.get sb = info.inodesPerGroup
  inodeSize : Sb.inodeSize.get sb = u16 info.inodeSize
  featCompat : Sb.featureCompat.get sb = info.featCompat
  featIncompat : Sb.featureIncompat.get sb = info.featIncompat
  featRoCompat : Sb.featureRoCompat.get sb = info.featRoCompat
  reservedGdtBlocks : Sb.reservedGdtBlocks.get sb = u16 info.bgDescReserveBlocks
  lenBlocks : sbLenBlocks sb = u64 aux.lenBlocks

theorem sbHolds_fillInSb : SbHolds (ext4FillInSb uuid info aux) info aux where
  magic := get_fillInSb_of_head uuid info aux 15 rfl (by decide)
  state := get_fillInSb_of_head uuid info aux 16 rfl (by decide)
  firstDataBlock := get_fillInSb_of_head uuid info aux 5 rfl (by decide)
  logBlockSize := by
    rw [get_fillInSb_of_head uuid info aux 6 rfl (by decide)]
    exact u32_of_lt (u32_lt _)
  blocksPerGroup := by
    rw [get_fillInSb_of_head uuid info aux 8 rfl (by decide)]
    exact u32_of_lt info.blocksPerGroup_lt
  inodesPerGroup := by
    rw [get_fillInSb_of_head uuid info aux 10 rfl (by decide)]
    exact u32_of_lt info.inodesPerGroup_lt
  inodeSize := get_fillInSb_of_head uuid info aux 26 rfl (by decide)
  featCompat := by
    rw [get_fillInSb_of_head uuid info aux 28 rfl (by decide)]
    exact u32_of_lt (info.featCompat_lt.trans (by decide))
  featIncompat := by
    rw [get_fillInSb_of_head uuid info aux 29 rfl (by decide)]
    exact u32_of_lt (info.featIncompat_lt.trans (by decide))
  featRoCompat := by
    rw [get_fillInSb_of_head uuid info aux 30 rfl (by decide)]
    exact u32_of_lt (info.featRoCompat_lt.trans (by decide))
  reservedGdtBlocks := get_fillInSb_of_tail uuid info aux 1 rfl
  lenBlocks := by
    have hlo : Sb.blocksCountLo.get (ext4FillInSb uuid info aux) = u32 aux.lenBlocks := by
      rw [get_fillInSb_of_head uuid info aux 1 rfl (by decide)]
      exact u32_of_lt (u32_lt _)
    have hhi :
        Sb.blocksCountHi.get (ext4FillInSb uuid info aux) = u32 (aux.lenBlocks / 2 ^ 32) := by
      by_cases hjournal : info.featCompat &&& EXT4_FEATURE_COMPAT_HAS_JOURNAL ≠ 0
      · exact get_fillInSb_of_tail uuid info aux 14 (by simp [fillInSbTail, hjournal])
      · exact get_fillInSb_of_tail uuid info aux 13 (by simp [fillInSbTail, hjournal])
    unfold sbLenBlocks
    rw [hlo, hhi]
    unfold u32 u64
    omega

end Written

/-! ## `log_2` -/

theorem log2Loop_two_pow (k : ℕ) : ∀ fuel i, k < fuel → log2Loop fuel i (2 ^ k) = i + k + 1 := by
  induction k with
  | zero =>
      intro fuel i hfuel
      obtain ⟨fuel, rfl⟩ : ∃ f, fuel = f + 1 := ⟨fuel - 1, by omega⟩
      cases fuel <;> simp [log2Loop]
  | succ k ih =>
      intro fuel i hfuel
      obtain ⟨fuel, rfl⟩ : ∃ f, fuel = f + 1 := ⟨fuel - 1, by omega⟩
      have hpos : 2 ^ (k + 1) > 0 := by positivity
      have hhalf : 2 ^ (k + 1) / 2 = 2 ^ k := by rw [pow_succ]; omega
      rw [log2Loop, if_pos hpos, hhalf, ih fuel (i + 1) (by omega)]
      omega

theorem log_2_two_pow {k : ℕ} (hk : k < 32) : log_2 (2 ^ k) = k := by
  rw [log_2, log2Loop_two_pow k 32 0 hk, sub32_of_le (by omega) (by omega)]
  omega

/-! ## The geometry of the shortened length -/

/-- Two parameter sets that agree on everything the derivation reads, except
possibly the length. -/
structure FsInfo.SameShape (info' info : FsInfo) : Prop where
  blockSize : info'.blockSize = info.blockSize
  blocksPerGroup : info'.blocksPerGroup = info.blocksPerGroup
  inodesPerGroup : info'.inodesPerGroup = info.inodesPerGroup
  inodeSize : info'.inodeSize = info.inodeSize
  featRoCompat : info'.featRoCompat = info.featRoCompat
  bgDescReserveBlocks : info'.bgDescReserveBlocks = info.bgDescReserveBlocks

namespace FsInfo.SameShape

variable {info info' : FsInfo} (h : info'.SameShape info)
include h

theorem firstDataBlock : info'.firstDataBlock = info.firstDataBlock := by
  unfold FsInfo.firstDataBlock
  rw [h.blockSize]

theorem inodeTableBlocks : info'.inodeTableBlocks = info.inodeTableBlocks := by
  unfold FsInfo.inodeTableBlocks
  rw [h.blockSize, h.inodesPerGroup, h.inodeSize]

theorem rawGroups (hlen : info'.rawLenBlocks = info.rawLenBlocks) :
    info'.rawGroups = info.rawGroups := by
  unfold FsInfo.rawGroups
  rw [hlen, h.firstDataBlock, h.blocksPerGroup]

theorem bgDescBlocks (hgroups : info'.rawGroups = info.rawGroups) :
    info'.bgDescBlocks = info.bgDescBlocks := by
  unfold FsInfo.bgDescBlocks
  rw [hgroups, h.blockSize]

theorem dropsLastGroup (hlen : info'.rawLenBlocks = info.rawLenBlocks) :
    info'.DropsLastGroup ↔ info.DropsLastGroup := by
  have hgroups := h.rawGroups hlen
  have hsize : info'.lastGroupSize = info.lastGroupSize := by
    unfold FsInfo.lastGroupSize
    rw [hlen, h.blocksPerGroup]
  have hheader : info'.lastHeaderSize = info.lastHeaderSize := by
    unfold FsInfo.lastHeaderSize
    rw [h.inodeTableBlocks, h.featRoCompat, hgroups, h.bgDescBlocks hgroups,
      h.bgDescReserveBlocks]
  unfold FsInfo.DropsLastGroup
  rw [hsize, hheader]

end FsInfo.SameShape

section Dropped

variable {info : FsInfo} (hpos : 0 < info.blocksPerGroup)
include hpos

/-- A given-up group leaves a remainder, so a group has at least two blocks. -/
theorem FsInfo.DropsLastGroup.rem_pos (h : info.DropsLastGroup) :
    0 < info.rawLenBlocks % info.blocksPerGroup ∧ 2 ≤ info.blocksPerGroup := by
  have hrem : 0 < info.rawLenBlocks % info.blocksPerGroup :=
    info.lastGroupSize_eq hpos ▸ h.1
  have := Nat.mod_lt info.rawLenBlocks hpos
  exact ⟨hrem, by omega⟩

/-- The group count of a length with a remainder, unless the remainder is the
one block in front of group 0. -/
theorem FsInfo.rawGroups_of_rem
    (hrem : info.firstDataBlock < info.rawLenBlocks % info.blocksPerGroup) :
    info.rawGroups = u32 (info.rawLenBlocks / info.blocksPerGroup + 1) := by
  have hlen := info.rawLenBlocks_lt
  have hbpg := info.blocksPerGroup_lt
  have hmod := Nat.mod_lt info.rawLenBlocks hpos
  have hsplit := Nat.div_add_mod info.rawLenBlocks info.blocksPerGroup
  have hle : info.firstDataBlock ≤ info.rawLenBlocks :=
    hrem.le.trans (Nat.mod_le _ _)
  unfold FsInfo.rawGroups divRoundUp64
  rw [sub64_of_le hle (by omega), u64_of_lt (by omega)]
  congr 1
  rw [Nat.div_eq_iff hpos]
  rw [Nat.mul_comm] at hsplit
  rw [Nat.add_mul]
  omega

theorem FsInfo.rawGroups_of_rem_one (hfirst : info.firstDataBlock = 1)
    (hrem : info.rawLenBlocks % info.blocksPerGroup = 1) :
    info.rawGroups = u32 (info.rawLenBlocks / info.blocksPerGroup) := by
  have hlen := info.rawLenBlocks_lt
  have hbpg := info.blocksPerGroup_lt
  have hmod := Nat.mod_lt info.rawLenBlocks hpos
  have hsplit := Nat.div_add_mod info.rawLenBlocks info.blocksPerGroup
  have hle : 1 ≤ info.rawLenBlocks := hrem ▸ Nat.mod_le _ _
  unfold FsInfo.rawGroups divRoundUp64
  rw [hfirst, sub64_of_le hle (by omega), u64_of_lt (by omega)]
  congr 1
  rw [Nat.div_eq_iff hpos]
  rw [Nat.mul_comm] at hsplit
  omega

/-- The group count of a whole number of groups. -/
theorem FsInfo.rawGroups_of_mul {q : ℕ} (htwo : 2 ≤ info.blocksPerGroup)
    (hlen : info.rawLenBlocks = q * info.blocksPerGroup) : info.rawGroups = u32 q := by
  have hlt := info.rawLenBlocks_lt
  have hbpg := info.blocksPerGroup_lt
  have hfirst := info.firstDataBlock_le
  unfold FsInfo.rawGroups divRoundUp64
  rcases Nat.eq_zero_or_pos info.firstDataBlock with hzero | hone
  · rw [hzero, sub64_of_le (Nat.zero_le _) (by omega), u64_of_lt (by omega), hlen]
    congr 1
    rw [Nat.div_eq_iff hpos]
    omega
  obtain rfl | hq := Nat.eq_zero_or_pos q
  · -- `0 - 1` is the largest 64-bit number, and rounding it up wraps back below one group
    have hwrap : u64 (sub64 info.rawLenBlocks info.firstDataBlock + info.blocksPerGroup - 1) =
        info.blocksPerGroup - 2 := by
      unfold sub64 u64
      omega
    rw [hwrap, Nat.div_eq_of_lt (by omega)]
  · have hmul : info.blocksPerGroup ≤ q * info.blocksPerGroup := Nat.le_mul_of_pos_left _ hq
    rw [sub64_of_le (by omega) (by omega), u64_of_lt (by omega), hlen]
    congr 1
    rw [Nat.div_eq_iff hpos]
    omega

end Dropped

/-- `DIV_ROUND_UP` of a whole number of groups. -/
theorem count_of_mul {q bpg : ℕ} (hbpg : bpg < 2 ^ 32) (hpos : 0 < bpg)
    (hlen : q * bpg < 2 ^ 63) : u32 (divRoundUp64 (q * bpg) bpg) = u32 q := by
  unfold divRoundUp64
  rw [u64_of_lt (by omega)]
  congr 1
  rw [Nat.div_eq_iff hpos]
  omega

/-- `DIV_ROUND_UP` of a length with a remainder. -/
theorem count_of_rem {len bpg : ℕ} (hlen : len < 2 ^ 63) (hbpg : bpg < 2 ^ 32)
    (hpos : 0 < bpg) (hrem : 0 < len % bpg) :
    u32 (divRoundUp64 len bpg) = u32 (len / bpg + 1) := by
  have hmod := Nat.mod_lt len hpos
  have hsplit := Nat.div_add_mod len bpg
  unfold divRoundUp64
  rw [u64_of_lt (by omega)]
  congr 1
  rw [Nat.div_eq_iff hpos, Nat.add_mul]
  rw [Nat.mul_comm] at hsplit
  omega

/-- With at least two descriptors to a block, `bg_desc_blocks` counts blocks of
`Q` descriptors. -/
theorem FsInfo.bgDescBlocks_eq (info : FsInfo) {Q : ℕ} (hQ : 1 < Q)
    (hbs : info.blockSize = sizeofGroupDesc * Q) :
    info.bgDescBlocks = (info.rawGroups + Q - 1) / Q := by
  have hgroups : info.rawGroups < 2 ^ 32 := u32_lt _
  have hlt := info.blockSize_lt
  unfold FsInfo.bgDescBlocks divRoundUp64
  rw [hbs]
  unfold sizeofGroupDesc at hbs ⊢
  rw [u64_of_lt (by omega), ← Nat.div_div_eq_div_mul,
    show (info.rawGroups * 32 + 32 * Q - 1) / 32 = info.rawGroups + Q - 1 by omega]
  apply u32_of_lt
  calc (info.rawGroups + Q - 1) / Q
      ≤ (info.rawGroups + Q - 1) / 2 := Nat.div_le_div_left hQ (by decide)
    _ < 2 ^ 32 := by omega

/-- One group fewer needs as many descriptor blocks unless the group filled
none but the first slot of its block. -/
theorem descBlocks_pred_eq_iff {g Q : ℕ} (hQ : 1 < Q) (hg : 0 < g) :
    (g + Q - 1) / Q = (g - 1 + Q - 1) / Q ↔ g % Q ≠ 1 := by
  obtain ⟨g, rfl⟩ : ∃ n, g = n + 1 := ⟨g - 1, by omega⟩
  have hstep : (g + 1 + Q - 1) / Q = (g + 1 - 1 + Q - 1) / Q + if Q ∣ g then 1 else 0 := by
    rw [show g + 1 + Q - 1 = g + Q - 1 + 1 by omega, show g + 1 - 1 + Q - 1 = g + Q - 1 by omega,
      Nat.succ_div, show g + Q - 1 + 1 = g + Q by omega]
    simp only [Nat.dvd_add_self_right]
  have hdvd : Q ∣ g ↔ (g + 1) % Q = 1 := by
    rw [Nat.dvd_iff_mod_eq_zero, Nat.add_mod, Nat.mod_eq_of_lt hQ]
    have hlt := Nat.mod_lt g (show 0 < Q by omega)
    rcases Nat.lt_or_ge (g % Q + 1) Q with h | h
    · rw [Nat.mod_eq_of_lt h]
      omega
    · rw [show g % Q + 1 = Q by omega, Nat.mod_self]
      omega
  rw [hstep, ne_eq, ← hdvd]
  by_cases hd : Q ∣ g <;> simp [hd]

/-! ## The round trip -/

/-- A parse that succeeds, taken apart. -/
theorem ext4ParseSb_eq_ok {old info' : FsInfo} {sb : Mem} {aux' : FsAuxInfo} :
    ext4ParseSb old sb = .ok (info', aux') ↔
      Sb.magic.get sb = EXT4_SUPER_MAGIC ∧
      Sb.state.get sb &&& EXT4_VALID_FS = EXT4_VALID_FS ∧
      (∃ bs len hbs hlen, shiftBlockSize (Sb.logBlockSize.get sb) = some bs ∧
        len = u64 (bs * sbLenBlocks sb) ∧ info' = parseInfo old sb bs len hbs hlen) ∧
      ext4CreateFsAuxInfo info' = some aux' ∧
      aux'.firstDataBlock = Sb.firstDataBlock.get sb := by
  unfold ext4ParseSb
  constructor
  · intro h
    split at h
    · cases h
    split at h
    · cases h
    rename_i hmagic hstate
    split at h
    · cases h
    rename_i bs hbs
    split at h
    · rename_i hlen
      dsimp only at h
      split at h
      · cases h
      · rename_i aux haux
        split at h
        · cases h
        · rename_i hfirst
          cases h
          exact ⟨not_not.mp hmagic, not_not.mp hstate,
            ⟨bs, _, shiftBlockSize_lt hbs, hlen, hbs, rfl, rfl⟩, haux, not_not.mp hfirst⟩
    · cases h
  · rintro ⟨hmagic, hstate, ⟨bs, len, hbs, hlen, hshift, rfl, rfl⟩, haux, hfirst⟩
    rw [if_neg (not_not.mpr hmagic), if_neg (not_not.mpr hstate)]
    split
    · rename_i hnone
      rw [hshift] at hnone
      cases hnone
    · rename_i bs' hbs'
      obtain rfl : bs = bs' := by
        rw [hshift] at hbs'
        exact Option.some.inj hbs'
      rw [dif_pos hlen]
      simp only [haux, hfirst, ne_eq, not_true_eq_false, if_false]

/-- The reader ends with the parameters and the derived numbers that the writer
used. -/
structure ReadsBack (info : FsInfo) (aux : FsAuxInfo) (info' : FsInfo) (aux' : FsAuxInfo) :
    Prop where
  blockSize : info'.blockSize = info.blockSize
  blocksPerGroup : info'.blocksPerGroup = info.blocksPerGroup
  inodesPerGroup : info'.inodesPerGroup = info.inodesPerGroup
  inodeSize : info'.inodeSize = info.inodeSize
  featCompat : info'.featCompat = info.featCompat
  featIncompat : info'.featIncompat = info.featIncompat
  featRoCompat : info'.featRoCompat = info.featRoCompat
  bgDescReserveBlocks : info'.bgDescReserveBlocks = info.bgDescReserveBlocks
  lenBlocks : aux'.lenBlocks = aux.lenBlocks
  firstDataBlock : aux'.firstDataBlock = aux.firstDataBlock
  inodeTableBlocks : aux'.inodeTableBlocks = aux.inodeTableBlocks
  groups : aux'.groups = aux.groups
  bgDescBlocks : aux'.bgDescBlocks = aux.bgDescBlocks

/-- The superblock of `info` survives being written and parsed. -/
def SbRoundTrips (uuid : Mem) (old info : FsInfo) (aux : FsAuxInfo) : Prop :=
  ∃ info' aux', ext4ParseSb old (ext4FillInSb uuid info aux) = .ok (info', aux') ∧
    ReadsBack info aux info' aux'

/-- The geometries whose superblock survives: the block size is one the
logarithm can express and an `int` can hold, the two 16-bit members are wide enough, and a last group
that is given up neither was counted as the block in front of group 0 nor was
the first one of a descriptor block. -/
structure FsInfo.SurvivesParsing (info : FsInfo) : Prop where
  blockSize : ∃ k < 21, info.blockSize = 1024 * 2 ^ k
  inodeSize : info.inodeSize < 2 ^ 16
  bgDescReserveBlocks : info.bgDescReserveBlocks < 2 ^ 16
  remainder : info.DropsLastGroup →
    ¬ (info.blockSize = 1024 ∧ info.rawLenBlocks % info.blocksPerGroup = 1)
  descriptors : info.DropsLastGroup →
    info.rawGroups ≠ 0 ∧ info.rawGroups % (info.blockSize / sizeofGroupDesc) ≠ 1

section RoundTrip

variable {uuid : Mem} {old info : FsInfo} {aux : FsAuxInfo}
    (haux : ext4CreateFsAuxInfo info = some aux)
include haux

/-- The writer's block count times the block size is at most the length. -/
theorem mul_lenBlocks_le : info.blockSize * aux.lenBlocks ≤ info.len := by
  have hof := FsAuxInfo.of_create haux
  have hraw : info.blockSize * info.rawLenBlocks ≤ info.len := Nat.mul_div_le _ _
  rw [hof.lenBlocks]
  split
  · rw [info.sub_lastGroupSize hof.blocksPerGroup_pos]
    exact (Nat.mul_le_mul_left _ (Nat.sub_le _ _)).trans hraw
  · exact hraw

/-- The derived numbers of the parameters that the reader ends up with, when
their widths lost nothing. -/
theorem readsBack_iff_of_shape {info' : FsInfo} {aux' : FsAuxInfo} (hshape : info'.SameShape info)
    (hcompat : info'.featCompat = info.featCompat)
    (hincompat : info'.featIncompat = info.featIncompat)
    (hlen : info'.len = info.blockSize * aux.lenBlocks)
    (haux' : ext4CreateFsAuxInfo info' = some aux') :
    ReadsBack info aux info' aux' ↔
      (info.DropsLastGroup → info'.rawGroups = sub32 info.rawGroups 1 ∧
        info'.bgDescBlocks = info.bgDescBlocks) := by
  have hof := FsAuxInfo.of_create haux
  have hof' := FsAuxInfo.of_create haux'
  have hraw : info'.rawLenBlocks = aux.lenBlocks := by
    unfold FsInfo.rawLenBlocks
    rw [hlen, hshape.blockSize]
    exact Nat.mul_div_cancel_left _ hof.blockSize_pos
  by_cases hdrop : info.DropsLastGroup
  · have hlast' : info'.lastGroupSize = 0 := by
      rw [info'.lastGroupSize_eq hof'.blocksPerGroup_pos, hraw, hof.lenBlocks, if_pos hdrop,
        info.sub_lastGroupSize hof.blocksPerGroup_pos, hshape.blocksPerGroup]
      exact Nat.sub_mod_eq_zero_of_mod_eq (Nat.mod_mod _ _).symm
    have hdrop' : ¬ info'.DropsLastGroup := by
      intro h
      exact absurd h.1 (by omega)
    have hlen' : aux'.lenBlocks = aux.lenBlocks := by rw [hof'.lenBlocks, if_neg hdrop', hraw]
    have hgroups' : aux'.groups = info'.rawGroups := by rw [hof'.groups, if_neg hdrop']
    have hgroups : aux.groups = sub32 info.rawGroups 1 := by rw [hof.groups, if_pos hdrop]
    constructor
    · intro h _
      exact ⟨by rw [← hgroups', ← hgroups, h.groups],
        by rw [← hof'.bgDescBlocks, ← hof.bgDescBlocks, h.bgDescBlocks]⟩
    · intro h
      obtain ⟨hg, hd⟩ := h hdrop
      exact {
        blockSize := hshape.blockSize
        blocksPerGroup := hshape.blocksPerGroup
        inodesPerGroup := hshape.inodesPerGroup
        inodeSize := hshape.inodeSize
        featCompat := hcompat
        featIncompat := hincompat
        featRoCompat := hshape.featRoCompat
        bgDescReserveBlocks := hshape.bgDescReserveBlocks
        lenBlocks := hlen'
        firstDataBlock := by rw [hof'.firstDataBlock, hof.firstDataBlock, hshape.firstDataBlock]
        inodeTableBlocks := by
          rw [hof'.inodeTableBlocks, hof.inodeTableBlocks, hshape.inodeTableBlocks]
        groups := by rw [hgroups', hgroups, hg]
        bgDescBlocks := by rw [hof'.bgDescBlocks, hof.bgDescBlocks, hd] }
  · -- the length is the writer's, so every derived number is
    have hraw' : info'.rawLenBlocks = info.rawLenBlocks := by
      rw [hraw, hof.lenBlocks, if_neg hdrop]
    have hdrop' : ¬ info'.DropsLastGroup := (hshape.dropsLastGroup hraw').not.mpr hdrop
    have hrawGroups := hshape.rawGroups hraw'
    refine ⟨fun _ h => absurd h hdrop, fun _ => ?_⟩
    exact {
      blockSize := hshape.blockSize
      blocksPerGroup := hshape.blocksPerGroup
      inodesPerGroup := hshape.inodesPerGroup
      inodeSize := hshape.inodeSize
      featCompat := hcompat
      featIncompat := hincompat
      featRoCompat := hshape.featRoCompat
      bgDescReserveBlocks := hshape.bgDescReserveBlocks
      lenBlocks := by rw [hof'.lenBlocks, if_neg hdrop', hraw]
      firstDataBlock := by rw [hof'.firstDataBlock, hof.firstDataBlock, hshape.firstDataBlock]
      inodeTableBlocks := by
        rw [hof'.inodeTableBlocks, hof.inodeTableBlocks, hshape.inodeTableBlocks]
      groups := by rw [hof'.groups, hof.groups, if_neg hdrop', if_neg hdrop, hrawGroups]
      bgDescBlocks := by
        rw [hof'.bgDescBlocks, hof.bgDescBlocks, hshape.bgDescBlocks hrawGroups] }

/-- When the last group was given up, the reader's counts are the writer's
exactly outside the two bad cases. -/
theorem dropped_counts_iff {info' : FsInfo} (hshape : info'.SameShape info)
    (hlen : info'.len = info.blockSize * aux.lenBlocks) {k : ℕ}
    (hk : info.blockSize = 1024 * 2 ^ k) (hdrop : info.DropsLastGroup) :
    (info'.rawGroups = sub32 info.rawGroups 1 ∧ info'.bgDescBlocks = info.bgDescBlocks) ↔
      ¬ (info.blockSize = 1024 ∧ info.rawLenBlocks % info.blocksPerGroup = 1) ∧
      info.rawGroups ≠ 0 ∧ info.rawGroups % (info.blockSize / sizeofGroupDesc) ≠ 1 := by
  have hof := FsAuxInfo.of_create haux
  have hpos := hof.blocksPerGroup_pos
  obtain ⟨hrem, htwo⟩ := hdrop.rem_pos hpos
  have hpow : 0 < 2 ^ k := by positivity
  -- the reader sees the whole groups only
  have hraw' :
      info'.rawLenBlocks = info.rawLenBlocks / info.blocksPerGroup * info'.blocksPerGroup := by
    have hmul : info'.rawLenBlocks = aux.lenBlocks := by
      unfold FsInfo.rawLenBlocks
      rw [hlen, hshape.blockSize]
      exact Nat.mul_div_cancel_left _ hof.blockSize_pos
    have hsplit := Nat.div_add_mod info.rawLenBlocks info.blocksPerGroup
    rw [hmul, hof.lenBlocks, if_pos hdrop, info.sub_lastGroupSize hpos, hshape.blocksPerGroup,
      Nat.mul_comm]
    omega
  have hgroups' : info'.rawGroups = u32 (info.rawLenBlocks / info.blocksPerGroup) :=
    FsInfo.rawGroups_of_mul (by rw [hshape.blocksPerGroup]; exact hpos)
      (by rw [hshape.blocksPerGroup]; exact htwo) hraw'
  have hQ : 1 < 32 * 2 ^ k := by omega
  have hdesc : info.blockSize = sizeofGroupDesc * (32 * 2 ^ k) := by
    rw [hk]
    unfold sizeofGroupDesc
    omega
  have hper : info.blockSize / sizeofGroupDesc = 32 * 2 ^ k := by
    rw [hdesc]
    exact Nat.mul_div_cancel_left _ (by decide)
  rw [hper, info.bgDescBlocks_eq hQ hdesc,
    info'.bgDescBlocks_eq hQ (by rw [hshape.blockSize]; exact hdesc)]
  have hlt : info.rawGroups < 2 ^ 32 := u32_lt _
  by_cases hbad : info.blockSize = 1024 ∧ info.rawLenBlocks % info.blocksPerGroup = 1
  · -- the block in front of group 0 made up the remainder
    have hfirst : info.firstDataBlock = 1 := by simp [FsInfo.firstDataBlock, hbad.1]
    have hgroups := FsInfo.rawGroups_of_rem_one hpos hfirst hbad.2
    have hne : info'.rawGroups ≠ sub32 info.rawGroups 1 := by
      rw [hgroups', ← hgroups]
      unfold sub32 u32
      omega
    exact ⟨fun h => absurd h.1 hne, fun h => absurd hbad h.1⟩
  · have hfirst : info.firstDataBlock < info.rawLenBlocks % info.blocksPerGroup := by
      unfold FsInfo.firstDataBlock
      split
      · exact hrem
      · rename_i hsmall
        have h1024 : info.blockSize = 1024 := by omega
        have : info.rawLenBlocks % info.blocksPerGroup ≠ 1 := fun h => hbad ⟨h1024, h⟩
        omega
    have hgroups := FsInfo.rawGroups_of_rem hpos hfirst
    have heq : info'.rawGroups = sub32 info.rawGroups 1 := by
      rw [hgroups', hgroups]
      unfold sub32 u32
      omega
    rw [and_iff_right hbad, and_iff_right heq, heq]
    rcases Nat.eq_zero_or_pos info.rawGroups with hzero | hposg
    · -- the count itself had wrapped to zero
      rw [hzero, show sub32 0 1 = 2 ^ 32 - 1 by decide]
      have hleft : 0 < (2 ^ 32 - 1 + 32 * 2 ^ k - 1) / (32 * 2 ^ k) :=
        Nat.div_pos (by omega) (by omega)
      have hright : (0 + 32 * 2 ^ k - 1) / (32 * 2 ^ k) = 0 := Nat.div_eq_of_lt (by omega)
      simp only [ne_eq, not_true_eq_false, false_and, iff_false]
      omega
    · rw [sub32_of_le hposg hlt, eq_comm, descBlocks_pred_eq_iff hQ hposg]
      exact ⟨fun h => ⟨by omega, h⟩, fun h => h.2⟩

/-- The block count in the written superblock is the writer's. -/
theorem sbLenBlocks_fillInSb : sbLenBlocks (ext4FillInSb uuid info aux) = aux.lenBlocks := by
  have hof := FsAuxInfo.of_create haux
  have hmul := mul_lenBlocks_le haux
  have hlen := info.len_lt
  have := Nat.le_mul_of_pos_left aux.lenBlocks hof.blockSize_pos
  rw [(sbHolds_fillInSb uuid info aux).lenBlocks]
  exact u64_of_lt (by omega)

theorem u64_mul_sbLenBlocks (uuid : Mem) :
    u64 (info.blockSize * sbLenBlocks (ext4FillInSb uuid info aux)) =
      info.blockSize * aux.lenBlocks := by
  have hmul := mul_lenBlocks_le haux
  have hlen := info.len_lt
  rw [sbLenBlocks_fillInSb haux]
  exact u64_of_lt (by omega)

omit haux in
/-- The reader's parameters, once its block size is the writer's and the narrow
members lost nothing. -/
theorem parseInfo_sameShape (uuid : Mem) (old : FsInfo) (aux : FsAuxInfo) {len : ℕ}
    (hbs : info.blockSize < 2 ^ 32) (hlen : len < 2 ^ 63) (hisize : info.inodeSize < 2 ^ 16)
    (hreserve : info.bgDescReserveBlocks < 2 ^ 16) :
    (parseInfo old (ext4FillInSb uuid info aux) info.blockSize len hbs hlen).SameShape info := by
  have hsb := sbHolds_fillInSb uuid info aux
  exact {
    blockSize := rfl
    blocksPerGroup := hsb.blocksPerGroup
    inodesPerGroup := hsb.inodesPerGroup
    inodeSize := hsb.inodeSize.trans (u16_of_lt hisize)
    featRoCompat := (congrArg u16 hsb.featRoCompat).trans (u16_of_lt info.featRoCompat_lt)
    bgDescReserveBlocks := hsb.reservedGdtBlocks.trans (u16_of_lt hreserve) }

omit haux in
theorem u16_featCompat_fillInSb :
    u16 (Sb.featureCompat.get (ext4FillInSb uuid info aux)) = info.featCompat := by
  rw [(sbHolds_fillInSb uuid info aux).featCompat, u16_of_lt info.featCompat_lt]

omit haux in
theorem u16_featIncompat_fillInSb :
    u16 (Sb.featureIncompat.get (ext4FillInSb uuid info aux)) = info.featIncompat := by
  rw [(sbHolds_fillInSb uuid info aux).featIncompat, u16_of_lt info.featIncompat_lt]

theorem survivesParsing_of_roundTrips (h : SbRoundTrips uuid old info aux) :
    info.SurvivesParsing := by
  obtain ⟨info', aux', hparse, hback⟩ := h
  obtain ⟨-, -, ⟨bs, len, hbs, hlen, hshift, hlenEq, rfl⟩, haux', -⟩ := ext4ParseSb_eq_ok.mp hparse
  obtain rfl : bs = info.blockSize := hback.blockSize
  obtain ⟨hlog, hk⟩ := shiftBlockSize_eq_some.mp hshift
  have hisize : info.inodeSize < 2 ^ 16 :=
    hback.inodeSize ▸ Sb.inodeSize.get_lt (ext4FillInSb uuid info aux)
  have hreserve : info.bgDescReserveBlocks < 2 ^ 16 :=
    hback.bgDescReserveBlocks ▸ Sb.reservedGdtBlocks.get_lt (ext4FillInSb uuid info aux)
  have hshape := parseInfo_sameShape uuid old aux hbs hlen hisize hreserve
  have hlen' := hlenEq.trans (u64_mul_sbLenBlocks haux uuid)
  have hcounts := (readsBack_iff_of_shape haux hshape u16_featCompat_fillInSb
    u16_featIncompat_fillInSb hlen' haux').mp hback
  have hdropped := fun hdrop =>
    (dropped_counts_iff haux hshape hlen' hk hdrop).mp (hcounts hdrop)
  exact ⟨⟨_, hlog, hk⟩, hisize, hreserve, fun hdrop => (hdropped hdrop).1,
    fun hdrop => (hdropped hdrop).2⟩

theorem roundTrips_of_survivesParsing (h : info.SurvivesParsing) :
    SbRoundTrips uuid old info aux := by
  obtain ⟨⟨k, hk21, hk⟩, hisize, hreserve, hremainder, hdescriptors⟩ := h
  have hof := FsAuxInfo.of_create haux
  have hsb := sbHolds_fillInSb uuid info aux
  have hbslt := info.blockSize_lt
  have hlog : Sb.logBlockSize.get (ext4FillInSb uuid info aux) = k := by
    rw [hsb.logBlockSize, hk, Nat.mul_div_cancel_left _ (by decide)]
    exact log_2_two_pow (by omega)
  have hlen' := u64_mul_sbLenBlocks haux uuid
  have hlenlt : u64 (info.blockSize * sbLenBlocks (ext4FillInSb uuid info aux)) < 2 ^ 63 := by
    rw [hlen']
    exact (mul_lenBlocks_le haux).trans_lt info.len_lt
  have hshape := parseInfo_sameShape uuid old aux hbslt hlenlt hisize hreserve
  obtain ⟨aux', haux'⟩ : ∃ aux', ext4CreateFsAuxInfo
      (parseInfo old (ext4FillInSb uuid info aux) info.blockSize _ hbslt hlenlt) = some aux' := by
    unfold ext4CreateFsAuxInfo
    rw [if_neg]
    · exact ⟨_, rfl⟩
    · rw [hshape.blockSize, hshape.blocksPerGroup]
      have := hof.blockSize_pos
      have := hof.blocksPerGroup_pos
      omega
  have hback : ReadsBack info aux _ aux' :=
    (readsBack_iff_of_shape haux hshape u16_featCompat_fillInSb u16_featIncompat_fillInSb hlen'
      haux').mpr fun hdrop =>
        (dropped_counts_iff haux hshape hlen' hk hdrop).mpr ⟨hremainder hdrop, hdescriptors hdrop⟩
  refine ⟨_, aux', ext4ParseSb_eq_ok.mpr ⟨hsb.magic, ?_, ?_, haux', ?_⟩, hback⟩
  · rw [hsb.state]
    decide
  · refine ⟨info.blockSize, _, hbslt, hlenlt, ?_, rfl, rfl⟩
    exact shiftBlockSize_eq_some.mpr ⟨hlog.symm ▸ hk21, hlog.symm ▸ hk⟩
  · have hle := info.firstDataBlock_le
    rw [hback.firstDataBlock, hsb.firstDataBlock, u32_of_lt]
    rw [hof.firstDataBlock]
    omega

end RoundTrip

/-- **The superblock round trip.**  Writing the superblock of a geometry and
parsing it gives the parameters and derived numbers back exactly when the
geometry is one of those in `SurvivesParsing`. -/
theorem sbRoundTrips_iff {uuid : Mem} {old info : FsInfo} {aux : FsAuxInfo}
    (haux : ext4CreateFsAuxInfo info = some aux) :
    SbRoundTrips uuid old info aux ↔ info.SurvivesParsing :=
  ⟨survivesParsing_of_roundTrips haux, roundTrips_of_survivesParsing haux⟩

/-- The parameters that `make_ext4fs -l 17180278784` arrives at: 129 groups, the
last of 100 blocks. -/
def info16G : FsInfo where
  len := 17180278784
  blockSize := 4096
  blocksPerGroup := 32768
  inodesPerGroup := 8144
  inodeSize := 256
  inodes := 1050576
  journalBlocks := 32768
  featRoCompat := 0x13
  featCompat := 0x1c
  featIncompat := 0x42
  bgDescReserveBlocks := 1024
  label := []
  noJournal := false

/-- The derived numbers of `info16G`: the last group is gone, but its descriptor
block is still counted. -/
def aux16G : FsAuxInfo where
  firstDataBlock := 0
  lenBlocks := 4194304
  inodeTableBlocks := 509
  groups := 128
  bgDescBlocks := 2
  defaultIFlags := 128
  blocksPerInd := 1024
  blocksPerDind := 1048576
  blocksPerTind := 0

theorem create_info16G : ext4CreateFsAuxInfo info16G = some aux16G := by decide

/-- Without the last group, which is given up anyhow, the superblock survives. -/
theorem sbRoundTrips_even16G :
    SbRoundTrips Mem.zero FsInfo.zero { info16G with len := 17179869184, inRange := by decide }
      { aux16G with bgDescBlocks := 1 } :=
  (sbRoundTrips_iff (by decide)).mpr
    { blockSize := ⟨2, by decide, rfl⟩
      inodeSize := by decide
      bgDescReserveBlocks := by decide
      remainder := by decide
      descriptors := by decide }

theorem not_sbRoundTrips_info16G :
    ext4CreateFsAuxInfo info16G = some aux16G ∧ 1 ≤ aux16G.groups ∧
      ¬ SbRoundTrips Mem.zero FsInfo.zero info16G aux16G := by
  refine ⟨create_info16G, by decide, fun h => ?_⟩
  have hsurvives := survivesParsing_of_roundTrips create_info16G h
  exact (hsurvives.descriptors (by decide)).2 (by decide)

end SystemExtras.Ext4
