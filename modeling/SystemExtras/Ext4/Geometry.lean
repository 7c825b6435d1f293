import SystemExtras.Lib.Words

/-!
# Filesystem parameters and the geometry derived from them

`struct fs_info` holds what the user or a superblock says about a filesystem,
`struct fs_aux_info` what `ext4_create_fs_aux_info` derives from it: the number
of block groups, the size of an inode table, the number of descriptor blocks.
The tools only ever look at the derived numbers, so everything below starts
from `ext4CreateFsAuxInfo info = some aux`.

Two features of the derivation matter later.  The number of descriptor blocks
is computed from the group count *before* a last group that is too small for
its own header is given up, and the size of that last group is taken modulo
`blocks_per_group` without regard to `first_data_block`.
-/

namespace SystemExtras.Ext4

/-- How a run of the tools ends when it does not return.  `error` and
`critical_error` print the text and `longjmp` out (`error` does so because
`force` is off); `undefined` is a step whose effect C leaves open, such as a
null dereference or a division by zero; `hang` is a loop that does not end. -/
inductive Stop where
  | error (msg : String)
  | criticalError (msg : String)
  | undefined
  | hang
  deriving DecidableEq, Repr

/-! ## Constants of the on-disk format -/

def EXT4_SUPER_MAGIC : ℕ := 0xEF53
def EXT4_VALID_FS : ℕ := 0x0001
def EXT4_ROOT_INO : ℕ := 2
def EXT4_RESIZE_INO : ℕ := 7
def EXT4_JOURNAL_INO : ℕ := 8
def EXT4_GOOD_OLD_FIRST_INO : ℕ := 11
def EXT4_GOOD_OLD_INODE_SIZE : ℕ := 128
def EXT4_NOATIME_FL : ℕ := 0x00000080
def EXT4_EXTENTS_FL : ℕ := 0x00080000
def EXT4_FEATURE_COMPAT_HAS_JOURNAL : ℕ := 0x0004
def EXT4_FEATURE_COMPAT_EXT_ATTR : ℕ := 0x0008
def EXT4_FEATURE_COMPAT_RESIZE_INODE : ℕ := 0x0010
def EXT4_FEATURE_RO_COMPAT_SPARSE_SUPER : ℕ := 0x0001
def EXT4_FEATURE_RO_COMPAT_LARGE_FILE : ℕ := 0x0002
def EXT4_FEATURE_RO_COMPAT_GDT_CSUM : ℕ := 0x0010
def EXT4_FEATURE_INCOMPAT_FILETYPE : ℕ := 0x0002
def EXT4_FEATURE_INCOMPAT_RECOVER : ℕ := 0x0004
def EXT4_FEATURE_INCOMPAT_EXTENTS : ℕ := 0x0040

/-- `sizeof(struct ext2_group_desc)`. -/
def sizeofGroupDesc : ℕ := 32

/-- `sizeof(struct ext4_inode)`. -/
def sizeofInode : ℕ := 156

/-- `struct fs_info`, without the handle of the output file.  A value that does
not fit its C type cannot be built.  `len` is an `s64` whose callers have
already replaced values below one. -/
@[ext] structure FsInfo where
  len : ℕ
  blockSize : ℕ
  blocksPerGroup : ℕ
  inodesPerGroup : ℕ
  inodeSize : ℕ
  inodes : ℕ
  journalBlocks : ℕ
  featRoCompat : ℕ
  featCompat : ℕ
  featIncompat : ℕ
  bgDescReserveBlocks : ℕ
  label : List UInt8
  noJournal : Bool
  inRange : len < 2 ^ 63 ∧ blockSize < 2 ^ 32 ∧ blocksPerGroup < 2 ^ 32 ∧
    inodesPerGroup < 2 ^ 32 ∧ inodeSize < 2 ^ 32 ∧ inodes < 2 ^ 32 ∧ journalBlocks < 2 ^ 32 ∧
    featRoCompat < 2 ^ 16 ∧ featCompat < 2 ^ 16 ∧ featIncompat < 2 ^ 16 ∧
    bgDescReserveBlocks < 2 ^ 32 := by decide
  deriving DecidableEq, Repr

namespace FsInfo

variable (info : FsInfo)

theorem len_lt : info.len < 2 ^ 63 := info.inRange.1

theorem blockSize_lt : info.blockSize < 2 ^ 32 := info.inRange.2.1

theorem blocksPerGroup_lt : info.blocksPerGroup < 2 ^ 32 := info.inRange.2.2.1

theorem inodesPerGroup_lt : info.inodesPerGroup < 2 ^ 32 := info.inRange.2.2.2.1

theorem inodeSize_lt : info.inodeSize < 2 ^ 32 := info.inRange.2.2.2.2.1

theorem inodes_lt : info.inodes < 2 ^ 32 := info.inRange.2.2.2.2.2.1

theorem journalBlocks_lt : info.journalBlocks < 2 ^ 32 := info.inRange.2.2.2.2.2.2.1

theorem featRoCompat_lt : info.featRoCompat < 2 ^ 16 := info.inRange.2.2.2.2.2.2.2.1

theorem featCompat_lt : info.featCompat < 2 ^ 16 := info.inRange.2.2.2.2.2.2.2.2.1

theorem featIncompat_lt : info.featIncompat < 2 ^ 16 := info.inRange.2.2.2.2.2.2.2.2.2.1

theorem bgDescReserveBlocks_lt : info.bgDescReserveBlocks < 2 ^ 32 :=
  info.inRange.2.2.2.2.2.2.2.2.2.2

end FsInfo

/-- The global `info` before anything is assigned to it. -/
def FsInfo.zero : FsInfo where
  len := 0
  blockSize := 0
  blocksPerGroup := 0
  inodesPerGroup := 0
  inodeSize := 0
  inodes := 0
  journalBlocks := 0
  featRoCompat := 0
  featCompat := 0
  featIncompat := 0
  bgDescReserveBlocks := 0
  label := []
  noJournal := false

/-- The numbers of `struct fs_aux_info`; its buffers belong to the parts of the
model that fill them. -/
@[ext] structure FsAuxInfo where
  firstDataBlock : ℕ
  lenBlocks : ℕ
  inodeTableBlocks : ℕ
  groups : ℕ
  bgDescBlocks : ℕ
  defaultIFlags : ℕ
  blocksPerInd : ℕ
  blocksPerDind : ℕ
  blocksPerTind : ℕ
  deriving DecidableEq, Repr

/-! ## Backup superblocks -/

/-- The division loop of `is_power_of`.  `a` at least halves in every round, so
`a` rounds are more than it makes. -/
def isPowerOfLoop : ℕ → ℤ → ℤ → Bool
  | 0, a, b => a == b
  | fuel + 1, a, b =>
      if a > b then
        if a % b ≠ 0 then false else isPowerOfLoop fuel (a / b) b
      else a == b

/-- `is_power_of`: whether `a` is a power of `b`. -/
def isPowerOf (a b : ℤ) : Bool := isPowerOfLoop a.toNat a b

/-- `ext4_bg_has_super_block`.  The parameter is an `int`; callers pass a `u32`. -/
def ext4BgHasSuperBlock (featRoCompat : ℕ) (bg : ℕ) : Bool :=
  if featRoCompat &&& EXT4_FEATURE_RO_COMPAT_SPARSE_SUPER = 0 then true
  else if s32 bg = 0 ∨ s32 bg = 1 then true
  else isPowerOf (s32 bg) 3 || isPowerOf (s32 bg) 5 || isPowerOf (s32 bg) 7

/-! ## `ext4_create_fs_aux_info` -/

namespace FsInfo

variable (info : FsInfo)

/-- Block `0` holds the boot sector and the superblock unless blocks are too
small for both. -/
def firstDataBlock : ℕ := if info.blockSize > 1024 then 0 else 1

/-- The number of blocks before a last group is given up. -/
def rawLenBlocks : ℕ := info.len / info.blockSize

def inodeTableBlocks : ℕ :=
  divRoundUp32 (u32 (info.inodesPerGroup * info.inodeSize)) info.blockSize

/-- The number of groups before a last group is given up. -/
def rawGroups : ℕ :=
  u32 (divRoundUp64 (sub64 info.rawLenBlocks info.firstDataBlock) info.blocksPerGroup)

def bgDescBlocks : ℕ :=
  u32 (divRoundUp64 (info.rawGroups * sizeofGroupDesc) info.blockSize)

def lastGroupSize : ℕ := u32 (info.rawLenBlocks % info.blocksPerGroup)

def lastHeaderSize : ℕ :=
  let header := u32 (2 + info.inodeTableBlocks)
  if ext4BgHasSuperBlock info.featRoCompat (sub32 info.rawGroups 1) then
    u32 (header + (1 + info.bgDescBlocks + info.bgDescReserveBlocks))
  else header

/-- The last group is too small for its own header and is given up. -/
def DropsLastGroup : Prop :=
  0 < info.lastGroupSize ∧ info.lastGroupSize < info.lastHeaderSize

instance : Decidable info.DropsLastGroup := inferInstanceAs (Decidable (_ ∧ _))

end FsInfo

/-- `ext4_create_fs_aux_info`.  Both divisors come from the parameters. -/
def ext4CreateFsAuxInfo (info : FsInfo) : Option FsAuxInfo :=
  if info.blockSize = 0 ∨ info.blocksPerGroup = 0 then none
  else
    let blocksPerInd := info.blockSize / 4
    let blocksPerDind := u32 (blocksPerInd * blocksPerInd)
    some {
      firstDataBlock := info.firstDataBlock
      lenBlocks :=
        if info.DropsLastGroup then sub64 info.rawLenBlocks info.lastGroupSize
        else info.rawLenBlocks
      inodeTableBlocks := info.inodeTableBlocks
      groups := if info.DropsLastGroup then sub32 info.rawGroups 1 else info.rawGroups
      bgDescBlocks := info.bgDescBlocks
      defaultIFlags := EXT4_NOATIME_FL
      blocksPerInd := blocksPerInd
      blocksPerDind := blocksPerDind
      blocksPerTind := u32 (blocksPerDind * blocksPerDind) }

/-- Everything `ext4_create_fs_aux_info` computes, read off a successful call. -/
structure FsAuxInfo.Of (aux : FsAuxInfo) (info : FsInfo) : Prop where
  blockSize_pos : 0 < info.blockSize
  blocksPerGroup_pos : 0 < info.blocksPerGroup
  firstDataBlock : aux.firstDataBlock = info.firstDataBlock
  lenBlocks : aux.lenBlocks = if info.DropsLastGroup then
    sub64 info.rawLenBlocks info.lastGroupSize else info.rawLenBlocks
  inodeTableBlocks : aux.inodeTableBlocks = info.inodeTableBlocks
  groups : aux.groups = if info.DropsLastGroup then sub32 info.rawGroups 1 else info.rawGroups
  bgDescBlocks : aux.bgDescBlocks = info.bgDescBlocks
  defaultIFlags : aux.defaultIFlags = EXT4_NOATIME_FL
  blocksPerInd : aux.blocksPerInd = info.blockSize / 4

theorem FsAuxInfo.of_create {info : FsInfo} {aux : FsAuxInfo}
    (h : ext4CreateFsAuxInfo info = some aux) : aux.Of info := by
  unfold ext4CreateFsAuxInfo at h
  split at h
  · cases h
  · rename_i hpos
    cases h
    exact ⟨by omega, by omega, rfl, rfl, rfl, rfl, rfl, rfl, rfl⟩

theorem FsInfo.rawLenBlocks_lt (info : FsInfo) : info.rawLenBlocks < 2 ^ 63 :=
  (Nat.div_le_self _ _).trans_lt info.len_lt

theorem FsInfo.lastGroupSize_eq (info : FsInfo) (hpos : 0 < info.blocksPerGroup) :
    info.lastGroupSize = info.rawLenBlocks % info.blocksPerGroup :=
  u32_of_lt ((Nat.mod_lt _ hpos).trans info.blocksPerGroup_lt)

theorem FsInfo.sub_lastGroupSize (info : FsInfo) (hpos : 0 < info.blocksPerGroup) :
    sub64 info.rawLenBlocks info.lastGroupSize =
      info.rawLenBlocks - info.rawLenBlocks % info.blocksPerGroup := by
  have hlt := info.rawLenBlocks_lt
  rw [info.lastGroupSize_eq hpos]
  exact sub64_of_le (Nat.mod_le _ _) (by omega)

theorem FsInfo.firstDataBlock_le (info : FsInfo) : info.firstDataBlock ≤ 1 := by
  unfold FsInfo.firstDataBlock
  split <;> omega

end SystemExtras.Ext4
