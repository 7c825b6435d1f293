import SystemExtras.Lib.Bits
import SystemExtras.Lib.Device
import SystemExtras.Ext4.ExtentFormat
import SystemExtras.Ext4.SuperBlock

/-!
# The fixup of `inodes_per_group`

`ext4fixup` repairs filesystems whose `s_inodes_per_group` does not fill the last
block of an inode table.  It raises the number to the next multiple, which
changes the number of every inode behind the first group, and so it has to
rewrite all directories.  It does this in passes that can be taken up again
after a crash: a sanity check, a pass that sets bit 31 of every inode number in
a directory, a pass that replaces the marked numbers, and the update of the
superblocks and descriptors.  The pass in progress is noted in the first bytes
of the device.

The model covers a run with writing enabled and none of the debugging hooks.
What the tool reads is a function of the device; what it writes are the writes
of a `DevM` program.  Recursion into directories (and into extent trees) is
bounded by the depth `fuel` of the stack.
-/

namespace SystemExtras.Ext4

open DevM

/-! ## Constants and records -/

def INODE_BLOCK_SIZE : ℕ := 512
def MAX_EXT4_BLOCK_SIZE : ℕ := 4096
def EXT4_FT_UNKNOWN : ℕ := 0
def EXT4_FT_DIR : ℕ := 2
def MAGIC_STATE_MARKING_INUMS : ℕ := 0x7000151515565512
def MAGIC_STATE_UPDATING_INUMS : ℕ := 0x6121131211735123
def MAGIC_STATE_UPDATING_SB : ℕ := 0x15e1715151558477

/-- What `recurse_dir` does with the entries it finds. -/
inductive Mode where
  | sanityCheckPass
  | markInodeNums
  | updateInodeNums
  deriving DecidableEq, Repr

/-- The `STATE_*` variables. -/
inductive FixupState where
  | unset
  | markingInums
  | updatingInums
  | updatingSb
  deriving DecidableEq, Repr

namespace DirEntry

def inode : Field := ⟨0, 4⟩
def recLen : Field := ⟨4, 2⟩
def nameLen : Field := ⟨6, 1⟩
def fileType : Field := ⟨7, 1⟩

/-- Where `name` starts. -/
def nameOffset : ℕ := 8

end DirEntry

/-- The state word on the device. -/
def fixupMagic : Field := ⟨0, 8⟩

/-- The globals that a run fills in once and then only reads. -/
structure Fixup where
  info : FsInfo
  aux : FsAuxInfo
  /-- `aux_info.bg_desc`, an array of `block_size * bg_desc_blocks` bytes. -/
  bgDesc : Mem
  newInodesPerGroup : ℕ

namespace Fixup

variable (p : Fixup)

/-- A member of the descriptor of a group. -/
def descField (f : Field) (group : ℕ) : Field := f.at_ (sizeofGroupDesc * group)

/-- Whether the descriptor array has an entry for the group. -/
def HasDesc (group : ℕ) : Prop :=
  sizeofGroupDesc * (group + 1) ≤ p.info.blockSize * p.aux.bgDescBlocks

instance (group : ℕ) : Decidable (p.HasDesc group) := inferInstanceAs (Decidable (_ ≤ _))

/-- `compute_new_inum`. -/
def computeNewInum (oldInum : ℕ) : ℕ :=
  let group := sub32 oldInum 1 / p.info.inodesPerGroup
  let offset := sub32 oldInum 1 % p.info.inodesPerGroup
  u32 (group * p.newInodesPerGroup + offset + 1)

end Fixup

/-! ## Reading and writing the device -/

/-- `lseek64` refuses offsets that are negative as an `off64_t`. -/
def seekable (off : ℕ) : Prop := off < 2 ^ 63

instance (off : ℕ) : Decidable (seekable off) := inferInstanceAs (Decidable (_ < _))

/-- `read_sb`: the primary superblock. -/
def readSb (d : Device) : Except Stop Mem :=
  match d.read 1024 Sb.size with
  | some sb => .ok sb
  | none => .error (.criticalError "failed to read all of superblock")

/-- `write_sb`. -/
def writeSb (offset : ℕ) (sb : Mem) : DevM Stop Unit :=
  if seekable offset then DevM.write ⟨offset, Sb.size, sb⟩
  else DevM.fail (.criticalError "failed to seek to superblock")

/-- `get_fs_fixup_state`. -/
def getFsFixupState (d : Device) : Except Stop FixupState :=
  match d.read 0 8 with
  | none => .error (.criticalError "cannot read fixup_state\n")
  | some m =>
      let magic := fixupMagic.get m
      if magic = MAGIC_STATE_MARKING_INUMS then .ok .markingInums
      else if magic = MAGIC_STATE_UPDATING_INUMS then .ok .updatingInums
      else if magic = MAGIC_STATE_UPDATING_SB then .ok .updatingSb
      else .ok .unset

def FixupState.magic : FixupState → ℕ
  | .unset => 0
  | .markingInums => MAGIC_STATE_MARKING_INUMS
  | .updatingInums => MAGIC_STATE_UPDATING_INUMS
  | .updatingSb => MAGIC_STATE_UPDATING_SB

/-- The low bit of `s_desc_size` makes the filesystem unmountable while the
tool is at work. -/
def setUnmountable (state : FixupState) (sb : Mem) : Mem :=
  if state.magic ≠ 0 then Sb.descSize.set sb (Sb.descSize.get sb ||| 1)
  else Sb.descSize.set sb (Sb.descSize.get sb &&& 0xfffe)

/-- `set_fs_fixup_state`. -/
def setFsFixupState (state : FixupState) : DevM Stop Unit := do
  DevM.write ⟨0, 8, fixupMagic.set Mem.zero state.magic⟩
  let sb ← DevM.query readSb
  writeSb 1024 (setUnmountable state sb)

/-- `read_block`.  A block whose offset cannot be sought to is read from wherever
the file stands, which is taken as undefined. -/
def readBlock (p : Fixup) (blockNum : ℕ) (d : Device) : Except Stop Mem :=
  let off := u64 (blockNum * p.info.blockSize)
  if ¬ seekable off then .error .undefined
  else
    match d.read off p.info.blockSize with
    | some block => .ok block
    | none => .error (.criticalError "failed to read block %lld\n")

/-- `write_block`. -/
def writeBlock (p : Fixup) (noWrite : Bool) (blockNum : ℕ) (block : Mem) : DevM Stop Unit :=
  if noWrite then pure ()
  else
    let off := u64 (blockNum * p.info.blockSize)
    if seekable off then DevM.write ⟨off, p.info.blockSize, block⟩
    else DevM.fail (.criticalError "failed to seek to block %lld\n")

/-- A `read_block` into one of the tool's buffers of `MAX_EXT4_BLOCK_SIZE` bytes. -/
def readBlockBounded (p : Fixup) (blockNum : ℕ) (d : Device) : Except Stop Mem :=
  if MAX_EXT4_BLOCK_SIZE < p.info.blockSize then .error .undefined else readBlock p blockNum d

/-- Where the inode with the given number lies. -/
def inodeOffset (p : Fixup) (inum : ℕ) : ℕ :=
  let bgNum := sub32 inum 1 / p.info.inodesPerGroup
  let bgOffset := sub32 inum 1 % p.info.inodesPerGroup
  (Fixup.descField GroupDesc.bgInodeTable bgNum).get p.bgDesc * p.info.blockSize +
    u32 (bgOffset * p.info.inodeSize)

/-- `read_inode`. -/
def readInode (p : Fixup) (inum : ℕ) (d : Device) : Except Stop Mem :=
  if p.info.inodesPerGroup = 0 ∨ ¬ p.HasDesc (sub32 inum 1 / p.info.inodesPerGroup) then
    .error .undefined
  else if ¬ seekable (inodeOffset p inum) then
    .error (.criticalError "failed to seek to inode %d\n")
  else
    match d.read (inodeOffset p inum) sizeofInode with
    | some inode => .ok inode
    | none => .error (.criticalError "failed to read inode %d\n")

/-- `S_ISDIR(i_mode)`. -/
def isDirInode (inode : Mem) : Bool := Inode.iMode.get inode &&& 0xf000 = 0x4000

/-- `read_ext` and what `ext4fixup_internal` computes from it. -/
def readExt (d : Device) : Except Stop Fixup := do
  let sb ← readSb d
  let (info, aux) ← ext4ParseSb FsInfo.zero sb
  if info.featIncompat &&& EXT4_FEATURE_INCOMPAT_RECOVER ≠ 0 then
    .error (.criticalError "Filesystem needs recovery first, mount and unmount to do that\n")
  else if Sb.descSize.get sb &&& 0xfffe ≠ sizeofGroupDesc ∧ Sb.descSize.get sb &&& 0xfffe ≠ 0 then
    .error (.criticalError "error: bg_desc_size != sizeof(struct ext2_group_desc)\n")
  else if 2 ^ 31 ≤ info.blockSize * aux.bgDescBlocks then .error .undefined
  else
    match d.read (info.blockSize * (aux.firstDataBlock + 1))
        (info.blockSize * aux.bgDescBlocks) with
    | none => .error (.criticalError "failed to read all of block group descriptors")
    | some bgDesc =>
        if info.featIncompat &&& EXT4_FEATURE_INCOMPAT_FILETYPE = 0 then
          .error (.criticalError "Expected filesystem to have filetype flag set\n")
        else if info.inodeSize = 0 ∨ info.blockSize / info.inodeSize = 0 then .error .undefined
        else
          let perBlock := info.blockSize / info.inodeSize
          .ok ⟨info, aux, bgDesc, u32 (perBlock * divRoundUp32 info.inodesPerGroup perBlock)⟩

/-! ## Block lists -/

/-- `i_blocks_lo` in blocks of the filesystem. -/
def inodeBlocks (p : Fixup) (inode : Mem) : ℕ :=
  Inode.iBlocksLo.get inode / (p.info.blockSize / INODE_BLOCK_SIZE)

/-- The assignments of `get_direct_blocks`. -/
def getDirectBlocks (p : Fixup) (inode : Mem) : List (ℕ × ℕ) :=
  (List.range (min (inodeBlocks p inode) EXT4_NDIR_BLOCKS)).map fun i =>
    (i, (Inode.iBlock i).get inode)

/-- The assignments of `get_indirect_blocks`; it reads one indirect block. -/
def getIndirectBlocks (p : Fixup) (inode : Mem) (d : Device) : Except Stop (List (ℕ × ℕ)) := do
  let indirectBlock ← readBlock p ((Inode.iBlock EXT4_NDIR_BLOCKS).get inode) d
  let n := inodeBlocks p inode - EXT4_NDIR_BLOCKS
  if p.info.blockSize < 4 * n then .error .undefined
  else .ok ((List.range n).map fun i => (EXT4_NDIR_BLOCKS + i, indirectBlock.load (4 * i) 4))

/-- `get_block_list_indirect`. -/
def getBlockListIndirect (p : Fixup) (inode : Mem) (d : Device) : Except Stop (List (ℕ × ℕ)) :=
  if EXT4_NDIR_BLOCKS < inodeBlocks p inode then do
    let indirect ← getIndirectBlocks p inode d
    .ok (getDirectBlocks p inode ++ indirect)
  else .ok (getDirectBlocks p inode)

/-- The assignments that fill the `block_list` of a directory of `numBlocks` blocks. -/
def blockAssignments (p : Fixup) (fuel : ℕ) (inode : Mem) (numBlocks : ℕ) (d : Device) :
    Except Stop (List (ℕ × ℕ)) :=
  if Inode.iFlags.get inode &&& EXT4_EXTENTS_FL ≠ 0 then
    getBlockListExtents (fun b => readBlockBounded p b d) p.info.blockSize fuel inode 0
  else if p.info.blockSize / 4 + EXT4_NDIR_BLOCKS < numBlocks then
    .error (.criticalError "Non-extent based directory is too big!\n")
  else getBlockListIndirect p inode d

/-- An element of an array that was filled by assignments, the last of them
counting; one that was never assigned is indeterminate. -/
def assigned (assignments : List (ℕ × ℕ)) (i : ℕ) : Except Stop ℕ :=
  match assignments.reverse.find? fun a => a.1 = i with
  | some a => .ok a.2
  | none => .error .undefined

/-- The first `numBlocks` elements of `block_list`, an array with one element
more than that. -/
def blockList (p : Fixup) (fuel : ℕ) (inode : Mem) (numBlocks : ℕ) (d : Device) :
    Except Stop (List ℕ) := do
  let assignments ← blockAssignments p fuel inode numBlocks d
  if assignments.any fun a => numBlocks < a.1 then .error .undefined
  else (List.range numBlocks).mapM (assigned assignments)

/-! ## Directories -/

/-- Reads the blocks of a directory one behind the other. -/
def readBlocks (p : Fixup) (d : Device) : List ℕ → Except Stop Mem
  | [] => .ok Mem.zero
  | b :: rest => do
      let block ← readBlock p b d
      let behind ← readBlocks p d rest
      .ok fun i => if i < p.info.blockSize then block i else behind (i - p.info.blockSize)

/-- Writes the blocks of a directory back, `off` being where the first of them
starts in the buffer. -/
def writeBlocks (p : Fixup) (noWrite : Bool) (buf : Mem) : ℕ → List ℕ → DevM Stop Unit
  | _, [] => pure ()
  | off, b :: rest => do
      writeBlock p noWrite b fun i => buf (off + i)
      writeBlocks p noWrite buf (off + p.info.blockSize) rest

/-- An inode number with bit 31 set. -/
def Marked (inum : ℕ) : Prop := inum &&& 0x80000000 ≠ 0

instance (inum : ℕ) : Decidable (Marked inum) := inferInstanceAs (Decidable (_ ≠ _))

/-- `is_entry_dir`. -/
def isEntryDir (p : Fixup) (pass : Mode) (fileType inum : ℕ) (d : Device) : Except Stop Bool :=
  if fileType = EXT4_FT_DIR then .ok true
  else if fileType = EXT4_FT_UNKNOWN then
    if pass = .updateInodeNums ∧ ¬ Marked inum then .ok false
    else do
      let inode ← readInode p (inum &&& 0x7fffffff) d
      .ok (isDirInode inode)
  else .ok false

/-- `i_blocks_lo * INODE_BLOCK_SIZE` in 32 bits. -/
def dirSize (inode : Mem) : ℕ := u32 (Inode.iBlocksLo.get inode * INODE_BLOCK_SIZE)

/-- The part of the loop body that descends into an entry.  `tmp_dirsize` is an
`int`, and `malloc` fails on the huge size a negative one turns into. -/
def visitEntry (p : Fixup) (mode : Mode) (recurseDir : Mem → ℕ → DevM Stop Unit) (fileType : ℕ)
    (name : List UInt8) (inum : ℕ) : DevM Stop Unit := do
  let isDir ← DevM.query (isEntryDir p mode fileType inum)
  if isDir ∧ name ≠ [46] ∧ name ≠ [46, 46] ∧ (mode = .updateInodeNums → Marked inum) then do
    let inode ← DevM.query (readInode p (inum &&& 0x7fffffff))
    if ¬ isDirInode inode then
      DevM.fail (.criticalError "inode %d for name %s does not point to a directory\n")
    else if 2 ^ 31 ≤ dirSize inode then
      DevM.fail (.criticalError "failed to allocate memory for tmp_dirbuf\n")
    else recurseDir inode (dirSize inode)
  else pure ()

/-- What the loop body assigns to `dirp->inode`. -/
def processInum (p : Fixup) (mode : Mode) (inum : ℕ) : ℕ :=
  match mode with
  | .sanityCheckPass => inum
  | .markInodeNums => inum ||| 0x80000000
  | .updateInodeNums => if Marked inum then p.computeNewInum (inum &&& 0x7fffffff) else inum

/-- The name of the entry at `o`, as `strncpy` copies it out of a buffer of
`size` bytes; reading on past the buffer is undefined. -/
def entryName (buf : Mem) (size o : ℕ) : Except Stop (List UInt8) :=
  let nameLen := (DirEntry.nameLen.at_ o).get buf
  let inside := buf.bytes (o + DirEntry.nameOffset)
    (min nameLen (size - (o + DirEntry.nameOffset)))
  if inside.length < nameLen ∧ 0 ∉ inside then .error .undefined
  else .ok (inside.takeWhile (· ≠ 0))

/-- The `while` loop of `recurse_dir` over a buffer of `size` bytes, `o` being
`dirp` and `prev` being `prev_dirp`.  It returns the changed buffer.  A `rec_len`
of zero is the only way not to come to an end, and it is found out after `size`
rounds. -/
def walk (p : Fixup) (mode : Mode) (recurseDir : Mem → ℕ → DevM Stop Unit) (size : ℕ) :
    ℕ → Mem → ℕ → Option ℕ → DevM Stop Mem
  | 0, _, _, _ => DevM.fail .hang
  | fuel + 1, buf, o, prev =>
      if size ≤ o then pure buf
      else
        match prev, decide (mode ≠ .markInodeNums ∧ size - o ≤ 8) with
        | some q, true =>
            -- an older make_ext4fs left the rest of the block out of the last record
            pure ((DirEntry.recLen.at_ q).set buf
              ((DirEntry.recLen.at_ q).get buf + (size - o)))
        | _, _ =>
            if size < o + 4 then DevM.fail .undefined
            else if (DirEntry.inode.at_ o).get buf = 0 then pure buf
            else if size < o + DirEntry.nameOffset then DevM.fail .undefined
            else do
              let name ← DevM.query fun _ => entryName buf size o
              let inum := (DirEntry.inode.at_ o).get buf
              visitEntry p mode recurseDir ((DirEntry.fileType.at_ o).get buf) name inum
              walk p mode recurseDir size fuel
                ((DirEntry.inode.at_ o).set buf (processInum p mode inum))
                (o + (DirEntry.recLen.at_ o).get buf) (some o)

/-- `recurse_dir`.  `no_write` is set during the sanity check only. -/
def recurseDir (p : Fixup) (mode : Mode) : ℕ → Mem → ℕ → DevM Stop Unit
  | 0, _, _ => DevM.fail .hang
  | fuel + 1, inode, size =>
      if size % p.info.blockSize ≠ 0 then
        DevM.fail (.criticalError
          "dirsize %d not a multiple of block_size %d.  This is unexpected!\n")
      else do
        let blocks ← DevM.query (blockList p (fuel + 1) inode (size / p.info.blockSize))
        let buf ← DevM.query fun d => readBlocks p d blocks
        -- `dirbuf + dirsize` points outside the buffer when the `int` is negative
        if 2 ^ 31 ≤ size then DevM.fail .undefined
        else do
          let buf ← walk p mode (recurseDir p mode fuel) size (size + 1) buf 0 none
          writeBlocks p (mode = .sanityCheckPass) buf 0 blocks

/-! ## Superblocks and descriptors -/

/-- The loop of `check_inode_bitmap`: the map with the bits cleared, and whether
one of them was set. -/
def clearBits (block : Mem) (bits : List ℕ) : Mem × Bool :=
  bits.foldl (fun b i => if b.1.bit i then (b.1.andNotBit i, true) else b) (block, false)

/-- `check_inode_bitmap`.  Its loop counts with an `int`. -/
def checkInodeBitmap (p : Fixup) (noWrite : Bool) (bgNum : ℕ) : DevM Stop Unit :=
  if ¬ p.HasDesc bgNum then DevM.fail .undefined
  else do
    let blockNum := (Fixup.descField GroupDesc.bgInodeBitmap bgNum).get p.bgDesc
    let block ← DevM.query (readBlockBounded p blockNum)
    if s32 p.newInodesPerGroup ≤ s32 p.info.inodesPerGroup then pure ()
    else if s32 p.info.inodesPerGroup < 0 ∨ 8 * p.info.blockSize < p.newInodesPerGroup then
      DevM.fail .undefined
    else
      let cleared := clearBits block (List.range' p.info.inodesPerGroup
        (p.newInodesPerGroup - p.info.inodesPerGroup))
      if cleared.2 then writeBlock p noWrite blockNum cleared.1 else pure ()

/-- `check_inode_bitmap` for every group. -/
def checkInodeBitmaps (p : Fixup) (noWrite : Bool) : List ℕ → DevM Stop Unit
  | [] => pure ()
  | i :: rest => do
      checkInodeBitmap p noWrite i
      checkInodeBitmaps p noWrite rest

/-- The members of the descriptors that the first loop of
`update_superblocks_and_bg_desc` raises. -/
def raiseFreeInodes (bgDesc : Mem) (delta : ℕ) (groups : ℕ) : Mem :=
  bgDesc.assign ((List.range groups).map fun i =>
    (Fixup.descField GroupDesc.bgFreeInodesCount i,
      (Fixup.descField GroupDesc.bgFreeInodesCount i).get bgDesc + delta))

/-- Where the superblock of a group is written. -/
def sbOffset (p : Fixup) (i : ℕ) : ℕ :=
  u64 (u64 (i * p.info.blocksPerGroup * p.info.blockSize) + if i = 0 then 1024 else 0)

/-- Where the descriptors of a group are written. -/
def descOffset (p : Fixup) (i : ℕ) : ℕ :=
  u64 (u64 (i * p.info.blocksPerGroup * p.info.blockSize) +
    p.info.blockSize * (p.aux.firstDataBlock + 1))

/-- The superblock written for group `i`. -/
def copyOfSb (sb : Mem) (i : ℕ) : Mem :=
  let sb := Sb.blockGroupNr.set sb i
  if i ≠ 0 then Sb.descSize.set sb (Sb.descSize.get sb &&& 0xfffe) else sb

/-- The last loop of `update_superblocks_and_bg_desc`. -/
def writeCopies (p : Fixup) (noWrite : Bool) (bgDesc : Mem) : Mem → List ℕ → DevM Stop Unit
  | _, [] => pure ()
  | sb, i :: rest =>
      if ext4BgHasSuperBlock p.info.featRoCompat i then do
        if noWrite then pure () else writeSb (sbOffset p i) (copyOfSb sb i)
        if ¬ seekable (descOffset p i) then
          DevM.fail (.criticalError "failed to seek to block group descriptors")
        else do
          if noWrite then pure ()
          else DevM.write ⟨descOffset p i, p.info.blockSize * p.aux.bgDescBlocks, bgDesc⟩
          writeCopies p noWrite bgDesc (copyOfSb sb i) rest
      else writeCopies p noWrite bgDesc sb rest

/-- `num_block_groups`. -/
def Fixup.numBlockGroups (p : Fixup) : ℕ :=
  u32 (divRoundUp64 p.aux.lenBlocks p.info.blocksPerGroup)

/-- What is added to the inode count of every group. -/
def Fixup.delta (p : Fixup) (sb : Mem) : ℕ := sub32 p.newInodesPerGroup (Sb.inodesPerGroup.get sb)

/-- The superblock with the new counts. -/
def newSb (p : Fixup) (sb : Mem) : Mem :=
  let total := u32 (p.numBlockGroups * p.delta sb)
  sb.assign [(Sb.inodesCount, Sb.inodesCount.get sb + total),
    (Sb.freeInodesCount, Sb.freeInodesCount.get sb + total),
    (Sb.inodesPerGroup, p.newInodesPerGroup)]

/-- `update_superblocks_and_bg_desc`.  The sanity check calls it with
`STATE_UNSET` and `no_write` set. -/
def updateSuperblocksAndBgDesc (p : Fixup) (state : FixupState) (noWrite : Bool) :
    DevM Stop Unit := do
  let sb ← DevM.query readSb
  let bgDesc := if state = .updatingSb then raiseFreeInodes p.bgDesc (p.delta sb) p.numBlockGroups
    else p.bgDesc
  checkInodeBitmaps p noWrite (List.range p.numBlockGroups)
  if u32 (Sb.inodesCount.get sb + u32 (p.numBlockGroups * p.delta sb)) ≠
      u32 (p.newInodesPerGroup * p.numBlockGroups) then
    DevM.fail (.criticalError "Failed sanity check on new inode count\n")
  else if p.newInodesPerGroup % (p.info.blockSize / p.info.inodeSize) ≠ 0 then
    DevM.fail (.criticalError "Failed sanity check on new inode per group alignment\n")
  else writeCopies p noWrite bgDesc (newSb p sb) (List.range p.aux.groups)

/-! ## The whole run -/

/-- Runs a stage if the device is in the given state. -/
def inState (state : FixupState) (stage : DevM Stop Unit) : DevM Stop Unit := do
  let now ← DevM.query getFsFixupState
  if now = state then stage else pure ()

/-- The stages that work on directories: sanity check, marking, renumbering. -/
def directoryStages (p : Fixup) (fuel : ℕ) (root : Mem) : DevM Stop Unit := do
  inState .unset do
    recurseDir p .sanityCheckPass fuel root (dirSize root)
    updateSuperblocksAndBgDesc p .unset true
    setFsFixupState .markingInums
  inState .markingInums do
    recurseDir p .markInodeNums fuel root (dirSize root)
    setFsFixupState .updatingInums
  inState .updatingInums do
    recurseDir p .updateInodeNums fuel root (dirSize root)
    setFsFixupState .updatingSb

/-- The stage that updates superblocks and descriptors. -/
def superblockStage (p : Fixup) : DevM Stop Unit :=
  inState .updatingSb do
    updateSuperblocksAndBgDesc p .updatingSb false
    setFsFixupState .unset

/-- `ext4fixup_internal`, which returns `0` where this returns. -/
def ext4fixupInternal (fuel : ℕ) : DevM Stop Unit := do
  let p ← DevM.query readExt
  let root ← DevM.query (readInode p EXT4_ROOT_INO)
  if ¬ isDirInode root then
    DevM.fail (.criticalError "root inode %d does not point to a directory\n")
  else do
    directoryStages p fuel root
    superblockStage p

end SystemExtras.Ext4
