import SystemExtras.Ext4.Fixup
import Mathlib.Order.CompletePartialOrder

/-!
# Images that the fixup can work on

A `DirTree` says where the directories of an image are: their inode numbers, the
blocks of each, the records in these blocks, and a depth that falls from a
directory to the directories it holds.  `FixupImage p T d` says that the device
`d` really has these directories and that the parts of the filesystem lie apart
from each other: the state word, the copies of superblock and descriptors, the
inode bitmaps, the directory blocks, and what the tool reads to find its way
(inodes, and the blocks that map a directory).

What the tool reads of a directory depends on few bytes: `readBlocks_eq` gives the
contents of its blocks, and `blockAssignments_congr` says that its block list is
a matter of the first bytes of the inode and of the blocks that map it.

At the end stands a small image, a filesystem with two groups and a directory in each.
-/

namespace SystemExtras.Ext4

/-- The directories of an image. -/
structure DirTree where
  /-- Inode numbers of the directories. -/
  dirs : List ℕ
  /-- The data blocks of a directory, in order. -/
  blocks : ℕ → List ℕ
  /-- Where the records of a directory start, counted over its blocks. -/
  records : ℕ → List ℕ
  /-- Falls from a directory to its subdirectories. -/
  depth : ℕ → ℕ

/-- The contents of the given blocks, one behind the other. -/
def dirBuf (p : Fixup) (d : Device) (blocks : List ℕ) : Mem := fun i =>
  if i < p.info.blockSize * blocks.length then
    d.bytes (blocks.getD (i / p.info.blockSize) 0 * p.info.blockSize + i % p.info.blockSize)
  else 0

/-- The inode number in the record at `r`. -/
def recInum (buf : Mem) (r : ℕ) : ℕ := (DirEntry.inode.at_ r).get buf

/-- The length of the record at `r`. -/
def recLength (buf : Mem) (r : ℕ) : ℕ := (DirEntry.recLen.at_ r).get buf

/-- The name in the record at `r`, up to a null byte. -/
def recName (buf : Mem) (r : ℕ) : List UInt8 :=
  (buf.bytes (r + DirEntry.nameOffset) ((DirEntry.nameLen.at_ r).get buf)).takeWhile (· ≠ 0)

/-- The file type in the record at `r`. -/
def recFileType (buf : Mem) (r : ℕ) : ℕ := (DirEntry.fileType.at_ r).get buf

/-- A record that lies in one block and has room for its name. -/
structure RecordOk (buf : Mem) (blockSize r : ℕ) : Prop where
  minLength : 12 ≤ recLength buf r
  name : DirEntry.nameOffset + (DirEntry.nameLen.at_ r).get buf ≤ recLength buf r
  inBlock : r % blockSize + recLength buf r ≤ blockSize

/-- The records tile the bytes from `o` up to `size`. -/
def Tiles (buf : Mem) (blockSize size : ℕ) : ℕ → List ℕ → Prop
  | o, [] => o = size
  | o, r :: rest =>
      r = o ∧ RecordOk buf blockSize r ∧ Tiles buf blockSize size (r + recLength buf r) rest

instance (buf : Mem) (blockSize r : ℕ) : Decidable (RecordOk buf blockSize r) :=
  decidable_of_iff
    (12 ≤ recLength buf r ∧ DirEntry.nameOffset + (DirEntry.nameLen.at_ r).get buf ≤ recLength buf r ∧
      r % blockSize + recLength buf r ≤ blockSize)
    ⟨fun h => ⟨h.1, h.2.1, h.2.2⟩, fun h => ⟨h.minLength, h.name, h.inBlock⟩⟩

def Tiles.decide (buf : Mem) (blockSize size : ℕ) :
    (o : ℕ) → (rs : List ℕ) → Decidable (Tiles buf blockSize size o rs)
  | o, [] => inferInstanceAs (Decidable (o = size))
  | o, r :: rest =>
      have := Tiles.decide buf blockSize size (r + recLength buf r) rest
      inferInstanceAs (Decidable (r = o ∧ RecordOk buf blockSize r ∧
        Tiles buf blockSize size (r + recLength buf r) rest))

instance (buf : Mem) (blockSize size o : ℕ) (rs : List ℕ) :
    Decidable (Tiles buf blockSize size o rs) := Tiles.decide buf blockSize size o rs

/-- The blocks that are read to find the data blocks of an inode. -/
def mapBlocks (p : Fixup) (inode : Mem) : List ℕ :=
  if Inode.iFlags.get inode &&& EXT4_EXTENTS_FL ≠ 0 then
    if (ExtentHeader.ehDepth.at_ Inode.iBlockOffset).get inode = 0 then []
    else
      let idx := Inode.iBlockOffset + sizeofExtent
      [(ExtentIdx.eiLeafHi.at_ idx).get inode * 2 ^ 32 + (ExtentIdx.eiLeafLo.at_ idx).get inode]
  else if EXT4_NDIR_BLOCKS < inodeBlocks p inode then [(Inode.iBlock EXT4_NDIR_BLOCKS).get inode]
  else []

/-- The extent tree of an inode, if it has one, is the node in the inode or one
index entry there and one leaf. -/
def ShallowExtents (p : Fixup) (inode : Mem) (d : Device) : Prop :=
  Inode.iFlags.get inode &&& EXT4_EXTENTS_FL ≠ 0 →
    (ExtentHeader.ehDepth.at_ Inode.iBlockOffset).get inode = 0 ∧
      (ExtentHeader.ehEntries.at_ Inode.iBlockOffset).get inode ≤ 4 ∨
    (ExtentHeader.ehDepth.at_ Inode.iBlockOffset).get inode = 1 ∧
      (ExtentHeader.ehEntries.at_ Inode.iBlockOffset).get inode = 1 ∧
      ∀ b ∈ mapBlocks p inode, (ExtentHeader.ehDepth.at_ 0).get
        (d.slice (b * p.info.blockSize) p.info.blockSize) = 0

/-- The inode of a directory with the given blocks. -/
structure DirInode (p : Fixup) (blocks : List ℕ) (inode : Mem) (d : Device) : Prop where
  isDir : isDirInode inode = true
  /-- `i_blocks_lo` counts the data blocks, in units of 512 bytes. -/
  blocksLo : Inode.iBlocksLo.get inode * INODE_BLOCK_SIZE = p.info.blockSize * blocks.length
  /-- The size fits the `int` it is kept in. -/
  size_lt : p.info.blockSize * blocks.length < 2 ^ 31
  shallow : ShallowExtents p inode d
  mapBlocks_le : ∀ b ∈ mapBlocks p inode, b * p.info.blockSize + p.info.blockSize ≤ d.size
  blockList : blockList p 1 inode blocks.length d = .ok blocks

namespace Fixup

variable (p : Fixup)

/-- The number an inode gets, without wrapping. -/
def newInum (v : ℕ) : ℕ :=
  (v - 1) / p.info.inodesPerGroup * p.newInodesPerGroup + (v - 1) % p.info.inodesPerGroup + 1

end Fixup

/-- An entry of a directory: its number is one of an inode of the filesystem, its
type is right or unknown, and if it is a directory, it is one of the tree. -/
structure EntryOk (p : Fixup) (T : DirTree) (n inum fileType : ℕ) (name : List UInt8)
    (d : Device) : Prop where
  inum_lt : inum < 2 ^ 31
  newInum_lt : p.newInum inum < 2 ^ 31
  inode : ∃ inode, readInode p inum d = .ok inode ∧
    (fileType = EXT4_FT_UNKNOWN ∨ (fileType = EXT4_FT_DIR ↔ isDirInode inode = true)) ∧
    (isDirInode inode = true → inum ∈ T.dirs ∧
      (name ≠ [46] → name ≠ [46, 46] → T.depth inum < T.depth n))

/-! ## Where things lie -/

/-- The bytes of a block. -/
def blockBytes (p : Fixup) (b : ℕ) : Set ℕ :=
  Set.Ico (b * p.info.blockSize) (b * p.info.blockSize + p.info.blockSize)

/-- The state word. -/
def stateBytes : Set ℕ := Set.Iio 8

/-- The primary superblock. -/
def primarySbBytes : Set ℕ := Set.Ico 1024 2048

/-- The group has a copy of the superblock and the descriptors. -/
def HasCopy (p : Fixup) (i : ℕ) : Prop :=
  i < p.aux.groups ∧ ext4BgHasSuperBlock p.info.featRoCompat i = true

/-- The number of bytes of the descriptors. -/
def Fixup.descLen (p : Fixup) : ℕ := p.info.blockSize * p.aux.bgDescBlocks

/-- The copies of the superblock and the descriptors. -/
def copyBytes (p : Fixup) : Set ℕ :=
  {x | ∃ i, HasCopy p i ∧ (x ∈ Set.Ico (sbOffset p i) (sbOffset p i + Sb.size) ∨
    x ∈ Set.Ico (descOffset p i) (descOffset p i + p.descLen))}

/-- The inode bitmaps. -/
def bitmapBytes (p : Fixup) : Set ℕ :=
  {x | ∃ i < p.numBlockGroups,
    x ∈ blockBytes p ((Fixup.descField GroupDesc.bgInodeBitmap i).get p.bgDesc)}

namespace DirTree

variable (T : DirTree)

/-- The contents of a directory. -/
def buf (p : Fixup) (d : Device) (n : ℕ) : Mem := dirBuf p d (T.blocks n)

/-- The size of a directory. -/
def size (p : Fixup) (n : ℕ) : ℕ := p.info.blockSize * (T.blocks n).length

/-- The directory blocks. -/
def bytes (p : Fixup) : Set ℕ := {x | ∃ n ∈ T.dirs, ∃ b ∈ T.blocks n, x ∈ blockBytes p b}

/-- The records of a directory that are in use. -/
def live (p : Fixup) (d : Device) (n : ℕ) : List ℕ :=
  (T.records n).filter fun r => recInum (T.buf p d n) r ≠ 0

/-- The record leads into a subdirectory. -/
def Enters (p : Fixup) (d : Device) (n r : ℕ) : Prop :=
  r ∈ T.live p d n ∧ recInum (T.buf p d n) r ∈ T.dirs ∧
    recName (T.buf p d n) r ≠ [46] ∧ recName (T.buf p d n) r ≠ [46, 46]

/-- `m` is a subdirectory of `n`. -/
def IsSub (p : Fixup) (d : Device) (n m : ℕ) : Prop :=
  ∃ r, T.Enters p d n r ∧ recInum (T.buf p d n) r = m

/-- The inode numbers that the image refers to. -/
def Refers (p : Fixup) (d : Device) (v : ℕ) : Prop :=
  v ∈ T.dirs ∨ ∃ n ∈ T.dirs, ∃ r ∈ T.live p d n, v = recInum (T.buf p d n) r

/-- What is read of an inode. -/
def inodeBytes : ℕ := 100

/-- What the tool reads to find its way: inodes, and the blocks that map directories. -/
def navBytes (p : Fixup) (d : Device) : Set ℕ :=
  {x | (∃ v, T.Refers p d v ∧ x ∈ Set.Ico (inodeOffset p v) (inodeOffset p v + inodeBytes)) ∨
    ∃ n ∈ T.dirs, ∃ inode, readInode p n d = .ok inode ∧
      ∃ b ∈ mapBlocks p inode, x ∈ blockBytes p b}

end DirTree

/-- The copies of superblock and descriptors, the inode bitmaps and the state word
lie apart from each other. -/
structure CopiesApart (p : Fixup) : Prop where
  copies_state : Disjoint (copyBytes p) stateBytes
  copies_bitmaps : Disjoint (copyBytes p) (bitmapBytes p)
  bitmaps_state : Disjoint (bitmapBytes p) stateBytes
  sb_sb : ∀ i j, HasCopy p i → HasCopy p j → i ≠ j →
    sbOffset p i + Sb.size ≤ sbOffset p j ∨ sbOffset p j + Sb.size ≤ sbOffset p i
  sb_desc : ∀ i j, HasCopy p i → HasCopy p j →
    sbOffset p i + Sb.size ≤ descOffset p j ∨ descOffset p j + p.descLen ≤ sbOffset p i
  desc_desc : ∀ i j, HasCopy p i → HasCopy p j → i ≠ j →
    descOffset p i + p.descLen ≤ descOffset p j ∨ descOffset p j + p.descLen ≤ descOffset p i

/-- A device that holds the directories of the tree. -/
structure FixupImage (p : Fixup) (T : DirTree) (d : Device) : Prop where
  readExt : readExt d = .ok p
  size_lt : d.size < 2 ^ 63
  groups_pos : 0 < p.aux.groups
  blockSize_le : p.info.blockSize ≤ MAX_EXT4_BLOCK_SIZE
  root_mem : EXT4_ROOT_INO ∈ T.dirs
  /-- The directories form a tree under the root. -/
  reachable : ∀ n ∈ T.dirs, Relation.ReflTransGen (T.IsSub p d) EXT4_ROOT_INO n
  inode : ∀ n ∈ T.dirs, ∃ inode, readInode p n d = .ok inode ∧ DirInode p (T.blocks n) inode d
  blocks_nodup : (T.dirs.flatMap T.blocks).Nodup
  blocks_le : ∀ n ∈ T.dirs, ∀ b ∈ T.blocks n, b * p.info.blockSize + p.info.blockSize ≤ d.size
  tiles : ∀ n ∈ T.dirs, Tiles (T.buf p d n) p.info.blockSize (T.size p n) 0 (T.records n)
  /-- No live entry follows one with inode number 0. -/
  live_first : ∀ n ∈ T.dirs, (T.records n).Pairwise fun r r' =>
    recInum (T.buf p d n) r = 0 → recInum (T.buf p d n) r' = 0
  entry : ∀ n ∈ T.dirs, ∀ r ∈ T.live p d n,
    EntryOk p T n (recInum (T.buf p d n) r) (recFileType (T.buf p d n) r) (recName (T.buf p d n) r) d
  copies : CopiesApart p
  copies_le : ∀ i, HasCopy p i → sbOffset p i + Sb.size ≤ d.size ∧
    descOffset p i + p.descLen ≤ d.size
  dirs_state : Disjoint (T.bytes p) stateBytes
  dirs_copies : Disjoint (T.bytes p) (copyBytes p)
  dirs_bitmaps : Disjoint (T.bytes p) (bitmapBytes p)
  dirs_nav : Disjoint (T.bytes p) (T.navBytes p d)
  nav_state : Disjoint (T.navBytes p d) stateBytes
  nav_copies : Disjoint (T.navBytes p d) (copyBytes p)
  nav_bitmaps : Disjoint (T.navBytes p d) (bitmapBytes p)

/-- A device whose directories can be read.  Records that are not in use may stand
anywhere between the others. -/
structure DirImage (p : Fixup) (T : DirTree) (d : Device) : Prop where
  readExt : Ext4.readExt d = .ok p
  size_lt : d.size < 2 ^ 63
  root_mem : EXT4_ROOT_INO ∈ T.dirs
  reachable : ∀ n ∈ T.dirs, Relation.ReflTransGen (T.IsSub p d) EXT4_ROOT_INO n
  inode : ∀ n ∈ T.dirs, ∃ inode, readInode p n d = .ok inode ∧ DirInode p (T.blocks n) inode d
  blocks_nodup : (T.dirs.flatMap T.blocks).Nodup
  blocks_le : ∀ n ∈ T.dirs, ∀ b ∈ T.blocks n, b * p.info.blockSize + p.info.blockSize ≤ d.size
  tiles : ∀ n ∈ T.dirs, Tiles (T.buf p d n) p.info.blockSize (T.size p n) 0 (T.records n)
  entry : ∀ n ∈ T.dirs, ∀ r ∈ T.live p d n,
    EntryOk p T n (recInum (T.buf p d n) r) (recFileType (T.buf p d n) r) (recName (T.buf p d n) r) d
  dirs_nav : Disjoint (T.bytes p) (T.navBytes p d)

theorem FixupImage.dirImage {p : Fixup} {T : DirTree} {d : Device} (h : FixupImage p T d) :
    DirImage p T d :=
  ⟨h.readExt, h.size_lt, h.root_mem, h.reachable, h.inode, h.blocks_nodup, h.blocks_le, h.tiles,
    h.entry, h.dirs_nav⟩

instance {p : Fixup} {T : DirTree} {d : Device} : Coe (FixupImage p T d) (DirImage p T d) :=
  ⟨FixupImage.dirImage⟩

/-! ## Reading the parameters -/

/-- Everything that `read_ext` has seen and computed when it returns. -/
structure ReadExt (d : Device) (p : Fixup) : Prop where
  sb_le : 1024 + Sb.size ≤ d.size
  parse : ext4ParseSb FsInfo.zero (d.slice 1024 Sb.size) = .ok (p.info, p.aux)
  noRecover : p.info.featIncompat &&& EXT4_FEATURE_INCOMPAT_RECOVER = 0
  descSize : Sb.descSize.get (d.slice 1024 Sb.size) &&& 0xfffe = sizeofGroupDesc ∨
    Sb.descSize.get (d.slice 1024 Sb.size) &&& 0xfffe = 0
  descLen_lt : p.descLen < 2 ^ 31
  desc_le : p.info.blockSize * (p.aux.firstDataBlock + 1) + p.descLen ≤ d.size
  bgDesc : p.bgDesc = d.slice (p.info.blockSize * (p.aux.firstDataBlock + 1)) p.descLen
  filetype : p.info.featIncompat &&& EXT4_FEATURE_INCOMPAT_FILETYPE ≠ 0
  inodeSize_pos : 0 < p.info.inodeSize
  perBlock_pos : 0 < p.info.blockSize / p.info.inodeSize
  newInodesPerGroup : p.newInodesPerGroup = u32 (p.info.blockSize / p.info.inodeSize *
    divRoundUp32 p.info.inodesPerGroup (p.info.blockSize / p.info.inodeSize))

theorem readExt_eq_ok {d : Device} {p : Fixup} : readExt d = .ok p ↔ ReadExt d p := by
  constructor
  · intro h
    unfold readExt at h
    rw [bind_eq_ok] at h
    obtain ⟨sb, hsb, h⟩ := h
    rw [bind_eq_ok] at h
    obtain ⟨⟨info, aux⟩, hparse, h⟩ := h
    unfold readSb Device.read at hsb
    split at hsb
    · rename_i sb' hread
      cases hsb
      split at hread
      · rename_i hle
        cases hread
        simp only at h
        split at h
        · cases h
        split at h
        · cases h
        split at h
        · cases h
        unfold Device.read at h
        split at h
        · cases h
        rename_i hrec hdesc hlen _ bgDesc hread
        split at h
        · cases h
        split at h
        · cases h
        rename_i hft hpb
        split at hread
        · rename_i hdle
          cases hread
          cases h
          exact ⟨hle, hparse, not_not.mp hrec, by tauto, not_le.mp hlen, hdle, rfl, hft,
            Nat.pos_of_ne_zero fun h => hpb (Or.inl h),
            Nat.pos_of_ne_zero fun h => hpb (Or.inr h), rfl⟩
        · cases hread
      · cases hread
    · cases hsb
  · intro h
    obtain ⟨hle, hparse, hrec, hdesc, hlen, hdle, hbg, hft, hisz, hpb, hnew⟩ := h
    have hsb : readSb d = .ok (d.slice 1024 Sb.size) := by
      unfold readSb
      rw [Device.read_of_le hle]
    have hdesc : ¬ (Sb.descSize.get (d.slice 1024 Sb.size) &&& 0xfffe ≠ sizeofGroupDesc ∧
        Sb.descSize.get (d.slice 1024 Sb.size) &&& 0xfffe ≠ 0) := by tauto
    have hlen : ¬ 2 ^ 31 ≤ p.info.blockSize * p.aux.bgDescBlocks := not_le.mpr hlen
    have hpb : ¬ (p.info.inodeSize = 0 ∨ p.info.blockSize / p.info.inodeSize = 0) := by omega
    have hread : d.read (p.info.blockSize * (p.aux.firstDataBlock + 1))
        (p.info.blockSize * p.aux.bgDescBlocks) = some p.bgDesc := by
      rw [hbg]
      exact Device.read_of_le hdle
    unfold readExt
    rw [hsb, bind_ok, hparse, bind_ok]
    simp only [hrec, ne_eq, not_true_eq_false, if_false, if_neg hdesc, if_neg hlen, hread,
      if_neg hft, if_neg hpb, ← hnew]

/-! ## Reading blocks and block lists -/

section Reading

variable {p : Fixup} {d d' : Device}

theorem readInode_eq_ok {v : ℕ} {inode : Mem} : readInode p v d = .ok inode ↔
    p.info.inodesPerGroup ≠ 0 ∧ p.HasDesc (sub32 v 1 / p.info.inodesPerGroup) ∧
      seekable (inodeOffset p v) ∧ inodeOffset p v + sizeofInode ≤ d.size ∧
      inode = d.slice (inodeOffset p v) sizeofInode := by
  unfold readInode
  by_cases h₁ : p.info.inodesPerGroup = 0 ∨ ¬ p.HasDesc (sub32 v 1 / p.info.inodesPerGroup)
  · rw [if_pos h₁]
    constructor
    · intro h
      cases h
    · rintro ⟨hipg, hdesc, -⟩
      exact absurd h₁ (by tauto)
  rw [if_neg h₁]
  by_cases h₂ : seekable (inodeOffset p v)
  · rw [if_neg (not_not.mpr h₂)]
    by_cases h₃ : inodeOffset p v + sizeofInode ≤ d.size
    · rw [Device.read_of_le h₃]
      simp only [Except.ok.injEq]
      constructor
      · rintro rfl
        exact ⟨fun h => h₁ (Or.inl h), not_not.mp fun h => h₁ (Or.inr h), h₂, h₃, rfl⟩
      · rintro ⟨-, -, -, -, rfl⟩
        rfl
    · rw [Device.read_of_not_le h₃]
      constructor
      · intro h
        cases h
      · rintro ⟨-, -, -, h, -⟩
        exact absurd h h₃
  · rw [if_pos h₂]
    constructor
    · intro h
      cases h
    · rintro ⟨-, -, h, -⟩
      exact absurd h h₂

/-- A block inside the device can be read. -/
theorem readBlock_eq {b : ℕ} (hsize : d.size < 2 ^ 63)
    (hle : b * p.info.blockSize + p.info.blockSize ≤ d.size) :
    readBlock p b d = .ok (d.slice (b * p.info.blockSize) p.info.blockSize) := by
  have hoff : u64 (b * p.info.blockSize) = b * p.info.blockSize := u64_of_lt (by omega)
  have hseek : seekable (b * p.info.blockSize) := show _ < _ by omega
  unfold readBlock
  simp only [hoff, hseek, not_true_eq_false, if_false, Device.read_of_le hle]

theorem readBlocks_eq (hpos : 0 < p.info.blockSize) (hsize : d.size < 2 ^ 63) :
    ∀ {blocks : List ℕ}, (∀ b ∈ blocks, b * p.info.blockSize + p.info.blockSize ≤ d.size) →
      readBlocks p d blocks = .ok (dirBuf p d blocks) := by
  intro blocks
  induction blocks with
  | nil =>
      intro _
      have : dirBuf p d [] = Mem.zero := by
        funext i
        simp [dirBuf, Mem.zero]
      rw [this]
      rfl
  | cons b rest ih =>
      intro hle
      unfold readBlocks
      rw [readBlock_eq hsize (hle b List.mem_cons_self),
        ih fun c hc => hle c (List.mem_cons_of_mem _ hc)]
      simp only [bind_ok]
      congr 1
      funext i
      unfold dirBuf Device.slice
      rw [List.length_cons, Nat.mul_succ]
      by_cases hi : i < p.info.blockSize
      · have hin : i < p.info.blockSize * rest.length + p.info.blockSize := by omega
        simp [hi, hin, Nat.div_eq_of_lt hi, Nat.mod_eq_of_lt hi]
      · obtain ⟨k, rfl⟩ : ∃ k, i = k + p.info.blockSize := ⟨i - p.info.blockSize, by omega⟩
        simp only [if_neg hi, Nat.add_sub_cancel, Nat.add_lt_add_iff_right,
          Nat.add_div_right k hpos, Nat.add_mod_right, List.getD_cons_succ]

theorem readBlock_congr {b : ℕ} (hd : d.size = d'.size) (hsize : d.size < 2 ^ 63)
    (hle : b * p.info.blockSize + p.info.blockSize ≤ d.size)
    (h : d.bytes.SameOn d'.bytes (b * p.info.blockSize)
      (b * p.info.blockSize + p.info.blockSize)) :
    readBlock p b d = readBlock p b d' := by
  rw [readBlock_eq hsize hle, readBlock_eq (hd ▸ hsize) (hd ▸ hle), Device.slice_congr h]

/-- Two inodes whose first bytes agree have the same block list, if the blocks
that map them agree as well. -/
theorem blockAssignments_congr {inode inode' : Mem} (hin : inode'.SameOn inode 0 DirTree.inodeBytes)
    (hshallow : ShallowExtents p inode d)
    (hread : ∀ b ∈ mapBlocks p inode, readBlock p b d' = readBlock p b d ∧
      readBlock p b d = .ok (d.slice (b * p.info.blockSize) p.info.blockSize))
    (fuel numBlocks : ℕ) :
    blockAssignments p (fuel + 1) inode' numBlocks d' = blockAssignments p 1 inode numBlocks d := by
  have hget : ∀ f : Field, f.offset + f.width ≤ DirTree.inodeBytes → f.get inode' = f.get inode :=
    fun f hf => Field.get_congr hin (Nat.zero_le _) hf
  unfold blockAssignments
  rw [hget Inode.iFlags (by decide)]
  by_cases hflag : Inode.iFlags.get inode &&& EXT4_EXTENTS_FL ≠ 0
  · rw [if_pos hflag, if_pos hflag]
    unfold getBlockListExtents
    simp only [Nat.zero_add]
    rw [hget (ExtentHeader.ehMagic.at_ _) (by decide),
      hget (ExtentHeader.ehDepth.at_ _) (by decide)]
    rcases hshallow hflag with ⟨hdepth, hentries⟩ | ⟨hdepth, hentries, hleaf⟩
    · -- the extents stand in the inode
      have hexts : extentsOf inode' Inode.iBlockOffset = extentsOf inode Inode.iBlockOffset := by
        unfold extentsOf
        rw [hget (ExtentHeader.ehEntries.at_ _) (by decide)]
        apply List.map_congr_left
        intro i hi
        rw [List.mem_range] at hi
        apply extentAt_congr
        apply hin.mono (Nat.zero_le _)
        unfold DirTree.inodeBytes Inode.iBlockOffset sizeofExtent
        omega
      have hents : getExtentEnts inode' Inode.iBlockOffset sizeofInode =
          getExtentEnts inode Inode.iBlockOffset sizeofInode := by
        unfold getExtentEnts
        rw [hget (ExtentHeader.ehEntries.at_ _) (by decide),
          hget (ExtentHeader.ehDepth.at_ _) (by decide), hexts]
      rw [hdepth, if_pos rfl, if_pos rfl, hents]
    · -- one leaf, which the index in the inode names
      have hmem : (ExtentIdx.eiLeafHi.at_ (Inode.iBlockOffset + sizeofExtent)).get inode * 2 ^ 32 +
          (ExtentIdx.eiLeafLo.at_ (Inode.iBlockOffset + sizeofExtent)).get inode ∈
            mapBlocks p inode := by
        unfold mapBlocks
        rw [if_pos hflag, if_neg (by omega)]
        exact List.mem_singleton_self _
      have hidx : getExtentIdx (fun b => readBlockBounded p b d') p.info.blockSize (fuel + 1) inode'
            Inode.iBlockOffset sizeofInode =
          getExtentIdx (fun b => readBlockBounded p b d) p.info.blockSize (0 + 1) inode
            Inode.iBlockOffset sizeofInode := by
        unfold getExtentIdx
        rw [hget (ExtentHeader.ehEntries.at_ _) (by decide),
          hget (ExtentHeader.ehDepth.at_ _) (by decide), hentries]
        simp only [List.range_one, List.mapM_cons, List.mapM_nil]
        rw [hget (ExtentIdx.eiLeafHi.at_ _) (by decide),
          hget (ExtentIdx.eiLeafLo.at_ _) (by decide)]
        unfold readBlockBounded
        rw [(hread _ hmem).1, (hread _ hmem).2]
        by_cases hbig : MAX_EXT4_BLOCK_SIZE < p.info.blockSize
        · simp only [if_pos hbig, bind_error]
        · simp only [if_neg hbig, bind_ok, hleaf _ hmem, if_true]
      rw [Nat.zero_add] at hidx
      have hone : ¬ (1 = 0) := by decide
      simp only [hdepth, if_neg hone, hidx]
  · rw [if_neg hflag, if_neg hflag]
    have hblocks : inodeBlocks p inode' = inodeBlocks p inode := by
      unfold inodeBlocks
      rw [hget _ (by decide)]
    have hdirect : getDirectBlocks p inode' = getDirectBlocks p inode := by
      unfold getDirectBlocks
      rw [hblocks]
      apply List.map_congr_left
      intro i hi
      rw [List.mem_range] at hi
      have hi : i < 12 := lt_of_lt_of_le hi (min_le_right _ _)
      rw [hget (Inode.iBlock i) (by
        unfold Inode.iBlock Inode.iBlockOffset DirTree.inodeBytes
        simp only
        omega)]
    have hindirect : EXT4_NDIR_BLOCKS < inodeBlocks p inode →
        getIndirectBlocks p inode' d' = getIndirectBlocks p inode d := by
      intro hlt
      have hmem : (Inode.iBlock EXT4_NDIR_BLOCKS).get inode ∈ mapBlocks p inode := by
        unfold mapBlocks
        rw [if_neg hflag, if_pos hlt]
        exact List.mem_singleton_self _
      unfold getIndirectBlocks
      rw [hget (Inode.iBlock EXT4_NDIR_BLOCKS) (by decide), hblocks, (hread _ hmem).1]
    unfold getBlockListIndirect
    rw [hblocks, hdirect]
    by_cases hlt : EXT4_NDIR_BLOCKS < inodeBlocks p inode
    · rw [if_pos hlt, if_pos hlt, hindirect hlt]
    · rw [if_neg hlt, if_neg hlt]

end Reading

/-! ## A small image -/

section TwoGroups

/-- The members of an entry. -/
def entryAt (o inum recLen fileType : ℕ) (name : List ℕ) : List (Field × ℕ) :=
  [(DirEntry.inode.at_ o, inum), (DirEntry.recLen.at_ o, recLen),
    (DirEntry.nameLen.at_ o, name.length), (DirEntry.fileType.at_ o, fileType)] ++
    name.mapIdx fun i c => (⟨o + DirEntry.nameOffset + i, 1⟩, c)

/-- The members of an inode with one block. -/
def inodeAt (o mode block : ℕ) : List (Field × ℕ) :=
  [(Inode.iMode.at_ o, mode), (Inode.iBlocksLo.at_ o, 4), ((Inode.iBlock 0).at_ o, block)]

/-- A filesystem with two groups of `24` inodes and a directory in each. -/
def twoGroups : Device where
  size := 32768
  bytes := Mem.zero.assign <|
    [(Sb.inodesCount.at_ 1024, 48), (Sb.blocksCountLo.at_ 1024, 16), (Sb.logBlockSize.at_ 1024, 1),
      (Sb.blocksPerGroup.at_ 1024, 8), (Sb.inodesPerGroup.at_ 1024, 24),
      (Sb.magic.at_ 1024, EXT4_SUPER_MAGIC), (Sb.state.at_ 1024, EXT4_VALID_FS),
      (Sb.inodeSize.at_ 1024, 128), (Sb.featureIncompat.at_ 1024, EXT4_FEATURE_INCOMPAT_FILETYPE),
      (Sb.descSize.at_ 1024, 32),
      (GroupDesc.bgInodeBitmap.at_ 2048, 3), (GroupDesc.bgInodeTable.at_ 2048, 4),
      (GroupDesc.bgInodeBitmap.at_ 2080, 11), (GroupDesc.bgInodeTable.at_ 2080, 12)] ++
    -- the root in block 6, a directory in block 14 and a file in that
    inodeAt 8320 0x4000 6 ++ inodeAt 24576 0x4000 14 ++ inodeAt 24704 0x8000 15 ++
    entryAt 12288 2 12 EXT4_FT_DIR [46] ++ entryAt 12300 2 12 EXT4_FT_DIR [46, 46] ++
    entryAt 12312 25 2024 EXT4_FT_DIR [100] ++
    entryAt 28672 25 12 EXT4_FT_DIR [46] ++ entryAt 28684 2 12 EXT4_FT_DIR [46, 46] ++
    entryAt 28696 26 2024 EXT4_FT_UNKNOWN [102]

def twoGroupsInfo : FsInfo where
  len := 32768
  blockSize := 2048
  blocksPerGroup := 8
  inodesPerGroup := 24
  inodeSize := 128
  inodes := 48
  journalBlocks := 0
  featRoCompat := 0
  featCompat := 0
  featIncompat := EXT4_FEATURE_INCOMPAT_FILETYPE
  bgDescReserveBlocks := 0
  label := List.replicate 16 0
  noJournal := false

def twoGroupsAux : FsAuxInfo where
  firstDataBlock := 0
  lenBlocks := 16
  inodeTableBlocks := 2
  groups := 2
  bgDescBlocks := 1
  defaultIFlags := EXT4_NOATIME_FL
  blocksPerInd := 512
  blocksPerDind := 262144
  blocksPerTind := 0

/-- What `read_ext` fills in from it. -/
def twoGroupsFixup : Fixup := ⟨twoGroupsInfo, twoGroupsAux, twoGroups.slice 2048 2048, 32⟩

def twoGroupsTree : DirTree where
  dirs := [2, 25]
  blocks n := if n = 2 then [6] else [14]
  records _ := [0, 12, 24]
  depth n := if n = 2 then 1 else 0

theorem readExt_twoGroups : readExt twoGroups = .ok twoGroupsFixup := by
  apply readExt_eq_ok.mpr
  refine ⟨by decide, ?_, by decide, ?_, by decide, by decide, rfl, by decide, by decide, by decide,
    by decide⟩
  · decide
  · left
    decide


theorem mem_dirs_twoGroups {n : ℕ} (hn : n ∈ twoGroupsTree.dirs) : n = 2 ∨ n = 25 := by
  simpa [twoGroupsTree] using hn

/-- The numbers of the directories are among those of all inodes. -/
theorem inums_of_mem_dirs {n : ℕ} (hn : n ∈ twoGroupsTree.dirs) : n ∈ [2, 25, 26] := by
  rcases mem_dirs_twoGroups hn with rfl | rfl
  · decide
  · decide

/-- Inodes are read from where they lie. -/
theorem readInode_twoGroups : ∀ v ∈ [2, 25, 26], readInode twoGroupsFixup v twoGroups =
    .ok (twoGroups.slice (inodeOffset twoGroupsFixup v) sizeofInode) := by
  have hfacts : ∀ v ∈ [2, 25, 26], twoGroupsFixup.HasDesc (sub32 v 1 / 24) ∧
      seekable (inodeOffset twoGroupsFixup v) ∧
      inodeOffset twoGroupsFixup v + sizeofInode ≤ twoGroups.size := by decide
  intro v hv
  obtain ⟨hdesc, hseek, hle⟩ := hfacts v hv
  exact readInode_eq_ok.mpr ⟨by decide, hdesc, hseek, hle, rfl⟩

theorem live_twoGroups : ∀ n ∈ twoGroupsTree.dirs,
    twoGroupsTree.live twoGroupsFixup twoGroups n = [0, 12, 24] := by decide

theorem hasCopy_twoGroups {i : ℕ} (h : HasCopy twoGroupsFixup i) : i ∈ [0, 1] := by
  have hi : i < 2 := h.1
  simp only [List.mem_cons, List.not_mem_nil, or_false]
  omega


/-- Where the copies are. -/
theorem offsets_twoGroups : sbOffset twoGroupsFixup 0 = 1024 ∧ descOffset twoGroupsFixup 0 = 2048 ∧
    sbOffset twoGroupsFixup 1 = 16384 ∧ descOffset twoGroupsFixup 1 = 18432 ∧
    twoGroupsFixup.descLen = 2048 ∧ Sb.size = 1024 := by decide

theorem apart_twoGroups : ∀ i ∈ [0, 1], ∀ j ∈ [0, 1],
    (i ≠ j → sbOffset twoGroupsFixup i + Sb.size ≤ sbOffset twoGroupsFixup j ∨
      sbOffset twoGroupsFixup j + Sb.size ≤ sbOffset twoGroupsFixup i) ∧
    (sbOffset twoGroupsFixup i + Sb.size ≤ descOffset twoGroupsFixup j ∨
      descOffset twoGroupsFixup j + twoGroupsFixup.descLen ≤ sbOffset twoGroupsFixup i) ∧
    (i ≠ j → descOffset twoGroupsFixup i + twoGroupsFixup.descLen ≤ descOffset twoGroupsFixup j ∨
      descOffset twoGroupsFixup j + twoGroupsFixup.descLen ≤ descOffset twoGroupsFixup i) := by
  decide

theorem copyBytes_twoGroups : ∀ x ∈ copyBytes twoGroupsFixup,
    1024 ≤ x ∧ x < 4096 ∨ 16384 ≤ x ∧ x < 20480 := by
  rintro x ⟨i, hi, hx⟩
  have hi : i = 0 ∨ i = 1 := by simpa using hasCopy_twoGroups hi
  rcases hi with rfl | rfl
  · simp only [offsets_twoGroups, Set.mem_Ico] at hx
    omega
  · simp only [offsets_twoGroups, Set.mem_Ico] at hx
    omega

theorem bitmapBytes_twoGroups : ∀ x ∈ bitmapBytes twoGroupsFixup,
    6144 ≤ x ∧ x < 8192 ∨ 22528 ≤ x ∧ x < 24576 := by
  rintro x ⟨i, hi, hx⟩
  have hgroups : twoGroupsFixup.numBlockGroups = 2 := by decide
  have hmaps : (Fixup.descField GroupDesc.bgInodeBitmap 0).get twoGroupsFixup.bgDesc = 3 ∧
      (Fixup.descField GroupDesc.bgInodeBitmap 1).get twoGroupsFixup.bgDesc = 11 := by decide
  have hbs : twoGroupsFixup.info.blockSize = 2048 := rfl
  rw [hgroups] at hi
  unfold blockBytes at hx
  obtain rfl | rfl : i = 0 ∨ i = 1 := by omega
  · simp only [hmaps, hbs, Set.mem_Ico] at hx
    omega
  · simp only [hmaps, hbs, Set.mem_Ico] at hx
    omega

theorem dirBytes_twoGroups : ∀ x ∈ twoGroupsTree.bytes twoGroupsFixup,
    12288 ≤ x ∧ x < 14336 ∨ 28672 ≤ x ∧ x < 30720 := by
  rintro x ⟨n, hn, b, hb, h₁, h₂⟩
  have hbs : twoGroupsFixup.info.blockSize = 2048 := rfl
  have hb' : b = 6 ∨ b = 14 := by
    rcases mem_dirs_twoGroups hn with rfl | rfl
    · exact Or.inl (List.mem_singleton.mp hb)
    · exact Or.inr (List.mem_singleton.mp hb)
  rw [hbs] at h₁ h₂
  omega

/-- The numbers that occur in it. -/
theorem inums_twoGroups : ∀ n ∈ twoGroupsTree.dirs, ∀ r ∈ [0, 12, 24],
    recInum (twoGroupsTree.buf twoGroupsFixup twoGroups n) r ∈ [2, 25, 26] := by decide

theorem offset_inode_twoGroups : ∀ v ∈ [2, 25, 26], inodeOffset twoGroupsFixup v =
    if v = 2 then 8320 else if v = 25 then 24576 else 24704 := by decide

theorem inodeBytes_twoGroups {v x : ℕ} (hv : v ∈ [2, 25, 26])
    (hx : x ∈ Set.Ico (inodeOffset twoGroupsFixup v)
      (inodeOffset twoGroupsFixup v + DirTree.inodeBytes)) :
    8320 ≤ x ∧ x < 8420 ∨ 24576 ≤ x ∧ x < 24804 := by
  rw [offset_inode_twoGroups v hv] at hx
  unfold DirTree.inodeBytes at hx
  simp only [Set.mem_Ico] at hx
  split at hx
  · omega
  · split at hx
    · omega
    · omega

theorem mapBlocks_twoGroups : ∀ n ∈ twoGroupsTree.dirs,
    mapBlocks twoGroupsFixup (twoGroups.slice (inodeOffset twoGroupsFixup n) sizeofInode) = [] := by
  decide

theorem navBytes_twoGroups : ∀ x ∈ twoGroupsTree.navBytes twoGroupsFixup twoGroups,
    8320 ≤ x ∧ x < 8420 ∨ 24576 ≤ x ∧ x < 24804 := by
  rintro x (⟨v, hv, hx⟩ | ⟨n, hn, inode, hread, b, hb, -⟩)
  · have hmem : v ∈ [2, 25, 26] := by
      rcases hv with hv | ⟨n, hn, r, hr, rfl⟩
      · exact inums_of_mem_dirs hv
      · rw [live_twoGroups n hn] at hr
        exact inums_twoGroups n hn r hr
    exact inodeBytes_twoGroups hmem hx
  · rw [(readInode_eq_ok.mp hread).2.2.2.2, mapBlocks_twoGroups n hn] at hb
    cases hb

/-- Sets of addresses that are told apart by their bounds. -/
theorem disjoint_of_bounds {A B : Set ℕ} {P Q : ℕ → Prop} (hA : ∀ x ∈ A, P x) (hB : ∀ x ∈ B, Q x)
    (h : ∀ x, P x → ¬ Q x) : Disjoint A B :=
  Set.disjoint_left.mpr fun x hx hx' => h x (hA x hx) (hB x hx')

theorem dirInode_twoGroups : ∀ n ∈ twoGroupsTree.dirs, ∃ inode,
    readInode twoGroupsFixup n twoGroups = .ok inode ∧
      DirInode twoGroupsFixup (twoGroupsTree.blocks n) inode twoGroups := by
  intro n hn
  have hfacts : ∀ n ∈ twoGroupsTree.dirs,
      let inode := twoGroups.slice (inodeOffset twoGroupsFixup n) sizeofInode
      isDirInode inode = true ∧ Inode.iBlocksLo.get inode = 4 ∧ Inode.iFlags.get inode = 0 ∧
        (twoGroupsTree.blocks n).length = 1 ∧
        blockList twoGroupsFixup 1 inode (twoGroupsTree.blocks n).length twoGroups =
          .ok (twoGroupsTree.blocks n) := by decide
  obtain ⟨hdir, hblocks, hflags, hlen, hlist⟩ := hfacts n hn
  have hmem := inums_of_mem_dirs hn
  refine ⟨_, readInode_twoGroups n hmem, hdir, ?_, ?_, ?_, ?_, hlist⟩
  · rw [hblocks, hlen]
    rfl
  · rw [hlen]
    decide
  · intro h
    rw [hflags] at h
    exact absurd rfl h
  · rw [mapBlocks_twoGroups n hn]
    intro b hb
    cases hb
theorem entry_twoGroups :
    ∀ n ∈ twoGroupsTree.dirs, ∀ r ∈ twoGroupsTree.live twoGroupsFixup twoGroups n,
    EntryOk twoGroupsFixup twoGroupsTree n (recInum (twoGroupsTree.buf twoGroupsFixup twoGroups n) r)
      (recFileType (twoGroupsTree.buf twoGroupsFixup twoGroups n) r)
      (recName (twoGroupsTree.buf twoGroupsFixup twoGroups n) r) twoGroups := by
  have hfacts : ∀ n ∈ twoGroupsTree.dirs, ∀ r ∈ [0, 12, 24],
      let buf := twoGroupsTree.buf twoGroupsFixup twoGroups n
      let inum := recInum buf r
      let isDir := isDirInode (twoGroups.slice (inodeOffset twoGroupsFixup inum) sizeofInode)
      inum < 2 ^ 31 ∧ twoGroupsFixup.newInum inum < 2 ^ 31 ∧
        (recFileType buf r = EXT4_FT_UNKNOWN ∨ (recFileType buf r = EXT4_FT_DIR ↔ isDir = true)) ∧
        (isDir = true → inum ∈ twoGroupsTree.dirs ∧
          (recName buf r ≠ [46] → recName buf r ≠ [46, 46] →
            twoGroupsTree.depth inum < twoGroupsTree.depth n)) := by decide
  intro n hn r hr
  rw [live_twoGroups n hn] at hr
  obtain ⟨hlt, hnew, htype, hsub⟩ := hfacts n hn r hr
  exact ⟨hlt, hnew, _, readInode_twoGroups _ (inums_twoGroups n hn r hr), htype, hsub⟩

/-- The filesystem is one that the tool can work on. -/
theorem twoGroups_image : FixupImage twoGroupsFixup twoGroupsTree twoGroups where
  readExt := readExt_twoGroups
  size_lt := by decide
  groups_pos := by decide
  blockSize_le := by decide
  root_mem := by decide
  reachable := by
    intro n hn
    rcases mem_dirs_twoGroups hn with rfl | rfl
    · exact Relation.ReflTransGen.refl
    · refine Relation.ReflTransGen.single ⟨24, ⟨?_, ?_⟩, ?_⟩
      · rw [live_twoGroups _ (by decide)]
        decide
      · decide
      · decide
  inode := dirInode_twoGroups
  blocks_nodup := by decide
  blocks_le := by decide
  tiles := by decide
  live_first := by decide
  entry := entry_twoGroups
  copies := by
    refine ⟨?_, ?_, ?_, ?_, ?_, ?_⟩
    · exact disjoint_of_bounds copyBytes_twoGroups (fun _ h => h) fun x h (h' : x < 8) => by omega
    · exact disjoint_of_bounds copyBytes_twoGroups bitmapBytes_twoGroups fun x h h' => by omega
    · exact disjoint_of_bounds bitmapBytes_twoGroups (fun _ h => h) fun x h (h' : x < 8) => by omega
    · exact fun i j hi hj => (apart_twoGroups i (hasCopy_twoGroups hi) j (hasCopy_twoGroups hj)).1
    · exact fun i j hi hj => (apart_twoGroups i (hasCopy_twoGroups hi) j (hasCopy_twoGroups hj)).2.1
    · exact fun i j hi hj => (apart_twoGroups i (hasCopy_twoGroups hi) j (hasCopy_twoGroups hj)).2.2
  copies_le := by
    have hle : ∀ i ∈ [0, 1], sbOffset twoGroupsFixup i + Sb.size ≤ twoGroups.size ∧
        descOffset twoGroupsFixup i + twoGroupsFixup.descLen ≤ twoGroups.size := by decide
    exact fun i hi => hle i (hasCopy_twoGroups hi)
  dirs_state :=
    disjoint_of_bounds dirBytes_twoGroups (fun _ h => h) fun x h (h' : x < 8) => by omega
  dirs_copies := disjoint_of_bounds dirBytes_twoGroups copyBytes_twoGroups fun x h h' => by omega
  dirs_bitmaps := disjoint_of_bounds dirBytes_twoGroups bitmapBytes_twoGroups fun x h h' => by omega
  dirs_nav := disjoint_of_bounds dirBytes_twoGroups navBytes_twoGroups fun x h h' => by omega
  nav_state := disjoint_of_bounds navBytes_twoGroups (fun _ h => h) fun x h (h' : x < 8) => by omega
  nav_copies := disjoint_of_bounds navBytes_twoGroups copyBytes_twoGroups fun x h h' => by omega
  nav_bitmaps := disjoint_of_bounds navBytes_twoGroups bitmapBytes_twoGroups fun x h h' => by omega

end TwoGroups

end SystemExtras.Ext4
