import SystemExtras.Lib.Bits
import SystemExtras.Ext4.Geometry

/-!
# The block allocator

A translation of the block part of `allocate.c`.  The state is what the C
program keeps in `aux_info.bgs`, in the regions it has `malloc`ed and in the
queue of its output file; every function takes the state and returns the new
one, or a `Stop` when it leaves through `error`, through undefined behaviour or
not at all.

Regions live in a heap and are linked by addresses, as in C, because the list
surgery of `reserve_oob_blocks` and `reduce_allocation` works with `prev` and
`last` pointers that are not always up to date.  A freed or never allocated
address holds no region, and following it is undefined.

Loops over groups recurse on the number of groups left.  The one loop that need
not end, `ext4_allocate_multiple_contiguous_blocks`, gives up after more rounds
than there are groups: a round that took no group and did not finish the request
took a region of no blocks, and nothing will ever change again.
-/

namespace SystemExtras.Ext4

/-- `EXT4_ALLOCATE_FAILED`, `(u32)(~0)`. -/
def EXT4_ALLOCATE_FAILED : ℕ := 2 ^ 32 - 1

def EXT4_BG_INODE_UNINIT : ℕ := 0x0001

/-! ## State -/

/-- `struct region`. -/
structure Region where
  block : ℕ
  len : ℕ
  bg : ℕ
  next : Option ℕ
  prev : Option ℕ
  deriving DecidableEq, Repr

/-- `struct region_list`. -/
structure RegionList where
  first : Option ℕ
  last : Option ℕ
  iter : Option ℕ
  partialIter : ℕ
  deriving DecidableEq, Repr

/-- `struct block_allocation`. -/
structure BlockAllocation where
  list : RegionList
  oobList : RegionList
  deriving DecidableEq, Repr

/-- `struct block_group_info`.  `bitmaps` is one buffer of two blocks, the block
bitmap followed by the inode bitmap; `inodeTable` is there once it is used. -/
structure BlockGroupInfo where
  firstBlock : ℕ
  headerBlocks : ℕ
  dataBlocksUsed : ℕ
  hasSuperblock : Bool
  bitmaps : Mem
  inodeTable : Option Mem
  freeBlocks : ℕ
  firstFreeBlock : ℕ
  freeInodes : ℕ
  firstFreeInode : ℕ
  flags : ℕ
  usedDirs : ℕ

/-- What a chunk of the output file is filled from when it is written. -/
inductive Source where
  | superBlock
  | backupSuperBlock (bg : ℕ)
  | groupDescs
  | bitmaps (bg : ℕ)
  | inodeTable (bg : ℕ)
  | buffer (id offset : ℕ)
  | file (name : List UInt8) (offset : ℕ)
  deriving DecidableEq, Repr

/-- A chunk queued with `sparse_file_add_data` or `sparse_file_add_file`. -/
structure Chunk where
  source : Source
  len : ℕ
  block : ℕ
  deriving DecidableEq, Repr

/-- The regions that have been `malloc`ed; `brk` is the next fresh address. -/
structure RegionHeap where
  node : ℕ → Option Region
  brk : ℕ

/-- A `calloc`ed buffer. -/
structure Buffer where
  size : ℕ
  bytes : Mem

/-- The queue of the output file, and the buffers it is filled from; `brk` is the
number of the next buffer. -/
structure Output where
  chunks : List Chunk
  buffers : ℕ → Buffer
  brk : ℕ

/-- The part of `aux_info` and of the heap that changes while a filesystem is
built. -/
structure State where
  bgs : ℕ → BlockGroupInfo
  regions : RegionHeap
  out : Output

namespace RegionHeap

/-- Dereferences a region pointer. -/
def deref (h : RegionHeap) : Option ℕ → Except Stop Region
  | none => .error .undefined
  | some p =>
      match h.node p with
      | none => .error .undefined
      | some r => .ok r

/-- Assigns to the region at `p`. -/
def write (h : RegionHeap) (p : ℕ) (r : Region) : RegionHeap :=
  { h with node := Function.update h.node p (some r) }

/-- `malloc` followed by the assignments to the new region. -/
def malloc (h : RegionHeap) (r : Region) : ℕ × RegionHeap :=
  (h.brk, { node := Function.update h.node h.brk (some r), brk := h.brk + 1 })

/-- `free`. -/
def free (h : RegionHeap) (p : ℕ) : RegionHeap :=
  { h with node := Function.update h.node p none }

end RegionHeap

namespace State

/-- Assigns to `aux_info.bgs[i]`. -/
def setBg (s : State) (i : ℕ) (bg : BlockGroupInfo) : State :=
  { s with bgs := Function.update s.bgs i bg }

/-- Queues a chunk.  The result of the library call is not looked at by the
callers of this form. -/
def addChunk (s : State) (source : Source) (len block : ℕ) : State :=
  { s with out := { s.out with chunks := s.out.chunks ++ [⟨source, len, block⟩] } }

/-- `calloc`. -/
def calloc (s : State) (size : ℕ) : ℕ × State :=
  (s.out.brk, { s with out := { s.out with
    buffers := Function.update s.out.buffers s.out.brk ⟨size, Mem.zero⟩
    brk := s.out.brk + 1 } })

/-- Assigns to the bytes of a buffer. -/
def setBuffer (s : State) (id : ℕ) (bytes : Mem) : State :=
  { s with out := { s.out with
    buffers := Function.update s.out.buffers id { s.out.buffers id with bytes := bytes } } }

end State

/-- A parameter set together with the numbers derived from it. -/
structure Geometry where
  info : FsInfo
  aux : FsAuxInfo
  create : ext4CreateFsAuxInfo info = some aux

/-! ## Bitmaps -/

/-- `bitmap_set_bit` on a bitmap buffer of `cap` bytes: the new bitmap, and
whether the bit was set before. -/
def bitmapSetBit (cap : ℕ) (bitmap : Mem) (bit : ℕ) : Except Stop (Bool × Mem) :=
  if cap ≤ bit / 8 then .error .undefined
  else if bitmap.bit bit then .ok (true, bitmap)
  else .ok (false, bitmap.orBit bit)

/-- `bitmap_set_8_bits`: the new bitmap, and whether any bit of the byte was set
before. -/
def bitmapSet8Bits (cap : ℕ) (bitmap : Mem) (bit : ℕ) : Except Stop (Bool × Mem) :=
  if cap ≤ bit / 8 then .error .undefined
  else .ok (bitmap (bit / 8) != 0, bitmap.fillByte bit)

/-- The message of the three loops of `reserve_blocks`. -/
def alreadyReserved : Stop := .error "attempted to reserve already reserved block"

/-- The first loop of `reserve_blocks`: bit by bit up to a byte boundary.
`left` is `num - i`; the result is what is left and where. -/
def reserveHead (cap : ℕ) : ℕ → ℕ → Mem → Except Stop (ℕ × ℕ × Mem)
  | 0, block, bitmap => .ok (0, block, bitmap)
  | left + 1, block, bitmap =>
      if block % 8 ≠ 0 then do
        let (old, bitmap) ← bitmapSetBit cap bitmap block
        if old then .error alreadyReserved else reserveHead cap left (block + 1) bitmap
      else .ok (left + 1, block, bitmap)

/-- The second loop of `reserve_blocks`: byte by byte while `i + 8 <= (num & ~7)`. -/
def reserveBytes (cap num : ℕ) : ℕ → ℕ → ℕ → Mem → Except Stop (ℕ × ℕ × Mem)
  | 0, i, block, bitmap => .ok (i, block, bitmap)
  | fuel + 1, i, block, bitmap =>
      if i + 8 ≤ num / 8 * 8 then do
        let (old, bitmap) ← bitmapSet8Bits cap bitmap block
        if old then .error alreadyReserved
        else reserveBytes cap num fuel (i + 8) (block + 8) bitmap
      else .ok (i, block, bitmap)

/-- The third loop of `reserve_blocks`: the bits that are left. -/
def reserveTail (cap : ℕ) : ℕ → ℕ → Mem → Except Stop Mem
  | 0, _, bitmap => .ok bitmap
  | left + 1, block, bitmap => do
      let (old, bitmap) ← bitmapSetBit cap bitmap block
      if old then .error alreadyReserved else reserveTail cap left (block + 1) bitmap

/-- `reserve_blocks`; `none` is the plain return of `-1`.  The second loop makes
at most `num / 8` rounds. -/
def reserveBlocks (cap : ℕ) (bg : BlockGroupInfo) (start num : ℕ) :
    Except Stop (Option BlockGroupInfo) :=
  if num > bg.freeBlocks then .ok none
  else do
    let (left, block, bitmap) ← reserveHead cap num start bg.bitmaps
    let (i, block, bitmap) ← reserveBytes cap num (num / 8) (num - left) block bitmap
    let bitmap ← reserveTail cap (num - i) block bitmap
    .ok (some { bg with
      bitmaps := bitmap
      freeBlocks := bg.freeBlocks - num
      firstFreeBlock :=
        if start = bg.firstFreeBlock then u32 (start + num) else bg.firstFreeBlock })

/-- The loop of `free_blocks`. -/
def freeBlocksLoop (cap : ℕ) : ℕ → ℕ → Mem → Except Stop Mem
  | 0, _, bitmap => .ok bitmap
  | left + 1, block, bitmap =>
      if cap ≤ block / 8 then .error .undefined
      else freeBlocksLoop cap left (sub32 block 1) (bitmap.andNotBit block)

/-- `free_blocks`. -/
def freeBlocks (cap : ℕ) (bg : BlockGroupInfo) (numBlocks : ℕ) : Except Stop BlockGroupInfo := do
  let bitmap ← freeBlocksLoop cap numBlocks (sub32 bg.firstFreeBlock 1) bg.bitmaps
  .ok { bg with
    bitmaps := bitmap
    freeBlocks := u32 (bg.freeBlocks + numBlocks)
    firstFreeBlock := sub32 bg.firstFreeBlock numBlocks }

/-! ## Groups -/

namespace Geometry

variable (g : Geometry)

/-- The size of a group's bitmap buffer, which `init_bg` allocates. -/
def bitmapsSize : ℕ := 2 * g.info.blockSize

def hasSuperBlock (i : ℕ) : Bool := ext4BgHasSuperBlock g.info.featRoCompat i

/-- What a superblock, the descriptors and the blocks reserved for more of them
take in a group that has a copy. -/
def superBlocks : ℕ := 1 + g.aux.bgDescBlocks + g.info.bgDescReserveBlocks

/-- `header_blocks` of group `i`. -/
def headerBlocks (i : ℕ) : ℕ :=
  if g.hasSuperBlock i then u32 (2 + g.aux.inodeTableBlocks + g.superBlocks)
  else u32 (2 + g.aux.inodeTableBlocks)

/-- `first_block` of group `i`. -/
def firstBlock (i : ℕ) : ℕ := u32 (g.aux.firstDataBlock + i * g.info.blocksPerGroup)

/-- The block at which `init_bg` queues the bitmaps of group `i`. -/
def bitmapsBlock (i : ℕ) : ℕ :=
  if g.hasSuperBlock i then u32 (g.firstBlock i + g.superBlocks) else g.firstBlock i

end Geometry

/-- Group `i` before `init_bg` reserves anything in it. -/
def initialBg (g : Geometry) (i : ℕ) : BlockGroupInfo where
  firstBlock := g.firstBlock i
  headerBlocks := g.headerBlocks i
  dataBlocksUsed := 0
  hasSuperblock := g.hasSuperBlock i
  bitmaps := Mem.zero
  inodeTable := none
  freeBlocks := g.info.blocksPerGroup
  firstFreeBlock := 0
  freeInodes := g.info.inodesPerGroup
  firstFreeInode := 1
  flags := EXT4_BG_INODE_UNINIT
  usedDirs := 0

/-- The last lines of `init_bg`: what lies beyond the end of the device is
reserved, and whether that worked is not looked at. -/
def reserveOverrun (g : Geometry) (bg : BlockGroupInfo) : Except Stop BlockGroupInfo :=
  -- the sum is a `u32`, the difference a `u64` cut to a `u32`
  let overrun := u32 (sub64 (u32 (bg.firstBlock + g.info.blocksPerGroup)) g.aux.lenBlocks)
  if overrun > 0 then do
    let reserved ← reserveBlocks g.bitmapsSize bg (sub32 g.info.blocksPerGroup overrun) overrun
    .ok (reserved.getD bg)
  else .ok bg

/-- `init_bg`.  The queue entry it makes for the bitmaps is made in `initBgs`. -/
def initBg (g : Geometry) (i : ℕ) : Except Stop BlockGroupInfo := do
  let bg := initialBg g i
  match ← reserveBlocks g.bitmapsSize bg bg.firstFreeBlock bg.headerBlocks with
  | none => .error (.error "failed to reserve %u blocks in block group %u\n")
  | some bg => reserveOverrun g bg

/-- The loop of `block_allocator_init`, from group `i` on. -/
def initBgs (g : Geometry) : ℕ → ℕ → State → Except Stop State
  | 0, _, s => .ok s
  | left + 1, i, s => do
      let bg ← initBg g i
      let s := s.addChunk (.bitmaps i) (u32 (2 * g.info.blockSize)) (g.bitmapsBlock i)
      initBgs g left (i + 1) (s.setBg i bg)

/-- `aux_info.bgs[i]` as `calloc` leaves it. -/
def BlockGroupInfo.zero : BlockGroupInfo where
  firstBlock := 0
  headerBlocks := 0
  dataBlocksUsed := 0
  hasSuperblock := false
  bitmaps := Mem.zero
  inodeTable := none
  freeBlocks := 0
  firstFreeBlock := 0
  freeInodes := 0
  firstFreeInode := 0
  flags := 0
  usedDirs := 0

/-- The state before `block_allocator_init`. -/
def State.empty : State where
  bgs := fun _ => .zero
  regions := { node := fun _ => none, brk := 0 }
  out := { chunks := [], buffers := fun _ => ⟨0, Mem.zero⟩, brk := 0 }

/-- `block_allocator_init`. -/
def blockAllocatorInit (g : Geometry) (s : State) : Except Stop State :=
  initBgs g g.aux.groups 0 s

/-! ## Allocation -/

/-- `ext4_allocate_blocks_from_block_group`.  `data_blocks_used` is an `int` to
which a `u32` is added; it is only ever compared with zero. -/
def ext4AllocateBlocksFromBlockGroup (g : Geometry) (len bgNum : ℕ) (s : State) :
    Except Stop (ℕ × State) :=
  let bg := s.bgs bgNum
  if bg.freeBlocks < len then .ok (EXT4_ALLOCATE_FAILED, s)
  else do
    match ← reserveBlocks g.bitmapsSize bg bg.firstFreeBlock len with
    | none => .error (.error "failed to reserve %u blocks in block group %u\n")
    | some bg' =>
        .ok (u32 (bg.firstBlock + bg.firstFreeBlock),
          s.setBg bgNum { bg' with dataBlocksUsed := u32 (bg'.dataBlocksUsed + len) })

/-- `malloc` of a region with no neighbours yet. -/
def newRegion (s : State) (block len bg : ℕ) : ℕ × State :=
  let (p, regions) := s.regions.malloc ⟨block, len, bg, none, none⟩
  (p, { s with regions := regions })

/-- The loop of `ext4_allocate_contiguous_blocks`, from group `i` on. -/
def contiguousLoop (g : Geometry) (len : ℕ) : ℕ → ℕ → State → Except Stop (Option ℕ × State)
  | 0, _, s => .ok (none, s)
  | left + 1, i, s => do
      let (block, s) ← ext4AllocateBlocksFromBlockGroup g len i s
      if block ≠ EXT4_ALLOCATE_FAILED then
        let (p, s) := newRegion s block len i
        .ok (some p, s)
      else contiguousLoop g len left (i + 1) s

/-- `ext4_allocate_contiguous_blocks`. -/
def ext4AllocateContiguousBlocks (g : Geometry) (len : ℕ) (s : State) :
    Except Stop (Option ℕ × State) :=
  contiguousLoop g len g.aux.groups 0 s

/-- The loop of `allocate_block`, from group `i` on. -/
def allocateBlockLoop (g : Geometry) : ℕ → ℕ → State → Except Stop (ℕ × State)
  | 0, _, s => .ok (EXT4_ALLOCATE_FAILED, s)
  | left + 1, i, s => do
      let (block, s) ← ext4AllocateBlocksFromBlockGroup g 1 i s
      if block ≠ EXT4_ALLOCATE_FAILED then .ok (block, s)
      else allocateBlockLoop g left (i + 1) s

/-- `allocate_block`. -/
def allocateBlock (g : Geometry) (s : State) : Except Stop (ℕ × State) :=
  allocateBlockLoop g g.aux.groups 0 s

/-- The loop of `ext4_allocate_partial`, from group `i` on. -/
def partialLoop (g : Geometry) (len : ℕ) : ℕ → ℕ → State → Except Stop (Option ℕ × State)
  | 0, _, s => .ok (none, s)
  | left + 1, i, s =>
      if (s.bgs i).dataBlocksUsed = 0 then
        let bgLen := (s.bgs i).freeBlocks
        if len ≤ bgLen then ext4AllocateContiguousBlocks g len s
        else do
          let (block, s) ← ext4AllocateBlocksFromBlockGroup g bgLen i s
          if block = EXT4_ALLOCATE_FAILED then
            .error (.error "failed to allocate %d blocks in block group %d")
          else
            let (p, s) := newRegion s block bgLen i
            .ok (some p, s)
      else partialLoop g len left (i + 1) s

/-- `ext4_allocate_partial`. -/
def ext4AllocatePartial (g : Geometry) (len : ℕ) (s : State) : Except Stop (Option ℕ × State) :=
  partialLoop g len g.aux.groups 0 s

/-- Links the regions `prev` and `reg`, if there is a `prev`. -/
def linkRegions (h : RegionHeap) (prev : Option ℕ) (reg : ℕ) : Except Stop RegionHeap :=
  match prev with
  | none => .ok h
  | some p => do
      let r ← h.deref (some p)
      let h := h.write p { r with next := some reg }
      let q ← h.deref (some reg)
      .ok (h.write reg { q with prev := some p })

/-- The loop of `ext4_allocate_multiple_contiguous_blocks`. -/
def multipleLoop (g : Geometry) :
    ℕ → ℕ → Option ℕ → Option ℕ → State → Except Stop (Option ℕ × State)
  | 0, len, first, _, s => if len = 0 then .ok (first, s) else .error .hang
  | fuel + 1, len, first, prev, s =>
      if len = 0 then .ok (first, s)
      else do
        let (reg, s) ← ext4AllocatePartial g len s
        match reg with
        | none => .ok (none, s)
        | some reg =>
            let regions ← linkRegions s.regions prev reg
            let r ← regions.deref (some reg)
            multipleLoop g fuel (len - r.len) (some (first.getD reg)) (some reg)
              { s with regions := regions }

/-- `ext4_allocate_multiple_contiguous_blocks`. -/
def ext4AllocateMultipleContiguousBlocks (g : Geometry) (len : ℕ) (s : State) :
    Except Stop (Option ℕ × State) :=
  multipleLoop g (g.aux.groups + 1) len none none s

/-- `do_allocate`. -/
def doAllocate (g : Geometry) (len : ℕ) (s : State) : Except Stop (Option ℕ × State) := do
  let (reg, s) ← ext4AllocateContiguousBlocks g len s
  match reg with
  | some reg => .ok (some reg, s)
  | none => ext4AllocateMultipleContiguousBlocks g len s

/-- `create_allocation`. -/
def createAllocation : BlockAllocation :=
  ⟨⟨none, none, none, 0⟩, ⟨none, none, none, 0⟩⟩

/-- `allocate_blocks`.  The `last` pointer of the new list is its first region. -/
def allocateBlocks (g : Geometry) (len : ℕ) (s : State) :
    Except Stop (Option BlockAllocation × State) := do
  let (reg, s) ← doAllocate g len s
  match reg with
  | none => .ok (none, s)
  | some reg => .ok (some { createAllocation with list := ⟨some reg, some reg, some reg, 0⟩ }, s)

/-- The loop of `reduce_allocation`.  Giving a whole region back leaves `last`
pointing at it, so a further round follows a freed pointer. -/
def reduceLoop (g : Geometry) :
    ℕ → ℕ → BlockAllocation → State → Except Stop (BlockAllocation × State)
  | 0, len, alloc, s => if len = 0 then .ok (alloc, s) else .error .hang
  | fuel + 1, len, alloc, s =>
      if len = 0 then .ok (alloc, s)
      else do
        let lastReg ← s.regions.deref alloc.list.last
        if lastReg.len > len then do
          let bg ← freeBlocks g.bitmapsSize (s.bgs lastReg.bg) len
          let s := s.setBg lastReg.bg bg
          reduceLoop g fuel 0 alloc { s with
            regions := s.regions.write (alloc.list.last.getD 0)
              { lastReg with len := lastReg.len - len } }
        else do
          let bg ← freeBlocks g.bitmapsSize (s.bgs lastReg.bg) lastReg.len
          let s := s.setBg lastReg.bg bg
          let last := alloc.list.last.getD 0
          match lastReg.prev with
          | some reg => do
              let r ← s.regions.deref (some reg)
              let regions := s.regions.write reg { r with next := none }
              reduceLoop g fuel (len - lastReg.len) alloc { s with regions := regions.free last }
          | none =>
              reduceLoop g fuel (len - lastReg.len)
                { alloc with list := ⟨none, none, none, 0⟩ }
                { s with regions := s.regions.free last }

/-- `reduce_allocation`.  No run makes more than two rounds. -/
def reduceAllocation (g : Geometry) (alloc : BlockAllocation) (len : ℕ) (s : State) :
    Except Stop (BlockAllocation × State) :=
  reduceLoop g (len + 1) len alloc s

end SystemExtras.Ext4
