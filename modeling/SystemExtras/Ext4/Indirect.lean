import SystemExtras.Ext4.ExtentsAgree

/-!
# Indirect block maps

A translation of `inode_allocate_indirect` and of what it calls in `indirect.c`
and `allocate.c`.  The blocks of a file and the pointer blocks that lead to them
are one allocation.  A first walk over it reserves the pointer blocks, which go
to the allocation's second list; a second walk hands the blocks out, the first
twelve to the inode and the others to the pointer blocks.

Both walks remember where they are with `advance_list_ptr`.  It follows the
regions in a variable of its own and stores the place inside a region, but not
the region.
-/

namespace SystemExtras.Ext4

/-! ## Moving along a list -/

/-- The loop of `advance_list_ptr`: whether it gets there, and the new
`partial_iter`.  `blocks` is an `int` from which a `u32` is subtracted. -/
def advanceLoop (h : RegionHeap) : ℕ → Option ℕ → ℕ → ℤ → Except Stop (Bool × ℕ)
  | _, none, partialIter, blocks => .ok (decide (blocks ≤ 0), partialIter)
  | 0, some _, partialIter, blocks =>
      if blocks ≤ 0 then .ok (true, partialIter) else .error .hang
  | fuel + 1, some a, partialIter, blocks =>
      if blocks ≤ 0 then .ok (true, partialIter)
      else do
        let r ← h.deref (some a)
        if r.len > toU32 (partialIter + blocks) then .ok (true, toU32 (partialIter + blocks))
        else advanceLoop h fuel r.next 0 (s32 (toU32 (blocks - (r.len - partialIter))))

/-- `advance_list_ptr`.  The region in which it ends is not stored. -/
def advanceListPtr (list : RegionList) (blocks : ℤ) (h : RegionHeap) :
    Except Stop (Bool × RegionList) := do
  let (ok, partialIter) ← advanceLoop h h.brk list.iter list.partialIter blocks
  .ok (ok, { list with partialIter := partialIter })

/-- `advance_blocks`. -/
def advanceBlocks (alloc : BlockAllocation) (blocks : ℤ) (h : RegionHeap) :
    Except Stop (Bool × BlockAllocation) := do
  let (ok, list) ← advanceListPtr alloc.list blocks h
  .ok (ok, { alloc with list := list })

/-- `advance_oob_blocks`. -/
def advanceOobBlocks (alloc : BlockAllocation) (blocks : ℤ) (h : RegionHeap) :
    Except Stop (Bool × BlockAllocation) := do
  let (ok, list) ← advanceListPtr alloc.oobList blocks h
  .ok (ok, { alloc with oobList := list })

section Loop

variable {h : RegionHeap} {a q n fuel : ℕ} {r : Region}

/-- Nothing is left to pass. -/
theorem advanceLoop_done (o : Option ℕ) {z : ℤ} (hz : z ≤ 0) :
    advanceLoop h fuel o q z = .ok (true, q) := by
  cases o <;> cases fuel <;> simp [advanceLoop, hz]

/-- The loop ends in a region. -/
theorem advanceLoop_within (hr : h.node a = some r) (hn : 0 < n) (hlt : q + n < 2 ^ 32)
    (hin : q + n < r.len) : advanceLoop h (fuel + 1) (some a) q n = .ok (true, q + n) := by
  have hsum : toU32 ((q : ℤ) + (n : ℤ)) = q + n := toU32_of_lt (by push_cast; rfl) hlt
  have hpos : ¬ (n : ℤ) ≤ 0 := by omega
  rw [advanceLoop, if_neg hpos, RegionHeap.deref_some.mpr hr, bind_ok, hsum, if_pos hin]

/-- The loop goes past a region.  What is left to pass is negative if it does not fit an `int`. -/
theorem advanceLoop_past (hr : h.node a = some r) (hn : 0 < n) (hlt : q + n < 2 ^ 32)
    (hpast : r.len ≤ q + n) : advanceLoop h (fuel + 1) (some a) q n =
      advanceLoop h fuel r.next 0 (s32 (q + n - r.len)) := by
  have hsum : toU32 ((q : ℤ) + (n : ℤ)) = q + n := toU32_of_lt (by push_cast; rfl) hlt
  have hleft : toU32 ((n : ℤ) - ((r.len : ℤ) - (q : ℤ))) = q + n - r.len :=
    toU32_of_lt (by omega) (by omega)
  have hpos : ¬ (n : ℤ) ≤ 0 := by omega
  rw [advanceLoop, if_neg hpos, RegionHeap.deref_some.mpr hr, bind_ok, hsum,
    if_neg (not_lt.mpr hpast), hleft]

end Loop

/-- The loops of `free_alloc`. -/
def freeRegions : ℕ → Option ℕ → RegionHeap → Except Stop RegionHeap
  | _, none, h => .ok h
  | 0, some _, _ => .error .hang
  | fuel + 1, some a, h => do
      let r ← h.deref (some a)
      freeRegions fuel r.next (h.free a)

/-- `free_alloc`. -/
def freeAlloc (alloc : BlockAllocation) (h : RegionHeap) : Except Stop RegionHeap := do
  let h ← freeRegions h.brk alloc.list.first h
  freeRegions h.brk alloc.oobList.first h

/-- Leaves through `error` when a call has returned `-1`. -/
def orError (msg : String) (ok : Bool) : Except Stop Unit :=
  if ok then .ok () else .error (.error msg)

/-! ## Reserving the pointer blocks -/

/-- The calls `reserve_oob_blocks(alloc, 1)` and `advance_blocks` that the reserving functions
make.  On states of any kind, so that the calls can be counted as well. -/
structure ReserveCalls (σ : Type) where
  reserveOobBlocks : σ → Except Stop (Bool × σ)
  advanceBlocks : σ → ℤ → Except Stop (Bool × σ)

namespace ReserveCalls

variable {σ : Type} (c : ReserveCalls σ)

/-- `reserve_indirect_block`. -/
def reserveIndirectBlock (len : ℤ) (s : σ) : Except Stop σ := do
  let (ok, s) ← c.reserveOobBlocks s
  orError "failed to reserve oob block" ok
  let (ok, s) ← c.advanceBlocks s len
  orError "failed to advance %d blocks" ok
  .ok s

/-- The loop of `reserve_dindirect_block` and `reserve_tindirect_block`; `per` is
what one block of the level below leads to, and `reserve` reserves such a block.
The fuel is `len`: a round takes at least one block, unless `per` is `0`. -/
def reserveLoop (per : ℤ) (reserve : ℤ → σ → Except Stop σ) : ℕ → ℤ → σ → Except Stop σ
  | 0, len, s => if len ≤ 0 then .ok s else .error .hang
  | fuel + 1, len, s =>
      if len ≤ 0 then .ok s
      else do
        let s ← reserve (min per len) s
        reserveLoop per reserve fuel (len - min per len) s

/-- What `reserve_dindirect_block` and `reserve_tindirect_block` have in common. -/
def reserveLevel (per : ℤ) (reserve : ℤ → σ → Except Stop σ) (len : ℤ) (s : σ) :
    Except Stop σ := do
  let (ok, s) ← c.reserveOobBlocks s
  orError "failed to reserve oob block" ok
  reserveLoop per reserve len.toNat len s

/-- `reserve_dindirect_block`. -/
def reserveDindirectBlock (aux : FsAuxInfo) : ℤ → σ → Except Stop σ :=
  c.reserveLevel (s32 aux.blocksPerInd) c.reserveIndirectBlock

/-- `reserve_tindirect_block`. -/
def reserveTindirectBlock (aux : FsAuxInfo) : ℤ → σ → Except Stop σ :=
  c.reserveLevel (s32 aux.blocksPerDind) (c.reserveDindirectBlock aux)

/-- `reserve_all_indirect_blocks`.  Whether the first step gets there is not
looked at. -/
def reserveAllIndirectBlocks (aux : FsAuxInfo) (len : ℕ) (s : σ) : Except Stop σ :=
  if len ≤ EXT4_NDIR_BLOCKS then .ok s
  else do
    let len := len - EXT4_NDIR_BLOCKS
    let (_, s) ← c.advanceBlocks s EXT4_NDIR_BLOCKS
    let indBlockLen := min aux.blocksPerInd len
    let s ← c.reserveIndirectBlock (s32 indBlockLen) s
    let len := len - indBlockLen
    if len = 0 then .ok s
    else do
      let dindBlockLen := min aux.blocksPerDind len
      let s ← c.reserveDindirectBlock aux (s32 dindBlockLen) s
      let len := len - dindBlockLen
      if len = 0 then .ok s
      else do
        let tindBlockLen := min aux.blocksPerTind len
        let s ← c.reserveTindirectBlock aux (s32 tindBlockLen) s
        if len - tindBlockLen = 0 then .ok s
        else .error (.error "%d blocks remaining")

end ReserveCalls

/-- The calls on an allocation and the regions of its lists. -/
def allocationCalls : ReserveCalls (BlockAllocation × RegionHeap) where
  reserveOobBlocks := fun (alloc, h) => reserveOobBlocks alloc 1 h
  advanceBlocks := fun (alloc, h) len => do
    let (ok, alloc) ← advanceBlocks alloc len h
    .ok (ok, (alloc, h))

/-- `reserve_all_indirect_blocks` on an allocation. -/
def reserveAllIndirectBlocks (aux : FsAuxInfo) (alloc : BlockAllocation) (len : ℕ)
    (h : RegionHeap) : Except Stop (BlockAllocation × RegionHeap) :=
  allocationCalls.reserveAllIndirectBlocks aux len (alloc, h)

/-! ## Handing the blocks out -/

/-- The loop of `fill_indirect_block` and of `inode_attach_direct_blocks`, from
index `i` on, over the array at `off` of an object that ends at `limit`. -/
def fillLoop (h : RegionHeap) (alloc : BlockAllocation) (off limit : ℕ) :
    ℕ → ℕ → Mem → Except Stop Mem
  | 0, _, m => .ok m
  | left + 1, i, m => do
      let block ← getBlock alloc i h
      if limit < off + 4 * i + 4 then .error .undefined
      else fillLoop h alloc off limit left (i + 1) (m.store (off + 4 * i) 4 block)

/-- A block of zeros that is queued to be written at `block`. -/
def queueBlock (blockSize block : ℕ) (s : State) : ℕ × State :=
  let (id, s) := s.calloc blockSize
  (id, s.addChunk (.buffer id 0) blockSize block)

/-- `fill_indirect_block` on the buffer `id`. -/
def fillIndirectBlock (blockSize : ℕ) (id : ℕ) (len : ℤ) (alloc : BlockAllocation) (s : State) :
    Except Stop (BlockAllocation × State) := do
  let bytes ← fillLoop s.regions alloc 0 blockSize len.toNat 0 (s.out.buffers id).bytes
  .ok (alloc, s.setBuffer id bytes)

/-- The loop of `fill_dindirect_block` and `fill_tindirect_block` on the buffer
`id`, from index `i` on; `fill` fills in a block of the level below. -/
def fillLevelLoop (blockSize : ℕ) (per : ℤ)
    (fill : ℕ → ℤ → BlockAllocation → State → Except Stop (BlockAllocation × State)) (id : ℕ) :
    ℕ → ℕ → ℤ → BlockAllocation → State → Except Stop (BlockAllocation × State)
  | 0, _, len, alloc, s => if len ≤ 0 then .ok (alloc, s) else .error .hang
  | fuel + 1, i, len, alloc, s =>
      if len ≤ 0 then .ok (alloc, s)
      else do
        let block ← getOobBlock alloc 0 s.regions
        let (ok, alloc) ← advanceOobBlocks alloc 1 s.regions
        orError "failed to reserve oob block" ok
        if blockSize < 4 * i + 4 then .error .undefined
        else do
          let s := s.setBuffer id ((s.out.buffers id).bytes.store (4 * i) 4 block)
          let (next, s) := queueBlock blockSize block s
          let (alloc, s) ← fill next (min per len) alloc s
          fillLevelLoop blockSize per fill id fuel (i + 1) (len - min per len) alloc s

/-- One round of `fill_dindirect_block` fills an indirect block and moves on. -/
def fillAndAdvance (blockSize : ℕ) (id : ℕ) (len : ℤ) (alloc : BlockAllocation) (s : State) :
    Except Stop (BlockAllocation × State) := do
  let (alloc, s) ← fillIndirectBlock blockSize id len alloc s
  let (ok, alloc) ← advanceBlocks alloc len s.regions
  orError "failed to advance %d blocks" ok
  .ok (alloc, s)

/-- `fill_dindirect_block` on the buffer `id`. -/
def fillDindirectBlock (g : Geometry) (id : ℕ) (len : ℤ) (alloc : BlockAllocation) (s : State) :
    Except Stop (BlockAllocation × State) :=
  fillLevelLoop g.info.blockSize (s32 g.aux.blocksPerInd) (fillAndAdvance g.info.blockSize) id
    len.toNat 0 len alloc s

/-- `fill_tindirect_block` on the buffer `id`. -/
def fillTindirectBlock (g : Geometry) (id : ℕ) (len : ℤ) (alloc : BlockAllocation) (s : State) :
    Except Stop (BlockAllocation × State) :=
  fillLevelLoop g.info.blockSize (s32 g.aux.blocksPerDind) (fillDindirectBlock g) id
    len.toNat 0 len alloc s

/-- `inode_attach_direct_blocks` for the inode at `base`: the inode table, the
allocation and the number of blocks that are left. -/
def inodeAttachDirectBlocks (m : Mem) (base : ℕ) (alloc : BlockAllocation) (blockLen : ℕ)
    (h : RegionHeap) : Except Stop (Mem × BlockAllocation × ℕ) := do
  let len := min blockLen EXT4_NDIR_BLOCKS
  let m ← fillLoop h alloc (base + Inode.iBlockOffset) (base + Inode.iBlockOffset + 60) len 0 m
  let (ok, alloc) ← advanceBlocks alloc len h
  orError "failed to advance %d blocks" ok
  .ok (m, alloc, blockLen - len)

/-- What the other three attaching functions have in common: a pointer block is
entered in `i_block[slot]` and filled with what leads to `per` blocks at most. -/
def inodeAttachLevel (blockSize slot per : ℕ)
    (fill : ℕ → ℤ → BlockAllocation → State → Except Stop (BlockAllocation × State))
    (m : Mem) (base : ℕ) (alloc : BlockAllocation) (blockLen : ℕ) (s : State) :
    Except Stop (Mem × BlockAllocation × ℕ × State) := do
  let len := s32 (min blockLen per)
  let block ← getOobBlock alloc 0 s.regions
  let m := ((Inode.iBlock slot).at_ base).set m block
  let (ok, alloc) ← advanceOobBlocks alloc 1 s.regions
  orError "failed to advance oob block" ok
  let (id, s) := queueBlock blockSize block s
  let (alloc, s) ← fill id len alloc s
  let (ok, alloc) ← advanceBlocks alloc len s.regions
  orError "failed to advance %d blocks" ok
  .ok (m, alloc, toU32 (blockLen - len), s)

/-- `inode_attach_indirect_blocks`. -/
def inodeAttachIndirectBlocks (g : Geometry) :
    Mem → ℕ → BlockAllocation → ℕ → State → Except Stop (Mem × BlockAllocation × ℕ × State) :=
  inodeAttachLevel g.info.blockSize EXT4_IND_BLOCK g.aux.blocksPerInd
    (fillIndirectBlock g.info.blockSize)

/-- `inode_attach_dindirect_blocks`.  What has been filled in is advanced over a
second time. -/
def inodeAttachDindirectBlocks (g : Geometry) :
    Mem → ℕ → BlockAllocation → ℕ → State → Except Stop (Mem × BlockAllocation × ℕ × State) :=
  inodeAttachLevel g.info.blockSize EXT4_DIND_BLOCK g.aux.blocksPerDind (fillDindirectBlock g)

/-- `inode_attach_tindirect_blocks`. -/
def inodeAttachTindirectBlocks (g : Geometry) :
    Mem → ℕ → BlockAllocation → ℕ → State → Except Stop (Mem × BlockAllocation × ℕ × State) :=
  inodeAttachLevel g.info.blockSize EXT4_TIND_BLOCK g.aux.blocksPerTind (fillTindirectBlock g)

/-- `if (count > 0)` before an attaching function. -/
def attachIf (attach : Mem → ℕ → BlockAllocation → ℕ → State →
      Except Stop (Mem × BlockAllocation × ℕ × State))
    (m : Mem) (base : ℕ) (alloc : BlockAllocation) (count : ℕ) (s : State) :
    Except Stop (Mem × BlockAllocation × ℕ × State) :=
  if count > 0 then attach m base alloc count s else .ok (m, alloc, count, s)

/-- `do_inode_attach_indirect`. -/
def doInodeAttachIndirect (g : Geometry) (m : Mem) (base : ℕ) (alloc : BlockAllocation)
    (blockLen : ℕ) (s : State) : Except Stop (Mem × BlockAllocation × State) := do
  let (m, alloc, count) ← inodeAttachDirectBlocks m base alloc blockLen s.regions
  let (m, alloc, count, s) ← attachIf (inodeAttachIndirectBlocks g) m base alloc count s
  let (m, alloc, count, s) ← attachIf (inodeAttachDindirectBlocks g) m base alloc count s
  let (m, alloc, count, s) ← attachIf (inodeAttachTindirectBlocks g) m base alloc count s
  if count > 0 then .error (.error "blocks left after triply-indirect allocation")
  else .ok (m, rewindAlloc alloc, s)

/-! ## The whole call -/

/-- `DIV_ROUND_UP` with a divisor that may be zero. -/
def divRoundUpBy (x y : ℕ) : Except Stop ℕ :=
  if y = 0 then .error .undefined else .ok (divRoundUp32 x y)

/-- `indirect_blocks_needed`. -/
def indirectBlocksNeeded (aux : FsAuxInfo) (len : ℕ) : Except Stop ℕ :=
  if len ≤ EXT4_NDIR_BLOCKS then .ok 0
  else do
    let len := len - EXT4_NDIR_BLOCKS
    let ind ← divRoundUpBy len aux.blocksPerInd
    if len ≤ aux.blocksPerInd then .ok ind
    else do
      let len := len - aux.blocksPerInd
      let dind ← divRoundUpBy len aux.blocksPerDind
      if len ≤ aux.blocksPerDind then .ok (u32 (ind + dind))
      else do
        let len := len - aux.blocksPerDind
        let tind ← divRoundUpBy len aux.blocksPerTind
        if len ≤ aux.blocksPerTind then .ok (u32 (ind + dind + tind))
        else .error (.criticalError "request too large")

/-- `do_inode_allocate_indirect`. -/
def doInodeAllocateIndirect (g : Geometry) (blockLen : ℕ) (s : State) :
    Except Stop (BlockAllocation × State) := do
  let indirectLen ← indirectBlocksNeeded g.aux blockLen
  let (alloc, s) ← allocateBlocks g (u32 (blockLen + indirectLen)) s
  match alloc with
  | none => .error (.error "Failed to allocate %d blocks")
  | some alloc => .ok (alloc, s)

/-- The assignments to the inode at `base` that end `inode_allocate_indirect`. -/
def finishIndirect (blockSize : ℕ) (m : Mem) (base len blockLen indirectLen : ℕ) : Mem :=
  m.assign [
    (Inode.iFlags.at_ base, 0),
    (Inode.iBlocksLo.at_ base, u32 (u32 (blockLen + indirectLen) * blockSize) / 512),
    (Inode.iSizeLo.at_ base, len)]

/-- `inode_allocate_indirect` for the inode at `base` of the inode table `m`. -/
def inodeAllocateIndirect (g : Geometry) (m : Mem) (base len : ℕ) (s : State) :
    Except Stop (Mem × State) := do
  let blockLen := writtenBlocks g len
  let indirectLen ← indirectBlocksNeeded g.aux blockLen
  let (alloc, s) ← doInodeAllocateIndirect g blockLen s
  let (alloc, regions) ← reserveAllIndirectBlocks g.aux alloc blockLen s.regions
  let (m, alloc, s) ← doInodeAttachIndirect g m base (rewindAlloc alloc) blockLen
    { s with regions := regions }
  let regions ← freeAlloc alloc s.regions
  .ok (finishIndirect g.info.blockSize m base len blockLen indirectLen,
    { s with regions := regions })

end SystemExtras.Ext4
