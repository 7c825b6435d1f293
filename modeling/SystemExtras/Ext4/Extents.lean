import SystemExtras.Ext4.AllocatorRuns
import SystemExtras.Ext4.ExtentFormat

/-!
# The extent writer

A translation of `extent.c`.  A file's blocks are allocated one too many; an
allocation of at most three regions is cut by one block and described in the
inode itself, a longer one gives its first block to a leaf that holds the
extents.
-/

namespace SystemExtras.Ext4

/-- The assignments to an extent header. -/
def writeHeader (m : Mem) (off entries max depth : ℕ) : Mem :=
  m.assign [
    (ExtentHeader.ehMagic.at_ off, EXT4_EXT_MAGIC),
    (ExtentHeader.ehEntries.at_ off, entries),
    (ExtentHeader.ehMax.at_ off, max),
    (ExtentHeader.ehGeneration.at_ off, 0),
    (ExtentHeader.ehDepth.at_ off, depth)]

/-- The assignments to one extent. -/
def writeExtent (m : Mem) (off fileBlock len block : ℕ) : Mem :=
  m.assign [
    (Extent.eeBlock.at_ off, fileBlock),
    (Extent.eeLen.at_ off, len),
    (Extent.eeStartHi.at_ off, 0),
    (Extent.eeStartLo.at_ off, block)]

/-- The loop of `do_inode_allocate_extents`, writing from `off` on into an object
that ends at `limit`. -/
def writeExtents (h : RegionHeap) (limit : ℕ) :
    ℕ → BlockAllocation → Mem → ℕ → ℕ → Except Stop (BlockAllocation × Mem)
  | 0, alloc, m, _, _ => if lastRegion alloc then .ok (alloc, m) else .error .hang
  | fuel + 1, alloc, m, off, fileBlock =>
      if lastRegion alloc then .ok (alloc, m)
      else do
        let (block, len) ← getRegion alloc h
        if limit < off + sizeofExtent then .error .undefined
        else do
          let next ← getNextRegion alloc h
          writeExtents h limit fuel next (writeExtent m off fileBlock len block)
            (off + sizeofExtent) (u32 (fileBlock + len))

/-- The assignments to the inode at `base` that end `do_inode_allocate_extents`;
`blockLen` counts the blocks that belong to the inode. -/
def finishInode (blockSize : ℕ) (m : Mem) (base len blockLen : ℕ) : Mem :=
  let blocks := blockLen * blockSize / 512
  m.assign [
    (Inode.iFlags.at_ base, (Inode.iFlags.at_ base).get m ||| EXT4_EXTENTS_FL),
    (Inode.iSizeLo.at_ base, len),
    (Inode.iSizeHigh.at_ base, len / 2 ^ 32),
    (Inode.iBlocksLo.at_ base, blocks),
    (Inode.iBlocksHigh.at_ base, blocks / 2 ^ 32)]

/-- The allocation is cut to size: by one block, or by a leaf block at its front.
The result begins with the leaf block, or `0`. -/
def cutAllocation (g : Geometry) (allocationLen : ℕ) (alloc : BlockAllocation) (s : State) :
    Except Stop (ℕ × BlockAllocation × State) :=
  if allocationLen ≤ 3 then do
    let (alloc, s) ← reduceAllocation g alloc 1 s
    .ok (0, alloc, s)
  else do
    let (_, alloc, regions) ← reserveOobBlocks alloc 1 s.regions
    let extentBlock ← getOobBlock alloc 0 regions
    .ok (extentBlock, alloc, { s with regions := regions })

/-- The extents are written into the inode at `base`. -/
def writeInline (allocationLen : ℕ) (alloc : BlockAllocation) (m : Mem) (base : ℕ) (s : State) :
    Except Stop (BlockAllocation × Mem) :=
  let hdr := base + Inode.iBlockOffset
  writeExtents s.regions (hdr + 60) (s.regions.brk + 1) alloc
    (writeHeader m hdr allocationLen 3 0) (hdr + sizeofExtent) 0

/-- The inode at `base` points to the leaf. -/
def writeIndex (m : Mem) (base extentBlock : ℕ) : Mem :=
  let hdr := base + Inode.iBlockOffset
  let idx := hdr + sizeofExtent
  (writeHeader m hdr 1 3 1).assign [
    (ExtentIdx.eiBlock.at_ idx, 0),
    (ExtentIdx.eiLeafLo.at_ idx, extentBlock),
    (ExtentIdx.eiLeafHi.at_ idx, 0),
    (ExtentIdx.eiUnused.at_ idx, 0)]

/-- The extents are written into a leaf.  The test for too many of them compares
with `block_size - 1`, because the division binds first. -/
def writeLeaf (blockSize allocationLen extentBlock : ℕ) (alloc : BlockAllocation) (s : State) :
    Except Stop (BlockAllocation × State) := do
  let (id, s) := s.calloc blockSize
  let s := s.addChunk (.buffer id 0) blockSize extentBlock
  if s32 (blockSize - sizeofExtent / sizeofExtent) < allocationLen then
    .error (.error "File size %llu is too big to fit in a single extent block\n")
  else do
    let data := writeHeader Mem.zero 0 allocationLen ((blockSize - sizeofExtent) / sizeofExtent) 0
    let (alloc, data) ← writeExtents s.regions blockSize (s.regions.brk + 1) alloc data
      sizeofExtent 0
    .ok (alloc, s.setBuffer id data)

/-- `do_inode_allocate_extents` for the inode at `base` of the inode table `m`:
the allocation, the new table and the new state. -/
def doInodeAllocateExtents (g : Geometry) (m : Mem) (base len : ℕ) (s : State) :
    Except Stop (BlockAllocation × Mem × State) := do
  let blockLen := u32 (divRoundUp64 len g.info.blockSize)
  let (alloc, s) ← allocateBlocks g (u32 (blockLen + 1)) s
  match alloc with
  | none => .error (.error "Failed to allocate %d blocks\n")
  | some alloc => do
      let allocationLen ← blockAllocationNumRegions alloc s.regions
      let (extentBlock, alloc, s) ← cutAllocation g allocationLen alloc s
      if extentBlock = 0 then do
        let (alloc, m) ← writeInline allocationLen alloc m base s
        .ok (rewindAlloc alloc, finishInode g.info.blockSize m base len blockLen, s)
      else do
        let m := writeIndex m base extentBlock
        let (alloc, s) ← writeLeaf g.info.blockSize allocationLen extentBlock alloc s
        .ok (rewindAlloc alloc, finishInode g.info.blockSize m base len (u32 (blockLen + 1)), s)

/-- The loop of `extent_create_backing_file`. -/
def backingFileLoop (blockSize : ℕ) (filename : List UInt8) :
    ℕ → BlockAllocation → ℕ → ℕ → State → Except Stop State
  | 0, _, _, backingLen, s => if backingLen = 0 then .ok s else .error .hang
  | fuel + 1, alloc, offset, backingLen, s =>
      if backingLen = 0 then .ok s
      else do
        let (block, regionLen) ← getRegion alloc s.regions
        let len := min (u32 (regionLen * blockSize)) backingLen
        let s := s.addChunk (.file filename offset) len block
        let alloc ← getNextRegion alloc s.regions
        backingFileLoop blockSize filename fuel alloc (offset + len) (backingLen - len) s

/-- `extent_create_backing_file`.  Every round moves on to another region, and to
follow the last one is undefined. -/
def extentCreateBackingFile (g : Geometry) (alloc : BlockAllocation) (backingLen : ℕ)
    (filename : List UInt8) (s : State) : Except Stop State :=
  backingFileLoop g.info.blockSize filename (s.regions.brk + 1) alloc 0 backingLen s

/-! ## What the writer leaves in memory -/

theorem writeHeader_apply {m : Mem} {off entries max depth x : ℕ}
    (h : x < off ∨ off + sizeofExtent ≤ x) : writeHeader m off entries max depth x = m x := by
  unfold sizeofExtent at h
  apply Mem.assign_apply_of_not_mem
  simp only [List.forall_mem_cons, List.not_mem_nil, false_implies, implies_true, and_true,
    Field.at_, ExtentHeader.ehMagic, ExtentHeader.ehEntries, ExtentHeader.ehMax,
    ExtentHeader.ehGeneration, ExtentHeader.ehDepth]
  omega

theorem writeExtent_apply {m : Mem} {off fileBlock len block x : ℕ}
    (h : x < off ∨ off + sizeofExtent ≤ x) : writeExtent m off fileBlock len block x = m x := by
  unfold sizeofExtent at h
  apply Mem.assign_apply_of_not_mem
  simp only [List.forall_mem_cons, List.not_mem_nil, false_implies, implies_true, and_true,
    Field.at_, Extent.eeBlock, Extent.eeLen, Extent.eeStartHi, Extent.eeStartLo]
  omega

/-- The fields of a header that has been written. -/
structure HeaderAt (m : Mem) (off entries depth : ℕ) : Prop where
  magic : (ExtentHeader.ehMagic.at_ off).get m = EXT4_EXT_MAGIC
  entries : (ExtentHeader.ehEntries.at_ off).get m = entries
  depth : (ExtentHeader.ehDepth.at_ off).get m = depth

/-- No two of the assignments to a header meet. -/
theorem writeHeader_disjoint (off entries max depth : ℕ) : ([
    (ExtentHeader.ehMagic.at_ off, EXT4_EXT_MAGIC),
    (ExtentHeader.ehEntries.at_ off, entries),
    (ExtentHeader.ehMax.at_ off, max),
    (ExtentHeader.ehGeneration.at_ off, 0),
    (ExtentHeader.ehDepth.at_ off, depth)].map Prod.fst).Pairwise Field.Disjoint := by
  simp [Field.Disjoint, Field.at_, ExtentHeader.ehMagic, ExtentHeader.ehEntries,
    ExtentHeader.ehMax, ExtentHeader.ehGeneration, ExtentHeader.ehDepth]

theorem headerAt_writeHeader (m : Mem) (off entries max depth : ℕ) (he : entries < 2 ^ 16)
    (hd : depth < 2 ^ 16) : HeaderAt (writeHeader m off entries max depth) off entries depth := by
  have hdisjoint := writeHeader_disjoint off entries max depth
  refine ⟨?_, ?_, ?_⟩
  · exact Field.get_assign hdisjoint 0 rfl m
  · exact (Field.get_assign hdisjoint 1 rfl m).trans (Nat.mod_eq_of_lt he)
  · exact (Field.get_assign hdisjoint 4 rfl m).trans (Nat.mod_eq_of_lt hd)

theorem HeaderAt.congr {m m' : Mem} {off entries depth : ℕ} (h : HeaderAt m off entries depth)
    (hsame : m.SameOn m' off (off + sizeofExtent)) : HeaderAt m' off entries depth := by
  have hget : ∀ f : Field, f.offset + f.width ≤ sizeofExtent →
      (f.at_ off).get m' = (f.at_ off).get m := by
    intro f hf
    refine Field.get_congr hsame.symm (Nat.le_add_right _ _) ?_
    show off + f.offset + f.width ≤ _
    omega
  refine ⟨?_, ?_, ?_⟩
  · rw [hget _ (by decide), h.magic]
  · rw [hget _ (by decide), h.entries]
  · rw [hget _ (by decide), h.depth]

theorem extentAt_writeExtent (m : Mem) (off : ℕ) {fileBlock len block : ℕ}
    (hf : fileBlock < 2 ^ 32) (hl : len < 2 ^ 16) (hb : block < 2 ^ 32) :
    extentAt (writeExtent m off fileBlock len block) off = (fileBlock, len, block) := by
  have hdisjoint : ([
      (Extent.eeBlock.at_ off, fileBlock),
      (Extent.eeLen.at_ off, len),
      (Extent.eeStartHi.at_ off, 0),
      (Extent.eeStartLo.at_ off, block)].map Prod.fst).Pairwise Field.Disjoint := by
    simp [Field.Disjoint, Field.at_, Extent.eeBlock, Extent.eeLen, Extent.eeStartHi,
      Extent.eeStartLo]
  have h₀ := (Field.get_assign hdisjoint 0 rfl m).trans (Nat.mod_eq_of_lt hf)
  have h₁ := (Field.get_assign hdisjoint 1 rfl m).trans (Nat.mod_eq_of_lt hl)
  have h₂ := Field.get_assign hdisjoint 2 rfl m
  have h₃ := (Field.get_assign hdisjoint 3 rfl m).trans (Nat.mod_eq_of_lt hb)
  unfold extentAt writeExtent
  rw [h₀, h₁, h₂, h₃]
  simp

/-- The loop moves through the list without changing where it starts. -/
theorem writeExtents_first {h : RegionHeap} {limit : ℕ} {alloc' : BlockAllocation} {m' : Mem}
    (fuel : ℕ) : ∀ {alloc : BlockAllocation} {m : Mem} {off fileBlock : ℕ},
      writeExtents h limit fuel alloc m off fileBlock = .ok (alloc', m') →
      alloc'.list.first = alloc.list.first ∧ alloc'.oobList = alloc.oobList := by
  induction fuel with
  | zero =>
      intro alloc m off fileBlock hrun
      unfold writeExtents at hrun
      split at hrun
      · cases hrun
        exact ⟨rfl, rfl⟩
      · cases hrun
  | succ fuel ih =>
      intro alloc m off fileBlock hrun
      unfold writeExtents at hrun
      split at hrun
      · cases hrun
        exact ⟨rfl, rfl⟩
      · rw [bind_eq_ok] at hrun
        obtain ⟨⟨block, len⟩, -, hrun⟩ := hrun
        simp only at hrun
        split at hrun
        · cases hrun
        · rw [bind_eq_ok] at hrun
          obtain ⟨next, hnext, hrun⟩ := hrun
          have hkeep := ih hrun
          unfold getNextRegion at hnext
          rw [bind_eq_ok] at hnext
          obtain ⟨r, -, hnext⟩ := hnext
          cases hnext
          exact hkeep

/-- The loop writes the extents of the regions that are left, and nothing else. -/
theorem writeExtents_cases {h : RegionHeap} {limit : ℕ} {alloc' : BlockAllocation} {m' : Mem}
    {ns : List (ℕ × Piece)} : ∀ {fuel : ℕ} {alloc : BlockAllocation} {m : Mem} {off fileBlock : ℕ},
      Listed h ns → alloc.list.iter = headAddr ns → alloc.list.partialIter = 0 →
      (∀ n ∈ ns, n.2.len < 2 ^ 16 ∧ n.2.block < 2 ^ 32) →
      fileBlock + lenOf (ns.map Prod.snd) < 2 ^ 32 →
      writeExtents h limit fuel alloc m off fileBlock = .ok (alloc', m') →
      ExtentsAt m' off fileBlock (ns.map Prod.snd) ∧
        (∀ x, x < off ∨ off + sizeofExtent * ns.length ≤ x → m' x = m x) ∧
        (ns ≠ [] → off + sizeofExtent * ns.length ≤ limit) := by
  induction ns with
  | nil =>
      intro fuel alloc m off fileBlock _ hiter _ _ _ hrun
      have hlast : lastRegion alloc = true := by
        unfold lastRegion
        rw [hiter]
        rfl
      have heq : (alloc, m) = (alloc', m') := by
        cases fuel <;> simpa [writeExtents, hlast] using hrun
      cases heq
      exact ⟨trivial, fun _ _ => rfl, by simp⟩
  | cons n rest ih =>
      intro fuel alloc m off fileBlock hlist hiter hpartial hsmall hlt hrun
      have hlast : lastRegion alloc = false := by
        unfold lastRegion
        rw [hiter]
        rfl
      cases fuel with
      | zero => simp [writeExtents, hlast] at hrun
      | succ fuel =>
          obtain ⟨prev, hderef⟩ := hlist.deref
          obtain ⟨hlen, hblock⟩ := hsmall n List.mem_cons_self
          have hiter' : alloc.list.iter = some n.1 := hiter
          rw [List.map_cons, lenOf_cons] at hlt
          have hregion : getRegion alloc h = .ok (n.2.block, n.2.len) := by
            unfold getRegion
            rw [hiter', hderef, bind_ok, hpartial]
            simp only [Piece.region]
            rw [sub32_of_le (Nat.zero_le _) (by omega), Nat.sub_zero]
          have hnext : getNextRegion alloc h = .ok { alloc with
              list := { alloc.list with iter := headAddr rest, partialIter := 0 } } := by
            unfold getNextRegion
            rw [hiter', hderef, bind_ok]
            rfl
          rw [writeExtents, hlast, hregion, bind_ok] at hrun
          simp only [Bool.false_eq_true, if_false] at hrun
          by_cases hfits : limit < off + sizeofExtent
          · simp [hfits] at hrun
          · rw [if_neg hfits, hnext, bind_ok, u32_of_lt (by omega)] at hrun
            obtain ⟨hext, hframe, hlimit⟩ := ih hlist.2 rfl rfl
              (fun q hq => hsmall q (List.mem_cons_of_mem _ hq)) (by omega) hrun
            refine ⟨⟨?_, hext⟩, ?_, ?_⟩
            · rw [← extentAt_writeExtent m off (by omega : fileBlock < 2 ^ 32) hlen hblock]
              refine extentAt_congr fun x h₁ h₂ => ?_
              exact hframe x (Or.inl h₂)
            · intro x hx
              rw [List.length_cons] at hx
              rw [hframe x (by unfold sizeofExtent at *; omega)]
              exact writeExtent_apply (by unfold sizeofExtent at *; omega)
            · intro _
              rw [List.length_cons]
              rcases rest.eq_nil_or_concat with rfl | ⟨l, b, hconcat⟩
              · unfold sizeofExtent at *
                simp
                omega
              · have := hlimit (by rw [hconcat]; simp)
                unfold sizeofExtent at *
                omega

/-- The last assignments leave `i_block` alone. -/
theorem finishInode_sameOn (blockSize : ℕ) (m : Mem) (base len blockLen : ℕ) :
    m.SameOn (finishInode blockSize m base len blockLen) (base + Inode.iBlockOffset)
      (base + Inode.iBlockOffset + 60) := by
  intro x h₁ h₂
  unfold Inode.iBlockOffset at h₁ h₂
  unfold finishInode
  rw [Mem.assign_apply_of_not_mem]
  simp only [List.forall_mem_cons, List.not_mem_nil, false_implies, implies_true, and_true,
    Field.at_, Inode.iFlags, Inode.iSizeLo, Inode.iSizeHigh, Inode.iBlocksLo, Inode.iBlocksHigh]
  omega

end SystemExtras.Ext4
