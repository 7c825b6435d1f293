import SystemExtras.Ext4.Contents
import SystemExtras.Ext4.FixupChecksums
import SystemExtras.Ext4.Resize
import SystemExtras.Ext4.SuperblockCopies

/-!
# The superblock and the descriptors in memory

A translation of the rest of `ext4_fill_in_sb`, which fills in a descriptor for each
group and queues the copies, of `ext4_update_free`, which enters the free counts at
the end, and of `ext4_queue_sb`.

The copies go to blocks that `init_bg` took for them.  These are `spare` while the
rest is built (`does_queueSpare`), and no block of them is queued twice.
-/

namespace SystemExtras.Ext4

open Mem

/-! ## The code -/

/-- `aux_info.sb`, `aux_info.bg_desc` and `aux_info.backup_sb`. -/
structure Supers where
  sb : Mem
  bgDesc : Mem
  backupSb : ℕ → Mem

section Code

variable (g : Geometry)

/-- The descriptor of group `i` as `ext4_fill_in_sb` leaves it. -/
def fillInDesc (sb bgDesc : Mem) (i : ℕ) : Mem :=
  let start := groupStartBlock g.info g.aux i
  let headerSize := if g.hasSuperBlock i then u32 g.superBlocks else 0
  bgDesc.assign [
    (Fixup.descField GroupDesc.bgBlockBitmap i, start + headerSize),
    (Fixup.descField GroupDesc.bgInodeBitmap i, start + headerSize + 1),
    (Fixup.descField GroupDesc.bgInodeTable i, start + headerSize + 2),
    (Fixup.descField GroupDesc.bgFreeBlocksCount i, Sb.blocksPerGroup.get sb),
    (Fixup.descField GroupDesc.bgFreeInodesCount i, Sb.inodesPerGroup.get sb),
    (Fixup.descField GroupDesc.bgUsedDirsCount i, 0)]

/-- One round of the last loop of `ext4_fill_in_sb`. -/
def fillInGroup (i : ℕ) (m : Supers) (s : State) : Supers × State :=
  let start := groupStartBlock g.info g.aux i
  let bgDesc := fillInDesc g m.sb m.bgDesc i
  if g.hasSuperBlock i then
    let (backupSb, s) := if i ≠ 0 then
        (Function.update m.backupSb i (Sb.blockGroupNr.set m.sb i),
          s.addChunk (.backupSuperBlock i) g.info.blockSize (u32 start))
      else (m.backupSb, s)
    (⟨m.sb, bgDesc, backupSb⟩,
      s.addChunk .groupDescs (u32 (g.aux.bgDescBlocks * g.info.blockSize)) (u32 (start + 1)))
  else (⟨m.sb, bgDesc, m.backupSb⟩, s)

/-- The last loop of `ext4_fill_in_sb`, from group `i` on. -/
def fillInGroups : ℕ → ℕ → Supers → State → Supers × State
  | 0, _, m, s => (m, s)
  | left + 1, i, m, s =>
      let (m, s) := fillInGroup g i m s
      fillInGroups left (i + 1) m s

/-- `ext4_fill_in_sb`. -/
def fillInSb (uuid : Mem) (s : State) : Supers × State :=
  fillInGroups g g.aux.groups 0 ⟨ext4FillInSb uuid g.info g.aux, Mem.zero, fun _ => Mem.zero⟩ s

/-- `get_free_blocks`. -/
def getFreeBlocks (bg : ℕ) (s : State) : ℕ := (s.bgs bg).freeBlocks

/-- One round of `ext4_update_free`. -/
def updateFreeGroup (s : State) (i : ℕ) (m : Supers) : Supers :=
  let bgDesc := m.bgDesc.assign [
    (Fixup.descField GroupDesc.bgFreeBlocksCount i, getFreeBlocks i s),
    (Fixup.descField GroupDesc.bgFreeInodesCount i, getFreeInodes i s),
    (Fixup.descField GroupDesc.bgUsedDirsCount i,
      (Fixup.descField GroupDesc.bgUsedDirsCount i).get m.bgDesc + getDirectories i s),
    (Fixup.descField GroupDesc.bgFlags i, getBgFlags i s)]
  let sb := m.sb.assign [
    (Sb.freeBlocksCountLo, Sb.freeBlocksCountLo.get m.sb + getFreeBlocks i s),
    (Sb.freeInodesCount, Sb.freeInodesCount.get m.sb + getFreeInodes i s)]
  let crc := descChecksum (sb.bytes Sb.uuid 16) i
    (bgDesc.bytes (sizeofGroupDesc * i) GroupDesc.bgChecksum.offset)
  ⟨sb, (Fixup.descField GroupDesc.bgChecksum i).set bgDesc crc.toNat, m.backupSb⟩

/-- The loop of `ext4_update_free`, from group `i` on. -/
def updateFreeLoop (s : State) : ℕ → ℕ → Supers → Supers
  | 0, _, m => m
  | left + 1, i, m => updateFreeLoop s left (i + 1) (updateFreeGroup s i m)

/-- `ext4_update_free`. -/
def ext4UpdateFree (s : State) (m : Supers) : Supers := updateFreeLoop s g.aux.groups 0 m

/-- `ext4_queue_sb`. -/
def ext4QueueSb (s : State) : State :=
  if 1024 < g.info.blockSize then s.addChunk .superBlock g.info.blockSize 0
  else s.addChunk .superBlock 1024 1

end Code

/-! ## Blocks that were kept -/

/-- Queues chunks. -/
def State.queue (s : State) (new : List Chunk) : State :=
  { s with out := { s.out with chunks := s.out.chunks ++ new } }

section Spare

variable {g : Geometry} {labels : Prop} {spare : Set ℕ} {s s' : State} {i b : ℕ}

theorem State.queue_queue (s : State) (new new' : List Chunk) :
    (s.queue new).queue new' = s.queue (new ++ new') := by
  simp [State.queue]

/-- What is queued for blocks that were kept for it. -/
theorem does_queueSpare (hg : g.Fits) (hb : g.Built) (hl : Laid g labels spare s) {new : List Chunk}
    (hbgs : s'.bgs = s.bgs) (hchunks : s'.out.chunks = s.out.chunks ++ new)
    (hbrk : s.out.brk ≤ s'.out.brk)
    (hbuffers : ∀ id < s.out.brk, s'.out.buffers id = s.out.buffers id)
    (hnodup : (chunkBlocks g.info.blockSize new).Nodup)
    (hspare : ∀ b ∈ chunkBlocks g.info.blockSize new, b ∈ spare)
    (hsuper : spare ⊆ g.superArea) (hsources : ∀ c ∈ new, c.Sourced g s'.out.brk) :
    Does g labels {b | b ∈ spare ∧ b ∉ chunkBlocks g.info.blockSize new} ∅ ∅ [] [] s s' := by
  have hsame : ∀ i < g.aux.groups, SameBlocks g (s.bgs i) (s'.bgs i) := by
    rw [hbgs]
    exact fun i _ => SameBlocks.refl _
  refine ⟨hl.of_sameBlocks hsame (by rw [hbgs]; exact hl.inodes) fun hq => ?_, ?_,
    .of_same (fun i => by rw [hbgs]) fun i => by rw [hbgs]⟩
  · refine hq.append hsame hchunks hbrk hnodup (fun b hmem => hmem.1) ?_ ?_ ?_ hsources
    · intro b hmem
      obtain ⟨i, hi, -, -, hheader⟩ := mem_header_of_superArea hb (hsuper (hspare b hmem))
      exact ⟨hl.mem_taken hi hheader, fun h => h.2 hmem, hq.spare_free b (hspare b hmem)⟩
    · rw [hbgs]
      exact fun i hi hnone => ⟨hnone, fun b hmem hnew =>
        not_mem_superArea_of_tableChunk hg hb hi hmem (hsuper (hspare b hnew))⟩
    · rw [hbgs]
      exact fun i _ hsome => .inl hsome
  · refine ⟨?_, hbrk, fun id hid _ => hbuffers id hid, ?_, ?_, ?_⟩
    · rw [hchunks]
      exact List.subset_append_left _ _
    · unfold InUse
      rw [hbgs]
      exact fun n hn => hn
    · unfold SameInode State.table
      rw [hbgs]
      exact fun n _ _ => fun _ _ _ => rfl
    · unfold HasFreeBlock
      rw [hbgs]
      exact id

/-! ### The copies -/

/-- What `ext4_fill_in_sb` queues for group `i`. -/
def copyChunks (g : Geometry) (i : ℕ) : List Chunk :=
  if g.hasSuperBlock i then
    (if i ≠ 0 then [⟨.backupSuperBlock i, g.info.blockSize, g.start i⟩] else []) ++
      [⟨.groupDescs, g.aux.bgDescBlocks * g.info.blockSize, g.start i + 1⟩]
  else []

theorem Geometry.Usable.descBlocks_lt (hu : g.Usable) (hi : i < g.aux.groups)
    (hsuper : g.hasSuperBlock i = true) : g.start i + g.superBlocks < 2 ^ 32 ∧
      g.aux.bgDescBlocks * g.info.blockSize < 2 ^ 32 := by
  have hend := hu.roomy.fits.header_end_lt hi
  have hheader := hu.roomy.fits.header_le i hi
  have hsize := g.groupSize_le i
  have hbpg := hu.roomy.blocksPerGroup_le
  have hbs := hu.blockSize_le
  rw [hu.built.headerBlocks_split, if_pos hsuper] at hend hheader
  refine ⟨by omega, ?_⟩
  unfold Geometry.superBlocks at hheader
  have hmul := Nat.mul_le_mul (show g.aux.bgDescBlocks ≤ 8 * 4096 by omega) hbs
  omega

theorem groupStartBlock_eq (hg : g.Fits) (hi : i < g.aux.groups) :
    groupStartBlock g.info g.aux i = g.start i := by
  have hlt := (hg.start_lt hi).trans hg.lenBlocks_lt
  unfold Geometry.start at *
  unfold groupStartBlock
  rw [u32_of_lt (show i * g.info.blocksPerGroup < 2 ^ 32 by omega), u32_of_lt hlt]

theorem fillInGroup_eq (hu : g.Usable) (hi : i < g.aux.groups) (m : Supers) :
    fillInGroup g i m s = (⟨m.sb, fillInDesc g m.sb m.bgDesc i,
      if g.hasSuperBlock i ∧ i ≠ 0 then
        Function.update m.backupSb i (Sb.blockGroupNr.set m.sb i) else m.backupSb⟩,
      s.queue (copyChunks g i)) := by
  unfold fillInGroup copyChunks
  simp only
  by_cases hsuper : g.hasSuperBlock i = true
  · obtain ⟨hend, hlen⟩ := hu.descBlocks_lt hi hsuper
    unfold Geometry.superBlocks at hend
    rw [groupStartBlock_eq hu.roomy.fits hi, u32_of_lt (show g.start i < 2 ^ 32 by omega),
      u32_of_lt (show g.start i + 1 < 2 ^ 32 by omega), u32_of_lt hlen]
    by_cases hzero : i = 0
    · subst hzero
      simp [hsuper, State.addChunk, State.queue]
    · simp [hsuper, hzero, State.addChunk, State.queue]
  · simp [hsuper, State.queue]

theorem mem_copyChunks_blocks (hu : g.Usable) :
    b ∈ chunkBlocks g.info.blockSize (copyChunks g i) ↔ g.hasSuperBlock i = true ∧
      g.start i + (if i = 0 then 1 else 0) ≤ b ∧ b < g.start i + (1 + g.aux.bgDescBlocks) := by
  have hpos := hu.blockSize_pos
  have hone : g.info.blockSize ⌈/⌉ g.info.blockSize = 1 := by simpa using mul_ceilDiv_self hpos 1
  unfold copyChunks
  by_cases hsuper : g.hasSuperBlock i = true
  · rw [if_pos hsuper]
    by_cases hzero : i = 0
    · rw [if_neg (not_not.mpr hzero), if_pos hzero]
      simp only [hsuper, List.nil_append, chunkBlocks, List.flatMap_cons, List.flatMap_nil,
        List.append_nil, Chunk.mem_blocks, mul_ceilDiv_self hpos, true_and]
      omega
    · rw [if_pos hzero, if_neg hzero]
      simp only [hsuper, chunkBlocks, List.flatMap_append, List.flatMap_cons, List.flatMap_nil,
        List.append_nil, List.mem_append, Chunk.mem_blocks, mul_ceilDiv_self hpos, hone, true_and]
      omega
  · simp [hsuper, chunkBlocks]

theorem copyChunks_nodup (hu : g.Usable) :
    (chunkBlocks g.info.blockSize (copyChunks g i)).Nodup := by
  have hone : g.info.blockSize ⌈/⌉ g.info.blockSize = 1 := by
    simpa using mul_ceilDiv_self hu.blockSize_pos 1
  unfold copyChunks
  split
  · split
    · simp [chunkBlocks, Chunk.blocks, hone, List.nodup_range']
    · simp [chunkBlocks, Chunk.blocks, List.nodup_range']
  · exact List.nodup_nil

theorem mem_superArea_of_copyChunks (hu : g.Usable) (hi : i < g.aux.groups)
    (hmem : b ∈ chunkBlocks g.info.blockSize (copyChunks g i)) :
    b ∈ g.superArea ∧ g.start i ≤ b ∧ b < g.start i + g.headerBlocks i := by
  rw [mem_copyChunks_blocks hu] at hmem
  have hsplit := hu.built.headerBlocks_split i
  rw [if_pos hmem.1] at hsplit
  unfold Geometry.superBlocks at hsplit
  refine ⟨⟨i, hi, hmem.1, by omega, ?_⟩, by omega, by omega⟩
  unfold Geometry.superBlocks
  omega

/-- The chunks of all copies. -/
def allCopies (g : Geometry) : List Chunk := (List.range g.aux.groups).flatMap (copyChunks g)

theorem mem_allCopies_blocks : b ∈ chunkBlocks g.info.blockSize (allCopies g) ↔
    ∃ i < g.aux.groups, b ∈ chunkBlocks g.info.blockSize (copyChunks g i) := by
  simp only [allCopies, chunkBlocks, List.flatMap_assoc, List.mem_flatMap, List.mem_range]

theorem allCopies_nodup (hu : g.Usable) :
    (chunkBlocks g.info.blockSize (allCopies g)).Nodup := by
  unfold allCopies chunkBlocks
  rw [List.flatMap_assoc, List.nodup_flatMap]
  refine ⟨fun i _ => copyChunks_nodup hu, List.Pairwise.imp_of_mem ?_ List.nodup_range⟩
  intro i j hi hj hne b hbi hbj
  rw [List.mem_range] at hi hj
  exact hne (header_unique hu.roomy.fits hi hj (mem_superArea_of_copyChunks hu hi hbi).2
    (mem_superArea_of_copyChunks hu hj hbj).2)

/-- `ext4_fill_in_sb` queues the copies. -/
theorem fillInGroups_queue (hu : g.Usable) (left : ℕ) : ∀ {i : ℕ} {m : Supers} {s : State},
    i + left ≤ g.aux.groups →
      (fillInGroups g left i m s).2 = s.queue ((List.range' i left).flatMap (copyChunks g)) := by
  induction left with
  | zero =>
      intro i m s _
      simp [fillInGroups, State.queue]
  | succ left ih =>
      intro i m s hle
      rw [fillInGroups, fillInGroup_eq hu (by omega)]
      simp only
      rw [ih (by omega), State.queue_queue, List.range'_succ, List.flatMap_cons]

/-- The blocks that are left for the resize inode and the primary superblock. -/
def Geometry.spareArea (g : Geometry) : Set ℕ :=
  {b | b ∈ g.superArea ∧ b ∉ chunkBlocks g.info.blockSize (allCopies g)}

theorem fillInSb_queue (hu : g.Usable) (uuid : Mem) (s : State) :
    (fillInSb g uuid s).2 = s.queue (allCopies g) := by
  unfold fillInSb allCopies
  rw [fillInGroups_queue hu _ (by omega), List.range_eq_range']

theorem does_fillInSb (hu : g.Usable) (hl : Laid g labels g.superArea s) (uuid : Mem) :
    Does g labels g.spareArea ∅ ∅ [] [] s (fillInSb g uuid s).2 := by
  rw [fillInSb_queue hu]
  refine does_queueSpare hu.roomy.fits hu.built hl rfl rfl le_rfl (fun _ _ => rfl)
    (allCopies_nodup hu) ?_ subset_rfl ?_
  · intro b hmem
    obtain ⟨i, hi, hb⟩ := mem_allCopies_blocks.mp hmem
    exact (mem_superArea_of_copyChunks hu hi hb).1
  · intro c hc
    obtain ⟨i, -, hc⟩ := List.mem_flatMap.mp hc
    unfold copyChunks at hc
    split at hc
    · split at hc
      · rcases List.mem_cons.mp hc with rfl | hc
        · trivial
        · rw [List.mem_singleton.mp hc]
          trivial
      · rw [List.mem_singleton.mp hc]
        trivial
    · cases hc

/-- The first block of group `0` and the blocks kept behind its descriptors are left. -/
theorem mem_spareArea (hu : g.Usable) (hzero : 0 < g.aux.groups)
    (hsuper : g.hasSuperBlock 0 = true) (hmem : b = g.start 0 ∨
      g.reservedStart 0 ≤ b ∧ b < g.reservedStart 0 + g.info.bgDescReserveBlocks) :
    b ∈ g.spareArea := by
  have hsplit := hu.built.headerBlocks_split 0
  rw [if_pos hsuper] at hsplit
  unfold Geometry.reservedStart at hmem
  unfold Geometry.superBlocks at hsplit
  have hheader : g.start 0 ≤ b ∧ b < g.start 0 + g.headerBlocks 0 := by omega
  refine ⟨⟨0, hzero, hsuper, hheader.1, by unfold Geometry.superBlocks; omega⟩, fun hcopy => ?_⟩
  obtain ⟨i, hi, hb⟩ := mem_allCopies_blocks.mp hcopy
  obtain rfl := header_unique hu.roomy.fits hi hzero (mem_superArea_of_copyChunks hu hi hb).2 hheader
  rw [mem_copyChunks_blocks hu, if_pos rfl] at hb
  omega

/-! ### The primary superblock -/

/-- What `ext4_queue_sb` queues. -/
def superChunk (g : Geometry) : Chunk :=
  if 1024 < g.info.blockSize then ⟨.superBlock, g.info.blockSize, 0⟩ else ⟨.superBlock, 1024, 1⟩

theorem ext4QueueSb_eq : ext4QueueSb g s = s.queue [superChunk g] := by
  unfold ext4QueueSb superChunk
  split <;> rfl

theorem superChunk_spec (hu : g.Usable) : (superChunk g).source = .superBlock ∧
    (superChunk g).len = g.info.blockSize ∧ (superChunk g).block = g.start 0 := by
  have hge := hu.built.blockSize_ge
  have hfirst := (FsAuxInfo.of_create g.create).firstDataBlock
  unfold Geometry.start
  rw [hfirst, Nat.zero_mul, Nat.add_zero]
  unfold superChunk FsInfo.firstDataBlock
  split
  · exact ⟨rfl, rfl, rfl⟩
  · exact ⟨rfl, show 1024 = g.info.blockSize by omega, rfl⟩

theorem does_queueSb (hu : g.Usable) (hl : Laid g labels spare s) (hsuper : spare ⊆ g.superArea)
    (hspare : g.start 0 ∈ spare) :
    Does g labels {b | b ∈ spare ∧ b ∉ chunkBlocks g.info.blockSize [superChunk g]} ∅ ∅ [] [] s
      (ext4QueueSb g s) := by
  obtain ⟨hsource, hlen, hblock⟩ := superChunk_spec hu
  have hone : g.info.blockSize ⌈/⌉ g.info.blockSize = 1 := by
    simpa using mul_ceilDiv_self hu.blockSize_pos 1
  have hblocks : chunkBlocks g.info.blockSize [superChunk g] = [g.start 0] := by
    simp [chunkBlocks, Chunk.blocks, hlen, hblock, hone]
  refine does_queueSpare hu.roomy.fits hu.built hl (by rw [ext4QueueSb_eq]; rfl)
    (by rw [ext4QueueSb_eq]; rfl) (by rw [ext4QueueSb_eq]; exact le_rfl)
    (fun _ _ => by rw [ext4QueueSb_eq]; rfl) ?_ ?_ hsuper ?_
  · rw [hblocks]
    exact List.nodup_singleton _
  · rw [hblocks]
    intro b hb
    rw [List.mem_singleton.mp hb]
    exact hspare
  · intro c hc
    rw [List.mem_singleton.mp hc]
    unfold Chunk.Sourced
    rw [hsource]
    trivial

end Spare

/-! ## Descriptors -/

/-- Two arrays have the same descriptor of group `i`. -/
def SameDesc (m m' : Mem) (i : ℕ) : Prop :=
  m.SameOn m' (sizeofGroupDesc * i) (sizeofGroupDesc * (i + 1))

/-- Where the descriptor of group `i` says that bitmaps and inodes are. -/
structure DescPlaces (g : Geometry) (bgDesc : Mem) (i : ℕ) : Prop where
  blockBitmap : (Fixup.descField GroupDesc.bgBlockBitmap i).get bgDesc = (bitmapsChunk g i).block
  inodeBitmap : (Fixup.descField GroupDesc.bgInodeBitmap i).get bgDesc =
    (bitmapsChunk g i).block + 1
  inodeTable : (Fixup.descField GroupDesc.bgInodeTable i).get bgDesc = (tableChunk g i).block

/-- What the descriptor of group `i` says of its blocks and inodes, with a checksum. -/
structure DescCounts (s : State) (uuid : List UInt8) (bgDesc : Mem) (i : ℕ) : Prop where
  freeBlocks : (Fixup.descField GroupDesc.bgFreeBlocksCount i).get bgDesc = u16 (s.bgs i).freeBlocks
  freeInodes : (Fixup.descField GroupDesc.bgFreeInodesCount i).get bgDesc = u16 (s.bgs i).freeInodes
  usedDirs : (Fixup.descField GroupDesc.bgUsedDirsCount i).get bgDesc = u16 (s.bgs i).usedDirs
  flags : (Fixup.descField GroupDesc.bgFlags i).get bgDesc = u16 (s.bgs i).flags
  checksum : ChecksumOk uuid bgDesc i

section Descriptors

variable {g : Geometry} {s : State} {sb m m' : Mem} {uuid : List UInt8} {i j : ℕ}

theorem SameDesc.get_eq (h : SameDesc m m' i) {f : Field} (hf : f.offset + f.width ≤ 32) :
    (Fixup.descField f i).get m' = (Fixup.descField f i).get m := by
  refine (Field.get_congr h ?_ ?_).symm
  all_goals
    simp only [Fixup.descField, Field.at_, sizeofGroupDesc]
    omega

theorem DescPlaces.congr (h : DescPlaces g m i) (hsame : SameDesc m m' i) : DescPlaces g m' i :=
  ⟨(hsame.get_eq (by decide)).trans h.blockBitmap, (hsame.get_eq (by decide)).trans h.inodeBitmap,
    (hsame.get_eq (by decide)).trans h.inodeTable⟩

theorem DescCounts.congr (h : DescCounts s uuid m i) (hsame : SameDesc m m' i) :
    DescCounts s uuid m' i :=
  ⟨(hsame.get_eq (by decide)).trans h.freeBlocks, (hsame.get_eq (by decide)).trans h.freeInodes,
    (hsame.get_eq (by decide)).trans h.usedDirs, (hsame.get_eq (by decide)).trans h.flags,
    (ChecksumOk.congr fun x hlo hhi => (hsame x hlo hhi).symm).mpr h.checksum⟩

/-- Assignments to one descriptor leave the others alone. -/
theorem sameDesc_of_frame (hne : i ≠ j) (hframe : ∀ x, x < sizeofGroupDesc * j ∨
    sizeofGroupDesc * (j + 1) ≤ x → m' x = m x) : SameDesc m m' i := by
  intro x hlo hhi
  refine (hframe x ?_).symm
  unfold sizeofGroupDesc at *
  omega

/-! ### Filling them in -/

theorem fillInDesc_disjoint (i a b c d e f : ℕ) :
    ([(Fixup.descField GroupDesc.bgBlockBitmap i, a), (Fixup.descField GroupDesc.bgInodeBitmap i, b),
      (Fixup.descField GroupDesc.bgInodeTable i, c), (Fixup.descField GroupDesc.bgFreeBlocksCount i, d),
      (Fixup.descField GroupDesc.bgFreeInodesCount i, e),
      (Fixup.descField GroupDesc.bgUsedDirsCount i, f)].map Prod.fst).Pairwise Field.Disjoint := by
  simp [Field.Disjoint, Fixup.descField, Field.at_, GroupDesc.bgBlockBitmap, GroupDesc.bgInodeBitmap,
    GroupDesc.bgInodeTable, GroupDesc.bgFreeBlocksCount, GroupDesc.bgFreeInodesCount,
    GroupDesc.bgUsedDirsCount]

theorem sameDesc_fillInDesc (hne : i ≠ j) : SameDesc m (fillInDesc g sb m j) i := by
  refine sameDesc_of_frame hne fun x hx => ?_
  unfold fillInDesc
  apply Mem.assign_apply_of_not_mem
  simp only [List.forall_mem_cons, List.not_mem_nil, false_implies, implies_true, and_true,
    Fixup.descField, Field.at_, GroupDesc.bgBlockBitmap, GroupDesc.bgInodeBitmap,
    GroupDesc.bgInodeTable, GroupDesc.bgFreeBlocksCount, GroupDesc.bgFreeInodesCount,
    GroupDesc.bgUsedDirsCount]
  unfold sizeofGroupDesc at *
  omega

/-- A descriptor says where `init_bg` and `allocate_bg_inode_table` put what it describes. -/
theorem descPlaces_fillInDesc (hu : g.Usable) (hi : i < g.aux.groups) (sb m : Mem) :
    DescPlaces g (fillInDesc g sb m i) i ∧
      (Fixup.descField GroupDesc.bgUsedDirsCount i).get (fillInDesc g sb m i) = 0 := by
  have hend := hu.roomy.fits.header_end_lt hi
  rw [hu.built.headerBlocks_split] at hend
  have hplace : groupStartBlock g.info g.aux i +
      (if g.hasSuperBlock i then u32 g.superBlocks else 0) =
        g.start i + if g.hasSuperBlock i then g.superBlocks else 0 := by
    rw [groupStartBlock_eq hu.roomy.fits hi]
    split
    · rename_i hsuper
      rw [if_pos hsuper] at hend
      rw [u32_of_lt (by omega)]
    · rfl
  have hbitmaps : (bitmapsChunk g i).block = g.start i + if g.hasSuperBlock i then g.superBlocks else 0 := by
    have hfirst := hu.roomy.fits.firstBlock_eq hi
    unfold bitmapsChunk Geometry.bitmapsBlock
    simp only
    rw [hfirst]
    split
    · rename_i hsuper
      rw [if_pos hsuper] at hend
      exact u32_of_lt (by omega)
    · rfl
  have htable : (tableChunk g i).block =
      g.start i + (if g.hasSuperBlock i then g.superBlocks else 0) + 2 := by
    show g.start i + (2 + _) = _
    omega
  refine ⟨⟨?_, ?_, ?_⟩, ?_⟩
  · rw [hbitmaps, ← hplace]
    refine (Field.get_assign (fillInDesc_disjoint _ _ _ _ _ _ _) 0 rfl m).trans ?_
    rw [hplace]
    exact u32_of_lt (by omega)
  · rw [hbitmaps, ← hplace]
    refine (Field.get_assign (fillInDesc_disjoint _ _ _ _ _ _ _) 1 rfl m).trans ?_
    rw [hplace]
    exact u32_of_lt (by omega)
  · rw [htable, ← hplace]
    refine (Field.get_assign (fillInDesc_disjoint _ _ _ _ _ _ _) 2 rfl m).trans ?_
    rw [hplace]
    exact u32_of_lt (by omega)
  · exact Field.get_assign (fillInDesc_disjoint _ _ _ _ _ _ _) 5 rfl m

/-- What the loop of `ext4_fill_in_sb` leaves in memory. -/
theorem fillInGroups_supers (hu : g.Usable) (left : ℕ) : ∀ {i : ℕ} {m : Supers} {s : State},
    i + left ≤ g.aux.groups →
      (fillInGroups g left i m s).1.sb = m.sb ∧
      (∀ j < g.aux.groups, i ≤ j → j < i + left →
        DescPlaces g (fillInGroups g left i m s).1.bgDesc j ∧
          (Fixup.descField GroupDesc.bgUsedDirsCount j).get (fillInGroups g left i m s).1.bgDesc = 0) ∧
      (∀ j, j < i ∨ i + left ≤ j → SameDesc m.bgDesc (fillInGroups g left i m s).1.bgDesc j) ∧
      (∀ j, i ≤ j → j < i + left → g.hasSuperBlock j = true → j ≠ 0 →
        (fillInGroups g left i m s).1.backupSb j = Sb.blockGroupNr.set m.sb j) ∧
      ∀ j, j < i → (fillInGroups g left i m s).1.backupSb j = m.backupSb j := by
  induction left with
  | zero =>
      intro i m s _
      refine ⟨rfl, fun j _ h₁ h₂ => by omega, fun j _ _ _ _ => rfl, fun j h₁ h₂ => by omega,
        fun _ _ => rfl⟩
  | succ left ih =>
      intro i m s hle
      rw [fillInGroups, fillInGroup_eq hu (by omega)]
      simp only
      obtain ⟨hsb, hdesc, hsame, hbackup, hkeep⟩ := @ih (i + 1) ⟨m.sb, fillInDesc g m.sb m.bgDesc i,
        if g.hasSuperBlock i ∧ i ≠ 0 then
          Function.update m.backupSb i (Sb.blockGroupNr.set m.sb i) else m.backupSb⟩
        (s.queue (copyChunks g i)) (by omega)
      refine ⟨hsb, fun j hj hlo hhi => ?_, fun j hout => ?_, fun j hlo hhi hsuper hne => ?_,
        fun j hlt => ?_⟩
      · rcases Nat.eq_or_lt_of_le hlo with rfl | hlt
        · obtain ⟨hplaces, hdirs⟩ := descPlaces_fillInDesc hu hj m.sb m.bgDesc
          have hkept := hsame i (.inl (Nat.lt_succ_self i))
          exact ⟨hplaces.congr hkept, (hkept.get_eq (by decide)).trans hdirs⟩
        · exact hdesc j hj hlt (by omega)
      · have hfirst : SameDesc m.bgDesc (fillInDesc g m.sb m.bgDesc i) j :=
          sameDesc_fillInDesc (by omega)
        exact hfirst.trans (hsame j (by omega))
      · rcases Nat.eq_or_lt_of_le hlo with rfl | hlt
        · rw [hkeep i (Nat.lt_succ_self i), if_pos ⟨hsuper, hne⟩]
          exact Function.update_self _ _ _
        · exact hbackup j hlt (by omega) hsuper hne
      · rw [hkeep j (by omega)]
        split
        · exact Function.update_of_ne (by omega) _ _
        · rfl

/-! ### Free counts -/

theorem updateFree_disjoint (i a b c d : ℕ) :
    ([(Fixup.descField GroupDesc.bgFreeBlocksCount i, a),
      (Fixup.descField GroupDesc.bgFreeInodesCount i, b),
      (Fixup.descField GroupDesc.bgUsedDirsCount i, c),
      (Fixup.descField GroupDesc.bgFlags i, d)].map Prod.fst).Pairwise Field.Disjoint := by
  simp [Field.Disjoint, Fixup.descField, Field.at_, GroupDesc.bgFreeBlocksCount,
    GroupDesc.bgFreeInodesCount, GroupDesc.bgUsedDirsCount, GroupDesc.bgFlags]

/-- Nothing but counts, flags and the checksum of one descriptor is assigned to. -/
theorem updateFreeGroup_desc {m : Supers} {x : ℕ}
    (hx : x < sizeofGroupDesc * i + 12 ∨ sizeofGroupDesc * (i + 1) ≤ x) :
    (updateFreeGroup s i m).bgDesc x = m.bgDesc x := by
  unfold sizeofGroupDesc at hx
  unfold updateFreeGroup
  simp only
  rw [Field.set, Mem.store_apply_of_not_mem, Mem.assign_apply_of_not_mem]
  · simp only [List.forall_mem_cons, List.not_mem_nil, false_implies, implies_true, and_true,
      Fixup.descField, Field.at_, GroupDesc.bgFreeBlocksCount, GroupDesc.bgFreeInodesCount,
      GroupDesc.bgUsedDirsCount, GroupDesc.bgFlags]
    unfold sizeofGroupDesc
    omega
  · simp only [Fixup.descField, Field.at_, GroupDesc.bgChecksum]
    unfold sizeofGroupDesc
    omega

/-- Nothing but the two counts of the superblock is assigned to. -/
theorem updateFreeGroup_sb {m : Supers} {x : ℕ} (hx : x < 12 ∨ 20 ≤ x) :
    (updateFreeGroup s i m).sb x = m.sb x := by
  apply Mem.assign_apply_of_not_mem
  simp only [List.forall_mem_cons, List.not_mem_nil, false_implies, implies_true, and_true,
    Sb.freeBlocksCountLo, Sb.freeInodesCount]
  omega

theorem descPlaces_updateFreeGroup {m : Supers} (h : DescPlaces g m.bgDesc j) :
    DescPlaces g (updateFreeGroup s i m).bgDesc j := by
  have hget : ∀ f : Field, f.offset + f.width ≤ 12 →
      (Fixup.descField f j).get (updateFreeGroup s i m).bgDesc =
        (Fixup.descField f j).get m.bgDesc := by
    intro f hf
    refine Mem.load_congr fun k hk => updateFreeGroup_desc ?_
    simp only [Fixup.descField, Field.at_] at hk ⊢
    unfold sizeofGroupDesc
    omega
  exact ⟨(hget _ (by decide)).trans h.blockBitmap, (hget _ (by decide)).trans h.inodeBitmap,
    (hget _ (by decide)).trans h.inodeTable⟩

theorem sameDesc_updateFreeGroup {m : Supers} (hne : i ≠ j) :
    SameDesc m.bgDesc (updateFreeGroup s j m).bgDesc i := by
  refine sameDesc_of_frame hne fun x hx => updateFreeGroup_desc ?_
  unfold sizeofGroupDesc at *
  omega

theorem uuid_updateFreeGroup {m : Supers} :
    (updateFreeGroup s i m).sb.bytes Sb.uuid 16 = m.sb.bytes Sb.uuid 16 :=
  bytes_congr fun k _ => updateFreeGroup_sb (by unfold Sb.uuid; omega)

/-- One group is counted. -/
theorem descCounts_updateFreeGroup {m : Supers}
    (hdirs : (Fixup.descField GroupDesc.bgUsedDirsCount i).get m.bgDesc = 0) :
    DescCounts s (m.sb.bytes Sb.uuid 16) (updateFreeGroup s i m).bgDesc i := by
  have hget : ∀ f : Field, f.offset + f.width ≤ 30 → ∀ (k v : ℕ),
      [(Fixup.descField GroupDesc.bgFreeBlocksCount i, getFreeBlocks i s),
        (Fixup.descField GroupDesc.bgFreeInodesCount i, getFreeInodes i s),
        (Fixup.descField GroupDesc.bgUsedDirsCount i,
          (Fixup.descField GroupDesc.bgUsedDirsCount i).get m.bgDesc + getDirectories i s),
        (Fixup.descField GroupDesc.bgFlags i, getBgFlags i s)][k]? =
          some (Fixup.descField f i, v) →
        (Fixup.descField f i).get (updateFreeGroup s i m).bgDesc = v % 256 ^ f.width := by
    intro f hf k v hk
    refine (Field.get_set_of_disjoint ?_ _ _).trans
      (Field.get_assign (updateFree_disjoint _ _ _ _ _) k hk m.bgDesc)
    simp only [Field.Disjoint, Fixup.descField, Field.at_, GroupDesc.bgChecksum]
    omega
  refine ⟨hget _ (by decide) 0 _ rfl, hget _ (by decide) 1 _ rfl, ?_, hget _ (by decide) 3 _ rfl,
    ?_⟩
  · have husedDirs := hget _ (by decide) 2 _ rfl
    rw [hdirs, Nat.zero_add] at husedDirs
    exact husedDirs
  · unfold ChecksumOk
    rw [← uuid_updateFreeGroup (s := s) (i := i)]
    have hbefore : (updateFreeGroup s i m).bgDesc.bytes (sizeofGroupDesc * i)
        GroupDesc.bgChecksum.offset = (m.bgDesc.assign [
          (Fixup.descField GroupDesc.bgFreeBlocksCount i, getFreeBlocks i s),
          (Fixup.descField GroupDesc.bgFreeInodesCount i, getFreeInodes i s),
          (Fixup.descField GroupDesc.bgUsedDirsCount i,
            (Fixup.descField GroupDesc.bgUsedDirsCount i).get m.bgDesc + getDirectories i s),
          (Fixup.descField GroupDesc.bgFlags i, getBgFlags i s)]).bytes (sizeofGroupDesc * i)
            GroupDesc.bgChecksum.offset := by
      refine bytes_congr fun k hk => Mem.store_apply_of_not_mem (.inl ?_)
      simp only [Fixup.descField, Field.at_]
      omega
    rw [hbefore]
    exact (Field.get_set_self _ _ _).trans (Nat.mod_eq_of_lt (UInt16.toNat_lt _))

/-- What the loop of `ext4_update_free` leaves in memory. -/
theorem updateFreeLoop_spec (left : ℕ) : ∀ {i : ℕ} {m : Supers},
    (∀ j, i ≤ j → j < i + left →
      (Fixup.descField GroupDesc.bgUsedDirsCount j).get m.bgDesc = 0) →
    (∀ j, i ≤ j → j < i + left →
      DescCounts s (m.sb.bytes Sb.uuid 16) (updateFreeLoop s left i m).bgDesc j) ∧
    (∀ j, j < i ∨ i + left ≤ j → SameDesc m.bgDesc (updateFreeLoop s left i m).bgDesc j) ∧
    (∀ j, DescPlaces g m.bgDesc j → DescPlaces g (updateFreeLoop s left i m).bgDesc j) ∧
    (updateFreeLoop s left i m).backupSb = m.backupSb ∧
    (∀ x, x < 12 ∨ 20 ≤ x → (updateFreeLoop s left i m).sb x = m.sb x) ∧
    Sb.freeBlocksCountLo.get (updateFreeLoop s left i m).sb = u32 (Sb.freeBlocksCountLo.get m.sb +
      ((List.range' i left).map fun j => (s.bgs j).freeBlocks).sum) ∧
    Sb.freeInodesCount.get (updateFreeLoop s left i m).sb = u32 (Sb.freeInodesCount.get m.sb +
      ((List.range' i left).map fun j => (s.bgs j).freeInodes).sum) := by
  induction left with
  | zero =>
      intro i m _
      refine ⟨fun j h₁ h₂ => by omega, fun _ _ _ _ _ => rfl, fun _ h => h, rfl, fun _ _ => rfl,
        (u32_of_lt (Field.get_lt _ _)).symm, (u32_of_lt (Field.get_lt _ _)).symm⟩
  | succ left ih =>
      intro i m hdirs
      have hcounts := descCounts_updateFreeGroup (s := s) (hdirs i le_rfl (by omega))
      have huuid := uuid_updateFreeGroup (s := s) (i := i) (m := m)
      have hapart : ([(Sb.freeBlocksCountLo, Sb.freeBlocksCountLo.get m.sb + getFreeBlocks i s),
          (Sb.freeInodesCount, Sb.freeInodesCount.get m.sb + getFreeInodes i s)].map
            Prod.fst).Pairwise Field.Disjoint := by
        simp [Field.Disjoint, Sb.freeBlocksCountLo, Sb.freeInodesCount]
      have hblocks : Sb.freeBlocksCountLo.get (updateFreeGroup s i m).sb =
          u32 (Sb.freeBlocksCountLo.get m.sb + (s.bgs i).freeBlocks) :=
        Field.get_assign hapart 0 rfl m.sb
      have hinodes : Sb.freeInodesCount.get (updateFreeGroup s i m).sb =
          u32 (Sb.freeInodesCount.get m.sb + (s.bgs i).freeInodes) :=
        Field.get_assign hapart 1 rfl m.sb
      obtain ⟨hrest, hsame, hplaces, hbackup, hsb, hfreeBlocks, hfreeInodes⟩ :=
        @ih (i + 1) (updateFreeGroup s i m) fun j hlo hhi => by
          rw [(sameDesc_updateFreeGroup (by omega)).get_eq (by decide)]
          exact hdirs j (by omega) (by omega)
      rw [updateFreeLoop]
      refine ⟨fun j hlo hhi => ?_, fun j hout => ?_, fun j h => hplaces j (descPlaces_updateFreeGroup h),
        hbackup, fun x hx => (hsb x hx).trans (updateFreeGroup_sb hx), ?_, ?_⟩
      · rcases Nat.eq_or_lt_of_le hlo with rfl | hlt
        · exact hcounts.congr (hsame i (.inl (Nat.lt_succ_self i)))
        · rw [← huuid]
          exact hrest j hlt (by omega)
      · exact (sameDesc_updateFreeGroup (by omega)).trans (hsame j (by omega))
      · rw [hfreeBlocks, hblocks, List.range'_succ, List.map_cons, List.sum_cons, ← Nat.add_assoc]
        exact Nat.mod_add_mod _ _ _
      · rw [hfreeInodes, hinodes, List.range'_succ, List.map_cons, List.sum_cons, ← Nat.add_assoc]
        exact Nat.mod_add_mod _ _ _

end Descriptors

end SystemExtras.Ext4
