import SystemExtras.Lib.Bits
import SystemExtras.Lib.Device
import SystemExtras.Lib.MaximalRuns
import SystemExtras.Ext4.FixupImage
import SystemExtras.Ext4.Parameters

/-!
# Sparse images of existing filesystems

`ext2simg` turns an image into a sparse file that holds its used blocks.
`build_sparse_ext` goes over the block bitmaps of the groups and adds a chunk of the
image for every run of set bits; a run ends with its group.  The blocks in front of
the first group have no bits and are always added.

The loop over a bitmap is a scan for maximal runs, with an `int` for the start of
the open run and `-1` for none.  `Scanned` connects it with `scan`.
-/

namespace SystemExtras.Ext4

/-! ## The code -/

/-- The arguments of one `sparse_file_add_file`. -/
structure FileChunk where
  fileOffset : ℕ
  len : ℕ
  block : ℕ
  deriving DecidableEq, Repr

/-- `bitmap_get_bit`. -/
def bitmapGetBit (bitmap : Mem) (bit : ℕ) : Bool :=
  (bitmap (bit / 8)).toNat &&& 2 ^ (bit % 8) ≠ 0

/-- The chunk for the run from `start` up to `stop` in the group that starts at `firstBlock`. -/
def addRun (info : FsInfo) (firstBlock : ℕ) (start : ℤ) (stop : ℕ) : FileChunk :=
  let startBlock := toU32 (firstBlock + start)
  let lenBlocks := toU32 (stop - start)
  ⟨u64 (info.blockSize * startBlock), u32 (info.blockSize * lenBlocks), startBlock⟩

/-- One round of the loop over the bits: `start_contiguous_block` and the chunks so far. -/
def exportBlock (info : FsInfo) (firstBlock : ℕ) (bitmap : Mem) (st : ℤ × List FileChunk)
    (block : ℕ) :
    ℤ × List FileChunk :=
  if 0 ≤ st.1 then
    if ¬ bitmapGetBit bitmap block then (-1, st.2 ++ [addRun info firstBlock st.1 block]) else st
  else if bitmapGetBit bitmap block then (s32 block, st.2)
  else st

/-- The chunks of one group. -/
def exportGroup (info : FsInfo) (firstBlock lastBlock : ℕ) (bitmap : Mem) : List FileChunk :=
  let st := (List.range lastBlock).foldl (exportBlock info firstBlock bitmap) (-1, [])
  if 0 ≤ st.1 then st.2 ++ [addRun info firstBlock st.1 lastBlock] else st.2

/-- Reads the block bitmap of a group, `bgDesc` being `aux_info.bg_desc`. -/
def readBlockBitmap (info : FsInfo) (aux : FsAuxInfo) (bgDesc : Mem) (d : Device) (i : ℕ) :
    Except Stop Mem :=
  if info.blockSize * aux.bgDescBlocks < sizeofGroupDesc * (i + 1) then .error .undefined
  else
    let off := info.blockSize * (Fixup.descField GroupDesc.bgBlockBitmap i).get bgDesc
    if ¬ seekable off then .error (.criticalError "failed to seek to block group bitmap %d")
    else
      match d.read off info.blockSize with
      | some bitmap => .ok bitmap
      | none => .error (.criticalError "failed to read all of block group bitmap %d")

/-- `build_sparse_ext`: the chunks in the order in which they are added. -/
def buildSparseExt (info : FsInfo) (aux : FsAuxInfo) (bgDesc : Mem) (d : Device) :
    Except Stop (List FileChunk) := do
  let front := if 0 < aux.firstDataBlock then
    [⟨0, u32 (info.blockSize * aux.firstDataBlock), 0⟩] else []
  let groups ← (List.range aux.groups).mapM fun i => do
    let firstBlock := u32 (aux.firstDataBlock + i * info.blocksPerGroup)
    let lastBlock := u32 (min info.blocksPerGroup (sub64 aux.lenBlocks firstBlock))
    let bitmap ← readBlockBitmap info aux bgDesc d i
    -- the bitmap has one bit for every group member, in a buffer of one block
    if 8 * info.blockSize < lastBlock then .error .undefined
    else .ok (exportGroup info firstBlock lastBlock bitmap)
  .ok (front ++ groups.flatten)

theorem bitmapGetBit_eq (bitmap : Mem) (bit : ℕ) : bitmapGetBit bitmap bit = bitmap.bit bit := by
  unfold bitmapGetBit Mem.bit
  rw [Nat.and_two_pow]
  cases h : (bitmap (bit / 8)).toNat.testBit (bit % 8) with
  | false => simp
  | true => simp

/-! ## One group -/

/-- The chunk of a run, if nothing wraps. -/
def chunkOf (info : FsInfo) (firstBlock : ℕ) (r : ℕ × ℕ) : FileChunk :=
  ⟨info.blockSize * (firstBlock + r.1), info.blockSize * (r.2 - r.1), firstBlock + r.1⟩

section Group

variable {info : FsInfo} {firstBlock lastBlock : ℕ} {bitmap : Mem}

/-- The state of the loop is that of the scan. -/
def Scanned (info : FsInfo) (firstBlock : ℕ) (st : ℤ × List FileChunk)
    (sc : Option ℕ × List (ℕ × ℕ)) : Prop :=
  st.1 = sc.1.elim (-1) (fun s => (s : ℤ)) ∧ st.2 = sc.2.map (chunkOf info firstBlock)

theorem addRun_eq (hblock : firstBlock + lastBlock < 2 ^ 32)
    (hsize : info.blockSize * lastBlock < 2 ^ 32) {s e : ℕ} (hse : s < e) (he : e ≤ lastBlock) :
    addRun info firstBlock (s : ℤ) e = chunkOf info firstBlock (s, e) := by
  have hstart : toU32 ((firstBlock : ℤ) + s) = firstBlock + s :=
    toU32_of_lt (by push_cast; rfl) (by omega)
  have hlen : toU32 ((e : ℤ) - s) = e - s := toU32_of_lt (by omega) (by omega)
  have hoff : info.blockSize * (firstBlock + s) < 2 ^ 64 := by
    have hbs := info.blockSize_lt
    calc info.blockSize * (firstBlock + s) < 2 ^ 32 * 2 ^ 32 :=
          Nat.mul_lt_mul_of_lt_of_lt hbs (by omega)
      _ = 2 ^ 64 := by norm_num
  have hbytes : info.blockSize * (e - s) < 2 ^ 32 :=
    (Nat.mul_le_mul_left _ (by omega)).trans_lt hsize
  unfold addRun chunkOf
  simp only [hstart, hlen, u64_of_lt hoff, u32_of_lt hbytes]

/-- One round of the loop is one step of the scan. -/
theorem Scanned.step {st : ℤ × List FileChunk} {sc : Option ℕ × List (ℕ × ℕ)} {n : ℕ}
    (h : Scanned info firstBlock st sc) (hblock : firstBlock + lastBlock < 2 ^ 32)
    (hsize : info.blockSize * lastBlock < 2 ^ 32) (hn : n < lastBlock) (hint : lastBlock < 2 ^ 31)
    (hopen : ∀ s, sc.1 = some s → s < n) :
    Scanned info firstBlock (exportBlock info firstBlock bitmap st n)
      (scanStep bitmap.bit sc n) := by
  obtain ⟨start, chunks⟩ := st
  obtain ⟨sc₁, runs⟩ := sc
  obtain ⟨h₁, h₂⟩ := h
  simp only at h₁ h₂
  subst h₁ h₂
  unfold exportBlock scanStep
  simp only [bitmapGetBit_eq]
  cases sc₁ with
  | none =>
      simp only [Option.elim_none]
      cases hb : bitmap.bit n with
      | false => exact ⟨rfl, rfl⟩
      | true => exact ⟨s32_of_lt (by omega), rfl⟩
  | some s =>
      simp only [Option.elim_some]
      cases hb : bitmap.bit n with
      | true => exact ⟨rfl, rfl⟩
      | false =>
          refine ⟨rfl, ?_⟩
          simp [addRun_eq hblock hsize (hopen s rfl) hn.le]

theorem scanned_foldl (bitmap : Mem) (hblock : firstBlock + lastBlock < 2 ^ 32)
    (hsize : info.blockSize * lastBlock < 2 ^ 32) (hint : lastBlock < 2 ^ 31) {n : ℕ}
    (hn : n ≤ lastBlock) :
    Scanned info firstBlock ((List.range n).foldl (exportBlock info firstBlock bitmap) (-1, []))
      (scan bitmap.bit n) := by
  induction n with
  | zero => exact ⟨rfl, rfl⟩
  | succ n ih =>
      rw [scan_succ, List.range_succ, List.foldl_append, List.foldl_cons, List.foldl_nil]
      refine (ih (by omega)).step hblock hsize hn hint ?_
      intro s hs
      exact ((scanInv_scan bitmap.bit n).opened s hs).lt

/-- The chunks of a group are those of the maximal runs of its bitmap. -/
theorem exportGroup_eq (hblock : firstBlock + lastBlock < 2 ^ 32)
    (hsize : info.blockSize * lastBlock < 2 ^ 32) (hint : lastBlock < 2 ^ 31) :
    exportGroup info firstBlock lastBlock bitmap =
      (scanRuns bitmap.bit lastBlock).map (chunkOf info firstBlock) := by
  obtain ⟨h₁, h₂⟩ := scanned_foldl bitmap hblock hsize hint le_rfl
  have hinv := scanInv_scan bitmap.bit lastBlock
  unfold exportGroup scanRuns
  simp only [h₁, h₂]
  generalize scan bitmap.bit lastBlock = sc at hinv
  obtain ⟨start, runs⟩ := sc
  cases start with
  | none => rfl
  | some s =>
      have hlt := (hinv.opened s rfl).lt
      simp [addRun_eq hblock hsize hlt le_rfl]

end Group

/-! ## The whole filesystem -/

/-- The first block of a group. -/
def groupFirst (info : FsInfo) (aux : FsAuxInfo) (i : ℕ) : ℕ :=
  aux.firstDataBlock + i * info.blocksPerGroup

/-- The number of blocks of a group; the last one may be short. -/
def groupSize (info : FsInfo) (aux : FsAuxInfo) (i : ℕ) : ℕ :=
  min info.blocksPerGroup (aux.lenBlocks - groupFirst info aux i)

namespace FileChunk

/-- The block behind the chunk. -/
def stop (c : FileChunk) (blockSize : ℕ) : ℕ := c.block + c.len / blockSize

/-- Whether the chunk holds the block. -/
def Covers (c : FileChunk) (blockSize b : ℕ) : Prop := c.block ≤ b ∧ b < c.stop blockSize

end FileChunk

/-- The bit of the block is set in the bitmap of its group. -/
def IsUsed (info : FsInfo) (aux : FsAuxInfo) (bitmaps : ℕ → Mem) (b : ℕ) : Prop :=
  ∃ i < aux.groups, ∃ k < info.blocksPerGroup,
    b = aux.firstDataBlock + i * info.blocksPerGroup + k ∧
    b < aux.lenBlocks ∧ bitmapGetBit (bitmaps i) k = true

/-- The chunks hold the used blocks, each in one chunk and each where it belongs. -/
structure ExportsUsed (info : FsInfo) (aux : FsAuxInfo) (bitmaps : ℕ → Mem)
    (chunks : List FileChunk) : Prop where
  whole : ∀ c ∈ chunks, 0 < c.len ∧ info.blockSize ∣ c.len
  offset : ∀ c ∈ chunks, c.fileOffset = info.blockSize * c.block
  increasing : chunks.Pairwise fun c c' => c.block < c'.block
  disjoint : chunks.Pairwise fun c c' => ∀ b, c.Covers info.blockSize b →
    ¬ c'.Covers info.blockSize b
  union : ∀ b, (∃ c ∈ chunks, c.Covers info.blockSize b) ↔
    b < aux.firstDataBlock ∨ IsUsed info aux bitmaps b
  /-- Behind the first blocks, every chunk is a maximal run of a group. -/
  maximal : ∀ c ∈ chunks, aux.firstDataBlock ≤ c.block → ∃ i < aux.groups, ∃ r,
    IsRun (bitmapGetBit (bitmaps i)) (groupSize info aux i) r ∧
      c = chunkOf info (groupFirst info aux i) r

/-- Parameters for which the arithmetic of the export does not wrap. -/
structure Exportable (info : FsInfo) (aux : FsAuxInfo) : Prop where
  blockSize_pos : 0 < info.blockSize
  firstDataBlock_le : aux.firstDataBlock ≤ 1
  lenBlocks_lt : aux.lenBlocks < 2 ^ 32
  group_lt : info.blockSize * info.blocksPerGroup < 2 ^ 31
  bitmap_le : info.blocksPerGroup ≤ 8 * info.blockSize
  first_lt : ∀ i < aux.groups, groupFirst info aux i < aux.lenBlocks

section Whole

variable {info : FsInfo} {aux : FsAuxInfo} {bitmaps : ℕ → Mem} {bgDesc : Mem} {d : Device} {i : ℕ}

/-- The chunks of group `i`. -/
def groupChunks (info : FsInfo) (aux : FsAuxInfo) (bitmaps : ℕ → Mem) (i : ℕ) : List FileChunk :=
  (scanRuns (bitmaps i).bit (groupSize info aux i)).map (chunkOf info (groupFirst info aux i))

/-- The chunk in front of the groups. -/
def frontChunks (info : FsInfo) (aux : FsAuxInfo) : List FileChunk :=
  if 0 < aux.firstDataBlock then [⟨0, u32 (info.blockSize * aux.firstDataBlock), 0⟩] else []

theorem groupFirst_add_groupSize (info : FsInfo) (aux : FsAuxInfo) (i : ℕ) :
    groupFirst info aux i + groupSize info aux i ≤ groupFirst info aux (i + 1) := by
  have hle : groupSize info aux i ≤ info.blocksPerGroup := min_le_left _ _
  calc groupFirst info aux i + groupSize info aux i
      ≤ groupFirst info aux i + info.blocksPerGroup := Nat.add_le_add_left hle _
    _ = groupFirst info aux (i + 1) := by
        unfold groupFirst
        ring

theorem groupFirst_mono {j : ℕ} (h : i ≤ j) : groupFirst info aux i ≤ groupFirst info aux j :=
  Nat.add_le_add_left (Nat.mul_le_mul_right _ h) _

theorem mem_groupChunks {c : FileChunk} (hc : c ∈ groupChunks info aux bitmaps i) :
    ∃ r ∈ scanRuns (bitmaps i).bit (groupSize info aux i),
      IsRun (bitmaps i).bit (groupSize info aux i) r ∧
        c = chunkOf info (groupFirst info aux i) r := by
  obtain ⟨r, hr, rfl⟩ := List.mem_map.mp hc
  exact ⟨r, hr, (runsOf_scanRuns _ _).isRun r hr, rfl⟩

namespace Exportable

variable (h : Exportable info aux)
include h

theorem stop_chunkOf (firstBlock : ℕ) {r : ℕ × ℕ} (hr : r.1 < r.2) :
    (chunkOf info firstBlock r).stop info.blockSize = firstBlock + r.2 := by
  unfold FileChunk.stop chunkOf
  simp only
  rw [Nat.mul_div_cancel_left _ h.blockSize_pos]
  omega

theorem group_fits (hi : i < aux.groups) :
    groupFirst info aux i + groupSize info aux i ≤ aux.lenBlocks ∧
      info.blockSize * groupSize info aux i < 2 ^ 31 ∧ groupSize info aux i < 2 ^ 31 := by
  have hlt := h.first_lt i hi
  have hsize : info.blockSize * groupSize info aux i < 2 ^ 31 :=
    (Nat.mul_le_mul_left _ (min_le_left _ _)).trans_lt h.group_lt
  refine ⟨?_, hsize, (Nat.le_mul_of_pos_left _ h.blockSize_pos).trans_lt hsize⟩
  have : groupSize info aux i ≤ aux.lenBlocks - groupFirst info aux i := min_le_right _ _
  omega

/-- What is added for one group. -/
theorem exportGroup_eq_groupChunks (bitmaps : ℕ → Mem) (hi : i < aux.groups) :
    exportGroup info (u32 (aux.firstDataBlock + i * info.blocksPerGroup))
      (u32 (min info.blocksPerGroup
        (sub64 aux.lenBlocks (u32 (aux.firstDataBlock + i * info.blocksPerGroup))))) (bitmaps i) =
      groupChunks info aux bitmaps i ∧
    u32 (min info.blocksPerGroup
      (sub64 aux.lenBlocks (u32 (aux.firstDataBlock + i * info.blocksPerGroup)))) ≤
      8 * info.blockSize := by
  obtain ⟨hend, hbytes, hsize⟩ := h.group_fits hi
  have hlt := h.first_lt i hi
  have hlen := h.lenBlocks_lt
  have hfirst : u32 (aux.firstDataBlock + i * info.blocksPerGroup) = groupFirst info aux i :=
    u32_of_lt (hlt.trans hlen)
  have hlast : u32 (min info.blocksPerGroup (sub64 aux.lenBlocks (groupFirst info aux i))) =
      groupSize info aux i := by
    rw [sub64_of_le hlt.le (by omega)]
    exact u32_of_lt (hsize.trans (by decide))
  rw [hfirst, hlast]
  exact ⟨exportGroup_eq (by omega) (by omega) hsize, (min_le_left _ _).trans h.bitmap_le⟩

theorem buildSparseExt_eq
    (hread : ∀ i < aux.groups, readBlockBitmap info aux bgDesc d i = .ok (bitmaps i)) :
    buildSparseExt info aux bgDesc d =
      .ok (frontChunks info aux ++ (List.range aux.groups).flatMap (groupChunks info aux bitmaps)) := by
  unfold buildSparseExt
  have hgroups : ((List.range aux.groups).mapM fun i => do
      let bitmap ← readBlockBitmap info aux bgDesc d i
      if 8 * info.blockSize < u32 (min info.blocksPerGroup
          (sub64 aux.lenBlocks (u32 (aux.firstDataBlock + i * info.blocksPerGroup)))) then
        .error .undefined
      else .ok (exportGroup info (u32 (aux.firstDataBlock + i * info.blocksPerGroup))
        (u32 (min info.blocksPerGroup (sub64 aux.lenBlocks
          (u32 (aux.firstDataBlock + i * info.blocksPerGroup))))) bitmap)) =
      (.ok ((List.range aux.groups).map (groupChunks info aux bitmaps)) :
        Except Stop (List (List FileChunk))) := by
    rw [mapM_eq_ok, List.forall₂_map_right_iff, List.forall₂_same]
    intro i hi
    rw [List.mem_range] at hi
    obtain ⟨heq, hle⟩ := h.exportGroup_eq_groupChunks bitmaps hi
    rw [hread i hi, bind_ok, if_neg (not_lt.mpr hle), heq]
  simp only [hgroups, bind_ok]
  rfl

theorem mem_frontChunks {c : FileChunk} (hc : c ∈ frontChunks info aux) :
    c = ⟨0, info.blockSize, 0⟩ ∧ aux.firstDataBlock = 1 := by
  unfold frontChunks at hc
  split at hc
  · have hone : aux.firstDataBlock = 1 := by
      have := h.firstDataBlock_le
      omega
    rw [List.mem_singleton] at hc
    rw [hc, hone, Nat.mul_one, u32_of_lt info.blockSize_lt]
    exact ⟨rfl, rfl⟩
  · cases hc

/-- Where the chunks of a group lie. -/
theorem within_group {c : FileChunk} (hc : c ∈ groupChunks info aux bitmaps i) :
    groupFirst info aux i ≤ c.block ∧ c.block < c.stop info.blockSize ∧
      c.stop info.blockSize ≤ groupFirst info aux (i + 1) := by
  obtain ⟨r, -, hrun, rfl⟩ := mem_groupChunks hc
  have hnext := groupFirst_add_groupSize info aux i
  have hle := hrun.le
  have hlt := hrun.lt
  rw [h.stop_chunkOf _ hlt]
  unfold chunkOf
  simp only
  omega

/-- The chunks of a group follow each other. -/
theorem groupChunks_pairwise (i : ℕ) :
    (groupChunks info aux bitmaps i).Pairwise fun c c' => c.stop info.blockSize ≤ c'.block := by
  have hruns := runsOf_scanRuns (bitmaps i).bit (groupSize info aux i)
  unfold groupChunks
  rw [List.pairwise_map]
  refine hruns.sorted.imp_of_mem ?_
  intro r r' hr _ hle
  rw [h.stop_chunkOf _ (hruns.isRun r hr).lt]
  exact Nat.add_le_add_left hle _

/-- All chunks follow each other. -/
theorem chunks_pairwise :
    (frontChunks info aux ++ (List.range aux.groups).flatMap
      (groupChunks info aux bitmaps)).Pairwise fun c c' => c.stop info.blockSize ≤ c'.block := by
  rw [List.pairwise_append, List.pairwise_flatMap]
  refine ⟨?_, ⟨fun i _ => h.groupChunks_pairwise i, ?_⟩, ?_⟩
  · unfold frontChunks
    split
    · exact List.pairwise_singleton _ _
    · exact List.Pairwise.nil
  · refine List.pairwise_lt_range.imp ?_
    intro i j hij c hc c' hc'
    calc c.stop info.blockSize ≤ groupFirst info aux (i + 1) := (h.within_group hc).2.2
      _ ≤ groupFirst info aux j := groupFirst_mono hij
      _ ≤ c'.block := (h.within_group hc').1
  · intro c hc c' hc'
    obtain ⟨j, -, hc'⟩ := List.mem_flatMap.mp hc'
    obtain ⟨rfl, hone⟩ := h.mem_frontChunks hc
    have hstop : (⟨0, info.blockSize, 0⟩ : FileChunk).stop info.blockSize = 1 := by
      unfold FileChunk.stop
      rw [Nat.div_self h.blockSize_pos]
    calc (⟨0, info.blockSize, 0⟩ : FileChunk).stop info.blockSize = aux.firstDataBlock := by
          rw [hstop, hone]
      _ ≤ groupFirst info aux j := Nat.le_add_right _ _
      _ ≤ c'.block := (h.within_group hc').1

theorem chunk_lt {c : FileChunk} (hc : c ∈ frontChunks info aux ++
    (List.range aux.groups).flatMap (groupChunks info aux bitmaps)) :
    c.block < c.stop info.blockSize := by
  rcases List.mem_append.mp hc with hc | hc
  · obtain ⟨rfl, -⟩ := h.mem_frontChunks hc
    unfold FileChunk.stop
    rw [Nat.div_self h.blockSize_pos]
    exact Nat.one_pos
  · obtain ⟨i, -, hc⟩ := List.mem_flatMap.mp hc
    exact (h.within_group hc).2.1

/-- The blocks that the chunks of a group hold. -/
theorem covers_groupChunks (b : ℕ) :
    (∃ c ∈ groupChunks info aux bitmaps i, c.Covers info.blockSize b) ↔
      ∃ k < groupSize info aux i, b = groupFirst info aux i + k ∧ (bitmaps i).bit k = true := by
  have hruns := runsOf_scanRuns (bitmaps i).bit (groupSize info aux i)
  constructor
  · rintro ⟨c, hc, hle, hlt⟩
    obtain ⟨r, -, hrun, rfl⟩ := mem_groupChunks hc
    have := hrun.le
    rw [h.stop_chunkOf _ hrun.lt] at hlt
    unfold chunkOf at hle
    simp only at hle
    exact ⟨b - groupFirst info aux i, by omega, by omega, hrun.all _ (by omega) (by omega)⟩
  · rintro ⟨k, hk, rfl, hbit⟩
    obtain ⟨r, hr, hle, hlt⟩ := hruns.cover k hk hbit
    refine ⟨chunkOf info (groupFirst info aux i) r, List.mem_map.mpr ⟨r, hr, rfl⟩, ?_, ?_⟩
    · exact Nat.add_le_add_left hle _
    · rw [h.stop_chunkOf _ (hruns.isRun r hr).lt]
      exact Nat.add_lt_add_left hlt _

theorem isUsed_iff (b : ℕ) : IsUsed info aux bitmaps b ↔ ∃ i < aux.groups,
    ∃ k < groupSize info aux i, b = groupFirst info aux i + k ∧ (bitmaps i).bit k = true := by
  unfold IsUsed
  simp only [bitmapGetBit_eq]
  constructor
  · rintro ⟨i, hi, k, hk, hb, hlt, hbit⟩
    refine ⟨i, hi, k, lt_min hk ?_, hb, hbit⟩
    unfold groupFirst
    omega
  · rintro ⟨i, hi, k, hk, hb, hbit⟩
    have hend := (h.group_fits hi).1
    exact ⟨i, hi, k, hk.trans_le (min_le_left _ _), hb, by omega, hbit⟩

theorem covers_frontChunks (b : ℕ) :
    (∃ c ∈ frontChunks info aux, c.Covers info.blockSize b) ↔ b < aux.firstDataBlock := by
  constructor
  · rintro ⟨c, hc, -, hlt⟩
    obtain ⟨rfl, hone⟩ := h.mem_frontChunks hc
    unfold FileChunk.stop at hlt
    rw [Nat.div_self h.blockSize_pos] at hlt
    simp only at hlt
    omega
  · intro hlt
    have hone : aux.firstDataBlock = 1 := by
      have := h.firstDataBlock_le
      omega
    unfold frontChunks
    rw [if_pos (by omega), hone, Nat.mul_one, u32_of_lt info.blockSize_lt]
    refine ⟨_, List.mem_singleton_self _, Nat.zero_le _, ?_⟩
    unfold FileChunk.stop
    rw [Nat.div_self h.blockSize_pos]
    omega

theorem exportsUsed : ExportsUsed info aux bitmaps
    (frontChunks info aux ++ (List.range aux.groups).flatMap (groupChunks info aux bitmaps)) where
  whole := by
    intro c hc
    rcases List.mem_append.mp hc with hc | hc
    · obtain ⟨rfl, -⟩ := h.mem_frontChunks hc
      exact ⟨h.blockSize_pos, dvd_rfl⟩
    · obtain ⟨i, -, hc⟩ := List.mem_flatMap.mp hc
      obtain ⟨r, -, hrun, rfl⟩ := mem_groupChunks hc
      have hlt := hrun.lt
      exact ⟨Nat.mul_pos h.blockSize_pos (by omega), Nat.dvd_mul_right _ _⟩
  offset := by
    intro c hc
    rcases List.mem_append.mp hc with hc | hc
    · obtain ⟨rfl, -⟩ := h.mem_frontChunks hc
      exact (Nat.mul_zero _).symm
    · obtain ⟨i, -, hc⟩ := List.mem_flatMap.mp hc
      obtain ⟨r, -, -, rfl⟩ := mem_groupChunks hc
      rfl
  increasing := by
    refine h.chunks_pairwise.imp_of_mem ?_
    intro c c' hc _ hle
    exact (h.chunk_lt hc).trans_le hle
  disjoint := by
    refine h.chunks_pairwise.imp ?_
    intro c c' hle b hb hb'
    exact absurd (hb.2.trans_le (hle.trans hb'.1)) (lt_irrefl _)
  union := by
    intro b
    simp only [List.mem_append, or_and_right, exists_or, List.mem_flatMap, List.mem_range]
    rw [h.covers_frontChunks, h.isUsed_iff]
    refine or_congr_right ?_
    constructor
    · rintro ⟨c, ⟨i, hi, hc⟩, hcov⟩
      exact ⟨i, hi, (h.covers_groupChunks b).mp ⟨c, hc, hcov⟩⟩
    · rintro ⟨i, hi, hk⟩
      obtain ⟨c, hc, hcov⟩ := (h.covers_groupChunks b).mpr hk
      exact ⟨c, ⟨i, hi, hc⟩, hcov⟩
  maximal := by
    intro c hc hle
    rcases List.mem_append.mp hc with hc | hc
    · obtain ⟨rfl, hone⟩ := h.mem_frontChunks hc
      simp only at hle
      omega
    · obtain ⟨i, hi, hc⟩ := List.mem_flatMap.mp hc
      obtain ⟨r, -, hrun, rfl⟩ := mem_groupChunks hc
      refine ⟨i, List.mem_range.mp hi, r, ?_, rfl⟩
      have hbits : bitmapGetBit (bitmaps i) = (bitmaps i).bit := funext (bitmapGetBit_eq _)
      rwa [hbits]

end Exportable

end Whole

/-! ## Parsed filesystems -/

theorem ext4ParseSb_ok {old info : FsInfo} {sb : Mem} {aux : FsAuxInfo}
    (h : ext4ParseSb old sb = .ok (info, aux)) : ext4CreateFsAuxInfo info = some aux := by
  unfold ext4ParseSb at h
  split at h
  · cases h
  split at h
  · cases h
  split at h
  · cases h
  · split at h
    · simp only at h
      split at h
      · cases h
      · rename_i haux
        split at h
        · cases h
        · cases h
          exact haux
    · cases h

/-- Every group that is counted starts inside the filesystem. -/
theorem groupFirst_lt {info : FsInfo} {aux : FsAuxInfo} (haux : ext4CreateFsAuxInfo info = some aux)
    (hfirst : aux.firstDataBlock < aux.lenBlocks) (hlen : aux.lenBlocks < 2 ^ 32) :
    ∀ i < aux.groups, groupFirst info aux i < aux.lenBlocks := by
  have hof := FsAuxInfo.of_create haux
  have hb := hof.blocksPerGroup_pos
  have hf := info.firstDataBlock_le
  have hmod := Nat.mod_lt info.rawLenBlocks hb
  have hdiv := Nat.div_add_mod' info.rawLenBlocks info.blocksPerGroup
  have hblocks := hof.lenBlocks
  have hgroups := hof.groups
  rw [hof.firstDataBlock] at hfirst
  intro i hi
  unfold groupFirst
  rw [hof.firstDataBlock]
  by_cases hdrop : info.DropsLastGroup
  · -- what is left is a whole number of groups, counted from block zero
    rw [if_pos hdrop, info.sub_lastGroupSize hb] at hblocks
    rw [if_pos hdrop] at hgroups
    obtain ⟨hrem, htwo⟩ := hdrop.rem_pos hb
    have hlt : info.firstDataBlock < info.rawLenBlocks := by omega
    rw [FsInfo.rawGroups_eq hb hlt, FsInfo.groupCount_eq htwo hlt] at hgroups
    generalize info.rawLenBlocks / info.blocksPerGroup = q at hdiv hgroups
    have hq : aux.lenBlocks = q * info.blocksPerGroup := by omega
    have hone : 1 ≤ q := by
      rw [Nat.one_le_iff_ne_zero]
      rintro rfl
      rw [Nat.zero_mul] at hq
      omega
    have hsmall : 2 * q ≤ q * info.blocksPerGroup := by
      rw [Nat.mul_comm]
      exact Nat.mul_le_mul_left q htwo
    have hle : aux.groups ≤ q := by
      rw [hgroups]
      unfold sub32 u32
      split <;> omega
    obtain ⟨k, rfl⟩ : ∃ k, q = k + 1 := ⟨q - 1, by omega⟩
    have hmul : i * info.blocksPerGroup ≤ k * info.blocksPerGroup :=
      Nat.mul_le_mul_right _ (by omega)
    rw [hq, Nat.add_mul]
    omega
  · rw [if_neg hdrop] at hblocks hgroups
    have hcount : i < info.groupCount := by
      rw [hgroups, FsInfo.rawGroups_eq hb (hblocks ▸ hfirst)] at hi
      exact hi.trans_le (Nat.mod_le _ _)
    unfold FsInfo.groupCount at hcount
    rw [Nat.ceilDiv_eq_add_pred_div, Nat.lt_div_iff_mul_lt hb] at hcount
    omega

/-- The chunks that `build_sparse_ext` adds hold exactly the used blocks. -/
theorem buildSparseExt_exportsUsed {old info : FsInfo} {sb : Mem} {aux : FsAuxInfo} {bgDesc : Mem}
    {d : Device} {bitmaps : ℕ → Mem} (hparse : ext4ParseSb old sb = .ok (info, aux))
    (hfirst : aux.firstDataBlock < aux.lenBlocks) (hlen : aux.lenBlocks < 2 ^ 32)
    (hgroup : info.blockSize * info.blocksPerGroup < 2 ^ 31)
    (hbitmap : info.blocksPerGroup ≤ 8 * info.blockSize)
    (hread : ∀ i < aux.groups, readBlockBitmap info aux bgDesc d i = .ok (bitmaps i)) :
    ∃ chunks, buildSparseExt info aux bgDesc d = .ok chunks ∧
      ExportsUsed info aux bitmaps chunks := by
  have haux := ext4ParseSb_ok hparse
  have hof := FsAuxInfo.of_create haux
  have h : Exportable info aux :=
    ⟨hof.blockSize_pos, hof.firstDataBlock ▸ info.firstDataBlock_le, hlen, hgroup, hbitmap,
      groupFirst_lt haux hfirst hlen⟩
  exact ⟨_, h.buildSparseExt_eq hread, h.exportsUsed⟩

/-- Descriptors of two groups with their block bitmaps in the blocks 2 and 9. -/
def sparseDesc : Mem :=
  Mem.zero.assign [(Fixup.descField GroupDesc.bgBlockBitmap 0, 2),
    (Fixup.descField GroupDesc.bgBlockBitmap 1, 9)]

/-- The bitmaps themselves. -/
def sparseImage : Device where
  size := 32768
  bytes := Mem.zero.assign [(⟨4096, 1⟩, 0x9f), (⟨18432, 1⟩, 0xe6)]

theorem buildSparseExt_exportsUsed_twoGroups :
    ∃ chunks, buildSparseExt twoGroupsInfo twoGroupsAux sparseDesc sparseImage = .ok chunks ∧
      ExportsUsed twoGroupsInfo twoGroupsAux
        (fun i => sparseImage.slice (if i = 0 then 4096 else 18432) 2048) chunks := by
  refine buildSparseExt_exportsUsed (readExt_eq_ok.mp readExt_twoGroups).parse (by decide)
    (by decide) (by decide) (by decide) ?_
  have hplaces : ∀ i < 2, ¬ twoGroupsInfo.blockSize * twoGroupsAux.bgDescBlocks <
        sizeofGroupDesc * (i + 1) ∧
      twoGroupsInfo.blockSize * (Fixup.descField GroupDesc.bgBlockBitmap i).get sparseDesc =
        if i = 0 then 4096 else 18432 := by decide
  intro i hi
  obtain ⟨hdesc, hoff⟩ := hplaces i hi
  unfold readBlockBitmap
  simp only [if_neg hdesc, hoff]
  split
  · rfl
  · rfl

-- the run at the end of the first group does not go on into the second
example : buildSparseExt twoGroupsInfo twoGroupsAux sparseDesc sparseImage =
    .ok [⟨0, 10240, 0⟩, ⟨14336, 2048, 7⟩, ⟨18432, 4096, 9⟩, ⟨26624, 6144, 13⟩] := by decide

end SystemExtras.Ext4
