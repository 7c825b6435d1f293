import SystemExtras.Ext4.ImageRead
import SystemExtras.Ext4.SparseExport

/-!
# Sparse files of an image

`ext2simg` reads the superblock and the bitmaps of an image and puts the blocks in use
into a sparse file.  Where that file is written out, the image is there again
(`Readback.exists_export`): what `make_ext4fs` has queued is in use, and so nothing of
it is left behind.
-/

namespace SystemExtras.Ext4

open Mem

/-! ## The code -/

/-- `read_ext` of `ext2simg`. -/
def readExtForExport (d : Device) : Except Stop (FsInfo × FsAuxInfo × Mem) := do
  let sb ← readSb d
  let (info, aux) ← ext4ParseSb FsInfo.zero sb
  if 2 ^ 31 ≤ info.blockSize * aux.bgDescBlocks then .error .undefined
  else
    match d.read (info.blockSize * (aux.firstDataBlock + 1))
        (info.blockSize * aux.bgDescBlocks) with
    | none => .error (.criticalError "failed to read all of block group descriptors")
    | some bgDesc => .ok (info, aux, bgDesc)

/-- `ext2simg`: the block size of the sparse file, and its chunks. -/
def ext2simg (d : Device) : Except Stop (ℕ × List FileChunk) := do
  let (info, aux, bgDesc) ← readExtForExport d
  let chunks ← buildSparseExt info aux bgDesc d
  .ok (info.blockSize, chunks)

/-- What a chunk writes when the sparse file is written out; `d` is what the file was made of. -/
def FileChunk.write (blockSize : ℕ) (d : Device) (c : FileChunk) : Write :=
  ⟨c.block * blockSize, c.len, d.bytes.behind c.fileOffset⟩

/-! ## What is in the file -/

section Export

variable {g : Geometry} {labels : Prop} {spare : Set ℕ} {files : List UInt8 → Mem} {im : Image}
  {d d₀ : Device} {p : Fixup} {info : FsInfo} {aux : FsAuxInfo} {bitmaps : ℕ → Mem}
  {chunks : List FileChunk} {b x : ℕ}

/-- What `ext4fixup` can read, `ext2simg` can. -/
theorem ReadExt.readExtForExport_eq (h : ReadExt d p) :
    readExtForExport d = .ok (p.info, p.aux, p.bgDesc) := by
  have hread : d.read (p.info.blockSize * (p.aux.firstDataBlock + 1))
      (p.info.blockSize * p.aux.bgDescBlocks) = some p.bgDesc := by
    rw [h.bgDesc]
    exact Device.read_of_le h.desc_le
  have hsb : readSb d = .ok (d.slice 1024 Sb.size) := by
    unfold readSb
    rw [Device.read_of_le h.sb_le]
  have hlen : ¬ 2 ^ 31 ≤ p.info.blockSize * p.aux.bgDescBlocks := not_le.mpr h.descLen_lt
  unfold readExtForExport
  rw [hsb, bind_ok, h.parse, bind_ok]
  simp only [if_neg hlen, hread]

/-- What is in the file is written where it was. -/
theorem ExportsUsed.bytes_eq (h : ExportsUsed info aux bitmaps chunks) (hpos : 0 < info.blockSize)
    (hx : IsUsed info aux bitmaps (x / info.blockSize)) :
    (d₀.applyAll (chunks.map (FileChunk.write info.blockSize d))).bytes x = d.bytes x := by
  obtain ⟨c, hc, hlo, hhi⟩ := (h.union _).mpr (.inr hx)
  obtain ⟨q, hq⟩ := (h.whole c hc).2
  apply Device.applyAll_bytes_of_copies
  · intro w hw k _
    obtain ⟨c', hc', rfl⟩ := List.mem_map.mp hw
    show d.bytes (c'.fileOffset + k) = d.bytes (c'.block * info.blockSize + k)
    rw [h.offset c' hc', Nat.mul_comm]
  · refine ⟨_, List.mem_map_of_mem hc, (Nat.le_div_iff_mul_le hpos).mp hlo, ?_⟩
    unfold FileChunk.stop at hhi
    rw [hq, Nat.mul_div_cancel_left _ hpos, Nat.div_lt_iff_lt_mul hpos, Nat.add_mul,
      Nat.mul_comm q, ← hq] at hhi
    exact hhi

/-- The block bitmap of a group on the device. -/
theorem Readback.exists_readBlockBitmap (h : Readback g labels spare files im d p) {i : ℕ}
    (hi : i < g.aux.groups) :
    ∃ m, readBlockBitmap p.info p.aux p.bgDesc d i = .ok m ∧
      m.SameOn (im.builder.st.bgs i).bitmaps 0 g.info.blockSize := by
  have hpos := h.usable.blockSize_pos
  have hbs := h.usable.blockSize_le
  have hchunk := h.queued.bitmaps i hi
  have hlen : (bitmapsChunk g i).len = 2 * g.info.blockSize :=
    u32_of_lt (show 2 * g.info.blockSize < 2 ^ 32 by omega)
  have hmem : (bitmapsChunk g i).block ∈ (bitmapsChunk g i).blocks g.info.blockSize := by
    rw [Chunk.mem_blocks, hlen, mul_ceilDiv_self hpos]
    omega
  obtain ⟨hle, -⟩ := h.readBlock_eq (h.queued.taken _ (List.mem_flatMap.mpr ⟨_, hchunk, hmem⟩))
  have hdesc : ¬ p.info.blockSize * p.aux.bgDescBlocks < sizeofGroupDesc * (i + 1) :=
    not_lt.mpr (h.reads.hasDesc i hi)
  have hlt := h.isOn.size_lt
  have hseek : ¬ ¬ seekable (p.info.blockSize * (bitmapsChunk g i).block) := by
    rw [Nat.mul_comm]
    exact not_not.mpr (show _ < _ by omega)
  refine ⟨d.slice (p.info.blockSize * (bitmapsChunk g i).block) p.info.blockSize, ?_, ?_⟩
  · unfold readBlockBitmap
    simp only
    rw [if_neg hdesc, (h.reads.places i hi).blockBitmap, if_neg hseek,
      Device.read_of_le (by rw [Nat.mul_comm]; exact hle)]
  · intro x _ hx
    have hbyte := h.isOn.chunks _ hchunk x (by omega)
    unfold Device.slice
    rw [h.reads.blockSize, if_pos hx, Nat.mul_comm]
    exact hbyte

/-- A block that is in use has its bit set on the device. -/
theorem Readback.isUsed (h : Readback g labels spare files im d p)
    (hback : ReadsBack g.info g.aux p.info p.aux)
    (hbitmaps : ∀ i < g.aux.groups, (bitmaps i).SameOn (im.builder.st.bgs i).bitmaps 0
      g.info.blockSize) (hb : b ∈ taken g im.builder.st.bgs) :
    IsUsed p.info p.aux bitmaps b := by
  obtain ⟨i, hi, k, hk, hbk, hbit⟩ := used_of_mem_taken h.laid.groups hb
  have hbpg := h.usable.roomy.blocksPerGroup_le
  refine ⟨i, by rw [hback.groups]; exact hi, k, by rw [hback.blocksPerGroup]; exact hk, ?_, ?_, ?_⟩
  · rw [hback.firstDataBlock, hback.blocksPerGroup, hbk, (h.laid.groups i hi).firstBlock]
    rfl
  · rw [hback.lenBlocks]
    exact lt_of_mem_taken h.usable.roomy h.laid hb
  · rw [bitmapGetBit_eq, ← hbit]
    unfold Mem.bit
    rw [hbitmaps i hi _ (Nat.zero_le _) (by omega)]

theorem Geometry.Usable.exportable (hu : g.Usable) (hback : ReadsBack g.info g.aux p.info p.aux) :
    Exportable p.info p.aux := by
  have hfits := hu.roomy.fits
  have hbs := hu.blockSize_le
  have hbpg := hu.roomy.blocksPerGroup_le
  refine ⟨by rw [hback.blockSize]; exact hu.blockSize_pos, ?_, ?_, ?_, ?_, fun i hi => ?_⟩
  · rw [hback.firstDataBlock, (FsAuxInfo.of_create g.create).firstDataBlock]
    exact g.info.firstDataBlock_le
  · rw [hback.lenBlocks]
    exact hfits.lenBlocks_lt
  · have hmul := Nat.mul_le_mul hbs (show g.info.blocksPerGroup ≤ 8 * 4096 by omega)
    rw [hback.blockSize, hback.blocksPerGroup]
    omega
  · rw [hback.blockSize, hback.blocksPerGroup]
    exact hbpg
  · unfold groupFirst
    rw [hback.firstDataBlock, hback.blocksPerGroup, hback.lenBlocks]
    exact hfits.start_lt (hback.groups ▸ hi)

/-- The image is where the sparse file of it is written out. -/
theorem Readback.exists_export (h : Readback g labels spare files im d p)
    (hback : ReadsBack g.info g.aux p.info p.aux) (hread : readExt d = .ok p) :
    ∃ chunks, ext2simg d = .ok (g.info.blockSize, chunks) ∧ ∀ d₀ : Device,
      g.aux.lenBlocks * g.info.blockSize ≤ d₀.size →
      (d₀.applyAll (chunks.map (FileChunk.write g.info.blockSize d))).size < 2 ^ 63 →
        im.IsOn g files (d₀.applyAll (chunks.map (FileChunk.write g.info.blockSize d))) := by
  have hpos := h.usable.blockSize_pos
  have hexportable := h.usable.exportable hback
  choose! bitmaps hbitmaps hsame using fun i (hi : i < g.aux.groups) => h.exists_readBlockBitmap hi
  obtain ⟨chunks, hbuild, hused⟩ : ∃ chunks, buildSparseExt p.info p.aux p.bgDesc d = .ok chunks ∧
      ExportsUsed p.info p.aux bitmaps chunks :=
    ⟨_, hexportable.buildSparseExt_eq fun i hi => hbitmaps i (hback.groups ▸ hi),
      hexportable.exportsUsed⟩
  refine ⟨chunks, ?_, fun d₀ hge hlt => ⟨fun c hc k hk => ?_, ?_, hlt⟩⟩
  · rw [ext2simg, (readExt_eq_ok.mp hread).readExtForExport_eq, bind_ok]
    simp only [hbuild, bind_ok, hback.blockSize]
  · -- the byte is in a block in use, and that is in the file
    have hcovers : (im.write g files c).Covers (c.block * g.info.blockSize + k) :=
      ⟨Nat.le_add_right _ _, Nat.add_lt_add_left hk _⟩
    have hmem := h.queued.taken _ (List.mem_flatMap.mpr ⟨c, hc, mem_blocks_of_covers hpos hcovers⟩)
    have hisUsed := h.isUsed hback hsame hmem
    rw [← hback.blockSize] at hpos hisUsed ⊢
    rw [hused.bytes_eq hpos hisUsed, hback.blockSize]
    exact h.isOn.chunks c hc k hk
  · rw [Device.applyAll_size]
    exact hge.trans (le_max_left _ _)

end Export

end SystemExtras.Ext4
