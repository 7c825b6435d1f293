import SystemExtras.Ext4.DirectoryBlocks
import SystemExtras.Ext4.Image
import SystemExtras.Lib.Windows

/-!
# Reading an image back

What `make_ext4fs` has queued is written to a device, and `ext4fixup`, which knows
nothing of the run, reads it: the superblock and the descriptors (`read_ext`), inodes
(`read_inode`), and the blocks of an inode (`get_block_list`, `read_block`).

`deviceView` is what such a reader finds.  It finds everything that is in memory at
the end (`memView_le_deviceView`), in whatever order the queue was written.
-/

namespace SystemExtras.Ext4

open Mem

/-! ## Writing the queue -/

section Code

variable (g : Geometry) (files : List UInt8 → Mem) (im : Image)

/-- The bytes of a queue entry; `files` is what is in the files of the host.  The superblock starts
at byte 1024 of its block where blocks are larger. -/
def Image.data : Source → Mem
  | .superBlock =>
      if 1024 < g.info.blockSize then Mem.zero.blit 1024 Sb.size im.supers.sb 0 else im.supers.sb
  | .backupSuperBlock i => im.supers.backupSb i
  | .groupDescs => im.supers.bgDesc
  | .bitmaps i => (im.builder.st.bgs i).bitmaps
  | .inodeTable i => im.builder.st.table i
  | .buffer id offset => (im.builder.st.out.buffers id).bytes.behind offset
  | .file path offset => (files path).behind offset

/-- The write that a queue entry stands for. -/
def Image.write (c : Chunk) : Write := ⟨c.block * g.info.blockSize, c.len, im.data g files c.source⟩

/-- All writes. -/
def Image.writes : List Write := im.builder.st.out.chunks.map (im.write g files)

end Code

/-- The device has the bytes of the image. -/
structure Image.IsOn (g : Geometry) (files : List UInt8 → Mem) (im : Image) (d : Device) : Prop where
  chunks : ∀ c ∈ im.builder.st.out.chunks, ∀ k < c.len,
    d.bytes (c.block * g.info.blockSize + k) = im.data g files c.source k
  size_ge : g.aux.lenBlocks * g.info.blockSize ≤ d.size
  size_lt : d.size < 2 ^ 63

section Writing

variable {g : Geometry} {labels : Prop} {spare : Set ℕ} {files : List UInt8 → Mem} {im : Image}
  {d : Device} {ws : List Write} {s : State} {c : Chunk} {b k x : ℕ}

/-- A byte that is written is in a block that is filled. -/
theorem mem_blocks_of_covers (hpos : 0 < g.info.blockSize) (hx : (im.write g files c).Covers x) :
    x / g.info.blockSize ∈ c.blocks g.info.blockSize := by
  obtain ⟨hlo, hhi⟩ := hx
  change c.block * g.info.blockSize ≤ x at hlo
  change x < c.block * g.info.blockSize + c.len at hhi
  have hlen : c.len ≤ g.info.blockSize * (c.len ⌈/⌉ g.info.blockSize) :=
    (ceilDiv_le_iff_le_mul hpos).mp le_rfl
  rw [Chunk.mem_blocks]
  refine ⟨(Nat.le_div_iff_mul_le hpos).mpr hlo, (Nat.div_lt_iff_lt_mul hpos).mpr ?_⟩
  rw [Nat.add_mul, Nat.mul_comm (c.len ⌈/⌉ g.info.blockSize)]
  omega

/-- What is in use ends where the device ends. -/
theorem lt_of_mem_taken (hg : g.Roomy) (hl : Laid g labels spare s) (hb : b ∈ taken g s.bgs) :
    b < g.aux.lenBlocks := by
  obtain ⟨i, hi, k, hk, rfl⟩ := hb
  have hsize := hg.size_ge i hi
  have hlimit := (hl.groups i hi).limit_of_lt (by omega)
  have hend := Geometry.start_add_groupSize_le hg.fits hi
  omega

/-- The writes of a queue do not touch each other. -/
theorem writes_pairwise (hpos : 0 < g.info.blockSize) (hq : Queued g spare im.builder.st) :
    (im.writes g files).Pairwise fun w v => ∀ x, w.Covers x → ¬ v.Covers x := by
  have hapart := (List.nodup_flatMap.mp hq.nodup).2
  unfold Image.writes
  rw [List.pairwise_map]
  exact hapart.imp fun hdisjoint x hw hv =>
    hdisjoint (mem_blocks_of_covers hpos hw) (mem_blocks_of_covers hpos hv)

/-- The queue can be written in any order. -/
theorem Image.isOn_of_perm (hpos : 0 < g.info.blockSize) (hq : Queued g spare im.builder.st)
    (hperm : ws.Perm (im.writes g files)) (hge : g.aux.lenBlocks * g.info.blockSize ≤ d.size)
    (hlt : (d.applyAll ws).size < 2 ^ 63) : im.IsOn g files (d.applyAll ws) := by
  refine ⟨fun c hc k hk => ?_, ?_, hlt⟩
  · have hcovers : (im.write g files c).Covers (c.block * g.info.blockSize + k) :=
      ⟨Nat.le_add_right _ _, Nat.add_lt_add_left hk _⟩
    rw [Device.applyAll_bytes_of_perm hperm (writes_pairwise hpos hq) (List.mem_map_of_mem hc)
      hcovers]
    change im.data g files c.source (c.block * g.info.blockSize + k - c.block * g.info.blockSize) = _
    rw [Nat.add_sub_cancel_left]
  · rw [Device.applyAll_size]
    exact hge.trans (le_max_left _ _)

end Writing

/-! ## The parameters -/

/-- What `ext4fixup` asks of a filesystem before it reads on. -/
structure Geometry.Readable (g : Geometry) : Prop where
  survives : g.info.SurvivesParsing
  inodeSize_le : g.info.inodeSize ≤ g.info.blockSize
  filetype : g.info.featIncompat &&& EXT4_FEATURE_INCOMPAT_FILETYPE ≠ 0
  noRecover : g.info.featIncompat &&& EXT4_FEATURE_INCOMPAT_RECOVER = 0

/-- The parameters that were read are the ones of the image, and the descriptors say where the
inode tables are. -/
structure ReadsImage (g : Geometry) (p : Fixup) : Prop where
  blockSize : p.info.blockSize = g.info.blockSize
  inodesPerGroup : p.info.inodesPerGroup = g.info.inodesPerGroup
  inodeSize : p.info.inodeSize = g.info.inodeSize
  hasDesc : ∀ i < g.aux.groups, p.HasDesc i
  places : ∀ i < g.aux.groups, DescPlaces g p.bgDesc i

section Parameters

variable {g : Geometry} {labels : Prop} {spare : Set ℕ} {files : List UInt8 → Mem} {im : Image}
  {d : Device} {old info : FsInfo} {aux : FsAuxInfo} {sb sb' m : Mem} {i : ℕ}

/-- The parser does not look at the free counts, nor at the copy of the journal's inode. -/
theorem ext4ParseSb_congr (hsame : ∀ x < Sb.size, x < 12 ∨ 20 ≤ x →
      x < Sb.jnlBlocks ∨ Sb.jnlBlocks + sizeofIBlock ≤ x → sb' x = sb x)
    (hparse : ext4ParseSb old sb = .ok (info, aux)) : ext4ParseSb old sb' = .ok (info, aux) := by
  have hget : ∀ f ∈ [Sb.magic, Sb.state, Sb.logBlockSize, Sb.blocksCountHi, Sb.blocksCountLo,
      Sb.blocksPerGroup, Sb.inodesPerGroup, Sb.inodeSize, Sb.inodesCount, Sb.featureRoCompat,
      Sb.featureCompat, Sb.featureIncompat, Sb.reservedGdtBlocks, Sb.firstDataBlock],
      f.get sb' = f.get sb := by
    intro f hf
    have hplace : f.offset + f.width ≤ Sb.size ∧ (f.offset + f.width ≤ 12 ∨ 20 ≤ f.offset) ∧
        (f.offset + f.width ≤ Sb.jnlBlocks ∨ Sb.jnlBlocks + sizeofIBlock ≤ f.offset) := by
      revert f
      decide
    exact Mem.load_congr fun k hk => hsame _ (by omega) (by omega) (by omega)
  simp only [List.forall_mem_cons] at hget
  obtain ⟨hmagic, hstate, hlog, hhi, hlo, hbpg, hipg, hisize, hinodes, hro, hcompat, hincompat,
    hreserved, hfirst, -⟩ := hget
  have hlabel : sb'.bytes Sb.volumeName 16 = sb.bytes Sb.volumeName 16 := by
    refine bytes_congr fun k hk => ?_
    unfold Sb.volumeName
    exact hsame _ (by unfold Sb.size; omega) (by omega) (by unfold Sb.jnlBlocks; omega)
  rw [ext4ParseSb_eq_ok] at hparse ⊢
  obtain ⟨hmagic', hstate', ⟨bs, len, hbs, hlen, hshift, hcount, rfl⟩, haux, hfirst'⟩ := hparse
  refine ⟨hmagic.trans hmagic', by rw [hstate, hstate'], ⟨bs, len, hbs, hlen, by rw [hlog, hshift], ?_,
    ?_⟩, haux, hfirst'.trans hfirst.symm⟩
  · rw [hcount, sbLenBlocks, sbLenBlocks, hhi, hlo]
  · simp only [parseInfo, hbpg, hipg, hisize, hinodes, hro, hcompat, hincompat, hreserved, hlabel]

/-- There is a descriptor for every group. -/
theorem Geometry.Readable.desc_le (hr : g.Readable) (hi : i < g.aux.groups) :
    sizeofGroupDesc * (i + 1) ≤ g.info.blockSize * g.aux.bgDescBlocks := by
  obtain ⟨k, hk⟩ := hr.survives.blockSize
  have hof := FsAuxInfo.of_create g.create
  have hpow : 0 < 2 ^ k := Nat.two_pow_pos k
  have hQ : g.info.blockSize = sizeofGroupDesc * (32 * 2 ^ k) := by
    unfold sizeofGroupDesc
    omega
  have hgroups : g.aux.groups ≤ g.info.rawGroups := by
    rw [hof.groups]
    split
    · rename_i hdrops
      have hne := (hr.survives.descriptors hdrops).1
      rw [sub32_of_le (Nat.one_le_iff_ne_zero.mpr hne) (u32_lt _)]
      exact Nat.sub_le _ _
    · exact le_rfl
  have hblocks := FsInfo.bgDescBlocks_eq g.info (Q := 32 * 2 ^ k) (by omega) hQ
  rw [hof.bgDescBlocks, hblocks, ← Nat.ceilDiv_eq_add_pred_div, hQ, Nat.mul_assoc]
  refine Nat.mul_le_mul_left _ ?_
  have hceil : g.info.rawGroups ≤ 32 * 2 ^ k * (g.info.rawGroups ⌈/⌉ (32 * 2 ^ k)) :=
    (ceilDiv_le_iff_le_mul (by omega)).mp le_rfl
  omega

theorem Geometry.Usable.double_le (hu : g.Usable) (hlarge : 1024 < g.info.blockSize) :
    2048 ≤ g.info.blockSize := by
  obtain ⟨e, -, he⟩ := hu.blockSize_eq
  rw [he] at hlarge ⊢
  have hlt : 11 ≤ e := (Nat.pow_lt_pow_iff_right (n := 10) Nat.one_lt_two).mp hlarge
  calc 2048 = 2 ^ 11 := rfl
    _ ≤ 2 ^ e := Nat.pow_le_pow_right Nat.two_pos hlt

/-- The superblock is in front of the descriptors. -/
theorem Geometry.Usable.superBlock_le (hu : g.Usable) :
    1024 + Sb.size ≤ g.info.blockSize * (g.aux.firstDataBlock + 1) := by
  have hge := hu.built.blockSize_ge
  rw [(FsAuxInfo.of_create g.create).firstDataBlock]
  unfold Sb.size FsInfo.firstDataBlock
  split
  · rename_i hlarge
    have hdouble := hu.double_le hlarge
    omega
  · omega

/-- The primary superblock. -/
theorem Image.IsOn.superBlock (hu : g.Usable) (hon : im.IsOn g files d)
    (hsuper : superChunk g ∈ im.builder.st.out.chunks) (k : ℕ) (hk : k < Sb.size) :
    d.bytes (1024 + k) = im.supers.sb k := by
  unfold Sb.size at hk
  unfold superChunk at hsuper
  split at hsuper
  · rename_i hlarge
    have hdouble := hu.double_le hlarge
    have hbyte := hon.chunks _ hsuper (1024 + k) (by simp only; omega)
    rw [Nat.zero_mul, Nat.zero_add] at hbyte
    rw [hbyte, Image.data, if_pos hlarge,
      blit_apply_of_mem (by omega) (by unfold Sb.size; omega)]
    rw [Nat.add_sub_cancel_left, Nat.zero_add]
  · rename_i hsmall
    have hone : g.info.blockSize = 1024 := by
      have hge := hu.built.blockSize_ge
      omega
    have hbyte := hon.chunks _ hsuper k hk
    rw [Nat.one_mul, hone] at hbyte
    rw [hbyte, Image.data, if_neg hsmall]

/-- The descriptors behind it. -/
theorem Image.IsOn.groupDescs (hon : im.IsOn g files d)
    (hcopies : allCopies g ⊆ im.builder.st.out.chunks) (hgroups : 0 < g.aux.groups) (k : ℕ)
    (hk : k < g.info.blockSize * g.aux.bgDescBlocks) :
    d.bytes (g.info.blockSize * (g.aux.firstDataBlock + 1) + k) = im.supers.bgDesc k := by
  have hmem : ⟨.groupDescs, g.aux.bgDescBlocks * g.info.blockSize, g.start 0 + 1⟩ ∈ allCopies g := by
    refine List.mem_flatMap.mpr ⟨0, List.mem_range.mpr hgroups, ?_⟩
    unfold copyChunks
    rw [if_pos (hasSuperBlock_zero g), if_neg (not_not.mpr rfl)]
    exact List.mem_singleton_self _
  have hbyte := hon.chunks _ (hcopies hmem) k (by rw [Nat.mul_comm]; exact hk)
  have hstart : g.start 0 = g.aux.firstDataBlock := by simp [Geometry.start]
  rw [hstart, Nat.mul_comm] at hbyte
  exact hbyte

theorem descSize_fillInSb (uuid : Mem) (info : FsInfo) (aux : FsAuxInfo) :
    Sb.descSize.get (ext4FillInSb uuid info aux) = sizeofGroupDesc := by
  have hmem : (Sb.descSize, sizeofGroupDesc) ∈ fillInSbTail info aux := by
    unfold fillInSbTail
    simp
  obtain ⟨i, hi⟩ := List.mem_iff_getElem?.mp hmem
  exact get_fillInSb_of_tail uuid info aux i hi

/-- `read_ext` succeeds, with the parameters of the image. -/
theorem Image.IsOn.exists_readExt (hu : g.Usable) (hr : g.Readable) {uuid : Mem}
    (hon : im.IsOn g files d) (hsuper : superChunk g ∈ im.builder.st.out.chunks)
    (hcopies : allCopies g ⊆ im.builder.st.out.chunks) (hgroups : 0 < g.aux.groups)
    (hs : SupersHold g uuid im.builder.st im.supers) :
    ∃ p, readExt d = .ok p ∧ ReadsBack g.info g.aux p.info p.aux ∧ ReadsImage g p := by
  have hbs := hu.blockSize_le
  have hge := hu.built.blockSize_ge
  have htrip : SbRoundTrips uuid FsInfo.zero g.info g.aux :=
    roundTrips_of_survivesParsing g.create hr.survives
  obtain ⟨info', aux', hparse, hback⟩ := htrip
  -- the superblock on the device is the one that was filled in, but for what came later
  have hsb : ∀ x < Sb.size, x < 12 ∨ 20 ≤ x → x < Sb.jnlBlocks ∨ Sb.jnlBlocks + sizeofIBlock ≤ x →
      d.slice 1024 Sb.size x = ext4FillInSb uuid g.info g.aux x := by
    intro x hx h₁ h₂
    rw [← hs.sb_frame x h₁ h₂, ← hon.superBlock hu hsuper x hx]
    exact if_pos hx
  have hparse' := ext4ParseSb_congr hsb hparse
  have hdesc : Sb.descSize.get (d.slice 1024 Sb.size) = sizeofGroupDesc := by
    rw [← descSize_fillInSb uuid g.info g.aux]
    refine Mem.load_congr fun k hk => hsb _ ?_ ?_ ?_
    all_goals
      simp only [Sb.descSize, Sb.size, Sb.jnlBlocks] at hk ⊢
      omega
  -- where the descriptors end
  have hheader := Geometry.start_add_groupSize_le hu.roomy.fits hgroups
  have hfits := hu.roomy.fits.header_le 0 hgroups
  have hgroup := g.groupSize_le 0
  have hbpg := hu.roomy.blocksPerGroup_le
  have hstart : g.start 0 = g.aux.firstDataBlock := by simp [Geometry.start]
  rw [hu.built.headerBlocks_split, if_pos (hasSuperBlock_zero g)] at hfits
  unfold Geometry.superBlocks at hfits
  have hlast : g.info.blockSize * (g.aux.firstDataBlock + 1) +
      g.info.blockSize * g.aux.bgDescBlocks ≤ d.size := by
    calc g.info.blockSize * (g.aux.firstDataBlock + 1) + g.info.blockSize * g.aux.bgDescBlocks
        = g.info.blockSize * (g.aux.firstDataBlock + 1 + g.aux.bgDescBlocks) := by ring
      _ ≤ g.info.blockSize * g.aux.lenBlocks := Nat.mul_le_mul_left _ (by omega)
      _ ≤ d.size := by
        rw [Nat.mul_comm]
        exact hon.size_ge
  have hlen : g.info.blockSize * g.aux.bgDescBlocks < 2 ^ 31 := by
    have hmul := Nat.mul_le_mul hbs (show g.aux.bgDescBlocks ≤ 8 * 4096 by omega)
    omega
  have hfront := hu.superBlock_le
  have hsize := hu.numbered.inodeSize_ge
  unfold EXT4_GOOD_OLD_INODE_SIZE at hsize
  refine ⟨⟨info', aux', d.slice (g.info.blockSize * (g.aux.firstDataBlock + 1))
    (g.info.blockSize * g.aux.bgDescBlocks), u32 (g.info.blockSize / g.info.inodeSize *
      divRoundUp32 g.info.inodesPerGroup (g.info.blockSize / g.info.inodeSize))⟩,
    readExt_eq_ok.mpr ?_, hback, ?_⟩
  · refine ⟨by omega, hparse', ?_, .inl ?_, ?_, ?_, ?_, ?_, ?_, ?_, ?_⟩
    · rw [hback.featIncompat]
      exact hr.noRecover
    · rw [hdesc]
      rfl
    · rw [Fixup.descLen, hback.blockSize, hback.bgDescBlocks]
      exact hlen
    · rw [Fixup.descLen, hback.blockSize, hback.firstDataBlock, hback.bgDescBlocks]
      exact hlast
    · rw [Fixup.descLen, hback.blockSize, hback.firstDataBlock, hback.bgDescBlocks]
    · rw [hback.featIncompat]
      exact hr.filetype
    · rw [hback.inodeSize]
      omega
    · rw [hback.blockSize, hback.inodeSize]
      exact Nat.div_pos hr.inodeSize_le (by omega)
    · rw [hback.blockSize, hback.inodeSize, hback.inodesPerGroup]
  · refine ⟨hback.blockSize, hback.inodesPerGroup, hback.inodeSize, fun i hi => ?_, fun i hi => ?_⟩
    · unfold Fixup.HasDesc
      rw [hback.blockSize, hback.bgDescBlocks]
      exact hr.desc_le hi
    · have hle := hr.desc_le hi
      have hplaces := hs.places i hi
      have hsame : SameDesc im.supers.bgDesc (d.slice (g.info.blockSize *
          (g.aux.firstDataBlock + 1)) (g.info.blockSize * g.aux.bgDescBlocks)) i := by
        intro x _ hx
        rw [← hon.groupDescs hcopies hgroups x (by omega)]
        exact (if_pos (by omega)).symm
      exact ⟨(hsame.get_eq (by decide)).trans hplaces.blockBitmap,
        (hsame.get_eq (by decide)).trans hplaces.inodeBitmap,
        (hsame.get_eq (by decide)).trans hplaces.inodeTable⟩

end Parameters

/-! ## Extents in a window -/

section Windows

variable {m : Mem} {base off blockSize : ℕ} {ps : List Piece} {out : Output}

theorem HeaderAt.behind {entries depth : ℕ} (h : HeaderAt m (base + off) entries depth) :
    HeaderAt (m.behind base) off entries depth :=
  ⟨(Field.get_at_behind _ _ _ _).trans h.magic, (Field.get_at_behind _ _ _ _).trans h.entries,
    (Field.get_at_behind _ _ _ _).trans h.depth⟩

theorem extentAt_behind (m : Mem) (base off : ℕ) :
    extentAt (m.behind base) off = extentAt m (base + off) := by
  simp only [extentAt, Field.get_at_behind]

theorem ExtentsAt.behind : ∀ {off fileBlock : ℕ}, ExtentsAt m (base + off) fileBlock ps →
    ExtentsAt (m.behind base) off fileBlock ps := by
  induction ps with
  | nil => exact fun _ => trivial
  | cons p ps ih =>
      intro off fileBlock h
      exact ⟨(extentAt_behind m base off).trans h.1, ih (by rw [← Nat.add_assoc]; exact h.2)⟩

theorem NodeAt.behind (h : NodeAt m (base + off) ps) : NodeAt (m.behind base) off ps :=
  ⟨h.header.behind, ExtentsAt.behind (by rw [← Nat.add_assoc]; exact h.extents)⟩

theorem HoldsExtents.behind {leaf : Option (ℕ × ℕ)} (h : HoldsExtents blockSize out m base ps leaf) :
    HoldsExtents blockSize out (m.behind base) 0 ps leaf := by
  cases h with
  | inline node length_le =>
      exact .inline (by rw [Nat.zero_add]; exact node.behind) length_le
  | leaf header index node fits lt queued =>
      refine .leaf (by rw [Nat.zero_add]; exact header.behind) ?_ node fits lt queued
      rw [Field.get_at_behind, Field.get_at_behind]
      simpa [Nat.add_assoc] using index

end Windows

/-! ## Inodes and their blocks -/

/-- The blocks of a file, as many as its size says. -/
def fileBlocks (p : Fixup) (inode : Mem) (d : Device) : Except Stop (List ℕ) :=
  blockList p 1 inode (fileSize inode 0 ⌈/⌉ p.info.blockSize) d

/-- Inode `n`, and what is in its blocks. -/
def readFile (p : Fixup) (n : ℕ) (d : Device) : Except Stop (Mem × Mem) := do
  let inode ← readInode p n d
  let blocks ← fileBlocks p inode d
  let buf ← readBlocks p d blocks
  .ok (inode, buf)

section Reading

variable {g : Geometry} {labels : Prop} {spare own : Set ℕ} {files : List UInt8 → Mem} {im : Image}
  {d : Device} {p : Fixup} {n len : ℕ} {inode : Mem}

/-- A device that holds an image, and the parameters that were read from it. -/
structure Readback (g : Geometry) (labels : Prop) (spare : Set ℕ) (files : List UInt8 → Mem)
    (im : Image) (d : Device) (p : Fixup) : Prop where
  usable : g.Usable
  laid : Laid g labels spare im.builder.st
  queued : Queued g spare im.builder.st
  isOn : im.IsOn g files d
  reads : ReadsImage g p

theorem ReadsImage.inodeOffset_eq (hu : g.Usable) (hp : ReadsImage g p) (hn : g.HasInode n) :
    inodeOffset p n = g.tableBlock (g.groupOf n) * g.info.blockSize + (g.inodeAt n).base := by
  have hbase := hn.base_add_le
  have hisize := hu.numbered.inodeSize_ge
  have htable := hu.numbered.table_le
  unfold EXT4_GOOD_OLD_INODE_SIZE at hisize
  unfold inodeOffset
  simp only
  rw [hn.sub32_eq hu.numbered, hp.blockSize, hp.inodesPerGroup, hp.inodeSize]
  change (Fixup.descField GroupDesc.bgInodeTable (g.groupOf n)).get p.bgDesc * _ +
    u32 (g.inodeAt n).base = _
  rw [(hp.places _ hn.groupOf_lt).inodeTable, u32_of_lt (by omega)]
  rfl

/-- There are two blocks behind an inode table. -/
theorem Geometry.Usable.table_end_le (hu : g.Usable) {i : ℕ} (hi : i < g.aux.groups) :
    g.tableBlock i * g.info.blockSize + g.tableSize + 2 * g.info.blockSize ≤
      g.aux.lenBlocks * g.info.blockSize := by
  have hfits := hu.roomy.size_ge i hi
  have hlast := Geometry.start_add_groupSize_le hu.roomy.fits hi
  rw [hu.built.headerBlocks_split] at hfits
  unfold Geometry.tableSize
  rw [← Nat.add_mul, ← Nat.add_mul]
  refine Nat.mul_le_mul_right _ ?_
  unfold Geometry.tableBlock
  omega

/-- An inode on the device, as far as `ext4fixup` reads it, is the one in memory. -/
theorem Readback.exists_readInode (h : Readback g labels spare files im d p)
    (hn : InUse g im.builder.st n) (hmode : modeOf g im.builder.st n ≠ 0) :
    ∃ inode, readInode p n d = .ok inode ∧ inode.SameOn
      ((im.builder.st.table (g.groupOf n)).behind (g.inodeAt n).base) 0 EXT4_GOOD_OLD_INODE_SIZE := by
  have hu := h.usable
  have hgroup := hn.1.groupOf_lt
  have hge := hu.built.blockSize_ge
  have hbase := hn.1.base_add_le
  have hisize := hu.numbered.inodeSize_ge
  have hend := (hu.table_end_le hgroup).trans h.isOn.size_ge
  have hlt := h.isOn.size_lt
  have hoffset := h.reads.inodeOffset_eq hu hn.1
  unfold EXT4_GOOD_OLD_INODE_SIZE at *
  -- the table is there, and it is queued
  have hsome : (im.builder.st.bgs (g.groupOf n)).inodeTable ≠ none := by
    intro hnone
    apply hmode
    unfold modeOf State.table
    rw [hnone]
    exact field_zero _
  have hchunk := h.queued.table_some _ hgroup hsome
  have hsize : g.info.inodesPerGroup * g.info.inodeSize ≤ g.tableSize := by
    unfold Geometry.tableSize
    rw [hu.numbered.inodeTableBlocks_eq hu.built, Nat.mul_comm _ g.info.blockSize]
    exact (ceilDiv_le_iff_le_mul (by omega)).mp le_rfl
  refine ⟨_, readInode_eq_ok.mpr ⟨?_, ?_, ?_, ?_, rfl⟩, fun x _ hx => ?_⟩
  · rw [h.reads.inodesPerGroup]
    exact hn.1.perGroup_pos.ne'
  · rw [hn.1.sub32_eq hu.numbered, h.reads.inodesPerGroup]
    exact h.reads.hasDesc _ hgroup
  · rw [hoffset]
    unfold seekable
    omega
  · rw [hoffset]
    unfold sizeofInode
    omega
  · have hbyte := h.isOn.chunks _ hchunk ((g.inodeAt n).base + x) (by
      show _ < g.tableSize
      omega)
    unfold Device.slice
    rw [if_pos (by unfold sizeofInode; omega), hoffset, Nat.add_assoc]
    exact hbyte

/-- What is in use can be read. -/
theorem Readback.readBlock_eq (h : Readback g labels spare files im d p) {b : ℕ}
    (hb : b ∈ taken g im.builder.st.bgs) : b * p.info.blockSize + p.info.blockSize ≤ d.size ∧
      readBlock p b d = .ok (d.slice (b * p.info.blockSize) p.info.blockSize) := by
  have hle : b * p.info.blockSize + p.info.blockSize ≤ d.size := by
    rw [h.reads.blockSize, ← Nat.succ_mul]
    exact (Nat.mul_le_mul_right _ (lt_of_mem_taken h.usable.roomy h.laid hb)).trans h.isOn.size_ge
  exact ⟨hle, Ext4.readBlock_eq h.isOn.size_lt hle⟩

/-- The block of a queue entry of one block. -/
theorem Readback.exists_readBlock (h : Readback g labels spare files im d p) {source : Source}
    {b : ℕ} (hc : ⟨source, g.info.blockSize, b⟩ ∈ im.builder.st.out.chunks) :
    ∃ m, readBlock p b d = .ok m ∧ m.SameOn (im.data g files source) 0 g.info.blockSize := by
  have hb := h.queued.taken b (List.mem_flatMap.mpr
    ⟨_, hc, (Chunk.mem_blocks_single h.usable.blockSize_pos).mpr rfl⟩)
  refine ⟨_, (h.readBlock_eq hb).2, fun x _ hx => ?_⟩
  rw [h.reads.blockSize]
  exact (if_pos hx).trans (h.isOn.chunks _ hc x hx)

theorem mem_range_zip {blocks : List ℕ} {i b : ℕ} :
    (i, b) ∈ (List.range blocks.length).zip blocks ↔ blocks[i]? = some b := by
  rw [List.mem_iff_getElem?]
  simp only [List.getElem?_zip_eq_some]
  constructor
  · rintro ⟨j, hj, hb⟩
    obtain ⟨hlt, rfl⟩ := List.getElem?_eq_some_iff.mp hj
    simpa using hb
  · intro hb
    have hlt := (List.getElem?_eq_some_iff.mp hb).1
    exact ⟨i, by simp [hlt], hb⟩

/-- The reader finds the blocks of the extents. -/
theorem Readback.fileBlocks_eq (h : Readback g labels spare files im d p) {m : Mem}
    {ps : List Piece} {leaf : Option (ℕ × ℕ)}
    (hext : HoldsExtents g.info.blockSize im.builder.st.out m 0 ps leaf)
    (hflags : Inode.iFlags.get m &&& EXT4_EXTENTS_FL ≠ 0)
    (hblocks : lenOf ps = fileSize m 0 ⌈/⌉ g.info.blockSize) (hlt : lenOf ps ≤ 2 ^ 32)
    (hinode : inode.SameOn m 0 EXT4_GOOD_OLD_INODE_SIZE) :
    fileBlocks p inode d = .ok (blocksOf ps) := by
  have hbs := h.usable.blockSize_le
  have hsize : fileSize inode 0 = fileSize m 0 :=
    fileSize_congr (hinode.mono (by decide) (by decide)) (hinode.mono (by decide) (by decide))
  have hext' := hext.congr (hinode.symm.mono (by decide) (by decide)) (List.Subset.refl _) le_rfl
    fun _ _ => rfl
  have hents : getBlockListExtents (fun b => readBlockBounded p b d) p.info.blockSize 1 inode 0 =
      .ok ((List.range (blocksOf ps).length).zip (blocksOf ps)) := by
    rw [length_blocksOf, readBlockBounded_eq_readBlock (h.reads.blockSize.trans_le hbs)]
    unfold getBlockListExtents
    simp only
    cases hext' with
    | inline node length_le =>
        rw [node.header.magic, if_neg (not_not.mpr rfl), node.header.depth, if_pos rfl]
        refine node.getExtentEnts_eq ?_ hlt
        unfold sizeofInode Inode.iBlockOffset sizeofExtent
        omega
    | leaf header index node fits lt queued =>
        obtain ⟨block, hread, hsame⟩ := h.exists_readBlock queued
        have hnode : NodeAt block 0 ps := by
          refine node.congr fun x _ hx => ?_
          rw [hsame x (Nat.zero_le _) (by omega)]
          exact congrArg _ (Nat.zero_add x).symm
        have hinside : ¬ 0 + sizeofInode < 0 + Inode.iBlockOffset + sizeofExtent + sizeofExtent := by
          decide
        rw [header.magic, if_neg (not_not.mpr rfl), header.depth, if_neg Nat.one_ne_zero,
          getExtentIdx, header.depth, if_neg Nat.one_ne_zero, header.entries]
        simp only [List.range_one, List.mapM_cons, List.mapM_nil, if_neg hinside, index, hread,
          bind_ok, hnode.header.depth, if_true]
        rw [h.reads.blockSize, hnode.getExtentEnts_eq (by omega) hlt]
        exact congrArg _ (List.append_nil _)
  unfold fileBlocks
  rw [hsize, h.reads.blockSize, ← hblocks, ← length_blocksOf]
  refine blockList_of_mem ?_ fun i b => mem_range_zip
  unfold blockAssignments
  rw [if_pos ?_]
  · exact hents
  · rw [Field.get_congr hinode (by decide) (by decide)]
    exact hflags

/-- The bytes of a file are read from where the chunks have put them. -/
theorem Readback.readFile_eq (h : Readback g labels spare files im d p) {source : ℕ → Source}
    {ps : List Piece} {leaf : Option (ℕ × ℕ)} (content : Mem)
    (hn : InUse g im.builder.st n) (hmode : modeOf g im.builder.st n ≠ 0)
    (hdata : HoldsData g own im.builder.st n len source ps leaf)
    (hsource : ∀ offset, im.data g files (source offset) = content.behind offset) :
    ∃ inode buf, readInode p n d = .ok inode ∧ readFile p n d = .ok (inode, buf) ∧ inode.SameOn
      ((im.builder.st.table (g.groupOf n)).behind (g.inodeAt n).base) 0 EXT4_GOOD_OLD_INODE_SIZE ∧
      buf.SameOn content 0 len := by
  have hpos := h.usable.blockSize_pos
  obtain ⟨inode, hread, hinode⟩ := h.exists_readInode hn hmode
  have hsize : fileSize ((im.builder.st.table (g.groupOf n)).behind (g.inodeAt n).base) 0 = len := by
    rw [← hdata.size]
    unfold fileSize
    simp only [Field.get_at_behind, Nat.add_zero]
  have hblocks : fileBlocks p inode d = .ok (blocksOf ps) := by
    refine h.fileBlocks_eq hdata.extents.behind ?_ (by rw [hsize, hdata.blocks])
      hdata.blocks_lt.le hinode
    rw [Field.get_behind]
    exact hdata.flags
  -- every block of the file is one that some chunk fills
  have hplace : ∀ x < len, ∃ b, (blocksOf ps)[x / g.info.blockSize]? = some b ∧
      b ∈ taken g im.builder.st.bgs ∧
      d.bytes (b * g.info.blockSize + x % g.info.blockSize) = content x := by
    intro x hx
    obtain ⟨b, hb, c, hc, offset, hcs, hlo, hhi, hat⟩ := hdata.places x hx
    have hbyte := h.isOn.chunks c hc (x - offset) (by omega)
    rw [hat, hcs, hsource, behind_apply, Nat.add_sub_cancel' hlo] at hbyte
    refine ⟨b, hb, h.queued.taken b (List.mem_flatMap.mpr ⟨c, hc, ?_⟩), hbyte⟩
    have hcovers : (im.write g files c).Covers (b * g.info.blockSize + x % g.info.blockSize) := by
      rw [← hat]
      exact ⟨Nat.le_add_right _ _, Nat.add_lt_add_left (by simp only [Image.write]; omega) _⟩
    have hmem := mem_blocks_of_covers hpos hcovers
    rwa [Nat.mul_comm, Nat.mul_add_div hpos, Nat.div_eq_of_lt (Nat.mod_lt x hpos),
      Nat.add_zero] at hmem
  have hall : ∀ b ∈ blocksOf ps, b * p.info.blockSize + p.info.blockSize ≤ d.size := by
    intro b hb
    obtain ⟨j, hj, rfl⟩ := List.mem_iff_getElem.mp hb
    have hjlt : j * g.info.blockSize < len := by
      rw [length_blocksOf, hdata.blocks] at hj
      by_contra hge
      have hle : len ⌈/⌉ g.info.blockSize ≤ j :=
        (ceilDiv_le_iff_le_mul hpos).mpr (by rw [Nat.mul_comm]; omega)
      omega
    obtain ⟨b, hb, htaken, -⟩ := hplace _ hjlt
    rw [Nat.mul_div_cancel _ hpos, List.getElem?_eq_getElem hj, Option.some.injEq] at hb
    rw [hb]
    exact (h.readBlock_eq htaken).1
  have hbufs := readBlocks_eq (h.reads.blockSize ▸ hpos) h.isOn.size_lt hall
  refine ⟨inode, dirBuf p d (blocksOf ps), hread, ?_, hinode, fun x _ hx => ?_⟩
  · rw [readFile, hread, bind_ok, hblocks, bind_ok, hbufs, bind_ok]
  · obtain ⟨b, hb, -, hbyte⟩ := hplace x hx
    have hinside : x < g.info.blockSize * (blocksOf ps).length := by
      rw [length_blocksOf, hdata.blocks]
      exact hx.trans_le ((ceilDiv_le_iff_le_mul hpos).mp le_rfl)
    unfold dirBuf
    rw [h.reads.blockSize, if_pos hinside, List.getD_eq_getElem?_getD, hb]
    exact hbyte

end Reading

/-! ## The view on the device -/

/-- The type, the links and the size of an inode that can be read. -/
structure ReadsInode (p : Fixup) (d : Device) (n type links size : ℕ) (inode : Mem) : Prop where
  read : readInode p n d = .ok inode
  type : Inode.iMode.get inode &&& S_IFMT = type
  links : Inode.iLinksCount.get inode = u16 links
  size : fileSize inode 0 = size

/-- What a reader of the device finds; `files` is what was in the files of the host. -/
def deviceView (p : Fixup) (d : Device) (files : List UInt8 → Mem) : FsView where
  dir n links entries := ∃ inode buf size rs, ReadsInode p d n S_IFDIR links size inode ∧
    readFile p n d = .ok (inode, buf) ∧ p.info.blockSize ∣ size ∧
      Written p.info.blockSize buf size entries rs
  file n path size := ∃ inode, ReadsInode p d n S_IFREG 1 size inode ∧
    (0 < size → ∃ buf, readFile p n d = .ok (inode, buf) ∧ buf.SameOn (files path) 0 size)
  link n target := ∃ inode, ReadsInode p d n S_IFLNK 1 target.length inode ∧
    Inode.iFlags.get inode &&& EXT4_EXTENTS_FL = 0 ∧
      (target.length + 1 ≤ sizeofIBlock → inode.bytes Inode.iBlockOffset target.length = target) ∧
      (sizeofIBlock < target.length + 1 → ∃ block,
        readBlock p ((Inode.iBlock 0).get inode) d = .ok block ∧
          block.bytes 0 target.length = target)
  described n mode dentry := ∃ inode, readInode p n d = .ok inode ∧ Inode.iMode.get inode = mode ∧
    Inode.iUid.get inode = dentry.uid ∧ Inode.iGid.get inode = dentry.gid ∧
      ∀ f ∈ [Inode.iAtime, Inode.iMtime, Inode.iCtime], f.get inode = dentry.mtime

section View

variable {g : Geometry} {labels : Prop} {spare own done : Set ℕ} {files : List UInt8 → Mem}
  {im : Image} {d : Device} {p : Fixup} {n type links size : ℕ} {inode : Mem}

/-- The window on an inode of the table. -/
theorem window_get {table : Mem} {base : ℕ}
    (hinode : inode.SameOn (table.behind base) 0 EXT4_GOOD_OLD_INODE_SIZE) {f : Field}
    (hf : f.offset + f.width ≤ EXT4_GOOD_OLD_INODE_SIZE) : f.get inode = (f.at_ base).get table := by
  rw [Field.get_congr hinode (Nat.zero_le _) hf, Field.get_behind]

theorem window_fileSize {table : Mem} {base : ℕ}
    (hinode : inode.SameOn (table.behind base) 0 EXT4_GOOD_OLD_INODE_SIZE) :
    fileSize inode 0 = fileSize table base := by
  unfold fileSize
  rw [← window_get hinode (by decide), ← window_get hinode (by decide)]
  rfl

theorem InodeIs.reads (his : InodeIs g im.builder.st n type links)
    (hinode : inode.SameOn ((im.builder.st.table (g.groupOf n)).behind (g.inodeAt n).base) 0
      EXT4_GOOD_OLD_INODE_SIZE) (hread : readInode p n d = .ok inode)
    (hsize : fileSize (im.builder.st.table (g.groupOf n)) (g.inodeAt n).base = size) :
    ReadsInode p d n type links size inode := by
  refine ⟨hread, ?_, ?_, (window_fileSize hinode).trans hsize⟩
  · rw [window_get hinode (by decide)]
    exact his.type
  · rw [window_get hinode (by decide)]
    exact his.links

/-- An inode with a type is not empty. -/
theorem InodeIs.mode_ne_zero {s : State} (his : InodeIs g s n type links) (htype : type ≠ 0) :
    modeOf g s n ≠ 0 := by
  intro hzero
  have htype' := his.type
  rw [hzero, Nat.zero_and] at htype'
  exact htype htype'.symm

theorem Written.congr {blockSize size : ℕ} {buf buf' : Mem} {entries : List (ℕ × List UInt8 × ℕ)}
    {rs : List ℕ} (h : Written blockSize buf size entries rs) (hsame : buf'.SameOn buf 0 size) :
    Written blockSize buf' size entries rs := by
  obtain ⟨htiles, hlength, hentries⟩ := h.tiles.frame hsame
  refine ⟨htiles, fun r hr => ?_, hentries.trans h.entries⟩
  rw [hlength r hr]
  exact h.aligned r hr

/-- A reader of the device finds what is in memory. -/
theorem Readback.memView_le (h : Readback g labels spare files im d p)
    (hdone : ∀ n ∈ done, modeOf g im.builder.st n ≠ 0) :
    (memView g own done im.builder.st).Le (deviceView p d files) where
  dir := by
    rintro n links entries ⟨data, rs, hdir⟩
    obtain ⟨len, ps, leaf, hdata, -, hwhole, hwritten⟩ := hdir.stored
    obtain ⟨inode, buf, hread, hfile, hinode, hbuf⟩ := h.readFile_eq
      (im.builder.st.out.buffers data).bytes hdir.is.inUse (hdir.is.mode_ne_zero (by decide)) hdata
      fun _ => rfl
    refine ⟨inode, buf, len, rs, hdir.is.reads hinode hread hdata.size, hfile, ?_, ?_⟩
    · rw [h.reads.blockSize]
      exact hwhole
    · rw [h.reads.blockSize]
      exact hwritten.congr hbuf
  file := by
    intro n path size hfile
    have hmode := hfile.is.mode_ne_zero (by decide)
    rcases Nat.eq_zero_or_pos size with rfl | hpos
    · obtain ⟨inode, hread, hinode⟩ := h.exists_readInode hfile.is.inUse hmode
      exact ⟨inode, hfile.is.reads hinode hread (hfile.empty rfl), fun hlt => absurd hlt (lt_irrefl 0)⟩
    · obtain ⟨ps, leaf, hdata⟩ := hfile.data hpos
      obtain ⟨inode, buf, hread, hbytes, hinode, hbuf⟩ := h.readFile_eq (files path) hfile.is.inUse
        hmode hdata fun _ => rfl
      exact ⟨inode, hfile.is.reads hinode hread hdata.size, fun _ => ⟨buf, hbytes, hbuf⟩⟩
  link := by
    intro n target hlink
    obtain ⟨inode, hread, hinode⟩ := h.exists_readInode hlink.is.inUse
      (hlink.is.mode_ne_zero (by decide))
    refine ⟨inode, hlink.is.reads hinode hread hlink.size, ?_, fun hfast => ?_, fun hslow => ?_⟩
    · rw [window_get hinode (by decide)]
      exact hlink.flags
    · have hfast' := hlink.fast hfast
      rw [← bytes_behind] at hfast'
      refine Eq.trans (bytes_congr fun k hk => hinode _ (Nat.zero_le _) ?_) hfast'
      unfold sizeofIBlock at hfast
      unfold Inode.iBlockOffset EXT4_GOOD_OLD_INODE_SIZE
      omega
    · obtain ⟨hle, data, b, hb, -, -, hchunk, hbytes⟩ := hlink.slow hslow
      obtain ⟨block, hblock, hsame⟩ := h.exists_readBlock hchunk
      refine ⟨block, ?_, Eq.trans (bytes_congr fun k hk => ?_) hbytes⟩
      · rw [window_get hinode (by decide), hb]
        exact hblock
      · rw [hsame _ (Nat.zero_le _) (by omega)]
        show (im.builder.st.out.buffers data).bytes (0 + (0 + k)) = _
        rw [Nat.zero_add]
  described := by
    rintro n mode dentry ⟨hn, hin, hhas⟩
    obtain ⟨inode, hread, hinode⟩ := h.exists_readInode hin (hdone n hn)
    refine ⟨inode, hread, ?_, ?_, ?_, fun f hf => ?_⟩
    · rw [window_get hinode (by decide)]
      exact hhas.mode
    · rw [window_get hinode (by decide)]
      exact hhas.uid
    · rw [window_get hinode (by decide)]
      exact hhas.gid
    · rw [window_get hinode]
      · exact hhas.times f hf
      · revert f
        decide

end View

/-! ## The whole way -/

section Whole

variable {g : Geometry} {labels : Prop} {spare : Set ℕ} {made dirs : List ℕ} {uuid : Mem}
  {files : List UInt8 → Mem} {im : Image} {d : Device}

/-- A device that holds an image can be read. -/
theorem Made.exists_readback (hu : g.Usable) (hr : g.Readable)
    (hm : Made g labels spare made dirs im.builder.st)
    (hs : SupersHold g uuid im.builder.st im.supers)
    (hfull : labels → HasFreeBlock g im.builder.st) (hon : im.IsOn g files d) :
    ∃ p, readExt d = .ok p ∧ ReadsBack g.info g.aux p.info p.aux ∧
      Readback g labels spare files im d p := by
  have hroot : InUse g im.builder.st EXT4_ROOT_INO :=
    (hm.inUse _).mpr (List.mem_append_left _ (by decide))
  have hgroups : 0 < g.aux.groups := Nat.zero_lt_of_lt hroot.1.groupOf_lt
  obtain ⟨p, hp, hback, hreads⟩ := hon.exists_readExt hu hr hm.super hm.copies hgroups hs
  exact ⟨p, hp, hback, hu, hm.laid, hm.laid.queued hfull, hon, hreads⟩

/-- The tree that was mirrored in memory is mirrored on the device. -/
theorem Made.mirrors_device (hm : Made g labels spare made dirs im.builder.st) {own : Set ℕ}
    {host : HostTree} {fuel : ℕ} {directory : Option (List UInt8)} {mountpoint : List UInt8}
    (hmirrors : (memView g own {k | k ∈ EXT4_ROOT_INO :: made} im.builder.st).MirrorsTree host
      g.info.blockSize fuel directory mountpoint made) {p : Fixup}
    (h : Readback g labels spare files im d p) :
    (deviceView p d files).MirrorsTree host g.info.blockSize fuel directory mountpoint made := by
  refine hmirrors.mono (h.memView_le fun n hn hzero => ?_)
  rcases List.mem_cons.mp hn with rfl | hn
  · have hmode := hm.root.mode
    rw [hzero] at hmode
    exact absurd hmode (by decide)
  · refine hm.typed n hn ?_
    rw [hzero, Nat.zero_and]

end Whole

end SystemExtras.Ext4
