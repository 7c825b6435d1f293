import SystemExtras.Ext4.Backing

/-!
# The layout of an image

`Laid` is what holds of a filesystem under construction between any two calls:
the bookkeeping of blocks and inodes is right in every group, and what is queued
for the device fills each block at most once, and only blocks in use.  The
blocks of the inode tables are in use from the start, but a table is queued when
the first of its inodes is asked for (`Queued.table_none`); the blocks in `spare`
are kept for the copies of the superblock.

`Keeps` says what a call leaves alone.  It may change the inodes in `T` and the
buffers in `B`, and otherwise only inodes and buffers that it has made itself.
-/

namespace SystemExtras.Ext4

open Mem

/-! ## Inodes in use -/

/-- Inode `n` has been handed out. -/
def InUse (g : Geometry) (s : State) (n : ℕ) : Prop :=
  g.HasInode n ∧ g.indexOf n + 1 < (s.bgs (g.groupOf n)).firstFreeInode

/-- The bytes of inode `n` are the same. -/
def SameInode (g : Geometry) (s s' : State) (n : ℕ) : Prop :=
  (s.table (g.groupOf n)).SameOn (s'.table (g.groupOf n)) (g.inodeAt n).base
    ((g.inodeAt n).base + g.info.inodeSize)

theorem SameInode.refl (g : Geometry) (s : State) (n : ℕ) : SameInode g s s n := fun _ _ _ => rfl

theorem SameInode.trans {g : Geometry} {s s' s'' : State} {n : ℕ} (h : SameInode g s s' n)
    (h' : SameInode g s' s'' n) : SameInode g s s'' n := Mem.SameOn.trans h h'

/-- Inodes do not overlap. -/
theorem inodes_apart {g : Geometry} (hn : g.Numbered) {m n x : ℕ} (hm : g.HasInode m)
    (hn' : g.HasInode n) (hne : m ≠ n) (hgroup : g.groupOf m = g.groupOf n)
    (hlo : (g.inodeAt m).base ≤ x) (hhi : x < (g.inodeAt m).base + g.info.inodeSize) :
    x < (g.inodeAt n).base ∨ (g.inodeAt n).base + g.info.inodeSize ≤ x := by
  have hindex : g.indexOf m ≠ g.indexOf n := by
    intro heq
    refine hne (Geometry.inodeAt_injective hn hm hn' ?_)
    unfold Geometry.inodeAt
    rw [hgroup, heq]
  unfold Geometry.inodeAt at *
  simp only at *
  rcases Nat.lt_or_gt_of_ne hindex with hlt | hgt
  · have hmul := Nat.mul_le_mul_right g.info.inodeSize hlt
    rw [Nat.succ_mul] at hmul
    omega
  · have hmul := Nat.mul_le_mul_right g.info.inodeSize hgt
    rw [Nat.succ_mul] at hmul
    omega

/-! ## The blocks of inode tables -/

/-- The block at which the inode table of group `i` starts. -/
def Geometry.tableBlock (g : Geometry) (i : ℕ) : ℕ :=
  g.start i + (2 + if g.hasSuperBlock i then g.superBlocks else 0)

/-- The queue entry of the inode table of group `i`. -/
def tableChunk (g : Geometry) (i : ℕ) : Chunk := ⟨.inodeTable i, g.tableSize, g.tableBlock i⟩

/-- The blocks of the superblock of a group and its copies of the descriptors. -/
def Geometry.superArea (g : Geometry) : Set ℕ :=
  {b | ∃ i < g.aux.groups, g.hasSuperBlock i = true ∧ g.start i ≤ b ∧ b < g.start i + g.superBlocks}

section Tables

variable {g : Geometry} {i j b : ℕ}

theorem Geometry.Numbered.inodeTableBlocks_eq (hn : g.Numbered) (hb : g.Built) :
    g.aux.inodeTableBlocks = g.info.inodesPerGroup * g.info.inodeSize ⌈/⌉ g.info.blockSize := by
  have hof := FsAuxInfo.of_create g.create
  have hle := hn.table_le
  have hge := hb.blockSize_ge
  rw [hof.inodeTableBlocks, FsInfo.inodeTableBlocks, u32_of_lt (by omega),
    divRoundUp32_eq (by omega)]

/-- The size of a table is a 32-bit number. -/
theorem Geometry.Numbered.tableSize_lt (hn : g.Numbered) (hb : g.Built) :
    g.tableSize < 2 ^ 32 := by
  have hle := hn.table_le
  have hge := hb.blockSize_ge
  unfold Geometry.tableSize
  rw [hn.inodeTableBlocks_eq hb, Nat.ceilDiv_eq_add_pred_div]
  have hmul := Nat.div_mul_le_self
    (g.info.inodesPerGroup * g.info.inodeSize + g.info.blockSize - 1) g.info.blockSize
  omega

theorem mem_tableChunk_blocks (hb : g.Built) : b ∈ (tableChunk g i).blocks g.info.blockSize ↔
    g.tableBlock i ≤ b ∧ b < g.tableBlock i + g.aux.inodeTableBlocks := by
  have hge := hb.blockSize_ge
  rw [Chunk.mem_blocks]
  unfold tableChunk Geometry.tableSize
  simp only
  rw [mul_ceilDiv_self (by omega)]

/-- A table is in the header of its group, behind the superblock and the bitmaps. -/
theorem mem_header_of_tableChunk (hb : g.Built)
    (hmem : b ∈ (tableChunk g i).blocks g.info.blockSize) :
    g.start i ≤ b ∧ b < g.start i + g.headerBlocks i := by
  rw [mem_tableChunk_blocks hb] at hmem
  unfold Geometry.tableBlock at hmem
  rw [hb.headerBlocks_split]
  omega

/-- The headers of two groups do not meet. -/
theorem header_unique (hg : g.Fits) (hi : i < g.aux.groups) (hj : j < g.aux.groups)
    (hbi : g.start i ≤ b ∧ b < g.start i + g.headerBlocks i)
    (hbj : g.start j ≤ b ∧ b < g.start j + g.headerBlocks j) : i = j := by
  have hle := (hg.header_le i hi).trans (g.groupSize_le i)
  have hle' := (hg.header_le j hj).trans (g.groupSize_le j)
  exact (Geometry.group_unique (g := g) (a := b - g.start i) (b := b - g.start j) (by omega) (by omega)
    (by omega)).1

theorem mem_header_of_superArea (hb : g.Built) (hmem : b ∈ g.superArea) :
    ∃ i < g.aux.groups, g.hasSuperBlock i = true ∧ b < g.start i + g.superBlocks ∧
      g.start i ≤ b ∧ b < g.start i + g.headerBlocks i := by
  obtain ⟨i, hi, hsuper, hlo, hhi⟩ := hmem
  have hsplit := hb.headerBlocks_split i
  rw [if_pos hsuper] at hsplit
  exact ⟨i, hi, hsuper, hhi, hlo, by omega⟩

/-- The tables keep off the superblocks. -/
theorem not_mem_superArea_of_tableChunk (hg : g.Fits) (hb : g.Built) (hi : i < g.aux.groups)
    (hmem : b ∈ (tableChunk g i).blocks g.info.blockSize) : b ∉ g.superArea := by
  intro harea
  obtain ⟨j, hj, hsuper, hhi, hheader⟩ := mem_header_of_superArea hb harea
  obtain rfl := header_unique hg hi hj (mem_header_of_tableChunk hb hmem) hheader
  rw [mem_tableChunk_blocks hb] at hmem
  unfold Geometry.tableBlock at hmem
  rw [if_pos hsuper] at hmem
  omega

end Tables

/-! ## The invariant -/

/-- A chunk that can be queued in a state with `brk` buffers. -/
def Chunk.Sourced (g : Geometry) (brk : ℕ) (c : Chunk) : Prop :=
  match c.source with
  | .bitmaps i => i < g.aux.groups ∧ c = bitmapsChunk g i
  | .inodeTable i => i < g.aux.groups ∧ c = tableChunk g i
  | .buffer id _ => id < brk
  | _ => True

/-- What is queued fills each block at most once, and only blocks in use. -/
structure Queued (g : Geometry) (spare : Set ℕ) (s : State) : Prop where
  nodup : (chunkBlocks g.info.blockSize s.out.chunks).Nodup
  taken : ∀ b ∈ chunkBlocks g.info.blockSize s.out.chunks, b ∈ taken g s.bgs
  spare_super : spare ⊆ g.superArea
  spare_free : ∀ b ∈ spare, b ∉ chunkBlocks g.info.blockSize s.out.chunks
  table_none : ∀ i < g.aux.groups, (s.bgs i).inodeTable = none →
    ∀ b ∈ (tableChunk g i).blocks g.info.blockSize, b ∉ chunkBlocks g.info.blockSize s.out.chunks
  table_some : ∀ i < g.aux.groups, (s.bgs i).inodeTable ≠ none → tableChunk g i ∈ s.out.chunks
  bitmaps : ∀ i < g.aux.groups, bitmapsChunk g i ∈ s.out.chunks
  sources : ∀ c ∈ s.out.chunks, c.Sourced g s.out.brk

/-- What holds between any two calls.  Where labels are written, nothing is said of the queue of a
filesystem that is full: the block of a label that could not be allocated is queued all the same. -/
structure Laid (g : Geometry) (labels : Prop) (spare : Set ℕ) (s : State) : Prop where
  groups : GroupsInv g s.bgs
  counted : Counted g s.bgs
  hasSuperblock : ∀ i < g.aux.groups, (s.bgs i).hasSuperblock = g.hasSuperBlock i
  inodes : ∀ i < g.aux.groups, InodesInv g (s.bgs i)
  queued : (labels → HasFreeBlock g s) → Queued g spare s

/-- What a call leaves alone that may change the inodes in `T` and the buffers in `B`. -/
structure Keeps (g : Geometry) (T B : Set ℕ) (s s' : State) : Prop where
  chunks : s.out.chunks ⊆ s'.out.chunks
  brk : s.out.brk ≤ s'.out.brk
  buffers : ∀ id < s.out.brk, id ∉ B → s'.out.buffers id = s.out.buffers id
  inUse : ∀ n, InUse g s n → InUse g s' n
  inodes : ∀ n, InUse g s n → n ∉ T → SameInode g s s' n
  free : HasFreeBlock g s' → HasFreeBlock g s

namespace Keeps

variable {g : Geometry} {T T' B B' : Set ℕ} {s s' s'' : State}

theorem refl (s : State) : Keeps g T B s s :=
  ⟨fun _ hc => hc, le_rfl, fun _ _ _ => rfl, fun _ h => h, fun n _ _ => SameInode.refl g s n, id⟩

theorem trans (h : Keeps g T B s s') (h' : Keeps g T B s' s'') : Keeps g T B s s'' where
  chunks := fun _ hc => h'.chunks (h.chunks hc)
  brk := h.brk.trans h'.brk
  buffers := fun id hid hB =>
    (h'.buffers id (hid.trans_le h.brk) hB).trans (h.buffers id hid hB)
  inUse := fun n hn => h'.inUse n (h.inUse n hn)
  inodes := fun n hn hT => (h.inodes n hn hT).trans (h'.inodes n (h.inUse n hn) hT)
  free := fun hfree => h.free (h'.free hfree)

theorem mono (h : Keeps g T B s s') (hT : T ⊆ T') (hB : B ⊆ B') : Keeps g T' B' s s' where
  chunks := h.chunks
  brk := h.brk
  buffers := fun id hid hid' => h.buffers id hid fun hmem => hid' (hB hmem)
  inUse := h.inUse
  inodes := fun n hn hn' => h.inodes n hn fun hmem => hn' (hT hmem)
  free := h.free

/-- What the second of two calls changes may have been made by the first. -/
theorem trans_new (h : Keeps g T B s s') (h' : Keeps g T' B' s' s'')
    (hT : ∀ n ∈ T', InUse g s n → n ∈ T) (hB : ∀ id ∈ B', id < s.out.brk → id ∈ B) :
    Keeps g T B s s'' where
  chunks := fun _ hc => h'.chunks (h.chunks hc)
  brk := h.brk.trans h'.brk
  buffers := fun id hid hid' => (h'.buffers id (hid.trans_le h.brk) fun hmem =>
    hid' (hB id hmem hid)).trans (h.buffers id hid hid')
  inUse := fun n hn => h'.inUse n (h.inUse n hn)
  inodes := fun n hn hn' => (h.inodes n hn hn').trans (h'.inodes n (h.inUse n hn) fun hmem =>
    hn' (hT n hmem hn))
  free := fun hfree => h.free (h'.free hfree)

end Keeps

/-- The inodes in `made` have been handed out, those in `dirs` as directories. -/
structure Makes (g : Geometry) (made dirs : List ℕ) (s s' : State) : Prop where
  fills : Fills {n | InUse g s n} {n | InUse g s' n} made
  only : ∀ n, InUse g s' n → InUse g s n ∨ n ∈ made
  dirs : ∀ i < g.aux.groups, u16 (s'.bgs i).usedDirs =
    u16 ((s.bgs i).usedDirs + dirs.countP (g.groupOf · = i))

namespace Makes

variable {g : Geometry} {made made' dirs dirs' : List ℕ} {s s' s'' : State}

theorem trans (h : Makes g made dirs s s') (h' : Makes g made' dirs' s' s'') :
    Makes g (made ++ made') (dirs ++ dirs') s s'' where
  fills := h.fills.trans h'.fills
  only := by
    intro n hn
    rw [List.mem_append]
    rcases h'.only n hn with hn | hn
    · exact (h.only n hn).imp_right .inl
    · exact .inr (.inr hn)
  dirs := by
    intro i hi
    have hfirst := h.dirs i hi
    rw [h'.dirs i hi, List.countP_append]
    unfold u16 at *
    rw [← Nat.mod_add_mod, hfirst, Nat.mod_add_mod, Nat.add_assoc]

/-- Nothing is handed out. -/
theorem of_same (hinodes : ∀ i, (s'.bgs i).firstFreeInode = (s.bgs i).firstFreeInode)
    (hdirs : ∀ i, (s'.bgs i).usedDirs = (s.bgs i).usedDirs) : Makes g [] [] s s' := by
  have hsame : ∀ n, InUse g s' n ↔ InUse g s n := by
    intro n
    unfold InUse
    rw [hinodes]
  refine ⟨Fills.of_subset fun n hn => (hsame n).mpr hn, fun n hn => .inl ((hsame n).mp hn), ?_⟩
  intro i _
  rw [hdirs, List.countP_nil, Nat.add_zero]

end Makes

/-- A call that turns a laid out filesystem into another.  It changes the inodes in `T` and the
buffers in `B`, and hands out the inodes in `made`, those in `dirs` as directories. -/
structure Does (g : Geometry) (labels : Prop) (spare T B : Set ℕ) (made dirs : List ℕ)
    (s s' : State) : Prop where
  laid : Laid g labels spare s'
  keeps : Keeps g T B s s'
  makes : Makes g made dirs s s'

namespace Does

variable {g : Geometry} {labels : Prop} {spare T T' B B' : Set ℕ} {made made' dirs dirs' : List ℕ}
  {s s' s'' : State}

/-- The second call may use blocks that were kept. -/
theorem trans {kept : Set ℕ} (h : Does g labels kept T B made dirs s s')
    (h' : Does g labels spare T B made' dirs' s' s'') :
    Does g labels spare T B (made ++ made') (dirs ++ dirs') s s'' :=
  ⟨h'.laid, h.keeps.trans h'.keeps, h.makes.trans h'.makes⟩

theorem trans_new {kept : Set ℕ} (h : Does g labels kept T B made dirs s s')
    (h' : Does g labels spare T' B' made' dirs' s' s'') (hT : ∀ n ∈ T', InUse g s n → n ∈ T)
    (hB : ∀ id ∈ B', id < s.out.brk → id ∈ B) :
    Does g labels spare T B (made ++ made') (dirs ++ dirs') s s'' :=
  ⟨h'.laid, h.keeps.trans_new h'.keeps hT hB, h.makes.trans h'.makes⟩

theorem mono (h : Does g labels spare T B made dirs s s') (hT : T ⊆ T') (hB : B ⊆ B') :
    Does g labels spare T' B' made dirs s s' := ⟨h.laid, h.keeps.mono hT hB, h.makes⟩

end Does

/-! ## The calls -/

section Calls

variable {g : Geometry} {labels : Prop} {spare : Set ℕ} {s s' : State}

theorem Chunk.Sourced.mono {c : Chunk} {brk brk' : ℕ} (h : c.Sourced g brk) (hle : brk ≤ brk') :
    c.Sourced g brk' := by
  unfold Chunk.Sourced at *
  split <;> simp_all
  omega

theorem Chunk.sourced_of_new {c : Chunk} {lo hi : ℕ} (h : c.source.New lo hi) : c.Sourced g hi := by
  unfold Chunk.Sourced
  cases hsource : c.source with
  | buffer id offset =>
      rw [hsource] at h
      exact h.2
  | file name offset => trivial
  | superBlock => trivial
  | backupSuperBlock bg => trivial
  | groupDescs => trivial
  | bitmaps i =>
      rw [hsource] at h
      exact h.elim
  | inodeTable i =>
      rw [hsource] at h
      exact h.elim

/-- Header blocks are in use. -/
theorem Laid.mem_taken (h : Laid g labels spare s) {i b : ℕ} (hi : i < g.aux.groups)
    (hb : g.start i ≤ b ∧ b < g.start i + g.headerBlocks i) : b ∈ Ext4.taken g s.bgs :=
  mem_taken_of_header h.groups hi hb.1 hb.2

theorem SameInodes.sameInode {n : ℕ}
    (h : SameInodes g (s.bgs (g.groupOf n)) (s'.bgs (g.groupOf n))) : SameInode g s s' n := by
  intro x _ _
  unfold State.table
  rw [h.inodeTable]

/-- A call that backs inodes with blocks. -/
theorem Backs.does (hb : g.Built) {new : List Chunk} (h : Backs g s s' new)
    (hl : Laid g labels spare s) : Does g labels spare ∅ ∅ [] [] s s' := by
  have hfresh : ∀ i < g.aux.groups, ∀ b, g.start i ≤ b ∧ b < g.start i + g.headerBlocks i →
      b ∉ chunkBlocks g.info.blockSize new :=
    fun i hi b hheader hmem => h.fills.fresh b hmem (hl.mem_taken hi hheader)
  refine ⟨⟨h.groups, h.counted, fun i hi => (h.inodes i).hasSuperblock.trans (hl.hasSuperblock i hi),
    fun i hi => (h.inodes i).inv (hl.inodes i hi), fun hroom => ?_⟩, ?_,
    .of_same (fun i => (h.inodes i).firstFreeInode) fun i => (h.inodes i).usedDirs⟩
  · have hq := hl.queued fun hlabels => h.free (hroom hlabels)
    refine {
      nodup := ?_
      taken := ?_
      spare_super := hq.spare_super
      spare_free := ?_
      table_none := ?_
      table_some := ?_
      bitmaps := fun i hi => h.chunks ▸ List.mem_append_left _ (hq.bitmaps i hi)
      sources := ?_ }
    · rw [h.chunks, chunkBlocks_append]
      exact h.fills.nodup_append hq.nodup hq.taken
    · rw [h.chunks, chunkBlocks_append]
      exact h.fills.mem_append hq.taken
    · intro b hmem
      rw [h.chunks, chunkBlocks_append, List.mem_append, not_or]
      obtain ⟨i, hi, -, -, hheader⟩ := mem_header_of_superArea hb (hq.spare_super hmem)
      exact ⟨hq.spare_free b hmem, hfresh i hi b hheader⟩
    · intro i hi hnone b hmem
      rw [(h.inodes i).inodeTable] at hnone
      rw [h.chunks, chunkBlocks_append, List.mem_append, not_or]
      exact ⟨hq.table_none i hi hnone b hmem, hfresh i hi b (mem_header_of_tableChunk hb hmem)⟩
    · intro i hi hsome
      rw [(h.inodes i).inodeTable] at hsome
      rw [h.chunks]
      exact List.mem_append_left _ (hq.table_some i hi hsome)
    · intro c hc
      rw [h.chunks, List.mem_append] at hc
      rcases hc with hc | hc
      · exact (hq.sources c hc).mono h.brk
      · exact Chunk.sourced_of_new (h.sources c hc)
  · refine ⟨?_, h.brk, fun id hid _ => h.buffers id hid, ?_, fun n _ _ =>
      (h.inodes _).sameInode, h.free⟩
    · rw [h.chunks]
      exact List.subset_append_left _ _
    · intro n hn
      exact ⟨hn.1, (h.inodes _).firstFreeInode ▸ hn.2⟩

theorem hasFreeBlock_of_sameBlocks (hblocks : ∀ i < g.aux.groups, SameBlocks g (s.bgs i) (s'.bgs i))
    (h : HasFreeBlock g s') : HasFreeBlock g s := by
  obtain ⟨i, hi, hpos⟩ := h
  exact ⟨i, hi, (hblocks i hi).freeBlocks ▸ hpos⟩

/-- What is queued goes to header blocks that were waiting for it. -/
theorem Queued.append {spare' : Set ℕ} (hq : Queued g spare s) {new : List Chunk}
    (hblocks : ∀ i < g.aux.groups, SameBlocks g (s.bgs i) (s'.bgs i))
    (hchunks : s'.out.chunks = s.out.chunks ++ new) (hbrk : s.out.brk ≤ s'.out.brk)
    (hnodup : (chunkBlocks g.info.blockSize new).Nodup) (hspare : spare' ⊆ spare)
    (hnew : ∀ b ∈ chunkBlocks g.info.blockSize new, b ∈ Ext4.taken g s.bgs ∧ b ∉ spare' ∧
      b ∉ chunkBlocks g.info.blockSize s.out.chunks)
    (hnone : ∀ i < g.aux.groups, (s'.bgs i).inodeTable = none → (s.bgs i).inodeTable = none ∧
      ∀ b ∈ (tableChunk g i).blocks g.info.blockSize, b ∉ chunkBlocks g.info.blockSize new)
    (hsome : ∀ i < g.aux.groups, (s'.bgs i).inodeTable ≠ none →
      (s.bgs i).inodeTable ≠ none ∨ tableChunk g i ∈ new)
    (hsources : ∀ c ∈ new, c.Sourced g s'.out.brk) : Queued g spare' s' where
  nodup := by
    rw [hchunks, chunkBlocks_append]
    exact hq.nodup.append hnodup fun b hb hb' => (hnew b hb').2.2 hb
  taken := by
    intro b hmem
    rw [taken_congr hblocks]
    rw [hchunks, chunkBlocks_append, List.mem_append] at hmem
    rcases hmem with hmem | hmem
    · exact hq.taken b hmem
    · exact (hnew b hmem).1
  spare_super := hspare.trans hq.spare_super
  spare_free := by
    intro b hb
    rw [hchunks, chunkBlocks_append, List.mem_append, not_or]
    exact ⟨hq.spare_free b (hspare hb), fun hmem => (hnew b hmem).2.1 hb⟩
  table_none := by
    intro i hi htable b hmem
    obtain ⟨hold, hapart⟩ := hnone i hi htable
    rw [hchunks, chunkBlocks_append, List.mem_append, not_or]
    exact ⟨hq.table_none i hi hold b hmem, hapart b hmem⟩
  table_some := by
    intro i hi htable
    rw [hchunks, List.mem_append]
    exact (hsome i hi htable).imp_left (hq.table_some i hi)
  bitmaps := fun i hi => hchunks ▸ List.mem_append_left _ (hq.bitmaps i hi)
  sources := by
    intro c hc
    rw [hchunks, List.mem_append] at hc
    rcases hc with hc | hc
    · exact (hq.sources c hc).mono hbrk
    · exact hsources c hc

/-- Nothing is taken. -/
theorem Laid.of_sameBlocks {spare' : Set ℕ} (hl : Laid g labels spare s)
    (hblocks : ∀ i < g.aux.groups, SameBlocks g (s.bgs i) (s'.bgs i))
    (hinodes : ∀ i < g.aux.groups, InodesInv g (s'.bgs i))
    (hqueued : Queued g spare s → Queued g spare' s') : Laid g labels spare' s' where
  groups := fun i hi => (hblocks i hi).groupInv (hl.groups i hi)
  counted := by
    intro i hi
    rw [(hblocks i hi).firstFreeBlock, (hblocks i hi).dataBlocksUsed]
    exact hl.counted i hi
  hasSuperblock := fun i hi => (hblocks i hi).hasSuperblock.trans (hl.hasSuperblock i hi)
  inodes := hinodes
  queued := fun hroom => hqueued (hl.queued fun hlabels =>
    hasFreeBlock_of_sameBlocks hblocks (hroom hlabels))

/-- A group is changed, but not its blocks, and its table is not made. -/
theorem Laid.setBg (hl : Laid g labels spare s) {i : ℕ} {bg : BlockGroupInfo}
    (hblocks : SameBlocks g (s.bgs i) bg) (hinodes : i < g.aux.groups → InodesInv g bg)
    (htable : bg.inodeTable = none ↔ (s.bgs i).inodeTable = none) :
    Laid g labels spare (s.setBg i bg) := by
  have hiff : ∀ j, ((s.setBg i bg).bgs j).inodeTable = none ↔ (s.bgs j).inodeTable = none := by
    intro j
    by_cases hj : j = i
    · rw [hj, State.bgs_setBg_self]
      exact htable
    · rw [State.bgs_setBg_of_ne hj]
  have hsame : ∀ j < g.aux.groups, SameBlocks g (s.bgs j) ((s.setBg i bg).bgs j) :=
    fun j _ => sameBlocks_setBg hblocks j
  refine hl.of_sameBlocks hsame ?_ fun hq => hq.append hsame (List.append_nil _).symm le_rfl
    List.nodup_nil subset_rfl (by simp) ?_ ?_ (by simp)
  · intro j hj
    by_cases hji : j = i
    · subst hji
      rw [State.bgs_setBg_self]
      exact hinodes hj
    · rw [State.bgs_setBg_of_ne hji]
      exact hl.inodes j hj
  · exact fun j _ hnone => ⟨(hiff j).mp hnone, by simp⟩
  · exact fun j _ hsome => .inl fun hnone => hsome ((hiff j).mpr hnone)

/-! ### `get_inode` -/

/-- The table of a group after `allocate_bg_inode_table`. -/
theorem allocateBgInodeTable_table (i j : ℕ) (s : State) :
    (allocateBgInodeTable g i s).table j = s.table j := by
  unfold allocateBgInodeTable
  cases htable : (s.bgs i).inodeTable with
  | some m => rfl
  | none =>
      unfold State.table
      by_cases hj : j = i
      · simp [State.setBg, hj, htable]
      · simp [State.setBg, State.addChunk, hj]

theorem allocateBgInodeTable_ne_none (i : ℕ) (s : State) :
    ((allocateBgInodeTable g i s).bgs i).inodeTable ≠ none := by
  unfold allocateBgInodeTable
  cases htable : (s.bgs i).inodeTable with
  | some m => simp [htable]
  | none => simp [State.setBg]

/-- What is queued for a table that is made. -/
theorem tableChunk_eq (hg : g.Fits) (hn : g.Numbered) (hb : g.Built) (hl : Laid g labels spare s) {i : ℕ}
    (hi : i < g.aux.groups) :
    (⟨.inodeTable i, u32 (g.aux.inodeTableBlocks * g.info.blockSize),
      if (s.bgs i).hasSuperblock then u32 (u32 ((s.bgs i).firstBlock + 2) + g.superBlocks)
      else u32 ((s.bgs i).firstBlock + 2)⟩ : Chunk) = tableChunk g i := by
  have hend := hg.header_end_lt hi
  have hsize := hn.tableSize_lt hb
  rw [hb.headerBlocks_split] at hend
  unfold Geometry.tableSize at hsize
  unfold tableChunk Geometry.tableBlock Geometry.tableSize
  rw [hl.hasSuperblock i hi, (hl.groups i hi).firstBlock, u32_of_lt hsize,
    u32_of_lt (show g.start i + 2 < 2 ^ 32 by omega)]
  split
  · rename_i hsuper
    rw [if_pos hsuper] at hend
    rw [u32_of_lt (by omega), Nat.add_assoc]
  · rfl

theorem flags_initialized {bg : BlockGroupInfo} (hflags : bg.flags = EXT4_BG_INODE_UNINIT) :
    bg.flags &&& (2 ^ 16 - 1 - EXT4_BG_INODE_UNINIT) = 0 := by
  rw [hflags]
  decide

/-- The table of a group is made if it has not been. -/
theorem does_allocateBgInodeTable (hg : g.Fits) (hn : g.Numbered) (hb : g.Built)
    (hl : Laid g labels spare s) {i : ℕ} (hi : i < g.aux.groups) :
    Does g labels spare ∅ ∅ [] [] s (allocateBgInodeTable g i s) := by
  have htables : ∀ j, (allocateBgInodeTable g i s).table j = s.table j :=
    fun j => allocateBgInodeTable_table i j s
  cases htable : (s.bgs i).inodeTable with
  | some m =>
      have hsame : allocateBgInodeTable g i s = s := by
        unfold allocateBgInodeTable
        rw [htable]
      rw [hsame]
      exact ⟨hl, Keeps.refl s, .of_same (fun _ => rfl) fun _ => rfl⟩
  | none =>
      have hflags := (hl.inodes i hi).flags
      rw [if_pos htable] at hflags
      have hsame : allocateBgInodeTable g i s = (s.addChunk (.inodeTable i) g.tableSize
          (g.tableBlock i)).setBg i { s.bgs i with inodeTable := some Mem.zero, flags := 0 } := by
        have hchunk := tableChunk_eq hg hn hb hl hi
        unfold allocateBgInodeTable
        rw [htable]
        simp only [flags_initialized hflags, State.addChunk]
        rw [hchunk]
        rfl
      have hbg : ∀ j, j ≠ i → (allocateBgInodeTable g i s).bgs j = s.bgs j := by
        intro j hj
        rw [hsame, State.bgs_setBg_of_ne hj]
        rfl
      have hself : (allocateBgInodeTable g i s).bgs i =
          { s.bgs i with inodeTable := some Mem.zero, flags := 0 } := by
        rw [hsame, State.bgs_setBg_self]
      have hblocks : ∀ j < g.aux.groups, SameBlocks g (s.bgs j)
          ((allocateBgInodeTable g i s).bgs j) := by
        intro j _
        by_cases hj : j = i
        · rw [hj, hself]
          exact ⟨rfl, rfl, rfl, fun _ _ => rfl, rfl, rfl, rfl⟩
        · rw [hbg j hj]
          exact SameBlocks.refl _
      have hfree : ∀ j, ((allocateBgInodeTable g i s).bgs j).firstFreeInode =
          (s.bgs j).firstFreeInode := by
        intro j
        by_cases hj : j = i
        · rw [hj, hself]
        · rw [hbg j hj]
      have hdirs : ∀ j, ((allocateBgInodeTable g i s).bgs j).usedDirs = (s.bgs j).usedDirs := by
        intro j
        by_cases hj : j = i
        · rw [hj, hself]
        · rw [hbg j hj]
      have hout : (allocateBgInodeTable g i s).out.chunks = s.out.chunks ++ [tableChunk g i] := by
        rw [hsame]
        rfl
      have hsingle : chunkBlocks g.info.blockSize [tableChunk g i] =
          (tableChunk g i).blocks g.info.blockSize := by simp
      refine ⟨?_, ⟨?_, ?_, ?_, ?_, ?_, hasFreeBlock_of_sameBlocks hblocks⟩, .of_same hfree hdirs⟩
      · refine hl.of_sameBlocks hblocks ?_ fun hq => hq.append hblocks hout
          (by rw [hsame]; exact le_rfl) ?_ subset_rfl ?_ ?_ ?_ ?_
        · intro j hj
          by_cases hji : j = i
          · have hinv := hl.inodes i hi
            have hunused := hinv.unused
            unfold BlockGroupInfo.table at hunused
            rw [htable] at hunused
            rw [hji, hself]
            exact ⟨hinv.sum, hinv.pos, hinv.used, rfl, hunused⟩
          · rw [hbg j hji]
            exact hl.inodes j hj
        · rw [hsingle]
          exact List.nodup_range' 1
        · intro b hmem
          rw [hsingle] at hmem
          refine ⟨hl.mem_taken hi (mem_header_of_tableChunk hb hmem), fun hspare => ?_,
            hq.table_none i hi htable b hmem⟩
          exact not_mem_superArea_of_tableChunk hg hb hi hmem (hq.spare_super hspare)
        · intro j hj hnone
          have hji : j ≠ i := by
            rintro rfl
            rw [hself] at hnone
            cases hnone
          rw [hbg j hji] at hnone
          refine ⟨hnone, fun b hmem hmem' => hji ?_⟩
          rw [hsingle] at hmem'
          exact header_unique hg hj hi (mem_header_of_tableChunk hb hmem)
            (mem_header_of_tableChunk hb hmem')
        · intro j hj hsome
          by_cases hji : j = i
          · exact .inr (hji ▸ List.mem_singleton_self _)
          · rw [hbg j hji] at hsome
            exact .inl hsome
        · intro c hc
          rw [List.mem_singleton.mp hc]
          exact ⟨hi, rfl⟩
      · rw [hout]
        exact List.subset_append_left _ _
      · rw [hsame]
        exact le_rfl
      · intro id _ _
        rw [hsame]
        rfl
      · exact fun n hn => ⟨hn.1, (hfree _).symm ▸ hn.2⟩
      · intro n _ _ x _ _
        rw [htables]

/-! ### Calls that touch one group -/

/-- A group is changed, but not its blocks, its table or its inodes in use. -/
theorem keeps_setBg {i : ℕ} {bg : BlockGroupInfo} (hblocks : SameBlocks g (s.bgs i) bg)
    (htable : bg.inodeTable = (s.bgs i).inodeTable)
    (hfree : (s.bgs i).firstFreeInode ≤ bg.firstFreeInode) : Keeps g ∅ ∅ s (s.setBg i bg) := by
  refine ⟨fun _ hc => hc, le_rfl, fun _ _ _ => rfl, ?_, ?_,
    hasFreeBlock_of_sameBlocks fun j _ => sameBlocks_setBg hblocks j⟩
  · rintro n ⟨hhas, hlt⟩
    refine ⟨hhas, ?_⟩
    by_cases hi : g.groupOf n = i
    · rw [hi, State.bgs_setBg_self]
      rw [hi] at hlt
      exact hlt.trans_le hfree
    · rwa [State.bgs_setBg_of_ne hi]
  · intro n _ _ x _ _
    unfold State.table
    by_cases hi : g.groupOf n = i
    · rw [hi, State.bgs_setBg_self, htable]
    · rw [State.bgs_setBg_of_ne hi]

/-- Reserved inodes are the ones from the cursor of their group on. -/
theorem does_reserve (hg : g.Fits) {i num : ℕ} {bg : BlockGroupInfo} (hl : Laid g labels spare s)
    (hi : i < g.aux.groups) (hr : ReservesInodes g num (s.bgs i) bg) :
    Does g labels spare ∅ ∅ (List.range' (i * g.info.inodesPerGroup + (s.bgs i).firstFreeInode) num) [] s
      (s.setBg i bg) := by
  have hinv := hl.inodes i hi
  have hsum := hinv.sum
  have hpos := hinv.pos
  have hle := hr.le
  have hblocks := hr.sameBlocks hg
  have hafter := hr.inv hinv
  obtain ⟨-, bitmaps, hset, rfl⟩ := hr
  have hkeeps : Keeps g ∅ ∅ s (s.setBg i ((s.bgs i).reserve num bitmaps)) :=
    keeps_setBg hblocks rfl (Nat.le_add_right _ _)
  -- the numbers of the range, by their places in the group
  have hplace : ∀ n ∈ List.range' (i * g.info.inodesPerGroup + (s.bgs i).firstFreeInode) num,
      g.HasInode n ∧ g.groupOf n = i ∧ (s.bgs i).firstFreeInode ≤ g.indexOf n + 1 ∧
        g.indexOf n + 1 < (s.bgs i).firstFreeInode + num := by
    intro n hmem
    rw [List.mem_range'_1] at hmem
    obtain ⟨hhas, hgroup, hindex⟩ := Geometry.hasInode_of_lt (g := g) (i := i)
      (k := n - i * g.info.inodesPerGroup - 1) hi (by omega)
    have hn : i * g.info.inodesPerGroup + (n - i * g.info.inodesPerGroup - 1) + 1 = n := by omega
    rw [hn] at hhas hgroup hindex
    exact ⟨hhas, hgroup, by omega, by omega⟩
  refine ⟨hl.setBg hblocks (fun _ => hafter) Iff.rfl, hkeeps,
    ⟨⟨fun n hn => hkeeps.inUse n hn, List.nodup_range' 1, ?_, ?_⟩, ?_, ?_⟩⟩
  · rintro n hmem ⟨-, hlt⟩
    obtain ⟨-, hgroup, hlo, -⟩ := hplace n hmem
    rw [hgroup] at hlt
    omega
  · intro n hmem
    obtain ⟨hhas, hgroup, -, hhi⟩ := hplace n hmem
    refine ⟨hhas, ?_⟩
    rw [hgroup, State.bgs_setBg_self]
    exact hhi
  · rintro n ⟨hhas, hlt⟩
    by_cases hgroup : g.groupOf n = i
    · rw [hgroup, State.bgs_setBg_self] at hlt
      replace hlt : g.indexOf n + 1 < (s.bgs i).firstFreeInode + num := hlt
      by_cases hold : g.indexOf n + 1 < (s.bgs i).firstFreeInode
      · exact .inl ⟨hhas, hgroup ▸ hold⟩
      · have heq := hhas.eq
        rw [hgroup] at heq
        exact .inr (List.mem_range'_1.mpr (by omega))
    · rw [State.bgs_setBg_of_ne hgroup] at hlt
      exact .inl ⟨hhas, hlt⟩
  · intro j _
    by_cases hj : j = i
    · rw [hj, State.bgs_setBg_self]
      rfl
    · rw [State.bgs_setBg_of_ne hj]
      rfl

/-- `allocate_inode` that succeeds. -/
theorem AllocatesInode.does (hg : g.Fits) {n : ℕ} (hl : Laid g labels spare s)
    (h : AllocatesInode g s n s') : Does g labels spare ∅ ∅ [n] [] s s' := by
  obtain ⟨bg, hr, rfl⟩ := h.eq
  have hnum : g.groupOf n * g.info.inodesPerGroup + (s.bgs (g.groupOf n)).firstFreeInode = n := by
    have heq := h.hasInode.eq
    have hindex := h.index
    omega
  have hdoes := does_reserve hg hl h.hasInode.groupOf_lt hr
  rwa [hnum] at hdoes

/-- `add_directory`. -/
theorem does_addDirectory (hn : g.Numbered) {n : ℕ} (hl : Laid g labels spare s) (h : g.HasInode n)
    (hrun : addDirectory g n s = .ok s') : Does g labels spare ∅ ∅ [] [n] s s' := by
  rw [addDirectory_eq hn h] at hrun
  cases hrun
  have hblocks : SameBlocks g (s.bgs (g.groupOf n)) { s.bgs (g.groupOf n) with
      usedDirs := u16 ((s.bgs (g.groupOf n)).usedDirs + 1) } :=
    ⟨rfl, rfl, rfl, fun _ _ => rfl, rfl, rfl, rfl⟩
  have hfree : ∀ j, ((s.setBg (g.groupOf n) { s.bgs (g.groupOf n) with
      usedDirs := u16 ((s.bgs (g.groupOf n)).usedDirs + 1) }).bgs j).firstFreeInode =
        (s.bgs j).firstFreeInode := by
    intro j
    by_cases hj : j = g.groupOf n
    · rw [hj, State.bgs_setBg_self]
    · rw [State.bgs_setBg_of_ne hj]
  refine ⟨hl.setBg hblocks ?_ Iff.rfl, keeps_setBg hblocks rfl le_rfl,
    ⟨Fills.of_subset fun k hk => ⟨hk.1, (hfree _).symm ▸ hk.2⟩,
      fun k hk => .inl ⟨hk.1, hfree _ ▸ hk.2⟩, ?_⟩⟩
  · intro hi
    have hinv := hl.inodes _ hi
    exact ⟨hinv.sum, hinv.pos, hinv.used, hinv.flags, hinv.unused⟩
  · intro j _
    by_cases hj : g.groupOf n = j
    · subst hj
      rw [State.bgs_setBg_self, List.countP_singleton]
      simp [u16]
    · rw [State.bgs_setBg_of_ne (Ne.symm hj), List.countP_singleton]
      simp [hj]

/-- Bytes are assigned to an inode in use. -/
theorem does_setTable (hn : g.Numbered) {n : ℕ} (hl : Laid g labels spare s) (hu : InUse g s n)
    (htable : (s.bgs (g.groupOf n)).inodeTable ≠ none) {m : Mem}
    (hframe : ∀ x, x < (g.inodeAt n).base ∨ (g.inodeAt n).base + g.info.inodeSize ≤ x →
      m x = s.table (g.groupOf n) x) :
    Does g labels spare {n} ∅ [] [] s (s.setTable (g.groupOf n) m) := by
  have hblocks : SameBlocks g (s.bgs (g.groupOf n))
      { s.bgs (g.groupOf n) with inodeTable := some m } :=
    ⟨rfl, rfl, rfl, fun _ _ => rfl, rfl, rfl, rfl⟩
  have hfree : ∀ j, ((s.setTable (g.groupOf n) m).bgs j).firstFreeInode =
      (s.bgs j).firstFreeInode := by
    intro j
    by_cases hj : j = g.groupOf n
    · rw [hj, State.setTable, State.bgs_setBg_self]
    · rw [State.setTable, State.bgs_setBg_of_ne hj]
  have hdirs : ∀ j, ((s.setTable (g.groupOf n) m).bgs j).usedDirs = (s.bgs j).usedDirs := by
    intro j
    by_cases hj : j = g.groupOf n
    · rw [hj, State.setTable, State.bgs_setBg_self]
    · rw [State.setTable, State.bgs_setBg_of_ne hj]
  refine ⟨hl.setBg hblocks ?_ (by simp [htable]), ⟨fun _ hc => hc, le_rfl, fun _ _ _ => rfl, ?_, ?_,
    hasFreeBlock_of_sameBlocks fun j _ => sameBlocks_setTable _ j⟩, .of_same hfree hdirs⟩
  · intro hi
    have hinv := hl.inodes _ hi
    refine ⟨hinv.sum, hinv.pos, hinv.used, ?_, ?_⟩
    · have hflags := hinv.flags
      rw [if_neg htable] at hflags
      simpa using hflags
    · intro k hk x hlo hhi hkipg
      have hzero := hinv.unused k hk x hlo hhi hkipg
      obtain ⟨hhas, hgroup, hindex⟩ := Geometry.hasInode_of_lt (g := g) hi hkipg
      have hne : g.groupOf n * g.info.inodesPerGroup + k + 1 ≠ n := by
        rintro heq
        rw [heq] at hindex
        have hlt := hu.2
        replace hk : (s.bgs (g.groupOf n)).firstFreeInode ≤ k + 1 := hk
        omega
      have hapart := inodes_apart hn hhas hu.1 hne hgroup (x := x)
        (by unfold Geometry.inodeAt; rw [hindex]; exact hlo)
        (by
          unfold Geometry.inodeAt
          rw [hindex]
          rw [Nat.succ_mul] at hhi
          exact hhi)
      exact (hframe x hapart).trans hzero
  · exact fun k hk => ⟨hk.1, (hfree _).symm ▸ hk.2⟩
  · intro k hk hne x hlo hhi
    by_cases hgroup : g.groupOf k = g.groupOf n
    · rw [hgroup, State.table_setTable_self]
      exact (hframe x (inodes_apart hn hk.1 hu.1 hne hgroup hlo hhi)).symm
    · rw [State.table_setTable_of_ne hgroup]

/-- A buffer is written. -/
theorem does_setBuffer (id : ℕ) (hl : Laid g labels spare s) (bytes : Mem) :
    Does g labels spare ∅ {id} [] [] s (s.setBuffer id bytes) := by
  refine ⟨?_, ⟨fun _ hc => hc, le_rfl, ?_, fun _ hn => hn, fun n _ _ => SameInode.refl g s n, fun h => h⟩,
    .of_same (fun _ => rfl) fun _ => rfl⟩
  · refine ⟨hl.groups, hl.counted, hl.hasSuperblock, hl.inodes, fun hroom => ?_⟩
    have hq := hl.queued hroom
    exact ⟨hq.nodup, hq.taken, hq.spare_super, hq.spare_free, hq.table_none, hq.table_some,
      hq.bitmaps, hq.sources⟩
  · intro k _ hne
    exact Function.update_of_ne hne _ _

end Calls

/-! ## The beginning -/

section Init

variable {g : Geometry} {i j b : ℕ} {s : State}

theorem mem_bitmapsChunk_blocks (hg : g.Fits) (hb : g.Built) (hi : i < g.aux.groups) :
    b ∈ (bitmapsChunk g i).blocks g.info.blockSize ↔
      g.start i + (if g.hasSuperBlock i then g.superBlocks else 0) ≤ b ∧
        b < g.start i + (2 + if g.hasSuperBlock i then g.superBlocks else 0) := by
  have hge := hb.blockSize_ge
  have hlt := hb.blockSize_lt
  have hend := hg.header_end_lt hi
  rw [hb.headerBlocks_split] at hend
  have hblock : g.bitmapsBlock i =
      g.start i + if g.hasSuperBlock i then g.superBlocks else 0 := by
    unfold Geometry.bitmapsBlock
    rw [hg.firstBlock_eq hi]
    split
    · rename_i hsuper
      rw [if_pos hsuper] at hend
      exact u32_of_lt (by omega)
    · rfl
  rw [Chunk.mem_blocks]
  unfold bitmapsChunk
  simp only
  rw [u32_of_lt (by omega), mul_ceilDiv_self (by omega), hblock]
  omega

theorem FreshGroup.inodesInv (hbpg : g.info.blocksPerGroup ≤ 8 * g.info.blockSize)
    {bg : BlockGroupInfo} (h : FreshGroup g i bg) : InodesInv g bg := by
  refine ⟨?_, ?_, ?_, ?_, ?_⟩
  · rw [h.firstFreeInode, h.freeInodes, Nat.add_comm]
  · rw [h.firstFreeInode]
  · intro k _
    rw [h.firstFreeInode, h.beyond _ (by omega), decide_eq_false (by omega)]
  · rw [h.inodeTable, h.flags, if_pos rfl]
  · intro k _ x _ _ _
    unfold BlockGroupInfo.table
    rw [h.inodeTable]
    rfl

/-- `block_allocator_init` queues the bitmaps and nothing else. -/
theorem laid_init (hg : g.Roomy) (hb : g.Built) (labels : Prop)
    (hrun : blockAllocatorInit g State.empty = .ok s) : Laid g labels g.superArea s := by
  obtain ⟨st, hrun', -, hchunks, hfresh⟩ := blockAllocatorInit_spec hg.fits State.empty
  rw [hrun', Except.ok.injEq] at hrun
  subst hrun
  rw [show State.empty.out.chunks = [] from rfl, List.nil_append] at hchunks
  have hinv : GroupsInv g st.bgs := fun i hi => (hfresh i hi).inv
  have hmem : ∀ b, b ∈ chunkBlocks g.info.blockSize st.out.chunks ↔
      ∃ i < g.aux.groups, b ∈ (bitmapsChunk g i).blocks g.info.blockSize := by
    intro b
    rw [hchunks, chunkBlocks, List.mem_flatMap]
    simp
  have hheader : ∀ i < g.aux.groups, ∀ b ∈ (bitmapsChunk g i).blocks g.info.blockSize,
      g.start i ≤ b ∧ b < g.start i + g.headerBlocks i :=
    fun i hi b => mem_header_of_bitmaps hg.fits hb hi
  refine ⟨hinv, ?_, fun i hi => (hfresh i hi).hasSuperblock,
    fun i hi => (hfresh i hi).inodesInv hg.blocksPerGroup_le, fun _ =>
      ⟨?_, ?_, subset_rfl, ?_, ?_, ?_, ?_, ?_⟩⟩
  · intro i hi
    have hsize := hg.size_ge i hi
    have hlimit := (hfresh i hi).inv.limit_of_lt (by omega)
    have hfree := (hfresh i hi).free
    have hused := (hfresh i hi).dataBlocksUsed
    omega
  · rw [hchunks, chunkBlocks, List.nodup_flatMap]
    refine ⟨fun c _ => List.nodup_range' 1, ?_⟩
    rw [List.pairwise_map]
    refine List.Pairwise.imp_of_mem ?_ List.nodup_range
    intro i j hi hj hne b hbi hbj
    rw [List.mem_range] at hi hj
    exact hne (header_unique hg.fits hi hj (hheader i hi b hbi) (hheader j hj b hbj))
  · intro b hb'
    obtain ⟨i, hi, hbi⟩ := (hmem b).mp hb'
    obtain ⟨hlo, hhi⟩ := hheader i hi b hbi
    exact mem_taken_of_header hinv hi hlo hhi
  · intro b hsuper hb'
    obtain ⟨i, hi, hbi⟩ := (hmem b).mp hb'
    obtain ⟨j, hj, hhas, hhi, hbj⟩ := mem_header_of_superArea hb hsuper
    obtain rfl := header_unique hg.fits hi hj (hheader i hi b hbi) hbj
    rw [mem_bitmapsChunk_blocks hg.fits hb hi, if_pos hhas] at hbi
    omega
  · intro i hi _ b hbi hb'
    obtain ⟨j, hj, hbj⟩ := (hmem b).mp hb'
    obtain rfl := header_unique hg.fits hi hj (mem_header_of_tableChunk hb hbi)
      (hheader j hj b hbj)
    rw [mem_bitmapsChunk_blocks hg.fits hb hi] at hbj
    rw [mem_tableChunk_blocks hb] at hbi
    unfold Geometry.tableBlock at hbi
    omega
  · exact fun i hi hsome => absurd (hfresh i hi).inodeTable hsome
  · intro i hi
    rw [hchunks]
    exact List.mem_map_of_mem (List.mem_range.mpr hi)
  · intro c hc
    rw [hchunks, List.mem_map] at hc
    obtain ⟨i, hi, rfl⟩ := hc
    exact ⟨List.mem_range.mp hi, rfl⟩

end Init

end SystemExtras.Ext4
