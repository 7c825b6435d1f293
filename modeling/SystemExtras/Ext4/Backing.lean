import SystemExtras.Ext4.IndirectMap
import SystemExtras.Ext4.Inodes
import SystemExtras.Lib.Fills

/-!
# Inodes with their data

The functions that give an inode its blocks and queue what is to be written
there: `inode_allocate_data_extents` and `inode_allocate_file_extents` of
`extent.c`, and `inode_allocate_data_indirect` of `indirect.c`.  They allocate,
enter the blocks into the inode, go once more over the regions to queue a chunk
for each of them, and free the list of regions.

`BlockStep` is what all of them do to the rest of the image: they take blocks
that were free, and queue data for no others.  `SavesExtents` is what the extent
writer has done besides; the inode itself is the subject of `ExtentsStored`.
-/

namespace SystemExtras.Ext4

open Mem

/-! ## The code -/

/-- The loop that `extent_create_backing`, `extent_create_backing_file` and
`create_backing` have in common; a chunk is filled from `source` at its offset. -/
def backingLoop (blockSize : ℕ) (source : ℕ → Source) :
    ℕ → BlockAllocation → ℕ → ℕ → State → Except Stop State
  | 0, _, _, backingLen, s => if backingLen = 0 then .ok s else .error .hang
  | fuel + 1, alloc, offset, backingLen, s =>
      if backingLen = 0 then .ok s
      else do
        let (block, regionLen) ← getRegion alloc s.regions
        let len := min (u32 (regionLen * blockSize)) backingLen
        let s := s.addChunk (source offset) len block
        let alloc ← getNextRegion alloc s.regions
        backingLoop blockSize source fuel alloc (offset + len) (backingLen - len) s

/-- `extent_create_backing`. -/
def extentCreateBacking (g : Geometry) (alloc : BlockAllocation) (backingLen : ℕ) (s : State) :
    Except Stop (ℕ × State) := do
  let (data, s) := s.calloc backingLen
  let s ← backingLoop g.info.blockSize (.buffer data) (s.regions.brk + 1) alloc 0 backingLen s
  .ok (data, s)

/-- `create_backing`. -/
def createBacking (g : Geometry) (alloc : BlockAllocation) (backingLen : ℕ) (s : State) :
    Except Stop (ℕ × State) := do
  if EXT4_NDIR_BLOCKS < divRoundUp64 backingLen g.info.blockSize then
    .error (.criticalError "indirect backing larger than %d blocks")
  else do
    let (data, s) := s.calloc backingLen
    let s ← backingLoop g.info.blockSize (.buffer data) (s.regions.brk + 1) alloc 0 backingLen s
    .ok (data, s)

/-- `inode_allocate_data_extents`: the number of the buffer that it returns. -/
def inodeAllocateDataExtents (g : Geometry) (p : InodePtr) (len backingLen : ℕ) (s : State) :
    Except Stop (Option ℕ × State) := do
  let (alloc, m, s) ← doInodeAllocateExtents g (s.table p.bg) p.base len s
  if backingLen ≠ 0 then do
    let (data, s) ← extentCreateBacking g alloc backingLen s
    let regions ← freeAlloc alloc s.regions
    .ok (some data, { s with regions := regions }.setTable p.bg m)
  else do
    let regions ← freeAlloc alloc s.regions
    .ok (none, { s with regions := regions }.setTable p.bg m)

/-- `inode_allocate_file_extents`. -/
def inodeAllocateFileExtents (g : Geometry) (p : InodePtr) (len : ℕ) (filename : List UInt8)
    (s : State) : Except Stop State := do
  let (alloc, m, s) ← doInodeAllocateExtents g (s.table p.bg) p.base len s
  let s ← extentCreateBackingFile g alloc len filename s
  let regions ← freeAlloc alloc s.regions
  .ok ({ s with regions := regions }.setTable p.bg m)

/-- `inode_allocate_data_indirect`: the number of the buffer that it returns.  No pointer blocks
are reserved; its caller asks for a single block. -/
def inodeAllocateDataIndirect (g : Geometry) (p : InodePtr) (len backingLen : ℕ) (s : State) :
    Except Stop (Option ℕ × State) := do
  let blockLen := writtenBlocks g len
  let (alloc, s) ← doInodeAllocateIndirect g blockLen s
  let (data, s) ←
    if backingLen ≠ 0 then do
      let (data, s) ← createBacking g alloc backingLen s
      .ok (some data, s)
    else .ok (none, s)
  let (m, alloc, s) ←
    doInodeAttachIndirect g (s.table p.bg) p.base (rewindAlloc alloc) blockLen s
  let regions ← freeAlloc alloc s.regions
  .ok (data, { s with regions := regions }.setTable p.bg m)

/-! ## The chunks of an allocation -/

/-- The chunks that are queued for `len` bytes of `source` from `offset` on. -/
def pieceChunks (blockSize : ℕ) (source : ℕ → Source) : List Piece → ℕ → ℕ → List Chunk
  | [], _, _ => []
  | p :: ps, offset, len =>
      if len = 0 then []
      else ⟨source offset, min (p.len * blockSize) len, p.block⟩ ::
        pieceChunks blockSize source ps (offset + min (p.len * blockSize) len)
          (len - min (p.len * blockSize) len)

/-- One of the chunks puts byte `x` of `source` at byte `pos` of the device. -/
def Places (chunks : List Chunk) (source : ℕ → Source) (blockSize x pos : ℕ) : Prop :=
  ∃ c ∈ chunks, ∃ offset, c.source = source offset ∧ offset ≤ x ∧ x < offset + c.len ∧
    c.block * blockSize + (x - offset) = pos

/-- The blocks that the chunks fill, in their order. -/
def chunkBlocks (blockSize : ℕ) (chunks : List Chunk) : List ℕ :=
  chunks.flatMap (Chunk.blocks blockSize)

@[simp] theorem chunkBlocks_nil (blockSize : ℕ) : chunkBlocks blockSize [] = [] := rfl

@[simp] theorem chunkBlocks_cons (blockSize : ℕ) (c : Chunk) (cs : List Chunk) :
    chunkBlocks blockSize (c :: cs) = c.blocks blockSize ++ chunkBlocks blockSize cs := rfl

@[simp] theorem chunkBlocks_append (blockSize : ℕ) (cs ds : List Chunk) :
    chunkBlocks blockSize (cs ++ ds) = chunkBlocks blockSize cs ++ chunkBlocks blockSize ds :=
  List.flatMap_append

section Chunks

variable {blockSize : ℕ} {source : ℕ → Source} {filename : List UInt8} {ps : List Piece}

theorem backingFileLoop_eq_backingLoop (fuel : ℕ) : ∀ (alloc : BlockAllocation)
    (offset len : ℕ) (s : State), backingFileLoop blockSize filename fuel alloc offset len s =
      backingLoop blockSize (.file filename) fuel alloc offset len s := by
  induction fuel with
  | zero => exact fun _ _ _ _ => rfl
  | succ fuel ih =>
      intro alloc offset len s
      simp only [backingFileLoop, backingLoop, ih]

/-- The loop queues a chunk for every piece until nothing is left. -/
theorem backingLoop_eq {ns : List (ℕ × Piece)} :
    ∀ {fuel : ℕ} {alloc : BlockAllocation} {offset len : ℕ} {s : State},
      Listed s.regions ns → alloc.list.iter = headAddr ns → alloc.list.partialIter = 0 →
      (∀ n ∈ ns, n.2.len < 2 ^ 32 ∧ n.2.len * blockSize < 2 ^ 32) →
      len ≤ lenOf (ns.map Prod.snd) * blockSize → ns.length ≤ fuel →
      backingLoop blockSize source fuel alloc offset len s = .ok { s with
        out := { s.out with
          chunks := s.out.chunks ++
            pieceChunks blockSize source (ns.map Prod.snd) offset len } } := by
  induction ns with
  | nil =>
      intro fuel alloc offset len s _ _ _ _ hlen _
      have hzero : len = 0 := by simpa using hlen
      cases fuel <;> simp [backingLoop, hzero, pieceChunks]
  | cons n rest ih =>
      intro fuel alloc offset len s hlist hiter hpartial hsmall hlen hfuel
      cases fuel with
      | zero => simp at hfuel
      | succ fuel =>
          by_cases hzero : len = 0
          · simp [backingLoop, hzero, pieceChunks]
          · obtain ⟨prev, hderef⟩ := hlist.deref
            obtain ⟨hlt, hbytes⟩ := hsmall n List.mem_cons_self
            have hiter' : alloc.list.iter = some n.1 := hiter
            have hregion : getRegion alloc s.regions = .ok (n.2.block, n.2.len) := by
              unfold getRegion
              rw [hiter', hderef, bind_ok, hpartial]
              simp only [Piece.region]
              rw [sub32_of_le (Nat.zero_le _) (by omega), Nat.sub_zero]
            have hnext : getNextRegion alloc (s.addChunk (source offset)
                (min (n.2.len * blockSize) len) n.2.block).regions = .ok { alloc with
                  list := { alloc.list with iter := headAddr rest, partialIter := 0 } } := by
              unfold getNextRegion State.addChunk
              rw [hiter', hderef, bind_ok]
              rfl
            rw [List.map_cons, lenOf_cons, Nat.add_mul] at hlen
            unfold backingLoop
            rw [if_neg hzero, hregion, bind_ok]
            simp only [u32_of_lt hbytes]
            rw [hnext, bind_ok, ih (s := s.addChunk _ _ _) hlist.2 rfl rfl
              (fun q hq => hsmall q (List.mem_cons_of_mem _ hq)) (by omega)
              (Nat.le_of_succ_le_succ hfuel)]
            simp [State.addChunk, pieceChunks, hzero]

theorem mul_ceilDiv_self (hbs : 0 < blockSize) (n : ℕ) : n * blockSize ⌈/⌉ blockSize = n := by
  rw [Nat.ceilDiv_eq_add_pred_div]
  refine Nat.div_eq_of_lt_le ?_ ?_
  · omega
  · rw [Nat.succ_mul]
    omega

/-- The chunks fill the blocks of the pieces, as many as there are bytes for. -/
theorem chunkBlocks_pieceChunks (hbs : 0 < blockSize) : ∀ (offset len : ℕ),
    len ≤ lenOf ps * blockSize →
      chunkBlocks blockSize (pieceChunks blockSize source ps offset len) =
        (blocksOf ps).take (len ⌈/⌉ blockSize) := by
  induction ps with
  | nil =>
      intro offset len hlen
      simp [pieceChunks]
  | cons p ps ih =>
      intro offset len hlen
      rw [lenOf_cons, Nat.add_mul] at hlen
      by_cases hzero : len = 0
      · simp [pieceChunks, hzero]
      · rw [pieceChunks, if_neg hzero, chunkBlocks_cons, blocksOf_cons]
        rcases Nat.le_total (p.len * blockSize) len with hwhole | hpart
        · -- the piece is filled, and the rest goes to the others
          have hsplit : len ⌈/⌉ blockSize = p.len + (len - p.len * blockSize) ⌈/⌉ blockSize := by
            rw [Nat.ceilDiv_eq_add_pred_div, Nat.ceilDiv_eq_add_pred_div,
              ← Nat.add_mul_div_right _ _ hbs |>.trans (Nat.add_comm _ _)]
            congr 1
            omega
          have hpieces : (p.blocks ++ blocksOf ps).take (len ⌈/⌉ blockSize) =
              p.blocks ++ (blocksOf ps).take ((len - p.len * blockSize) ⌈/⌉ blockSize) := by
            rw [hsplit, List.take_append, List.take_of_length_le (by simp [Piece.blocks])]
            simp [Piece.blocks]
          rw [min_eq_left hwhole, ih _ _ (by omega), hpieces, Chunk.blocks,
            mul_ceilDiv_self hbs]
          rfl
        · have hfew : len ⌈/⌉ blockSize ≤ p.len := by
            rw [ceilDiv_le_iff_le_mul hbs, Nat.mul_comm]
            exact hpart
          have hrest : pieceChunks blockSize source ps (offset + len) 0 = [] := by
            cases ps <;> simp [pieceChunks]
          rw [min_eq_right hpart, Nat.sub_self, hrest, chunkBlocks_nil, List.append_nil,
            List.take_append_of_le_length (by simpa [Piece.blocks] using hfew)]
          unfold Chunk.blocks Piece.blocks
          rw [List.take_range'_of_length_ge hfew]

/-- Every byte goes where it belongs. -/
theorem pieceChunks_places (source : ℕ → Source) (hbs : 0 < blockSize) : ∀ (offset len x : ℕ),
    len ≤ lenOf ps * blockSize → x < len → ∃ b, (blocksOf ps)[x / blockSize]? = some b ∧
      Places (pieceChunks blockSize source ps offset len) source blockSize (offset + x)
        (b * blockSize + x % blockSize) := by
  induction ps with
  | nil =>
      intro offset len x hlen hx
      simp at hlen
      omega
  | cons p ps ih =>
      intro offset len x hlen hx
      have hzero : len ≠ 0 := by omega
      rw [lenOf_cons, Nat.add_mul] at hlen
      rw [pieceChunks, if_neg hzero]
      by_cases hhead : x < min (p.len * blockSize) len
      · -- the byte is in the first piece
        have hidx : x / blockSize < p.len := by
          rw [Nat.div_lt_iff_lt_mul hbs]
          omega
        have hdiv := Nat.div_add_mod' x blockSize
        refine ⟨p.block + x / blockSize, ?_, _, List.mem_cons_self, offset, rfl, by omega,
          by simp only; omega, ?_⟩
        · rw [blocksOf_cons, List.getElem?_append_left (by simpa [Piece.blocks] using hidx)]
          simp [Piece.blocks, hidx]
        · simp only [Nat.add_mul]
          omega
      · -- the byte is in a later piece, and the first is a whole one
        have hwhole : min (p.len * blockSize) len = p.len * blockSize := by omega
        rw [hwhole] at hhead ⊢
        obtain ⟨b, hb, c, hc, o, hsource, hlo, hhi, hpos⟩ := ih (offset + p.len * blockSize)
          (len - p.len * blockSize) (x - p.len * blockSize) (by omega) (by omega)
        have hdiv : (x - p.len * blockSize) / blockSize = x / blockSize - p.len := by
          rw [Nat.mul_comm, Nat.sub_mul_div]
        have hmod : (x - p.len * blockSize) % blockSize = x % blockSize := by
          rw [Nat.mul_comm, Nat.sub_mul_mod]
          rw [Nat.mul_comm]
          omega
        have hle : p.len ≤ x / blockSize := by
          rw [Nat.le_div_iff_mul_le hbs]
          omega
        refine ⟨b, ?_, c, List.mem_cons_of_mem _ hc, o, hsource, by omega, by omega, ?_⟩
        · rw [blocksOf_cons, List.getElem?_append_right (by simpa [Piece.blocks] using hle)]
          simpa [Piece.blocks, hdiv] using hb
        · rw [← hmod]
          omega

end Chunks

/-! ## Blocks for one inode -/

/-- Where the extents of the pieces `ps` are: in the inode at `base` of the table `m`, or in a leaf,
of which the buffer and the block are given. -/
inductive HoldsExtents (blockSize : ℕ) (out : Output) (m : Mem) (base : ℕ) (ps : List Piece) :
    Option (ℕ × ℕ) → Prop where
  | inline (node : NodeAt m (base + Inode.iBlockOffset) ps) (length_le : ps.length ≤ 4) :
      HoldsExtents blockSize out m base ps none
  | leaf {id block : ℕ} (header : HeaderAt m (base + Inode.iBlockOffset) 1 1)
      (index : (ExtentIdx.eiLeafHi.at_ (base + Inode.iBlockOffset + sizeofExtent)).get m * 2 ^ 32 +
        (ExtentIdx.eiLeafLo.at_ (base + Inode.iBlockOffset + sizeofExtent)).get m = block)
      (node : NodeAt (out.buffers id).bytes 0 ps)
      (fits : sizeofExtent + sizeofExtent * ps.length ≤ blockSize) (lt : id < out.brk)
      (queued : ⟨.buffer id 0, blockSize, block⟩ ∈ out.chunks) :
      HoldsExtents blockSize out m base ps (some (id, block))

/-- The block of a leaf, if there is one. -/
def leafBlocks (leaf : Option (ℕ × ℕ)) : List ℕ := leaf.toList.map Prod.snd

/-- The chunk of a leaf. -/
def leafChunks (blockSize : ℕ) (leaf : Option (ℕ × ℕ)) : List Chunk :=
  leaf.toList.map fun l => ⟨.buffer l.1 0, blockSize, l.2⟩

/-- What the allocator has done between two states for an inode that was given the blocks of
`list`: they had been free, and inodes are left alone. -/
structure Allots (g : Geometry) (s s' : State) (list : List ℕ) : Prop where
  groups : GroupsInv g s'.bgs
  counted : Counted g s'.bgs
  fills : Fills (taken g s.bgs) (taken g s'.bgs) list
  inodes : ∀ i, SameInodes g (s.bgs i) (s'.bgs i)
  free : HasFreeBlock g s' → HasFreeBlock g s

section Allots

variable {g : Geometry} {s s' : State} {alloc : BlockAllocation}

theorem TakesAll.fills {bgs bgs' : Groups} {ps : List Piece} (hinv : GroupsInv g bgs)
    (h : TakesAll g bgs ps bgs') : Fills (taken g bgs) (taken g bgs') (blocksOf ps) :=
  ⟨h.taken_subset, h.nodup hinv, fun _ hb => h.disjoint hinv hb, fun _ hb => h.mem_taken hb⟩

/-- The bookkeeping of a run that starts here. -/
theorem runInv_of_groups (hinv : GroupsInv g s.bgs) (hcount : Counted g s.bgs) :
    RunInv g ⟨s, [], none⟩ := ⟨hinv, fun _ => hcount, List.nodup_nil, by simp, by simp⟩

section Fresh

variable {s₀ : State} {h : RegionHeap} {n a : ℕ} {p : Piece} {rest : List (ℕ × Piece)}

/-- The state after a fresh allocation, in the words of a run. -/
theorem Fresh.pending (hg : g.Roomy) (hf : Fresh g h s₀.bgs s n a p rest) :
    RunInv g ⟨s, blocksOf (((a, p) :: rest).map Prod.snd) ++ [], some (freshAllocation a)⟩ ∧
      Pending g ⟨s, blocksOf (((a, p) :: rest).map Prod.snd) ++ [], some (freshAllocation a)⟩
        (freshAllocation a) a p (headAddr rest) := by
  have hstart : RunInv g ⟨{ s₀ with regions := h }, [], none⟩ := runInv_of_groups hf.inv hf.counted
  have hpending : Pending g ⟨s, blocksOf (((a, p) :: rest).map Prod.snd) ++ [],
      some (freshAllocation a)⟩ (freshAllocation a) a p (headAddr rest) :=
    Pending.of_takesMany hg hstart hf.extends_ hf.takes hf.two_le
      fun b hb => List.mem_append_left [] hb
  refine ⟨hstart.take hg.fits hf.takes.takesAll _ (.inl rfl) ?_, hpending⟩
  intro alloc' halloc'
  cases halloc'
  exact ⟨a, p, _, hpending⟩

theorem Fresh.hasFreeBlock (hf : Fresh g h s₀.bgs s n a p rest) :
    HasFreeBlock g s₀ := by
  obtain ⟨bgs₁, hhead⟩ : ∃ bgs₁, Takes g s₀.bgs p bgs₁ := by
    cases hf.takes with
    | cons _ head _ _ => exact ⟨_, head⟩
  exact ⟨p.bg, hhead.bg_lt, (Nat.zero_lt_of_lt hf.two_le_head).trans_le hhead.len_le⟩

/-- What the allocation has done once it is cut by one block. -/
theorem Fresh.allots_reduce (hg : g.Roomy) (hsmall : g.Small)
    (hf : Fresh g h s₀.bgs s n a p rest)
    (hrun : reduceAllocation g (freshAllocation a) 1 s = .ok (alloc, s')) :
    Allots g s₀ s' (blocksOf (((a, ⟨p.block, p.len - 1, p.bg⟩) :: rest).map Prod.snd)) := by
  obtain ⟨hc, -⟩ := hf.cut_reduce hg.fits hrun
  obtain ⟨hrunInv, hp⟩ := hf.pending hg
  have hreturned := hp.returnedBlock_eq hrunInv
  obtain ⟨hpos, hbgs⟩ := hp.reduce_cases hg hrunInv hrun
  have hafter := hrunInv.reduce hg rfl hreturned hrun
  have hfills := hf.takes.takesAll.fills hf.inv
  have hcursor := hp.cursor hpos
  have hheader := hp.header_lt hpos
  have hlast : p.block + p.len - 1 ∈ blocksOf (p :: rest.map Prod.snd) := by
    rw [blocksOf_cons]
    exact List.mem_append_left _ (Piece.mem_blocks.mpr ⟨by omega, by omega⟩)
  have hback : taken g s'.bgs = taken g s.bgs \ {p.block + p.len - 1} := by
    rw [hbgs, taken_giveBack (hf.takes.takesAll.inv hf.inv) hp.bg_lt (Nat.zero_lt_of_lt hheader),
      hcursor]
  have hnodup := hc.nodup
  have htaken := hc.taken
  rw [List.append_nil] at hnodup htaken
  refine ⟨hc.inv, hafter.counted hsmall, ⟨?_, hnodup, ?_, htaken⟩, ?_, ?_⟩
  · intro b hb
    rw [hback]
    refine ⟨hfills.subset hb, ?_⟩
    rintro rfl
    exact hfills.fresh _ hlast hb
  · intro b hb
    refine hfills.fresh b ?_
    rw [List.map_cons, blocksOf_cons, List.mem_append, Piece.mem_blocks] at hb
    rw [blocksOf_cons, List.mem_append, Piece.mem_blocks]
    exact hb.imp_left fun hmem => ⟨hmem.1, by simp only at hmem; omega⟩
  · intro i
    have hgroup := hf.takes.takesAll.inv hf.inv p.bg hp.bg_lt
    have hgives := sameInodes_giveBack hg.fits hgroup (Nat.zero_lt_of_lt hheader) i
    rw [hbgs]
    exact (hf.takes.takesAll.sameInodes hg.fits hf.inv i).trans hgives
  · exact fun _ => hf.hasFreeBlock

/-- What it has done once its first block is set aside. -/
theorem Fresh.allots_oob (hg : g.Roomy) (hsmall : g.Small)
    (hf : Fresh g h s₀.bgs s n a p rest) (hbgs : s'.bgs = s.bgs) (b : ℕ) :
    Allots g s₀ s' (blocksOf (((b, ⟨p.block + 1, p.len - 1, p.bg⟩) :: rest).map Prod.snd) ++
      [p.block]) := by
  have htwo := hf.two_le_head
  have hfills := hf.takes.takesAll.fills hf.inv
  have hperm : (blocksOf (p :: rest.map Prod.snd)).Perm
      (blocksOf (((b, ⟨p.block + 1, p.len - 1, p.bg⟩) :: rest).map Prod.snd) ++ [p.block]) := by
    rw [List.map_cons, blocksOf_cons, blocksOf_cons, Piece.blocks_eq_cons (by omega),
      List.cons_append]
    exact (List.perm_append_singleton _ _).symm
  refine ⟨?_, ?_, ?_, ?_, fun _ => hf.hasFreeBlock⟩
  · rw [hbgs]
    exact hf.takes.takesAll.inv hf.inv
  · rw [hbgs]
    exact hf.takes.takesAll.counted hsmall hf.inv hf.counted
  · rw [hbgs]
    exact hfills.perm hperm
  · rw [hbgs]
    exact hf.takes.takesAll.sameInodes hg.fits hf.inv

/-- Both ways of cutting an allocation to size. -/
theorem Fresh.cut_spec (hg : g.Roomy) (hsmall : g.Small) (hb : g.Built)
    (hf : Fresh g h s₀.bgs s n a p rest) {extentBlock : ℕ}
    (hcut : cutAllocation g (rest.length + 1) (freshAllocation a) s =
      .ok (extentBlock, alloc, s')) :
    ∃ ns leaf, Cut g s' alloc (n - 1) ns leaf ∧ ns.length = rest.length + 1 ∧ s'.out = s.out ∧
      Allots g s₀ s' (blocksOf (ns.map Prod.snd) ++ leaf) ∧ extentBlock < 2 ^ 32 ∧
      (leaf = [] ∧ extentBlock = 0 ∨ leaf = [extentBlock] ∧ extentBlock ≠ 0) := by
  unfold cutAllocation at hcut
  split at hcut
  · rw [bind_eq_ok] at hcut
    obtain ⟨⟨alloc₁, s₁⟩, hreduce, hcut⟩ := hcut
    cases hcut
    obtain ⟨hc, hout⟩ := hf.cut_reduce hg.fits hreduce
    refine ⟨_, [], hc, rfl, hout, ?_, by decide, .inl ⟨rfl, rfl⟩⟩
    rw [List.append_nil]
    exact hf.allots_reduce hg hsmall hreduce
  · obtain ⟨alloc₁, hreserve, hblock, hc⟩ := hf.cut_oob hg.fits
    rw [hreserve, bind_ok] at hcut
    simp only [hblock, bind_ok] at hcut
    cases hcut
    have hpiece := hf.small hg.fits (a, p) List.mem_cons_self
    have hlt := hg.lenBlocks_lt
    simp only at hpiece
    have hfirst := hf.head.2.2
    have hpos := hb.headerBlocks_pos p.bg
    have hbgs : State.bgs { s with regions := oobHeap s.regions a p (headAddr rest) } = s.bgs := rfl
    exact ⟨_, [p.block], hc, rfl, rfl, hf.allots_oob hg hsmall hbgs _, by omega,
      .inr ⟨rfl, by omega⟩⟩

end Fresh

end Allots

/-! ## `do_inode_allocate_extents` -/

/-- What `do_inode_allocate_extents` has done for the inode at `base` of the table `m` when it
returns `alloc`: the regions of `ns` hold the file's blocks, and a leaf there may be. -/
structure MakesExtents (g : Geometry) (m : Mem) (base len : ℕ) (s : State)
    (alloc : BlockAllocation) (m' : Mem) (s' : State) (ns : List (ℕ × Piece))
    (leaf : Option (ℕ × ℕ)) : Prop where
  cut : Cut g s' alloc (writtenBlocks g len) ns (leafBlocks leaf)
  allots : Allots g s s' (blocksOf (ns.map Prod.snd) ++ leafBlocks leaf)
  holds : HoldsExtents g.info.blockSize s'.out m' base (ns.map Prod.snd) leaf
  chunks : s'.out.chunks = s.out.chunks ++ leafChunks g.info.blockSize leaf
  brk : s.out.brk ≤ s'.out.brk
  buffers : ∀ id < s.out.brk, s'.out.buffers id = s.out.buffers id
  leaf_new : ∀ l ∈ leaf, s.out.brk ≤ l.1
  finish : ∃ m₁ blockLen, m' = finishInode g.info.blockSize m₁ base len blockLen ∧
    ∀ x, x < base + Inode.iBlockOffset ∨ base + Inode.iBlockOffset + 60 ≤ x → m₁ x = m x

section Extents

variable {g : Geometry} {s s₁ s' : State} {alloc alloc' : BlockAllocation} {m m' : Mem}
  {base len n : ℕ} {ns : List (ℕ × Piece)}

/-- The extents of a few regions are in the inode. -/
theorem Cut.holds_inline (hg : g.Roomy) (hbs : g.info.blockSize ≤ 4096)
    (hc : Cut g s alloc n ns []) (hn : n < 2 ^ 32) (hnil : ns ≠ [])
    (hrun : writeInline ns.length alloc m base s = .ok (alloc', m')) (len blockLen : ℕ) :
    HoldsExtents g.info.blockSize s.out (finishInode g.info.blockSize m' base len blockLen) base
        (ns.map Prod.snd) none ∧
      ∀ x, x < base + Inode.iBlockOffset ∨ base + Inode.iBlockOffset + 60 ≤ x → m' x = m x := by
  have hlen := hc.lenOf_eq
  unfold writeInline at hrun
  obtain ⟨hext, hframe, hlimit⟩ := writeExtents_cases hc.listed hc.iter hc.partialIter
    (hc.fields_lt hg hbs) (by omega) hrun
  have hroom := hlimit hnil
  unfold sizeofExtent at hroom
  have hsame := finishInode_sameOn g.info.blockSize m' base len blockLen
  refine ⟨.inline ⟨?_, ?_⟩ (by rw [List.length_map]; omega), fun x hx => ?_⟩
  · rw [List.length_map]
    have hheader := headerAt_writeHeader m (base + Inode.iBlockOffset) ns.length 3 0 (by omega)
      (by decide)
    refine (hheader.congr fun x _ h₂ => (hframe x (.inl h₂)).symm).congr (hsame.mono le_rfl ?_)
    unfold sizeofExtent
    omega
  · refine hext.congr (hsame.mono (Nat.le_add_right _ _) ?_)
    rw [List.length_map]
    unfold sizeofExtent
    omega
  · rw [hframe x (by unfold sizeofExtent; omega), writeHeader_apply (by unfold sizeofExtent; omega)]

/-- The extents of many are in a leaf. -/
theorem Cut.holds_leaf (hg : g.Roomy) (hbs : g.info.blockSize ≤ 4096) {block : ℕ}
    (hc : Cut g s alloc n ns [block]) (hn : n < 2 ^ 32) (hnil : ns ≠ []) (hblock : block < 2 ^ 32)
    (hrun : writeLeaf g.info.blockSize ns.length block alloc s = .ok (alloc', s'))
    (m : Mem) (base len blockLen : ℕ) :
    s'.bgs = s.bgs ∧ s'.out.chunks = s.out.chunks ++ [⟨.buffer s.out.brk 0, g.info.blockSize, block⟩] ∧
      s'.out.brk = s.out.brk + 1 ∧ (∀ id < s.out.brk, s'.out.buffers id = s.out.buffers id) ∧
      HoldsExtents g.info.blockSize s'.out
        (finishInode g.info.blockSize (writeIndex m base block) base len blockLen) base
        (ns.map Prod.snd) (some (s.out.brk, block)) := by
  have hlen := hc.lenOf_eq
  unfold writeLeaf at hrun
  simp only at hrun
  split at hrun
  · cases hrun
  · rw [bind_eq_ok] at hrun
    obtain ⟨⟨alloc₁, data⟩, hwrite, hrun⟩ := hrun
    simp only [Except.ok.injEq, Prod.mk.injEq] at hrun
    obtain ⟨-, hs'⟩ := hrun
    replace hs' : leafState s g.info.blockSize block data = s' := hs'
    subst hs'
    obtain ⟨hext, hframe, hlimit⟩ := writeExtents_cases hc.listed hc.iter hc.partialIter
      (hc.fields_lt hg hbs) (by omega) hwrite
    have hroom := hlimit hnil
    have hat : NodeAt data 0 (ns.map Prod.snd) := by
      refine ⟨?_, by simpa using hext⟩
      rw [List.length_map]
      refine (headerAt_writeHeader Mem.zero 0 ns.length _ 0 ?_ (by decide)).congr
        fun x _ h₂ => (hframe x (Or.inl (by simpa using h₂))).symm
      unfold sizeofExtent at hroom
      omega
    obtain ⟨hheader, hindex⟩ := writeIndex_spec g.info.blockSize m base len blockLen hblock
    refine ⟨rfl, rfl, rfl, fun id hid => ?_, .leaf hheader hindex ?_ ?_ (Nat.lt_succ_self _) ?_⟩
    · simp [leafState, State.setBuffer, State.addChunk, State.calloc,
        Function.update_of_ne hid.ne]
    · simpa [leafState, State.setBuffer, State.calloc] using hat
    · rwa [List.length_map]
    · simp [leafState, State.setBuffer, State.addChunk, State.calloc]

theorem writeIndex_frame {block x : ℕ}
    (hx : x < base + Inode.iBlockOffset ∨ base + Inode.iBlockOffset + 60 ≤ x) :
    writeIndex m base block x = m x := by
  unfold writeIndex
  rw [Mem.assign_apply_of_not_mem]
  · exact writeHeader_apply (by unfold sizeofExtent; omega)
  · simp only [List.forall_mem_cons, List.not_mem_nil, false_implies, implies_true, and_true,
      Field.at_, ExtentIdx.eiBlock, ExtentIdx.eiLeafLo, ExtentIdx.eiLeafHi, ExtentIdx.eiUnused]
    unfold sizeofExtent
    omega

/-- A call that returns has made the extents. -/
theorem doInodeAllocateExtents_spec (hg : g.Roomy) (hsmall : g.Small) (hb : g.Built)
    (hbs : g.info.blockSize ≤ 4096) (hinv : GroupsInv g s.bgs) (hcount : Counted g s.bgs)
    (hpos : 1 ≤ writtenBlocks g len)
    (hrun : doInodeAllocateExtents g m base len s = .ok (alloc, m', s')) :
    ∃ ns leaf, MakesExtents g m base len s alloc m' s' ns leaf := by
  have hlt := writtenBlocks_succ_lt hrun
  rw [doInodeAllocateExtents] at hrun
  simp only [← writtenBlocks.eq_def, u32_of_lt hlt, bind_eq_ok] at hrun
  obtain ⟨⟨r, s₁⟩, hcall, hrun⟩ := hrun
  cases r with
  | none => cases hrun
  | some alloc₁ =>
      obtain ⟨hout, a, p, rest, rfl, hf⟩ :=
        fresh_of_allocateBlocks hg hsmall hinv hcount (by omega) hcall
      simp only [bind_eq_ok] at hrun
      obtain ⟨count, hnum, ⟨extentBlock, alloc₂, s₂⟩, hcut, hrun⟩ := hrun
      have hcount' : count = rest.length + 1 := by
        have hnum : numRegionsLoop s₁.regions s₁.regions.brk (headAddr ((a, p) :: rest)) 0 =
          .ok count := hnum
        rw [numRegionsLoop_eq hf.extends_.linked.listed hf.extends_.length_le] at hnum
        simpa using hnum.symm
      subst hcount'
      obtain ⟨ns, leaf, hc, hlength, hout', hallots, heb, hleaf⟩ := hf.cut_spec hg hsmall hb hcut
      have hsame : s₂.out = s.out := hout'.trans hout
      rw [Nat.add_sub_cancel] at hc
      rw [← hlength] at hrun
      have hnil : ns ≠ [] := by
        rintro rfl
        simp at hlength
      obtain ⟨rfl, rfl⟩ | ⟨rfl, hne⟩ := hleaf
      · rw [if_pos rfl, bind_eq_ok] at hrun
        obtain ⟨⟨alloc₃, m₁⟩, hwrite, hrun⟩ := hrun
        cases hrun
        obtain ⟨hfirst, hoob⟩ := writeExtents_first _ hwrite
        obtain ⟨hholds, hframe⟩ := hc.holds_inline hg hbs (by omega) hnil hwrite
          len (writtenBlocks g len)
        refine ⟨ns, none, hc.rewind hfirst hoob, hallots, hholds, ?_, hsame ▸ le_rfl, ?_, by simp,
          m₁, _, rfl, hframe⟩
        · rw [hsame]
          exact (List.append_nil _).symm
        · rw [hsame]
          exact fun _ _ => rfl
      · rw [if_neg hne, bind_eq_ok] at hrun
        obtain ⟨⟨alloc₃, s₃⟩, hwrite, hrun⟩ := hrun
        cases hrun
        obtain ⟨hbgs, hchunks, hbrk, hbuffers, hholds⟩ := hc.holds_leaf hg hbs (by omega) hnil
          heb hwrite m base len (writtenBlocks g len + 1)
        rw [hsame] at hchunks hbrk hbuffers
        refine ⟨ns, some (s₂.out.brk, extentBlock), hc.of_leaf hwrite, ?_, hholds, ?_, ?_,
          hbuffers, ?_, _, _, rfl, fun x hx => writeIndex_frame hx⟩
        · exact ⟨hbgs ▸ hallots.groups, hbgs ▸ hallots.counted, hbgs ▸ hallots.fills,
            hbgs ▸ hallots.inodes, fun hfree => hallots.free (by
              unfold HasFreeBlock at hfree ⊢
              rwa [hbgs] at hfree)⟩
        · rw [hchunks, hsame]
          rfl
        · rw [hbrk]
          exact Nat.le_succ _
        · intro l hl
          cases hl
          rw [hsame]

end Extents

/-- A node is where the same bytes are. -/
theorem NodeAt.congr {m m' : Mem} {off : ℕ} {ps : List Piece} (h : NodeAt m off ps)
    (hsame : m.SameOn m' off (off + sizeofExtent + sizeofExtent * ps.length)) :
    NodeAt m' off ps :=
  ⟨h.header.congr (hsame.mono le_rfl (Nat.le_add_right _ _)),
    h.extents.congr (hsame.mono (Nat.le_add_right _ _) le_rfl)⟩

/-- Extents stay where they are as long as `i_block` and the leaf do. -/
theorem HoldsExtents.congr {blockSize base : ℕ} {out out' : Output} {m m' : Mem} {ps : List Piece}
    {leaf : Option (ℕ × ℕ)} (h : HoldsExtents blockSize out m base ps leaf)
    (hm : m.SameOn m' (base + Inode.iBlockOffset) (base + Inode.iBlockOffset + 60))
    (hchunks : out.chunks ⊆ out'.chunks) (hbrk : out.brk ≤ out'.brk)
    (hbuffers : ∀ l ∈ leaf, out'.buffers l.1 = out.buffers l.1) :
    HoldsExtents blockSize out' m' base ps leaf := by
  cases h with
  | inline node length_le =>
      refine .inline (node.congr (hm.mono le_rfl ?_)) length_le
      unfold sizeofExtent
      omega
  | leaf header index node fits lt queued =>
      refine .leaf (header.congr (hm.mono le_rfl ?_)) ?_ ?_ fits (lt.trans_le hbrk)
        (hchunks queued)
      · unfold sizeofExtent
        omega
      · rw [← index, Field.get_congr hm, Field.get_congr hm]
        all_goals
          simp only [Field.at_, ExtentIdx.eiLeafLo, ExtentIdx.eiLeafHi, sizeofExtent]
          omega
      · rw [hbuffers _ rfl]
        exact node

/-! ## What an operation does to the blocks and to the queue -/

/-- A source that has been made while the number of buffers went from `lo` to `hi`. -/
def Source.New (lo hi : ℕ) : Source → Prop
  | .buffer id _ => lo ≤ id ∧ id < hi
  | .file _ _ => True
  | _ => False

/-- Blocks are taken, and `new` is queued for some of them. -/
structure Backs (g : Geometry) (s s' : State) (new : List Chunk) : Prop where
  groups : GroupsInv g s'.bgs
  counted : Counted g s'.bgs
  fills : Fills (taken g s.bgs) (taken g s'.bgs) (chunkBlocks g.info.blockSize new)
  inodes : ∀ i, SameInodes g (s.bgs i) (s'.bgs i)
  free : HasFreeBlock g s' → HasFreeBlock g s
  chunks : s'.out.chunks = s.out.chunks ++ new
  brk : s.out.brk ≤ s'.out.brk
  buffers : ∀ id < s.out.brk, s'.out.buffers id = s.out.buffers id
  sources : ∀ c ∈ new, c.source.New s.out.brk s'.out.brk

section Backs

variable {g : Geometry} {s s₁ s' : State} {alloc : BlockAllocation} {m m' : Mem}
  {base len backingLen : ℕ} {ns : List (ℕ × Piece)} {leaf : Option (ℕ × ℕ)} {source : ℕ → Source}

theorem pieceChunks_source {blockSize : ℕ} {ps : List Piece} : ∀ {offset len : ℕ} {c : Chunk},
    c ∈ pieceChunks blockSize source ps offset len → ∃ offset', c.source = source offset' := by
  induction ps with
  | nil => simp [pieceChunks]
  | cons p ps ih =>
      intro offset len c hc
      rw [pieceChunks] at hc
      split at hc
      · simp at hc
      · rcases List.mem_cons.mp hc with rfl | hc
        · exact ⟨offset, rfl⟩
        · exact ih hc

theorem chunkBlocks_leafChunks {blockSize : ℕ} (hpos : 0 < blockSize) (leaf : Option (ℕ × ℕ)) :
    chunkBlocks blockSize (leafChunks blockSize leaf) = leafBlocks leaf := by
  have hone : blockSize ⌈/⌉ blockSize = 1 := by simpa using mul_ceilDiv_self hpos 1
  cases leaf with
  | none => rfl
  | some l => simp [leafChunks, leafBlocks, chunkBlocks, Chunk.blocks, hone]

namespace MakesExtents

/-- The backing loop finds its regions. -/
theorem backingLoop_eq (hg : g.Roomy) (hbs : g.info.blockSize ≤ 4096)
    (h : MakesExtents g m base len s alloc m' s₁ ns leaf) {s₂ : State}
    (hregions : s₂.regions = s₁.regions)
    (hle : backingLen ≤ writtenBlocks g len * g.info.blockSize) :
    backingLoop g.info.blockSize source (s₂.regions.brk + 1) alloc 0 backingLen s₂ = .ok { s₂ with
      out := { s₂.out with
        chunks := s₂.out.chunks ++
          pieceChunks g.info.blockSize source (ns.map Prod.snd) 0 backingLen } } := by
  refine Ext4.backingLoop_eq (hregions ▸ h.cut.listed) h.cut.iter h.cut.partialIter ?_ ?_ ?_
  · intro q hq
    obtain ⟨hlt, hbytes⟩ := h.cut.bytes_lt hg hbs q hq
    exact ⟨hlt.trans (by decide), hbytes⟩
  · rwa [h.cut.lenOf_eq]
  · rw [hregions]
    exact h.cut.length_le.trans (Nat.le_succ _)

/-- The state in which the file's data is queued. -/
theorem backs (hpos : 0 < g.info.blockSize) (h : MakesExtents g m base len s alloc m' s₁ ns leaf)
    (hle : backingLen ≤ writtenBlocks g len * g.info.blockSize) (hbgs : s'.bgs = s₁.bgs)
    (hchunks : s'.out.chunks = s₁.out.chunks ++
      pieceChunks g.info.blockSize source (ns.map Prod.snd) 0 backingLen)
    (hbrk : s₁.out.brk ≤ s'.out.brk)
    (hbuffers : ∀ id < s₁.out.brk, s'.out.buffers id = s₁.out.buffers id)
    (hsource : ∀ offset, (source offset).New s.out.brk s'.out.brk) :
    Backs g s s' (leafChunks g.info.blockSize leaf ++
      pieceChunks g.info.blockSize source (ns.map Prod.snd) 0 backingLen) := by
  refine ⟨hbgs ▸ h.allots.groups, hbgs ▸ h.allots.counted, ?_, hbgs ▸ h.allots.inodes, ?_, ?_,
    h.brk.trans hbrk, ?_, ?_⟩
  · rw [hbgs, chunkBlocks_append, chunkBlocks_leafChunks hpos,
      chunkBlocks_pieceChunks hpos 0 backingLen (by rwa [h.cut.lenOf_eq])]
    refine (h.allots.fills.perm List.perm_append_comm).sublist ?_
    exact List.Sublist.append (List.Sublist.refl _) (List.take_sublist _ _)
  · intro hfree
    refine h.allots.free ?_
    unfold HasFreeBlock at hfree ⊢
    rwa [hbgs] at hfree
  · rw [hchunks, h.chunks, List.append_assoc]
  · exact fun id hid => (hbuffers id (hid.trans_le h.brk)).trans (h.buffers id hid)
  · intro c hc
    rcases List.mem_append.mp hc with hc | hc
    · cases hleaf : leaf with
      | none => simp [leafChunks, hleaf] at hc
      | some l =>
          have hholds := h.holds
          rw [hleaf] at hholds
          have hnew := h.leaf_new l hleaf
          obtain rfl : c = ⟨.buffer l.1 0, g.info.blockSize, l.2⟩ := by
            simpa [leafChunks, hleaf] using hc
          cases hholds with
          | leaf _ _ _ _ lt _ => exact ⟨hnew, lt.trans_le hbrk⟩
    · obtain ⟨offset, hoffset⟩ := pieceChunks_source hc
      rw [hoffset]
      exact hsource offset

end MakesExtents

/-- What has been done when `backingLen` bytes of a source are stored in the blocks of an inode: its
table is `m` now, and `new` has been queued. -/
structure StoresExtents (g : Geometry) (p : InodePtr) (len backingLen : ℕ) (source : ℕ → Source)
    (s s' : State) (m : Mem) (new : List Chunk) (ps : List Piece) (leaf : Option (ℕ × ℕ)) :
    Prop where
  backs : Backs g s s' new
  holds : HoldsExtents g.info.blockSize s'.out m p.base ps leaf
  leaf_new : ∀ l ∈ leaf, s.out.brk ≤ l.1
  lenOf_eq : lenOf ps = writtenBlocks g len
  places : ∀ x < backingLen, ∃ b, (blocksOf ps)[x / g.info.blockSize]? = some b ∧
    Places new source g.info.blockSize x (b * g.info.blockSize + x % g.info.blockSize)
  finish : ∃ m₁ blockLen, m = finishInode g.info.blockSize m₁ p.base len blockLen ∧
    ∀ x, x < p.base + Inode.iBlockOffset ∨ p.base + Inode.iBlockOffset + 60 ≤ x →
      m₁ x = s.table p.bg x

theorem Places.mono {chunks chunks' : List Chunk} {blockSize x pos : ℕ}
    (h : Places chunks source blockSize x pos) (hsub : chunks ⊆ chunks') :
    Places chunks' source blockSize x pos := by
  obtain ⟨c, hc, hplace⟩ := h
  exact ⟨c, hsub hc, hplace⟩

theorem MakesExtents.stores {p : InodePtr} (hpos : 0 < g.info.blockSize)
    (h : MakesExtents g (s.table p.bg) p.base len s alloc m' s₁ ns leaf)
    (hle : backingLen ≤ writtenBlocks g len * g.info.blockSize) (hbgs : s'.bgs = s₁.bgs)
    (hchunks : s'.out.chunks = s₁.out.chunks ++
      pieceChunks g.info.blockSize source (ns.map Prod.snd) 0 backingLen)
    (hbrk : s₁.out.brk ≤ s'.out.brk)
    (hbuffers : ∀ id < s₁.out.brk, s'.out.buffers id = s₁.out.buffers id)
    (hsource : ∀ offset, (source offset).New s.out.brk s'.out.brk) :
    StoresExtents g p len backingLen source s s' m' (leafChunks g.info.blockSize leaf ++
      pieceChunks g.info.blockSize source (ns.map Prod.snd) 0 backingLen) (ns.map Prod.snd)
      leaf := by
  refine ⟨h.backs hpos hle hbgs hchunks hbrk hbuffers hsource,
    h.holds.congr (fun _ _ _ => rfl) ?_ hbrk ?_, h.leaf_new, h.cut.lenOf_eq, ?_, h.finish⟩
  · rw [hchunks]
    exact List.subset_append_left _ _
  · intro l hl
    have hholds := h.holds
    obtain rfl : leaf = some l := hl
    cases hholds with
    | leaf _ _ _ _ lt _ => exact hbuffers _ lt
  · intro x hx
    obtain ⟨b, hb, hplaces⟩ := pieceChunks_places source hpos 0 backingLen x
      (by rwa [h.cut.lenOf_eq]) hx
    rw [Nat.zero_add] at hplaces
    exact ⟨b, hb, hplaces.mono (List.subset_append_right _ _)⟩

/-- The blocks that are written are as many as the file needs. -/
theorem le_writtenBlocks_mul (hpos : 0 < g.info.blockSize)
    (hlen : len ⌈/⌉ g.info.blockSize < 2 ^ 32) :
    len ≤ writtenBlocks g len * g.info.blockSize := by
  rw [(writtenBlocks_eq_iff hpos).mpr hlen]
  have hcover := le_smul_ceilDiv hpos (b := len)
  rwa [smul_eq_mul, Nat.mul_comm] at hcover

/-- `inode_allocate_file_extents` puts the bytes of the file where the extents say. -/
theorem inodeAllocateFileExtents_spec {p : InodePtr} {filename : List UInt8} (hg : g.Roomy)
    (hsmall : g.Small) (hb : g.Built) (hbs : g.info.blockSize ≤ 4096) (hinv : GroupsInv g s.bgs)
    (hcount : Counted g s.bgs) (hlen : len ⌈/⌉ g.info.blockSize < 2 ^ 32) (hlen' : 1 ≤ len)
    (hrun : inodeAllocateFileExtents g p len filename s = .ok s') :
    ∃ s₁ m new ps leaf, StoresExtents g p len len (.file filename) s s₁ m new ps leaf ∧
      s' = s₁.setTable p.bg m := by
  have hpos : 0 < g.info.blockSize := by
    have hge := hb.blockSize_ge
    omega
  have hle := le_writtenBlocks_mul hpos hlen
  have hone : 1 ≤ writtenBlocks g len := by
    rw [(writtenBlocks_eq_iff hpos).mpr hlen]
    exact one_le_ceilDiv hpos hlen'
  simp only [inodeAllocateFileExtents, bind_eq_ok] at hrun
  obtain ⟨⟨alloc, m, s₁⟩, hextents, s₂, hbacking, regions, hfree, hrun⟩ := hrun
  obtain ⟨ns, leaf, hmakes⟩ :=
    doInodeAllocateExtents_spec hg hsmall hb hbs hinv hcount hone hextents
  unfold extentCreateBackingFile at hbacking
  rw [backingFileLoop_eq_backingLoop, hmakes.backingLoop_eq hg hbs rfl hle] at hbacking
  cases hbacking
  cases hrun
  refine ⟨_, m, leafChunks g.info.blockSize leaf ++ pieceChunks g.info.blockSize
    (.file filename) (ns.map Prod.snd) 0 len, ns.map Prod.snd, leaf, ?_, rfl⟩
  exact hmakes.stores hpos hle rfl rfl le_rfl (fun _ _ => rfl) fun _ => trivial

/-- `inode_allocate_data_extents` returns a buffer whose bytes go there. -/
theorem inodeAllocateDataExtents_spec {p : InodePtr} {r : Option ℕ} (hg : g.Roomy)
    (hsmall : g.Small) (hb : g.Built) (hbs : g.info.blockSize ≤ 4096) (hinv : GroupsInv g s.bgs)
    (hcount : Counted g s.bgs) (hlen : len ⌈/⌉ g.info.blockSize < 2 ^ 32) (hle : backingLen ≤ len)
    (hback : 1 ≤ backingLen)
    (hrun : inodeAllocateDataExtents g p len backingLen s = .ok (r, s')) :
    ∃ data s₁ m new ps leaf,
      StoresExtents g p len backingLen (.buffer data) s s₁ m new ps leaf ∧ r = some data ∧
      s' = s₁.setTable p.bg m ∧ s.out.brk ≤ data ∧ data < s₁.out.brk ∧
      s₁.out.buffers data = ⟨backingLen, Mem.zero⟩ ∧ ∀ l ∈ leaf, l.1 ≠ data := by
  have hpos : 0 < g.info.blockSize := by
    have hge := hb.blockSize_ge
    omega
  have hcover := hle.trans (le_writtenBlocks_mul hpos hlen)
  have hone : 1 ≤ writtenBlocks g len := by
    rw [(writtenBlocks_eq_iff hpos).mpr hlen]
    exact one_le_ceilDiv hpos (hback.trans hle)
  simp only [inodeAllocateDataExtents, bind_eq_ok] at hrun
  obtain ⟨⟨alloc, m, s₁⟩, hextents, hrun⟩ := hrun
  obtain ⟨ns, leaf, hmakes⟩ :=
    doInodeAllocateExtents_spec hg hsmall hb hbs hinv hcount hone hextents
  simp only [if_pos (Nat.pos_iff_ne_zero.mp hback), extentCreateBacking, bind_eq_ok] at hrun
  obtain ⟨⟨data, s₂⟩, ⟨s₃, hbacking, hdata⟩, regions, hfree, hrun⟩ := hrun
  have hregions : (s₁.calloc backingLen).2.regions = s₁.regions := rfl
  rw [hmakes.backingLoop_eq hg hbs hregions hcover] at hbacking
  cases hbacking
  cases hdata
  cases hrun
  refine ⟨s₁.out.brk, _, m, leafChunks g.info.blockSize leaf ++ pieceChunks g.info.blockSize
    (.buffer s₁.out.brk) (ns.map Prod.snd) 0 backingLen, ns.map Prod.snd, leaf, ?_, rfl, rfl,
    hmakes.brk, Nat.lt_succ_self _, ?_, ?_⟩
  · refine hmakes.stores hpos hcover rfl rfl (Nat.le_succ _) ?_ fun _ => ?_
    · exact fun id hid => Function.update_of_ne hid.ne _ _
    · exact ⟨hmakes.brk, Nat.lt_succ_self _⟩
  · exact Function.update_self _ _ _
  · intro l hl
    have hholds := hmakes.holds
    obtain rfl : leaf = some l := hl
    cases hholds with
    | leaf _ _ _ _ lt _ => exact lt.ne

/-! ### A single block without extents -/

/-- A request for one block is met with one region of one block. -/
theorem TakesMany.single {bgs bgs' : Groups} {p : Piece} {ps : List Piece}
    (h : TakesMany g 1 bgs (p :: ps) bgs') (hpos : 0 < p.len) : p.len = 1 ∧ ps = [] := by
  cases h with
  | cons _ head share tail =>
      have hone : p.len = 1 := by
        rcases share with hall | ⟨hless, -⟩ <;> omega
      rw [hone] at tail
      exact ⟨hone, tail.eq_nil.1⟩

/-- What `inode_allocate_data_indirect` has done for one block: it is `b`, and entered as the first
of the inode. -/
structure StoresBlock (g : Geometry) (p : InodePtr) (s s' : State) (m : Mem) (data b : ℕ) :
    Prop where
  backs : Backs g s s' [⟨.buffer data 0, g.info.blockSize, b⟩]
  iBlock : ((Inode.iBlock 0).at_ p.base).get m = b
  frame : ∀ x, x < p.base + Inode.iBlockOffset ∨ p.base + Inode.iBlockOffset + 4 ≤ x →
    m x = s.table p.bg x
  data_ge : s.out.brk ≤ data
  data_lt : data < s'.out.brk
  buffer : s'.out.buffers data = ⟨g.info.blockSize, Mem.zero⟩

/-- The data of one block is queued for it. -/
theorem createBacking_one {a data : ℕ} {q : Piece} (hb : g.Built) (hlist : Listed s.regions [(a, q)])
    (hqlen : q.len = 1)
    (hrun : createBacking g (freshAllocation a) g.info.blockSize s = .ok (data, s')) :
    data = s.out.brk ∧ s' = (s.calloc g.info.blockSize).2.addChunk (.buffer data 0)
      g.info.blockSize q.block := by
  have hbs := hb.blockSize_ge
  have hlt := g.info.blockSize_lt
  have hdiv : divRoundUp64 g.info.blockSize g.info.blockSize = 1 := by
    rw [divRoundUp64_eq (by omega)]
    simpa using mul_ceilDiv_self (show 0 < g.info.blockSize by omega) 1
  have hfew : ¬ EXT4_NDIR_BLOCKS < 1 := by decide
  have hmul : q.len * g.info.blockSize = g.info.blockSize := by rw [hqlen, Nat.one_mul]
  have hlist' : Listed (s.calloc g.info.blockSize).2.regions [(a, q)] := hlist
  simp only [createBacking, hdiv, if_neg hfew, bind_eq_ok] at hrun
  obtain ⟨s₁, hbacking, hrun⟩ := hrun
  rw [Ext4.backingLoop_eq hlist' rfl rfl
    (by
      intro n hn
      rw [List.mem_singleton.mp hn, hmul, hqlen]
      exact ⟨by decide, hlt⟩)
    (by simp [hqlen]) (by simp)] at hbacking
  cases hbacking
  cases hrun
  have hne : g.info.blockSize ≠ 0 := by omega
  simp [pieceChunks, hmul, hne, State.calloc, State.addChunk]

/-- The block is entered into the inode. -/
theorem doInodeAttachIndirect_one {a : ℕ} {q : Piece} (hlist : Listed s.regions [(a, q)])
    (hbrk : 1 ≤ s.regions.brk) (hqlen : q.len = 1) (hqlt : q.block < 2 ^ 32)
    (hrun : doInodeAttachIndirect g m base (rewindAlloc (freshAllocation a)) 1 s =
      .ok (m', alloc, s')) :
    s' = s ∧ ((Inode.iBlock 0).at_ base).get m' = q.block ∧
      ∀ x, x < base + Inode.iBlockOffset ∨ base + Inode.iBlockOffset + 4 ≤ x → m' x = m x := by
  rw [doInodeAttachIndirect, bind_eq_ok] at hrun
  obtain ⟨⟨m₁, alloc₁, count⟩, hdirect, hrun⟩ := hrun
  simp only [inodeAttachDirectBlocks, bind_eq_ok] at hdirect
  obtain ⟨m₂, hfill, ⟨ok, alloc₂⟩, hadvance, u, horError, hdirect⟩ := hdirect
  cases hdirect
  simp only [show min 1 EXT4_NDIR_BLOCKS = 1 by decide, Nat.sub_self, attachIf, gt_iff_lt, lt_irrefl,
    if_false, bind_ok, Except.ok.injEq, Prod.mk.injEq] at hrun hfill
  obtain ⟨rfl, rfl, rfl⟩ := hrun
  obtain ⟨hentry, hframe⟩ := fillLoop_cases 1 hfill
  obtain ⟨b, hget, hload⟩ := hentry 0 le_rfl Nat.one_pos
  have hfirst : (blocksOf ([(a, q)].map Prod.snd))[0]? = some q.block := by
    simp [Piece.blocks, hqlen]
  have hgot : getBlock (rewindAlloc (freshAllocation a)) 0 s.regions = .ok q.block := by
    show getBlockLoop s.regions s.regions.brk (some a) (u32 (0 + 0)) = _
    exact getBlockLoop_eq hlist hbrk hfirst hqlt
  have hblock : b = q.block := Except.ok.inj (hget.symm.trans hgot)
  rw [hblock, Nat.mod_eq_of_lt hqlt] at hload
  exact ⟨rfl, hload, fun x hx => hframe x hx⟩

theorem inodeAllocateDataIndirect_spec {p : InodePtr} {r : Option ℕ} (hg : g.Roomy)
    (hsmall : g.Small) (hb : g.Built) (hinv : GroupsInv g s.bgs) (hcount : Counted g s.bgs)
    (hrun : inodeAllocateDataIndirect g p g.info.blockSize g.info.blockSize s = .ok (r, s')) :
    ∃ data b s₁ m, StoresBlock g p s s₁ m data b ∧ r = some data ∧ s' = s₁.setTable p.bg m := by
  have hbs := hb.blockSize_ge
  have hpos : 0 < g.info.blockSize := by omega
  have hceil : g.info.blockSize ⌈/⌉ g.info.blockSize = 1 := by simpa using mul_ceilDiv_self hpos 1
  have hone : writtenBlocks g g.info.blockSize = 1 := by
    rw [(writtenBlocks_eq_iff hpos).mpr (by omega), hceil]
  have hneed : indirectBlocksNeeded g.aux 1 = .ok 0 := indirectBlocksNeeded_of_le (by decide)
  simp only [inodeAllocateDataIndirect, hone, if_pos hpos.ne', bind_eq_ok] at hrun
  obtain ⟨⟨alloc, s₁⟩, halloc, ⟨data, s₃⟩, hcreate, ⟨r', s₂⟩, hr', ⟨m, alloc', s₄⟩, hattach,
    regions, hfree, hrun⟩ := hrun
  obtain ⟨hout, a, q, rest, rfl, hext, hmany⟩ :=
    doInodeAllocateIndirect_cases hg hinv Nat.one_pos hneed (by decide) halloc
  have hqpos := hmany.len_pos hg hsmall hinv hcount q List.mem_cons_self
  obtain ⟨hqlen, hrest⟩ := hmany.single hqpos
  obtain rfl : rest = [] := List.map_eq_nil_iff.mp hrest
  have htakes : TakesAll g s.bgs [q] s₁.bgs := hmany.takesAll
  have hblocks : blocksOf [q] = [q.block] := by simp [Piece.blocks, hqlen]
  have hqlt : q.block < 2 ^ 32 := by
    have hmem : q.block ∈ blocksOf [q] := by rw [hblocks]; exact List.mem_singleton_self _
    exact (htakes.mem_range hg.fits hinv hmem).2.trans hg.lenBlocks_lt
  obtain ⟨rfl, rfl⟩ := createBacking_one hb hext.linked.listed hqlen hcreate
  cases hr'
  generalize hqueued : (s₁.calloc g.info.blockSize).2.addChunk (.buffer s₁.out.brk 0)
    g.info.blockSize q.block = s₂ at hattach
  have hregions : s₂.regions = s₁.regions := hqueued ▸ rfl
  obtain ⟨rfl, hblock, hframe⟩ := doInodeAttachIndirect_one (hregions ▸ hext.linked.listed)
    (hregions ▸ hext.length_le) hqlen hqlt hattach
  subst hqueued
  cases hrun
  refine ⟨s₁.out.brk, q.block, _, m, ?_, rfl, rfl⟩
  refine ⟨⟨htakes.inv hinv, htakes.counted hsmall hinv hcount, ?_, htakes.sameInodes hg.fits hinv,
    ?_, ?_, ?_, ?_, ?_⟩, hblock, ?_, ?_, Nat.lt_succ_self _, Function.update_self _ _ _⟩
  · have hfills := htakes.fills hinv
    rw [hblocks] at hfills
    simp only [chunkBlocks, Chunk.blocks, List.flatMap_cons, List.flatMap_nil, List.append_nil, hceil]
    exact hfills
  · intro _
    cases htakes with
    | cons head _ => exact ⟨q.bg, head.bg_lt, hqpos.trans_le head.len_le⟩
  · show s₁.out.chunks ++ _ = s.out.chunks ++ _
    rw [hout]
  · show s.out.brk ≤ s₁.out.brk + 1
    rw [hout]
    exact Nat.le_succ _
  · intro id hid
    rw [← hout] at hid ⊢
    exact Function.update_of_ne hid.ne _ _
  · intro c hc
    obtain rfl := List.mem_singleton.mp hc
    exact ⟨hout ▸ le_rfl, Nat.lt_succ_self _⟩
  · intro x hx
    have htable : s₁.table p.bg = s.table p.bg := by
      unfold State.table
      rw [(htakes.sameTables p.bg).1]
    exact (hframe x hx).trans (congrFun htable x)
  · rw [hout]

end Backs

end SystemExtras.Ext4
