import SystemExtras.Ext4.Extents

/-!
# The extent writer and the extent reader agree

What `do_inode_allocate_extents` writes for a file is read back by
`get_block_list_extents` as the blocks of the allocation, in order, each index
once.  The blocks are distinct and marked used, and the file's bytes are queued
at them.  This holds exactly for files whose number of blocks fits the `u32` in
which the writer keeps it (`extentsAgree_iff`).

## Strategy

Between the two lies an allocation that is one block too large and is then cut
at one of its ends.

* **The allocation to be cut.**  `Cuttable` is what is known of it: a list of regions
  on the heap that are the newest in their groups, the first of them long enough to
  lose a block.  That a group has room for more than its header is used here and
  nowhere else; `Cuttable` itself does without it.
* **The cut.**  A file with few regions gives its last block back; any other sets its
  first block aside for the leaf.  `Cut` is what both leave: a list of regions whose
  readers see as many blocks as the file needs, none of them twice, and beside it the
  leaf block, if there is one (`Cuttable.cut_reduce`, `Cuttable.cut_oob`).
* **The queue.**  `backingFileLoop_eq` gives the chunks of the file, one for each
  region, and `fileChunks_covers` finds the chunk that puts a given byte of the file
  where the block list says.
* **The node.**  `NodeAt` says that memory holds a header and the extents of a list of
  regions.  The writer leaves that, in the inode or in the leaf, and on it the reader
  has a closed form (`NodeAt.getExtentEnts_eq`).  `Cut.agree` puts cut, queue and node
  together for either place of the node.

For the converse the list that is read has as many blocks as the writer counted, and
that is the number of the file's blocks only if the count has not wrapped
(`ExtentsAgree.writtenBlocks_eq`).
-/

namespace SystemExtras.Ext4

open Mem

/-! ## Pieces -/

section Pieces

variable {g : Geometry} {bgs bgs' : Groups} {len : ℕ} {p : Piece} {ps : List Piece}

theorem TakesAll.len_le (hinv : GroupsInv g bgs) (h : TakesAll g bgs ps bgs') :
    ∀ p ∈ ps, p.len ≤ g.info.blocksPerGroup := by
  induction h with
  | nil => simp
  | cons head _ ih =>
      rename_i q _
      intro p hp
      rcases List.mem_cons.mp hp with rfl | hp
      · have hend := (hinv p.bg head.bg_lt).end_le
        have hle := head.len_le
        omega
      · exact ih (head.inv hinv) p hp

/-- A piece lies inside the device. -/
theorem TakesAll.end_le (hg : g.Fits) (hinv : GroupsInv g bgs) (h : TakesAll g bgs ps bgs')
    (hp : p ∈ ps) (hpos : 0 < p.len) : p.block + p.len ≤ g.aux.lenBlocks := by
  have hmem : p.block + p.len - 1 ∈ blocksOf ps :=
    List.mem_flatMap.mpr ⟨p, hp, Piece.mem_blocks.mpr ⟨by omega, by omega⟩⟩
  have := (h.mem_range hg hinv hmem).2
  omega

/-- With two data blocks in every group no piece is empty. -/
theorem TakesMany.len_pos (hg : g.Roomy) (hsmall : g.Small) (hinv : GroupsInv g bgs)
    (hcount : Counted g bgs) (h : TakesMany g len bgs ps bgs') : ∀ p ∈ ps, 0 < p.len := by
  induction h with
  | nil => simp
  | cons pos head share _ ih =>
      rename_i q _
      intro p hp
      rcases List.mem_cons.mp hp with rfl | hp
      · rcases share with hall | ⟨-, hwhole, huntouched⟩
        · omega
        · have hsize := hg.size_ge p.bg head.bg_lt
          have hlimit := (hinv p.bg head.bg_lt).limit_of_lt (by omega)
          have hcursor := (hcount p.bg head.bg_lt).1
          omega
      · exact ih (head.inv hinv) (head.counted hsmall hinv hcount) p hp

/-- The first block of a piece and the others. -/
theorem Piece.blocks_eq_cons (hpos : 0 < p.len) :
    p.blocks = p.block :: (Piece.mk (p.block + 1) (p.len - 1) p.bg).blocks := by
  obtain ⟨n, hn⟩ : ∃ n, p.len = n + 1 := ⟨p.len - 1, by omega⟩
  simp [Piece.blocks, hn, List.range'_succ]

/-- The last block of a piece and the others. -/
theorem Piece.blocks_eq_concat (hpos : 0 < p.len) :
    p.blocks = (Piece.mk p.block (p.len - 1) p.bg).blocks ++ [p.block + p.len - 1] := by
  obtain ⟨n, hn⟩ : ∃ n, p.len = n + 1 := ⟨p.len - 1, by omega⟩
  simp [Piece.blocks, hn, List.range'_concat]

/-- A block below a cursor is marked used. -/
theorem used_of_mem_taken (hinv : GroupsInv g bgs) {b : ℕ} (hb : b ∈ taken g bgs) :
    ∃ i < g.aux.groups, ∃ k < g.info.blocksPerGroup, b = (bgs i).firstBlock + k ∧
      (bgs i).bitmaps.bit k = true := by
  obtain ⟨i, hi, k, hk, rfl⟩ := hb
  have hend := (hinv i hi).end_le
  refine ⟨i, hi, k, by omega, by rw [(hinv i hi).firstBlock], ?_⟩
  rw [(hinv i hi).used k (by omega), decide_eq_true_iff]
  exact Or.inl hk

end Pieces

/-! ## Cutting the allocation to size -/

/-- An allocation of `len` blocks as its readers see it, with the blocks of its
second list in `leaf`. -/
structure Cut (g : Geometry) (s : State) (alloc : BlockAllocation) (len : ℕ)
    (ns : List (ℕ × Piece)) (leaf : List ℕ) : Prop where
  listed : Listed s.regions ns
  first : alloc.list.first = headAddr ns
  iter : alloc.list.iter = headAddr ns
  partialIter : alloc.list.partialIter = 0
  length_le : ns.length ≤ s.regions.brk
  oob : regionBlocks s.regions s.regions.brk alloc.oobList.first = leaf
  lenOf_eq : lenOf (ns.map Prod.snd) = len
  nodup : (blocksOf (ns.map Prod.snd) ++ leaf).Nodup
  inv : GroupsInv g s.bgs
  taken : ∀ b ∈ blocksOf (ns.map Prod.snd) ++ leaf, b ∈ taken g s.bgs
  small : ∀ n ∈ ns, 0 < n.2.len ∧ n.2.len ≤ g.info.blocksPerGroup ∧
    n.2.block + n.2.len ≤ g.aux.lenBlocks

section Cut

variable {g : Geometry} {s s' : State} {len a : ℕ} {p : Piece} {rest : List (ℕ × Piece)}

/-- The state in which an allocation has just been made that leaves a block of its
first region when it is cut. -/
structure Cuttable (g : Geometry) (h : RegionHeap) (bgs : Groups) (s : State) (len a : ℕ)
    (p : Piece) (rest : List (ℕ × Piece)) : Prop where
  extends_ : Extends h s.regions none ((a, p) :: rest)
  takes : TakesMany g len bgs (p :: rest.map Prod.snd) s.bgs
  inv : GroupsInv g bgs
  two_le_head : 2 ≤ p.len
  len_pos : ∀ n ∈ rest, 0 < n.2.len

/-- An allocation of at least two blocks, where every group has two. -/
structure Fresh (g : Geometry) (h : RegionHeap) (bgs : Groups) (s : State) (len a : ℕ) (p : Piece)
    (rest : List (ℕ × Piece)) : Prop extends Cuttable g h bgs s len a p rest where
  counted : Counted g bgs

variable {h : RegionHeap} {bgs : Groups}

theorem Cuttable.two_le (hf : Cuttable g h bgs s len a p rest) : 2 ≤ len := by
  have hlen := hf.takes.lenOf_eq
  have htwo := hf.two_le_head
  rw [lenOf_cons] at hlen
  omega

/-- The group of the first region has more than its header. -/
theorem Cuttable.head (hf : Cuttable g h bgs s len a p rest) : p.bg < g.aux.groups ∧
    g.headerBlocks p.bg < g.groupSize p.bg ∧
    g.start p.bg + g.headerBlocks p.bg ≤ p.block := by
  have htwo := hf.two_le_head
  cases hf.takes with
  | cons _ head _ _ =>
      have hblock := head.block_eq (by omega)
      have hle := head.len_le
      have hheader := (hf.inv p.bg head.bg_lt).header_le
      have hlimit := (hf.inv p.bg head.bg_lt).limit_of_pos (by omega)
      exact ⟨head.bg_lt, by omega, by omega⟩

theorem Cuttable.small (hg : g.Fits) (hf : Cuttable g h bgs s len a p rest) :
    ∀ n ∈ (a, p) :: rest, 0 < n.2.len ∧ n.2.len ≤ g.info.blocksPerGroup ∧
      n.2.block + n.2.len ≤ g.aux.lenBlocks := by
  intro n hn
  have hmem : n.2 ∈ p :: rest.map Prod.snd := by
    have := List.mem_map_of_mem (f := Prod.snd) hn
    simpa using this
  have hpos : 0 < n.2.len := by
    rcases List.mem_cons.mp hn with rfl | hn
    · exact Nat.zero_lt_of_lt hf.two_le_head
    · exact hf.len_pos n hn
  exact ⟨hpos, hf.takes.takesAll.len_le hf.inv n.2 hmem,
    hf.takes.takesAll.end_le hg hf.inv hmem hpos⟩

theorem Cuttable.not_mem (hf : Cuttable g h bgs s len a p rest) : a ∉ rest.map Prod.fst :=
  (List.nodup_cons.mp hf.extends_.nodup).1

/-- The allocation is cut by one block. -/
theorem Cuttable.cut_reduce (hg : g.Fits) (hf : Cuttable g h bgs s len a p rest)
    {alloc : BlockAllocation}
    (hrun : reduceAllocation g (freshAllocation a) 1 s = .ok (alloc, s')) :
    Cut g s' alloc (len - 1) ((a, ⟨p.block, p.len - 1, p.bg⟩) :: rest) [] ∧ s'.out = s.out := by
  have htwo := hf.two_le_head
  have hinv := hf.takes.takesAll.inv hf.inv
  have hcursor := hf.takes.cursor_of_head (by omega)
  have hlen := hf.takes.lenOf_eq
  have hnodup := hf.takes.takesAll.nodup hf.inv
  have htaken := fun b hb => hf.takes.takesAll.mem_taken (b := b) hb
  obtain ⟨hbg, hroom, hblock⟩ := hf.head
  have hgroup := hinv p.bg hbg
  obtain ⟨hbgs, hout, hcases⟩ := reduceAllocation_cases rfl hf.extends_.linked.1
    (fun _ => hgroup.freeBlocks_one hg (by omega)) hrun
  rcases hcases with ⟨-, rfl, hregions⟩ | ⟨hone, -⟩
  · rw [lenOf_cons] at hlen
    rw [blocksOf_cons, Piece.blocks_eq_concat (by omega), List.append_assoc] at hnodup
    -- the block that goes back, and those that stay
    obtain ⟨hgone, hstay⟩ := List.nodup_cons.mp (List.nodup_middle.mp hnodup)
    have hback : taken g s'.bgs = taken g s.bgs \ {p.block + p.len - 1} := by
      rw [hbgs, taken_giveBack hinv hbg (by omega), hcursor]
    refine ⟨?_, hout⟩
    exact {
      listed := by
        rw [hregions]
        exact hf.extends_.linked.listed.shrink hf.not_mem
      first := rfl
      iter := rfl
      partialIter := rfl
      length_le := by
        rw [hregions]
        exact hf.extends_.length_le
      oob := by
        have : ∀ fuel, regionBlocks s'.regions fuel none = [] := by
          intro fuel
          cases fuel <;> rfl
        exact this _
      lenOf_eq := by
        simp only [List.map_cons, lenOf_cons]
        omega
      nodup := by
        simp only [List.map_cons, blocksOf_cons, List.append_nil]
        exact hstay
      inv := by
        intro i hi
        rw [hbgs]
        by_cases hip : i = p.bg
        · subst hip
          rw [Function.update_self]
          exact hgroup.giveBack (by omega) (hgroup.limit_of_lt hroom)
        · rw [Function.update_of_ne hip]
          exact hinv i hi
      taken := by
        intro b hb
        simp only [List.map_cons, blocksOf_cons, List.append_nil] at hb
        rw [hback]
        refine ⟨htaken b ?_, ?_⟩
        · rw [blocksOf_cons, Piece.blocks_eq_concat (by omega)]
          rcases List.mem_append.mp hb with hb | hb
          · exact List.mem_append_left _ (List.mem_append_left _ hb)
          · exact List.mem_append_right _ hb
        · simp only [Set.mem_singleton_iff]
          rintro rfl
          exact hgone hb
      small := by
        intro n hn
        rcases List.mem_cons.mp hn with rfl | hn
        · have := hf.small hg (a, p) List.mem_cons_self
          simp only at this ⊢
          omega
        · exact hf.small hg n (List.mem_cons_of_mem _ hn) }
  · omega

/-- The first block of the allocation is set aside for a leaf. -/
theorem Cuttable.cut_oob (hg : g.Fits) (hf : Cuttable g h bgs s len a p rest) :
    ∃ alloc, reserveOobBlocks (freshAllocation a) 1 s.regions =
        .ok (true, alloc, oobHeap s.regions a p (headAddr rest)) ∧
      getOobBlock alloc 0 (oobHeap s.regions a p (headAddr rest)) = .ok p.block ∧
      Cut g { s with regions := oobHeap s.regions a p (headAddr rest) } alloc (len - 1)
        ((s.regions.brk, ⟨p.block + 1, p.len - 1, p.bg⟩) :: rest) [p.block] := by
  have htwo := hf.two_le_head
  have hlen := hf.takes.lenOf_eq
  have hnodup := hf.takes.takesAll.nodup hf.inv
  have htaken := fun b hb => hf.takes.takesAll.mem_taken (b := b) hb
  have hpiece := hf.small hg (a, p) List.mem_cons_self
  have hlt := hg.lenBlocks_lt
  have ha : a < s.regions.brk := (hf.extends_.fresh (a, p) List.mem_cons_self).2
  have hold : ∀ n ∈ rest, n.1 < s.regions.brk :=
    fun n hn => (hf.extends_.fresh n (List.mem_cons_of_mem _ hn)).2
  have hlength := hf.extends_.length_le
  simp only at hpiece
  rw [lenOf_cons] at hlen
  rw [blocksOf_cons, Piece.blocks_eq_cons (by omega), List.cons_append] at hnodup
  obtain ⟨hleaf, hrest⟩ := List.nodup_cons.mp hnodup
  refine ⟨_, reserveOobBlocks_one hf.extends_.linked.1 ha htwo (by omega),
    getOobBlock_oobHeap (by omega) _, ?_⟩
  exact {
    listed := Listed.oob hf.extends_.linked ha hf.not_mem hold
    first := rfl
    iter := rfl
    partialIter := rfl
    length_le := by
      show _ ≤ s.regions.brk + 1
      simp only [List.length_cons] at hlength ⊢
      omega
    oob := by
      show regionBlocks (oobHeap s.regions a p (headAddr rest)) (s.regions.brk + 1) (some a) = _
      have hnode : (oobHeap s.regions a p (headAddr rest)).node a =
          some (Piece.region ⟨p.block, 1, p.bg⟩ none none) := RegionHeap.write_node_self _ _ _
      simp only [regionBlocks, hnode, Piece.region]
      cases s.regions.brk <;> rfl
    lenOf_eq := by
      simp only [List.map_cons, lenOf_cons]
      omega
    nodup := by
      simp only [List.map_cons, blocksOf_cons]
      rw [List.nodup_append_comm]
      exact hnodup
    inv := hf.takes.takesAll.inv hf.inv
    taken := by
      intro b hb
      refine htaken b ?_
      rw [blocksOf_cons, Piece.blocks_eq_cons (by omega)]
      simp only [List.map_cons, blocksOf_cons, List.mem_append, List.mem_singleton] at hb
      simp only [List.cons_append, List.mem_cons, List.mem_append]
      tauto
    small := by
      intro n hn
      rcases List.mem_cons.mp hn with rfl | hn
      · simp only
        omega
      · exact hf.small hg n (List.mem_cons_of_mem _ hn) }

/-- The writer walks through the list and rewinds it. -/
theorem Cut.rewind {alloc alloc' : BlockAllocation} {ns : List (ℕ × Piece)} {leaf : List ℕ}
    (hc : Cut g s alloc len ns leaf) (hfirst : alloc'.list.first = alloc.list.first)
    (hoob : alloc'.oobList = alloc.oobList) : Cut g s (rewindAlloc alloc') len ns leaf where
  listed := hc.listed
  first := hfirst.trans hc.first
  iter := hfirst.trans hc.first
  partialIter := rfl
  length_le := hc.length_le
  oob := by
    show regionBlocks _ _ alloc'.oobList.first = leaf
    rw [hoob]
    exact hc.oob
  lenOf_eq := hc.lenOf_eq
  nodup := hc.nodup
  inv := hc.inv
  taken := hc.taken
  small := hc.small

/-- What is queued does not matter. -/
theorem Cut.output {alloc : BlockAllocation} {ns : List (ℕ × Piece)} {leaf : List ℕ}
    (hc : Cut g s alloc len ns leaf) (hregions : s'.regions = s.regions) (hbgs : s'.bgs = s.bgs) :
    Cut g s' alloc len ns leaf where
  listed := by rw [hregions]; exact hc.listed
  first := hc.first
  iter := hc.iter
  partialIter := hc.partialIter
  length_le := by rw [hregions]; exact hc.length_le
  oob := by rw [hregions]; exact hc.oob
  lenOf_eq := hc.lenOf_eq
  nodup := hc.nodup
  inv := by rw [hbgs]; exact hc.inv
  taken := by rw [hbgs]; exact hc.taken
  small := hc.small

end Cut

/-! ## The file's bytes -/

/-- The chunks that are queued for the first `len` bytes from `offset` on. -/
def fileChunks (blockSize : ℕ) (filename : List UInt8) : List Piece → ℕ → ℕ → List Chunk
  | [], _, _ => []
  | p :: ps, offset, len =>
      if len = 0 then []
      else ⟨.file filename offset, min (p.len * blockSize) len, p.block⟩ ::
        fileChunks blockSize filename ps (offset + min (p.len * blockSize) len)
          (len - min (p.len * blockSize) len)

/-- The chunk holds the file's byte `x`. -/
def Chunk.Covers (c : Chunk) (filename : List UInt8) (x : ℕ) : Prop :=
  ∃ offset, c.source = .file filename offset ∧ offset ≤ x ∧ x < offset + c.len

/-- The chunk puts the file's byte `x` at byte `pos` of the device. -/
def Chunk.PutsAt (c : Chunk) (blockSize x pos : ℕ) : Prop :=
  ∃ filename offset, c.source = .file filename offset ∧ c.block * blockSize + (x - offset) = pos

section File

variable {blockSize : ℕ} {filename : List UInt8} {ps : List Piece}

theorem backingFileLoop_eq {ns : List (ℕ × Piece)} :
    ∀ {fuel : ℕ} {alloc : BlockAllocation} {offset len : ℕ} {s : State},
      Listed s.regions ns → alloc.list.iter = headAddr ns → alloc.list.partialIter = 0 →
      (∀ n ∈ ns, n.2.len < 2 ^ 32 ∧ n.2.len * blockSize < 2 ^ 32) →
      len ≤ lenOf (ns.map Prod.snd) * blockSize → ns.length ≤ fuel →
      backingFileLoop blockSize filename fuel alloc offset len s = .ok { s with
        out := { s.out with
          chunks := s.out.chunks ++
            fileChunks blockSize filename (ns.map Prod.snd) offset len } } := by
  induction ns with
  | nil =>
      intro fuel alloc offset len s _ _ _ _ hlen _
      have hzero : len = 0 := by simpa using hlen
      cases fuel <;> simp [backingFileLoop, hzero, fileChunks]
  | cons n rest ih =>
      intro fuel alloc offset len s hlist hiter hpartial hsmall hlen hfuel
      cases fuel with
      | zero => simp at hfuel
      | succ fuel =>
          by_cases hzero : len = 0
          · simp [backingFileLoop, hzero, fileChunks]
          · obtain ⟨prev, hderef⟩ := hlist.deref
            obtain ⟨hlt, hbytes⟩ := hsmall n List.mem_cons_self
            have hiter' : alloc.list.iter = some n.1 := hiter
            have hregion : getRegion alloc s.regions = .ok (n.2.block, n.2.len) := by
              unfold getRegion
              rw [hiter', hderef, bind_ok, hpartial]
              simp only [Piece.region]
              rw [sub32_of_le (Nat.zero_le _) (by omega), Nat.sub_zero]
            have hnext : getNextRegion alloc s.regions = .ok { alloc with
                list := { alloc.list with iter := headAddr rest, partialIter := 0 } } := by
              unfold getNextRegion
              rw [hiter', hderef, bind_ok]
              rfl
            rw [List.map_cons, lenOf_cons, Nat.add_mul] at hlen
            unfold backingFileLoop
            rw [if_neg hzero, hregion, bind_ok]
            simp only [u32_of_lt hbytes]
            have hnext' : getNextRegion alloc (s.addChunk (.file filename offset)
                (min (n.2.len * blockSize) len) n.2.block).regions = _ := hnext
            rw [hnext', bind_ok, ih (s := s.addChunk _ _ _) hlist.2 rfl rfl
              (fun q hq => hsmall q (List.mem_cons_of_mem _ hq)) (by omega)
              (Nat.le_of_succ_le_succ hfuel)]
            simp [State.addChunk, fileChunks, hzero]

theorem offset_le_of_mem_fileChunks : ∀ {offset len : ℕ} {c : Chunk},
    c ∈ fileChunks blockSize filename ps offset len →
      ∃ o, c.source = .file filename o ∧ offset ≤ o := by
  induction ps with
  | nil =>
      intro offset len c hc
      simp [fileChunks] at hc
  | cons p ps ih =>
      intro offset len c hc
      unfold fileChunks at hc
      split at hc
      · simp at hc
      · rcases List.mem_cons.mp hc with rfl | hc
        · exact ⟨offset, rfl, le_rfl⟩
        · obtain ⟨o, ho, hle⟩ := ih hc
          exact ⟨o, ho, by omega⟩

variable (filename) in
/-- Every byte is in a chunk, and every chunk puts it where it belongs. -/
theorem fileChunks_covers (hbs : 0 < blockSize) : ∀ (offset len x : ℕ),
    len ≤ lenOf ps * blockSize → x < len →
      (∃ c ∈ fileChunks blockSize filename ps offset len, c.Covers filename (offset + x)) ∧
      ∀ c ∈ fileChunks blockSize filename ps offset len, c.Covers filename (offset + x) →
        ∀ b, (blocksOf ps)[x / blockSize]? = some b →
          c.PutsAt blockSize (offset + x) (b * blockSize + x % blockSize) := by
  induction ps with
  | nil =>
      intro offset len x hlen hx
      simp at hlen
      omega
  | cons p ps ih =>
      intro offset len x hlen hx
      have hzero : len ≠ 0 := by omega
      rw [lenOf_cons, Nat.add_mul] at hlen
      rw [fileChunks, if_neg hzero]
      by_cases hhead : x < min (p.len * blockSize) len
      · -- the byte is in the first piece
        refine ⟨⟨_, List.mem_cons_self, offset, rfl, by omega, by simp only; omega⟩, ?_⟩
        intro c hc hcov b hb
        rcases List.mem_cons.mp hc with rfl | hc
        · have hidx : x / blockSize < p.len := by
            rw [Nat.div_lt_iff_lt_mul hbs]
            omega
          have hblock : b = p.block + x / blockSize := by
            rw [blocksOf_cons, List.getElem?_append_left (by simpa [Piece.blocks] using hidx)] at hb
            simpa [Piece.blocks, hidx] using hb.symm
          refine ⟨filename, offset, rfl, ?_⟩
          have hdiv := Nat.div_add_mod x blockSize
          simp only [hblock, Nat.add_mul]
          rw [Nat.mul_comm blockSize] at hdiv
          omega
        · obtain ⟨o, ho, hle⟩ := offset_le_of_mem_fileChunks hc
          obtain ⟨o', ho', hle', -⟩ := hcov
          rw [ho] at ho'
          cases ho'
          omega
      · -- the byte is in a later piece, and the first is a whole one
        have hwhole : min (p.len * blockSize) len = p.len * blockSize := by omega
        rw [hwhole] at hhead ⊢
        obtain ⟨⟨c, hc, hcov⟩, hall⟩ := ih (offset + p.len * blockSize)
          (len - p.len * blockSize) (x - p.len * blockSize) (by omega) (by omega)
        rw [show offset + p.len * blockSize + (x - p.len * blockSize) = offset + x by omega]
          at hcov hall
        have hdiv : (x - p.len * blockSize) / blockSize = x / blockSize - p.len := by
          rw [Nat.mul_comm, Nat.sub_mul_div]
        have hmod : (x - p.len * blockSize) % blockSize = x % blockSize := by
          rw [Nat.mul_comm, Nat.sub_mul_mod]
          rw [Nat.mul_comm]
          omega
        have hle : p.len ≤ x / blockSize := by
          rw [Nat.le_div_iff_mul_le hbs]
          omega
        refine ⟨⟨c, List.mem_cons_of_mem _ hc, hcov⟩, ?_⟩
        intro c hc hcov b hb
        rcases List.mem_cons.mp hc with rfl | hc
        · obtain ⟨o, ho, -, hlt⟩ := hcov
          cases ho
          simp only at hlt
          omega
        · rw [← hmod]
          refine hall c hc hcov b ?_
          rw [blocksOf_cons, List.getElem?_append_right (by simpa [Piece.blocks] using hle)] at hb
          simpa [Piece.blocks, hdiv] using hb

end File

/-! ## Agreement -/

/-- A block as the chunks in `chunks` will write it from a buffer. -/
def readQueued (s : State) (chunks : List Chunk) (b : ℕ) : Except Stop Mem :=
  match chunks.find? fun c => c.block = b with
  | some ⟨.buffer id offset, _, _⟩ => .ok fun x => (s.out.buffers id).bytes (offset + x)
  | _ => .error .undefined

/-- The header that holds the extents of the inode at `base`: the inode's own, or
that of the leaf it points to. -/
def extentNode (read : ℕ → Except Stop Mem) (m : Mem) (base : ℕ) : Except Stop (Mem × ℕ) :=
  let hdr := base + Inode.iBlockOffset
  if (ExtentHeader.ehDepth.at_ hdr).get m = 0 then .ok (m, hdr)
  else do
    let idx := hdr + sizeofExtent
    let block ← read ((ExtentIdx.eiLeafHi.at_ idx).get m * 2 ^ 32 +
      (ExtentIdx.eiLeafLo.at_ idx).get m)
    .ok (block, 0)

/-- The blocks of the second list. -/
def BlockAllocation.oobBlocks (alloc : BlockAllocation) (s : State) : List ℕ :=
  regionBlocks s.regions s.regions.brk alloc.oobList.first

/-- The chunks queued between two states. -/
def newChunks (s s' : State) : List Chunk := s'.out.chunks.drop s.out.chunks.length

/-- What a call of `do_inode_allocate_extents` from `s` to `s'` that returned
`alloc` and left the inode table `m` has to have done for a file of `len` bytes. -/
structure ExtentsAgree (g : Geometry) (len : ℕ) (filename : List UInt8) (s : State)
    (alloc : BlockAllocation) (m : Mem) (base : ℕ) (s' : State) : Prop where
  /-- The reader assigns every index of the file once, no other one, and to the
  `k`-th index the `k`-th block of the allocation. -/
  assigned : ∃ l, getBlockListExtents (readQueued s' (newChunks s s')) g.info.blockSize 1 m base =
      .ok l ∧ l.map Prod.fst = List.range (len ⌈/⌉ g.info.blockSize) ∧
    l.map Prod.snd = alloc.blocks s'
  /-- No block is there twice, the leaf included. -/
  nodup : (alloc.blocks s' ++ alloc.oobBlocks s').Nodup
  /-- All of them are marked used. -/
  used : ∀ b ∈ alloc.blocks s' ++ alloc.oobBlocks s', ∃ i < g.aux.groups,
    ∃ k < g.info.blocksPerGroup, b = (s'.bgs i).firstBlock + k ∧ (s'.bgs i).bitmaps.bit k = true
  /-- The header counts the extents, each begins where the one before it ends, and
  together they are as long as the file. -/
  extents : ∃ node off, extentNode (readQueued s' (newChunks s s')) m base = .ok (node, off) ∧
    blockAllocationNumRegions alloc s'.regions = .ok (extentsOf node off).length ∧
    (∀ i e, (extentsOf node off)[i]? = some e →
      e.1 = (((extentsOf node off).take i).map fun e => e.2.1).sum) ∧
    ((extentsOf node off).map fun e => e.2.1).sum = len ⌈/⌉ g.info.blockSize
  /-- The file's bytes are queued at its blocks. -/
  file : ∃ s'', extentCreateBackingFile g alloc len filename s' = .ok s'' ∧ ∀ x < len,
    (∃ c ∈ newChunks s' s'', c.Covers filename x) ∧
    ∀ c ∈ newChunks s' s'', c.Covers filename x →
      ∃ b, (alloc.blocks s')[x / g.info.blockSize]? = some b ∧
        c.PutsAt g.info.blockSize x (b * g.info.blockSize + x % g.info.blockSize)

/-! ### From extents in memory to agreement -/

/-- Memory that holds a header and the extents of the pieces `ps` behind it. -/
structure NodeAt (m : Mem) (off : ℕ) (ps : List Piece) : Prop where
  header : HeaderAt m off ps.length 0
  extents : ExtentsAt m (off + sizeofExtent) 0 ps

section Node

variable {m : Mem} {off : ℕ} {ps : List Piece}

theorem NodeAt.length_extentsOf (h : NodeAt m off ps) : (extentsOf m off).length = ps.length := by
  simp [extentsOf, h.header.entries]

theorem ExtentsAt.getElem : ∀ {off fileBlock : ℕ}, ExtentsAt m off fileBlock ps →
    ∀ i p, ps[i]? = some p → extentAt m (off + sizeofExtent * i) =
      (fileBlock + lenOf (ps.take i), p.len, p.block) := by
  induction ps with
  | nil => simp
  | cons q ps ih =>
      intro off fileBlock hext i p hi
      cases i with
      | zero =>
          obtain rfl : q = p := by simpa using hi
          simpa using hext.1
      | succ i =>
          have := ih hext.2 i p (by simpa using hi)
          rw [List.take_succ_cons, lenOf_cons, ← Nat.add_assoc, ← this]
          congr 1
          ring

/-- The extents are those of the pieces. -/
theorem NodeAt.extentsOf_eq (h : NodeAt m off ps) :
    (extentsOf m off).map (fun e => e.2.1) = ps.map Piece.len ∧
      ∀ i e, (extentsOf m off)[i]? = some e → e.1 = lenOf (ps.take i) := by
  have helem : ∀ i p, ps[i]? = some p → (extentsOf m off)[i]? =
      some (lenOf (ps.take i), p.len, p.block) := by
    intro i p hi
    have hlt : i < ps.length := (List.getElem?_eq_some_iff.mp hi).1
    have := h.extents.getElem i p hi
    simp [extentsOf, h.header.entries, hlt, this]
  refine ⟨?_, ?_⟩
  · refine List.ext_getElem? fun i => ?_
    rw [List.getElem?_map, List.getElem?_map]
    cases hp : ps[i]? with
    | none =>
        have : ps.length ≤ i := List.getElem?_eq_none_iff.mp hp
        rw [List.getElem?_eq_none_iff.mpr (by rw [h.length_extentsOf]; exact this)]
        rfl
    | some p => rw [helem i p hp]; rfl
  · intro i e he
    have hlt : i < ps.length := by
      rw [← h.length_extentsOf]
      exact (List.getElem?_eq_some_iff.mp he).1
    rw [helem i _ (List.getElem?_eq_getElem hlt), Option.some.injEq] at he
    rw [← he]

theorem NodeAt.getExtentEnts_eq (h : NodeAt m off ps) {size : ℕ}
    (hsize : off + sizeofExtent + sizeofExtent * ps.length ≤ size) (hlt : lenOf ps ≤ 2 ^ 32) :
    getExtentEnts m off size = .ok ((List.range (lenOf ps)).zip (blocksOf ps)) := by
  unfold getExtentEnts
  rw [h.header.depth, h.header.entries, if_neg (by simp), if_neg (by omega)]
  unfold extentsOf
  rw [h.header.entries, h.extents.assignments_eq (by omega), List.range_eq_range']

end Node

section Agree

variable {g : Geometry} {s s₀ s' : State} {alloc alloc' : BlockAllocation} {len n base : ℕ}
  {ns : List (ℕ × Piece)} {leaf : List ℕ} {m : Mem} {filename : List UInt8}

theorem Cut.blocks_eq (hc : Cut g s alloc n ns leaf) :
    alloc.blocks s = blocksOf (ns.map Prod.snd) := by
  unfold BlockAllocation.blocks
  rw [hc.first]
  exact hc.listed.regionBlocks_eq hc.length_le

/-- A block size of the claimed range, and what follows for the products that are
kept in 32 bits. -/
theorem Cut.bytes_lt (hg : g.Roomy) (hbs : g.info.blockSize ≤ 4096) (hc : Cut g s alloc n ns leaf) :
    ∀ q ∈ ns, q.2.len < 2 ^ 16 ∧ q.2.len * g.info.blockSize < 2 ^ 32 := by
  intro q hq
  have hle := (hc.small q hq).2.1
  have hbpg := hg.blocksPerGroup_le
  have hlen : q.2.len ≤ 32768 := by omega
  have hmul : q.2.len * g.info.blockSize ≤ 32768 * 4096 := Nat.mul_le_mul hlen hbs
  omega

/-- What `writeExtents` stores fits the fields of an extent. -/
theorem Cut.fields_lt (hg : g.Roomy) (hbs : g.info.blockSize ≤ 4096)
    (hc : Cut g s alloc n ns leaf) :
    ∀ q ∈ ns, q.2.len < 2 ^ 16 ∧ q.2.block < 2 ^ 32 := by
  intro q hq
  have hend := (hc.small q hq).2.2
  have hpos := (hc.small q hq).1
  have hlen := hg.lenBlocks_lt
  exact ⟨(hc.bytes_lt hg hbs q hq).1, by omega⟩

/-- Extents in memory, on the disk or in the inode, give agreement. -/
theorem Cut.agree (hg : g.Roomy) (hbs : g.info.blockSize ≤ 4096) (hpos : 0 < g.info.blockSize)
    (hc : Cut g s' alloc (len ⌈/⌉ g.info.blockSize) ns leaf)
    (hread : getBlockListExtents (readQueued s' (newChunks s s')) g.info.blockSize 1 m base =
      .ok ((List.range (len ⌈/⌉ g.info.blockSize)).zip (blocksOf (ns.map Prod.snd))))
    {node : Mem} {off : ℕ}
    (hnode : extentNode (readQueued s' (newChunks s s')) m base = .ok (node, off))
    (hat : NodeAt node off (ns.map Prod.snd)) :
    ExtentsAgree g len filename s alloc m base s' := by
  have hlen := hc.lenOf_eq
  have hblocks := hc.blocks_eq
  have hlength : (blocksOf (ns.map Prod.snd)).length = len ⌈/⌉ g.info.blockSize := by
    rw [length_blocksOf, hlen]
  obtain ⟨hlens, hstarts⟩ := hat.extentsOf_eq
  exact {
    assigned := by
      refine ⟨_, hread, ?_, ?_⟩
      · exact List.map_fst_zip (by simp [hlength])
      · rw [hblocks]
        exact List.map_snd_zip (by simp [hlength])
    nodup := by
      rw [hblocks]
      show (_ ++ regionBlocks _ _ _).Nodup
      rw [hc.oob]
      exact hc.nodup
    used := by
      intro b hb
      rw [hblocks] at hb
      have hb : b ∈ _ ++ regionBlocks s'.regions s'.regions.brk alloc.oobList.first := hb
      rw [hc.oob] at hb
      exact used_of_mem_taken hc.inv (hc.taken b hb)
    extents := by
      refine ⟨node, off, hnode, ?_, ?_, ?_⟩
      · unfold blockAllocationNumRegions
        rw [hc.first, numRegionsLoop_eq hc.listed hc.length_le, hat.length_extentsOf,
          List.length_map, Nat.zero_add]
      · intro i e he
        rw [hstarts i e he, List.map_take, hlens]
        simp [lenOf, List.map_take]
      · rw [hlens]
        exact hlen
    file := by
      have hfits : len ≤ lenOf (ns.map Prod.snd) * g.info.blockSize := by
        rw [hlen]
        have := le_smul_ceilDiv hpos (b := len)
        rwa [smul_eq_mul, Nat.mul_comm] at this
      have hrun : extentCreateBackingFile g alloc len filename s' = _ :=
        backingFileLoop_eq hc.listed hc.iter hc.partialIter
          (fun q hq => ⟨((hc.bytes_lt hg hbs q hq).1).trans (by decide),
            (hc.bytes_lt hg hbs q hq).2⟩) hfits
          (hc.length_le.trans (Nat.le_succ _))
      refine ⟨_, hrun, ?_⟩
      intro x hx
      obtain ⟨hcov, hput⟩ := fileChunks_covers filename hpos 0 len x hfits hx
      rw [Nat.zero_add] at hcov hput
      simp only [newChunks, List.drop_left]
      refine ⟨hcov, ?_⟩
      intro c hc hcov'
      have hidx : x / g.info.blockSize < (blocksOf (ns.map Prod.snd)).length := by
        rw [length_blocksOf, Nat.div_lt_iff_lt_mul hpos]
        omega
      refine ⟨_, ?_, hput c hc hcov' _ (List.getElem?_eq_getElem hidx)⟩
      rw [hblocks]
      exact List.getElem?_eq_getElem hidx }

theorem Cut.agree_inline (hg : g.Roomy) (hbs : g.info.blockSize ≤ 4096)
    (hpos : 0 < g.info.blockSize) (hc : Cut g s' alloc (len ⌈/⌉ g.info.blockSize) ns leaf)
    (hlt : len ⌈/⌉ g.info.blockSize < 2 ^ 32) {m' : Mem} {blockLen : ℕ}
    (hrun : writeInline ns.length alloc m base s' = .ok (alloc', m')) :
    ExtentsAgree g len filename s (rewindAlloc alloc')
      (finishInode g.info.blockSize m' base len blockLen) base s' := by
  have hlen := hc.lenOf_eq
  unfold writeInline at hrun
  obtain ⟨hfirst, hoob⟩ := writeExtents_first _ hrun
  obtain ⟨hext, hframe, hlimit⟩ := writeExtents_cases hc.listed hc.iter hc.partialIter
    (hc.fields_lt hg hbs) (by omega) hrun
  have hfew : ns.length ≤ 4 := by
    by_cases hnil : ns = []
    · simp [hnil]
    · have := hlimit hnil
      unfold sizeofExtent at this
      omega
  have hsame := finishInode_sameOn g.info.blockSize m' base len blockLen
  have hat : NodeAt (finishInode g.info.blockSize m' base len blockLen)
      (base + Inode.iBlockOffset) (ns.map Prod.snd) := by
    refine ⟨?_, ?_⟩
    · rw [List.length_map]
      have hheader := headerAt_writeHeader m (base + Inode.iBlockOffset) ns.length 3 0 (by omega)
        (by decide)
      refine (hheader.congr fun x _ h₂ => (hframe x (Or.inl h₂)).symm).congr
        (hsame.mono le_rfl ?_)
      unfold sizeofExtent
      omega
    · refine hext.congr (hsame.mono (Nat.le_add_right _ _) ?_)
      rw [List.length_map]
      unfold sizeofExtent
      omega
  refine (hc.rewind hfirst hoob).agree hg hbs hpos ?_ ?_ hat
  · unfold getBlockListExtents
    simp only
    rw [hat.header.magic, if_neg (by simp), hat.header.depth, if_pos rfl, ← hlen]
    refine hat.getExtentEnts_eq ?_ (by omega)
    rw [List.length_map]
    unfold sizeofExtent sizeofInode Inode.iBlockOffset
    omega
  · unfold extentNode
    simp only
    rw [hat.header.depth, if_pos rfl]

/-- The index in the inode, when the extents are in a leaf. -/
theorem writeIndex_spec (blockSize : ℕ) (m : Mem) (base len blockLen : ℕ) {extentBlock : ℕ}
    (hlt : extentBlock < 2 ^ 32) :
    let m' := finishInode blockSize (writeIndex m base extentBlock) base len blockLen
    let hdr := base + Inode.iBlockOffset
    HeaderAt m' hdr 1 1 ∧
      (ExtentIdx.eiLeafHi.at_ (hdr + sizeofExtent)).get m' * 2 ^ 32 +
        (ExtentIdx.eiLeafLo.at_ (hdr + sizeofExtent)).get m' = extentBlock := by
  intro m' hdr
  have hsame : (writeIndex m base extentBlock).SameOn m' hdr (hdr + 60) :=
    finishInode_sameOn blockSize _ base len blockLen
  have hdisjoint : ([
      (ExtentIdx.eiBlock.at_ (hdr + sizeofExtent), 0),
      (ExtentIdx.eiLeafLo.at_ (hdr + sizeofExtent), extentBlock),
      (ExtentIdx.eiLeafHi.at_ (hdr + sizeofExtent), 0),
      (ExtentIdx.eiUnused.at_ (hdr + sizeofExtent), 0)].map Prod.fst).Pairwise
        Field.Disjoint := by
    simp [Field.Disjoint, Field.at_, ExtentIdx.eiBlock, ExtentIdx.eiLeafLo, ExtentIdx.eiLeafHi,
      ExtentIdx.eiUnused]
  have hlo : (ExtentIdx.eiLeafLo.at_ (hdr + sizeofExtent)).get (writeIndex m base extentBlock) =
      extentBlock := (Field.get_assign hdisjoint 1 rfl _).trans (Nat.mod_eq_of_lt hlt)
  have hhi : (ExtentIdx.eiLeafHi.at_ (hdr + sizeofExtent)).get (writeIndex m base extentBlock) =
      0 := Field.get_assign hdisjoint 2 rfl _
  refine ⟨?_, ?_⟩
  · have hheader := headerAt_writeHeader m hdr 1 3 1 (by decide) (by decide)
    have hwritten : HeaderAt (writeIndex m base extentBlock) hdr 1 1 := by
      refine hheader.congr fun x h₁ h₂ => ?_
      refine (Mem.assign_apply_of_not_mem ?_ _).symm
      simp only [List.forall_mem_cons, List.not_mem_nil, false_implies, implies_true, and_true,
        Field.at_, ExtentIdx.eiBlock, ExtentIdx.eiLeafLo, ExtentIdx.eiLeafHi, ExtentIdx.eiUnused]
      unfold sizeofExtent at *
      omega
    refine hwritten.congr (hsame.mono le_rfl ?_)
    unfold sizeofExtent
    omega
  · rw [← Field.get_congr hsame, ← Field.get_congr hsame, hlo, hhi]
    · simp
    all_goals
      simp only [Field.at_, ExtentIdx.eiLeafLo, ExtentIdx.eiLeafHi, sizeofExtent]
      omega

/-- The state with a leaf that has been queued and filled. -/
def leafState (s : State) (blockSize extentBlock : ℕ) (data : Mem) : State :=
  ((s.calloc blockSize).2.addChunk (.buffer (s.calloc blockSize).1 0) blockSize
    extentBlock).setBuffer (s.calloc blockSize).1 data

theorem Cut.agree_leaf (hg : g.Roomy) (hbs : g.info.blockSize ≤ 4096)
    (hpos : 0 < g.info.blockSize) (hc : Cut g s₀ alloc (len ⌈/⌉ g.info.blockSize) ns leaf)
    (hlt : len ⌈/⌉ g.info.blockSize < 2 ^ 32) (hnil : ns ≠ []) (hout : s₀.out = s.out)
    {extentBlock blockLen : ℕ} (heb : extentBlock < 2 ^ 32)
    (hrun : writeLeaf g.info.blockSize ns.length extentBlock alloc s₀ = .ok (alloc', s')) :
    ExtentsAgree g len filename s (rewindAlloc alloc')
      (finishInode g.info.blockSize (writeIndex m base extentBlock) base len blockLen) base s' := by
  have hlen := hc.lenOf_eq
  unfold writeLeaf at hrun
  simp only at hrun
  split at hrun
  · cases hrun
  · rw [bind_eq_ok] at hrun
    obtain ⟨⟨alloc₁, data⟩, hwrite, hrun⟩ := hrun
    simp only [Except.ok.injEq, Prod.mk.injEq] at hrun
    obtain ⟨rfl, hs'⟩ := hrun
    replace hs' : leafState s₀ g.info.blockSize extentBlock data = s' := hs'
    subst hs'
    obtain ⟨hfirst, hoob⟩ := writeExtents_first _ hwrite
    obtain ⟨hext, hframe, hlimit⟩ := writeExtents_cases hc.listed hc.iter hc.partialIter
      (hc.fields_lt hg hbs) (by omega) hwrite
    have hroom := hlimit hnil
    have hat : NodeAt data 0 (ns.map Prod.snd) := by
      refine ⟨?_, by simpa using hext⟩
      rw [List.length_map]
      refine (headerAt_writeHeader Mem.zero 0 ns.length _ 0 ?_ (by decide)).congr
        fun x _ h₂ => (hframe x (Or.inl (by simpa using h₂))).symm
      unfold sizeofExtent at hroom
      omega
    obtain ⟨hheader, hindex⟩ := writeIndex_spec g.info.blockSize m base len blockLen heb
    -- the leaf is the only chunk that has been queued
    have hnew : newChunks s (leafState s₀ g.info.blockSize extentBlock data) =
        [⟨.buffer s₀.out.brk 0, g.info.blockSize, extentBlock⟩] := by
      simp [newChunks, leafState, State.setBuffer, State.addChunk, State.calloc, ← hout]
    have hread : readQueued (leafState s₀ g.info.blockSize extentBlock data)
        (newChunks s (leafState s₀ g.info.blockSize extentBlock data)) extentBlock = .ok data := by
      rw [hnew]
      simp [readQueued, leafState, State.setBuffer, State.calloc]
    have hc' : Cut g (leafState s₀ g.info.blockSize extentBlock data) alloc
        (len ⌈/⌉ g.info.blockSize) ns leaf := hc.output rfl rfl
    refine (hc'.rewind hfirst hoob).agree hg hbs hpos ?_ ?_ hat
    · have hents : getExtentEnts data 0 g.info.blockSize = _ :=
        hat.getExtentEnts_eq (by rw [List.length_map]; omega) (by omega)
      unfold getBlockListExtents
      simp only
      rw [hheader.magic, if_neg (by simp), hheader.depth, if_neg (by simp)]
      unfold getExtentIdx
      have hinside : ¬ base + sizeofInode <
          base + Inode.iBlockOffset + sizeofExtent + sizeofExtent := by
        unfold sizeofExtent sizeofInode Inode.iBlockOffset
        omega
      rw [hheader.depth, if_neg (by simp), hheader.entries]
      rw [← hlen, ← List.append_nil (List.zip _ _)]
      simp only [List.range_one, List.mapM_cons, List.mapM_nil, if_neg hinside, hindex,
        hread, bind_ok, hat.header.depth, if_true, hents]
      rfl
    · unfold extentNode
      simp only
      rw [hheader.depth, if_neg (by simp), hindex, hread]
      rfl

/-- The list that is returned is the one that was cut. -/
theorem Cut.of_inline (hc : Cut g s' alloc n ns leaf) {m' : Mem} {allocationLen : ℕ}
    (hrun : writeInline allocationLen alloc m base s' = .ok (alloc', m')) :
    Cut g s' (rewindAlloc alloc') n ns leaf := by
  obtain ⟨hfirst, hoob⟩ := writeExtents_first _ hrun
  exact hc.rewind hfirst hoob

theorem Cut.of_leaf (hc : Cut g s₀ alloc n ns leaf) {blockSize allocationLen extentBlock : ℕ}
    (hrun : writeLeaf blockSize allocationLen extentBlock alloc s₀ = .ok (alloc', s')) :
    Cut g s' (rewindAlloc alloc') n ns leaf := by
  unfold writeLeaf at hrun
  simp only at hrun
  split at hrun
  · cases hrun
  · rw [bind_eq_ok] at hrun
    obtain ⟨⟨alloc₁, data⟩, hwrite, hrun⟩ := hrun
    cases hrun
    obtain ⟨hfirst, hoob⟩ := writeExtents_first _ hwrite
    have hc' : Cut g (leafState s₀ blockSize extentBlock data) alloc n ns leaf := hc.output rfl rfl
    exact hc'.rewind hfirst hoob

end Agree

/-! ## Whole calls -/

/-- An allocator state of a run, whatever else has been allocated: the groups are
those of the run. -/
def Reachable (g : Geometry) (s : State) : Prop :=
  ∃ calls r, (∀ c ∈ calls, Call.Valid c) ∧ allocatorRun g calls = .ok r ∧ s.bgs = r.st.bgs

/-- The number of blocks the writer allots to a file of `len` bytes: a `u32`. -/
def writtenBlocks (g : Geometry) (len : ℕ) : ℕ := u32 (divRoundUp64 len g.info.blockSize)

section Calls

variable {g : Geometry} {s s' : State} {alloc : BlockAllocation} {len base : ℕ} {m m' : Mem}

/-- A request for no block at all yields an empty region, if anything. -/
theorem contiguousLoop_zero {a : ℕ} (left : ℕ) : ∀ (i : ℕ) (s : State),
    contiguousLoop g 0 left i s = .ok (some a, s') →
      a < s'.regions.brk ∧ ∃ block bg, Linked s'.regions none [(a, ⟨block, 0, bg⟩)] := by
  induction left with
  | zero =>
      intro i s hrun
      cases hrun
  | succ left ih =>
      intro i s hrun
      rw [contiguousLoop, bind_eq_ok] at hrun
      obtain ⟨⟨block, s₁⟩, -, hrun⟩ := hrun
      by_cases hblock : block = EXT4_ALLOCATE_FAILED
      · simp only [hblock, ne_eq, not_true_eq_false, if_false] at hrun
        exact ih (i + 1) s₁ hrun
      · simp only [ne_eq, hblock, not_false_eq_true, if_true, Except.ok.injEq,
          Prod.mk.injEq, Option.some.injEq] at hrun
        obtain ⟨rfl, rfl⟩ := hrun
        refine ⟨Nat.lt_succ_self _, block, i, ?_, trivial⟩
        exact RegionHeap.malloc_node_self _ _

theorem allocateBlocks_zero (hrun : allocateBlocks g 0 s = .ok (some alloc, s')) :
    ∃ a block bg, alloc = freshAllocation a ∧ a < s'.regions.brk ∧
      Linked s'.regions none [(a, ⟨block, 0, bg⟩)] := by
  obtain ⟨reg, hdo, halloc⟩ := allocateBlocks_eq_ok.mp hrun
  obtain ⟨a, hcall, rfl⟩ | ⟨s₁, -, hmore⟩ := doAllocate_eq_ok.mp hdo
  · cases halloc
    obtain ⟨ha, block, bg, hlink⟩ := contiguousLoop_zero g.aux.groups 0 s hcall
    exact ⟨_, block, bg, rfl, ha, hlink⟩
  · -- nothing is spread over the groups
    obtain rfl : none = reg := (Prod.mk.inj (Except.ok.inj hmore)).1
    cases halloc

/-- A file of `2 ^ 32 - 1` blocks makes the request wrap to zero, and the empty
allocation cannot be cut. -/
theorem writtenBlocks_succ_lt
    (hrun : doInodeAllocateExtents g m base len s = .ok (alloc, m', s')) :
    writtenBlocks g len + 1 < 2 ^ 32 := by
  by_contra hnot
  have hlt : writtenBlocks g len < 2 ^ 32 := u32_lt _
  have hzero : u32 (writtenBlocks g len + 1) = 0 := by
    have : writtenBlocks g len + 1 = 2 ^ 32 := by omega
    rw [this]
    rfl
  rw [doInodeAllocateExtents] at hrun
  simp only [← writtenBlocks.eq_def, hzero, bind_eq_ok] at hrun
  obtain ⟨⟨r, s₁⟩, hcall, hrun⟩ := hrun
  cases r with
  | none => cases hrun
  | some alloc₁ =>
      obtain ⟨a, block, bg, rfl, ha, hlink⟩ := allocateBlocks_zero hcall
      simp only [bind_eq_ok] at hrun
      obtain ⟨count, hcount, ⟨eb, alloc₂, s₂⟩, hcut, -⟩ := hrun
      have hone : count = 1 := by
        have hnum := numRegionsLoop_eq (h := s₁.regions) (i := 0) hlink.listed
          (show ([(a, ⟨block, 0, bg⟩)] : List (ℕ × Piece)).length ≤ s₁.regions.brk by
            simp only [List.length_singleton]
            omega)
        have hcount : numRegionsLoop s₁.regions s₁.regions.brk (some a) 0 = .ok count := hcount
        have hnum : numRegionsLoop s₁.regions s₁.regions.brk (some a) 0 = .ok (0 + 1) := hnum
        rw [hnum] at hcount
        simpa using hcount.symm
      subst hone
      rw [cutAllocation, if_pos (by omega), bind_eq_ok] at hcut
      obtain ⟨⟨alloc₃, s₃⟩, hreduce, -⟩ := hcut
      obtain ⟨-, -, ⟨hmore, -⟩ | ⟨hone, -⟩⟩ := reduceAllocation_cases
        (show (freshAllocation a).list.last = some a from rfl) hlink.1
          (fun h => absurd h (lt_irrefl 0)) hreduce
      · simp at hmore
      · simp at hone

/-- The request for the first of two blocks or more, from a state of a run. -/
theorem fresh_of_allocateBlocks (hg : g.Roomy) (hsmall : g.Small) (hinv : GroupsInv g s.bgs)
    (hcount : Counted g s.bgs) (hlen : 2 ≤ len)
    (hrun : allocateBlocks g len s = .ok (some alloc, s')) :
    s'.out = s.out ∧ ∃ a p rest, alloc = freshAllocation a ∧
      Fresh g s.regions s.bgs s' len a p rest := by
  obtain ⟨hout, ns, hext, ⟨a, p, rest, rfl, halloc, hmany⟩ | ⟨hnone, -⟩⟩ :=
    allocateBlocks_cases hg.fits hinv (by omega) hrun
  · cases halloc
    have hmany : TakesMany g len s.bgs (p :: rest.map Prod.snd) s'.bgs := hmany
    exact ⟨hout, a, p, rest, rfl,
      { extends_ := hext
        takes := hmany
        inv := hinv
        two_le_head := hmany.two_le_head hg hinv hcount hlen
        len_pos := fun n hn => hmany.len_pos hg hsmall hinv hcount n.2
          (List.mem_cons_of_mem _ (List.mem_map_of_mem hn))
        counted := hcount }⟩
  · cases hnone

/-- Either way of cutting leaves as many regions as there were. -/
theorem Cuttable.cutAllocation_cases {h : RegionHeap} {bgs : Groups} {a n extentBlock : ℕ}
    {p : Piece} {rest : List (ℕ × Piece)} (hg : g.Fits) (hf : Cuttable g h bgs s n a p rest)
    (hcut : cutAllocation g (rest.length + 1) (freshAllocation a) s =
      .ok (extentBlock, alloc, s')) :
    extentBlock < 2 ^ 32 ∧ s'.out = s.out ∧ ∃ ns leaf, Cut g s' alloc (n - 1) ns leaf ∧
      ns.length = rest.length + 1 := by
  unfold cutAllocation at hcut
  split at hcut
  · rw [bind_eq_ok] at hcut
    obtain ⟨⟨alloc₁, s₁⟩, hreduce, hcut⟩ := hcut
    cases hcut
    obtain ⟨hc, hout⟩ := hf.cut_reduce hg hreduce
    exact ⟨by decide, hout, _, _, hc, rfl⟩
  · obtain ⟨alloc₁, hreserve, hblock, hc⟩ := hf.cut_oob hg
    rw [hreserve, bind_ok] at hcut
    simp only [hblock, bind_ok] at hcut
    cases hcut
    have hpiece := hf.small hg (a, p) List.mem_cons_self
    have hlt := hg.lenBlocks_lt
    simp only at hpiece
    exact ⟨by omega, rfl, _, _, hc, rfl⟩

/-- What a call goes through between the allocation and the assignments to the
inode. -/
theorem doInodeAllocateExtents_cases (hg : g.Roomy) (hsmall : g.Small) (hinv : GroupsInv g s.bgs)
    (hcount : Counted g s.bgs) (hpos : 1 ≤ writtenBlocks g len)
    (hrun : doInodeAllocateExtents g m base len s = .ok (alloc, m', s')) :
    ∃ alloc₁ alloc₂ s₁ ns leaf, Cut g s₁ alloc₁ (writtenBlocks g len) ns leaf ∧ ns ≠ [] ∧
      s₁.out = s.out ∧ alloc = rewindAlloc alloc₂ ∧
      ((∃ m₁ bl, writeInline ns.length alloc₁ m base s₁ = .ok (alloc₂, m₁) ∧ s' = s₁ ∧
          m' = finishInode g.info.blockSize m₁ base len bl) ∨
        ∃ extentBlock bl, extentBlock < 2 ^ 32 ∧
          writeLeaf g.info.blockSize ns.length extentBlock alloc₁ s₁ = .ok (alloc₂, s') ∧
          m' = finishInode g.info.blockSize (writeIndex m base extentBlock) base len bl) := by
  have hlt := writtenBlocks_succ_lt hrun
  rw [doInodeAllocateExtents] at hrun
  simp only [← writtenBlocks.eq_def, u32_of_lt hlt, bind_eq_ok] at hrun
  obtain ⟨⟨r, s₁⟩, hcall, hrun⟩ := hrun
  cases r with
  | none => cases hrun
  | some alloc₁ =>
      obtain ⟨hout, a, p, rest, rfl, hf⟩ :=
        fresh_of_allocateBlocks hg hsmall hinv hcount (by omega) hcall
      simp only [bind_eq_ok] at hrun
      obtain ⟨count, hnum, ⟨extentBlock, alloc₂, s₂⟩, hcut, hrun⟩ := hrun
      have hcount' : count = rest.length + 1 := by
        have hnum : numRegionsLoop s₁.regions s₁.regions.brk (headAddr ((a, p) :: rest)) 0 =
          .ok count := hnum
        rw [numRegionsLoop_eq hf.extends_.linked.listed hf.extends_.length_le] at hnum
        simpa using hnum.symm
      subst hcount'
      obtain ⟨heb, hout', ns, leaf, hc, hlength⟩ := hf.cutAllocation_cases hg.fits hcut
      rw [Nat.add_sub_cancel] at hc
      rw [← hlength] at hrun
      have hnil : ns ≠ [] := by
        rintro rfl
        simp at hlength
      split at hrun
      · rw [bind_eq_ok] at hrun
        obtain ⟨⟨alloc₃, m₁⟩, hwrite, hrun⟩ := hrun
        cases hrun
        exact ⟨_, alloc₃, _, ns, leaf, hc, hnil, hout'.trans hout, rfl,
          Or.inl ⟨m₁, _, hwrite, rfl, rfl⟩⟩
      · rw [bind_eq_ok] at hrun
        obtain ⟨⟨alloc₃, s₃⟩, hwrite, hrun⟩ := hrun
        cases hrun
        exact ⟨_, alloc₃, _, ns, leaf, hc, hnil, hout'.trans hout, rfl,
          Or.inr ⟨extentBlock, _, heb, hwrite, rfl⟩⟩

/-- When the count of blocks wraps to zero, the one block that is allocated is
given back with its region. -/
theorem blocks_eq_nil_of_run (hg : g.Roomy) (hsmall : g.Small) (hinv : GroupsInv g s.bgs)
    (hcount : Counted g s.bgs) (hzero : writtenBlocks g len = 0)
    (hrun : doInodeAllocateExtents g m base len s = .ok (alloc, m', s')) :
    alloc.blocks s' = [] := by
  have hempty : ∀ fuel, regionBlocks s'.regions fuel none = [] := by
    intro fuel
    cases fuel <;> rfl
  rw [doInodeAllocateExtents] at hrun
  simp only [← writtenBlocks.eq_def, hzero, bind_eq_ok] at hrun
  obtain ⟨⟨r, s₁⟩, hcall, hrun⟩ := hrun
  cases r with
  | none => cases hrun
  | some alloc₁ =>
      obtain ⟨-, ns, hext, ⟨a, p, rest, rfl, halloc, hmany⟩ | ⟨hnone, -⟩⟩ :=
        allocateBlocks_cases hg.fits hinv Nat.one_pos hcall
      · cases halloc
        replace hmany : TakesMany g 1 s.bgs (p :: rest.map Prod.snd) s₁.bgs := hmany
        have hpiece := hmany.len_pos hg hsmall hinv hcount p List.mem_cons_self
        obtain ⟨rfl, hone, hheader, hlt⟩ : rest = [] ∧ p.len = 1 ∧
            g.headerBlocks p.bg < (s₁.bgs p.bg).firstFreeBlock ∧ p.bg < g.aux.groups := by
          have hcursor := hmany.cursor_of_head hpiece
          cases hmany with
          | cons _ head share tail =>
              have hone : p.len = 1 := by
                rcases share with hall | ⟨hless, -⟩ <;> omega
              have htail := tail
              rw [show 1 - p.len = 0 by omega] at htail
              have hblock := head.block_eq hpiece
              have hheader := (hinv p.bg head.bg_lt).header_le
              exact ⟨List.map_eq_nil_iff.mp htail.eq_nil.1, hone, by omega, head.bg_lt⟩
        simp only [bind_eq_ok] at hrun
        obtain ⟨count, hnum, ⟨extentBlock, alloc₂, s₂⟩, hcut, hrun⟩ := hrun
        have hnum : numRegionsLoop s₁.regions s₁.regions.brk (headAddr [(a, p)]) 0 = .ok count :=
          hnum
        rw [numRegionsLoop_eq hext.linked.listed hext.length_le, Except.ok.injEq] at hnum
        subst hnum
        rw [cutAllocation, if_pos (by simp), bind_eq_ok] at hcut
        obtain ⟨⟨alloc₃, s₃⟩, hreduce, hcut⟩ := hcut
        cases hcut
        have hgroup := hmany.takesAll.inv hinv p.bg hlt
        obtain ⟨-, -, ⟨hmore, -⟩ | ⟨-, rfl, -⟩⟩ := reduceAllocation_cases
          (show (freshAllocation a).list.last = some a from rfl) hext.linked.1
          (fun _ => hgroup.freeBlocks_one hg.fits (by omega)) hreduce
        · omega
        · rw [if_pos rfl, bind_eq_ok] at hrun
          obtain ⟨⟨alloc₄, m₁⟩, hwrite, hrun⟩ := hrun
          cases hrun
          obtain ⟨hfirst, -⟩ := writeExtents_first _ hwrite
          show regionBlocks _ _ alloc₄.list.first = []
          rw [hfirst]
          exact hempty _
      · cases hnone

/-- A call that returns has allotted as many blocks as the writer counts. -/
theorem length_blocks_of_run (hg : g.Roomy) (hsmall : g.Small) (hinv : GroupsInv g s.bgs)
    (hcount : Counted g s.bgs)
    (hrun : doInodeAllocateExtents g m base len s = .ok (alloc, m', s')) :
    (alloc.blocks s').length = writtenBlocks g len := by
  rcases Nat.eq_zero_or_pos (writtenBlocks g len) with hzero | hpos
  · rw [hzero, blocks_eq_nil_of_run hg hsmall hinv hcount hzero hrun]
    rfl
  · obtain ⟨alloc₁, alloc₂, s₁, ns, leaf, hc, -, -, rfl, hcases⟩ :=
      doInodeAllocateExtents_cases hg hsmall hinv hcount hpos hrun
    have hfinal : Cut g s' (rewindAlloc alloc₂) (writtenBlocks g len) ns leaf := by
      rcases hcases with ⟨m₁, bl, hwrite, rfl, -⟩ | ⟨extentBlock, bl, -, hwrite, -⟩
      · exact hc.of_inline hwrite
      · exact hc.of_leaf hwrite
    rw [hfinal.blocks_eq, length_blocksOf, hfinal.lenOf_eq]

/-- The writer counts right exactly when the count fits its type. -/
theorem writtenBlocks_eq_iff (hpos : 0 < g.info.blockSize) :
    writtenBlocks g len = len ⌈/⌉ g.info.blockSize ↔ len ⌈/⌉ g.info.blockSize < 2 ^ 32 := by
  constructor
  · intro h
    rw [← h]
    exact u32_lt _
  · intro h
    have hcover := le_smul_ceilDiv hpos (b := len)
    rw [smul_eq_mul] at hcover
    have hbs := g.info.blockSize_lt
    have hwrap : len + g.info.blockSize - 1 < 2 ^ 64 := by
      have hbound : g.info.blockSize * (len ⌈/⌉ g.info.blockSize) ≤
          g.info.blockSize * (2 ^ 32 - 1) := Nat.mul_le_mul_left _ (by omega)
      have hsplit : g.info.blockSize * (2 ^ 32 - 1) + g.info.blockSize =
          g.info.blockSize * 2 ^ 32 := by ring
      omega
    unfold writtenBlocks
    rw [divRoundUp64_eq hwrap, u32_of_lt h]

theorem Reachable.groups (hg : g.Roomy) (hsmall : g.Small) (h : Reachable g s) :
    GroupsInv g s.bgs ∧ Counted g s.bgs := by
  obtain ⟨calls, r, hvalid, hcalls, hbgs⟩ := h
  have hinv := runInv_of_run hg hvalid hcalls
  rw [hbgs]
  exact ⟨hinv.groups, hinv.counted hsmall⟩

/-- Agreement needs a block for every index. -/
theorem ExtentsAgree.writtenBlocks_eq (hg : g.Roomy) (hsmall : g.Small) (hreach : Reachable g s)
    (hrun : doInodeAllocateExtents g m base len s = .ok (alloc, m', s')) {filename : List UInt8}
    (h : ExtentsAgree g len filename s alloc m' base s') :
    writtenBlocks g len = len ⌈/⌉ g.info.blockSize := by
  obtain ⟨hinv, hcount⟩ := hreach.groups hg hsmall
  obtain ⟨l, -, hfst, hsnd⟩ := h.assigned
  calc writtenBlocks g len = (alloc.blocks s').length :=
        (length_blocks_of_run hg hsmall hinv hcount hrun).symm
    _ = (l.map Prod.fst).length := by rw [← hsnd, List.length_map, List.length_map]
    _ = len ⌈/⌉ g.info.blockSize := by rw [hfst, List.length_range]

/-- A file with at least one byte has at least one block. -/
theorem one_le_ceilDiv {b : ℕ} (hpos : 0 < b) (hlen : 1 ≤ len) : 1 ≤ len ⌈/⌉ b := by
  have hcover := le_smul_ceilDiv hpos (b := len)
  rw [smul_eq_mul] at hcover
  by_contra hzero
  rw [show len ⌈/⌉ b = 0 by omega] at hcover
  omega

/-- `do_inode_allocate_extents` and `get_block_list_extents` agree on a file
exactly when the number of its blocks fits a `u32`. -/
theorem extentsAgree_iff (hg : g.Roomy)
    (hbs : g.info.blockSize = 1024 ∨ g.info.blockSize = 2048 ∨ g.info.blockSize = 4096)
    (hreach : Reachable g s) (hlen : 1 ≤ len)
    (hrun : doInodeAllocateExtents g m base len s = .ok (alloc, m', s')) (filename : List UInt8) :
    ExtentsAgree g len filename s alloc m' base s' ↔ len ⌈/⌉ g.info.blockSize < 2 ^ 32 := by
  have hsmall : g.Small := by
    have := hg.blocksPerGroup_le
    unfold Geometry.Small
    omega
  have hpos : 0 < g.info.blockSize := by omega
  obtain ⟨hinv, hcount⟩ := hreach.groups hg hsmall
  rw [← writtenBlocks_eq_iff hpos]
  constructor
  · intro hagree
    exact hagree.writtenBlocks_eq hg hsmall hreach hrun
  · intro hfits
    have hlt := (writtenBlocks_eq_iff hpos).mp hfits
    obtain ⟨alloc₁, alloc₂, s₁, ns, leaf, hc, hnil, hout, rfl, hcases⟩ :=
      doInodeAllocateExtents_cases hg hsmall hinv hcount (hfits ▸ one_le_ceilDiv hpos hlen) hrun
    rw [hfits] at hc
    rcases hcases with ⟨m₁, bl, hwrite, rfl, rfl⟩ | ⟨extentBlock, bl, heb, hwrite, rfl⟩
    · exact hc.agree_inline hg (by omega) hpos hlt hwrite
    · exact hc.agree_leaf hg (by omega) hpos hlt hnil hout heb hwrite

end Calls

/-- A call on the freshly initialized tiny device. -/
def tinyCall (len : ℕ) : Except Stop (BlockAllocation × Mem × State) := do
  let r ← allocatorRun tiny []
  doInodeAllocateExtents tiny Mem.zero 0 len r.st

theorem exists_of_tinyCall (len : ℕ) (h : (tinyCall len).isOk = true) :
    ∃ s alloc m s', Reachable tiny s ∧
      doInodeAllocateExtents tiny Mem.zero 0 len s = .ok (alloc, m, s') := by
  cases hcall : tinyCall len with
  | error e => simp [hcall, Except.isOk, Except.toBool] at h
  | ok x =>
      rw [tinyCall, bind_eq_ok] at hcall
      obtain ⟨r, hrun, hcall⟩ := hcall
      exact ⟨r.st, x.1, x.2.1, x.2.2, ⟨[], r, by simp, hrun, rfl⟩, hcall⟩

/-- A file of 45 blocks takes all five groups of the tiny device and a leaf. -/
theorem extentsAgree_iff_tiny : ∃ s alloc m s', Reachable tiny s ∧
    doInodeAllocateExtents tiny Mem.zero 0 (44 * 1024 + 1) s = .ok (alloc, m, s') ∧
    ExtentsAgree tiny (44 * 1024 + 1) [] s alloc m 0 s' := by
  obtain ⟨s, alloc, m, s', hreach, hrun⟩ :=
    exists_of_tinyCall (44 * 1024 + 1) (by decide)
  refine ⟨s, alloc, m, s', hreach, hrun, ?_⟩
  exact (extentsAgree_iff roomy_tiny (Or.inl rfl) hreach (by decide) hrun []).mpr (by decide)

/-- A file of `2 ^ 32 + 1` blocks is given a single block. -/
theorem not_extentsAgree_tiny : ∃ s alloc m s', Reachable tiny s ∧
    doInodeAllocateExtents tiny Mem.zero 0 (2 ^ 42 + 1) s = .ok (alloc, m, s') ∧
    ¬ ExtentsAgree tiny (2 ^ 42 + 1) [] s alloc m 0 s' := by
  obtain ⟨s, alloc, m, s', hreach, hrun⟩ :=
    exists_of_tinyCall (2 ^ 42 + 1) (by decide)
  refine ⟨s, alloc, m, s', hreach, hrun, ?_⟩
  intro hagree
  have hcount := hagree.writtenBlocks_eq roomy_tiny
    (show 2 * tiny.info.blocksPerGroup < 2 ^ 32 by decide) hreach hrun
  revert hcount
  decide

end SystemExtras.Ext4
