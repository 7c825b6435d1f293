import SystemExtras.Ext4.FixupImage

/-!
# Extent trees of any depth

An extent tree has a node in the inode and the others in blocks of their own.  A
node of depth 0 holds extents, one of depth `n + 1` holds indices, each of which
names the block of a node of depth `n`.  `HoldsTree` says that a node and the
blocks under it hold a tree with given leaves, from left to right.

`get_extent_idx` makes a round for every index of a node, but its pointer stays
on the first of them.  So it goes down the left side of the tree, again and again,
and all it ever sees is the leftmost leaf (`HoldsTree.getExtentIdx_mem`).  The
reader covers a tree exactly when it has one leaf (`coversTree_iff`).
-/

namespace SystemExtras.Ext4

/-! ## Trees -/

/-- `sizeof(inode->i_block)`. -/
def sizeofIBlock : ℕ := 60

/-- The block that index `i` behind the header at `off` names. -/
def indexLeaf (m : Mem) (off i : ℕ) : ℕ :=
  (ExtentIdx.eiLeafHi.at_ (off + sizeofExtent + sizeofExtent * i)).get m * 2 ^ 32 +
    (ExtentIdx.eiLeafLo.at_ (off + sizeofExtent + sizeofExtent * i)).get m

/-- A header with its entries, inside an object of `size` bytes. -/
structure HoldsNode (depth : ℕ) (m : Mem) (off size : ℕ) : Prop where
  magic : (ExtentHeader.ehMagic.at_ off).get m = EXT4_EXT_MAGIC
  depth : (ExtentHeader.ehDepth.at_ off).get m = depth
  fits : off + sizeofExtent + sizeofExtent * (ExtentHeader.ehEntries.at_ off).get m ≤ size

/-- The node at `off` is the root of a tree of the given depth.  `leaves` are the
extents of its leaves and `nodes` is the number of blocks under it. -/
inductive HoldsTree (read : ℕ → Except Stop Mem) (blockSize : ℕ) :
    ℕ → Mem → ℕ → ℕ → List (List (ℕ × ℕ × ℕ)) → ℕ → Prop where
  | leaf {m : Mem} {off size : ℕ} (node : HoldsNode 0 m off size) :
      HoldsTree read blockSize 0 m off size [extentsOf m off] 0
  | index {depth : ℕ} {m : Mem} {off size : ℕ} {blocks : ℕ → Mem}
      {leaves : ℕ → List (List (ℕ × ℕ × ℕ))} {nodes : ℕ → ℕ}
      (node : HoldsNode (depth + 1) m off size)
      (entries_pos : 0 < (ExtentHeader.ehEntries.at_ off).get m)
      (read_eq : ∀ i < (ExtentHeader.ehEntries.at_ off).get m,
        read (indexLeaf m off i) = .ok (blocks i))
      (child : ∀ i < (ExtentHeader.ehEntries.at_ off).get m,
        HoldsTree read blockSize depth (blocks i) 0 blockSize (leaves i) (nodes i)) :
      HoldsTree read blockSize (depth + 1) m off size
        ((List.range ((ExtentHeader.ehEntries.at_ off).get m)).flatMap leaves)
        (((List.range ((ExtentHeader.ehEntries.at_ off).get m)).map fun i => nodes i + 1).sum)

/-- What `ext4` demands of the extents.  A leaf in a block of its own is not
empty, and the extents follow each other in the order of the file. -/
structure ExtentsOk (depth : ℕ) (leaves : List (List (ℕ × ℕ × ℕ))) : Prop where
  ne_nil : 0 < depth → ∀ leaf ∈ leaves, leaf ≠ []
  len_pos : ∀ e ∈ leaves.flatten, 0 < e.2.1
  end_le : ∀ e ∈ leaves.flatten, e.1 + e.2.1 ≤ 2 ^ 32
  sorted : leaves.flatten.Pairwise fun e e' => e.1 + e.2.1 ≤ e'.1

/-- Every block of every extent is assigned, and nothing else. -/
def CoversTree (leaves : List (List (ℕ × ℕ × ℕ))) (result : Except Stop (List (ℕ × ℕ))) : Prop :=
  ∃ assignments, result = .ok assignments ∧ ∀ i b, (i, b) ∈ assignments ↔
    ∃ leaf ∈ leaves, ∃ e ∈ leaf, ∃ j < e.2.1, i = e.1 + j ∧ b = e.2.2 + j

section Reader

variable {read : ℕ → Except Stop Mem} {blockSize depth off size nodes fuel : ℕ} {m : Mem}
  {leaves : List (List (ℕ × ℕ × ℕ))}

theorem HoldsTree.node (h : HoldsTree read blockSize depth m off size leaves nodes) :
    HoldsNode depth m off size := by
  cases h with
  | leaf node => exact node
  | index node _ _ _ => exact node

theorem HoldsTree.leaves_ne_nil (h : HoldsTree read blockSize depth m off size leaves nodes) :
    leaves ≠ [] := by
  induction h with
  | leaf node => exact List.cons_ne_nil _ _
  | index node entries_pos read_eq child ih =>
      intro hnil
      rw [List.flatMap_eq_nil_iff] at hnil
      exact ih 0 entries_pos (hnil 0 (List.mem_range.mpr entries_pos))

theorem HoldsTree.of_depth_zero (h : HoldsTree read blockSize 0 m off size leaves nodes) :
    leaves = [extentsOf m off] ∧ nodes = 0 := by
  cases h with
  | leaf _ => exact ⟨rfl, rfl⟩

/-- A node may lie in a larger object. -/
theorem HoldsTree.mono {size' : ℕ} (h : HoldsTree read blockSize depth m off size leaves nodes)
    (hle : size ≤ size') : HoldsTree read blockSize depth m off size' leaves nodes := by
  have hnode : HoldsNode depth m off size' := ⟨h.node.magic, h.node.depth, h.node.fits.trans hle⟩
  cases h with
  | leaf _ => exact .leaf hnode
  | index _ entries_pos read_eq child => exact .index hnode entries_pos read_eq child

theorem getExtentEnts_eq (h : HoldsNode 0 m off size) :
    getExtentEnts m off size = .ok ((extentsOf m off).flatMap extentAssignments) := by
  unfold getExtentEnts
  rw [if_neg (not_not.mpr h.depth), if_neg (not_lt.mpr h.fits)]

/-- The rounds of the loop all do the same. -/
theorem mapM_range_const {ε α : Type*} {n : ℕ} {x : Except ε α} {a : α} (h : x = .ok a) :
    ((List.range n).mapM fun _ => x) = .ok (List.replicate n a) := by
  rw [mapM_range_eq_ok]
  refine ⟨List.length_replicate, ?_⟩
  intro i b hi
  have hb := List.mem_of_getElem? hi
  rw [h, List.eq_of_mem_replicate hb]

/-- The assignments of `get_extent_idx` are those of the leftmost leaf. -/
theorem HoldsTree.getExtentIdx_mem (h : HoldsTree read blockSize depth m off size leaves nodes)
    (hpos : 0 < depth) (hfuel : depth ≤ fuel) :
    ∃ assignments, getExtentIdx read blockSize fuel m off size = .ok assignments ∧
      ∀ a, a ∈ assignments ↔ a ∈ (leaves.headD []).flatMap extentAssignments := by
  induction h generalizing fuel with
  | leaf node => exact absurd hpos (lt_irrefl 0)
  | @index depth m off size blocks leaves nodes node entries_pos read_eq child ih =>
      obtain ⟨fuel, rfl⟩ : ∃ k, fuel = k + 1 := ⟨fuel - 1, by omega⟩
      have hchild := child 0 entries_pos
      have hhead : ((List.range ((ExtentHeader.ehEntries.at_ off).get m)).flatMap leaves).headD [] =
          (leaves 0).headD [] := by
        obtain ⟨n, hn⟩ : ∃ n, (ExtentHeader.ehEntries.at_ off).get m = n + 1 :=
          ⟨(ExtentHeader.ehEntries.at_ off).get m - 1, by omega⟩
        obtain ⟨first, rest, hcons⟩ := List.exists_cons_of_ne_nil hchild.leaves_ne_nil
        rw [hn, List.range_succ_eq_map, List.flatMap_cons, hcons]
        rfl
      -- what one round does
      have hround : ∃ assignments, (if (ExtentHeader.ehDepth.at_ 0).get (blocks 0) = 0 then
            getExtentEnts (blocks 0) 0 blockSize
          else getExtentIdx read blockSize fuel (blocks 0) 0 blockSize) = .ok assignments ∧
          ∀ a, a ∈ assignments ↔ a ∈ ((leaves 0).headD []).flatMap extentAssignments := by
        rw [hchild.node.depth]
        rcases Nat.eq_zero_or_pos depth with hzero | hdeep
        · subst hzero
          rw [if_pos rfl]
          rw [hchild.of_depth_zero.1]
          exact ⟨_, getExtentEnts_eq hchild.node, fun a => Iff.rfl⟩
        · rw [if_neg (by omega)]
          exact ih 0 entries_pos hdeep (by omega)
      obtain ⟨assignments, hok, hmem⟩ := hround
      have hfits : ¬ size < off + sizeofExtent + sizeofExtent := by
        have := node.fits
        have := Nat.mul_le_mul_left sizeofExtent entries_pos
        omega
      have hdepth : (ExtentHeader.ehDepth.at_ off).get m ≠ 0 := by
        rw [node.depth]
        exact Nat.succ_ne_zero _
      have hread := read_eq 0 entries_pos
      unfold indexLeaf at hread
      rw [Nat.mul_zero, Nat.add_zero] at hread
      unfold getExtentIdx
      rw [if_neg hdepth]
      simp only [if_neg hfits, hread, bind_ok]
      rw [mapM_range_const hok, bind_ok]
      refine ⟨_, rfl, ?_⟩
      intro a
      rw [hhead, ← hmem a]
      simp only [List.mem_flatten, List.mem_replicate]
      constructor
      · rintro ⟨l, ⟨-, rfl⟩, ha⟩
        exact ha
      · intro ha
        exact ⟨assignments, ⟨by omega, rfl⟩, ha⟩

/-- The assignments of the reader are those of the leftmost leaf. -/
theorem HoldsTree.getBlockListExtents_mem {base : ℕ}
    (h : HoldsTree read blockSize depth m (base + Inode.iBlockOffset)
      (base + Inode.iBlockOffset + sizeofIBlock) leaves nodes) (hfuel : depth ≤ fuel) :
    ∃ assignments, getBlockListExtents read blockSize fuel m base = .ok assignments ∧
      ∀ a, a ∈ assignments ↔ a ∈ (leaves.headD []).flatMap extentAssignments := by
  have hle : base + Inode.iBlockOffset + sizeofIBlock ≤ base + sizeofInode := by
    unfold Inode.iBlockOffset sizeofIBlock sizeofInode
    omega
  have h := h.mono hle
  unfold getBlockListExtents
  simp only
  rw [if_neg (not_not.mpr h.node.magic), h.node.depth]
  rcases Nat.eq_zero_or_pos depth with hzero | hdeep
  · subst hzero
    rw [if_pos rfl, h.of_depth_zero.1]
    exact ⟨_, getExtentEnts_eq h.node, fun a => Iff.rfl⟩
  · rw [if_neg (by omega)]
    exact h.getExtentIdx_mem hdeep hfuel

theorem mem_flatMap_extentAssignments {leaf : List (ℕ × ℕ × ℕ)}
    (hend : ∀ e ∈ leaf, e.1 + e.2.1 ≤ 2 ^ 32) (i b : ℕ) :
    (i, b) ∈ leaf.flatMap extentAssignments ↔
      ∃ e ∈ leaf, ∃ j < e.2.1, i = e.1 + j ∧ b = e.2.2 + j := by
  simp only [List.mem_flatMap, extentAssignments, List.mem_map, List.mem_range, Prod.mk.injEq]
  constructor
  · rintro ⟨e, he, j, hj, hi, hb⟩
    have := hend e he
    rw [u32_of_lt (by omega)] at hi
    exact ⟨e, he, j, hj, hi.symm, hb.symm⟩
  · rintro ⟨e, he, j, hj, rfl, rfl⟩
    have := hend e he
    exact ⟨e, he, j, hj, u32_of_lt (by omega), rfl⟩

/-- A second leaf holds a block that the leftmost one does not. -/
theorem ExtentsOk.exists_missing {first second : List (ℕ × ℕ × ℕ)}
    {rest : List (List (ℕ × ℕ × ℕ))} (h : ExtentsOk depth (first :: second :: rest))
    (hpos : 0 < depth) : ∃ e ∈ second, 0 < e.2.1 ∧ ∀ e' ∈ first, e'.1 + e'.2.1 ≤ e.1 := by
  obtain ⟨e, tail, hcons⟩ := List.exists_cons_of_ne_nil
    (h.ne_nil hpos second (List.mem_cons_of_mem _ List.mem_cons_self))
  have hmem : e ∈ second := by simp [hcons]
  refine ⟨e, hmem, h.len_pos e (by simp [hmem]), ?_⟩
  intro e' he'
  have hsorted := h.sorted
  rw [List.flatten_cons, List.pairwise_append] at hsorted
  exact hsorted.2.2 e' he' e (by simp [hmem])

theorem HoldsTree.covers_iff {base : ℕ}
    (h : HoldsTree read blockSize depth m (base + Inode.iBlockOffset)
      (base + Inode.iBlockOffset + sizeofIBlock) leaves nodes) (hok : ExtentsOk depth leaves)
    (hfuel : depth ≤ fuel) :
    CoversTree leaves (getBlockListExtents read blockSize fuel m base) ↔ leaves.length = 1 := by
  obtain ⟨assignments, hread, hmem⟩ := h.getBlockListExtents_mem hfuel
  obtain ⟨first, rest, rfl⟩ := List.exists_cons_of_ne_nil h.leaves_ne_nil
  have hfirst : ∀ e ∈ first, e.1 + e.2.1 ≤ 2 ^ 32 := fun e he => hok.end_le e (by simp [he])
  rw [List.headD_cons] at hmem
  constructor
  · rintro ⟨assignments', hread', hcover⟩
    cases hread.symm.trans hread'
    cases rest with
    | nil => rfl
    | cons second rest =>
        have hpos : 0 < depth := by
          rcases Nat.eq_zero_or_pos depth with hzero | hpos
          · subst hzero
            cases h.of_depth_zero.1
          · exact hpos
        obtain ⟨e, he, hlen, hbehind⟩ := hok.exists_missing hpos
        have hassigned : (e.1, e.2.2) ∈ assignments :=
          (hcover _ _).mpr ⟨second, by simp, e, he, 0, hlen, rfl, rfl⟩
        rw [hmem, mem_flatMap_extentAssignments hfirst] at hassigned
        obtain ⟨e', he', j, hj, hi, -⟩ := hassigned
        have := hbehind e' he'
        omega
  · intro hlen
    obtain rfl : rest = [] := by simpa using hlen
    refine ⟨assignments, hread, ?_⟩
    intro i b
    rw [hmem, mem_flatMap_extentAssignments hfirst]
    simp

end Reader

/-! ## The reader of the tool -/

theorem readBlockBounded_eq_readBlock {p : Fixup} (hle : p.info.blockSize ≤ MAX_EXT4_BLOCK_SIZE)
    (d : Device) :
    (fun b => readBlockBounded p b d) = fun b => readBlock p b d := by
  funext b
  unfold readBlockBounded
  rw [if_neg (not_lt.mpr hle)]

/-- The reader covers an extent tree if and only if it has one leaf. -/
theorem coversTree_iff {p : Fixup} {d : Device} {inode : Mem} {depth nodes fuel : ℕ}
    {leaves : List (List (ℕ × ℕ × ℕ))} (hle : p.info.blockSize ≤ MAX_EXT4_BLOCK_SIZE)
    (htree : HoldsTree (fun b => readBlock p b d) p.info.blockSize depth inode Inode.iBlockOffset
      (Inode.iBlockOffset + sizeofIBlock) leaves nodes)
    (hok : ExtentsOk depth leaves) (hfuel : depth ≤ fuel) :
    CoversTree leaves (getBlockListExtents (fun b => readBlockBounded p b d) p.info.blockSize fuel
      inode 0) ↔ leaves.length = 1 := by
  rw [readBlockBounded_eq_readBlock hle]
  have htree' : HoldsTree (fun b => readBlock p b d) p.info.blockSize depth inode
      (0 + Inode.iBlockOffset) (0 + Inode.iBlockOffset + sizeofIBlock) leaves nodes := by
    rwa [Nat.zero_add]
  exact htree'.covers_iff hok hfuel

/-! ## Two leaves -/

/-- The members of a header. -/
def headerAt (o entries depth : ℕ) : List (Field × ℕ) :=
  [(ExtentHeader.ehMagic.at_ o, EXT4_EXT_MAGIC), (ExtentHeader.ehEntries.at_ o, entries),
    (ExtentHeader.ehMax.at_ o, 4), (ExtentHeader.ehDepth.at_ o, depth)]

/-- An inode whose tree has `entries` leaves, in the blocks 1 and up. -/
def indexInode (entries : ℕ) : Mem :=
  Mem.zero.assign <| [(Inode.iMode, 0x4000), (Inode.iFlags, EXT4_EXTENTS_FL)] ++
    headerAt 40 entries 1 ++ [(ExtentIdx.eiBlock.at_ 52, 0), (ExtentIdx.eiLeafLo.at_ 52, 1),
      (ExtentIdx.eiBlock.at_ 64, 1), (ExtentIdx.eiLeafLo.at_ 64, 2)]

/-- Two leaves with an extent of one block each. -/
def twoLeaves : Device where
  size := 32768
  bytes := Mem.zero.assign <| headerAt 2048 1 0 ++
    [(Extent.eeBlock.at_ 2060, 0), (Extent.eeLen.at_ 2060, 1), (Extent.eeStartLo.at_ 2060, 6)] ++
    headerAt 4096 1 0 ++
    [(Extent.eeBlock.at_ 4108, 1), (Extent.eeLen.at_ 4108, 1), (Extent.eeStartLo.at_ 4108, 9)]

theorem holdsTree_leaf {i : ℕ} (hi : i < 2) :
    HoldsTree (fun b => readBlock twoGroupsFixup b twoLeaves) 2048 0
      (twoLeaves.slice (2048 * (i + 1)) 2048) 0 2048 [[(i, 1, 6 + 3 * i)]] 0 := by
  have hnode : ∀ i < 2, (ExtentHeader.ehMagic.at_ 0).get (twoLeaves.slice (2048 * (i + 1)) 2048) =
        EXT4_EXT_MAGIC ∧
      (ExtentHeader.ehDepth.at_ 0).get (twoLeaves.slice (2048 * (i + 1)) 2048) = 0 ∧
      (ExtentHeader.ehEntries.at_ 0).get (twoLeaves.slice (2048 * (i + 1)) 2048) = 1 ∧
      extentAt (twoLeaves.slice (2048 * (i + 1)) 2048) 12 = (i, 1, 6 + 3 * i) := by decide
  obtain ⟨hmagic, hdepth, hentries, hextent⟩ := hnode i hi
  have hleaf : extentsOf (twoLeaves.slice (2048 * (i + 1)) 2048) 0 = [(i, 1, 6 + 3 * i)] := by
    unfold extentsOf
    rw [hentries, List.range_one, List.map_singleton]
    exact congrArg (fun e => [e]) hextent
  rw [← hleaf]
  refine .leaf ⟨hmagic, hdepth, ?_⟩
  rw [hentries]
  decide

theorem holdsTree_indexInode {n : ℕ} (hpos : 0 < n) (hle : n ≤ 2) :
    HoldsTree (fun b => readBlock twoGroupsFixup b twoLeaves) 2048 1 (indexInode n)
      Inode.iBlockOffset (Inode.iBlockOffset + sizeofIBlock)
      ((List.range n).flatMap fun i => [[(i, 1, 6 + 3 * i)]]) n := by
  have hnode : ∀ n < 3, (ExtentHeader.ehMagic.at_ 40).get (indexInode n) = EXT4_EXT_MAGIC ∧
      (ExtentHeader.ehDepth.at_ 40).get (indexInode n) = 1 ∧
      (ExtentHeader.ehEntries.at_ 40).get (indexInode n) = n ∧
      ∀ i < 2, indexLeaf (indexInode n) 40 i = i + 1 := by decide
  obtain ⟨hmagic, hdepth, hentries, hindex⟩ := hnode n (by omega)
  have hfits : 40 + sizeofExtent + sizeofExtent * n ≤ 40 + sizeofIBlock := by
    unfold sizeofExtent sizeofIBlock
    omega
  have hread : ∀ i < n, readBlock twoGroupsFixup (indexLeaf (indexInode n) 40 i) twoLeaves =
      .ok (twoLeaves.slice (2048 * (i + 1)) 2048) := by
    intro i hi
    rw [hindex i (by omega), readBlock_eq (by decide), Nat.mul_comm]
    · rfl
    · show (i + 1) * 2048 + 2048 ≤ 32768
      omega
  have htree := HoldsTree.index ⟨hmagic, hdepth, hentries.symm ▸ hfits⟩ (hentries.symm ▸ hpos)
    (hentries.symm ▸ hread) fun i hi => holdsTree_leaf (show i < 2 by omega)
  simpa [hentries, Inode.iBlockOffset] using htree

theorem extentsOk_two {n : ℕ} (hle : n ≤ 2) :
    ExtentsOk 1 ((List.range n).flatMap fun i => [[(i, 1, 6 + 3 * i)]]) := by
  interval_cases n <;> exact ⟨by decide, by decide, by decide, by decide⟩

theorem coversTree_iff_one :
    CoversTree [[(0, 1, 6)]] (getBlockListExtents
      (fun b => readBlockBounded twoGroupsFixup b twoLeaves) 2048 1 (indexInode 1) 0) ↔
        [[(0, 1, 6)]].length = 1 :=
  coversTree_iff (by decide) (holdsTree_indexInode Nat.one_pos (by decide))
    (extentsOk_two (show 1 ≤ 2 by decide)) le_rfl

/-- The second leaf is never read. -/
theorem not_coversTree_two :
    (HoldsTree (fun b => readBlock twoGroupsFixup b twoLeaves) 2048 1 (indexInode 2)
      Inode.iBlockOffset (Inode.iBlockOffset + sizeofIBlock) [[(0, 1, 6)], [(1, 1, 9)]] 2 ∧
      ExtentsOk 1 [[(0, 1, 6)], [(1, 1, 9)]]) ∧
    ¬ CoversTree [[(0, 1, 6)], [(1, 1, 9)]] (getBlockListExtents
      (fun b => readBlockBounded twoGroupsFixup b twoLeaves) 2048 1 (indexInode 2) 0) := by
  have htree := holdsTree_indexInode (show 0 < 2 by decide) le_rfl
  have hok := extentsOk_two le_rfl
  refine ⟨⟨htree, hok⟩, ?_⟩
  rw [readBlockBounded_eq_readBlock (by decide)]
  have htree' : HoldsTree (fun b => readBlock twoGroupsFixup b twoLeaves) 2048 1 (indexInode 2)
      (0 + Inode.iBlockOffset) (0 + Inode.iBlockOffset + sizeofIBlock)
      [[(0, 1, 6)], [(1, 1, 9)]] 2 := htree
  intro hcovers
  exact absurd ((htree'.covers_iff hok le_rfl).mp hcovers) (by decide)

end SystemExtras.Ext4
