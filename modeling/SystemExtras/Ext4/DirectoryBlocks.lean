import SystemExtras.Ext4.ExtentTree

/-!
# The blocks of a directory

`recurse_dir` takes the number of a directory's blocks from `i_blocks` and their
places from the map in the inode.  `ext4` counts more than data in `i_blocks`: the
blocks of the extent tree, the indirect block and the block of the extended
attributes.  A directory that has one of these is taken for longer than it is, and
the tool goes on to elements of its block list that nobody filled, or that were
filled from what is no map.

`ValidDir` is an inode of a directory with given data blocks, mapped in one of the
ways `ext4` knows for a directory of this size.  The blocks that are read and
written back are the data blocks exactly when `i_blocks` counts nothing else
(`touchesData_iff`).
-/

namespace SystemExtras.Ext4

open DevM

/-! ## Directories and their maps -/

/-- The blocks of the external attributes of an inode. -/
def xattrBlocks (inode : Mem) : ℕ := if Inode.iFileAclLo.get inode = 0 then 0 else 1

/-- The map in the inode gives the data blocks in logical order; the number is that
of the blocks the map itself takes up. -/
inductive MapsDir (p : Fixup) (inode : Mem) (d : Device) (data : List ℕ) : ℕ → Prop where
  | extents {depth nodes : ℕ} {leaves : List (List (ℕ × ℕ × ℕ))}
      (flag : Inode.iFlags.get inode &&& EXT4_EXTENTS_FL ≠ 0)
      (tree : HoldsTree (fun b => readBlock p b d) p.info.blockSize depth inode Inode.iBlockOffset
        (Inode.iBlockOffset + sizeofIBlock) leaves nodes)
      (ok : ExtentsOk depth leaves)
      (mapped : ∀ i b, data[i]? = some b ↔
        ∃ leaf ∈ leaves, ∃ e ∈ leaf, ∃ j < e.2.1, i = e.1 + j ∧ b = e.2.2 + j) :
      MapsDir p inode d data nodes
  | direct (flag : Inode.iFlags.get inode &&& EXT4_EXTENTS_FL = 0)
      (length_le : data.length ≤ EXT4_NDIR_BLOCKS)
      (mapped : ∀ i b, data[i]? = some b → (Inode.iBlock i).get inode = b) :
      MapsDir p inode d data 0
  | indirect {block : Mem} (flag : Inode.iFlags.get inode &&& EXT4_EXTENTS_FL = 0)
      (lt_length : EXT4_NDIR_BLOCKS < data.length)
      (length_le : data.length ≤ EXT4_NDIR_BLOCKS + p.info.blockSize / 4)
      (read_eq : readBlock p ((Inode.iBlock EXT4_IND_BLOCK).get inode) d = .ok block)
      (mapped_direct : ∀ i b, i < EXT4_NDIR_BLOCKS → data[i]? = some b →
        (Inode.iBlock i).get inode = b)
      (mapped_indirect : ∀ i b, data[EXT4_NDIR_BLOCKS + i]? = some b → block.load (4 * i) 4 = b) :
      MapsDir p inode d data 1

/-- A directory of the filesystem, with `mapBlocks` blocks besides its data that
hold its map. -/
structure ValidDir (p : Fixup) (inode : Mem) (d : Device) (data : List ℕ) (mapBlocks : ℕ) :
    Prop where
  blockSize : ∃ k, p.info.blockSize = 1024 * 2 ^ k
  isDir : isDirInode inode = true
  nodup : data.Nodup
  maps : MapsDir p inode d data mapBlocks
  /-- `i_blocks` counts every block the inode owns, in units of 512 bytes. -/
  blocksLo : Inode.iBlocksLo.get inode * INODE_BLOCK_SIZE =
    p.info.blockSize * (data.length + mapBlocks + xattrBlocks inode)
  /-- Directories stay below 2 GiB. -/
  size_lt : p.info.blockSize * (data.length + mapBlocks + xattrBlocks inode) < 2 ^ 31

/-- What `recurse_dir` does with its list of blocks. -/
def touchBlocks (p : Fixup) (mode : Mode) (fuel size : ℕ) (blocks : List ℕ) : DevM Stop Unit := do
  let buf ← DevM.query fun d => readBlocks p d blocks
  let buf ← walk p mode (recurseDir p mode fuel) size (size + 1) buf 0 none
  writeBlocks p (mode = .sanityCheckPass) buf 0 blocks

/-- The blocks that `recurse_dir` reads and writes back are the data blocks. -/
def TouchesData (p : Fixup) (mode : Mode) (fuel : ℕ) (inode : Mem) (data : List ℕ) (d : Device) :
    Prop :=
  ∃ blocks, blockList p (fuel + 1) inode (dirSize inode / p.info.blockSize) d = .ok blocks ∧
    recurseDir p mode (fuel + 1) inode (dirSize inode) d =
      touchBlocks p mode fuel (dirSize inode) blocks d ∧
    blocks = data

/-! ## Block lists -/

section Lists

variable {p : Fixup} {mode : Mode} {fuel size : ℕ} {inode : Mem} {d : Device} {data : List ℕ}
  {mapBlocks : ℕ}

theorem length_of_blockList {n : ℕ} {blocks : List ℕ}
    (h : blockList p fuel inode n d = .ok blocks) :
    blocks.length = n := by
  unfold blockList at h
  obtain ⟨assignments, -, h⟩ := bind_eq_ok.mp h
  split at h
  · cases h
  · exact (mapM_range_eq_ok.mp h).1

theorem assigned_eq {assignments : List (ℕ × ℕ)} {i b : ℕ} (hmem : (i, b) ∈ assignments)
    (hunique : ∀ b', (i, b') ∈ assignments → b' = b) : assigned assignments i = .ok b := by
  unfold assigned
  cases hfind : assignments.reverse.find? fun a => a.1 = i with
  | none =>
      rw [List.find?_eq_none] at hfind
      exact absurd (decide_eq_true rfl) (hfind (i, b) (List.mem_reverse.mpr hmem))
  | some a =>
      have hi : a.1 = i := by simpa using List.find?_some hfind
      have ha : a ∈ assignments := List.mem_reverse.mp (List.mem_of_find?_eq_some hfind)
      rw [← hunique a.2 (hi ▸ ha)]

/-- A list of which every element is assigned once and for all. -/
theorem blockList_of_mem {assignments : List (ℕ × ℕ)}
    (h : blockAssignments p fuel inode data.length d = .ok assignments)
    (hmem : ∀ i b, (i, b) ∈ assignments ↔ data[i]? = some b) :
    blockList p fuel inode data.length d = .ok data := by
  have hinside : (assignments.any fun a => data.length < a.1) = false := by
    rw [List.any_eq_false]
    intro a ha
    obtain ⟨hlt, -⟩ := List.getElem?_eq_some_iff.mp ((hmem a.1 a.2).mp ha)
    simpa using hlt.le
  unfold blockList
  rw [h, bind_ok, hinside]
  simp only [Bool.false_eq_true, if_false]
  rw [mapM_range_eq_ok]
  refine ⟨rfl, ?_⟩
  intro i b hi
  refine assigned_eq ((hmem i b).mpr hi) ?_
  intro b' hb'
  exact Option.some_inj.mp (((hmem i b').mp hb').symm.trans hi)

theorem recurseDir_eq_touchBlocks {blocks : List ℕ} (hmod : size % p.info.blockSize = 0)
    (hlt : size < 2 ^ 31)
    (hlist : blockList p (fuel + 1) inode (size / p.info.blockSize) d = .ok blocks) :
    recurseDir p mode (fuel + 1) inode size d = touchBlocks p mode fuel size blocks d := by
  have hresult : (DevM.query (blockList p (fuel + 1) inode (size / p.info.blockSize))).result d =
      .ok blocks := hlist
  have hnot : ¬ 2 ^ 31 ≤ size := by omega
  unfold recurseDir touchBlocks
  rw [if_neg (not_not.mpr hmod)]
  simp only [if_neg hnot]
  apply Prod.ext
  · exact (bind_of_ok hresult).1
  · exact (bind_of_ok hresult).2

theorem ValidDir.dirSize_eq (h : ValidDir p inode d data mapBlocks) :
    dirSize inode = p.info.blockSize * (data.length + mapBlocks + xattrBlocks inode) := by
  unfold dirSize
  rw [h.blocksLo, u32_of_lt (h.size_lt.trans (by decide))]

theorem ValidDir.blockSize_pos (h : ValidDir p inode d data mapBlocks) : 0 < p.info.blockSize := by
  obtain ⟨k, hk⟩ := h.blockSize
  rw [hk]
  positivity

theorem ValidDir.numBlocks_eq (h : ValidDir p inode d data mapBlocks) :
    dirSize inode / p.info.blockSize = data.length + mapBlocks + xattrBlocks inode := by
  rw [h.dirSize_eq, Nat.mul_div_cancel_left _ h.blockSize_pos]

theorem ValidDir.inodeBlocks_eq (h : ValidDir p inode d data mapBlocks) :
    inodeBlocks p inode = data.length + mapBlocks + xattrBlocks inode := by
  obtain ⟨k, hk⟩ := h.blockSize
  have hunits : p.info.blockSize / INODE_BLOCK_SIZE = 2 * 2 ^ k := by
    rw [hk, show 1024 * 2 ^ k = INODE_BLOCK_SIZE * (2 * 2 ^ k) by unfold INODE_BLOCK_SIZE; ring]
    exact Nat.mul_div_cancel_left _ (by decide)
  have hblocks : Inode.iBlocksLo.get inode =
      2 * 2 ^ k * (data.length + mapBlocks + xattrBlocks inode) := by
    have hlo := h.blocksLo
    rw [hk] at hlo
    unfold INODE_BLOCK_SIZE at hlo
    nlinarith [hlo]
  unfold inodeBlocks
  rw [hunits, hblocks]
  exact Nat.mul_div_cancel_left _ (by positivity)

/-- Nodes of a tree that has none besides the inode. -/
theorem HoldsTree.depth_eq_zero {read : ℕ → Except Stop Mem} {blockSize depth off : ℕ} {m : Mem}
    {leaves : List (List (ℕ × ℕ × ℕ))} (h : HoldsTree read blockSize depth m off size leaves 0) :
    depth = 0 := by
  generalize hnodes : 0 = nodes at h
  cases h with
  | leaf _ => rfl
  | index _ entries_pos _ _ =>
      exfalso
      have hzero := List.sum_eq_zero_iff.mp hnodes.symm
      have := hzero _ (List.mem_map.mpr ⟨0, List.mem_range.mpr entries_pos, rfl⟩)
      omega

/-- The assignments that are made for a map without blocks of its own. -/
theorem MapsDir.blockAssignments_eq (h : MapsDir p inode d data mapBlocks) (hzero : mapBlocks = 0)
    (hblocks : inodeBlocks p inode = data.length) :
    ∃ assignments, blockAssignments p fuel inode data.length d = .ok assignments ∧
      ∀ i b, (i, b) ∈ assignments ↔ data[i]? = some b := by
  unfold blockAssignments
  cases h with
  | @extents depth nodes leaves flag tree ok mapped =>
      subst hzero
      obtain rfl := tree.depth_eq_zero
      obtain ⟨rfl, -⟩ := tree.of_depth_zero
      have hroot : HoldsTree (fun b => readBlockBounded p b d) p.info.blockSize 0 inode
          (0 + Inode.iBlockOffset) (0 + Inode.iBlockOffset + sizeofIBlock)
          [extentsOf inode Inode.iBlockOffset] 0 := by
        rw [Nat.zero_add]
        exact .leaf tree.node
      obtain ⟨assignments, hok, hmem⟩ := hroot.getBlockListExtents_mem (Nat.zero_le fuel)
      rw [if_pos flag]
      refine ⟨assignments, hok, ?_⟩
      intro i b
      have hend : ∀ e ∈ extentsOf inode Inode.iBlockOffset, e.1 + e.2.1 ≤ 2 ^ 32 :=
        fun e he => ok.end_le e (by simpa using he)
      rw [hmem, List.headD_cons, mem_flatMap_extentAssignments hend, mapped]
      simp
  | direct flag length_le mapped =>
      have hsmall : ¬ p.info.blockSize / 4 + EXT4_NDIR_BLOCKS < data.length := by omega
      have hdirect : ¬ EXT4_NDIR_BLOCKS < inodeBlocks p inode := by omega
      rw [if_neg (not_not.mpr flag), if_neg hsmall]
      unfold getBlockListIndirect
      rw [if_neg hdirect]
      refine ⟨_, rfl, ?_⟩
      intro i b
      unfold getDirectBlocks
      rw [hblocks, min_eq_left length_le]
      simp only [List.mem_map, List.mem_range, Prod.mk.injEq]
      constructor
      · rintro ⟨k, hk, rfl, hb⟩
        have hget := List.getElem?_eq_getElem hk
        rw [mapped k _ hget] at hb
        rw [hget, hb]
      · intro hi
        exact ⟨i, (List.getElem?_eq_some_iff.mp hi).1, rfl, mapped i b hi⟩
  | indirect flag lt_length length_le read_eq mapped_direct mapped_indirect =>
      exact absurd hzero Nat.one_ne_zero

end Lists

/-- The blocks read and written back are those of the directory if and only if it
owns no others. -/
theorem touchesData_iff {p : Fixup} {inode : Mem} {d : Device} {data : List ℕ} {mapBlocks : ℕ}
    (h : ValidDir p inode d data mapBlocks) (mode : Mode) (fuel : ℕ) :
    TouchesData p mode fuel inode data d ↔
      mapBlocks = 0 ∧ Inode.iFileAclLo.get inode = 0 := by
  have hxattr : xattrBlocks inode = 0 ↔ Inode.iFileAclLo.get inode = 0 := by
    unfold xattrBlocks
    split <;> simp_all
  rw [← hxattr]
  constructor
  · rintro ⟨blocks, hlist, -, rfl⟩
    have hlen := length_of_blockList hlist
    rw [h.numBlocks_eq] at hlen
    omega
  · rintro ⟨rfl, hzero⟩
    have hblocks := h.inodeBlocks_eq
    have hnum := h.numBlocks_eq
    have hsize := h.dirSize_eq
    simp only [hzero, Nat.add_zero] at hblocks hnum hsize
    obtain ⟨assignments, hok, hmem⟩ := h.maps.blockAssignments_eq rfl hblocks
    have hlist := blockList_of_mem hok hmem
    rw [← hnum] at hlist
    refine ⟨data, hlist, recurseDir_eq_touchBlocks ?_ ?_ hlist, rfl⟩
    · rw [hsize]
      exact Nat.mul_mod_right _ _
    · rw [h.dirSize_eq]
      exact h.size_lt

/-- A directory with the data block 6, and an attribute block unless `acl` is 0. -/
def oneBlockInode (acl : ℕ) : Mem :=
  Mem.zero.assign [(Inode.iMode, 0x4000), (Inode.iBlocksLo, if acl = 0 then 4 else 8),
    (Inode.iBlock 0, 6), (Inode.iFileAclLo, acl)]

theorem validDir_oneBlockInode {acl : ℕ} (hacl : acl = 0 ∨ acl = 9) :
    ValidDir twoGroupsFixup (oneBlockInode acl) twoLeaves [6] 0 := by
  have hmembers : ∀ acl ∈ [0, 9], isDirInode (oneBlockInode acl) = true ∧
      Inode.iFlags.get (oneBlockInode acl) &&& EXT4_EXTENTS_FL = 0 ∧
      (Inode.iBlock 0).get (oneBlockInode acl) = 6 ∧
      Inode.iBlocksLo.get (oneBlockInode acl) * INODE_BLOCK_SIZE =
        2048 * (1 + 0 + xattrBlocks (oneBlockInode acl)) ∧
      2048 * (1 + 0 + xattrBlocks (oneBlockInode acl)) < 2 ^ 31 := by decide
  obtain ⟨hdir, hflag, hblock, hlo, hlt⟩ := hmembers acl (by simpa using hacl)
  refine ⟨⟨1, rfl⟩, hdir, by decide, .direct hflag (by decide) ?_, hlo, hlt⟩
  intro i b hi
  cases i with
  | zero =>
      cases hi
      exact hblock
  | succ i => cases hi

theorem touchesData_iff_oneBlock :
    TouchesData twoGroupsFixup .markInodeNums 0 (oneBlockInode 0) [6] twoLeaves ↔
      0 = 0 ∧ Inode.iFileAclLo.get (oneBlockInode 0) = 0 :=
  touchesData_iff (validDir_oneBlockInode (Or.inl rfl)) .markInodeNums 0

/-- The attribute block is counted, and the tool takes block 0 for the directory's
second block. -/
theorem not_touchesData_xattr :
    ValidDir twoGroupsFixup (oneBlockInode 9) twoLeaves [6] 0 ∧
    blockList twoGroupsFixup 1 (oneBlockInode 9)
      (dirSize (oneBlockInode 9) / twoGroupsFixup.info.blockSize) twoLeaves = .ok [6, 0] ∧
    ¬ TouchesData twoGroupsFixup .markInodeNums 0 (oneBlockInode 9) [6] twoLeaves := by
  have hlist : blockList twoGroupsFixup 1 (oneBlockInode 9)
      (dirSize (oneBlockInode 9) / twoGroupsFixup.info.blockSize) twoLeaves = .ok [6, 0] := by
    decide
  refine ⟨validDir_oneBlockInode (Or.inr rfl), hlist, ?_⟩
  rintro ⟨blocks, hblocks, -, rfl⟩
  cases hlist.symm.trans hblocks

end SystemExtras.Ext4
