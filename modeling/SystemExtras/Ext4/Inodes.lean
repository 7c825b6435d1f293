import SystemExtras.Ext4.XattrBlocks

/-!
# The inode allocator

A translation of the part of `allocate.c` that hands out inodes.  A group keeps
its inodes as it keeps its blocks: a cursor, a free count and a bitmap, which is
the second block of the buffer that `init_bg` allocates.  The table that holds
the inodes themselves is made when `get_inode` first asks for one of them, and
until then the group is flagged as not initialized.

`InodesInv` is what is true of the inodes of a group at all times, as `GroupInv`
is what is true of its blocks.  The two live in one buffer and do not disturb
each other: `SameBlocks` says that an operation leaves the blocks alone, and
`SameInodes` that it leaves the inodes alone.
-/

namespace SystemExtras.Ext4

open Mem

/-! ## The code -/

/-- `get_free_inodes`. -/
def getFreeInodes (bg : ℕ) (s : State) : ℕ := (s.bgs bg).freeInodes

/-- The loop of `reserve_inodes`, from `i` on. -/
def reserveInodesLoop (g : Geometry) (first : ℕ) : ℕ → ℕ → Mem → Except Stop Mem
  | 0, _, bitmaps => .ok bitmaps
  | left + 1, i, bitmaps =>
      let inode := sub32 (u32 (first + i)) 1
      -- `inode_bitmap` is `bitmaps + block_size`
      if g.bitmapsSize ≤ g.info.blockSize + inode / 8 then .error .undefined
      else reserveInodesLoop g first left (i + 1) (bitmaps.orBit (8 * g.info.blockSize + inode))

/-- `reserve_inodes`. -/
def reserveInodes (g : Geometry) (bg num : ℕ) (s : State) : Except Stop (ℕ × State) :=
  if getFreeInodes bg s < num then .ok (EXT4_ALLOCATE_FAILED, s)
  else do
    let inode := (s.bgs bg).firstFreeInode
    let bitmaps ← reserveInodesLoop g inode num 0 (s.bgs bg).bitmaps
    .ok (inode, s.setBg bg { s.bgs bg with
      bitmaps := bitmaps
      firstFreeInode := u32 (inode + num)
      freeInodes := (s.bgs bg).freeInodes - num })

/-- The loop of `allocate_inode`, from group `bg` on. -/
def allocateInodeLoop (g : Geometry) : ℕ → ℕ → State → Except Stop (ℕ × State)
  | 0, _, s => .ok (EXT4_ALLOCATE_FAILED, s)
  | left + 1, bg, s => do
      let (inode, s) ← reserveInodes g bg 1 s
      if inode ≠ EXT4_ALLOCATE_FAILED then .ok (u32 (bg * g.info.inodesPerGroup + inode), s)
      else allocateInodeLoop g left (bg + 1) s

/-- `allocate_inode`. -/
def allocateInode (g : Geometry) (s : State) : Except Stop (ℕ × State) :=
  allocateInodeLoop g g.aux.groups 0 s

/-- `add_directory`. -/
def addDirectory (g : Geometry) (inode : ℕ) (s : State) : Except Stop State :=
  if g.info.inodesPerGroup = 0 then .error .undefined
  else
    let bg := sub32 inode 1 / g.info.inodesPerGroup
    if g.aux.groups ≤ bg then .error .undefined
    else .ok (s.setBg bg { s.bgs bg with usedDirs := u16 ((s.bgs bg).usedDirs + 1) })

/-- `get_directories`. -/
def getDirectories (bg : ℕ) (s : State) : ℕ := (s.bgs bg).usedDirs

/-- `get_bg_flags`. -/
def getBgFlags (bg : ℕ) (s : State) : ℕ := (s.bgs bg).flags

/-! ## Numbers of inodes -/

/-- Inodes that can be numbered, and whose bitmap is a block at most. -/
structure Geometry.Numbered (g : Geometry) : Prop where
  inodesPerGroup_le : g.info.inodesPerGroup ≤ 8 * g.info.blockSize
  count_lt : g.aux.groups * g.info.inodesPerGroup < 2 ^ 32 - 1
  table_le : g.info.inodesPerGroup * g.info.inodeSize + g.info.blockSize ≤ 2 ^ 32
  inodeSize_ge : EXT4_GOOD_OLD_INODE_SIZE ≤ g.info.inodeSize

theorem Geometry.Numbered.inodesPerGroup_lt {g : Geometry} (hn : g.Numbered) {i : ℕ}
    (hi : i < g.aux.groups) : g.info.inodesPerGroup < 2 ^ 32 - 1 :=
  (Nat.le_mul_of_pos_left _ (Nat.zero_lt_of_lt hi)).trans_lt hn.count_lt

namespace Geometry

variable {g : Geometry}

/-- The number of an inode that there is. -/
def HasInode (g : Geometry) (n : ℕ) : Prop := 1 ≤ n ∧ n ≤ g.aux.groups * g.info.inodesPerGroup

/-- The group of inode `n`, and its place there. -/
def groupOf (g : Geometry) (n : ℕ) : ℕ := (n - 1) / g.info.inodesPerGroup

def indexOf (g : Geometry) (n : ℕ) : ℕ := (n - 1) % g.info.inodesPerGroup

/-- Where inode `n` is. -/
def inodeAt (g : Geometry) (n : ℕ) : InodePtr := ⟨g.groupOf n, g.indexOf n * g.info.inodeSize⟩

theorem HasInode.perGroup_pos {n : ℕ} (h : g.HasInode n) : 0 < g.info.inodesPerGroup := by
  obtain ⟨hpos, hle⟩ := h
  by_contra hzero
  rw [Nat.eq_zero_of_not_pos hzero, Nat.mul_zero] at hle
  omega

theorem HasInode.groupOf_lt {n : ℕ} (h : g.HasInode n) : g.groupOf n < g.aux.groups := by
  obtain ⟨hpos, hle⟩ := h
  unfold groupOf
  rw [Nat.div_lt_iff_lt_mul (HasInode.perGroup_pos ⟨hpos, hle⟩)]
  omega

theorem HasInode.indexOf_lt {n : ℕ} (h : g.HasInode n) : g.indexOf n < g.info.inodesPerGroup :=
  Nat.mod_lt _ h.perGroup_pos

/-- A number is what its group and its place make it. -/
theorem HasInode.eq {n : ℕ} (h : g.HasInode n) :
    n = g.groupOf n * g.info.inodesPerGroup + g.indexOf n + 1 := by
  have hdiv := Nat.div_add_mod' (n - 1) g.info.inodesPerGroup
  have hpos := h.1
  unfold groupOf indexOf
  omega

/-- The number of the inode at place `k` of group `i`. -/
theorem hasInode_of_lt {i k : ℕ} (hi : i < g.aux.groups) (hk : k < g.info.inodesPerGroup) :
    g.HasInode (i * g.info.inodesPerGroup + k + 1) ∧
      g.groupOf (i * g.info.inodesPerGroup + k + 1) = i ∧
      g.indexOf (i * g.info.inodesPerGroup + k + 1) = k := by
  have hle : (i + 1) * g.info.inodesPerGroup ≤ g.aux.groups * g.info.inodesPerGroup :=
    Nat.mul_le_mul_right _ hi
  rw [Nat.succ_mul] at hle
  refine ⟨⟨by omega, by omega⟩, ?_, ?_⟩
  · unfold groupOf
    rw [Nat.add_sub_cancel, Nat.mul_comm, Nat.mul_add_div (by omega), Nat.div_eq_of_lt hk,
      Nat.add_zero]
  · unfold indexOf
    rw [Nat.add_sub_cancel, Nat.mul_comm, Nat.mul_add_mod, Nat.mod_eq_of_lt hk]

theorem HasInode.lt (hn : g.Numbered) {n : ℕ} (h : g.HasInode n) : n < EXT4_ALLOCATE_FAILED := by
  have hle := h.2
  have hlt := hn.count_lt
  unfold EXT4_ALLOCATE_FAILED
  omega

theorem HasInode.sub32_eq (hn : g.Numbered) {n : ℕ} (h : g.HasInode n) : sub32 n 1 = n - 1 := by
  have hlt := h.lt hn
  have hpos := h.1
  unfold EXT4_ALLOCATE_FAILED at hlt
  exact sub32_of_le hpos (by omega)

/-- Two inodes are at different places. -/
theorem inodeAt_injective (hn : g.Numbered) {m n : ℕ} (hm : g.HasInode m) (hn' : g.HasInode n)
    (h : g.inodeAt m = g.inodeAt n) : m = n := by
  have hsize := hn.inodeSize_ge
  unfold EXT4_GOOD_OLD_INODE_SIZE at hsize
  have hgroup : g.groupOf m = g.groupOf n := congrArg InodePtr.bg h
  have hbase : g.indexOf m * g.info.inodeSize = g.indexOf n * g.info.inodeSize :=
    congrArg InodePtr.base h
  have hindex := Nat.eq_of_mul_eq_mul_right (by omega) hbase
  rw [hm.eq, hn'.eq, hgroup, hindex]

/-- The inode ends inside its table. -/
theorem HasInode.base_add_le {n : ℕ} (h : g.HasInode n) :
    (g.inodeAt n).base + g.info.inodeSize ≤ g.info.inodesPerGroup * g.info.inodeSize := by
  have hle : (g.indexOf n + 1) * g.info.inodeSize ≤ g.info.inodesPerGroup * g.info.inodeSize :=
    Nat.mul_le_mul_right _ h.indexOf_lt
  rw [Nat.succ_mul] at hle
  exact hle

end Geometry

/-- `get_inode` finds every inode that there is. -/
theorem getInode_eq {g : Geometry} (hn : g.Numbered) {n : ℕ} (h : g.HasInode n) (s : State) :
    getInode g n s = .ok (g.inodeAt n, allocateBgInodeTable g (g.groupOf n) s) := by
  have hbase := h.base_add_le
  have htable := hn.table_le
  have hsize := hn.inodeSize_ge
  unfold EXT4_GOOD_OLD_INODE_SIZE at hsize
  have hoffset : u32 ((n - 1) % g.info.inodesPerGroup * g.info.inodeSize) =
      (g.inodeAt n).base := by
    refine u32_of_lt ?_
    change (g.inodeAt n).base < 2 ^ 32
    omega
  have hgroup := not_le.mpr h.groupOf_lt
  unfold Geometry.groupOf at hgroup
  unfold getInode
  simp only [h.sub32_eq hn]
  rw [if_neg h.perGroup_pos.ne', if_neg hgroup, hoffset]
  rfl

theorem addDirectory_eq {g : Geometry} (hn : g.Numbered) {n : ℕ} (h : g.HasInode n) (s : State) :
    addDirectory g n s = .ok (s.setBg (g.groupOf n) { s.bgs (g.groupOf n) with
      usedDirs := u16 ((s.bgs (g.groupOf n)).usedDirs + 1) }) := by
  have hgroup := not_le.mpr h.groupOf_lt
  unfold Geometry.groupOf at hgroup
  unfold addDirectory
  simp only [h.sub32_eq hn]
  rw [if_neg h.perGroup_pos.ne', if_neg hgroup]
  rfl

/-! ## The invariant of the inodes of a group -/

/-- The table of a group; before it is there its inodes are empty. -/
def BlockGroupInfo.table (bg : BlockGroupInfo) : Mem := bg.inodeTable.getD Mem.zero

/-- What holds of the inodes of a group at every moment. -/
structure InodesInv (g : Geometry) (bg : BlockGroupInfo) : Prop where
  sum : bg.firstFreeInode + bg.freeInodes = g.info.inodesPerGroup + 1
  pos : 1 ≤ bg.firstFreeInode
  used : ∀ k < g.info.inodesPerGroup,
    bg.bitmaps.bit (8 * g.info.blockSize + k) = decide (k + 1 < bg.firstFreeInode)
  flags : bg.flags = if bg.inodeTable = none then EXT4_BG_INODE_UNINIT else 0
  unused : ∀ k, bg.firstFreeInode ≤ k + 1 → ∀ x, k * g.info.inodeSize ≤ x →
    x < (k + 1) * g.info.inodeSize → k < g.info.inodesPerGroup → bg.table x = 0

/-- The clear bits of the inode bitmap. -/
def clearInodes (g : Geometry) (bg : BlockGroupInfo) : Finset ℕ :=
  (Finset.range g.info.inodesPerGroup).filter fun k =>
    bg.bitmaps.bit (8 * g.info.blockSize + k) = false

/-- The free count is the number of clear bits. -/
theorem InodesInv.card_clear {g : Geometry} {bg : BlockGroupInfo} (h : InodesInv g bg) :
    (clearInodes g bg).card = bg.freeInodes := by
  have hsum := h.sum
  have hpos := h.pos
  have hset : clearInodes g bg = Finset.Ico (bg.firstFreeInode - 1) g.info.inodesPerGroup := by
    ext k
    simp only [clearInodes, Finset.mem_filter, Finset.mem_range, Finset.mem_Ico]
    constructor
    · rintro ⟨hk, hclear⟩
      rw [h.used k hk, decide_eq_false_iff_not] at hclear
      omega
    · rintro ⟨hlo, hk⟩
      refine ⟨hk, ?_⟩
      rw [h.used k hk, decide_eq_false_iff_not]
      omega
  rw [hset, Nat.card_Ico]
  omega

/-- Of a group, what the inode allocator works with is the same. -/
structure SameInodes (g : Geometry) (bg bg' : BlockGroupInfo) : Prop where
  inodeTable : bg'.inodeTable = bg.inodeTable
  freeInodes : bg'.freeInodes = bg.freeInodes
  firstFreeInode : bg'.firstFreeInode = bg.firstFreeInode
  flags : bg'.flags = bg.flags
  usedDirs : bg'.usedDirs = bg.usedDirs
  hasSuperblock : bg'.hasSuperblock = bg.hasSuperblock
  bitmap : ∀ c, 8 * g.info.blockSize ≤ c → bg'.bitmaps.bit c = bg.bitmaps.bit c

namespace SameInodes

variable {g : Geometry} {bg bg' bg'' : BlockGroupInfo}

theorem refl (bg : BlockGroupInfo) : SameInodes g bg bg := ⟨rfl, rfl, rfl, rfl, rfl, rfl, fun _ _ => rfl⟩

theorem trans (h : SameInodes g bg bg') (h' : SameInodes g bg' bg'') : SameInodes g bg bg'' :=
  ⟨h'.inodeTable.trans h.inodeTable, h'.freeInodes.trans h.freeInodes,
    h'.firstFreeInode.trans h.firstFreeInode, h'.flags.trans h.flags, h'.usedDirs.trans h.usedDirs,
    h'.hasSuperblock.trans h.hasSuperblock, fun c hc => (h'.bitmap c hc).trans (h.bitmap c hc)⟩

theorem inv (h : SameInodes g bg bg') (hinv : InodesInv g bg) : InodesInv g bg' where
  sum := by rw [h.firstFreeInode, h.freeInodes]; exact hinv.sum
  pos := by rw [h.firstFreeInode]; exact hinv.pos
  used := by
    intro k hk
    rw [h.bitmap _ (Nat.le_add_right _ _), h.firstFreeInode]
    exact hinv.used k hk
  flags := by rw [h.flags, h.inodeTable]; exact hinv.flags
  unused := by
    have htable : bg'.table = bg.table := by
      unfold BlockGroupInfo.table
      rw [h.inodeTable]
    rw [h.firstFreeInode, htable]
    exact hinv.unused

end SameInodes

/-! ## Blocks are taken, inodes stay -/

section Blocks

variable {g : Geometry} {bgs bgs' : Groups} {p : Piece} {ps : List Piece}

theorem Takes.sameInodes (hg : g.Fits) (hinv : GroupsInv g bgs) (h : Takes g bgs p bgs') (i : ℕ) :
    SameInodes g (bgs i) (bgs' i) := by
  by_cases hi : i = p.bg
  · subst hi
    obtain ⟨bitmap, hset, heq⟩ := h.group_eq
    rw [heq]
    refine ⟨rfl, rfl, rfl, rfl, rfl, rfl, fun c hc => ?_⟩
    have hend := (hinv p.bg h.bg_lt).end_le
    have hle := h.len_le
    have hbpg := hg.blocksPerGroup_le
    change bitmap.bit c = _
    rw [hset c, decide_eq_false (by omega), Bool.or_false]
  · rw [h.group_of_ne hi]
    exact SameInodes.refl _

theorem TakesAll.sameInodes (hg : g.Fits) (hinv : GroupsInv g bgs) (h : TakesAll g bgs ps bgs')
    (i : ℕ) : SameInodes g (bgs i) (bgs' i) := by
  induction h with
  | nil => exact SameInodes.refl _
  | cons head _ ih => exact (head.sameInodes hg hinv i).trans (ih (head.inv hinv))

theorem sameInodes_giveBack (hg : g.Fits) {i : ℕ} (hinv : GroupInv g i (bgs i))
    (hpos : 0 < (bgs i).firstFreeBlock) (j : ℕ) :
    SameInodes g (bgs j) (Function.update bgs i (bgs i).giveBack j) := by
  by_cases hj : j = i
  · subst hj
    rw [Function.update_self]
    refine ⟨rfl, rfl, rfl, rfl, rfl, rfl, fun c hc => ?_⟩
    have hend := hinv.end_le
    have hbpg := hg.blocksPerGroup_le
    change ((bgs j).bitmaps.andNotBit ((bgs j).firstFreeBlock - 1)).bit c = _
    have hne : c ≠ (bgs j).firstFreeBlock - 1 := by omega
    rw [bit_andNotBit]
    simp [hne]
  · rw [Function.update_of_ne hj]
    exact SameInodes.refl _

end Blocks

/-! ## Inodes are reserved, blocks stay -/

/-- Group `bg` after `num` inodes have been reserved, `bitmaps` being the new bitmaps. -/
def BlockGroupInfo.reserve (bg : BlockGroupInfo) (num : ℕ) (bitmaps : Mem) : BlockGroupInfo :=
  { bg with
    bitmaps := bitmaps
    firstFreeInode := bg.firstFreeInode + num
    freeInodes := bg.freeInodes - num }

/-- `bg'` is group `bg` with its next `num` inodes reserved. -/
structure ReservesInodes (g : Geometry) (num : ℕ) (bg bg' : BlockGroupInfo) : Prop where
  le : num ≤ bg.freeInodes
  eq : ∃ bitmaps, SetsRange bg.bitmaps bitmaps (8 * g.info.blockSize + (bg.firstFreeInode - 1))
      (8 * g.info.blockSize + (bg.firstFreeInode - 1) + num) ∧ bg' = bg.reserve num bitmaps

namespace ReservesInodes

variable {g : Geometry} {num : ℕ} {bg bg' : BlockGroupInfo}

theorem sameBlocks (hg : g.Fits) (h : ReservesInodes g num bg bg') : SameBlocks g bg bg' := by
  obtain ⟨-, bitmaps, hset, rfl⟩ := h
  refine ⟨rfl, rfl, rfl, fun b hb => ?_, rfl, rfl, rfl⟩
  have hbpg := hg.blocksPerGroup_le
  change bitmaps.bit b = _
  rw [hset b, decide_eq_false (by omega), Bool.or_false]

theorem inv (h : ReservesInodes g num bg bg') (hinv : InodesInv g bg) : InodesInv g bg' := by
  obtain ⟨hle, bitmaps, hset, rfl⟩ := h
  have hsum := hinv.sum
  have hpos := hinv.pos
  refine ⟨?_, hpos.trans (Nat.le_add_right _ _), ?_, hinv.flags, ?_⟩
  · change bg.firstFreeInode + num + (bg.freeInodes - num) = _
    omega
  · intro k hk
    change bitmaps.bit _ = decide (k + 1 < bg.firstFreeInode + num)
    rw [hset, hinv.used k hk, ← Bool.decide_or]
    exact decide_eq_decide.mpr (by omega)
  · intro k hk
    exact hinv.unused k ((Nat.le_add_right _ _).trans hk)

end ReservesInodes

section Code

variable {g : Geometry}

theorem reserveInodesLoop_spec (hn : g.Numbered) {first : ℕ} (hpos : 1 ≤ first) (left : ℕ) :
    ∀ (i : ℕ) (bitmaps : Mem), first + i + left ≤ g.info.inodesPerGroup + 1 →
      ∃ bitmaps', reserveInodesLoop g first left i bitmaps = .ok bitmaps' ∧
        SetsRange bitmaps bitmaps' (8 * g.info.blockSize + (first - 1) + i)
          (8 * g.info.blockSize + (first - 1) + i + left) := by
  have hipg := hn.inodesPerGroup_le
  have hlt := g.info.inodesPerGroup_lt
  induction left with
  | zero => exact fun i bitmaps _ => ⟨bitmaps, rfl, SetsRange.refl _ _⟩
  | succ left ih =>
      intro i bitmaps hend
      have hinode : sub32 (u32 (first + i)) 1 = first - 1 + i := by
        rw [u32_of_lt (by omega), sub32_of_le (by omega) (by omega)]
        omega
      have hcap : ¬ g.bitmapsSize ≤ g.info.blockSize + (first - 1 + i) / 8 := by
        unfold Geometry.bitmapsSize
        omega
      obtain ⟨bitmaps', hrun, hset⟩ := ih (i + 1)
        (bitmaps.orBit (8 * g.info.blockSize + (first - 1 + i))) (by omega)
      refine ⟨bitmaps', ?_, ?_⟩
      · simp only [reserveInodesLoop, hinode]
        rw [if_neg hcap]
        exact hrun
      · have hfirst := SetsRange.orBit bitmaps (8 * g.info.blockSize + (first - 1 + i))
        rw [← Nat.add_assoc] at hfirst hset
        rw [Nat.add_comm left 1, ← Nat.add_assoc]
        exact hfirst.trans hset (Nat.le_succ _) (Nat.le_add_right _ _)

/-- `reserve_inodes` on a group that has enough. -/
theorem reserveInodes_of_le (hn : g.Numbered) {s : State} {i num : ℕ} (hi : i < g.aux.groups)
    (hinv : InodesInv g (s.bgs i)) (hnum : num ≤ (s.bgs i).freeInodes) :
    ∃ bg, ReservesInodes g num (s.bgs i) bg ∧
      reserveInodes g i num s = .ok ((s.bgs i).firstFreeInode, s.setBg i bg) := by
  have hsum := hinv.sum
  have hipg := hn.inodesPerGroup_lt hi
  obtain ⟨bitmaps, hrun, hset⟩ := reserveInodesLoop_spec hn hinv.pos num 0 (s.bgs i).bitmaps
    (by omega)
  refine ⟨_, ⟨hnum, bitmaps, by simpa using hset, rfl⟩, ?_⟩
  unfold reserveInodes getFreeInodes
  simp only
  rw [if_neg (not_lt.mpr hnum), hrun, bind_ok, u32_of_lt (by omega)]
  rfl

theorem reserveInodes_of_gt {s : State} {i num : ℕ} (hnum : (s.bgs i).freeInodes < num) :
    reserveInodes g i num s = .ok (EXT4_ALLOCATE_FAILED, s) := if_pos hnum

/-- What `allocate_inode` has done when it returns `n`. -/
structure AllocatesInode (g : Geometry) (s : State) (n : ℕ) (s' : State) : Prop where
  hasInode : g.HasInode n
  index : g.indexOf n + 1 = (s.bgs (g.groupOf n)).firstFreeInode
  full : ∀ j < g.groupOf n, (s.bgs j).freeInodes = 0
  eq : ∃ bg, ReservesInodes g 1 (s.bgs (g.groupOf n)) bg ∧ s' = s.setBg (g.groupOf n) bg

theorem allocateInodeLoop_cases (hn : g.Numbered) {s s' : State} {n : ℕ}
    (hinv : ∀ i < g.aux.groups, InodesInv g (s.bgs i)) (left : ℕ) : ∀ i : ℕ,
      i + left = g.aux.groups → (∀ j < i, (s.bgs j).freeInodes = 0) →
      allocateInodeLoop g left i s = .ok (n, s') →
      n = EXT4_ALLOCATE_FAILED ∧ s' = s ∧ (∀ j < g.aux.groups, (s.bgs j).freeInodes = 0) ∨
        AllocatesInode g s n s' := by
  induction left with
  | zero =>
      intro i hi hfull hrun
      cases hrun
      exact .inl ⟨rfl, rfl, fun j hj => hfull j (by omega)⟩
  | succ left ih =>
      intro i hi hfull hrun
      rw [allocateInodeLoop] at hrun
      rcases Nat.eq_zero_or_pos (s.bgs i).freeInodes with hzero | hfree
      · rw [reserveInodes_of_gt (by omega), bind_ok] at hrun
        simp only [ne_eq, not_true_eq_false, if_false] at hrun
        refine ih (i + 1) (by omega) (fun j hj => ?_) hrun
        rcases Nat.lt_succ_iff_lt_or_eq.mp hj with hlt | rfl
        · exact hfull j hlt
        · exact hzero
      · right
        have hgroup := hinv i (by omega)
        have hsum := hgroup.sum
        have hpos := hgroup.pos
        obtain ⟨bg, hreserves, hreserve⟩ := reserveInodes_of_le hn (by omega) hgroup hfree
        have hipg := hn.inodesPerGroup_lt (i := i) (by omega)
        have hne : (s.bgs i).firstFreeInode ≠ EXT4_ALLOCATE_FAILED := by
          unfold EXT4_ALLOCATE_FAILED
          omega
        rw [hreserve, bind_ok] at hrun
        simp only [ne_eq, hne, not_false_eq_true, if_true, Except.ok.injEq, Prod.mk.injEq] at hrun
        obtain ⟨hnum, hs'⟩ := hrun
        obtain ⟨hhas, hgroupOf, hindexOf⟩ := Geometry.hasInode_of_lt (g := g) (i := i)
          (k := (s.bgs i).firstFreeInode - 1) (by omega) (by omega)
        have hsucc : i * g.info.inodesPerGroup + ((s.bgs i).firstFreeInode - 1) + 1 =
            i * g.info.inodesPerGroup + (s.bgs i).firstFreeInode := by omega
        rw [hsucc] at hhas hgroupOf hindexOf
        have hlt := hhas.lt hn
        unfold EXT4_ALLOCATE_FAILED at hlt
        rw [u32_of_lt (by omega)] at hnum
        subst hnum
        refine ⟨hhas, ?_, ?_, bg, ?_, ?_⟩
        · rw [hindexOf, hgroupOf]
          omega
        · rw [hgroupOf]
          exact hfull
        · rwa [hgroupOf]
        · rw [hgroupOf]
          exact hs'.symm

/-- `allocate_inode` takes the first free inode, and fails only when there is none. -/
theorem allocateInode_cases (hn : g.Numbered) {s s' : State} {n : ℕ}
    (hinv : ∀ i < g.aux.groups, InodesInv g (s.bgs i)) (hrun : allocateInode g s = .ok (n, s')) :
    n = EXT4_ALLOCATE_FAILED ∧ s' = s ∧ (∀ j < g.aux.groups, (s.bgs j).freeInodes = 0) ∨
      AllocatesInode g s n s' :=
  allocateInodeLoop_cases hn hinv g.aux.groups 0 (Nat.zero_add _) (by simp) hrun

end Code

end SystemExtras.Ext4
