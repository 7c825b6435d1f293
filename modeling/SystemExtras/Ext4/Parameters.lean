import SystemExtras.Ext4.Geometry

/-!
# Parameters and the layout that follows from them

`make_ext4fs_internal` completes the parameters the user gave (`makeInfo`), and
`ext4_create_fs_aux_info` derives the layout.  A layout is sound when the groups
are those that the blocks fill, each of them has room for its own header, and no
more than the trailing part of a group was given up to get there (`Sound`).

The derivation looks at the size of the last group only, and takes it modulo
`blocks_per_group` from block zero, while groups are counted from
`first_data_block`.  With blocks of 1 KiB the two differ by one.  So a last group
that is full counts as one of a single block and is given up with its blocks left
in, and one that is a single block too small for its header is kept.  `sound_iff`
lists these cases, and those of groups that could not hold a header at all.
-/

namespace SystemExtras.Ext4

/-! ## The parameter part of `make_ext4fs_internal` -/

def computeBlockSize : ℕ := 4096

def computeJournalBlocks (len blockSize : ℕ) : ℕ :=
  let journalBlocks := u32 (divRoundUp64 len blockSize / 64)
  if journalBlocks < 1024 then 1024
  else if journalBlocks > 32768 then 32768 else journalBlocks

def computeBlocksPerGroup (blockSize : ℕ) : ℕ := u32 (blockSize * 8)

def computeInodes (len blockSize : ℕ) : ℕ := u32 (divRoundUp64 len blockSize / 4)

/-- The number of groups as the next two functions count them. -/
def blockGroups (len blockSize blocksPerGroup : ℕ) : ℕ :=
  divRoundUp32 (u32 (divRoundUp64 len blockSize)) blocksPerGroup

/-- `compute_inodes_per_group`: the inodes of a group, and the new value of
`info.inodes`.  It divides by the number of groups and by the number of inodes in
a block. -/
def computeInodesPerGroup (len blockSize blocksPerGroup inodes inodeSize : ℕ) :
    Option (ℕ × ℕ) :=
  let groups := blockGroups len blockSize blocksPerGroup
  let perBlock := blockSize / inodeSize
  if groups = 0 ∨ perBlock = 0 then none
  else
    let perGroup := u32 (perBlock * divRoundUp32 (divRoundUp32 inodes groups) perBlock)
    some (perGroup, u32 (perGroup * groups))

theorem computeInodesPerGroup_lt {len blockSize blocksPerGroup inodes inodeSize : ℕ} {r : ℕ × ℕ}
    (h : computeInodesPerGroup len blockSize blocksPerGroup inodes inodeSize = some r) :
    r.1 < 2 ^ 32 ∧ r.2 < 2 ^ 32 := by
  unfold computeInodesPerGroup at h
  simp only at h
  split at h
  · cases h
  · cases h
    exact ⟨u32_lt _, u32_lt _⟩

/-- `compute_bg_desc_reserve_blocks`.  The first product is one of 32 bits. -/
def computeBgDescReserveBlocks (len blockSize blocksPerGroup : ℕ) : ℕ :=
  let groups := blockGroups len blockSize blocksPerGroup
  let descBlocks := u32 (divRoundUp64 (groups * sizeofGroupDesc) blockSize)
  let reserve :=
    u32 (sub64 (divRoundUp64 (u32 (groups * 1024) * sizeofGroupDesc) blockSize) descBlocks)
  if reserve > blockSize / 4 then blockSize / 4 else reserve

theorem computeBgDescReserveBlocks_le (len blockSize blocksPerGroup : ℕ) :
    computeBgDescReserveBlocks len blockSize blocksPerGroup ≤ blockSize / 4 := by
  unfold computeBgDescReserveBlocks
  simp only
  split <;> omega

/-- `v`, or `d` where the user left it at zero. -/
def orDefault (v d : ℕ) : ℕ := if v = 0 then d else v

theorem orDefault_lt {v d w : ℕ} (hv : v < w) (hd : d < w) : orDefault v d < w := by
  unfold orDefault
  split <;> assumption

/-- The assignments to `info` at the beginning of `make_ext4fs_internal`, for a
length that is known; `none` is a division by zero. -/
def makeInfo (user : FsInfo) : Option FsInfo :=
  let blockSize := orDefault user.blockSize computeBlockSize
  -- `info.len &= ~((u64)info.block_size - 1)`
  let len := user.len &&& (2 ^ 64 - blockSize)
  let journalBlocks := orDefault user.journalBlocks (computeJournalBlocks len blockSize)
  let blocksPerGroup := orDefault user.blocksPerGroup (computeBlocksPerGroup blockSize)
  let inodes := orDefault user.inodes (computeInodes len blockSize)
  let inodeSize := orDefault user.inodeSize 256
  if blocksPerGroup = 0 then none
  else
    match h : computeInodesPerGroup len blockSize blocksPerGroup inodes inodeSize with
    | none => none
    | some (inodesPerGroup, inodes) => some {
        len := len
        blockSize := blockSize
        blocksPerGroup := blocksPerGroup
        inodesPerGroup := inodesPerGroup
        inodeSize := inodeSize
        inodes := inodes
        journalBlocks := if user.noJournal then 0 else journalBlocks
        featRoCompat := user.featRoCompat ||| (EXT4_FEATURE_RO_COMPAT_SPARSE_SUPER |||
          EXT4_FEATURE_RO_COMPAT_LARGE_FILE ||| EXT4_FEATURE_RO_COMPAT_GDT_CSUM)
        featCompat := (if user.noJournal then user.featCompat
          else EXT4_FEATURE_COMPAT_HAS_JOURNAL) |||
            (EXT4_FEATURE_COMPAT_RESIZE_INODE ||| EXT4_FEATURE_COMPAT_EXT_ATTR)
        featIncompat := user.featIncompat |||
          (EXT4_FEATURE_INCOMPAT_EXTENTS ||| EXT4_FEATURE_INCOMPAT_FILETYPE)
        bgDescReserveBlocks := computeBgDescReserveBlocks len blockSize blocksPerGroup
        label := user.label
        noJournal := user.noJournal
        inRange := by
          have hbs : blockSize < 2 ^ 32 := orDefault_lt user.blockSize_lt (by decide)
          have hreserve := computeBgDescReserveBlocks_le len blockSize blocksPerGroup
          refine ⟨Nat.and_le_left.trans_lt user.len_lt, hbs,
            orDefault_lt user.blocksPerGroup_lt (u32_lt _), (computeInodesPerGroup_lt h).1,
            orDefault_lt user.inodeSize_lt (by decide), (computeInodesPerGroup_lt h).2, ?_,
            Nat.or_lt_two_pow user.featRoCompat_lt (by decide), ?_,
            Nat.or_lt_two_pow user.featIncompat_lt (by decide), by omega⟩
          · split
            · decide
            · refine orDefault_lt user.journalBlocks_lt ?_
              unfold computeJournalBlocks
              simp only
              split
              · decide
              · split
                · decide
                · exact u32_lt _
          · refine Nat.or_lt_two_pow ?_ (by decide)
            split
            · exact user.featCompat_lt
            · decide }

/-- What the layout relies on in the completed parameters. -/
theorem reserve_le_of_makeInfo {user info : FsInfo} (h : makeInfo user = some info) :
    info.bgDescReserveBlocks ≤ info.blockSize / 4 := by
  unfold makeInfo at h
  simp only at h
  split at h
  · cases h
  · split at h
    · cases h
    · cases h
      exact computeBgDescReserveBlocks_le _ _ _

/-! ## Sound layouts -/

namespace FsInfo

variable (info : FsInfo)

/-- The number of groups that the blocks of the device fill. -/
def groupCount : ℕ := (info.rawLenBlocks - info.firstDataBlock) ⌈/⌉ info.blocksPerGroup

/-- The number of blocks that the header of group `i` takes. -/
def headerSize (i : ℕ) : ℕ :=
  2 + info.inodeTableBlocks + if ext4BgHasSuperBlock info.featRoCompat i then
    1 + info.bgDescBlocks + info.bgDescReserveBlocks else 0

/-- What the layout `aux` has to be: the groups are those that the remaining
blocks fill, each of them has room for its header, and no more has been given up
than the trailing part of a group. -/
structure Sound (aux : FsAuxInfo) : Prop where
  groups_pos : 1 ≤ aux.groups
  groups_eq : aux.groups = (aux.lenBlocks - aux.firstDataBlock) ⌈/⌉ info.blocksPerGroup
  header_le : ∀ i < aux.groups, info.headerSize i ≤ info.blocksPerGroup ∧
    aux.firstDataBlock + i * info.blocksPerGroup + info.headerSize i ≤ aux.lenBlocks
  lenBlocks_le : aux.lenBlocks ≤ info.rawLenBlocks
  given_up : info.rawLenBlocks < aux.lenBlocks + info.blocksPerGroup ∧
    info.groupCount ≤ aux.groups + 1

/-- The parameters that give a sound layout.  `r` is what the code takes for the
size of the last group.  If it gives that group up, there must be another, the
group must not have been a full one (with 1 KiB blocks and `r = 1`), and the new
last group must hold its header.  If it keeps the group, either the group is as
full as it can be and holds its header, or the header has not exactly `r` blocks
(with 1 KiB blocks the group has only `r - 1`).  Every other group is full. -/
def LaysOut : Prop :=
  let n := info.groupCount
  let r := info.rawLenBlocks % info.blocksPerGroup
  info.DropsLastGroup ∧ 2 ≤ n ∧ n ≤ 2 ^ 32 ∧ r ≠ info.firstDataBlock ∧
      info.headerSize (n - 2) + info.firstDataBlock ≤ info.blocksPerGroup ∧
      (3 ≤ n → info.headerSize 0 ≤ info.blocksPerGroup) ∨
    ¬ info.DropsLastGroup ∧ n < 2 ^ 32 ∧
      (r = 0 → info.headerSize (n - 1) + info.firstDataBlock ≤ info.blocksPerGroup) ∧
      (r ≠ 0 → ¬ (info.firstDataBlock = 1 ∧ r = info.headerSize (n - 1))) ∧
      (2 ≤ n → info.headerSize 0 ≤ info.blocksPerGroup)

instance : Decidable info.LaysOut := inferInstanceAs (Decidable (_ ∨ _))

end FsInfo

/-- Counting groups when the blocks from zero on are `q` groups and `r` blocks. -/
theorem ceilDiv_sub {b q r f : ℕ} (hb : 2 ≤ b) (hr : r < b) (hf : f ≤ 1) (hlt : f < q * b + r) :
    (q * b + r - f) ⌈/⌉ b = if f < r then q + 1 else q := by
  rw [Nat.ceilDiv_eq_add_pred_div]
  split
  · apply Nat.div_eq_of_lt_le
    · rw [Nat.add_mul]
      omega
    · rw [Nat.add_mul, Nat.add_mul]
      omega
  · apply Nat.div_eq_of_lt_le
    · omega
    · rw [Nat.add_mul]
      omega

namespace FsInfo

variable {info : FsInfo}

theorem two_le_headerSize (i : ℕ) : 2 ≤ info.headerSize i := by
  unfold headerSize
  omega

/-- Group `0` has a copy, and so no header is larger than its. -/
theorem headerSize_le_zero (i : ℕ) : info.headerSize i ≤ info.headerSize 0 := by
  have hzero : ext4BgHasSuperBlock info.featRoCompat 0 = true := by
    unfold ext4BgHasSuperBlock
    split
    · rfl
    · rw [if_pos (Or.inl (by decide))]
  unfold headerSize
  rw [if_pos hzero]
  split <;> omega

/-- All headers fit when that of the last group does and, if there are more
groups, the largest does. -/
theorem headers_iff {b f n len : ℕ} (hn : 1 ≤ n) :
    (∀ i < n, info.headerSize i ≤ b ∧ f + i * b + info.headerSize i ≤ len) ↔
      (info.headerSize (n - 1) ≤ b ∧ f + (n - 1) * b + info.headerSize (n - 1) ≤ len) ∧
        (2 ≤ n → info.headerSize 0 ≤ b) := by
  constructor
  · intro h
    exact ⟨h (n - 1) (by omega), fun _ => (h 0 (by omega)).1⟩
  · rintro ⟨hlast, hfull⟩ i hi
    rcases Nat.lt_or_ge (i + 1) n with hlt | hge
    · have hsize := (headerSize_le_zero i).trans (hfull (by omega))
      have hmul : (i + 1) * b ≤ (n - 1) * b := Nat.mul_le_mul_right b (by omega)
      rw [Nat.add_mul] at hmul
      exact ⟨hsize, by omega⟩
    · obtain rfl : i = n - 1 := by omega
      exact hlast

section Derived

variable (hbs : 1024 ≤ info.blockSize) (hreserve : info.bgDescReserveBlocks ≤ info.blockSize / 4)

include hbs hreserve

/-- The size of a header is computed without wrapping. -/
theorem headerSize_lt (i : ℕ) : info.headerSize i < 2 ^ 32 := by
  have hlt := info.blockSize_lt
  have htable : info.inodeTableBlocks < 2 ^ 22 := by
    rw [inodeTableBlocks, divRoundUp32, Nat.div_lt_iff_lt_mul (by omega)]
    exact (u32_lt _).trans_le (by omega)
  have hdesc : info.bgDescBlocks < 2 ^ 28 := by
    have hgroups : info.rawGroups < 2 ^ 32 := u32_lt _
    rw [bgDescBlocks, divRoundUp64, sizeofGroupDesc, u64_of_lt (by omega)]
    refine (Nat.mod_le _ _).trans_lt ((Nat.div_lt_iff_lt_mul (by omega)).mpr ?_)
    omega
  unfold headerSize
  split <;> omega

theorem lastHeaderSize_eq : info.lastHeaderSize = info.headerSize (sub32 info.rawGroups 1) := by
  have hlt := headerSize_lt hbs hreserve (sub32 info.rawGroups 1)
  unfold lastHeaderSize
  unfold headerSize at hlt ⊢
  simp only
  split
  · rename_i hsuper
    rw [if_pos hsuper] at hlt
    rw [u32_of_lt (by omega : 2 + info.inodeTableBlocks < 2 ^ 32), u32_of_lt hlt]
  · rename_i hsuper
    rw [if_neg hsuper] at hlt
    rw [u32_of_lt (by omega), Nat.add_zero]

end Derived

theorem rawGroups_eq (hpos : 0 < info.blocksPerGroup)
    (hlen : info.firstDataBlock < info.rawLenBlocks) :
    info.rawGroups = u32 info.groupCount := by
  have hraw := info.rawLenBlocks_lt
  have hbpg := info.blocksPerGroup_lt
  unfold rawGroups groupCount
  rw [sub64_of_le (by omega) (by omega), divRoundUp64_eq (by omega)]

theorem groupCount_pos (hb : 0 < info.blocksPerGroup)
    (hlen : info.firstDataBlock < info.rawLenBlocks) : 1 ≤ info.groupCount := by
  unfold groupCount
  rw [Nat.ceilDiv_eq_add_pred_div, Nat.one_le_div_iff hb]
  omega

/-- The groups, counted from block zero. -/
theorem groupCount_eq (hb : 2 ≤ info.blocksPerGroup)
    (hlen : info.firstDataBlock < info.rawLenBlocks) :
    info.groupCount = if info.firstDataBlock < info.rawLenBlocks % info.blocksPerGroup then
      info.rawLenBlocks / info.blocksPerGroup + 1
      else info.rawLenBlocks / info.blocksPerGroup := by
  have hdiv := Nat.div_add_mod' info.rawLenBlocks info.blocksPerGroup
  have hcount := ceilDiv_sub (q := info.rawLenBlocks / info.blocksPerGroup) hb
    (Nat.mod_lt info.rawLenBlocks (by omega)) info.firstDataBlock_le (by omega)
  rw [hdiv] at hcount
  exact hcount

/-- The room of a last group of `h` header blocks that is kept, by what the code
takes for its size. -/
theorem last_iff {b q r f h n : ℕ} (hr : r < b) (hf : f ≤ 1) (hlt : f < q * b + r) (hh : 2 ≤ h)
    (hkeep : ¬ (0 < r ∧ r < h)) (hn : 2 ≤ b → n = if f < r then q + 1 else q) :
    (h ≤ b ∧ f + (n - 1) * b + h ≤ q * b + r) ↔
      (r = 0 → h + f ≤ b) ∧ (r ≠ 0 → ¬ (f = 1 ∧ r = h)) := by
  by_cases hb : b < 2
  · -- such a group holds no header, whatever its place
    exact iff_of_false (by omega) (by omega)
  rw [hn (by omega)]
  by_cases hzero : r = 0
  · subst hzero
    obtain ⟨k, rfl⟩ : ∃ k, q = k + 1 := by
      refine Nat.exists_eq_succ_of_ne_zero ?_
      rintro rfl
      omega
    rw [if_neg (Nat.not_lt_zero f), Nat.add_sub_cancel, Nat.add_mul]
    omega
  · rw [if_pos (by omega), Nat.add_sub_cancel]
    omega

section Layout

variable {aux : FsAuxInfo} (haux : ext4CreateFsAuxInfo info = some aux)
  (hbs : 1024 ≤ info.blockSize) (hreserve : info.bgDescReserveBlocks ≤ info.blockSize / 4)
  (hlen : info.firstDataBlock < info.rawLenBlocks)

include haux hbs hreserve hlen

/-- A layout in which the last group was kept. -/
theorem sound_iff_of_keeps (hkeep : ¬ info.DropsLastGroup) : info.Sound aux ↔ info.LaysOut := by
  have hof := FsAuxInfo.of_create haux
  have hb := hof.blocksPerGroup_pos
  have hpos := groupCount_pos hb hlen
  have hgroups : aux.groups = u32 info.groupCount := by
    rw [hof.groups, if_neg hkeep, rawGroups_eq hb hlen]
  have hblocks : aux.lenBlocks = info.rawLenBlocks := by rw [hof.lenBlocks, if_neg hkeep]
  have hdiv := Nat.div_add_mod' info.rawLenBlocks info.blocksPerGroup
  have hlast : info.groupCount < 2 ^ 32 → _ := fun hlt =>
    last_iff (h := info.headerSize (info.groupCount - 1)) (n := info.groupCount)
      (Nat.mod_lt info.rawLenBlocks hb) info.firstDataBlock_le
      (q := info.rawLenBlocks / info.blocksPerGroup) (by omega) (two_le_headerSize _)
      (by
        have hheader : info.lastHeaderSize = info.headerSize (info.groupCount - 1) := by
          rw [lastHeaderSize_eq hbs hreserve, rawGroups_eq hb hlen, u32_of_lt hlt,
            sub32_of_le hpos hlt]
        rw [DropsLastGroup, hheader, info.lastGroupSize_eq hb] at hkeep
        exact hkeep)
      (fun htwo => groupCount_eq htwo hlen)
  rw [hdiv] at hlast
  unfold LaysOut
  simp only [hkeep, false_and, false_or, not_false_eq_true, true_and]
  constructor
  · intro hsound
    have hlt : info.groupCount < 2 ^ 32 := by
      have heq := hsound.groups_eq
      rw [hgroups, hblocks, hof.firstDataBlock] at heq
      calc info.groupCount = u32 info.groupCount := heq.symm
        _ < 2 ^ 32 := u32_lt _
    have hheaders := hsound.header_le
    rw [hgroups, u32_of_lt hlt, hblocks, hof.firstDataBlock, headers_iff hpos,
      hlast hlt] at hheaders
    exact ⟨hlt, hheaders.1.1, hheaders.1.2, hheaders.2⟩
  · rintro ⟨hlt, hwhole, hpart, hfull⟩
    rw [u32_of_lt hlt] at hgroups
    refine ⟨by omega, ?_, ?_, hblocks.le, by omega, by omega⟩
    · rw [hgroups, hblocks, hof.firstDataBlock]
      rfl
    · rw [hgroups, hblocks, hof.firstDataBlock, headers_iff hpos, hlast hlt]
      exact ⟨⟨hwhole, hpart⟩, hfull⟩

omit hbs hreserve in
/-- A layout in which the last group was given up. -/
theorem sound_iff_of_drops (hdrop : info.DropsLastGroup) : info.Sound aux ↔ info.LaysOut := by
  have hof := FsAuxInfo.of_create haux
  have hb := hof.blocksPerGroup_pos
  have hr : 0 < info.rawLenBlocks % info.blocksPerGroup := by
    have hpos := hdrop.1
    rwa [info.lastGroupSize_eq hb] at hpos
  have hmod := Nat.mod_lt info.rawLenBlocks hb
  have hcount := groupCount_eq (show 2 ≤ info.blocksPerGroup by omega) hlen
  have hf := info.firstDataBlock_le
  have hdiv := Nat.div_add_mod' info.rawLenBlocks info.blocksPerGroup
  have hgroups : aux.groups = sub32 (u32 info.groupCount) 1 := by
    rw [hof.groups, if_pos hdrop, rawGroups_eq hb hlen]
  have hblocks : aux.lenBlocks =
      info.rawLenBlocks / info.blocksPerGroup * info.blocksPerGroup := by
    rw [hof.lenBlocks, if_pos hdrop, info.sub_lastGroupSize hb]
    omega
  obtain ⟨q, hq⟩ : ∃ q, info.rawLenBlocks / info.blocksPerGroup = q := ⟨_, rfl⟩
  obtain ⟨r, hrest⟩ : ∃ r, info.rawLenBlocks % info.blocksPerGroup = r := ⟨_, rfl⟩
  rw [hq, hrest] at hcount hdiv
  rw [hrest] at hr hmod
  rw [hq] at hblocks
  -- the groups that remain are counted from block zero too
  have hremain : 1 ≤ q → (aux.lenBlocks - aux.firstDataBlock) ⌈/⌉ info.blocksPerGroup = q := by
    intro hone
    have hmul : info.blocksPerGroup ≤ q * info.blocksPerGroup := Nat.le_mul_of_pos_left _ hone
    have hceil := ceilDiv_sub (q := q) (r := 0) (f := info.firstDataBlock)
      (show 2 ≤ info.blocksPerGroup by omega) (by omega) hf (by omega)
    rw [hblocks, hof.firstDataBlock]
    simpa using hceil
  have hlast : 1 ≤ q → (info.headerSize (q - 1) ≤ info.blocksPerGroup ∧
      info.firstDataBlock + (q - 1) * info.blocksPerGroup + info.headerSize (q - 1) ≤
        q * info.blocksPerGroup ↔
      info.headerSize (q - 1) + info.firstDataBlock ≤ info.blocksPerGroup) := by
    intro hone
    obtain ⟨k, rfl⟩ : ∃ k, q = k + 1 := ⟨q - 1, by omega⟩
    rw [Nat.add_sub_cancel, Nat.add_mul]
    omega
  have hbound : aux.groups < 2 ^ 32 := by
    rw [hgroups]
    exact u32_lt _
  unfold LaysOut
  simp only [hdrop, true_and, not_true_eq_false, false_and, or_false, hrest]
  constructor
  · intro hsound
    have hone : 1 ≤ q := by
      by_contra hzero
      have hpos := hsound.groups_pos
      rw [hsound.groups_eq, hblocks, show q = 0 by omega] at hpos
      simp at hpos
    have heq : aux.groups = q := hsound.groups_eq.trans (hremain hone)
    have hmore : info.firstDataBlock < r := by
      -- a group that was full would have been counted among the `q`
      by_contra hnot
      rw [if_neg hnot] at hcount
      rw [heq, hcount, u32_of_lt (by omega), sub32_of_le hone (by omega)] at hgroups
      omega
    rw [if_pos hmore] at hcount
    have hheaders := hsound.header_le
    rw [heq, hblocks, hof.firstDataBlock, headers_iff hone, hlast hone] at hheaders
    rw [hcount]
    exact ⟨by omega, by omega, by omega, hheaders.1, fun h => hheaders.2 (by omega)⟩
  · rintro ⟨htwo, hle, hne, hheader, hfull⟩
    rw [if_pos (by omega)] at hcount
    rw [hcount] at htwo hle hheader hfull
    have hone : 1 ≤ q := by omega
    have heq : aux.groups = q := by
      rw [hgroups, hcount]
      unfold sub32 u32
      omega
    refine ⟨by omega, by rw [heq, hremain hone], ?_, by omega, by omega, by omega⟩
    rw [heq, hblocks, hof.firstDataBlock, headers_iff hone, hlast hone]
    exact ⟨hheader, fun h => hfull (by omega)⟩

/-- **When the derived layout is sound.** -/
theorem sound_iff_laysOut : info.Sound aux ↔ info.LaysOut := by
  by_cases hdrop : info.DropsLastGroup
  · exact sound_iff_of_drops haux hlen hdrop
  · exact sound_iff_of_keeps haux hbs hreserve hlen hdrop

end Layout

end FsInfo

/-- **When `ext4_create_fs_aux_info` leaves a sound layout**, for every set of
parameters that `make_ext4fs_internal` completes. -/
theorem sound_iff {user info : FsInfo} {aux : FsAuxInfo} (hmake : makeInfo user = some info)
    (haux : ext4CreateFsAuxInfo info = some aux) (hbs : 1024 ≤ info.blockSize)
    (hlen : info.firstDataBlock < info.rawLenBlocks) : info.Sound aux ↔ info.LaysOut :=
  FsInfo.sound_iff_laysOut haux hbs (reserve_le_of_makeInfo hmake) hlen

/-- The options `-b` and `-l` and nothing else. -/
def userInfo (blockSize len : ℕ) (hb : blockSize < 2 ^ 32 := by decide)
    (hl : len < 2 ^ 63 := by decide) : FsInfo :=
  { FsInfo.zero with
    blockSize := blockSize
    len := len
    inRange := ⟨hl, hb, FsInfo.zero.inRange.2.2⟩ }

/-- 64 MiB in blocks of 4 KiB. -/
def info64M : FsInfo := (makeInfo (userInfo 4096 (2 ^ 26))).get (by decide)

theorem sound_iff_64M : ∃ aux, ext4CreateFsAuxInfo info64M = some aux ∧ info64M.Sound aux := by
  have haux : (ext4CreateFsAuxInfo info64M).isSome = true := by decide
  refine ⟨_, (Option.some_get haux).symm, ?_⟩
  exact (sound_iff (Option.some_get _).symm (Option.some_get haux).symm (by decide)
    (by decide)).mpr (by decide)

/-- 16385 blocks of 1 KiB are two full groups behind the first block. -/
def info16M : FsInfo := (makeInfo (userInfo 1024 (16385 * 1024))).get (by decide)

/-- The second group is given up, but only one of its blocks. -/
theorem not_sound_16M : makeInfo (userInfo 1024 (16385 * 1024)) = some info16M ∧
    ∃ aux, ext4CreateFsAuxInfo info16M = some aux ∧
      info16M.firstDataBlock < info16M.rawLenBlocks ∧ ¬ info16M.Sound aux := by
  have haux : (ext4CreateFsAuxInfo info16M).map (fun aux => (aux.groups, aux.lenBlocks,
      aux.firstDataBlock)) = some (1, 16384, 1) := by decide
  obtain ⟨aux, hcreate, hvalues⟩ := Option.map_eq_some_iff.mp haux
  simp only [Prod.mk.injEq] at hvalues
  refine ⟨(Option.some_get _).symm, aux, hcreate, by decide, ?_⟩
  intro hsound
  have heq := hsound.groups_eq
  have hbpg : info16M.blocksPerGroup = 8192 := by decide
  rw [hvalues.1, hvalues.2.1, hvalues.2.2, hbpg] at heq
  revert heq
  decide

end SystemExtras.Ext4
