import SystemExtras.Ext4.FixupImage

/-!
# Where the copies of superblock and descriptors are

The builder and the fixup compute independently where the copies of a group go.
The builder counts blocks from `first_data_block` in 32 bits (`ext4_fill_in_sb`),
and puts the primary superblock apart (`ext4_queue_sb`); the fixup counts bytes
from zero in 64 bits and makes an exception for group `0`.

`update_writes` says what `update_superblocks_and_bg_desc` writes: the inode bitmaps
of the groups that it counts, and then the copies at the places it computes.
`copiesAgree_iff` compares these places with those of the builder.  With blocks of
1024 bytes the two differ by one block for every backup superblock, because the fixup
leaves `first_data_block` out.

The fixup works on the parameters that `ext4_parse_sb` makes of the superblock, so
the proof has two parts.  `sameCopies_iff` compares place by place, in terms of the
parameters read back; `sameCopies_iff_meet` says what reading back does to a geometry.
There either side may give up a last group: the builder before the superblock is
written (`droppedGroup`), or only the reader, for whom the header is another once
`inode_size` and the reserved blocks are cut to 16 bits (`narrowedGroup`).
-/

namespace SystemExtras.Ext4

open DevM

/-! ## The places of the builder -/

/-- The groups with copies. -/
def copyGroups (featRoCompat groups : ℕ) : List ℕ :=
  (List.range groups).filter fun i => ext4BgHasSuperBlock featRoCompat i

/-- `group_start_block`, which is computed in 32 bits. -/
def groupStartBlock (info : FsInfo) (aux : FsAuxInfo) (i : ℕ) : ℕ :=
  u32 (aux.firstDataBlock + u32 (i * info.blocksPerGroup))

/-- Where the builder puts the superblock of a group: `ext4_queue_sb` for the primary
one, `ext4_fill_in_sb` for the backups.  Chunks are queued by an `unsigned int`
block number. -/
def builtSbOffset (info : FsInfo) (aux : FsAuxInfo) (i : ℕ) : ℕ :=
  if i = 0 then
    if 1024 < info.blockSize then 0 * info.blockSize + 1024 else 1 * info.blockSize
  else u32 (groupStartBlock info aux i) * info.blockSize

/-- Where `ext4_fill_in_sb` puts the descriptors of a group. -/
def builtDescOffset (info : FsInfo) (aux : FsAuxInfo) (i : ℕ) : ℕ :=
  u32 (groupStartBlock info aux i + 1) * info.blockSize

/-- The copies in one group: offsets of the superblock and of the descriptors, and the
length of the descriptors. -/
structure GroupCopy where
  group : ℕ
  sb : ℕ
  desc : ℕ
  descLen : ℕ
  deriving DecidableEq, Repr

/-- The copies as the builder places them. -/
def builtCopies (info : FsInfo) (aux : FsAuxInfo) : List GroupCopy :=
  (copyGroups info.featRoCompat aux.groups).map fun i =>
    ⟨i, builtSbOffset info aux i, builtDescOffset info aux i,
      u32 (aux.bgDescBlocks * info.blockSize)⟩

/-- The copies as the fixup places them. -/
def fixupCopies (p : Fixup) : List GroupCopy :=
  (copyGroups p.info.featRoCompat p.aux.groups).map fun i =>
    ⟨i, sbOffset p i, descOffset p i, p.descLen⟩

/-- Offset and length of the two writes that make a copy. -/
def GroupCopy.places (c : GroupCopy) : List (ℕ × ℕ) := [(c.sb, Sb.size), (c.desc, c.descLen)]

/-! ## What is written -/

/-- A write of the inode bitmap of one of the groups that are counted. -/
def IsBitmapWrite (p : Fixup) (w : Write) : Prop :=
  ∃ i < p.numBlockGroups, w.place =
    (u64 ((Fixup.descField GroupDesc.bgInodeBitmap i).get p.bgDesc * p.info.blockSize),
      p.info.blockSize)

/-- On `d`, `update_superblocks_and_bg_desc` writes inode bitmaps and then the copies
where the fixup places them, all of them if it returns. -/
def UpdateWrites (p : Fixup) (d : Device) : Prop :=
  ∃ bitmaps copies,
    (updateSuperblocksAndBgDesc p .updatingSb false).writes d = bitmaps ++ copies ∧
    (∀ w ∈ bitmaps, IsBitmapWrite p w) ∧
    copies.map Write.place <+: (fixupCopies p).flatMap GroupCopy.places ∧
    ((updateSuperblocksAndBgDesc p .updatingSb false).result d = .ok () →
      copies.map Write.place = (fixupCopies p).flatMap GroupCopy.places)

section Writes

variable {p : Fixup}

theorem writes_writeBlock (d : Device) (n : ℕ) (block : Mem) :
    ∀ w ∈ (writeBlock p false n block).writes d,
      w.place = (u64 (n * p.info.blockSize), p.info.blockSize) := by
  intro w hw
  unfold writeBlock at hw
  rw [if_neg (by simp)] at hw
  simp only at hw
  split at hw
  · obtain rfl : w = _ := List.mem_singleton.mp hw
    rfl
  · cases hw

theorem writes_checkInodeBitmap (d : Device) {i : ℕ} (hi : i < p.numBlockGroups) :
    ∀ w ∈ (checkInodeBitmap p false i).writes d, IsBitmapWrite p w := by
  intro w hw
  unfold checkInodeBitmap at hw
  split at hw
  · cases hw
  · cases hblock : (DevM.query (readBlockBounded p
        ((Fixup.descField GroupDesc.bgInodeBitmap i).get p.bgDesc))).result d with
    | error e =>
        rw [(bind_of_error hblock).2] at hw
        cases hw
    | ok block =>
        rw [(bind_of_ok hblock).2] at hw
        rcases List.mem_append.mp hw with hw | hw
        · cases hw
        · split at hw
          · cases hw
          · split at hw
            · cases hw
            · dsimp only at hw
              split at hw
              · exact ⟨i, hi, writes_writeBlock _ _ _ w hw⟩
              · cases hw

theorem writes_checkInodeBitmaps (groups : List ℕ) :
    (∀ i ∈ groups, i < p.numBlockGroups) → ∀ d : Device,
      ∀ w ∈ (checkInodeBitmaps p false groups).writes d, IsBitmapWrite p w := by
  induction groups with
  | nil =>
      intro _ d w hw
      cases hw
  | cons i rest ih =>
      intro hlt d w hw
      obtain ⟨hi, hrest⟩ := List.forall_mem_cons.mp hlt
      rw [checkInodeBitmaps] at hw
      cases hone : (checkInodeBitmap p false i).result d with
      | error e =>
          rw [(bind_of_error hone).2] at hw
          exact writes_checkInodeBitmap d hi w hw
      | ok _ =>
          rw [(bind_of_ok hone).2] at hw
          rcases List.mem_append.mp hw with hw | hw
          · exact writes_checkInodeBitmap d hi w hw
          · exact ih hrest _ w hw

theorem plans_writeSb (d : Device) (off : ℕ) (sb : Mem) :
    Plans (writeSb off sb) d [(off, Sb.size)] := by
  unfold writeSb
  split
  · exact Plans.write
  · exact Plans.fail

/-- The last loop writes the copies in order. -/
theorem plans_writeCopies (bgDesc : Mem) (groups : List ℕ) : ∀ (sb : Mem) (d : Device),
    Plans (writeCopies p false bgDesc sb groups) d
      ((groups.filter fun i => ext4BgHasSuperBlock p.info.featRoCompat i).flatMap
        fun i => [(sbOffset p i, Sb.size), (descOffset p i, p.descLen)]) := by
  induction groups with
  | nil =>
      intro sb d
      exact Plans.pure
  | cons i rest ih =>
      intro sb d
      rw [writeCopies]
      by_cases hcopy : ext4BgHasSuperBlock p.info.featRoCompat i
      · rw [if_pos hcopy, List.filter_cons_of_pos hcopy, List.flatMap_cons]
        simp only [Bool.false_eq_true, if_false]
        refine (plans_writeSb d _ _).bind fun _ _ => ?_
        split
        · exact Plans.fail
        · exact Plans.write.bind fun _ _ => ih _ _
      · rw [if_neg hcopy, List.filter_cons_of_neg hcopy]
        exact ih sb d

/-- What follows the bitmaps: the checks, and the last loop. -/
theorem plans_copies (sb bgDesc : Mem) (d : Device) :
    Plans (if u32 (Sb.inodesCount.get sb + u32 (p.numBlockGroups * p.delta sb)) ≠
          u32 (p.newInodesPerGroup * p.numBlockGroups) then
        DevM.fail (.criticalError "Failed sanity check on new inode count\n")
      else if p.newInodesPerGroup % (p.info.blockSize / p.info.inodeSize) ≠ 0 then
        DevM.fail (.criticalError "Failed sanity check on new inode per group alignment\n")
      else writeCopies p false bgDesc (newSb p sb) (List.range p.aux.groups)) d
      ((fixupCopies p).flatMap GroupCopy.places) := by
  split
  · exact Plans.fail
  split
  · exact Plans.fail
  have hcopies := plans_writeCopies (p := p) bgDesc (List.range p.aux.groups) (newSb p sb) d
  rwa [fixupCopies, List.flatMap_map]

theorem update_writes (p : Fixup) (d : Device) : UpdateWrites p d := by
  unfold UpdateWrites updateSuperblocksAndBgDesc
  cases hsb : (DevM.query readSb).result d with
  | error e =>
      rw [(bind_of_error hsb).1, (bind_of_error hsb).2]
      exact ⟨[], [], rfl, by simp, List.nil_prefix, by simp⟩
  | ok sb =>
      rw [(bind_of_ok hsb).1, (bind_of_ok hsb).2, writes_query, final_query, List.nil_append]
      have hbitmaps := writes_checkInodeBitmaps (p := p) (List.range p.numBlockGroups)
        (fun _ => List.mem_range.mp) d
      cases hall : (checkInodeBitmaps p false (List.range p.numBlockGroups)).result d with
      | error e =>
          rw [(bind_of_error hall).1, (bind_of_error hall).2]
          exact ⟨_, [], (List.append_nil _).symm, hbitmaps, List.nil_prefix, by simp⟩
      | ok _ =>
          rw [(bind_of_ok hall).1, (bind_of_ok hall).2]
          refine ⟨_, _, rfl, hbitmaps, (plans_copies sb _ _).cut, (plans_copies sb _ _).done ()⟩

end Writes

/-! ## Agreement -/

/-- The fixup writes each copy over the one that the builder made, and nothing else
besides the inode bitmaps of the builder's groups. -/
structure CopiesAgree (info : FsInfo) (aux : FsAuxInfo) (p : Fixup) : Prop where
  places : List.Forall₂ (fun f b : GroupCopy => f.group = b.group ∧ f.sb = b.sb ∧
    f.desc = b.desc ∧ f.descLen ≤ b.descLen) (fixupCopies p) (builtCopies info aux)
  bitmaps : p.numBlockGroups ≤ aux.groups
  writes : ∀ d, UpdateWrites p d

/-- The parameters with the two members cut to 16 bits that the superblock has no
more room for. -/
def FsInfo.narrowed (info : FsInfo) : FsInfo :=
  { info with
    inodeSize := u16 info.inodeSize
    bgDescReserveBlocks := u16 info.bgDescReserveBlocks
    inRange := ⟨info.len_lt, info.blockSize_lt, info.blocksPerGroup_lt, info.inodesPerGroup_lt,
      (u16_lt _).trans (by decide), info.inodes_lt, info.journalBlocks_lt, info.featRoCompat_lt,
      info.featCompat_lt, info.featIncompat_lt, (u16_lt _).trans (by decide)⟩ }

/-- The geometries whose copies the fixup finds.  The block size is one that the
superblock can hold; the backups are where counting from zero and in 64 bits finds
them; `DIV_ROUND_UP` of all blocks counts no group that the builder has not; and a
last group that only the reader gives up has no copies. -/
structure CopiesMeet (info : FsInfo) (aux : FsAuxInfo) : Prop where
  blockSize : ∃ k, info.blockSize = 1024 * 2 ^ k
  backups : ∀ i ∈ copyGroups info.featRoCompat aux.groups, i ≠ 0 →
    1024 < info.blockSize ∧ i * info.blocksPerGroup + 1 < 2 ^ 32
  count : u32 (divRoundUp64 aux.lenBlocks info.blocksPerGroup) ≤ aux.groups
  lastGroup : ¬ info.DropsLastGroup → info.narrowed.DropsLastGroup →
    ext4BgHasSuperBlock info.featRoCompat (aux.groups - 1) = false

/-- The same in terms of the parameters read back. -/
structure SameCopies (info : FsInfo) (aux : FsAuxInfo) (p : Fixup) : Prop where
  groups : copyGroups p.info.featRoCompat p.aux.groups = copyGroups info.featRoCompat aux.groups
  blockSize : p.info.blockSize = info.blockSize
  descLen : p.descLen ≤ u32 (aux.bgDescBlocks * info.blockSize)
  backups : ∀ i ∈ copyGroups info.featRoCompat aux.groups, i ≠ 0 →
    1024 < info.blockSize ∧ i * info.blocksPerGroup + 1 < 2 ^ 32
  bitmaps : p.numBlockGroups ≤ aux.groups

section Agreement

variable {info : FsInfo} {aux : FsAuxInfo} {p : Fixup}

theorem mem_copyGroups {feat groups i : ℕ} :
    i ∈ copyGroups feat groups ↔ i < groups ∧ ext4BgHasSuperBlock feat i = true := by
  rw [copyGroups, List.mem_filter, List.mem_range]

/-- The first two groups always have copies. -/
theorem mem_copyGroups_of_le_one {feat groups i : ℕ} (hi : i < groups) (hone : i ≤ 1) :
    i ∈ copyGroups feat groups := by
  refine mem_copyGroups.mpr ⟨hi, ?_⟩
  unfold ext4BgHasSuperBlock
  split
  · rfl
  · rw [if_pos]
    interval_cases i <;> decide

theorem copyGroups_succ_eq_iff {feat groups : ℕ} :
    copyGroups feat groups = copyGroups feat (groups + 1) ↔
      ext4BgHasSuperBlock feat groups = false := by
  unfold copyGroups
  rw [List.range_succ, List.filter_append, List.self_eq_append_right, List.filter_eq_nil_iff]
  simp

/-- Groups lie inside the device, so their first byte is counted without overflow. -/
theorem group_mul_lt (hof : aux.Of info) (hbs : 1024 < info.blockSize) {i : ℕ}
    (hi : i < aux.groups) : i * info.blocksPerGroup * info.blockSize < 2 ^ 63 := by
  have hlen := info.rawLenBlocks_lt
  have hbpg := info.blocksPerGroup_lt
  have hfirst : info.firstDataBlock = 0 := if_pos hbs
  have hraw : info.rawGroups = u32 (info.rawLenBlocks ⌈/⌉ info.blocksPerGroup) := by
    rw [FsInfo.rawGroups, hfirst, sub64_of_le (Nat.zero_le _) (by omega), Nat.sub_zero,
      divRoundUp64_eq (by omega)]
  have hlt : i < info.rawLenBlocks ⌈/⌉ info.blocksPerGroup := by
    rw [hof.groups, hraw] at hi
    have hle : u32 (info.rawLenBlocks ⌈/⌉ info.blocksPerGroup) ≤
        info.rawLenBlocks ⌈/⌉ info.blocksPerGroup := Nat.mod_le _ _
    split at hi
    · rename_i hdrop
      -- a group is given up only if there is one
      have hpos : 0 < info.rawLenBlocks ⌈/⌉ info.blocksPerGroup := by
        have hsize := hdrop.1
        rw [info.lastGroupSize_eq hof.blocksPerGroup_pos] at hsize
        rw [Nat.pos_iff_ne_zero]
        intro hzero
        have hcover := le_smul_ceilDiv (b := info.rawLenBlocks) hof.blocksPerGroup_pos
        rw [hzero, smul_zero] at hcover
        rw [Nat.le_zero.mp hcover, Nat.zero_mod] at hsize
        exact lt_irrefl 0 hsize
      unfold sub32 u32 at hi
      unfold u32 at hle
      omega
    · omega
  have hblocks : i * info.blocksPerGroup < info.rawLenBlocks := by
    rw [Nat.ceilDiv_eq_add_pred_div, Nat.lt_div_iff_mul_lt hof.blocksPerGroup_pos] at hlt
    omega
  calc i * info.blocksPerGroup * info.blockSize
      ≤ info.rawLenBlocks * info.blockSize := Nat.mul_le_mul_right _ hblocks.le
    _ ≤ info.len := Nat.div_mul_le_self _ _
    _ < 2 ^ 63 := info.len_lt

/-- A backup is at the same place for both. -/
theorem backup_eq_iff (hof : aux.Of info) (hmin : 1024 ≤ info.blockSize)
    (hbs : p.info.blockSize = info.blockSize)
    (hbpg : p.info.blocksPerGroup = info.blocksPerGroup)
    (hfirst : p.aux.firstDataBlock = info.firstDataBlock) {i : ℕ} (hi : i < aux.groups)
    (hne : i ≠ 0) :
    sbOffset p i = builtSbOffset info aux i ∧ descOffset p i = builtDescOffset info aux i ↔
      1024 < info.blockSize ∧ i * info.blocksPerGroup + 1 < 2 ^ 32 := by
  unfold sbOffset descOffset builtSbOffset builtDescOffset groupStartBlock
  rw [if_neg hne, if_neg hne, hbs, hbpg, hfirst, hof.firstDataBlock, Nat.add_zero]
  by_cases hlarge : 1024 < info.blockSize
  · have hzero : info.firstDataBlock = 0 := if_pos hlarge
    have hlt := group_mul_lt hof hlarge hi
    have hbound := info.blockSize_lt
    have hcut : u64 (i * info.blocksPerGroup * info.blockSize) =
        i * info.blocksPerGroup * info.blockSize := u64_of_lt (by omega)
    rw [hzero, hcut, hcut, u64_of_lt (by omega), Nat.zero_add, Nat.zero_add, Nat.mul_one]
    generalize i * info.blocksPerGroup = n at *
    constructor
    · rintro ⟨hsb, hdesc⟩
      have hn : n = u32 (u32 (u32 n)) := Nat.eq_of_mul_eq_mul_right (by omega) hsb
      have hn' : n + 1 = u32 (u32 (u32 n) + 1) := by
        apply Nat.eq_of_mul_eq_mul_right (show 0 < info.blockSize by omega)
        rw [Nat.add_mul, Nat.one_mul, hdesc]
      refine ⟨hlarge, ?_⟩
      rw [hn']
      exact u32_lt _
    · rintro ⟨-, hn⟩
      rw [u32_of_lt (show n < 2 ^ 32 by omega), u32_of_lt (show n < 2 ^ 32 by omega),
        u32_of_lt (show n < 2 ^ 32 by omega), u32_of_lt hn, Nat.add_mul, Nat.one_mul]
      exact ⟨rfl, rfl⟩
  · -- the backup superblock is one block early, also where the arithmetic wraps around
    have hsize : info.blockSize = 1024 := by omega
    have hone : info.firstDataBlock = 1 := if_neg hlarge
    rw [hone, hsize]
    refine iff_of_false ?_ (by omega)
    rintro ⟨hsb, -⟩
    unfold u64 u32 at hsb
    omega

/-- What the fixup has read back from a superblock of the builder. -/
theorem readExt_fields {d : Device} (hsb : SbHolds (d.slice 1024 Sb.size) info aux)
    (hof : aux.Of info) (hread : readExt d = .ok p) :
    p.info.blocksPerGroup = info.blocksPerGroup ∧ p.info.featRoCompat = info.featRoCompat ∧
      p.aux.firstDataBlock = info.firstDataBlock := by
  obtain ⟨-, -, ⟨bs, len, hbs, hlen, -, -, hinfo⟩, -, hfirst⟩ :=
    ext4ParseSb_eq_ok.mp (readExt_eq_ok.mp hread).parse
  refine ⟨?_, ?_, ?_⟩
  · rw [hinfo]
    exact hsb.blocksPerGroup
  · rw [hinfo]
    show u16 _ = _
    rw [hsb.featRoCompat, u16_of_lt info.featRoCompat_lt]
  · have hle := info.firstDataBlock_le
    rw [hfirst, hsb.firstDataBlock, hof.firstDataBlock, u32_of_lt (by omega)]

/-- Group `0`: the superblock is at the same place for both, the descriptors are if the
block size has been read back. -/
theorem primary_eq_iff (hof : aux.Of info) (hmin : 1024 ≤ info.blockSize)
    (hfirst : p.aux.firstDataBlock = info.firstDataBlock) :
    sbOffset p 0 = builtSbOffset info aux 0 ∧
      (descOffset p 0 = builtDescOffset info aux 0 ↔ p.info.blockSize = info.blockSize) := by
  have hle := info.firstDataBlock_le
  have hbound := p.info.blockSize_lt
  have hdesc : p.info.blockSize * (info.firstDataBlock + 1) < 2 ^ 64 := by
    calc p.info.blockSize * (info.firstDataBlock + 1) ≤ p.info.blockSize * 2 :=
          Nat.mul_le_mul_left _ (by omega)
      _ < 2 ^ 64 := by omega
  unfold sbOffset descOffset builtSbOffset builtDescOffset groupStartBlock
  rw [if_pos rfl, if_pos rfl, hfirst, hof.firstDataBlock]
  simp only [Nat.zero_mul, Nat.zero_add, Nat.one_mul]
  rw [show u64 0 = 0 from rfl, show u32 0 = 0 from rfl, Nat.zero_add, Nat.zero_add,
    Nat.add_zero info.firstDataBlock, u64_of_lt (by decide), u64_of_lt hdesc,
    u32_of_lt (show info.firstDataBlock < 2 ^ 32 by omega), u32_of_lt (by omega), Nat.mul_comm]
  refine ⟨?_, Nat.mul_right_inj (by omega)⟩
  split
  · rfl
  · omega

/-- Place by place, in terms of the parameters read back. -/
theorem sameCopies_iff {d : Device} (hcreate : ext4CreateFsAuxInfo info = some aux)
    (hgroups : 1 ≤ aux.groups) (hmin : 1024 ≤ info.blockSize)
    (hsb : SbHolds (d.slice 1024 Sb.size) info aux) (hread : readExt d = .ok p) :
    CopiesAgree info aux p ↔ SameCopies info aux p := by
  have hof := FsAuxInfo.of_create hcreate
  obtain ⟨hbpg, hfeat, hfirst⟩ := readExt_fields hsb hof hread
  have hprimary := primary_eq_iff hof hmin hfirst
  have hzero : 0 ∈ copyGroups info.featRoCompat aux.groups :=
    mem_copyGroups_of_le_one hgroups (Nat.zero_le _)
  have hplaces : p.info.blockSize = info.blockSize →
      ∀ i ∈ copyGroups info.featRoCompat aux.groups,
        (sbOffset p i = builtSbOffset info aux i ∧ descOffset p i = builtDescOffset info aux i ↔
          (i ≠ 0 → 1024 < info.blockSize ∧ i * info.blocksPerGroup + 1 < 2 ^ 32)) := by
    intro hbs i hi
    by_cases hi0 : i = 0
    · subst hi0
      exact iff_of_true ⟨hprimary.1, hprimary.2.mpr hbs⟩ (absurd rfl)
    · rw [backup_eq_iff hof hmin hbs hbpg hfirst (mem_copyGroups.mp hi).1 hi0]
      simp [hi0]
  constructor
  · rintro ⟨hagree, hbitmaps, -⟩
    have hsame : copyGroups p.info.featRoCompat p.aux.groups =
        copyGroups info.featRoCompat aux.groups := by
      have hmap :
          (fixupCopies p).map GroupCopy.group = (builtCopies info aux).map GroupCopy.group := by
        rw [← List.forall₂_eq_eq_eq, List.forall₂_map_left_iff, List.forall₂_map_right_iff]
        exact hagree.imp fun _ _ h => h.1
      simpa [fixupCopies, builtCopies, Function.comp_def] using hmap
    rw [fixupCopies, builtCopies, hsame, List.forall₂_map_left_iff, List.forall₂_map_right_iff,
      List.forall₂_same] at hagree
    have hbs : p.info.blockSize = info.blockSize := hprimary.2.mp (hagree 0 hzero).2.2.1
    refine ⟨hsame, hbs, (hagree 0 hzero).2.2.2, fun i hi => ?_, hbitmaps⟩
    exact (hplaces hbs i hi).mp ⟨(hagree i hi).2.1, (hagree i hi).2.2.1⟩
  · intro hmeet
    refine ⟨?_, hmeet.bitmaps, update_writes p⟩
    rw [fixupCopies, builtCopies, hmeet.groups, List.forall₂_map_left_iff,
      List.forall₂_map_right_iff, List.forall₂_same]
    intro i hi
    obtain ⟨hsame, hsame'⟩ := (hplaces hmeet.blockSize i hi).mpr (hmeet.backups i hi)
    exact ⟨rfl, hsame, hsame', hmeet.descLen⟩

/-- Backups rule out small blocks, so with small blocks there is one group. -/
theorem groups_eq_one (hgroups : 1 ≤ aux.groups) (hbackups :
    ∀ i ∈ copyGroups info.featRoCompat aux.groups, i ≠ 0 →
      1024 < info.blockSize ∧ i * info.blocksPerGroup + 1 < 2 ^ 32)
    (hsmall : ¬ 1024 < info.blockSize) : aux.groups = 1 := by
  by_contra hne
  have hone : 1 ∈ copyGroups info.featRoCompat aux.groups :=
    mem_copyGroups_of_le_one (by omega) le_rfl
  exact hsmall (hbackups 1 hone (by decide)).1

end Agreement

/-! ## What reading back does to a geometry -/

/-- What the fixup has read back, once the block size is the builder's. -/
structure ReadsShape (info : FsInfo) (aux : FsAuxInfo) (p : Fixup) : Prop where
  shape : p.info.SameShape info.narrowed
  lenBlocks : p.info.rawLenBlocks = aux.lenBlocks
  of : p.aux.Of p.info
  descLen_lt : p.descLen < 2 ^ 31
  blockSize_lt : info.blockSize < 2 ^ 31

section Reading

variable {info : FsInfo} {aux : FsAuxInfo} {p : Fixup} {d : Device}

/-- The block size is read back if the superblock can hold it. -/
theorem blockSize_eq_iff (hmin : 1024 ≤ info.blockSize)
    (hsb : SbHolds (d.slice 1024 Sb.size) info aux) (hread : readExt d = .ok p) :
    p.info.blockSize = info.blockSize ↔ ∃ k, info.blockSize = 1024 * 2 ^ k := by
  obtain ⟨-, -, ⟨bs, len, hbs, hlen, hshift, -, hinfo⟩, -⟩ :=
    ext4ParseSb_eq_ok.mp (readExt_eq_ok.mp hread).parse
  obtain ⟨-, hshift⟩ := shiftBlockSize_eq_some.mp hshift
  rw [hsb.logBlockSize] at hshift
  have hsize : p.info.blockSize = 1024 * 2 ^ log_2 (info.blockSize / 1024) := by
    rw [hinfo, ← hshift]
    rfl
  constructor
  · intro h
    exact ⟨_, h.symm.trans hsize⟩
  · rintro ⟨k, hk⟩
    have hlt := info.blockSize_lt
    have hk32 : k < 32 := by
      by_contra hge
      have : 2 ^ 32 ≤ 2 ^ k := Nat.pow_le_pow_right (by decide) (not_lt.mp hge)
      omega
    rw [hsize, hk, Nat.mul_div_cancel_left _ (by decide), log_2_two_pow hk32]

theorem readsShape (hcreate : ext4CreateFsAuxInfo info = some aux)
    (hsb : SbHolds (d.slice 1024 Sb.size) info aux) (hread : readExt d = .ok p)
    (hsize : p.info.blockSize = info.blockSize) : ReadsShape info aux p := by
  have hext := readExt_eq_ok.mp hread
  obtain ⟨-, -, ⟨bs, len, hbs, hlen, hshift, hlenEq, hinfo⟩, haux, -⟩ :=
    ext4ParseSb_eq_ok.mp hext.parse
  obtain rfl : bs = info.blockSize := by
    rw [← hsize, hinfo]
    rfl
  have hmul := mul_lenBlocks_le hcreate
  have hpos := (FsAuxInfo.of_create hcreate).blockSize_pos
  have hlenlt := info.len_lt
  have hle := Nat.le_mul_of_pos_left aux.lenBlocks hpos
  have hlen : p.info.len = info.blockSize * aux.lenBlocks := by
    rw [hinfo]
    change len = _
    rw [hlenEq, hsb.lenBlocks, u64_of_lt (show aux.lenBlocks < 2 ^ 64 by omega),
      u64_of_lt (by omega)]
  refine ⟨?_, ?_, FsAuxInfo.of_create haux, hext.descLen_lt, ?_⟩
  · rw [hinfo]
    exact {
      blockSize := rfl
      blocksPerGroup := hsb.blocksPerGroup
      inodesPerGroup := hsb.inodesPerGroup
      inodeSize := hsb.inodeSize
      featRoCompat := (congrArg u16 hsb.featRoCompat).trans (u16_of_lt info.featRoCompat_lt)
      bgDescReserveBlocks := hsb.reservedGdtBlocks }
  · rw [FsInfo.rawLenBlocks, hlen, hsize, Nat.mul_div_cancel_left _ hpos]
  · obtain ⟨hlog, hpow⟩ := shiftBlockSize_eq_some.mp hshift
    rw [hpow]
    exact (Nat.mul_le_mul_left _ (Nat.pow_le_pow_right (by decide) (by omega))).trans_lt
      (show 1024 * 2 ^ 20 < 2 ^ 31 by decide)

end Reading

section Meet

variable {info : FsInfo} {aux : FsAuxInfo} {p : Fixup}

/-- One descriptor more takes at most one block more, which an `unsigned int` can count. -/
theorem descBlocks_le {g Q : ℕ} (hQ : 1 < Q) (hsize : sizeofGroupDesc * Q < 2 ^ 31)
    (hlt : sizeofGroupDesc * Q * ((u32 g + Q - 1) / Q) < 2 ^ 31) :
    sizeofGroupDesc * Q * ((u32 g + Q - 1) / Q) ≤
      u32 ((u32 (g + 1) + Q - 1) / Q * (sizeofGroupDesc * Q)) := by
  unfold sizeofGroupDesc at *
  have hceil : u32 g ≤ Q * ((u32 g + Q - 1) / Q) := by
    have hsplit := Nat.div_add_mod (u32 g + Q - 1) Q
    have hmod := Nat.mod_lt (u32 g + Q - 1) (show 0 < Q by omega)
    omega
  rw [Nat.mul_assoc] at hlt
  have hsucc : u32 (g + 1) = u32 g + 1 := by
    unfold u32 at *
    omega
  have hle : (u32 g + Q - 1) / Q ≤ (u32 g + 1 + Q - 1) / Q := Nat.div_le_div_right (by omega)
  have hupper : (u32 g + 1 + Q - 1) / Q ≤ (u32 g + Q - 1) / Q + 1 := by
    rw [← Nat.add_div_right _ (show 0 < Q by omega)]
    exact Nat.div_le_div_right (by omega)
  have hcut : (u32 g + 1 + Q - 1) / Q * (32 * Q) < 2 ^ 32 := by
    calc (u32 g + 1 + Q - 1) / Q * (32 * Q)
        ≤ ((u32 g + Q - 1) / Q + 1) * (32 * Q) := Nat.mul_le_mul_right _ hupper
      _ = 32 * (Q * ((u32 g + Q - 1) / Q)) + 32 * Q := by ring
      _ < 2 ^ 32 := by omega
  rw [hsucc, u32_of_lt hcut, Nat.mul_comm]
  exact Nat.mul_le_mul_right _ hle

namespace ReadsShape

variable (h : ReadsShape info aux p)
include h

/-- As long as the reader gives nothing up, both count the groups of the same length. -/
theorem numBlockGroups (hkeep : ¬ p.info.DropsLastGroup) :
    p.numBlockGroups = u32 (divRoundUp64 aux.lenBlocks info.blocksPerGroup) := by
  unfold Fixup.numBlockGroups
  rw [h.of.lenBlocks, if_neg hkeep, h.lenBlocks, h.shape.blocksPerGroup]
  rfl

/-- A reader gives up a group that the builder has kept if the narrowed members make it. -/
theorem dropsLastGroup_iff (hof : aux.Of info) (hkeep : ¬ info.DropsLastGroup) :
    p.info.DropsLastGroup ↔ info.narrowed.DropsLastGroup := by
  apply h.shape.dropsLastGroup
  rw [h.lenBlocks, hof.lenBlocks, if_neg hkeep]
  rfl

/-- The descriptors of a builder that has given nothing up. -/
theorem descLen (hof : aux.Of info) (hkeep : ¬ info.DropsLastGroup) :
    p.info.rawGroups = info.rawGroups ∧ p.descLen ≤ u32 (aux.bgDescBlocks * info.blockSize) := by
  have hraw : p.info.rawLenBlocks = info.narrowed.rawLenBlocks := by
    rw [h.lenBlocks, hof.lenBlocks, if_neg hkeep]
    rfl
  have hgroups := h.shape.rawGroups hraw
  have hdesc : p.descLen = aux.bgDescBlocks * info.blockSize := by
    rw [Fixup.descLen, h.of.bgDescBlocks, h.shape.bgDescBlocks hgroups, h.shape.blockSize,
      hof.bgDescBlocks, Nat.mul_comm]
    rfl
  have hlt := h.descLen_lt
  refine ⟨hgroups, ?_⟩
  rw [← hdesc, u32_of_lt (by omega)]

/-- The builder has given up its last group: the reader sees whole groups.  It counts those
of the builder, unless the remainder was the one block in front of group `0`. -/
theorem droppedGroup (hof : aux.Of info)
    (hsmall : ¬ 1024 < info.blockSize → aux.groups = 1) {k : ℕ}
    (hk : info.blockSize = 1024 * 2 ^ k) (hdrop : info.DropsLastGroup) :
    ¬ p.info.DropsLastGroup ∧ p.aux.groups = p.numBlockGroups ∧
      (p.numBlockGroups ≤ aux.groups → p.aux.groups = aux.groups ∧
        p.descLen ≤ u32 (aux.bgDescBlocks * info.blockSize)) := by
  have hpos := hof.blocksPerGroup_pos
  obtain ⟨hrem, htwo⟩ := hdrop.rem_pos hpos
  have hbpg : p.info.blocksPerGroup = info.blocksPerGroup := h.shape.blocksPerGroup
  have hraw : p.info.rawLenBlocks =
      info.rawLenBlocks / info.blocksPerGroup * p.info.blocksPerGroup := by
    have hsplit := Nat.div_add_mod info.rawLenBlocks info.blocksPerGroup
    rw [h.lenBlocks, hof.lenBlocks, if_pos hdrop, info.sub_lastGroupSize hpos, hbpg, Nat.mul_comm]
    omega
  have hkeep : ¬ p.info.DropsLastGroup := by
    rintro ⟨hsize, -⟩
    rw [p.info.lastGroupSize_eq h.of.blocksPerGroup_pos, hraw, Nat.mul_mod_left] at hsize
    exact lt_irrefl 0 hsize
  have hlen : p.aux.lenBlocks = p.info.rawLenBlocks := by rw [h.of.lenBlocks, if_neg hkeep]
  have hcount : p.numBlockGroups = u32 (info.rawLenBlocks / info.blocksPerGroup) := by
    unfold Fixup.numBlockGroups
    rw [hlen, hraw]
    exact count_of_mul p.info.blocksPerGroup_lt h.of.blocksPerGroup_pos
      (hraw ▸ p.info.rawLenBlocks_lt)
  have hrawGroups : p.info.rawGroups = u32 (info.rawLenBlocks / info.blocksPerGroup) :=
    FsInfo.rawGroups_of_mul h.of.blocksPerGroup_pos (hbpg ▸ htwo) hraw
  have hread : p.aux.groups = u32 (info.rawLenBlocks / info.blocksPerGroup) := by
    rw [h.of.groups, if_neg hkeep, hrawGroups]
  have hbuilt : aux.groups = sub32 info.rawGroups 1 := by rw [hof.groups, if_pos hdrop]
  refine ⟨hkeep, hread.trans hcount.symm, fun hle => ?_⟩
  -- with small blocks the remainder is not the one block, or there were two groups
  have hfirst : info.firstDataBlock < info.rawLenBlocks % info.blocksPerGroup := by
    by_contra hge
    have hfirst_le := info.firstDataBlock_le
    have hone : info.firstDataBlock = 1 := by omega
    have hone' := FsInfo.rawGroups_of_rem_one hpos hone (by omega)
    have hgroup : aux.groups = 1 := hsmall fun hlarge => by
      rw [FsInfo.firstDataBlock, if_pos hlarge] at hone
      cases hone
    rw [hcount, ← hone'] at hle
    rw [hbuilt] at hle hgroup
    unfold sub32 u32 at hle hgroup
    omega
  have hrem' := FsInfo.rawGroups_of_rem hpos hfirst
  generalize info.rawLenBlocks / info.blocksPerGroup = q at *
  refine ⟨?_, ?_⟩
  · rw [hread, hbuilt, hrem']
    unfold sub32 u32
    omega
  · -- one descriptor more takes at most one block more
    have hQ : 1 < 32 * 2 ^ k := by
      have : 0 < 2 ^ k := by positivity
      omega
    have hdesc : info.blockSize = sizeofGroupDesc * (32 * 2 ^ k) := by
      rw [hk]
      unfold sizeofGroupDesc
      omega
    have hsize : p.info.blockSize = sizeofGroupDesc * (32 * 2 ^ k) := h.shape.blockSize.trans hdesc
    have hlen : p.descLen = sizeofGroupDesc * (32 * 2 ^ k) *
        ((u32 q + 32 * 2 ^ k - 1) / (32 * 2 ^ k)) := by
      rw [Fixup.descLen, h.of.bgDescBlocks, p.info.bgDescBlocks_eq hQ hsize, hrawGroups, hsize]
    rw [hof.bgDescBlocks, info.bgDescBlocks_eq hQ hdesc, hrem', hdesc, hlen]
    exact descBlocks_le hQ (hdesc ▸ h.blockSize_lt) (hlen ▸ h.descLen_lt)

/-- Only the reader gives up the last group. -/
theorem narrowedGroup (hof : aux.Of info) (hgroups : 1 ≤ aux.groups)
    (hkeep : ¬ info.DropsLastGroup) (hdrop : p.info.DropsLastGroup) :
    p.aux.groups = aux.groups - 1 ∧ p.numBlockGroups ≤ aux.groups ∧
      (1024 < info.blockSize →
        u32 (divRoundUp64 aux.lenBlocks info.blocksPerGroup) ≤ aux.groups) := by
  have hpos := hof.blocksPerGroup_pos
  have hbpg : p.info.blocksPerGroup = info.blocksPerGroup := h.shape.blocksPerGroup
  have hlen : aux.lenBlocks = info.rawLenBlocks := by rw [hof.lenBlocks, if_neg hkeep]
  have hbuilt : aux.groups = info.rawGroups := by rw [hof.groups, if_neg hkeep]
  have hrem : 0 < info.rawLenBlocks % info.blocksPerGroup := by
    have hrem := (hdrop.rem_pos h.of.blocksPerGroup_pos).1
    rwa [h.lenBlocks, hlen, hbpg] at hrem
  have hread : p.aux.lenBlocks =
      info.rawLenBlocks / info.blocksPerGroup * p.info.blocksPerGroup := by
    have hsplit := Nat.div_add_mod info.rawLenBlocks info.blocksPerGroup
    rw [h.of.lenBlocks, if_pos hdrop, p.info.sub_lastGroupSize h.of.blocksPerGroup_pos,
      h.lenBlocks, hlen, hbpg, Nat.mul_comm]
    omega
  have hcount : p.numBlockGroups = u32 (info.rawLenBlocks / info.blocksPerGroup) := by
    unfold Fixup.numBlockGroups
    rw [hread, hbpg]
    exact count_of_mul info.blocksPerGroup_lt hpos
      ((Nat.div_mul_le_self _ _).trans_lt info.rawLenBlocks_lt)
  have hgroups' : p.aux.groups = aux.groups - 1 := by
    rw [h.of.groups, if_pos hdrop, (h.descLen hof hkeep).1, ← hbuilt,
      sub32_of_le hgroups (hbuilt ▸ u32_lt _)]
  refine ⟨hgroups', ?_, fun hlarge => ?_⟩
  · rw [hcount]
    by_cases hfirst : info.firstDataBlock < info.rawLenBlocks % info.blocksPerGroup
    · rw [hbuilt, FsInfo.rawGroups_of_rem hpos hfirst] at hgroups ⊢
      unfold u32 at *
      omega
    · have hfirst_le := info.firstDataBlock_le
      rw [hbuilt, FsInfo.rawGroups_of_rem_one hpos (by omega) (by omega)]
  · have hzero : info.firstDataBlock = 0 := if_pos hlarge
    rw [hlen, count_of_rem info.rawLenBlocks_lt info.blocksPerGroup_lt hpos hrem, hbuilt,
      FsInfo.rawGroups_of_rem hpos (hzero ▸ hrem)]

end ReadsShape

/-- What the geometry says about the parameters that are read back. -/
theorem sameCopies_iff_meet {d : Device} (hcreate : ext4CreateFsAuxInfo info = some aux)
    (hgroups : 1 ≤ aux.groups) (hmin : 1024 ≤ info.blockSize)
    (hsb : SbHolds (d.slice 1024 Sb.size) info aux) (hread : readExt d = .ok p) :
    SameCopies info aux p ↔ CopiesMeet info aux := by
  have hof := FsAuxInfo.of_create hcreate
  have hfeat : p.info.featRoCompat = info.featRoCompat := (readExt_fields hsb hof hread).2.1
  have hsize := blockSize_eq_iff hmin hsb hread
  constructor
  · rintro ⟨hsame, hbs, hdesc, hbackups, hbitmaps⟩
    have hshape := readsShape hcreate hsb hread hbs
    obtain ⟨k, hk⟩ := hsize.mp hbs
    have hsmall := groups_eq_one hgroups hbackups
    by_cases hdrop : info.DropsLastGroup
    · have hread' := (hshape.droppedGroup hof hsmall hk hdrop).1
      exact ⟨⟨k, hk⟩, hbackups, hshape.numBlockGroups hread' ▸ hbitmaps, fun h => absurd hdrop h⟩
    by_cases hnarrow : p.info.DropsLastGroup
    · obtain ⟨hless, -, hcount⟩ := hshape.narrowedGroup hof hgroups hdrop hnarrow
      obtain ⟨n, hn⟩ : ∃ n, aux.groups = n + 1 := ⟨aux.groups - 1, by omega⟩
      rw [hfeat, hless, hn, Nat.add_sub_cancel, copyGroups_succ_eq_iff] at hsame
      have hlarge : 1024 < info.blockSize := by
        by_contra hsmall'
        obtain rfl : n = 0 := by
          have := hsmall hsmall'
          omega
        rw [(mem_copyGroups.mp (mem_copyGroups_of_le_one zero_lt_one zero_le_one)).2] at hsame
        cases hsame
      refine ⟨⟨k, hk⟩, hbackups, hcount hlarge, fun _ _ => ?_⟩
      rw [hn, Nat.add_sub_cancel]
      exact hsame
    · refine ⟨⟨k, hk⟩, hbackups, hshape.numBlockGroups hnarrow ▸ hbitmaps, fun _ h => ?_⟩
      exact absurd ((hshape.dropsLastGroup_iff hof hdrop).mpr h) hnarrow
  · rintro ⟨⟨k, hk⟩, hbackups, hcount, hlast⟩
    have hshape := readsShape hcreate hsb hread (hsize.mpr ⟨k, hk⟩)
    have hsmall := groups_eq_one hgroups hbackups
    have hbs := hsize.mpr ⟨k, hk⟩
    by_cases hdrop : info.DropsLastGroup
    · obtain ⟨hkeep, -, hsame⟩ := hshape.droppedGroup hof hsmall hk hdrop
      rw [← hshape.numBlockGroups hkeep] at hcount
      obtain ⟨heq, hdesc⟩ := hsame hcount
      exact ⟨by rw [hfeat, heq], hbs, hdesc, hbackups, hcount⟩
    have hdesc := (hshape.descLen hof hdrop).2
    by_cases hnarrow : p.info.DropsLastGroup
    · obtain ⟨hless, hbitmaps, -⟩ := hshape.narrowedGroup hof hgroups hdrop hnarrow
      have hbare := hlast hdrop ((hshape.dropsLastGroup_iff hof hdrop).mp hnarrow)
      obtain ⟨n, hn⟩ : ∃ n, aux.groups = n + 1 := ⟨aux.groups - 1, by omega⟩
      rw [hn, Nat.add_sub_cancel, ← copyGroups_succ_eq_iff] at hbare
      refine ⟨?_, hbs, hdesc, hbackups, hbitmaps⟩
      rw [hfeat, hless, hn, Nat.add_sub_cancel, hbare]
    · have heq : p.aux.groups = aux.groups := by
        rw [hshape.of.groups, if_neg hnarrow, hof.groups, if_neg hdrop,
          (hshape.descLen hof hdrop).1]
      rw [← hshape.numBlockGroups hnarrow] at hcount
      exact ⟨by rw [hfeat, heq], hbs, hdesc, hbackups, hcount⟩

/-- **Builder and fixup place the copies alike** exactly when the superblock can hold
the block size, no backup is in a filesystem with blocks of 1024 bytes or beyond `2 ^ 32`
blocks, and neither side counts a group with copies that the other gives up. -/
theorem copiesAgree_iff {d : Device} (hcreate : ext4CreateFsAuxInfo info = some aux)
    (hgroups : 1 ≤ aux.groups) (hmin : 1024 ≤ info.blockSize)
    (hsb : SbHolds (d.slice 1024 Sb.size) info aux) (hread : readExt d = .ok p) :
    CopiesAgree info aux p ↔ CopiesMeet info aux :=
  (sameCopies_iff hcreate hgroups hmin hsb hread).trans
    (sameCopies_iff_meet hcreate hgroups hmin hsb hread)

end Meet

theorem sbHolds_twoGroups : SbHolds (twoGroups.slice 1024 Sb.size) twoGroupsInfo twoGroupsAux := by
  constructor <;> decide

/-- With blocks of 2048 bytes the places are the same. -/
theorem copiesAgree_twoGroups : CopiesAgree twoGroupsInfo twoGroupsAux twoGroupsFixup :=
  (copiesAgree_iff (by decide) (by decide) (by decide) sbHolds_twoGroups readExt_twoGroups).mpr
    { blockSize := ⟨1, rfl⟩
      backups := by decide
      count := by decide
      lastGroup := by decide }

/-- A filesystem with blocks of 1024 bytes and two groups. -/
def info1K : FsInfo where
  len := 16777216
  blockSize := 1024
  blocksPerGroup := 8192
  inodesPerGroup := 16
  inodeSize := 128
  inodes := 32
  journalBlocks := 0
  featRoCompat := 1
  featCompat := 0
  featIncompat := 2
  bgDescReserveBlocks := 0
  label := []
  noJournal := true

/-- The derived numbers of `info1K`. -/
def aux1K : FsAuxInfo where
  firstDataBlock := 1
  lenBlocks := 16384
  inodeTableBlocks := 2
  groups := 2
  bgDescBlocks := 1
  defaultIFlags := 128
  blocksPerInd := 256
  blocksPerDind := 65536
  blocksPerTind := 0

/-- A device with its primary superblock. -/
def device1K : Device where
  size := 16777216
  bytes := Mem.zero.blit 1024 1024 (ext4FillInSb Mem.zero info1K aux1K) 0

/-- What `ext4_parse_sb` reads from it. -/
def parsed1K : FsInfo := { info1K with label := List.replicate 16 0, noJournal := false }

/-- What `read_ext` fills in from it. -/
def fixup1K : Fixup := ⟨parsed1K, aux1K, device1K.slice 2048 1024, 16⟩

theorem readExt_device1K : readExt device1K = .ok fixup1K := by
  apply readExt_eq_ok.mpr
  refine ⟨by decide, ?_, by decide, ?_, by decide, by decide, rfl, by decide, by decide, by decide,
    by decide⟩
  · decide
  · left
    decide

/-- The fixup writes the backup superblock of group `1` over the last block of group `0`. -/
theorem not_copiesAgree_1K :
    ext4CreateFsAuxInfo info1K = some aux1K ∧ readExt device1K = .ok fixup1K ∧
      ¬ CopiesAgree info1K aux1K fixup1K := by
  refine ⟨by decide, readExt_device1K, ?_⟩
  rintro ⟨hplaces, -⟩
  revert hplaces
  decide

end SystemExtras.Ext4
