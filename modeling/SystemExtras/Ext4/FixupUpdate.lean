import SystemExtras.Ext4.FixupSuperblocks

/-!
# The parameters after the update

As soon as the new primary superblock is on the device, a run that starts over reads
other parameters: the new number of inodes per group.  It finds its way with them only
if the rest has not moved (`Steady`): the root directory keeps its number, and the same
groups are there.  A larger inode table makes the header of a group larger, and a last
group that has no room for it would be given up.

`Kin p q` says that `q` are the parameters `p` of the image, before or after the new
superblock; everything the last stage does is the same for both.
-/

namespace SystemExtras.Ext4

open DevM

/-! ## The new number of inodes per group -/

/-- What the new superblock says about the filesystem. -/
def Fixup.afterInfo (p : Fixup) (inodes : ℕ) : FsInfo :=
  { p.info with
    inodesPerGroup := u32 p.newInodesPerGroup
    inodes := u32 inodes
    inRange := ⟨p.info.len_lt, p.info.blockSize_lt, p.info.blocksPerGroup_lt, u32_lt _,
      p.info.inodeSize_lt, u32_lt _, p.info.journalBlocks_lt, p.info.featRoCompat_lt,
      p.info.featCompat_lt, p.info.featIncompat_lt, p.info.bgDescReserveBlocks_lt⟩ }

/-- The parameters that are read once the new superblock is there. -/
def Fixup.after (p : Fixup) (inodes : ℕ) (bgDesc : Mem) : Fixup where
  info := p.afterInfo inodes
  aux := { p.aux with inodeTableBlocks := (p.afterInfo inodes).inodeTableBlocks }
  bgDesc := bgDesc
  newInodesPerGroup := p.newInodesPerGroup

/-- The new number of inodes per group suits the rest of the filesystem: the root keeps its
number, and the last group is given up if it was before. -/
structure Steady (p : Fixup) : Prop where
  root : p.newInum EXT4_ROOT_INO = EXT4_ROOT_INO
  lastGroup : (p.afterInfo 0).DropsLastGroup ↔ p.info.DropsLastGroup

/-- The new number of inodes per group leads to the old inodes, the root among them. -/
structure Leads (p : Fixup) : Prop where
  noWrap : p.info.inodesPerGroup + p.info.blockSize / p.info.inodeSize ≤ 2 ^ 32
  root : p.newInum EXT4_ROOT_INO = EXT4_ROOT_INO

/-- In addition, the new number can be rounded up. -/
structure Compatible (p : Fixup) : Prop extends Leads p, Steady p where
  room : p.newInodesPerGroup + p.info.blockSize / p.info.inodeSize ≤ 2 ^ 32

section NewInodesPerGroup

variable {p : Fixup} {T : DirTree} {d : Device}

/-- Tables of the same size keep the last group. -/
theorem lastGroup_iff_of_table
    (htable : (p.afterInfo 0).inodeTableBlocks = p.info.inodeTableBlocks) :
    (p.afterInfo 0).DropsLastGroup ↔ p.info.DropsLastGroup := by
  have hheader : (p.afterInfo 0).lastHeaderSize = p.info.lastHeaderSize := by
    unfold FsInfo.lastHeaderSize
    rw [htable]
    rfl
  unfold FsInfo.DropsLastGroup
  rw [hheader]
  exact Iff.rfl

/-- A new number that is the old one changes nothing. -/
theorem Compatible.of_aligned (hroot : p.newInum EXT4_ROOT_INO = EXT4_ROOT_INO)
    (haligned : p.newInodesPerGroup = p.info.inodesPerGroup)
    (hroom : p.newInodesPerGroup + p.info.blockSize / p.info.inodeSize ≤ 2 ^ 32) :
    Compatible p := by
  have htable : (p.afterInfo 0).inodeTableBlocks = p.info.inodeTableBlocks := by
    change divRoundUp32 (u32 (u32 p.newInodesPerGroup * p.info.inodeSize)) p.info.blockSize = _
    rw [haligned, u32_of_lt p.info.inodesPerGroup_lt]
    rfl
  exact ⟨⟨haligned ▸ hroom, hroot⟩, lastGroup_iff_of_table htable, hroom⟩

theorem ReadExt.newInodesPerGroup_lt (h : ReadExt d p) : p.newInodesPerGroup < 2 ^ 32 := by
  rw [h.newInodesPerGroup]
  exact u32_lt _

/-- The new number, where the rounding does not wrap around. -/
theorem ReadExt.newInodesPerGroup_eq (h : ReadExt d p)
    (hwrap : p.info.inodesPerGroup + p.info.blockSize / p.info.inodeSize ≤ 2 ^ 32) :
    p.newInodesPerGroup = p.info.blockSize / p.info.inodeSize *
      ((p.info.inodesPerGroup + p.info.blockSize / p.info.inodeSize - 1) /
        (p.info.blockSize / p.info.inodeSize)) := by
  have hpb := h.perBlock_pos
  rw [h.newInodesPerGroup]
  generalize p.info.blockSize / p.info.inodeSize = pb at *
  have hsum : divRoundUp32 p.info.inodesPerGroup pb = (p.info.inodesPerGroup + pb - 1) / pb := by
    unfold divRoundUp32
    rw [u32_of_lt (by omega)]
  rw [hsum]
  apply u32_of_lt
  calc pb * ((p.info.inodesPerGroup + pb - 1) / pb) ≤ p.info.inodesPerGroup + pb - 1 :=
        Nat.mul_div_le _ _
    _ < 2 ^ 32 := by omega

/-- The new number is the next multiple. -/
theorem ReadExt.newInodesPerGroup_bounds (h : ReadExt d p)
    (hwrap : p.info.inodesPerGroup + p.info.blockSize / p.info.inodeSize ≤ 2 ^ 32) :
    p.info.inodesPerGroup ≤ p.newInodesPerGroup ∧
      p.newInodesPerGroup < p.info.inodesPerGroup + p.info.blockSize / p.info.inodeSize := by
  have hpb := h.perBlock_pos
  rw [h.newInodesPerGroup_eq hwrap]
  generalize p.info.blockSize / p.info.inodeSize = pb at *
  have hdiv := Nat.div_add_mod (p.info.inodesPerGroup + pb - 1) pb
  have hmod := Nat.mod_lt (p.info.inodesPerGroup + pb - 1) hpb
  omega

theorem ReadExt.newInodesPerGroup_eq_self_iff (h : ReadExt d p)
    (hwrap : p.info.inodesPerGroup + p.info.blockSize / p.info.inodeSize ≤ 2 ^ 32) :
    p.newInodesPerGroup = p.info.inodesPerGroup ↔
      p.info.inodesPerGroup % (p.info.blockSize / p.info.inodeSize) = 0 := by
  have hpb := h.perBlock_pos
  rw [h.newInodesPerGroup_eq hwrap]
  generalize p.info.blockSize / p.info.inodeSize = pb at *
  constructor
  · intro heq
    rw [← heq]
    exact Nat.mul_mod_right _ _
  · intro hmod
    obtain ⟨k, hk⟩ := Nat.dvd_of_mod_eq_zero hmod
    rw [hk, Nat.add_sub_assoc hpb, Nat.mul_add_div hpb, Nat.div_eq_of_lt (by omega), Nat.add_zero]

theorem ReadExt.le_newInodesPerGroup (h : ReadExt d p) (hs : Leads p) :
    p.info.inodesPerGroup ≤ p.newInodesPerGroup := (h.newInodesPerGroup_bounds hs.noWrap).1

theorem ReadExt.blockSize_pos (h : ReadExt d p) : 0 < p.info.blockSize := by
  obtain ⟨-, -, -, haux, -⟩ := ext4ParseSb_eq_ok.mp h.parse
  exact (FsAuxInfo.of_create haux).blockSize_pos

/-- Block sizes are powers of two. -/
theorem ReadExt.blockSize_dvd (h : ReadExt d p) : p.info.blockSize ∣ 2 ^ 32 := by
  obtain ⟨-, -, ⟨bs, len, hbs, hlen, hshift, -, hinfo⟩, -⟩ := ext4ParseSb_eq_ok.mp h.parse
  have hbs : p.info.blockSize = bs := congrArg FsInfo.blockSize hinfo
  obtain ⟨hlog, rfl⟩ := shiftBlockSize_eq_some.mp hshift
  have hpow : ∀ k < 21, 1024 * 2 ^ k ∣ 2 ^ 32 := by decide
  rw [hbs]
  exact hpow _ hlog

theorem ReadExt.blockSize_ge (h : ReadExt d p) : 1024 ≤ p.info.blockSize := by
  obtain ⟨-, -, ⟨bs, len, hbs, hlen, hshift, -, hinfo⟩, -⟩ := ext4ParseSb_eq_ok.mp h.parse
  have hbs : p.info.blockSize = bs := congrArg FsInfo.blockSize hinfo
  obtain ⟨-, rfl⟩ := shiftBlockSize_eq_some.mp hshift
  rw [hbs]
  exact Nat.le_mul_of_pos_right _ (Nat.two_pow_pos _)

/-- The blocks of a table in 32 bits. -/
theorem divRoundUp32_u32 {bs m : ℕ} (hbs : 0 < bs) (hm : 2 ^ 32 = bs * m) (x : ℕ) :
    divRoundUp32 (u32 x) bs = (x + bs - 1) / bs % m := by
  unfold divRoundUp32 u32
  rw [Nat.add_sub_assoc hbs, Nat.mod_add_mod, Nat.add_sub_assoc hbs, hm, Nat.mod_mul_right_div_self]

/-- A table whose last block is not full takes the blocks of one that is. -/
theorem divRoundUp32_table {bs isz ipg new : ℕ} (hdvd : bs ∣ 2 ^ 32) (hbs : 0 < bs)
    (hisz : isz ∣ bs)
    (hnew : bs / isz ∣ new) (hle : ipg ≤ new) (hlt : new < ipg + bs / isz) :
    divRoundUp32 (u32 (new * isz)) bs = divRoundUp32 (u32 (ipg * isz)) bs := by
  obtain ⟨m, hm⟩ := hdvd
  obtain ⟨pb, rfl⟩ := hisz
  have hpos : 0 < isz := Nat.pos_of_mul_pos_right hbs
  rw [Nat.mul_div_cancel_left _ hpos] at hnew hlt
  obtain ⟨k, rfl⟩ := hnew
  rw [divRoundUp32_u32 hbs hm, divRoundUp32_u32 hbs hm]
  congr 1
  have hfull : (pb * k * isz + isz * pb - 1) / (isz * pb) = k := by
    have hprod : pb * k * isz = isz * pb * k := by ring
    rw [hprod, Nat.add_sub_assoc hbs, Nat.mul_add_div hbs, Nat.div_eq_of_lt (by omega),
      Nat.add_zero]
  -- the missing inodes are less than a block
  have hpart : (ipg * isz + isz * pb - 1) / (isz * pb) = k := by
    obtain ⟨j, hj⟩ := Nat.exists_eq_add_of_le hle
    have hsmall : isz * j + isz ≤ isz * pb := by
      rw [← Nat.mul_succ]
      exact Nat.mul_le_mul_left _ (by omega)
    have hsum : ipg * isz + isz * pb - 1 = isz * pb * k + (isz * pb - 1 - isz * j) := by
      have hprod : isz * pb * k = ipg * isz + isz * j := by
        rw [Nat.mul_assoc, hj]
        ring
      omega
    rw [hsum, Nat.mul_add_div hbs, Nat.div_eq_of_lt (by omega), Nat.add_zero]
  rw [hfull, hpart]

/-- An inode size that divides the block size leaves the tables as they are. -/
theorem ReadExt.steady_of_dvd (h : ReadExt d p)
    (hwrap : p.info.inodesPerGroup + p.info.blockSize / p.info.inodeSize ≤ 2 ^ 32)
    (hdvd : p.info.inodeSize ∣ p.info.blockSize) (hroot : p.newInum EXT4_ROOT_INO = EXT4_ROOT_INO) :
    Steady p := by
  refine ⟨hroot, lastGroup_iff_of_table ?_⟩
  change divRoundUp32 (u32 (u32 p.newInodesPerGroup * p.info.inodeSize)) p.info.blockSize =
    divRoundUp32 (u32 (p.info.inodesPerGroup * p.info.inodeSize)) p.info.blockSize
  obtain ⟨hle, hlt⟩ := h.newInodesPerGroup_bounds hwrap
  rw [u32_of_lt h.newInodesPerGroup_lt]
  refine divRoundUp32_table h.blockSize_dvd h.blockSize_pos hdvd ?_ hle hlt
  rw [h.newInodesPerGroup_eq hwrap]
  exact Nat.dvd_mul_right _ _

/-- The derived numbers stay the same but for the size of the tables. -/
theorem ReadExt.create_after (h : ReadExt d p) (hs : Steady p) (inodes : ℕ) (bgDesc : Mem) :
    ext4CreateFsAuxInfo (p.after inodes bgDesc).info = some (p.after inodes bgDesc).aux := by
  obtain ⟨-, -, -, haux, -⟩ := ext4ParseSb_eq_ok.mp h.parse
  have hdrops : (p.afterInfo inodes).DropsLastGroup ↔ p.info.DropsLastGroup := hs.lastGroup
  unfold ext4CreateFsAuxInfo at haux ⊢
  change (if p.info.blockSize = 0 ∨ p.info.blocksPerGroup = 0 then none else _) = _
  split at haux
  · cases haux
  · rename_i hpos
    rw [if_neg hpos]
    have haux := Option.some.inj haux
    unfold Fixup.after
    rw [← haux]
    dsimp only
    simp only [hdrops]
    rfl

end NewInodesPerGroup

/-! ## Descriptors up to their free inode counts -/

/-- The descriptors agree except for the counts of free inodes. -/
def DescLike (bgDesc bgDesc' : Mem) : Prop :=
  ∀ x, x % 32 < 14 ∨ 16 ≤ x % 32 → bgDesc' x = bgDesc x

namespace DescLike

variable {bgDesc bgDesc' bgDesc'' : Mem}

theorem refl (bgDesc : Mem) : DescLike bgDesc bgDesc := fun _ _ => rfl

theorem trans (h : DescLike bgDesc bgDesc') (h' : DescLike bgDesc' bgDesc'') :
    DescLike bgDesc bgDesc'' := fun x hx => (h' x hx).trans (h x hx)

theorem get (h : DescLike bgDesc bgDesc') {f : Field}
    (hf : f.offset + f.width ≤ 14 ∨ 16 ≤ f.offset ∧ f.offset + f.width ≤ 32) (i : ℕ) :
    (Fixup.descField f i).get bgDesc' = (Fixup.descField f i).get bgDesc := by
  apply Mem.load_congr
  intro k hk
  change k < f.width at hk
  apply h
  change (32 * i + f.offset + k) % 32 < 14 ∨ 16 ≤ (32 * i + f.offset + k) % 32
  rw [Nat.add_assoc, Nat.mul_add_mod]
  omega

theorem raiseFreeInodes (bgDesc : Mem) (delta groups : ℕ) :
    DescLike bgDesc (Ext4.raiseFreeInodes bgDesc delta groups) := by
  intro x hx
  apply Mem.assign_apply_of_not_mem
  intro f hf
  obtain ⟨i, -, rfl⟩ := List.mem_map.mp hf
  change x < 32 * i + 14 ∨ 32 * i + 14 + 2 ≤ x
  omega

end DescLike

/-! ## Parameters before and after -/

/-- The parameters `q` are those of the image, before or after the new superblock. -/
structure Kin (p q : Fixup) : Prop where
  blockSize : q.info.blockSize = p.info.blockSize
  inodeSize : q.info.inodeSize = p.info.inodeSize
  blocksPerGroup : q.info.blocksPerGroup = p.info.blocksPerGroup
  featRoCompat : q.info.featRoCompat = p.info.featRoCompat
  firstDataBlock : q.aux.firstDataBlock = p.aux.firstDataBlock
  lenBlocks : q.aux.lenBlocks = p.aux.lenBlocks
  groups : q.aux.groups = p.aux.groups
  bgDescBlocks : q.aux.bgDescBlocks = p.aux.bgDescBlocks
  newInodesPerGroup : q.newInodesPerGroup = p.newInodesPerGroup
  inodesPerGroup : q.info.inodesPerGroup = p.info.inodesPerGroup ∨
    q.info.inodesPerGroup = p.newInodesPerGroup
  desc : DescLike p.bgDesc q.bgDesc

namespace Kin

variable {p q : Fixup}

theorem refl (p : Fixup) : Kin p p :=
  ⟨rfl, rfl, rfl, rfl, rfl, rfl, rfl, rfl, rfl, Or.inl rfl, DescLike.refl _⟩

variable (h : Kin p q)

include h

theorem sbOffset (i : ℕ) : Ext4.sbOffset q i = Ext4.sbOffset p i := by
  unfold Ext4.sbOffset
  rw [h.blocksPerGroup, h.blockSize]

theorem descOffset (i : ℕ) : Ext4.descOffset q i = Ext4.descOffset p i := by
  unfold Ext4.descOffset
  rw [h.blocksPerGroup, h.blockSize, h.firstDataBlock]

theorem descLen : q.descLen = p.descLen := by
  unfold Fixup.descLen
  rw [h.blockSize, h.bgDescBlocks]

theorem numBlockGroups : q.numBlockGroups = p.numBlockGroups := by
  unfold Fixup.numBlockGroups
  rw [h.lenBlocks, h.blocksPerGroup]

theorem hasCopy {i : ℕ} : HasCopy q i ↔ HasCopy p i := by
  unfold HasCopy
  rw [h.groups, h.featRoCompat]

theorem hasDesc {i : ℕ} : q.HasDesc i ↔ p.HasDesc i := by
  unfold Fixup.HasDesc
  rw [h.blockSize, h.bgDescBlocks]

theorem bitmapOffset (i : ℕ) : Ext4.bitmapOffset q i = Ext4.bitmapOffset p i := by
  unfold Ext4.bitmapOffset
  rw [h.desc.get (Or.inl (by decide)), h.blockSize]

theorem delta (sb : Mem) : q.delta sb = p.delta sb := by
  unfold Fixup.delta
  rw [h.newInodesPerGroup]

theorem newSb (sb : Mem) : Ext4.newSb q sb = Ext4.newSb p sb := by
  unfold Ext4.newSb
  rw [h.numBlockGroups, h.delta, h.newInodesPerGroup]

theorem bitmapOk {size i : ℕ} (hok : BitmapOk p size i) : BitmapOk q size i where
  hasDesc := h.hasDesc.mpr hok.hasDesc
  blockSize_le := h.blockSize ▸ hok.blockSize_le
  seekable := (h.bitmapOffset i).symm ▸ hok.seekable
  offset_le := by
    rw [h.bitmapOffset, h.blockSize]
    exact hok.offset_le
  bits := by
    rw [h.newInodesPerGroup, h.blockSize]
    rcases h.inodesPerGroup with heq | heq
    · rw [heq]
      exact hok.bits
    · rw [heq]
      exact Or.inl le_rfl

end Kin

/-! ## The new superblock -/

/-- The primary superblock that the update writes. -/
def migratedSb (p : Fixup) (sb : Mem) : Mem := copyOfSb (newSb p sb) 0

/-- The inode count that the update writes. -/
def migratedCount (p : Fixup) (sb : Mem) : ℕ :=
  Sb.inodesCount.get sb + u32 (p.numBlockGroups * p.delta sb)

section MigratedSb

variable {p : Fixup} {sb sb' : Mem}

theorem newSb_apply {x : ℕ} (h₁ : 4 ≤ x) (h₂ : x < 16 ∨ 20 ≤ x) (h₃ : x < 40 ∨ 44 ≤ x) :
    newSb p sb x = sb x := by
  apply Mem.assign_apply_of_not_mem
  intro f hf
  simp only [List.mem_cons, List.not_mem_nil, or_false] at hf
  rcases hf with rfl | rfl | rfl
  · exact Or.inr h₁
  · exact h₂
  · exact h₃

theorem copyOfSb_zero_apply {x : ℕ} (h : x < 90 ∨ 92 ≤ x) : copyOfSb sb 0 x = sb x :=
  Mem.store_apply_of_not_mem h

/-- The fields that the update leaves alone. -/
theorem get_migratedSb {f : Field} (h : 4 ≤ f.offset) (h₂ : f.offset + f.width ≤ 16 ∨ 20 ≤ f.offset)
    (h₃ : f.offset + f.width ≤ 40 ∨ 44 ≤ f.offset) (h₄ : f.offset + f.width ≤ 90 ∨ 92 ≤ f.offset) :
    f.get (migratedSb p sb) = f.get sb := by
  apply Mem.load_congr
  intro i hi
  unfold migratedSb
  rw [copyOfSb_zero_apply (by omega), newSb_apply (by omega) (by omega) (by omega)]

theorem newSb_like (h : SbLike sb sb') : SbLike (newSb p sb) (newSb p sb') := by
  have hipg : Sb.inodesPerGroup.get sb' = Sb.inodesPerGroup.get sb := h.get (Or.inl (by decide))
  have hcount : Sb.inodesCount.get sb' = Sb.inodesCount.get sb := h.get (Or.inl (by decide))
  have hfree : Sb.freeInodesCount.get sb' = Sb.freeInodesCount.get sb := h.get (Or.inl (by decide))
  have hdelta : p.delta sb' = p.delta sb := by
    unfold Fixup.delta
    rw [hipg]
  have hdesc : ∀ m, Sb.descSize.get (newSb p m) = Sb.descSize.get m := by
    intro m
    apply Mem.load_congr
    intro i hi
    change i < 2 at hi
    exact newSb_apply (by change 4 ≤ 254 + i; omega) (by change 254 + i < 16 ∨ 20 ≤ 254 + i; omega)
      (by change 254 + i < 40 ∨ 44 ≤ 254 + i; omega)
  refine ⟨fun x hx => ?_, ?_⟩
  · unfold newSb
    rw [hcount, hfree, hdelta]
    exact Mem.assign_congr_at (h.same x hx)
  · rw [hdesc, hdesc, h.descSize]

theorem copyOfSb_zero_like (h : SbLike sb sb') : SbLike (copyOfSb sb 0) (copyOfSb sb' 0) := by
  refine ⟨fun x hx => ?_, ?_⟩
  · exact Mem.assign_congr_at (l := [(Sb.blockGroupNr, 0)]) (h.same x hx)
  · rw [copyOfSb_descSize_zero, copyOfSb_descSize_zero, h.descSize]

theorem migratedSb_like (h : SbLike sb sb') : SbLike (migratedSb p sb) (migratedSb p sb') :=
  copyOfSb_zero_like (newSb_like h)

/-- A superblock with the new number of inodes per group gets no new counts. -/
theorem newSb_of_inodesPerGroup (hlt : p.newInodesPerGroup < 2 ^ 32)
    (h : Sb.inodesPerGroup.get sb = p.newInodesPerGroup) : newSb p sb = sb := by
  have hdelta : p.delta sb = 0 := by
    unfold Fixup.delta
    rw [h, sub32_of_le le_rfl hlt, Nat.sub_self]
  have hset : ∀ f : Field, f.set sb (f.get sb) = sb := fun f => Mem.store_load sb _ _
  unfold newSb
  rw [hdelta, Nat.mul_zero, show u32 0 = 0 from rfl]
  dsimp only
  rw [Nat.add_zero, Nat.add_zero, ← h]
  simp only [Mem.assign_cons, hset]
  rfl

/-- The counts of the new superblock. -/
theorem get_copy_newSb {f : Field} (hf : f.offset + f.width ≤ 90) :
    f.get (migratedSb p sb) = f.get (newSb p sb) := by
  apply Mem.load_congr
  intro i hi
  exact copyOfSb_zero_apply (by omega)

theorem newSb_pairwise (a b c : ℕ) : (([(Sb.inodesCount, a), (Sb.freeInodesCount, b),
    (Sb.inodesPerGroup, c)] : List (Field × ℕ)).map Prod.fst).Pairwise Field.Disjoint := by
  simp only [List.map_cons, List.map_nil]
  decide

theorem inodesPerGroup_migratedSb (hlt : p.newInodesPerGroup < 2 ^ 32) :
    Sb.inodesPerGroup.get (migratedSb p sb) = p.newInodesPerGroup := by
  rw [get_copy_newSb (by decide)]
  exact (Field.get_assign (newSb_pairwise _ _ _) 2 rfl sb).trans (Nat.mod_eq_of_lt hlt)

theorem inodesCount_migratedSb :
    Sb.inodesCount.get (migratedSb p sb) = u32 (migratedCount p sb) := by
  rw [get_copy_newSb (by decide)]
  exact Field.get_assign (newSb_pairwise _ _ _) 0 rfl sb

/-- Writing a new superblock again makes no difference. -/
theorem migratedSb_migratedSb (hlt : p.newInodesPerGroup < 2 ^ 32)
    (h : SbLike (migratedSb p sb) sb') : migratedSb p sb' = sb' := by
  have hipg : Sb.inodesPerGroup.get sb' = p.newInodesPerGroup := by
    rw [h.get (Or.inl (by decide)), inodesPerGroup_migratedSb hlt]
  have hnr : Sb.blockGroupNr.get sb' = 0 := by
    rw [h.get (Or.inl (by decide))]
    exact (Field.get_set_self _ _ _).trans rfl
  have hcopy : copyOfSb sb' 0 = sb' := Mem.store_of_load_eq hnr
  unfold migratedSb
  rw [newSb_of_inodesPerGroup hlt hipg, hcopy]

end MigratedSb

section ReadAfter

variable {p : Fixup} {d d' : Device} {sb : Mem}

/-- `ext4_parse_sb` on the new superblock. -/
theorem ReadExt.parse_migrated (h : ReadExt d p) (hs : Steady p)
    (hsb : SbLike (migratedSb p (sbOf d)) sb)
    (bgDesc : Mem) : ext4ParseSb FsInfo.zero sb =
      .ok ((p.after (migratedCount p (sbOf d)) bgDesc).info,
        (p.after (migratedCount p (sbOf d)) bgDesc).aux) := by
  have hlt := h.newInodesPerGroup_lt
  obtain ⟨hmagic, hstate, ⟨bs, len, hbs', hlen, hshift, hlenEq, hinfo⟩, -, hfirst⟩ :=
    ext4ParseSb_eq_ok.mp h.parse
  change Sb.magic.get (sbOf d) = _ at hmagic
  change Sb.state.get (sbOf d) &&& _ = _ at hstate
  change shiftBlockSize (Sb.logBlockSize.get (sbOf d)) = _ at hshift
  change len = u64 (bs * sbLenBlocks (sbOf d)) at hlenEq
  change _ = Sb.firstDataBlock.get (sbOf d) at hfirst
  change p.info = parseInfo FsInfo.zero (sbOf d) bs len hbs' hlen at hinfo
  have hget : ∀ f : Field, 4 ≤ f.offset ∧ (f.offset + f.width ≤ 16 ∨ 20 ≤ f.offset) ∧
      (f.offset + f.width ≤ 40 ∨ 44 ≤ f.offset) ∧ (f.offset + f.width ≤ 90 ∨ 92 ≤ f.offset) →
      f.get (migratedSb p (sbOf d)) = f.get (sbOf d) :=
    fun f hf => get_migratedSb hf.1 hf.2.1 hf.2.2.1 hf.2.2.2
  have hblocks : sbLenBlocks (migratedSb p (sbOf d)) = sbLenBlocks (sbOf d) := by
    unfold sbLenBlocks
    rw [hget Sb.blocksCountHi (by decide), hget Sb.blocksCountLo (by decide)]
  have hlabel :
      (migratedSb p (sbOf d)).bytes Sb.volumeName 16 = (sbOf d).bytes Sb.volumeName 16 := by
    apply List.map_congr_left
    intro i hi
    rw [List.mem_range] at hi
    unfold migratedSb Sb.volumeName
    rw [copyOfSb_zero_apply (by omega), newSb_apply (by omega) (by omega) (by omega)]
  apply hsb.parse
  refine ext4ParseSb_eq_ok.mpr ⟨?_, ?_, ⟨bs, len, hbs', hlen, ?_, ?_, ?_⟩,
    h.create_after hs _ bgDesc, ?_⟩
  · rw [hget _ (by decide), hmagic]
  · rw [hget _ (by decide), hstate]
  · rw [hget _ (by decide), hshift]
  · rw [hblocks, hlenEq]
  · apply FsInfo.ext <;> simp only [Fixup.after, Fixup.afterInfo, parseInfo]
    · exact congrArg FsInfo.len hinfo
    · exact congrArg FsInfo.blockSize hinfo
    · rw [hget _ (by decide)]
      exact congrArg FsInfo.blocksPerGroup hinfo
    · rw [inodesPerGroup_migratedSb hlt, u32_of_lt hlt]
    · rw [hget _ (by decide)]
      exact congrArg FsInfo.inodeSize hinfo
    · rw [inodesCount_migratedSb]
    · exact (congrArg FsInfo.journalBlocks hinfo : _ = (parseInfo _ _ _ _ hbs' hlen).journalBlocks)
    · rw [hget _ (by decide)]
      exact congrArg FsInfo.featRoCompat hinfo
    · rw [hget _ (by decide)]
      exact congrArg FsInfo.featCompat hinfo
    · rw [hget _ (by decide)]
      exact congrArg FsInfo.featIncompat hinfo
    · rw [hget _ (by decide)]
      exact congrArg FsInfo.bgDescReserveBlocks hinfo
    · rw [hlabel]
      exact congrArg FsInfo.label hinfo
    · exact (congrArg FsInfo.noJournal hinfo : _ = (parseInfo _ _ _ _ hbs' hlen).noJournal)
  · rw [hget _ (by decide)]
    exact hfirst

/-- The new number is aligned, so that another run leaves it alone. -/
theorem ReadExt.newInodesPerGroup_fixed (h : ReadExt d p) (hs : Compatible p) :
    p.newInodesPerGroup = u32 (p.info.blockSize / p.info.inodeSize *
      divRoundUp32 p.newInodesPerGroup (p.info.blockSize / p.info.inodeSize)) := by
  have hnew := h.newInodesPerGroup_eq hs.noWrap
  have hlt := h.newInodesPerGroup_lt
  have hwrap := hs.room
  have hpb := h.perBlock_pos
  generalize p.info.blockSize / p.info.inodeSize = pb at *
  generalize (p.info.inodesPerGroup + pb - 1) / pb = k at *
  unfold divRoundUp32
  rw [u32_of_lt (show p.newInodesPerGroup + pb - 1 < 2 ^ 32 by omega), hnew,
    Nat.add_sub_assoc hpb, Nat.mul_add_div hpb, Nat.div_eq_of_lt (by omega), Nat.add_zero,
    u32_of_lt (by omega)]

/-- `read_ext` once the new superblock is there. -/
theorem ReadExt.after (h : ReadExt d p) (hs : Compatible p) (hsize : d'.size = d.size)
    (hsb : SbLike (migratedSb p (sbOf d)) (sbOf d')) :
    ReadExt d' (p.after (migratedCount p (sbOf d))
      (d'.slice (p.info.blockSize * (p.aux.firstDataBlock + 1)) p.descLen)) where
  sb_le := hsize ▸ h.sb_le
  parse := h.parse_migrated hs.toSteady hsb _
  noRecover := h.noRecover
  descSize := by
    have hdesc : Sb.descSize.get (d'.slice 1024 Sb.size) &&& 0xfffe =
        Sb.descSize.get (d.slice 1024 Sb.size) &&& 0xfffe := by
      refine hsb.descSize.trans ?_
      rw [get_migratedSb (by decide) (by decide) (by decide) (by decide)]
      rfl
    rw [hdesc]
    exact h.descSize
  descLen_lt := h.descLen_lt
  desc_le := hsize ▸ h.desc_le
  bgDesc := rfl
  filetype := h.filetype
  inodeSize_pos := h.inodeSize_pos
  perBlock_pos := h.perBlock_pos
  newInodesPerGroup := by
    change p.newInodesPerGroup = u32 (_ * divRoundUp32 (u32 p.newInodesPerGroup) _)
    rw [u32_of_lt h.newInodesPerGroup_lt]
    exact h.newInodesPerGroup_fixed hs

end ReadAfter

/-! ## The numbers of groups and inodes -/

section Numbers

variable {p : Fixup} {d : Device}

/-- The number of groups, where the last one is given up. -/
theorem numBlockGroups_of_drops (hof : p.aux.Of p.info) (hdrop : p.info.DropsLastGroup) :
    p.numBlockGroups = u32 (p.info.rawLenBlocks / p.info.blocksPerGroup) := by
  have hpos := hof.blocksPerGroup_pos
  have hlen : p.aux.lenBlocks =
      p.info.rawLenBlocks / p.info.blocksPerGroup * p.info.blocksPerGroup := by
    have hsplit := Nat.div_add_mod p.info.rawLenBlocks p.info.blocksPerGroup
    rw [hof.lenBlocks, if_pos hdrop, p.info.sub_lastGroupSize hpos, Nat.mul_comm]
    omega
  unfold Fixup.numBlockGroups
  rw [hlen]
  exact count_of_mul p.info.blocksPerGroup_lt hpos
    ((Nat.div_mul_le_self _ _).trans_lt p.info.rawLenBlocks_lt)

/-- With large blocks the two ways to count the groups agree. -/
theorem ReadExt.numBlockGroups_eq (h : ReadExt d p) (hbs : 1024 < p.info.blockSize) :
    p.numBlockGroups = p.aux.groups := by
  obtain ⟨-, -, -, haux, -⟩ := ext4ParseSb_eq_ok.mp h.parse
  have hof := FsAuxInfo.of_create haux
  have hpos := hof.blocksPerGroup_pos
  have hraw := p.info.rawLenBlocks_lt
  have hfirst : p.info.firstDataBlock = 0 := if_pos hbs
  by_cases hdrop : p.info.DropsLastGroup
  · rw [numBlockGroups_of_drops hof hdrop, hof.groups, if_pos hdrop,
      FsInfo.rawGroups_of_rem hpos (hfirst ▸ (hdrop.rem_pos hpos).1)]
    unfold sub32 u32
    omega
  · unfold Fixup.numBlockGroups
    rw [hof.lenBlocks, hof.groups, if_neg hdrop, if_neg hdrop, FsInfo.rawGroups, hfirst,
      sub64_of_le (Nat.zero_le _) (by omega), Nat.sub_zero]

/-- The descriptors of the groups are read into an array of less than 2 GiB. -/
theorem ReadExt.rawGroups_lt (h : ReadExt d p) : p.info.rawGroups < 2 ^ 26 := by
  obtain ⟨-, -, ⟨bs, len, hbs, hlen, hshift, -, hinfo⟩, haux, -⟩ := ext4ParseSb_eq_ok.mp h.parse
  obtain ⟨-, hpow⟩ := shiftBlockSize_eq_some.mp hshift
  have hsize : p.info.blockSize = sizeofGroupDesc * (32 * 2 ^ Sb.logBlockSize.get (sbOf d)) := by
    rw [hinfo]
    change bs = 32 * (32 * 2 ^ Sb.logBlockSize.get (d.slice 1024 Sb.size))
    omega
  have hQ : 1 < 32 * 2 ^ Sb.logBlockSize.get (sbOf d) := by
    have : 0 < 2 ^ Sb.logBlockSize.get (sbOf d) := by positivity
    omega
  have hlt := h.descLen_lt
  rw [Fixup.descLen, (FsAuxInfo.of_create haux).bgDescBlocks, p.info.bgDescBlocks_eq hQ hsize,
    hsize, Nat.mul_assoc] at hlt
  generalize 32 * 2 ^ Sb.logBlockSize.get (sbOf d) = Q at *
  have hsplit := Nat.div_add_mod (p.info.rawGroups + Q - 1) Q
  have hmod := Nat.mod_lt (p.info.rawGroups + Q - 1) (show 0 < Q by omega)
  unfold sizeofGroupDesc at hlt
  omega

/-- A filesystem with groups has inode bitmaps. -/
theorem ReadExt.numBlockGroups_pos (h : ReadExt d p) (hgroups : 0 < p.aux.groups) {i : ℕ}
    (hdesc : p.HasDesc i) : 0 < p.numBlockGroups := by
  by_cases hbs : 1024 < p.info.blockSize
  · rwa [h.numBlockGroups_eq hbs]
  obtain ⟨-, -, -, haux, -⟩ := ext4ParseSb_eq_ok.mp h.parse
  have hof := FsAuxInfo.of_create haux
  have hpos := hof.blocksPerGroup_pos
  have hraw := p.info.rawLenBlocks_lt
  have hbpg := p.info.blocksPerGroup_lt
  have hfirst : p.info.firstDataBlock = 1 := if_neg hbs
  have hlt := h.rawGroups_lt
  -- a count that has wrapped around leaves no room for the descriptor
  have hne : p.info.rawGroups ≠ 0 := by
    intro hzero
    have hsize := hof.blockSize_pos
    have hsizelt := p.info.blockSize_lt
    have hnone : p.info.bgDescBlocks = 0 := by
      rw [FsInfo.bgDescBlocks, hzero, Nat.zero_mul, divRoundUp64, u64_of_lt (by omega),
        Nat.div_eq_of_lt (by omega)]
      rfl
    unfold Fixup.HasDesc sizeofGroupDesc at hdesc
    rw [hof.bgDescBlocks, hnone] at hdesc
    omega
  by_cases hdrop : p.info.DropsLastGroup
  · rw [numBlockGroups_of_drops hof hdrop]
    rw [hof.groups, if_pos hdrop] at hgroups
    by_cases hrem : p.info.rawLenBlocks % p.info.blocksPerGroup = 1
    · rw [← FsInfo.rawGroups_of_rem_one hpos hfirst hrem]
      omega
    · have hmod := (hdrop.rem_pos hpos).1
      rw [FsInfo.rawGroups_of_rem hpos (by omega)] at hgroups
      unfold sub32 u32 at hgroups
      unfold u32
      omega
  · unfold Fixup.numBlockGroups
    rw [hof.lenBlocks, if_neg hdrop]
    by_cases hrem : 0 < p.info.rawLenBlocks % p.info.blocksPerGroup
    · rw [count_of_rem hraw hbpg hpos hrem]
      by_cases hone : p.info.rawLenBlocks % p.info.blocksPerGroup = 1
      · rw [FsInfo.rawGroups_of_rem_one hpos hfirst hone] at hlt
        unfold u32 at *
        omega
      · rw [← FsInfo.rawGroups_of_rem hpos (by omega)]
        omega
    have hmul : p.info.rawLenBlocks =
        p.info.rawLenBlocks / p.info.blocksPerGroup * p.info.blocksPerGroup := by
      have hsplit := Nat.div_add_mod p.info.rawLenBlocks p.info.blocksPerGroup
      rw [Nat.mul_comm]
      omega
    rw [hmul, count_of_mul hbpg hpos (hmul ▸ hraw)]
    by_cases htwo : 2 ≤ p.info.blocksPerGroup
    · rw [← FsInfo.rawGroups_of_mul hpos htwo hmul]
      omega
    · -- groups of one block
      have hsingle : p.info.blocksPerGroup = 1 := by omega
      rw [FsInfo.rawGroups, hsingle, hfirst, divRoundUp64, Nat.div_one] at hlt
      rw [hsingle, Nat.div_one]
      unfold sub64 u64 u32 at hlt
      unfold u32
      omega

/-- An inode bitmap has no room for numbers that wrap around. -/
theorem TrialOk.noWrap (htrial : TrialOk p d) (h : ReadExt d p)
    (hbs : p.info.blockSize ≤ MAX_EXT4_BLOCK_SIZE) (hgroups : 0 < p.numBlockGroups) :
    p.info.inodesPerGroup + p.info.blockSize / p.info.inodeSize ≤ 2 ^ 32 := by
  have hpb := h.perBlock_pos
  have hle : p.info.blockSize / p.info.inodeSize ≤ p.info.blockSize := Nat.div_le_self _ _
  have hlt := p.info.inodesPerGroup_lt
  have hnew := h.newInodesPerGroup
  have hbits := (htrial.bitmaps 0 hgroups).bits
  unfold MAX_EXT4_BLOCK_SIZE at hbs
  by_contra hwrap
  generalize p.info.blockSize / p.info.inodeSize = pb at *
  have hzero : divRoundUp32 p.info.inodesPerGroup pb = 0 := by
    unfold divRoundUp32 u32
    apply Nat.div_eq_of_lt
    omega
  rw [hzero, Nat.mul_zero] at hnew
  have hneg : s32 p.info.inodesPerGroup < 0 := by
    unfold s32
    rw [u32_of_lt hlt, if_neg (by omega)]
    omega
  have hnil : s32 p.newInodesPerGroup = 0 := by
    rw [hnew]
    rfl
  omega

/-- A migration whose trial passes has room to round the new number up once more. -/
theorem TrialOk.compatible (htrial : TrialOk p d) (hs : Steady p) (h : ReadExt d p)
    (hbs : p.info.blockSize ≤ MAX_EXT4_BLOCK_SIZE) (hgroups : 0 < p.numBlockGroups) :
    Compatible p := by
  have hwrap := htrial.noWrap h hbs hgroups
  refine ⟨⟨hwrap, hs.root⟩, hs.lastGroup, ?_⟩
  obtain ⟨hle, hlt⟩ := h.newInodesPerGroup_bounds hwrap
  have hpb : p.info.blockSize / p.info.inodeSize ≤ p.info.blockSize := Nat.div_le_self _ _
  have hnew := h.newInodesPerGroup_lt
  have hold := p.info.inodesPerGroup_lt
  have hbits := (htrial.bitmaps 0 hgroups).bits
  unfold MAX_EXT4_BLOCK_SIZE at hbs
  unfold s32 at hbits
  rw [u32_of_lt hnew, u32_of_lt hold] at hbits
  split at hbits <;> split at hbits <;> omega

end Numbers

end SystemExtras.Ext4
