import SystemExtras.Ext4.FixupFinish

/-!
# The migrated filesystem is an image again

When the state word has been cleared, the device holds the same directories under
their new numbers (`DirTree.rename`), and the new parameters lead from the new
numbers to the inodes that the old ones led to (`inodeOffset_after`).  So what a
finished run leaves is an image that the tool can work on (`Finished.image`), and
everything that holds of runs from an image holds of the runs that come after.
-/

namespace SystemExtras.Ext4

open DevM

/-! ## New numbers and old ones -/

namespace Fixup

/-- The number that an inode had. -/
def oldInum (p : Fixup) (m : ℕ) : ℕ :=
  (m - 1) / p.newInodesPerGroup * p.info.inodesPerGroup + (m - 1) % p.newInodesPerGroup + 1

end Fixup

/-- The directories under their new numbers. -/
def DirTree.rename (T : DirTree) (p : Fixup) : DirTree where
  dirs := T.dirs.map p.newInum
  blocks m := T.blocks (p.oldInum m)
  records m := T.records (p.oldInum m)
  depth m := T.depth (p.oldInum m)

section Numbers

variable {p : Fixup} {v : ℕ}

/-- Group and slot of an inode are the same under both numbers. -/
theorem newInum_sub_one (hpos : 0 < p.info.inodesPerGroup)
    (hle : p.info.inodesPerGroup ≤ p.newInodesPerGroup) :
    (p.newInum v - 1) / p.newInodesPerGroup = (v - 1) / p.info.inodesPerGroup ∧
      (p.newInum v - 1) % p.newInodesPerGroup = (v - 1) % p.info.inodesPerGroup := by
  have hmod : (v - 1) % p.info.inodesPerGroup < p.newInodesPerGroup :=
    (Nat.mod_lt _ hpos).trans_le hle
  unfold Fixup.newInum
  rw [Nat.add_sub_cancel, Nat.mul_comm]
  constructor
  · rw [Nat.mul_add_div (hpos.trans_le hle), Nat.div_eq_of_lt hmod, Nat.add_zero]
  · rw [Nat.mul_add_mod, Nat.mod_eq_of_lt hmod]

theorem oldInum_newInum (hpos : 0 < p.info.inodesPerGroup)
    (hle : p.info.inodesPerGroup ≤ p.newInodesPerGroup) (hv : 0 < v) :
    p.oldInum (p.newInum v) = v := by
  obtain ⟨hdiv, hmod⟩ := newInum_sub_one (v := v) hpos hle
  have hsum := Nat.div_add_mod (v - 1) p.info.inodesPerGroup
  unfold Fixup.oldInum
  rw [hdiv, hmod, Nat.mul_comm, hsum]
  omega

/-- With an aligned number of inodes per group nothing is renumbered. -/
theorem newInum_of_aligned (h : p.newInodesPerGroup = p.info.inodesPerGroup) (hv : 0 < v) :
    p.newInum v = v := by
  have hsum := Nat.div_add_mod (v - 1) p.info.inodesPerGroup
  unfold Fixup.newInum
  rw [h, Nat.mul_comm, hsum]
  omega

end Numbers

section After

variable {p q : Fixup} {T : DirTree} {d₀ d : Device} {v : ℕ}

variable (hI : FixupImage p T d₀)

include hI

theorem FixupImage.inodesPerGroup_pos : 0 < p.info.inodesPerGroup := by
  obtain ⟨inode, hread, -⟩ := hI.inode _ hI.root_mem
  exact Nat.pos_of_ne_zero (readInode_eq_ok.mp hread).1

/-- The numbers of directories are like those of other entries. -/
theorem FixupImage.dir_bounds (hs : Leads p) {n : ℕ} (hn : n ∈ T.dirs) :
    0 < n ∧ n < 2 ^ 31 ∧ p.newInum n < 2 ^ 31 := by
  rcases Relation.ReflTransGen.cases_tail (hI.reachable n hn) with heq | ⟨c, hc, r, hent, rfl⟩
  · rw [heq, hs.root]
    decide
  · have hc' := mem_dirs_of_reach hI.root_mem hc
    have hentry := hI.entry c hc' r hent.1
    exact ⟨origInum_pos hent.1, hentry.inum_lt, hentry.newInum_lt⟩

theorem FixupImage.refers_bounds (hs : Leads p) (hv : T.Refers p d₀ v) :
    0 < v ∧ v < 2 ^ 31 ∧ p.newInum v < 2 ^ 31 := by
  rcases hv with hv | ⟨n, hn, r, hr, rfl⟩
  · exact hI.dir_bounds hs hv
  · have hentry := hI.entry n hn r hr
    exact ⟨origInum_pos hr, hentry.inum_lt, hentry.newInum_lt⟩

/-- The new parameters lead from the new number to the inode. -/
theorem inodeOffset_after (hs : Leads p) (hv : T.Refers p d₀ v) (inodes : ℕ) {bgDesc : Mem}
    (hdesc : DescLike p.bgDesc bgDesc) :
    inodeOffset (p.after inodes bgDesc) (p.newInum v) = inodeOffset p v ∧
      ((p.after inodes bgDesc).HasDesc
        (sub32 (p.newInum v) 1 / (p.after inodes bgDesc).info.inodesPerGroup) ↔
        p.HasDesc (sub32 v 1 / p.info.inodesPerGroup)) := by
  have hparams := readExt_eq_ok.mp hI.readExt
  have hpos := hI.inodesPerGroup_pos
  have hle := hparams.le_newInodesPerGroup hs
  obtain ⟨hv₀, hv₁, hv₂⟩ := hI.refers_bounds hs hv
  obtain ⟨hdiv, hmod⟩ := newInum_sub_one (v := v) hpos hle
  have hnew := newInum_pos p v
  have hipg : (p.after inodes bgDesc).info.inodesPerGroup = p.newInodesPerGroup :=
    u32_of_lt hparams.newInodesPerGroup_lt
  rw [hipg]
  constructor
  · unfold inodeOffset
    rw [hipg]
    simp only [sub32_of_le (show 1 ≤ v by omega) (show v < 2 ^ 32 by omega),
      sub32_of_le (show 1 ≤ p.newInum v by omega) (show p.newInum v < 2 ^ 32 by omega), hdiv, hmod]
    change (Fixup.descField GroupDesc.bgInodeTable _).get bgDesc * p.info.blockSize +
      u32 (_ * p.info.inodeSize) = _
    rw [hdesc.get (Or.inl (by decide))]
  · rw [sub32_of_le (show 1 ≤ v by omega) (show v < 2 ^ 32 by omega),
      sub32_of_le (show 1 ≤ p.newInum v by omega) (show p.newInum v < 2 ^ 32 by omega), hdiv]
    exact Iff.rfl

theorem readInode_after (hs : Leads p) (hv : T.Refers p d₀ v) (inodes : ℕ) {bgDesc inode : Mem}
    (hdesc : DescLike p.bgDesc bgDesc) :
    readInode (p.after inodes bgDesc) (p.newInum v) d = .ok inode ↔
      readInode p v d = .ok inode := by
  have hparams := readExt_eq_ok.mp hI.readExt
  have hpos := hI.inodesPerGroup_pos
  have hle := hparams.le_newInodesPerGroup hs
  have hipg : (p.after inodes bgDesc).info.inodesPerGroup = p.newInodesPerGroup :=
    u32_of_lt hparams.newInodesPerGroup_lt
  obtain ⟨hoff, hhas⟩ := inodeOffset_after hI hs hv inodes hdesc
  rw [readInode_eq_ok, readInode_eq_ok, hoff, hhas, hipg]
  have h₁ : p.newInodesPerGroup ≠ 0 := by omega
  have h₂ : p.info.inodesPerGroup ≠ 0 := by omega
  simp only [ne_eq, h₁, h₂, not_false_eq_true, true_and]

end After

/-! ## Inodes that agree in their first bytes -/

section InodeCongr

variable {p : Fixup} {d d' : Device} {inode inode' : Mem}

theorem mapBlocks_congr (h : inode'.SameOn inode 0 DirTree.inodeBytes) :
    mapBlocks p inode' = mapBlocks p inode := by
  have hget : ∀ f : Field, f.offset + f.width ≤ DirTree.inodeBytes → f.get inode' = f.get inode :=
    fun f hf => Field.get_congr h (Nat.zero_le _) hf
  have hblocks : inodeBlocks p inode' = inodeBlocks p inode := by
    unfold inodeBlocks
    rw [hget _ (by decide)]
  unfold mapBlocks
  rw [hget Inode.iFlags (by decide), hget (ExtentHeader.ehDepth.at_ _) (by decide), hblocks,
    hget (Inode.iBlock EXT4_NDIR_BLOCKS) (by decide)]
  dsimp only
  rw [hget (ExtentIdx.eiLeafHi.at_ _) (by decide), hget (ExtentIdx.eiLeafLo.at_ _) (by decide)]

theorem ShallowExtents.congr (hshallow : ShallowExtents p inode d)
    (h : inode'.SameOn inode 0 DirTree.inodeBytes)
    (hmap : ∀ b ∈ mapBlocks p inode, d'.slice (b * p.info.blockSize) p.info.blockSize =
      d.slice (b * p.info.blockSize) p.info.blockSize) : ShallowExtents p inode' d' := by
  have hget : ∀ f : Field, f.offset + f.width ≤ DirTree.inodeBytes → f.get inode' = f.get inode :=
    fun f hf => Field.get_congr h (Nat.zero_le _) hf
  intro hflag
  rw [hget Inode.iFlags (by decide)] at hflag
  rw [hget (ExtentHeader.ehDepth.at_ _) (by decide),
    hget (ExtentHeader.ehEntries.at_ _) (by decide),
    mapBlocks_congr h]
  rcases hshallow hflag with hleaf | ⟨hdepth, hentries, hleaf⟩
  · exact Or.inl hleaf
  · refine Or.inr ⟨hdepth, hentries, fun b hb => ?_⟩
    rw [hmap b hb]
    exact hleaf b hb

/-- The inode of a directory, read from a device with the same map blocks. -/
theorem DirInode.congr {blocks : List ℕ} (hdir : DirInode p blocks inode d)
    (h : inode'.SameOn inode 0 DirTree.inodeBytes) (hd : d'.size = d.size) (hsize : d.size < 2 ^ 63)
    (hmap : ∀ b ∈ mapBlocks p inode, d'.bytes.SameOn d.bytes (b * p.info.blockSize)
      (b * p.info.blockSize + p.info.blockSize)) : DirInode p blocks inode' d' where
  isDir := (isDirInode_congr h).trans hdir.isDir
  blocksLo := by
    rw [Field.get_congr h (Nat.zero_le _) (by decide)]
    exact hdir.blocksLo
  size_lt := hdir.size_lt
  shallow := hdir.shallow.congr h fun b hb => Device.slice_congr (hmap b hb)
  mapBlocks_le := by
    rw [mapBlocks_congr h, hd]
    exact hdir.mapBlocks_le
  blockList := hdir.blockList_congr h hd hsize hmap 0

end InodeCongr

/-! ## The image of a finished run -/

section Finished

variable {p q : Fixup} {T : DirTree} {d₀ d₁ d : Device} {n r v : ℕ}

variable (hI : FixupImage p T d₀) (hs : Leads p)

include hI hs

theorem FixupImage.oldInum_eq (hn : n ∈ T.dirs) : p.oldInum (p.newInum n) = n :=
  oldInum_newInum hI.inodesPerGroup_pos
    ((readExt_eq_ok.mp hI.readExt).le_newInodesPerGroup hs) (hI.dir_bounds hs hn).1

theorem FixupImage.rename_blocks (hn : n ∈ T.dirs) :
    (T.rename p).blocks (p.newInum n) = T.blocks n := congrArg T.blocks (hI.oldInum_eq hs hn)

theorem FixupImage.rename_records (hn : n ∈ T.dirs) :
    (T.rename p).records (p.newInum n) = T.records n := congrArg T.records (hI.oldInum_eq hs hn)

theorem FixupImage.rename_depth (hn : n ∈ T.dirs) :
    (T.rename p).depth (p.newInum n) = T.depth n := congrArg T.depth (hI.oldInum_eq hs hn)

theorem FixupImage.rename_bytes (hbs : q.info.blockSize = p.info.blockSize) :
    (T.rename p).bytes q = T.bytes p := by
  have hblock : ∀ b, blockBytes q b = blockBytes p b := by
    intro b
    unfold blockBytes
    rw [hbs]
  ext x
  constructor
  · rintro ⟨m, hm, b, hb, hx⟩
    obtain ⟨n, hn, rfl⟩ := List.mem_map.mp hm
    rw [hI.rename_blocks hs hn] at hb
    exact ⟨n, hn, b, hb, hblock b ▸ hx⟩
  · rintro ⟨n, hn, b, hb, hx⟩
    refine ⟨p.newInum n, List.mem_map_of_mem hn, b, ?_, (hblock b).symm ▸ hx⟩
    rwa [hI.rename_blocks hs hn]

variable (hH : Holds p T d₀ d₁ (newNums p T d₀) d)

include hH

/-- The contents of a directory after the run. -/
theorem rename_buf (hbs : q.info.blockSize = p.info.blockSize) (hn : n ∈ T.dirs) :
    (T.rename p).buf q d (p.newInum n) = T.renum p d₀ (newNums p T d₀ n) n := by
  rw [← hH.buf n hn]
  unfold DirTree.buf
  rw [hI.rename_blocks hs hn]
  unfold dirBuf
  rw [hbs]

theorem rename_recInum (hbs : q.info.blockSize = p.info.blockSize) (hn : n ∈ T.dirs)
    (hr : r ∈ T.live p d₀ n) :
    recInum ((T.rename p).buf q d (p.newInum n)) r = p.newInum (origInum p T d₀ n r) := by
  rw [rename_buf hI hs hH hbs hn, recInum_renum hI hn hr]
  exact u32_of_lt ((hI.entry n hn r hr).newInum_lt.trans (by decide))

theorem rename_live (hbs : q.info.blockSize = p.info.blockSize) (hn : n ∈ T.dirs) :
    (T.rename p).live q d (p.newInum n) = T.live p d₀ n := by
  unfold DirTree.live
  rw [hI.rename_records hs hn]
  apply List.filter_congr
  intro r hr
  rw [rename_buf hI hs hH hbs hn]
  by_cases hlive : r ∈ T.live p d₀ n
  · have hnew := newInum_pos p (origInum p T d₀ n r)
    have hinum := rename_recInum hI hs hH hbs hn hlive
    rw [rename_buf hI hs hH hbs hn] at hinum
    rw [hinum]
    simp only [ne_eq, (recInum_ne_zero_of_live hlive), not_false_eq_true, decide_true]
    exact decide_eq_true (by omega)
  · have hzero : recInum (T.buf p d₀ n) r = 0 := by
      by_contra h
      exact hlive (mem_live.mpr ⟨hr, h⟩)
    rw [recInum_renum_of_dead hI hn hr hlive, hzero]

theorem rename_enters (hbs : q.info.blockSize = p.info.blockSize) (hn : n ∈ T.dirs)
    (h : T.Enters p d₀ n r) : (T.rename p).Enters q d (p.newInum n) r := by
  obtain ⟨hr, hmem, hname⟩ := h
  refine ⟨?_, ?_, ?_⟩
  · rwa [rename_live hI hs hH hbs hn]
  · rw [rename_recInum hI hs hH hbs hn hr]
    exact List.mem_map_of_mem hmem
  · rw [rename_buf hI hs hH hbs hn, recName_renum hI hn (live_subset hr)]
    exact hname

end Finished

/-- The places are the same with either parameters. -/
theorem Kin.copyBytes_eq {p q : Fixup} (h : Kin p q) : copyBytes q = copyBytes p := by
  ext x
  unfold copyBytes
  simp only [h.hasCopy, h.sbOffset, h.descOffset, h.descLen]

theorem Kin.bitmapBytes_eq {p q : Fixup} (h : Kin p q) : bitmapBytes q = bitmapBytes p := by
  ext x
  unfold bitmapBytes blockBytes
  rw [h.numBlockGroups, h.blockSize]
  simp only [h.desc.get (f := GroupDesc.bgInodeBitmap) (Or.inl (by decide))]

theorem Kin.copiesApart {p q : Fixup} (h : Kin p q) (hapart : CopiesApart p) : CopiesApart q where
  copies_state := h.copyBytes_eq ▸ hapart.copies_state
  copies_bitmaps := by
    rw [h.copyBytes_eq, h.bitmapBytes_eq]
    exact hapart.copies_bitmaps
  bitmaps_state := h.bitmapBytes_eq ▸ hapart.bitmaps_state
  sb_sb i j hi hj hne := by
    rw [h.sbOffset, h.sbOffset]
    exact hapart.sb_sb i j (h.hasCopy.mp hi) (h.hasCopy.mp hj) hne
  sb_desc i j hi hj := by
    rw [h.sbOffset, h.descOffset, h.descLen]
    exact hapart.sb_desc i j (h.hasCopy.mp hi) (h.hasCopy.mp hj)
  desc_desc i j hi hj hne := by
    rw [h.descOffset, h.descOffset, h.descLen]
    exact hapart.desc_desc i j (h.hasCopy.mp hi) (h.hasCopy.mp hj) hne

section Image

variable {p : Fixup} {T : DirTree} {d₀ d₁ d : Device} {n r v : ℕ} {bgDesc : Mem} (inodes : ℕ)

variable (hI : FixupImage p T d₀) (hs : Leads p) (hS : SameNav p T d₀ d₁)
  (hH : Holds p T d₀ d₁ (newNums p T d₀) d) (hdesc : DescLike p.bgDesc bgDesc)

include hI hs hS hH hdesc

/-- A directory's inode after the run. -/
theorem rename_inode (hn : n ∈ T.dirs) : ∃ inode₀ inode,
    readInode p n d₀ = .ok inode₀ ∧ readInode (p.after inodes bgDesc) (p.newInum n) d = .ok inode ∧
      inode.SameOn inode₀ 0 DirTree.inodeBytes ∧
      DirInode (p.after inodes bgDesc) ((T.rename p).blocks (p.newInum n)) inode d := by
  obtain ⟨inode₀, hread₀, hdir⟩ := hI.inode n hn
  obtain ⟨inode, hread, hsame⟩ := hH.readInode hI hS (Or.inl hn) hread₀
  have hnav := hH.sameNav hI hS
  refine ⟨inode₀, inode, hread₀, (readInode_after hI hs (Or.inl hn) inodes hdesc).mpr hread,
    hsame, ?_⟩
  rw [hI.rename_blocks hs hn]
  obtain ⟨h₁, h₂, h₃, h₄, h₅, h₆⟩ := hdir.congr hsame hnav.size hI.size_lt fun b hb x h₁ h₂ =>
    hnav.nav x (Or.inr ⟨n, hn, inode₀, hread₀, b, hb, h₁, h₂⟩)
  exact ⟨h₁, h₂, h₃, h₄, h₅, h₆⟩

/-- What the new parameters read to find their way is what the old ones did. -/
theorem rename_nav : (T.rename p).navBytes (p.after inodes bgDesc) d ⊆ T.navBytes p d₀ := by
  have hbs : (p.after inodes bgDesc).info.blockSize = p.info.blockSize := rfl
  rintro x (⟨m, hm, hx⟩ | ⟨m, hm, inode, hread, b, hb, hx⟩)
  · obtain ⟨v, hv, rfl⟩ : ∃ v, T.Refers p d₀ v ∧ m = p.newInum v := by
      rcases hm with hm | ⟨m', hm', r, hr, rfl⟩
      · obtain ⟨n, hn, rfl⟩ := List.mem_map.mp hm
        exact ⟨n, Or.inl hn, rfl⟩
      · obtain ⟨n, hn, rfl⟩ := List.mem_map.mp hm'
        rw [rename_live hI hs hH hbs hn] at hr
        exact ⟨origInum p T d₀ n r, refers_of_live hn hr, rename_recInum hI hs hH hbs hn hr⟩
    rw [(inodeOffset_after hI hs hv inodes hdesc).1] at hx
    exact Or.inl ⟨v, hv, hx⟩
  · obtain ⟨n, hn, rfl⟩ := List.mem_map.mp hm
    obtain ⟨inode₀, inode', hread₀, hread', hsame, -⟩ :=
      rename_inode inodes hI hs hS hH hdesc hn
    rw [hread] at hread'
    cases hread'
    have hb : b ∈ mapBlocks p inode := hb
    rw [mapBlocks_congr hsame] at hb
    exact Or.inr ⟨n, hn, inode₀, hread₀, b, hb, hx⟩

/-- An entry after the run. -/
theorem rename_entry (haligned : ∀ v, 0 < v → (p.after inodes bgDesc).newInum v = v)
    (hn : n ∈ T.dirs) (hr : r ∈ T.live p d₀ n) :
    EntryOk (p.after inodes bgDesc) (T.rename p) (p.newInum n)
      (recInum ((T.rename p).buf (p.after inodes bgDesc) d (p.newInum n)) r)
      (recFileType ((T.rename p).buf (p.after inodes bgDesc) d (p.newInum n)) r)
      (recName ((T.rename p).buf (p.after inodes bgDesc) d (p.newInum n)) r) d := by
  have hentry := hI.entry n hn r hr
  have hrec := live_subset hr
  have hnew : p.newInum (origInum p T d₀ n r) < 2 ^ 31 := hentry.newInum_lt
  obtain ⟨inode₀, hread₀, htype, hsub⟩ := hentry.inode
  obtain ⟨inode, hread, hsame⟩ := hH.readInode hI hS (refers_of_live hn hr) hread₀
  have hbs : (p.after inodes bgDesc).info.blockSize = p.info.blockSize := rfl
  rw [rename_recInum hI hs hH hbs hn hr, rename_buf hI hs hH hbs hn, recFileType_renum hI hn hrec,
    recName_renum hI hn hrec]
  refine ⟨hnew, ?_, inode, (readInode_after hI hs (refers_of_live hn hr) inodes hdesc).mpr hread,
    ?_, ?_⟩
  · rwa [haligned _ (newInum_pos p _)]
  · rw [isDirInode_congr hsame]
    exact htype
  · rw [isDirInode_congr hsame]
    intro hdir
    obtain ⟨hmem, hdepth⟩ := hsub hdir
    refine ⟨List.mem_map_of_mem hmem, fun h₁ h₂ => ?_⟩
    rw [hI.rename_depth hs hn]
    exact (hI.rename_depth hs hmem).trans_lt (hdepth h₁ h₂)

end Image

/-- The image that a finished run leaves. -/
structure Successor (p : Fixup) (T : DirTree) (d₀ : Device) (q : Fixup) (d : Device) : Prop where
  image : FixupImage q (T.rename p) d
  unset : getFsFixupState d = .ok .unset
  kin : Kin p q
  aligned : q.newInodesPerGroup = q.info.inodesPerGroup
  compatible : Compatible q
  trial : TrialOk p d₀ → TrialOk q d
  desc : q.bgDesc = primaryDesc p d

/-- **What a finished run leaves is an image again**, with the same directories under their new
numbers. -/
theorem Finished.image {p : Fixup} {T : DirTree} {d₀ d : Device} (hI : FixupImage p T d₀)
    (hs : Compatible p) (hF : Finished p T d₀ d) : ∃ q, Successor p T d₀ q d := by
  obtain ⟨d₁, hR, hsb, hH⟩ := hF
  have hparams := readExt_eq_ok.mp hI.readExt
  have hlt := hparams.newInodesPerGroup_lt
  have hS : SameNav p T d₀ d₁ := hR.sameNav hI
  have hsize : d.size = d₀.size := hH.size.trans hS.size
  obtain ⟨q, hread, hkin, hq, hafter, -⟩ := hR.params hI hs hH
  obtain rfl := hafter hsb
  set inodes := migratedCount p (sbOf d₀)
  have hbs : (p.after inodes (primaryDesc p d₁)).info.blockSize = p.info.blockSize := rfl
  have hdesc : DescLike p.bgDesc (primaryDesc p d₁) := hR.desc
  have haligned : (p.after inodes (primaryDesc p d₁)).newInodesPerGroup =
      (p.after inodes (primaryDesc p d₁)).info.inodesPerGroup := (u32_of_lt hlt).symm
  have hfixed : ∀ v, 0 < v → (p.after inodes (primaryDesc p d₁)).newInum v = v :=
    fun v hv => newInum_of_aligned haligned hv
  have hbytes := hI.rename_bytes hs.toLeads hbs
  have hnav := rename_nav inodes hI hs.toLeads hS hH hdesc
  have hstate : getFsFixupState d = .ok .unset := by rw [hH.state hI, hR.state]
  have hsb' : SbLike (migratedSb p (sbOf d₀)) (sbOf d) := by
    rw [hH.sbOf_eq hI]
    exact hsb
  have hprimary : primaryDesc p d = primaryDesc p d₁ := Device.slice_congr (hH.desc_sameOn hI)
  refine ⟨_, ⟨hread, ?_, hI.groups_pos, hI.blockSize_le, ?_, ?_, ?_, ?_, ?_, ?_, ?_, ?_,
    hkin.copiesApart hI.copies, ?_, ?_, ?_, ?_, ?_, ?_, ?_, ?_⟩, hstate, hkin, haligned,
    Compatible.of_aligned (hfixed _ (by decide)) haligned hs.room,
    fun htrial => htrial.kin hkin hsize hlt (Or.inr hsb'), hprimary.symm⟩
  · -- the size
    rw [hsize]
    exact hI.size_lt
  · -- the root is where it was
    have hroot := List.mem_map_of_mem (f := p.newInum) hI.root_mem
    rwa [hs.root] at hroot
  · -- every directory is reached from there
    intro m hm
    obtain ⟨n, hn, rfl⟩ := List.mem_map.mp hm
    have hlift : ∀ m, Relation.ReflTransGen (T.IsSub p d₀) EXT4_ROOT_INO m →
        Relation.ReflTransGen ((T.rename p).IsSub (p.after inodes (primaryDesc p d₁)) d)
          EXT4_ROOT_INO (p.newInum m) := by
      intro m hm
      induction hm with
      | refl =>
          rw [hs.root]
      | @tail b c hb hc ih =>
          obtain ⟨r, hent, rfl⟩ := hc
          have hb' := mem_dirs_of_reach hI.root_mem hb
          exact ih.tail ⟨r, rename_enters hI hs.toLeads hH hbs hb' hent,
            rename_recInum hI hs.toLeads hH hbs hb' hent.1⟩
    exact hlift n (hI.reachable n hn)
  · -- inodes of directories
    intro m hm
    obtain ⟨n, hn, rfl⟩ := List.mem_map.mp hm
    obtain ⟨-, inode, -, hinode, -, hdir⟩ := rename_inode inodes hI hs.toLeads hS hH hdesc hn
    exact ⟨inode, hinode, hdir⟩
  · -- their blocks
    have hmap : (T.rename p).dirs.flatMap (T.rename p).blocks = T.dirs.flatMap T.blocks := by
      change (T.dirs.map p.newInum).flatMap _ = _
      rw [List.flatMap_map]
      exact List.flatMap_congr fun n hn => hI.rename_blocks hs.toLeads hn
    rw [hmap]
    exact hI.blocks_nodup
  · intro m hm b hb
    obtain ⟨n, hn, rfl⟩ := List.mem_map.mp hm
    rw [hI.rename_blocks hs.toLeads hn] at hb
    rw [hsize]
    exact hI.blocks_le n hn b hb
  · -- records
    intro m hm
    obtain ⟨n, hn, rfl⟩ := List.mem_map.mp hm
    rw [rename_buf hI hs.toLeads hH hbs hn, hI.rename_records hs.toLeads hn]
    unfold DirTree.size
    rw [hI.rename_blocks hs.toLeads hn]
    exact tiles_renum hI hn
  · intro m hm
    obtain ⟨n, hn, rfl⟩ := List.mem_map.mp hm
    rw [hI.rename_records hs.toLeads hn]
    have hzero : ∀ r ∈ T.records n,
        recInum ((T.rename p).buf (p.after inodes (primaryDesc p d₁)) d (p.newInum n)) r = 0 ↔
          recInum (T.buf p d₀ n) r = 0 := by
      intro r hr
      have hlive : r ∈ (T.rename p).live (p.after inodes (primaryDesc p d₁)) d (p.newInum n) ↔
          r ∈ T.live p d₀ n := by rw [rename_live hI hs.toLeads hH hbs hn]
      rw [mem_live, mem_live, hI.rename_records hs.toLeads hn] at hlive
      tauto
    refine (hI.live_first n hn).imp_of_mem fun hr hr' h h₀ => ?_
    exact (hzero _ hr').mpr (h ((hzero _ hr).mp h₀))
  · intro m hm r hr
    obtain ⟨n, hn, rfl⟩ := List.mem_map.mp hm
    rw [rename_live hI hs.toLeads hH hbs hn] at hr
    exact rename_entry inodes hI hs.toLeads hS hH hdesc hfixed hn hr
  · -- where things lie
    intro i hi
    rw [hkin.sbOffset, hkin.descOffset, hkin.descLen, hsize]
    exact hI.copies_le i (hkin.hasCopy.mp hi)
  · rw [hbytes]
    exact hI.dirs_state
  · rw [hbytes, hkin.copyBytes_eq]
    exact hI.dirs_copies
  · rw [hbytes, hkin.bitmapBytes_eq]
    exact hI.dirs_bitmaps
  · rw [hbytes]
    exact hI.dirs_nav.mono_right hnav
  · exact hI.nav_state.mono_left hnav
  · rw [hkin.copyBytes_eq]
    exact hI.nav_copies.mono_left hnav
  · rw [hkin.bitmapBytes_eq]
    exact hI.nav_bitmaps.mono_left hnav

end SystemExtras.Ext4
