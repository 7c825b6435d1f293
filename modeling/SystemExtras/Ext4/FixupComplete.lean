import SystemExtras.Ext4.FixupRuns

/-!
# Complete runs

What a run that is not cut off leaves of an image, byte by byte (`Completed`): the
directories under their new numbers, every copy of the superblock with the new counts,
and every copy of the descriptors with the free inodes raised.

The second of two runs finds an aligned number of inodes per group and leaves the device
as it is (`second_run`), if it finds the root and all groups.  Two images on which it does
not are at the end: in one the root has moved, in the other the last group is too small
for the larger inode table.
-/

namespace SystemExtras.Ext4

open DevM

/-! ## Superblocks without the low bit of `s_desc_size` -/

section SbLike

variable {sb sb' : Mem}

/-- What is written to `s_desc_size` is no matter before it is written. -/
theorem SbLike.set_descSize (h : SbLike sb sb') (v : ℕ) :
    Sb.descSize.set sb' v = Sb.descSize.set sb v := by
  funext x
  by_cases hx : x < 254 ∨ 256 ≤ x
  · have hskip : ∀ m, Sb.descSize.set m v x = m x := fun m => Mem.store_apply_of_not_mem hx
    rw [hskip, hskip, h.same x hx]
  · have hset : ∀ m, Sb.descSize.set m v x = UInt8.ofNat (v / 256 ^ (x - 254)) :=
      fun m => Mem.store_apply_of_mem (by
        change 254 ≤ x
        omega) (by
        change x < 254 + 2
        omega)
    rw [hset, hset]

theorem SbLike.setUnmountable_unset (h : SbLike sb sb') :
    setUnmountable .unset sb' = setUnmountable .unset sb := by
  change Sb.descSize.set sb' _ = Sb.descSize.set sb _
  rw [h.descSize, h.set_descSize]

/-- A backup has the low bit clear. -/
theorem SbLike.copyOfSb_eq (h : SbLike sb sb') {i : ℕ} (hi : i ≠ 0) :
    copyOfSb sb' i = copyOfSb sb i := by
  have hnr : SbLike (Sb.blockGroupNr.set sb i) (Sb.blockGroupNr.set sb' i) := by
    refine ⟨fun x hx => ?_, ?_⟩
    · exact Mem.assign_congr_at (l := [(Sb.blockGroupNr, i)]) (h.same x hx)
    · rw [descSize_blockGroupNr, descSize_blockGroupNr, h.descSize]
  unfold copyOfSb
  rw [if_pos hi, if_pos hi, hnr.descSize, hnr.set_descSize]

theorem setUnmountable_unset_idem (sb : Mem) :
    setUnmountable .unset (setUnmountable .unset sb) = setUnmountable .unset sb :=
  (setUnmountable_like .unset sb).setUnmountable_unset

end SbLike

/-! ## The last two writes -/

section Finish

variable {u : Device}

/-- The last writes touch the state word and the primary superblock. -/
theorem finish_bytes {x : ℕ} (h₁ : x ∉ stateBytes) (h₂ : x ∉ primarySbBytes) :
    (finish u).bytes x = u.bytes x := by
  unfold finish
  rw [Device.apply_bytes_of_not_covers fun hc => h₂ (sbWrite_covers.mp hc),
    Device.apply_bytes_of_not_covers]
  rintro ⟨-, hc⟩
  exact h₁ (hc.trans_eq (Nat.zero_add 8))

theorem finish_sbOf (u : Device) : sbOf (finish u) = setUnmountable .unset (sbOf u) :=
  sbOf_sbWrite _ (setUnmountable_eq_zero fun _ hx => sbOf_eq_zero u hx)

theorem finish_state {x : ℕ} (hx : x ∈ stateBytes) : (finish u).bytes x = 0 := by
  have hx : x < 8 := hx
  have hzero : (fixupMagic.set Mem.zero FixupState.unset.magic) x = 0 := by
    have hbyte : (fixupMagic.set Mem.zero FixupState.unset.magic) x =
        UInt8.ofNat (0 / 256 ^ (x - 0)) := Mem.store_apply_of_mem (Nat.zero_le _) hx
    rw [hbyte, Nat.zero_div]
    rfl
  unfold finish
  rw [Device.apply_bytes_of_not_covers, Device.apply_bytes_of_covers]
  · exact hzero
  · exact ⟨Nat.zero_le _, hx⟩
  · rintro ⟨hc, -⟩
    change 1024 ≤ x at hc
    omega

end Finish

/-! ## What a run leaves -/

/-- What a complete run leaves of an image. -/
structure Completed (p : Fixup) (T : DirTree) (d₀ d : Device) : Prop where
  finished : Finished p T d₀ d
  state : ∀ x ∈ stateBytes, d.bytes x = 0
  sb : sbOf d = setUnmountable .unset (migratedSb p (sbOf d₀))
  backup : ∀ i, HasCopy p i → i ≠ 0 → ∀ x < Sb.size,
    d.bytes (sbOffset p i + x) = copyOfSb (newSb p (sbOf d₀)) i x
  desc : ∀ i, HasCopy p i → ∀ x < p.descLen, d.bytes (descOffset p i + x) = newDesc p (sbOf d₀) x
  aligned : p.newInodesPerGroup = p.info.inodesPerGroup → ∀ x, x ∉ stateBytes → x ∉ copyBytes p →
    x ∉ T.bytes p → d.bytes x = d₀.bytes x

/-- The descriptors and the backups are not touched by the last two writes. -/
theorem CopiesApart.finish_bytes {p : Fixup} (hapart : CopiesApart p) (hzero : HasCopy p 0) {i : ℕ}
    (hi : HasCopy p i) {u : Device} :
    (i ≠ 0 → ∀ x < Sb.size, (finish u).bytes (sbOffset p i + x) = u.bytes (sbOffset p i + x)) ∧
      ∀ x < p.descLen, (finish u).bytes (descOffset p i + x) = u.bytes (descOffset p i + x) := by
  have hstate : ∀ x ∈ copyBytes p, x ∉ stateBytes := fun x hx =>
    Set.disjoint_left.mp hapart.copies_state hx
  constructor
  · intro hne x hx
    have hsep := hapart.sb_sb i 0 hi hzero hne
    rw [sbOffset_zero] at hsep
    refine Ext4.finish_bytes (hstate _ ⟨i, hi, Or.inl ⟨Nat.le_add_right _ _, by omega⟩⟩) ?_
    rintro ⟨h₁, h₂⟩
    unfold Sb.size at hsep hx
    omega
  · intro x hx
    have hsep := hapart.sb_desc 0 i hzero hi
    rw [sbOffset_zero] at hsep
    refine Ext4.finish_bytes (hstate _ ⟨i, hi, Or.inr ⟨Nat.le_add_right _ _, by omega⟩⟩) ?_
    rintro ⟨h₁, h₂⟩
    unfold Sb.size at hsep
    omega

section Completed

variable {p : Fixup} {T : DirTree} {d₀ d : Device} {fuel : ℕ}

variable (hI : FixupImage p T d₀) (hunset : getFsFixupState d₀ = .ok .unset)
  (hfuel : T.depth EXT4_ROOT_INO < fuel)

include hI hunset hfuel

/-- A run that returns has passed its trial. -/
theorem trialOk_of_returns (hret : (ext4fixupInternal fuel).result d₀ = .ok ()) : TrialOk p d₀ := by
  by_contra htrial
  obtain ⟨-, e, -, he⟩ := run_stops hI hunset hfuel htrial
  rw [hret] at he
  cases he

theorem complete_run (htrial : TrialOk p d₀) : (ext4fixupInternal fuel).result d₀ = .ok () ∧
    Completed p T d₀ ((ext4fixupInternal fuel).final d₀) := by
  obtain ⟨_, hres, hfin, e, u, hdone, hu, hfinal⟩ := (run_start hI htrial hfuel hunset).done
  obtain ⟨d₁, hR, -, hH⟩ := hdone
  have hlike : SbLike (sbOf d₀) (sbOf e) := by
    rw [hH.sbOf_eq hI]
    exact hR.sb
  have hdelta : p.delta (sbOf e) = p.delta (sbOf d₀) := by
    unfold Fixup.delta
    rw [hlike.get (Or.inl (by decide))]
  have hdesc : newDesc p (sbOf e) = newDesc p (sbOf d₀) := by
    unfold newDesc
    rw [hdelta]
  change (ext4fixupInternal fuel).final d₀ = finish u at hfinal
  refine ⟨hres, ?_⟩
  rw [hfinal] at hfin ⊢
  refine ⟨hfin, fun x hx => finish_state hx, ?_, fun i hi hne x hx => ?_, fun i hi x hx => ?_,
    fun haligned x h₁ h₂ h₃ => ?_⟩
  · rw [finish_sbOf, hu.sb.setUnmountable_unset]
  · rw [(hI.copies.finish_bytes hI.hasCopy_zero hi).1 hne x hx, (hu.copies i hi).1 x hx,
      (newSb_like hlike).copyOfSb_eq hne]
  · rw [(hI.copies.finish_bytes hI.hasCopy_zero hi).2 x hx, (hu.copies i hi).2 x hx, hdesc]
  · have hprimary : x ∉ primarySbBytes := fun hx => h₂ (hI.primarySb_subset hx)
    rw [finish_bytes h₁ hprimary, hu.aligned (by omega) x h₂, hH.rest x h₃,
      hR.outside x h₁ hprimary]

end Completed

/-! ## The second run -/

section SecondRun

variable {p : Fixup} {T : DirTree} {d₀ d : Device} {fuel : ℕ}

/-- Free inodes that are raised by nothing. -/
theorem raiseFreeInodes_zero (bgDesc : Mem) (groups : ℕ) :
    raiseFreeInodes bgDesc 0 groups = bgDesc := by
  have hassign := bgDesc.assign_get
    ((List.range groups).map (Fixup.descField GroupDesc.bgFreeInodesCount))
  rw [List.map_map] at hassign
  exact hassign

/-- The counts of free inodes that are raised. -/
theorem freeInodes_raiseFreeInodes (bgDesc : Mem) (delta : ℕ) {groups i : ℕ} (hi : i < groups) :
    (Fixup.descField GroupDesc.bgFreeInodesCount i).get (raiseFreeInodes bgDesc delta groups) =
      ((Fixup.descField GroupDesc.bgFreeInodesCount i).get bgDesc + delta) % 2 ^ 16 := by
  have happart : (((List.range groups).map fun i => (Fixup.descField GroupDesc.bgFreeInodesCount i,
      (Fixup.descField GroupDesc.bgFreeInodesCount i).get bgDesc + delta)).map
        Prod.fst).Pairwise Field.Disjoint := by
    rw [List.map_map, List.pairwise_map]
    refine List.pairwise_lt_range.imp fun {a b} hab => Or.inl ?_
    change 32 * a + 14 + 2 ≤ 32 * b + 14
    omega
  exact Field.get_assign happart i (by simp [hi]) bgDesc

/-- A run on an aligned image leaves the directories as they are. -/
theorem Completed.dirs_of_aligned (hI : FixupImage p T d₀)
    (haligned : p.newInodesPerGroup = p.info.inodesPerGroup) (hd : Completed p T d₀ d) {x : ℕ}
    (hx : x ∈ T.bytes p) : d.bytes x = d₀.bytes x := by
  obtain ⟨n, hn, b, hb, h₁, h₂⟩ := hx
  obtain ⟨d₁, -, -, hH⟩ := hd.finished
  have hbuf : T.buf p d n = T.buf p d₀ n := by
    rw [hH.buf n hn, hI.holds.buf n hn]
    funext y
    apply renum_congr
    intro r hr _ _
    exact newInum_of_aligned haligned (origInum_pos hr)
  have hslice := congrFun (slice_eq_of_buf hI.blockSize_pos hb hbuf) (x - b * p.info.blockSize)
  unfold Device.slice at hslice
  rwa [if_pos (by omega), if_pos (by omega), Nat.add_sub_cancel' h₁] at hslice

theorem Completed.second_run (hI : FixupImage p T d₀) (hs : Compatible p) (htrial : TrialOk p d₀)
    (hfuel : T.depth EXT4_ROOT_INO < fuel) (hd : Completed p T d₀ d) :
    (ext4fixupInternal fuel).result d = .ok () ∧ (ext4fixupInternal fuel).final d = d := by
  obtain ⟨q, hsucc⟩ := hd.finished.image hI hs
  have hdepth : (T.rename p).depth EXT4_ROOT_INO < fuel := by
    have hroot := hI.rename_depth hs.toLeads hI.root_mem
    rw [hs.root] at hroot
    exact hroot.trans_lt hfuel
  obtain ⟨hret, hd'⟩ := complete_run hsucc.image hsucc.unset hdepth (hsucc.trial htrial)
  refine ⟨hret, ?_⟩
  generalize (ext4fixupInternal fuel).final d = d' at hd'
  have hkin := hsucc.kin
  have hlt := (readExt_eq_ok.mp hI.readExt).newInodesPerGroup_lt
  have hlike : SbLike (migratedSb p (sbOf d₀)) (sbOf d) := by
    rw [hd.sb]
    exact setUnmountable_like _ _
  have hipg : Sb.inodesPerGroup.get (sbOf d) = p.newInodesPerGroup := by
    rw [hlike.get (Or.inl (by decide)), inodesPerGroup_migratedSb hlt]
  -- the superblocks have the new counts already
  have hnewSb : newSb q (sbOf d) = sbOf d := by
    rw [hkin.newSb]
    exact newSb_of_inodesPerGroup hlt hipg
  have hsb : sbOf d' = sbOf d := by
    have hmigrated : migratedSb q (sbOf d) = sbOf d := by
      unfold migratedSb
      rw [hkin.newSb]
      exact migratedSb_migratedSb hlt hlike
    rw [hd'.sb, hmigrated, hd.sb, setUnmountable_unset_idem]
  -- and the descriptors
  have hdesc : newDesc q (sbOf d) = primaryDesc p d := by
    have hdelta : q.delta (sbOf d) = 0 := by
      rw [hkin.delta]
      unfold Fixup.delta
      rw [hipg, sub32_of_le le_rfl hlt, Nat.sub_self]
    unfold newDesc
    rw [hdelta, raiseFreeInodes_zero, hsucc.desc]
  have hprimary : ∀ x < p.descLen, primaryDesc p d x = newDesc p (sbOf d₀) x := by
    intro x hx
    have hoff := (readExt_eq_ok.mp hI.readExt).descOffset_zero
    have hbyte := hd.desc 0 hI.hasCopy_zero x hx
    rw [hoff] at hbyte
    exact (if_pos hx).trans hbyte
  have hcopies : ∀ x ∈ copyBytes p, d'.bytes x = d.bytes x := by
    rintro x ⟨i, hi, ⟨h₁, h₂⟩ | ⟨h₁, h₂⟩⟩
    · obtain ⟨y, rfl⟩ := Nat.exists_eq_add_of_le h₁
      have hy : y < Sb.size := by omega
      by_cases hzero : i = 0
      · subst hzero
        have hbyte : ∀ e : Device, e.bytes (sbOffset p 0 + y) = sbOf e y := by
          intro e
          rw [sbOffset_zero]
          exact (if_pos hy).symm
        rw [hbyte, hbyte, hsb]
      · have hbyte := hd'.backup i (hkin.hasCopy.mpr hi) hzero y hy
        rw [hkin.sbOffset, hnewSb, hlike.copyOfSb_eq hzero] at hbyte
        rw [hbyte, hd.backup i hi hzero y hy]
        exact congrFun (copyOfSb_copyOfSb hzero) y
    · obtain ⟨y, rfl⟩ := Nat.exists_eq_add_of_le h₁
      have hy : y < p.descLen := by omega
      have hbyte := hd'.desc i (hkin.hasCopy.mpr hi) y (hkin.descLen ▸ hy)
      rw [hkin.descOffset, hdesc, hprimary y hy] at hbyte
      rw [hbyte, hd.desc i hi y hy]
  have hbytes : (T.rename p).bytes q = T.bytes p := hI.rename_bytes hs.toLeads hkin.blockSize
  have hsize : d'.size = d.size := by
    obtain ⟨d₁, hR, -, hH⟩ := hd'.finished
    exact hH.size.trans hR.size
  refine Device.ext hsize fun x => ?_
  by_cases h₁ : x ∈ stateBytes
  · rw [hd'.state x h₁, hd.state x h₁]
  by_cases h₂ : x ∈ copyBytes p
  · exact hcopies x h₂
  by_cases h₃ : x ∈ T.bytes p
  · exact hd'.dirs_of_aligned hsucc.image hsucc.aligned (hbytes ▸ h₃)
  · exact hd'.aligned hsucc.aligned x h₁ (hkin.copyBytes_eq ▸ h₂) (hbytes ▸ h₃)

/-- **A second run changes nothing.**  If a run on an image returns, the root keeps its number and
the last group is not given up, then another run returns and leaves every byte as it is. -/
theorem fixup_idempotent (hI : FixupImage p T d₀) (hs : Steady p)
    (hunset : getFsFixupState d₀ = .ok .unset) (hfuel : T.depth EXT4_ROOT_INO < fuel)
    (hret : (ext4fixupInternal fuel).result d₀ = .ok ()) :
    (ext4fixupInternal fuel).result ((ext4fixupInternal fuel).final d₀) = .ok () ∧
      (ext4fixupInternal fuel).final ((ext4fixupInternal fuel).final d₀) =
        (ext4fixupInternal fuel).final d₀ := by
  have htrial := trialOk_of_returns hI hunset hfuel hret
  obtain ⟨-, hd⟩ := complete_run hI hunset hfuel htrial
  exact hd.second_run hI (hI.compatible hs htrial) htrial hfuel

end SecondRun

theorem fixup_idempotent_twoGroups :
    (ext4fixupInternal 2).result ((ext4fixupInternal 2).final twoGroups) = .ok () ∧
      (ext4fixupInternal 2).final ((ext4fixupInternal 2).final twoGroups) =
        (ext4fixupInternal 2).final twoGroups := by
  obtain ⟨hret, -⟩ :=
    complete_run twoGroups_image unset_twoGroups fuel_twoGroups trialOk_twoGroups
  exact fixup_idempotent twoGroups_image steady_twoGroups unset_twoGroups fuel_twoGroups hret

/-! ## Images with nothing but a root -/

/-- The root in block `b`, with its own two entries. -/
def rootTree (b : ℕ) : DirTree where
  dirs := [2]
  blocks _ := [b]
  records _ := [0, 12]
  depth _ := 0

/-- Bitmaps in the blocks of `twoGroups`. -/
theorem bitmapBytes_eq_twoGroups {p : Fixup} (hgroups : p.numBlockGroups = 2)
    (hbs : p.info.blockSize = 2048)
    (hmaps : ∀ i < 2, (Fixup.descField GroupDesc.bgInodeBitmap i).get p.bgDesc =
      (Fixup.descField GroupDesc.bgInodeBitmap i).get twoGroupsFixup.bgDesc) :
    bitmapBytes p = bitmapBytes twoGroupsFixup := by
  have hgroups' : twoGroupsFixup.numBlockGroups = 2 := by decide
  ext x
  unfold bitmapBytes blockBytes
  rw [hgroups, hgroups', hbs]
  constructor
  · rintro ⟨i, hi, hx⟩
    exact ⟨i, hi, hmaps i hi ▸ hx⟩
  · rintro ⟨i, hi, hx⟩
    exact ⟨i, hi, (hmaps i hi).symm ▸ hx⟩

/-- The copies and bitmaps are where they are in `twoGroups`; the root has the inode at `o` and the
block `b`. -/
structure OnlyRoot (p : Fixup) (d : Device) (o b : ℕ) : Prop where
  readExt : readExt d = .ok p
  size_lt : d.size < 2 ^ 63
  groups_pos : 0 < p.aux.groups
  blockSize : p.info.blockSize = 2048
  inodeOffset_eq : inodeOffset p 2 = o
  inode : readInode p 2 d = .ok (d.slice o sizeofInode)
  dir : DirInode p [b] (d.slice o sizeofInode) d
  mapBlocks_eq : mapBlocks p (d.slice o sizeofInode) = []
  block_le : b * 2048 + 2048 ≤ d.size
  tiles : Tiles ((rootTree b).buf p d 2) 2048 2048 0 [0, 12]
  inums : ∀ r ∈ [0, 12], recInum ((rootTree b).buf p d 2) r = 2
  types : ∀ r ∈ [0, 12], recFileType ((rootTree b).buf p d 2) r = EXT4_FT_DIR
  names : ∀ r ∈ [0, 12], recName ((rootTree b).buf p d 2) r = [46] ∨
    recName ((rootTree b).buf p d 2) r = [46, 46]
  newInum_lt : p.newInum 2 < 2 ^ 31
  copies : CopiesApart p
  copies_le : ∀ i, HasCopy p i → sbOffset p i + Sb.size ≤ d.size ∧
    descOffset p i + p.descLen ≤ d.size
  copyBytes_eq : copyBytes p = copyBytes twoGroupsFixup
  bitmapBytes_eq : bitmapBytes p = bitmapBytes twoGroupsFixup
  block_apart : ∀ x, b * 2048 ≤ x → x < b * 2048 + 2048 → 8 ≤ x ∧ (x < o ∨ o + sizeofInode ≤ x) ∧
    ¬ (1024 ≤ x ∧ x < 4096 ∨ 16384 ≤ x ∧ x < 20480) ∧
    ¬ (6144 ≤ x ∧ x < 8192 ∨ 22528 ≤ x ∧ x < 24576)
  inode_apart : ∀ x, o ≤ x → x < o + sizeofInode → 8 ≤ x ∧
    ¬ (1024 ≤ x ∧ x < 4096 ∨ 16384 ≤ x ∧ x < 20480) ∧
    ¬ (6144 ≤ x ∧ x < 8192 ∨ 22528 ≤ x ∧ x < 24576)

section OnlyRoot

variable {p : Fixup} {d : Device} {o b : ℕ} (h : OnlyRoot p d o b)

include h

namespace OnlyRoot

theorem dirBytes : ∀ x ∈ (rootTree b).bytes p, b * 2048 ≤ x ∧ x < b * 2048 + 2048 := by
  rintro x ⟨n, -, c, hc, hx⟩
  obtain rfl : c = b := List.mem_singleton.mp hc
  unfold blockBytes at hx
  rwa [h.blockSize] at hx

theorem navBytes : ∀ x ∈ (rootTree b).navBytes p d, o ≤ x ∧ x < o + sizeofInode := by
  rintro x (⟨v, hv, hx⟩ | ⟨n, hn, inode, hread, c, hc, -⟩)
  · obtain rfl : v = 2 := by
      rcases hv with hv | ⟨n, -, r, hr, rfl⟩
      · exact List.mem_singleton.mp hv
      · exact h.inums r (List.mem_of_mem_filter hr)
    rw [h.inodeOffset_eq] at hx
    exact ⟨hx.1, hx.2.trans (Nat.add_lt_add_left (by decide) _)⟩
  · obtain rfl : n = 2 := List.mem_singleton.mp hn
    rw [h.inode] at hread
    cases hread
    rw [h.mapBlocks_eq] at hc
    cases hc

end OnlyRoot

theorem onlyRoot_image : FixupImage p (rootTree b) d where
  readExt := h.readExt
  size_lt := h.size_lt
  groups_pos := h.groups_pos
  blockSize_le := h.blockSize ▸ by decide
  root_mem := List.mem_singleton_self _
  reachable := by
    intro n hn
    obtain rfl : n = 2 := List.mem_singleton.mp hn
    exact Relation.ReflTransGen.refl
  inode := by
    intro n hn
    obtain rfl : n = 2 := List.mem_singleton.mp hn
    exact ⟨_, h.inode, h.dir⟩
  blocks_nodup := List.nodup_singleton _
  blocks_le := by
    intro n _ c hc
    obtain rfl : c = b := List.mem_singleton.mp hc
    rw [h.blockSize]
    exact h.block_le
  tiles := by
    intro n hn
    obtain rfl : n = 2 := List.mem_singleton.mp hn
    have hsize : (rootTree b).size p 2 = 2048 := by
      unfold DirTree.size
      rw [h.blockSize]
      rfl
    rw [hsize, h.blockSize]
    exact h.tiles
  live_first := by
    intro n hn
    obtain rfl : n = 2 := List.mem_singleton.mp hn
    exact List.pairwise_pair.mpr fun hzero => absurd ((h.inums 0 (by decide)).symm.trans hzero)
      (by decide)
  entry := by
    intro n hn r hr
    obtain rfl : n = 2 := List.mem_singleton.mp hn
    have hr : r ∈ [0, 12] := List.mem_of_mem_filter hr
    rw [h.inums r hr, h.types r hr]
    refine ⟨by decide, h.newInum_lt, _, h.inode, Or.inr (iff_of_true rfl h.dir.isDir),
      fun _ => ⟨List.mem_singleton_self _, fun h₁ h₂ => ?_⟩⟩
    rcases h.names r hr with hname | hname
    · exact absurd hname h₁
    · exact absurd hname h₂
  copies := h.copies
  copies_le := h.copies_le
  dirs_state := disjoint_of_bounds h.dirBytes (fun _ hx => hx) fun x hx (hx' : x < 8) => by
    have := (h.block_apart x hx.1 hx.2).1
    omega
  dirs_copies := by
    rw [h.copyBytes_eq]
    exact disjoint_of_bounds h.dirBytes copyBytes_twoGroups
      fun x hx => (h.block_apart x hx.1 hx.2).2.2.1
  dirs_bitmaps := by
    rw [h.bitmapBytes_eq]
    exact disjoint_of_bounds h.dirBytes bitmapBytes_twoGroups
      fun x hx => (h.block_apart x hx.1 hx.2).2.2.2
  dirs_nav := disjoint_of_bounds h.dirBytes h.navBytes fun x hx hx' => by
    have := (h.block_apart x hx.1 hx.2).2.1
    omega
  nav_state := disjoint_of_bounds h.navBytes (fun _ hx => hx) fun x hx (hx' : x < 8) => by
    have := (h.inode_apart x hx.1 hx.2).1
    omega
  nav_copies := by
    rw [h.copyBytes_eq]
    exact disjoint_of_bounds h.navBytes copyBytes_twoGroups
      fun x hx => (h.inode_apart x hx.1 hx.2).2.1
  nav_bitmaps := by
    rw [h.bitmapBytes_eq]
    exact disjoint_of_bounds h.navBytes bitmapBytes_twoGroups
      fun x hx => (h.inode_apart x hx.1 hx.2).2.2

end OnlyRoot

/-! ## An image whose root moves -/

/-- A filesystem with one inode in each of its two groups, so that the root is in the second. -/
def movingRoot : Device where
  size := 32768
  bytes := Mem.zero.assign <|
    [(Sb.inodesCount.at_ 1024, 2), (Sb.blocksCountLo.at_ 1024, 16), (Sb.logBlockSize.at_ 1024, 1),
      (Sb.blocksPerGroup.at_ 1024, 8), (Sb.inodesPerGroup.at_ 1024, 1),
      (Sb.magic.at_ 1024, EXT4_SUPER_MAGIC), (Sb.state.at_ 1024, EXT4_VALID_FS),
      (Sb.inodeSize.at_ 1024, 128), (Sb.featureIncompat.at_ 1024, EXT4_FEATURE_INCOMPAT_FILETYPE),
      (Sb.descSize.at_ 1024, 32),
      (GroupDesc.bgInodeBitmap.at_ 2048, 3), (GroupDesc.bgInodeTable.at_ 2048, 4),
      (GroupDesc.bgInodeBitmap.at_ 2080, 11), (GroupDesc.bgInodeTable.at_ 2080, 12)] ++
    inodeAt 24576 0x4000 14 ++
    entryAt 28672 2 12 EXT4_FT_DIR [46] ++ entryAt 28684 2 2036 EXT4_FT_DIR [46, 46]

def movingRootFixup : Fixup where
  info := { twoGroupsInfo with
    inodesPerGroup := 1
    inodes := 2
    inRange := by decide }
  aux := { twoGroupsAux with inodeTableBlocks := 1 }
  bgDesc := movingRoot.slice 2048 2048
  newInodesPerGroup := 16

def movingRootTree : DirTree := rootTree 14

theorem readExt_movingRoot : readExt movingRoot = .ok movingRootFixup := by
  apply readExt_eq_ok.mpr
  refine ⟨by decide, ?_, by decide, ?_, by decide, by decide, rfl, by decide, by decide, by decide,
    by decide⟩
  · decide
  · left
    decide

theorem movingRoot_image : FixupImage movingRootFixup movingRootTree movingRoot := by
  have hoff : inodeOffset movingRootFixup 2 = 24576 := by decide
  have hmap : mapBlocks movingRootFixup (movingRoot.slice 24576 sizeofInode) = [] := by decide
  have hbitmaps : bitmapBytes movingRootFixup = bitmapBytes twoGroupsFixup :=
    bitmapBytes_eq_twoGroups (by decide) rfl (by decide)
  obtain ⟨h₁, h₂, h₃, h₄, h₅, h₆⟩ := twoGroups_image.copies
  apply onlyRoot_image (o := 24576)
  exact {
    readExt := readExt_movingRoot
    size_lt := by decide
    groups_pos := by decide
    blockSize := rfl
    inodeOffset_eq := hoff
    inode := readInode_eq_ok.mpr ⟨by decide, by decide, by rw [hoff]; decide, by rw [hoff]; decide,
      by rw [hoff]⟩
    dir := ⟨by decide, by decide, by decide, fun h => absurd h (by decide), by simp [hmap],
      by decide⟩
    mapBlocks_eq := hmap
    block_le := by decide
    tiles := by decide
    inums := by decide
    types := by decide
    names := by decide
    newInum_lt := by decide
    copies := ⟨h₁, by rwa [hbitmaps], by rwa [hbitmaps], h₄, h₅, h₆⟩
    copies_le := twoGroups_image.copies_le
    copyBytes_eq := rfl
    bitmapBytes_eq := hbitmaps
    block_apart := by
      unfold sizeofInode
      omega
    inode_apart := by
      unfold sizeofInode
      omega }

theorem unset_movingRoot : getFsFixupState movingRoot = .ok .unset := by decide

/-- The first run gives the root the number `17`, and the second one looks for it at number `2`. -/
theorem not_idempotent_movingRoot :
    FixupImage movingRootFixup movingRootTree movingRoot ∧
      getFsFixupState movingRoot = .ok .unset ∧ movingRootFixup.info.blockSize = 2048 ∧
      (ext4fixupInternal 1).result movingRoot = .ok () ∧
      (ext4fixupInternal 1).result ((ext4fixupInternal 1).final movingRoot) =
        .error (.criticalError "root inode %d does not point to a directory\n") :=
  ⟨movingRoot_image, unset_movingRoot, rfl, by decide +kernel, by decide +kernel⟩

/-! ## An image whose last group is full -/

/-- A filesystem of 14 blocks with inodes of 700 bytes, five to a group.  The header of the second
group takes all of its six blocks. -/
def fullGroup : Device where
  size := 28672
  bytes := Mem.zero.assign <|
    [(Sb.inodesCount.at_ 1024, 10), (Sb.blocksCountLo.at_ 1024, 14), (Sb.logBlockSize.at_ 1024, 1),
      (Sb.blocksPerGroup.at_ 1024, 8), (Sb.inodesPerGroup.at_ 1024, 5),
      (Sb.magic.at_ 1024, EXT4_SUPER_MAGIC), (Sb.state.at_ 1024, EXT4_VALID_FS),
      (Sb.inodeSize.at_ 1024, 700), (Sb.featureIncompat.at_ 1024, EXT4_FEATURE_INCOMPAT_FILETYPE),
      (Sb.descSize.at_ 1024, 32),
      (GroupDesc.bgInodeBitmap.at_ 2048, 3), (GroupDesc.bgInodeTable.at_ 2048, 4),
      (GroupDesc.bgInodeBitmap.at_ 2080, 11), (GroupDesc.bgInodeTable.at_ 2080, 12)] ++
    inodeAt 8892 0x4000 6 ++
    entryAt 12288 2 12 EXT4_FT_DIR [46] ++ entryAt 12300 2 2036 EXT4_FT_DIR [46, 46]

def fullGroupFixup : Fixup where
  info := { twoGroupsInfo with
    len := 28672
    inodesPerGroup := 5
    inodeSize := 700
    inodes := 10
    inRange := by decide }
  aux := { twoGroupsAux with lenBlocks := 14 }
  bgDesc := fullGroup.slice 2048 2048
  newInodesPerGroup := 6

theorem readExt_fullGroup : readExt fullGroup = .ok fullGroupFixup := by
  apply readExt_eq_ok.mpr
  refine ⟨by decide, ?_, by decide, ?_, by decide, by decide, rfl, by decide, by decide, by decide,
    by decide⟩
  · decide
  · left
    decide

theorem fullGroup_image : FixupImage fullGroupFixup (rootTree 6) fullGroup := by
  have hoff : inodeOffset fullGroupFixup 2 = 8892 := by decide
  have hmap : mapBlocks fullGroupFixup (fullGroup.slice 8892 sizeofInode) = [] := by decide
  have hbitmaps : bitmapBytes fullGroupFixup = bitmapBytes twoGroupsFixup :=
    bitmapBytes_eq_twoGroups (by decide) rfl (by decide)
  obtain ⟨h₁, h₂, h₃, h₄, h₅, h₆⟩ := twoGroups_image.copies
  have hcopies : ∀ i ∈ [0, 1], sbOffset fullGroupFixup i + Sb.size ≤ fullGroup.size ∧
      descOffset fullGroupFixup i + fullGroupFixup.descLen ≤ fullGroup.size := by decide
  apply onlyRoot_image (o := 8892)
  exact {
    readExt := readExt_fullGroup
    size_lt := by decide
    groups_pos := by decide
    blockSize := rfl
    inodeOffset_eq := hoff
    inode := readInode_eq_ok.mpr ⟨by decide, by decide, by rw [hoff]; decide, by rw [hoff]; decide,
      by rw [hoff]⟩
    dir := ⟨by decide, by decide, by decide, fun h => absurd h (by decide), by simp [hmap],
      by decide⟩
    mapBlocks_eq := hmap
    block_le := by decide
    tiles := by decide
    inums := by decide
    types := by decide
    names := by decide
    newInum_lt := by decide
    copies := ⟨h₁, by rwa [hbitmaps], by rwa [hbitmaps], h₄, h₅, h₆⟩
    copies_le := fun i hi => hcopies i (hasCopy_twoGroups hi)
    copyBytes_eq := rfl
    bitmapBytes_eq := hbitmaps
    block_apart := by
      unfold sizeofInode
      omega
    inode_apart := by
      unfold sizeofInode
      omega }

/-- With six inodes a table takes three blocks, so the second run finds the last group too small and
counts only one. -/
theorem not_idempotent_fullGroup :
    FixupImage fullGroupFixup (rootTree 6) fullGroup ∧ getFsFixupState fullGroup = .ok .unset ∧
      fullGroupFixup.newInum EXT4_ROOT_INO = EXT4_ROOT_INO ∧
      (ext4fixupInternal 1).result fullGroup = .ok () ∧
      (ext4fixupInternal 1).result ((ext4fixupInternal 1).final fullGroup) =
        .error (.criticalError "Failed sanity check on new inode count\n") :=
  ⟨fullGroup_image, by decide, by decide, by decide +kernel, by decide +kernel⟩

end SystemExtras.Ext4
