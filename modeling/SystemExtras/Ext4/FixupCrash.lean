import SystemExtras.Ext4.FixupComplete

/-!
# The last stage after a crash

The last stage reads the number of inodes per group from the primary superblock, adds
what is missing to the free inodes of every descriptor, and then writes the copies, the
primary superblock first.  A run that starts over behind that write reads the new number,
finds nothing missing, and takes the descriptors on the device for the new ones:

```text
cut off                            a run that starts over writes
before the primary superblock      what the first run would have written
behind it, before the descriptors  the old descriptors
behind the primary descriptors     what the first run would have written
```

So the stage can be repeated everywhere only when there is nothing to add
(`survives_iff`).
-/

namespace SystemExtras.Ext4

open DevM

/-! ## Images in the last stage -/

/-- An image whose state word says that the last stage has begun: a filesystem whose copies
and bitmaps lie apart and whose root is a directory in the first group. -/
structure SbImage (p : Fixup) (d : Device) : Prop where
  readExt : Ext4.readExt d = .ok p
  state : getFsFixupState d = .ok .updatingSb
  size_lt : d.size < 2 ^ 63
  groups_pos : 0 < p.aux.groups
  numBlockGroups_pos : 0 < p.numBlockGroups
  inodeSize_dvd : p.info.inodeSize ∣ p.info.blockSize
  root_first : EXT4_ROOT_INO ≤ p.info.inodesPerGroup
  root : ∃ inode, readInode p EXT4_ROOT_INO d = .ok inode ∧ isDirInode inode = true
  copies : CopiesApart p
  copies_le : ∀ i, HasCopy p i → sbOffset p i + Sb.size ≤ d.size ∧
    descOffset p i + p.descLen ≤ d.size
  root_copies : Disjoint (Set.Ico (inodeOffset p EXT4_ROOT_INO)
    (inodeOffset p EXT4_ROOT_INO + DirTree.inodeBytes)) (copyBytes p)

/-- Wherever the update is cut off between two of its writes, the next run returns and leaves
the superblocks, descriptors and inode bitmaps of a run that is not cut off. -/
def Survives (p : Fixup) (d : Device) : Prop :=
  ∀ ws, ws <+: (updateSuperblocksAndBgDesc p .updatingSb false).writes d → ∀ fuel,
    (ext4fixupInternal fuel).result (d.applyAll ws) = .ok () ∧
      ∀ x ∈ copyBytes p ∪ bitmapBytes p,
        ((ext4fixupInternal fuel).final (d.applyAll ws)).bytes x =
          ((ext4fixupInternal fuel).final d).bytes x

/-! ## What a run does in the last stage -/

section Runs

variable {p q : Fixup} {d e u : Device} {fuel : ℕ} {root : Mem}

/-- A run in the last stage is the update and the end of the run. -/
theorem internal_of_update (hp : readExt e = .ok q) (hstate : getFsFixupState e = .ok .updatingSb)
    (hroot : readInode q EXT4_ROOT_INO e = .ok root) (hdir : isDirInode root = true)
    (hup : Returns (fun _ d' => d' = u) ((updateSuperblocksAndBgDesc q .updatingSb false).result e)
      ((updateSuperblocksAndBgDesc q .updatingSb false).final e)) (hsize : 2048 ≤ u.size) :
    (ext4fixupInternal fuel).result e = .ok () ∧ (ext4fixupInternal fuel).final e = finish u := by
  have hcrash : Crash (fun _ => True) (ext4fixupInternal fuel) e
      (Returns fun _ d' => d' = finish u) := by
    unfold ext4fixupInternal
    apply Crash.query_bind hp
    apply Crash.query_bind hroot
    rw [if_neg (by simp [hdir])]
    have hstages : Crash (fun _ => True) (directoryStages q fuel root) e
        (Returns fun _ d' => d' = e) := by
      have hpure := directoryStages_eq_pure q fuel root hstate
      exact Crash.of_no_writes trivial (congrArg Prod.snd hpure) ⟨(), congrArg Prod.fst hpure, rfl⟩
    apply Crash.bind_returns hstages
    rintro _ _ rfl
    unfold superblockStage
    apply inState_of_eq hstate
    apply Crash.bind_returns (P := fun _ d' => d' = u) ⟨fun _ _ => trivial, hup⟩
    intro _ d' hd'
    rw [hd']
    unfold setFsFixupState
    apply Crash.bind_returns (P := fun _ d' => d' = u.apply (stateWrite .unset))
    · exact Crash.write trivial trivial ⟨(), rfl, rfl⟩
    · rintro _ _ rfl
      have hread : readSb (u.apply (stateWrite .unset)) = .ok (sbOf u) := by
        rw [← sbOf_stateWrite u .unset]
        exact readSb_eq (hsize.trans (le_max_left _ _))
      apply Crash.query_bind hread
      unfold writeSb
      rw [if_pos (show seekable 1024 by decide)]
      exact Crash.write trivial trivial ⟨(), rfl, rfl⟩
  obtain ⟨_, hres, hfinal⟩ := hcrash.done
  exact ⟨hres, hfinal⟩

/-- A run that returns has found a root directory. -/
theorem root_of_internal (hp : readExt e = .ok q)
    (hok : (ext4fixupInternal fuel).result e = .ok ()) :
    ∃ root, readInode q EXT4_ROOT_INO e = .ok root ∧ isDirInode root = true := by
  unfold ext4fixupInternal at hok
  obtain ⟨q', hq, hok⟩ := result_bind_eq_ok.mp hok
  have hq : readExt e = .ok q' := hq
  rw [hp] at hq
  cases hq
  obtain ⟨root, hroot, hok⟩ := result_bind_eq_ok.mp hok
  refine ⟨root, hroot, ?_⟩
  by_contra hdir
  rw [if_pos hdir] at hok
  cases hok

/-- The bitmaps of an update that returns. -/
theorem checkInodeBitmaps_returns (groups : List ℕ)
    (hok : (checkInodeBitmaps p false groups).result d = .ok ()) :
    ∀ i ∈ groups, BitmapOk p d.size i := by
  induction groups generalizing d with
  | nil => simp
  | cons i rest ih =>
      unfold checkInodeBitmaps at hok
      obtain ⟨_, h₁, h₂⟩ := result_bind_eq_ok.mp hok
      have hbitmap := bitmapOk_of_returns h₁
      have hsize : ((checkInodeBitmap p false i).final d).size = d.size := by
        obtain ⟨_, -, hsize⟩ := (checkInodeBitmap_spec (I := fun d' => d'.size = d.size) hbitmap rfl
          fun _ _ => Device.apply_size hbitmap.offset_le).done
        exact hsize
      rw [List.forall_mem_cons]
      refine ⟨hbitmap, ?_⟩
      rw [← hsize]
      exact ih h₂

end Runs

section SbImage

variable {p : Fixup} {d : Device}

variable (h : SbImage p d)

include h

theorem SbImage.size_ge : 2048 ≤ d.size := (readExt_eq_ok.mp h.readExt).sb_le

theorem SbImage.hasCopy_zero : HasCopy p 0 := Ext4.hasCopy_zero h.groups_pos

theorem SbImage.seekable {i : ℕ} (hi : HasCopy p i) :
    seekable (sbOffset p i) ∧ seekable (descOffset p i) := by
  have hle := h.copies_le i hi
  have hlt := h.size_lt
  constructor
  · exact show _ < _ by omega
  · exact show _ < _ by omega

/-- What an update has checked when it returns. -/
theorem SbImage.trialOk (hok : (updateSuperblocksAndBgDesc p .updatingSb false).result d = .ok ()) :
    TrialOk p d := by
  unfold updateSuperblocksAndBgDesc at hok
  obtain ⟨sb, hsb, hok⟩ := result_bind_eq_ok.mp hok
  have hsb : readSb d = .ok sb := hsb
  rw [readSb_eq h.size_ge] at hsb
  cases hsb
  rw [final_query] at hok
  obtain ⟨_, hmaps, hok⟩ := result_bind_eq_ok.mp hok
  have hbitmaps := checkInodeBitmaps_returns _ hmaps
  split at hok
  · cases hok
  · rename_i hcount
    split at hok
    · cases hok
    · rename_i haligned
      exact ⟨fun i hi => hbitmaps i (List.mem_range.mpr hi), not_not.mp hcount, not_not.mp haligned,
        fun i hi => (h.seekable hi).2⟩

theorem SbImage.inodesPerGroup_sb : Sb.inodesPerGroup.get (sbOf d) = p.info.inodesPerGroup := by
  obtain ⟨-, -, ⟨bs, len, hbs, hlen, -, -, hinfo⟩, -, -⟩ :=
    ext4ParseSb_eq_ok.mp (readExt_eq_ok.mp h.readExt).parse
  rw [hinfo]
  rfl

/-- The new number of inodes per group leads to the same filesystem. -/
theorem SbImage.compatible (htrial : TrialOk p d) : Compatible p := by
  have hparams := readExt_eq_ok.mp h.readExt
  have hbs := (htrial.bitmaps 0 h.numBlockGroups_pos).blockSize_le
  have hwrap := htrial.noWrap hparams hbs h.numBlockGroups_pos
  refine htrial.compatible (hparams.steady_of_dvd hwrap h.inodeSize_dvd ?_) hparams hbs
    h.numBlockGroups_pos
  have hroot := h.root_first
  unfold EXT4_ROOT_INO at hroot ⊢
  unfold Fixup.newInum
  rw [Nat.div_eq_of_lt (by omega), Nat.mod_eq_of_lt (by omega)]
  omega

theorem SbImage.primaryDesc_eq : primaryDesc p d = p.bgDesc :=
  (readExt_eq_ok.mp h.readExt).bgDesc.symm

end SbImage

/-! ## Nothing to add -/

/-- The device `e` has some of the copies that the update of `d` writes where nothing is to
be added. -/
structure Resumed (p : Fixup) (d e : Device) : Prop where
  size : e.size = d.size
  outside : ∀ x, x ∉ copyBytes p → e.bytes x = d.bytes x
  sb : sbOf e = sbOf d ∨ sbOf e = copyOfSb (sbOf d) 0
  desc : primaryDesc p e = p.bgDesc

section Aligned

variable {p : Fixup} {d e : Device} {w : Write} (h : SbImage p d)
  (haligned : p.newInodesPerGroup = p.info.inodesPerGroup)

include h haligned

theorem SbImage.newSb_eq : newSb p (sbOf d) = sbOf d := by
  apply newSb_of_inodesPerGroup (readExt_eq_ok.mp h.readExt).newInodesPerGroup_lt
  rw [h.inodesPerGroup_sb, haligned]

theorem SbImage.newDesc_eq : newDesc p (sbOf d) = p.bgDesc := by
  have hlt := (readExt_eq_ok.mp h.readExt).newInodesPerGroup_lt
  have hdelta : p.delta (sbOf d) = 0 := by
    unfold Fixup.delta
    rw [h.inodesPerGroup_sb, ← haligned, sub32_of_le le_rfl hlt, Nat.sub_self]
  unfold newDesc
  rw [hdelta, raiseFreeInodes_zero]

theorem Resumed.apply (hw : w ∈ updateWrites p (sbOf d)) (he : Resumed p d e) :
    Resumed p d (e.apply w) := by
  have hzero := h.hasCopy_zero
  have hoff := (readExt_eq_ok.mp h.readExt).descOffset_zero
  have hdesc : ∀ x, p.descLen ≤ x → p.bgDesc x = 0 := by
    intro x hx
    rw [← h.primaryDesc_eq]
    exact if_neg (not_lt.mpr hx)
  unfold updateWrites at hw
  rw [h.newSb_eq haligned, h.newDesc_eq haligned] at hw
  have houtside : ∀ x, x ∉ copyBytes p → (e.apply w).bytes x = d.bytes x := by
    intro x hx
    rw [Device.apply_bytes_of_not_covers fun hc => hx (copyWrites_covers (Kin.refl p) hw hc),
      he.outside x hx]
  obtain ⟨i, hmem, hhas, hcase⟩ := mem_copyWrites hw
  have hi : HasCopy p i := ⟨List.mem_range.mp hmem, hhas⟩
  obtain ⟨hle₁, hle₂⟩ := h.copies_le i hi
  rcases hcase with rfl | rfl
  · refine ⟨(Device.apply_size (he.size.symm ▸ hle₁)).trans he.size, houtside, ?_, ?_⟩
    · rw [sbOf_apply_sbCopy h.copies hzero hi e fun x hx => sbOf_eq_zero d hx]
      split
      · exact Or.inr rfl
      · exact he.sb
    · rw [primaryDesc_apply_sbCopy h.copies hzero hi hoff, he.desc]
  · refine ⟨(Device.apply_size (he.size.symm ▸ hle₂)).trans he.size, houtside, ?_, ?_⟩
    · rw [sbOf_apply_descCopy h.copies hzero hi]
      exact he.sb
    · rw [primaryDesc_apply_descCopy h.copies hzero hi hoff e hdesc, he.desc]
      exact ite_self _

/-- A superblock that has its group number already is copied like the one before. -/
theorem Resumed.updateWrites_eq (he : Resumed p d e) (hI : SbImage p e) :
    updateWrites p (sbOf e) = updateWrites p (sbOf d) := by
  unfold updateWrites
  rw [h.newSb_eq haligned, h.newDesc_eq haligned, hI.newSb_eq haligned, hI.newDesc_eq haligned]
  rcases he.sb with hsb | hsb
  · rw [hsb]
  · have hcopy : ∀ i, copyOfSb (copyOfSb (sbOf d) 0) i = copyOfSb (sbOf d) i := by
      intro i
      by_cases hi : i = 0
      · rw [hi]
        exact Mem.store_of_load_eq (Field.get_set_self _ _ _)
      · exact copyOfSb_copyOfSb hi
    unfold copyWrites copyWritesAt
    simp only [hsb, hcopy]

/-- The parameters with the new number are the old ones. -/
theorem SbImage.after_eq : p.after (migratedCount p (sbOf d)) p.bgDesc = p := by
  have hparams := readExt_eq_ok.mp h.readExt
  have hlt := hparams.newInodesPerGroup_lt
  have hdelta : p.delta (sbOf d) = 0 := by
    unfold Fixup.delta
    rw [h.inodesPerGroup_sb, ← haligned, sub32_of_le le_rfl hlt, Nat.sub_self]
  have hinodes : u32 (migratedCount p (sbOf d)) = p.info.inodes := by
    obtain ⟨-, -, ⟨bs, len, hbs, hlen, -, -, hinfo⟩, -, -⟩ := ext4ParseSb_eq_ok.mp hparams.parse
    unfold migratedCount
    rw [hdelta, Nat.mul_zero, show u32 0 = 0 from rfl, Nat.add_zero, hinfo]
    exact u32_of_lt (Field.get_lt _ _)
  have hinfo : p.afterInfo (migratedCount p (sbOf d)) = p.info := by
    apply FsInfo.ext <;> try rfl
    · exact (u32_of_lt hlt).trans haligned
    · exact hinodes
  obtain ⟨-, -, -, haux, -⟩ := ext4ParseSb_eq_ok.mp hparams.parse
  have htable := (FsAuxInfo.of_create haux).inodeTableBlocks
  unfold Fixup.after
  rw [hinfo, ← htable]

theorem Resumed.sbLike (he : Resumed p d e) :
    SbLike (sbOf d) (sbOf e) ∨ SbLike (migratedSb p (sbOf d)) (sbOf e) := by
  unfold migratedSb
  rw [h.newSb_eq haligned]
  rcases he.sb with hsb | hsb
  · rw [hsb]
    exact Or.inl (SbLike.refl _)
  · rw [hsb]
    exact Or.inr (SbLike.refl _)

theorem Resumed.readExt (hs : Compatible p) (he : Resumed p d e) : Ext4.readExt e = .ok p := by
  have hparams := readExt_eq_ok.mp h.readExt
  apply readExt_eq_ok.mpr
  rcases he.sbLike h haligned with hlike | hlike
  · refine hparams.congr he.size hlike ?_
    intro x h₁ h₂
    have hbyte := congrFun (he.desc.trans h.primaryDesc_eq.symm)
      (x - p.info.blockSize * (p.aux.firstDataBlock + 1))
    unfold primaryDesc Device.slice at hbyte
    rwa [if_pos (by omega), if_pos (by omega), Nat.add_sub_cancel' h₁] at hbyte
  · have hafter := hparams.after hs he.size hlike
    have hdesc :
        e.slice (p.info.blockSize * (p.aux.firstDataBlock + 1)) p.descLen = p.bgDesc := he.desc
    rwa [hdesc, h.after_eq haligned] at hafter

theorem Resumed.image (hs : Compatible p) (he : Resumed p d e) : SbImage p e := by
  obtain ⟨root, hroot, hdir⟩ := h.root
  obtain ⟨hipg, hhas, hseek, hle, rfl⟩ := readInode_eq_ok.mp hroot
  refine ⟨he.readExt h haligned hs, ?_, he.size.symm ▸ h.size_lt, h.groups_pos, h.numBlockGroups_pos,
    h.inodeSize_dvd, h.root_first, ?_, h.copies, ?_, h.root_copies⟩
  · rw [← h.state]
    apply getFsFixupState_congr he.size
    intro x hx
    exact he.outside x fun hmem => Set.disjoint_left.mp h.copies.copies_state hmem hx
  · refine ⟨_, readInode_eq_ok.mpr ⟨hipg, hhas, hseek, he.size.symm ▸ hle, rfl⟩, ?_⟩
    rw [← hdir]
    apply isDirInode_congr
    intro x _ hx
    unfold Device.slice
    split
    · exact he.outside _ fun hmem => Set.disjoint_left.mp h.root_copies
        ⟨Nat.le_add_right _ _, Nat.add_lt_add_left hx _⟩ hmem
    · rfl
  · intro i hi
    rw [he.size]
    exact h.copies_le i hi

/-- Where nothing is to be added, the update writes the copies, and no bitmaps. -/
theorem SbImage.update_aligned (htrial : TrialOk p d) :
    Crash (fun e => ∃ vs, vs <+: updateWrites p (sbOf d) ∧ e = d.applyAll vs)
      (updateSuperblocksAndBgDesc p .updatingSb false) d
      (Returns fun _ d' => d' = d.applyAll (updateWrites p (sbOf d))) := by
  have hspec := update_spec (p := p) (d := d) (I := fun d' => d' = d)
    (K := fun e => ∃ vs, vs <+: updateWrites p (sbOf d) ∧ e = d.applyAll vs) h.size_ge htrial
    (fun i hi => (h.seekable hi).1) rfl (fun d' hd' => by rw [hd'])
    (fun d' i _ _ hmore => by omega) (by
      rintro d' rfl vs hvs
      exact ⟨vs, hvs, rfl⟩)
  refine hspec.mono (fun _ he => he) ?_
  rintro _ _ ⟨a, ha, _, rfl, hfinal⟩
  exact ⟨a, ha, hfinal⟩

/-- The stage can be repeated where nothing is to be added. -/
theorem SbImage.survives (hs : Compatible p) (htrial : TrialOk p d) : Survives p d := by
  intro ws hws fuel
  -- a run on `e` makes all writes of the run on `d`
  have hrun : ∀ vs, vs <+: updateWrites p (sbOf d) →
      (ext4fixupInternal fuel).result (d.applyAll vs) = .ok () ∧
        (ext4fixupInternal fuel).final (d.applyAll vs) =
          finish (d.applyAll (updateWrites p (sbOf d))) := by
    intro vs hvs
    have hstart : Resumed p d d := ⟨rfl, fun _ _ => rfl, Or.inl rfl, h.primaryDesc_eq⟩
    have he : Resumed p d (d.applyAll vs) := Device.applyAll_induction hstart
      fun e w hw he => he.apply h haligned (hvs.subset hw)
    have hall : Resumed p d (d.applyAll (updateWrites p (sbOf d))) :=
      Device.applyAll_induction hstart fun e w hw he => he.apply h haligned hw
    have hI := he.image h haligned hs
    have htrial' : TrialOk p (d.applyAll vs) := htrial.kin (Kin.refl p) he.size
      (readExt_eq_ok.mp h.readExt).newInodesPerGroup_lt (he.sbLike h haligned)
    obtain ⟨root, hroot, hdir⟩ := hI.root
    have hdone := (hI.update_aligned haligned htrial').done
    rw [he.updateWrites_eq h haligned hI, Device.applyAll_of_prefix hvs] at hdone
    exact internal_of_update hI.readExt hI.state hroot hdir hdone (hall.size.symm ▸ h.size_ge)
  obtain ⟨vs, hvs, heq⟩ := (h.update_aligned haligned htrial).cut ws hws
  rw [heq]
  obtain ⟨hres, hfinal⟩ := hrun vs hvs
  have hstart := (hrun [] List.nil_prefix).2
  rw [Device.applyAll_nil] at hstart
  refine ⟨hres, fun x _ => ?_⟩
  rw [hfinal, hstart]

end Aligned

/-! ## Something to add -/

section Descriptors

variable {p q : Fixup} {e : Device} {fuel : ℕ} {root : Mem}

/-- A run in the last stage writes the descriptors it has read, with the counts raised. -/
theorem desc_of_run (hapart : CopiesApart p) (hzero : HasCopy p 0) (hkin : Kin p q)
    (hp : readExt e = .ok q) (hstate : getFsFixupState e = .ok .updatingSb)
    (hroot : readInode q EXT4_ROOT_INO e = .ok root) (hdir : isDirInode root = true)
    (hsize : 2048 ≤ e.size) (htrial : TrialOk q e)
    (hseek : ∀ i, HasCopy q i → seekable (sbOffset q i)) {x : ℕ} (hx : x < p.descLen) :
    ((ext4fixupInternal fuel).final e).bytes (descOffset p 0 + x) = newDesc q (sbOf e) x := by
  have hspec := update_spec (p := q) (d := e) (I := fun d' => d'.size = e.size) (K := fun _ => True)
    hsize htrial hseek rfl (fun _ hd' => hd')
    (fun d' i hi hd' _ =>
      (Device.apply_size (hd'.symm ▸ (htrial.bitmaps i hi).offset_le)).trans hd')
    (fun _ _ _ _ => trivial)
  obtain ⟨_, hres, u, husize, hfinal⟩ := hspec.done
  have hcopies : CopiesHold p (newDesc q (sbOf e)) (newSb q (sbOf e))
      (u.applyAll (updateWrites q (sbOf e))) := copiesHold_applyAll hapart hkin u
  have hrun : (ext4fixupInternal fuel).result e = .ok () ∧
      (ext4fixupInternal fuel).final e = finish (u.applyAll (updateWrites q (sbOf e))) := by
    apply internal_of_update hp hstate hroot hdir ⟨(), hres, hfinal⟩
    rw [Device.applyAll_size, husize]
    exact hsize.trans (le_max_left _ _)
  rw [hrun.2, (hapart.finish_bytes hzero hzero).2 x hx, (hcopies 0 hzero).2 x hx]

end Descriptors

section Unaligned

variable {p : Fixup} {d : Device} (h : SbImage p d) (htrial : TrialOk p d)

include htrial

/-- Before the copies are written, only bitmaps have changed. -/
theorem TrialOk.bitmaps_spec : Crash
    (fun e => e.size = d.size ∧ ∀ x, x ∉ bitmapBytes p → e.bytes x = d.bytes x)
    (checkInodeBitmaps p false (List.range p.numBlockGroups)) d
    (Returns fun _ e => e.size = d.size ∧ ∀ x, x ∉ bitmapBytes p → e.bytes x = d.bytes x) := by
  refine checkInodeBitmaps_spec _ (fun _ he => he.1)
    (fun i hi => htrial.bitmaps i (List.mem_range.mp hi)) ?_ d ⟨rfl, fun _ _ => rfl⟩
  rintro e i hi ⟨hsize, hout⟩ - -
  have hok := htrial.bitmaps i (List.mem_range.mp hi)
  refine ⟨(Device.apply_size (hsize.symm ▸ hok.offset_le)).trans hsize, fun x hx => ?_⟩
  rw [Device.apply_bytes_of_not_covers fun hc =>
    hx (bitmapWrite_covers (Kin.refl p) (List.mem_range.mp hi) hc), hout x hx]

include h

theorem SbImage.update_returns :
    (updateSuperblocksAndBgDesc p .updatingSb false).result d = .ok () := by
  have hspec := update_spec (p := p) (d := d) (I := fun d' => d'.size = d.size) (K := fun _ => True)
    h.size_ge htrial (fun i hi => (h.seekable hi).1) rfl (fun _ hd' => hd')
    (fun d' i hi hd' _ =>
      (Device.apply_size (hd'.symm ▸ (htrial.bitmaps i hi).offset_le)).trans hd')
    (fun _ _ _ _ => trivial)
  obtain ⟨_, hres, -⟩ := hspec.done
  exact hres

/-- The update can be cut off right behind the primary superblock. -/
theorem SbImage.cut_behind_sb : ∃ (ws : List Write) (u : Device),
    ws <+: (updateSuperblocksAndBgDesc p .updatingSb false).writes d ∧ u.size = d.size ∧
      (∀ x, x ∉ bitmapBytes p → u.bytes x = d.bytes x) ∧
      d.applyAll ws = u.apply (sbWrite (migratedSb p (sbOf d))) := by
  obtain ⟨_, hres, hsize, hout⟩ := htrial.bitmaps_spec.done
  have hpair : (List.range p.aux.groups).Pairwise fun _ j => j ≠ 0 :=
    List.pairwise_lt_range.imp fun h => (Nat.zero_lt_of_lt h).ne'
  have hcopies :
      writeCopies p false (newDesc p (sbOf d)) (newSb p (sbOf d)) (List.range p.aux.groups)
      ((checkInodeBitmaps p false (List.range p.numBlockGroups)).final d) =
        (.ok (), updateWrites p (sbOf d)) :=
    writeCopies_eq _ _ (fun _ _ => rfl) hpair
      (fun i hi hhas => h.seekable ⟨List.mem_range.mp hi, hhas⟩) _
  have hwrites : (updateSuperblocksAndBgDesc p .updatingSb false).writes d =
      (checkInodeBitmaps p false (List.range p.numBlockGroups)).writes d ++
        updateWrites p (sbOf d) := by
    unfold updateSuperblocksAndBgDesc
    have hread : (DevM.query readSb).result d = .ok (sbOf d) := readSb_eq h.size_ge
    rw [(ReadOnly.query readSb).writes_bind hread, (bind_of_ok hres).2,
      if_neg (not_not.mpr htrial.count), if_neg (not_not.mpr htrial.aligned), if_pos rfl]
    exact congrArg _ (congrArg Prod.snd hcopies)
  have hfirst : [sbWrite (migratedSb p (sbOf d))] <+: updateWrites p (sbOf d) := by
    obtain ⟨n, hn⟩ := Nat.exists_eq_succ_of_ne_zero h.groups_pos.ne'
    have hzero := h.hasCopy_zero.2
    unfold updateWrites copyWrites
    rw [hn, List.range_succ_eq_map, List.filter_cons_of_pos hzero, List.flatMap_cons]
    unfold copyWritesAt
    rw [sbOffset_zero]
    exact List.prefix_append [_] _
  refine ⟨(checkInodeBitmaps p false (List.range p.numBlockGroups)).writes d ++
    [sbWrite (migratedSb p (sbOf d))], _, ?_, hsize, hout, ?_⟩
  · rw [hwrites, List.prefix_append_right_inj]
    exact hfirst
  · rw [Device.applyAll_append]
    rfl

/-- A run that starts over right behind the primary superblock does not raise the counts. -/
theorem SbImage.not_survives (hs : Compatible p)
    (hmore : p.info.inodesPerGroup < p.newInodesPerGroup) : ¬ Survives p d := by
  have hparams := readExt_eq_ok.mp h.readExt
  have hlt := hparams.newInodesPerGroup_lt
  have hzero := h.hasCopy_zero
  have hoff := hparams.descOffset_zero
  intro hsurvives
  obtain ⟨ws, u, hws, husize, hout, heq⟩ := h.cut_behind_sb htrial
  obtain ⟨hres, hsame⟩ := hsurvives ws hws 0
  have hcopy : ∀ x ∈ copyBytes p, u.bytes x = d.bytes x := fun x hx =>
    hout x (Set.disjoint_left.mp h.copies.copies_bitmaps hx)
  -- the device where the first run is cut off
  have hsize : (d.applyAll ws).size = d.size := by
    rw [heq, Device.apply_size, husize]
    rw [husize]
    exact h.size_ge
  have hsb : sbOf (d.applyAll ws) = migratedSb p (sbOf d) := by
    rw [heq]
    apply sbOf_sbWrite
    intro x hx
    have hx' : 92 ≤ x := le_trans (by decide) hx
    unfold migratedSb
    rw [copyOfSb_zero_apply (Or.inr hx'), newSb_apply (by omega) (by omega) (by omega)]
    exact sbOf_eq_zero d hx
  have hlike : SbLike (migratedSb p (sbOf d)) (sbOf (d.applyAll ws)) := hsb.symm ▸ SbLike.refl _
  have hdesc : (d.applyAll ws).slice (p.info.blockSize * (p.aux.firstDataBlock + 1)) p.descLen =
      p.bgDesc := by
    have hwrite : sbWrite (migratedSb p (sbOf d)) =
        ⟨sbOffset p 0, Sb.size, copyOfSb (newSb p (sbOf d)) 0⟩ := by
      rw [sbOffset_zero]
      rfl
    rw [heq, hwrite]
    refine (primaryDesc_apply_sbCopy h.copies hzero hzero hoff u _).trans ?_
    rw [← h.primaryDesc_eq]
    apply Device.slice_congr
    intro x h₁ h₂
    exact hcopy x ⟨0, hzero, Or.inr (by rw [hoff]; exact ⟨h₁, h₂⟩)⟩
  have hstate : getFsFixupState (d.applyAll ws) = .ok .updatingSb := by
    rw [← h.state]
    apply getFsFixupState_congr hsize
    intro x hx
    rw [heq, Device.apply_bytes_of_not_covers, hout x]
    · exact fun hmem => Set.disjoint_left.mp h.copies.bitmaps_state hmem hx
    · intro hcov
      exact Set.disjoint_left.mp h.copies.copies_state
        (hzero.primarySb_subset (sbWrite_covers.mp hcov)) hx
  have hread := readExt_eq_ok.mpr (hparams.after hs hsize hlike)
  rw [hdesc] at hread
  have hkin : Kin p (p.after (migratedCount p (sbOf d)) p.bgDesc) :=
    ⟨rfl, rfl, rfl, rfl, rfl, rfl, rfl, rfl, rfl, Or.inr (u32_of_lt hlt), DescLike.refl _⟩
  have hbgDesc : (p.after (migratedCount p (sbOf d)) p.bgDesc).bgDesc = p.bgDesc := rfl
  generalize p.after (migratedCount p (sbOf d)) p.bgDesc = q at hread hkin hbgDesc
  obtain ⟨root, hroot, hdir⟩ := h.root
  obtain ⟨root', hroot', hdir'⟩ := root_of_internal hread hres
  have hold : ∀ x < p.descLen, ((ext4fixupInternal 0).final (d.applyAll ws)).bytes
      (descOffset p 0 + x) = p.bgDesc x := by
    intro x hx
    have hdelta : q.delta (sbOf (d.applyAll ws)) = 0 := by
      rw [hkin.delta, hsb]
      unfold Fixup.delta
      rw [inodesPerGroup_migratedSb hlt, sub32_of_le le_rfl hlt, Nat.sub_self]
    rw [desc_of_run h.copies hzero hkin hread hstate hroot' hdir' (hsize.symm ▸ h.size_ge)
      (htrial.kin hkin hsize hlt (Or.inr hlike))
      (fun i hi => hkin.sbOffset i ▸ (h.seekable (hkin.hasCopy.mp hi)).1) hx]
    unfold newDesc
    rw [hdelta, raiseFreeInodes_zero, hbgDesc]
  have hnew : ∀ x < p.descLen, ((ext4fixupInternal 0).final d).bytes (descOffset p 0 + x) =
      newDesc p (sbOf d) x := fun x hx =>
    desc_of_run h.copies hzero (Kin.refl p) h.readExt h.state hroot hdir h.size_ge htrial
      (fun i hi => (h.seekable hi).1) hx
  -- the count of the first group
  have hgroup := htrial.bitmaps 0 h.numBlockGroups_pos
  have hdescLen : 32 ≤ p.descLen := hgroup.hasDesc
  have hcount : (Fixup.descField GroupDesc.bgFreeInodesCount 0).get (newDesc p (sbOf d)) =
      (Fixup.descField GroupDesc.bgFreeInodesCount 0).get p.bgDesc := by
    apply Mem.load_congr
    intro i hi
    change i < 2 at hi
    have hx : 14 + i < p.descLen := by omega
    change newDesc p (sbOf d) (14 + i) = p.bgDesc (14 + i)
    rw [← hnew _ hx, ← hold _ hx]
    exact (hsame _ (Or.inl ⟨0, hzero, Or.inr ⟨Nat.le_add_right _ _, by omega⟩⟩)).symm
  have hraised := freeInodes_raiseFreeInodes p.bgDesc (p.delta (sbOf d)) h.numBlockGroups_pos
  have hdelta : p.delta (sbOf d) = p.newInodesPerGroup - p.info.inodesPerGroup := by
    unfold Fixup.delta
    rw [h.inodesPerGroup_sb, sub32_of_le hmore.le hlt]
  have hbound := (hparams.newInodesPerGroup_bounds hs.noWrap).2
  have hsmall : p.info.blockSize / p.info.inodeSize ≤ 4096 :=
    (Nat.div_le_self _ _).trans hgroup.blockSize_le
  have hwidth : (Fixup.descField GroupDesc.bgFreeInodesCount 0).get p.bgDesc < 2 ^ 16 :=
    Field.get_lt _ _
  unfold newDesc at hcount
  omega

end Unaligned

/-- **The last stage survives a crash only where it has nothing to add.**  On an image in the
last stage on which the update returns, every cut between two of its writes can be made good by
running the tool again if and only if the number of inodes per group is a multiple of the number
of inodes in a block. -/
theorem survives_iff {p : Fixup} {d : Device} (h : SbImage p d)
    (hok : (updateSuperblocksAndBgDesc p .updatingSb false).result d = .ok ()) :
    Survives p d ↔ p.info.inodesPerGroup % (p.info.blockSize / p.info.inodeSize) = 0 := by
  have hparams := readExt_eq_ok.mp h.readExt
  have htrial := h.trialOk hok
  have hs := h.compatible htrial
  rw [← hparams.newInodesPerGroup_eq_self_iff hs.noWrap]
  constructor
  · intro hsurvives
    by_contra hne
    have hle := hparams.le_newInodesPerGroup hs.toLeads
    exact h.not_survives htrial hs (by omega) hsurvives
  · exact fun haligned => h.survives haligned hs htrial

/-! ## Two groups in the last stage -/

/-- The filesystem with the state word of the last stage. -/
def updating (d : Device) : Device := d.apply (stateWrite .updatingSb)

section Updating

variable {p : Fixup} {T : DirTree} {d : Device} (hI : FixupImage p T d)

include hI

theorem FixupImage.updating_size : (updating d).size = d.size := by
  have hge := hI.size_ge
  exact Device.apply_size (show 0 + 8 ≤ d.size by omega)

omit hI in
theorem updating_bytes {x : ℕ} (hx : x ∉ stateBytes) : (updating d).bytes x = d.bytes x := by
  apply Device.apply_bytes_of_not_covers
  rintro ⟨-, hlt⟩
  exact hx (hlt.trans_eq (Nat.zero_add 8))

/-- An image with that state word is one of the last stage. -/
theorem FixupImage.sbImage_updating (hdvd : p.info.inodeSize ∣ p.info.blockSize)
    (hroot : EXT4_ROOT_INO ≤ p.info.inodesPerGroup) (hgroups : 0 < p.numBlockGroups) :
    SbImage p (updating d) := by
  have hparams := readExt_eq_ok.mp hI.readExt
  obtain ⟨inode, hread, hdirInode⟩ := hI.inode _ hI.root_mem
  obtain ⟨hipg, hhas, hseek, hle, rfl⟩ := readInode_eq_ok.mp hread
  have hsize := hI.updating_size
  have hge := hI.size_ge
  refine ⟨?_, getFsFixupState_stateWrite (by omega) _, hsize ▸ hI.size_lt, hI.groups_pos, hgroups,
    hdvd, hroot, ?_, hI.copies, fun i hi => hsize ▸ hI.copies_le i hi, ?_⟩
  · refine readExt_eq_ok.mpr (hparams.congr hsize ?_ fun x h₁ h₂ => updating_bytes ?_)
    · rw [updating, sbOf_stateWrite]
      exact SbLike.refl _
    · exact Set.disjoint_left.mp hI.copies.copies_state (hI.primaryDesc_mem h₁ h₂)
  · refine ⟨_, readInode_eq_ok.mpr ⟨hipg, hhas, hseek, hsize.symm ▸ hle, rfl⟩, ?_⟩
    rw [← hdirInode.isDir]
    apply isDirInode_congr
    intro x _ hx
    have hin : x < sizeofInode := hx.trans (by decide)
    unfold Device.slice
    rw [if_pos hin, if_pos hin]
    exact updating_bytes (Set.disjoint_left.mp hI.nav_state
      (Or.inl ⟨_, Or.inl hI.root_mem, Nat.le_add_right _ _, Nat.add_lt_add_left hx _⟩))
  · refine Set.disjoint_left.mpr fun x hx => Set.disjoint_left.mp hI.nav_copies ?_
    exact Or.inl ⟨_, Or.inl hI.root_mem, hx⟩

theorem FixupImage.trialOk_updating (h : TrialOk p d) : TrialOk p (updating d) := by
  have hparams := readExt_eq_ok.mp hI.readExt
  refine h.kin (Kin.refl _) hI.updating_size hparams.newInodesPerGroup_lt (Or.inl ?_)
  rw [updating, sbOf_stateWrite]
  exact SbLike.refl _

end Updating

theorem sbImage_twoGroups : SbImage twoGroupsFixup (updating twoGroups) :=
  twoGroups_image.sbImage_updating (by decide) (by decide) (by decide)

/-- The last stage over again, on what a complete run has left of the filesystem. -/
theorem survives_iff_again : ∃ q, (updateSuperblocksAndBgDesc q .updatingSb false).result
      (updating ((ext4fixupInternal 2).final twoGroups)) = .ok () ∧
    Survives q (updating ((ext4fixupInternal 2).final twoGroups)) := by
  have hcompat := twoGroups_image.compatible steady_twoGroups trialOk_twoGroups
  obtain ⟨_, -, hfinished, -⟩ :=
    (run_start twoGroups_image trialOk_twoGroups fuel_twoGroups unset_twoGroups).done
  obtain ⟨q, hsucc⟩ := hfinished.image twoGroups_image hcompat
  have htrial := hsucc.trial trialOk_twoGroups
  have haligned := htrial.aligned
  rw [hsucc.aligned] at haligned
  have hnew : q.info.inodesPerGroup = 32 := hsucc.aligned.symm.trans hsucc.kin.newInodesPerGroup
  have himage : SbImage q (updating ((ext4fixupInternal 2).final twoGroups)) := by
    apply hsucc.image.sbImage_updating
    · rw [hsucc.kin.inodeSize, hsucc.kin.blockSize]
      decide
    · rw [hnew]
      decide
    · rw [hsucc.kin.numBlockGroups]
      decide
  have hok := himage.update_returns (hsucc.image.trialOk_updating htrial)
  exact ⟨q, hok, (survives_iff himage hok).mpr haligned⟩

/-- Cut off behind the primary superblock, with 24 inodes in a group and 16 in a block. -/
theorem not_survives_twoGroups : SbImage twoGroupsFixup (updating twoGroups) ∧
    (updateSuperblocksAndBgDesc twoGroupsFixup .updatingSb false).result (updating twoGroups) =
      .ok () ∧
    ¬ Survives twoGroupsFixup (updating twoGroups) := by
  have htrial := twoGroups_image.trialOk_updating trialOk_twoGroups
  refine ⟨sbImage_twoGroups, sbImage_twoGroups.update_returns htrial, ?_⟩
  exact sbImage_twoGroups.not_survives htrial (sbImage_twoGroups.compatible htrial) (by decide)

end SystemExtras.Ext4
