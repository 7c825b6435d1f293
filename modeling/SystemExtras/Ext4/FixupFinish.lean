import SystemExtras.Ext4.FixupUpdate

/-!
# The last stage, cut off or not

While the superblocks and descriptors are updated, the directories stay as they are
and the primary superblock is the old one or the new one (`SbRest`).  Either way a run
that starts over reads parameters that lead to the same root and the same places
(`SbRest.params`), makes the same checks with the same outcome, and writes what is
missing (`update_keeps`, `superblockStage_spec`).
-/

namespace SystemExtras.Ext4

open DevM

/-! ## What the last stage may have done -/

/-- The descriptors that `read_ext` reads. -/
def primaryDesc (p : Fixup) (d : Device) : Mem :=
  d.slice (p.info.blockSize * (p.aux.firstDataBlock + 1)) p.descLen

/-- The device `d₁` is the image in the given state, with the copies of superblock and
descriptors and the inode bitmaps as the last stage may leave them. -/
structure SbRest (p : Fixup) (d₀ : Device) (s : FixupState) (d₁ : Device) : Prop where
  size : d₁.size = d₀.size
  outside : ∀ x, x ∉ stateBytes → x ∉ copyBytes p → x ∉ bitmapBytes p → d₁.bytes x = d₀.bytes x
  sb : SbLike (sbOf d₀) (sbOf d₁) ∨ SbLike (migratedSb p (sbOf d₀)) (sbOf d₁)
  desc : DescLike p.bgDesc (primaryDesc p d₁)
  state : getFsFixupState d₁ = .ok s

/-- The last stage is under way; if `g` holds, the filesystem cannot be mounted. -/
def InSb (p : Fixup) (T : DirTree) (d₀ : Device) (g : Prop) (d : Device) : Prop :=
  ∃ d₁, SbRest p d₀ .updatingSb d₁ ∧ (g → Guarded d₁) ∧ Holds p T d₀ d₁ (newNums p T d₀) d

section SbRest

variable {p q : Fixup} {T : DirTree} {d₀ d₁ d : Device} {s : FixupState} {g : Prop} {i : ℕ}
  {val : ℕ → ℕ → ℕ}

/-- The bytes of an inode bitmap, in either spelling. -/
theorem bitmapOffset_eq (p : Fixup) (i : ℕ) : bitmapOffset p i =
    (Fixup.descField GroupDesc.bgInodeBitmap i).get p.bgDesc * p.info.blockSize := by
  have hb : (Fixup.descField GroupDesc.bgInodeBitmap i).get p.bgDesc < 2 ^ 32 :=
    (Field.get_lt _ _).trans_le (show 256 ^ 4 ≤ 2 ^ 32 by decide)
  have hlt := p.info.blockSize_lt
  unfold bitmapOffset
  apply u64_of_lt
  calc (Fixup.descField GroupDesc.bgInodeBitmap i).get p.bgDesc * p.info.blockSize
      < 2 ^ 32 * 2 ^ 32 := Nat.mul_lt_mul'' hb hlt
    _ = 2 ^ 64 := by decide

variable (hI : FixupImage p T d₀)

include hI

theorem primaryDesc_image : primaryDesc p d₀ = p.bgDesc := (readExt_eq_ok.mp hI.readExt).bgDesc.symm

theorem StageRest.sbRest (h : StageRest d₀ s d₁) : SbRest p d₀ s d₁ := by
  refine ⟨h.size, fun x hx₁ hx₂ _ => ?_, Or.inl h.sb, ?_, h.state⟩
  · exact h.outside x hx₁ fun hmem => hx₂ (hI.primarySb_subset hmem)
  · have hsame : primaryDesc p d₁ = primaryDesc p d₀ := by
      apply Device.slice_congr
      intro x h₁ h₂
      apply h.outside
      · exact Set.disjoint_left.mp hI.copies.copies_state (hI.primaryDesc_mem h₁ h₂)
      · exact hI.primaryDesc_notMem h₁ h₂
    rw [hsame, primaryDesc_image hI]
    exact DescLike.refl _

theorem DirsDone.inSb (h : DirsDone p T d₀ g d) : InSb p T d₀ g d := by
  obtain ⟨d₁, hR, hguard, hH⟩ := h
  exact ⟨d₁, hR.sbRest hI, hguard, hH⟩

theorem SbRest.sameNav (h : SbRest p d₀ s d₁) : SameNav p T d₀ d₁ := by
  refine ⟨h.size, fun x hx => h.outside x ?_ ?_ ?_⟩
  · exact Set.disjoint_left.mp hI.nav_state hx
  · exact Set.disjoint_left.mp hI.nav_copies hx
  · exact Set.disjoint_left.mp hI.nav_bitmaps hx

/-- The parameters that a run reads during the last stage. -/
theorem SbRest.params (hs : Compatible p) (h : SbRest p d₀ s d₁) (hH : Holds p T d₀ d₁ val d) :
    ∃ q, readExt d = .ok q ∧ Kin p q ∧ q.bgDesc = primaryDesc p d₁ ∧
      (SbLike (migratedSb p (sbOf d₀)) (sbOf d₁) →
        q = p.after (migratedCount p (sbOf d₀)) (primaryDesc p d₁)) ∧
      (q = p.after (migratedCount p (sbOf d₀)) (primaryDesc p d₁) ∨ q.info = p.info) := by
  have hparams := readExt_eq_ok.mp hI.readExt
  have hsize : d.size = d₀.size := hH.size.trans h.size
  have hdesc : primaryDesc p d = primaryDesc p d₁ := Device.slice_congr (hH.desc_sameOn hI)
  have hlt := hparams.newInodesPerGroup_lt
  by_cases hnew : SbLike (migratedSb p (sbOf d₀)) (sbOf d₁)
  · refine ⟨p.after (migratedCount p (sbOf d₀)) (primaryDesc p d₁), ?_, ?_, rfl, fun _ => rfl,
      Or.inl rfl⟩
    · rw [← hdesc]
      refine readExt_eq_ok.mpr (hparams.after hs hsize ?_)
      rw [hH.sbOf_eq hI]
      exact hnew
    · exact ⟨rfl, rfl, rfl, rfl, rfl, rfl, rfl, rfl, rfl, Or.inr (u32_of_lt hlt), h.desc⟩
  · have hold : SbLike (sbOf d₀) (sbOf d₁) := h.sb.resolve_right hnew
    refine ⟨⟨p.info, p.aux, primaryDesc p d₁, p.newInodesPerGroup⟩, ?_, ?_, rfl,
      fun hc => absurd hc hnew, Or.inr rfl⟩
    · refine readExt_eq_ok.mpr ?_
      rw [← hdesc]
      refine ⟨hsize ▸ hparams.sb_le, ?_, hparams.noRecover, ?_, hparams.descLen_lt,
        hsize ▸ hparams.desc_le, rfl, hparams.filetype, hparams.inodeSize_pos, hparams.perBlock_pos,
        hparams.newInodesPerGroup⟩
      · have hlike : SbLike (sbOf d₀) (sbOf d) := by
          rw [hH.sbOf_eq hI]
          exact hold
        exact hlike.parse hparams.parse
      · have hlike : SbLike (sbOf d₀) (sbOf d) := by
          rw [hH.sbOf_eq hI]
          exact hold
        have hmask := hlike.descSize
        unfold sbOf at hmask
        rw [hmask]
        exact hparams.descSize
    · exact ⟨rfl, rfl, rfl, rfl, rfl, rfl, rfl, rfl, rfl, Or.inl rfl, h.desc⟩

/-- A write to copies or bitmaps. -/
theorem SbRest.apply (h : SbRest p d₀ s d₁) {w : Write} (hle : w.offset + w.len ≤ d₀.size)
    (hin : ∀ x, w.Covers x → x ∈ copyBytes p ∨ x ∈ bitmapBytes p)
    (hsb : SbLike (sbOf d₀) (sbOf (d₁.apply w)) ∨
      SbLike (migratedSb p (sbOf d₀)) (sbOf (d₁.apply w)))
    (hdesc : DescLike p.bgDesc (primaryDesc p (d₁.apply w))) : SbRest p d₀ s (d₁.apply w) := by
  have hsize : (d₁.apply w).size = d₁.size := Device.apply_size (h.size.symm ▸ hle)
  refine ⟨hsize.trans h.size, fun x hx₁ hx₂ hx₃ => ?_, hsb, hdesc, ?_⟩
  · rw [Device.apply_bytes_of_not_covers fun hcov => (hin x hcov).elim hx₂ hx₃,
      h.outside x hx₁ hx₂ hx₃]
  · rw [← h.state]
    apply getFsFixupState_congr hsize
    intro x hx
    apply Device.apply_bytes_of_not_covers
    intro hcov
    rcases hin x hcov with hmem | hmem
    · exact Set.disjoint_left.mp hI.copies.copies_state hmem hx
    · exact Set.disjoint_left.mp hI.copies.bitmaps_state hmem hx

/-- A write that leaves the primary superblock and descriptors alone. -/
theorem SbRest.apply_elsewhere (h : SbRest p d₀ s d₁) {w : Write}
    (hle : w.offset + w.len ≤ d₀.size)
    (hin : ∀ x, w.Covers x → x ∈ copyBytes p ∨ x ∈ bitmapBytes p)
    (hsb : ∀ x ∈ primarySbBytes, ¬ w.Covers x)
    (hdesc : ∀ x, descOffset p 0 ≤ x → x < descOffset p 0 + p.descLen → ¬ w.Covers x) :
    SbRest p d₀ s (d₁.apply w) ∧ sbOf (d₁.apply w) = sbOf d₁ := by
  have hsame : sbOf (d₁.apply w) = sbOf d₁ := sbOf_apply_of_not_covers _ hsb
  have hoff := (readExt_eq_ok.mp hI.readExt).descOffset_zero
  have hsame' : primaryDesc p (d₁.apply w) = primaryDesc p d₁ := by
    apply Device.slice_congr
    intro x h₁ h₂
    rw [← hoff] at h₁ h₂
    exact Device.apply_bytes_of_not_covers (hdesc x h₁ h₂)
  exact ⟨h.apply hI hle hin (hsame.symm ▸ h.sb) (hsame'.symm ▸ h.desc), hsame⟩

/-- Clearing bits of an inode bitmap. -/
theorem InSb.apply_bitmap (hkin : Kin p q) (hi : i < p.numBlockGroups)
    (hok : BitmapOk p d₀.size i) (h : InSb p T d₀ g d) :
    InSb p T d₀ g (d.apply (bitmapWrite q d i)) := by
  obtain ⟨d₁, hR, hguard, hH⟩ := h
  have hcov : ∀ x, (bitmapWrite q d i).Covers x → x ∈ bitmapBytes p := by
    rintro x ⟨h₁, h₂⟩
    change bitmapOffset q i ≤ x at h₁
    change x < bitmapOffset q i + q.info.blockSize at h₂
    rw [hkin.bitmapOffset, bitmapOffset_eq] at h₁ h₂
    rw [hkin.blockSize] at h₂
    exact ⟨i, hi, h₁, h₂⟩
  have hle : (bitmapWrite q d i).offset + (bitmapWrite q d i).len ≤ d₀.size := by
    change bitmapOffset q i + q.info.blockSize ≤ _
    rw [hkin.bitmapOffset, hkin.blockSize]
    exact hok.offset_le
  have hcopies : ∀ x ∈ copyBytes p, ¬ (bitmapWrite q d i).Covers x := fun x hx hc =>
    Set.disjoint_left.mp hI.copies.copies_bitmaps hx (hcov x hc)
  have hoff := (readExt_eq_ok.mp hI.readExt).descOffset_zero
  obtain ⟨hR', hsb⟩ := hR.apply_elsewhere hI hle (fun x hx => Or.inr (hcov x hx))
    (fun x hx => hcopies x (hI.primarySb_subset hx)) fun x h₁ h₂ => by
      rw [hoff] at h₁ h₂
      exact hcopies x (hI.primaryDesc_mem h₁ h₂)
  refine ⟨_, hR', fun hg => ?_, hH.apply_rest fun x hx hc => ?_⟩
  · unfold Guarded
    rw [hsb]
    exact hguard hg
  · exact Set.disjoint_left.mp hI.dirs_bitmaps hx (hcov x hc)

end SbRest

/-! ## Writing the copies -/

/-- Every group with copies has the given ones. -/
def CopiesHold (p : Fixup) (bgDesc sb : Mem) (d : Device) : Prop :=
  ∀ i, HasCopy p i → (∀ x < Sb.size, d.bytes (sbOffset p i + x) = copyOfSb sb i x) ∧
    ∀ x < p.descLen, d.bytes (descOffset p i + x) = bgDesc x

section Copies

variable {p q : Fixup} {T : DirTree} {d₀ d : Device} {g : Prop} {bgDesc sb : Mem} {w : Write}

/-- The two kinds of writes. -/
theorem mem_copyWrites {groups : List ℕ} (hw : w ∈ copyWrites p bgDesc sb groups) :
    ∃ i ∈ groups, ext4BgHasSuperBlock p.info.featRoCompat i = true ∧
      (w = ⟨sbOffset p i, Sb.size, copyOfSb sb i⟩ ∨ w = ⟨descOffset p i, p.descLen, bgDesc⟩) := by
  obtain ⟨i, hi, hw⟩ := List.mem_flatMap.mp hw
  obtain ⟨hmem, hhas⟩ := List.mem_filter.mp hi
  simp only [copyWritesAt, List.mem_cons, List.not_mem_nil, or_false] at hw
  exact ⟨i, hmem, hhas, hw⟩

/-! A copy is either the primary one or apart from it. -/

section Primary

variable {i : ℕ} (hapart : CopiesApart p) (hzero : HasCopy p 0) (hi : HasCopy p i)

include hapart hzero hi

theorem sbOf_apply_sbCopy (d : Device) (hsb : ∀ x, Sb.size ≤ x → sb x = 0) :
    sbOf (d.apply ⟨sbOffset p i, Sb.size, copyOfSb sb i⟩) =
      if i = 0 then copyOfSb sb 0 else sbOf d := by
  by_cases hne : i = 0
  · subst hne
    have hpast : ∀ x, Sb.size ≤ x → copyOfSb sb 0 x = 0 := by
      intro x hx
      have hnr : 92 ≤ x := le_trans (by decide) hx
      rw [copyOfSb_zero_apply (Or.inr hnr), hsb x hx]
    rw [if_pos rfl, sbOffset_zero]
    exact sbOf_sbWrite d hpast
  · rw [if_neg hne]
    apply sbOf_apply_of_not_covers
    rintro x ⟨h₁, h₂⟩ ⟨h₃, h₄⟩
    have hsep := hapart.sb_sb i 0 hi hzero hne
    rw [sbOffset_zero] at hsep
    unfold Sb.size at hsep
    dsimp only [Sb.size] at h₃ h₄
    omega

theorem sbOf_apply_descCopy (d : Device) (bgDesc : Mem) :
    sbOf (d.apply ⟨descOffset p i, p.descLen, bgDesc⟩) = sbOf d := by
  apply sbOf_apply_of_not_covers
  rintro x ⟨h₁, h₂⟩ ⟨h₃, h₄⟩
  have hsep := hapart.sb_desc 0 i hzero hi
  rw [sbOffset_zero] at hsep
  unfold Sb.size at hsep
  dsimp only at h₃ h₄
  omega

variable (hoff : descOffset p 0 = p.info.blockSize * (p.aux.firstDataBlock + 1))

include hoff

theorem primaryDesc_apply_sbCopy (d : Device) (sb : Mem) :
    primaryDesc p (d.apply ⟨sbOffset p i, Sb.size, copyOfSb sb i⟩) = primaryDesc p d := by
  apply Device.slice_congr
  intro x h₁ h₂
  apply Device.apply_bytes_of_not_covers
  rintro ⟨h₃, h₄⟩
  have hsep := hapart.sb_desc i 0 hi hzero
  rw [hoff] at hsep
  dsimp only at h₃ h₄
  omega

theorem primaryDesc_apply_descCopy (d : Device) (hlen : ∀ x, p.descLen ≤ x → bgDesc x = 0) :
    primaryDesc p (d.apply ⟨descOffset p i, p.descLen, bgDesc⟩) =
      if i = 0 then bgDesc else primaryDesc p d := by
  by_cases hne : i = 0
  · subst hne
    rw [if_pos rfl]
    funext x
    unfold primaryDesc Device.slice
    split
    · rename_i hx
      rw [← hoff]
      have hcov : (⟨descOffset p 0, p.descLen, bgDesc⟩ : Write).Covers (descOffset p 0 + x) :=
        ⟨Nat.le_add_right _ _, Nat.add_lt_add_left hx _⟩
      rw [Device.apply_bytes_of_covers hcov]
      dsimp only
      rw [Nat.add_sub_cancel_left]
    · rename_i hx
      exact (hlen x (not_lt.mp hx)).symm
  · rw [if_neg hne]
    apply Device.slice_congr
    intro x h₁ h₂
    apply Device.apply_bytes_of_not_covers
    rintro ⟨h₃, h₄⟩
    have hsep := hapart.desc_desc i 0 hi hzero hne
    rw [hoff] at hsep
    dsimp only at h₃ h₄
    omega

end Primary

variable (hI : FixupImage p T d₀)

include hI

/-- One of the writes of the copies. -/
theorem InSb.apply_copy (hkin : Kin p q) (hdesc : DescLike p.bgDesc bgDesc)
    (hdescLen : ∀ x, p.descLen ≤ x → bgDesc x = 0)
    (hsb : SbLike (migratedSb p (sbOf d₀)) (copyOfSb sb 0))
    (hsbLen : ∀ x, Sb.size ≤ x → sb x = 0) (hguardSb : g → Sb.descSize.get sb &&& 1 = 1)
    (hw : w ∈ copyWrites q bgDesc sb (List.range q.aux.groups)) (h : InSb p T d₀ g d) :
    InSb p T d₀ g (d.apply w) := by
  obtain ⟨d₁, hR, hguard, hH⟩ := h
  obtain ⟨i, hmem, hhas, hcase⟩ := mem_copyWrites hw
  have hcopy : HasCopy p i := hkin.hasCopy.mp ⟨List.mem_range.mp hmem, hhas⟩
  have hzero := hI.hasCopy_zero
  have hoff := (readExt_eq_ok.mp hI.readExt).descOffset_zero
  obtain ⟨hle₁, hle₂⟩ := hI.copies_le i hcopy
  rw [hkin.sbOffset, hkin.descOffset, hkin.descLen] at hcase
  have hcov : ∀ x, w.Covers x → x ∈ copyBytes p := by
    rintro x ⟨h₁, h₂⟩
    rcases hcase with rfl | rfl
    · exact ⟨i, hcopy, Or.inl ⟨h₁, h₂⟩⟩
    · exact ⟨i, hcopy, Or.inr ⟨h₁, h₂⟩⟩
  have hle : w.offset + w.len ≤ d₀.size := by
    rcases hcase with rfl | rfl
    · exact hle₁
    · exact hle₂
  have hH' := hH.apply_rest (w := w) fun x hx hc =>
    Set.disjoint_left.mp hI.dirs_copies hx (hcov x hc)
  have hin : ∀ x, w.Covers x → x ∈ copyBytes p ∨ x ∈ bitmapBytes p := fun x hx => Or.inl (hcov x hx)
  have happly : SbRest p d₀ .updatingSb (d₁.apply w) ∧ (g → Guarded (d₁.apply w)) := by
    rcases hcase with rfl | rfl
    · have hsbOf := sbOf_apply_sbCopy hI.copies hzero hcopy d₁ hsbLen
      have hkeep := primaryDesc_apply_sbCopy hI.copies hzero hcopy hoff d₁ sb
      constructor
      · refine hR.apply hI hle hin ?_ (hkeep.symm ▸ hR.desc)
        rw [hsbOf]
        split
        · exact Or.inr hsb
        · exact hR.sb
      · intro hg
        unfold Guarded
        rw [hsbOf]
        split
        · rw [copyOfSb_descSize_zero]
          exact hguardSb hg
        · exact hguard hg
    · have hsbOf := sbOf_apply_descCopy hI.copies hzero hcopy d₁ bgDesc
      have hput := primaryDesc_apply_descCopy hI.copies hzero hcopy hoff d₁ hdescLen
      constructor
      · refine hR.apply hI hle hin (hsbOf.symm ▸ hR.sb) ?_
        rw [hput]
        split
        · exact hdesc
        · exact hR.desc
      · intro hg
        unfold Guarded
        rw [hsbOf]
        exact hguard hg
  exact ⟨_, happly.1, happly.2, hH'⟩

omit hI in
/-- The writes of the copies touch nothing but copies, and each copy once. -/
theorem copyWrites_pairwise (hapart : CopiesApart p) (hkin : Kin p q) :
    (copyWrites q bgDesc sb (List.range q.aux.groups)).Pairwise
      fun w v => ∀ x, w.Covers x → ¬ v.Covers x := by
  unfold copyWrites
  rw [List.pairwise_flatMap]
  have hcopy : ∀ i ∈ (List.range q.aux.groups).filter
      (fun i => ext4BgHasSuperBlock q.info.featRoCompat i), HasCopy p i := by
    intro i hi
    obtain ⟨hmem, hhas⟩ := List.mem_filter.mp hi
    exact hkin.hasCopy.mp ⟨List.mem_range.mp hmem, hhas⟩
  constructor
  · intro i hi
    have h := hapart.sb_desc i i (hcopy i hi) (hcopy i hi)
    unfold copyWritesAt
    rw [hkin.sbOffset, hkin.descOffset, hkin.descLen]
    simp only [List.pairwise_cons, List.mem_cons, List.not_mem_nil, or_false, forall_eq, false_imp_iff,
      implies_true, List.Pairwise.nil, and_true]
    rintro x ⟨h₁, h₂⟩ ⟨h₃, h₄⟩
    dsimp only at h₁ h₂ h₃ h₄
    omega
  · refine (List.pairwise_lt_range.filter _).imp_of_mem ?_
    intro i j hi hj hlt w hw v hv x
    have hi := hcopy i hi
    have hj := hcopy j hj
    have h₁ := hapart.sb_sb i j hi hj hlt.ne
    have h₂ := hapart.sb_desc i j hi hj
    have h₃ := hapart.sb_desc j i hj hi
    have h₄ := hapart.desc_desc i j hi hj hlt.ne
    unfold copyWritesAt at hw hv
    rw [hkin.sbOffset, hkin.descOffset, hkin.descLen] at hw hv
    simp only [List.mem_cons, List.not_mem_nil, or_false] at hw hv
    rintro ⟨hx₁, hx₂⟩ ⟨hx₃, hx₄⟩
    rcases hw with rfl | rfl <;> rcases hv with rfl | rfl <;> dsimp only at hx₁ hx₂ hx₃ hx₄ <;> omega

omit hI in
/-- In the end every copy is there. -/
theorem copiesHold_applyAll (hapart : CopiesApart p) (hkin : Kin p q) (d : Device) :
    CopiesHold p bgDesc sb (d.applyAll (copyWrites q bgDesc sb (List.range q.aux.groups))) := by
  intro i hi
  have hq := hkin.hasCopy.mpr hi
  have hmem : ∀ w ∈ copyWritesAt q bgDesc sb i,
      w ∈ copyWrites q bgDesc sb (List.range q.aux.groups) := fun w hw =>
    List.mem_flatMap.mpr ⟨i, List.mem_filter.mpr ⟨List.mem_range.mpr hq.1, hq.2⟩, hw⟩
  have hpair : (copyWrites q bgDesc sb (List.range q.aux.groups)).Pairwise
      fun w v => ∀ x, w.Covers x → ¬ v.Covers x := copyWrites_pairwise hapart hkin
  constructor
  · intro x hx
    have hcov : (⟨sbOffset q i, Sb.size, copyOfSb sb i⟩ : Write).Covers (sbOffset q i + x) :=
      ⟨Nat.le_add_right _ _, Nat.add_lt_add_left hx _⟩
    rw [← hkin.sbOffset, Device.applyAll_bytes_of_mem hpair (hmem _ List.mem_cons_self) hcov]
    dsimp only
    rw [Nat.add_sub_cancel_left]
  · intro x hx
    have hcov : (⟨descOffset q i, q.descLen, bgDesc⟩ : Write).Covers (descOffset q i + x) := by
      refine ⟨Nat.le_add_right _ _, Nat.add_lt_add_left ?_ _⟩
      rwa [hkin.descLen]
    rw [← hkin.descOffset,
      Device.applyAll_bytes_of_mem hpair (hmem _ (List.mem_cons_of_mem _ List.mem_cons_self)) hcov]
    dsimp only
    rw [Nat.add_sub_cancel_left]

end Copies

/-- The primary copy of the superblock. -/
theorem CopiesHold.sbOf_eq {p : Fixup} {d : Device} {bgDesc sb : Mem}
    (h : CopiesHold p bgDesc sb d) (hzero : HasCopy p 0) (hsb : ∀ x, Sb.size ≤ x → sb x = 0) :
    sbOf d = copyOfSb sb 0 := by
  funext x
  by_cases hx : x < Sb.size
  · have hbyte := (h 0 hzero).1 x hx
    rw [sbOffset_zero] at hbyte
    exact (if_pos hx).trans hbyte
  · have hnr : 92 ≤ x := le_trans (by decide) (not_lt.mp hx)
    rw [sbOf_eq_zero d (not_lt.mp hx), copyOfSb_zero_apply (Or.inr hnr), hsb x (not_lt.mp hx)]

/-! ## The update during the last stage -/

/-- What the update leaves of the device `d` it started on. -/
structure Updated (p : Fixup) (T : DirTree) (d₀ : Device) (q : Fixup) (g : Prop) (d d' : Device) :
    Prop where
  inSb : InSb p T d₀ g d'
  sb : SbLike (migratedSb p (sbOf d₀)) (sbOf d')
  copies : CopiesHold p (newDesc q (sbOf d)) (newSb q (sbOf d)) d'
  outside : ∀ x, x ∉ copyBytes p → x ∉ bitmapBytes p → d'.bytes x = d.bytes x
  /-- Without new inodes there is nothing to clear in the bitmaps. -/
  aligned : ¬ q.info.inodesPerGroup < q.newInodesPerGroup →
    ∀ x, x ∉ copyBytes p → d'.bytes x = d.bytes x

section Update

variable {p q : Fixup} {T : DirTree} {d₀ d₁ d : Device} {g : Prop}

theorem bitmapWrite_covers (hkin : Kin p q) {i : ℕ} (hi : i < p.numBlockGroups) {x : ℕ}
    (h : (bitmapWrite q d i).Covers x) : x ∈ bitmapBytes p := by
  obtain ⟨h₁, h₂⟩ := h
  change bitmapOffset q i ≤ x at h₁
  change x < bitmapOffset q i + q.info.blockSize at h₂
  rw [hkin.bitmapOffset, bitmapOffset_eq] at h₁ h₂
  rw [hkin.blockSize] at h₂
  exact ⟨i, hi, h₁, h₂⟩

theorem copyWrites_covers (hkin : Kin p q) {bgDesc sb : Mem} {w : Write} {x : ℕ}
    (hw : w ∈ copyWrites q bgDesc sb (List.range q.aux.groups)) (h : w.Covers x) :
    x ∈ copyBytes p := by
  obtain ⟨i, hmem, hhas, hcase⟩ := mem_copyWrites hw
  have hcopy : HasCopy p i := hkin.hasCopy.mp ⟨List.mem_range.mp hmem, hhas⟩
  rw [hkin.sbOffset, hkin.descOffset, hkin.descLen] at hcase
  obtain ⟨h₁, h₂⟩ := h
  rcases hcase with rfl | rfl
  · exact ⟨i, hcopy, Or.inl ⟨h₁, h₂⟩⟩
  · exact ⟨i, hcopy, Or.inr ⟨h₁, h₂⟩⟩

theorem InSb.size (h : InSb p T d₀ g d) : d.size = d₀.size := by
  obtain ⟨d₁, hR, -, hH⟩ := h
  exact hH.size.trans hR.size

/-- The trial of the image decides about every later run. -/
theorem TrialOk.kin (htrial : TrialOk p d₀) (hkin : Kin p q) (hsize : d.size = d₀.size)
    (hlt : p.newInodesPerGroup < 2 ^ 32)
    (hsb : SbLike (sbOf d₀) (sbOf d) ∨ SbLike (migratedSb p (sbOf d₀)) (sbOf d)) :
    TrialOk q d := by
  refine ⟨fun i hi => ?_, ?_, ?_, fun i hi => ?_⟩
  · rw [hkin.numBlockGroups] at hi
    rw [hsize]
    exact hkin.bitmapOk (htrial.bitmaps i hi)
  · rw [hkin.numBlockGroups, hkin.delta, hkin.newInodesPerGroup, ← htrial.count]
    rcases hsb with hsb | hsb
    · have hdelta : p.delta (sbOf d) = p.delta (sbOf d₀) := by
        unfold Fixup.delta
        rw [hsb.get (Or.inl (by decide))]
      rw [hdelta, hsb.get (Or.inl (by decide))]
    · -- the new superblock has the sum already
      have hdelta : p.delta (sbOf d) = 0 := by
        unfold Fixup.delta
        rw [hsb.get (Or.inl (by decide)), inodesPerGroup_migratedSb hlt, sub32_of_le le_rfl hlt,
          Nat.sub_self]
      rw [hdelta, hsb.get (Or.inl (by decide)), inodesCount_migratedSb, Nat.mul_zero,
        show u32 0 = 0 from rfl, Nat.add_zero]
      exact u32_of_lt (u32_lt _)
  · rw [hkin.newInodesPerGroup, hkin.blockSize, hkin.inodeSize]
    exact htrial.aligned
  · rw [hkin.descOffset]
    exact htrial.seekable i (hkin.hasCopy.mp hi)

variable (hI : FixupImage p T d₀)

include hI

theorem InSb.sb (h : InSb p T d₀ g d) :
    SbLike (sbOf d₀) (sbOf d) ∨ SbLike (migratedSb p (sbOf d₀)) (sbOf d) := by
  obtain ⟨d₁, hR, -, hH⟩ := h
  rw [hH.sbOf_eq hI]
  exact hR.sb

theorem InSb.guarded (h : InSb p T d₀ g d) (hg : g) : Guarded d := by
  obtain ⟨d₁, -, hguard, hH⟩ := h
  exact (hH.guarded_iff hI).mpr (hguard hg)

/-- The update, from wherever the last stage was cut off. -/
theorem update_keeps (htrial : TrialOk p d₀) (hkin : Kin p q) (hdesc : q.bgDesc = primaryDesc p d)
    (h : InSb p T d₀ g d) :
    Crash (InSb p T d₀ g) (updateSuperblocksAndBgDesc q .updatingSb false) d
      (Returns fun _ => Updated p T d₀ q g d) := by
  have hparams := readExt_eq_ok.mp hI.readExt
  have hlt := hparams.newInodesPerGroup_lt
  have hsize : d.size = d₀.size := h.size
  have htrial' : TrialOk q d := htrial.kin hkin hsize hlt (h.sb hI)
  have hdescLike : DescLike p.bgDesc (newDesc q (sbOf d)) :=
    hkin.desc.trans (DescLike.raiseFreeInodes _ _ _)
  have hdescLen : ∀ x, p.descLen ≤ x → newDesc q (sbOf d) x = 0 := by
    intro x hx
    have hzero : q.bgDesc x = 0 := by
      rw [hdesc]
      exact if_neg (not_lt.mpr hx)
    rw [← hzero]
    apply Mem.assign_apply_of_not_mem
    intro f hf
    obtain ⟨i, hi, rfl⟩ := List.mem_map.mp hf
    have hhas := (htrial'.bitmaps i (List.mem_range.mp hi)).hasDesc
    have hhas : 32 * (i + 1) ≤ p.descLen := hkin.descLen ▸ hhas
    right
    change 32 * i + 14 + 2 ≤ x
    omega
  have hsbLen : ∀ x, Sb.size ≤ x → newSb q (sbOf d) x = 0 := by
    intro x hx
    have hx' : 44 ≤ x := le_trans (by decide) hx
    rw [newSb_apply (by omega) (by omega) (by omega)]
    exact sbOf_eq_zero d hx
  have hsb : SbLike (migratedSb p (sbOf d₀)) (copyOfSb (newSb q (sbOf d)) 0) := by
    rw [hkin.newSb]
    change SbLike _ (migratedSb p (sbOf d))
    rcases h.sb hI with hold | hnew
    · exact migratedSb_like hold
    · rw [migratedSb_migratedSb hlt hnew]
      exact hnew
  have hguardSb : g → Sb.descSize.get (newSb q (sbOf d)) &&& 1 = 1 := by
    intro hg
    have hkeep : Sb.descSize.get (newSb q (sbOf d)) = Sb.descSize.get (sbOf d) := by
      rw [← copyOfSb_descSize_zero]
      exact get_migratedSb (by decide) (by decide) (by decide) (by decide)
    rw [hkeep]
    exact h.guarded hI hg
  have hwrite : ∀ d' w, w ∈ updateWrites q (sbOf d) → InSb p T d₀ g d' →
      InSb p T d₀ g (d'.apply w) :=
    fun d' w hw h' => h'.apply_copy hI hkin hdescLike hdescLen hsb hsbLen hguardSb hw
  -- while the bitmaps are written, nothing else changes
  let I : Device → Prop := fun d' => InSb p T d₀ g d' ∧
    (∀ x, x ∉ bitmapBytes p → d'.bytes x = d.bytes x) ∧
    (¬ q.info.inodesPerGroup < q.newInodesPerGroup → d' = d)
  have hspec := update_spec (p := q) (d := d) (I := I) (K := InSb p T d₀ g)
    (by rw [hsize]; exact hI.size_ge) htrial'
    (fun i hi => by
      have hle := (hI.copies_le i (hkin.hasCopy.mp hi)).1
      have hmax := hI.size_lt
      rw [hkin.sbOffset]
      exact show _ < _ by omega)
    ⟨h, fun _ _ => rfl, fun _ => rfl⟩ (fun d' hd' => hd'.1.size.trans hsize.symm)
    (by
      rintro d' i hi ⟨hd', hout, -⟩ hmore
      rw [hkin.numBlockGroups] at hi
      refine ⟨hd'.apply_bitmap hI hkin hi (htrial.bitmaps i hi), fun x hx => ?_,
        fun hnot => absurd hmore hnot⟩
      rw [Device.apply_bytes_of_not_covers fun hc => hx (bitmapWrite_covers hkin hi hc), hout x hx])
    (by
      rintro d' ⟨hd', -⟩ ws hws
      exact Device.applyAll_induction hd' fun d'' w hw => hwrite d'' w (hws.subset hw))
  refine hspec.mono (fun _ h => h) ?_
  rintro _ d' ⟨_, rfl, d'', ⟨hd'', hout, haligned⟩, rfl⟩
  have hcov : ∀ x, x ∉ copyBytes p →
      (d''.applyAll (updateWrites q (sbOf d))).bytes x = d''.bytes x := fun x hx =>
    Device.applyAll_bytes_of_not_covers fun w hw hc => hx (copyWrites_covers hkin hw hc)
  have hcopies : CopiesHold p (newDesc q (sbOf d)) (newSb q (sbOf d))
      (d''.applyAll (updateWrites q (sbOf d))) := copiesHold_applyAll hI.copies hkin d''
  refine ⟨(), rfl, ?_, ?_, hcopies, fun x hx₁ hx₂ => ?_, fun hnot x hx => ?_⟩
  · exact Device.applyAll_induction hd'' fun d''' w hw => hwrite d''' w hw
  · rw [hcopies.sbOf_eq hI.hasCopy_zero hsbLen]
    exact hsb
  · rw [hcov x hx₁, hout x hx₂]
  · rw [hcov x hx, haligned hnot]

end Update

/-! ## The end of a run -/

/-- The device when the state word has been cleared: a filesystem with the new numbers. -/
def Finished (p : Fixup) (T : DirTree) (d₀ d : Device) : Prop :=
  ∃ d₁, SbRest p d₀ .unset d₁ ∧ SbLike (migratedSb p (sbOf d₀)) (sbOf d₁) ∧
    Holds p T d₀ d₁ (newNums p T d₀) d

/-- The last two writes of a run. -/
def finish (d : Device) : Device :=
  (d.apply (stateWrite .unset)).apply (sbWrite (setUnmountable .unset (sbOf d)))

section Finish

variable {p q : Fixup} {T : DirTree} {d₀ d : Device} {g : Prop}

variable (hI : FixupImage p T d₀)

include hI

/-- Clearing the state word and the low bit of `s_desc_size` finishes the update. -/
theorem InSb.finish (h : InSb p T d₀ g d) (hsb : SbLike (migratedSb p (sbOf d₀)) (sbOf d)) :
    Finished p T d₀ (d.apply (stateWrite .unset)) ∧ Finished p T d₀ (Ext4.finish d) ∧
      sbOf (d.apply (stateWrite .unset)) = sbOf d := by
  obtain ⟨d₁, hR, -, hH⟩ := h
  have hsize := hI.size_ge
  have hsb₁ : SbLike (migratedSb p (sbOf d₀)) (sbOf d₁) := by
    rw [← hH.sbOf_eq hI]
    exact hsb
  -- the state word
  have hcov : ∀ x, (stateWrite .unset).Covers x → x ∈ stateBytes := by
    rintro x ⟨-, h₂⟩
    exact h₂.trans_eq (Nat.zero_add 8)
  have hsame : ∀ e : Device, sbOf (e.apply (stateWrite .unset)) = sbOf e :=
    fun e => sbOf_stateWrite e _
  have hdesc : ∀ x ∈ copyBytes p, ¬ (stateWrite .unset).Covers x := fun x hx hc =>
    Set.disjoint_left.mp hI.copies.copies_state hx (hcov x hc)
  have hsize₁ : (d₁.apply (stateWrite .unset)).size = d₁.size := Device.apply_size (by
    rw [hR.size]
    change 0 + 8 ≤ _
    omega)
  have hR₁ : SbRest p d₀ .unset (d₁.apply (stateWrite .unset)) := by
    refine ⟨hsize₁.trans hR.size, fun x hx₁ hx₂ hx₃ => ?_, Or.inr ?_, ?_, ?_⟩
    · rw [Device.apply_bytes_of_not_covers fun hc => hx₁ (hcov x hc), hR.outside x hx₁ hx₂ hx₃]
    · rw [hsame]
      exact hsb₁
    · have hkeep : primaryDesc p (d₁.apply (stateWrite .unset)) = primaryDesc p d₁ :=
        Device.slice_congr fun x h₁ h₂ =>
          Device.apply_bytes_of_not_covers (hdesc x (hI.primaryDesc_mem h₁ h₂))
      rw [hkeep]
      exact hR.desc
    · apply getFsFixupState_stateWrite
      rw [hR.size]
      omega
  have hH₁ := hH.apply_rest (w := stateWrite .unset) fun x hx hc =>
    Set.disjoint_left.mp hI.dirs_state hx (hcov x hc)
  -- the superblock
  have hzero : ∀ x, Sb.size ≤ x → setUnmountable .unset (sbOf d) x = 0 :=
    setUnmountable_eq_zero fun x hx => sbOf_eq_zero d hx
  have hlike : SbLike (migratedSb p (sbOf d₀)) (setUnmountable .unset (sbOf d)) :=
    hsb.trans (setUnmountable_like _ _)
  have hsb₂ : sbOf ((d₁.apply (stateWrite .unset)).apply
      (sbWrite (setUnmountable .unset (sbOf d)))) = setUnmountable .unset (sbOf d) :=
    sbOf_sbWrite _ hzero
  have hR₂ : SbRest p d₀ .unset ((d₁.apply (stateWrite .unset)).apply
      (sbWrite (setUnmountable .unset (sbOf d)))) := by
    refine hR₁.apply hI hsize (fun x hc => Or.inl (hI.primarySb_subset (sbWrite_covers.mp hc)))
      (Or.inr ?_) ?_
    · rw [hsb₂]
      exact hlike
    · have hkeep : primaryDesc p ((d₁.apply (stateWrite .unset)).apply
          (sbWrite (setUnmountable .unset (sbOf d)))) =
            primaryDesc p (d₁.apply (stateWrite .unset)) :=
        Device.slice_congr fun x h₁ h₂ => Device.apply_bytes_of_not_covers fun hc =>
          hI.primaryDesc_notMem h₁ h₂ (sbWrite_covers.mp hc)
      rw [hkeep]
      exact hR₁.desc
  have hH₂ := hH₁.apply_rest (w := sbWrite (setUnmountable .unset (sbOf d))) fun x hx hc =>
    Set.disjoint_left.mp hI.dirs_copies hx (hI.primarySb_subset (sbWrite_covers.mp hc))
  refine ⟨⟨_, hR₁, ?_, hH₁⟩, ⟨_, hR₂, ?_, hH₂⟩, hsame d⟩
  · rw [hsame]
    exact hsb₁
  · rw [hsb₂]
    exact hlike

/-- The last stage, from wherever it was cut off. -/
theorem superblockStage_spec (htrial : TrialOk p d₀) (hkin : Kin p q)
    (hdesc : q.bgDesc = primaryDesc p d) (h : InSb p T d₀ g d) :
    Crash (fun d' => InSb p T d₀ g d' ∨ Finished p T d₀ d') (superblockStage q) d
      (Returns fun _ d' => Finished p T d₀ d' ∧ ∃ u, Updated p T d₀ q g d u ∧ d' = finish u) := by
  have hstate : getFsFixupState d = .ok .updatingSb := by
    obtain ⟨d₁, hR, -, hH⟩ := h
    rw [hH.state hI, hR.state]
  unfold superblockStage
  apply inState_of_eq hstate
  apply Crash.bind_returns ((update_keeps hI htrial hkin hdesc h).mono (fun _ h => Or.inl h)
    fun _ _ h => h)
  rintro _ u hu
  obtain ⟨hfin₁, hfin₂, hsame⟩ := hu.inSb.finish hI hu.sb
  have hsize : u.size = d₀.size := hu.inSb.size
  unfold setFsFixupState
  apply Crash.bind_returns (P := fun _ d' => d' = u.apply (stateWrite .unset))
  · exact Crash.write (Or.inl hu.inSb) (Or.inr hfin₁) ⟨(), rfl, rfl⟩
  · rintro _ d' rfl
    have hread : readSb (u.apply (stateWrite .unset)) = .ok (sbOf u) := by
      rw [← hsame]
      apply readSb_eq
      refine le_trans ?_ (le_max_left _ _)
      rw [hsize]
      exact hI.size_ge
    apply Crash.query_bind hread
    unfold writeSb
    rw [if_pos (show seekable 1024 by decide)]
    exact Crash.write (Or.inr hfin₁) (Or.inr hfin₂) ⟨(), rfl, hfin₂, u, hu, rfl⟩

end Finish

end SystemExtras.Ext4
