import SystemExtras.Ext4.FixupRestart

/-!
# The stage on superblocks and descriptors

`update_superblocks_and_bg_desc` reads the primary superblock, clears bits of the
inode bitmaps, and writes the copies of the superblock and the descriptors one after
the other, the primary ones first.  `copyWrites` is the list of these writes; it does
not depend on what is on the device.

A trial run decides whether the update returns (`trialPasses_iff`): all it looks at
are sizes and counts, which no write of the tool changes.
-/

namespace SystemExtras.Ext4

open DevM

/-! ## The writes of the copies -/

/-- The two writes that make the copies of a group. -/
def copyWritesAt (p : Fixup) (bgDesc sb : Mem) (i : ℕ) : List Write :=
  [⟨sbOffset p i, Sb.size, copyOfSb sb i⟩, ⟨descOffset p i, p.descLen, bgDesc⟩]

/-- The writes that make all copies. -/
def copyWrites (p : Fixup) (bgDesc sb : Mem) (groups : List ℕ) : List Write :=
  (groups.filter fun i => ext4BgHasSuperBlock p.info.featRoCompat i).flatMap
    (copyWritesAt p bgDesc sb)

section CopyOfSb

variable {sb : Mem}

theorem descSize_blockGroupNr (sb : Mem) (i : ℕ) :
    Sb.descSize.get (Sb.blockGroupNr.set sb i) = Sb.descSize.get sb :=
  Field.get_set_of_disjoint (Or.inr (by decide)) sb i

/-- Away from `s_block_group_nr` and `s_desc_size` a copy is the superblock itself. -/
theorem copyOfSb_apply {i x : ℕ} (h₁ : x < 90 ∨ 92 ≤ x) (h₂ : x < 254 ∨ 256 ≤ x) :
    copyOfSb sb i x = sb x := by
  have hnr : Sb.blockGroupNr.set sb i x = sb x := Mem.store_apply_of_not_mem h₁
  unfold copyOfSb
  split
  · have hdesc : ∀ m v, Sb.descSize.set m v x = m x := fun m v => Mem.store_apply_of_not_mem h₂
    rw [hdesc, hnr]
  · exact hnr

theorem copyOfSb_descSize_zero (sb : Mem) :
    Sb.descSize.get (copyOfSb sb 0) = Sb.descSize.get sb := descSize_blockGroupNr sb 0

/-- What an earlier copy changed, a later copy sets again. -/
theorem copyOfSb_copyOfSb {i j : ℕ} (hj : j ≠ 0) :
    copyOfSb (copyOfSb sb i) j = copyOfSb sb j := by
  have hdesc : Sb.descSize.get (copyOfSb sb i) &&& 0xfffe = Sb.descSize.get sb &&& 0xfffe := by
    by_cases hi : i = 0
    · rw [hi, copyOfSb_descSize_zero]
    · have hlt : Sb.descSize.get sb &&& 0xfffe < 256 ^ 2 :=
        Nat.and_le_left.trans_lt (Sb.descSize.get_lt sb)
      unfold copyOfSb
      rw [if_pos hi, Field.get_set_self, descSize_blockGroupNr, show Sb.descSize.width = 2 by rfl,
        Nat.mod_eq_of_lt hlt, Nat.and_assoc]
      rfl
  funext x
  unfold copyOfSb at hdesc ⊢
  rw [if_pos hj, if_pos hj, descSize_blockGroupNr, descSize_blockGroupNr, hdesc]
  by_cases h₂ : x < 254 ∨ 256 ≤ x
  · have hskip : ∀ m v, Sb.descSize.set m v x = m x := fun m v => Mem.store_apply_of_not_mem h₂
    rw [hskip, hskip]
    by_cases h₁ : x < 90 ∨ 92 ≤ x
    · have hskip' : ∀ m v, Sb.blockGroupNr.set m v x = m x :=
        fun m v => Mem.store_apply_of_not_mem h₁
      rw [hskip', hskip']
      exact copyOfSb_apply h₁ h₂
    · have hset : ∀ m, Sb.blockGroupNr.set m j x = UInt8.ofNat (j / 256 ^ (x - 90)) :=
        fun m => Mem.store_apply_of_mem (by
          change 90 ≤ x
          omega) (by
          change x < 90 + 2
          omega)
      rw [hset, hset]
  · have hset : ∀ m v, Sb.descSize.set m v x = UInt8.ofNat (v / 256 ^ (x - 254)) :=
      fun m v => Mem.store_apply_of_mem (by
        change 254 ≤ x
        omega) (by
        change x < 254 + 2
        omega)
    rw [hset, hset]

end CopyOfSb

section WriteCopies

variable {p : Fixup} {bgDesc sb : Mem}

/-- The loop makes the listed writes, whatever is on the device. -/
theorem writeCopies_eq (groups : List ℕ) :
    ∀ sb', (∀ i ∈ groups, copyOfSb sb' i = copyOfSb sb i) → (groups.Pairwise fun _ j => j ≠ 0) →
      (∀ i ∈ groups, ext4BgHasSuperBlock p.info.featRoCompat i = true →
        seekable (sbOffset p i) ∧ seekable (descOffset p i)) →
      ∀ d, writeCopies p false bgDesc sb' groups d = (.ok (), copyWrites p bgDesc sb groups) := by
  induction groups with
  | nil => exact fun _ _ _ _ _ => rfl
  | cons i rest ih =>
      intro sb' hsb hpair hseek d
      obtain ⟨hne, hpair⟩ := List.pairwise_cons.mp hpair
      have hseek' := fun j hj => hseek j (List.mem_cons_of_mem _ hj)
      rw [writeCopies]
      by_cases hhas : ext4BgHasSuperBlock p.info.featRoCompat i = true
      · obtain ⟨hs₁, hs₂⟩ := hseek i List.mem_cons_self hhas
        have hrest := ih (copyOfSb sb' i) (fun j hj => by
          rw [copyOfSb_copyOfSb (hne j hj), hsb j (List.mem_cons_of_mem _ hj)]) hpair hseek'
        have hlist : copyWrites p bgDesc sb (i :: rest) =
            copyWritesAt p bgDesc sb i ++ copyWrites p bgDesc sb rest := by
          unfold copyWrites
          rw [List.filter_cons_of_pos hhas, List.flatMap_cons]
        rw [hsb i List.mem_cons_self] at hrest
        rw [if_pos hhas, hlist]
        simp only [Bool.false_eq_true, if_false, not_not.mpr hs₂, writeSb, if_pos hs₁, write_bind,
          hrest, hsb i List.mem_cons_self]
        rfl
      · have hlist : copyWrites p bgDesc sb (i :: rest) = copyWrites p bgDesc sb rest := by
          unfold copyWrites
          rw [List.filter_cons_of_neg hhas]
        rw [if_neg hhas, hlist]
        exact ih sb' (fun j hj => hsb j (List.mem_cons_of_mem _ hj)) hpair hseek' d

/-- The trial run looks only at where the descriptors go. -/
theorem writeCopies_trial (groups : List ℕ) (d : Device) :
    ∀ sb, (writeCopies p true bgDesc sb groups).result d = .ok () ↔
      ∀ i ∈ groups, ext4BgHasSuperBlock p.info.featRoCompat i = true →
        seekable (descOffset p i) := by
  induction groups with
  | nil => exact fun sb => iff_of_true rfl (by simp)
  | cons i rest ih =>
      intro sb
      rw [writeCopies, List.forall_mem_cons]
      by_cases hhas : ext4BgHasSuperBlock p.info.featRoCompat i = true
      · rw [if_pos hhas]
        simp only [if_true]
        by_cases hs : seekable (descOffset p i)
        · rw [if_neg (not_not.mpr hs), ih]
          simp [hs]
        · rw [if_pos hs]
          refine iff_of_false (fun h => by cases h) fun h => hs (h.1 hhas)
      · rw [if_neg hhas, ih]
        simp [hhas]

end WriteCopies

/-! ## The inode bitmaps -/

/-- Where the inode bitmap of a group lies. -/
def bitmapOffset (p : Fixup) (i : ℕ) : ℕ :=
  u64 ((Fixup.descField GroupDesc.bgInodeBitmap i).get p.bgDesc * p.info.blockSize)

/-- `check_inode_bitmap` can do its work on a device of the given size. -/
structure BitmapOk (p : Fixup) (size i : ℕ) : Prop where
  hasDesc : p.HasDesc i
  blockSize_le : p.info.blockSize ≤ MAX_EXT4_BLOCK_SIZE
  seekable : seekable (bitmapOffset p i)
  offset_le : bitmapOffset p i + p.info.blockSize ≤ size
  bits : s32 p.newInodesPerGroup ≤ s32 p.info.inodesPerGroup ∨
    0 ≤ s32 p.info.inodesPerGroup ∧ p.newInodesPerGroup ≤ 8 * p.info.blockSize

/-- The bits that `check_inode_bitmap` clears. -/
def newBits (p : Fixup) : List ℕ :=
  List.range' p.info.inodesPerGroup (p.newInodesPerGroup - p.info.inodesPerGroup)

/-- The write of `check_inode_bitmap`. -/
def bitmapWrite (p : Fixup) (d : Device) (i : ℕ) : Write :=
  ⟨bitmapOffset p i, p.info.blockSize,
    (clearBits (d.slice (bitmapOffset p i) p.info.blockSize) (newBits p)).1⟩

section Bitmaps

variable {p : Fixup} {d : Device} {noWrite : Bool} {i : ℕ}

theorem readBlockBounded_eq (hle : p.info.blockSize ≤ MAX_EXT4_BLOCK_SIZE)
    (hseek : seekable (bitmapOffset p i)) (hsize : bitmapOffset p i + p.info.blockSize ≤ d.size) :
    readBlockBounded p ((Fixup.descField GroupDesc.bgInodeBitmap i).get p.bgDesc) d =
      .ok (d.slice (bitmapOffset p i) p.info.blockSize) := by
  unfold bitmapOffset at hseek hsize ⊢
  unfold readBlockBounded readBlock
  simp only [if_neg (not_lt.mpr hle), hseek, not_true_eq_false, if_false, Device.read_of_le hsize]

/-- What `check_inode_bitmap` needs in order to return. -/
theorem bitmapOk_of_returns (h : (checkInodeBitmap p noWrite i).result d = .ok ()) :
    BitmapOk p d.size i := by
  unfold checkInodeBitmap at h
  split at h
  · cases h
  · rename_i hdesc
    obtain ⟨block, hblock, h⟩ := result_bind_eq_ok.mp h
    have hblock : readBlockBounded p
        ((Fixup.descField GroupDesc.bgInodeBitmap i).get p.bgDesc) d = .ok block := hblock
    unfold readBlockBounded at hblock
    split at hblock
    · cases hblock
    · rename_i hle
      unfold readBlock at hblock
      dsimp only at hblock
      split at hblock
      · cases hblock
      · rename_i hseek
        by_cases hsize : bitmapOffset p i + p.info.blockSize ≤ d.size
        · refine ⟨not_not.mp hdesc, not_lt.mp hle, not_not.mp hseek, hsize, ?_⟩
          split at h
          · exact Or.inl ‹_›
          · split at h
            · cases h
            · right
              omega
        · unfold bitmapOffset at hsize
          rw [Device.read_of_not_le hsize] at hblock
          cases hblock

/-- `check_inode_bitmap` makes at most one write, and none if there are no new bits. -/
theorem checkInodeBitmap_spec {I : Device → Prop} (hok : BitmapOk p d.size i) (hI : I d)
    (hstep : noWrite = false → p.info.inodesPerGroup < p.newInodesPerGroup →
      I (d.apply (bitmapWrite p d i))) :
    Crash I (checkInodeBitmap p noWrite i) d (Returns fun _ => I) := by
  unfold checkInodeBitmap
  rw [if_neg (not_not.mpr hok.hasDesc)]
  apply Crash.query_bind (readBlockBounded_eq hok.blockSize_le hok.seekable hok.offset_le)
  split
  · exact Crash.pure hI ⟨(), rfl, hI⟩
  · rename_i hlt
    have hbits := hok.bits.resolve_left hlt
    rw [if_neg (by omega)]
    dsimp only
    split
    · rename_i hset
      cases noWrite with
      | true => exact Crash.pure hI ⟨(), rfl, hI⟩
      | false =>
          have hmore : p.info.inodesPerGroup < p.newInodesPerGroup := by
            by_contra hle
            rw [Nat.sub_eq_zero_of_le (not_lt.mp hle)] at hset
            simp [clearBits] at hset
          have hI' := hstep rfl hmore
          unfold writeBlock
          rw [if_neg (by simp)]
          dsimp only
          have hseek := hok.seekable
          unfold bitmapOffset at hseek
          rw [if_pos hseek]
          exact Crash.write hI hI' ⟨(), rfl, hI'⟩
    · exact Crash.pure hI ⟨(), rfl, hI⟩

/-- The loop over the groups. -/
theorem checkInodeBitmaps_spec {I : Device → Prop} {size : ℕ} (groups : List ℕ)
    (hsize : ∀ d', I d' → d'.size = size) (hok : ∀ i ∈ groups, BitmapOk p size i)
    (hstep : ∀ d' i, i ∈ groups → I d' → noWrite = false →
      p.info.inodesPerGroup < p.newInodesPerGroup → I (d'.apply (bitmapWrite p d' i))) :
    ∀ d, I d → Crash I (checkInodeBitmaps p noWrite groups) d (Returns fun _ => I) := by
  induction groups with
  | nil => exact fun d hI => Crash.pure hI ⟨(), rfl, hI⟩
  | cons i rest ih =>
      intro d hI
      unfold checkInodeBitmaps
      apply Crash.bind_returns (P := fun _ => I)
      · refine checkInodeBitmap_spec ?_ hI (hstep d i List.mem_cons_self hI)
        rw [hsize d hI]
        exact hok i List.mem_cons_self
      · intro _ d' hI'
        exact ih (fun j hj => hok j (List.mem_cons_of_mem _ hj))
          (fun d'' j hj => hstep d'' j (List.mem_cons_of_mem _ hj)) d' hI'

theorem checkInodeBitmaps_trial (groups : List ℕ) :
    (checkInodeBitmaps p true groups).result d = .ok () ↔ ∀ i ∈ groups, BitmapOk p d.size i := by
  constructor
  · induction groups with
    | nil => simp
    | cons i rest ih =>
        intro h
        unfold checkInodeBitmaps at h
        obtain ⟨_, h₁, h₂⟩ := result_bind_eq_ok.mp h
        rw [(checkInodeBitmap_readOnly i).final] at h₂
        rw [List.forall_mem_cons]
        exact ⟨bitmapOk_of_returns h₁, ih h₂⟩
  · intro hok
    have hcrash : Crash (fun d' => d' = d) (checkInodeBitmaps p true groups) d
        (Returns fun _ d' => d' = d) :=
      checkInodeBitmaps_spec groups (fun _ h => by rw [h]) hok (fun _ _ _ _ h => by cases h) d rfl
    obtain ⟨_, hres, -⟩ := hcrash.done
    exact hres

end Bitmaps

/-! ## The trial run -/

/-- What the trial run has checked. -/
structure TrialOk (p : Fixup) (d : Device) : Prop where
  bitmaps : ∀ i < p.numBlockGroups, BitmapOk p d.size i
  count : u32 (Sb.inodesCount.get (sbOf d) + u32 (p.numBlockGroups * p.delta (sbOf d))) =
    u32 (p.newInodesPerGroup * p.numBlockGroups)
  aligned : p.newInodesPerGroup % (p.info.blockSize / p.info.inodeSize) = 0
  seekable : ∀ i, HasCopy p i → seekable (descOffset p i)

theorem readSb_eq {d : Device} (h : 2048 ≤ d.size) : readSb d = .ok (sbOf d) := by
  unfold readSb
  rw [Device.read_of_le h]
  rfl

/-- The trial run returns if and only if its checks pass. -/
theorem trialPasses_iff {p : Fixup} {d : Device} (hsize : 2048 ≤ d.size) :
    TrialPasses p d ↔ TrialOk p d := by
  unfold TrialPasses updateSuperblocksAndBgDesc
  rw [(bind_of_ok (x := DevM.query readSb) (readSb_eq hsize)).1]
  rw [final_query, result_bind_eq_ok]
  constructor
  · rintro ⟨_, hmaps, h⟩
    rw [(checkInodeBitmaps_readOnly _).final] at h
    split at h
    · cases h
    · split at h
      · cases h
      · rename_i hcount haligned
        refine ⟨fun i hi => ?_, not_not.mp hcount, not_not.mp haligned, fun i hi => ?_⟩
        · exact (checkInodeBitmaps_trial _).mp hmaps i (List.mem_range.mpr hi)
        · exact (writeCopies_trial _ d _).mp h i (List.mem_range.mpr hi.1) hi.2
  · intro h
    refine ⟨(), (checkInodeBitmaps_trial _).mpr fun i hi => h.bitmaps i (List.mem_range.mp hi), ?_⟩
    rw [(checkInodeBitmaps_readOnly _).final, if_neg (not_not.mpr h.count),
      if_neg (not_not.mpr h.aligned)]
    exact (writeCopies_trial _ d _).mpr fun i hi hhas => h.seekable i ⟨List.mem_range.mp hi, hhas⟩

/-! ## The update -/

/-- The descriptors that the update writes. -/
def newDesc (p : Fixup) (sb : Mem) : Mem := raiseFreeInodes p.bgDesc (p.delta sb) p.numBlockGroups

/-- The copies that the update writes. -/
def updateWrites (p : Fixup) (sb : Mem) : List Write :=
  copyWrites p (newDesc p sb) (newSb p sb) (List.range p.aux.groups)

/-- `update_superblocks_and_bg_desc` writes bitmaps, keeping `I`, and then the copies. -/
theorem update_spec {p : Fixup} {d : Device} {I K : Device → Prop} (hsize : 2048 ≤ d.size)
    (htrial : TrialOk p d) (hseek : ∀ i, HasCopy p i → seekable (sbOffset p i)) (hd : I d)
    (hIsize : ∀ d', I d' → d'.size = d.size)
    (hbitmap : ∀ d' i, i < p.numBlockGroups → I d' →
      p.info.inodesPerGroup < p.newInodesPerGroup → I (d'.apply (bitmapWrite p d' i)))
    (hcopies : ∀ d', I d' → ∀ ws, ws <+: updateWrites p (sbOf d) → K (d'.applyAll ws)) :
    Crash K (updateSuperblocksAndBgDesc p .updatingSb false) d
      (Returns fun _ d' => ∃ d'', I d'' ∧ d' = d''.applyAll (updateWrites p (sbOf d))) := by
  have hIK : ∀ d', I d' → K d' := fun d' h => hcopies d' h [] List.nil_prefix
  unfold updateSuperblocksAndBgDesc
  apply Crash.query_bind (readSb_eq hsize)
  apply Crash.bind_returns (P := fun _ => I)
  · refine (checkInodeBitmaps_spec _ hIsize (fun i hi => ?_)
      (fun d' i hi hd' _ hlt => ?_) d hd).mono hIK fun _ _ h => h
    · exact htrial.bitmaps i (List.mem_range.mp hi)
    · exact hbitmap d' i (List.mem_range.mp hi) hd' hlt
  · rintro _ d' hd'
    rw [if_neg (not_not.mpr htrial.count), if_neg (not_not.mpr htrial.aligned), if_pos rfl]
    have hpair : (List.range p.aux.groups).Pairwise fun _ j => j ≠ 0 :=
      List.pairwise_lt_range.imp fun h => (Nat.zero_lt_of_lt h).ne'
    have hwrites : writeCopies p false (newDesc p (sbOf d)) (newSb p (sbOf d))
        (List.range p.aux.groups) d' = (.ok (), updateWrites p (sbOf d)) :=
      writeCopies_eq _ _ (fun _ _ => rfl) hpair (fun i hi hhas =>
        ⟨hseek i ⟨List.mem_range.mp hi, hhas⟩, htrial.seekable i ⟨List.mem_range.mp hi, hhas⟩⟩) d'
    exact Crash.of_eq hwrites (hcopies d' hd') ⟨(), rfl, d', hd', rfl⟩

end SystemExtras.Ext4
