import SystemExtras.Ext4.FixupPasses

/-!
# The stages of a run, and what a rerun finds

The state word in the first bytes of the device says which pass is under way, and
the low bit of `s_desc_size` in the primary superblock keeps the filesystem from
being mounted meanwhile.  Between two passes `set_fs_fixup_state` writes first the
one and then the other.

`InPass mode g d` says that the device `d` is in the state of a pass, with the
numbers in the directories that this pass may have left; `g` says whether the low bit
is known to be set.  A run that finds `InPass` reads the parameters of the original
image again (`InPass.readExt`) and takes up the pass; `marking_stage` and
`updating_stage` follow it to the next state, keeping track of what is on the device
after each write.
-/

namespace SystemExtras.Ext4

open DevM

/-! ## Superblocks that differ in the low bit of `s_desc_size` -/

/-- The primary superblock. -/
def sbOf (d : Device) : Mem := d.slice 1024 Sb.size

/-- The superblocks agree, except for the low bit of `s_desc_size`. -/
structure SbLike (sb sb' : Mem) : Prop where
  same : ∀ x, x < 254 ∨ 256 ≤ x → sb' x = sb x
  descSize : Sb.descSize.get sb' &&& 0xfffe = Sb.descSize.get sb &&& 0xfffe

/-- The low bit of `s_desc_size` is set: the filesystem cannot be mounted. -/
def Guarded (d : Device) : Prop := Sb.descSize.get (sbOf d) &&& 1 = 1

namespace SbLike

variable {sb sb' sb'' : Mem}

theorem refl (sb : Mem) : SbLike sb sb := ⟨fun _ _ => rfl, rfl⟩

theorem trans (h : SbLike sb sb') (h' : SbLike sb' sb'') : SbLike sb sb'' :=
  ⟨fun x hx => (h'.same x hx).trans (h.same x hx), h'.descSize.trans h.descSize⟩

theorem get (h : SbLike sb sb') {f : Field}
    (hf : f.offset + f.width ≤ 254 ∨ 256 ≤ f.offset) : f.get sb' = f.get sb := by
  apply Mem.load_congr
  intro i hi
  exact h.same _ (by omega)

theorem bytes (h : SbLike sb sb') {a n : ℕ} (ha : a + n ≤ 254) : sb'.bytes a n = sb.bytes a n := by
  apply List.map_congr_left
  intro i hi
  rw [List.mem_range] at hi
  exact h.same _ (by omega)

/-- `ext4_parse_sb` does not look at `s_desc_size`. -/
theorem parse (h : SbLike sb sb') {info : FsInfo} {aux : FsAuxInfo}
    (hparse : ext4ParseSb FsInfo.zero sb = .ok (info, aux)) :
    ext4ParseSb FsInfo.zero sb' = .ok (info, aux) := by
  obtain ⟨hmagic, hstate, ⟨bs, len, hbs, hlen, hshift, hlenEq, hinfo⟩, haux, hfirst⟩ :=
    ext4ParseSb_eq_ok.mp hparse
  have hblocks : sbLenBlocks sb' = sbLenBlocks sb := by
    unfold sbLenBlocks
    rw [h.get (Or.inr (by decide)), h.get (Or.inl (by decide))]
  have hinfo' : parseInfo FsInfo.zero sb' bs len hbs hlen =
      parseInfo FsInfo.zero sb bs len hbs hlen := by
    apply FsInfo.ext <;> simp only [parseInfo]
    · exact h.get (Or.inl (by decide))
    · exact h.get (Or.inl (by decide))
    · exact h.get (Or.inl (by decide))
    · exact h.get (Or.inl (by decide))
    · rw [h.get (Or.inl (by decide))]
    · rw [h.get (Or.inl (by decide))]
    · rw [h.get (Or.inl (by decide))]
    · exact h.get (Or.inl (by decide))
    · exact h.bytes (by decide)
  refine ext4ParseSb_eq_ok.mpr ⟨?_, ?_, ⟨bs, len, hbs, hlen, ?_, ?_, ?_⟩, haux, ?_⟩
  · rw [h.get (Or.inl (by decide)), hmagic]
  · rw [h.get (Or.inl (by decide)), hstate]
  · rw [h.get (Or.inl (by decide)), hshift]
  · rw [hblocks, hlenEq]
  · rw [hinfo', hinfo]
  · rw [h.get (Or.inl (by decide)), hfirst]

end SbLike

theorem setUnmountable_like (state : FixupState) (sb : Mem) :
    SbLike sb (setUnmountable state sb) := by
  have hstore : ∀ v x, x < 254 ∨ 256 ≤ x → Sb.descSize.set sb v x = sb x := by
    intro v x hx
    apply Mem.store_apply_of_not_mem
    exact hx
  have hlt := Sb.descSize.get_lt sb
  have hmask : ∀ v < 2 ^ 16, (v ||| 1) % 256 ^ 2 &&& 0xfffe = v &&& 0xfffe ∧
      (v &&& 0xfffe) % 256 ^ 2 &&& 0xfffe = v &&& 0xfffe := by
    intro v hv
    have hor : v ||| 1 < 2 ^ 16 := Nat.or_lt_two_pow hv (by decide)
    have hand : v &&& 0xfffe < 2 ^ 16 := Nat.and_le_left.trans_lt hv
    rw [show 256 ^ 2 = 2 ^ 16 by rfl, Nat.mod_eq_of_lt hor, Nat.mod_eq_of_lt hand,
      Nat.and_or_distrib_right, Nat.and_assoc]
    simp
  unfold setUnmountable
  split
  · refine ⟨hstore _, ?_⟩
    rw [Field.get_set_self]
    exact (hmask _ hlt).1
  · refine ⟨hstore _, ?_⟩
    rw [Field.get_set_self]
    exact (hmask _ hlt).2

theorem descSize_setUnmountable {state : FixupState} (h : state.magic ≠ 0) (sb : Mem) :
    Sb.descSize.get (setUnmountable state sb) &&& 1 = 1 := by
  have hlt : Sb.descSize.get sb < 2 ^ 16 := Sb.descSize.get_lt sb
  have hor : Sb.descSize.get sb ||| 1 < 256 ^ 2 := Nat.or_lt_two_pow (n := 16) hlt (by decide)
  unfold setUnmountable
  rw [if_pos h, Field.get_set_self, show Sb.descSize.width = 2 by rfl, Nat.mod_eq_of_lt hor,
    Nat.and_or_distrib_right, Nat.and_one_is_mod]
  rcases Nat.mod_two_eq_zero_or_one (Sb.descSize.get sb) with hbit | hbit <;> rw [hbit] <;> rfl

/-! ## The state word -/

section State

variable {d d' : Device} {s : FixupState}

theorem getFsFixupState_congr (hsize : d'.size = d.size)
    (h : ∀ x ∈ stateBytes, d'.bytes x = d.bytes x) :
    getFsFixupState d' = getFsFixupState d := by
  have hread : d'.read 0 8 = d.read 0 8 := Device.read_congr hsize fun x _ hx => h x (by
    simpa [stateBytes] using hx)
  unfold getFsFixupState
  rw [hread]

/-- The write of a state. -/
def stateWrite (s : FixupState) : Write := ⟨0, 8, fixupMagic.set Mem.zero s.magic⟩

theorem getFsFixupState_stateWrite (hsize : 8 ≤ d.size) (s : FixupState) :
    getFsFixupState (d.apply (stateWrite s)) = .ok s := by
  have hle : 0 + 8 ≤ (d.apply (stateWrite s)).size := hsize.trans (le_max_left _ _)
  have hget : fixupMagic.get ((d.apply (stateWrite s)).slice 0 8) = s.magic := by
    have hsame : fixupMagic.get ((d.apply (stateWrite s)).slice 0 8) =
        fixupMagic.get (fixupMagic.set Mem.zero s.magic) := by
      apply Mem.load_congr
      intro i hi
      change i < 8 at hi
      unfold Device.slice
      rw [show fixupMagic.offset + i = i from Nat.zero_add i, if_pos hi, Nat.zero_add,
        Device.apply_bytes_of_covers ⟨Nat.zero_le _, by simpa [stateWrite] using hi⟩]
      rfl
    rw [hsame, Field.get_set_self]
    cases s <;> rfl
  unfold getFsFixupState
  rw [Device.read_of_le hle]
  simp only [hget]
  cases s <;> rfl

end State

/-! ## Reading the parameters again -/

section Params

variable {p q : Fixup} {T : DirTree} {d₀ d₁ d d' : Device} {val : ℕ → ℕ → ℕ}

/-- `read_ext` looks at the superblock and at the descriptors. -/
theorem ReadExt.congr (h : ReadExt d p) (hsize : d'.size = d.size)
    (hsb : SbLike (sbOf d) (sbOf d'))
    (hdesc : d'.bytes.SameOn d.bytes (p.info.blockSize * (p.aux.firstDataBlock + 1))
      (p.info.blockSize * (p.aux.firstDataBlock + 1) + p.descLen)) : ReadExt d' p where
  sb_le := hsize ▸ h.sb_le
  parse := hsb.parse h.parse
  noRecover := h.noRecover
  descSize := by
    have := hsb.descSize
    unfold sbOf at this
    rw [this]
    exact h.descSize
  descLen_lt := h.descLen_lt
  desc_le := hsize ▸ h.desc_le
  bgDesc := h.bgDesc.trans (Device.slice_congr hdesc).symm
  filetype := h.filetype
  inodeSize_pos := h.inodeSize_pos
  perBlock_pos := h.perBlock_pos
  newInodesPerGroup := h.newInodesPerGroup

theorem ReadExt.firstDataBlock_le (h : ReadExt d p) : p.aux.firstDataBlock ≤ 1 := by
  obtain ⟨-, -, -, haux, -⟩ := ext4ParseSb_eq_ok.mp h.parse
  rw [(FsAuxInfo.of_create haux).firstDataBlock]
  exact p.info.firstDataBlock_le

theorem sbOffset_zero (p : Fixup) : sbOffset p 0 = 1024 := by
  unfold sbOffset
  rw [Nat.zero_mul, Nat.zero_mul]
  rfl

theorem ReadExt.descOffset_zero (h : ReadExt d p) :
    descOffset p 0 = p.info.blockSize * (p.aux.firstDataBlock + 1) := by
  have hlt := p.info.blockSize_lt
  have hle : p.info.blockSize * (p.aux.firstDataBlock + 1) ≤ p.info.blockSize * 2 :=
    Nat.mul_le_mul_left _ (by
      have := h.firstDataBlock_le
      omega)
  unfold descOffset
  rw [Nat.zero_mul, Nat.zero_mul, show u64 0 = 0 from rfl, Nat.zero_add]
  exact u64_of_lt (by omega)

theorem hasCopy_zero (h : 0 < p.aux.groups) : HasCopy p 0 := by
  refine ⟨h, ?_⟩
  unfold ext4BgHasSuperBlock
  split
  · rfl
  · rfl

theorem HasCopy.primarySb_subset (h : HasCopy p 0) : primarySbBytes ⊆ copyBytes p := by
  intro x hx
  refine ⟨0, h, Or.inl ?_⟩
  rw [sbOffset_zero]
  exact hx

variable (hI : FixupImage p T d₀)

include hI

theorem FixupImage.hasCopy_zero : HasCopy p 0 := Ext4.hasCopy_zero hI.groups_pos

theorem FixupImage.primarySb_subset : primarySbBytes ⊆ copyBytes p :=
  hI.hasCopy_zero.primarySb_subset

theorem FixupImage.primaryDesc_mem {x : ℕ}
    (h₁ : p.info.blockSize * (p.aux.firstDataBlock + 1) ≤ x)
    (h₂ : x < p.info.blockSize * (p.aux.firstDataBlock + 1) + p.descLen) : x ∈ copyBytes p := by
  refine ⟨0, hI.hasCopy_zero, Or.inr ?_⟩
  rw [(readExt_eq_ok.mp hI.readExt).descOffset_zero]
  exact ⟨h₁, h₂⟩

/-- The primary superblock ends before the descriptors begin. -/
theorem FixupImage.primaryDesc_notMem {x : ℕ}
    (h₁ : p.info.blockSize * (p.aux.firstDataBlock + 1) ≤ x)
    (h₂ : x < p.info.blockSize * (p.aux.firstDataBlock + 1) + p.descLen) : x ∉ primarySbBytes := by
  have hapart := hI.copies.sb_desc 0 0 hI.hasCopy_zero hI.hasCopy_zero
  rw [sbOffset_zero, (readExt_eq_ok.mp hI.readExt).descOffset_zero] at hapart
  rintro ⟨h₃, h₄⟩
  unfold Sb.size at hapart
  omega

theorem Holds.sbOf_eq (h : Holds p T d₀ d₁ val d) : sbOf d = sbOf d₁ := by
  apply Device.slice_congr
  intro x h₁ h₂
  apply h.rest
  intro hx
  exact Set.disjoint_left.mp hI.dirs_copies hx (hI.primarySb_subset ⟨h₁, h₂⟩)

theorem Holds.guarded_iff (h : Holds p T d₀ d₁ val d) : Guarded d ↔ Guarded d₁ := by
  unfold Guarded
  rw [h.sbOf_eq hI]

theorem Holds.state (h : Holds p T d₀ d₁ val d) : getFsFixupState d = getFsFixupState d₁ := by
  apply getFsFixupState_congr h.size
  intro x hx
  apply h.rest
  exact fun hmem => Set.disjoint_left.mp hI.dirs_state hmem hx

theorem Holds.desc_sameOn (h : Holds p T d₀ d₁ val d) :
    d.bytes.SameOn d₁.bytes (p.info.blockSize * (p.aux.firstDataBlock + 1))
      (p.info.blockSize * (p.aux.firstDataBlock + 1) + p.descLen) := by
  intro x h₁ h₂
  apply h.rest
  exact fun hmem => Set.disjoint_left.mp hI.dirs_copies hmem (hI.primaryDesc_mem h₁ h₂)

end Params

/-! ## Between the passes -/

/-- The device `d₁` is the image in the given state: only the state word and the low bit of
`s_desc_size` have changed. -/
structure StageRest (d₀ : Device) (s : FixupState) (d₁ : Device) : Prop where
  size : d₁.size = d₀.size
  outside : ∀ x, x ∉ stateBytes → x ∉ primarySbBytes → d₁.bytes x = d₀.bytes x
  sb : SbLike (sbOf d₀) (sbOf d₁)
  state : getFsFixupState d₁ = .ok s

section StageRest

variable {p : Fixup} {T : DirTree} {d₀ d₁ d : Device} {s s' : FixupState} {val : ℕ → ℕ → ℕ}

theorem StageRest.refl (h : getFsFixupState d₀ = .ok s) : StageRest d₀ s d₀ :=
  ⟨rfl, fun _ _ _ => rfl, SbLike.refl _, h⟩

theorem StageRest.stateWrite (h : StageRest d₀ s d₁) (hsize : 2048 ≤ d₀.size) (s' : FixupState) :
    StageRest d₀ s' (d₁.apply (stateWrite s')) := by
  have hcov : ∀ x, 8 ≤ x → ¬ (Ext4.stateWrite s').Covers x := by
    rintro x hx ⟨-, h₂⟩
    change x < 0 + 8 at h₂
    omega
  refine ⟨?_, fun x hx₁ hx₂ => ?_, ?_, ?_⟩
  · rw [Device.apply_size, h.size]
    change 0 + 8 ≤ _
    rw [h.size]
    omega
  · rw [Device.apply_bytes_of_not_covers (hcov x (by simpa [stateBytes] using hx₁)),
      h.outside x hx₁ hx₂]
  · have hsame : sbOf (d₁.apply (Ext4.stateWrite s')) = sbOf d₁ :=
      Device.slice_congr fun x h₁ _ => Device.apply_bytes_of_not_covers (hcov x (by omega))
    rw [hsame]
    exact h.sb
  · apply getFsFixupState_stateWrite
    rw [h.size]
    omega

/-- The write of the primary superblock. -/
def sbWrite (sb : Mem) : Write := ⟨1024, Sb.size, sb⟩

theorem sbWrite_covers {sb : Mem} {x : ℕ} : (sbWrite sb).Covers x ↔ x ∈ primarySbBytes := Iff.rfl

theorem sbOf_sbWrite (d : Device) {sb : Mem} (hsb : ∀ x, Sb.size ≤ x → sb x = 0) :
    sbOf (d.apply (sbWrite sb)) = sb := by
  funext i
  unfold sbOf Device.slice
  split
  · rename_i hi
    have hcov : (sbWrite sb).Covers (1024 + i) :=
      sbWrite_covers.mpr ⟨Nat.le_add_right _ _, Nat.add_lt_add_left hi _⟩
    rw [Device.apply_bytes_of_covers hcov]
    change sb (1024 + i - 1024) = _
    rw [Nat.add_sub_cancel_left]
  · rename_i hi
    exact (hsb i (not_lt.mp hi)).symm

theorem sbOf_apply_of_not_covers (d : Device) {w : Write}
    (h : ∀ x ∈ primarySbBytes, ¬ w.Covers x) : sbOf (d.apply w) = sbOf d :=
  Device.slice_congr fun x h₁ h₂ => Device.apply_bytes_of_not_covers (h x ⟨h₁, h₂⟩)

theorem sbOf_stateWrite (d : Device) (s : FixupState) : sbOf (d.apply (stateWrite s)) = sbOf d := by
  apply sbOf_apply_of_not_covers
  intro x hx hcov
  have h₁ : x < 0 + 8 := hcov.2
  have h₂ : 1024 ≤ x := hx.1
  omega

theorem sbOf_eq_zero (d : Device) {x : ℕ} (hx : Sb.size ≤ x) :
    sbOf d x = 0 := if_neg (not_lt.mpr hx)

theorem setUnmountable_eq_zero {sb : Mem} {state : FixupState} (hsb : ∀ x, Sb.size ≤ x → sb x = 0) :
    ∀ x, Sb.size ≤ x → setUnmountable state sb x = 0 := by
  intro x hx
  rw [(setUnmountable_like state sb).same x (Or.inr (le_trans (by decide) hx)), hsb x hx]

theorem StageRest.sbWrite (h : StageRest d₀ s d₁) (hsize : 2048 ≤ d₀.size) (state : FixupState) :
    StageRest d₀ s (d₁.apply (sbWrite (setUnmountable state (sbOf d₁)))) := by
  refine ⟨?_, fun x hx₁ hx₂ => ?_, ?_, ?_⟩
  · rw [Device.apply_size, h.size]
    rw [h.size]
    exact hsize
  · rw [Device.apply_bytes_of_not_covers (fun hcov => hx₂ (sbWrite_covers.mp hcov)),
      h.outside x hx₁ hx₂]
  · rw [sbOf_sbWrite _ (setUnmountable_eq_zero fun x hx => sbOf_eq_zero _ hx)]
    exact h.sb.trans (setUnmountable_like _ _)
  · rw [← h.state]
    apply getFsFixupState_congr
    · rw [Device.apply_size]
      rw [h.size]
      exact hsize
    · intro x hx
      apply Device.apply_bytes_of_not_covers
      rintro ⟨h₁, -⟩
      have hx : x < 8 := hx
      change 1024 ≤ x at h₁
      omega

variable (hI : FixupImage p T d₀)

include hI

theorem FixupImage.size_ge : 2048 ≤ d₀.size := (readExt_eq_ok.mp hI.readExt).sb_le

theorem StageRest.sameNav (h : StageRest d₀ s d₁) : SameNav p T d₀ d₁ := by
  refine ⟨h.size, fun x hx => h.outside x ?_ ?_⟩
  · exact Set.disjoint_left.mp hI.nav_state hx
  · exact fun hmem => Set.disjoint_left.mp hI.nav_copies hx (hI.primarySb_subset hmem)

/-- A run that is taken up again reads the parameters of the image. -/
theorem StageRest.readExt (h : StageRest d₀ s d₁) (hH : Holds p T d₀ d₁ val d) :
    Ext4.readExt d = .ok p := by
  have hparams := readExt_eq_ok.mp hI.readExt
  refine readExt_eq_ok.mpr (hparams.congr (hH.size.trans h.size) ?_ ?_)
  · rw [hH.sbOf_eq hI]
    exact h.sb
  · refine (hH.desc_sameOn hI).trans fun x h₁ h₂ => h.outside x ?_ ?_
    · exact Set.disjoint_left.mp hI.copies.copies_state (hI.primaryDesc_mem h₁ h₂)
    · exact hI.primaryDesc_notMem h₁ h₂

/-- `set_fs_fixup_state` writes the state word and then the superblock. -/
theorem setFsFixupState_spec (hs' : s'.magic ≠ 0) (hR : StageRest d₀ s d₁)
    (hH : Holds p T d₀ d₁ val d) :
    Crash (fun d' => d' = d ∨ ∃ d₁', StageRest d₀ s' d₁' ∧ (Guarded d₁ → Guarded d₁') ∧
        Holds p T d₀ d₁' val d') (setFsFixupState s') d
      (Returns fun _ d' => ∃ d₁', StageRest d₀ s' d₁' ∧ Guarded d₁' ∧ Holds p T d₀ d₁' val d') := by
  have hsize := hI.size_ge
  have hstate : ∀ x ∈ T.bytes p, ¬ (stateWrite s').Covers x := by
    rintro x hx ⟨-, h₂⟩
    exact Set.disjoint_left.mp hI.dirs_state hx (h₂.trans_eq (Nat.zero_add 8))
  have hsb : ∀ sb, ∀ x ∈ T.bytes p, ¬ (sbWrite sb).Covers x := fun sb x hx hcov =>
    Set.disjoint_left.mp hI.dirs_copies hx (hI.primarySb_subset (sbWrite_covers.mp hcov))
  have hR₁ := hR.stateWrite hsize s'
  have hH₁ := hH.apply_rest hstate
  have hguard₁ : Guarded d₁ → Guarded (d₁.apply (stateWrite s')) := by
    intro hg
    unfold Guarded
    rwa [sbOf_stateWrite]
  have hR₂ := hR₁.sbWrite hsize s'
  have hH₂ := hH₁.apply_rest (hsb (setUnmountable s' (sbOf (d₁.apply (stateWrite s')))))
  have hguard₂ : Guarded ((d₁.apply (stateWrite s')).apply
      (sbWrite (setUnmountable s' (sbOf (d₁.apply (stateWrite s')))))) := by
    unfold Guarded
    rw [sbOf_sbWrite _ (setUnmountable_eq_zero fun x hx => sbOf_eq_zero _ hx)]
    exact descSize_setUnmountable hs' _
  unfold setFsFixupState
  apply Crash.bind_returns (P := fun _ d' => d' = d.apply (stateWrite s'))
  · exact Crash.write (Or.inl rfl) (Or.inr ⟨_, hR₁, hguard₁, hH₁⟩) ⟨(), rfl, rfl⟩
  · rintro _ d' rfl
    have hread : readSb (d.apply (stateWrite s')) = .ok (sbOf (d₁.apply (stateWrite s'))) := by
      rw [← hH₁.sbOf_eq hI]
      unfold readSb
      rw [Device.read_of_le]
      · rfl
      · rw [hH₁.size, hR₁.size]
        exact hsize
    apply Crash.query_bind hread
    unfold writeSb
    rw [if_pos (show seekable 1024 by decide)]
    exact Crash.write (Or.inr ⟨_, hR₁, hguard₁, hH₁⟩)
      (Or.inr ⟨_, hR₂, fun _ => hguard₂, hH₂⟩) ⟨(), rfl, _, hR₂, hguard₂, hH₂⟩

end StageRest

/-! ## The stages that work on directories -/

/-- The state a pass runs in. -/
def Mode.state : Mode → FixupState
  | .sanityCheckPass => .unset
  | .markInodeNums => .markingInums
  | .updateInodeNums => .updatingInums

/-- A pass is under way; if `g` holds, the filesystem cannot be mounted. -/
def InPass (p : Fixup) (T : DirTree) (d₀ : Device) (mode : Mode) (g : Prop) (d : Device) : Prop :=
  ∃ d₁ val, StageRest d₀ mode.state d₁ ∧ (g → Guarded d₁) ∧ Holds p T d₀ d₁ val d ∧
    Prog p T d₀ mode val

/-- The numbers at the end. -/
def newNums (p : Fixup) (T : DirTree) (d₀ : Device) (n r : ℕ) : ℕ := p.newInum (origInum p T d₀ n r)

/-- The directories are finished and the superblocks are next. -/
def DirsDone (p : Fixup) (T : DirTree) (d₀ : Device) (g : Prop) (d : Device) : Prop :=
  ∃ d₁, StageRest d₀ .updatingSb d₁ ∧ (g → Guarded d₁) ∧ Holds p T d₀ d₁ (newNums p T d₀) d

/-- Where a run can be cut off while it works on directories. -/
def InDirs (p : Fixup) (T : DirTree) (d₀ : Device) (g : Prop) (d : Device) : Prop :=
  InPass p T d₀ .markInodeNums g d ∨ InPass p T d₀ .updateInodeNums g d ∨ DirsDone p T d₀ g d

/-- The image with nothing done yet, in the given state. -/
def Untouched (p : Fixup) (T : DirTree) (d₀ : Device) (s : FixupState) (d : Device) : Prop :=
  ∃ d₁, StageRest d₀ s d₁ ∧ Holds p T d₀ d₁ (origInum p T d₀) d

section InState

variable {I : Device → Prop} {Q : Except Stop Unit → Device → Prop} {stage : DevM Stop Unit}
  {s s' : FixupState} {d : Device}

theorem inState_eq_stage (hd : getFsFixupState d = .ok s) : inState s stage d = stage d := by
  unfold inState
  rw [bind_of_eq (x := DevM.query getFsFixupState) (Prod.ext hd rfl), if_pos rfl]

theorem inState_eq_pure (hd : getFsFixupState d = .ok s') (hne : s' ≠ s) :
    inState s stage d = (.ok (), []) := by
  unfold inState
  rw [bind_of_eq (x := DevM.query getFsFixupState) (Prod.ext hd rfl), if_neg hne]
  rfl

/-- In the last stage there is nothing to do for the stages on directories. -/
theorem directoryStages_eq_pure (p : Fixup) (fuel : ℕ) (root : Mem)
    (hd : getFsFixupState d = .ok .updatingSb) : directoryStages p fuel root d = (.ok (), []) := by
  unfold directoryStages
  rw [bind_of_eq (inState_eq_pure hd (by decide)), bind_of_eq (inState_eq_pure hd (by decide))]
  exact inState_eq_pure hd (by decide)

theorem inState_of_eq (hd : getFsFixupState d = .ok s) (h : Crash I stage d Q) :
    Crash I (inState s stage) d Q := by
  unfold inState
  apply Crash.query_bind hd
  rw [if_pos rfl]
  exact h

theorem inState_of_ne (hd : getFsFixupState d = .ok s') (hne : s' ≠ s) (hI : I d)
    (hQ : Q (.ok ()) d) : Crash I (inState s stage) d Q := by
  unfold inState
  apply Crash.query_bind hd
  rw [if_neg hne]
  exact Crash.pure hI hQ

end InState

section Stages

variable {p : Fixup} {T : DirTree} {d₀ d₁ d : Device} {mode : Mode} {g g' : Prop} {fuel : ℕ}
  {root root₀ : Mem} {val : ℕ → ℕ → ℕ}

theorem InPass.mono (h : InPass p T d₀ mode g d) (hg : g' → g) : InPass p T d₀ mode g' d := by
  obtain ⟨d₁, val, hR, hguard, hHP⟩ := h
  exact ⟨d₁, val, hR, fun h => hguard (hg h), hHP⟩

theorem DirsDone.mono (h : DirsDone p T d₀ g d) (hg : g' → g) : DirsDone p T d₀ g' d := by
  obtain ⟨d₁, hR, hguard, hH⟩ := h
  exact ⟨d₁, hR, fun h => hguard (hg h), hH⟩

variable (hI : FixupImage p T d₀)

include hI

/-- A pass that has done nothing yet. -/
theorem Prog.start (mode : Mode) :
    Prog p T d₀ mode fun n r => mode.start (origInum p T d₀ n r) := by
  refine ⟨fun _ _ _ _ => Or.inl rfl, ?_⟩
  rintro rfl n hn r hent htarget
  -- a marked number is no new number
  have hentry := hI.entry n hn r hent.1
  have hnew : p.newInum (origInum p T d₀ n r) < 2 ^ 31 := hentry.newInum_lt
  have hor : origInum p T d₀ n r ||| 0x80000000 = _ := or_bit31 hentry.inum_lt
  simp only [Mode.start, Mode.target] at htarget
  omega

theorem Untouched.inPass (h : Untouched p T d₀ .markingInums d) (hg : g → Guarded d) :
    InPass p T d₀ .markInodeNums g d := by
  obtain ⟨d₁, hR, hH⟩ := h
  exact ⟨d₁, _, hR, fun h => (hH.guarded_iff hI).mp (hg h), hH, Prog.start hI .markInodeNums⟩

theorem Untouched.state {s : FixupState} (h : Untouched p T d₀ s d) :
    getFsFixupState d = .ok s := by
  obtain ⟨d₁, hR, hH⟩ := h
  rw [hH.state hI, hR.state]

theorem InPass.state (h : InPass p T d₀ mode g d) : getFsFixupState d = .ok mode.state := by
  obtain ⟨d₁, val, hR, -, hH, -⟩ := h
  rw [hH.state hI, hR.state]

theorem DirsDone.state (h : DirsDone p T d₀ g d) : getFsFixupState d = .ok .updatingSb := by
  obtain ⟨d₁, hR, -, hH⟩ := h
  rw [hH.state hI, hR.state]

theorem InPass.readExt (h : InPass p T d₀ mode g d) : Ext4.readExt d = .ok p := by
  obtain ⟨d₁, val, hR, -, hH, -⟩ := h
  exact hR.readExt hI hH

variable (hfuel : T.depth EXT4_ROOT_INO < fuel) (hread : readInode p EXT4_ROOT_INO d₀ = .ok root₀)
  (hsame : root.SameOn root₀ 0 DirTree.inodeBytes)

include hfuel hread hsame

/-- A pass that is taken up, with the change of state behind it. -/
theorem pass_then_state {s' : FixupState} (hs' : s'.magic ≠ 0) (h : InPass p T d₀ mode g d) :
    Crash (fun d' => InPass p T d₀ mode g d' ∨ ∃ d₁', StageRest d₀ s' d₁' ∧ (g → Guarded d₁') ∧
        Holds p T d₀ d₁' (fun n r => mode.target p (origInum p T d₀ n r)) d')
      (do
        recurseDir p mode fuel root (dirSize root)
        setFsFixupState s') d
      (Returns fun _ d' => ∃ d₁', StageRest d₀ s' d₁' ∧ Guarded d₁' ∧
        Holds p T d₀ d₁' (fun n r => mode.target p (origInum p T d₀ n r)) d') := by
  obtain ⟨d₁, val, hR, hguard, hH, hP⟩ := h
  have hpass := pass_spec hI (hR.sameNav hI) hfuel hread hsame hH hP
  apply Crash.bind_returns (hpass.mono (fun d' hd' => ?_) fun _ _ h => h)
  · rintro _ d' hd'
    have hdone : Prog p T d₀ mode fun n r => mode.target p (origInum p T d₀ n r) :=
      ⟨fun _ _ _ _ => Or.inr rfl, fun _ _ _ _ _ _ _ _ _ _ => rfl⟩
    refine (setFsFixupState_spec hI hs' hR hd').mono ?_ fun _ _ h => h
    rintro d'' (rfl | ⟨d₁', hR', hguard', hH'⟩)
    · exact Or.inl ⟨d₁, _, hR, hguard, hd', hdone⟩
    · exact Or.inr ⟨d₁', hR', fun hg => hguard' (hguard hg), hH'⟩
  · obtain ⟨val', hH', hP'⟩ := hd'
    exact Or.inl ⟨d₁, val', hR, hguard, hH', hP'⟩

/-- The stage that replaces the marked numbers. -/
theorem updating_stage (h : InPass p T d₀ .updateInodeNums g d) :
    Crash (fun d' => InPass p T d₀ .updateInodeNums g d' ∨ DirsDone p T d₀ g d')
      (inState .updatingInums do
        recurseDir p .updateInodeNums fuel root (dirSize root)
        setFsFixupState .updatingSb) d
      (Returns fun _ => DirsDone p T d₀ True) := by
  apply inState_of_eq (h.state hI)
  refine (pass_then_state hI hfuel hread hsame (by decide) h).mono (fun _ h => h) ?_
  rintro _ d' ⟨_, rfl, d₁', hR, hguard, hH⟩
  exact ⟨(), rfl, d₁', hR, fun _ => hguard, hH⟩

/-- The stage that marks the numbers. -/
theorem marking_stage (h : InPass p T d₀ .markInodeNums g d) :
    Crash (fun d' => InPass p T d₀ .markInodeNums g d' ∨ InPass p T d₀ .updateInodeNums g d')
      (inState .markingInums do
        recurseDir p .markInodeNums fuel root (dirSize root)
        setFsFixupState .updatingInums) d
      (Returns fun _ => InPass p T d₀ .updateInodeNums True) := by
  apply inState_of_eq (h.state hI)
  refine (pass_then_state hI hfuel hread hsame (by decide) h).mono ?_ ?_
  · rintro d' (h | ⟨d₁', hR, hguard, hH⟩)
    · exact Or.inl h
    · exact Or.inr ⟨d₁', _, hR, hguard, hH, Prog.start hI .updateInodeNums⟩
  · rintro _ d' ⟨_, rfl, d₁', hR, hguard, hH⟩
    exact ⟨(), rfl, d₁', _, hR, fun _ => hguard, hH, Prog.start hI .updateInodeNums⟩

/-- The last two stages, from either of them on. -/
theorem passes_spec (h : InDirs p T d₀ g d) :
    Crash (InDirs p T d₀ g)
      (do
        inState .markingInums do
          recurseDir p .markInodeNums fuel root (dirSize root)
          setFsFixupState .updatingInums
        inState .updatingInums do
          recurseDir p .updateInodeNums fuel root (dirSize root)
          setFsFixupState .updatingSb) d
      (Returns fun _ => DirsDone p T d₀ g) := by
  have hupdate : ∀ d' (g' : Prop), (g → g') → InPass p T d₀ .updateInodeNums g' d' →
      Crash (InDirs p T d₀ g)
        (inState .updatingInums do
          recurseDir p .updateInodeNums fuel root (dirSize root)
          setFsFixupState .updatingSb) d'
        (Returns fun _ => DirsDone p T d₀ g) := by
    intro d' g' hg h
    refine (updating_stage hI hfuel hread hsame h).mono ?_ ?_
    · rintro d'' (h | h)
      · exact Or.inr (Or.inl (h.mono hg))
      · exact Or.inr (Or.inr (h.mono hg))
    · rintro _ d'' ⟨_, rfl, h⟩
      exact ⟨(), rfl, h.mono fun _ => trivial⟩
  rcases h with h | h | h
  · apply Crash.bind_returns (P := fun _ => InPass p T d₀ .updateInodeNums True)
    · refine (marking_stage hI hfuel hread hsame h).mono ?_ fun _ _ h => h
      rintro d' (h | h)
      · exact Or.inl h
      · exact Or.inr (Or.inl h)
    · rintro _ d' h
      exact hupdate d' True (fun _ => trivial) h
  · apply Crash.bind_returns (P := fun _ d' => d' = d)
    · exact inState_of_ne (h.state hI) (by decide) (Or.inr (Or.inl h)) ⟨(), rfl, rfl⟩
    · rintro _ d' rfl
      exact hupdate _ g id h
  · apply Crash.bind_returns (P := fun _ d' => d' = d)
    · exact inState_of_ne (h.state hI) (by decide) (Or.inr (Or.inr h)) ⟨(), rfl, rfl⟩
    · rintro _ d' rfl
      exact inState_of_ne (h.state hI) (by decide) (Or.inr (Or.inr h)) ⟨(), rfl, h⟩

end Stages

/-! ## A run from the beginning -/

section SanityCheck

variable {p : Fixup}

theorem checkInodeBitmap_readOnly (i : ℕ) : ReadOnly (checkInodeBitmap p true i) := by
  unfold checkInodeBitmap
  refine ReadOnly.ite (ReadOnly.fail _) ((ReadOnly.query _).bind fun block => ?_)
  refine ReadOnly.ite (ReadOnly.pure _) (ReadOnly.ite (ReadOnly.fail _) ?_)
  exact ReadOnly.ite (ReadOnly.pure _) (ReadOnly.pure _)

theorem checkInodeBitmaps_readOnly (groups : List ℕ) :
    ReadOnly (checkInodeBitmaps p true groups) := by
  induction groups with
  | nil => exact ReadOnly.pure _
  | cons i rest ih => exact (checkInodeBitmap_readOnly i).bind fun _ => ih

theorem writeCopies_readOnly (bgDesc : Mem) (groups : List ℕ) :
    ∀ sb, ReadOnly (writeCopies p true bgDesc sb groups) := by
  induction groups with
  | nil => exact fun _ => ReadOnly.pure _
  | cons i rest ih =>
      intro sb
      rw [writeCopies]
      simp only [if_true]
      exact ReadOnly.ite (ReadOnly.ite (ReadOnly.fail _) (ih _)) (ih _)

/-- The trial run of `update_superblocks_and_bg_desc` writes nothing. -/
theorem update_readOnly (state : FixupState) :
    ReadOnly (updateSuperblocksAndBgDesc p state true) := by
  unfold updateSuperblocksAndBgDesc
  refine (ReadOnly.query _).bind fun sb => (checkInodeBitmaps_readOnly _).bind fun _ => ?_
  exact ReadOnly.ite (ReadOnly.fail _) (ReadOnly.ite (ReadOnly.fail _) (writeCopies_readOnly _ _ _))

/-- The trial run of `update_superblocks_and_bg_desc` returns. -/
def TrialPasses (p : Fixup) (d : Device) : Prop :=
  (updateSuperblocksAndBgDesc p .unset true).result d = .ok ()

/-- A run that fails in the check of the directories, or in the trial behind it. -/
theorem directoryStages_stops {P : Stop → Prop} {p : Fixup} {fuel : ℕ} {root : Mem} {d : Device}
    (hunset : getFsFixupState d = .ok .unset)
    (h : Stops P (recurseDir p .sanityCheckPass fuel root (dirSize root)) d ∨
      (recurseDir p .sanityCheckPass fuel root (dirSize root)).result d = .ok () ∧
        Stops P (updateSuperblocksAndBgDesc p .unset true) d) :
    Stops P (directoryStages p fuel root) d := by
  unfold directoryStages
  apply Stops.bind
  apply Stops.of_bind (x := DevM.query getFsFixupState) hunset (ReadOnly.query _)
  rw [if_pos rfl]
  rcases h with hsanity | ⟨hsanity, htrial⟩
  · exact hsanity.bind
  · exact Stops.of_bind hsanity (recurseDir_readOnly _ _ _) htrial.bind

end SanityCheck

section FromUnset

variable {p : Fixup} {T : DirTree} {d₀ d : Device} {g : Prop} {fuel : ℕ} {root root₀ : Mem}

variable (hI : FixupImage p T d₀) (hfuel : T.depth EXT4_ROOT_INO < fuel)
  (hread : readInode p EXT4_ROOT_INO d₀ = .ok root₀)

include hI hfuel hread

/-- The check of the directories returns on every image. -/
theorem sanity_returns (hunset : getFsFixupState d₀ = .ok .unset) :
    (recurseDir p .sanityCheckPass fuel root₀ (dirSize root₀)).result d₀ = .ok () := by
  have hR : StageRest d₀ .unset d₀ := .refl hunset
  obtain ⟨_, hres, -⟩ := (pass_spec hI (hR.sameNav hI) hfuel hread (fun _ _ _ => rfl) hI.holds
    (Prog.start hI .sanityCheckPass)).done
  exact hres

/-- A run whose trial fails ends there and leaves the device alone. -/
theorem directoryStages_stops_of_trial (hunset : getFsFixupState d₀ = .ok .unset)
    (htrial : ¬ TrialPasses p d₀) : Stops (fun _ => True) (directoryStages p fuel root₀) d₀ := by
  obtain ⟨e, he⟩ : ∃ e, (updateSuperblocksAndBgDesc p .unset true).result d₀ = .error e := by
    cases hres : (updateSuperblocksAndBgDesc p .unset true).result d₀ with
    | error e => exact ⟨e, rfl⟩
    | ok _ => exact absurd hres htrial
  exact directoryStages_stops hunset (Or.inr ⟨sanity_returns hI hfuel hread hunset,
    (update_readOnly _).stops trivial he⟩)

/-- A run whose trial passes goes through all the stages. -/
theorem directoryStages_of_trial (hunset : getFsFixupState d₀ = .ok .unset)
    (htrial : TrialPasses p d₀) :
    Crash (fun d' => d' = d₀ ∨ Untouched p T d₀ .markingInums d' ∨ InDirs p T d₀ True d')
      (directoryStages p fuel root₀) d₀ (Returns fun _ => DirsDone p T d₀ True) := by
  have hR : StageRest d₀ .unset d₀ := .refl hunset
  unfold directoryStages
  apply Crash.bind_returns (P := fun _ => InPass p T d₀ .markInodeNums True)
  · apply inState_of_eq hunset
    apply Crash.bind_returns (P := fun _ d' => d₀ = d')
    · refine Crash.of_no_writes (Or.inl rfl) (recurseDir_readOnly _ _ _ _) ⟨(), ?_, rfl⟩
      exact sanity_returns hI hfuel hread hunset
    rintro _ _ rfl
    apply Crash.bind_returns (P := fun _ d' => d₀ = d')
    · exact Crash.of_no_writes (Or.inl rfl) (update_readOnly _ _) ⟨(), htrial, rfl⟩
    rintro _ _ rfl
    have hmark : FixupState.markingInums.magic ≠ 0 := by decide
    refine (setFsFixupState_spec hI hmark hR hI.holds).mono ?_ ?_
    · rintro d' (rfl | ⟨d₁', hR', -, hH'⟩)
      · exact Or.inl rfl
      · exact Or.inr (Or.inl ⟨d₁', hR', hH'⟩)
    · rintro _ d' ⟨_, rfl, d₁', hR', hguard, hH'⟩
      exact ⟨(), rfl, d₁', _, hR', fun _ => hguard, hH', Prog.start hI .markInodeNums⟩
  · rintro _ d' h
    refine (passes_spec hI hfuel hread (fun _ _ _ => rfl) (Or.inl h)).mono ?_ fun _ _ h => h
    exact fun d'' h => Or.inr (Or.inr h)

omit hread in
/-- A run that is taken up goes through the stages that are left. -/
theorem directoryStages_of_inDirs {root : Mem} (hread : readInode p EXT4_ROOT_INO d₀ = .ok root₀)
    (hsame : root.SameOn root₀ 0 DirTree.inodeBytes) (h : InDirs p T d₀ g d) :
    Crash (InDirs p T d₀ g) (directoryStages p fuel root) d
      (Returns fun _ => DirsDone p T d₀ g) := by
  have hstate : ∃ s, getFsFixupState d = .ok s ∧ s ≠ .unset := by
    rcases h with h | h | h
    · exact ⟨_, h.state hI, by decide⟩
    · exact ⟨_, h.state hI, by decide⟩
    · exact ⟨_, h.state hI, by decide⟩
  obtain ⟨s, hs, hne⟩ := hstate
  unfold directoryStages
  apply Crash.bind_returns (P := fun _ d' => d' = d)
  · exact inState_of_ne hs hne h ⟨(), rfl, rfl⟩
  · rintro _ _ rfl
    exact passes_spec hI hfuel hread hsame h

end FromUnset

end SystemExtras.Ext4
