import SystemExtras.Ext4.FixupStray

/-!
# The sanity check

Before the tool changes anything, it makes a dry run: the check of the directories and a
trial of the update of the superblocks.  What this is for is that a run fails then or never.
It is so unless there is a stray entry behind the records of a directory
(`sanity_sound_iff`).

## Strategy

* A faulty directory, a failing trial: the run calls `critical_error` before it writes
  (`Fixable.stops_of_faulty`, `Fixable.stops_of_trial`).
* Otherwise, and if nothing is stray, there is an overlay under which the device is an image,
  and no run on an image fails (`Fixable.runs_return`).
* If something is, the run sets the state word, and the next run, or the rest of this one,
  is the marking pass, which fails (`Fixable.run_fails`).
-/

namespace SystemExtras.Ext4

open DevM

/-! ## The trial -/

/-- The descriptors and the sizes of bitmaps are ones that the trial can work with. -/
structure Triable (p : Fixup) : Prop where
  hasDesc : ∀ i < p.numBlockGroups, p.HasDesc i
  seekable : ∀ i < p.numBlockGroups, seekable (bitmapOffset p i)
  blockSize_le : p.info.blockSize ≤ MAX_EXT4_BLOCK_SIZE
  bits : s32 p.newInodesPerGroup ≤ s32 p.info.inodesPerGroup ∨
    0 ≤ s32 p.info.inodesPerGroup ∧ p.newInodesPerGroup ≤ 8 * p.info.blockSize

section Trial

variable {p : Fixup} {d : Device}

theorem writeCopies_reports (bgDesc : Mem) (groups : List ℕ) :
    ∀ sb, FailsOnly Stop.Critical (writeCopies p true bgDesc sb groups) d := by
  induction groups with
  | nil => exact fun _ => FailsOnly.pure
  | cons i rest ih =>
      intro sb
      rw [writeCopies]
      split
      · by_cases hseek : seekable (descOffset p i)
        · simp only [if_true, if_neg (not_not.mpr hseek)]
          exact ih _
        · simp only [if_true, if_pos hseek]
          exact FailsOnly.fail (critical_msg _)
      · exact ih sb

variable (h : Triable p)

include h

theorem Triable.checkInodeBitmap_reports {i : ℕ} (hi : i < p.numBlockGroups) :
    FailsOnly Stop.Critical (checkInodeBitmap p true i) d := by
  unfold checkInodeBitmap
  rw [if_neg (not_not.mpr (h.hasDesc i hi))]
  refine FailsOnly.query_bind (fun e he => ?_) fun block _ => ?_
  · unfold readBlockBounded at he
    rw [if_neg (not_lt.mpr h.blockSize_le)] at he
    unfold readBlock at he
    dsimp only at he
    have hseek := h.seekable i hi
    unfold bitmapOffset at hseek
    rw [if_neg (not_not.mpr hseek)] at he
    split at he
    · cases he
    · cases he
      exact critical_msg _
  · split
    · exact FailsOnly.pure
    · rename_i hgrow
      have hbits := h.bits.resolve_left hgrow
      rw [if_neg (by omega)]
      dsimp only
      split
      · exact FailsOnly.pure
      · exact FailsOnly.pure

/-- The trial fails only by `critical_error`. -/
theorem Triable.reports (hsize : 2048 ≤ d.size) :
    FailsOnly Stop.Critical (updateSuperblocksAndBgDesc p .unset true) d := by
  have hmaps : ∀ groups : List ℕ, (∀ i ∈ groups, i < p.numBlockGroups) →
      FailsOnly Stop.Critical (checkInodeBitmaps p true groups) d := by
    intro groups hlt
    induction groups with
    | nil => exact FailsOnly.pure
    | cons i rest ih =>
        refine FailsOnly.bind (h.checkInodeBitmap_reports (hlt i List.mem_cons_self)) fun _ _ => ?_
        rw [(checkInodeBitmap_readOnly i).final]
        exact ih fun j hj => hlt j (List.mem_cons_of_mem _ hj)
  unfold updateSuperblocksAndBgDesc
  refine FailsOnly.query_bind (fun e he => ?_) fun sb _ => ?_
  · rw [readSb_eq hsize] at he
    cases he
  refine FailsOnly.bind (hmaps _ fun i hi => List.mem_range.mp hi) fun _ _ => ?_
  rw [(checkInodeBitmaps_readOnly _).final]
  split
  · exact FailsOnly.fail (critical_msg _)
  · split
    · exact FailsOnly.fail (critical_msg _)
    · exact writeCopies_reports _ _ _

end Trial

/-! ## The images -/

/-- An image on which no migration has been started.  What a step of the tool relies on is asked for
only if the steps before it succeed: of the directories, if the parameters can be read; of what
the trial looks at, if no directory is faulty; of the layout, if the trial succeeds. -/
structure Fixable (T : DirTree) (fuel : ℕ) (d : Device) : Prop where
  unset : getFsFixupState d = .ok .unset
  params : ∀ e, readExt d = .error e → e.Critical
  depth_lt : T.depth EXT4_ROOT_INO < fuel
  searchable : ∀ p, readExt d = .ok p → Searchable p T d
  triable : ∀ p, readExt d = .ok p → (∀ n ∈ T.dirs, ¬ Faulty p d n) → Triable p
  migratable : ∀ p, readExt d = .ok p → (∀ n ∈ T.dirs, ¬ Faulty p d n) → TrialOk p d →
    Migratable p T d

section Shadow

variable {f : Overlay} {p : Fixup} {T : DirTree} {d : Device}

/-- The overlay is an image on which a run may start. -/
theorem Cleans.shadow (hT : Searchable p T d) (hM : Migratable p T d) (hC : Cleans f p T d)
    (hunset : getFsFixupState d = .ok .unset) (htrial : TrialOk p d)
    (hclear : ∀ n ∈ T.dirs, T.Clear p d n) : Shadow f p (T.clean p d) (d.overlay f) d := by
  have hI := hC.image hT hM
  have hf := hC.draws hT hM
  have hcompat := hI.compatible hM.steady (hC.trialOk hM htrial)
  refine ⟨p, _, _, T.plan p d, Follows.start hI hcompat ((hf.state hI d).trans hunset), hf,
    fun n hn => if_pos (hclear n hn), Or.inl ⟨Or.inl rfl, ?_⟩⟩
  exact Bare.numsAt (show Mode.markInodeNums ≠ .updateInodeNums by decide) hC.bare

end Shadow

section Fixable

variable {p : Fixup} {T : DirTree} {d : Device} {fuel n : ℕ}

variable (h : Fixable T fuel d) (hp : readExt d = .ok p)

include h hp

/-- A run on an image with a faulty directory. -/
theorem Fixable.stops_of_faulty (hn : n ∈ T.dirs) (hfaulty : Faulty p d n) :
    Stops Stop.Critical (ext4fixupInternal fuel) d := by
  have hT := h.searchable p hp
  cases hread : readInode p EXT4_ROOT_INO d with
  | error e =>
      unfold ext4fixupInternal
      apply Stops.of_bind (x := DevM.query readExt) hp (ReadOnly.query _)
      have hcritical := (hT.readInode_reports hT.root_mem e hread).1
      exact ((ReadOnly.query (readInode p EXT4_ROOT_INO)).stops hcritical hread).bind
  | ok root =>
      by_cases hdir : isDirInode root = true
      · apply internal_stops hp hread hdir
        refine directoryStages_stops h.unset (Or.inl ?_)
        have hreports := recurseDir_reports hT fuel _ hT.root_mem h.depth_lt root hread hdir
          fun h => absurd rfl h
        rcases hreports.returns_or_stops (recurseDir_readOnly _ _ _) with ⟨_, hret⟩ | hstops
        · exact absurd hfaulty (hT.not_faulty ⟨fuel, root, hread, hdir, hret⟩ n hn)
        · exact hstops.mono fun _ he => he.1
      · unfold ext4fixupInternal
        apply Stops.of_bind (x := DevM.query readExt) hp (ReadOnly.query _)
        apply Stops.of_bind (x := DevM.query (readInode p EXT4_ROOT_INO)) hread (ReadOnly.query _)
        rw [if_pos hdir]
        exact (ReadOnly.fail _).stops (critical_msg _) rfl

variable (hsound : ∀ n ∈ T.dirs, ¬ Faulty p d n)

include hsound

/-- Without faulty directories the check returns. -/
theorem Fixable.sanity_ok : ∃ root, readInode p EXT4_ROOT_INO d = .ok root ∧
    isDirInode root = true ∧
    (recurseDir p .sanityCheckPass fuel root (dirSize root)).result d = .ok () := by
  have hT := h.searchable p hp
  obtain ⟨root, hread, hdir⟩ := ((hT.dir _ hT.root_mem).resolve_left (hsound _ hT.root_mem)).inode
  have hreports := recurseDir_reports hT fuel _ hT.root_mem h.depth_lt root hread hdir.isDir
    fun h => absurd rfl h
  rcases hreports.returns_or_stops (recurseDir_readOnly _ _ _) with ⟨_, hret⟩ | ⟨-, e, he, -⟩
  · exact ⟨root, hread, hdir.isDir, hret⟩
  · obtain ⟨n, hn, hfaulty⟩ := he.2
    exact absurd hfaulty (hsound n hn)

/-- A run whose trial fails. -/
theorem Fixable.stops_of_trial (htrial : ¬ TrialOk p d) :
    Stops Stop.Critical (ext4fixupInternal fuel) d := by
  obtain ⟨root, hread, hdir, hsanity⟩ := h.sanity_ok hp hsound
  have hsize := (readExt_eq_ok.mp hp).sb_le
  apply internal_stops hp hread hdir
  refine directoryStages_stops h.unset (Or.inr ⟨hsanity, ?_⟩)
  rcases ((h.triable p hp hsound).reports hsize).returns_or_stops (update_readOnly _) with
    ⟨_, hret⟩ | hstops
  · exact absurd ((trialPasses_iff hsize).mp hret) htrial
  · exact hstops

variable (htrial : TrialOk p d)

include htrial

/-- No run fails, if nothing is stray. -/
theorem Fixable.runs_return (hclear : ∀ n ∈ T.dirs, ¬ T.Stray p d n) {d' : Device}
    (hd : Runs (fun _ => True) fuel d d') : (ext4fixupInternal fuel).result d' = .ok () := by
  have hT := h.searchable p hp
  have hM := h.migratable p hp hsound htrial
  have hdirs : ∀ n ∈ T.dirs, SoundDir p T d n := fun n hn =>
    (hT.dir n hn).resolve_left (hsound n hn)
  obtain ⟨f, hC⟩ := exists_cleans hT hM hdirs
  have hshadow := hC.shadow hT hM h.unset htrial fun n hn =>
    (hdirs n hn).leftover.resolve_right (hclear n hn)
  have htrial' := hC.trialOk hM htrial
  have hdepth : (T.clean p d).depth EXT4_ROOT_INO < fuel := h.depth_lt
  have hrun := (hshadow.runs hdepth htrial' hd).run hdepth htrial'
  obtain ⟨_, _, hret, -⟩ := hrun.returns
  exact hret

/-- If something is stray, the first run writes, and a run that is taken up from there fails. -/
theorem Fixable.run_fails (hn : n ∈ T.dirs) (hstray : T.Stray p d n) :
    (ext4fixupInternal fuel).writes d ≠ [] ∧ ∃ d', Runs (fun _ => True) fuel d d' ∧
      (ext4fixupInternal fuel).result d' ≠ .ok () := by
  have hT := h.searchable p hp
  have hM := h.migratable p hp hsound htrial
  obtain ⟨root, hread, hdir, hsanity⟩ := h.sanity_ok hp hsound
  obtain ⟨f, hC⟩ := exists_cleans hT hM fun n hn => (hT.dir n hn).resolve_left (hsound n hn)
  have hprefix := prefix_run_start hp hread hdir h.unset hsanity
    ((trialPasses_iff (readExt_eq_ok.mp hp).sb_le).mpr htrial) List.prefix_rfl
  refine ⟨fun hnone => ?_, _, Runs.start.run trivial hprefix,
    hC.marking_fails hT hM h.unset h.depth_lt hn hstray⟩
  rw [hnone, List.prefix_nil] at hprefix
  cases hprefix

end Fixable

section PaddedRoot

/-- The filesystem with two groups, with another file in the root that has the number of no inode,
and with eight zero bytes behind that entry. -/
def paddedRoot : Device where
  size := twoGroups.size
  bytes := twoGroups.bytes.assign
    (entryAt 12312 25 12 EXT4_FT_DIR [100] ++ entryAt 12324 99 2004 1 [103])

def paddedRootTree : DirTree :=
  { twoGroupsTree with records := fun n => if n = 2 then [0, 12, 24, 36] else [0, 12, 24] }

theorem paddedRoot_bytes {x : ℕ} (h : x < 12312 ∨ 12348 ≤ x) :
    paddedRoot.bytes x = twoGroups.bytes x := by
  have hcases : ∀ f ∈ (entryAt 12312 25 12 EXT4_FT_DIR [100] ++ entryAt 12324 99 2004 1 [103]).map
      Prod.fst, 12312 ≤ f.offset ∧ f.offset + f.width ≤ 12348 := by decide
  apply Mem.assign_apply_of_not_mem
  intro f hf
  have hcase := hcases f.1 (List.mem_map_of_mem (f := Prod.fst) hf)
  omega

theorem sbOf_paddedRoot : sbOf paddedRoot = sbOf twoGroups :=
  Device.slice_congr fun x h₁ h₂ => paddedRoot_bytes (by
    have hsize : Sb.size = 1024 := by decide
    omega)

theorem readExt_paddedRoot : readExt paddedRoot = .ok twoGroupsFixup := by
  have hend : twoGroupsFixup.info.blockSize * (twoGroupsFixup.aux.firstDataBlock + 1) +
      twoGroupsFixup.descLen = 4096 := by decide
  refine readExt_eq_ok.mpr ((readExt_eq_ok.mp readExt_twoGroups).congr rfl ?_ fun x h₁ h₂ => ?_)
  · rw [sbOf_paddedRoot]
    exact SbLike.refl _
  · rw [hend] at h₂
    exact paddedRoot_bytes (by omega)

/-- What is read of an inode is the same. -/
theorem readInode_paddedRoot {v : ℕ} (hv : v ∈ [2, 25, 26]) : ∃ inode,
    readInode twoGroupsFixup v paddedRoot = .ok inode ∧
      inode.SameOn (twoGroups.slice (inodeOffset twoGroupsFixup v) sizeofInode) 0
        DirTree.inodeBytes := by
  have hsize : paddedRoot.size = twoGroups.size := rfl
  refine readInode_congr hsize (fun x h₁ h₂ => paddedRoot_bytes ?_) (readInode_twoGroups v hv)
  have := inodeBytes_twoGroups hv ⟨h₁, h₂⟩
  omega

theorem dirInode_paddedRoot : ∀ n ∈ paddedRootTree.dirs, ∃ inode,
    readInode twoGroupsFixup n paddedRoot = .ok inode ∧
      DirInode twoGroupsFixup (paddedRootTree.blocks n) inode paddedRoot := by
  intro n hn
  have hn : n ∈ twoGroupsTree.dirs := hn
  have hmem := inums_of_mem_dirs hn
  obtain ⟨inode, hread, hdir⟩ := dirInode_twoGroups n hn
  obtain rfl := (readInode_eq_ok.mp hread).2.2.2.2
  obtain ⟨inode', hread', hsame⟩ := readInode_paddedRoot hmem
  refine ⟨inode', hread', hdir.congr hsame rfl twoGroups_image.size_lt fun b hb => ?_⟩
  rw [mapBlocks_twoGroups n hn] at hb
  cases hb

theorem clear_paddedRoot :
    ∀ n ∈ paddedRootTree.dirs, paddedRootTree.Clear twoGroupsFixup paddedRoot n := by decide

/-- The numbers of the entries that the tool looks behind. -/
theorem inums_paddedRoot : ∀ n ∈ paddedRootTree.dirs, ∀ r ∈ paddedRootTree.records n,
    ¬ paddedRootTree.Idle twoGroupsFixup paddedRoot n r →
      recInum (paddedRootTree.buf twoGroupsFixup paddedRoot n) r ∈ [2, 25, 26] := by decide

theorem entry_paddedRoot : ∀ n ∈ paddedRootTree.dirs, ∀ r ∈ paddedRootTree.records n,
    SoundEntry twoGroupsFixup paddedRootTree paddedRoot n r := by
  have hfacts : ∀ n ∈ paddedRootTree.dirs, ∀ r ∈ paddedRootTree.records n,
      let buf := paddedRootTree.buf twoGroupsFixup paddedRoot n
      let inum := recInum buf r
      inum ≠ 0 ∧ inum < 2 ^ 31 ∧ twoGroupsFixup.newInum inum < 2 ^ 31 ∧
        (¬ paddedRootTree.Idle twoGroupsFixup paddedRoot n r →
          recFileType buf r = EXT4_FT_UNKNOWN ∧ inum = 26 ∨
          inum ∈ paddedRootTree.dirs ∧ recFileType buf r ≠ EXT4_FT_UNKNOWN ∧
            (recName buf r ≠ [46] → recName buf r ≠ [46, 46] →
              paddedRootTree.depth inum < paddedRootTree.depth n)) := by decide
  have hfile : isDirInode (twoGroups.slice (inodeOffset twoGroupsFixup 26) sizeofInode) =
      false := by decide
  intro n hn r hr
  obtain ⟨hused, hlt, hnew, hleads⟩ := hfacts n hn r hr
  refine ⟨hused, hlt, hnew, fun hidle => ?_⟩
  rcases hleads hidle with ⟨hunknown, hinum⟩ | ⟨hmem, htype, hdepth⟩
  · obtain ⟨inode, hread, hsame⟩ := readInode_paddedRoot (v := 26) (by decide)
    refine Or.inl ⟨hunknown, inode, ?_, (isDirInode_congr hsame).trans hfile⟩
    rw [hinum, hread]
  · exact Or.inr ⟨hmem, fun h => absurd h htype, hdepth⟩

theorem searchable_paddedRoot : Searchable twoGroupsFixup paddedRootTree paddedRoot where
  readExt := readExt_paddedRoot
  size_lt := by decide
  root_mem := by decide
  reachable := by
    intro n hn
    rcases mem_dirs_twoGroups hn with rfl | rfl
    · exact Relation.ReflTransGen.refl
    · exact Relation.ReflTransGen.single ⟨24, by decide, by decide, by decide, by decide, by decide,
        by decide, fun h => absurd h (by decide)⟩
  dir := by
    have hle : ∀ n ∈ paddedRootTree.dirs, ∀ b ∈ paddedRootTree.blocks n,
        b * twoGroupsFixup.info.blockSize + twoGroupsFixup.info.blockSize ≤ paddedRoot.size := by
      decide
    have htiles : ∀ n ∈ paddedRootTree.dirs, Tiles (paddedRootTree.buf twoGroupsFixup paddedRoot n)
        twoGroupsFixup.info.blockSize (paddedRootTree.stop twoGroupsFixup paddedRoot n) 0
        (paddedRootTree.records n) := by decide
    have hstop : ∀ n ∈ paddedRootTree.dirs, paddedRootTree.stop twoGroupsFixup paddedRoot n ≤
        paddedRootTree.size twoGroupsFixup n := by decide
    exact fun n hn => Or.inr ⟨dirInode_paddedRoot n hn, hle n hn, htiles n hn, hstop n hn,
      Or.inl (clear_paddedRoot n hn), entry_paddedRoot n hn⟩

theorem searchBytes_paddedRoot : ∀ x ∈ paddedRootTree.searchBytes twoGroupsFixup paddedRoot,
    8320 ≤ x ∧ x < 8420 ∨ 24576 ≤ x ∧ x < 24804 := by
  rintro x (⟨v, hv, hx⟩ | ⟨n, hn, inode, hread, b, hb, -⟩)
  · have hmem : v ∈ [2, 25, 26] := by
      rcases hv with hv | ⟨n, hn, r, hr, hidle, rfl⟩ | ⟨n, hn, hstray, -⟩
      · exact inums_of_mem_dirs hv
      · exact inums_paddedRoot n hn r hr hidle
      · exact absurd (clear_paddedRoot n hn) hstray.not_clear
    exact inodeBytes_twoGroups hmem hx
  · have hn : n ∈ twoGroupsTree.dirs := hn
    have hmem := inums_of_mem_dirs hn
    obtain ⟨inode', hread', hsame⟩ := readInode_paddedRoot hmem
    rw [hread] at hread'
    cases hread'
    rw [mapBlocks_congr hsame, mapBlocks_twoGroups n hn] at hb
    cases hb

theorem migratable_paddedRoot : Migratable twoGroupsFixup paddedRootTree paddedRoot where
  steady := steady_twoGroups
  groups_pos := twoGroups_image.groups_pos
  blockSize_le := twoGroups_image.blockSize_le
  blocks_nodup := twoGroups_image.blocks_nodup
  copies := twoGroups_image.copies
  copies_le := twoGroups_image.copies_le
  dirs_state := twoGroups_image.dirs_state
  dirs_copies := twoGroups_image.dirs_copies
  dirs_bitmaps := twoGroups_image.dirs_bitmaps
  dirs_search :=
    disjoint_of_bounds dirBytes_twoGroups searchBytes_paddedRoot fun x h h' => by omega
  search_state :=
    disjoint_of_bounds searchBytes_paddedRoot (fun _ h => h) fun x h (h' : x < 8) => by omega
  search_copies :=
    disjoint_of_bounds searchBytes_paddedRoot copyBytes_twoGroups fun x h h' => by omega
  search_bitmaps :=
    disjoint_of_bounds searchBytes_paddedRoot bitmapBytes_twoGroups fun x h h' => by omega

theorem fixable_paddedRoot : Fixable paddedRootTree 2 paddedRoot where
  unset := by decide
  params e he := by
    rw [readExt_paddedRoot] at he
    cases he
  depth_lt := by decide
  searchable p hp := by
    rw [readExt_paddedRoot] at hp
    cases hp
    exact searchable_paddedRoot
  triable p hp _ := by
    rw [readExt_paddedRoot] at hp
    cases hp
    exact ⟨by decide, by decide, by decide, by decide⟩
  migratable p hp _ _ := by
    rw [readExt_paddedRoot] at hp
    cases hp
    exact migratable_paddedRoot

end PaddedRoot

/-- The filesystem with two groups, with eight bytes behind the last entry of the root that look
like another entry, a directory with the number of a file. -/
def strayEntry : Device where
  size := twoGroups.size
  bytes := twoGroups.bytes.assign
    (entryAt 12300 2 2028 EXT4_FT_DIR [46, 46] ++ entryAt 14328 26 8 EXT4_FT_DIR [])

end SystemExtras.Ext4
