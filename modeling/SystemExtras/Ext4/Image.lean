import SystemExtras.Ext4.Build
import SystemExtras.Ext4.HiddenInodes

/-!
# Making an image

A translation of `make_ext4fs_internal` from where the parameters are known: the
superblock and its copies, the inodes that are not for files, the tree, and last the
free counts.  Without `force` every error ends the program.

`Made` is what the steps leave together: which inodes are in use and which of these are
directories, the journal, the root directory, and a queue that says where everything
goes.  `SupersHold` is what is in the superblock and the descriptors at the end.
-/

namespace SystemExtras.Ext4

open Mem

/-! ## The code -/

/-- A filesystem with everything that is to be written. -/
structure Image where
  builder : Builder
  supers : Supers

section Code

variable (g : Geometry)

/-- The tree: that of a directory of the host, or the default one. -/
def buildTree (host : HostTree) (fuel : ℕ) (directory : Option (List UInt8))
    (mountpoint : List UInt8) (s : State) : Except Stop (ℕ × Builder) :=
  match directory with
  | some path => buildDirectoryStructure g host fuel (some path) mountpoint 0 ⟨s, []⟩
  | none => do
      let (root, s) ← buildDefaultDirectoryStructure g s
      .ok (root, ⟨s, []⟩)

/-- `S_IRWXU | S_IRGRP | S_IXGRP | S_IROTH | S_IXOTH`. -/
def ROOT_MODE : ℕ := 0x1ED

/-- Permissions and the label of the root directory; whether it could be labelled is not looked at. -/
def describeRoot (host : HostTree) (mountpoint : List UInt8) (root : ℕ) (b : Builder) :
    Except Stop Builder := do
  let st ← inodeSetPermissions g root ROOT_MODE 0 0 0 b.st
  let b := { b with st := st }
  match host.selabelLookup with
  | none => .ok b
  | some lookup =>
      match lookup mountpoint S_IFDIR with
      | none => .error (.error "cannot lookup security context for %s")
      | some secon => do
          let (_, b) ← inodeSetSelinux g root (some secon) b
          .ok b

/-- `make_ext4fs_internal` from `block_allocator_init` to `ext4_queue_sb`. -/
def makeExt4fs (uuid : Mem) (host : HostTree) (fuel : ℕ) (directory : Option (List UInt8))
    (mountpoint : List UInt8) : Except Stop Image := do
  let s ← blockAllocatorInit g State.empty
  let (m, s) := fillInSb g uuid s
  let (sb, s) ← hiddenInodes g m.sb s
  let (root, b) ← buildTree g host fuel directory mountpoint s
  let b ← describeRoot g host mountpoint root b
  let m := ext4UpdateFree g b.st { m with sb := sb }
  .ok ⟨{ b with st := ext4QueueSb g b.st }, m⟩

end Code

/-! ## The tree -/

/-- A host with nothing on it. -/
def bareHost : HostTree where
  lstat := fun _ => none
  readlink := fun _ => []
  fsConfig := none
  selabelLookup := none
  readdir := fun _ => none

/-- The root directory mirrors the directory that was asked for, or nothing but `lost+found`.  The
inodes below it are `made`. -/
def FsView.MirrorsRoot (v : FsView) (host : HostTree) (blockSize fuel : ℕ)
    (directory : Option (List UInt8)) (mountpoint : List UInt8) (made : List ℕ) : Prop :=
  match directory with
  | some path => v.Mirrors host blockSize fuel (some path) mountpoint 0 EXT4_ROOT_INO made
  | none => v.Mirrors bareHost blockSize 2 none mountpoint 0 EXT4_ROOT_INO made

/-- The same, with the mode `040755`, the owner `0:0` and the time `0` of the root directory itself,
which is no entry. -/
structure FsView.MirrorsTree (v : FsView) (host : HostTree) (blockSize fuel : ℕ)
    (directory : Option (List UInt8)) (mountpoint : List UInt8) (made : List ℕ) : Prop where
  described : v.described EXT4_ROOT_INO (S_IFDIR ||| ROOT_MODE) .zero
  root : v.MirrorsRoot host blockSize fuel directory mountpoint made

section Mono

variable {v v' : FsView} {host : HostTree} {blockSize fuel : ℕ} {directory : Option (List UInt8)}
  {mountpoint : List UInt8} {made : List ℕ}

theorem FsView.MirrorsRoot.mono (hle : v.Le v')
    (h : v.MirrorsRoot host blockSize fuel directory mountpoint made) :
    v'.MirrorsRoot host blockSize fuel directory mountpoint made := by
  cases directory with
  | none => exact FsView.Mirrors.mono hle h
  | some path => exact FsView.Mirrors.mono hle h

theorem FsView.MirrorsTree.mono (hle : v.Le v')
    (h : v.MirrorsTree host blockSize fuel directory mountpoint made) :
    v'.MirrorsTree host blockSize fuel directory mountpoint made :=
  ⟨hle.described h.described, h.root.mono hle⟩

end Mono

section Tree

variable {g : Geometry} {labels : Prop} {spare own : Set ℕ} {s s' : State} {b b' : Builder}
  {host : HostTree} {fuel root : ℕ} {directory : Option (List UInt8)} {mountpoint : List UInt8}

theorem bareHost_fits (hu : g.Usable) (labels : Prop) : bareHost.Fits g labels := by
  have hsane : bareHost.Sane g labels :=
    ⟨fun _ _ h => (by cases h), fun _ _ h => (by cases h), fun _ h => (by cases h),
      fun h => (by simp [bareHost] at h)⟩
  exact hsane.fits hu fun _ _ h => (by cases h)

theorem buildTree_spec (hu : g.Usable) (hh : host.Fits g labels) (hl : Laid g labels spare s)
    (hn : InUse g s EXT4_ROOT_INO)
    (hrun : buildTree g host fuel directory mountpoint s = .ok (root, b)) :
    root = EXT4_ROOT_INO ∧ ∃ made dirs own, BuildsRoot g labels spare ⟨s, []⟩ b made dirs own ∧
      (memView g own {k | k ∈ made} b.st).MirrorsRoot host g.info.blockSize fuel directory
        mountpoint made := by
  have hr : Registered g ⟨s, []⟩ := ⟨by simp, by simp⟩
  cases directory with
  | none =>
      have hdefault := buildDefaultDirectoryStructure_eq g bareHost rfl 0 mountpoint s
      exact buildRoot_spec hu (bareHost_fits hu labels) hl hn hr (hdefault.trans hrun)
  | some path =>
      cases fuel with
      | zero => cases hrun
      | succ fuel => exact buildRoot_spec hu hh hl hn hr hrun

/-- The root directory is described. -/
theorem describeRoot_spec (hu : g.Usable) (hh : host.Fits g labels) (hl : Laid g labels spare b.st)
    (hn : InUse g b.st EXT4_ROOT_INO) (hr : Registered g b)
    (hrun : describeRoot g host mountpoint EXT4_ROOT_INO b = .ok b') :
    Does g labels spare {EXT4_ROOT_INO} (registeredFor g b EXT4_ROOT_INO) [] [] b.st b'.st ∧
      SameContent g b.st b'.st EXT4_ROOT_INO ∧
      HasPermissions g b'.st EXT4_ROOT_INO (modeOf g b.st EXT4_ROOT_INO ||| ROOT_MODE) 0 0 0 := by
  simp only [describeRoot, bind_eq_ok] at hrun
  obtain ⟨st, hpermissions, hrun⟩ := hrun
  obtain ⟨hdoes, hcontent, hhas⟩ := inodeSetPermissions_spec hu hl hn (by decide) hpermissions
  have hdone := hdoes.mono subset_rfl (Set.empty_subset (registeredFor g b EXT4_ROOT_INO))
  cases hlookup : host.selabelLookup with
  | none =>
      rw [hlookup] at hrun
      cases hrun
      exact ⟨hdone, hcontent, hhas⟩
  | some lookup =>
      rw [hlookup] at hrun
      dsimp only at hrun
      cases hsecon : lookup mountpoint S_IFDIR with
      | none =>
          rw [hsecon] at hrun
          cases hrun
      | some secon =>
          rw [hsecon] at hrun
          simp only [bind_eq_ok] at hrun
          obtain ⟨⟨ok, b₂⟩, hselinux, hrun⟩ := hrun
          cases hrun
          have hlabel := inodeSetSelinux_spec hu hdoes.laid (hdoes.keeps.inUse _ hn)
            (hr.mono hdoes.keeps) (fun _ => hh.labels (.inr (by simp [hlookup]))) hselinux
          exact ⟨hdone.trans hlabel.does, hcontent.trans hlabel.content, hhas.congr hlabel.start⟩

end Tree

/-! ## The superblock and the descriptors -/

/-- What is in the superblock, its copies and the descriptors when everything has been counted.  The
copies are made before anything is counted, and before there is a journal. -/
structure SupersHold (g : Geometry) (uuid : Mem) (s : State) (m : Supers) : Prop where
  places : ∀ i < g.aux.groups, DescPlaces g m.bgDesc i
  counts : ∀ i < g.aux.groups, DescCounts s (m.sb.bytes Sb.uuid 16) m.bgDesc i
  backups : ∀ i < g.aux.groups, g.hasSuperBlock i = true → i ≠ 0 →
    m.backupSb i = Sb.blockGroupNr.set (ext4FillInSb uuid g.info g.aux) i
  sb_frame : ∀ x, x < 12 ∨ 20 ≤ x → x < Sb.jnlBlocks ∨ Sb.jnlBlocks + sizeofIBlock ≤ x →
    m.sb x = ext4FillInSb uuid g.info g.aux x
  freeBlocks : Sb.freeBlocksCountLo.get m.sb =
    u32 ((List.range g.aux.groups).map fun i => (s.bgs i).freeBlocks).sum
  freeInodes : Sb.freeInodesCount.get m.sb =
    u32 ((List.range g.aux.groups).map fun i => (s.bgs i).freeInodes).sum

/-- What is queued does not matter to it. -/
theorem SupersHold.queue {g : Geometry} {uuid : Mem} {s : State} {m : Supers}
    (h : SupersHold g uuid s m) (new : List Chunk) : SupersHold g uuid (s.queue new) m where
  places := h.places
  counts := fun i hi =>
    have hcounts := h.counts i hi
    ⟨hcounts.freeBlocks, hcounts.freeInodes, hcounts.usedDirs, hcounts.flags, hcounts.checksum⟩
  backups := h.backups
  sb_frame := h.sb_frame
  freeBlocks := h.freeBlocks
  freeInodes := h.freeInodes

theorem supersHold_updateFree {g : Geometry} (hu : g.Usable) {uuid sb : Mem} {s₀ s : State}
    (hsb : ∀ x, x < Sb.jnlBlocks ∨ Sb.jnlBlocks + sizeofIBlock ≤ x →
      sb x = (fillInSb g uuid s₀).1.sb x) :
    SupersHold g uuid s (ext4UpdateFree g s { (fillInSb g uuid s₀).1 with sb := sb }) := by
  obtain ⟨hfill, hdescs, -, hbackups, -⟩ := fillInGroups_supers hu (s := s₀)
    (m := ⟨ext4FillInSb uuid g.info g.aux, Mem.zero, fun _ => Mem.zero⟩) g.aux.groups
    (Nat.zero_add g.aux.groups).le
  change (fillInSb g uuid s₀).1.sb = _ at hfill
  rw [hfill] at hsb
  obtain ⟨hcounts, -, hplaces, hbackup, hframe, hblocks, hinodes⟩ := updateFreeLoop_spec (g := g)
    (s := s) g.aux.groups (i := 0) (m := { (fillInSb g uuid s₀).1 with sb := sb })
    fun j _ hj => (hdescs j (by omega) (Nat.zero_le j) hj).2
  have hget : ∀ f : Field, f.offset + f.width ≤ Sb.jnlBlocks → f.get sb =
      f.get (ext4FillInSb uuid g.info g.aux) :=
    fun f hf => Mem.load_congr fun i hi => hsb _ (.inl (by omega))
  refine ⟨fun i hi => hplaces i (hdescs i hi (Nat.zero_le i) (by omega)).1, fun i hi => ?_,
    fun i hi hsuper hne => ?_, fun x h₁ h₂ => (hframe x h₁).trans (hsb x h₂), ?_, ?_⟩
  · have huuid : (ext4UpdateFree g s { (fillInSb g uuid s₀).1 with sb := sb }).sb.bytes Sb.uuid 16 =
        sb.bytes Sb.uuid 16 :=
      bytes_congr fun k _ => hframe _ (.inr (by unfold Sb.uuid; omega))
    rw [huuid]
    exact hcounts i (Nat.zero_le i) (by omega)
  · exact (congrFun hbackup i).trans (hbackups i (Nat.zero_le i) (by omega) hsuper hne)
  · refine hblocks.trans ?_
    rw [hget _ (by decide), get_fillInSb_of_head uuid g.info g.aux 3 rfl (by decide),
      ← List.range_eq_range']
    exact congrArg u32 (Nat.zero_add _)
  · refine hinodes.trans ?_
    rw [hget _ (by decide), get_fillInSb_of_head uuid g.info g.aux 4 rfl (by decide),
      ← List.range_eq_range']
    exact congrArg u32 (Nat.zero_add _)

/-! ## The whole of it -/

/-- What the steps leave together.  Of the inodes in use the first ten are hidden, with the exception
of the root directory, and those in `made` are below it. -/
structure Made (g : Geometry) (labels : Prop) (spare : Set ℕ) (made dirs : List ℕ) (s : State) :
    Prop where
  laid : Laid g labels spare s
  perGroup : 10 ≤ g.info.inodesPerGroup
  nodup : (hiddenNums ++ made).Nodup
  inUse : ∀ n, InUse g s n ↔ n ∈ hiddenNums ++ made
  dirs_sublist : dirs.Sublist made
  isDir : ∀ n ∈ hiddenNums ++ made,
    n ∈ EXT4_ROOT_INO :: dirs ↔ modeOf g s n &&& S_IFMT = S_IFDIR
  typed : ∀ n ∈ made, modeOf g s n &&& S_IFMT ≠ 0
  usedDirs : ∀ i < g.aux.groups,
    u16 (s.bgs i).usedDirs = u16 ((EXT4_ROOT_INO :: dirs).countP (g.groupOf · = i))
  root : HasPermissions g s EXT4_ROOT_INO (S_IFDIR ||| ROOT_MODE) 0 0 0
  journal : g.info.featCompat &&& EXT4_FEATURE_COMPAT_HAS_JOURNAL ≠ 0 → ∃ own data,
    HoldsJournal g own s (u32 (g.info.journalBlocks * g.info.blockSize)) data
  copies : allCopies g ⊆ s.out.chunks
  super : superChunk g ∈ s.out.chunks

section Whole

variable {g : Geometry} {labels : Prop} {s s' : State}

/-- No inode is in use where the cursors are at the beginning. -/
theorem not_inUse_of_fresh (hfresh : ∀ i < g.aux.groups, (s.bgs i).firstFreeInode = 1) (n : ℕ) :
    ¬ InUse g s n := by
  rintro ⟨hhas, hlt⟩
  rw [hfresh _ hhas.groupOf_lt] at hlt
  omega

/-- Without groups there are no inodes to reserve. -/
theorem groups_pos_of_hidden (hu : g.Usable) {uuid sb sb' : Mem}
    (hinit : blockAllocatorInit g State.empty = .ok s)
    (hrun : hiddenInodes g sb (fillInSb g uuid s).2 = .ok (sb', s')) : 0 < g.aux.groups := by
  by_contra hzero
  have hgroups : g.aux.groups = 0 := by omega
  unfold blockAllocatorInit at hinit
  rw [hgroups] at hinit
  cases hinit
  have hfree : ((fillInSb g uuid State.empty).2.bgs 0).freeInodes < 10 := by
    rw [fillInSb_queue hu]
    show 0 < 10
    decide
  rw [hiddenInodes, reserveInodes_of_gt hfree, bind_ok] at hrun
  simp only [if_pos] at hrun
  cases hrun

/-- `make_ext4fs_internal`. -/
theorem makeExt4fs_spec (hu : g.Usable) {uuid : Mem} {host : HostTree} (hh : host.Fits g labels)
    {fuel : ℕ} {directory : Option (List UInt8)} {mountpoint : List UInt8} {im : Image}
    (hrun : makeExt4fs g uuid host fuel directory mountpoint = .ok im) :
    SupersHold g uuid im.builder.st im.supers ∧ ∃ spare made dirs own,
      Made g labels spare made dirs im.builder.st ∧
      (memView g own {k | k ∈ EXT4_ROOT_INO :: made} im.builder.st).MirrorsTree host
        g.info.blockSize fuel directory mountpoint made := by
  simp only [makeExt4fs, bind_eq_ok] at hrun
  obtain ⟨s₀, hinit, ⟨sb, s₂⟩, hhidden, ⟨root, b⟩, hbuild, b', hdescribe, hrun⟩ := hrun
  cases hrun
  have hgroups := groups_pos_of_hidden hu hinit hhidden
  obtain ⟨s₀', hinit', -, -, hfresh⟩ := blockAllocatorInit_spec hu.roomy.fits State.empty
  obtain rfl : s₀ = s₀' := Except.ok.inj (hinit.symm.trans hinit')
  have hlaid := laid_init hu.roomy hu.built labels hinit
  have hfill := does_fillInSb hu hlaid uuid
  have hqueue := fillInSb_queue hu uuid s₀
  -- the inodes that are not for files
  have hfirst : ∀ i < g.aux.groups, ((fillInSb g uuid s₀).2.bgs i).firstFreeInode = 1 := by
    rw [hqueue]
    exact fun i hi => (hfresh i hi).firstFreeInode
  obtain ⟨spare, hhides⟩ := hiddenInodes_spec hu hfill.laid hgroups hfirst hhidden
  have hin₂ : ∀ n ∈ hiddenNums, InUse g s₂ n := fun n hn => hhides.does.makes.fills.mem n hn
  have hroot₂ : InUse g s₂ EXT4_ROOT_INO := hin₂ _ (by decide)
  -- the tree
  obtain ⟨rfl, made, dirs, own, hbuilds, hmirrors⟩ :=
    buildTree_spec hu hh hhides.does.laid hroot₂ hbuild
  have hrootb := hbuilds.does.keeps.inUse _ hroot₂
  obtain ⟨hdescribes, hcontent, hhas⟩ :=
    describeRoot_spec hu hh hbuilds.does.laid hrootb hbuilds.registered hdescribe
  -- the superblock
  have hlast := does_queueSb hu hdescribes.laid hhides.spare_super hhides.start
  have hmakes := ((hhides.does.makes.trans hbuilds.does.makes).trans hdescribes.makes).trans
    hlast.makes
  simp only [List.append_nil, List.nil_append] at hmakes
  have hnew : ∀ n, ¬ InUse g (fillInSb g uuid s₀).2 n := not_inUse_of_fresh hfirst
  have hapart := List.disjoint_of_nodup_append hmakes.fills.nodup
  have hne : ∀ n ∈ made, n ≠ EXT4_ROOT_INO := by
    rintro n hn rfl
    exact hapart (by decide) hn
  -- the other inodes keep their modes
  have hmode : ∀ n, InUse g b.st n → n ≠ EXT4_ROOT_INO →
      modeOf g (ext4QueueSb g b'.st) n = modeOf g b.st n := by
    intro n hn hroot
    rw [(hlast.keeps.inodes n (hdescribes.keeps.inUse n hn) (Set.notMem_empty _)).modeOf_eq
      hu.numbered]
    exact (hdescribes.keeps.inodes n hn hroot).modeOf_eq hu.numbered
  have hpermissions : HasPermissions g (ext4QueueSb g b'.st) EXT4_ROOT_INO
      (S_IFDIR ||| ROOT_MODE) 0 0 0 := by
    rw [hbuilds.root] at hhas
    rw [ext4QueueSb_eq]
    exact hhas.congr fun _ _ _ => rfl
  have hsupers : SupersHold g uuid (ext4QueueSb g b'.st)
      (ext4UpdateFree g b'.st { (fillInSb g uuid s₀).1 with sb := sb }) := by
    rw [ext4QueueSb_eq]
    exact (supersHold_updateFree hu hhides.sb_frame).queue _
  refine ⟨hsupers, _, made, dirs, own, ⟨hlast.laid,
    hhides.perGroup, hmakes.fills.nodup, fun n => ⟨fun hn => (hmakes.only n hn).resolve_left (hnew n),
      hmakes.fills.mem n⟩, hbuilds.dirs_sublist, ?_, ?_, ?_, hpermissions, ?_, ?_, ?_⟩, ?_⟩
  · intro n hn
    rcases List.mem_append.mp hn with hn | hn
    · by_cases hroot : n = EXT4_ROOT_INO
      · subst hroot
        rw [hpermissions.mode]
        simp [S_IFDIR, ROOT_MODE, S_IFMT]
      · have hdirs : n ∉ dirs := fun h => hapart hn (hbuilds.dirs_sublist.subset h)
        rw [hmode n (hbuilds.does.keeps.inUse n (hin₂ n hn)) hroot,
          (hbuilds.does.keeps.inodes n (hin₂ n hn) hroot).modeOf_eq hu.numbered]
        refine iff_of_false (by simp [hroot, hdirs]) ?_
        rcases hhides.modes n hn with h | h
        all_goals
          rw [h]
          decide
    · rw [hmode n (hbuilds.does.makes.fills.mem n hn) (hne n hn), ← (hbuilds.kinds n hn).1]
      exact List.mem_cons.trans (or_iff_right (hne n hn))
  · intro n hn
    rw [hmode n (hbuilds.does.makes.fills.mem n hn) (hne n hn)]
    exact (hbuilds.kinds n hn).2
  · intro i hi
    rw [hmakes.dirs i hi, hqueue]
    show u16 ((s₀.bgs i).usedDirs + _) = _
    rw [(hfresh i hi).usedDirs, Nat.zero_add]
  · intro hfeat
    obtain ⟨data, hdata⟩ := hhides.journal hfeat
    have hb := hdata.keeps hu.numbered hbuilds.does.keeps (by decide)
      fun _ _ _ => Set.notMem_empty _
    have hb' := hb.keeps hu.numbered hdescribes.keeps (by decide) fun id hid _ hreg => by
      rcases hbuilds.xattrs _ hreg with he | hge
      · cases he
      · exact absurd hid.2 hge.not_gt
    exact ⟨_, data, hb'.keeps hu.numbered hlast.keeps (Set.notMem_empty _)
      fun _ _ _ => Set.notMem_empty _⟩
  · have hcopies : allCopies g ⊆ (fillInSb g uuid s₀).2.out.chunks := by
      rw [hqueue]
      exact List.subset_append_right _ _
    exact fun c hc => hlast.keeps.chunks (hdescribes.keeps.chunks (hbuilds.does.keeps.chunks
      (hhides.does.keeps.chunks (hcopies hc))))
  · rw [ext4QueueSb_eq]
    exact List.mem_append_right _ (List.mem_singleton_self _)
  · have hafter : Persists g own {k | k ∈ made} b.st b'.st := by
      refine hdescribes.keeps.persists hu.numbered (fun id hid hreg => hbuilds.own_free _ hreg hid)
        hne fun n hn _ => ?_
      rw [Set.mem_singleton_iff.mp hn]
      exact hcontent
    have hend : Persists g own {k | k ∈ made} b'.st (ext4QueueSb g b'.st) :=
      hlast.keeps.persists hu.numbered (fun _ _ => Set.notMem_empty _)
        (fun _ _ => Set.notMem_empty _) fun _ hk => absurd hk (Set.notMem_empty _)
    have hmade : {k | k ∈ made} ⊆ {k | k ∈ EXT4_ROOT_INO :: made} :=
      fun k hk => List.mem_cons_of_mem _ hk
    have hroot := hlast.keeps.inUse _ (hdescribes.keeps.inUse _ hrootb)
    exact ⟨⟨List.mem_cons_self, hroot, hpermissions⟩,
      hmirrors.mono (((memView_persists hu.numbered hafter).trans
        (memView_persists hu.numbered hend)).trans (memView_mono subset_rfl hmade))⟩

end Whole

/-! ## The counts -/

/-- The places of the directories among the inodes of group `i`. -/
def directoryInodes (g : Geometry) (s : State) (i : ℕ) : Finset ℕ :=
  (Finset.range g.info.inodesPerGroup).filter fun k =>
    (s.bgs i).bitmaps.bit (8 * g.info.blockSize + k) = true ∧
      modeOf g s (i * g.info.inodesPerGroup + k + 1) &&& S_IFMT = S_IFDIR

/-- The descriptors and the superblock count what the bitmaps and the inodes say. -/
structure Accounts (g : Geometry) (s : State) (m : Supers) : Prop where
  freeBlocks : ∀ i < g.aux.groups, (Fixup.descField GroupDesc.bgFreeBlocksCount i).get m.bgDesc =
    ((s.bgs i).bitmaps.clear g.info.blocksPerGroup).card
  freeInodes : ∀ i < g.aux.groups, (Fixup.descField GroupDesc.bgFreeInodesCount i).get m.bgDesc =
    (clearInodes g (s.bgs i)).card
  usedDirs : ∀ i < g.aux.groups, (Fixup.descField GroupDesc.bgUsedDirsCount i).get m.bgDesc =
    (directoryInodes g s i).card
  uninit : ∀ i < g.aux.groups, (Fixup.descField GroupDesc.bgFlags i).get m.bgDesc ≠ 0 →
    clearInodes g (s.bgs i) = Finset.range g.info.inodesPerGroup
  checksum : ∀ i < g.aux.groups, ChecksumOk (m.sb.bytes Sb.uuid 16) m.bgDesc i
  allBlocks : Sb.freeBlocksCountLo.get m.sb =
    ((List.range g.aux.groups).map fun i => ((s.bgs i).bitmaps.clear g.info.blocksPerGroup).card).sum
  allInodes : Sb.freeInodesCount.get m.sb =
    ((List.range g.aux.groups).map fun i => (clearInodes g (s.bgs i)).card).sum

section Counts

variable {g : Geometry} {labels : Prop} {spare : Set ℕ} {made dirs : List ℕ} {s : State} {i : ℕ}

/-- The groups have no more blocks than the device. -/
theorem sum_groupSize_le (hg : g.Fits) (n : ℕ) (hn : n ≤ g.aux.groups) :
    ((List.range n).map g.groupSize).sum ≤ g.aux.lenBlocks := by
  have hfirst : ∀ n, ((List.range n).map g.groupSize).sum ≤ n * g.info.blocksPerGroup := by
    intro n
    induction n with
    | zero => exact Nat.zero_le _
    | succ n ih =>
        rw [List.range_succ, List.map_append, List.sum_append, Nat.succ_mul]
        simpa using Nat.add_le_add ih (g.groupSize_le n)
  cases n with
  | zero => exact Nat.zero_le _
  | succ n =>
      have hend : g.start n + g.groupSize n ≤ g.aux.lenBlocks := by
        have hlt := hg.start_lt (i := n) (by omega)
        have hle : g.groupSize n ≤ g.aux.lenBlocks - g.start n := min_le_right _ _
        omega
      have hle := hfirst n
      rw [List.range_succ, List.map_append, List.sum_append]
      simp only [List.map_cons, List.map_nil, List.sum_cons, List.sum_nil, Nat.add_zero]
      unfold Geometry.start at hend
      omega

/-- Directories are counted where their inodes are. -/
theorem Made.countP_eq (hm : Made g labels spare made dirs s) (hi : i < g.aux.groups) :
    (EXT4_ROOT_INO :: dirs).countP (g.groupOf · = i) = (directoryInodes g s i).card := by
  have hroot : EXT4_ROOT_INO ∈ hiddenNums := by decide
  have hsub : ∀ n ∈ EXT4_ROOT_INO :: dirs, n ∈ hiddenNums ++ made := by
    rw [List.forall_mem_cons]
    exact ⟨List.mem_append_left _ hroot,
      fun n hn => List.mem_append_right _ (hm.dirs_sublist.subset hn)⟩
  have hnodup : (EXT4_ROOT_INO :: dirs).Nodup := by
    obtain ⟨-, hmade, hapart⟩ := List.nodup_append.mp hm.nodup
    refine List.nodup_cons.mpr ⟨fun h => ?_, hm.dirs_sublist.nodup hmade⟩
    exact hapart _ hroot _ (hm.dirs_sublist.subset h) rfl
  have himage : (directoryInodes g s i).image (fun k => i * g.info.inodesPerGroup + k + 1) =
      ((EXT4_ROOT_INO :: dirs).filter (g.groupOf · = i)).toFinset := by
    ext n
    simp only [directoryInodes, Finset.mem_image, Finset.mem_filter, Finset.mem_range,
      List.mem_toFinset, List.mem_filter, decide_eq_true_eq]
    constructor
    · rintro ⟨k, ⟨hk, hbit, hdir⟩, rfl⟩
      obtain ⟨hhas, hgroup, hindex⟩ := Geometry.hasInode_of_lt (g := g) hi hk
      rw [(hm.laid.inodes i hi).used k hk, decide_eq_true_eq] at hbit
      have hin := (hm.inUse _).mp ⟨hhas, by rw [hgroup, hindex]; exact hbit⟩
      exact ⟨(hm.isDir _ hin).mpr hdir, hgroup⟩
    · rintro ⟨hn, hgroup⟩
      obtain ⟨hhas, hlt⟩ := (hm.inUse n).mpr (hsub n hn)
      have heq := hhas.eq
      rw [hgroup] at heq hlt
      refine ⟨g.indexOf n, ⟨hhas.indexOf_lt, ?_, ?_⟩, heq.symm⟩
      · rw [(hm.laid.inodes i hi).used _ hhas.indexOf_lt, decide_eq_true_eq]
        exact hlt
      · rw [← heq]
        exact (hm.isDir n (hsub n hn)).mp hn
  calc (EXT4_ROOT_INO :: dirs).countP (g.groupOf · = i)
      = ((EXT4_ROOT_INO :: dirs).filter (g.groupOf · = i)).toFinset.card := by
        rw [List.countP_eq_length_filter, List.toFinset_card_of_nodup (hnodup.filter _)]
    _ = ((directoryInodes g s i).image fun k => i * g.info.inodesPerGroup + k + 1).card := by
        rw [himage]
    _ = (directoryInodes g s i).card :=
        Finset.card_image_of_injective _ fun a b hab => by simpa using hab

/-- A group without a table has no inode in use. -/
theorem Made.clearInodes_eq (hm : Made g labels spare made dirs s) (hi : i < g.aux.groups)
    (hnone : (s.bgs i).inodeTable = none) :
    clearInodes g (s.bgs i) = Finset.range g.info.inodesPerGroup := by
  have hzero : ∀ n, g.groupOf n = i → modeOf g s n = 0 := by
    intro n hgroup
    unfold modeOf State.table
    rw [hgroup, hnone]
    exact field_zero _
  refine Finset.filter_true_of_mem fun k hk => ?_
  rw [Finset.mem_range] at hk
  obtain ⟨hhas, hgroup, hindex⟩ := Geometry.hasInode_of_lt (g := g) hi hk
  rw [(hm.laid.inodes i hi).used k hk, decide_eq_false_iff_not]
  intro hlt
  have hin := (hm.inUse (i * g.info.inodesPerGroup + k + 1)).mp
    ⟨hhas, by rw [hgroup, hindex]; exact hlt⟩
  rcases List.mem_append.mp hin with hin | hin
  · -- the root directory is in the same group, and not empty
    obtain ⟨-, hle⟩ : 1 ≤ i * g.info.inodesPerGroup + k + 1 ∧
        i * g.info.inodesPerGroup + k + 1 < 11 := by simpa [hiddenNums] using hin
    have hten := hm.perGroup
    have hgroup₀ : i = 0 := by
      rw [← hgroup]
      exact Nat.div_eq_of_lt (by omega)
    have hroot := hzero EXT4_ROOT_INO (hgroup₀ ▸ Nat.div_eq_of_lt (by unfold EXT4_ROOT_INO; omega))
    rw [hm.root.mode] at hroot
    exact absurd hroot (by decide)
  · refine hm.typed _ hin ?_
    rw [hzero _ hgroup, Nat.zero_and]

theorem Made.accounts (hu : g.Usable) {uuid : Mem} {m : Supers} (hm : Made g labels spare made dirs s)
    (hs : SupersHold g uuid s m) : Accounts g s m := by
  have hbs := hu.blockSize_le
  have hbpg := hu.roomy.blocksPerGroup_le
  have hipg := hu.numbered.inodesPerGroup_le
  have hlimit : ∀ i < g.aux.groups, (s.bgs i).freeBlocks ≤ g.groupSize i := by
    intro i hi
    have hsize := hu.roomy.size_ge i hi
    have hend := (hm.laid.groups i hi).limit_of_lt (by omega)
    omega
  have hfree : ∀ i < g.aux.groups, (s.bgs i).freeInodes ≤ g.info.inodesPerGroup := by
    intro i hi
    have hsum := (hm.laid.inodes i hi).sum
    have hpos := (hm.laid.inodes i hi).pos
    omega
  refine ⟨fun i hi => ?_, fun i hi => ?_, fun i hi => ?_, fun i hi hflag => ?_,
    fun i hi => (hs.counts i hi).checksum, ?_, ?_⟩
  · have hle := (hlimit i hi).trans (g.groupSize_le i)
    rw [(hs.counts i hi).freeBlocks, u16_of_lt (by omega), (hm.laid.groups i hi).card_clear]
  · have hle := hfree i hi
    rw [(hs.counts i hi).freeInodes, u16_of_lt (by omega), (hm.laid.inodes i hi).card_clear]
  · have hle : (directoryInodes g s i).card ≤ g.info.inodesPerGroup :=
      (Finset.card_filter_le _ _).trans (Finset.card_range _).le
    rw [(hs.counts i hi).usedDirs, hm.usedDirs i hi, hm.countP_eq hi, u16_of_lt (by omega)]
  · refine hm.clearInodes_eq hi ?_
    by_contra hsome
    rw [(hs.counts i hi).flags, (hm.laid.inodes i hi).flags, if_neg hsome] at hflag
    exact hflag rfl
  · have hsum : ((List.range g.aux.groups).map fun i => (s.bgs i).freeBlocks).sum < 2 ^ 32 := by
      refine lt_of_le_of_lt ?_ ((sum_groupSize_le hu.roomy.fits _ le_rfl).trans_lt
        hu.roomy.fits.lenBlocks_lt)
      exact List.sum_le_sum fun i hi => hlimit i (List.mem_range.mp hi)
    rw [hs.freeBlocks, u32_of_lt hsum]
    refine congrArg List.sum (List.map_congr_left fun i hi => ?_)
    rw [(hm.laid.groups i (List.mem_range.mp hi)).card_clear]
  · have hsum : ((List.range g.aux.groups).map fun i => (s.bgs i).freeInodes).sum < 2 ^ 32 := by
      have hcount := hu.numbered.count_lt
      refine lt_of_le_of_lt ?_ (hcount.trans (by decide))
      have hle := List.sum_le_card_nsmul ((List.range g.aux.groups).map fun i =>
        (s.bgs i).freeInodes) g.info.inodesPerGroup (by
          rw [List.forall_mem_map]
          exact fun i hi => hfree i (List.mem_range.mp hi))
      simpa using hle
    rw [hs.freeInodes, u32_of_lt hsum]
    refine congrArg List.sum (List.map_congr_left fun i hi => ?_)
    rw [(hm.laid.inodes i (List.mem_range.mp hi)).card_clear]

end Counts

end SystemExtras.Ext4
