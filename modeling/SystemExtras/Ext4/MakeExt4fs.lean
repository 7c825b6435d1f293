import SystemExtras.Ext4.ImageExport

/-!
# What `make_ext4fs` makes

The results about the whole of `make_ext4fs`, from `block_allocator_init` to the last
entry of the queue, and about the tools that read its images.

* What is queued (`makeExt4fs_queued`, `makeExt4fs_supers`): no block of the device is
  written twice, and the superblock, its copies and the descriptors say where all is.
* What is counted (`makeExt4fs_accounts`, `makeExt4fs_inodes`): the free counts are
  those of the bitmaps, and the inodes in use are the hidden ones and those of the tree.
* What is read back (`makeExt4fs_readBack`, `makeExt4fs_journal`): the tree of the host
  is on the device, in whatever order the queue was written.
* What is exported (`makeExt4fs_sparse`): a sparse file of the image is the image again.
* The default tree (`buildTree_none`): that of no directory.

Nothing is assumed of a run but that it ends without an error.
-/

namespace SystemExtras.Ext4

open Mem

/-! ## A filesystem of two groups -/

def smallInfo : FsInfo where
  len := 64 * 1024
  blockSize := 1024
  blocksPerGroup := 32
  inodesPerGroup := 16
  inodeSize := 256
  inodes := 32
  journalBlocks := 0
  featRoCompat := 0
  featCompat := 0
  featIncompat := EXT4_FEATURE_INCOMPAT_FILETYPE
  bgDescReserveBlocks := 0
  label := []
  noJournal := true

def smallJournalInfo : FsInfo :=
  { smallInfo with
    journalBlocks := 4
    featCompat := EXT4_FEATURE_COMPAT_HAS_JOURNAL
    noJournal := false
    inRange := by decide }

/-- 64 KiB in two groups, without a journal. -/
def small : Geometry where
  info := smallInfo
  aux := (ext4CreateFsAuxInfo smallInfo).get (by decide)
  create := by decide

/-- The same with a journal of four blocks. -/
def smallJournal : Geometry where
  info := smallJournalInfo
  aux := (ext4CreateFsAuxInfo smallJournalInfo).get (by decide)
  create := by decide

/-- A host whose root directory has a file `f`, a link `l` to it and an empty directory `s`. -/
def smallHost : HostTree where
  lstat path :=
    match path.getLast? with
    | some 115 => some ⟨0x41ED, 4096, 7⟩
    | some 108 => some ⟨0xA1FF, 1, 8⟩
    | _ => some ⟨0x81A4, 1500, 9⟩
  readlink _ := [102]
  fsConfig := none
  selabelLookup := none
  readdir path := if path = [47] then some [[102], [108], [115]] else some []

def smallFiles (path : List UInt8) : Mem := fun x => UInt8.ofNat (path.length + x)

/-- A disk of that size. -/
def smallDisk : Device := ⟨64 * 1024, Mem.zero⟩

theorem usable_small : small.Usable where
  roomy := ⟨by decide, by decide, by decide⟩
  small := by
    unfold Geometry.Small
    decide
  built := ⟨by decide, by decide, by decide⟩
  numbered := ⟨by decide, by decide, by decide, by decide⟩
  blockSize_le := by decide
  blockSize_eq := ⟨10, by decide, rfl⟩

theorem usable_smallJournal : smallJournal.Usable where
  roomy := ⟨by decide, by decide, by decide⟩
  small := by
    unfold Geometry.Small
    decide
  built := ⟨by decide, by decide, by decide⟩
  numbered := ⟨by decide, by decide, by decide, by decide⟩
  blockSize_le := by decide
  blockSize_eq := ⟨10, by decide, rfl⟩

theorem readable_small : small.Readable where
  survives := ⟨⟨0, by decide, rfl⟩, by decide, by decide, by decide, by decide⟩
  inodeSize_le := by decide
  filetype := by decide
  noRecover := by decide

theorem readable_smallJournal : smallJournal.Readable where
  survives := ⟨⟨0, by decide, rfl⟩, by decide, by decide, by decide, by decide⟩
  inodeSize_le := by decide
  filetype := by decide
  noRecover := by decide

theorem smallHost_fits {g : Geometry} (hu : g.Usable) (hbs : g.info.blockSize = 1024) :
    smallHost.Fits g False := by
  have hnames : ∀ path names, smallHost.readdir path = some names →
      names = [[102], [108], [115]] ∨ names = [] := by
    intro path names hread
    unfold smallHost at hread
    dsimp only at hread
    split at hread
    · exact .inl (Option.some.inj hread).symm
    · exact .inr (Option.some.inj hread).symm
  have hsane : smallHost.Sane g False := by
    refine ⟨fun path names hread => ?_, fun path stat hstat => ?_, fun _ h => (by cases h),
      fun h => (by simp [smallHost] at h)⟩
    · rcases hnames path names hread with rfl | rfl
      · decide
      · simp
    · rw [hbs]
      unfold smallHost at hstat
      dsimp only at hstat
      split at hstat
      all_goals
        cases hstat
        decide
  refine hsane.fits hu fun path names hread => ?_
  rcases hnames path names hread with rfl | rfl
  · decide
  · decide

/-- How far the queue of an image reaches. -/
def Image.reach (g : Geometry) (im : Image) : ℕ :=
  im.builder.st.out.chunks.foldr (fun c n => max (c.block * g.info.blockSize + c.len) n) 0

/-- A run that ends, with a queue that fits the disk. -/
def fitsDisk (g : Geometry) : Except Stop Image → Bool
  | .ok im => im.reach g ≤ smallDisk.size
  | .error _ => false

theorem exists_image {g : Geometry} {run : Except Stop Image} (h : fitsDisk g run = true)
    (files : List UInt8 → Mem) :
    ∃ im, run = .ok im ∧ Device.reach (im.writes g files) ≤ smallDisk.size := by
  cases run with
  | error e => cases h
  | ok im =>
      refine ⟨im, rfl, ?_⟩
      rw [Image.writes, Device.reach, List.foldr_map]
      exact of_decide_eq_true h

theorem fitsDisk_small :
    fitsDisk small (makeExt4fs small Mem.zero smallHost 3 (some [47]) [47]) = true := by
  decide +kernel

theorem fitsDisk_smallJournal :
    fitsDisk smallJournal (makeExt4fs smallJournal Mem.zero smallHost 3 none [47]) = true := by
  decide +kernel

/-- The disk is no larger for it. -/
theorem size_smallDisk_lt {ws vs : List Write} (hperm : ws.Perm vs)
    (hreach : Device.reach vs ≤ smallDisk.size) : (smallDisk.applyAll ws).size < 2 ^ 63 := by
  rw [Device.applyAll_size, Device.reach_perm hperm, max_eq_left hreach]
  decide

section Results

variable {g : Geometry} {labels : Prop} {uuid : Mem} {host : HostTree} {fuel : ℕ}
  {directory : Option (List UInt8)} {mountpoint : List UInt8} {im : Image} {d : Device}
  {ws : List Write}

/-! ## What is queued -/

/-- No block is filled twice.  What is filled lies below the cursor of its group, marked in the bitmap,
and inside the device; the superblock, its copies, the bitmaps and every inode table with an inode in
it are there.  Where labels are written, the filesystem must not be full. -/
theorem makeExt4fs_queued (hu : g.Usable) (hh : host.Fits g labels)
    (hrun : makeExt4fs g uuid host fuel directory mountpoint = .ok im)
    (hfull : labels → HasFreeBlock g im.builder.st) :
    (chunkBlocks g.info.blockSize im.builder.st.out.chunks).Nodup ∧
      (∀ b ∈ chunkBlocks g.info.blockSize im.builder.st.out.chunks,
        b ∈ taken g im.builder.st.bgs ∧ b < g.aux.lenBlocks ∧
          ∃ i < g.aux.groups, ∃ k < g.info.blocksPerGroup,
            b = (im.builder.st.bgs i).firstBlock + k ∧
              (im.builder.st.bgs i).bitmaps.bit k = true) ∧
      superChunk g ∈ im.builder.st.out.chunks ∧ allCopies g ⊆ im.builder.st.out.chunks ∧
      (∀ i < g.aux.groups, bitmapsChunk g i ∈ im.builder.st.out.chunks) ∧
      ∀ n, InUse g im.builder.st n → modeOf g im.builder.st n ≠ 0 →
        tableChunk g (g.groupOf n) ∈ im.builder.st.out.chunks := by
  obtain ⟨-, spare, made, dirs, own, hmade, -⟩ := makeExt4fs_spec hu hh hrun
  have hqueued := hmade.laid.queued hfull
  refine ⟨hqueued.nodup, fun b hb => ?_, hmade.super, hmade.copies, hqueued.bitmaps,
    fun n hn hmode => hqueued.table_some _ hn.1.groupOf_lt fun hnone => hmode ?_⟩
  · have htaken := hqueued.taken b hb
    exact ⟨htaken, lt_of_mem_taken hu.roomy hmade.laid htaken,
      used_of_mem_taken hmade.laid.groups htaken⟩
  · -- without a table the inode would be zero
    unfold modeOf State.table
    rw [hnone]
    rfl

theorem makeExt4fs_queued_small : ∃ im,
    makeExt4fs small Mem.zero smallHost 3 (some [47]) [47] = .ok im ∧
      (chunkBlocks 1024 im.builder.st.out.chunks).Nodup ∧
      superChunk small ∈ im.builder.st.out.chunks ∧ allCopies small ⊆ im.builder.st.out.chunks ∧
      ∀ i < 2, bitmapsChunk small i ∈ im.builder.st.out.chunks := by
  obtain ⟨im, hrun, -⟩ := exists_image fitsDisk_small smallFiles
  have hfits := smallHost_fits usable_small rfl
  obtain ⟨hnodup, -, hsuper, hcopies, hbitmaps, -⟩ :=
    makeExt4fs_queued usable_small hfits hrun False.elim
  exact ⟨im, hrun, hnodup, hsuper, hcopies, hbitmaps⟩

/-- The descriptors say where the bitmaps and the inode tables are and what is free, the superblock
sums that up, and each copy of it is what was filled in before anything had been counted. -/
theorem makeExt4fs_supers (hu : g.Usable) (hh : host.Fits g labels)
    (hrun : makeExt4fs g uuid host fuel directory mountpoint = .ok im) :
    SupersHold g uuid im.builder.st im.supers :=
  (makeExt4fs_spec hu hh hrun).1

theorem makeExt4fs_supers_small : ∃ im,
    makeExt4fs small Mem.zero smallHost 3 (some [47]) [47] = .ok im ∧
      SupersHold small Mem.zero im.builder.st im.supers := by
  obtain ⟨im, hrun, -⟩ := exists_image fitsDisk_small smallFiles
  exact ⟨im, hrun, makeExt4fs_supers usable_small (smallHost_fits usable_small rfl) hrun⟩

/-! ## What is counted -/

/-- The counts of free blocks, free inodes and directories, group by group and for the whole
filesystem, are those of the bitmaps and the inodes, and each descriptor has its checksum. -/
theorem makeExt4fs_accounts (hu : g.Usable) (hh : host.Fits g labels)
    (hrun : makeExt4fs g uuid host fuel directory mountpoint = .ok im) :
    Accounts g im.builder.st im.supers := by
  obtain ⟨hsupers, spare, made, dirs, own, hmade, -⟩ := makeExt4fs_spec hu hh hrun
  exact hmade.accounts hu hsupers

theorem makeExt4fs_accounts_small : ∃ im,
    makeExt4fs small Mem.zero smallHost 3 (some [47]) [47] = .ok im ∧
      Accounts small im.builder.st im.supers := by
  obtain ⟨im, hrun, -⟩ := exists_image fitsDisk_small smallFiles
  exact ⟨im, hrun, makeExt4fs_accounts usable_small (smallHost_fits usable_small rfl) hrun⟩

/-- The bits of the inode bitmaps are the ten hidden inodes and those of the tree, and no two of the
ten and the entries of the tree have the same inode.  The root directory has its permissions, and
each inode of the tree has a type. -/
theorem makeExt4fs_inodes (hu : g.Usable) (hh : host.Fits g labels)
    (hrun : makeExt4fs g uuid host fuel directory mountpoint = .ok im) :
    ∃ made own, (memView g own {k | k ∈ EXT4_ROOT_INO :: made} im.builder.st).MirrorsTree host
        g.info.blockSize fuel directory mountpoint made ∧
      (hiddenNums ++ made).Nodup ∧
      (∀ i < g.aux.groups, ∀ k < g.info.inodesPerGroup,
        (im.builder.st.bgs i).bitmaps.bit (8 * g.info.blockSize + k) = true ↔
          i * g.info.inodesPerGroup + k + 1 ∈ hiddenNums ++ made) ∧
      (∀ n ∈ made, modeOf g im.builder.st n &&& S_IFMT ≠ 0) ∧
      HasPermissions g im.builder.st EXT4_ROOT_INO (S_IFDIR ||| ROOT_MODE) 0 0 0 := by
  obtain ⟨-, spare, made, dirs, own, hmade, hmirrors⟩ := makeExt4fs_spec hu hh hrun
  refine ⟨made, own, hmirrors, hmade.nodup, fun i hi k hk => ?_, hmade.typed, hmade.root⟩
  obtain ⟨hhas, hgroup, hindex⟩ := Geometry.hasInode_of_lt (g := g) hi hk
  rw [(hmade.laid.inodes i hi).used k hk, decide_eq_true_eq, ← hmade.inUse, InUse, hgroup, hindex]
  exact (and_iff_right hhas).symm

theorem makeExt4fs_inodes_small : ∃ im,
    makeExt4fs small Mem.zero smallHost 3 (some [47]) [47] = .ok im ∧ ∃ made own,
      (memView small own {k | k ∈ EXT4_ROOT_INO :: made} im.builder.st).MirrorsTree smallHost 1024 3
        (some [47]) [47] made ∧
      (hiddenNums ++ made).Nodup ∧
      (∀ i < 2, ∀ k < 16, (im.builder.st.bgs i).bitmaps.bit (8 * 1024 + k) = true ↔
        i * 16 + k + 1 ∈ hiddenNums ++ made) ∧
      (∀ n ∈ made, modeOf small im.builder.st n &&& S_IFMT ≠ 0) ∧
      HasPermissions small im.builder.st EXT4_ROOT_INO 0x41ED 0 0 0 := by
  obtain ⟨im, hrun, -⟩ := exists_image fitsDisk_small smallFiles
  exact ⟨im, hrun, makeExt4fs_inodes usable_small (smallHost_fits usable_small rfl) hrun⟩

/-! ## What is read back -/

/-- Whatever the order in which the queue is written, the device can be read: the parameters are
those of the image, and the root directory with its permissions and all below it is the tree of the
host, with the bytes of its files, the targets of its links, and modes, owners and times.  No two
entries have the same inode.  Where labels are written, the filesystem must not be full. -/
theorem makeExt4fs_readBack (hu : g.Usable) (hr : g.Readable) (hh : host.Fits g labels)
    (hrun : makeExt4fs g uuid host fuel directory mountpoint = .ok im)
    (hfull : labels → HasFreeBlock g im.builder.st) {files : List UInt8 → Mem}
    (hperm : ws.Perm (im.writes g files)) (hsize : g.aux.lenBlocks * g.info.blockSize ≤ d.size)
    (hlt : (d.applyAll ws).size < 2 ^ 63) :
    ∃ p made, readExt (d.applyAll ws) = .ok p ∧ ReadsBack g.info g.aux p.info p.aux ∧
      (deviceView p (d.applyAll ws) files).MirrorsTree host g.info.blockSize fuel directory
        mountpoint made ∧ (hiddenNums ++ made).Nodup := by
  obtain ⟨hsupers, spare, made, dirs, own, hmade, hmirrors⟩ := makeExt4fs_spec hu hh hrun
  have hon := Image.isOn_of_perm hu.blockSize_pos (hmade.laid.queued hfull) hperm hsize hlt
  obtain ⟨p, hp, hback, hread⟩ := hmade.exists_readback hu hr hsupers hfull hon
  exact ⟨p, made, hp, hback, hmade.mirrors_device hmirrors hread, hmade.nodup⟩

theorem makeExt4fs_readBack_small : ∃ im,
    makeExt4fs small Mem.zero smallHost 3 (some [47]) [47] = .ok im ∧ ∃ p made,
      readExt (smallDisk.applyAll (im.writes small smallFiles).reverse) = .ok p ∧
        (deviceView p (smallDisk.applyAll (im.writes small smallFiles).reverse)
          smallFiles).MirrorsTree smallHost 1024 3 (some [47]) [47] made ∧
        (hiddenNums ++ made).Nodup := by
  obtain ⟨im, hrun, hreach⟩ := exists_image fitsDisk_small smallFiles
  have hperm := List.reverse_perm (im.writes small smallFiles)
  obtain ⟨p, made, hp, -, hmirrors, hnodup⟩ := makeExt4fs_readBack (d := smallDisk) usable_small
    readable_small (smallHost_fits usable_small rfl) hrun False.elim hperm (by decide)
    (size_smallDisk_lt hperm hreach)
  exact ⟨im, hrun, p, made, hp, hmirrors, hnodup⟩

/-- The journal is a hidden file that starts with the superblock of an empty journal.  Where labels
are written, the filesystem must not be full. -/
theorem makeExt4fs_journal (hu : g.Usable) (hr : g.Readable) (hh : host.Fits g labels)
    (hrun : makeExt4fs g uuid host fuel directory mountpoint = .ok im)
    (hfull : labels → HasFreeBlock g im.builder.st)
    (hjournal : g.info.featCompat &&& EXT4_FEATURE_COMPAT_HAS_JOURNAL ≠ 0) {files : List UInt8 → Mem}
    (hperm : ws.Perm (im.writes g files)) (hsize : g.aux.lenBlocks * g.info.blockSize ≤ d.size)
    (hlt : (d.applyAll ws).size < 2 ^ 63) :
    ∃ p inode buf, readExt (d.applyAll ws) = .ok p ∧
      ReadsInode p (d.applyAll ws) EXT4_JOURNAL_INO S_IFREG 1
        (u32 (g.info.journalBlocks * g.info.blockSize)) inode ∧
      readFile p EXT4_JOURNAL_INO (d.applyAll ws) = .ok (inode, buf) ∧
      buf.SameOn (journalSuperblock g Mem.zero) 0
        (u32 (g.info.journalBlocks * g.info.blockSize)) := by
  obtain ⟨hsupers, spare, made, dirs, own, hmade, -⟩ := makeExt4fs_spec hu hh hrun
  have hon := Image.isOn_of_perm hu.blockSize_pos (hmade.laid.queued hfull) hperm hsize hlt
  obtain ⟨p, hp, -, hread⟩ := hmade.exists_readback hu hr hsupers hfull hon
  obtain ⟨own', data, hholds⟩ := hmade.journal hjournal
  obtain ⟨ps, leaf, hdata, -⟩ := hholds.stored
  have hsource : ∀ offset, im.data g files (.buffer data offset) =
      (journalSuperblock g Mem.zero).behind offset := by
    intro offset
    rw [← hholds.bytes]
    rfl
  obtain ⟨inode, buf, hinode, hfile, hwindow, hbuf⟩ := hread.readFile_eq
    (journalSuperblock g Mem.zero) hholds.is.inUse (hholds.is.mode_ne_zero (by decide)) hdata hsource
  exact ⟨p, inode, buf, hp, hholds.is.reads hwindow hinode hdata.size, hfile, hbuf⟩

theorem makeExt4fs_journal_small : ∃ im,
    makeExt4fs smallJournal Mem.zero smallHost 3 none [47] = .ok im ∧ ∃ p inode buf,
      readExt (smallDisk.applyAll (im.writes smallJournal smallFiles)) = .ok p ∧
        readFile p EXT4_JOURNAL_INO (smallDisk.applyAll (im.writes smallJournal smallFiles)) =
          .ok (inode, buf) ∧
        buf.SameOn (journalSuperblock smallJournal Mem.zero) 0 4096 := by
  obtain ⟨im, hrun, hreach⟩ := exists_image fitsDisk_smallJournal smallFiles
  have hperm := List.Perm.refl (im.writes smallJournal smallFiles)
  obtain ⟨p, inode, buf, hp, -, hfile, hbuf⟩ := makeExt4fs_journal (d := smallDisk)
    usable_smallJournal readable_smallJournal (smallHost_fits usable_smallJournal rfl) hrun
    False.elim (by decide) hperm (by decide) (size_smallDisk_lt hperm hreach)
  exact ⟨im, hrun, p, inode, buf, hp, hfile, hbuf⟩

/-! ## What is exported -/

/-- The sparse file that `ext2simg` makes of the device, written out anywhere, is the image again:
all that was queued is there, and what is read is the same tree.  Where labels are written, the
filesystem must not be full: the block of a label for which there is none is queued all the same,
but it is in no bitmap, and not exported. -/
theorem makeExt4fs_sparse (hu : g.Usable) (hr : g.Readable) (hh : host.Fits g labels)
    (hrun : makeExt4fs g uuid host fuel directory mountpoint = .ok im)
    (hfull : labels → HasFreeBlock g im.builder.st) {files : List UInt8 → Mem}
    (hperm : ws.Perm (im.writes g files)) (hsize : g.aux.lenBlocks * g.info.blockSize ≤ d.size)
    (hlt : (d.applyAll ws).size < 2 ^ 63) :
    ∃ chunks, ext2simg (d.applyAll ws) = .ok (g.info.blockSize, chunks) ∧ ∀ d' d₀ : Device,
      d' = d₀.applyAll (chunks.map (FileChunk.write g.info.blockSize (d.applyAll ws))) →
      g.aux.lenBlocks * g.info.blockSize ≤ d₀.size → d'.size < 2 ^ 63 →
        im.IsOn g files d' ∧ ∃ p made, readExt d' = .ok p ∧
          (deviceView p d' files).MirrorsTree host g.info.blockSize fuel directory mountpoint made ∧
          (hiddenNums ++ made).Nodup := by
  obtain ⟨hsupers, spare, made, dirs, own, hmade, hmirrors⟩ := makeExt4fs_spec hu hh hrun
  have hon := Image.isOn_of_perm hu.blockSize_pos (hmade.laid.queued hfull) hperm hsize hlt
  obtain ⟨p, hp, hback, hread⟩ := hmade.exists_readback hu hr hsupers hfull hon
  obtain ⟨chunks, hexport, hwritten⟩ := hread.exists_export hback hp
  refine ⟨chunks, hexport, ?_⟩
  rintro d' d₀ rfl hge hlt'
  have hon' := hwritten d₀ hge hlt'
  obtain ⟨p', hp', -, hread'⟩ := hmade.exists_readback hu hr hsupers hfull hon'
  exact ⟨hon', p', made, hp', hmade.mirrors_device hmirrors hread', hmade.nodup⟩

theorem makeExt4fs_sparse_small : ∃ im,
    makeExt4fs small Mem.zero smallHost 3 (some [47]) [47] = .ok im ∧ ∃ chunks,
      ext2simg (smallDisk.applyAll (im.writes small smallFiles)) = .ok (1024, chunks) ∧
      ∀ d' d₀ : Device, d' = d₀.applyAll (chunks.map
        (FileChunk.write 1024 (smallDisk.applyAll (im.writes small smallFiles)))) →
      64 * 1024 ≤ d₀.size → d'.size < 2 ^ 63 →
        im.IsOn small smallFiles d' ∧ ∃ p made, readExt d' = .ok p ∧
          (deviceView p d' smallFiles).MirrorsTree smallHost 1024 3 (some [47]) [47] made ∧
          (hiddenNums ++ made).Nodup := by
  obtain ⟨im, hrun, hreach⟩ := exists_image fitsDisk_small smallFiles
  have hperm := List.Perm.refl (im.writes small smallFiles)
  exact ⟨im, hrun, makeExt4fs_sparse (d := smallDisk) usable_small readable_small
    (smallHost_fits usable_small rfl) hrun False.elim hperm (by decide)
    (size_smallDisk_lt hperm hreach)⟩

end Results

/-! ## The default tree -/

/-- Where no directory is given and nothing is labelled, the tree is what `build_directory_structure`
makes of no directory at all. -/
theorem buildTree_none (g : Geometry) {host : HostTree} (hlabel : host.selabelLookup = none)
    (fuel depth : ℕ) (mountpoint : List UInt8) (s : State) :
    buildTree g host fuel none mountpoint s =
      buildDirectoryStructure g host (depth + 2) none mountpoint 0 ⟨s, []⟩ :=
  (buildDefaultDirectoryStructure_eq g host hlabel depth mountpoint s).symm

theorem buildTree_none_small : buildTree small smallHost 3 none [47] State.empty =
    buildDirectoryStructure small smallHost 2 none [47] 0 ⟨State.empty, []⟩ :=
  buildTree_none small rfl 3 0 [47] State.empty

end SystemExtras.Ext4
