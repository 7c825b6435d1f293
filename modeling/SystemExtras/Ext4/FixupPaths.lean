import SystemExtras.Ext4.FixupComplete

/-!
# Paths before and after the migration

Resolving a path means to start at the root, to read the directory there, to look the
first name up in its records, and to go on from the inode that the record names.  The
parameters say where the inode with a given number is.

The migration changes the numbers in the records and the number of inodes per group
together.  `lookup_after` says what one step finds afterwards, and
`migration_preserves_paths` that every path leads to the inode it led to before.
-/

namespace SystemExtras.Ext4

/-! ## Resolving a path -/

/-- The number under a name in a directory of `size` bytes, from the record at `o` on. -/
def findEntry (buf : Mem) (size : ℕ) (name : List UInt8) : ℕ → ℕ → Option ℕ
  | 0, _ => none
  | fuel + 1, o =>
      if size ≤ o then none
      else if recInum buf o ≠ 0 ∧ recName buf o = name then some (recInum buf o)
      else findEntry buf size name fuel (o + recLength buf o)

/-- Looks a name up in the directory with the number `n`; nothing is found in other files. -/
def lookup (p : Fixup) (d : Device) (name : List UInt8) (n : ℕ) : Except Stop (Option ℕ) := do
  let inode ← readInode p n d
  if isDirInode inode then do
    let blocks ← blockList p 1 inode (dirSize inode / p.info.blockSize) d
    let buf ← readBlocks p d blocks
    .ok (findEntry buf (dirSize inode) name (dirSize inode + 1) 0)
  else .ok none

/-- The inode that a path leads to from the inode `n`. -/
def resolve (p : Fixup) (d : Device) : List (List UInt8) → ℕ → Except Stop (Option ℕ)
  | [], n => .ok (some n)
  | name :: rest, n => do
      match ← lookup p d name n with
      | none => .ok none
      | some m => resolve p d rest m

/-- Block group, slot in the inode table, and offset on the device of an inode. -/
def location (p : Fixup) (n : ℕ) : ℕ × ℕ × ℕ :=
  ((n - 1) / p.info.inodesPerGroup, (n - 1) % p.info.inodesPerGroup, inodeOffset p n)

/-! ## Looking up a name -/

section Lookup

variable {p q : Fixup} {d : Device} {name : List UInt8} {buf inode : Mem} {n size blockSize : ℕ}
  {rs blocks : List ℕ}

/-- Whether a record has the name. -/
def HasName (buf : Mem) (name : List UInt8) (r : ℕ) : Bool :=
  decide (recInum buf r ≠ 0 ∧ recName buf r = name)

theorem live_of_find {r : ℕ} (h : rs.find? (HasName buf name) = some r) :
    r ∈ rs ∧ recInum buf r ≠ 0 := by
  have hname : HasName buf name r = true := List.find?_some h
  exact ⟨List.mem_of_find?_eq_some h, (of_decide_eq_true hname).1⟩

theorem findEntry_eq (rs : List ℕ) : ∀ {o fuel : ℕ}, Tiles buf blockSize size o rs →
    rs.length < fuel →
    findEntry buf size name fuel o = (rs.find? (HasName buf name)).map (recInum buf) := by
  induction rs with
  | nil =>
      intro o fuel htiles hfuel
      obtain ⟨fuel, rfl⟩ := Nat.exists_eq_succ_of_ne_zero (Nat.ne_of_gt hfuel)
      rw [findEntry, if_pos (Nat.le_of_eq htiles.symm)]
      rfl
  | cons r rest ih =>
      rintro o fuel ⟨rfl, hok, hrest⟩ hfuel
      obtain ⟨fuel, rfl⟩ := Nat.exists_eq_succ_of_ne_zero (Nat.ne_of_gt (Nat.zero_lt_of_lt hfuel))
      have hmin := hok.minLength
      have hle := hrest.le
      rw [findEntry, if_neg (by omega), List.find?_cons]
      by_cases hname : recInum buf r ≠ 0 ∧ recName buf r = name
      · have htrue : HasName buf name r = true := decide_eq_true hname
        rw [if_pos hname, htrue]
        rfl
      · have hfalse : HasName buf name r = false := decide_eq_false hname
        rw [if_neg hname, hfalse]
        exact ih hrest (Nat.lt_of_succ_lt_succ hfuel)

/-- What is found in a directory. -/
theorem lookup_dir (hread : readInode p n d = .ok inode) (hdir : DirInode p blocks inode d)
    (hpos : 0 < p.info.blockSize) (hbuf : readBlocks p d blocks = .ok buf)
    (htiles : Tiles buf p.info.blockSize (p.info.blockSize * blocks.length) 0 rs) :
    lookup p d name n = .ok ((rs.find? (HasName buf name)).map (recInum buf)) := by
  have hsize : dirSize inode = p.info.blockSize * blocks.length := by
    unfold dirSize
    rw [hdir.blocksLo]
    exact u32_of_lt (hdir.size_lt.trans (by decide))
  have hlen := htiles.length_le
  unfold lookup
  rw [hread, bind_ok, if_pos hdir.isDir, hsize, Nat.mul_div_cancel_left _ hpos, hdir.blockList,
    bind_ok, hbuf, bind_ok, findEntry_eq rs htiles (by omega)]

theorem lookup_file (hread : readInode p n d = .ok inode) (hfile : isDirInode inode = false) :
    lookup p d name n = .ok none := by
  unfold lookup
  rw [hread, bind_ok, if_neg (by simp [hfile])]

end Lookup

/-! ## After the migration -/

section After

variable {p : Fixup} {T : DirTree} {d₀ d₁ d : Device} {bgDesc : Mem} {n : ℕ} (inodes : ℕ)
  (name : List UInt8)

variable (hI : FixupImage p T d₀) (hs : Leads p) (hS : SameNav p T d₀ d₁)
  (hH : Holds p T d₀ d₁ (newNums p T d₀) d) (hdesc : DescLike p.bgDesc bgDesc)

include hI

/-- A number that the image refers to and that is one of a directory. -/
theorem FixupImage.mem_dirs_of_refers (hv : T.Refers p d₀ n) {inode : Mem}
    (hread : readInode p n d₀ = .ok inode) (hdir : isDirInode inode = true) : n ∈ T.dirs := by
  rcases hv with hv | ⟨m, hm, r, hr, rfl⟩
  · exact hv
  · obtain ⟨inode', hread', -, hsub⟩ := (hI.entry m hm r hr).inode
    rw [hread] at hread'
    cases hread'
    exact (hsub hdir).1

theorem FixupImage.readInode_of_refers (hv : T.Refers p d₀ n) :
    ∃ inode, readInode p n d₀ = .ok inode := by
  rcases hv with hv | ⟨m, hm, r, hr, rfl⟩
  · obtain ⟨inode, hread, -⟩ := hI.inode n hv
    exact ⟨inode, hread⟩
  · obtain ⟨inode, hread, -⟩ := (hI.entry m hm r hr).inode
    exact ⟨inode, hread⟩

include hH

/-- After the run the same record has the name. -/
theorem find_renum (hn : n ∈ T.dirs) :
    ((T.records n).find? (HasName (T.buf p d n) name)).map (recInum (T.buf p d n)) =
      (((T.records n).find? (HasName (T.buf p d₀ n) name)).map
        (recInum (T.buf p d₀ n))).map p.newInum := by
  have hinum : ∀ r ∈ T.live p d₀ n,
      recInum (T.buf p d n) r = p.newInum (recInum (T.buf p d₀ n) r) := by
    intro r hr
    rw [hH.buf n hn, recInum_renum hI hn hr]
    exact u32_of_lt ((hI.entry n hn r hr).newInum_lt.trans (by decide))
  have hname : ∀ r ∈ T.records n, HasName (T.buf p d n) name r = HasName (T.buf p d₀ n) name r := by
    intro r hr
    have hsame : recName (T.buf p d n) r = recName (T.buf p d₀ n) r := by
      rw [hH.buf n hn, recName_renum hI hn hr]
    have hzero : recInum (T.buf p d n) r ≠ 0 ↔ recInum (T.buf p d₀ n) r ≠ 0 := by
      by_cases hlive : r ∈ T.live p d₀ n
      · have hpos := newInum_pos p (recInum (T.buf p d₀ n) r)
        rw [hinum r hlive]
        exact iff_of_true (by omega) (recInum_ne_zero_of_live hlive)
      · rw [hH.buf n hn, recInum_renum_of_dead hI hn hr hlive]
        refine iff_of_false (fun h => h rfl) fun h => hlive (mem_live.mpr ⟨hr, h⟩)
    unfold HasName
    rw [hsame, decide_eq_decide, hzero]
  rw [List.find?_congr hname]
  cases hfind : (T.records n).find? (HasName (T.buf p d₀ n) name) with
  | none => rfl
  | some r =>
      exact congrArg some (hinum r (mem_live.mpr (live_of_find hfind)))

include hs hS hdesc

/-- One step of a path: the same record is found, with the new number in it. -/
theorem lookup_after (hv : T.Refers p d₀ n) : ∃ m, lookup p d₀ name n = .ok m ∧
    lookup (p.after inodes bgDesc) d name (p.newInum n) = .ok (m.map p.newInum) ∧
    ∀ v ∈ m, T.Refers p d₀ v := by
  obtain ⟨inode₀, hread₀⟩ := hI.readInode_of_refers hv
  obtain ⟨inode, hread, hsame⟩ := hH.readInode hI hS hv hread₀
  have hread' := (readInode_after hI hs hv inodes hdesc).mpr hread
  have hsize : d.size = d₀.size := hH.size.trans hS.size
  have hbs : (p.after inodes bgDesc).info.blockSize = p.info.blockSize := rfl
  by_cases hdir : isDirInode inode₀ = true
  · have hn := hI.mem_dirs_of_refers hv hread₀ hdir
    obtain ⟨inode₀', hinode₀, hdir₀⟩ := hI.inode n hn
    obtain ⟨-, inode', -, hinode', -, hdir'⟩ := rename_inode inodes hI hs hS hH hdesc hn
    rw [hI.rename_blocks hs hn] at hdir'
    have hbuf₀ := readBlocks_eq hI.blockSize_pos hI.size_lt (hI.blocks_le n hn)
    have hbuf : readBlocks (p.after inodes bgDesc) d (T.blocks n) = .ok (T.buf p d n) :=
      readBlocks_eq (p := p.after inodes bgDesc) hI.blockSize_pos (hsize ▸ hI.size_lt)
        (hsize ▸ hI.blocks_le n hn)
    have htiles : Tiles (T.buf p d n) p.info.blockSize (T.size p n) 0 (T.records n) := by
      rw [hH.buf n hn]
      exact tiles_renum hI hn
    refine ⟨_, lookup_dir hinode₀ hdir₀ hI.blockSize_pos hbuf₀ (hI.tiles n hn), ?_, ?_⟩
    · rw [lookup_dir hinode' hdir' hI.blockSize_pos hbuf htiles, find_renum name hI hH hn]
      rfl
    · intro v hv
      obtain ⟨r, hfind, rfl⟩ := Option.map_eq_some_iff.mp hv
      exact refers_of_live hn (mem_live.mpr (live_of_find hfind))
  · have hfile : isDirInode inode₀ = false := by simpa using hdir
    refine ⟨none, lookup_file hread₀ hfile, lookup_file hread' ?_, fun v hv => by cases hv⟩
    rw [isDirInode_congr hsame, hfile]

/-- A whole path. -/
theorem resolve_after (path : List (List UInt8)) : ∀ {n : ℕ}, T.Refers p d₀ n →
    ∃ m, resolve p d₀ path n = .ok m ∧
      resolve (p.after inodes bgDesc) d path (p.newInum n) = .ok (m.map p.newInum) ∧
      ∀ v ∈ m, T.Refers p d₀ v := by
  induction path with
  | nil =>
      intro n hv
      refine ⟨some n, rfl, rfl, fun v h => ?_⟩
      rwa [← Option.mem_some.mp h]
  | cons name rest ih =>
      intro n hv
      obtain ⟨m, hm, hm', hrefers⟩ := lookup_after inodes name hI hs hS hH hdesc hv
      unfold resolve
      rw [hm, hm', bind_ok, bind_ok]
      cases m with
      | none => exact ⟨none, rfl, rfl, fun v h => by cases h⟩
      | some v => exact ih (hrefers v rfl)

end After

/-! ## The result -/

/-- The parameters of the filesystem that the migration leaves on `d`. -/
def Fixup.migrated (p : Fixup) (d : Device) : Fixup :=
  p.after (Sb.inodesCount.get (sbOf d)) (primaryDesc p d)

/-- What paths mean on `d`, by the parameters `q`, is what they meant on `d₀`. -/
structure SamePaths (p : Fixup) (T : DirTree) (d₀ : Device) (q : Fixup) (d : Device) : Prop where
  inodesPerGroup : Sb.inodesPerGroup.get (sbOf d) = p.newInodesPerGroup
  params : q.info.inodesPerGroup = p.newInodesPerGroup
  /-- These are the parameters that the tool itself reads. -/
  readExt : p.info.inodeSize ∣ p.info.blockSize → readExt d = .ok q
  paths : ∀ path, ∃ n n', resolve p d₀ path EXT4_ROOT_INO = .ok n ∧
    resolve q d path EXT4_ROOT_INO = .ok n' ∧ n'.map (location q) = n.map (location p)
  /-- Of a directory nothing but the inode numbers of live records changes. -/
  bytes : ∀ n ∈ T.dirs, ∀ x, (∀ r ∈ T.live p d₀ n, x < r ∨ r + 4 ≤ x) →
    T.buf p d n x = T.buf p d₀ n x

section Result

variable {p : Fixup} {T : DirTree} {d₀ d : Device} {fuel n : ℕ}

theorem after_u32 (inodes : ℕ) (bgDesc : Mem) :
    p.after (u32 inodes) bgDesc = p.after inodes bgDesc := by
  have hinfo : p.afterInfo (u32 inodes) = p.afterInfo inodes :=
    FsInfo.ext rfl rfl rfl rfl rfl (u32_of_lt (u32_lt inodes)) rfl rfl rfl rfl rfl rfl rfl
  unfold Fixup.after
  rw [hinfo]

/-- An inode is at the same place under both numbers. -/
theorem location_after (hI : FixupImage p T d₀) (hs : Leads p) (hv : T.Refers p d₀ n) (inodes : ℕ)
    {bgDesc : Mem} (hdesc : DescLike p.bgDesc bgDesc) :
    location (p.after inodes bgDesc) (p.newInum n) = location p n := by
  have hparams := readExt_eq_ok.mp hI.readExt
  have hipg : (p.after inodes bgDesc).info.inodesPerGroup = p.newInodesPerGroup :=
    u32_of_lt hparams.newInodesPerGroup_lt
  obtain ⟨hdiv, hmod⟩ := newInum_sub_one (v := n) hI.inodesPerGroup_pos
    (hparams.le_newInodesPerGroup hs)
  unfold location
  rw [hipg, hdiv, hmod, (inodeOffset_after hI hs hv inodes hdesc).1]

/-- **The migration keeps what paths mean.**  If a run on an image with blocks of more than 1024
bytes returns and the root keeps its number, every path leads to the block group, slot and offset
that it led to before. -/
theorem migration_preserves_paths (hI : FixupImage p T d₀) (hbs : 1024 < p.info.blockSize)
    (hroot : p.newInum EXT4_ROOT_INO = EXT4_ROOT_INO) (hunset : getFsFixupState d₀ = .ok .unset)
    (hfuel : T.depth EXT4_ROOT_INO < fuel) (hret : (ext4fixupInternal fuel).result d₀ = .ok ()) :
    SamePaths p T d₀ (p.migrated ((ext4fixupInternal fuel).final d₀))
      ((ext4fixupInternal fuel).final d₀) := by
  have hparams := readExt_eq_ok.mp hI.readExt
  have hlt := hparams.newInodesPerGroup_lt
  have htrial := trialOk_of_returns hI hunset hfuel hret
  have hgroups : 0 < p.numBlockGroups := by
    rw [hparams.numBlockGroups_eq hbs]
    exact hI.groups_pos
  have hs : Leads p := ⟨htrial.noWrap hparams hI.blockSize_le hgroups, hroot⟩
  obtain ⟨-, hd⟩ := complete_run hI hunset hfuel htrial
  generalize (ext4fixupInternal fuel).final d₀ = d at hd
  obtain ⟨d₁, hR, hlike, hH⟩ := hd.finished
  have hS : SameNav p T d₀ d₁ := hR.sameNav hI
  have hprimary : primaryDesc p d = primaryDesc p d₁ := Device.slice_congr (hH.desc_sameOn hI)
  have hdesc : DescLike p.bgDesc (primaryDesc p d) := by
    rw [hprimary]
    exact hR.desc
  refine ⟨?_, u32_of_lt hlt, fun hdvd => ?_, fun path => ?_, fun n hn x hx => ?_⟩
  · rw [hH.sbOf_eq hI, hlike.get (Or.inl (by decide)), inodesPerGroup_migratedSb hlt]
  · have hsteady := hparams.steady_of_dvd hs.noWrap hdvd hroot
    obtain ⟨q, hread, -, -, hafter, -⟩ := hR.params hI (hI.compatible hsteady htrial) hH
    unfold Fixup.migrated
    rw [hH.sbOf_eq hI, hlike.get (Or.inl (by decide)), inodesCount_migratedSb, hprimary, hread,
      hafter hlike, after_u32]
  · obtain ⟨m, hm, hm', hrefers⟩ := resolve_after (Sb.inodesCount.get (sbOf d)) hI hs hS hH
      hdesc path (Or.inl hI.root_mem)
    rw [hroot] at hm'
    refine ⟨m, m.map p.newInum, hm, hm', ?_⟩
    rw [Option.map_map]
    apply Option.map_congr
    intro v hv
    exact location_after hI hs (hrefers v hv) _ hdesc
  · rw [hH.buf n hn]
    exact renum_of_not_mem hx

end Result

theorem migration_preserves_paths_twoGroups :
    SamePaths twoGroupsFixup twoGroupsTree twoGroups
      (twoGroupsFixup.migrated ((ext4fixupInternal 2).final twoGroups))
      ((ext4fixupInternal 2).final twoGroups) := by
  obtain ⟨hret, -⟩ :=
    complete_run twoGroups_image unset_twoGroups fuel_twoGroups trialOk_twoGroups
  exact migration_preserves_paths twoGroups_image (by decide) (by decide) unset_twoGroups
    fuel_twoGroups hret

/-- With one inode per group the root gets the number `17`, and what then has the number `2` is
another slot, in the first group. -/
theorem not_samePaths_movingRoot :
    FixupImage movingRootFixup movingRootTree movingRoot ∧ movingRootFixup.info.blockSize = 2048 ∧
      getFsFixupState movingRoot = .ok .unset ∧
      (ext4fixupInternal 1).result movingRoot = .ok () ∧
      ¬ SamePaths movingRootFixup movingRootTree movingRoot
        (movingRootFixup.migrated ((ext4fixupInternal 1).final movingRoot))
        ((ext4fixupInternal 1).final movingRoot) := by
  refine ⟨movingRoot_image, rfl, unset_movingRoot, by decide +kernel, fun h => ?_⟩
  obtain ⟨n, n', hn, hn', hloc⟩ := h.paths []
  cases hn
  cases hn'
  have hgroup : (location (movingRootFixup.migrated ((ext4fixupInternal 1).final movingRoot)) 2).1 =
      (location movingRootFixup 2).1 := congrArg Prod.fst (Option.some.inj hloc)
  unfold location at hgroup
  rw [h.params] at hgroup
  exact absurd hgroup (by decide)

end SystemExtras.Ext4
