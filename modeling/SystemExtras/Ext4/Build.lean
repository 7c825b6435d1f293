import SystemExtras.Ext4.Attributes

/-!
# Building the tree

A translation of `build_directory_structure`, which copies a directory of the host
with all that is below it, and of `build_default_directory_structure`.  Without
`force` every error ends the program.

`FsView` says what a filesystem is taken to hold, and `FsView.Mirrors` that it holds a
given directory of the host: the entries of the directory are those of the listing,
and each leads to an inode that is a file with the same bytes, a link with the same
target, or a directory that mirrors the one below.  It also lists the numbers of all of
these inodes in the order of the tree.  While an image is built the view
is that of memory (`memView`), with the buffers and chunks that are to be written.

## Strategy

* **The listing.**  `listDirectory_spec` says what `scandir` and the loop behind it
  leave for a sane host: entries that can be stored (`SourceDentry.Storable`) and that
  have room in a directory.
* **One entry.**  Making the inode of an entry gives it its contents, and describing it
  gives it permissions, owner, times and label.  A new directory is entered into its
  parent only when its number is known, so `HoldsDir.setEntryInode` changes one number
  in a directory that is already queued.
* **A directory.**  `Builds` collects what a stretch of the program has done: the
  inodes it has handed out, those of them that are directories, and the buffers that
  its results rest on, which nothing later writes to.  It composes (`Builds.trans`),
  and a view that held before it still holds after it (`Builds.persists`).
* **The tree.**  `buildsDirectories` is the induction over the depth of the tree.  For
  an entry that is a directory the hypothesis of the induction gives `Mirrors` of what
  is below; for the rest of the entries the loop goes on with a state of which the same
  is known (`buildEntries_spec`).

`Mirrors` lists the inodes of a subtree right behind its root, and so does `Builds`:
that no inode is handed out twice is a property of that one list.
-/

namespace SystemExtras.Ext4

open Mem

/-! ## The code -/

def EXT4_FT_REG_FILE : ℕ := 1
def EXT4_FT_SYMLINK : ℕ := 7

/-- A host of which directories can be listed: the names in a directory, in the order that
`alphasort` puts them in. -/
structure HostTree extends Host where
  readdir : List UInt8 → Option (List (List UInt8))

/-- `filter_dot`. -/
def filterDot (name : List UInt8) : Bool := name ≠ [46, 46] ∧ name ≠ [46]

/-- The characters of a C string. -/
def cString (bytes : List UInt8) : List UInt8 := bytes.takeWhile (· ≠ 0)

section Listing

variable (host : HostTree) (blockSize : ℕ)

/-- `scandir`, if there is a directory on the host. -/
def scandir (fullPath : Option (List UInt8)) : Except Stop (List (List UInt8)) :=
  match fullPath with
  | none => .ok []
  | some path =>
      match host.readdir path with
      | none => .error (.error "scandir: %s")
      | some names => .ok (names.filter filterDot)

/-- `selabel_lookup` returns an error. -/
def labelMissing (path : List UInt8) (mode : ℕ) : Bool :=
  match host.selabelLookup with
  | none => false
  | some lookup => (lookup path mode).isNone

/-- One round of the loop over the names, when every error ends it. -/
def sourceDentry (fullPath dirPath name : List UInt8) : Except Stop SourceDentry :=
  let path := dirPath ++ name
  let full := fullPath ++ name
  match host.lstat full with
  | none => .error (.error "lstat: %s")
  | some stat =>
      if labelMissing host path stat.mode then
        .error (.error "cannot lookup security context for %s")
      else
        match sourceFileType stat.mode with
        | none => .error (.error "unknown file type on %s")
        | some type =>
            .ok (typeDentry host.toHost blockSize full stat.mode type
              (describeDentry host.toHost path stat (nameDentry fullPath dirPath name .zero)))

/-- `build_directory_structure` up to `make_directory`: the entries and the number of directories. -/
def listDirectory (fullPath : Option (List UInt8)) (dirPath : List UInt8) (dirInode : ℕ) :
    Except Stop (List SourceDentry × ℕ) := do
  let names ← scandir host fullPath
  let dentries ← names.mapM (sourceDentry host blockSize (fullPath.getD []) dirPath)
  if dirInode = 0 ∧ ∀ name ∈ names, name ≠ lostAndFoundName then
    let d := lostAndFound host.toHost dirPath
    if labelMissing host (dirPath ++ lostAndFoundName) d.mode then
      .error (.error "cannot lookup security context for %s")
    else .ok (d :: dentries, directories dentries + 1)
  else .ok (dentries, directories dentries)

end Listing

/-- What `make_directory` reads of an entry. -/
def SourceDentry.dentry (d : SourceDentry) : Dentry := ⟨d.filename.getD [], UInt8.ofNat d.fileType⟩

section Code

variable (g : Geometry)

/-- The inode of an entry; `build` makes a directory. -/
def buildInode
    (build : Option (List UInt8) → List UInt8 → ℕ → Builder → Except Stop (ℕ × Builder))
    (inode : ℕ) (d : SourceDentry) (b : Builder) : Except Stop (ℕ × Builder) :=
  if d.fileType = EXT4_FT_REG_FILE then do
    let (num, st) ← makeFile g (d.fullPath.getD []) d.size b.st
    .ok (num, { b with st := st })
  else if d.fileType = EXT4_FT_DIR then
    build (d.fullPath.map (· ++ [47])) (d.path.getD [] ++ [47]) inode b
  else if d.fileType = EXT4_FT_SYMLINK then do
    let (num, st) ← makeLink g (cString (d.link.getD [])) b.st
    .ok (num, { b with st := st })
  else .error (.error "unknown file type on %s")

/-- `*dentries[i].inode = entry_inode`. -/
def setEntryInode (data place num : ℕ) (s : State) : State :=
  s.setBuffer data ((DirEntry.inode.at_ place).set (s.out.buffers data).bytes num)

/-- Permissions and labels of an entry. -/
def describeInode (num : ℕ) (d : SourceDentry) (b : Builder) : Except Stop Builder := do
  let st ← inodeSetPermissions g num d.mode d.uid d.gid d.mtime b.st
  let (ok, b) ← inodeSetSelinux g num d.secon { b with st := st }
  if ¬ ok then .error (.error "failed to set SELinux context on %s\n")
  else do
    let (ok, b) ← inodeSetCapabilities g num d.capabilities b
    if ¬ ok then .error (.error "failed to set capability on %s\n") else .ok b

/-- The loop over the entries, each with the place of its inode number. -/
def buildEntries
    (build : Option (List UInt8) → List UInt8 → ℕ → Builder → Except Stop (ℕ × Builder))
    (inode data : ℕ) : List (SourceDentry × ℕ) → Builder → Except Stop Builder
  | [], b => .ok b
  | (d, place) :: rest, b => do
      let (num, b) ← buildInode g build inode d b
      let b ← describeInode g num d { b with st := setEntryInode data place num b.st }
      buildEntries build inode data rest b

/-- `build_directory_structure`. -/
def buildDirectoryStructure (host : HostTree) :
    ℕ → Option (List UInt8) → List UInt8 → ℕ → Builder → Except Stop (ℕ × Builder)
  | 0, _, _, _, _ => .error .hang
  | fuel + 1, fullPath, dirPath, dirInode, b => do
      let (dentries, dirs) ← listDirectory host g.info.blockSize fullPath dirPath dirInode
      let (dir, st) ← makeDirectoryIn g dirInode (dentries.map SourceDentry.dentry) dirs b.st
      let b ← buildEntries g (buildDirectoryStructure host fuel) dir.inodeNum dir.data
        (dentries.zip dir.inodes) { b with st := st }
      .ok (dir.inodeNum, b)

/-- `build_default_directory_structure`. -/
def buildDefaultDirectoryStructure (s : State) : Except Stop (ℕ × State) := do
  let (root, s) ← makeDirectoryIn g 0 [⟨lostAndFoundName, UInt8.ofNat EXT4_FT_DIR⟩] 1 s
  let (dir, s) ← makeDirectoryIn g root.inodeNum [] 0 s
  let s := setEntryInode root.data (root.inodes.headD 0) dir.inodeNum s
  let s ← inodeSetPermissions g dir.inodeNum 0x1C0 0 0 0 s
  .ok (root.inodeNum, s)

end Code

/-! ## What is mirrored -/

/-- What a filesystem is taken to hold: a directory with a number of links and given entries, a file
with the bytes of one on the host, a link with a target, and an inode with a mode and the owner
and time of an entry. -/
structure FsView where
  dir : ℕ → ℕ → List (ℕ × List UInt8 × ℕ) → Prop
  file : ℕ → List UInt8 → ℕ → Prop
  link : ℕ → List UInt8 → Prop
  described : ℕ → ℕ → SourceDentry → Prop

/-- The record of an entry whose inode has a number. -/
def SourceDentry.numbered (d : SourceDentry) (num : ℕ) : ℕ × List UInt8 × ℕ :=
  (u32 num, d.dentry.filename, d.dentry.fileType.toNat)

/-- The entries of a directory whose subfiles have the numbers `nums`. -/
def filledEntries (n parent : ℕ) (dentries : List SourceDentry) (nums : List ℕ) :
    List (ℕ × List UInt8 × ℕ) :=
  (u32 n, [46], EXT4_FT_DIR) :: (u32 parent, [46, 46], EXT4_FT_DIR) ::
    dentries.zipWith SourceDentry.numbered nums

namespace FsView

/-- An entry leads to inode `x.1` with the inodes `x.2` below it; `sub` says what a directory has
to be. -/
def Entry (v : FsView) (sub : Option (List UInt8) → List UInt8 → ℕ → List ℕ → Prop)
    (d : SourceDentry) (x : ℕ × List ℕ) : Prop :=
  d.fileType = EXT4_FT_REG_FILE ∧ v.file x.1 (d.fullPath.getD []) d.size ∧ x.2 = [] ∧
      v.described x.1 (S_IFREG ||| d.mode) d ∨
    d.fileType = EXT4_FT_DIR ∧
      sub (d.fullPath.map (· ++ [47])) (d.path.getD [] ++ [47]) x.1 x.2 ∧
      v.described x.1 (S_IFDIR ||| d.mode) d ∨
    d.fileType = EXT4_FT_SYMLINK ∧ v.link x.1 (cString (d.link.getD [])) ∧ x.2 = [] ∧
      v.described x.1 (S_IFLNK ||| d.mode) d

/-- The inodes that entries lead to, each followed by those below it. -/
def inodesOf (subs : List (ℕ × List ℕ)) : List ℕ := subs.flatMap fun x => x.1 :: x.2

/-- Inode `n`, below `dirInode`, mirrors a directory of the host, and the inodes below it are
`made`; `fuel` bounds the depth. -/
def Mirrors (v : FsView) (host : HostTree) (blockSize : ℕ) :
    ℕ → Option (List UInt8) → List UInt8 → ℕ → ℕ → List ℕ → Prop
  | 0, _, _, _, _, _ => False
  | fuel + 1, fullPath, dirPath, dirInode, n, made => ∃ dentries dirs subs,
      listDirectory host blockSize fullPath dirPath dirInode = .ok (dentries, dirs) ∧
      v.dir n (dirs + 2) (filledEntries n (if dirInode = 0 then n else dirInode) dentries
        (subs.map Prod.fst)) ∧
      List.Forall₂ (v.Entry fun full path num below =>
        v.Mirrors host blockSize fuel full path n num below) dentries subs ∧
      inodesOf subs = made

/-- A view that shows at least as much. -/
structure Le (v v' : FsView) : Prop where
  dir : ∀ {n links entries}, v.dir n links entries → v'.dir n links entries
  file : ∀ {n path size}, v.file n path size → v'.file n path size
  link : ∀ {n target}, v.link n target → v'.link n target
  described : ∀ {n mode d}, v.described n mode d → v'.described n mode d

variable {v v' : FsView} {host : HostTree} {blockSize : ℕ}

theorem Le.trans {v'' : FsView} (h : v.Le v') (h' : v'.Le v'') : v.Le v'' :=
  ⟨fun hdir => h'.dir (h.dir hdir), fun hfile => h'.file (h.file hfile),
    fun hlink => h'.link (h.link hlink), fun hdesc => h'.described (h.described hdesc)⟩

theorem Entry.mono {sub sub' : Option (List UInt8) → List UInt8 → ℕ → List ℕ → Prop}
    {d : SourceDentry} {x : ℕ × List ℕ} (hle : v.Le v')
    (hsub : ∀ full path m below, sub full path m below → sub' full path m below)
    (h : v.Entry sub d x) : v'.Entry sub' d x := by
  rcases h with ⟨htype, hfile, hnil, hdesc⟩ | ⟨htype, hdir, hdesc⟩ | ⟨htype, hlink, hnil, hdesc⟩
  · exact .inl ⟨htype, hle.file hfile, hnil, hle.described hdesc⟩
  · exact .inr (.inl ⟨htype, hsub _ _ _ _ hdir, hle.described hdesc⟩)
  · exact .inr (.inr ⟨htype, hle.link hlink, hnil, hle.described hdesc⟩)

/-- The entry of a directory `n` that mirrors one of the host. -/
def MirrorsEntry (v : FsView) (host : HostTree) (blockSize fuel n : ℕ) :
    SourceDentry → ℕ × List ℕ → Prop :=
  v.Entry fun full path num below => v.Mirrors host blockSize fuel full path n num below

/-- What is mirrored in a view is mirrored in one that shows more. -/
theorem Mirrors.mono (hle : v.Le v') : ∀ {fuel : ℕ} {fullPath : Option (List UInt8)}
    {dirPath : List UInt8} {dirInode n : ℕ} {made : List ℕ},
    v.Mirrors host blockSize fuel fullPath dirPath dirInode n made →
      v'.Mirrors host blockSize fuel fullPath dirPath dirInode n made := by
  intro fuel
  induction fuel with
  | zero => exact fun h => h
  | succ fuel ih =>
      rintro fullPath dirPath dirInode n made ⟨dentries, dirs, subs, hlist, hdir, hentries, hmade⟩
      exact ⟨dentries, dirs, subs, hlist, hle.dir hdir,
        hentries.imp fun _ _ => Entry.mono hle fun _ _ _ _ => ih, hmade⟩

theorem MirrorsEntry.mono (hle : v.Le v') {fuel n : ℕ} {x : ℕ × List ℕ} {d : SourceDentry}
    (h : v.MirrorsEntry host blockSize fuel n d x) :
    v'.MirrorsEntry host blockSize fuel n d x :=
  Entry.mono hle (fun _ _ _ _ => Mirrors.mono hle) h

end FsView

/-! ## The view in memory -/

/-- What is in memory, resting on the buffers in `own`; the inodes in `done` are complete. -/
def memView (g : Geometry) (own done : Set ℕ) (s : State) : FsView where
  dir n links entries := ∃ data rs, HoldsDir g own s n links entries data rs
  file n path size := HoldsFile g own s n path size
  link n target := HoldsLink g own s n target
  described n mode d :=
    n ∈ done ∧ InUse g s n ∧ HasPermissions g s n mode d.uid d.gid d.mtime

section MemView

variable {g : Geometry} {own own' done done' : Set ℕ} {s s' : State} {n links len : ℕ}

theorem HoldsData.mono {source : ℕ → Source} {ps : List Piece} {leaf : Option (ℕ × ℕ)}
    (h : HoldsData g own s n len source ps leaf) (hsub : own ⊆ own') :
    HoldsData g own' s n len source ps leaf :=
  { h with leaf_own := fun l hl => hsub (h.leaf_own l hl) }

theorem HoldsFile.mono {path : List UInt8} {size : ℕ} (h : HoldsFile g own s n path size)
    (hsub : own ⊆ own') : HoldsFile g own' s n path size := by
  refine ⟨h.is, h.empty, fun hpos => ?_⟩
  obtain ⟨ps, leaf, hdata⟩ := h.data hpos
  exact ⟨ps, leaf, hdata.mono hsub⟩

theorem HoldsLink.mono {link : List UInt8} (h : HoldsLink g own s n link) (hsub : own ⊆ own') :
    HoldsLink g own' s n link := by
  refine ⟨h.is, h.size, h.flags, h.fast, fun hslow => ?_⟩
  obtain ⟨hle, data, b, hb, hdata, hrest⟩ := h.slow hslow
  exact ⟨hle, data, b, hb, hsub hdata, hrest⟩

theorem memView_mono (hown : own ⊆ own') (hdone : done ⊆ done') :
    (memView g own done s).Le (memView g own' done' s) where
  dir := fun ⟨data, rs, h⟩ => ⟨data, rs, h.mono hown⟩
  file := fun h => HoldsFile.mono h hown
  link := fun h => HoldsLink.mono h hown
  described := fun ⟨hn, h⟩ => ⟨hdone hn, h⟩

/-- What is there stays there. -/
theorem memView_persists (hn : g.Numbered) (hp : Persists g own done s s') :
    (memView g own done s).Le (memView g own done s') where
  dir := fun ⟨data, rs, h⟩ => ⟨data, rs, h.persists hp⟩
  file := fun h => HoldsFile.persists h hp
  link := fun h => HoldsLink.persists h hp
  described := by
    rintro n mode d ⟨hmem, hu, h⟩
    have hsize := hn.inodeSize_ge
    unfold EXT4_GOOD_OLD_INODE_SIZE at hsize
    exact ⟨hmem, hp.inUse n hu, h.congr ((hp.inodes n hmem hu).mono le_rfl (by omega))⟩

end MemView

/-! ## Filling in an inode number -/

/-- The number of an inode is entered into a record. -/
theorem Written.setInode {blockSize size : ℕ} {data : Mem} {entries : List (ℕ × List UInt8 × ℕ)}
    {rs : List ℕ} (h : Written blockSize data size entries rs) {k r : ℕ} (hr : rs[k]? = some r)
    (num : ℕ) : Written blockSize ((DirEntry.inode.at_ r).set data num) size
      (entries.modify k fun e => (u32 num, e.2)) rs := by
  have hmem := List.mem_of_getElem? hr
  generalize hdata : (DirEntry.inode.at_ r).set data num = data'
  have hframe : ∀ x, x < r ∨ r + 4 ≤ x → data' x = data x := by
    intro x hx
    rw [← hdata]
    refine Mem.store_apply_of_not_mem ?_
    simp only [Field.at_, DirEntry.inode]
    omega
  have hother : ∀ r' ∈ rs, r' ≠ r →
      RecordOk data' blockSize r' ∧ recLength data' r' = recLength data r' ∧
        recEntry data' r' = recEntry data r' := by
    intro r' hr' hne
    have hapart := h.tiles.apart hr' hmem hne
    have hmin := (h.tiles.mem r hmem).2.1.minLength
    refine Tiles.recEntry_congr (h.tiles.mem r' hr').2.1 fun x hlo hhi => hframe x ?_
    omega
  have hself : RecordOk data' blockSize r ∧ recLength data' r = recLength data r ∧
      recEntry data' r = (u32 num, (recEntry data r).2) := by
    have hok := (h.tiles.mem r hmem).2.1
    have hget : ∀ f : Field, 4 ≤ f.offset → (f.at_ r).get data' = (f.at_ r).get data := by
      intro f hf
      refine Mem.load_congr fun i hi => hframe _ ?_
      simp only [Field.at_]
      omega
    have hlen : recLength data' r = recLength data r := hget _ (by decide)
    have hname := hget DirEntry.nameLen (by decide)
    refine ⟨⟨hlen ▸ hok.minLength, ?_, hlen ▸ hok.inBlock⟩, hlen, ?_⟩
    · rw [hlen, hname]
      exact hok.name
    · refine Prod.ext ?_ (Prod.ext ?_ (hget DirEntry.fileType (by decide)))
      · show (DirEntry.inode.at_ r).get data' = _
        rw [← hdata]
        exact Field.get_set_self _ _ _
      · show data'.bytes _ _ = data.bytes _ _
        rw [hname]
        refine bytes_congr fun i hi => hframe _ ?_
        unfold DirEntry.nameOffset
        omega
  have hall : ∀ r' ∈ rs, RecordOk data' blockSize r' ∧ recLength data' r' = recLength data r' := by
    intro r' hr'
    by_cases hne : r' = r
    · exact hne ▸ ⟨hself.1, hself.2.1⟩
    · exact ⟨(hother r' hr' hne).1, (hother r' hr' hne).2.1⟩
  refine ⟨h.tiles.congr hall, fun r' hr' => (hall r' hr').2 ▸ h.aligned r' hr', ?_⟩
  have hnodup : rs.Nodup := h.tiles.pairwise.imp_of_mem fun ha _ hle => by
    have hmin := (h.tiles.mem _ ha).2.1.minLength
    omega
  refine List.ext_getElem? fun i => ?_
  rw [List.getElem?_map, List.getElem?_modify, ← h.entries, List.getElem?_map]
  cases hi : rs[i]? with
  | none => rfl
  | some r' =>
      have hr' := List.mem_of_getElem? hi
      by_cases hk : k = i
      · subst hk
        obtain rfl : r' = r := Option.some_inj.mp (hi.symm.trans hr)
        simp [hself.2.2]
      · have hne : r' ≠ r := by
          rintro rfl
          exact hk ((List.getElem?_inj (List.getElem?_eq_some_iff.mp hr).1 hnodup).mp
            (hr.trans hi.symm))
        simp [hk, (hother r' hr' hne).2.2]

theorem HoldsDir.setEntryInode {g : Geometry} {own : Set ℕ} {s : State}
    {n links data k place : ℕ} {entries : List (ℕ × List UInt8 × ℕ)} {rs : List ℕ}
    (h : HoldsDir g own s n links entries data rs) (hr : rs[k]? = some place) (num : ℕ) :
    HoldsDir g own (setEntryInode data place num s) n links
      (entries.modify k fun e => (u32 num, e.2)) data rs := by
  obtain ⟨len, ps, leaf, hdata, hleaf, hwhole, hwritten⟩ := h.stored
  refine ⟨⟨h.is.inUse, h.is.type, h.is.links⟩, ⟨len, ps, leaf, ⟨hdata.flags, hdata.size, ?_,
    hdata.leaf_own, hdata.blocks, hdata.blocks_lt, hdata.places⟩, hleaf, hwhole, ?_⟩, h.data_own,
    h.data_lt⟩
  · refine hdata.extents.congr (fun _ _ _ => rfl) (fun _ hc => hc) le_rfl fun l hl => ?_
    exact Function.update_of_ne (hleaf l hl) _ _
  · rw [Ext4.setEntryInode, State.bytes_setBuffer_self]
    exact hwritten.setInode hr num

/-! ## Listings -/

/-- What is assumed of the host: names are not empty and not longer than they can be, files are not
larger than the format can say, `fs_config_func` returns permissions only, and where there are no
labels nothing is labelled. -/
structure HostTree.Sane (host : HostTree) (g : Geometry) (labels : Prop) : Prop where
  names : ∀ path names, host.readdir path = some names →
    ∀ name ∈ names, 1 ≤ name.length ∧ name.length ≤ 255
  sizes : ∀ path stat, host.lstat path = some stat → stat.size ⌈/⌉ g.info.blockSize < 2 ^ 32
  modes : ∀ config, host.fsConfig = some config → ∀ path isDir,
    u16 (config path isDir).mode &&& S_IFMT = 0
  labels : host.fsConfig ≠ none ∨ host.selabelLookup ≠ none → labels

/-- No directory is larger than the format can say, either. -/
structure HostTree.Fits (host : HostTree) (g : Geometry) (labels : Prop) : Prop
    extends host.Sane g labels where
  directories : ∀ fullPath dirPath dirInode dentries dirs,
    listDirectory host g.info.blockSize fullPath dirPath dirInode = .ok (dentries, dirs) →
      directorySize g.info.blockSize (dentries.map SourceDentry.dentry) < 2 ^ 32

/-- An entry that can be stored. -/
structure SourceDentry.Storable (g : Geometry) (labels : Prop) (d : SourceDentry) : Prop where
  filename : 1 ≤ d.dentry.filename.length ∧ d.dentry.filename.length ≤ 255
  size : d.size ⌈/⌉ g.info.blockSize < 2 ^ 32
  link : (d.link.getD []).length ≤ g.info.blockSize
  mode : u16 d.mode = d.mode ∧ d.mode &&& S_IFMT = 0
  uid : u16 d.uid = d.uid
  gid : u16 d.gid = d.gid
  mtime : u32 d.mtime = d.mtime
  secon : d.secon ≠ none → labels
  capabilities : d.capabilities ≠ 0 → labels

section Listings

variable {host : HostTree} {g : Geometry} {labels : Prop} {d : SourceDentry}
  {fullPath dirPath name path : List UInt8} {stat : SourceStat}

theorem and_permissions (mode : ℕ) : u16 (mode &&& 0xFFF) = mode &&& 0xFFF ∧
    (mode &&& 0xFFF) &&& S_IFMT = 0 := by
  have hle : mode &&& 0xFFF ≤ 0xFFF := Nat.and_le_right
  refine ⟨u16_of_lt (by omega), ?_⟩
  rw [Nat.and_assoc, show 0xFFF &&& S_IFMT = 0 by decide, Nat.and_zero]

/-- An entry that is labelled, if there are labels. -/
theorem SourceDentry.Storable.label (hh : host.Sane g labels) (h : d.Storable g labels)
    (path : List UInt8) (mode : ℕ) : SourceDentry.Storable g labels
      (match host.selabelLookup with
      | none => d
      | some lookup =>
          match lookup path mode with
          | none => d
          | some secon => { d with secon := some secon }) := by
  cases hlookup : host.selabelLookup with
  | none => exact h
  | some lookup =>
      have hlabels := hh.labels (.inr (by simp [hlookup]))
      dsimp only
      cases lookup path mode with
      | none => exact h
      | some secon => exact { h with secon := fun _ => hlabels }

/-- An entry that has been described can be stored. -/
theorem storable_describeDentry (hh : host.Sane g labels)
    (hstat : host.lstat (fullPath ++ name) = some stat) (hname : 1 ≤ name.length ∧ name.length ≤ 255)
    (dirPath path : List UInt8) :
    (describeDentry host.toHost path stat (nameDentry fullPath dirPath name .zero)).Storable g
      labels := by
  have hsize := hh.sizes _ _ hstat
  refine SourceDentry.Storable.label hh ?_ path stat.mode
  cases hconfig : host.fsConfig with
  | none =>
      exact ⟨hname, hsize, Nat.zero_le _, and_permissions stat.mode, rfl, rfl, Nat.mod_mod _ _,
        fun h => absurd rfl h, fun h => absurd rfl h⟩
  | some config =>
      have hlabels := hh.labels (.inl (by simp [hconfig]))
      have hmode := hh.modes config hconfig path (isDir stat.mode)
      exact ⟨hname, hsize, Nat.zero_le _, ⟨Nat.mod_mod _ _, hmode⟩, Nat.mod_mod _ _,
        Nat.mod_mod _ _, Nat.mod_mod _ _, fun _ => hlabels, fun _ => hlabels⟩

theorem length_linkBuffer (hu : g.Usable) (target : List UInt8) :
    (linkBuffer g.info.blockSize target).length ≤ g.info.blockSize := by
  have hpos := hu.blockSize_pos
  have htake := List.length_take_le (g.info.blockSize - 1) target
  unfold linkBuffer
  rw [List.length_append, List.length_replicate]
  omega

/-- What an entry says is what is on the host. -/
theorem sourceDentry_spec (hu : g.Usable) (hh : host.Sane g labels)
    (hname : 1 ≤ name.length ∧ name.length ≤ 255)
    (hrun : sourceDentry host g.info.blockSize fullPath dirPath name = .ok d) :
    d.Storable g labels ∧ Shows host.toHost fullPath dirPath name d := by
  simp only [sourceDentry] at hrun
  cases hstat : host.lstat (fullPath ++ name) with
  | none =>
      rw [hstat] at hrun
      cases hrun
  | some stat =>
      rw [hstat] at hrun
      dsimp only at hrun
      split at hrun
      · cases hrun
      · cases htype : sourceFileType stat.mode with
        | none =>
            rw [htype] at hrun
            cases hrun
        | some type =>
            rw [htype] at hrun
            cases hrun
            have hdesc := storable_describeDentry hh hstat hname dirPath (dirPath ++ name)
            refine ⟨⟨hdesc.filename, hdesc.size, ?_, hdesc.mode, hdesc.uid, hdesc.gid, hdesc.mtime,
              hdesc.secon, hdesc.capabilities⟩, shows_typeDentry hstat htype _ _⟩
            have hlength := length_linkBuffer hu (host.readlink (fullPath ++ name))
            unfold typeDentry
            dsimp only
            split
            · exact hlength
            · exact hdesc.link

theorem fileType_lostAndFound (host : Host) (dirPath : List UInt8) :
    (lostAndFound host dirPath).fileType = EXT4_FT_DIR := by
  unfold lostAndFound
  cases host.selabelLookup <;> rfl

theorem storable_lostAndFound (hh : host.Sane g labels) (dirPath : List UInt8) :
    (lostAndFound host.toHost dirPath).Storable g labels := by
  have hplain : SourceDentry.Storable g labels { SourceDentry.zero with
      filename := some lostAndFoundName
      path := some (dirPath ++ lostAndFoundName)
      mode := 0x1C0
      fileType := 2 } := by
    have hmode : u16 0x1C0 = 0x1C0 ∧ 0x1C0 &&& S_IFMT = 0 := by decide
    refine ⟨by simp [SourceDentry.dentry, lostAndFoundName], ?_, Nat.zero_le _, hmode, rfl, rfl,
      rfl, fun h => absurd rfl h, fun h => absurd rfl h⟩
    show 0 ⌈/⌉ g.info.blockSize < 2 ^ 32
    rw [zero_ceilDiv]
    decide
  unfold lostAndFound
  cases hlookup : host.selabelLookup with
  | none => exact hplain
  | some lookup =>
      have hlabels := hh.labels (.inr (by simp [hlookup]))
      exact { hplain with secon := fun _ => hlabels }

/-- A listing has an entry for each name on the host, and one for `lost+found` where it is missing. -/
theorem listDirectory_spec (hu : g.Usable) (hh : host.Sane g labels)
    {fullPath : Option (List UInt8)} {dirInode dirs : ℕ} {dentries : List SourceDentry}
    (hrun : listDirectory host g.info.blockSize fullPath dirPath dirInode = .ok (dentries, dirs)) :
    (∀ d ∈ dentries, d.Storable g labels) ∧ dirs = directories dentries ∧
      ∃ names found, scandir host fullPath = .ok names ∧
        List.Forall₂ (Shows host.toHost (fullPath.getD []) dirPath) names found ∧
        dentries = if dirInode = 0 ∧ ∀ name ∈ names, name ≠ lostAndFoundName then
          lostAndFound host.toHost dirPath :: found else found := by
  simp only [listDirectory, bind_eq_ok] at hrun
  obtain ⟨names, hscan, found, hfound, hrun⟩ := hrun
  have hnames : ∀ name ∈ names, 1 ≤ name.length ∧ name.length ≤ 255 := by
    unfold scandir at hscan
    cases fullPath with
    | none =>
        cases hscan
        simp
    | some path =>
        dsimp only at hscan
        cases hread : host.readdir path with
        | none =>
            rw [hread] at hscan
            cases hscan
        | some all =>
            rw [hread] at hscan
            cases hscan
            exact fun name hname => hh.names path all hread name (List.mem_of_mem_filter hname)
  have hall : List.Forall₂ (fun name d => d.Storable g labels ∧
      Shows host.toHost (fullPath.getD []) dirPath name d) names found := by
    rw [mapM_eq_ok] at hfound
    rw [List.forall₂_iff_get] at hfound ⊢
    exact ⟨hfound.1, fun i h₁ h₂ =>
      sourceDentry_spec hu hh (hnames _ (List.get_mem _ _)) (hfound.2 i h₁ h₂)⟩
  have hstorable : ∀ d ∈ found, d.Storable g labels :=
    ((List.forall₂_and_left found names).mp hall.flip).1
  have hshows := hall.imp fun _ _ h => h.2
  split at hrun
  · rename_i hneeds
    split at hrun
    · cases hrun
    · cases hrun
      refine ⟨?_, ?_, names, found, hscan, hshows, by rw [if_pos hneeds]⟩
      · rw [List.forall_mem_cons]
        exact ⟨storable_lostAndFound hh dirPath, hstorable⟩
      · simp [directories, fileType_lostAndFound, EXT4_FT_DIR]
  · rename_i hneeds
    cases hrun
    exact ⟨hstorable, rfl, names, _, hscan, hshows, by rw [if_neg hneeds]⟩

/-- The records of `n` entries are not far apart. -/
theorem dirEnd_le {blockSize : ℕ} {dentries : List Dentry}
    (hnames : ∀ d ∈ dentries, 1 ≤ d.filename.length ∧ d.filename.length ≤ 255) : ∀ offset,
      dirEnd blockSize dentries offset ≤ offset + 528 * dentries.length := by
  induction dentries with
  | nil => exact fun offset => le_rfl
  | cons d dentries ih =>
      intro offset
      rw [List.forall_mem_cons] at hnames
      obtain ⟨-, -, hsize, -⟩ := recSize_bounds hnames.1.1 hnames.1.2
      have hstart : recStart blockSize offset (recSize d.filename.length) ≤ offset + 264 := by
        have hdiv := Nat.div_add_mod' offset blockSize
        unfold recStart
        split
        · rw [Nat.succ_mul]
          omega
        · omega
      have hrest := ih hnames.2 (recStart blockSize offset (recSize d.filename.length) +
        recSize d.filename.length)
      simp only [dirEnd, List.length_cons]
      omega

/-- Directories with less than `2 ^ 22` entries are not too large. -/
theorem HostTree.Sane.fits (hu : g.Usable) (hh : host.Sane g labels)
    (hcount : ∀ path names, host.readdir path = some names → names.length < 2 ^ 22) :
    host.Fits g labels := by
  refine ⟨hh, fun fullPath dirPath dirInode dentries dirs hrun => ?_⟩
  have hpos := hu.blockSize_pos
  have hbs := hu.blockSize_le
  obtain ⟨hstorable, -, names, found, hscan, hshows, hdentries⟩ := listDirectory_spec hu hh hrun
  have hnames : names.length < 2 ^ 22 := by
    unfold scandir at hscan
    cases fullPath with
    | none =>
        cases hscan
        decide
    | some path =>
        dsimp only at hscan
        cases hread : host.readdir path with
        | none =>
            rw [hread] at hscan
            cases hscan
        | some all =>
            rw [hread] at hscan
            cases hscan
            exact (List.length_filter_le _ _).trans_lt (hcount path all hread)
  have hlength : dentries.length ≤ 2 ^ 22 := by
    have hfound := hshows.length_eq
    rw [hdentries]
    split
    · rw [List.length_cons]
      omega
    · omega
  have hend : dirEnd g.info.blockSize (dentries.map SourceDentry.dentry) 24 ≤ _ :=
    dirEnd_le (List.forall_mem_map.mpr fun d hd => (hstorable d hd).filename) 24
  rw [List.length_map] at hend
  unfold directorySize
  rw [Nat.ceilDiv_eq_add_pred_div]
  have hmul := Nat.div_mul_le_self (dirEnd g.info.blockSize (dentries.map SourceDentry.dentry) 24 +
    g.info.blockSize - 1) g.info.blockSize
  omega

end Listings

/-! ## Making the inodes of entries -/

/-- Between `b` and `b'` the inodes in `made` have been handed out, those in `dirs` as directories.
Of what was there before only the buffers in `B` are changed; what is new rests on the buffers
in `own`, which nothing else uses. -/
structure Builds (g : Geometry) (labels : Prop) (spare B : Set ℕ) (b b' : Builder)
    (made dirs : List ℕ) (own : Set ℕ) : Prop where
  does : Does g labels spare ∅ B made dirs b.st b'.st
  registered : Registered g b'
  xattrs : ∀ e ∈ b'.xattrs, e ∈ b.xattrs ∨ b.st.out.brk ≤ e.2
  own_new : own ⊆ newBuffers b.st b'.st
  own_free : ∀ e ∈ b'.xattrs, e.2 ∉ own
  dirs_sublist : dirs.Sublist made
  kinds : ∀ n ∈ made, (n ∈ dirs ↔ modeOf g b'.st n &&& S_IFMT = S_IFDIR) ∧
    modeOf g b'.st n &&& S_IFMT ≠ 0

section Growing

variable {g : Geometry} {labels : Prop} {spare B own own' done : Set ℕ} {b b' b'' : Builder}
  {made made' dirs dirs' : List ℕ} {n : ℕ}

namespace Builds

theorem refl (hl : Laid g labels spare b.st) (hr : Registered g b) :
    Builds g labels spare B b b [] [] ∅ where
  does := ⟨hl, Keeps.refl _, .of_same (fun _ => rfl) fun _ => rfl⟩
  registered := hr
  xattrs := fun _ he => .inl he
  own_new := Set.empty_subset _
  own_free := fun _ _ => Set.notMem_empty _
  dirs_sublist := .refl _
  kinds := by simp

theorem inUse (h : Builds g labels spare B b b' made dirs own) (hn : n ∈ made) : InUse g b'.st n :=
  h.does.makes.fills.mem n hn

/-- What was there before persists, if it does not rest on the buffers in `B`. -/
theorem persists (hn : g.Numbered) (h : Builds g labels spare B b b' made dirs own)
    (hB : ∀ id ∈ own', id ∉ B) : Persists g own' done b.st b'.st :=
  h.does.keeps.persists hn hB (fun _ _ => Set.notMem_empty _) fun _ hk => absurd hk (Set.notMem_empty _)

/-- What the second changes may have been made by the first. -/
theorem trans {B' : Set ℕ} (hn : g.Numbered) (h : Builds g labels spare B b b' made dirs own)
    (h' : Builds g labels spare B' b' b'' made' dirs' own')
    (hB : ∀ id ∈ B', id < b.st.out.brk → id ∈ B) :
    Builds g labels spare B b b'' (made ++ made') (dirs ++ dirs') (own ∪ own') where
  does := h.does.trans_new h'.does (fun _ hk _ => hk) hB
  registered := h'.registered
  xattrs := by
    intro e he
    rcases h'.xattrs e he with he | hge
    · exact h.xattrs e he
    · exact .inr (h.does.keeps.brk.trans hge)
  own_new := by
    rintro id (hid | hid)
    · exact ⟨(h.own_new hid).1, (h.own_new hid).2.trans_le h'.does.keeps.brk⟩
    · exact ⟨h.does.keeps.brk.trans (h'.own_new hid).1, (h'.own_new hid).2⟩
  own_free := by
    rintro e he (hid | hid)
    · rcases h'.xattrs e he with he | hge
      · exact h.own_free e he hid
      · exact absurd (h.own_new hid).2 hge.not_gt
    · exact h'.own_free e he hid
  dirs_sublist := h.dirs_sublist.append h'.dirs_sublist
  kinds := by
    have hfresh : ∀ k ∈ made', k ∉ made := fun k hk hk' =>
      h'.does.makes.fills.fresh k hk (h.inUse hk')
    intro k hk
    rw [List.mem_append] at hk ⊢
    rcases hk with hk | hk
    · have hsame := (h'.does.keeps.inodes k (h.inUse hk) (Set.notMem_empty _)).modeOf_eq hn
      have hkind := h.kinds k hk
      rw [hsame, ← hkind.1]
      exact ⟨or_iff_left fun hk' => hfresh k (h'.dirs_sublist.subset hk') hk, hkind.2⟩
    · have hkind := h'.kinds k hk
      rw [← hkind.1]
      exact ⟨or_iff_right fun hk' => hfresh k hk (h.dirs_sublist.subset hk'), hkind.2⟩

theorem mono {B' : Set ℕ} (h : Builds g labels spare B b b' made dirs own) (hB : B ⊆ B') :
    Builds g labels spare B' b b' made dirs own :=
  { h with does := h.does.mono subset_rfl hB }

end Builds

/-- Permissions and labels. -/
theorem describeInode_spec (hu : g.Usable) {d : SourceDentry} (hd : d.Storable g labels)
    (hl : Laid g labels spare b.st) (hn : InUse g b.st n) (hr : Registered g b)
    (hrun : describeInode g n d b = .ok b') :
    Does g labels spare {n} (registeredFor g b n) [] [] b.st b'.st ∧ SameContent g b.st b'.st n ∧
      HasPermissions g b'.st n (modeOf g b.st n ||| d.mode) d.uid d.gid d.mtime ∧
      Registered g b' ∧ ∀ e ∈ b'.xattrs, e ∈ b.xattrs ∨ b.st.out.brk ≤ e.2 := by
  simp only [describeInode, bind_eq_ok] at hrun
  obtain ⟨st, hpermissions, ⟨ok, b₁⟩, hselinux, hrun⟩ := hrun
  obtain ⟨hmode, htype⟩ := hd.mode
  obtain ⟨hdoes, hcontent, hhas⟩ :=
    inodeSetPermissions_spec hu hl hn (by rw [hmode, htype]) hpermissions
  rw [hmode, hd.uid, hd.gid, hd.mtime] at hhas
  have hn₁ := hdoes.keeps.inUse n hn
  have hr₁ : Registered g { b with st := st } := by
    refine ⟨fun e he => ?_, fun e he => (hr.lt e he).trans_le hdoes.keeps.brk⟩
    obtain ⟨k, hk, heq⟩ := hr.inUse e he
    exact ⟨k, hdoes.keeps.inUse k hk, heq⟩
  have hfirst := inodeSetSelinux_spec hu hdoes.laid hn₁ hr₁ hd.secon hselinux
  split at hrun
  · cases hrun
  · simp only [bind_eq_ok] at hrun
    obtain ⟨⟨ok', b₂⟩, hcapabilities, hrun⟩ := hrun
    split at hrun
    · cases hrun
    · cases hrun
      have hsecond := inodeSetCapabilities_spec hu hfirst.does.laid (hfirst.does.keeps.inUse n hn₁)
        hfirst.registered hd.capabilities hcapabilities
      have hlabel := hfirst.trans hsecond
      refine ⟨(hdoes.mono subset_rfl (Set.empty_subset _)).trans hlabel.does,
        hcontent.trans hlabel.content, hhas.congr hlabel.start, hlabel.registered, fun e he => ?_⟩
      rcases hlabel.new e he with he | ⟨-, hge⟩
      · exact .inl he
      · exact .inr (hdoes.keeps.brk.trans hge)

theorem Registered.mono (h : Registered g b) {T : Set ℕ} {st : State} (hk : Keeps g T B b.st st) :
    Registered g { b with st := st } := by
  refine ⟨fun e he => ?_, fun e he => (h.lt e he).trans_le hk.brk⟩
  obtain ⟨k, hk', heq⟩ := h.inUse e he
  exact ⟨k, hk.inUse k hk', heq⟩

/-- One inode is made, and no label. -/
theorem builds_one {st : State} (hr : Registered g b)
    (hdoes : Does g labels spare ∅ ∅ [n] dirs b.st st) (hdirs : dirs.Sublist [n])
    (hkind : (n ∈ dirs ↔ modeOf g st n &&& S_IFMT = S_IFDIR) ∧ modeOf g st n &&& S_IFMT ≠ 0) :
    Builds g labels spare ∅ b { b with st := st } [n] dirs (newBuffers b.st st) where
  does := hdoes
  registered := hr.mono hdoes.keeps
  xattrs := fun _ he => .inl he
  own_new := subset_rfl
  own_free := fun e he hid => absurd (hr.lt e he) hid.1.not_gt
  dirs_sublist := hdirs
  kinds := fun k hk => by
    rw [List.mem_singleton.mp hk]
    exact hkind

variable {host : HostTree} {fuel : ℕ}

/-- What `build` does below a directory, as far as it ends well. -/
def BuildsDirectories (g : Geometry) (labels : Prop) (spare : Set ℕ) (host : HostTree) (fuel : ℕ)
    (build : Option (List UInt8) → List UInt8 → ℕ → Builder → Except Stop (ℕ × Builder)) : Prop :=
  ∀ fullPath dirPath dirInode b n b', dirInode ≠ 0 → Laid g labels spare b.st → Registered g b →
    build fullPath dirPath dirInode b = .ok (n, b') →
    ∃ rest dirs own, Builds g labels spare ∅ b b' (n :: rest) dirs own ∧
      modeOf g b'.st n = S_IFDIR ∧ (memView g own {k | k ∈ rest} b'.st).Mirrors host
        g.info.blockSize fuel fullPath dirPath dirInode n rest

/-- The inode of an entry is made.  Nothing but its description is missing. -/
theorem buildInode_spec (hu : g.Usable)
    {build : Option (List UInt8) → List UInt8 → ℕ → Builder → Except Stop (ℕ × Builder)}
    (hbuild : BuildsDirectories g labels spare host fuel build) {inode num : ℕ} (hinode : inode ≠ 0)
    {d : SourceDentry} (hd : d.Storable g labels) (hl : Laid g labels spare b.st)
    (hr : Registered g b) (hrun : buildInode g build inode d b = .ok (num, b')) :
    ∃ rest dirs own, Builds g labels spare ∅ b b' (num :: rest) dirs own ∧
      ∀ v : FsView, (memView g own {k | k ∈ rest} b'.st).Le v →
        v.described num (modeOf g b'.st num ||| d.mode) d →
        v.MirrorsEntry host g.info.blockSize fuel inode d (num, rest) := by
  unfold buildInode at hrun
  split at hrun
  · rename_i htype
    rw [bind_eq_ok] at hrun
    obtain ⟨⟨k, st⟩, hfile, hrun⟩ := hrun
    cases hrun
    obtain ⟨hdoes, hholds, hmode⟩ := makeFile_spec hu hl hd.size hfile
    refine ⟨[], [], _, builds_one hr hdoes (List.nil_sublist _) ?_, fun v hle hdesc => ?_⟩
    · rw [hmode]
      exact ⟨iff_of_false List.not_mem_nil (by decide), by decide⟩
    · rw [hmode] at hdesc
      exact .inl ⟨htype, hle.file hholds, rfl, hdesc⟩
  · split at hrun
    · rename_i htype
      obtain ⟨rest, dirs, own, hbuilds, hmode, hmirrors⟩ := hbuild _ _ _ _ _ _ hinode hl hr hrun
      refine ⟨rest, dirs, own, hbuilds, fun v hle hdesc => ?_⟩
      rw [hmode] at hdesc
      exact .inr (.inl ⟨htype, hmirrors.mono hle, hdesc⟩)
    · split at hrun
      · rename_i htype
        rw [bind_eq_ok] at hrun
        obtain ⟨⟨k, st⟩, hlink, hrun⟩ := hrun
        cases hrun
        have hlen : (cString (d.link.getD [])).length + 1 < 2 ^ 32 := by
          have hle := (List.takeWhile_sublist (l := d.link.getD []) (· ≠ 0)).length_le
          have hlink := hd.link
          have hbs := hu.blockSize_le
          unfold cString
          omega
        obtain ⟨hdoes, hholds, hmode⟩ := makeLink_spec hu hl hlen hlink
        refine ⟨[], [], _, builds_one hr hdoes (List.nil_sublist _) ?_, fun v hle hdesc => ?_⟩
        · rw [hmode]
          exact ⟨iff_of_false List.not_mem_nil (by decide), by decide⟩
        · rw [hmode] at hdesc
          exact .inr (.inr ⟨htype, hle.link hholds, rfl, hdesc⟩)
      · cases hrun

/-- A number is entered, and the inode described. -/
theorem Builds.describe (hu : g.Usable) {rest : List ℕ} {num data place : ℕ} {d : SourceDentry}
    (h : Builds g labels spare ∅ b b' (num :: rest) dirs own) (hr : Registered g b)
    (hd : d.Storable g labels) (hdata : data < b.st.out.brk)
    (hrun : describeInode g num d { b' with st := setEntryInode data place num b'.st } = .ok b'') :
    Builds g labels spare {data} b b'' (num :: rest) dirs own ∧
      Persists g own {k | k ∈ rest} b'.st b''.st ∧
      HasPermissions g b''.st num (modeOf g b'.st num ||| d.mode) d.uid d.gid d.mtime ∧
      ∀ own', (∀ id ∈ own', id < b.st.out.brk) → (∀ e ∈ b.xattrs, e.2 ∉ own') →
        Persists g own' ∅ (setEntryInode data place num b'.st) b''.st := by
  have hn := hu.numbered
  have hfills := h.does.makes.fills
  have hin : InUse g b'.st num := h.inUse List.mem_cons_self
  have hset : Does g labels spare ∅ {data} [] [] b'.st (setEntryInode data place num b'.st) :=
    does_setBuffer _ h.does.laid _
  obtain ⟨hdoes, hcontent, hhas, hregistered, hnew⟩ :=
    describeInode_spec (b := { b' with st := setEntryInode data place num b'.st }) hu hd hset.laid hin
      (h.registered.mono hset.keeps) hrun
  -- what is registered for the inode is new
  have hids : ∀ id ∈ registeredFor g { b' with st := setEntryInode data place num b'.st } num,
      b.st.out.brk ≤ id := by
    intro id hid
    rcases h.xattrs _ hid with hold | hge
    · obtain ⟨k, hk, heq⟩ := hr.inUse _ hold
      rw [Geometry.inodeAt_injective hn hin.1 hk.1 heq] at hfills
      exact absurd hk (hfills.fresh k List.mem_cons_self)
    · exact hge
  have hkeeps : Keeps g {num} ({data} ∪ registeredFor g { b' with
      st := setEntryInode data place num b'.st } num) b'.st b''.st :=
    (hset.keeps.mono (Set.empty_subset _) Set.subset_union_left).trans
      (hdoes.keeps.mono subset_rfl Set.subset_union_right)
  have hrest : ∀ k ∈ rest, k ≠ num := fun k hk heq =>
    (List.nodup_cons.mp hfills.nodup).1 (heq ▸ hk)
  refine ⟨⟨?_, hregistered, ?_, ?_, ?_, h.dirs_sublist, ?_⟩, ?_, hhas, ?_⟩
  · have hall := ((h.does.mono subset_rfl (Set.empty_subset {data})).trans hset).trans_new hdoes
      (fun k hk hold => absurd hold (Set.mem_singleton_iff.mp hk ▸
        hfills.fresh num List.mem_cons_self)) fun id hid hlt => absurd (hids id hid) hlt.not_ge
    simpa using hall
  · intro e he
    rcases hnew e he with he | hge
    · exact h.xattrs e he
    · exact .inr (h.does.keeps.brk.trans hge)
  · exact fun id hid => ⟨(h.own_new hid).1, (h.own_new hid).2.trans_le hkeeps.brk⟩
  · intro e he hid
    rcases hnew e he with he | hge
    · exact h.own_free e he hid
    · exact absurd (h.own_new hid).2 hge.not_gt
  · intro k hk
    have htype : modeOf g b''.st k &&& S_IFMT = modeOf g b'.st k &&& S_IFMT := by
      by_cases heq : k = num
      · subst heq
        exact hcontent.type
      · have hsame : SameInode g b'.st b''.st k := hkeeps.inodes k (h.inUse hk) (by simpa using heq)
        rw [hsame.modeOf_eq hn]
    rw [htype]
    exact h.kinds k hk
  · refine hkeeps.persists hn ?_ (fun k hk => by simpa using hrest k hk) ?_
    · rintro id hid (rfl | hreg)
      · exact absurd (h.own_new hid).1 hdata.not_ge
      · exact h.own_free _ hreg hid
    · intro k hk _
      rw [Set.mem_singleton_iff.mp hk]
      exact ⟨hcontent.type, hcontent.sizeLo, hcontent.links, hcontent.map, hcontent.sizeHigh⟩
  · intro own' hlt hfree
    refine hdoes.keeps.persists hn (fun id hid hreg => ?_) (fun _ hk => absurd hk (Set.notMem_empty _))
      fun k hk _ => ?_
    · exact absurd (hids id hreg) (hlt id hid).not_ge
    · rw [Set.mem_singleton_iff.mp hk]
      exact hcontent

theorem modify_length_cons {α : Type*} (front : List α) (a : α) (rest : List α) (f : α → α) :
    (front ++ a :: rest).modify front.length f = front ++ f a :: rest := by
  induction front with
  | nil => rfl
  | cons c front ih => simp [ih]

/-- The loop over the entries of a directory: each gets an inode, and the directory its number. -/
theorem buildEntries_spec (hu : g.Usable)
    {build : Option (List UInt8) → List UInt8 → ℕ → Builder → Except Stop (ℕ × Builder)}
    (hbuild : BuildsDirectories g labels spare host fuel build) {inode links data : ℕ}
    (hinode : inode ≠ 0) {rs : List ℕ} {own₀ : Set ℕ} (todo : List (SourceDentry × ℕ)) :
    ∀ {front : List (ℕ × List UInt8 × ℕ)} {b b' : Builder},
      (∀ x ∈ todo, x.1.Storable g labels) → Laid g labels spare b.st → Registered g b →
      HoldsDir g own₀ b.st inode links (front ++ todo.map fun x => x.1.dentry.entry) data rs →
      rs.drop front.length = todo.map Prod.snd → (∀ id ∈ own₀, id < b.st.out.brk) →
      (∀ e ∈ b.xattrs, e.2 ∉ own₀) →
      buildEntries g build inode data todo b = .ok b' →
      ∃ subs dirs own, Builds g labels spare {data} b b' (FsView.inodesOf subs) dirs own ∧
        HoldsDir g own₀ b'.st inode links
          (front ++ todo.zipWith (fun x num => x.1.numbered num) (subs.map Prod.fst)) data rs ∧
        (∀ e ∈ b'.xattrs, e.2 ∉ own₀) ∧
        List.Forall₂ (fun x sub => (memView g own {k | k ∈ FsView.inodesOf subs} b'.st).MirrorsEntry
          host g.info.blockSize fuel inode x.1 sub) todo subs := by
  induction todo with
  | nil =>
      intro front b b' _ hl hr hdir _ _ hfree hrun
      cases hrun
      exact ⟨[], [], ∅, .refl hl hr, hdir, hfree, .nil⟩
  | cons x rest ih =>
      obtain ⟨d, place⟩ := x
      intro front b b' hstorable hl hr hdir hplaces hlt hfree hrun
      rw [List.forall_mem_cons] at hstorable
      simp only [buildEntries, bind_eq_ok] at hrun
      obtain ⟨⟨num, b₁⟩, hinodeRun, b₂, hdescribe, hrun⟩ := hrun
      obtain ⟨below, dirs, own, hbuilds, hentry⟩ :=
        buildInode_spec hu hbuild hinode hstorable.1 hl hr hinodeRun
      obtain ⟨hbuilds₂, hpersists, hhas, hparent⟩ :=
        hbuilds.describe hu hr hstorable.1 hdir.data_lt hdescribe
      -- the directory has the number of this entry now
      have hplace : rs[front.length]? = some place := by
        have hhead := congrArg List.head? hplaces
        rwa [List.head?_drop] at hhead
      have hbefore : Persists g own₀ ∅ b.st b₁.st :=
        hbuilds.persists hu.numbered fun _ _ => Set.notMem_empty _
      have hdir₁ := hdir.persists hbefore
      have hdir₂ := (hdir₁.setEntryInode hplace num).persists (hparent own₀ hlt hfree)
      rw [List.map_cons, modify_length_cons] at hdir₂
      have hfree₂ : ∀ e ∈ b₂.xattrs, e.2 ∉ own₀ := by
        intro e he hid
        rcases hbuilds₂.xattrs e he with he | hge
        · exact hfree e he hid
        · exact absurd (hlt _ hid) hge.not_gt
      obtain ⟨subs, dirs', own', hrest, hdir', hfree', hentries⟩ :=
        @ih (front ++ [d.numbered num]) b₂ b' hstorable.2 hbuilds₂.does.laid hbuilds₂.registered
          (by rw [List.append_assoc]; exact hdir₂)
          (by
            rw [List.length_append, List.length_singleton, ← List.drop_drop, hplaces]
            rfl)
          (fun id hid => (hlt id hid).trans_le hbuilds₂.does.keeps.brk) hfree₂ hrun
      -- and what has been made stays
      have hafter : ∀ done, Persists g own done b₂.st b'.st := by
        refine fun done => hrest.persists hu.numbered fun id hid heq => ?_
        rw [Set.mem_singleton_iff.mp heq] at hid
        exact absurd hdir.data_lt (hbuilds.own_new hid).1.not_gt
      refine ⟨(num, below) :: subs, _, _, hbuilds₂.trans hu.numbered hrest fun _ h _ => h, ?_,
        hfree', .cons ?_ ?_⟩
      · rw [List.append_assoc] at hdir'
        exact hdir'
      · have hbelow : {k | k ∈ below} ⊆ {k | k ∈ num :: below ++ FsView.inodesOf subs} :=
          fun k hk => List.mem_append_left _ (List.mem_cons_of_mem _ hk)
        have hnum : {num} ⊆ {k | k ∈ num :: below ++ FsView.inodesOf subs} :=
          Set.singleton_subset_iff.mpr (List.mem_append_left _ List.mem_cons_self)
        refine hentry _ (((memView_persists hu.numbered hpersists).trans
          (memView_persists hu.numbered (hafter _))).trans
          (memView_mono Set.subset_union_left hbelow)) ?_
        have hdescribed : (memView g own {num} b₂.st).described num (modeOf g b₁.st num ||| d.mode)
            d := ⟨rfl, hbuilds₂.inUse List.mem_cons_self, hhas⟩
        exact (memView_mono Set.subset_union_left hnum).described
          ((memView_persists hu.numbered (hafter _)).described hdescribed)
      · have hmade : {k | k ∈ FsView.inodesOf subs} ⊆
            {k | k ∈ num :: below ++ FsView.inodesOf subs} :=
          fun k hk => List.mem_append_right _ hk
        exact hentries.imp fun _ _ =>
          FsView.MirrorsEntry.mono (memView_mono Set.subset_union_right hmade)

/-- A directory with all of its entries, its inode being there. -/
theorem buildContents_spec (hu : g.Usable)
    {build : Option (List UInt8) → List UInt8 → ℕ → Builder → Except Stop (ℕ × Builder)}
    (hbuild : BuildsDirectories g labels spare host fuel build) {parent links data : ℕ}
    {inodes : List ℕ} {own₀ : Set ℕ} {dentries : List SourceDentry}
    (hstorable : ∀ d ∈ dentries, d.Storable g labels) (hl : Laid g labels spare b.st)
    (hr : Registered g b) (hdir : HoldsDir g own₀ b.st n links
      (directoryEntries n parent (dentries.map SourceDentry.dentry)) data (0 :: 12 :: inodes))
    (hlt : ∀ id ∈ own₀, id < b.st.out.brk) (hfree : ∀ e ∈ b.xattrs, e.2 ∉ own₀)
    (hrun : buildEntries g build n data (dentries.zip inodes) b = .ok b') :
    ∃ subs dirs own, Builds g labels spare {data} b b' (FsView.inodesOf subs) dirs own ∧
      HoldsDir g own₀ b'.st n links (filledEntries n parent dentries (subs.map Prod.fst)) data
        (0 :: 12 :: inodes) ∧
      (∀ e ∈ b'.xattrs, e.2 ∉ own₀) ∧
      List.Forall₂ ((memView g own {k | k ∈ FsView.inodesOf subs} b'.st).MirrorsEntry host
        g.info.blockSize fuel n) dentries subs := by
  have hn : n ≠ 0 := Nat.one_le_iff_ne_zero.mp hdir.is.inUse.1.1
  have hlength : dentries.length = inodes.length := by
    obtain ⟨_, _, _, _, _, _, hwritten⟩ := hdir.stored
    have heq := congrArg List.length hwritten.entries
    simpa [directoryEntries] using heq.symm
  have hfst : (dentries.zip inodes).map Prod.fst = dentries := List.map_fst_zip hlength.le
  have hsnd : (dentries.zip inodes).map Prod.snd = inodes := List.map_snd_zip hlength.ge
  have hentries : directoryEntries n parent (dentries.map SourceDentry.dentry) =
      [(u32 n, [46], EXT4_FT_DIR), (u32 parent, [46, 46], EXT4_FT_DIR)] ++
        (dentries.zip inodes).map fun x => x.1.dentry.entry := by
    conv_lhs => rw [← hfst]
    simp [directoryEntries, Function.comp_def]
  rw [hentries] at hdir
  obtain ⟨subs, dirs, own, hbuilds, hdir', hfree', hmirrors⟩ :=
    buildEntries_spec hu hbuild hn (dentries.zip inodes)
      (fun x hx => hstorable _ (hfst ▸ List.mem_map_of_mem hx)) hl hr hdir hsnd.symm hlt hfree hrun
  refine ⟨subs, dirs, own, hbuilds, ?_, hfree', ?_⟩
  · have hfilled : filledEntries n parent dentries (subs.map Prod.fst) =
        [(u32 n, [46], EXT4_FT_DIR), (u32 parent, [46, 46], EXT4_FT_DIR)] ++
          (dentries.zip inodes).zipWith (fun x num => x.1.numbered num) (subs.map Prod.fst) := by
      conv_lhs => rw [← hfst]
      simp [filledEntries, List.zipWith_map_left]
    rwa [hfilled]
  · rw [← List.forall₂_map_left_iff (f := Prod.fst), hfst] at hmirrors
    exact hmirrors

/-- `build_directory_structure` below another directory. -/
theorem buildsDirectories (hu : g.Usable) (hh : host.Fits g labels) :
    BuildsDirectories g labels spare host fuel (buildDirectoryStructure g host fuel) := by
  induction fuel with
  | zero =>
      intro fullPath dirPath dirInode b n b' _ _ _ hrun
      cases hrun
  | succ fuel ih =>
      intro fullPath dirPath dirInode b n b' hinode hl hr hrun
      simp only [buildDirectoryStructure, bind_eq_ok] at hrun
      obtain ⟨⟨dentries, dirs⟩, hlist, ⟨dir, st⟩, hmake, b₁, hentries, hrun⟩ := hrun
      cases hrun
      obtain ⟨hstorable, -, -⟩ := listDirectory_spec hu hh.toSane hlist
      have hnames : ∀ d ∈ dentries.map SourceDentry.dentry,
          1 ≤ d.filename.length ∧ d.filename.length ≤ 255 := by
        rw [List.forall_mem_map]
        exact fun d hd => (hstorable d hd).filename
      obtain ⟨hdoes, hdir, hmode⟩ := makeDirectoryIn_spec hu hl hinode hnames
        (hh.directories _ _ _ _ _ hlist) hmake
      have hone : Builds g labels spare ∅ b { b with st := st } [dir.inodeNum] [dir.inodeNum] _ :=
        builds_one hr hdoes (.refl _) ⟨iff_of_true (List.mem_singleton_self _)
          (by rw [hmode]; decide), by rw [hmode]; decide⟩
      obtain ⟨subs, dirs', own, hbuilds, hdir', -, hmirrors⟩ :=
        buildContents_spec hu ih hstorable hdoes.laid hone.registered hdir (fun id hid => hid.2)
          (fun e he hid => absurd (hr.lt e he) hid.1.not_gt) hentries
      have hall := hone.trans hu.numbered hbuilds fun id hid hlt => by
        rw [Set.mem_singleton_iff.mp hid] at hlt
        exact absurd hdir.data_own.1 hlt.not_ge
      refine ⟨FsView.inodesOf subs, _, _, hall, ?_, dentries, dirs, subs, hlist, ?_, ?_, rfl⟩
      · rw [← hmode]
        exact (hbuilds.does.keeps.inodes _ hdir.is.inUse (Set.notMem_empty _)).modeOf_eq hu.numbered
      · rw [if_neg hinode]
        exact (memView_mono Set.subset_union_left (Set.empty_subset _)).dir ⟨_, _, hdir'⟩
      · exact hmirrors.imp fun _ _ =>
          FsView.MirrorsEntry.mono (memView_mono Set.subset_union_right subset_rfl)

/-- What `build_directory_structure` leaves for the root directory, whose inode is there already. -/
structure BuildsRoot (g : Geometry) (labels : Prop) (spare : Set ℕ) (b b' : Builder)
    (made dirs : List ℕ) (own : Set ℕ) : Prop where
  does : Does g labels spare {EXT4_ROOT_INO} ∅ made (EXT4_ROOT_INO :: dirs) b.st b'.st
  registered : Registered g b'
  xattrs : ∀ e ∈ b'.xattrs, e ∈ b.xattrs ∨ b.st.out.brk ≤ e.2
  own_new : own ⊆ newBuffers b.st b'.st
  own_free : ∀ e ∈ b'.xattrs, e.2 ∉ own
  dirs_sublist : dirs.Sublist made
  root : modeOf g b'.st EXT4_ROOT_INO = S_IFDIR
  kinds : ∀ n ∈ made, (n ∈ dirs ↔ modeOf g b'.st n &&& S_IFMT = S_IFDIR) ∧
    modeOf g b'.st n &&& S_IFMT ≠ 0

/-- `build_directory_structure`, called for a whole filesystem. -/
theorem buildRoot_spec (hu : g.Usable) (hh : host.Fits g labels) {fullPath : Option (List UInt8)}
    {dirPath : List UInt8} (hl : Laid g labels spare b.st) (hn : InUse g b.st EXT4_ROOT_INO)
    (hr : Registered g b)
    (hrun : buildDirectoryStructure g host (fuel + 1) fullPath dirPath 0 b = .ok (n, b')) :
    n = EXT4_ROOT_INO ∧ ∃ made dirs own, BuildsRoot g labels spare b b' made dirs own ∧
      (memView g own {k | k ∈ made} b'.st).Mirrors host g.info.blockSize (fuel + 1) fullPath dirPath
        0 EXT4_ROOT_INO made := by
  simp only [buildDirectoryStructure, bind_eq_ok] at hrun
  obtain ⟨⟨dentries, dirs⟩, hlist, ⟨dir, st⟩, hmake, b₁, hentries, hrun⟩ := hrun
  cases hrun
  obtain ⟨hstorable, -, -⟩ := listDirectory_spec hu hh.toSane hlist
  have hnames : ∀ d ∈ dentries.map SourceDentry.dentry,
      1 ≤ d.filename.length ∧ d.filename.length ≤ 255 := by
    rw [List.forall_mem_map]
    exact fun d hd => (hstorable d hd).filename
  obtain ⟨hdoes, hnum, hdir, hmode⟩ := makeDirectoryIn_root hu hl hn hnames
    (hh.directories _ _ _ _ _ hlist) hmake
  rw [hnum] at hentries
  have hregistered : Registered g { b with st := st } := hr.mono hdoes.keeps
  have hroot : InUse g st EXT4_ROOT_INO := hdir.is.inUse
  obtain ⟨subs, dirs', own, hbuilds, hdir', hfree, hmirrors⟩ :=
    buildContents_spec hu (buildsDirectories hu hh) hstorable hdoes.laid hregistered hdir
      (fun id hid => hid.2) (fun e he hid => absurd (hr.lt e he) hid.1.not_gt) hentries
  have hbuffers : ∀ id ∈ ({dir.data} : Set ℕ), id < b.st.out.brk → id ∈ (∅ : Set ℕ) := by
    intro id hid hlt
    rw [Set.mem_singleton_iff.mp hid] at hlt
    exact absurd hdir.data_own.1 hlt.not_ge
  refine ⟨hnum, FsView.inodesOf subs, dirs', newBuffers b.st st ∪ own, ⟨?_, hbuilds.registered, ?_,
    ?_, ?_, hbuilds.dirs_sublist, ?_, hbuilds.kinds⟩, dentries, dirs, subs, hlist, ?_, ?_, rfl⟩
  · exact hdoes.trans_new hbuilds.does (fun _ hk => absurd hk (Set.notMem_empty _)) hbuffers
  · exact fun e he => (hbuilds.xattrs e he).imp_right hdoes.keeps.brk.trans
  · rintro id (hid | hid)
    · exact ⟨hid.1, hid.2.trans_le hbuilds.does.keeps.brk⟩
    · exact ⟨hdoes.keeps.brk.trans (hbuilds.own_new hid).1, (hbuilds.own_new hid).2⟩
  · rintro e he (hid | hid)
    · exact hfree e he hid
    · exact hbuilds.own_free e he hid
  · rw [← hmode]
    exact (hbuilds.does.keeps.inodes _ hroot (Set.notMem_empty _)).modeOf_eq hu.numbered
  · exact (memView_mono Set.subset_union_left (Set.empty_subset _)).dir ⟨_, _, hdir'⟩
  · exact hmirrors.imp fun _ _ =>
      FsView.MirrorsEntry.mono (memView_mono Set.subset_union_right subset_rfl)

end Growing

/-! ## The default tree -/

theorem length_dentryLoop {blockSize len : ℕ} (dentries : List Dentry) :
    ∀ {dentry offset last end' : ℕ} {data data' : Mem} {inodes : List ℕ},
      dentryLoop blockSize len dentries dentry offset data = .ok (inodes, last, end', data') →
      inodes.length = dentries.length := by
  induction dentries with
  | nil =>
      intro dentry offset last end' data data' inodes hrun
      cases hrun
      rfl
  | cons d rest ih =>
      intro dentry offset last end' data data' inodes hrun
      simp only [dentryLoop, bind_eq_ok] at hrun
      obtain ⟨⟨dentry', offset', data₁⟩, -, hrun⟩ := hrun
      split at hrun
      · cases hrun
      · simp only [bind_eq_ok] at hrun
        obtain ⟨⟨inodes', last', end₁, data₂⟩, hloop, hrun⟩ := hrun
        cases hrun
        exact congrArg Nat.succ (ih hloop)

/-- A directory has a place for each of its entries, and the root directory its number. -/
theorem makeDirectoryIn_zero {g : Geometry} {dentries : List Dentry} {dirs : ℕ} {s s' : State}
    {d : NewDirectory} (hrun : makeDirectoryIn g 0 dentries dirs s = .ok (d, s')) :
    d.inodeNum = EXT4_ROOT_INO ∧ d.inodes.length = dentries.length := by
  simp only [makeDirectoryIn, ne_eq, not_true_eq_false, if_false, fillDirectory, bind_eq_ok] at hrun
  obtain ⟨s₁, -, ⟨p, s₂⟩, -, ⟨data, s₃⟩, -, hrun⟩ := hrun
  cases data with
  | none => cases hrun
  | some data =>
      simp only [bind_eq_ok, addDentries] at hrun
      obtain ⟨⟨inodes, dentry, offset, bytes⟩, ⟨_, -, _, -, hloop⟩, hrun⟩ := hrun
      cases hrun
      exact ⟨rfl, length_dentryLoop dentries hloop⟩

/-- Below no directory there is nothing. -/
theorem buildDirectoryStructure_none (g : Geometry) (host : HostTree) (fuel : ℕ)
    (dirPath : List UInt8) {inode : ℕ} (hne : inode ≠ 0) (b : Builder) :
    buildDirectoryStructure g host (fuel + 1) none dirPath inode b = (do
      let (dir, st) ← makeDirectoryIn g inode [] 0 b.st
      .ok (dir.inodeNum, { b with st := st })) := by
  have hempty : listDirectory host g.info.blockSize none dirPath inode = .ok ([], 0) := by
    simp [listDirectory, scandir, hne, directories, bind_ok]
  rw [buildDirectoryStructure, hempty, bind_ok]
  simp only [List.map_nil, List.zip_nil_left, buildEntries, bind_ok]

/-- The two functions make the same of no directory at all, where nothing is labelled. -/
theorem buildDefaultDirectoryStructure_eq (g : Geometry) (host : HostTree)
    (hlabel : host.selabelLookup = none) (fuel : ℕ) (dirPath : List UInt8) (s : State) :
    buildDirectoryStructure g host (fuel + 2) none dirPath 0 ⟨s, []⟩ = (do
      let (root, s) ← buildDefaultDirectoryStructure g s
      .ok (root, ⟨s, []⟩)) := by
  have hfound : lostAndFound host.toHost dirPath = { SourceDentry.zero with
      filename := some lostAndFoundName
      path := some (dirPath ++ lostAndFoundName)
      mode := 0x1C0
      fileType := 2 } := by
    unfold lostAndFound
    rw [hlabel]
  have hroot : listDirectory host g.info.blockSize none dirPath 0 =
      .ok ([lostAndFound host.toHost dirPath], 1) := by
    simp [listDirectory, scandir, labelMissing, hlabel, directories, bind_ok]
  rw [buildDirectoryStructure, hroot, bind_ok, buildDefaultDirectoryStructure]
  simp only
  cases hmake : makeDirectoryIn g 0 ([lostAndFound host.toHost dirPath].map SourceDentry.dentry) 1 s with
  | error e =>
      rw [hfound] at hmake
      simp only [SourceDentry.dentry, List.map_cons, List.map_nil, Option.getD_some] at hmake
      change makeDirectoryIn g 0 [⟨lostAndFoundName, UInt8.ofNat EXT4_FT_DIR⟩] 1 s = _ at hmake
      rw [hmake]
      rfl
  | ok r =>
      obtain ⟨dir, s₁⟩ := r
      obtain ⟨hnum, hlength⟩ := makeDirectoryIn_zero hmake
      obtain ⟨place, hplace⟩ := List.length_eq_one_iff.mp hlength
      rw [hfound] at hmake ⊢
      change makeDirectoryIn g 0 [⟨lostAndFoundName, UInt8.ofNat EXT4_FT_DIR⟩] 1 s = _ at hmake
      rw [hmake]
      simp only [bind_ok, hplace, List.zip_cons_cons, List.zip_nil_right, buildEntries, buildInode,
        EXT4_FT_REG_FILE, EXT4_FT_DIR, Option.getD_some, List.headD_cons]
      have hne : dir.inodeNum ≠ 0 := by
        rw [hnum]
        decide
      rw [if_neg (by decide), if_pos trivial]
      show (do
        let b ← (do
          let r ← buildDirectoryStructure g host (fuel + 1) none
            (dirPath ++ lostAndFoundName ++ [47]) dir.inodeNum ⟨s₁, []⟩
          let b ← describeInode g r.1 _ ⟨setEntryInode dir.data place r.1 r.2.st, r.2.xattrs⟩
          Except.ok b)
        Except.ok (dir.inodeNum, b)) = _
      rw [buildDirectoryStructure_none _ _ _ _ hne]
      cases makeDirectoryIn g dir.inodeNum [] 0 s₁ with
      | error e => rfl
      | ok r =>
          simp only [bind_ok, describeInode, inodeSetSelinux, inodeSetCapabilities,
            SourceDentry.zero]
          cases inodeSetPermissions g r.1.inodeNum 0x1C0 0 0 0
              (setEntryInode dir.data place r.1.inodeNum r.2) with
          | error e => rfl
          | ok st => simp [bind_ok]

end SystemExtras.Ext4
