import SystemExtras.Ext4.ExtentTree
import SystemExtras.Ext4.Layout
import SystemExtras.Ext4.SourceListing

/-!
# Directories, files and links

A translation of the functions of `contents.c` that make an inode and what is in
it: `make_directory`, `make_file` and `make_link`.

`HoldsDir`, `HoldsFile` and `HoldsLink` say what is in memory for an inode that
has been made: the inode itself, the map of its blocks, and the chunks that will
fill them.  The buffers this rests on are in a set `own`; whoever goes on must
leave these alone (`Persists`).
-/

namespace SystemExtras.Ext4

open Mem

/-! ## The code -/

def S_IFREG : ℕ := 0x8000
def S_IFLNK : ℕ := 0xA000

/-- The assignments to a new inode that `make_directory`, `make_file` and `make_link` share. -/
def startInode (m : Mem) (base mode links : ℕ) : Mem :=
  m.assign [
    (Inode.iMode.at_ base, mode),
    (Inode.iLinksCount.at_ base, links),
    (Inode.iFlags.at_ base, (Inode.iFlags.at_ base).get m ||| EXT4_NOATIME_FL)]

/-- What `make_directory` returns, and what it leaves with its caller: the number of the inode, the
buffer of the directory, and where in it the inode numbers of the entries go. -/
structure NewDirectory where
  inodeNum : ℕ
  data : ℕ
  inodes : List ℕ

/-- `make_directory` from where it knows the number of the inode. -/
def fillDirectory (g : Geometry) (inodeNum dirInodeNum : ℕ) (dentries : List Dentry) (dirs : ℕ)
    (s : State) : Except Stop (NewDirectory × State) := do
  let len := directoryLen g.info.blockSize dentries
  let s ← addDirectory g inodeNum s
  let (p, s) ← getInode g inodeNum s
  let (data, s) ← inodeAllocateDataExtents g p len len s
  match data with
  | none => .error (.error "failed to allocate %u extents")
  | some data => do
      let s := s.setTable p.bg (startInode (s.table p.bg) p.base S_IFDIR (dirs + 2))
      let (inodes, dentry, offset, bytes) ← addDentries g.info.blockSize len inodeNum dirInodeNum
        dentries (s.out.buffers data).bytes
      let bytes := (DirEntry.recLen.at_ dentry).set bytes
        (u16 ((DirEntry.recLen.at_ dentry).get bytes + sub32 len offset))
      .ok (⟨inodeNum, data, inodes⟩, s.setBuffer data bytes)

/-- `make_directory`.  The root directory has an inode already. -/
def makeDirectoryIn (g : Geometry) (dirInodeNum : ℕ) (dentries : List Dentry) (dirs : ℕ)
    (s : State) : Except Stop (NewDirectory × State) :=
  if dirInodeNum ≠ 0 then do
    let (inodeNum, s) ← allocateInode g s
    if inodeNum = EXT4_ALLOCATE_FAILED then .error (.error "failed to allocate inode\n")
    else fillDirectory g inodeNum dirInodeNum dentries dirs s
  else fillDirectory g EXT4_ROOT_INO EXT4_ROOT_INO dentries dirs s

/-- `make_file`. -/
def makeFile (g : Geometry) (filename : List UInt8) (len : ℕ) (s : State) :
    Except Stop (ℕ × State) := do
  let (inodeNum, s) ← allocateInode g s
  if inodeNum = EXT4_ALLOCATE_FAILED then .error (.error "failed to allocate inode\n")
  else do
    let (p, s) ← getInode g inodeNum s
    let s ← if len > 0 then inodeAllocateFileExtents g p len filename s else .ok s
    .ok (inodeNum, s.setTable p.bg (startInode (s.table p.bg) p.base S_IFREG 1))

/-- The target of a slow link, copied into its block. -/
def storeLink (g : Geometry) (p : InodePtr) (link : List UInt8) (s : State) :
    Except Stop State := do
  let (data, s) ← inodeAllocateDataIndirect g p g.info.blockSize g.info.blockSize s
  match data with
  | none => .error .undefined
  | some data =>
      if (s.out.buffers data).size < link.length then .error .undefined
      else
        let s := s.setBuffer data ((s.out.buffers data).bytes.storeBytes 0 link)
        .ok (s.setTable p.bg
          ((Inode.iBlocksLo.at_ p.base).set (s.table p.bg) (g.info.blockSize / 512)))

/-- `make_link`. -/
def makeLink (g : Geometry) (link : List UInt8) (s : State) : Except Stop (ℕ × State) := do
  let len := u32 link.length
  let (inodeNum, s) ← allocateInode g s
  if inodeNum = EXT4_ALLOCATE_FAILED then .error (.error "failed to allocate inode\n")
  else do
    let (p, s) ← getInode g inodeNum s
    let m := (Inode.iSizeLo.at_ p.base).set (startInode (s.table p.bg) p.base S_IFLNK 1) len
    if u32 (len + 1) ≤ sizeofIBlock then
      .ok (inodeNum, s.setTable p.bg (m.storeBytes (p.base + Inode.iBlockOffset) link))
    else do
      let s ← storeLink g p link (s.setTable p.bg m)
      .ok (inodeNum, s)

/-! ## What is in an inode -/

/-- `i_mode` of inode `n`. -/
def modeOf (g : Geometry) (s : State) (n : ℕ) : ℕ :=
  (Inode.iMode.at_ (g.inodeAt n).base).get (s.table (g.groupOf n))

/-- `i_size_high` and `i_size_lo`. -/
def fileSize (m : Mem) (base : ℕ) : ℕ :=
  (Inode.iSizeHigh.at_ base).get m * 2 ^ 32 + (Inode.iSizeLo.at_ base).get m

/-- The type of an inode, and the number of links to it. -/
structure InodeIs (g : Geometry) (s : State) (n type links : ℕ) : Prop where
  inUse : InUse g s n
  type : modeOf g s n &&& S_IFMT = type
  links : (Inode.iLinksCount.at_ (g.inodeAt n).base).get (s.table (g.groupOf n)) = u16 links

/-- The extents of inode `n`, and chunks that put its `len` bytes of `source` where they say. -/
structure HoldsData (g : Geometry) (own : Set ℕ) (s : State) (n len : ℕ) (source : ℕ → Source)
    (ps : List Piece) (leaf : Option (ℕ × ℕ)) : Prop where
  flags : (Inode.iFlags.at_ (g.inodeAt n).base).get (s.table (g.groupOf n)) &&& EXT4_EXTENTS_FL ≠ 0
  size : fileSize (s.table (g.groupOf n)) (g.inodeAt n).base = len
  extents : HoldsExtents g.info.blockSize s.out (s.table (g.groupOf n)) (g.inodeAt n).base ps leaf
  leaf_own : ∀ l ∈ leaf, l.1 ∈ own
  blocks : lenOf ps = len ⌈/⌉ g.info.blockSize
  blocks_lt : lenOf ps < 2 ^ 32
  places : ∀ x < len, ∃ b, (blocksOf ps)[x / g.info.blockSize]? = some b ∧
    Places s.out.chunks source g.info.blockSize x (b * g.info.blockSize + x % g.info.blockSize)

/-- Inode `n` is a directory with the records `rs`, which say `entries`. -/
structure HoldsDir (g : Geometry) (own : Set ℕ) (s : State) (n links : ℕ)
    (entries : List (ℕ × List UInt8 × ℕ)) (data : ℕ) (rs : List ℕ) : Prop where
  is : InodeIs g s n S_IFDIR links
  stored : ∃ len ps leaf, HoldsData g own s n len (.buffer data) ps leaf ∧
    (∀ l ∈ leaf, l.1 ≠ data) ∧ g.info.blockSize ∣ len ∧
    Written g.info.blockSize (s.out.buffers data).bytes len entries rs
  data_own : data ∈ own
  data_lt : data < s.out.brk

/-- Inode `n` is a file with the given bytes of the host. -/
structure HoldsFile (g : Geometry) (own : Set ℕ) (s : State) (n : ℕ) (path : List UInt8)
    (size : ℕ) : Prop where
  is : InodeIs g s n S_IFREG 1
  empty : size = 0 → fileSize (s.table (g.groupOf n)) (g.inodeAt n).base = 0
  data : 0 < size → ∃ ps leaf, HoldsData g own s n size (.file path) ps leaf

/-- Inode `n` is a link, with its target in the inode or in a block. -/
structure HoldsLink (g : Geometry) (own : Set ℕ) (s : State) (n : ℕ) (link : List UInt8) :
    Prop where
  is : InodeIs g s n S_IFLNK 1
  size : fileSize (s.table (g.groupOf n)) (g.inodeAt n).base = link.length
  flags : (Inode.iFlags.at_ (g.inodeAt n).base).get (s.table (g.groupOf n)) &&& EXT4_EXTENTS_FL = 0
  fast : link.length + 1 ≤ sizeofIBlock →
    (s.table (g.groupOf n)).bytes ((g.inodeAt n).base + Inode.iBlockOffset) link.length = link
  slow : sizeofIBlock < link.length + 1 → link.length ≤ g.info.blockSize ∧
    ∃ data b, ((Inode.iBlock 0).at_ (g.inodeAt n).base).get (s.table (g.groupOf n)) = b ∧
      data ∈ own ∧ data < s.out.brk ∧ ⟨.buffer data 0, g.info.blockSize, b⟩ ∈ s.out.chunks ∧
      (s.out.buffers data).bytes.bytes 0 link.length = link

/-! ### Later calls -/

/-- What an inode says about its contents is the same. -/
structure SameContent (g : Geometry) (s s' : State) (n : ℕ) : Prop where
  type : modeOf g s' n &&& S_IFMT = modeOf g s n &&& S_IFMT
  sizeLo : (s.table (g.groupOf n)).SameOn (s'.table (g.groupOf n)) ((g.inodeAt n).base + 4)
    ((g.inodeAt n).base + 8)
  links : (s.table (g.groupOf n)).SameOn (s'.table (g.groupOf n)) ((g.inodeAt n).base + 26)
    ((g.inodeAt n).base + 28)
  map : (s.table (g.groupOf n)).SameOn (s'.table (g.groupOf n)) ((g.inodeAt n).base + 32)
    ((g.inodeAt n).base + 104)
  sizeHigh : (s.table (g.groupOf n)).SameOn (s'.table (g.groupOf n)) ((g.inodeAt n).base + 108)
    ((g.inodeAt n).base + 112)

/-- What was made before `s` is still there in `s'`, as far as it rests on buffers in `own`; the
inodes in `done` are not touched any more. -/
structure Persists (g : Geometry) (own done : Set ℕ) (s s' : State) : Prop where
  chunks : s.out.chunks ⊆ s'.out.chunks
  brk : s.out.brk ≤ s'.out.brk
  buffers : ∀ id ∈ own, id < s.out.brk → s'.out.buffers id = s.out.buffers id
  inUse : ∀ n, InUse g s n → InUse g s' n
  content : ∀ n, InUse g s n → SameContent g s s' n
  inodes : ∀ n ∈ done, InUse g s n → SameInode g s s' n

section Persists

variable {g : Geometry} {own own' done done' : Set ℕ} {s s' s'' : State} {n links len : ℕ}

theorem SameInode.modeOf_eq (hn : g.Numbered) (h : SameInode g s s' n) :
    modeOf g s' n = modeOf g s n := by
  have hsize := hn.inodeSize_ge
  unfold EXT4_GOOD_OLD_INODE_SIZE at hsize
  refine Field.get_congr (Mem.SameOn.symm h) ?_ ?_
  all_goals
    simp only [Field.at_, Inode.iMode]
    omega

theorem SameInode.sameContent (hn : g.Numbered) (h : SameInode g s s' n) :
    SameContent g s s' n := by
  have hsize := hn.inodeSize_ge
  unfold EXT4_GOOD_OLD_INODE_SIZE at hsize
  exact ⟨by rw [h.modeOf_eq hn], h.mono (by omega) (by omega), h.mono (by omega) (by omega),
    h.mono (by omega) (by omega), h.mono (by omega) (by omega)⟩

theorem SameContent.trans (h : SameContent g s s' n) (h' : SameContent g s' s'' n) :
    SameContent g s s'' n :=
  ⟨h'.type.trans h.type, h.sizeLo.trans h'.sizeLo, h.links.trans h'.links, h.map.trans h'.map,
    h.sizeHigh.trans h'.sizeHigh⟩

theorem Persists.mono (h : Persists g own done s s') (hown : own' ⊆ own) (hdone : done' ⊆ done) :
    Persists g own' done' s s' :=
  ⟨h.chunks, h.brk, fun id hid => h.buffers id (hown hid), h.inUse, h.content,
    fun n hn => h.inodes n (hdone hn)⟩

theorem Persists.trans (h : Persists g own done s s') (h' : Persists g own done s' s'') :
    Persists g own done s s'' where
  chunks := fun _ hc => h'.chunks (h.chunks hc)
  brk := h.brk.trans h'.brk
  buffers := fun id hid hlt =>
    (h'.buffers id hid (hlt.trans_le h.brk)).trans (h.buffers id hid hlt)
  inUse := fun n hn => h'.inUse n (h.inUse n hn)
  content := fun n hn => (h.content n hn).trans (h'.content n (h.inUse n hn))
  inodes := fun n hmem hn => (h.inodes n hmem hn).trans (h'.inodes n hmem (h.inUse n hn))

/-- A call that leaves the buffers alone, and what inodes say about their contents. -/
theorem Keeps.persists (hn : g.Numbered) {T B : Set ℕ} (h : Keeps g T B s s')
    (hB : ∀ id ∈ own, id ∉ B) (hdone : ∀ n ∈ done, n ∉ T)
    (hT : ∀ n ∈ T, InUse g s n → SameContent g s s' n) : Persists g own done s s' where
  chunks := h.chunks
  brk := h.brk
  buffers := fun id hid hlt => h.buffers id hlt (hB id hid)
  inUse := h.inUse
  content := by
    intro n hu
    by_cases hmem : n ∈ T
    · exact hT n hmem hu
    · exact (h.inodes n hu hmem).sameContent hn
  inodes := fun n hmem hu => h.inodes n hu (hdone n hmem)

theorem InodeIs.congr {type : ℕ} (h : InodeIs g s n type links) (hu : InUse g s' n)
    (hc : SameContent g s s' n) : InodeIs g s' n type links := by
  refine ⟨hu, hc.type.trans h.type, ?_⟩
  rw [← h.links]
  exact (Field.get_congr hc.links (by simp [Field.at_, Inode.iLinksCount])
    (by simp [Field.at_, Inode.iLinksCount])).symm

theorem InodeIs.persists {type : ℕ} (h : InodeIs g s n type links) (hp : Persists g own done s s') :
    InodeIs g s' n type links :=
  h.congr (hp.inUse n h.inUse) (hp.content n h.inUse)

theorem SameContent.fileSize_eq (h : SameContent g s s' n) :
    fileSize (s'.table (g.groupOf n)) (g.inodeAt n).base =
      fileSize (s.table (g.groupOf n)) (g.inodeAt n).base := by
  unfold fileSize
  rw [Field.get_congr h.sizeHigh, Field.get_congr h.sizeLo]
  all_goals simp [Field.at_, Inode.iSizeHigh, Inode.iSizeLo]

theorem SameContent.iFlags_eq (h : SameContent g s s' n) :
    (Inode.iFlags.at_ (g.inodeAt n).base).get (s'.table (g.groupOf n)) =
      (Inode.iFlags.at_ (g.inodeAt n).base).get (s.table (g.groupOf n)) := by
  refine (Field.get_congr h.map ?_ ?_).symm
  all_goals
    simp only [Field.at_, Inode.iFlags]
    omega

theorem HoldsData.congr {source : ℕ → Source} {ps : List Piece} {leaf : Option (ℕ × ℕ)}
    (h : HoldsData g own s n len source ps leaf) (hc : SameContent g s s' n)
    (hchunks : s.out.chunks ⊆ s'.out.chunks) (hbrk : s.out.brk ≤ s'.out.brk)
    (hbuffers : ∀ id ∈ own, id < s.out.brk → s'.out.buffers id = s.out.buffers id) :
    HoldsData g own s' n len source ps leaf := by
  refine ⟨hc.iFlags_eq ▸ h.flags, hc.fileSize_eq.trans h.size, ?_, h.leaf_own, h.blocks, h.blocks_lt,
    ?_⟩
  · refine h.extents.congr (hc.map.mono ?_ ?_) hchunks hbrk fun l hl => ?_
    · unfold Inode.iBlockOffset
      omega
    · unfold Inode.iBlockOffset
      omega
    · have hextents := h.extents
      have hown := h.leaf_own l hl
      obtain rfl : leaf = some l := hl
      cases hextents with
      | leaf _ _ _ _ lt _ => exact hbuffers _ hown lt
  · intro x hx
    obtain ⟨b, hb, hplaces⟩ := h.places x hx
    exact ⟨b, hb, hplaces.mono hchunks⟩

theorem HoldsData.persists {source : ℕ → Source} {ps : List Piece} {leaf : Option (ℕ × ℕ)}
    (h : HoldsData g own s n len source ps leaf) (hu : InUse g s n) (hp : Persists g own done s s') :
    HoldsData g own s' n len source ps leaf :=
  h.congr (hp.content n hu) hp.chunks hp.brk hp.buffers

theorem HoldsDir.mono {entries : List (ℕ × List UInt8 × ℕ)} {data : ℕ} {rs : List ℕ}
    (h : HoldsDir g own s n links entries data rs) (hsub : own ⊆ own') :
    HoldsDir g own' s n links entries data rs := by
  obtain ⟨len, ps, leaf, hdata, hrest⟩ := h.stored
  exact ⟨h.is, ⟨len, ps, leaf, { hdata with leaf_own := fun l hl => hsub (hdata.leaf_own l hl) },
    hrest⟩, hsub h.data_own, h.data_lt⟩

theorem HoldsDir.persists {entries : List (ℕ × List UInt8 × ℕ)} {data : ℕ} {rs : List ℕ}
    (h : HoldsDir g own s n links entries data rs) (hp : Persists g own done s s') :
    HoldsDir g own s' n links entries data rs := by
  obtain ⟨len, ps, leaf, hdata, hleaf, hwhole, hwritten⟩ := h.stored
  refine ⟨h.is.persists hp, ⟨len, ps, leaf, hdata.persists h.is.inUse hp, hleaf, hwhole, ?_⟩, h.data_own,
    h.data_lt.trans_le hp.brk⟩
  rw [hp.buffers data h.data_own h.data_lt]
  exact hwritten

theorem HoldsFile.persists {path : List UInt8} {size : ℕ} (h : HoldsFile g own s n path size)
    (hp : Persists g own done s s') : HoldsFile g own s' n path size := by
  refine ⟨h.is.persists hp, fun hzero => ?_, fun hpos => ?_⟩
  · exact (hp.content n h.is.inUse).fileSize_eq.trans (h.empty hzero)
  · obtain ⟨ps, leaf, hdata⟩ := h.data hpos
    exact ⟨ps, leaf, hdata.persists h.is.inUse hp⟩

theorem HoldsLink.persists {link : List UInt8} (h : HoldsLink g own s n link)
    (hp : Persists g own done s s') : HoldsLink g own s' n link := by
  have hc := hp.content n h.is.inUse
  refine ⟨h.is.persists hp, hc.fileSize_eq.trans h.size, hc.iFlags_eq ▸ h.flags, fun hfast => ?_,
    fun hslow => ?_⟩
  · refine Eq.trans (bytes_congr fun i hi => (hc.map _ ?_ ?_).symm) (h.fast hfast)
    all_goals
      unfold Inode.iBlockOffset
      unfold sizeofIBlock at hfast
      omega
  · obtain ⟨hle, data, b, hb, hown, hlt, hchunk, hbytes⟩ := h.slow hslow
    refine ⟨hle, data, b, ?_, hown, hlt.trans_le hp.brk, hp.chunks hchunk, ?_⟩
    · rw [← hb]
      refine (Field.get_congr hc.map ?_ ?_).symm
      all_goals simp [Field.at_, Inode.iBlock, Inode.iBlockOffset]
    · rw [hp.buffers data hown hlt]
      exact hbytes

end Persists

/-! ## The fields of a new inode -/

section Fields

variable {m m' : Mem} {base mode links len blockLen blockSize x lo hi : ℕ}

theorem startInode_apply (h₁ : x < base ∨ base + 2 ≤ x) (h₂ : x < base + 26 ∨ base + 28 ≤ x)
    (h₃ : x < base + 32 ∨ base + 36 ≤ x) : startInode m base mode links x = m x := by
  apply Mem.assign_apply_of_not_mem
  simp only [List.forall_mem_cons, List.not_mem_nil, false_implies, implies_true, and_true,
    Field.at_, Inode.iMode, Inode.iLinksCount, Inode.iFlags]
  omega

theorem startInode_sameOn (h₁ : hi ≤ base ∨ base + 2 ≤ lo) (h₂ : hi ≤ base + 26 ∨ base + 28 ≤ lo)
    (h₃ : hi ≤ base + 32 ∨ base + 36 ≤ lo) : (startInode m base mode links).SameOn m lo hi :=
  fun _ hlo hhi => startInode_apply (by omega) (by omega) (by omega)

theorem startInode_disjoint (base mode links flags : ℕ) :
    ([(Inode.iMode.at_ base, mode), (Inode.iLinksCount.at_ base, links),
      (Inode.iFlags.at_ base, flags)].map Prod.fst).Pairwise Field.Disjoint := by
  simp [Field.Disjoint, Field.at_, Inode.iMode, Inode.iLinksCount, Inode.iFlags]

@[simp] theorem iMode_startInode :
    (Inode.iMode.at_ base).get (startInode m base mode links) = u16 mode :=
  Field.get_assign (startInode_disjoint _ _ _ _) 0 rfl m

@[simp] theorem iLinksCount_startInode :
    (Inode.iLinksCount.at_ base).get (startInode m base mode links) = u16 links :=
  Field.get_assign (startInode_disjoint _ _ _ _) 1 rfl m

@[simp] theorem iFlags_startInode : (Inode.iFlags.at_ base).get (startInode m base mode links) =
    u32 ((Inode.iFlags.at_ base).get m ||| EXT4_NOATIME_FL) :=
  Field.get_assign (startInode_disjoint _ _ _ _) 2 rfl m

theorem fileSize_congr (h : m.SameOn m' (base + 4) (base + 8))
    (h' : m.SameOn m' (base + 108) (base + 112)) : fileSize m base = fileSize m' base := by
  unfold fileSize
  rw [Field.get_congr h', Field.get_congr h]
  all_goals simp [Field.at_, Inode.iSizeHigh, Inode.iSizeLo]

@[simp] theorem fileSize_startInode :
    fileSize (startInode m base mode links) base = fileSize m base :=
  fileSize_congr (startInode_sameOn (by omega) (by omega) (by omega))
    (startInode_sameOn (by omega) (by omega) (by omega))

theorem and_extents_ne_zero {flags : ℕ} :
    flags &&& EXT4_EXTENTS_FL ≠ 0 ↔ flags.testBit 19 = true := by
  have hpow : EXT4_EXTENTS_FL = 2 ^ 19 := by decide
  rw [hpow, Nat.and_two_pow]
  cases flags.testBit 19 <;> simp

/-- The flag for extents is not touched. -/
theorem extents_startInode :
    (Inode.iFlags.at_ base).get (startInode m base mode links) &&& EXT4_EXTENTS_FL ≠ 0 ↔
      (Inode.iFlags.at_ base).get m &&& EXT4_EXTENTS_FL ≠ 0 := by
  rw [and_extents_ne_zero, and_extents_ne_zero, iFlags_startInode, u32, Nat.testBit_mod_two_pow,
    Nat.testBit_or, show EXT4_NOATIME_FL.testBit 19 = false by decide]
  simp

theorem finishInode_frame (hx : x < base ∨ base + EXT4_GOOD_OLD_INODE_SIZE ≤ x) :
    finishInode blockSize m base len blockLen x = m x := by
  unfold EXT4_GOOD_OLD_INODE_SIZE at hx
  unfold finishInode
  apply Mem.assign_apply_of_not_mem
  simp only [List.forall_mem_cons, List.not_mem_nil, false_implies, implies_true, and_true,
    Field.at_, Inode.iFlags, Inode.iSizeLo, Inode.iSizeHigh, Inode.iBlocksLo, Inode.iBlocksHigh]
  omega

theorem finishInode_disjoint (base a b c d e : ℕ) :
    ([(Inode.iFlags.at_ base, a), (Inode.iSizeLo.at_ base, b), (Inode.iSizeHigh.at_ base, c),
      (Inode.iBlocksLo.at_ base, d), (Inode.iBlocksHigh.at_ base, e)].map Prod.fst).Pairwise
        Field.Disjoint := by
  simp [Field.Disjoint, Field.at_, Inode.iFlags, Inode.iSizeLo, Inode.iSizeHigh, Inode.iBlocksLo,
    Inode.iBlocksHigh]

/-- The size is the one that was asked for. -/
theorem fileSize_finishInode (hlen : len < 2 ^ 64) :
    fileSize (finishInode blockSize m base len blockLen) base = len := by
  have hlo : (Inode.iSizeLo.at_ base).get (finishInode blockSize m base len blockLen) = len % 2 ^ 32 :=
    Field.get_assign (finishInode_disjoint _ _ _ _ _ _) 1 rfl m
  have hhi : (Inode.iSizeHigh.at_ base).get (finishInode blockSize m base len blockLen) =
      len / 2 ^ 32 % 2 ^ 32 := Field.get_assign (finishInode_disjoint _ _ _ _ _ _) 2 rfl m
  unfold fileSize
  omega

theorem extents_finishInode :
    (Inode.iFlags.at_ base).get (finishInode blockSize m base len blockLen) &&&
      EXT4_EXTENTS_FL ≠ 0 := by
  have hflags : (Inode.iFlags.at_ base).get (finishInode blockSize m base len blockLen) =
      u32 ((Inode.iFlags.at_ base).get m ||| EXT4_EXTENTS_FL) :=
    Field.get_assign (finishInode_disjoint _ _ _ _ _ _) 0 rfl m
  rw [and_extents_ne_zero, hflags, u32, Nat.testBit_mod_two_pow, Nat.testBit_or,
    show EXT4_EXTENTS_FL.testBit 19 = true by decide]
  simp

end Fields

/-! ## Making an inode -/

/-- What is assumed of the sizes of a filesystem. -/
structure Geometry.Usable (g : Geometry) : Prop where
  roomy : g.Roomy
  small : g.Small
  built : g.Built
  numbered : g.Numbered
  blockSize_le : g.info.blockSize ≤ 4096
  blockSize_eq : ∃ k < 16, g.info.blockSize = 2 ^ k

/-- A new inode is zero. -/
theorem AllocatesInode.zero {g : Geometry} {s s' : State} {n x : ℕ} (h : AllocatesInode g s n s')
    (hinv : InodesInv g (s.bgs (g.groupOf n))) (hlo : (g.inodeAt n).base ≤ x)
    (hhi : x < (g.inodeAt n).base + g.info.inodeSize) : s'.table (g.groupOf n) x = 0 := by
  obtain ⟨bg, ⟨-, bitmaps, -, rfl⟩, rfl⟩ := h.eq
  unfold State.table
  rw [State.bgs_setBg_self]
  refine hinv.unused (g.indexOf n) h.index.ge x hlo ?_ h.hasInode.indexOf_lt
  rw [Nat.succ_mul]
  exact hhi

section Making

variable {g : Geometry} {labels : Prop} {spare : Set ℕ} {s s' : State} {n : ℕ}

theorem Geometry.Usable.blockSize_pos (hu : g.Usable) : 0 < g.info.blockSize := by
  have hge := hu.built.blockSize_ge
  omega

@[simp] theorem State.setTable_setTable (s : State) (i : ℕ) (m m' : Mem) :
    (s.setTable i m).setTable i m' = s.setTable i m' := by
  simp [State.setTable, State.setBg]

@[simp] theorem State.bytes_setBuffer_self (s : State) (id : ℕ) (bytes : Mem) :
    ((s.setBuffer id bytes).out.buffers id).bytes = bytes := by
  simp [State.setBuffer]

@[simp] theorem State.inodeTable_setTable (s : State) (i : ℕ) (m : Mem) :
    ((s.setTable i m).bgs i).inodeTable = some m := by
  rw [State.setTable, State.bgs_setBg_self]

theorem State.setTable_setBuffer (s : State) (i id : ℕ) (m bytes : Mem) :
    (s.setBuffer id bytes).setTable i m = (s.setTable i m).setBuffer id bytes := rfl

@[simp] theorem State.table_setBuffer (s : State) (i id : ℕ) (bytes : Mem) :
    (s.setBuffer id bytes).table i = s.table i := rfl

/-- `get_inode` for an inode in use. -/
theorem does_getInode (hu : g.Usable) (hl : Laid g labels spare s) (hn : InUse g s n) :
    ∃ s₁, getInode g n s = .ok (g.inodeAt n, s₁) ∧ Does g labels spare ∅ ∅ [] [] s s₁ ∧
      (s₁.bgs (g.groupOf n)).inodeTable ≠ none ∧ ∀ i, s₁.table i = s.table i :=
  ⟨_, getInode_eq hu.numbered hn.1 s,
    does_allocateBgInodeTable hu.roomy.fits hu.numbered hu.built hl hn.1.groupOf_lt,
    allocateBgInodeTable_ne_none _ s, fun i => allocateBgInodeTable_table _ i s⟩

theorem startInode_frame (hu : g.Usable) {m : Mem} {base mode links x : ℕ}
    (hx : x < base ∨ base + g.info.inodeSize ≤ x) : startInode m base mode links x = m x := by
  have hsize := hu.numbered.inodeSize_ge
  unfold EXT4_GOOD_OLD_INODE_SIZE at hsize
  exact startInode_apply (by omega) (by omega) (by omega)

/-- The first assignments to an inode, its blocks being known. -/
theorem does_startInode (hu : g.Usable) (hl : Laid g labels spare s) (hn : InUse g s n)
    (htable : (s.bgs (g.groupOf n)).inodeTable ≠ none) {m : Mem}
    (hframe : ∀ x, x < (g.inodeAt n).base ∨ (g.inodeAt n).base + g.info.inodeSize ≤ x →
      m x = s.table (g.groupOf n) x) (mode links : ℕ) :
    Does g labels spare {n} ∅ [] [] s
      (s.setTable (g.groupOf n) (startInode m (g.inodeAt n).base mode links)) :=
  does_setTable hu.numbered hl hn htable fun x hx => (startInode_frame hu hx).trans (hframe x hx)

theorem inodeIs_startInode (hn : InUse g s n) {m : Mem} {mode links : ℕ}
    (hs : s.table (g.groupOf n) = startInode m (g.inodeAt n).base mode links)
    (hmode : u16 mode = mode) (htype : mode &&& S_IFMT = mode) :
    InodeIs g s n mode links ∧ modeOf g s n = mode := by
  have heq : modeOf g s n = mode := by rw [modeOf, hs, iMode_startInode, hmode]
  refine ⟨⟨hn, ?_, ?_⟩, heq⟩
  · rw [heq, htype]
  · rw [hs, iLinksCount_startInode]

namespace StoresExtents

variable {len backingLen : ℕ} {source : ℕ → Source} {m : Mem} {new : List Chunk} {ps : List Piece}
  {leaf : Option (ℕ × ℕ)}

/-- Nothing but the inode is written. -/
theorem frame (hu : g.Usable)
    (h : StoresExtents g (g.inodeAt n) len backingLen source s s' m new ps leaf) {x : ℕ}
    (hx : x < (g.inodeAt n).base ∨ (g.inodeAt n).base + g.info.inodeSize ≤ x) :
    m x = s.table (g.groupOf n) x := by
  have hsize := hu.numbered.inodeSize_ge
  obtain ⟨m₁, blockLen, rfl, hframe⟩ := h.finish
  rw [finishInode_frame (by omega)]
  refine hframe x ?_
  unfold EXT4_GOOD_OLD_INODE_SIZE at hsize
  unfold Inode.iBlockOffset
  omega

/-- The blocks are taken, and the inode is filled in. -/
theorem does (hu : g.Usable)
    (h : StoresExtents g (g.inodeAt n) len backingLen source s s' m new ps leaf)
    (hl : Laid g labels spare s) (hn : InUse g s n)
    (htable : (s.bgs (g.groupOf n)).inodeTable ≠ none) {m' : Mem}
    (hframe : ∀ x, x < (g.inodeAt n).base ∨ (g.inodeAt n).base + g.info.inodeSize ≤ x →
      m' x = m x) : Does g labels spare {n} ∅ [] [] s (s'.setTable (g.groupOf n) m') := by
  have hbacks := h.backs.does hu.built hl
  have hsame := h.backs.inodes (g.groupOf n)
  have hwrite : Does g labels spare {n} ∅ [] [] s' (s'.setTable (g.groupOf n) m') := by
    refine does_setTable hu.numbered hbacks.laid (hbacks.keeps.inUse n hn)
      (hsame.inodeTable ▸ htable) fun x hx => (hframe x hx).trans ((h.frame hu hx).trans ?_)
    unfold State.table
    rw [hsame.inodeTable]
  exact (hbacks.mono (Set.empty_subset _) subset_rfl).trans hwrite

theorem does_startInode (hu : g.Usable)
    (h : StoresExtents g (g.inodeAt n) len backingLen source s s' m new ps leaf)
    (hl : Laid g labels spare s) (hn : InUse g s n)
    (htable : (s.bgs (g.groupOf n)).inodeTable ≠ none) (mode links : ℕ) :
    Does g labels spare {n} ∅ [] [] s
      (s'.setTable (g.groupOf n) (startInode m (g.inodeAt n).base mode links)) :=
  h.does hu hl hn htable fun _ => startInode_frame hu

/-- What is stored is there. -/
theorem holdsData (hu : g.Usable) {own : Set ℕ}
    (h : StoresExtents g (g.inodeAt n) len len source s s' m new ps leaf)
    (hlen : len ⌈/⌉ g.info.blockSize < 2 ^ 32) (hown : ∀ id, s.out.brk ≤ id → id < s'.out.brk → id ∈ own)
    {m' : Mem} (hflags : (Inode.iFlags.at_ (g.inodeAt n).base).get m &&& EXT4_EXTENTS_FL ≠ 0 →
      (Inode.iFlags.at_ (g.inodeAt n).base).get m' &&& EXT4_EXTENTS_FL ≠ 0)
    (hsize : fileSize m' (g.inodeAt n).base = fileSize m (g.inodeAt n).base)
    (hmap : m.SameOn m' ((g.inodeAt n).base + Inode.iBlockOffset)
      ((g.inodeAt n).base + Inode.iBlockOffset + 60)) :
    HoldsData g own (s'.setTable (g.groupOf n) m') n len source ps leaf := by
  have hpos := hu.blockSize_pos
  have hcover := le_writtenBlocks_mul hpos hlen
  have hwritten : writtenBlocks g len = len ⌈/⌉ g.info.blockSize :=
    (writtenBlocks_eq_iff hpos).mpr hlen
  have hlt : len < 2 ^ 64 := by
    have hmul := Nat.mul_le_mul (hwritten ▸ hlen.le : writtenBlocks g len ≤ 2 ^ 32) hu.blockSize_le
    omega
  have hholds : HoldsExtents g.info.blockSize s'.out m' (g.inodeAt n).base ps leaf :=
    h.holds.congr hmap (fun _ hc => hc) le_rfl fun _ _ => rfl
  obtain ⟨m₁, blockLen, rfl, -⟩ := h.finish
  refine ⟨?_, ?_, ?_, ?_, h.lenOf_eq.trans hwritten, ?_, ?_⟩
  · rw [State.table_setTable_self]
    exact hflags extents_finishInode
  · rw [State.table_setTable_self, hsize, fileSize_finishInode hlt]
  · rw [State.table_setTable_self]
    exact hholds
  · intro l hl
    have hholds := h.holds
    refine hown _ (h.leaf_new l hl) ?_
    obtain rfl : leaf = some l := hl
    cases hholds with
    | leaf _ _ _ _ lt _ => exact lt
  · rw [h.lenOf_eq, hwritten]
    exact hlen
  · intro x hx
    obtain ⟨b, hb, hplaces⟩ := h.places x hx
    refine ⟨b, hb, hplaces.mono ?_⟩
    show new ⊆ s'.out.chunks
    rw [h.backs.chunks]
    exact List.subset_append_right _ _

/-- What is stored is there when the inode has been started, too. -/
theorem holdsData_startInode (hu : g.Usable) {own : Set ℕ}
    (h : StoresExtents g (g.inodeAt n) len len source s s' m new ps leaf)
    (hlen : len ⌈/⌉ g.info.blockSize < 2 ^ 32) (hown : ∀ id, s.out.brk ≤ id → id < s'.out.brk → id ∈ own)
    (mode links : ℕ) :
    HoldsData g own (s'.setTable (g.groupOf n) (startInode m (g.inodeAt n).base mode links)) n len
      source ps leaf := by
  refine h.holdsData hu hlen hown extents_startInode.mpr fileSize_startInode ?_
  unfold Inode.iBlockOffset
  exact (startInode_sameOn (by omega) (by omega) (by omega)).symm

end StoresExtents

/-- The buffers that have been made between two states. -/
def newBuffers (s s' : State) : Set ℕ := {id | s.out.brk ≤ id ∧ id < s'.out.brk}

/-- `allocate_inode`, and `get_inode` for what it returns. -/
theorem newInode_cases (hu : g.Usable) (hl : Laid g labels spare s)
    (hrun : allocateInode g s = .ok (n, s')) (hne : n ≠ EXT4_ALLOCATE_FAILED) :
    Does g labels spare ∅ ∅ [n] [] s s' ∧ InUse g s' n ∧ ¬ InUse g s n ∧
      ∀ x, (g.inodeAt n).base ≤ x → x < (g.inodeAt n).base + g.info.inodeSize →
        s'.table (g.groupOf n) x = 0 := by
  rcases allocateInode_cases hu.numbered hl.inodes hrun with ⟨hfailed, -, -⟩ | halloc
  · exact absurd hfailed hne
  · have hdoes := halloc.does hu.roomy.fits hl
    refine ⟨hdoes, hdoes.makes.fills.mem n (List.mem_singleton_self n),
      hdoes.makes.fills.fresh n (List.mem_singleton_self n), fun x => ?_⟩
    exact halloc.zero (hl.inodes _ halloc.hasInode.groupOf_lt)

/-- An inode is handed out and filled in. -/
theorem Does.fillNew {s₁ : State} {made dirs : List ℕ} (h : Does g labels spare ∅ ∅ [n] [] s s₁)
    (h' : Does g labels spare {n} ∅ made dirs s₁ s') (hnew : ¬ InUse g s n) :
    Does g labels spare ∅ ∅ (n :: made) dirs s s' :=
  h.trans_new h' (fun _ hk hin => absurd (Set.mem_singleton_iff.mp hk ▸ hin) hnew)
    fun _ hid _ => hid

theorem get_eq_zero {m : Mem} {f : Field} (h : ∀ i < f.width, m (f.offset + i) = 0) :
    f.get m = 0 := by
  have hload := Mem.load_eq_of_bytes (m := m) (a := f.offset) (n := f.width) (v := 0) (by simpa using h)
  rwa [Nat.zero_mod] at hload

theorem fileSize_eq_zero {m : Mem} {base : ℕ} (h : ∀ x, base ≤ x → x < base + 128 → m x = 0) :
    fileSize m base = 0 := by
  have hhi : (Inode.iSizeHigh.at_ base).get m = 0 := get_eq_zero fun i hi => by
    simp only [Field.at_, Inode.iSizeHigh] at hi ⊢
    exact h _ (by omega) (by omega)
  have hlo : (Inode.iSizeLo.at_ base).get m = 0 := get_eq_zero fun i hi => by
    simp only [Field.at_, Inode.iSizeLo] at hi ⊢
    exact h _ (by omega) (by omega)
  unfold fileSize
  rw [hhi, hlo, Nat.zero_mul]

/-- `make_file` makes a file with the bytes of the one on the host. -/
theorem makeFile_spec (hu : g.Usable) {path : List UInt8} {len : ℕ} (hl : Laid g labels spare s)
    (hlen : len ⌈/⌉ g.info.blockSize < 2 ^ 32) (hrun : makeFile g path len s = .ok (n, s')) :
    Does g labels spare ∅ ∅ [n] [] s s' ∧ HoldsFile g (newBuffers s s') s' n path len ∧
      modeOf g s' n = S_IFREG := by
  simp only [makeFile, bind_eq_ok] at hrun
  obtain ⟨⟨k, s₁⟩, halloc, hrun⟩ := hrun
  by_cases hfailed : k = EXT4_ALLOCATE_FAILED
  · rw [if_pos hfailed] at hrun
    cases hrun
  · obtain ⟨hnew, hin, hfresh, hzero⟩ := newInode_cases hu hl halloc hfailed
    obtain ⟨s₂, hget, hgetdoes, htable, hsame⟩ := does_getInode hu hnew.laid hin
    have hin₂ := hgetdoes.keeps.inUse k hin
    have hfirst := hnew.trans hgetdoes
    rw [List.append_nil, List.append_nil] at hfirst
    simp only [if_neg hfailed, hget, bind_ok] at hrun
    by_cases hpos : len > 0
    · simp only [if_pos hpos, bind_eq_ok] at hrun
      obtain ⟨s₃, hextents, hrun⟩ := hrun
      have hlaid := hgetdoes.laid
      obtain ⟨s₄, m, new, ps, leaf, hstores, rfl⟩ := inodeAllocateFileExtents_spec hu.roomy hu.small
        hu.built hu.blockSize_le hlaid.groups hlaid.counted hlen hpos hextents
      have hdoes := hstores.does_startInode hu hlaid hin₂ htable S_IFREG 1
      simp only [Geometry.inodeAt, State.table_setTable_self, State.setTable_setTable] at hrun
      cases hrun
      obtain ⟨his, hmode⟩ := inodeIs_startInode (hdoes.keeps.inUse n hin₂)
        State.table_setTable_self (by decide) (by decide)
      refine ⟨hfirst.fillNew hdoes hfresh, ⟨his, fun hzero => absurd hzero hpos.ne', fun _ => ?_⟩,
        hmode⟩
      · have hown : ∀ id, s₂.out.brk ≤ id → id < s₄.out.brk → s.out.brk ≤ id ∧ id < s₄.out.brk :=
          fun id hid hlt => ⟨hfirst.keeps.brk.trans hid, hlt⟩
        exact ⟨ps, leaf, hstores.holdsData_startInode hu hlen hown _ _⟩
    · simp only [if_neg hpos] at hrun
      cases hrun
      have hdoes := does_startInode hu hgetdoes.laid hin₂ htable (fun _ _ => rfl) S_IFREG 1
      obtain ⟨his, hmode⟩ := inodeIs_startInode (hdoes.keeps.inUse n hin₂)
        State.table_setTable_self (by decide) (by decide)
      refine ⟨hfirst.fillNew hdoes hfresh, ⟨his, fun _ => ?_, fun h => absurd h hpos⟩, hmode⟩
      · show fileSize ((s₂.setTable (g.groupOf n) _).table _) _ = 0
        have hsize := hu.numbered.inodeSize_ge
        unfold EXT4_GOOD_OLD_INODE_SIZE at hsize
        rw [State.table_setTable_self, fileSize_startInode]
        refine fileSize_eq_zero fun x hlo hhi => ?_
        show s₂.table (g.groupOf n) x = 0
        rw [hsame]
        exact hzero x hlo (by omega)

theorem Geometry.Usable.four_dvd (hu : g.Usable) : 4 ∣ g.info.blockSize := by
  obtain ⟨k, -, hpow⟩ := hu.blockSize_eq
  have hge := hu.built.blockSize_ge
  have htwo : 2 ≤ k := by
    by_contra hlt
    have hmono := Nat.pow_le_pow_right (show 0 < 2 by decide) (show k ≤ 1 by omega)
    omega
  rw [hpow]
  exact pow_dvd_pow 2 htwo

/-- The records of a directory, with the last one padded to the end of the block. -/
theorem records_written (hu : g.Usable) {parent len offset dentry : ℕ} {dentries : List Dentry}
    {inodes : List ℕ} {data bytes : Mem}
    (hnames : ∀ d ∈ dentries, 1 ≤ d.filename.length ∧ d.filename.length ≤ 255)
    (hlen : directorySize g.info.blockSize dentries = len) (hlt : len < 2 ^ 32)
    (hrun : addDentries g.info.blockSize len n parent dentries data =
      .ok (inodes, dentry, offset, bytes)) :
    Written g.info.blockSize ((DirEntry.recLen.at_ dentry).set bytes
        (u16 ((DirEntry.recLen.at_ dentry).get bytes + sub32 len offset))) len
      (directoryEntries n parent dentries) (0 :: 12 :: inodes) := by
  have hge := hu.built.blockSize_ge
  have hle := hu.blockSize_le
  have hcover : dirEnd g.info.blockSize dentries 24 ≤ len := by
    have hceil := le_smul_ceilDiv (b := dirEnd g.info.blockSize dentries 24) hu.blockSize_pos
    rwa [smul_eq_mul, Nat.mul_comm, ← directorySize, hlen] at hceil
  obtain ⟨inodes', rs, last, bytes', hadd, hrs, hwritten⟩ := addDentries_spec (by omega) (by omega)
    hu.four_dvd (hlen ▸ hlt) hnames hcover n parent data
  rw [hrun] at hadd
  cases hadd
  have hfinish := hwritten.finish (by omega) hu.four_dvd
    (show directorySize g.info.blockSize dentries < 2 ^ 32 by rw [hlen]; exact hlt)
  rw [← directorySize, hlen, hrs] at hfinish
  exact hfinish

/-- `make_directory` fills the blocks of a directory with its entries. -/
theorem fillDirectory_spec (hu : g.Usable) {parent dirs : ℕ} {dentries : List Dentry}
    {d : NewDirectory} (hl : Laid g labels spare s) (hn : InUse g s n)
    (hnames : ∀ d ∈ dentries, 1 ≤ d.filename.length ∧ d.filename.length ≤ 255)
    (hsize : directorySize g.info.blockSize dentries < 2 ^ 32)
    (hrun : fillDirectory g n parent dentries dirs s = .ok (d, s')) :
    Does g labels spare {n} ∅ [] [n] s s' ∧ d.inodeNum = n ∧
      HoldsDir g (newBuffers s s') s' n (dirs + 2) (directoryEntries n parent dentries) d.data
        (0 :: 12 :: d.inodes) ∧ modeOf g s' n = S_IFDIR := by
  have hpos := hu.blockSize_pos
  have hdirlen : directoryLen g.info.blockSize dentries = directorySize g.info.blockSize dentries := by
    obtain ⟨k, hk, hpow⟩ := hu.blockSize_eq
    rw [hpow] at hsize ⊢
    exact (directoryLen_eq hk hnames hsize).2
  have hone : 24 ≤ directorySize g.info.blockSize dentries := by
    have hceil := le_smul_ceilDiv (b := dirEnd g.info.blockSize dentries 24) hpos
    rw [smul_eq_mul, Nat.mul_comm, ← directorySize] at hceil
    exact (le_dirEnd hpos dentries 24).trans hceil
  have hwhole : g.info.blockSize ∣ directorySize g.info.blockSize dentries := Dvd.intro_left _ rfl
  simp only [fillDirectory, hdirlen, bind_eq_ok] at hrun
  generalize hlen : directorySize g.info.blockSize dentries = len at hrun hsize hone hwhole
  obtain ⟨s₁, hadd, ⟨p, s₂⟩, hget, ⟨r, s₃⟩, hextents, hrun⟩ := hrun
  -- the inode
  have hdir := does_addDirectory hu.numbered hl hn.1 hadd
  have hn₁ := hdir.keeps.inUse n hn
  obtain ⟨s₂', hget', hgetdoes, htable, -⟩ := does_getInode hu hdir.laid hn₁
  rw [hget', Except.ok.injEq, Prod.mk.injEq] at hget
  obtain ⟨rfl, rfl⟩ := hget
  have hn₂ := hgetdoes.keeps.inUse n hn₁
  have hlaid := hgetdoes.laid
  -- its blocks
  have hceil : len ⌈/⌉ g.info.blockSize < 2 ^ 32 := by
    refine lt_of_le_of_lt ?_ hsize
    exact (ceilDiv_le_iff_le_mul hpos).mpr (Nat.le_mul_of_pos_left _ hpos)
  simp only at hextents
  obtain ⟨data, s₄, m, new, ps, leaf, hstores, rfl, rfl, hdatage, hdatalt, -, hleaf⟩ :=
    inodeAllocateDataExtents_spec hu.roomy hu.small hu.built hu.blockSize_le hlaid.groups
      hlaid.counted hceil le_rfl (by omega) hextents
  have hstart := hstores.does_startInode hu hlaid hn₂ htable S_IFDIR (dirs + 2)
  have hbrk : s.out.brk ≤ s₂'.out.brk := hdir.keeps.brk.trans hgetdoes.keeps.brk
  -- the records
  simp only [Geometry.inodeAt, State.table_setTable_self, State.setTable_setTable, bind_eq_ok]
    at hrun
  obtain ⟨⟨inodes, dentry, offset, bytes⟩, hrecords, hrun⟩ := hrun
  have hwritten := records_written hu hnames hlen hsize hrecords
  generalize hbytes : (DirEntry.recLen.at_ dentry).set bytes
    (u16 ((DirEntry.recLen.at_ dentry).get bytes + sub32 len offset)) = bytes' at hrun hwritten
  cases hrun
  have hwrite : Does g labels spare ∅ {data} [] [] _ _ := does_setBuffer _ hstart.laid bytes'
  have hdoes := ((hdir.trans hgetdoes).mono (Set.empty_subset _) subset_rfl).trans
    (hstart.trans_new hwrite (fun _ hk _ => absurd hk (Set.notMem_empty _)) (fun id hid hlt => by
      rw [Set.mem_singleton_iff.mp hid] at hlt
      exact absurd hdatage hlt.not_ge))
  have hown : ∀ id, s₂'.out.brk ≤ id → id < s₄.out.brk → s.out.brk ≤ id ∧ id < s₄.out.brk :=
    fun id hid hlt => ⟨hbrk.trans hid, hlt⟩
  have hholds := hstores.holdsData_startInode hu hceil hown S_IFDIR (dirs + 2)
  obtain ⟨his, hmode⟩ := inodeIs_startInode (hdoes.keeps.inUse n hn) State.table_setTable_self
    (by decide) (by decide)
  refine ⟨hdoes, rfl, ⟨his, ⟨len, ps, leaf, ⟨hholds.flags, hholds.size, ?_, hholds.leaf_own,
    hholds.blocks, hholds.blocks_lt, hholds.places⟩, hleaf, hwhole, ?_⟩, hown data hdatage hdatalt,
    hdatalt⟩, hmode⟩
  · refine hholds.extents.congr (fun _ _ _ => rfl) (fun _ hc => hc) le_rfl fun l hl => ?_
    exact Function.update_of_ne (hleaf l hl) _ _
  · rw [State.bytes_setBuffer_self]
    exact hwritten

/-- `make_directory` below another directory. -/
theorem makeDirectoryIn_spec (hu : g.Usable) {parent dirs : ℕ} {dentries : List Dentry}
    {d : NewDirectory} (hl : Laid g labels spare s) (hparent : parent ≠ 0)
    (hnames : ∀ d ∈ dentries, 1 ≤ d.filename.length ∧ d.filename.length ≤ 255)
    (hsize : directorySize g.info.blockSize dentries < 2 ^ 32)
    (hrun : makeDirectoryIn g parent dentries dirs s = .ok (d, s')) :
    Does g labels spare ∅ ∅ [d.inodeNum] [d.inodeNum] s s' ∧
      HoldsDir g (newBuffers s s') s' d.inodeNum (dirs + 2)
        (directoryEntries d.inodeNum parent dentries) d.data (0 :: 12 :: d.inodes) ∧
      modeOf g s' d.inodeNum = S_IFDIR := by
  simp only [makeDirectoryIn, if_pos hparent, bind_eq_ok] at hrun
  obtain ⟨⟨k, s₁⟩, halloc, hrun⟩ := hrun
  by_cases hfailed : k = EXT4_ALLOCATE_FAILED
  · rw [if_pos hfailed] at hrun
    cases hrun
  · simp only [if_neg hfailed] at hrun
    obtain ⟨hnew, hin, hfresh, -⟩ := newInode_cases hu hl halloc hfailed
    obtain ⟨hdoes, rfl, hholds, hmode⟩ := fillDirectory_spec hu hnew.laid hin hnames hsize hrun
    refine ⟨hnew.fillNew hdoes hfresh, hholds.mono fun id hid => ?_, hmode⟩
    exact ⟨hnew.keeps.brk.trans hid.1, hid.2⟩

/-- `make_directory` for the root directory. -/
theorem makeDirectoryIn_root (hu : g.Usable) {dirs : ℕ} {dentries : List Dentry} {d : NewDirectory}
    (hl : Laid g labels spare s) (hn : InUse g s EXT4_ROOT_INO)
    (hnames : ∀ d ∈ dentries, 1 ≤ d.filename.length ∧ d.filename.length ≤ 255)
    (hsize : directorySize g.info.blockSize dentries < 2 ^ 32)
    (hrun : makeDirectoryIn g 0 dentries dirs s = .ok (d, s')) :
    Does g labels spare {EXT4_ROOT_INO} ∅ [] [EXT4_ROOT_INO] s s' ∧ d.inodeNum = EXT4_ROOT_INO ∧
      HoldsDir g (newBuffers s s') s' EXT4_ROOT_INO (dirs + 2)
        (directoryEntries EXT4_ROOT_INO EXT4_ROOT_INO dentries) d.data (0 :: 12 :: d.inodes) ∧
      modeOf g s' EXT4_ROOT_INO = S_IFDIR := by
  rw [makeDirectoryIn, if_neg (by simp)] at hrun
  exact fillDirectory_spec hu hl hn hnames hsize hrun

/-- The target of a slow link goes to a block of its own. -/
theorem storeLink_spec (hu : g.Usable) {link : List UInt8} (hl : Laid g labels spare s)
    (hn : InUse g s n) (htable : (s.bgs (g.groupOf n)).inodeTable ≠ none)
    (hrun : storeLink g (g.inodeAt n) link s = .ok s') :
    Does g labels spare {n} ∅ [] [] s s' ∧ link.length ≤ g.info.blockSize ∧
      (∀ x, x < (g.inodeAt n).base + 28 ∨ (g.inodeAt n).base + 44 ≤ x ∨
        (g.inodeAt n).base + 32 ≤ x ∧ x < (g.inodeAt n).base + 40 →
          s'.table (g.groupOf n) x = s.table (g.groupOf n) x) ∧
      ∃ data b, ((Inode.iBlock 0).at_ (g.inodeAt n).base).get (s'.table (g.groupOf n)) = b ∧
        data ∈ newBuffers s s' ∧ ⟨.buffer data 0, g.info.blockSize, b⟩ ∈ s'.out.chunks ∧
        (s'.out.buffers data).bytes.bytes 0 link.length = link := by
  have hsize := hu.numbered.inodeSize_ge
  unfold EXT4_GOOD_OLD_INODE_SIZE at hsize
  simp only [storeLink, bind_eq_ok] at hrun
  obtain ⟨⟨r, s₁⟩, hindirect, hrun⟩ := hrun
  obtain ⟨data, b, s₂, m, hstores, rfl, rfl⟩ := inodeAllocateDataIndirect_spec hu.roomy hu.small
    hu.built hl.groups hl.counted hindirect
  have hbacks := hstores.backs.does hu.built hl
  have hbuffer : (s₂.setTable (g.inodeAt n).bg m).out.buffers data = ⟨g.info.blockSize, Mem.zero⟩ :=
    hstores.buffer
  simp only [hbuffer] at hrun
  by_cases hlong : g.info.blockSize < link.length
  · rw [if_pos hlong] at hrun
    cases hrun
  · rw [if_neg hlong] at hrun
    have hsame : s₂.table (g.groupOf n) = s.table (g.groupOf n) := by
      unfold State.table
      rw [(hstores.backs.inodes _).inodeTable]
    have htable₂ : (s₂.bgs (g.groupOf n)).inodeTable ≠ none := by
      rw [(hstores.backs.inodes _).inodeTable]
      exact htable
    have hset : ∀ x, x < (g.inodeAt n).base + 28 ∨ (g.inodeAt n).base + 44 ≤ x ∨
        (g.inodeAt n).base + 32 ≤ x ∧ x < (g.inodeAt n).base + 40 →
        (Inode.iBlocksLo.at_ (g.inodeAt n).base).set m (g.info.blockSize / 512) x =
          s.table (g.groupOf n) x := by
      intro x hx
      refine (Mem.store_apply_of_not_mem ?_).trans (hstores.frame x ?_)
      · simp only [Field.at_, Inode.iBlocksLo]
        omega
      · unfold Inode.iBlockOffset
        omega
    have hiBlock : ((Inode.iBlock 0).at_ (g.inodeAt n).base).get
        ((Inode.iBlocksLo.at_ (g.inodeAt n).base).set m (g.info.blockSize / 512)) = b := by
      rw [Field.get_set_of_disjoint, hstores.iBlock]
      simp [Field.Disjoint, Field.at_, Inode.iBlocksLo, Inode.iBlock, Inode.iBlockOffset]
    have heq : s' = (s₂.setTable (g.groupOf n) ((Inode.iBlocksLo.at_ (g.inodeAt n).base).set m
        (g.info.blockSize / 512))).setBuffer data (Mem.zero.storeBytes 0 link) := by
      simp only [Geometry.inodeAt, State.setTable_setBuffer, State.table_setBuffer,
        State.table_setTable_self, State.setTable_setTable, Except.ok.injEq] at hrun
      exact hrun.symm
    generalize (Inode.iBlocksLo.at_ (g.inodeAt n).base).set m (g.info.blockSize / 512) = m' at *
    subst heq
    have htabledoes := does_setTable hu.numbered hbacks.laid (hbacks.keeps.inUse n hn) htable₂
      fun x hx => (hset x (by omega)).trans (congrFun hsame.symm x)
    have hwrite : Does g labels spare ∅ {data} [] [] _ _ :=
      does_setBuffer _ htabledoes.laid (Mem.zero.storeBytes 0 link)
    refine ⟨((hbacks.mono (Set.empty_subset _) subset_rfl).trans htabledoes).trans_new hwrite
      (fun _ hk _ => absurd hk (Set.notMem_empty _)) fun id hid hlt => ?_, by omega, ?_, data, b,
      ?_, ⟨hstores.data_ge, hstores.data_lt⟩, ?_, ?_⟩
    · rw [Set.mem_singleton_iff.mp hid] at hlt
      exact absurd hstores.data_ge hlt.not_ge
    · intro x hx
      rw [State.table_setBuffer, State.table_setTable_self]
      exact hset x hx
    · rw [State.table_setBuffer, State.table_setTable_self]
      exact hiBlock
    · show _ ∈ s₂.out.chunks
      rw [hstores.backs.chunks]
      exact List.mem_append_right _ (List.mem_singleton_self _)
    · rw [State.bytes_setBuffer_self]
      exact Mem.bytes_storeBytes_self _ _ _

/-- An inode of a link, but for its target: the type, the length and no extents. -/
structure LinkInode (m : Mem) (base len : ℕ) : Prop where
  mode : (Inode.iMode.at_ base).get m = S_IFLNK
  links : (Inode.iLinksCount.at_ base).get m = u16 1
  size : fileSize m base = len
  flags : (Inode.iFlags.at_ base).get m &&& EXT4_EXTENTS_FL = 0

/-- The target does not matter. -/
theorem LinkInode.congr {m m' : Mem} {base len : ℕ} (h : LinkInode m base len)
    (hsame : ∀ x, x < base + 28 ∨ base + 100 ≤ x ∨ base + 32 ≤ x ∧ x < base + 40 → m' x = m x) :
    LinkInode m' base len := by
  have hget : ∀ f : Field, f.offset + f.width ≤ 28 ∨ 100 ≤ f.offset ∨
      32 ≤ f.offset ∧ f.offset + f.width ≤ 40 → (f.at_ base).get m' = (f.at_ base).get m := by
    intro f hf
    refine Mem.load_congr fun i hi => hsame _ ?_
    simp only [Field.at_] at hi ⊢
    omega
  obtain ⟨hmode, hlinks, hsize, hflags⟩ := h
  unfold fileSize at hsize
  refine ⟨?_, ?_, ?_, ?_⟩
  · rw [hget _ (by decide), hmode]
  · rw [hget _ (by decide), hlinks]
  · rw [fileSize, hget _ (by decide), hget _ (by decide), hsize]
  · rw [hget _ (by decide), hflags]

/-- The inode of a link before its target is stored. -/
theorem linkInode_start {m : Mem} {base len : ℕ} (hlen : len < 2 ^ 32)
    (hzero : ∀ x, base ≤ x → x < base + 128 → m x = 0) :
    LinkInode ((Inode.iSizeLo.at_ base).set (startInode m base S_IFLNK 1) len) base len := by
  generalize hm' : (Inode.iSizeLo.at_ base).set (startInode m base S_IFLNK 1) len = m'
  have hother : ∀ f : Field, f.Disjoint Inode.iSizeLo →
      (f.at_ base).get m' = (f.at_ base).get (startInode m base S_IFLNK 1) := by
    intro f hf
    rw [← hm']
    refine Field.get_set_of_disjoint ?_ _ _
    unfold Field.Disjoint at hf
    simp only [Field.Disjoint, Field.at_]
    omega
  have hflags : (Inode.iFlags.at_ base).get m = 0 := get_eq_zero fun i hi => by
    simp only [Field.at_, Inode.iFlags] at hi ⊢
    exact hzero _ (by omega) (by omega)
  have hhi : (Inode.iSizeHigh.at_ base).get (startInode m base S_IFLNK 1) = 0 := by
    refine get_eq_zero fun i hi => ?_
    simp only [Field.at_, Inode.iSizeHigh] at hi ⊢
    rw [startInode_apply (by omega) (by omega) (by omega)]
    exact hzero _ (by omega) (by omega)
  refine ⟨?_, ?_, ?_, ?_⟩
  · rw [hother _ (by decide), iMode_startInode]
    decide
  · rw [hother _ (by decide), iLinksCount_startInode]
  · have hlo : (Inode.iSizeLo.at_ base).get m' = len := by
      rw [← hm', Field.get_set_self]
      exact Nat.mod_eq_of_lt hlen
    unfold fileSize
    rw [hother _ (by decide), hhi, hlo, Nat.zero_mul, Nat.zero_add]
  · rw [hother _ (by decide), iFlags_startInode, hflags]
    decide

/-- `make_link` makes a link with the given target. -/
theorem makeLink_spec (hu : g.Usable) {link : List UInt8} (hl : Laid g labels spare s)
    (hlink : link.length + 1 < 2 ^ 32) (hrun : makeLink g link s = .ok (n, s')) :
    Does g labels spare ∅ ∅ [n] [] s s' ∧ HoldsLink g (newBuffers s s') s' n link ∧
      modeOf g s' n = S_IFLNK := by
  have hsize := hu.numbered.inodeSize_ge
  unfold EXT4_GOOD_OLD_INODE_SIZE at hsize
  simp only [makeLink, u32_of_lt ((Nat.lt_succ_self _).trans hlink), u32_of_lt hlink, bind_eq_ok]
    at hrun
  obtain ⟨⟨k, s₁⟩, halloc, hrun⟩ := hrun
  by_cases hfailed : k = EXT4_ALLOCATE_FAILED
  · rw [if_pos hfailed] at hrun
    cases hrun
  · obtain ⟨hnew, hin, hfresh, hzero⟩ := newInode_cases hu hl halloc hfailed
    obtain ⟨s₂, hget, hgetdoes, htable, hsame⟩ := does_getInode hu hnew.laid hin
    have hin₂ := hgetdoes.keeps.inUse k hin
    have hfirst := hnew.trans hgetdoes
    rw [List.append_nil, List.append_nil] at hfirst
    simp only [if_neg hfailed, hget, bind_ok] at hrun
    have hzero₂ : ∀ x, (g.inodeAt k).base ≤ x → x < (g.inodeAt k).base + 128 →
        s₂.table (g.groupOf k) x = 0 := by
      intro x hlo hhi
      rw [hsame]
      exact hzero x hlo (by omega)
    have hfields := linkInode_start ((Nat.lt_succ_self _).trans hlink) hzero₂
    generalize hm : (Inode.iSizeLo.at_ (g.inodeAt k).base).set (startInode
      (s₂.table (g.groupOf k)) (g.inodeAt k).base S_IFLNK 1) link.length = m at hfields
    have hframe : ∀ x, x < (g.inodeAt k).base ∨ (g.inodeAt k).base + g.info.inodeSize ≤ x →
        m x = s₂.table (g.groupOf k) x := by
      intro x hx
      rw [← hm]
      refine (Mem.store_apply_of_not_mem ?_).trans
        (startInode_apply (by omega) (by omega) (by omega))
      simp only [Field.at_, Inode.iSizeLo]
      omega
    simp only [show (g.inodeAt k).bg = g.groupOf k from rfl, hm] at hrun
    by_cases hfast : link.length + 1 ≤ sizeofIBlock
    · rw [if_pos hfast] at hrun
      cases hrun
      unfold sizeofIBlock at hfast
      have hstore : ∀ x, x < (g.inodeAt n).base + 40 ∨ (g.inodeAt n).base + 100 ≤ x →
          m.storeBytes ((g.inodeAt n).base + Inode.iBlockOffset) link x = m x := by
        intro x hx
        refine Mem.storeBytes_apply_of_not_mem ?_
        unfold Inode.iBlockOffset
        omega
      have hdoes := does_setTable hu.numbered hgetdoes.laid hin₂ htable
        (m := m.storeBytes ((g.inodeAt n).base + Inode.iBlockOffset) link)
        fun x hx => (hstore x (by omega)).trans (hframe x hx)
      have hfields' := hfields.congr fun x hx => hstore x (by omega)
      have hmode : modeOf g (s₂.setTable (g.groupOf n) (m.storeBytes ((g.inodeAt n).base +
          Inode.iBlockOffset) link)) n = S_IFLNK := by
        rw [modeOf, State.table_setTable_self, hfields'.mode]
      refine ⟨hfirst.fillNew hdoes hfresh, ⟨⟨hdoes.keeps.inUse n hin₂, ?_, ?_⟩, ?_, ?_, ?_, ?_⟩,
        hmode⟩
      · rw [hmode]
        decide
      · rw [State.table_setTable_self, hfields'.links]
      · rw [State.table_setTable_self, hfields'.size]
      · rw [State.table_setTable_self, hfields'.flags]
      · intro _
        rw [State.table_setTable_self]
        exact Mem.bytes_storeBytes_self _ _ _
      · intro hslow
        unfold sizeofIBlock at hslow
        omega
    · simp only [if_neg hfast, bind_eq_ok] at hrun
      obtain ⟨s₃, hstore, hrun⟩ := hrun
      cases hrun
      have htabledoes := does_setTable hu.numbered hgetdoes.laid hin₂ htable hframe
      obtain ⟨hdoes, hle, hsame', data, b, hb, hdata, hchunk, hbytes⟩ := storeLink_spec hu
        htabledoes.laid (htabledoes.keeps.inUse n hin₂) (by simp) hstore
      rw [State.table_setTable_self] at hsame'
      have hfields' : LinkInode (s'.table (g.groupOf n)) (g.inodeAt n).base link.length :=
        hfields.congr fun x hx => hsame' x (by omega)
      have hall := htabledoes.trans hdoes
      have htype : modeOf g s' n &&& S_IFMT = S_IFLNK := by
        rw [show modeOf g s' n = S_IFLNK from hfields'.mode]
        decide
      refine ⟨hfirst.fillNew hall hfresh, ⟨⟨hall.keeps.inUse n hin₂, htype, hfields'.links⟩,
        hfields'.size, hfields'.flags, fun h => absurd h hfast, fun _ => ⟨hle, data, b, hb, ?_,
        hdata.2, hchunk, hbytes⟩⟩, hfields'.mode⟩
      exact ⟨(hfirst.keeps.brk.trans htabledoes.keeps.brk).trans hdata.1, hdata.2⟩

end Making

end SystemExtras.Ext4
