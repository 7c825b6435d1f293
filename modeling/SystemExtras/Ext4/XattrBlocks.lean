import SystemExtras.Ext4.ExtentLimits
import SystemExtras.Ext4.Xattr

/-!
# Blocks for extended attributes

A translation of `get_inode` and `get_xattr_block_for_inode` and of `xattr_add`, which calls both:
an attribute that finds no room behind its inode goes into a block, which is taken from the
allocator, entered into the inode, queued, and remembered in the list `aux_info.xattrs`.

The block number is entered into the inode before anything can fail, and without a look at
whether `allocate_block` found one.  So a request is reported, and leaves the inode as it was, only
when the buffer for the block cannot be had; otherwise it goes well exactly if there is a free
block and the queue takes it (`staysSound_iff`).  The errors of the function itself return, as
they do under `force`.

## Strategy

Requests for attributes stand between other calls: those of the allocator, and whatever else
the tool does to inodes and buffers, which is taken to leave the blocks of attributes alone
(`LeavesXattrs`).  A run is a list of such calls, and `XattrInv` is what it keeps as long as every
request is granted:

* the invariant of the allocator, of which attributes use that blocks in use are not handed out
  again;
* whatever is queued is queued for blocks in use, and not for the one that `reduce_allocation`
  may still give back;
* an inode names a block exactly if the list has an entry for it, and then the block is its own
  and has the registered header in it.

A call of the allocator keeps it because it looks at nothing that attributes change (`SameBlocks`)
and changes nothing that they look at (`SameTables`).  For a request `XattrInv.reportsFailure_iff`
compares what is reported with what is granted: the new block is one that nothing had queued, so
entering it changes one inode and no other (`XattrInv.granted`), and when nothing was found the
inode names block `EXT4_ALLOCATE_FAILED` all the same.  The run lemma follows call by call
(`XattrInv.run_iff`).
-/

namespace SystemExtras.Ext4

open Mem

/-! ## State -/

namespace XattrHeader

def hMagic : Field := ⟨0, 4⟩
def hRefcount : Field := ⟨4, 4⟩
def hBlocks : Field := ⟨8, 4⟩

end XattrHeader

/-- An inode as `get_inode` returns it: a group, and where the inode starts in its table. -/
structure InodePtr where
  bg : ℕ
  base : ℕ
  deriving DecidableEq, Repr

/-- The allocator with its bookkeeping, and `aux_info.xattrs` from its head on: an inode and the
number of the buffer that is its block. -/
structure XattrState where
  run : RunState
  xattrs : List (InodePtr × ℕ)

/-- What the library answers: whether `calloc` finds the memory, and whether
`sparse_file_add_data` returns zero. -/
structure Answers where
  calloc : Bool
  addData : Bool
  deriving DecidableEq, Repr

namespace State

variable (s : State)

/-- The inode table of a group; before it is there its inodes are empty. -/
def table (bg : ℕ) : Mem := (s.bgs bg).inodeTable.getD Mem.zero

/-- Assigns to the bytes of an inode table. -/
def setTable (bg : ℕ) (m : Mem) : State := s.setBg bg { s.bgs bg with inodeTable := some m }

def iBlocksLo (p : InodePtr) : ℕ := (Inode.iBlocksLo.at_ p.base).get (s.table p.bg)

def iFileAclLo (p : InodePtr) : ℕ := (Inode.iFileAclLo.at_ p.base).get (s.table p.bg)

end State

/-- The bookkeeping of a call of `allocate_block` that has returned `blockNum`. -/
def RunState.handOut (s : RunState) (blockNum : ℕ) (st : State) : RunState :=
  ⟨st, if blockNum = EXT4_ALLOCATE_FAILED then s.held else blockNum :: s.held, none⟩

namespace XattrState

variable (s : XattrState)

/-- Goes on with another state of the allocator; an allocation can no longer be reduced. -/
def setSt (st : State) : XattrState := { s with run := { s.run with st := st, last := none } }

/-- `xattr_list_find`. -/
def xattrListFind (p : InodePtr) : Option ℕ :=
  (s.xattrs.find? fun element => element.1 = p).map Prod.snd

end XattrState

/-! ## The functions -/

/-- `allocate_bg_inode_table`. -/
def allocateBgInodeTable (g : Geometry) (bg : ℕ) (s : State) : State :=
  match (s.bgs bg).inodeTable with
  | some _ => s
  | none =>
      let block := u32 ((s.bgs bg).firstBlock + 2)
      let block := if (s.bgs bg).hasSuperblock then u32 (block + g.superBlocks) else block
      (s.addChunk (.inodeTable bg) (u32 (g.aux.inodeTableBlocks * g.info.blockSize)) block).setBg bg
        { s.bgs bg with
          inodeTable := some Mem.zero
          flags := (s.bgs bg).flags &&& (2 ^ 16 - 1 - EXT4_BG_INODE_UNINIT) }

/-- `get_inode`. -/
def getInode (g : Geometry) (inode : ℕ) (s : State) : Except Stop (InodePtr × State) :=
  let inode := sub32 inode 1
  if g.info.inodesPerGroup = 0 then .error .undefined
  else
    let bg := inode / g.info.inodesPerGroup
    if g.aux.groups ≤ bg then .error .undefined
    else
      .ok (⟨bg, u32 (inode % g.info.inodesPerGroup * g.info.inodeSize)⟩,
        allocateBgInodeTable g bg s)

/-- The bytes of a new block. -/
def newXattrHeader : Mem := Mem.zero.assign
  [(XattrHeader.hMagic, EXT4_XATTR_MAGIC), (XattrHeader.hRefcount, 1), (XattrHeader.hBlocks, 1)]

/-- What `get_xattr_block_for_inode` enters into the inode. -/
def enterXattrBlock (blockSize : ℕ) (p : InodePtr) (blockNum : ℕ) (s : State) : State :=
  s.setTable p.bg ((s.table p.bg).assign
    [(Inode.iBlocksLo.at_ p.base, u32 (s.iBlocksLo p + blockSize / 512)),
      (Inode.iFileAclLo.at_ p.base, blockNum)])

/-- `get_xattr_block_for_inode`: the number of the buffer that it returns. -/
def getXattrBlockForInode (g : Geometry) (p : InodePtr) (a : Answers) (s : XattrState) :
    Except Stop (Option ℕ × XattrState) :=
  match s.xattrListFind p with
  | some block => .ok (some block, s)
  | none => do
      let (blockNum, st) ← allocateBlock g s.run.st
      let s := { s with run := s.run.handOut blockNum st }
      if a.calloc = false then .ok (none, s)
      else
        let (block, st) := st.calloc g.info.blockSize
        let st := enterXattrBlock g.info.blockSize p blockNum (st.setBuffer block newXattrHeader)
        if a.addData = false then .ok (none, s.setSt st)
        else
          let s := s.setSt (st.addChunk (.buffer block 0) g.info.blockSize blockNum)
          .ok (some block, { s with xattrs := (p, block) :: s.xattrs })

/-- The size of the buffer of an inode table. -/
def Geometry.tableSize (g : Geometry) : ℕ := g.aux.inodeTableBlocks * g.info.blockSize

/-- The first part of `xattr_add`, `get_inode` and `xattr_addto_inode`: whether that was enough, and
the inode. -/
def xattrAddAtInode (g : Geometry) (inode : ℕ) (x : Xattr) (s : XattrState) :
    Except Stop (Bool × InodePtr × XattrState) := do
  let (p, st) ← getInode g inode s.run.st
  let (ok, m) ← xattrAddtoInode g.tableSize p.base g.info.inodeSize x (st.table p.bg)
  .ok (ok, p, s.setSt (st.setTable p.bg m))

/-- The second part, `xattr_addto_block` together with the call that finds its block. -/
def xattrAddInBlock (g : Geometry) (p : InodePtr) (x : Xattr) (a : Answers) (s : XattrState) :
    Except Stop (Bool × XattrState) := do
  let (header, s) ← getXattrBlockForInode g p a s
  match header with
  | none => .ok (false, s)
  | some block => do
      let (ok, m) ← xattrAddtoBlock g.info.blockSize 0 g.info.blockSize x
        (s.run.st.out.buffers block).bytes
      .ok (ok, s.setSt (s.run.st.setBuffer block m))

/-- `xattr_add`: whether it returns zero. -/
def xattrAdd (g : Geometry) (inode : ℕ) (x : Xattr) (a : Answers) (s : XattrState) :
    Except Stop (Bool × XattrState) := do
  let (ok, p, s) ← xattrAddAtInode g inode x s
  if ok then .ok (true, s) else xattrAddInBlock g p x a s

/-! ## What is to hold -/

/-- The address of an inode. -/
def IsInode (g : Geometry) (p : InodePtr) : Prop :=
  p.bg < g.aux.groups ∧ ∃ k < g.info.inodesPerGroup, p.base = k * g.info.inodeSize

/-- The blocks that a chunk fills, the last perhaps in part. -/
def Chunk.blocks (blockSize : ℕ) (c : Chunk) : List ℕ := List.range' c.block (c.len ⌈/⌉ blockSize)

/-- A block of extended attributes begins like this. -/
structure IsXattrHeader (m : Mem) : Prop where
  hMagic : XattrHeader.hMagic.get m = EXT4_XATTR_MAGIC
  hRefcount : XattrHeader.hRefcount.get m = 1
  hBlocks : XattrHeader.hBlocks.get m = 1

/-- Block `b` is the inode's: it has been handed out, and what is queued for it, and nothing else
is, is the header that is registered for the inode. -/
structure HoldsXattrs (g : Geometry) (s : XattrState) (p : InodePtr) (b : ℕ) : Prop where
  lt : b < g.aux.lenBlocks
  held : b ∈ s.run.held
  header : ∃ block, s.xattrListFind p = some block ∧
    IsXattrHeader (s.run.st.out.buffers block).bytes ∧
    ⟨.buffer block 0, g.info.blockSize, b⟩ ∈ s.run.st.out.chunks ∧
    ∀ c ∈ s.run.st.out.chunks, b ∈ c.blocks g.info.blockSize →
      c = ⟨.buffer block 0, g.info.blockSize, b⟩

/-- Each inode that names a block has that block to itself. -/
def XattrsSound (g : Geometry) (s : XattrState) : Prop :=
  ∀ p, IsInode g p → s.run.st.iFileAclLo p ≠ 0 → HoldsXattrs g s p (s.run.st.iFileAclLo p) ∧
    ∀ q, IsInode g q → s.run.st.iFileAclLo q = s.run.st.iFileAclLo p → q = p

/-- Some group has a free block. -/
def HasFreeBlock (g : Geometry) (s : State) : Prop := ∃ i < g.aux.groups, 0 < (s.bgs i).freeBlocks

instance (g : Geometry) (s : State) : Decidable (HasFreeBlock g s) :=
  inferInstanceAs (Decidable (∃ i < g.aux.groups, _))

/-- A request of `xattr_add` for an inode without a block that fails is reported, and the inode is
left as it was. -/
def ReportsFailure (g : Geometry) (inode : ℕ) (x : Xattr) (a : Answers) (s : XattrState) : Prop :=
  ∀ p s₁, xattrAddAtInode g inode x s = .ok (false, p, s₁) → s₁.xattrListFind p = none →
    ¬ HasFreeBlock g s₁.run.st ∨ a.addData = false →
    ∃ s₂, getXattrBlockForInode g p a s₁ = .ok (none, s₂) ∧
      xattrAdd g inode x a s = .ok (false, s₂) ∧
      s₂.run.st.iBlocksLo p = s₁.run.st.iBlocksLo p ∧
        s₂.run.st.iFileAclLo p = s₁.run.st.iFileAclLo p

/-- The request is given up before it has done anything, or nothing is in its way. -/
def Granted (g : Geometry) (inode : ℕ) (x : Xattr) (a : Answers) (s : XattrState) : Prop :=
  match xattrAddAtInode g inode x s with
  | .ok (false, p, s₁) => s₁.xattrListFind p = none →
      a.calloc = false ∨ HasFreeBlock g s₁.run.st ∧ a.addData = true
  | _ => True

instance (g : Geometry) (inode : ℕ) (x : Xattr) (a : Answers) (s : XattrState) :
    Decidable (Granted g inode x a s) :=
  match h : xattrAddAtInode g inode x s with
  | .ok (false, p, s₁) =>
      decidable_of_iff (s₁.xattrListFind p = none →
        a.calloc = false ∨ HasFreeBlock g s₁.run.st ∧ a.addData = true) (by rw [Granted, h])
  | .ok (true, _) => .isTrue (by simp [Granted, h])
  | .error _ => .isTrue (by simp [Granted, h])

/-! ## Runs -/

/-- Of a group, what the block allocator works with is the same. -/
structure SameBlocks (g : Geometry) (bg bg' : BlockGroupInfo) : Prop where
  firstBlock : bg'.firstBlock = bg.firstBlock
  headerBlocks : bg'.headerBlocks = bg.headerBlocks
  hasSuperblock : bg'.hasSuperblock = bg.hasSuperblock
  bitmap : ∀ b < g.info.blocksPerGroup, bg'.bitmaps.bit b = bg.bitmaps.bit b
  freeBlocks : bg'.freeBlocks = bg.freeBlocks
  firstFreeBlock : bg'.firstFreeBlock = bg.firstFreeBlock
  dataBlocksUsed : bg'.dataBlocksUsed = bg.dataBlocksUsed

/-- What the rest of the program does between the calls below: it allocates and fills in inodes and
queues data, but does not touch the blocks of extended attributes. -/
structure LeavesXattrs (g : Geometry) (s s' : XattrState) : Prop where
  held : s'.run.held = s.run.held
  last : s'.run.last = none
  xattrs : s'.xattrs = s.xattrs
  groups : ∀ i < g.aux.groups, SameBlocks g (s.run.st.bgs i) (s'.run.st.bgs i)
  iFileAclLo : ∀ p, IsInode g p → s'.run.st.iFileAclLo p = s.run.st.iFileAclLo p
  headers : ∀ e ∈ s.xattrs, (s'.run.st.out.buffers e.2).bytes.SameOn
    (s.run.st.out.buffers e.2).bytes 0 sizeofXattrHeader
  brk : s.run.st.out.brk ≤ s'.run.st.out.brk
  chunks : ∃ new, s'.run.st.out.chunks = s.run.st.out.chunks ++ new ∧
    ∀ c ∈ new, ∀ b ∈ c.blocks g.info.blockSize, b ∈ taken g s.run.st.bgs ∧
      ∀ p, IsInode g p → s.run.st.iFileAclLo p ≠ 0 → s.run.st.iFileAclLo p ≠ b

/-- The steps of a run. -/
inductive XattrCall where
  | allocator (c : Call)
  | xattrAdd (inode : ℕ) (x : Xattr) (a : Answers)
  | other (s : XattrState)

namespace XattrCall

/-- One step. -/
def exec (g : Geometry) (s : XattrState) : XattrCall → Except Stop XattrState
  | allocator c => do
      let run ← c.exec g s.run
      .ok { s with run := run }
  | xattrAdd inode x a => do
      let (_, s) ← Ext4.xattrAdd g inode x a s
      .ok s
  | other s' => .ok s'

/-- Names are as short as those of the two callers, `"selinux"` and `"capability"`. -/
def Valid (g : Geometry) (s : XattrState) : XattrCall → Prop
  | allocator c => c.Valid
  | xattrAdd _ x _ => x.name.length ≤ 255
  | other s' => LeavesXattrs g s s'

/-- A failure is reported. -/
def Reports (g : Geometry) (s : XattrState) : XattrCall → Prop
  | xattrAdd inode x a => ReportsFailure g inode x a s
  | _ => True

/-- A request is granted. -/
def Meets (g : Geometry) (s : XattrState) : XattrCall → Prop
  | xattrAdd inode x a => Granted g inode x a s
  | _ => True

end XattrCall

/-- Every step is one the program can make where it is made. -/
def ValidRun (g : Geometry) : List XattrCall → XattrState → Prop
  | [], _ => True
  | c :: calls, s => c.Valid g s ∧ ∀ s', c.exec g s = .ok s' → ValidRun g calls s'

/-- The blocks are sound in every state that is reached, and failures are reported. -/
def StaysSound (g : Geometry) : List XattrCall → XattrState → Prop
  | [], s => XattrsSound g s
  | c :: calls, s => XattrsSound g s ∧ c.Reports g s ∧ ∀ s', c.exec g s = .ok s' →
      StaysSound g calls s'

/-- Every request is granted. -/
def AllGranted (g : Geometry) : List XattrCall → XattrState → Prop
  | [], _ => True
  | c :: calls, s => c.Meets g s ∧ ∀ s', c.exec g s = .ok s' → AllGranted g calls s'

/-! ## Where an attribute is written -/

section Frame

variable {limit : ℕ} {m m' : Mem} {x : Xattr}

/-- The two walks agree on where the entries end. -/
theorem xattrFreeLoop_cases (fuel : ℕ) : ∀ {entry e : ℕ} {stop stop' : ℤ},
    xattrFreeLoop limit m fuel entry stop = .ok (e, stop') →
      entry ≤ e ∧ stop' ≤ stop ∧
        ((e : ℤ) < stop' → ∀ n last, xattrGetLast limit m n entry = .ok last → last = e) := by
  induction fuel with
  | zero =>
      intro entry e stop stop' h
      cases h
  | succ fuel ih =>
      intro entry e stop stop' h
      rw [xattrFreeLoop, bind_eq_ok] at h
      obtain ⟨isLast, hlast, h⟩ := h
      split at h
      · rename_i hend
        cases h
        refine ⟨le_rfl, le_rfl, fun hlt n last hget => ?_⟩
        have hyes : isLast = true := hend.resolve_right (not_not.mpr hlt)
        cases n with
        | zero => cases hget
        | succ n =>
            rw [xattrGetLast, hlast, bind_ok, if_pos hyes] at hget
            cases hget
            rfl
      · rename_i hmore
        split at h
        · cases h
        · obtain ⟨hentry, hstop, hsame⟩ := ih h
          refine ⟨(Nat.le_add_right _ _).trans hentry, by omega, fun hlt n last hget => ?_⟩
          cases n with
          | zero => cases hget
          | succ n =>
              rw [xattrGetLast, hlast, bind_ok, if_neg fun hyes => hmore (.inl hyes)] at hget
              exact hsame hlt n last hget

/-- The free space lies in the region. -/
theorem xattrFreeSpace_cases {first stop available : ℕ}
    (h : xattrFreeSpace limit m first stop = .ok available) : first ≤ stop ∧
      ∃ e, first ≤ e ∧ e + available ≤ stop ∧
        (0 < available → ∀ n last, xattrGetLast limit m n first = .ok last → last = e) := by
  unfold xattrFreeSpace at h
  rw [bind_eq_ok] at h
  obtain ⟨⟨e, stop'⟩, hloop, h⟩ := h
  simp only at h
  split at h
  · cases h
  · rename_i hle
    cases h
    obtain ⟨hentry, hstop, hsame⟩ := xattrFreeLoop_cases _ hloop
    exact ⟨by omega, e, hentry, by omega, fun hpos => hsame (by omega)⟩

/-- `xattr_addto_range` writes between the new entry and the end of the region. -/
theorem xattrAddtoRange_cases {start first stop : ℕ} {r : Option ℕ}
    (h : xattrAddtoRange limit start stop first x m = .ok (r, m')) :
    (x.name.length ≤ 255 → first ≤ stop) ∧
      (r = none ∧ m' = m ∨ ∃ entry, r = some entry ∧ first ≤ entry ∧ entry + x.len ≤ stop ∧
        ∀ a, a < entry ∨ stop ≤ a → m' a = m a) := by
  unfold xattrAddtoRange at h
  split at h
  · rename_i hname
    cases h
    exact ⟨fun hle => absurd hle (not_le.mpr hname), .inl ⟨rfl, rfl⟩⟩
  · rw [bind_eq_ok] at h
    obtain ⟨available, hfree, h⟩ := h
    obtain ⟨hle, e, hfirst, hend, hlast⟩ := xattrFreeSpace_cases hfree
    refine ⟨fun _ => hle, ?_⟩
    simp only [x.needed_eq] at h
    split at h
    · cases h
      exact .inl ⟨rfl, rfl⟩
    · rename_i hfits
      have hlen := x.le_len
      rw [x.xattrSize_value, bind_eq_ok] at h
      obtain ⟨entry, hget, h⟩ := h
      obtain rfl := hlast (by omega) _ _ hget
      split at h
      · cases h
      · rw [bind_eq_ok] at h
        obtain ⟨-, -, h⟩ := h
        cases h
        exact .inr ⟨entry, rfl, hfirst, by omega,
          fun a ha => xattrWrite_frame (by omega) (by omega)⟩

/-- `xattr_addto_inode` writes behind the old part of the inode. -/
theorem xattrAddtoInode_frame {base inodeSize : ℕ} {ok : Bool} (hname : x.name.length ≤ 255)
    (h : xattrAddtoInode limit base inodeSize x m = .ok (ok, m')) : sizeofInode ≤ inodeSize ∧
      ∀ a, a < base + EXT4_GOOD_OLD_INODE_SIZE ∨ base + inodeSize ≤ a → m' a = m a := by
  unfold xattrAddtoInode at h
  rw [bind_eq_ok] at h
  obtain ⟨⟨r, m₁⟩, hrange, h⟩ := h
  obtain ⟨hroom, hcases⟩ := xattrAddtoRange_cases hrange
  have hsize := hroom hname
  unfold sizeofInode sizeofXattrIbodyHeader EXT4_GOOD_OLD_INODE_SIZE at *
  refine ⟨by omega, fun a ha => ?_⟩
  obtain ⟨rfl, rfl⟩ | ⟨entry, rfl, hentry, -, hframe⟩ := hcases
  · cases h
    rfl
  · cases h
    rw [assign_apply_of_not_mem, hframe a (by omega)]
    simp only [List.mem_cons, List.not_mem_nil, or_false, forall_eq_or_imp, forall_eq, Field.at_,
      Inode.iExtraIsize]
    omega

/-- `xattr_addto_block` leaves the header of the block alone. -/
theorem xattrAddtoBlock_frame {blockSize : ℕ} {ok : Bool}
    (h : xattrAddtoBlock limit 0 blockSize x m = .ok (ok, m')) :
    m'.SameOn m 0 sizeofXattrHeader := by
  unfold xattrAddtoBlock at h
  rw [bind_eq_ok] at h
  obtain ⟨⟨r, m₁⟩, hrange, h⟩ := h
  intro a _ ha
  obtain ⟨rfl, rfl⟩ | ⟨entry, rfl, hentry, -, hframe⟩ := (xattrAddtoRange_cases hrange).2
  · cases h
    rfl
  · cases h
    rw [← hframe a (by omega)]
    refine store_apply_of_not_mem (.inl ?_)
    simp only [Field.at_, XattrEntry.eHash]
    omega

end Frame

/-! ## What the allocator leaves alone -/

/-- Inode tables are the same. -/
def SameTables (bgs bgs' : Groups) : Prop :=
  ∀ i, (bgs' i).inodeTable = (bgs i).inodeTable ∧ (bgs' i).hasSuperblock = (bgs i).hasSuperblock

section Allocator

variable {g : Geometry} {bgs bgs' : Groups} {r r' : RunState}

theorem SameTables.update {i : ℕ} {bg : BlockGroupInfo}
    (htable : bg.inodeTable = (bgs i).inodeTable)
    (hsuper : bg.hasSuperblock = (bgs i).hasSuperblock) :
    SameTables bgs (Function.update bgs i bg) := by
  intro j
  by_cases hj : j = i
  · subst hj
    rw [Function.update_self]
    exact ⟨htable, hsuper⟩
  · rw [Function.update_of_ne hj]
    exact ⟨rfl, rfl⟩

theorem Takes.sameTables {p : Piece} (h : Takes g bgs p bgs') : SameTables bgs bgs' := by
  obtain ⟨bitmap, -, rfl⟩ := h.bgs_eq
  exact SameTables.update rfl rfl

theorem TakesAll.sameTables {ps : List Piece} (h : TakesAll g bgs ps bgs') :
    SameTables bgs bgs' := by
  induction h with
  | nil => exact fun _ => ⟨rfl, rfl⟩
  | cons head _ ih =>
      intro i
      exact ⟨(ih i).1.trans (head.sameTables i).1, (ih i).2.trans (head.sameTables i).2⟩

/-- No call of the allocator queues anything, or touches an inode. -/
theorem Call.exec_frame (hg : g.Roomy) (h : RunInv g r) {c : Call} (hc : c.Valid)
    (hexec : c.exec g r = .ok r') :
    r'.st.out = r.st.out ∧ SameTables r.st.bgs r'.st.bgs := by
  cases c with
  | allocateBlock =>
      simp only [Call.exec, bind_eq_ok, Except.ok.injEq] at hexec
      obtain ⟨⟨block, st⟩, call, rfl⟩ := hexec
      obtain ⟨-, rfl, -⟩ | ⟨i, htakes, hst⟩ := allocateBlock_cases hg.fits h.groups call
      · exact ⟨rfl, fun _ => ⟨rfl, rfl⟩⟩
      · have hout : st.out = r.st.out := by rw [hst]
        exact ⟨hout, htakes.sameTables⟩
  | allocateBlocks len =>
      simp only [Call.exec, bind_eq_ok] at hexec
      obtain ⟨⟨result, st⟩, call, hexec⟩ := hexec
      have hst : r'.st = st := by
        cases result <;> cases hexec <;> rfl
      rw [hst]
      obtain ⟨hout, ns, -, ⟨_, _, _, -, -, hmany⟩ | ⟨-, htakes⟩⟩ :=
        allocateBlocks_cases hg.fits h.groups hc.1 call
      · exact ⟨hout, hmany.takesAll.sameTables⟩
      · exact ⟨hout, htakes.sameTables⟩
  | reduceAllocation =>
      cases hlast : r.last with
      | none => simp [Call.exec, hlast] at hexec
      | some alloc =>
          simp only [Call.exec, hlast, bind_eq_ok, Except.ok.injEq] at hexec
          obtain ⟨b, -, ⟨alloc', st⟩, call, rfl⟩ := hexec
          obtain ⟨a, p, next, hp⟩ := h.last alloc hlast
          have hgroup := h.groups p.bg hp.bg_lt
          obtain ⟨hbgs, hout, -⟩ := reduceAllocation_cases hp.last hp.node (fun hpos =>
            hgroup.freeBlocks_one hg.fits (Nat.zero_lt_of_lt (hp.header_lt hpos))) call
          exact ⟨hout, by rw [hbgs]; exact SameTables.update rfl rfl⟩

/-! ## What the allocator does not look at -/

namespace SameBlocks

variable {bg bg' bg'' : BlockGroupInfo}

theorem refl (bg : BlockGroupInfo) : SameBlocks g bg bg :=
  ⟨rfl, rfl, rfl, fun _ _ => rfl, rfl, rfl, rfl⟩

theorem trans (h : SameBlocks g bg bg') (h' : SameBlocks g bg' bg'') : SameBlocks g bg bg'' :=
  ⟨h'.firstBlock.trans h.firstBlock, h'.headerBlocks.trans h.headerBlocks,
    h'.hasSuperblock.trans h.hasSuperblock,
    fun b hb => (h'.bitmap b hb).trans (h.bitmap b hb), h'.freeBlocks.trans h.freeBlocks,
    h'.firstFreeBlock.trans h.firstFreeBlock, h'.dataBlocksUsed.trans h.dataBlocksUsed⟩

theorem groupInv {i : ℕ} (h : SameBlocks g bg bg') (hinv : GroupInv g i bg) : GroupInv g i bg' where
  firstBlock := h.firstBlock.trans hinv.firstBlock
  headerBlocks := h.headerBlocks.trans hinv.headerBlocks
  header_le := by
    rw [h.firstFreeBlock]
    exact hinv.header_le
  used := by
    intro b hb
    rw [h.bitmap b hb, h.firstFreeBlock, h.freeBlocks]
    exact hinv.used b hb
  limit := by
    rw [h.firstFreeBlock, h.freeBlocks]
    exact hinv.limit

end SameBlocks

theorem taken_congr (h : ∀ i < g.aux.groups, SameBlocks g (bgs i) (bgs' i)) :
    taken g bgs' = taken g bgs := by
  ext b
  constructor
  · intro hb
    obtain ⟨i, hi, k, hk, rfl⟩ := hb
    exact ⟨i, hi, k, (h i hi).firstFreeBlock ▸ hk, rfl⟩
  · intro hb
    obtain ⟨i, hi, k, hk, rfl⟩ := hb
    exact ⟨i, hi, k, (h i hi).firstFreeBlock.symm ▸ hk, rfl⟩

theorem RunInv.congr (h : RunInv g r) (hheld : r'.held = r.held) (hlast : r'.last = none)
    (hgroups : ∀ i < g.aux.groups, SameBlocks g (r.st.bgs i) (r'.st.bgs i)) : RunInv g r' where
  groups := fun i hi => (hgroups i hi).groupInv (h.groups i hi)
  counted := by
    intro hsmall i hi
    rw [(hgroups i hi).firstFreeBlock, (hgroups i hi).dataBlocksUsed]
    exact h.counted hsmall i hi
  nodup := by
    rw [hheld]
    exact h.nodup
  held := by
    rw [hheld, taken_congr hgroups]
    exact h.held
  last := by simp [hlast]

end Allocator

section Tables

variable {g : Geometry} {s s' : State} {p q : InodePtr} {m : Mem}

theorem State.iFileAclLo_congr (h : (s'.bgs p.bg).inodeTable = (s.bgs p.bg).inodeTable) :
    s'.iFileAclLo p = s.iFileAclLo p := by
  unfold iFileAclLo table
  rw [h]

theorem State.iBlocksLo_congr (h : (s'.bgs p.bg).inodeTable = (s.bgs p.bg).inodeTable) :
    s'.iBlocksLo p = s.iBlocksLo p := by
  unfold iBlocksLo table
  rw [h]

@[simp] theorem State.table_setTable_self {bg : ℕ} : (s.setTable bg m).table bg = m := by
  simp [table, setTable, setBg]

theorem State.table_setTable_of_ne {bg i : ℕ} (h : i ≠ bg) :
    (s.setTable bg m).table i = s.table i := by
  simp [table, setTable, setBg, Function.update_of_ne h]

theorem State.bgs_setBg_self {bg : ℕ} {group : BlockGroupInfo} :
    (s.setBg bg group).bgs bg = group :=
  Function.update_self _ _ _

theorem State.bgs_setBg_of_ne {bg i : ℕ} {group : BlockGroupInfo} (h : i ≠ bg) :
    (s.setBg bg group).bgs i = s.bgs i := Function.update_of_ne h _ _

theorem sameBlocks_setBg {bg : ℕ} {group : BlockGroupInfo} (h : SameBlocks g (s.bgs bg) group)
    (i : ℕ) :
    SameBlocks g (s.bgs i) ((s.setBg bg group).bgs i) := by
  by_cases hi : i = bg
  · subst hi
    rwa [State.bgs_setBg_self]
  · rw [State.bgs_setBg_of_ne hi]
    exact SameBlocks.refl _

theorem sameBlocks_setTable (bg i : ℕ) : SameBlocks g (s.bgs i) ((s.setTable bg m).bgs i) := by
  have hsame : SameBlocks g (s.bgs bg) { s.bgs bg with inodeTable := some m } :=
    ⟨rfl, rfl, rfl, fun _ _ => rfl, rfl, rfl, rfl⟩
  exact sameBlocks_setBg hsame i

/-- Inodes of one table do not overlap. -/
theorem IsInode.disjoint (hp : IsInode g p) (hq : IsInode g q) (hbg : q.bg = p.bg) (hne : q ≠ p) :
    q.base + g.info.inodeSize ≤ p.base ∨ p.base + g.info.inodeSize ≤ q.base := by
  obtain ⟨-, j, -, hj⟩ := hp
  obtain ⟨-, k, -, hk⟩ := hq
  have hjk : k ≠ j := by
    intro heq
    refine hne ?_
    cases p
    cases q
    simp_all
  rw [hj, hk, ← Nat.succ_mul, ← Nat.succ_mul]
  rcases Nat.lt_or_gt_of_ne hjk with hlt | hgt
  · exact .inl (Nat.mul_le_mul_right _ hlt)
  · exact .inr (Nat.mul_le_mul_right _ hgt)

end Tables

/-! ## Chunks -/

section Chunks

variable {g : Geometry} {c : Chunk} {b n blockSize : ℕ}

theorem Chunk.mem_blocks : b ∈ c.blocks blockSize ↔
    c.block ≤ b ∧ b < c.block + c.len ⌈/⌉ blockSize := by
  simp [blocks, List.mem_range'_1]

theorem Chunk.lt_of_mem_blocks (hpos : 0 < blockSize) (hlen : c.len ≤ n * blockSize)
    (hb : b ∈ c.blocks blockSize) : c.block ≤ b ∧ b < c.block + n := by
  rw [mem_blocks] at hb
  have hle : c.len ⌈/⌉ blockSize ≤ n := by
    rwa [ceilDiv_le_iff_le_mul hpos, Nat.mul_comm]
  omega

/-- A chunk of one block. -/
theorem Chunk.mem_blocks_single (hpos : 0 < blockSize) {source : Source} {block : ℕ} :
    b ∈ Chunk.blocks blockSize ⟨source, blockSize, block⟩ ↔ b = block := by
  have hone : blockSize ⌈/⌉ blockSize = 1 := by
    rw [Nat.ceilDiv_eq_add_pred_div]
    exact Nat.div_eq_of_lt_le (by omega) (by omega)
  rw [mem_blocks, hone]
  simp only
  omega

/-- The header of a group, without wrapping. -/
theorem Geometry.Built.headerBlocks_split (hb : g.Built) (i : ℕ) : g.headerBlocks i =
    2 + g.aux.inodeTableBlocks + if g.hasSuperBlock i then g.superBlocks else 0 := by
  have hof := FsAuxInfo.of_create g.create
  rw [hb.headerBlocks_eq]
  unfold FsInfo.headerSize Geometry.superBlocks Geometry.hasSuperBlock
  rw [hof.inodeTableBlocks, hof.bgDescBlocks]

/-- A block of a header, found from the start of its group. -/
theorem mem_taken_of_header {bgs : Groups} (hinv : GroupsInv g bgs) {i : ℕ} (hi : i < g.aux.groups)
    (hlo : g.start i ≤ b) (hhi : b < g.start i + g.headerBlocks i) : b ∈ taken g bgs := by
  have hmem := header_mem_taken hinv hi (k := b - g.start i) (by omega)
  rwa [Nat.add_sub_cancel' hlo] at hmem

/-- The end of a header is a 32-bit number. -/
theorem Geometry.Fits.header_end_lt (hg : g.Fits) {i : ℕ} (hi : i < g.aux.groups) :
    g.start i + g.headerBlocks i < 2 ^ 32 := by
  have hheader := hg.header_le i hi
  have hend := Geometry.start_add_groupSize_le hg hi
  have hlt := hg.lenBlocks_lt
  omega

/-- The bitmaps of a group are queued for its header. -/
theorem mem_header_of_bitmaps (hg : g.Fits) (hb : g.Built) {i : ℕ} (hi : i < g.aux.groups)
    (hmem : b ∈ (bitmapsChunk g i).blocks g.info.blockSize) :
    g.start i ≤ b ∧ b < g.start i + g.headerBlocks i := by
  have hbs := hb.blockSize_ge
  have hlen : (bitmapsChunk g i).len ≤ 2 * g.info.blockSize := Nat.mod_le _ _
  have hblock := Chunk.lt_of_mem_blocks (by omega) hlen hmem
  have hend := hg.header_end_lt hi
  rw [hb.headerBlocks_split] at hend ⊢
  simp only [bitmapsChunk, Geometry.bitmapsBlock, hg.firstBlock_eq hi] at hblock
  split at hblock
  · rename_i hsuper
    rw [if_pos hsuper] at hend ⊢
    rw [u32_of_lt (by omega)] at hblock
    omega
  · omega

end Chunks

/-! ## The invariant -/

/-- What holds in every state of a run whose requests are granted.  Whatever is queued is queued
for blocks in use, and not for the one block that `reduce_allocation` may still give back. -/
structure XattrInv (g : Geometry) (s : XattrState) : Prop where
  run : RunInv g s.run
  hasSuperblock : ∀ i < g.aux.groups, (s.run.st.bgs i).hasSuperblock = g.hasSuperBlock i
  chunks : ∀ c ∈ s.run.st.out.chunks, ∀ b ∈ c.blocks g.info.blockSize, b ∈ taken g s.run.st.bgs
  pending : ∀ alloc a p next, s.run.last = some alloc → Pending g s.run alloc a p next → 0 < p.len →
    ∀ c ∈ s.run.st.out.chunks, p.block + p.len - 1 ∉ c.blocks g.info.blockSize
  sound : XattrsSound g s
  unlisted : ∀ p, IsInode g p → s.xattrListFind p = none → s.run.st.iFileAclLo p = 0
  numbers : ∀ e ∈ s.xattrs, e.2 < s.run.st.out.brk

section Invariant

variable {g : Geometry} {s : XattrState} {r : RunState} {st : State}

theorem field_zero (f : Field) : f.get Mem.zero = 0 := by
  have hbytes : ∀ i < f.width, Mem.zero (f.offset + i) = UInt8.ofNat (0 / 256 ^ i) := by
    intro i _
    rw [Nat.zero_div]
    rfl
  have hload := load_eq_of_bytes hbytes
  rwa [Nat.zero_mod] at hload

theorem XattrInv.init (hg : g.Roomy) (hb : g.Built)
    (hinit : blockAllocatorInit g State.empty = .ok st) : XattrInv g ⟨⟨st, [], none⟩, []⟩ := by
  obtain ⟨st', hrun, -, hchunks, hfresh⟩ := blockAllocatorInit_spec hg.fits State.empty
  rw [hrun, Except.ok.injEq] at hinit
  subst hinit
  have hacl : ∀ p, IsInode g p → st'.iFileAclLo p = 0 := by
    intro p hp
    unfold State.iFileAclLo State.table
    rw [(hfresh p.bg hp.1).inodeTable]
    exact field_zero _
  have hroom : ∀ i < g.aux.groups, g.headerBlocks i < g.groupSize i := by
    intro i hi
    have hsize := hg.size_ge i hi
    omega
  refine ⟨RunInv.init hg.fits hroom hrun, fun i hi => (hfresh i hi).hasSuperblock, ?_,
    (fun _ _ _ _ hlast => by cases hlast), fun p hp hne => absurd (hacl p hp) hne,
    fun p hp _ => hacl p hp, by simp⟩
  intro c hc b hmem
  rw [hchunks] at hc
  obtain ⟨i, hi, rfl⟩ : ∃ i < g.aux.groups, bitmapsChunk g i = c := by
    simpa [State.empty] using hc
  obtain ⟨hlo, hhi⟩ := mem_header_of_bitmaps hg.fits hb hi hmem
  exact mem_taken_of_header (fun j hj => (hfresh j hj).inv) hi hlo hhi

/-! ## Steps of the allocator -/

/-- The state of the allocator moves on, and what is queued stays in use. -/
theorem XattrInv.withRun (hb : g.Built) (h : XattrInv g s) (hrun : RunInv g r)
    (hout : r.st.out = s.run.st.out) (htables : SameTables s.run.st.bgs r.st.bgs)
    (hqueued : ∀ c ∈ s.run.st.out.chunks, ∀ b ∈ c.blocks g.info.blockSize,
      b ∈ taken g r.st.bgs ∧ (b ∈ s.run.held → b ∈ r.held))
    (hpending : ∀ alloc a p next, r.last = some alloc → Pending g r alloc a p next → 0 < p.len →
      ∀ c ∈ s.run.st.out.chunks, p.block + p.len - 1 ∉ c.blocks g.info.blockSize) :
    XattrInv g { s with run := r } := by
  have hbs := hb.blockSize_ge
  have hacl : ∀ p, r.st.iFileAclLo p = s.run.st.iFileAclLo p := fun p =>
    State.iFileAclLo_congr (htables p.bg).1
  refine ⟨hrun, ?_, ?_, ?_, ?_, ?_, ?_⟩
  · intro i hi
    exact (htables i).2.trans (h.hasSuperblock i hi)
  · simp only [hout]
    exact fun c hc b hmem => (hqueued c hc b hmem).1
  · simp only [hout]
    exact hpending
  · intro p hp hne
    simp only [hacl] at hne ⊢
    obtain ⟨hholds, hunique⟩ := h.sound p hp hne
    obtain ⟨block, hfind, hheader, hmem, honly⟩ := hholds.header
    have hself : s.run.st.iFileAclLo p ∈ Chunk.blocks g.info.blockSize
        ⟨.buffer block 0, g.info.blockSize, s.run.st.iFileAclLo p⟩ :=
      (Chunk.mem_blocks_single (by omega)).mpr rfl
    exact ⟨⟨hholds.lt, (hqueued _ hmem _ hself).2 hholds.held,
      block, hfind, by rw [hout]; exact hheader, by rw [hout]; exact hmem,
      by rw [hout]; exact honly⟩, hunique⟩
  · intro p hp hnone
    exact (hacl p).trans (h.unlisted p hp hnone)
  · simp only [hout]
    exact h.numbers

/-- A step that takes blocks. -/
theorem XattrInv.takes (hb : g.Built) (h : XattrInv g s) (hrun : RunInv g r)
    (hout : r.st.out = s.run.st.out) {ps : List Piece}
    (htakes : TakesAll g s.run.st.bgs ps r.st.bgs) (hheld : ∀ b ∈ s.run.held, b ∈ r.held)
    (hlast : ∀ alloc a p next, r.last = some alloc → Pending g r alloc a p next → 0 < p.len →
      p.block + p.len - 1 ∈ blocksOf ps) : XattrInv g { s with run := r } := by
  refine h.withRun hb hrun hout htakes.sameTables ?_ ?_
  · exact fun c hc b hmem => ⟨htakes.taken_subset (h.chunks c hc b hmem), hheld b⟩
  · intro alloc a p next halloc hp hpos c hc hmem
    exact htakes.disjoint h.run.groups (hlast alloc a p next halloc hp hpos) (h.chunks c hc _ hmem)

theorem XattrInv.allocator (hg : g.Roomy) (hb : g.Built) (h : XattrInv g s) {c : Call}
    (hc : c.Valid)
    (hexec : c.exec g s.run = .ok r) : XattrInv g { s with run := r } := by
  have hrun := h.run.exec hg hc hexec
  obtain ⟨hout, htables⟩ := Call.exec_frame hg h.run hc hexec
  cases c with
  | allocateBlock =>
      simp only [Call.exec, bind_eq_ok, Except.ok.injEq] at hexec
      obtain ⟨⟨block, st⟩, call, rfl⟩ := hexec
      have hheld : ∀ b ∈ s.run.held,
          b ∈ if block = EXT4_ALLOCATE_FAILED then s.run.held else block :: s.run.held := by
        intro b hmem
        split
        · exact hmem
        · exact List.mem_cons_of_mem _ hmem
      obtain ⟨-, rfl, -⟩ | ⟨i, htakes, -⟩ := allocateBlock_cases hg.fits h.run.groups call
      · exact h.takes hb hrun hout (.nil _) hheld fun _ _ _ _ hlast => by cases hlast
      · exact h.takes hb hrun hout (.single htakes) hheld fun _ _ _ _ hlast => by cases hlast
  | allocateBlocks len =>
      simp only [Call.exec, bind_eq_ok] at hexec
      obtain ⟨⟨result, st⟩, call, hexec⟩ := hexec
      obtain ⟨-, ns, hext, ⟨a, p, rest, rfl, rfl, hmany⟩ | ⟨rfl, htakes⟩⟩ :=
        allocateBlocks_cases hg.fits h.run.groups hc.1 call
      · cases hexec
        refine h.takes hb hrun hout hmany.takesAll (fun b => List.mem_append_right _) ?_
        intro alloc a' p' next halloc hp hpos
        simp only at halloc
        split at halloc
        · cases halloc
          -- the region under `last` is the first of the allocation
          obtain rfl := Option.some.inj hp.last
          have hregion : p.region (headAddr rest) none = p'.region next none :=
            Option.some.inj (hext.linked.1.symm.trans hp.node)
          have hblock := congrArg Region.block hregion
          have hlen := congrArg Region.len hregion
          simp only [Piece.region] at hblock hlen
          refine List.mem_append_left _ (Piece.mem_blocks.mpr ?_)
          simp only
          omega
        · cases halloc
      · cases hexec
        exact h.takes hb hrun hout htakes (fun _ hmem => hmem) fun _ _ _ _ hlast => by cases hlast
  | reduceAllocation =>
      cases hlast : s.run.last with
      | none => simp [Call.exec, hlast] at hexec
      | some alloc =>
          simp only [Call.exec, hlast, bind_eq_ok, Except.ok.injEq] at hexec
          obtain ⟨b, hreturned, ⟨alloc', st⟩, call, rfl⟩ := hexec
          obtain ⟨a, p, next, hp⟩ := h.run.last alloc hlast
          obtain ⟨hpos, hbgs⟩ := hp.reduce_cases hg h.run call
          rw [hp.returnedBlock_eq h.run, hp.cursor hpos, Except.ok.injEq] at hreturned
          subst hreturned
          have hfree := h.pending alloc a p next hlast hp hpos
          have hheader := hp.header_lt hpos
          refine h.withRun hb hrun hout htables ?_ fun _ _ _ _ hnone => by cases hnone
          intro c hc b hmem
          have hne : b ≠ p.block + p.len - 1 := fun heq => hfree c hc (heq ▸ hmem)
          refine ⟨?_, fun hheld => (List.Nodup.mem_erase_iff h.run.nodup).mpr ⟨hne, hheld⟩⟩
          show b ∈ taken g st.bgs
          rw [hbgs, taken_giveBack h.run.groups hp.bg_lt (by omega), hp.cursor hpos]
          exact ⟨h.chunks c hc b hmem, hne⟩

/-! ## Steps that leave the blocks alone -/

theorem IsXattrHeader.congr {m m' : Mem} (h : IsXattrHeader m)
    (hsame : m'.SameOn m 0 sizeofXattrHeader) : IsXattrHeader m' where
  hMagic := (Field.get_congr hsame (Nat.zero_le _) (by decide)).trans h.hMagic
  hRefcount := (Field.get_congr hsame (Nat.zero_le _) (by decide)).trans h.hRefcount
  hBlocks := (Field.get_congr hsame (Nat.zero_le _) (by decide)).trans h.hBlocks

/-- A registered block is in the list. -/
theorem XattrState.exists_of_find {p : InodePtr} {block : ℕ} (h : s.xattrListFind p = some block) :
    ∃ e ∈ s.xattrs, e.2 = block := by
  obtain ⟨e, hfind, heq⟩ := Option.map_eq_some_iff.mp h
  exact ⟨e, List.mem_of_find?_eq_some hfind, heq⟩

theorem XattrInv.leaves {s' : XattrState} (h : XattrInv g s) (hl : LeavesXattrs g s s') :
    XattrInv g s' := by
  have hfind : ∀ p, s'.xattrListFind p = s.xattrListFind p := by
    intro p
    unfold XattrState.xattrListFind
    rw [hl.xattrs]
  obtain ⟨new, hchunks, hnew⟩ := hl.chunks
  refine ⟨h.run.congr hl.held hl.last hl.groups, ?_, ?_, ?_, ?_, ?_, ?_⟩
  · intro i hi
    exact (hl.groups i hi).hasSuperblock.trans (h.hasSuperblock i hi)
  · intro c hc b hmem
    rw [taken_congr hl.groups]
    rw [hchunks, List.mem_append] at hc
    rcases hc with hc | hc
    · exact h.chunks c hc b hmem
    · exact (hnew c hc b hmem).1
  · intro alloc a p next hlast
    rw [hl.last] at hlast
    cases hlast
  · intro p hp hne
    rw [hl.iFileAclLo p hp] at hne ⊢
    obtain ⟨hholds, hunique⟩ := h.sound p hp hne
    obtain ⟨block, hblock, hheader, hmem, honly⟩ := hholds.header
    obtain ⟨e, he, rfl⟩ := XattrState.exists_of_find hblock
    refine ⟨⟨hholds.lt, hl.held ▸ hholds.held, e.2, (hfind p).trans hblock,
      hheader.congr (hl.headers e he), ?_, ?_⟩, fun q hq heq => ?_⟩
    · rw [hchunks]
      exact List.mem_append_left _ hmem
    · intro c hc hcover
      rw [hchunks, List.mem_append] at hc
      rcases hc with hc | hc
      · exact honly c hc hcover
      · exact absurd rfl ((hnew c hc _ hcover).2 p hp hne)
    · rw [hl.iFileAclLo q hq] at heq
      exact hunique q hq heq
  · intro p hp hnone
    rw [hl.iFileAclLo p hp]
    exact h.unlisted p hp ((hfind p).symm.trans hnone)
  · intro e he
    rw [hl.xattrs] at he
    exact (h.numbers e he).trans_le hl.brk

theorem LeavesXattrs.trans {s' s'' : XattrState} (h : LeavesXattrs g s s')
    (h' : LeavesXattrs g s' s'') : LeavesXattrs g s s'' where
  held := h'.held.trans h.held
  last := h'.last
  xattrs := h'.xattrs.trans h.xattrs
  groups := fun i hi => (h.groups i hi).trans (h'.groups i hi)
  iFileAclLo := fun p hp => (h'.iFileAclLo p hp).trans (h.iFileAclLo p hp)
  headers := fun e he => (h'.headers e (h.xattrs ▸ he)).trans (h.headers e he)
  brk := h.brk.trans h'.brk
  chunks := by
    obtain ⟨new, hchunks, hnew⟩ := h.chunks
    obtain ⟨new', hchunks', hnew'⟩ := h'.chunks
    refine ⟨new ++ new', by rw [hchunks', hchunks, List.append_assoc], ?_⟩
    intro c hc b hmem
    rcases List.mem_append.mp hc with hc | hc
    · exact hnew c hc b hmem
    · obtain ⟨htaken, hother⟩ := hnew' c hc b hmem
      rw [taken_congr h.groups] at htaken
      refine ⟨htaken, fun p hp hne => ?_⟩
      have hsame := h.iFileAclLo p hp
      rw [← hsame] at hne ⊢
      exact hother p hp hne

/-- Only the inode table of one group changes, and nothing is queued. -/
theorem leavesXattrs_setTable {bg : ℕ} {m : Mem} (s : XattrState)
    (hacl : ∀ q, IsInode g q → q.bg = bg →
      (Inode.iFileAclLo.at_ q.base).get m = (Inode.iFileAclLo.at_ q.base).get (s.run.st.table bg)) :
    LeavesXattrs g s (s.setSt (s.run.st.setTable bg m)) where
  held := rfl
  last := rfl
  xattrs := rfl
  groups := fun i _ => sameBlocks_setTable bg i
  iFileAclLo := by
    intro q hq
    show (s.run.st.setTable bg m).iFileAclLo q = s.run.st.iFileAclLo q
    unfold State.iFileAclLo
    by_cases hbg : q.bg = bg
    · rw [hbg, State.table_setTable_self]
      exact hacl q hq hbg
    · rw [State.table_setTable_of_ne hbg]
  headers := fun _ _ _ _ _ => rfl
  brk := le_rfl
  chunks := ⟨[], (List.append_nil _).symm, by simp⟩

/-- Only a buffer changes, behind its header. -/
theorem leavesXattrs_setBuffer {block : ℕ} {m : Mem} (s : XattrState)
    (hsame : m.SameOn (s.run.st.out.buffers block).bytes 0 sizeofXattrHeader) :
    LeavesXattrs g s (s.setSt (s.run.st.setBuffer block m)) where
  held := rfl
  last := rfl
  xattrs := rfl
  groups := fun _ _ => SameBlocks.refl _
  iFileAclLo := fun _ _ => rfl
  headers := by
    intro e _
    by_cases he : e.2 = block
    · simpa [XattrState.setSt, State.setBuffer, he] using hsame
    · simp only [XattrState.setSt, State.setBuffer, Function.update_of_ne he]
      exact fun _ _ _ => rfl
  brk := le_rfl
  chunks := ⟨[], (List.append_nil _).symm, by simp⟩

/-- An inode table is queued for the header of its group. -/
theorem mem_header_of_inodeTable (hg : g.Fits) (hb : g.Built) {bg : BlockGroupInfo} {i b : ℕ}
    (hi : i < g.aux.groups) (hfirst : bg.firstBlock = g.start i)
    (hsuper : bg.hasSuperblock = g.hasSuperBlock i) (hmem : b ∈ Chunk.blocks g.info.blockSize
      ⟨.inodeTable i, u32 (g.aux.inodeTableBlocks * g.info.blockSize),
        if bg.hasSuperblock then u32 (u32 (bg.firstBlock + 2) + g.superBlocks)
        else u32 (bg.firstBlock + 2)⟩) :
    g.start i ≤ b ∧ b < g.start i + g.headerBlocks i := by
  have hbs := hb.blockSize_ge
  have hblock :=
    Chunk.lt_of_mem_blocks (n := g.aux.inodeTableBlocks) (by omega) (Nat.mod_le _ _) hmem
  have hend := hg.header_end_lt hi
  rw [hb.headerBlocks_split] at hend ⊢
  simp only [hfirst, hsuper] at hblock
  have htwo : u32 (g.start i + 2) = g.start i + 2 := u32_of_lt (by omega)
  rw [htwo] at hblock
  split at hblock
  · rename_i hyes
    rw [if_pos hyes] at hend ⊢
    rw [u32_of_lt (by omega)] at hblock
    omega
  · omega

/-- Blocks that inodes name are in no header. -/
theorem XattrInv.iFileAclLo_ne_header (h : XattrInv g s) {p : InodePtr} (hp : IsInode g p)
    (hne : s.run.st.iFileAclLo p ≠ 0) {i b : ℕ} (hi : i < g.aux.groups)
    (hb : g.start i ≤ b ∧ b < g.start i + g.headerBlocks i) : s.run.st.iFileAclLo p ≠ b := by
  intro heq
  have hheld := (h.sound p hp hne).1.held
  exact (h.run.held _ hheld).2.2 i hi (heq ▸ hb)

theorem XattrInv.getInode (hg : g.Fits) (hb : g.Built)
    (ht : g.info.inodesPerGroup * g.info.inodeSize < 2 ^ 32) (h : XattrInv g s) {inode : ℕ}
    {p : InodePtr} (hrun : getInode g inode s.run.st = .ok (p, st)) :
    IsInode g p ∧ LeavesXattrs g s (s.setSt st) := by
  unfold Ext4.getInode at hrun
  simp only at hrun
  split at hrun
  · cases hrun
  · rename_i hipg
    split at hrun
    · cases hrun
    · rename_i hbg
      cases hrun
      have hindex := Nat.mod_lt (sub32 inode 1) (Nat.pos_of_ne_zero hipg)
      have hoffset := (Nat.mul_le_mul_right g.info.inodeSize hindex.le).trans_lt ht
      refine ⟨⟨not_le.mp hbg, _, hindex, u32_of_lt hoffset⟩, ?_⟩
      generalize hi : sub32 inode 1 / g.info.inodesPerGroup = i at hbg ⊢
      have hgroup := h.run.groups i (not_le.mp hbg)
      unfold allocateBgInodeTable
      split
      · exact ⟨rfl, rfl, rfl, fun _ _ => SameBlocks.refl _, fun _ _ => rfl, fun _ _ _ _ _ => rfl,
          le_rfl, [], (List.append_nil _).symm, by simp⟩
      · rename_i hnone
        refine ⟨rfl, rfl, rfl, fun j _ => ?_, fun q _ => ?_, fun _ _ _ _ _ => rfl, le_rfl,
          [_], rfl, ?_⟩
        · have hsame : SameBlocks g (s.run.st.bgs i) { s.run.st.bgs i with
              inodeTable := some Mem.zero
              flags := (s.run.st.bgs i).flags &&& (2 ^ 16 - 1 - EXT4_BG_INODE_UNINIT) } :=
            ⟨rfl, rfl, rfl, fun _ _ => rfl, rfl, rfl, rfl⟩
          exact sameBlocks_setBg hsame j
        · -- the new table is as empty as the missing one
          show State.iFileAclLo _ q = State.iFileAclLo _ q
          unfold State.iFileAclLo State.table
          by_cases hq : q.bg = i
          · rw [XattrState.setSt, hq, State.bgs_setBg_self, hnone]
            rfl
          · rw [XattrState.setSt, State.bgs_setBg_of_ne hq]
            rfl
        · intro c hc b hmem
          obtain rfl := List.mem_singleton.mp hc
          have hheader := mem_header_of_inodeTable hg hb (not_le.mp hbg) hgroup.firstBlock
            (h.hasSuperblock i (not_le.mp hbg)) hmem
          exact ⟨mem_taken_of_header h.run.groups (not_le.mp hbg) hheader.1 hheader.2,
            fun q hq hne => h.iFileAclLo_ne_header hq hne (not_le.mp hbg) hheader⟩

/-- The attempt to put an attribute behind an inode. -/
theorem XattrInv.addAtInode (hg : g.Fits) (hb : g.Built)
    (ht : g.info.inodesPerGroup * g.info.inodeSize < 2 ^ 32) (h : XattrInv g s) {inode : ℕ}
    {x : Xattr} (hname : x.name.length ≤ 255) {ok : Bool} {p : InodePtr} {s' : XattrState}
    (hrun : xattrAddAtInode g inode x s = .ok (ok, p, s')) :
    IsInode g p ∧ sizeofInode ≤ g.info.inodeSize ∧ LeavesXattrs g s s' := by
  unfold xattrAddAtInode at hrun
  rw [bind_eq_ok] at hrun
  obtain ⟨⟨p', st⟩, hget, hrun⟩ := hrun
  rw [bind_eq_ok] at hrun
  obtain ⟨⟨ok', m⟩, hadd, hrun⟩ := hrun
  cases hrun
  obtain ⟨hp, hleaves⟩ := h.getInode hg hb ht hget
  obtain ⟨hsize, hframe⟩ := xattrAddtoInode_frame hname hadd
  refine ⟨hp, hsize, hleaves.trans (leavesXattrs_setTable (s.setSt st) fun q hq hbg => ?_)⟩
  refine load_congr fun a ha => hframe _ ?_
  simp only [Field.at_, Inode.iFileAclLo] at ha ⊢
  unfold sizeofInode at hsize
  unfold EXT4_GOOD_OLD_INODE_SIZE
  by_cases hqp : q = p
  · subst hqp
    omega
  · have hdisjoint := hp.disjoint hq hbg hqp
    omega

/-! ## Requests -/

/-- `allocate_block` always returns. -/
theorem allocateBlockLoop_returns (hg : g.Fits) {st : State} (hinv : GroupsInv g st.bgs)
    (left : ℕ) :
    ∀ i : ℕ, i + left ≤ g.aux.groups → ∃ r, allocateBlockLoop g left i st = .ok r := by
  induction left with
  | zero => exact fun _ _ => ⟨_, rfl⟩
  | succ left ih =>
      intro i hi
      rw [allocateBlockLoop]
      by_cases hfree : (st.bgs i).freeBlocks < 1
      · have hfailed :
            ext4AllocateBlocksFromBlockGroup g 1 i st = .ok (EXT4_ALLOCATE_FAILED, st) := by
          unfold ext4AllocateBlocksFromBlockGroup
          rw [if_pos hfree]
        rw [hfailed, bind_ok]
        simp only [ne_eq, not_true_eq_false, if_false]
        exact ih (i + 1) (by omega)
      · obtain ⟨bitmap, -, hrun⟩ := fromBlockGroup_of_le hg hinv (by omega) (not_lt.mp hfree)
        have htakes := (fromBlockGroup_takes hg hinv (by omega) (not_lt.mp hfree) hrun).1
        have hne := htakes.block_ne_failed hg hinv Nat.one_pos
        rw [hrun, bind_ok]
        exact ⟨_, if_pos hne⟩

/-- What `allocate_block` takes is a data block that was free, and there is one if it fails. -/
theorem XattrInv.allocateBlock_outcome (hg : g.Fits) (hb : g.Built) (h : XattrInv g s) {b : ℕ}
    (call : allocateBlock g s.run.st = .ok (b, st)) : 0 < b ∧ b < 2 ^ 32 ∧
      (b = EXT4_ALLOCATE_FAILED ∧ ¬ HasFreeBlock g s.run.st ∨
        b ≠ EXT4_ALLOCATE_FAILED ∧ b ∉ taken g s.run.st.bgs) := by
  obtain ⟨rfl, rfl, hfull⟩ | ⟨i, htakes, -⟩ := allocateBlock_cases hg h.run.groups call
  · refine ⟨by decide, by decide, .inl ⟨rfl, fun hfree => ?_⟩⟩
    obtain ⟨j, hj, hpos⟩ := hfree
    exact hpos.ne' (hfull j hj)
  · have hself : b ∈ Piece.blocks ⟨b, 1, i⟩ := Piece.mem_blocks.mpr ⟨le_rfl, Nat.lt_succ_self b⟩
    have hrange := htakes.mem_range hg h.run.groups hself
    have hlt := hg.lenBlocks_lt
    have hblock := htakes.block_eq Nat.one_pos
    have hheader := (h.run.groups i htakes.bg_lt).header_le
    have hpos := hb.headerBlocks_pos i
    simp only at hblock
    exact ⟨by omega, by omega, .inr ⟨htakes.block_ne_failed hg h.run.groups Nat.one_pos,
      htakes.disjoint h.run.groups hself⟩⟩

/-- The inode that gets a block names it. -/
theorem iFileAclLo_enterXattrBlock {blockSize b : ℕ} {p : InodePtr} (hlt : b < 2 ^ 32) :
    (enterXattrBlock blockSize p b st).iFileAclLo p = b := by
  unfold State.iFileAclLo enterXattrBlock
  rw [State.table_setTable_self]
  have hdisjoint : (([(Inode.iBlocksLo.at_ p.base, u32 (st.iBlocksLo p + blockSize / 512)),
      (Inode.iFileAclLo.at_ p.base, b)] : List (Field × ℕ)).map Prod.fst).Pairwise
        Field.Disjoint := by
    simp [Field.Disjoint, Field.at_, Inode.iBlocksLo, Inode.iFileAclLo]
  exact (Field.get_assign hdisjoint 1 rfl _).trans (Nat.mod_eq_of_lt hlt)

/-- The others are left alone. -/
theorem iFileAclLo_enterXattrBlock_of_ne {blockSize b : ℕ} {p q : InodePtr} (hp : IsInode g p)
    (hq : IsInode g q) (hne : q ≠ p) (hsize : sizeofInode ≤ g.info.inodeSize) :
    (enterXattrBlock blockSize p b st).iFileAclLo q = st.iFileAclLo q := by
  unfold State.iFileAclLo enterXattrBlock
  by_cases hbg : q.bg = p.bg
  · have hdisjoint := hp.disjoint hq hbg hne
    unfold sizeofInode at hsize
    rw [hbg, State.table_setTable_self, Field.get_assign_of_disjoint]
    simp only [List.mem_cons, List.not_mem_nil, or_false, forall_eq_or_imp, forall_eq,
      Field.Disjoint, Field.at_, Inode.iBlocksLo, Inode.iFileAclLo]
    omega
  · rw [State.table_setTable_of_ne hbg]

theorem isXattrHeader_new : IsXattrHeader newXattrHeader where
  hMagic := by decide
  hRefcount := by decide
  hBlocks := by decide

/-- The state when block `b` has been entered into the inode. -/
def XattrState.entered (g : Geometry) (p : InodePtr) (b : ℕ) (s : XattrState) : XattrState :=
  let (block, st) := s.run.st.calloc g.info.blockSize
  s.setSt (enterXattrBlock g.info.blockSize p b (st.setBuffer block newXattrHeader))

/-- The state after a request that was granted block `b`. -/
def XattrState.granted (g : Geometry) (p : InodePtr) (b : ℕ) (s : XattrState) : XattrState :=
  let t := s.entered g p b
  let t := t.setSt (t.run.st.addChunk (.buffer s.run.st.out.brk 0) g.info.blockSize b)
  { t with xattrs := (p, s.run.st.out.brk) :: t.xattrs }

section Granted

variable {p : InodePtr} {b : ℕ}

namespace XattrState

theorem iFileAclLo_entered (hlt : b < 2 ^ 32) : (s.entered g p b).run.st.iFileAclLo p = b := by
  unfold entered
  exact iFileAclLo_enterXattrBlock hlt

theorem iFileAclLo_granted (hlt : b < 2 ^ 32) : (s.granted g p b).run.st.iFileAclLo p = b :=
  iFileAclLo_entered hlt

theorem iFileAclLo_granted_of_ne {q : InodePtr} (hp : IsInode g p) (hq : IsInode g q)
    (hne : q ≠ p) (hsize : sizeofInode ≤ g.info.inodeSize) :
    (s.granted g p b).run.st.iFileAclLo q = s.run.st.iFileAclLo q := by
  unfold granted entered
  exact iFileAclLo_enterXattrBlock_of_ne hp hq hne hsize

theorem bytes_granted :
    ((s.granted g p b).run.st.out.buffers s.run.st.out.brk).bytes = newXattrHeader := by
  simp [granted, entered, setSt, State.calloc, State.setBuffer, State.addChunk, enterXattrBlock,
    State.setTable, State.setBg]

theorem buffers_granted_of_ne {block : ℕ} (hne : block ≠ s.run.st.out.brk) :
    (s.granted g p b).run.st.out.buffers block = s.run.st.out.buffers block := by
  simp [granted, entered, setSt, State.calloc, State.setBuffer, State.addChunk, enterXattrBlock,
    State.setTable, State.setBg, Function.update_of_ne hne]

theorem find_granted : (s.granted g p b).xattrListFind p = some s.run.st.out.brk := by
  simp [xattrListFind, granted]

theorem find_granted_of_ne {q : InodePtr} (hne : q ≠ p) :
    (s.granted g p b).xattrListFind q = s.xattrListFind q := by
  simp [xattrListFind, granted, entered, setSt, hne.symm]

end XattrState

/-- A block that nothing is queued for becomes the inode's. -/
theorem XattrInv.granted (hg : g.Fits) (hb : g.Built) (h : XattrInv g s) (hp : IsInode g p)
    (hsize : sizeofInode ≤ g.info.inodeSize) (hheld : b ∈ s.run.held)
    (hfresh : ∀ c ∈ s.run.st.out.chunks, b ∉ c.blocks g.info.blockSize) :
    XattrInv g (s.granted g p b) := by
  have hbs : 0 < g.info.blockSize := Nat.lt_of_lt_of_le (by decide) hb.blockSize_ge
  obtain ⟨htaken, hdata⟩ := h.run.held b hheld
  have hlt : b < 2 ^ 32 := hdata.1.2.trans hg.lenBlocks_lt
  have hchunks : (s.granted g p b).run.st.out.chunks =
      s.run.st.out.chunks ++ [⟨.buffer s.run.st.out.brk 0, g.info.blockSize, b⟩] := rfl
  have hgroups : ∀ i < g.aux.groups,
      SameBlocks g (s.run.st.bgs i) ((s.granted g p b).run.st.bgs i) := fun i _ =>
    sameBlocks_setTable (s := (s.run.st.calloc g.info.blockSize).2.setBuffer
      s.run.st.out.brk newXattrHeader) p.bg i
  -- no other inode names the block: something is queued for what it names
  have hother : ∀ q, IsInode g q → s.run.st.iFileAclLo q ≠ 0 → s.run.st.iFileAclLo q ≠ b := by
    intro q hq hne heq
    obtain ⟨block, -, -, hmem, -⟩ := (h.sound q hq hne).1.header
    exact hfresh _ hmem ((Chunk.mem_blocks_single hbs).mpr heq.symm)
  have hpos : b ≠ 0 := by
    rintro rfl
    obtain ⟨i, hi, -⟩ := htaken
    have hheader := hb.headerBlocks_pos 0
    have hfirst := hdata.1.1
    refine hdata.2 0 (by omega) ?_
    unfold Geometry.start
    omega
  refine ⟨h.run.congr rfl rfl hgroups, ?_, ?_, ?_, ?_, ?_, ?_⟩
  · intro i hi
    exact (hgroups i hi).hasSuperblock.trans (h.hasSuperblock i hi)
  · intro c hc b' hmem
    rw [taken_congr hgroups]
    rw [hchunks, List.mem_append, List.mem_singleton] at hc
    rcases hc with hc | rfl
    · exact h.chunks c hc b' hmem
    · rw [Chunk.mem_blocks_single hbs] at hmem
      exact hmem ▸ htaken
  · intro alloc a p' next hlast
    cases hlast
  · intro q hq hne
    by_cases hqp : q = p
    · subst hqp
      rw [XattrState.iFileAclLo_granted hlt]
      refine ⟨⟨hdata.1.2, hheld, _, XattrState.find_granted, ?_, ?_, ?_⟩, fun q' hq' heq => ?_⟩
      · rw [XattrState.bytes_granted]
        exact isXattrHeader_new
      · rw [hchunks]
        exact List.mem_append_right _ (List.mem_singleton_self _)
      · intro c hc hcover
        rw [hchunks, List.mem_append, List.mem_singleton] at hc
        rcases hc with hc | rfl
        · exact absurd hcover (hfresh c hc)
        · rfl
      · by_contra hne'
        rw [XattrState.iFileAclLo_granted_of_ne hq hq' hne' hsize] at heq
        exact hother q' hq' (heq ▸ hpos) heq
    · rw [XattrState.iFileAclLo_granted_of_ne hp hq hqp hsize] at hne ⊢
      obtain ⟨hholds, hunique⟩ := h.sound q hq hne
      obtain ⟨block, hfind, hheader, hmem, honly⟩ := hholds.header
      obtain ⟨e, he, rfl⟩ := XattrState.exists_of_find hfind
      have hold : e.2 ≠ s.run.st.out.brk := (h.numbers e he).ne
      refine ⟨⟨hholds.lt, hholds.held, e.2, (XattrState.find_granted_of_ne hqp).trans hfind, ?_, ?_,
        ?_⟩, fun q' hq' heq => ?_⟩
      · rw [XattrState.buffers_granted_of_ne hold]
        exact hheader
      · rw [hchunks]
        exact List.mem_append_left _ hmem
      · intro c hc hcover
        rw [hchunks, List.mem_append, List.mem_singleton] at hc
        rcases hc with hc | rfl
        · exact honly c hc hcover
        · exact absurd ((Chunk.mem_blocks_single hbs).mp hcover) (hother q hq hne)
      · by_cases hqp' : q' = p
        · subst hqp'
          rw [XattrState.iFileAclLo_granted hlt] at heq
          exact absurd heq.symm (hother q hq hne)
        · rw [XattrState.iFileAclLo_granted_of_ne hp hq' hqp' hsize] at heq
          exact hunique q' hq' heq
  · intro q hq hnone
    by_cases hqp : q = p
    · subst hqp
      rw [XattrState.find_granted] at hnone
      cases hnone
    · rw [XattrState.iFileAclLo_granted_of_ne hp hq hqp hsize]
      exact h.unlisted q hq ((XattrState.find_granted_of_ne hqp).symm.trans hnone)
  · intro e he
    have hbrk : (s.granted g p b).run.st.out.brk = s.run.st.out.brk + 1 := rfl
    rw [hbrk]
    rcases List.mem_cons.mp he with rfl | he
    · exact Nat.lt_succ_self _
    · exact (h.numbers e he).trans (Nat.lt_succ_self _)

/-- A request for an inode without a block, by how far it gets. -/
theorem getXattrBlockForInode_none {a : Answers} (hnone : s.xattrListFind p = none)
    (call : allocateBlock g s.run.st = .ok (b, st)) : getXattrBlockForInode g p a s =
      if a.calloc = false then .ok (none, { s with run := s.run.handOut b st })
      else if a.addData = false then
        .ok (none, XattrState.entered g p b { s with run := s.run.handOut b st })
      else .ok (some st.out.brk,
        XattrState.granted g p b { s with run := s.run.handOut b st }) := by
  unfold getXattrBlockForInode
  rw [hnone]
  simp only [call, bind_ok]
  rfl

/-- A request that is granted, or given up at once. -/
theorem XattrInv.getXattrBlock (hg : g.Roomy) (hb : g.Built) (h : XattrInv g s) (hp : IsInode g p)
    (hsize : sizeofInode ≤ g.info.inodeSize) {a : Answers} (hgrant : s.xattrListFind p = none →
      a.calloc = false ∨ HasFreeBlock g s.run.st ∧ a.addData = true) {r : Option ℕ} {s' : XattrState}
    (hget : getXattrBlockForInode g p a s = .ok (r, s')) : XattrInv g s' := by
  cases hfind : s.xattrListFind p with
  | some block =>
      unfold getXattrBlockForInode at hget
      rw [hfind] at hget
      cases hget
      exact h
  | none =>
      obtain ⟨⟨b, st⟩, call⟩ :=
        allocateBlockLoop_returns hg.fits h.run.groups g.aux.groups 0 (by omega)
      have hexec : Call.allocateBlock.exec g s.run =
          .ok (s.run.handOut b st) := by
        show (allocateBlock g s.run.st >>= _) = _
        rw [allocateBlock, call]
        rfl
      have hvalid : Call.allocateBlock.Valid := trivial
      have halloc := h.allocator hg hb hvalid hexec
      have hout : st.out = s.run.st.out := (Call.exec_frame hg h.run hvalid hexec).1
      rw [getXattrBlockForInode_none hfind call] at hget
      split at hget
      · cases hget
        exact halloc
      · rename_i hcalloc
        obtain ⟨hfree, hadd⟩ := (hgrant hfind).resolve_left hcalloc
        rw [if_neg (by simp [hadd])] at hget
        cases hget
        obtain ⟨-, -, ⟨-, hfull⟩ | ⟨hne, htaken⟩⟩ := h.allocateBlock_outcome hg.fits hb call
        · exact absurd hfree hfull
        · refine halloc.granted hg.fits hb hp hsize ?_ ?_
          · rw [RunState.handOut, if_neg hne]
            exact List.mem_cons_self
          · intro c hc hcover
            exact htaken (h.chunks c (hout ▸ hc) b hcover)

end Granted

/-- `xattr_add` when its request, if it makes one, is granted. -/
theorem XattrInv.xattrAdd (hg : g.Roomy) (hb : g.Built)
    (ht : g.info.inodesPerGroup * g.info.inodeSize < 2 ^ 32) (h : XattrInv g s) {inode : ℕ}
    {x : Xattr} {a : Answers} (hname : x.name.length ≤ 255) (hgrant : Granted g inode x a s)
    {ok : Bool} {s' : XattrState} (hrun : xattrAdd g inode x a s = .ok (ok, s')) :
    XattrInv g s' := by
  unfold Ext4.xattrAdd at hrun
  rw [bind_eq_ok] at hrun
  obtain ⟨⟨ok₁, p, s₁⟩, hat, hrun⟩ := hrun
  obtain ⟨hp, hsize, hleaves⟩ := h.addAtInode hg.fits hb ht hname hat
  have h₁ := h.leaves hleaves
  cases ok₁ with
  | true =>
      cases hrun
      exact h₁
  | false =>
      simp only [Bool.false_eq_true, if_false, xattrAddInBlock, bind_eq_ok] at hrun
      obtain ⟨⟨header, s₂⟩, hget, hrun⟩ := hrun
      rw [Granted, hat] at hgrant
      have h₂ := h₁.getXattrBlock hg hb hp hsize hgrant hget
      cases header with
      | none =>
          cases hrun
          exact h₂
      | some block =>
          rw [bind_eq_ok] at hrun
          obtain ⟨⟨ok₂, m⟩, hadd, hrun⟩ := hrun
          cases hrun
          exact h₂.leaves (leavesXattrs_setBuffer s₂ (xattrAddtoBlock_frame hadd))

/-- A failure is reported, and the inode left as it was, exactly if the request is granted: what
fails once the buffer is there has already changed the inode. -/
theorem XattrInv.reportsFailure_iff (hg : g.Roomy) (hb : g.Built)
    (ht : g.info.inodesPerGroup * g.info.inodeSize < 2 ^ 32) (h : XattrInv g s) {inode : ℕ}
    {x : Xattr} {a : Answers} (hname : x.name.length ≤ 255) :
    ReportsFailure g inode x a s ↔ Granted g inode x a s := by
  unfold Granted
  split
  · rename_i p s₁ hat
    obtain ⟨hp, hsize, hleaves⟩ := h.addAtInode hg.fits hb ht hname hat
    have h₁ := h.leaves hleaves
    obtain ⟨⟨b, st⟩, call⟩ :=
      allocateBlockLoop_returns hg.fits h₁.run.groups g.aux.groups 0 (by omega)
    obtain ⟨hpos, hlt, -⟩ := h₁.allocateBlock_outcome hg.fits hb call
    constructor
    · intro hreports hnone
      by_contra hno
      obtain ⟨hcalloc, hfail⟩ := not_or.mp hno
      obtain ⟨s₂, hget, -, -, hacl⟩ := hreports p s₁ hat hnone (by
        rw [not_and_or, Bool.not_eq_true] at hfail
        exact hfail)
      rw [getXattrBlockForInode_none hnone call, if_neg hcalloc] at hget
      split at hget
      · cases hget
        rw [h₁.unlisted p hp hnone, XattrState.iFileAclLo_entered hlt] at hacl
        exact hpos.ne' hacl
      · cases hget
    · intro hgrant p' s₁' hat' hnone hfail
      rw [hat] at hat'
      cases hat'
      have hcalloc : a.calloc = false := by
        refine (hgrant hnone).resolve_right fun hboth => ?_
        rcases hfail with hfull | hno
        · exact hfull hboth.1
        · rw [hno] at hboth
          cases hboth.2
      have hget := getXattrBlockForInode_none (a := a) hnone call
      rw [if_pos hcalloc] at hget
      have htables : SameTables s₁.run.st.bgs st.bgs := by
        obtain ⟨-, rfl, -⟩ | ⟨i, htakes, -⟩ := allocateBlock_cases hg.fits h₁.run.groups call
        · exact fun _ => ⟨rfl, rfl⟩
        · exact htakes.sameTables
      refine ⟨_, hget, ?_, State.iBlocksLo_congr (htables p.bg).1,
        State.iFileAclLo_congr (htables p.bg).1⟩
      unfold Ext4.xattrAdd
      rw [hat, bind_ok]
      simp only [Bool.false_eq_true, if_false, xattrAddInBlock]
      rw [hget]
      rfl
  · rename_i hother
    refine iff_of_true (fun p s₁ hat => absurd hat (hother p s₁)) trivial

/-- One step. -/
theorem XattrInv.exec (hg : g.Roomy) (hb : g.Built)
    (ht : g.info.inodesPerGroup * g.info.inodeSize < 2 ^ 32) (h : XattrInv g s) {c : XattrCall}
    (hvalid : c.Valid g s) (hmeets : c.Meets g s) {s' : XattrState} (hexec : c.exec g s = .ok s') :
    XattrInv g s' := by
  cases c with
  | allocator c =>
      simp only [XattrCall.exec, bind_eq_ok, Except.ok.injEq] at hexec
      obtain ⟨r, hc, rfl⟩ := hexec
      exact h.allocator hg hb hvalid hc
  | xattrAdd inode x a =>
      simp only [XattrCall.exec, bind_eq_ok, Except.ok.injEq] at hexec
      obtain ⟨⟨ok, s₁⟩, hadd, rfl⟩ := hexec
      exact h.xattrAdd hg hb ht hvalid hmeets hadd
  | other s₁ =>
      cases hexec
      exact h.leaves hvalid

/-- The run from a state in which the invariant holds. -/
theorem XattrInv.run_iff (hg : g.Roomy) (hb : g.Built)
    (ht : g.info.inodesPerGroup * g.info.inodeSize < 2 ^ 32) (calls : List XattrCall) :
    ∀ {s : XattrState}, XattrInv g s → ValidRun g calls s →
      (StaysSound g calls s ↔ AllGranted g calls s) := by
  induction calls with
  | nil =>
      intro s h _
      exact iff_of_true h.sound trivial
  | cons c calls ih =>
      intro s h hvalid
      have hstep : c.Reports g s ↔ c.Meets g s := by
        cases c with
        | allocator c => exact Iff.rfl
        | xattrAdd inode x a => exact h.reportsFailure_iff hg hb ht hvalid.1
        | other s₁ => exact Iff.rfl
      have hnext : c.Meets g s → ∀ s', c.exec g s = .ok s' →
          (StaysSound g calls s' ↔ AllGranted g calls s') := fun hmeets s' hexec =>
        ih (h.exec hg hb ht hvalid.1 hmeets hexec) (hvalid.2 s' hexec)
      constructor
      · intro hsound
        have hmeets := hstep.mp hsound.2.1
        exact ⟨hmeets, fun s' hexec => (hnext hmeets s' hexec).mp (hsound.2.2 s' hexec)⟩
      · intro hgranted
        refine ⟨h.sound, hstep.mpr hgranted.1, fun s' hexec => ?_⟩
        exact (hnext hgranted.1 s' hexec).mpr (hgranted.2 s' hexec)

/-- **When the blocks of extended attributes stay sound**: in a run from `block_allocator_init` on,
every inode that names a block has a block of its own with its registered header in it, and every
failure is reported and leaves the inode alone, exactly if no request fails but for want of a
buffer. -/
theorem staysSound_iff (hg : g.Roomy) (hb : g.Built)
    (ht : g.info.inodesPerGroup * g.info.inodeSize < 2 ^ 32)
    (hinit : blockAllocatorInit g State.empty = .ok st) {calls : List XattrCall}
    (hcalls : ValidRun g calls ⟨⟨st, [], none⟩, []⟩) :
    StaysSound g calls ⟨⟨st, [], none⟩, []⟩ ↔ AllGranted g calls ⟨⟨st, [], none⟩, []⟩ :=
  (XattrInv.init hg hb hinit).run_iff hg hb ht calls hcalls

end Invariant

/-! ## A device without room -/

section Prefix

variable {g : Geometry}

/-- A run that begins with calls of the allocator. -/
theorem allGranted_allocator {rest : List XattrCall} (calls : List Call) : ∀ {s : XattrState}
    {r : RunState}, execAll g calls s.run = .ok r →
      (AllGranted g (calls.map .allocator ++ rest) s ↔ AllGranted g rest { s with run := r }) := by
  induction calls with
  | nil =>
      intro s r hexec
      cases hexec
      exact Iff.rfl
  | cons c calls ih =>
      intro s r hexec
      rw [execAll, bind_eq_ok] at hexec
      obtain ⟨r₁, hc, hexec⟩ := hexec
      have hstep : (XattrCall.allocator c).exec g s = .ok { s with run := r₁ } := by
        simp [XattrCall.exec, hc]
      rw [← ih (s := { s with run := r₁ }) hexec]
      constructor
      · intro h
        exact h.2 _ hstep
      · intro h
        refine ⟨trivial, fun s' hs' => ?_⟩
        obtain rfl := Except.ok.inj (hstep.symm.trans hs')
        exact h

theorem validRun_allocator {rest : List XattrCall} {calls : List Call}
    (hcalls : ∀ c ∈ calls, c.Valid)
    (hrest : ∀ s, ValidRun g rest s) (s : XattrState) :
    ValidRun g (calls.map .allocator ++ rest) s := by
  induction calls generalizing s with
  | nil => exact hrest s
  | cons c calls ih =>
      exact ⟨hcalls c List.mem_cons_self,
        fun s' _ => ih (fun c' hc' => hcalls c' (List.mem_cons_of_mem _ hc')) s'⟩

end Prefix

/-- A device like the tiny one, with inodes that have room for attributes behind them. -/
def labelledInfo : FsInfo where
  len := 73 * 1024
  blockSize := 1024
  blocksPerGroup := 16
  inodesPerGroup := 8
  inodeSize := 256
  inodes := 40
  journalBlocks := 0
  featRoCompat := 0
  featCompat := 0
  featIncompat := 0
  bgDescReserveBlocks := 0
  label := []
  noJournal := true

def labelled : Geometry where
  info := labelledInfo
  aux := (ext4CreateFsAuxInfo labelledInfo).get (by decide)
  create := by decide

theorem roomy_labelled : labelled.Roomy := ⟨by decide, by decide, by decide⟩

theorem built_labelled : labelled.Built := ⟨by decide, by decide, by decide⟩

/-- A run on that device, with something that can be computed of where it leads. -/
theorem exists_labelledRun (calls : List Call) (P : XattrState → Prop) [DecidablePred P]
    (h : (match allocatorRun labelled calls with
      | .ok r => decide (P ⟨r, []⟩)
      | .error _ => false) = true) :
    ∃ st r, blockAllocatorInit labelled State.empty = .ok st ∧
      execAll labelled calls ⟨st, [], none⟩ = .ok r ∧ P ⟨r, []⟩ := by
  obtain ⟨r, hrun, hr⟩ := exists_allocatorRun (P := fun r => P ⟨r, []⟩) h
  rw [allocatorRun, bind_eq_ok] at hrun
  obtain ⟨st, hinit, hexec⟩ := hrun
  exact ⟨st, r, hinit, hexec, hr⟩

/-- A label of 100 bytes does not fit behind an inode of 256. -/
def labelCall : XattrCall := .xattrAdd 3 (selinux 100) ⟨true, true⟩

theorem labelCall_valid (s : XattrState) : ValidRun labelled [labelCall] s := by
  have hname : (selinux 100).name.length ≤ 255 := by decide
  exact ⟨hname, fun _ _ => trivial⟩

/-- One block of the device is in use, and the next becomes the block of the inode. -/
theorem staysSound_iff_label : ∃ st, blockAllocatorInit labelled State.empty = .ok st ∧
    StaysSound labelled ([Call.allocateBlock].map .allocator ++ [labelCall]) ⟨⟨st, [], none⟩, []⟩ := by
  obtain ⟨st, r, hinit, hexec, hgranted⟩ := exists_labelledRun [.allocateBlock]
    (Granted labelled 3 (selinux 100) ⟨true, true⟩) (by decide)
  refine ⟨st, hinit, (staysSound_iff roomy_labelled built_labelled (by decide) hinit
    (validRun_allocator (by decide) labelCall_valid _)).mpr ?_⟩
  exact (allGranted_allocator _ hexec).mpr ⟨hgranted, fun _ _ => trivial⟩

/-- All 42 data blocks of the device are in use. -/
theorem not_staysSound_full : ∃ st, blockAllocatorInit labelled State.empty = .ok st ∧
    ValidRun labelled ([Call.allocateBlocks 42].map .allocator ++ [labelCall]) ⟨⟨st, [], none⟩, []⟩ ∧
    ¬ StaysSound labelled ([Call.allocateBlocks 42].map .allocator ++ [labelCall])
      ⟨⟨st, [], none⟩, []⟩ := by
  obtain ⟨st, r, hinit, hexec, hrefused⟩ := exists_labelledRun [.allocateBlocks 42]
    (fun s => ¬ Granted labelled 3 (selinux 100) ⟨true, true⟩ s) (by decide)
  have hvalid : ValidRun labelled ([Call.allocateBlocks 42].map .allocator ++ [labelCall])
      ⟨⟨st, [], none⟩, []⟩ := validRun_allocator (by decide) labelCall_valid _
  refine ⟨st, hinit, hvalid, fun hsound => hrefused ?_⟩
  have hinv := XattrInv.init roomy_labelled built_labelled hinit
  have hgranted := (hinv.run_iff roomy_labelled built_labelled (by decide) _ hvalid).mp hsound
  exact ((allGranted_allocator _ hexec).mp hgranted).1

end SystemExtras.Ext4
