import SystemExtras.Ext4.Contents
import SystemExtras.Lib.Records

/-!
# Permissions and labels

A translation of the rest of `contents.c`: the functions that
`build_directory_structure` calls on an inode once it is there.

Permissions are fields of the inode.  A label is an extended attribute, which goes
behind the inode or into a block, and the list of these blocks is part of the
state.  `LabelsInode` says what may change while an inode is labelled: of the
inode, what says nothing about its contents, and of the buffers the one that is
registered for it.
-/

namespace SystemExtras.Ext4

open Mem

/-! ## The code -/

namespace Inode

def iAtime : Field := ⟨8, 4⟩
def iCtime : Field := ⟨12, 4⟩
def iMtime : Field := ⟨16, 4⟩

end Inode

/-- The assignments of `inode_set_permissions`. -/
def setPermissions (m : Mem) (base mode uid gid mtime : ℕ) : Mem :=
  m.assign [
    (Inode.iMode.at_ base, (Inode.iMode.at_ base).get m ||| mode),
    (Inode.iUid.at_ base, uid),
    (Inode.iGid.at_ base, gid),
    (Inode.iMtime.at_ base, mtime),
    (Inode.iAtime.at_ base, mtime),
    (Inode.iCtime.at_ base, mtime)]

/-- `inode_set_permissions`, which always returns zero. -/
def inodeSetPermissions (g : Geometry) (inodeNum mode uid gid mtime : ℕ) (s : State) :
    Except Stop State := do
  let (p, s) ← getInode g inodeNum s
  .ok (s.setTable p.bg (setPermissions (s.table p.bg) p.base (u16 mode) (u16 uid) (u16 gid) mtime))

/-- A filesystem that is being built, with `aux_info.xattrs`. -/
structure Builder where
  st : State
  xattrs : List (InodePtr × ℕ)

/-- `xattr_add`, when memory does not run out: whether it returns zero. -/
def addXattr (g : Geometry) (inodeNum : ℕ) (x : Xattr) (b : Builder) :
    Except Stop (Bool × Builder) := do
  let (ok, s) ← xattrAdd g inodeNum x ⟨true, true⟩ ⟨⟨b.st, [], none⟩, b.xattrs⟩
  .ok (ok, ⟨s.run.st, s.xattrs⟩)

def EXT4_XATTR_INDEX_SECURITY : ℕ := 6

/-- `XATTR_SELINUX_SUFFIX`, `"selinux"`. -/
def XATTR_SELINUX_SUFFIX : List UInt8 := [115, 101, 108, 105, 110, 117, 120]

theorem selinuxSuffix_ne : ∀ c ∈ XATTR_SELINUX_SUFFIX, c ≠ 0 := by
  simp [XATTR_SELINUX_SUFFIX]

/-- `XATTR_CAPS_SUFFIX`, `"capability"`. -/
def XATTR_CAPS_SUFFIX : List UInt8 := [99, 97, 112, 97, 98, 105, 108, 105, 116, 121]

/-- `inode_set_selinux`: whether it returns zero.  No string is longer than memory. -/
def inodeSetSelinux (g : Geometry) (inodeNum : ℕ) (secon : Option (List UInt8)) (b : Builder) :
    Except Stop (Bool × Builder) :=
  match secon with
  | none => .ok (true, b)
  | some secon =>
      if h : (secon ++ [0]).length < 2 ^ 62 then
        addXattr g inodeNum {
          nameIndex := EXT4_XATTR_INDEX_SECURITY
          name := XATTR_SELINUX_SUFFIX
          name_ne := selinuxSuffix_ne
          value := secon ++ [0]
          value_lt := h } b
      else .error .undefined

/-- `VFS_CAP_REVISION | VFS_CAP_FLAGS_EFFECTIVE`. -/
def VFS_CAP_MAGIC : ℕ := 0x02000000 ||| 0x000001

/-- A `struct vfs_cap_data`. -/
def capData (capabilities : ℕ) : List UInt8 :=
  leBytes 4 VFS_CAP_MAGIC ++ leBytes 4 capabilities ++ leBytes 4 0 ++
    leBytes 4 (capabilities / 2 ^ 32) ++ leBytes 4 0

/-- `inode_set_capabilities`: whether it returns zero. -/
def inodeSetCapabilities (g : Geometry) (inodeNum capabilities : ℕ) (b : Builder) :
    Except Stop (Bool × Builder) :=
  if capabilities = 0 then .ok (true, b)
  else addXattr g inodeNum {
    nameIndex := EXT4_XATTR_INDEX_SECURITY
    name := XATTR_CAPS_SUFFIX
    name_ne := by simp [XATTR_CAPS_SUFFIX]
    value := capData capabilities
    value_lt := by simp [capData] } b

/-! ## Permissions -/

/-- Inode `n` has the mode, the owner and the times of an entry. -/
structure HasPermissions (g : Geometry) (s : State) (n mode uid gid mtime : ℕ) : Prop where
  mode : modeOf g s n = mode
  uid : (Inode.iUid.at_ (g.inodeAt n).base).get (s.table (g.groupOf n)) = uid
  gid : (Inode.iGid.at_ (g.inodeAt n).base).get (s.table (g.groupOf n)) = gid
  times : ∀ f ∈ [Inode.iAtime, Inode.iMtime, Inode.iCtime],
    (f.at_ (g.inodeAt n).base).get (s.table (g.groupOf n)) = mtime

section Permissions

variable {g : Geometry} {labels : Prop} {spare : Set ℕ} {s s' : State} {m : Mem}
  {n base mode uid gid mtime x : ℕ}

/-- Permissions are kept while the first bytes of the inode are. -/
theorem HasPermissions.congr (h : HasPermissions g s n mode uid gid mtime)
    (hsame : (s.table (g.groupOf n)).SameOn (s'.table (g.groupOf n)) (g.inodeAt n).base
      ((g.inodeAt n).base + 28)) : HasPermissions g s' n mode uid gid mtime := by
  have hget : ∀ f : Field, f.offset + f.width ≤ 28 →
      (f.at_ (g.inodeAt n).base).get (s'.table (g.groupOf n)) =
        (f.at_ (g.inodeAt n).base).get (s.table (g.groupOf n)) := by
    intro f hf
    refine (Field.get_congr hsame ?_ ?_).symm
    all_goals
      simp only [Field.at_]
      omega
  refine ⟨(hget _ (by decide)).trans h.mode, (hget _ (by decide)).trans h.uid,
    (hget _ (by decide)).trans h.gid, fun f hf => (hget f ?_).trans (h.times f hf)⟩
  revert f
  decide

theorem setPermissions_apply (h₁ : x < base ∨ base + 4 ≤ x) (h₂ : x < base + 8 ∨ base + 20 ≤ x)
    (h₃ : x < base + 24 ∨ base + 26 ≤ x) :
    setPermissions m base mode uid gid mtime x = m x := by
  apply Mem.assign_apply_of_not_mem
  simp only [List.forall_mem_cons, List.not_mem_nil, false_implies, implies_true, and_true,
    Field.at_, Inode.iMode, Inode.iUid, Inode.iGid, Inode.iMtime, Inode.iAtime, Inode.iCtime]
  omega

theorem setPermissions_disjoint (base a b c d e f : ℕ) :
    ([(Inode.iMode.at_ base, a), (Inode.iUid.at_ base, b), (Inode.iGid.at_ base, c),
      (Inode.iMtime.at_ base, d), (Inode.iAtime.at_ base, e),
      (Inode.iCtime.at_ base, f)].map Prod.fst).Pairwise Field.Disjoint := by
  simp [Field.Disjoint, Field.at_, Inode.iMode, Inode.iUid, Inode.iGid, Inode.iMtime, Inode.iAtime,
    Inode.iCtime]

/-- `inode_set_permissions` adds permissions to the type of an inode. -/
theorem inodeSetPermissions_spec (hu : g.Usable) (hl : Laid g labels spare s) (hn : InUse g s n)
    (hmode : u16 mode &&& S_IFMT = 0)
    (hrun : inodeSetPermissions g n mode uid gid mtime s = .ok s') :
    Does g labels spare {n} ∅ [] [] s s' ∧ SameContent g s s' n ∧
      HasPermissions g s' n (modeOf g s n ||| u16 mode) (u16 uid) (u16 gid) (u32 mtime) := by
  have hsize := hu.numbered.inodeSize_ge
  unfold EXT4_GOOD_OLD_INODE_SIZE at hsize
  obtain ⟨s₁, hget, hgetdoes, htable, hsame⟩ := does_getInode hu hl hn
  simp only [inodeSetPermissions, hget, bind_ok, Except.ok.injEq] at hrun
  have hm : s'.table (g.groupOf n) = setPermissions (s.table (g.groupOf n)) (g.inodeAt n).base
      (u16 mode) (u16 uid) (u16 gid) mtime := by
    rw [← hsame, ← hrun]
    exact State.table_setTable_self
  have hdoes : Does g labels spare {n} ∅ [] [] s₁ s' := by
    rw [← hrun]
    refine does_setTable hu.numbered hgetdoes.laid (hgetdoes.keeps.inUse n hn) htable fun x hx => ?_
    exact setPermissions_apply (by omega) (by omega) (by omega)
  have hon : ∀ lo hi, (hi ≤ (g.inodeAt n).base ∨ (g.inodeAt n).base + 4 ≤ lo) →
      (hi ≤ (g.inodeAt n).base + 8 ∨ (g.inodeAt n).base + 20 ≤ lo) →
      (hi ≤ (g.inodeAt n).base + 24 ∨ (g.inodeAt n).base + 26 ≤ lo) →
      (s.table (g.groupOf n)).SameOn (s'.table (g.groupOf n)) lo hi := by
    intro lo hi h₁ h₂ h₃ x hlo hhi
    rw [hm]
    exact (setPermissions_apply (by omega) (by omega) (by omega)).symm
  have hlt := (Inode.iMode.at_ (g.inodeAt n).base).get_lt (s.table (g.groupOf n))
  have hnewmode : modeOf g s' n = modeOf g s n ||| u16 mode := by
    rw [modeOf, hm]
    refine (Field.get_assign (setPermissions_disjoint _ _ _ _ _ _ _) 0 rfl _).trans
      (Nat.mod_eq_of_lt ?_)
    exact Nat.or_lt_two_pow (n := 16) hlt (u16_lt mode)
  refine ⟨(hgetdoes.mono (Set.empty_subset _) subset_rfl).trans hdoes,
    ⟨?_, hon _ _ (by omega) (by omega) (by omega), hon _ _ (by omega) (by omega) (by omega),
      hon _ _ (by omega) (by omega) (by omega), hon _ _ (by omega) (by omega) (by omega)⟩,
    hnewmode, ?_, ?_, ?_⟩
  · rw [hnewmode, Nat.and_or_distrib_right, hmode, Nat.or_zero]
  · rw [hm]
    exact (Field.get_assign (setPermissions_disjoint _ _ _ _ _ _ _) 1 rfl _).trans (Nat.mod_mod _ _)
  · rw [hm]
    exact (Field.get_assign (setPermissions_disjoint _ _ _ _ _ _ _) 2 rfl _).trans (Nat.mod_mod _ _)
  · intro f hf
    rw [hm]
    revert f
    simp only [List.forall_mem_cons, List.not_mem_nil, false_implies, implies_true, and_true]
    exact ⟨Field.get_assign (setPermissions_disjoint _ _ _ _ _ _ _) 4 rfl _,
      Field.get_assign (setPermissions_disjoint _ _ _ _ _ _ _) 3 rfl _,
      Field.get_assign (setPermissions_disjoint _ _ _ _ _ _ _) 5 rfl _⟩

end Permissions

/-! ## Labels -/

/-- The buffers that are registered for inode `n`. -/
def registeredFor (g : Geometry) (b : Builder) (n : ℕ) : Set ℕ := {id | (g.inodeAt n, id) ∈ b.xattrs}

/-- The list names inodes in use, and buffers that there are. -/
structure Registered (g : Geometry) (b : Builder) : Prop where
  inUse : ∀ e ∈ b.xattrs, ∃ n, InUse g b.st n ∧ e.1 = g.inodeAt n
  lt : ∀ e ∈ b.xattrs, e.2 < b.st.out.brk

/-- What may happen while inode `n` is labelled. -/
structure LabelsInode (g : Geometry) (labels : Prop) (spare : Set ℕ) (n : ℕ) (b b' : Builder) :
    Prop where
  does : Does g labels spare {n} (registeredFor g b n) [] [] b.st b'.st
  content : SameContent g b.st b'.st n
  start : (b.st.table (g.groupOf n)).SameOn (b'.st.table (g.groupOf n)) (g.inodeAt n).base
    ((g.inodeAt n).base + 28)
  registered : Registered g b'
  new : ∀ e ∈ b'.xattrs, e ∈ b.xattrs ∨ e.1 = g.inodeAt n ∧ b.st.out.brk ≤ e.2

section Labels

variable {g : Geometry} {labels : Prop} {spare : Set ℕ} {s s₁ : State} {b b' b'' : Builder} {n : ℕ}

namespace LabelsInode

theorem refl (hl : Laid g labels spare b.st) (hr : Registered g b) :
    LabelsInode g labels spare n b b where
  does := ⟨hl, Keeps.refl _, .of_same (fun _ => rfl) fun _ => rfl⟩
  content := ⟨rfl, fun _ _ _ => rfl, fun _ _ _ => rfl, fun _ _ _ => rfl, fun _ _ _ => rfl⟩
  start := fun _ _ _ => rfl
  registered := hr
  new := fun _ he => .inl he

theorem trans (h : LabelsInode g labels spare n b b') (h' : LabelsInode g labels spare n b' b'') :
    LabelsInode g labels spare n b b'' where
  does := by
    refine h.does.trans_new h'.does (fun _ hk _ => hk) fun id hid hlt => ?_
    rcases h.new _ hid with hold | ⟨-, hnew⟩
    · exact hold
    · exact absurd hnew hlt.not_ge
  content := h.content.trans h'.content
  start := h.start.trans h'.start
  registered := h'.registered
  new := by
    intro e he
    rcases h'.new e he with he | ⟨hp, hge⟩
    · exact h.new e he
    · exact .inr ⟨hp, h.does.keeps.brk.trans hge⟩

end LabelsInode

/-- A block for attributes is allocated and queued. -/
theorem does_xattrBlock (hu : g.Usable) (hl : Laid g labels spare s) (hlabels : labels) {block : ℕ}
    (call : allocateBlock g s = .ok (block, s₁)) (bytes : Mem) :
    s₁.out = s.out ∧ (∀ i, (s₁.bgs i).inodeTable = (s.bgs i).inodeTable) ∧
    Does g labels spare ∅ ∅ [] [] s (((s₁.calloc g.info.blockSize).2.setBuffer s.out.brk bytes).addChunk
      (.buffer s.out.brk 0) g.info.blockSize block) := by
  have hpos := hu.blockSize_pos
  have hone : g.info.blockSize ⌈/⌉ g.info.blockSize = 1 := by simpa using mul_ceilDiv_self hpos 1
  rcases allocateBlock_cases hu.roomy.fits hl.groups call with ⟨rfl, rfl, hfull⟩ | ⟨i, htakes, heq⟩
  · -- nothing is left: the queue gets a block that is none
    have hnone : ¬ HasFreeBlock g s₁ := by
      rintro ⟨j, hj, hfree⟩
      exact hfree.ne' (hfull j hj)
    refine ⟨rfl, fun _ => rfl, ⟨hl.groups, hl.counted, hl.hasSuperblock, hl.inodes,
      fun hroom => absurd (hroom hlabels) hnone⟩, ⟨?_, Nat.le_succ _, ?_, fun _ h => h,
      fun n _ _ => SameInode.refl g s₁ n, fun h => h⟩, .of_same (fun _ => rfl) fun _ => rfl⟩
    · exact List.subset_append_left _ _
    · intro id hid _
      simp [State.addChunk, State.setBuffer, State.calloc, Function.update_of_ne hid.ne]
  · have hall : TakesAll g s.bgs [⟨block, 1, i⟩] s₁.bgs := .cons htakes (.nil _)
    have hout : s₁.out = s.out := by rw [heq]
    have hbacks : Backs g s (((s₁.calloc g.info.blockSize).2.setBuffer s.out.brk bytes).addChunk
        (.buffer s.out.brk 0) g.info.blockSize block)
        [⟨.buffer s.out.brk 0, g.info.blockSize, block⟩] := by
      refine ⟨hall.inv hl.groups, hall.counted hu.small hl.groups hl.counted, ?_,
        hall.sameInodes hu.roomy.fits hl.groups, ?_, ?_, ?_, ?_, ?_⟩
      · have hfills := hall.fills hl.groups
        have hblocks : chunkBlocks g.info.blockSize [⟨.buffer s.out.brk 0, g.info.blockSize, block⟩] =
            blocksOf [⟨block, 1, i⟩] := by simp [Chunk.blocks, hone, Piece.blocks]
        rwa [hblocks]
      · intro _
        exact ⟨i, htakes.bg_lt, Nat.one_pos.trans_le htakes.len_le⟩
      · show s₁.out.chunks ++ _ = s.out.chunks ++ _
        rw [hout]
      · show s.out.brk ≤ s₁.out.brk + 1
        rw [hout]
        exact Nat.le_succ _
      · intro id hid
        simp [State.addChunk, State.setBuffer, State.calloc, hout, Function.update_of_ne hid.ne]
      · intro c hc
        obtain rfl := List.mem_singleton.mp hc
        exact ⟨le_rfl, by rw [← hout]; exact Nat.lt_succ_self _⟩
    exact ⟨hout, fun j => (hall.sameTables j).1, hbacks.does hu.built hl⟩

/-- Bytes that say nothing about the contents of an inode. -/
theorem sameContent_of_frame {t : Mem} (hs : s₁.table (g.groupOf n) = t)
    (hframe : ∀ x, x < (g.inodeAt n).base + 28 ∨
      (g.inodeAt n).base + 32 ≤ x ∧ x < (g.inodeAt n).base + 104 ∨
      (g.inodeAt n).base + 108 ≤ x ∧ x < (g.inodeAt n).base + 128 → t x = s.table (g.groupOf n) x) :
    SameContent g s s₁ n ∧ (s.table (g.groupOf n)).SameOn (s₁.table (g.groupOf n)) (g.inodeAt n).base
      ((g.inodeAt n).base + 28) := by
  subst hs
  have hon : ∀ lo hi, hi ≤ (g.inodeAt n).base + 28 ∨
      (g.inodeAt n).base + 32 ≤ lo ∧ hi ≤ (g.inodeAt n).base + 104 ∨
      (g.inodeAt n).base + 108 ≤ lo ∧ hi ≤ (g.inodeAt n).base + 128 →
      (s.table (g.groupOf n)).SameOn (s₁.table (g.groupOf n)) lo hi :=
    fun lo hi h x hlo hhi => (hframe x (by omega)).symm
  refine ⟨⟨?_, hon _ _ (by omega), hon _ _ (by omega), hon _ _ (by omega), hon _ _ (by omega)⟩,
    hon _ _ (by omega)⟩
  rw [modeOf, modeOf, ← Field.get_congr (hon (g.inodeAt n).base ((g.inodeAt n).base + 2) (by omega))]
  all_goals simp [Field.at_, Inode.iMode]

/-- The first part of `xattr_add`. -/
theorem xattrAddAtInode_spec (hu : g.Usable) (hl : Laid g labels spare b.st) (hn : InUse g b.st n)
    (hr : Registered g b) {x : Xattr} (hname : x.name.length ≤ 255) {ok : Bool} {p : InodePtr}
    {s : XattrState} (hrun : xattrAddAtInode g n x ⟨⟨b.st, [], none⟩, b.xattrs⟩ = .ok (ok, p, s)) :
    p = g.inodeAt n ∧ (s.run.st.bgs (g.groupOf n)).inodeTable ≠ none ∧
      LabelsInode g labels spare n b ⟨s.run.st, s.xattrs⟩ ∧ s.xattrs = b.xattrs := by
  have hsize := hu.numbered.inodeSize_ge
  unfold EXT4_GOOD_OLD_INODE_SIZE at hsize
  obtain ⟨s₁, hget, hgetdoes, htable, hsame⟩ := does_getInode hu hl hn
  simp only [xattrAddAtInode, hget, bind_ok, bind_eq_ok] at hrun
  obtain ⟨⟨ok', m⟩, hadd, hrun⟩ := hrun
  cases hrun
  obtain ⟨-, hframe⟩ := xattrAddtoInode_frame hname hadd
  unfold EXT4_GOOD_OLD_INODE_SIZE at hframe
  have hset : Does g labels spare {n} ∅ [] [] s₁ (s₁.setTable (g.groupOf n) m) :=
    does_setTable hu.numbered hgetdoes.laid (hgetdoes.keeps.inUse n hn) htable
      fun x hx => hframe x (by omega)
  have hdoes := (hgetdoes.mono (Set.empty_subset {n}) subset_rfl).trans hset
  obtain ⟨hcontent, hstart⟩ : SameContent g b.st (s₁.setTable (g.groupOf n) m) n ∧ _ :=
    sameContent_of_frame State.table_setTable_self fun x hx =>
      (hframe x (by simp only [Geometry.inodeAt] at *; omega)).trans (congrFun (hsame _) x)
  refine ⟨rfl, by simp [XattrState.setSt, Geometry.inodeAt], ⟨hdoes.mono subset_rfl (Set.empty_subset _),
    hcontent, hstart, ⟨fun e he => ?_, fun e he => (hr.lt e he).trans_le hdoes.keeps.brk⟩,
    fun e he => .inl he⟩, rfl⟩
  obtain ⟨k, hk, heq⟩ := hr.inUse e he
  exact ⟨k, hdoes.keeps.inUse k hk, heq⟩

/-- A buffer that is registered for the inode is written. -/
theorem labelsInode_setBuffer (hl : Laid g labels spare b.st) (hr : Registered g b) {id : ℕ}
    (hid : (g.inodeAt n, id) ∈ b.xattrs) (m : Mem) :
    LabelsInode g labels spare n b ⟨b.st.setBuffer id m, b.xattrs⟩ where
  does := (does_setBuffer _ hl m).mono (Set.empty_subset _) (Set.singleton_subset_iff.mpr hid)
  content := ⟨rfl, fun _ _ _ => rfl, fun _ _ _ => rfl, fun _ _ _ => rfl, fun _ _ _ => rfl⟩
  start := fun _ _ _ => rfl
  registered := ⟨hr.inUse, hr.lt⟩
  new := fun _ he => .inl he

/-- A block is made for the attributes of the inode, and registered. -/
theorem labelsInode_newBlock (hu : g.Usable) (hl : Laid g labels spare b.st) (hn : InUse g b.st n)
    (htable : (b.st.bgs (g.groupOf n)).inodeTable ≠ none) (hr : Registered g b) (hlabels : labels)
    {block : ℕ} (call : allocateBlock g b.st = .ok (block, s)) :
    LabelsInode g labels spare n b
      ⟨(enterXattrBlock g.info.blockSize (g.inodeAt n) block ((s.calloc g.info.blockSize).2.setBuffer
        s.out.brk newXattrHeader)).addChunk (.buffer s.out.brk 0) g.info.blockSize block,
        (g.inodeAt n, s.out.brk) :: b.xattrs⟩ := by
  have hsize := hu.numbered.inodeSize_ge
  unfold EXT4_GOOD_OLD_INODE_SIZE at hsize
  obtain ⟨hout, htables, hblock⟩ := does_xattrBlock hu hl hlabels call newXattrHeader
  rw [hout]
  generalize ht : (s.calloc g.info.blockSize).2.setBuffer b.st.out.brk newXattrHeader = t at hblock ⊢
  have hbgs : t.bgs = s.bgs := by rw [← ht]; rfl
  have hbrk : t.out.brk = b.st.out.brk + 1 := by rw [← ht, ← hout]; rfl
  have htable' : t.table (g.groupOf n) = b.st.table (g.groupOf n) := by
    unfold State.table
    rw [hbgs, htables]
  have hsome : (t.bgs (g.groupOf n)).inodeTable ≠ none := by rwa [hbgs, htables]
  generalize hm : (t.table (g.groupOf n)).assign [
    (Inode.iBlocksLo.at_ (g.inodeAt n).base,
      u32 (t.iBlocksLo (g.inodeAt n) + g.info.blockSize / 512)),
    (Inode.iFileAclLo.at_ (g.inodeAt n).base, block)] = m
  have hframe : ∀ x, x < (g.inodeAt n).base + 28 ∨
      (g.inodeAt n).base + 32 ≤ x ∧ x < (g.inodeAt n).base + 104 ∨ (g.inodeAt n).base + 108 ≤ x →
      m x = b.st.table (g.groupOf n) x := by
    intro x hx
    rw [← htable', ← hm]
    apply Mem.assign_apply_of_not_mem
    simp only [List.forall_mem_cons, List.not_mem_nil, false_implies, implies_true, and_true,
      Field.at_, Inode.iBlocksLo, Inode.iFileAclLo]
    omega
  have hst : (enterXattrBlock g.info.blockSize (g.inodeAt n) block t).addChunk
      (.buffer b.st.out.brk 0) g.info.blockSize block =
      (t.addChunk (.buffer b.st.out.brk 0) g.info.blockSize block).setTable (g.groupOf n) m := by
    rw [← hm]
    rfl
  rw [hst]
  have hset := does_setTable hu.numbered hblock.laid (hblock.keeps.inUse n hn) hsome
    fun x hx => (hframe x (by omega)).trans (congrFun htable'.symm x)
  have hdoes := (hblock.mono (Set.empty_subset {n}) subset_rfl).trans hset
  obtain ⟨hcontent, hstart⟩ : SameContent g b.st ((t.addChunk (.buffer b.st.out.brk 0)
      g.info.blockSize block).setTable (g.groupOf n) m) n ∧ _ :=
    sameContent_of_frame State.table_setTable_self fun x hx => hframe x (by omega)
  refine ⟨hdoes.mono subset_rfl (Set.empty_subset _), hcontent, hstart, ⟨?_, ?_⟩, ?_⟩
  · intro e he
    rcases List.mem_cons.mp he with rfl | he
    · exact ⟨n, hdoes.keeps.inUse n hn, rfl⟩
    · obtain ⟨k, hk, heq⟩ := hr.inUse e he
      exact ⟨k, hdoes.keeps.inUse k hk, heq⟩
  · intro e he
    show e.2 < t.out.brk
    rw [hbrk]
    rcases List.mem_cons.mp he with rfl | he
    · exact Nat.lt_succ_self _
    · exact (hr.lt e he).trans (Nat.lt_succ_self _)
  · intro e he
    rcases List.mem_cons.mp he with rfl | he
    · exact .inr ⟨rfl, le_rfl⟩
    · exact .inl he

/-- The second part of `xattr_add`. -/
theorem xattrAddInBlock_spec (hu : g.Usable) {s s' : XattrState} {x : Xattr} {ok : Bool}
    (hl : Laid g labels spare s.run.st) (hn : InUse g s.run.st n)
    (htable : (s.run.st.bgs (g.groupOf n)).inodeTable ≠ none)
    (hr : Registered g ⟨s.run.st, s.xattrs⟩) (hlabels : labels)
    (hrun : xattrAddInBlock g (g.inodeAt n) x ⟨true, true⟩ s = .ok (ok, s')) :
    LabelsInode g labels spare n ⟨s.run.st, s.xattrs⟩ ⟨s'.run.st, s'.xattrs⟩ := by
  rw [xattrAddInBlock, bind_eq_ok] at hrun
  obtain ⟨⟨header, s₁⟩, hget, hrun⟩ := hrun
  cases hfind : s.xattrListFind (g.inodeAt n) with
  | some id =>
      rw [getXattrBlockForInode, hfind] at hget
      cases hget
      simp only [bind_eq_ok] at hrun
      obtain ⟨⟨ok', m⟩, -, hrun⟩ := hrun
      cases hrun
      obtain ⟨e, hmem, heq⟩ := Option.map_eq_some_iff.mp hfind
      have hp : e.1 = g.inodeAt n := by simpa using List.find?_some hmem
      refine labelsInode_setBuffer hl hr ?_ m
      rw [← hp, ← heq]
      exact List.mem_of_find?_eq_some hmem
  | none =>
      obtain ⟨⟨block, st⟩, call⟩ :=
        allocateBlockLoop_returns hu.roomy.fits hl.groups g.aux.groups 0 (by omega)
      have hnew := labelsInode_newBlock (b := ⟨s.run.st, s.xattrs⟩) hu hl hn htable hr hlabels call
      rw [getXattrBlockForInode_none hfind call] at hget
      cases hget
      simp only [bind_eq_ok] at hrun
      obtain ⟨⟨ok', m⟩, -, hrun⟩ := hrun
      cases hrun
      exact hnew.trans (labelsInode_setBuffer hnew.does.laid hnew.registered List.mem_cons_self m)

/-- `xattr_add`. -/
theorem addXattr_spec (hu : g.Usable) (hl : Laid g labels spare b.st) (hn : InUse g b.st n)
    (hr : Registered g b) (hlabels : labels) {x : Xattr} (hname : x.name.length ≤ 255) {ok : Bool}
    (hrun : addXattr g n x b = .ok (ok, b')) : LabelsInode g labels spare n b b' := by
  simp only [addXattr, xattrAdd, bind_eq_ok] at hrun
  obtain ⟨⟨ok', s⟩, ⟨⟨ok'', p, s₁⟩, hfirst, hsecond⟩, hrun⟩ := hrun
  cases hrun
  obtain ⟨rfl, htable, hlabel, hxattrs⟩ := xattrAddAtInode_spec hu hl hn hr hname hfirst
  split at hsecond
  · cases hsecond
    exact hlabel
  · refine hlabel.trans (xattrAddInBlock_spec hu hlabel.does.laid (hlabel.does.keeps.inUse n hn)
      htable hlabel.registered hlabels hsecond)

/-- `inode_set_selinux`. -/
theorem inodeSetSelinux_spec (hu : g.Usable) (hl : Laid g labels spare b.st) (hn : InUse g b.st n)
    (hr : Registered g b) {secon : Option (List UInt8)} (hlabels : secon ≠ none → labels) {ok : Bool}
    (hrun : inodeSetSelinux g n secon b = .ok (ok, b')) : LabelsInode g labels spare n b b' := by
  cases secon with
  | none =>
      cases hrun
      exact .refl hl hr
  | some secon =>
      simp only [inodeSetSelinux] at hrun
      split at hrun
      · have hname : XATTR_SELINUX_SUFFIX.length ≤ 255 := by decide
        exact addXattr_spec hu hl hn hr (hlabels (by simp)) hname hrun
      · cases hrun

/-- `inode_set_capabilities`. -/
theorem inodeSetCapabilities_spec (hu : g.Usable) (hl : Laid g labels spare b.st)
    (hn : InUse g b.st n) (hr : Registered g b) {capabilities : ℕ}
    (hlabels : capabilities ≠ 0 → labels) {ok : Bool}
    (hrun : inodeSetCapabilities g n capabilities b = .ok (ok, b')) :
    LabelsInode g labels spare n b b' := by
  unfold inodeSetCapabilities at hrun
  split at hrun
  · cases hrun
    exact .refl hl hr
  · rename_i hcapabilities
    have hname : XATTR_CAPS_SUFFIX.length ≤ 255 := by decide
    exact addXattr_spec hu hl hn hr (hlabels hcapabilities) hname hrun

end Labels

end SystemExtras.Ext4
