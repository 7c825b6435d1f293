import SystemExtras.Ext4.Contents
import SystemExtras.Ext4.Resize
import SystemExtras.Ext4.Supers

/-!
# The inodes that are not for files

A translation of `ext4_create_journal_inode`, and of how `make_ext4fs_internal` calls
it and `ext4_create_resize_inode` once the first ten inodes are reserved.  The list
that the resize inode holds is dealt with apart; here it matters that its blocks were
kept for it.
-/

namespace SystemExtras.Ext4

open Mem

/-! ## The code -/

/-- A number of 32 bits with its bytes in the order of the network. -/
def htonl (v : ℕ) : ℕ :=
  v % 256 * 2 ^ 24 + v / 2 ^ 8 % 256 * 2 ^ 16 + v / 2 ^ 16 % 256 * 2 ^ 8 + v / 2 ^ 24 % 256

/-! Members of `journal_superblock_t`. -/

namespace Jsb

def hMagic : Field := ⟨0, 4⟩
def hBlocktype : Field := ⟨4, 4⟩
def blocksize : Field := ⟨12, 4⟩
def maxlen : Field := ⟨16, 4⟩
def first : Field := ⟨20, 4⟩
def sequence : Field := ⟨24, 4⟩
def nrUsers : Field := ⟨64, 4⟩

end Jsb

def JBD2_MAGIC_NUMBER : ℕ := 0xc03b3998
def JBD2_SUPERBLOCK_V2 : ℕ := 4

/-- `S_IFREG | S_IRUSR | S_IWUSR`. -/
def HIDDEN_MODE : ℕ := S_IFREG ||| 0x180

section Code

variable (g : Geometry)

/-- The superblock of a journal. -/
def journalSuperblock (m : Mem) : Mem :=
  m.assign [
    (Jsb.hMagic, htonl JBD2_MAGIC_NUMBER),
    (Jsb.hBlocktype, htonl JBD2_SUPERBLOCK_V2),
    (Jsb.blocksize, htonl g.info.blockSize),
    (Jsb.maxlen, htonl g.info.journalBlocks),
    (Jsb.nrUsers, htonl 1),
    (Jsb.first, htonl 1),
    (Jsb.sequence, htonl 1)]

/-- `ext4_create_journal_inode`. -/
def ext4CreateJournalInode (sb : Mem) (s : State) : Except Stop (Mem × State) := do
  let (p, s) ← getInode g EXT4_JOURNAL_INO s
  let len := u32 (g.info.journalBlocks * g.info.blockSize)
  let (data, s) ← inodeAllocateDataExtents g p len len s
  match data with
  | none => .error (.error "failed to allocate extents for journal data")
  | some data =>
      if (s.out.buffers data).size < Jsb.nrUsers.offset + Jsb.nrUsers.width then .error .undefined
      else
        let s := s.setTable p.bg ((s.table p.bg).assign
          [(Inode.iMode.at_ p.base, HIDDEN_MODE), (Inode.iLinksCount.at_ p.base, 1)])
        let s := s.setBuffer data (journalSuperblock g (s.out.buffers data).bytes)
        .ok (sb.blit Sb.jnlBlocks sizeofIBlock (s.table p.bg) (p.base + Inode.iBlockOffset), s)

/-- `ext4_create_resize_inode`, which asks for its inode first. -/
def createResizeInode (s : State) : Except Stop State := do
  let (p, s) ← getInode g EXT4_RESIZE_INO s
  let (m, s) ← ext4CreateResizeInode g (s.table p.bg) p.base s
  .ok (s.setTable p.bg m)

/-- The inodes that are not for files: the reserved ones, the journal and the resize inode. -/
def hiddenInodes (sb : Mem) (s : State) : Except Stop (Mem × State) := do
  let (first, s) ← reserveInodes g 0 10 s
  if first = EXT4_ALLOCATE_FAILED then .error (.error "failed to reserve first 10 inodes")
  else do
    let (sb, s) ← (if g.info.featCompat &&& EXT4_FEATURE_COMPAT_HAS_JOURNAL ≠ 0 then
      ext4CreateJournalInode g sb s else .ok (sb, s))
    let s ← (if g.info.featCompat &&& EXT4_FEATURE_COMPAT_RESIZE_INODE ≠ 0 then
      createResizeInode g s else .ok s)
    .ok (sb, s)

end Code

/-! ## The journal -/

/-- The journal: a hidden file of `len` bytes that starts with a superblock of its own. -/
structure HoldsJournal (g : Geometry) (own : Set ℕ) (s : State) (len data : ℕ) : Prop where
  is : InodeIs g s EXT4_JOURNAL_INO S_IFREG 1
  stored : ∃ ps leaf, HoldsData g own s EXT4_JOURNAL_INO len (.buffer data) ps leaf ∧
    ∀ l ∈ leaf, l.1 ≠ data
  data_own : data ∈ own
  data_lt : data < s.out.brk
  bytes : (s.out.buffers data).bytes = journalSuperblock g Mem.zero

section Hidden

variable {g : Geometry} {labels : Prop} {spare own own' done : Set ℕ} {s s' : State} {n : ℕ}

theorem HoldsJournal.congr {len data : ℕ} (h : HoldsJournal g own s len data)
    (hu : InUse g s' EXT4_JOURNAL_INO) (hc : SameContent g s s' EXT4_JOURNAL_INO)
    (hchunks : s.out.chunks ⊆ s'.out.chunks) (hbrk : s.out.brk ≤ s'.out.brk)
    (hbuffers : ∀ id ∈ own, id < s.out.brk → s'.out.buffers id = s.out.buffers id) :
    HoldsJournal g own s' len data := by
  obtain ⟨ps, leaf, hdata, hleaf⟩ := h.stored
  refine ⟨h.is.congr hu hc, ⟨ps, leaf, hdata.congr hc hchunks hbrk hbuffers, hleaf⟩, h.data_own,
    h.data_lt.trans_le hbrk, ?_⟩
  rw [hbuffers data h.data_own h.data_lt]
  exact h.bytes

/-- A call that touches other inodes and other buffers. -/
theorem HoldsJournal.keeps (hn : g.Numbered) {len data : ℕ} {T B : Set ℕ}
    (h : HoldsJournal g own s len data) (hk : Keeps g T B s s') (hT : EXT4_JOURNAL_INO ∉ T)
    (hB : ∀ id ∈ own, id < s.out.brk → id ∉ B) : HoldsJournal g own s' len data :=
  h.congr (hk.inUse _ h.is.inUse) ((hk.inodes _ h.is.inUse hT).sameContent hn) hk.chunks hk.brk
    fun id hid hlt => hk.buffers id hlt (hB id hid hlt)

theorem HoldsJournal.mono {len data : ℕ} (h : HoldsJournal g own s len data) (hsub : own ⊆ own') :
    HoldsJournal g own' s len data := by
  obtain ⟨ps, leaf, hdata, hleaf⟩ := h.stored
  exact ⟨h.is, ⟨ps, leaf, { hdata with leaf_own := fun l hl => hsub (hdata.leaf_own l hl) }, hleaf⟩,
    hsub h.data_own, h.data_lt, h.bytes⟩

/-- The mode and the number of links of a hidden inode. -/
def hide (m : Mem) (base : ℕ) : Mem :=
  m.assign [(Inode.iMode.at_ base, HIDDEN_MODE), (Inode.iLinksCount.at_ base, 1)]

theorem hide_apply {m : Mem} {base x : ℕ} (h₁ : x < base ∨ base + 2 ≤ x)
    (h₂ : x < base + 26 ∨ base + 28 ≤ x) : hide m base x = m x := by
  apply Mem.assign_apply_of_not_mem
  simp only [List.forall_mem_cons, List.not_mem_nil, false_implies, implies_true, and_true,
    Field.at_, Inode.iMode, Inode.iLinksCount]
  omega

theorem hide_sameOn {m : Mem} {base lo hi : ℕ} (h₁ : hi ≤ base ∨ base + 2 ≤ lo)
    (h₂ : hi ≤ base + 26 ∨ base + 28 ≤ lo) : (hide m base).SameOn m lo hi :=
  fun _ hlo hhi => hide_apply (by omega) (by omega)

theorem inodeIs_hide (hn : InUse g s n) {m : Mem}
    (hs : s.table (g.groupOf n) = hide m (g.inodeAt n).base) :
    InodeIs g s n S_IFREG 1 ∧ modeOf g s n = HIDDEN_MODE := by
  have hapart : ([(Inode.iMode.at_ (g.inodeAt n).base, HIDDEN_MODE),
      (Inode.iLinksCount.at_ (g.inodeAt n).base, 1)].map Prod.fst).Pairwise Field.Disjoint := by
    simp [Field.Disjoint, Field.at_, Inode.iMode, Inode.iLinksCount]
  have hmode : modeOf g s n = HIDDEN_MODE := by
    unfold modeOf
    rw [hs]
    exact (Field.get_assign hapart 0 rfl m).trans (u16_of_lt (by decide))
  refine ⟨⟨hn, ?_, ?_⟩, hmode⟩
  · rw [hmode]
    decide
  · rw [hs]
    exact Field.get_assign hapart 1 rfl m

/-- `ext4_create_journal_inode`. -/
theorem ext4CreateJournalInode_spec (hu : g.Usable) {sb sb' : Mem} (hl : Laid g labels spare s)
    (hn : InUse g s EXT4_JOURNAL_INO)
    (hrun : ext4CreateJournalInode g sb s = .ok (sb', s')) :
    Does g labels spare {EXT4_JOURNAL_INO} ∅ [] [] s s' ∧
      (∃ data, HoldsJournal g (newBuffers s s') s' (u32 (g.info.journalBlocks * g.info.blockSize))
        data) ∧
      modeOf g s' EXT4_JOURNAL_INO = HIDDEN_MODE ∧
      ∀ x, x < Sb.jnlBlocks ∨ Sb.jnlBlocks + sizeofIBlock ≤ x → sb' x = sb x := by
  simp only [ext4CreateJournalInode, bind_eq_ok] at hrun
  generalize hlen : u32 (g.info.journalBlocks * g.info.blockSize) = len at hrun
  obtain ⟨⟨p, s₁⟩, hget, ⟨r, s₂⟩, hextents, hrun⟩ := hrun
  obtain ⟨s₁', hget', hgetdoes, htable, -⟩ := does_getInode hu hl hn
  rw [hget', Except.ok.injEq, Prod.mk.injEq] at hget
  obtain ⟨rfl, rfl⟩ := hget
  have hn₁ := hgetdoes.keeps.inUse _ hn
  have hlaid := hgetdoes.laid
  have hlt : len < 2 ^ 32 := hlen ▸ u32_lt _
  have hceil : len ⌈/⌉ g.info.blockSize < 2 ^ 32 := by
    refine lt_of_le_of_lt ?_ hlt
    exact (ceilDiv_le_iff_le_mul hu.blockSize_pos).mpr (Nat.le_mul_of_pos_left _ hu.blockSize_pos)
  rcases Nat.eq_zero_or_pos len with hzero | hpos
  · -- without blocks there is no buffer
    subst hzero
    simp only [inodeAllocateDataExtents, ne_eq, not_true_eq_false, if_false, bind_eq_ok] at hextents
    obtain ⟨_, -, regions, -, hextents⟩ := hextents
    cases hextents
    cases hrun
  obtain ⟨data, s₃, m, new, ps, leaf, hstores, rfl, rfl, hdatage, hdatalt, hbuffer, hleaf⟩ :=
    inodeAllocateDataExtents_spec hu.roomy hu.small hu.built hu.blockSize_le hlaid.groups
      hlaid.counted hceil le_rfl hpos hextents
  simp only at hrun
  split at hrun
  · cases hrun
  · simp only [Geometry.inodeAt, State.table_setTable_self, State.setTable_setTable] at hrun
    change Except.ok _ = _ at hrun
    have hbytes : (s₃.out.buffers data).bytes = Mem.zero := by rw [hbuffer]
    change Except.ok (_, State.setBuffer _ data (journalSuperblock g (s₃.out.buffers data).bytes)) =
      _ at hrun
    rw [hbytes] at hrun
    cases hrun
    have hsize := hu.numbered.inodeSize_ge
    unfold EXT4_GOOD_OLD_INODE_SIZE at hsize
    have hfill : Does g labels spare {EXT4_JOURNAL_INO} ∅ [] [] s₁'
        (s₃.setTable (g.groupOf EXT4_JOURNAL_INO)
          (hide m (g.inodeAt EXT4_JOURNAL_INO).base)) :=
      hstores.does hu hlaid hn₁ htable fun x hx => hide_apply (by omega) (by omega)
    have hwrite := does_setBuffer data hfill.laid (journalSuperblock g Mem.zero)
    have hown : ∀ id, s₁'.out.brk ≤ id → id < s₃.out.brk → id ∈ newBuffers s s₃ :=
      fun id hid hlt => ⟨hgetdoes.keeps.brk.trans hid, hlt⟩
    have hholds : HoldsData g (newBuffers s s₃) (s₃.setTable (g.groupOf EXT4_JOURNAL_INO)
        (hide m (g.inodeAt EXT4_JOURNAL_INO).base)) EXT4_JOURNAL_INO len (.buffer data) ps leaf := by
      refine hstores.holdsData hu hceil hown ?_ ?_ ?_
      · have hsame : (hide m (g.inodeAt EXT4_JOURNAL_INO).base).SameOn m
            ((g.inodeAt EXT4_JOURNAL_INO).base + 32) ((g.inodeAt EXT4_JOURNAL_INO).base + 36) :=
          hide_sameOn (by omega) (by omega)
        rw [Field.get_congr hsame (by simp [Field.at_, Inode.iFlags])
          (by simp [Field.at_, Inode.iFlags])]
        exact id
      · exact fileSize_congr (hide_sameOn (by omega) (by omega)) (hide_sameOn (by omega) (by omega))
      · unfold Inode.iBlockOffset
        exact (hide_sameOn (by omega) (by omega)).symm
    have hdoes : Does g labels spare {EXT4_JOURNAL_INO} ∅ [] [] s _ :=
      (hgetdoes.mono (Set.empty_subset _) subset_rfl).trans
        (hfill.trans_new hwrite (fun _ hk _ => absurd hk (Set.notMem_empty _)) fun id hid hlt => by
          rw [Set.mem_singleton_iff.mp hid] at hlt
          exact absurd hdatage hlt.not_ge)
    obtain ⟨his, hmode⟩ := inodeIs_hide (hdoes.keeps.inUse _ hn) State.table_setTable_self
    refine ⟨hdoes, ⟨data, his, ⟨ps, leaf, ⟨hholds.flags, hholds.size, ?_, hholds.leaf_own,
      hholds.blocks, hholds.blocks_lt, hholds.places⟩, hleaf⟩, hown data hdatage hdatalt, hdatalt, ?_⟩, hmode, ?_⟩
    · refine hholds.extents.congr (fun _ _ _ => rfl) (fun _ hc => hc) le_rfl fun l hl => ?_
      exact Function.update_of_ne (hleaf l hl) _ _
    · exact State.bytes_setBuffer_self _ _ _
    · intro x hx
      exact if_neg (by omega)

/-! ## The resize inode -/

/-- One block from the allocator, in the second list of an allocation: what is left of it. -/
theorem appendOobAllocation_cases (hg : g.Roomy) (hsmall : g.Small) (hinv : GroupsInv g s.bgs)
    (hcount : Counted g s.bgs) {alloc alloc' : BlockAllocation} {ns : List (ℕ × Piece)}
    (hns : Appended s.regions alloc.list ns) (hoob : alloc.oobList = ⟨none, none, none, 0⟩)
    (hrun : appendOobAllocation g alloc 1 s = .ok (alloc', s')) :
    ∃ q, TakesAll g s.bgs [q] s'.bgs ∧ q.len = 1 ∧ s'.out = s.out ∧
      Appended s'.regions alloc'.list ns ∧ getOobBlock alloc' 0 s'.regions = .ok q.block := by
  simp only [appendOobAllocation, bind_eq_ok] at hrun
  obtain ⟨⟨reg, s₁⟩, hdo, hrun⟩ := hrun
  obtain ⟨hout, ns₁, hext, ⟨rfl, hmany⟩ | ⟨rfl, -⟩⟩ :=
    doAllocate_cases hg.fits hinv Nat.one_pos hdo
  · cases ns₁ with
    | nil => cases hrun
    | cons n rest =>
        obtain ⟨a, q⟩ := n
        obtain ⟨hqlen, hrest⟩ := hmany.single
          (hmany.len_pos hg hsmall hinv hcount q List.mem_cons_self)
        obtain rfl : rest = [] := List.map_eq_nil_iff.mp hrest
        replace hqlen : q.len = 1 := hqlen
        have htakes : TakesAll g s.bgs [q] s₁.bgs := hmany.takesAll
        have hblocks : blocksOf [q] = [q.block] := by simp [Piece.blocks, hqlen]
        obtain ⟨hge, hlt⟩ := hext.fresh (a, q) List.mem_cons_self
        have hnode : s₁.regions.node a = some (q.region none none) := hext.linked.1
        have hempty : Appended s₁.regions alloc.oobList [] := hoob ▸ Appended.nil _
        obtain ⟨list', h', happend, hoob', hbrk', hframe'⟩ := hempty.append hnode hlt (by simp)
        have hnode' : h'.deref (some a) = .ok (q.region none hoob'.listed.1.choose) :=
          RegionHeap.deref_some.mpr hoob'.listed.1.choose_spec
        have hloop : appendOobLoop (s₁.regions.brk + 1) (some a) alloc.oobList s₁.regions =
            .ok (list', h') := by
          rw [appendOobLoop, happend, bind_ok]
          simp only
          rw [hnode', bind_ok]
          cases s₁.regions.brk <;> rfl
        simp only [headAddr, List.head?_cons, Option.map_some, hloop, bind_ok] at hrun
        cases hrun
        refine ⟨q, htakes, hqlen, hout, ?_, ?_⟩
        · refine hns.congr (fun n hn => ?_) (hext.brk_le.trans hbrk'.ge)
          have hlt' := hns.lt n hn
          rw [← hext.frame n.1 hlt' (by simp)]
          exact hframe' n.1 (by simp) (hlt'.trans_le hge).ne
        · have hmem : q.block ∈ blocksOf [q] := by
            rw [hblocks]
            exact List.mem_singleton_self _
          unfold getOobBlock
          rw [hoob'.list_eq]
          refine getBlockLoop_eq hoob'.listed hoob'.length_le ?_
            ((htakes.mem_range hg.fits hinv hmem).2.trans hg.lenBlocks_lt)
          show (blocksOf [q])[0]? = some q.block
          rw [hblocks]
          rfl
  · cases hrun

/-- What `ext4_create_resize_inode` has taken and queued: a block for the inode to point to, and
what goes to the blocks kept in group `0`. -/
theorem ext4CreateResizeInode_cases (hu : g.Usable) (hinv : GroupsInv g s.bgs)
    (hcount : Counted g s.bgs) (hzero : g.supers[0]? = some 0) {m m' : Mem} {base : ℕ}
    (hrun : ext4CreateResizeInode g m base s = .ok (m', s')) :
    ∃ s₁ b, Backs g s s₁ [⟨.buffer s.out.brk 0, g.info.blockSize, b⟩] ∧
      0 < g.info.bgDescReserveBlocks ∧ s'.bgs = s₁.bgs ∧
      s'.out.chunks = s₁.out.chunks ++ [⟨.buffer s₁.out.brk 0,
        u32 (g.info.blockSize * g.info.bgDescReserveBlocks), g.reservedStart 0⟩] ∧
      s'.out.brk = s₁.out.brk + 1 ∧
      (∀ id < s₁.out.brk, s'.out.buffers id = s₁.out.buffers id) ∧
      m' = resizeInode g m base b := by
  have hbs := hu.built.blockSize_ge
  have hreserve := hu.built.reserve_le
  have hone : g.info.blockSize ⌈/⌉ g.info.blockSize = 1 := by
    simpa using mul_ceilDiv_self hu.blockSize_pos 1
  have hcreate : Appended s.regions createAllocation.list [] := Appended.nil _
  obtain ⟨alloc, h, ns, hloop, hns, hoob, hpieces⟩ := reserveInodeLoop_eq hu.roomy.fits hbs hreserve
    g.aux.groups (show 0 + g.aux.groups ≤ _ by omega) hcreate
  replace hpieces : ns.map Prod.snd = g.supers.map g.reserved := by
    rw [hpieces, List.map_nil, List.nil_append, ← List.range_eq_range']
    rfl
  have hlen : lenOf (ns.map Prod.snd) = g.supers.length * g.info.bgDescReserveBlocks := by
    rw [hpieces, Geometry.lenOf_reserved]
  have hlt : lenOf (ns.map Prod.snd) < 2 ^ 32 := by
    rw [hpieces]
    exact (Geometry.length_reserved_le hu.roomy.fits hbs hreserve).trans_lt
      hu.roomy.fits.lenBlocks_lt
  have hcountLen : blockAllocationLen alloc h =
      .ok (g.supers.length * g.info.bgDescReserveBlocks) := by
    unfold blockAllocationLen
    rw [hns.list_eq]
    simp only
    rw [allocationLenLoop_eq hns.listed hns.length_le (by omega), Nat.zero_add, hlen]
  simp only [ext4CreateResizeInode, hloop, bind_ok, inodeAttachResize, hcountLen] at hrun
  split at hrun
  · cases hrun
  · rename_i hne
    have hpos := Nat.pos_of_ne_zero hne
    rw [if_neg (by simp), Nat.mul_div_cancel _ hpos] at hrun
    simp only [bind_eq_ok] at hrun
    obtain ⟨⟨m₁, alloc₁, s₁⟩, ⟨⟨alloc₂, s₂⟩, happend, b, hdind, first, hfirst, ⟨dind, ind⟩, -, hdone⟩,
      regions, -, hrun⟩ := hrun
    obtain ⟨q, htakes, hqlen, hout, hns₂, hq⟩ := appendOobAllocation_cases
      (s := { s with regions := h }) hu.roomy hu.small hinv hcount hns hoob happend
    have hreads := hns₂.reads hu.roomy.fits hbs hreserve hpieces
    have hfirst' : getBlock alloc₂ 0 s₂.regions = .ok (g.reservedStart 0) := by
      simpa using hreads 0 0 0 hzero hpos
    obtain rfl : q.block = b := Except.ok.inj (hq.symm.trans hdind)
    obtain rfl : g.reservedStart 0 = first := Except.ok.inj (hfirst'.symm.trans hfirst)
    replace hout : s₂.out = s.out := hout
    refine ⟨(queueBlock g.info.blockSize q.block s₂).2.setBuffer s₂.out.brk dind, q.block, ?_, hpos,
      ?_⟩
    · refine ⟨htakes.inv hinv, htakes.counted hu.small hinv hcount, ?_,
        htakes.sameInodes hu.roomy.fits hinv, ?_, ?_, ?_, ?_, ?_⟩
      · have hfills := htakes.fills hinv
        have hblocks : chunkBlocks g.info.blockSize
            [⟨.buffer s.out.brk 0, g.info.blockSize, q.block⟩] = blocksOf [q] := by
          simp [chunkBlocks, Chunk.blocks, Piece.blocks, hone, hqlen]
        rwa [hblocks]
      · intro _
        cases htakes with
        | cons head _ => exact ⟨q.bg, head.bg_lt, (hqlen ▸ Nat.one_pos).trans_le head.len_le⟩
      · show s₂.out.chunks ++ _ = _
        rw [hout]
      · show s.out.brk ≤ s₂.out.brk + 1
        rw [hout]
        exact Nat.le_succ _
      · intro id hid
        show Function.update (Function.update s₂.out.buffers s₂.out.brk _) s₂.out.brk _ id = _
        rw [hout, Function.update_of_ne hid.ne]
        exact Function.update_of_ne hid.ne _ _
      · intro c hc
        obtain rfl := List.mem_singleton.mp hc
        exact ⟨le_rfl, hout ▸ Nat.lt_succ_self _⟩
    · cases hdone
      cases hrun
      refine ⟨rfl, rfl, rfl, fun id hid => ?_, rfl⟩
      have hne₂ : id ≠ s₂.out.brk + 1 := Nat.ne_of_lt hid
      by_cases hne₁ : id = s₂.out.brk
      · subst hne₁
        simp [State.setBuffer, State.addChunk, State.calloc, queueBlock]
      · simp [State.setBuffer, State.addChunk, State.calloc, queueBlock, Function.update_of_ne hne₁,
          Function.update_of_ne hne₂]

theorem resizeInode_eq_hide (m : Mem) (base b : ℕ) : resizeInode g m base b =
    hide (finishResize g m base (g.supers.length * g.info.bgDescReserveBlocks) g.supers.length b)
      base := rfl

theorem resizeInode_frame {m : Mem} {base b x : ℕ} (hx : x < base ∨ base + 128 ≤ x) :
    resizeInode g m base b x = m x := by
  rw [resizeInode_eq_hide, hide_apply (by omega) (by omega)]
  apply Mem.assign_apply_of_not_mem
  simp only [List.forall_mem_cons, List.not_mem_nil, false_implies, implies_true, and_true,
    Field.at_, Inode.iBlock, Inode.iBlockOffset, EXT4_DIND_BLOCK, EXT4_IND_BLOCK, EXT4_NDIR_BLOCKS,
    Inode.iFlags, Inode.iBlocksLo, Inode.iBlocksHigh, Inode.iSizeLo, Inode.iSizeHigh]
  omega

/-- What goes to the blocks that group `0` keeps for more descriptors. -/
def resizeBlocks (g : Geometry) : List ℕ :=
  List.range' (g.reservedStart 0) g.info.bgDescReserveBlocks

/-- `ext4_create_resize_inode` uses the blocks kept in group `0`, and one more. -/
theorem createResizeInode_spec (hu : g.Usable) (hl : Laid g labels spare s)
    (hn : InUse g s EXT4_RESIZE_INO) (hsuper : spare ⊆ g.superArea)
    (hspare : ∀ b ∈ resizeBlocks g, b ∈ spare) (hzero : g.supers[0]? = some 0)
    (hrun : createResizeInode g s = .ok s') :
    Does g labels {b | b ∈ spare ∧ b ∉ resizeBlocks g} {EXT4_RESIZE_INO} ∅ [] [] s s' ∧
      modeOf g s' EXT4_RESIZE_INO = HIDDEN_MODE := by
  simp only [createResizeInode, bind_eq_ok] at hrun
  obtain ⟨⟨p, s₁⟩, hget, ⟨m, s₂⟩, hcreate, hrun⟩ := hrun
  cases hrun
  obtain ⟨s₁', hget', hgetdoes, htable, -⟩ := does_getInode hu hl hn
  rw [hget', Except.ok.injEq, Prod.mk.injEq] at hget
  obtain ⟨rfl, rfl⟩ := hget
  have hn₁ := hgetdoes.keeps.inUse _ hn
  have hlaid := hgetdoes.laid
  obtain ⟨s₃, b, hbacks, hpos, hbgs, hchunks, hbrk, hbuffers, rfl⟩ :=
    ext4CreateResizeInode_cases hu hlaid.groups hlaid.counted hzero hcreate
  -- the block it points to
  have hone := hbacks.does hu.built hlaid
  -- the blocks that were kept
  have hbs := hu.blockSize_le
  have hreserve := hu.built.reserve_le
  have hmul : g.info.blockSize * g.info.bgDescReserveBlocks ≤ 4096 * 1024 :=
    Nat.mul_le_mul hbs (by omega)
  have hblocks : chunkBlocks g.info.blockSize [⟨.buffer s₃.out.brk 0,
      u32 (g.info.blockSize * g.info.bgDescReserveBlocks), g.reservedStart 0⟩] = resizeBlocks g := by
    rw [u32_of_lt (by omega)]
    simp [chunkBlocks, Chunk.blocks, resizeBlocks, Nat.mul_comm g.info.blockSize,
      mul_ceilDiv_self hu.blockSize_pos]
  have htwo : Does g labels {b | b ∈ spare ∧ b ∉ resizeBlocks g} ∅ ∅ [] [] s₃ s₂ := by
    have hqueue := does_queueSpare hu.roomy.fits hu.built hone.laid hbgs hchunks
      (hbrk ▸ Nat.le_succ _) hbuffers (by rw [hblocks]; exact List.nodup_range' 1)
      (by rw [hblocks]; exact hspare) hsuper (by
        intro c hc
        rw [List.mem_singleton.mp hc]
        exact hbrk ▸ Nat.lt_succ_self _)
    rwa [hblocks] at hqueue
  -- the inode
  have hn₂ := htwo.keeps.inUse _ (hone.keeps.inUse _ hn₁)
  have hinode : (s₂.bgs (g.groupOf EXT4_RESIZE_INO)).inodeTable =
      (s₁'.bgs (g.groupOf EXT4_RESIZE_INO)).inodeTable := by
    rw [hbgs, (hbacks.inodes _).inodeTable]
  have htable₂ : s₂.table (g.groupOf EXT4_RESIZE_INO) = s₁'.table (g.groupOf EXT4_RESIZE_INO) := by
    unfold State.table
    rw [hinode]
  have hsize := hu.numbered.inodeSize_ge
  unfold EXT4_GOOD_OLD_INODE_SIZE at hsize
  have hwrite := does_setTable hu.numbered htwo.laid hn₂ (hinode ▸ htable)
    (m := resizeInode g (s₁'.table (g.groupOf EXT4_RESIZE_INO)) (g.inodeAt EXT4_RESIZE_INO).base b)
    fun x hx => by
      rw [htable₂]
      exact resizeInode_frame (by omega)
  have hdoes : Does g labels {b | b ∈ spare ∧ b ∉ resizeBlocks g} {EXT4_RESIZE_INO} ∅ [] [] s
      (s₂.setTable (g.groupOf EXT4_RESIZE_INO) (resizeInode g
        (s₁'.table (g.groupOf EXT4_RESIZE_INO)) (g.inodeAt EXT4_RESIZE_INO).base b)) :=
    (((hgetdoes.trans hone).trans htwo).mono (Set.empty_subset _) subset_rfl).trans hwrite
  have htab : (s₂.setTable (g.groupOf EXT4_RESIZE_INO) (resizeInode g
      (s₁'.table (g.groupOf EXT4_RESIZE_INO)) (g.inodeAt EXT4_RESIZE_INO).base b)).table
        (g.groupOf EXT4_RESIZE_INO) = _ :=
    State.table_setTable_self.trans (resizeInode_eq_hide _ _ _)
  exact ⟨hdoes, (inodeIs_hide (hdoes.keeps.inUse _ hn) htab).2⟩

/-! ## All of them -/

/-- The inodes that are reserved at the beginning. -/
def hiddenNums : List ℕ := List.range' 1 10

/-- They are not directories. -/
def HiddenModes (g : Geometry) (s : State) : Prop :=
  ∀ k ∈ hiddenNums, modeOf g s k = 0 ∨ modeOf g s k = HIDDEN_MODE

theorem hasSuperBlock_zero (g : Geometry) : g.hasSuperBlock 0 = true := by
  unfold Geometry.hasSuperBlock ext4BgHasSuperBlock
  split
  · rfl
  · exact if_pos (.inl rfl)

/-- The first superblock is the one of group `0`. -/
theorem supers_zero (hgroups : 0 < g.aux.groups) : g.supers[0]? = some 0 := by
  obtain ⟨left, hleft⟩ := Nat.exists_eq_succ_of_ne_zero hgroups.ne'
  unfold Geometry.supers
  rw [hleft, List.range_succ_eq_map, List.filter_cons_of_pos (hasSuperBlock_zero g)]
  rfl

theorem HiddenModes.step (hn : g.Numbered) (h : HiddenModes g s) {k : ℕ}
    (hkeeps : Keeps g {k} ∅ s s') (hin : ∀ m ∈ hiddenNums, InUse g s m)
    (hmode : modeOf g s' k = HIDDEN_MODE) : HiddenModes g s' := by
  intro m hm
  by_cases heq : m = k
  · exact .inr (heq ▸ hmode)
  · rw [(hkeeps.inodes m (hin m hm) heq).modeOf_eq hn]
    exact h m hm

/-- The first inodes are reserved. -/
theorem reserveHidden_spec (hu : g.Usable) (hl : Laid g labels spare s) (hgroups : 0 < g.aux.groups)
    (hfresh : (s.bgs 0).firstFreeInode = 1) {first : ℕ}
    (hrun : reserveInodes g 0 10 s = .ok (first, s')) (hfirst : first ≠ EXT4_ALLOCATE_FAILED) :
    Does g labels spare ∅ ∅ hiddenNums [] s s' ∧ HiddenModes g s' ∧
      10 ≤ g.info.inodesPerGroup := by
  have hinv := hl.inodes 0 hgroups
  have hnum : 10 ≤ (s.bgs 0).freeInodes := by
    by_contra hlt
    rw [reserveInodes_of_gt (by omega)] at hrun
    cases hrun
    exact hfirst rfl
  obtain ⟨bg, hreserves, hreserve⟩ := reserveInodes_of_le hu.numbered hgroups hinv hnum
  rw [hreserve] at hrun
  cases hrun
  have hdoes := does_reserve hu.roomy.fits hl hgroups hreserves
  rw [hfresh, Nat.zero_mul, Nat.zero_add] at hdoes
  have hsum := hinv.sum
  refine ⟨hdoes, fun k hk => .inl ?_, by omega⟩
  obtain ⟨hpos, hle⟩ : 1 ≤ k ∧ k < 11 := by simpa [hiddenNums] using hk
  have hgroup : g.groupOf k = 0 := Nat.div_eq_of_lt (by omega)
  have hindex : g.indexOf k = k - 1 := Nat.mod_eq_of_lt (by omega)
  obtain ⟨-, bitmaps, -, rfl⟩ := hreserves
  have hsize := hu.numbered.inodeSize_ge
  unfold EXT4_GOOD_OLD_INODE_SIZE at hsize
  -- the table of a group in which nothing is used is zero
  have hzero : ∀ i < 2, (s.setBg 0 ((s.bgs 0).reserve 10 bitmaps)).table 0
      ((k - 1) * g.info.inodeSize + i) = Mem.zero ((k - 1) * g.info.inodeSize + i) := by
    intro i hi
    unfold State.table
    rw [State.bgs_setBg_self]
    refine hinv.unused (k - 1) (by omega) _ (Nat.le_add_right _ _) ?_ (by omega)
    rw [Nat.succ_mul]
    omega
  unfold modeOf Geometry.inodeAt
  rw [hgroup, hindex]
  exact (Mem.load_congr hzero).trans (field_zero (Inode.iMode.at_ ((k - 1) * g.info.inodeSize)))

/-- The filesystem once the inodes that are not for files are there. -/
structure Hides (g : Geometry) (labels : Prop) (spare : Set ℕ) (sb sb' : Mem) (s s' : State) :
    Prop where
  does : Does g labels spare ∅ ∅ hiddenNums [] s s'
  spare_super : spare ⊆ g.superArea
  start : g.start 0 ∈ spare
  modes : HiddenModes g s'
  perGroup : 10 ≤ g.info.inodesPerGroup
  journal : g.info.featCompat &&& EXT4_FEATURE_COMPAT_HAS_JOURNAL ≠ 0 → ∃ data,
    HoldsJournal g (newBuffers s s') s' (u32 (g.info.journalBlocks * g.info.blockSize)) data
  sb_frame : ∀ x, x < Sb.jnlBlocks ∨ Sb.jnlBlocks + sizeofIBlock ≤ x → sb' x = sb x

theorem hiddenInodes_spec (hu : g.Usable) {sb sb' : Mem} (hl : Laid g labels g.spareArea s)
    (hgroups : 0 < g.aux.groups) (hfresh : ∀ i < g.aux.groups, (s.bgs i).firstFreeInode = 1)
    (hrun : hiddenInodes g sb s = .ok (sb', s')) : ∃ spare, Hides g labels spare sb sb' s s' := by
  simp only [hiddenInodes, bind_eq_ok] at hrun
  obtain ⟨⟨first, s₁⟩, hreserve, hrun⟩ := hrun
  split at hrun
  · cases hrun
  rename_i hfirst
  simp only [bind_eq_ok] at hrun
  obtain ⟨⟨sb₂, s₂⟩, hjournal, s₃, hresize, hrun⟩ := hrun
  cases hrun
  obtain ⟨hone, hmodes, hten⟩ := reserveHidden_spec hu hl hgroups (hfresh 0 hgroups) hreserve hfirst
  have hnew : ∀ n, ¬ InUse g s n := by
    rintro n ⟨hhas, hlt⟩
    rw [hfresh _ hhas.groupOf_lt] at hlt
    omega
  have hin : ∀ n ∈ hiddenNums, InUse g s₁ n := fun n hn => hone.makes.fills.mem n hn
  have hspare : g.spareArea ⊆ g.superArea := fun _ hb => hb.1
  have hstart : g.start 0 ∈ g.spareArea :=
    mem_spareArea hu hgroups (hasSuperBlock_zero g) (.inl rfl)
  -- the journal
  have htwo : Hides g labels g.spareArea sb sb₂ s s₂ := by
    split at hjournal
    · obtain ⟨hdoes, ⟨data, hdata⟩, hmode, hsb⟩ :=
        ext4CreateJournalInode_spec hu hone.laid (hin _ (by decide)) hjournal
      refine ⟨?_, hspare, hstart, hmodes.step hu.numbered hdoes.keeps hin hmode, hten,
        fun _ => ⟨data, ?_⟩, hsb⟩
      · have hboth := hone.trans_new hdoes (fun n _ hn => absurd hn (hnew n))
          fun _ hid => absurd hid (Set.notMem_empty _)
        simpa using hboth
      · exact hdata.mono fun id hid => ⟨hone.keeps.brk.trans hid.1, hid.2⟩
    · rename_i hno
      cases hjournal
      exact ⟨hone, hspare, hstart, hmodes, hten, fun h => absurd h hno, fun _ _ => rfl⟩
  have hin₂ : ∀ n ∈ hiddenNums, InUse g s₂ n := fun n hn => htwo.does.makes.fills.mem n hn
  -- the resize inode
  split at hresize
  · have hkept : ∀ b ∈ resizeBlocks g, b ∈ g.spareArea := by
      intro b hb
      exact mem_spareArea hu hgroups (hasSuperBlock_zero g) (.inr (List.mem_range'_1.mp hb))
    obtain ⟨hdoes, hmode⟩ := createResizeInode_spec hu htwo.does.laid (hin₂ _ (by decide)) hspare hkept
      (supers_zero hgroups) hresize
    refine ⟨{b | b ∈ g.spareArea ∧ b ∉ resizeBlocks g}, ⟨?_, fun b hb => hspare hb.1,
      ⟨hstart, fun hb => ?_⟩, htwo.modes.step hu.numbered hdoes.keeps hin₂ hmode, hten,
      fun hfeat => ?_, htwo.sb_frame⟩⟩
    · have hall := htwo.does.trans_new hdoes (fun n _ hn => absurd hn (hnew n))
        fun _ hid => absurd hid (Set.notMem_empty _)
      simpa using hall
    · have hlo := (List.mem_range'_1.mp hb).1
      unfold Geometry.reservedStart at hlo
      omega
    · obtain ⟨data, hdata⟩ := htwo.journal hfeat
      have hjournal := hdata.keeps hu.numbered hdoes.keeps (by decide)
        fun _ _ _ => Set.notMem_empty _
      exact ⟨data, hjournal.mono fun id hid => ⟨hid.1, hid.2.trans_le hdoes.keeps.brk⟩⟩
  · cases hresize
    exact ⟨_, htwo⟩

end Hidden

end SystemExtras.Ext4
