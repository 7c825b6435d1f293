import SystemExtras.Ext4.AllocatePlan
import SystemExtras.Ext4.Indirect

/-!
# What an indirect block map maps

`inode_allocate_indirect` gives a file of up to twelve blocks the blocks of its
allocation, and no longer file (`indirectMap_iff`).  Once the inode's own array
is full the walk over the allocation should stand at block twelve; but what
`advance_list_ptr` keeps is a place in the region it started from, the first one.
So the first entry of the indirect block repeats an entry of the inode.

## Strategy

A short file needs no pointer blocks.  Its allocation is not touched before the
inode is filled in, so the loops run over a list of regions of which everything is
known (`getBlockLoop_eq`, `advanceLoop_eq`, `fillLoop_cases`), and the twelve words
are the blocks in order (`indirectMap_of_le`).

Of a longer file one wrong entry is enough, and finding it takes little of what
happens before.

* **The first region is a short one.**  The reservation of pointer blocks splits
  regions and moves them away, and it need not even end well; but no region leads to
  the first one, so that is cut and not moved, and the first cut leaves it at most
  twelve blocks.  `Front` states this of the heap and `Standing` of an allocation;
  one lemma for each operation on regions says that it is kept, and the loops of the
  reservation follow by their recursion (`KeepsStanding`).
* **What attaching leaves alone.**  The levels above the first fill in other blocks:
  `Grows` says that a step queues chunks and changes none of the buffers there were.
* **The collision.**  The walk from block twelve on starts anew in a region of at most
  twelve blocks, so it stays in it (`advanceLoop_le`), and the block found there is
  one that the inode already has (`Standing.collision`).

A map without repetition would therefore be one of another file length: counts that
wrap are ruled out by the length of the allocation (`IndirectMap.no_wrap`).
-/

namespace SystemExtras.Ext4

open Mem

/-! ## The map -/

/-- The physical block of the file's block `k`: through `i_block`, the indirect
block or the doubly indirect one, each of which holds `n` entries. -/
def physicalBlock (read : ℕ → Except Stop Mem) (n : ℕ) (m : Mem) (base k : ℕ) : Except Stop ℕ :=
  if k < EXT4_NDIR_BLOCKS then .ok (((Inode.iBlock k).at_ base).get m)
  else if k < EXT4_NDIR_BLOCKS + n then do
    let ind ← read (((Inode.iBlock EXT4_IND_BLOCK).at_ base).get m)
    .ok (ind.load (4 * (k - EXT4_NDIR_BLOCKS)) 4)
  else do
    let rest := k - EXT4_NDIR_BLOCKS - n
    let dind ← read (((Inode.iBlock EXT4_DIND_BLOCK).at_ base).get m)
    let ind ← read (dind.load (4 * (rest / n)) 4)
    .ok (ind.load (4 * (rest % n)) 4)

/-- The blocks at which pointer blocks have been queued between two states. -/
def pointerBlocks (s s' : State) : List ℕ := (newChunks s s').map Chunk.block

/-- What a call of `inode_allocate_indirect` from `s` to `s'` that left the inode
table `m` has to have done for a file of `count` blocks, when `blocks` is what it
allocated. -/
structure IndirectMap (g : Geometry) (count : ℕ) (blocks : List ℕ) (s : State) (m : Mem)
    (base : ℕ) (s' : State) : Prop where
  /-- The file's blocks are those of the allocation that hold no pointers, in order. -/
  mapped : (List.range count).mapM
      (physicalBlock (readQueued s' (newChunks s s')) (g.info.blockSize / 4) m base) =
    .ok (blocks.filter fun b => b ∉ pointerBlocks s s')
  /-- The pointer blocks have been allocated. -/
  allocated : ∀ b ∈ pointerBlocks s s', b ∈ blocks
  /-- No block is used twice. -/
  nodup : (blocks.filter (fun b => b ∉ pointerBlocks s s') ++ pointerBlocks s s').Nodup

/-! ## Up to twelve blocks -/

section Readers

variable {h : RegionHeap} {ns : List (ℕ × Piece)}

/-- The readers find the blocks of a list in order. -/
theorem getBlockLoop_eq : ∀ {fuel k b : ℕ}, Listed h ns → ns.length ≤ fuel →
    (blocksOf (ns.map Prod.snd))[k]? = some b → b < 2 ^ 32 →
    getBlockLoop h fuel (headAddr ns) k = .ok b := by
  induction ns with
  | nil =>
      intro fuel k b _ _ hb
      simp at hb
  | cons n rest ih =>
      intro fuel k b hlist hfuel hb hlt
      cases fuel with
      | zero => simp at hfuel
      | succ fuel =>
          obtain ⟨prev, hderef⟩ := hlist.deref
          show getBlockLoop h (fuel + 1) (some n.1) k = _
          rw [getBlockLoop, hderef, bind_ok]
          rw [List.map_cons, blocksOf_cons] at hb
          have hlength : n.2.blocks.length = n.2.len := by simp [Piece.blocks]
          by_cases hk : k < (n.2.region (headAddr rest) prev).len
          · rw [List.getElem?_append_left (hlength ▸ hk)] at hb
            have hblock : b = n.2.block + k := by
              have hk' : k < n.2.len := hk
              simpa [Piece.blocks, hk'] using hb.symm
            rw [if_pos hk, hblock]
            exact congrArg Except.ok (u32_of_lt (hblock ▸ hlt))
          · rw [List.getElem?_append_right (by rw [hlength]; exact not_lt.mp hk), hlength] at hb
            rw [if_neg hk]
            exact ih hlist.2 (Nat.le_of_succ_le_succ hfuel) hb hlt

/-- There is enough of a list to advance over all of it. -/
theorem advanceLoop_eq : ∀ {fuel blocks : ℕ}, Listed h ns → ns.length ≤ fuel →
    blocks ≤ lenOf (ns.map Prod.snd) → blocks < 2 ^ 31 →
    ∃ partialIter, advanceLoop h fuel (headAddr ns) 0 blocks = .ok (true, partialIter) := by
  induction ns with
  | nil =>
      intro fuel blocks _ _ hle _
      have hzero : blocks = 0 := by simpa using hle
      exact ⟨0, by cases fuel <;> simp [headAddr, advanceLoop, hzero]⟩
  | cons n rest ih =>
      intro fuel blocks hlist hfuel hle hlt
      cases fuel with
      | zero => simp at hfuel
      | succ fuel =>
          obtain ⟨prev, hnode⟩ := hlist.1
          show ∃ partialIter, advanceLoop h (fuel + 1) (some n.1) 0 blocks = _
          rw [List.map_cons, lenOf_cons] at hle
          rcases Nat.eq_zero_or_pos blocks with rfl | hpos
          · exact ⟨0, advanceLoop_done _ le_rfl⟩
          · by_cases hin : blocks < n.2.len
            · have hsum : 0 + blocks < n.2.len := by omega
              exact ⟨0 + blocks, advanceLoop_within hnode hpos (by omega) hsum⟩
            · obtain ⟨partialIter, hrun⟩ := @ih fuel (blocks - n.2.len) hlist.2
                (Nat.le_of_succ_le_succ hfuel) (by omega) (by omega)
              have hpast : n.2.len ≤ 0 + blocks := by omega
              refine ⟨partialIter, ?_⟩
              rw [advanceLoop_past hnode hpos (by omega) hpast, Nat.zero_add]
              show advanceLoop h fuel (headAddr rest) 0 (s32 (blocks - n.2.len)) = _
              rw [s32_of_lt (by omega), hrun]

/-- The regions of a list are freed once each, and no others. -/
theorem freeRegions_eq : ∀ {h : RegionHeap} {fuel : ℕ}, Listed h ns → (ns.map Prod.fst).Nodup →
    ns.length ≤ fuel → ∃ h', freeRegions fuel (headAddr ns) h = .ok h' ∧ h'.brk = h.brk ∧
      ∀ q, q ∉ ns.map Prod.fst → h'.node q = h.node q := by
  induction ns with
  | nil =>
      intro h fuel _ _ _
      exact ⟨h, by cases fuel <;> rfl, rfl, fun _ _ => rfl⟩
  | cons n rest ih =>
      intro h fuel hlist hnodup hfuel
      cases fuel with
      | zero => simp at hfuel
      | succ fuel =>
          obtain ⟨prev, hderef⟩ := hlist.deref
          rw [List.map_cons, List.nodup_cons] at hnodup
          have hrest : Listed (h.free n.1) rest := by
            refine hlist.2.congr fun q hq => ?_
            have hne : q.1 ≠ n.1 := fun heq => hnodup.1 (heq ▸ List.mem_map_of_mem hq)
            exact Function.update_of_ne hne _ _
          obtain ⟨h', hrun, hbrk, hframe⟩ := ih hrest hnodup.2 (Nat.le_of_succ_le_succ hfuel)
          refine ⟨h', ?_, hbrk, ?_⟩
          · show freeRegions (fuel + 1) (some n.1) h = .ok h'
            rw [freeRegions, hderef, bind_ok]
            exact hrun
          · intro q hq
            rw [List.map_cons, List.mem_cons, not_or] at hq
            rw [hframe q hq.2]
            exact Function.update_of_ne hq.1 _ _

end Readers

section Fill

variable {h : RegionHeap} {alloc : BlockAllocation} {off limit : ℕ}

/-- A filled array holds the blocks in order; nothing else has changed. -/
theorem fillLoop_cases {m' : Mem} (left : ℕ) : ∀ {i : ℕ} {m : Mem},
    fillLoop h alloc off limit left i m = .ok m' →
      (∀ j, i ≤ j → j < i + left → ∃ b, getBlock alloc j h = .ok b ∧
        m'.load (off + 4 * j) 4 = b % 2 ^ 32) ∧
      ∀ x, x < off + 4 * i ∨ off + 4 * (i + left) ≤ x → m' x = m x := by
  induction left with
  | zero =>
      intro i m hrun
      cases hrun
      exact ⟨fun j h₁ h₂ => by omega, fun _ _ => rfl⟩
  | succ left ih =>
      intro i m hrun
      rw [fillLoop, bind_eq_ok] at hrun
      obtain ⟨b, hb, hrun⟩ := hrun
      split at hrun
      · cases hrun
      · obtain ⟨hentry, hframe⟩ := ih hrun
        refine ⟨fun j h₁ h₂ => ?_, fun x hx => ?_⟩
        · rcases Nat.eq_or_lt_of_le h₁ with rfl | h₁
          · refine ⟨b, hb, ?_⟩
            rw [load_congr fun x hx => hframe _ (Or.inl (by omega))]
            exact load_store_self _ _ _ _
          · exact hentry j h₁ (by omega)
        · rw [hframe x (by omega)]
          exact store_apply_of_not_mem (by omega)

/-- An array is filled when all its blocks are found and fit. -/
theorem exists_fillLoop (left : ℕ) : ∀ {i : ℕ} (m : Mem),
    (∀ j, i ≤ j → j < i + left → ∃ b, getBlock alloc j h = .ok b) →
    off + 4 * (i + left) ≤ limit → ∃ m', fillLoop h alloc off limit left i m = .ok m' := by
  induction left with
  | zero =>
      intro i m _ _
      exact ⟨m, rfl⟩
  | succ left ih =>
      intro i m hfound hroom
      obtain ⟨b, hb⟩ := hfound i le_rfl (by omega)
      rw [fillLoop, hb, bind_ok, if_neg (by omega)]
      exact ih _ (fun j h₁ h₂ => hfound j (by omega) (by omega)) (by omega)

/-- What ends the call leaves `i_block` alone. -/
theorem finishIndirect_sameOn (blockSize : ℕ) (m : Mem) (base len blockLen indirectLen : ℕ) :
    m.SameOn (finishIndirect blockSize m base len blockLen indirectLen)
      (base + Inode.iBlockOffset) (base + Inode.iBlockOffset + 60) := by
  intro x h₁ h₂
  unfold Inode.iBlockOffset at h₁ h₂
  unfold finishIndirect
  rw [Mem.assign_apply_of_not_mem]
  simp only [List.forall_mem_cons, List.not_mem_nil, false_implies, implies_true, and_true,
    Field.at_, Inode.iFlags, Inode.iSizeLo, Inode.iBlocksLo]
  omega

theorem finishIndirect_iBlock {blockSize base len blockLen indirectLen k : ℕ} {m : Mem}
    (hk : k < 15) : ((Inode.iBlock k).at_ base).get
        (finishIndirect blockSize m base len blockLen indirectLen) =
      m.load (base + Inode.iBlockOffset + 4 * k) 4 := by
  have hsame := (finishIndirect_sameOn blockSize m base len blockLen indirectLen).symm
  rw [Field.get_congr hsame (by simp [Field.at_, Inode.iBlock])]
  · show m.load (base + (Inode.iBlockOffset + 4 * k)) 4 = _
    rw [Nat.add_assoc]
  · show base + (Inode.iBlockOffset + 4 * k) + 4 ≤ _
    omega

end Fill

section Direct

variable {g : Geometry} {s s₁ : State} {alloc : BlockAllocation} {len : ℕ}

theorem indirectBlocksNeeded_of_le {aux : FsAuxInfo} {n : ℕ} (hle : n ≤ EXT4_NDIR_BLOCKS) :
    indirectBlocksNeeded aux n = .ok 0 := by
  unfold indirectBlocksNeeded
  rw [if_pos hle]

/-- What an allocation for a file is: linked regions with the blocks asked for. -/
theorem doInodeAllocateIndirect_cases (hg : g.Roomy) (hinv : GroupsInv g s.bgs) {n : ℕ}
    (hpos : 0 < n) {indirectLen : ℕ} (hneed : indirectBlocksNeeded g.aux n = .ok indirectLen)
    (hlt : n + indirectLen < 2 ^ 32) (hrun : doInodeAllocateIndirect g n s = .ok (alloc, s₁)) :
    s₁.out = s.out ∧ ∃ a p rest, alloc = freshAllocation a ∧
      Extends s.regions s₁.regions none ((a, p) :: rest) ∧
      TakesMany g (n + indirectLen) s.bgs (p :: rest.map Prod.snd) s₁.bgs := by
  rw [doInodeAllocateIndirect, hneed, bind_ok, bind_eq_ok, u32_of_lt hlt] at hrun
  obtain ⟨⟨r, s₂⟩, hcall, hrun⟩ := hrun
  cases r with
  | none => cases hrun
  | some alloc₂ =>
      cases hrun
      obtain ⟨hout, ns, hext, ⟨a, p, rest, rfl, halloc, hmany⟩ | ⟨hnone, -⟩⟩ :=
        allocateBlocks_cases hg.fits hinv (by omega) hcall
      · cases halloc
        exact ⟨hout, a, p, rest, rfl, hext, hmany⟩
      · cases hnone

/-- A file that fits the inode's own array is mapped to its allocation. -/
theorem indirectMap_of_le (hg : g.Roomy) (hinv : GroupsInv g s.bgs)
    (hcount : writtenBlocks g len = len ⌈/⌉ g.info.blockSize)
    (hpos : 1 ≤ len ⌈/⌉ g.info.blockSize) (hle : len ⌈/⌉ g.info.blockSize ≤ EXT4_NDIR_BLOCKS)
    (m : Mem) (base : ℕ)
    (halloc : doInodeAllocateIndirect g (writtenBlocks g len) s = .ok (alloc, s₁)) :
    ∃ m' s', inodeAllocateIndirect g m base len s = .ok (m', s') ∧
      IndirectMap g (len ⌈/⌉ g.info.blockSize) (alloc.blocks s₁) s m' base s' := by
  unfold inodeAllocateIndirect
  rw [hcount] at halloc ⊢
  generalize len ⌈/⌉ g.info.blockSize = n at *
  have hneed : indirectBlocksNeeded g.aux n = .ok 0 := indirectBlocksNeeded_of_le hle
  unfold EXT4_NDIR_BLOCKS at hle
  obtain ⟨hout, a, p, rest, rfl, hext, hmany⟩ :=
    doInodeAllocateIndirect_cases hg hinv (by omega) hneed (by omega) halloc
  rw [Nat.add_zero] at hmany
  have hlist := hext.linked.listed
  have hlength := hext.length_le
  have hlen : lenOf (((a, p) :: rest).map Prod.snd) = n := hmany.lenOf_eq
  have hblocks : (freshAllocation a).blocks s₁ = blocksOf (((a, p) :: rest).map Prod.snd) :=
    hlist.regionBlocks_eq hlength
  -- every index of the array finds its block
  have hfound : ∀ j, j < n → ∃ b, (blocksOf (((a, p) :: rest).map Prod.snd))[j]? = some b ∧
      getBlock (freshAllocation a) j s₁.regions = .ok b ∧ b < 2 ^ 32 := by
    intro j hj
    have hj' : j < (blocksOf (((a, p) :: rest).map Prod.snd)).length := by
      rw [length_blocksOf, hlen]
      exact hj
    have hsome := List.getElem?_eq_getElem hj'
    have hlt : (blocksOf (((a, p) :: rest).map Prod.snd))[j] < 2 ^ 32 :=
      (hmany.takesAll.mem_range hg.fits hinv (List.getElem_mem hj')).2.trans hg.lenBlocks_lt
    refine ⟨_, hsome, ?_, hlt⟩
    show getBlockLoop s₁.regions s₁.regions.brk (some a) (u32 (j + 0)) = _
    rw [Nat.add_zero, u32_of_lt (by omega)]
    exact getBlockLoop_eq hlist hlength hsome hlt
  obtain ⟨m₁, hfill⟩ : ∃ m₁, fillLoop s₁.regions (freshAllocation a) (base + Inode.iBlockOffset)
      (base + Inode.iBlockOffset + 60) n 0 m = .ok m₁ :=
    exists_fillLoop n m (fun j _ hj => (hfound j (by omega)).imp fun _ hb => hb.2.1) (by omega)
  obtain ⟨partialIter, hadvance⟩ := advanceLoop_eq hlist hlength hlen.ge (by omega)
  obtain ⟨regions, hfree, -, -⟩ := freeRegions_eq hlist hext.nodup hlength
  have hattach : doInodeAttachIndirect g m base (rewindAlloc (freshAllocation a)) n s₁ =
      .ok (m₁, freshAllocation a, s₁) := by
    have hmin : min n EXT4_NDIR_BLOCKS = n := min_eq_left hle
    have hcall : advanceBlocks (freshAllocation a) n s₁.regions = .ok (true,
        { freshAllocation a with list := ⟨some a, some a, some a, partialIter⟩ }) := by
      show (advanceLoop s₁.regions s₁.regions.brk (some a) 0 n >>= _) >>= _ = _
      replace hadvance : advanceLoop s₁.regions s₁.regions.brk (some a) 0 n = _ := hadvance
      rw [hadvance]
      rfl
    have hdirect : inodeAttachDirectBlocks m base (rewindAlloc (freshAllocation a)) n s₁.regions =
        .ok (m₁, { freshAllocation a with list := ⟨some a, some a, some a, partialIter⟩ }, 0) := by
      show inodeAttachDirectBlocks m base (freshAllocation a) n s₁.regions = _
      unfold inodeAttachDirectBlocks
      simp only [hmin, hfill, bind_ok, hcall, orError, if_true, Nat.sub_self]
    rw [doInodeAttachIndirect, hdirect]
    rfl
  have hreserve : reserveAllIndirectBlocks g.aux (freshAllocation a) n s₁.regions =
      .ok (freshAllocation a, s₁.regions) := if_pos hle
  have hfreeAlloc : freeAlloc (freshAllocation a) s₁.regions = .ok regions := by
    replace hfree : freeRegions s₁.regions.brk (some a) s₁.regions = .ok regions := hfree
    show (freeRegions s₁.regions.brk (some a) s₁.regions >>= _) = _
    rw [hfree, bind_ok]
    show freeRegions regions.brk none regions = _
    cases regions.brk <;> rfl
  refine ⟨finishIndirect g.info.blockSize m₁ base len n 0, { s₁ with regions := regions }, ?_, ?_⟩
  · simp only [hneed, halloc, bind_ok, hreserve, hattach, hfreeAlloc]
  · have hpointers : pointerBlocks s { s₁ with regions := regions } = [] := by
      simp [pointerBlocks, newChunks, hout]
    have hfilter : ((freshAllocation a).blocks s₁).filter
        (fun b => b ∉ pointerBlocks s { s₁ with regions := regions }) =
          blocksOf (((a, p) :: rest).map Prod.snd) := by
      simp [hpointers, hblocks]
    refine ⟨?_, by simp [hpointers], ?_⟩
    · rw [hfilter, mapM_range_eq_ok, length_blocksOf]
      refine ⟨hlen, fun k b hb => ?_⟩
      have hk : k < n := by
        rw [← hlen, ← length_blocksOf]
        exact (List.getElem?_eq_some_iff.mp hb).1
      obtain ⟨b', hb', hcall, hlt⟩ := hfound k hk
      rw [hb'] at hb
      cases hb
      obtain ⟨b, hcall', hload⟩ := (fillLoop_cases n hfill).1 k (Nat.zero_le k) (by omega)
      rw [hcall] at hcall'
      cases hcall'
      rw [physicalBlock, if_pos (show k < EXT4_NDIR_BLOCKS from hk.trans_le hle),
        finishIndirect_iBlock (by omega), hload, Nat.mod_eq_of_lt hlt]
    · rw [hfilter, hpointers, List.append_nil]
      exact hmany.takesAll.nodup hinv

end Direct

/-! ## The first region -/

/-- The region at `f` is short, and no region that belongs to the allocation leads
to it.  Regions that are made later on belong to it. -/
structure Front (live : Set ℕ) (bound f : ℕ) (h : RegionHeap) : Prop where
  range : f ∈ live ∧ f < h.brk
  fresh : ∀ a, h.brk ≤ a → a ∈ live
  node : ∃ r, h.node f = some r ∧ 0 < r.len ∧ r.len ≤ bound ∧ r.prev = none
  next : ∀ a r b, a ∈ live → a < h.brk → h.node a = some r → r.next = some b →
    (b ∈ live ∧ b < h.brk) ∧ b ≠ f

/-- Cuts the region `r` at `b` behind its first `k` blocks. -/
def cutRegion (h : RegionHeap) (b : ℕ) (r : Region) (k : ℕ) : RegionHeap :=
  (h.malloc ⟨u32 (r.block + k), r.len - k, r.bg, r.next, some b⟩).2.write b
    { r with next := some h.brk, len := k }

section Front

variable {live : Set ℕ} {bound f b k : ℕ} {r : Region} {h h' : RegionHeap}

/-- A region that is cut gets shorter, also if it is the first one. -/
theorem Front.cutRegion (hf : Front live bound f h) (hb : b ∈ live ∧ b < h.brk)
    (hnode : h.node b = some r) (hpos : 0 < k) :
    Front live (if b = f then k else bound) f (cutRegion h b r k) := by
  obtain ⟨hrange, hfresh, ⟨rf, hrf, hrpos, hrle, hprev⟩, hnext⟩ := hf
  have hself : (SystemExtras.Ext4.cutRegion h b r k).node b =
      some { r with next := some h.brk, len := k } := RegionHeap.write_node_self _ _ _
  have hnew : (SystemExtras.Ext4.cutRegion h b r k).node h.brk =
      some ⟨u32 (r.block + k), r.len - k, r.bg, r.next, some b⟩ := by
    unfold SystemExtras.Ext4.cutRegion
    rw [RegionHeap.write_node_of_ne _ _ hb.2.ne', RegionHeap.malloc_node_self]
  have hother : ∀ a, a ≠ b → a ≠ h.brk →
      (SystemExtras.Ext4.cutRegion h b r k).node a = h.node a := by
    intro a h₁ h₂
    unfold SystemExtras.Ext4.cutRegion
    rw [RegionHeap.write_node_of_ne _ _ h₁, RegionHeap.malloc_node_of_ne _ _ h₂]
  have hbrk : (SystemExtras.Ext4.cutRegion h b r k).brk = h.brk + 1 := rfl
  refine ⟨⟨hrange.1, by omega⟩, fun a ha => hfresh a (by omega), ?_, ?_⟩
  · by_cases hbf : b = f
    · subst hbf
      rw [hnode, Option.some.injEq] at hrf
      subst hrf
      exact ⟨_, hself, hpos, by simp, hprev⟩
    · rw [if_neg hbf, hother f (Ne.symm hbf) (by omega)]
      exact ⟨rf, hrf, hrpos, hrle, hprev⟩
  · intro a ra c h₁ h₂ ha hc
    rw [hbrk] at h₂ ⊢
    by_cases hab : a = b
    · subst hab
      rw [hself, Option.some.injEq] at ha
      subst ha
      cases hc
      exact ⟨⟨hfresh _ le_rfl, Nat.lt_succ_self _⟩, hrange.2.ne'⟩
    · by_cases han : a = h.brk
      · subst han
        rw [hnew, Option.some.injEq] at ha
        subst ha
        obtain ⟨hin, hne⟩ := hnext b r c hb.1 hb.2 hnode hc
        exact ⟨⟨hin.1, by omega⟩, hne⟩
      · rw [hother a hab han] at ha
        obtain ⟨hin, hne⟩ := hnext a ra c h₁ (by omega) ha hc
        exact ⟨⟨hin.1, by omega⟩, hne⟩

/-- Links may be changed, as long as none leads to the first region and it stays
the first. -/
theorem Front.relink (hf : Front live bound f h) (hnode : h.node b = some r) {next prev : Option ℕ}
    (hnext : ∀ c, next = some c → (c ∈ live ∧ c < h.brk) ∧ c ≠ f) (hprev : b = f → prev = none) :
    Front live bound f (h.write b { r with next := next, prev := prev }) := by
  refine ⟨hf.range, hf.fresh, ?_, ?_⟩
  · obtain ⟨rf, hrf, hpos, hle, hnone⟩ := hf.node
    by_cases hbf : b = f
    · subst hbf
      rw [hnode, Option.some.injEq] at hrf
      subst hrf
      exact ⟨_, RegionHeap.write_node_self _ _ _, hpos, hle, hprev rfl⟩
    · rw [RegionHeap.write_node_of_ne _ _ (Ne.symm hbf)]
      exact ⟨rf, hrf, hpos, hle, hnone⟩
  · intro a ra c h₁ h₂ ha hc
    by_cases hab : a = b
    · subst hab
      rw [RegionHeap.write_node_self, Option.some.injEq] at ha
      subst ha
      exact hnext c hc
    · rw [RegionHeap.write_node_of_ne _ _ hab] at ha
      exact hf.next a ra c h₁ h₂ ha hc

theorem Front.prev_eq (hf : Front live bound f h) (hnode : h.node f = some r) : r.prev = none := by
  obtain ⟨rf, hrf, -, -, hprev⟩ := hf.node
  rw [hnode, Option.some.injEq] at hrf
  rwa [hrf]

/-- What `region_list_remove` does, one neighbour after the other. -/
theorem regionListRemove_cases {list list' : RegionList}
    (hrun : regionListRemove list b h = .ok (list', h')) :
    ∃ r h₁ h₂ q, h.node b = some r ∧
      (r.prev = none ∧ h₁ = h ∨ ∃ p rp, r.prev = some p ∧ h.node p = some rp ∧
        h₁ = h.write p { rp with next := r.next }) ∧
      (r.next = none ∧ h₂ = h₁ ∨ ∃ n rn, r.next = some n ∧ h₁.node n = some rn ∧
        h₂ = h₁.write n { rn with prev := r.prev }) ∧
      h₂.node b = some q ∧ h' = h₂.write b { q with next := none, prev := none } ∧
      list'.first = (if list.first = some b then r.next else list.first) ∧
      list'.iter = list.iter := by
  rw [regionListRemove, bind_eq_ok] at hrun
  obtain ⟨r, hr, hrun⟩ := hrun
  obtain ⟨_, heq, hr⟩ := RegionHeap.deref_eq_ok.mp hr
  cases heq
  obtain ⟨block, len, bg, next, prev⟩ := r
  -- the last lines, on the heap that the two tests leave
  have hlast : ∀ h₂ : RegionHeap, (∃ q, h₂.deref (some b) = .ok q ∧
      (.ok (
        if (if list.first = some b then { list with first := next } else list).last = some b then
          { (if list.first = some b then { list with first := next } else list) with last := prev }
        else (if list.first = some b then { list with first := next } else list),
        h₂.write b { q with next := none, prev := none }) : Except Stop _) = .ok (list', h')) →
      ∃ q, h₂.node b = some q ∧ h' = h₂.write b { q with next := none, prev := none } ∧
        list'.first = (if list.first = some b then next else list.first) ∧
        list'.iter = list.iter := by
    rintro h₂ ⟨q, hq, hrun⟩
    obtain ⟨_, heq, hq⟩ := RegionHeap.deref_eq_ok.mp hq
    cases heq
    simp only [Except.ok.injEq, Prod.mk.injEq] at hrun
    obtain ⟨rfl, rfl⟩ := hrun
    refine ⟨q, hq, rfl, ?_, ?_⟩ <;> split_ifs <;> rfl
  cases prev with
  | none =>
      cases next with
      | none =>
          simp only [bind_ok, bind_eq_ok] at hrun
          obtain ⟨q, hq⟩ := hlast h hrun
          exact ⟨_, h, h, q, hr, Or.inl ⟨rfl, rfl⟩, Or.inl ⟨rfl, rfl⟩, hq⟩
      | some n =>
          simp only [bind_ok, bind_eq_ok] at hrun
          obtain ⟨rn, hrn, hrun⟩ := hrun
          obtain ⟨_, heq, hrn⟩ := RegionHeap.deref_eq_ok.mp hrn
          cases heq
          obtain ⟨q, hq⟩ := hlast _ hrun
          exact ⟨_, h, _, q, hr, Or.inl ⟨rfl, rfl⟩, Or.inr ⟨n, rn, rfl, hrn, rfl⟩, hq⟩
  | some p =>
      cases next with
      | none =>
          simp only [bind_ok, bind_eq_ok] at hrun
          obtain ⟨rp, hrp, hrun⟩ := hrun
          obtain ⟨_, heq, hrp⟩ := RegionHeap.deref_eq_ok.mp hrp
          cases heq
          obtain ⟨q, hq⟩ := hlast _ hrun
          exact ⟨_, _, _, q, hr, Or.inr ⟨p, rp, rfl, hrp, rfl⟩, Or.inl ⟨rfl, rfl⟩, hq⟩
      | some n =>
          simp only [bind_ok, bind_eq_ok] at hrun
          obtain ⟨rp, hrp, rn, hrn, hrun⟩ := hrun
          obtain ⟨_, heq, hrp⟩ := RegionHeap.deref_eq_ok.mp hrp
          cases heq
          obtain ⟨_, heq, hrn⟩ := RegionHeap.deref_eq_ok.mp hrn
          cases heq
          obtain ⟨q, hq⟩ := hlast _ hrun
          exact ⟨_, _, _, q, hr, Or.inr ⟨p, rp, rfl, hrp, rfl⟩, Or.inr ⟨n, rn, rfl, hrn, rfl⟩, hq⟩

/-- A region that is not the first one is taken out of a list. -/
theorem Front.remove (hf : Front live bound f h) (hb : b ∈ live ∧ b < h.brk) (hne : b ≠ f)
    {list list' : RegionList} (hfirst : list.first = some f)
    (hrun : regionListRemove list b h = .ok (list', h')) :
    Front live bound f h' ∧ h'.brk = h.brk ∧ list'.first = some f ∧ list'.iter = list.iter := by
  obtain ⟨r, h₁, h₂, q, hr, hstep₁, hstep₂, hq, rfl, hfirst', hiter⟩ := regionListRemove_cases hrun
  have hnext := fun c hc => hf.next b r c hb.1 hb.2 hr hc
  -- the region before it leads to the one after it
  have hf₁ : Front live bound f h₁ ∧ h₁.brk = h.brk := by
    obtain ⟨-, rfl⟩ | ⟨p, rp, -, hp, rfl⟩ := hstep₁
    · exact ⟨hf, rfl⟩
    · refine ⟨hf.relink hp hnext ?_, rfl⟩
      rintro rfl
      exact hf.prev_eq hp
  have hf₂ : Front live bound f h₂ ∧ h₂.brk = h.brk := by
    obtain ⟨-, rfl⟩ | ⟨n, rn, hn, hrn, rfl⟩ := hstep₂
    · exact hf₁
    · have hin := hnext n hn
      refine ⟨hf₁.1.relink hrn ?_ fun h => absurd h hin.2, hf₁.2⟩
      exact fun c hc => hf₁.1.next n rn c hin.1.1 (hf₁.2 ▸ hin.1.2) hrn hc
  refine ⟨hf₂.1.relink hq (by simp) fun _ => rfl, hf₂.2, ?_, hiter⟩
  have hother : list.first ≠ some b := by
    rw [hfirst]
    simpa using hne.symm
  rw [hfirst', if_neg hother, hfirst]

/-- A region that is not the first one is hung behind another list. -/
theorem Front.append (hf : Front live bound f h) (hb : b ∈ live ∧ b < h.brk) (hne : b ≠ f)
    {list list' : RegionList} (hrun : regionListAppend list b h = .ok (list', h')) :
    Front live bound f h' ∧ h'.brk = h.brk := by
  unfold regionListAppend at hrun
  split at hrun
  · rw [bind_eq_ok] at hrun
    obtain ⟨r, hr, hrun⟩ := hrun
    obtain ⟨c, hc, hr⟩ := RegionHeap.deref_eq_ok.mp hr
    cases hc
    cases hrun
    exact ⟨hf.relink hr (by simp) fun _ => rfl, rfl⟩
  · rw [bind_eq_ok] at hrun
    obtain ⟨q, hq, hrun⟩ := hrun
    obtain ⟨c, hc, hq⟩ := RegionHeap.deref_eq_ok.mp hq
    rw [hc] at hrun
    simp only [Option.getD_some, bind_eq_ok] at hrun
    obtain ⟨r, hr, hrun⟩ := hrun
    obtain ⟨_, heq, hr⟩ := RegionHeap.deref_eq_ok.mp hr
    cases heq
    cases hrun
    have hf₁ : Front live bound f (h.write c { q with next := some b }) := by
      refine hf.relink hq ?_ ?_
      · intro d hd
        cases hd
        exact ⟨hb, hne⟩
      · rintro rfl
        exact hf.prev_eq hq
    exact ⟨hf₁.relink hr (by simp) fun h => absurd h hne, rfl⟩

/-- The loop of `reserve_oob_blocks` leaves the first region where it is. -/
theorem Front.moveOob {alloc' : BlockAllocation} (fuel : ℕ) :
    ∀ {oob : Option ℕ} {alloc : BlockAllocation} {h : RegionHeap}, Front live bound f h →
      (∀ b, oob = some b → (b ∈ live ∧ b < h.brk) ∧ b ≠ f) → alloc.list.first = some f →
      moveOobLoop fuel oob alloc h = .ok (alloc', h') →
      Front live bound f h' ∧ h'.brk = h.brk ∧ alloc'.list.first = some f ∧
        alloc'.list.iter = alloc.list.iter := by
  induction fuel with
  | zero =>
      intro oob alloc h hf hoob hfirst hrun
      cases oob with
      | none =>
          cases hrun
          exact ⟨hf, rfl, hfirst, rfl⟩
      | some b => cases hrun
  | succ fuel ih =>
      intro oob alloc h hf hoob hfirst hrun
      cases oob with
      | none =>
          cases hrun
          exact ⟨hf, rfl, hfirst, rfl⟩
      | some b =>
          obtain ⟨hb, hne⟩ := hoob b rfl
          unfold moveOobLoop at hrun
          split at hrun
          · cases hrun
            exact ⟨hf, rfl, hfirst, rfl⟩
          · simp only [bind_eq_ok] at hrun
            obtain ⟨r, hr, ⟨list, h₁⟩, hremove, ⟨oobList, h₂⟩, happend, hrun⟩ := hrun
            obtain ⟨_, heq, hr⟩ := RegionHeap.deref_eq_ok.mp hr
            cases heq
            obtain ⟨hf₁, hbrk₁, hfirst₁, hiter₁⟩ := hf.remove hb hne hfirst hremove
            obtain ⟨hf₂, hbrk₂⟩ := hf₁.append (hbrk₁ ▸ hb) hne happend
            have hbrk : h₂.brk = h.brk := hbrk₂.trans hbrk₁
            obtain ⟨hf₃, hbrk₃, hfirst₃, hiter₃⟩ := ih hf₂ (fun c hc => by
              rw [hbrk]
              exact hf.next b r c hb.1 hb.2 hr hc) hfirst₁ hrun
            exact ⟨hf₃, hbrk₃.trans hbrk, hfirst₃, hiter₃.trans hiter₁⟩

/-- Where a split falls: in the region it starts from, or behind it in a region
that is not the first one. -/
theorem Front.splitLoop_cases (hf : Front live bound f h) {reg : Option ℕ} (fuel : ℕ) :
    ∀ {start : Option ℕ} {len : ℕ}, (∀ b, start = some b → b ∈ live ∧ b < h.brk) →
      splitLoop h fuel start len = .ok (reg, k) → k ≤ len ∧ ∀ b, reg = some b →
        (b ∈ live ∧ b < h.brk) ∧ (∃ r, h.node b = some r ∧ k < r.len) ∧
        (start = some b ∧ k = len ∨ b ≠ f ∧ (start = some f → k < len)) := by
  induction fuel with
  | zero =>
      intro start len _ hrun
      cases start with
      | none =>
          cases hrun
          exact ⟨le_rfl, by simp⟩
      | some a => cases hrun
  | succ fuel ih =>
      intro start len hstart hrun
      cases start with
      | none =>
          cases hrun
          exact ⟨le_rfl, by simp⟩
      | some a =>
          rw [splitLoop, bind_eq_ok] at hrun
          obtain ⟨r, hr, hrun⟩ := hrun
          obtain ⟨_, heq, hr⟩ := RegionHeap.deref_eq_ok.mp hr
          cases heq
          obtain ⟨hlo, hhi⟩ := hstart a rfl
          split at hrun
          · rename_i hge
            obtain ⟨hle, hreg⟩ := ih (fun b hb => (hf.next a r b hlo hhi hr hb).1) hrun
            refine ⟨by omega, fun b hb => ?_⟩
            obtain ⟨hin, hnode, hcases⟩ := hreg b hb
            refine ⟨hin, hnode, Or.inr ⟨?_, ?_⟩⟩
            · rcases hcases with ⟨hb', -⟩ | ⟨hne, -⟩
              · exact (hf.next a r b hlo hhi hr hb').2
              · exact hne
            · intro haf
              cases haf
              obtain ⟨rf, hrf, hpos, -⟩ := hf.node
              rw [hr, Option.some.injEq] at hrf
              subst hrf
              omega
          · cases hrun
            refine ⟨le_rfl, fun b hb => ?_⟩
            cases hb
            exact ⟨⟨hlo, hhi⟩, ⟨r, hr, by omega⟩, Or.inl ⟨rfl, rfl⟩⟩

/-- `do_split_allocation` finds a split or makes one. -/
theorem doSplitAllocation_cases {alloc alloc' : BlockAllocation} {len : ℕ} {middle : Option ℕ}
    (hrun : doSplitAllocation alloc len h = .ok (middle, alloc', h')) :
    ∃ reg k, splitLoop h h.brk alloc.list.iter len = .ok (reg, k) ∧
      (middle = reg ∧ (k = 0 ∨ reg = none) ∧ alloc' = alloc ∧ h' = h ∨
        ∃ b r, reg = some b ∧ 0 < k ∧ h.node b = some r ∧ middle = alloc.list.iter ∧
          alloc' = { alloc with list := { alloc.list with iter := some h.brk } } ∧
          h' = SystemExtras.Ext4.cutRegion h b r k) := by
  rw [doSplitAllocation, bind_eq_ok] at hrun
  obtain ⟨⟨reg, k⟩, hloop, hrun⟩ := hrun
  refine ⟨reg, k, hloop, ?_⟩
  simp only at hrun
  split at hrun
  · rename_i hpos
    cases reg with
    | none =>
        cases hrun
        exact Or.inl ⟨rfl, Or.inr rfl, rfl, rfl⟩
    | some b =>
        simp only [bind_eq_ok] at hrun
        obtain ⟨r, hr, hrun⟩ := hrun
        obtain ⟨_, heq, hr⟩ := RegionHeap.deref_eq_ok.mp hr
        cases heq
        cases hrun
        exact Or.inr ⟨b, r, rfl, hpos, hr, rfl, rfl, rfl⟩
  · cases hrun
    exact Or.inl ⟨rfl, Or.inl (by omega), rfl, rfl⟩

/-- When the first block of the first region is taken off, the rest of it has
nothing before it, and nothing leads to it. -/
theorem Front.rest (hf : Front live bound f h) (hnode : h.node f = some r) (hlen : 1 < r.len)
    (q : Region) :
    Front live bound h.brk (((SystemExtras.Ext4.cutRegion h f r 1).write h.brk
      ⟨u32 (r.block + 1), r.len - 1, r.bg, r.next, r.prev⟩).write f
        { q with next := none, prev := none }) := by
  obtain ⟨hlo, hhi⟩ := hf.range
  obtain ⟨rf, hrf, -, hle, hprev⟩ := hf.node
  rw [hnode, Option.some.injEq] at hrf
  subst hrf
  refine ⟨⟨hf.fresh _ le_rfl, Nat.lt_succ_self _⟩,
    fun a ha => hf.fresh a ((Nat.le_succ _).trans ha),
      ⟨⟨u32 (r.block + 1), r.len - 1, r.bg, r.next, r.prev⟩, ?_, ?_, ?_, hprev⟩, ?_⟩
  · rw [RegionHeap.write_node_of_ne _ _ hhi.ne', RegionHeap.write_node_self]
  · show 0 < r.len - 1
    omega
  · show r.len - 1 ≤ bound
    omega
  · intro a ra c h₁ h₂ ha hc
    have hin : (c ∈ live ∧ c < h.brk) → (c ∈ live ∧ c < h.brk + 1) ∧ c ≠ h.brk :=
      fun hc => ⟨⟨hc.1, hc.2.trans (Nat.lt_succ_self _)⟩, hc.2.ne⟩
    by_cases haf : a = f
    · subst haf
      rw [RegionHeap.write_node_self, Option.some.injEq] at ha
      subst ha
      cases hc
    · rw [RegionHeap.write_node_of_ne _ _ haf] at ha
      by_cases han : a = h.brk
      · subst han
        rw [RegionHeap.write_node_self, Option.some.injEq] at ha
        subst ha
        exact hin (hf.next f r c hlo hhi hnode hc).1
      · rw [RegionHeap.write_node_of_ne _ _ han] at ha
        unfold SystemExtras.Ext4.cutRegion at ha
        rw [RegionHeap.write_node_of_ne _ _ haf, RegionHeap.malloc_node_of_ne _ _ han] at ha
        have hlt : a < h.brk := Nat.lt_of_le_of_ne (Nat.le_of_lt_succ h₂) han
        exact hin (hf.next a ra c h₁ hlt ha hc).1

/-- The first block of the first region is moved away, and the rest of it is the
first region now. -/
theorem Front.pop (hf : Front live bound f h) (hnode : h.node f = some r) (hlen : 1 < r.len)
    {alloc alloc' : BlockAllocation} (hfirst : alloc.list.first = some f)
    (hiter : alloc.list.iter = some h.brk) {fuel : ℕ}
    (hrun : moveOobLoop fuel (some f) alloc (SystemExtras.Ext4.cutRegion h f r 1) =
      .ok (alloc', h')) :
    Front live bound h.brk h' ∧ alloc'.list.first = some h.brk ∧
      alloc'.list.iter = some h.brk := by
  obtain ⟨hlo, hhi⟩ := hf.range
  have hne : h.brk ≠ f := hhi.ne'
  have hself : (SystemExtras.Ext4.cutRegion h f r 1).node f =
      some { r with next := some h.brk, len := 1 } := RegionHeap.write_node_self _ _ _
  have hnew : (SystemExtras.Ext4.cutRegion h f r 1).node h.brk =
      some ⟨u32 (r.block + 1), r.len - 1, r.bg, r.next, some f⟩ := by
    unfold SystemExtras.Ext4.cutRegion
    rw [RegionHeap.write_node_of_ne _ _ hne, RegionHeap.malloc_node_self]
  cases fuel with
  | zero => cases hrun
  | succ fuel =>
      unfold moveOobLoop at hrun
      rw [if_neg (by rw [hiter]; simpa using hne.symm)] at hrun
      simp only [bind_eq_ok] at hrun
      obtain ⟨r', hr', ⟨list, h₁⟩, hremove, ⟨oobList, h₂⟩, happend, hrun⟩ := hrun
      obtain ⟨_, heq, hr'⟩ := RegionHeap.deref_eq_ok.mp hr'
      cases heq
      rw [hself, Option.some.injEq] at hr'
      subst hr'
      obtain ⟨rr, g₁, g₂, q, hrr, hstep₁, hstep₂, -, hh₁, hfirst₁, hiter₁⟩ :=
        regionListRemove_cases hremove
      rw [hself, Option.some.injEq] at hrr
      subst hrr
      obtain ⟨-, rfl⟩ | ⟨p, rp, hp, -⟩ := hstep₁
      · obtain ⟨hnone, -⟩ | ⟨n, rn, hn, hrn, rfl⟩ := hstep₂
        · cases hnone
        · cases hn
          rw [hnew, Option.some.injEq] at hrn
          subst hrn
          have hf₁ : Front live bound h.brk h₁ := hh₁ ▸ hf.rest hnode hlen q
          have hbrk₁ : h₁.brk = h.brk + 1 := by
            rw [hh₁]
            rfl
          obtain ⟨hf₂, -⟩ := hf₁.append ⟨hlo, by omega⟩ hne.symm happend
          rw [if_pos hfirst] at hfirst₁
          rw [hiter] at hiter₁
          cases fuel with
          | zero => cases hrun
          | succ fuel =>
              unfold moveOobLoop at hrun
              simp only [hiter₁, if_true] at hrun
              cases hrun
              exact ⟨hf₂, hfirst₁, hiter₁⟩
      · have hprev := hf.prev_eq hnode
        rw [hprev] at hp
        cases hp

end Front

/-! ## Reserving keeps the first region short -/

/-- The list of the allocation begins with a region of at most `bound` blocks and
stands at one that belongs to it. -/
def Standing (live : Set ℕ) (bound : ℕ) (alloc : BlockAllocation) (h : RegionHeap) : Prop :=
  ∃ f, Front live bound f h ∧ alloc.list.first = some f ∧
    ∀ b, alloc.list.iter = some b → b ∈ live ∧ b < h.brk

section Standing

variable {live : Set ℕ} {bound : ℕ} {alloc alloc' : BlockAllocation} {h h' : RegionHeap}
    {middle : Option ℕ}

theorem Standing.doSplit (hs : Standing live bound alloc h) {len : ℕ}
    (hrun : doSplitAllocation alloc len h = .ok (middle, alloc', h')) :
    Standing live bound alloc' h' := by
  obtain ⟨f, hf, hfirst, hiter⟩ := hs
  obtain ⟨reg, k, hloop, hcases⟩ := doSplitAllocation_cases hrun
  obtain ⟨-, hreg⟩ := hf.splitLoop_cases _ hiter hloop
  obtain ⟨-, -, rfl, rfl⟩ | ⟨b, r, hb, hpos, hr, -, rfl, rfl⟩ := hcases
  · exact ⟨f, hf, hfirst, hiter⟩
  · obtain ⟨hin, ⟨r', hr', hlt⟩, -⟩ := hreg b hb
    rw [hr, Option.some.injEq] at hr'
    subst hr'
    have hcut := hf.cutRegion hin hr hpos
    refine ⟨f, ⟨hcut.range, hcut.fresh, ?_, hcut.next⟩, hfirst, ?_⟩
    · obtain ⟨rf, hrf, hposf, hle, hprev⟩ := hcut.node
      refine ⟨rf, hrf, hposf, ?_, hprev⟩
      split at hle
      · rename_i hbf
        subst hbf
        obtain ⟨rb, hrb, -, hleb, -⟩ := hf.node
        rw [hr, Option.some.injEq] at hrb
        subst hrb
        omega
      · exact hle
    · intro c hc
      cases hc
      exact ⟨hf.fresh _ le_rfl, Nat.lt_succ_self _⟩

/-- Standing at the beginning of a longer first region, a split cuts it. -/
theorem Front.doSplit_first {f len : ℕ} {r : Region} (hf : Front live bound f h)
    (hfirst : alloc.list.first = some f) (hiter : alloc.list.iter = some f)
    (hnode : h.node f = some r) (hpos : 0 < len) (hlt : len < r.len)
    (hrun : doSplitAllocation alloc len h = .ok (middle, alloc', h')) :
    Standing live len alloc' h' := by
  obtain ⟨reg, k, hloop, hcases⟩ := doSplitAllocation_cases hrun
  have hderef : h.deref (some f) = .ok r := RegionHeap.deref_some.mpr hnode
  obtain ⟨fuel, hfuel⟩ : ∃ fuel, h.brk = fuel + 1 := ⟨h.brk - 1, by have := hf.range; omega⟩
  rw [hiter, hfuel, splitLoop, hderef, bind_ok, if_neg (not_le.mpr hlt)] at hloop
  cases hloop
  obtain ⟨-, hzero | hnone, -⟩ | ⟨b, r', hb, -, hr', -, rfl, rfl⟩ := hcases
  · omega
  · cases hnone
  · cases hb
    have hcut := hf.cutRegion hf.range hr' hpos
    rw [if_pos rfl] at hcut
    refine ⟨f, hcut, hfirst, ?_⟩
    intro c hc
    cases hc
    exact ⟨hf.fresh _ le_rfl, Nat.lt_succ_self _⟩

/-- Once there is a split where it stands, a block is moved to the second list. -/
theorem Standing.take (hs : Standing live bound alloc h) {alloc₁ : BlockAllocation}
    {h₁ : RegionHeap}
    {oob fuel : ℕ} (hsplit : doSplitAllocation alloc 1 h = .ok (some oob, alloc₁, h₁))
    (hmove : moveOobLoop fuel (some oob)
      { alloc₁ with list := { alloc₁.list with partialIter := 0 } } h₁ = .ok (alloc', h')) :
    Standing live bound alloc' h' := by
  obtain ⟨f₁, hf₁, hfirst₁, hiter₁⟩ := hs.doSplit hsplit
  obtain ⟨f, hf, hfirst, hiter⟩ := hs
  obtain ⟨reg, k, hloop, hcases⟩ := doSplitAllocation_cases hsplit
  obtain ⟨-, hreg⟩ := hf.splitLoop_cases _ hiter hloop
  have hkeep : (oob ∈ live ∧ oob < h₁.brk) → oob ≠ f₁ → Standing live bound alloc' h' := by
    intro hin hne
    obtain ⟨hf', hbrk, hfirst', hiter'⟩ := hf₁.moveOob fuel
      (fun b (hb : some oob = some b) => by cases hb; exact ⟨hin, hne⟩) (by exact hfirst₁) hmove
    refine ⟨f₁, hf', hfirst', fun b hb => ?_⟩
    rw [hiter'] at hb
    rw [hbrk]
    exact hiter₁ b hb
  obtain ⟨hreg', hzero, rfl, rfl⟩ | ⟨b, r, hb, hpos, hr, hmiddle, rfl, rfl⟩ := hcases
  · -- the split is there already, behind where it stands
    have hzero : k = 0 := by
      rcases hzero with hzero | hnone
      · exact hzero
      · rw [hnone] at hreg'
        cases hreg'
    obtain ⟨hin, -, hcases⟩ := hreg oob hreg'.symm
    rw [hfirst, Option.some.injEq] at hfirst₁
    subst hfirst₁
    rcases hcases with ⟨-, hone⟩ | ⟨hne, -⟩
    · omega
    · exact hkeep hin hne
  · replace hfirst₁ : alloc.list.first = some f₁ := hfirst₁
    rw [hfirst, Option.some.injEq] at hfirst₁
    subst hfirst₁
    have hin := hiter oob hmiddle.symm
    by_cases hoob : oob = f
    · subst hoob
      obtain ⟨-, ⟨r', hr', hlt⟩, hcases⟩ := hreg b hb
      rw [hr, Option.some.injEq] at hr'
      subst hr'
      rcases hcases with ⟨hb', rfl⟩ | ⟨-, hless⟩
      · rw [← hmiddle, Option.some.injEq] at hb'
        subst hb'
        obtain ⟨hf', hfirst', hiter'⟩ := hf.pop hr hlt (by exact hfirst) (by rfl) hmove
        refine ⟨h.brk, hf', hfirst', fun c hc => ?_⟩
        rw [hiter'] at hc
        cases hc
        exact hf'.range
      · have := hless hmiddle.symm
        omega
    · exact hkeep ⟨hin.1, hin.2.trans (Nat.lt_succ_self _)⟩ hoob

/-- The parts of a call of `reserve_oob_blocks` that returns `0`. -/
theorem reserveOobBlocks_cases (hrun : reserveOobBlocks alloc 1 h = .ok (true, alloc', h')) :
    ∃ middle alloc₁ h₁ oob alloc₂ h₂ fuel,
      doSplitAllocation alloc alloc.list.partialIter h = .ok (middle, alloc₁, h₁) ∧
      doSplitAllocation alloc₁ 1 h₁ = .ok (some oob, alloc₂, h₂) ∧
      moveOobLoop fuel (some oob) { alloc₂ with list := { alloc₂.list with partialIter := 0 } } h₂ =
        .ok (alloc', h') := by
  rw [reserveOobBlocks, bind_eq_ok] at hrun
  obtain ⟨⟨oob, alloc₃, h₃⟩, hsplit, hrun⟩ := hrun
  rw [splitAllocation, bind_eq_ok] at hsplit
  obtain ⟨⟨middle, alloc₁, h₁⟩, hfirst, hsplit⟩ := hsplit
  rw [bind_eq_ok] at hsplit
  obtain ⟨⟨oob', alloc₂, h₂⟩, hsecond, hsplit⟩ := hsplit
  cases hsplit
  cases oob with
  | none => cases hrun
  | some oob =>
      simp only [bind_eq_ok] at hrun
      obtain ⟨⟨alloc₄, h₄⟩, hmove, hrun⟩ := hrun
      cases hrun
      exact ⟨middle, alloc₁, h₁, oob, alloc₂, _, _, hfirst, hsecond, hmove⟩

theorem Standing.reserveOob (hs : Standing live bound alloc h)
    (hrun : reserveOobBlocks alloc 1 h = .ok (true, alloc', h')) :
    Standing live bound alloc' h' := by
  obtain ⟨_, _, _, _, _, _, _, hfirst, hsecond, hmove⟩ := reserveOobBlocks_cases hrun
  exact (hs.doSplit hfirst).take hsecond hmove

/-- To advance changes nothing but the place inside a region. -/
theorem advanceBlocks_cases {blocks : ℤ} {ok : Bool}
    (hrun : advanceBlocks alloc blocks h = .ok (ok, alloc')) :
    ∃ partialIter, advanceLoop h h.brk alloc.list.iter alloc.list.partialIter blocks =
        .ok (ok, partialIter) ∧
      alloc' = { alloc with list := { alloc.list with partialIter := partialIter } } := by
  rw [advanceBlocks, advanceListPtr, bind_eq_ok] at hrun
  obtain ⟨⟨ok', list⟩, hlist, hrun⟩ := hrun
  rw [bind_eq_ok] at hlist
  obtain ⟨⟨ok'', partialIter⟩, hloop, hlist⟩ := hlist
  cases hlist
  cases hrun
  exact ⟨partialIter, hloop, rfl⟩

theorem Standing.advance (hs : Standing live bound alloc h) {blocks : ℤ} {ok : Bool}
    (hrun : advanceBlocks alloc blocks h = .ok (ok, alloc')) : Standing live bound alloc' h := by
  obtain ⟨partialIter, -, rfl⟩ := advanceBlocks_cases hrun
  exact hs

theorem orError_eq_ok {msg : String} {ok : Bool} {u : Unit} (hrun : orError msg ok = .ok u) :
    ok = true := by
  cases ok with
  | true => rfl
  | false => cases hrun

/-- Reserving the pointer blocks of a part of the map keeps the first region short. -/
def KeepsStanding (live : Set ℕ) (bound : ℕ)
    (reserve : ℤ → BlockAllocation × RegionHeap → Except Stop (BlockAllocation × RegionHeap)) :
    Prop :=
  ∀ len alloc h alloc' h', Standing live bound alloc h →
    reserve len (alloc, h) = .ok (alloc', h') → Standing live bound alloc' h'

/-- The parts of a call of `advance_blocks` by the reserving functions. -/
theorem allocationCalls_advanceBlocks {blocks : ℤ} {ok : Bool} {r : BlockAllocation × RegionHeap}
    (hrun : allocationCalls.advanceBlocks (alloc, h) blocks = .ok (ok, r)) :
    advanceBlocks alloc blocks h = .ok (ok, r.1) ∧ h = r.2 := by
  simp only [allocationCalls, bind_eq_ok] at hrun
  obtain ⟨⟨ok', alloc₁⟩, hadvance, hrun⟩ := hrun
  cases hrun
  exact ⟨hadvance, rfl⟩

theorem keepsStanding_reserveIndirectBlock :
    KeepsStanding live bound allocationCalls.reserveIndirectBlock := by
  intro len alloc h alloc' h' hs hrun
  simp only [ReserveCalls.reserveIndirectBlock, bind_eq_ok] at hrun
  obtain ⟨⟨ok₁, alloc₁, h₁⟩, hreserve, _, hok₁, ⟨ok₂, alloc₂, h₂⟩, hadvance, _, -, hrun⟩ := hrun
  cases hrun
  cases orError_eq_ok hok₁
  obtain ⟨hadvance, rfl⟩ := allocationCalls_advanceBlocks hadvance
  exact (hs.reserveOob hreserve).advance hadvance

variable {per : ℤ}
  {reserve : ℤ → BlockAllocation × RegionHeap → Except Stop (BlockAllocation × RegionHeap)}

theorem KeepsStanding.reserveLoop (hkeep : KeepsStanding live bound reserve) (fuel : ℕ) :
    ∀ {len : ℤ} {alloc : BlockAllocation} {h : RegionHeap}, Standing live bound alloc h →
      ReserveCalls.reserveLoop per reserve fuel len (alloc, h) = .ok (alloc', h') →
      Standing live bound alloc' h' := by
  induction fuel with
  | zero =>
      intro len alloc h hs hrun
      unfold ReserveCalls.reserveLoop at hrun
      split at hrun
      · cases hrun
        exact hs
      · cases hrun
  | succ fuel ih =>
      intro len alloc h hs hrun
      unfold ReserveCalls.reserveLoop at hrun
      split at hrun
      · cases hrun
        exact hs
      · rw [bind_eq_ok] at hrun
        obtain ⟨⟨alloc₁, h₁⟩, hreserve, hrun⟩ := hrun
        exact ih (hkeep _ _ _ _ _ hs hreserve) hrun

theorem KeepsStanding.reserveLevel (hkeep : KeepsStanding live bound reserve) :
    KeepsStanding live bound (allocationCalls.reserveLevel per reserve) := by
  intro len alloc h alloc' h' hs hrun
  simp only [ReserveCalls.reserveLevel, bind_eq_ok] at hrun
  obtain ⟨⟨ok, alloc₁, h₁⟩, hreserve, _, hok, hrun⟩ := hrun
  cases orError_eq_ok hok
  exact hkeep.reserveLoop _ (hs.reserveOob hreserve) hrun

theorem keepsStanding_reserveDindirectBlock (aux : FsAuxInfo) :
    KeepsStanding live bound (allocationCalls.reserveDindirectBlock aux) :=
  keepsStanding_reserveIndirectBlock.reserveLevel

theorem keepsStanding_reserveTindirectBlock (aux : FsAuxInfo) :
    KeepsStanding live bound (allocationCalls.reserveTindirectBlock aux) :=
  (keepsStanding_reserveDindirectBlock aux).reserveLevel

end Standing

section ReserveAll

variable {h h' : RegionHeap} {a : ℕ} {p : Piece} {rest : List (ℕ × Piece)}

theorem Listed.next_mem {ns : List (ℕ × Piece)} (hlist : Listed h ns) {x b : ℕ} {r : Region}
    (hx : x ∈ ns.map Prod.fst) (hr : h.node x = some r) (hb : r.next = some b) :
    b ∈ ns.tail.map Prod.fst := by
  induction ns with
  | nil => simp at hx
  | cons n rest ih =>
      rcases List.mem_cons.mp hx with rfl | hx
      · obtain ⟨prev, hnode⟩ := hlist.1
        rw [hnode, Option.some.injEq] at hr
        subst hr
        cases rest with
        | nil => cases hb
        | cons n' rest =>
            cases hb
            exact List.mem_cons_self
      · have htail := ih hlist.2 hx
        rw [List.map_tail] at htail
        exact List.mem_of_mem_tail htail

/-- The first region of an allocation that has just been made. -/
theorem Extends.front (hext : Extends h h' none ((a, p) :: rest)) (hpos : 0 < p.len) :
    Front {x | x ∈ ((a, p) :: rest).map Prod.fst ∨ h'.brk ≤ x} p.len a h' where
  range := ⟨Or.inl List.mem_cons_self, (hext.fresh (a, p) List.mem_cons_self).2⟩
  fresh := fun x hx => Or.inr hx
  node := ⟨_, hext.linked.1, hpos, le_rfl, rfl⟩
  next := by
    intro x r b hx hlt hr hb
    have hmem : b ∈ rest.map Prod.fst := by
      rcases hx with hx | hge
      · exact hext.linked.listed.next_mem hx hr hb
      · exact absurd hlt (not_lt.mpr hge)
    obtain ⟨n, hn, hbn⟩ := List.mem_map.mp hmem
    refine ⟨⟨Or.inl (List.mem_cons_of_mem _ hmem), ?_⟩, ?_⟩
    · rw [← hbn]
      exact (hext.fresh n (List.mem_cons_of_mem _ hn)).2
    · rintro rfl
      exact (List.nodup_cons.mp hext.nodup).1 hmem

/-- When all pointer blocks are reserved, the first region has at most twelve
blocks. -/
theorem Extends.standing_of_reserveAll {h₁ : RegionHeap} (hext : Extends h h₁ none ((a, p) :: rest))
    (hpos : 0 < p.len) {aux : FsAuxInfo} {len : ℕ} (hlen : EXT4_NDIR_BLOCKS < len)
    {alloc' : BlockAllocation}
    (hrun : reserveAllIndirectBlocks aux (freshAllocation a) len h₁ = .ok (alloc', h')) :
    ∃ live, Standing live EXT4_NDIR_BLOCKS alloc' h' := by
  have hf := hext.front hpos
  refine ⟨{x | x ∈ ((a, p) :: rest).map Prod.fst ∨ h₁.brk ≤ x}, ?_⟩
  revert hf
  generalize {x | x ∈ ((a, p) :: rest).map Prod.fst ∨ h₁.brk ≤ x} = live
  intro hf
  unfold reserveAllIndirectBlocks ReserveCalls.reserveAllIndirectBlocks at hrun
  rw [if_neg (not_le.mpr hlen)] at hrun
  simp only [bind_eq_ok] at hrun
  obtain ⟨⟨ok, alloc₁, h₂⟩, hadvance, ⟨alloc₂, h₃⟩, hind, hrun⟩ := hrun
  obtain ⟨hadvance, rfl⟩ := allocationCalls_advanceBlocks hadvance
  -- the first pointer block makes the first region short
  have hs₂ : Standing live EXT4_NDIR_BLOCKS alloc₂ h₃ := by
    obtain ⟨partialIter, hloop, rfl⟩ := advanceBlocks_cases hadvance
    simp only [ReserveCalls.reserveIndirectBlock, bind_eq_ok] at hind
    obtain ⟨⟨ok₁, alloc₃, h₄⟩, hreserve, _, hok₁, ⟨ok₂, alloc₄, h₅⟩, hadvance', _, -, hind⟩ := hind
    cases hind
    cases orError_eq_ok hok₁
    obtain ⟨hadvance', rfl⟩ := allocationCalls_advanceBlocks hadvance'
    refine Standing.advance ?_ hadvance'
    obtain ⟨_, _, _, _, _, _, _, hfirst, hsecond, hmove⟩ := reserveOobBlocks_cases hreserve
    refine Standing.take ?_ hsecond hmove
    by_cases hlong : EXT4_NDIR_BLOCKS < p.len
    · obtain ⟨fuel, hfuel⟩ : ∃ fuel, h₁.brk = fuel + 1 := ⟨h₁.brk - 1, by have := hf.range; omega⟩
      have hinside : advanceLoop h₁ (fuel + 1) (some a) 0 EXT4_NDIR_BLOCKS =
          .ok (true, EXT4_NDIR_BLOCKS) :=
        advanceLoop_within hext.linked.1 (by decide) (by decide) hlong
      replace hloop : advanceLoop h₁ h₁.brk (some a) 0 EXT4_NDIR_BLOCKS = .ok (ok, partialIter) :=
        hloop
      rw [hfuel, hinside, Except.ok.injEq, Prod.mk.injEq] at hloop
      obtain ⟨-, rfl⟩ := hloop
      exact hf.doSplit_first rfl rfl hext.linked.1 (by decide) hlong hfirst
    · have hshort : Front live EXT4_NDIR_BLOCKS a h₁ := by
        refine ⟨hf.range, hf.fresh, ?_, hf.next⟩
        obtain ⟨r, hr, hrpos, hle, hprev⟩ := hf.node
        exact ⟨r, hr, hrpos, hle.trans (not_lt.mp hlong), hprev⟩
      exact Standing.doSplit ⟨a, hshort, rfl, fun b hb => by cases hb; exact hf.range⟩ hfirst
  split at hrun
  · cases hrun
    exact hs₂
  · rw [bind_eq_ok] at hrun
    obtain ⟨⟨alloc₃, h₃⟩, hdind, hrun⟩ := hrun
    have hs₃ := keepsStanding_reserveDindirectBlock aux _ _ _ _ _ hs₂ hdind
    split at hrun
    · cases hrun
      exact hs₃
    · rw [bind_eq_ok] at hrun
      obtain ⟨⟨alloc₄, h₄⟩, htind, hrun⟩ := hrun
      have hs₄ := keepsStanding_reserveTindirectBlock aux _ _ _ _ _ hs₃ htind
      split at hrun
      · cases hrun
        exact hs₄
      · cases hrun

end ReserveAll

/-! ## What attaching leaves alone -/

/-- The queue only grows, and the first `k` buffers are left alone. -/
structure Grows (k : ℕ) (s s' : State) : Prop where
  chunks : ∃ more, s'.out.chunks = s.out.chunks ++ more
  brk : s.out.brk ≤ s'.out.brk
  buffers : ∀ i < k, s'.out.buffers i = s.out.buffers i

section Grows

variable {k : ℕ} {s s' s'' : State} {alloc alloc' : BlockAllocation}

theorem Grows.refl (k : ℕ) (s : State) : Grows k s s := ⟨⟨[], by simp⟩, le_rfl, fun _ _ => rfl⟩

theorem Grows.trans (h : Grows k s s') (h' : Grows k s' s'') : Grows k s s'' where
  chunks := by
    obtain ⟨more, hmore⟩ := h.chunks
    obtain ⟨more', hmore'⟩ := h'.chunks
    exact ⟨more ++ more', by rw [hmore', hmore, List.append_assoc]⟩
  brk := h.brk.trans h'.brk
  buffers := fun i hi => (h'.buffers i hi).trans (h.buffers i hi)

theorem grows_setBuffer {id : ℕ} (hid : k ≤ id) (bytes : Mem) : Grows k s (s.setBuffer id bytes) :=
  ⟨⟨[], by simp [State.setBuffer]⟩, le_rfl,
    fun i hi => Function.update_of_ne (by omega) _ _⟩

theorem grows_queueBlock (hk : k ≤ s.out.brk) (blockSize block : ℕ) :
    Grows k s (queueBlock blockSize block s).2 :=
  ⟨⟨[⟨.buffer s.out.brk 0, blockSize, block⟩], rfl⟩, Nat.le_succ _,
    fun i hi => Function.update_of_ne (by omega) _ _⟩

/-- Filling a buffer leaves the first `k` alone, if it is not one of them. -/
def GrowsFill (k : ℕ)
    (fill : ℕ → ℤ → BlockAllocation → State → Except Stop (BlockAllocation × State)) : Prop :=
  ∀ id len alloc s alloc' s', k ≤ id → k ≤ s.out.brk →
    fill id len alloc s = .ok (alloc', s') → Grows k s s'

theorem growsFill_fillIndirectBlock (blockSize : ℕ) :
    GrowsFill k (fillIndirectBlock blockSize) := by
  intro id len alloc s alloc' s' hid _ hrun
  rw [fillIndirectBlock, bind_eq_ok] at hrun
  obtain ⟨bytes, -, hrun⟩ := hrun
  cases hrun
  exact grows_setBuffer hid bytes

theorem growsFill_fillAndAdvance (blockSize : ℕ) : GrowsFill k (fillAndAdvance blockSize) := by
  intro id len alloc s alloc' s' hid hk hrun
  simp only [fillAndAdvance, bind_eq_ok] at hrun
  obtain ⟨⟨alloc₁, s₁⟩, hfill, ⟨ok, alloc₂⟩, -, _, -, hrun⟩ := hrun
  cases hrun
  exact growsFill_fillIndirectBlock blockSize _ _ _ _ _ _ hid hk hfill

variable {blockSize : ℕ} {per : ℤ}
  {fill : ℕ → ℤ → BlockAllocation → State → Except Stop (BlockAllocation × State)}

theorem GrowsFill.fillLevelLoop (hfill : GrowsFill k fill) {id : ℕ} (hid : k ≤ id) (fuel : ℕ) :
    ∀ {i : ℕ} {len : ℤ} {alloc : BlockAllocation} {s : State}, k ≤ s.out.brk →
      fillLevelLoop blockSize per fill id fuel i len alloc s = .ok (alloc', s') →
      Grows k s s' := by
  induction fuel with
  | zero =>
      intro i len alloc s _ hrun
      unfold SystemExtras.Ext4.fillLevelLoop at hrun
      split at hrun
      · cases hrun
        exact Grows.refl _ _
      · cases hrun
  | succ fuel ih =>
      intro i len alloc s hk hrun
      unfold SystemExtras.Ext4.fillLevelLoop at hrun
      split at hrun
      · cases hrun
        exact Grows.refl _ _
      · simp only [bind_eq_ok] at hrun
        obtain ⟨block, -, ⟨ok, alloc₁⟩, -, _, -, hrun⟩ := hrun
        split at hrun
        · cases hrun
        · simp only [bind_eq_ok] at hrun
          obtain ⟨⟨alloc₂, s₂⟩, hcall, hrun⟩ := hrun
          have hset := grows_setBuffer (s := s) hid ((s.out.buffers id).bytes.store (4 * i) 4 block)
          have hqueue := grows_queueBlock (hk.trans hset.brk) blockSize block
          have hk₂ := hk.trans (hset.trans hqueue).brk
          have hinner := hfill _ _ _ _ _ _ (hk.trans hset.brk) hk₂ hcall
          exact ((hset.trans hqueue).trans hinner).trans (ih (hk₂.trans hinner.brk) hrun)

theorem growsFill_fillDindirectBlock (g : Geometry) : GrowsFill k (fillDindirectBlock g) := by
  intro id len alloc s alloc' s' hid hk hrun
  exact (growsFill_fillAndAdvance g.info.blockSize).fillLevelLoop hid _ hk hrun

theorem growsFill_fillTindirectBlock (g : Geometry) : GrowsFill k (fillTindirectBlock g) := by
  intro id len alloc s alloc' s' hid hk hrun
  exact (growsFill_fillDindirectBlock g).fillLevelLoop hid _ hk hrun

/-- The parts of an attaching function that returns `0`. -/
theorem inodeAttachLevel_cases {slot per base count count' : ℕ} {m m' : Mem}
    (hrun : inodeAttachLevel blockSize slot per fill m base alloc count s =
      .ok (m', alloc', count', s')) :
    ∃ block alloc₁ alloc₂, getOobBlock alloc 0 s.regions = .ok block ∧
      m' = ((Inode.iBlock slot).at_ base).set m block ∧ alloc₁.list = alloc.list ∧
      fill s.out.brk (s32 (min count per)) alloc₁ (queueBlock blockSize block s).2 =
        .ok (alloc₂, s') := by
  simp only [inodeAttachLevel, bind_eq_ok] at hrun
  obtain ⟨block, hblock, ⟨ok, alloc₁⟩, hadvance, _, -, ⟨alloc₂, s₂⟩, hfill, ⟨ok', alloc₃⟩, -, _, -,
    hrun⟩ := hrun
  cases hrun
  refine ⟨block, alloc₁, alloc₂, hblock, rfl, ?_, hfill⟩
  rw [advanceOobBlocks, bind_eq_ok] at hadvance
  obtain ⟨⟨ok'', list⟩, -, hadvance⟩ := hadvance
  cases hadvance
  rfl

/-- A later attaching function changes neither the entries before its own nor
the buffers that are there. -/
theorem grows_attachIf (hfill : GrowsFill k fill) (hk : k ≤ s.out.brk)
    {slot per base count count' j : ℕ} {m m' : Mem} (hj : j < slot)
    (hrun : attachIf (inodeAttachLevel blockSize slot per fill) m base alloc count s =
      .ok (m', alloc', count', s')) :
    Grows k s s' ∧ m'.load (base + Inode.iBlockOffset + 4 * j) 4 =
      m.load (base + Inode.iBlockOffset + 4 * j) 4 := by
  unfold attachIf at hrun
  split at hrun
  · obtain ⟨block, alloc₁, alloc₂, -, rfl, -, hcall⟩ := inodeAttachLevel_cases hrun
    have hqueue := grows_queueBlock hk blockSize block
    refine ⟨hqueue.trans (hfill _ _ _ _ _ _ hk (hk.trans hqueue.brk) hcall), ?_⟩
    refine load_store_of_disjoint _ (Or.inl ?_)
    show _ ≤ base + (Inode.iBlockOffset + 4 * slot)
    omega
  · cases hrun
    exact ⟨Grows.refl k s, rfl⟩

end Grows

/-! ## More than twelve blocks -/

section Collision

variable {h : RegionHeap}

/-- To advance leaves the place no farther in than it was told to go. -/
theorem advanceLoop_le {ok : Bool} {partialIter : ℕ} (fuel : ℕ) : ∀ {a : Option ℕ} {blocks : ℕ},
    blocks < 2 ^ 31 → advanceLoop h fuel a 0 blocks = .ok (ok, partialIter) →
      partialIter ≤ blocks := by
  induction fuel with
  | zero =>
      intro a blocks _ hrun
      cases a with
      | none =>
          cases hrun
          exact Nat.zero_le _
      | some a =>
          unfold advanceLoop at hrun
          split at hrun
          · cases hrun
            exact Nat.zero_le _
          · cases hrun
  | succ fuel ih =>
      intro a blocks hlt hrun
      cases a with
      | none =>
          cases hrun
          exact Nat.zero_le _
      | some a =>
          obtain hzero | hpos := Nat.eq_zero_or_pos blocks
          · rw [advanceLoop_done _ (by omega)] at hrun
            cases hrun
            exact Nat.zero_le _
          cases hnode : h.node a with
          | none =>
              rw [advanceLoop, if_neg (by omega), RegionHeap.deref, hnode] at hrun
              cases hrun
          | some r =>
              obtain hin | hpast := Nat.lt_or_ge blocks r.len
              · rw [advanceLoop_within hnode hpos (by omega) (by omega)] at hrun
                cases hrun
                omega
              · rw [advanceLoop_past hnode hpos (by omega) (by omega), s32_of_lt (by omega)] at hrun
                exact (ih (by omega) hrun).trans (by omega)

/-- A first region that is all advanced over holds back by its length. -/
theorem advanceLoop_lt {ok : Bool} {a partialIter fuel blocks : ℕ} {r : Region}
    (hnode : h.node a = some r) (hpos : 0 < r.len) (hle : r.len ≤ blocks) (hlt : blocks < 2 ^ 31)
    (hrun : advanceLoop h fuel (some a) 0 blocks = .ok (ok, partialIter)) :
    partialIter < blocks := by
  cases fuel with
  | zero =>
      rw [advanceLoop, if_neg (by omega)] at hrun
      cases hrun
  | succ fuel =>
      rw [advanceLoop_past hnode (by omega) (by omega) (by omega), s32_of_lt (by omega)] at hrun
      have hrest := advanceLoop_le fuel (by omega) hrun
      omega

theorem getBlockLoop_lt {b : ℕ} (fuel : ℕ) : ∀ {a : Option ℕ} {k : ℕ},
    getBlockLoop h fuel a k = .ok b → b < 2 ^ 32 := by
  induction fuel with
  | zero =>
      intro a k hrun
      cases a with
      | none =>
          cases hrun
          decide
      | some a => cases hrun
  | succ fuel ih =>
      intro a k hrun
      cases a with
      | none =>
          cases hrun
          decide
      | some a =>
          rw [getBlockLoop, bind_eq_ok] at hrun
          obtain ⟨r, -, hrun⟩ := hrun
          split at hrun
          · cases hrun
            exact u32_lt _
          · exact ih hrun

variable {g : Geometry} {s s' : State} {alloc alloc' : BlockAllocation} {m m' : Mem}
  {base count : ℕ} {live : Set ℕ}

/-- The first entry of the indirect block repeats an entry of the inode. -/
theorem Standing.collision (hs : Standing live EXT4_NDIR_BLOCKS alloc s.regions)
    (hcount : EXT4_NDIR_BLOCKS < count) (hn : 0 < g.aux.blocksPerInd)
    (hword : g.aux.blocksPerInd < 2 ^ 31)
    (hrun : doInodeAttachIndirect g m base (rewindAlloc alloc) count s = .ok (m', alloc', s')) :
    ∃ j < EXT4_NDIR_BLOCKS, ∃ ind more,
      m'.load (base + Inode.iBlockOffset + 4 * EXT4_IND_BLOCK) 4 = ind ∧
      s'.out.chunks = s.out.chunks ++ ⟨.buffer s.out.brk 0, g.info.blockSize, ind⟩ :: more ∧
      (s'.out.buffers s.out.brk).bytes.load 0 4 =
        m'.load (base + Inode.iBlockOffset + 4 * j) 4 := by
  obtain ⟨f, hf, hfirst, -⟩ := hs
  obtain ⟨r, hr, hpos, hle, -⟩ := hf.node
  simp only [doInodeAttachIndirect, bind_eq_ok] at hrun
  obtain ⟨⟨m₁, alloc₁, count₁⟩, hdirect, ⟨m₂, alloc₂, count₂, s₂⟩, hind,
    ⟨m₃, alloc₃, count₃, s₃⟩, hdind, ⟨m₄, alloc₄, count₄, s₄⟩, htind, hrun⟩ := hrun
  split at hrun
  · cases hrun
  cases hrun
  -- the twelve entries of the inode
  simp only [inodeAttachDirectBlocks, bind_eq_ok, min_eq_right hcount.le] at hdirect
  obtain ⟨md, hfill, ⟨ok, allocd⟩, hadvance, _, -, hdirect⟩ := hdirect
  cases hdirect
  obtain ⟨hentries, -⟩ := fillLoop_cases _ hfill
  obtain ⟨j, hloop, rfl⟩ := advanceBlocks_cases hadvance
  replace hloop : advanceLoop s.regions s.regions.brk alloc.list.first 0 EXT4_NDIR_BLOCKS =
    .ok (ok, j) := hloop
  rw [hfirst] at hloop
  have hj : j < EXT4_NDIR_BLOCKS := advanceLoop_lt hr hpos hle (by decide) hloop
  obtain ⟨b, hb, hloadb⟩ := hentries j (Nat.zero_le j) (by omega)
  -- the first entry of the indirect block
  dsimp only at hind
  rw [attachIf, if_pos (by omega)] at hind
  obtain ⟨block, alloci, alloce, hblock, rfl, hlist, hfilli⟩ := inodeAttachLevel_cases hind
  rw [fillIndirectBlock, bind_eq_ok] at hfilli
  obtain ⟨bytes, hbytes, hfilli⟩ := hfilli
  cases hfilli
  have hlen : 0 < (s32 (min (count - EXT4_NDIR_BLOCKS) g.aux.blocksPerInd)).toNat := by
    rw [s32_of_lt (by omega)]
    omega
  obtain ⟨b', hb', hloadb'⟩ := (fillLoop_cases _ hbytes).1 0 le_rfl (by omega)
  have hsame : getBlock alloci 0 (queueBlock g.info.blockSize block s).2.regions =
      getBlock (rewindAlloc alloc) j s.regions := by
    unfold getBlock
    rw [hlist, Nat.zero_add]
    rfl
  rw [hsame, hb] at hb'
  cases hb'
  -- nothing of this changes any more
  have hk : s.out.brk + 1 ≤ ((queueBlock g.info.blockSize block s).2.setBuffer s.out.brk
      bytes).out.brk := le_rfl
  have hgrows₃ := fun j hj =>
    grows_attachIf (j := j) (growsFill_fillDindirectBlock g) hk hj hdind
  have hgrows₄ := fun j hj => grows_attachIf (j := j) (growsFill_fillTindirectBlock g)
    (hk.trans (hgrows₃ 0 (by decide)).1.brk) hj htind
  have hgrows := (hgrows₃ 0 (by decide)).1.trans (hgrows₄ 0 (by decide)).1
  have hload : ∀ i ≤ EXT4_IND_BLOCK, m₄.load (base + Inode.iBlockOffset + 4 * i) 4 =
      (((Inode.iBlock EXT4_IND_BLOCK).at_ base).set m₁ block).load
        (base + Inode.iBlockOffset + 4 * i) 4 := by
    intro i hi
    have h₃ : i < EXT4_DIND_BLOCK := Nat.lt_succ_of_le hi
    exact (hgrows₄ i (h₃.trans (Nat.lt_succ_self _))).2.trans (hgrows₃ i h₃).2
  obtain ⟨more, hmore⟩ := hgrows.chunks
  refine ⟨j, hj, block, more, ?_, ?_, ?_⟩
  · have hself : ((Inode.iBlock EXT4_IND_BLOCK).at_ base).get
        (((Inode.iBlock EXT4_IND_BLOCK).at_ base).set m₁ block) = block % 2 ^ 32 :=
      Field.get_set_self _ _ _
    rw [Nat.mod_eq_of_lt (getBlockLoop_lt _ hblock)] at hself
    rw [hload _ le_rfl, Nat.add_assoc]
    exact hself
  · rw [hmore]
    show (s.out.chunks ++ [_]) ++ more = _
    rw [List.append_assoc]
    rfl
  · rw [hgrows.buffers _ (Nat.lt_succ_self _), hload j hj.le]
    have hentry : (((Inode.iBlock EXT4_IND_BLOCK).at_ base).set m₁ block).load
        (base + Inode.iBlockOffset + 4 * j) 4 = b % 2 ^ 32 := by
      rw [← hloadb]
      refine load_store_of_disjoint _ (Or.inl ?_)
      show _ ≤ base + (Inode.iBlockOffset + 4 * EXT4_IND_BLOCK)
      unfold EXT4_IND_BLOCK
      omega
    have hbuffer : (((queueBlock g.info.blockSize block s).2.setBuffer s.out.brk bytes).out.buffers
        s.out.brk).bytes = bytes := by
      simp [State.setBuffer]
    rw [hentry, ← hloadb', hbuffer]

end Collision

/-! ## Whole calls -/

section Calls

variable {g : Geometry} {s s₁ : State} {alloc : BlockAllocation} {len : ℕ}

/-- An allocation has as many blocks as were asked for. -/
theorem length_blocks_of_allocateBlocks (hg : g.Fits) (hinv : GroupsInv g s.bgs) {n : ℕ}
    (hrun : allocateBlocks g n s = .ok (some alloc, s₁)) : (alloc.blocks s₁).length = n := by
  rcases Nat.eq_zero_or_pos n with rfl | hpos
  · obtain ⟨a, block, bg, rfl, ha, hlink⟩ := allocateBlocks_zero hrun
    have hblocks : (freshAllocation a).blocks s₁ = blocksOf [⟨block, 0, bg⟩] :=
      hlink.listed.regionBlocks_eq (by simpa using Nat.one_le_of_lt ha)
    rw [hblocks]
    rfl
  · obtain ⟨-, ns, hext, ⟨a, p, rest, rfl, halloc, hmany⟩ | ⟨hnone, -⟩⟩ :=
      allocateBlocks_cases hg hinv hpos hrun
    · cases halloc
      have hblocks : (freshAllocation a).blocks s₁ = _ :=
        hext.linked.listed.regionBlocks_eq hext.length_le
      have hlen := hmany.lenOf_eq
      rw [← length_blocksOf, ← hblocks] at hlen
      exact hlen
    · cases hnone

theorem indirectBlocksNeeded_lt {aux : FsAuxInfo} {n k : ℕ}
    (h : indirectBlocksNeeded aux n = .ok k) : k < 2 ^ 32 := by
  have hdiv : ∀ x y z, divRoundUpBy x y = .ok z → z < 2 ^ 32 := by
    intro x y z hz
    unfold divRoundUpBy at hz
    split at hz
    · cases hz
    · cases hz
      exact (Nat.div_le_self _ _).trans_lt (u32_lt _)
  unfold indirectBlocksNeeded at h
  split at h
  · cases h
    decide
  · simp only [bind_eq_ok] at h
    obtain ⟨ind, hind, h⟩ := h
    split at h
    · cases h
      exact hdiv _ _ _ hind
    · rw [bind_eq_ok] at h
      obtain ⟨dind, -, h⟩ := h
      split at h
      · cases h
        exact u32_lt _
      · rw [bind_eq_ok] at h
        obtain ⟨tind, -, h⟩ := h
        split at h
        · cases h
          exact u32_lt _
        · cases h

/-- A map of as many blocks as the file has needs an allocation that large: no
count has wrapped. -/
theorem IndirectMap.no_wrap (hg : g.Roomy) (hinv : GroupsInv g s.bgs)
    (halloc : doInodeAllocateIndirect g (writtenBlocks g len) s = .ok (alloc, s₁)) {m : Mem}
    {base : ℕ} {s' : State}
    (h : IndirectMap g (len ⌈/⌉ g.info.blockSize) (alloc.blocks s₁) s m base s') :
    writtenBlocks g len = len ⌈/⌉ g.info.blockSize ∧ ∃ indirectLen,
      indirectBlocksNeeded g.aux (writtenBlocks g len) = .ok indirectLen ∧
      writtenBlocks g len + indirectLen < 2 ^ 32 ∧
      allocateBlocks g (writtenBlocks g len + indirectLen) s = .ok (some alloc, s₁) := by
  have hbs : 0 < g.info.blockSize := (FsAuxInfo.of_create g.create).blockSize_pos
  have hle : len ⌈/⌉ g.info.blockSize ≤ (alloc.blocks s₁).length := by
    rw [← (mapM_range_eq_ok.mp h.mapped).1]
    exact List.length_filter_le _ _
  rw [doInodeAllocateIndirect, bind_eq_ok] at halloc
  obtain ⟨indirectLen, hneed, halloc⟩ := halloc
  rw [bind_eq_ok] at halloc
  obtain ⟨⟨r, s₂⟩, hcall, halloc⟩ := halloc
  cases r with
  | none => cases halloc
  | some alloc₂ =>
      cases halloc
      rw [length_blocks_of_allocateBlocks hg.fits hinv hcall] at hle
      have hlt : len ⌈/⌉ g.info.blockSize < 2 ^ 32 := hle.trans_lt (u32_lt _)
      have hwritten := (writtenBlocks_eq_iff hbs).mpr hlt
      have hind := indirectBlocksNeeded_lt hneed
      rw [hwritten] at hcall hle hneed ⊢
      generalize len ⌈/⌉ g.info.blockSize = n at *
      have hfits : n + indirectLen < 2 ^ 32 := by
        by_contra hwrap
        unfold u32 at hle
        omega
      rw [u32_of_lt hfits] at hcall
      exact ⟨rfl, indirectLen, hneed, hfits, hcall⟩

/-- A file of more than twelve blocks is not mapped to its allocation. -/
theorem not_indirectMap_of_lt (hg : g.Roomy) (hinv : GroupsInv g s.bgs) {m m' : Mem} {base : ℕ}
    {s' : State} (hlt : EXT4_NDIR_BLOCKS < len ⌈/⌉ g.info.blockSize)
    (hn : 0 < g.info.blockSize / 4)
    (halloc : doInodeAllocateIndirect g (writtenBlocks g len) s = .ok (alloc, s₁))
    (hrun : inodeAllocateIndirect g m base len s = .ok (m', s')) :
    ¬ IndirectMap g (len ⌈/⌉ g.info.blockSize) (alloc.blocks s₁) s m' base s' := by
  intro hmap
  obtain ⟨hwritten, indirectLen, hneed, hfits, hcall⟩ := hmap.no_wrap hg hinv halloc
  obtain ⟨hout, a, p, rest, rfl, hext, -⟩ :=
    doInodeAllocateIndirect_cases hg hinv (by omega) hneed hfits halloc
  have hpos : 0 < p.len := allocateBlocks_first_pos hg.fits hinv (by omega) hcall hext.linked.1
  have hper := (FsAuxInfo.of_create g.create).blocksPerInd
  have hword := g.info.blockSize_lt
  simp only [inodeAllocateIndirect, hneed, halloc, bind_ok, bind_eq_ok] at hrun
  obtain ⟨⟨alloc₂, regions⟩, hreserve, ⟨m₂, alloc₃, s₂⟩, hattach, regions', -, hrun⟩ := hrun
  cases hrun
  obtain ⟨live, hstanding⟩ := hext.standing_of_reserveAll hpos (by omega) hreserve
  obtain ⟨j, hj, ind, more, hind, hchunks, hentry⟩ :=
    Standing.collision (s := { s₁ with regions := regions }) hstanding (by omega)
      (by omega) (by omega) hattach
  replace hchunks : s₂.out.chunks = s₁.out.chunks ++ _ := hchunks
  have hnew : newChunks s { s₂ with regions := regions' } =
      ⟨.buffer s₁.out.brk 0, g.info.blockSize, ind⟩ :: more := by
    unfold newChunks
    rw [hchunks, hout, List.drop_left]
  obtain ⟨hlength, hget⟩ := mapM_range_eq_ok.mp hmap.mapped
  have hnodup := (List.nodup_append.mp hmap.nodup).1
  generalize ((freshAllocation a).blocks s₁).filter _ = data at hlength hget hnodup
  have hphys := fun k (hk : k < data.length) => hget k _ (List.getElem?_eq_getElem hk)
  -- the entry of the inode
  have hinode : data[j] = m₂.load (base + Inode.iBlockOffset + 4 * j) 4 := by
    have hk := hphys j (by omega)
    rw [physicalBlock, if_pos hj, Except.ok.injEq,
      finishIndirect_iBlock (by unfold EXT4_NDIR_BLOCKS at hj; omega)] at hk
    exact hk.symm
  -- the first entry of the indirect block
  have hfirst : data[EXT4_NDIR_BLOCKS] = m₂.load (base + Inode.iBlockOffset + 4 * j) 4 := by
    have hk := hphys EXT4_NDIR_BLOCKS (by omega)
    have hread : readQueued { s₂ with regions := regions' }
        (newChunks s { s₂ with regions := regions' }) ind =
          .ok fun x => (s₂.out.buffers s₁.out.brk).bytes (0 + x) := by
      rw [hnew]
      simp [readQueued]
    rw [physicalBlock, if_neg (lt_irrefl _), if_pos (by omega), finishIndirect_iBlock (by decide),
      hind, hread, bind_ok, Nat.sub_self, Nat.mul_zero, Except.ok.injEq] at hk
    rw [← hk, ← hentry]
    exact load_congr fun i _ => by simp only [Nat.zero_add]
  have hsame : j = EXT4_NDIR_BLOCKS :=
    (List.Nodup.getElem_inj_iff hnodup).mp (hinode.trans hfirst.symm)
  omega

theorem Reachable.groupsInv (hg : g.Roomy) (h : Reachable g s) : GroupsInv g s.bgs := by
  obtain ⟨calls, r, hvalid, hcalls, hbgs⟩ := h
  rw [hbgs]
  exact (runInv_of_run hg hvalid hcalls).groups

/-- A call of `inode_allocate_indirect` whose allocation succeeds maps a file's
blocks to it exactly when there are at most twelve of them. -/
theorem indirectMap_iff (hg : g.Roomy) (hreach : Reachable g s) (m : Mem) (base : ℕ)
    (hpos : 1 ≤ len ⌈/⌉ g.info.blockSize)
    (hmax : len ⌈/⌉ g.info.blockSize ≤
      12 + g.info.blockSize / 4 + g.info.blockSize / 4 * (g.info.blockSize / 4))
    (halloc : doInodeAllocateIndirect g (writtenBlocks g len) s = .ok (alloc, s₁)) :
    (∃ m' s', inodeAllocateIndirect g m base len s = .ok (m', s') ∧
      IndirectMap g (len ⌈/⌉ g.info.blockSize) (alloc.blocks s₁) s m' base s') ↔
    len ⌈/⌉ g.info.blockSize ≤ 12 := by
  have hinv := hreach.groupsInv hg
  have hbs : 0 < g.info.blockSize := (FsAuxInfo.of_create g.create).blockSize_pos
  constructor
  · rintro ⟨m', s', hrun, hmap⟩
    by_contra hmore
    have hn : 0 < g.info.blockSize / 4 := by
      by_contra hzero
      rw [Nat.eq_zero_of_not_pos hzero] at hmax
      omega
    exact not_indirectMap_of_lt hg hinv (not_le.mp hmore) hn halloc hrun hmap
  · intro hle
    exact indirectMap_of_le hg hinv ((writtenBlocks_eq_iff hbs).mpr (by omega)) hpos hle m base
      halloc

end Calls

/-- A call on the freshly initialized tiny device, beside its allocation. -/
def tinyIndirect (len : ℕ) : Except Stop ((BlockAllocation × State) × Mem × State) := do
  let r ← allocatorRun tiny []
  let allocated ← doInodeAllocateIndirect tiny (writtenBlocks tiny len) r.st
  let result ← inodeAllocateIndirect tiny Mem.zero 0 len r.st
  .ok (allocated, result)

theorem exists_of_tinyIndirect (len : ℕ) (h : (tinyIndirect len).isOk = true) :
    ∃ s alloc s₁ m s', Reachable tiny s ∧
      doInodeAllocateIndirect tiny (writtenBlocks tiny len) s = .ok (alloc, s₁) ∧
      inodeAllocateIndirect tiny Mem.zero 0 len s = .ok (m, s') := by
  cases hcall : tinyIndirect len with
  | error e => simp [hcall, Except.isOk, Except.toBool] at h
  | ok x =>
      simp only [tinyIndirect, bind_eq_ok] at hcall
      obtain ⟨r, hinit, ⟨alloc, s₁⟩, halloc, ⟨m, s'⟩, hrun, -⟩ := hcall
      exact ⟨r.st, alloc, s₁, m, s', ⟨[], r, by simp, hinit, rfl⟩, halloc, hrun⟩

/-- A file of twelve blocks takes two groups of the tiny device. -/
theorem indirectMap_iff_tiny : ∃ s alloc s₁ m s', Reachable tiny s ∧
    doInodeAllocateIndirect tiny (writtenBlocks tiny (12 * 1024)) s = .ok (alloc, s₁) ∧
    inodeAllocateIndirect tiny Mem.zero 0 (12 * 1024) s = .ok (m, s') ∧
    IndirectMap tiny 12 (alloc.blocks s₁) s m 0 s' := by
  obtain ⟨s, alloc, s₁, -, -, hreach, halloc, -⟩ :=
    exists_of_tinyIndirect (12 * 1024) (by decide)
  have hcount : (12 * 1024) ⌈/⌉ tiny.info.blockSize = 12 := by decide
  obtain ⟨m, s', hrun, hmap⟩ := (indirectMap_iff roomy_tiny hreach Mem.zero 0 (by decide)
    (by decide) halloc).mpr (by decide)
  rw [hcount] at hmap
  exact ⟨s, alloc, s₁, m, s', hreach, halloc, hrun, hmap⟩

/-- The thirteenth block of a file is one that it has already. -/
theorem not_indirectMap_tiny : ∃ s alloc s₁ m s', Reachable tiny s ∧
    doInodeAllocateIndirect tiny (writtenBlocks tiny (13 * 1024)) s = .ok (alloc, s₁) ∧
    inodeAllocateIndirect tiny Mem.zero 0 (13 * 1024) s = .ok (m, s') ∧
    ¬ IndirectMap tiny 13 (alloc.blocks s₁) s m 0 s' := by
  obtain ⟨s, alloc, s₁, m, s', hreach, halloc, hrun⟩ :=
    exists_of_tinyIndirect (13 * 1024) (by decide)
  have hcount : (13 * 1024) ⌈/⌉ tiny.info.blockSize = 13 := by decide
  have hnot := not_indirectMap_of_lt roomy_tiny (hreach.groupsInv roomy_tiny) (by decide)
    (by decide) halloc hrun
  rw [hcount] at hnot
  exact ⟨s, alloc, s₁, m, s', hreach, halloc, hrun, hnot⟩

end SystemExtras.Ext4
