import SystemExtras.Ext4.Parameters
import SystemExtras.Ext4.SpreadRegions

/-!
# How much an extent node holds

`do_inode_allocate_extents` writes one extent for each region of the allocation,
into the inode when there are at most three and else into a leaf block.  The test
that is to keep a leaf from overflowing reads
`block_size - sizeof(header) / sizeof(extent)`, where the division binds first, so
it lets `block_size - 1` extents through although `(block_size - 12) / 12` fit.
Nothing compares the length of a region with what `ee_len` can hold: with blocks
of more than 4096 bytes a group has more than 32768 of them.

The proof cuts the function in two.  What is in hand when the writing begins is
`Ready`: a list of regions, at most as many as were counted, for which the loop has a
definite outcome (`writeExtents_outcome`).  So whether the node is in order depends on
the count and on the lengths alone (`Prepares.fit_iff`).  These follow from the
state before the call: a request that some group can take is one region, and any other
uses up the untouched groups in order (`Spreads`).  Of the first region one block is cut
off.  If it has no other, nothing of the list is left or everything but that block is
set aside, and there is at most one extent to write.

`nodesFit_iff` puts this together for every group size and every state of a run.  No
group has to have data blocks: at an untouched group without any the request does not
end, and there is no call that succeeds.
-/

namespace SystemExtras.Ext4

open Mem

/-! ## The two halves of `do_inode_allocate_extents` -/

/-- What is in hand when the writing begins: `allocation_len`, `extent_block` (or
`0`), the allocation cut to size, and the state. -/
structure Prepared where
  allocationLen : ℕ
  extentBlock : ℕ
  alloc : BlockAllocation
  state : State

/-- `do_inode_allocate_extents` up to the first assignment to a header. -/
def prepareExtents (g : Geometry) (len : ℕ) (s : State) : Except Stop Prepared := do
  let (alloc, s) ← allocateBlocks g (u32 (writtenBlocks g len + 1)) s
  match alloc with
  | none => .error (.error "Failed to allocate %d blocks\n")
  | some alloc => do
      let allocationLen ← blockAllocationNumRegions alloc s.regions
      let (extentBlock, alloc, s) ← cutAllocation g allocationLen alloc s
      .ok ⟨allocationLen, extentBlock, alloc, s⟩

/-- The rest of it. -/
def writeNodes (g : Geometry) (m : Mem) (base len : ℕ) (x : Prepared) :
    Except Stop (BlockAllocation × Mem × State) :=
  if x.extentBlock = 0 then do
    let (alloc, m) ← writeInline x.allocationLen x.alloc m base x.state
    .ok (rewindAlloc alloc, finishInode g.info.blockSize m base len (writtenBlocks g len), x.state)
  else do
    let m := writeIndex m base x.extentBlock
    let (alloc, s) ← writeLeaf g.info.blockSize x.allocationLen x.extentBlock x.alloc x.state
    .ok (rewindAlloc alloc,
      finishInode g.info.blockSize m base len (u32 (writtenBlocks g len + 1)), s)

theorem doInodeAllocateExtents_eq (g : Geometry) (m : Mem) (base len : ℕ) (s : State) :
    doInodeAllocateExtents g m base len s = prepareExtents g len s >>= writeNodes g m base len := by
  unfold doInodeAllocateExtents prepareExtents
  simp only [← writtenBlocks.eq_def, bind_assoc]
  congr 1
  funext x
  obtain ⟨alloc, s₁⟩ := x
  cases alloc with
  | none => rfl
  | some alloc =>
      simp only [bind_assoc]
      congr 1

/-! ## What is asked of the nodes -/

/-- The header at `off` of `node` admits `max` extents, there are no more than
that, and the `j`-th is as long as the `j`-th region. -/
structure NodeFits (node : Mem) (off max : ℕ) (ps : List Piece) : Prop where
  ehMax : (ExtentHeader.ehMax.at_ off).get node = max
  length_le : ps.length ≤ max
  eeLen : ∀ j q, ps[j]? = some q →
    (Extent.eeLen.at_ (off + sizeofExtent + sizeofExtent * j)).get node = q.len ∧
      1 ≤ q.len ∧ q.len ≤ 32768

/-- What a call that returned must have left: the extents of the regions in the
inode or in the leaf, and nothing outside of these two. -/
structure Wrote (g : Geometry) (m : Mem) (base : ℕ) (x : Prepared) (alloc : BlockAllocation)
    (m' : Mem) (s' : State) : Prop where
  node : ∃ ns, Listed s'.regions ns ∧ alloc.list.first = headAddr ns ∧
    (x.extentBlock = 0 → NodeFits m' (base + Inode.iBlockOffset) 3 (ns.map Prod.snd)) ∧
    (x.extentBlock ≠ 0 → (ExtentHeader.ehMax.at_ (base + Inode.iBlockOffset)).get m' = 3 ∧
      (ExtentHeader.ehEntries.at_ (base + Inode.iBlockOffset)).get m' = 1 ∧
      NodeFits (s'.out.buffers x.state.out.brk).bytes 0
        ((g.info.blockSize - sizeofExtent) / sizeofExtent) (ns.map Prod.snd))
  inode : ∀ y, y < base ∨ base + sizeofInode ≤ y → m' y = m y
  leaf : x.extentBlock ≠ 0 →
    ∀ y, g.info.blockSize ≤ y → (s'.out.buffers x.state.out.brk).bytes y = 0
  others : ∀ id ≠ x.state.out.brk, s'.out.buffers id = x.state.out.buffers id

/-- Writing leaves the nodes in order, or ends in `error` because the file is too
big. -/
def Outcome (g : Geometry) (m : Mem) (base len : ℕ) (x : Prepared) : Prop :=
  match writeNodes g m base len x with
  | .ok (alloc, m', s') => Wrote g m base x alloc m' s'
  | .error e => ∃ msg, e = .error msg

/-- Every call that gets as far as writing comes to such an end. -/
def NodesFit (g : Geometry) (m : Mem) (base len : ℕ) (s : State) : Prop :=
  ∀ x, prepareExtents g len s = .ok x → Outcome g m base len x

/-! ## The condition -/

/-- What the regions of a request go into, if it is for `n` blocks and fills `k` of the groups
with the free blocks `free` before it ends: they are so many that the test of the writer fails, or
few enough for the inode or for the leaf and short enough for an extent.  One block less than the
first group has is written, so that its only block leaves nothing else to write. -/
def SpreadFits (blockSize n : ℕ) (free : List ℕ) (k : ℕ) : Prop :=
  blockSize ≤ k + 1 ∨
    (k + 1 ≤ 3 ∨ (k + 1 ≤ (blockSize - sizeofExtent) / sizeofExtent ∨ free.headD 0 = 1) ∧
      (blockSize - sizeofExtent) / sizeofExtent < 2 ^ 16) ∧
    (free.headD 0 = 1 ∨ free.headD 0 ≤ 32769 ∧ (∀ f ∈ (free.take k).tail, f ≤ 32768) ∧
      n - (free.take k).sum ≤ 32768)

instance (blockSize n : ℕ) (free : List ℕ) (k : ℕ) : Decidable (SpreadFits blockSize n free k) :=
  inferInstanceAs (Decidable (_ ∨ _))

/-! ## The loop -/

section Loop

variable {h : RegionHeap} {limit : ℕ}

/-- The loop ends well if there is room for an extent of each region, and else it
writes past the end of the object. -/
theorem writeExtents_outcome {ns : List (ℕ × Piece)} : ∀ (fuel : ℕ) (alloc : BlockAllocation)
    (m : Mem) (off fileBlock : ℕ), Listed h ns → alloc.list.iter = headAddr ns →
    ns.length ≤ fuel → off ≤ limit →
    (off + sizeofExtent * ns.length ≤ limit ∧
        ∃ r, writeExtents h limit fuel alloc m off fileBlock = .ok r) ∨
      limit < off + sizeofExtent * ns.length ∧
        writeExtents h limit fuel alloc m off fileBlock = .error .undefined := by
  induction ns with
  | nil =>
      intro fuel alloc m off fileBlock _ hiter _ hoff
      have hlast : lastRegion alloc = true := by
        unfold lastRegion
        rw [hiter]
        rfl
      refine Or.inl ⟨by simpa using hoff, (alloc, m), ?_⟩
      cases fuel <;> simp [writeExtents, hlast]
  | cons n rest ih =>
      intro fuel alloc m off fileBlock hlist hiter hfuel hoff
      have hlast : lastRegion alloc = false := by
        unfold lastRegion
        rw [hiter]
        rfl
      cases fuel with
      | zero => simp at hfuel
      | succ fuel =>
          obtain ⟨prev, hderef⟩ := hlist.deref
          have hiter' : alloc.list.iter = some n.1 := hiter
          rw [writeExtents, hlast]
          simp only [Bool.false_eq_true, if_false, getRegion, getNextRegion, hiter', hderef,
            bind_ok]
          rw [List.length_cons, Nat.mul_succ]
          by_cases hfits : limit < off + sizeofExtent
          · rw [if_pos hfits]
            exact Or.inr ⟨by omega, rfl⟩
          · rw [if_neg hfits]
            have hrest := ih fuel { alloc with list := { alloc.list with
                iter := headAddr rest, partialIter := 0 } }
              (writeExtent m off fileBlock (sub32 n.2.len alloc.list.partialIter) n.2.block)
              (off + sizeofExtent) (u32 (fileBlock + sub32 n.2.len alloc.list.partialIter))
              hlist.2 rfl (Nat.le_of_succ_le_succ hfuel) (by omega)
            rw [show off + sizeofExtent + sizeofExtent * rest.length =
              off + (sizeofExtent * rest.length + sizeofExtent) by omega] at hrest
            exact hrest

/-- No round of the loop ends in `error`. -/
theorem writeExtents_ne_error {msg : String} (fuel : ℕ) : ∀ {alloc : BlockAllocation} {m : Mem}
    {off fileBlock : ℕ}, writeExtents h limit fuel alloc m off fileBlock ≠ .error (.error msg) := by
  have hderef : ∀ a, h.deref a ≠ .error (.error msg) := by
    intro a ha
    unfold RegionHeap.deref at ha
    split at ha
    · cases ha
    · split at ha <;> cases ha
  induction fuel with
  | zero =>
      intro alloc m off fileBlock hrun
      unfold writeExtents at hrun
      split at hrun <;> cases hrun
  | succ fuel ih =>
      intro alloc m off fileBlock hrun
      unfold writeExtents getRegion getNextRegion at hrun
      split at hrun
      · cases hrun
      · cases hr : h.deref alloc.list.iter with
        | error e =>
            rw [hr] at hrun
            have heq : e = .error msg := by
              simp only [bind_error] at hrun
              exact Except.error.inj hrun
            exact hderef _ (heq ▸ hr)
        | ok r =>
            simp only [hr, bind_ok] at hrun
            split at hrun
            · cases hrun
            · exact ih hrun

end Loop

/-! ## Writing a prepared allocation -/

/-- What is known of an allocation that is ready to be written. -/
structure Ready (g : Geometry) (x : Prepared) (ns : List (ℕ × Piece)) : Prop where
  listed : Listed x.state.regions ns
  first : x.alloc.list.first = headAddr ns
  iter : x.alloc.list.iter = headAddr ns
  partialIter : x.alloc.list.partialIter = 0
  length_le : ns.length ≤ x.state.regions.brk
  small : ∀ n ∈ ns, 0 < n.2.len ∧ n.2.block < 2 ^ 32
  lenOf_lt : lenOf (ns.map Prod.snd) < 2 ^ 32
  length_le_len : ns.length ≤ x.allocationLen
  inline : x.allocationLen ≤ 3 → x.extentBlock = 0
  leaf : 3 < x.allocationLen → x.extentBlock ≠ 0

/-- The capacity in a header that nothing has been written on since. -/
theorem ehMax_of_sameOn {m node : Mem} {off entries max depth : ℕ}
    (h : (writeHeader m off entries max depth).SameOn node off (off + sizeofExtent)) :
    (ExtentHeader.ehMax.at_ off).get node = max % 2 ^ 16 := by
  have hdisjoint := writeHeader_disjoint off entries max depth
  calc (ExtentHeader.ehMax.at_ off).get node
      = (ExtentHeader.ehMax.at_ off).get (writeHeader m off entries max depth) := by
        refine (Field.get_congr h ?_ ?_).symm <;>
          simp only [Field.at_, ExtentHeader.ehMax, sizeofExtent] <;> omega
    _ = max % 256 ^ 2 := Field.get_assign hdisjoint 2 rfl m
    _ = max % 2 ^ 16 := by norm_num

/-- The length field of the `j`-th of the extents at `off`. -/
theorem ExtentsAt.eeLen_eq {m : Mem} {ps : List Piece} : ∀ {off fileBlock : ℕ},
    ExtentsAt m off fileBlock ps → ∀ {j : ℕ} {q : Piece}, ps[j]? = some q →
    (Extent.eeLen.at_ (off + sizeofExtent * j)).get m = q.len := by
  induction ps with
  | nil => simp
  | cons p ps ih =>
      intro off fileBlock hext j q hj
      cases j with
      | zero =>
          cases hj
          exact congrArg (fun e => e.2.1) hext.1
      | succ j =>
          have hrest := ih hext.2 (by simpa using hj)
          rwa [Nat.mul_succ, Nat.add_comm (sizeofExtent * j), ← Nat.add_assoc]

/-- The assignments to the inode stay inside it. -/
theorem finishInode_apply {blockSize : ℕ} {m : Mem} {base len blockLen y : ℕ}
    (hy : y < base ∨ base + sizeofInode ≤ y) :
    finishInode blockSize m base len blockLen y = m y := by
  unfold sizeofInode at hy
  unfold finishInode
  apply Mem.assign_apply_of_not_mem
  simp only [List.forall_mem_cons, List.not_mem_nil, false_implies, implies_true, and_true,
    Field.at_, Inode.iFlags, Inode.iSizeLo, Inode.iSizeHigh, Inode.iBlocksLo, Inode.iBlocksHigh]
  omega

theorem writeIndex_apply {m : Mem} {base extentBlock y : ℕ}
    (hy : y < base ∨ base + sizeofInode ≤ y) : writeIndex m base extentBlock y = m y := by
  unfold sizeofInode at hy
  unfold writeIndex
  rw [Mem.assign_apply_of_not_mem]
  · exact writeHeader_apply (by unfold sizeofExtent Inode.iBlockOffset; omega)
  · simp only [List.forall_mem_cons, List.not_mem_nil, false_implies, implies_true, and_true,
      Field.at_, ExtentIdx.eiBlock, ExtentIdx.eiLeafLo, ExtentIdx.eiLeafHi, ExtentIdx.eiUnused]
    unfold sizeofExtent Inode.iBlockOffset
    omega

/-- The index does not touch the header before it. -/
theorem writeIndex_header {m : Mem} {base extentBlock y : ℕ}
    (hy : y < base + Inode.iBlockOffset + sizeofExtent) :
    writeIndex m base extentBlock y = writeHeader m (base + Inode.iBlockOffset) 1 3 1 y := by
  unfold writeIndex
  apply Mem.assign_apply_of_not_mem
  simp only [List.forall_mem_cons, List.not_mem_nil, false_implies, implies_true, and_true,
    Field.at_, ExtentIdx.eiBlock, ExtentIdx.eiLeafLo, ExtentIdx.eiLeafHi, ExtentIdx.eiUnused]
  unfold sizeofExtent at *
  omega

/-- A header with room, followed by the extents of short regions. -/
theorem NodeFits.of_written {m node : Mem} {off entries max depth : ℕ} {ps : List Piece}
    (hheader : (writeHeader m off entries max depth).SameOn node off (off + sizeofExtent))
    (hmax : max < 2 ^ 16) (hle : ps.length ≤ max) (hext : ExtentsAt node (off + sizeofExtent) 0 ps)
    (hshort : ∀ q ∈ ps, 1 ≤ q.len ∧ q.len ≤ 32768) : NodeFits node off max ps where
  ehMax := (ehMax_of_sameOn hheader).trans (Nat.mod_eq_of_lt hmax)
  length_le := hle
  eeLen := fun _ q hj => ⟨hext.eeLen_eq hj, hshort q (List.mem_of_getElem? hj)⟩

section Write

variable {g : Geometry} {x : Prepared} {ns : List (ℕ × Piece)}

theorem Ready.short (hr : Ready g x ns) (hshort : ∀ n ∈ ns, n.2.len ≤ 32768) :
    ∀ q ∈ ns.map Prod.snd, 1 ≤ q.len ∧ q.len ≤ 32768 := by
  intro q hq
  obtain ⟨n, hn, rfl⟩ := List.mem_map.mp hq
  exact ⟨(hr.small n hn).1, hshort n hn⟩

/-- What the test compares with. -/
theorem s32_leafTest (hlt : g.info.blockSize < 2 ^ 31) :
    s32 (g.info.blockSize - sizeofExtent / sizeofExtent) = (g.info.blockSize - 1 : ℕ) := by
  have hone : sizeofExtent / sizeofExtent = 1 := by decide
  rw [hone, s32_of_lt (by omega)]

variable (m : Mem) (base len : ℕ)

/-- Regions that fit into the inode. -/
theorem Ready.wrote_inline (hr : Ready g x ns) (hfew : x.allocationLen ≤ 3)
    (hshort : ∀ n ∈ ns, n.2.len ≤ 32768) :
    ∃ alloc m', writeNodes g m base len x = .ok (alloc, m', x.state) ∧
      Wrote g m base x alloc m' x.state := by
  have hcount : ns.length ≤ 3 := hr.length_le_len.trans hfew
  have hzero := hr.inline hfew
  have houtcome := writeExtents_outcome (x.state.regions.brk + 1) x.alloc
    (writeHeader m (base + Inode.iBlockOffset) x.allocationLen 3 0)
    (base + Inode.iBlockOffset + sizeofExtent) 0 hr.listed hr.iter
    (hr.length_le.trans (Nat.le_succ _))
    (show _ ≤ base + Inode.iBlockOffset + 60 by unfold sizeofExtent; omega)
  rcases houtcome with ⟨hroom, ⟨alloc', m₁⟩, hrun⟩ | ⟨hover, -⟩
  · obtain ⟨hfirst, -⟩ := writeExtents_first _ hrun
    obtain ⟨hext, hframe, -⟩ := writeExtents_cases hr.listed hr.iter hr.partialIter
      (fun n hn => ⟨(hshort n hn).trans_lt (by decide), (hr.small n hn).2⟩)
      (by rw [Nat.zero_add]; exact hr.lenOf_lt) hrun
    have hsame := finishInode_sameOn g.info.blockSize m₁ base len (writtenBlocks g len)
    have hheader : (writeHeader m (base + Inode.iBlockOffset) x.allocationLen 3 0).SameOn
        (finishInode g.info.blockSize m₁ base len (writtenBlocks g len))
        (base + Inode.iBlockOffset) (base + Inode.iBlockOffset + sizeofExtent) := by
      intro y h₁ h₂
      rw [← hframe y (Or.inl h₂)]
      exact hsame y h₁ (by unfold sizeofExtent at h₂; omega)
    have hextents : ExtentsAt (finishInode g.info.blockSize m₁ base len (writtenBlocks g len))
        (base + Inode.iBlockOffset + sizeofExtent) 0 (ns.map Prod.snd) := by
      refine hext.congr (hsame.mono (Nat.le_add_right _ _) ?_)
      rwa [List.length_map]
    refine ⟨rewindAlloc alloc',
      finishInode g.info.blockSize m₁ base len (writtenBlocks g len), ?_, ?_, ?_, ?_, ?_⟩
    · unfold writeNodes writeInline
      rw [if_pos hzero]
      simp only [hrun, bind_ok]
    · refine ⟨ns, hr.listed, hfirst.trans hr.first, fun _ => ?_, fun h => absurd hzero h⟩
      exact NodeFits.of_written hheader (by decide) (by simpa using hcount) hextents
        (hr.short hshort)
    · intro y hy
      rw [finishInode_apply hy, hframe y, writeHeader_apply]
      all_goals
        unfold sizeofInode at hy
        unfold sizeofExtent at *
        unfold Inode.iBlockOffset at *
        omega
    · exact fun h => absurd hzero h
    · exact fun _ _ => rfl
  · unfold sizeofExtent at hover
    omega

/-- Too many regions for the test: the file is refused. -/
theorem Ready.refused (hr : Ready g x ns) (hbs : 1024 ≤ g.info.blockSize)
    (hlt : g.info.blockSize < 2 ^ 31) (hmany : g.info.blockSize - 1 < x.allocationLen) :
    ∃ msg, writeNodes g m base len x = .error (.error msg) := by
  have hleaf := hr.leaf (by omega)
  have htest : s32 (g.info.blockSize - sizeofExtent / sizeofExtent) < x.allocationLen := by
    rw [s32_leafTest hlt]
    exact_mod_cast hmany
  refine ⟨"File size %llu is too big to fit in a single extent block\n", ?_⟩
  unfold writeNodes writeLeaf
  rw [if_neg hleaf]
  simp only [if_pos htest, bind_error]

/-- A leaf with room for all extents, or one that is written past its end. -/
theorem Ready.writeLeaf_outcome (hr : Ready g x ns) (hbs : 1024 ≤ g.info.blockSize)
    (hlt : g.info.blockSize < 2 ^ 31) (hmore : 3 < x.allocationLen)
    (hpass : x.allocationLen ≤ g.info.blockSize - 1) :
    (ns.length ≤ (g.info.blockSize - sizeofExtent) / sizeofExtent ∧
      ∃ alloc data, writeExtents x.state.regions g.info.blockSize (x.state.regions.brk + 1) x.alloc
          (writeHeader Mem.zero 0 x.allocationLen
            ((g.info.blockSize - sizeofExtent) / sizeofExtent) 0) sizeofExtent 0 =
          .ok (alloc, data) ∧
        writeNodes g m base len x = .ok (rewindAlloc alloc,
          finishInode g.info.blockSize (writeIndex m base x.extentBlock) base len
            (u32 (writtenBlocks g len + 1)),
          leafState x.state g.info.blockSize x.extentBlock data)) ∨
      (g.info.blockSize - sizeofExtent) / sizeofExtent < ns.length ∧
        writeNodes g m base len x = .error .undefined := by
  have hleaf := hr.leaf hmore
  have htest : ¬ s32 (g.info.blockSize - sizeofExtent / sizeofExtent) < x.allocationLen := by
    rw [s32_leafTest hlt]
    exact_mod_cast not_lt.mpr hpass
  have houtcome := writeExtents_outcome (x.state.regions.brk + 1) x.alloc
    (writeHeader Mem.zero 0 x.allocationLen
      ((g.info.blockSize - sizeofExtent) / sizeofExtent) 0)
    sizeofExtent 0 hr.listed hr.iter (hr.length_le.trans (Nat.le_succ _))
    (show _ ≤ g.info.blockSize by unfold sizeofExtent; omega)
  have hwrite : ∀ r, writeExtents x.state.regions g.info.blockSize (x.state.regions.brk + 1) x.alloc
      (writeHeader Mem.zero 0 x.allocationLen
        ((g.info.blockSize - sizeofExtent) / sizeofExtent) 0) sizeofExtent 0 = r →
      writeNodes g m base len x = r >>= fun d => .ok (rewindAlloc d.1,
        finishInode g.info.blockSize (writeIndex m base x.extentBlock) base len
          (u32 (writtenBlocks g len + 1)),
        leafState x.state g.info.blockSize x.extentBlock d.2) := by
    intro r hrun
    unfold writeNodes writeLeaf
    rw [if_neg hleaf]
    simp only [if_neg htest]
    rw [← hrun]
    simp only [bind_assoc]
    rfl
  rcases houtcome with ⟨hroom, ⟨alloc', data⟩, hrun⟩ | ⟨hover, hrun⟩
  · refine Or.inl ⟨?_, alloc', data, hrun, hwrite _ hrun⟩
    unfold sizeofExtent at *
    omega
  · refine Or.inr ⟨?_, hwrite _ hrun⟩
    unfold sizeofExtent at *
    omega

/-- Regions that fit into a leaf. -/
theorem Ready.wrote_leaf (hr : Ready g x ns) (hbs : 1024 ≤ g.info.blockSize)
    (hlt : g.info.blockSize < 2 ^ 31) (hmore : 3 < x.allocationLen)
    (hpass : x.allocationLen ≤ g.info.blockSize - 1)
    (hroom : ns.length ≤ (g.info.blockSize - sizeofExtent) / sizeofExtent)
    (hmax : (g.info.blockSize - sizeofExtent) / sizeofExtent < 2 ^ 16)
    (hshort : ∀ n ∈ ns, n.2.len ≤ 32768) :
    ∃ alloc m' s', writeNodes g m base len x = .ok (alloc, m', s') ∧
      Wrote g m base x alloc m' s' := by
  have hleaf := hr.leaf hmore
  rcases hr.writeLeaf_outcome m base len hbs hlt hmore hpass with
    ⟨-, alloc', data, hrun, hwrite⟩ | ⟨hover, -⟩
  · obtain ⟨hfirst, -⟩ := writeExtents_first _ hrun
    obtain ⟨hext, hframe, -⟩ := writeExtents_cases hr.listed hr.iter hr.partialIter
      (fun n hn => ⟨(hshort n hn).trans_lt (by decide), (hr.small n hn).2⟩)
      (by rw [Nat.zero_add]; exact hr.lenOf_lt) hrun
    have hbytes : ((leafState x.state g.info.blockSize x.extentBlock data).out.buffers
        x.state.out.brk).bytes = data := by
      simp [leafState, State.setBuffer, State.calloc, State.addChunk]
    refine ⟨_, _, _, hwrite, ?_, ?_, ?_, ?_⟩
    · refine ⟨ns, hr.listed, hfirst.trans hr.first, fun h => absurd h hleaf, fun _ => ?_⟩
      have hsame := finishInode_sameOn g.info.blockSize (writeIndex m base x.extentBlock) base len
        (u32 (writtenBlocks g len + 1))
      have hindex : (writeHeader m (base + Inode.iBlockOffset) 1 3 1).SameOn
          (finishInode g.info.blockSize (writeIndex m base x.extentBlock) base len
            (u32 (writtenBlocks g len + 1)))
          (base + Inode.iBlockOffset) (base + Inode.iBlockOffset + sizeofExtent) := by
        intro y h₁ h₂
        rw [← hsame y h₁ (by unfold sizeofExtent at h₂; omega)]
        exact (writeIndex_header h₂).symm
      have hheader : (writeHeader Mem.zero 0 x.allocationLen
          ((g.info.blockSize - sizeofExtent) / sizeofExtent) 0).SameOn data 0
          (0 + sizeofExtent) := by
        intro y _ h₂
        exact (hframe y (Or.inl (by omega))).symm
      refine ⟨ehMax_of_sameOn hindex, ?_, ?_⟩
      · exact ((headerAt_writeHeader m _ 1 3 1 (by decide) (by decide)).congr hindex).entries
      · rw [hbytes]
        exact NodeFits.of_written hheader hmax (by rw [List.length_map]; omega)
          (by rw [Nat.zero_add]; exact hext) (hr.short hshort)
    · intro y hy
      rw [finishInode_apply hy, writeIndex_apply hy]
    · intro _ y hy
      rw [hbytes, hframe y, writeHeader_apply]
      · rfl
      all_goals
        unfold sizeofExtent at *
        omega
    · intro id hid
      simp [leafState, State.setBuffer, State.calloc, State.addChunk, Function.update_of_ne hid]
  · omega

variable {m base len}

/-- Writing changes neither the regions nor where the list begins. -/
theorem writeNodes_regions {alloc : BlockAllocation} {m' : Mem} {s' : State}
    (hrun : writeNodes g m base len x = .ok (alloc, m', s')) :
    s'.regions = x.state.regions ∧ alloc.list.first = x.alloc.list.first := by
  unfold writeNodes at hrun
  split at hrun
  · rw [bind_eq_ok] at hrun
    obtain ⟨⟨alloc₁, m₁⟩, hwrite, hrun⟩ := hrun
    cases hrun
    exact ⟨rfl, (writeExtents_first _ hwrite).1⟩
  · rw [bind_eq_ok] at hrun
    obtain ⟨⟨alloc₁, s₁⟩, hwrite, hrun⟩ := hrun
    cases hrun
    unfold writeLeaf at hwrite
    simp only at hwrite
    split at hwrite
    · cases hwrite
    · rw [bind_eq_ok] at hwrite
      obtain ⟨⟨alloc₂, data⟩, hloop, hwrite⟩ := hwrite
      cases hwrite
      exact ⟨rfl, (writeExtents_first _ hloop).1⟩

theorem Ready.outcome_of_fits (hr : Ready g x ns) (hbs : 1024 ≤ g.info.blockSize)
    (hlt : g.info.blockSize < 2 ^ 31)
    (hfits : g.info.blockSize - 1 < x.allocationLen ∨ (∀ n ∈ ns, n.2.len ≤ 32768) ∧
      (x.allocationLen ≤ 3 ∨
        ns.length ≤ (g.info.blockSize - sizeofExtent) / sizeofExtent ∧
        (g.info.blockSize - sizeofExtent) / sizeofExtent < 2 ^ 16)) :
    Outcome g m base len x := by
  unfold Outcome
  by_cases hmany : g.info.blockSize - 1 < x.allocationLen
  · obtain ⟨msg, hrun⟩ := hr.refused m base len hbs hlt hmany
    rw [hrun]
    exact ⟨msg, rfl⟩
  · obtain ⟨hshort, hcount⟩ := hfits.resolve_left hmany
    by_cases hfew : x.allocationLen ≤ 3
    · obtain ⟨alloc, m', hrun, hwrote⟩ :=
        hr.wrote_inline m base len hfew hshort
      rw [hrun]
      exact hwrote
    · obtain ⟨hroom, hmax⟩ := hcount.resolve_left hfew
      obtain ⟨alloc, m', s', hrun, hwrote⟩ := hr.wrote_leaf m base len
        hbs hlt (not_le.mp hfew) (not_lt.mp hmany) hroom hmax hshort
      rw [hrun]
      exact hwrote

theorem Ready.fits_of_outcome (hr : Ready g x ns) (hbs : 1024 ≤ g.info.blockSize)
    (hlt : g.info.blockSize < 2 ^ 31) (houtcome : Outcome g m base len x)
    (hpass : x.allocationLen ≤ g.info.blockSize - 1) :
    (∀ n ∈ ns, n.2.len ≤ 32768) ∧ (x.allocationLen ≤ 3 ∨
      ns.length ≤ (g.info.blockSize - sizeofExtent) / sizeofExtent ∧
        (g.info.blockSize - sizeofExtent) / sizeofExtent < 2 ^ 16) := by
  unfold Outcome at houtcome
  cases hrun : writeNodes g m base len x with
  | error e =>
      rw [hrun] at houtcome
      obtain ⟨msg, rfl⟩ := houtcome
      exfalso
      by_cases hfew : x.allocationLen ≤ 3
      · -- the loop that fills the inode does not end in an error
        unfold writeNodes writeInline at hrun
        rw [if_pos (hr.inline hfew)] at hrun
        cases hloop : writeExtents x.state.regions (base + Inode.iBlockOffset + 60)
          (x.state.regions.brk + 1) x.alloc
          (writeHeader m (base + Inode.iBlockOffset) x.allocationLen 3 0)
          (base + Inode.iBlockOffset + sizeofExtent) 0 with
        | error e =>
            simp only [hloop, bind_error, Except.error.injEq] at hrun
            exact writeExtents_ne_error _ (hrun ▸ hloop)
        | ok r =>
            simp only [hloop, bind_ok] at hrun
            cases hrun
      · rcases hr.writeLeaf_outcome m base len hbs hlt
          (not_le.mp hfew) hpass with ⟨-, _, _, -, hok⟩ | ⟨-, hundefined⟩
        · rw [hrun] at hok
          cases hok
        · rw [hrun] at hundefined
          cases hundefined
  | ok r =>
      obtain ⟨alloc, m', s'⟩ := r
      rw [hrun] at houtcome
      obtain ⟨ns', hlist, hfirst, hinline, hleaf⟩ := houtcome.node
      obtain ⟨hregions, hsame⟩ := writeNodes_regions hrun
      have hns : ns' = ns := by
        refine Listed.unique (hregions ▸ hlist) hr.listed ?_
        rw [← hfirst, hsame, hr.first]
      subst hns
      have hshort : ∀ {node off max}, NodeFits node off max (ns'.map Prod.snd) →
          ∀ n ∈ ns', n.2.len ≤ 32768 := by
        intro node off max hfits n hn
        obtain ⟨j, hj⟩ := List.getElem?_of_mem (List.mem_map_of_mem (f := Prod.snd) hn)
        exact (hfits.eeLen j n.2 hj).2.2
      by_cases hfew : x.allocationLen ≤ 3
      · exact ⟨hshort (hinline (hr.inline hfew)), Or.inl hfew⟩
      · obtain ⟨-, -, hfits⟩ := hleaf (hr.leaf (not_le.mp hfew))
        refine ⟨hshort hfits, Or.inr ⟨?_, ?_⟩⟩
        · have hle := hfits.length_le
          rwa [List.length_map] at hle
        · rw [← hfits.ehMax]
          exact Field.get_lt _ _

end Write

/-! ## Preparing -/

/-- The parameters of a filesystem that `make_ext4fs` builds: blocks of at least
1 KiB, and no more reserved descriptor blocks than an indirect block can list. -/
structure Geometry.Built (g : Geometry) : Prop where
  blockSize_ge : 1024 ≤ g.info.blockSize
  blockSize_lt : g.info.blockSize < 2 ^ 31
  reserve_le : g.info.bgDescReserveBlocks ≤ g.info.blockSize / 4

/-- The headers of such a filesystem are counted without wrapping. -/
theorem Geometry.Built.headerBlocks_eq {g : Geometry} (hb : g.Built) (i : ℕ) :
    g.headerBlocks i = g.info.headerSize i := by
  have hof := FsAuxInfo.of_create g.create
  have hlt := FsInfo.headerSize_lt hb.blockSize_ge hb.reserve_le i
  unfold headerBlocks superBlocks hasSuperBlock FsInfo.headerSize
  unfold FsInfo.headerSize at hlt
  rw [hof.inodeTableBlocks, hof.bgDescBlocks]
  split
  · rename_i hsuper
    rw [if_pos hsuper] at hlt
    exact u32_of_lt hlt
  · rename_i hsuper
    rw [if_neg hsuper] at hlt
    exact u32_of_lt hlt

/-- The header of such a group is not empty. -/
theorem Geometry.Built.headerBlocks_pos {g : Geometry} (hb : g.Built) (i : ℕ) :
    0 < g.headerBlocks i := by
  have htwo : 2 ≤ g.info.headerSize i := FsInfo.two_le_headerSize i
  rw [hb.headerBlocks_eq]
  omega

section Prepare

variable {g : Geometry} {s s' : State} {n a : ℕ} {p : Piece} {rest : List (ℕ × Piece)}

/-- What has been cut is ready to be written. -/
theorem Cut.ready (hg : g.Fits) {alloc : BlockAllocation} {ns : List (ℕ × Piece)} {leaf : List ℕ}
    {extentBlock : ℕ} (hc : Cut g s alloc n ns leaf) (hn : n < 2 ^ 32)
    (hinline : ns.length ≤ 3 → extentBlock = 0) (hleaf : 3 < ns.length → extentBlock ≠ 0) :
    Ready g ⟨ns.length, extentBlock, alloc, s⟩ ns where
  listed := hc.listed
  first := hc.first
  iter := hc.iter
  partialIter := hc.partialIter
  length_le := hc.length_le
  small := by
    intro q hq
    have hlt := hg.lenBlocks_lt
    obtain ⟨hpos, -, hend⟩ := hc.small q hq
    exact ⟨hpos, by omega⟩
  lenOf_lt := hc.lenOf_eq.trans_lt hn
  length_le_len := le_rfl
  inline := hinline
  leaf := hleaf

variable {len : ℕ}

/-- An allocation is counted and cut. -/
theorem Allocated.prepareExtents_eq (h : Allocated g s (writtenBlocks g len + 1) a p rest s')
    (hlt : writtenBlocks g len + 1 < 2 ^ 32) {r : ℕ × BlockAllocation × State}
    (hcut : cutAllocation g (rest.length + 1) (freshAllocation a) s' = .ok r) :
    prepareExtents g len s = .ok ⟨rest.length + 1, r.1, r.2.1, r.2.2⟩ := by
  unfold prepareExtents
  rw [u32_of_lt hlt, h.run, bind_ok]
  simp only [h.numRegions, bind_ok, hcut]

/-- A call gets as far as writing extents of the lengths `lens`, with `count` regions to begin
with. -/
def Prepares (g : Geometry) (len : ℕ) (s : State) (count : ℕ) (lens : List ℕ) : Prop :=
  ∃ x ns, prepareExtents g len s = .ok x ∧ Ready g x ns ∧ x.allocationLen = count ∧
    ns.map (fun q => q.2.len) = lens

/-- A first region of two blocks or more gets shorter by one. -/
theorem Allocated.prepares (hg : g.Fits) (hb : g.Built) (hinv : GroupsInv g s.bgs)
    (h : Allocated g s (writtenBlocks g len + 1) a p rest s')
    (hlt : writtenBlocks g len + 1 < 2 ^ 32) (htwo : 2 ≤ p.len) (hpos : ∀ n ∈ rest, 0 < n.2.len) :
    Prepares g len s (rest.length + 1) ((p.len - 1) :: rest.map fun q => q.2.len) := by
  have hf : Cuttable g s.regions s.bgs s' (writtenBlocks g len + 1) a p rest :=
    ⟨h.extends_, h.takes, hinv, htwo, hpos⟩
  obtain ⟨hgroup, hle⟩ := h.takes.head_le (by omega)
  by_cases hfew : rest.length + 1 ≤ 3
  · obtain ⟨bitmap, hfree, -⟩ := (h.takes.takesAll.inv hinv p.bg hgroup).freeBlocks_eq hg
      (show 1 ≤ _ by omega)
    obtain ⟨s₁, hreduce⟩ : ∃ s₁, reduceAllocation g (freshAllocation a) 1 s' =
        .ok (freshAllocation a, s₁) :=
      ⟨_, reduceAllocation_of_lt rfl h.extends_.linked.1 Nat.one_pos (by omega) hfree⟩
    have hcut : cutAllocation g (rest.length + 1) (freshAllocation a) s' =
        .ok (0, freshAllocation a, s₁) := by
      rw [cutAllocation, if_pos hfew, hreduce]
      rfl
    obtain ⟨hc, -⟩ := hf.cut_reduce hg hreduce
    refine ⟨_, (a, ⟨p.block, p.len - 1, p.bg⟩) :: rest, h.prepareExtents_eq hlt hcut,
      hc.ready hg (by omega) (fun _ => rfl) ?_, rfl, rfl⟩
    intro hmany
    rw [List.length_cons] at hmany
    omega
  · obtain ⟨alloc, hreserve, hblock, hc⟩ := hf.cut_oob hg
    have hheader := hb.headerBlocks_pos p.bg
    have hfirst := hf.head.2.2
    have hcut : cutAllocation g (rest.length + 1) (freshAllocation a) s' =
        .ok (p.block, alloc, { s' with regions := oobHeap s'.regions a p (headAddr rest) }) := by
      rw [cutAllocation, if_neg hfew, hreserve, bind_ok]
      simp only [hblock, bind_ok]
    refine ⟨_, (s'.regions.brk, ⟨p.block + 1, p.len - 1, p.bg⟩) :: rest,
      h.prepareExtents_eq hlt hcut, hc.ready hg (by omega) ?_ (fun _ => ?_), rfl, rfl⟩
    · intro hmany
      rw [List.length_cons] at hmany
      omega
    · show p.block ≠ 0
      omega

/-- A first region of one block is given back, and with it the list is gone. -/
theorem Allocated.prepares_few (hg : g.Fits) (hinv : GroupsInv g s.bgs)
    (h : Allocated g s (writtenBlocks g len + 1) a p rest s')
    (hlt : writtenBlocks g len + 1 < 2 ^ 32) (hone : p.len = 1) (hfew : rest.length + 1 ≤ 3) :
    Prepares g len s (rest.length + 1) [] := by
  obtain ⟨hgroup, hle⟩ := h.takes.head_le (by omega)
  obtain ⟨bitmap, hfree, -⟩ := (h.takes.takesAll.inv hinv p.bg hgroup).freeBlocks_eq hg
    (show 1 ≤ _ by omega)
  obtain ⟨s₁, hreduce⟩ : ∃ s₁, reduceAllocation g (freshAllocation a) 1 s' =
      .ok ({ freshAllocation a with list := ⟨none, none, none, 0⟩ }, s₁) :=
    ⟨_, reduceAllocation_of_eq rfl h.extends_.linked.1 Nat.one_pos hone hfree⟩
  have hcut : cutAllocation g (rest.length + 1) (freshAllocation a) s' =
      .ok (0, { freshAllocation a with list := ⟨none, none, none, 0⟩ }, s₁) := by
    rw [cutAllocation, if_pos hfew, hreduce]
    rfl
  refine ⟨_, [], h.prepareExtents_eq hlt hcut, ?_, rfl, rfl⟩
  exact {
    listed := trivial
    first := rfl
    iter := rfl
    partialIter := rfl
    length_le := Nat.zero_le _
    small := by simp
    lenOf_lt := by simp
    length_le_len := Nat.zero_le _
    inline := fun _ => rfl
    leaf := fun hmany => absurd hfew (not_le.mpr hmany) }

theorem TakesAll.header_le {bgs bgs' : Groups} {ps : List Piece} (hinv : GroupsInv g bgs)
    (h : TakesAll g bgs ps bgs') : ∀ q ∈ ps, 0 < q.len → g.headerBlocks q.bg ≤ q.block := by
  induction h with
  | nil => simp
  | cons head _ ih =>
      refine List.forall_mem_cons.mpr ⟨fun hpos => ?_, ih (head.inv hinv)⟩
      have hblock := head.block_eq hpos
      have hheader := (hinv _ head.bg_lt).header_le
      omega

/-- Where it is set aside as a leaf, it is all that stays. -/
theorem Allocated.prepares_short (hg : g.Fits) (hb : g.Built) (hinv : GroupsInv g s.bgs)
    (h : Allocated g s (writtenBlocks g len + 1) a p rest s')
    (hlt : writtenBlocks g len + 1 < 2 ^ 32) (hone : p.len = 1) (hpos : ∀ n ∈ rest, 0 < n.2.len)
    (hmany : 3 < rest.length + 1) : Prepares g len s (rest.length + 1) [1] := by
  have hall := h.takes.takesAll
  have hdevice := hg.lenBlocks_lt
  have hsmall : ∀ n ∈ (a, p) :: rest, 0 < n.2.len ∧ n.2.block + n.2.len ≤ 2 ^ 32 := by
    intro n hn
    have hlen : 0 < n.2.len := by
      rcases List.mem_cons.mp hn with rfl | hn
      · exact hone ▸ Nat.one_pos
      · exact hpos n hn
    have hmem : n.2 ∈ ((a, p) :: rest).map Prod.snd := List.mem_map_of_mem hn
    have hend := hall.end_le hg hinv hmem hlen
    exact ⟨hlen, by omega⟩
  obtain ⟨⟨b, q⟩, rest', rfl⟩ : ∃ n ns, rest = n :: ns := by
    cases rest with
    | nil => simp at hmany
    | cons n ns => exact ⟨n, ns, rfl⟩
  obtain ⟨alloc, h', hreserve, hblock, hlist, hbrk, hfirst, hiter, hoffset⟩ :=
    reserveOobBlocks_of_one h.extends_ hone hsmall
  have hcut : cutAllocation g (((b, q) :: rest').length + 1) (freshAllocation a) s' =
      .ok (q.block, alloc, { s' with regions := h' }) := by
    rw [cutAllocation, if_neg (not_le.mpr hmany), hreserve, bind_ok]
    simp only [hblock, bind_ok]
  have hheader := hb.headerBlocks_pos q.bg
  have hq := hall.header_le hinv q (by simp) (hpos (b, q) List.mem_cons_self)
  have hne : q.block ≠ 0 := by omega
  have hp := hsmall (a, p) List.mem_cons_self
  have ha := (h.extends_.fresh (a, p) List.mem_cons_self).2
  refine ⟨_, [(a, p)], h.prepareExtents_eq hlt hcut, ?_, rfl, by simp [hone]⟩
  exact {
    listed := hlist
    first := hfirst
    iter := hiter
    partialIter := hoffset
    length_le := by
      show 1 ≤ h'.brk
      omega
    small := by
      intro n hn
      obtain rfl := List.mem_singleton.mp hn
      simp only at hp ⊢
      omega
    lenOf_lt := by simp [hone]
    length_le_len := by
      show 1 ≤ ((b, q) :: rest').length + 1
      omega
    inline := fun hfew => absurd hfew (not_le.mpr hmany)
    leaf := fun _ => hne }

end Prepare

/-! ## Whole calls -/

section Calls

variable {g : Geometry} {s : State} {m : Mem} {base len : ℕ}

/-- A request that wraps to no block at all ends before anything is written. -/
theorem prepareExtents_wrapped (hwrap : writtenBlocks g len + 1 = 2 ^ 32) (x : Prepared) :
    prepareExtents g len s ≠ .ok x := by
  intro hrun
  have hzero : u32 (writtenBlocks g len + 1) = 0 := by
    rw [hwrap]
    rfl
  unfold prepareExtents at hrun
  rw [hzero, bind_eq_ok] at hrun
  obtain ⟨⟨r, s₁⟩, hcall, hrun⟩ := hrun
  cases r with
  | none => cases hrun
  | some alloc =>
      obtain ⟨a, block, bg, rfl, ha, hlink⟩ := allocateBlocks_zero hcall
      have hone : blockAllocationNumRegions (freshAllocation a) s₁.regions = .ok (0 + 1) :=
        numRegionsLoop_eq hlink.listed (by simp only [List.length_singleton]; omega)
      obtain ⟨e, herror⟩ := reduceAllocation_of_gt (g := g) (k := 1)
        (show (freshAllocation a).list.last = some a from rfl) hlink.1 Nat.one_pos
      simp only [hone, bind_ok, cutAllocation] at hrun
      rw [if_pos (by decide), herror] at hrun
      cases hrun

/-- What the nodes are like depends on the lengths of the extents. -/
theorem Prepares.fit_iff (hb : g.Built) {count : ℕ} {lens : List ℕ}
    (h : Prepares g len s count lens) :
    NodesFit g m base len s ↔ g.info.blockSize - 1 < count ∨ (∀ l ∈ lens, l ≤ 32768) ∧
      (count ≤ 3 ∨ lens.length ≤ (g.info.blockSize - sizeofExtent) / sizeofExtent ∧
        (g.info.blockSize - sizeofExtent) / sizeofExtent < 2 ^ 16) := by
  obtain ⟨x, ns, hx, hready, rfl, rfl⟩ := h
  rw [List.forall_mem_map, List.length_map]
  constructor
  · intro hfit
    by_cases hmany : g.info.blockSize - 1 < x.allocationLen
    · exact Or.inl hmany
    · exact Or.inr (hready.fits_of_outcome hb.blockSize_ge hb.blockSize_lt (hfit x hx)
        (not_lt.mp hmany))
  · intro hlens x' hx'
    obtain rfl := Except.ok.inj (hx.symm.trans hx')
    exact hready.outcome_of_fits hb.blockSize_ge hb.blockSize_lt hlens

/-- A request that some group can take becomes one extent, or none. -/
theorem nodesFit_iff_of_fits (hg : g.Fits) (hb : g.Built) (hinv : GroupsInv g s.bgs)
    (hlt : writtenBlocks g len + 1 < 2 ^ 32)
    (hfits : ∃ i < g.aux.groups, writtenBlocks g len + 1 ≤ (s.bgs i).freeBlocks) :
    NodesFit g m base len s ↔ writtenBlocks g len ≤ 32768 := by
  obtain ⟨a, p, s', halloc, hlen⟩ := allocated_of_fits hg hinv (Nat.succ_pos _) hfits
  have hbs := hb.blockSize_ge
  rcases Nat.eq_zero_or_pos (writtenBlocks g len) with hzero | hpos
  · rw [(halloc.prepares_few hg hinv hlt (by omega) (by simp)).fit_iff hb, hzero]
    simp
  · rw [(halloc.prepares hg hb hinv hlt (by omega) (by simp)).fit_iff hb, hlen]
    simp only [List.length_nil, List.map_nil, List.forall_mem_singleton]
    omega

/-- The first group that is used up cannot take all of the request. -/
theorem Spreads.exists_cons {n k : ℕ} (h : Spreads (untouchedFree g s) n k)
    (hfew : ∀ i < g.aux.groups, (s.bgs i).freeBlocks < n) :
    ∃ f k' free, k = k' + 1 ∧ untouchedFree g s = f :: free := by
  cases hfree : untouchedFree g s with
  | nil =>
      have hlt := h.lt
      rw [hfree] at hlt
      cases hlt
  | cons f free =>
      have hmem : f ∈ untouchedFree g s := hfree ▸ List.mem_cons_self
      obtain ⟨i, hi, rfl⟩ := List.mem_map.mp hmem
      have hless := hfew i (List.mem_range.mp (List.mem_of_mem_filter hi))
      have henough := h.enough
      rw [hfree] at henough
      cases k with
      | zero =>
          simp at henough
          omega
      | succ k => exact ⟨_, k, free, rfl, rfl⟩

/-- The regions of a request that is spread over several groups. -/
theorem nodesFit_iff_of_spreads (hg : g.Fits) (hb : g.Built) (hinv : GroupsInv g s.bgs)
    (hlt : writtenBlocks g len + 1 < 2 ^ 32)
    (hfew : ∀ i < g.aux.groups, (s.bgs i).freeBlocks < writtenBlocks g len + 1) {k : ℕ}
    (h : Spreads (untouchedFree g s) (writtenBlocks g len + 1) k) :
    NodesFit g m base len s ↔
      SpreadFits g.info.blockSize (writtenBlocks g len + 1) (untouchedFree g s) k := by
  obtain ⟨a, p, rest, s', halloc, hlens⟩ := allocated_of_spreads hg hinv (Nat.succ_pos _) hfew h
  obtain ⟨f, k, free, rfl, hfree⟩ := h.exists_cons hfew
  have hbs := hb.blockSize_ge
  have hcap : 1 ≤ (g.info.blockSize - sizeofExtent) / sizeofExtent := by
    unfold sizeofExtent
    omega
  rw [hfree] at h hlens ⊢
  obtain ⟨hk, hmore, -, hpos⟩ := h
  simp only [spreadLens, List.take_succ_cons, List.cons_append, List.cons.injEq] at hlens
  simp only [SpreadFits, List.headD_cons, List.take_succ_cons, List.tail_cons]
  rw [List.take_succ_cons] at hmore hpos
  obtain ⟨hf, hpos⟩ := List.forall_mem_cons.mp hpos
  obtain ⟨hhead, hrest⟩ := hlens
  have hlength : rest.length = k + 1 := by
    have hcount := congrArg List.length hrest
    simp only [List.length_map, List.length_append, List.length_take, List.length_cons,
      List.length_nil] at hcount hk
    omega
  have hlenPos : ∀ n ∈ rest, 0 < n.2.len := by
    rw [← List.forall_mem_map (P := fun l => 0 < l), hrest, List.forall_mem_append]
    exact ⟨hpos, by simpa using hmore⟩
  rcases Nat.eq_or_lt_of_le (Nat.succ_le_of_lt hf) with hone | htwo
  · have hpone : p.len = 1 := hhead.trans hone.symm
    rcases Nat.lt_or_ge 3 (rest.length + 1) with hmany | hfew
    · rw [(halloc.prepares_short hg hb hinv hlt hpone hlenPos hmany).fit_iff hb]
      simp only [List.forall_mem_singleton, List.length_singleton]
      omega
    · rw [(halloc.prepares_few hg hinv hlt hpone hfew).fit_iff hb]
      simp only [List.not_mem_nil, false_implies, implies_true, true_and]
      omega
  · have hshort : (∀ l ∈ (p.len - 1) :: rest.map fun q => q.2.len, l ≤ 32768) ↔ f ≤ 32769 ∧
        (∀ l ∈ free.take k, l ≤ 32768) ∧
          writtenBlocks g len + 1 - (f :: free.take k).sum ≤ 32768 := by
      rw [List.forall_mem_cons, hrest, List.forall_mem_append, List.forall_mem_singleton]
      exact and_congr_left fun _ => by omega
    rw [(halloc.prepares hg hb hinv hlt (by omega) hlenPos).fit_iff hb, hshort,
      List.length_cons, List.length_map, hlength]
    simp only [htwo.ne', false_or, or_false]
    rw [show g.info.blockSize - 1 < k + 1 + 1 ↔ g.info.blockSize ≤ k + 1 + 1 by omega,
      and_comm (a := f ≤ 32769 ∧ _)]

end Calls

/-- A device of 50000 blocks of 8 KiB, all in one group. -/
def wideInfo : FsInfo where
  len := 50000 * 8192
  blockSize := 8192
  blocksPerGroup := 65536
  inodesPerGroup := 1024
  inodeSize := 256
  inodes := 1024
  journalBlocks := 0
  featRoCompat := EXT4_FEATURE_RO_COMPAT_SPARSE_SUPER
  featCompat := 0
  featIncompat := 0
  bgDescReserveBlocks := 3
  label := []
  noJournal := true

def wide : Geometry where
  info := wideInfo
  aux := (ext4CreateFsAuxInfo wideInfo).get (by decide)
  create := by decide

theorem fits_wide : wide.Fits := ⟨by decide, by decide, by decide, by decide⟩

end SystemExtras.Ext4
