import SystemExtras.Ext4.AllocateOutcomes
import SystemExtras.Ext4.IndirectMap
import SystemExtras.Ext4.Parameters
import SystemExtras.Ext4.SparseSuper

/-!
# The resize inode

A translation of `ext4_create_resize_inode` and `inode_attach_resize`.  The inode
is a list of the blocks that are kept free for more group descriptors.  Its doubly
indirect block lists those of group zero, and each of these is used as an indirect
block that lists its counterparts in the other groups with a superblock.

The list is rotated by the number of descriptor blocks, so that a block's position
says which descriptor block it will become.  The rotation is computed in unsigned
arithmetic: below the number of descriptor blocks the difference is `2 ^ 32` too
large before it is reduced.  That does no harm exactly if the number of reserved
blocks divides `2 ^ 32` (`listsReserved_iff`).

## Strategy

The first half says what the call does, whatever the numbers are.

* **The allocation.**  It is built by appending, one region for each group with a
  superblock.  `Appended` describes such a list from its end, where it grows, and
  `reserveInodeLoop_eq` gives the regions of the whole allocation.  Block `k` of it is
  then block `k % n` of superblock group `k / n`, with `n` reserved blocks in a group
  (`Reads`).
* **The blocks.**  With that the two loops have a closed form.  The doubly indirect
  block holds at each position the block that the rotation names, and an indirect
  block is filled in if some position names it (`IndFilled`).  The groups with a
  superblock are few, `0` and powers of three, five and seven, so their blocks fit
  (`length_supers_le`).

The second half is arithmetic.  `i ↦ (i - d) % n` in 32 bits is a rotation if `n`
divides `2 ^ 32` (`sub32_mod_injOn`).  If it does not, either block zero is not where
it should be or two positions name the same block (`exists_sub32_collision`), and
then another block is listed nowhere.
-/

namespace SystemExtras.Ext4

open Mem

/-! ## Building the allocation -/

/-- `append_region`. -/
def appendRegion (alloc : BlockAllocation) (block len bg : ℕ) (h : RegionHeap) :
    Except Stop (BlockAllocation × RegionHeap) := do
  let (reg, h) := h.malloc ⟨block, len, bg, none, none⟩
  let (list, h) ← regionListAppend alloc.list reg h
  .ok ({ alloc with list := list }, h)

/-- The loop of `block_allocation_len`. -/
def allocationLenLoop (h : RegionHeap) : ℕ → Option ℕ → ℕ → Except Stop ℕ
  | _, none, i => .ok i
  | 0, some _, _ => .error .hang
  | fuel + 1, some a, i => do
      let r ← h.deref (some a)
      allocationLenLoop h fuel r.next (u32 (i + r.len))

/-- `block_allocation_len`, as its caller sees it. -/
def blockAllocationLen (alloc : BlockAllocation) (h : RegionHeap) : Except Stop ℕ :=
  allocationLenLoop h h.brk alloc.list.first 0

/-- The loop of `append_oob_allocation`.  A region that has been appended is the
last of its list, so there is no second round. -/
def appendOobLoop : ℕ → Option ℕ → RegionList → RegionHeap → Except Stop (RegionList × RegionHeap)
  | _, none, list, h => .ok (list, h)
  | 0, some _, _, _ => .error .hang
  | fuel + 1, some reg, list, h => do
      let (list, h) ← regionListAppend list reg h
      let r ← h.deref (some reg)
      appendOobLoop fuel r.next list h

/-- `append_oob_allocation`. -/
def appendOobAllocation (g : Geometry) (alloc : BlockAllocation) (len : ℕ) (s : State) :
    Except Stop (BlockAllocation × State) := do
  let (reg, s) ← doAllocate g len s
  match reg with
  | none => .error (.error "failed to allocate %d blocks")
  | some reg => do
      let (list, regions) ← appendOobLoop (s.regions.brk + 1) (some reg) alloc.oobList s.regions
      .ok ({ alloc with oobList := list }, { s with regions := regions })

/-- The loop of `ext4_create_resize_inode`, from group `i` on. -/
def reserveInodeLoop (g : Geometry) : ℕ → ℕ → BlockAllocation → RegionHeap →
    Except Stop (BlockAllocation × RegionHeap)
  | 0, _, alloc, h => .ok (alloc, h)
  | left + 1, i, alloc, h =>
      if g.hasSuperBlock i then do
        -- `i * blocks_per_group` is a product of 32 bits
        let (alloc, h) ← appendRegion alloc (u32 (g.firstBlock i + 1 + g.aux.bgDescBlocks))
          g.info.bgDescReserveBlocks i h
        reserveInodeLoop g left (i + 1) alloc h
      else reserveInodeLoop g left (i + 1) alloc h

/-! ## Filling in the blocks -/

/-- The index `r` of `inode_attach_resize`: an `int` that is assigned the
remainder of an unsigned difference. -/
def resizeIndex (d n i : ℕ) : ℤ :=
  let r := s32 (sub32 i d % n)
  if r < 0 then s32 (toU32 (r + n)) else r

/-- The inner loop of `inode_attach_resize`, from `j` on, over an array of `size`
bytes. -/
def resizeIndLoop (g : Geometry) (alloc : BlockAllocation) (h : RegionHeap) (size : ℕ) (r : ℤ) :
    ℕ → ℕ → Mem → Except Stop Mem
  | 0, _, ind => .ok ind
  | left + 1, j, ind => do
      let block ← getBlock alloc (toU32 (j * g.info.bgDescReserveBlocks + r)) h
      let k := toU32 (r * g.aux.blocksPerInd + j - 1)
      if size < 4 * k + 4 then .error .undefined
      else resizeIndLoop g alloc h size r left (j + 1) (ind.store (4 * k) 4 block)

/-- The outer loop of `inode_attach_resize`, from `i` on. -/
def resizeLoop (g : Geometry) (alloc : BlockAllocation) (h : RegionHeap) (superblocks : ℕ) :
    ℕ → ℕ → Mem × Mem → Except Stop (Mem × Mem)
  | 0, _, blocks => .ok blocks
  | left + 1, i, (dind, ind) => do
      let r := resizeIndex g.aux.bgDescBlocks g.info.bgDescReserveBlocks i
      let block ← getBlock alloc (toU32 r) h
      if g.info.blockSize < 4 * i + 4 then .error .undefined
      else do
        let ind ← resizeIndLoop g alloc h (g.info.blockSize * g.info.bgDescReserveBlocks) r
          (superblocks - 1) 1 ind
        resizeLoop g alloc h superblocks left (i + 1) (dind.store (4 * i) 4 block, ind)

/-- The assignments to the inode at `base` that end `inode_attach_resize`. -/
def finishResize (g : Geometry) (m : Mem) (base blockLen superblocks dindBlock : ℕ) : Mem :=
  let perInd := g.aux.blocksPerInd
  let lastBlock := toU32 (EXT4_NDIR_BLOCKS + perInd +
    perInd * (g.info.bgDescReserveBlocks - 1) + superblocks - 2)
  let blocks := (blockLen + 1) * g.info.blockSize / 512
  let size := lastBlock * g.info.blockSize
  m.assign [
    ((Inode.iBlock EXT4_DIND_BLOCK).at_ base, dindBlock),
    (Inode.iFlags.at_ base, 0),
    (Inode.iBlocksLo.at_ base, blocks),
    (Inode.iBlocksHigh.at_ base, blocks / 2 ^ 32),
    (Inode.iSizeLo.at_ base, size),
    (Inode.iSizeHigh.at_ base, size / 2 ^ 32)]

/-- `inode_attach_resize` for the inode at `base` of the inode table `m`. -/
def inodeAttachResize (g : Geometry) (m : Mem) (base : ℕ) (alloc : BlockAllocation) (s : State) :
    Except Stop (Mem × BlockAllocation × State) := do
  let blockSize := g.info.blockSize
  let reserve := g.info.bgDescReserveBlocks
  let blockLen ← blockAllocationLen alloc s.regions
  if reserve = 0 then .error .undefined
  else if blockLen % reserve ≠ 0 then
    .error (.criticalError "reserved blocks not a multiple of %d")
  else do
    let superblocks := blockLen / reserve
    let (alloc, s) ← appendOobAllocation g alloc 1 s
    let dindBlock ← getOobBlock alloc 0 s.regions
    let (dind, s) := queueBlock blockSize dindBlock s
    let (ind, s) := s.calloc (blockSize * reserve)
    let first ← getBlock alloc 0 s.regions
    let s := s.addChunk (.buffer ind 0) (u32 (blockSize * reserve)) first
    let (dindData, indData) ← resizeLoop g alloc s.regions superblocks reserve 0
      ((s.out.buffers dind).bytes, (s.out.buffers ind).bytes)
    let s := (s.setBuffer dind dindData).setBuffer ind indData
    .ok (finishResize g m base blockLen superblocks dindBlock, alloc, s)

/-- `ext4_create_resize_inode`, where the inode is at `base` of the inode table
`m`. -/
def ext4CreateResizeInode (g : Geometry) (m : Mem) (base : ℕ) (s : State) :
    Except Stop (Mem × State) := do
  let (alloc, regions) ← reserveInodeLoop g g.aux.groups 0 createAllocation s.regions
  let (m, alloc, s) ← inodeAttachResize g m base alloc { s with regions := regions }
  let regions ← freeAlloc alloc s.regions
  .ok (m.assign [(Inode.iMode.at_ base, 0o100600), (Inode.iLinksCount.at_ base, 1)],
    { s with regions := regions })

/-! ## Lists that are appended to -/

/-- The list that `region_list_append` has built of the regions `ns`. -/
structure Appended (h : RegionHeap) (list : RegionList) (ns : List (ℕ × Piece)) : Prop where
  list_eq : list = ⟨headAddr ns, ns.getLast?.map Prod.fst, headAddr ns, 0⟩
  listed : Listed h ns
  nodup : (ns.map Prod.fst).Nodup
  lt : ∀ n ∈ ns, n.1 < h.brk

theorem Appended.nil (h : RegionHeap) : Appended h ⟨none, none, none, 0⟩ [] :=
  ⟨rfl, trivial, List.nodup_nil, by simp⟩

/-- Regions made later do not disturb the list. -/
theorem Appended.congr {h h' : RegionHeap} {list : RegionList} {ns : List (ℕ × Piece)}
    (hns : Appended h list ns) (hsame : ∀ n ∈ ns, h'.node n.1 = h.node n.1)
    (hbrk : h.brk ≤ h'.brk) : Appended h' list ns :=
  ⟨hns.list_eq, hns.listed.congr hsame, hns.nodup, fun n hn => (hns.lt n hn).trans_le hbrk⟩

theorem Appended.length_le {h : RegionHeap} {list : RegionList} {ns : List (ℕ × Piece)}
    (hns : Appended h list ns) : ns.length ≤ h.brk := by
  have hlt : ∀ a ∈ ns.map Prod.fst, a < h.brk := by
    intro a ha
    obtain ⟨n, hn, rfl⟩ := List.mem_map.mp ha
    exact hns.lt n hn
  simpa using length_le_of_nodup hns.nodup hlt

/-- A region is listed behind others once the last of them leads to it. -/
theorem Listed.concat {h : RegionHeap} {a : ℕ} {p : Piece} :
    ∀ {ns : List (ℕ × Piece)} {n : ℕ × Piece} {prev prev' : Option ℕ},
      Listed h (ns ++ [n]) → ((ns ++ [n]).map Prod.fst).Nodup → a ∉ (ns ++ [n]).map Prod.fst →
      Listed ((h.write n.1 (n.2.region (some a) prev)).write a (p.region none prev'))
        (ns ++ [n] ++ [(a, p)]) := by
  intro ns
  induction ns with
  | nil =>
      intro n prev prev' hlist hnodup ha
      have hne : n.1 ≠ a := by simpa [eq_comm] using ha
      refine ⟨⟨prev, ?_⟩, ⟨prev', RegionHeap.write_node_self _ _ _⟩, trivial⟩
      rw [RegionHeap.write_node_of_ne _ _ hne, RegionHeap.write_node_self]
      rfl
  | cons n₀ rest ih =>
      intro n prev prev' hlist hnodup ha
      obtain ⟨⟨prev₀, hnode⟩, hrest⟩ := hlist
      simp only [List.cons_append, List.map_cons, List.nodup_cons, List.mem_cons,
        not_or] at hnodup ha
      have hne : n₀.1 ≠ n.1 := fun heq => hnodup.1 (by simp [heq])
      refine ⟨⟨prev₀, ?_⟩, ih hrest hnodup.2 ha.2⟩
      rw [RegionHeap.write_node_of_ne _ _ (Ne.symm ha.1),
        RegionHeap.write_node_of_ne _ _ hne, hnode]
      cases rest <;> rfl

/-- `region_list_append` on such a list. -/
theorem Appended.append {h : RegionHeap} {list : RegionList} {ns : List (ℕ × Piece)} {a : ℕ}
    {p : Piece} {next prev : Option ℕ} (hns : Appended h list ns)
    (hnode : h.node a = some (p.region next prev)) (ha : a < h.brk) (hfresh : a ∉ ns.map Prod.fst) :
    ∃ list' h', regionListAppend list a h = .ok (list', h') ∧
      Appended h' list' (ns ++ [(a, p)]) ∧ h'.brk = h.brk ∧
      ∀ q, q ∉ ns.map Prod.fst → q ≠ a → h'.node q = h.node q := by
  have hlt : ∀ n ∈ ns ++ [(a, p)], n.1 < h.brk := by
    intro n hn
    rcases List.mem_append.mp hn with hn | hn
    · exact hns.lt n hn
    · rw [List.mem_singleton.mp hn]
      exact ha
  have hnodup : ((ns ++ [(a, p)]).map Prod.fst).Nodup := by
    rw [List.map_append, List.nodup_append]
    refine ⟨hns.nodup, by simp, ?_⟩
    intro x hx y hy heq
    rw [List.map_singleton, List.mem_singleton] at hy
    obtain rfl : y = a := hy
    exact hfresh (heq ▸ hx)
  rcases List.eq_nil_or_concat ns with rfl | ⟨front, n, rfl⟩
  · refine ⟨⟨some a, some a, some a, 0⟩, h.write a (p.region none none), ?_, ?_, rfl, ?_⟩
    · rw [hns.list_eq]
      show (h.deref (some a) >>= _) = _
      rw [RegionHeap.deref_some.mpr hnode]
      rfl
    · exact ⟨rfl, ⟨⟨none, RegionHeap.write_node_self _ _ _⟩, trivial⟩, hnodup, hlt⟩
    · intro q _ hq
      exact RegionHeap.write_node_of_ne _ _ hq
  · simp only [List.concat_eq_append] at *
    obtain ⟨prevn, hlast⟩ : ∃ prevn, h.node n.1 = some (n.2.region none prevn) := by
      have hlisted := hns.listed
      clear hns hlt hnodup hfresh
      induction front with
      | nil => exact hlisted.1
      | cons n₀ rest ih => exact ih hlisted.2
    have hne : a ≠ n.1 := fun heq => hfresh (by simp [heq])
    refine ⟨⟨headAddr (front ++ [n]), some a, headAddr (front ++ [n]), 0⟩,
      (h.write n.1 (n.2.region (some a) prevn)).write a (p.region none (some n.1)), ?_, ?_, rfl, ?_⟩
    · have hfirst : ∃ f, headAddr (front ++ [n]) = some f := by cases front <;> exact ⟨_, rfl⟩
      obtain ⟨f, hf⟩ := hfirst
      rw [hns.list_eq, hf]
      show (h.deref ((front ++ [n]).getLast?.map Prod.fst) >>= _) = _
      rw [List.getLast?_append_of_ne_nil _ (by simp)]
      simp only [List.getLast?_singleton, Option.map_some, Option.getD_some]
      rw [RegionHeap.deref_some.mpr hlast, bind_ok]
      rw [RegionHeap.deref_some.mpr (by rw [RegionHeap.write_node_of_ne _ _ hne]; exact hnode)]
      rfl
    · refine ⟨?_, hns.listed.concat hns.nodup hfresh, hnodup, hlt⟩
      simp [headAddr]
    · intro q hq hqa
      have hqn : q ≠ n.1 := fun heq => hq (by simp [heq])
      rw [RegionHeap.write_node_of_ne _ _ hqa, RegionHeap.write_node_of_ne _ _ hqn]

/-! ## The reserved blocks -/

namespace Geometry

variable (g : Geometry)

/-- The groups with a superblock, in order. -/
def supers : List ℕ := (List.range g.aux.groups).filter g.hasSuperBlock

/-- The first of the blocks that group `i` keeps for more descriptors. -/
def reservedStart (i : ℕ) : ℕ := g.start i + 1 + g.aux.bgDescBlocks

/-- The blocks that group `i` keeps for more descriptors. -/
def reserved (i : ℕ) : Piece := ⟨g.reservedStart i, g.info.bgDescReserveBlocks, i⟩

variable {g}

theorem mem_supers {i : ℕ} : i ∈ g.supers ↔ i < g.aux.groups ∧ g.hasSuperBlock i = true := by
  simp [supers]

/-- The header of a group with a superblock, as `init_bg` counts it. -/
theorem headerBlocks_of_super (hbs : 1024 ≤ g.info.blockSize)
    (hreserve : g.info.bgDescReserveBlocks ≤ g.info.blockSize / 4) {i : ℕ}
    (hsuper : g.hasSuperBlock i = true) :
    g.headerBlocks i = 2 + g.aux.inodeTableBlocks + g.superBlocks := by
  have hof := FsAuxInfo.of_create g.create
  have hlt := FsInfo.headerSize_lt hbs hreserve i
  unfold hasSuperBlock at hsuper
  unfold FsInfo.headerSize at hlt
  unfold headerBlocks hasSuperBlock superBlocks
  rw [hof.inodeTableBlocks, hof.bgDescBlocks]
  rw [if_pos hsuper] at hlt ⊢
  exact u32_of_lt (by omega)

/-- The reserved blocks of a group exist. -/
theorem reserved_lt (hg : g.Fits) (hbs : 1024 ≤ g.info.blockSize)
    (hreserve : g.info.bgDescReserveBlocks ≤ g.info.blockSize / 4) {i : ℕ} (hi : i ∈ g.supers) :
    1 + g.aux.bgDescBlocks + g.info.bgDescReserveBlocks ≤ g.groupSize i ∧
      g.reservedStart i + g.info.bgDescReserveBlocks ≤ g.aux.lenBlocks := by
  rw [mem_supers] at hi
  have hheader := hg.header_le i hi.1
  have hend := start_add_groupSize_le hg hi.1
  rw [headerBlocks_of_super hbs hreserve hi.2] at hheader
  unfold superBlocks at hheader
  unfold reservedStart
  omega

end Geometry

/-- `append_region`. -/
theorem Appended.appendRegion {alloc : BlockAllocation} {h : RegionHeap} {ns : List (ℕ × Piece)}
    (hns : Appended h alloc.list ns) (p : Piece) :
    ∃ alloc' h' a, appendRegion alloc p.block p.len p.bg h = .ok (alloc', h') ∧
      Appended h' alloc'.list (ns ++ [(a, p)]) ∧ alloc'.oobList = alloc.oobList := by
  have hfresh : h.brk ∉ ns.map Prod.fst := by
    intro hmem
    obtain ⟨n, hn, heq⟩ := List.mem_map.mp hmem
    exact absurd (hns.lt n hn) (by omega)
  have hmalloc : Appended (h.malloc (p.region none none)).2 alloc.list ns :=
    hns.congr (fun n hn => RegionHeap.malloc_node_of_ne _ _ (hns.lt n hn).ne) (Nat.le_succ _)
  obtain ⟨list', h', hrun, happ, -, -⟩ := hmalloc.append (RegionHeap.malloc_node_self _ _)
    (Nat.lt_succ_self _) hfresh
  refine ⟨{ alloc with list := list' }, h', h.brk, ?_, happ, rfl⟩
  show (regionListAppend alloc.list h.brk (h.malloc (p.region none none)).2 >>= _) = _
  rw [hrun]
  rfl

/-- What `ext4_create_resize_inode` has listed when it has looked at `left` groups
from `i` on. -/
theorem reserveInodeLoop_eq {g : Geometry} (hg : g.Fits) (hbs : 1024 ≤ g.info.blockSize)
    (hreserve : g.info.bgDescReserveBlocks ≤ g.info.blockSize / 4) (left : ℕ) :
    ∀ {i : ℕ} {alloc : BlockAllocation} {h : RegionHeap} {ns : List (ℕ × Piece)},
      i + left ≤ g.aux.groups → Appended h alloc.list ns →
      ∃ alloc' h' ns', reserveInodeLoop g left i alloc h = .ok (alloc', h') ∧
        Appended h' alloc'.list ns' ∧ alloc'.oobList = alloc.oobList ∧
        ns'.map Prod.snd = ns.map Prod.snd ++
          ((List.range' i left).filter g.hasSuperBlock).map g.reserved := by
  induction left with
  | zero =>
      intro i alloc h ns _ hns
      exact ⟨alloc, h, ns, rfl, hns, rfl, by simp⟩
  | succ left ih =>
      intro i alloc h ns hi hns
      rw [reserveInodeLoop, List.range'_succ]
      by_cases hsuper : g.hasSuperBlock i = true
      · have hmem : i ∈ g.supers := Geometry.mem_supers.mpr ⟨by omega, hsuper⟩
        have hlt := (Geometry.reserved_lt hg hbs hreserve hmem).2
        have hlen := hg.lenBlocks_lt
        have hblock : u32 (g.firstBlock i + 1 + g.aux.bgDescBlocks) = (g.reserved i).block := by
          unfold Geometry.reservedStart at hlt
          rw [hg.firstBlock_eq (by omega)]
          exact u32_of_lt (by omega)
        obtain ⟨alloc₁, h₁, a, hrun₁, hns₁, hoob₁⟩ := hns.appendRegion (g.reserved i)
        obtain ⟨alloc', h', ns', hrun, hns', hoob, heq⟩ := ih (show i + 1 + left ≤ _ by omega) hns₁
        refine ⟨alloc', h', ns', ?_, hns', hoob.trans hoob₁, ?_⟩
        · replace hrun₁ : appendRegion alloc (g.reserved i).block g.info.bgDescReserveBlocks i h =
            .ok (alloc₁, h₁) := hrun₁
          rw [if_pos hsuper, hblock, hrun₁, bind_ok]
          exact hrun
        · rw [heq, List.filter_cons_of_pos hsuper]
          simp
      · obtain ⟨alloc', h', ns', hrun, hns', hoob, heq⟩ := ih (show i + 1 + left ≤ _ by omega) hns
        refine ⟨alloc', h', ns', ?_, hns', hoob, ?_⟩
        · rw [if_neg hsuper]
          exact hrun
        · rw [heq, List.filter_cons_of_neg hsuper]

/-- The regions of the allocation, read off its blocks: `n` from each group. -/
theorem getElem?_flatMap_range' {start : ℕ → ℕ} {n r : ℕ} (hr : r < n) (l : List ℕ) : ∀ j : ℕ,
    (l.flatMap fun i => List.range' (start i) n)[j * n + r]? = l[j]?.map fun i => start i + r := by
  induction l with
  | nil => simp
  | cons i rest ih =>
      intro j
      rw [List.flatMap_cons]
      cases j with
      | zero =>
          rw [List.getElem?_append_left (by simpa using hr)]
          simp [hr]
      | succ j =>
          have hge : (List.range' (start i) n).length ≤ (j + 1) * n + r := by
            rw [List.length_range', Nat.add_mul]
            omega
          have hindex : (j + 1) * n + r - n = j * n + r := by
            rw [Nat.add_mul]
            omega
          rw [List.getElem?_append_right hge, List.length_range', hindex, ih j]
          rfl

section Blocks

variable {h : RegionHeap} {ns : List (ℕ × Piece)}

theorem allocationLenLoop_eq : ∀ {fuel i : ℕ}, Listed h ns → ns.length ≤ fuel →
    i + lenOf (ns.map Prod.snd) < 2 ^ 32 →
    allocationLenLoop h fuel (headAddr ns) i = .ok (i + lenOf (ns.map Prod.snd)) := by
  induction ns with
  | nil =>
      intro fuel i _ _ _
      cases fuel <;> rfl
  | cons n rest ih =>
      intro fuel i hlist hfuel hlt
      cases fuel with
      | zero => simp at hfuel
      | succ fuel =>
          obtain ⟨prev, hderef⟩ := hlist.deref
          rw [List.map_cons, lenOf_cons] at hlt ⊢
          show allocationLenLoop h (fuel + 1) (some n.1) i = _
          rw [allocationLenLoop, hderef, bind_ok]
          simp only [Piece.region]
          rw [u32_of_lt (by omega), ih hlist.2 (Nat.le_of_succ_le_succ hfuel) (by omega),
            Nat.add_assoc]

end Blocks

/-! ### The groups with a superblock are few -/

/-- The powers of `b` that a `u32` can hold. -/
def wordPowers (b : ℕ) : List ℕ := (List.range 32).map (b ^ ·)

theorem mem_wordPowers {b i : ℕ} (hb : 2 ≤ b) (hi : i < 2 ^ 32)
    (h : isPowerOf (s32 i) b = true) : i ∈ wordPowers b := by
  obtain ⟨k, -, hk⟩ := (isPowerOf_iff (by omega)).mp h
  have hpos : (0 : ℤ) < (b : ℤ) ^ k := pow_pos (by omega) _
  have heq : i = b ^ k := by
    have hcast : (i : ℤ) = (b : ℤ) ^ k := by
      rw [← hk]
      unfold s32 u32 at hk ⊢
      rw [Nat.mod_eq_of_lt hi] at hk ⊢
      split at hk
      · rename_i hsmall
        rw [if_pos hsmall]
      · omega
    exact_mod_cast hcast
  have hk' : k < 32 := by
    by_contra hge
    have h₁ : 2 ^ 32 ≤ 2 ^ k := Nat.pow_le_pow_right (by omega) (by omega)
    have h₂ : 2 ^ k ≤ b ^ k := Nat.pow_le_pow_left hb _
    omega
  exact List.mem_map.mpr ⟨k, List.mem_range.mpr hk', heq.symm⟩

namespace Geometry

variable {g : Geometry}

theorem supers_nodup : g.supers.Nodup := List.nodup_range.filter _

/-- With `sparse_super` there are fewer superblocks than an indirect block has
entries. -/
theorem length_supers_le
    (hsparse : g.info.featRoCompat &&& EXT4_FEATURE_RO_COMPAT_SPARSE_SUPER ≠ 0)
    (hgroups : g.aux.groups ≤ 2 ^ 32) : g.supers.length ≤ 98 := by
  have hsub : g.supers ⊆ [0, 1] ++ wordPowers 3 ++ wordPowers 5 ++ wordPowers 7 := by
    intro i hi
    obtain ⟨hi, hsuper⟩ := mem_supers.mp hi
    have hlt : i < 2 ^ 32 := by omega
    unfold hasSuperBlock ext4BgHasSuperBlock at hsuper
    rw [if_neg hsparse] at hsuper
    simp only [List.mem_append]
    split at hsuper
    · rename_i hsmall
      have hle : i ≤ 1 := by
        unfold s32 u32 at hsmall
        rw [Nat.mod_eq_of_lt hlt] at hsmall
        split at hsmall <;> omega
      have hmem : i ∈ [0, 1] := by interval_cases i <;> simp
      exact .inl (.inl (.inl hmem))
    · simp only [Bool.or_eq_true] at hsuper
      rcases hsuper with (h | h) | h
      · exact .inl (.inl (.inr (mem_wordPowers (by omega) hlt h)))
      · exact .inl (.inr (mem_wordPowers (by omega) hlt h))
      · exact .inr (mem_wordPowers (by omega) hlt h)
  simpa [wordPowers] using (supers_nodup.subperm hsub).length_le

/-- No block is reserved twice, and all of them exist. -/
theorem length_reserved_le (hg : g.Fits) (hbs : 1024 ≤ g.info.blockSize)
    (hreserve : g.info.bgDescReserveBlocks ≤ g.info.blockSize / 4) :
    lenOf (g.supers.map g.reserved) ≤ g.aux.lenBlocks := by
  have hnodup : (blocksOf (g.supers.map g.reserved)).Nodup := by
    unfold blocksOf
    rw [List.flatMap_map, List.nodup_flatMap]
    refine ⟨fun i _ => Piece.nodup_blocks _, ?_⟩
    refine supers_nodup.pairwise_of_forall_ne fun i hi j hj hne => ?_
    intro b hb hb'
    rw [Piece.mem_blocks] at hb hb'
    have hroom := (reserved_lt hg hbs hreserve hi).1
    have hroom' := (reserved_lt hg hbs hreserve hj).1
    have hsize := groupSize_le (g := g) i
    have hsize' := groupSize_le (g := g) j
    simp only [reserved, reservedStart] at hb hb'
    have heq : g.start i + (b - g.start i) = g.start j + (b - g.start j) := by omega
    exact hne (group_unique (by omega) (by omega) heq).1
  have hlt : ∀ b ∈ blocksOf (g.supers.map g.reserved), b < g.aux.lenBlocks := by
    intro b hb
    unfold blocksOf at hb
    rw [List.flatMap_map, List.mem_flatMap] at hb
    obtain ⟨i, hi, hb⟩ := hb
    have hend := (reserved_lt hg hbs hreserve hi).2
    rw [Piece.mem_blocks] at hb
    simp only [reserved] at hb
    omega
  have hle := length_le_of_nodup hnodup hlt
  rwa [length_blocksOf] at hle

theorem lenOf_reserved : lenOf (g.supers.map g.reserved) =
    g.supers.length * g.info.bgDescReserveBlocks := by
  simp [lenOf, Function.comp_def, reserved]

end Geometry

/-! ## What the loops fill in -/

/-- The readers find the reserved blocks in the order of their groups. -/
def Reads (g : Geometry) (alloc : BlockAllocation) (h : RegionHeap) : Prop :=
  ∀ j i r, g.supers[j]? = some i → r < g.info.bgDescReserveBlocks →
    getBlock alloc (j * g.info.bgDescReserveBlocks + r) h = .ok (g.reservedStart i + r)

section Fill

variable {g : Geometry} {alloc : BlockAllocation} {h : RegionHeap}

theorem Appended.reads {ns : List (ℕ × Piece)} (hg : g.Fits) (hbs : 1024 ≤ g.info.blockSize)
    (hreserve : g.info.bgDescReserveBlocks ≤ g.info.blockSize / 4)
    (hns : Appended h alloc.list ns) (hpieces : ns.map Prod.snd = g.supers.map g.reserved) :
    Reads g alloc h := by
  intro j i r hj hr
  have hblocks : blocksOf (ns.map Prod.snd) =
      g.supers.flatMap fun i => List.range' (g.reservedStart i) g.info.bgDescReserveBlocks := by
    rw [hpieces, blocksOf, List.flatMap_map]
    rfl
  have hindex : (blocksOf (ns.map Prod.snd))[j * g.info.bgDescReserveBlocks + r]? =
      some (g.reservedStart i + r) := by
    rw [hblocks, getElem?_flatMap_range' hr, hj]
    rfl
  have hlt : j * g.info.bgDescReserveBlocks + r < lenOf (g.supers.map g.reserved) := by
    rw [← hpieces, ← length_blocksOf]
    exact (List.getElem?_eq_some_iff.mp hindex).1
  have hle := Geometry.length_reserved_le hg hbs hreserve
  have hend := (Geometry.reserved_lt hg hbs hreserve (List.mem_of_getElem? hj)).2
  have hlen := hg.lenBlocks_lt
  unfold getBlock
  rw [hns.list_eq]
  simp only
  rw [u32_of_lt (by omega)]
  exact getBlockLoop_eq hns.listed hns.length_le hindex (by omega)

/-- The rotation as the code computes it, when there is no sign to correct. -/
def turned (g : Geometry) (i : ℕ) : ℕ := sub32 i g.aux.bgDescBlocks % g.info.bgDescReserveBlocks

theorem turned_lt (hpos : 0 < g.info.bgDescReserveBlocks) (i : ℕ) :
    turned g i < g.info.bgDescReserveBlocks := Nat.mod_lt _ hpos

theorem resizeIndex_eq (hpos : 0 < g.info.bgDescReserveBlocks)
    (hsmall : g.info.bgDescReserveBlocks < 2 ^ 31) (i : ℕ) :
    resizeIndex g.aux.bgDescBlocks g.info.bgDescReserveBlocks i = (turned g i : ℤ) := by
  have hlt := turned_lt hpos i
  unfold turned at hlt
  unfold resizeIndex turned
  simp only
  rw [s32_of_lt (by omega), if_neg (by omega)]

/-- The indirect blocks of the reserved blocks that `P` says list their
counterparts; everything else is zero. -/
structure IndFilled (g : Geometry) (P : ℕ → Prop) (ind : Mem) : Prop where
  listed : ∀ r < g.info.bgDescReserveBlocks, P r → ∀ k i, g.supers[k + 1]? = some i →
    ind.load (r * g.info.blockSize + 4 * k) 4 = g.reservedStart i + r
  zero : ∀ r < g.info.bgDescReserveBlocks, ∀ x < g.info.blockSize,
    (P r → 4 * (g.supers.length - 1) ≤ x) → ind (r * g.info.blockSize + x) = 0

/-- One indirect block, from entry `k` on. -/
theorem resizeIndLoop_eq (hreads : Reads g alloc h) (hfour : 4 ∣ g.info.blockSize)
    (hsize : g.info.blockSize * g.info.bgDescReserveBlocks < 2 ^ 32)
    (hlen : g.supers.length * g.info.bgDescReserveBlocks < 2 ^ 32)
    (hfew : g.supers.length - 1 ≤ g.info.blockSize / 4) {r : ℕ}
    (hr : r < g.info.bgDescReserveBlocks)
    (hblocks : ∀ i ∈ g.supers, g.reservedStart i + r < 2 ^ 32) (left : ℕ) :
    ∀ (k : ℕ) (ind : Mem), k + left = g.supers.length - 1 → ∃ ind',
      resizeIndLoop g alloc h (g.info.blockSize * g.info.bgDescReserveBlocks) r left (k + 1) ind =
        .ok ind' ∧
      (∀ k' i, k ≤ k' → g.supers[k' + 1]? = some i →
        ind'.load (r * g.info.blockSize + 4 * k') 4 = g.reservedStart i + r) ∧
      ∀ x, x < r * g.info.blockSize + 4 * k ∨
        r * g.info.blockSize + 4 * (g.supers.length - 1) ≤ x → ind' x = ind x := by
  have hper : g.aux.blocksPerInd = g.info.blockSize / 4 :=
    (FsAuxInfo.of_create g.create).blocksPerInd
  obtain ⟨q, hq⟩ := hfour
  have hper' : g.aux.blocksPerInd = q := by omega
  induction left with
  | zero =>
      intro k ind hk
      refine ⟨ind, rfl, fun k' i hle hi => ?_, fun _ _ => rfl⟩
      have := (List.getElem?_eq_some_iff.mp hi).1
      omega
  | succ left ih =>
      intro k ind hk
      obtain ⟨i, hi⟩ : ∃ i, g.supers[k + 1]? = some i := ⟨_, List.getElem?_eq_getElem (by omega)⟩
      have hrow : r * q + q ≤ q * g.info.bgDescReserveBlocks := by
        calc r * q + q = (r + 1) * q := by rw [Nat.add_mul, Nat.one_mul]
          _ ≤ g.info.bgDescReserveBlocks * q := Nat.mul_le_mul_right _ hr
          _ = q * g.info.bgDescReserveBlocks := Nat.mul_comm _ _
      have hbytes : g.info.blockSize * g.info.bgDescReserveBlocks =
          4 * (q * g.info.bgDescReserveBlocks) := by rw [hq, Nat.mul_assoc]
      have hindex : toU32 (r * g.aux.blocksPerInd + (k + 1 : ℕ) - 1) = r * q + k := by
        refine toU32_of_lt ?_ (by omega)
        rw [hper']
        push_cast
        omega
      have hcol : (k + 1) * g.info.bgDescReserveBlocks + r < 2 ^ 32 := by
        calc (k + 1) * g.info.bgDescReserveBlocks + r
            ≤ (k + 2) * g.info.bgDescReserveBlocks := by rw [Nat.add_mul (k + 1) 1]; omega
          _ ≤ g.supers.length * g.info.bgDescReserveBlocks := Nat.mul_le_mul_right _ (by omega)
          _ < 2 ^ 32 := hlen
      have hcell : toU32 ((k + 1 : ℕ) * g.info.bgDescReserveBlocks + (r : ℤ)) =
          (k + 1) * g.info.bgDescReserveBlocks + r := by
        refine toU32_of_lt ?_ hcol
        push_cast
        rfl
      have hstart : r * g.info.blockSize = 4 * (r * q) := by
        rw [hq]
        ring
      obtain ⟨ind', hrun, hlisted, hframe⟩ := ih (k + 1)
        (ind.store (4 * (r * q + k)) 4 (g.reservedStart i + r)) (by omega)
      refine ⟨ind', ?_, ?_, ?_⟩
      · rw [resizeIndLoop, hcell, hreads (k + 1) i r hi hr, bind_ok]
        simp only
        rw [hindex, if_neg (by omega)]
        exact hrun
      · intro k' i' hle hi'
        rcases Nat.eq_or_lt_of_le hle with rfl | hlt
        · obtain rfl : i = i' := Option.some.inj (hi.symm.trans hi')
          rw [load_congr fun x hx => hframe _ (.inl (by omega))]
          rw [show r * g.info.blockSize + 4 * k = 4 * (r * q + k) by omega, load_store_self]
          exact Nat.mod_eq_of_lt (hblocks i (List.mem_of_getElem? hi))
        · exact hlisted k' i' hlt hi'
      · intro x hx
        rw [hframe x (by omega)]
        exact store_apply_of_not_mem (by omega)

/-- One more indirect block is filled in. -/
theorem IndFilled.step {P : ℕ → Prop} {ind ind' : Mem} {r : ℕ} (hind : IndFilled g P ind)
    (hfew : 4 * (g.supers.length - 1) ≤ g.info.blockSize)
    (hlisted : ∀ k i, g.supers[k + 1]? = some i →
      ind'.load (r * g.info.blockSize + 4 * k) 4 = g.reservedStart i + r)
    (hframe : ∀ x, x < r * g.info.blockSize ∨
      r * g.info.blockSize + 4 * (g.supers.length - 1) ≤ x → ind' x = ind x) :
    IndFilled g (fun q => q = r ∨ P q) ind' := by
  -- another block lies before or behind this one
  have hother : ∀ q x, q ≠ r → x < g.info.blockSize → ind' (q * g.info.blockSize + x) =
      ind (q * g.info.blockSize + x) := by
    intro q x hne hx
    refine hframe _ ?_
    rcases Nat.lt_or_gt_of_ne hne with hlt | hgt
    · have hle : (q + 1) * g.info.blockSize ≤ r * g.info.blockSize := Nat.mul_le_mul_right _ hlt
      rw [Nat.add_mul] at hle
      omega
    · have hle : (r + 1) * g.info.blockSize ≤ q * g.info.blockSize := Nat.mul_le_mul_right _ hgt
      rw [Nat.add_mul] at hle
      omega
  constructor
  · intro q hq hP k i hi
    by_cases hqr : q = r
    · rw [hqr]
      exact hlisted k i hi
    · have hk := (List.getElem?_eq_some_iff.mp hi).1
      have hsame : ∀ x < 4, ind' (q * g.info.blockSize + 4 * k + x) =
          ind (q * g.info.blockSize + 4 * k + x) := by
        intro x hx
        rw [Nat.add_assoc]
        exact hother q (4 * k + x) hqr (by omega)
      rw [load_congr hsame]
      exact hind.listed q hq (hP.resolve_left hqr) k i hi
  · intro q hq x hx hP
    by_cases hqr : q = r
    · have hfar := hP (.inl hqr)
      rw [hframe _ (by rw [hqr]; omega)]
      exact hind.zero q hq x hx fun _ => hfar
    · rw [hother q x hqr hx]
      exact hind.zero q hq x hx fun h => hP (.inr h)

/-- The whole loop, from `i` on. -/
theorem resizeLoop_eq (hreads : Reads g alloc h) (hfour : 4 ∣ g.info.blockSize)
    (hpos : 0 < g.info.bgDescReserveBlocks)
    (hreserve : g.info.bgDescReserveBlocks ≤ g.info.blockSize / 4)
    (hsize : g.info.blockSize * g.info.bgDescReserveBlocks < 2 ^ 32)
    (hlen : g.supers.length * g.info.bgDescReserveBlocks < 2 ^ 32)
    (hfew : g.supers.length - 1 ≤ g.info.blockSize / 4) (hzero : g.supers[0]? = some 0)
    (hblocks : ∀ i ∈ g.supers, ∀ r < g.info.bgDescReserveBlocks,
      g.reservedStart i + r < 2 ^ 32) (left : ℕ) :
    ∀ (i : ℕ) (dind ind : Mem) (P : ℕ → Prop), i + left = g.info.bgDescReserveBlocks →
      IndFilled g P ind → ∃ dind' ind',
        resizeLoop g alloc h g.supers.length left i (dind, ind) = .ok (dind', ind') ∧
        (∀ i', i ≤ i' → i' < i + left →
          dind'.load (4 * i') 4 = g.reservedStart 0 + turned g i') ∧
        (∀ x < 4 * i, dind' x = dind x) ∧
        IndFilled g (fun r => (∃ i', i ≤ i' ∧ i' < i + left ∧ turned g i' = r) ∨ P r) ind' := by
  have hsmall : g.info.bgDescReserveBlocks < 2 ^ 31 := by
    have := g.info.blockSize_lt
    omega
  induction left with
  | zero =>
      intro i dind ind P _ hind
      refine ⟨dind, ind, rfl, fun i' h₁ h₂ => by omega, fun _ _ => rfl, ?_⟩
      have hnone : ∀ r, ¬ ∃ i', i ≤ i' ∧ i' < i + 0 ∧ turned g i' = r := by
        rintro r ⟨i', h₁, h₂, -⟩
        omega
      simpa only [hnone, false_or] using hind
  | succ left ih =>
      intro i dind ind P hi hind
      have hr := turned_lt hpos i
      obtain ⟨ind₁, hrun₁, hlisted₁, hframe₁⟩ := resizeIndLoop_eq hreads hfour hsize hlen hfew hr
        (fun j hj => hblocks j hj _ hr) (g.supers.length - 1) 0 ind (by omega)
      have hind₁ := hind.step (by omega) (fun k j => hlisted₁ k j (Nat.zero_le _)) hframe₁
      obtain ⟨dind', ind', hrun, hwords, hframe, hind'⟩ := ih (i + 1)
        (dind.store (4 * i) 4 (g.reservedStart 0 + turned g i)) ind₁ _ (by omega) hind₁
      have hread := hreads 0 0 (turned g i) hzero hr
      rw [Nat.zero_mul, Nat.zero_add] at hread
      refine ⟨dind', ind', ?_, ?_, ?_, ?_⟩
      · rw [resizeLoop, resizeIndex_eq hpos hsmall]
        rw [toU32_of_lt rfl (by omega), hread, bind_ok, if_neg (by omega), hrun₁, bind_ok]
        exact hrun
      · intro i' h₁ h₂
        rcases Nat.eq_or_lt_of_le h₁ with rfl | h₁
        · rw [load_congr fun x hx => hframe _ (by omega), load_store_self]
          exact Nat.mod_eq_of_lt (hblocks 0 (List.mem_of_getElem? hzero) _ hr)
        · exact hwords i' h₁ (by omega)
      · intro x hx
        rw [hframe x (by omega)]
        exact store_apply_of_not_mem (.inl hx)
      · refine ⟨fun r hlt hP => hind'.listed r hlt ?_,
          fun r hlt x hx hP => hind'.zero r hlt x hx ?_⟩
        · rcases hP with ⟨i', h₁, h₂, heq⟩ | hP
          · rcases Nat.eq_or_lt_of_le h₁ with rfl | h₁
            · exact .inr (.inl heq.symm)
            · exact .inl ⟨i', h₁, by omega, heq⟩
          · exact .inr (.inr hP)
        · intro hP'
          refine hP ?_
          rcases hP' with ⟨i', h₁, h₂, heq⟩ | rfl | hP'
          · exact .inl ⟨i', by omega, by omega, heq⟩
          · exact .inl ⟨i, le_rfl, by omega, rfl⟩
          · exact .inr hP'

end Fill

/-! ## The whole call -/

/-- The output file when the two buffers have been queued and filled in. -/
def resizeOutput (g : Geometry) (out : Output) (dindBlock : ℕ) (dind ind : Mem) : Output where
  chunks := out.chunks ++ [⟨.buffer out.brk 0, g.info.blockSize, dindBlock⟩,
    ⟨.buffer (out.brk + 1) 0, u32 (g.info.blockSize * g.info.bgDescReserveBlocks),
      g.reservedStart 0⟩]
  buffers := Function.update (Function.update out.buffers out.brk ⟨g.info.blockSize, dind⟩)
    (out.brk + 1) ⟨g.info.blockSize * g.info.bgDescReserveBlocks, ind⟩
  brk := out.brk + 2

/-- The inode as `ext4_create_resize_inode` leaves it. -/
def resizeInode (g : Geometry) (m : Mem) (base dindBlock : ℕ) : Mem :=
  (finishResize g m base (g.supers.length * g.info.bgDescReserveBlocks) g.supers.length
    dindBlock).assign [(Inode.iMode.at_ base, 0o100600), (Inode.iLinksCount.at_ base, 1)]

section Call

variable {g : Geometry} {s : State} (hg : g.Fits) (hbs : 1024 ≤ g.info.blockSize)
  (hreserve : g.info.bgDescReserveBlocks ≤ g.info.blockSize / 4)

include hg in
/-- One block from the allocator, in the second list of an allocation. -/
theorem appendOobAllocation_one (hinv : GroupsInv g s.bgs)
    (hfree : ∃ i < g.aux.groups, 0 < (s.bgs i).freeBlocks) {alloc : BlockAllocation}
    {ns : List (ℕ × Piece)} (hns : Appended s.regions alloc.list ns)
    (hoob : alloc.oobList = ⟨none, none, none, 0⟩) :
    ∃ alloc' s' a p, appendOobAllocation g alloc 1 s = .ok (alloc', s') ∧ s'.out = s.out ∧
      Appended s'.regions alloc'.list ns ∧ Appended s'.regions alloc'.oobList [(a, p)] ∧
      a ∉ ns.map Prod.fst ∧ p.len = 1 := by
  obtain ⟨i, hi, hpos⟩ := hfree
  obtain ⟨j, hfit⟩ := View.exists_firstFit (v := view g s.bgs) hi hpos
  obtain ⟨s₁, hrun, halloc⟩ := contiguous_some hg hinv Nat.one_pos hfit
  obtain ⟨hbrk₁, hnode₁, hframe₁⟩ := halloc.regions_eq
  have hdo : doAllocate g 1 s = .ok (some s.regions.brk, s₁) :=
    doAllocate_eq_ok.mpr (Or.inl ⟨_, hrun, rfl⟩)
  have hbelow : ∀ n ∈ ns, n.1 ≠ s.regions.brk := fun n hn => (hns.lt n hn).ne
  have hempty : Appended s₁.regions alloc.oobList [] := hoob ▸ Appended.nil _
  obtain ⟨list', h', happend, hoob', hbrk', hframe'⟩ :=
    hempty.append hnode₁ (by omega) (by simp)
  obtain ⟨prev, hlast⟩ := hoob'.listed.1
  refine ⟨{ alloc with oobList := list' }, { s₁ with regions := h' }, s.regions.brk, _, ?_,
    halloc.out, ?_, hoob', ?_, rfl⟩
  · unfold appendOobAllocation
    rw [hdo, bind_ok]
    simp only
    rw [appendOobLoop, happend, bind_ok]
    simp only
    rw [RegionHeap.deref_some.mpr hlast, bind_ok]
    cases s₁.regions.brk <;> rfl
  · refine hns.congr (fun n hn => ?_) (by simp only [hbrk', hbrk₁]; omega)
    rw [← hframe₁ n.1 (hbelow n hn)]
    exact hframe' n.1 (by simp) (hbelow n hn)
  · intro hmem
    obtain ⟨n, hn, heq⟩ := List.mem_map.mp hmem
    exact hbelow n hn heq

/-- Both lists of an allocation are freed. -/
theorem freeAlloc_eq {alloc : BlockAllocation} {h : RegionHeap} {ns ns' : List (ℕ × Piece)}
    (hns : Appended h alloc.list ns) (hns' : Appended h alloc.oobList ns')
    (hdisj : ∀ n ∈ ns', n.1 ∉ ns.map Prod.fst) : ∃ h', freeAlloc alloc h = .ok h' := by
  obtain ⟨h₁, hrun₁, hbrk₁, hframe₁⟩ := freeRegions_eq hns.listed hns.nodup hns.length_le
  have hns₁ : Appended h₁ alloc.oobList ns' :=
    hns'.congr (fun n hn => hframe₁ n.1 (hdisj n hn)) hbrk₁.ge
  obtain ⟨h₂, hrun₂, -, -⟩ := freeRegions_eq hns₁.listed hns₁.nodup hns₁.length_le
  refine ⟨h₂, ?_⟩
  unfold freeAlloc
  rw [hns.list_eq, hns'.list_eq, hrun₁, bind_ok]
  exact hrun₂

/-- The two buffers, queued and then filled in. -/
theorem resizeOutput_eq {dindBlock : ℕ} {dind ind : Mem} :
    let s₁ := (queueBlock g.info.blockSize dindBlock s).2
    let s₂ := (s₁.calloc (g.info.blockSize * g.info.bgDescReserveBlocks)).2.addChunk
      (.buffer (s.out.brk + 1) 0) (u32 (g.info.blockSize * g.info.bgDescReserveBlocks))
      (g.reservedStart 0)
    ((s₂.setBuffer s.out.brk dind).setBuffer (s.out.brk + 1) ind).out =
      resizeOutput g s.out dindBlock dind ind := by
  simp only [queueBlock, State.calloc, State.addChunk, State.setBuffer, resizeOutput,
    Output.mk.injEq, List.append_assoc, List.cons_append, List.nil_append, true_and, and_true]
  funext id
  by_cases hind : id = s.out.brk + 1
  · subst hind
    simp
  · by_cases hdind : id = s.out.brk
    · subst hdind
      simp
    · simp [Function.update_of_ne hind, Function.update_of_ne hdind]

include hg hbs hreserve in
/-- All that the call does besides its loop. -/
theorem ext4CreateResizeInode_eq (m : Mem) (base : ℕ) (hpos : 0 < g.info.bgDescReserveBlocks)
    (hinv : GroupsInv g s.bgs) (hfree : ∃ i < g.aux.groups, 0 < (s.bgs i).freeBlocks)
    (hzero : g.supers[0]? = some 0) :
    ∃ alloc h bgs regions dindBlock, Reads g alloc h ∧ dindBlock < 2 ^ 32 ∧
      ext4CreateResizeInode g m base s = (do
        let (dind, ind) ← resizeLoop g alloc h g.supers.length g.info.bgDescReserveBlocks 0
          (Mem.zero, Mem.zero)
        .ok (resizeInode g m base dindBlock,
          ⟨bgs, regions, resizeOutput g s.out dindBlock dind ind⟩)) := by
  have hcreate : Appended s.regions createAllocation.list [] := Appended.nil _
  obtain ⟨alloc, h, ns, hloop, hns, hoob, hpieces⟩ := reserveInodeLoop_eq hg hbs hreserve
    g.aux.groups (show 0 + g.aux.groups ≤ _ by omega) hcreate
  replace hpieces : ns.map Prod.snd = g.supers.map g.reserved := by
    rw [hpieces, List.map_nil, List.nil_append, ← List.range_eq_range']
    rfl
  have hlen : lenOf (ns.map Prod.snd) = g.supers.length * g.info.bgDescReserveBlocks := by
    rw [hpieces, Geometry.lenOf_reserved]
  have hlt : lenOf (ns.map Prod.snd) < 2 ^ 32 := by
    rw [hpieces]
    exact (Geometry.length_reserved_le hg hbs hreserve).trans_lt hg.lenBlocks_lt
  have hcount : blockAllocationLen alloc h =
      .ok (g.supers.length * g.info.bgDescReserveBlocks) := by
    unfold blockAllocationLen
    rw [hns.list_eq]
    simp only
    rw [allocationLenLoop_eq hns.listed hns.length_le (by omega), Nat.zero_add, hlen]
  obtain ⟨alloc', s', a, p, hrun, hout, hns', hoob', hfresh, hplen⟩ :=
    appendOobAllocation_one (s := { s with regions := h }) hg hinv hfree hns hoob
  have hdind : getOobBlock alloc' 0 s'.regions = .ok (u32 p.block) := by
    obtain ⟨fuel, hfuel⟩ : ∃ fuel, s'.regions.brk = fuel + 1 :=
      ⟨s'.regions.brk - 1, by have := hoob'.length_le; simp at this; omega⟩
    obtain ⟨prev, hderef⟩ := hoob'.listed.deref
    unfold getOobBlock
    rw [hoob'.list_eq]
    show getBlockLoop s'.regions s'.regions.brk (some a) 0 = _
    rw [hfuel, getBlockLoop, hderef, bind_ok, if_pos (by simp [Piece.region, hplen])]
    rfl
  have hreads := hns'.reads hg hbs hreserve hpieces
  have hfirst : getBlock alloc' 0 s'.regions = .ok (g.reservedStart 0) := by
    simpa using hreads 0 0 0 hzero hpos
  obtain ⟨regions, hfreed⟩ := freeAlloc_eq hns' hoob' (by simpa using hfresh)
  refine ⟨alloc', s'.regions, s'.bgs, regions, u32 p.block, hreads, u32_lt _, ?_⟩
  unfold ext4CreateResizeInode inodeAttachResize
  rw [hloop, bind_ok]
  simp only
  rw [hcount, bind_ok, if_neg hpos.ne', if_neg (by simp), Nat.mul_div_cancel _ hpos, hrun, bind_ok]
  simp only
  rw [hdind, bind_ok]
  simp only [queueBlock, State.calloc, State.addChunk]
  rw [hfirst, bind_ok]
  rw [Function.update_self, Function.update_of_ne (Nat.succ_ne_self _).symm, Function.update_self]
  rcases resizeLoop g alloc' s'.regions g.supers.length g.info.bgDescReserveBlocks 0
    (Mem.zero, Mem.zero) with stop | ⟨dind, ind⟩
  · rfl
  · replace hout : s'.out = s.out := hout
    rw [bind_ok, bind_ok, bind_ok]
    simp only [State.setBuffer]
    rw [hfreed, bind_ok, ← hout, ← resizeOutput_eq]
    rfl

end Call

/-! ## The rotation -/

section Rotation

variable {d n : ℕ} (hd : 0 < d) (hlt : d < 2 ^ 32)

theorem sub32_mod_of_dvd (hdvd : n ∣ 2 ^ 32) (i : ℕ) :
    sub32 i d % n = (i + (2 ^ 32 - d)) % n := by
  unfold sub32 u32
  exact Nat.mod_mod_of_dvd _ hdvd

/-- When `n` divides `2 ^ 32`, the rotation is one. -/
theorem sub32_mod_injOn (hdvd : n ∣ 2 ^ 32) {i j : ℕ} (hi : i < n) (hj : j < n)
    (h : sub32 i d % n = sub32 j d % n) : i = j := by
  rw [sub32_mod_of_dvd hdvd, sub32_mod_of_dvd hdvd] at h
  have hmod : i % n = j % n := Nat.ModEq.add_right_cancel' (2 ^ 32 - d) h
  rwa [Nat.mod_eq_of_lt hi, Nat.mod_eq_of_lt hj] at hmod

include hlt in
theorem sub32_mod_self (hdvd : n ∣ 2 ^ 32) : sub32 (d % n) d % n = 0 := by
  rw [sub32_mod_of_dvd hdvd]
  calc (d % n + (2 ^ 32 - d)) % n = (d + (2 ^ 32 - d)) % n := Nat.mod_add_mod _ _ _
    _ = 2 ^ 32 % n := by rw [Nat.add_sub_cancel' hlt.le]
    _ = 0 := Nat.mod_eq_zero_of_dvd hdvd

include hd hlt in
/-- When it does not, either position `d % n` is wrong or two positions agree. -/
theorem exists_sub32_collision (hpos : 0 < n) (hn : n < 2 ^ 32) (hdvd : ¬ n ∣ 2 ^ 32)
    (hfirst : sub32 (d % n) d % n = 0) :
    ∃ i < n, ∃ j < n, i ≠ j ∧ sub32 i d % n = sub32 j d % n := by
  set w := 2 ^ 32 % n with hw
  have hwlt : w < n := Nat.mod_lt _ hpos
  have hwpos : 0 < w := Nat.pos_of_ne_zero fun h => hdvd (Nat.dvd_of_mod_eq_zero h)
  -- below `d` the difference has wrapped
  have hwrap : ∀ i < d, sub32 i d = 2 ^ 32 - (d - i) := by
    intro i hi
    unfold sub32 u32
    omega
  have hplain : ∀ i, d ≤ i → i < n → sub32 i d = i - d := fun i hi hin =>
    sub32_of_le hi (by omega)
  have hquot : n * (2 ^ 32 / n) + w = 2 ^ 32 := Nat.div_add_mod _ _
  rcases Nat.lt_or_ge d n with hdn | hdn
  · rcases Nat.lt_or_ge d w with hdw | hdw
    · -- positions `0` and `w`
      refine ⟨0, hpos, w, hwlt, hwpos.ne, ?_⟩
      rw [hwrap 0 hd, hplain w hdw.le hwlt, Nat.mod_eq_of_lt (show w - d < n by omega)]
      have hsum : 2 ^ 32 - (d - 0) = w - d + n * (2 ^ 32 / n) := by omega
      rw [hsum, Nat.add_mul_mod_self_left]
      exact Nat.mod_eq_of_lt (by omega)
    · -- positions `d - w` and `d`
      refine ⟨d - w, by omega, d, hdn, by omega, ?_⟩
      rw [hwrap (d - w) (by omega), hplain d le_rfl hdn]
      have hsum : 2 ^ 32 - (d - (d - w)) = n * (2 ^ 32 / n) := by omega
      rw [hsum, Nat.mul_mod_right, Nat.sub_self, Nat.zero_mod]
  · -- position `d % n` holds block `w`
    exfalso
    have hrem := Nat.mod_lt d hpos
    have hdiv := Nat.div_add_mod d n
    rw [hwrap (d % n) (by omega)] at hfirst
    have hback : d - d % n = n * (d / n) := by omega
    rw [hback] at hfirst
    refine hdvd ?_
    have hle : n * (d / n) ≤ 2 ^ 32 := by omega
    exact (Nat.dvd_sub_iff_left hle (Nat.dvd_mul_right _ _)).mp (Nat.dvd_of_mod_eq_zero hfirst)

end Rotation

/-! ## The result -/

/-- What the doubly indirect block `dind` and the indirect blocks `ind` have to
hold: the reserved blocks of group zero, each once and rotated by the number of
descriptor blocks, and for each of them its counterparts in the other groups with
a superblock, in order and with nothing behind them. -/
structure ReservedOnce (g : Geometry) (dind ind : Mem) : Prop where
  once : ((List.range g.info.bgDescReserveBlocks).map fun i => dind.load (4 * i) 4).Perm
    (g.reserved 0).blocks
  first : dind.load (4 * (g.aux.bgDescBlocks % g.info.bgDescReserveBlocks)) 4 = g.reservedStart 0
  copies : ∀ r < g.info.bgDescReserveBlocks,
    ((List.range (g.info.blockSize / 4)).map fun k => ind.load (r * g.info.blockSize + 4 * k) 4) =
      g.supers.tail.map (g.reservedStart · + r) ++
        List.replicate (g.info.blockSize / 4 - g.supers.tail.length) 0

/-- The call returns, it has queued the doubly indirect block at the block that
the inode names and the indirect blocks at the reserved blocks of group zero, and
they list the reserved blocks. -/
def ListsReserved (g : Geometry) (m : Mem) (base : ℕ) (s : State) : Prop :=
  ∃ m' s' dind ind, ext4CreateResizeInode g m base s = .ok (m', s') ∧
    newChunks s s' = [
      ⟨.buffer dind 0, g.info.blockSize, ((Inode.iBlock EXT4_DIND_BLOCK).at_ base).get m'⟩,
      ⟨.buffer ind 0, g.info.blockSize * g.info.bgDescReserveBlocks, g.reservedStart 0⟩] ∧
    ReservedOnce g (s'.out.buffers dind).bytes (s'.out.buffers ind).bytes

section Result

variable {g : Geometry}

theorem IndFilled.copies {P : ℕ → Prop} {ind : Mem} (hind : IndFilled g P ind)
    (hfew : g.supers.length - 1 ≤ g.info.blockSize / 4) {r : ℕ}
    (hr : r < g.info.bgDescReserveBlocks) (hP : P r) :
    ((List.range (g.info.blockSize / 4)).map fun k => ind.load (r * g.info.blockSize + 4 * k) 4) =
      g.supers.tail.map (g.reservedStart · + r) ++
        List.replicate (g.info.blockSize / 4 - g.supers.tail.length) 0 := by
  have hlen : g.supers.tail.length = g.supers.length - 1 := List.length_tail
  refine List.ext_getElem (by simp; omega) fun k hk _ => ?_
  simp only [List.length_map, List.length_range] at hk
  simp only [List.getElem_map, List.getElem_range, List.getElem_append, List.length_map,
    List.getElem_tail, List.getElem_replicate]
  split
  · rename_i hlt
    exact hind.listed r hr hP k _ (List.getElem?_eq_getElem (by omega))
  · rename_i hge
    have hzero : ∀ x < 4, ind (r * g.info.blockSize + 4 * k + x) = UInt8.ofNat (0 / 256 ^ x) := by
      intro x hx
      rw [Nat.add_assoc, hind.zero r hr (4 * k + x) (by omega) fun _ => by omega, Nat.zero_div]
      rfl
    simpa using load_eq_of_bytes hzero

/-- There is a descriptor block. -/
theorem Geometry.bgDescBlocks_pos (hg : g.Fits) (hbs : 1024 ≤ g.info.blockSize)
    (hreserve : g.info.bgDescReserveBlocks ≤ g.info.blockSize / 4) (hgroups : 0 < g.aux.groups)
    (hzero : g.hasSuperBlock 0 = true) : 0 < g.aux.bgDescBlocks ∧ g.aux.bgDescBlocks < 2 ^ 32 := by
  have hof := FsAuxInfo.of_create g.create
  have hraw : g.info.rawGroups < 2 ^ 32 := u32_lt _
  have hsize := g.info.blockSize_lt
  have hone : 0 < g.info.rawGroups := by
    by_contra hnone
    have hnone : g.info.rawGroups = 0 := by omega
    -- the count of groups can only have wrapped
    have hmany : g.aux.groups = 2 ^ 32 - 1 := by
      have heq := hof.groups
      rw [hnone] at heq
      split at heq
      · rw [heq]
        rfl
      · omega
    have hlast := hg.start_lt (show 2 ^ 32 - 2 < g.aux.groups by omega)
    have hlen := hg.lenBlocks_lt
    have hheader := (hg.header_le 0 hgroups).trans (groupSize_le (g := g) 0)
    rw [headerBlocks_of_super hbs hreserve hzero] at hheader
    have htwo : (2 ^ 32 - 2) * 2 ≤ (2 ^ 32 - 2) * g.info.blocksPerGroup :=
      Nat.mul_le_mul_left _ (by omega)
    unfold start at hlast
    omega
  have hsum : g.info.rawGroups * sizeofGroupDesc + g.info.blockSize - 1 < 2 ^ 64 := by
    unfold sizeofGroupDesc
    omega
  have hdiv :
      0 < (g.info.rawGroups * sizeofGroupDesc + g.info.blockSize - 1) / g.info.blockSize := by
    refine Nat.div_pos ?_ (by omega)
    unfold sizeofGroupDesc
    omega
  have hle : (g.info.rawGroups * sizeofGroupDesc + g.info.blockSize - 1) / g.info.blockSize ≤
      (g.info.rawGroups * sizeofGroupDesc + g.info.blockSize - 1) / 1024 :=
    Nat.div_le_div_left hbs (by omega)
  have hval : g.aux.bgDescBlocks =
      (g.info.rawGroups * sizeofGroupDesc + g.info.blockSize - 1) / g.info.blockSize := by
    rw [hof.bgDescBlocks]
    unfold FsInfo.bgDescBlocks divRoundUp64
    rw [u64_of_lt hsum]
    unfold sizeofGroupDesc at hle ⊢
    exact u32_of_lt (by omega)
  rw [hval]
  unfold sizeofGroupDesc at hdiv hle ⊢
  omega

/-- The inode names the doubly indirect block. -/
theorem iBlock_resizeInode {m : Mem} {base dindBlock : ℕ} (hlt : dindBlock < 2 ^ 32) :
    ((Inode.iBlock EXT4_DIND_BLOCK).at_ base).get (resizeInode g m base dindBlock) = dindBlock := by
  unfold resizeInode finishResize
  simp only
  rw [Field.get_assign_of_disjoint]
  · refine (Field.get_assign ?_ 0 rfl m).trans (Nat.mod_eq_of_lt hlt)
    simp [Field.Disjoint, Field.at_, Inode.iBlock, Inode.iBlockOffset, Inode.iFlags,
      Inode.iBlocksLo, Inode.iBlocksHigh, Inode.iSizeLo, Inode.iSizeHigh, EXT4_DIND_BLOCK,
      EXT4_IND_BLOCK, EXT4_NDIR_BLOCKS]
  · simp [Field.Disjoint, Field.at_, Inode.iBlock, Inode.iBlockOffset, Inode.iMode,
      Inode.iLinksCount, EXT4_DIND_BLOCK, EXT4_IND_BLOCK, EXT4_NDIR_BLOCKS]

/-- The rotation decides whether the lists are right. -/
theorem reservedOnce_iff {dind ind : Mem} (hpos : 0 < g.info.bgDescReserveBlocks)
    (hd : 0 < g.aux.bgDescBlocks) (hdlt : g.aux.bgDescBlocks < 2 ^ 32)
    (hfew : g.supers.length - 1 ≤ g.info.blockSize / 4)
    (hwords : ∀ i < g.info.bgDescReserveBlocks,
      dind.load (4 * i) 4 = g.reservedStart 0 + turned g i)
    (hind : IndFilled g (fun r => ∃ i < g.info.bgDescReserveBlocks, turned g i = r) ind) :
    ReservedOnce g dind ind ↔ g.info.bgDescReserveBlocks ∣ 2 ^ 32 := by
  have hmap : ((List.range g.info.bgDescReserveBlocks).map fun i => dind.load (4 * i) 4) =
      (List.range g.info.bgDescReserveBlocks).map fun i => g.reservedStart 0 + turned g i :=
    List.map_congr_left fun i hi => hwords i (List.mem_range.mp hi)
  have hrem := Nat.mod_lt g.aux.bgDescBlocks hpos
  constructor
  · intro h
    by_contra hdvd
    have hfirst : turned g (g.aux.bgDescBlocks % g.info.bgDescReserveBlocks) = 0 := by
      have := h.first
      rw [hwords _ hrem] at this
      omega
    obtain ⟨i, hi, j, hj, hne, heq⟩ :=
      exists_sub32_collision hd hdlt hpos g.info.bgDescReserveBlocks_lt hdvd hfirst
    have hnodup := h.once.nodup_iff.mpr (Piece.nodup_blocks _)
    rw [hmap] at hnodup
    refine hne (List.inj_on_of_nodup_map hnodup (List.mem_range.mpr hi) (List.mem_range.mpr hj) ?_)
    exact congrArg (g.reservedStart 0 + ·) heq
  · intro hdvd
    have hinj : ∀ i ∈ List.range g.info.bgDescReserveBlocks,
        ∀ j ∈ List.range g.info.bgDescReserveBlocks,
          g.reservedStart 0 + turned g i = g.reservedStart 0 + turned g j → i = j := by
      intro i hi j hj heq
      exact sub32_mod_injOn hdvd (List.mem_range.mp hi) (List.mem_range.mp hj)
        (Nat.add_left_cancel heq)
    have hperm : ((List.range g.info.bgDescReserveBlocks).map
        fun i => g.reservedStart 0 + turned g i).Perm (g.reserved 0).blocks := by
      have hnodup := List.Nodup.map_on hinj List.nodup_range
      refine (hnodup.subperm fun b hb => ?_).perm_of_length_le (by simp [Piece.blocks, Geometry.reserved])
      obtain ⟨i, -, rfl⟩ := List.mem_map.mp hb
      have := turned_lt hpos i
      rw [Piece.mem_blocks]
      simp only [Geometry.reserved]
      omega
    refine ⟨hmap ▸ hperm, ?_, fun r hr => hind.copies hfew hr ?_⟩
    · rw [hwords _ hrem]
      unfold turned
      rw [sub32_mod_self hdlt hdvd, Nat.add_zero]
    · -- block `r` is one of those listed
      have hmem : g.reservedStart 0 + r ∈ (g.reserved 0).blocks := by
        rw [Piece.mem_blocks]
        simp only [Geometry.reserved]
        omega
      obtain ⟨i, hi, heq⟩ := List.mem_map.mp (hperm.mem_iff.mpr hmem)
      exact ⟨i, List.mem_range.mp hi, Nat.add_left_cancel heq⟩

/-- When the resize inode lists the reserved blocks, for a call that finds a free
block for its doubly indirect block. -/
theorem listsReserved_iff_dvd {s : State} (m : Mem) (base : ℕ) (hg : g.Fits)
    (hbs : 1024 ≤ g.info.blockSize) (hfour : 4 ∣ g.info.blockSize)
    (hreserve : g.info.bgDescReserveBlocks ≤ g.info.blockSize / 4)
    (hsparse : g.info.featRoCompat &&& EXT4_FEATURE_RO_COMPAT_SPARSE_SUPER ≠ 0)
    (hpos : 0 < g.info.bgDescReserveBlocks) (hinv : GroupsInv g s.bgs)
    (hfree : ∃ i < g.aux.groups, 0 < (s.bgs i).freeBlocks) :
    ListsReserved g m base s ↔ g.info.blockSize * g.info.bgDescReserveBlocks < 2 ^ 32 ∧
      g.info.bgDescReserveBlocks ∣ 2 ^ 32 := by
  have hgroups : 0 < g.aux.groups := by
    obtain ⟨i, hi, -⟩ := hfree
    omega
  have hsuper : g.hasSuperBlock 0 = true := by
    unfold Geometry.hasSuperBlock ext4BgHasSuperBlock
    rw [if_neg hsparse]
    rfl
  have hzero : g.supers[0]? = some 0 := by
    obtain ⟨n, hn⟩ : ∃ n, g.aux.groups = n + 1 := ⟨g.aux.groups - 1, by omega⟩
    unfold Geometry.supers
    rw [hn, List.range_succ_eq_map, List.filter_cons_of_pos hsuper]
    rfl
  have hcount : g.aux.groups ≤ 2 ^ 32 := by
    have hof := (FsAuxInfo.of_create g.create).groups
    split at hof
    · rw [hof]
      exact (u32_lt _).le
    · rw [hof]
      exact (u32_lt _).le
  have hfew : g.supers.length - 1 ≤ g.info.blockSize / 4 := by
    have := Geometry.length_supers_le hsparse hcount
    omega
  obtain ⟨hd, hdlt⟩ := Geometry.bgDescBlocks_pos hg hbs hreserve hgroups hsuper
  have hlen : g.supers.length * g.info.bgDescReserveBlocks < 2 ^ 32 := by
    rw [← Geometry.lenOf_reserved]
    exact (Geometry.length_reserved_le hg hbs hreserve).trans_lt hg.lenBlocks_lt
  have hblocks : ∀ i ∈ g.supers, ∀ r < g.info.bgDescReserveBlocks,
      g.reservedStart i + r < 2 ^ 32 := by
    intro i hi r hr
    have hend := (Geometry.reserved_lt hg hbs hreserve hi).2
    have := hg.lenBlocks_lt
    omega
  obtain ⟨alloc, h, bgs, regions, dindBlock, hreads, hdind, hcall⟩ :=
    ext4CreateResizeInode_eq hg hbs hreserve m base hpos hinv hfree hzero
  -- what the buffers hold as soon as their length fits the queue
  have hloop : g.info.blockSize * g.info.bgDescReserveBlocks < 2 ^ 32 → ∃ dind ind,
      resizeLoop g alloc h g.supers.length g.info.bgDescReserveBlocks 0 (Mem.zero, Mem.zero) =
        .ok (dind, ind) ∧
      (ReservedOnce g dind ind ↔ g.info.bgDescReserveBlocks ∣ 2 ^ 32) := by
    intro hsize
    obtain ⟨dind, ind, hrun, hwords, -, hind⟩ := resizeLoop_eq hreads hfour hpos hreserve hsize
      hlen hfew hzero hblocks g.info.bgDescReserveBlocks 0 Mem.zero Mem.zero
      (fun _ => False) (Nat.zero_add _) ⟨fun _ _ h => h.elim, fun _ _ _ _ _ => rfl⟩
    refine ⟨dind, ind, hrun, reservedOnce_iff hpos hd hdlt hfew
      (fun i hi => hwords i (Nat.zero_le _) (by omega)) ?_⟩
    simpa only [Nat.zero_le, true_and, Nat.zero_add, or_false] using hind
  constructor
  · rintro ⟨m', s', dind, ind, hrun, hchunks, honce⟩
    rw [hcall, bind_eq_ok] at hrun
    obtain ⟨⟨dind', ind'⟩, hrun', hrun⟩ := hrun
    simp only [Except.ok.injEq, Prod.mk.injEq] at hrun
    obtain ⟨rfl, rfl⟩ := hrun
    simp only [newChunks, resizeOutput, List.drop_left, List.cons.injEq, Chunk.mk.injEq,
      Source.buffer.injEq, and_true] at hchunks
    obtain ⟨⟨rfl, -⟩, rfl, hsize⟩ := hchunks
    have hsize : g.info.blockSize * g.info.bgDescReserveBlocks < 2 ^ 32 := hsize ▸ u32_lt _
    obtain ⟨dind, ind, hrun, hiff⟩ := hloop hsize
    rw [hrun, Except.ok.injEq, Prod.mk.injEq] at hrun'
    obtain ⟨rfl, rfl⟩ := hrun'
    refine ⟨hsize, hiff.mp ?_⟩
    simpa [resizeOutput] using honce
  · rintro ⟨hsize, hdvd⟩
    obtain ⟨dind, ind, hrun, hiff⟩ := hloop hsize
    rw [hrun, bind_ok] at hcall
    refine ⟨_, _, s.out.brk, s.out.brk + 1, hcall, ?_, ?_⟩
    · simp only [newChunks, resizeOutput, List.drop_left, iBlock_resizeInode hdind, u32_of_lt hsize]
    · simpa [resizeOutput] using hiff.mpr hdvd

/-- `make_ext4fs` keeps superblocks in few groups. -/
theorem sparse_of_makeInfo {user info : FsInfo} (h : makeInfo user = some info) :
    info.featRoCompat &&& EXT4_FEATURE_RO_COMPAT_SPARSE_SUPER ≠ 0 := by
  unfold makeInfo at h
  simp only at h
  split at h
  · cases h
  · split at h
    · cases h
    · cases h
      intro hzero
      have hbit := congrArg (Nat.testBit · 0) hzero
      simp [EXT4_FEATURE_RO_COMPAT_SPARSE_SUPER, EXT4_FEATURE_RO_COMPAT_LARGE_FILE,
        EXT4_FEATURE_RO_COMPAT_GDT_CSUM] at hbit

/-- **The resize inode lists every reserved block once** exactly if the number of
reserved blocks is a divisor of `2 ^ 32` and the indirect blocks together have a
32-bit length. -/
theorem listsReserved_iff {user : FsInfo} {s : State} (m : Mem) (base : ℕ)
    (hmake : makeInfo user = some g.info) (hg : g.Fits)
    (hbs : ∃ k, g.info.blockSize = 1024 * 2 ^ k) (hpos : 1 ≤ g.info.bgDescReserveBlocks)
    (hreach : Reachable g s) (hfree : ∃ i < g.aux.groups, 0 < (s.bgs i).freeBlocks) :
    ListsReserved g m base s ↔ g.info.blockSize * g.info.bgDescReserveBlocks < 2 ^ 32 ∧
      g.info.bgDescReserveBlocks ∣ 2 ^ 32 := by
  obtain ⟨k, hk⟩ := hbs
  have hpow : 1 ≤ 2 ^ k := Nat.one_le_two_pow
  exact listsReserved_iff_dvd m base hg (by omega) (by omega) (reserve_le_of_makeInfo hmake)
    (sparse_of_makeInfo hmake) hpos (hreach.inv hg).1 hfree

end Result

/-- 128 MiB in blocks of 1 KiB: sixteen groups, and as many reserved blocks as an
indirect block lists. -/
def info128M : FsInfo := (makeInfo (userInfo (2 ^ 10) (2 ^ 27))).get (by decide)

def geometry128M : Geometry where
  info := info128M
  aux := (ext4CreateFsAuxInfo info128M).get (by decide)
  create := (Option.some_get _).symm

/-- 64 MiB in blocks of 4 KiB: one group with seven reserved blocks. -/
def geometry64M : Geometry where
  info := info64M
  aux := (ext4CreateFsAuxInfo info64M).get (by decide)
  create := (Option.some_get _).symm

theorem fits_geometry128M : geometry128M.Fits :=
  ⟨by decide, by decide, by decide, by decide⟩

theorem fits_geometry64M : geometry64M.Fits :=
  ⟨by decide, by decide, by decide, by decide⟩

theorem listsReserved_iff_128M : ∃ s, Reachable geometry128M s ∧
    ListsReserved geometry128M Mem.zero 0 s := by
  obtain ⟨s, hreach, hfresh⟩ := exists_initial fits_geometry128M
  have hfree : 0 < (s.bgs 0).freeBlocks := by
    rw [(hfresh 0 (by decide)).free]
    decide
  have hmake : makeInfo (userInfo 1024 (2 ^ 27)) = some info128M := (Option.some_get _).symm
  refine ⟨s, hreach, ?_⟩
  exact (listsReserved_iff Mem.zero 0 hmake fits_geometry128M
    ⟨0, by decide⟩ (by decide) hreach ⟨0, by decide, hfree⟩).mpr
    ⟨by decide, by decide⟩

/-- The entries `0` and `4` of the doubly indirect block are the same, and one of
the seven blocks is not listed. -/
theorem not_listsReserved_64M : ∃ s, Reachable geometry64M s ∧
    makeInfo (userInfo 4096 (2 ^ 26)) = some info64M ∧
    (∃ i < geometry64M.aux.groups, 0 < (s.bgs i).freeBlocks) ∧
    ¬ ListsReserved geometry64M Mem.zero 0 s := by
  obtain ⟨s, hreach, hfresh⟩ := exists_initial fits_geometry64M
  have hfree : 0 < (s.bgs 0).freeBlocks := by
    rw [(hfresh 0 (by decide)).free]
    decide
  refine ⟨s, hreach, (Option.some_get _).symm, ⟨0, by decide, hfree⟩, ?_⟩
  rw [listsReserved_iff_dvd Mem.zero 0 fits_geometry64M (by decide) (by decide)
    (by decide) (by decide) (by decide) (hreach.inv fits_geometry64M).1
    ⟨0, by decide, hfree⟩]
  decide

end SystemExtras.Ext4
