import SystemExtras.Ext4.Takes

/-!
# Walking and splitting allocations

The functions of `allocate.c` that read an allocation region by region, and
`reserve_oob_blocks`, which cuts blocks off its front and moves them to a second
list.  All reading goes along the `next` pointers: `Listed` is what the readers
see of a list, and it holds of lists whose `prev` and `last` pointers have been
left behind by the surgery.

`reserve_oob_blocks` and `reduce_allocation` are the two ways in which an
allocation that was made one block too large is cut to size; `Listed` after
either of them is `reserveOobBlocks_one` and `Listed.shrink`.
-/

namespace SystemExtras.Ext4

/-! ## Reading -/

/-- The loop of `block_allocation_num_regions`. -/
def numRegionsLoop (h : RegionHeap) : ℕ → Option ℕ → ℕ → Except Stop ℕ
  | _, none, i => .ok i
  | 0, some _, _ => .error .hang
  | fuel + 1, some a, i => do
      let r ← h.deref (some a)
      numRegionsLoop h fuel r.next (i + 1)

/-- `block_allocation_num_regions`. -/
def blockAllocationNumRegions (alloc : BlockAllocation) (h : RegionHeap) : Except Stop ℕ :=
  numRegionsLoop h h.brk alloc.list.first 0

/-- The loop of `get_block` and `get_oob_block`. -/
def getBlockLoop (h : RegionHeap) : ℕ → Option ℕ → ℕ → Except Stop ℕ
  | _, none, _ => .ok EXT4_ALLOCATE_FAILED
  | 0, some _, _ => .error .hang
  | fuel + 1, some a, block => do
      let r ← h.deref (some a)
      if block < r.len then .ok (u32 (r.block + block))
      else getBlockLoop h fuel r.next (block - r.len)

/-- `get_block`. -/
def getBlock (alloc : BlockAllocation) (block : ℕ) (h : RegionHeap) : Except Stop ℕ :=
  getBlockLoop h h.brk alloc.list.iter (u32 (block + alloc.list.partialIter))

/-- `get_oob_block`. -/
def getOobBlock (alloc : BlockAllocation) (block : ℕ) (h : RegionHeap) : Except Stop ℕ :=
  getBlockLoop h h.brk alloc.oobList.iter (u32 (block + alloc.oobList.partialIter))

/-- `get_region`: the block and the length of the current region. -/
def getRegion (alloc : BlockAllocation) (h : RegionHeap) : Except Stop (ℕ × ℕ) := do
  let r ← h.deref alloc.list.iter
  .ok (r.block, sub32 r.len alloc.list.partialIter)

/-- `get_next_region`. -/
def getNextRegion (alloc : BlockAllocation) (h : RegionHeap) : Except Stop BlockAllocation := do
  let r ← h.deref alloc.list.iter
  .ok { alloc with list := { alloc.list with iter := r.next, partialIter := 0 } }

/-- `last_region`. -/
def lastRegion (alloc : BlockAllocation) : Bool := alloc.list.iter.isNone

/-- `rewind_alloc`. -/
def rewindAlloc (alloc : BlockAllocation) : BlockAllocation :=
  { alloc with list := { alloc.list with iter := alloc.list.first, partialIter := 0 } }

/-! ## Splitting -/

/-- The loop of `do_split_allocation`: the region in which the split falls, and
how far into it. -/
def splitLoop (h : RegionHeap) : ℕ → Option ℕ → ℕ → Except Stop (Option ℕ × ℕ)
  | _, none, len => .ok (none, len)
  | 0, some _, _ => .error .hang
  | fuel + 1, some a, len => do
      let r ← h.deref (some a)
      if len ≥ r.len then splitLoop h fuel r.next (len - r.len) else .ok (some a, len)

/-- `do_split_allocation`.  The region after the new one keeps its `prev`. -/
def doSplitAllocation (alloc : BlockAllocation) (len : ℕ) (h : RegionHeap) :
    Except Stop (Option ℕ × BlockAllocation × RegionHeap) := do
  let (reg, len) ← splitLoop h h.brk alloc.list.iter len
  if len > 0 then
    match reg with
    | none => .ok (none, alloc, h)
    | some reg => do
        let r ← h.deref (some reg)
        let (new, h) := h.malloc ⟨u32 (r.block + len), r.len - len, r.bg, r.next, some reg⟩
        .ok (alloc.list.iter, { alloc with list := { alloc.list with iter := some new } },
          h.write reg { r with next := some new, len := len })
  else .ok (reg, alloc, h)

/-- `split_allocation`. -/
def splitAllocation (alloc : BlockAllocation) (len : ℕ) (h : RegionHeap) :
    Except Stop (Option ℕ × BlockAllocation × RegionHeap) := do
  let (_, alloc, h) ← doSplitAllocation alloc alloc.list.partialIter h
  let (middle, alloc, h) ← doSplitAllocation alloc len h
  .ok (middle, { alloc with list := { alloc.list with partialIter := 0 } }, h)

/-- `region_list_remove`. -/
def regionListRemove (list : RegionList) (reg : ℕ) (h : RegionHeap) :
    Except Stop (RegionList × RegionHeap) := do
  let r ← h.deref (some reg)
  let h ← match r.prev with
    | none => .ok h
    | some p => do
        let q ← h.deref (some p)
        .ok (h.write p { q with next := r.next })
  let h ← match r.next with
    | none => .ok h
    | some n => do
        let q ← h.deref (some n)
        .ok (h.write n { q with prev := r.prev })
  let list := if list.first = some reg then { list with first := r.next } else list
  let list := if list.last = some reg then { list with last := r.prev } else list
  let r ← h.deref (some reg)
  .ok (list, h.write reg { r with next := none, prev := none })

/-- `region_list_append`. -/
def regionListAppend (list : RegionList) (reg : ℕ) (h : RegionHeap) :
    Except Stop (RegionList × RegionHeap) := do
  match list.first with
  | none => do
      let r ← h.deref (some reg)
      .ok (⟨some reg, some reg, some reg, 0⟩, h.write reg { r with prev := none, next := none })
  | some _ => do
      let q ← h.deref list.last
      let h := h.write (list.last.getD 0) { q with next := some reg }
      let r ← h.deref (some reg)
      .ok ({ list with last := some reg }, h.write reg { r with prev := list.last, next := none })

/-- The loop of `reserve_oob_blocks`. -/
def moveOobLoop : ℕ → Option ℕ → BlockAllocation → RegionHeap →
    Except Stop (BlockAllocation × RegionHeap)
  | _, none, alloc, h => .ok (alloc, h)
  | 0, some _, _, _ => .error .hang
  | fuel + 1, some oob, alloc, h =>
      if some oob = alloc.list.iter then .ok (alloc, h)
      else do
        let r ← h.deref (some oob)
        let (list, h) ← regionListRemove alloc.list oob h
        let (oobList, h) ← regionListAppend alloc.oobList oob h
        moveOobLoop fuel r.next ⟨list, oobList⟩ h

/-- `reserve_oob_blocks`: whether it returns `0`, and the allocation and the heap
in either case. -/
def reserveOobBlocks (alloc : BlockAllocation) (blocks : ℕ) (h : RegionHeap) :
    Except Stop (Bool × BlockAllocation × RegionHeap) := do
  let (oob, alloc, h) ← splitAllocation alloc blocks h
  match oob with
  | none => .ok (false, alloc, h)
  | some oob => do
      let (alloc, h) ← moveOobLoop (h.brk + 1) (some oob) alloc h
      .ok (true, alloc, h)

/-! ## What the readers see -/

/-- The regions `ns`, each at its address, follow one another. -/
def Listed (h : RegionHeap) : List (ℕ × Piece) → Prop
  | [] => True
  | (a, p) :: rest => (∃ prev, h.node a = some (p.region (headAddr rest) prev)) ∧ Listed h rest

theorem Linked.listed {h : RegionHeap} {ns : List (ℕ × Piece)} :
    ∀ {prev : Option ℕ}, Linked h prev ns → Listed h ns := by
  induction ns with
  | nil => intro prev _; trivial
  | cons n rest ih =>
      intro prev hlink
      exact ⟨⟨prev, hlink.1⟩, ih hlink.2⟩

/-- A list does not notice changes elsewhere. -/
theorem Listed.congr {h h' : RegionHeap} {ns : List (ℕ × Piece)} (hlist : Listed h ns)
    (hsame : ∀ n ∈ ns, h'.node n.1 = h.node n.1) : Listed h' ns := by
  induction ns with
  | nil => trivial
  | cons n rest ih =>
      obtain ⟨⟨prev, hnode⟩, hrest⟩ := hlist
      refine ⟨⟨prev, ?_⟩, ih hrest fun m hm => hsame m (List.mem_cons_of_mem _ hm)⟩
      rw [hsame n List.mem_cons_self]
      exact hnode

/-- A list of regions is determined by where it begins. -/
theorem Listed.unique {h : RegionHeap} {ns : List (ℕ × Piece)} : ∀ {ns' : List (ℕ × Piece)},
    Listed h ns → Listed h ns' → headAddr ns = headAddr ns' → ns = ns' := by
  induction ns with
  | nil =>
      intro ns' _ _ hhead
      cases ns' with
      | nil => rfl
      | cons n' rest' => cases hhead
  | cons n rest ih =>
      intro ns' hlist hlist' hhead
      cases ns' with
      | nil => cases hhead
      | cons n' rest' =>
          obtain ⟨a, p⟩ := n
          obtain ⟨a', p'⟩ := n'
          obtain rfl : a = a' := Option.some.inj hhead
          obtain ⟨prev, hnode⟩ := hlist.1
          obtain ⟨prev', hnode'⟩ := hlist'.1
          rw [hnode, Option.some.injEq, Piece.region, Piece.region, Region.mk.injEq] at hnode'
          obtain ⟨hblock, hlen, hbg, hnext, -⟩ := hnode'
          have hp : p = p' := by
            cases p
            cases p'
            simp_all
          rw [hp, ih hlist.2 hlist'.2 hnext]

/-- The first region of a list may be cut short. -/
theorem Listed.shrink {h : RegionHeap} {a len : ℕ} {p : Piece} {rest : List (ℕ × Piece)}
    {prev : Option ℕ} (hlist : Listed h ((a, p) :: rest)) (hfresh : a ∉ rest.map Prod.fst) :
    Listed (h.write a (Piece.region ⟨p.block, len, p.bg⟩ (headAddr rest) prev))
      ((a, ⟨p.block, len, p.bg⟩) :: rest) := by
  refine ⟨⟨prev, RegionHeap.write_node_self _ _ _⟩, hlist.2.congr ?_⟩
  intro n hn
  refine RegionHeap.write_node_of_ne _ _ ?_
  rintro rfl
  exact hfresh (List.mem_map_of_mem hn)

section Readers

variable {h : RegionHeap} {ns : List (ℕ × Piece)}

theorem Listed.deref {a : ℕ} {p : Piece} {rest : List (ℕ × Piece)}
    (hlist : Listed h ((a, p) :: rest)) :
    ∃ prev, h.deref (some a) = .ok (p.region (headAddr rest) prev) := by
  obtain ⟨prev, hnode⟩ := hlist.1
  exact ⟨prev, RegionHeap.deref_some.mpr hnode⟩

theorem Listed.regionBlocks_eq : ∀ {fuel : ℕ}, Listed h ns → ns.length ≤ fuel →
    regionBlocks h fuel (headAddr ns) = blocksOf (ns.map Prod.snd) := by
  induction ns with
  | nil =>
      intro fuel _ _
      cases fuel <;> rfl
  | cons n rest ih =>
      intro fuel hlist hfuel
      cases fuel with
      | zero => simp at hfuel
      | succ fuel =>
          obtain ⟨⟨prev, hnode⟩, hrest⟩ := hlist
          have hih := ih hrest (Nat.le_of_succ_le_succ hfuel)
          show regionBlocks h (fuel + 1) (some n.1) = _
          simp only [regionBlocks, hnode, List.map_cons, blocksOf_cons, ← hih]
          rfl

theorem numRegionsLoop_eq : ∀ {fuel i : ℕ}, Listed h ns → ns.length ≤ fuel →
    numRegionsLoop h fuel (headAddr ns) i = .ok (i + ns.length) := by
  induction ns with
  | nil =>
      intro fuel i _ _
      cases fuel <;> rfl
  | cons n rest ih =>
      intro fuel i hlist hfuel
      cases fuel with
      | zero => simp at hfuel
      | succ fuel =>
          obtain ⟨prev, hderef⟩ := hlist.deref
          show numRegionsLoop h (fuel + 1) (some n.1) i = _
          rw [numRegionsLoop, hderef, bind_ok]
          simp only [Piece.region]
          rw [ih hlist.2 (Nat.le_of_succ_le_succ hfuel), List.length_cons]
          congr 1
          omega

end Readers

/-! ## `reserve_oob_blocks` on a fresh allocation -/

/-- A fresh allocation of regions linked from `a` on. -/
def freshAllocation (a : ℕ) : BlockAllocation :=
  { createAllocation with list := ⟨some a, some a, some a, 0⟩ }

section ReserveOob

variable {h : RegionHeap} {a : ℕ} {p : Piece} {next : Option ℕ}

theorem splitLoop_eq (hnode : h.node a = some (p.region next none)) (ha : a < h.brk) {len : ℕ}
    (hlen : len < p.len) : splitLoop h h.brk (some a) len = .ok (some a, len) := by
  obtain ⟨fuel, hfuel⟩ : ∃ fuel, h.brk = fuel + 1 := ⟨h.brk - 1, by omega⟩
  have hderef : h.deref (some a) = .ok (p.region next none) :=
    RegionHeap.deref_some.mpr hnode
  have hin : ¬ len ≥ (p.region next none).len := not_le.mpr hlen
  rw [hfuel, splitLoop, hderef, bind_ok, if_neg hin]

/-- The heap when the first block of the region at `a` is a region of its own and
the new region for the rest has `a` before it. -/
def splitHeap (h : RegionHeap) (a : ℕ) (p : Piece) (next prev : Option ℕ) : RegionHeap :=
  (h.malloc (Piece.region ⟨p.block + 1, p.len - 1, p.bg⟩ next (some a))).2.write a
    (Piece.region ⟨p.block, 1, p.bg⟩ (some h.brk) prev)

theorem splitAllocation_one (hnode : h.node a = some (p.region next none)) (ha : a < h.brk)
    (hlen : 2 ≤ p.len) (hblock : p.block + 1 < 2 ^ 32) :
    splitAllocation (freshAllocation a) 1 h = .ok (some a,
      { freshAllocation a with list := ⟨some a, some a, some h.brk, 0⟩ },
      splitHeap h a p next none) := by
  have hderef : h.deref (some a) = .ok (p.region next none) :=
    RegionHeap.deref_some.mpr hnode
  have hzero : doSplitAllocation (freshAllocation a) 0 h = .ok (some a, freshAllocation a, h) := by
    show (splitLoop h h.brk (some a) 0 >>= _) = _
    rw [splitLoop_eq hnode ha (by omega)]
    rfl
  have hone : doSplitAllocation (freshAllocation a) 1 h = .ok (some a,
      { freshAllocation a with list := ⟨some a, some a, some h.brk, 0⟩ },
      splitHeap h a p next none) := by
    show (splitLoop h h.brk (some a) 1 >>= _) = _
    rw [splitLoop_eq hnode ha (by omega), bind_ok]
    simp only [Nat.one_pos, gt_iff_lt, if_true, hderef, bind_ok, Piece.region, u32_of_lt hblock]
    rfl
  show (doSplitAllocation (freshAllocation a) 0 h >>= _) = _
  rw [hzero, bind_ok]
  simp only [hone, bind_ok]

/-- The heap after `reserve_oob_blocks`. -/
def oobHeap (h : RegionHeap) (a : ℕ) (p : Piece) (next : Option ℕ) : RegionHeap :=
  (h.malloc (Piece.region ⟨p.block + 1, p.len - 1, p.bg⟩ next none)).2.write a
    (Piece.region ⟨p.block, 1, p.bg⟩ none none)

theorem regionListRemove_splitHeap (ha : a < h.brk) :
    regionListRemove ⟨some a, some a, some h.brk, 0⟩ a (splitHeap h a p next none) =
      .ok (⟨some h.brk, none, some h.brk, 0⟩, oobHeap h a p next) := by
  have hne : h.brk ≠ a := by omega
  have hfirst : (splitHeap h a p next none).deref (some a) =
      .ok (Piece.region ⟨p.block, 1, p.bg⟩ (some h.brk) none) :=
    RegionHeap.deref_some.mpr (RegionHeap.write_node_self _ _ _)
  have hrest : (splitHeap h a p next none).deref (some h.brk) =
      .ok (Piece.region ⟨p.block + 1, p.len - 1, p.bg⟩ next (some a)) := by
    refine RegionHeap.deref_some.mpr ?_
    unfold splitHeap
    rw [RegionHeap.write_node_of_ne _ _ hne, RegionHeap.malloc_node_self]
  have hagain : ∀ r, ((splitHeap h a p next none).write h.brk r).deref (some a) =
      .ok (Piece.region ⟨p.block, 1, p.bg⟩ (some h.brk) none) := by
    intro r
    refine RegionHeap.deref_some.mpr ?_
    rw [RegionHeap.write_node_of_ne _ _ hne.symm]
    exact RegionHeap.write_node_self _ _ _
  unfold regionListRemove
  rw [hfirst, bind_ok]
  simp only [Piece.region, bind_ok]
  simp only [Piece.region] at hrest hagain
  simp only [hrest, bind_ok, hagain, if_true]
  congr 2
  unfold oobHeap splitHeap RegionHeap.write RegionHeap.malloc
  simp only [RegionHeap.mk.injEq, and_true, Piece.region]
  funext q
  by_cases hqa : q = a
  · subst hqa
    simp
  · by_cases hqb : q = h.brk
    · subst hqb
      simp [Function.update_of_ne hqa]
    · simp [Function.update_of_ne hqa, Function.update_of_ne hqb]

/-- One block is cut off a first region of several: the block is a region of its
own in the second list, and the rest of the region is a new one. -/
theorem reserveOobBlocks_one (hnode : h.node a = some (p.region next none)) (ha : a < h.brk)
    (hlen : 2 ≤ p.len) (hblock : p.block + 1 < 2 ^ 32) :
    reserveOobBlocks (freshAllocation a) 1 h = .ok
      (true, ⟨⟨some h.brk, none, some h.brk, 0⟩, ⟨some a, some a, some a, 0⟩⟩,
        oobHeap h a p next) := by
  have hne : h.brk ≠ a := by omega
  have hsplit := splitAllocation_one hnode ha hlen hblock
  have happend : regionListAppend ⟨none, none, none, 0⟩ a (oobHeap h a p next) =
      .ok (⟨some a, some a, some a, 0⟩, oobHeap h a p next) := by
    have hderef : (oobHeap h a p next).deref (some a) =
        .ok (Piece.region ⟨p.block, 1, p.bg⟩ none none) :=
      RegionHeap.deref_some.mpr (RegionHeap.write_node_self _ _ _)
    simp only [regionListAppend, hderef, bind_ok]
    simp [oobHeap, RegionHeap.write, Piece.region]
  have hfirst : (splitHeap h a p next none).deref (some a) =
      .ok (Piece.region ⟨p.block, 1, p.bg⟩ (some h.brk) none) :=
    RegionHeap.deref_some.mpr (RegionHeap.write_node_self _ _ _)
  unfold reserveOobBlocks
  rw [hsplit, bind_ok]
  simp only [moveOobLoop, freshAllocation, Option.some.injEq, Ne.symm hne, if_false, hfirst,
    bind_ok, regionListRemove_splitHeap ha, createAllocation, happend]
  simp only [Piece.region]
  obtain ⟨fuel, hfuel⟩ : ∃ fuel, (splitHeap h a p next none).brk = fuel + 1 := ⟨h.brk, rfl⟩
  rw [hfuel, moveOobLoop, if_pos rfl, bind_ok]

/-- What is left of the allocation, as its readers see it. -/
theorem Listed.oob {rest : List (ℕ × Piece)} (hlink : Linked h none ((a, p) :: rest))
    (ha : a < h.brk) (hfresh : a ∉ rest.map Prod.fst) (hold : ∀ n ∈ rest, n.1 < h.brk) :
    Listed (oobHeap h a p (headAddr rest))
      ((h.brk, ⟨p.block + 1, p.len - 1, p.bg⟩) :: rest) := by
  have hlist := hlink.listed.2
  have hne : ∀ n ∈ rest, n.1 ≠ a := by
    rintro n hn rfl
    exact hfresh (List.mem_map_of_mem hn)
  refine ⟨⟨none, ?_⟩, hlist.congr ?_⟩
  · unfold oobHeap
    rw [RegionHeap.write_node_of_ne _ _ ha.ne', RegionHeap.malloc_node_self]
  · intro n hn
    unfold oobHeap
    rw [RegionHeap.write_node_of_ne _ _ (hne n hn),
      RegionHeap.malloc_node_of_ne _ _ (hold n hn).ne]

theorem getOobBlock_oobHeap (hblock : p.block < 2 ^ 32) (list : RegionList) :
    getOobBlock ⟨list, ⟨some a, some a, some a, 0⟩⟩ 0 (oobHeap h a p next) = .ok p.block := by
  have hderef : (oobHeap h a p next).deref (some a) =
      .ok (Piece.region ⟨p.block, 1, p.bg⟩ none none) :=
    RegionHeap.deref_some.mpr (RegionHeap.write_node_self _ _ _)
  show getBlockLoop _ (h.brk + 1) (some a) (u32 (0 + 0)) = _
  rw [getBlockLoop, hderef, bind_ok]
  simpa [Piece.region, u32] using hblock

end ReserveOob

end SystemExtras.Ext4
