import SystemExtras.Ext4.Takes

/-!
# Whole runs of the block allocator

A run starts with `block_allocator_init` and goes on with calls of
`allocate_block`, `allocate_blocks` and, right after an `allocate_blocks`, of
`reduce_allocation`.  `RunState` adds to the allocator's state what its callers
hold; `RunInv` is what every step preserves.

The delicate step is `reduce_allocation`.  The allocation it is applied to has
its `last` pointer on the *first* of its regions, so a block of that region is
what it gives back, while `free_blocks` gives back the block below the cursor of
the region's group.  They are the same block because a request that needed
several regions left nothing in the group of the first
(`TakesMany.cursor_of_head`).
-/

namespace SystemExtras.Ext4

open Mem

/-! ## `block_allocator_init` -/

/-- The queue entry of the bitmaps of group `i`. -/
def bitmapsChunk (g : Geometry) (i : ℕ) : Chunk :=
  ⟨.bitmaps i, u32 (2 * g.info.blockSize), g.bitmapsBlock i⟩

theorem initBgs_spec {g : Geometry} (hg : g.Fits) (left : ℕ) :
    ∀ (i : ℕ) (s : State), i + left ≤ g.aux.groups →
      ∃ s', initBgs g left i s = .ok s' ∧ s'.regions = s.regions ∧
        s'.out.chunks = s.out.chunks ++ (List.range' i left).map (bitmapsChunk g) ∧
        (∀ j, i ≤ j → j < i + left → FreshGroup g j (s'.bgs j)) ∧
        ∀ j < i, s'.bgs j = s.bgs j := by
  induction left with
  | zero =>
      intro i s _
      exact ⟨s, rfl, rfl, by simp, fun j h₁ h₂ => by omega, fun _ _ => rfl⟩
  | succ left ih =>
      intro i s hgroups
      obtain ⟨bg, hinit, hfresh⟩ := initBg_spec hg (i := i) (by omega)
      obtain ⟨s', hrun, hregions, hchunks, hbgs, hother⟩ :=
        ih (i + 1) ((s.addChunk (.bitmaps i) (u32 (2 * g.info.blockSize)) (g.bitmapsBlock i)).setBg
          i bg) (by omega)
      refine ⟨s', ?_, hregions, ?_, ?_, ?_⟩
      · rw [initBgs, hinit]
        exact hrun
      · rw [hchunks]
        simp [State.setBg, State.addChunk, bitmapsChunk, List.range'_succ]
      · intro j h₁ h₂
        rcases Nat.eq_or_lt_of_le h₁ with rfl | hlt
        · rw [hother i (by omega)]
          simpa [State.setBg] using hfresh
        · exact hbgs j hlt (by omega)
      · intro j hj
        rw [hother j (by omega)]
        exact Function.update_of_ne (by omega) _ _

theorem blockAllocatorInit_spec {g : Geometry} (hg : g.Fits) (s : State) :
    ∃ s', blockAllocatorInit g s = .ok s' ∧ s'.regions = s.regions ∧
      s'.out.chunks = s.out.chunks ++ (List.range g.aux.groups).map (bitmapsChunk g) ∧
      ∀ i < g.aux.groups, FreshGroup g i (s'.bgs i) := by
  obtain ⟨s', hrun, hregions, hchunks, hbgs, -⟩ := initBgs_spec hg g.aux.groups 0 s (by omega)
  rw [← List.range_eq_range'] at hchunks
  exact ⟨s', hrun, hregions, hchunks, fun i hi => hbgs i (Nat.zero_le i) (by omega)⟩

/-! ## `reduce_allocation` -/

/-- Giving back the block below a cursor removes it from the taken blocks. -/
theorem taken_giveBack {g : Geometry} {bgs : Groups} (hinv : GroupsInv g bgs) {i : ℕ}
    (hi : i < g.aux.groups) (hpos : 0 < (bgs i).firstFreeBlock) :
    taken g (Function.update bgs i (bgs i).giveBack) =
      taken g bgs \ {g.start i + (bgs i).firstFreeBlock - 1} := by
  ext b
  constructor
  · rintro ⟨j, hj, k, hk, rfl⟩
    by_cases hji : j = i
    · subst hji
      rw [Function.update_self] at hk
      have hk : k < (bgs j).firstFreeBlock - 1 := hk
      refine ⟨⟨j, hj, k, by omega, rfl⟩, ?_⟩
      simp only [Set.mem_singleton_iff]
      omega
    · rw [Function.update_of_ne hji] at hk
      refine ⟨⟨j, hj, k, hk, rfl⟩, ?_⟩
      simp only [Set.mem_singleton_iff]
      intro heq
      have hend := (hinv i hi).end_le
      have hend' := (hinv j hj).end_le
      have hsame : g.start j + k = g.start i + ((bgs i).firstFreeBlock - 1) := by omega
      exact hji (Geometry.group_unique (by omega) (by omega) hsame).1
  · rintro ⟨⟨j, hj, k, hk, rfl⟩, hne⟩
    simp only [Set.mem_singleton_iff] at hne
    refine ⟨j, hj, k, ?_, rfl⟩
    by_cases hji : j = i
    · subst hji
      rw [Function.update_self]
      show k < (bgs j).firstFreeBlock - 1
      omega
    · rwa [Function.update_of_ne hji]

/-- `reduce_allocation` by one block, on a list whose `last` region has no
`prev`, when it ends. -/
theorem reduceAllocation_cases {g : Geometry} {s s' : State} {alloc alloc' : BlockAllocation}
    {a : ℕ} {p : Piece} {next : Option ℕ} (hlast : alloc.list.last = some a)
    (hnode : s.regions.node a = some (p.region next none))
    (hfree : 0 < p.len →
      freeBlocks g.bitmapsSize (s.bgs p.bg) 1 = .ok (s.bgs p.bg).giveBack)
    (h : reduceAllocation g alloc 1 s = .ok (alloc', s')) :
    s'.bgs = Function.update s.bgs p.bg (s.bgs p.bg).giveBack ∧ s'.out = s.out ∧
      (1 < p.len ∧ alloc' = alloc ∧
          s'.regions = s.regions.write a (Piece.region ⟨p.block, p.len - 1, p.bg⟩ next none) ∨
        p.len = 1 ∧ alloc' = { alloc with list := ⟨none, none, none, 0⟩ } ∧
          s'.regions = s.regions.free a) := by
  have hderef : s.regions.deref alloc.list.last = .ok (p.region next none) :=
    RegionHeap.deref_eq_ok.mpr ⟨a, hlast, hnode⟩
  unfold reduceAllocation reduceLoop at h
  rw [if_neg (by decide), hderef, bind_ok] at h
  rcases Nat.lt_trichotomy 1 p.len with hlt | heq | hgt
  · have hmore : (p.region next none).len > 1 := hlt
    rw [if_pos hmore] at h
    simp only [Piece.region] at h
    rw [hfree (by omega), bind_ok] at h
    simp only [reduceLoop, if_true, Except.ok.injEq, Prod.mk.injEq, hlast] at h
    obtain ⟨rfl, rfl⟩ := h
    exact ⟨rfl, rfl, Or.inl ⟨hlt, rfl, rfl⟩⟩
  · have hall : ¬ (p.region next none).len > 1 := by
      show ¬ p.len > 1
      omega
    rw [if_neg hall] at h
    simp only [Piece.region, ← heq] at h
    rw [hfree (by omega), bind_ok] at h
    simp only [reduceLoop, Nat.sub_self, if_true, Except.ok.injEq, Prod.mk.injEq, hlast] at h
    obtain ⟨rfl, rfl⟩ := h
    exact ⟨rfl, rfl, Or.inr ⟨heq.symm, rfl, rfl⟩⟩
  · -- an empty region is given up, and there is nothing before it
    have hzero : p.len = 0 := by omega
    have hall : ¬ (p.region next none).len > 1 := by
      show ¬ p.len > 1
      omega
    rw [if_neg hall] at h
    simp only [Piece.region, hzero] at h
    rw [bind_eq_ok] at h
    obtain ⟨bg, -, h⟩ := h
    simp [reduceLoop, RegionHeap.deref] at h

/-! ## Where the cursors stand after an allocation -/

section Cursor

variable {g : Geometry} {bgs bgs' : Groups} {len : ℕ} {p : Piece} {ps : List Piece}

/-- Nothing more is taken from a group that is full. -/
theorem TakesAll.cursor_of_full (h : TakesAll g bgs ps bgs') {i : ℕ}
    (hfull : (bgs i).freeBlocks = 0) : (bgs' i).firstFreeBlock = (bgs i).firstFreeBlock := by
  induction h with
  | nil => rfl
  | cons head tail ih =>
      rename_i q _
      by_cases hi : i = q.bg
      · subst hi
        have hle := head.len_le
        have hff := head.firstFreeBlock_eq
        have hfree := head.freeBlocks_eq
        rw [ih (by omega)]
        omega
      · rw [ih (by rw [head.group_of_ne hi]; exact hfull), head.group_of_ne hi]

/-- The cursor of the first piece's group ends up right behind the piece. -/
theorem TakesMany.cursor_of_head (h : TakesMany g len bgs (p :: ps) bgs') (hpos : 0 < p.len) :
    g.start p.bg + (bgs' p.bg).firstFreeBlock = p.block + p.len := by
  cases h with
  | cons _ head share tail =>
      have hblock := head.block_eq hpos
      have hff := head.firstFreeBlock_eq
      have hsame : (bgs' p.bg).firstFreeBlock = (bgs p.bg).firstFreeBlock + p.len := by
        rcases share with hall | ⟨-, hwhole, -⟩
        · -- the piece is the whole request
          rw [hall, Nat.sub_self] at tail
          rw [tail.eq_nil.2]
          exact hff
        · have hfree := head.freeBlocks_eq
          rw [← hff]
          exact tail.takesAll.cursor_of_full (by omega)
      omega

end Cursor

/-! ## The counter of used data blocks -/

/-- A geometry with at least two data blocks in every group. -/
structure Geometry.Roomy (g : Geometry) : Prop where
  lenBlocks_lt : g.aux.lenBlocks < 2 ^ 32
  blocksPerGroup_le : g.info.blocksPerGroup ≤ 8 * g.info.blockSize
  size_ge : ∀ i < g.aux.groups, g.headerBlocks i + 2 ≤ g.groupSize i

theorem Geometry.Roomy.fits {g : Geometry} (hg : g.Roomy) : g.Fits where
  lenBlocks_lt := hg.lenBlocks_lt
  blocksPerGroup_le := hg.blocksPerGroup_le
  header_le := fun i hi => (Nat.le_add_right _ 2).trans (hg.size_ge i hi)
  size_pos := fun i hi => Nat.lt_of_lt_of_le (by omega) (hg.size_ge i hi)

/-- No counter of data blocks can reach `2 ^ 32`. -/
def Geometry.Small (g : Geometry) : Prop := 2 * g.info.blocksPerGroup < 2 ^ 32

/-- As long as the counters do not wrap, `data_blocks_used` says whether a data
block was ever taken: `reduce_allocation` does not count down, but it follows on
an allocation of at least two blocks. -/
def Counted (g : Geometry) (bgs : Groups) : Prop := ∀ i < g.aux.groups,
  (bgs i).firstFreeBlock - g.headerBlocks i ≤ (bgs i).dataBlocksUsed ∧
    (bgs i).dataBlocksUsed ≤ 2 * ((bgs i).firstFreeBlock - g.headerBlocks i)

section Counted

variable {g : Geometry} {bgs bgs' : Groups} {len : ℕ} {p : Piece} {ps : List Piece}

/-- The counter moves with the cursor. -/
theorem Takes.counter_eq (hsmall : g.Small) (hinv : GroupsInv g bgs) (hcount : Counted g bgs)
    (h : Takes g bgs p bgs') :
    (bgs' p.bg).dataBlocksUsed = (bgs p.bg).dataBlocksUsed + p.len := by
  have hbound := (hcount p.bg h.bg_lt).2
  have hend := (hinv p.bg h.bg_lt).end_le
  have hle := h.len_le
  rw [h.dataBlocksUsed_eq]
  unfold Geometry.Small at hsmall
  exact u32_of_lt (by omega)

/-- Room below twice the cursor is kept. -/
theorem Takes.slack (hsmall : g.Small) (hinv : GroupsInv g bgs) (hcount : Counted g bgs)
    (h : Takes g bgs p bgs') {i c : ℕ} (hi : i < g.aux.groups)
    (hslack : (bgs i).dataBlocksUsed + c ≤ 2 * ((bgs i).firstFreeBlock - g.headerBlocks i)) :
    (bgs' i).dataBlocksUsed + c ≤ 2 * ((bgs' i).firstFreeBlock - g.headerBlocks i) := by
  by_cases hip : i = p.bg
  · subst hip
    have hheader := (hinv p.bg hi).header_le
    rw [h.counter_eq hsmall hinv hcount, h.firstFreeBlock_eq]
    omega
  · rwa [h.group_of_ne hip]

theorem Takes.counted (hsmall : g.Small) (hinv : GroupsInv g bgs) (hcount : Counted g bgs)
    (h : Takes g bgs p bgs') : Counted g bgs' := by
  intro i hi
  refine ⟨?_, h.slack (c := 0) hsmall hinv hcount hi (hcount i hi).2⟩
  by_cases hip : i = p.bg
  · subst hip
    have hold := (hcount p.bg hi).1
    rw [h.counter_eq hsmall hinv hcount, h.firstFreeBlock_eq]
    omega
  · rw [h.group_of_ne hip]
    exact (hcount i hi).1

theorem TakesAll.counted (hsmall : g.Small) (hinv : GroupsInv g bgs) (hcount : Counted g bgs)
    (h : TakesAll g bgs ps bgs') : Counted g bgs' := by
  induction h with
  | nil => exact hcount
  | cons head _ ih => exact ih (head.inv hinv) (head.counted hsmall hinv hcount)

theorem TakesAll.slack (hsmall : g.Small) (hinv : GroupsInv g bgs) (hcount : Counted g bgs)
    (h : TakesAll g bgs ps bgs') {i c : ℕ} (hi : i < g.aux.groups)
    (hslack : (bgs i).dataBlocksUsed + c ≤ 2 * ((bgs i).firstFreeBlock - g.headerBlocks i)) :
    (bgs' i).dataBlocksUsed + c ≤ 2 * ((bgs' i).firstFreeBlock - g.headerBlocks i) := by
  induction h with
  | nil => exact hslack
  | cons head _ ih =>
      exact ih (head.inv hinv) (head.counted hsmall hinv hcount)
        (head.slack hsmall hinv hcount hi hslack)

/-- The first region of a request for at least two blocks has at least two. -/
theorem TakesMany.two_le_head (hg : g.Roomy) (hinv : GroupsInv g bgs) (hcount : Counted g bgs)
    (h : TakesMany g len bgs (p :: ps) bgs') (hlen : 2 ≤ len) : 2 ≤ p.len := by
  cases h with
  | cons _ head share _ =>
      rcases share with hall | ⟨-, hwhole, huntouched⟩
      · omega
      · -- nothing was taken from the group, so all its data blocks are free
        have hsize := hg.size_ge p.bg head.bg_lt
        have hlimit := (hinv p.bg head.bg_lt).limit_of_lt (by omega)
        have hcursor := (hcount p.bg head.bg_lt).1
        omega

/-- After such a request the counter leaves room for one block to be given back. -/
theorem TakesMany.slack_head (hg : g.Roomy) (hsmall : g.Small) (hinv : GroupsInv g bgs)
    (hcount : Counted g bgs) (h : TakesMany g len bgs (p :: ps) bgs') (hlen : 2 ≤ len) :
    (bgs' p.bg).dataBlocksUsed + 2 ≤ 2 * ((bgs' p.bg).firstFreeBlock - g.headerBlocks p.bg) := by
  have htwo := h.two_le_head hg hinv hcount hlen
  cases h with
  | cons _ head share tail =>
      have hbound := (hcount p.bg head.bg_lt).2
      have hheader := (hinv p.bg head.bg_lt).header_le
      refine tail.takesAll.slack hsmall (head.inv hinv) (head.counted hsmall hinv hcount)
        head.bg_lt ?_
      rw [head.counter_eq hsmall hinv hcount, head.firstFreeBlock_eq]
      omega

end Counted

/-! ## Runs -/

/-- The state of a run: the allocator, the blocks that have been handed out and
not returned, and the allocation that `reduce_allocation` may be applied to. -/
structure RunState where
  st : State
  held : List ℕ
  last : Option BlockAllocation

/-- The blocks of an allocation, read through its regions. -/
def BlockAllocation.blocks (alloc : BlockAllocation) (s : State) : List ℕ :=
  regionBlocks s.regions s.regions.brk alloc.list.first

/-- The block that `reduce_allocation` gives back: the one below the cursor of
the group of the region under `last`. -/
def returnedBlock (alloc : BlockAllocation) (s : State) : Except Stop ℕ := do
  let r ← s.regions.deref alloc.list.last
  .ok ((s.bgs r.bg).firstBlock + (s.bgs r.bg).firstFreeBlock - 1)

/-- The calls a run is made of. -/
inductive Call where
  | allocateBlock
  | allocateBlocks (len : ℕ)
  | reduceAllocation
  deriving DecidableEq, Repr

/-- The argument of a call is one the allocator is asked for: a positive `u32`. -/
def Call.Valid : Call → Prop
  | .allocateBlocks len => 1 ≤ len ∧ len < 2 ^ 32
  | _ => True

instance (c : Call) : Decidable c.Valid :=
  match c with
  | .allocateBlocks len => inferInstanceAs (Decidable (1 ≤ len ∧ len < 2 ^ 32))
  | .allocateBlock => inferInstanceAs (Decidable True)
  | .reduceAllocation => inferInstanceAs (Decidable True)

/-- One call.  `reduce_allocation` by one block is only ever applied to the result
of the call before it, an allocation of at least two blocks. -/
def Call.exec (g : Geometry) (s : RunState) : Call → Except Stop RunState
  | .allocateBlock => do
      let (block, st) ← Ext4.allocateBlock g s.st
      .ok ⟨st, if block = EXT4_ALLOCATE_FAILED then s.held else block :: s.held, none⟩
  | .allocateBlocks len => do
      let (r, st) ← Ext4.allocateBlocks g len s.st
      match r with
      | none => .ok ⟨st, s.held, none⟩
      | some alloc =>
          .ok ⟨st, alloc.blocks st ++ s.held, if 2 ≤ len then some alloc else none⟩
  | .reduceAllocation =>
      match s.last with
      | none => .error .undefined
      | some alloc => do
          let b ← returnedBlock alloc s.st
          let (_, st) ← Ext4.reduceAllocation g alloc 1 s.st
          .ok ⟨st, s.held.erase b, none⟩

/-- The calls one after the other. -/
def execAll (g : Geometry) : List Call → RunState → Except Stop RunState
  | [], s => .ok s
  | c :: rest, s => do
      let s ← c.exec g s
      execAll g rest s

/-- A run: `block_allocator_init`, then the calls. -/
def allocatorRun (g : Geometry) (calls : List Call) : Except Stop RunState := do
  let st ← blockAllocatorInit g State.empty
  execAll g calls ⟨st, [], none⟩

/-- A run, with something that can be computed of its end. -/
theorem exists_allocatorRun {g : Geometry} {calls : List Call} {P : RunState → Prop}
    [DecidablePred P] (h : (match allocatorRun g calls with
      | .ok r => decide (P r)
      | .error _ => false) = true) : ∃ r, allocatorRun g calls = .ok r ∧ P r := by
  cases hrun : allocatorRun g calls with
  | error e => simp [hrun] at h
  | ok r =>
      simp only [hrun, decide_eq_true_eq] at h
      exact ⟨r, rfl, h⟩

/-- What is known of the allocation just made. -/
structure Pending (g : Geometry) (s : RunState) (alloc : BlockAllocation) (a : ℕ) (p : Piece)
    (next : Option ℕ) : Prop where
  last : alloc.list.last = some a
  node : s.st.regions.node a = some (p.region next none)
  bg_lt : p.bg < g.aux.groups
  cursor : 0 < p.len → g.start p.bg + (s.st.bgs p.bg).firstFreeBlock = p.block + p.len
  header_lt : 0 < p.len → g.headerBlocks p.bg < (s.st.bgs p.bg).firstFreeBlock
  mem_held : 0 < p.len → p.block + p.len - 1 ∈ s.held
  slack : g.Small → 2 ≤ p.len ∧ (s.st.bgs p.bg).dataBlocksUsed + 2 ≤
    2 * ((s.st.bgs p.bg).firstFreeBlock - g.headerBlocks p.bg)

/-- A block that may be handed out: it exists and is in no group's header. -/
def DataBlock (g : Geometry) (b : ℕ) : Prop :=
  (g.aux.firstDataBlock ≤ b ∧ b < g.aux.lenBlocks) ∧
    ∀ i < g.aux.groups, ¬ (g.start i ≤ b ∧ b < g.start i + g.headerBlocks i)

/-- What holds in every state of a run. -/
structure RunInv (g : Geometry) (s : RunState) : Prop where
  groups : GroupsInv g s.st.bgs
  counted : g.Small → Counted g s.st.bgs
  nodup : s.held.Nodup
  held : ∀ b ∈ s.held, b ∈ taken g s.st.bgs ∧ DataBlock g b
  last : ∀ alloc, s.last = some alloc → ∃ a p next, Pending g s alloc a p next

section Runs

variable {g : Geometry}

theorem TakesAll.dataBlock (hg : g.Fits) {bgs bgs' : Groups} {ps : List Piece}
    (hinv : GroupsInv g bgs) (h : TakesAll g bgs ps bgs') {b : ℕ} (hb : b ∈ blocksOf ps) :
    DataBlock g b := by
  refine ⟨h.mem_range hg hinv hb, ?_⟩
  rintro i hi ⟨hlo, hhi⟩
  refine h.disjoint hinv hb ?_
  have hheader := header_mem_taken hinv hi (k := b - g.start i) (by omega)
  rwa [Nat.add_sub_cancel' hlo] at hheader

/-- Taking blocks and handing out some of them, or none. -/
theorem RunInv.take (hg : g.Fits) {s : RunState} (h : RunInv g s) {st : State} {ps : List Piece}
    (htakes : TakesAll g s.st.bgs ps st.bgs) (out : List ℕ) {last : Option BlockAllocation}
    (hout : out = blocksOf ps ∨ out = [])
    (hlast : ∀ alloc, last = some alloc →
      ∃ a p next, Pending g ⟨st, out ++ s.held, last⟩ alloc a p next) :
    RunInv g ⟨st, out ++ s.held, last⟩ where
  groups := htakes.inv h.groups
  counted := fun hsmall => htakes.counted hsmall h.groups (h.counted hsmall)
  nodup := by
    rcases hout with rfl | rfl
    · refine List.Nodup.append (htakes.nodup h.groups) h.nodup ?_
      intro b hb hheld
      exact htakes.disjoint h.groups hb (h.held b hheld).1
    · exact h.nodup
  held := by
    intro b hb
    rcases List.mem_append.mp hb with hb | hb
    · rcases hout with rfl | rfl
      · exact ⟨htakes.mem_taken hb, htakes.dataBlock hg h.groups hb⟩
      · simp at hb
    · exact ⟨htakes.taken_subset (h.held b hb).1, (h.held b hb).2⟩
  last := hlast

theorem RunInv.init (hg : g.Fits) (hroom : ∀ i < g.aux.groups, g.headerBlocks i < g.groupSize i)
    {st : State} (call : blockAllocatorInit g State.empty = .ok st) : RunInv g ⟨st, [], none⟩ := by
  obtain ⟨st', hrun, -, -, hfresh⟩ := blockAllocatorInit_spec hg State.empty
  rw [hrun, Except.ok.injEq] at call
  subst call
  refine ⟨fun i hi => (hfresh i hi).inv, ?_, List.nodup_nil, by simp, by simp⟩
  intro _ i hi
  have hlimit := (hfresh i hi).inv.limit_of_lt (hroom i hi)
  have hfree := (hfresh i hi).free
  have hlt := hroom i hi
  have hcounter := (hfresh i hi).dataBlocksUsed
  show (st'.bgs i).firstFreeBlock - g.headerBlocks i ≤ (st'.bgs i).dataBlocksUsed ∧
    (st'.bgs i).dataBlocksUsed ≤ 2 * ((st'.bgs i).firstFreeBlock - g.headerBlocks i)
  omega

theorem RunInv.block (hg : g.Fits) {s : RunState} (h : RunInv g s) {block : ℕ} {st : State}
    (call : allocateBlock g s.st = .ok (block, st)) :
    RunInv g ⟨st, if block = EXT4_ALLOCATE_FAILED then s.held else block :: s.held, none⟩ := by
  rcases allocateBlock_cases hg h.groups call with ⟨rfl, rfl, -⟩ | ⟨i, htakes, -⟩
  · rw [if_pos rfl]
    exact ⟨h.groups, h.counted, h.nodup, h.held, by simp⟩
  · rw [if_neg (htakes.block_ne_failed hg h.groups Nat.one_pos)]
    exact h.take hg (TakesAll.single htakes) [block] (Or.inl rfl) (by simp)

/-- The blocks of a fresh allocation are those of its pieces. -/
theorem blocks_of_extends {h : RegionHeap} {st : State} {a : ℕ} {p : Piece}
    {rest : List (ℕ × Piece)} (hext : Extends h st.regions none ((a, p) :: rest)) :
    BlockAllocation.blocks { createAllocation with list := ⟨some a, some a, some a, 0⟩ } st =
      blocksOf (((a, p) :: rest).map Prod.snd) :=
  hext.linked.regionBlocks_eq hext.length_le

/-- A fresh allocation of at least two blocks may be reduced. -/
theorem Pending.of_takesMany (hg : g.Roomy) {s : RunState} (h : RunInv g s) {len a : ℕ} {p : Piece}
    {rest : List (ℕ × Piece)} {st : State} {held : List ℕ} {last : Option BlockAllocation}
    (hext : Extends s.st.regions st.regions none ((a, p) :: rest))
    (hmany : TakesMany g len s.st.bgs (((a, p) :: rest).map Prod.snd) st.bgs) (hlen : 2 ≤ len)
    (hheld : ∀ b ∈ blocksOf (((a, p) :: rest).map Prod.snd), b ∈ held) :
    Pending g ⟨st, held, last⟩ { createAllocation with list := ⟨some a, some a, some a, 0⟩ }
      a p (headAddr rest) := by
  have hmany' : TakesMany g len s.st.bgs (p :: rest.map Prod.snd) st.bgs := hmany
  have hhead : ∃ bgs₁, Takes g s.st.bgs p bgs₁ := by
    cases hmany' with
    | cons _ head _ _ => exact ⟨_, head⟩
  obtain ⟨bgs₁, hhead⟩ := hhead
  refine ⟨rfl, hext.linked.1, hhead.bg_lt, fun hpos => hmany'.cursor_of_head hpos, ?_, ?_, ?_⟩
  · intro hpos
    have hcursor := hmany'.cursor_of_head hpos
    have hblock := hhead.block_eq hpos
    have hheader := (h.groups p.bg hhead.bg_lt).header_le
    show g.headerBlocks p.bg < (st.bgs p.bg).firstFreeBlock
    omega
  · intro hpos
    have hmem : p.block + p.len - 1 ∈ p.blocks := Piece.mem_blocks.mpr ⟨by omega, by omega⟩
    exact hheld _ (List.mem_append_left _ hmem)
  · intro hsmall
    exact ⟨hmany'.two_le_head hg h.groups (h.counted hsmall) hlen,
      hmany'.slack_head hg hsmall h.groups (h.counted hsmall) hlen⟩

theorem RunInv.blocks (hg : g.Roomy) {s : RunState} (h : RunInv g s) {len : ℕ}
    {alloc : BlockAllocation} {st : State} (hpos : 1 ≤ len)
    (call : allocateBlocks g len s.st = .ok (some alloc, st)) :
    RunInv g ⟨st, alloc.blocks st ++ s.held, if 2 ≤ len then some alloc else none⟩ := by
  obtain ⟨-, ns, hext, ⟨a, p, rest, rfl, halloc, hmany⟩ | ⟨hnone, -⟩⟩ :=
    allocateBlocks_cases hg.fits h.groups hpos call
  · cases halloc
    rw [blocks_of_extends hext]
    refine h.take hg.fits hmany.takesAll _ (Or.inl rfl) ?_
    intro alloc' halloc'
    split at halloc'
    · rename_i hlen
      cases halloc'
      exact ⟨a, p, _, Pending.of_takesMany hg h hext hmany hlen
        fun b hb => List.mem_append_left _ hb⟩
    · cases halloc'
  · cases hnone

theorem RunInv.noBlocks (hg : g.Fits) {s : RunState} (h : RunInv g s) {len : ℕ} {st : State}
    (hpos : 1 ≤ len) (call : allocateBlocks g len s.st = .ok (none, st)) :
    RunInv g ⟨st, s.held, none⟩ := by
  obtain ⟨-, ns, hext, ⟨_, _, _, -, hsome, -⟩ | ⟨-, htakes⟩⟩ :=
    allocateBlocks_cases hg h.groups hpos call
  · cases hsome
  · exact h.take hg htakes [] (Or.inr rfl) (by simp)

/-- The block that goes back is the last one of the region under `last`, and a
held one. -/
theorem Pending.returnedBlock_eq {s : RunState} (h : RunInv g s) {alloc : BlockAllocation} {a : ℕ}
    {p : Piece} {next : Option ℕ} (hp : Pending g s alloc a p next) :
    returnedBlock alloc s.st =
      .ok (g.start p.bg + (s.st.bgs p.bg).firstFreeBlock - 1) := by
  have hderef : s.st.regions.deref alloc.list.last = .ok (p.region next none) :=
    RegionHeap.deref_eq_ok.mpr ⟨a, hp.last, hp.node⟩
  unfold returnedBlock
  rw [hderef, bind_ok, ← (h.groups p.bg hp.bg_lt).firstBlock]
  rfl

/-- A call of `reduce_allocation` that ends has given a block of the region back. -/
theorem Pending.reduce_cases (hg : g.Roomy) {s : RunState} (h : RunInv g s)
    {alloc alloc' : BlockAllocation} {a : ℕ} {p : Piece} {next : Option ℕ} {st : State}
    (hp : Pending g s alloc a p next)
    (call : reduceAllocation g alloc 1 s.st = .ok (alloc', st)) :
    0 < p.len ∧ st.bgs = Function.update s.st.bgs p.bg (s.st.bgs p.bg).giveBack := by
  have hgroup := h.groups p.bg hp.bg_lt
  have hfree : 0 < p.len → freeBlocks g.bitmapsSize (s.st.bgs p.bg) 1 =
      .ok (s.st.bgs p.bg).giveBack :=
    fun hpos => hgroup.freeBlocks_one hg.fits (Nat.zero_lt_of_lt (hp.header_lt hpos))
  obtain ⟨hbgs, -, hcases⟩ := reduceAllocation_cases hp.last hp.node hfree call
  refine ⟨?_, hbgs⟩
  rcases hcases with ⟨hlt, -⟩ | ⟨heq, -⟩ <;> omega

theorem RunInv.reduce (hg : g.Roomy) {s : RunState} (h : RunInv g s)
    {alloc alloc' : BlockAllocation} {b : ℕ} {st : State} (hlast : s.last = some alloc)
    (hb : returnedBlock alloc s.st = .ok b)
    (call : reduceAllocation g alloc 1 s.st = .ok (alloc', st)) :
    RunInv g ⟨st, s.held.erase b, none⟩ := by
  obtain ⟨a, p, next, hp⟩ := h.last alloc hlast
  rw [hp.returnedBlock_eq h, Except.ok.injEq] at hb
  subst hb
  have hgroup := h.groups p.bg hp.bg_lt
  have hsize := hg.size_ge p.bg hp.bg_lt
  have hlimit := hgroup.limit_of_lt (by omega)
  obtain ⟨hpos, hbgs⟩ := hp.reduce_cases hg h call
  have hlt := hp.header_lt hpos
  have htaken : taken g st.bgs =
      taken g s.st.bgs \ {g.start p.bg + (s.st.bgs p.bg).firstFreeBlock - 1} := by
    rw [hbgs]
    exact taken_giveBack h.groups hp.bg_lt (by omega)
  refine ⟨?_, ?_, h.nodup.erase _, ?_, by simp⟩
  · intro i hi
    show GroupInv g i (st.bgs i)
    rw [hbgs]
    by_cases hip : i = p.bg
    · subst hip
      rw [Function.update_self]
      exact hgroup.giveBack hlt hlimit
    · rw [Function.update_of_ne hip]
      exact h.groups i hi
  · intro hsmall i hi
    show (st.bgs i).firstFreeBlock - g.headerBlocks i ≤ (st.bgs i).dataBlocksUsed ∧
      (st.bgs i).dataBlocksUsed ≤ 2 * ((st.bgs i).firstFreeBlock - g.headerBlocks i)
    have hcount := h.counted hsmall i hi
    rw [hbgs]
    by_cases hip : i = p.bg
    · subst hip
      have hslack := (hp.slack hsmall).2
      rw [Function.update_self]
      simp only [BlockGroupInfo.giveBack]
      omega
    · rw [Function.update_of_ne hip]
      exact hcount
  · intro b hb
    have hne := (List.Nodup.mem_erase_iff h.nodup).mp hb
    refine ⟨?_, (h.held b hne.2).2⟩
    show b ∈ taken g st.bgs
    rw [htaken]
    exact ⟨(h.held b hne.2).1, hne.1⟩

theorem RunInv.exec (hg : g.Roomy) {s s' : RunState} (h : RunInv g s) {c : Call} (hc : c.Valid)
    (hexec : c.exec g s = .ok s') : RunInv g s' := by
  cases c with
  | allocateBlock =>
      simp only [Call.exec, bind_eq_ok, Except.ok.injEq] at hexec
      obtain ⟨⟨block, st⟩, call, rfl⟩ := hexec
      exact h.block hg.fits call
  | allocateBlocks len =>
      simp only [Call.exec, bind_eq_ok] at hexec
      obtain ⟨⟨r, st⟩, call, hexec⟩ := hexec
      cases r with
      | none =>
          cases hexec
          exact h.noBlocks hg.fits hc.1 call
      | some alloc =>
          cases hexec
          exact h.blocks hg hc.1 call
  | reduceAllocation =>
      cases hlast : s.last with
      | none => simp [Call.exec, hlast] at hexec
      | some alloc =>
          simp only [Call.exec, hlast, bind_eq_ok, Except.ok.injEq] at hexec
          obtain ⟨b, hb, ⟨alloc', st⟩, call, rfl⟩ := hexec
          exact h.reduce hg hlast hb call

theorem RunInv.execAll (hg : g.Roomy) (calls : List Call) : ∀ {s s' : RunState}, RunInv g s →
    (∀ c ∈ calls, c.Valid) → execAll g calls s = .ok s' → RunInv g s' := by
  induction calls with
  | nil =>
      intro s s' h _ hexec
      cases hexec
      exact h
  | cons c rest ih =>
      intro s s' h hvalid hexec
      rw [Ext4.execAll, bind_eq_ok] at hexec
      obtain ⟨s₁, hc, hrest⟩ := hexec
      exact ih (h.exec hg (hvalid c List.mem_cons_self) hc)
        (fun c' hc' => hvalid c' (List.mem_cons_of_mem _ hc')) hrest

/-- The invariant holds in every state a run reaches. -/
theorem runInv_of_run (hg : g.Roomy) {calls : List Call} (hcalls : ∀ c ∈ calls, c.Valid)
    {s : RunState} (hrun : allocatorRun g calls = .ok s) : RunInv g s := by
  rw [allocatorRun, bind_eq_ok] at hrun
  obtain ⟨st, hinit, hexec⟩ := hrun
  refine RunInv.execAll hg calls (RunInv.init hg.fits ?_ hinit) hcalls hexec
  intro i hi
  have := hg.size_ge i hi
  omega

/-- What the callers of the allocator rely on.  In every state of every run the
bitmap of a group is its cursor's interval and the part of the group beyond the
device, the free count is exact, and the blocks handed out are distinct, exist
and lie outside every header; a block that `reduce_allocation` gives back is one
that was handed out. -/
theorem allocatorRun_invariant (hg : g.Roomy) {calls : List Call} (hcalls : ∀ c ∈ calls, c.Valid)
    {s : RunState} (hrun : allocatorRun g calls = .ok s) :
    (∀ i < g.aux.groups,
      let bg := s.st.bgs i
      bg.firstFreeBlock + bg.freeBlocks ≤ g.info.blocksPerGroup ∧
      (∀ b < g.info.blocksPerGroup, bg.bitmaps.bit b = true ↔
        b < bg.firstFreeBlock ∨ bg.firstFreeBlock + bg.freeBlocks ≤ b) ∧
      bg.freeBlocks = (bg.bitmaps.clear g.info.blocksPerGroup).card ∧
      (∀ b < g.info.blocksPerGroup, bg.firstFreeBlock + bg.freeBlocks ≤ b ↔
        g.aux.lenBlocks ≤ bg.firstBlock + b)) ∧
    s.held.Nodup ∧
    (∀ b ∈ s.held, g.aux.firstDataBlock ≤ b ∧ b < g.aux.lenBlocks ∧
      ∀ i < g.aux.groups, ¬ ((s.st.bgs i).firstBlock ≤ b ∧
        b < (s.st.bgs i).firstBlock + (s.st.bgs i).headerBlocks)) ∧
    (∀ alloc b s', s.last = some alloc → returnedBlock alloc s.st = .ok b →
      Call.reduceAllocation.exec g s = .ok s' → b ∈ s.held) := by
  have h := runInv_of_run hg hcalls hrun
  refine ⟨?_, h.nodup, ?_, ?_⟩
  · intro i hi
    have hgroup := h.groups i hi
    have hsize := hg.size_ge i hi
    have hlimit := hgroup.limit_of_lt (by omega)
    have hstart := hg.fits.start_lt hi
    refine ⟨hgroup.end_le, ?_, hgroup.card_clear.symm, ?_⟩
    · intro b hb
      rw [hgroup.used b hb, decide_eq_true_iff]
    · intro b hb
      show (s.st.bgs i).firstFreeBlock + (s.st.bgs i).freeBlocks ≤ b ↔ _
      rw [hlimit, hgroup.firstBlock]
      unfold Geometry.groupSize
      omega
  · intro b hb
    obtain ⟨hrange, hheader⟩ := (h.held b hb).2
    refine ⟨hrange.1, hrange.2, fun i hi => ?_⟩
    rw [(h.groups i hi).firstBlock, (h.groups i hi).headerBlocks]
    exact hheader i hi
  · intro alloc b s' hlast hb hexec
    obtain ⟨a, p, next, hp⟩ := h.last alloc hlast
    simp only [Call.exec, hlast, bind_eq_ok] at hexec
    obtain ⟨_, -, ⟨alloc', st⟩, call, -⟩ := hexec
    obtain ⟨hpos, -⟩ := hp.reduce_cases hg h call
    rw [hp.returnedBlock_eq h, hp.cursor hpos, Except.ok.injEq] at hb
    exact hb ▸ hp.mem_held hpos

end Runs

/-- A device of 72 blocks of 1 KiB in five groups of up to 16, the last of which
has only seven blocks. -/
def tinyInfo : FsInfo where
  len := 72 * 1024
  blockSize := 1024
  blocksPerGroup := 16
  inodesPerGroup := 8
  inodeSize := 128
  inodes := 40
  journalBlocks := 0
  featRoCompat := 0
  featCompat := 0
  featIncompat := 0
  bgDescReserveBlocks := 0
  label := []
  noJournal := true

def tiny : Geometry where
  info := tinyInfo
  aux := (ext4CreateFsAuxInfo tinyInfo).get (by decide)
  create := by decide

theorem roomy_tiny : tiny.Roomy := ⟨by decide, by decide, by decide⟩

/-- On the tiny device a request for 15 blocks is met with two regions, and the
block that is given back comes from the first. -/
theorem allocatorRun_invariant_tiny :
    ∃ s, allocatorRun tiny [.allocateBlocks 15, .reduceAllocation, .allocateBlock] = .ok s ∧
      s.held = [16, 6, 7, 8, 9, 10, 11, 12, 13, 14, 15, 22, 23, 24, 25] ∧ s.held.Nodup := by
  have hheld : (allocatorRun tiny [.allocateBlocks 15, .reduceAllocation, .allocateBlock]).map
      RunState.held = .ok [16, 6, 7, 8, 9, 10, 11, 12, 13, 14, 15, 22, 23, 24, 25] := by
    decide
  cases hrun : allocatorRun tiny [.allocateBlocks 15, .reduceAllocation, .allocateBlock] with
  | error e => simp [hrun, Except.map] at hheld
  | ok s =>
      rw [hrun] at hheld
      simp only [Except.map, Except.ok.injEq] at hheld
      exact ⟨s, rfl, hheld, (allocatorRun_invariant roomy_tiny (by decide) hrun).2.1⟩

end SystemExtras.Ext4
