import SystemExtras.Lib.Run
import SystemExtras.Ext4.GroupInvariant

/-!
# What an allocation takes

Every function of the allocator takes blocks the same way: some number of them
at the cursor of one group.  `Takes` is one such step and `TakesAll` a sequence
of them.  `taken` is the abstract view of the allocator's state, the set of
blocks below some cursor, in which a step is the union with a disjoint set
(`Takes.taken_eq`, `Takes.disjoint`); everything said about blocks that are
handed out, that they exist, lie outside the headers and are handed out once,
is proved there.

The second half of the module says of each allocation function which steps it
makes.  The regions of an allocation are linked in the heap; `Linked` is their
doubly linked list.
-/

namespace SystemExtras.Ext4

open Mem

/-! ## Steps -/

/-- The groups, by number. -/
abbrev Groups := ℕ → BlockGroupInfo

/-- What a region describes: consecutive blocks of one group. -/
structure Piece where
  block : ℕ
  len : ℕ
  bg : ℕ
  deriving DecidableEq, Repr

def Piece.blocks (p : Piece) : List ℕ := List.range' p.block p.len

/-- The blocks of an allocation, in its order. -/
def blocksOf (ps : List Piece) : List ℕ := ps.flatMap Piece.blocks

/-- The number of blocks of an allocation. -/
def lenOf (ps : List Piece) : ℕ := (ps.map Piece.len).sum

/-- Every group is in order. -/
def GroupsInv (g : Geometry) (bgs : Groups) : Prop := ∀ i < g.aux.groups, GroupInv g i (bgs i)

/-- `p` is taken at the cursor of its group. -/
structure Takes (g : Geometry) (bgs : Groups) (p : Piece) (bgs' : Groups) : Prop where
  bg_lt : p.bg < g.aux.groups
  len_le : p.len ≤ (bgs p.bg).freeBlocks
  block_eq : 0 < p.len → p.block = g.start p.bg + (bgs p.bg).firstFreeBlock
  bgs_eq : ∃ bitmap, SetsRange (bgs p.bg).bitmaps bitmap (bgs p.bg).firstFreeBlock
      ((bgs p.bg).firstFreeBlock + p.len) ∧
    bgs' = Function.update bgs p.bg ((bgs p.bg).take p.len bitmap)

/-- The pieces are taken one after the other. -/
inductive TakesAll (g : Geometry) : Groups → List Piece → Groups → Prop where
  | nil (bgs : Groups) : TakesAll g bgs [] bgs
  | cons {bgs bgs₁ bgs₂ : Groups} {p : Piece} {ps : List Piece} (head : Takes g bgs p bgs₁)
      (tail : TakesAll g bgs₁ ps bgs₂) : TakesAll g bgs (p :: ps) bgs₂

/-- The blocks below the cursor of their group. -/
def taken (g : Geometry) (bgs : Groups) : Set ℕ :=
  {b | ∃ i < g.aux.groups, ∃ k < (bgs i).firstFreeBlock, b = g.start i + k}

theorem Piece.mem_blocks {p : Piece} {b : ℕ} :
    b ∈ p.blocks ↔ p.block ≤ b ∧ b < p.block + p.len := by
  simp [blocks, List.mem_range'_1]

theorem Piece.nodup_blocks (p : Piece) : p.blocks.Nodup := List.nodup_range' 1

@[simp] theorem blocksOf_nil : blocksOf [] = [] := rfl

@[simp] theorem blocksOf_cons (p : Piece) (ps : List Piece) :
    blocksOf (p :: ps) = p.blocks ++ blocksOf ps := rfl

@[simp] theorem lenOf_nil : lenOf [] = 0 := rfl

@[simp] theorem lenOf_cons (p : Piece) (ps : List Piece) : lenOf (p :: ps) = p.len + lenOf ps := by
  simp [lenOf]

theorem length_blocksOf (ps : List Piece) : (blocksOf ps).length = lenOf ps := by
  induction ps with
  | nil => rfl
  | cons p ps ih => simp [Piece.blocks, ih]

namespace Takes

variable {g : Geometry} {bgs bgs' : Groups} {p : Piece}

/-- The group taken from, before and after. -/
theorem group_eq (h : Takes g bgs p bgs') : ∃ bitmap,
    SetsRange (bgs p.bg).bitmaps bitmap (bgs p.bg).firstFreeBlock
      ((bgs p.bg).firstFreeBlock + p.len) ∧
    bgs' p.bg = (bgs p.bg).take p.len bitmap := by
  obtain ⟨bitmap, hset, rfl⟩ := h.bgs_eq
  exact ⟨bitmap, hset, Function.update_self _ _ _⟩

theorem group_of_ne (h : Takes g bgs p bgs') {i : ℕ} (hi : i ≠ p.bg) : bgs' i = bgs i := by
  obtain ⟨bitmap, -, rfl⟩ := h.bgs_eq
  exact Function.update_of_ne hi _ _

theorem inv (h : Takes g bgs p bgs') (hinv : GroupsInv g bgs) : GroupsInv g bgs' := by
  intro i hi
  by_cases hip : i = p.bg
  · subst hip
    obtain ⟨bitmap, hset, heq⟩ := h.group_eq
    rw [heq]
    exact (hinv p.bg hi).take h.len_le hset
  · rw [h.group_of_ne hip]
    exact hinv i hi

theorem firstFreeBlock_eq (h : Takes g bgs p bgs') :
    (bgs' p.bg).firstFreeBlock = (bgs p.bg).firstFreeBlock + p.len := by
  obtain ⟨bitmap, -, heq⟩ := h.group_eq
  rw [heq]
  rfl

theorem freeBlocks_eq (h : Takes g bgs p bgs') :
    (bgs' p.bg).freeBlocks = (bgs p.bg).freeBlocks - p.len := by
  obtain ⟨bitmap, -, heq⟩ := h.group_eq
  rw [heq]
  rfl

theorem dataBlocksUsed_eq (h : Takes g bgs p bgs') :
    (bgs' p.bg).dataBlocksUsed = u32 ((bgs p.bg).dataBlocksUsed + p.len) := by
  obtain ⟨bitmap, -, heq⟩ := h.group_eq
  rw [heq]
  rfl

/-- A block of the piece, counted from the start of its group. -/
theorem mem_blocks (h : Takes g bgs p bgs') {b : ℕ} (hb : b ∈ p.blocks) :
    ∃ k, (bgs p.bg).firstFreeBlock ≤ k ∧ k < (bgs p.bg).firstFreeBlock + p.len ∧
      b = g.start p.bg + k := by
  rw [Piece.mem_blocks] at hb
  have hblock := h.block_eq (by omega)
  exact ⟨b - g.start p.bg, by omega, by omega, by omega⟩

/-- The blocks of a piece exist. -/
theorem mem_range (hg : g.Fits) (hinv : GroupsInv g bgs) (h : Takes g bgs p bgs') {b : ℕ}
    (hb : b ∈ p.blocks) : g.aux.firstDataBlock ≤ b ∧ b < g.aux.lenBlocks := by
  obtain ⟨k, hlo, hhi, rfl⟩ := h.mem_blocks hb
  have hend := Geometry.start_add_groupSize_le hg h.bg_lt
  have hfree := h.len_le
  have hlimit := (hinv p.bg h.bg_lt).limit_of_pos (by omega)
  unfold Geometry.start at *
  omega

theorem disjoint (hinv : GroupsInv g bgs) (h : Takes g bgs p bgs') {b : ℕ} (hb : b ∈ p.blocks) :
    b ∉ taken g bgs := by
  rintro ⟨i, hi, j, hj, heq⟩
  obtain ⟨k, hlo, hhi, rfl⟩ := h.mem_blocks hb
  have hend := (hinv i hi).end_le
  have hend' := (hinv p.bg h.bg_lt).end_le
  have hfree := h.len_le
  obtain ⟨rfl, rfl⟩ := Geometry.group_unique (by omega) (by omega) heq
  omega

theorem taken_eq (h : Takes g bgs p bgs') :
    taken g bgs' = taken g bgs ∪ {b | b ∈ p.blocks} := by
  have hff := h.firstFreeBlock_eq
  ext b
  constructor
  · rintro ⟨i, hi, k, hk, rfl⟩
    by_cases hip : i = p.bg
    · subst hip
      by_cases hold : k < (bgs p.bg).firstFreeBlock
      · exact Or.inl ⟨p.bg, hi, k, hold, rfl⟩
      · right
        have hblock := h.block_eq (by omega)
        exact Piece.mem_blocks.mpr ⟨by omega, by omega⟩
    · rw [h.group_of_ne hip] at hk
      exact Or.inl ⟨i, hi, k, hk, rfl⟩
  · rintro (⟨i, hi, k, hk, rfl⟩ | hb)
    · refine ⟨i, hi, k, ?_, rfl⟩
      by_cases hip : i = p.bg
      · subst hip
        omega
      · rwa [h.group_of_ne hip]
    · obtain ⟨k, -, hhi, rfl⟩ := h.mem_blocks hb
      exact ⟨p.bg, h.bg_lt, k, by omega, rfl⟩

end Takes

/-- The header of a group is below its cursor. -/
theorem header_mem_taken {g : Geometry} {bgs : Groups} (hinv : GroupsInv g bgs) {i k : ℕ}
    (hi : i < g.aux.groups) (hk : k < g.headerBlocks i) : g.start i + k ∈ taken g bgs :=
  ⟨i, hi, k, hk.trans_le (hinv i hi).header_le, rfl⟩

namespace TakesAll

variable {g : Geometry} {bgs bgs' bgs'' : Groups} {p : Piece} {ps qs : List Piece}

theorem single (h : Takes g bgs p bgs') : TakesAll g bgs [p] bgs' := .cons h (.nil _)

theorem inv (h : TakesAll g bgs ps bgs') (hinv : GroupsInv g bgs) : GroupsInv g bgs' := by
  induction h with
  | nil => exact hinv
  | cons head tail ih => exact ih (head.inv hinv)

theorem taken_eq (h : TakesAll g bgs ps bgs') :
    taken g bgs' = taken g bgs ∪ {b | b ∈ blocksOf ps} := by
  induction h with
  | nil => simp
  | cons head tail ih =>
      rw [ih, head.taken_eq, Set.union_assoc]
      congr 1
      ext b
      simp

theorem taken_subset (h : TakesAll g bgs ps bgs') : taken g bgs ⊆ taken g bgs' := by
  rw [h.taken_eq]
  exact Set.subset_union_left

theorem mem_taken (h : TakesAll g bgs ps bgs') {b : ℕ} (hb : b ∈ blocksOf ps) :
    b ∈ taken g bgs' := by
  rw [h.taken_eq]
  exact Or.inr hb

theorem mem_range (hg : g.Fits) (hinv : GroupsInv g bgs) (h : TakesAll g bgs ps bgs') {b : ℕ}
    (hb : b ∈ blocksOf ps) : g.aux.firstDataBlock ≤ b ∧ b < g.aux.lenBlocks := by
  induction h with
  | nil => simp at hb
  | cons head tail ih =>
      rcases List.mem_append.mp hb with hb | hb
      · exact head.mem_range hg hinv hb
      · exact ih (head.inv hinv) hb

theorem disjoint (hinv : GroupsInv g bgs) (h : TakesAll g bgs ps bgs') {b : ℕ}
    (hb : b ∈ blocksOf ps) : b ∉ taken g bgs := by
  induction h with
  | nil => simp at hb
  | cons head tail ih =>
      rcases List.mem_append.mp hb with hb | hb
      · exact head.disjoint hinv hb
      · intro hold
        refine ih (head.inv hinv) hb ?_
        rw [head.taken_eq]
        exact Or.inl hold

/-- No block is taken twice. -/
theorem nodup (hinv : GroupsInv g bgs) (h : TakesAll g bgs ps bgs') : (blocksOf ps).Nodup := by
  induction h with
  | nil => exact List.nodup_nil
  | cons head tail ih =>
      refine List.Nodup.append (Piece.nodup_blocks _) (ih (head.inv hinv)) ?_
      intro b hb hrest
      refine tail.disjoint (head.inv hinv) hrest ?_
      rw [head.taken_eq]
      exact Or.inr hb

end TakesAll

/-! ## Regions in the heap -/

namespace RegionHeap

variable (h : RegionHeap) (r : Region) (p q : ℕ)

@[simp] theorem write_brk : (h.write p r).brk = h.brk := rfl

theorem write_node_self : (h.write p r).node p = some r := Function.update_self _ _ _

theorem write_node_of_ne {p q : ℕ} (hne : q ≠ p) : (h.write p r).node q = h.node q :=
  Function.update_of_ne hne _ _

@[simp] theorem malloc_fst : (h.malloc r).1 = h.brk := rfl

@[simp] theorem malloc_brk : (h.malloc r).2.brk = h.brk + 1 := rfl

theorem malloc_node_self : (h.malloc r).2.node h.brk = some r := Function.update_self _ _ _

theorem malloc_node_of_ne {q : ℕ} (hne : q ≠ h.brk) : (h.malloc r).2.node q = h.node q :=
  Function.update_of_ne hne _ _

theorem deref_eq_ok {h : RegionHeap} {r : Region} {a : Option ℕ} :
    h.deref a = .ok r ↔ ∃ q, a = some q ∧ h.node q = some r := by
  cases a with
  | none => simp [deref]
  | some q =>
      cases hq : h.node q with
      | none => simp [deref, hq]
      | some r' => simp [deref, hq]

theorem deref_some {h : RegionHeap} {r : Region} {a : ℕ} :
    h.deref (some a) = .ok r ↔ h.node a = some r := by
  rw [deref_eq_ok]
  exact ⟨fun ⟨_, hp, hr⟩ => Option.some.inj hp ▸ hr, fun hr => ⟨a, rfl, hr⟩⟩

end RegionHeap

/-- The region that holds `p`, with its neighbours. -/
def Piece.region (p : Piece) (next prev : Option ℕ) : Region := ⟨p.block, p.len, p.bg, next, prev⟩

/-- The address of the first region of a list. -/
def headAddr (ns : List (ℕ × Piece)) : Option ℕ := ns.head?.map Prod.fst

/-- The regions `ns`, each at its address, form a doubly linked list whose first
region has `prev` before it. -/
def Linked (h : RegionHeap) : Option ℕ → List (ℕ × Piece) → Prop
  | _, [] => True
  | prev, (a, p) :: rest =>
      h.node a = some (p.region (headAddr rest) prev) ∧ Linked h (some a) rest

/-- A list does not notice changes elsewhere. -/
theorem Linked.congr {h h' : RegionHeap} {ns : List (ℕ × Piece)} :
    ∀ {prev : Option ℕ}, Linked h prev ns → (∀ n ∈ ns, h'.node n.1 = h.node n.1) →
      Linked h' prev ns := by
  induction ns with
  | nil => intros; trivial
  | cons n rest ih =>
      intro prev hlink hsame
      refine ⟨?_, ih hlink.2 fun m hm => hsame m (List.mem_cons_of_mem _ hm)⟩
      rw [hsame n List.mem_cons_self]
      exact hlink.1

/-- The blocks of the regions from `a` on, in the order of the list.  `fuel` bounds
the number of regions. -/
def regionBlocks (h : RegionHeap) : ℕ → Option ℕ → List ℕ
  | 0, _ => []
  | _ + 1, none => []
  | fuel + 1, some a =>
      match h.node a with
      | none => []
      | some r => List.range' r.block r.len ++ regionBlocks h fuel r.next

theorem Linked.regionBlocks_eq {h : RegionHeap} {ns : List (ℕ × Piece)} :
    ∀ {prev : Option ℕ} {fuel : ℕ}, Linked h prev ns → ns.length ≤ fuel →
      regionBlocks h fuel (headAddr ns) = blocksOf (ns.map Prod.snd) := by
  induction ns with
  | nil =>
      intro prev fuel _ _
      cases fuel <;> rfl
  | cons n rest ih =>
      intro prev fuel hlink hfuel
      cases fuel with
      | zero => simp at hfuel
      | succ fuel =>
          have hrest := ih hlink.2 (Nat.le_of_succ_le_succ hfuel)
          show regionBlocks h (fuel + 1) (some n.1) = _
          simp only [regionBlocks, hlink.1, List.map_cons, blocksOf_cons, ← hrest]
          rfl

/-! ## The allocation functions -/

section Functions

variable {g : Geometry} {s s' : State} {len i : ℕ}

/-- `ext4_allocate_blocks_from_block_group` in a group that has enough. -/
theorem fromBlockGroup_of_le (hg : g.Fits) (hinv : GroupsInv g s.bgs) (hi : i < g.aux.groups)
    (hlen : len ≤ (s.bgs i).freeBlocks) :
    ∃ bitmap, SetsRange (s.bgs i).bitmaps bitmap (s.bgs i).firstFreeBlock
        ((s.bgs i).firstFreeBlock + len) ∧
      ext4AllocateBlocksFromBlockGroup g len i s =
        .ok (u32 (g.start i + (s.bgs i).firstFreeBlock),
          s.setBg i ((s.bgs i).take len bitmap)) := by
  obtain ⟨bitmap, hset, hrun⟩ := (hinv i hi).reserveBlocks_cursor hg hlen
  refine ⟨bitmap, hset, ?_⟩
  unfold ext4AllocateBlocksFromBlockGroup
  simp only
  rw [if_neg (by omega), hrun, ← (hinv i hi).firstBlock]
  rfl

theorem fromBlockGroup_takes (hg : g.Fits) (hinv : GroupsInv g s.bgs) (hi : i < g.aux.groups)
    (hlen : len ≤ (s.bgs i).freeBlocks) {block : ℕ}
    (h : ext4AllocateBlocksFromBlockGroup g len i s = .ok (block, s')) :
    Takes g s.bgs ⟨block, len, i⟩ s'.bgs ∧ s' = { s with bgs := s'.bgs } := by
  obtain ⟨bitmap, hset, hrun⟩ := fromBlockGroup_of_le hg hinv hi hlen
  rw [hrun] at h
  simp only [Except.ok.injEq, Prod.mk.injEq] at h
  obtain ⟨rfl, rfl⟩ := h
  refine ⟨⟨hi, hlen, fun hpos => ?_, bitmap, hset, rfl⟩, rfl⟩
  have hend := Geometry.start_add_groupSize_le hg hi
  have hlt := hg.lenBlocks_lt
  have hlimit := (hinv i hi).limit_of_pos (hpos.trans_le hlen)
  exact u32_of_lt (by omega)

/-- A piece that is not empty is not taken for a failure. -/
theorem Takes.block_ne_failed (hg : g.Fits) {bgs bgs' : Groups} {p : Piece} (hinv : GroupsInv g bgs)
    (h : Takes g bgs p bgs') (hpos : 0 < p.len) : p.block ≠ EXT4_ALLOCATE_FAILED := by
  have hmem := h.mem_range hg hinv (Piece.mem_blocks.mpr ⟨le_rfl, by omega⟩)
  have hlt := hg.lenBlocks_lt
  unfold EXT4_ALLOCATE_FAILED
  omega

/-- `ext4_allocate_blocks_from_block_group` takes what it returns, or returns
nothing and changes nothing. -/
theorem fromBlockGroup_cases (hg : g.Fits) (hinv : GroupsInv g s.bgs) (hi : i < g.aux.groups)
    (hpos : 0 < len) {block : ℕ}
    (h : ext4AllocateBlocksFromBlockGroup g len i s = .ok (block, s')) :
    (s.bgs i).freeBlocks < len ∧ block = EXT4_ALLOCATE_FAILED ∧ s' = s ∨
      block ≠ EXT4_ALLOCATE_FAILED ∧ Takes g s.bgs ⟨block, len, i⟩ s'.bgs ∧
        s' = { s with bgs := s'.bgs } := by
  rcases Nat.lt_or_ge (s.bgs i).freeBlocks len with hfew | hlen
  · left
    unfold ext4AllocateBlocksFromBlockGroup at h
    simp only [if_pos hfew, Except.ok.injEq, Prod.mk.injEq] at h
    exact ⟨hfew, h.1.symm, h.2.symm⟩
  · right
    obtain ⟨htakes, hs⟩ := fromBlockGroup_takes hg hinv hi hlen h
    exact ⟨htakes.block_ne_failed hg hinv hpos, htakes, hs⟩

/-- `s'` is `s` after the blocks of `p` have been taken and a region for them
has been made, at the address `s.regions.brk`. -/
structure Allocates (g : Geometry) (s : State) (p : Piece) (s' : State) : Prop where
  takes : Takes g s.bgs p s'.bgs
  regions : s'.regions = (s.regions.malloc (p.region none none)).2
  out : s'.out = s.out

theorem allocates_newRegion {block : ℕ} (h : Takes g s.bgs ⟨block, len, i⟩ s'.bgs)
    (hs : s' = { s with bgs := s'.bgs }) :
    (newRegion s' block len i).1 = s.regions.brk ∧
      Allocates g s ⟨block, len, i⟩ (newRegion s' block len i).2 := by
  rw [hs]
  exact ⟨rfl, h, rfl, rfl⟩

/-- The loop of `ext4_allocate_contiguous_blocks` takes one piece of the length
asked for. -/
theorem contiguousLoop_cases (hg : g.Fits) (hpos : 0 < len) {r : Option ℕ} (left : ℕ) :
    ∀ (i : ℕ) (s : State), GroupsInv g s.bgs → i + left ≤ g.aux.groups →
      contiguousLoop g len left i s = .ok (r, s') →
      r = none ∧ s' = s ∧ (∀ j, i ≤ j → j < i + left → (s.bgs j).freeBlocks < len) ∨
        ∃ p, p.len = len ∧ r = some s.regions.brk ∧ Allocates g s p s' := by
  induction left with
  | zero =>
      intro i s _ _ h
      simp only [contiguousLoop, Except.ok.injEq, Prod.mk.injEq] at h
      exact Or.inl ⟨h.1.symm, h.2.symm, fun j h₁ h₂ => by omega⟩
  | succ left ih =>
      intro i s hinv hgroups h
      rw [contiguousLoop, bind_eq_ok] at h
      obtain ⟨⟨block, s₁⟩, hcall, h⟩ := h
      rcases fromBlockGroup_cases hg hinv (by omega) hpos hcall with
        ⟨hfew, rfl, rfl⟩ | ⟨hblock, htakes, hs⟩
      · simp only [ne_eq, not_true_eq_false, if_false] at h
        rcases ih (i + 1) s₁ hinv (by omega) h with ⟨hr, hs, hnone⟩ | hsome
        · refine Or.inl ⟨hr, hs, fun j h₁ h₂ => ?_⟩
          rcases Nat.eq_or_lt_of_le h₁ with rfl | hlt
          · exact hfew
          · exact hnone j hlt (by omega)
        · exact Or.inr hsome
      · simp only [ne_eq, hblock, not_false_eq_true, if_true, Except.ok.injEq,
          Prod.mk.injEq] at h
        obtain ⟨hr, hs'⟩ := h
        obtain ⟨hp, halloc⟩ := allocates_newRegion htakes hs
        exact Or.inr ⟨_, rfl, by rw [← hr, hp], hs' ▸ halloc⟩

theorem contiguous_cases (hg : g.Fits) (hinv : GroupsInv g s.bgs) (hpos : 0 < len) {r : Option ℕ}
    (h : ext4AllocateContiguousBlocks g len s = .ok (r, s')) :
    r = none ∧ s' = s ∧ (∀ j < g.aux.groups, (s.bgs j).freeBlocks < len) ∨
      ∃ p, p.len = len ∧ r = some s.regions.brk ∧ Allocates g s p s' := by
  rcases contiguousLoop_cases hg hpos g.aux.groups 0 s hinv (by omega) h with
    ⟨hr, hs, hnone⟩ | hsome
  · exact Or.inl ⟨hr, hs, fun j hj => hnone j (Nat.zero_le j) (by omega)⟩
  · exact Or.inr hsome

/-- `allocate_block` takes one block, if there is one. -/
theorem allocateBlockLoop_cases (hg : g.Fits) {block : ℕ} (left : ℕ) :
    ∀ (i : ℕ) (s : State), GroupsInv g s.bgs → i + left ≤ g.aux.groups →
      allocateBlockLoop g left i s = .ok (block, s') →
      block = EXT4_ALLOCATE_FAILED ∧ s' = s ∧
          (∀ j, i ≤ j → j < i + left → (s.bgs j).freeBlocks = 0) ∨
        ∃ i, Takes g s.bgs ⟨block, 1, i⟩ s'.bgs ∧ s' = { s with bgs := s'.bgs } := by
  induction left with
  | zero =>
      intro i s _ _ h
      simp only [allocateBlockLoop, Except.ok.injEq, Prod.mk.injEq] at h
      exact Or.inl ⟨h.1.symm, h.2.symm, fun j h₁ h₂ => by omega⟩
  | succ left ih =>
      intro i s hinv hgroups h
      rw [allocateBlockLoop, bind_eq_ok] at h
      obtain ⟨⟨block₁, s₁⟩, hcall, h⟩ := h
      rcases fromBlockGroup_cases hg hinv (by omega) Nat.one_pos hcall with
        ⟨hfew, rfl, rfl⟩ | ⟨hblock, htakes, hs⟩
      · simp only [ne_eq, not_true_eq_false, if_false] at h
        rcases ih (i + 1) s₁ hinv (by omega) h with ⟨hr, hs, hnone⟩ | hsome
        · refine Or.inl ⟨hr, hs, fun j h₁ h₂ => ?_⟩
          rcases Nat.eq_or_lt_of_le h₁ with rfl | hlt
          · omega
          · exact hnone j hlt (by omega)
        · exact Or.inr hsome
      · simp only [ne_eq, hblock, not_false_eq_true, if_true, Except.ok.injEq,
          Prod.mk.injEq] at h
        obtain ⟨rfl, rfl⟩ := h
        exact Or.inr ⟨i, htakes, hs⟩

theorem allocateBlock_cases (hg : g.Fits) (hinv : GroupsInv g s.bgs) {block : ℕ}
    (h : allocateBlock g s = .ok (block, s')) :
    block = EXT4_ALLOCATE_FAILED ∧ s' = s ∧ (∀ j < g.aux.groups, (s.bgs j).freeBlocks = 0) ∨
      ∃ i, Takes g s.bgs ⟨block, 1, i⟩ s'.bgs ∧ s' = { s with bgs := s'.bgs } := by
  rcases allocateBlockLoop_cases hg g.aux.groups 0 s hinv (by omega) h with
    ⟨hr, hs, hnone⟩ | hsome
  · exact Or.inl ⟨hr, hs, fun j hj => hnone j (Nat.zero_le j) (by omega)⟩
  · exact Or.inr hsome

/-- `ext4_allocate_partial` takes a piece: all that was asked for, or all that an
untouched group has.  An empty group is possible as long as nothing is known
about group sizes. -/
theorem partialLoop_cases (hg : g.Fits) (hinv : GroupsInv g s.bgs) (hpos : 0 < len)
    {r : Option ℕ} (left : ℕ) : ∀ i : ℕ, i + left ≤ g.aux.groups →
      partialLoop g len left i s = .ok (r, s') →
      r = none ∧ s' = s ∨ ∃ p, r = some s.regions.brk ∧ Allocates g s p s' ∧
        (p.len = len ∨ p.len < len ∧ p.len = (s.bgs p.bg).freeBlocks ∧
          (s.bgs p.bg).dataBlocksUsed = 0) := by
  induction left with
  | zero =>
      intro i _ h
      simp only [partialLoop, Except.ok.injEq, Prod.mk.injEq] at h
      exact Or.inl ⟨h.1.symm, h.2.symm⟩
  | succ left ih =>
      intro i hgroups h
      unfold partialLoop at h
      by_cases huntouched : (s.bgs i).dataBlocksUsed = 0
      · rw [if_pos huntouched] at h
        by_cases hfits : len ≤ (s.bgs i).freeBlocks
        · simp only [if_pos hfits] at h
          rcases contiguous_cases hg hinv hpos h with ⟨hr, hs, -⟩ | ⟨p, hlen, hr, halloc⟩
          · exact Or.inl ⟨hr, hs⟩
          · exact Or.inr ⟨p, hr, halloc, Or.inl hlen⟩
        · simp only [if_neg hfits] at h
          rw [bind_eq_ok] at h
          obtain ⟨⟨block, s₁⟩, hcall, h⟩ := h
          by_cases hblock : block = EXT4_ALLOCATE_FAILED
          · simp [hblock] at h
          · simp only [hblock, if_false, Except.ok.injEq, Prod.mk.injEq] at h
            obtain ⟨hr, hs'⟩ := h
            obtain ⟨htakes, hs⟩ := fromBlockGroup_takes hg hinv (by omega) le_rfl hcall
            obtain ⟨hp, halloc⟩ := allocates_newRegion htakes hs
            refine Or.inr ⟨_, by rw [← hr, hp], hs' ▸ halloc, Or.inr ⟨?_, rfl, huntouched⟩⟩
            exact not_le.mp hfits
      · rw [if_neg huntouched] at h
        exact ih (i + 1) (by omega) h

theorem partial_cases (hg : g.Fits) (hinv : GroupsInv g s.bgs) (hpos : 0 < len) {r : Option ℕ}
    (h : ext4AllocatePartial g len s = .ok (r, s')) :
    r = none ∧ s' = s ∨ ∃ p, r = some s.regions.brk ∧ Allocates g s p s' ∧
      (p.len = len ∨ p.len < len ∧ p.len = (s.bgs p.bg).freeBlocks ∧
        (s.bgs p.bg).dataBlocksUsed = 0) :=
  partialLoop_cases hg hinv hpos g.aux.groups 0 (by omega) h

/-- The pieces of a request for `len` blocks: each of them is all that is left of
the request, or all that an untouched group has. -/
inductive TakesMany (g : Geometry) : ℕ → Groups → List Piece → Groups → Prop where
  | nil (bgs : Groups) : TakesMany g 0 bgs [] bgs
  | cons {len : ℕ} {bgs bgs₁ bgs₂ : Groups} {p : Piece} {ps : List Piece} (pos : 0 < len)
      (head : Takes g bgs p bgs₁)
      (share : p.len = len ∨ p.len < len ∧ p.len = (bgs p.bg).freeBlocks ∧
        (bgs p.bg).dataBlocksUsed = 0)
      (tail : TakesMany g (len - p.len) bgs₁ ps bgs₂) : TakesMany g len bgs (p :: ps) bgs₂

namespace TakesMany

variable {bgs bgs' : Groups} {ps : List Piece}

theorem takesAll (h : TakesMany g len bgs ps bgs') : TakesAll g bgs ps bgs' := by
  induction h with
  | nil bgs => exact .nil bgs
  | cons _ head _ _ ih => exact .cons head ih

theorem lenOf_eq (h : TakesMany g len bgs ps bgs') : lenOf ps = len := by
  induction h with
  | nil bgs => rfl
  | cons _ head share tail ih =>
      rw [lenOf_cons, ih]
      omega

theorem eq_nil (h : TakesMany g 0 bgs ps bgs') : ps = [] ∧ bgs' = bgs := by
  cases h with
  | nil => exact ⟨rfl, rfl⟩
  | cons pos => exact absurd pos (lt_irrefl 0)

end TakesMany

/-- Regions `ns` have been made on the way from `h` to `h'` and linked behind
`prev`; no other region has changed. -/
structure Extends (h h' : RegionHeap) (prev : Option ℕ) (ns : List (ℕ × Piece)) : Prop where
  linked : Linked h' prev ns
  brk_le : h.brk ≤ h'.brk
  fresh : ∀ n ∈ ns, h.brk ≤ n.1 ∧ n.1 < h'.brk
  nodup : (ns.map Prod.fst).Nodup
  next : ∀ q r, prev = some q → h.node q = some r → h'.node q = some { r with next := headAddr ns }
  frame : ∀ q < h.brk, prev ≠ some q → h'.node q = h.node q

/-- There are no more new regions than addresses. -/
theorem Extends.length_le {h h' : RegionHeap} {prev : Option ℕ} {ns : List (ℕ × Piece)}
    (hext : Extends h h' prev ns) : ns.length ≤ h'.brk := by
  have hlt : ∀ a ∈ ns.map Prod.fst, a < h'.brk := by
    intro a ha
    obtain ⟨n, hn, rfl⟩ := List.mem_map.mp ha
    exact (hext.fresh n hn).2
  simpa using length_le_of_nodup hext.nodup hlt

theorem Allocates.regions_eq {p : Piece} (h : Allocates g s p s') :
    s'.regions.brk = s.regions.brk + 1 ∧
      s'.regions.node s.regions.brk = some (p.region none none) ∧
      ∀ q, q ≠ s.regions.brk → s'.regions.node q = s.regions.node q := by
  rw [h.regions]
  exact ⟨rfl, RegionHeap.malloc_node_self _ _, fun q hq => RegionHeap.malloc_node_of_ne _ _ hq⟩

/-- One round of `ext4_allocate_multiple_contiguous_blocks` hangs the new region
behind the last one. -/
theorem linkRegions_cases {h h' : RegionHeap} {prev : Option ℕ} {reg : ℕ} {p : Piece}
    (hreg : h.node reg = some (p.region none none)) (hprev : prev ≠ some reg)
    (hlink : linkRegions h prev reg = .ok h') :
    h'.brk = h.brk ∧ h'.node reg = some (p.region none prev) ∧
      (∀ q r, prev = some q → h.node q = some r → h'.node q = some { r with next := some reg }) ∧
      ∀ q, prev ≠ some q → q ≠ reg → h'.node q = h.node q := by
  cases prev with
  | none =>
      simp only [linkRegions, Except.ok.injEq] at hlink
      subst hlink
      exact ⟨rfl, hreg, by simp, fun _ _ _ => rfl⟩
  | some q =>
      have hne : reg ≠ q := fun h => hprev (by rw [h])
      simp only [linkRegions, bind_eq_ok, RegionHeap.deref_eq_ok, Option.some.injEq] at hlink
      obtain ⟨rq, ⟨_, rfl, hq⟩, rr, ⟨_, rfl, hr⟩, hlink⟩ := hlink
      rw [RegionHeap.write_node_of_ne _ _ hne, hreg, Option.some.injEq] at hr
      simp only [Except.ok.injEq] at hlink
      subst hr hlink
      refine ⟨rfl, RegionHeap.write_node_self _ _ _, ?_, ?_⟩
      · rintro q' r hq' hr
        cases hq'
        rw [hq, Option.some.injEq] at hr
        subst hr
        rw [RegionHeap.write_node_of_ne _ _ hne.symm, RegionHeap.write_node_self]
      · intro q' hq' hreg'
        have hq' : q' ≠ q := fun h => hq' (by rw [h])
        rw [RegionHeap.write_node_of_ne _ _ hreg', RegionHeap.write_node_of_ne _ _ hq']

/-- Adding a region in front of those that the later rounds make. -/
theorem Extends.cons {h h₁ h₂ h' : RegionHeap} {prev : Option ℕ} {p : Piece}
    {ns : List (ℕ × Piece)} (hbrk₁ : h₁.brk = h.brk + 1)
    (hother₁ : ∀ q, q ≠ h.brk → h₁.node q = h.node q)
    (hbrk₂ : h₂.brk = h₁.brk) (hreg₂ : h₂.node h.brk = some (p.region none prev))
    (hnext₂ : ∀ q r, prev = some q → h₁.node q = some r →
      h₂.node q = some { r with next := some h.brk })
    (hother₂ : ∀ q, prev ≠ some q → q ≠ h.brk → h₂.node q = h₁.node q)
    (hprev : ∀ q, prev = some q → q < h.brk)
    (hext : Extends h₂ h' (some h.brk) ns) : Extends h h' prev ((h.brk, p) :: ns) where
  linked := ⟨hext.next _ _ rfl hreg₂, hext.linked⟩
  brk_le := by
    have := hext.brk_le
    omega
  fresh := by
    intro n hn
    have hle := hext.brk_le
    rcases List.mem_cons.mp hn with rfl | hn
    · exact ⟨le_rfl, by omega⟩
    · have := hext.fresh n hn
      omega
  nodup := by
    refine List.nodup_cons.mpr ⟨?_, hext.nodup⟩
    intro hmem
    obtain ⟨n, hn, heq⟩ := List.mem_map.mp hmem
    have := hext.fresh n hn
    omega
  next := by
    intro q r hq hr
    have hlt := hprev q hq
    rw [hext.frame q (by omega) (by simp; omega)]
    exact hnext₂ q r hq (by rw [hother₁ q (by omega)]; exact hr)
  frame := by
    intro q hq hne
    rw [hext.frame q (by omega) (by simp; omega), hother₂ q hne (by omega), hother₁ q (by omega)]

theorem Extends.refl {h : RegionHeap} {prev : Option ℕ}
    (hprev : ∀ q r, prev = some q → h.node q = some r → r.next = none) :
    Extends h h prev [] where
  linked := trivial
  brk_le := le_rfl
  fresh := by simp
  nodup := List.nodup_nil
  next := by
    intro q r hq hr
    have hlast : headAddr [] = r.next := (hprev q r hq hr).symm
    rw [hr, hlast]
  frame := fun _ _ _ => rfl

/-- A request that one group has taken. -/
theorem Allocates.extends {p : Piece} (h : Allocates g s p s') :
    Extends s.regions s'.regions none [(s.regions.brk, p)] := by
  obtain ⟨hbrk, hreg, hother⟩ := h.regions_eq
  refine Extends.cons hbrk hother rfl hreg (by simp) (fun _ _ _ => rfl) (by simp)
    (Extends.refl ?_)
  intro q r hq hr
  cases hq
  rw [hreg, Option.some.injEq] at hr
  rw [← hr]
  rfl

/-- The loop of `ext4_allocate_multiple_contiguous_blocks`, when it ends: the
request has been taken and its regions are linked, or it gives up and some
pieces of it stay taken. -/
theorem multipleLoop_cases (hg : g.Fits) {r : Option ℕ} (fuel : ℕ) :
    ∀ (len : ℕ) (first prev : Option ℕ) (s : State), GroupsInv g s.bgs →
      (∀ q, prev = some q → q < s.regions.brk) →
      (∀ q r, prev = some q → s.regions.node q = some r → r.next = none) →
      multipleLoop g fuel len first prev s = .ok (r, s') →
      s'.out = s.out ∧ ∃ ns, Extends s.regions s'.regions prev ns ∧
        (r = first.or (headAddr ns) ∧ TakesMany g len s.bgs (ns.map Prod.snd) s'.bgs ∨
          r = none ∧ TakesAll g s.bgs (ns.map Prod.snd) s'.bgs) := by
  induction fuel with
  | zero =>
      intro len first prev s _ _ hnext h
      unfold multipleLoop at h
      by_cases hlen : len = 0
      · simp only [hlen, if_true, Except.ok.injEq, Prod.mk.injEq] at h
        obtain ⟨rfl, rfl⟩ := h
        subst hlen
        exact ⟨rfl, [], Extends.refl hnext, Or.inl ⟨by simp [headAddr], .nil _⟩⟩
      · simp [hlen] at h
  | succ fuel ih =>
      intro len first prev s hinv hprev hnext h
      unfold multipleLoop at h
      by_cases hlen : len = 0
      · simp only [hlen, if_true, Except.ok.injEq, Prod.mk.injEq] at h
        obtain ⟨rfl, rfl⟩ := h
        subst hlen
        exact ⟨rfl, [], Extends.refl hnext, Or.inl ⟨by simp [headAddr], .nil _⟩⟩
      · rw [if_neg hlen, bind_eq_ok] at h
        obtain ⟨⟨reg, s₁⟩, hcall, h⟩ := h
        rcases partial_cases hg hinv (by omega) hcall with ⟨rfl, rfl⟩ | ⟨p, rfl, halloc, hshare⟩
        · simp only [Except.ok.injEq, Prod.mk.injEq] at h
          obtain ⟨rfl, rfl⟩ := h
          exact ⟨rfl, [], Extends.refl hnext, Or.inr ⟨rfl, .nil _⟩⟩
        · simp only [bind_eq_ok] at h
          obtain ⟨regions, hlink, rr, hderef, h⟩ := h
          obtain ⟨hbrk₁, hreg₁, hother₁⟩ := halloc.regions_eq
          obtain ⟨hbrk₂, hreg₂, hnext₂, hother₂⟩ := linkRegions_cases hreg₁
            (fun h => absurd (hprev _ h) (lt_irrefl _)) hlink
          -- the region made in this round is the last one for the rounds to come
          rw [RegionHeap.deref_eq_ok] at hderef
          obtain ⟨_, hq, hrr⟩ := hderef
          cases hq
          rw [hreg₂, Option.some.injEq] at hrr
          subst hrr
          have hlt : s.regions.brk < regions.brk := by omega
          have hlast : ∀ q r, some s.regions.brk = some q → regions.node q = some r →
              r.next = none := by
            intro q r hq hr
            cases hq
            rw [hreg₂, Option.some.injEq] at hr
            rw [← hr]
            rfl
          obtain ⟨hout, ns, hext, htakes⟩ := ih _ _ (some s.regions.brk)
            { s₁ with regions := regions } (halloc.takes.inv hinv)
            (by intro q hq; cases hq; exact hlt) hlast h
          refine ⟨hout.trans halloc.out, (s.regions.brk, p) :: ns, ?_, ?_⟩
          · exact Extends.cons hbrk₁ hother₁ hbrk₂ hreg₂ hnext₂ hother₂ hprev hext
          · rcases htakes with ⟨hr, hmany⟩ | ⟨hr, hall⟩
            · left
              refine ⟨?_, .cons (Nat.pos_of_ne_zero hlen) halloc.takes hshare hmany⟩
              rw [hr]
              cases first <;> rfl
            · exact Or.inr ⟨hr, .cons halloc.takes hall⟩

/-- `do_allocate` tries one group, and spreads the request when there is none. -/
theorem doAllocate_eq_ok {r : Option ℕ} : doAllocate g len s = .ok (r, s') ↔
    (∃ a, ext4AllocateContiguousBlocks g len s = .ok (some a, s') ∧ r = some a) ∨
      ∃ s₁, ext4AllocateContiguousBlocks g len s = .ok (none, s₁) ∧
        ext4AllocateMultipleContiguousBlocks g len s₁ = .ok (r, s') := by
  unfold doAllocate
  rw [bind_eq_ok]
  constructor
  · rintro ⟨⟨reg, s₁⟩, hcall, h⟩
    cases reg with
    | none => exact Or.inr ⟨s₁, hcall, h⟩
    | some a =>
        cases h
        exact Or.inl ⟨a, hcall, rfl⟩
  · rintro (⟨a, hcall, rfl⟩ | ⟨s₁, hcall, h⟩)
    · exact ⟨_, hcall, rfl⟩
    · exact ⟨_, hcall, h⟩

/-- `allocate_blocks` makes a list of what `do_allocate` finds. -/
theorem allocateBlocks_eq_ok {r : Option BlockAllocation} :
    allocateBlocks g len s = .ok (r, s') ↔ ∃ reg, doAllocate g len s = .ok (reg, s') ∧
      r = reg.map fun a => { createAllocation with list := ⟨some a, some a, some a, 0⟩ } := by
  unfold allocateBlocks
  rw [bind_eq_ok]
  constructor
  · rintro ⟨⟨reg, s₁⟩, hcall, h⟩
    cases reg with
    | none =>
        cases h
        exact ⟨none, hcall, rfl⟩
    | some a =>
        cases h
        exact ⟨some a, hcall, rfl⟩
  · rintro ⟨reg, hcall, rfl⟩
    refine ⟨_, hcall, ?_⟩
    cases reg <;> rfl

/-- `do_allocate`, when it ends. -/
theorem doAllocate_cases (hg : g.Fits) (hinv : GroupsInv g s.bgs) (hpos : 0 < len) {r : Option ℕ}
    (h : doAllocate g len s = .ok (r, s')) :
    s'.out = s.out ∧ ∃ ns, Extends s.regions s'.regions none ns ∧
      (r = headAddr ns ∧ TakesMany g len s.bgs (ns.map Prod.snd) s'.bgs ∨
        r = none ∧ TakesAll g s.bgs (ns.map Prod.snd) s'.bgs) := by
  obtain ⟨a, hcall, rfl⟩ | ⟨s₁, hcall, hloop⟩ := doAllocate_eq_ok.mp h
  · obtain ⟨hnone, -⟩ | ⟨p, hlen, ha, halloc⟩ := contiguous_cases hg hinv hpos hcall
    · cases hnone
    cases ha
    refine ⟨halloc.out, [(s.regions.brk, p)], halloc.extends, Or.inl ⟨rfl, ?_⟩⟩
    exact .cons hpos halloc.takes (Or.inl hlen) (by simpa [hlen] using TakesMany.nil _)
  · obtain ⟨-, rfl, -⟩ | ⟨p, -, hsome, -⟩ := contiguous_cases hg hinv hpos hcall
    · simpa using multipleLoop_cases hg (g.aux.groups + 1) len none none s₁ hinv (by simp)
        (by simp) hloop
    · cases hsome

/-- `allocate_blocks`, when it ends: all of the request is taken, or there is no
allocation and some pieces of the request stay taken. -/
theorem allocateBlocks_cases (hg : g.Fits) (hinv : GroupsInv g s.bgs) (hpos : 0 < len)
    {r : Option BlockAllocation} (h : allocateBlocks g len s = .ok (r, s')) :
    s'.out = s.out ∧ ∃ ns, Extends s.regions s'.regions none ns ∧
      ((∃ a p rest, ns = (a, p) :: rest ∧
          r = some { createAllocation with list := ⟨some a, some a, some a, 0⟩ } ∧
          TakesMany g len s.bgs (ns.map Prod.snd) s'.bgs) ∨
        r = none ∧ TakesAll g s.bgs (ns.map Prod.snd) s'.bgs) := by
  obtain ⟨reg, hcall, rfl⟩ := allocateBlocks_eq_ok.mp h
  obtain ⟨hout, ns, hext, htakes⟩ := doAllocate_cases hg hinv hpos hcall
  cases reg with
  | none =>
      refine ⟨hout, ns, hext, Or.inr ⟨rfl, ?_⟩⟩
      rcases htakes with ⟨-, hmany⟩ | ⟨-, hall⟩
      · exact hmany.takesAll
      · exact hall
  | some reg =>
      rcases htakes with ⟨hr, hmany⟩ | ⟨hr, -⟩
      · cases ns with
        | nil => cases hr
        | cons n rest =>
            cases hr
            exact ⟨hout, _, hext, Or.inl ⟨n.1, n.2, rest, rfl, rfl, hmany⟩⟩
      · cases hr

end Functions

end SystemExtras.Ext4
